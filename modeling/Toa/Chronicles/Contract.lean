import Mathlib.Data.List.Nodup
import Mathlib.Data.List.Forall2
import Mathlib.Order.Nat
import Toa.Lib.Json

/-! What of a payload is written to the log: the properties its contract declares, at every depth.
A property is read off a payload through its prototypes and written by assignment, so the names
that `Object.prototype` has are read where a payload does not carry them. -/

namespace Toa.Chronicles

inductive Number
  | finite (value : ℚ)
  | infinite (negative : Bool)
  | nan

def Number.isFinite : Number → Bool
  | .finite _ => true
  | _ => false

def Number.isInteger : Number → Bool
  | .finite value => value.den = 1
  | _ => false

/-- The properties of an object are its own, in order, and those of its prototype. `prototype` is
`Object.prototype`, whose own prototype is `null`. -/
inductive Value
  | undefined
  | null
  | boolean (value : Bool)
  | number (value : Number)
  | bigint (value : ℤ)
  | string (value : String)
  | function
  | array (items : List Value)
  | object (own : List (String × Value)) (proto : Value)
  | prototype

namespace Value

/-- `{}` -/
def empty : Value := .object [] .prototype

/-- What `__proto__` reads off an object. -/
def proto : Value → Value
  | .object _ proto => proto
  | .prototype => .null
  | _ => .undefined

/-- A property of `receiver`, looked for along its prototypes. -/
def find (receiver : Value) : Value → String → Value
  | .object own proto, name =>
    match own.lookup name with
    | some value => value
    | none => receiver.find proto name
  | .prototype, name =>
    if name = "__proto__" then receiver.proto
    else if name ∈ Json.INHERITED then .function
    else .undefined
  | _, _ => .undefined

/-- `payload[name]` -/
def get (payload : Value) (name : String) : Value := payload.find payload name

def assign (name : String) (value : Value) : List (String × Value) → List (String × Value)
  | [] => [(name, value)]
  | (n, v) :: own => if n = name then (n, value) :: own else (n, v) :: assign name value own

/-- `projected[name] = value`, of an object made as `{}`. An assignment of `__proto__` is of the
prototype, where it is of one, and is nothing otherwise. -/
def set (projected : Value) (name : String) (value : Value) : Value :=
  match projected with
  | .object own proto =>
    if name = "__proto__" then
      match value with
      | .null | .array _ | .object _ _ | .function | .prototype => .object own value
      | _ => .object own proto
    else .object (assign name value own) proto
  | other => other

end Value

/-- `Property`, less the descriptions and formats, which are for who reads the log. -/
inductive Property
  | string (enum : Option (List String))
  | integer
  | number
  | boolean
  | object (properties : List (String × Property))
  | array (items : Property)

def Property.type : Property → String
  | .string _ => "string"
  | .integer => "integer"
  | .number => "number"
  | .boolean => "boolean"
  | .object _ => "object"
  | .array _ => "array"

structure Mismatch where
  path : String
  message : String
  deriving DecidableEq

def quoted (value : String) : String := s!"'{value}'"

def Mismatch.of (path : String) (property : Property) : Mismatch where
  path := path
  message := match property with
    | .string (some enum) =>
      let values := ", ".intercalate (enum.map quoted)
      s!"'{path}' is not one of {values}"
    | other => s!"'{path}' is not of the type '{other.type}'"

def within (path name : String) : String := if path = "" then name else s!"{path}.{name}"

/-- `items.map((item, index) => f(item, index))`, where `f` may throw. -/
def mapItems {ε : Type} (f : Value → ℕ → Except ε Value) (index : ℕ) :
    List Value → Except ε (List Value)
  | [] => .ok []
  | item :: items => do
    let value ← f item index
    let values ← mapItems f (index + 1) items
    return value :: values

mutual

def project : List (String × Property) → Value → String → Value → Except Mismatch Value
  | [], _, _, projected => .ok projected
  | (name, property) :: properties, payload, path, projected =>
    match payload.get name with
    | .undefined => project properties payload path projected
    | value => do
      let fitted ← fit property value (within path name)
      project properties payload path (projected.set name fitted)

def fit : Property → Value → String → Except Mismatch Value
  | _, .null, _ => .ok .null
  | .string none, .string value, _ => .ok (.string value)
  | .string (some enum), .string value, path =>
    if value ∈ enum then .ok (.string value) else .error (.of path (.string (some enum)))
  | .integer, .number value, path =>
    if value.isInteger then .ok (.number value) else .error (.of path .integer)
  | .number, .number value, path =>
    if value.isFinite then .ok (.number value) else .error (.of path .number)
  | .boolean, .boolean value, _ => .ok (.boolean value)
  | .object properties, .object own proto, path =>
    project properties (.object own proto) path .empty
  | .object properties, .prototype, path => project properties .prototype path .empty
  | .array items, .array values, path =>
    (mapItems (fun item index => fit items item s!"{path}[{index}]") 0 values).map .array
  | property, _, path => .error (.of path property)

end

/-- What an object carries itself; one that is `undefined` is absent. -/
def carried (own : List (String × Value)) (name : String) : Option Value :=
  match own.lookup name with
  | some .undefined => none
  | found => found

def Property.Scalar : Property → Value → Prop
  | .string none, .string _ => True
  | .string (some enum), .string value => value ∈ enum
  | .integer, .number value => value.isInteger
  | .number, .number value => value.isFinite
  | .boolean, .boolean _ => True
  | _, _ => False

/-- A value is of its declared type, or `null`, and so is all that it carries of what is
declared. -/
inductive Fits : Property → Value → Prop
  | null {property : Property} : Fits property .null
  | scalar {property : Property} {value : Value} : property.Scalar value → Fits property value
  | array {items : Property} {values : List Value} :
    (∀ value ∈ values, Fits items value) → Fits (.array items) (.array values)
  | object {properties : List (String × Property)} {own : List (String × Value)} {proto : Value} :
    (∀ name property value, properties.lookup name = some property →
      carried own name = some value → Fits property value) →
    Fits (.object properties) (.object own proto)

/-- What is kept of a value: of an object, a plain one of exactly the declared properties that it
carries, each with what is kept of its value. -/
inductive Kept : Property → Value → Value → Prop
  | null {property : Property} : Kept property .null .null
  | scalar {property : Property} {value : Value} :
    property.Scalar value → Kept property value value
  | array {items : Property} {values kept : List Value} :
    values.length = kept.length →
    (∀ i (h : i < values.length) (h' : i < kept.length), Kept items values[i] kept[i]) →
    Kept (.array items) (.array values) (.array kept)
  | object {properties : List (String × Property)} {own kept : List (String × Value)}
    {proto : Value} :
    (kept.map Prod.fst).Nodup →
    (∀ name, name ∈ kept.map Prod.fst ↔
      (properties.lookup name).isSome ∧ (carried own name).isSome) →
    (∀ name property value value', properties.lookup name = some property →
      carried own name = some value → kept.lookup name = some value' →
      Kept property value value') →
    Kept (.object properties) (.object own proto) (.object kept .prototype)

/-- An object that is read under a contract: one the contract declares properties of. -/
inductive Reaches : Property → Value → List (String × Property) → List (String × Value) → Prop
  | here {properties : List (String × Property)} {own : List (String × Value)} {proto : Value} :
    Reaches (.object properties) (.object own proto) properties own
  | item {items : Property} {values : List Value} {value : Value}
    {properties : List (String × Property)} {own : List (String × Value)} :
    value ∈ values → Reaches items value properties own →
    Reaches (.array items) (.array values) properties own
  | property {outer : List (String × Property)} {carrier : List (String × Value)} {proto : Value}
    {name : String} {property : Property} {value : Value}
    {properties : List (String × Property)} {own : List (String × Value)} :
    outer.lookup name = some property → carried carrier name = some value →
    Reaches property value properties own →
    Reaches (.object outer) (.object carrier proto) properties own

/-- Of the names that `Object.prototype` has, only ones that an object carries are read off it, and
`__proto__` is not. -/
def Clear (property : Property) (value : Value) : Prop :=
  ∀ properties own, Reaches property value properties own →
    ∀ name ∈ Json.INHERITED, (properties.lookup name).isSome →
      name ≠ "__proto__" ∧ (carried own name).isSome

inductive Plain : Value → Prop
  | undefined : Plain .undefined
  | null : Plain .null
  | boolean (value : Bool) : Plain (.boolean value)
  | number (value : Number) : Plain (.number value)
  | bigint (value : ℤ) : Plain (.bigint value)
  | string (value : String) : Plain (.string value)
  | array {values : List Value} : (∀ value ∈ values, Plain value) → Plain (.array values)
  | object {own : List (String × Value)} :
    (∀ entry ∈ own, Plain entry.2) → Plain (.object own .prototype)

inductive Distinct : Property → Prop
  | string (enum : Option (List String)) : Distinct (.string enum)
  | integer : Distinct .integer
  | number : Distinct .number
  | boolean : Distinct .boolean
  | object {properties : List (String × Property)} : (properties.map Prod.fst).Nodup →
    (∀ entry ∈ properties, Distinct entry.2) → Distinct (.object properties)
  | array {items : Property} : Distinct items → Distinct (.array items)

structure Contract where
  properties : List (String × Property)
  distinct : Distinct (.object properties)

structure Payload where
  value : Value
  plain : Plain value

def OWN : List String := ["id", "time", "received", "entity", "version", "identity", "trace"]

/-- `/^[a-zA-Z_][a-zA-Z0-9_]*$/` -/
def NAME (name : String) : Bool :=
  match name.toList with
  | [] => false
  | first :: rest =>
    (first.isAlpha || first = '_') && rest.all fun c => c.isAlphanum || c = '_'

def named (name path : String) : Except String Unit :=
  if NAME name then .ok () else
    .error s!"Chronicles declare '{path}': a property is named by letters, digits and underscores from a letter or an underscore."

mutual

/-- `inspect`, of what is a schema of a property otherwise. -/
def inspect : Property → String → Except String Unit
  | .string (some []), path =>
    .error s!"Chronicles declare '{path}' with an enum that is not of strings."
  | .object properties, path => inspectAll properties path
  | .array items, path => inspect items s!"{path}[]"
  | _, _ => .ok ()

def inspectAll : List (String × Property) → String → Except String Unit
  | [], _ => .ok ()
  | (key, nested) :: properties, path => do
    named key s!"{path}.{key}"
    inspect nested s!"{path}.{key}"
    inspectAll properties path

end

/-- `check`: a component declares no contract that this refuses. -/
def Contract.check (contract : Contract) (place : String) : Except String Unit :=
  contract.properties.forM fun (name, property) => do
    if name ∈ OWN then
      throw s!"Chronicles declare '{place}.{name}', which is a column of the row: the payload's '{name}' is read before the contract, and is not declared."
    named name s!"{place}.{name}"
    inspect property s!"{place}.{name}"

/-- A payload that is not an object is a property of one. -/
def object (payload : Value) : Value :=
  match payload with
  | .object own proto => .object own proto
  | .prototype => .prototype
  | other => .object [("value", other)] .prototype

section
variable (contract : Contract) (payload : Payload)

def written : Except Mismatch Value := project contract.properties (object payload.value) "" .empty

def Admits : Prop := Fits (.object contract.properties) (object payload.value)

/-- A refusal is of a payload that is not of the contract, and what is written is of one that is:
what is kept of it, which is all kept when it is projected again. -/
def Exact : Prop :=
  match written contract payload with
  | .error _ => ¬ Admits contract payload
  | .ok kept => Admits contract payload ∧
    Kept (.object contract.properties) (object payload.value) kept ∧
    project contract.properties kept "" .empty = .ok kept

end

theorem bind_eq_ok {ε α β : Type} {x : Except ε α} {f : α → Except ε β} {b : β} :
    x.bind f = .ok b ↔ ∃ a, x = .ok a ∧ f a = .ok b := by
  cases x <;> simp [Except.bind]

theorem map_eq_ok {ε α β : Type} {x : Except ε α} {f : α → β} {b : β} :
    x.map f = .ok b ↔ ∃ a, x = .ok a ∧ f a = b := by
  cases x <;> simp [Except.map]

theorem Property.induct {P : Property → Prop} (string : ∀ enum, P (.string enum))
    (integer : P .integer) (number : P .number) (boolean : P .boolean)
    (object : ∀ properties : List (String × Property),
      (∀ entry ∈ properties, P entry.2) → P (.object properties))
    (array : ∀ items, P items → P (.array items)) : ∀ property, P property
  | .string enum => string enum
  | .integer => integer
  | .number => number
  | .boolean => boolean
  | .object properties => object properties fun entry h =>
    have : sizeOf entry.2 < sizeOf properties := by
      have := List.sizeOf_lt_of_mem h
      cases entry
      simp only [Prod.mk.sizeOf_spec] at this ⊢
      omega
    Property.induct string integer number boolean object array entry.2
  | .array items =>
    array items (Property.induct string integer number boolean object array items)

section Items
variable {ε : Type} {f : Value → ℕ → Except ε Value}

theorem mapItems_cons {index : ℕ} {item : Value} {items values : List Value} :
    mapItems f index (item :: items) = .ok values ↔
      ∃ value, f item index = .ok value ∧
        ∃ rest, mapItems f (index + 1) items = .ok rest ∧ values = value :: rest := by
  simp only [mapItems, bind, pure, Except.pure, bind_eq_ok, Except.ok.injEq,
    eq_comm (a := values)]

theorem mapItems_forall {index : ℕ} {items values : List Value}
    (h : mapItems f index items = .ok values) :
    ∀ item ∈ items, ∃ i value, f item i = .ok value := by
  induction items generalizing index values with
  | nil => simp
  | cons item items ih =>
    obtain ⟨value, hvalue, rest, hrest, rfl⟩ := mapItems_cons.mp h
    intro x hx
    rcases List.mem_cons.mp hx with rfl | hx
    · exact ⟨index, value, hvalue⟩
    · exact ih hrest x hx

theorem exists_mapItems {R : Value → Value → Prop} {items : List Value}
    (h : ∀ item ∈ items, ∀ i, ∃ value, f item i = .ok value ∧ R item value ∧
      f value i = .ok value) (index : ℕ) :
    ∃ values, mapItems f index items = .ok values ∧ List.Forall₂ R items values ∧
      mapItems f index values = .ok values := by
  induction items generalizing index with
  | nil => exact ⟨[], rfl, .nil, rfl⟩
  | cons item items ih =>
    obtain ⟨value, hvalue, hR, hagain⟩ := h item List.mem_cons_self index
    obtain ⟨values, hvalues, hRs, hagains⟩ :=
      ih (fun item hitem => h item (List.mem_cons_of_mem _ hitem)) (index + 1)
    exact ⟨value :: values, mapItems_cons.mpr ⟨value, hvalue, values, hvalues, rfl⟩,
      .cons hR hRs, mapItems_cons.mpr ⟨value, hagain, values, hagains, rfl⟩⟩

theorem mapItems_again {R : Value → Value → Prop} {index : ℕ} {items values : List Value}
    (h : mapItems f index items = .ok values) (hR : List.Forall₂ R items values)
    (hagain : mapItems f index values = .ok values) :
    ∀ item ∈ items, ∃ i value, f item i = .ok value ∧ R item value ∧ f value i = .ok value := by
  induction hR generalizing index with
  | nil => simp
  | @cons item value items values hRx _ ih =>
    obtain ⟨_, hvalue, _, hrest, heq⟩ := mapItems_cons.mp h
    obtain ⟨_, hvalue', _, hrest', heq'⟩ := mapItems_cons.mp hagain
    obtain ⟨rfl, rfl⟩ := List.cons.inj heq
    obtain ⟨rfl, rfl⟩ := List.cons.inj heq'
    intro x hx
    rcases List.mem_cons.mp hx with rfl | hx
    · exact ⟨index, value, hvalue, hRx, hvalue'⟩
    · exact ih hrest hrest' x hx

end Items

/-- What `fit` admits, by what it does with it. -/
inductive Fitted (path : String) : Property → Value → Value → Prop
  | null (property : Property) : Fitted path property .null .null
  | scalar {property : Property} {value : Value} (h : property.Scalar value) :
    Fitted path property value value
  | prototype {properties : List (String × Property)} {fitted : Value}
    (hproject : project properties .prototype path .empty = .ok fitted) :
    Fitted path (.object properties) .prototype fitted
  | object {properties : List (String × Property)} {own : List (String × Value)} {proto fitted : Value}
    (hproject : project properties (.object own proto) path .empty = .ok fitted) :
    Fitted path (.object properties) (.object own proto) fitted
  | array {items : Property} {values kept : List Value}
    (hmap : mapItems (fun item index => fit items item s!"{path}[{index}]") 0 values = .ok kept) :
    Fitted path (.array items) (.array values) (.array kept)

theorem fitted_of_ok {property : Property} {value : Value} {path : String} {fitted : Value}
    (h : fit property value path = .ok fitted) : Fitted path property value fitted := by
  fun_cases fit property value path with
  | case1 =>
    simp only [fit] at h
    cases h
    exact .null property
  | case2 | case9 =>
    simp only [fit] at h
    cases h
    exact .scalar trivial
  | case3 =>
    rename_i hmem
    simp only [fit, if_pos hmem] at h
    cases h
    exact .scalar hmem
  | case5 | case7 =>
    rename_i hnumber
    simp only [fit, if_pos hnumber] at h
    cases h
    exact .scalar hnumber
  | case10 => exact .object (by rwa [fit] at h)
  | case11 => exact .prototype (by rwa [fit] at h)
  | case12 =>
    rw [fit] at h
    obtain ⟨kept, hmap, rfl⟩ := map_eq_ok.mp h
    exact .array hmap
  | _ => simp_all [fit]

theorem scalar_ne {property : Property} {value : Value} (h : property.Scalar value) :
    value ≠ .undefined ∧ value ≠ .function ∧ value ≠ .prototype := by
  refine ⟨?_, ?_, ?_⟩
  all_goals
    rintro rfl
    cases property with
    | string enum => cases enum <;> cases h
    | _ => cases h

theorem fit_scalar {property : Property} {value : Value} (h : property.Scalar value)
    (path : String) : fit property value path = .ok value := by
  cases property with
  | string enum => cases value <;> cases enum <;> simp_all [fit, Property.Scalar]
  | integer => cases value <;> simp_all [fit, Property.Scalar]
  | number => cases value <;> simp_all [fit, Property.Scalar]
  | boolean => cases value <;> simp_all [fit, Property.Scalar]
  | object properties => cases h
  | array items => cases h

theorem fit_null (property : Property) (path : String) : fit property .null path = .ok .null := by
  cases property <;> simp [fit]

section Reading
variable {own : List (String × Value)} {name : String}

theorem carried_eq_some {value : Value} :
    carried own name = some value ↔ own.lookup name = some value ∧ value ≠ .undefined := by
  unfold carried
  split
  · rename_i h
    simp only [h, Option.some.injEq, reduceCtorEq, false_iff, not_and, not_not]
    exact Eq.symm
  · rename_i h
    constructor
    · intro hvalue
      exact ⟨hvalue, fun hundefined => h (hundefined ▸ hvalue)⟩
    · exact And.left

theorem get_of_lookup {value : Value} (proto : Value) (h : own.lookup name = some value) :
    (Value.object own proto).get name = value := by
  simp only [Value.get, Value.find, h]

theorem get_of_carried {value : Value} (proto : Value) (h : carried own name = some value) :
    (Value.object own proto).get name = value :=
  get_of_lookup proto (carried_eq_some.mp h).1

theorem get_of_absent (h : carried own name = none) (hname : name ∉ Json.INHERITED) :
    (Value.object own .prototype).get name = .undefined := by
  have hproto : name ≠ "__proto__" := by
    rintro rfl
    exact hname (by decide)
  cases hlookup : own.lookup name with
  | none => simp only [Value.get, Value.find, hlookup, if_neg hproto, if_neg hname]
  | some value =>
    rw [get_of_lookup _ hlookup]
    by_contra hvalue
    rw [carried_eq_some.mpr ⟨hlookup, hvalue⟩] at h
    cases h

theorem get_inherited (h : own.lookup name = none) (hname : name ∈ Json.INHERITED)
    (hproto : name ≠ "__proto__") : (Value.object own .prototype).get name = .function := by
  simp only [Value.get, Value.find, h, if_neg hproto, if_pos hname]

theorem get_proto (h : own.lookup "__proto__" = none) :
    (Value.object own .prototype).get "__proto__" = .prototype := by
  simp only [Value.get, Value.find, h, if_true, Value.proto]

end Reading

section Assigning
variable {own : List (String × Value)} {name : String} {value : Value}

theorem lookup_assign (other : String) :
    (Value.assign name value own).lookup other =
      if other = name then some value else own.lookup other := by
  induction own with
  | nil => simp only [Value.assign, Assoc.lookup_single, List.lookup_nil]
  | cons entry own ih =>
    obtain ⟨n, v⟩ := entry
    by_cases hn : n = name
    · subst hn
      by_cases ho : other = n
      · simp [Value.assign, ho]
      · simp [Value.assign, ho, Assoc.lookup_cons_of_ne ho]
    · by_cases ho : other = n
      · simp [Value.assign, hn, ho]
      · rw [Value.assign, if_neg hn, Assoc.lookup_cons_of_ne ho, Assoc.lookup_cons_of_ne ho, ih]

theorem assign_new (h : name ∉ own.map Prod.fst) :
    Value.assign name value own = own ++ [(name, value)] := by
  induction own with
  | nil => rfl
  | cons entry own ih =>
    obtain ⟨n, v⟩ := entry
    simp only [List.map_cons, List.mem_cons, not_or] at h
    rw [Value.assign, if_neg (Ne.symm h.1), ih h.2, List.cons_append]

theorem set_of_ne {proto : Value} (h : name ≠ "__proto__") :
    (Value.object own proto).set name value = .object (Value.assign name value own) proto := by
  simp only [Value.set, if_neg h]

/-- Nothing of an object's own is assigned by `__proto__`. -/
theorem set_proto (own : List (String × Value)) (value proto : Value) :
    ∃ proto', (Value.object own proto).set "__proto__" value = .object own proto' := by
  cases value <;> exact ⟨_, rfl⟩

end Assigning

section Projecting
variable {properties : List (String × Property)} {payload projected result : Value} {path : String}

theorem project_cons {name : String} {property : Property} :
    project ((name, property) :: properties) payload path projected = .ok result ↔
      (payload.get name = .undefined ∧ project properties payload path projected = .ok result) ∨
      (payload.get name ≠ .undefined ∧ ∃ value,
        fit property (payload.get name) (within path name) = .ok value ∧
        project properties payload path (projected.set name value) = .ok result) := by
  rw [project]
  split
  · rename_i h
    simp only [h, true_and, ne_eq, not_true_eq_false, false_and, or_false]
  · rename_i h
    simp only [bind, bind_eq_ok, ne_eq, show ¬ payload.get name = .undefined from h, false_and,
      not_false_eq_true, true_and, false_or]

theorem project_fits (h : project properties payload path projected = .ok result) :
    ∀ entry ∈ properties, payload.get entry.1 ≠ .undefined →
      ∃ value, fit entry.2 (payload.get entry.1) (within path entry.1) = .ok value := by
  induction properties generalizing projected with
  | nil => simp
  | cons entry properties ih =>
    obtain ⟨name, property⟩ := entry
    intro e he hget
    rcases List.mem_cons.mp he with rfl | he
    · rcases project_cons.mp h with ⟨hundefined, -⟩ | ⟨-, value, hvalue, -⟩
      · exact absurd hundefined hget
      · exact ⟨value, hvalue⟩
    · rcases project_cons.mp h with ⟨-, hrest⟩ | ⟨-, value, -, hrest⟩
      · exact ih hrest e he hget
      · exact ih hrest e he hget

theorem project_object {own : List (String × Value)} {proto : Value}
    (h : project properties payload path (.object own proto) = .ok result) :
    ∃ own' proto', result = .object own' proto' := by
  induction properties generalizing own proto with
  | nil => cases h; exact ⟨own, proto, rfl⟩
  | cons entry properties ih =>
    rcases project_cons.mp h with ⟨-, hproject⟩ | ⟨-, value, -, hproject⟩
    · exact ih hproject
    · by_cases hproto : entry.1 = "__proto__"
      · obtain ⟨proto₁, hset⟩ := set_proto own value proto
        rw [hproto, hset] at hproject
        exact ih hproject
      · rw [set_of_ne hproto] at hproject
        exact ih hproject

theorem fit_prototype {property : Property} (h : fit property .prototype path = .ok result) :
    ∃ own proto, result = .object own proto := by
  cases fitted_of_ok h with
  | scalar hscalar => exact absurd rfl (scalar_ne hscalar).2.2
  | prototype hproject => exact project_object hproject

theorem project_own {own : List (String × Value)} {proto : Value}
    (hnodup : (properties.map Prod.fst).Nodup)
    (h : project properties payload path (.object own proto) = .ok result) :
    ∃ own' proto', result = .object own' proto' ∧
      (∀ name, name ∉ properties.map Prod.fst ∨ name = "__proto__" →
        own'.lookup name = own.lookup name) ∧
      (∀ entry ∈ properties, entry.1 ≠ "__proto__" → payload.get entry.1 ≠ .undefined →
        ∃ value, fit entry.2 (payload.get entry.1) (within path entry.1) = .ok value ∧
          own'.lookup entry.1 = some value) := by
  induction properties generalizing own proto with
  | nil =>
    cases h
    exact ⟨own, proto, rfl, fun _ _ => rfl, by simp⟩
  | cons entry properties ih =>
    obtain ⟨name, property⟩ := entry
    obtain ⟨hname, hrest⟩ := List.nodup_cons.mp hnodup
    rcases project_cons.mp h with ⟨hundefined, hproject⟩ | ⟨-, value, hvalue, hproject⟩
    · obtain ⟨own', proto', rfl, hold, hnew⟩ := ih hrest hproject
      refine ⟨own', proto', rfl, fun n hn => hold n ?_, fun e he => ?_⟩
      · exact hn.imp_left fun hn hmem => hn (List.mem_cons_of_mem _ hmem)
      · rcases List.mem_cons.mp he with rfl | he
        · exact fun _ hget => absurd hundefined hget
        · exact hnew e he
    · obtain ⟨own₁, proto₁, hset, hlookup⟩ : ∃ own₁ proto₁,
          (Value.object own proto).set name value = .object own₁ proto₁ ∧
          ∀ n, own₁.lookup n =
            if n = name ∧ name ≠ "__proto__" then some value else own.lookup n := by
        by_cases hproto : name = "__proto__"
        · subst hproto
          obtain ⟨proto₁, hset⟩ := set_proto own value proto
          exact ⟨own, proto₁, hset, by simp⟩
        · refine ⟨_, proto, set_of_ne hproto, fun n => ?_⟩
          simp only [lookup_assign, hproto, ne_eq, not_false_eq_true, and_true]
      rw [hset] at hproject
      obtain ⟨own', proto', rfl, hold, hnew⟩ := ih hrest hproject
      refine ⟨own', proto', rfl, fun n hn => ?_, fun e he => ?_⟩
      · rw [hold n (hn.imp_left fun hn hmem => hn (List.mem_cons_of_mem _ hmem)), hlookup]
        refine if_neg ?_
        rintro ⟨rfl, hne⟩
        exact hn.elim (fun hn => hn List.mem_cons_self) hne
      · rcases List.mem_cons.mp he with rfl | he
        · intro hne _
          exact ⟨value, hvalue, by rw [hold _ (.inl hname), hlookup, if_pos ⟨rfl, hne⟩]⟩
        · exact hnew e he

/-- The prototype is what it was where `__proto__` is not declared. -/
theorem project_proto_of_not_mem {own : List (String × Value)} {proto : Value}
    (hname : "__proto__" ∉ properties.map Prod.fst)
    (h : project properties payload path (.object own proto) = .ok result) :
    result.proto = proto := by
  induction properties generalizing own proto with
  | nil => cases h; rfl
  | cons entry properties ih =>
    obtain ⟨name, property⟩ := entry
    simp only [List.map_cons, List.mem_cons, not_or] at hname
    rcases project_cons.mp h with ⟨-, hproject⟩ | ⟨-, value, -, hproject⟩
    · exact ih hname.2 hproject
    · rw [set_of_ne (Ne.symm hname.1)] at hproject
      exact ih hname.2 hproject

/-- An object that lacks `__proto__`, which is declared, has its prototype projected, and what it
is projected to is the prototype then. -/
theorem project_proto {own : List (String × Value)} {proto : Value}
    (hnodup : (properties.map Prod.fst).Nodup)
    (hname : "__proto__" ∈ properties.map Prod.fst) (hget : payload.get "__proto__" = .prototype)
    (h : project properties payload path (.object own proto) = .ok result) :
    result.proto ≠ .prototype := by
  induction properties generalizing own proto with
  | nil => cases hname
  | cons entry properties ih =>
    obtain ⟨name, property⟩ := entry
    obtain ⟨hnot, hrest⟩ := List.nodup_cons.mp hnodup
    by_cases hproto : name = "__proto__"
    · subst hproto
      rcases project_cons.mp h with ⟨hundefined, -⟩ | ⟨-, value, hvalue, hproject⟩
      · rw [hget] at hundefined
        cases hundefined
      · rw [hget] at hvalue
        obtain ⟨own', proto', rfl⟩ := fit_prototype hvalue
        rw [project_proto_of_not_mem hnot hproject]
        nofun
    · have hmem : "__proto__" ∈ properties.map Prod.fst :=
        (List.mem_cons.mp hname).resolve_left (Ne.symm hproto)
      rcases project_cons.mp h with ⟨-, hproject⟩ | ⟨-, value, -, hproject⟩
      · exact ih hrest hmem hproject
      · rw [set_of_ne hproto] at hproject
        exact ih hrest hmem hproject

/-- What a loop over distinct names keeps, where it reads what `kept` is of. -/
theorem project_eq {kept : String → Option Value} {own : List (String × Value)}
    (hnodup : (properties.map Prod.fst).Nodup)
    (hnew : ∀ name ∈ properties.map Prod.fst, name ∉ own.map Prod.fst ∧ name ≠ "__proto__")
    (h : ∀ entry ∈ properties,
      (payload.get entry.1 = .undefined ∧ kept entry.1 = none) ∨
      (payload.get entry.1 ≠ .undefined ∧ ∃ value,
        fit entry.2 (payload.get entry.1) (within path entry.1) = .ok value ∧
        kept entry.1 = some value)) :
    project properties payload path (.object own .prototype) =
      .ok (.object (own ++ (properties.map Prod.fst).filterMap fun name =>
        (kept name).map (name, ·)) .prototype) := by
  induction properties generalizing own with
  | nil => simp [project]
  | cons entry properties ih =>
    obtain ⟨name, property⟩ := entry
    obtain ⟨hname, hrest⟩ := List.nodup_cons.mp hnodup
    obtain ⟨hown, hproto⟩ := hnew name List.mem_cons_self
    have hafter := fun e he => h e (List.mem_cons_of_mem _ he)
    rcases h _ List.mem_cons_self with ⟨hundefined, hkept⟩ | ⟨hget, value, hvalue, hkept⟩
    · refine project_cons.mpr (.inl ⟨hundefined, ?_⟩)
      rw [ih hrest (fun n hn => hnew n (List.mem_cons_of_mem _ hn)) hafter]
      simp only [List.map_cons, List.filterMap_cons, hkept, Option.map_none]
    · refine project_cons.mpr (.inr ⟨hget, value, hvalue, ?_⟩)
      rw [set_of_ne hproto, assign_new hown, ih hrest ?_ hafter]
      · simp only [List.map_cons, List.filterMap_cons, hkept, Option.map_some, List.append_assoc,
          List.cons_append, List.nil_append]
      · intro n hn
        refine ⟨?_, (hnew n (List.mem_cons_of_mem _ hn)).2⟩
        simp only [List.map_append, List.map_cons, List.map_nil, List.mem_append, List.mem_singleton,
          not_or]
        exact ⟨(hnew n (List.mem_cons_of_mem _ hn)).1, fun heq => hname (heq ▸ hn)⟩

end Projecting

theorem Plain.get {own : List (String × Value)} {name : String} {value : Value}
    (h : Plain (.object own .prototype)) (hvalue : carried own name = some value) :
    Plain value := by
  cases h with
  | object h =>
    have hmem := Assoc.mem_of_lookup (carried_eq_some.mp hvalue).1
    exact h _ hmem

theorem fits_of_fit {property : Property} {value fitted : Value} {path : String}
    (hplain : Plain value) (h : fit property value path = .ok fitted) : Fits property value := by
  induction property using Property.induct generalizing value fitted path with
  | object properties ih =>
    cases fitted_of_ok h with
    | null => exact .null
    | scalar hscalar => cases hscalar
    | prototype hproject => cases hplain
    | object hproject =>
      cases hplain with
      | object hown =>
        refine .object fun name property value hproperty hvalue => ?_
        have hmem := Assoc.mem_of_lookup hproperty
        have hget := get_of_carried .prototype hvalue
        obtain ⟨fitted, hfit⟩ := project_fits hproject _ hmem (by
          rw [hget]
          exact (carried_eq_some.mp hvalue).2)
        rw [hget] at hfit
        exact ih _ hmem ((Plain.object hown).get hvalue) hfit
  | array items ih =>
    cases fitted_of_ok h with
    | null => exact .null
    | scalar hscalar => cases hscalar
    | array hmap =>
      cases hplain with
      | array hvalues =>
        refine .array fun value hvalue => ?_
        obtain ⟨index, fitted, hfit⟩ := mapItems_forall hmap value hvalue
        exact ih (hvalues value hvalue) hfit
  | _ =>
    cases fitted_of_ok h with
    | null => exact .null
    | scalar hscalar => exact .scalar hscalar

theorem fit_ne_undefined {property : Property} {value fitted : Value} {path : String}
    (h : fit property value path = .ok fitted) : fitted ≠ .undefined := by
  rintro rfl
  cases fitted_of_ok h with
  | scalar hscalar => exact (scalar_ne hscalar).1 rfl
  | prototype hproject | object hproject =>
    obtain ⟨_, _, h⟩ := project_object hproject
    cases h

theorem project_kept {properties : List (String × Property)} {own : List (String × Value)}
    (path : String) (hnodup : (properties.map Prod.fst).Nodup)
    (hclear : ∀ name ∈ Json.INHERITED, (properties.lookup name).isSome →
      name ≠ "__proto__" ∧ (carried own name).isSome)
    (h : ∀ name property value, properties.lookup name = some property →
      carried own name = some value → ∃ kept, fit property value (within path name) = .ok kept ∧
        Kept property value kept ∧ fit property kept (within path name) = .ok kept) :
    ∃ kept, project properties (.object own .prototype) path .empty = .ok kept ∧
      Kept (.object properties) (.object own .prototype) kept ∧
      ∃ own', kept = .object own' .prototype ∧ project properties kept path .empty = .ok kept := by
  let keeps (name : String) : Option Value := (properties.lookup name).bind fun property =>
    (carried own name).bind fun value => (fit property value (within path name)).toOption
  -- of the names declared, those that are carried are kept, with what their values fit to
  have hkeeps : ∀ name property, properties.lookup name = some property →
      (carried own name = none ∧ keeps name = none) ∨
      ∃ value kept, carried own name = some value ∧ keeps name = some kept ∧
        fit property value (within path name) = .ok kept ∧ Kept property value kept ∧
        fit property kept (within path name) = .ok kept := by
    intro name property hproperty
    cases hvalue : carried own name with
    | none => exact .inl ⟨rfl, by simp only [keeps, hproperty, hvalue, Option.bind_none,
        Option.bind_some]⟩
    | some value =>
      obtain ⟨kept, hfit, hkept, hagain⟩ := h name property value hproperty hvalue
      exact .inr ⟨value, kept, rfl, by simp only [keeps, hproperty, hvalue, Option.bind_some, hfit,
        Except.toOption], hfit, hkept, hagain⟩
  have habsent : ∀ name, name ∉ properties.map Prod.fst → keeps name = none := by
    intro name hname
    simp only [keeps, Assoc.lookup_eq_none_iff.mpr hname, Option.bind_none]
  let own' := (properties.map Prod.fst).filterMap fun name => (keeps name).map (name, ·)
  have hlookup : ∀ name, own'.lookup name = keeps name := by
    intro name
    rw [Assoc.lookup_filterMap]
    split
    · rfl
    · rename_i hname
      exact (habsent name hname).symm
  have hnew : ∀ name ∈ properties.map Prod.fst,
      name ∉ ([] : List (String × Value)).map Prod.fst ∧ name ≠ "__proto__" := by
    intro name hname
    refine ⟨by simp, ?_⟩
    rintro rfl
    refine (hclear _ (by decide) ?_).1 rfl
    exact Option.isSome_iff_ne_none.mpr fun hnone => Assoc.lookup_eq_none_iff.mp hnone hname
  refine ⟨.object own' .prototype, ?_, .object ?_ ?_ ?_, own', rfl, ?_⟩
  · refine project_eq hnodup hnew fun entry hentry => ?_
    have hproperty := Assoc.lookup_of_mem hnodup hentry
    rcases hkeeps _ _ hproperty with ⟨hvalue, hnone⟩ | ⟨value, kept, hvalue, hsome, hfit, -⟩
    · refine .inl ⟨get_of_absent hvalue fun hname => ?_, hnone⟩
      have hcarried := (hclear _ hname (by rw [hproperty]; rfl)).2
      rw [hvalue] at hcarried
      cases hcarried
    · rw [get_of_carried _ hvalue]
      exact .inr ⟨(carried_eq_some.mp hvalue).2, kept, hfit, hsome⟩
  · rw [Assoc.keys_filterMap]
    exact hnodup.filter _
  · intro name
    rw [Assoc.keys_filterMap, List.mem_filter]
    cases hproperty : properties.lookup name with
    | none => simp [Assoc.lookup_eq_none_iff.mp hproperty]
    | some property =>
      have hmem : name ∈ properties.map Prod.fst :=
        List.mem_map_of_mem (f := Prod.fst) (Assoc.mem_of_lookup hproperty)
      rcases hkeeps _ _ hproperty with ⟨hvalue, hnone⟩ | ⟨value, kept, hvalue, hsome, -⟩
      · simp [hmem, hvalue, hnone]
      · simp [hmem, hvalue, hsome]
  · intro name property value value' hproperty hvalue hvalue'
    rw [hlookup] at hvalue'
    rcases hkeeps _ _ hproperty with ⟨hnone, -⟩ | ⟨v, kept, hv, hsome, -, hkept, -⟩
    · rw [hnone] at hvalue
      cases hvalue
    · cases hv.symm.trans hvalue
      cases hsome.symm.trans hvalue'
      exact hkept
  · refine project_eq hnodup hnew fun entry hentry => ?_
    have hproperty := Assoc.lookup_of_mem hnodup hentry
    rcases hkeeps _ _ hproperty with ⟨hvalue, hnone⟩ | ⟨value, kept, hvalue, hsome, -, -, hagain⟩
    · refine .inl ⟨get_of_absent ?_ fun hname => ?_, hnone⟩
      · simp only [carried, hlookup, hnone]
      · have hcarried := (hclear _ hname (by rw [hproperty]; rfl)).2
        rw [hvalue] at hcarried
        cases hcarried
    · rw [get_of_lookup _ ((hlookup _).trans hsome)]
      exact .inr ⟨fit_ne_undefined hagain, kept, hagain, hsome⟩

theorem fit_kept {property : Property} {value : Value} (hdistinct : Distinct property)
    (hplain : Plain value) (hfits : Fits property value) (hclear : Clear property value)
    (path : String) :
    ∃ kept, fit property value path = .ok kept ∧ Kept property value kept ∧
      fit property kept path = .ok kept := by
  induction property using Property.induct generalizing value path with
  | object properties ih =>
    cases hfits with
    | null => exact ⟨.null, fit_null _ _, .null, fit_null _ _⟩
    | scalar h => cases h
    | @object _ own proto hfits =>
      cases hdistinct with
      | object hnodup hdistinct =>
        cases hplain with
        | object hown =>
          obtain ⟨kept, hproject, hkept, own', rfl, hagain⟩ := project_kept path hnodup
            (fun name hname => hclear _ _ .here name hname)
            fun name property value hproperty hvalue =>
              have hmem := Assoc.mem_of_lookup hproperty
              ih _ hmem (hdistinct _ hmem) ((Plain.object hown).get hvalue)
                (hfits name property value hproperty hvalue)
                (fun ps inner hreach => hclear ps inner (.property hproperty hvalue hreach)) _
          exact ⟨_, by rw [fit]; exact hproject, hkept, by rw [fit]; exact hagain⟩
  | array items ih =>
    cases hfits with
    | null => exact ⟨.null, fit_null _ _, .null, fit_null _ _⟩
    | scalar h => cases h
    | @array _ values hfits =>
      cases hdistinct with
      | array hdistinct =>
        cases hplain with
        | array hvalues =>
          obtain ⟨kept, hmap, hkept, hagain⟩ := exists_mapItems (R := Kept items)
            (f := fun item index => fit items item s!"{path}[{index}]")
            (fun value hvalue i => ih hdistinct (hvalues value hvalue) (hfits value hvalue)
              (fun ps own hreach => hclear ps own (.item hvalue hreach)) _) 0
          obtain ⟨hlength, hkept⟩ := List.forall₂_iff_get.mp hkept
          exact ⟨.array kept, by rw [fit, hmap]; rfl, .array hlength hkept,
            by rw [fit, hagain]; rfl⟩
  | _ =>
    cases hfits with
    | null => exact ⟨.null, fit_null _ _, .null, fit_null _ _⟩
    | scalar h => exact ⟨value, fit_scalar h path, .scalar h, fit_scalar h path⟩


theorem names_of_again {properties : List (String × Property)}
    {own own' : List (String × Value)} {proto : Value} {path : String}
    (hnodup : (properties.map Prod.fst).Nodup)
    (h : project properties (.object own proto) path .empty = .ok (.object own' .prototype))
    (hnames : ∀ name, name ∈ own'.map Prod.fst ↔
      (properties.lookup name).isSome ∧ (carried own name).isSome)
    (hagain : project properties (.object own' .prototype) path .empty =
      .ok (.object own' .prototype)) :
    ∀ name ∈ Json.INHERITED, (properties.lookup name).isSome →
      name ≠ "__proto__" ∧ (carried own name).isSome := by
  intro name hname hproperty
  have hne : name ≠ "__proto__" := by
    rintro rfl
    have hmem : "__proto__" ∈ properties.map Prod.fst := by
      by_contra hnot
      rw [Assoc.lookup_eq_none_iff.mpr hnot] at hproperty
      cases hproperty
    obtain ⟨_, _, heq, hold, -⟩ := project_own hnodup h
    cases heq
    have hlookup := hold "__proto__" (.inr rfl)
    exact project_proto hnodup hmem (get_proto hlookup) hagain rfl
  refine ⟨hne, ?_⟩
  by_contra hcarried
  obtain ⟨property, hproperty⟩ := Option.isSome_iff_exists.mp hproperty
  have hlookup : own'.lookup name = none :=
    Assoc.lookup_eq_none_iff.mpr fun hmem => hcarried ((hnames name).mp hmem).2
  -- a function is read in place of what is not there, and is of no type
  have hget := get_inherited hlookup hname hne
  obtain ⟨value, hfit⟩ := project_fits hagain _ (Assoc.mem_of_lookup hproperty) (by
    rw [hget]
    nofun)
  rw [hget] at hfit
  cases fitted_of_ok hfit with
  | scalar hscalar => exact (scalar_ne hscalar).2.1 rfl

theorem clear_of_again {property : Property} {value kept : Value} {path : String}
    (hdistinct : Distinct property) (h : fit property value path = .ok kept)
    (hkept : Kept property value kept) (hagain : fit property kept path = .ok kept) :
    Clear property value := by
  induction property using Property.induct generalizing value kept path with
  | object properties ih =>
    cases hdistinct with
    | object hnodup hdistinct =>
      cases hkept with
      | null => nofun
      | scalar hscalar => cases hscalar
      | @object _ own own' proto hkeys hnames hvalues =>
        rw [fit] at h hagain
        intro ps inner hreach
        cases hreach with
        | here => exact names_of_again hnodup h hnames hagain
        | @property _ _ _ name property value _ _ hproperty hvalue hreach =>
          have hmem := Assoc.mem_of_lookup hproperty
          have hne : name ≠ "__proto__" := by
            rintro rfl
            exact (names_of_again hnodup h hnames hagain "__proto__" (by decide)
              (by rw [hproperty]; rfl)).1 rfl
          have hget := get_of_carried proto hvalue
          obtain ⟨_, _, heq, -, hnew⟩ := project_own hnodup h
          cases heq
          obtain ⟨kept, hfit, hlookup⟩ := hnew _ hmem hne (by
            rw [hget]
            exact (carried_eq_some.mp hvalue).2)
          rw [hget] at hfit
          obtain ⟨_, _, heq, -, hnew'⟩ := project_own hnodup hagain
          cases heq
          have hget' := get_of_lookup .prototype hlookup
          obtain ⟨kept', hfit', hlookup'⟩ := hnew' _ hmem hne (by
            rw [hget']
            exact fit_ne_undefined hfit)
          rw [hget'] at hfit'
          cases hlookup.symm.trans hlookup'
          exact ih _ hmem (hdistinct _ hmem) hfit (hvalues _ _ _ _ hproperty hvalue hlookup) hfit'
            ps inner hreach
  | array items ih =>
    cases hdistinct with
    | array hdistinct =>
      cases hkept with
      | null => nofun
      | scalar hscalar => cases hscalar
      | @array _ values kept hlength hvalues =>
        obtain ⟨kept₁, hmap, heq⟩ := map_eq_ok.mp h
        cases heq
        obtain ⟨kept₂, hmap', heq⟩ := map_eq_ok.mp hagain
        cases heq
        intro ps own hreach
        cases hreach with
        | @item _ _ value _ _ hvalue hreach =>
          obtain ⟨index, fitted, hfit, hkept, hfit'⟩ := mapItems_again hmap
            (List.forall₂_iff_get.mpr ⟨hlength, hvalues⟩) hmap' value hvalue
          exact ih hdistinct hfit hkept hfit' ps own hreach
  | _ => intro _ _ hreach; cases hreach

theorem plain_object (payload : Payload) :
    ∃ own, object payload.value = .object own .prototype ∧ Plain (.object own .prototype) := by
  have wrapped : ∀ value, Plain value →
      Plain (.object [("value", value)] .prototype) := by
    intro value hvalue
    refine .object fun entry hentry => ?_
    rw [List.mem_singleton.mp hentry]
    exact hvalue
  obtain ⟨value, hplain⟩ := payload
  cases hplain with
  | object hown => exact ⟨_, rfl, .object hown⟩
  | undefined => exact ⟨_, rfl, wrapped _ .undefined⟩
  | null => exact ⟨_, rfl, wrapped _ .null⟩
  | boolean value => exact ⟨_, rfl, wrapped _ (.boolean value)⟩
  | number value => exact ⟨_, rfl, wrapped _ (.number value)⟩
  | bigint value => exact ⟨_, rfl, wrapped _ (.bigint value)⟩
  | string value => exact ⟨_, rfl, wrapped _ (.string value)⟩
  | array hvalues => exact ⟨_, rfl, wrapped _ (.array hvalues)⟩

theorem written_eq_fit (contract : Contract) {payload : Payload} {own : List (String × Value)}
    (h : object payload.value = .object own .prototype) :
    written contract payload = fit (.object contract.properties) (.object own .prototype) "" := by
  rw [fit, written, h]

theorem exact_of_clear_of_admits {contract : Contract} {payload : Payload}
    (h : Admits contract payload →
      Clear (.object contract.properties) (object payload.value)) : Exact contract payload := by
  obtain ⟨own, hobject, hplain⟩ := plain_object payload
  simp only [Admits, hobject] at h
  simp only [Exact, Admits, written_eq_fit contract hobject, hobject]
  split
  · rename_i mismatch herror
    intro hfits
    obtain ⟨kept, hkept, -⟩ := fit_kept contract.distinct hplain hfits (h hfits) ""
    rw [herror] at hkept
    cases hkept
  · rename_i kept hkept
    have hfits := fits_of_fit hplain hkept
    obtain ⟨_, hkept', hkeeps, hagain⟩ := fit_kept contract.distinct hplain hfits (h hfits) ""
    cases hkept.symm.trans hkept'
    refine ⟨hfits, hkeeps, ?_⟩
    cases hkeeps with
    | scalar h => cases h
    | object _ _ _ =>
      rw [fit] at hagain
      exact hagain

theorem clear_of_exact {contract : Contract} {payload : Payload} (h : Exact contract payload)
    (hadmits : Admits contract payload) :
    Clear (.object contract.properties) (object payload.value) := by
  obtain ⟨own, hobject, -⟩ := plain_object payload
  simp only [Exact, written_eq_fit contract hobject] at h
  split at h
  · exact absurd hadmits h
  · rename_i kept hkept
    obtain ⟨-, hkeeps, hagain⟩ := h
    rw [hobject] at hkeeps ⊢
    obtain ⟨own', rfl⟩ : ∃ own', kept = .object own' .prototype := by
      cases hkeeps with
      | scalar h => cases h
      | object _ _ _ => exact ⟨_, rfl⟩
    exact clear_of_again contract.distinct hkept hkeeps (by rw [fit]; exact hagain)

/-- What is written of a payload is exact unless it is of the contract, and a name that
`Object.prototype` has is asked of an object that does not carry it, or `__proto__` of any. -/
theorem exact_iff (contract : Contract) (payload : Payload) :
    Exact contract payload ↔ (Admits contract payload →
      Clear (.object contract.properties) (object payload.value)) :=
  ⟨clear_of_exact, exact_of_clear_of_admits⟩

def constructing : Contract where
  properties := [("constructor", .string none)]
  distinct := .object (by decide) fun entry hentry => by
    rw [List.mem_singleton.mp hentry]
    exact .string none

def nothing : Payload := ⟨.empty, .object (by simp)⟩

/-- A payload that carries nothing of a contract is of it, and is refused. -/
theorem absent_is_refused :
    constructing.check "orders.created" = .ok () ∧ Admits constructing nothing ∧
      written constructing nothing =
        .error ⟨"constructor", "'constructor' is not of the type 'string'"⟩ ∧
      ¬ Exact constructing nothing := by
  have hadmits : Admits constructing nothing := by
    refine .object fun name property value _ hvalue => ?_
    cases hvalue
  have hwritten : written constructing nothing =
      .error ⟨"constructor", "'constructor' is not of the type 'string'"⟩ := by rfl
  refine ⟨by decide +kernel, hadmits, hwritten, fun h => ?_⟩
  rw [Exact, hwritten] at h
  exact h hadmits

end Toa.Chronicles
