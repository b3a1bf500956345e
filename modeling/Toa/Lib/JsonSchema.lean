import Toa.Lib.Json

/-! What a schema accepts. The keywords that speak of an object by its properties and of a list by its
items are read; what any other asserts of a value, beside the others of its schema, is left open. -/

namespace JsonSchema

def fields : Json → List (String × Json)
  | .object entries => entries
  | _ => []

def items : Json → List Json
  | .array items => items
  | _ => []

def keys (value : Json) : List String := (fields value).map Prod.fst

def names (value : Json) : List String :=
  (items value).filterMap fun
    | .string name => some name
    | _ => none

def isObject : Json → Bool
  | .object _ => true
  | _ => false

def typed (type : String) : Json → Bool
  | .null => type = "null"
  | .boolean _ => type = "boolean"
  | .number q => type = "number" || type = "integer" && q.den = 1
  | .string _ => type = "string"
  | .array _ => type = "array"
  | .object _ => type = "object"

def types : Json → Json → Bool
  | .string type, value => typed type value
  | type, value => (names type).any (typed · value)

/-- What is not read here: which names match a pattern, and the other keywords. -/
structure Reading where
  pattern : String → String → Bool
  other : List (String × Json) → String → Json → Json → Bool

/-- What `additionalProperties` does not speak of. -/
def Reading.stated (reading : Reading) (schema : List (String × Json)) (name : String) : Bool :=
  decide (name ∈ (schema.lookup "properties").elim [] keys) ||
    ((schema.lookup "patternProperties").elim [] keys).any (reading.pattern · name)

variable (reading : Reading)

def asserts (schema : List (String × Json)) (keyword : String) (argument value : Json) : Bool :=
  if keyword = "type" then
    types argument value || decide (schema.lookup "nullable" = some (.boolean true) ∧ value = .null)
  else if keyword = "required" then
    !isObject value || (names argument).all (· ∈ keys value)
  else reading.other schema keyword argument value

mutual
def accepts : Json → Json → Bool
  | .boolean b, _ => b
  | .object keywords, value => acceptsAll keywords keywords value
  | _, _ => false
termination_by structural x => x

def acceptsAll (schema : List (String × Json)) : List (String × Json) → Json → Bool
  | [], _ => true
  | (keyword, argument) :: rest, value =>
    (if keyword = "properties" then (fields value).all fun entry => acceptsField argument entry.1 entry.2
      else if keyword = "additionalProperties" then
        (fields value).all fun entry => reading.stated schema entry.1 || accepts argument entry.2
      else if keyword = "items" then (items value).all (accepts argument)
      else asserts reading schema keyword argument value) && acceptsAll schema rest value
termination_by structural x => x

def acceptsField : Json → String → Json → Bool
  | .object properties, name, value => acceptsProperty properties name value
  | _, _, _ => true
termination_by structural x => x

def acceptsProperty : List (String × Json) → String → Json → Bool
  | [], _, _ => true
  | (property, schema) :: rest, name, value =>
    if name = property then accepts schema value else acceptsProperty rest name value
termination_by structural x => x
end

def Holds (schema : List (String × Json)) (keyword : String) (argument value : Json) : Prop :=
  if keyword = "properties" then
    ∀ entry ∈ fields value, ∀ property, (fields argument).lookup entry.1 = some property →
      accepts reading property entry.2 = true
  else if keyword = "additionalProperties" then
    ∀ entry ∈ fields value, reading.stated schema entry.1 = false → accepts reading argument entry.2 = true
  else if keyword = "items" then ∀ item ∈ items value, accepts reading argument item = true
  else asserts reading schema keyword argument value = true

variable {reading}

section
variable {schema : List (String × Json)} {argument value : Json}

theorem holds_properties : Holds reading schema "properties" argument value ↔
    ∀ entry ∈ fields value, ∀ property, (fields argument).lookup entry.1 = some property →
      accepts reading property entry.2 = true := by
  rw [Holds, if_pos rfl]

theorem holds_additional : Holds reading schema "additionalProperties" argument value ↔
    ∀ entry ∈ fields value, reading.stated schema entry.1 = false → accepts reading argument entry.2 = true := by
  rw [Holds, if_neg (by decide), if_pos rfl]

theorem holds_items : Holds reading schema "items" argument value ↔
    ∀ item ∈ items value, accepts reading argument item = true := by
  rw [Holds, if_neg (by decide), if_neg (by decide), if_pos rfl]

theorem holds_type : Holds reading schema "type" argument value ↔
    types argument value = true ∨ schema.lookup "nullable" = some (.boolean true) ∧ value = .null := by
  rw [Holds, if_neg (by decide), if_neg (by decide), if_neg (by decide), asserts, if_pos rfl, Bool.or_eq_true,
    decide_eq_true_iff]

theorem holds_required : Holds reading schema "required" argument value ↔
    (isObject value = true → ∀ name ∈ names argument, name ∈ keys value) := by
  rw [Holds, if_neg (by decide), if_neg (by decide), if_neg (by decide), asserts, if_neg (by decide), if_pos rfl,
    Bool.or_eq_true, List.all_eq_true, Bool.not_eq_true', ← Bool.not_eq_true, ← imp_iff_not_or]
  simp only [decide_eq_true_eq]

def READ : List String := ["properties", "additionalProperties", "items", "type", "required"]

theorem holds_other {keyword : String} (h : keyword ∉ READ) : Holds reading schema keyword argument value ↔
    reading.other schema keyword argument value = true := by
  simp only [READ, List.mem_cons, List.not_mem_nil, or_false, not_or] at h
  rw [Holds, if_neg h.1, if_neg h.2.1, if_neg h.2.2.1, asserts, if_neg h.2.2.2.1, if_neg h.2.2.2.2]

end

theorem acceptsProperty_iff {properties : List (String × Json)} {name : String} {value : Json} :
    acceptsProperty reading properties name value = true ↔
      ∀ property, properties.lookup name = some property → accepts reading property value = true := by
  induction properties with
  | nil => exact iff_of_true rfl (by simp)
  | cons entry rest ih =>
    obtain ⟨property, schema⟩ := entry
    rw [acceptsProperty]
    by_cases hname : name = property
    · rw [if_pos hname, hname, List.lookup_cons_self]
      simp only [Option.some.injEq, forall_eq']
    · rw [if_neg hname, ih, Assoc.lookup_cons_of_ne hname]

theorem acceptsField_iff {argument : Json} {name : String} {value : Json} :
    acceptsField reading argument name value = true ↔
      ∀ property, (fields argument).lookup name = some property → accepts reading property value = true := by
  cases argument with
  | object properties => exact acceptsProperty_iff
  | _ => exact iff_of_true (by rw [acceptsField]; simp) (by simp [fields])

theorem acceptsAll_iff {schema rest : List (String × Json)} {value : Json} :
    acceptsAll reading schema rest value = true ↔
      ∀ entry ∈ rest, Holds reading schema entry.1 entry.2 value := by
  induction rest with
  | nil => exact iff_of_true rfl (List.forall_mem_nil _)
  | cons entry rest ih =>
    obtain ⟨keyword, argument⟩ := entry
    rw [acceptsAll, Bool.and_eq_true, ih, List.forall_mem_cons]
    refine and_congr_left fun _ => ?_
    rw [Holds]
    split_ifs
    · simp only [List.all_eq_true, acceptsField_iff]
    · simp only [List.all_eq_true, Bool.or_eq_true, or_iff_not_imp_left, Bool.not_eq_true]
    · simp only [List.all_eq_true]
    · rfl

theorem accepts_object {keywords : List (String × Json)} {value : Json} :
    accepts reading (.object keywords) value = true ↔
      ∀ entry ∈ keywords, Holds reading keywords entry.1 entry.2 value := by
  rw [accepts, acceptsAll_iff]

theorem isObject_iff {value : Json} : isObject value = true ↔ ∃ entries, value = .object entries := by
  cases value <;> simp [isObject]

theorem typed_object {value : Json} : typed "object" value = true ↔ isObject value = true := by
  cases value <;> simp [typed, isObject]

theorem isObject_of_accepts {keywords : List (String × Json)} {value : Json}
    (h : accepts reading (.object keywords) value = true) (htype : ("type", .string "object") ∈ keywords)
    (hvalue : value ≠ .null) : isObject value = true := by
  rcases holds_type.mp (accepts_object.mp h _ htype) with htyped | ⟨-, hnull⟩
  · exact typed_object.mp htyped
  · exact absurd hnull hvalue

end JsonSchema
