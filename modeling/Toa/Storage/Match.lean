import Toa.Lib.Mongo
import Toa.Query.Criteria

/-! Whether a record that changed matches the criteria of a stream, which is decided in memory of the
filter a query is translated into, and by the database for every read. -/

namespace Toa.Storage.Match
open Toa.Query (Node Scalar Logic Relation Membership)
open Mongo

/-- What a property of a value is read as. A function or a prototype is neither a value nor nothing. -/
inductive Read (φ : Type)
  | undefined
  | value (v : Value)
  | foreign (f : φ)

/-- What the platform answers: a name that is not a property of an object, of an array or of a date, a
name of what it answers, and the time of a date made of a value, which is none where it is no date. -/
structure Platform (φ : Type) where
  inherited : Value → String → Read φ
  property : φ → String → Read φ
  moment : Scalar → Option ℤ

/-! ## The filter of a query -/

def native : List (String × String) :=
  [("constructor", "Object"), ("__defineGetter__", "__defineGetter__"),
    ("__defineSetter__", "__defineSetter__"), ("hasOwnProperty", "hasOwnProperty"),
    ("__lookupGetter__", "__lookupGetter__"), ("__lookupSetter__", "__lookupSetter__"),
    ("isPrototypeOf", "isPrototypeOf"), ("propertyIsEnumerable", "propertyIsEnumerable"),
    ("toString", "toString"), ("valueOf", "valueOf"), ("toLocaleString", "toLocaleString")]

/-- `RENAME[name] || name`, as the key of a filter: what is inherited is no name, and is printed. -/
def rename : Path → Path
  | [name] =>
    if name = "id" then ["_id"]
    else if name = "__proto__" then ["[object Object]"]
    else
      match native.lookup name with
      | some function => ["function " ++ function ++ "() \x7b [native code] \x7d"]
      | none => [name]
  | path => path

variable {φ : Type} (platform : Platform φ)

def operand : Scalar → Operand
  | .null => .null
  | .boolean b => .boolean b
  | .number q => .number q
  | .string s => .string s

/-- `value === null ? null : new Date(value)` -/
def date (value : Scalar) : Operand :=
  if value = .null then .null else .date (platform.moment value)

/-- A criterion against a property held as a date is one too. -/
def compared (path : Path) (dates : List String) (value : Scalar) : Operand :=
  match path with
  | [name] => if name ∈ dates then date platform value else operand value
  | _ => operand value

def comparison : Relation → Operand → Test
  | .eq, operand => .eq operand
  | .ne, operand => .ne operand
  | .gt, operand => .ordered .gt operand
  | .gte, operand => .ordered .gte operand
  | .lt, operand => .ordered .lt operand
  | .lte, operand => .ordered .lte operand

def membership : Membership → List Operand → Test
  | .included, operands => .included operands
  | .excluded, operands => .excluded operands

def criteria (dates : List String) : Node → Filter
  | .logic .and left right => [.and [criteria dates left, criteria dates right]]
  | .logic .or left right => [.or [criteria dates left, criteria dates right]]
  | .comparison selector operator value =>
    let path := rename selector
    [.field path (.all [comparison operator (compared platform path dates value)])]
  | .membership selector operator values =>
    let path := rename selector
    [.field path (.all [membership operator (values.map (compared platform path dates))])]

/-! ## Matching -/

/-- `value[key]`, of a value that is not undefined: none of what is no object. -/
def Platform.get (value : Value) (name : String) : Read φ :=
  match value with
  | .object properties =>
    match properties.lookup name with
    | some v => .value v
    | none => platform.inherited value name
  | .array items =>
    match element items name with
    | some v => .value v
    | none =>
      if name = "length" then .value (.number items.length) else platform.inherited value name
  | .date _ => platform.inherited value name
  | _ => .undefined

def read : Path → Read φ → Read φ
  | [], value => value
  | _ :: _, .undefined => .undefined
  | name :: path, .value v => read path (platform.get v name)
  | name :: path, .foreign f => read path (platform.property f name)

def some' (value : Read φ) (test : Read φ → Bool) : Bool :=
  test value ||
    match value with
    | .value (.array items) => items.any fun item => test (.value item)
    | _ => false

def equal (value : Read φ) (operand : Operand) : Bool :=
  match operand, value with
  | .null, .undefined => true
  | .null, .value .null => true
  | .date b, .value (.date a) => some a = b
  | .boolean b, .value (.boolean a) => a = b
  | .number b, .value (.number a) => a = b
  | .string b, .value (.string a) => a = b
  | _, _ => false

def compare (value : Read φ) (operand : Operand) : Option Ordering :=
  match value, operand with
  | .value (.date a), .date (some b) => some (Ord.compare a b)
  | .value (.number a), .number b => some (compareOfLessAndEq a b)
  | .value (.string a), .string b => some (Utf16.byUnits a.toList b.toList)
  | _, _ => none

def OPERATORS (value : Read φ) : Test → Except String Bool
  | .eq operand => .ok (some' value (equal · operand))
  | .ne operand => .ok (!some' value (equal · operand))
  | .included operands => .ok (operands.any fun operand => some' value (equal · operand))
  | .excluded operands => .ok (!operands.any fun operand => some' value (equal · operand))
  | .ordered order operand => .ok (some' value fun v => (compare v operand).any order.holds)
  | .unknown operator => .error s!"A change cannot be matched against '{operator}'"

def tests (value : Read φ) : List Test → Except String Bool
  | [] => .ok true
  | test :: more =>
    match OPERATORS value test with
    | .error refusal => .error refusal
    | .ok false => .ok false
    | .ok true => tests value more

def field (value : Read φ) : Condition → Except String Bool
  | .value operand => .ok (some' value (equal · operand))
  -- an object of no keys is no operators, and is equal to nothing
  | .all [] => .ok false
  | .all (test :: more) => tests value (test :: more)

def isOperator (path : Path) : Bool :=
  match path with
  | [] => false
  | name :: _ => name.toList.head? = some '$'

mutual
def matchesEntry : Entry → Value → Except String Bool
  | .and filters, record => every filters record
  | .or filters, record => any filters record
  | .nor filters, record => (any filters record).map (!·)
  | .field path condition, record =>
    if isOperator path = true then
      .error s!"A change cannot be matched against '{Query.Selector.text path}'"
    else field (read platform path (.value record)) condition
termination_by structural x => x

def matchFilter : List Entry → Value → Except String Bool
  | [], _ => .ok true
  | entry :: filter, record =>
    match matchesEntry entry record with
    | .error refusal => .error refusal
    | .ok false => .ok false
    | .ok true => matchFilter filter record
termination_by structural x => x

def every : List (List Entry) → Value → Except String Bool
  | [], _ => .ok true
  | filter :: filters, record =>
    match matchFilter filter record with
    | .error refusal => .error refusal
    | .ok false => .ok false
    | .ok true => every filters record
termination_by structural x => x

def any : List (List Entry) → Value → Except String Bool
  | [], _ => .ok false
  | filter :: filters, record =>
    match matchFilter filter record with
    | .error refusal => .error refusal
    | .ok true => .ok true
    | .ok false => any filters record
termination_by structural x => x
end

/-! ## Where both decide alike -/

/-- What a path leads to, name by name: a property of an object, or an element of an array under its index. -/
def led : Path → Value → Option Value
  | [], value => some value
  | name :: path, .object properties =>
    match properties.lookup name with
    | some v => led path v
    | none => none
  | name :: path, .array items =>
    match element items name with
    | some v => led path v
    | none => none
  | _, _ => none

/-- Whether a path goes through objects, and through an array by the index of an element that no object in
it has as a name. A name that is not there is none that is inherited. -/
def Straight : Path → Value → Prop
  | [], _ => True
  | name :: path, .object properties =>
    match properties.lookup name with
    | some v => Straight path v
    | none => platform.inherited (.object properties) name = .undefined
  | name :: path, .array items =>
    (∀ item ∈ items, ∀ properties, item = .object properties → properties.lookup name = none) ∧
      ∃ v, element items name = some v ∧ Straight path v
  | name :: _, .date time => platform.inherited (.date time) name = .undefined
  | _ :: _, _ => True

/-- Whether a path meets an array on its way, which is read as nothing under the name that follows. -/
def Crosses : Path → Value → Prop
  | name :: path, .object properties => ∃ v, properties.lookup name = some v ∧ Crosses path v
  | name :: path, .array items =>
    (∃ v, element items name = some v ∧ Crosses path v) ∨
      element items name = none ∧ name ≠ "length" ∧ platform.inherited (.array items) name = .undefined
  | _, _ => False

/-- Whether a value is ordered in memory as it is by the database: a boolean is not, and strings are
where the characters that they first differ in do not cross. -/
def Sound (order : Order) (operand : Operand) : Option Value → Prop
  | some (.boolean a) => ∀ b, operand = .boolean b → order.holds (Ord.compare a b) = false
  | some (.string a) => ∀ b, operand = .string b → Utf16.alike a.toList b.toList = true
  | _ => True

def Ordered (order : Order) (operand : Operand) (v : Option Value) : Prop :=
  (Mongo.compare v operand).any order.holds = true

def Met (operands : List Operand) (values : List (Option Value)) : Prop :=
  ∃ operand ∈ operands, ∃ v ∈ values, equals v operand = true

def Covered (order : Order) (operand : Operand) (values : List (Option Value)) : Prop :=
  (∀ v ∈ values, Sound order operand v) ∨ (∃ v ∈ values, Sound order operand v ∧ Ordered order operand v) ∨
    (∃ v ∈ values, ¬Sound order operand v ∧ Ordered order operand v) ∧
      ∃ v ∈ values, ¬Sound order operand v ∧ ¬Ordered order operand v

/-- What a straight path leads to answers for it: an object that an array holds beside the element has nothing
there, which is to be no more than the element where null is compared. -/
def Direct (path : Path) (record : Value) : Test → Prop
  | .ordered order operand => Covered order operand (candidates (led path record))
  | .eq operand | .ne operand =>
    operand = .null → none ∈ reach path record → Met [operand] (candidates (led path record))
  | .included operands | .excluded operands =>
    .null ∈ operands → none ∈ reach path record → Met operands (candidates (led path record))
  | .unknown _ => False

/-- Nothing that is reached through an array is equal to the operand or ordered so; where null is compared,
something is equal. -/
def Through (path : Path) (record : Value) : Test → Prop
  | .ordered order operand => ∀ v ∈ held path record, ¬Ordered order operand v
  | .eq operand | .ne operand => operand = .null ↔ Met [operand] (held path record)
  | .included operands | .excluded operands => .null ∈ operands ↔ Met operands (held path record)
  | .unknown _ => False

/-- Whether a comparison is answered as the database does, `alike`, or otherwise. -/
def Judged (path : Path) (record : Value) (test : Test) (alike : Bool) : Prop :=
  Straight platform path record ∧ (Direct path record test ↔ alike = true) ∨
    Crosses platform path record ∧ (Through path record test ↔ alike = true)

/-- A side that makes the answer on its own, by the database. -/
def decides (dates : List String) (record : Value) (operator : Logic) (side : Node) : Bool :=
  match operator with
  | .and => !find (criteria platform dates side) record
  | .or => find (criteria platform dates side) record

/-- Whether an expression of two sides is answered as the database does, or otherwise, where a side decides
or not. Where none does, both are answered so; where one does, it is, or the other is answered as if it did. -/
def Whole (left right : Bool → Prop) : Bool → Bool → Bool → Prop
  | false, false, true => left true ∧ right true
  | true, false, true => left true ∨ right false
  | false, true, true => left false ∨ right true
  | true, true, true => left true ∨ right true
  | false, false, false => left false ∨ right false
  | true, false, false => left false ∧ right true
  | false, true, false => left true ∧ right false
  | true, true, false => left false ∧ right false

/-- Whether criteria are answered as the database does, or otherwise. -/
def Answered (dates : List String) (record : Value) : Node → Bool → Prop
  | .logic operator left right, alike =>
    Whole (Answered dates record left ·) (Answered dates record right ·)
      (decides platform dates record operator left) (decides platform dates record operator right) alike
  | .comparison selector operator value, alike =>
    let path := rename selector
    Judged platform path record (comparison operator (compared platform path dates value)) alike
  | .membership selector operator values, alike =>
    let path := rename selector
    Judged platform path record (membership operator (values.map (compared platform path dates))) alike

/-- Each path of a query is straight or goes through an array: none meets a name that is inherited, the length
of an array, or an index that is a name too. -/
def Regular (record : Value) : Node → Prop
  | .logic _ left right => Regular record left ∧ Regular record right
  | .comparison selector _ _ | .membership selector _ _ =>
    Straight platform (rename selector) record ∨ Crosses platform (rename selector) record

/-- A record is matched by criteria where the database selects it by them, and is not where it does not. -/
def Agrees (dates : List String) (record : Value) (node : Node) : Prop :=
  matchFilter platform (criteria platform dates node) record =
    .ok (find (criteria platform dates node) record)

def Read.of : Option Value → Read φ
  | none => .undefined
  | some v => .value v

variable {platform}

theorem read_undefined (path : Path) : read platform path .undefined = .undefined := by
  cases path <;> rfl

theorem reach_straight {path : Path} {record : Value} (h : Straight platform path record) :
    led path record ∈ reach path record ∧ (∀ v ∈ reach path record, v = none ∨ v = led path record) ∧
      read platform path (.value record) = .of (led path record) := by
  have hone : ∀ v : Option Value, v ∈ [v] ∧ ∀ w ∈ [v], w = none ∨ w = v :=
    fun v => ⟨List.mem_singleton_self v, fun w hw => .inr (List.mem_singleton.mp hw)⟩
  induction path generalizing record with
  | nil => exact ⟨(hone _).1, (hone _).2, rfl⟩
  | cons name path ih =>
    cases record with
    | object properties =>
      cases hlookup : properties.lookup name with
      | some v =>
        simp only [Straight, hlookup] at h
        simpa only [reach, led, hlookup, read, Platform.get] using ih h
      | none =>
        simp only [Straight, hlookup] at h
        simp only [reach, led, hlookup, read, Platform.get, h, read_undefined]
        exact ⟨(hone _).1, (hone _).2, rfl⟩
    | array items =>
      obtain ⟨hitems, v, hv, hstraight⟩ := h
      obtain ⟨hmem, honly, hread⟩ := ih hstraight
      simp only [led, hv, read, Platform.get]
      refine ⟨?_, fun w hw => ?_, hread⟩
      · simp only [reach, hv]
        exact List.mem_append_right _ hmem
      · simp only [reach, hv] at hw
        rcases List.mem_append.mp hw with hw | hw
        · -- an object of the array has no such name
          left
          obtain ⟨item, hitem, hw⟩ := List.mem_flatMap.mp hw
          split at hw
          · rename_i properties
            rw [hitems _ hitem properties rfl] at hw
            exact List.mem_singleton.mp hw
          · cases hw
        · exact honly w hw
    | date time =>
      simp only [Straight] at h
      simp only [reach, led, read, Platform.get, h, read_undefined]
      exact ⟨(hone _).1, (hone _).2, rfl⟩
    | null | boolean | number | string =>
      simp only [reach, led, read, Platform.get, read_undefined]
      exact ⟨(hone _).1, (hone _).2, rfl⟩

theorem mem_held_straight {path : Path} {record : Value} (h : Straight platform path record) {v : Option Value} :
    v ∈ held path record ↔ v ∈ candidates (led path record) ∨ v = none ∧ none ∈ reach path record := by
  obtain ⟨hmem, honly, -⟩ := reach_straight h
  rw [held, List.mem_flatMap]
  constructor
  · rintro ⟨w, hw, hv⟩
    rcases honly w hw with rfl | rfl
    · exact .inr ⟨List.mem_singleton.mp hv, hw⟩
    · exact .inl hv
  · rintro (hv | ⟨rfl, hnone⟩)
    · exact ⟨_, hmem, hv⟩
    · exact ⟨none, hnone, List.mem_singleton_self _⟩

theorem some_of (v : Option Value) (test : Read φ → Bool) :
    some' (.of v) test = (candidates v).any fun w => test (.of w) := by
  cases v with
  | none => simp [some', candidates, Read.of]
  | some v =>
    cases v with
    | array items => simp [some', candidates, Read.of, List.any_map, Function.comp_def]
    | _ => simp [some', candidates, Read.of]

theorem equal_of (v : Option Value) (operand : Operand) :
    equal (Read.of v : Read φ) operand = equals v operand := by
  cases v with
  | none => cases operand <;> rfl
  | some v => cases v <;> cases operand <;> rfl

theorem holds_swap {order : Order} {o o' : Ordering} (h : o = .lt ∧ o' = .gt ∨ o = .gt ∧ o' = .lt) :
    order.holds o ≠ order.holds o' := by
  rcases h with ⟨rfl, rfl⟩ | ⟨rfl, rfl⟩ <;> cases order <;> decide

theorem holds_alike_iff (order : Order) (s t : List Char) :
    order.holds (Utf16.byUnits s t) = order.holds (Utf16.byPoints s t) ↔ Utf16.alike s t = true := by
  rcases Utf16.byUnits_cases s t with ⟨halike, heq⟩ | ⟨halike, hswap⟩
  · exact iff_of_true (by rw [heq]) halike
  · refine iff_of_false (holds_swap hswap) ?_
    rw [halike]
    exact Bool.false_ne_true

theorem compare_of_iff {operand : Operand} (hnull : operand ≠ .null) (order : Order) (v : Option Value) :
    (compare (Read.of v : Read φ) operand).any order.holds = (Mongo.compare v operand).any order.holds ↔
      Sound order operand v := by
  cases v with
  | none =>
    cases operand with
    | null => exact absurd rfl hnull
    | _ => exact iff_of_true rfl trivial
  | some v =>
    cases v with
    | null =>
      cases operand with
      | null => exact absurd rfl hnull
      | _ => exact iff_of_true rfl trivial
    | boolean a =>
      cases operand with
      | boolean b =>
        simp only [compare, Mongo.compare, Read.of, Sound, Option.any_none, Option.any_some,
          Operand.boolean.injEq, forall_eq']
        exact eq_comm
      | _ =>
        refine iff_of_true rfl ?_
        rintro _ ⟨⟩
    | string a =>
      cases operand with
      | string b =>
        simp only [compare, Mongo.compare, Read.of, Sound, Option.any_some, Operand.string.injEq,
          holds_alike_iff, forall_eq']
      | _ =>
        refine iff_of_true rfl ?_
        rintro _ ⟨⟩
    | date a =>
      cases operand with
      | date time => cases time <;> exact iff_of_true rfl trivial
      | _ => exact iff_of_true rfl trivial
    | number | array | object => cases operand <;> exact iff_of_true rfl trivial

def Known : Test → Prop
  | .ordered _ operand => operand ≠ .null
  | .unknown _ => False
  | _ => True

theorem read_crosses {path : Path} {record : Value} (h : Crosses platform path record) :
    read platform path (.value record) = .of none := by
  induction path generalizing record with
  | nil => exact h.elim
  | cons name path ih =>
    cases record with
    | object properties =>
      obtain ⟨v, hv, hcrosses⟩ := h
      simpa only [read, Platform.get, hv] using ih hcrosses
    | array items =>
      obtain ⟨v, hv, hcrosses⟩ | ⟨helement, hlength, hinherited⟩ := h
      · simpa only [read, Platform.get, hv] using ih hcrosses
      · simp only [read, Platform.get, helement, if_neg hlength, hinherited, read_undefined, Read.of]
    | _ => exact h.elim

theorem operators_ok (value : Read φ) {test : Test} (htest : Known test) : ∃ b, OPERATORS value test = .ok b := by
  cases test with
  | unknown operator => exact htest.elim
  | _ => exact ⟨_, rfl⟩

/-! ### Values that are equal to operands -/

theorem met_singleton {operand : Operand} {values : List (Option Value)} :
    Met [operand] values ↔ values.any (equals · operand) = true := by
  simp only [Met, List.mem_singleton, exists_eq_left, List.any_eq_true]

theorem met_iff {operands : List Operand} {values : List (Option Value)} :
    Met operands values ↔ (operands.any fun operand => values.any (equals · operand)) = true := by
  simp only [Met, List.any_eq_true]

theorem equals_none {operand : Operand} : equals none operand = true ↔ operand = .null := by
  cases operand <;> simp [equals]

theorem met_none {operands : List Operand} : Met operands [none] ↔ .null ∈ operands := by
  simp only [Met, List.mem_singleton, exists_eq_left, equals_none, exists_eq_right]

theorem met_held {path : Path} {record : Value} (h : Straight platform path record) {operands : List Operand} :
    Met operands (held path record) ↔ Met operands (candidates (led path record)) ∨
      .null ∈ operands ∧ none ∈ reach path record := by
  constructor
  · rintro ⟨operand, hoperand, v, hv, hequals⟩
    rcases (mem_held_straight h).mp hv with hv | ⟨rfl, hnone⟩
    · exact .inl ⟨operand, hoperand, v, hv, hequals⟩
    · exact .inr ⟨equals_none.mp hequals ▸ hoperand, hnone⟩
  · rintro (⟨operand, hoperand, v, hv, hequals⟩ | ⟨hnull, hnone⟩)
    · exact ⟨operand, hoperand, v, (mem_held_straight h).mpr (.inl hv), hequals⟩
    · exact ⟨.null, hnull, none, (mem_held_straight h).mpr (.inr ⟨rfl, hnone⟩), rfl⟩

def asked : Test → Option (List Operand)
  | .eq operand | .ne operand => some [operand]
  | .included operands | .excluded operands => some operands
  | _ => none

theorem selects_eq_iff {test : Test} {operands : List Operand} (h : asked test = some operands)
    (values others : List (Option Value)) :
    test.selects values = test.selects others ↔ (Met operands values ↔ Met operands others) := by
  cases test with
  | eq operand =>
    obtain rfl := Option.some.inj h
    rw [met_singleton, met_singleton, ← Bool.eq_iff_iff]
    rfl
  | ne operand =>
    obtain rfl := Option.some.inj h
    rw [met_singleton, met_singleton, ← Bool.eq_iff_iff]
    exact Bool.not_inj_iff
  | included operands =>
    obtain rfl := Option.some.inj h
    rw [met_iff, met_iff, ← Bool.eq_iff_iff]
    rfl
  | excluded operands =>
    obtain rfl := Option.some.inj h
    rw [met_iff, met_iff, ← Bool.eq_iff_iff]
    exact Bool.not_inj_iff
  | ordered | unknown => cases h

theorem operators_equal {test : Test} {operands : List Operand} (h : asked test = some operands)
    (v : Option Value) : OPERATORS (Read.of v : Read φ) test = .ok (test.selects (candidates v)) := by
  have hequal : ∀ operand, some' (Read.of v : Read φ) (equal · operand) =
      (candidates v).any (equals · operand) := by
    intro operand
    rw [some_of]
    simp only [equal_of]
  cases test with
  | eq | ne | included | excluded => simp only [OPERATORS, Test.selects, hequal]
  | ordered | unknown => cases h

/-! ### Values that are ordered -/

theorem any_eq_any_iff {α : Type} {l : List α} {f g : α → Bool} {S : α → Prop} (hS : ∀ v, f v = g v ↔ S v) :
    l.any f = l.any g ↔ (∀ v ∈ l, S v) ∨ (∃ v ∈ l, S v ∧ g v = true) ∨
      (∃ v ∈ l, ¬S v ∧ g v = true) ∧ ∃ v ∈ l, ¬S v ∧ ¬g v = true := by
  constructor
  · intro heq
    by_cases hall : ∀ v ∈ l, S v
    · exact .inl hall
    by_cases hsound : ∃ v ∈ l, S v ∧ g v = true
    · exact .inr (.inl hsound)
    have hloose : ∀ v ∈ l, g v = true → ¬S v := fun v hv hg hSv => hsound ⟨v, hv, hSv, hg⟩
    cases hany : l.any g with
    | true =>
      obtain ⟨v, hv, hg⟩ := List.any_eq_true.mp hany
      obtain ⟨w, hw, hf⟩ := List.any_eq_true.mp (heq.trans hany)
      have hwS : ¬S w := fun hSw => hloose w hw (((hS w).mpr hSw).symm.trans hf) hSw
      refine .inr (.inr ⟨⟨v, hv, hloose v hv hg, hg⟩, w, hw, hwS, fun hgw => hwS ((hS w).mp ?_)⟩)
      rw [hf, hgw]
    | false =>
      -- neither holds of any, so that all are sound
      refine absurd (fun v hv => (hS v).mp ?_) hall
      rw [List.any_eq_false.mp hany v hv |> Bool.eq_false_iff.mpr,
        List.any_eq_false.mp (heq.trans hany) v hv |> Bool.eq_false_iff.mpr]
  · rintro (hall | ⟨v, hv, hSv, hg⟩ | ⟨⟨v, hv, -, hg⟩, w, hw, hwS, hgw⟩)
    · refine Bool.eq_iff_iff.mpr ?_
      rw [List.any_eq_true, List.any_eq_true]
      exact exists_congr fun v => and_congr_right fun hv => by rw [(hS v).mpr (hall v hv)]
    · rw [List.any_eq_true.mpr ⟨v, hv, hg⟩, List.any_eq_true.mpr ⟨v, hv, ((hS v).mpr hSv).trans hg⟩]
    · have hfw : f w = true := by
        by_contra hfw
        refine hwS ((hS w).mp ?_)
        rw [Bool.eq_false_iff.mpr hfw, Bool.eq_false_iff.mpr hgw]
      rw [List.any_eq_true.mpr ⟨v, hv, hg⟩, List.any_eq_true.mpr ⟨w, hw, hfw⟩]

theorem ordered_none {order : Order} {operand : Operand} (hnull : operand ≠ .null) :
    ¬Ordered order operand none := by
  cases operand with
  | null => exact absurd rfl hnull
  | _ => exact Bool.false_ne_true

theorem operators_ordered (order : Order) (operand : Operand) (v : Option Value) :
    OPERATORS (Read.of v : Read φ) (.ordered order operand) =
      .ok ((candidates v).any fun w => (compare (Read.of w : Read φ) operand).any order.holds) := by
  simp only [OPERATORS, some_of]

theorem any_held {path : Path} {record : Value} (h : Straight platform path record) {order : Order}
    {operand : Operand} (hnull : operand ≠ .null) : Test.selects (held path record) (.ordered order operand) =
      (candidates (led path record)).any fun v => (Mongo.compare v operand).any order.holds := by
  rw [Test.selects, Bool.eq_iff_iff, List.any_eq_true, List.any_eq_true]
  constructor
  · rintro ⟨v, hv, hordered⟩
    rcases (mem_held_straight h).mp hv with hv | ⟨rfl, -⟩
    · exact ⟨v, hv, hordered⟩
    · exact absurd hordered (ordered_none hnull)
  · rintro ⟨v, hv, hordered⟩
    exact ⟨v, (mem_held_straight h).mpr (.inl hv), hordered⟩

/-! ### One comparison -/

theorem direct_iff {path : Path} {record : Value} {test : Test} (htest : Known test)
    (h : Straight platform path record) :
    OPERATORS (read platform path (.value record)) test = .ok (test.selects (held path record)) ↔
      Direct path record test := by
  obtain ⟨-, -, hread⟩ := reach_straight h
  have hequality : ∀ operands, asked test = some operands →
      (OPERATORS (read platform path (.value record)) test = .ok (test.selects (held path record)) ↔
        (.null ∈ operands → none ∈ reach path record → Met operands (candidates (led path record)))) := by
    intro operands hoperands
    rw [hread, operators_equal hoperands, Except.ok.injEq, selects_eq_iff hoperands, met_held h]
    tauto
  cases test with
  | unknown operator => exact htest.elim
  | ordered order operand =>
    rw [hread, operators_ordered, any_held h htest, Except.ok.injEq]
    exact any_eq_any_iff fun v => compare_of_iff htest order v
  | eq operand | ne operand =>
    rw [hequality _ rfl, List.mem_singleton, @eq_comm Operand]
    rfl
  | included operands | excluded operands => exact hequality _ rfl

theorem through_iff {path : Path} {record : Value} {test : Test} (htest : Known test)
    (h : Crosses platform path record) :
    OPERATORS (read platform path (.value record)) test = .ok (test.selects (held path record)) ↔
      Through path record test := by
  have hcandidates : candidates none = [none] := rfl
  have hequality : ∀ operands, asked test = some operands →
      (OPERATORS (read platform path (.value record)) test = .ok (test.selects (held path record)) ↔
        (.null ∈ operands ↔ Met operands (held path record))) := by
    intro operands hoperands
    rw [read_crosses h, operators_equal hoperands, Except.ok.injEq, selects_eq_iff hoperands, hcandidates,
      met_none]
  cases test with
  | unknown operator => exact htest.elim
  | ordered order operand =>
    have hnone : ((candidates none).any fun w => (compare (Read.of w : Read φ) operand).any order.holds) =
        false := rfl
    rw [read_crosses h, operators_ordered, hnone, Except.ok.injEq, eq_comm, Test.selects, List.any_eq_false]
    rfl
  | eq operand | ne operand =>
    rw [hequality _ rfl, List.mem_singleton, @eq_comm Operand]
    rfl
  | included operands | excluded operands => exact hequality _ rfl

theorem alike_iff {path : Path} {record : Value} {test : Test} {alike : Bool} (htest : Known test)
    (h : Judged platform path record test alike) :
    OPERATORS (read platform path (.value record)) test = .ok (test.selects (held path record)) ↔
      alike = true := by
  rcases h with ⟨hstraight, hdirect⟩ | ⟨hcrosses, hthrough⟩
  · exact (direct_iff htest hstraight).trans hdirect
  · exact (through_iff htest hcrosses).trans hthrough

theorem compared_of_regular {path : Path} {record : Value} (test : Test)
    (h : Straight platform path record ∨ Crosses platform path record) :
    ∃ alike, Judged platform path record test alike := by
  classical
  rcases h with hstraight | hcrosses
  · exact ⟨decide (Direct path record test), .inl ⟨hstraight, decide_eq_true_iff.symm⟩⟩
  · exact ⟨decide (Through path record test), .inr ⟨hcrosses, decide_eq_true_iff.symm⟩⟩

/-! ### Two sides -/

section Sides
variable {left right : Bool → Prop} {x y d e : Bool}

/-- `x` and `y` say whether a side is matched as one that decides, and `d` and `e` whether it does. -/
theorem whole_alike (hleft : ∀ alike, left alike → (x = d ↔ alike = true))
    (hright : ∀ alike, right alike → (y = e ↔ alike = true)) {alike : Bool} (h : Whole left right d e alike) :
    (x || y) = (d || e) ↔ alike = true := by
  have hl := hleft true
  have hl' := hleft false
  have hr := hright true
  have hr' := hright false
  cases d <;> cases e <;> cases alike <;> simp only [Whole] at h <;> cases x <;> cases y <;> simp_all

theorem whole_total (hleft : ∃ alike, left alike) (hright : ∃ alike, right alike) :
    ∃ alike, Whole left right d e alike := by
  obtain ⟨a, ha⟩ := hleft
  obtain ⟨b, hb⟩ := hright
  cases d <;> cases e <;> cases a <;> cases b <;> simp [Whole, ha, hb]

end Sides

/-! ## Criteria -/

theorem compared_ne_null {path : Path} {dates : List String} {value : Scalar} (h : value ≠ .null) :
    compared platform path dates value ≠ .null := by
  have hoperand : operand value ≠ .null := by
    cases value with
    | null => exact absurd rfl h
    | _ => rintro ⟨⟩
  have hdate : date platform value ≠ .null := by
    rw [date, if_neg h]
    rintro ⟨⟩
  unfold compared
  split
  · split_ifs
    · exact hdate
    · exact hoperand
  · exact hoperand

theorem known_comparison {operator : Relation} {value : Scalar} (path : Path) (dates : List String)
    (h : value = .null → operator = .eq ∨ operator = .ne) :
    Known (comparison operator (compared platform path dates value)) := by
  by_cases hvalue : value = .null
  · rcases h hvalue with rfl | rfl <;> trivial
  · have hne := @compared_ne_null φ platform path dates value hvalue
    cases operator with
    | eq | ne => trivial
    | _ => exact hne

theorem known_membership (operator : Membership) (operands : List Operand) :
    Known (membership operator operands) := by
  cases operator <;> trivial

theorem isOperator_rename {selector : Path} (h : isOperator selector = false) :
    isOperator (rename selector) = false := by
  unfold rename
  split
  · split_ifs
    · decide
    · decide
    · split
      · rename_i function _
        have hfirst : "function ".toList = 'f' :: "unction ".toList := by decide
        simp only [isOperator, String.toList_append, hfirst, List.cons_append, List.head?_cons]
        decide
      · exact h
  · exact h

theorem match_field {path : Path} (record : Value) (test : Test) (hpath : isOperator path = false) :
    matchFilter platform [.field path (.all [test])] record =
      OPERATORS (read platform path (.value record)) test := by
  have hfield : matchesEntry platform (.field path (.all [test])) record =
      OPERATORS (read platform path (.value record)) test := by
    rw [matchesEntry, hpath, if_neg Bool.false_ne_true, field, tests]
    cases OPERATORS (read platform path (.value record)) test with
    | error refusal => rfl
    | ok b => cases b <;> rfl
  rw [matchFilter, hfield]
  cases OPERATORS (read platform path (.value record)) test with
  | error refusal => rfl
  | ok b => cases b <;> rfl

theorem match_and {one other : Filter} {record : Value} {a b : Bool}
    (hone : matchFilter platform one record = .ok a) (hother : matchFilter platform other record = .ok b) :
    matchFilter platform [.and [one, other]] record = .ok (a && b) := by
  cases a <;> cases b <;> simp [matchFilter, matchesEntry, every, hone, hother]

theorem match_or {one other : Filter} {record : Value} {a b : Bool}
    (hone : matchFilter platform one record = .ok a) (hother : matchFilter platform other record = .ok b) :
    matchFilter platform [.or [one, other]] record = .ok (a || b) := by
  cases a <;> cases b <;> simp [matchFilter, matchesEntry, any, hone, hother]

variable {number : String → Option ℚ} {properties : Query.Properties}

section Parsed

variable (hnames : ∀ name ∈ properties.map Prod.fst, isOperator [name] = false)

include hnames

theorem isOperator_declared {selector : Query.Selector}
    (h : Query.property (some properties) selector ≠ none) : isOperator (rename selector) = false := by
  obtain ⟨name, names, rfl, hname⟩ := Query.property_declared h
  exact isOperator_rename (hnames name hname)

theorem matched_ok {node : Node} (hnode : node.Parsed properties) (dates : List String) (record : Value) :
    ∃ b, matchFilter platform (criteria platform dates node) record = .ok b := by
  induction node with
  | logic operator left right ihleft ihright =>
    obtain ⟨a, ha⟩ := ihleft hnode.1
    obtain ⟨b, hb⟩ := ihright hnode.2
    cases operator with
    | and => exact ⟨_, match_and ha hb⟩
    | or => exact ⟨_, match_or ha hb⟩
  | comparison selector operator value =>
    rw [criteria, match_field _ _ (isOperator_declared hnames hnode.1)]
    exact operators_ok _ (known_comparison _ dates hnode.2)
  | membership selector operator values =>
    rw [criteria, match_field _ _ (isOperator_declared hnames hnode)]
    exact operators_ok _ (known_membership operator _)

theorem answered_alike {node : Node} (hnode : node.Parsed properties) {dates : List String}
    {record : Value} {alike : Bool} (h : Answered platform dates record node alike) :
    Agrees platform dates record node ↔ alike = true := by
  induction node generalizing alike with
  | logic operator left right ihleft ihright =>
    obtain ⟨a, ha⟩ := matched_ok hnames hnode.1 dates record
    obtain ⟨b, hb⟩ := matched_ok hnames hnode.2 dates record
    have hleft : ∀ alike, Answered platform dates record left alike →
        (a = find (criteria platform dates left) record ↔ alike = true) := by
      intro alike h
      rw [← ihleft hnode.1 h, Agrees, ha, Except.ok.injEq]
    have hright : ∀ alike, Answered platform dates record right alike →
        (b = find (criteria platform dates right) record ↔ alike = true) := by
      intro alike h
      rw [← ihright hnode.2 h, Agrees, hb, Except.ok.injEq]
    cases operator with
    | and =>
      rw [Agrees, criteria, match_and ha hb, find_and, Except.ok.injEq, ← Bool.not_inj_iff, Bool.not_and,
        Bool.not_and]
      refine whole_alike (fun alike h => ?_) (fun alike h => ?_) h
      · exact Bool.not_inj_iff.trans (hleft alike h)
      · exact Bool.not_inj_iff.trans (hright alike h)
    | or =>
      rw [Agrees, criteria, match_or ha hb, find_or, Except.ok.injEq]
      exact whole_alike hleft hright h
  | comparison selector operator value =>
    rw [Agrees, criteria, match_field _ _ (isOperator_declared hnames hnode.1), find_field]
    exact alike_iff (known_comparison _ dates hnode.2) h
  | membership selector operator values =>
    rw [Agrees, criteria, match_field _ _ (isOperator_declared hnames hnode), find_field]
    exact alike_iff (known_membership operator _) h

omit hnames in
theorem answered_of_regular {node : Node} {record : Value} (h : Regular platform record node)
    (dates : List String) : ∃ alike, Answered platform dates record node alike := by
  induction node with
  | logic operator left right ihleft ihright => exact whole_total (ihleft h.1) (ihright h.2)
  | comparison => exact compared_of_regular _ h
  | membership => exact compared_of_regular _ h

/-- Criteria the core parses match a record as the database selects it by them where they are answered as it
answers them, and where all of their paths are regular, there only. -/
theorem match_find {expression : Query.Expression} {node : Node}
    (hnode : Query.criteria number (some properties) expression = .ok node) (dates : List String)
    (record : Value) :
    (Answered platform dates record node true → Agrees platform dates record node) ∧
    (Regular platform record node →
      (Agrees platform dates record node ↔ Answered platform dates record node true)) := by
  have hparsed := Query.criteria_parsed hnode
  have henough : Answered platform dates record node true → Agrees platform dates record node :=
    fun h => (answered_alike hnames hparsed h).mpr rfl
  refine ⟨henough, fun hregular => ⟨fun hagrees => ?_, henough⟩⟩
  obtain ⟨alike, h⟩ := answered_of_regular hregular dates
  obtain rfl := (answered_alike hnames hparsed h).mp hagrees
  exact h

end Parsed

def engine : Platform String where
  inherited _ name := if name ∈ "__proto__" :: native.map Prod.fst then .foreign name else .undefined
  property _ _ := .undefined
  moment _ := none

def pots : Query.Properties :=
  [("booked", .declared (some "boolean") none none),
    ("size", .declared (some "object") (some [("volume", .declared (some "number") none none)]) none),
    ("leaves", .declared (some "array") none (some (.declared (some "object")
      (some [("grams", .declared (some "number") none none)]) none)))]

def pot : Value :=
  .object [("_id", .string "a1"), ("booked", .boolean true), ("size", .object [("volume", .number 3)]),
    ("leaves", .array [.object [("grams", .number 2)], .object [("grams", .number 3)]])]

def digit (text : String) : Option ℚ := if text = "3" then some 3 else none

theorem pots_names : ∀ name ∈ pots.map Prod.fst, isOperator [name] = false := by decide

/-- `booked==true;size.volume>=3` -/
def served : Query.Expression :=
  .logic .and (.comparison ["booked"] .eq ⟨"true", false⟩)
    (.comparison ["size", "volume"] .gte ⟨"3", false⟩)

theorem match_find_pot : ∃ node, Query.criteria digit (some pots) served = .ok node ∧
    Agrees engine [] pot node := by
  have hnode : Query.criteria digit (some pots) served =
      .ok (.logic .and (.comparison ["booked"] .eq (.boolean true))
        (.comparison ["size", "volume"] .gte (.number 3))) := rfl
  refine ⟨_, hnode, (match_find pots_names hnode [] pot).1 ?_⟩
  have hbooked : decides engine [] pot .and (.comparison ["booked"] .eq (.boolean true)) = false := by
    decide +kernel
  have hvolume : decides engine [] pot .and (.comparison ["size", "volume"] .gte (.number 3)) = false := by
    decide +kernel
  have hsound : ∀ v ∈ candidates (led ["size", "volume"] pot), Sound .gte (.number 3) v := by
    intro v hv
    obtain rfl := List.mem_singleton.mp hv
    trivial
  rw [Answered, hbooked, hvolume]
  exact ⟨.inl ⟨trivial, iff_of_true nofun rfl⟩, .inl ⟨trivial, iff_of_true (.inl hsound) rfl⟩⟩

/-- `leaves.grams==3` selects a pot with such a leaf, and `booked>false` one that is booked: neither is
matched. -/
theorem array_is_not_gone_through :
    (∃ node, Query.criteria digit (some pots) (.comparison ["leaves", "grams"] .eq ⟨"3", false⟩) = .ok node ∧
      matchFilter engine (criteria engine [] node) pot = .ok false ∧
        find (criteria engine [] node) pot = true) ∧
    ∃ node, Query.criteria digit (some pots) (.comparison ["booked"] .gt ⟨"false", false⟩) = .ok node ∧
      matchFilter engine (criteria engine [] node) pot = .ok false ∧
        find (criteria engine [] node) pot = true := by
  refine ⟨⟨.comparison ["leaves", "grams"] .eq (.number 3), rfl, rfl, ?_⟩,
    .comparison ["booked"] .gt (.boolean false), rfl, rfl, ?_⟩
  · decide +kernel
  · decide +kernel

end Toa.Storage.Match
