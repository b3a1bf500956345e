import Mathlib.Data.Rat.Defs
import Toa.Lib.Assoc

/-! What the core reads of the criteria a query carries: each value as the property it is compared with
holds it. The text is told apart by the parser, and what it answers is an `Expression`. -/

namespace Toa.Query

inductive Property
  | declared (type : Option String) (properties : Option (List (String × Property)))
      (items : Option Property)

abbrev Properties := List (String × Property)

def Property.type : Property → Option String
  | .declared type _ _ => type

def Property.properties : Property → Option Properties
  | .declared _ properties _ => properties

abbrev Selector := List String

def Selector.text (selector : Selector) : String := ".".intercalate selector

inductive Logic
  | and
  | or

inductive Relation
  | eq
  | ne
  | gt
  | gte
  | lt
  | lte

/-- `=in=` and `=out=` -/
inductive Membership
  | included
  | excluded

structure Literal where
  text : String
  quoted : Bool

inductive Expression
  | logic (operator : Logic) (left right : Expression)
  | comparison (selector : Selector) (operator : Relation) (literal : Literal)
  | membership (selector : Selector) (operator : Membership) (literal : Literal)
      (literals : List Literal)

inductive Scalar
  | null
  | boolean (b : Bool)
  | number (q : ℚ)
  | string (s : String)
  deriving DecidableEq

inductive Node
  | logic (operator : Logic) (left right : Node)
  | comparison (selector : Selector) (operator : Relation) (value : Scalar)
  | membership (selector : Selector) (operator : Membership) (values : List Scalar)

/-! ## The property a query names -/

def held : Property → Property
  | .declared (some "array") _ (some items) => held items
  | property => property

def property : Option Properties → Selector → Option Property
  | none, _ => none
  | some _, [] => none
  | some declared, [name] => (declared.lookup name).map held
  | some declared, name :: names =>
    match (declared.lookup name).map held with
    | none => none
    | some found => property (if found.type = some "object" then found.properties else none) names

/-! ## Values -/

/-- What `trim` takes of a text. -/
def space (c : Char) : Bool :=
  c.toNat ∈ [0x9, 0xA, 0xB, 0xC, 0xD, 0x20, 0xA0, 0x1680, 0x2028, 0x2029, 0x202F, 0x205F, 0x3000, 0xFEFF] ||
    decide (0x2000 ≤ c.toNat ∧ c.toNat ≤ 0x200A)

def refuse (selector : Selector) (expected value : String) : String :=
  s!"Criteria selector '{selector.text}' takes {expected}, and '{value}' is not one"

section Values

variable (number : String → Option ℚ)

def finite (value : String) (selector : Selector) (expected : String) : Except String ℚ :=
  if value.toList.all space then .error (refuse selector expected value)
  else
    match number value with
    | some q => .ok q
    | none => .error (refuse selector expected value)

def cast (type : Option String) (text : String) (selector : Selector) : Except String Scalar :=
  match type with
  | some "number" => (finite number text selector "a number").map .number
  | some "integer" =>
    match finite number text selector "an integer" with
    | .ok q => if q.den = 1 then .ok (.number q) else .error (refuse selector "an integer" text)
    | .error refusal => .error refusal
  | some "boolean" =>
    if text = "true" then .ok (.boolean true)
    else if text = "false" then .ok (.boolean false)
    else .error (refuse selector "a boolean" text)
  | _ => .ok (.string text)

def Relation.text : Relation → String
  | .eq => "=="
  | .ne => "!="
  | .gt => ">"
  | .gte => ">="
  | .lt => "<"
  | .lte => "<="

def Membership.text : Membership → String
  | .included => "=in="
  | .excluded => "=out="

def EQUALITY : List String := ["==", "!=", "=in=", "=out="]

def read (properties : Option Properties) (selector : Selector) (operator : String)
    (literal : Literal) : Except String Scalar :=
  let found := property properties selector
  if properties.isSome ∧ found.isNone then
    .error s!"Criteria selector '{selector.text}' is not defined"
  else if literal.quoted = false ∧ (literal.text = "null" ∨ literal.text = "undefined") then
    if operator ∈ EQUALITY then .ok .null
    else .error s!"Criteria selector '{selector.text}' compares no value with '{operator}'"
  else cast number (found.bind Property.type) literal.text selector

def criteria (properties : Option Properties) : Expression → Except String Node
  | .logic operator left right =>
    match criteria properties left, criteria properties right with
    | .ok left, .ok right => .ok (.logic operator left right)
    | .error refusal, _ => .error refusal
    | .ok _, .error refusal => .error refusal
  | .comparison selector operator literal =>
    (read number properties selector operator.text literal).map (.comparison selector operator)
  | .membership selector operator literal literals =>
    ((literal :: literals).mapM (read number properties selector operator.text)).map
      (.membership selector operator)

/-! ## What is parsed -/

def Node.Parsed (properties : Properties) : Node → Prop
  | .logic _ left right => left.Parsed properties ∧ right.Parsed properties
  | .comparison selector operator value =>
    property (some properties) selector ≠ none ∧ (value = .null → operator = .eq ∨ operator = .ne)
  | .membership selector _ _ => property (some properties) selector ≠ none

variable {number} {properties : Properties}

theorem read_declared {selector : Selector} {operator : String} {literal : Literal} {value : Scalar}
    (h : read number (some properties) selector operator literal = .ok value) :
    property (some properties) selector ≠ none := by
  intro hnone
  simp [read, hnone] at h

theorem cast_ne_null (type : Option String) (text : String) (selector : Selector) :
    cast number type text selector ≠ .ok .null := by
  unfold cast
  split
  · cases finite number text selector "a number" <;> simp [Except.map]
  · split
    · split_ifs <;> simp
    · simp
  · split_ifs <;> simp
  · simp

theorem read_null {selector : Selector} {operator : String} {literal : Literal}
    (h : read number (some properties) selector operator literal = .ok .null) : operator ∈ EQUALITY := by
  simp only [read] at h
  split_ifs at h with hundefined hliteral hequality
  · exact hequality
  · exact absurd h (cast_ne_null _ _ _)

theorem Relation.eq_or_ne_of_mem {operator : Relation} (h : operator.text ∈ EQUALITY) :
    operator = .eq ∨ operator = .ne := by
  cases operator <;> simp_all [Relation.text, EQUALITY]

theorem criteria_parsed {expression : Expression} {node : Node}
    (h : criteria number (some properties) expression = .ok node) : node.Parsed properties := by
  induction expression generalizing node with
  | logic operator left right ihleft ihright =>
    rw [criteria] at h
    split at h
    · rename_i l r hl hr
      cases h
      exact ⟨ihleft hl, ihright hr⟩
    · cases h
    · cases h
  | comparison selector operator literal =>
    rw [criteria] at h
    cases hread : read number (some properties) selector operator.text literal with
    | error refusal =>
      rw [hread] at h
      cases h
    | ok value =>
      rw [hread] at h
      cases h
      refine ⟨read_declared hread, ?_⟩
      rintro rfl
      exact Relation.eq_or_ne_of_mem (read_null hread)
  | membership selector operator literal literals =>
    -- the first literal of the list is read, which is where the selector is looked for
    rw [criteria, List.mapM_cons] at h
    cases hread : read number (some properties) selector operator.text literal with
    | error refusal =>
      rw [hread] at h
      cases h
    | ok value =>
      rw [hread] at h
      have hdeclared := read_declared hread
      cases hrest : literals.mapM (read number (some properties) selector operator.text) with
      | error refusal =>
        rw [hrest] at h
        cases h
      | ok values =>
        rw [hrest] at h
        cases h
        exact hdeclared

theorem property_declared {selector : Selector} (h : property (some properties) selector ≠ none) :
    ∃ name names, selector = name :: names ∧ name ∈ properties.map Prod.fst := by
  cases selector with
  | nil => exact absurd rfl h
  | cons name names =>
    refine ⟨name, names, rfl, ?_⟩
    by_contra hmissing
    have hnone : properties.lookup name = none := Assoc.lookup_eq_none_iff.mpr hmissing
    apply h
    cases names <;> simp [property, hnone]

end Values

end Toa.Query
