import Mathlib.Data.Rat.Defs
import Toa.Lib.Utf16

/-! Documents and the filters that select them. A path goes through an array to the objects in it, a
comparison of an array holds of it or of one of its elements, no value is equal to null, and values are
ordered within one type. -/

namespace Mongo

inductive Value
  | null
  | boolean (b : Bool)
  | number (q : ℚ)
  | string (s : String)
  | date (time : ℤ)
  | array (items : List Value)
  | object (properties : List (String × Value))

/-- What a value is compared with. A date may be none, which is no instant. -/
inductive Operand
  | null
  | boolean (b : Bool)
  | number (q : ℚ)
  | string (s : String)
  | date (time : Option ℤ)

inductive Order
  | gt
  | gte
  | lt
  | lte

inductive Test
  | eq (operand : Operand)
  | ne (operand : Operand)
  | ordered (order : Order) (operand : Operand)
  | included (operands : List Operand)
  | excluded (operands : List Operand)
  | unknown (operator : String)

inductive Condition
  | value (operand : Operand)
  | all (tests : List Test)

abbrev Path := List String

inductive Entry
  | and (filters : List (List Entry))
  | or (filters : List (List Entry))
  | nor (filters : List (List Entry))
  | field (path : Path) (condition : Condition)

abbrev Filter := List Entry

/-! ## What a path reaches -/

def element (items : List Value) (name : String) : Option Value :=
  (items.zipIdx.map fun entry => (toString entry.2, entry.1)).lookup name

def reach : Path → Value → List (Option Value)
  | [], value => [some value]
  | name :: path, value =>
    let inside (properties : List (String × Value)) : List (Option Value) :=
      match properties.lookup name with
      | some value => reach path value
      | none => [none]
    match value with
    | .object properties => inside properties
    | .array items =>
      (items.flatMap fun item =>
        match item with
        | .object properties => inside properties
        | _ => []) ++
      match element items name with
      | some item => reach path item
      | none => []
    | _ => [none]

def candidates : Option Value → List (Option Value)
  | some (.array items) => some (.array items) :: items.map some
  | value => [value]

def held (path : Path) (record : Value) : List (Option Value) := (reach path record).flatMap candidates

/-! ## What a test holds of -/

def equals : Option Value → Operand → Bool
  | none, .null => true
  | some .null, .null => true
  | some (.boolean a), .boolean b => a = b
  | some (.number a), .number b => a = b
  | some (.string a), .string b => a = b
  | some (.date a), .date b => some a = b
  | _, _ => false

def compare : Option Value → Operand → Option Ordering
  | none, .null => some .eq
  | some .null, .null => some .eq
  | some (.boolean a), .boolean b => some (Ord.compare a b)
  | some (.number a), .number b => some (compareOfLessAndEq a b)
  | some (.string a), .string b => some (Utf16.byPoints a.toList b.toList)
  | some (.date a), .date (some b) => some (Ord.compare a b)
  | _, _ => none

def Order.holds : Order → Ordering → Bool
  | .gt, o => o.isGT
  | .gte, o => o.isGE
  | .lt, o => o.isLT
  | .lte, o => o.isLE

def Test.selects (values : List (Option Value)) : Test → Bool
  | .eq operand => values.any (equals · operand)
  | .ne operand => !values.any (equals · operand)
  | .ordered order operand => values.any fun value => (compare value operand).any order.holds
  | .included operands => operands.any fun operand => values.any (equals · operand)
  | .excluded operands => !operands.any fun operand => values.any (equals · operand)
  | .unknown _ => false

def Condition.selects (values : List (Option Value)) : Condition → Bool
  | .value operand => (Test.eq operand).selects values
  | .all tests => tests.all (·.selects values)

mutual
def Entry.selects : Entry → Value → Bool
  | .and filters, record => every filters record
  | .or filters, record => any filters record
  | .nor filters, record => !any filters record
  | .field path condition, record => condition.selects (held path record)
termination_by structural x => x

def find : List Entry → Value → Bool
  | [], _ => true
  | entry :: filter, record => entry.selects record && find filter record
termination_by structural x => x

def every : List (List Entry) → Value → Bool
  | [], _ => true
  | filter :: filters, record => find filter record && every filters record
termination_by structural x => x

def any : List (List Entry) → Value → Bool
  | [], _ => false
  | filter :: filters, record => find filter record || any filters record
termination_by structural x => x
end

theorem find_field (path : Path) (record : Value) (test : Test) :
    find [.field path (.all [test])] record = test.selects (held path record) := by
  simp only [find, Entry.selects, Condition.selects, List.all_cons, List.all_nil, Bool.and_true]

theorem find_and (one other : Filter) (record : Value) :
    find [.and [one, other]] record = (find one record && find other record) := by
  simp only [find, Entry.selects, every, Bool.and_true]

theorem find_or (one other : Filter) (record : Value) :
    find [.or [one, other]] record = (find one record || find other record) := by
  simp only [find, Entry.selects, any, Bool.and_true, Bool.or_false]

end Mongo
