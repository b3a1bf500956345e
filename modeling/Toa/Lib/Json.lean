import Mathlib.Data.Rat.Defs
import Toa.Lib.Assoc

/-! JSON values, with the keys of an object in their order. -/

inductive Json
  | null
  | boolean (b : Bool)
  | number (q : ℚ)
  | string (s : String)
  | array (items : List Json)
  | object (entries : List (String × Json))

namespace Json

/-- The names that every object of the platform answers to, whatever its own properties are. -/
def INHERITED : List String :=
  ["constructor", "hasOwnProperty", "isPrototypeOf", "propertyIsEnumerable", "toLocaleString", "toString",
    "valueOf", "__proto__", "__defineGetter__", "__defineSetter__", "__lookupGetter__", "__lookupSetter__"]

mutual
def beq : Json → Json → Bool
  | .null, .null => true
  | .boolean a, .boolean b => a == b
  | .number a, .number b => a == b
  | .string a, .string b => a == b
  | .array as, .array bs => beqItems as bs
  | .object as, .object bs => beqEntries as bs
  | _, _ => false

def beqItems : List Json → List Json → Bool
  | [], [] => true
  | a :: as, b :: bs => beq a b && beqItems as bs
  | _, _ => false

def beqEntries : List (String × Json) → List (String × Json) → Bool
  | [], [] => true
  | (key, a) :: as, (key', b) :: bs => key == key' && beq a b && beqEntries as bs
  | _, _ => false
end

mutual
theorem eq_of_beq : ∀ {a b : Json}, beq a b = true → a = b
  | .null, .null, _ => rfl
  | .boolean _, .boolean _, h => congrArg boolean (by simpa [beq] using h)
  | .number _, .number _, h => congrArg number (by simpa [beq] using h)
  | .string _, .string _, h => congrArg string (by simpa [beq] using h)
  | .array _, .array _, h => congrArg array (eq_of_beqItems h)
  | .object _, .object _, h => congrArg object (eq_of_beqEntries h)

theorem eq_of_beqItems : ∀ {as bs : List Json}, beqItems as bs = true → as = bs
  | [], [], _ => rfl
  | a :: as, b :: bs, h => by
    obtain ⟨hhead, htail⟩ := Bool.and_eq_true_iff.mp h
    rw [eq_of_beq hhead, eq_of_beqItems htail]

theorem eq_of_beqEntries : ∀ {as bs : List (String × Json)}, beqEntries as bs = true → as = bs
  | [], [], _ => rfl
  | (key, a) :: as, (key', b) :: bs, h => by
    obtain ⟨hhead, htail⟩ := Bool.and_eq_true_iff.mp h
    obtain ⟨hkey, hvalue⟩ := Bool.and_eq_true_iff.mp hhead
    rw [LawfulBEq.eq_of_beq hkey, eq_of_beq hvalue, eq_of_beqEntries htail]
end

mutual
theorem beq_self : ∀ a : Json, beq a a = true
  | .null => rfl
  | .boolean _ | .number _ | .string _ => by simp [beq]
  | .array items => beqItems_self items
  | .object entries => beqEntries_self entries

theorem beqItems_self : ∀ as : List Json, beqItems as as = true
  | [] => rfl
  | a :: as => Bool.and_eq_true_iff.mpr ⟨beq_self a, beqItems_self as⟩

theorem beqEntries_self : ∀ as : List (String × Json), beqEntries as as = true
  | [] => rfl
  | (_, a) :: as =>
    Bool.and_eq_true_iff.mpr ⟨Bool.and_eq_true_iff.mpr ⟨BEq.rfl, beq_self a⟩, beqEntries_self as⟩
end

theorem beq_iff {a b : Json} : beq a b = true ↔ a = b := by
  constructor
  · exact eq_of_beq
  · rintro rfl
    exact beq_self a

instance : DecidableEq Json := fun _ _ => decidable_of_iff _ beq_iff

def get (value : Json) (key : String) : Option Json :=
  match value with
  | .object entries => entries.lookup key
  | _ => none

/-- `{ ...value, [key]: property }` -/
def put (value : Json) (key : String) (property : Json) : Json :=
  match value with
  | .object entries => .object (Assoc.gather key property (fun _ => property) entries)
  | _ => .object [(key, property)]

theorem get_put (value : Json) (key other : String) (property : Json) :
    (value.put key property).get other = if other = key then some property else value.get other := by
  cases value with
  | object entries =>
    rw [put, get, Assoc.lookup_gather]
    split_ifs with h
    · cases entries.lookup key <;> rfl
    · rfl
  | _ => exact Assoc.lookup_single other key property

theorem put_put (value : Json) (key : String) (property property' : Json) :
    (value.put key property).put key property' = value.put key property' := by
  cases value with
  | object entries => exact congrArg object (Assoc.gather_gather key property property' entries)
  | _ => exact congrArg object (if_pos rfl)

theorem put_comm {value : Json} {key key' : String} (hne : key ≠ key') (hkey : (value.get key).isSome = true)
    (property property' : Json) :
    (value.put key' property').put key property = (value.put key property).put key' property' := by
  cases value with
  | object entries =>
    refine congrArg object (Assoc.gather_comm hne ?_)
    by_contra hnone
    rw [get, Assoc.lookup_eq_none_iff.mpr hnone] at hkey
    cases hkey
  | _ => cases hkey

end Json
