import Toa.Lib.JsonSchema
import Toa.RPC.Forked

/-! The parameters of a call, taken apart the way a request carries them: the path takes its variables,
one name is the querystring's, and the rest is the body. -/

namespace Toa.RPC
open RTD

/-- What `params` reserves for the querystring. -/
def QUERY : String := "query"

section
-- how a number is written
variable (numeral : ℚ → String)

mutual
/-- `String(value)`. No text is made of an object that has a `toString` of its own, which is no function. -/
def text : Json → Option String
  | .null => some "null"
  | .boolean b => some (if b then "true" else "false")
  | .number q => some (numeral q)
  | .string s => some s
  | .array items => (joined items).map (",".intercalate ·)
  | .object entries => if "toString" ∈ entries.map Prod.fst then none else some "[object Object]"
termination_by structural x => x

def joined : List Json → Option (List String)
  | [] => some []
  | value :: items =>
    (text value).bind fun s => (joined items).map ((if value = .null then "" else s) :: ·)
termination_by structural x => x
end

/-- The values as text. A value that no text is made of refuses the call as one that is absent does, by
another error. -/
def params (args : List (String × Json)) (key : String) : Option String :=
  match args.lookup key with
  | none | some .null => none
  | some value => text numeral value

end

/-! ## The parts of a call -/

inductive Split
  | notObject
deriving DecidableEq

def Split.message : Split → String
  | .notObject => "'" ++ QUERY ++ "' must be an object"

structure Carried where
  query : Option (List (String × Json)) := none
  input : List (String × Json) := []
deriving DecidableEq

/-- `input[key] = value`, where one name is not a property's. -/
def Carried.set (carried : Carried) (key : String) (value : Json) : Carried :=
  if key = "__proto__" then carried
  else { carried with input := Assoc.gather key value (fun _ => value) carried.input }

def carry («variables» : List String) (carried : Carried) (entry : String × Json) : Except Split Carried :=
  if entry.1 ∈ «variables» then .ok carried
  else if entry.1 ≠ QUERY then .ok (carried.set entry.1 entry.2)
  else match entry.2 with
    | .object query => .ok { carried with query := some query }
    | _ => .error .notObject

def split (params : List (String × Json)) («variables» : List String) :
    Except Split (Option (List (String × Json)) × Option (List (String × Json))) :=
  (params.foldlM (carry «variables») {}).map fun carried =>
    (carried.query, if carried.input = [] then none else some carried.input)

/-! ## What is carried -/

def remains («variables» : List String) (entry : String × Json) : Bool :=
  entry.1 ∉ «variables» ∧ entry.1 ≠ QUERY ∧ entry.1 ≠ "__proto__"

def querystring (params : List (String × Json)) («variables» : List String) : Option (List (String × Json)) :=
  if QUERY ∈ «variables» then none else (params.lookup QUERY).map JsonSchema.fields

theorem querystring_cons {entry : String × Json} {args : List (String × Json)} {«variables» : List String}
    (h : entry.1 ≠ QUERY ∨ QUERY ∈ «variables») :
    querystring (entry :: args) «variables» = querystring args «variables» := by
  rw [querystring, querystring]
  split_ifs with hvariable
  · rfl
  · rw [Assoc.lookup_cons_of_ne (h.resolve_right hvariable).symm]

theorem foldlM_carry {args : List (String × Json)} {«variables» : List String} {carried : Carried}
    (hnodup : (args.map Prod.fst).Nodup) (hnew : ∀ entry ∈ args, entry.1 ∉ carried.input.map Prod.fst)
    (hquery : QUERY ∉ «variables» → ∀ entry ∈ args, entry.1 = QUERY → JsonSchema.isObject entry.2 = true) :
    args.foldlM (carry «variables») carried = .ok ⟨(querystring args «variables»).or carried.query,
      carried.input ++ args.filter (remains «variables»)⟩ := by
  induction args generalizing carried with
  | nil =>
    have hnone : querystring [] «variables» = none := by
      rw [querystring]
      split_ifs <;> rfl
    rw [hnone, Option.none_or, List.filter_nil, List.append_nil]
    rfl
  | cons entry args ih =>
    obtain ⟨key, value⟩ := entry
    rw [List.map_cons, List.nodup_cons] at hnodup
    obtain ⟨hhere, hrest⟩ := List.forall_mem_cons.mp hnew
    have hlater := fun h entry hentry => hquery h entry (List.mem_cons_of_mem _ hentry)
    rw [List.foldlM_cons, carry]
    by_cases hvariable : key ∈ «variables»
    · have hskip : remains «variables» (key, value) = false := by simp [remains, hvariable]
      have hsame : key ≠ QUERY ∨ QUERY ∈ «variables» := by
        rw [or_iff_not_imp_left, not_not]
        exact fun heq => heq ▸ hvariable
      rw [if_pos hvariable, List.filter_cons_of_neg (Bool.eq_false_iff.mp hskip), querystring_cons hsame]
      exact ih hnodup.2 hrest hlater
    rw [if_neg hvariable]
    by_cases hkey : key = QUERY
    · -- the one under the name of the querystring, after which there is no other
      subst hkey
      have hskip : remains «variables» (QUERY, value) = false := by simp [remains]
      obtain ⟨query, rfl⟩ := JsonSchema.isObject_iff.mp (hquery hvariable _ List.mem_cons_self rfl)
      have hone : querystring ((QUERY, .object query) :: args) «variables» = some query := by
        rw [querystring, if_neg hvariable, List.lookup_cons_self]
        rfl
      have hnone : querystring args «variables» = none := by
        rw [querystring, if_neg hvariable, Assoc.lookup_eq_none_iff.mpr hnodup.1]
        rfl
      rw [if_neg (not_not.mpr rfl), List.filter_cons_of_neg (Bool.eq_false_iff.mp hskip), hone]
      refine (@ih { carried with query := some query } hnodup.2 hrest hlater).trans ?_
      rw [hnone]
      rfl
    · rw [if_pos hkey, querystring_cons (.inl hkey), Carried.set]
      by_cases hprototype : key = "__proto__"
      · have hskip : remains «variables» (key, value) = false := by simp [remains, hprototype]
        rw [if_pos hprototype, List.filter_cons_of_neg (Bool.eq_false_iff.mp hskip)]
        exact ih hnodup.2 hrest hlater
      · have hkept : remains «variables» (key, value) = true := by
          simp [remains, hvariable, hkey, hprototype]
        rw [if_neg hprototype, List.filter_cons_of_pos hkept,
          Assoc.gather_of_lookup_none (Assoc.lookup_eq_none_iff.mpr hhere)]
        refine (ih hnodup.2 (fun entry hentry hmem => ?_) hlater).trans ?_
        · rw [List.map_append, List.mem_append] at hmem
          rcases hmem with hmem | hmem
          · exact hrest entry hentry hmem
          · rw [List.map_singleton, List.mem_singleton] at hmem
            exact hnodup.1 (List.mem_map.mpr ⟨entry, hentry, hmem⟩)
        · rw [List.append_assoc]
          rfl

theorem split_ok {args : List (String × Json)} {«variables» : List String} (hnodup : (args.map Prod.fst).Nodup)
    (hquery : QUERY ∉ «variables» → ∀ entry ∈ args, entry.1 = QUERY → JsonSchema.isObject entry.2 = true) :
    split args «variables» = .ok (querystring args «variables»,
      if args.filter (remains «variables») = [] then none else some (args.filter (remains «variables»))) := by
  rw [split, foldlM_carry hnodup (fun _ _ => List.not_mem_nil) hquery]
  rw [Except.map, Option.or_none, List.nil_append]

end Toa.RPC
