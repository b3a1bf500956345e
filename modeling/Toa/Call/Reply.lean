import Toa.Call.Restrict
import Toa.Lib.Json

/-! What a caller receives of a value it asked for, where the value is of JSON. -/

namespace Toa.Call

def fit (entries : List (String × Json)) (allowed : List String) : Json :=
  .object (entries.filter fun entry => entry.1 ∈ allowed ∧ entry.1 ≠ "__proto__")

/-- `Object.keys` of a list, with what each is of. -/
def indexed (items : List Json) : List (String × Json) := items.zipIdx.map fun (v, i) => (toString i, v)

def fitted (value : Json) (allowed : List String) : Json :=
  match value with
  | .object entries => fit entries allowed
  | .array items => fit (indexed items) allowed
  | value => value

def restricted (answered : Json) (allowed : List String) : Json :=
  match answered with
  | .array items => .array (items.map (fitted · allowed))
  | .object entries => fit entries allowed
  | value => value

def replied (asked : Option (List String)) (answered : Json) : Option Json :=
  match asked with
  | none => some answered
  | some allowed =>
    if answered = .null then some .null
    else if allowed.isEmpty = true then none
    else some (restricted answered allowed)

/-! ## The values of the platform -/

open Restrict

mutual
def ofJson : Json → Value
  | .null => .null
  | .boolean b => .primitive (.boolean b)
  | .number q => .primitive (.number q)
  | .string s => .primitive (.string s)
  | .array items => .array (ofItems items)
  | .object entries => .object none (ofEntries entries)
termination_by structural x => x

def ofItems : List Json → List Value
  | [] => []
  | value :: items => ofJson value :: ofItems items
termination_by structural x => x

def ofEntries : List (String × Json) → List (String × Value)
  | [] => []
  | (key, value) :: entries => (key, ofJson value) :: ofEntries entries
termination_by structural x => x
end

theorem ofItems_eq (items : List Json) : ofItems items = items.map ofJson := by
  induction items with
  | nil => rfl
  | cons value items ih => rw [ofItems, ih, List.map_cons]

theorem ofEntries_eq (entries : List (String × Json)) :
    ofEntries entries = entries.map fun entry => (entry.1, ofJson entry.2) := by
  induction entries with
  | nil => rfl
  | cons entry entries ih => rw [ofEntries, ih, List.map_cons]

variable {allowed : List String}

theorem fit_ofEntries (hallowed : "__proto__" ∉ allowed) (entries : List (String × Json)) :
    Restrict.fit (ofEntries entries) allowed = ofJson (fit entries allowed) := by
  have hclear : clear allowed (ofEntries entries) = true := by
    refine List.all_eq_true.mpr fun property _ => ?_
    have hnot : property.1 = "__proto__" → property.1 ∉ allowed := fun h => h ▸ hallowed
    simpa [imp_iff_not_or] using hnot
  rw [fit_clear hclear, fit, ofJson, ofEntries_eq, ofEntries_eq, List.filter_map]
  refine congrArg (fun entries : List (String × Json) => Value.object none
    (entries.map fun entry => (entry.1, ofJson entry.2))) (List.filter_congr fun entry _ => ?_)
  have hkept : entry.1 ∈ allowed ↔ entry.1 ∈ allowed ∧ entry.1 ≠ "__proto__" :=
    (and_iff_left_of_imp fun h (heq : entry.1 = "__proto__") => hallowed (heq ▸ h)).symm
  exact decide_eq_decide.mpr hkept

theorem ofEntries_indexed (items : List Json) :
    ofEntries (indexed items) = (ofItems items).zipIdx.map fun (v, i) => (toString i, v) := by
  rw [ofEntries_eq, indexed, ofItems_eq, List.zipIdx_map, List.map_map, List.map_map]
  rfl

theorem fittedValue_ofJson (hallowed : "__proto__" ∉ allowed) (value : Json) :
    fittedValue (ofJson value) allowed = ofJson (fitted value allowed) := by
  cases value with
  | object entries => exact fit_ofEntries hallowed entries
  | array items =>
    rw [fitted, ← fit_ofEntries hallowed, ofEntries_indexed, ofJson]
    rfl
  | null | boolean | number | string => simp only [ofJson, fitted, fittedValue]

theorem restrict_value (hallowed : "__proto__" ∉ allowed) {answered : Json} (hvalue : answered ≠ .null) :
    Output.restrict (.value (ofJson answered)) allowed = .value (ofJson (restricted answered allowed)) := by
  cases answered with
  | null => exact absurd rfl hvalue
  | boolean | number | string => simp only [ofJson, restricted, Output.restrict]
  | array items =>
    rw [ofJson, restricted, ofJson, Output.restrict, ofItems_eq, ofItems_eq, List.map_map, List.map_map]
    exact congrArg (fun items => Output.value (.array items))
      (List.map_congr_left fun value _ => fittedValue_ofJson hallowed value)
  | object entries =>
    rw [ofJson, restricted, ← fit_ofEntries hallowed]
    rfl

theorem reply_restrict {answered : Json} (hvalue : answered ≠ .null) :
    Reply.restrict ⟨some (.value (ofJson answered)), none, none⟩ allowed =
      if allowed.isEmpty = true then ⟨none, none, none⟩
      else ⟨some (Output.restrict (.value (ofJson answered)) allowed), none, none⟩ := by
  cases answered with
  | null => exact absurd rfl hvalue
  | _ =>
    simp only [ofJson]
    rfl

/-- What is received of a value of JSON is what is received of it as a value of the platform. -/
theorem restrict_ofJson {asked : Option (List String)}
    (hasked : ∀ allowed, asked = some allowed → "__proto__" ∉ allowed) (answered : Json) :
    restrict (.reply ⟨some (.value (ofJson answered)), none, none⟩) asked =
      .reply ⟨(replied asked answered).map fun value => .value (ofJson value), none, none⟩ := by
  cases asked with
  | none => rfl
  | some allowed =>
    by_cases hnull : answered = .null
    · rw [hnull, replied, if_pos rfl, ofJson]
      rfl
    · rw [replied, if_neg hnull, restrict, reply_restrict hnull, restrict_value (hasked allowed rfl) hnull]
      split_ifs <;> rfl

end Toa.Call
