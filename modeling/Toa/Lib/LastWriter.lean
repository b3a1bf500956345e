import Mathlib.Data.Set.Insert
import Mathlib.Order.Basic

/-! A register that keeps the latest of the values it has seen, by a key in a linear order.
What a register has seen is a set, so the order and the number of times it saw a value are
nowhere in what it holds: two registers that saw the same values hold the same one, as long as
no two of these values share a key. -/

namespace Toa.LastWriter
universe u v
variable {D : Type u} {K : Type v} [LinearOrder K] (key : D → K)

def merge (held : Option D) (arrived : D) : Option D :=
  match held with
  | none => some arrived
  | some d => if key d < key arrived then some arrived else some d

/-- `held` is the latest value of `seen`, and nothing is held where nothing was seen. -/
def Latest (seen : Set D) : Option D → Prop
  | none => seen = ∅
  | some d => d ∈ seen ∧ ∀ e ∈ seen, key e ≤ key d

variable {key}

theorem Latest.mem {seen : Set D} {d : D} (h : Latest key seen (some d)) : d ∈ seen := h.1

theorem Latest.le {seen : Set D} {d e : D} (h : Latest key seen (some d)) (he : e ∈ seen) :
    key e ≤ key d := h.2 e he

theorem Latest.merge {seen : Set D} {held : Option D} (h : Latest key seen held) (d : D) :
    Latest key (insert d seen) (merge key held d) := by
  cases held with
  | none =>
    subst h
    refine ⟨Set.mem_insert _ _, fun e he => ?_⟩
    rcases he with rfl | he
    · exact le_rfl
    · exact he.elim
  | some c =>
    simp only [LastWriter.merge]
    split_ifs with hlt
    · refine ⟨Set.mem_insert _ _, fun e he => ?_⟩
      rcases he with rfl | he
      · exact le_rfl
      · exact (h.le he).trans hlt.le
    · refine ⟨Set.mem_insert_of_mem _ h.mem, fun e he => ?_⟩
      rcases he with rfl | he
      · exact not_lt.mp hlt
      · exact h.le he

theorem Latest.replace {seen : Set D} {held : Option D} (h : Latest key seen held) {d : D}
    (hd : ∀ c, held = some c → key c < key d) : Latest key (insert d seen) (some d) := by
  have hm := h.merge d
  cases held with
  | none => exact hm
  | some c => simpa only [LastWriter.merge, if_pos (hd c rfl)] using hm

theorem Latest.unique {seen : Set D} {a b : Option D} (hinj : Set.InjOn key seen)
    (ha : Latest key seen a) (hb : Latest key seen b) : a = b := by
  cases a with
  | none =>
    cases b with
    | none => rfl
    | some d => exact absurd hb.mem (by rw [show seen = ∅ from ha]; exact Set.notMem_empty d)
  | some c =>
    cases b with
    | none => exact absurd ha.mem (by rw [show seen = ∅ from hb]; exact Set.notMem_empty c)
    | some d =>
      exact congrArg some (hinj ha.mem hb.mem (le_antisymm (hb.le ha.mem) (ha.le hb.mem)))

end Toa.LastWriter
