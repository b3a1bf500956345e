import Mathlib.Algebra.Order.Group.Defs
import Mathlib.Algebra.Order.Monoid.Unbundled.MinMax
import Mathlib.Order.Bounds.Basic
import Mathlib.Tactic.Abel

/-! A bucket that leaks one unit in a unit of time, and what is poured into it: the level after each pouring,
and what every window of pourings says of it. -/

namespace Toa.Bucket
variable {M : Type*} [AddCommGroup M]

/-- What was poured, less what has leaked by `t`, in each of the windows that end with the newest. -/
def owed (t : M) (pourings : List (M × M)) : Set M :=
  {x | ∃ newer pouring older, pourings = newer ++ pouring :: older ∧
    x = (newer.foldr (fun p sum => p.2 + sum) 0) + pouring.2 - (t - pouring.1)}

theorem owed_single (pouring : M × M) : owed pouring.1 [pouring] = {pouring.2} := by
  ext x
  constructor
  · rintro ⟨newer, other, older, heq, rfl⟩
    cases newer with
    | nil =>
      obtain ⟨rfl, -⟩ := List.cons.inj heq
      simp
    | cons p newer =>
      have hnil := (List.cons.inj heq).2
      simp at hnil
  · rintro rfl
    exact ⟨[], pouring, [], rfl, by simp⟩

theorem owed_cons (pouring earlier : M × M) (rest : List (M × M)) :
    owed pouring.1 (pouring :: earlier :: rest) =
      insert pouring.2 ((fun x => pouring.2 + (x - (pouring.1 - earlier.1))) '' owed earlier.1 (earlier :: rest)) := by
  ext x
  constructor
  · rintro ⟨newer, other, older, heq, rfl⟩
    cases newer with
    | nil =>
      obtain ⟨rfl, -⟩ := List.cons.inj heq
      exact .inl (by simp)
    | cons p newer =>
      obtain ⟨rfl, htail⟩ := List.cons.inj heq
      refine .inr ⟨_, ⟨newer, other, older, htail, rfl⟩, ?_⟩
      simp only [List.foldr_cons]
      abel
  · rintro (rfl | ⟨_, ⟨newer, other, older, htail, rfl⟩, rfl⟩)
    · exact ⟨[], pouring, earlier :: rest, rfl, by simp⟩
    · refine ⟨pouring :: newer, other, older, by rw [htail, List.cons_append], ?_⟩
      simp only [List.foldr_cons]
      abel

variable [LinearOrder M]

def level : List (M × M) → M
  | [] => 0
  | [pouring] => pouring.2
  | pouring :: earlier :: rest => max 0 (level (earlier :: rest) - (pouring.1 - earlier.1)) + pouring.2

/-- The level where a pouring at `t` finds it, of a bucket that was empty to begin with. -/
def found (t : M) : List (M × M) → M
  | [] => 0
  | earlier :: rest => max 0 (level (earlier :: rest) - (t - earlier.1))

theorem level_cons (pouring : M × M) (rest : List (M × M)) :
    level (pouring :: rest) = found pouring.1 rest + pouring.2 := by
  cases rest with
  | nil => exact (zero_add _).symm
  | cons earlier rest => rfl

theorem isGreatest_level [IsOrderedAddMonoid M] (pouring : M × M) (rest : List (M × M)) :
    IsGreatest (owed pouring.1 (pouring :: rest)) (level (pouring :: rest)) := by
  induction rest generalizing pouring with
  | nil =>
    rw [owed_single]
    exact isGreatest_singleton
  | cons earlier rest ih =>
    have hearlier := ih earlier
    have hlevel : level (pouring :: earlier :: rest) =
        max pouring.2 (pouring.2 + (level (earlier :: rest) - (pouring.1 - earlier.1))) := by
      rw [level_cons, found, add_comm, ← max_add_add_left, add_zero]
    rw [owed_cons, hlevel]
    constructor
    · obtain hmax | hmax := max_choice pouring.2 (pouring.2 + (level (earlier :: rest) - (pouring.1 - earlier.1)))
      · exact .inl hmax
      · exact .inr ⟨_, hearlier.1, hmax.symm⟩
    · rintro x (rfl | ⟨y, hy, rfl⟩)
      · exact le_max_left ..
      · refine le_max_of_le_right (add_le_add_right (sub_le_sub_right (hearlier.2 hy) _) _)

end Toa.Bucket
