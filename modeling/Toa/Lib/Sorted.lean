import Mathlib.Data.List.Basic
import Mathlib.Data.List.Perm.Basic

/-! Lists in a strict weak order given as a test. A list that no two of are equal under the order
has one arrangement in it, so sorting what a filter leaves is filtering what is sorted; and what is
after one of its elements is what the order says is after it. -/

namespace Toa.Sorted

universe u
variable {α : Type u} {before : α → α → Bool}

structure StrictWeak (before : α → α → Bool) : Prop where
  asymm : ∀ a b, before a b = true → before b a = false
  split : ∀ a b c, before a c = true → before a b = true ∨ before b c = true

theorem StrictWeak.irrefl (h : StrictWeak before) (a : α) : before a a = false := by
  cases ha : before a a with
  | false => rfl
  | true => exact ha.symm.trans (h.asymm a a ha)

def sort (before : α → α → Bool) (l : List α) : List α := l.mergeSort fun a b => !before b a

theorem sort_perm (l : List α) : (sort before l).Perm l := List.mergeSort_perm l _

theorem sort_pairwise (h : StrictWeak before) {l : List α}
    (hl : l.Pairwise fun a b => before a b = true ∨ before b a = true) :
    (sort before l).Pairwise fun a b => before a b = true := by
  have hle : (sort before l).Pairwise fun a b => (!before b a) = true := by
    refine List.pairwise_mergeSort ?_ ?_ l
    · intro a b c hab hbc
      cases hca : before c a with
      | false => rfl
      | true =>
        rcases h.split c b a hca with hcb | hba
        · rw [hcb] at hbc
          exact nomatch hbc
        · rw [hba] at hab
          exact nomatch hab
    · intro a b
      cases hba : before b a with
      | false => rfl
      | true =>
        rw [h.asymm b a hba]
        rfl
  have htold : (sort before l).Pairwise fun a b => before a b = true ∨ before b a = true :=
    ((sort_perm l).pairwise_iff Or.symm).mpr hl
  refine (hle.and htold).imp fun {a b} hab => hab.2.resolve_right fun hba => ?_
  rw [hba] at hab
  exact nomatch hab.1

theorem eq_of_perm (h : StrictWeak before) {l m : List α} (hp : l.Perm m)
    (hl : l.Pairwise fun a b => before a b = true) (hm : m.Pairwise fun a b => before a b = true) :
    l = m := by
  refine hp.eq_of_pairwise (fun a b _ _ hab hba => ?_) hl hm
  exact nomatch hba.symm.trans (h.asymm a b hab)

theorem sort_filter (h : StrictWeak before) {l : List α}
    (hl : l.Pairwise fun a b => before a b = true ∨ before b a = true) (p : α → Bool) :
    sort before (l.filter p) = (sort before l).filter p := by
  refine eq_of_perm h ((sort_perm _).trans ((sort_perm l).symm.filter p)) ?_ ?_
  · exact sort_pairwise h (hl.filter p)
  · exact (sort_pairwise h hl).filter p

theorem filter_after (h : StrictWeak before) {earlier later : List α} {x : α}
    (hl : (earlier ++ x :: later).Pairwise fun a b => before a b = true) :
    (earlier ++ x :: later).filter (before x) = later := by
  obtain ⟨-, hrest, hcross⟩ := List.pairwise_append.mp hl
  have hearlier : earlier.filter (before x) = [] := by
    refine List.filter_eq_nil_iff.mpr fun a ha hxa => ?_
    have hax : before a x = true := hcross a ha x (List.mem_cons_self ..)
    exact nomatch hxa.symm.trans (h.asymm a x hax)
  have hlater : later.filter (before x) = later :=
    List.filter_eq_self.mpr fun a ha => (List.pairwise_cons.mp hrest).1 a ha
  rw [List.filter_append, List.filter_cons_of_neg, hearlier, hlater, List.nil_append]
  rw [h.irrefl x]
  exact Bool.false_ne_true

/-! ## By the place in a list -/

theorem filter_append_filter_not {p : α → Bool} {l : List α}
    (h : l.Pairwise fun a b => p b = true → p a = true) :
    l.filter p ++ l.filter (fun a => !p a) = l := by
  induction l with
  | nil => rfl
  | cons a l ih =>
    obtain ⟨ha, hrest⟩ := List.pairwise_cons.mp h
    cases hp : p a with
    | true =>
      have hnot : (a :: l).filter (fun a => !p a) = l.filter (fun a => !p a) :=
        List.filter_cons_of_neg (by rw [hp]; exact Bool.false_ne_true)
      rw [List.filter_cons_of_pos hp, hnot, List.cons_append, ih hrest]
    | false =>
      have hfails : ∀ b ∈ a :: l, p b = false := by
        refine List.forall_mem_cons.mpr ⟨hp, fun b hb => Bool.eq_false_iff.mpr fun hpb => ?_⟩
        exact Bool.false_ne_true (hp.symm.trans (ha b hb hpb))
      rw [List.filter_eq_nil_iff.mpr fun b hb => Bool.eq_false_iff.mp (hfails b hb),
        List.filter_eq_self.mpr fun b hb => by rw [hfails b hb]; rfl, List.nil_append]

theorem pairwise_idxOf [DecidableEq α] {order : List α} (h : order.Nodup) :
    order.Pairwise fun a b => order.idxOf a ≤ order.idxOf b := by
  rw [List.pairwise_iff_getElem]
  intro i j hi hj hij
  rw [h.idxOf_getElem i hi, h.idxOf_getElem j hj]
  exact Nat.le_of_lt hij

theorem exists_eq_append [DecidableEq α] {order l sorted : List α} (horder : order.Nodup) (hl : l.Nodup)
    (hmem : ∀ a ∈ order, a ∈ l) (hperm : sorted.Perm l)
    (hle : sorted.Pairwise fun a b => order.idxOf a ≤ order.idxOf b) :
    ∃ others, sorted = order ++ others ∧ others.Nodup ∧ ∀ a, a ∈ others ↔ a ∈ l ∧ a ∉ order := by
  have hnodup : sorted.Nodup := hperm.nodup_iff.mpr hl
  -- what is not in the list has no place in it before its end
  have hsplit := @filter_append_filter_not α (fun a => decide (a ∈ order)) sorted
    (hle.imp fun {a b} hab hb => by
      have hlt := List.idxOf_lt_length_of_mem (of_decide_eq_true hb)
      exact decide_eq_true (List.idxOf_lt_length_iff.mp (Nat.lt_of_le_of_lt hab hlt)))
  have hfirst : sorted.filter (fun a => decide (a ∈ order)) = order := by
    have hsame : (sorted.filter (fun a => decide (a ∈ order))).Perm order := by
      refine (List.perm_ext_iff_of_nodup (hnodup.filter _) horder).mpr fun a => ?_
      rw [List.mem_filter, decide_eq_true_eq, hperm.mem_iff]
      exact ⟨And.right, fun ha => ⟨hmem a ha, ha⟩⟩
    refine hsame.eq_of_pairwise (fun a b _ hb hab hba => ?_) (hle.filter _) (pairwise_idxOf horder)
    exact ((List.idxOf_inj hb).mp (Nat.le_antisymm hba hab)).symm
  rw [hfirst] at hsplit
  refine ⟨_, hsplit.symm, hnodup.filter _, fun a => ?_⟩
  rw [List.mem_filter, Bool.not_eq_true', decide_eq_false_iff_not, hperm.mem_iff]

end Toa.Sorted
