import Mathlib.Data.List.Basic

/-! Streams of frames. Where two lists of frames are written to one stream, they part at a frame, and
from there on the stream is read in two ways. -/

namespace Fork

section
variable {τ β : Type*} {write : τ → List β}

theorem exists_fork (hwrite : ∀ t, write t ≠ []) {xs ys : List τ}
    (h : xs.flatMap write = ys.flatMap write) (hne : xs ≠ ys) :
    ∃ before a b after after', xs = before ++ a :: after ∧ ys = before ++ b :: after' ∧ a ≠ b ∧
      write a ++ after.flatMap write = write b ++ after'.flatMap write := by
  induction xs generalizing ys with
  | nil =>
    cases ys with
    | nil => exact absurd rfl hne
    | cons b ys => exact absurd (List.append_eq_nil_iff.mp h.symm).1 (hwrite b)
  | cons a xs ih =>
    cases ys with
    | nil => exact absurd (List.append_eq_nil_iff.mp h).1 (hwrite a)
    | cons b ys =>
      rw [List.flatMap_cons, List.flatMap_cons] at h
      by_cases hab : a = b
      · subst hab
        have hrest : xs ≠ ys := fun hsame => hne (hsame ▸ rfl)
        obtain ⟨before, a', b', after, after', rfl, rfl, hfork⟩ := ih (List.append_cancel_left h) hrest
        exact ⟨a :: before, a', b', after, after', rfl, rfl, hfork⟩
      · exact ⟨[], a, b, xs, ys, rfl, rfl, hab, h⟩

end

theorem append_terminator {β : Type*} {p q s t : List β} {x : β} (h : p ++ x :: s = q ++ x :: t) :
    (p = q ∧ s = t) ∨ (∃ m, q = p ++ x :: m ∧ s = m ++ x :: t) ∨
      ∃ m, p = q ++ x :: m ∧ t = m ++ x :: s := by
  rcases List.append_eq_append_iff.mp h with ⟨m, rfl, hm⟩ | ⟨m, rfl, hm⟩
  · cases m with
    | nil => exact .inl ⟨(List.append_nil _).symm, (List.cons.inj hm).2⟩
    | cons c m =>
      obtain ⟨rfl, hs⟩ := List.cons.inj hm
      exact .inr (.inl ⟨m, rfl, hs⟩)
  · cases m with
    | nil => exact .inl ⟨List.append_nil _, (List.cons.inj hm).2.symm⟩
    | cons c m =>
      obtain ⟨rfl, hs⟩ := List.cons.inj hm
      exact .inr (.inr ⟨m, rfl, hs⟩)

/-- At the first two that differ, one goes on with what those after the other begin with. -/
def Shifted {β : Type*} (xs ys : List (List β)) : Prop :=
  ∃ before x m after after', m ≠ [] ∧ xs = before ++ x :: after ∧ ys = before ++ (x ++ m) :: after' ∧
    after.flatten = m ++ after'.flatten

theorem Shifted.cons {β : Type*} {xs ys : List (List β)} (h : Shifted xs ys) (x : List β) :
    Shifted (x :: xs) (x :: ys) := by
  obtain ⟨before, x', m, after, after', hm, rfl, rfl, hafter⟩ := h
  exact ⟨x :: before, x', m, after, after', hm, rfl, rfl, hafter⟩

theorem Shifted.flatten_eq {β : Type*} {xs ys : List (List β)} (h : Shifted xs ys) :
    xs.flatten = ys.flatten := by
  obtain ⟨before, x, m, after, after', -, rfl, rfl, hafter⟩ := h
  rw [List.flatten_append, List.flatten_append, List.flatten_cons, List.flatten_cons, hafter,
    List.append_assoc]

theorem Shifted.ne {β : Type*} {xs ys : List (List β)} (h : Shifted xs ys) : xs ≠ ys := by
  obtain ⟨before, x, m, after, after', hm, rfl, rfl, -⟩ := h
  intro heq
  have hhead := (List.cons.inj (List.append_cancel_left heq)).1
  exact hm (List.append_right_eq_self.mp hhead.symm)

theorem shifted_of_flatten {β : Type*} {xs ys : List (List β)} (hlength : xs.length = ys.length)
    (h : xs.flatten = ys.flatten) (hne : xs ≠ ys) : Shifted xs ys ∨ Shifted ys xs := by
  induction xs generalizing ys with
  | nil => exact absurd (List.length_eq_zero_iff.mp hlength.symm).symm hne
  | cons x xs ih =>
    cases ys with
    | nil => cases hlength
    | cons y ys =>
      rw [List.flatten_cons, List.flatten_cons] at h
      by_cases hxy : x = y
      · subst hxy
        have hrest : xs ≠ ys := fun hsame => hne (hsame ▸ rfl)
        have hshifted := ih (Nat.succ.inj hlength) (List.append_cancel_left h) hrest
        exact hshifted.imp (·.cons x) (·.cons x)
      · rcases List.append_eq_append_iff.mp h with ⟨m, rfl, hm⟩ | ⟨m, rfl, hm⟩
        · have hnil : m ≠ [] := fun hnil => hxy (by rw [hnil, List.append_nil])
          exact .inl ⟨[], x, m, xs, ys, hnil, rfl, rfl, hm⟩
        · have hnil : m ≠ [] := fun hnil => hxy (by rw [hnil, List.append_nil])
          exact .inr ⟨[], y, m, ys, xs, hnil, rfl, rfl, hm⟩

end Fork
