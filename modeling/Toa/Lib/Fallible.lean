import Mathlib.Data.List.Forall2

/-! Computations that fail, one after another. -/

namespace Fallible
universe u v w
variable {ε : Type u} {α : Type v} {β : Type w}

theorem bind_ok {γ : Type w} {x : Except ε γ} {f : γ → Except ε β} {b : β}
    (h : x >>= f = .ok b) : ∃ a, x = .ok a ∧ f a = .ok b := by
  cases x with
  | error e => cases h
  | ok a => exact ⟨a, rfl, h⟩

theorem isSome_mapM {f : α → Option β} {as : List α} (h : ∀ a ∈ as, (f a).isSome = true) :
    (as.mapM f).isSome = true := by
  induction as with
  | nil => rfl
  | cons a as ih =>
    obtain ⟨ha, has⟩ := List.forall_mem_cons.mp h
    obtain ⟨b, hb⟩ := Option.isSome_iff_exists.mp ha
    obtain ⟨bs, hbs⟩ := Option.isSome_iff_exists.mp (ih has)
    rw [List.mapM_cons, hb, hbs]
    rfl

theorem mapM_cons_some {f : α → Option β} {a : α} {as : List α} {bs : List β} (h : (a :: as).mapM f = some bs) :
    ∃ b rest, f a = some b ∧ as.mapM f = some rest ∧ bs = b :: rest := by
  rw [List.mapM_cons] at h
  obtain ⟨b, hb, hrest⟩ := Option.bind_eq_some_iff.mp h
  obtain ⟨rest, hmapped, hlast⟩ := Option.bind_eq_some_iff.mp hrest
  exact ⟨b, rest, hb, hmapped, (Option.some.inj hlast).symm⟩

theorem mapM_ok {f : α → Except ε β} {as : List α} {bs : List β} (h : as.mapM f = .ok bs) :
    List.Forall₂ (fun a b => f a = .ok b) as bs := by
  induction as generalizing bs with
  | nil =>
    cases h
    exact .nil
  | cons a as ih =>
    rw [List.mapM_cons] at h
    obtain ⟨b, hb, hrest⟩ := bind_ok h
    obtain ⟨bs', hbs, hcons⟩ := bind_ok hrest
    cases hcons
    exact .cons hb (ih hbs)

theorem mapM_of_forall₂ {f : α → Except ε β} {as : List α} {bs : List β}
    (h : List.Forall₂ (fun a b => f a = .ok b) as bs) : as.mapM f = .ok bs := by
  induction h with
  | nil => rfl
  | cons hb _ ih =>
    rw [List.mapM_cons, hb, ih]
    rfl

theorem exists_of_mapM_ok {f : α → Except ε β} {as : List α} {bs : List β} (h : as.mapM f = .ok bs) :
    ∀ b ∈ bs, ∃ a ∈ as, f a = .ok b := by
  induction mapM_ok h with
  | nil => exact fun b hb => nomatch hb
  | @cons a b as bs hab hrest ih =>
    refine List.forall_mem_cons.mpr ⟨⟨a, List.mem_cons_self .., hab⟩, fun c hc => ?_⟩
    obtain ⟨a', ha', hf⟩ := ih (mapM_of_forall₂ hrest) c hc
    exact ⟨a', List.mem_cons_of_mem _ ha', hf⟩

theorem mapM_filter {f : α → Except ε β} {p : α → Bool} {q : β → Bool}
    (hpq : ∀ a b, f a = .ok b → p a = q b) {as : List α} {bs : List β} (h : as.mapM f = .ok bs) :
    (as.filter p).mapM f = .ok (bs.filter q) := by
  refine mapM_of_forall₂ ?_
  induction mapM_ok h with
  | nil => exact .nil
  | @cons a b as bs hb _ ih =>
    have ih := ih (mapM_of_forall₂ ‹_›)
    rw [List.filter_cons, List.filter_cons, hpq a b hb]
    split
    · exact .cons hb ih
    · exact ih

end Fallible
