import Mathlib.Data.List.Basic

/-! Names in scopes. A scope covers the name that it is and every name that goes on after it and a
separator, so scopes are ordered, and the ones that cover a name are a chain. -/

namespace Scope
variable {α : Type*} {sep : α}

def Covers (sep : α) (scope name : List α) : Prop := name = scope ∨ scope ++ [sep] <+: name

instance [DecidableEq α] (scope name : List α) : Decidable (Covers sep scope name) :=
  inferInstanceAs (Decidable (_ ∨ _))

def Within (sep : α) (name : List α) (scopes : List (List α)) : Prop :=
  ∃ scope ∈ scopes, Covers sep scope name

theorem Covers.refl (scope : List α) : Covers sep scope scope := .inl rfl

theorem Covers.isPrefix {scope name : List α} (h : Covers sep scope name) : scope <+: name := by
  rcases h with rfl | h
  · exact List.prefix_refl _
  · exact (List.prefix_append _ _).trans h

theorem Covers.trans {a b c : List α} (hab : Covers sep a b) (hbc : Covers sep b c) : Covers sep a c := by
  rcases hab with rfl | hab
  · exact hbc
  · exact .inr (hab.trans hbc.isPrefix)

theorem Covers.antisymm {a b : List α} (hab : Covers sep a b) (hba : Covers sep b a) : a = b :=
  hab.isPrefix.eq_of_length_le hba.isPrefix.length_le

theorem Covers.total {a b name : List α} (ha : Covers sep a name) (hb : Covers sep b name) :
    Covers sep a b ∨ Covers sep b a := by
  rcases ha with rfl | ha
  · exact .inr hb
  rcases hb with rfl | hb
  · exact .inl (.inr ha)
  -- the longer of the two goes on where the shorter one is separated
  rcases Nat.lt_trichotomy a.length b.length with hlt | heq | hgt
  · refine .inl (.inr (List.prefix_of_prefix_length_le ha ((List.prefix_append _ _).trans hb) ?_))
    rw [List.length_append]
    exact hlt
  · have hsame : a ++ [sep] = b ++ [sep] :=
      (List.prefix_of_prefix_length_le ha hb (by simp [heq])).eq_of_length (by simp [heq])
    exact .inl (.inl (List.append_cancel_right hsame).symm)
  · refine .inr (.inr (List.prefix_of_prefix_length_le hb ((List.prefix_append _ _).trans ha) ?_))
    rw [List.length_append]
    exact hgt

theorem Within.trans {a b : List α} {scopes : List (List α)} (h : Within sep a scopes)
    (hab : Covers sep a b) : Within sep b scopes :=
  h.imp fun _ hscope => ⟨hscope.1, hscope.2.trans hab⟩

theorem Within.mono {name : List α} {scopes others : List (List α)} (h : Within sep name scopes)
    (hsub : ∀ scope ∈ scopes, scope ∈ others) : Within sep name others :=
  h.imp fun scope hscope => ⟨hsub scope hscope.1, hscope.2⟩

theorem within_singleton {name scope : List α} : Within sep name [scope] ↔ Covers sep scope name := by
  simp only [Within, List.mem_singleton, exists_eq_left]

end Scope
