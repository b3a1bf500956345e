import Mathlib.Data.List.Basic

/-! Words joined by a separator none of them holds. -/

namespace Join

variable {α : Type*} {sep : α}

def join (sep : α) : List (List α) → List α
  | [] => []
  | [w] => w
  | w :: v :: ws => w ++ sep :: join sep (v :: ws)

theorem join_cons_cons (w v : List α) (ws : List (List α)) :
    join sep (w :: v :: ws) = w ++ sep :: join sep (v :: ws) := rfl

theorem append_sep_inj {w v x y : List α} (hw : sep ∉ w) (hv : sep ∉ v)
    (h : w ++ sep :: x = v ++ sep :: y) : w = v ∧ x = y := by
  induction w generalizing v with
  | nil =>
    cases v with
    | nil => exact ⟨rfl, (List.cons.inj h).2⟩
    | cons b v => exact absurd (List.mem_cons.mpr (.inl (List.cons.inj h).1)) hv
  | cons a w ih =>
    cases v with
    | nil => exact absurd (List.mem_cons.mpr (.inl (List.cons.inj h).1.symm)) hw
    | cons b v =>
      obtain ⟨rfl, htail⟩ := List.cons.inj h
      obtain ⟨rfl, rfl⟩ := ih (fun hmem => hw (List.mem_cons_of_mem _ hmem))
        (fun hmem => hv (List.mem_cons_of_mem _ hmem)) htail
      exact ⟨rfl, rfl⟩

theorem join_inj {ws vs : List (List α)} (hws : ∀ w ∈ ws, sep ∉ w) (hvs : ∀ v ∈ vs, sep ∉ v)
    (hw : ws ≠ []) (hv : vs ≠ []) (h : join sep ws = join sep vs) : ws = vs := by
  induction ws generalizing vs with
  | nil => exact absurd rfl hw
  | cons w ws ih =>
    cases vs with
    | nil => exact absurd rfl hv
    | cons v vs =>
      have hsep {u : List α} {us : List (List α)} (u' : List α) : sep ∈ join sep (u :: u' :: us) :=
        List.mem_append_right _ (List.mem_cons_self ..)
      cases ws with
      | nil =>
        cases vs with
        | nil => exact congrArg (fun u => [u]) h
        | cons v' vs =>
          have hmem : sep ∈ join sep [w] := h ▸ hsep v'
          exact absurd hmem (hws w (List.mem_cons_self ..))
      | cons w' ws =>
        cases vs with
        | nil =>
          have hmem : sep ∈ join sep [v] := h ▸ hsep w'
          exact absurd hmem (hvs v (List.mem_cons_self ..))
        | cons v' vs =>
          rw [join_cons_cons, join_cons_cons] at h
          obtain ⟨rfl, htail⟩ := append_sep_inj (hws w (List.mem_cons_self ..))
            (hvs v (List.mem_cons_self ..)) h
          rw [ih (fun u hu => hws u (List.mem_cons_of_mem _ hu))
            (fun u hu => hvs u (List.mem_cons_of_mem _ hu)) (List.cons_ne_nil _ _)
            (List.cons_ne_nil _ _) htail]

end Join
