import Mathlib.Data.List.Basic
import Mathlib.Logic.Function.Basic

/-! Runs of a labelled transition function. A step answers `none` where its action is not
enabled, so a list of actions has a run exactly when each of them was enabled in its turn. -/

namespace Toa.Run
universe u v
variable {σ : Type u} {α : Type v} (step : σ → α → Option σ)

def run : σ → List α → Option σ
  | s, [] => some s
  | s, a :: as => (step s a).bind fun t => run t as

/-- Every step of the run from `s` meets `ok`, a condition on the state before it and its action. -/
def Along (ok : σ → α → Prop) : σ → List α → Prop
  | _, [] => True
  | s, a :: as => ok s a ∧ ∀ t, step s a = some t → Along ok t as

variable {step}

@[simp] theorem run_nil (s : σ) : run step s [] = some s := rfl

theorem run_cons_eq_some {s u : σ} {a : α} {as : List α} :
    run step s (a :: as) = some u ↔ ∃ t, step s a = some t ∧ run step t as = some u := by
  simp only [run, Option.bind_eq_some_iff]

theorem run_append (s : σ) (as bs : List α) :
    run step s (as ++ bs) = (run step s as).bind fun t => run step t bs := by
  induction as generalizing s with
  | nil => rfl
  | cons a as ih =>
    simp only [List.cons_append, run]
    cases step s a with
    | none => rfl
    | some t => exact ih t

theorem run_of_mem {s t : σ} {a : α} {as : List α} (h : a ∈ as) (hrun : run step s as = some t) :
    ∃ u v bs, step u a = some v ∧ run step v bs = some t := by
  obtain ⟨before, after, rfl⟩ := List.append_of_mem h
  rw [run_append] at hrun
  obtain ⟨u, -, hrest⟩ := Option.bind_eq_some_iff.mp hrun
  obtain ⟨v, hv, hafter⟩ := run_cons_eq_some.mp hrest
  exact ⟨u, v, after, hv, hafter⟩

instance decidableAlong {ok : σ → α → Prop} [∀ s a, Decidable (ok s a)] :
    ∀ s as, Decidable (Along step ok s as)
  | _, [] => isTrue trivial
  | s, a :: as =>
    match h : step s a with
    | none => decidable_of_iff (ok s a) ⟨fun hok => ⟨hok, fun _ ht => nomatch h.symm.trans ht⟩, And.left⟩
    | some t =>
      have : Decidable (Along step ok t as) := decidableAlong t as
      decidable_of_iff (ok s a ∧ Along step ok t as)
        ⟨fun hok => ⟨hok.1, fun _ hu => Option.some.inj (h.symm.trans hu) ▸ hok.2⟩,
          fun hok => ⟨hok.1, hok.2 t h⟩⟩

theorem along_of_forall {ok : σ → α → Prop} (h : ∀ s a, ok s a) (s : σ) (as : List α) :
    Along step ok s as := by
  induction as generalizing s with
  | nil => trivial
  | cons a as ih => exact ⟨h s a, fun t _ => ih t⟩

theorem along_of_mem {ok : σ → α → Prop} {as : List α} (h : ∀ a ∈ as, ∀ s, ok s a) (s : σ) :
    Along step ok s as := by
  induction as generalizing s with
  | nil => trivial
  | cons a as ih =>
    refine ⟨h a (List.mem_cons_self ..) s, fun t _ => ?_⟩
    exact ih (fun b hb => h b (List.mem_cons_of_mem _ hb)) t

theorem along_append {ok : σ → α → Prop} {s : σ} {as bs : List α} (has : Along step ok s as)
    (hbs : ∀ t, run step s as = some t → Along step ok t bs) : Along step ok s (as ++ bs) := by
  induction as generalizing s with
  | nil => exact hbs s rfl
  | cons a as ih =>
    refine ⟨has.1, fun t ht => ih (has.2 t ht) fun u hu => hbs u ?_⟩
    exact run_cons_eq_some.mpr ⟨t, ht, hu⟩

theorem Along.append_left {ok : σ → α → Prop} {s : σ} {as bs : List α}
    (h : Along step ok s (as ++ bs)) : Along step ok s as := by
  induction as generalizing s with
  | nil => trivial
  | cons a as ih => exact ⟨h.1, fun t ht => ih (h.2 t ht)⟩

theorem Along.append_right {ok : σ → α → Prop} {s t : σ} {as bs : List α}
    (h : Along step ok s (as ++ bs)) (hrun : run step s as = some t) : Along step ok t bs := by
  induction as generalizing s with
  | nil => exact Option.some.inj hrun ▸ h
  | cons a as ih =>
    obtain ⟨u, hu, hrest⟩ := run_cons_eq_some.mp hrun
    exact ih (h.2 u hu) hrest

theorem Along.and {ok ok' : σ → α → Prop} {s : σ} {as : List α} (h : Along step ok s as)
    (h' : Along step ok' s as) : Along step (fun s a => ok s a ∧ ok' s a) s as := by
  induction as generalizing s with
  | nil => trivial
  | cons a as ih => exact ⟨⟨h.1, h'.1⟩, fun t ht => ih (h.2 t ht) (h'.2 t ht)⟩

/-- What every step that meets `ok` preserves, a run all of whose steps meet it preserves. -/
theorem run_invariant {ok : σ → α → Prop} {I : σ → Prop}
    (hstep : ∀ s a t, I s → ok s a → step s a = some t → I t)
    {s t : σ} {as : List α} (hs : I s) (hok : Along step ok s as)
    (hrun : run step s as = some t) : I t := by
  induction as generalizing s with
  | nil => exact Option.some.inj hrun ▸ hs
  | cons a as ih =>
    obtain ⟨u, hu, hrest⟩ := run_cons_eq_some.mp hrun
    exact ih (hstep s a u hs hok.1 hu) (hok.2 u hu) hrest

/-- What an invariant and `ok` imply of a step holds of every step of such a run. -/
theorem along_of_invariant {ok ok' : σ → α → Prop} {I : σ → Prop}
    (hstep : ∀ s a t, I s → ok s a → step s a = some t → I t)
    (himp : ∀ s a, I s → ok s a → ok' s a) {s : σ} {as : List α} (hs : I s)
    (hok : Along step ok s as) : Along step ok' s as := by
  induction as generalizing s with
  | nil => trivial
  | cons a as ih =>
    exact ⟨himp s a hs hok.1, fun t ht => ih (hstep s a t hs hok.1 ht) (hok.2 t ht)⟩

theorem run_invariant_all {I : σ → Prop}
    (hstep : ∀ s a t, I s → step s a = some t → I t)
    {s t : σ} {as : List α} (hs : I s) (hrun : run step s as = some t) : I t :=
  have hok : Along step (fun _ _ => True) s as := along_of_forall (fun _ _ => trivial) s as
  run_invariant (fun s a t hI _ h => hstep s a t hI h) hs hok hrun

/-- What does not hold where a run begins and holds where it ends, one of its steps made so. -/
theorem exists_turn {P : σ → Prop} {s t : σ} {as : List α} (hs : ¬P s) (ht : P t)
    (hrun : run step s as = some t) :
    ∃ before a after u v, as = before ++ a :: after ∧ run step s before = some u ∧
      step u a = some v ∧ ¬P u ∧ P v := by
  induction as generalizing s with
  | nil => exact absurd (Option.some.inj hrun ▸ ht) hs
  | cons a as ih =>
    obtain ⟨v, hv, hrest⟩ := run_cons_eq_some.mp hrun
    by_cases hP : P v
    · exact ⟨[], a, as, s, v, rfl, rfl, hv, hs, hP⟩
    · obtain ⟨before, b, after, u, w, rfl, hbefore, hstep, hu, hw⟩ := ih hP hrest
      exact ⟨a :: before, b, after, u, w, rfl, run_cons_eq_some.mpr ⟨v, hv, hbefore⟩, hstep, hu, hw⟩

/-- What every step preserves of a state and the actions that led there holds where a run ends, of its actions. -/
theorem run_history {I : List α → σ → Prop} {s : σ} (hs : I [] s)
    (hstep : ∀ as t a u, I as t → step t a = some u → I (as ++ [a]) u) {t : σ} {as : List α}
    (hrun : run step s as = some t) : I as t := by
  have h (before : List α) (u : σ) (hu : I before u) (hrest : run step u as = some t) : I (before ++ as) t := by
    clear hrun
    induction as generalizing before u with
    | nil =>
      rw [List.append_nil]
      exact Option.some.inj hrest ▸ hu
    | cons a as ih =>
      obtain ⟨v, hv, hrest⟩ := run_cons_eq_some.mp hrest
      have hnext := ih (before ++ [a]) v (hstep before u a v hu hv) hrest
      rwa [List.append_assoc] at hnext
  exact h [] s hs hrun

/-! ## Machines that share nothing -/

section
variable {ρ : Type*} [DecidableEq ρ] (machine : ρ → σ → α → Option σ)

def each (s : ρ → σ) (e : ρ × α) : Option (ρ → σ) :=
  (machine e.1 (s e.1) e.2).map (Function.update s e.1)

def its (r : ρ) (es : List (ρ × α)) : List α := (es.filter (·.1 = r)).map (·.2)

variable {machine}

theorem its_cons_self (r : ρ) (a : α) (es : List (ρ × α)) : its r ((r, a) :: es) = a :: its r es := by
  simp only [its, List.filter_cons_of_pos, List.map_cons, decide_true]

theorem run_its {s t : ρ → σ} {es : List (ρ × α)} (h : run (each machine) s es = some t) (r : ρ) :
    run (machine r) (s r) (its r es) = some (t r) := by
  induction es generalizing s with
  | nil => exact congrArg (fun u => some (u r)) (Option.some.inj h)
  | cons e es ih =>
    obtain ⟨u, hu, hrest⟩ := run_cons_eq_some.mp h
    obtain ⟨v, hv, rfl⟩ := Option.map_eq_some_iff.mp hu
    have htail := ih hrest
    by_cases hr : e.1 = r
    · subst hr
      rw [Function.update_self] at htail
      rw [its_cons_self e.1 e.2 es]
      exact run_cons_eq_some.mpr ⟨v, hv, htail⟩
    · rw [Function.update_of_ne (Ne.symm hr)] at htail
      have hits : its r (e :: es) = its r es := by
        simp only [its, hr, decide_false, Bool.false_eq_true, not_false_eq_true,
          List.filter_cons_of_neg]
      rw [hits]
      exact htail

end

end Toa.Run
