import Toa.Octets.Executed

/-! How an execution comes to an end: what still happens of it once a step has failed or the reply is destroyed, and
that it is over after so many actions, but for what its step streams deliver. -/

namespace Toa.Octets.Execution
open Run
variable {V E : Type*} {clone : V → Option V} {units : List Unit} {actions : List (Action V E)} {s t : Execution V E}

/-! ## An execution that is interrupted -/

/-- What became of `s`, which was interrupted. -/
structure Halted (s t : Execution V E) : Prop where
  interrupted : t.interrupted = true
  rest : t.rest = s.rest
  entries : t.running.map Running.entry = s.running.map Running.entry
  waiting : ∀ r ∈ t.running, r.phase = .discovering → ∃ x ∈ s.running, x.phase = .discovering ∧ x.entry = r.entry
  invoked : ∃ more, t.invoked = s.invoked ++ more ∧
    ∀ inv ∈ more, ∃ x ∈ s.running, x.phase = .discovering ∧ x.entry = inv.entry
  silent : s.destroyed = true → t.destroyed = true ∧ t.pushed = s.pushed ∧ t.steps = s.steps

theorem Halted.refl (h : s.interrupted = true) : Halted s s where
  interrupted := h
  rest := rfl
  entries := rfl
  waiting r hr hphase := ⟨r, hr, hphase, rfl⟩
  invoked := ⟨[], (List.append_nil _).symm, nofun⟩
  silent hdestroyed := ⟨hdestroyed, rfl, rfl⟩

theorem Halted.moved (h : Halted s t) {r : Running} (hr : r ∈ t.running) {a : Action V E} {phase : Phase}
    {said : List (Report V E)} (hadvance : Advance clone t r a phase said) (components : List String) :
    Halted s (t.moved clone r phase said (if phase = .calling then [⟨r.step, r.endpoint, t.steps⟩] else [])
      components) := by
  obtain ⟨more, hinvoked, hmore⟩ := h.invoked
  refine ⟨?_, h.rest, (map_entry_turned _).trans h.entries, fun x hx hphase => ?_, ?_, fun hdestroyed => ?_⟩
  · show (t.interrupted || _) = true
    rw [h.interrupted, Bool.true_or]
  · obtain ⟨y, hy, rfl⟩ := List.mem_map.mp hx
    split at hphase
    · exact absurd hphase hadvance.not_discovering
    · rename_i hstep
      rw [if_neg hstep]
      exact h.waiting y hy hphase
  · show ∃ later, t.invoked ++ _ = s.invoked ++ later ∧ _
    rw [hinvoked, List.append_assoc]
    refine ⟨_, rfl, fun inv hinv => ?_⟩
    rcases List.mem_append.mp hinv with hold | hnew
    · exact hmore inv hold
    · split at hnew
      · rename_i hcalling
        obtain rfl := List.mem_singleton.mp hnew
        subst hcalling
        exact h.waiting r hr hadvance.calling
      · cases hnew
  · obtain ⟨hdestroyed, hpushed, hsteps⟩ := h.silent hdestroyed
    have hsay : t.say clone said = t := say_destroyed hdestroyed said
    refine ⟨hdestroyed, ?_, ?_⟩
    · show (t.say clone said).pushed = _
      rw [hsay, hpushed]
    · show (t.say clone said).steps = _
      rw [hsay, hsteps]

theorem Halted.proceed (h : Halted s t) : Halted s t.proceed := by
  obtain ⟨following, rest, hinterrupted, -⟩ | ⟨-, heq⟩ := proceed_eq t
  · rw [h.interrupted] at hinterrupted
    cases hinterrupted
  · rw [heq]
    refine ⟨h.interrupted, h.rest, h.entries, h.waiting, h.invoked, fun hdestroyed => ?_⟩
    obtain ⟨hdestroyed, hpushed, hsteps⟩ := h.silent hdestroyed
    exact ⟨hdestroyed, (if_pos hdestroyed).trans hpushed, hsteps⟩

theorem Halted.destroy (h : Halted s t) : Halted s t.destroy := by
  refine ⟨rfl, h.rest, ?_, fun r hr hphase => ?_, h.invoked, fun hdestroyed => ⟨rfl, (h.silent hdestroyed).2⟩⟩
  · rw [← h.entries, Execution.destroy, List.map_map]
    refine List.map_congr_left fun r _ => ?_
    dsimp only [Function.comp]
    split <;> rfl
  · obtain ⟨x, hx, rfl⟩ := List.mem_map.mp hr
    split at hphase
    · cases hphase
    · rename_i hother
      rw [if_neg hother]
      exact h.waiting x hx hphase

theorem Halted.step {a : Action V E} {u : Execution V E} (h : Halted s t) (hinv : Inv clone units actions t)
    (hstep : step clone t a = some u) : Halted s u := by
  cases did_of_step hinv.distinct hstep with
  | discovered => exact ⟨h.interrupted, h.rest, h.entries, h.waiting, h.invoked, h.silent⟩
  | moved r hr phase said components hadvance => exact h.moved hr hadvance components
  | proceeded => exact h.proceed
  | destroyed => exact h.destroy

theorem not_failed_of_whole {before : List Unit} {past : List (Chapter V E)}
    (h : List.Forall₂ (Whole clone actions) before past) : ∀ r ∈ told past, r.failed = false := by
  induction h with
  | nil => nofun
  | cons hhead _ ih =>
    intro r hr
    rcases List.mem_append.mp hr with hr | hr
    · exact Bool.eq_false_iff.mpr (List.any_eq_false.mp hhead.2 r hr)
    · exact ih r hr

theorem Inv.interrupted (h : Inv clone units actions s)
    (hhalt : s.destroyed = true ∨ ∃ r, some r ∈ s.pushed ∧ r.failed = true) : s.interrupted = true := by
  obtain ⟨-, -, -, hpushed, -, hinterrupted⟩ | ⟨before, unit, past, now, ending, h⟩ := h
  · obtain hdestroyed | ⟨r, hr, -⟩ := hhalt
    · rw [hinterrupted, hdestroyed]
    · rw [hpushed] at hr
      cases List.mem_singleton.mp hr
  · rw [h.interrupted, Bool.or_eq_true]
    obtain hdestroyed | ⟨r, hr, hfailed⟩ := hhalt
    · exact .inl hdestroyed
    · refine .inr (List.any_eq_true.mpr ⟨r, ?_, hfailed⟩)
      have hsome : some r ∈ (told past ++ now.reports).map some := by
        rw [h.pushed] at hr
        rcases List.mem_append.mp hr with hr | hr
        · exact hr
        · obtain hending | ⟨hending, -⟩ := h.ending
          · rw [hending] at hr
            cases hr
          · rw [hending] at hr
            cases List.mem_singleton.mp hr
      obtain ⟨x, hx, heq⟩ := List.mem_map.mp hsome
      obtain rfl := Option.some.inj heq
      rcases List.mem_append.mp hx with hx | hx
      · rw [not_failed_of_whole h.whole x hx] at hfailed
        cases hfailed
      · exact hx

/-- Once the reply is destroyed or a step has failed, no unit is taken any more, and what is invoked is what was
waiting for its component. Once it is destroyed, nothing is reported. -/
theorem halted {before after : List (Action V E)} (hrun : run (step clone) (new units) before = some s)
    (hhalt : s.destroyed = true ∨ ∃ r, some r ∈ s.pushed ∧ r.failed = true)
    (hafter : run (step clone) s after = some t) :
    t.rest = s.rest ∧ t.running.map Running.entry = s.running.map Running.entry ∧
      (∃ more, t.invoked = s.invoked ++ more ∧
        ∀ inv ∈ more, ∃ r ∈ s.running, r.phase = .discovering ∧ r.entry = inv.entry) ∧
      (s.destroyed = true → t.pushed = s.pushed ∧ t.steps = s.steps) := by
  have hinv := inv_run hrun
  have hstep (u : Execution V E) (a : Action V E) (v : Execution V E)
      (hu : (∃ actions, Inv clone units actions u) ∧ Halted s u) (huv : step clone u a = some v) :
      (∃ actions, Inv clone units actions v) ∧ Halted s v := by
    obtain ⟨⟨actions, hinv⟩, hhalted⟩ := hu
    exact ⟨⟨_, inv_step hinv huv⟩, hhalted.step hinv huv⟩
  have hstart : (∃ actions, Inv clone units actions s) ∧ Halted s s :=
    ⟨⟨before, hinv⟩, Halted.refl (hinv.interrupted hhalt)⟩
  have h := (run_invariant_all hstep hstart hafter).2
  exact ⟨h.rest, h.entries, h.invoked, fun hdestroyed => (h.silent hdestroyed).2⟩

def destroying : List (Action ℕ String) :=
  [.discovered "default.images" true, .waited "resize", .replied "resize" .stream,
    .delivered "resize" (.value 640), .destroy]

theorem halted_destroyed : ∃ s t : Execution ℕ String, run (step some) (new upload) destroying = some s ∧
    run (step some) s [.broke "resize", .waited "analyze", .replied "analyze" (.result (.value 7)), .proceed] = some t ∧
    t.rest = s.rest ∧ t.running.map Running.entry = s.running.map Running.entry ∧
      (∃ more, t.invoked = s.invoked ++ more ∧
        ∀ inv ∈ more, ∃ r ∈ s.running, r.phase = .discovering ∧ r.entry = inv.entry) ∧
      (s.destroyed = true → t.pushed = s.pushed ∧ t.steps = s.steps) := by
  have hdestroyed : (run (step some) (new upload) destroying).map Execution.destroyed = some true := by decide +kernel
  obtain ⟨s, hs, hdestroyed⟩ := Option.map_eq_some_iff.mp hdestroyed
  have hafter : ((run (step some) (new upload) destroying).bind fun s : Execution ℕ String => run (step some) s
      [.broke "resize", .waited "analyze", .replied "analyze" (.result (.value 7)), .proceed]).isSome = true := by
    decide +kernel
  rw [hs, Option.bind_some] at hafter
  obtain ⟨t, ht⟩ := Option.isSome_iff_exists.mp hafter
  exact ⟨s, t, hs, ht, halted hs (.inl hdestroyed) ht⟩

/-! ## An execution comes to its end -/

namespace Phase

def rank : Phase → ℕ
  | discovering => 4
  | calling => 3
  | streaming => 2
  | cut => 1
  | settled => 0

end Phase

def owed : List Running → ℕ
  | [] => 0
  | r :: running => r.phase.rank + owed running

/-- What a unit that is not begun comes to: each of its steps, a component it asks for, and the loop. -/
def due : List Unit → ℕ
  | [] => 0
  | unit :: rest => 5 * unit.entries.length + 1 + due rest

def left (s : Execution V E) : ℕ :=
  owed s.running + due s.rest + asked s.discovery + (!s.returned).toNat + (!s.destroyed).toNat

def Action.delivery : Action V E → Bool
  | .delivered .. => true
  | _ => false

theorem Advance.rank_lt {r : Running} {a : Action V E} {phase : Phase} {said : List (Report V E)}
    (h : Advance clone s r a phase said) :
    phase.rank ≤ r.phase.rank ∧ (a.delivery = false → phase.rank < r.phase.rank) := by
  cases h with
  | delivered h =>
    rw [h]
    exact ⟨Nat.le_refl _, nofun⟩
  | undelivered h =>
    rw [h]
    exact ⟨by decide, nofun⟩
  | found h | refused h _ | answered h | threw h | opened h | drained h | broke h | ended h =>
    rw [h]
    exact ⟨by decide, fun _ => by decide⟩

theorem owed_turned_other {step : String} {phase : Phase} {l : List Running} (h : step ∉ l.map (·.step)) :
    owed (l.map (Running.turned step phase)) = owed l := by
  have hsame : l.map (Running.turned step phase) = l := by
    refine (List.map_congr_left fun r hr => ?_).trans (List.map_id _)
    have hne : r.step ≠ step := fun heq => h (heq ▸ List.mem_map_of_mem hr)
    exact if_neg hne
  rw [hsame]

theorem owed_turned {r : Running} {phase : Phase} {l : List Running} (hdistinct : (l.map (·.step)).Nodup)
    (hr : r ∈ l) : owed (l.map (Running.turned r.step phase)) + r.phase.rank = owed l + phase.rank := by
  induction l with
  | nil => cases hr
  | cons x l ih =>
    rw [List.map_cons] at hdistinct
    obtain ⟨hx, hdistinct⟩ := List.nodup_cons.mp hdistinct
    rw [List.map_cons, owed, owed]
    rcases List.mem_cons.mp hr with rfl | hr
    · rw [owed_turned_other hx, Running.turned, if_pos rfl]
      dsimp only
      omega
    · have hne : x.step ≠ r.step := fun heq => hx (heq ▸ List.mem_map_of_mem hr)
      rw [Running.turned, if_neg hne, Nat.add_assoc, ih hdistinct hr, Nat.add_assoc]

theorem owed_fresh {fresh : List Running} (h : ∀ r ∈ fresh, r.phase = .discovering ∨ r.phase = .calling) :
    owed fresh ≤ 4 * fresh.length := by
  induction fresh with
  | nil => exact Nat.le_refl _
  | cons r fresh ih =>
    have hrest := ih fun x hx => h x (List.mem_cons_of_mem _ hx)
    have hrank : r.phase.rank ≤ 4 := by
      obtain hphase | hphase := h r (List.mem_cons_self ..)
      · exact hphase ▸ Nat.le_refl _
      · exact hphase ▸ Nat.le_succ _
    rw [owed, List.length_cons]
    omega

theorem owed_destroy (l : List Running) :
    owed (l.map fun r => if r.phase = .streaming then { r with phase := .cut } else r) ≤ owed l := by
  induction l with
  | nil => exact Nat.le_refl _
  | cons r l ih =>
    rw [List.map_cons, owed, owed]
    refine Nat.add_le_add ?_ ih
    split
    · rename_i hphase
      rw [hphase]
      exact Nat.le_succ _
    · exact Nat.le_refl _

theorem left_proceed (s : Execution V E) (hreturned : s.returned = false) (hsettled : owed s.running = 0) :
    left s.proceed < left s := by
  rw [Execution.proceed]
  split
  · rename_i unit rest _ hrest
    obtain ⟨fresh, more, hentered⟩ := entered_execute { s with rest } unit
    have howed := owed_fresh hentered.phases
    have hlength : fresh.length = unit.entries.length := by rw [← hentered.named, List.length_map]
    have hasked := hentered.asked
    rw [hentered.eq, left, left, hrest, due, hsettled]
    dsimp only [List.nil_append] at hasked ⊢
    omega
  · rw [left, left]
    simp only [hreturned, Bool.not_true, Bool.not_false, Bool.toNat_false, Bool.toNat_true]
    omega

theorem owed_settled {l : List Running} (h : ∀ r ∈ l, r.phase = .settled) : owed l = 0 := by
  induction l with
  | nil => rfl
  | cons r l ih =>
    rw [owed, h r (List.mem_cons_self ..), ih fun x hx => h x (List.mem_cons_of_mem _ hx)]
    rfl

theorem left_did {a : Action V E} (hdistinct : (s.running.map (·.step)).Nodup) (h : Did clone s a t) :
    left t ≤ left s ∧ (a.delivery = false → left t < left s) := by
  cases h with
  | discovered key found hasked =>
    have hlt := asked_settle_lt found hasked
    have hleft : left { s with discovery := settle s.discovery key found } < left s := by
      rw [left, left]
      dsimp only
      omega
    exact ⟨Nat.le_of_lt hleft, fun _ => hleft⟩
  | moved r hr phase said components hadvance =>
    have howed : owed (s.running.map (Running.turned r.step phase)) + r.phase.rank = owed s.running + phase.rank :=
      owed_turned hdistinct hr
    obtain ⟨hle, hlt⟩ := hadvance.rank_lt
    have hleft (called : List (Invocation V)) : left (s.moved clone r phase said called components) + owed s.running =
        left s + owed (s.running.map (Running.turned r.step phase)) := by
      show owed (s.running.map (Running.turned r.step phase)) + due s.rest + asked s.discovery +
        (!s.returned).toNat + (!s.destroyed).toNat + owed s.running = _
      rw [left]
      omega
    have hleft := hleft (if phase = .calling then [⟨r.step, r.endpoint, s.steps⟩] else [])
    refine ⟨by omega, fun hother => ?_⟩
    have hlt := hlt hother
    omega
  | proceeded hreturned hsettled =>
    have hlt := left_proceed s hreturned (owed_settled hsettled)
    exact ⟨Nat.le_of_lt hlt, fun _ => hlt⟩
  | destroyed hdestroyed =>
    have howed := owed_destroy s.running
    have hlt : left s.destroy < left s := by
      simp only [left, hdestroyed, destroy, Bool.not_true, Bool.not_false, Bool.toNat_false, Bool.toNat_true]
      omega
    exact ⟨Nat.le_of_lt hlt, fun _ => hlt⟩

theorem left_run {before : List (Action V E)} (hinv : Inv clone units before s)
    (hrun : run (step clone) s actions = some t) : left t + actions.countP (!·.delivery) ≤ left s := by
  induction actions generalizing before s with
  | nil =>
    obtain rfl := Option.some.inj hrun
    exact Nat.le_refl _
  | cons a actions ih =>
    obtain ⟨u, hstep, hrest⟩ := run_cons_eq_some.mp hrun
    have hrest := ih (inv_step hinv hstep) hrest
    obtain ⟨hle, hlt⟩ := left_did hinv.distinct (did_of_step hinv.distinct hstep)
    rw [List.countP_cons]
    split
    · rename_i hother
      have hlt := hlt ((Bool.not_eq_true' _).mp hother)
      omega
    · omega

theorem find_isSome {r : Running} (hr : r ∈ s.running) {phases : List Phase} (hphase : r.phase ∈ phases) :
    ∃ x, s.find r.step phases = some x :=
  Option.isSome_iff_exists.mp (List.find?_isSome.mpr ⟨r, hr, decide_eq_true ⟨rfl, hphase⟩⟩)

theorem Inv.goes_on (h : Inv clone units actions s) (hreturned : s.returned = false) :
    ∃ a : Action V E, a.delivery = false ∧ a ≠ .destroy ∧ (step clone s a).isSome = true := by
  obtain ⟨-, -, htrue, -⟩ | ⟨_, _, _, _, _, h⟩ := h
  · rw [hreturned] at htrue
    cases htrue
  by_cases hsettled : ∀ r ∈ s.running, r.phase = .settled
  · refine ⟨.proceed, rfl, nofun, ?_⟩
    rw [step, if_pos ⟨Bool.eq_false_iff.mp hreturned, hsettled⟩, Option.isSome_some]
  · obtain ⟨r, hr, hphase⟩ : ∃ r ∈ s.running, r.phase ≠ .settled := by
      by_contra hnone
      exact hsettled fun r hr => by_contra fun hphase => hnone ⟨r, hr, hphase⟩
    cases hwhere : r.phase with
    | discovering =>
      obtain ⟨x, hx⟩ := find_isSome hr (List.mem_singleton.mpr hwhere)
      obtain ⟨hmem, hname, hdiscovering⟩ := find_some hx
      obtain ⟨d, hd⟩ := Option.isSome_iff_exists.mp (h.known x hmem (List.mem_singleton.mp hdiscovering))
      cases d with
      | asked =>
        refine ⟨.discovered x.key true, rfl, nofun, ?_⟩
        rw [step, if_pos hd, Option.isSome_some]
      | found | refused =>
        refine ⟨.waited r.step, rfl, nofun, ?_⟩
        rw [step, hx, Option.bind_some]
        dsimp only
        rw [show s.discovery.lookup (Endpoint.of x.endpoint).key = _ from hd]
        rfl
    | calling =>
      obtain ⟨x, hx⟩ := find_isSome hr (List.mem_singleton.mpr hwhere)
      exact ⟨.replied r.step .threw, rfl, nofun, by rw [step, hx, Option.map_some, Option.isSome_some]⟩
    | streaming | cut =>
      have hread : r.phase ∈ [.streaming, .cut] := by
        rw [hwhere]
        decide
      obtain ⟨x, hx⟩ := find_isSome hr hread
      exact ⟨.broke r.step, rfl, nofun, by rw [step, hx, Option.map_some, Option.isSome_some]⟩
    | settled => exact (hphase hwhere).elim

theorem left_new (units : List Unit) : left (new units : Execution V E) ≤ due units + 1 := by
  have hlt := left_proceed ({ rest := units } : Execution V E) rfl rfl
  have hleft : left ({ rest := units } : Execution V E) = due units + 2 := by
    show 0 + due units + 0 + 1 + 1 = _
    omega
  rw [hleft] at hlt
  exact Nat.le_of_lt_succ hlt

/-- Whatever the order, an execution comes to at most so many actions that are not deliveries of its step streams,
and there is one to come as long as it is not over. -/
theorem comes_to_end (hrun : run (step clone) (new units) actions = some s) :
    actions.countP (!·.delivery) ≤ due units + 1 ∧
      (s.returned = false → ∃ a : Action V E, a.delivery = false ∧ a ≠ .destroy ∧ (step clone s a).isSome = true) := by
  refine ⟨?_, (inv_run hrun).goes_on⟩
  have hleft := left_run (inv_new clone units) hrun
  have hnew := left_new (V := V) (E := E) units
  omega

theorem comes_to_end_uploading : ∃ s : Execution ℕ String, run (step some) (new upload) uploading = some s ∧
    uploading.countP (!·.delivery) ≤ due upload + 1 ∧
      (s.returned = false → ∃ a : Action ℕ String, a.delivery = false ∧ a ≠ .destroy ∧ (step some s a).isSome = true) := by
  have hrun : (run (step some) (new upload) uploading).isSome = true := by decide +kernel
  obtain ⟨s, hrun⟩ := Option.isSome_iff_exists.mp hrun
  exact ⟨s, hrun, comes_to_end hrun⟩

end Toa.Octets.Execution
