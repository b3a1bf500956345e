import Toa.Cadence.Dispatcher

/-! A dispatcher that is paused or closed. What is armed is given up when it is told so; a scan in
flight is not, and a timer whose row is no longer armed is not cleared. -/

set_option linter.unusedSectionVars false

namespace Toa.Cadence.Dispatcher
open Run

variable {ι σ : Type*} [DecidableEq ι]

def State.Quiet (s : State ι σ) : Prop := s.quiesced = true ∨ s.closing = true

/-! ## What neither calls nor arms -/

structure Still (s t : State ι σ) : Prop where
  quiesced : t.quiesced = s.quiesced
  closing : t.closing = s.closing
  set : t.set = s.set
  invoked : t.invoked = s.invoked
  timers : t.timers ⊆ s.timers

theorem Still.refl (s : State ι σ) : Still s s := ⟨rfl, rfl, rfl, rfl, List.Subset.refl _⟩

theorem Still.trans {s t u : State ι σ} (h : Still s t) (h' : Still t u) : Still s u where
  quiesced := h'.quiesced.trans h.quiesced
  closing := h'.closing.trans h.closing
  set := h'.set.trans h.set
  invoked := h'.invoked.trans h.invoked
  timers := List.Subset.trans h'.timers h.timers

theorem Still.quiet {s t : State ι σ} (h : Still s t) : t.Quiet ↔ s.Quiet := by
  simp only [State.Quiet, h.quiesced, h.closing]

theorem still_clear (s : State ι σ) (keep : Armed ι → Bool) : Still s (s.clear keep) :=
  { Still.refl s with timers := List.filter_sublist.subset }

theorem still_settle (s : State ι σ) (scanning : Bool) : Still s (s.settle scanning) := by
  unfold State.settle
  split_ifs
  · exact { Still.refl s with }
  · exact Still.refl s
  all_goals exact { Still.refl s with }

theorem still_tick (s : State ι σ) : Still s s.tick := by
  unfold State.tick
  split_ifs
  · exact Still.refl s
  · split
    · exact still_settle s true
    · exact Still.refl s

theorem still_adopt (s : State ι σ) : Still s s.adopt :=
  (still_clear s _).trans (still_tick _)

theorem still_done (s : State ι σ) (row : Row ι σ) (outcome : Outcome) :
    Still s (done s row outcome) := by
  unfold done
  split <;> exact { Still.refl s with }

section
variable (occurrences : σ → ℤ → Option ℤ)

def Passed (now : ℤ) (s : State ι σ) (row : Row ι σ) : Prop :=
  s.holds row.id = true ∨ lapsed occurrences row now = true

instance (now : ℤ) (s : State ι σ) (row : Row ι σ) : Decidable (Passed occurrences now s row) :=
  inferInstanceAs (Decidable (_ ∨ _))

theorem holds_call (s : State ι σ) (id id' : ι) (due : ℤ) (h : s.holds id = true) :
    (s.call id' due).holds id = true := by
  rw [State.holds_iff] at h ⊢
  obtain h | ⟨p, hp, rfl⟩ | h := h
  · exact .inl h
  · by_cases hsame : p.1 = id'
    · have hnew := List.mem_append_right (s.called.filter (·.1 ≠ id')) (List.mem_singleton_self (id', due))
      exact .inr (.inl ⟨(id', due), hnew, hsame.symm⟩)
    · have hkept : p ∈ s.called.filter (·.1 ≠ id') := List.mem_filter.mpr ⟨hp, decide_eq_true hsame⟩
      exact .inr (.inl ⟨p, List.mem_append_left _ hkept, rfl⟩)
  · exact .inr (.inr h)

theorem holds_end (s : State ι σ) (id id' : ι) (h : s.holds id = true) :
    (s.end id').holds id = true := by
  rw [State.holds_iff] at h ⊢
  exact h.imp_right (·.imp_right (List.mem_cons_of_mem _))

theorem holds_arm (now : ℤ) (s : State ι σ) (row : Row ι σ) (id : ι) (h : s.holds id = true) :
    (arm occurrences now s row).holds id = true := by
  unfold arm
  split_ifs
  · exact h
  · exact holds_end s id row.id h
  · exact holds_call s id row.id row.due h
  · rw [State.holds_iff] at h ⊢
    exact h.imp_left fun ⟨x, hx, hid⟩ => ⟨x, List.mem_append_left _ hx, hid⟩

theorem still_arm {now : ℤ} {s : State ι σ} {row : Row ι σ} (h : Passed occurrences now s row) :
    Still s (arm occurrences now s row) := by
  unfold arm
  split_ifs with hheld hends hlapsed
  · exact Still.refl s
  · exact { Still.refl s with }
  · exact { Still.refl s with }
  · exact absurd h (not_or.mpr ⟨hheld, hlapsed⟩)

theorem still_arms {now : ℤ} {rows : List (Row ι σ)} {s : State ι σ}
    (h : ∀ row ∈ rows, Passed occurrences now s row) :
    Still s (rows.foldl (arm occurrences now) s) := by
  induction rows generalizing s with
  | nil => exact Still.refl s
  | cons row rows ih =>
    refine (still_arm occurrences (h row (List.mem_cons_self ..))).trans (ih fun row' h' => ?_)
    exact (h row' (List.mem_cons_of_mem _ h')).imp_left (holds_arm occurrences now s row row'.id)

theorem arms_flags (now : ℤ) (rows : List (Row ι σ)) (s : State ι σ) :
    (rows.foldl (arm occurrences now) s).quiesced = s.quiesced ∧
      (rows.foldl (arm occurrences now) s).closing = s.closing := by
  induction rows generalizing s with
  | nil => exact ⟨rfl, rfl⟩
  | cons row rows ih =>
    have harm : (arm occurrences now s row).quiesced = s.quiesced ∧
        (arm occurrences now s row).closing = s.closing := by
      unfold arm
      split_ifs <;> exact ⟨rfl, rfl⟩
    obtain ⟨hquiesced, hclosing⟩ := ih (arm occurrences now s row)
    exact ⟨hquiesced.trans harm.1, hclosing.trans harm.2⟩

/-! ## Steps -/

variable (regions : List ℕ) (discreteness : ℤ)

def State.read (s : State ι σ) (now : ℤ) (rows : List (Row ι σ)) : State ι σ :=
  let s := rows.foldl (arm occurrences now) { s with scan := .idle }
  if rows.length = BATCH then s else s.forget (rows.map (·.id))

theorem flags_read (s : State ι σ) (now : ℤ) (rows : List (Row ι σ)) :
    (s.read occurrences now rows).quiesced = s.quiesced ∧
      (s.read occurrences now rows).closing = s.closing := by
  unfold State.read
  simp only
  split_ifs
  all_goals exact arms_flags occurrences now rows { s with scan := .idle }

theorem still_read {s : State ι σ} {now : ℤ} {rows : List (Row ι σ)}
    (h : ∀ row ∈ rows, Passed occurrences now s row) : Still s (s.read occurrences now rows) := by
  have harms : Still s (rows.foldl (arm occurrences now) { s with scan := .idle }) :=
    { still_arms (s := { s with scan := .idle }) occurrences h with }
  unfold State.read
  simp only
  split_ifs
  · exact harms
  · exact harms.trans (still_clear _ _)

variable {occurrences regions discreteness}

theorem step_cases {s t : State ι σ} {a : Act ι σ}
    (ht : step occurrences regions discreteness s a = some t) : Still s t ∨
      (∃ now rows, a = .rows now ∧ s.scan = .enumerated rows ∧ t = s.read occurrences now rows) ∨
      (∃ timer fired, a = .fire timer ∧ s.timers.find? (·.1 = timer) = some fired ∧
        t = dispatch { s with timers := s.timers.filter (·.1 ≠ timer) } fired.2) ∨
      (a = .pause ∧ t = State.settle (State.clear
        { s with quiesced := true, listening := false, ticking := false } fun _ => false) false) ∨
      (a = .unpause ∧ Still { s with quiesced := false } t) ∨
      (a = .close ∧ Still { s with closing := true } t) := by
  cases a with
  | insert row =>
    simp only [step] at ht
    split_ifs at ht
    exact .inl (Option.some.inj ht ▸ { Still.refl s with })
  | remove id => exact .inl (Option.some.inj ht ▸ { Still.refl s with })
  | assigned slots =>
    obtain rfl := Option.some.inj ht
    refine .inl ?_
    split_ifs
    · exact { still_adopt { s with slots := slots } with }
    · exact { Still.refl s with }
  | tick =>
    simp only [step] at ht
    split_ifs at ht
    exact .inl (Option.some.inj ht ▸ still_tick s)
  | enumerate now =>
    simp only [step] at ht
    split at ht
    · split at ht
      all_goals exact .inl (Option.some.inj ht ▸ { Still.refl s with })
    · exact nomatch ht
  | answer =>
    simp only [step] at ht
    split at ht
    · exact .inl (Option.some.inj ht ▸ { Still.refl s with })
    · exact nomatch ht
  | unread =>
    simp only [step] at ht
    split at ht
    · exact .inl (Option.some.inj ht ▸ { Still.refl s with })
    · exact .inl (Option.some.inj ht ▸ { Still.refl s with })
    · exact nomatch ht
  | rows now =>
    simp only [step] at ht
    split at ht
    · rename_i rows hscan
      exact .inr (.inl ⟨now, rows, rfl, hscan, (Option.some.inj ht).symm⟩)
    · exact nomatch ht
  | fire timer =>
    obtain ⟨fired, hfired, rfl⟩ := Option.map_eq_some_iff.mp ht
    exact .inr (.inr (.inl ⟨timer, fired, rfl, hfired, rfl⟩))
  | done i outcome =>
    obtain ⟨row, -, rfl⟩ := Option.map_eq_some_iff.mp ht
    exact .inl { still_done { s with calls := s.calls.eraseIdx i } row outcome with }
  | apply i =>
    simp only [step] at ht
    split at ht
    · exact .inl (Option.some.inj ht ▸ { Still.refl s with })
    · exact nomatch ht
  | settled i =>
    simp only [step] at ht
    split at ht
    · exact .inl (Option.some.inj ht ▸ { Still.refl s with })
    · exact nomatch ht
  | unsettled i =>
    obtain ⟨w, -, rfl⟩ := Option.map_eq_some_iff.mp ht
    exact .inl { Still.refl s with }
  | pause => exact .inr (.inr (.inr (.inl ⟨rfl, (Option.some.inj ht).symm⟩)))
  | unpause =>
    obtain rfl := Option.some.inj ht
    refine .inr (.inr (.inr (.inr (.inl ⟨rfl, ?_⟩))))
    exact { still_adopt { s with quiesced := false, ticking := true, listening := true } with }
  | close =>
    obtain rfl := Option.some.inj ht
    refine .inr (.inr (.inr (.inr (.inr ⟨rfl, ?_⟩))))
    exact { (still_clear { s with closing := true, listening := false, ticking := false }
      fun _ => false).trans (still_settle _ false) with }

end

/-! ## Runs -/

def Scan.brought : Scan ι σ → List (Row ι σ)
  | .enumerated rows => rows
  | _ => []

def Silenced (s : State ι σ) : Prop := s.quiesced = true → s.closing = false → s.timers = []

/-- Rows brought to a dispatcher that is quiet are in hand or past their bound, and a pause finds no
timer whose row is not armed. -/
def Hushed (occurrences : σ → ℤ → Option ℤ) (s : State ι σ) : Act ι σ → Prop
  | .rows now => s.Quiet → ∀ row ∈ s.scan.brought, Passed occurrences now s row
  | .pause => s.closing = true ∨ ∀ timer ∈ s.timers, ∃ x ∈ s.armed, x.timer = timer.1
  | _ => True

instance (s : State ι σ) : Decidable s.Quiet := inferInstanceAs (Decidable (_ ∨ _))

instance (occurrences : σ → ℤ → Option ℤ) (s : State ι σ) :
    ∀ a, Decidable (Hushed occurrences s a)
  | .rows now => inferInstanceAs (Decidable (s.Quiet → ∀ row ∈ s.scan.brought, Passed occurrences now s row))
  | .pause => inferInstanceAs (Decidable (s.closing = true ∨
      ∀ timer ∈ s.timers, ∃ x ∈ s.armed, x.timer = timer.1))
  | .insert _ | .remove _ | .assigned _ | .tick | .enumerate _ | .answer | .unread | .fire _
  | .done _ _ | .apply _ | .settled _ | .unsettled _ | .unpause | .close => isTrue trivial

variable {occurrences : σ → ℤ → Option ℤ} {regions : List ℕ} {discreteness : ℤ}

theorem Still.silenced {s t : State ι σ} (h : Still s t) (hs : Silenced s) : Silenced t := by
  intro hquiesced hclosing
  have hnone := hs (h.quiesced ▸ hquiesced) (h.closing ▸ hclosing)
  exact List.subset_nil.mp (hnone ▸ h.timers)

theorem clear_timers {s : State ι σ} (h : ∀ timer ∈ s.timers, ∃ x ∈ s.armed, x.timer = timer.1) :
    (s.clear fun _ => false).timers = [] := by
  refine List.filter_eq_nil_iff.mpr fun timer htimer hkept => ?_
  obtain ⟨x, hx, heq⟩ := h timer htimer
  simp only [Bool.false_or, List.all_eq_true, decide_eq_true_eq] at hkept
  exact hkept x hx heq

theorem step_still {s t : State ι σ} {a : Act ι σ} (hs : Silenced s) (hok : Hushed occurrences s a)
    (ht : step occurrences regions discreteness s a = some t) (hquiet : s.Quiet) :
    t.set = s.set ∧ t.invoked = s.invoked := by
  obtain h | ⟨now, rows, rfl, hscan, rfl⟩ | ⟨timer, fired, rfl, hfired, rfl⟩ | ⟨rfl, rfl⟩ |
    ⟨rfl, h⟩ | ⟨rfl, h⟩ := step_cases ht
  · exact ⟨h.set, h.invoked⟩
  · have hpassed := hok hquiet
    rw [hscan] at hpassed
    have hstill := still_read occurrences hpassed
    exact ⟨hstill.set, hstill.invoked⟩
  · -- there is no timer to fire, unless the dispatcher is closing
    by_cases hclosing : s.closing = true
    · simp only [dispatch, if_pos hclosing, and_self]
    · have hnone := hs (hquiet.resolve_right hclosing) (Bool.eq_false_iff.mpr hclosing)
      rw [hnone] at hfired
      exact nomatch hfired
  · have hstill := (still_clear { s with quiesced := true, listening := false, ticking := false }
      fun _ => false).trans (still_settle _ false)
    exact ⟨hstill.set, hstill.invoked⟩
  · exact ⟨h.set, h.invoked⟩
  · exact ⟨h.set, h.invoked⟩

theorem silenced_step {s t : State ι σ} {a : Act ι σ} (hs : Silenced s) (hok : Hushed occurrences s a)
    (ht : step occurrences regions discreteness s a = some t) : Silenced t := by
  obtain h | ⟨now, rows, rfl, hscan, rfl⟩ | ⟨timer, fired, rfl, hfired, rfl⟩ | ⟨rfl, rfl⟩ |
    ⟨rfl, h⟩ | ⟨rfl, h⟩ := step_cases ht
  · exact h.silenced hs
  · intro hquiesced hclosing
    have hflags := flags_read occurrences s now rows
    have hpassed := hok (.inl (hflags.1 ▸ hquiesced))
    rw [hscan] at hpassed
    exact (still_read occurrences hpassed).silenced hs hquiesced hclosing
  · unfold dispatch
    split_ifs with hclosing
    · exact fun _ hopen => nomatch hopen.symm.trans hclosing
    · intro hquiesced hopen
      have hnone := hs hquiesced hopen
      simp only [hnone, List.filter_nil]
  · have hstill := still_settle (State.clear
      { s with quiesced := true, listening := false, ticking := false } fun _ => false) false
    intro _ hopen
    have hopen : s.closing = false := hstill.closing ▸ hopen
    have horphans := hok.resolve_left fun hclosing => nomatch hopen.symm.trans hclosing
    have hnone := clear_timers
      (s := { s with quiesced := true, listening := false, ticking := false }) horphans
    exact List.subset_nil.mp (hnone ▸ hstill.timers)
  · exact fun hquiesced => nomatch h.quiesced.symm.trans hquiesced
  · exact fun _ hopen => nomatch h.closing.symm.trans hopen

theorem quiet_step {s t : State ι σ} {a : Act ι σ}
    (ht : step occurrences regions discreteness s a = some t) (hquiet : s.Quiet)
    (ha : a ≠ .unpause) : t.Quiet := by
  obtain h | ⟨now, rows, rfl, hscan, rfl⟩ | ⟨timer, fired, rfl, hfired, rfl⟩ | ⟨rfl, rfl⟩ |
    ⟨rfl, h⟩ | ⟨rfl, h⟩ := step_cases ht
  · exact h.quiet.mpr hquiet
  · have hflags := flags_read occurrences s now rows
    simpa only [State.Quiet, hflags.1, hflags.2] using hquiet
  · unfold dispatch
    split_ifs <;> exact hquiet
  · have hstill := (still_clear { s with quiesced := true, listening := false, ticking := false }
      fun _ => false).trans (still_settle _ false)
    exact .inl hstill.quiesced
  · exact absurd rfl ha
  · exact .inr h.closing

theorem run_still {bs : List (Act ι σ)} {s t : State ι σ} (hs : Silenced s) (hquiet : s.Quiet)
    (hok : Along (step occurrences regions discreteness) (Hushed occurrences) s bs)
    (hrun : run (step occurrences regions discreteness) s bs = some t) (hbs : .unpause ∉ bs) :
    t.set = s.set ∧ t.invoked = s.invoked := by
  induction bs generalizing s with
  | nil => exact Option.some.inj hrun ▸ ⟨rfl, rfl⟩
  | cons a bs ih =>
    obtain ⟨ha, hbs⟩ := not_or.mp fun h => hbs (List.mem_cons.mpr h)
    obtain ⟨u, hu, hrest⟩ := run_cons_eq_some.mp hrun
    obtain ⟨hset, hinvoked⟩ := step_still hs hok.1 hu hquiet
    have hlater := ih (silenced_step hs hok.1 hu) (quiet_step hu hquiet (Ne.symm ha)) (hok.2 u hu)
      hrest hbs
    exact ⟨hlater.1.trans hset, hlater.2.trans hinvoked⟩

theorem quiet_stopped {as : List (Act ι σ)} {stop : Act ι σ} {s : State ι σ}
    (hstop : stop = .pause ∨ stop = .close)
    (hrun : run (step occurrences regions discreteness) .init (as ++ [stop]) = some s) : s.Quiet := by
  rw [run_append] at hrun
  obtain ⟨u, -, hu⟩ := Option.bind_eq_some_iff.mp hrun
  obtain ⟨v, hv, hu⟩ := run_cons_eq_some.mp hu
  obtain rfl := Option.some.inj hu
  obtain rfl | rfl := hstop
  · obtain rfl := Option.some.inj hv
    exact .inl (still_settle _ false).quiesced
  · obtain rfl := Option.some.inj hv
    exact .inr (still_settle _ false).closing

/-- From a pause or a close, and until it is told to go on, a dispatcher arms no timer and invokes no
target. -/
theorem quiet_dispatcher {as bs : List (Act ι σ)} {stop : Act ι σ} {s t : State ι σ}
    (hstop : stop = .pause ∨ stop = .close)
    (hok : Along (step occurrences regions discreteness) (Hushed occurrences) .init ((as ++ [stop]) ++ bs))
    (hrun : run (step occurrences regions discreteness) .init (as ++ [stop]) = some s)
    (hrest : run (step occurrences regions discreteness) s bs = some t) (hbs : .unpause ∉ bs) :
    t.set = s.set ∧ t.invoked = s.invoked := by
  have hinit : Silenced (.init : State ι σ) := fun _ _ => rfl
  have hs : Silenced s := run_invariant (fun _ _ _ hs hok ht => silenced_step hs hok ht) hinit
    hok.append_left hrun
  exact run_still hs (quiet_stopped hstop hrun) (hok.append_right hrun) hrest hbs

/-! ## A scan in flight -/

def delayed : Row ℕ Unit := ⟨1, 0, 0, 5, 100, none, none, none⟩

def reading : List (Act ℕ Unit) :=
  [.insert delayed, .assigned (some [0]), .enumerate 0, .answer]

/-- The rows a scan awaited when it was paused are armed as they come, and called when they are
due. -/
theorem paused_invokes : ∃ s t : State ℕ Unit,
    run (step (fun _ _ => none) [0] 10) .init (reading ++ [.pause]) = some s ∧ s.settles = [] ∧
      run (step (fun _ _ => none) [0] 10) s [.rows 0, .fire 0] = some t ∧
      ¬(t.set = s.set ∧ t.invoked = s.invoked) :=
  ⟨_, _, rfl, rfl, rfl, by decide⟩

theorem quiet_dispatcher_expired : ∃ s t : State ℕ Unit,
    run (step (fun _ _ => none) [0] 10) .init (reading ++ [.pause]) = some s ∧
      run (step (fun _ _ => none) [0] 10) s [.rows 200] = some t ∧
      t.set = s.set ∧ t.invoked = s.invoked := by
  have h {s t : State ℕ Unit}
      (hrun : run (step (fun _ _ => none) [0] 10) .init (reading ++ [.pause]) = some s)
      (hrest : run (step (fun _ _ => none) [0] 10) s [.rows 200] = some t) :=
    quiet_dispatcher (.inl rfl) (by decide) hrun hrest fun h => nomatch List.mem_singleton.mp h
  exact ⟨_, _, rfl, rfl, h rfl rfl⟩

end Toa.Cadence.Dispatcher
