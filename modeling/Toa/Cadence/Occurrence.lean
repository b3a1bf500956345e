import Mathlib.Data.List.Nodup
import Toa.Cadence.Quiet

/-! The calls a working dispatcher makes of one occurrence. What is in hand moves from a timer to a
call, and from the call to the ids that a settle takes, and the row is in the store all the while. -/

set_option linter.unusedSectionVars false

namespace Toa.Cadence.Dispatcher
open Run

variable {ι σ : Type*} [DecidableEq ι]

def Stands (invoked failed : List (ι × ℤ)) (o : ι × ℤ) : Prop := failed.count o < invoked.count o

def Untouched (invoked : List (ι × ℤ)) (timers : List (ℕ × Row ι σ)) (o : ι × ℤ) : Prop :=
  o ∉ invoked ∧ ∀ timer ∈ timers, occurrence timer.2 ≠ o

/-- The row of an occurrence in hand is live at that occurrence, or at one no call of stands. -/
def Apart (live : List (Row ι σ)) (invoked failed : List (ι × ℤ)) (p : ι × ℤ) : Prop :=
  ∀ row ∈ live, row.id = p.1 → occurrence row ≠ p → ¬Stands invoked failed (occurrence row)

def State.hand (s : State ι σ) : List (ι × ℤ) :=
  s.timers.map (occurrence ·.2) ++ s.calls.map occurrence ++ s.called ++ s.settles.flatMap (·.made)

theorem mem_hand {s : State ι σ} {p : ι × ℤ} : p ∈ s.hand ↔
    (∃ timer ∈ s.timers, occurrence timer.2 = p) ∨ (∃ row ∈ s.calls, occurrence row = p) ∨
      p ∈ s.called ∨ ∃ w ∈ s.settles, p ∈ w.made := by
  simp only [State.hand, List.mem_append, List.mem_map, List.mem_flatMap, or_assoc]

theorem not_stands_of_not_mem {invoked failed : List (ι × ℤ)} {o : ι × ℤ} (h : o ∉ invoked) :
    ¬Stands invoked failed o := by
  unfold Stands
  rw [List.count_eq_zero.mpr h]
  exact Nat.not_lt_zero _

theorem stands_of_failed {invoked failed : List (ι × ℤ)} {o o' : ι × ℤ}
    (h : Stands invoked (o' :: failed) o) : Stands invoked failed o :=
  lt_of_le_of_lt List.count_le_count_cons h

theorem stands_of_invoked {invoked failed : List (ι × ℤ)} {o o' : ι × ℤ} (hne : o ≠ o')
    (h : Stands (o' :: invoked) failed o) : Stands invoked failed o := by
  unfold Stands at h
  rwa [List.count_cons_of_ne (Ne.symm hne)] at h

theorem Apart.imp {live live' : List (Row ι σ)} {invoked invoked' failed failed' : List (ι × ℤ)}
    {p : ι × ℤ} (h : Apart live invoked failed p) (hlive : ∀ row ∈ live', row ∈ live ∨
      occurrence row ∉ invoked')
    (hstands : ∀ o, Stands invoked' failed' o → Stands invoked failed o) :
    Apart live' invoked' failed' p := by
  intro row hrow hid hne hstand
  rcases hlive row hrow with hrow | hnew
  · exact h row hrow hid hne (hstands _ hstand)
  · exact not_stands_of_not_mem hnew hstand

structure Once (s : State ι σ) : Prop where
  known : ((∀ row ∈ s.live, occurrence row ∈ s.known) ∧
    ∀ timer ∈ s.timers, occurrence timer.2 ∈ s.known) ∧ ∀ o ∈ s.invoked, o ∈ s.known
  distinct : (s.live.map (·.id)).Nodup
  armed : ∀ timer ∈ s.timers, ∃ x ∈ s.armed, x.id = timer.2.id ∧ x.timer = timer.1
  nodup : (s.timers.map (·.2.id) ++ s.calls.map (·.id)).Nodup
  free : ∀ timer ∈ s.timers, (∀ p ∈ s.called, p.1 ≠ timer.2.id) ∧ timer.2.id ∉ s.ended
  due : ∀ timer ∈ s.timers, ¬Stands s.invoked s.failed (occurrence timer.2)
  apart : ∀ p ∈ s.hand, Apart s.live s.invoked s.failed p
  covered : ∀ row ∈ s.live, Stands s.invoked s.failed (occurrence row) →
    occurrence row ∈ s.calls.map occurrence ∨ occurrence row ∈ s.called ∨ row.id ∈ s.ended
  settling : s.settles = [] ∨ s.scan = .settling ∧ ∃ w, s.settles = [w] ∧ w.scanning = true
  made : ∀ w ∈ s.settles, ∀ p ∈ w.made, ∃ q ∈ s.called, q.1 = p.1
  applied : ∀ w ∈ s.settles, w.applied = true → ∀ row ∈ s.live, w.takes row = true →
    Untouched s.invoked s.timers (occurrence row)
  read : ∀ row ∈ s.scan.brought, occurrence row ∈ s.known ∧
    (Stands s.invoked s.failed (occurrence row) → occurrence row ∈ s.calls.map occurrence ∨
      (∃ p ∈ s.called, p.1 = row.id) ∨ row.id ∈ s.ended) ∧
    ∀ row' ∈ s.live, row'.id = row.id → occurrence row' ≠ occurrence row →
      Untouched s.invoked s.timers (occurrence row')
  opened : s.closing = false
  once : ∀ o, s.invoked.count o ≤ s.failed.count o + 1

theorem once_init : Once (.init : State ι σ) where
  known := ⟨⟨fun _ h => (nomatch h), fun _ h => (nomatch h)⟩, fun _ h => (nomatch h)⟩
  distinct := .nil
  armed := fun _ h => (nomatch h)
  nodup := .nil
  free := fun _ h => (nomatch h)
  due := fun _ h => (nomatch h)
  apart := fun _ h => (nomatch h)
  covered := fun _ h => (nomatch h)
  settling := .inl rfl
  made := fun _ h => (nomatch h)
  applied := fun _ h => (nomatch h)
  read := fun _ h => (nomatch h)
  opened := rfl
  once := fun _ => Nat.zero_le _

/-! ## The store -/

theorem once_insert {s : State ι σ} (h : Once s) {row : Row ι σ} (hid : row.id ∉ s.live.map (·.id))
    (hknown : occurrence row ∉ s.known) :
    Once { s with live := s.live ++ [row], known := occurrence row :: s.known } := by
  have hcalled : occurrence row ∉ s.invoked := fun hmem => hknown (h.known.2 _ hmem)
  have huntouched : Untouched s.invoked s.timers (occurrence row) :=
    ⟨hcalled, fun timer htimer heq => hknown (heq ▸ h.known.1.2 timer htimer)⟩
  have hlive : ∀ row' ∈ s.live ++ [row], row' ∈ s.live ∨ row' = row := fun row' h' =>
    (List.mem_append.mp h').imp_right List.mem_singleton.mp
  refine { h with known := ⟨⟨fun row' h' => ?_, fun timer htimer => ?_⟩, fun o ho => ?_⟩,
                  distinct := ?_, apart := fun p hp => ?_, covered := fun row' h' hstands => ?_,
                  applied := fun w hw hdone row' h' htakes => ?_, read := fun r hr => ?_ }
  · rcases hlive row' h' with h' | rfl
    · exact List.mem_cons_of_mem _ (h.known.1.1 row' h')
    · exact List.mem_cons_self ..
  · exact List.mem_cons_of_mem _ (h.known.1.2 timer htimer)
  · exact List.mem_cons_of_mem _ (h.known.2 o ho)
  · rw [List.map_append]
    refine List.nodup_append'.mpr ⟨h.distinct, List.nodup_singleton _, ?_⟩
    intro id hmem hnew
    obtain rfl := List.mem_singleton.mp hnew
    exact hid hmem
  · refine (h.apart p hp).imp (fun row' h' => ?_) fun _ hstands => hstands
    exact (hlive row' h').imp_right (by rintro rfl; exact hcalled)
  · rcases hlive row' h' with h' | rfl
    · exact h.covered row' h' hstands
    · exact absurd hstands (not_stands_of_not_mem hcalled)
  · rcases hlive row' h' with h' | rfl
    · exact h.applied w hw hdone row' h' htakes
    · exact huntouched
  · obtain ⟨hrknown, hcovered, hother⟩ := h.read r hr
    refine ⟨List.mem_cons_of_mem _ hrknown, hcovered, fun row' h' => ?_⟩
    rcases hlive row' h' with h' | rfl
    · exact hother row' h'
    · exact fun _ _ => huntouched

theorem once_live {s : State ι σ} (h : Once s) (keep : Row ι σ → Bool) :
    Once { s with live := s.live.filter keep } where
  known := ⟨⟨fun row hrow => h.known.1.1 row (List.mem_of_mem_filter hrow), h.known.1.2⟩, h.known.2⟩
  distinct := h.distinct.sublist (List.filter_sublist.map _)
  armed := h.armed
  nodup := h.nodup
  free := h.free
  due := h.due
  apart := fun p hp => (h.apart p hp).imp (fun _ hrow => .inl (List.mem_of_mem_filter hrow))
    fun _ hstands => hstands
  covered := fun row hrow => h.covered row (List.mem_of_mem_filter hrow)
  settling := h.settling
  made := h.made
  applied := fun w hw hdone row hrow => h.applied w hw hdone row (List.mem_of_mem_filter hrow)
  read := fun row hrow => ⟨(h.read row hrow).1, (h.read row hrow).2.1,
    fun row' h' => (h.read row hrow).2.2 row' (List.mem_of_mem_filter h')⟩
  opened := h.opened
  once := h.once

/-! ## What is in hand -/

theorem once_clear {s : State ι σ} (h : Once s) (keep : Armed ι → Bool) : Once (s.clear keep) := by
  have hsub : (s.clear keep).timers ⊆ s.timers := List.filter_sublist.subset
  refine { h with known := ⟨⟨h.known.1.1, fun timer ht => h.known.1.2 timer (hsub ht)⟩, h.known.2⟩,
                  armed := fun timer htimer => ?_, nodup := ?_,
                  free := fun timer ht => h.free timer (hsub ht),
                  due := fun timer ht => h.due timer (hsub ht),
                  apart := fun p hp => ?_, applied := fun w hw hdone row hrow htakes => ?_,
                  read := fun row hrow => ?_ }
  · -- a timer is left where every row armed under its number is kept
    obtain ⟨x, hx, hid, hnumber⟩ := h.armed timer (hsub htimer)
    have hleft := List.all_eq_true.mp (List.mem_filter.mp htimer).2 x hx
    simp only [hnumber, ne_eq, not_true_eq_false, decide_false, Bool.or_false] at hleft
    exact ⟨x, List.mem_filter.mpr ⟨hx, hleft⟩, hid, hnumber⟩
  · exact h.nodup.sublist ((List.filter_sublist.map _).append (List.Sublist.refl _))
  · refine h.apart p (mem_hand.mpr ((mem_hand.mp hp).imp_left ?_))
    exact fun ⟨timer, ht, heq⟩ => ⟨timer, hsub ht, heq⟩
  · obtain ⟨hcalled, hother⟩ := h.applied w hw hdone row hrow htakes
    exact ⟨hcalled, fun timer ht => hother timer (hsub ht)⟩
  · obtain ⟨hrknown, hcovered, hother⟩ := h.read row hrow
    refine ⟨hrknown, hcovered, fun row' h' hid hne => ?_⟩
    exact ⟨(hother row' h' hid hne).1, fun timer ht => (hother row' h' hid hne).2 timer (hsub ht)⟩

theorem called_call {s : State ι σ} {id id' : ι} (due : ℤ) (h : ∃ p ∈ s.called, p.1 = id) :
    ∃ p ∈ (s.call id' due).called, p.1 = id := by
  obtain ⟨p, hp, rfl⟩ := h
  by_cases hsame : p.1 = id'
  · exact ⟨(id', due), List.mem_append_right _ (List.mem_singleton_self _), hsame.symm⟩
  · have hkept : p ∈ s.called.filter (·.1 ≠ id') := List.mem_filter.mpr ⟨hp, decide_eq_true hsame⟩
    exact ⟨p, List.mem_append_left _ hkept, rfl⟩

theorem mem_call {s : State ι σ} {id : ι} {due : ℤ} {p : ι × ℤ} :
    p ∈ (s.call id due).called ↔ (p ∈ s.called ∧ p.1 ≠ id) ∨ p = (id, due) := by
  simp only [State.call, List.mem_append, List.mem_filter, List.mem_singleton, decide_eq_true_eq]

theorem once_call {s : State ι σ} (h : Once s) {id : ι} {due : ℤ}
    (hfree : ∀ timer ∈ s.timers, timer.2.id ≠ id)
    (hapart : Apart s.live s.invoked s.failed (id, due)) : Once (s.call id due) := by
  refine { h with free := fun timer ht => ⟨fun p hp => ?_, (h.free timer ht).2⟩,
                  apart := fun p hp => ?_, covered := fun row hrow hstands => ?_,
                  made := fun w hw p hp => called_call due (h.made w hw p hp),
                  read := fun row hrow => ?_ }
  · rcases mem_call.mp hp with ⟨hp, -⟩ | rfl
    · exact (h.free timer ht).1 p hp
    · exact Ne.symm (hfree timer ht)
  · obtain hp | hp | hp | hp := mem_hand.mp hp
    · exact h.apart p (mem_hand.mpr (.inl hp))
    · exact h.apart p (mem_hand.mpr (.inr (.inl hp)))
    · rcases mem_call.mp hp with ⟨hp, -⟩ | rfl
      · exact h.apart p (mem_hand.mpr (.inr (.inr (.inl hp))))
      · exact hapart
    · exact h.apart p (mem_hand.mpr (.inr (.inr (.inr hp))))
  · obtain hcall | hcalled | hended := h.covered row hrow hstands
    · exact .inl hcall
    · refine .inr (.inl (mem_call.mpr ?_))
      by_cases hid : row.id = id
      · exact .inr (not_not.mp fun hne => hapart row hrow hid hne hstands)
      · exact .inl ⟨hcalled, hid⟩
    · exact .inr (.inr hended)
  · obtain ⟨hrknown, hcovered, hother⟩ := h.read row hrow
    exact ⟨hrknown, fun hstands => (hcovered hstands).imp_right (·.imp_left (called_call due)), hother⟩

theorem once_end {s : State ι σ} (h : Once s) {id : ι} (hfree : ∀ timer ∈ s.timers, timer.2.id ≠ id) :
    Once (s.end id) := by
  refine { h with free := fun timer ht => ⟨(h.free timer ht).1, fun hmem => ?_⟩,
                  covered := fun row hrow hstands => ?_, read := fun row hrow => ?_ }
  · rcases List.mem_cons.mp hmem with heq | hmem
    · exact hfree timer ht heq
    · exact (h.free timer ht).2 hmem
  · exact (h.covered row hrow hstands).imp_right (·.imp_right (List.mem_cons_of_mem _))
  · obtain ⟨hrknown, hcovered, hother⟩ := h.read row hrow
    refine ⟨hrknown, fun hstands => ?_, hother⟩
    exact (hcovered hstands).imp_right (·.imp_right (List.mem_cons_of_mem _))

/-! ## Rows brought to a scan -/

theorem once_scan {s : State ι σ} (h : Once s) (hsettles : s.settles = []) {scan : Scan ι σ}
    (hscan : scan.brought = []) : Once { s with scan := scan } :=
  { h with settling := .inl hsettles, read := fun _ hrow => absurd (hscan ▸ hrow) List.not_mem_nil }

section
variable (occurrences : σ → ℤ → Option ℤ)

structure Ready (now : ℤ) (s : State ι σ) (row : Row ι σ) : Prop where
  known : occurrence row ∈ s.known
  covered : Stands s.invoked s.failed (occurrence row) →
    occurrence row ∈ s.calls.map occurrence ∨ s.holds row.id = true
  other : ∀ row' ∈ s.live, row'.id = row.id → occurrence row' ≠ occurrence row →
    occurrence row' ∉ s.invoked
  free : Passed occurrences now s row ∨ ∀ call ∈ s.calls, call.id ≠ row.id

theorem arm_frame (now : ℤ) (s : State ι σ) (row : Row ι σ) :
    ((arm occurrences now s row).live = s.live ∧ (arm occurrences now s row).known = s.known) ∧
      ((arm occurrences now s row).invoked = s.invoked ∧
        (arm occurrences now s row).failed = s.failed) ∧
      (arm occurrences now s row).calls = s.calls ∧
      (arm occurrences now s row).settles = s.settles := by
  unfold arm
  split_ifs <;> exact ⟨⟨rfl, rfl⟩, ⟨rfl, rfl⟩, rfl, rfl⟩

variable {occurrences}

theorem ready_arm {now : ℤ} {s : State ι σ} {row : Row ι σ} (h : Ready occurrences now s row)
    (row' : Row ι σ) : Ready occurrences now (arm occurrences now s row') row := by
  obtain ⟨⟨hlive, hknown⟩, ⟨hinvoked, hfailed⟩, hcalls, -⟩ := arm_frame occurrences now s row'
  have hheld := holds_arm occurrences now s row' row.id
  constructor
  · rw [hknown]
    exact h.known
  · rw [hinvoked, hfailed, hcalls]
    exact fun hstands => (h.covered hstands).imp_right hheld
  · rw [hlive, hinvoked]
    exact h.other
  · rw [hcalls]
    exact h.free.imp_left (·.imp_left hheld)

theorem once_timer {s : State ι σ} (h : Once s) (hscan : s.scan.brought = [])
    (hsettles : s.settles = []) {row : Row ι σ} (hknown : occurrence row ∈ s.known)
    (hheld : ¬s.holds row.id = true) (hcalls : ∀ call ∈ s.calls, call.id ≠ row.id)
    (hdue : ¬Stands s.invoked s.failed (occurrence row)) :
    Once { s with
      timers := s.timers ++ [(s.set, row)]
      armed := s.armed ++ [⟨row.id, s.set, row.lane⟩]
      set := s.set + 1 } := by
  rw [State.holds_iff] at hheld
  push Not at hheld
  obtain ⟨hunarmed, huncalled, hunended⟩ := hheld
  have htimers : ∀ timer ∈ s.timers ++ [(s.set, row)], timer ∈ s.timers ∨ timer = (s.set, row) :=
    fun timer ht => (List.mem_append.mp ht).imp_right List.mem_singleton.mp
  refine { h with known := ⟨⟨h.known.1.1, fun timer ht => ?_⟩, h.known.2⟩,
                  armed := fun timer ht => ?_, nodup := ?_, free := fun timer ht => ?_,
                  due := fun timer ht => ?_, apart := fun p hp => ?_,
                  applied := fun w hw => absurd (hsettles ▸ hw) List.not_mem_nil,
                  read := fun r hr => absurd (hscan ▸ hr) List.not_mem_nil }
  · rcases htimers timer ht with ht | rfl
    · exact h.known.1.2 timer ht
    · exact hknown
  · rcases htimers timer ht with ht | rfl
    · obtain ⟨x, hx, hxs⟩ := h.armed timer ht
      exact ⟨x, List.mem_append_left _ hx, hxs⟩
    · exact ⟨_, List.mem_append_right _ (List.mem_singleton_self _), rfl, rfl⟩
  · have hnew : row.id ∉ s.timers.map (·.2.id) ++ s.calls.map (·.id) := by
      intro hmem
      rcases List.mem_append.mp hmem with hmem | hmem
      · obtain ⟨timer, ht, heq⟩ := List.mem_map.mp hmem
        obtain ⟨x, hx, hid, -⟩ := h.armed timer ht
        exact hunarmed x hx (hid.trans heq)
      · obtain ⟨call, hcall, heq⟩ := List.mem_map.mp hmem
        exact hcalls call hcall heq
    rw [List.map_append, List.append_assoc]
    exact List.nodup_middle.mpr (List.nodup_cons.mpr ⟨hnew, h.nodup⟩)
  · rcases htimers timer ht with ht | rfl
    · exact h.free timer ht
    · exact ⟨huncalled, hunended⟩
  · rcases htimers timer ht with ht | rfl
    · exact h.due timer ht
    · exact hdue
  · obtain ⟨timer, ht, rfl⟩ | hp := mem_hand.mp hp
    · rcases htimers timer ht with ht | rfl
      · exact h.apart _ (mem_hand.mpr (.inl ⟨timer, ht, rfl⟩))
      · intro row' hrow' hid _ hstands
        obtain hcall | hcalled | hended := h.covered row' hrow' hstands
        · obtain ⟨call, hcall, heq⟩ := List.mem_map.mp hcall
          exact hcalls call hcall ((congrArg Prod.fst heq).trans hid)
        · exact huncalled _ hcalled hid
        · have hid : row'.id = row.id := hid
          exact hunended (hid ▸ hended)
    · exact h.apart p (mem_hand.mpr (.inr hp))

theorem once_arm {now : ℤ} {s : State ι σ} (h : Once s) (hscan : s.scan.brought = [])
    (hsettles : s.settles = []) {row : Row ι σ} (hrow : Ready occurrences now s row) :
    Once (arm occurrences now s row) := by
  have hfree (hheld : ¬s.holds row.id = true) : ∀ timer ∈ s.timers, timer.2.id ≠ row.id := by
    intro timer ht heq
    obtain ⟨x, hx, hid, -⟩ := h.armed timer ht
    exact hheld ((State.holds_iff s row.id).mpr (.inl ⟨x, hx, hid.trans heq⟩))
  unfold arm
  split_ifs with hheld hends hlapsed
  · exact h
  · exact once_end h (hfree hheld)
  · refine once_call h (hfree hheld) fun row' hrow' hid hne => ?_
    exact not_stands_of_not_mem (hrow.other row' hrow' hid hne)
  · have hcalls := hrow.free.resolve_left (not_or.mpr ⟨hheld, hlapsed⟩)
    refine once_timer h hscan hsettles hrow.known hheld hcalls fun hstands => ?_
    rcases hrow.covered hstands with hcall | hheld'
    · obtain ⟨call, hcall, heq⟩ := List.mem_map.mp hcall
      exact hcalls call hcall (congrArg Prod.fst heq)
    · exact hheld hheld'

theorem once_arms {now : ℤ} {rows : List (Row ι σ)} {s : State ι σ} (h : Once s)
    (hscan : s.scan.brought = []) (hsettles : s.settles = [])
    (hrows : ∀ row ∈ rows, Ready occurrences now s row) :
    Once (rows.foldl (arm occurrences now) s) := by
  induction rows generalizing s with
  | nil => exact h
  | cons row rows ih =>
    have harm := once_arm h hscan hsettles (hrows row (List.mem_cons_self ..))
    have hscan' : (arm occurrences now s row).scan = s.scan := by
      unfold arm
      split_ifs <;> rfl
    refine ih harm (hscan' ▸ hscan) ((arm_frame occurrences now s row).2.2.2.trans hsettles)
      fun row' h' => ?_
    exact ready_arm (hrows row' (List.mem_cons_of_mem _ h')) row

theorem once_read {now : ℤ} {rows : List (Row ι σ)} {s : State ι σ} (h : Once s)
    (hscan : s.scan = .enumerated rows)
    (hok : ∀ row ∈ rows, Passed occurrences now s row ∨ ∀ call ∈ s.calls, call.id ≠ row.id) :
    Once (s.read occurrences now rows) := by
  have hsettles : s.settles = [] := h.settling.resolve_right fun hsettling =>
    nomatch hscan.symm.trans hsettling.1
  have hidle : Once { s with scan := .idle } := once_scan h hsettles rfl
  have hready : ∀ row ∈ rows, Ready occurrences now { s with scan := .idle } row := by
    intro row hrow
    obtain ⟨hknown, hcovered, hother⟩ := h.read row (hscan ▸ hrow)
    refine ⟨hknown, fun hstands => ?_, fun row' h' hid hne => (hother row' h' hid hne).1, hok row hrow⟩
    refine (hcovered hstands).imp_right fun hheld => ?_
    exact (State.holds_iff _ row.id).mpr (.inr hheld)
  have harms := once_arms hidle rfl hsettles hready
  unfold State.read
  simp only
  split_ifs
  · exact harms
  · exact once_clear harms _

end

/-! ## Calls -/

theorem once_fire {s : State ι σ} (h : Once s) {number : ℕ} {row : Row ι σ}
    (hfired : (number, row) ∈ s.timers) : Once { s with
      timers := s.timers.filter (·.1 ≠ number)
      calls := s.calls ++ [row]
      invoked := occurrence row :: s.invoked } := by
  have hsub : s.timers.filter (·.1 ≠ number) ⊆ s.timers := List.filter_sublist.subset
  obtain ⟨htimers, hcalls, hdisjoint⟩ := List.nodup_append'.mp h.nodup
  have hid : row.id ∈ s.timers.map (·.2.id) := List.mem_map.mpr ⟨_, hfired, rfl⟩
  -- nothing else in hand is of the row that is called
  have hother : ∀ timer ∈ s.timers.filter (·.1 ≠ number), timer.2.id ≠ row.id := by
    intro timer ht heq
    have hsame := List.inj_on_of_nodup_map htimers (hsub ht) hfired heq
    exact of_decide_eq_true (List.mem_filter.mp ht).2 (congrArg Prod.fst hsame)
  have huncalled : ∀ call ∈ s.calls, call.id ≠ row.id := fun call hcall heq =>
    hdisjoint hid (List.mem_map.mpr ⟨call, hcall, heq⟩)
  obtain ⟨hnotcalled, -⟩ := h.free _ hfired
  have hstands (o : ι × ℤ) (hne : o ≠ occurrence row) :
      Stands (occurrence row :: s.invoked) s.failed o → Stands s.invoked s.failed o :=
    stands_of_invoked hne
  have huntouched (o : ι × ℤ) (ho : Untouched s.invoked s.timers o) :
      Untouched (occurrence row :: s.invoked) (s.timers.filter (·.1 ≠ number)) o := by
    refine ⟨fun hmem => ?_, fun timer ht => ho.2 timer (hsub ht)⟩
    rcases List.mem_cons.mp hmem with rfl | hmem
    · exact ho.2 _ hfired rfl
    · exact ho.1 hmem
  have hmem {o : ι × ℤ} (ho : o ∈ s.calls.map occurrence) :
      o ∈ (s.calls ++ [row]).map occurrence := by
    rw [List.map_append]
    exact List.mem_append_left _ ho
  refine { h with known := ⟨⟨h.known.1.1, fun timer ht => h.known.1.2 timer (hsub ht)⟩, fun o ho => ?_⟩,
                  armed := fun timer ht => h.armed timer (hsub ht), nodup := ?_,
                  free := fun timer ht => h.free timer (hsub ht),
                  due := fun timer ht hs => ?_, apart := fun p hp row' hrow' hid' hne hs => ?_,
                  covered := fun row' hrow' hs => ?_,
                  applied := fun w hw hdone row' hrow' htakes =>
                    huntouched _ (h.applied w hw hdone row' hrow' htakes),
                  read := fun r hr => ?_, once := fun o => ?_ }
  · rcases List.mem_cons.mp ho with rfl | ho
    · exact h.known.1.2 _ hfired
    · exact h.known.2 o ho
  · rw [List.map_append, ← List.append_assoc]
    have hrest : ((s.timers.filter (·.1 ≠ number)).map (·.2.id) ++ s.calls.map (·.id)).Nodup :=
      h.nodup.sublist ((List.filter_sublist.map _).append (List.Sublist.refl _))
    refine List.nodup_append'.mpr ⟨hrest, List.nodup_singleton _, fun id hold hnew => ?_⟩
    obtain rfl := List.mem_singleton.mp hnew
    rcases List.mem_append.mp hold with hold | hold
    · obtain ⟨timer, ht, heq⟩ := List.mem_map.mp hold
      exact hother timer ht heq
    · obtain ⟨call, hcall, heq⟩ := List.mem_map.mp hold
      exact huncalled call hcall heq
  · refine h.due timer (hsub ht) (hstands _ (fun heq => ?_) hs)
    exact hother timer ht (congrArg Prod.fst heq)
  · by_cases hrow : occurrence row' = occurrence row
    · have hsame : row.id = p.1 := (congrArg Prod.fst hrow).symm.trans hid'
      obtain ⟨timer, ht, rfl⟩ | ⟨call, hcall, rfl⟩ | hp | ⟨w, hw, hp⟩ := mem_hand.mp hp
      · exact hother timer ht hsame.symm
      · rcases List.mem_append.mp hcall with hcall | hcall
        · exact huncalled call hcall hsame.symm
        · obtain rfl := List.mem_singleton.mp hcall
          exact hne hrow
      · exact hnotcalled p hp hsame.symm
      · obtain ⟨q, hq, heq⟩ := h.made w hw p hp
        exact hnotcalled q hq (heq.trans hsame.symm)
    · refine h.apart p (mem_hand.mpr ?_) row' hrow' hid' hne (hstands _ hrow hs)
      obtain ⟨timer, ht, rfl⟩ | ⟨call, hcall, rfl⟩ | hp := mem_hand.mp hp
      · exact .inl ⟨timer, hsub ht, rfl⟩
      · rcases List.mem_append.mp hcall with hcall | hcall
        · exact .inr (.inl ⟨call, hcall, rfl⟩)
        · obtain rfl := List.mem_singleton.mp hcall
          exact .inl ⟨_, hfired, rfl⟩
      · exact .inr (.inr hp)
  · by_cases hrow : occurrence row' = occurrence row
    · rw [List.map_append, hrow]
      exact .inl (List.mem_append_right _ (List.mem_singleton_self _))
    · exact (h.covered row' hrow' (hstands _ hrow hs)).imp_left hmem
  · obtain ⟨hknown, hcovered, hlater⟩ := h.read r hr
    refine ⟨hknown, fun hs => ?_, fun row' h' hid hne => huntouched _ (hlater row' h' hid hne)⟩
    by_cases hrow : occurrence r = occurrence row
    · rw [List.map_append, hrow]
      exact .inl (List.mem_append_right _ (List.mem_singleton_self _))
    · exact (hcovered (hstands _ hrow hs)).imp_left hmem
  · by_cases ho : o = occurrence row
    · subst ho
      rw [List.count_cons_self]
      exact Nat.succ_le_succ (not_lt.mp (h.due _ hfired))
    · rw [List.count_cons_of_ne (Ne.symm ho)]
      exact h.once o

theorem once_failed {s : State ι σ} (h : Once s) (o : ι × ℤ) :
    Once { s with failed := o :: s.failed } where
  known := h.known
  distinct := h.distinct
  armed := h.armed
  nodup := h.nodup
  free := h.free
  due := fun timer ht hstands => h.due timer ht (stands_of_failed hstands)
  apart := fun p hp => (h.apart p hp).imp (fun _ hrow => .inl hrow) fun _ => stands_of_failed
  covered := fun row hrow hstands => h.covered row hrow (stands_of_failed hstands)
  settling := h.settling
  made := h.made
  applied := h.applied
  read := fun row hrow => ⟨(h.read row hrow).1,
    fun hstands => (h.read row hrow).2.1 (stands_of_failed hstands), (h.read row hrow).2.2⟩
  opened := h.opened
  once := fun o' => le_trans (h.once o') (Nat.succ_le_succ List.count_le_count_cons)

theorem once_erase {s : State ι σ} (h : Once s) {i : ℕ} {row : Row ι σ} (hi : s.calls[i]? = some row)
    (hrow : Stands s.invoked s.failed (occurrence row) →
      occurrence row ∈ s.called ∨ row.id ∈ s.ended) :
    Once { s with calls := s.calls.eraseIdx i, armed := s.armed.filter (·.id ≠ row.id) } := by
  have hcall : row ∈ s.calls := List.mem_of_getElem? hi
  have hsub : (s.calls.eraseIdx i).Sublist s.calls := List.eraseIdx_sublist ..
  have hleft {o : ι × ℤ} (ho : o ∈ s.calls.map occurrence) (hne : o ≠ occurrence row) :
      o ∈ (s.calls.eraseIdx i).map occurrence := by
    obtain ⟨call, hmem, rfl⟩ := List.mem_map.mp ho
    obtain ⟨j, hj⟩ := List.mem_iff_getElem?.mp hmem
    refine List.mem_map.mpr ⟨call, List.mem_eraseIdx_iff_getElem?.mpr ⟨j, fun hij => ?_, hj⟩, rfl⟩
    subst hij
    exact hne (congrArg occurrence (Option.some.inj (hj.symm.trans hi)))
  refine { h with armed := fun timer ht => ?_,
                  nodup := h.nodup.sublist ((List.Sublist.refl _).append (hsub.map _)),
                  apart := fun p hp => h.apart p (mem_hand.mpr ?_),
                  covered := fun row' hrow' hs => ?_, read := fun r hr => ?_ }
  · obtain ⟨x, hx, hid, hnumber⟩ := h.armed timer ht
    refine ⟨x, List.mem_filter.mpr ⟨hx, decide_eq_true fun heq => ?_⟩, hid, hnumber⟩
    have htimer : row.id ∈ s.timers.map (·.2.id) :=
      List.mem_map.mpr ⟨timer, ht, hid.symm.trans heq⟩
    exact (List.nodup_append'.mp h.nodup).2.2 htimer (List.mem_map.mpr ⟨row, hcall, rfl⟩)
  · refine (mem_hand.mp hp).imp_right (·.imp_left ?_)
    exact fun ⟨call, hcall, heq⟩ => ⟨call, hsub.subset hcall, heq⟩
  · by_cases heq : occurrence row' = occurrence row
    · have hid : row'.id = row.id := congrArg Prod.fst heq
      rw [heq, hid]
      exact .inr (hrow (heq ▸ hs))
    · exact (h.covered row' hrow' hs).imp_left fun hmem => hleft hmem heq
  · obtain ⟨hknown, hcovered, hlater⟩ := h.read r hr
    refine ⟨hknown, fun hs => ?_, hlater⟩
    by_cases heq : occurrence r = occurrence row
    · have hid : r.id = row.id := congrArg Prod.fst heq
      rw [hid]
      exact .inr ((hrow (heq ▸ hs)).imp_left fun hmem => ⟨_, hmem, rfl⟩)
    · exact (hcovered hs).imp_left fun hmem => hleft hmem heq

theorem once_done {s : State ι σ} (h : Once s) {i : ℕ} {row : Row ι σ} (hi : s.calls[i]? = some row)
    (outcome : Outcome) : Once (done { s with calls := s.calls.eraseIdx i } row outcome) := by
  have hcall : row ∈ s.calls := List.mem_of_getElem? hi
  have hfree : ∀ timer ∈ s.timers, timer.2.id ≠ row.id := fun timer ht heq =>
    (List.nodup_append'.mp h.nodup).2.2 (List.mem_map.mpr ⟨timer, ht, heq⟩)
      (List.mem_map.mpr ⟨row, hcall, rfl⟩)
  have hcalled : Once (s.call row.id row.due) :=
    once_call h hfree (h.apart _ (mem_hand.mpr (.inr (.inl ⟨row, hcall, rfl⟩))))
  have hmade := once_erase hcalled hi fun _ => .inl (mem_call.mpr (.inr rfl))
  cases outcome with
  | made => exact hmade
  | refused =>
    obtain hschedule | ⟨schedule, hschedule⟩ := Option.eq_none_or_eq_some row.schedule
    · simp only [done, hschedule]
      exact hmade
    · simp only [done, hschedule]
      exact once_erase (once_end h hfree) hi fun _ => .inr (List.mem_cons_self ..)
  | failed =>
    refine once_erase (once_failed h (occurrence row)) hi fun hstands => ?_
    -- the only call of it that could stand is the one that failed
    have hlt : (occurrence row :: s.failed).count (occurrence row) <
      s.invoked.count (occurrence row) := hstands
    rw [List.count_cons_self] at hlt
    exact absurd (h.once (occurrence row)) (not_le.mpr hlt)

/-! ## Settles -/

theorem once_tick {s : State ι σ} (h : Once s) : Once s.tick := by
  unfold State.tick
  split_ifs
  · exact h
  · split
    · rename_i hidle
      have hsettles : s.settles = [] := h.settling.resolve_right fun hsettling =>
        nomatch hidle.symm.trans hsettling.1
      unfold State.settle
      simp only [if_true]
      split_ifs
      · exact once_scan h hsettles rfl
      · refine { h with apart := fun p hp => h.apart p (mem_hand.mpr ?_),
                        settling := .inr ⟨rfl, ⟨s.called, s.ended, false, true⟩, ?_, rfl⟩,
                        made := fun w hw p hp => ?_, applied := fun w hw hdone => ?_,
                        read := fun _ hrow => absurd hrow List.not_mem_nil }
        · obtain hp | hp | hp | ⟨w, hw, hp⟩ := mem_hand.mp hp
          · exact .inl hp
          · exact .inr (.inl hp)
          · exact .inr (.inr (.inl hp))
          · rw [hsettles] at hw
            obtain rfl := List.mem_singleton.mp hw
            exact .inr (.inr (.inl hp))
        · rw [hsettles]
          rfl
        · rw [hsettles] at hw
          obtain rfl := List.mem_singleton.mp hw
          exact ⟨p, hp, rfl⟩
        · rw [hsettles] at hw
          obtain rfl := List.mem_singleton.mp hw
          exact nomatch hdone
    · exact h

theorem Once.settles_eq {s : State ι σ} (h : Once s) {i : ℕ} {w : Settle ι}
    (hi : s.settles[i]? = some w) :
    (s.settles = [w] ∧ i = 0) ∧ s.scan = .settling ∧ w.scanning = true := by
  rcases h.settling with hnone | ⟨hscan, w', heq, hscanning⟩
  · rw [hnone] at hi
    exact nomatch hi
  · rw [heq] at hi
    obtain ⟨hlt, rfl⟩ := List.getElem?_eq_some_iff.mp hi
    obtain rfl : i = 0 := Nat.lt_one_iff.mp hlt
    exact ⟨⟨heq, rfl⟩, hscan, hscanning⟩

theorem once_apply {s : State ι σ} (h : Once s) {i : ℕ} {w : Settle ι}
    (hi : s.settles[i]? = some w) : Once { s with
      live := s.live.filter (!w.takes ·)
      settles := s.settles.set i { w with applied := true } } := by
  obtain ⟨⟨heq, rfl⟩, hscan, hscanning⟩ := h.settles_eq hi
  have hset : s.settles.set 0 { w with applied := true } = [{ w with applied := true }] := by
    rw [heq]
    rfl
  have hw : w ∈ s.settles := heq ▸ List.mem_singleton_self w
  rw [hset]
  have hlive := once_live h (!w.takes ·)
  refine { hlive with apart := fun p hp => hlive.apart p (mem_hand.mpr ?_),
                      settling := .inr ⟨hscan, _, rfl, hscanning⟩, made := fun w' hw' => ?_,
                      applied := fun w' hw' _ row hrow htakes => ?_ }
  · obtain hp | hp | hp | ⟨w', hw', hp⟩ := mem_hand.mp hp
    · exact .inl hp
    · exact .inr (.inl hp)
    · exact .inr (.inr (.inl hp))
    · obtain rfl := List.mem_singleton.mp hw'
      exact .inr (.inr (.inr ⟨w, hw, hp⟩))
  · obtain rfl := List.mem_singleton.mp hw'
    exact h.made w hw
  · obtain rfl := List.mem_singleton.mp hw'
    have hleft : (!w.takes row) = true := (List.mem_filter.mp hrow).2
    have htaken : w.takes row = true := htakes
    rw [htaken] at hleft
    exact nomatch hleft

theorem once_settles {s : State ι σ} (h : Once s) {scan : Scan ι σ} (hscan : scan.brought = []) :
    Once { s with settles := [], scan := scan } := by
  refine { h with apart := fun p hp => h.apart p (mem_hand.mpr ?_), settling := .inl rfl,
                  made := fun _ hw => (nomatch hw), applied := fun _ hw => (nomatch hw),
                  read := fun _ hrow => absurd (hscan ▸ hrow) List.not_mem_nil }
  obtain hp | hp | hp | ⟨_, hw, -⟩ := mem_hand.mp hp
  · exact .inl hp
  · exact .inr (.inl hp)
  · exact .inr (.inr (.inl hp))
  · exact nomatch hw

theorem once_settled {s : State ι σ} (h : Once s) {i : ℕ} {w : Settle ι}
    (hi : s.settles[i]? = some w) (hdone : w.applied = true) {scan : Scan ι σ}
    (hscan : scan.brought = []) : Once { s with
      settles := s.settles.eraseIdx i
      called := s.called.filter fun p => p.1 ∉ w.made.map (·.1)
      ended := s.ended.filter (· ∉ w.ended)
      scan := scan } := by
  obtain ⟨⟨heq, rfl⟩, -, -⟩ := h.settles_eq hi
  have herase : s.settles.eraseIdx 0 = [] := by
    rw [heq]
    rfl
  have hw : w ∈ s.settles := heq ▸ List.mem_singleton_self w
  rw [herase]
  have hidle := once_settles h hscan
  have hcalled : s.called.filter (fun p => p.1 ∉ w.made.map (·.1)) ⊆ s.called :=
    List.filter_sublist.subset
  refine { hidle with free := fun timer ht => ⟨fun p hp => (h.free timer ht).1 p (hcalled hp), fun hmem =>
                        (h.free timer ht).2 (List.mem_of_mem_filter hmem)⟩,
                      apart := fun p hp => hidle.apart p (mem_hand.mpr ?_),
                      covered := fun row hrow hs => ?_,
                      made := fun _ hw => (nomatch hw),
                      read := fun _ hrow => absurd (hscan ▸ hrow) List.not_mem_nil }
  · exact (mem_hand.mp hp).imp_right (·.imp_right (·.imp_left fun hp => hcalled hp))
  · -- what the settle took of the store is a row no call was made of since
    have hleft : ¬w.takes row = true := fun htakes =>
      not_stands_of_not_mem (h.applied w hw hdone row hrow htakes).1 hs
    have hended : row.id ∉ w.ended := fun hmem => hleft (by
      unfold Settle.takes
      split
      · exact decide_eq_true (.inr hmem)
      · exact decide_eq_true (.inl hmem))
    obtain hcall | hmem | hmem := h.covered row hrow hs
    · exact .inl hcall
    · refine .inr (.inl (List.mem_filter.mpr ⟨hmem, decide_eq_true fun hid => ?_⟩))
      obtain ⟨p, hp, hid⟩ := List.mem_map.mp hid
      by_cases hsame : occurrence row = p
      · refine hleft ?_
        unfold Settle.takes
        split
        · exact decide_eq_true (.inl (List.mem_map.mpr ⟨p, hp, hid⟩))
        · exact decide_eq_true (.inr (hsame ▸ hp))
      · exact h.apart p (mem_hand.mpr (.inr (.inr (.inr ⟨w, hw, hp⟩)))) row hrow hid.symm hsame hs
    · exact .inr (.inr (List.mem_filter.mpr ⟨hmem, decide_eq_true hended⟩))

/-! ## Steps -/

theorem mem_enumerate {regions lanes : List ℕ} {until' : ℤ} {live : List (Row ι σ)} {row : Row ι σ}
    (h : row ∈ enumerate regions lanes until' live) : row ∈ live := by
  have hsorted := List.mem_of_mem_take h
  exact List.mem_of_mem_filter ((List.mem_insertionSort _).mp hsorted)

theorem once_answer {s : State ι σ} (h : Once s) (hsettles : s.settles = []) {rows : List (Row ι σ)}
    (hrows : ∀ row ∈ rows, row ∈ s.live) : Once { s with scan := .enumerated rows } := by
  refine { h with settling := .inl hsettles, read := fun row hrow => ?_ }
  have hlive := hrows row hrow
  refine ⟨h.known.1.1 row hlive, fun hs => ?_, fun row' hrow' hid hne => ?_⟩
  · exact (h.covered row hlive hs).imp_right (·.imp_left fun hmem => ⟨_, hmem, rfl⟩)
  · exact absurd (congrArg occurrence (List.inj_on_of_nodup_map h.distinct hrow' hlive hid)) hne

/-- What a working dispatcher is brought. -/
def Act.Works : Act ι σ → Prop
  | .pause | .unpause | .close => False
  | _ => True

/-- No row comes to be armed while a call of it is on its way. -/
def Landed (occurrences : σ → ℤ → Option ℤ) (s : State ι σ) : Act ι σ → Prop
  | .rows now => ∀ row ∈ s.scan.brought, Passed occurrences now s row ∨
      ∀ call ∈ s.calls, call.id ≠ row.id
  | _ => True

instance : ∀ a : Act ι σ, Decidable a.Works
  | .pause | .unpause | .close => isFalse id
  | .insert _ | .remove _ | .assigned _ | .tick | .enumerate _ | .answer | .unread | .rows _
  | .fire _ | .done _ _ | .apply _ | .settled _ | .unsettled _ => isTrue trivial

instance (occurrences : σ → ℤ → Option ℤ) (s : State ι σ) :
    ∀ a, Decidable (Landed occurrences s a)
  | .rows now => inferInstanceAs (Decidable (∀ row ∈ s.scan.brought, Passed occurrences now s row ∨
      ∀ call ∈ s.calls, call.id ≠ row.id))
  | .insert _ | .remove _ | .assigned _ | .tick | .enumerate _ | .answer | .unread | .fire _
  | .done _ _ | .apply _ | .settled _ | .unsettled _ | .pause | .unpause | .close => isTrue trivial

variable {occurrences : σ → ℤ → Option ℤ} {regions : List ℕ} {discreteness : ℤ}

theorem once_step {s t : State ι σ} {a : Act ι σ} (h : Once s) (hworks : a.Works)
    (hok : Landed occurrences s a) (ht : step occurrences regions discreteness s a = some t) :
    Once t := by
  cases a with
  | insert row =>
    simp only [step] at ht
    split_ifs at ht with hnew
    exact Option.some.inj ht ▸ once_insert h hnew.1 hnew.2
  | remove id => exact Option.some.inj ht ▸ once_live h _
  | assigned slots =>
    obtain rfl := Option.some.inj ht
    have hslots : Once { s with slots := slots } := { h with }
    split_ifs
    · exact once_tick (once_clear hslots _)
    · exact hslots
  | tick =>
    simp only [step] at ht
    split_ifs at ht
    exact Option.some.inj ht ▸ once_tick h
  | enumerate now =>
    simp only [step] at ht
    split at ht
    · rename_i hscan
      have hsettles := h.settling.resolve_right fun hsettling => by cases hscan.symm.trans hsettling.1
      split at ht
      all_goals exact Option.some.inj ht ▸ once_scan h hsettles rfl
    · cases ht
  | answer =>
    simp only [step] at ht
    split at ht
    · rename_i hscan
      have hsettles := h.settling.resolve_right fun hsettling => by cases hscan.symm.trans hsettling.1
      exact Option.some.inj ht ▸ once_answer h hsettles fun row hrow => mem_enumerate hrow
    · cases ht
  | unread =>
    simp only [step] at ht
    split at ht
    · rename_i hscan
      have hsettles := h.settling.resolve_right fun hsettling => by cases hscan.symm.trans hsettling.1
      exact Option.some.inj ht ▸ once_scan h hsettles rfl
    · rename_i hscan
      have hsettles := h.settling.resolve_right fun hsettling => by cases hscan.symm.trans hsettling.1
      exact Option.some.inj ht ▸ once_scan h hsettles rfl
    · cases ht
  | rows now =>
    simp only [step] at ht
    split at ht
    · rename_i rows hscan
      refine Option.some.inj ht ▸ once_read h hscan fun row hrow => hok row ?_
      rw [hscan]
      exact hrow
    · cases ht
  | fire timer =>
    obtain ⟨⟨number, row⟩, hfired, rfl⟩ := Option.map_eq_some_iff.mp ht
    have hfound := List.find?_some hfired
    obtain rfl : number = timer := of_decide_eq_true hfound
    have hopened : ¬s.closing = true := by
      rw [h.opened]
      exact Bool.false_ne_true
    simp only [dispatch, if_neg hopened]
    exact once_fire h (List.mem_of_find?_eq_some hfired)
  | done i outcome =>
    obtain ⟨row, hi, rfl⟩ := Option.map_eq_some_iff.mp ht
    exact once_done h hi outcome
  | apply i =>
    simp only [step] at ht
    split at ht
    · rename_i w hi
      exact Option.some.inj ht ▸ once_apply h hi
    · cases ht
  | settled i =>
    simp only [step] at ht
    split at ht
    · rename_i made ended scanning hi
      refine Option.some.inj ht ▸ once_settled h hi rfl ?_
      have hscanning : scanning = true := (h.settles_eq hi).2.2
      rw [if_pos hscanning]
      rfl
    · cases ht
  | unsettled i =>
    obtain ⟨w, hi, rfl⟩ := Option.map_eq_some_iff.mp ht
    obtain ⟨⟨heq, rfl⟩, -, hscanning⟩ := h.settles_eq hi
    have herase : s.settles.eraseIdx 0 = [] := by
      rw [heq]
      rfl
    rw [herase, if_pos hscanning]
    exact once_settles h rfl
  | pause => exact hworks.elim
  | unpause => exact hworks.elim
  | close => exact hworks.elim

/-- A working dispatcher invokes its target for an occurrence once more than its calls of it
failed, at the most. -/
theorem occurrence_once {acts : List (Act ι σ)} {s : State ι σ} (hworks : ∀ a ∈ acts, a.Works)
    (hok : Along (step occurrences regions discreteness) (Landed occurrences) .init acts)
    (hrun : run (step occurrences regions discreteness) .init acts = some s) (o : ι × ℤ) :
    s.invoked.count o ≤ s.failed.count o + 1 := by
  have hworking : Along (step occurrences regions discreteness) (fun _ a => a.Works) .init acts :=
    along_of_mem (fun a ha _ => hworks a ha) _
  exact (run_invariant (fun _ _ _ hs hok ht => once_step hs hok.2 hok.1 ht) once_init
    (hok.and hworking) hrun).once o

/-! ## A lane lost and regained -/

def calling : List (Act ℕ Unit) := reading ++ [.rows 0, .fire 0]

def regained : List (Act ℕ Unit) :=
  calling ++ [.assigned none, .enumerate 1, .assigned (some [0]), .enumerate 2, .answer, .rows 2, .fire 1]

theorem called_twice : (∀ a ∈ regained, a.Works) ∧ ∃ s : State ℕ Unit,
    run (step (fun _ _ => none) [0] 10) .init regained = some s ∧
      s.invoked.count (1, 5) = 2 ∧ s.failed.count (1, 5) = 0 :=
  ⟨by decide, _, rfl, by decide, by decide⟩

def retried : List (Act ℕ Unit) :=
  calling ++ [.done 0 .failed, .tick, .enumerate 2, .answer, .rows 2, .fire 1]

theorem occurrence_once_retried : ∃ s : State ℕ Unit,
    run (step (fun _ _ => none) [0] 10) .init retried = some s ∧ s.invoked.count (1, 5) = 2 ∧
      s.invoked.count (1, 5) ≤ s.failed.count (1, 5) + 1 := by
  have h {s : State ℕ Unit} (hrun : run (step (fun _ _ => none) [0] 10) .init retried = some s) :=
    occurrence_once (by decide) (by decide) hrun (1, 5)
  exact ⟨_, rfl, by decide, h rfl⟩

end Toa.Cadence.Dispatcher
