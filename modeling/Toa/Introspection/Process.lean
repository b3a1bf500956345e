import Mathlib.Data.List.Basic
import Mathlib.Algebra.Order.Round
import Mathlib.Data.Rat.Floor
import Toa.Lib.Json

/-! A process of a deployment that takes halts: what hears the signals, and what it asks of the process. A
call of `quiesce`, a reading of the map and a stop being written are in flight until they return, and each
may return after what it was begun for is over. -/

namespace Toa.Introspection

/-! ## What a signal says -/

/-- The bounds of the deployment, which every process of it is given alike. -/
structure Options where
  duration : ℤ × ℤ
  quiescence : ℤ × ℤ
deriving DecidableEq

def GRACE : ℤ × ℤ := (2, 120)
def DEFAULT_GRACE : ℤ := 10
def HALT_GAP : ℤ := 3

def bound (value : Option Json) (bounds : ℤ × ℤ) (fallback : Option ℤ) : Option ℤ :=
  match value, fallback with
  | none, some fallback => some fallback
  | some (.number x), _ => some (min bounds.2 (max bounds.1 (round x)))
  | _, _ => none

/-- A halt a process is quiesced for. `serial` tells one from another that says the same. -/
structure Pending where
  serial : ℕ
  id : String
  seconds : ℤ
  quiescence : ℤ
  grace : ℤ
  since : ℚ
deriving DecidableEq

/-- `CREATED` of a signal, or the time where it says none. -/
def moment (signal : Json) (now : ℚ) : ℚ :=
  match signal.get "CREATED" with
  | some (.number created) => created
  | _ => now

def Pending.of (options : Options) (serial : ℕ) (signal : Json) (now : ℚ) : Option Pending :=
  match signal.get "id" with
  | some (.string id) => do
    let seconds ← bound (signal.get "seconds") options.duration none
    let quiescence ← bound (signal.get "quiescence") options.quiescence none
    let grace ← bound (signal.get "grace") GRACE (some DEFAULT_GRACE)
    some ⟨serial, id, seconds, quiescence, grace, moment signal now⟩
  | _ => none

def Pending.stop (pending : Pending) (id : String) (created : ℕ) : Json :=
  .object [("type", .string "stop"), ("seconds", .number pending.seconds),
    ("quiescence", .number pending.quiescence), ("signal", .string pending.id),
    ("id", .string id), ("CREATED", .number created)]

def Answers (signal : Json) (id : String) : Prop :=
  signal.get "type" = some (.string "stop") ∧ signal.get "signal" = some (.string id)

instance (signal : Json) (id : String) : Decidable (Answers signal id) :=
  inferInstanceAs (Decidable (_ ∧ _))

/-! ## The process -/

inductive Turn
  | decide
  | give
deriving DecidableEq

/-- How far a process is in a halt: it runs, it was told to stop, it has gone quiet to be taken down, it is
down, or what hears the signals is up again and the rest is being built. -/
inductive Stage
  | running
  | stopping
  | draining
  | down
  | rising
deriving DecidableEq

/-- `edges` and `signals` are whether the explorer's components were reached. -/
structure Process where
  connected : Bool := false
  stage : Stage := .running
  quiesced : Bool := false
  edges : Bool := false
  signals : Bool := false
  pending : Option Pending := none
  timer : Option (ℤ × Turn) := none
  begun : ℕ := 0
  /-- calls of `quiesce` in flight, by what each was given -/
  quiescing : List ℤ := []
  /-- readings of the map in flight, with what the map has answered -/
  checking : List (Pending × Option Bool) := []
  /-- stops being written -/
  calling : List Pending := []
deriving DecidableEq

namespace Process

def halting (s : Process) : Bool := s.stage != .running

/-- Quiet, and not on the way down: what only a decision ends. -/
def Quiet (s : Process) : Prop := s.quiesced = true ∧ s.stage = .running

instance (s : Process) : Decidable s.Quiet := inferInstanceAs (Decidable (_ ∧ _))

/-! ## What a process is asked for -/

/-- `Workload.quiesce` -/
def quiesce (s : Process) : Process :=
  if s.halting ∨ s.quiesced ∨ ¬s.connected then s else { s with quiesced := true }

/-- `Workload.cancel` -/
def cancel (s : Process) : Process :=
  if s.halting ∨ ¬s.quiesced then s else { s with quiesced := false }

def heeds (s : Process) : Bool := !s.halting && s.connected

/-- `Workload.stop` -/
def stop (s : Process) : Process := if s.heeds then { s with stage := .stopping } else s

/-! ## What hears the signals -/

def later (s : Process) (seconds : ℤ) (turn : Turn) : Process := { s with timer := some (seconds, turn) }

def begin (options : Options) (s : Process) (signal : Json) (now : ℚ) : Process :=
  if s.pending.isSome then s
  else match Pending.of options s.begun signal now with
    | none => s
    | some pending =>
      { s.quiesce with
        pending := some pending
        begun := s.begun + 1
        quiescing := s.quiescing ++ [pending.quiescence] }

def down (s : Process) : Process := { s with timer := none, pending := none }.stop

def obeys (s : Process) (signal : Json) : Option Pending :=
  s.pending.filter fun pending => signal.get "signal" = some (.string pending.id)

def signalled (options : Options) (s : Process) (signal : Json) (now : ℚ) : Process :=
  match signal.get "type" with
  | some (.string "halt") => s.begin options signal now
  | some (.string "stop") => if (s.obeys signal).isSome then s.down else s
  | _ => s

/-- A call of `quiesce` returned, or failed. -/
def quieted (s : Process) (quiescence : ℤ) : Process :=
  { s with quiescing := s.quiescing.erase quiescence }.later (quiescence + HALT_GAP) .decide

def decide (s : Process) : Process :=
  match s.pending with
  | none => s
  | some pending =>
    { s with checking := s.checking ++ [(pending, if s.edges then none else some false)] }

def give (s : Process) : Process :=
  match s.pending with
  | none => s
  | some _ => { s with pending := none }.cancel

def fire (s : Process) : Turn → Process
  | .decide => { s with timer := none }.decide
  | .give => { s with timer := none }.give

/-- The map was read for `pending`, and `still` is what came of it. -/
def checked (s : Process) (entry : Pending × Option Bool) (still : Bool) : Process :=
  let s := { s with checking := s.checking.erase entry }
  -- someone else's stop may have landed while the map was being read
  if s.pending ≠ some entry.1 then s
  else if still ∧ s.signals then { s with calling := s.calling ++ [entry.1] }
  else s.later entry.1.grace .give

def called (s : Process) (pending : Pending) (written : Bool) : Process :=
  let s := { s with calling := s.calling.erase pending }
  if written then s.down else s.later pending.grace .give

/-- Taken down: what hears the signals is closed, and what it had in flight is given up with the connections
it went through. -/
def close (s : Process) : Process := { connected := s.connected, stage := .down, quiesced := s.quiesced }

/-! ## What happens to a process -/

/-- A remote of the explorer's that a process reaches in its own time. -/
inductive Remote
  | edges
  | signals
deriving DecidableEq

inductive Event
  | signalled (signal : Json) (now : ℚ)
  | reached (remote : Remote)
  | quieted (quiescence : ℤ)
  | fired
  /-- the map answers a reading: whether it has nothing newer -/
  | answered (pending : Pending) (still : Bool)
  /-- a reading returned what the map answered, or has failed -/
  | checked (entry : Pending × Option Bool) (failed : Bool)
  | called (pending : Pending) (written : Bool)
  | connected
  | drained
  | closed
  | opened
  | resumed
  /-- the process is gone, and another is started in its place -/
  | restarted
deriving DecidableEq

def still (answer : Option Bool) (failed : Bool) : Bool := answer = some true ∧ ¬failed

/-- None, where the event cannot happen to the process. -/
def step (options : Options) (s : Process) : Event → Option Process
  | .signalled signal now => if s.stage = .down then none else some (s.signalled options signal now)
  | .reached .edges => some { s with edges := true }
  | .reached .signals => some { s with signals := true }
  | .quieted quiescence => if quiescence ∈ s.quiescing then some (s.quieted quiescence) else none
  | .fired => s.timer.map fun timer => s.fire timer.2
  | .answered pending answer =>
    if (pending, none) ∈ s.checking then
      some { s with checking := (pending, some answer) :: s.checking.erase (pending, none) }
    else none
  | .checked entry failed =>
    if entry ∈ s.checking ∧ (entry.2.isSome ∨ failed) then some (s.checked entry (still entry.2 failed))
    else none
  | .called pending written => if pending ∈ s.calling then some (s.called pending written) else none
  | .connected => if s.stage = .running then some { s with connected := true } else none
  | .drained => if s.stage = .stopping then some { s with stage := .draining, quiesced := true } else none
  | .closed => if s.stage = .draining then some s.close else none
  | .opened => if s.stage = .down then some { s with stage := .rising } else none
  | .resumed =>
    if s.stage = .rising then some { s with stage := .running, quiesced := false } else none
  | .restarted => some {}

def asks (s : Process) : Event → Option Pending
  | .checked entry failed =>
    if s.pending = some entry.1 ∧ still entry.2 failed ∧ s.signals then some entry.1 else none
  | _ => none

def stops (s : Process) : Event → Option Pending
  | .signalled signal _ =>
    if signal.get "type" = some (.string "stop") ∧ s.heeds then s.obeys signal else none
  | .called pending written => if written ∧ s.heeds then some pending else none
  | _ => none

/-! ## A process that is quiet owes a decision -/

def Owed (s : Process) (pending : Pending) : Prop :=
  s.quiescing ≠ [] ∨ s.timer ≠ none ∨ (∃ answer, (pending, answer) ∈ s.checking) ∨ s.calling ≠ []

structure Inv (s : Process) : Prop where
  connected : s.quiesced = true → s.stage = .running → s.connected = true
  pending : s.Quiet → s.pending ≠ none
  owed : ∀ pending, s.pending = some pending → s.Owed pending

def timerRank : Option (ℤ × Turn) → ℕ
  | some (_, .decide) => 4
  | some (_, .give) => 1
  | none => 0

/-- What is in flight, each by how much may come of it yet. -/
def rank (s : Process) : ℕ :=
  5 * s.quiescing.length + timerRank s.timer + 3 * s.checking.length + 2 * s.calling.length

def Up (s : Process) : Prop := s.quiesced = true → s.stage = .running → s.connected = true

theorem inv_later {s : Process} (hup : s.Up) (hpending : s.Quiet → s.pending ≠ none) (seconds : ℤ)
    (turn : Turn) : (s.later seconds turn).Inv where
  connected := hup
  pending := hpending
  owed _ _ := .inr (.inl (by simp [later]))

theorem heeds_iff {s : Process} : s.heeds = true ↔ s.stage = .running ∧ s.connected = true := by
  simp [heeds, halting]

theorem stage_stop (s : Process) : s.stop.stage = if s.heeds then .stopping else s.stage := by
  unfold stop
  split_ifs <;> rfl

theorem not_quiet_down {s : Process} (hup : s.Up) : ¬s.down.Quiet := by
  rintro ⟨hquiesced, hstage⟩
  have hquiesced : s.quiesced = true := by
    unfold down stop at hquiesced
    split_ifs at hquiesced <;> exact hquiesced
  rw [down, stage_stop] at hstage
  split_ifs at hstage with hheeds
  exact hheeds (heeds_iff.mpr ⟨hstage, hup hquiesced hstage⟩)

theorem pending_down (s : Process) : s.down.pending = none := by
  unfold down stop
  split_ifs <;> rfl

theorem inv_of_none {s : Process} (hquiet : ¬s.Quiet) (hpending : s.pending = none) : s.Inv where
  connected hquiesced hstage := absurd ⟨hquiesced, hstage⟩ hquiet
  pending h := absurd h hquiet
  owed _ h := by rw [hpending] at h; cases h

theorem inv_down {s : Process} (hup : s.Up) : s.down.Inv := inv_of_none (not_quiet_down hup) (pending_down s)

theorem not_quiet_cancel (s : Process) : ¬s.cancel.Quiet := by
  rintro ⟨hquiesced, hstage⟩
  unfold cancel at hquiesced hstage
  split_ifs at hquiesced hstage with hkept
  obtain hhalting | hworking := hkept
  · simp [halting, hstage] at hhalting
  · exact hworking hquiesced

theorem pending_cancel (s : Process) : s.cancel.pending = s.pending := by
  unfold cancel
  split_ifs <;> rfl

theorem inv_give {s : Process} (hquiet : s.Quiet → s.pending ≠ none) : s.give.Inv := by
  unfold give
  split
  next hpending => exact inv_of_none (fun hq => hquiet hq hpending) hpending
  next => exact inv_of_none (not_quiet_cancel _) (pending_cancel _)

theorem inv_decide {s : Process} (hup : s.Up) (hquiet : s.Quiet → s.pending ≠ none) : s.decide.Inv := by
  unfold decide
  split
  next hpending => exact inv_of_none (fun hq => hquiet hq hpending) hpending
  next pending hpending =>
    refine ⟨hup, hquiet, fun other hother => ?_⟩
    obtain rfl : pending = other := Option.some.inj (hpending.symm.trans hother)
    exact .inr (.inr (.inl ⟨_, List.mem_append_right _ (List.mem_singleton_self _)⟩))

theorem inv_fire {s : Process} (h : s.Inv) (turn : Turn) : (s.fire turn).Inv := by
  cases turn with
  | decide => exact inv_decide h.connected h.pending
  | give => exact inv_give h.pending

theorem inv_quieted {s : Process} (h : s.Inv) (quiescence : ℤ) : (s.quieted quiescence).Inv := by
  refine inv_later ?_ ?_ _ _
  · exact h.connected
  · exact h.pending

theorem up_quiesce (s : Process) (h : s.Up) : s.quiesce.Up := by
  unfold quiesce
  split_ifs with hkept
  · exact h
  · intro _ _
    by_contra hdown
    exact hkept (.inr (.inr hdown))

theorem inv_begin {s : Process} (h : s.Inv) (options : Options) (signal : Json) (now : ℚ) :
    (s.begin options signal now).Inv := by
  unfold begin
  split
  · exact h
  · split
    · exact h
    · refine ⟨up_quiesce s h.connected, fun _ => Option.some_ne_none _, fun _ _ => .inl ?_⟩
      exact List.append_ne_nil_of_right_ne_nil _ (List.cons_ne_nil _ _)

theorem inv_signalled {s : Process} (h : s.Inv) (options : Options) (signal : Json) (now : ℚ) :
    (s.signalled options signal now).Inv := by
  unfold signalled
  split
  · exact inv_begin h options signal now
  · split
    · exact inv_down h.connected
    · exact h
  · exact h

theorem inv_checked {s : Process} (h : s.Inv) (entry : Pending × Option Bool) (still : Bool) :
    (s.checked entry still).Inv := by
  unfold checked
  dsimp only
  split
  next hother =>
    refine ⟨h.connected, h.pending, fun pending hpending => ?_⟩
    obtain hquiescing | htimer | ⟨answer, hchecking⟩ | hcalling := h.owed pending hpending
    · exact .inl hquiescing
    · exact .inr (.inl htimer)
    · have hne : (pending, answer) ≠ entry := by
        rintro rfl
        exact hother hpending
      exact .inr (.inr (.inl ⟨answer, (List.mem_erase_of_ne hne).mpr hchecking⟩))
    · exact .inr (.inr (.inr hcalling))
  next =>
    split
    · exact ⟨h.connected, h.pending, fun _ _ => .inr (.inr (.inr (by simp)))⟩
    · refine inv_later ?_ ?_ _ _
      · exact h.connected
      · exact h.pending

theorem inv_called {s : Process} (h : s.Inv) (pending : Pending) (written : Bool) :
    (s.called pending written).Inv := by
  unfold called
  dsimp only
  split
  · refine inv_down ?_
    exact h.connected
  · refine inv_later ?_ ?_ _ _
    · exact h.connected
    · exact h.pending

theorem inv_step {options : Options} {s t : Process} {e : Event} (h : s.Inv)
    (hstep : s.step options e = some t) : t.Inv := by
  cases e with
  | signalled signal now =>
    simp only [step, Option.ite_none_left_eq_some] at hstep
    obtain ⟨-, hstep⟩ := hstep
    exact Option.some.inj hstep ▸ inv_signalled h options signal now
  | reached remote => cases remote <;> exact Option.some.inj hstep ▸ ⟨h.connected, h.pending, h.owed⟩
  | quieted quiescence =>
    obtain ⟨-, hstep⟩ := Option.ite_none_right_eq_some.mp hstep
    exact Option.some.inj hstep ▸ inv_quieted h quiescence
  | fired =>
    obtain ⟨timer, -, rfl⟩ := Option.map_eq_some_iff.mp hstep
    exact inv_fire h timer.2
  | answered pending answer =>
    obtain ⟨hmem, hstep⟩ := Option.ite_none_right_eq_some.mp hstep
    obtain rfl := Option.some.inj hstep
    refine ⟨h.connected, h.pending, fun other hother => ?_⟩
    obtain hquiescing | htimer | ⟨answer', hchecking⟩ | hcalling := h.owed other hother
    · exact .inl hquiescing
    · exact .inr (.inl htimer)
    · by_cases hsame : (other, answer') = (pending, none)
      · obtain ⟨rfl, -⟩ := Prod.mk.inj hsame
        exact .inr (.inr (.inl ⟨some answer, List.mem_cons_self ..⟩))
      · exact .inr (.inr (.inl ⟨answer', List.mem_cons_of_mem _ ((List.mem_erase_of_ne hsame).mpr hchecking)⟩))
    · exact .inr (.inr (.inr hcalling))
  | checked entry failed =>
    obtain ⟨-, hstep⟩ := Option.ite_none_right_eq_some.mp hstep
    exact Option.some.inj hstep ▸ inv_checked h entry _
  | called pending written =>
    obtain ⟨-, hstep⟩ := Option.ite_none_right_eq_some.mp hstep
    exact Option.some.inj hstep ▸ inv_called h pending written
  | connected =>
    obtain ⟨-, hstep⟩ := Option.ite_none_right_eq_some.mp hstep
    exact Option.some.inj hstep ▸ ⟨fun _ _ => rfl, h.pending, h.owed⟩
  | drained =>
    obtain ⟨-, hstep⟩ := Option.ite_none_right_eq_some.mp hstep
    exact Option.some.inj hstep ▸ ⟨fun _ h => (by cases h), fun h => (by cases h.2), h.owed⟩
  | closed =>
    obtain ⟨-, hstep⟩ := Option.ite_none_right_eq_some.mp hstep
    exact Option.some.inj hstep ▸ inv_of_none (fun h => (by cases h.2)) rfl
  | opened =>
    obtain ⟨-, hstep⟩ := Option.ite_none_right_eq_some.mp hstep
    exact Option.some.inj hstep ▸ ⟨fun _ h => (by cases h), fun h => (by cases h.2), h.owed⟩
  | resumed =>
    obtain ⟨-, hstep⟩ := Option.ite_none_right_eq_some.mp hstep
    exact Option.some.inj hstep ▸ ⟨fun h => (by cases h), fun h => (by cases h.1), h.owed⟩
  | restarted => exact Option.some.inj hstep ▸ inv_of_none (fun h => (by cases h.1)) rfl

/-! ## What a quiet process does ends its quiet -/

/-- What comes of the process's own timers and deadlines, and of nothing else. -/
def Event.own : Event → Bool
  | .quieted _ | .fired | .checked .. | .called .. => true
  | _ => false

theorem length_erase_add {α : Type*} [BEq α] [LawfulBEq α] {a : α} {l : List α} (h : a ∈ l) :
    (l.erase a).length + 1 = l.length := by
  rw [List.length_erase_of_mem h]
  have hpos := List.length_pos_of_mem h
  omega

theorem rank_quieted {s : Process} {quiescence : ℤ} (h : quiescence ∈ s.quiescing) :
    (s.quieted quiescence).rank < s.rank := by
  have hlength := length_erase_add h
  simp only [rank, quieted, later, timerRank]
  omega

theorem rank_fire {s : Process} {timer : ℤ × Turn} (htimer : s.timer = some timer)
    (hquiet : (s.fire timer.2).Quiet) (hpending : s.pending ≠ none) : (s.fire timer.2).rank < s.rank := by
  obtain ⟨seconds, turn⟩ := timer
  obtain ⟨pending, hpending⟩ := Option.ne_none_iff_exists'.mp hpending
  cases turn with
  | decide =>
    simp only [fire, decide, rank, hpending, htimer, timerRank, List.length_append, List.length_singleton]
    omega
  | give =>
    simp only [fire, give, hpending] at hquiet
    exact absurd hquiet (not_quiet_cancel _)

theorem rank_checked {s : Process} {entry : Pending × Option Bool} (h : entry ∈ s.checking) (still : Bool) :
    (s.checked entry still).rank < s.rank := by
  have hlength := length_erase_add h
  unfold checked
  dsimp only
  split_ifs
  · simp only [rank]
    omega
  · simp only [rank, List.length_append, List.length_singleton]
    omega
  · simp only [rank, later, timerRank]
    omega

theorem rank_called {s : Process} {pending : Pending} {written : Bool} (h : pending ∈ s.calling) (hup : s.Up)
    (hquiet : (s.called pending written).Quiet) : (s.called pending written).rank < s.rank := by
  have hlength := length_erase_add h
  unfold called at hquiet ⊢
  dsimp only at hquiet ⊢
  split at hquiet
  · refine absurd hquiet (not_quiet_down ?_)
    exact hup
  next hwritten =>
    rw [if_neg hwritten]
    simp only [rank, later, timerRank]
    omega

theorem signalled_of_quiet {s : Process} (h : s.Inv) (hquiet : s.Quiet) {options : Options} {signal : Json}
    {now : ℚ} (hafter : (s.signalled options signal now).Quiet) : s.signalled options signal now = s := by
  unfold signalled at hafter ⊢
  split
  · exact if_pos (Option.isSome_iff_ne_none.mpr (h.pending hquiet))
  next hstop =>
    simp only [hstop] at hafter
    split_ifs at hafter ⊢
    · exact absurd hafter (not_quiet_down h.connected)
    · rfl
  · rfl

theorem rank_step {options : Options} {s t : Process} {e : Event} (h : s.Inv) (hs : s.Quiet) (ht : t.Quiet)
    (hstep : s.step options e = some t) : t.rank + e.own.toNat ≤ s.rank := by
  cases e with
  | signalled signal now =>
    simp only [step, Option.ite_none_left_eq_some] at hstep
    obtain ⟨-, hstep⟩ := hstep
    obtain rfl := Option.some.inj hstep
    exact (congrArg rank (signalled_of_quiet h hs ht)).le
  | reached remote => cases remote <;> exact Option.some.inj hstep ▸ le_rfl
  | quieted quiescence =>
    obtain ⟨hmem, hstep⟩ := Option.ite_none_right_eq_some.mp hstep
    exact Option.some.inj hstep ▸ rank_quieted hmem
  | fired =>
    obtain ⟨timer, htimer, rfl⟩ := Option.map_eq_some_iff.mp hstep
    exact rank_fire htimer ht (h.pending hs)
  | answered pending answer =>
    obtain ⟨hmem, hstep⟩ := Option.ite_none_right_eq_some.mp hstep
    obtain rfl := Option.some.inj hstep
    have hlength := length_erase_add hmem
    simp only [rank, List.length_cons, hlength, Event.own, Bool.toNat_false, add_zero, le_refl]
  | checked entry failed =>
    obtain ⟨⟨hmem, -⟩, hstep⟩ := Option.ite_none_right_eq_some.mp hstep
    exact Option.some.inj hstep ▸ rank_checked hmem _
  | called pending written =>
    obtain ⟨hmem, hstep⟩ := Option.ite_none_right_eq_some.mp hstep
    obtain rfl := Option.some.inj hstep
    exact rank_called hmem h.connected ht
  | connected =>
    obtain ⟨-, hstep⟩ := Option.ite_none_right_eq_some.mp hstep
    exact Option.some.inj hstep ▸ le_rfl
  | drained =>
    obtain ⟨-, hstep⟩ := Option.ite_none_right_eq_some.mp hstep
    obtain rfl := Option.some.inj hstep
    cases ht.2
  | closed =>
    obtain ⟨-, hstep⟩ := Option.ite_none_right_eq_some.mp hstep
    obtain rfl := Option.some.inj hstep
    cases ht.2
  | opened =>
    obtain ⟨-, hstep⟩ := Option.ite_none_right_eq_some.mp hstep
    obtain rfl := Option.some.inj hstep
    cases ht.2
  | resumed =>
    obtain ⟨-, hstep⟩ := Option.ite_none_right_eq_some.mp hstep
    obtain rfl := Option.some.inj hstep
    cases ht.1
  | restarted =>
    obtain rfl := Option.some.inj hstep
    cases ht.1

theorem own_of_quiet (options : Options) {s : Process} (h : s.Inv) (hquiet : s.Quiet) :
    ∃ e : Event, e.own = true ∧ (∀ pending, e ≠ .called pending true) ∧ (s.step options e).isSome = true := by
  obtain ⟨pending, hpending⟩ := Option.ne_none_iff_exists'.mp (h.pending hquiet)
  obtain hquiescing | htimer | ⟨answer, hchecking⟩ | hcalling := h.owed pending hpending
  · obtain ⟨quiescence, hmem⟩ := List.exists_mem_of_ne_nil _ hquiescing
    refine ⟨.quieted quiescence, rfl, fun _ => Event.noConfusion, ?_⟩
    rw [step, if_pos hmem, Option.isSome_some]
  · refine ⟨.fired, rfl, fun _ => Event.noConfusion, ?_⟩
    rw [step, Option.isSome_map]
    exact Option.isSome_iff_ne_none.mpr htimer
  · refine ⟨.checked (pending, answer) true, rfl, fun _ => Event.noConfusion, ?_⟩
    rw [step, if_pos ⟨hchecking, .inr rfl⟩, Option.isSome_some]
  · obtain ⟨called, hmem⟩ := List.exists_mem_of_ne_nil _ hcalling
    refine ⟨.called called false, rfl, fun _ h => ?_, ?_⟩
    · cases h
    · rw [step, if_pos hmem, Option.isSome_some]

theorem rank_pos {s : Process} (h : s.Inv) (hquiet : s.Quiet) : 0 < s.rank := by
  obtain ⟨pending, hpending⟩ := Option.ne_none_iff_exists'.mp (h.pending hquiet)
  unfold rank
  obtain hquiescing | htimer | ⟨answer, hchecking⟩ | hcalling := h.owed pending hpending
  · have hlength := List.length_pos_iff.mpr hquiescing
    omega
  · obtain ⟨⟨seconds, turn⟩, htimer⟩ := Option.ne_none_iff_exists'.mp htimer
    cases turn <;> simp only [htimer, timerRank] <;> omega
  · have hlength := List.length_pos_of_mem hchecking
    omega
  · have hlength := List.length_pos_iff.mpr hcalling
    omega

/-! ## What a process has in hand it took from a signal -/

def Holds (s : Process) (pending : Pending) : Prop :=
  s.pending = some pending ∨ (∃ answer, (pending, answer) ∈ s.checking) ∨ pending ∈ s.calling

/-- What one has in hand the other has, and what one has read as still. -/
structure Within (t s : Process) : Prop where
  holds : ∀ pending, t.Holds pending → s.Holds pending
  still : ∀ pending, (pending, some true) ∈ t.checking → (pending, some true) ∈ s.checking

theorem Within.trans {s t u : Process} (h : Within u t) (h' : Within t s) : Within u s where
  holds pending hu := h'.holds pending (h.holds pending hu)
  still pending hu := h'.still pending (h.still pending hu)

theorem within_of_subset {s t : Process} (hpending : t.pending = s.pending ∨ t.pending = none)
    (hchecking : t.checking ⊆ s.checking) (hcalling : t.calling ⊆ s.calling) : Within t s where
  holds pending h := by
    obtain hheld | ⟨answer, hread⟩ | hcalled := h
    · obtain heq | hnone := hpending
      · exact .inl (heq ▸ hheld)
      · rw [hnone] at hheld
        cases hheld
    · exact .inr (.inl ⟨answer, hchecking hread⟩)
    · exact .inr (.inr (hcalling hcalled))
  still _ h := hchecking h

theorem Within.refl (s : Process) : Within s s :=
  within_of_subset (.inl rfl) (List.Subset.refl _) (List.Subset.refl _)

theorem within_quiesce (s : Process) : Within s.quiesce s := by
  unfold quiesce
  split_ifs
  · exact .refl s
  · exact within_of_subset (.inl rfl) (List.Subset.refl _) (List.Subset.refl _)

theorem within_down (s : Process) : Within s.down s := by
  refine within_of_subset (.inr (pending_down s)) ?_ ?_ <;>
    · unfold down stop
      split_ifs <;> exact List.Subset.refl _

theorem within_fire (s : Process) (turn : Turn) : Within (s.fire turn) s := by
  cases turn with
  | decide =>
    unfold fire decide
    dsimp only
    split
    · exact within_of_subset (.inl rfl) (List.Subset.refl _) (List.Subset.refl _)
    next pending hpending =>
      constructor
      · rintro other (hheld | ⟨answer, hread⟩ | hcalled)
        · exact .inl hheld
        · obtain hold | hnew := List.mem_append.mp hread
          · exact .inr (.inl ⟨answer, hold⟩)
          · obtain ⟨rfl, -⟩ := Prod.mk.inj (List.mem_singleton.mp hnew)
            exact .inl hpending
        · exact .inr (.inr hcalled)
      · intro other hread
        obtain hold | hnew := List.mem_append.mp hread
        · exact hold
        · obtain ⟨-, hanswer⟩ := Prod.mk.inj (List.mem_singleton.mp hnew)
          split_ifs at hanswer
          cases hanswer
  | give =>
    unfold fire give
    dsimp only
    split
    · exact within_of_subset (.inl rfl) (List.Subset.refl _) (List.Subset.refl _)
    · refine within_of_subset (.inr (pending_cancel _)) ?_ ?_ <;>
        · unfold cancel
          split_ifs <;> exact List.Subset.refl _

theorem within_checked (s : Process) (entry : Pending × Option Bool) (still : Bool) :
    Within (s.checked entry still) s := by
  unfold checked
  dsimp only
  split
  · exact within_of_subset (.inl rfl) List.erase_subset (List.Subset.refl _)
  next hpending =>
    split
    · constructor
      · rintro other (hheld | ⟨answer, hread⟩ | hcalled)
        · exact .inl hheld
        · exact .inr (.inl ⟨answer, List.mem_of_mem_erase hread⟩)
        · obtain hold | hnew := List.mem_append.mp hcalled
          · exact .inr (.inr hold)
          · obtain rfl := List.mem_singleton.mp hnew
            exact .inl (not_not.mp hpending)
      · exact fun _ hread => List.mem_of_mem_erase hread
    · exact within_of_subset (.inl rfl) List.erase_subset (List.Subset.refl _)

theorem within_called (s : Process) (pending : Pending) (written : Bool) :
    Within (s.called pending written) s := by
  unfold called
  dsimp only
  split
  · refine (within_down _).trans ?_
    exact within_of_subset (.inl rfl) (List.Subset.refl _) List.erase_subset
  · exact within_of_subset (.inl rfl) (List.Subset.refl _) List.erase_subset

theorem within_step {options : Options} {s t : Process} {e : Event} (hstep : s.step options e = some t) :
    Within t s ∨ (∃ signal now, e = .signalled signal now) ∨ ∃ pending answer, e = .answered pending answer := by
  cases e with
  | signalled signal now => exact .inr (.inl ⟨signal, now, rfl⟩)
  | answered pending answer => exact .inr (.inr ⟨pending, answer, rfl⟩)
  | reached remote =>
    refine .inl ?_
    cases remote <;> obtain rfl := Option.some.inj hstep <;>
      exact within_of_subset (.inl rfl) (List.Subset.refl _) (List.Subset.refl _)
  | quieted quiescence =>
    obtain ⟨-, hstep⟩ := Option.ite_none_right_eq_some.mp hstep
    obtain rfl := Option.some.inj hstep
    exact .inl (within_of_subset (.inl rfl) (List.Subset.refl _) (List.Subset.refl _))
  | fired =>
    obtain ⟨timer, -, rfl⟩ := Option.map_eq_some_iff.mp hstep
    exact .inl (within_fire s timer.2)
  | checked entry failed =>
    obtain ⟨-, hstep⟩ := Option.ite_none_right_eq_some.mp hstep
    obtain rfl := Option.some.inj hstep
    exact .inl (within_checked s entry _)
  | called pending written =>
    obtain ⟨-, hstep⟩ := Option.ite_none_right_eq_some.mp hstep
    obtain rfl := Option.some.inj hstep
    exact .inl (within_called s pending written)
  | connected | drained | opened | resumed =>
    obtain ⟨-, hstep⟩ := Option.ite_none_right_eq_some.mp hstep
    obtain rfl := Option.some.inj hstep
    exact .inl (within_of_subset (.inl rfl) (List.Subset.refl _) (List.Subset.refl _))
  | closed =>
    obtain ⟨-, hstep⟩ := Option.ite_none_right_eq_some.mp hstep
    obtain rfl := Option.some.inj hstep
    exact .inl (within_of_subset (.inr rfl) (List.nil_subset _) (List.nil_subset _))
  | restarted =>
    obtain rfl := Option.some.inj hstep
    exact .inl (within_of_subset (.inr rfl) (List.nil_subset _) (List.nil_subset _))

theorem holds_begin {options : Options} {s : Process} {signal : Json} {now : ℚ} {pending : Pending}
    (h : (s.begin options signal now).Holds pending) :
    s.Holds pending ∨ Pending.of options s.begun signal now = some pending := by
  unfold begin at h
  split at h
  · exact .inl h
  · split at h
    · exact .inl h
    next begun hbegun =>
      obtain hheld | hread | hcalled := h
      · exact .inr (hbegun.trans hheld)
      · exact .inl ((within_quiesce s).holds pending (.inr (.inl hread)))
      · exact .inl ((within_quiesce s).holds pending (.inr (.inr hcalled)))

theorem checking_begin (options : Options) (s : Process) (signal : Json) (now : ℚ) :
    (s.begin options signal now).checking = s.checking := by
  unfold begin quiesce
  split
  · rfl
  · split
    · rfl
    · split <;> rfl

theorem holds_step {options : Options} {s t : Process} {e : Event} (hstep : s.step options e = some t)
    {pending : Pending} (h : t.Holds pending) :
    s.Holds pending ∨ ∃ signal now, e = .signalled signal now ∧
      signal.get "type" = some (.string "halt") ∧ Pending.of options s.begun signal now = some pending := by
  obtain hwithin | ⟨signal, now, rfl⟩ | ⟨read, answer, rfl⟩ := within_step hstep
  · exact .inl (hwithin.holds pending h)
  · simp only [step, Option.ite_none_left_eq_some] at hstep
    obtain ⟨-, hstep⟩ := hstep
    obtain rfl := Option.some.inj hstep
    unfold signalled at h
    split at h
    next hhalt => exact (holds_begin h).imp_right fun hbegun => ⟨signal, now, rfl, hhalt, hbegun⟩
    · split_ifs at h
      · exact .inl ((within_down s).holds pending h)
      · exact .inl h
    · exact .inl h
  · obtain ⟨hmem, hstep⟩ := Option.ite_none_right_eq_some.mp hstep
    obtain rfl := Option.some.inj hstep
    obtain hheld | ⟨other, hread⟩ | hcalled := h
    · exact .inl (.inl hheld)
    · obtain hnew | hold := List.mem_cons.mp hread
      · obtain ⟨rfl, -⟩ := Prod.mk.inj hnew
        exact .inl (.inr (.inl ⟨none, hmem⟩))
      · exact .inl (.inr (.inl ⟨other, List.mem_of_mem_erase hold⟩))
    · exact .inl (.inr (.inr hcalled))

theorem still_step {options : Options} {s t : Process} {e : Event} (hstep : s.step options e = some t)
    {pending : Pending} (h : (pending, some true) ∈ t.checking) :
    (pending, some true) ∈ s.checking ∨ e = .answered pending true ∧ s.Holds pending := by
  obtain hwithin | ⟨signal, now, rfl⟩ | ⟨read, answer, rfl⟩ := within_step hstep
  · exact .inl (hwithin.still pending h)
  · simp only [step, Option.ite_none_left_eq_some] at hstep
    obtain ⟨-, hstep⟩ := hstep
    obtain rfl := Option.some.inj hstep
    unfold signalled at h
    split at h
    · exact .inl (checking_begin options s signal now ▸ h)
    · split_ifs at h
      · exact .inl ((within_down s).still pending h)
      · exact .inl h
    · exact .inl h
  · obtain ⟨hmem, hstep⟩ := Option.ite_none_right_eq_some.mp hstep
    obtain rfl := Option.some.inj hstep
    obtain hnew | hold := List.mem_cons.mp h
    · obtain ⟨rfl, hanswer⟩ := Prod.mk.inj hnew
      obtain rfl := Option.some.inj hanswer
      exact .inr ⟨rfl, .inr (.inl ⟨none, hmem⟩)⟩
    · exact .inl (List.mem_of_mem_erase hold)

theorem still_of_asks {s : Process} {e : Event} {options : Options} {t : Process} {pending : Pending}
    (h : s.asks e = some pending) (hstep : s.step options e = some t) :
    (pending, some true) ∈ s.checking ∧ s.Holds pending := by
  cases e with
  | checked entry failed =>
    obtain ⟨⟨hheld, hstill, -⟩, rfl⟩ := Option.ite_none_right_eq_some.mp h |>.imp_right Option.some.inj
    obtain ⟨⟨hmem, -⟩, -⟩ := Option.ite_none_right_eq_some.mp hstep
    have hanswer : entry.2 = some true := (of_decide_eq_true hstill).1
    exact ⟨hanswer ▸ hmem, .inl hheld⟩
  | _ => cases h

theorem holds_of_stops {s : Process} {e : Event} {options : Options} {t : Process} {pending : Pending}
    (h : s.stops e = some pending) (hstep : s.step options e = some t) : s.Holds pending := by
  cases e with
  | signalled signal now =>
    obtain ⟨-, hobeys⟩ := Option.ite_none_right_eq_some.mp h
    exact .inl (Option.filter_eq_some_iff.mp hobeys).1
  | called read written =>
    obtain ⟨-, rfl⟩ := Option.ite_none_right_eq_some.mp h |>.imp_right Option.some.inj
    obtain ⟨hmem, -⟩ := Option.ite_none_right_eq_some.mp hstep
    exact .inr (.inr hmem)
  | _ => cases h

end Process

end Toa.Introspection
