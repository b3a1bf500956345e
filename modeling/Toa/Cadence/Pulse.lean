import Toa.Lib.Rate
import Toa.Lib.Run

/-! A pulse: the interval of its cycle it is, when that gives way to the next one, and the calls that
replicas make of it as their timers wake. -/

namespace Toa.Cadence.Pulses
open Run

/-- What a manifest states of a pulse, and is refused where it states more intervals than seconds. -/
structure Definition where
  cycle : ℕ
  intervals : ℕ
  positive : 0 < intervals
  fits : intervals ≤ cycle

namespace Definition
variable (d : Definition)

def ms : ℕ := d.cycle * 1000

abbrev n : ℕ := d.intervals

def ordinal (now : ℕ) : ℕ := now * d.n / d.ms

def index (now : ℕ) : ℕ := d.ordinal now % d.n

def boundary (now : ℕ) : ℕ := ((d.ordinal now + 1) * d.ms + d.n - 1) / d.n

theorem n_le_ms : d.n ≤ d.ms := d.fits.trans (Nat.le_mul_of_pos_right _ (by decide))

theorem ms_pos : 0 < d.ms := d.positive.trans_le d.n_le_ms

theorem ordinal_eq_rate : d.ordinal = Rate.rate d.n d.ms := rfl

theorem boundary_eq_onset (now : ℕ) : d.boundary now = Rate.onset d.n d.ms (d.ordinal now + 1) := rfl

theorem ordinal_mono : Monotone d.ordinal := Rate.rate_mono d.positive d.ms_pos

theorem lt_boundary (now : ℕ) : now < d.boundary now := Rate.lt_onset_succ d.positive d.ms_pos now

/-- No number that is computed leaves the range the clock and one cycle are in. -/
theorem boundary_le (now : ℕ) : d.boundary now ≤ now + d.ms := by
  rw [boundary_eq_onset, Rate.onset_le_iff d.positive d.ms_pos, ← ordinal_eq_rate]
  calc d.ordinal now + 1 ≤ (now * d.n + d.n * d.ms) / d.ms := by
        rw [Nat.add_mul_div_right _ _ d.ms_pos]
        exact Nat.add_le_add_left d.positive _
    _ = d.ordinal (now + d.ms) := by
        rw [ordinal, Nat.add_mul, Nat.mul_comm d.n d.ms]

end Definition

def MAX_DELAY : ℕ := 2 ^ 31 - 1

/-- A pulse of one process. Its `timer` is when it is set to wake, and `firing` whether a call of its
is in flight. -/
structure Pulse where
  fired : ℕ := 0
  timer : Option ℕ := none
  firing : Bool := false
  closing : Bool := false
  quiesced : Bool := false

/-- A call, with the ordinal it is for and when it was made; its input is `n` and `i`. -/
structure Call where
  ordinal : ℕ
  made : ℕ
  n : ℕ
  i : ℕ

/-- What an `atom` says: the slots that are a replica's, or that it owns nothing. -/
abbrev Atom := ℕ → Option (List ℕ)

def owned (atom : Option Atom) (n i : ℕ) : Bool :=
  match atom with
  | none => true
  | some slots =>
    match slots n with
    | none => false
    | some owned => owned.contains i

namespace Pulse
variable (d : Definition) (atom : Option Atom)

def arm (p : Pulse) (now : ℕ) : Pulse :=
  { p with timer := some (now + min (d.boundary now - now) MAX_DELAY) }

/-- The clock is read once for the interval and once for the timer, here and below. -/
def «open» (p : Pulse) (now armed : ℕ) : Pulse := arm d { p with fired := d.ordinal now } armed

def close (p : Pulse) : Pulse := { p with closing := true, timer := none }

def pause (p : Pulse) : Pulse := { p with quiesced := true, timer := none }

def unpause (p : Pulse) (now armed : ℕ) : Pulse :=
  arm d { p with quiesced := false, fired := d.ordinal now } armed

def fire (p : Pulse) (ordinal now : ℕ) : Pulse × Option Call :=
  if p.firing then (p, none)
  else if owned atom d.n (ordinal % d.n) then
    ({ p with firing := true }, some ⟨ordinal, now, d.n, ordinal % d.n⟩)
  else (p, none)

def tick (p : Pulse) (now armed : ℕ) : Pulse × Option Call :=
  if p.closing || p.quiesced then (p, none)
  else
    -- a wake-up ahead of its boundary, or short of it, is of the interval already handled
    let handled := if d.ordinal now ≠ p.fired then
        fire d atom { p with fired := d.ordinal now } (d.ordinal now) now
      else (p, none)
    (handled.1.arm d armed, handled.2)

def working (p : Pulse) : Bool := !p.closing && !p.quiesced

end Pulse

/-! ## Replicas -/

/-- A replica, with the pulse of its process where it has one running, the last its clock was read
as, and the calls it made. -/
structure Replica where
  pulse : Option Pulse := none
  clock : ℕ := 0
  calls : List Call := []

/-- `start` is a process that starts, also in the place of one that was there, and `settled` the end
of a call. -/
inductive Act
  | start
  | wake
  | settled
  | pause
  | unpause
  | close
deriving DecidableEq

structure Event where
  act : Act
  now : ℕ
  armed : ℕ

namespace Replica
variable (d : Definition) (atom : Option Atom)

def working (s : Replica) : Bool := s.pulse.any Pulse.working

def running (s : Replica) : Bool := s.pulse.any Pulse.firing

def apply (s : Replica) (e : Event) : Replica :=
  match e.act, s.pulse with
  | .start, _ => { s with pulse := some (Pulse.open d {} e.now e.armed) }
  | .wake, some p =>
    { s with
      pulse := some (p.tick d atom e.now e.armed).1
      calls := s.calls ++ (p.tick d atom e.now e.armed).2.toList }
  | .settled, some p => { s with pulse := some { p with firing := false } }
  | .pause, some p => { s with pulse := some p.pause }
  | .unpause, some p => { s with pulse := some (p.unpause d e.now e.armed) }
  | .close, some p => { s with pulse := some p.close }
  | .wake, none => s
  | .settled, none => s
  | .pause, none => s
  | .unpause, none => s
  | .close, none => s

/-- The clock of a replica is not read as less than it was. -/
def step (s : Replica) (e : Event) : Option Replica :=
  if s.clock ≤ e.now ∧ e.now ≤ e.armed then some { s.apply d atom e with clock := e.armed } else none

end Replica

variable {ρ : Type*} [DecidableEq ρ]

def replicas (d : Definition) (atom : ρ → Option Atom) : (ρ → Replica) → ρ × Event → Option (ρ → Replica) :=
  each fun r => Replica.step d (atom r)

def Apart (d : Definition) (atom : ρ → Option Atom) : Prop :=
  ∀ r r' i, owned (atom r) d.n i = true → owned (atom r') d.n i = true → r = r'

def none_started : ρ → Replica := fun _ => {}

/-- `r` wakes at `now`: it owns the interval, was working when it began and has no call running. What
happened is what did `before` the interval began for it and what did `since`. -/
structure Awake (d : Definition) (atom : ρ → Option Atom) (before since : List (ρ × Event)) (r : ρ)
    (now : ℕ) : Prop where
  owns : owned (atom r) d.n (d.index now) = true
  earlier : ∀ e ∈ its r before, d.ordinal e.now < d.ordinal now
  within : ∀ e ∈ its r since, d.ordinal e.now = d.ordinal now
  working : ∀ s, run (replicas d atom) none_started before = some s → (s r).working = true
  idle : ∀ s, run (replicas d atom) none_started (before ++ since) = some s → (s r).running = false

namespace Pulse
variable {d : Definition} {atom : Option Atom}

theorem tick_some {p : Pulse} {now armed : ℕ} {call : Call}
    (h : (p.tick d atom now armed).2 = some call) :
    call = ⟨d.ordinal now, now, d.n, d.index now⟩ ∧ owned atom d.n (d.index now) = true ∧
      d.ordinal now ≠ p.fired := by
  simp only [tick, fire] at h
  split_ifs at h with hquiet hsame hfiring howned
  exact ⟨(Option.some.inj h).symm, howned, hsame⟩

theorem tick_fired (p : Pulse) (now armed : ℕ) :
    (p.tick d atom now armed).1.fired = d.ordinal now ∨
      (p.tick d atom now armed).1.fired = p.fired ∧ (p.tick d atom now armed).2 = none := by
  simp only [tick, fire]
  split_ifs
  · exact .inr ⟨rfl, rfl⟩
  all_goals first
    | exact .inl rfl
    | exact .inr ⟨rfl, rfl⟩

theorem tick_of_working {p : Pulse} {now armed : ℕ} (hworking : p.working = true)
    (hfired : p.fired ≠ d.ordinal now) (hidle : p.firing = false)
    (howned : owned atom d.n (d.index now) = true) :
    (p.tick d atom now armed).2 = some ⟨d.ordinal now, now, d.n, d.index now⟩ := by
  simp only [working, Bool.and_eq_true, Bool.not_eq_true'] at hworking
  have hquiet : ¬ (p.closing || p.quiesced) = true := by
    rw [hworking.1, hworking.2]
    exact Bool.false_ne_true
  have hfire : ¬ p.firing = true := by
    rw [hidle]
    exact Bool.false_ne_true
  have howned' : owned atom d.n (d.ordinal now % d.n) = true := howned
  simp only [tick, fire, if_neg hquiet, if_pos (Ne.symm hfired), if_neg hfire, if_pos howned']
  rfl

end Pulse

namespace Replica
variable {d : Definition} {atom : Option Atom}

theorem step_eq_some {s t : Replica} {e : Event} :
    step d atom s e = some t ↔
      (s.clock ≤ e.now ∧ e.now ≤ e.armed) ∧ { s.apply d atom e with clock := e.armed } = t := by
  unfold step
  split_ifs with h
  · rw [Option.some_inj]
    exact ⟨fun ht => ⟨h, ht⟩, And.right⟩
  · constructor
    · intro ht
      cases ht
    · exact fun ht => absurd ht.1 h

theorem apply_cases (s : Replica) (e : Event) :
    (∃ p, e.act = .wake ∧ s.pulse = some p ∧
      (s.apply d atom e).pulse = some (p.tick d atom e.now e.armed).1 ∧
      (s.apply d atom e).calls = s.calls ++ (p.tick d atom e.now e.armed).2.toList) ∨
    (s.apply d atom e).calls = s.calls ∧ ∀ q, (s.apply d atom e).pulse = some q →
      q.fired = d.ordinal e.now ∨ ∃ p, s.pulse = some p ∧ q.fired = p.fired := by
  obtain ⟨act, now, armed⟩ := e
  obtain ⟨pulse, clock, calls⟩ := s
  cases act <;> cases pulse
  case wake.some p => exact .inl ⟨p, rfl, rfl, rfl, rfl⟩
  case start.none | start.some | unpause.some =>
    refine .inr ⟨rfl, fun q hq => .inl ?_⟩
    cases hq
    rfl
  case settled.some p | pause.some p | close.some p =>
    refine .inr ⟨rfl, fun q hq => .inr ⟨p, rfl, ?_⟩⟩
    cases hq
    rfl
  all_goals
    refine .inr ⟨rfl, fun q hq => ?_⟩
    cases hq

/-- The calls of a replica are of intervals it owns, each made within its interval and for a later one
than the call before it, and of none past what its pulse has handled. -/
structure Kept (d : Definition) (atom : Option Atom) (s : Replica) : Prop where
  inside : ∀ call ∈ s.calls, call = ⟨d.ordinal call.made, call.made, d.n, d.index call.made⟩
  owns : ∀ call ∈ s.calls, owned atom d.n (d.index call.made) = true
  rising : (s.calls.map Call.ordinal).Pairwise (· < ·)
  past : ∀ call ∈ s.calls, call.ordinal ≤ d.ordinal s.clock
  handled : ∀ p, s.pulse = some p →
    p.fired ≤ d.ordinal s.clock ∧ ∀ call ∈ s.calls, call.ordinal ≤ p.fired

theorem kept_init : Kept d atom {} where
  inside := fun _ h => absurd h List.not_mem_nil
  owns := fun _ h => absurd h List.not_mem_nil
  rising := List.Pairwise.nil
  past := fun _ h => absurd h List.not_mem_nil
  handled := fun _ h => by cases h

theorem Kept.step {s t : Replica} {e : Event} (hs : Kept d atom s) (h : step d atom s e = some t) :
    Kept d atom t := by
  obtain ⟨⟨hclock, harmed⟩, rfl⟩ := step_eq_some.mp h
  have hnow : d.ordinal s.clock ≤ d.ordinal e.now := d.ordinal_mono hclock
  have hlater : d.ordinal e.now ≤ d.ordinal e.armed := d.ordinal_mono harmed
  obtain ⟨p, -, hp, hpulse, hcalls⟩ | ⟨hcalls, hpulse⟩ := @apply_cases d atom s e
  · obtain ⟨hfired, hhandled⟩ := hs.handled p hp
    cases hcall : (p.tick d atom e.now e.armed).2 with
    | none =>
      rw [hcall, Option.toList_none, List.append_nil] at hcalls
      refine ⟨?_, ?_, ?_, ?_, ?_⟩ <;> simp only [hcalls, hpulse]
      · exact hs.inside
      · exact hs.owns
      · exact hs.rising
      · exact fun call hc => (hs.past call hc).trans (hnow.trans hlater)
      · intro q hq
        cases hq
        obtain heq | ⟨heq, -⟩ := @Pulse.tick_fired d atom p e.now e.armed
        · rw [heq]
          exact ⟨hlater, fun call hc => (hs.past call hc).trans hnow⟩
        · rw [heq]
          exact ⟨hfired.trans (hnow.trans hlater), hhandled⟩
    | some call =>
      obtain ⟨rfl, howned, hne⟩ := Pulse.tick_some hcall
      rw [hcall, Option.toList_some] at hcalls
      -- what was handled is at most the last reading, and it is another
      have hlt : p.fired < d.ordinal e.now := (hfired.trans hnow).lt_of_ne' hne
      have hfired' : (p.tick d atom e.now e.armed).1.fired = d.ordinal e.now := by
        obtain heq | ⟨-, hnone⟩ := @Pulse.tick_fired d atom p e.now e.armed
        · exact heq
        · rw [hcall] at hnone
          cases hnone
      refine ⟨?_, ?_, ?_, ?_, ?_⟩ <;> simp only [hcalls, hpulse]
      · exact List.forall_mem_append.mpr ⟨hs.inside, List.forall_mem_singleton.mpr rfl⟩
      · exact List.forall_mem_append.mpr ⟨hs.owns, List.forall_mem_singleton.mpr howned⟩
      · rw [List.map_append, List.pairwise_append]
        refine ⟨hs.rising, List.pairwise_singleton _ _, fun a ha b hb => ?_⟩
        obtain ⟨before, hbefore, rfl⟩ := List.mem_map.mp ha
        rw [List.map_singleton, List.mem_singleton] at hb
        exact hb ▸ (hhandled before hbefore).trans_lt hlt
      · refine List.forall_mem_append.mpr ⟨fun c hc => ?_, List.forall_mem_singleton.mpr hlater⟩
        exact (hs.past c hc).trans (hnow.trans hlater)
      · intro q hq
        cases hq
        rw [hfired']
        refine ⟨hlater, List.forall_mem_append.mpr ⟨fun c hc => ?_, ?_⟩⟩
        · exact (hhandled c hc).trans hlt.le
        · exact List.forall_mem_singleton.mpr le_rfl
  · refine ⟨?_, ?_, ?_, ?_, ?_⟩ <;> simp only [hcalls]
    · exact hs.inside
    · exact hs.owns
    · exact hs.rising
    · exact fun call hc => (hs.past call hc).trans (hnow.trans hlater)
    · intro q hq
      obtain heq | ⟨p, hp, heq⟩ := hpulse q hq
      · rw [heq]
        exact ⟨hlater, fun call hc => (hs.past call hc).trans hnow⟩
      · rw [heq]
        exact ⟨(hs.handled p hp).1.trans (hnow.trans hlater), (hs.handled p hp).2⟩

theorem Kept.run {t : Replica} {es : List Event} (h : run (Replica.step d atom) {} es = some t) :
    Kept d atom t :=
  run_invariant_all (fun _ _ _ hs ht => hs.step ht) kept_init h

theorem fired_lt_of_run {t : Replica} {es : List Event} {k : ℕ}
    (h : run (Replica.step d atom) {} es = some t) (hes : ∀ e ∈ es, d.ordinal e.now < k) :
    ∀ p, t.pulse = some p → p.fired < k := by
  refine @run_invariant _ _ _ (fun _ e => d.ordinal e.now < k)
    (fun s => ∀ p, s.pulse = some p → p.fired < k) (fun s e t hs he ht => ?_) {} t es
    (fun _ hp => by cases hp) (along_of_mem (fun e he _ => hes e he) _) h
  obtain ⟨-, rfl⟩ := step_eq_some.mp ht
  obtain ⟨p, -, hp, hpulse, -⟩ | ⟨-, hpulse⟩ := @apply_cases d atom s e
  · intro q hq
    cases hpulse.symm.trans hq
    obtain heq | ⟨heq, -⟩ := @Pulse.tick_fired d atom p e.now e.armed
    · exact heq ▸ he
    · exact heq ▸ hs p hp
  · intro q hq
    obtain heq | ⟨p, hp, heq⟩ := hpulse q hq
    · exact heq ▸ he
    · exact heq ▸ hs p hp

theorem working_of_settled {s t : Replica} {es : List Event} {k : ℕ}
    (h : run (Replica.step d atom) s es = some t) (hes : ∀ e ∈ es, e.act = .settled)
    (hs : ∃ p, s.pulse = some p ∧ p.working = true ∧ p.fired < k) :
    ∃ p, t.pulse = some p ∧ p.working = true ∧ p.fired < k := by
  refine @run_invariant _ _ _ (fun _ e => e.act = .settled)
    (fun s => ∃ p, s.pulse = some p ∧ p.working = true ∧ p.fired < k)
    (fun s e t hs he ht => ?_) s t es hs (along_of_mem (fun e he _ => hes e he) _) h
  obtain ⟨p, hp, hworking, hfired⟩ := hs
  obtain ⟨-, rfl⟩ := step_eq_some.mp ht
  refine ⟨{ p with firing := false }, ?_, hworking, hfired⟩
  simp only [apply, he, hp]

theorem calls_of_run {s t : Replica} {es : List Event} (h : run (Replica.step d atom) s es = some t)
    {call : Call} (hcall : call ∈ s.calls) : call ∈ t.calls := by
  refine run_invariant_all (I := fun s => call ∈ s.calls) (fun s e t hs ht => ?_) hcall h
  obtain ⟨-, rfl⟩ := step_eq_some.mp ht
  obtain ⟨p, -, -, -, hcalls⟩ | ⟨hcalls, -⟩ := @apply_cases d atom s e
  · simp only [hcalls]
    exact List.mem_append_left _ hs
  · simp only [hcalls]
    exact hs

theorem call_of_wake {s u t : Replica} {before since after : List Event} {now armed : ℕ}
    (hbefore : run (Replica.step d atom) {} before = some s)
    (hsince : run (Replica.step d atom) s since = some u)
    (hafter : run (Replica.step d atom) u (⟨.wake, now, armed⟩ :: after) = some t)
    (hearlier : ∀ e ∈ before, d.ordinal e.now < d.ordinal now)
    (hsettled : ∀ e ∈ since, e.act = .settled) (hworking : s.working = true)
    (hidle : u.running = false) (howned : owned atom d.n (d.index now) = true) :
    ⟨d.ordinal now, now, d.n, d.index now⟩ ∈ t.calls := by
  obtain ⟨p, hp, hpworking⟩ : ∃ p, s.pulse = some p ∧ p.working = true := by
    unfold working at hworking
    cases hp : s.pulse with
    | none =>
      rw [hp] at hworking
      cases hworking
    | some p =>
      rw [hp] at hworking
      exact ⟨p, rfl, hworking⟩
  have hfired := fired_lt_of_run hbefore hearlier p hp
  obtain ⟨q, hq, hqworking, hqfired⟩ := working_of_settled hsince hsettled ⟨p, hp, hpworking, hfired⟩
  have hqidle : q.firing = false := by
    unfold running at hidle
    rwa [hq] at hidle
  obtain ⟨v, hv, hrest⟩ := run_cons_eq_some.mp hafter
  obtain ⟨-, rfl⟩ := step_eq_some.mp hv
  refine calls_of_run hrest ?_
  have htick := @Pulse.tick_of_working _ _ _ _ armed hqworking hqfired.ne hqidle howned
  simp only [apply, hq, htick]
  exact List.mem_append_right _ (List.mem_singleton_self _)

end Replica

/-- The intervals of a cycle are what its instants fall into, one after another. -/
structure Partition (d : Definition) : Prop where
  boundary : ∀ now, IsLeast {t | now < t ∧ d.ordinal t ≠ d.ordinal now} (d.boundary now)
  next : ∀ now, d.ordinal (d.boundary now) = d.ordinal now + 1
  cycle : ∀ j, ∃ starts : ℕ → ℕ, StrictMono starts ∧ starts 0 = j * d.ms ∧
    starts d.n = (j + 1) * d.ms ∧ ∀ i < d.n, ∀ t,
      starts i ≤ t ∧ t < starts (i + 1) ↔ (j * d.ms ≤ t ∧ t < (j + 1) * d.ms) ∧ d.index t = i

/-- What the replicas called of the intervals once they ran through `es`. -/
structure Called (d : Definition) (atom : ρ → Option Atom) (es : List (ρ × Event)) (t : ρ → Replica) :
    Prop where
  inside : ∀ r, ∀ call ∈ (t r).calls,
    d.ordinal call.made = call.ordinal ∧ call.n = d.n ∧ call.i = d.index call.made
  once : ∀ r, ((t r).calls.map Call.ordinal).Nodup
  one : ∀ r r', ∀ call ∈ (t r).calls, ∀ call' ∈ (t r').calls, call.ordinal = call'.ordinal → r = r'
  served : ∀ before since after r now armed, es = before ++ since ++ (r, ⟨.wake, now, armed⟩) :: after →
    Awake d atom before since r now → (∀ e ∈ its r since, e.act = .settled) →
    ∃ call ∈ (t r).calls, call.ordinal = d.ordinal now ∧ call.made = now

theorem ordinal_eq_iff (d : Definition) (j : ℕ) {i t : ℕ} (hi : i < d.n) :
    d.ordinal t = j * d.n + i ↔ (j * d.ms ≤ t ∧ t < (j + 1) * d.ms) ∧ d.index t = i := by
  have hle : ∀ j, j * d.ms ≤ t ↔ j * d.n ≤ d.ordinal t := by
    intro j
    rw [← Rate.onset_mul d.positive, Rate.onset_le_iff d.positive d.ms_pos]
    rfl
  rw [hle j, ← not_le, hle (j + 1), not_le, Definition.index]
  constructor
  · intro h
    have hmod : (j * d.n + i) % d.n = i := by
      rw [Nat.add_comm, Nat.add_mul_mod_self_right, Nat.mod_eq_of_lt hi]
    have hnext : (j + 1) * d.n = j * d.n + d.n := Nat.succ_mul j d.n
    refine ⟨⟨?_, ?_⟩, ?_⟩ <;> rw [h]
    · exact Nat.le_add_right _ _
    · exact hnext ▸ Nat.add_lt_add_left hi _
    · exact hmod
  · rintro ⟨⟨hge, hlt⟩, rfl⟩
    have hdiv : d.ordinal t / d.n = j := Nat.div_eq_of_lt_le hge hlt
    rw [← hdiv, Nat.mul_comm, Nat.div_add_mod]

theorem partition (d : Definition) : Partition d where
  boundary := Rate.isLeast_onset d.positive d.n_le_ms
  next := fun now => Rate.rate_onset d.positive d.n_le_ms _
  cycle := fun j => by
    have hmono := Rate.onset_strictMono d.positive d.n_le_ms
    refine ⟨fun i => Rate.onset d.n d.ms (j * d.n + i), fun i i' h => hmono (Nat.add_lt_add_left h _),
      Rate.onset_mul d.positive j, ?_, fun i hi t => ?_⟩
    · have hlast := Rate.onset_mul (d := d.ms) d.positive (j + 1)
      rwa [Nat.succ_mul] at hlast
    · exact (Rate.rate_eq_iff d.positive d.ms_pos).symm.trans (ordinal_eq_iff d j hi)

theorem called {d : Definition} {atom : ρ → Option Atom} (hatom : Apart d atom)
    {es : List (ρ × Event)} {t : ρ → Replica}
    (h : run (replicas d atom) none_started es = some t) : Called d atom es t := by
  have hkept : ∀ r, Replica.Kept d (atom r) (t r) := fun r => Replica.Kept.run (run_its h r)
  have hordinal : ∀ r, ∀ call ∈ (t r).calls, d.ordinal call.made = call.ordinal := fun r call hc => by
    rw [(hkept r).inside call hc]
  refine ⟨fun r call hc => ⟨hordinal r call hc, ?_⟩, fun r => ?_, ?_, ?_⟩
  · rw [(hkept r).inside call hc]
    exact ⟨rfl, rfl⟩
  · exact (hkept r).rising.imp fun hlt => hlt.ne
  · -- the slot of an ordinal is of one replica
    intro r r' call hc call' hc' heq
    have hindex : d.index call'.made = d.index call.made := by
      rw [Definition.index, Definition.index, hordinal r call hc, hordinal r' call' hc', heq]
    exact hatom r r' _ ((hkept r).owns call hc) (hindex ▸ (hkept r').owns call' hc')
  · rintro before since after r now armed rfl hawake hsettled
    rw [run_append] at h
    obtain ⟨u, hu, hafter⟩ := Option.bind_eq_some_iff.mp h
    have hrun := hu
    rw [run_append] at hrun
    obtain ⟨s, hs, hsince⟩ := Option.bind_eq_some_iff.mp hrun
    have hits := run_its hafter r
    rw [its_cons_self] at hits
    exact ⟨_, Replica.call_of_wake (run_its hs r) (run_its hsince r) hits hawake.earlier hsettled
      (hawake.working s hs) (hawake.idle u hu) hawake.owns, rfl, rfl⟩

theorem pulses_partition_time (d : Definition) {atom : ρ → Option Atom} (hatom : Apart d atom) :
    Partition d ∧ ∀ (es : List (ρ × Event)) (t : ρ → Replica),
      run (replicas d atom) none_started es = some t → Called d atom es t :=
  ⟨partition d, fun _ _ h => called hatom h⟩

def halves : Definition := ⟨86400, 2, Nat.two_pos, Nat.le_of_ble_eq_true rfl⟩

def half (r : Bool) : Option Atom := some fun _ => some [r.toNat]

theorem apart_half : Apart halves half := by
  intro r r' i h h'
  simp only [owned, half, List.contains_iff_mem, List.mem_singleton] at h h'
  have heq := h.symm.trans h'
  cases r <;> cases r' <;> first | rfl | cases heq

theorem pulses_partition_time_halves : Partition halves ∧
    ∀ (es : List (Bool × Event)) (t : Bool → Replica),
      run (replicas halves half) none_started es = some t → Called halves half es t :=
  pulses_partition_time halves apart_half

def second : Definition := ⟨1, 1, Nat.one_pos, Nat.le_refl 1⟩

def alone (_ : Unit) : Option Atom := some fun _ => some [0]

def begun : List (Unit × Event) := [((), ⟨.start, 0, 0⟩)]

def quieted : List (Unit × Event) := [((), ⟨.pause, 1001, 1001⟩), ((), ⟨.unpause, 1002, 1002⟩)]

def busy : List (Unit × Event) := [((), ⟨.start, 0, 0⟩), ((), ⟨.wake, 1000, 1000⟩)]

def overlapped : List (Unit × Event) := [((), ⟨.wake, 2000, 2000⟩), ((), ⟨.settled, 2500, 2500⟩)]

def ordinals (es : List (Unit × Event)) : Option (List ℕ) :=
  (run (replicas second alone) none_started es).map fun t => (t ()).calls.map Call.ordinal

/-- An interval is handled once a pulse works again in it, and once a wake-up found a call running: a
timer a millisecond ahead of the boundary finds it so. -/
theorem handled_not_called :
    (Awake second alone begun quieted () 1999 ∧
      ordinals (begun ++ quieted ++ [((), ⟨.wake, 1999, 1999⟩)]) = some []) ∧
    Awake second alone busy overlapped () 2999 ∧
      ordinals (busy ++ overlapped ++ [((), ⟨.wake, 2999, 2999⟩)]) = some [1] := by
  refine ⟨⟨⟨rfl, ?_, ?_, fun s hs => ?_, fun s hs => ?_⟩, rfl⟩,
    ⟨rfl, ?_, ?_, fun s hs => ?_, fun s hs => ?_⟩, rfl⟩
  · exact List.forall_mem_singleton.mpr (by decide)
  · exact List.forall_mem_cons.mpr ⟨rfl, List.forall_mem_singleton.mpr rfl⟩
  · cases hs
    rfl
  · cases hs
    rfl
  · exact List.forall_mem_cons.mpr ⟨by decide, List.forall_mem_singleton.mpr (by decide)⟩
  · exact List.forall_mem_cons.mpr ⟨rfl, List.forall_mem_singleton.mpr rfl⟩
  · cases hs
    rfl
  · cases hs
    rfl

end Toa.Cadence.Pulses
