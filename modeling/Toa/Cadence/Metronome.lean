import Mathlib.Data.Int.Order.Basic
import Mathlib.Logic.Function.Basic
import Mathlib.Tactic.SplitIfs
import Toa.Lib.Run

/-! The rows of the metronome, and one of them as replicas settle it. A settle reads the row, and
stores it as long as no one has stored it since; what loses reads again. -/

set_option linter.unusedSectionVars false

namespace Toa.Cadence
open Run

variable {ι σ κ : Type*}

/-- What a scan and a settle read of a row. Its `schedule` is an expression with its zone, absent on
a row that is made once. -/
structure Row (ι σ : Type*) where
  id : ι
  lane : ℕ
  region : ℕ
  due : ℤ
  expires : ℤ
  schedule : Option σ
  overdue : Option ℤ
  DELETED : Option ℤ

def MAX_SAFE_INTEGER : ℤ := 9007199254740991

section
variable (occurrences : σ → ℤ → Option ℤ)

def next (stored : Row ι σ) (after : ℤ) : Option ℤ := stored.schedule.bind (occurrences · after)

def bound (stored : Row ι σ) : ℤ :=
  match stored.overdue with
  | some overdue => stored.due + overdue
  | none => (next occurrences stored stored.due).getD MAX_SAFE_INTEGER

def following (stored : Row ι σ) (now : ℤ) : Option ℤ :=
  match next occurrences stored (max now stored.due) with
  | none => none
  | some at' => if at' > stored.expires then none else some at'

/-- `made` is the occurrence each row was disposed of at, and `ended` the recurring rows that are
over. -/
structure Input (ι : Type*) where
  made : ι → Option ℤ
  ended : List ι

variable [DecidableEq ι]

/-- What `settle` does to an entry. -/
def settle (now : ℤ) (input : Input ι) (entry : Row ι σ) : Row ι σ :=
  if entry.schedule.isNone = true ∨ entry.id ∈ input.ended then { entry with DELETED := some now }
  -- a settle that arrives after the row has moved on leaves it where it is
  else if input.made entry.id ≠ some entry.due then entry
  else match following occurrences entry now with
    | none => { entry with DELETED := some now }
    | some due => { entry with due := due }

def transition (now : ℤ) (input : Input ι) (entries : List (Row ι σ)) : List (Row ι σ) :=
  entries.map (settle occurrences now input)

def Input.selects (input : Input ι) (entry : Row ι σ) : Bool :=
  entry.DELETED.isNone && ((input.made entry.id).isSome || entry.id ∈ input.ended)

end

/-! ## A row that replicas settle -/

/-- A settle in hand: what it read of the row, and under which version. -/
structure Attempt (ι σ : Type*) where
  input : Input ι
  now : ℤ
  read : Row ι σ
  version : ℕ

structure Write (ι σ : Type*) where
  input : Input ι
  now : ℤ
  before : Row ι σ
  after : Row ι σ

structure State (ι σ κ : Type*) where
  entry : Row ι σ
  version : ℕ
  attempts : κ → Option (Attempt ι σ)
  writes : List (Write ι σ)

def State.init (entry : Row ι σ) : State ι σ κ := ⟨entry, 0, fun _ => none, []⟩

inductive Act (ι κ : Type*)
  | call (k : κ) (input : Input ι) (now : ℤ)
  | commit (k : κ)
  | retry (k : κ) (now : ℤ)
  | terminate (now : ℤ)

section
variable [DecidableEq ι] [DecidableEq κ] (occurrences : σ → ℤ → Option ℤ)

def acquire (s : State ι σ κ) (k : κ) (input : Input ι) (now : ℤ) : State ι σ κ :=
  let attempt := if input.selects s.entry = true then some ⟨input, now, s.entry, s.version⟩ else none
  { s with attempts := Function.update s.attempts k attempt }

def step (s : State ι σ κ) : Act ι κ → Option (State ι σ κ)
  | .call k input now =>
    match s.attempts k with
    | none => some (acquire s k input now)
    | some _ => none
  | .commit k =>
    match s.attempts k with
    | some ⟨input, now, read, version⟩ =>
      let after := settle occurrences now input read
      if version = s.version then
        some {
          entry := after
          version := s.version + 1
          attempts := Function.update s.attempts k none
          writes := s.writes ++ [⟨input, now, s.entry, after⟩] }
      else none
    | none => none
  -- a row of the set was stored since it was read, this one or another
  | .retry k now => (s.attempts k).map fun attempt => acquire s k attempt.input now
  | .terminate now => some { s with
      entry := { s.entry with DELETED := some now }, version := s.version + 1 }

end

/-! ## A recurring row -/

/-- `next` answers the first occurrence after a moment, where there is one. -/
structure Schedules (occ : ℤ → Prop) (next : ℤ → Option ℤ) : Prop where
  first : ∀ after at', next after = some at' →
    (occ at' ∧ after < at') ∧ ∀ v, occ v → after < v → at' ≤ v
  last : ∀ after, next after = none → ∀ v, occ v → v ≤ after

structure Advances (occ : ℤ → Prop) [DecidableEq ι] (w : Write ι σ) : Prop where
  ends : w.before.id ∈ w.input.ended → w.after = { w.before with DELETED := some w.now }
  stays : w.before.id ∉ w.input.ended → w.input.made w.before.id ≠ some w.before.due →
    w.after = w.before
  moves : w.before.id ∉ w.input.ended → w.input.made w.before.id = some w.before.due →
    (w.after = { w.before with due := w.after.due } ∧ occ w.after.due ∧
      w.before.due < w.after.due ∧ w.now < w.after.due ∧ w.after.due ≤ w.before.expires ∧
      ∀ v, occ v → max w.now w.before.due < v → w.after.due ≤ v) ∨
    w.after = { w.before with DELETED := some w.now } ∧
      ∀ v, occ v → max w.now w.before.due < v → w.before.expires < v

variable [DecidableEq ι] [DecidableEq κ] {occurrences : σ → ℤ → Option ℤ} {occ : ℤ → Prop}

theorem settle_advances {entry : Row ι σ} {schedule : σ} (hschedule : entry.schedule = some schedule)
    (hnext : Schedules occ (occurrences schedule)) (now : ℤ) (input : Input ι) :
    Advances occ ⟨input, now, entry, settle occurrences now input entry⟩ := by
  have hrecurs : entry.schedule.isNone = false := by rw [hschedule]; rfl
  unfold settle
  simp only [hrecurs, Bool.false_eq_true, false_or]
  split_ifs with hended hmade
  · exact ⟨fun _ => rfl, fun hnot => absurd hended hnot, fun hnot => absurd hended hnot⟩
  · exact ⟨fun h => absurd h hended, fun _ _ => rfl, fun _ h => absurd h hmade⟩
  · refine ⟨fun h => absurd h hended, fun _ h => absurd h hmade, fun _ _ => ?_⟩
    simp only [following, next, hschedule, Option.bind_some]
    cases hat : occurrences schedule (max now entry.due) with
    | none =>
      refine .inr ⟨rfl, fun v hv hlt => ?_⟩
      exact absurd hlt (not_lt.mpr (hnext.last _ hat v hv))
    | some at' =>
      obtain ⟨⟨hocc, hafter⟩, hleast⟩ := hnext.first _ _ hat
      by_cases hexpires : at' > entry.expires
      · simp only [if_pos hexpires]
        exact .inr ⟨trivial, fun v hv hlt => lt_of_lt_of_le hexpires (hleast v hv hlt)⟩
      · simp only [if_neg hexpires]
        exact .inl ⟨trivial, hocc, lt_of_le_of_lt (le_max_right ..) hafter,
          lt_of_le_of_lt (le_max_left ..) hafter, not_lt.mp hexpires, hleast⟩

theorem Advances.due {w : Write ι σ} (h : Advances occ w) (hocc : occ w.before.due) :
    (w.after.schedule = w.before.schedule ∧ occ w.after.due) ∧ w.before.due ≤ w.after.due := by
  have hstays {entry : Row ι σ} (heq : w.after = entry) (hschedule : entry.schedule = w.before.schedule)
      (hdue : entry.due = w.before.due) :
      (w.after.schedule = w.before.schedule ∧ occ w.after.due) ∧ w.before.due ≤ w.after.due := by
    subst heq
    exact ⟨⟨hschedule, hdue ▸ hocc⟩, le_of_eq hdue.symm⟩
  by_cases hended : w.before.id ∈ w.input.ended
  · exact hstays (h.ends hended) rfl rfl
  · by_cases hmade : w.input.made w.before.id = some w.before.due
    · rcases h.moves hended hmade with ⟨heq, hafter, hlt, -⟩ | ⟨heq, -⟩
      · have hschedule : w.after.schedule = w.before.schedule := heq ▸ rfl
        exact ⟨⟨hschedule, hafter⟩, le_of_lt hlt⟩
      · exact hstays heq rfl rfl
    · exact hstays (h.stays hended hmade) rfl rfl

/-! ## Over a run -/

structure Inv (occ : ℤ → Prop) (schedule : σ) (start : ℤ) (s : State ι σ κ) : Prop where
  schedule : s.entry.schedule = some schedule
  occurs : occ s.entry.due
  start : start ≤ s.entry.due
  /-- what was read under the version there is, is what there is -/
  read : ∀ k a, s.attempts k = some a →
    a.version ≤ s.version ∧ (a.version = s.version → a.read = s.entry)
  writes : ∀ w ∈ s.writes, (Advances occ w ∧ occ w.before.due) ∧ w.after.due ≤ s.entry.due
  ordered : s.writes.Pairwise fun w w' => w.after.due ≤ w'.before.due

theorem inv_acquire {schedule : σ} {start : ℤ} {s : State ι σ κ} (h : Inv occ schedule start s)
    (k : κ) (input : Input ι) (now : ℤ) : Inv occ schedule start (acquire s k input now) := by
  refine { h with read := fun k' a ha => ?_ }
  by_cases hk : k' = k
  · subst hk
    have hself : (if input.selects s.entry = true then some ⟨input, now, s.entry, s.version⟩
        else none) = some a := (Function.update_self k' _ s.attempts).symm.trans ha
    split_ifs at hself
    obtain rfl := Option.some.inj hself
    exact ⟨Nat.le_refl _, fun _ => rfl⟩
  · exact h.read k' a ((Function.update_of_ne hk _ s.attempts).symm.trans ha)

theorem inv_commit {schedule : σ} (hnext : Schedules occ (occurrences schedule)) {start : ℤ}
    {s : State ι σ κ} (h : Inv occ schedule start s) {k : κ} {input : Input ι} {now : ℤ}
    {read : Row ι σ} (hk : s.attempts k = some ⟨input, now, read, s.version⟩) :
    Inv occ schedule start {
      entry := settle occurrences now input read
      version := s.version + 1
      attempts := Function.update s.attempts k none
      writes := s.writes ++ [⟨input, now, s.entry, settle occurrences now input read⟩] } := by
  obtain rfl : read = s.entry := (h.read k _ hk).2 rfl
  have hadvances := settle_advances h.schedule hnext now input
  obtain ⟨⟨hschedule, hoccurs⟩, hdue⟩ := hadvances.due h.occurs
  refine ⟨hschedule.trans h.schedule, hoccurs, le_trans h.start hdue, fun k' a ha => ?_,
    fun w hw => ?_, ?_⟩
  · have hold : s.attempts k' = some a := by
      by_cases hk' : k' = k
      · subst hk'
        exact nomatch (Function.update_self k' none s.attempts).symm.trans ha
      · exact (Function.update_of_ne hk' none s.attempts).symm.trans ha
    have hle := (h.read k' a hold).1
    exact ⟨Nat.le_succ_of_le hle, fun heq => absurd (heq ▸ hle) (Nat.not_succ_le_self _)⟩
  · rcases List.mem_append.mp hw with hw | hw
    · exact ⟨(h.writes w hw).1, le_trans (h.writes w hw).2 hdue⟩
    · obtain rfl := List.mem_singleton.mp hw
      exact ⟨⟨hadvances, h.occurs⟩, le_refl _⟩
  · refine List.pairwise_append.mpr ⟨h.ordered, List.pairwise_singleton _ _, fun w hw w' hw' => ?_⟩
    obtain rfl := List.mem_singleton.mp hw'
    exact (h.writes w hw).2

theorem inv_step {schedule : σ} (hnext : Schedules occ (occurrences schedule)) {start : ℤ}
    {s t : State ι σ κ} {a : Act ι κ} (h : Inv occ schedule start s)
    (ht : step occurrences s a = some t) : Inv occ schedule start t := by
  cases a with
  | call k input now =>
    simp only [step] at ht
    split at ht
    · exact Option.some.inj ht ▸ inv_acquire h k input now
    · exact nomatch ht
  | commit k =>
    simp only [step] at ht
    split at ht
    · rename_i input now read version hk
      split_ifs at ht with hversion
      subst hversion
      exact Option.some.inj ht ▸ inv_commit hnext h hk
    · exact nomatch ht
  | retry k now =>
    obtain ⟨attempt, -, rfl⟩ := Option.map_eq_some_iff.mp ht
    exact inv_acquire h k attempt.input now
  | terminate now =>
    obtain rfl := Option.some.inj ht
    refine { h with read := fun k a ha => ?_ }
    have hle := (h.read k a ha).1
    exact ⟨Nat.le_succ_of_le hle, fun heq => absurd (heq ▸ hle) (Nat.not_succ_le_self _)⟩

/-- In every run of settles a recurring row goes on from one of its occurrences to another, and each
occurrence is passed by one settle, which names it. -/
theorem recurring_advances {entry : Row ι σ} {schedule : σ}
    (hschedule : entry.schedule = some schedule) (hnext : Schedules occ (occurrences schedule))
    (hdue : occ entry.due) {acts : List (Act ι κ)} {s : State ι σ κ}
    (hrun : run (step occurrences) (.init entry) acts = some s) :
    (occ s.entry.due ∧ entry.due ≤ s.entry.due) ∧
      (∀ w ∈ s.writes, Advances occ w ∧ w.before.due ≤ w.after.due ∧ w.after.due ≤ s.entry.due) ∧
      s.writes.Pairwise fun w w' => w.after.due ≤ w'.before.due := by
  have hinit : Inv occ schedule entry.due (.init entry : State ι σ κ) :=
    ⟨hschedule, hdue, le_refl _, fun _ _ h => (nomatch h), fun _ h => (nomatch h), .nil⟩
  have hinv := run_invariant_all (fun _ _ _ hs ht => inv_step hnext hs ht) hinit hrun
  refine ⟨⟨hinv.occurs, hinv.start⟩, fun w hw => ?_, hinv.ordered⟩
  obtain ⟨⟨hadvances, hbefore⟩, hlast⟩ := hinv.writes w hw
  exact ⟨hadvances, (hadvances.due hbefore).2, hlast⟩

/-! ## A row that is over -/

def tenths (_ : Unit) (after : ℤ) : Option ℤ := some ((after / 10 + 1) * 10)

theorem tenths_schedules : Schedules (10 ∣ ·) (tenths ()) := by
  refine ⟨fun after at' hat => ?_, nofun⟩
  obtain rfl := Option.some.inj hat
  refine ⟨⟨Int.dvd_mul_left _ _, ?_⟩, fun v hv hlt => ?_⟩
  · omega
  · obtain ⟨q, rfl⟩ := hv
    omega

def recurring : Row ℕ Unit := ⟨0, 0, 0, 10, 100, some (), none, none⟩

/-- A settle that ends the row deletes it where it is, whatever occurrence it names. -/
theorem ended_is_deleted : ∃ s : State ℕ Unit Unit, run (step tenths) (.init recurring)
    [.call () ⟨fun _ => some 20, [0]⟩ 15, .commit ()] = some s ∧
      ∃ w ∈ s.writes, w.input.made w.before.id = some 20 ∧ w.before.due = 10 ∧
        w.after ≠ w.before := by
  refine ⟨_, rfl, _, List.mem_singleton_self _, rfl, rfl, fun h => ?_⟩
  exact nomatch congrArg Row.DELETED h

theorem recurring_advances_twice : ∃ s : State ℕ Unit Bool, run (step tenths) (.init recurring)
    [.call true ⟨fun _ => some 10, []⟩ 31, .call false ⟨fun _ => some 10, []⟩ 12, .commit false,
      .retry true 33, .commit true] = some s ∧ 10 ∣ s.entry.due ∧
      s.writes.Pairwise fun w w' => w.after.due ≤ w'.before.due := by
  have hrecurs : recurring.schedule = some () := rfl
  have h {s : State ℕ Unit Bool} (hrun : run (step tenths) (.init recurring)
      [.call true ⟨fun _ => some 10, []⟩ 31, .call false ⟨fun _ => some 10, []⟩ 12, .commit false,
        .retry true 33, .commit true] = some s) :=
    recurring_advances hrecurs tenths_schedules ⟨1, rfl⟩ hrun
  exact ⟨_, rfl, (h rfl).1.1, (h rfl).2.2⟩

end Toa.Cadence
