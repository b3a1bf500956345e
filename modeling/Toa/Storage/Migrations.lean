import Mathlib.Data.Int.Order.Basic
import Mathlib.Logic.Function.Basic
import Mathlib.Tactic.SplitIfs
import Toa.Lib.Run

/-! Replicas that apply the migrations of a component. The row of a migration is its record and its
lock: it is inserted by who claims it, and taken over by who reads a heartbeat older than the
lease. -/

set_option linter.unusedSectionVars false

namespace Toa.Storage.Migrations
open Run

variable {ι ρ τ : Type*}

structure Migration (ι τ : Type*) where
  id : ι
  steps : List τ

inductive Status
  | RUNNING
  | DONE

structure Row (ρ : Type*) where
  state : Status
  owner : ρ
  heartbeat : ℤ

def LEASE : ℤ := 30000

/-- Where a replica is, over the migration at an index of the list. A step and a write it awaits
may take any time, and any other replica may go on meanwhile. -/
inductive Phase
  | claiming (k : ℕ)
  | reading (k : ℕ)
  | stealing (k : ℕ) (heartbeat : ℤ)
  | running (k applied : ℕ)
  | stepping (k applying : ℕ)
  | failed

/-- What was written of a migration that is recorded as done: by whom, and over whose claim. -/
structure Completion (ρ : Type*) where
  replica : ρ
  migration : ℕ
  owner : ρ
deriving DecidableEq

structure Start (ρ : Type*) where
  replica : ρ
  migration : ℕ
  applying : ℕ
deriving DecidableEq

structure State (ι ρ : Type*) where
  rows : ι → Option (Row ρ)
  phase : ρ → Phase
  started : List (Start ρ)
  applied : List (Start ρ)
  completed : List (Completion ρ)

def State.init : State ι ρ := ⟨fun _ => none, fun _ => .claiming 0, [], [], []⟩

/-- `beat` is the heartbeat of any run of the migration, which may land after the run is over, and
`fail` a step, or a write, that throws. -/
inductive Act (ρ : Type*)
  | claim (r : ρ) (now : ℤ)
  | read (r : ρ) (now : ℤ)
  | steal (r : ρ) (now : ℤ)
  | start (r : ρ)
  | apply (r : ρ)
  | complete (r : ρ)
  | beat (k : ℕ) (now : ℤ)
  | fail (r : ρ)

section
variable [DecidableEq ι] [DecidableEq ρ]

namespace State

def enter (s : State ι ρ) (r : ρ) (phase : Phase) : State ι ρ :=
  { s with phase := Function.update s.phase r phase }

def write (s : State ι ρ) (id : ι) (row : Row ρ) : State ι ρ :=
  { s with rows := Function.update s.rows id (some row) }

end State

variable (list : List (Migration ι τ))

/-- `claim`: the second insert of the same `_id` is refused. -/
def claim (s : State ι ρ) (r : ρ) (k : ℕ) (id : ι) (now : ℤ) : State ι ρ :=
  match s.rows id with
  | none => (s.write id ⟨.RUNNING, r, now⟩).enter r (.running k 0)
  | some _ => s.enter r (.reading k)

/-- What `apply` makes of the row that another has claimed. -/
def read (s : State ι ρ) (r : ρ) (k : ℕ) (id : ι) (now : ℤ) : State ι ρ :=
  match s.rows id with
  | none => s.enter r (.claiming k)
  | some ⟨.DONE, _, _⟩ => s.enter r (.claiming (k + 1))
  | some ⟨.RUNNING, _, heartbeat⟩ =>
    if now - heartbeat > LEASE then s.enter r (.stealing k heartbeat) else s.enter r (.claiming k)

/-- `steal`: the heartbeat it read is part of the criteria. -/
def steal (s : State ι ρ) (r : ρ) (k : ℕ) (id : ι) (heartbeat now : ℤ) : State ι ρ :=
  match s.rows id with
  | some ⟨.RUNNING, _, latest⟩ =>
    if latest = heartbeat then (s.write id ⟨.RUNNING, r, now⟩).enter r (.running k 0)
    else s.enter r (.claiming k)
  | _ => s.enter r (.claiming k)

/-- A replica awaits what it does of the migration at `k`. -/
def step (s : State ι ρ) : Act ρ → Option (State ι ρ)
  | .claim r now =>
    match s.phase r with
    | .claiming k => list[k]?.map fun migration => claim s r k migration.id now
    | _ => none
  | .read r now =>
    match s.phase r with
    | .reading k => list[k]?.map fun migration => read s r k migration.id now
    | _ => none
  | .steal r now =>
    match s.phase r with
    | .stealing k heartbeat => list[k]?.map fun migration => steal s r k migration.id heartbeat now
    | _ => none
  | .start r =>
    match s.phase r with
    | .running k i =>
      list[k]?.bind fun migration =>
        if i < migration.steps.length then
          let s := { s with started := s.started ++ [Start.mk r k i] }
          some (s.enter r (.stepping k i))
        else none
    | _ => none
  | .apply r =>
    match s.phase r with
    | .stepping k i =>
      let s := { s with applied := s.applied ++ [Start.mk r k i] }
      some (s.enter r (.running k (i + 1)))
    | _ => none
  | .complete r =>
    match s.phase r with
    | .running k i =>
      list[k]?.bind fun migration =>
        if i = migration.steps.length then
          match s.rows migration.id with
          -- the row is written by its id, whoever owns it
          | some row =>
            let s := { s with completed := s.completed ++ [Completion.mk r k row.owner] }
            some ((s.write migration.id { row with state := .DONE }).enter r (.claiming (k + 1)))
          | none => some (s.enter r (.claiming (k + 1)))
        else none
    | _ => none
  | .beat k now =>
    list[k]?.bind fun migration => (s.rows migration.id).map fun row =>
      s.write migration.id { row with heartbeat := now }
  | .fail r => some (s.enter r .failed)

/-! ## The lease -/

def Phase.runs : Phase → Option ι
  | .running k _ | .stepping k _ => list[k]?.map (·.id)
  | _ => none

/-- The owner of a row that is about to be taken over is not running its migration. -/
def Vacant (s : State ι ρ) : Phase → Prop
  | .stealing k heartbeat => ∀ migration ∈ list[k]?, ∀ row ∈ s.rows migration.id,
      row.heartbeat = heartbeat → (s.phase row.owner).runs list ≠ some migration.id
  | _ => True

/-- A claim is taken over from a replica that runs the migration no more. -/
def Abandoned (s : State ι ρ) : Act ρ → Prop
  | .steal r _ => Vacant list s (s.phase r)
  | _ => True

instance (s : State ι ρ) : ∀ phase, Decidable (Vacant list s phase)
  | .stealing k heartbeat => inferInstanceAs (Decidable (∀ migration ∈ list[k]?,
      ∀ row ∈ s.rows migration.id, row.heartbeat = heartbeat →
        (s.phase row.owner).runs list ≠ some migration.id))
  | .claiming _ | .reading _ | .running _ _ | .stepping _ _ | .failed => isTrue trivial

instance (s : State ι ρ) : ∀ a, Decidable (Abandoned list s a)
  | .steal r _ => inferInstanceAs (Decidable (Vacant list s (s.phase r)))
  | .claim _ _ | .read _ _ | .start _ | .apply _ | .complete _ | .beat _ _ | .fail _ => isTrue trivial

variable {list}

/-- What every replica that goes on by the order of the list relies on. -/
def Done (list : List (Migration ι τ)) (rows : ι → Option (Row ρ)) (k : ℕ) : Prop :=
  ∀ j < k, ∀ migration ∈ list[j]?, ∃ row ∈ rows migration.id, row.state = .DONE

def Phase.migration : Phase → ℕ
  | .claiming k | .reading k | .stealing k _ | .running k _ | .stepping k _ => k
  | .failed => 0

def Phase.past : Phase → ℕ
  | .running _ i | .stepping _ i => i
  | _ => 0

/-- A replica goes on by the order of the list, and owns what it runs. -/
structure Sound (list : List (Migration ι τ)) (rows : ι → Option (Row ρ)) (applied : List (Start ρ))
    (r : ρ) (phase : Phase) : Prop where
  reached : Done list rows phase.migration
  owner : ∀ id ∈ phase.runs list, ∃ row ∈ rows id, row.state = .RUNNING ∧ row.owner = r
  past : ∀ i < phase.past, ⟨r, phase.migration, i⟩ ∈ applied

structure Inv (list : List (Migration ι τ)) (s : State ι ρ) : Prop where
  replicas : ∀ r, Sound list s.rows s.applied r (s.phase r)
  started : ∀ x ∈ s.started, Done list s.rows x.migration
  ordered : s.started.Pairwise fun x y => x.migration ≤ y.migration
  completed : ∀ c ∈ s.completed, c.owner = c.replica ∧
    ∀ migration ∈ list[c.migration]?, ∀ i < migration.steps.length,
      ⟨c.replica, c.migration, i⟩ ∈ s.applied

/-! ## What a step keeps -/

theorem Done.update {rows : ι → Option (Row ρ)} {k : ℕ} (h : Done list rows k) {id : ι} {row : Row ρ}
    (hdone : ∀ old ∈ rows id, old.state = .DONE → row.state = .DONE) :
    Done list (Function.update rows id (some row)) k := by
  intro j hj migration hmigration
  obtain ⟨old, hold, hstate⟩ := h j hj migration hmigration
  by_cases hid : migration.id = id
  · rw [hid] at hold ⊢
    exact ⟨row, Function.update_self .., hdone old hold hstate⟩
  · exact ⟨old, (Function.update_of_ne hid ..).trans hold, hstate⟩

theorem Done.succ {rows : ι → Option (Row ρ)} {k : ℕ} (h : Done list rows k)
    {migration : Migration ι τ} (hk : list[k]? = some migration) {row : Row ρ}
    (hrow : rows migration.id = some row) (hdone : row.state = .DONE) : Done list rows (k + 1) := by
  intro j hj migration' hj'
  rcases Nat.lt_succ_iff_lt_or_eq.mp hj with hlt | rfl
  · exact h j hlt migration' hj'
  · obtain rfl := Option.some.inj (hk.symm.trans hj')
    exact ⟨row, hrow, hdone⟩

theorem sound_waits {rows : ι → Option (Row ρ)} {applied : List (Start ρ)} {r : ρ} {phase : Phase}
    (hreached : Done list rows phase.migration) (hruns : phase.runs list = none)
    (hpast : phase.past = 0) : Sound list rows applied r phase := by
  refine ⟨hreached, fun id hid => ?_, fun i hi => ?_⟩
  · rw [hruns] at hid
    exact nomatch hid
  · rw [hpast] at hi
    exact absurd hi (Nat.not_lt_zero i)

theorem inv_enter {s : State ι ρ} (h : Inv list s) {r : ρ} {phase : Phase}
    (hr : Sound list s.rows s.applied r phase) : Inv list (s.enter r phase) :=
  { h with replicas := Function.forall_update_iff _ _ |>.mpr ⟨hr, fun r' _ => h.replicas r'⟩ }

theorem inv_write {s : State ι ρ} (h : Inv list s) {r : ρ} {id : ι} {row : Row ρ} {phase : Phase}
    (hdone : ∀ old ∈ s.rows id, old.state = .DONE → row.state = .DONE)
    (hruns : ∀ r' ≠ r, (s.phase r').runs list ≠ some id)
    (hr : Sound list (Function.update s.rows id (some row)) s.applied r phase) :
    Inv list ((s.write id row).enter r phase) := by
  refine { h with replicas := Function.forall_update_iff _ _ |>.mpr ⟨hr, fun r' hne => ?_⟩,
                  started := fun x hx => (h.started x hx).update hdone }
  obtain ⟨hreached, howner, hpast⟩ := h.replicas r'
  refine ⟨hreached.update hdone, fun id' hid' => ?_, hpast⟩
  have hne' : id' ≠ id := by
    rintro rfl
    exact hruns r' hne hid'
  obtain ⟨old, hold, howns⟩ := howner id' hid'
  exact ⟨old, (Function.update_of_ne hne' ..).trans hold, howns⟩

/-! ## Steps -/

theorem inv_claim {s : State ι ρ} (h : Inv list s) {r : ρ} {k : ℕ} (hphase : s.phase r = .claiming k)
    {migration : Migration ι τ} (hk : list[k]? = some migration) (now : ℤ) :
    Inv list (claim s r k migration.id now) := by
  have hreached : Done list s.rows k := by
    have hr := (h.replicas r).reached
    rwa [hphase] at hr
  unfold claim
  split
  · rename_i hnone
    have hdone : ∀ old ∈ s.rows migration.id, old.state = .DONE → Status.RUNNING = .DONE :=
      fun old hold => nomatch hnone.symm.trans hold
    refine inv_write h hdone (fun r' _ hruns => ?_) ⟨hreached.update hdone, fun id hid => ?_, nofun⟩
    · obtain ⟨old, hold, -⟩ := (h.replicas r').owner _ hruns
      exact nomatch hnone.symm.trans hold
    · simp only [Phase.runs, hk] at hid
      obtain rfl := Option.some.inj hid
      exact ⟨_, Function.update_self .., rfl, rfl⟩
  · exact inv_enter h (sound_waits hreached rfl rfl)

theorem inv_read {s : State ι ρ} (h : Inv list s) {r : ρ} {k : ℕ} (hphase : s.phase r = .reading k)
    {migration : Migration ι τ} (hk : list[k]? = some migration) (now : ℤ) :
    Inv list (read s r k migration.id now) := by
  have hreached : Done list s.rows k := by
    have hr := (h.replicas r).reached
    rwa [hphase] at hr
  unfold read
  split
  · exact inv_enter h (sound_waits hreached rfl rfl)
  · rename_i hrow
    exact inv_enter h (sound_waits (hreached.succ hk hrow rfl) rfl rfl)
  · split_ifs
    all_goals exact inv_enter h (sound_waits hreached rfl rfl)

theorem inv_steal {s : State ι ρ} (h : Inv list s) {r : ρ} {k : ℕ} {heartbeat : ℤ}
    (hphase : s.phase r = .stealing k heartbeat) {migration : Migration ι τ}
    (hk : list[k]? = some migration) (hok : ∀ row ∈ s.rows migration.id, row.heartbeat = heartbeat →
      (s.phase row.owner).runs list ≠ some migration.id) (now : ℤ) :
    Inv list (steal s r k migration.id heartbeat now) := by
  have hreached : Done list s.rows k := by
    have hr := (h.replicas r).reached
    rwa [hphase] at hr
  unfold steal
  split
  · rename_i owner latest hrow
    split_ifs with hlatest
    · have hdone : ∀ old ∈ s.rows migration.id, old.state = .DONE → Status.RUNNING = .DONE :=
        fun old hold hstate => by
          obtain rfl := Option.some.inj (hrow.symm.trans hold)
          exact hstate
      refine inv_write h hdone (fun r' _ hruns => ?_) ⟨hreached.update hdone, fun id hid => ?_, nofun⟩
      · -- whoever runs it owns the row, and the owner has given up
        obtain ⟨old, hold, -, howner⟩ := (h.replicas r').owner _ hruns
        obtain rfl := Option.some.inj (hrow.symm.trans hold)
        obtain rfl : owner = r' := howner
        exact hok _ hrow hlatest hruns
      · simp only [Phase.runs, hk] at hid
        obtain rfl := Option.some.inj hid
        exact ⟨_, Function.update_self .., rfl, rfl⟩
    · exact inv_enter h (sound_waits hreached rfl rfl)
  · exact inv_enter h (sound_waits hreached rfl rfl)

theorem running_row {s : State ι ρ} (h : Inv list s) {r : ρ} {k i : ℕ}
    (hphase : s.phase r = .running k i) {migration : Migration ι τ}
    (hk : list[k]? = some migration) :
    ∃ row, s.rows migration.id = some row ∧ row.state = .RUNNING ∧ row.owner = r := by
  have howner := (h.replicas r).owner
  rw [hphase] at howner
  exact howner migration.id (congrArg (Option.map Migration.id) hk)

theorem inv_start {s : State ι ρ} (h : Inv list s) {r : ρ} {k i : ℕ}
    (hphase : s.phase r = .running k i) {migration : Migration ι τ}
    (hk : list[k]? = some migration) :
    Inv list (State.enter { s with started := s.started ++ [⟨r, k, i⟩] } r (.stepping k i)) := by
  have hr := h.replicas r
  rw [hphase] at hr
  have hstarted : Inv list { s with started := s.started ++ [⟨r, k, i⟩] } := by
    refine { h with started := fun x hx => ?_, ordered := ?_ }
    · rcases List.mem_append.mp hx with hx | hx
      · exact h.started x hx
      · obtain rfl := List.mem_singleton.mp hx
        exact hr.reached
    · refine List.pairwise_append.mpr ⟨h.ordered, List.pairwise_singleton _ _, fun x hx y hy => ?_⟩
      obtain rfl := List.mem_singleton.mp hy
      refine Nat.not_lt.mp fun hlt => ?_
      obtain ⟨row, hrow, hdone⟩ := h.started x hx k hlt migration hk
      obtain ⟨row', hrow', hrunning, -⟩ := running_row h hphase hk
      obtain rfl := Option.some.inj (hrow.symm.trans hrow')
      exact nomatch hdone.symm.trans hrunning
  exact inv_enter hstarted ⟨hr.reached, hr.owner, hr.past⟩

theorem inv_apply {s : State ι ρ} (h : Inv list s) {r : ρ} {k i : ℕ}
    (hphase : s.phase r = .stepping k i) :
    Inv list (State.enter { s with applied := s.applied ++ [⟨r, k, i⟩] } r (.running k (i + 1))) := by
  have hr := h.replicas r
  rw [hphase] at hr
  have happlied : Inv list { s with applied := s.applied ++ [⟨r, k, i⟩] } := by
    refine { h with replicas := fun r' => ?_, completed := fun c hc => ⟨(h.completed c hc).1, ?_⟩ }
    · obtain ⟨hreached, howner, hpast⟩ := h.replicas r'
      exact ⟨hreached, howner, fun j hj => List.mem_append_left _ (hpast j hj)⟩
    · exact fun m hm j hj => List.mem_append_left _ ((h.completed c hc).2 m hm j hj)
  refine inv_enter happlied ⟨hr.reached, hr.owner, fun j hj => ?_⟩
  rcases Nat.lt_succ_iff_lt_or_eq.mp hj with hlt | rfl
  · exact List.mem_append_left _ (hr.past j hlt)
  · exact List.mem_append_right _ (List.mem_singleton_self _)

theorem inv_complete {s : State ι ρ} (h : Inv list s) {r : ρ} {k : ℕ} {migration : Migration ι τ}
    (hk : list[k]? = some migration) (hphase : s.phase r = .running k migration.steps.length)
    {row : Row ρ} (hrow : s.rows migration.id = some row) :
    Inv list (State.enter (State.write { s with completed := s.completed ++ [⟨r, k, row.owner⟩] }
      migration.id { row with state := .DONE }) r (.claiming (k + 1))) := by
  obtain ⟨row', hrow', -, howner⟩ := running_row h hphase hk
  obtain rfl := Option.some.inj (hrow.symm.trans hrow')
  have hr := h.replicas r
  rw [hphase] at hr
  have hcompleted : Inv list { s with completed := s.completed ++ [⟨r, k, row.owner⟩] } := by
    refine { h with completed := fun c hc => ?_ }
    rcases List.mem_append.mp hc with hc | hc
    · exact h.completed c hc
    · obtain rfl := List.mem_singleton.mp hc
      refine ⟨howner, fun m hm i hi => hr.past i ?_⟩
      obtain rfl := Option.some.inj (hk.symm.trans hm)
      exact hi
  refine inv_write hcompleted (fun _ _ _ => rfl) (fun r' hne hruns => ?_) (sound_waits ?_ rfl rfl)
  · obtain ⟨old, hold, -, howner'⟩ := (h.replicas r').owner _ hruns
    obtain rfl := Option.some.inj (hrow.symm.trans hold)
    exact hne (howner'.symm.trans howner)
  · have hreached : Done list s.rows k := hr.reached
    exact (hreached.update fun _ _ _ => rfl).succ hk (Function.update_self ..) rfl

theorem inv_beat {s : State ι ρ} (h : Inv list s) {id : ι} {row : Row ρ}
    (hrow : s.rows id = some row) (now : ℤ) : Inv list (s.write id { row with heartbeat := now }) := by
  have hdone : ∀ old ∈ s.rows id, old.state = .DONE → row.state = .DONE := fun old hold hstate => by
    obtain rfl := Option.some.inj (hrow.symm.trans hold)
    exact hstate
  refine { h with replicas := fun r => ?_, started := fun x hx => (h.started x hx).update hdone }
  obtain ⟨hreached, howner, hpast⟩ := h.replicas r
  refine ⟨hreached.update hdone, fun id' hid' => ?_, hpast⟩
  obtain ⟨old, hold, howns⟩ := howner id' hid'
  by_cases hid : id' = id
  · subst hid
    obtain rfl := Option.some.inj (hrow.symm.trans hold)
    exact ⟨_, Function.update_self .., howns⟩
  · exact ⟨old, (Function.update_of_ne hid ..).trans hold, howns⟩

theorem inv_step {s t : State ι ρ} {a : Act ρ} (h : Inv list s) (hok : Abandoned list s a)
    (ht : step list s a = some t) : Inv list t := by
  cases a with
  | claim r now =>
    simp only [step] at ht
    split at ht
    · rename_i k hphase
      obtain ⟨migration, hk, rfl⟩ := Option.map_eq_some_iff.mp ht
      exact inv_claim h hphase hk now
    · exact nomatch ht
  | read r now =>
    simp only [step] at ht
    split at ht
    · rename_i k hphase
      obtain ⟨migration, hk, rfl⟩ := Option.map_eq_some_iff.mp ht
      exact inv_read h hphase hk now
    · exact nomatch ht
  | steal r now =>
    simp only [step] at ht
    split at ht
    · rename_i k heartbeat hphase
      obtain ⟨migration, hk, rfl⟩ := Option.map_eq_some_iff.mp ht
      simp only [Abandoned, hphase, Vacant] at hok
      exact inv_steal h hphase hk (hok migration hk) now
    · exact nomatch ht
  | start r =>
    simp only [step] at ht
    split at ht
    · rename_i k i hphase
      obtain ⟨migration, hk, ht⟩ := Option.bind_eq_some_iff.mp ht
      split_ifs at ht
      exact Option.some.inj ht ▸ inv_start h hphase hk
    · exact nomatch ht
  | apply r =>
    simp only [step] at ht
    split at ht
    · rename_i k i hphase
      exact Option.some.inj ht ▸ inv_apply h hphase
    · exact nomatch ht
  | complete r =>
    simp only [step] at ht
    split at ht
    · rename_i k i hphase
      obtain ⟨migration, hk, hset⟩ := Option.bind_eq_some_iff.mp ht
      split_ifs at hset with hi
      subst hi
      split at hset
      · rename_i row hrow
        exact Option.some.inj hset ▸ inv_complete h hk hphase hrow
      · rename_i hnone
        obtain ⟨row, hrow, -⟩ := running_row h hphase hk
        exact nomatch hnone.symm.trans hrow
    · exact nomatch ht
  | beat k now =>
    obtain ⟨migration, hk, ht⟩ := Option.bind_eq_some_iff.mp ht
    obtain ⟨row, hrow, rfl⟩ := Option.map_eq_some_iff.mp ht
    exact inv_beat h hrow now
  | fail r =>
    obtain rfl := Option.some.inj ht
    exact inv_enter h (sound_waits (fun j hj => absurd hj (Nat.not_lt_zero j)) rfl rfl)

/-- Where no claim is taken over from a run that goes on, a migration is recorded as done by its
owner, once it has applied every step, and no step is started after one of a later migration. -/
theorem migrations_in_order {acts : List (Act ρ)} {s : State ι ρ}
    (hok : Along (step list) (Abandoned list) .init acts) (hrun : run (step list) .init acts = some s) :
    (∀ c ∈ s.completed, c.owner = c.replica ∧ ∀ migration ∈ list[c.migration]?,
      ∀ i < migration.steps.length, ⟨c.replica, c.migration, i⟩ ∈ s.applied) ∧
    s.started.Pairwise fun x y => x.migration ≤ y.migration := by
  have hinit : Inv list (.init : State ι ρ) :=
    ⟨fun _ => sound_waits (fun j hj => absurd hj (Nat.not_lt_zero j)) rfl rfl, nofun, .nil, nofun⟩
  have hinv := run_invariant (fun _ _ _ hs hok ht => inv_step hs hok ht) hinit hok hrun
  exact ⟨hinv.completed, hinv.ordered⟩

/-! ## A replica that stalls -/

def declared : List (Migration ℕ Unit) := [⟨0, [()]⟩, ⟨1, [()]⟩]

def waited : List (Act Bool) := [.claim false 1, .read false 30001]

def overtook : List (Act Bool) :=
  [.steal false 30002, .start false, .apply false, .complete false, .claim false 30003, .start false]

/-- Whoever stalled goes on with the steps of a migration that it does not own, and records it. -/
theorem stalled_goes_on : ∃ s : State ℕ Bool, run (step declared) .init
    (.claim true 0 :: waited ++ overtook ++ [.start true, .apply true, .complete true]) = some s ∧
      (∃ c ∈ s.completed, c.owner ≠ c.replica) ∧
      ¬s.started.Pairwise fun x y => x.migration ≤ y.migration :=
  ⟨_, rfl, ⟨⟨true, 0, false⟩, by decide, by decide⟩, by decide⟩

theorem migrations_in_order_abandoned : ∃ s : State ℕ Bool, run (step declared) .init
    (.claim true 0 :: .fail true :: waited ++ overtook) = some s ∧
      s.started.Pairwise fun x y => x.migration ≤ y.migration := by
  have h {s : State ℕ Bool} (hrun : run (step declared) .init
      (.claim true 0 :: .fail true :: waited ++ overtook) = some s) :=
    migrations_in_order (by decide) hrun
  exact ⟨_, rfl, (h rfl).2⟩

end

end Toa.Storage.Migrations
