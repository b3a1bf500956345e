import Mathlib.Logic.Function.Basic
import Toa.Introspection.Process
import Toa.Lib.Run

/-! The processes of a deployment, with the two components they talk through: the records of the signals, each
delivered to any process any number of times and in any order, and the map, whose rows are overwritten in
place. A stop that a process asked for is written whenever its request arrives, once, again or after the
process gave up waiting. -/

set_option linter.unusedSectionVars false

namespace Toa.Introspection
open Run
variable {ι : Type*} [DecidableEq ι]

structure Row where
  id : String
  updated : ℚ
  region : ℤ
deriving DecidableEq

inductive Writer (ι : Type*)
  | operator
  | process (p : ι)
deriving DecidableEq

structure Fleet (ι : Type*) where
  processes : ι → Process
  rows : List Row
  signals : List (Writer ι × Json)
  /-- the stops that processes asked for -/
  requests : List (ι × Pending)
  /-- which processes went down, and for what -/
  stopped : List (ι × Pending)

inductive Act (ι : Type*)
  | process (p : ι) (e : Process.Event)
  | merge (row : Row)
  | post (signal : Json)
  | commit (request : ι × Pending) (id : String) (created : ℕ)

namespace Fleet

def init : Fleet ι := ⟨fun _ => {}, [], [], [], []⟩

/-- `enumerate` with `UPDATED>${since};REGION==${REGION}` and a limit of one answers nothing. -/
def quiet (rows : List Row) (region : ℤ) (since : ℚ) : Bool :=
  ((rows.filter fun row => since < row.updated ∧ row.region = region).take 1).isEmpty

def Admits (region : ℤ) (s : Fleet ι) : Process.Event → Prop
  | .signalled signal _ => ∃ record ∈ s.signals, record.2 = signal
  | .answered pending still => still = quiet s.rows region pending.since
  | .called pending true => ∃ record ∈ s.signals, Answers record.2 pending.id
  | _ => True

instance (region : ℤ) (s : Fleet ι) : ∀ e, Decidable (s.Admits region e)
  | .signalled .. => inferInstanceAs (Decidable (∃ _ ∈ _, _))
  | .answered .. => inferInstanceAs (Decidable (_ = _))
  | .called _ true => inferInstanceAs (Decidable (∃ _ ∈ _, _))
  | .called _ false | .reached _ | .quieted _ | .fired | .checked .. | .connected | .drained | .closed
  | .opened | .resumed | .restarted => isTrue trivial

def step (options : Options) (region : ℤ) (s : Fleet ι) : Act ι → Option (Fleet ι)
  | .process p e =>
    if s.Admits region e then
      ((s.processes p).step options e).map fun next =>
        { s with
          processes := Function.update s.processes p next
          requests := s.requests ++ (((s.processes p).asks e).map (p, ·)).toList
          stopped := s.stopped ++ (((s.processes p).stops e).map (p, ·)).toList }
    else none
  | .merge row => some { s with rows := row :: s.rows.filter (·.id ≠ row.id) }
  | .post signal => some { s with signals := s.signals ++ [(.operator, signal)] }
  | .commit request id created =>
    if request ∈ s.requests then
      some { s with signals := s.signals ++ [(.process request.1, request.2.stop id created)] }
    else none

def Heard (options : Options) (s : Fleet ι) (pending : Pending) : Prop :=
  ∃ record ∈ s.signals, ∃ serial now, record.2.get "type" = some (.string "halt") ∧
    Pending.of options serial record.2 now = some pending

def Concluded (s : Fleet ι) (id : String) : Prop :=
  ∃ p pending, pending.id = id ∧ ((pending, some true) ∈ (s.processes p).checking ∨ (p, pending) ∈ s.requests)

structure Inv (options : Options) (s : Fleet ι) : Prop where
  holds : ∀ p pending, (s.processes p).Holds pending → s.Heard options pending
  written : ∀ p record, (.process p, record) ∈ s.signals →
    ∃ pending, (p, pending) ∈ s.requests ∧ ∀ id, Answers record id → pending.id = id
  stopped : ∀ p pending, (p, pending) ∈ s.stopped →
    s.Heard options pending ∧ ∃ record ∈ s.signals, Answers record.2 pending.id

variable {options : Options} {region : ℤ}

theorem Heard.mono {s t : Fleet ι} {pending : Pending} (h : s.Heard options pending)
    (hsignals : s.signals ⊆ t.signals) : t.Heard options pending := by
  obtain ⟨record, hmem, hrest⟩ := h
  exact ⟨record, hsignals hmem, hrest⟩

theorem answers_of_stops {s : Fleet ι} {p : ι} {e : Process.Event} {pending : Pending}
    (hadmits : s.Admits region e) (h : (s.processes p).stops e = some pending) :
    ∃ record ∈ s.signals, Answers record.2 pending.id := by
  cases e with
  | signalled signal now =>
    obtain ⟨⟨htype, -⟩, hobeys⟩ := Option.ite_none_right_eq_some.mp h
    obtain ⟨record, hmem, rfl⟩ := hadmits
    exact ⟨record, hmem, htype, of_decide_eq_true (Option.filter_eq_some_iff.mp hobeys).2⟩
  | called read written =>
    obtain ⟨⟨rfl, -⟩, rfl⟩ := Option.ite_none_right_eq_some.mp h |>.imp_right Option.some.inj
    exact hadmits
  | _ => cases h

theorem inv_init (options : Options) : Inv options (init : Fleet ι) where
  holds _ _ h := by obtain h | ⟨_, h⟩ | h := h <;> cases h
  written _ _ h := by cases h
  stopped _ _ h := by cases h

theorem inv_step {s t : Fleet ι} {a : Act ι} (h : Inv options s) (hstep : s.step options region a = some t) :
    Inv options t := by
  cases a with
  | process p e =>
    obtain ⟨hadmits, hstep⟩ := Option.ite_none_right_eq_some.mp hstep
    obtain ⟨next, hnext, rfl⟩ := Option.map_eq_some_iff.mp hstep
    refine ⟨fun q pending hq => ?_, fun q record hq => ?_, fun q pending hq => ?_⟩
    · dsimp only at hq
      by_cases hsame : q = p
      · subst hsame
        rw [Function.update_self] at hq
        obtain hold | ⟨signal, now, rfl, hhalt, hbegun⟩ := Process.holds_step hnext hq
        · exact h.holds q pending hold
        · obtain ⟨record, hmem, rfl⟩ := hadmits
          exact ⟨record, hmem, _, now, hhalt, hbegun⟩
      · rw [Function.update_of_ne hsame] at hq
        exact h.holds q pending hq
    · obtain ⟨pending, hmem, hanswers⟩ := h.written q record hq
      exact ⟨pending, List.mem_append_left _ hmem, hanswers⟩
    · obtain hold | hnew := List.mem_append.mp hq
      · exact h.stopped q pending hold
      · obtain ⟨other, hstops, hother⟩ := Option.map_eq_some_iff.mp (Option.mem_toList.mp hnew)
        obtain ⟨rfl, rfl⟩ := Prod.mk.inj hother
        have hanswers := answers_of_stops hadmits hstops
        exact ⟨h.holds p other (Process.holds_of_stops hstops hnext), hanswers⟩
  | merge row =>
    obtain rfl := Option.some.inj hstep
    exact ⟨h.holds, h.written, h.stopped⟩
  | post signal =>
    obtain rfl := Option.some.inj hstep
    have hsignals : s.signals ⊆ s.signals ++ [(.operator, signal)] := List.subset_append_left _ _
    refine ⟨fun q pending hq => (h.holds q pending hq).mono hsignals, fun q record hq => ?_, fun q pending hq => ?_⟩
    · obtain hold | hnew := List.mem_append.mp hq
      · exact h.written q record hold
      · cases List.mem_singleton.mp hnew
    · obtain ⟨hheard, record, hmem, hanswers⟩ := h.stopped q pending hq
      exact ⟨hheard.mono hsignals, record, hsignals hmem, hanswers⟩
  | commit request id created =>
    obtain ⟨hrequest, hstep⟩ := Option.ite_none_right_eq_some.mp hstep
    obtain rfl := Option.some.inj hstep
    have hsignals : s.signals ⊆ s.signals ++ [(.process request.1, request.2.stop id created)] :=
      List.subset_append_left _ _
    refine ⟨fun q pending hq => (h.holds q pending hq).mono hsignals, fun q record hq => ?_, fun q pending hq => ?_⟩
    · obtain hold | hnew := List.mem_append.mp hq
      · exact h.written q record hold
      · obtain ⟨hwriter, rfl⟩ := Prod.mk.inj (List.mem_singleton.mp hnew)
        obtain rfl := Writer.process.inj hwriter
        refine ⟨request.2, hrequest, fun answered hanswers => ?_⟩
        exact Json.string.inj (Option.some.inj hanswers.2)
    · obtain ⟨hheard, record, hmem, hanswers⟩ := h.stopped q pending hq
      exact ⟨hheard.mono hsignals, record, hsignals hmem, hanswers⟩

theorem turn_concluded {s t : Fleet ι} {a : Act ι} {id : String} (hs : ¬s.Concluded id)
    (ht : t.Concluded id) (hstep : s.step options region a = some t) :
    ∃ p pending, a = .process p (.answered pending true) ∧ pending.id = id ∧
      (s.processes p).Holds pending ∧ quiet s.rows region pending.since = true := by
  cases a with
  | process p e =>
    obtain ⟨hadmits, hstep⟩ := Option.ite_none_right_eq_some.mp hstep
    obtain ⟨next, hnext, rfl⟩ := Option.map_eq_some_iff.mp hstep
    obtain ⟨q, pending, hid, hread | hrequest⟩ := ht
    · dsimp only at hread
      by_cases hsame : q = p
      · subst hsame
        rw [Function.update_self] at hread
        obtain hold | ⟨rfl, hholds⟩ := Process.still_step hnext hread
        · exact absurd ⟨q, pending, hid, .inl hold⟩ hs
        · exact ⟨q, pending, rfl, hid, hholds, hadmits.symm⟩
      · rw [Function.update_of_ne hsame] at hread
        exact absurd ⟨q, pending, hid, .inl hread⟩ hs
    · obtain hold | hnew := List.mem_append.mp hrequest
      · exact absurd ⟨q, pending, hid, .inr hold⟩ hs
      · obtain ⟨other, hasks, hother⟩ := Option.map_eq_some_iff.mp (Option.mem_toList.mp hnew)
        obtain ⟨rfl, rfl⟩ := Prod.mk.inj hother
        have hstill := (Process.still_of_asks hasks hnext).1
        exact absurd ⟨p, other, hid, .inl hstill⟩ hs
  | merge row =>
    obtain rfl := Option.some.inj hstep
    exact absurd ht hs
  | post signal =>
    obtain rfl := Option.some.inj hstep
    exact absurd ht hs
  | commit request written created =>
    obtain ⟨-, hstep⟩ := Option.ite_none_right_eq_some.mp hstep
    obtain rfl := Option.some.inj hstep
    exact absurd ht hs

theorem quiet_iff {rows : List Row} {region : ℤ} {since : ℚ} :
    quiet rows region since = true ↔ ∀ row ∈ rows, row.region = region → row.updated ≤ since := by
  have htake (l : List Row) : (l.take 1).isEmpty = true ↔ l = [] := by cases l <;> simp
  rw [quiet, htake, List.filter_eq_nil_iff]
  refine forall₂_congr fun row _ => ?_
  simp only [decide_eq_true_eq, not_and]
  exact ⟨fun h hregion => not_lt.mp fun hlt => h hlt hregion, fun h hlt hregion => absurd hlt (not_lt.mpr (h hregion))⟩

/-- No process goes down but for a halt that a record asked for, and not before a stop that answers it is on
record: an operator's, or that of a process, and then the map was read before with no row of the region newer
than a signal of that halt. -/
theorem stopped_of_still {t : Fleet ι} {as : List (Act ι)} {p : ι} {pending : Pending}
    (hrun : run (step options region) init as = some t) (hstopped : (p, pending) ∈ t.stopped) :
    t.Heard options pending ∧
      ((∃ record, (.operator, record) ∈ t.signals ∧ Answers record pending.id) ∨
        (∃ q record, (.process q, record) ∈ t.signals ∧ Answers record pending.id) ∧
          ∃ before after u q read, as = before ++ .process q (.answered read true) :: after ∧
            run (step options region) init before = some u ∧ read.id = pending.id ∧ u.Heard options read ∧
            ∀ row ∈ u.rows, row.region = region → row.updated ≤ read.since) := by
  have hinv : Inv options t := run_invariant_all (fun _ _ _ h hs => inv_step h hs) (inv_init options) hrun
  obtain ⟨hheard, ⟨writer, record⟩, hmem, hanswers⟩ := hinv.stopped p pending hstopped
  refine ⟨hheard, ?_⟩
  cases writer with
  | operator => exact .inl ⟨record, hmem, hanswers⟩
  | process q =>
    obtain ⟨asked, hrequest, hid⟩ := hinv.written q record hmem
    have hconcluded : t.Concluded pending.id := ⟨q, asked, hid _ hanswers, .inr hrequest⟩
    have hnone : ¬(init : Fleet ι).Concluded pending.id := by rintro ⟨_, _, _, h | h⟩ <;> cases h
    obtain ⟨before, a, after, u, v, rfl, hbefore, hstep, hu, hv⟩ :=
      exists_turn (P := fun s => s.Concluded pending.id) hnone hconcluded hrun
    obtain ⟨reader, read, rfl, hread, hholds, hquiet⟩ := turn_concluded hu hv hstep
    have hinv' : Inv options u :=
      run_invariant_all (fun _ _ _ h hs => inv_step h hs) (inv_init options) hbefore
    exact .inr ⟨⟨q, record, hmem, hanswers⟩, before, after, u, reader, read, rfl, hbefore, hread,
      hinv'.holds reader read hholds, quiet_iff.mp hquiet⟩

/-! ### Two processes, one of which calls the stop and the other obeys it -/

def bounds : Options := ⟨(30, 3600), (30, 1800)⟩

def halt : Json :=
  .object [("id", .string "a3f1"), ("type", .string "halt"), ("seconds", .number 60),
    ("quiescence", .number 5), ("CREATED", .number 1700)]

def taken : Pending := ⟨0, "a3f1", 60, 30, 10, 1700⟩

def obeyed : List (Act Bool) :=
  [.process true .connected, .process false .connected, .merge ⟨"e", 1600, 0⟩, .post halt,
    .process true (.reached .edges), .process true (.reached .signals),
    .process true (.signalled halt 1710), .process false (.signalled halt 1720),
    .process true (.quieted 30), .process true .fired, .process true (.answered taken true),
    .process true (.checked (taken, some true) false), .commit (true, taken) "b4" 1800,
    .process false (.signalled (taken.stop "b4" 1800) 1810), .process true (.called taken true)]

theorem stopped_of_still_obeyed :
    ∃ t, run (step bounds 0) init obeyed = some t ∧ t.stopped = [(false, taken), (true, taken)] ∧
      (∃ q record, (.process q, record) ∈ t.signals ∧ Answers record "a3f1") ∧
      ∃ u before after q read, obeyed = before ++ .process q (.answered read true) :: after ∧
        run (step bounds 0) init before = some u ∧ read.id = "a3f1" ∧
        ∀ row ∈ u.rows, row.region = 0 → row.updated ≤ read.since := by
  obtain ⟨t, ht⟩ : ∃ t, run (step bounds 0) (init : Fleet Bool) obeyed = some t :=
    Option.isSome_iff_exists.mp (by decide +kernel)
  have hstopped : (run (step bounds 0) (init : Fleet Bool) obeyed).map stopped =
      some [(false, taken), (true, taken)] := by decide +kernel
  have hsignals : (run (step bounds 0) (init : Fleet Bool) obeyed).map signals =
      some [(.operator, halt), (.process true, taken.stop "b4" 1800)] := by decide +kernel
  rw [ht] at hstopped hsignals
  have hstopped : t.stopped = [(false, taken), (true, taken)] := Option.some.inj hstopped
  have hsignals : t.signals = [(.operator, halt), (.process true, taken.stop "b4" 1800)] :=
    Option.some.inj hsignals
  refine ⟨t, ht, hstopped, ?_⟩
  have hmem : (false, taken) ∈ t.stopped := hstopped ▸ List.mem_cons_self ..
  obtain ⟨-, ⟨record, hmem, htype, -⟩ | ⟨hwritten, before, after, u, q, read, has, hbefore, hread, -, hrows⟩⟩ :=
    stopped_of_still ht hmem
  · have hposted : record = halt := by simpa [hsignals] using hmem
    rw [hposted] at htype
    exact absurd htype (by decide)
  · exact ⟨hwritten, u, before, after, q, read, has, hbefore, hread, hrows⟩

/-! ## No process is quiet for good -/

def own (p : ι) : Act ι → Bool
  | .process q e => q = p ∧ e.own
  | _ => false

theorem processes_step {s t : Fleet ι} {a : Act ι} (hstep : s.step options region a = some t) (p : ι) :
    (own p a = false ∧ t.processes p = s.processes p) ∨
      ∃ e, own p a = e.own ∧ (s.processes p).step options e = some (t.processes p) := by
  cases a with
  | process q e =>
    obtain ⟨-, hstep⟩ := Option.ite_none_right_eq_some.mp hstep
    obtain ⟨next, hnext, rfl⟩ := Option.map_eq_some_iff.mp hstep
    by_cases hsame : q = p
    · subst hsame
      refine .inr ⟨e, by simp [own], ?_⟩
      have hself : Function.update s.processes q next q = next := Function.update_self ..
      exact hnext.trans (congrArg some hself.symm)
    · exact .inl ⟨by simp [own, hsame], Function.update_of_ne (Ne.symm hsame) _ _⟩
  | merge row =>
    obtain rfl := Option.some.inj hstep
    exact .inl ⟨rfl, rfl⟩
  | post signal =>
    obtain rfl := Option.some.inj hstep
    exact .inl ⟨rfl, rfl⟩
  | commit request id created =>
    obtain ⟨-, hstep⟩ := Option.ite_none_right_eq_some.mp hstep
    obtain rfl := Option.some.inj hstep
    exact .inl ⟨rfl, rfl⟩

theorem process_inv_step {p : ι} {s t : Fleet ι} {a : Act ι} (h : (s.processes p).Inv)
    (hstep : s.step options region a = some t) : (t.processes p).Inv := by
  obtain ⟨-, hsame⟩ | ⟨e, -, hnext⟩ := processes_step hstep p
  · exact hsame ▸ h
  · exact Process.inv_step h hnext

theorem process_inv {p : ι} {s : Fleet ι} {as : List (Act ι)}
    (hrun : run (step options region) init as = some s) : (s.processes p).Inv :=
  run_invariant_all (I := fun u : Fleet ι => (u.processes p).Inv) (fun _ _ _ h hs => process_inv_step h hs)
    (Process.inv_of_none (fun h => (by cases h.1)) rfl) hrun

theorem own_le_rank {p : ι} {s t : Fleet ι} {as : List (Act ι)} (h : (s.processes p).Inv)
    (hquiet : Along (step options region) (fun u _ => (u.processes p).Quiet) s as)
    (hrun : run (step options region) s as = some t) : as.countP (own p) ≤ (s.processes p).rank := by
  induction as generalizing s with
  | nil => exact Nat.zero_le _
  | cons a as ih =>
    obtain ⟨u, hu, hrest⟩ := run_cons_eq_some.mp hrun
    have htail := ih (process_inv_step h hu) (hquiet.2 u hu) hrest
    rw [List.countP_cons]
    obtain ⟨hown, hsame⟩ | ⟨e, hown, hnext⟩ := processes_step hu p
    · rw [hown, if_neg Bool.false_ne_true, ← hsame]
      exact htail
    · by_cases hstays : (u.processes p).Quiet
      · have hrank := Process.rank_step h hquiet.1 hstays hnext
        rw [hown]
        cases hcost : e.own <;> simp only [hcost, Bool.toNat_true, Bool.toNat_false] at hrank <;> simp <;> omega
      · have hpos := Process.rank_pos h hquiet.1
        cases as with
        | nil =>
          rw [List.countP_nil]
          split <;> omega
        | cons b bs => exact absurd (hquiet.2 u hu).1 hstays

/-- A process that is quiet and not on its way down has a step of its own to take, whatever the explorer and
the other processes do, and takes no more of them than it has in flight before it works again or is taken
down: no process is quiet for good. -/
theorem quiet_ends {s : Fleet ι} {before : List (Act ι)} {p : ι}
    (hrun : run (step options region) init before = some s) :
    ((s.processes p).Quiet → ∃ a, own p a = true ∧ (s.step options region a).isSome = true) ∧
      ∀ as t, run (step options region) s as = some t →
        Along (step options region) (fun u _ => (u.processes p).Quiet) s as →
        as.countP (own p) ≤ (s.processes p).rank := by
  have h : (s.processes p).Inv := process_inv hrun
  refine ⟨fun hquiet => ?_, fun as t hafter hquiet => own_le_rank h hquiet hafter⟩
  obtain ⟨e, hown, hcalled, hsome⟩ := Process.own_of_quiet options h hquiet
  refine ⟨.process p e, by simp [own, hown], ?_⟩
  have hadmits : s.Admits region e := by
    cases e with
    | called pending written =>
      cases written with
      | false => trivial
      | true => exact absurd rfl (hcalled pending)
    | quieted | fired | checked => trivial
    | _ => cases hown
  rw [step, if_pos hadmits, Option.isSome_map]
  exact hsome

theorem quiet_ends_obeyed :
    ∃ s, run (step bounds 0) init (obeyed.take 8) = some s ∧ (s.processes true).Quiet ∧
      (s.processes true).rank = 5 ∧
      (∃ a, own true a = true ∧ (s.step bounds 0 a).isSome = true) ∧
      ∀ as t, run (step bounds 0) s as = some t →
        Along (step bounds 0) (fun u _ => (u.processes true).Quiet) s as → as.countP (own true) ≤ 5 := by
  obtain ⟨s, hs⟩ : ∃ s, run (step bounds 0) (init : Fleet Bool) (obeyed.take 8) = some s :=
    Option.isSome_iff_exists.mp (by decide +kernel)
  have hread : (run (step bounds 0) (init : Fleet Bool) (obeyed.take 8)).map
      (fun s => (decide (s.processes true).Quiet, (s.processes true).rank)) = some (true, 5) := by decide +kernel
  rw [hs] at hread
  obtain ⟨hquiet, hrank⟩ := Prod.mk.inj (Option.some.inj hread)
  have hquiet : (s.processes true).Quiet := of_decide_eq_true hquiet
  obtain ⟨hgoes, hends⟩ := quiet_ends (p := true) hs
  exact ⟨s, hs, hquiet, hrank, hgoes hquiet, fun as t hrun halong => hrank ▸ hends as t hrun halong⟩

end Fleet

end Toa.Introspection
