import Mathlib.Data.List.Flatten
import Mathlib.Data.List.Forall2
import Mathlib.Data.List.Perm.Subperm
import Toa.Octets.Execution

/-! What an execution reports, whatever the order its steps go on in: each unit it took as a whole, in turn, each
step of a unit by a story of its own with one ending, and nothing of a unit that follows a failure. -/

namespace Toa.Octets
variable {V E : Type*}

def Report.failed (r : Report V E) : Bool := r.error.isSome || r.status == some .exception

namespace Execution
open Run

/-! ## What a step tells -/

/-- A result of which `context.steps` can hold a copy, or has none to hold. -/
def copied (clone : V → Option V) : Result V E → Bool
  | .value v => (clone v).isSome
  | .undefined | .error _ => true

def reply (clone : V → Option V) (step : String) (result : Result V E) : Report V E :=
  if copied clone result then written step result true else excepted step

def Action.of : Action V E → Option String
  | .waited step | .replied step _ | .delivered step _ | .drained step | .broke step => some step
  | .discovered .. | .proceed | .destroy => none

def Called (step : String) (done : List (Action V E)) : Prop := done = [] ∨ done = [.waited step]

def Streamed (clone : V → Option V) (step : String) (done : List (Action V E)) (reports : List (Report V E)) : Prop :=
  ∃ (before : List (Action V E)) (items : List (Result V E)), Called step before ∧
    (∀ item ∈ items, copied clone item = true) ∧
    done = before ++ .replied step .stream :: items.map (.delivered step) ∧
    reports = items.map fun item => written step item false

/-- A step that has ended, by what was done of it in a run of `actions`: its component was refused, its operation
answered or threw, or a stream of it was read to its end, broke, or delivered what cannot be copied. -/
inductive Told (clone : V → Option V) (actions : List (Action V E)) (entry : String × String) :
    List (Action V E) → List (Report V E) → Prop
  | refused (h : .discovered (Endpoint.of entry.2).key false ∈ actions) :
      Told clone actions entry [.waited entry.1] [excepted entry.1]
  | answered {done : List (Action V E)} (h : Called entry.1 done) (result : Result V E) :
      Told clone actions entry (done ++ [.replied entry.1 (.result result)]) [reply clone entry.1 result]
  | threw {done : List (Action V E)} (h : Called entry.1 done) :
      Told clone actions entry (done ++ [.replied entry.1 .threw]) [excepted entry.1]
  | drained {done : List (Action V E)} {reports : List (Report V E)} (h : Streamed clone entry.1 done reports) :
      Told clone actions entry (done ++ [.drained entry.1]) (reports ++ [written entry.1 .undefined true])
  | broke {done : List (Action V E)} {reports : List (Report V E)} (h : Streamed clone entry.1 done reports) :
      Told clone actions entry (done ++ [.broke entry.1]) (reports ++ [excepted entry.1])
  | undelivered {done : List (Action V E)} {reports : List (Report V E)} (h : Streamed clone entry.1 done reports)
      (item : Result V E) (hitem : copied clone item = false) :
      Told clone actions entry (done ++ [.delivered entry.1 item]) (reports ++ [excepted entry.1])

/-- What was done while a unit was taken, and what was reported by then. -/
structure Chapter (V E : Type*) where
  actions : List (Action V E) := []
  reports : List (Report V E) := []

def doneOf (step : String) (actions : List (Action V E)) : List (Action V E) := actions.filter (·.of = some step)

def its (step : String) (reports : List (Report V E)) : List (Report V E) := reports.filter (·.step = step)

structure Complete (clone : V → Option V) (actions : List (Action V E)) (unit : Unit) (chapter : Chapter V E) :
    Prop where
  mentions : ∀ r ∈ chapter.reports, r.step ∈ unit.entries.map Prod.fst
  told : ∀ e ∈ unit.entries, Told clone actions e (doneOf e.1 chapter.actions) (its e.1 chapter.reports)

def Chapter.failed (chapter : Chapter V E) : Bool := chapter.reports.any Report.failed

/-- Unit by unit, up to one with a failure among its reports. -/
def Executed (clone : V → Option V) (actions : List (Action V E)) : List Unit → List (Chapter V E) → Prop
  | [], chapters => chapters = []
  | unit :: units, chapters => ∃ chapter rest, chapters = chapter :: rest ∧ Complete clone actions unit chapter ∧
      if chapter.failed then rest = [] else Executed clone actions units rest

def Running.key (r : Running) : String := (Endpoint.of r.endpoint).key

/-- What was done and told of a step where it is. A cut stream is one of an execution that was destroyed. -/
def Progress (clone : V → Option V) (actions : List (Action V E)) (entry : String × String) :
    Phase → List (Action V E) → List (Report V E) → Prop
  | .discovering, done, reports => done = [] ∧ reports = []
  | .calling, done, reports => Called entry.1 done ∧ reports = []
  | .streaming, done, reports => Streamed clone entry.1 done reports
  | .cut, _, _ => False
  | .settled, done, reports => Told clone actions entry done reports

/-- Where an action takes a step, and what is reported of it. -/
inductive Advance (clone : V → Option V) (s : Execution V E) (r : Running) :
    Action V E → Phase → List (Report V E) → Prop
  | found (h : r.phase = .discovering) : Advance clone s r (.waited r.step) .calling []
  | refused (h : r.phase = .discovering) (hrefused : s.discovery.lookup r.key = some .refused) :
      Advance clone s r (.waited r.step) .settled [excepted r.step]
  | answered (h : r.phase = .calling) (result : Result V E) :
      Advance clone s r (.replied r.step (.result result)) .settled [reply clone r.step result]
  | threw (h : r.phase = .calling) : Advance clone s r (.replied r.step .threw) .settled [excepted r.step]
  | opened (h : r.phase = .calling) : Advance clone s r (.replied r.step .stream) .streaming []
  | delivered (h : r.phase = .streaming) (result : Result V E)
      (hcopied : s.destroyed = true ∨ copied clone result = true) :
      Advance clone s r (.delivered r.step result) .streaming [written r.step result false]
  | undelivered (h : r.phase = .streaming) (result : Result V E) (hcopied : copied clone result = false) :
      Advance clone s r (.delivered r.step result) .settled [excepted r.step]
  | drained (h : r.phase = .streaming) :
      Advance clone s r (.drained r.step) .settled [written r.step .undefined true]
  | broke (h : r.phase = .streaming) : Advance clone s r (.broke r.step) .settled [excepted r.step]
  | ended (h : r.phase = .cut) : Advance clone s r (.broke r.step) .settled [excepted r.step]

section
variable {clone : V → Option V} {s : Execution V E} {r : Running} {a : Action V E} {phase : Phase} {step : String}
  {said reports : List (Report V E)} {done : List (Action V E)}

@[simp] theorem written_step (step : String) (result : Result V E) (completed : Bool) :
    (written step result completed).step = step := by
  cases result <;> rfl

@[simp] theorem reply_step (clone : V → Option V) (step : String) (result : Result V E) :
    (reply clone step result).step = step := by
  rw [reply]
  split
  · exact written_step ..
  · rfl

theorem Advance.step_eq (h : Advance clone s r a phase said) : ∀ report ∈ said, report.step = r.step := by
  intro report hreport
  cases h with
  | found | opened => cases hreport
  | refused | threw | undelivered | broke | ended => exact congrArg Report.step (List.mem_singleton.mp hreport)
  | answered => exact (congrArg Report.step (List.mem_singleton.mp hreport)).trans (reply_step ..)
  | delivered | drained => exact (congrArg Report.step (List.mem_singleton.mp hreport)).trans (written_step ..)

theorem Advance.of_eq (h : Advance clone s r a phase said) : a.of = some r.step := by
  cases h <;> rfl

theorem Advance.unsettled (h : Advance clone s r a phase said) : r.phase ≠ .settled := by
  cases h <;> simp_all

theorem Advance.not_discovering (h : Advance clone s r a phase said) : phase ≠ .discovering := by
  cases h <;> nofun

theorem Advance.calling (h : Advance clone s r a .calling said) : r.phase = .discovering := by
  cases h
  assumption

theorem Told.mono {actions more : List (Action V E)} {entry : String × String}
    (h : Told clone actions entry done reports) : Told clone (actions ++ more) entry done reports := by
  cases h with
  | refused h => exact .refused (List.mem_append_left _ h)
  | answered h result => exact .answered h result
  | threw h => exact .threw h
  | drained h => exact .drained h
  | broke h => exact .broke h
  | undelivered h item hitem => exact .undelivered h item hitem

theorem Complete.mono {actions more : List (Action V E)} {unit : Unit} {chapter : Chapter V E}
    (h : Complete clone actions unit chapter) : Complete clone (actions ++ more) unit chapter :=
  ⟨h.mentions, fun e he => (h.told e he).mono⟩

theorem Progress.mono {actions more : List (Action V E)} {entry : String × String}
    (h : Progress clone actions entry phase done reports) :
    Progress clone (actions ++ more) entry phase done reports := by
  cases phase with
  | settled => exact Told.mono h
  | _ => exact h

theorem Called.waited (step : String) : Called step [(.waited step : Action V E)] := .inr rfl

theorem Called.streamed (h : Called step done) :
    Streamed clone step (done ++ [.replied step .stream]) ([] : List (Report V E)) :=
  ⟨done, [], h, nofun, rfl, rfl⟩

theorem Streamed.delivered (h : Streamed clone step done reports) {result : Result V E}
    (hcopied : copied clone result = true) :
    Streamed clone step (done ++ [.delivered step result]) (reports ++ [written step result false]) := by
  obtain ⟨before, items, hbefore, hitems, rfl, rfl⟩ := h
  refine ⟨before, items ++ [result], hbefore, fun item hitem => ?_, ?_, ?_⟩
  · obtain hitem | hitem := List.mem_append.mp hitem
    · exact hitems item hitem
    · exact List.mem_singleton.mp hitem ▸ hcopied
  · rw [List.append_assoc, List.cons_append, List.map_append, List.map_singleton]
  · rw [List.map_append, List.map_singleton]

theorem Advance.progress {actions : List (Action V E)} (h : Advance clone s r a phase said)
    (hdestroyed : s.destroyed = false)
    (hrefused : s.discovery.lookup r.key = some .refused → .discovered r.key false ∈ actions)
    (hp : Progress clone actions r.entry r.phase done reports) :
    Progress clone actions r.entry phase (done ++ [a]) (reports ++ said) := by
  cases h with
  | found h =>
    rw [h] at hp
    obtain ⟨rfl, rfl⟩ := hp
    exact ⟨Called.waited _, rfl⟩
  | refused h hlookup =>
    rw [h] at hp
    obtain ⟨rfl, rfl⟩ := hp
    exact Told.refused (hrefused hlookup)
  | answered h result =>
    rw [h] at hp
    obtain ⟨hcalled, rfl⟩ := hp
    exact Told.answered hcalled result
  | threw h =>
    rw [h] at hp
    obtain ⟨hcalled, rfl⟩ := hp
    exact Told.threw hcalled
  | opened h =>
    rw [h] at hp
    obtain ⟨hcalled, rfl⟩ := hp
    exact hcalled.streamed
  | delivered h result hcopied =>
    rw [h] at hp
    exact Streamed.delivered hp (hcopied.resolve_left (Bool.eq_false_iff.mp hdestroyed))
  | undelivered h result hcopied =>
    rw [h] at hp
    exact Told.undelivered hp result hcopied
  | drained h =>
    rw [h] at hp
    exact Told.drained hp
  | broke h =>
    rw [h] at hp
    exact Told.broke hp
  | ended h =>
    rw [h] at hp
    exact hp.elim

theorem its_append (reports said : List (Report V E)) :
    its step (reports ++ said) = its step reports ++ its step said :=
  List.filter_append ..

theorem its_self (h : ∀ r ∈ said, r.step = step) : its step said = said :=
  List.filter_eq_self.mpr fun r hr => decide_eq_true (h r hr)

theorem its_other {other : String} (h : ∀ r ∈ said, r.step = step) (hne : other ≠ step) : its other said = [] :=
  List.filter_eq_nil_iff.mpr fun r hr heq => hne ((of_decide_eq_true heq).symm.trans (h r hr))

theorem doneOf_concat_self (h : a.of = some step) (done : List (Action V E)) :
    doneOf step (done ++ [a]) = doneOf step done ++ [a] := by
  rw [doneOf, List.filter_append, List.filter_singleton, decide_eq_true h]
  rfl

theorem doneOf_concat_other (h : a.of ≠ some step) (done : List (Action V E)) :
    doneOf step (done ++ [a]) = doneOf step done := by
  rw [doneOf, List.filter_append, List.filter_singleton, decide_eq_false h]
  exact List.append_nil _

end

/-! ## What a step of an execution can do -/

section
variable (clone : V → Option V)

def note (steps : List (String × V)) (r : Report V E) : List (String × V) :=
  match r.output.bind clone with
  | some copy => Assoc.gather r.step copy (fun _ => copy) steps
  | none => steps

def outputs (reports : List (Report V E)) : List (String × V) := reports.foldl (note clone) []

def heard (s : Execution V E) (said : List (Report V E)) : List (Report V E) := if s.destroyed then [] else said

def say (s : Execution V E) (said : List (Report V E)) : Execution V E :=
  { s with
    pushed := s.pushed ++ (s.heard said).map some
    interrupted := s.interrupted || (s.heard said).any Report.failed
    steps := (s.heard said).foldl (note clone) s.steps }

def moved (s : Execution V E) (r : Running) (phase : Phase) (said : List (Report V E))
    (called : List (Invocation V)) (components : List String) : Execution V E :=
  { (s.say clone said).turn r.step phase with invoked := s.invoked ++ called, components }

end

section
variable {clone : V → Option V} {s t : Execution V E}

@[simp] theorem say_nil (s : Execution V E) : s.say clone [] = s := by
  simp only [say, heard, ite_self, List.map_nil, List.append_nil, List.any_nil, Bool.or_false, List.foldl_nil]

theorem say_destroyed (h : s.destroyed = true) (said : List (Report V E)) : s.say clone said = s := by
  have hheard : s.heard said = s.heard [] := by rw [heard, heard, if_pos h, if_pos h]
  exact Eq.trans (by rw [say, say, hheard]) (say_nil s)

theorem exception_eq (clone : V → Option V) (s : Execution V E) (step : String) :
    s.exception step = s.say clone [excepted step] := by
  obtain hdestroyed | hdestroyed := Bool.eq_false_or_eq_true s.destroyed
  · rw [say_destroyed hdestroyed, exception, if_pos hdestroyed]
  · simp [exception, say, heard, hdestroyed, push, Report.failed, excepted, note]

theorem report_eq_some {step : String} {result : Result V E} {completed : Bool}
    (h : s.report clone step result completed = some t) :
    (s.destroyed = true ∨ copied clone result = true) ∧ t = s.say clone [written step result completed] := by
  dsimp only [report] at h
  obtain hdestroyed | hdestroyed := Bool.eq_false_or_eq_true s.destroyed
  · rw [if_pos hdestroyed, Option.some.injEq] at h
    exact ⟨.inl hdestroyed, by rw [say_destroyed hdestroyed, h]⟩
  · rw [if_neg (Bool.eq_false_iff.mp hdestroyed)] at h
    cases result with
    | undefined =>
      cases h
      refine ⟨.inr rfl, ?_⟩
      cases completed <;> simp [say, heard, hdestroyed, push, Report.failed, written, note]
    | error e =>
      cases h
      refine ⟨.inr rfl, ?_⟩
      simp [say, heard, hdestroyed, push, Report.failed, written, note]
    | value v =>
      obtain ⟨copy, hcopy, rfl⟩ := Option.map_eq_some_iff.mp h
      refine ⟨.inr (by rw [copied, hcopy, Option.isSome_some]), ?_⟩
      cases completed <;> simp [say, heard, hdestroyed, push, Report.failed, written, note, hcopy]

theorem report_eq_none {step : String} {result : Result V E} {completed : Bool}
    (h : s.report clone step result completed = none) : copied clone result = false := by
  dsimp only [report] at h
  split at h
  · cases h
  · split at h
    · cases h
    · cases h
    · rw [copied, Option.map_eq_none_iff.mp h, Option.isSome_none]

theorem answer_eq (clone : V → Option V) (s : Execution V E) (step : String) (result : Result V E) :
    s.answer clone step result = s.say clone [reply clone step result] := by
  rw [answer, reply]
  cases h : s.report clone step result true with
  | none =>
    rw [report_eq_none h, Option.getD_none, exception_eq clone]
    rfl
  | some t =>
    obtain ⟨hcopied, rfl⟩ := report_eq_some h
    obtain hdestroyed | hcopied := hcopied
    · rw [Option.getD_some, say_destroyed hdestroyed, say_destroyed hdestroyed]
    · rw [if_pos hcopied, Option.getD_some]

theorem find_some {step : String} {phases : List Phase} {r : Running} (h : s.find step phases = some r) :
    r ∈ s.running ∧ r.step = step ∧ r.phase ∈ phases := by
  have hfound := List.find?_some h
  exact ⟨List.mem_of_find?_eq_some h, of_decide_eq_true hfound⟩

theorem turn_self {r : Running} (hdistinct : (s.running.map (·.step)).Nodup) (hr : r ∈ s.running) :
    s.turn r.step r.phase = s := by
  have hmap : s.running.map (fun x => if x.step = r.step then { x with phase := r.phase } else x) = s.running := by
    refine (List.map_congr_left fun x hx => ?_).trans (List.map_id _)
    split_ifs with heq
    · rw [List.inj_on_of_nodup_map hdistinct hx hr heq]
      rfl
    · rfl
  rw [turn, hmap]

/-- Whatever a step does but begin, end or be cut with the rest, it moves one of the steps in flight. -/
inductive Did (clone : V → Option V) (s : Execution V E) : Action V E → Execution V E → Prop
  | discovered (key : String) (found : Bool) (h : s.discovery.lookup key = some .asked) :
      Did clone s (.discovered key found) { s with discovery := settle s.discovery key found }
  | moved {a : Action V E} (r : Running) (hr : r ∈ s.running) (phase : Phase) (said : List (Report V E))
      (components : List String) (hadvance : Advance clone s r a phase said) :
      Did clone s a (s.moved clone r phase said
        (if phase = .calling then [⟨r.step, r.endpoint, s.steps⟩] else []) components)
  | proceeded (hreturned : s.returned = false) (h : ∀ r ∈ s.running, r.phase = .settled) : Did clone s .proceed s.proceed
  | destroyed (h : s.destroyed = false) : Did clone s .destroy s.destroy

theorem did_moved {a : Action V E} {r : Running} (hr : r ∈ s.running) {phase : Phase} {said : List (Report V E)}
    (hadvance : Advance clone s r a phase said) (hcalling : phase ≠ .calling) :
    Did clone s a ((s.say clone said).turn r.step phase) := by
  have h : Did clone s a (s.moved clone r phase said _ s.components) :=
    .moved r hr phase said s.components hadvance
  rwa [if_neg hcalling, moved, List.append_nil] at h

theorem did_called {r : Running} (hr : r ∈ s.running) (hphase : r.phase = .discovering)
    (components : List String) :
    Did clone s (.waited r.step) ({ s.invoke r.step r.endpoint with components }.turn r.step .calling) := by
  have h : Did clone s (.waited r.step) (s.moved clone r .calling [] _ components) :=
    .moved r hr .calling [] components (.found hphase)
  rwa [if_pos rfl, moved, say_nil] at h

theorem did_opened {r : Running} (hr : r ∈ s.running) (hphase : r.phase = .calling) :
    Did clone s (.replied r.step .stream) (s.turn r.step .streaming) := by
  have h : Did clone s (.replied r.step .stream) ((s.say clone []).turn r.step .streaming) :=
    did_moved hr (.opened hphase) nofun
  rwa [say_nil] at h

theorem did_delivered {r : Running} (hdistinct : (s.running.map (·.step)).Nodup) (hr : r ∈ s.running)
    (hphase : r.phase = .streaming) (result : Result V E) (hcopied : s.destroyed = true ∨ copied clone result = true) :
    Did clone s (.delivered r.step result) (s.say clone [written r.step result false]) := by
  have hself : (s.say clone [written r.step result false]).turn r.step r.phase =
      s.say clone [written r.step result false] :=
    turn_self hdistinct hr
  rw [hphase] at hself
  exact hself ▸ did_moved hr (.delivered hphase result hcopied) nofun

theorem did_of_step {a : Action V E} (hdistinct : (s.running.map (·.step)).Nodup) (h : step clone s a = some t) :
    Did clone s a t := by
  cases a with
  | discovered key found =>
    obtain ⟨hasked, rfl⟩ := Option.ite_none_right_eq_some.mp h |>.imp_right Option.some.inj
    exact .discovered key found hasked
  | waited name =>
    obtain ⟨r, hfind, h⟩ := Option.bind_eq_some_iff.mp h
    obtain ⟨hr, rfl, hphase⟩ := find_some hfind
    have hphase : r.phase = .discovering := List.mem_singleton.mp hphase
    dsimp only at h
    split at h
    · cases h
      exact did_called hr hphase _
    · rename_i hrefused
      cases h
      rw [exception_eq clone]
      exact did_moved hr (.refused hphase hrefused) nofun
    · cases h
  | replied name reply =>
    obtain ⟨r, hfind, h⟩ := Option.map_eq_some_iff.mp h
    obtain ⟨hr, rfl, hphase⟩ := find_some hfind
    have hphase : r.phase = .calling := List.mem_singleton.mp hphase
    cases reply with
    | result result =>
      dsimp only at h
      rw [answer_eq] at h
      exact h ▸ did_moved hr (.answered hphase result) nofun
    | stream =>
      dsimp only at h
      exact h ▸ did_opened hr hphase
    | threw =>
      dsimp only at h
      rw [exception_eq clone] at h
      exact h ▸ did_moved hr (.threw hphase) nofun
  | delivered name result =>
    obtain ⟨r, hfind, h⟩ := Option.map_eq_some_iff.mp h
    obtain ⟨hr, rfl, hphase⟩ := find_some hfind
    have hphase : r.phase = .streaming := List.mem_singleton.mp hphase
    cases hreport : s.report clone r.step result false with
    | none =>
      rw [hreport, Option.getD_none, exception_eq clone] at h
      exact h ▸ did_moved hr (.undelivered hphase result (report_eq_none hreport)) nofun
    | some u =>
      obtain ⟨hcopied, rfl⟩ := report_eq_some hreport
      rw [hreport, Option.getD_some] at h
      exact h ▸ did_delivered hdistinct hr hphase result hcopied
  | drained name =>
    obtain ⟨r, hfind, h⟩ := Option.map_eq_some_iff.mp h
    obtain ⟨hr, rfl, hphase⟩ := find_some hfind
    have hphase : r.phase = .streaming := List.mem_singleton.mp hphase
    rw [answer_eq] at h
    exact h ▸ did_moved hr (.drained hphase) nofun
  | broke name =>
    obtain ⟨r, hfind, rfl⟩ := Option.map_eq_some_iff.mp h
    obtain ⟨hr, rfl, hphase⟩ := find_some hfind
    rw [exception_eq clone]
    obtain hphase | hphase := List.mem_pair.mp hphase
    · exact did_moved hr (.broke hphase) nofun
    · exact did_moved hr (.ended hphase) nofun
  | proceed =>
    obtain ⟨⟨hreturned, hsettled⟩, rfl⟩ := Option.ite_none_right_eq_some.mp h |>.imp_right Option.some.inj
    exact .proceeded (Bool.eq_false_iff.mpr hreturned) hsettled
  | destroy =>
    obtain ⟨hdestroyed, rfl⟩ := Option.ite_none_left_eq_some.mp h |>.imp_right Option.some.inj
    exact .destroyed (Bool.eq_false_iff.mpr hdestroyed)

end

end Execution

end Toa.Octets
