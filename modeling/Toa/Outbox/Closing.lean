import Toa.Outbox.Delivery

/-! A process that closes its outbox. No cycle is begun once it does; one that is under way goes on
with what it has read, and what it then emits or settles is not waited for. -/

set_option linter.unusedSectionVars false

namespace Toa.Outbox
open Run

universe u v
variable {ρ : Type u} {ι : Type v} [DecidableEq ρ] [LinearOrder ι]

namespace Process

def closing (p : Process ι) : Bool :=
  match p.close with
  | .none => false
  | _ => true

/-- `close()` is complete. -/
def closed (p : Process ι) : Bool :=
  match p.close with
  | .marking [] => true
  | _ => false

def idle (p : Process ι) : Bool :=
  match p.pump with
  | .marking [] => true
  | _ => false

/-- What `#send` leaves where it is. -/
def full (p : Process ι) (d : Name) : Bool :=
  INFLIGHT ≤ (p.inflight d).length ∨ PUBLISHED ≤ (p.published d).length

def stale (destinations : Destinations) (p : Process ι) : Bool :=
  match p.pump with
  | .read page => page.all fun row =>
    destinations.names.all fun d => !p.due destinations row d || p.full d
  | _ => true

theorem closing_of_closed {p : Process ι} (h : p.closed = true) : p.closing = true := by
  unfold closed at h
  unfold closing
  split at h
  · rename_i hclose
    rw [hclose]
  · exact nomatch h

end Process

/-! ## What a process does when it closes -/

/-- The steps of a cycle of the process, each of which reads or settles, or is between two that do. -/
def Act.Cycles (k : ρ) : Act ρ ι → Prop
  | .tick k' | .read k' _ _ | .unread k' | .hand k' | .awaited k' => k' = k
  | .settled k' .pump | .unsettled k' .pump => k' = k
  | _ => False

def Opens (k : ρ) (s : State ρ ι) : Act ρ ι → Prop
  | .opened k' => k' = k → (s.processes k).closing = false
  | _ => True

/-- What a cycle has in hand while the outbox is closing is nothing to send, and the close is not
complete before the cycle is. -/
def Drains (destinations : ρ → Destinations) (k : ρ) (s : State ρ ι) : Act ρ ι → Prop
  | .hand k' => k' = k → (s.processes k).closing = true →
    (s.processes k).stale (destinations k) = true
  | .drained k' => k' = k → ((s.processes k).groups (destinations k)).isEmpty = true →
    (s.processes k).idle = true
  | .settled k' .close | .unsettled k' .close => k' = k →
    ((s.processes k).marking .close).length = 1 → (s.processes k).idle = true
  | _ => True

instance (k : ρ) (s : State ρ ι) : (a : Act ρ ι) → Decidable (Opens k s a)
  | .opened _ => inferInstanceAs (Decidable (_ → _))
  | .legacy .. | .commit .. | .publish .. | .sent .. | .failed .. | .tick _ | .read .. | .unread _
  | .hand _ | .awaited _ | .update .. | .settled .. | .unsettled .. | .close _ | .drained _
  | .reap .. | .crash _ => isTrue trivial

instance (destinations : ρ → Destinations) (k : ρ) (s : State ρ ι) :
    (a : Act ρ ι) → Decidable (Drains destinations k s a)
  | .hand _ => inferInstanceAs (Decidable (_ → _ → _))
  | .drained _ => inferInstanceAs (Decidable (_ → _ → _))
  | .settled _ .close => inferInstanceAs (Decidable (_ → _ → _))
  | .unsettled _ .close => inferInstanceAs (Decidable (_ → _ → _))
  | .settled _ .pump | .unsettled _ .pump => isTrue trivial
  | .legacy .. | .commit .. | .publish .. | .sent .. | .failed .. | .opened _ | .tick _ | .read ..
  | .unread _ | .awaited _ | .update .. | .close _ | .reap .. | .crash _ => isTrue trivial

/-- A process that is closing begins no cycle, and has none under way once it is closed. -/
structure Process.Quiet (p : Process ι) : Prop where
  ticking : p.closing = true → p.ticking = false
  idle : p.closed = true → p.idle = true

def Process.Silent (p q : Process ι) : Prop :=
  p.closing = true → ∀ d, (q.inflight d).Sublist (p.inflight d)

namespace Process

theorem Silent.refl (p : Process ι) : p.Silent p := fun _ _ => List.Sublist.refl _

theorem Quiet.not_closed {p : Process ι} (h : p.Quiet) (hidle : p.idle = false) : p.closed = false :=
  Bool.eq_false_iff.mpr fun hclosed => nomatch hidle.symm.trans (h.idle hclosed)

/-! What is published is written in what is in flight alone. -/

theorem send_eq (p : Process ι) (row : Row ι) (d : Name) : ∃ publishing inflight,
    p.send row d = { p with publishing := publishing, inflight := inflight } := by
  unfold send
  split_ifs
  · exact ⟨p.publishing, p.inflight, rfl⟩
  · exact ⟨_, _, rfl⟩

theorem publish_eq (destinations : Destinations) (p : Process ι) (row : Row ι) :
    ∃ publishing inflight, p.publish destinations row =
      { p with publishing := publishing, inflight := inflight } := by
  unfold publish
  generalize destinations.names = names
  induction names generalizing p with
  | nil => exact ⟨p.publishing, p.inflight, rfl⟩
  | cons d names ih =>
    rw [List.foldl_cons]
    split_ifs
    · obtain ⟨publishing, inflight, hsend⟩ := send_eq p row d
      rw [hsend]
      exact ih _
    · exact ih p

theorem hand_eq (destinations : Destinations) (p : Process ι) (page : List (Row ι)) :
    ∃ publishing inflight, p.hand destinations page =
      { p with publishing := publishing, inflight := inflight } := by
  unfold hand
  generalize page.filter _ = rows
  induction rows generalizing p with
  | nil => exact ⟨p.publishing, p.inflight, rfl⟩
  | cons row rows ih =>
    obtain ⟨publishing, inflight, hpublish⟩ := publish_eq destinations p row
    rw [List.foldl_cons, hpublish]
    exact ih _

theorem publish_full {destinations : Destinations} {p : Process ι} {row : Row ι}
    (h : ∀ d ∈ destinations.names, p.due destinations row d = true → p.full d = true) :
    p.publish destinations row = p := by
  unfold publish
  have hkept : ∀ d ∈ destinations.names,
      (if p.due destinations row d then p.send row d else p) = p := by
    intro d hd
    split_ifs with hdue
    · exact if_pos (of_decide_eq_true (h d hd hdue))
    · rfl
  generalize destinations.names = names at hkept
  induction names with
  | nil => rfl
  | cons d names ih =>
    obtain ⟨hd, hnames⟩ := List.forall_mem_cons.mp hkept
    rw [List.foldl_cons, hd]
    exact ih hnames

theorem hand_stale {destinations : Destinations} {p : Process ι} {page : List (Row ι)}
    (hpump : p.pump = .read page) (h : p.stale destinations = true) :
    p.hand destinations page = p := by
  unfold hand
  have hpage : ∀ row ∈ page, p.publish destinations row = p := by
    intro row hrow
    refine publish_full fun d hd hdue => ?_
    simp only [stale, hpump, List.all_eq_true] at h
    simpa only [hdue, Bool.not_true, Bool.false_or] using h row hrow d hd
  have hrows : ∀ row ∈ page.filter fun row => destinations.names.any (p.due destinations row),
      p.publish destinations row = p := fun row hrow => hpage row (List.mem_of_mem_filter hrow)
  generalize page.filter _ = rows at hrows
  induction rows with
  | nil => rfl
  | cons row rows ih =>
    obtain ⟨hrow, hrest⟩ := List.forall_mem_cons.mp hrows
    rw [List.foldl_cons, hrow]
    exact ih hrest

structure Calm (p q : Process ι) : Prop where
  quiet : q.Quiet
  silent : p.Silent q

theorem Quiet.calm {p : Process ι} (h : p.Quiet) : Calm p p := ⟨h, .refl p⟩

theorem Quiet.same {p q : Process ι} (h : p.Quiet) (hticking : q.ticking = p.ticking)
    (hpump : q.pump = p.pump) (hclose : q.close = p.close)
    (hinflight : p.Silent q) : Calm p q where
  quiet := by
    have hclosing : q.closing = p.closing := by rw [closing, closing, hclose]
    have hclosed : q.closed = p.closed := by rw [closed, closed, hclose]
    have hidle : q.idle = p.idle := by rw [Process.idle, Process.idle, hpump]
    exact ⟨by rw [hclosing, hticking]; exact h.ticking, by rw [hclosed, hidle]; exact h.idle⟩
  silent := hinflight

theorem Quiet.pump {p q : Process ι} (h : p.Quiet) (hidle : p.idle = false)
    (hticking : q.ticking = p.ticking) (hclose : q.close = p.close)
    (hinflight : p.Silent q) : Calm p q where
  quiet := by
    have hclosing : q.closing = p.closing := by rw [closing, closing, hclose]
    have hclosed : q.closed = p.closed := by rw [closed, closed, hclose]
    refine ⟨by rw [hclosing, hticking]; exact h.ticking, fun hq => ?_⟩
    rw [hclosed, h.not_closed hidle] at hq
    exact nomatch hq
  silent := hinflight

theorem Quiet.close {p q : Process ι} (h : p.Quiet) (hclosing : p.closing = true)
    (hticking : q.ticking = p.ticking) (hpump : q.pump = p.pump)
    (hidle : q.closed = true → p.idle = true) (hinflight : p.Silent q) : Calm p q where
  quiet := by
    have hq : q.idle = p.idle := by rw [Process.idle, Process.idle, hpump]
    exact ⟨fun _ => hticking.trans (h.ticking hclosing), fun hclosed => hq.trans (hidle hclosed)⟩
  silent := hinflight

theorem calm_of_not_closing {p q : Process ι} (h : p.closing = false) (hclose : q.close = p.close) :
    Calm p q where
  quiet := by
    have hclosing : q.closing = false := by
      rw [closing, hclose]
      exact h
    exact ⟨fun hq => (by cases hclosing.symm.trans hq),
      fun hq => by cases hclosing.symm.trans (closing_of_closed hq)⟩
  silent := fun hp => by cases h.symm.trans hp

theorem closed_mark {p : Process ι} {groups : List (Group ι)} :
    (p.mark .close groups).closed = true ↔ groups.isEmpty = true := by
  cases groups <;> rfl

theorem silent_failed (p : Process ι) (d : Name) (id : ι) : p.Silent (p.failed d id) := by
  intro _ d'
  by_cases hd : d' = d
  · subst hd
    simp only [failed, Function.update_self]
    exact List.erase_sublist
  · simp only [failed, Function.update_of_ne hd]
    exact List.Sublist.refl _

end Process

/-! ## Every step -/

theorem become_calm {s : State ρ ι} {k k' : ρ} {p : Process ι} (hs : (s.processes k).Quiet)
    (h : k' = k → (s.processes k).Calm p) : (s.processes k).Calm ((s.become k' p).processes k) := by
  by_cases hk : k' = k
  · subst hk
    rw [s.become_self]
    exact h rfl
  · rw [s.become_of_ne fun hne => hk hne.symm]
    exact hs.calm

theorem mark_calm {p q : Process ι} (hp : p.Quiet) (hticking : q.ticking = p.ticking)
    (hpump : q.pump = p.pump) (hclose : q.close = p.close) (hinflight : q.inflight = p.inflight)
    {marker : Marker} {group : Group ι} {groups : List (Group ι)}
    (hmarking : p.marking marker = group :: groups)
    (hdrains : marker = .close → (p.marking .close).length = 1 → p.idle = true) :
    p.Calm (q.mark marker groups) := by
  have hsilent : p.Silent (q.mark marker groups) := by
    intro _ d
    have hsame : (q.mark marker groups).inflight = p.inflight := by
      cases marker <;> exact hinflight
    rw [hsame]
  cases marker with
  | pump =>
    have hidle : p.idle = false := by
      simp only [Process.marking] at hmarking
      split at hmarking
      · rename_i hp
        rw [Process.idle, hp, hmarking]
      · cases hmarking
    exact hp.pump hidle hticking hclose hsilent
  | close =>
    have hclosing : p.closing = true := by
      simp only [Process.marking] at hmarking
      split at hmarking
      · rename_i hp
        rw [Process.closing, hp]
      · cases hmarking
    refine hp.close hclosing hticking hpump (fun hclosed => hdrains rfl ?_) hsilent
    rw [hmarking, List.isEmpty_iff.mp (Process.closed_mark.mp hclosed)]
    rfl

section
variable {destinations : ρ → Destinations} {options : ρ → Options} {retention : ℕ}

theorem step_calm {s t : State ρ ι} {a : Act ρ ι} {k : ρ} (hs : (s.processes k).Quiet)
    (hopens : Opens k s a) (hdrains : Drains destinations k s a)
    (h : step destinations options retention s a = some t) :
    (s.processes k).Calm (t.processes k) := by
  have hidle_of {pump : Pump ι} (hpump : (s.processes k).pump = pump)
      (hne : ∀ groups, pump = .marking groups → groups ≠ []) : (s.processes k).idle = false := by
    unfold Process.idle
    rw [hpump]
    split
    · exact absurd rfl (hne _ rfl)
    · rfl
  cases next_of_step h with
  | legacy | update | reap => exact hs.calm
  | commit =>
    refine become_calm (s := s.insert _) hs fun hk => ?_
    subst hk
    exact hs.same rfl rfl rfl (.refl _)
  | deferred =>
    refine become_calm hs fun hk => ?_
    subst hk
    exact hs.same rfl rfl rfl (.refl _)
  | @publish k' id row hrow hclose =>
    refine become_calm hs fun hk => ?_
    subst hk
    -- it is not closing, so that what it starts is its to start
    have hclosing : (s.processes k').closing = false := by rw [Process.closing, hclose]
    refine Process.calm_of_not_closing hclosing ?_
    obtain ⟨publishing, inflight, hpublish⟩ := Process.publish_eq (destinations k')
      { s.processes k' with made := (s.processes k').made.filter (·.id ≠ id) } row
    rw [hpublish]
  | sent | failed =>
    refine become_calm hs fun hk => ?_
    subst hk
    exact hs.same rfl rfl rfl (Process.silent_failed _ _ _)
  | @opened k' =>
    refine become_calm hs fun hk => ?_
    subst hk
    exact Process.calm_of_not_closing (hopens rfl) rfl
  | @tick k' hticking =>
    refine become_calm hs fun hk => ?_
    subst hk
    have hclosing : (s.processes k').closing = false := by
      rw [Bool.eq_false_iff]
      intro h
      cases hticking.symm.trans (hs.ticking h)
    exact Process.calm_of_not_closing hclosing rfl
  | read hpump | unread hpump | empty hpump | more hpump | last hpump =>
    refine become_calm hs fun hk => ?_
    subst hk
    exact hs.pump (hidle_of hpump fun _ h => by cases h) rfl rfl (.refl _)
  | @hand k' page hpump =>
    refine become_calm hs fun hk => ?_
    subst hk
    obtain ⟨publishing, inflight, hhand⟩ := Process.hand_eq (destinations k') (s.processes k') page
    refine hs.pump (hidle_of hpump fun _ h => by cases h) ?_ ?_ fun hclosing => ?_
    · rw [hhand]
    · rw [hhand]
    · rw [Process.hand_stale hpump (hdrains rfl hclosing)]
      exact fun _ => List.Sublist.refl _
  | @settled k' marker group groups hmarking =>
    refine become_calm hs fun hk => ?_
    subst hk
    refine mark_calm (q := (s.processes k').settled group) hs rfl rfl rfl rfl hmarking fun hclose => ?_
    subst hclose
    exact hdrains rfl
  | @unsettled k' marker group groups hmarking =>
    refine become_calm hs fun hk => ?_
    subst hk
    refine mark_calm hs rfl rfl rfl rfl hmarking fun hclose => ?_
    subst hclose
    exact hdrains rfl
  | close =>
    refine become_calm hs fun hk => ?_
    subst hk
    exact ⟨⟨fun _ => rfl, fun h => by cases h⟩, .refl _⟩
  | @drained k' hclose =>
    refine become_calm hs fun hk => ?_
    subst hk
    have hclosing : (s.processes k').closing = true := by rw [Process.closing, hclose]
    exact hs.close hclosing rfl rfl (fun hclosed => hdrains rfl (Process.closed_mark.mp hclosed))
      (.refl _)
  | crash =>
    refine become_calm hs fun hk => ?_
    subst hk
    exact ⟨⟨fun h => (by cases h), fun h => (by cases h)⟩, fun _ _ => List.nil_sublist _⟩

theorem not_cycles {s t : State ρ ι} {a : Act ρ ι} {k : ρ} (hs : (s.processes k).Quiet)
    (hclosed : (s.processes k).closed = true)
    (h : step destinations options retention s a = some t) : ¬a.Cycles k := by
  have hticking := hs.ticking (Process.closing_of_closed hclosed)
  have hpump : (s.processes k).pump = .marking [] := by
    have hidle := hs.idle hclosed
    unfold Process.idle at hidle
    split at hidle
    · assumption
    · cases hidle
  intro hcycles
  cases next_of_step h with
  | tick hticking' =>
    subst hcycles
    cases hticking'.symm.trans hticking
  | read hpump' | unread hpump' | empty hpump' | hand hpump' | more hpump' | last hpump' =>
    subst hcycles
    cases hpump'.symm.trans hpump
  | @settled k' marker group groups hmarking | @unsettled k' marker group groups hmarking =>
    cases marker with
    | close => exact hcycles
    | pump =>
      obtain rfl : k' = k := hcycles
      rw [Process.marking, hpump] at hmarking
      cases hmarking
  | _ => exact hcycles

theorem quiet_init (k : ρ) : ((State.init : State ρ ι).processes k).Quiet :=
  ⟨fun h => (nomatch h), fun h => (nomatch h)⟩

/-- While an outbox is closing no emission of it is started, and once it is closed no cycle of the
process is left to read or to settle. -/
theorem closing_emits_nothing {acts : List (Act ρ ι)} {a : Act ρ ι} {s t : State ρ ι} {k : ρ}
    (hopens : Along (step destinations options retention) (Opens k) .init (acts ++ [a]))
    (hdrains : Along (step destinations options retention) (Drains destinations k) .init (acts ++ [a]))
    (hrun : run (step destinations options retention) .init acts = some s)
    (hstep : step destinations options retention s a = some t) :
    ((s.processes k).closing = true →
      ∀ d, ((t.processes k).inflight d).Sublist ((s.processes k).inflight d)) ∧
    ((s.processes k).closed = true → ¬a.Cycles k) := by
  have hboth := hopens.and hdrains
  have hs : (s.processes k).Quiet := run_invariant
    (fun _ _ _ hI hok h => (step_calm hI hok.1 hok.2 h).quiet) (quiet_init k) hboth.append_left hrun
  obtain ⟨⟨hopen, hdrain⟩, -⟩ := hboth.append_right hrun
  exact ⟨(step_calm hs hopen hdrain hstep).silent, fun hclosed => not_cycles hs hclosed hstep⟩

end

/-- A cycle that was reading goes on reading once the outbox is closed, and emits what it read. -/
theorem closed_emits : ∃ s t u : State Unit ℕ,
    run (step (fun _ => events) (fun _ => immediate) 86400) .init
      [.legacy 7 3 0, .opened (), .tick (), .close (), .drained ()] = some s ∧
    (s.processes ()).closed = true ∧
    step (fun _ => events) (fun _ => immediate) 86400 s (.read () (some [3]) 0) = some t ∧
    step (fun _ => events) (fun _ => immediate) 86400 t (.hand ()) = some u ∧
    (t.processes ()).inflight EVENTS = [] ∧ (u.processes ()).inflight EVENTS = [7] := by
  have hpage : page [⟨7, 3, false, 0, none, none⟩] immediate (some [3]) 0 none =
      [⟨7, 3, false, 0, [EVENTS]⟩] :=
    congrArg (fun docs : List (Document ℕ) => (docs.take 200).map fromDocument)
      (List.mergeSort_singleton _)
  exact ⟨_, _, _, rfl, rfl, congrArg (fun page => some (State.become _ ()
    { State.processes _ () with pump := .read page })) hpage, rfl, rfl, rfl⟩

def drainedAfter : List (Act Unit ℕ) :=
  [.legacy 7 3 0, .opened (), .tick (), .read () (some [3]) 0, .hand (), .awaited (), .tick (),
    .read () (some [3]) 0, .close ()]

theorem closing_emits_nothing_drained : ∃ s t : State Unit ℕ,
    run (step (fun _ => events) (fun _ => immediate) 86400) .init drainedAfter = some s ∧
    step (fun _ => events) (fun _ => immediate) 86400 s (.hand ()) = some t ∧
    (s.processes ()).closing = true ∧ (s.processes ()).inflight EVENTS = [7] ∧
    ((t.processes ()).inflight EVENTS).Sublist [7] := by
  have hruns : ((run (step (fun _ => events) (fun _ => immediate) 86400) .init drainedAfter).bind fun s =>
      (step (fun _ => events) (fun _ => immediate) 86400 s (.hand ())).bind fun _ =>
        if (s.processes ()).closing = true ∧ (s.processes ()).inflight EVENTS = [7] then some () else none) =
      some () := by decide +kernel
  obtain ⟨s, hrun, hsteps⟩ := Option.bind_eq_some_iff.mp hruns
  obtain ⟨t, hstep, hholds⟩ := Option.bind_eq_some_iff.mp hsteps
  split_ifs at hholds with hboth
  obtain ⟨hclosing, hinflight⟩ := hboth
  refine ⟨s, t, hrun, hstep, hclosing, hinflight, ?_⟩
  rw [← hinflight]
  exact (@closing_emits_nothing _ _ _ _ _ _ _ _ _ _ _ () (by decide +kernel) (by decide +kernel) hrun hstep).1
    hclosing EVENTS

end Toa.Outbox
