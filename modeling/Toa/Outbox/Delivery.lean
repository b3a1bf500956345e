import Mathlib.Order.Nat
import Toa.Lib.Run
import Toa.Outbox.Process

/-! The replicas of one component over one outbox. A process is any of them at a time: one that
crashed starts again with nothing in memory, and the writes it had sent may still be made. -/

set_option linter.unusedSectionVars false

namespace Toa.Outbox
open Run

universe u v
variable {ρ : Type u} {ι : Type v} [DecidableEq ρ] [LinearOrder ι]

theorem lawful : LawfulBEq ι := inferInstance

attribute [local instance] lawful

/-- `commands` is every `settle` a process sent, `written` every row committed with what it was
outstanding for, and `reached` every row and destination an emission succeeded for. -/
structure State (ρ : Type u) (ι : Type v) where
  rows : List (Document ι)
  commands : List (Group ι)
  processes : ρ → Process ι
  written : List (ι × List Name)
  reached : List (ι × Name)

namespace State

def init : State ρ ι := ⟨[], [], fun _ => .init, [], []⟩

def become (s : State ρ ι) (k : ρ) (p : Process ι) : State ρ ι :=
  { s with processes := Function.update s.processes k p }

/-- A marker of a process has `groups` left: the first of them is sent. -/
def mark (s : State ρ ι) (k : ρ) (p : Process ι) (marker : Marker) (groups : List (Group ι)) :
    State ρ ι :=
  { s.become k (p.mark marker groups) with commands := s.commands ++ groups.take 1 }

def insert (s : State ρ ι) (doc : Document ι) : State ρ ι :=
  { s with rows := s.rows ++ [doc], written := (doc.id, doc.names) :: s.written }

theorem become_self (s : State ρ ι) (k : ρ) (p : Process ι) : (s.become k p).processes k = p :=
  Function.update_self k _ s.processes

theorem become_of_ne (s : State ρ ι) {k k' : ρ} (h : k' ≠ k) (p : Process ι) :
    (s.become k p).processes k' = s.processes k' := Function.update_of_ne h _ s.processes

end State

/-- The lanes a process owns are what its atomicity says at that moment, and come with the step;
`none` is one that has not been told. -/
inductive Act (ρ : Type u) (ι : Type v)
  | legacy (id : ι) (lane pending : ℕ)
  | commit (k : ρ) (id : ι) (slots : Option (List ℕ)) (lane now : ℕ)
  | publish (k : ρ) (id : ι)
  | sent (k : ρ) (d : Name) (id : ι)
  | failed (k : ρ) (d : Name) (id : ι)
  | opened (k : ρ)
  | tick (k : ρ)
  | read (k : ρ) (slots : Option (List ℕ)) (now : ℕ)
  | unread (k : ρ)
  | hand (k : ρ)
  | awaited (k : ρ)
  | update (command : ℕ) (id : ι) (now : ℕ)
  | settled (k : ρ) (marker : Marker)
  | unsettled (k : ρ) (marker : Marker)
  | close (k : ρ)
  | drained (k : ρ)
  | reap (id : ι) (now : ℕ)
  | crash (k : ρ)

def LANES : ℕ := 128

/-- `#lane` -/
def lanes (slots : Option (List ℕ)) (lane : ℕ) : Bool :=
  match slots with
  | none | some [] => lane < LANES
  | some owned => lane ∈ owned

/-- `row` -/
def row (destinations : Destinations) (options : Options) (id : ι) (lane now : ℕ) : Row ι where
  id := id
  lane := lane
  published := false
  pending := now + options.gap
  outstanding := destinations.names

/-- `#read`, where the storage answered. -/
def page (rows : List (Document ι)) (options : Options) (slots : Option (List ℕ)) (now : ℕ)
    (after : Option ι) : List (Row ι) :=
  match slots with
  | none | some [] => []
  | some owned => pending rows owned now options.batch after

def applied (rows : List (Document ι)) (group : Group ι) : Bool :=
  rows.all fun doc => doc.id ∉ group.ids || group.destinations.all (· ∉ doc.names)

section
variable (destinations : ρ → Destinations) (options : ρ → Options) (retention : ℕ)

def step (s : State ρ ι) : Act ρ ι → Option (State ρ ι)
  | .legacy id lane pending =>
    if id ∈ s.written.map Prod.fst then none
    else some (s.insert ⟨id, lane, false, pending, none, none⟩)
  | .commit k id slots lane now =>
    if id ∈ s.written.map Prod.fst ∨ lanes slots lane = false then none
    else
      let row := row (destinations k) (options k) id lane now
      let p := s.processes k
      some ((s.insert (toDocument row)).become k { p with made := p.made ++ [row] })
  | .publish k id =>
    let p := s.processes k
    match p.made.find? (·.id = id), p.close with
    | none, _ => none
    | some row, .none =>
      let handed := { p with made := p.made.filter (·.id ≠ id) }
      if (options k).defer = true then some (s.become k handed)
      else some (s.become k (handed.publish (destinations k) row))
    | some _, _ => some (s.become k { p with made := p.made.filter (·.id ≠ id) })
  | .sent k d id =>
    let p := s.processes k
    if id ∈ p.inflight d then
      some { s.become k (p.sent d id) with reached := (id, d) :: s.reached }
    else none
  | .failed k d id =>
    let p := s.processes k
    if id ∈ p.inflight d then some (s.become k (p.failed d id)) else none
  | .opened k => some (s.become k { s.processes k with ticking := true })
  | .tick k =>
    let p := s.processes k
    match p.ticking, p.pump with
    | true, .marking [] => some (s.become k { p with pump := .reading none })
    | _, _ => none
  | .read k slots now =>
    let p := s.processes k
    match p.pump with
    | .reading after =>
      some (s.become k { p with pump := .read (page s.rows (options k) slots now after) })
    | _ => none
  | .unread k =>
    let p := s.processes k
    match p.pump with
    | .reading _ => some (s.become k { p with pump := .read [] })
    | _ => none
  | .hand k =>
    let p := s.processes k
    match p.pump with
    | .read [] => some (s.mark k p .pump (p.groups (destinations k)))
    | .read page => some (s.become k { p.hand (destinations k) page with pump := .awaiting page })
    | _ => none
  | .awaited k =>
    let p := s.processes k
    match p.pump with
    | .awaiting page =>
      if page.length = (options k).batch then
        some (s.become k { p with pump := .reading (page.getLast?.map (·.id)) })
      else some (s.mark k p .pump (p.groups (destinations k)))
    | _ => none
  | .update command id now =>
    match s.commands[command]? with
    | none => none
    | some group =>
      if id ∈ group.ids then
        some { s with
          rows := s.rows.map fun doc =>
            if doc.id = id then settled group.destinations now doc else doc }
      else none
  | .settled k marker =>
    let p := s.processes k
    match p.marking marker with
    | [] => none
    | group :: groups =>
      if applied s.rows group = true then some (s.mark k (p.settled group) marker groups) else none
  | .unsettled k marker =>
    let p := s.processes k
    match p.marking marker with
    | [] => none
    | _ :: groups => some (s.mark k p marker groups)
  | .close k =>
    let p := s.processes k
    match p.close with
    | .none | .marking [] => some (s.become k { p with close := .draining, ticking := false })
    | _ => none
  | .drained k =>
    let p := s.processes k
    match p.close with
    | .draining => some (s.mark k p .close (p.groups (destinations k)))
    | _ => none
  | .reap id now =>
    some { s with
      rows := s.rows.filter fun doc =>
        doc.id ≠ id || doc.publishedAt.all fun published => now < published + retention }
  | .crash k => some (s.become k .init)

inductive Next (s : State ρ ι) : Act ρ ι → State ρ ι → Prop
  | legacy {id : ι} {lane pending : ℕ} (hid : id ∉ s.written.map Prod.fst) :
    Next s (.legacy id lane pending) (s.insert ⟨id, lane, false, pending, none, none⟩)
  | commit {k : ρ} {id : ι} {slots : Option (List ℕ)} {lane now : ℕ}
    (hid : id ∉ s.written.map Prod.fst) (hlane : lanes slots lane = true) :
    Next s (.commit k id slots lane now)
      ((s.insert (toDocument (row (destinations k) (options k) id lane now))).become k
        { s.processes k with
          made := (s.processes k).made ++ [row (destinations k) (options k) id lane now] })
  | deferred {k : ρ} {id : ι} (h : (options k).defer = true ∨ (s.processes k).close ≠ .none) :
    Next s (.publish k id) (s.become k { s.processes k with
      made := (s.processes k).made.filter (·.id ≠ id) })
  | publish {k : ρ} {id : ι} {row : Row ι} (hrow : (s.processes k).made.find? (·.id = id) = some row)
    (hclose : (s.processes k).close = .none) :
    Next s (.publish k id) (s.become k
      ({ s.processes k with made := (s.processes k).made.filter (·.id ≠ id) }.publish
        (destinations k) row))
  | sent {k : ρ} {d : Name} {id : ι} (h : id ∈ (s.processes k).inflight d) :
    Next s (.sent k d id)
      { s.become k ((s.processes k).sent d id) with reached := (id, d) :: s.reached }
  | failed {k : ρ} {d : Name} {id : ι} (h : id ∈ (s.processes k).inflight d) :
    Next s (.failed k d id) (s.become k ((s.processes k).failed d id))
  | opened {k : ρ} : Next s (.opened k) (s.become k { s.processes k with ticking := true })
  | tick {k : ρ} (hticking : (s.processes k).ticking = true)
    (hpump : (s.processes k).pump = .marking []) :
    Next s (.tick k) (s.become k { s.processes k with pump := .reading none })
  | read {k : ρ} {slots : Option (List ℕ)} {now : ℕ} {after : Option ι}
    (hpump : (s.processes k).pump = .reading after) :
    Next s (.read k slots now) (s.become k { s.processes k with
      pump := .read (page s.rows (options k) slots now after) })
  | unread {k : ρ} {after : Option ι} (hpump : (s.processes k).pump = .reading after) :
    Next s (.unread k) (s.become k { s.processes k with pump := .read [] })
  | empty {k : ρ} (hpump : (s.processes k).pump = .read []) :
    Next s (.hand k) (s.mark k (s.processes k) .pump ((s.processes k).groups (destinations k)))
  | hand {k : ρ} {page : List (Row ι)} (hpump : (s.processes k).pump = .read page) :
    Next s (.hand k) (s.become k { (s.processes k).hand (destinations k) page with
      pump := .awaiting page })
  | more {k : ρ} {page : List (Row ι)} (hpump : (s.processes k).pump = .awaiting page)
    (hfull : page.length = (options k).batch) :
    Next s (.awaited k) (s.become k { s.processes k with
      pump := .reading (page.getLast?.map (·.id)) })
  | last {k : ρ} {page : List (Row ι)} (hpump : (s.processes k).pump = .awaiting page)
    (hfull : page.length ≠ (options k).batch) :
    Next s (.awaited k) (s.mark k (s.processes k) .pump ((s.processes k).groups (destinations k)))
  | update {command : ℕ} {id : ι} {now : ℕ} {group : Group ι}
    (hgroup : s.commands[command]? = some group) (hid : id ∈ group.ids) :
    Next s (.update command id now) { s with
      rows := s.rows.map fun doc =>
        if doc.id = id then Outbox.settled group.destinations now doc else doc }
  | settled {k : ρ} {marker : Marker} {group : Group ι} {groups : List (Group ι)}
    (hmarking : (s.processes k).marking marker = group :: groups)
    (happlied : applied s.rows group = true) :
    Next s (.settled k marker) (s.mark k ((s.processes k).settled group) marker groups)
  | unsettled {k : ρ} {marker : Marker} {group : Group ι} {groups : List (Group ι)}
    (hmarking : (s.processes k).marking marker = group :: groups) :
    Next s (.unsettled k marker) (s.mark k (s.processes k) marker groups)
  | close {k : ρ} (h : (s.processes k).close = .none ∨ (s.processes k).close = .marking []) :
    Next s (.close k) (s.become k { s.processes k with close := .draining, ticking := false })
  | drained {k : ρ} (hclose : (s.processes k).close = .draining) :
    Next s (.drained k) (s.mark k (s.processes k) .close ((s.processes k).groups (destinations k)))
  | reap {id : ι} {now : ℕ} :
    Next s (.reap id now) { s with
      rows := s.rows.filter fun doc =>
        doc.id ≠ id || doc.publishedAt.all fun published => now < published + retention }
  | crash {k : ρ} : Next s (.crash k) (s.become k .init)

end

section
variable {destinations : ρ → Destinations} {options : ρ → Options} {retention : ℕ}

theorem next_of_step {s t : State ρ ι} {a : Act ρ ι}
    (h : step destinations options retention s a = some t) :
    Next destinations options retention s a t := by
  cases a with
  | legacy id lane pending =>
    simp only [step] at h
    split_ifs at h with hid
    obtain rfl := Option.some.inj h
    exact .legacy hid
  | commit k id slots lane now =>
    simp only [step] at h
    split_ifs at h with hid
    obtain rfl := Option.some.inj h
    rw [not_or, Bool.not_eq_false] at hid
    exact .commit hid.1 hid.2
  | publish k id =>
    simp only [step] at h
    split at h
    · exact nomatch h
    · rename_i row hrow hclose
      split_ifs at h with hdefer <;> obtain rfl := Option.some.inj h
      · exact .deferred (.inl hdefer)
      · exact .publish hrow hclose
    · rename_i hclose
      obtain rfl := Option.some.inj h
      exact .deferred (.inr hclose)
  | sent k d id =>
    simp only [step] at h
    split_ifs at h with hid
    obtain rfl := Option.some.inj h
    exact .sent hid
  | failed k d id =>
    simp only [step] at h
    split_ifs at h with hid
    obtain rfl := Option.some.inj h
    exact .failed hid
  | opened k =>
    obtain rfl := Option.some.inj h
    exact .opened
  | tick k =>
    simp only [step] at h
    split at h
    · rename_i hticking hpump
      obtain rfl := Option.some.inj h
      exact .tick hticking hpump
    · exact nomatch h
  | read k slots now =>
    simp only [step] at h
    split at h
    · rename_i hpump
      obtain rfl := Option.some.inj h
      exact .read hpump
    · exact nomatch h
  | unread k =>
    simp only [step] at h
    split at h
    · rename_i hpump
      obtain rfl := Option.some.inj h
      exact .unread hpump
    · exact nomatch h
  | hand k =>
    simp only [step] at h
    split at h
    · rename_i hpump
      obtain rfl := Option.some.inj h
      exact .empty hpump
    · rename_i hpump
      obtain rfl := Option.some.inj h
      exact .hand hpump
    · exact nomatch h
  | awaited k =>
    simp only [step] at h
    split at h
    · rename_i hpump
      split_ifs at h with hfull <;> obtain rfl := Option.some.inj h
      · exact .more hpump hfull
      · exact .last hpump hfull
    · exact nomatch h
  | update command id now =>
    simp only [step] at h
    split at h
    · exact nomatch h
    · rename_i hgroup
      split_ifs at h with hid
      obtain rfl := Option.some.inj h
      exact .update hgroup hid
  | settled k marker =>
    simp only [step] at h
    split at h
    · exact nomatch h
    · rename_i hmarking
      split_ifs at h with happlied
      obtain rfl := Option.some.inj h
      exact .settled hmarking happlied
  | unsettled k marker =>
    simp only [step] at h
    split at h
    · exact nomatch h
    · rename_i hmarking
      obtain rfl := Option.some.inj h
      exact .unsettled hmarking
  | close k =>
    simp only [step] at h
    split at h
    · rename_i hclose
      obtain rfl := Option.some.inj h
      exact .close (.inl hclose)
    · rename_i hclose
      obtain rfl := Option.some.inj h
      exact .close (.inr hclose)
    · exact nomatch h
  | drained k =>
    simp only [step] at h
    split at h
    · rename_i hclose
      obtain rfl := Option.some.inj h
      exact .drained hclose
    · exact nomatch h
  | reap id now =>
    obtain rfl := Option.some.inj h
    exact .reap
  | crash k =>
    obtain rfl := Option.some.inj h
    exact .crash

end

/-! ## The rows -/

structure Kept (reached : List (ι × Name)) (rows : List (Document ι))
    (written : List (ι × List Name)) : Prop where
  ids : (rows.map (·.id)).Nodup
  known : ∀ doc ∈ rows, doc.id ∈ written.map Prod.fst
  owed : ∀ id ds, (id, ds) ∈ written → ∀ d ∈ ds, (id, d) ∉ reached →
    ∃ doc ∈ rows, doc.id = id ∧ d ∈ doc.names
  unpublished : ∀ doc ∈ rows, ∀ d ∈ doc.names, doc.published = false ∧ doc.publishedAt = none

section
variable {reached : List (ι × Name)} {rows : List (Document ι)} {written : List (ι × List Name)}

theorem kept_mono (h : Kept reached rows written) (sent : ι × Name) :
    Kept (sent :: reached) rows written :=
  ⟨h.ids, h.known, fun id ds hds d hd hn =>
    h.owed id ds hds d hd fun hmem => hn (List.mem_cons_of_mem _ hmem), h.unpublished⟩

theorem kept_insert (h : Kept reached rows written) {doc : Document ι}
    (hid : doc.id ∉ written.map Prod.fst) (hpublished : doc.published = false)
    (hat : doc.publishedAt = none) :
    Kept reached (rows ++ [doc]) ((doc.id, doc.names) :: written) := by
  refine ⟨?_, fun other hother => ?_, fun id ds hds d hd hn => ?_, fun other hother d hd => ?_⟩
  · rw [List.map_append, List.map_singleton]
    refine List.nodup_append.mpr ⟨h.ids, List.nodup_singleton _, fun a ha b hb hab => hid ?_⟩
    obtain ⟨other, hother, rfl⟩ := List.mem_map.mp ha
    exact List.mem_singleton.mp hb ▸ hab ▸ h.known other hother
  · rcases List.mem_append.mp hother with hother | hother
    · exact List.mem_cons_of_mem _ (h.known other hother)
    · exact List.mem_singleton.mp hother ▸ List.mem_cons_self ..
  · rcases List.mem_cons.mp hds with heq | hds
    · obtain ⟨rfl, rfl⟩ := Prod.mk.inj heq
      exact ⟨doc, List.mem_append_right _ (List.mem_singleton_self _), rfl, hd⟩
    · obtain ⟨other, hother, hids, hnames⟩ := h.owed id ds hds d hd hn
      exact ⟨other, List.mem_append_left _ hother, hids, hnames⟩
  · rcases List.mem_append.mp hother with hother | hother
    · exact h.unpublished other hother d hd
    · exact List.mem_singleton.mp hother ▸ ⟨hpublished, hat⟩

theorem unpublished_settled {doc : Document ι} {destinations : List Name} {now : ℕ} {d : Name}
    (h : ∀ d ∈ doc.names, doc.published = false ∧ doc.publishedAt = none)
    (hd : d ∈ (settled destinations now doc).names) :
    (settled destinations now doc).published = false ∧
      (settled destinations now doc).publishedAt = none := by
  have hsome : (doc.names.dedup.filter (· ∉ destinations)).isEmpty = false :=
    List.isEmpty_eq_false_iff_exists_mem.mpr ⟨d, hd⟩
  simp only [settled, hsome, true_and]
  exact (h d (mem_settled_names.mp hd).1).2

theorem kept_update (h : Kept reached rows written) {group : Group ι} (hgroup : group.Reached reached)
    {id : ι} (hid : id ∈ group.ids) (now : ℕ) :
    Kept reached (rows.map fun doc => if doc.id = id then settled group.destinations now doc else doc)
      written := by
  have hsame (doc : Document ι) :
      (if doc.id = id then settled group.destinations now doc else doc).id = doc.id := by
    split_ifs <;> rfl
  refine ⟨?_, fun doc hdoc => ?_, fun id' ds hds d hd hn => ?_, fun doc hdoc d hd => ?_⟩
  · rw [List.map_map]
    exact (List.map_congr_left fun doc _ => hsame doc) ▸ h.ids
  · obtain ⟨old, hold, rfl⟩ := List.mem_map.mp hdoc
    exact (hsame old).symm ▸ h.known old hold
  · obtain ⟨doc, hdoc, rfl, hnames⟩ := h.owed id' ds hds d hd hn
    refine ⟨_, List.mem_map_of_mem hdoc, hsame doc, ?_⟩
    split_ifs with heq
    · -- the group reached all it is settled for, and this was not reached
      exact mem_settled_names.mpr ⟨hnames, fun hmem => hn (heq ▸ hgroup d hmem id hid)⟩
    · exact hnames
  · obtain ⟨old, hold, rfl⟩ := List.mem_map.mp hdoc
    split_ifs at hd ⊢
    · exact unpublished_settled (h.unpublished old hold) hd
    · exact h.unpublished old hold d hd

theorem kept_reap (h : Kept reached rows written) (id : ι) (now retention : ℕ) :
    Kept reached (rows.filter fun doc =>
      doc.id ≠ id || doc.publishedAt.all fun published => now < published + retention) written := by
  refine ⟨h.ids.sublist (List.filter_sublist.map _), fun doc hdoc =>
    h.known doc (List.mem_filter.mp hdoc).1, fun id' ds hds d hd hn => ?_, fun doc hdoc =>
    h.unpublished doc (List.mem_filter.mp hdoc).1⟩
  obtain ⟨doc, hdoc, hids, hnames⟩ := h.owed id' ds hds d hd hn
  refine ⟨doc, List.mem_filter.mpr ⟨hdoc, ?_⟩, hids, hnames⟩
  rw [(h.unpublished doc hdoc d hnames).2, Option.all_none, Bool.or_true]

/-- `pending` returns the row to whoever owns its lane, or a full page of rows before it. -/
def Returned (rows : List (Document ι)) (doc : Document ι) : Prop :=
  ∀ lanes now limit, ∀ after : Option ι, doc.lane ∈ lanes → doc.pending ≤ now →
    (∀ a ∈ after, a < doc.id) →
      fromDocument doc ∈ pending rows lanes now limit after ∨
        (pending rows lanes now limit after).length = limit ∧
          ∀ row ∈ pending rows lanes now limit after, row.id < doc.id

theorem kept_returned (h : Kept reached rows written) {doc : Document ι} (hdoc : doc ∈ rows)
    {d : Name} (hd : d ∈ doc.names) : Returned rows doc := by
  intro lanes now limit after hlane hdue hafter
  refine mem_pending_or h.ids hdoc ?_ limit
  have hbefore : after.all (· < doc.id) = true := by
    cases after with
    | none => rfl
    | some a => exact decide_eq_true (hafter a rfl)
  simp only [criteria, hbefore, (h.unpublished doc hdoc d hd).1, decide_eq_true hlane,
    decide_eq_true hdue, Bool.not_false, Bool.and_true]

end
/-! ## Every run -/

structure Inv (s : State ρ ι) : Prop where
  sound : ∀ k, (s.processes k).Sound s.reached
  commands : ∀ group ∈ s.commands, group.Reached s.reached
  kept : Kept s.reached s.rows s.written

theorem inv_init : Inv (State.init : State ρ ι) where
  sound := fun _ => Process.sound_init
  commands := fun _ h => nomatch h
  kept := by
    refine ⟨List.nodup_nil, ?_, ?_, ?_⟩
    · exact fun _ h => nomatch h
    · exact fun _ _ h => nomatch h
    · exact fun _ h => nomatch h

theorem inv_become {s : State ρ ι} (hs : Inv s) {k : ρ} {p : Process ι}
    (hp : p.Sound s.reached) : Inv (s.become k p) := by
  refine ⟨fun k' => ?_, hs.commands, hs.kept⟩
  by_cases hk : k' = k
  · subst hk
    exact (s.become_self k' p).symm ▸ hp
  · exact (s.become_of_ne hk p).symm ▸ hs.sound k'

theorem inv_mark {s : State ρ ι} (hs : Inv s) {k : ρ} {p : Process ι} (hp : p.Sound s.reached)
    {groups : List (Group ι)} (hgroups : ∀ group ∈ groups, group.Reached s.reached)
    (marker : Marker) : Inv (s.mark k p marker groups) := by
  obtain ⟨hsound, hcommands, hkept⟩ := inv_become hs (k := k) (Process.sound_mark hp hgroups marker)
  refine ⟨hsound, fun group hgroup => ?_, hkept⟩
  rcases List.mem_append.mp hgroup with hgroup | hgroup
  · exact hcommands group hgroup
  · exact hgroups group (List.mem_of_mem_take hgroup)

theorem inv_insert {s : State ρ ι} (hs : Inv s) {doc : Document ι}
    (hid : doc.id ∉ s.written.map Prod.fst) (hpublished : doc.published = false)
    (hat : doc.publishedAt = none) : Inv (s.insert doc) :=
  ⟨hs.sound, hs.commands, kept_insert hs.kept hid hpublished hat⟩

theorem inv_reached {s : State ρ ι} (hs : Inv s) (sent : ι × Name) :
    Inv { s with reached := sent :: s.reached } where
  sound := fun k => (hs.sound k).mono (List.subset_cons_self ..)
  commands := fun group hgroup d hd id hid =>
    List.mem_cons_of_mem _ (hs.commands group hgroup d hd id hid)
  kept := kept_mono hs.kept sent

section
variable {destinations : ρ → Destinations} {options : ρ → Options} {retention : ℕ}

theorem inv_step {s t : State ρ ι} {a : Act ρ ι} (hs : Inv s)
    (h : step destinations options retention s a = some t) : Inv t := by
  -- what is made of the rows of its own says nothing of what a process published
  have hmade (k : ρ) (made : List (Row ι)) : ({ s.processes k with made := made }).Sound s.reached :=
    ⟨(hs.sound k).published, (hs.sound k).marking, (hs.sound k).inflight, (hs.sound k).once⟩
  have hgroups (k : ρ) : ∀ group ∈ (s.processes k).groups (destinations k), group.Reached s.reached :=
    Process.groups_reached (hs.sound k)
  cases next_of_step h with
  | legacy hid => exact inv_insert hs hid rfl rfl
  | commit hid _ => exact inv_become (inv_insert hs hid rfl rfl) (hmade _ _)
  | deferred => exact inv_become hs (hmade _ _)
  | publish => exact inv_become hs (Process.sound_publish (hmade _ _) _)
  | @sent k d id =>
    have hmore : ∀ k, (s.processes k).Sound ((id, d) :: s.reached) :=
      (inv_reached hs (id, d)).sound
    exact inv_become (inv_reached hs (id, d)) (Process.sound_sent (hmore k) (List.mem_cons_self ..))
  | @failed k d id => exact inv_become hs (Process.sound_failed (hs.sound k) d id)
  | @opened k =>
    exact inv_become hs
      ⟨(hs.sound k).published, (hs.sound k).marking, (hs.sound k).inflight, (hs.sound k).once⟩
  | tick | read | unread | more =>
    exact inv_become hs (Process.sound_cycle (hs.sound _) fun _ h => nomatch h)
  | empty | last => exact inv_mark hs (hs.sound _) (hgroups _) .pump
  | hand =>
    exact inv_become hs (Process.sound_cycle (Process.sound_hand (hs.sound _) _) fun _ h => nomatch h)
  | update hgroup hid =>
    have hreached := hs.commands _ (List.mem_of_getElem? hgroup)
    exact ⟨hs.sound, hs.commands, kept_update hs.kept hreached hid _⟩
  | @settled k marker group groups hmarking =>
    refine inv_mark hs (Process.sound_settled (hs.sound k) group) (fun left hleft => ?_) marker
    exact (hs.sound k).marking marker left (hmarking ▸ List.mem_cons_of_mem _ hleft)
  | @unsettled k marker group groups hmarking =>
    refine inv_mark hs (hs.sound k) (fun left hleft => ?_) marker
    exact (hs.sound k).marking marker left (hmarking ▸ List.mem_cons_of_mem _ hleft)
  | @close k =>
    refine inv_become hs
      ⟨(hs.sound k).published, fun marker => ?_, (hs.sound k).inflight, (hs.sound k).once⟩
    cases marker with
    | pump => exact (hs.sound k).marking .pump
    | close => exact fun _ h => nomatch h
  | drained => exact inv_mark hs (hs.sound _) (hgroups _) .close
  | reap => exact ⟨hs.sound, hs.commands, kept_reap hs.kept _ _ retention⟩
  | crash => exact inv_become hs Process.sound_init

/-! ## A cycle reads on until it has the row -/

/-- The cycle has read nothing as late as `id`, and is not over. -/
def Pump.Ahead (options : Options) (id : ι) : Pump ι → Prop
  | .reading after => ∀ a ∈ after, a < id
  | .read page | .awaiting page => page.length = options.batch ∧ ∀ row ∈ page, row.id < id
  | .marking _ => False

/-- A cycle of the process fails no read, and its reads are of a lane the row is due in, which it
is yet to be read from. -/
def Unread (options : ρ → Options) (k : ρ) (id : ι) (s : State ρ ι) : Act ρ ι → Prop
  | .unread k' | .crash k' => k' ≠ k
  | .read k' slots now => k' = k → ∃ owned, slots = some owned ∧
      (∃ doc ∈ s.rows, doc.id = id ∧ doc.names ≠ [] ∧ doc.lane ∈ owned ∧ doc.pending ≤ now) ∧
      ∀ after, (s.processes k).pump = .reading after →
        ∀ row ∈ page s.rows (options k) slots now after, row.id ≠ id
  | _ => True

theorem send_pump (p : Process ι) (row : Row ι) (d : Name) : (p.send row d).pump = p.pump := by
  unfold Process.send
  split_ifs <;> rfl

theorem publish_pump (destinations : Destinations) (p : Process ι) (row : Row ι) :
    (p.publish destinations row).pump = p.pump := by
  unfold Process.publish
  generalize destinations.names = names
  induction names generalizing p with
  | nil => rfl
  | cons d names ih =>
    rw [List.foldl_cons, ih]
    split_ifs
    · exact send_pump p row d
    · rfl

theorem ahead_read {s : State ρ ι} (hs : Inv s) {k : ρ} {id : ι} {after : Option ι}
    (hafter : ∀ a ∈ after, a < id) {owned : List ℕ} {now : ℕ}
    (hdue : ∃ doc ∈ s.rows, doc.id = id ∧ doc.names ≠ [] ∧ doc.lane ∈ owned ∧ doc.pending ≤ now)
    (hunread : ∀ row ∈ page s.rows (options k) (some owned) now after, row.id ≠ id) :
    (Pump.read (page s.rows (options k) (some owned) now after)).Ahead (options k) id := by
  obtain ⟨doc, hdoc, rfl, hnames, hlane, hpending⟩ := hdue
  obtain ⟨d, hd⟩ := List.exists_mem_of_ne_nil _ hnames
  have hpage : page s.rows (options k) (some owned) now after =
      pending s.rows owned now (options k).batch after := by
    cases owned with
    | nil => exact nomatch hlane
    | cons _ _ => rfl
  rw [hpage] at hunread ⊢
  rcases kept_returned hs.kept hdoc hd owned now _ after hlane hpending hafter with hmem | hfull
  · exact absurd rfl (hunread _ hmem)
  · exact hfull

theorem ahead_become {s : State ρ ι} {k k' : ρ} {id : ι} {p : Process ι}
    (hahead : (s.processes k).pump.Ahead (options k) id)
    (h : k' = k → p.pump.Ahead (options k) id) :
    ((s.become k' p).processes k).pump.Ahead (options k) id := by
  by_cases hk : k = k'
  · subst hk
    exact (s.become_self k p).symm ▸ h rfl
  · exact (s.become_of_ne hk p).symm ▸ hahead

theorem ahead_mark {s : State ρ ι} {k k' : ρ} {id : ι} {p : Process ι} {marker : Marker}
    {group : Group ι} {groups left : List (Group ι)}
    (hahead : (s.processes k).pump.Ahead (options k) id)
    (hmarking : (s.processes k').marking marker = group :: groups)
    (hp : p.pump = (s.processes k').pump) :
    ((s.mark k' p marker left).processes k).pump.Ahead (options k) id := by
  refine ahead_become hahead fun hk => ?_
  subst hk
  cases marker with
  | close => exact hp.symm ▸ hahead
  | pump =>
    simp only [Process.marking] at hmarking
    split at hmarking
    · rename_i hpump
      rw [hpump] at hahead
      exact hahead.elim
    · exact nomatch hmarking

theorem ahead_step {s t : State ρ ι} {a : Act ρ ι} {k : ρ} {id : ι} (hs : Inv s)
    (h : step destinations options retention s a = some t)
    (hahead : (s.processes k).pump.Ahead (options k) id) (hunread : Unread options k id s a) :
    (t.processes k).pump.Ahead (options k) id := by
  -- most steps leave the pump of the process they are of where it was
  have hsame {k' : ρ} {p : Process ι} (hp : p.pump = (s.processes k').pump) :
      k' = k → p.pump.Ahead (options k) id := fun hk => by
    subst hk
    exact hp.symm ▸ hahead
  cases next_of_step h with
  | legacy | update | reap => exact hahead
  | commit => exact ahead_become (s := s.insert _) hahead (hsame rfl)
  | deferred | sent | failed | opened | close | drained => exact ahead_become hahead (hsame rfl)
  | publish => exact ahead_become hahead (hsame (publish_pump ..))
  | tick => exact ahead_become hahead fun _ _ h => nomatch h
  | @read k' slots now after hpump =>
    refine ahead_become hahead fun hk => ?_
    subst hk
    rw [hpump] at hahead
    obtain ⟨owned, rfl, hdue, hnone⟩ := hunread rfl
    exact ahead_read hs hahead hdue (hnone after hpump)
  | unread | crash => exact ahead_become hahead fun hk => absurd hk hunread
  | @empty k' hpump =>
    refine ahead_become hahead fun hk => ?_
    subst hk
    rw [hpump] at hahead
    exact absurd hahead.1 (Nat.ne_of_lt (options k').batch_pos)
  | hand hpump =>
    refine ahead_become hahead fun hk => ?_
    subst hk
    rw [hpump] at hahead
    exact hahead
  | more hpump =>
    refine ahead_become hahead fun hk => ?_
    subst hk
    rw [hpump] at hahead
    intro a ha
    obtain ⟨last, hlast, rfl⟩ := Option.map_eq_some_iff.mp ha
    exact hahead.2 last (List.mem_of_getLast? hlast)
  | last hpump hfull =>
    refine ahead_become hahead fun hk => ?_
    subst hk
    rw [hpump] at hahead
    exact absurd hahead.1 hfull
  | settled hmarking => exact ahead_mark hahead hmarking rfl
  | unsettled hmarking => exact ahead_mark hahead hmarking rfl

theorem ahead_run {s t : State ρ ι} {acts : List (Act ρ ι)} {k : ρ} {id : ι} (hs : Inv s)
    (hrun : run (step destinations options retention) s acts = some t)
    (hunread : Along (step destinations options retention) (Unread options k id) s acts)
    (hahead : (s.processes k).pump.Ahead (options k) id) :
    (t.processes k).pump.Ahead (options k) id := by
  let I : State ρ ι → Prop := fun s => Inv s ∧ (s.processes k).pump.Ahead (options k) id
  have hstep : ∀ s a t, I s → Unread options k id s a →
      step destinations options retention s a = some t → I t :=
    fun s a t hI hok h => ⟨inv_step hI.1 h, ahead_step hI.1 h hI.2 hok⟩
  have hstart : I s := ⟨hs, hahead⟩
  exact (run_invariant hstep hstart hunread hrun).2

/-- Over every interleaving: what a row was outstanding for and no emission of it reached, it is
stored and unpublished and outstanding for still; a row that is outstanding for anything is
returned once it is due, and a cycle of a process that owns its lane is not over before it has read
it; and no process has two emissions of one row to one destination in flight. -/
theorem outbox_delivery {acts : List (Act ρ ι)} {s : State ρ ι}
    (hrun : run (step destinations options retention) .init acts = some s) :
    (∀ id ds, (id, ds) ∈ s.written → ∀ d ∈ ds, (id, d) ∉ s.reached →
      ∃ doc ∈ s.rows, doc.id = id ∧ d ∈ doc.names ∧ doc.published = false) ∧
    (∀ doc ∈ s.rows, doc.names ≠ [] → Returned s.rows doc) ∧
    (∀ more t k id, run (step destinations options retention) s more = some t →
      Along (step destinations options retention) (Unread options k id) s more →
        (s.processes k).pump.Ahead (options k) id → (t.processes k).pump.Ahead (options k) id) ∧
    ∀ k d, ((s.processes k).inflight d).Nodup := by
  have hs : Inv s := run_invariant_all (fun _ _ _ hI h => inv_step hI h) inv_init hrun
  refine ⟨fun id ds hds d hd hn => ?_, fun doc hdoc hnames => ?_, fun more t k id => ?_,
    fun k => (hs.sound k).once⟩
  · obtain ⟨doc, hdoc, hids, hnames⟩ := hs.kept.owed id ds hds d hd hn
    exact ⟨doc, hdoc, hids, hnames, (hs.kept.unpublished doc hdoc d hnames).1⟩
  · obtain ⟨d, hd⟩ := List.exists_mem_of_ne_nil _ hnames
    exact kept_returned hs.kept hdoc hd
  · exact ahead_run hs

end

/-! ## A publication that fails -/

def events : Destinations := ⟨[EVENTS], List.nodup_singleton _⟩

def immediate : Options := ⟨15000, 200, by decide, false⟩

theorem outbox_delivery_failed :
    ∃ s : State Unit ℕ, run (step (fun _ => events) (fun _ => immediate) 86400) .init
      [.commit () 7 (some [3]) 3 0, .publish () 7, .failed () EVENTS 7] = some s ∧
        (∃ doc ∈ s.rows, doc.id = 7 ∧ EVENTS ∈ doc.names ∧ doc.published = false) ∧
        ((s.processes ()).inflight EVENTS).Nodup := by
  have h {s : State Unit ℕ} (hrun : run (step (fun _ => events) (fun _ => immediate) 86400) .init
      [.commit () 7 (some [3]) 3 0, .publish () 7, .failed () EVENTS 7] = some s) :=
    outbox_delivery hrun
  refine ⟨_, rfl, (h rfl).1 7 [EVENTS] (List.mem_singleton_self _) EVENTS
    (List.mem_singleton_self _) (List.not_mem_nil), (h rfl).2.2.2 () EVENTS⟩

end Toa.Outbox
