import Mathlib
import Toa.Cadence.Metronome

/-! The dispatcher of a replica, over the store it reads and settles. Each scan, timer, call and
write is taken up again in steps of its own, as its promises settle. -/

set_option linter.unusedSectionVars false

namespace Toa.Cadence.Dispatcher
open Run

variable {ι σ : Type*}

/-- A row in hand, by the timer that was set for it. -/
structure Armed (ι : Type*) where
  id : ι
  timer : ℕ
  lane : ℕ

/-- Where the scan that is running is: it settles, asks for the rows of its lanes, and is brought
them. -/
inductive Scan (ι σ : Type*)
  | idle
  | settling
  | settled
  | enumerating (lanes : List ℕ) (until' : ℤ)
  | enumerated (rows : List (Row ι σ))

/-- A settle in flight, of a scan or of a pause. The write may be made whatever is heard of it. -/
structure Settle (ι : Type*) where
  made : List (ι × ℤ)
  ended : List ι
  applied : Bool
  scanning : Bool

/-- `live` is what the store answers with, of the occurrences it ever held. `calls` is the rows
whose calls are on their way, `invoked` every occurrence called, and `failed` the calls of them that
are to be made again. -/
structure State (ι σ : Type*) where
  live : List (Row ι σ)
  known : List (ι × ℤ)
  slots : Option (List ℕ)
  armed : List (Armed ι)
  timers : List (ℕ × Row ι σ)
  calls : List (Row ι σ)
  called : List (ι × ℤ)
  ended : List ι
  scan : Scan ι σ
  settles : List (Settle ι)
  ticking : Bool
  listening : Bool
  quiesced : Bool
  closing : Bool
  set : ℕ
  invoked : List (ι × ℤ)
  failed : List (ι × ℤ)

def occurrence (row : Row ι σ) : ι × ℤ := (row.id, row.due)

def State.init : State ι σ where
  live := []
  known := []
  slots := none
  armed := []
  timers := []
  calls := []
  called := []
  ended := []
  scan := .idle
  settles := []
  ticking := true
  listening := true
  quiesced := false
  closing := false
  set := 0
  invoked := []
  failed := []

inductive Outcome
  | made
  | refused
  | failed

inductive Act (ι σ : Type*)
  | insert (row : Row ι σ)
  | remove (id : ι)
  | assigned (slots : Option (List ℕ))
  | tick
  | enumerate (now : ℤ)
  | answer
  | unread
  | rows (now : ℤ)
  | fire (timer : ℕ)
  | done (i : ℕ) (outcome : Outcome)
  | apply (i : ℕ)
  | settled (i : ℕ)
  | unsettled (i : ℕ)
  | pause
  | unpause
  | close

def BATCH : ℕ := 200

section
variable [DecidableEq ι]

/-! ## The store -/

/-- a row a settle disposes of: see `transition` -/
def Settle.takes (w : Settle ι) (row : Row ι σ) : Bool :=
  match row.schedule with
  | none => row.id ∈ w.made.map (·.1) ∨ row.id ∈ w.ended
  | some _ => row.id ∈ w.ended ∨ occurrence row ∈ w.made

def enumerate (regions : List ℕ) (lanes : List ℕ) (until' : ℤ) (live : List (Row ι σ)) :
    List (Row ι σ) :=
  let rows := live.filter fun row => row.lane ∈ lanes ∧ row.region ∈ regions ∧ row.due < until'
  (rows.insertionSort fun a b => a.due ≤ b.due).take BATCH

namespace State

/-! ## What is in hand -/

def holds (s : State ι σ) (id : ι) : Bool :=
  s.armed.any (·.id = id) || s.called.any (·.1 = id) || id ∈ s.ended

theorem holds_iff (s : State ι σ) (id : ι) : s.holds id = true ↔
    (∃ x ∈ s.armed, x.id = id) ∨ (∃ p ∈ s.called, p.1 = id) ∨ id ∈ s.ended := by
  simp only [holds, Bool.or_eq_true, List.any_eq_true, decide_eq_true_eq, or_assoc]

/-- `called.set` -/
def call (s : State ι σ) (id : ι) (due : ℤ) : State ι σ :=
  { s with called := s.called.filter (·.1 ≠ id) ++ [(id, due)] }

def «end» (s : State ι σ) (id : ι) : State ι σ := { s with ended := id :: s.ended }

def clear (s : State ι σ) (keep : Armed ι → Bool) : State ι σ :=
  { s with
    armed := s.armed.filter keep
    timers := s.timers.filter fun timer => s.armed.all fun x => keep x || x.timer ≠ timer.1 }

def disarm (s : State ι σ) (lanes : List ℕ) : State ι σ := s.clear fun x => x.lane ∈ lanes

def forget (s : State ι σ) (read : List ι) : State ι σ :=
  s.clear fun x => x.id ∈ read || s.called.any (·.1 = x.id)

def settle (s : State ι σ) (scanning : Bool) : State ι σ :=
  if s.called.isEmpty = true ∧ s.ended.isEmpty = true then
    if scanning = true then { s with scan := .settled } else s
  else { s with
    settles := s.settles ++ [⟨s.called, s.ended, false, scanning⟩]
    scan := if scanning = true then .settling else s.scan }

def tick (s : State ι σ) : State ι σ :=
  if s.closing = true ∨ s.quiesced = true then s
  else match s.scan with
    | .idle => s.settle true
    -- a scan that has not returned: this pass is skipped
    | _ => s

def adopt (s : State ι σ) : State ι σ := (s.disarm (s.slots.getD [])).tick

end State

/-! ## Arming -/

variable (occurrences : σ → ℤ → Option ℤ)

def lapsed (row : Row ι σ) (now : ℤ) : Bool :=
  row.expires ≤ now || row.schedule.isSome && bound occurrences row ≤ now

def arm (now : ℤ) (s : State ι σ) (row : Row ι σ) : State ι σ :=
  if s.holds row.id = true then s
  -- a recurring row is disposed of at its end, and moved on past an occurrence that is not made
  else if row.schedule.isSome = true ∧ row.expires ≤ now then s.end row.id
  else if lapsed occurrences row now = true then s.call row.id row.due
  else { s with
    timers := s.timers ++ [(s.set, row)]
    armed := s.armed ++ [⟨row.id, s.set, row.lane⟩]
    set := s.set + 1 }

/-! ## Steps -/

variable (regions : List ℕ) (discreteness : ℤ)

def dispatch (s : State ι σ) (row : Row ι σ) : State ι σ :=
  if s.closing = true then { s with armed := s.armed.filter (·.id ≠ row.id) }
  else { s with calls := s.calls ++ [row], invoked := occurrence row :: s.invoked }

def done (s : State ι σ) (row : Row ι σ) (outcome : Outcome) : State ι σ :=
  let s := match outcome, row.schedule with
    | .made, _ | .refused, none => s.call row.id row.due
    -- a schedule whose call the target will never take is over
    | .refused, some _ => s.end row.id
    | .failed, _ => { s with failed := occurrence row :: s.failed }
  { s with armed := s.armed.filter (·.id ≠ row.id) }

def step (s : State ι σ) : Act ι σ → Option (State ι σ)
  -- an id is of one row, and an occurrence that was disposed of is not owed again
  | .insert row =>
    if row.id ∉ s.live.map (·.id) ∧ occurrence row ∉ s.known then
      some { s with live := s.live ++ [row], known := occurrence row :: s.known }
    else none
  | .remove id => some { s with live := s.live.filter (·.id ≠ id) }
  | .assigned slots =>
    let s := { s with slots := slots }
    some (if s.listening = true then s.adopt else s)
  | .tick => if s.ticking = true then some s.tick else none
  | .enumerate now =>
    match s.scan with
    | .settled =>
      match s.slots with
      | none | some [] => some { s with scan := .idle }
      | some lanes => some { s with scan := .enumerating lanes (now + 2 * discreteness) }
    | _ => none
  | .answer =>
    match s.scan with
    | .enumerating lanes until' =>
      some { s with scan := .enumerated (enumerate regions lanes until' s.live) }
    | _ => none
  | .unread =>
    match s.scan with
    | .enumerating _ _ | .enumerated _ => some { s with scan := .idle }
    | _ => none
  | .rows now =>
    match s.scan with
    | .enumerated rows =>
      let s := rows.foldl (arm occurrences now) { s with scan := .idle }
      -- a batch filled to its limit says nothing about what it did not reach
      some (if rows.length = BATCH then s else s.forget (rows.map (·.id)))
    | _ => none
  | .fire timer =>
    (s.timers.find? (·.1 = timer)).map fun fired =>
      dispatch { s with timers := s.timers.filter (·.1 ≠ timer) } fired.2
  | .done i outcome =>
    s.calls[i]?.map fun row => done { s with calls := s.calls.eraseIdx i } row outcome
  | .apply i =>
    match s.settles[i]? with
    | some w => some { s with
        live := s.live.filter (!w.takes ·)
        settles := s.settles.set i { w with applied := true } }
    | none => none
  | .settled i =>
    match s.settles[i]? with
    | some ⟨made, ended, true, scanning⟩ => some { s with
        settles := s.settles.eraseIdx i
        called := s.called.filter fun p => p.1 ∉ made.map (·.1)
        ended := s.ended.filter (· ∉ ended)
        scan := if scanning = true then .settled else s.scan }
    | _ => none
  | .unsettled i =>
    s.settles[i]?.map fun w => { s with
      settles := s.settles.eraseIdx i
      scan := if w.scanning = true then .idle else s.scan }
  | .pause =>
    let s := { s with quiesced := true, listening := false, ticking := false }
    some ((s.clear fun _ => false).settle false)
  | .unpause => some (State.adopt { s with quiesced := false, ticking := true, listening := true })
  | .close =>
    let s := { s with closing := true, listening := false, ticking := false }
    some ((s.clear fun _ => false).settle false)

end
end Toa.Cadence.Dispatcher
