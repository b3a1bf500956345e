import Mathlib
import Toa.Realtime.Stream

/-! A key of the streams a gateway serves: its stream in Redis, the channel that carries what is
written to it, and the readers it has here. Each command and each reply of a connection is a step
of its own. What one key is sent depends on no other, so a hub is its keys. -/

namespace Toa.Realtime

variable {ρ ι E : Type*}

inductive Stage (ι E : Type*)
  | absent
  | entered
  | marking (marker : ι)
  | replaying (marker : ι)
  | replayed (marker : ι) (entries : List (Entry ι E))
  | ready (marker : ι)
  | left

def Stage.marker : Stage ι E → Option ι
  | .marking marker | .replaying marker | .replayed marker _ | .ready marker => some marker
  | .absent | .entered | .left => none

structure Reader (ι E : Type*) where
  generation : ℕ
  token : Option ι
  stage : Stage ι E
  stream : Stream ι E

/-- A key that has readers. The first reader makes it, and the last to leave removes it, so the
next is of another `generation`. -/
structure Key (ρ ι : Type*) where
  streams : List ρ
  last : Option ι
  subscribed : Bool
  generation : ℕ

/-- What was written while the subscriber was away, as it is read: from `after`, and with the
result where the server answered, how far the stream went then. -/
structure Recovery (ι E : Type*) where
  generation : ℕ
  after : Option ι
  result : Option (List (Entry ι E) × Option ι)

/-- `stored` holds markers too, which carry no event. `replies` is the markers written whose replies
are on their way. `lost` is every event the channel did not carry to the end, and `recovered` how
far each recovery that was broadcast had read. -/
structure State (ρ ι E : Type*) where
  stored : List (ι × Option E)
  channel : List (Entry ι E)
  carried : Bool
  key : Option (Key ρ ι)
  generation : ℕ
  readers : ρ → Reader ι E
  replies : List (ρ × ι)
  recoveries : List (Recovery ι E)
  lost : List ι
  recovered : List ι

def State.init : State ρ ι E where
  stored := []
  channel := []
  carried := false
  key := none
  generation := 0
  readers := fun _ => ⟨0, none, .absent, .init⟩
  replies := []
  recoveries := []
  lost := []
  recovered := []

def event (record : ι × Option E) : Option (Entry ι E) := record.2.map (⟨record.1, ·⟩)

def events (stored : List (ι × Option E)) : List (Entry ι E) := stored.filterMap event

inductive Act (ρ ι E : Type*)
  | write (id : ι) (data : E)
  | receive
  | lose
  | subscribed
  | unsubscribed
  | recover
  | reread (i : ℕ)
  | unread (i : ℕ)
  | broadcast (i : ℕ)
  | enter (r : ρ) (token : Option ι)
  | mark (r : ρ) (id : ι)
  | marked
  | replay (r : ρ)
  | ready (r : ρ)
  | leave (r : ρ)

section
variable [LinearOrder ι] [DecidableEq ρ]

def read (stored : List (ι × Option E)) (after : Option ι) : List (Entry ι E) :=
  (events stored).filter fun entry => after.all (· < entry.id)

namespace State

def broadcast (s : State ρ ι E) (entry : Entry ι E) : State ρ ι E :=
  match s.key with
  | none => s
  | some key =>
    { s with
      key := some { key with last := some entry.id }
      readers := fun r =>
        let reader := s.readers r
        if r ∈ key.streams then { reader with stream := reader.stream.deliver entry } else reader }

def place (s : State ρ ι E) (r : ρ) (reader : Reader ι E) : State ρ ι E :=
  { s with readers := Function.update s.readers r reader }

end State

/-- `enter`, to where it waits for the subscription. -/
def enter (s : State ρ ι E) (r : ρ) (token : Option ι) : State ρ ι E :=
  match s.key with
  | none =>
    let key : Key ρ ι := ⟨[r], none, false, s.generation + 1⟩
    { s.place r ⟨s.generation + 1, token, .entered, .init⟩ with
      key := some key, generation := s.generation + 1 }
  | some key =>
    { s.place r ⟨key.generation, token, .entered, .init⟩ with
      key := some { key with streams := key.streams ++ [r] } }

/-- The end of `open`, of a reader that is there still. -/
def Reader.opened (reader : Reader ι E) (cursor marker : ι) (entries : List (Entry ι E)) :
    Reader ι E :=
  { reader with stage := .ready marker, stream := reader.stream.opened cursor marker entries }

/-- `entry.last ??= marker` -/
def settle (s : State ρ ι E) (generation : ℕ) (marker : ι) : Option (Key ρ ι) :=
  s.key.map fun key =>
    if key.generation = generation then { key with last := some (key.last.getD marker) } else key

def leave (s : State ρ ι E) (key : Key ρ ι) (r : ρ) : State ρ ι E :=
  let s := s.place r { s.readers r with stage := .left }
  match key.streams.filter (· ≠ r) with
  | [] => { s with key := none }
  | streams => { s with key := some { key with streams := streams } }

def step (s : State ρ ι E) : Act ρ ι E → Option (State ρ ι E)
  | .write id data =>
    if s.stored.all (fun record => record.1 < id) = true then
      some (if s.carried = true then
        { s with stored := s.stored ++ [(id, some data)], channel := s.channel ++ [⟨id, data⟩] }
      else { s with stored := s.stored ++ [(id, some data)], lost := s.lost ++ [id] })
    else none
  | .receive =>
    match s.channel with
    | [] => none
    | entry :: channel => some ({ s with channel := channel }.broadcast entry)
  | .lose => some { s with
      channel := [], carried := false, lost := s.lost ++ s.channel.map (·.id) }
  | .subscribed =>
    s.key.map fun key => { s with carried := true, key := some { key with subscribed := true } }
  | .unsubscribed =>
    -- sent when the last reader left, and so before the next key is subscribed to
    if s.key.all (·.subscribed = false) = true then some { s with carried := false } else none
  | .recover =>
    s.key.map fun key =>
      { s with recoveries := s.recoveries ++ [⟨key.generation, key.last, none⟩] }
  | .reread i =>
    match s.recoveries[i]? with
    | some ⟨generation, after, none⟩ =>
      let result := (read s.stored after, s.stored.getLast?.map (·.1))
      some { s with recoveries := s.recoveries.set i ⟨generation, after, some result⟩ }
    | _ => none
  | .unread i => some { s with recoveries := s.recoveries.eraseIdx i }
  | .broadcast i =>
    match s.recoveries[i]? with
    | some ⟨generation, _, some (entries, upto)⟩ =>
      let s := { s with recoveries := s.recoveries.eraseIdx i }
      -- a key that was made again meanwhile has none of the readers it is read for
      if s.key.any (·.generation = generation) = true then
        some { entries.foldl State.broadcast s with recovered := upto.toList ++ s.recovered }
      else some s
    | _ => none
  | .enter r token =>
    match (s.readers r).stage with
    | .absent => some (enter s r token)
    | _ => none
  | .mark r id =>
    match (s.readers r).stage, s.key with
    | .entered, some key =>
      if key.subscribed = true ∧ s.stored.all (fun record => record.1 < id) = true then
        some { s.place r { s.readers r with stage := .marking id } with
          stored := s.stored ++ [(id, none)], replies := s.replies ++ [(r, id)] }
      else none
    | _, _ => none
  | .marked =>
    match s.replies with
    | [] => none
    | (r, id) :: replies =>
      let reader := s.readers r
      let s := { s with replies := replies, key := settle s reader.generation id }
      match reader.stage, reader.token with
      | .marking _, none => some (s.place r (reader.opened id id []))
      | .marking _, some _ => some (s.place r { reader with stage := .replaying id })
      | _, _ => some s
  | .replay r =>
    let reader := s.readers r
    match reader.stage with
    | .replaying marker =>
      some (s.place r { reader with stage := .replayed marker (read s.stored reader.token) })
    | _ => none
  | .ready r =>
    let reader := s.readers r
    match reader.stage, reader.token with
    | .replayed marker entries, some token => some (s.place r (reader.opened token marker entries))
    | _, _ => none
  | .leave r =>
    match s.key with
    | none => none
    | some key => if r ∈ key.streams then some (leave s key r) else none

end

/-- A hub is its keys, and a step of it is a step of one. -/
def hub {κ : Type*} [DecidableEq κ] [LinearOrder ι] [DecidableEq ρ] (s : κ → State ρ ι E)
    (a : κ × Act ρ ι E) : Option (κ → State ρ ι E) :=
  (step (s a.1) a.2).map fun t => Function.update s a.1 t

end Toa.Realtime
