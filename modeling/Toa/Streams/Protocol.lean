import Mathlib.Data.Int.Order.Basic
import Mathlib.Data.Nat.Notation
import Mathlib.Logic.Function.Basic
import Mathlib.Order.Lattice
import Mathlib.Tactic.TypeStar

/-! A collection read as a stream by the MongoDB storage: in windows, and then what changed in it. A
position in the history of the collection is how many commits come before it. -/

namespace Toa.Streams

universe u v w
variable {ι : Type u} {D : Type v} {H : Type w}

/-- A record as the collection holds it under its `_id`. -/
structure Image (D : Type v) where
  CREATED : ℤ
  content : D

structure Commit (ι : Type u) (D : Type v) where
  id : ι
  after : Option (Image D)

structure Event (ι : Type u) (D : Type v) where
  id : ι
  before : Option (Image D)
  after : Option (Image D)

inductive Part (ι : Type u) (D : Type v)
  | entry (id : ι) (image : Image D)
  | removed (id : ι)

def Part.id : Part ι D → ι
  | .entry id _ | .removed id => id

inductive Direction
  | asc
  | desc

/-- The order of a read in windows: by `_id`, or by `CREATED` and then `_id`. -/
inductive Order
  | id (direction : Direction)
  | created (direction : Direction)

inductive Exception
  | querySyntax
  | stateHistory

/-- What a reading is of. What a projection leaves of a record it leaves of what it left. -/
structure Query (D : Type v) (H : Type w) where
  criteria : Image D → Bool
  sort : List (String × Direction)
  projection : D → D
  projected : ∀ d, projection (projection d) = projection d
  /-- `digest` of the criteria and the sort -/
  hash : H

/-- What one read of it is told: no limit is zero. -/
structure Request where
  limit : Option ℕ
  limit_pos : ∀ n ∈ limit, 0 < n
  stop : Bool

theorem limit_pos {n : ℕ} (h : 0 < n) : ∀ m ∈ some n, 0 < m := by
  intro m hm
  rwa [← Option.mem_some.mp hm]

theorem projected_id : ∀ d : D, id (id d) = id d := fun _ => rfl

structure Position where
  p : ℕ
  t : Option ℕ

structure Token (ι : Type u) (H : Type w) where
  p : Option ℕ
  t : Option ℕ
  id : Option ι
  c : Option ℤ
  h : H

def UNMOVING : List String := ["_id", "CREATED"]

def ordered (sort : List (String × Direction)) : Except Exception Order :=
  match sort with
  | [] => .ok (.id .asc)
  | (first, direction) :: _ =>
    if sort.all (fun sorting => sorting.1 ∈ UNMOVING) = true then
      .ok (if first = "_id" then .id direction else .created direction)
    else .error .querySyntax

section
variable [LinearOrder ι]

def Direction.past {α : Type*} [LinearOrder α] (direction : Direction) (a b : α) : Bool :=
  match direction with
  | .asc => a < b
  | .desc => b < a

/-- What comes after the last entry a window read, in its order. -/
def beyond (order : Order) (after x : ι × ℤ) : Bool :=
  match order with
  | .id direction => direction.past after.1 x.1
  | .created direction =>
    direction.past after.2 x.2 || (x.2 = after.2 && direction.past after.1 x.1)

end

/-- What a read that is given a token is a read of. -/
inductive Plan (ι : Type u)
  | first
  | window (position : Option Position) (after : ι × ℤ)
  | changes (p : ℕ)

def stream [DecidableEq H] (history : Bool) (hash : H) (given : Option (Token ι H)) :
    Except Exception (Plan ι) :=
  match given with
  | none => .ok .first
  | some token =>
    if token.h ≠ hash then .error .querySyntax
    else match token.id, token.p, history with
      | some _, some _, false => .error .stateHistory
      | some id, p, _ => .ok (.window (p.map fun p => ⟨p, token.t⟩) (id, token.c.getD 0))
      | none, some p, true => .ok (.changes p)
      | none, _, _ => .error .stateHistory

/-- The order of the read `#read` makes; one that is not in windows is in the order of the query. -/
def orderOf (sort : List (String × Direction)) (request : Request) (after : Option (ι × ℤ)) :
    Except Exception (Option Order) :=
  match request.limit, after with
  | none, none => .ok none
  | _, _ => (ordered sort).map some

/-- `#position`, whose time is a position too. -/
def taken (history : Bool) (position : ℕ) : Option Position :=
  if history = true then some ⟨position, some position⟩ else none

def ending (hash : H) (request : Request) (order : Option Order) (position : Option Position)
    (entries : List (ι × Image D)) : Option (Token ι H) :=
  match entries.getLast? with
  | some (id, last) =>
    if request.limit = some entries.length ∧ request.stop = false then
      some {
        p := position.map (·.p)
        t := position.bind (·.t)
        id := some id
        c := match order with
          | some (.created _) => some last.CREATED
          | _ => none
        h := hash }
    else position.map fun position => ⟨some position.p, none, none, none, hash⟩
  | none => position.map fun position => ⟨some position.p, none, none, none, hash⟩

def classify (criteria : Image D → Bool) (event : Event ι D) : Option (Part ι D) :=
  match event.after.filter criteria, event.before.filter criteria with
  | some after, _ => some (.entry event.id after)
  | none, some _ => some (.removed event.id)
  | none, none => none

/-- What a read of changes yields of the events from `n` on, of which it is given `available`
before it is given none, and the position it ends at. -/
def changes (criteria : Image D → Bool) (limit : Option ℕ) (events : ℕ → Event ι D) :
    ℕ → ℕ → ℕ → List (Part ι D) × ℕ
  | 0, n, _ => ([], n)
  | available + 1, n, count =>
    let part := (classify criteria (events n)).toList
    let count := count + part.length
    if limit.any (· ≤ count) = true then (part, n + 1)
    else
      let rest := changes criteria limit events available (n + 1) count
      (part ++ rest.1, rest.2)

def keep [DecidableEq ι] (copy : ι → Option (Image D)) : Part ι D → ι → Option (Image D)
  | .entry id image => Function.update copy id (some image)
  | .removed id => Function.update copy id none

/-! ## The collection over its history -/

section
variable [DecidableEq ι] (initial : ι → Option (Image D)) (commits : ℕ → Commit ι D)

def collection : ℕ → ι → Option (Image D)
  | 0 => initial
  | n + 1 => Function.update (collection n) (commits n).id (commits n).after

def event (n : ℕ) : Event ι D :=
  ⟨(commits n).id, collection initial commits n (commits n).id, (commits n).after⟩

end

/-- How the server answers a `find` that reads the collection between two positions: every entry is
a record it held at one of them, and what it held at all of them unchanged it returns, but for what
comes after the last entry of a full answer in its order. -/
structure Found [LinearOrder ι] (holds : ℕ → ι → Option (Image D)) (criteria : Image D → Bool)
    (filter : ι × ℤ → Bool) (order : Option Order) (limit : Option ℕ) (lo hi : ℕ)
    (entries : List (ι × Image D)) : Prop where
  held : ∀ e ∈ entries, ∃ n, lo ≤ n ∧ n ≤ hi ∧ holds n e.1 = some e.2 ∧ criteria e.2 = true ∧
    filter (e.1, e.2.CREATED) = true
  limited : ∀ n ∈ limit, entries.length ≤ n
  complete : ∀ id image, (∀ n, lo ≤ n → n ≤ hi → holds n id = some image) → criteria image = true →
    filter (id, image.CREATED) = true →
      (limit = some entries.length → ∃ o ∈ order, ∃ last ∈ entries.getLast?,
        beyond o (last.1, last.2.CREATED) (id, image.CREATED) = false) → (id, image) ∈ entries

/-! ## A reading, and the writes it interleaves with -/

/-- `now` is how many commits there were, `copy` what the reader keeps, and `seen` the last of the
positions its windows read the collection at. -/
structure State (ι : Type u) (D : Type v) (H : Type w) where
  now : ℕ
  token : Option (Token ι H)
  copy : ι → Option (Image D)
  seen : ℕ

def State.init : State ι D H := ⟨0, none, fun _ => none, 0⟩

/-- What the server answers comes with the step: the position it took, the positions it read the
collection at, how many of the changes it had. -/
inductive Act (ι : Type u) (D : Type v)
  | commit
  | first (request : Request) (position lo hi : ℕ) (entries : List (ι × Image D))
  | window (request : Request) (lo hi : ℕ) (entries : List (ι × Image D))
  | changes (request : Request) (upto : ℕ)

def Image.project (projection : D → D) (image : Image D) : Image D :=
  { image with content := projection image.content }

section
variable [DecidableEq ι] [DecidableEq H] (query : Query D H)

def State.read (s : State ι D H) (request : Request) (order : Option Order)
    (position : Option Position) (hi : ℕ) (entries : List (ι × Image D)) : State ι D H where
  now := s.now
  token := ending query.hash request order position entries
  copy := (entries.map fun e => .entry e.1 (e.2.project query.projection)).foldl keep s.copy
  seen := max s.seen hi

variable (history : Bool) (initial : ι → Option (Image D)) (commits : ℕ → Commit ι D)

def step (s : State ι D H) : Act ι D → Option (State ι D H)
  | .commit => some { s with now := s.now + 1 }
  | .first request position lo hi entries =>
    -- the position is taken before the window is read, in one session
    if position ≤ lo ∧ lo ≤ hi ∧ hi ≤ s.now then
      match orderOf query.sort request (none : Option (ι × ℤ)) with
      | .error _ => none
      | .ok order =>
        some ({ s with copy := fun _ => none, seen := 0 }.read query request order
          (taken history position) hi entries)
    else none
  | .window request lo hi entries =>
    match stream history query.hash s.token with
    | .ok (.window position after) =>
      -- a member of the set that is behind the time of the token waits
      if (position.bind (·.t)).all (· ≤ lo) = true ∧ lo ≤ hi ∧ hi ≤ s.now then
        match orderOf query.sort request (some after) with
        | .error _ => none
        | .ok order => some (s.read query request order position hi entries)
      else none
    | _ => none
  | .changes request upto =>
    match stream history query.hash s.token with
    | .ok (.changes p) =>
      if p ≤ upto ∧ upto ≤ s.now then
        let read := changes query.criteria request.limit (event initial commits) (upto - p) p 0
        some { s with
          token := some ⟨some read.2, none, none, none, query.hash⟩
          copy := read.1.foldl keep s.copy }
      else none
    | _ => none

end
end Toa.Streams
