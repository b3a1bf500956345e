import Mathlib.Algebra.Order.Ring.WithTop
import Mathlib.Data.NNRat.Floor
import Toa.Lib.Run

/-! The chain of hops a call came by. A chain is copied as it is extended, so what an invocation
passes on is its own path and not what others were called with. -/

namespace Toa.Call.Trail
open Run

inductive Json
  | null
  | boolean (b : Bool)
  | number (n : ℚ)
  | string (s : String)
  | array (items : List Json)
  | object (fields : List (String × Json))

/-- A limit is a number that is not negative, and may be infinite. -/
abbrev Limit := WithTop ℚ≥0

structure Limits where
  repeats : Limit
  depth : Limit

structure LoopException where
  message : String
  trail : List String

def received : Option Json → List String
  | some (.array items) => items.filterMap fun
    | .string hop => some hop
    | _ => none
  | _ => []

def slice (hops : List String) : Limit → List String
  | none => hops
  | some depth => hops.take ⌊depth⌋₊

def clip (hops : List String) (depth : Limit) : List String :=
  if (hops.length : Limit) > depth then slice hops depth else hops

def extend (inbound : Option Json) (hop : String) (limits : Limits) :
    Except LoopException (List String) :=
  let hops := clip (received inbound) limits.depth
  let trail := hops ++ [hop]
  if limits.repeats = 0 then .ok trail
  else if (trail.length : Limit) > limits.depth then
    .error ⟨"Call chain is " ++ toString trail.length ++ " hops deep", trail⟩
  else
    let seen := hops.count hop
    if ((seen + 1 : ℕ) : Limit) ≥ limits.repeats then
      .error ⟨"'" ++ hop ++ "' is hop " ++ toString (seen + 1) ++ " of this chain", trail⟩
    else .ok trail

def event (destination : String) : String := "~" ++ destination

/-! ## Hops -/

def wire (hops : List String) : Json := .array (hops.map .string)

/-- `receive`: the event is a hop of its own, and what refuses is the operation it calls. -/
def receive (inbound : Option Json) (destination : String) : Json :=
  wire (received inbound ++ [event destination])

/-- A hop down a path: an operation, called or come to by an event. -/
structure Link where
  event : Option String
  operation : String
deriving DecidableEq

def Link.carry (link : Link) (inbound : Option Json) : Option Json :=
  match link.event with
  | none => inbound
  | some destination => some (receive inbound destination)

section
variable (unchained : String → Bool) (limits : Limits)

/-- `invoke`: an operation declared `unchained` drops the chain the call arrived with. -/
def invoke (operation : String) (inbound : Option Json) : Except LoopException (List String) :=
  extend (if unchained operation = true then none else inbound) operation limits

/-- An operation that is run: the chain put in scope, the value its path began with, and the path. -/
structure Invocation where
  hops : List String
  operation : String
  inbound : Option Json
  path : List Link

structure State where
  served : List Invocation
  refused : List LoopException

def State.init : State := ⟨[], []⟩

inductive Act
  | arrive (inbound : Option Json) (link : Link)
  | call (caller : ℕ) (link : Link)

def enter (s : State) (inbound : Option Json) (path : List Link) (link : Link) (carried : Option Json) :
    State :=
  match invoke unchained limits link.operation (link.carry carried) with
  | .ok hops => { s with served := s.served ++ [⟨hops, link.operation, inbound, path ++ [link]⟩] }
  | .error exception => { s with refused := s.refused ++ [exception] }

def step (s : State) : Act → Option State
  | .arrive inbound link => some (enter unchained limits s inbound [] link inbound)
  -- what an invocation calls, or what it changed raises, carries the chain in its scope
  | .call caller link => s.served[caller]?.map fun invocation =>
      enter unchained limits s invocation.inbound invocation.path link (some (wire invocation.hops))

end

/-! ## A hop -/

section
variable {unchained : String → Bool} {limits : Limits}

end

/-! ## A chain that is clipped -/

def nested : List Act :=
  [.arrive none ⟨none, "a"⟩, .call 0 ⟨none, "b"⟩, .call 1 ⟨none, "c"⟩]

end Toa.Call.Trail
