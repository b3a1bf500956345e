import Toa.Lib.Assoc
import Toa.Lib.Run

/-! The execution of a workflow: its units one after another, the steps of a unit at once, what each of them
answers pushed to whoever stored the entry. Between any two awaits of a step the other steps of its unit go on,
a discovery settles, a step stream delivers, or the reply is destroyed. -/

namespace Toa.Octets

structure Endpoint where
  operation : String
  key : String
  task : Bool
deriving DecidableEq

def Endpoint.of (endpoint : String) : Endpoint :=
  let task := "task:".toList.isPrefixOf endpoint.toList
  let named := if task then endpoint.toList.drop 5 else endpoint.toList
  let parts := ((named.splitOn '.').map String.ofList).reverse
  -- what is not stated is written into the key as `undefined`
  { operation := parts[0]?.getD "undefined"
    key := parts[2]?.getD "default" ++ "." ++ parts[1]?.getD "undefined"
    task }

example : Endpoint.of "task:images.resize" = ⟨"resize", "default.images", true⟩ := by decide +kernel

/-- The steps that are taken at once, in the order of the object's entries. -/
structure Unit where
  entries : List (String × String)
  distinct : (entries.map Prod.fst).Nodup

/-- What an operation or a stream of one answers: nothing, a value, or an error with its own properties. -/
inductive Result (V E : Type*)
  | undefined
  | value (v : V)
  | error (e : E)
deriving DecidableEq

inductive Status
  | completed
  | exception
deriving DecidableEq

structure Report (V E : Type*) where
  step : String
  status : Option Status := none
  output : Option V := none
  error : Option E := none
deriving DecidableEq

namespace Execution

inductive Discovery
  | asked
  | found
  | refused
deriving DecidableEq

/-- Where a step is. A stream is cut as the execution is destroyed. -/
inductive Phase
  | discovering
  | calling
  | streaming
  | cut
  | settled
deriving DecidableEq

structure Running where
  step : String
  endpoint : String
  phase : Phase
deriving DecidableEq

def Running.entry (r : Running) : String × String := (r.step, r.endpoint)

/-- An operation that was invoked, and `context.steps` as it was then. -/
structure Invocation (V : Type*) where
  step : String
  endpoint : String
  steps : List (String × V)
deriving DecidableEq

def Invocation.entry {V : Type*} (inv : Invocation V) : String × String := (inv.step, inv.endpoint)

inductive Reply (V E : Type*)
  | result (result : Result V E)
  | stream
  | threw

end Execution

open Execution

/-- The fields of an execution, with the steps in flight, the units that are left, and whether `run` returned.
The end of the reports is the `none` among what was pushed. -/
structure Execution (V E : Type*) where
  running : List Running := []
  rest : List Unit := []
  steps : List (String × V) := []
  components : List String := []
  discovery : List (String × Discovery) := []
  interrupted : Bool := false
  destroyed : Bool := false
  returned : Bool := false
  pushed : List (Option (Report V E)) := []
  invoked : List (Invocation V) := []

namespace Execution
variable {V E : Type*}

/-- `report` as it is pushed. -/
def written (step : String) (result : Result V E) (completed : Bool) : Report V E :=
  let status := if completed then some .completed else none
  match result with
  | .undefined => { step, status }
  | .value v => { step, status, output := some v }
  | .error e => { step, status, error := some e }

def excepted (step : String) : Report V E := { step, status := some .exception }

def turn (s : Execution V E) (step : String) (phase : Phase) : Execution V E :=
  { s with running := s.running.map fun r => if r.step = step then { r with phase } else r }

def push (s : Execution V E) (report : Report V E) : Execution V E :=
  { s with pushed := s.pushed ++ [some report] }

def exception (s : Execution V E) (step : String) : Execution V E :=
  if s.destroyed then s else { s.push (excepted step) with interrupted := true }

section
variable (clone : V → Option V)

/-- `report`: none, where a value is one that `structuredClone` throws on. -/
def report (s : Execution V E) (step : String) (result : Result V E) (completed : Bool) :
    Option (Execution V E) :=
  if s.destroyed then some s
  else match result with
  | .undefined => some (s.push (written step .undefined completed))
  | .error e => some { s.push (written step (.error e) completed) with interrupted := true }
  | .value v => (clone v).map fun copy =>
    { s.push (written step (.value v) completed) with steps := Assoc.gather step copy (fun _ => copy) s.steps }

/-- `report` of a step where it throws is an exception of the step. -/
def answer (s : Execution V E) (step : String) (result : Result V E) : Execution V E :=
  (s.report clone step result true).getD (s.exception step)

end

/-- `invoke`, on a component that was discovered. -/
def invoke (s : Execution V E) (step endpoint : String) : Execution V E :=
  { s with invoked := s.invoked ++ [{ step, endpoint, steps := s.steps }] }

def enter (s : Execution V E) (entry : String × String) : Execution V E :=
  let key := (Endpoint.of entry.2).key
  let join (phase : Phase) : List Running := s.running ++ [⟨entry.1, entry.2, phase⟩]
  if key ∈ s.components then { s.invoke entry.1 entry.2 with running := join .calling }
  else if (s.discovery.lookup key).isSome then { s with running := join .discovering }
  else { s with running := join .discovering, discovery := s.discovery ++ [(key, .asked)] }

/-- `execute` up to where it awaits. -/
def execute (s : Execution V E) (unit : Unit) : Execution V E :=
  unit.entries.foldl enter { s with running := [] }

/-- `run`, where the loop is to take the next unit. -/
def proceed (s : Execution V E) : Execution V E :=
  match s.interrupted, s.rest with
  | false, unit :: rest => { s with rest }.execute unit
  | _, _ => { s with returned := true, pushed := if s.destroyed then s.pushed else s.pushed ++ [none] }

def new (units : List Unit) : Execution V E := proceed { rest := units }

def settle (discovery : List (String × Discovery)) (key : String) (found : Bool) : List (String × Discovery) :=
  discovery.map fun d => if d.1 = key then (key, if found then .found else .refused) else d

/-- `_destroy`: what is being read is cut. -/
def destroy (s : Execution V E) : Execution V E :=
  { s with
    destroyed := true
    interrupted := true
    running := s.running.map fun r => if r.phase = .streaming then { r with phase := .cut } else r }

inductive Action (V E : Type*)
  | discovered (key : String) (found : Bool)
  | waited (step : String)
  | replied (step : String) (reply : Reply V E)
  | delivered (step : String) (result : Result V E)
  | drained (step : String)
  | broke (step : String)
  | proceed
  | destroy

def find (s : Execution V E) (step : String) (phases : List Phase) : Option Running :=
  s.running.find? fun r => r.step = step ∧ r.phase ∈ phases

def step (clone : V → Option V) (s : Execution V E) : Action V E → Option (Execution V E)
  | .discovered key found =>
    if s.discovery.lookup key = some .asked then some { s with discovery := settle s.discovery key found }
    else none
  | .waited step => (s.find step [.discovering]).bind fun r =>
    let key := (Endpoint.of r.endpoint).key
    match s.discovery.lookup key with
    | some .found =>
      some ({ s.invoke step r.endpoint with components := key :: s.components }.turn step .calling)
    | some .refused => some ((s.exception step).turn step .settled)
    | _ => none
  | .replied step reply => (s.find step [.calling]).map fun _ =>
    match reply with
    | .result result => (s.answer clone step result).turn step .settled
    -- a stream that comes after `_destroy` is read to its end
    | .stream => s.turn step .streaming
    | .threw => (s.exception step).turn step .settled
  | .delivered step result => (s.find step [.streaming]).map fun _ =>
    (s.report clone step result false).getD ((s.exception step).turn step .settled)
  | .drained step => (s.find step [.streaming]).map fun _ => (s.answer clone step .undefined).turn step .settled
  -- what a stream that was cut ends with is not reported either way
  | .broke step => (s.find step [.streaming, .cut]).map fun _ => (s.exception step).turn step .settled
  | .proceed => if ¬s.returned ∧ ∀ r ∈ s.running, r.phase = .settled then some s.proceed else none
  | .destroy => if s.destroyed then none else some s.destroy

end Execution

end Toa.Octets
