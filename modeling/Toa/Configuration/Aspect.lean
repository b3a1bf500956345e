import Toa.Lib.Run
import Toa.Configuration.Values

/-! One component's configuration in a process: the aspect that holds it, what it asks the values service
for, and what the service says was created. Answers and events come by ways of their own, so that they
cross. -/

namespace Toa.Configuration
open Toa.Run

variable {γ ρ ν : Type*}

/-- Who waits for a fetch: the aspect that opens, its listener, or another aspect of the component. -/
inductive Waiter
  | opening
  | listening
  | another
deriving DecidableEq

/-- The call of a flush: not made, with the service, or answered by it. -/
inductive Flight (γ ρ : Type*)
  | idle
  | sent
  | answered (value : Option (Value γ ρ))

inductive Aspect (γ ρ ν : Type*)
  | closed
  | opening
  /-- the fetch was answered, and nothing is subscribed to -/
  | served (value : Value γ ρ)
  | failed
  | following (value : ν) (created : ℕ)

/-- `undelivered` is every object whose last delivery is to come. -/
structure State (γ ρ ν : Type*) where
  stored : List (Value γ ρ)
  undelivered : List (Value γ ρ)
  pending : Option (List Waiter)
  flight : Flight γ ρ
  aspect : Aspect γ ρ ν

inductive Act (γ ρ : Type*)
  | create (configuration : γ) (created : ℕ)
  | reset (revision : ρ) (created : ℕ)
  | deliver (value : Value γ ρ) (last : Bool)
  | connect
  | ask
  | flush
  | answer (service : Option ρ)
  | lose
  | settle
  | subscribe

section
variable [DecidableEq γ] [DecidableEq ρ]
variable (deployed : ρ → γ) (revision : Option ρ) (fit : γ → Option ν)

def refused (v : Value γ ρ) : Bool :=
  revision.isSome && (v.created = 0 || v.revision.isSome) && v.revision ≠ revision

def foreign (v : Value γ ρ) : Bool :=
  revision.isSome && v.revision.isSome && v.revision ≠ revision

namespace State

def init : State γ ρ ν := ⟨[], [], none, .idle, .closed⟩

def store (s : State γ ρ ν) (v : Value γ ρ) : State γ ρ ν :=
  { s with stored := v :: s.stored, undelivered := v :: s.undelivered }

/-- `fetch`: what is already asked for is not asked for once more. -/
def fetch (s : State γ ρ ν) (w : Waiter) : State γ ρ ν :=
  { s with pending := some (s.pending.getD [] ++ [w]) }

/-- `listener`, which is not called before the aspect has subscribed. -/
def listener (s : State γ ρ ν) (v : Value γ ρ) : State γ ρ ν :=
  match s.aspect with
  | .following _ created =>
    if v.created ≤ created then s
    else if foreign revision v = true then s.fetch .listening
    else match fit v.configuration with
      | some value => { s with aspect := .following value v.created }
      | none => s
  | _ => s

def told (v : Value γ ρ) (s : State γ ρ ν) : Waiter → State γ ρ ν
  | .opening =>
    match s.aspect with
    | .opening => { s with aspect := .served v }
    | _ => s
  | .listening => s.listener revision fit v
  | .another => s

end State

def step (s : State γ ρ ν) : Act γ ρ → Option (State γ ρ ν)
  | .create configuration created =>
    if 0 < created ∧ created ∉ s.stored.map (·.created) then some (s.store ⟨configuration, created, none⟩)
    else none
  | .reset r created =>
    if 0 < created ∧ created ∉ s.stored.map (·.created) then some (s.store ⟨deployed r, created, some r⟩)
    else none
  | .deliver v last =>
    if v ∈ s.undelivered then
      let undelivered := if last = true then s.undelivered.erase v else s.undelivered
      some (State.listener revision fit { s with undelivered := undelivered } v)
    else none
  | .connect =>
    match s.aspect with
    | .closed => some { s.fetch .opening with aspect := .opening }
    | _ => none
  | .ask => some (s.fetch .another)
  | .flush =>
    match s.pending, s.flight with
    | some _, .idle => some { s with flight := .sent }
    | _, _ => none
  | .answer service =>
    match s.flight with
    | .sent => some { s with flight := .answered (resolve deployed service s.stored) }
    | _ => none
  | .lose => some { s with flight := .idle }
  | .settle =>
    match s.flight, s.pending with
    | .answered (some v), some waiters =>
      if refused revision v = true then some { s with flight := .idle }
      else some (waiters.foldl (State.told revision fit v) { s with pending := none, flight := .idle })
    | .answered none, some _ => some { s with flight := .idle }
    | _, _ => none
  | .subscribe =>
    match s.aspect with
    | .served v =>
      match fit v.configuration with
      | some value => some { s with aspect := .following value v.created }
      | none => some { s with aspect := .failed }
    | _ => none

end

end Toa.Configuration
