import Toa.Chronicles.Contract

/-! A row of the log, and a state, made of a message. -/

namespace Toa.Chronicles.Recorder

inductive Exception
  | EntityContractException (message : String)
  | TypeError
  deriving DecidableEq

structure Message where
  payload : Payload
  id : Option String
  telemetry : Option String
  time : Option Number

/-- `Of`: what a component declares of the payloads of a label. -/
structure Declared where
  contract : Contract
  identity : Option String
  timestamp : Option String

structure Row where
  id : String
  label : String
  component : String
  time : Number
  entity : Option String
  version : Option Number
  identity : Option String
  trace : Option String
  payload : Value

structure State where
  component : String
  entity : String
  version : Number
  identity : Option String
  time : Number
  payload : Value

/-- `Date.now()`, `JSON.stringify`, which throws where there is a bigint, and `entities.derive`. -/
structure Environment where
  now : Number
  stringify : Value → Option String
  derive : String → String → String

def text : Value → Option String
  | .string value => some value
  | _ => none

def number : Value → Option Number
  | .number value => some value
  | _ => none

def when (env : Environment) (payload : Value) (message : Message) (property : Option String) :
    Number :=
  match property.bind fun name => number (payload.get name) with
  | some said => said
  | none => message.time.getD env.now

def whose (payload : Value) (property : Option String) : Option String :=
  property.bind fun name => text (payload.get name)

def declared (label : String) (payload : Value) (contract : Contract) : Except Exception Value :=
  (project contract.properties payload "" .empty).mapError fun exception =>
    .EntityContractException
      s!"The payload of '{label}' is not what its chronicles declare: {exception.message}"

/-- `message.id ?? entities.derive(label, JSON.stringify(payload))` -/
def Message.identified (message : Message) (env : Environment) (label : String) (payload : Value) :
    Except Exception String :=
  match message.id, env.stringify payload with
  | some id, _ => .ok id
  | none, some json => .ok (env.derive label json)
  | none, none => .error .TypeError

def row (env : Environment) (label component : String) (message : Message) (of : Declared) :
    Except Exception Row := do
  let payload := object message.payload.value
  let id ← message.identified env label payload
  let written ← declared label payload of.contract
  return {
    id := id
    label := label
    component := component
    time := when env payload message of.timestamp
    entity := text (payload.get "id")
    version := number (payload.get "VERSION")
    identity := whose payload of.identity
    trace := message.telemetry
    payload := written }

def state (env : Environment) (label component : String) (message : Message) (of : Declared) :
    Except Exception State := do
  let payload := object message.payload.value
  match text (payload.get "id"), number (payload.get "VERSION") with
  | some id, some version =>
    let written ← declared label payload of.contract
    return {
      component := component
      entity := id
      version := version
      identity := whose payload of.identity
      time := when env payload message of.timestamp
      payload := written }
  | _, _ => throw (.EntityContractException
      s!"The state '{label}' is an entity as it stands, and its payload carries no 'id' and 'VERSION'")

variable {env : Environment} {label component : String} {message : Message} {of : Declared}

theorem declared_eq_ok {value : Value} :
    declared label (object message.payload.value) of.contract = .ok value ↔
      written of.contract message.payload = .ok value := by
  unfold declared written
  cases project of.contract.properties (object message.payload.value) "" .empty <;>
    simp [Except.mapError]

theorem row_written {r : Row} (h : row env label component message of = .ok r) :
    written of.contract message.payload = .ok r.payload := by
  simp only [row, bind, bind_eq_ok, pure, Except.pure] at h
  obtain ⟨id, -, value, hvalue, heq⟩ := h
  cases heq
  exact declared_eq_ok.mp hvalue

theorem state_written {s : State} (h : state env label component message of = .ok s) :
    written of.contract message.payload = .ok s.payload := by
  unfold state at h
  dsimp only at h
  split at h
  · simp only [bind, bind_eq_ok, pure, Except.pure] at h
    obtain ⟨value, hvalue, heq⟩ := h
    cases heq
    exact declared_eq_ok.mp hvalue
  · cases h

/-- No row is made of a payload that is not of the contract, and one that is made keeps of the
payload what the contract declares, where no name of `Object.prototype` is asked of what does not
carry it. -/
theorem row_kept {r : Row} (h : row env label component message of = .ok r)
    (hclear : Clear (.object of.contract.properties) (object message.payload.value)) :
    Admits of.contract message.payload ∧
      Kept (.object of.contract.properties) (object message.payload.value) r.payload := by
  have hexact := exact_of_clear_of_admits fun _ => hclear
  rw [Exact, row_written h] at hexact
  exact ⟨hexact.1, hexact.2.1⟩

theorem state_kept {s : State} (h : state env label component message of = .ok s)
    (hclear : Clear (.object of.contract.properties) (object message.payload.value)) :
    Admits of.contract message.payload ∧
      Kept (.object of.contract.properties) (object message.payload.value) s.payload := by
  have hexact := exact_of_clear_of_admits fun _ => hclear
  rw [Exact, state_written h] at hexact
  exact ⟨hexact.1, hexact.2.1⟩

/-- A message with an id and a payload of the contract is a row, where the names are clear. -/
theorem row_of_admits {id : String} (hid : message.id = some id)
    (hclear : Clear (.object of.contract.properties) (object message.payload.value))
    (h : Admits of.contract message.payload) :
    ∃ r, row env label component message of = .ok r := by
  have hexact := exact_of_clear_of_admits fun _ => hclear
  cases hwritten : written of.contract message.payload with
  | error mismatch =>
    rw [Exact, hwritten] at hexact
    exact absurd h hexact
  | ok value =>
    have hdeclared : declared label (object message.payload.value) of.contract = .ok value :=
      declared_eq_ok.mpr hwritten
    simp only [row, Message.identified, hid, hdeclared]
    exact ⟨_, rfl⟩

end Toa.Chronicles.Recorder
