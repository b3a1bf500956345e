import Toa.Lib.Run

/-! Readonly chains. A call that may only read is refused an operation that may change the State
before it is sent, and what an operation calls is held to what it was called with. -/

namespace Toa.Call.Safety
open Run

def SAFE : List (String × Bool) :=
  [("transition", false), ("observation", true), ("assignment", false), ("computation", true),
    ("effect", false), ("unmanaged", false)]

def safe (type : String) : Bool := SAFE.lookup type = some true

/-- An operation as its manifest declares it, and so as its contract states it to a caller. Its name
is a token, where an endpoint that begins with `.` is the runtime's own. -/
structure Operation where
  component : String
  endpoint : String
  type : String
  /-- the algorithm answers a generator, whose body runs where it is read -/
  generator : Bool
  token : endpoint.toList.head? ≠ some '.'

structure Request where
  readonly : Option Bool
  task : Option Bool

structure Envelope where
  readonly : Bool
  task : Bool

structure SafetyException where
  message : String

structure Invocation where
  readonly : Bool

/-- `boot.call`: whether what is called is incapable of changing the State. -/
def Operation.readable (operation : Operation) : Bool :=
  operation.endpoint.toList.head? = some '.' ∨ safe operation.type = true

/-- `Call.invoke` -/
def call (target : Operation) (invocation : Option Invocation) (request : Request) :
    Except SafetyException Envelope :=
  let readonly := decide (request.readonly = some true) || invocation.any (·.readonly)
  if readonly && !target.readable then
    .error ⟨"'" ++ target.component ++ "." ++ target.endpoint ++
      "' may change state, and this call may only read"⟩
  else .ok ⟨readonly, request.task = some true⟩

/-- `Component.invoke`: what is put in scope of the operation. -/
def scope (operation : Operation) (readonly : Bool) : Invocation :=
  ⟨readonly || safe operation.type⟩

/-! ## Trees of calls -/

/-- Where the code of an operation runs: in its own scope, or what it yields in its reader's. -/
inductive Code
  | own
  | body (reader : Option ℕ)
deriving DecidableEq

/-- An operation that is run: its scope, and of the call it is run by what was stated and who, if an
operation, made it. -/
structure Served where
  operation : Operation
  invocation : Invocation
  caller : Option ℕ
  stated : Bool

structure Sent where
  target : Operation
  envelope : Envelope
  caller : Option ℕ
  stated : Bool

structure State where
  served : List Served
  sent : List Sent
  refused : List SafetyException

def State.init : State := ⟨[], [], []⟩

def State.current (s : State) (k : Option ℕ) : Option Invocation :=
  k.bind fun k => s.served[k]?.map (·.invocation)

inductive Act
  -- an event, which no call is made by
  | receive (operation : Operation)
  -- a call made by a service, under no invocation
  | enter (target : Operation) (request : Request)
  | call (caller : ℕ) (code : Code) (target : Operation) (request : Request)
  -- what is sent is served in process, by a process it is sent to, or as a task, and maybe again
  | serve (k : ℕ)

def send (s : State) (caller : Option ℕ) (invocation : Option Invocation) (target : Operation)
    (request : Request) : State :=
  match call target invocation request with
  | .ok envelope =>
    { s with sent := s.sent ++ [⟨target, envelope, caller, request.readonly = some true⟩] }
  | .error exception => { s with refused := s.refused ++ [exception] }

def step (s : State) : Act → Option State
  | .receive operation => some
      { s with served := s.served ++ [⟨operation, scope operation false, none, false⟩] }
  | .enter target request => some (send s none none target request)
  | .call caller code target request =>
    match s.served[caller]?, code with
    | none, _ => none
    | some served, .own => some (send s (some caller) (some served.invocation) target request)
    | some served, .body reader =>
      if served.operation.generator = true then
        some (send s (some caller) (s.current reader) target request)
      else none
  | .serve k => s.sent[k]?.map fun sent =>
      { s with served := s.served ++ [⟨sent.target, scope sent.target sent.envelope.readonly,
        sent.caller, sent.stated⟩] }

/-- The call by which an operation is run is readonly: its caller stated so, it was made by an
operation of a safe type, or it is made beneath one that is. -/
inductive State.Readonly (s : State) : ℕ → Prop
  | stated {k : ℕ} {served : Served} : s.served[k]? = some served → served.stated = true →
    s.Readonly k
  | begun {k c : ℕ} {served caller : Served} : s.served[k]? = some served →
    served.caller = some c → s.served[c]? = some caller → safe caller.operation.type = true →
    s.Readonly k
  | beneath {k c : ℕ} {served : Served} : s.served[k]? = some served → served.caller = some c →
    s.Readonly c → s.Readonly k

/-- What an operation yields, where it may only read, is not read where a call of its own may
change the State, or it makes none that would. -/
def Held (s : State) : Act → Prop
  | .call caller (.body reader) target request =>
    (s.current (some caller)).any (·.readonly) = true →
      (s.current reader).any (·.readonly) = true ∨ request.readonly = some true ∨
        safe target.type = true
  | _ => True

instance (s : State) : (a : Act) → Decidable (Held s a)
  | .call _ (.body _) _ _ => inferInstanceAs (Decidable (_ → _))
  | .call _ .own _ _ | .receive _ | .enter _ _ | .serve _ => isTrue trivial

/-! ## A call -/

theorem Operation.readable_iff (operation : Operation) :
    operation.readable = true ↔ safe operation.type = true := by
  simp only [Operation.readable, operation.token, false_or, Bool.decide_eq_true]

theorem call_ok {target : Operation} {invocation : Option Invocation} {request : Request}
    {envelope : Envelope} (h : call target invocation request = .ok envelope)
    (hreadonly : request.readonly = some true ∨ invocation.any (·.readonly) = true) :
    safe target.type = true := by
  have hsaid : (decide (request.readonly = some true) || invocation.any (·.readonly)) = true := by
    simpa only [Bool.or_eq_true, decide_eq_true_eq] using hreadonly
  simp only [call, hsaid, Bool.true_and, Bool.not_eq_true'] at h
  split_ifs at h with hunsafe
  exact target.readable_iff.mp (Bool.not_eq_false _ ▸ hunsafe)

/-! ## What is preserved -/

def State.Begun (s : State) (caller : Option ℕ) (stated : Bool) : Prop :=
  stated = true ∨ ∃ c served, caller = some c ∧ s.served[c]? = some served ∧
    safe served.operation.type = true

structure Upheld (s : State) : Prop where
  sent : ∀ x ∈ s.sent, s.Begun x.caller x.stated → safe x.target.type = true
  served : ∀ x ∈ s.served, s.Begun x.caller x.stated → safe x.operation.type = true
  known : ∀ x ∈ s.sent, ∀ c, x.caller = some c → c < s.served.length
  made : ∀ x ∈ s.served, ∀ c, x.caller = some c → c < s.served.length
  scope : ∀ x ∈ s.served, safe x.operation.type = true → x.invocation.readonly = true

theorem upheld_init : Upheld State.init where
  sent _ h := absurd h List.not_mem_nil
  served _ h := absurd h List.not_mem_nil
  known _ h := absurd h List.not_mem_nil
  made _ h := absurd h List.not_mem_nil
  scope _ h := absurd h List.not_mem_nil

theorem upheld_send {s : State} (h : Upheld s) {caller : Option ℕ} {invocation : Option Invocation}
    {target : Operation} {request : Request} (hcaller : ∀ c, caller = some c → c < s.served.length)
    (hscope : ∀ c served, caller = some c → s.served[c]? = some served →
      safe served.operation.type = true → invocation.any (·.readonly) = true ∨
        request.readonly = some true ∨ safe target.type = true) :
    Upheld (send s caller invocation target request) := by
  unfold send
  split
  · rename_i envelope hcall
    refine { h with sent := ?_, known := ?_ }
    · intro x hx hbegun
      rcases List.mem_append.mp hx with hx | hx
      · exact h.sent x hx hbegun
      · obtain rfl := List.mem_singleton.mp hx
        rcases hbegun with hstated | ⟨c, served, hc, hserved, hsafe⟩
        · exact call_ok hcall (.inl (of_decide_eq_true hstated))
        · rcases hscope c served hc hserved hsafe with hreader | hstated | htarget
          · exact call_ok hcall (.inr hreader)
          · exact call_ok hcall (.inl hstated)
          · exact htarget
    · intro x hx
      rcases List.mem_append.mp hx with hx | hx
      · exact h.known x hx
      · obtain rfl := List.mem_singleton.mp hx
        exact hcaller
  · exact { h with }

theorem Begun.of_append {s : State} {x : Served} {caller : Option ℕ} {stated : Bool}
    (hcaller : ∀ c, caller = some c → c < s.served.length)
    (h : State.Begun { s with served := s.served ++ [x] } caller stated) : s.Begun caller stated := by
  rcases h with hstated | ⟨c, served, hc, hserved, hsafe⟩
  · exact .inl hstated
  · rw [List.getElem?_append_left (hcaller c hc)] at hserved
    exact .inr ⟨c, served, hc, hserved, hsafe⟩

theorem upheld_serve {s : State} (h : Upheld s) {operation : Operation} {readonly stated : Bool}
    {caller : Option ℕ} (hcaller : ∀ c, caller = some c → c < s.served.length)
    (hsafe : s.Begun caller stated → safe operation.type = true) :
    Upheld { s with served := s.served ++ [⟨operation, scope operation readonly, caller, stated⟩] } where
  sent x hx hbegun := h.sent x hx (Begun.of_append (h.known x hx) hbegun)
  served x hx hbegun := by
    rcases List.mem_append.mp hx with hx | hx
    · exact h.served x hx (Begun.of_append (h.made x hx) hbegun)
    · obtain rfl := List.mem_singleton.mp hx
      exact hsafe (Begun.of_append hcaller hbegun)
  known x hx c hc := by
    have hlt := h.known x hx c hc
    simpa only [List.length_append, List.length_singleton] using Nat.lt_succ_of_lt hlt
  made x hx c hc := by
    have hlt : c < s.served.length := by
      rcases List.mem_append.mp hx with hx | hx
      · exact h.made x hx c hc
      · obtain rfl := List.mem_singleton.mp hx
        exact hcaller c hc
    simpa only [List.length_append, List.length_singleton] using Nat.lt_succ_of_lt hlt
  scope x hx hsafe := by
    rcases List.mem_append.mp hx with hx | hx
    · exact h.scope x hx hsafe
    · obtain rfl := List.mem_singleton.mp hx
      simp only [scope, hsafe, Bool.or_true]

theorem upheld_step {s t : State} {a : Act} (h : Upheld s) (hheld : Held s a)
    (hstep : step s a = some t) : Upheld t := by
  cases a with
  | receive operation =>
    obtain rfl := Option.some.inj hstep
    refine upheld_serve h (fun c (hc : none = some c) => nomatch hc) ?_
    rintro (hstated | ⟨c, _, hc, -⟩)
    · exact nomatch hstated
    · exact nomatch hc
  | enter target request =>
    obtain rfl := Option.some.inj hstep
    exact upheld_send h (fun c (hc : none = some c) => nomatch hc)
      fun c _ (hc : none = some c) => nomatch hc
  | call caller code target request =>
    simp only [step] at hstep
    split at hstep
    · exact nomatch hstep
    · rename_i served hserved
      obtain rfl := Option.some.inj hstep
      obtain ⟨hlt, -⟩ := List.getElem?_eq_some_iff.mp hserved
      refine upheld_send h (fun c hc => Option.some.inj hc ▸ hlt) fun c maker hc hmaker hsafe => .inl ?_
      obtain rfl := Option.some.inj hc
      obtain rfl := Option.some.inj (hserved.symm.trans hmaker)
      exact h.scope served (List.mem_of_getElem? hserved) hsafe
    · rename_i served reader hserved
      split at hstep
      · obtain rfl := Option.some.inj hstep
        obtain ⟨hlt, -⟩ := List.getElem?_eq_some_iff.mp hserved
        refine upheld_send h (fun c hc => Option.some.inj hc ▸ hlt) fun c maker hc hmaker hsafe => hheld ?_
        obtain rfl := Option.some.inj hc
        have hreadonly := h.scope maker (List.mem_of_getElem? hmaker) hsafe
        simpa only [State.current, Option.bind_some, hmaker, Option.map_some, Option.any_some]
          using hreadonly
      · exact nomatch hstep
  | serve k =>
    obtain ⟨x, hx, rfl⟩ := Option.map_eq_some_iff.mp hstep
    have hmem := List.mem_of_getElem? hx
    exact upheld_serve h (h.known x hmem) (h.sent x hmem)

/-! ## Runs -/

theorem upheld_run {acts : List Act} {s : State} (hheld : Along step Held State.init acts)
    (hrun : run step State.init acts = some s) : Upheld s :=
  run_invariant (fun _ _ _ h hok hstep => upheld_step h hok hstep) upheld_init hheld hrun

theorem Upheld.readonly {s : State} (h : Upheld s) {k : ℕ} (hreadonly : s.Readonly k) :
    ∀ served, s.served[k]? = some served → safe served.operation.type = true := by
  induction hreadonly with
  | stated hserved hstated =>
    intro served hk
    obtain rfl := Option.some.inj (hserved.symm.trans hk)
    exact h.served _ (List.mem_of_getElem? hk) (.inl hstated)
  | begun hserved hcaller hmade hsafe =>
    intro served hk
    obtain rfl := Option.some.inj (hserved.symm.trans hk)
    exact h.served _ (List.mem_of_getElem? hk) (.inr ⟨_, _, hcaller, hmade, hsafe⟩)
  | @beneath k c served hserved hcaller _ ih =>
    -- what is called readonly is safe, and so begins a chain of its own
    intro served hk
    obtain rfl := Option.some.inj (hserved.symm.trans hk)
    have hlt := h.made _ (List.mem_of_getElem? hk) c hcaller
    have hmade := List.getElem?_eq_getElem hlt
    exact h.served _ (List.mem_of_getElem? hk) (.inr ⟨c, _, hcaller, hmade, ih _ hmade⟩)

/-- Once a call is readonly no operation of an unsafe type is run by it or anywhere beneath it. -/
theorem readonly_upheld {acts : List Act} {s : State} (hheld : Along step Held State.init acts)
    (hrun : run step State.init acts = some s) {k : ℕ} {served : Served}
    (hserved : s.served[k]? = some served) (hreadonly : s.Readonly k) :
    safe served.operation.type = true ∧ served.invocation.readonly = true := by
  have h := upheld_run hheld hrun
  have hsafe := h.readonly hreadonly served hserved
  exact ⟨hsafe, h.scope served (List.mem_of_getElem? hserved) hsafe⟩

def spread : Operation := ⟨"default.source", "spread", "computation", true, by decide⟩

def place : Operation := ⟨"default.orders", "place", "transition", false, by decide⟩

/-- What a computation yields is run where it is read, by what may change the State. -/
theorem body_not_held : ∃ s : State, run step State.init
    [.enter spread ⟨some true, none⟩, .serve 0, .call 0 (.body none) place ⟨none, none⟩, .serve 1] =
      some s ∧ s.Readonly 1 ∧ s.served[1]?.map (·.operation.type) = some "transition" ∧
        safe "transition" = false := by
  refine ⟨_, rfl, ?_, rfl, by decide⟩
  exact .begun (c := 0) rfl rfl rfl (by decide)

def nested : List Act :=
  [.enter spread ⟨some true, none⟩, .serve 0, .call 0 .own spread ⟨some false, some true⟩,
    .call 0 .own place ⟨some false, none⟩, .serve 1, .call 1 (.body (some 0)) place ⟨none, none⟩]

theorem readonly_upheld_nested : ∃ s : State, run step State.init nested = some s ∧
    s.refused.length = 2 ∧
      ∃ served, s.served[1]? = some served ∧ safe served.operation.type = true ∧
        served.invocation.readonly = true := by
  have h {s : State} (hrun : run step State.init nested = some s) {served : Served} :=
    @readonly_upheld nested s (by decide) hrun 1 served
  exact ⟨_, rfl, rfl, _, rfl, h rfl rfl (.begun (c := 0) rfl rfl rfl (by decide))⟩

end Toa.Call.Safety
