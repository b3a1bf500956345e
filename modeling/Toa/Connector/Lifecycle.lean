import Toa.Lib.Run
import Toa.Connector.Graph

/-! Connectors that are connected and disconnected. What the source does at once within one call is
steps of their own here, in any order: a connection calls its dependencies one by one, and so does
the walk of a disconnection. -/

set_option linter.unusedSectionVars false

namespace Toa.Connector
open Run

variable {ν : Type*} [DecidableEq ν]

/-- `connecting` is the connection in hand, and `closing` is that `close` was called. -/
structure Node where
  connected : Bool
  connecting : Option ℕ
  disconnecting : Bool
  closing : Bool

inductive Phase
  | waiting
  | opening
  | landed
  deriving DecidableEq

/-- A call of `connect` that found no connection in hand: the dependencies it is yet to call, the
connections it waits for, and how far it is. -/
structure Connection (ν : Type*) where
  connector : ν
  calls : List ν
  waits : List ℕ
  phase : Phase

/-- `calls` is the disconnections that wait for the connection in hand, and `walks` the connectors
a disconnection is yet to call. -/
structure State (ν : Type*) where
  nodes : ν → Node
  connections : List (Connection ν)
  calls : List ν
  walks : List ν

namespace State

def init : State ν := ⟨fun _ => ⟨false, none, false, false⟩, [], [], []⟩

def place (s : State ν) (c : ν) (node : Node) : State ν :=
  { s with nodes := Function.update s.nodes c node }

end State

/-- What `connect` answers: the connection in hand, or one that begins. -/
def connect (g : Graph ν) (s : State ν) (c : ν) : State ν × ℕ :=
  match (s.nodes c).connecting with
  | some e => (s, e)
  | none =>
    let e := s.connections.length
    let node := { s.nodes c with connecting := some e, disconnecting := false }
    ({ s.place c node with
      connections := s.connections ++ [⟨c, g.dependencies c, [], .waiting⟩] }, e)

def release (g : Graph ν) (s : State ν) (c : ν) (node : Node) : State ν :=
  { s.place c { node with connected := false, connecting := none } with
    walks := s.walks ++ g.dependencies c }

/-- `disconnect`, past the connection it waits for. One that was not connected is `pending`: it has
nothing to close. -/
def take (g : Graph ν) (s : State ν) (c : ν) (pending : Bool) : State ν :=
  if (s.nodes c).disconnecting = true then s
  else if (g.links c).any (fun p => (s.nodes p).connected) = true then s
  else if pending = true then release g s c { s.nodes c with disconnecting := true }
  else s.place c { s.nodes c with disconnecting := true, closing := true }

def disconnect (g : Graph ν) (s : State ν) (c : ν) : State ν :=
  if (s.nodes c).connected = true then { s with calls := s.calls ++ [c] } else take g s c true

inductive Act (ν : Type*)
  | connect (c : ν)
  | call (e : ℕ)
  | opens (e : ℕ)
  | land (e : ℕ)
  | disconnect (c : ν)
  | resume (i : ℕ)
  | closed (c : ν)
  | walk (i : ℕ)

def landed (s : State ν) (e : ℕ) : Bool := s.connections[e]?.any (·.phase = .landed)

def step (g : Graph ν) (s : State ν) : Act ν → Option (State ν)
  | .connect c => some (connect g s c).1
  | .call e =>
    match s.connections[e]? with
    | some ⟨p, d :: calls, waits, .waiting⟩ =>
      let (s, e') := connect g s d
      some { s with connections := s.connections.set e ⟨p, calls, waits ++ [e'], .waiting⟩ }
    | _ => none
  | .opens e =>
    match s.connections[e]? with
    | some ⟨p, [], waits, .waiting⟩ =>
      if waits.all (landed s) = true then
        some { s with connections := s.connections.set e ⟨p, [], waits, .opening⟩ }
      else none
    | _ => none
  | .land e =>
    match s.connections[e]? with
    | some ⟨p, calls, waits, .opening⟩ =>
      let s := { s with connections := s.connections.set e ⟨p, calls, waits, .landed⟩ }
      -- a disconnection that did not wait for this connection emptied `connecting`
      if (s.nodes p).connecting = some e then some (s.place p { s.nodes p with connected := true })
      else some s
    | _ => none
  | .disconnect c => some (disconnect g s c)
  | .resume i => s.calls[i]?.map fun c => take g { s with calls := s.calls.eraseIdx i } c false
  | .closed c =>
    if (s.nodes c).closing = true then some (release g s c { s.nodes c with closing := false })
    else none
  | .walk i => s.walks[i]?.map fun c => disconnect g { s with walks := s.walks.eraseIdx i } c

/-! ## What a connection relies on -/

theorem place_self (s : State ν) (c : ν) (node : Node) : (s.place c node).nodes c = node :=
  Function.update_self c _ s.nodes

theorem place_of_ne (s : State ν) {c d : ν} (h : d ≠ c) (node : Node) :
    (s.place c node).nodes d = s.nodes d := Function.update_of_ne h _ s.nodes

/-- A dependency that a connection has called: its own connection is in hand and is waited for, and
where that is over, it is connected. -/
structure Held (nodes : ν → Node) (x : Connection ν) (c : ν) : Prop where
  connecting : ∃ e ∈ x.waits, (nodes c).connecting = some e
  closing : (nodes c).closing = false
  connected : x.phase ≠ .waiting → (nodes c).connected = true

structure Current (g : Graph ν) (nodes : ν → Node) (p : ν) (x : Connection ν) : Prop where
  connector : x.connector = p
  connected : (nodes p).connected = true ↔ x.phase = .landed
  calls : x.phase ≠ .waiting → x.calls = []
  held : ∀ c ∈ g.dependencies p, c ∈ x.calls ∨ Held nodes x c

structure Inv (g : Graph ν) (s : State ν) : Prop where
  current : ∀ p e, (s.nodes p).connecting = some e →
    ∃ x, s.connections[e]? = some x ∧ Current g s.nodes p x
  idle : ∀ p, (s.nodes p).connecting = none → (s.nodes p).connected = false
  closing : ∀ c, (s.nodes c).closing = true →
    (s.nodes c).disconnecting = true ∧ (s.nodes c).connecting ≠ none
  calls : ∀ c ∈ s.calls, (s.nodes c).disconnecting = true ∨ (s.nodes c).connecting ≠ none

theorem Inv.init (g : Graph ν) : Inv g State.init where
  current := fun _ _ h => nomatch h
  idle := fun _ _ => rfl
  closing := fun _ h => nomatch h
  calls := fun _ h => nomatch h

theorem Current.append {g : Graph ν} {s : State ν} {p : ν} {x : Connection ν}
    (h : Current g s.nodes p x) {c : ν} (hnone : (s.nodes c).connecting = none) (hp : p ≠ c)
    {node : Node} : Current g (s.place c node).nodes p x := by
  refine ⟨h.connector, ?_, h.calls, fun d hd => (h.held d hd).imp_right fun hheld => ?_⟩
  · rw [place_of_ne s hp]
    exact h.connected
  · have hdc : d ≠ c := fun hdc => by
      obtain ⟨e, -, he⟩ := hheld.connecting
      rw [hdc, hnone] at he
      exact nomatch he
    refine ⟨?_, ?_, ?_⟩
    · rw [place_of_ne s hdc]
      exact hheld.connecting
    · rw [place_of_ne s hdc]
      exact hheld.closing
    · rw [place_of_ne s hdc]
      exact hheld.connected

theorem inv_connect {g : Graph ν} {s : State ν} (h : Inv g s) (c : ν) :
    Inv g (connect g s c).1 ∧
      ((connect g s c).1.nodes c).connecting = some (connect g s c).2 ∧
      (∀ (e : ℕ) x, s.connections[e]? = some x → (connect g s c).1.connections[e]? = some x) ∧
      ((s.nodes c).closing = false → ((connect g s c).1.nodes c).closing = false) := by
  cases hc : (s.nodes c).connecting with
  | some e =>
    have heq : connect g s c = (s, e) := by rw [connect, hc]
    rw [heq]
    exact ⟨h, hc, fun _ _ hx => hx, id⟩
  | none =>
    let node := { s.nodes c with connecting := some s.connections.length, disconnecting := false }
    let connections := s.connections ++ [⟨c, g.dependencies c, [], .waiting⟩]
    have heq : connect g s c =
        ({ s.place c node with connections := connections }, s.connections.length) := by
      rw [connect, hc]
    have hold {e : ℕ} {x : Connection ν} (hx : s.connections[e]? = some x) :
        connections[e]? = some x := by
      have hlt := (List.getElem?_eq_some_iff.mp hx).1
      exact (List.getElem?_append_left hlt).trans hx
    have hclosing : (s.nodes c).closing = false := by
      refine Bool.eq_false_iff.mpr fun hclosing => ?_
      exact (h.closing c hclosing).2 hc
    rw [heq]
    refine ⟨⟨fun p e hp => ?_, fun p hp => ?_, fun p hp => ?_, fun p hp => ?_⟩, ?_,
      fun e x hx => hold hx, fun _ => ?_⟩
    · by_cases hpc : p = c
      · subst hpc
        rw [place_self] at hp
        obtain rfl := Option.some.inj hp
        refine ⟨⟨p, g.dependencies p, [], .waiting⟩, List.getElem?_concat_length, rfl, ?_, nofun,
          fun d hd => .inl hd⟩
        rw [place_self]
        exact ⟨fun hconnected => absurd (h.idle p hc) (hconnected ▸ nofun), nofun⟩
      · rw [place_of_ne s hpc] at hp
        obtain ⟨x, hx, hcurrent⟩ := h.current p e hp
        exact ⟨x, hold hx, hcurrent.append hc hpc⟩
    · by_cases hpc : p = c
      · subst hpc
        rw [place_self] at hp
        exact nomatch hp
      · rw [place_of_ne s hpc] at hp ⊢
        exact h.idle p hp
    · by_cases hpc : p = c
      · subst hpc
        rw [place_self] at hp
        exact absurd hp (hclosing ▸ nofun)
      · rw [place_of_ne s hpc] at hp ⊢
        exact h.closing p hp
    · by_cases hpc : p = c
      · subst hpc
        rw [place_self]
        exact .inr nofun
      · rw [place_of_ne s hpc]
        exact h.calls p hp
    · rw [place_self]
    · rw [place_self]
      exact hclosing

theorem inv_set {g : Graph ν} {s : State ν} (h : Inv g s) {e : ℕ} {x y : Connection ν}
    (hx : s.connections[e]? = some x)
    (hy : ∀ p, (s.nodes p).connecting = some e → Current g s.nodes p x → Current g s.nodes p y) :
    Inv g { s with connections := s.connections.set e y } := by
  refine { h with current := fun p e' hp => ?_ }
  obtain ⟨x', hx', hcurrent⟩ := h.current p e' hp
  by_cases he : e = e'
  · subst he
    obtain rfl := Option.some.inj (hx.symm.trans hx')
    have hlt := (List.getElem?_eq_some_iff.mp hx).1
    have hset : (s.connections.set e y)[e]? = some y := List.getElem?_set_self hlt
    exact ⟨y, hset, hy p hp hcurrent⟩
  · have hset : (s.connections.set e y)[e']? = some x' := (List.getElem?_set_ne he).trans hx'
    exact ⟨x', hset, hcurrent⟩

theorem inv_call {g : Graph ν} {s : State ν} (h : Inv g s) {e : ℕ} {p d : ν} {calls : List ν}
    {waits : List ℕ} (hx : s.connections[e]? = some ⟨p, d :: calls, waits, .waiting⟩)
    (hclosing : (s.nodes d).closing = false) :
    let (t, e') := connect g s d
    Inv g { t with connections := t.connections.set e ⟨p, calls, waits ++ [e'], .waiting⟩ } := by
  obtain ⟨hinv, hconnecting, hkept, hopen⟩ := inv_connect h d
  refine inv_set hinv (hkept e _ hx) fun q _ hcurrent => ?_
  refine ⟨hcurrent.connector, hcurrent.connected, fun hphase => absurd rfl hphase, fun c hc => ?_⟩
  have hlast : (connect g s d).2 ∈ waits ++ [(connect g s d).2] :=
    List.mem_append_right _ (List.mem_singleton_self _)
  rcases hcurrent.held c hc with hcalls | hheld
  · rcases List.mem_cons.mp hcalls with rfl | hcalls
    · exact .inr ⟨⟨_, hlast, hconnecting⟩, hopen hclosing, fun hphase => absurd rfl hphase⟩
    · exact .inl hcalls
  · obtain ⟨e', he', hwait⟩ := hheld.connecting
    exact .inr ⟨⟨e', List.mem_append_left _ he', hwait⟩, hheld.closing, hheld.connected⟩

theorem inv_opens {g : Graph ν} {s : State ν} (h : Inv g s) {e : ℕ} {p : ν} {waits : List ℕ}
    (hx : s.connections[e]? = some ⟨p, [], waits, .waiting⟩)
    (hwaits : waits.all (landed s) = true) :
    Inv g { s with connections := s.connections.set e ⟨p, [], waits, .opening⟩ } := by
  refine inv_set h hx fun q _ hcurrent => ⟨hcurrent.connector, ?_, fun _ => rfl, fun c hc => ?_⟩
  · exact ⟨fun hconnected => absurd (hcurrent.connected.mp hconnected) nofun, nofun⟩
  · have hheld := (hcurrent.held c hc).resolve_left List.not_mem_nil
    refine .inr ⟨hheld.connecting, hheld.closing, fun _ => ?_⟩
    obtain ⟨e', he', hwait⟩ := hheld.connecting
    obtain ⟨x, hx', hc'⟩ := h.current c e' hwait
    have hlanded := List.all_eq_true.mp hwaits e' he'
    rw [landed, hx'] at hlanded
    exact hc'.connected.mpr (of_decide_eq_true hlanded)

theorem Held.connected_place {s : State ν} {x : Connection ν} {c p : ν} (h : Held s.nodes x c) :
    Held (s.place p { s.nodes p with connected := true }).nodes x c := by
  by_cases hc : c = p
  · subst hc
    refine ⟨?_, ?_, fun _ => ?_⟩
    · rw [place_self]; exact h.connecting
    · rw [place_self]; exact h.closing
    · rw [place_self]
  · refine ⟨?_, ?_, ?_⟩
    · rw [place_of_ne s hc]; exact h.connecting
    · rw [place_of_ne s hc]; exact h.closing
    · rw [place_of_ne s hc]; exact h.connected

theorem inv_land {g : Graph ν} {s : State ν} (h : Inv g s) {e : ℕ} {p : ν} {calls : List ν}
    {waits : List ℕ} (hx : s.connections[e]? = some ⟨p, calls, waits, .opening⟩)
    (hp : (s.nodes p).connecting = some e) :
    Inv g { s.place p { s.nodes p with connected := true } with
      connections := s.connections.set e ⟨p, calls, waits, .landed⟩ } := by
  obtain ⟨x, hx', hcurrent⟩ := h.current p e hp
  obtain rfl := Option.some.inj (hx.symm.trans hx')
  refine ⟨fun q e' hq => ?_, fun q hq => ?_, fun q hq => ?_, fun q hq => ?_⟩
  · by_cases hqp : q = p
    · subst hqp
      rw [place_self] at hq
      obtain rfl := Option.some.inj (hp.symm.trans hq)
      have hlt := (List.getElem?_eq_some_iff.mp hx).1
      refine ⟨_, List.getElem?_set_self hlt, rfl, ?_, fun _ => hcurrent.calls nofun, fun c hc => ?_⟩
      · rw [place_self]
        exact ⟨fun _ => rfl, fun _ => rfl⟩
      · refine (hcurrent.held c hc).imp_right fun hheld => ?_
        have hmore := hheld.connected_place (p := q)
        exact ⟨hmore.connecting, hmore.closing, fun _ => hmore.connected nofun⟩
    · rw [place_of_ne s hqp] at hq
      obtain ⟨x, hxq, hother⟩ := h.current q e' hq
      have he : e ≠ e' := fun he => by
        subst he
        obtain rfl := Option.some.inj (hx.symm.trans hxq)
        exact hqp hother.connector.symm
      refine ⟨x, (List.getElem?_set_ne he).trans hxq, hother.connector, ?_, hother.calls,
        fun c hc => (hother.held c hc).imp_right Held.connected_place⟩
      rw [place_of_ne s hqp]
      exact hother.connected
  · by_cases hqp : q = p
    · subst hqp
      rw [place_self] at hq
      exact nomatch hp.symm.trans hq
    · rw [place_of_ne s hqp] at hq ⊢
      exact h.idle q hq
  · by_cases hqp : q = p
    · subst hqp
      rw [place_self] at hq ⊢
      exact h.closing q hq
    · rw [place_of_ne s hqp] at hq ⊢
      exact h.closing q hq
  · by_cases hqp : q = p
    · subst hqp
      rw [place_self]
      exact h.calls q hq
    · rw [place_of_ne s hqp]
      exact h.calls q hq

/-! ## Disconnection -/

theorem inv_place {g : Graph ν} {s : State ν} (h : Inv g s) {c : ν} (node : Node)
    (hfree : ∀ p x, (s.nodes p).connecting ≠ none → c ∈ g.dependencies p → ¬ Held s.nodes x c)
    (hself : ∀ e, node.connecting = some e → (s.nodes c).connecting = some e ∧
      node.connected = (s.nodes c).connected)
    (hidle : node.connecting = none → node.connected = false)
    (hclosing : node.closing = true → node.disconnecting = true ∧ node.connecting ≠ none)
    (hdisconnecting : node.disconnecting = true) {walks : List ν} :
    Inv g { s.place c node with walks := walks } := by
  have hheld {p : ν} {x : Connection ν} {e : ℕ} (hp : (s.nodes p).connecting = some e) {d : ν}
      (hd : d ∈ g.dependencies p) (hheld : Held s.nodes x d) :
      Held (s.place c node).nodes x d := by
    have hdc : d ≠ c := fun hdc => by
      subst hdc
      exact hfree p x (hp ▸ nofun) hd hheld
    refine ⟨?_, ?_, ?_⟩
    · rw [place_of_ne s hdc]; exact hheld.connecting
    · rw [place_of_ne s hdc]; exact hheld.closing
    · rw [place_of_ne s hdc]; exact hheld.connected
  refine ⟨fun p e hp => ?_, fun p hp => ?_, fun p hp => ?_, fun p hp => ?_⟩
  all_goals by_cases hpc : p = c
  · subst hpc
    rw [place_self] at hp
    obtain ⟨hold, hconnected⟩ := hself e hp
    obtain ⟨x, hx, hcurrent⟩ := h.current p e hold
    refine ⟨x, hx, hcurrent.connector, ?_, hcurrent.calls,
      fun d hd => (hcurrent.held d hd).imp_right (hheld hold hd)⟩
    rw [place_self, hconnected]
    exact hcurrent.connected
  · rw [place_of_ne s hpc] at hp
    obtain ⟨x, hx, hcurrent⟩ := h.current p e hp
    refine ⟨x, hx, hcurrent.connector, ?_, hcurrent.calls,
      fun d hd => (hcurrent.held d hd).imp_right (hheld hp hd)⟩
    rw [place_of_ne s hpc]
    exact hcurrent.connected
  · subst hpc
    rw [place_self] at hp ⊢
    exact hidle hp
  · rw [place_of_ne s hpc] at hp ⊢
    exact h.idle p hp
  · subst hpc
    rw [place_self] at hp ⊢
    exact hclosing hp
  · rw [place_of_ne s hpc] at hp ⊢
    exact h.closing p hp
  · subst hpc
    rw [place_self]
    exact .inl hdisconnecting
  · rw [place_of_ne s hpc]
    exact h.calls p hp

theorem inv_release {g : Graph ν} {s : State ν} (h : Inv g s) {c : ν} (node : Node)
    (hfree : ∀ p x, (s.nodes p).connecting ≠ none → c ∈ g.dependencies p → ¬ Held s.nodes x c)
    (hopen : node.closing = false) (hdisconnecting : node.disconnecting = true) :
    Inv g (release g s c node) :=
  inv_place h { node with connected := false, connecting := none } hfree (fun _ he => nomatch he)
    (fun _ => rfl) (fun hclosing => nomatch hopen.symm.trans hclosing) hdisconnecting

/-- Where `disconnect` of a connector goes on, no dependant of it is connecting. -/
def Unused (g : Graph ν) (s : State ν) (c : ν) : Prop :=
  (s.nodes c).disconnecting = false → (∀ p ∈ g.links c, (s.nodes p).connected = false) →
    ∀ p ∈ g.links c, (s.nodes p).connecting = none

instance (g : Graph ν) (s : State ν) (c : ν) : Decidable (Unused g s c) :=
  inferInstanceAs (Decidable (_ → _ → _))

theorem inv_take {g : Graph ν} (hlinked : g.Linked) {s : State ν} (h : Inv g s) {c : ν}
    (hunused : Unused g s c) {pending : Bool} (hpending : pending = false →
      (s.nodes c).disconnecting = true ∨ (s.nodes c).connecting ≠ none) :
    Inv g (take g s c pending) := by
  unfold take
  split_ifs with hdisconnecting hlinks hpend
  · exact h
  · exact h
  all_goals
    have hnot : (s.nodes c).disconnecting = false := Bool.eq_false_iff.mpr hdisconnecting
    have hunlinked : ∀ p ∈ g.links c, (s.nodes p).connected = false := fun p hp =>
      Bool.eq_false_iff.mpr fun hconnected => hlinks (List.any_eq_true.mpr ⟨p, hp, hconnected⟩)
    have hfree (p : ν) (x : Connection ν) (hp : (s.nodes p).connecting ≠ none)
        (hc : c ∈ g.dependencies p) : ¬ Held s.nodes x c :=
      fun _ => hp (hunused hnot hunlinked p (hlinked p c hc))
    have hopen : (s.nodes c).closing = false := Bool.eq_false_iff.mpr fun hclosing =>
      hdisconnecting (h.closing c hclosing).1
  · exact inv_release h { s.nodes c with disconnecting := true } hfree hopen rfl
  · refine inv_place h { s.nodes c with disconnecting := true, closing := true } hfree
      (fun e he => ⟨he, rfl⟩) (h.idle c) (fun _ => ⟨rfl, ?_⟩) rfl
    exact (hpending (Bool.eq_false_iff.mpr hpend)).resolve_left hdisconnecting

theorem inv_disconnect {g : Graph ν} (hlinked : g.Linked) {s : State ν} (h : Inv g s) {c : ν}
    (hunused : (s.nodes c).connected = false → Unused g s c) : Inv g (disconnect g s c) := by
  unfold disconnect
  split_ifs with hconnected
  · refine { h with calls := fun d hd => ?_ }
    rcases List.mem_append.mp hd with hd | hd
    · exact h.calls d hd
    · obtain rfl := List.mem_singleton.mp hd
      exact .inr fun hnone => nomatch (h.idle d hnone).symm.trans hconnected
  · exact inv_take hlinked h (hunused (Bool.eq_false_iff.mpr hconnected)) nofun

theorem inv_closed {g : Graph ν} {s : State ν} (h : Inv g s) {c : ν}
    (hclosing : (s.nodes c).closing = true) :
    Inv g (release g s c { s.nodes c with closing := false }) := by
  have hfree (p : ν) (x : Connection ν) (_ : (s.nodes p).connecting ≠ none)
      (_ : c ∈ g.dependencies p) : ¬ Held s.nodes x c :=
    fun hheld => nomatch hheld.closing.symm.trans hclosing
  exact inv_release h { s.nodes c with closing := false } hfree rfl (h.closing c hclosing).1

/-! ## Over a run -/

/-- No connector is taken down while a dependant of it is connecting, and none is called by one
while it is closing. -/
def Orderly (g : Graph ν) (s : State ν) : Act ν → Prop
  | .call e => ∀ x ∈ s.connections[e]?, ∀ d ∈ x.calls.head?, (s.nodes d).closing = false
  | .disconnect c => (s.nodes c).connected = false → Unused g s c
  | .walk i => ∀ c ∈ s.walks[i]?, (s.nodes c).connected = false → Unused g s c
  | .resume i => ∀ c ∈ s.calls[i]?, Unused g s c
  | _ => True

instance (g : Graph ν) (s : State ν) (a : Act ν) : Decidable (Orderly g s a) :=
  match a with
  | .call e => inferInstanceAs (Decidable (∀ x ∈ s.connections[e]?, _))
  | .disconnect c => inferInstanceAs (Decidable ((s.nodes c).connected = false → Unused g s c))
  | .walk i =>
    inferInstanceAs (Decidable (∀ c ∈ s.walks[i]?, (s.nodes c).connected = false → Unused g s c))
  | .resume i => inferInstanceAs (Decidable (∀ c ∈ s.calls[i]?, Unused g s c))
  | .connect _ | .opens _ | .land _ | .closed _ => isTrue trivial

theorem inv_step {g : Graph ν} (hlinked : g.Linked) {s t : State ν} {a : Act ν} (h : Inv g s)
    (hok : Orderly g s a) (ht : step g s a = some t) : Inv g t := by
  cases a with
  | connect c => exact Option.some.inj ht ▸ (inv_connect h c).1
  | call e =>
    simp only [step] at ht
    split at ht
    · rename_i p d calls waits hx
      exact Option.some.inj ht ▸ inv_call h hx (hok _ hx d rfl)
    · exact nomatch ht
  | opens e =>
    simp only [step] at ht
    split at ht
    · rename_i p waits hx
      split_ifs at ht with hwaits
      exact Option.some.inj ht ▸ inv_opens h hx hwaits
    · exact nomatch ht
  | land e =>
    simp only [step] at ht
    split at ht
    · rename_i p calls waits hx
      split_ifs at ht with hp
      · exact Option.some.inj ht ▸ inv_land h hx hp
      · refine Option.some.inj ht ▸ inv_set h hx fun q hq hcurrent => ?_
        obtain rfl : p = q := hcurrent.connector
        exact absurd hq hp
    · exact nomatch ht
  | disconnect c => exact Option.some.inj ht ▸ inv_disconnect hlinked h hok
  | resume i =>
    obtain ⟨c, hc, rfl⟩ := Option.map_eq_some_iff.mp ht
    have hcalls : c ∈ s.calls := List.mem_of_getElem? hc
    have hrest : Inv g { s with calls := s.calls.eraseIdx i } :=
      { h with calls := fun d hd => h.calls d ((List.eraseIdx_sublist ..).subset hd) }
    exact inv_take hlinked hrest (hok c hc) fun _ => h.calls c hcalls
  | closed c =>
    simp only [step, Option.ite_none_right_eq_some, Option.some.injEq] at ht
    obtain ⟨hclosing, rfl⟩ := ht
    exact inv_closed h hclosing
  | walk i =>
    obtain ⟨c, hc, rfl⟩ := Option.map_eq_some_iff.mp ht
    have hrest : Inv g { s with walks := s.walks.eraseIdx i } := { h with }
    exact inv_disconnect hlinked hrest (hok c hc)

/-- What a connected connector depends on is connected, and is not closing. -/
def Upheld (g : Graph ν) (s : State ν) : Prop :=
  ∀ p, ∀ c ∈ g.dependencies p, (s.nodes p).connected = true →
    (s.nodes c).connected = true ∧ (s.nodes c).closing = false

theorem Inv.upheld {g : Graph ν} {s : State ν} (h : Inv g s) : Upheld g s := by
  intro p c hc hp
  cases hconnecting : (s.nodes p).connecting with
  | none => exact nomatch (h.idle p hconnecting).symm.trans hp
  | some e =>
    obtain ⟨x, -, hcurrent⟩ := h.current p e hconnecting
    have hphase : x.phase ≠ .waiting := by rw [hcurrent.connected.mp hp]; nofun
    have hheld := (hcurrent.held c hc).resolve_left (hcurrent.calls hphase ▸ List.not_mem_nil)
    exact ⟨hheld.connected hphase, hheld.closing⟩

/-- Connectors that each declare one at a time, whose connections and disconnections do not cross. -/
theorem connected_upheld {ds : List (Declaration ν)} (hsingle : ∀ d ∈ ds, d.Single) {g : Graph ν}
    (hbuild : Graph.build ds = some g) {acts : List (Act ν)} {s : State ν}
    (hok : Along (step g) (Orderly g) .init acts) (hrun : run (step g) .init acts = some s) :
    Upheld g s :=
  (run_invariant (fun _ _ _ hs ha ht => inv_step (Graph.linked_build hsingle hbuild) hs ha ht)
    (Inv.init g) hok hrun).upheld

/-! ## A dependency that is shared -/

def shared : List (Declaration ℕ) := [.single 0 2, .single 1 2]

def sharedGraph : Graph ℕ := (Graph.empty.one 0 2).one 1 2

def first : List (Act ℕ) := [.connect 1, .call 0, .opens 1, .land 1, .opens 0, .land 0]

/-- 1 is disconnected, and takes down 2 under 0, whose connection lands. -/
theorem closed_under_connecting : ∃ s, Graph.build shared = some sharedGraph ∧
    run (step sharedGraph) .init (first ++ [.connect 0, .call 2, .opens 2, .disconnect 1, .resume 0,
      .closed 1, .walk 0, .resume 0, .closed 2, .land 2]) = some s ∧ ¬ Upheld sharedGraph s := by
  refine ⟨_, rfl, rfl, fun h => ?_⟩
  exact nomatch (h 0 2 (List.mem_singleton_self _) rfl).1

def second : List (Act ℕ) := first ++ [.connect 0, .call 2, .opens 2, .land 2, .disconnect 1,
  .resume 0, .closed 1, .walk 0, .resume 0]

theorem connected_upheld_shared :
    ∃ s, run (step sharedGraph) .init second = some s ∧ Upheld sharedGraph s := by
  have hsingle : ∀ d ∈ shared, d.Single := fun d hd => by
    rcases List.mem_cons.mp hd with rfl | hd
    · trivial
    · exact List.mem_singleton.mp hd ▸ trivial
  have hbuild : Graph.build shared = some sharedGraph := rfl
  have hok : Along (step sharedGraph) (Orderly sharedGraph) .init second := by decide
  have h {s : State ℕ} (hrun : run (step sharedGraph) .init second = some s) :=
    connected_upheld hsingle hbuild hok hrun
  exact ⟨_, rfl, h rfl⟩

end Toa.Connector
