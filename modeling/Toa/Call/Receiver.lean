import Toa.Generic.Merge

/-! The request a receiver makes of a message: what the message has beside its own fields is added to it, and
what the receiver says of itself is set after that. -/

namespace Toa.Call.Receiver
open Generic

def TAKEN : List String := ["payload", "telemetry", "id", "trail"]

def extensions (message : List (String × Value)) : List (String × Value) :=
  message.filter fun field => field.1 ∉ TAKEN

def request (message : List (String × Value)) : List (String × Value) :=
  [("input", (Value.object false message).get "payload")]

def stamped (target : Value) (origin : Option Value) (id trail : Value) : Value :=
  assign (assign (assign target "source" origin) "id" (if id.defined then some id else none)) "trail" (some trail)

/-- `receive`, up to the call. -/
def receive (request message : List (String × Value)) (origin : Option Value) (chain : Value → Value) : Outcome :=
  let added := add (.object false request) (.object false (extensions message))
  match added.stop with
  | some _ => added
  | none => ⟨stamped added.target origin ((Value.object false message).get "id")
      (chain ((Value.object false message).get "trail")), none⟩

theorem get_stamped {target id trail : Value} {origin : Option Value} {name : String}
    (h : name ∉ ["source", "id", "trail"]) : (stamped target origin id trail).get name = target.get name := by
  rw [List.mem_cons, List.mem_cons, List.mem_singleton, not_or, not_or] at h
  rw [stamped, get_assign_ne h.2.2, get_assign_ne h.2.1, get_assign_ne h.1]

theorem Keeps.get {target merged : Value} (h : Keeps target merged) (name : String) :
    Keeps (target.get name) (merged.get name) := fun path => h (name :: path)

/-- A message changes nothing of what its request has, such as the input it makes of the payload, but for what
is set after it. -/
theorem receive_keeps {request message : List (String × Value)} {origin : Option Value} {chain : Value → Value}
    {name : String} (h : name ∉ ["source", "id", "trail"]) :
    Keeps ((Value.object false request).get name) ((receive request message origin chain).target.get name) := by
  have hkeeps := Keeps.get (keeps_merge [] (.object false request) (.object false (extensions message))) name
  rw [receive]
  cases hstop : (add (.object false request) (.object false (extensions message))).stop with
  | some stop => exact hkeeps
  | none =>
    simp only
    rw [get_stamped h]
    exact hkeeps

/-- No field of a message is taken for the origin of its request. -/
theorem receive_source {request message : List (String × Value)} {origin : Value} {chain : Value → Value}
    (hstop : (receive request message (some origin) chain).stop = none) :
    (receive request message (some origin) chain).target.get "source" = origin := by
  obtain ⟨own, hown⟩ := keeps_merge [] (.object false request) (.object false (extensions message)) [] rfl
  rw [receive] at hstop ⊢
  cases hadded : (add (.object false request) (.object false (extensions message))).stop with
  | some stop =>
    rw [hadded] at hstop
    cases hadded.symm.trans hstop
  | none =>
    simp only
    rw [stamped, get_assign_ne (by decide), get_assign_ne (by decide)]
    refine (congrArg (fun target => (assign target "source" (some origin)).get "source") hown).trans ?_
    exact (get_set false own "source" "source" origin).trans (if_pos rfl)

end Toa.Call.Receiver
