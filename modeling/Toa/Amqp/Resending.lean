import Mathlib.Algebra.Ring.Nat
import Mathlib.Data.List.Basic
import Mathlib.Data.Nat.Basic
import Mathlib.Tactic.SplitIfs
import Toa.Lib.Run

/-! Ordinary calls to a component whose processes are of different releases: whichever is free takes a call, one
that does not have the operation says so without invoking the component, and the caller sends the call again. -/

set_option linter.unusedSectionVars false

namespace Toa.Amqp
open Run

namespace codes
def Endpoint : ℕ := 402
def Unserved : ℕ := 408
end codes

def RESENDS : ℕ := 11
def RESEND_BASE : ℕ := 100
def RESEND_FACTOR : ℕ := 2

def resending (attempt : ℕ) : Option ℕ :=
  if attempt < RESENDS then some (RESEND_BASE * RESEND_FACTOR ^ attempt) else none

/-- What a process serves, and what of it under its own name only. -/
structure Release where
  endpoints : List String
  stateful : List String

def Release.shared (r : Release) : List String := r.endpoints.filter fun endpoint => endpoint ∉ r.stateful

inductive Reply (ω : Type*)
  | value (value : ω)
  | exception (code : ℕ) (message : String)
deriving DecidableEq

def Reply.isUnserved {ω : Type*} : Reply ω → Bool
  | .exception code _ => code = codes.Unserved
  | .value _ => false

/-- What became of a call at a process that took it. A lost one is delivered to another. -/
inductive Fate (ω : Type*)
  | refused
  | lost
  | returned (reply : Reply ω)
deriving DecidableEq

namespace Fate
variable {ω : Type*}

def unserved : Fate ω → Bool
  | .refused => true
  | .lost => false
  | .returned reply => reply.isUnserved

def again : Fate ω → Bool
  | .refused | .lost => true
  | .returned reply => reply.isUnserved

end Fate

inductive Stage (π ω : Type*)
  | sent
  | running (p : π)
  | answered (reply : Reply ω)
  | pausing (delay : ℕ)
  | done (reply : Reply ω)
deriving DecidableEq

structure Call (π ω : Type*) where
  endpoint : String
  attempt : ℕ
  stage : Stage π ω
  /-- for how long it was not sent, in all -/
  waited : ℕ
  /-- which processes took it, in order -/
  trail : List (π × Fate ω)
deriving DecidableEq

inductive Event (π ω : Type*)
  | take (p : π)
  | returns (reply : Reply ω)
  | lose
  | receive
  | elapse

variable {π ω : Type*} (release : π → Release) (id : String)

def refusal (endpoint : String) : Reply ω :=
  .exception codes.Unserved ("'" ++ endpoint ++ "' is not served by this process of '" ++ id ++ "'")

/-- What the caller is told once nobody serves it as far as can be told. -/
def exhausted (endpoint : String) : Reply ω :=
  .exception codes.Endpoint ("'" ++ endpoint ++ "' is not served by '" ++ id ++ "'")

namespace Call

def start (endpoint : String) : Call π ω := ⟨endpoint, 0, .sent, 0, []⟩

def step (stopping : Bool) (c : Call π ω) : Event π ω → Option (Call π ω)
  | .take p =>
    match c.stage with
    | .sent =>
      if c.endpoint ∈ (release p).shared then some { c with stage := .running p }
      else some { c with stage := .answered (refusal id c.endpoint), trail := c.trail ++ [(p, .refused)] }
    | _ => none
  | .returns reply =>
    match c.stage with
    | .running p => some { c with stage := .answered reply, trail := c.trail ++ [(p, .returned reply)] }
    | _ => none
  | .lose =>
    match c.stage with
    | .running p => some { c with stage := .sent, trail := c.trail ++ [(p, .lost)] }
    | _ => none
  | .receive =>
    match c.stage with
    | .answered reply =>
      if reply.isUnserved then
        match resending c.attempt with
        | some delay =>
          if stopping then some { c with stage := .done (exhausted id c.endpoint) }
          else some { c with stage := .pausing delay }
        | none => some { c with stage := .done (exhausted id c.endpoint) }
      else some { c with stage := .done reply }
    | _ => none
  | .elapse =>
    match c.stage with
    | .pausing delay => some { c with stage := .sent, attempt := c.attempt + 1, waited := c.waited + delay }
    | _ => none

def abort (c : Call π ω) : Call π ω :=
  match c.stage with
  | .pausing _ => { c with stage := .done (exhausted id c.endpoint) }
  | _ => c

end Call

/-- The calls a process makes, and whether it has begun to stop serving. -/
structure Caller (π ω : Type*) where
  calls : List (Call π ω)
  stopping : Bool

inductive Action (π ω : Type*)
  | call (endpoint : String)
  | event (i : ℕ) (e : Event π ω)
  | begin
  | reset

namespace Caller

def init : Caller π ω := ⟨[], false⟩

def step (s : Caller π ω) : Action π ω → Option (Caller π ω)
  | .call endpoint => some { s with calls := s.calls ++ [.start endpoint] }
  | .event i e => do
    let c ← s.calls[i]?
    let next ← c.step release id s.stopping e
    some { s with calls := s.calls.set i next }
  | .begin => some ⟨s.calls.map (Call.abort id), true⟩
  | .reset => some { s with stopping := false }

end Caller

/-! ## What a call was told -/

def waiting (attempt : ℕ) : ℕ := RESEND_BASE * (RESEND_FACTOR ^ attempt - 1)

theorem waiting_succ {attempt delay : ℕ} (h : resending attempt = some delay) :
    waiting attempt + delay = waiting (attempt + 1) := by
  obtain ⟨-, hdelay⟩ := Option.ite_none_right_eq_some.mp h
  obtain rfl := Option.some.inj hdelay
  have hpos : 1 ≤ RESEND_FACTOR ^ attempt := Nat.one_le_two_pow
  dsimp only [waiting]
  rw [Nat.pow_succ, ← Nat.mul_add]
  congr 1
  dsimp only [RESEND_FACTOR] at hpos ⊢
  omega

theorem lt_of_resending {attempt delay : ℕ} (h : resending attempt = some delay) : attempt < RESENDS :=
  (Option.ite_none_right_eq_some.mp h).1

theorem le_of_resending {attempt : ℕ} (h : resending attempt = none) : RESENDS ≤ attempt := by
  unfold resending at h
  split_ifs at h with hlt
  exact Nat.le_of_not_lt hlt

def refusals (trail : List (π × Fate ω)) : ℕ := trail.countP fun x => x.2.unserved

def Unanswered (trail : List (π × Fate ω)) : Prop := ∀ x ∈ trail, x.2.again = true

theorem refusals_concat (trail : List (π × Fate ω)) (p : π) (fate : Fate ω) :
    refusals (trail ++ [(p, fate)]) = refusals trail + if fate.unserved then 1 else 0 := by
  rw [refusals, List.countP_append, List.countP_singleton, refusals]

theorem unanswered_concat {trail : List (π × Fate ω)} {p : π} {fate : Fate ω} :
    Unanswered (trail ++ [(p, fate)]) ↔ Unanswered trail ∧ fate.again = true := by
  simp [Unanswered, or_imp, forall_and]

/-- What the caller is left with, `never` telling that the process did not begin to stop. -/
def Call.Told (never : Prop) (c : Call π ω) (reply : Reply ω) : Prop :=
  (∃ before p, c.trail = before ++ [(p, .returned reply)] ∧ reply.isUnserved = false ∧ Unanswered before) ∨
  (reply = exhausted id c.endpoint ∧ Unanswered c.trail ∧ (never → refusals c.trail = RESENDS + 1))

def Call.Stands (never : Prop) (c : Call π ω) : Stage π ω → Prop
  | .sent => Unanswered c.trail ∧ refusals c.trail = c.attempt
  | .running p => c.endpoint ∈ (release p).shared ∧ Unanswered c.trail ∧ refusals c.trail = c.attempt
  | .answered reply =>
    ∃ before p fate, c.trail = before ++ [(p, fate)] ∧ Unanswered before ∧ refusals before = c.attempt ∧
      (fate = .refused ∧ reply = refusal id c.endpoint ∨ fate = .returned reply)
  | .pausing delay =>
    Unanswered c.trail ∧ refusals c.trail = c.attempt + 1 ∧ resending c.attempt = some delay
  | .done reply => c.Told id never reply

structure Call.Inv (never : Prop) (c : Call π ω) : Prop where
  stands : c.Stands release id never c.stage
  taken : ∀ x ∈ c.trail, x.2 = .refused ↔ c.endpoint ∉ (release x.1).shared
  attempt : c.attempt ≤ RESENDS
  waited : c.waited = waiting c.attempt

variable {release id} {never : Prop}

theorem Call.inv_start (endpoint : String) : Call.Inv release id never (.start endpoint : Call π ω) where
  stands := ⟨fun _ h => absurd h List.not_mem_nil, rfl⟩
  taken _ h := absurd h List.not_mem_nil
  attempt := Nat.zero_le _
  waited := rfl

theorem isUnserved_refusal (endpoint : String) : (refusal id endpoint : Reply ω).isUnserved = true := by
  simp [refusal, Reply.isUnserved]

theorem Call.inv_take {c d : Call π ω} {stopping : Bool} {p : π} (h : c.Inv release id never)
    (hstep : c.step release id stopping (.take p) = some d) : d.Inv release id never := by
  dsimp only [Call.step] at hstep
  split at hstep
  case h_2 => cases hstep
  case h_1 hstage =>
    have hstands := h.stands
    rw [hstage] at hstands
    split_ifs at hstep with hshared <;> cases hstep
    · exact { h with stands := ⟨hshared, hstands⟩ }
    · refine { h with stands := ⟨c.trail, p, .refused, rfl, hstands.1, hstands.2, .inl ⟨rfl, rfl⟩⟩, taken := ?_ }
      intro x hx
      obtain hold | hnew := List.mem_append.mp hx
      · exact h.taken x hold
      · obtain rfl := List.mem_singleton.mp hnew
        exact iff_of_true rfl hshared

theorem Call.taken_served {c : Call π ω} (h : c.Inv release id never) {p : π} {fate : Fate ω}
    (hshared : c.endpoint ∈ (release p).shared) (hfate : fate ≠ .refused) :
    ∀ x ∈ c.trail ++ [(p, fate)], x.2 = .refused ↔ c.endpoint ∉ (release x.1).shared := by
  intro x hx
  obtain hold | hnew := List.mem_append.mp hx
  · exact h.taken x hold
  · obtain rfl := List.mem_singleton.mp hnew
    exact iff_of_false hfate (not_not.mpr hshared)

theorem Call.inv_receive {c d : Call π ω} {stopping : Bool} (h : c.Inv release id never)
    (hstopping : never → stopping = false) (hstep : c.step release id stopping .receive = some d) :
    d.Inv release id never := by
  dsimp only [Call.step] at hstep
  split at hstep
  case h_2 => cases hstep
  case h_1 reply hstage =>
    have hstands := h.stands
    rw [hstage] at hstands
    obtain ⟨before, p, fate, htrail, hbefore, hrefusals, hfate⟩ := hstands
    by_cases hunserved : reply.isUnserved = true
    · rw [if_pos hunserved] at hstep
      -- whether the process refused it or the component answered so, the call was told the same
      have hagain : fate.again = true ∧ fate.unserved = true := by
        obtain ⟨rfl, -⟩ | rfl := hfate
        · exact ⟨rfl, rfl⟩
        · exact ⟨hunserved, hunserved⟩
      have hunanswered : Unanswered c.trail := htrail ▸ unanswered_concat.mpr ⟨hbefore, hagain.1⟩
      have hcount : refusals c.trail = c.attempt + 1 := by
        rw [htrail, refusals_concat, hrefusals, if_pos hagain.2]
      split at hstep
      case h_1 delay hdelay =>
        split_ifs at hstep with hstop <;> cases hstep
        · exact { h with stands := .inr ⟨rfl, hunanswered, fun hnever => by simp [hstopping hnever] at hstop⟩ }
        · exact { h with stands := ⟨hunanswered, hcount, hdelay⟩ }
      case h_2 hnone =>
        cases hstep
        have hall : c.attempt = RESENDS := Nat.le_antisymm h.attempt (le_of_resending hnone)
        exact { h with stands := .inr ⟨rfl, hunanswered, fun _ => hall ▸ hcount⟩ }
    · rw [if_neg hunserved] at hstep
      cases hstep
      obtain ⟨-, rfl⟩ | rfl := hfate
      · exact absurd (isUnserved_refusal c.endpoint) hunserved
      · exact { h with stands := .inl ⟨before, p, htrail, Bool.eq_false_iff.mpr hunserved, hbefore⟩ }

theorem Call.inv_step {c d : Call π ω} {stopping : Bool} {e : Event π ω} (h : c.Inv release id never)
    (hstopping : never → stopping = false) (hstep : c.step release id stopping e = some d) :
    d.Inv release id never := by
  have hstands := h.stands
  cases e with
  | take p => exact inv_take h hstep
  | returns reply =>
    dsimp only [Call.step] at hstep
    split at hstep
    case h_2 => cases hstep
    case h_1 p hstage =>
      cases hstep
      rw [hstage] at hstands
      obtain ⟨hshared, hunanswered, hrefusals⟩ := hstands
      exact { h with
        stands := ⟨c.trail, p, .returned reply, rfl, hunanswered, hrefusals, .inr rfl⟩
        taken := taken_served h hshared (by simp) }
  | lose =>
    dsimp only [Call.step] at hstep
    split at hstep
    case h_2 => cases hstep
    case h_1 p hstage =>
      cases hstep
      rw [hstage] at hstands
      obtain ⟨hshared, hunanswered, hrefusals⟩ := hstands
      refine { h with stands := ⟨unanswered_concat.mpr ⟨hunanswered, rfl⟩, ?_⟩, taken := taken_served h hshared (by simp) }
      rw [refusals_concat]
      exact hrefusals
  | receive => exact inv_receive h hstopping hstep
  | elapse =>
    dsimp only [Call.step] at hstep
    split at hstep
    case h_2 => cases hstep
    case h_1 delay hstage =>
      cases hstep
      rw [hstage] at hstands
      obtain ⟨hunanswered, hrefusals, hdelay⟩ := hstands
      exact ⟨⟨hunanswered, hrefusals⟩, h.taken, lt_of_resending hdelay, h.waited ▸ waiting_succ hdelay⟩

theorem Call.inv_abort {c : Call π ω} (h : c.Inv release id never) (hnever : ¬never) :
    (c.abort id).Inv release id never := by
  unfold Call.abort
  split
  case h_1 delay hstage =>
    have hstands := h.stands
    rw [hstage] at hstands
    exact { h with stands := .inr ⟨rfl, hstands.1, fun hnot => absurd hnot hnever⟩ }
  case h_2 => exact h

structure Caller.Inv (release : π → Release) (id : String) (never : Prop) (s : Caller π ω) : Prop where
  calls : ∀ c ∈ s.calls, c.Inv release id never
  stopping : never → s.stopping = false

theorem Caller.inv_step {s t : Caller π ω} {a : Action π ω} (h : s.Inv release id never)
    (ha : never → a ≠ .begin) (hstep : s.step release id a = some t) : t.Inv release id never := by
  cases a with
  | call endpoint =>
    cases hstep
    refine ⟨fun c hc => ?_, h.stopping⟩
    obtain hold | hnew := List.mem_append.mp hc
    · exact h.calls c hold
    · obtain rfl := List.mem_singleton.mp hnew
      exact Call.inv_start endpoint
  | event i e =>
    obtain ⟨c, hc, hrest⟩ := Option.bind_eq_some_iff.mp hstep
    obtain ⟨next, hnext, ht⟩ := Option.bind_eq_some_iff.mp hrest
    cases ht
    refine ⟨fun d hd => ?_, h.stopping⟩
    obtain hold | rfl := List.mem_or_eq_of_mem_set hd
    · exact h.calls d hold
    · exact Call.inv_step (h.calls c (List.mem_of_getElem? hc)) h.stopping hnext
  | begin =>
    cases hstep
    have hnever : ¬never := fun hnot => ha hnot rfl
    refine ⟨fun d hd => ?_, fun hnot => absurd hnot hnever⟩
    obtain ⟨c, hc, rfl⟩ := List.mem_map.mp hd
    exact Call.inv_abort (h.calls c hc) hnever
  | reset =>
    cases hstep
    exact ⟨h.calls, fun _ => rfl⟩

/-- What a call is told is what the first process answered that had the operation, did not lose the call and did
not answer that it is not served itself; or that nobody serves it, after twelve answers that said so or once the
process of the caller has begun to stop. Only a process that has the operation is asked for it. -/
theorem ordinary_told {as : List (Action π ω)} {s : Caller π ω}
    (h : run (Caller.step release id) .init as = some s) {c : Call π ω} (hc : c ∈ s.calls) :
    c.waited ≤ 204700 ∧ (∀ x ∈ c.trail, x.2 = .refused ↔ c.endpoint ∉ (release x.1).shared) ∧
    ∀ reply, c.stage = .done reply →
      (∃ before p, c.trail = before ++ [(p, .returned reply)] ∧ reply.isUnserved = false ∧ Unanswered before) ∨
      (reply = exhausted id c.endpoint ∧ Unanswered c.trail ∧ (Action.begin ∉ as → refusals c.trail = 12)) := by
  have halong : Along (Caller.step release id) (fun _ a => Action.begin ∉ as → a ≠ .begin) .init as :=
    along_of_mem (fun a ha _ hnot heq => hnot (heq ▸ ha)) _
  have hinv : s.Inv release id (Action.begin ∉ as) :=
    run_invariant (fun s a t hs ha hstep => Caller.inv_step hs ha hstep)
      ⟨fun c hc => absurd hc List.not_mem_nil, fun _ => rfl⟩ halong h
  have hcall := hinv.calls c hc
  refine ⟨?_, hcall.taken, fun reply hdone => ?_⟩
  · rw [hcall.waited]
    refine (Nat.mul_le_mul_left RESEND_BASE (Nat.sub_le_sub_right ?_ 1) : _ ≤ RESEND_BASE * (2 ^ 11 - 1))
    exact Nat.pow_le_pow_right (by decide) hcall.attempt
  · have hstands := hcall.stands
    rw [hdone] at hstands
    exact hstands

/-! ### A release that adds an operation comes up -/

def replacing : ℕ → Release
  | 0 => ⟨["observe"], []⟩
  | _ => ⟨["observe", "refund"], []⟩

def refund : List (Action ℕ ℕ) :=
  [.call "refund", .event 0 (.take 0), .event 0 .receive, .event 0 .elapse, .event 0 (.take 1), .event 0 .lose,
    .event 0 (.take 0), .event 0 .receive, .event 0 .elapse, .event 0 (.take 1), .event 0 (.returns (.value 7)),
    .event 0 .receive]

def refunded : Call ℕ ℕ :=
  ⟨"refund", 2, .done (.value 7), 300, [(0, .refused), (1, .lost), (0, .refused), (1, .returned (.value 7))]⟩

theorem ordinary_told_refund : ∃ s, run (Caller.step replacing "shop.orders") .init refund = some s ∧
    s.calls = [refunded] ∧ ((∃ before p, refunded.trail = before ++ [(p, .returned (.value 7))] ∧
        (Reply.value 7).isUnserved = false ∧ Unanswered before) ∨
      (Reply.value 7 = exhausted "shop.orders" refunded.endpoint ∧ Unanswered refunded.trail ∧
        (Action.begin ∉ refund → refusals refunded.trail = 12))) := by
  refine ⟨⟨[refunded], false⟩, rfl, rfl, ?_⟩
  exact (@ordinary_told _ _ replacing "shop.orders" refund ⟨[refunded], false⟩ rfl refunded
    (List.mem_singleton_self _)).2.2 _ rfl

end Toa.Amqp
