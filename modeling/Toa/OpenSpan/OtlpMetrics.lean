import Mathlib.Data.List.Range
import Toa.Lib.Run
import Toa.OpenSpan.Collection

/-! The exporter of collections: one is posted while the last of those that came meanwhile waits to be. A
run of `send` is between where it awaits the endpoint and where its promise is settled, and what a call of
`flush` awaits is that promise. -/

namespace Toa.OpenSpan
variable {N : Type*}

/-! ## The endpoint -/

/-- What becomes of a request. One that fails may have gone out on a connection that had served another,
and that the endpoint had closed. -/
inductive Attempt
  | answered (status : ℕ)
  | failed (closed : Bool)
deriving DecidableEq

def Attempt.accepted : Attempt → Bool
  | .answered status => 200 ≤ status ∧ status < 300
  | .failed _ => false

/-- What is kept of an endpoint between requests, with what is written to the console. -/
structure Transport where
  subject : String
  timeout : ℕ
  cooldown : ℕ
  suspendedUntil : ℕ := 0
  reported : Bool := false
  written : List String := []
deriving DecidableEq

namespace Transport

def suspended (transport : Transport) (now : ℕ) : Bool := now < transport.suspendedUntil

def suspend (transport : Transport) (now : ℕ) (message : String) : Transport :=
  let suspended := { transport with suspendedUntil := now + transport.cooldown }
  if transport.reported then suspended
  else { suspended with
    reported := true
    written := transport.written ++ [message ++ ", " ++ transport.subject ++ " are dropped until the endpoint recovers"] }

def resume (transport : Transport) : Transport :=
  if transport.reported then
    { transport with reported := false, written := transport.written ++ ["OTLP export recovered"] }
  else transport

/-- `send`, once a request was attempted: none, where it is attempted once more before the deadline. -/
def attempted (transport : Transport) (now deadline : ℕ) (again : Bool) : Attempt → Option Transport
  | .answered status =>
    if 200 ≤ status ∧ status < 300 then some transport.resume
    else some (transport.suspend now "OTLP export rejected")
  | .failed closed =>
    if closed ∧ ¬again ∧ now < deadline then none else some (transport.suspend now "OTLP export failed")

end Transport

/-! ## The exporter -/

/-- Where a run of `send` is: a request is posted, again or for the first time, or it has returned. -/
inductive Phase
  | posting (number : ℕ) (body : Json) (deadline : ℕ) (again : Bool)
  | returned
deriving DecidableEq

def Phase.number : Phase → Option ℕ
  | .posting n _ _ _ => some n
  | .returned => none

def Phase.left : Phase → ℕ
  | .posting _ _ _ again => if again then 2 else 3
  | .returned => 1

structure Sending where
  promise : ℕ
  phase : Phase
deriving DecidableEq

/-- A call of `flush`, by the promise it awaits and how many collections were exported before it. -/
structure Flushing where
  promise : ℕ
  exported : ℕ
deriving DecidableEq

/-- The fields of the exporter, what runs of it, and what has happened so far. A collection is known by the
number of its export, as two that look alike are still two. -/
structure OtlpMetrics (N : Type*) where
  transport : Transport
  resource : List Json
  start : ℕ
  sending : Option ℕ := none
  pending : Option (ℕ × Collection N) := none
  /-- the exporter is flushed as the process runs out of work, once -/
  armed : Bool := true
  now : ℕ
  promises : ℕ := 0
  sends : List Sending := []
  flushes : List Flushing := []
  exported : List (Collection N) := []
  posted : List (ℕ × Json) := []

namespace OtlpMetrics

def new (resource : List (String × Option String)) (timeout cooldown now : ℕ) : OtlpMetrics N where
  transport := { subject := "series", timeout, cooldown }
  resource := Request.attributes resource
  start := now * 1000000
  now := now

section
-- how a number is written
variable (number : N → Json)

/-- `send` up to where it awaits the endpoint or returns. -/
def send (s : OtlpMetrics N) : OtlpMetrics N :=
  let taken := { s with pending := none, sending := some s.promises, promises := s.promises + 1 }
  let returned := { taken with sends := s.sends ++ [⟨s.promises, .returned⟩] }
  match s.pending with
  | none => returned
  | some (n, collection) =>
    if s.transport.suspended s.now then returned
    else match Request.request number (toString s.start) (toString (s.now * 1000000)) s.resource
        collection.series with
      | none =>
        { returned with transport := { s.transport with
          written := s.transport.written ++ ["OTLP metrics serialization failed"] } }
      | some body =>
        { taken with sends := s.sends ++ [⟨s.promises, .posting n body (s.now + s.transport.timeout) false⟩] }

def await (s : OtlpMetrics N) (promise : ℕ) : OtlpMetrics N :=
  { s with flushes := s.flushes ++ [⟨promise, s.exported.length⟩] }

/-- `flush` up to where it awaits. -/
def flush (s : OtlpMetrics N) : OtlpMetrics N :=
  match s.sending with
  | some promise => s.await promise
  | none => (s.send number).await s.promises

def «export» (s : OtlpMetrics N) (collection : Collection N) : OtlpMetrics N :=
  if collection.series.isEmpty then s
  else
    let handed := { s with exported := s.exported ++ [collection] }
    if s.transport.suspended s.now then handed
    else flush number { handed with pending := some (s.exported.length, collection) }

inductive Action (N : Type*)
  | export (collection : Collection N)
  | flush
  | exit
  | clock (now : ℕ)
  | attempt (index : ℕ) (attempt : Attempt)
  | settle (index : ℕ)
  | resolve (index : ℕ)

def settled (s : OtlpMetrics N) (flushing : Flushing) : Bool :=
  s.sends.all fun sending => sending.promise ≠ flushing.promise

/-- A call of the exporter, or a step of what runs: the endpoint answers, `finally` of a run of `send` that
has returned, and a call of `flush` that resolves. -/
def step (s : OtlpMetrics N) : Action N → Option (OtlpMetrics N)
  | .export collection => some (s.export number collection)
  | .flush => some (s.flush number)
  -- what is left to be sent or to resolve is work
  | .exit =>
    if s.sends = [] ∧ s.flushes = [] then
      some (if s.armed then flush number { s with armed := false } else s)
    else none
  | .clock now => if s.now ≤ now then some { s with now } else none
  | .attempt index attempt =>
    match s.sends[index]? with
    | some ⟨promise, .posting n body deadline again⟩ =>
      some (match s.transport.attempted s.now deadline again attempt with
        | none => { s with sends := s.sends.set index ⟨promise, .posting n body deadline true⟩ }
        | some transport => { s with
          transport
          sends := s.sends.set index ⟨promise, .returned⟩
          posted := if attempt.accepted then s.posted ++ [(n, body)] else s.posted })
    | _ => none
  | .settle index =>
    match s.sends[index]? with
    | some ⟨_, .returned⟩ => some { s with sends := s.sends.eraseIdx index, sending := none }
    | _ => none
  | .resolve index =>
    match s.flushes[index]? with
    | some flushing =>
      if s.settled flushing then some { s with flushes := s.flushes.eraseIdx index } else none
    | none => none

end

/-! ## What is posted -/

def Action.Accepted : Action N → Prop
  | .attempt _ result => result.accepted = true
  | _ => True

instance : ∀ action : Action N, Decidable action.Accepted
  | .attempt _ result => inferInstanceAs (Decidable (result.accepted = true))
  | .export _ | .flush | .exit | .clock _ | .settle _ | .resolve _ => isTrue trivial

def Action.own : Action N → Bool
  | .attempt .. | .settle _ | .resolve _ => true
  | _ => false

def flying (s : OtlpMetrics N) : List ℕ := s.sends.filterMap fun sending => sending.phase.number

def left (s : OtlpMetrics N) : ℕ :=
  s.sends.foldr (fun sending steps => sending.phase.left + steps) 0 + s.flushes.length

def Whole (number : N → Json) (s : OtlpMetrics N) (n : ℕ) (body : Json) : Prop :=
  ∃ collection time, s.exported[n]? = some collection ∧
    Request.request number (toString s.start) time s.resource collection.series = some body

/-- A flush posts the last collection: collections are posted in their order, none twice and no two at once;
a flush that is to resolve has the last collection posted that was exported before it, or a later one; and
once nothing is being sent the last one is posted, which it comes to without another call. -/
structure Posts (number : N → Json) (s : OtlpMetrics N) : Prop where
  whole : ∀ post ∈ s.posted, Whole number s post.1 post.2
  ordered : (s.posted.map Prod.fst).Pairwise (· < ·)
  single : s.flying.length ≤ 1
  flushed : ∀ flushing ∈ s.flushes, s.settled flushing = true → 0 < flushing.exported →
    ∃ post ∈ s.posted, flushing.exported ≤ post.1 + 1
  stopped : s.sends = [] → s.exported ≠ [] → ∃ post ∈ s.posted, post.1 + 1 = s.exported.length
  goes : s.sends ≠ [] → ∃ action t, action.own = true ∧ action.Accepted ∧ step number s action = some t
  nearer : ∀ action t, action.own = true → step number s action = some t → t.left < s.left

def Alone (s : OtlpMetrics N) : Action N → Prop
  | .export collection => collection.series.isEmpty = false → s.sending = none
  | _ => True

instance : ∀ (s : OtlpMetrics N) (action : Action N), Decidable (s.Alone action)
  | s, .export collection => inferInstanceAs (Decidable (collection.series.isEmpty = false → s.sending = none))
  | _, .flush | _, .exit | _, .clock _ | _, .attempt .. | _, .settle _ | _, .resolve _ => isTrue trivial

/-! ## Steps -/

section
variable (number : N → Json)

/-- The exporter once a run of `send` started. -/
def started (s : OtlpMetrics N) (phase : Phase) : OtlpMetrics N :=
  { s with
    pending := none
    sending := some s.promises
    promises := s.promises + 1
    sends := s.sends ++ [⟨s.promises, phase⟩] }

def handed (s : OtlpMetrics N) (collection : Collection N) : OtlpMetrics N :=
  { s with
    exported := s.exported ++ [collection]
    pending := some (s.exported.length, collection) }

/-- The exporter of an endpoint that accepts every request: it is not suspended, one run of `send` is the
one it has the promise of, and what it posts, posted or is to post is in order. -/
structure Inv (s : OtlpMetrics N) : Prop where
  unsuspended : s.transport.suspendedUntil = 0
  sends : s.sends.map Sending.promise = s.sending.toList
  order : (s.posted.map Prod.fst ++ s.flying ++ s.pending.toList.map Prod.fst).Pairwise (· < ·)
  last : ∀ n collection, s.pending = some (n, collection) →
    s.exported[n]? = some collection ∧ n + 1 = s.exported.length
  sent : ∀ promise n body deadline again, ⟨promise, .posting n body deadline again⟩ ∈ s.sends →
    Whole number s n body
  whole : ∀ post ∈ s.posted, Whole number s post.1 post.2

end

variable {number : N → Json} {s t : OtlpMetrics N}

theorem inv_new (resource : List (String × Option String)) (timeout cooldown now : ℕ) :
    Inv number (new resource timeout cooldown now : OtlpMetrics N) where
  unsuspended := rfl
  sends := rfl
  order := List.Pairwise.nil
  last _ _ h := by cases h
  sent _ _ _ _ _ h := absurd h List.not_mem_nil
  whole _ h := absurd h List.not_mem_nil

theorem Inv.suspended (h : Inv number s) : s.transport.suspended s.now = false := by
  rw [Transport.suspended, h.unsuspended]
  exact decide_eq_false (Nat.not_lt_zero _)

theorem Inv.only (h : Inv number s) {index : ℕ} {sending : Sending} (hget : s.sends[index]? = some sending) :
    index = 0 ∧ s.sends = [sending] ∧ s.sending = some sending.promise := by
  have hsends := h.sends
  cases hsending : s.sending with
  | none =>
    rw [hsending] at hsends
    rw [List.map_eq_nil_iff.mp hsends] at hget
    cases hget
  | some promise =>
    rw [hsending] at hsends
    obtain ⟨one, hone, rfl⟩ := List.map_eq_singleton_iff.mp hsends
    rw [hone, List.getElem?_singleton] at hget
    split_ifs at hget with hindex
    cases hget
    exact ⟨hindex, hone, rfl⟩

theorem Inv.sends_eq_nil_iff (h : Inv number s) : s.sends = [] ↔ s.sending = none := by
  rw [← List.map_eq_nil_iff, h.sends, Option.toList_eq_nil_iff]

theorem export_eq (h : Inv number s) (collection : Collection N) :
    s.export number collection =
      if collection.series.isEmpty then s else (s.handed collection).flush number := by
  rw [OtlpMetrics.export, h.suspended]
  rfl

/-- A flush awaits what is being sent, or a run of `send` that it starts: of nothing, or of a collection. -/
theorem flush_cases (h : Inv number s) :
    (∃ promise, s.sending = some promise ∧ s.flush number = s.await promise) ∨
      (s.sending = none ∧ s.pending = none ∧ s.flush number = (s.started .returned).await s.promises) ∨
      s.sending = none ∧ ∃ n collection body, s.pending = some (n, collection) ∧
        Request.request number (toString s.start) (toString (s.now * 1000000)) s.resource collection.series =
          some body ∧
        s.flush number =
          (s.started (.posting n body (s.now + s.transport.timeout) false)).await s.promises := by
  rw [flush]
  cases hsending : s.sending with
  | some promise => exact .inl ⟨promise, rfl, rfl⟩
  | none =>
    refine .inr ?_
    rw [send]
    cases hpending : s.pending with
    | none => exact .inl ⟨rfl, rfl, rfl⟩
    | some taken =>
      obtain ⟨n, collection⟩ := taken
      obtain ⟨body, hbody⟩ := Option.isSome_iff_exists.mp
        (@Request.isSome_request _ number (toString s.start) (toString (s.now * 1000000)) s.resource collection)
      refine .inr ⟨rfl, n, collection, body, rfl, hbody, ?_⟩
      simp only [h.suspended, hbody]
      rfl

inductive Next (number : N → Json) (s : OtlpMetrics N) : Action N → OtlpMetrics N → Prop
  | exported (collection : Collection N) (h : collection.series.isEmpty = false) :
    Next number s (.export collection) ((s.handed collection).flush number)
  | flushed {action : Action N} (armed : Bool) (h : ∀ collection, action ≠ .export collection) :
    Next number s action (flush number { s with armed })
  | still {action : Action N} (now : ℕ) (armed : Bool) (flushes : List Flushing)
    (h : flushes.Sublist s.flushes) : Next number s action { s with now, armed, flushes }
  | answered {action : Action N} {promise n : ℕ} {body : Json} {deadline : ℕ} {again : Bool}
    (h : s.sends = [⟨promise, .posting n body deadline again⟩]) : Next number s action { s with
      transport := s.transport.resume
      sends := [⟨promise, .returned⟩]
      posted := s.posted ++ [(n, body)] }
  | settled {action : Action N} {promise : ℕ} (h : s.sends = [⟨promise, .returned⟩]) :
    Next number s action { s with sends := [], sending := none }

theorem next_of_step (h : Inv number s) {action : Action N} (haccepted : action.Accepted)
    (hstep : step number s action = some t) : Next number s action t := by
  have hsame : Next number s action s := .still s.now s.armed s.flushes (List.Sublist.refl _)
  cases action with
  | «export» collection =>
    rw [step, export_eq h] at hstep
    cases Option.some.inj hstep
    split_ifs with hempty
    · exact hsame
    · exact .exported collection (Bool.eq_false_iff.mpr hempty)
  | flush =>
    cases Option.some.inj hstep
    exact .flushed s.armed fun _ h => by cases h
  | exit =>
    rw [step] at hstep
    split_ifs at hstep with hnone harmed
    · cases Option.some.inj hstep
      exact .flushed false fun _ h => by cases h
    · cases Option.some.inj hstep
      exact hsame
  | clock now =>
    rw [step] at hstep
    split_ifs at hstep
    cases Option.some.inj hstep
    exact .still now s.armed s.flushes (List.Sublist.refl _)
  | attempt index result =>
    rw [step] at hstep
    split at hstep
    · rename_i promise n body deadline again hget
      obtain ⟨rfl, honly, -⟩ := h.only hget
      cases result with
      | failed closed => cases haccepted
      | answered status =>
        have hstatus : 200 ≤ status ∧ status < 300 := of_decide_eq_true haccepted
        have hposted : (Attempt.answered status).accepted = true := haccepted
        cases Option.some.inj hstep
        rw [Transport.attempted, if_pos hstatus, honly]
        simp only [if_pos hposted]
        exact .answered honly
    · cases hstep
  | settle index =>
    rw [step] at hstep
    split at hstep
    · rename_i promise hget
      obtain ⟨rfl, honly, -⟩ := h.only hget
      cases Option.some.inj hstep
      rw [honly]
      exact .settled honly
    · cases hstep
  | resolve index =>
    rw [step] at hstep
    split at hstep
    · split_ifs at hstep
      cases Option.some.inj hstep
      exact .still s.now s.armed _ (List.eraseIdx_sublist _ _)
    · cases hstep

/-! ## What every run keeps -/

theorem flying_started (s : OtlpMetrics N) (phase : Phase) :
    (s.started phase).flying = s.flying ++ phase.number.toList := by
  rw [flying, started, List.filterMap_append]
  cases phase <;> rfl

theorem Whole.handed {n : ℕ} {body : Json} (h : Whole number s n body) (collection : Collection N) :
    Whole number (s.handed collection) n body := by
  obtain ⟨one, time, hone, hbody⟩ := h
  refine ⟨one, time, ?_, hbody⟩
  rw [OtlpMetrics.handed, List.getElem?_append_left (List.getElem?_eq_some_iff.mp hone).1]
  exact hone

theorem Whole.lt {n : ℕ} {body : Json} (h : Whole number s n body) : n < s.exported.length := by
  obtain ⟨one, time, hone, -⟩ := h
  exact (List.getElem?_eq_some_iff.mp hone).1

theorem Inv.flying_whole (h : Inv number s) : ∀ n ∈ s.flying, ∃ body, Whole number s n body := by
  intro n hn
  obtain ⟨⟨promise, phase⟩, hmem, hnumber⟩ := List.mem_filterMap.mp hn
  cases phase with
  | posting m body deadline again =>
    cases hnumber
    exact ⟨body, h.sent promise n body deadline again hmem⟩
  | returned => cases hnumber

theorem Inv.lt (h : Inv number s) : ∀ n ∈ s.posted.map Prod.fst ++ s.flying, n < s.exported.length := by
  intro n hn
  rcases List.mem_append.mp hn with hn | hn
  · obtain ⟨post, hpost, rfl⟩ := List.mem_map.mp hn
    exact (h.whole post hpost).lt
  · obtain ⟨body, hbody⟩ := h.flying_whole n hn
    exact hbody.lt

theorem Inv.handed (h : Inv number s) (collection : Collection N) : Inv number (s.handed collection) where
  unsuspended := h.unsuspended
  sends := h.sends
  order := by
    have hbefore := (List.pairwise_append.mp h.order).1
    refine List.pairwise_append.mpr ⟨hbefore, List.pairwise_singleton _ _, fun n hn m hm => ?_⟩
    rw [List.mem_singleton.mp hm]
    exact h.lt n hn
  last n one hone := by
    cases Option.some.inj hone
    exact ⟨List.getElem?_concat_length, (@List.length_append _ s.exported [collection]).symm⟩
  sent promise n body deadline again hmem := (h.sent promise n body deadline again hmem).handed collection
  whole post hpost := (h.whole post hpost).handed collection

theorem Inv.started (h : Inv number s) (hsending : s.sending = none) {phase : Phase}
    (hnumber : phase.number.toList = s.pending.toList.map Prod.fst)
    (hsent : ∀ n body deadline again, phase = .posting n body deadline again → Whole number s n body) :
    Inv number (s.started phase) := by
  have hsends : (s.started phase).sends = [⟨s.promises, phase⟩] := by
    rw [OtlpMetrics.started, h.sends_eq_nil_iff.mpr hsending, List.nil_append]
  refine ⟨h.unsuspended, ?sends, ?order, fun _ _ hnone => ?last, ?sent, h.whole⟩
  case sends =>
    rw [hsends]
    rfl
  case order =>
    have horder := h.order
    rw [← hnumber, List.append_assoc, ← flying_started] at horder
    exact (List.append_nil _).symm ▸ horder
  case last => cases hnone
  case sent =>
    intro promise n body deadline again hmem
    rw [hsends, List.mem_singleton] at hmem
    cases hmem
    exact hsent n body deadline again rfl

theorem Inv.await (h : Inv number s) (promise : ℕ) : Inv number (s.await promise) :=
  ⟨h.unsuspended, h.sends, h.order, h.last, h.sent, h.whole⟩

theorem Inv.flush (h : Inv number s) : Inv number (s.flush number) := by
  obtain ⟨promise, -, heq⟩ | ⟨hsending, hpending, heq⟩ | ⟨hsending, n, collection, body, hpending, hbody, heq⟩ :=
    flush_cases h
  · exact heq ▸ h.await promise
  · refine heq ▸ (h.started hsending ?_ fun _ _ _ _ hreturned => ?_).await _
    · rw [hpending]
      rfl
    · cases hreturned
  · refine heq ▸ (h.started hsending ?_ fun _ _ _ _ hposting => ?_).await _
    · rw [hpending]
      rfl
    · cases hposting
      exact ⟨collection, _, (h.last n collection hpending).1, hbody⟩

theorem suspendedUntil_resume (transport : Transport) :
    transport.resume.suspendedUntil = transport.suspendedUntil := by
  rw [Transport.resume]
  split_ifs <;> rfl

theorem inv_step (h : Inv number s) {action : Action N} (haccepted : action.Accepted)
    (hstep : step number s action = some t) : Inv number t := by
  cases next_of_step h haccepted hstep with
  | exported collection hsome => exact (h.handed collection).flush
  | flushed armed hcall =>
    have harmed : Inv number { s with armed } := ⟨h.unsuspended, h.sends, h.order, h.last, h.sent, h.whole⟩
    exact harmed.flush
  | still now armed flushes hsub => exact ⟨h.unsuspended, h.sends, h.order, h.last, h.sent, h.whole⟩
  | @answered action promise n body deadline again hsends =>
    have hmem : (⟨promise, .posting n body deadline again⟩ : Sending) ∈ s.sends := hsends ▸ List.mem_singleton_self _
    have hflying : s.flying = [n] := by rw [flying, hsends]; rfl
    refine ⟨(suspendedUntil_resume _).trans h.unsuspended, ?sends, ?order, h.last, ?sent, ?whole⟩
    case sends =>
      have hpromise := h.sends
      rw [hsends] at hpromise
      exact hpromise
    case order =>
      have horder := h.order
      rw [hflying] at horder
      rw [List.map_append]
      exact (List.append_nil _).symm ▸ horder
    case sent =>
      intro _ _ _ _ _ hthis
      cases List.mem_singleton.mp hthis
    case whole =>
      intro post hpost
      rcases List.mem_append.mp hpost with hpost | hpost
      · exact h.whole post hpost
      · cases List.mem_singleton.mp hpost
        exact h.sent promise n body deadline again hmem
  | @settled action promise hsends =>
    have hflying : s.flying = [] := by rw [flying, hsends]; rfl
    refine ⟨h.unsuspended, rfl, ?order, h.last, fun _ _ _ _ _ hthis => absurd hthis List.not_mem_nil, h.whole⟩
    have horder := h.order
    rw [hflying] at horder
    exact horder

theorem Inv.ordered (h : Inv number s) : (s.posted.map Prod.fst).Pairwise (· < ·) :=
  (List.pairwise_append.mp (List.pairwise_append.mp h.order).1).1

theorem Inv.single (h : Inv number s) : s.flying.length ≤ 1 := by
  have hlength := congrArg List.length h.sends
  rw [List.length_map] at hlength
  exact (List.length_filterMap_le _ _).trans (hlength.trans_le Option.length_toList_le)

theorem ordered_run (h : Inv number s) {actions : List (Action N)}
    (haccepted : ∀ action ∈ actions, action.Accepted) (hrun : Run.run (step number) s actions = some t) :
    (t.posted.map Prod.fst).Pairwise (· < ·) ∧ t.flying.length ≤ 1 := by
  have hok := @Run.along_of_mem _ _ (step number) (fun _ => Action.Accepted) actions
    (fun action haction _ => haccepted action haction) s
  have hinv := Run.run_invariant (fun _ _ _ hinv hthis hstep => inv_step hinv hthis hstep) h hok hrun
  exact ⟨hinv.ordered, hinv.single⟩

/-! ## What a run does by itself -/

theorem goes (number : N → Json) (hsends : s.sends ≠ []) :
    ∃ action t, action.own = true ∧ action.Accepted ∧ step number s action = some t := by
  obtain ⟨⟨promise, phase⟩, rest, hcons⟩ := List.exists_cons_of_ne_nil hsends
  have hget : s.sends[0]? = some ⟨promise, phase⟩ := by rw [hcons]; rfl
  cases phase with
  | posting n body deadline again => exact ⟨.attempt 0 (.answered 200), _, rfl, rfl, by rw [step, hget]⟩
  | returned => exact ⟨.settle 0, _, rfl, trivial, by rw [step, hget]⟩

theorem left_none (h : s.sends = []) : s.left = s.flushes.length := by
  rw [left, h]
  exact Nat.zero_add _

theorem left_one {promise : ℕ} {phase : Phase} (h : s.sends = [⟨promise, phase⟩]) :
    s.left = phase.left + s.flushes.length := by
  rw [left, h]
  rfl

theorem again_of_attempted {transport : Transport} {now deadline : ℕ} {again : Bool} {result : Attempt}
    (h : transport.attempted now deadline again result = none) : again = false := by
  cases result with
  | answered status =>
    rw [Transport.attempted] at h
    split_ifs at h
  | failed closed =>
    rw [Transport.attempted] at h
    split_ifs at h with hclosed
    exact Bool.eq_false_iff.mpr hclosed.2.1

theorem left_lt (h : Inv number s) {action : Action N} (hown : action.own = true)
    (hstep : step number s action = some t) : t.left < s.left := by
  cases action with
  | «export» | flush | exit | clock => cases hown
  | attempt index result =>
    rw [step] at hstep
    split at hstep
    · rename_i promise n body deadline again hget
      obtain ⟨rfl, honly, -⟩ := h.only hget
      rw [honly] at hstep
      rw [left_one honly]
      cases hattempted : s.transport.attempted s.now deadline again result with
      | some transport =>
        rw [hattempted] at hstep
        cases Option.some.inj hstep
        refine (@left_one _ _ promise .returned rfl).trans_lt ?_
        refine Nat.add_lt_add_right ?_ _
        rw [Phase.left, Phase.left]
        split_ifs <;> decide
      | none =>
        rw [hattempted] at hstep
        cases Option.some.inj hstep
        rw [again_of_attempted hattempted]
        refine (@left_one _ _ promise (.posting n body deadline true) rfl).trans_lt ?_
        exact Nat.add_lt_add_right (Nat.lt_succ_self 2) _
    · cases hstep
  | settle index =>
    rw [step] at hstep
    split at hstep
    · rename_i promise hget
      obtain ⟨rfl, honly, -⟩ := h.only hget
      rw [honly] at hstep
      rw [left_one honly]
      cases Option.some.inj hstep
      exact (left_none rfl).trans_lt (Nat.lt_add_of_pos_left Nat.one_pos)
    · cases hstep
  | resolve index =>
    rw [step] at hstep
    split at hstep
    · rename_i flushing hget
      split_ifs at hstep
      cases Option.some.inj hstep
      have hlt := (List.getElem?_eq_some_iff.mp hget).1
      rw [left, left]
      refine Nat.add_lt_add_left ?_ _
      rw [List.length_eraseIdx_of_lt hlt]
      exact Nat.sub_one_lt (Nat.ne_of_gt (Nat.zero_lt_of_lt hlt))
    · cases hstep

/-! ## Collections that come alone -/

/-- Nothing waits to be posted, so all that was exported is posted or is being posted, and a flush awaits
what it was called after. -/
structure Handed (s : OtlpMetrics N) : Prop where
  pending : s.pending = none
  all : s.posted.map Prod.fst ++ s.flying = List.range s.exported.length
  flushes : ∀ flushing ∈ s.flushes, flushing.exported ≤ s.exported.length ∧
    (flushing.exported ≤ s.posted.length ∨ ∃ sending ∈ s.sends, sending.promise = flushing.promise)

theorem handed_new (resource : List (String × Option String)) (timeout cooldown now : ℕ) :
    Handed (new resource timeout cooldown now : OtlpMetrics N) where
  pending := rfl
  all := rfl
  flushes _ h := absurd h List.not_mem_nil

theorem handed_started {phase : Phase}
    (hall : s.posted.map Prod.fst ++ (s.flying ++ phase.number.toList) = List.range s.exported.length)
    (hflushes : ∀ flushing ∈ s.flushes, flushing.exported ≤ s.exported.length ∧
      flushing.exported ≤ s.posted.length) : Handed ((s.started phase).await s.promises) where
  pending := rfl
  all := hall ▸ congrArg (s.posted.map Prod.fst ++ ·) (flying_started s phase)
  flushes flushing hmem := by
    rcases List.mem_append.mp hmem with hmem | hmem
    · exact (hflushes flushing hmem).imp_right .inl
    · rw [List.mem_singleton.mp hmem]
      exact ⟨le_rfl, .inr ⟨⟨s.promises, phase⟩, List.mem_append_right _ (List.mem_singleton_self _), rfl⟩⟩

theorem Handed.idle (hhanded : Handed s) (h : Inv number s) (hsending : s.sending = none) :
    ∀ flushing ∈ s.flushes, flushing.exported ≤ s.exported.length ∧ flushing.exported ≤ s.posted.length := by
  intro flushing hmem
  refine (hhanded.flushes flushing hmem).imp_right fun hthis => hthis.resolve_right ?_
  rintro ⟨sending, hsends, -⟩
  rw [h.sends_eq_nil_iff.mpr hsending] at hsends
  cases hsends

theorem handed_flush (h : Inv number s) (hpending : s.pending = none) (hhanded : Handed s) :
    Handed (s.flush number) := by
  obtain ⟨promise, hsending, heq⟩ | ⟨hsending, -, heq⟩ | ⟨-, n, collection, body, hsome, -⟩ := flush_cases h
  · rw [heq]
    refine ⟨hhanded.pending, hhanded.all, fun flushing hmem => ?_⟩
    rcases List.mem_append.mp hmem with hmem | hmem
    · exact hhanded.flushes flushing hmem
    · rw [List.mem_singleton.mp hmem]
      have hpromise : promise ∈ s.sends.map Sending.promise := by
        rw [h.sends, hsending]
        exact List.mem_singleton_self _
      exact ⟨le_rfl, .inr (List.mem_map.mp hpromise)⟩
  · rw [heq]
    refine handed_started ?_ (hhanded.idle h hsending)
    rw [Phase.number, Option.toList_none, List.append_nil]
    exact hhanded.all
  · rw [hpending] at hsome
    cases hsome

theorem handed_export (h : Inv number s) (hhanded : Handed s) (hsending : s.sending = none)
    (collection : Collection N) : Handed ((s.handed collection).flush number) := by
  have hidle := hhanded.idle h hsending
  obtain ⟨promise, hsome, -⟩ | ⟨-, hnone, -⟩ | ⟨-, n, one, body, hpending, -, heq⟩ :=
    flush_cases (h.handed collection)
  · cases hsending.symm.trans hsome
  · cases hnone
  · cases Option.some.inj hpending
    rw [heq]
    refine handed_started ?_ fun flushing hmem => ?_
    · have hlength : (s.handed collection).exported.length = s.exported.length + 1 :=
        @List.length_append _ s.exported [collection]
      rw [hlength, List.range_succ, ← hhanded.all, List.append_assoc]
      rfl
    · obtain ⟨hexported, hposted⟩ := hidle flushing hmem
      refine ⟨hexported.trans ?_, hposted⟩
      exact (List.sublist_append_left s.exported [collection]).length_le

theorem Handed.length (hhanded : Handed s) (hflying : s.flying = []) : s.posted.length = s.exported.length := by
  have hall := hhanded.all
  rw [hflying, List.append_nil] at hall
  have hlength := congrArg List.length hall
  rwa [List.length_map, List.length_range] at hlength

theorem handed_step (h : Inv number s) (hhanded : Handed s) {action : Action N} (halone : s.Alone action)
    (haccepted : action.Accepted) (hstep : step number s action = some t) : Handed t := by
  cases next_of_step h haccepted hstep with
  | exported collection hsome => exact handed_export h hhanded (halone hsome) collection
  | flushed armed hcall =>
    have harmed : Inv number { s with armed } := ⟨h.unsuspended, h.sends, h.order, h.last, h.sent, h.whole⟩
    exact handed_flush harmed hhanded.pending ⟨hhanded.pending, hhanded.all, hhanded.flushes⟩
  | still now armed flushes hsub =>
    exact ⟨hhanded.pending, hhanded.all, fun flushing hmem => hhanded.flushes flushing (hsub.subset hmem)⟩
  | @answered action promise n body deadline again hsends =>
    have hall := hhanded.all
    rw [flying, hsends] at hall
    refine ⟨hhanded.pending, ?_, fun flushing hmem => ?_⟩
    · rw [List.map_append]
      exact (List.append_nil _).trans hall
    · obtain ⟨hexported, hposted | ⟨sending, hmem, hpromise⟩⟩ := hhanded.flushes flushing hmem
      · exact ⟨hexported, .inl (hposted.trans (List.sublist_append_left s.posted [(n, body)]).length_le)⟩
      · rw [hsends, List.mem_singleton] at hmem
        subst hmem
        exact ⟨hexported, .inr ⟨⟨promise, .returned⟩, List.mem_singleton_self _, hpromise⟩⟩
  | @settled action promise hsends =>
    have hflying : s.flying = [] := by rw [flying, hsends]; rfl
    have hall := hhanded.all
    rw [hflying] at hall
    refine ⟨hhanded.pending, hall, fun flushing hmem => ?_⟩
    have hexported := (hhanded.flushes flushing hmem).1
    exact ⟨hexported, .inl (hexported.trans_eq (hhanded.length hflying).symm)⟩

theorem Handed.posted (hhanded : Handed s) : s.posted.map Prod.fst = List.range s.posted.length := by
  have htake := congrArg (List.take s.posted.length) hhanded.all
  have hle := congrArg List.length hhanded.all
  rw [List.length_append, List.length_map, List.length_range] at hle
  rw [List.take_range, List.take_left' (List.length_map ..), Nat.min_eq_left (hle ▸ Nat.le_add_right _ _)] at htake
  exact htake

theorem Handed.last (hhanded : Handed s) (hpos : 0 < s.posted.length) :
    ∃ post ∈ s.posted, post.1 + 1 = s.posted.length := by
  have hlast : s.posted.length - 1 ∈ s.posted.map Prod.fst := by
    rw [hhanded.posted]
    exact List.mem_range.mpr (Nat.sub_one_lt hpos.ne')
  obtain ⟨post, hpost, heq⟩ := List.mem_map.mp hlast
  exact ⟨post, hpost, heq ▸ Nat.sub_add_cancel hpos⟩

theorem posts (h : Inv number s) (hhanded : Handed s) : Posts number s where
  whole := h.whole
  ordered := h.ordered
  single := h.single
  flushed flushing hmem hsettled hpos := by
    -- what the flush awaits is settled, so that it was called after what is posted
    have hnone : ¬∃ sending ∈ s.sends, sending.promise = flushing.promise := by
      rintro ⟨sending, hsends, heq⟩
      exact of_decide_eq_true (List.all_eq_true.mp hsettled sending hsends) heq
    have hle := (hhanded.flushes flushing hmem).2.resolve_right hnone
    obtain ⟨post, hpost, hlast⟩ := hhanded.last (hpos.trans_le hle)
    exact ⟨post, hpost, hle.trans_eq hlast.symm⟩
  stopped hsends hexported := by
    have hflying : s.flying = [] := by rw [flying, hsends]; rfl
    have hlength := hhanded.length hflying
    rw [← hlength]
    exact hhanded.last (hlength ▸ List.length_pos_iff.mpr hexported)
  goes := goes number
  nearer _ _ hown hstep := left_lt h hown hstep

theorem posts_run (h : Inv number s) (hhanded : Handed s) {actions : List (Action N)}
    (halone : Run.Along (step number) Alone s actions) (haccepted : ∀ action ∈ actions, action.Accepted)
    (hrun : Run.run (step number) s actions = some t) : Posts number t := by
  have hok := @Run.along_of_mem _ _ (step number) (fun _ => Action.Accepted) actions
    (fun action haction _ => haccepted action haction) s
  have hboth := @Run.run_invariant _ _ (step number) _ (fun s => Inv number s ∧ Handed s)
    (fun _ _ _ hinv hthis hstep => ⟨inv_step hinv.1 hthis.2 hstep,
      handed_step hinv.1 hinv.2 hthis.1 hthis.2 hstep⟩) _ _ _ ⟨h, hhanded⟩ (halone.and hok) hrun
  exact posts hboth.1 hboth.2

/-! ## Collections that come meanwhile -/

theorem pending_step (h : Inv number s) (hsends : s.sends ≠ []) (hpending : s.pending.isSome = true)
    {action : Action N} (haccepted : action.Accepted) (hstep : step number s action = some t) :
    t.pending.isSome = true := by
  have hsending : s.sending ≠ none := fun hnone => hsends (h.sends_eq_nil_iff.mpr hnone)
  have hflush : ∀ u : OtlpMetrics N, Inv number u → u.sending = s.sending → u.pending.isSome = true →
      (u.flush number).pending.isSome = true := by
    intro u hu hsame hsome
    obtain ⟨promise, -, heq⟩ | ⟨hnone, -⟩ | ⟨hnone, -⟩ := flush_cases hu
    · exact heq ▸ hsome
    · exact absurd (hsame.symm.trans hnone) hsending
    · exact absurd (hsame.symm.trans hnone) hsending
  cases next_of_step h haccepted hstep with
  | exported collection hsome => exact hflush _ (h.handed collection) rfl rfl
  | flushed armed hcall =>
    exact hflush _ ⟨h.unsuspended, h.sends, h.order, h.last, h.sent, h.whole⟩ rfl hpending
  | still now armed flushes hsub => exact hpending
  | answered hone => exact hpending
  | settled hone => exact hpending

theorem pending_run (h : Inv number s) (hpending : s.pending.isSome = true) {actions : List (Action N)}
    (haccepted : ∀ action ∈ actions, action.Accepted) (hrun : Run.run (step number) s actions = some t)
    (hsends : t.sends = []) : ∃ before, before <+: actions ∧ ∃ u, Run.run (step number) s before = some u ∧
      Inv number u ∧ u.sends = [] ∧ u.pending.isSome = true := by
  induction actions generalizing s with
  | nil =>
    cases Option.some.inj hrun
    exact ⟨[], List.prefix_rfl, t, rfl, h, hsends, hpending⟩
  | cons action actions ih =>
    -- the run is cut where first nothing is being sent, as nothing was taken before
    by_cases hnone : s.sends = []
    · exact ⟨[], List.nil_prefix, s, rfl, h, hnone, hpending⟩
    obtain ⟨u, hstep, hrest⟩ := Run.run_cons_eq_some.mp hrun
    obtain ⟨haction, hactions⟩ := List.forall_mem_cons.mp haccepted
    obtain ⟨before, hprefix, v, hv, hinv⟩ := ih (inv_step h haction hstep)
      (pending_step h hnone hpending haction hstep) hactions hrest
    exact ⟨action :: before, List.cons_prefix_cons.mpr ⟨rfl, hprefix⟩, v,
      Run.run_cons_eq_some.mpr ⟨u, hstep, hv⟩, hinv⟩

theorem not_posts (h : Inv number s) (hsends : s.sends = []) (hpending : s.pending.isSome = true) :
    ¬Posts number s := by
  intro hposts
  obtain ⟨⟨n, collection⟩, hsome⟩ := Option.isSome_iff_exists.mp hpending
  obtain ⟨hget, hlast⟩ := h.last n collection hsome
  have hexported : s.exported ≠ [] := List.length_pos_iff.mp (hlast ▸ Nat.succ_pos n)
  obtain ⟨post, hpost, heq⟩ := hposts.stopped hsends hexported
  have horder := h.order
  rw [hsome] at horder
  have hlt : post.1 < n := (List.pairwise_append.mp horder).2.2 post.1
    (List.mem_append_left _ (List.mem_map_of_mem hpost)) n (List.mem_singleton_self n)
  exact hlt.ne (Nat.succ_injective (heq.trans hlast.symm))

theorem alone_run (h : Inv number s) {actions : List (Action N)}
    (haccepted : ∀ action ∈ actions, action.Accepted) (hrun : Run.run (step number) s actions = some t)
    (hsends : t.sends = []) (hposts : ∀ before, before <+: actions → ∀ u,
      Run.run (step number) s before = some u → Posts number u) :
    Run.Along (step number) Alone s actions := by
  induction actions generalizing s with
  | nil => trivial
  | cons action actions ih =>
    obtain ⟨u, hstep, hrest⟩ := Run.run_cons_eq_some.mp hrun
    obtain ⟨haction, hactions⟩ := List.forall_mem_cons.mp haccepted
    have hu := inv_step h haction hstep
    have hlater : ∀ before, before <+: actions → ∀ v, Run.run (step number) u before = some v →
        Posts number v := fun before hprefix v hv => hposts (action :: before)
      (List.cons_prefix_cons.mpr ⟨rfl, hprefix⟩) v (Run.run_cons_eq_some.mpr ⟨u, hstep, hv⟩)
    refine ⟨?_, fun v hv => ?_⟩
    · cases action with
      | «export» collection =>
        intro hsome
        by_contra hsending
        -- it waits until nothing is being sent, and there it is not posted
        rw [step, export_eq h, hsome] at hstep
        obtain ⟨promise, -, heq⟩ | ⟨hnone, -⟩ | ⟨hnone, -⟩ := flush_cases (h.handed collection)
        · have hpending : u.pending.isSome = true := by
            rw [← Option.some.inj hstep, if_neg Bool.false_ne_true, heq]
            rfl
          obtain ⟨before, hprefix, v, hv, hinv, hidle, hheld⟩ := pending_run hu hpending hactions hrest hsends
          exact not_posts hinv hidle hheld (hlater before hprefix v hv)
        · exact hsending hnone
        · exact hsending hnone
      | flush | exit | clock | attempt | settle | resolve => trivial
    · cases hstep.symm.trans hv
      exact ih hu hactions hrest hlater

/-- A run whose collections come while nothing is being sent posts the last one, wherever it comes, and of
the runs that come to where nothing is being sent these are all that do. -/
theorem posts_iff {resource : List (String × Option String)} {timeout cooldown now : ℕ}
    {actions : List (Action N)} (haccepted : ∀ action ∈ actions, action.Accepted)
    (hrun : Run.run (step number) (new resource timeout cooldown now) actions = some t) :
    (Run.Along (step number) Alone (new resource timeout cooldown now) actions →
      ∀ before, before <+: actions → ∀ u,
        Run.run (step number) (new resource timeout cooldown now) before = some u → Posts number u) ∧
    (t.sends = [] → (∀ before, before <+: actions → ∀ u,
        Run.run (step number) (new resource timeout cooldown now) before = some u → Posts number u) →
      Run.Along (step number) Alone (new resource timeout cooldown now) actions) := by
  have hnew := @inv_new _ number resource timeout cooldown now
  refine ⟨fun halone before hprefix u hu => ?_, alone_run hnew haccepted hrun⟩
  obtain ⟨after, rfl⟩ := hprefix
  exact posts_run hnew (handed_new resource timeout cooldown now) halone.append_left
    (fun action haction => haccepted action (List.mem_append_left after haction)) hu

/-! ## Two collections -/

def requested (total : ℚ) : Collection ℚ :=
  collect [.counter ⟨.new "requests" ⟨[], List.nodup_nil⟩, [("", ⟨[], total⟩)]⟩]

def exporter : OtlpMetrics ℚ := new [("service.name", some "toa")] 5000 30000 0

def apart : List (Action ℚ) :=
  [.export (requested 1), .attempt 0 (.answered 200), .settle 0, .export (requested 2), .flush,
    .attempt 0 (.answered 200), .settle 0]

theorem posts_iff_apart : ∃ t, Run.run (step Json.number) exporter apart = some t ∧
    t.posted.map Prod.fst = [0, 1] ∧ (∀ before, before <+: apart → ∀ u,
      Run.run (step Json.number) exporter before = some u → Posts Json.number u) ∧
    Run.Along (step Json.number) Alone exporter apart := by
  have haccepted : ∀ action ∈ apart, action.Accepted := by decide
  have halone : Run.Along (step Json.number) Alone exporter apart := by decide
  refine ⟨_, rfl, rfl, ?_⟩
  obtain ⟨hposts, hback⟩ := @posts_iff _ Json.number _ _ _ _ _ _ haccepted rfl
  exact ⟨hposts halone, hback rfl (hposts halone)⟩

def together : List (Action ℚ) :=
  [.export (requested 1), .export (requested 2), .flush, .attempt 0 (.answered 200), .settle 0]

/-- The flush resolves and nothing is being sent, and the second of the collections is not posted. -/
theorem flush_loses : ∃ t, (∀ action ∈ together, action.Accepted) ∧
    Run.run (step Json.number) exporter together = some t ∧ ¬Posts Json.number t ∧
    t.posted.map Prod.fst = [0] ∧ t.exported.length = 2 ∧ t.sends = [] ∧ t.flushes[2]? = some ⟨0, 2⟩ ∧
    (step Json.number t (.resolve 2)).isSome = true := by
  refine ⟨_, by decide, rfl, fun hposts => ?_, rfl, rfl, rfl, rfl, rfl⟩
  obtain ⟨post, hpost, hle⟩ := hposts.flushed ⟨0, 2⟩ (@List.mem_of_getElem? _ _ 2 _ rfl) rfl Nat.two_pos
  have hnumber : post.1 ∈ [0] := List.mem_map_of_mem hpost
  rw [List.mem_singleton.mp hnumber] at hle
  exact absurd hle (by decide)

end OtlpMetrics

end Toa.OpenSpan
