import Mathlib.Data.List.Perm.Basic
import Mathlib.Data.List.Range
import Toa.OpenSpan.OtlpMetrics

/-! The exporters of spans and of entries: a queue that drops its oldest, posted in batches by a run of `send`
that goes on for as long as there is something queued. What is exported while the endpoint is suspended is not
queued at all. A run of `send` is between where it awaits the endpoint, where what it awaited is told to it, and
where its promise is settled; a call of the exporter may come in any of these places. -/

namespace Toa.OpenSpan

/-! ## The queue -/

namespace Exporter

def BATCH : ℕ := 512
def QUEUE : ℕ := 2048

/-- What the exporters differ in. A batch that cannot be written has no body. -/
structure Signal (α : Type*) where
  subject : String
  malformed : String
  request : List α → Option Json

/-- Where a run of `send` is: a batch is posted, the endpoint has answered or failed, the batch is done with, or
it has returned. -/
inductive Phase
  | posting (deadline : ℕ) (again : Bool)
  | answered (accepted : Bool)
  | looping
  | returned
deriving DecidableEq

inductive Loss
  | overflow
  | outage
  | malformed
deriving DecidableEq

/-- A call of `flush`, by the promise it awaits and how many items were queued before it. One that is `late`
found a run of `send` that had returned and was not settled, and something queued since. -/
structure Flushing where
  promise : ℕ
  queued : ℕ
  late : Bool
deriving DecidableEq

end Exporter

/-- The fields of an exporter, and what has happened so far. An item is known by the number of items queued
before it. -/
structure Exporter (α : Type*) where
  transport : Transport
  queue : List (ℕ × α) := []
  timer : Bool := false
  sending : Option (ℕ × Exporter.Phase) := none
  /-- the exporter is flushed as the process runs out of work, once -/
  armed : Bool := true
  now : ℕ
  promises : ℕ := 0
  flushes : List Exporter.Flushing := []
  queued : ℕ := 0
  posted : List (List (ℕ × α) × Json) := []
  lost : List (ℕ × Exporter.Loss) := []

namespace Exporter
variable {α : Type*}

section
variable (signal : Signal α)

def new (timeout cooldown now : ℕ) : Exporter α where
  transport := { subject := signal.subject, timeout, cooldown }
  now := now

def lose (s : Exporter α) (items : List (ℕ × α)) (loss : Loss) : Exporter α :=
  { s with lost := s.lost ++ items.map fun item => (item.1, loss) }

/-- `send` where it finds out whether there is something queued. -/
def loop (s : Exporter α) (promise : ℕ) : Exporter α :=
  if s.queue.isEmpty then { s with sending := some (promise, .returned) }
  else if s.transport.suspended s.now then
    { s.lose s.queue .outage with queue := [], sending := some (promise, .returned) }
  else
    let batch := s.queue.take BATCH
    let rest := { s with queue := s.queue.drop BATCH }
    match signal.request (batch.map Prod.snd) with
    | none =>
      { rest.lose batch .malformed with
        transport := { s.transport with written := s.transport.written ++ [signal.malformed] }
        sending := some (promise, .looping) }
    | some body =>
      { rest with
        posted := s.posted ++ [(batch, body)]
        sending := some (promise, .posting (s.now + s.transport.timeout) false) }

/-- `flush` up to where it awaits. -/
def kick (s : Exporter α) : Exporter α :=
  match s.sending with
  | some _ => { s with timer := false }
  | none => { s with timer := false, promises := s.promises + 1 }.loop signal s.promises

/-- A run of `send` has returned, and what `finally` does of it is not done yet. -/
def settling (s : Exporter α) : Bool :=
  match s.sending with
  | some (_, .returned) => true
  | _ => false

def flush (s : Exporter α) : Exporter α :=
  let promise := match s.sending with
    | some (promise, _) => promise
    | none => s.promises
  let late := s.settling && !s.queue.isEmpty
  { s.kick signal with flushes := s.flushes ++ [⟨promise, s.queued, late⟩] }

def push (s : Exporter α) (item : α) : Exporter α :=
  let kept :=
    if QUEUE ≤ s.queue.length then { s.lose (s.queue.take 1) .overflow with queue := s.queue.drop 1 } else s
  { kept with queue := kept.queue ++ [(s.queued, item)], queued := s.queued + 1 }

def «export» (s : Exporter α) (item : α) : Exporter α :=
  if s.transport.suspended s.now then s
  else if BATCH ≤ (s.push item).queue.length then (s.push item).kick signal
  else { s.push item with timer := true }

/-- What becomes of what `send` awaited: what is left behind an outage is dropped. -/
def proceed (s : Exporter α) (promise : ℕ) : Phase → Option (Exporter α)
  | .posting .. => none
  | .answered true => some { s with sending := some (promise, .looping) }
  | .answered false =>
    some { s.lose s.queue .outage with queue := [], sending := some (promise, .looping) }
  | .looping => some (s.loop signal promise)
  | .returned => some { s with sending := none }

def attempt (s : Exporter α) (outcome : Attempt) : Option (Exporter α) :=
  match s.sending with
  | some (promise, .posting deadline again) =>
    match s.transport.attempted s.now deadline again outcome with
    | none => some { s with sending := some (promise, .posting deadline true) }
    | some transport => some { s with transport, sending := some (promise, .answered outcome.accepted) }
  | _ => none

inductive Action (α : Type*)
  | «export» (item : α)
  | flush
  | fire
  | exit
  | clock (now : ℕ)
  | attempt (outcome : Attempt)
  | proceed

def step (s : Exporter α) : Action α → Option (Exporter α)
  | .export item => some (s.export signal item)
  | .flush => some (s.flush signal)
  | .fire => if s.timer then some (s.kick signal) else none
  | .exit => if s.armed then some ({ s with armed := false }.kick signal) else none
  | .clock now => if s.now ≤ now then some { s with now } else none
  | .attempt outcome => s.attempt outcome
  | .proceed => s.sending.bind fun sending => s.proceed signal sending.1 sending.2

end

end Exporter

def Otlp {α : Type*} (request : List α → Option Json) : Exporter.Signal α :=
  ⟨"spans", "OTLP span serialization failed", request⟩

/-- The exporter of entries. What it writes to the console comes back to it as one more of them. -/
def OtlpLogs {α : Type*} (request : List α → Option Json) : Exporter.Signal α :=
  ⟨"entries", "OTLP log serialization failed", request⟩

namespace Exporter
variable {α : Type*} {signal : Signal α}

/-! ## Every item is posted, lost or queued, once and in order -/

def front (s : Exporter α) : ℕ := s.queued - s.queue.length

/-- The numbers of what was posted, in the order of the posts. -/
def numbers (s : Exporter α) : List ℕ := s.posted.flatMap fun post => post.1.map Prod.fst

def gone (s : Exporter α) : List ℕ := s.numbers ++ s.lost.map Prod.fst

/-- What is queued is the latest of what came, and the rest of it was posted or lost. -/
structure Counted (s : Exporter α) : Prop where
  le : s.queue.length ≤ s.queued
  queue : s.queue.map Prod.fst = List.range' s.front s.queue.length
  gone : s.gone.Perm (List.range s.front)

theorem counted_congr {s t : Exporter α} (h : s.Counted) (hqueue : t.queue = s.queue)
    (hqueued : t.queued = s.queued) (hgone : t.gone = s.gone) : t.Counted := by
  have hfront : t.front = s.front := by rw [front, front, hqueue, hqueued]
  exact ⟨by rw [hqueue, hqueued]; exact h.le, by rw [hqueue, hfront]; exact h.queue,
    by rw [hgone, hfront]; exact h.gone⟩

theorem Counted.take {s : Exporter α} (h : s.Counted) (k : ℕ) :
    (s.queue.take k).map Prod.fst = List.range' s.front (min k s.queue.length) := by
  rw [List.map_take, h.queue]
  obtain hk | hk := le_total k s.queue.length
  · rw [List.take_range'_of_length_ge hk, min_eq_left hk]
  · rw [List.take_range'_of_length_le hk, min_eq_right hk]

theorem front_drop {s t : Exporter α} (h : s.Counted) {k : ℕ} (hqueue : t.queue = s.queue.drop k)
    (hqueued : t.queued = s.queued) : t.front = s.front + min k s.queue.length := by
  have hle := h.le
  rw [front, front, hqueue, hqueued, List.length_drop]
  omega

theorem counted_drop {s t : Exporter α} (h : s.Counted) (k : ℕ) (hqueue : t.queue = s.queue.drop k)
    (hqueued : t.queued = s.queued) (hgone : t.gone.Perm (s.gone ++ (s.queue.take k).map Prod.fst)) :
    t.Counted := by
  have hfront := front_drop h hqueue hqueued
  refine ⟨?_, ?_, ?_⟩
  · rw [hqueue, hqueued, List.length_drop]
    exact (Nat.sub_le _ _).trans h.le
  · rw [hqueue, List.map_drop, h.queue, List.length_drop, List.drop_range', hfront]
    obtain hk | hk := le_total k s.queue.length
    · rw [min_eq_left hk, Nat.mul_one]
    · rw [Nat.sub_eq_zero_of_le hk, List.range'_zero, List.range'_zero]
  · rw [h.take k] at hgone
    refine hgone.trans ((h.gone.append_right _).trans ?_)
    rw [hfront, List.range_eq_range', List.range_eq_range', ← List.range'_append_1 (m := s.front),
      Nat.zero_add]

theorem counted_push {s t : Exporter α} (h : s.Counted) {item : α}
    (hqueue : t.queue = s.queue ++ [(s.queued, item)]) (hqueued : t.queued = s.queued + 1)
    (hgone : t.gone = s.gone) : t.Counted := by
  have hle := h.le
  have hlength : t.queue.length = s.queue.length + 1 := by rw [hqueue]; simp
  have hfront : t.front = s.front := by rw [front, front, hqueued, hlength]; omega
  refine ⟨by omega, ?_, by rw [hgone, hfront]; exact h.gone⟩
  have hlast : s.front + s.queue.length = s.queued := Nat.sub_add_cancel hle
  rw [hlength, hqueue, List.map_append, h.queue, hfront, List.range'_1_concat, hlast]
  rfl

theorem gone_lose (s : Exporter α) (items : List (ℕ × α)) (loss : Loss) :
    (s.lose items loss).gone = s.gone ++ items.map Prod.fst := by
  simp only [gone, numbers, lose, List.map_append, List.map_map, List.append_assoc]
  rfl

theorem gone_post {s t : Exporter α} {batch : List (ℕ × α)} {body : Json}
    (hposted : t.posted = s.posted ++ [(batch, body)]) (hlost : t.lost = s.lost) :
    t.gone.Perm (s.gone ++ batch.map Prod.fst) := by
  have hnumbers : t.numbers = s.numbers ++ batch.map Prod.fst := by
    simp only [numbers, hposted, List.flatMap_append, List.flatMap_singleton]
  rw [gone, gone, hnumbers, hlost, List.append_assoc, List.append_assoc]
  exact List.perm_append_comm.append_left _

theorem lt_front {s : Exporter α} (h : s.Counted) {n : ℕ} (hn : n ∈ s.gone) : n < s.front :=
  List.mem_range.mp (h.gone.mem_iff.mp hn)

/-! ## What every step keeps -/

structure Lined (signal : Signal α) (s : Exporter α) : Prop where
  counted : s.Counted
  ordered : s.numbers.Pairwise (· < ·)
  bound : s.queue.length ≤ QUEUE
  batches : ∀ post ∈ s.posted,
    post.1 ≠ [] ∧ post.1.length ≤ BATCH ∧ signal.request (post.1.map Prod.snd) = some post.2

structure Base (signal : Signal α) (s : Exporter α) : Prop extends Lined signal s where
  overflow : ∀ n, (n, .overflow) ∈ s.lost → n + QUEUE < s.queued

theorem base_new (timeout cooldown now : ℕ) : Base signal (new signal timeout cooldown now) where
  counted := ⟨le_rfl, rfl, List.Perm.nil⟩
  ordered := List.Pairwise.nil
  bound := Nat.zero_le _
  batches _ h := by cases h
  overflow _ h := by cases h

theorem base_congr {s t : Exporter α} (h : Base signal s) (hqueue : t.queue = s.queue)
    (hqueued : t.queued = s.queued) (hposted : t.posted = s.posted) (hlost : t.lost = s.lost) :
    Base signal t where
  counted := counted_congr h.counted hqueue hqueued (by rw [gone, gone, numbers, numbers, hposted, hlost])
  ordered := by
    rw [numbers, hposted]
    exact h.ordered
  bound := hqueue ▸ h.bound
  batches := hposted ▸ h.batches
  overflow := by
    rw [hlost, hqueued]
    exact h.overflow

theorem lined_lose {s t : Exporter α} (h : Lined signal s) (k : ℕ) (loss : Loss)
    (hqueue : t.queue = s.queue.drop k) (hqueued : t.queued = s.queued) (hposted : t.posted = s.posted)
    (hlost : t.lost = (s.lose (s.queue.take k) loss).lost) : Lined signal t where
  counted := by
    have hgone : t.gone = (s.lose (s.queue.take k) loss).gone := by
      rw [gone, gone, numbers, numbers, hposted, hlost]
      rfl
    refine counted_drop h.counted k hqueue hqueued ?_
    rw [hgone, gone_lose]
  ordered := by
    rw [numbers, hposted]
    exact h.ordered
  bound := by
    rw [hqueue, List.length_drop]
    exact (Nat.sub_le _ _).trans h.bound
  batches := hposted ▸ h.batches

theorem lost_lose {s : Exporter α} {items : List (ℕ × α)} {loss : Loss} {n : ℕ} {reason : Loss}
    (h : (n, reason) ∈ (s.lose items loss).lost) :
    (n, reason) ∈ s.lost ∨ reason = loss ∧ n ∈ items.map Prod.fst := by
  refine (List.mem_append.mp h).imp_right fun hnew => ?_
  obtain ⟨item, hitem, hpair⟩ := List.mem_map.mp hnew
  obtain ⟨rfl, rfl⟩ := Prod.mk.inj hpair
  exact ⟨rfl, List.mem_map_of_mem hitem⟩

theorem base_lose {s t : Exporter α} (h : Base signal s) (k : ℕ) (loss : Loss) (hloss : loss ≠ .overflow)
    (hqueue : t.queue = s.queue.drop k) (hqueued : t.queued = s.queued) (hposted : t.posted = s.posted)
    (hlost : t.lost = (s.lose (s.queue.take k) loss).lost) : Base signal t where
  toLined := lined_lose h.toLined k loss hqueue hqueued hposted hlost
  overflow n hn := by
    rw [hlost] at hn
    rw [hqueued]
    obtain hold | ⟨heq, -⟩ := lost_lose hn
    · exact h.overflow n hold
    · exact absurd heq.symm hloss

theorem base_post {s t : Exporter α} (h : Base signal s) (hsome : s.queue ≠ []) {body : Json}
    (hbody : signal.request ((s.queue.take BATCH).map Prod.snd) = some body)
    (hqueue : t.queue = s.queue.drop BATCH) (hqueued : t.queued = s.queued)
    (hposted : t.posted = s.posted ++ [(s.queue.take BATCH, body)]) (hlost : t.lost = s.lost) :
    Base signal t where
  counted := counted_drop h.counted BATCH hqueue hqueued (gone_post hposted hlost)
  ordered := by
    have hnumbers : t.numbers = s.numbers ++ (s.queue.take BATCH).map Prod.fst := by
      simp only [numbers, hposted, List.flatMap_append, List.flatMap_singleton]
    rw [hnumbers, List.pairwise_append]
    refine ⟨h.ordered, ?_, fun n hn m hm => ?_⟩
    · rw [h.counted.take]
      exact List.pairwise_lt_range' 1
    · rw [h.counted.take] at hm
      exact (lt_front h.counted (List.mem_append_left _ hn)).trans_le (List.mem_range'_1.mp hm).1
  bound := by
    rw [hqueue, List.length_drop]
    exact (Nat.sub_le _ _).trans h.bound
  batches post hpost := by
    rw [hposted] at hpost
    obtain hold | hnew := List.mem_append.mp hpost
    · exact h.batches post hold
    · obtain rfl := List.mem_singleton.mp hnew
      refine ⟨?_, (List.length_take_le _ _), hbody⟩
      rw [ne_eq, List.take_eq_nil_iff]
      exact fun hnil => hnil.elim (by decide) hsome
  overflow := by
    rw [hlost, hqueued]
    exact h.overflow

theorem base_loop {s : Exporter α} (h : Base signal s) (promise : ℕ) : Base signal (s.loop signal promise) := by
  unfold loop
  split
  · exact base_congr h rfl rfl rfl rfl
  next hsome =>
    split
    · refine base_lose h s.queue.length .outage Loss.noConfusion List.drop_length.symm rfl rfl ?_
      rw [List.take_length]
    · dsimp only
      split
      · exact base_lose h BATCH .malformed Loss.noConfusion rfl rfl rfl rfl
      next body hbody =>
        refine base_post h ?_ hbody rfl rfl rfl rfl
        exact fun hnil => hsome (List.isEmpty_iff.mpr hnil)

theorem base_kick {s : Exporter α} (h : Base signal s) : Base signal (s.kick signal) := by
  unfold kick
  split
  · exact base_congr h rfl rfl rfl rfl
  · refine base_loop ?_ _
    exact base_congr h rfl rfl rfl rfl

theorem lined_append {s t : Exporter α} (h : Lined signal s) (hroom : s.queue.length < QUEUE) {item : α}
    (hqueue : t.queue = s.queue ++ [(s.queued, item)]) (hqueued : t.queued = s.queued + 1)
    (hposted : t.posted = s.posted) (hlost : t.lost = s.lost) : Lined signal t where
  counted := counted_push h.counted hqueue hqueued (by rw [gone, gone, numbers, numbers, hposted, hlost])
  ordered := by
    rw [numbers, hposted]
    exact h.ordered
  bound := by
    rw [hqueue, List.length_append]
    exact hroom
  batches := hposted ▸ h.batches

theorem oldest_lt {s : Exporter α} (h : s.Counted) (hfull : QUEUE ≤ s.queue.length) {n : ℕ}
    (hn : n ∈ (s.queue.take 1).map Prod.fst) : n + QUEUE < s.queued + 1 := by
  rw [h.take] at hn
  have hlt := (List.mem_range'_1.mp hn).2
  have hle := h.le
  unfold front at hlt
  omega

theorem base_push {s : Exporter α} (h : Base signal s) (item : α) : Base signal (s.push item) := by
  unfold push
  dsimp only
  split
  next hfull =>
    have hlined : Lined signal { s.lose (s.queue.take 1) .overflow with queue := s.queue.drop 1 } :=
      lined_lose h.toLined 1 .overflow rfl rfl rfl rfl
    have hroom : (s.queue.drop 1).length < QUEUE := by
      have hbound := h.bound
      have hpos : 0 < QUEUE := by decide
      rw [List.length_drop]
      omega
    refine ⟨lined_append hlined hroom rfl rfl rfl rfl, fun n hn => ?_⟩
    obtain hold | ⟨-, holdest⟩ := lost_lose hn
    · exact (h.overflow n hold).trans (Nat.lt_succ_self _)
    · exact oldest_lt h.counted hfull holdest
  next hroom =>
    refine ⟨lined_append h.toLined (not_le.mp hroom) rfl rfl rfl rfl, fun n hn => ?_⟩
    exact (h.overflow n hn).trans (Nat.lt_succ_self _)

theorem base_export {s : Exporter α} (h : Base signal s) (item : α) : Base signal (s.export signal item) := by
  unfold «export»
  split
  · exact h
  · split
    · exact base_kick (base_push h item)
    · exact base_congr (base_push h item) rfl rfl rfl rfl

theorem base_proceed {s t : Exporter α} (h : Base signal s) {promise : ℕ} {phase : Phase}
    (hstep : s.proceed signal promise phase = some t) : Base signal t := by
  cases phase with
  | posting => cases hstep
  | answered accepted =>
    cases accepted with
    | true =>
      obtain rfl := Option.some.inj hstep
      exact base_congr h rfl rfl rfl rfl
    | false =>
      obtain rfl := Option.some.inj hstep
      refine base_lose h s.queue.length .outage Loss.noConfusion List.drop_length.symm rfl rfl ?_
      rw [List.take_length]
  | looping =>
    obtain rfl := Option.some.inj hstep
    exact base_loop h promise
  | returned =>
    obtain rfl := Option.some.inj hstep
    exact base_congr h rfl rfl rfl rfl

/-! ## A flush waits for what was queued before it -/

/-- A flush that found nothing late is over with, or awaits the run of `send` that is on. -/
def Answered (s : Exporter α) (f : Flushing) : Prop :=
  f.queued ≤ s.front ∨ ∃ phase, s.sending = some (f.promise, phase) ∧ phase ≠ .returned

structure Inv (signal : Signal α) (s : Exporter α) : Prop extends Base signal s where
  came : ∀ f ∈ s.flushes, f.queued ≤ s.queued
  flushed : ∀ f ∈ s.flushes, f.late = false → s.Answered f

theorem front_of_empty {s : Exporter α} (h : s.queue = []) : s.front = s.queued := by
  rw [front, h, List.length_nil, Nat.sub_zero]

/-- What `send` finds out, for a flush that awaits it or has nothing more to await. -/
theorem answered_loop {s : Exporter α} (h : s.Counted) {promise : ℕ} {f : Flushing}
    (hcame : f.queued ≤ s.queued) (hawaits : f.queued ≤ s.front ∨ f.promise = promise) :
    (s.loop signal promise).Answered f := by
  have hgoes {t : Exporter α} {phase : Phase} (hqueue : t.queue = s.queue.drop BATCH)
      (hqueued : t.queued = s.queued) (hsending : t.sending = some (promise, phase))
      (hphase : phase ≠ .returned) : t.Answered f := by
    obtain hfront | rfl := hawaits
    · refine .inl (hfront.trans ?_)
      rw [front_drop h hqueue hqueued]
      exact Nat.le_add_right ..
    · exact .inr ⟨phase, hsending, hphase⟩
  unfold loop
  split
  next hempty =>
    have hnil : s.queue = [] := List.isEmpty_iff.mp hempty
    exact .inl (hcame.trans (by simp [front, hnil]))
  next hsome =>
    split
    · exact .inl hcame
    · dsimp only
      split
      · exact hgoes rfl rfl rfl Phase.noConfusion
      · exact hgoes rfl rfl rfl Phase.noConfusion

theorem answered_mono {s t : Exporter α} {f : Flushing} (h : s.Answered f) (hfront : s.front ≤ t.front)
    (hsending : t.sending = s.sending) : t.Answered f :=
  h.imp (fun h => h.trans hfront) fun h => hsending ▸ h

theorem answered_kick {s : Exporter α} (h : s.Counted) {f : Flushing} (hcame : f.queued ≤ s.queued)
    (hanswered : s.Answered f) : (s.kick signal).Answered f := by
  unfold kick
  split
  · exact answered_mono hanswered le_rfl rfl
  next hsending =>
    refine answered_loop ?_ ?_ (.inl ?_)
    · exact counted_congr h rfl rfl rfl
    · exact hcame
    · obtain hfront | ⟨phase, hphase, -⟩ := hanswered
      · exact hfront
      · rw [hsending] at hphase
        cases hphase

theorem front_push {s : Exporter α} (h : s.Counted) (item : α) : s.front ≤ (s.push item).front := by
  have hle := h.le
  unfold push front
  dsimp only
  split
  · simp only [List.length_append, List.length_drop, List.length_singleton]
    omega
  · simp only [List.length_append, List.length_singleton]
    omega

theorem queued_push (s : Exporter α) (item : α) : (s.push item).queued = s.queued + 1 := rfl

theorem fields_push (s : Exporter α) (item : α) :
    (s.push item).sending = s.sending ∧ (s.push item).flushes = s.flushes := by
  unfold push
  dsimp only
  split <;> exact ⟨rfl, rfl⟩

theorem fields_loop (s : Exporter α) (promise : ℕ) :
    (s.loop signal promise).queued = s.queued ∧ (s.loop signal promise).flushes = s.flushes := by
  unfold loop
  split
  · exact ⟨rfl, rfl⟩
  · split
    · exact ⟨rfl, rfl⟩
    · dsimp only
      split <;> exact ⟨rfl, rfl⟩

theorem fields_kick (s : Exporter α) :
    (s.kick signal).queued = s.queued ∧ (s.kick signal).flushes = s.flushes := by
  unfold kick
  split
  · exact ⟨rfl, rfl⟩
  · exact fields_loop _ _

/-- A step but for `flush`: the flushes are those there were, and each stays answered. -/
structure Keeps (s t : Exporter α) : Prop where
  flushes : t.flushes = s.flushes
  queued : s.queued ≤ t.queued
  answered : ∀ f : Flushing, f.queued ≤ s.queued → s.Answered f → t.Answered f

theorem Keeps.refl (s : Exporter α) : Keeps s s := ⟨rfl, le_rfl, fun _ _ h => h⟩

theorem Keeps.inv {s t : Exporter α} (h : Keeps s t) (hs : Inv signal s) (ht : Base signal t) : Inv signal t where
  toBase := ht
  came f hf := (hs.came f (h.flushes ▸ hf)).trans h.queued
  flushed f hf hlate := h.answered f (hs.came f (h.flushes ▸ hf)) (hs.flushed f (h.flushes ▸ hf) hlate)

theorem keeps_kick {s : Exporter α} (h : s.Counted) : Keeps s (s.kick signal) :=
  ⟨(fields_kick s).2, (fields_kick s).1.ge, fun _ => answered_kick h⟩

theorem keeps_push {s : Exporter α} (h : s.Counted) (item : α) : Keeps s (s.push item) where
  flushes := (fields_push s item).2
  queued := (queued_push s item).symm ▸ Nat.le_succ _
  answered _ _ hanswered := answered_mono hanswered (front_push h item) (fields_push s item).1

theorem Keeps.trans {s t u : Exporter α} (h : Keeps s t) (h' : Keeps t u) : Keeps s u where
  flushes := h'.flushes.trans h.flushes
  queued := h.queued.trans h'.queued
  answered f hcame hanswered := h'.answered f (hcame.trans h.queued) (h.answered f hcame hanswered)

theorem keeps_export {s : Exporter α} (h : Base signal s) (item : α) : Keeps s (s.export signal item) := by
  have hpush := keeps_push h.counted item
  unfold «export»
  split
  · exact .refl s
  · split
    · exact hpush.trans (keeps_kick (base_push h item).counted)
    · exact hpush.trans ⟨rfl, le_rfl, fun f _ hf => answered_mono hf le_rfl rfl⟩

theorem keeps_proceed {s t : Exporter α} (h : s.Counted) {promise : ℕ} {phase : Phase}
    (hsending : s.sending = some (promise, phase)) (hstep : s.proceed signal promise phase = some t) :
    Keeps s t := by
  have hpromise {f : Flushing} (hanswered : s.Answered f) :
      f.queued ≤ s.front ∨ f.promise = promise ∧ phase ≠ .returned := by
    refine hanswered.imp_right ?_
    rintro ⟨phase', hphase, hne⟩
    obtain ⟨rfl, rfl⟩ := Prod.mk.inj (Option.some.inj (hsending.symm.trans hphase))
    exact ⟨rfl, hne⟩
  cases phase with
  | posting => cases hstep
  | answered accepted =>
    cases accepted with
    | true =>
      obtain rfl := Option.some.inj hstep
      refine ⟨rfl, le_rfl, fun f _ hf => (hpromise hf).imp_right ?_⟩
      rintro ⟨rfl, -⟩
      exact ⟨_, rfl, Phase.noConfusion⟩
    | false =>
      obtain rfl := Option.some.inj hstep
      exact ⟨rfl, le_rfl, fun f hcame _ => .inl hcame⟩
  | looping =>
    obtain rfl := Option.some.inj hstep
    refine ⟨(fields_loop s promise).2, (fields_loop s promise).1.ge, fun f hcame hf => ?_⟩
    exact answered_loop h hcame ((hpromise hf).imp_right And.left)
  | returned =>
    obtain rfl := Option.some.inj hstep
    refine ⟨rfl, le_rfl, fun f _ hf => .inl ?_⟩
    exact (hpromise hf).resolve_right fun hright => hright.2 rfl

theorem inv_flush {s : Exporter α} (h : Inv signal s) : Inv signal (s.flush signal) := by
  have hkick := (@keeps_kick _ signal _ h.counted).inv h (base_kick h.toBase)
  have hflushes := (@fields_kick _ signal s).2
  have hqueued := (@fields_kick _ signal s).1
  refine ⟨base_congr hkick.toBase rfl rfl rfl rfl, fun f hf => ?_, fun f hf hlate => ?_⟩
  · obtain hold | hnew := List.mem_append.mp hf
    · exact hkick.came f (hflushes ▸ hold)
    · obtain rfl := List.mem_singleton.mp hnew
      exact hqueued.ge
  · obtain hold | hnew := List.mem_append.mp hf
    · exact answered_mono (hkick.flushed f (hflushes ▸ hold) hlate) le_rfl rfl
    · obtain rfl := List.mem_singleton.mp hnew
      dsimp only at hlate ⊢
      refine answered_mono (s := s.kick signal) ?_ le_rfl rfl
      unfold kick
      cases hsending : s.sending with
      | none =>
        refine answered_loop ?_ le_rfl (.inr rfl)
        exact counted_congr h.counted rfl rfl rfl
      | some sending =>
        obtain ⟨promise, phase⟩ := sending
        by_cases hphase : phase = .returned
        · have hempty : s.queue = [] := by
            simpa [settling, hsending, hphase] using hlate
          exact .inl (front_of_empty hempty).ge
        · exact .inr ⟨phase, rfl, hphase⟩

theorem attempt_cases {s t : Exporter α} {outcome : Attempt} (h : s.attempt outcome = some t) :
    ∃ promise deadline again phase transport, s.sending = some (promise, .posting deadline again) ∧
      t = { s with transport, sending := some (promise, phase) } ∧
      (phase = .posting deadline true ∧ transport = s.transport ∨ phase = .answered outcome.accepted ∧
        s.transport.attempted s.now deadline again outcome = some transport) := by
  unfold attempt at h
  split at h
  next promise deadline again hsending =>
    split at h
    · exact ⟨promise, deadline, again, _, _, hsending, (Option.some.inj h).symm, .inl ⟨rfl, rfl⟩⟩
    next transport htransport =>
      exact ⟨promise, deadline, again, _, _, hsending, (Option.some.inj h).symm, .inr ⟨rfl, htransport⟩⟩
  next => cases h

theorem keeps_attempt {s t : Exporter α} {outcome : Attempt} (h : s.attempt outcome = some t) :
    Keeps s t := by
  obtain ⟨promise, deadline, again, phase, transport, hsending, rfl, hphase⟩ := attempt_cases h
  refine ⟨rfl, le_rfl, fun f _ hf => hf.imp_right ?_⟩
  rintro ⟨phase', hphase', -⟩
  obtain ⟨rfl, -⟩ := Prod.mk.inj (Option.some.inj (hsending.symm.trans hphase'))
  refine ⟨phase, rfl, ?_⟩
  obtain ⟨rfl, -⟩ | ⟨rfl, -⟩ := hphase <;> exact Phase.noConfusion

theorem base_attempt {s t : Exporter α} {outcome : Attempt} (h : Base signal s)
    (hstep : s.attempt outcome = some t) : Base signal t := by
  obtain ⟨_, _, _, _, _, -, rfl, -⟩ := attempt_cases hstep
  exact base_congr h rfl rfl rfl rfl

theorem inv_step {s t : Exporter α} {action : Action α} (h : Inv signal s)
    (hstep : s.step signal action = some t) : Inv signal t := by
  cases action with
  | «export» item => exact Option.some.inj hstep ▸ (keeps_export h.toBase item).inv h (base_export h.toBase item)
  | flush => exact Option.some.inj hstep ▸ inv_flush h
  | fire =>
    obtain ⟨-, hstep⟩ := Option.ite_none_right_eq_some.mp hstep
    exact Option.some.inj hstep ▸ (keeps_kick h.counted).inv h (base_kick h.toBase)
  | exit =>
    obtain ⟨-, hstep⟩ := Option.ite_none_right_eq_some.mp hstep
    have hbase : Base signal { s with armed := false } := base_congr h.toBase rfl rfl rfl rfl
    have hkeeps : Keeps s { s with armed := false } :=
      ⟨rfl, le_rfl, fun f _ hf => answered_mono hf le_rfl rfl⟩
    exact Option.some.inj hstep ▸ (hkeeps.trans (keeps_kick hbase.counted)).inv h (base_kick hbase)
  | clock now =>
    obtain ⟨-, hstep⟩ := Option.ite_none_right_eq_some.mp hstep
    obtain rfl := Option.some.inj hstep
    have hkeeps : Keeps s { s with now } := ⟨rfl, le_rfl, fun f _ hf => answered_mono hf le_rfl rfl⟩
    exact hkeeps.inv h (base_congr h.toBase rfl rfl rfl rfl)
  | attempt outcome =>
    have hattempt : s.attempt outcome = some t := hstep
    exact (keeps_attempt hattempt).inv h (base_attempt h.toBase hattempt)
  | proceed =>
    obtain ⟨⟨promise, phase⟩, hsending, hproceed⟩ := Option.bind_eq_some_iff.mp hstep
    exact (keeps_proceed h.counted hsending hproceed).inv h (base_proceed h.toBase hproceed)

theorem inv_new (timeout cooldown now : ℕ) : Inv signal (new signal timeout cooldown now) where
  toBase := base_new timeout cooldown now
  came _ h := by cases h
  flushed _ h := by cases h

/-! ## What an endpoint that accepts every batch loses -/

/-- What an item may be lost for in a step from `s`. -/
def Reason (signal : Signal α) (s : Exporter α) : Loss → Prop
  | .overflow => True
  | .outage => s.transport.suspended s.now = true ∨ ∃ promise, s.sending = some (promise, .answered false)
  | .malformed => ∃ items, signal.request items = none

theorem lost_loop {s : Exporter α} {promise n : ℕ} {loss : Loss} (h : (n, loss) ∈ (s.loop signal promise).lost) :
    (n, loss) ∈ s.lost ∨ Reason signal s loss := by
  unfold loop at h
  split at h
  · exact .inl h
  · split at h
    next hsuspended =>
      refine (lost_lose h).imp_right ?_
      rintro ⟨rfl, -⟩
      exact .inl hsuspended
    · dsimp only at h
      split at h
      next hrequest =>
        refine (lost_lose h).imp_right ?_
        rintro ⟨rfl, -⟩
        exact ⟨_, hrequest⟩
      · exact .inl h

theorem reason_congr {s t : Exporter α} (htransport : t.transport = s.transport) (hnow : t.now = s.now)
    (hsending : t.sending = s.sending) {loss : Loss} (h : Reason signal t loss) : Reason signal s loss := by
  cases loss with
  | overflow => trivial
  | outage =>
    unfold Reason at h
    rw [htransport, hnow, hsending] at h
    exact h
  | malformed => exact h

theorem lost_kick {s : Exporter α} {n : ℕ} {loss : Loss} (h : (n, loss) ∈ (s.kick signal).lost) :
    (n, loss) ∈ s.lost ∨ Reason signal s loss := by
  unfold kick at h
  split at h
  · exact .inl h
  · refine (lost_loop h).imp_right (reason_congr ?_ ?_ ?_) <;> rfl

theorem lost_push {s : Exporter α} {item : α} {n : ℕ} {loss : Loss} (h : (n, loss) ∈ (s.push item).lost) :
    (n, loss) ∈ s.lost ∨ Reason signal s loss := by
  unfold push at h
  dsimp only at h
  split at h
  · refine (lost_lose h).imp_right ?_
    rintro ⟨rfl, -⟩
    trivial
  · exact .inl h

theorem lost_export {s : Exporter α} {item : α} {n : ℕ} {loss : Loss}
    (h : (n, loss) ∈ (s.export signal item).lost) : (n, loss) ∈ s.lost ∨ Reason signal s loss := by
  unfold «export» at h
  split at h
  · exact .inl h
  · split at h
    · obtain hpush | hreason := lost_kick h
      · exact lost_push hpush
      · refine .inr (reason_congr ?_ ?_ ?_ hreason) <;>
          · unfold push
            dsimp only
            split <;> rfl
    · exact @lost_push _ _ _ item _ _ h

theorem lost_proceed {s t : Exporter α} {promise n : ℕ} {phase : Phase} {loss : Loss}
    (hsending : s.sending = some (promise, phase)) (hstep : s.proceed signal promise phase = some t)
    (h : (n, loss) ∈ t.lost) : (n, loss) ∈ s.lost ∨ Reason signal s loss := by
  cases phase with
  | posting => cases hstep
  | answered accepted =>
    cases accepted with
    | true =>
      obtain rfl := Option.some.inj hstep
      exact .inl h
    | false =>
      obtain rfl := Option.some.inj hstep
      refine (lost_lose h).imp_right ?_
      rintro ⟨rfl, -⟩
      exact .inr ⟨promise, hsending⟩
  | looping =>
    obtain rfl := Option.some.inj hstep
    exact lost_loop h
  | returned =>
    obtain rfl := Option.some.inj hstep
    exact .inl h

theorem lost_step {s t : Exporter α} {action : Action α} (hstep : s.step signal action = some t) {n : ℕ}
    {loss : Loss} (h : (n, loss) ∈ t.lost) : (n, loss) ∈ s.lost ∨ Reason signal s loss := by
  cases action with
  | «export» item =>
    obtain rfl := Option.some.inj hstep
    exact lost_export h
  | flush =>
    obtain rfl := Option.some.inj hstep
    exact lost_kick h
  | fire =>
    obtain ⟨-, hstep⟩ := Option.ite_none_right_eq_some.mp hstep
    obtain rfl := Option.some.inj hstep
    exact lost_kick h
  | exit =>
    obtain ⟨-, hstep⟩ := Option.ite_none_right_eq_some.mp hstep
    obtain rfl := Option.some.inj hstep
    exact (lost_kick h).imp_right (reason_congr rfl rfl rfl)
  | clock now =>
    obtain ⟨-, hstep⟩ := Option.ite_none_right_eq_some.mp hstep
    obtain rfl := Option.some.inj hstep
    exact .inl h
  | attempt outcome =>
    have hattempt : s.attempt outcome = some t := hstep
    obtain ⟨_, _, _, _, _, -, rfl, -⟩ := attempt_cases hattempt
    exact .inl h
  | proceed =>
    obtain ⟨⟨promise, phase⟩, hsending, hproceed⟩ := Option.bind_eq_some_iff.mp hstep
    exact lost_proceed hsending hproceed h

def Action.Accepted : Action α → Prop
  | .attempt outcome => outcome.accepted = true
  | _ => True

instance : ∀ action : Action α, Decidable action.Accepted
  | .attempt _ => inferInstanceAs (Decidable (_ = true))
  | .export _ | .flush | .fire | .exit | .clock _ | .proceed => isTrue trivial

structure Calm (s : Exporter α) : Prop where
  suspended : s.transport.suspendedUntil = 0
  sending : ∀ promise, s.sending ≠ some (promise, .answered false)

theorem calm_loop {s : Exporter α} (h : s.transport.suspendedUntil = 0) (promise : ℕ) :
    (s.loop signal promise).Calm := by
  unfold loop
  split
  · exact ⟨h, fun _ h => (by cases h)⟩
  · split
    · exact ⟨h, fun _ h => (by cases h)⟩
    · dsimp only
      split <;> exact ⟨h, fun _ h => (by cases h)⟩

theorem calm_kick {s : Exporter α} (h : s.Calm) : (s.kick signal).Calm := by
  unfold kick
  split
  · exact ⟨h.suspended, h.sending⟩
  · refine calm_loop ?_ _
    exact h.suspended

theorem calm_push {s : Exporter α} (h : s.Calm) (item : α) : (s.push item).Calm := by
  unfold push
  dsimp only
  split <;> exact ⟨h.suspended, h.sending⟩

theorem calm_export {s : Exporter α} (h : s.Calm) (item : α) : (s.export signal item).Calm := by
  have hpush := calm_push h item
  unfold «export»
  split
  · exact h
  · split
    · exact calm_kick hpush
    · exact ⟨hpush.suspended, hpush.sending⟩

theorem calm_proceed {s t : Exporter α} (h : s.Calm) {promise : ℕ} {phase : Phase}
    (hstep : s.proceed signal promise phase = some t) : t.Calm := by
  cases phase with
  | posting => cases hstep
  | answered accepted =>
    cases accepted <;> obtain rfl := Option.some.inj hstep <;> exact ⟨h.suspended, fun _ h => (by cases h)⟩
  | looping =>
    obtain rfl := Option.some.inj hstep
    exact calm_loop h.suspended promise
  | returned =>
    obtain rfl := Option.some.inj hstep
    exact ⟨h.suspended, fun _ h => (by cases h)⟩

theorem suspendedUntil_attempted {transport transport' : Transport} {now deadline : ℕ}
    {again : Bool} {outcome : Attempt} (haccepted : outcome.accepted = true)
    (h : transport.attempted now deadline again outcome = some transport') :
    transport'.suspendedUntil = transport.suspendedUntil := by
  cases outcome with
  | answered status =>
    simp only [Transport.attempted] at h
    rw [if_pos (of_decide_eq_true haccepted)] at h
    obtain rfl := Option.some.inj h
    unfold Transport.resume
    split <;> rfl
  | failed closed => cases haccepted

theorem calm_attempt {s t : Exporter α} (h : s.Calm) {outcome : Attempt} (haccepted : outcome.accepted = true)
    (hstep : s.attempt outcome = some t) : t.Calm := by
  obtain ⟨_, _, _, _, _, -, rfl, ⟨rfl, rfl⟩ | ⟨rfl, htransport⟩⟩ := attempt_cases hstep
  · exact ⟨h.suspended, fun _ h => (by cases h)⟩
  · refine ⟨(suspendedUntil_attempted haccepted htransport).trans h.suspended, fun _ hfalse => ?_⟩
    rw [haccepted] at hfalse
    cases hfalse

theorem calm_step {s t : Exporter α} {action : Action α} (h : s.Calm) (haccepted : action.Accepted)
    (hstep : s.step signal action = some t) : t.Calm := by
  cases action with
  | «export» item => exact Option.some.inj hstep ▸ calm_export h item
  | flush =>
    obtain rfl := Option.some.inj hstep
    have hkick : (s.kick signal).Calm := calm_kick h
    exact ⟨hkick.suspended, hkick.sending⟩
  | fire =>
    obtain ⟨-, hstep⟩ := Option.ite_none_right_eq_some.mp hstep
    exact Option.some.inj hstep ▸ calm_kick h
  | exit =>
    obtain ⟨-, hstep⟩ := Option.ite_none_right_eq_some.mp hstep
    obtain rfl := Option.some.inj hstep
    refine calm_kick ?_
    exact ⟨h.suspended, h.sending⟩
  | clock now =>
    obtain ⟨-, hstep⟩ := Option.ite_none_right_eq_some.mp hstep
    obtain rfl := Option.some.inj hstep
    exact ⟨h.suspended, h.sending⟩
  | attempt outcome => exact calm_attempt h haccepted hstep
  | proceed =>
    obtain ⟨⟨promise, phase⟩, -, hproceed⟩ := Option.bind_eq_some_iff.mp hstep
    exact calm_proceed h hproceed

theorem Calm.no_outage {s : Exporter α} (h : s.Calm) : ¬Reason signal s .outage := by
  rintro (hsuspended | ⟨promise, hsending⟩)
  · rw [Transport.suspended, h.suspended] at hsuspended
    exact absurd (of_decide_eq_true hsuspended) (Nat.not_lt_zero _)
  · exact h.sending promise hsending

theorem sound_run {s t : Exporter α} {actions : List (Action α)} (h : s.Calm) (hs : ∀ n, (n, .outage) ∉ s.lost)
    (haccepted : ∀ action ∈ actions, action.Accepted) (hrun : Run.run (step signal) s actions = some t) :
    ∀ n, (n, .outage) ∉ t.lost := by
  have halong : Run.Along (step signal) (fun _ action => action.Accepted) s actions :=
    Run.along_of_mem (fun action haction _ => haccepted action haction) s
  have hinv : t.Calm ∧ ∀ n, (n, Loss.outage) ∉ t.lost := by
    refine Run.run_invariant (I := fun u : Exporter α => u.Calm ∧ ∀ n, (n, Loss.outage) ∉ u.lost)
      (fun u action v hu haction hstep => ?_) ⟨h, hs⟩ halong hrun
    refine ⟨calm_step hu.1 haction hstep, fun n hn => ?_⟩
    obtain hold | hreason := lost_step hstep hn
    · exact hu.2 n hold
    · exact hu.1.no_outage hreason
  exact hinv.2

/-! ## What is exported, whatever the calls and the endpoint -/

/-- Of what is queued, each item is posted, lost or still in the queue, once; posts are in the order of the
exports and a batch is no longer than its bound; the queue is no longer than its own, and an item makes room only
for as many that came after it. Nothing is lost to an outage of an endpoint that accepts every batch. -/
theorem accounted {timeout cooldown now : ℕ} {t : Exporter α} {actions : List (Action α)}
    (hrun : Run.run (step signal) (new signal timeout cooldown now) actions = some t) :
    (t.numbers ++ t.lost.map Prod.fst ++ t.queue.map Prod.fst).Perm (List.range t.queued) ∧
      t.numbers.Pairwise (· < ·) ∧ t.queue.length ≤ QUEUE ∧
      (∀ post ∈ t.posted,
        post.1 ≠ [] ∧ post.1.length ≤ BATCH ∧ signal.request (post.1.map Prod.snd) = some post.2) ∧
      (∀ n, (n, .overflow) ∈ t.lost → n + QUEUE < t.queued) ∧
      ((∀ action ∈ actions, action.Accepted) → ∀ n, (n, .outage) ∉ t.lost) := by
  have h : Inv signal t := Run.run_invariant_all (fun _ _ _ => inv_step) (inv_new timeout cooldown now) hrun
  refine ⟨?_, h.ordered, h.bound, h.batches, h.overflow, fun haccepted => ?_⟩
  · have hqueued : t.front + t.queue.length = t.queued := Nat.sub_add_cancel h.counted.le
    refine (h.counted.gone.append_right _).trans ?_
    rw [h.counted.queue, List.range_eq_range', List.range_eq_range', ← hqueued,
      ← List.range'_append_1 (m := t.front), Nat.zero_add]
  · exact sound_run ⟨rfl, fun _ h => (by cases h)⟩ (fun _ h => (by cases h)) haccepted hrun

/-! ### Two spans before a flush and one after, and an endpoint that fails between -/

def counting : Signal ℕ := Otlp fun items => some (.number items.length)

def failing : List (Action ℕ) :=
  [.export 7, .export 8, .flush, .export 9, .attempt (.answered 200), .proceed, .proceed,
    .attempt (.failed false), .proceed, .proceed, .proceed]

theorem accounted_failing : ∃ t : Exporter ℕ, Run.run (step counting) (new counting 5000 30000 0) failing = some t ∧
    t.numbers = [0, 1, 2] ∧
    (t.numbers ++ t.lost.map Prod.fst ++ t.queue.map Prod.fst).Perm (List.range t.queued) := by
  refine ⟨_, rfl, rfl, ?_⟩
  exact (@accounted _ counting 5000 30000 0 _ failing rfl).1

/-- A call of `flush` that did not come late is over, as its promise is settled, with nothing of what was queued
before it still in the queue. -/
theorem flush_empties {timeout cooldown now : ℕ} {t : Exporter α} {actions : List (Action α)}
    (hrun : Run.run (step signal) (new signal timeout cooldown now) actions = some t) {f : Flushing}
    (hf : f ∈ t.flushes) (hlate : f.late = false)
    (hsettled : ∀ phase, t.sending ≠ some (f.promise, phase)) :
    ∀ n < f.queued, n ∈ t.numbers ∨ n ∈ t.lost.map Prod.fst := by
  have h : Inv signal t := Run.run_invariant_all (fun _ _ _ => inv_step) (inv_new timeout cooldown now) hrun
  intro n hn
  obtain hfront | ⟨phase, hphase, -⟩ := h.flushed f hf hlate
  · exact List.mem_append.mp (h.counted.gone.mem_iff.mpr (List.mem_range.mpr (hn.trans_le hfront)))
  · exact absurd hphase (hsettled phase)

theorem flush_empties_failing :
    ∃ t : Exporter ℕ, Run.run (step counting) (new counting 5000 30000 0) failing = some t ∧
      t.flushes = [⟨0, 2, false⟩] ∧ t.sending = none ∧ ∀ n < 2, n ∈ t.numbers ∨ n ∈ t.lost.map Prod.fst := by
  refine ⟨_, rfl, rfl, rfl, ?_⟩
  exact @flush_empties _ counting 5000 30000 0 _ failing rfl ⟨0, 2, false⟩ (List.mem_singleton_self _) rfl
    fun _ h => (by cases h)

end Exporter

end Toa.OpenSpan
