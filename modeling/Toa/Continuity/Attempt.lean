import Mathlib.Data.List.Sort
import Toa.Lib.Run
import Toa.Continuity.Key

/-! The attempts of one run, over the records its journal keeps of it. Each goes on with what it recalled
when it began; what it keeps is sent to the journal and lands there in its own time, or is lost. Any
number of attempts interleave, copies of the run as well as attempts one after another. -/

set_option linter.unusedSectionVars false

namespace Toa.Continuity
open Toa.Run

/-- What an operation asks of its context: a step answers later, and a value at once. -/
inductive Call
  | step (ask : Ask)
  | value (member : List Char)

def Call.ask : Call → Ask
  | step ask => ask
  | value member => ⟨member, []⟩

/-- What an operation has seen: what it asked, and how each ask was answered. -/
inductive Event (κ ν : Type*)
  | asked (key : κ) (call : Call)
  | answered (key : κ) (answer : ν)
  | raised (key : κ)

abbrev Operation (κ ν : Type*) := List (Event κ ν) → Option Call

/-- A step that was not kept waits for what was being written when it was asked, is made, and is
recorded. -/
inductive Stage (κ ν : Type*)
  | kept (answer : ν)
  | settling (writes : List κ)
  | making
  | recording
  | recorded (stored : ν)

namespace Stage
variable {κ ν : Type*}

def answer : Stage κ ν → Option ν
  | kept answer => some answer
  | recorded stored => some stored
  | _ => none

def raises : Stage κ ν → Bool
  | kept _ => false
  | _ => true

end Stage

structure Pending (κ ν : Type*) where
  ask : Ask
  stage : Stage κ ν

/-- What the journal keeps of a step, with its answer as it is encoded. -/
structure Record (κ ν : Type*) where
  key : κ
  answer : ν
  expires : ℕ

/-- An answer that was made, and that is sent to be kept. -/
structure Made (ι κ ν : Type*) where
  attempt : ι
  call : Call
  record : Record κ ν

/-- `Run` -/
structure Attempt (κ ν : Type*) where
  steps : κ → Option ν
  expires : Option ℕ
  asked : List Char → ℕ
  writing : List κ
  pending : κ → Option (Pending κ ν)
  history : List (Event κ ν)
  live : Bool

/-- `started` is every key an attempt began to make, and `made` all that was made. -/
structure State (ι κ ν : Type*) where
  journal : List (Record κ ν)
  sent : List (Made ι κ ν)
  attempts : ι → Option (Attempt κ ν)
  started : List (ι × κ)
  made : List (Made ι κ ν)

inductive Move (κ ν : Type*)
  | ask
  | take (value : ν) (now : ℕ)
  | make (key : κ)
  | keep (key : κ) (answer : ν) (now : ℕ)
  | answer (key : κ)
  | fail (key : κ)
  | stop

def Move.asks {κ ν : Type*} : Move κ ν → Bool
  | ask | take .. => true
  | _ => false

inductive Act (ι κ ν : Type*)
  | begin (a : ι)
  | move (a : ι) (m : Move κ ν)
  | land (i : ℕ)
  | lose (i : ℕ)

section Journal
variable {κ ν : Type*} [LinearOrder κ]

def find (journal : List (Record κ ν)) (key : κ) : Option (Record κ ν) :=
  journal.find? fun r => r.key = key

/-- `record`: the answer is kept where none is, and what is kept is answered. -/
def record (journal : List (Record κ ν)) (r : Record κ ν) : List (Record κ ν) × ν :=
  match find journal r.key with
  | some kept => (journal, kept.answer)
  | none => (journal ++ [r], r.answer)

/-- `recall`, sorted by id: the run is reaped when the last record read says. -/
def Journal.recall (journal : List (Record κ ν)) : (κ → Option ν) × Option ℕ :=
  (fun key => (find journal key).map (·.answer),
    (journal.insertionSort fun r r' => r.key ≤ r'.key).getLast?.map (·.expires))

theorem find_some {journal : List (Record κ ν)} {key : κ} {r : Record κ ν}
    (h : find journal key = some r) : r ∈ journal ∧ r.key = key := by
  have hkey := List.find?_some h
  exact ⟨List.mem_of_find?_eq_some h, of_decide_eq_true hkey⟩

theorem find_none {journal : List (Record κ ν)} {key : κ} (h : find journal key = none) :
    ∀ r ∈ journal, r.key ≠ key := fun r hr hkey =>
  absurd (decide_eq_true hkey) (List.find?_eq_none.mp h r hr)

theorem record_kept (journal : List (Record κ ν)) (r : Record κ ν) :
    ∃ kept ∈ (record journal r).1, kept.key = r.key ∧ kept.answer = (record journal r).2 := by
  rw [record]
  split
  · rename_i kept hkept
    exact ⟨kept, (find_some hkept).1, (find_some hkept).2, rfl⟩
  · exact ⟨r, List.mem_append_right _ (List.mem_singleton_self r), rfl, rfl⟩

theorem mem_record {journal : List (Record κ ν)} {r kept : Record κ ν}
    (h : kept ∈ (record journal r).1) : kept ∈ journal ∨ kept = r := by
  rw [record] at h
  split at h
  · exact .inl h
  · exact (List.mem_append.mp h).imp_right List.mem_singleton.mp

theorem record_extends (journal : List (Record κ ν)) (r : Record κ ν) :
    journal <+: (record journal r).1 := by
  rw [record]
  split
  · exact List.prefix_rfl
  · exact List.prefix_append _ _

theorem record_nodup {journal : List (Record κ ν)} (h : (journal.map (·.key)).Nodup)
    (r : Record κ ν) : ((record journal r).1.map (·.key)).Nodup := by
  rw [record]
  split
  · exact h
  · rename_i hnone
    rw [List.map_append, List.nodup_append']
    refine ⟨h, List.nodup_singleton _, ?_⟩
    rintro key hkey hr
    obtain ⟨kept, hkept, rfl⟩ := List.mem_map.mp hkey
    exact find_none hnone kept hkept (List.mem_singleton.mp hr)

end Journal

namespace Attempt
variable {κ ν : Type*} [LinearOrder κ]

def begin (journal : List (Record κ ν)) : Attempt κ ν where
  steps := (Journal.recall journal).1
  expires := (Journal.recall journal).2
  asked _ := 0
  writing := []
  pending _ := none
  history := []
  live := true

def see (t : Attempt κ ν) (event : Event κ ν) : Attempt κ ν :=
  { t with history := t.history ++ [event] }

def stage (t : Attempt κ ν) (key : κ) (pending : Option (Pending κ ν)) : Attempt κ ν :=
  { t with pending := Function.update t.pending key pending }

def stored (t : Attempt κ ν) (key : κ) (kept : ν) : Attempt κ ν :=
  let t := { t with writing := t.writing.filter (· ≠ key) }
  match t.pending key with
  | some ⟨ask, .recording⟩ => t.stage key (some ⟨ask, .recorded kept⟩)
  | _ => t

/-- `expiry`: fixed by the first step of the attempt, but where it was recalled -/
def expiry (t : Attempt κ ν) (window now : ℕ) : ℕ := t.expires.getD (now + window * 1000)

section
variable (hashing : Hashing κ) (id : List Char)

/-- `key`, and what it counts -/
def key (t : Attempt κ ν) (ask : Ask) : κ :=
  hashing.derive id (hashing.asked ask) (t.asked (hashing.asked ask))

def count (t : Attempt κ ν) (call : Call) : Attempt κ ν :=
  { t with
    asked := Function.update t.asked (hashing.asked call.ask) (t.asked (hashing.asked call.ask) + 1)
    history := t.history ++ [.asked (t.key hashing id call.ask) call] }

def taken (t : Attempt κ ν) (window : ℕ) (member : List Char) (value : ν) (now : ℕ) : Attempt κ ν :=
  let key := t.key hashing id ⟨member, []⟩
  let counted := t.count hashing id (.value member)
  { counted with
    steps := Function.update counted.steps key (some value)
    expires := some (t.expiry window now)
    writing := key :: counted.writing }

end

def fixed (t : Attempt κ ν) (window now : ℕ) : Attempt κ ν :=
  { t with expires := some (t.expiry window now) }

def answered (t : Attempt κ ν) (key : κ) (stored : ν) : Attempt κ ν :=
  { t with
    steps := Function.update t.steps key (some stored)
    pending := Function.update t.pending key none }

end Attempt

/-- What an attempt is after a move, the keys it began to make, and what it made. -/
structure Moved (κ ν : Type*) where
  attempt : Attempt κ ν
  started : List κ
  made : List (Call × Record κ ν)

section
variable {ι κ ν : Type*} [DecidableEq ι] [LinearOrder κ]
variable (hashing : Hashing κ) (id : List Char) (window : ℕ) (operation : Operation κ ν)

/-- One move of an attempt: `step` in its parts, `value`, and the end of the process it runs in. -/
def Attempt.move (t : Attempt κ ν) : Move κ ν → Option (Moved κ ν)
  | .ask =>
    match operation t.history with
    | some (.step ask) =>
      let key := t.key hashing id ask
      let counted := t.count hashing id (.step ask)
      match t.steps key with
      | some kept => some ⟨counted.stage key (some ⟨ask, .kept kept⟩), [], []⟩
      | none => some ⟨counted.stage key (some ⟨ask, .settling t.writing⟩), [], []⟩
    | _ => none
  | .take value now =>
    match operation t.history with
    | some (.value member) =>
      let key := t.key hashing id ⟨member, []⟩
      let counted := t.count hashing id (.value member)
      match t.steps key with
      | some kept => some ⟨counted.see (.answered key kept), [], []⟩
      | none =>
        let taken := t.taken hashing id window member value now
        let made := ⟨key, value, t.expiry window now⟩
        some ⟨taken.see (.answered key value), [key], [(.value member, made)]⟩
    | _ => none
  | .make key =>
    match t.pending key with
    | some ⟨ask, .settling writes⟩ =>
      if ∀ w ∈ writes, w ∉ t.writing then some ⟨t.stage key (some ⟨ask, .making⟩), [key], []⟩ else none
    | _ => none
  | .keep key answer now =>
    match t.pending key with
    | some ⟨ask, .making⟩ =>
      let made := ⟨key, answer, t.expiry window now⟩
      some ⟨(t.fixed window now).stage key (some ⟨ask, .recording⟩), [], [(.step ask, made)]⟩
    | _ => none
  | .answer key =>
    match (t.pending key).bind (·.stage.answer) with
    | some stored => some ⟨(t.answered key stored).see (.answered key stored), [], []⟩
    | none => none
  | .fail key =>
    match t.pending key with
    | some p => if p.stage.raises = true then some ⟨(t.stage key none).see (.raised key), [], []⟩ else none
    | none => none
  | .stop => some ⟨{ t with live := false }, [], []⟩

namespace State

def init : State ι κ ν := ⟨[], [], fun _ => none, [], []⟩

def moved (s : State ι κ ν) (a : ι) (m : Moved κ ν) : State ι κ ν where
  journal := s.journal
  sent := s.sent ++ m.made.map fun made => ⟨a, made.1, made.2⟩
  attempts := Function.update s.attempts a (some m.attempt)
  started := s.started ++ m.started.map fun key => (a, key)
  made := s.made ++ m.made.map fun made => ⟨a, made.1, made.2⟩

def landed (s : State ι κ ν) (i : ℕ) (m : Made ι κ ν) : State ι κ ν :=
  { s with
    journal := (Continuity.record s.journal m.record).1
    sent := s.sent.eraseIdx i
    attempts := Function.update s.attempts m.attempt <| (s.attempts m.attempt).map fun t =>
      t.stored m.record.key (Continuity.record s.journal m.record).2 }

end State

def step (s : State ι κ ν) : Act ι κ ν → Option (State ι κ ν)
  | .begin a =>
    match s.attempts a with
    | none => some { s with attempts := Function.update s.attempts a (some (.begin s.journal)) }
    | some _ => none
  | .move a m =>
    match s.attempts a with
    | some t => if t.live = true then (t.move hashing id window operation m).map (s.moved a) else none
    | none => none
  | .land i => s.sent[i]?.map (s.landed i)
  | .lose i => if i < s.sent.length then some { s with sent := s.sent.eraseIdx i } else none

inductive Attempt.Did (t : Attempt κ ν) : Moved κ ν → Prop
  | recalled {ask : Ask} {kept : ν} (hcall : operation t.history = some (.step ask))
      (hkept : t.steps (t.key hashing id ask) = some kept) :
      t.Did ⟨(t.count hashing id (.step ask)).stage (t.key hashing id ask) (some ⟨ask, .kept kept⟩), [], []⟩
  | given {member : List Char} {kept : ν} (hcall : operation t.history = some (.value member))
      (hkept : t.steps (t.key hashing id ⟨member, []⟩) = some kept) :
      t.Did ⟨(t.count hashing id (.value member)).see (.answered (t.key hashing id ⟨member, []⟩) kept),
        [], []⟩
  | asked {ask : Ask} (hcall : operation t.history = some (.step ask))
      (hkept : t.steps (t.key hashing id ask) = none) :
      t.Did ⟨(t.count hashing id (.step ask)).stage (t.key hashing id ask)
        (some ⟨ask, .settling t.writing⟩), [], []⟩
  | took {member : List Char} {value : ν} {now : ℕ}
      (hcall : operation t.history = some (.value member))
      (hkept : t.steps (t.key hashing id ⟨member, []⟩) = none) :
      t.Did ⟨(t.taken hashing id window member value now).see
          (.answered (t.key hashing id ⟨member, []⟩) value), [t.key hashing id ⟨member, []⟩],
        [(.value member, ⟨t.key hashing id ⟨member, []⟩, value, t.expiry window now⟩)]⟩
  | began {key : κ} {ask : Ask} {writes : List κ} (hkey : t.pending key = some ⟨ask, .settling writes⟩) :
      t.Did ⟨t.stage key (some ⟨ask, .making⟩), [key], []⟩
  | kept {key : κ} {ask : Ask} {answer : ν} {now : ℕ} (hkey : t.pending key = some ⟨ask, .making⟩) :
      t.Did ⟨(t.fixed window now).stage key (some ⟨ask, .recording⟩), [],
        [(.step ask, ⟨key, answer, t.expiry window now⟩)]⟩
  | answered {key : κ} {p : Pending κ ν} {stored : ν} (hkey : t.pending key = some p)
      (hstored : p.stage.answer = some stored) : t.Did ⟨(t.answered key stored).see (.answered key stored), [], []⟩
  | failed {key : κ} {p : Pending κ ν} (hkey : t.pending key = some p) (hraises : p.stage.raises = true) :
      t.Did ⟨(t.stage key none).see (.raised key), [], []⟩
  | stopped : t.Did ⟨{ t with live := false }, [], []⟩

theorem Attempt.did_of_move {t : Attempt κ ν} {m : Move κ ν} {d : Moved κ ν}
    (h : t.move hashing id window operation m = some d) :
    t.Did hashing id window operation d := by
  cases m with
  | ask =>
    simp only [Attempt.move] at h
    split at h
    · rename_i ask hcall
      split at h <;> obtain rfl := Option.some.inj h
      · exact .recalled hcall ‹_›
      · exact .asked hcall ‹_›
    · cases h
  | take value now =>
    simp only [Attempt.move] at h
    split at h
    · rename_i member hcall
      split at h <;> obtain rfl := Option.some.inj h
      · exact .given hcall ‹_›
      · exact .took hcall ‹_›
    · cases h
  | make key =>
    simp only [Attempt.move] at h
    split at h
    · split at h
      · obtain rfl := Option.some.inj h
        exact .began ‹_›
      · cases h
    · cases h
  | keep key answer now =>
    simp only [Attempt.move] at h
    split at h
    · obtain rfl := Option.some.inj h
      exact .kept ‹_›
    · cases h
  | answer key =>
    simp only [Attempt.move] at h
    split at h
    · rename_i stored hbind
      obtain ⟨p, hp, hstored⟩ := Option.bind_eq_some_iff.mp hbind
      obtain rfl := Option.some.inj h
      exact .answered hp hstored
    · cases h
  | fail key =>
    simp only [Attempt.move] at h
    split at h
    · split at h
      · obtain rfl := Option.some.inj h
        exact .failed ‹_› ‹_›
      · cases h
    · cases h
  | stop =>
    obtain rfl := Option.some.inj h
    exact .stopped

inductive State.Next (s : State ι κ ν) : Act ι κ ν → State ι κ ν → Prop
  | begun {a : ι} (ha : s.attempts a = none) : s.Next (.begin a)
      { s with attempts := Function.update s.attempts a (some (.begin s.journal)) }
  | moved {a : ι} {m : Move κ ν} {t : Attempt κ ν} {d : Moved κ ν} (ha : s.attempts a = some t)
      (hmove : t.move hashing id window operation m = some d) : s.Next (.move a m) (s.moved a d)
  | landed {i : ℕ} {m : Made ι κ ν} (hi : s.sent[i]? = some m) : s.Next (.land i) (s.landed i m)
  | lost (i : ℕ) : s.Next (.lose i) { s with sent := s.sent.eraseIdx i }

theorem next_of_step {s s' : State ι κ ν} {act : Act ι κ ν}
    (h : step hashing id window operation s act = some s') :
    s.Next hashing id window operation act s' := by
  cases act with
  | begin a =>
    simp only [step] at h
    split at h
    · obtain rfl := Option.some.inj h
      exact .begun ‹_›
    · cases h
  | move a m =>
    simp only [step] at h
    split at h
    · split at h
      · obtain ⟨d, hd, rfl⟩ := Option.map_eq_some_iff.mp h
        exact .moved ‹_› hd
      · cases h
    · cases h
  | land i =>
    obtain ⟨m, hm, rfl⟩ := Option.map_eq_some_iff.mp h
    exact .landed hm
  | lose i =>
    simp only [step] at h
    split at h
    · obtain rfl := Option.some.inj h
      exact .lost i
    · cases h

theorem State.begun_attempts {s : State ι κ ν} {a b : ι} {u : Attempt κ ν}
    (h : Function.update s.attempts a (some (.begin s.journal)) b = some u) :
    u = .begin s.journal ∨ s.attempts b = some u := by
  by_cases hb : b = a
  · subst hb
    rw [Function.update_self] at h
    exact .inl (Option.some.inj h).symm
  · rw [Function.update_of_ne hb] at h
    exact .inr h

theorem State.moved_attempts {s : State ι κ ν} {a b : ι} {d : Moved κ ν} {u : Attempt κ ν}
    (h : (s.moved a d).attempts b = some u) :
    (b = a ∧ u = d.attempt) ∨ (b ≠ a ∧ s.attempts b = some u) := by
  simp only [State.moved] at h
  by_cases hb : b = a
  · subst hb
    rw [Function.update_self] at h
    exact .inl ⟨rfl, (Option.some.inj h).symm⟩
  · rw [Function.update_of_ne hb] at h
    exact .inr ⟨hb, h⟩

theorem State.landed_attempts {s : State ι κ ν} {i : ℕ} {m : Made ι κ ν} {b : ι} {u : Attempt κ ν}
    (h : (s.landed i m).attempts b = some u) : ∃ t, s.attempts b = some t ∧
      (u = t ∨ b = m.attempt ∧ u = t.stored m.record.key (Continuity.record s.journal m.record).2) := by
  simp only [State.landed] at h
  by_cases hb : b = m.attempt
  · subst hb
    rw [Function.update_self] at h
    obtain ⟨t, ht, rfl⟩ := Option.map_eq_some_iff.mp h
    exact ⟨t, ht, .inr ⟨rfl, rfl⟩⟩
  · rw [Function.update_of_ne hb] at h
    exact ⟨u, h, .inl rfl⟩

end

end Toa.Continuity
