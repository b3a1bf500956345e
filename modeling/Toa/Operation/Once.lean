import Toa.Lib.Run
import Toa.Storage.Collection

/-! Calls of the operations of one component that declare `once`, over one collection and one
inbox. Every call goes through its own stages, and the steps of all of them interleave; the
transaction a write is made in is one step, and a run of its body the driver rolled back is none. -/

set_option linter.unusedSectionVars false

namespace Toa.Operation
open Storage Run

universe u v
variable {κ : Type u} {J : Type v}

inductive Item (J : Type v)
  | value (j : J)
  | object (fields : List (String × Value J))

/-- What a reply carries as its output, with the keys of an object in the order it holds them. -/
inductive Output (J : Type v)
  | null
  | value (j : J)
  | object (fields : List (String × Value J))
  | array (items : List (Item J))

structure Reply (J : Type v) where
  output : Option (Output J)
  error : Option J

def fit (allowed : List String) (fields : List (String × Value J)) : List (String × Value J) :=
  fields.filter fun field => field.1 ∈ allowed

def fitted (allowed : List String) : Item J → Item J
  | .value j => .value j
  | .object fields => .object (fit allowed fields)

/-- `restrict`, of a reply that carries no stream. -/
def restrict (reply : Reply J) (output : Option (List String)) : Reply J :=
  match output, reply.output with
  | none, _ | _, none | _, some .null => reply
  | some [], _ => { reply with output := none }
  | some _, some (.value _) => reply
  | some allowed, some (.object fields) => { reply with output := some (.object (fit allowed fields)) }
  | some allowed, some (.array items) =>
    { reply with output := some (.array (items.map (fitted allowed))) }

structure Component (J : Type v) where
  codec : Codec J
  declaration : Declaration J
  blank : String → Value J
  region : ℕ
  /-- a record as the object it is: its own keys, in the order it holds them -/
  fields : Record J → List (String × Value J)

/-- One call of an operation: its identity, the output its caller asked for, and what the
operation is declared as. -/
structure Request where
  id : String
  output : Option (List String)
  assignment : Bool
  /-- `concurrency: retry` -/
  retried : Bool
  /-- `query.options.deleted` -/
  deleted : Bool

/-- `attempt` counts the runs of a transition's steps before this one. -/
inductive Stage (J : Type v)
  | arrived
  | recalled (attempt : ℕ)
  | acquired (attempt : ℕ) (entity : Entity J)
  | ran (attempt : ℕ) (entity : Entity J) (value : Record J) (DISCARD : Bool) (reply : Reply J)
  | assigned (changeset : Changeset J) (reply : Reply J)
  | duplicate
  /-- answered without a write: the algorithm returned an error, or discarded the state -/
  | declined (reply : Reply J)
  | answered (reply : Reply J)
  | raised

def Stage.reply : Stage J → Option (Reply J)
  | .declined reply | .answered reply => some reply
  | _ => none

def Stage.declines : Stage J → Bool
  | .ran _ _ _ DISCARD reply => reply.error.isSome || DISCARD
  | .assigned _ reply => reply.error.isSome
  | _ => false

def Stage.isDeclined : Stage J → Bool
  | .declined _ => true
  | _ => false

/-- `made` is every call whose state change was committed, with the reply recorded with it. -/
structure State (κ : Type u) (J : Type v) where
  collection : Collection J
  inbox : String → Option (Reply J)
  stage : κ → Stage J
  made : List (κ × Reply J)

namespace State
variable [DecidableEq κ]

def init (c : Collection J) : State κ J := ⟨c, fun _ => none, fun _ => .arrived, []⟩

def move (s : State κ J) (k : κ) (stage : Stage J) : State κ J :=
  { s with stage := Function.update s.stage k stage }

def commit (s : State κ J) (k : κ) (request : Request) (c : Collection J) (reply : Reply J) :
    State κ J where
  collection := c
  inbox := Function.update s.inbox request.id (some reply)
  stage := Function.update s.stage k (.answered (restrict reply request.output))
  made := (k, reply) :: s.made

theorem move_self (s : State κ J) (k : κ) (stage : Stage J) : (s.move k stage).stage k = stage :=
  Function.update_self k _ s.stage

theorem move_of_ne (s : State κ J) {k k' : κ} (h : k' ≠ k) (stage : Stage J) :
    (s.move k stage).stage k' = s.stage k' := Function.update_of_ne h _ s.stage

theorem commit_self (s : State κ J) (k : κ) (request : Request) (c : Collection J)
    (reply : Reply J) : (s.commit k request c reply).stage k =
      .answered (restrict reply request.output) := Function.update_self k _ s.stage

theorem commit_of_ne (s : State κ J) {k k' : κ} (h : k' ≠ k) (request : Request)
    (c : Collection J) (reply : Reply J) :
    (s.commit k request c reply).stage k' = s.stage k' := Function.update_of_ne h _ s.stage

theorem commit_inbox_self (s : State κ J) (k : κ) (request : Request) (c : Collection J)
    (reply : Reply J) : (s.commit k request c reply).inbox request.id = some reply :=
  Function.update_self request.id _ s.inbox

theorem commit_inbox_of_ne (s : State κ J) (k : κ) {request : Request} (c : Collection J)
    (reply : Reply J) {id : String} (h : id ≠ request.id) :
    (s.commit k request c reply).inbox id = s.inbox id := Function.update_of_ne h _ s.inbox

end State

/-- What is not the runtime's to say comes with the step: the document the server found, what the
algorithm made of the state, the time. `elsewhere` is a write that is no call's of these. -/
inductive Act (κ : Type u) (J : Type v)
  | recalls (k : κ)
  | init (k : κ) (id : String) (now : ℤ)
  | acquire (k : κ) (found : String) (now : ℤ)
  | run (k : κ) (value : Record J) (DISCARD : Bool) (reply : Reply J)
  | assign (k : κ) (changeset : Changeset J) (reply : Reply J)
  | commit (k : κ) (now : ℤ)
  | apply (k : κ) (query : Query J) (found : String) (now : ℤ)
  | fail (k : κ)
  | elsewhere (c : Collection J)

def Act.writes : Act κ J → Option κ
  | .commit k _ | .apply k _ _ _ => some k
  | _ => none

/-- `RETRY.retries` -/
def RETRIES : ℕ := 32

section
variable [DecidableEq κ] (component : Component J) (request : κ → Request)

/-- `scope.commit`, once `set` has made the entity of the value. -/
def store (s : State κ J) (k : κ) (attempt : ℕ) (m : Modified J) (reply : Reply J) : State κ J :=
  match s.inbox (request k).id with
  | some _ => s.move k .duplicate
  | none => match Storage.store component.codec s.collection m with
    | some c => s.commit k (request k) c reply
    | none =>
      if (request k).retried = true ∧ attempt < RETRIES then s.move k (.recalled (attempt + 1))
      else s.move k .raised

/-- `scope.apply`: the reply is recorded with the post-image where the algorithm named no output. -/
def apply (s : State κ J) (k : κ) (query : Query J) (found : String) (changeset : Changeset J)
    (reply : Reply J) : State κ J :=
  match upsert component.codec s.collection query found changeset with
  | none => s.move k .raised
  | some (c, images) => match s.inbox (request k).id with
    | some _ => s.move k .duplicate
    | none =>
      let output := reply.output.getD (.object (component.fields images.state))
      s.commit k (request k) c { reply with output := some output }

def step (s : State κ J) : Act κ J → Option (State κ J)
  | .recalls k =>
    match s.stage k, s.inbox (request k).id with
    | .arrived, some reply => some (s.move k (.answered (restrict reply (request k).output)))
    | .arrived, none => some (s.move k (.recalled 0))
    | .duplicate, some reply => some (s.move k (.answered (restrict reply (request k).output)))
    | .duplicate, none => some (s.move k .raised)
    | _, _ => none
  | .init k id now =>
    match s.stage k with
    | .recalled attempt =>
      some (s.move k (.acquired attempt (.init component.region now component.blank id)))
    | _ => none
  | .acquire k found now =>
    match s.stage k, s.collection found with
    | .recalled attempt, some d =>
      let entity := Entity.object component.region now (component.codec.fromDocument d.toRecord) true
      if entity.deleted = true ∧ (request k).deleted = false then some (s.move k .raised)
      else some (s.move k (.acquired attempt entity))
    | _, _ => none
  | .run k value DISCARD reply =>
    match s.stage k with
    | .acquired attempt entity =>
      if (request k).assignment = true then none
      else some (s.move k (.ran attempt entity value DISCARD reply))
    | _ => none
  | .assign k changeset reply =>
    match s.stage k with
    | .recalled _ =>
      if (request k).assignment = true then some (s.move k (.assigned changeset reply)) else none
    | _ => none
  | .commit k now =>
    match s.stage k with
    | .ran attempt entity value DISCARD reply =>
      if reply.error.isSome ∨ DISCARD = true then
        some (s.move k (.declined (restrict reply (request k).output)))
      else match entity.set component.declaration component.region now value with
        | .error _ => some (s.move k .raised)
        | .ok m => some (store component request s k attempt m reply)
    | _ => none
  | .apply k query found now =>
    match s.stage k with
    | .assigned changeset reply =>
      if reply.error.isSome then
        some (s.move k (.declined (restrict reply (request k).output)))
      else some (apply component request s k query found (changeset.set now) reply)
    | _ => none
  | .fail k => some (s.move k .raised)
  | .elsewhere c => some { s with collection := c }

end

/-! ## What a step does -/

section
variable [DecidableEq κ] {component : Component J} {request : κ → Request}

/-- What one step makes of a state: it moves a call to a stage that answers nothing, has one declined whose algorithm
wrote nothing, answers one with what the inbox holds, commits one under an identity the inbox does not hold, or
leaves the calls alone. -/
inductive Outcome (request : κ → Request) (s : State κ J) (a : Act κ J) : State κ J → Prop
  | move (k : κ) (stage : Stage J) (hstage : stage.reply = none) : Outcome request s a (s.move k stage)
  | decline (k : κ) (reply : Reply J) (hwrites : a.writes = some k) (hdeclines : (s.stage k).declines = true) :
    Outcome request s a (s.move k (.declined reply))
  | answer (k : κ) (reply : Reply J) (hreply : s.inbox (request k).id = some reply) :
    Outcome request s a (s.move k (.answered (restrict reply (request k).output)))
  | commit (k : κ) (c : Collection J) (reply : Reply J) (hwrites : a.writes = some k)
    (hdeclines : (s.stage k).declines = false) (hfree : s.inbox (request k).id = none) :
    Outcome request s a (s.commit k (request k) c reply)
  | elsewhere (c : Collection J) : Outcome request s a { s with collection := c }

variable {s : State κ J} {a : Act κ J}

theorem store_outcome {k : κ} (hwrites : a.writes = some k) (hdeclines : (s.stage k).declines = false)
    (attempt : ℕ) (m : Modified J) (reply : Reply J) :
    Outcome request s a (store component request s k attempt m reply) := by
  unfold store
  split
  · exact .move k _ rfl
  · rename_i hfree
    split
    · exact .commit k _ reply hwrites hdeclines hfree
    · split_ifs <;> exact .move k _ rfl

theorem apply_outcome {k : κ} (hwrites : a.writes = some k) (hdeclines : (s.stage k).declines = false)
    (query : Query J) (found : String) (changeset : Changeset J) (reply : Reply J) :
    Outcome request s a (apply component request s k query found changeset reply) := by
  unfold apply
  split
  · exact .move k _ rfl
  · split
    · exact .move k _ rfl
    · rename_i hfree
      exact .commit k _ _ hwrites hdeclines hfree

theorem step_outcome {t : State κ J} (h : step component request s a = some t) : Outcome request s a t := by
  cases a with
  | recalls k =>
    simp only [step] at h
    split at h
    · rename_i reply _ hreply
      obtain rfl := Option.some.inj h
      exact .answer k reply hreply
    · obtain rfl := Option.some.inj h
      exact .move k _ rfl
    · rename_i reply _ hreply
      obtain rfl := Option.some.inj h
      exact .answer k reply hreply
    · obtain rfl := Option.some.inj h
      exact .move k _ rfl
    · exact nomatch h
  | init k id now =>
    simp only [step] at h
    split at h
    · obtain rfl := Option.some.inj h
      exact .move k _ rfl
    · exact nomatch h
  | acquire k found now =>
    simp only [step] at h
    split at h
    · split_ifs at h <;> obtain rfl := Option.some.inj h <;>
        exact .move k _ rfl
    · exact nomatch h
  | run k value DISCARD reply =>
    simp only [step] at h
    split at h
    · split_ifs at h
      obtain rfl := Option.some.inj h
      exact .move k _ rfl
    · exact nomatch h
  | assign k changeset reply =>
    simp only [step] at h
    split at h
    · split_ifs at h
      obtain rfl := Option.some.inj h
      exact .move k _ rfl
    · exact nomatch h
  | commit k now =>
    simp only [step] at h
    split at h
    · rename_i attempt entity value DISCARD reply hstage
      have hdeclines : (s.stage k).declines = (reply.error.isSome || DISCARD) := by rw [hstage]; rfl
      split_ifs at h with hnot
      · obtain rfl := Option.some.inj h
        exact .decline k _ rfl (hdeclines.trans (Bool.or_eq_true_iff.mpr hnot))
      · have hgoes : (s.stage k).declines = false :=
          hdeclines.trans (Bool.eq_false_iff.mpr fun htrue => hnot (Bool.or_eq_true_iff.mp htrue))
        split at h <;> obtain rfl := Option.some.inj h
        · exact .move k _ rfl
        · exact store_outcome rfl hgoes attempt _ reply
    · exact nomatch h
  | apply k query found now =>
    simp only [step] at h
    split at h
    · rename_i changeset reply hstage
      have hdeclines : (s.stage k).declines = reply.error.isSome := by rw [hstage]; rfl
      split_ifs at h with hnot <;> obtain rfl := Option.some.inj h
      · exact .decline k _ rfl (hdeclines.trans hnot)
      · exact apply_outcome rfl (hdeclines.trans (Bool.eq_false_iff.mpr hnot)) query found _ reply
    · exact nomatch h
  | fail k =>
    obtain rfl := Option.some.inj h
    exact .move k _ rfl
  | elsewhere c =>
    obtain rfl := Option.some.inj h
    exact .elsewhere c

/-! ## Every run -/

structure Inv (request : κ → Request) (s : State κ J) : Prop where
  recorded : ∀ k reply, (k, reply) ∈ s.made → s.inbox (request k).id = some reply
  committer : ∀ id reply, s.inbox id = some reply → ∃ k, (request k).id = id ∧ (k, reply) ∈ s.made
  once : (s.made.map fun call => (request call.1).id).Nodup
  answered : ∀ k reply, s.stage k = .answered reply →
    ∃ full, s.inbox (request k).id = some full ∧ reply = restrict full (request k).output

theorem inv_init (request : κ → Request) (c : Collection J) : Inv request (State.init c) where
  recorded := fun _ _ h => nomatch h
  committer := fun _ _ h => nomatch h
  once := List.nodup_nil
  answered := fun _ _ h => nomatch h

theorem inv_move {s : State κ J} (hs : Inv request s) (k : κ) {stage : Stage J}
    (hstage : ∀ reply, stage = .answered reply →
      ∃ full, s.inbox (request k).id = some full ∧ reply = restrict full (request k).output) :
    Inv request (s.move k stage) := by
  refine ⟨hs.recorded, hs.committer, hs.once, fun k' reply h => ?_⟩
  by_cases hk : k' = k
  · subst hk
    exact hstage reply ((s.move_self k' stage).symm.trans h)
  · exact hs.answered k' reply ((s.move_of_ne hk stage).symm.trans h)

theorem inv_commit {s : State κ J} (hs : Inv request s) {k : κ} (c : Collection J) (reply : Reply J)
    (hfree : s.inbox (request k).id = none) : Inv request (s.commit k (request k) c reply) := by
  -- what was recorded before is under other identities, and stays
  have hkeep {id : String} {full : Reply J} (h : s.inbox id = some full) :
      (s.commit k (request k) c reply).inbox id = some full := by
    have hne : id ≠ (request k).id := fun heq => nomatch (heq ▸ h).symm.trans hfree
    exact (s.commit_inbox_of_ne k c reply hne).trans h
  have hnew : (s.commit k (request k) c reply).inbox (request k).id = some reply :=
    s.commit_inbox_self k (request k) c reply
  refine ⟨?_, ?_, ?_, ?_⟩
  · intro k' reply' h
    rcases List.mem_cons.mp h with h | h
    · obtain ⟨rfl, rfl⟩ := Prod.mk.inj h
      exact hnew
    · exact hkeep (hs.recorded k' reply' h)
  · intro id full h
    by_cases hid : id = (request k).id
    · subst hid
      obtain rfl := Option.some.inj (hnew.symm.trans h)
      exact ⟨k, rfl, List.mem_cons_self ..⟩
    · obtain ⟨k', hk', hmade⟩ := hs.committer id full
        ((s.commit_inbox_of_ne k c reply hid).symm.trans h)
      exact ⟨k', hk', List.mem_cons_of_mem _ hmade⟩
  · refine List.nodup_cons.mpr ⟨fun hmem => ?_, hs.once⟩
    obtain ⟨⟨k', full⟩, hmade, hid⟩ := List.mem_map.mp hmem
    have hin := hs.recorded k' full hmade
    rw [show (request k').id = (request k).id from hid, hfree] at hin
    exact nomatch hin
  · intro k' answer h
    by_cases hk : k' = k
    · subst hk
      have hanswer := (s.commit_self k' (request k') c reply).symm.trans h
      exact ⟨reply, hnew, (Stage.answered.inj hanswer).symm⟩
    · obtain ⟨full, hfull, hanswer⟩ :=
        hs.answered k' answer ((s.commit_of_ne hk (request k) c reply).symm.trans h)
      exact ⟨full, hkeep hfull, hanswer⟩

theorem inv_step {t : State κ J} (hs : Inv request s) (h : step component request s a = some t) :
    Inv request t := by
  cases step_outcome h with
  | move k stage hstage =>
    refine inv_move hs k fun reply hr => ?_
    rw [hr] at hstage
    cases hstage
  | decline k => exact inv_move hs k fun reply hr => nomatch hr
  | answer k full hfull =>
    exact inv_move hs k fun reply hr => ⟨full, hfull, (Stage.answered.inj hr).symm⟩
  | commit k c reply _ _ hfree => exact inv_commit hs c reply hfree
  | elsewhere c => exact ⟨hs.recorded, hs.committer, hs.once, hs.answered⟩

theorem inv_run {c : Collection J} {acts : List (Act κ J)}
    (hrun : run (step component request) (State.init c) acts = some s) : Inv request s :=
  run_invariant_all (fun _ _ _ hI h => inv_step hI h) (inv_init request c) hrun

/-- A call whose algorithm errs or discards the state does not find its identity recorded, and one that writes does
not follow one of its identity that did. -/
def Clear (request : κ → Request) (s : State κ J) (a : Act κ J) : Prop :=
  match a.writes with
  | none => True
  | some k =>
    if (s.stage k).declines then (s.inbox (request k).id).isNone = true
    else ∀ k', (request k').id = (request k).id → (s.stage k').isDeclined = false

/-- What has declined is of an identity that is not recorded. -/
def Forgotten (request : κ → Request) (s : State κ J) : Prop :=
  ∀ k, (s.stage k).isDeclined = true → s.inbox (request k).id = none

theorem Forgotten.move (h : Forgotten request s) {k : κ} {stage : Stage J}
    (hstage : stage.isDeclined = true → s.inbox (request k).id = none) : Forgotten request (s.move k stage) := by
  intro k' hdeclined
  by_cases hk : k' = k
  · subst hk
    rw [s.move_self] at hdeclined
    exact hstage hdeclined
  · rw [s.move_of_ne hk] at hdeclined
    exact h k' hdeclined

theorem not_declined {stage : Stage J} (h : stage.reply = none) : stage.isDeclined = false := by
  cases stage <;> first | rfl | cases h

theorem Forgotten.step {t : State κ J} (h : Forgotten request s) (hclear : Clear request s a)
    (hstep : step component request s a = some t) : Forgotten request t := by
  cases step_outcome hstep with
  | move k stage hstage => exact h.move fun htrue => absurd ((not_declined hstage).symm.trans htrue) Bool.false_ne_true
  | decline k reply hwrites hdeclines =>
    refine h.move fun _ => ?_
    rw [Clear, hwrites] at hclear
    dsimp only at hclear
    rw [if_pos hdeclines] at hclear
    exact Option.isNone_iff_eq_none.mp hclear
  | answer k reply => exact h.move fun h => nomatch h
  | commit k c reply hwrites hdeclines =>
    rw [Clear, hwrites] at hclear
    dsimp only at hclear
    rw [if_neg (Bool.eq_false_iff.mp hdeclines)] at hclear
    intro k' hdeclined
    by_cases hk : k' = k
    · subst hk
      rw [s.commit_self] at hdeclined
      cases hdeclined
    · rw [s.commit_of_ne hk] at hdeclined
      have hother : (request k').id ≠ (request k).id := fun heq =>
        absurd ((hclear k' heq).symm.trans hdeclined) Bool.false_ne_true
      rw [s.commit_inbox_of_ne k c reply hother]
      exact h k' hdeclined
  | elsewhere c => exact h

theorem forgotten_run {c : Collection J} {acts : List (Act κ J)}
    (hclear : Along (step component request) (Clear request) (State.init c) acts)
    (hrun : run (step component request) (State.init c) acts = some s) : Forgotten request s :=
  have hinit : Forgotten request (State.init c) := fun _ h => (Bool.false_ne_true h).elim
  run_invariant (fun _ _ _ hI hok hstep => hI.step hok hstep) hinit hclear hrun

/-- Over every interleaving no two of the calls committed have one identity, and what a call answers, unless its own
algorithm erred or discarded the state, is what its caller asked for of the reply the call that committed under that
identity recorded. Where none did so while a call of its identity had committed or before one does, that is so of
every call that returns a reply. -/
theorem committed_once {c : Collection J} {acts : List (Act κ J)}
    (hrun : run (step component request) (State.init c) acts = some s) :
    (s.made.map fun call => (request call.1).id).Nodup ∧
      (∀ k reply, s.stage k = .answered reply → ∃ k' full, (k', full) ∈ s.made ∧
        (request k').id = (request k).id ∧ reply = restrict full (request k).output) ∧
      (Along (step component request) (Clear request) (State.init c) acts →
        ∀ k reply k' full, (s.stage k).reply = some reply → (k', full) ∈ s.made →
          (request k').id = (request k).id → reply = restrict full (request k).output) := by
  have hs := inv_run hrun
  refine ⟨hs.once, fun k reply h => ?_, fun hclear k reply k' full hreply hmade hid => ?_⟩
  · obtain ⟨full, hfull, hreply⟩ := hs.answered k reply h
    obtain ⟨k', hid, hmade⟩ := hs.committer _ full hfull
    exact ⟨k', full, hmade, hid, hreply⟩
  · have hrecorded : s.inbox (request k).id = some full := hid ▸ hs.recorded k' full hmade
    cases hstage : s.stage k with
    | answered answer =>
      rw [hstage] at hreply
      obtain rfl := Option.some.inj hreply
      obtain ⟨other, hother, heq⟩ := hs.answered k _ hstage
      rw [hrecorded] at hother
      rw [heq, Option.some.inj hother]
    | declined answer =>
      have hnone := forgotten_run hclear hrun k (by rw [hstage]; rfl)
      rw [hnone] at hrecorded
      cases hrecorded
    | _ =>
      rw [hstage] at hreply
      cases hreply

end

/-! ## Two arrivals of one call -/

def notes : Component ℤ where
  codec := .plain
  declaration := .any ℤ
  blank := (note 0).properties
  region := 0
  fields := fun _ => []

def call (_ : Bool) : Request where
  id := "call"
  output := none
  assignment := false
  retried := false
  deleted := false

def done : Reply ℤ := ⟨some (.value 1), none⟩
def refused : Reply ℤ := ⟨none, some 409⟩

def arrivals (second : Reply ℤ) : List (Act Bool ℤ) :=
  [.recalls false, .recalls true, .init false "k" 0, .run false (note 1) false done,
    .commit false 1, .acquire true "k" 2, .run true (note 2) false second, .commit true 3]

instance (s : State Bool ℤ) (a : Act Bool ℤ) : Decidable (Clear call s a) := by
  unfold Clear
  split <;> infer_instance

theorem committed_once_arrivals :
    ∃ s, run (step notes call) (.init .empty) (arrivals done ++ [.recalls true]) = some s ∧
      (s.made.map fun made => (call made.1).id).Nodup ∧
      (∃ k' full, (k', full) ∈ s.made ∧ (call k').id = (call true).id ∧ done = restrict full (call true).output) ∧
      done = restrict done (call true).output := by
  have hclear : Along (step notes call) (Clear call) (.init .empty) (arrivals done ++ [.recalls true]) := by
    decide +kernel
  have h {s} (hrun : run (step notes call) (.init .empty) (arrivals done ++ [.recalls true]) = some s) :=
    committed_once hrun
  obtain ⟨honce, hanswered, hevery⟩ := h rfl
  exact ⟨_, rfl, honce, hanswered true done rfl, hevery hclear true done false done rfl (List.mem_singleton_self _) rfl⟩

/-- The second arrival is answered with its own refusal, though the first has committed. -/
theorem refusal_not_recorded :
    ∃ s, run (step notes call) (.init .empty) (arrivals refused) = some s ∧
      ∃ k k' reply full, (s.stage k).reply = some reply ∧ (k', full) ∈ s.made ∧
        (call k').id = (call k).id ∧ reply ≠ restrict full (call k).output := by
  refine ⟨_, rfl, true, false, refused, done, rfl, List.mem_singleton_self _, rfl, fun h => ?_⟩
  exact nomatch congrArg Reply.error h

end Toa.Operation
