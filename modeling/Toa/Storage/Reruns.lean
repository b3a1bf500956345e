import Toa.Storage.OutboxImage

/-! An assignment made in a transaction, which the driver runs again while its attempts are
aborted. An attempt leaves its images in the row it was given, and the next one keeps what it finds
there; the reply it records is made anew. -/

namespace Toa.Storage.Reruns

universe u
variable {J : Type u}

/-- An attempt: the collection its transaction reads, the document `findOneAndUpdate` chooses of
it, and whether the inbox holds the call by then. -/
structure Attempt (J : Type u) where
  collection : Collection J
  found : String
  taken : Bool

/-- An attempt is aborted at its first command, or at one that comes after the row is filled in:
the insert into the inbox, the one into the outbox, or the commit. -/
inductive Abort
  | before
  | after
  deriving DecidableEq, Repr

/-- What a call is answered with: what its algorithm named, or the post-image. -/
inductive Output (J : Type u)
  | named (j : J)
  | state (record : Record J)

structure Written (J : Type u) where
  collection : Collection J
  row : Event J
  reply : Option (Output J)
  answer : Record J

inductive Outcome (J : Type u)
  | missed
  | made
  | written (w : Written J)

section
variable (codec : Codec J) (query : Query J) (changeset : Changeset J)

/-- `call.reply?.output === undefined ? { ...call.reply, output: state } : call.reply` -/
def recorded (named : Option J) (state : Record J) : Output J :=
  match named with
  | some j => .named j
  | none => .state state

/-- `apply` where nothing aborts it, with `row.event` as it is given. A call is what its algorithm
named, where the component has an inbox. -/
def apply (call : Option (Option J)) (event : Option (Event J)) (a : Attempt J) : Outcome J :=
  match upsert codec a.collection query a.found changeset with
  | none => .missed
  | some (c, images) =>
    if call.isSome && a.taken then .made
    else .written {
      collection := c
      row := fillEvent event images
      reply := call.map fun named => recorded named images.state
      answer := images.state }

/-- What an aborted attempt leaves in `row.event`, which no transaction rolls back. -/
def leave (event : Option (Event J)) : Abort → Attempt J → Option (Event J)
  | .before, _ => event
  | .after, a =>
    match upsert codec a.collection query a.found changeset with
    | none => event
    | some (_, images) => some (fillEvent event images)

/-- `withTransaction`: the attempts that are aborted, and the one that is not. -/
def transaction (call : Option (Option J)) (event : Option (Event J)) :
    List (Abort × Attempt J) → Attempt J → Outcome J
  | [], last => apply codec query changeset call event last
  | (abort, a) :: aborted, last =>
    transaction call (leave codec query changeset event abort a) aborted last

def filledFrom : Abort × Attempt J → Option (Document J)
  | (.before, _) => none
  | (.after, a) => selected a.collection query a.found changeset

/-- The row carries the images of the attempt, and so does the reply, where it carries any. -/
def Own (call : Option (Option J)) (last : Attempt J) (w : Written J) : Prop :=
  ∃ d, selected last.collection query last.found changeset = some d ∧
    w.row = imagesOf codec (live query changeset).2 d ∧
    w.reply = call.map fun named =>
      recorded named (postImage (codec.fromDocument d.toRecord) (live query changeset).2)

end

section
variable {codec : Codec J} {query : Query J} {changeset : Changeset J}

theorem upsert_eq (c : Collection J) (found : String) :
    (upsert codec c query found changeset).map Prod.snd =
      (selected c query found changeset).map (imagesOf codec (live query changeset).2) := by
  unfold upsert
  rw [Option.map_map]
  rfl

theorem leave_eq (event : Option (Event J)) (abort : Abort) (a : Attempt J) :
    leave codec query changeset event abort a = event.or
      ((filledFrom query changeset (abort, a)).map (imagesOf codec (live query changeset).2)) := by
  cases abort with
  | before => exact Option.or_none.symm
  | after =>
    simp only [leave, filledFrom, ← upsert_eq]
    cases upsert codec a.collection query a.found changeset with
    | none => exact Option.or_none.symm
    | some out =>
      cases event with
      | none => rfl
      | some e => rfl

theorem transaction_eq (call : Option (Option J)) (event : Option (Event J))
    (aborted : List (Abort × Attempt J)) (last : Attempt J) :
    transaction codec query changeset call event aborted last =
      apply codec query changeset call (event.or
        ((aborted.findSome? (filledFrom query changeset)).map
          (imagesOf codec (live query changeset).2))) last := by
  induction aborted generalizing event with
  | nil => simp only [transaction, List.findSome?_nil, Option.map_none, Option.or_none]
  | cons attempt aborted ih =>
    obtain ⟨abort, a⟩ := attempt
    simp only [transaction, ih, leave_eq, List.findSome?_cons]
    cases filledFrom query changeset (abort, a) with
    | none => simp only [Option.map_none, Option.or_none]
    | some d => simp only [Option.map_some, Option.or_some, Option.some_or]

theorem apply_written {call : Option (Option J)} {event : Option (Event J)} {a : Attempt J}
    {w : Written J} (h : apply codec query changeset call event a = .written w) :
    ∃ d, selected a.collection query a.found changeset = some d ∧
      w.row = fillEvent event (imagesOf codec (live query changeset).2 d) ∧
      w.reply = call.map fun named =>
        recorded named (postImage (codec.fromDocument d.toRecord) (live query changeset).2) := by
  unfold apply at h
  split at h
  · exact nomatch h
  · rename_i c images hupsert
    split_ifs at h
    obtain rfl := Outcome.written.inj h
    obtain ⟨d, hsel, heq⟩ := Option.map_eq_some_iff.mp hupsert
    obtain ⟨rfl, rfl⟩ := Prod.mk.inj heq
    exact ⟨d, hsel, rfl, rfl⟩

theorem imagesOf_inj {d e : Document J} :
    imagesOf codec (live query changeset).2 d = imagesOf codec (live query changeset).2 e ↔
      codec.fromDocument d.toRecord = codec.fromDocument e.toRecord := by
  constructor
  · intro h
    exact Option.some.inj (congrArg Event.origin h)
  · intro h
    unfold imagesOf
    rw [h]

/-- A row is of the attempt it is committed with exactly where the first attempt that filled it
found the record as the last one did. -/
theorem own_iff {call : Option (Option J)} {aborted : List (Abort × Attempt J)} {last : Attempt J}
    {w : Written J} (h : transaction codec query changeset call none aborted last = .written w) :
    Own codec query changeset call last w ↔
      ∀ first d, aborted.findSome? (filledFrom query changeset) = some first →
        selected last.collection query last.found changeset = some d →
        codec.fromDocument first.toRecord = codec.fromDocument d.toRecord := by
  rw [transaction_eq, Option.none_or] at h
  obtain ⟨d, hsel, hrow, hreply⟩ := apply_written h
  have hown : Own codec query changeset call last w ↔
      w.row = imagesOf codec (live query changeset).2 d := by
    constructor
    · rintro ⟨d', hsel', hrow', -⟩
      rwa [Option.some.inj (hsel.symm.trans hsel')]
    · exact fun hrow' => ⟨d, hsel, hrow', hreply⟩
  rw [hown, hrow]
  cases hfirst : aborted.findSome? (filledFrom query changeset) with
  | none => exact iff_of_true rfl fun _ _ hf => by cases hf
  | some first =>
    have hfill : fillEvent ((some first).map (imagesOf codec (live query changeset).2))
        (imagesOf codec (live query changeset).2 d) =
          imagesOf codec (live query changeset).2 first := rfl
    rw [hfill, imagesOf_inj]
    constructor
    · intro heq f e hf he
      obtain rfl := Option.some.inj hf
      obtain rfl := Option.some.inj (hsel.symm.trans he)
      exact heq
    · exact fun hall => hall first d rfl hsel

end

/-! ## A commit between two attempts -/

/-- A record of version `version`, where it holds `p`. -/
def kept (version : ℕ) (h : 0 < version) (p : ℤ) : Collection ℤ :=
  .put .empty { toRecord := { note p with VERSION := version }, version_pos := h }

def marking : Changeset ℤ where
  id := none
  VERSION := none
  CREATED := none
  UPDATED := some 9
  DELETED := none
  REGION := none
  properties := fun name => if name = "q" then some (.json 7) else none

def one : Attempt ℤ := ⟨kept 1 Nat.one_pos 1, "k", false⟩

/-- What an attempt reads once another call has written `2` to the record. -/
def two : Attempt ℤ := ⟨kept 2 Nat.two_pos 2, "k", false⟩

def any : Query ℤ := ⟨none, fun _ => true⟩

/-- Aborted twice, before the row is filled and once nothing has changed since. -/
theorem own_rerun :
    ∃ w, transaction .plain any marking (some none) none [(.before, two), (.after, one)] one =
      .written w ∧ Own .plain any marking (some none) one w := by
  have hrun : ∃ w, transaction .plain any marking (some none) none [(.before, two), (.after, one)]
      one = .written w := ⟨_, rfl⟩
  obtain ⟨w, hw⟩ := hrun
  refine ⟨w, hw, (own_iff hw).mpr fun first d hfirst hd => ?_⟩
  obtain rfl := Option.some.inj hfirst
  obtain rfl := Option.some.inj hd
  rfl

theorem rerun_not_own :
    ∃ w, transaction .plain any marking (some none) none [(.after, one)] two = .written w ∧
      (w.collection "k").map (·.VERSION) = some 3 ∧ w.row.state.VERSION = 2 ∧
      ¬ Own .plain any marking (some none) two w := by
  refine ⟨_, rfl, rfl, rfl, ?_⟩
  rintro ⟨d, hd, hrow, -⟩
  obtain rfl := Option.some.inj hd
  have hversion := congrArg (fun e : Event ℤ => e.state.VERSION) hrow
  exact absurd hversion (by decide)

end Toa.Storage.Reruns
