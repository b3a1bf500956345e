import Toa.Storage.Entries

/-! What a transition commits of the entities it acquired, once an algorithm has changed the states it
was handed in place. Guards and the schema are the component's, and the clock is read where a state is
set. -/

namespace Toa.Storage.Transition
open Entries

universe u
variable {J : Type u}

/-- A state as an algorithm leaves it, and when it is set. -/
structure Left (J : Type u) where
  record : Record J
  DISCARD : Bool
  moment : ℤ

inductive Exception
  /-- `Objects array must not be modified` -/
  | modified
  | entity (exception : EntityException)

inductive Scope (J : Type u)
  | entity (entity : Entity J) (state : Left J)
  | set (set : List (Entity J)) (state : List (Left J))

/-- The entities acquired, as a commit leaves them, and those it is of. -/
structure Outcome (J : Type u) where
  entities : List (Entity J)
  committed : Except Exception (List (Modified J))

def changed (entity : Entity J) (state : Left J) : Entity J := { entity with state := state.record }

section
variable (declaration : Declaration J) (region : ℕ)

/-- `EntitySet.set`, one entity after another: what is set before one that raises has been set. -/
def setEach : List (Entity J) → List (Left J) → List (Entity J) × Except EntityException (List (Modified J))
  | entity :: set, value :: values =>
    if value.DISCARD = true then
      (changed entity value :: (setEach set values).1, (setEach set values).2)
    else match entity.set declaration region value.moment value.record with
      | .error exception => (changed entity value :: List.zipWith changed set values, .error exception)
      | .ok modified =>
        (modified.toEntity :: (setEach set values).1, (setEach set values).2.map (modified :: ·))
  | _, _ => ([], .ok [])

def records (committed : List (Modified J)) : List (Record J) := committed.map (·.state)

def events (committed : List (Modified J)) : List (Event J) := committed.map (·.event)

/-- `commit`, up to what the storage is given. -/
def commit (failed : Bool) : Scope J → Outcome J
  | .entity entity state =>
    if failed = true ∨ state.DISCARD = true then ⟨[changed entity state], .ok []⟩
    else match entity.set declaration region state.moment state.record with
      | .error exception => ⟨[changed entity state], .error (.entity exception)⟩
      | .ok modified => ⟨[modified.toEntity], .ok [modified]⟩
  | .set set state =>
    if failed = true then ⟨List.zipWith changed set state, .ok []⟩
    else if state.length ≠ set.length then ⟨set, .error .modified⟩
    else ⟨(setEach declaration region set state).1,
      (setEach declaration region set state).2.mapError .entity⟩

end

/-! ## What is read, and what is left of it -/

inductive Read (J : Type u)
  | blank (id : String)
  | stored (record : Record J)

namespace Read

def entity (f : Factory J) : Read J → Entity J
  | .blank id => f.init id
  | .stored record => f.object record true

def origin : Read J → Option (Record J)
  | .blank _ => none
  | .stored record => some record

def VERSION (read : Read J) : ℕ := read.origin.elim 0 (·.VERSION)

def DELETED (read : Read J) : Option ℤ := read.origin.bind (·.DELETED)

end Read

structure Change (J : Type u) where
  read : Read J
  left : Left J

def Change.Kept (f : Factory J) (change : Change J) : Prop :=
  change.left.record.id = (change.read.entity f).state.id ∧
    change.left.record.VERSION = (change.read.entity f).state.VERSION

inductive Acquired (J : Type u)
  | entity (change : Change J)
  | set (changes : List (Change J))

namespace Acquired

def changes : Acquired J → List (Change J)
  | .entity change => [change]
  | .set changes => changes

def scope (f : Factory J) : Acquired J → Scope J
  | .entity change => .entity (change.read.entity f) change.left
  | .set changes => .set (changes.map (·.read.entity f)) (changes.map (·.left))

def committing (failed : Bool) (acquired : Acquired J) : List (Change J) :=
  if failed = true then [] else acquired.changes.filter (!·.left.DISCARD)

end Acquired

def takes (declaration : Declaration J) (change : Change J) : Bool :=
  (declaration.guards.all fun guard => guard.2 change.left.record change.read.origin) &&
    (declaration.fit change.left.record).isNone

structure Follows (f : Factory J) (change : Change J) (m : Modified J) : Prop where
  id : m.state.id = (change.read.entity f).state.id
  VERSION : m.state.VERSION = change.read.VERSION + 1
  REGION : m.state.REGION = some f.region
  UPDATED : m.state.UPDATED = some change.left.moment
  DELETED : m.state.DELETED =
    if change.read.DELETED ≠ none ∧ change.left.record.DELETED = change.read.DELETED then none
    else change.left.record.DELETED
  properties : m.state.properties = change.left.record.properties
  deleted : m.deleted = m.state.DELETED.isSome

/-- Nothing is committed where `set` raises, and otherwise what is not discarded, in its order, with the
event of each beside it. -/
structure Consistent (f : Factory J) (failed : Bool) (acquired : Acquired J) (outcome : Outcome J) : Prop where
  origins : outcome.entities.map (·.origin) = acquired.changes.map (·.read.origin)
  written : ∀ ms, outcome.committed = .ok ms → List.Forall₂ (Follows f) (acquired.committing failed) ms
  events : ∀ ms, outcome.committed = .ok ms → events ms =
    List.zipWith (fun change record => ⟨change.read.origin, record⟩) (acquired.committing failed) (records ms)

/-! ## Setting one state -/

section
variable {declaration : Declaration J} {f : Factory J} {change : Change J}

@[simp] theorem origin_changed (entity : Entity J) (state : Left J) :
    (changed entity state).origin = entity.origin := rfl

theorem Read.origin_entity (read : Read J) : (read.entity f).origin = read.origin := by
  cases read <;> rfl

theorem Read.mutable_entity (read : Read J) : (read.entity f).mutable = true := by
  cases read <;> rfl

theorem Read.deleted_entity (read : Read J) : (read.entity f).deleted = read.DELETED.isSome := by
  cases read <;> rfl

theorem Read.VERSION_entity (read : Read J) : (read.entity f).state.VERSION = read.VERSION := by
  cases read <;> rfl

def written (f : Factory J) (change : Change J) : Record J :=
  Entity.stamp f.region change.left.moment (Entity.fill f.region change.left.moment
    (Entity.revive change.read.origin change.left.record))

section
variable {region : ℕ} {now : ℤ} {e : Entity J} {value : Record J}

theorem set_error (hmutable : e.mutable = true)
    (h : ¬(declaration.guards.find? (fun guard => guard.2 value e.origin = false) = none ∧
      declaration.fit value = none)) :
    ∃ exception, e.set declaration region now value = .error exception := by
  have hnot : ¬e.mutable = false := by
    rw [hmutable]
    exact Bool.noConfusion
  rw [Entity.set, if_neg hnot]
  split
  · exact ⟨_, rfl⟩
  · rename_i hguards
    split
    · exact ⟨_, rfl⟩
    · rename_i hfit
      exact absurd ⟨hguards, hfit⟩ h

theorem exists_set (hmutable : e.mutable = true)
    (hguards : declaration.guards.find? (fun guard => guard.2 value e.origin = false) = none)
    (hfit : declaration.fit value = none) :
    ∃ m : Modified J, e.set declaration region now value = .ok m ∧
      m.deleted = ((Entity.revive e.origin value).DELETED.isSome ||
        (e.deleted && value.DELETED == (Entity.revive e.origin value).DELETED)) := by
  have hnot : ¬e.mutable = false := by
    rw [hmutable]
    exact Bool.noConfusion
  rw [Entity.set, if_neg hnot, hguards]
  simp only [hfit]
  exact ⟨_, rfl, rfl⟩

end

theorem takes_iff : takes declaration change = true ↔
    declaration.guards.find? (fun guard =>
      guard.2 change.left.record (change.read.entity f).origin = false) = none ∧
        declaration.fit change.left.record = none := by
  rw [takes, Bool.and_eq_true, List.all_eq_true, List.find?_eq_none, Option.isNone_iff_eq_none,
    Read.origin_entity]
  simp only [decide_eq_true_eq, Bool.not_eq_false]

theorem DELETED_written : (written f change).DELETED =
    if change.read.DELETED ≠ none ∧ change.left.record.DELETED = change.read.DELETED then none
    else change.left.record.DELETED := by
  obtain ⟨read, left⟩ := change
  cases read with
  | blank id => rfl
  | stored record =>
    have hfill : (written f ⟨.stored record, left⟩).DELETED =
      (Entity.revive (some record) left.record).DELETED := rfl
    have hread : (Read.stored record).DELETED = record.DELETED := rfl
    rw [hfill, Entity.revive, hread]
    split_ifs <;> rfl

theorem follows_iff (hkept : change.Kept f) {m : Modified J}
    (hm : (change.read.entity f).set declaration f.region change.left.moment change.left.record = .ok m)
    (hdeleted : m.deleted = ((written f change).DELETED.isSome ||
      (change.read.DELETED.isSome && change.left.record.DELETED == (written f change).DELETED))) :
    Follows f change m ↔ (change.read.DELETED ≠ none → change.left.record.DELETED ≠ none) := by
  have hstate : m.state = written f change := by
    rw [(Entity.set_ok hm).2, Read.origin_entity]
    rfl
  have hrevive : ∀ origin, (Entity.revive origin change.left.record).id = change.left.record.id ∧
      (Entity.revive origin change.left.record).VERSION = change.left.record.VERSION ∧
      (Entity.revive origin change.left.record).properties = change.left.record.properties := by
    intro origin
    cases origin with
    | none => exact ⟨rfl, rfl, rfl⟩
    | some record =>
      rw [Entity.revive]
      split_ifs <;> exact ⟨rfl, rfl, rfl⟩
  constructor
  · intro h hread hcleared
    have hflag := h.deleted
    rw [hdeleted, hstate, DELETED_written, hcleared, if_neg fun h => hread h.2.symm,
      Option.isSome_iff_ne_none.mpr hread] at hflag
    cases hflag
  · intro h
    refine ⟨?_, ?_, ?_, ?_, ?_, ?_, ?_⟩ <;> try rw [hstate]
    · exact (hrevive _).1.trans hkept.1
    · refine congrArg (· + 1) ((hrevive _).2.1.trans ?_)
      rw [hkept.2, Read.VERSION_entity]
    · rfl
    · rfl
    · exact DELETED_written
    · exact (hrevive _).2.2
    · rw [hdeleted]
      cases hgone : (written f change).DELETED with
      | some moment => rfl
      | none =>
        rw [Option.isSome_none, Bool.false_or, Bool.and_eq_false_iff]
        by_cases hread : change.read.DELETED = none
        · exact .inl (Option.isSome_eq_false_iff.mpr (Option.isNone_iff_eq_none.mpr hread))
        · exact .inr (beq_eq_false_iff_ne.mpr (h hread))

/-! ## Setting a set of them -/

structure SetTo (declaration : Declaration J) (f : Factory J) (change : Change J) (m : Modified J) : Prop where
  eq : (change.read.entity f).set declaration f.region change.left.moment change.left.record = .ok m
  deleted : m.deleted = ((written f change).DELETED.isSome ||
    (change.read.DELETED.isSome && change.left.record.DELETED == (written f change).DELETED))

theorem exists_setTo (h : takes declaration change = true) : ∃ m, SetTo declaration f change m := by
  obtain ⟨hguards, hfit⟩ := (takes_iff (f := f)).mp h
  obtain ⟨m, hm, hdeleted⟩ := exists_set change.read.mutable_entity hguards hfit
  rw [Read.origin_entity, Read.deleted_entity] at hdeleted
  exact ⟨m, hm, hdeleted⟩

theorem exists_refused (h : ¬takes declaration change = true) : ∃ exception,
    (change.read.entity f).set declaration f.region change.left.moment change.left.record =
      .error exception :=
  set_error change.read.mutable_entity (mt takes_iff.mpr h)

variable (declaration f) in
/-- What `setEach` makes of changes. -/
def setChanges (changes : List (Change J)) : List (Entity J) × Except EntityException (List (Modified J)) :=
  setEach declaration f.region (changes.map (·.read.entity f)) (changes.map (·.left))

theorem setChanges_discarded {changes : List (Change J)} (h : change.left.DISCARD = true) :
    setChanges declaration f (change :: changes) =
      (changed (change.read.entity f) change.left :: (setChanges declaration f changes).1,
        (setChanges declaration f changes).2) := by
  rw [setChanges, List.map_cons, List.map_cons, setEach, if_pos h]
  rfl

theorem setChanges_refused {changes : List (Change J)} {exception : EntityException}
    (h : change.left.DISCARD = false)
    (hset : (change.read.entity f).set declaration f.region change.left.moment change.left.record =
      .error exception) :
    setChanges declaration f (change :: changes) =
      (changed (change.read.entity f) change.left ::
        changes.map (fun change => changed (change.read.entity f) change.left), .error exception) := by
  rw [setChanges, List.map_cons, List.map_cons, setEach, if_neg (Bool.eq_false_iff.mp h), hset,
    List.zipWith_map, List.zipWith_self]

theorem setChanges_set {changes : List (Change J)} {m : Modified J} (h : change.left.DISCARD = false)
    (hset : (change.read.entity f).set declaration f.region change.left.moment change.left.record = .ok m) :
    setChanges declaration f (change :: changes) =
      (m.toEntity :: (setChanges declaration f changes).1,
        (setChanges declaration f changes).2.map (m :: ·)) := by
  rw [setChanges, List.map_cons, List.map_cons, setEach, if_neg (Bool.eq_false_iff.mp h), hset]
  rfl

theorem origin_setChanges (changes : List (Change J)) :
    (setChanges declaration f changes).1.map (·.origin) = changes.map (·.read.origin) := by
  induction changes with
  | nil => rfl
  | cons change changes ih =>
    have hhead : (change.read.entity f).origin = change.read.origin := change.read.origin_entity
    cases hdiscard : change.left.DISCARD with
    | true => rw [setChanges_discarded hdiscard, List.map_cons, ih, origin_changed, hhead, List.map_cons]
    | false =>
      by_cases htakes : takes declaration change = true
      · obtain ⟨m, hm⟩ := exists_setTo (f := f) htakes
        rw [setChanges_set hdiscard hm.eq, List.map_cons, ih, (Entity.set_ok hm.eq).1, hhead, List.map_cons]
      · obtain ⟨exception, hset⟩ := exists_refused (f := f) htakes
        have hrest : (changes.map fun change => changed (change.read.entity f) change.left).map (·.origin) =
            changes.map (·.read.origin) := by
          rw [List.map_map]
          exact List.map_congr_left fun change _ => change.read.origin_entity
        rw [setChanges_refused hdiscard hset, List.map_cons, hrest, origin_changed, hhead, List.map_cons]

theorem filter_discarded {changes : List (Change J)} (h : change.left.DISCARD = true) :
    (change :: changes).filter (!·.left.DISCARD) = changes.filter (!·.left.DISCARD) :=
  List.filter_cons_of_neg (by rw [h]; decide)

theorem filter_kept {changes : List (Change J)} (h : change.left.DISCARD = false) :
    (change :: changes).filter (!·.left.DISCARD) = change :: changes.filter (!·.left.DISCARD) :=
  List.filter_cons_of_pos (by rw [h]; decide)

theorem setChanges_ok {changes : List (Change J)}
    (h : ∀ change ∈ changes.filter (!·.left.DISCARD), takes declaration change = true) :
    ∃ ms, (setChanges declaration f changes).2 = .ok ms ∧
      List.Forall₂ (SetTo declaration f) (changes.filter (!·.left.DISCARD)) ms := by
  induction changes with
  | nil => exact ⟨[], rfl, .nil⟩
  | cons change changes ih =>
    cases hdiscard : change.left.DISCARD with
    | true =>
      rw [filter_discarded hdiscard] at h ⊢
      rw [setChanges_discarded hdiscard]
      exact ih h
    | false =>
      rw [filter_kept hdiscard] at h ⊢
      obtain ⟨htakes, hrest⟩ := List.forall_mem_cons.mp h
      obtain ⟨m, hm⟩ := exists_setTo (f := f) htakes
      obtain ⟨ms, hms, hall⟩ := ih hrest
      rw [setChanges_set hdiscard hm.eq, hms]
      exact ⟨m :: ms, rfl, .cons hm hall⟩

theorem setChanges_error {changes : List (Change J)}
    (h : ∃ change ∈ changes.filter (!·.left.DISCARD), ¬takes declaration change = true) :
    ∃ exception, (setChanges declaration f changes).2 = .error exception := by
  induction changes with
  | nil =>
    obtain ⟨change, hmem, -⟩ := h
    exact absurd hmem List.not_mem_nil
  | cons change changes ih =>
    cases hdiscard : change.left.DISCARD with
    | true =>
      rw [filter_discarded hdiscard] at h
      rw [setChanges_discarded hdiscard]
      exact ih h
    | false =>
      rw [filter_kept hdiscard] at h
      by_cases htakes : takes declaration change = true
      · -- this one is taken, so the one that is not is among the rest
        obtain ⟨m, hm⟩ := exists_setTo (f := f) htakes
        obtain ⟨other, hmem, hother⟩ := h
        have hrest : other ∈ changes.filter (!·.left.DISCARD) := by
          rcases List.mem_cons.mp hmem with rfl | hrest
          · exact absurd htakes hother
          · exact hrest
        obtain ⟨exception, hexception⟩ := ih ⟨other, hrest, hother⟩
        rw [setChanges_set hdiscard hm.eq, hexception]
        exact ⟨exception, rfl⟩
      · obtain ⟨exception, hset⟩ := exists_refused (f := f) htakes
        rw [setChanges_refused hdiscard hset]
        exact ⟨exception, rfl⟩

/-! ## Commits -/

theorem commit_eq (acquired : Acquired J) : (commit declaration f.region false (acquired.scope f)) =
    ⟨(setChanges declaration f acquired.changes).1,
      (setChanges declaration f acquired.changes).2.mapError .entity⟩ := by
  cases acquired with
  | entity change =>
    rw [Acquired.scope, Acquired.changes, commit]
    cases hdiscard : change.left.DISCARD with
    | true =>
      rw [if_pos (.inr rfl), setChanges_discarded hdiscard]
      rfl
    | false =>
      rw [if_neg (by simp)]
      by_cases htakes : takes declaration change = true
      · obtain ⟨m, hm⟩ := exists_setTo (f := f) htakes
        rw [hm.eq, setChanges_set hdiscard hm.eq]
        rfl
      · obtain ⟨exception, hset⟩ := exists_refused (f := f) htakes
        rw [hset, setChanges_refused hdiscard hset]
        rfl
  | set changes =>
    have hlength : ¬(changes.map (·.left)).length ≠ (changes.map (·.read.entity f)).length := by
      rw [List.length_map, List.length_map]
      exact fun h => h rfl
    rw [Acquired.scope, Acquired.changes, commit, if_neg Bool.false_ne_true, if_neg hlength]
    rfl

theorem commit_failed (acquired : Acquired J) :
    (commit declaration f.region true (acquired.scope f)).entities.map (·.origin) =
      acquired.changes.map (·.read.origin) ∧
    (commit declaration f.region true (acquired.scope f)).committed = .ok [] := by
  cases acquired with
  | entity change =>
    rw [Acquired.scope, Acquired.changes, commit, if_pos (.inl rfl)]
    exact ⟨congrArg ([·]) change.read.origin_entity, rfl⟩
  | set changes =>
    rw [Acquired.scope, Acquired.changes, commit, if_pos rfl, List.zipWith_map, List.zipWith_self,
      List.map_map]
    exact ⟨List.map_congr_left fun change _ => change.read.origin_entity, rfl⟩

theorem events_eq {changes : List (Change J)} {ms : List (Modified J)}
    (h : List.Forall₂ (SetTo declaration f) changes ms) : events ms =
      List.zipWith (fun change record => ⟨change.read.origin, record⟩) changes (records ms) := by
  induction h with
  | nil => rfl
  | @cons change m changes ms hm _ ih =>
    have horigin : m.origin = change.read.origin := (Entity.set_ok hm.eq).1.trans change.read.origin_entity
    have hevent : m.event = ⟨change.read.origin, m.state⟩ := by
      rw [← horigin]
      rfl
    rw [events, List.map_cons, hevent]
    exact congrArg (_ :: ·) ih

theorem follows_all {changes : List (Change J)} (hkept : ∀ change ∈ changes, change.Kept f)
    {ms : List (Modified J)} (h : List.Forall₂ (SetTo declaration f) changes ms) :
    List.Forall₂ (Follows f) changes ms ↔
      ∀ change ∈ changes, change.read.DELETED ≠ none → change.left.record.DELETED ≠ none := by
  induction h with
  | nil => exact iff_of_true .nil fun _ hmem => absurd hmem List.not_mem_nil
  | cons hm _ ih =>
    obtain ⟨hkept, hrest⟩ := List.forall_mem_cons.mp hkept
    rw [List.forall₂_cons, List.forall_mem_cons, ih hrest, follows_iff hkept hm.eq hm.deleted]

end

/-- What a transition commits follows from what it read, exactly where `set` raises or no tombstone is
cleared of what is committed. -/
theorem commit_consistent_iff (declaration : Declaration J) (f : Factory J) (failed : Bool)
    (acquired : Acquired J) (hkept : ∀ change ∈ acquired.changes, change.Kept f) :
    Consistent f failed acquired (commit declaration f.region failed (acquired.scope f)) ↔
      ((∀ change ∈ acquired.committing failed, takes declaration change = true) →
        ∀ change ∈ acquired.committing failed,
          change.read.DELETED ≠ none → change.left.record.DELETED ≠ none) := by
  cases failed with
  | true =>
    -- what fails commits nothing, and there is nothing to follow from
    obtain ⟨horigins, hcommitted⟩ := @commit_failed _ declaration f acquired
    refine iff_of_true ⟨horigins, fun ms hms => ?_, fun ms hms => ?_⟩ fun _ _ hmem => ?_
    · obtain rfl := Except.ok.inj (hcommitted.symm.trans hms)
      exact .nil
    · obtain rfl := Except.ok.inj (hcommitted.symm.trans hms)
      rfl
    · exact absurd hmem List.not_mem_nil
  | false =>
    have hkept' : ∀ change ∈ acquired.committing false, change.Kept f :=
      fun change hmem => hkept change (List.mem_filter.mp hmem).1
    have horigins := @origin_setChanges _ declaration f acquired.changes
    rw [commit_eq]
    by_cases htakes : ∀ change ∈ acquired.committing false, takes declaration change = true
    · obtain ⟨ms, hms, hall⟩ := setChanges_ok (f := f) htakes
      have hfollows := follows_all hkept' hall
      rw [hms]
      constructor
      · exact fun h _ => hfollows.mp (h.written ms rfl)
      · refine fun h => ⟨horigins, fun ms' hms' => ?_, fun ms' hms' => ?_⟩
        · obtain rfl := Except.ok.inj hms'
          exact hfollows.mpr (h htakes)
        · obtain rfl := Except.ok.inj hms'
          exact events_eq hall
    · obtain ⟨change, hrefused⟩ := not_forall.mp htakes
      obtain ⟨hmem, hrefused⟩ := Classical.not_imp.mp hrefused
      obtain ⟨exception, hexception⟩ := setChanges_error (f := f) ⟨change, hmem, hrefused⟩
      rw [hexception]
      refine iff_of_true ⟨horigins, fun ms hms => ?_, fun ms hms => ?_⟩ fun h => absurd h htakes
      · cases hms
      · cases hms

/-! ## A record that is revived by clearing its tombstone -/

def gone : Record ℤ where
  id := "a"
  VERSION := 3
  CREATED := some 0
  UPDATED := some 5
  DELETED := some 5
  REGION := some 1
  properties := fun _ => .undefined

def factory : Factory ℤ := ⟨0, 8, fun _ => .undefined⟩

theorem commit_revived : Consistent factory false (.entity ⟨.stored gone, ⟨gone, false, 9⟩⟩)
    (commit (.any ℤ) 0 false (.entity (factory.object gone true) ⟨gone, false, 9⟩)) :=
  (commit_consistent_iff (.any ℤ) factory false (.entity ⟨.stored gone, ⟨gone, false, 9⟩⟩)
    (List.forall_mem_singleton.mpr ⟨rfl, rfl⟩)).mpr fun _ =>
      List.forall_mem_singleton.mpr fun h => h

/-- What is no longer deleted is committed by an entity that says it is. -/
theorem cleared_stays_deleted :
    (∃ m : Modified ℤ, (commit (.any ℤ) 0 false (.entity (factory.object gone true)
        ⟨{ gone with DELETED := none }, false, 9⟩)).committed = .ok [m] ∧
      m.state.DELETED = none ∧ m.deleted = true) ∧
    ¬Consistent factory false (.entity ⟨.stored gone, ⟨{ gone with DELETED := none }, false, 9⟩⟩)
      (commit (.any ℤ) 0 false (.entity (factory.object gone true)
        ⟨{ gone with DELETED := none }, false, 9⟩)) := by
  refine ⟨⟨_, rfl, rfl, rfl⟩, fun h => ?_⟩
  have hall := h.written _ rfl
  cases (List.forall₂_cons.mp hall).1.deleted

end Toa.Storage.Transition
