import Toa.Storage.Record

/-! An entity holds one record for one operation: the record as it was read, and the state an
algorithm left of it, stamped with what a write is. The clock and the rank of the region are
arguments, where the source reads the environment. -/

namespace Toa.Storage
variable {J : Type*}

/-- What a component declares its records to be: the schema, as the error of what does not fit,
and the guards, each told the value and what it is about to replace. -/
structure Declaration (J : Type*) where
  fit : Record J → Option String
  guards : List (String × (Record J → Option (Record J) → Bool))

def Declaration.any (J : Type*) : Declaration J := ⟨fun _ => none, []⟩

inductive EntityException
  | immutable
  | guard (name : String)
  | contract (error : String)
  deriving DecidableEq, Repr

structure Entity (J : Type*) where
  deleted : Bool
  origin : Option (Record J)
  state : Record J
  mutable : Bool

/-- An entity an algorithm's value has been set to, which is what a commit is of. -/
structure Modified (J : Type*) extends Entity J where
  version_pos : 0 < state.VERSION

structure Event (J : Type*) where
  origin : Option (Record J)
  state : Record J

namespace Entity

/-- The part of `#write` that fills in what a storage did not. -/
def fill (region : ℕ) (now : ℤ) (value : Record J) : Record J :=
  let created := value.CREATED.getD now
  { value with
    CREATED := some created
    UPDATED := some (value.UPDATED.getD created)
    REGION := some (value.REGION.getD region) }

/-- The part of `#write` that says what a write did, which follows `fill` where there is a state
to write over. -/
def stamp (region : ℕ) (now : ℤ) (value : Record J) : Record J :=
  { value with
    UPDATED := some now
    VERSION := value.VERSION + 1
    REGION := some region }

/-- `#acquire` -/
def object (region : ℕ) (now : ℤ) (record : Record J) (mutable : Bool) : Entity J where
  deleted := record.DELETED.isSome
  origin := if mutable then some record else none
  state := fill region now record
  mutable := mutable

/-- `#compose`, and the write of what it composed. -/
def init (region : ℕ) (now : ℤ) (blank : String → Value J) (id : String) : Entity J where
  deleted := false
  origin := none
  state := fill region now
    { id := id, VERSION := 0, CREATED := none, UPDATED := none, DELETED := none,
      REGION := some region, properties := blank }
  mutable := true

def revive (origin : Option (Record J)) (value : Record J) : Record J :=
  match origin with
  | none => value
  | some o =>
    if o.DELETED ≠ none ∧ value.DELETED = o.DELETED then { value with DELETED := none } else value

def set (declaration : Declaration J) (region : ℕ) (now : ℤ) (e : Entity J) (value : Record J) :
    Except EntityException (Modified J) :=
  if e.mutable = false then .error .immutable
  else match declaration.guards.find? (fun guard => guard.2 value e.origin = false) with
    | some guard => .error (.guard guard.1)
    | none => match declaration.fit value with
      | some error => .error (.contract error)
      | none =>
        let revived := revive e.origin value
        .ok {
          deleted := revived.DELETED.isSome || (e.deleted && value.DELETED == revived.DELETED)
          origin := e.origin
          state := stamp region now (fill region now revived)
          mutable := true
          version_pos := Nat.succ_pos _ }

def event (e : Entity J) : Event J := ⟨e.origin, e.state⟩

/-- What `set` makes of a value, where it takes it: the region and the version are this write's. -/
theorem set_ok {declaration : Declaration J} {region : ℕ} {now : ℤ} {e : Entity J}
    {value : Record J} {m : Modified J} (h : set declaration region now e value = .ok m) :
    m.origin = e.origin ∧ m.state = stamp region now (fill region now (revive e.origin value)) := by
  unfold set at h
  split_ifs at h
  split at h
  · exact absurd h (by simp)
  split at h
  · exact absurd h (by simp)
  · obtain rfl := Except.ok.inj h
    exact ⟨rfl, rfl⟩

theorem set_REGION {declaration : Declaration J} {region : ℕ} {now : ℤ} {e : Entity J}
    {value : Record J} {m : Modified J} (h : set declaration region now e value = .ok m) :
    m.state.REGION = some region := by
  rw [(set_ok h).2]
  rfl

end Entity
end Toa.Storage
