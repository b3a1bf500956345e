import Mathlib.Data.Int.Notation
import Mathlib.Data.Nat.Notation
import Mathlib.Tactic.SplitIfs
import Mathlib.Tactic.TypeStar

/-! The records a component stores, and how the MongoDB storage writes them and reads them back.
A property the entity declares as a moment is held as a date and carried as what it was declared;
every other value is opaque, and belongs to a type `J`. -/

namespace Toa.Storage

/-- What a property holds. A property that is not there reads as `undefined`, as in the source. -/
inductive Value (J : Type*)
  | undefined
  | null
  | json (j : J)
  | date (ms : ℤ)
  deriving DecidableEq, Repr

/-- The upper-cased names are the runtime's, and everything else is a property of the component. -/
@[ext] structure Record (J : Type*) where
  id : String
  VERSION : ℕ
  CREATED : Option ℤ
  UPDATED : Option ℤ
  DELETED : Option ℤ
  REGION : Option ℕ
  properties : String → Value J

/-- A record in a collection. A record is held there from its first write on, which made it
version `1`, so none is at version `0`. -/
@[ext] structure Document (J : Type*) extends Record J where
  version_pos : 0 < VERSION

/-- `query` aside, what an assignment sets: a name it holds is set, and one it does not is kept. -/
@[ext] structure Changeset (J : Type*) where
  id : Option String
  VERSION : Option ℕ
  CREATED : Option ℤ
  UPDATED : Option ℤ
  /-- absent, the `null` of a live record, or a tombstone's timestamp -/
  DELETED : Option (Option ℤ)
  REGION : Option ℕ
  properties : String → Option (Value J)

/-- `Changeset.set`: the version is not the algorithm's to write, and the timestamp is not either. -/
def Changeset.set {J : Type*} (now : ℤ) (value : Changeset J) : Changeset J :=
  { value with VERSION := none, UPDATED := some now }

inductive Format
  | dateTime
  | epochMillis
  deriving DecidableEq, Repr

/-- `codec(properties)`: the properties declared as moments, by what each is written on, and the
platform's reading and spelling of one. A moment is spelled as the text or the number that reads
back as it. -/
structure Codec (J : Type*) where
  moments : String → Option Format
  /-- `new Date(value).getTime()` -/
  time : Format → J → ℤ
  /-- `toISOString` of a `date-time`, `getTime` of an `epoch-millis` -/
  spell : Format → ℤ → J
  time_spell : ∀ format ms, time format (spell format ms) = ms

namespace Codec

def plain : Codec ℤ where
  moments := fun _ => none
  time := fun _ j => j
  spell := fun _ ms => ms
  time_spell := fun _ _ => rfl

variable {J : Type*} (codec : Codec J)

/-- `date`, over what `convert` does not skip. -/
def write (name : String) (value : Value J) : Value J :=
  match codec.moments name, value with
  | some format, .json j => .date (codec.time format j)
  | _, v => v

/-- `READ`: what is no date is answered as it is. -/
def read (name : String) (value : Value J) : Value J :=
  match codec.moments name, value with
  | some format, .date ms => .json (codec.spell format ms)
  | _, v => v

/-- `to` -/
def toDocument (record : Record J) : Record J :=
  { record with properties := fun name => codec.write name (record.properties name) }

/-- `from` -/
def fromDocument (record : Record J) : Record J :=
  { record with properties := fun name => codec.read name (record.properties name) }

def changes (changeset : Changeset J) : Changeset J :=
  { changeset with properties := fun name => (changeset.properties name).map (codec.write name) }

@[simp] theorem toDocument_id (r : Record J) : (codec.toDocument r).id = r.id := rfl
@[simp] theorem toDocument_VERSION (r : Record J) : (codec.toDocument r).VERSION = r.VERSION := rfl
@[simp] theorem toDocument_CREATED (r : Record J) : (codec.toDocument r).CREATED = r.CREATED := rfl
@[simp] theorem toDocument_UPDATED (r : Record J) : (codec.toDocument r).UPDATED = r.UPDATED := rfl
@[simp] theorem toDocument_DELETED (r : Record J) : (codec.toDocument r).DELETED = r.DELETED := rfl
@[simp] theorem toDocument_REGION (r : Record J) : (codec.toDocument r).REGION = r.REGION := rfl
@[simp] theorem toDocument_properties (r : Record J) (name : String) :
    (codec.toDocument r).properties name = codec.write name (r.properties name) := rfl
@[simp] theorem fromDocument_id (r : Record J) : (codec.fromDocument r).id = r.id := rfl
@[simp] theorem fromDocument_VERSION (r : Record J) : (codec.fromDocument r).VERSION = r.VERSION := rfl
@[simp] theorem fromDocument_CREATED (r : Record J) : (codec.fromDocument r).CREATED = r.CREATED := rfl
@[simp] theorem fromDocument_UPDATED (r : Record J) : (codec.fromDocument r).UPDATED = r.UPDATED := rfl
@[simp] theorem fromDocument_DELETED (r : Record J) : (codec.fromDocument r).DELETED = r.DELETED := rfl
@[simp] theorem fromDocument_REGION (r : Record J) : (codec.fromDocument r).REGION = r.REGION := rfl
@[simp] theorem fromDocument_properties (r : Record J) (name : String) :
    (codec.fromDocument r).properties name = codec.read name (r.properties name) := rfl

theorem write_read_write (name : String) (v : Value J) :
    codec.write name (codec.read name (codec.write name v)) = codec.write name v := by
  unfold write read
  cases codec.moments name with
  | none => rfl
  | some format => cases v <;> simp only [codec.time_spell]

theorem write_eq_undefined {name : String} {v : Value J} :
    codec.write name v = .undefined ↔ v = .undefined := by
  unfold write
  cases codec.moments name <;> cases v <;> simp only [reduceCtorEq]

theorem write_read_eq_undefined {name : String} {v : Value J} :
    codec.write name (codec.read name v) = .undefined ↔ v = .undefined := by
  rw [write_eq_undefined]
  unfold read
  cases codec.moments name <;> cases v <;> simp only [reduceCtorEq]

theorem toDocument_fromDocument (r : Record J) :
    codec.toDocument (codec.fromDocument (codec.toDocument r)) = codec.toDocument r := by
  refine Record.ext rfl rfl rfl rfl rfl rfl (funext fun name => ?_)
  exact codec.write_read_write name (r.properties name)

end Codec

/-- A record whose only property is `p`. -/
def note (p : ℤ) : Record ℤ where
  id := "k"
  VERSION := 0
  CREATED := none
  UPDATED := none
  DELETED := none
  REGION := none
  properties := fun name => if name = "p" then .json p else .undefined

end Toa.Storage
