import Toa.Storage.OutboxImage

/-! The post-image of an assignment is computed of what was read, and the store is told what to set
and what to increment. The two agree on a property exactly where what was set is what is read of
it: a moment that is spelled as the platform spells it, a value the driver writes as it is, and
nothing where nothing was stored. -/

namespace Toa.Storage.PostImage

universe u
variable {J : Type u}

section
variable (codec : Codec J) (driver : J → J)

/-- What is read of a value the driver has written. It is given objects, and leaves out of them
what is `undefined`; in an array it writes `null` for that. A date is of milliseconds, and is read
as it was. -/
def driven : Value J → Value J
  | .json j => .json (driver j)
  | v => v

/-- `$set: this.#changes(changeset)` -/
def sent (changeset : Changeset J) : Changeset J :=
  let encoded := codec.changes changeset
  { encoded with properties := fun name => (encoded.properties name).map (driven driver) }

def upsert (c : Collection J) (query : Query J) (found : String) (changeset : Changeset J) :
    Option (Collection J × Record J) :=
  (selected c query found changeset).map fun stored =>
    (c.put (assigned stored (sent codec driver (live query changeset).2)),
      postImage (codec.fromDocument stored.toRecord) (live query changeset).2)

/-- A property that is set to `value` over `stored` is read as it was set. -/
def Reads (name : String) (value stored : Value J) : Prop :=
  match value, codec.moments name with
  | .undefined, _ => stored = .undefined
  | .null, _ => True
  | .json j, none => driver j = j
  | .json j, some format => codec.spell format (codec.time format j) = j
  | .date _, moment => moment = none

/-- Every property a changeset sets is read as it was set, and it names no other record. -/
def Exact (changeset : Changeset J) (stored : Document J) : Prop :=
  (∀ id, changeset.id = some id → id = stored.id) ∧
    ∀ name value, changeset.properties name = some value →
      Reads codec driver name value (stored.properties name)

end

section
variable {codec : Codec J} {driver : J → J}

theorem read_set_iff {name : String} {value stored : Value J} :
    codec.read name ((driven driver (codec.write name value)).over stored) = value ↔
      Reads codec driver name value stored := by
  unfold Reads Codec.write Codec.read
  cases value with
  | undefined =>
    cases codec.moments name with
    | none => exact Iff.rfl
    | some format => cases stored <;> simp only [driven, Value.over, reduceCtorEq]
  | null => cases codec.moments name <;> simp only [driven, Value.over]
  | json j =>
    cases codec.moments name with
    | none => simp only [driven, Value.over, Value.json.injEq]
    | some format => simp only [driven, Value.over, Value.json.injEq]
  | date ms => cases codec.moments name <;> simp only [driven, Value.over, reduceCtorEq]

theorem read_stored_iff {changeset : Changeset J} {stored : Document J} {name : String} :
    codec.read name ((assigned stored (sent codec driver changeset)).properties name) =
        (changeset.properties name).getD (codec.read name (stored.properties name)) ↔
      ∀ value, changeset.properties name = some value →
        Reads codec driver name value (stored.properties name) := by
  simp only [assigned, sent, Codec.changes, Option.map_map]
  cases changeset.properties name with
  | none => simp only [Option.map_none, Option.getD_none, Value.over, reduceCtorEq, false_implies,
      implies_true]
  | some value =>
    simp only [Option.map_some, Option.getD_some, Function.comp_apply, Option.some.injEq,
      forall_eq', read_set_iff]

theorem read_back_iff {changeset : Changeset J} {stored : Document J}
    (hdeleted : changeset.DELETED ≠ none) :
    codec.fromDocument (assigned stored (sent codec driver changeset)).toRecord =
        postImage (codec.fromDocument stored.toRecord) changeset ↔
      Exact codec driver changeset stored := by
  obtain ⟨deleted, hdel⟩ := Option.ne_none_iff_exists'.mp hdeleted
  have hid : stored.id = changeset.id.getD stored.id ↔
      ∀ id, changeset.id = some id → id = stored.id := by
    cases changeset.id with
    | none => simp
    | some id => simp [eq_comm]
  rw [Record.ext_iff, funext_iff]
  change (stored.id = changeset.id.getD stored.id ∧ stored.VERSION + 1 = stored.VERSION + 1 ∧
    changeset.CREATED.or stored.CREATED = changeset.CREATED.or stored.CREATED ∧
    changeset.UPDATED.or stored.UPDATED = changeset.UPDATED.or stored.UPDATED ∧
    changeset.DELETED.getD stored.DELETED = changeset.DELETED.getD stored.DELETED ∧
    changeset.REGION.or stored.REGION = changeset.REGION.or stored.REGION ∧
    ∀ name, codec.read name ((assigned stored (sent codec driver changeset)).properties name) =
      (changeset.properties name).getD (codec.read name (stored.properties name))) ↔ _
  simp only [hid, read_stored_iff, true_and]
  rfl

/-- What an assignment answers is what the document it left reads as, exactly where every property
it set reads as it was set. -/
theorem answer_iff {c c' : Collection J} {query : Query J} {found : String}
    {changeset : Changeset J} {answer : Record J}
    (h : upsert codec driver c query found changeset = some (c', answer)) :
    (c' found).map (fun d => codec.fromDocument d.toRecord) = some answer ↔
      ∀ stored, c found = some stored → Exact codec driver changeset stored := by
  obtain ⟨stored, hsel, heq⟩ := Option.map_eq_some_iff.mp h
  obtain ⟨rfl, rfl⟩ := Prod.mk.inj heq
  have hstored : c found = some stored := (Option.filter_eq_some_iff.mp hsel).1
  have hput : c.put (assigned stored (sent codec driver (live query changeset).2)) found =
      some (assigned stored (sent codec driver (live query changeset).2)) := by
    rw [← c.keyed found stored hstored]
    exact Collection.put_self _ _
  obtain ⟨deleted, hlive⟩ := live_changeset query changeset
  have hdeleted : (live query changeset).2.DELETED ≠ none := by
    rw [hlive]
    exact Option.some_ne_none _
  rw [hput, Option.map_some, Option.some.injEq, read_back_iff hdeleted, hlive]
  constructor
  · intro hexact other hother
    rwa [← Option.some.inj (hstored.symm.trans hother)]
  · exact fun hall => hall stored hstored

end

/-! ## A moment -/

/-- The text of a moment, with whether it is the one `toISOString` answers. -/
abbrev Text := ℤ × Bool

/-- A component that declares `at` a date-time. -/
def dated : Codec Text where
  moments := fun name => if name = "at" then some .dateTime else none
  time := fun _ text => text.1
  spell := fun _ ms => (ms, true)
  time_spell := fun _ _ => rfl

def scheduled : Document Text where
  id := "k"
  VERSION := 1
  CREATED := some 0
  UPDATED := some 0
  DELETED := none
  REGION := some 0
  properties := fun name => if name = "at" then .date 0 else .undefined
  version_pos := Nat.one_pos

def moving (text : Text) : Changeset Text where
  id := none
  VERSION := none
  CREATED := none
  UPDATED := some 9
  DELETED := none
  REGION := none
  properties := fun name => if name = "at" then some (.json text) else none

theorem answer_spelled :
    ∃ left answer, upsert dated id (Collection.empty.put scheduled) ⟨none, fun _ => true⟩ "k"
        (moving (5000, true)) = some (left, answer) ∧
      (left "k").map (fun d => dated.fromDocument d.toRecord) = some answer := by
  have hrun : ∃ left answer, upsert dated id (Collection.empty.put scheduled) ⟨none, fun _ => true⟩
      "k" (moving (5000, true)) = some (left, answer) := ⟨_, _, rfl⟩
  obtain ⟨left, answer, h⟩ := hrun
  refine ⟨left, answer, h, (answer_iff h).mpr fun stored _ => ⟨fun _ hid => (nomatch hid), ?_⟩⟩
  intro name value hset
  simp only [moving] at hset
  split_ifs at hset with hname
  obtain rfl := Option.some.inj hset
  subst hname
  rfl

/-- `2024-05-01T12:00:05Z` is a date-time, and is read as `2024-05-01T12:00:05.000Z`. -/
theorem answer_respelled :
    ∃ left answer, upsert dated id (Collection.empty.put scheduled) ⟨none, fun _ => true⟩ "k"
        (moving (1714564805000, false)) = some (left, answer) ∧
      (left "k").map (fun d => dated.fromDocument d.toRecord) ≠ some answer := by
  refine ⟨_, _, rfl, fun h => ?_⟩
  have hat := congrArg (Option.map fun r : Record Text => r.properties "at") h
  exact absurd hat (by decide)

end Toa.Storage.PostImage
