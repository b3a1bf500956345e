import Mathlib.Logic.Function.Basic
import Mathlib.Tactic.ByCases
import Toa.Storage.Entity

/-! The write paths of the MongoDB storage, each as what it leaves in the collection it writes.
`none` is a write that committed nothing. What a query selects is the server's to say, so a write
that is made of a query is told which document was found. -/

namespace Toa.Storage
variable {J : Type*}

/-- A document is held under its own `_id`. -/
@[ext] structure Collection (J : Type*) where
  find : String → Option (Document J)
  keyed : ∀ id d, find id = some d → d.id = id

instance : CoeFun (Collection J) fun _ => String → Option (Document J) := ⟨Collection.find⟩

namespace Collection

def empty : Collection J := ⟨fun _ => none, fun _ _ h => nomatch h⟩

def put (c : Collection J) (d : Document J) : Collection J where
  find := Function.update c d.id (some d)
  keyed := by
    intro id e h
    by_cases hid : id = d.id
    · subst hid
      rw [Function.update_self] at h
      rw [Option.some.inj h]
    · rw [Function.update_of_ne hid] at h
      exact c.keyed id e h

@[simp] theorem put_self (c : Collection J) (d : Document J) : c.put d d.id = some d :=
  Function.update_self _ _ _

theorem put_of_ne (c : Collection J) {d : Document J} {id : String} (h : id ≠ d.id) :
    c.put d id = c id := Function.update_of_ne h _ _

end Collection

/-- The value a field is left with where it is set to `value` over `stored`: the driver leaves
out what is `undefined`. -/
def Value.over (value stored : Value J) : Value J :=
  match value with
  | .undefined => stored
  | v => v

/-- `translate(query)` of an assignment, where a condition on `DELETED` is apart from the rest:
the assignment of a live record puts it aside. -/
structure Query (J : Type*) where
  deleted : Option (Option ℤ → Bool)
  criteria : Document J → Bool

def Query.selects (query : Query J) (d : Document J) : Bool :=
  query.criteria d && query.deleted.all fun condition => condition d.DELETED

/-- The filter of an `ensure`: what it matches, and the fields the server starts a document with
where it matches nothing, which are those the filter holds equal to something. -/
structure Filter (J : Type*) where
  selects : Document J → Bool
  seeds : Changeset J

section
variable (codec : Codec J)

def document (m : Modified J) : Document J where
  toRecord := codec.toDocument m.state
  version_pos := m.version_pos

def add (c : Collection J) (d : Document J) : Option (Collection J) :=
  match c d.id with
  | none => some (c.put d)
  | some _ => none

def set (c : Collection J) (d : Document J) : Option (Collection J) :=
  match c d.id with
  | none => none
  | some stored => if stored.VERSION + 1 = d.VERSION then some (c.put d) else none

def store (c : Collection J) (m : Modified J) : Option (Collection J) :=
  if (document codec m).VERSION = 1 then add c (document codec m) else set c (document codec m)

/-- The `updateOne` of a `massStore` over a deleted document: `$set` of all but the version, and
`$inc` of that. -/
def revived (stored d : Document J) : Document J where
  id := stored.id
  VERSION := stored.VERSION + 1
  CREATED := d.CREATED.or stored.CREATED
  UPDATED := d.UPDATED.or stored.UPDATED
  DELETED := none
  REGION := d.REGION.or stored.REGION
  properties := fun name => (d.properties name).over (stored.properties name)
  version_pos := Nat.succ_pos _

/-- One operation of the bulk write, and the document it leaves. A version that moved and an
`_id` that collides both take the whole set down. -/
def massStoreOne (c : Collection J) (d : Document J) : Option (Document J) :=
  if d.VERSION = 1 then
    match c d.id with
    | none => some { d with DELETED := none }
    | some stored => if stored.DELETED = none then none else some (revived stored d)
  else match c d.id with
    | none => none
    | some stored => if stored.VERSION + 1 = d.VERSION then some d else none

def massStore (c : Collection J) : List (Modified J) → Option (Collection J × List (Document J))
  | [] => some (c, [])
  | m :: ms =>
    match massStoreOne c (document codec m) with
    | none => none
    | some d => (massStore (c.put d) ms).map fun (c', ds) => (c', d :: ds)

/-- `$set` of a changeset and `$inc` of the version. A field named `id` is overwritten on every
read, so it is not kept here. -/
def assigned (stored : Document J) (changeset : Changeset J) : Document J where
  id := stored.id
  VERSION := stored.VERSION + 1
  CREATED := changeset.CREATED.or stored.CREATED
  UPDATED := changeset.UPDATED.or stored.UPDATED
  DELETED := changeset.DELETED.getD stored.DELETED
  REGION := changeset.REGION.or stored.REGION
  properties := fun name => ((changeset.properties name).getD .undefined).over (stored.properties name)
  version_pos := Nat.succ_pos _

def live (query : Query J) (changeset : Changeset J) : Query J × Changeset J :=
  match changeset.DELETED with
  | some (some _) => (query, changeset)
  | _ => ({ query with deleted := none }, { changeset with DELETED := some none })

/-- `{ ...origin, ...changeset, VERSION: origin.VERSION + 1 }` -/
def postImage (origin : Record J) (changeset : Changeset J) : Record J where
  id := changeset.id.getD origin.id
  VERSION := origin.VERSION + 1
  CREATED := changeset.CREATED.or origin.CREATED
  UPDATED := changeset.UPDATED.or origin.UPDATED
  DELETED := changeset.DELETED.getD origin.DELETED
  REGION := changeset.REGION.or origin.REGION
  properties := fun name => (changeset.properties name).getD (origin.properties name)

/-- The document an assignment is made of: `found` is the one `findOneAndUpdate` chose of those the
query selects. A changeset that names the version is refused by the server, which is asked to set
and to increment one field. -/
def selected (c : Collection J) (query : Query J) (found : String) (changeset : Changeset J) :
    Option (Document J) :=
  (c found).filter fun stored =>
    (live query changeset).1.selects stored && changeset.VERSION.isNone

def upsert (c : Collection J) (query : Query J) (found : String) (changeset : Changeset J) :
    Option (Collection J × Event J) :=
  (selected c query found changeset).map fun stored =>
    let origin := codec.fromDocument stored.toRecord
    (c.put (assigned stored (codec.changes (live query changeset).2)),
      { origin := some origin, state := postImage origin (live query changeset).2 })

/-- What the server makes of a filter that matches nothing and `$setOnInsert`. -/
def inserted (filter : Filter J) (d : Document J) : Document J where
  id := d.id
  VERSION := d.VERSION
  CREATED := d.CREATED.or filter.seeds.CREATED
  UPDATED := d.UPDATED.or filter.seeds.UPDATED
  DELETED := d.DELETED
  REGION := d.REGION.or filter.seeds.REGION
  properties := fun name => (d.properties name).over ((filter.seeds.properties name).getD .undefined)
  version_pos := d.version_pos

/-- The collection, and the document the `findOneAndUpdate` of an `ensure` answered with: the one
found, or the one inserted. A filter that holds `_id` equal to another is one the server refuses
to insert for, and an `_id` that is taken collides. -/
def ensure (c : Collection J) (filter : Filter J) (found : Option String) (m : Modified J) :
    Option (Collection J × Document J) :=
  match found with
  | some id => match c id with
    | none => none
    | some stored => if filter.selects stored then some (c, stored) else none
  | none =>
    if filter.seeds.id.all (· = m.state.id) ∧ c m.state.id = none then
      let d := inserted filter (document codec m)
      some (c.put d, d)
    else none

def FIRST : ℕ := 0

/-- `supersedes`, where something is stored. A number is greater than the `null` that a record
without a region is compared with. -/
def supersedes (stored d : Document J) : Bool :=
  stored.VERSION < d.VERSION ||
    (stored.VERSION = d.VERSION && d.REGION.all (· < stored.REGION.getD FIRST))

def converge (c : Collection J) (d : Document J) : Collection J :=
  match c d.id with
  | none => c.put d
  | some stored => if supersedes stored d then c.put d else c

end

/-! ## What a local write commits -/

def Ascending (c : Collection J) : List (Document J) → Prop
  | [] => True
  | d :: ds => (∀ b, c d.id = some b → b.VERSION < d.VERSION) ∧ Ascending (c.put d) ds

theorem store_ascending {codec : Codec J} {c c' : Collection J} {m : Modified J}
    (h : store codec c m = some c') :
    c' = c.put (document codec m) ∧ Ascending c [document codec m] := by
  unfold store at h
  split_ifs at h with hv
  · unfold add at h
    cases hc : c (document codec m).id with
    | none =>
      rw [hc] at h
      refine ⟨(Option.some.inj h).symm, fun b hb => ?_, trivial⟩
      exact nomatch hc.symm.trans hb
    | some b => simp [hc] at h
  · unfold Storage.set at h
    cases hc : c (document codec m).id with
    | none => simp [hc] at h
    | some b =>
      simp only [hc] at h
      split_ifs at h with hb
      refine ⟨(Option.some.inj h).symm, fun b' hb' => ?_, trivial⟩
      obtain rfl := Option.some.inj (hc.symm.trans hb')
      omega

theorem massStoreOne_spec {c : Collection J} {d e : Document J} (h : massStoreOne c d = some e) :
    e.id = d.id ∧ (∀ b, c d.id = some b → b.VERSION < e.VERSION) ∧
      (d.REGION ≠ none → e.REGION = d.REGION) := by
  unfold massStoreOne at h
  split_ifs at h with hv
  · cases hc : c d.id with
    | none =>
      rw [hc] at h
      obtain rfl := Option.some.inj h
      exact ⟨rfl, fun b hb => (nomatch hb), fun _ => rfl⟩
    | some b =>
      simp only [hc] at h
      split_ifs at h
      obtain rfl := Option.some.inj h
      refine ⟨c.keyed d.id b hc, fun b' hb' => ?_, fun hr => ?_⟩
      · obtain rfl := Option.some.inj hb'
        exact Nat.lt_succ_self _
      · obtain ⟨r, hr⟩ := Option.ne_none_iff_exists'.mp hr
        simp only [revived, hr, Option.some_or]
  · cases hc : c d.id with
    | none => simp [hc] at h
    | some b =>
      simp only [hc] at h
      split_ifs at h with hb
      obtain rfl := Option.some.inj h
      refine ⟨rfl, fun b' hb' => ?_, fun _ => rfl⟩
      obtain rfl := Option.some.inj hb'
      omega

theorem massStore_ascending {codec : Codec J} {rank : ℕ} {ms : List (Modified J)}
    (hr : ∀ m ∈ ms, m.state.REGION = some rank) {c c' : Collection J} {ds : List (Document J)}
    (h : massStore codec c ms = some (c', ds)) :
    c' = ds.foldl Collection.put c ∧ Ascending c ds ∧ ∀ d ∈ ds, d.REGION = some rank := by
  induction ms generalizing c ds with
  | nil =>
    obtain ⟨rfl, rfl⟩ := Prod.mk.inj (Option.some.inj h)
    exact ⟨rfl, trivial, fun d hd => nomatch hd⟩
  | cons m ms ih =>
    simp only [massStore] at h
    cases hone : massStoreOne c (document codec m) with
    | none => simp [hone] at h
    | some d =>
      simp only [hone, Option.map_eq_some_iff] at h
      obtain ⟨⟨c₁, ds₁⟩, hrest, heq⟩ := h
      obtain ⟨rfl, rfl⟩ := Prod.mk.inj heq
      obtain ⟨hid, hlt, hreg⟩ := massStoreOne_spec hone
      obtain ⟨hfold, hasc, hall⟩ := ih (fun m hm => hr m (List.mem_cons_of_mem _ hm)) hrest
      have hm : (document codec m).REGION = some rank := hr m (List.mem_cons_self ..)
      refine ⟨hfold, ⟨hid ▸ hlt, hasc⟩, fun e he => ?_⟩
      rcases List.mem_cons.mp he with rfl | he
      · rw [hreg (by rw [hm]; exact Option.some_ne_none _), hm]
      · exact hall e he

theorem upsert_spec {codec : Codec J} {c c' : Collection J} {query : Query J} {found : String}
    {changeset : Changeset J} {images : Event J}
    (h : upsert codec c query found changeset = some (c', images)) :
    ∃ stored d, c found = some stored ∧ c' = c.put d ∧ d.id = found ∧
      d.VERSION = stored.VERSION + 1 ∧ d.REGION = changeset.REGION.or stored.REGION := by
  have hlive : (live query changeset).2.REGION = changeset.REGION := by
    unfold live
    split <;> rfl
  obtain ⟨stored, hsel, heq⟩ := Option.map_eq_some_iff.mp h
  obtain ⟨rfl, -⟩ := Prod.mk.inj heq
  have hc := (Option.filter_eq_some_iff.mp hsel).1
  refine ⟨stored, _, hc, rfl, c.keyed found stored hc, rfl, ?_⟩
  rw [← hlive]
  rfl

end Toa.Storage
