import Mathlib.Order.Nat
import Toa.Storage.Collection

/-! An outbox row is built before the write it is committed with, and the document is made by the
server: the event a row carries and the document its write left are two computations of one
record. For each write path, exactly when they agree. -/

namespace Toa.Storage
variable {J : Type*}

/-- A write that may commit an outbox row, over the collection it finds. An assignment runs in a
transaction, which the driver may run several times: `earlier` is what the runs before the last
found, each with the document the server chose. -/
inductive Write (J : Type*)
  | store (c : Collection J) (m : Modified J)
  | massStore (c : Collection J) (ms : List (Modified J))
  | ensure (c : Collection J) (filter : Filter J) (found : Option String) (m : Modified J)
  | upsert (earlier : List (Collection J × String)) (c : Collection J) (query : Query J)
      (found : String) (changeset : Changeset J)

/-- What a write committed: the collection, and each row's event with the `_id` it was written
for. -/
structure Committed (J : Type*) where
  collection : Collection J
  rows : List (String × Event J)

section
variable (codec : Codec J)

/-- `row.event = { origin, state, ...row.event }`: images a row has are kept. -/
def fillEvent (event : Option (Event J)) (images : Event J) : Event J := event.getD images

def eventAfter (query : Query J) (changeset : Changeset J) :
    Option (Event J) → List (Collection J × String) → Option (Event J)
  | event, [] => event
  | event, (c, found) :: runs =>
    match upsert codec c query found changeset with
    | none => eventAfter query changeset event runs
    | some (_, images) => eventAfter query changeset (some (fillEvent event images)) runs

def commit : Write J → Option (Committed J)
  | .store c m => (store codec c m).map fun c' => ⟨c', [(m.state.id, m.event)]⟩
  | .massStore c ms =>
    (massStore codec c ms).map fun (c', _) => ⟨c', ms.map fun m => (m.state.id, m.event)⟩
  | .ensure c filter found m =>
    (ensure codec c filter found m).map fun (c', d) =>
      ⟨c', if d.id = m.state.id then [(d.id, m.event)] else []⟩
  | .upsert earlier c query found changeset =>
    (upsert codec c query found changeset).map fun (c', images) =>
      ⟨c', [(found, fillEvent (eventAfter codec query changeset none earlier) images)]⟩

def Image (d : Document J) (e : Event J) : Prop :=
  codec.toDocument (codec.fromDocument d.toRecord) = codec.toDocument e.state

def Faithful (out : Committed J) : Prop :=
  ∀ id e, (id, e) ∈ out.rows → ∃ d, out.collection id = some d ∧ Image codec d e

def Covered (seeds : Changeset J) (state : Record J) : Prop :=
  (seeds.CREATED ≠ none → state.CREATED ≠ none) ∧ (seeds.UPDATED ≠ none → state.UPDATED ≠ none) ∧
    (seeds.REGION ≠ none → state.REGION ≠ none) ∧
    ∀ name, state.properties name = .undefined →
      (seeds.properties name).getD .undefined = .undefined

def Agree (changeset : Changeset J) (first last : Document J) : Prop :=
  (changeset.id = none → first.id = last.id) ∧ first.VERSION = last.VERSION ∧
    (changeset.CREATED = none → first.CREATED = last.CREATED) ∧
    (changeset.UPDATED = none → first.UPDATED = last.UPDATED) ∧
    (changeset.REGION = none → first.REGION = last.REGION) ∧
    ∀ name, changeset.properties name = none →
      codec.write name (codec.read name (first.properties name)) =
        codec.write name (codec.read name (last.properties name))

def Exact : Write J → Prop
  | .store _ _ => True
  | .massStore c ms =>
    (ms.map (·.state.id)).Nodup ∧
      ∀ m ∈ ms, m.state.VERSION = 1 → c m.state.id = none ∧ m.state.DELETED = none
  | .ensure c filter found m =>
    match found with
    | some id => id = m.state.id → ∀ stored, c id = some stored → Image codec stored m.event
    | none => Covered filter.seeds m.state
  | .upsert earlier c query found changeset =>
    ∀ last, c found = some last →
      (∀ id, changeset.id = some id → id = last.id) ∧
      (∀ name, changeset.properties name = some .undefined → last.properties name = .undefined) ∧
      ∀ first, (earlier.findSome? fun (c, found) => selected c query found changeset) = some first →
        Agree codec changeset first last

end

section
variable {codec : Codec J}

/-! ## One document -/

theorem image_document (m : Modified J) : Image codec (document codec m) m.event :=
  codec.toDocument_fromDocument m.state

theorem Image.VERSION_eq {d : Document J} {e : Event J} (h : Image codec d e) :
    d.VERSION = e.state.VERSION := (Record.ext_iff.mp h).2.1

theorem Value.over_of_ne {v w : Value J} (h : v ≠ .undefined) : v.over w = v := by
  cases v with
  | undefined => exact absurd rfl h
  | _ => rfl

/-! ## A set -/

theorem image_massStoreOne_iff {c : Collection J} {m : Modified J} {d : Document J}
    (h : massStoreOne c (document codec m) = some d) :
    Image codec d m.event ↔
      (m.state.VERSION = 1 → c m.state.id = none ∧ m.state.DELETED = none) := by
  have hid : (document codec m).id = m.state.id := rfl
  unfold massStoreOne at h
  change (if m.state.VERSION = 1 then _ else _) = _ at h
  rw [hid] at h
  split_ifs at h with hv
  · cases hc : c m.state.id with
    | none =>
      simp only [hc] at h
      obtain rfl := Option.some.inj h
      refine ⟨fun hi _ => ⟨rfl, (Record.ext_iff.mp hi).2.2.2.2.1.symm⟩, fun hcond => ?_⟩
      have heq : { document codec m with DELETED := none } = document codec m :=
        Document.ext rfl rfl rfl rfl (hcond hv).2.symm rfl rfl
      change Image codec { document codec m with DELETED := none } m.event
      rw [heq]
      exact image_document m
    | some stored =>
      simp only [hc] at h
      split_ifs at h
      obtain rfl := Option.some.inj h
      refine ⟨fun hi => ?_, fun hcond => by cases (hcond hv).1⟩
      -- a revived document has gone past the version its event carries
      have hlast : stored.VERSION + 1 = 1 := hi.VERSION_eq.trans hv
      exact absurd hlast (by have := stored.version_pos; omega)
  · cases hc : c m.state.id with
    | none => simp [hc] at h
    | some stored =>
      simp only [hc] at h
      split_ifs at h
      obtain rfl := Option.some.inj h
      exact ⟨fun _ hone => absurd hone hv, fun _ => image_document m⟩

theorem massStoreOne_VERSION_le {c : Collection J} {d e : Document J}
    (h : massStoreOne c d = some e) : d.VERSION ≤ e.VERSION := by
  unfold massStoreOne at h
  split_ifs at h with hv
  · rw [hv]
    exact e.version_pos
  · split at h
    · cases h
    · split_ifs at h
      exact (congrArg (fun d : Document J => d.VERSION) (Option.some.inj h)).le

theorem massStore_cons {c c' : Collection J} {m : Modified J} {ms : List (Modified J)}
    {ds : List (Document J)} (h : massStore codec c (m :: ms) = some (c', ds)) :
    ∃ d ds', massStoreOne c (document codec m) = some d ∧ d.id = m.state.id ∧
      massStore codec (c.put d) ms = some (c', ds') := by
  simp only [massStore] at h
  split at h
  · cases h
  · rename_i d hone
    obtain ⟨⟨c₁, ds₁⟩, hrest, heq⟩ := Option.map_eq_some_iff.mp h
    obtain ⟨rfl, -⟩ := Prod.mk.inj heq
    exact ⟨d, ds₁, hone, (massStoreOne_spec hone).1, hrest⟩

theorem massStore_frame {ms : List (Modified J)} {c c' : Collection J} {ds : List (Document J)}
    (h : massStore codec c ms = some (c', ds)) {id : String} (hid : id ∉ ms.map (·.state.id)) :
    c' id = c id := by
  induction ms generalizing c ds with
  | nil =>
    obtain ⟨rfl, -⟩ := Prod.mk.inj (Option.some.inj h)
    rfl
  | cons m ms ih =>
    obtain ⟨d, ds', -, hd, hrest⟩ := massStore_cons h
    rw [List.map_cons, List.mem_cons, not_or] at hid
    rw [ih hrest hid.2, Collection.put_of_ne]
    rw [hd]
    exact hid.1

theorem massStore_VERSION_lt {ms : List (Modified J)} {c c' : Collection J}
    {ds : List (Document J)} (h : massStore codec c ms = some (c', ds)) {id : String}
    (hid : id ∈ ms.map (·.state.id)) {b : Document J} (hb : c id = some b) :
    ∃ b', c' id = some b' ∧ b.VERSION < b'.VERSION := by
  induction ms generalizing c ds b with
  | nil => exact nomatch hid
  | cons m ms ih =>
    obtain ⟨d, ds', hone, hd, hrest⟩ := massStore_cons h
    by_cases hm : id = m.state.id
    · have hlt : b.VERSION < d.VERSION := (massStoreOne_spec hone).2.1 b (hm ▸ hb)
      have hput : (c.put d) id = some d := by rw [hm, ← hd, Collection.put_self]
      by_cases hlater : id ∈ ms.map (·.state.id)
      · obtain ⟨b', hb', hlt'⟩ := ih hrest hlater hput
        exact ⟨b', hb', hlt.trans hlt'⟩
      · exact ⟨d, (massStore_frame hrest hlater).trans hput, hlt⟩
    · have hlater := (List.mem_cons.mp hid).resolve_left hm
      refine ih hrest hlater ?_
      rw [Collection.put_of_ne _ (hd ▸ hm), hb]

theorem massStore_images_iff {ms : List (Modified J)} {c c' : Collection J}
    {ds : List (Document J)} (h : massStore codec c ms = some (c', ds)) :
    (∀ m ∈ ms, ∃ d, c' m.state.id = some d ∧ Image codec d m.event) ↔
      (ms.map (·.state.id)).Nodup ∧
        ∀ m ∈ ms, m.state.VERSION = 1 → c m.state.id = none ∧ m.state.DELETED = none := by
  induction ms generalizing c ds with
  | nil => exact ⟨fun _ => ⟨List.nodup_nil, fun m hm => nomatch hm⟩, fun _ m hm => nomatch hm⟩
  | cons m ms ih =>
    obtain ⟨d, ds', hone, hd, hrest⟩ := massStore_cons h
    have hput : (c.put d) m.state.id = some d := by rw [← hd, Collection.put_self]
    have hlast (hm : m.state.id ∉ ms.map (·.state.id)) : c' m.state.id = some d :=
      (massStore_frame hrest hm).trans hput
    have hother (hm : m.state.id ∉ ms.map (·.state.id)) : ∀ n ∈ ms,
        (c.put d) n.state.id = c n.state.id := by
      intro n hn
      refine Collection.put_of_ne _ fun heq => hm ?_
      rw [← hd, ← heq]
      exact List.mem_map_of_mem hn
    rw [List.forall_mem_cons, List.forall_mem_cons, List.map_cons, List.nodup_cons]
    constructor
    · rintro ⟨⟨b, hb, himage⟩, himages⟩
      have hm : m.state.id ∉ ms.map (·.state.id) := by
        intro hmem
        obtain ⟨b', hb', hlt⟩ := massStore_VERSION_lt hrest hmem hput
        obtain rfl := Option.some.inj (hb.symm.trans hb')
        have hle : m.state.VERSION ≤ d.VERSION := massStoreOne_VERSION_le hone
        exact absurd himage.VERSION_eq (hle.trans_lt hlt).ne'
      obtain rfl := Option.some.inj (hb.symm.trans (hlast hm))
      obtain ⟨hnodup, hconds⟩ := (ih hrest).mp himages
      refine ⟨⟨hm, hnodup⟩, (image_massStoreOne_iff hone).mp himage, fun n hn hv => ?_⟩
      rw [← hother hm n hn]
      exact hconds n hn hv
    · rintro ⟨⟨hm, hnodup⟩, hcond, hconds⟩
      refine ⟨⟨d, hlast hm, (image_massStoreOne_iff hone).mpr hcond⟩, ?_⟩
      refine (ih hrest).mpr ⟨hnodup, fun n hn hv => ?_⟩
      rw [hother hm n hn]
      exact hconds n hn hv

/-! ## An assignment -/

theorem live_changeset (query : Query J) (changeset : Changeset J) :
    ∃ deleted, (live query changeset).2 = { changeset with DELETED := some deleted } := by
  unfold live
  split
  · rename_i ms h
    exact ⟨some ms, by rw [← h]⟩
  · exact ⟨none, rfl⟩

theorem assigned_property_iff {first last : Document J} {changeset : Changeset J} {name : String} :
    codec.write name (codec.read name
        ((assigned last (codec.changes changeset)).properties name)) =
      codec.write name
        ((postImage (codec.fromDocument first.toRecord) changeset).properties name) ↔
      (changeset.properties name = some .undefined → last.properties name = .undefined) ∧
        (changeset.properties name = none →
          codec.write name (codec.read name (first.properties name)) =
            codec.write name (codec.read name (last.properties name))) := by
  simp only [assigned, postImage, Codec.changes, Codec.fromDocument]
  rcases hp : changeset.properties name with _ | v
  · simp only [Option.map_none, Option.getD_none, Value.over, reduceCtorEq, false_implies,
      true_and, forall_const]
    exact eq_comm
  · simp only [Option.map_some, Option.getD_some, Option.some.injEq, reduceCtorEq,
      false_implies, and_true]
    by_cases hv : v = .undefined
    · subst hv
      have hw : codec.write name .undefined = .undefined := codec.write_eq_undefined.mpr rfl
      simp only [hw, Value.over, codec.write_read_eq_undefined, forall_const]
    · have hw : codec.write name v ≠ .undefined := fun h => hv (codec.write_eq_undefined.mp h)
      rw [Value.over_of_ne hw, codec.write_read_write]
      exact ⟨fun _ h => absurd h hv, fun _ => rfl⟩

theorem or_eq_or_iff {α : Type*} {a b c : Option α} :
    a.or b = a.or c ↔ (a = none → c = b) := by
  cases a with
  | none => simp only [Option.none_or, forall_const, eq_comm]
  | some x => simp only [Option.some_or, reduceCtorEq, false_implies]

theorem image_assigned_iff {first last : Document J} {changeset : Changeset J}
    (hdeleted : changeset.DELETED ≠ none) {origin : Option (Record J)} :
    Image codec (assigned last (codec.changes changeset))
        ⟨origin, postImage (codec.fromDocument first.toRecord) changeset⟩ ↔
      (∀ id, changeset.id = some id → id = last.id) ∧
        (∀ name, changeset.properties name = some .undefined → last.properties name = .undefined) ∧
        Agree codec changeset first last := by
  have hid : last.id = changeset.id.getD first.id ↔
      (∀ id, changeset.id = some id → id = last.id) ∧
        (changeset.id = none → first.id = last.id) := by
    cases changeset.id with
    | none => simp [eq_comm]
    | some id => simp [eq_comm]
  obtain ⟨deleted, hdel⟩ := Option.ne_none_iff_exists'.mp hdeleted
  unfold Image Agree
  rw [Record.ext_iff, funext_iff]
  simp only [Codec.toDocument_id, Codec.toDocument_VERSION, Codec.toDocument_CREATED,
    Codec.toDocument_UPDATED, Codec.toDocument_DELETED, Codec.toDocument_REGION,
    Codec.toDocument_properties, Codec.fromDocument_id, Codec.fromDocument_VERSION,
    Codec.fromDocument_CREATED, Codec.fromDocument_UPDATED, Codec.fromDocument_DELETED,
    Codec.fromDocument_REGION, Codec.fromDocument_properties, assigned_property_iff, forall_and]
  change (last.id = changeset.id.getD first.id ∧ last.VERSION + 1 = first.VERSION + 1 ∧
    changeset.CREATED.or last.CREATED = changeset.CREATED.or first.CREATED ∧
    changeset.UPDATED.or last.UPDATED = changeset.UPDATED.or first.UPDATED ∧
    changeset.DELETED.getD last.DELETED = changeset.DELETED.getD first.DELETED ∧
    changeset.REGION.or last.REGION = changeset.REGION.or first.REGION ∧ _) ↔ _
  simp only [hid, hdel, or_eq_or_iff, Option.getD_some, Nat.add_right_cancel_iff, true_and,
    @eq_comm _ last.VERSION]
  constructor
  · rintro ⟨⟨hset, hkept⟩, hv, hc, hu, hr, hundefined, hp⟩
    exact ⟨hset, hundefined, hkept, hv, hc, hu, hr, hp⟩
  · rintro ⟨hset, hundefined, hkept, hv, hc, hu, hr, hp⟩
    exact ⟨⟨hset, hkept⟩, hv, hc, hu, hr, hundefined, hp⟩

theorem Agree.refl (changeset : Changeset J) (d : Document J) : Agree codec changeset d d :=
  ⟨fun _ => rfl, rfl, fun _ => rfl, fun _ => rfl, fun _ => rfl, fun _ _ => rfl⟩

def imagesOf (codec : Codec J) (changeset : Changeset J) (stored : Document J) : Event J :=
  ⟨some (codec.fromDocument stored.toRecord),
    postImage (codec.fromDocument stored.toRecord) changeset⟩

theorem eventAfter_eq (query : Query J) (changeset : Changeset J)
    (runs : List (Collection J × String)) (event : Option (Event J)) :
    eventAfter codec query changeset event runs = event.or
      ((runs.findSome? fun (c, found) => selected c query found changeset).map
        (imagesOf codec (live query changeset).2)) := by
  induction runs generalizing event with
  | nil => simp only [eventAfter, List.findSome?_nil, Option.map_none, Option.or_none]
  | cons run runs ih =>
    obtain ⟨c, found⟩ := run
    simp only [eventAfter, upsert, List.findSome?_cons]
    cases selected c query found changeset with
    | none => exact ih event
    | some stored =>
      simp only [Option.map_some]
      rw [ih]
      cases event with
      | none => rfl
      | some e => rfl

/-! ## A record got or created -/

theorem or_eq_left_iff {α : Type*} {a b : Option α} : a.or b = a ↔ (b ≠ none → a ≠ none) := by
  cases a <;> cases b <;> simp

theorem image_inserted_iff {filter : Filter J} {m : Modified J} :
    Image codec (inserted filter (document codec m)) m.event ↔ Covered filter.seeds m.state := by
  have hproperty (name : String) :
      codec.write name (codec.read name ((codec.write name (m.state.properties name)).over
        ((filter.seeds.properties name).getD .undefined))) =
        codec.write name (m.state.properties name) ↔
      (m.state.properties name = .undefined →
        (filter.seeds.properties name).getD .undefined = .undefined) := by
    by_cases hv : m.state.properties name = .undefined
    · have hw : codec.write name .undefined = .undefined := codec.write_eq_undefined.mpr rfl
      simp only [hv, hw, Value.over, codec.write_read_eq_undefined, forall_const]
    · have hw : codec.write name (m.state.properties name) ≠ .undefined :=
        fun h => hv (codec.write_eq_undefined.mp h)
      rw [Value.over_of_ne hw, codec.write_read_write]
      exact ⟨fun _ h => absurd h hv, fun _ => rfl⟩
  unfold Image Covered
  rw [Record.ext_iff, funext_iff]
  change (m.state.id = m.state.id ∧ m.state.VERSION = m.state.VERSION ∧
    m.state.CREATED.or filter.seeds.CREATED = m.state.CREATED ∧
    m.state.UPDATED.or filter.seeds.UPDATED = m.state.UPDATED ∧
    m.state.DELETED = m.state.DELETED ∧
    m.state.REGION.or filter.seeds.REGION = m.state.REGION ∧ ∀ name, _ = _) ↔ _
  simp only [or_eq_left_iff, true_and]
  refine and_congr_right fun _ => and_congr_right fun _ => and_congr_right fun _ => ?_
  exact forall_congr' hproperty

/-! ## Every write path -/

theorem faithful_one {c : Collection J} {id : String} {e : Event J} {d : Document J}
    (h : c id = some d) : Faithful codec ⟨c, [(id, e)]⟩ ↔ Image codec d e := by
  constructor
  · intro hf
    obtain ⟨b, hb, himage⟩ := hf id e (List.mem_singleton_self _)
    rwa [Option.some.inj (h.symm.trans hb)]
  · intro himage id' e' hmem
    obtain ⟨rfl, rfl⟩ := Prod.mk.inj (List.mem_singleton.mp hmem)
    exact ⟨d, h, himage⟩

theorem outbox_image_iff {w : Write J} {out : Committed J} (h : commit codec w = some out) :
    Faithful codec out ↔ Exact codec w := by
  cases w with
  | store c m =>
    obtain ⟨c', hc, rfl⟩ := Option.map_eq_some_iff.mp h
    obtain ⟨rfl, -⟩ := store_ascending hc
    have hput : (c.put (document codec m)) m.state.id = some (document codec m) :=
      Collection.put_self _ _
    rw [faithful_one hput]
    exact iff_of_true (image_document m) trivial
  | massStore c ms =>
    obtain ⟨⟨c', ds⟩, hc, rfl⟩ := Option.map_eq_some_iff.mp h
    refine Iff.trans ?_ (massStore_images_iff hc)
    simp only [Faithful, List.mem_map, Prod.mk.injEq]
    constructor
    · exact fun hf m hm => hf _ _ ⟨m, hm, rfl, rfl⟩
    · rintro hf id e ⟨m, hm, rfl, rfl⟩
      exact hf m hm
  | ensure c filter found m =>
    obtain ⟨⟨c', d⟩, hc, rfl⟩ := Option.map_eq_some_iff.mp h
    cases found with
    | some id =>
      simp only [ensure] at hc
      split at hc
      · cases hc
      · rename_i stored hstored
        split_ifs at hc
        obtain ⟨rfl, rfl⟩ := Prod.mk.inj (Option.some.inj hc)
        have hid : stored.id = id := c.keyed id stored hstored
        dsimp only
        split_ifs with hm
        · rw [faithful_one (hid ▸ hstored)]
          constructor
          · intro himage _ b hb
            rwa [← Option.some.inj (hstored.symm.trans hb)]
          · exact fun hexact => hexact (hid ▸ hm) stored hstored
        · refine iff_of_true (fun _ _ hmem => by cases hmem) fun heq => ?_
          exact absurd (hid.trans heq) hm
    | none =>
      simp only [ensure] at hc
      split_ifs at hc
      obtain ⟨rfl, rfl⟩ := Prod.mk.inj (Option.some.inj hc)
      dsimp only
      rw [if_pos (show (inserted filter (document codec m)).id = m.state.id from rfl),
        faithful_one (Collection.put_self _ _)]
      exact image_inserted_iff
  | upsert earlier c query found changeset =>
    obtain ⟨⟨c', images⟩, hc, rfl⟩ := Option.map_eq_some_iff.mp h
    obtain ⟨last, hsel, heq⟩ := Option.map_eq_some_iff.mp hc
    obtain ⟨rfl, rfl⟩ := Prod.mk.inj heq
    have hlast : c found = some last := (Option.filter_eq_some_iff.mp hsel).1
    have hput : c.put (assigned last (codec.changes (live query changeset).2)) found =
        some (assigned last (codec.changes (live query changeset).2)) := by
      rw [← c.keyed found last hlast]
      exact Collection.put_self _ _
    obtain ⟨deleted, hlive⟩ := live_changeset query changeset
    rw [faithful_one hput, eventAfter_eq, Option.none_or]
    dsimp only [Exact]
    rw [hlive]
    cases hfirst : earlier.findSome? fun (c, found) => selected c query found changeset with
    | none =>
      refine (image_assigned_iff (Option.some_ne_none _)).trans ?_
      constructor
      · rintro ⟨hid, hp, -⟩ b hb
        obtain rfl := Option.some.inj (hlast.symm.trans hb)
        exact ⟨hid, hp, fun _ hf => by cases hf⟩
      · intro hexact
        obtain ⟨hid, hp, -⟩ := hexact last hlast
        exact ⟨hid, hp, Agree.refl _ _⟩
    | some first =>
      refine (image_assigned_iff (Option.some_ne_none _)).trans ?_
      constructor
      · rintro ⟨hid, hp, hagree⟩ b hb
        obtain rfl := Option.some.inj (hlast.symm.trans hb)
        exact ⟨hid, hp, fun f hf => Option.some.inj hf ▸ hagree⟩
      · intro hexact
        obtain ⟨hid, hp, hagree⟩ := hexact last hlast
        exact ⟨hid, hp, hagree first rfl⟩

end

/-! ## A revival -/

/-- A blank entity of a component that writes `p` to it. -/
def noted (p : ℤ) : Modified ℤ where
  deleted := false
  origin := none
  state := Entity.stamp 0 1 (Entity.fill 0 1 (note p))
  mutable := true
  version_pos := Nat.one_pos

example : (Entity.init 0 0 (note 0).properties "k").set (.any ℤ) 0 1 (note 1) = .ok (noted 1) := rfl

/-- A record created, and deleted at version `2`. -/
def buried : Document ℤ where
  toRecord := { (noted 1).state with VERSION := 2, DELETED := some 5 }
  version_pos := Nat.two_pos

theorem outbox_image_creation :
    ∃ out, commit .plain (.massStore .empty [noted 1]) = some out ∧ Faithful .plain out := by
  have hexact : Exact .plain (.massStore .empty [noted 1]) := by
    refine ⟨by decide, fun m hm _ => ?_⟩
    rw [List.mem_singleton.mp hm]
    exact ⟨rfl, rfl⟩
  exact ⟨_, rfl, (outbox_image_iff rfl).mpr hexact⟩

theorem revival_not_faithful :
    ∃ out, commit .plain (.massStore (Collection.empty.put buried) [noted 2]) = some out ∧
      ¬ Faithful .plain out := by
  refine ⟨_, rfl, fun hf => ?_⟩
  obtain ⟨d, hd, himage⟩ := hf _ _ (List.mem_singleton_self _)
  obtain rfl := Option.some.inj hd
  exact absurd himage.VERSION_eq (by decide)

end Toa.Storage
