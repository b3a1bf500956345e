import Toa.Storage.OutboxImage

/-! Get-or-create: an effect that is given an entity finds a record or makes one. Which of the two
it was is told by the id that came back, which is the blank's own only if the blank was inserted,
unless the caller gave the blank the id of a record that was there. -/

namespace Toa.Storage.GetOrCreate

universe u
variable {J : Type u}

/-- A collection, with the field `id` its documents hold: one that is inserted for a filter on `id`
holds what the filter does, beside its `_id`. -/
structure Store (J : Type u) where
  collection : Collection J
  named : String → Option String

/-- What a query asks for, its condition on `DELETED` apart, and whether it asks for deleted
records too. -/
structure Asked (J : Type u) where
  filter : Filter J
  deleted : Bool

/-- The server: whether a document holds what a filter of equalities does, `id` apart, and the
document it finds, which is one the filter selects wherever there is one. -/
structure Server (J : Type u) where
  equals : Changeset J → Document J → Bool
  find : Collection J → Filter J → Option String
  find_some : ∀ c filter id, find c filter = some id →
    ∃ d, c id = some d ∧ filter.selects d = true
  find_none : ∀ c filter, find c filter = none → ∀ id d, c id = some d → filter.selects d = false

/-- What an effect is given: the record, what was committed to the outbox with it, and what was
published. -/
structure Answer (J : Type u) where
  store : Store J
  record : Record J
  rows : List (Event J)
  published : List (Event J)

/-- `Object.assign(blank, properties)` -/
def assign (blank : Record J) (properties : Changeset J) : Record J where
  id := properties.id.getD blank.id
  VERSION := properties.VERSION.getD blank.VERSION
  CREATED := properties.CREATED.or blank.CREATED
  UPDATED := properties.UPDATED.or blank.UPDATED
  DELETED := properties.DELETED.getD blank.DELETED
  REGION := properties.REGION.or blank.REGION
  properties := fun name => (properties.properties name).getD (blank.properties name)

/-- `object.set(blank)`, of a blank the component makes under a new id. -/
def made (declaration : Declaration J) (region : ℕ) (now : ℤ) (blank : String → Value J)
    (fresh : String) (properties : Changeset J) : Except EntityException (Modified J) :=
  let object := Entity.init region now blank fresh
  object.set declaration region now (assign object.state properties)

section
variable (codec : Codec J) (server : Server J)

/-- `translate(query)`, or the properties where there is no query, and `DELETED: null` unless
deleted records are asked for. No document holds its `_id` in a field `id`. -/
def criteria (s : Store J) (query : Option (Asked J)) (properties : Changeset J) : Filter J :=
  match query with
  | some asked =>
    { selects := fun d => asked.filter.selects d && (asked.deleted || d.DELETED.isNone)
      seeds := asked.filter.seeds }
  | none =>
    { selects := fun d => properties.id.all (fun id => s.named d.id = some id) &&
        (server.equals properties d && d.DELETED.isNone)
      seeds := { properties with id := none } }

/-- The field `id` of what is inserted for no query is the one the properties give. -/
def nameInserted (s : Store J) (query : Option (Asked J)) (properties : Changeset J)
    (found : Option String) (id : String) : String → Option String :=
  if found = none ∧ query.isNone then Function.update s.named id properties.id else s.named

def readOnly (region : ℕ) (now : ℤ) (d : Document J) : Record J :=
  (Entity.object region now (codec.fromDocument d.toRecord) false).state

/-- `State.ensure`, with the object it makes of the properties. `none` is an exception the storage
raises. -/
def ensure (region : ℕ) (now : ℤ) (s : Store J) (query : Option (Asked J))
    (properties : Changeset J) (object : Modified J) : Option (Answer J) :=
  let filter := criteria server s query properties
  let found := server.find s.collection filter
  (Storage.ensure codec s.collection filter found object).map fun (c, d) =>
    { store := ⟨c, nameInserted s query properties found d.id⟩
      record := if d.id = object.state.id then object.state else readOnly codec region now d
      rows := if d.id = object.state.id then [object.event] else []
      published := if d.id = object.state.id then [object.event] else [] }

def Matches (query : Option (Asked J)) (properties : Changeset J) (d : Document J) : Prop :=
  match query with
  | some asked => asked.filter.selects d = true
  | none =>
    let record := codec.fromDocument d.toRecord
    properties.id.all (· = record.id) ∧ properties.VERSION.all (· = record.VERSION) ∧
      properties.CREATED.all (some · = record.CREATED) ∧
      properties.UPDATED.all (some · = record.UPDATED) ∧
      properties.REGION.all (some · = record.REGION) ∧
      ∀ name value, properties.properties name = some value → value ≠ .undefined →
        record.properties name = value

def Live (s : Store J) (query : Option (Asked J)) (properties : Changeset J) (d : Document J) :
    Prop :=
  s.collection d.id = some d ∧ d.DELETED = none ∧ Matches codec query properties d

/-- The live record that matches is answered and nothing else is done, or one is created of the
properties, with its row, and published; and the same call again is answered with that record and
does nothing. `again` is the object the second call makes. -/
def Tells (region : ℕ) (now later : ℤ) (s : Store J) (query : Option (Asked J))
    (properties : Changeset J) (object again : Modified J) : Prop :=
  ∃ answer, ensure codec server region now s query properties object = some answer ∧
    ((∃ d, Live codec s query properties d) → ∃ d, Live codec s query properties d ∧
      answer = ⟨s, readOnly codec region now d, [], []⟩) ∧
    ((¬∃ d, Live codec s query properties d) → ∃ d, s.collection d.id = none ∧
      answer.store.collection = s.collection.put d ∧ Image codec d object.event ∧
      answer.record = object.state ∧ answer.rows = [object.event] ∧
      answer.published = [object.event]) ∧
    ∃ second d, ensure codec server region later answer.store query properties again =
        some second ∧
      answer.store.collection answer.record.id = some d ∧
      second = ⟨answer.store, readOnly codec region later d, [], []⟩

/-- The record the server finds is a live one that matches, and is not under the id the properties
give; or there is none, the properties give no id, the query names no other, and what is created
holds the properties alone and is what the query selects. -/
def Distinct (s : Store J) (query : Option (Asked J)) (properties : Changeset J)
    (object : Modified J) : Prop :=
  let filter := criteria server s query properties
  match server.find s.collection filter with
  | some id => (∃ d, d.id = id ∧ Live codec s query properties d) ∧ properties.id ≠ some id
  | none => (¬∃ d, Live codec s query properties d) ∧ properties.id = none ∧
      filter.seeds.id.all (· = object.state.id) ∧ Covered filter.seeds object.state ∧
      filter.selects (inserted filter (document codec object)) = true

end

section
variable {codec : Codec J} {server : Server J}

@[simp] theorem readOnly_id (region : ℕ) (now : ℤ) (d : Document J) :
    (readOnly codec region now d).id = d.id := rfl

theorem made_state {declaration : Declaration J} {region : ℕ} {now : ℤ}
    {blank : String → Value J} {fresh : String} {properties : Changeset J} {object : Modified J}
    (h : made declaration region now blank fresh properties = .ok object) :
    object.state = Entity.stamp region now (Entity.fill region now
      (assign (Entity.init region now blank fresh).state properties)) :=
  (Entity.set_ok h).2

theorem made_id {declaration : Declaration J} {region : ℕ} {now : ℤ} {blank : String → Value J}
    {fresh : String} {properties : Changeset J} {object : Modified J}
    (h : made declaration region now blank fresh properties = .ok object) :
    object.state.id = properties.id.getD fresh := by
  rw [made_state h]
  rfl

theorem ensure_found (codec : Codec J) (region : ℕ) (now : ℤ) (object : Modified J) {s : Store J}
    {query : Option (Asked J)} {properties : Changeset J} {id : String}
    (hfind : server.find s.collection (criteria server s query properties) = some id) :
    ∃ d, d.id = id ∧ s.collection id = some d ∧
      ensure codec server region now s query properties object = some
        { store := s
          record := if id = object.state.id then object.state else readOnly codec region now d
          rows := if id = object.state.id then [object.event] else []
          published := if id = object.state.id then [object.event] else [] } := by
  obtain ⟨d, hd, hselects⟩ := server.find_some _ _ _ hfind
  have hid : d.id = id := s.collection.keyed id d hd
  refine ⟨d, hid, hd, ?_⟩
  simp only [ensure, hfind, Storage.ensure, hd, hselects, if_true, Option.map_some, hid,
    nameInserted, reduceCtorEq, false_and, if_false]

theorem ensure_none (codec : Codec J) (region : ℕ) (now : ℤ) (object : Modified J) {s : Store J}
    {query : Option (Asked J)} {properties : Changeset J}
    (hfind : server.find s.collection (criteria server s query properties) = none) :
    ensure codec server region now s query properties object =
      let filter := criteria server s query properties
      if filter.seeds.id.all (· = object.state.id) ∧ s.collection object.state.id = none then
        some
          { store := ⟨s.collection.put (inserted filter (document codec object)),
              nameInserted s query properties none object.state.id⟩
            record := object.state
            rows := [object.event]
            published := [object.event] }
      else none := by
  have hinserted : (inserted (criteria server s query properties) (document codec object)).id =
      object.state.id := rfl
  simp only [ensure, hfind, Storage.ensure]
  split_ifs with h
  · simp only [Option.map_some, hinserted, if_true]
  · rfl

/-! ## The same call again -/

theorem selects_congr {s t : Store J} {query : Option (Asked J)} {properties : Changeset J}
    {d : Document J} (h : s.named d.id = t.named d.id) :
    (criteria server s query properties).selects d =
      (criteria server t query properties).selects d := by
  cases query with
  | some asked => rfl
  | none => simp only [criteria, h]

theorem criteria_unnamed {s : Store J} (t : Store J) {query : Option (Asked J)}
    {properties : Changeset J} (h : properties.id = none) :
    criteria server s query properties = criteria server t query properties := by
  cases query with
  | some asked => rfl
  | none => simp only [criteria, h, Option.all_none]

theorem again_found (codec : Codec J) (region : ℕ) (later : ℤ) {s : Store J} {query : Option (Asked J)}
    {properties : Changeset J} {again : Modified J} {id : String}
    (hfind : server.find s.collection (criteria server s query properties) = some id)
    (hagain : id ≠ again.state.id) :
    ∃ d, s.collection id = some d ∧ ensure codec server region later s query properties again =
      some ⟨s, readOnly codec region later d, [], []⟩ := by
  obtain ⟨d, -, hd, hensure⟩ := ensure_found codec region later again hfind
  refine ⟨d, hd, ?_⟩
  simpa only [if_neg hagain] using hensure

theorem find_created {s t : Store J} {query : Option (Asked J)} {properties : Changeset J}
    {d : Document J} (hput : t.collection = s.collection.put d)
    (hnamed : ∀ id, id ≠ d.id → t.named id = s.named id)
    (hfind : server.find s.collection (criteria server s query properties) = none) {id : String}
    (h : server.find t.collection (criteria server t query properties) = some id) :
    id = d.id ∧ (criteria server t query properties).selects d = true := by
  obtain ⟨e, he, hselects⟩ := server.find_some _ _ _ h
  by_cases hid : id = d.id
  · subst hid
    rw [hput, Collection.put_self] at he
    obtain rfl := Option.some.inj he
    exact ⟨rfl, hselects⟩
  · rw [hput, s.collection.put_of_ne hid] at he
    have heid : e.id = id := s.collection.keyed id e he
    have hold := server.find_none _ _ hfind id e he
    rw [← selects_congr (hnamed e.id (heid ▸ hid)), hselects] at hold
    exact nomatch hold

theorem nameInserted_of_ne {s : Store J} {query : Option (Asked J)} {properties : Changeset J}
    {found : Option String} {id other : String} (h : other ≠ id) :
    nameInserted s query properties found id other = s.named other := by
  unfold nameInserted
  split_ifs
  · exact Function.update_of_ne h _ _
  · rfl

theorem ne_of_free {s : Store J} {properties : Changeset J} {id free : String} {d : Document J}
    (hd : s.collection id = some d) (hfree : s.collection free = none)
    (hgiven : properties.id ≠ some id) : id ≠ properties.id.getD free := by
  cases hp : properties.id with
  | none =>
    rw [Option.getD_none]
    rintro rfl
    exact nomatch hd.symm.trans hfree
  | some given =>
    rw [Option.getD_some]
    rintro rfl
    exact hgiven hp

theorem tells_found_iff {region : ℕ} {now later : ℤ} {fresh next : String} {s : Store J}
    {query : Option (Asked J)} {properties : Changeset J} {object again : Modified J}
    (hid : object.state.id = properties.id.getD fresh)
    (hid' : again.state.id = properties.id.getD next)
    (hfresh : s.collection fresh = none) (hnext : s.collection next = none) {id : String}
    (hfind : server.find s.collection (criteria server s query properties) = some id) :
    Tells codec server region now later s query properties object again ↔
      (∃ d, d.id = id ∧ Live codec s query properties d) ∧ properties.id ≠ some id := by
  obtain ⟨d, hdid, hd, hensure⟩ := ensure_found codec region now object hfind
  unfold Tells
  rw [hensure]
  constructor
  · rintro ⟨answer, hanswer, hfound, hcreated, -⟩
    obtain rfl := Option.some.inj hanswer
    -- nothing was written, so it is the first of the two
    have hlive : ∃ e, Live codec s query properties e := by
      by_contra hnone
      obtain ⟨e, he, hput, -⟩ := hcreated hnone
      have hput' : s.collection = s.collection.put e := hput
      rw [hput', Collection.put_self] at he
      exact nomatch he
    obtain ⟨e, he, heq⟩ := hfound hlive
    have hrows : (if id = object.state.id then [object.event] else []) = ([] : List (Event J)) :=
      congrArg Answer.rows heq
    have hother : id ≠ object.state.id := by
      intro h
      rw [if_pos h] at hrows
      exact nomatch hrows
    have hrecord : (if id = object.state.id then object.state else readOnly codec region now d) =
        readOnly codec region now e := congrArg Answer.record heq
    rw [if_neg hother] at hrecord
    have heid : (readOnly codec region now d).id = (readOnly codec region now e).id := by
      rw [hrecord]
    rw [readOnly_id, readOnly_id] at heid
    refine ⟨⟨e, heid.symm.trans hdid, he⟩, fun hgiven => hother ?_⟩
    rw [hid, hgiven, Option.getD_some]
  · rintro ⟨⟨e, heid, he⟩, hgiven⟩
    have hed : e = d := by
      have hstored := he.1
      rw [heid, hd] at hstored
      exact (Option.some.inj hstored).symm
    subst hed
    have hother : id ≠ object.state.id := hid ▸ ne_of_free hd hfresh hgiven
    rw [if_neg hother, if_neg hother]
    obtain ⟨e', he', hsecond⟩ := again_found codec region later hfind
      (hid' ▸ ne_of_free hd hnext hgiven)
    obtain rfl := Option.some.inj (hd.symm.trans he')
    refine ⟨_, rfl, fun _ => ⟨e, he, rfl⟩, fun hnone => absurd ⟨e, he⟩ hnone, _, e, hsecond, ?_, rfl⟩
    change s.collection e.id = some e
    rw [hdid, hd]

theorem tells_none_iff {region : ℕ} {now later : ℤ} {fresh next : String} {s : Store J}
    {query : Option (Asked J)} {properties : Changeset J} {object again : Modified J}
    (hid : object.state.id = properties.id.getD fresh)
    (hid' : again.state.id = properties.id.getD next)
    (hfresh : s.collection fresh = none) (hne : next ≠ fresh)
    (hfind : server.find s.collection (criteria server s query properties) = none) :
    Tells codec server region now later s query properties object again ↔
      (¬∃ d, Live codec s query properties d) ∧ properties.id = none ∧
        (criteria server s query properties).seeds.id.all (· = object.state.id) ∧
        Covered (criteria server s query properties).seeds object.state ∧
        (criteria server s query properties).selects
          (inserted (criteria server s query properties) (document codec object)) = true := by
  have hfirst := ensure_none codec region now object hfind
  unfold Tells
  rw [hfirst]
  dsimp only
  generalize hcreated : inserted (criteria server s query properties) (document codec object) =
    created
  have hcid : created.id = object.state.id := by
    rw [← hcreated]
    rfl
  rw [← hcid]
  generalize ht : (⟨s.collection.put created, nameInserted s query properties none created.id⟩ :
    Store J) = t
  have hput : t.collection = s.collection.put created := by rw [← ht]
  have hself : t.collection created.id = some created := by rw [hput, Collection.put_self]
  have hnamed : ∀ id, id ≠ created.id → t.named id = s.named id := by
    intro id h
    rw [← ht]
    exact nameInserted_of_ne h
  constructor
  · rintro ⟨answer, hanswer, hfound, hmade, second, e, hsecond, -, rfl⟩
    split_ifs at hanswer with hok
    obtain rfl := Option.some.inj hanswer
    have hnone : ¬∃ d, Live codec s query properties d := by
      intro hlive
      obtain ⟨d, -, heq⟩ := hfound hlive
      cases congrArg Answer.rows heq
    obtain ⟨d, hd, hput', himage, -⟩ := hmade hnone
    have hsame : created = d := by
      have hd' : t.collection d.id = some d := by
        rw [show t.collection = s.collection.put d from hput', Collection.put_self]
      by_cases h : d.id = created.id
      · rw [h] at hd'
        exact Option.some.inj (hself.symm.trans hd')
      · rw [hput, s.collection.put_of_ne h, hd] at hd'
        cases hd'
    subst hsame
    cases hfind' : server.find t.collection (criteria server t query properties) with
    | none =>
      -- another would be created
      have hensure := ensure_none codec region later again hfind'
      dsimp only at hensure
      rw [hsecond] at hensure
      split_ifs at hensure
      cases congrArg Answer.rows (Option.some.inj hensure)
    | some id =>
      obtain ⟨rfl, hselects⟩ := find_created hput hnamed hfind hfind'
      obtain ⟨d, -, -, hensure⟩ := ensure_found codec region later again hfind'
      have hrows : ([] : List (Event J)) = if created.id = again.state.id then [again.event] else [] :=
        congrArg Answer.rows (Option.some.inj (hsecond.symm.trans hensure))
      have hother : created.id ≠ again.state.id := by
        intro h
        rw [if_pos h] at hrows
        cases hrows
      have hgiven : properties.id = none := by
        cases hp : properties.id with
        | none => rfl
        | some given => exact absurd (by rw [hcid, hid, hid', hp]; rfl) hother
      rw [← hcreated] at himage
      refine ⟨hnone, hgiven, hok.1, image_inserted_iff.mp himage, ?_⟩
      rwa [criteria_unnamed s hgiven] at hselects
  · rintro ⟨hnone, hgiven, hseeds, hcovered, hselects⟩
    rw [hgiven, Option.getD_none] at hid hid'
    have hfree : s.collection created.id = none := by rw [hcid, hid, hfresh]
    rw [if_pos ⟨hseeds, hfree⟩]
    cases hfind' : server.find t.collection (criteria server t query properties) with
    | none =>
      have hmissed := server.find_none _ _ hfind' created.id created hself
      rw [criteria_unnamed s hgiven, hselects] at hmissed
      cases hmissed
    | some id =>
      obtain ⟨rfl, -⟩ := find_created hput hnamed hfind hfind'
      have hother : created.id ≠ again.state.id := by
        rw [hcid, hid, hid']
        exact hne.symm
      obtain ⟨d, hd, hsecond⟩ := again_found codec region later hfind' hother
      obtain rfl := Option.some.inj (hself.symm.trans hd)
      refine ⟨_, rfl, fun hlive => absurd hlive hnone,
        fun _ => ⟨created, hfree, hput, ?_, rfl, rfl, rfl⟩, _, created, hsecond, ?_, rfl⟩
      · rw [← hcreated]
        exact image_inserted_iff.mpr hcovered
      · rw [← hcid]
        exact hself

/-- The two are told apart exactly where the record found is not under the id given, and what is
created is what is asked for. -/
theorem tells_iff {declaration : Declaration J} {region : ℕ} {now later : ℤ}
    {blank : String → Value J} {fresh next : String} {s : Store J} {query : Option (Asked J)}
    {properties : Changeset J} {object again : Modified J}
    (hobject : made declaration region now blank fresh properties = .ok object)
    (hagain : made declaration region later blank next properties = .ok again)
    (hfresh : s.collection fresh = none) (hnext : s.collection next = none) (hne : next ≠ fresh) :
    Tells codec server region now later s query properties object again ↔
      Distinct codec server s query properties object := by
  have hid := made_id hobject
  have hid' := made_id hagain
  cases hfind : server.find s.collection (criteria server s query properties) with
  | some id =>
    simp only [Distinct, hfind]
    exact tells_found_iff hid hid' hfresh hnext hfind
  | none =>
    simp only [Distinct, hfind]
    exact tells_none_iff hid hid' hfresh hne hfind

end

/-! ## A record of one property -/

section
open Classical

noncomputable def Server.any (equals : Changeset J → Document J → Bool) : Server J where
  equals := equals
  find := fun c filter =>
    if h : ∃ id d, c id = some d ∧ filter.selects d = true then some h.choose else none
  find_some := by
    intro c filter id h
    split_ifs at h with hex
    obtain rfl := Option.some.inj h
    exact hex.choose_spec
  find_none := by
    intro c filter h id d hd
    split_ifs at h with hex
    cases hselects : filter.selects d with
    | false => rfl
    | true => exact absurd ⟨id, d, hd, hselects⟩ hex

end

/-- What an effect is given: a value of `p` and, where there is one, an id. -/
def noting (id : Option String) (p : ℤ) : Changeset ℤ where
  id := id
  VERSION := none
  CREATED := none
  UPDATED := none
  DELETED := none
  REGION := none
  properties := fun name => if name = "p" then some (.json p) else none

/-- `p==1` -/
def askedOne : Asked ℤ where
  filter := {
    selects := fun d => d.properties "p" = .json 1
    seeds := noting none 1 }
  deleted := false

def askedId (id : String) : Asked ℤ where
  filter := {
    selects := fun d => d.id = id
    seeds := { noting none 1 with id := some id, properties := fun _ => none } }
  deleted := false

theorem tells_created :
    ∃ object again, made (.any ℤ) 0 1 (fun _ => .undefined) "a" (noting none 1) = .ok object ∧
      made (.any ℤ) 0 2 (fun _ => .undefined) "b" (noting none 1) = .ok again ∧
      Tells .plain (.any fun _ _ => false) 0 1 2 ⟨.empty, fun _ => none⟩ (some askedOne)
        (noting none 1) object again := by
  have hobject : ∃ object, made (.any ℤ) 0 1 (fun _ => .undefined) "a" (noting none 1) =
      .ok object := ⟨_, rfl⟩
  have hagain : ∃ again, made (.any ℤ) 0 2 (fun _ => .undefined) "b" (noting none 1) =
      .ok again := ⟨_, rfl⟩
  obtain ⟨object, hobject⟩ := hobject
  obtain ⟨again, hagain⟩ := hagain
  refine ⟨object, again, hobject, hagain, (tells_iff hobject hagain rfl rfl (by decide)).mpr ?_⟩
  have hstate := made_state hobject
  unfold Distinct
  dsimp only
  split
  · rename_i id hfind
    obtain ⟨d, hd, -⟩ := Server.find_some _ _ _ _ hfind
    exact nomatch (hd : none = some d)
  · refine ⟨?_, rfl, rfl, ?_, ?_⟩
    · rintro ⟨d, hd, -⟩
      exact nomatch (hd : none = some d)
    · rw [hstate]
      refine ⟨fun h => absurd rfl h, fun h => absurd rfl h, fun h => absurd rfl h, fun name h => ?_⟩
      revert h
      change (if name = "p" then some (Value.json 1) else none).getD .undefined = .undefined →
        (if name = "p" then some (Value.json 1) else none).getD .undefined = .undefined
      exact id
    · change (decide ((inserted _ (document Codec.plain object)).properties "p" = .json 1) &&
        (false || (object.state.DELETED).isNone)) = true
      simp only [inserted, document, Codec.toDocument, hstate]
      rfl

/-- A record at its first version, as a replica of the component stored it. -/
def stored : Document ℤ where
  toRecord := { note 1 with VERSION := 1, CREATED := some 0, UPDATED := some 0, REGION := some 0 }
  version_pos := Nat.one_pos

def kept : Store ℤ := ⟨Collection.empty.put stored, fun _ => none⟩

/-- Every replica stores the next call of a schedule under the id of the occurrence. -/
theorem found_is_published :
    ∃ object answer, made (.any ℤ) 0 1 (fun _ => .undefined) "a" (noting (some "k") 1) = .ok object ∧
      ensure .plain (.any fun _ _ => false) 0 1 kept (some (askedId "k")) (noting (some "k") 1)
        object = some answer ∧
      Live .plain kept (some (askedId "k")) (noting (some "k") 1) stored ∧
      answer.rows = [object.event] ∧ answer.published = [object.event] := by
  have hobject : ∃ object, made (.any ℤ) 0 1 (fun _ => .undefined) "a" (noting (some "k") 1) =
      .ok object := ⟨_, rfl⟩
  obtain ⟨object, hobject⟩ := hobject
  have hid := made_id hobject
  have hlive : Live .plain kept (some (askedId "k")) (noting (some "k") 1) stored :=
    ⟨Collection.put_self _ _, rfl, rfl⟩
  cases hfind : (Server.any fun _ _ => false).find kept.collection
      (criteria (.any fun _ _ => false) kept (some (askedId "k")) (noting (some "k") 1)) with
  | none => exact nomatch Server.find_none _ _ _ hfind "k" stored (Collection.put_self _ _)
  | some id =>
    obtain ⟨d, hdid, hd, hensure⟩ := ensure_found .plain 0 1 object hfind
    obtain ⟨e, he, hselects⟩ := Server.find_some _ _ _ _ hfind
    have hk : id = "k" := by
      have heid : e.id = id := kept.collection.keyed id e he
      simp only [criteria, askedId, Bool.and_eq_true, decide_eq_true_eq] at hselects
      exact heid.symm.trans hselects.1
    have hown : id = object.state.id := by
      rw [hid, hk]
      rfl
    refine ⟨object, _, hobject, hensure, hlive, ?_, ?_⟩
    · exact if_pos hown
    · exact if_pos hown

end Toa.Storage.GetOrCreate
