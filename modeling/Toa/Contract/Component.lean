import Toa.Contract.Schemas

/-! What a map states of a component, and what whoever reads it puts back. What the runtime gives
every component is left out on one side and put back on the other, and the two are compared by the
entity and by the schemas of the operations. -/

namespace Toa.Core

structure Event where
  binding : Option String
  path : Option String := none

structure Contract where
  version : Option String := none
  bindings : Option (List String) := none
  entity : Option Entity := none
  operations : Option (List (String × Operation)) := none
  events : Option (List (String × Event)) := none

/-! ## What the runtime gives every entity -/

def ID : Json :=
  .object [("type", .string "string"), ("pattern", .string "^[a-fA-F0-9]\x7b32\x7d$")]

def SYSTEM : List (String × Json) :=
  [("VERSION", .object [("type", .string "integer"), ("minimum", .number 0)]),
    ("CREATED", .object [("type", .string "integer"), ("format", .string "epoch-millis")]),
    ("UPDATED", .object [("type", .string "integer"), ("format", .string "epoch-millis")]),
    ("DELETED", .object [("type", .string "integer"), ("format", .string "epoch-millis"),
      ("nullable", .boolean true)]),
    ("REGION", .object [("type", .string "integer"), ("minimum", .number 0)])]

def REQUIRED : List String := "id" :: SYSTEM.map Prod.fst

/-- `name in SYSTEM` -/
def isSystem (name : String) : Bool := name ∈ SYSTEM.map Prod.fst || name ∈ Json.INHERITED

def given (entity : Entity) : Bool :=
  (SYSTEM.all fun property => entity.properties.lookup property.1 = some property.2) &&
    REQUIRED.all fun name => name ∈ entity.required.getD []

def kept (property : String × Json) : Bool :=
  !isSystem property.1 && !(property.1 = "id" && property.2 = ID)

def pack (entity : Entity) : Entity :=
  if given entity then
    let required := (entity.required.getD []).filter (· ∉ REQUIRED)
    { properties := entity.properties.filter kept
      required := if required = [] then none else some required
      system := some true }
  else entity

def unpack (entity : Entity) : Entity :=
  if entity.system = some true then
    let id := if entity.properties.lookup "id" = none then [("id", ID)] else []
    { properties := Assoc.spread (entity.properties ++ id) SYSTEM
      required := some (entity.required.getD [] ++ REQUIRED)
      system := none }
  else entity

/-! ## The contract -/

def describes : Json → Bool
  | .object entries => entries ≠ []
  | .array items => items ≠ []
  | .string s => s ≠ ""
  | .null | .boolean _ | .number _ => false

def operation (definition : Operation) (bindings : Option (List String)) : Operation :=
  { definition with
    bindings := if definition.bindings = bindings then none else definition.bindings
    output := definition.output.filter describes
    query := if definition.query = some false ∧ definition.scope = some .none then none
      else definition.query }

def component (manifest : Contract) : Contract :=
  { version := manifest.version
    bindings := manifest.bindings
    entity := manifest.entity.map fun entity =>
      pack { properties := entity.properties, required := entity.required }
    operations := manifest.operations.map fun operations =>
      operations.map fun (endpoint, definition) =>
        (endpoint, operation definition manifest.bindings)
    events := manifest.events.map fun events =>
      events.map fun (event, definition) => (event, { binding := definition.binding }) }

def declared (definition : Operation) (bindings : Option (List String)) : Operation :=
  { definition with
    bindings := definition.bindings.or bindings
    query := if definition.scope = some .none then definition.query.or (some false)
      else definition.query }

def restore (contract : Contract) : Contract :=
  { contract with
    entity := contract.entity.map unpack
    operations := contract.operations.map fun operations =>
      operations.map fun (endpoint, definition) =>
        (endpoint, declared definition contract.bindings) }

/-! ## What comes back -/

structure Normalised (manifest : Contract) : Prop where
  properties : ∀ entity ∈ manifest.entity, (entity.properties.map Prod.fst).Nodup
  required : ∀ entity ∈ manifest.entity, ∀ name ∈ entity.required.getD [],
    name ∈ entity.properties.map Prod.fst ∨ name ∈ Json.INHERITED
  endpoints : ((manifest.operations.getD []).map Prod.fst).Nodup
  acquires : ∀ entry ∈ manifest.operations.getD [],
    entry.2.scope = some .none → entry.2.query = some false
  output : ∀ entry ∈ manifest.operations.getD [],
    (∃ b, entry.2.output = some (.boolean b)) ∨ ∃ entries, entry.2.output = some (.object entries)

def Entity.Same (one other : Entity) : Prop :=
  (∀ name, one.properties.lookup name = other.properties.lookup name) ∧
    ∀ name, name ∈ one.required.getD [] ↔ name ∈ other.required.getD []

variable {V : Type}

def Validator.Alike (validator : Validator V) (one other : Json) : Prop :=
  ∀ value, validator.accepts one value ↔ validator.accepts other value

/-- What a caller holds a call of an operation to, under two contracts. -/
structure Validator.SameCall (validator : Validator V) (entity other : Option Entity)
    (definition declared : Operation) : Prop where
  request : validator.Alike (Request.schema definition entity) (Request.schema declared other)
  reply : validator.Alike (Reply.schema definition.output definition.errors)
    (Reply.schema declared.output declared.errors)

def Contract.operation (contract : Contract) (endpoint : String) : Option Operation :=
  (contract.operations.getD []).lookup endpoint

structure RoundTrip (validator : Validator V) (manifest : Contract) : Prop where
  entity : Option.Rel Entity.Same (restore (component manifest)).entity manifest.entity
  operations : ∀ endpoint,
    Option.Rel (validator.SameCall (restore (component manifest)).entity manifest.entity)
      ((restore (component manifest)).operation endpoint) (manifest.operation endpoint)

/-! ## The entity -/

theorem given_iff (entity : Entity) :
    given entity = true ↔
      (∀ property ∈ SYSTEM, entity.properties.lookup property.1 = some property.2) ∧
        ∀ name ∈ REQUIRED, name ∈ entity.required.getD [] := by
  simp only [given, Bool.and_eq_true, List.all_eq_true, decide_eq_true_eq]

theorem system_nodup : (SYSTEM.map Prod.fst).Nodup := by decide

theorem system_not_inherited : ∀ name ∈ REQUIRED, name ∉ Json.INHERITED := by decide

def Entity.restored (entity : Entity) : Entity :=
  unpack (pack { properties := entity.properties, required := entity.required })

theorem restored_of_given {entity : Entity} (h : given entity = true) :
    entity.restored = unpack (pack entity) := by
  have hpack : pack { properties := entity.properties, required := entity.required } = pack entity :=
    (if_pos h).trans (if_pos h).symm
  rw [Entity.restored, hpack]

theorem restored_of_not_given {entity : Entity} (h : given entity ≠ true) :
    entity.restored = { properties := entity.properties, required := entity.required } := by
  have hpack : pack { properties := entity.properties, required := entity.required } =
      { properties := entity.properties, required := entity.required } := if_neg h
  have hsystem : (none : Option Bool) ≠ some true := by decide
  rw [Entity.restored, hpack, unpack, if_neg hsystem]

/-- What the unpacked properties hold under a name: what the runtime gives it, the `id` it gives where
none was left, or what was packed. -/
theorem lookup_unpack {entity : Entity} (h : entity.system = some true) (name : String) :
    (unpack entity).properties.lookup name =
      (SYSTEM.lookup name).or ((entity.properties.lookup name).or
        (if name = "id" then some ID else none)) := by
  rw [unpack, if_pos h]
  simp only [Assoc.lookup_spread system_nodup]
  congr 1
  by_cases hid : entity.properties.lookup "id" = none
  · rw [if_pos hid, List.lookup_append, Assoc.lookup_single]
  · rw [if_neg hid, List.append_nil]
    by_cases hname : name = "id"
    · subst hname
      obtain ⟨own, hown⟩ := Option.ne_none_iff_exists'.mp hid
      rw [hown, Option.some_or]
    · rw [if_neg hname, Option.or_none]

theorem lookup_restored {entity : Entity} (hgiven : given entity = true)
    (hkeys : (entity.properties.map Prod.fst).Nodup)
    (hid : "id" ∈ entity.properties.map Prod.fst) (name : String) :
    (unpack (pack entity)).properties.lookup name =
      if name ∈ Json.INHERITED then none else entity.properties.lookup name := by
  obtain ⟨hsystem, -⟩ := (given_iff entity).mp hgiven
  have hpack : pack entity = _ := if_pos hgiven
  rw [lookup_unpack (by rw [hpack]), hpack]
  simp only [Assoc.lookup_filter hkeys]
  by_cases hname : name ∈ SYSTEM.map Prod.fst
  · -- a system property: the one the runtime gives
    obtain ⟨property, hproperty, rfl⟩ := List.mem_map.mp hname
    have hfree : property.1 ∉ Json.INHERITED :=
      system_not_inherited _ (List.mem_cons_of_mem _ hname)
    rw [Assoc.lookup_of_mem system_nodup hproperty, Option.some_or, if_neg hfree,
      hsystem property hproperty]
  have hnone : SYSTEM.lookup name = none := Assoc.lookup_eq_none_iff.mpr hname
  rw [hnone, Option.none_or]
  by_cases hown : name = "id"
  · -- the `id`: its own where it is another, the one the runtime gives where it is that one
    subst hown
    obtain ⟨entry, hentry, hfst⟩ := List.mem_map.mp hid
    have hlookup : entity.properties.lookup "id" = some entry.2 := by
      rw [← hfst]
      exact Assoc.lookup_of_mem hkeys hentry
    have hfree : "id" ∉ Json.INHERITED := by decide
    rw [hlookup, if_neg hfree, if_pos rfl, Option.filter_some]
    by_cases hsame : entry.2 = ID
    · rw [if_neg (by simp [kept, hsame]), Option.none_or, hsame]
    · have hkept : kept ("id", entry.2) = true := by
        simp only [kept, hsame]
        decide
      rw [if_pos hkept, Option.some_or]
  · -- any other is left out where every object answers to it
    have hkept : ∀ v, kept (name, v) = decide (name ∉ Json.INHERITED) := by
      intro v
      simp only [kept, isSystem, hname, hown, decide_false, Bool.false_or, Bool.false_and,
        Bool.not_false, Bool.and_true, decide_not]
    simp only [hkept, if_neg hown, Option.or_none]
    split_ifs with hfree
    · simp only [hfree, not_true, decide_false]
      cases entity.properties.lookup name <;> rfl
    · simp only [hfree, not_false_iff, decide_true]
      cases entity.properties.lookup name <;> rfl

theorem mem_required_restored {entity : Entity} (hgiven : given entity = true) (name : String) :
    name ∈ (unpack (pack entity)).required.getD [] ↔ name ∈ entity.required.getD [] := by
  obtain ⟨-, hrequired⟩ := (given_iff entity).mp hgiven
  have hleft : (pack entity).required.getD [] =
      (entity.required.getD []).filter (· ∉ REQUIRED) := by
    rw [pack, if_pos hgiven]
    simp only
    split_ifs with hempty
    · exact hempty.symm
    · rfl
  have hsystem : (pack entity).system = some true := by rw [pack, if_pos hgiven]
  rw [unpack, if_pos hsystem, Option.getD_some, List.mem_append, hleft, List.mem_filter,
    decide_eq_true_eq]
  constructor
  · rintro (⟨h, -⟩ | h)
    · exact h
    · exact hrequired name h
  · intro h
    by_cases hname : name ∈ REQUIRED
    · exact .inr hname
    · exact .inl ⟨h, hname⟩

section Entity

variable {entity : Entity} (hkeys : (entity.properties.map Prod.fst).Nodup)
  (hrequired : ∀ name ∈ entity.required.getD [],
    name ∈ entity.properties.map Prod.fst ∨ name ∈ Json.INHERITED)

include hrequired

theorem id_declared (hgiven : given entity = true) : "id" ∈ entity.properties.map Prod.fst := by
  obtain ⟨-, h⟩ := (given_iff entity).mp hgiven
  have hid : "id" ∈ REQUIRED := List.mem_cons_self
  exact (hrequired "id" (h "id" hid)).resolve_right (system_not_inherited "id" hid)

include hkeys

theorem lookup_restored_entity (name : String) :
    entity.restored.properties.lookup name =
      if given entity = true ∧ name ∈ Json.INHERITED then none else entity.properties.lookup name := by
  by_cases hgiven : given entity = true
  · have hid := id_declared hrequired hgiven
    simp only [restored_of_given hgiven, lookup_restored hgiven hkeys hid, hgiven, true_and]
  · rw [restored_of_not_given hgiven, if_neg fun hboth => hgiven hboth.1]

theorem id_restored : entity.restored.properties.lookup "id" = entity.properties.lookup "id" := by
  rw [lookup_restored_entity hkeys hrequired, if_neg]
  rintro ⟨-, h⟩
  exact absurd h (by decide)

theorem same_restored_iff :
    entity.restored.Same entity ↔
      (given entity = true → ∀ property ∈ entity.properties, property.1 ∉ Json.INHERITED) := by
  have hlookup := lookup_restored_entity hkeys hrequired
  constructor
  · rintro ⟨hsame, -⟩ hgiven property hproperty hname
    have h := hsame property.1
    rw [hlookup, if_pos ⟨hgiven, hname⟩, Assoc.lookup_of_mem hkeys hproperty] at h
    cases h
  · intro h
    constructor
    · intro name
      rw [hlookup]
      split_ifs with hname
      · symm
        rw [Assoc.lookup_eq_none_iff]
        intro hmem
        obtain ⟨property, hproperty, rfl⟩ := List.mem_map.mp hmem
        exact h hname.1 property hproperty hname.2
      · rfl
    · intro name
      by_cases hgiven : given entity = true
      · rw [restored_of_given hgiven]
        exact mem_required_restored hgiven name
      · rw [restored_of_not_given hgiven]

end Entity

/-! ## The operations -/

theorem query_declared {definition : Operation} (bindings : Option (List String))
    (h : definition.scope = some .none → definition.query = some false) :
    (declared (operation definition bindings) bindings).query = definition.query := by
  by_cases hscope : definition.scope = some .none
  · have hleft : (operation definition bindings).query = none := if_pos ⟨h hscope, hscope⟩
    have hback : (declared (operation definition bindings) bindings).query =
        (operation definition bindings).query.or (some false) := if_pos hscope
    rw [hback, hleft, h hscope, Option.none_or]
  · have hleft : (operation definition bindings).query = definition.query :=
      if_neg fun hboth => hscope hboth.2
    have hback : (declared (operation definition bindings) bindings).query =
        (operation definition bindings).query := if_neg hscope
    rw [hback, hleft]

theorem bindings_declared (definition : Operation) (bindings : Option (List String)) :
    (declared (operation definition bindings) bindings).bindings =
      definition.bindings.or bindings := by
  simp only [declared, operation]
  split_ifs with hsame
  · rw [hsame, Option.none_or, Option.or_self]
  · rfl

theorem declared_operation {definition : Operation} (bindings : Option (List String))
    (h : definition.scope = some .none → definition.query = some false) :
    declared (operation definition bindings) bindings =
      { definition with
        bindings := definition.bindings.or bindings
        output := definition.output.filter describes } := by
  have hback : declared (operation definition bindings) bindings =
      { definition with
        bindings := (declared (operation definition bindings) bindings).bindings
        query := (declared (operation definition bindings) bindings).query
        output := definition.output.filter describes } := rfl
  rw [hback, bindings_declared, query_declared bindings h]

/-- A request is described by the `id` of the entity and by nothing else of it. -/
theorem request_congr (definition : Operation) {entity other : Option Entity}
    (hnone : entity = none ↔ other = none)
    (hid : entity.bind (·.properties.lookup "id") = other.bind (·.properties.lookup "id")) :
    Request.schema definition entity = Request.schema definition other := by
  simp only [Request.schema, queried, identified, hnone, hid]

theorem lookup_reply (output : Option Json) (errors : Option (List String)) (key : String) :
    (Reply.properties output errors).lookup key =
      if key = "output" then output.map Reply.relaxed
      else if key = "error" then some (Reply.error errors) else none := by
  by_cases hkey : key = "output"
  · subst hkey
    cases output <;> rfl
  · rw [if_neg hkey, ← Assoc.lookup_single]
    cases output with
    | none => rfl
    | some output => exact Assoc.lookup_cons_of_ne hkey _ _

namespace Validator

variable (validator : Validator V)

theorem accepts_reply (output : Option Json) (errors : Option (List String)) (value : V) :
    validator.accepts (Reply.schema output errors) value ↔
      ∃ entries, validator.fields value = some entries ∧
        ∀ entry ∈ entries, ∃ schema,
          (Reply.properties output errors).lookup entry.1 = some schema ∧
            validator.accepts schema entry.2 := by
  have hnodup : ((Reply.properties output errors).map Prod.fst).Nodup := by
    cases output <;> simp [Reply.properties]
  exact validator.closed _ value hnodup

theorem not_alike_of_any {output : Json} (errors : Option (List String))
    (hany : ∀ value, validator.accepts (Reply.relaxed output) value) :
    ¬ validator.Alike (Reply.schema none errors) (Reply.schema (some output) errors) := by
  intro h
  have hfields : validator.fields (validator.object [("output", validator.object [])]) =
      some [("output", validator.object [])] :=
    validator.fields_object _ (List.nodup_singleton "output")
  have haccepted : validator.accepts (Reply.schema (some output) errors)
      (validator.object [("output", validator.object [])]) := by
    rw [accepts_reply]
    refine ⟨_, hfields, ?_⟩
    intro entry hentry
    rw [List.mem_singleton.mp hentry, lookup_reply, if_pos rfl]
    exact ⟨_, rfl, hany _⟩
  obtain ⟨entries, hentries, hall⟩ := (accepts_reply validator none errors _).mp ((h _).mpr haccepted)
  cases hfields.symm.trans hentries
  obtain ⟨schema, hschema, -⟩ := hall _ (List.mem_singleton.mpr rfl)
  rw [lookup_reply, if_pos rfl] at hschema
  cases hschema

theorem alike_of_none (errors : Option (List String)) :
    validator.Alike (Reply.schema none errors) (Reply.schema (some (.boolean false)) errors) := by
  intro value
  rw [accepts_reply, accepts_reply]
  have hentry : ∀ entry : String × V,
      (∃ schema, (Reply.properties none errors).lookup entry.1 = some schema ∧
        validator.accepts schema entry.2) ↔
      ∃ schema, (Reply.properties (some (.boolean false)) errors).lookup entry.1 = some schema ∧
        validator.accepts schema entry.2 := by
    intro entry
    simp only [lookup_reply]
    split_ifs with hname
    · constructor
      · rintro ⟨schema, h, -⟩
        cases h
      · rintro ⟨schema, h, haccepted⟩
        cases h
        exact absurd ((validator.boolean _ _).mp haccepted) Bool.false_ne_true
    · rfl
    · rfl
  simp only [hentry]

theorem reply_alike_iff {output : Option Json} (errors : Option (List String))
    (houtput : (∃ b, output = some (.boolean b)) ∨ ∃ entries, output = some (.object entries)) :
    validator.Alike (Reply.schema (output.filter describes) errors) (Reply.schema output errors) ↔
      output ≠ some (.object []) ∧ output ≠ some (.boolean true) := by
  rcases houtput with ⟨b, rfl⟩ | ⟨entries, rfl⟩
  · cases b with
    | true =>
      have hany : ∀ value, validator.accepts (Reply.relaxed (.boolean true)) value :=
        fun value => (validator.boolean true value).mpr rfl
      exact iff_of_false (validator.not_alike_of_any errors hany) fun h => h.2 rfl
    | false => exact iff_of_true (validator.alike_of_none errors) ⟨by simp, by simp⟩
  · -- only an object of no keys is left out
    cases entries with
    | nil => exact iff_of_false (validator.not_alike_of_any errors validator.empty) fun h => h.1 rfl
    | cons entry entries => exact iff_of_true (fun _ => Iff.rfl) ⟨by simp, by simp⟩

end Validator

/-! ## The round trip -/

theorem entity_restored (manifest : Contract) :
    (restore (component manifest)).entity = manifest.entity.map Entity.restored := by
  cases hentity : manifest.entity <;> simp [restore, component, hentity, Entity.restored]

theorem operation_restored (manifest : Contract) (endpoint : String) :
    (restore (component manifest)).operation endpoint =
      (manifest.operation endpoint).map fun definition =>
        declared (operation definition manifest.bindings) manifest.bindings := by
  cases hoperations : manifest.operations with
  | none => simp [Contract.operation, restore, component, hoperations]
  | some operations =>
    have hstated := Assoc.lookup_map (operation · manifest.bindings) operations endpoint
    have hdeclared := Assoc.lookup_map (declared · manifest.bindings)
      (operations.map fun entry => (entry.1, operation entry.2 manifest.bindings)) endpoint
    rw [hstated, Option.map_map] at hdeclared
    simpa only [Contract.operation, restore, component, hoperations, Option.map_some,
      Option.getD_some, Function.comp_def] using hdeclared

theorem request_restored {manifest : Contract} (h : Normalised manifest) (definition : Operation) :
    Request.schema definition (restore (component manifest)).entity =
      Request.schema definition manifest.entity := by
  rw [entity_restored]
  cases hentity : manifest.entity with
  | none => rfl
  | some entity =>
    have hid := id_restored (h.properties entity hentity) (h.required entity hentity)
    exact request_congr definition (iff_of_false (by simp) (by simp)) hid

theorem entity_same_iff {manifest : Contract} (h : Normalised manifest) :
    Option.Rel Entity.Same (restore (component manifest)).entity manifest.entity ↔
      ∀ entity ∈ manifest.entity, given entity = true →
        ∀ property ∈ entity.properties, property.1 ∉ Json.INHERITED := by
  rw [entity_restored]
  cases hentity : manifest.entity with
  | none =>
    refine iff_of_true .none ?_
    rintro entity ⟨⟩
  | some entity =>
    have hsame := same_restored_iff (h.properties entity hentity) (h.required entity hentity)
    rw [Option.map_some, Option.rel_some_some, hsame]
    constructor
    · rintro hall _ ⟨⟩
      exact hall
    · intro hall
      exact hall entity rfl

theorem call_same_iff (validator : Validator V) {manifest : Contract} (h : Normalised manifest)
    {entry : String × Operation} (hentry : entry ∈ manifest.operations.getD []) :
    validator.SameCall (restore (component manifest)).entity manifest.entity
        (declared (operation entry.2 manifest.bindings) manifest.bindings) entry.2 ↔
      entry.2.output ≠ some (.object []) ∧ entry.2.output ≠ some (.boolean true) := by
  have hreply := validator.reply_alike_iff entry.2.errors (h.output entry hentry)
  rw [declared_operation manifest.bindings (h.acquires entry hentry), ← hreply]
  constructor
  · intro hsame
    exact hsame.reply
  · intro halike
    refine ⟨?_, halike⟩
    intro value
    rw [request_restored h]
    exact Iff.rfl

theorem round_trip_iff (validator : Validator V) {manifest : Contract} (h : Normalised manifest) :
    RoundTrip validator manifest ↔
      (∀ entity ∈ manifest.entity, given entity = true →
        ∀ property ∈ entity.properties, property.1 ∉ Json.INHERITED) ∧
      ∀ entry ∈ manifest.operations.getD [],
        entry.2.output ≠ some (.object []) ∧ entry.2.output ≠ some (.boolean true) := by
  constructor
  · rintro ⟨hentity, hoperations⟩
    refine ⟨(entity_same_iff h).mp hentity, ?_⟩
    intro entry hentry
    have hlookup : manifest.operation entry.1 = some entry.2 :=
      Assoc.lookup_of_mem h.endpoints hentry
    have hsame := hoperations entry.1
    rw [operation_restored, hlookup, Option.map_some, Option.rel_some_some] at hsame
    exact (call_same_iff validator h hentry).mp hsame
  · rintro ⟨hentity, houtputs⟩
    refine ⟨(entity_same_iff h).mpr hentity, ?_⟩
    intro endpoint
    rw [operation_restored]
    cases hlookup : manifest.operation endpoint with
    | none => exact .none
    | some definition =>
      have hentry := Assoc.mem_of_lookup hlookup
      rw [Option.map_some, Option.rel_some_some]
      exact (call_same_iff validator h hentry).mpr (houtputs _ hentry)

def stated (property : String) (output : Json) : Contract :=
  { bindings := some ["@toa.io/bindings.amqp"]
    entity := some
      { properties := (property, text "string") :: ("id", ID) :: SYSTEM
        required := some REQUIRED }
    operations := some [("compute",
      { type := some .computation
        scope := some .none
        query := some false
        bindings := some ["@toa.io/bindings.amqp"]
        output := some output })] }

theorem stated_normalised {property : String} (hproperty : property ∉ REQUIRED)
    {entries : List (String × Json)} : Normalised (stated property (.object entries)) where
  properties := by
    rintro _ ⟨⟩
    exact List.nodup_cons.mpr ⟨hproperty, by decide⟩
  required := by
    rintro _ ⟨⟩ name hname
    exact .inl (List.mem_cons_of_mem _ hname)
  endpoints := List.nodup_singleton "compute"
  acquires := by
    intro entry hentry
    rw [List.mem_singleton.mp hentry]
    intro
    rfl
  output := by
    intro entry hentry
    rw [List.mem_singleton.mp hentry]
    exact .inr ⟨entries, rfl⟩

theorem round_trip_title : RoundTrip checker (stated "title" (text "number")) := by
  refine (round_trip_iff checker (stated_normalised (by decide))).mpr ⟨?_, ?_⟩
  · rintro _ ⟨⟩ -
    decide
  · intro entry hentry
    rw [List.mem_singleton.mp hentry]
    decide

/-- A property named as every object answers is left out and not put back, and an output that says
nothing is put back as none. -/
theorem constructor_is_dropped :
    (Normalised (stated "constructor" (text "number")) ∧
      ¬ RoundTrip checker (stated "constructor" (text "number"))) ∧
    Normalised (stated "title" (.object [])) ∧
      ¬ RoundTrip checker (stated "title" (.object [])) := by
  refine ⟨⟨stated_normalised (by decide), ?_⟩, stated_normalised (by decide), ?_⟩
  · rintro ⟨hentity, -⟩
    rw [entity_restored, stated, Option.map_some, Option.rel_some_some] at hentity
    exact absurd (hentity.1 "constructor") (by decide)
  · rintro ⟨-, hoperations⟩
    have hcall := hoperations "compute"
    rw [operation_restored] at hcall
    have hreply := (Option.rel_some_some.mp hcall).reply
    have hempty : ∀ value, checker.accepts (Reply.relaxed (.object [])) value := checker.empty
    exact checker.not_alike_of_any none hempty hreply

end Toa.Core
