import Toa.Lib.JsonSchema

/-! The schemas a request and a reply of an operation are held to, of what the operation and the
entity it works on are declared with. -/

namespace Toa.Core

inductive Kind
  | transition
  | observation
  | assignment
  | computation
  | effect
  | unmanaged
  deriving DecidableEq

inductive Scope
  | entry
  | entries
  | changeset
  | stream
  | none
  deriving DecidableEq

structure Operation where
  type : Option Kind := none
  scope : Option Scope := none
  query : Option Bool := none
  once : Option Json := none
  stateful : Option Bool := none
  stream : Option String := none
  bindings : Option (List String) := none
  description : Option String := none
  input : Option Json := none
  output : Option Json := none
  errors : Option (List String) := none
  deriving DecidableEq

structure Entity where
  properties : List (String × Json)
  required : Option (List String) := none
  system : Option Bool := none
  deriving DecidableEq

def text (s : String) : Json := .object [("type", .string s)]

def texts (names : List String) : Json := .array (names.map .string)

/-! ## The query of a request -/

def SORTED : String :=
  "^\\w\x7b1,32\x7d(?:\\.\\w\x7b1,32\x7d)\x7b0,7\x7d(?::(?:asc|desc))?$"

def UNMOVING : String := "^(?:id|CREATED)(?::(?:asc|desc))?$"

def query : List (String × Json) :=
  [("id", text "string"),
    ("ids", .object [("type", .string "array"), ("uniqueItems", .boolean true),
      ("minItems", .number 1), ("items", text "string")]),
    ("version", .object [("type", .string "integer"), ("minimum", .number 0)]),
    ("criteria", text "string"),
    ("search", text "string"),
    ("sample", text "number"),
    ("omit", .object [("type", .string "integer"), ("minimum", .number 0)]),
    ("limit", .object [("type", .string "integer"), ("minimum", .number 1)]),
    ("sort", .object [("type", .string "array"), ("uniqueItems", .boolean true),
      ("minItems", .number 1),
      ("items", .object [("type", .string "string"), ("pattern", .string SORTED)])]),
    ("projection", .object [("type", .string "array"), ("uniqueItems", .boolean true),
      ("minItems", .number 1),
      ("items", .object [("type", .string "string"),
        ("not", .object [("const", .string "id")])])]),
    ("deleted", text "boolean"),
    ("token", .object [("type", .string "string"), ("minLength", .number 1)]),
    ("stop", text "boolean")]

def without (names : List String) (properties : List (String × Json)) : List (String × Json) :=
  properties.filter (·.1 ∉ names)

/-- `query.properties.id = entity?.properties.id`, and no schema where there is none. -/
def identified (entity : Option Entity) : List (String × Json) :=
  match entity.bind (·.properties.lookup "id") with
  | some id => query.map fun property => if property.1 = "id" then (property.1, id) else property
  | none => without ["id"] query

def queried (definition : Operation) (entity : Option Entity) : Json :=
  let properties := without
    [if definition.type = some .observation then "version" else "projection"] (identified entity)
  let schema (properties : List (String × Json)) (more : List (String × Json)) : Json :=
    .object ([("type", .string "object"), ("properties", .object properties),
      ("additionalProperties", .boolean false)] ++ more)
  match definition.scope with
  | some .stream =>
    schema (without ["omit"] properties)
      [("if", .object [("anyOf", .array [.object [("required", texts ["limit"])],
        .object [("required", texts ["token"])]])]),
      ("then", .object [("properties", .object [("sort", .object [("items",
        .object [("pattern", .string UNMOVING)])])])])]
  | some .entries =>
    schema (without ["token", "stop"] properties)
      [("anyOf", .array [.object [("required", texts ["limit"])],
        .object [("required", texts ["ids"])]]),
      ("dependentRequired", .object [("omit", texts ["sort"])])]
  | _ => schema (without ["token", "stop", "omit", "limit"] properties) []

/-! ## Request -/

namespace Request

def streamed (input : Json) (property : String) : Json :=
  let properties := ((input.get "properties").getD (.object [])).put property (.object [])
  let required := match input.get "required" with
    | some (.array names) => .array (names ++ [.string property])
    | _ => texts [property]
  (input.put "properties" properties).put "required" required

def input (definition : Operation) : Json :=
  match definition.stream, definition.input with
  | some property, some .null => streamed (text "object") property
  | some property, some input => streamed input property
  | some property, none => streamed (text "object") property
  | none, some input => input
  | none, none => text "null"

def schema (definition : Operation) (entity : Option Entity) : Json :=
  -- an operation of a component without an entity has nothing to query
  let asked := if entity = none then some false else definition.query
  let required :=
    (if definition.stream = none ∧ definition.input = none then [] else ["input"]) ++
      (if asked = some true then ["query"] else [])
  .object ([("type", .string "object"),
    ("properties", .object [
      ("id", text "string"),
      ("authentic", text "boolean"),
      ("task", text "boolean"),
      ("readonly", text "boolean"),
      ("output", .object [("type", .string "array"), ("uniqueItems", .boolean true),
        ("items", text "string")]),
      ("input", input definition),
      ("query", if asked = some false then text "null" else queried definition entity)]),
    ("additionalProperties", .boolean true)] ++
    if required = [] then [] else [("required", texts required)])

end Request

/-! ## Reply -/

namespace Reply

def relaxed (output : Json) : Json :=
  if output.get "type" = some (.string "object") then
    output.put "additionalProperties" (.boolean true)
  else if output.get "type" = some (.string "array") then
    match output.get "items" with
    | some items =>
      if items.get "type" = some (.string "object") then
        output.put "items" (items.put "additionalProperties" (.boolean true))
      else output
    | none => output
  else output

def error (errors : Option (List String)) : Json :=
  match errors with
  | none => .boolean false
  | some errors => .object [("type", .string "object"),
      ("properties", .object [("code", .object [("enum", texts errors)]), ("cause", .object [])]),
      ("required", texts ["code"]), ("additionalProperties", .boolean false)]

def properties (output : Option Json) (errors : Option (List String)) : List (String × Json) :=
  (output.map fun output => ("output", relaxed output)).toList ++ [("error", error errors)]

def closed (properties : List (String × Json)) : Json :=
  .object [("type", .string "object"), ("properties", .object properties),
    ("additionalProperties", .boolean false)]

def schema (output : Option Json) (errors : Option (List String)) : Json :=
  closed (properties output errors)

end Reply

/-! ## What a validator is relied on for -/

structure Validator (V : Type) where
  accepts : Json → V → Prop
  fields : V → Option (List (String × V))
  object : List (String × V) → V
  fields_object : ∀ entries, (entries.map Prod.fst).Nodup → fields (object entries) = some entries
  boolean : ∀ b value, accepts (.boolean b) value ↔ b = true
  empty : ∀ value, accepts (.object []) value
  closed : ∀ properties value, (properties.map Prod.fst).Nodup →
    (accepts (Reply.closed properties) value ↔
      ∃ entries, fields value = some entries ∧
        ∀ entry ∈ entries, ∃ schema, properties.lookup entry.1 = some schema ∧
          accepts schema entry.2)

/-! ## A validator of JSON -/

/-- Of what the library leaves open, `uniqueItems`. -/
def reading : JsonSchema.Reading where
  pattern _ _ := false
  other _ keyword argument value :=
    !(keyword = "uniqueItems" && argument = .boolean true) || decide (JsonSchema.items value).Nodup

theorem accepts_closed (properties : List (String × Json)) (value : Json) :
    JsonSchema.accepts reading (Reply.closed properties) value = true ↔
      ∃ entries, value = .object entries ∧
        ∀ entry ∈ entries, ∃ schema, properties.lookup entry.1 = some schema ∧
          JsonSchema.accepts reading schema entry.2 = true := by
  have hstated (name : String) : reading.stated [("type", .string "object"),
      ("properties", .object properties), ("additionalProperties", .boolean false)] name = false ↔
        properties.lookup name = none := by
    rw [Assoc.lookup_eq_none_iff, ← decide_eq_false_iff_not]
    exact Eq.congr_left (Bool.or_false _)
  rw [Reply.closed, JsonSchema.accepts_object, List.forall_mem_cons, List.forall_mem_cons,
    List.forall_mem_singleton, JsonSchema.holds_type, JsonSchema.holds_properties,
    JsonSchema.holds_additional]
  constructor
  · rintro ⟨htype, hproperties, hadditional⟩
    have hobject := htype.resolve_right fun hnull => by cases hnull.1
    obtain ⟨entries, rfl⟩ := JsonSchema.isObject_iff.mp (JsonSchema.typed_object.mp hobject)
    refine ⟨entries, rfl, fun entry hentry => ?_⟩
    cases hschema : properties.lookup entry.1 with
    | none =>
      have hrefused := hadditional entry hentry ((hstated entry.1).mpr hschema)
      rw [JsonSchema.accepts] at hrefused
      cases hrefused
    | some schema => exact ⟨schema, rfl, hproperties entry hentry schema hschema⟩
  · rintro ⟨entries, rfl, hall⟩
    refine ⟨.inl rfl, fun entry hentry property hproperty => ?_, fun entry hentry hfree => ?_⟩
    · obtain ⟨schema, hschema, haccepts⟩ := hall entry hentry
      obtain rfl := Option.some.inj (hschema.symm.trans hproperty)
      exact haccepts
    · obtain ⟨schema, hschema, -⟩ := hall entry hentry
      cases hschema.symm.trans ((hstated entry.1).mp hfree)

def checker : Validator Json where
  accepts schema value := JsonSchema.accepts reading schema value = true
  fields
    | .object entries => some entries
    | _ => none
  object := .object
  fields_object _ _ := rfl
  boolean b value := by rw [JsonSchema.accepts]
  empty value := JsonSchema.accepts_object.mpr (List.forall_mem_nil _)
  closed properties value _ := by
    rw [accepts_closed]
    cases value <;> simp

end Toa.Core
