import Toa.Call.Reply
import Toa.Exposition.Introspection
import Toa.RPC.Params

/-! What a tool takes and what it answers, as its schemas say and as a call of it is made. -/

namespace Toa.MCP
open RTD (Segment)
open Exposition.Introspect
open RPC (QUERY)
open JsonSchema (fields items keys isObject accepts)

def RESULT : String := "result"

def typed (type : String) : Json := .object [("type", .string type)]

/-! ## Schemas -/

section
variable (introspection : Introspection) («variables» : List String) (selection : Option (List (String × Json)))

def own : List (String × Json) :=
  «variables».foldl (fun properties name =>
    assign properties name ((introspection.route.lookup name).getD (typed "string"))) []

def queried : List (String × Json) := Assoc.spread introspection.query (selection.getD [])

def querySchema : Json :=
  .object [("type", .string "object"),
    ("description", .string
      "Which records the call works on: what to match, in what order, and how many at once."),
    ("properties", .object (queried introspection selection))]

def stated : List (String × Json) :=
  ((properties introspection.input).getD []).foldl (fun properties property =>
    assign properties property.1 property.2)
    (if queried introspection selection = [] then own introspection «variables»
      else assign (own introspection «variables») QUERY (querySchema introspection selection))

def required : List Json :=
  «variables».map .string ++ if (properties introspection.input).isSome then
    (introspection.input.bind (·.get "required")).elim [] items else []

/-- `input` -/
def input : Json :=
  .object ([("type", .string "object"), ("properties", .object (stated introspection «variables» selection))] ++
    (if required introspection «variables» = [] then []
      else [("required", .array (required introspection «variables»))]) ++
    [("additionalProperties", .boolean false)])

end

/-- `Object.keys(schema).length === 0` -/
def empty : Json → Bool
  | .object entries => entries = []
  | .array items => items = []
  | .string s => s = ""
  | _ => true

/-- `output` -/
def output (introspection : Introspection) : Option Json :=
  introspection.output.bind fun schema =>
    if schema = .null ∨ empty schema = true then none
    else if schema.get "type" = some (.string "object") then some schema
    else some (.object [("type", .string "object"), ("properties", .object [(RESULT, schema)]),
      ("required", .array [.string RESULT])])

def structured : Json → List (String × Json)
  | .object entries => entries
  | body => [(RESULT, body)]

/-- What a call is answered: text blocks, each for the value it is the JSON of, and structured content. -/
structure Result where
  content : List Json := []
  structuredContent : Option (List (String × Json)) := none
deriving DecidableEq

def result (body : Option Json) : Result :=
  match body with
  | none | some .null => {}
  | some body => ⟨[body], some (structured body)⟩

/-! ## What the input states -/

theorem lookup_assign (object : List (String × Json)) (key name : String) (value : Json) :
    (assign object key value).lookup name =
      if name = key ∧ key ≠ "__proto__" then some value else object.lookup name := by
  rw [assign]
  by_cases hprototype : key = "__proto__"
  · rw [if_pos hprototype, if_neg fun h => h.2 hprototype]
  · rw [if_neg hprototype, Assoc.lookup_gather]
    by_cases hname : name = key
    · rw [if_pos hname, if_pos ⟨hname, hprototype⟩]
      cases object.lookup key <;> rfl
    · rw [if_neg hname, if_neg fun h => hname h.1]

theorem mem_assign {object : List (String × Json)} {key name : String} {value : Json} :
    name ∈ (assign object key value).map Prod.fst ↔
      name ∈ object.map Prod.fst ∨ name = key ∧ key ≠ "__proto__" := by
  rw [← not_iff_not, ← Assoc.lookup_eq_none_iff, lookup_assign, not_or, ← Assoc.lookup_eq_none_iff]
  split_ifs with h
  · exact iff_of_false nofun fun hthis => hthis.2 h
  · exact (and_iff_left h).symm

theorem mem_foldl_assign {τ : Type*} {key : τ → String} {value : τ → Json} {items : List τ}
    {object : List (String × Json)} {name : String} :
    name ∈ (items.foldl (fun object t => assign object (key t) (value t)) object).map Prod.fst ↔
      name ∈ object.map Prod.fst ∨ name ∈ items.map key ∧ name ≠ "__proto__" := by
  induction items generalizing object with
  | nil => simp
  | cons t items ih =>
    rw [List.foldl_cons, ih, mem_assign, List.map_cons, List.mem_cons]
    constructor
    · rintro ((h | ⟨rfl, h⟩) | ⟨h, hne⟩)
      · exact .inl h
      · exact .inr ⟨.inl rfl, h⟩
      · exact .inr ⟨.inr h, hne⟩
    · rintro (h | ⟨rfl | h, hne⟩)
      · exact .inl (.inl h)
      · exact .inl (.inr ⟨rfl, hne⟩)
      · exact .inr ⟨h, hne⟩

theorem lookup_foldl_assign {τ : Type*} {key : τ → String} {value : τ → Json} {items : List τ}
    {object : List (String × Json)} {name : String} (h : name ∉ items.map key) :
    (items.foldl (fun object t => assign object (key t) (value t)) object).lookup name = object.lookup name := by
  induction items generalizing object with
  | nil => rfl
  | cons t items ih =>
    rw [List.map_cons, List.mem_cons, not_or] at h
    rw [List.foldl_cons, ih h.2, lookup_assign, if_neg fun hthis => h.1 hthis.1]

section
variable {introspection : Introspection} {«variables» : List String} {selection : Option (List (String × Json))}

theorem mem_stated {name : String} : name ∈ (stated introspection «variables» selection).map Prod.fst ↔
    (name ∈ «variables» ∨ (name = QUERY ∧ queried introspection selection ≠ []) ∨
      name ∈ listed introspection.input) ∧ name ≠ "__proto__" := by
  have hquery : QUERY ≠ "__proto__" := by decide
  rw [stated, mem_foldl_assign, ← listed]
  split_ifs with hqueried
  · rw [own, mem_foldl_assign]
    simp only [List.map_nil, List.not_mem_nil, false_or, List.map_id', hqueried, ne_eq, not_true_eq_false,
      and_false]
    tauto
  · rw [mem_assign, own, mem_foldl_assign]
    simp only [List.map_nil, List.not_mem_nil, false_or, List.map_id']
    constructor
    · rintro ((h | ⟨rfl, -⟩) | h)
      · exact ⟨.inl h.1, h.2⟩
      · exact ⟨.inr (.inl ⟨rfl, hqueried⟩), hquery⟩
      · exact ⟨.inr (.inr h.1), h.2⟩
    · rintro ⟨h | ⟨rfl, -⟩ | h, hne⟩
      · exact .inl (.inl ⟨h, hne⟩)
      · exact .inl (.inr ⟨rfl, hquery⟩)
      · exact .inr ⟨h, hne⟩

theorem lookup_stated (hlisted : QUERY ∉ listed introspection.input) (hqueried : queried introspection selection ≠ []) :
    (stated introspection «variables» selection).lookup QUERY = some (querySchema introspection selection) := by
  rw [stated, lookup_foldl_assign hlisted, if_neg hqueried, lookup_assign, if_pos ⟨rfl, by decide⟩]

theorem accepts_input {reading : JsonSchema.Reading} {args : List (String × Json)}
    (h : accepts reading (input introspection «variables» selection) (.object args) = true) :
    (∀ name ∈ «variables», name ∈ args.map Prod.fst) ∧
      (∀ entry ∈ args, entry.1 ∈ (stated introspection «variables» selection).map Prod.fst) ∧
      ∀ entry ∈ args, ∀ schema, (stated introspection «variables» selection).lookup entry.1 = some schema →
        accepts reading schema entry.2 = true := by
  rw [input] at h
  generalize hkeywords : [("type", Json.string "object"),
    ("properties", .object (stated introspection «variables» selection))] ++
      (if required introspection «variables» = [] then []
        else [("required", .array (required introspection «variables»))]) ++
      [("additionalProperties", .boolean false)] = keywords at h
  have hpatterns : keywords.lookup "patternProperties" = none := by
    rw [← hkeywords]
    split_ifs <;> rfl
  have hlookup : keywords.lookup "properties" =
      some (.object (stated introspection «variables» selection)) := by
    rw [← hkeywords]
    rfl
  have hadditional : ("additionalProperties", Json.boolean false) ∈ keywords := by
    rw [← hkeywords]
    exact List.mem_append_right _ List.mem_cons_self
  rw [JsonSchema.accepts_object] at h
  refine ⟨fun name hname => ?_, fun entry hentry => ?_, ?_⟩
  · have hmem : Json.string name ∈ required introspection «variables» :=
      List.mem_append_left _ (List.mem_map_of_mem hname)
    have hrequired : ("required", Json.array (required introspection «variables»)) ∈ keywords := by
      rw [← hkeywords, if_neg (List.ne_nil_of_mem hmem)]
      exact List.mem_append_left _ (List.mem_append_right _ (List.mem_singleton_self _))
    exact JsonSchema.holds_required.mp (h _ hrequired) rfl name (List.mem_filterMap.mpr ⟨_, hmem, rfl⟩)
  · by_contra hnot
    have hunstated : reading.stated keywords entry.1 = false := by
      rw [JsonSchema.Reading.stated, hlookup, hpatterns, Bool.or_eq_false_iff]
      exact ⟨decide_eq_false hnot, rfl⟩
    have hrefused := JsonSchema.holds_additional.mp (h _ hadditional) entry hentry hunstated
    rw [accepts] at hrefused
    cases hrefused
  · exact JsonSchema.holds_properties.mp (h _ (Assoc.mem_of_lookup hlookup))

end

/-! ## What is handed over -/

section
variable (numeral : ℚ → String) (introspection : Introspection) (segments : List Segment)
  (selection : Option (List (String × Json)))

/-- Each part of a call is handed over as what the schema describes it as: a variable by its text, at its
place in the path, the querystring as it is, and of the body what is left, each in one part only. -/
structure Handed (args : List (String × Json)) (address : RPC.Address)
    (parts : Option (List (String × Json)) × Option (List (String × Json))) : Prop where
  path : address.path = RPC.path (segments.map (RPC.Segment.value (RPC.params numeral args)))
  «variables» : address.«variables» = RPC.«variables» segments
  query : parts.1 = if queried introspection selection = [] then none else (args.lookup QUERY).map fields
  input : parts.2.getD [] = args.filter fun entry => entry.1 ∈ listed introspection.input
  whole : ∀ entry ∈ args, entry.1 ∈ RPC.«variables» segments ∨
    (entry.1 = QUERY ∧ queried introspection selection ≠ []) ∨ entry.1 ∈ listed introspection.input
  apart : ∀ name ∈ listed introspection.input, name ∉ RPC.«variables» segments ∧ name ≠ QUERY

/-- Neither a property of the body nor, beside a querystring, a variable has the name of the querystring. -/
structure Unnamed : Prop where
  body : QUERY ∉ listed introspection.input
  path : QUERY ∈ RPC.«variables» segments → queried introspection selection = []

variable {numeral introspection segments selection}

theorem handed {reading : JsonSchema.Reading} {args : List (String × Json)} (hnodup : (args.map Prod.fst).Nodup)
    (haccepts : accepts reading (input introspection (RPC.«variables» segments) selection) (.object args) = true)
    (hapart : ∀ name ∈ listed introspection.input, name ∉ RPC.«variables» segments)
    (hunnamed : Unnamed introspection segments selection) {verb : String} :
    ∃ parts, RPC.split args (RPC.«variables» segments) = .ok parts ∧
      Handed numeral introspection segments selection args
        ⟨RPC.path (segments.map (RPC.Segment.value (RPC.params numeral args))), verb, RPC.«variables» segments⟩
        parts := by
  obtain ⟨-, hstated, hschemas⟩ := accepts_input haccepts
  have hwhole : ∀ entry ∈ args, entry.1 ∈ RPC.«variables» segments ∨
      (entry.1 = QUERY ∧ queried introspection selection ≠ []) ∨ entry.1 ∈ listed introspection.input :=
    fun entry hentry => (mem_stated.mp (hstated entry hentry)).1
  have hquery : QUERY ∉ RPC.«variables» segments → ∀ entry ∈ args, entry.1 = QUERY → isObject entry.2 = true := by
    intro hvariable entry hentry hkey
    obtain hin | ⟨-, hqueried⟩ | hlisted := hwhole entry hentry
    · exact absurd (hkey ▸ hin) hvariable
    · have hschema := hschemas entry hentry (querySchema introspection selection)
        (hkey ▸ lookup_stated hunnamed.body hqueried)
      rcases JsonSchema.holds_type.mp (JsonSchema.accepts_object.mp hschema _ List.mem_cons_self) with htyped | hnull
      · exact JsonSchema.typed_object.mp htyped
      · cases hnull.1
    · exact absurd (hkey ▸ hlisted) hunnamed.body
  have hremains : args.filter (RPC.remains (RPC.«variables» segments)) =
      args.filter fun entry => entry.1 ∈ listed introspection.input := by
    refine List.filter_congr fun entry hentry => ?_
    have hprototype := (mem_stated.mp (hstated entry hentry)).2
    refine decide_eq_decide.mpr ⟨?_, ?_⟩
    · rintro ⟨hvariable, hkey, -⟩
      exact ((hwhole entry hentry).resolve_left hvariable).resolve_left fun h => hkey h.1
    · intro hlisted
      exact ⟨hapart _ hlisted, fun hkey => hunnamed.body (hkey ▸ hlisted), hprototype⟩
  have hquerystring : RPC.querystring args (RPC.«variables» segments) =
      if queried introspection selection = [] then none else (args.lookup QUERY).map fields := by
    rw [RPC.querystring]
    by_cases hvariable : QUERY ∈ RPC.«variables» segments
    · rw [if_pos hvariable, if_pos (hunnamed.path hvariable)]
    · rw [if_neg hvariable]
      split_ifs with hqueried
      · rw [Assoc.lookup_eq_none_iff.mpr, Option.map_none]
        intro hmem
        obtain ⟨entry, hentry, hkey⟩ := List.mem_map.mp hmem
        obtain hin | ⟨-, hne⟩ | hlisted := hwhole entry hentry
        · exact hvariable (hkey ▸ hin)
        · exact hne hqueried
        · exact hunnamed.body (hkey ▸ hlisted)
      · rfl
  refine ⟨_, RPC.split_ok hnodup hquery, rfl, rfl, hquerystring, ?_, hwhole, fun name hname => ⟨hapart name hname, ?_⟩⟩
  · rw [hremains]
    split_ifs with hnil
    · exact hnil.symm
    · rfl
  · rintro rfl
    exact hunnamed.body hname

end

end Toa.MCP
