import Toa.MCP.Schemas

/-! Replies as their schemas are restricted, and tools from what they take to what they answer. -/

namespace Toa.MCP
open RTD (Segment)
open Exposition.Introspect
open RPC (QUERY)
open JsonSchema (fields items keys isObject accepts)

def isList : Json → Bool
  | .array _ => true
  | _ => false

section
variable (reading : JsonSchema.Reading) (allowed : List String)

/-- What a schema says of a reply is said, restricted, of the reply restricted: no property is required that
is left out, and what the keywords that are not read assert is asserted of what is left. -/
structure Lasting (schema reply : Json) : Prop where
  required : isObject reply = true → ∀ argument, ("required", argument) ∈ fields (restrict allowed schema) →
    ∀ name ∈ JsonSchema.names argument, name ∈ allowed ∧ name ≠ "__proto__"
  other : ∀ keyword argument, (keyword, argument) ∈ fields schema → keyword ∉ JsonSchema.READ →
    reading.other (fields schema) keyword argument reply = true →
      reading.other (fields (restrict allowed schema)) keyword argument (Call.restricted reply allowed) = true

/-- So it is of the reply and of each item of it, none of which is a list where anything is said of them. -/
structure Lasts (schema reply : Json) : Prop where
  whole : Lasting reading allowed schema reply
  items : ∀ argument, ("items", argument) ∈ fields schema → ∀ item ∈ items reply,
    isList item = false ∧ Lasting reading allowed argument item

end

/-! ## Restricted replies -/

section
variable {reading : JsonSchema.Reading} {allowed : List String}

theorem mem_fields_restricted {reply : Json} {entry : String × Json}
    (h : entry ∈ fields (Call.restricted reply allowed)) :
    entry ∈ fields reply ∧ entry.1 ∈ allowed ∧ entry.1 ≠ "__proto__" := by
  cases reply with
  | object entries =>
    obtain ⟨hmem, hkept⟩ := List.mem_filter.mp h
    exact ⟨hmem, of_decide_eq_true hkept⟩
  | _ => cases h

theorem keys_restricted {reply : Json} {name : String} (h : name ∈ keys reply) (hallowed : name ∈ allowed)
    (hprototype : name ≠ "__proto__") : name ∈ keys (Call.restricted reply allowed) := by
  cases reply with
  | object entries =>
    obtain ⟨entry, hentry, rfl⟩ := List.mem_map.mp h
    exact List.mem_map_of_mem (List.mem_filter.mpr ⟨hentry, decide_eq_true ⟨hallowed, hprototype⟩⟩)
  | _ => cases h

theorem typed_restricted (reply : Json) (type : String) :
    JsonSchema.typed type (Call.restricted reply allowed) = JsonSchema.typed type reply := by
  cases reply <;> rfl

theorem isObject_restricted (reply : Json) : isObject (Call.restricted reply allowed) = isObject reply := by
  cases reply <;> rfl

theorem types_restricted (reply type : Json) :
    JsonSchema.types type (Call.restricted reply allowed) = JsonSchema.types type reply := by
  cases type <;> simp only [JsonSchema.types, typed_restricted]

theorem items_restricted (reply : Json) :
    items (Call.restricted reply allowed) = (items reply).map (Call.fitted · allowed) := by
  cases reply <;> rfl

theorem restrict_object (allowed : List String) (entries : List (String × Json)) :
    ∃ left, restrict allowed (.object entries) = .object left := by
  cases hitems : entries.lookup "items" with
  | some items => exact ⟨_, restrict_items (by rw [hitems]; rfl)⟩
  | none =>
    cases hstated : entries.lookup "properties" with
    | none => exact ⟨_, restrict_plain hitems hstated⟩
    | some stated =>
      rw [restrict_properties hitems hstated]
      exact narrowed_object ..

theorem lookup_properties {entries left : List (String × Json)}
    (hleft : restrict allowed (.object entries) = .object left) :
    left.lookup "properties" = entries.lookup "properties" ∨ ∃ stated, entries.lookup "properties" = some stated ∧
      left.lookup "properties" = some (.object ((fields stated).filter fun entry =>
        entry.1 ∈ allowed ∧ entry.1 ≠ "__proto__")) := by
  cases hitems : entries.lookup "items" with
  | some items =>
    rw [restrict_items (by rw [hitems]; rfl)] at hleft
    obtain rfl := Json.object.inj hleft
    exact .inl (lookup_restrictItems (by decide))
  | none =>
    cases hstated : entries.lookup "properties" with
    | none =>
      rw [restrict_plain hitems hstated] at hleft
      obtain rfl := Json.object.inj hleft
      exact .inl hstated
    | some stated =>
      rw [restrict_properties hitems hstated] at hleft
      refine .inr ⟨stated, rfl, ?_⟩
      have hget := get_properties (.object entries) ((fields stated).filter fun entry =>
        entry.1 ∈ allowed ∧ entry.1 ≠ "__proto__") (· ∈ allowed.map Json.string)
      rw [hleft] at hget
      exact hget

theorem stated_restrict {entries left : List (String × Json)} {name : String}
    (hleft : restrict allowed (.object entries) = .object left) (hallowed : name ∈ allowed)
    (hprototype : name ≠ "__proto__") (h : reading.stated left name = false) :
    reading.stated entries name = false := by
  have hpatterns : left.lookup "patternProperties" = entries.lookup "patternProperties" := by
    have hget := @get_restrict allowed "patternProperties" (by decide) (by decide) (by decide) (.object entries)
    rw [hleft] at hget
    exact hget
  rw [JsonSchema.Reading.stated, Bool.or_eq_false_iff, decide_eq_false_iff_not] at h ⊢
  rw [hpatterns] at h
  refine ⟨fun hin => ?_, h.2⟩
  obtain hsame | ⟨stated, hstated, hkept⟩ := lookup_properties hleft
  · exact h.1 (hsame ▸ hin)
  · rw [hstated] at hin
    rw [hkept] at h
    obtain ⟨entry, hentry, rfl⟩ := List.mem_map.mp hin
    exact h.1 (List.mem_map_of_mem (List.mem_filter.mpr ⟨hentry, decide_eq_true ⟨hallowed, hprototype⟩⟩))

theorem accepts_restrict {schema reply : Json} (h : accepts reading schema reply = true)
    (hlasting : Lasting reading allowed schema reply)
    (hitems : ∀ argument, ("items", argument) ∈ fields schema → ∀ item ∈ items reply,
      accepts reading (restrict allowed argument) (Call.fitted item allowed) = true) :
    accepts reading (restrict allowed schema) (Call.restricted reply allowed) = true := by
  cases schema with
  | boolean b =>
    simp only [accepts] at h
    simp only [restrict, accepts, h]
  | null | number | string | array => simp only [accepts, Bool.false_eq_true] at h
  | object entries =>
    obtain ⟨left, hleft⟩ := restrict_object allowed entries
    rw [JsonSchema.accepts_object] at h
    rw [hleft, JsonSchema.accepts_object]
    rintro ⟨keyword, argument⟩ hmem
    have hrestricted : (keyword, argument) ∈ fields (restrict allowed (.object entries)) := by
      rw [hleft]
      exact hmem
    have hrequired (stated : Json) (hstated : ("required", stated) ∈ entries)
        (hsubset : JsonSchema.names argument ⊆ JsonSchema.names stated) (hkeyword : keyword = "required") :
        JsonSchema.Holds reading left keyword argument (Call.restricted reply allowed) := by
      subst hkeyword
      rw [JsonSchema.holds_required, isObject_restricted]
      intro hobject name hname
      obtain ⟨hallowed, hprototype⟩ := hlasting.required hobject argument hrestricted name hname
      exact keys_restricted (JsonSchema.holds_required.mp (h _ hstated) hobject name (hsubset hname)) hallowed hprototype
    obtain ⟨rfl, stated, hstated, rfl⟩ | ⟨hkeyword, stated, hstated, hsubset⟩ | ⟨argument', hmem', rfl⟩ :=
      mem_restrict hrestricted
    · refine JsonSchema.holds_properties.mpr fun entry hentry property hproperty => ?_
      obtain ⟨hfield, hkept⟩ := mem_fields_restricted hentry
      have hlookup := @Assoc.lookup_filter_key _ _ _ (fun name => decide (name ∈ allowed ∧ name ≠ "__proto__"))
        (fields stated) entry.1
      rw [if_pos (decide_eq_true hkept)] at hlookup
      exact JsonSchema.holds_properties.mp (h _ (Assoc.mem_of_lookup hstated)) entry hfield property
        (hlookup.symm.trans hproperty)
    · exact hrequired stated hstated hsubset hkeyword
    · by_cases hread : keyword ∈ JsonSchema.READ
      · simp only [JsonSchema.READ, List.mem_cons, List.not_mem_nil, or_false] at hread
        rcases hread with rfl | rfl | rfl | rfl | rfl
        · exact JsonSchema.holds_properties.mpr fun entry hentry property hproperty =>
            JsonSchema.holds_properties.mp (h _ hmem') entry (mem_fields_restricted hentry).1 property hproperty
        · refine JsonSchema.holds_additional.mpr fun entry hentry hstated => ?_
          obtain ⟨hfield, hallowed, hprototype⟩ := mem_fields_restricted hentry
          exact JsonSchema.holds_additional.mp (h _ hmem') entry hfield
            (stated_restrict hleft hallowed hprototype hstated)
        · rw [if_pos rfl, JsonSchema.holds_items, items_restricted]
          exact List.forall_mem_map.mpr (hitems argument' hmem')
        · rw [JsonSchema.holds_type, types_restricted]
          refine (JsonSchema.holds_type.mp (h _ hmem')).imp_right fun hnull => ⟨?_, ?_⟩
          · have hget := @get_restrict allowed "nullable" (by decide) (by decide) (by decide) (.object entries)
            rw [hleft] at hget
            exact (hget : left.lookup "nullable" = _).trans hnull.1
          · rw [hnull.2]
            rfl
        · exact hrequired argument' hmem' (List.Subset.refl _) rfl
      · have hkeyword : keyword ≠ "items" := by
          rintro rfl
          exact hread (by decide)
        rw [if_neg hkeyword, JsonSchema.holds_other hread]
        have hother := hlasting.other keyword argument' hmem' hread ((JsonSchema.holds_other hread).mp (h _ hmem'))
        rw [hleft] at hother
        exact hother

theorem items_of_isList {value : Json} (h : isList value = false) : items value = [] := by
  cases value with
  | array => cases h
  | _ => rfl

theorem accepts_reply {schema reply : Json} (h : accepts reading schema reply = true)
    (hlasts : Lasts reading allowed schema reply) :
    accepts reading (restrict allowed schema) (Call.restricted reply allowed) = true := by
  refine accepts_restrict h hlasts.whole fun argument hargument item hitem => ?_
  obtain ⟨hlist, hlasting⟩ := hlasts.items argument hargument item hitem
  have hfitted : Call.fitted item allowed = Call.restricted item allowed := by
    cases item with
    | array => cases hlist
    | _ => rfl
  have haccepts : accepts reading argument item = true := by
    cases schema with
    | object entries =>
      exact JsonSchema.holds_items.mp (JsonSchema.accepts_object.mp h _ hargument) item hitem
    | _ => cases hargument
  rw [hfitted]
  refine accepts_restrict haccepts hlasting fun _ _ inner hinner => ?_
  rw [items_of_isList hlist] at hinner
  cases hinner

end

/-! ## Structured content -/

/-- A schema that says what its values are, and that they are objects only where it says nothing else. -/
def told (schema : Json) : Bool :=
  match schema.get "type" with
  | some (.string _) => true
  | some type => "object" ∉ JsonSchema.names type
  | none => false

section
variable {reading : JsonSchema.Reading}

theorem isObject_of_told {schema body : Json} (h : accepts reading schema body = true) (hbody : body ≠ .null)
    (htold : told schema = true) (htype : schema.get "type" ≠ some (.string "object")) : isObject body = false := by
  rw [told] at htold
  cases hget : schema.get "type" with
  | none =>
    rw [hget] at htold
    cases htold
  | some type =>
    obtain ⟨entries, rfl⟩ : ∃ entries, schema = .object entries := by
      cases schema with
      | object entries => exact ⟨entries, rfl⟩
      | _ => cases hget
    have htypes : JsonSchema.types type body = true :=
      (JsonSchema.holds_type.mp (JsonSchema.accepts_object.mp h _ (Assoc.mem_of_lookup hget))).resolve_right
        fun hnull => hbody hnull.2
    rw [hget] at htold htype
    cases body with
    | object fields =>
      have hobject (name : String) (htyped : JsonSchema.typed name (.object fields) = true) : name = "object" :=
        of_decide_eq_true htyped
      cases type with
      | string name => exact absurd (congrArg (some ∘ Json.string) (hobject name htypes)) htype
      | _ =>
        obtain ⟨name, hname, htyped⟩ := List.any_eq_true.mp htypes
        exact absurd (hobject name htyped ▸ hname) (of_decide_eq_true htold)
    | _ => rfl

theorem structured_eq {body : Json} (h : isObject body = false) : structured body = [(RESULT, body)] := by
  cases body with
  | object => cases h
  | _ => rfl

theorem accepts_result {schema body : Json} (h : accepts reading schema body = true) :
    accepts reading (.object [("type", .string "object"), ("properties", .object [(RESULT, schema)]),
      ("required", .array [.string RESULT])]) (.object [(RESULT, body)]) = true := by
  rw [JsonSchema.accepts_object]
  refine List.forall_mem_cons.mpr ⟨JsonSchema.holds_type.mpr (.inl rfl), List.forall_mem_cons.mpr ⟨?_, ?_⟩⟩
  · refine JsonSchema.holds_properties.mpr (List.forall_mem_singleton.mpr fun property hproperty => ?_)
    rw [fields, List.lookup_cons_self] at hproperty
    exact Option.some.inj hproperty ▸ h
  · refine List.forall_mem_singleton.mpr (JsonSchema.holds_required.mpr fun _ => ?_)
    exact List.forall_mem_singleton.mpr (List.mem_singleton_self _)

theorem structured_accepted {introspection : Introspection} {schema body outputSchema : Json}
    (hschema : introspection.output = some schema) (h : accepts reading schema body = true) (hbody : body ≠ .null)
    (htold : told schema = true ∨ isObject body = false) (houtput : output introspection = some outputSchema) :
    accepts reading outputSchema (.object (structured body)) = true := by
  rw [output, hschema, Option.bind_some] at houtput
  split_ifs at houtput with hempty htype
  · obtain rfl := Option.some.inj houtput
    cases schema with
    | object entries =>
      obtain ⟨fields, rfl⟩ :=
        JsonSchema.isObject_iff.mp (JsonSchema.isObject_of_accepts h (Assoc.mem_of_lookup htype) hbody)
      exact h
    | _ => cases htype
  · obtain rfl := Option.some.inj houtput
    have hbare : isObject body = false := htold.elim (fun htold => isObject_of_told h hbody htold htype) id
    rw [structured_eq hbare]
    exact accepts_result h

end

theorem structuredContent_eq {body : Json} (h : body ≠ .null) :
    (result (some body)).structuredContent = some (structured body) := by
  cases body with
  | null => exact absurd rfl h
  | _ => rfl

/-! ## Tools -/

section
variable (numeral : ℚ → String) (reading : JsonSchema.Reading)

theorem tool_faithful {segments : List Segment} {verb named : String} (hname : RPC.name segments verb = some named)
    (hverb : verb ∈ RPC.verbs) {declared answered : Option Json} {queries : List String}
    (selection : Option (List (String × Json))) {directives : List Io} {introspection : Introspection}
    (hdescribed : (introspect declared answered (RPC.«variables» segments) queries).map (describe directives) =
      some introspection) :
    (∀ args, (args.map Prod.fst).Nodup →
      accepts reading (input introspection (RPC.«variables» segments) selection) (.object args) = true →
        ((∃ address, RPC.address named (RPC.params numeral args) = .ok address) ↔
          ∀ segment ∈ segments, RPC.Supplied (RPC.params numeral args) segment) ∧
        (Unnamed introspection segments selection →
          ∀ address, RPC.address named (RPC.params numeral args) = .ok address →
            ∃ parts, RPC.split args address.«variables» = .ok parts ∧
              Handed numeral introspection segments selection args address parts)) ∧
    ∀ schema reply body outputSchema, answered = some schema → accepts reading schema reply = true →
      (∀ allowed, asked directives = some allowed → Lasts reading allowed schema reply) →
        Call.replied (asked directives) reply = some body → body ≠ .null →
          told schema = true ∨ isObject body = false → output introspection = some outputSchema →
            ∃ content, (result (some body)).structuredContent = some content ∧
              accepts reading outputSchema (.object content) = true := by
  obtain ⟨described, hintrospect, rfl⟩ := Option.map_eq_some_iff.mp hdescribed
  refine ⟨fun args hnodup haccepts => ⟨?_, fun hunnamed address haddress => ?_⟩, ?_⟩
  · constructor
    · rintro ⟨address, haddress⟩
      exact ((RPC.address_iff hname hverb).mp haddress).1
    · exact fun hsupplied => ⟨_, (RPC.address_iff hname hverb).mpr ⟨hsupplied, rfl⟩⟩
  · obtain ⟨-, rfl⟩ := (RPC.address_iff hname hverb).mp haddress
    exact handed hnodup haccepts (fun name hlisted =>
      listed_introspect hintrospect name (listed_describe directives described hlisted)) hunnamed
  · intro schema reply body outputSchema hanswered haccepts hlasts hreplied hbody htold houtput
    obtain ⟨stated, hstated, -⟩ := Option.bind_eq_some_iff.mp houtput
    obtain ⟨whole, hwhole, hasked⟩ := output_describe hstated
    rw [output_introspect hintrospect, hanswered] at hwhole
    obtain rfl := Option.some.inj hwhole
    refine ⟨structured body, structuredContent_eq hbody, ?_⟩
    obtain ⟨hnone, rfl⟩ | ⟨allowed, hallowed, rfl⟩ := hasked
    · rw [hnone] at hreplied
      obtain rfl := Option.some.inj hreplied
      exact structured_accepted hstated haccepts hbody htold houtput
    · rw [hallowed, Call.replied] at hreplied
      split_ifs at hreplied with hnull
      · exact absurd (Option.some.inj hreplied).symm hbody
      · obtain rfl := Option.some.inj hreplied
        refine structured_accepted hstated (accepts_reply haccepts (hlasts allowed hallowed)) hbody ?_ houtput
        refine htold.imp_left fun htold => ?_
        rwa [told, get_restrict (by decide) (by decide) (by decide), ← told]

end

/-! ## A tool -/

def lenient : JsonSchema.Reading := ⟨fun _ _ => false, fun _ _ _ _ => true⟩

def shape (properties more : List (String × Json)) : Json :=
  .object ([("type", .string "object"), ("properties", .object properties)] ++ more)

def requiring (names : List String) : String × Json := ("required", .array (names.map .string))

def potInput : Json :=
  shape [("id", typed "string"), ("title", typed "string"), ("secret", typed "string")] [requiring ["id", "title"]]

def potOutput : Json :=
  shape [("id", typed "string"), ("volume", typed "number")]
    [requiring ["id", "volume"], ("additionalProperties", .boolean false)]

/-- `/pots/:id`, with what its body and its reply may hold. -/
def pot : Introspection where
  route := [("id", typed "string")]
  input := some (shape [("title", typed "string")] [requiring ["title"]])
  output := some (shape [("id", typed "string")] [requiring ["id"], ("additionalProperties", .boolean false)])

def potArgs : List (String × Json) :=
  [("id", .string "a1"), ("title", .string "Kettle"), ("query", .object [("criteria", .string "hot")])]

theorem tool_faithful_pot :
    (∃ parts, RPC.split potArgs ["id"] = .ok parts ∧
      Handed (fun _ => "") pot [.fragment "pots", .placeholder "id"] (some [("criteria", typed "string")]) potArgs
        ⟨"/pots/a1/", "PATCH", ["id"]⟩ parts) ∧
    ∃ content, (result (some (.object [("id", .string "a1")]))).structuredContent = some content ∧
      accepts lenient (shape [("id", typed "string")] [requiring ["id"], ("additionalProperties", .boolean false)])
        (.object content) = true := by
  obtain ⟨htaken, hreplied⟩ := @tool_faithful (fun _ => "") lenient [.fragment "pots", .placeholder "id"] "PATCH"
    "pots._id.PATCH" (by decide) (by decide) (some potInput) (some potOutput) []
    (some [("criteria", typed "string")]) [.input ["title"], .output (some ["id"])] pot rfl
  have hunnamed : Unnamed pot [.fragment "pots", .placeholder "id"] (some [("criteria", typed "string")]) :=
    ⟨by decide, fun h => absurd h (by decide)⟩
  have hasked : asked [.input ["title"], .output (some ["id"])] = some ["id"] := rfl
  have hrequired : ((fields (restrict ["id"] potOutput)).all fun entry => entry.1 ≠ "required" ||
      (JsonSchema.names entry.2).all fun name => name ∈ ["id"] ∧ name ≠ "__proto__") = true := rfl
  have hitems : ((fields potOutput).all fun entry => entry.1 ≠ "items") = true := rfl
  have hbody : Json.object [("id", .string "a1")] ≠ .null := by
    intro h
    cases h
  refine ⟨(htaken potArgs (by decide) (by decide)).2 hunnamed ⟨"/pots/a1/", "PATCH", ["id"]⟩ (by decide), ?_⟩
  refine hreplied potOutput (.object [("id", .string "a1"), ("volume", .number 1)]) _ _ rfl (by decide) ?_ rfl
    hbody (.inl rfl) rfl
  intro allowed hallowed
  rw [hasked] at hallowed
  cases hallowed
  refine ⟨⟨fun _ argument hmem name hname => ?_, fun _ _ _ _ _ => rfl⟩, fun argument hmem => ?_⟩
  · have hthis := List.all_eq_true.mp hrequired _ hmem
    exact of_decide_eq_true (List.all_eq_true.mp hthis name hname)
  · exact absurd rfl (of_decide_eq_true (List.all_eq_true.mp hitems _ hmem))

def counting : JsonSchema.Reading where
  pattern _ _ := false
  other _ keyword argument value :=
    match keyword, argument with
    | "minProperties", .number q => !isObject value || decide (q ≤ (fields value).length)
    | _, _ => true

/-- Arguments that a schema accepts, and calls that refuse them or lose a part: a variable that divides the
path, one that is null, a body with a property of the querystring's name, and a variable of it. Replies that
an operation's schema accepts, and content that a tool's does not: of a type that may be an object's, of
none, of a schema that requires what is left out or counts what is left, and lists of lists. -/
theorem tool_misled :
    (accepts lenient (input {} ["id"] none) (.object [("id", .string "a/b")]) = true ∧
      RPC.address "pots._id.GET" (RPC.params (fun _ => "") [("id", .string "a/b")]) = .error (.path "id")) ∧
    (introspect (some (shape [("id", .object [("type", .string "string"), ("nullable", .boolean true)])] [])) none
        ["id"] [] = some ⟨[("id", .object [("type", .string "string"), ("nullable", .boolean true)])], [],
          some (shape [] []), none⟩ ∧
      accepts lenient (input ⟨[("id", .object [("type", .string "string"), ("nullable", .boolean true)])], [],
          some (shape [] []), none⟩ ["id"] none) (.object [("id", .null)]) = true ∧
      RPC.address "pots._id.GET" (RPC.params (fun _ => "") [("id", .null)]) =
        .error (.required "pots._id.GET" "id")) ∧
    (introspect (some (shape [("query", typed "string")] [])) none [] [] =
        some ⟨[], [], some (shape [("query", typed "string")] []), none⟩ ∧
      accepts lenient (input ⟨[], [], some (shape [("query", typed "string")] []), none⟩ [] none)
        (.object [("query", .string "tea")]) = true ∧
      RPC.split [("query", .string "tea")] [] = .error .notObject) ∧
    (accepts lenient (input {} ["query"] (some [("criteria", typed "string")]))
        (.object [("query", .object [("criteria", .string "hot")])]) = true ∧
      RPC.split [("query", .object [("criteria", .string "hot")])] ["query"] = .ok (none, none)) ∧
    (accepts lenient (.object [("type", .array [.string "object", .string "null"])]) (.object []) = true ∧
      ((output { output := some (.object [("type", .array [.string "object", .string "null"])]) }).map fun schema =>
        accepts lenient schema (.object (structured (.object [])))) = some false) ∧
    (accepts lenient (.object [("properties", .object [])]) (.object []) = true ∧
      ((output { output := some (.object [("properties", .object [])]) }).map fun schema =>
        accepts lenient schema (.object (structured (.object [])))) = some false) ∧
    (accepts lenient (.object [("type", .string "object"), requiring ["a"]])
        (.object [("a", .null), ("b", .null)]) = true ∧
      accepts lenient (restrict ["b"] (.object [("type", .string "object"), requiring ["a"]]))
        (Call.restricted (.object [("a", .null), ("b", .null)]) ["b"]) = false) ∧
    (accepts counting (shape [] [("minProperties", .number 2)]) (.object [("a", .null), ("b", .null)]) = true ∧
      accepts counting (restrict ["b"] (shape [] [("minProperties", .number 2)]))
        (Call.restricted (.object [("a", .null), ("b", .null)]) ["b"]) = false) ∧
    accepts lenient (.object [("type", .string "array"), ("items", typed "array")]) (.array [.array []]) = true ∧
      accepts lenient (restrict ["b"] (.object [("type", .string "array"), ("items", typed "array")]))
        (Call.restricted (.array [.array []]) ["b"]) = false := by
  refine ⟨⟨by decide, by decide⟩, ⟨rfl, by decide, by decide⟩, ⟨rfl, by decide, by decide⟩, ⟨by decide, by decide⟩,
    ⟨by decide, by decide⟩, ⟨by decide, by decide⟩, ⟨by decide, by decide⟩, ⟨by decide, by decide⟩,
    by decide, by decide⟩

end Toa.MCP
