import Toa.Lib.JsonSchema

/-! What a method says of itself: the schemas of its operation, with what the route takes taken out of the
input, and of either what the `io` directives admit. -/

namespace Toa.Exposition.Introspect
open JsonSchema (fields items keys)

structure Introspection where
  route : List (String × Json) := []
  query : List (String × Json) := []
  input : Option Json := none
  output : Option Json := none

/-- `object[key] = value`, where one name is not a property's. -/
def assign (object : List (String × Json)) (key : String) (value : Json) : List (String × Json) :=
  if key = "__proto__" then object else Assoc.gather key value (fun _ => value) object

def properties (input : Option Json) : Option (List (String × Json)) :=
  (input.bind (·.get "properties")).map fields

def narrowed (shape : Json) (properties : List (String × Json)) (required : Json → Bool) : Json :=
  let stated := shape.put "properties" (.object properties)
  match shape.get "required" with
  | some names => stated.put "required" (.array ((items names).filter required))
  | none => stated

def take (input : Option Json) (property : String) : Option Json × Option Json :=
  match properties input with
  | some properties =>
    if property ∈ properties.map Prod.fst ∨ property ∈ Json.INHERITED then
      (properties.lookup property,
        input.map (narrowed · (properties.filter (·.1 ≠ property)) (· ≠ .string property)))
    else (none, input)
  | none => (none, input)

def foreign (input : Option Json) (property : String) : Bool :=
  (properties input).any fun properties =>
    property ∉ properties.map Prod.fst ∧ property ∈ Json.INHERITED ∧ property ≠ "__proto__"

def takeAll : List String → List (String × Json) → Option Json → Option (List (String × Json) × Option Json)
  | [], taken, input => some (taken, input)
  | property :: more, taken, input =>
    if foreign input property then none
    else takeAll more ((take input property).1.elim taken (assign taken property)) (take input property).2

/-- `Endpoint.introspect`, of the parameters of a route and of a query. -/
def introspect (input output : Option Json) (parameters queries : List String) : Option Introspection :=
  (takeAll parameters [] input).bind fun path =>
    (takeAll queries [] path.2).map fun query => ⟨path.1, query.1, query.2, output⟩

/-! ## Restrictions -/

/-- A directive of a method. The output it permits is whole, or of the properties it lists. -/
inductive Io
  | input (allowed : List String)
  | output (permissions : Option (List String))
deriving DecidableEq

def Io.isOutput : Io → Bool
  | .output _ => true
  | .input _ => false

section
variable (allowed : List String)

mutual
def restrict : Json → Json
  | .object entries =>
    if (entries.lookup "items").isSome then .object (restrictItems entries)
    else match entries.lookup "properties" with
      | some properties =>
        narrowed (.object entries) ((fields properties).filter fun entry =>
          entry.1 ∈ allowed ∧ entry.1 ≠ "__proto__") (· ∈ allowed.map Json.string)
      | none => .object entries
  | schema => schema
termination_by structural x => x

def restrictItems : List (String × Json) → List (String × Json)
  | [] => []
  | (key, value) :: entries => (key, if key = "items" then restrict value else value) :: restrictItems entries
termination_by structural x => x
end

end

def explain (introspection : Introspection) : Io → Introspection
  | .input allowed => { introspection with input := introspection.input.map (restrict allowed) }
  | .output none => introspection
  | .output (some permissions) =>
    { introspection with output := introspection.output.map (restrict permissions) }

def describe (directives : List Io) (introspection : Introspection) : Introspection :=
  { directives.foldl explain introspection with
    output := if directives.any Io.isOutput then (directives.foldl explain introspection).output else none }

/-- `context.output`, as a directive leaves it. -/
def precall : Option (List String) → Io → Option (List String)
  | output, .input _ => output
  | output, .output none => output
  | none, .output (some permissions) => some permissions
  | some output, .output (some permissions) => some (output.filter (· ∈ permissions))

/-- What a call asks for of the output, unless it asks for the whole. -/
def asked (directives : List Io) : Option (List String) :=
  if directives.any Io.isOutput then directives.foldl precall none else some []

/-! ## What the input lists -/

def listed (input : Option Json) : List String := ((properties input).getD []).map Prod.fst

theorem get_properties (shape : Json) (stated : List (String × Json)) (required : Json → Bool) :
    (narrowed shape stated required).get "properties" = some (.object stated) := by
  rw [narrowed]
  split
  · rw [Json.get_put, if_neg (by decide), Json.get_put, if_pos rfl]
  · rw [Json.get_put, if_pos rfl]

theorem properties_narrowed (shape : Json) (stated : List (String × Json)) (required : Json → Bool) :
    properties (some (narrowed shape stated required)) = some stated := by
  rw [properties, Option.bind_some, get_properties]
  rfl

theorem listed_take (input : Option Json) (property : String) :
    listed (take input property).2 = (listed input).filter (· ≠ property) := by
  rw [take]
  cases hproperties : properties input with
  | none => simp [listed, hproperties]
  | some stated =>
    obtain ⟨shape, rfl, -⟩ : ∃ shape, input = some shape ∧ True := by
      cases input with
      | none => cases hproperties
      | some shape => exact ⟨shape, rfl, trivial⟩
    simp only
    split_ifs with hin
    · rw [Option.map_some, listed, properties_narrowed, listed, hproperties, Option.getD_some, Option.getD_some,
        List.filter_map]
      rfl
    · rw [not_or] at hin
      rw [listed, hproperties, Option.getD_some, List.filter_eq_self.mpr]
      exact fun name hname => decide_eq_true fun heq => hin.1 (heq ▸ hname)

theorem listed_takeAll {names : List String} {taken taken' : List (String × Json)} {input input' : Option Json}
    (h : takeAll names taken input = some (taken', input')) :
    listed input' = (listed input).filter (· ∉ names) := by
  induction names generalizing taken input with
  | nil =>
    cases h
    simp
  | cons name names ih =>
    rw [takeAll] at h
    split_ifs at h with hforeign
    · rw [ih h, listed_take, List.filter_filter]
      refine List.filter_congr fun other _ => ?_
      simp [not_or, Bool.and_comm]

theorem lookup_restrictItems {allowed : List String} {entries : List (String × Json)} {key : String}
    (h : key ≠ "items") : (restrictItems allowed entries).lookup key = entries.lookup key := by
  induction entries with
  | nil => rfl
  | cons entry entries ih =>
    obtain ⟨name, value⟩ := entry
    rw [restrictItems, List.lookup_cons, List.lookup_cons, ih]
    by_cases hkey : key = name
    · rw [if_neg (hkey ▸ h)]
    · rw [beq_false_of_ne hkey]

theorem isSome_restrictItems {allowed : List String} {entries : List (String × Json)} {key : String} :
    ((restrictItems allowed entries).lookup key).isSome = (entries.lookup key).isSome := by
  induction entries with
  | nil => rfl
  | cons entry entries ih =>
    obtain ⟨name, value⟩ := entry
    by_cases hkey : key = name
    · rw [restrictItems, hkey, List.lookup_cons_self, List.lookup_cons_self]
      rfl
    · rw [restrictItems, Assoc.lookup_cons_of_ne hkey, Assoc.lookup_cons_of_ne hkey, ih]

section
variable {allowed : List String} {entries : List (String × Json)}

theorem restrict_items (h : (entries.lookup "items").isSome = true) :
    restrict allowed (.object entries) = .object (restrictItems allowed entries) := by
  rw [restrict, if_pos h]

theorem restrict_properties (h : entries.lookup "items" = none) {stated : Json}
    (hstated : entries.lookup "properties" = some stated) : restrict allowed (.object entries) =
      narrowed (.object entries) ((fields stated).filter fun entry => entry.1 ∈ allowed ∧ entry.1 ≠ "__proto__")
        (· ∈ allowed.map Json.string) := by
  rw [restrict, h, if_neg nofun, hstated]

theorem restrict_plain (h : entries.lookup "items" = none) (hstated : entries.lookup "properties" = none) :
    restrict allowed (.object entries) = .object entries := by
  rw [restrict, h, if_neg nofun, hstated]

end

theorem listed_restrict (allowed : List String) (schema : Json) :
    (listed (some (restrict allowed schema))).Sublist (listed (some schema)) := by
  cases schema with
  | object entries =>
    rw [restrict]
    split_ifs with hitems
    · have hsame : properties (some (.object (restrictItems allowed entries))) =
          properties (some (.object entries)) := by
        rw [properties, properties, Option.bind_some, Option.bind_some, Json.get, Json.get,
          lookup_restrictItems (by decide)]
      rw [listed, listed, hsame]
    · cases hproperties : entries.lookup "properties" with
      | none => exact List.Sublist.refl _
      | some stated =>
        simp only
        have hstated : properties (some (.object entries)) = some (fields stated) := by
          rw [properties, Option.bind_some, Json.get, hproperties]
          rfl
        rw [listed, listed, properties_narrowed, hstated]
        exact List.filter_sublist.map _
  | _ => exact List.Sublist.refl _

theorem listed_describe (directives : List Io) (introspection : Introspection) :
    listed (describe directives introspection).input ⊆ listed introspection.input := by
  have hfold : listed (directives.foldl explain introspection).input ⊆ listed introspection.input := by
    induction directives generalizing introspection with
    | nil => exact List.Subset.refl _
    | cons directive directives ih =>
      refine List.Subset.trans (ih _) ?_
      cases directive with
      | input allowed =>
        rw [explain]
        cases hinput : introspection.input with
        | none => exact List.Subset.refl _
        | some schema => exact (listed_restrict allowed schema).subset
      | output permissions => cases permissions <;> exact List.Subset.refl _
  exact hfold

theorem listed_introspect {input output : Option Json} {parameters queries : List String}
    {introspection : Introspection} (h : introspect input output parameters queries = some introspection) :
    ∀ name ∈ listed introspection.input, name ∉ parameters := by
  obtain ⟨path, hpath, hmore⟩ := Option.bind_eq_some_iff.mp h
  obtain ⟨query, hquery, rfl⟩ := Option.map_eq_some_iff.mp hmore
  intro name hname hparameter
  rw [listed_takeAll hquery, listed_takeAll hpath, List.mem_filter, List.mem_filter] at hname
  exact of_decide_eq_true hname.1.2 hparameter

theorem output_introspect {input output : Option Json} {parameters queries : List String}
    {introspection : Introspection} (h : introspect input output parameters queries = some introspection) :
    introspection.output = output := by
  obtain ⟨path, -, hmore⟩ := Option.bind_eq_some_iff.mp h
  obtain ⟨query, -, rfl⟩ := Option.map_eq_some_iff.mp hmore
  rfl

/-! ## What is restricted twice -/

theorem narrowed_narrowed (shape : Json) (stated stated' : List (String × Json)) (required required' : Json → Bool) :
    narrowed (narrowed shape stated required) stated' required' =
      narrowed shape stated' fun name => required' name && required name := by
  have hne : "required" ≠ "properties" := by decide
  cases hrequired : shape.get "required" with
  | none =>
    have hplain (stated : List (String × Json)) (required : Json → Bool) :
        narrowed shape stated required = shape.put "properties" (.object stated) := by
      rw [narrowed, hrequired]
    have hnone : (shape.put "properties" (.object stated)).get "required" = none := by
      rw [Json.get_put, if_neg hne, hrequired]
    rw [hplain, hplain, narrowed, hnone]
    exact Json.put_put ..
  | some names =>
    have hfull (stated : List (String × Json)) (required : Json → Bool) : narrowed shape stated required =
        (shape.put "properties" (.object stated)).put "required" (.array ((items names).filter required)) := by
      rw [narrowed, hrequired]
    have hsome : ((shape.put "properties" (.object stated)).put "required"
        (.array ((items names).filter required))).get "required" =
          some (.array ((items names).filter required)) := by
      rw [Json.get_put, if_pos rfl]
    have hpresent : ((shape.put "properties" (.object stated)).get "properties").isSome = true := by
      rw [Json.get_put, if_pos rfl]
      rfl
    rw [hfull, hfull, narrowed, hsome]
    simp only
    rw [Json.put_comm hne.symm hpresent, Json.put_put, Json.put_put, items, List.filter_filter]

theorem narrowed_object (entries stated : List (String × Json)) (required : Json → Bool) :
    ∃ left, narrowed (.object entries) stated required = .object left := by
  rw [narrowed]
  split <;> exact ⟨_, rfl⟩

theorem get_narrowed {key : String} (hproperties : key ≠ "properties") (hrequired : key ≠ "required") (shape : Json)
    (stated : List (String × Json)) (required : Json → Bool) :
    (narrowed shape stated required).get key = shape.get key := by
  rw [narrowed]
  split
  · rw [Json.get_put, if_neg hrequired, Json.get_put, if_neg hproperties]
  · rw [Json.get_put, if_neg hproperties]

theorem restrict_narrowed {allowed : List String} {entries stated : List (String × Json)} {required : Json → Bool}
    (hitems : entries.lookup "items" = none) : restrict allowed (narrowed (.object entries) stated required) =
      narrowed (narrowed (.object entries) stated required)
        (stated.filter fun entry => entry.1 ∈ allowed ∧ entry.1 ≠ "__proto__")
        (· ∈ allowed.map Json.string) := by
  have hget : (narrowed (.object entries) stated required).get "items" = none :=
    (get_narrowed (by decide) (by decide) _ stated required).trans hitems
  have hstated := get_properties (.object entries) stated required
  obtain ⟨left, hleft⟩ := narrowed_object entries stated required
  rw [hleft] at hget hstated ⊢
  exact restrict_properties hget hstated

theorem mem_names {allowed : List String} {name : Json} :
    name ∈ allowed.map Json.string ↔ ∃ s, name = .string s ∧ s ∈ allowed := by
  rw [List.mem_map]
  exact ⟨fun ⟨s, hs, heq⟩ => ⟨s, heq.symm, hs⟩, fun ⟨s, heq, hs⟩ => ⟨s, hs, heq.symm⟩⟩

mutual
theorem restrict_restrict (allowed allowed' : List String) : ∀ schema : Json,
    restrict allowed' (restrict allowed schema) = restrict (allowed.filter (· ∈ allowed')) schema
  | .null | .boolean _ | .number _ | .string _ | .array _ => by simp only [restrict]
  | .object entries => by
    cases hitems : entries.lookup "items" with
    | some items =>
      have hsome : (entries.lookup "items").isSome = true := by rw [hitems]; rfl
      rw [restrict_items hsome, restrict_items (isSome_restrictItems.trans hsome), restrict_items hsome,
        restrictItems_restrictItems allowed allowed' entries]
    | none =>
      cases hstated : entries.lookup "properties" with
      | none => rw [restrict_plain hitems hstated, restrict_plain hitems hstated, restrict_plain hitems hstated]
      | some stated =>
        rw [restrict_properties hitems hstated, restrict_properties hitems hstated]
        rw [restrict_narrowed hitems, narrowed_narrowed, List.filter_filter]
        congr 1
        · refine List.filter_congr fun entry _ => ?_
          simp only [List.mem_filter, decide_eq_true_eq, ← Bool.decide_and]
          exact decide_eq_decide.mpr (by tauto)
        · funext name
          rw [← Bool.decide_and]
          refine decide_eq_decide.mpr ?_
          simp only [mem_names, List.mem_filter, decide_eq_true_eq]
          constructor
          · rintro ⟨⟨s, rfl, hs⟩, s', heq, hs'⟩
            cases heq
            exact ⟨s, rfl, hs', hs⟩
          · rintro ⟨s, rfl, hs, hs'⟩
            exact ⟨⟨s, rfl, hs'⟩, s, rfl, hs⟩

theorem restrictItems_restrictItems (allowed allowed' : List String) : ∀ entries : List (String × Json),
    restrictItems allowed' (restrictItems allowed entries) = restrictItems (allowed.filter (· ∈ allowed')) entries
  | [] => rfl
  | (key, value) :: entries => by
    rw [restrictItems, restrictItems, restrictItems, restrictItems_restrictItems allowed allowed' entries]
    by_cases hkey : key = "items"
    · rw [if_pos hkey, if_pos hkey, if_pos hkey, restrict_restrict allowed allowed' value]
    · rw [if_neg hkey, if_neg hkey, if_neg hkey]
end

theorem foldl_explain (directives : List Io) {introspection : Introspection} {output : Option Json}
    {allowed : Option (List String)}
    (h : introspection.output = allowed.elim output fun allowed => output.map (restrict allowed)) :
    (directives.foldl explain introspection).output =
      (directives.foldl precall allowed).elim output fun allowed => output.map (restrict allowed) := by
  induction directives generalizing introspection allowed with
  | nil => exact h
  | cons directive directives ih =>
    refine ih ?_
    cases directive with
    | input _ => exact h
    | output permissions =>
      cases permissions with
      | none => cases allowed <;> exact h
      | some permissions =>
        rw [explain]
        cases allowed with
        | none => exact congrArg (Option.map (restrict permissions)) h
        | some allowed =>
          refine (congrArg (Option.map (restrict permissions)) h).trans ?_
          cases output with
          | none => rfl
          | some schema => exact congrArg some (restrict_restrict allowed permissions schema)

theorem output_describe {directives : List Io} {introspection : Introspection} {schema : Json}
    (h : (describe directives introspection).output = some schema) : ∃ output, introspection.output = some output ∧
      (asked directives = none ∧ schema = output ∨
        ∃ allowed, asked directives = some allowed ∧ schema = restrict allowed output) := by
  rw [describe] at h
  simp only at h
  rw [asked]
  split_ifs at h ⊢ with hany
  rw [@foldl_explain directives introspection introspection.output none rfl] at h
  cases hallowed : directives.foldl precall none with
  | none =>
    rw [hallowed] at h
    exact ⟨schema, h, .inl ⟨rfl, rfl⟩⟩
  | some allowed =>
    rw [hallowed] at h
    obtain ⟨output, houtput, rfl⟩ := Option.map_eq_some_iff.mp h
    exact ⟨output, houtput, .inr ⟨allowed, rfl, rfl⟩⟩

/-! ## What a restricted schema holds -/

theorem restrictItems_eq (allowed : List String) (entries : List (String × Json)) : restrictItems allowed entries =
    entries.map fun entry => (entry.1, if entry.1 = "items" then restrict allowed entry.2 else entry.2) := by
  induction entries with
  | nil => rfl
  | cons entry entries ih => rw [restrictItems, ih, List.map_cons]

theorem mem_narrowed {entries stated : List (String × Json)} {required : Json → Bool} {keyword : String}
    {argument : Json} (h : (keyword, argument) ∈ fields (narrowed (.object entries) stated required)) :
    keyword = "properties" ∧ argument = .object stated ∨
      (keyword = "required" ∧ ∃ names, ("required", names) ∈ entries ∧
        JsonSchema.names argument ⊆ JsonSchema.names names) ∨ (keyword, argument) ∈ entries := by
  rw [narrowed] at h
  split at h
  · rename_i names hnames
    obtain ⟨rfl, rfl⟩ | h := Assoc.mem_gather h
    · refine .inr (.inl ⟨rfl, names, Assoc.mem_of_lookup hnames, fun name hname => ?_⟩)
      obtain ⟨value, hvalue, heq⟩ := List.mem_filterMap.mp hname
      exact List.mem_filterMap.mpr ⟨value, (List.mem_filter.mp hvalue).1, heq⟩
    · exact (Assoc.mem_gather h).imp_right .inr
  · exact (Assoc.mem_gather h).imp_right .inr

theorem mem_restrict {allowed : List String} {entries : List (String × Json)} {keyword : String} {argument : Json}
    (h : (keyword, argument) ∈ fields (restrict allowed (.object entries))) :
    (keyword = "properties" ∧ ∃ stated, entries.lookup "properties" = some stated ∧
        argument = .object ((fields stated).filter fun entry => entry.1 ∈ allowed ∧ entry.1 ≠ "__proto__")) ∨
      (keyword = "required" ∧ ∃ names, ("required", names) ∈ entries ∧
        JsonSchema.names argument ⊆ JsonSchema.names names) ∨
      ∃ argument', (keyword, argument') ∈ entries ∧
        argument = if keyword = "items" then restrict allowed argument' else argument' := by
  cases hitems : entries.lookup "items" with
  | some items =>
    rw [restrict_items (by rw [hitems]; rfl), restrictItems_eq] at h
    obtain ⟨entry, hentry, heq⟩ := List.mem_map.mp h
    cases heq
    exact .inr (.inr ⟨entry.2, hentry, rfl⟩)
  | none =>
    have hplain : (keyword, argument) ∈ entries → ∃ argument', (keyword, argument') ∈ entries ∧
        argument = if keyword = "items" then restrict allowed argument' else argument' := by
      intro hmem
      have hkey : keyword ≠ "items" := by
        rintro rfl
        exact Assoc.lookup_eq_none_iff.mp hitems (List.mem_map_of_mem hmem)
      exact ⟨argument, hmem, (if_neg hkey).symm⟩
    cases hstated : entries.lookup "properties" with
    | none =>
      rw [restrict_plain hitems hstated] at h
      exact .inr (.inr (hplain h))
    | some stated =>
      rw [restrict_properties hitems hstated] at h
      obtain ⟨rfl, rfl⟩ | hrequired | h := mem_narrowed h
      · exact .inl ⟨rfl, stated, rfl, rfl⟩
      · exact .inr (.inl hrequired)
      · exact .inr (.inr (hplain h))

theorem get_restrict {allowed : List String} {key : String} (hitems : key ≠ "items")
    (hproperties : key ≠ "properties") (hrequired : key ≠ "required") (schema : Json) :
    (restrict allowed schema).get key = schema.get key := by
  cases schema with
  | object entries =>
    cases hlookup : entries.lookup "items" with
    | some items =>
      rw [restrict_items (by rw [hlookup]; rfl)]
      exact lookup_restrictItems hitems
    | none =>
      cases hstated : entries.lookup "properties" with
      | none => rw [restrict_plain hlookup hstated]
      | some stated =>
        rw [restrict_properties hlookup hstated]
        exact get_narrowed hproperties hrequired _ _ _
  | _ => simp only [restrict]

end Toa.Exposition.Introspect
