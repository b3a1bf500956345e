import Mathlib.Data.List.TakeWhile
import Toa.Lib.Json
import Toa.Lib.Words
import Toa.Http.Reply

/-! How a call that holds a stream is carried: the stream is the body of a request, what is left of the call is a
header of it, and where in the input the stream was is a header beside. -/

namespace Toa.Http
open Assoc

/-- What a call holds: JSON, and streams. Properties of an array beside its items are none of JSON. -/
inductive Value (σ δ : Type*)
  | null
  | scalar (d : δ)
  | array (items : List (Value σ δ)) (own : List (String × Value σ δ))
  | object (entries : List (String × Value σ δ))
  | stream (s : σ)

variable {σ δ : Type*}

abbrev Entries (σ δ : Type*) := List (String × Value σ δ)

/-- `object[name] = value` -/
def put (entries : Entries σ δ) (name : String) (value : Value σ δ) : Entries σ δ :=
  gather name value (fun _ => value) entries

/-- `delete object[name]` -/
def drop (entries : Entries σ δ) (name : String) : Entries σ δ := entries.filter (·.1 ≠ name)

/-- `Object.entries`, and what a spread copies: an array is an object of its indices. -/
def Value.properties : Value σ δ → Option (Entries σ δ)
  | .object entries => some entries
  | .array items own => some ((items.zipIdx.map fun (value, index) => (toString index, value)) ++ own)
  | _ => none

/-! ## Out of the input -/

def INPUT : String := "input"
def STREAM : String := "stream"

/-- A property of the input that a stream is, or whose `stream` it is. -/
structure Place where
  key : String
  nested : Bool
deriving DecidableEq

def Place.path (place : Place) : List Char := 
  if place.nested then place.key.toList ++ '.' :: STREAM.toList else place.key.toList

structure Carried (σ δ : Type*) where
  place : Place
  stream : σ
  envelope : Entries σ δ

def without (request input : Entries σ δ) (key : String) : Option (Entries σ δ) → Entries σ δ
  | none => put request INPUT (.object (drop input key))
  | some rest => put request INPUT (.object (put input key (.object rest)))

def detachFrom (request input : Entries σ δ) : Entries σ δ → Option (Carried σ δ)
  | [] => none
  | (key, value) :: entries =>
    match value with
    | .stream s => some ⟨⟨key, false⟩, s, without request input key none⟩
    | value =>
      match value.properties.bind fun property => (property.lookup STREAM).map (property, ·) with
      | some (property, .stream s) => some ⟨⟨key, true⟩, s, without request input key (some (drop property STREAM))⟩
      | _ => detachFrom request input entries

/-- What is left of a call is an object, whatever it was called with. -/
def detach (request : Entries σ δ) : Option (Carried σ δ) :=
  ((request.lookup INPUT).bind Value.properties).bind fun input => detachFrom request input input

/-! ## Back in the input -/

def FORBIDDEN : List String := ["__proto__", "constructor", "prototype"]

def placed (path : List Char) : Option Place :=
  match (path.splitOn '.').map String.ofList with
  | [key] => if key ≠ "" ∧ key ∉ FORBIDDEN then some ⟨key, false⟩ else none
  | [key, nested] => if key ≠ "" ∧ key ∉ FORBIDDEN ∧ nested = STREAM then some ⟨key, true⟩ else none
  | _ => none

def called : Value σ δ → Option (Entries σ δ)
  | .object request =>
    match request.lookup INPUT with
    | none | some .null | some (.object _) => some request
    | _ => none
  | _ => none

/-- What comes of a request: its head is not read, it is refused, it is thrown for where nothing catches it, the
stream is written into what all objects of the process have in common, or the call is made. -/
inductive Served (σ δ : Type*)
  | overflowing
  | refused
  | thrown
  | shared (name : String)
  | invoked (request : Entries σ δ)

def attach (request : Entries σ δ) (place : Place) (stream : σ) : Served σ δ :=
  let input := match request.lookup INPUT with
    | some (.object input) => input
    | _ => []
  let invoked (value : Value σ δ) := Served.invoked (put request INPUT (.object (put input place.key value)))
  if place.nested then
    match input.lookup place.key with
    | none =>
      if place.key ∈ Json.INHERITED then .shared place.key else invoked (.object [(STREAM, .stream stream)])
    | some .null => invoked (.object [(STREAM, .stream stream)])
    | some (.object property) => invoked (.object (put property STREAM (.stream stream)))
    | some (.array items own) => invoked (.array items (put own STREAM (.stream stream)))
    -- a property of what is no object is not written, and that is an error
    | some (.scalar _) => .thrown
    -- no JSON is a stream
    | some (.stream s) => invoked (.stream s)
  else invoked (.stream stream)

/-! ## Over the wire -/

def blank (char : Char) : Bool := char = ' ' ∨ char = '\t'

/-- What is around the value of a header is no part of it. -/
def trim (text : List Char) : List Char := ((text.dropWhile blank).reverse.dropWhile blank).reverse

section
-- whether the server reads a head with these headers: past a size that `http.createServer` sets it is answered 431
variable (reads : List Char → List Char → Bool)
variable (stringify : Value σ δ → List Char) (parse : List Char → Option (Value σ δ))

/-- `listener`, of a request to an endpoint that is served. -/
def listen (path header : List Char) (stream : σ) : Served σ δ :=
  match placed path, (parse header).bind called with
  | some place, some request => attach request place stream
  | _, _ => .refused

/-- What a call comes to: none, where it holds no stream or its headers are none that can be sent. -/
def exchange (request : Entries σ δ) : Option (Served σ δ) :=
  (detach request).bind fun carried =>
    match header (stringify (.object carried.envelope)), header carried.place.path with
    | some envelope, some path =>
      some (if reads envelope path then listen parse (trim path) (trim envelope) carried.stream else .overflowing)
    | _, _ => none

/-- What JSON promises of the text of an object that it has all of. -/
structure Promised (entries : Entries σ δ) : Prop where
  parse_stringify : parse (stringify (.object entries)) = some (.object entries)
  trim : trim (stringify (.object entries)) = stringify (.object entries)

end

/-! ## Properties of an object -/

theorem lookup_put (entries : Entries σ δ) (name other : String) (value : Value σ δ) :
    (put entries name value).lookup other = if other = name then some value else entries.lookup other := by
  rw [put, lookup_gather]
  cases entries.lookup name <;> rfl

theorem lookup_put_self (entries : Entries σ δ) (name : String) (value : Value σ δ) :
    (put entries name value).lookup name = some value := (lookup_put ..).trans (if_pos rfl)

theorem lookup_drop (entries : Entries σ δ) (name other : String) :
    (drop entries name).lookup other = if other = name then none else entries.lookup other := by
  rw [drop, lookup_filter_key (p := fun key => decide (key ≠ name))]
  by_cases h : other = name <;> simp [h]

def Alike (a b : Value σ δ) : Prop :=
  a = b ∨ ∃ entries entries', a = .object entries ∧ b = .object entries' ∧
    ∀ name, entries.lookup name = entries'.lookup name

def Faithful (request request' : Entries σ δ) : Prop :=
  (∀ name, name ≠ INPUT → request'.lookup name = request.lookup name) ∧
    ∃ input input', request.lookup INPUT = some (.object input) ∧ request'.lookup INPUT = some (.object input') ∧
      ∀ name, Option.Rel Alike (input'.lookup name) (input.lookup name)

/-! ## What is taken out, and what is put back -/

inductive Held (request input : Entries σ δ) : Carried σ δ → Prop
  | direct {key : String} {s : σ} : (key, .stream s) ∈ input →
    Held request input ⟨⟨key, false⟩, s, put request INPUT (.object (drop input key))⟩
  | nested {key : String} {s : σ} {value : Value σ δ} {property : Entries σ δ} : (key, value) ∈ input →
    value.properties = some property → property.lookup STREAM = some (.stream s) →
    Held request input
      ⟨⟨key, true⟩, s, put request INPUT (.object (put input key (.object (drop property STREAM))))⟩

theorem held_of_detachFrom {request input entries : Entries σ δ} {carried : Carried σ δ}
    (hsub : entries ⊆ input) (h : detachFrom request input entries = some carried) : Held request input carried := by
  induction entries with
  | nil => cases h
  | cons entry entries ih =>
    obtain ⟨key, value⟩ := entry
    have hmem : (key, value) ∈ input := hsub (List.mem_cons_self ..)
    have htail := ih fun _ hentry => hsub (List.mem_cons_of_mem _ hentry)
    unfold detachFrom at h
    split at h
    case h_1 s =>
      obtain rfl := Option.some.inj h
      exact .direct hmem
    case h_2 =>
      split at h
      case h_1 property s hs =>
        obtain rfl := Option.some.inj h
        obtain ⟨_, hproperty, hlookup⟩ := Option.bind_eq_some_iff.mp hs
        obtain ⟨_, hstream, heq⟩ := Option.map_eq_some_iff.mp hlookup
        obtain ⟨rfl, rfl⟩ := Prod.mk.inj heq
        exact .nested hmem hproperty hstream
      case h_2 => exact htail h

theorem held_of_detach {request : Entries σ δ} {carried : Carried σ δ} (h : detach request = some carried) :
    ∃ input, (request.lookup INPUT).bind Value.properties = some input ∧ Held request input carried := by
  obtain ⟨input, hinput, hfrom⟩ := Option.bind_eq_some_iff.mp h
  exact ⟨input, hinput, held_of_detachFrom (List.Subset.refl _) hfrom⟩

theorem Held.left {request input : Entries σ δ} {carried : Carried σ δ} (hheld : Held request input carried) :
    ∃ left, carried.envelope.lookup INPUT = some (.object left) := by
  cases hheld with
  | direct => exact ⟨_, lookup_put_self ..⟩
  | nested => exact ⟨_, lookup_put_self ..⟩

theorem placed_path {text : List Char} {place : Place} (h : placed text = some place) :
    place.path = text ∧ place.key ≠ "" ∧ place.key ∉ FORBIDDEN ∧ '.' ∉ place.key.toList := by
  have hjoin : ['.'].intercalate (text.splitOn '.') = text := List.intercalate_splitOn '.'
  have hfree : ∀ part ∈ text.splitOn '.', '.' ∉ part := fun _ => Words.not_mem_of_mem_splitOn
  unfold placed at h
  generalize text.splitOn '.' = parts at h hjoin hfree
  match parts with
  | [] => cases h
  | [key] =>
    simp only [List.map_cons, List.map_nil] at h
    split_ifs at h with hkey
    obtain rfl := Option.some.inj h
    refine ⟨?_, hkey.1, hkey.2, ?_⟩
    · simpa [Place.path] using hjoin
    · simpa using hfree key (List.mem_cons_self ..)
  | [key, nested] =>
    simp only [List.map_cons, List.map_nil] at h
    split_ifs at h with hkey
    obtain rfl := Option.some.inj h
    have hnested : nested = STREAM.toList := by rw [← hkey.2.2, String.toList_ofList]
    refine ⟨?_, hkey.1, hkey.2.1, ?_⟩
    · simpa [Place.path, hnested] using hjoin
    · simpa using hfree key (List.mem_cons_self ..)
  | _ :: _ :: _ :: _ => cases h

theorem placed_of_key {place : Place} (hkey : place.key ≠ "") (hallowed : place.key ∉ FORBIDDEN)
    (hdot : '.' ∉ place.key.toList) : placed place.path = some place := by
  obtain ⟨key, nested⟩ := place
  cases nested with
  | false =>
    have hsplit : key.toList.splitOn '.' = [key.toList] := List.splitOn_eq_singleton hdot
    simp only [placed, Place.path, Bool.false_eq_true, if_false, hsplit, List.map_cons, List.map_nil,
      String.ofList_toList]
    exact if_pos ⟨hkey, hallowed⟩
  | true =>
    have hsplit : (key.toList ++ '.' :: STREAM.toList).splitOn '.' = [key.toList, STREAM.toList] := by
      rw [List.splitOn_append_cons_self_of_not_mem hdot]
      exact congrArg (key.toList :: ·) (by decide)
    simp only [placed, Place.path, if_true, hsplit, List.map_cons, List.map_nil, String.ofList_toList]
    exact if_pos ⟨hkey, hallowed, trivial⟩

theorem length_trim_le (text : List Char) : (trim text).length ≤ text.length := by
  rw [trim, List.length_reverse]
  have hlast := (List.dropWhile_suffix blank (l := (text.dropWhile blank).reverse)).length_le
  rw [List.length_reverse] at hlast
  exact Nat.le_trans hlast (List.dropWhile_suffix blank).length_le

theorem mem_dropWhile_blank {char : Char} {text : List Char} (hchar : blank char = false) (h : char ∈ text) :
    char ∈ text.dropWhile blank := by
  rw [← List.takeWhile_append_dropWhile (p := blank) (l := text)] at h
  refine (List.mem_append.mp h).resolve_left fun htaken => ?_
  have hblank : blank char = true := List.mem_takeWhile_imp htaken
  rw [hchar] at hblank
  cases hblank

theorem mem_trim {char : Char} {text : List Char} (hchar : blank char = false) (h : char ∈ text) :
    char ∈ trim text :=
  List.mem_reverse.mpr (mem_dropWhile_blank hchar (List.mem_reverse.mpr (mem_dropWhile_blank hchar h)))

/-! ## What a call comes to -/

theorem invoked_of_attach {request request' input : Entries σ δ} {place : Place} {s : σ}
    (hinput : request.lookup INPUT = some (.object input)) (h : attach request place s = .invoked request') :
    ∃ value, request' = put request INPUT (.object (put input place.key value)) := by
  unfold attach at h
  rw [hinput] at h
  dsimp only at h
  split at h
  case isFalse => exact ⟨_, (Served.invoked.inj h).symm⟩
  case isTrue =>
    split at h
    · split at h
      · cases h
      · exact ⟨_, (Served.invoked.inj h).symm⟩
    · exact ⟨_, (Served.invoked.inj h).symm⟩
    · exact ⟨_, (Served.invoked.inj h).symm⟩
    · exact ⟨_, (Served.invoked.inj h).symm⟩
    · cases h
    · exact ⟨_, (Served.invoked.inj h).symm⟩

theorem Alike.refl (value : Value σ δ) : Alike value value := .inl rfl

theorem Alike.property {entries entries' : Entries σ δ} (h : Alike (.object entries) (.object entries'))
    (name : String) : entries.lookup name = entries'.lookup name := by
  obtain heq | ⟨_, _, hentries, hentries', hlookup⟩ := h
  · rw [Value.object.inj heq]
  · rw [Value.object.inj hentries, Value.object.inj hentries']
    exact hlookup name

theorem Alike.object {entries : Entries σ δ} {value : Value σ δ} (h : Alike (.object entries) value) :
    ∃ entries', value = .object entries' := by
  obtain rfl | ⟨_, entries', -, rfl, -⟩ := h
  · exact ⟨entries, rfl⟩
  · exact ⟨entries', rfl⟩

theorem rel_refl (value : Option (Value σ δ)) : Option.Rel Alike value value := by
  cases value with
  | none => exact .none
  | some value => exact .some (Alike.refl value)

/-- Headers that can be sent, and that the server reads. -/
structure Sent (reads : List Char → List Char → Bool) (stringify : Value σ δ → List Char) (carried : Carried σ δ) :
    Prop where
  envelope : (header (stringify (.object carried.envelope))).isSome = true
  path : (header carried.place.path).isSome = true
  read : reads (stringify (.object carried.envelope)) carried.place.path = true

/-- A call that headers keep: they are sent, nothing of the path is taken for blanks around it, the server takes it
for the place it is, and what the stream was in is an object and not an array. -/
structure Carriable (reads : List Char → List Char → Bool) (stringify : Value σ δ → List Char)
    (request : Entries σ δ) (carried : Carried σ δ) : Prop extends Sent reads stringify carried where
  object : ∃ input, request.lookup INPUT = some (.object input) ∧
    (carried.place.nested = true → ∃ property, input.lookup carried.place.key = some (.object property))
  bare : trim carried.place.path = carried.place.path
  key : carried.place.key ≠ "" ∧ carried.place.key ∉ FORBIDDEN ∧ '.' ∉ carried.place.key.toList

section
variable {reads : List Char → List Char → Bool} {stringify : Value σ δ → List Char}
variable {parse : List Char → Option (Value σ δ)}

theorem exchange_eq {request : Entries σ δ} {carried : Carried σ δ} (hdetach : detach request = some carried)
    (hc : Promised stringify parse carried.envelope) :
    exchange reads stringify parse request =
      if (header (stringify (.object carried.envelope))).isSome ∧ (header carried.place.path).isSome then
        some (if reads (stringify (.object carried.envelope)) carried.place.path then
          match placed (trim carried.place.path) with
          | some place => attach carried.envelope place carried.stream
          | none => .refused
        else .overflowing)
      else none := by
  have hcalled : called (.object carried.envelope) = some carried.envelope := by
    obtain ⟨input, -, hheld⟩ := held_of_detach hdetach
    obtain ⟨left, hleft⟩ := hheld.left
    rw [called, hleft]
  rw [exchange, hdetach, Option.bind_some]
  cases henvelope : header (stringify (.object carried.envelope)) with
  | none => simp
  | some envelope =>
    cases hpath : header carried.place.path with
    | none => simp
    | some path =>
      obtain rfl := header_eq_some henvelope
      obtain rfl := header_eq_some hpath
      simp only [Option.isSome_some, and_self, if_true]
      rw [listen, hc.trim, hc.parse_stringify, Option.bind_some, hcalled]
      cases placed (trim carried.place.path) <;> rfl

theorem exchange_eq_some {request : Entries σ δ} {carried : Carried σ δ} (hdetach : detach request = some carried)
    (hc : Promised stringify parse carried.envelope) (served : Served σ δ) (hread : served ≠ .overflowing) :
    exchange reads stringify parse request = some served ↔
      Sent reads stringify carried ∧ served = (match placed (trim carried.place.path) with
        | some place => attach carried.envelope place carried.stream
        | none => .refused) := by
  rw [exchange_eq hdetach hc]
  constructor
  · intro h
    split_ifs at h with hsent hreads
    · exact ⟨⟨hsent.1, hsent.2, hreads⟩, (Option.some.inj h).symm⟩
    · exact absurd (Option.some.inj h).symm hread
  · rintro ⟨hsent, rfl⟩
    rw [if_pos ⟨hsent.envelope, hsent.path⟩, if_pos hsent.read]

theorem faithful_put {request input left left' : Entries σ δ} (hinput : request.lookup INPUT = some (.object input))
    (h : ∀ name, Option.Rel Alike (left'.lookup name) (input.lookup name)) :
    Faithful request (put (put request INPUT (.object left)) INPUT (.object left')) := by
  refine ⟨fun name hname => ?_, input, left', hinput, lookup_put_self .., h⟩
  rw [lookup_put, if_neg hname, lookup_put, if_neg hname]

theorem faithful_attach {request input : Entries σ δ} {carried : Carried σ δ}
    (hinput : request.lookup INPUT = some (.object input)) (hnodup : (input.map Prod.fst).Nodup)
    (hobject : carried.place.nested = true → ∃ property, input.lookup carried.place.key = some (.object property))
    (hheld : Held request input carried) :
    ∃ request', attach carried.envelope carried.place carried.stream = .invoked request' ∧
      Faithful request request' := by
  cases hheld with
  | @direct key s hmem =>
    have hkey : input.lookup key = some (.stream s) := lookup_of_mem hnodup hmem
    refine ⟨_, ?_, @faithful_put _ _ _ input (drop input key) (put (drop input key) key (.stream s)) hinput
      fun name => ?_⟩
    · rw [attach, lookup_put_self]
      rfl
    · rw [lookup_put]
      split_ifs with hname
      · rw [hname, hkey]
        exact .some (Alike.refl _)
      · rw [lookup_drop, if_neg hname]
        exact rel_refl _
  | @nested key s value property hmem hproperty hstream =>
    have hvalue : input.lookup key = some value := lookup_of_mem hnodup hmem
    obtain ⟨property', hkey⟩ := hobject rfl
    obtain rfl := Option.some.inj (hvalue.symm.trans hkey)
    obtain rfl := Option.some.inj hproperty
    have hrest : (put input key (.object (drop property' STREAM))).lookup key =
        some (.object (drop property' STREAM)) := lookup_put_self ..
    refine ⟨_, ?_, @faithful_put _ _ _ input (put input key (.object (drop property' STREAM)))
      (put (put input key (.object (drop property' STREAM))) key
        (.object (put (drop property' STREAM) STREAM (.stream s)))) hinput fun name => ?_⟩
    · rw [attach, lookup_put_self]
      dsimp only
      rw [hrest]
      rfl
    · rw [lookup_put]
      split_ifs with hname
      · rw [hname, hvalue]
        refine .some (.inr ⟨_, _, rfl, rfl, fun other => ?_⟩)
        rw [lookup_put]
        split_ifs with hother
        · rw [hother, hstream]
        · rw [lookup_drop, if_neg hother]
      · rw [lookup_put, if_neg hname]
        exact rel_refl _

theorem place_of_key {place place' : Place} (hplaced : placed (trim place.path) = some place')
    (hkey : place'.key = place.key) : place' = place := by
  obtain ⟨hpath, -, -, hdot⟩ := placed_path hplaced
  obtain ⟨key, nested⟩ := place
  obtain ⟨key', nested'⟩ := place'
  obtain rfl : key' = key := hkey
  cases nested with
  | false =>
    cases nested' with
    | false => rfl
    | true =>
      -- a path is no longer than before it is trimmed
      have hlength := length_trim_le key'.toList
      simp only [Place.path, Bool.false_eq_true, if_false, if_true] at hpath
      rw [← hpath, List.length_append, List.length_cons] at hlength
      omega
  | true =>
    cases nested' with
    | true => rfl
    | false =>
      -- the dot of a path is not trimmed
      have hmem : '.' ∈ trim (key'.toList ++ '.' :: STREAM.toList) :=
        mem_trim (by decide) (List.mem_append_right _ (List.mem_cons_self ..))
      simp only [Place.path, Bool.false_eq_true, if_false, if_true] at hpath
      rw [← hpath] at hmem
      exact absurd hmem hdot

theorem Held.missed {request input : Entries σ δ} {carried : Carried σ δ} (hheld : Held request input carried)
    (hnodup : (input.map Prod.fst).Nodup) {left : Entries σ δ}
    (hleft : carried.envelope.lookup INPUT = some (.object left)) :
    ¬Option.Rel Alike (left.lookup carried.place.key) (input.lookup carried.place.key) := by
  intro hrel
  cases hheld with
  | @direct key s hmem =>
    rw [lookup_put_self] at hleft
    obtain rfl := Value.object.inj (Option.some.inj hleft)
    rw [lookup_drop, if_pos rfl, lookup_of_mem hnodup hmem] at hrel
    cases hrel
  | @nested key s value property hmem hproperty hstream =>
    rw [lookup_put_self] at hleft
    obtain rfl := Value.object.inj (Option.some.inj hleft)
    rw [lookup_put_self, lookup_of_mem hnodup hmem] at hrel
    cases hrel with
    | some halike =>
      obtain ⟨property', rfl⟩ := halike.object
      obtain rfl := Option.some.inj hproperty
      have hlookup := halike.property STREAM
      rw [lookup_drop, if_pos rfl, hstream] at hlookup
      cases hlookup

theorem place_of_faithful {request request' input : Entries σ δ} {carried : Carried σ δ} {place : Place}
    (hinput : request.lookup INPUT = some (.object input)) (hnodup : (input.map Prod.fst).Nodup)
    (hheld : Held request input carried) (hplaced : placed (trim carried.place.path) = some place)
    (hattach : attach carried.envelope place carried.stream = .invoked request')
    (hfaithful : Faithful request request') : place = carried.place := by
  refine place_of_key hplaced ?_
  obtain ⟨-, input', left', hinput', hleft', hrel⟩ := hfaithful
  obtain rfl : input = input' := Value.object.inj (Option.some.inj (hinput.symm.trans hinput'))
  obtain ⟨left, hleft⟩ := hheld.left
  by_contra hne
  obtain ⟨value, rfl⟩ := invoked_of_attach hleft hattach
  rw [lookup_put_self] at hleft'
  obtain rfl := Value.object.inj (Option.some.inj hleft')
  refine hheld.missed hnodup hleft ?_
  have hkept := hrel carried.place.key
  rwa [lookup_put, if_neg (Ne.symm hne)] at hkept

theorem object_of_faithful {request request' input : Entries σ δ} {carried : Carried σ δ}
    (hinput : request.lookup INPUT = some (.object input)) (hheld : Held request input carried)
    (hattach : attach carried.envelope carried.place carried.stream = .invoked request')
    (hfaithful : Faithful request request') (hnested : carried.place.nested = true) :
    ∃ property, input.lookup carried.place.key = some (.object property) := by
  obtain ⟨-, input', left', hinput', hleft', hrel⟩ := hfaithful
  obtain rfl : input = input' := Value.object.inj (Option.some.inj (hinput.symm.trans hinput'))
  cases hheld with
  | direct => cases hnested
  | @nested key s value property hmem hproperty hstream =>
    have hrest : (put input key (.object (drop property STREAM))).lookup key =
        some (.object (drop property STREAM)) := lookup_put_self ..
    rw [attach, lookup_put_self] at hattach
    dsimp only at hattach
    rw [hrest] at hattach
    obtain rfl := Served.invoked.inj hattach
    rw [lookup_put_self] at hleft'
    obtain rfl := Value.object.inj (Option.some.inj hleft')
    have hkept := hrel key
    rw [lookup_put_self] at hkept
    cases hlookup : input.lookup key with
    | none =>
      rw [hlookup] at hkept
      cases hkept
    | some value' =>
      rw [hlookup] at hkept
      cases hkept with
      | some halike =>
        obtain ⟨property', rfl⟩ := halike.object
        exact ⟨property', rfl⟩

/-- A streamed call is made on the side that serves it as it was on the side that makes it, just where its headers
keep it. -/
theorem carried_iff {request : Entries σ δ} {carried : Carried σ δ} (hdetach : detach request = some carried)
    (hc : Promised stringify parse carried.envelope)
    (hnodup : ∀ input, request.lookup INPUT = some (.object input) → (input.map Prod.fst).Nodup) :
    (∃ request', exchange reads stringify parse request = some (.invoked request') ∧ Faithful request request') ↔
      Carriable reads stringify request carried := by
  obtain ⟨properties, hproperties, hheld⟩ := held_of_detach hdetach
  constructor
  · rintro ⟨request', hexchange, hfaithful⟩
    obtain ⟨hsent, hserved⟩ := (exchange_eq_some hdetach hc _ (by simp)).mp hexchange
    cases hplaced : placed (trim carried.place.path) with
    | none =>
      rw [hplaced] at hserved
      cases hserved
    | some place =>
      rw [hplaced] at hserved
      obtain ⟨-, input, -, hinput, -⟩ := id hfaithful
      rw [hinput] at hproperties
      obtain rfl : input = properties := Option.some.inj hproperties
      obtain rfl := place_of_faithful hinput (hnodup input hinput) hheld hplaced hserved.symm hfaithful
      obtain ⟨hpath, hkey⟩ := placed_path hplaced
      exact ⟨hsent, ⟨input, hinput, object_of_faithful hinput hheld hserved.symm hfaithful⟩, hpath.symm, hkey⟩
  · intro h
    obtain ⟨hkey, hallowed, hdot⟩ := h.key
    obtain ⟨input, hinput, hobject⟩ := h.object
    rw [hinput] at hproperties
    obtain rfl : input = properties := Option.some.inj hproperties
    obtain ⟨request', hattach, hfaithful⟩ := faithful_attach hinput (hnodup input hinput) hobject hheld
    refine ⟨request', (exchange_eq_some hdetach hc _ (by simp)).mpr ⟨h.toSent, ?_⟩, hfaithful⟩
    rw [h.bare, placed_of_key hkey hallowed hdot]
    exact hattach.symm

def upload : Entries ℕ String :=
  [("input", .object [("id", .scalar "a3"), ("file", .object [("stream", .stream 7), ("type", .scalar "png")])])]

def uploaded : Carried ℕ String where
  place := ⟨"file", true⟩
  stream := 7
  envelope := [("input", .object [("id", .scalar "a3"), ("file", .object [("type", .scalar "png")])])]

def text : List Char := "\x7b\"input\":\x7b\"id\":\"a3\",\"file\":\x7b\"type\":\"png\"\x7d\x7d\x7d".toList

def bounded (envelope path : List Char) : Bool := 160 + envelope.length + path.length < 16384

theorem carried_iff_upload : ∃ request',
    exchange bounded (fun _ => text) (fun json => if json = text then some (.object uploaded.envelope) else none)
      upload = some (.invoked request') ∧ Faithful upload request' :=
  (@carried_iff ℕ String bounded (fun _ => text) _ upload uploaded rfl ⟨if_pos rfl, by decide +kernel⟩ fun input h => by
    obtain rfl := Value.object.inj (Option.some.inj h)
    decide).mpr ⟨⟨by decide +kernel, by decide +kernel, by decide +kernel⟩, ⟨_, rfl, fun _ => ⟨_, rfl⟩⟩,
      by decide +kernel, by decide +kernel⟩

/-! ## What a call does to what serves it -/

theorem attach_thrown_iff {request input : Entries σ δ} {place : Place} {s : σ}
    (hinput : request.lookup INPUT = some (.object input)) :
    attach request place s = .thrown ↔ place.nested = true ∧ ∃ d, input.lookup place.key = some (.scalar d) := by
  unfold attach
  rw [hinput]
  dsimp only
  cases place.nested with
  | false => simp
  | true =>
    cases input.lookup place.key with
    | none =>
      simp only [if_true]
      split_ifs <;> simp
    | some value => cases value <;> simp

theorem attach_shared_iff {request input : Entries σ δ} {place : Place} {s : σ} {name : String}
    (hinput : request.lookup INPUT = some (.object input)) :
    attach request place s = .shared name ↔
      place = ⟨name, true⟩ ∧ name ∈ Json.INHERITED ∧ input.lookup name = none := by
  obtain ⟨key, nested⟩ := place
  unfold attach
  rw [hinput]
  dsimp only
  cases nested with
  | false => simp
  | true =>
    constructor
    · intro h
      simp only [if_true] at h
      split at h
      case h_1 hnone =>
        split_ifs at h with hkey
        obtain rfl := Served.shared.inj h
        exact ⟨rfl, hkey, hnone⟩
      all_goals cases h
    · rintro ⟨hplace, hname, hnone⟩
      obtain ⟨rfl, -⟩ := Place.mk.inj hplace
      rw [if_pos rfl, hnone]
      exact if_pos hname

theorem left_iff {request input left : Entries σ δ} {carried : Carried σ δ} {name : String}
    (hnodup : (input.map Prod.fst).Nodup) (hheld : Held request input carried)
    (hleft : carried.envelope.lookup INPUT = some (.object left)) (hname : carried.place ≠ ⟨name, false⟩) :
    (∀ d, left.lookup name = some (.scalar d) ↔ input.lookup name = some (.scalar d)) ∧
      (left.lookup name = none ↔ input.lookup name = none) := by
  cases hheld with
  | @direct key s hmem =>
    rw [lookup_put_self] at hleft
    obtain rfl := Value.object.inj (Option.some.inj hleft)
    have hne : name ≠ key := fun heq => hname (congrArg (Place.mk · false) heq.symm)
    rw [lookup_drop, if_neg hne]
    exact ⟨fun _ => Iff.rfl, Iff.rfl⟩
  | @nested key s value property hmem hproperty hstream =>
    rw [lookup_put_self] at hleft
    obtain rfl := Value.object.inj (Option.some.inj hleft)
    rw [lookup_put]
    split_ifs with heq
    · rw [heq, lookup_of_mem hnodup hmem]
      refine ⟨fun d => ?_, by simp⟩
      refine iff_of_false (fun h => by cases Option.some.inj h) fun h => ?_
      obtain rfl := Option.some.inj h
      cases hproperty
    · exact ⟨fun _ => Iff.rfl, Iff.rfl⟩

/-- A streamed call throws where nothing catches it, or writes its stream into what every object has in common, just
where its path is read as `name.stream` and the input has under that name what is no object, or nothing of a name
that every object has. -/
theorem harmed_iff {request input : Entries σ δ} {carried : Carried σ δ} (hdetach : detach request = some carried)
    (hc : Promised stringify parse carried.envelope)
    (hinput : (request.lookup INPUT).bind Value.properties = some input) (hnodup : (input.map Prod.fst).Nodup) :
    (exchange reads stringify parse request = some .thrown ∨
        ∃ name, exchange reads stringify parse request = some (.shared name)) ↔
      Sent reads stringify carried ∧
        ∃ name, placed (trim carried.place.path) = some ⟨name, true⟩ ∧
          ((∃ d, input.lookup name = some (.scalar d)) ∨ name ∈ Json.INHERITED ∧ input.lookup name = none) := by
  obtain ⟨input', hinput', hheld⟩ := held_of_detach hdetach
  obtain rfl : input = input' := Option.some.inj (hinput.symm.trans hinput')
  obtain ⟨left, hleft⟩ := hheld.left
  simp only [exchange_eq_some hdetach hc .thrown (by simp),
    exchange_eq_some hdetach hc (.shared _) (by simp), exists_and_left, ← and_or_left]
  refine and_congr_right fun _ => ?_
  cases hplaced : placed (trim carried.place.path) with
  | none => simp
  | some place =>
    have hkept : ∀ name, place = ⟨name, true⟩ → carried.place ≠ ⟨name, false⟩ := by
      rintro name rfl hdirect
      have hsame := place_of_key hplaced (congrArg Place.key hdirect).symm
      rw [hdirect] at hsame
      cases hsame
    simp only [Option.some.injEq]
    constructor
    · rintro (hthrown | ⟨name, hshared⟩)
      · obtain ⟨hnested, d, hd⟩ := (attach_thrown_iff hleft).mp hthrown.symm
        have hplace : place = ⟨place.key, true⟩ := by rw [← hnested]
        exact ⟨place.key, hplace, .inl ⟨d, ((left_iff hnodup hheld hleft (hkept _ hplace)).1 d).mp hd⟩⟩
      · obtain ⟨hplace, hname, hnone⟩ := (attach_shared_iff hleft).mp hshared.symm
        exact ⟨name, hplace, .inr ⟨hname, (left_iff hnodup hheld hleft (hkept _ hplace)).2.mp hnone⟩⟩
    · rintro ⟨name, hplace, ⟨d, hd⟩ | ⟨hname, hnone⟩⟩
      · obtain ⟨hscalar, -⟩ := left_iff hnodup hheld hleft (hkept _ hplace)
        rw [hplace]
        exact .inl ((attach_thrown_iff hleft).mpr ⟨rfl, d, (hscalar d).mpr hd⟩).symm
      · obtain ⟨-, hmissing⟩ := left_iff hnodup hheld hleft (hkept _ hplace)
        exact .inr ⟨name, ((attach_shared_iff hleft).mpr ⟨hplace, hname, hmissing.mpr hnone⟩).symm⟩

def misnamed : Entries ℕ String := [("input", .object [("file", .scalar "a3"), ("file.stream", .stream 7)])]

def misplaced : Carried ℕ String where
  place := ⟨"file.stream", false⟩
  stream := 7
  envelope := [("input", .object [("file", .scalar "a3")])]

def json : List Char := "\x7b\"input\":\x7b\"file\":\"a3\"\x7d\x7d".toList

theorem harmed_iff_misnamed :
    exchange bounded (fun _ => json) (fun text => if text = json then some (.object misplaced.envelope) else none)
        misnamed = some .thrown ∨
      ∃ name, exchange bounded (fun _ => json)
        (fun text => if text = json then some (.object misplaced.envelope) else none) misnamed = some (.shared name) :=
  (@harmed_iff ℕ String bounded (fun _ => json) _ misnamed _ misplaced rfl ⟨if_pos rfl, by decide +kernel⟩ rfl
    (by decide)).mpr ⟨⟨by decide +kernel, by decide +kernel, by decide +kernel⟩, "file", by decide +kernel,
      .inl ⟨"a3", rfl⟩⟩

end

end Toa.Http
