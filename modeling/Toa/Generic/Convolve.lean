import Mathlib.Data.List.MinMax
import Toa.Generic.Merge
import Toa.Lib.Words

/-! What a declaration says for one environment: a property that is tagged replaces the one it is named after,
where its tag is the first of those in hand, and is dropped. -/

namespace Toa.Generic
open Assoc

def MARKER : Char := '@'

/-- The name and the tag of a property that is tagged. One that begins with the marker is not. -/
def tagged (key : String) : Option (String × String) :=
  match (key.toList.splitOn MARKER).map String.ofList with
  | name :: tag :: _ => if name = "" then none else some (name, tag)
  | _ => none

def tags (discriminator : Option String) : List String :=
  match discriminator with
  | none => []
  | some chain => (chain.toList.splitOn ':').map String.ofList

/-- An object as its properties are gone over: what it holds, the rank of what was chosen for a name, and whether
its `__proto__` is still the one that every object inherits, which is set as no other property is: it holds
nothing, and what it is given stands behind the object. -/
structure Choice where
  own : List (String × Value)
  chosen : List (String × ℕ) := []
  setter : Bool := true

section
variable (chain : List String)

/-- A property with what it becomes, and whether `__proto__` of that is still what every object inherits. -/
def Choice.take (choice : Choice) (entry : String × Value × Bool) : Choice :=
  match tagged entry.1 with
  | none => choice
  | some (name, tag) =>
    let dropped := { choice with own := choice.own.filter (·.1 ≠ entry.1) }
    match chain.idxOf? tag with
    | none => dropped
    | some rank =>
      if (choice.chosen.lookup name).any (· ≤ rank) then dropped
      else
        let noted := { dropped with chosen := gather name rank (fun _ => rank) choice.chosen }
        if name = "__proto__" ∧ choice.setter ∧ (dropped.own.lookup name).isNone then
          { noted with setter := entry.2.2 }
        else { noted with own := gather name entry.2.1 (fun _ => entry.2.1) dropped.own }

def Choice.settle (entries : List (String × Value × Bool)) : Choice :=
  entries.foldl (Choice.take chain) { own := entries.map fun (key, value, _) => (key, value) }

mutual
/-- `convolve`, and whether `__proto__` of what is read through the value is what every object inherits. What is
neither an object nor null is not set as a prototype. -/
def convolved : Value → Value × Bool
  | .object list own =>
    let choice := Choice.settle chain (convolvedEntries own)
    (.object list choice.own, choice.setter && (choice.own.lookup "__proto__").isNone)
  | .null => (.null, false)
  | value => (value, true)

def convolvedEntries : List (String × Value) → List (String × Value × Bool)
  | [] => []
  | (key, value) :: own => (key, convolved value) :: convolvedEntries own
end

/-- An object is changed in place, so what holds it holds what it has become. -/
def convolve (value : Value) : Value := (convolved chain value).1

end

/-! ## What a name comes to -/

variable {chain : List String} {ν : Type*}

theorem convolvedEntries_eq (own : List (String × Value)) :
    convolvedEntries chain own = own.map fun (key, value) => (key, convolved chain value) := by
  induction own with
  | nil => rfl
  | cons entry own ih =>
    obtain ⟨key, value⟩ := entry
    exact congrArg ((key, convolved chain value) :: ·) ih

def candidates (chain : List String) (own : List (String × ν)) (name : String) : List (ℕ × ν) :=
  own.filterMap fun (key, value) =>
    match tagged key with
    | some (name', tag) => if name' = name then (chain.idxOf? tag).map (·, value) else none
    | none => none

/-- What is chosen for a name: of the tags that are first, the property that is first. -/
def chosen (chain : List String) (own : List (String × ν)) (name : String) : Option (ℕ × ν) :=
  (candidates chain own name).argmin Prod.fst

theorem candidates_concat (own : List (String × ν)) (entry : String × ν) (name : String) :
    candidates chain (own ++ [entry]) name = candidates chain own name ++ candidates chain [entry] name :=
  List.filterMap_append

theorem candidates_single {key name tag : String} (value : ν) (h : tagged key = some (name, tag)) (other : String) :
    candidates chain [(key, value)] other =
      if name = other then ((chain.idxOf? tag).map (·, value)).toList else [] := by
  simp only [candidates, List.filterMap_cons, List.filterMap_nil, h]
  split_ifs
  · cases chain.idxOf? tag <;> rfl
  · rfl

theorem candidates_untagged {key : String} (value : ν) (h : tagged key = none) (name : String) :
    candidates chain [(key, value)] name = [] := by
  simp only [candidates, List.filterMap_cons, List.filterMap_nil, h]

theorem tagged_name {key name tag : String} (h : tagged key = some (name, tag)) : tagged name = none := by
  unfold tagged at h
  split at h
  case h_2 => cases h
  case h_1 name' tag' rest hparts =>
    split_ifs at h with hname
    obtain ⟨rfl, rfl⟩ := Prod.mk.inj (Option.some.inj h)
    have hmem : name'.toList ∈ key.toList.splitOn MARKER := by
      have hfirst : name' ∈ (key.toList.splitOn MARKER).map String.ofList := hparts ▸ List.mem_cons_self ..
      obtain ⟨part, hpart, rfl⟩ := List.mem_map.mp hfirst
      rwa [String.toList_ofList]
    have hfree : MARKER ∉ name'.toList := Words.not_mem_of_mem_splitOn hmem
    rw [tagged, List.splitOn_eq_singleton hfree]
    rfl

theorem candidates_tagged {key : String} (h : tagged key ≠ none) (own : List (String × ν)) :
    candidates chain own key = [] := by
  refine List.filterMap_eq_nil_iff.mpr fun (key', value) _ => ?_
  cases htagged : tagged key' with
  | none => simp only [htagged]
  | some pair =>
    simp only [htagged]
    refine if_neg ?_
    rintro rfl
    exact h (tagged_name htagged)

/-- A name whose property is set as any other is. -/
def Plain (own : List (String × ν)) (name : String) : Prop :=
  name = "__proto__" → (own.lookup name).isSome = true

structure Choice.Told (chain : List String) (own : List (String × Value)) (seen : List (String × Value × Bool))
    (choice : Choice) : Prop where
  own : ∀ key, Plain own key → choice.own.lookup key =
    if tagged key ≠ none ∧ key ∈ seen.map Prod.fst then none
    else ((Generic.chosen chain seen key).map (·.2.1)).or (own.lookup key)
  chosen : ∀ name, choice.chosen.lookup name = (Generic.chosen chain seen name).map Prod.fst

theorem mem_keys_concat {seen : List (String × ν)} {entry : String × ν} {key : String} :
    key ∈ (seen ++ [entry]).map Prod.fst ↔ key ∈ seen.map Prod.fst ∨ key = entry.1 := by
  rw [List.map_append, List.mem_append, List.map_singleton, List.mem_singleton]

theorem lookup_filter_ne (own : List (String × Value)) (key other : String) :
    (own.filter (·.1 ≠ key)).lookup other = if other = key then none else own.lookup other := by
  rw [lookup_filter_key (p := fun k => decide (k ≠ key))]
  by_cases h : other = key <;> simp [h]

theorem lookup_gather_const (entries : List (String × ν)) (key other : String) (value : ν) :
    (gather key value (fun _ => value) entries).lookup other = if other = key then some value else entries.lookup other := by
  rw [lookup_gather]
  cases entries.lookup key <;> rfl

/-- No tagged property is named `__proto__`. -/
theorem plain_of_tagged {key : String} (h : tagged key ≠ none) (own : List (String × ν)) : Plain own key := by
  rintro rfl
  exact absurd (by decide) h

theorem Choice.Told.drop {own : List (String × Value)} {seen : List (String × Value × Bool)} {choice : Choice}
    (h : choice.Told chain own seen) {entry : String × Value × Bool} (htagged : tagged entry.1 ≠ none)
    (hsame : ∀ name, Generic.chosen chain (seen ++ [entry]) name = Generic.chosen chain seen name) :
    Told chain own (seen ++ [entry]) { choice with own := choice.own.filter (·.1 ≠ entry.1) } where
  own key hplain := by
    rw [lookup_filter_ne, h.own key hplain, hsame]
    by_cases hkey : key = entry.1
    · subst hkey
      rw [if_pos rfl, if_pos ⟨htagged, mem_keys_concat.mpr (.inr rfl)⟩]
    · rw [if_neg hkey]
      exact if_congr (and_congr_right' (mem_keys_concat.trans (or_iff_left hkey)).symm) rfl rfl
  chosen name := by rw [h.chosen, hsame]

theorem Choice.Told.put {own : List (String × Value)} {seen : List (String × Value × Bool)} {choice : Choice}
    (h : choice.Told chain own seen) {key name tag : String} {value : Value × Bool} {rank : ℕ}
    (htagged : tagged key = some (name, tag))
    (hothers : ∀ other, name ≠ other →
      Generic.chosen chain (seen ++ [(key, value)]) other = Generic.chosen chain seen other)
    (hnewer : Generic.chosen chain (seen ++ [(key, value)]) name = some (rank, value)) (setter : Bool)
    {held : List (String × Value)} (hheld : ∀ other, Plain own other → held.lookup other =
      if other = name then some value.1 else (choice.own.filter (·.1 ≠ key)).lookup other) :
    Told chain own (seen ++ [(key, value)])
      ⟨held, gather name rank (fun _ => rank) choice.chosen, setter⟩ where
  own other hplain := by
    rw [hheld other hplain]
    by_cases hother : other = name
    · subst hother
      rw [if_pos rfl, hnewer, if_neg fun hboth => hboth.1 (tagged_name htagged)]
      rfl
    · rw [if_neg hother, lookup_filter_ne, h.own other hplain, hothers other (Ne.symm hother)]
      by_cases hkey : other = key
      · subst hkey
        rw [if_pos rfl, if_pos ⟨htagged ▸ Option.some_ne_none _, mem_keys_concat.mpr (.inr rfl)⟩]
      · rw [if_neg hkey]
        exact if_congr (and_congr_right' (mem_keys_concat.trans (or_iff_left hkey)).symm) rfl rfl
  chosen other := by
    rw [lookup_gather_const]
    by_cases hother : other = name
    · subst hother
      rw [if_pos rfl, hnewer]
      rfl
    · rw [if_neg hother, h.chosen, hothers other (Ne.symm hother)]

theorem Choice.Told.take {own : List (String × Value)} {seen : List (String × Value × Bool)} {choice : Choice}
    (h : choice.Told chain own seen) (entry : String × Value × Bool) :
    (choice.take chain entry).Told chain own (seen ++ [entry]) := by
  obtain ⟨key, value⟩ := entry
  have hconcat : ∀ name, Generic.chosen chain (seen ++ [(key, value)]) name =
      (candidates chain seen name ++ candidates chain [(key, value)] name).argmin Prod.fst := fun name =>
    congrArg (List.argmin Prod.fst) (candidates_concat seen (key, value) name)
  unfold Choice.take
  split
  case h_1 htagged =>
    have hsame : ∀ name, Generic.chosen chain (seen ++ [(key, value)]) name = Generic.chosen chain seen name := by
      intro name
      rw [hconcat, candidates_untagged value htagged, List.append_nil]
      rfl
    refine ⟨fun other hplain => ?_, fun name => by rw [h.chosen, hsame]⟩
    rw [h.own other hplain, hsame]
    refine if_congr (and_congr_right fun hne => ?_) rfl rfl
    have hother : other ≠ key := fun heq => hne (heq ▸ htagged)
    exact (mem_keys_concat.trans (or_iff_left hother)).symm
  case h_2 name tag htagged =>
    dsimp only at htagged ⊢
    have hne : tagged key ≠ none := htagged ▸ Option.some_ne_none _
    have hothers : ∀ other, name ≠ other →
        Generic.chosen chain (seen ++ [(key, value)]) other = Generic.chosen chain seen other := by
      intro other hother
      rw [hconcat, candidates_single value htagged, if_neg hother, List.append_nil]
      rfl
    split
    case h_1 hrank =>
      refine h.drop hne fun other => ?_
      rw [hconcat, candidates_single value htagged, hrank, Option.map_none, Option.toList_none, ite_self,
        List.append_nil]
      rfl
    case h_2 rank hrank =>
      have hnew : Generic.chosen chain (seen ++ [(key, value)]) name =
          match Generic.chosen chain seen name with
          | none => some (rank, value)
          | some c => if rank < c.1 then some (rank, value) else some c := by
        rw [hconcat, candidates_single value htagged, if_pos rfl, hrank, Option.map_some, Option.toList_some,
          List.argmin_concat]
        cases hchosen : (candidates chain seen name).argmin Prod.fst <;> rw [Generic.chosen, hchosen]
      have hranked := h.chosen name
      split
      case isTrue hlower =>
        refine h.drop hne fun other => ?_
        by_cases hother : name = other
        · subst hother
          rw [hnew]
          cases hchosen : Generic.chosen chain seen name with
          | none =>
            rw [hranked, hchosen] at hlower
            cases hlower
          | some c =>
            rw [hranked, hchosen] at hlower
            exact if_neg (Nat.not_lt.mpr (of_decide_eq_true hlower))
        · exact hothers other hother
      case isFalse hhigher =>
        have hnewer : Generic.chosen chain (seen ++ [(key, value)]) name = some (rank, value) := by
          rw [hnew]
          cases hchosen : Generic.chosen chain seen name with
          | none => rfl
          | some c =>
            rw [hranked, hchosen] at hhigher
            refine if_pos (Nat.lt_of_not_le fun hle => hhigher (decide_eq_true hle))
        split
        case isTrue hproto =>
          obtain ⟨rfl, -, hnone⟩ := hproto
          refine h.put htagged hothers hnewer _ fun other hplain => ?_
          rw [if_neg]
          rintro rfl
          -- an object with a `__proto__` of its own has it at every step
          have hkey : "__proto__" ≠ key := by
            rintro rfl
            exact absurd (by decide) hne
          rw [lookup_filter_ne, if_neg hkey, h.own _ hplain, if_neg fun hboth => hboth.1 (by decide)] at hnone
          cases hown : own.lookup "__proto__" with
          | none => exact absurd (hplain rfl) (by rw [hown]; decide)
          | some held =>
            rw [hown, Option.isNone_iff_eq_none, Option.or_eq_none_iff] at hnone
            cases hnone.2
        case isFalse =>
          exact h.put htagged hothers hnewer _ fun other _ => lookup_gather_const _ _ _ _

theorem Choice.told_foldl (own : List (String × Value)) (seen : List (String × Value × Bool)) :
    (seen.foldl (Choice.take chain) { own }).Told chain own seen := by
  induction seen using List.reverseRecOn with
  | nil => exact ⟨fun key _ => by simp [Generic.chosen, candidates], fun name => rfl⟩
  | append_singleton seen entry ih =>
    rw [List.foldl_append]
    exact ih.take entry

theorem lookup_values (entries : List (String × Value × Bool)) (key : String) :
    (entries.map fun (key, value, _) => (key, value)).lookup key = (entries.lookup key).map Prod.fst :=
  lookup_map Prod.fst entries key

theorem lookup_settle (entries : List (String × Value × Bool)) {key : String} (hplain : Plain entries key) :
    (Choice.settle chain entries).own.lookup key = if tagged key ≠ none then none
      else ((chosen chain entries key).map (·.2.1)).or ((entries.lookup key).map Prod.fst) := by
  have hvalues := lookup_values entries key
  have htold := (@Choice.told_foldl chain (entries.map fun (key, value, _) => (key, value)) entries).own key
    fun hproto => by rw [hvalues, Option.isSome_map]; exact hplain hproto
  rw [Choice.settle, htold, hvalues]
  by_cases htagged : tagged key = none
  · rw [if_neg fun hboth => hboth.1 htagged, if_neg fun hne => hne htagged]
  · rw [if_pos htagged]
    by_cases hkey : key ∈ entries.map Prod.fst
    · rw [if_pos ⟨htagged, hkey⟩]
    · rw [if_neg fun hboth => hkey hboth.2, lookup_eq_none_iff.mpr hkey, chosen, candidates_tagged htagged]
      rfl

theorem candidates_convolvedEntries (own : List (String × Value)) (name : String) :
    candidates chain (convolvedEntries chain own) name =
      (candidates chain own name).map fun (rank, value) => (rank, convolved chain value) := by
  rw [convolvedEntries_eq]
  unfold candidates
  rw [List.filterMap_map, List.map_filterMap]
  refine List.filterMap_congr fun (key, value) _ => ?_
  dsimp only [Function.comp_apply]
  split
  · split_ifs
    · rw [Option.map_map]
      rfl
    · rfl
  · rfl

theorem lookup_convolvedEntries (own : List (String × Value)) (key : String) :
    (convolvedEntries chain own).lookup key = (own.lookup key).map (convolved chain) := by
  rw [convolvedEntries_eq]
  exact lookup_map (convolved chain) own key

theorem argmin_map_snd {α β : Type*} (f : α → β) (l : List (ℕ × α)) :
    (l.map fun (rank, a) => (rank, f a)).argmin Prod.fst = (l.argmin Prod.fst).map fun (rank, a) => (rank, f a) := by
  induction l using List.reverseRecOn with
  | nil => rfl
  | append_singleton l a ih =>
    rw [List.map_append, List.map_singleton, List.argmin_concat, List.argmin_concat, ih]
    cases l.argmin Prod.fst with
    | none => rfl
    | some c =>
      dsimp only [Option.map_some]
      split_ifs <;> rfl

/-- What an object has under a name once it is convolved, at whatever depth it stands: of the properties that are
tagged for the name by a tag in hand, the first of those whose tag comes first, and where there is none what it
had; and it has no property that is tagged. -/
theorem lookup_convolve (list : Bool) (own : List (String × Value)) {key : String} (hplain : Plain own key) :
    ∃ own', convolve chain (.object list own) = .object list own' ∧ own'.lookup key =
      if tagged key ≠ none then none
      else match chosen chain own key with
        | some (_, value) => some (convolve chain value)
        | none => (own.lookup key).map (convolve chain) := by
  refine ⟨_, rfl, ?_⟩
  have hentries : Plain (convolvedEntries chain own) key := by
    rw [Plain, lookup_convolvedEntries, Option.isSome_map]
    exact hplain
  rw [lookup_settle _ hentries, chosen, candidates_convolvedEntries, argmin_map_snd, lookup_convolvedEntries]
  split_ifs
  · rfl
  · rw [chosen]
    cases (candidates chain own key).argmin Prod.fst with
    | none =>
      rw [Option.map_none, Option.map_none, Option.none_or, Option.map_map]
      rfl
    | some c => rfl

def declaration : List (String × Value) :=
  [("a@eu", .string "x"), ("a", .string "y"), ("__proto__@eu", .object false [("b", .null)]),
    ("a@staging", .string "z")]

/-- What `__proto__` is tagged with does not become a property. -/
theorem lookup_convolve_staging : ∃ own,
    convolve (tags (some "staging:eu")) (.object false declaration) = .object false own ∧
      own.lookup "a" = some (.string "z") :=
  lookup_convolve false declaration fun h => absurd h (by decide)

/-! ## Once more -/

mutual
def Value.settled : Value → Bool
  | .object _ own => Value.settledEntries own
  | _ => true

def Value.settledEntries : List (String × Value) → Bool
  | [] => true
  | (key, value) :: own => (tagged key).isNone && value.settled && Value.settledEntries own
end

theorem Value.settledEntries_iff {own : List (String × Value)} :
    Value.settledEntries own = true ↔ ∀ entry ∈ own, tagged entry.1 = none ∧ entry.2.settled = true := by
  induction own with
  | nil => simp [Value.settledEntries]
  | cons entry own ih =>
    obtain ⟨key, value⟩ := entry
    rw [Value.settledEntries, Bool.and_eq_true, Bool.and_eq_true, ih, List.forall_mem_cons, Option.isNone_iff_eq_none]

theorem Choice.mem_take {choice : Choice} {entry : String × Value × Bool} {held : String × Value}
    (h : held ∈ (choice.take chain entry).own) : held ∈ choice.own ∨ held.2 = entry.2.1 := by
  unfold Choice.take at h
  split at h
  case h_1 => exact .inl h
  case h_2 name tag htagged =>
    dsimp only at h
    split at h
    · exact .inl (List.mem_of_mem_filter h)
    · split at h
      · exact .inl (List.mem_of_mem_filter h)
      · split at h
        · exact .inl (List.mem_of_mem_filter h)
        · obtain ⟨-, hvalue⟩ | hheld := mem_gather h
          · exact .inr hvalue
          · exact .inl (List.mem_of_mem_filter hheld)

theorem Choice.mem_foldl {entries seen : List (String × Value × Bool)} {choice : Choice} (hseen : seen ⊆ entries)
    (hchoice : ∀ held ∈ choice.own, ∃ entry ∈ entries, held.2 = entry.2.1) {held : String × Value}
    (h : held ∈ (seen.foldl (Choice.take chain) choice).own) : ∃ entry ∈ entries, held.2 = entry.2.1 := by
  induction seen generalizing choice with
  | nil => exact hchoice held h
  | cons entry seen ih =>
    refine ih (fun _ hmem => hseen (List.mem_cons_of_mem _ hmem)) (fun held hheld => ?_) h
    obtain hold | hvalue := Choice.mem_take hheld
    · exact hchoice held hold
    · exact ⟨entry, hseen (List.mem_cons_self ..), hvalue⟩

theorem Choice.mem_settle {entries : List (String × Value × Bool)} {held : String × Value}
    (h : held ∈ (Choice.settle chain entries).own) : ∃ entry ∈ entries, held.2 = entry.2.1 := by
  refine Choice.mem_foldl (List.Subset.refl _) (fun held hheld => ?_) h
  obtain ⟨entry, hentry, rfl⟩ := List.mem_map.mp hheld
  exact ⟨entry, hentry, rfl⟩

theorem Choice.settle_settled {entries : List (String × Value × Bool)} (h : ∀ entry ∈ entries, tagged entry.1 = none) :
    (Choice.settle chain entries).own = entries.map fun (key, value, _) => (key, value) := by
  have hfold : ∀ (seen : List (String × Value × Bool)) (choice : Choice), (∀ entry ∈ seen, tagged entry.1 = none) →
      seen.foldl (Choice.take chain) choice = choice := by
    intro seen
    induction seen with
    | nil => exact fun _ _ => rfl
    | cons entry seen ih =>
      intro choice hseen
      obtain ⟨hentry, hrest⟩ := List.forall_mem_cons.mp hseen
      have htake : choice.take chain entry = choice := by rw [Choice.take, hentry]
      rw [List.foldl_cons, htake, ih choice hrest]
  rw [Choice.settle, hfold entries _ h]

mutual
theorem settled_convolve : ∀ value : Value, (convolve chain value).settled = true
  | .undefined => rfl
  | .null => rfl
  | .boolean _ => rfl
  | .number _ => rfl
  | .string _ => rfl
  | .object list own => by
    rw [convolve, convolved, Value.settled, Value.settledEntries_iff]
    intro held hheld
    constructor
    · by_contra htagged
      have hdropped := @lookup_settle chain (convolvedEntries chain own) held.1 (plain_of_tagged htagged _)
      rw [if_pos htagged] at hdropped
      exact lookup_eq_none_iff.mp hdropped (List.mem_map_of_mem hheld)
    · obtain ⟨entry, hentry, hvalue⟩ := Choice.mem_settle hheld
      rw [hvalue]
      exact settled_convolvedEntries own entry hentry

theorem settled_convolvedEntries : ∀ own : List (String × Value),
    ∀ entry ∈ convolvedEntries chain own, entry.2.1.settled = true
  | [], _, h => by cases h
  | (key, value) :: own, entry, h => by
    obtain rfl | h := List.mem_cons.mp h
    · exact settled_convolve value
    · exact settled_convolvedEntries own entry h
end

mutual
theorem convolve_settled : ∀ {value : Value}, value.settled = true → convolve chain value = value
  | .undefined, _ => rfl
  | .null, _ => rfl
  | .boolean _, _ => rfl
  | .number _, _ => rfl
  | .string _, _ => rfl
  | .object list own, h => by
    rw [Value.settled] at h
    obtain ⟨huntagged, hsame⟩ := convolvedEntries_settled h
    rw [convolve, convolved, Choice.settle_settled huntagged, hsame]

theorem convolvedEntries_settled : ∀ {own : List (String × Value)}, Value.settledEntries own = true →
    (∀ entry ∈ convolvedEntries chain own, tagged entry.1 = none) ∧
      ((convolvedEntries chain own).map fun (key, value, _) => (key, value)) = own
  | [], _ => ⟨fun _ h => (by cases h), rfl⟩
  | (key, value) :: own, h => by
    rw [Value.settledEntries, Bool.and_eq_true, Bool.and_eq_true, Option.isNone_iff_eq_none] at h
    obtain ⟨huntagged, hsame⟩ := convolvedEntries_settled h.2
    have hvalue : (convolved chain value).1 = value := convolve_settled h.1.2
    refine ⟨List.forall_mem_cons.mpr ⟨h.1.1, huntagged⟩, ?_⟩
    rw [convolvedEntries, List.map_cons, hsame]
    exact congrArg (fun v => (key, v) :: own) hvalue
end

/-- Once is as good as twice, whatever the tags in hand are the second time: what was convolved holds nothing that
is tagged, at any depth. -/
theorem convolve_again (chain chain' : List String) (value : Value) :
    convolve chain' (convolve chain value) = convolve chain value :=
  convolve_settled (settled_convolve value)

example :
    convolve (tags (some "staging:eu")) (.object false [("a@eu", .string "x"), ("a", .string "y"),
      ("b", .object false [("c@staging", .null)]), ("@d", .null), ("a@staging", .string "z")]) =
    .object false [("a", .string "z"), ("b", .object false [("c", .null)]), ("@d", .null)] := by rfl

end Toa.Generic
