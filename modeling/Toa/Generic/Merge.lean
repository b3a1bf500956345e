import Mathlib.Data.List.Nodup
import Mathlib.Data.Rat.Init
import Toa.Lib.Json

/-! What a value comes to hold that another is added to: the properties of the other that it does not have,
at every depth. A list is left as it is where the other is one as well. -/

namespace Toa.Generic

/-- A list is an object of its indices, and has other names where an object was added to it. -/
inductive Value
  | undefined
  | null
  | boolean (b : Bool)
  | number (q : ℚ)
  | string (s : String)
  | object (list : Bool) (own : List (String × Value))

namespace Value

def typeof : Value → String
  | .undefined => "undefined"
  | .null | .object _ _ => "object"
  | .boolean _ => "boolean"
  | .number _ => "number"
  | .string _ => "string"

def orEmpty : Value → Value
  | .undefined => .object false []
  | value => value

def defined : Value → Bool
  | .undefined => false
  | _ => true

def isObject : Value → Bool
  | .object _ _ => true
  | _ => false

def isList : Value → Bool
  | .object list _ => list
  | _ => false

def get (value : Value) (name : String) : Value :=
  match value with
  | .object _ own => (own.lookup name).getD .undefined
  | _ => .undefined

def set (target : Value) (name : String) (value : Value) : Value :=
  match target with
  | .object list own => .object list (Assoc.gather name value (fun _ => value) own)
  | target => target

def «at» (value : Value) (path : List String) : Value := path.foldl get value

end Value

def LISTED : List String :=
  ["at", "concat", "copyWithin", "entries", "every", "fill", "filter", "find", "findIndex", "findLast",
    "findLastIndex", "flat", "flatMap", "forEach", "includes", "indexOf", "join", "keys", "lastIndexOf", "map",
    "pop", "push", "reduce", "reduceRight", "reverse", "shift", "slice", "some", "sort", "splice", "toReversed",
    "toSorted", "toSpliced", "unshift", "values", "with"]

def inherits (list : Bool) (name : String) : Bool :=
  name ∈ Json.INHERITED ∨ list = true ∧ (name = "length" ∨ name ∈ LISTED)

/-- What a name reads off an object: its own property or nothing, what it is not enumerated with, which is a
function or a number, or the prototype. -/
inductive Held
  | own (value : Value)
  | inherited
  | prototype

def held (list : Bool) (found : Option Value) (name : String) : Held :=
  match found with
  | some value => .own value
  | none => if name = "__proto__" then .prototype else if inherits list name then .inherited else .own .undefined

/-- `target[name]`, which raises of `null`. -/
def read (target : Value) (name : String) : Option Held :=
  match target with
  | .object list own => some (held list (own.lookup name) name)
  | _ => none

inductive Raised
  | sameType (path : List String)
  | objects (path : List String)
  | convert
  | read (name : String)
deriving DecidableEq

def string (path : List String) : String := "/" ++ "/".intercalate path

def Raised.message : Raised → String
  | .sameType path => "generic/merge: arguments must be of the same type at " ++ string path
  | .objects path => "generic/merge: arguments must be objects or arrays at " ++ string path
  | .convert => "Cannot convert undefined or null to object"
  | .read name => "Cannot read properties of null (reading '" ++ name ++ "')"

/-- Where a merge does not come to its end: it raises, or writes to what every object inherits, of which no
more is said. -/
inductive Stop
  | raised (error : Raised)
  | prototype
deriving DecidableEq

/-- The target as it is left, and whether the merge came to its end. -/
structure Outcome where
  target : Value
  stop : Option Stop := none

/-- `merge`, of a source that has no properties. -/
def mergeBare (path : List String) (target source : Value) : Outcome :=
  if target.typeof ≠ source.typeof then ⟨target, some (.raised (.sameType path))⟩
  else match source with
    | .object _ _ => ⟨target, none⟩
    | .null => ⟨target, some (.raised .convert)⟩
    | _ => ⟨target, some (.raised (.objects path))⟩

/-- What becomes of a property: what is set under its name, and whether the merge goes on. What is neither an
object nor a list is in conflict, and the conflict is ignored. -/
def property (path : List String) (target : Value) (name : String) (value : Value) (merge : Value → Outcome) :
    Option Value × Option Stop :=
  if value.defined = false then (none, none)
  else match read target name, value with
    | none, _ => (none, some (.raised (.read name)))
    | some (.own .undefined), value => (some value, none)
    | some (.own held), .object _ _ => (some (merge held).target, (merge held).stop)
    | some .inherited, .object _ _ => (none, some (.raised (.sameType path)))
    | some .prototype, .object _ _ => (none, some .prototype)
    | _, _ => (none, none)

def assign (target : Value) (name : String) (value : Option Value) : Value := value.elim target (target.set name)

mutual
/-- `merge`, as it ignores conflicts: of two lists the target is left as it is. -/
def merge (path : List String) (target : Value) : Value → Outcome
  | .object list own =>
    if target.orEmpty.typeof ≠ "object" then ⟨target, some (.raised (.sameType path))⟩
    else if target.isList = true ∧ list = true then ⟨target, none⟩
    else mergeEntries path target.orEmpty own
  | source => mergeBare path target.orEmpty source.orEmpty
termination_by structural source => source

def mergeEntries (path : List String) (target : Value) : List (String × Value) → Outcome
  | [] => ⟨target, none⟩
  | (name, value) :: own =>
    let merged := property (path ++ [name]) target name value fun held => merge (path ++ [name]) held value
    match merged.2 with
    | none => mergeEntries path (assign target name merged.1) own
    | some stop => ⟨assign target name merged.1, some stop⟩
termination_by structural own => own
end

/-- `add` -/
def add (target source : Value) : Outcome := merge [] target source

/-! ## What a value holds -/

inductive Value.Distinct : Value → Prop
  | bare {value : Value} (h : value.isObject = false) : Value.Distinct value
  | object {list : Bool} {own : List (String × Value)} (hnodup : (own.map Prod.fst).Nodup)
    (hown : ∀ property ∈ own, Value.Distinct property.2) : Value.Distinct (.object list own)

def Kept : Value → Value → Prop
  | .object list _, value => ∃ own, value = .object list own
  | value, value' => value' = value

def Keeps (target merged : Value) : Prop :=
  ∀ path, (target.at path).defined = true → Kept (target.at path) (merged.at path)

def Through (target source : Value) : List String → Prop
  | [] => False
  | name :: path => target.isList = true ∧ source.isList = true ∨ Through (target.get name) (source.get name) path

/-- Outside of lists that both hold, the target holds objects or nothing where the source holds objects, and
no name of the source is there that the target has without holding it. -/
structure Clear (target source : Value) : Prop where
  objects : ∀ path, ¬Through target source path → (source.at path).isObject = true →
    (target.at path).defined = true → (target.at path).isObject = true
  names : ∀ path name list own, ¬Through target source (path ++ [name]) → target.at path = .object list own →
    (source.at (path ++ [name])).defined = true → inherits list name = true →
      (target.at (path ++ [name])).defined = true

mutual
theorem induct {P : Value → Prop} (bare : ∀ value : Value, value.isObject = false → P value)
    (object : ∀ list own, (∀ property ∈ own, P property.2) → P (.object list own)) : ∀ value, P value
  | .undefined => bare _ rfl
  | .null => bare _ rfl
  | .boolean _ => bare _ rfl
  | .number _ => bare _ rfl
  | .string _ => bare _ rfl
  | .object list own => object list own (inductEntries bare object own)

theorem inductEntries {P : Value → Prop} (bare : ∀ value : Value, value.isObject = false → P value)
    (object : ∀ list own, (∀ property ∈ own, P property.2) → P (.object list own)) :
    ∀ own : List (String × Value), ∀ property ∈ own, P property.2
  | [] => fun _ h => absurd h List.not_mem_nil
  | (_, value) :: own => fun _ h =>
    (List.mem_cons.mp h).elim (fun heq => heq ▸ induct bare object value) (inductEntries bare object own _)
end

theorem defined_iff {value : Value} : value.defined = false ↔ value = .undefined := by
  cases value <;> simp [Value.defined]

theorem undefined_at (path : List String) : Value.undefined.at path = .undefined := by
  induction path with
  | nil => rfl
  | cons name path ih => exact ih

theorem get_bare {value : Value} (h : value.isObject = false) (name : String) : value.get name = .undefined := by
  cases value with
  | object list own => cases h
  | _ => rfl

theorem not_through_left {source : Value} {path : List String} : ¬Through .undefined source path := by
  induction path generalizing source with
  | nil => exact id
  | cons name path ih =>
    rintro (⟨h, -⟩ | h)
    · cases h
    · exact ih h

theorem not_through_right {target : Value} {path : List String} : ¬Through target .undefined path := by
  induction path generalizing target with
  | nil => exact id
  | cons name path ih =>
    rintro (⟨-, h⟩ | h)
    · cases h
    · exact ih h

theorem get_set (list : Bool) (own : List (String × Value)) (name name' : String) (value : Value) :
    ((Value.object list own).set name value).get name' =
      if name' = name then value else (Value.object list own).get name' := by
  rw [Value.set, Value.get, Assoc.lookup_gather]
  split_ifs with h
  · cases own.lookup name <;> rfl
  · rfl

/-! ## What is kept -/

theorem Kept.refl (value : Value) : Kept value value := by
  cases value with
  | object list own => exact ⟨own, rfl⟩
  | _ => rfl

theorem Kept.trans {v w u : Value} (h : Kept v w) (h' : Kept w u) : Kept v u := by
  cases v with
  | object list own =>
    obtain ⟨own', rfl⟩ := h
    exact h'
  | _ =>
    cases h
    exact h'

theorem Kept.defined {v w : Value} (h : Kept v w) (hv : v.defined = true) : w.defined = true := by
  cases v with
  | object list own =>
    obtain ⟨own', rfl⟩ := h
    rfl
  | _ =>
    cases h
    exact hv

theorem Keeps.refl (value : Value) : Keeps value value := fun path _ => Kept.refl (value.at path)

theorem Keeps.trans {v w u : Value} (h : Keeps v w) (h' : Keeps w u) : Keeps v u := by
  intro path hpath
  have hkept := h path hpath
  exact hkept.trans (h' path (hkept.defined hpath))

theorem keeps_undefined (value : Value) : Keeps .undefined value := by
  intro path hpath
  rw [undefined_at] at hpath
  cases hpath

theorem keeps_set {target value : Value} {name : String} (h : Keeps (target.get name) value) :
    Keeps target (target.set name value) := by
  cases target with
  | object list own =>
    intro path hpath
    cases path with
    | nil => exact ⟨_, rfl⟩
    | cons name' path =>
      have hget := get_set list own name name' value
      rw [Value.at, List.foldl_cons, Value.at, List.foldl_cons, hget]
      split_ifs with hname
      · subst hname
        exact h path hpath
      · exact Kept.refl _
  | _ => exact Keeps.refl _

theorem get_of_read {target : Value} {name : String} {held : Held} (h : read target name = some held) :
    held = .own (target.get name) ∨ target.get name = .undefined ∧ ∃ list own, target = .object list own ∧
      inherits list name = true ∧ (held = .inherited ∨ held = .prototype) := by
  cases target with
  | object list own =>
    have hheld := Option.some.inj h
    rw [Value.get]
    cases hlookup : own.lookup name with
    | some value =>
      rw [hlookup] at hheld
      exact .inl hheld.symm
    | none =>
      rw [hlookup, Generic.held] at hheld
      split_ifs at hheld with hprototype hinherits
      · refine .inr ⟨rfl, list, own, rfl, ?_, .inr hheld.symm⟩
        subst hprototype
        exact decide_eq_true (.inl (by decide))
      · exact .inr ⟨rfl, list, own, rfl, hinherits, .inl hheld.symm⟩
      · exact .inl hheld.symm
  | _ => cases h

inductive Became (target : Value) (name : String) (merge : Value → Outcome) :
    Value → Option Value × Option Stop → Prop
  | nothing : Became target name merge .undefined (none, none)
  | filled {value : Value} (hvalue : value.defined = true) (hget : target.get name = .undefined) :
    Became target name merge value (some value, none)
  | merged {list : Bool} {own : List (String × Value)} (hget : (target.get name).defined = true) :
    Became target name merge (.object list own)
      (some (merge (target.get name)).target, (merge (target.get name)).stop)
  | conflict {value : Value} (hvalue : value.isObject = false) (hget : (target.get name).defined = true) :
    Became target name merge value (none, none)
  /-- the name is there, and not held -/
  | foreign {value : Value} {stop : Option Stop} {list : Bool} {own : List (String × Value)}
    (hvalue : value.defined = true) (htarget : target = .object list own) (hget : target.get name = .undefined)
    (hinherits : inherits list name = true) (hstop : stop = none → value.isObject = false) :
    Became target name merge value (none, stop)
  | raised {value : Value} {stop : Stop} (htarget : target.isObject = false) :
    Became target name merge value (none, some stop)

theorem became (path : List String) (target : Value) (name : String) (value : Value) (merge : Value → Outcome) :
    Became target name merge value (property path target name value merge) := by
  unfold property
  split_ifs with hvalue
  · rw [defined_iff.mp hvalue]
    exact .nothing
  rw [Bool.not_eq_false] at hvalue
  cases hread : read target name with
  | none =>
    refine .raised ?_
    cases target with
    | object list own => cases hread
    | _ => rfl
  | some held =>
    obtain rfl | ⟨hget, list, own, htarget, hinherits, rfl | rfl⟩ := get_of_read hread
    · cases hget : target.get name with
      | undefined => exact .filled hvalue hget
      | _ =>
        cases value with
        | object list own =>
          simp only
          rw [← hget]
          exact .merged (hget ▸ rfl)
        | _ => exact .conflict rfl (hget ▸ rfl)
    · cases value with
      | object => exact .foreign hvalue htarget hget hinherits fun h => by cases h
      | _ => exact .foreign hvalue htarget hget hinherits fun _ => rfl
    · cases value with
      | object => exact .foreign hvalue htarget hget hinherits fun h => by cases h
      | _ => exact .foreign hvalue htarget hget hinherits fun _ => rfl

theorem keeps_property {path : List String} {target value : Value} {name : String} {merge : Value → Outcome}
    (hmerge : ∀ v, value.isObject = true → Keeps v (merge v).target) :
    Keeps target (assign target name (property path target name value merge).1) := by
  have hbecame := became path target name value merge
  generalize property path target name value merge = result at hbecame
  cases hbecame with
  | filled hvalue hget => exact keeps_set (hget ▸ keeps_undefined value)
  | merged hget => exact keeps_set (hmerge _ rfl)
  | nothing | conflict | foreign | raised => exact Keeps.refl _

theorem keeps_mergeBare {path : List String} (target source : Value) :
    Keeps target (mergeBare path target source).target := by
  unfold mergeBare
  split_ifs
  · exact Keeps.refl _
  · split <;> exact Keeps.refl _

theorem keeps_mergeEntries {own : List (String × Value)} {path : List String} {target : Value}
    (hmerge : ∀ property ∈ own, ∀ path target, property.2.isObject = true →
      Keeps target (merge path target property.2).target) :
    Keeps target (mergeEntries path target own).target := by
  induction own generalizing target with
  | nil => exact Keeps.refl _
  | cons entry own ih =>
    obtain ⟨name, value⟩ := entry
    obtain ⟨hvalue, hown⟩ := List.forall_mem_cons.mp hmerge
    have hkeeps := @keeps_property (path ++ [name]) target value name
      (fun held => merge (path ++ [name]) held value) fun v => hvalue _ v
    rw [mergeEntries]
    split
    · exact hkeeps.trans (ih hown)
    · exact hkeeps

theorem keeps_orEmpty (target : Value) : Keeps target target.orEmpty := by
  cases target with
  | undefined => exact keeps_undefined _
  | _ => exact Keeps.refl _

theorem keeps_merge (path : List String) (target source : Value) :
    Keeps target (merge path target source).target := by
  induction source using induct generalizing path target with
  | bare source hbare =>
    cases source with
    | object list own => cases hbare
    | _ => exact (keeps_orEmpty target).trans (keeps_mergeBare _ _)
  | object list own hown =>
    rw [merge]
    split_ifs
    · exact Keeps.refl _
    · exact Keeps.refl _
    · exact (keeps_orEmpty target).trans
        (keeps_mergeEntries fun property hmem path target _ => hown property hmem path target)

/-! ## What is filled -/

theorem read_set {target : Value} {name name' : String} {value : Value} (hne : name' ≠ name) :
    read (target.set name value) name' = read target name' := by
  cases target with
  | object list own => rw [Value.set, read, read, Assoc.lookup_gather, if_neg hne]
  | _ => rfl

theorem read_assign {target : Value} {name name' : String} {value : Option Value} (hne : name' ≠ name) :
    read (assign target name value) name' = read target name' := by
  cases value with
  | none => rfl
  | some value => exact read_set hne

theorem get_assign_ne {target : Value} {name name' : String} {value : Option Value} (hne : name' ≠ name) :
    (assign target name value).get name' = target.get name' := by
  cases value with
  | none => rfl
  | some value =>
    cases target with
    | object list own => exact (get_set list own name name' value).trans (if_neg hne)
    | _ => rfl

theorem property_congr {path : List String} {target target' value : Value} {name : String} {merge : Value → Outcome}
    (h : read target name = read target' name) :
    property path target name value merge = property path target' name value merge := by
  unfold property
  rw [h]

theorem get_assign_property {path : List String} {target value : Value} {name : String} {merge : Value → Outcome} :
    (assign target name (property path target name value merge).1).get name =
      (property path target name value merge).1.getD (target.get name) := by
  cases hset : (property path target name value merge).1 with
  | none => rfl
  | some set =>
    cases target with
    | object list own => exact (get_set list own name name set).trans (if_pos rfl)
    | _ =>
      unfold property at hset
      split_ifs at hset
      cases hset

section
variable {path : List String} {own : List (String × Value)} (hnodup : (own.map Prod.fst).Nodup)
include hnodup

theorem mergeEntries_stop {target : Value} : (mergeEntries path target own).stop = none ↔ ∀ entry ∈ own,
    (property (path ++ [entry.1]) target entry.1 entry.2 fun held =>
      merge (path ++ [entry.1]) held entry.2).2 = none := by
  induction own generalizing target with
  | nil => exact iff_of_true rfl fun _ h => absurd h List.not_mem_nil
  | cons entry own ih =>
    obtain ⟨name, value⟩ := entry
    rw [List.map_cons, List.nodup_cons] at hnodup
    rw [List.forall_mem_cons, mergeEntries]
    split
    · rename_i hstop
      rw [ih hnodup.2, and_iff_right hstop]
      -- the names are apart, so what is set under one is read under no other
      refine forall₂_congr fun entry hentry => ?_
      have hmem : entry.1 ∈ own.map Prod.fst := List.mem_map_of_mem hentry
      have hne : entry.1 ≠ name := fun heq => hnodup.1 (heq ▸ hmem)
      rw [property_congr (read_assign hne)]
    · rename_i stop hstop
      exact iff_of_false (fun h => by cases h) fun h => by cases hstop.symm.trans h.1

theorem get_mergeEntries {target : Value} (h : (mergeEntries path target own).stop = none) (name : String) :
    (mergeEntries path target own).target.get name = ((own.lookup name).bind fun value =>
      (property (path ++ [name]) target name value fun held => merge (path ++ [name]) held value).1).getD
        (target.get name) := by
  induction own generalizing target with
  | nil => rfl
  | cons entry own ih =>
    obtain ⟨key, value⟩ := entry
    rw [List.map_cons, List.nodup_cons] at hnodup
    rw [mergeEntries] at h ⊢
    split at h
    · rw [ih hnodup.2 h]
      by_cases hname : name = key
      · subst hname
        have hlookup : own.lookup name = none := Assoc.lookup_eq_none_iff.mpr hnodup.1
        rw [hlookup, List.lookup_cons_self, Option.bind_none, Option.bind_some]
        exact get_assign_property
      · rw [Assoc.lookup_cons_of_ne hname, get_assign_ne hname]
        refine congrArg (·.getD (target.get name)) (Option.bind_congr fun other _ => ?_)
        rw [property_congr (read_assign hname)]
    · cases h

end

theorem merge_lists {path : List String} {own own' : List (String × Value)} :
    merge path (.object true own) (.object true own') = ⟨.object true own, none⟩ := by
  rw [merge]
  rfl

theorem merge_objects {path : List String} {list list' : Bool} {own own' : List (String × Value)}
    (h : ¬(list = true ∧ list' = true)) :
    merge path (.object list own) (.object list' own') = mergeEntries path (.object list own) own' := by
  have htypeof : ¬(Value.object list own).orEmpty.typeof ≠ "object" := not_not.mpr rfl
  rw [merge, if_neg htypeof]
  exact if_neg h

theorem at_cons (value : Value) (name : String) (path : List String) :
    value.at (name :: path) = (value.get name).at path := rfl

theorem at_bare {value : Value} (h : value.isObject = false) {path : List String} (hpath : path ≠ []) :
    value.at path = .undefined := by
  cases path with
  | nil => exact absurd rfl hpath
  | cons name path => rw [at_cons, get_bare h, undefined_at]

theorem get_merge {path : List String} {list list' : Bool} {own own' : List (String × Value)}
    (hnodup : (own'.map Prod.fst).Nodup) (hlists : ¬(list = true ∧ list' = true))
    (hstop : (merge path (.object list own) (.object list' own')).stop = none) (name : String) :
    own'.lookup name = none ∧ (merge path (.object list own) (.object list' own')).target.get name =
        (Value.object list own).get name ∨
      ∃ value result, own'.lookup name = some value ∧
        Became (.object list own) name (fun held => merge (path ++ [name]) held value) value result ∧
        result.2 = none ∧ (merge path (.object list own) (.object list' own')).target.get name =
          result.1.getD ((Value.object list own).get name) := by
  rw [merge_objects hlists] at hstop ⊢
  have hget := get_mergeEntries hnodup hstop name
  cases hlookup : own'.lookup name with
  | none =>
    rw [hlookup] at hget
    exact .inl ⟨rfl, hget⟩
  | some value =>
    rw [hlookup] at hget
    exact .inr ⟨value, _, rfl, became (path ++ [name]) (.object list own) name value _,
      (mergeEntries_stop hnodup).mp hstop (name, value) (Assoc.mem_of_lookup hlookup), hget⟩

theorem Clear.get {target source : Value} (h : Clear target source)
    (hlists : ¬(target.isList = true ∧ source.isList = true)) (name : String) :
    Clear (target.get name) (source.get name) where
  objects path hthrough := h.objects (name :: path) (not_or.mpr ⟨hlists, hthrough⟩)
  names path name' list own hthrough := h.names (name :: path) name' list own (not_or.mpr ⟨hlists, hthrough⟩)

theorem not_through_bare {target source : Value} {path : List String}
    (h : target.isObject = false ∨ source.isObject = false) : ¬Through target source path := by
  cases path with
  | nil => exact id
  | cons name path =>
    rintro (⟨htarget, hsource⟩ | hthrough)
    · cases target with
      | object =>
        cases source with
        | object => rcases h with h | h <;> cases h
        | _ => cases hsource
      | _ => cases htarget
    · rcases h with h | h
      · exact not_through_left (get_bare h name ▸ hthrough)
      · exact not_through_right (get_bare h name ▸ hthrough)

theorem reached_mergeEntries {path : List String} {own : List (String × Value)}
    (hnodup : (own.map Prod.fst).Nodup) (target : Value) (name : String) :
    (mergeEntries path target own).target.get name = target.get name ∨
      ∃ value, own.lookup name = some value ∧ (mergeEntries path target own).target.get name =
        (property (path ++ [name]) target name value fun held => merge (path ++ [name]) held value).1.getD
          (target.get name) := by
  induction own generalizing target with
  | nil => exact .inl rfl
  | cons entry own ih =>
    obtain ⟨key, value⟩ := entry
    rw [List.map_cons, List.nodup_cons] at hnodup
    by_cases hname : name = key
    · subst hname
      refine .inr ⟨value, List.lookup_cons_self, ?_⟩
      have hlookup : own.lookup name = none := Assoc.lookup_eq_none_iff.mpr hnodup.1
      rw [mergeEntries]
      split
      · obtain hkept | ⟨other, hother, -⟩ := ih hnodup.2 (assign target name
            (property (path ++ [name]) target name value fun held => merge (path ++ [name]) held value).1)
        · exact hkept.trans get_assign_property
        · cases hlookup.symm.trans hother
      · exact get_assign_property
    · rw [Assoc.lookup_cons_of_ne hname, mergeEntries]
      split
      · obtain hkept | ⟨other, hother, hbecame⟩ := ih hnodup.2 (assign target key
            (property (path ++ [key]) target key value fun held => merge (path ++ [key]) held value).1)
        · exact .inl (hkept.trans (get_assign_ne hname))
        · rw [property_congr (read_assign hname), get_assign_ne hname] at hbecame
          exact .inr ⟨other, hother, hbecame⟩
      · exact .inl (get_assign_ne hname)

theorem through_merge {path place : List String} {target source : Value} (hdistinct : source.Distinct)
    (hthrough : Through target source place) : (merge path target source).target.at place = target.at place := by
  induction source using induct generalizing path target place with
  | bare source hbare => exact absurd hthrough (not_through_bare (.inr hbare))
  | object list' own' hown =>
    cases target with
    | object list own =>
      by_cases hlists : list = true ∧ list' = true
      · obtain ⟨rfl, rfl⟩ := hlists
        rw [merge_lists]
      cases place with
      | nil => exact absurd hthrough id
      | cons name place =>
        have hbelow := hthrough.resolve_left hlists
        cases hdistinct with
        | bare hbare => cases hbare
        | object hnodup hvalues =>
          rw [merge_objects hlists]
          obtain hget | ⟨value, hlookup, hget⟩ := reached_mergeEntries hnodup (.object list own) name
          · rw [at_cons, hget, at_cons]
          have hsource : (Value.object list' own').get name = value := by rw [Value.get, hlookup]; rfl
          have hmem := Assoc.mem_of_lookup hlookup
          have hbecame := became (path ++ [name]) (.object list own) name value
            fun held => merge (path ++ [name]) held value
          rw [hsource] at hbelow
          rw [at_cons, at_cons, hget]
          generalize property _ _ _ _ _ = result at hbecame ⊢
          cases hbecame with
          | nothing => exact absurd hbelow not_through_right
          | filled hvalue hgap =>
            rw [hgap] at hbelow
            exact absurd hbelow not_through_left
          | merged hdefined => exact hown _ hmem (hvalues _ hmem) hbelow
          | conflict hvalue hdefined => exact absurd hbelow (not_through_bare (.inr hvalue))
          | foreign hvalue htarget hgap =>
            rw [hgap] at hbelow
            exact absurd hbelow not_through_left
          | raised htarget => cases htarget
    | _ => exact absurd hthrough (not_through_bare (.inl rfl))

def Fills (path : List String) (target source : Value) : Prop :=
  (merge path target source).stop = none ∧ ∀ place, ¬Through target source place →
    target.at place = .undefined → (merge path target source).target.at place = source.at place

theorem fills_lists {path : List String} {own own' : List (String × Value)} :
    Fills path (.object true own) (.object true own') := by
  rw [Fills, merge_lists]
  refine ⟨rfl, fun place hthrough hgap => ?_⟩
  cases place with
  | nil => cases hgap
  | cons name place => exact absurd (.inl ⟨rfl, rfl⟩) hthrough

section
variable {path : List String} {list list' : Bool} {own own' : List (String × Value)}

theorem get_of_lookup {name : String} {value : Value} (h : own.lookup name = some value) :
    (Value.object list own).get name = value := by
  rw [Value.get, h]
  rfl

theorem not_through_name (hlists : ¬(list = true ∧ list' = true)) (name : String) :
    ¬Through (.object list own) (.object list' own') [name] := fun h => h.elim hlists id

variable (hclear : Clear (.object list own) (.object list' own')) (hlists : ¬(list = true ∧ list' = true))
include hclear hlists

theorem Clear.not_inherits {name : String} {value : Value} (hlookup : own'.lookup name = some value)
    (hvalue : value.defined = true) (hget : (Value.object list own).get name = .undefined) :
    ¬inherits list name = true := by
  intro hinherits
  have hsource : (Value.object list' own').get name = value := get_of_lookup hlookup
  have hheld := hclear.names [] name list own (not_through_name hlists name) rfl
    ((congrArg Value.defined hsource).trans hvalue) hinherits
  rw [List.nil_append, at_cons, hget] at hheld
  cases hheld

theorem Clear.below {name : String} {value : Value} (hlookup : own'.lookup name = some value)
    (hvalue : value.isObject = true) (hget : ((Value.object list own).get name).defined = true) :
    Clear ((Value.object list own).get name) value ∧ ((Value.object list own).get name).isObject = true := by
  have hsource : (Value.object list' own').get name = value := get_of_lookup hlookup
  exact ⟨hsource ▸ hclear.get hlists name,
    hclear.objects [name] (not_through_name hlists name) ((congrArg Value.isObject hsource).trans hvalue) hget⟩

variable (hnodup : (own'.map Prod.fst).Nodup)
  (hbelow : ∀ name value, own'.lookup name = some value → value.isObject = true →
    ((Value.object list own).get name).defined = true →
      Fills (path ++ [name]) ((Value.object list own).get name) value)
include hnodup hbelow

theorem stop_below : (merge path (.object list own) (.object list' own')).stop = none := by
  rw [merge_objects hlists]
  refine (mergeEntries_stop hnodup).mpr fun entry hentry => ?_
  obtain ⟨name, value⟩ := entry
  have hlookup := Assoc.lookup_of_mem hnodup hentry
  have hbecame := became (path ++ [name]) (.object list own) name value
    fun held => merge (path ++ [name]) held value
  generalize property _ _ _ _ _ = result at hbecame ⊢
  cases hbecame with
  | nothing | filled | conflict => rfl
  | merged hdefined => exact (hbelow name _ hlookup rfl hdefined).1
  | foreign hvalue htarget hget hinherits =>
    cases htarget
    exact absurd hinherits (hclear.not_inherits hlists hlookup hvalue hget)
  | raised htarget => cases htarget

theorem fills_below : Fills path (.object list own) (.object list' own') := by
  have hstop := stop_below hclear hlists hnodup hbelow
  refine ⟨hstop, fun place hthrough hgap => ?_⟩
  cases place with
  | nil => cases hgap
  | cons name place =>
    have hlater := (not_or.mp hthrough).2
    rw [at_cons] at hgap
    rw [at_cons, at_cons]
    obtain ⟨hlookup, hget⟩ | ⟨value, result, hlookup, hbecame, -, hget⟩ := get_merge hnodup hlists hstop name
    · have hnothing : (Value.object list' own').get name = .undefined := by rw [Value.get, hlookup]; rfl
      rw [hget, hgap, hnothing, undefined_at]
    rw [get_of_lookup hlookup] at hlater ⊢
    rw [hget]
    cases hbecame with
    | nothing => exact hgap.trans (undefined_at place).symm
    | filled hvalue hnothing => rfl
    | merged hdefined => exact (hbelow name _ hlookup rfl hdefined).2 place hlater hgap
    | conflict hvalue hdefined =>
      have hne : place ≠ [] := by
        rintro rfl
        rw [Value.at, List.foldl_nil] at hgap
        rw [hgap] at hdefined
        cases hdefined
      exact hgap.trans (at_bare hvalue hne).symm
    | foreign hvalue htarget hnothing hinherits =>
      cases htarget
      exact absurd hinherits (hclear.not_inherits hlists hlookup hvalue hnothing)
    | raised htarget => cases htarget

end

theorem clear_lists {own own' : List (String × Value)} : Clear (.object true own) (.object true own') where
  objects path hthrough _ _ := by
    cases path with
    | nil => rfl
    | cons name path => exact absurd (.inl ⟨rfl, rfl⟩) hthrough
  names path name _ _ hthrough := by
    cases path with
    | nil => exact absurd (.inl ⟨rfl, rfl⟩) hthrough
    | cons name' path => exact absurd (.inl ⟨rfl, rfl⟩) hthrough

theorem clear_bare {target source : Value} (h : source.isObject = false) : Clear target source where
  objects path _ hobject _ := by
    cases path with
    | nil => cases h.symm.trans hobject
    | cons name path =>
      rw [at_bare h (List.cons_ne_nil _ _)] at hobject
      cases hobject
  names path name _ _ _ _ hdefined _ := by
    rw [at_bare h (List.append_ne_nil_of_right_ne_nil _ (List.cons_ne_nil _ _))] at hdefined
    cases hdefined

theorem clear_undefined (source : Value) : Clear .undefined source where
  objects path _ _ hdefined := by
    rw [undefined_at] at hdefined
    cases hdefined
  names path _ _ _ _ htarget := by
    rw [undefined_at] at htarget
    cases htarget

theorem clear_object {list list' : Bool} {own own' : List (String × Value)} (h : ∀ entry ∈ own',
    (inherits list entry.1 = true → ((Value.object list own).get entry.1).defined = true) ∧
      Clear ((Value.object list own).get entry.1) entry.2) :
    Clear (.object list own) (.object list' own') := by
  have hentry : ∀ name, ((Value.object list' own').get name).defined = true →
      inherits list name = true → ((Value.object list own).get name).defined = true := by
    intro name hdefined hinherits
    cases hlookup : own'.lookup name with
    | none =>
      rw [Value.get, hlookup] at hdefined
      cases hdefined
    | some value => exact (h _ (Assoc.mem_of_lookup hlookup)).1 hinherits
  have hclear : ∀ name, Clear ((Value.object list own).get name) ((Value.object list' own').get name) := by
    intro name
    cases hlookup : own'.lookup name with
    | none => exact clear_bare (by rw [Value.get, hlookup]; rfl)
    | some value =>
      rw [get_of_lookup hlookup]
      exact (h _ (Assoc.mem_of_lookup hlookup)).2
  constructor
  · intro path hthrough hobject hdefined
    cases path with
    | nil => rfl
    | cons name path => exact (hclear name).objects path (not_or.mp hthrough).2 hobject hdefined
  · intro path name list'' own'' hthrough htarget hdefined hinherits
    cases path with
    | nil =>
      cases htarget
      exact hentry name hdefined hinherits
    | cons name' path =>
      exact (hclear name').names path name list'' own'' (not_or.mp hthrough).2 htarget hdefined hinherits

theorem fills_merge {path : List String} {target source : Value} (hdistinct : source.Distinct)
    (htarget : target.isObject = true) (hsource : source.isObject = true) (hclear : Clear target source) :
    Fills path target source := by
  induction source using induct generalizing path target with
  | bare source hbare => cases hbare.symm.trans hsource
  | object list' own' hown =>
    cases target with
    | object list own =>
      by_cases hlists : list = true ∧ list' = true
      · obtain ⟨rfl, rfl⟩ := hlists
        exact fills_lists
      cases hdistinct with
      | bare hbare => cases hbare
      | object hnodup hvalues =>
        refine fills_below hclear hlists hnodup fun name value hlookup hvalue hget => ?_
        have hmem := Assoc.mem_of_lookup hlookup
        obtain ⟨hlater, hobject⟩ := hclear.below hlists hlookup hvalue hget
        exact hown _ hmem (hvalues _ hmem) hobject hvalue hlater
    | _ => cases htarget

/-- Of objects and lists, nothing that the target holds is changed, lists that both hold are left as they
are, and where nothing is in the way no more than what the target does not hold is added. -/
theorem add_fills {list list' : Bool} {own own' : List (String × Value)}
    (hdistinct : (Value.object list' own').Distinct) :
    ((add (.object list own) (.object list' own')).stop ≠ some .prototype →
      Keeps (.object list own) (add (.object list own) (.object list' own')).target) ∧
    (∀ place, Through (.object list own) (.object list' own') place →
      (add (.object list own) (.object list' own')).target.at place = (Value.object list own).at place) ∧
    (Clear (.object list own) (.object list' own') →
      (add (.object list own) (.object list' own')).stop = none ∧
        ∀ place, ¬Through (.object list own) (.object list' own') place →
          (Value.object list own).at place = .undefined →
          (add (.object list own) (.object list' own')).target.at place = (Value.object list' own').at place) :=
  ⟨fun _ => keeps_merge [] _ _, fun _ => through_merge hdistinct,
    fun hclear => fills_merge hdistinct rfl rfl hclear⟩

def list (items : List Value) : Value := .object true (items.zipIdx.map fun (v, i) => (toString i, v))

def request : List (String × Value) :=
  [("input", .object false [("id", .string "a1"), ("tags", list [.string "hot"])]), ("safe", .boolean true)]

def extensions : List (String × Value) :=
  [("input", .object false [("id", .string "b2"), ("tags", list [.string "cold", .string "wet"]), ("size", .null)]),
    ("safe", .null), ("note", .object false [("text", .string "none")])]

theorem distinct_extensions : (Value.object false extensions).Distinct := by
  have htags : (list [.string "cold", .string "wet"]).Distinct := by
    refine .object (by decide) (List.forall_mem_cons.mpr ⟨.bare rfl, ?_⟩)
    exact List.forall_mem_singleton.mpr (.bare rfl)
  have hinput : (Value.object false [("id", .string "b2"), ("tags", list [.string "cold", .string "wet"]),
      ("size", .null)]).Distinct := by
    refine .object (by decide) (List.forall_mem_cons.mpr ⟨.bare rfl, List.forall_mem_cons.mpr ⟨htags, ?_⟩⟩)
    exact List.forall_mem_singleton.mpr (.bare rfl)
  have hnote : (Value.object false [("text", .string "none")]).Distinct :=
    .object (by decide) (List.forall_mem_singleton.mpr (.bare rfl))
  refine .object (by decide) (List.forall_mem_cons.mpr ⟨hinput, List.forall_mem_cons.mpr ⟨.bare rfl, ?_⟩⟩)
  exact List.forall_mem_singleton.mpr hnote

theorem clear_extensions : Clear (.object false request) (.object false extensions) := by
  refine clear_object (List.forall_mem_cons.mpr ⟨⟨fun _ => rfl, ?_⟩, List.forall_mem_cons.mpr
    ⟨⟨fun _ => rfl, clear_bare rfl⟩, List.forall_mem_singleton.mpr ⟨?_, clear_undefined _⟩⟩⟩)
  · refine clear_object (List.forall_mem_cons.mpr ⟨⟨fun _ => rfl, clear_bare rfl⟩, List.forall_mem_cons.mpr
      ⟨⟨fun _ => rfl, clear_lists⟩, List.forall_mem_singleton.mpr ⟨?_, clear_bare rfl⟩⟩⟩)
    exact fun h => absurd h (by decide)
  · exact fun h => absurd h (by decide)

/-- What the message has under a name of the request's is not taken, and a list it has is left. -/
theorem add_fills_request : (add (.object false request) (.object false extensions)).stop = none ∧
    (add (.object false request) (.object false extensions)).target.at ["input", "id"] = .string "a1" ∧
    (add (.object false request) (.object false extensions)).target.at ["input", "tags", "1"] = .undefined ∧
    (add (.object false request) (.object false extensions)).target.at ["input", "size"] = .null := by
  obtain ⟨hkeeps, hthrough, hfills⟩ := @add_fills false false request extensions distinct_extensions
  obtain ⟨hstop, hfilled⟩ := hfills clear_extensions
  have hne : (add (.object false request) (.object false extensions)).stop ≠ some .prototype := by
    rw [hstop]
    intro h
    cases h
  refine ⟨hstop, hkeeps hne ["input", "id"] rfl, hthrough ["input", "tags", "1"] ?_, hfilled _ ?_ rfl⟩
  · exact .inr (.inr (.inl ⟨rfl, rfl⟩))
  · rintro (⟨h, -⟩ | ⟨h, -⟩ | h)
    · cases h
    · cases h
    · exact h

/-- Values of different types under a name, a null, a name that every object has, and lists of different
lengths. -/
theorem add_leaves :
    (add (.object false [("a", .number 1)]) (.object false [("a", .object false [("b", .number 2)])])).stop =
      some (.raised (.sameType ["a"])) ∧
    (add (.object false [("a", .null)]) (.object false [("a", .object false [("b", .number 2)])])).stop =
      some (.raised (.read "b")) ∧
    ((add (.object false []) (.object false [("toString", .number 1)])).stop = none ∧
      (add (.object false []) (.object false [("toString", .number 1)])).target.at ["toString"] = .undefined) ∧
    (add (.object false [("a", list [.number 1])]) (.object false [("a", list [.number 1, .number 2])])).stop =
        none ∧
      (Value.object false [("a", list [.number 1])]).at ["a", "1"] = .undefined ∧
      (Value.object false [("a", list [.number 1, .number 2])]).at ["a", "1"] = .number 2 ∧
      (add (.object false [("a", list [.number 1])])
        (.object false [("a", list [.number 1, .number 2])])).target.at ["a", "1"] = .undefined := by
  refine ⟨rfl, rfl, ⟨rfl, rfl⟩, rfl, rfl, rfl, rfl⟩

end Toa.Generic
