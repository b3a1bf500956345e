import Toa.Lib.Fallible
import Toa.Lib.Words
import Toa.RTD.Takers

/-! Procedures. A method of a route is named by the route's segments and its verb, and a name with the
parameters of a call is addressed as a path. -/

namespace Toa.RPC
open RTD

def SEPARATOR : Char := '.'

def VARIABLE : Char := '_'

def TAIL : String := "__"

def WILDCARD : String := "**"

/-- `NAMEABLE.test` -/
def nameable (s : String) : Bool := s.toList ≠ [] ∧ s.toList.all fun c => c.isAlphanum ∨ c = '-'

/-- `OPAQUE.test`: a segment ends at what divides or ends a path. -/
def single (s : String) : Bool := s.toList.all fun c => c ≠ '/' ∧ c ≠ '?' ∧ c ≠ '#'

/-- `TAILED.test` -/
def tailed (s : String) : Bool := s.toList.all fun c => c ≠ '?' ∧ c ≠ '#'

def verbs : List String := ["GET", "HEAD", "POST", "PUT", "PATCH", "DELETE", "LOCK", "UNLOCK"]

/-! ## Names -/

def component : Segment → Option String
  | .fragment s => if nameable s = true then some s else none
  | .wildcard => some TAIL
  | .star => none
  | .placeholder name =>
    if nameable name = true then some (String.ofList (VARIABLE :: name.toList)) else none

/-- The name of a method on a route, where the route has one. -/
def name (segments : List Segment) (verb : String) : Option String :=
  (segments.mapM component).map fun parts => ".".intercalate (parts ++ [verb])

/-! ## Addresses -/

inductive Error
  | namesNoMethod (method : String)
  | namesNoProcedure (method : String)
  | required (method key : String)
  | path (key : String)
deriving DecidableEq

def Error.message : Error → String
  | .namesNoMethod method => "'" ++ method ++ "' names no method"
  | .namesNoProcedure method => "'" ++ method ++ "' names no procedure"
  | .required method key => "'" ++ method ++ "' requires the parameter '" ++ key ++ "'"
  | .path key => "The parameter '" ++ key ++ "' cannot be a path of its own"

structure Address where
  path : String
  verb : String
  «variables» : List String
deriving DecidableEq

def parameter (part : String) : Option String :=
  if part = TAIL then some WILDCARD
  else match part.toList with
    | '_' :: key => some (String.ofList key)
    | _ => none

def resolve (method : String) (params : String → Option String) (part : String) :
    Except Error (String × Option String) :=
  match parameter part with
  | none => if nameable part = true then .ok (part, none) else .error (.namesNoProcedure method)
  | some key =>
    if part ≠ TAIL ∧ nameable key = false then .error (.namesNoProcedure method)
    else match params key with
      | none => .error (.required method key)
      | some value =>
        if (if part = TAIL then tailed value else single value) = true then .ok (value, some key)
        else .error (.path key)

/-- The path of what is requested: a route is matched with its trailing slash. -/
def path (fragments : List String) : String :=
  if fragments = [] then "/" else "/" ++ "/".intercalate fragments ++ "/"

/-- The `params` are the values as text, and what is absent or null is none. -/
def address (method : String) (params : String → Option String) : Except Error Address :=
  let parts := (method.toList.splitOn SEPARATOR).map String.ofList
  let verb := parts.getLastD ""
  if verb ∈ verbs then do
    let resolved ← parts.dropLast.mapM (resolve method params)
    .ok ⟨path (resolved.map Prod.fst), verb, resolved.filterMap Prod.snd⟩
  else .error (.namesNoMethod method)

/-! ## Paths of fragments -/

theorem fragment_path {fragments : List String} (hfragments : fragments ≠ [])
    (h : ∀ text ∈ fragments, '/' ∉ text.toList) : fragment (path fragments) = fragments := by
  have hlist : (path fragments).toList = [] ++ '/' :: (("/".intercalate fragments).toList ++ '/' :: []) := by
    rw [path, if_neg hfragments, String.toList_append, String.toList_append]
    simp
  have hslash : "/".toList = ['/'] := rfl
  have hinner := Words.splitOn_intercalate hslash hfragments h
  have hsplit : ((path fragments).toList.splitOn '/').map String.ofList = "" :: fragments ++ [""] := by
    rw [hlist, List.splitOn_append_cons_self, List.splitOn_append_cons_self, List.splitOn_nil,
      List.map_append, List.map_append, hinner]
    rfl
  rw [fragment, hsplit]
  simp only [List.getLast?_concat, if_true, List.dropLast_concat, List.drop_one, List.tail_cons]

theorem path_ne {fragments : List String} (hfragments : fragments ≠ []) : path fragments ≠ "/" := by
  intro h
  have hlength := congrArg String.length h
  rw [path, if_neg hfragments] at hlength
  simp at hlength

theorem Fits.free {literals : List String} {asked : List Segment} {fragments : List String}
    (h : Fits literals asked fragments) : ∀ text ∈ fragments, '/' ∉ text.toList := by
  induction h with
  | nil => exact fun _ htext => nomatch htext
  | @cons segment text _ _ hfit _ ih =>
    refine List.forall_mem_cons.mpr ⟨?_, ih⟩
    cases segment with
    | fragment | placeholder => exact hfit.2
    | star | wildcard => exact hfit.elim

theorem reached_path {μ : Type*} {decodeURIComponent : String → Option String} {now : ℤ} {trunk : Node μ}
    {asked : List Segment} {fragments : List String} (h : Fits trunk.literals asked fragments) (verb : String) :
    reached now decodeURIComponent trunk (path fragments) verb = served now trunk asked verb := by
  rw [reached, served]
  by_cases hasked : asked = []
  · subst hasked
    cases h
    rw [matchPath, path, if_pos rfl, if_pos rfl, taker, if_pos rfl]
    rfl
  · have hfragments : fragments ≠ [] := by
      rintro rfl
      exact hasked (List.forall₂_nil_right_iff.mp h)
    have htakers : (trunk.answers decodeURIComponent now fragments [] []).map
        (fun found => (found.node, found.route)) =
          (trunk.takers now asked []).map fun place => (place.node, template place.segments) :=
      Node.answers_takers h (List.Subset.refl _)
    have hnodes := congrArg (List.map Prod.fst) htakers
    rw [List.map_map, List.map_map] at hnodes
    have hhead := congrArg List.head? hnodes
    rw [List.head?_map, List.head?_map] at hhead
    rw [matchPath_eq (path_ne hfragments), fragment_path hfragments (Fits.free h), taker, if_neg hasked]
    have hbind := congrArg (Option.bind · fun node : Node μ => node.properties.methods.lookup verb) hhead
    rw [Option.bind_map, Option.bind_map] at hbind
    exact hbind

/-! ## The path of a name -/

def Plain : Segment → Prop
  | .fragment s => '/' ∉ s.toList
  | .placeholder _ => True
  | _ => False

theorem nameable_iff {s : String} : nameable s = true ↔
    s.toList ≠ [] ∧ ∀ c ∈ s.toList, c.isAlphanum = true ∨ c = '-' := by
  simp [nameable]

theorem nameable_free {s : String} (h : nameable s = true) {c : Char}
    (hc : ¬(c.isAlphanum = true ∨ c = '-')) : c ∉ s.toList :=
  fun hmem => hc ((nameable_iff.mp h).2 c hmem)

theorem component_free {segment : Segment} {part : String} (h : component segment = some part) :
    SEPARATOR ∉ part.toList := by
  have hdot : ¬(SEPARATOR.isAlphanum = true ∨ SEPARATOR = '-') := by decide
  cases segment with
  | fragment s =>
    simp only [component, Option.ite_none_right_eq_some, Option.some.injEq] at h
    exact h.2 ▸ nameable_free h.1 hdot
  | placeholder name =>
    simp only [component, Option.ite_none_right_eq_some, Option.some.injEq] at h
    rw [← h.2, String.toList_ofList, List.mem_cons, not_or]
    exact ⟨by decide, nameable_free h.1 hdot⟩
  | star => cases h
  | wildcard =>
    obtain rfl := Option.some.inj h
    decide

theorem components_free {segments : List Segment} {parts : List String}
    (h : segments.mapM component = some parts) : ∀ part ∈ parts, SEPARATOR ∉ part.toList := by
  induction segments generalizing parts with
  | nil =>
    obtain rfl := Option.some.inj h
    exact fun _ hpart => nomatch hpart
  | cons segment segments ih =>
    obtain ⟨part, rest, hpart, hmapped, rfl⟩ := Fallible.mapM_cons_some h
    exact List.forall_mem_cons.mpr ⟨component_free hpart, ih hmapped⟩

theorem verb_free {verb : String} (h : verb ∈ verbs) : SEPARATOR ∉ verb.toList := by
  have hall : ∀ verb ∈ verbs, SEPARATOR ∉ verb.toList := by decide
  exact hall verb h

theorem parameter_literal {s : String} (h : nameable s = true) : parameter s = none := by
  have hmark : '_' ∉ s.toList := nameable_free h (by decide)
  rw [parameter, if_neg fun htail => hmark (by rw [htail]; decide)]
  split
  · rename_i key hkey
    exact absurd (hkey ▸ List.mem_cons_self ..) hmark
  · rfl

theorem placeholder_ne_tail {name : String} (h : nameable name = true) :
    String.ofList (VARIABLE :: name.toList) ≠ TAIL := by
  intro heq
  have hlist : VARIABLE :: name.toList = ['_', '_'] := by
    rw [← String.toList_ofList (l := VARIABLE :: name.toList), heq]
    rfl
  have hmark : '_' ∈ name.toList := by
    rw [(List.cons.inj hlist).2]
    exact List.mem_singleton_self _
  exact nameable_free h (by decide) hmark

theorem parameter_placeholder {name : String} (h : nameable name = true) :
    parameter (String.ofList (VARIABLE :: name.toList)) = some name := by
  rw [parameter, if_neg (placeholder_ne_tail h), String.toList_ofList]
  exact congrArg some String.ofList_toList

def Given (params : String → Option String) (accepts : String → Prop) (segments : List Segment) : Prop :=
  ∀ key, .placeholder key ∈ segments → ∃ value, params key = some value ∧ single value = true ∧ accepts value

section
variable {params : String → Option String} {accepts : String → Prop} (method : String)

theorem resolve_literal {s : String} (h : nameable s = true) : resolve method params s = .ok (s, none) := by
  simp only [resolve, parameter_literal h, h, if_true]

theorem resolve_placeholder {name : String} (h : nameable name = true) :
    resolve method params (String.ofList (VARIABLE :: name.toList)) =
      match params name with
      | none => .error (.required method name)
      | some value => if single value = true then .ok (value, some name) else .error (.path name) := by
  simp only [resolve, parameter_placeholder h, h, Bool.true_eq_false, and_false, if_false, placeholder_ne_tail h]

theorem resolve_tail : resolve method params TAIL =
    match params WILDCARD with
    | none => .error (.required method WILDCARD)
    | some value => if tailed value = true then .ok (value, some WILDCARD) else .error (.path WILDCARD) := by
  simp only [resolve, parameter, if_true, ne_eq, not_true_eq_false, false_and, if_false]

theorem resolve_component {segment : Segment} {part : String} (hpart : component segment = some part)
    (hplain : Plain segment) (h : Given params accepts [segment]) :
    ∃ resolved, resolve method params part = .ok resolved ∧
      (∀ s, segment = .fragment s → resolved.1 = s) ∧
      (∀ key, segment = .placeholder key → single resolved.1 = true ∧ accepts resolved.1) := by
  cases segment with
  | fragment s =>
    simp only [component, Option.ite_none_right_eq_some, Option.some.injEq] at hpart
    obtain ⟨hnameable, rfl⟩ := hpart
    exact ⟨(s, none), resolve_literal method hnameable, fun _ heq => Segment.fragment.inj heq, by nofun⟩
  | placeholder name =>
    simp only [component, Option.ite_none_right_eq_some, Option.some.injEq] at hpart
    obtain ⟨hnameable, rfl⟩ := hpart
    obtain ⟨value, hvalue, hsingle, haccepts⟩ := h name (List.mem_singleton_self _)
    refine ⟨(value, some name), ?_, by nofun, fun _ _ => ⟨hsingle, haccepts⟩⟩
    simp only [resolve_placeholder method hnameable, hvalue, hsingle, if_true]
  | star | wildcard => exact hplain.elim

theorem resolve_components {literals : List String} {segments : List Segment} {parts : List String}
    (hparts : segments.mapM component = some parts) (hplain : ∀ segment ∈ segments, Plain segment)
    (h : Given params (· ∉ literals) segments) :
    ∃ resolved, parts.mapM (resolve method params) = .ok resolved ∧
      Fits literals segments (resolved.map Prod.fst) := by
  induction segments generalizing parts with
  | nil =>
    obtain rfl := Option.some.inj hparts
    exact ⟨[], rfl, .nil⟩
  | cons segment segments ih =>
    obtain ⟨part, rest, hpart, hmapped, rfl⟩ := Fallible.mapM_cons_some hparts
    have hhere := hplain segment (List.mem_cons_self ..)
    obtain ⟨resolved, hresolved, hfragment, hvalue⟩ := resolve_component method hpart hhere
      fun key hkey => h key (List.mem_singleton.mp hkey ▸ List.mem_cons_self ..)
    obtain ⟨others, hothers, hfits⟩ := ih hmapped (fun other hother => hplain other (List.mem_cons_of_mem _ hother))
      fun key hkey => h key (List.mem_cons_of_mem _ hkey)
    refine ⟨resolved :: others, ?_, .cons ?_ hfits⟩
    · rw [List.mapM_cons, hresolved, hothers]
      rfl
    · cases segment with
      | fragment s =>
        have hs : resolved.1 = s := hfragment s rfl
        exact ⟨hs, hs ▸ hhere⟩
      | placeholder key =>
        obtain ⟨hsingle, hliteral⟩ := hvalue key rfl
        refine ⟨hliteral, fun hslash => ?_⟩
        have hall := List.all_eq_true.mp hsingle '/' hslash
        exact absurd hall (by decide)
      | star | wildcard => exact hhere.elim

theorem name_verb {segments : List Segment} {verb other named : String} (h : name segments verb = some named)
    (hother : name segments other = some named) : verb = other := by
  obtain ⟨parts, hparts, rfl⟩ := Option.map_eq_some_iff.mp h
  obtain ⟨parts', hparts', heq⟩ := Option.map_eq_some_iff.mp hother
  obtain rfl := Option.some.inj (hparts.symm.trans hparts')
  have hlists := congrArg String.toList heq
  rw [String.toList_intercalate, String.toList_intercalate, List.map_append, List.map_append] at hlists
  exact String.toList_inj.mp (Words.intercalate_concat_inj hlists).symm

theorem parts_name {segments : List Segment} {parts : List String} {verb : String}
    (hparts : segments.mapM component = some parts) (hverb : verb ∈ verbs) :
    ((".".intercalate (parts ++ [verb])).toList.splitOn SEPARATOR).map String.ofList = parts ++ [verb] := by
  have hdot : ".".toList = [SEPARATOR] := rfl
  refine Words.splitOn_intercalate hdot (List.concat_ne_nil verb parts) fun part hpart => ?_
  rcases List.mem_append.mp hpart with hpart | hpart
  · exact components_free hparts part hpart
  · exact List.mem_singleton.mp hpart ▸ verb_free hverb

theorem address_eq {segments : List Segment} {parts : List String} {verb : String}
    (hparts : segments.mapM component = some parts) (hverb : verb ∈ verbs) :
    address (".".intercalate (parts ++ [verb])) params =
      (parts.mapM (resolve (".".intercalate (parts ++ [verb])) params)).map fun resolved =>
        ⟨path (resolved.map Prod.fst), verb, resolved.filterMap Prod.snd⟩ := by
  simp only [address, parts_name hparts hverb, List.getLastD_concat, if_pos hverb, List.dropLast_concat]
  cases parts.mapM (resolve (".".intercalate (parts ++ [verb])) params) <;> rfl

theorem address_name {literals : List String} {segments : List Segment} {verb named : String}
    (hname : name segments verb = some named) (hverb : verb ∈ verbs)
    (hplain : ∀ segment ∈ segments, Plain segment) (h : Given params (· ∉ literals) segments) :
    ∃ fragments keys, address named params = .ok ⟨path fragments, verb, keys⟩ ∧
      Fits literals segments fragments := by
  obtain ⟨parts, hparts, rfl⟩ := Option.map_eq_some_iff.mp hname
  obtain ⟨resolved, hresolved, hfits⟩ :=
    resolve_components (".".intercalate (parts ++ [verb])) hparts hplain h
  refine ⟨resolved.map Prod.fst, resolved.filterMap Prod.snd, ?_, hfits⟩
  rw [address_eq hparts hverb, hresolved]
  rfl

end

end Toa.RPC
