import Toa.Lib.Fallible
import Toa.Lib.Uri
import Toa.RPC.Names
import Toa.RTD.Live

/-! The request a procedure call is forked to. Its path is the one the name was addressed as, made the
path of a URL, and what it is matched with is told against the template the name is of. -/

namespace Toa.RPC
open RTD

universe u
variable {μ : Type u}

/-- What is matched at the URL of a path. The path is not escaped on its way into the URL, and a segment
of the URL is read as a component. -/
def forked (authority : List Char → Option String) (now : ℤ) (trunk : Node μ) (path : String) :
    Option (Match μ) :=
  (Uri.pathname authority path).bind (matchPath Uri.decodeURIComponent now trunk)

/-! ## What a call gives -/

section
variable (params : String → Option String)

def Segment.value : Segment → String
  | .fragment s => s
  | .placeholder name => (params name).getD ""
  | .wildcard => (params WILDCARD).getD ""
  | .star => ""

def Segment.key : Segment → Option String
  | .fragment _ | .star => none
  | .placeholder name => some name
  | .wildcard => some WILDCARD

/-- `variables` -/
def «variables» (segments : List Segment) : List String := segments.filterMap Segment.key

def Segment.given : Segment → Option Parameter
  | .fragment _ => none
  | .placeholder name => (params name).map (⟨name, ·⟩)
  | .wildcard => (params WILDCARD).map (⟨WILDCARD, ·⟩)
  | .star => none

def given (segments : List Segment) : List Parameter := segments.filterMap (Segment.given params)

def between (text : String) : List String := (text.toList.splitOn '/').map String.ofList

def texts (segments : List Segment) : List String :=
  segments.flatMap fun segment => between (Segment.value params segment)

end

def written (text : String) : String := String.ofList (Uri.encode text.toList)

/-- A text that a URL keeps: it stays at its place, and what it is written as is read as it. -/
structure Kept (text : String) : Prop where
  placed : Uri.Placed text.toList
  read : '%' ∉ text.toList ∨
    Uri.decodeURIComponent text = none ∧ ∀ c ∈ text.toList, Uri.inPath c = false

theorem decode_written {text : String} (h : Kept text) :
    decode Uri.decodeURIComponent (some (written text)) = text := by
  rcases h.read with hfree | ⟨hnone, hplain⟩
  · have hread := Uri.decodeURIComponent_encode hfree
    rw [String.ofList_toList] at hread
    simp only [decode, Option.getD_some, written, hread]
  · have hself : written text = text := by
      rw [written, Uri.encode_eq_self hplain, String.ofList_toList]
    simp only [decode, Option.getD_some, hself, hnone, Option.getD_none]

theorem between_free {text : String} (h : '/' ∉ text.toList) : between text = [text] := by
  rw [between, List.splitOn_eq_singleton h, List.map_singleton, String.ofList_toList]

theorem between_ne_nil (text : String) : between text ≠ [] :=
  mt List.map_eq_nil_iff.mp (List.splitOn_ne_nil _ _)

theorem free_of_between {text part : String} (h : part ∈ between text) : '/' ∉ part.toList := by
  obtain ⟨l, hl, rfl⟩ := List.mem_map.mp h
  rw [String.toList_ofList]
  exact Words.not_mem_of_mem_splitOn hl

theorem toList_ofList_map (lists : List (List Char)) : (lists.map String.ofList).map String.toList = lists := by
  rw [List.map_map]
  exact (List.map_congr_left fun l _ => String.toList_ofList).trans (List.map_id _)

theorem intercalate_between (text : String) : "/".intercalate (between text) = text := by
  have hslash : "/".toList = ['/'] := rfl
  rw [← String.toList_inj, String.toList_intercalate, hslash, between, toList_ofList_map,
    List.intercalate_splitOn]

/-! ## The path of a call -/

theorem path_eq (fragments : List String) :
    path fragments = String.ofList ('/' :: (fragments.map String.toList).flatMap (· ++ ['/'])) := by
  rw [path]
  split_ifs with hnil
  · rw [hnil]
    rfl
  · have hslash : "/".toList = ['/'] := rfl
    rw [← String.toList_inj, String.toList_append, String.toList_append, String.toList_intercalate, hslash,
      String.toList_ofList, List.append_assoc,
      Words.intercalate_append_sep (mt List.map_eq_nil_iff.mp hnil)]
    rfl

theorem pathname_path (authority : List Char → Option String) {segments : List Segment}
    {params : String → Option String} (h : ∀ text ∈ texts params segments, Kept text)
    (hfirst : (texts params segments).head? ≠ some "") :
    Uri.pathname authority (path (segments.map (Segment.value params))) =
      some (path ((texts params segments).map written)) := by
  have hparts : (((segments.map (Segment.value params)).map String.toList).flatMap (·.splitOn '/')).map
      String.ofList = texts params segments := by
    rw [List.map_map, List.flatMap_map, List.map_flatMap]
    rfl
  have hlists : ((segments.map (Segment.value params)).map String.toList).flatMap (·.splitOn '/') =
      (texts params segments).map String.toList := by
    rw [← hparts, toList_ofList_map]
  have hwritten : ((texts params segments).map written).map String.toList =
      ((texts params segments).map String.toList).map Uri.encode := by
    rw [List.map_map, List.map_map]
    exact List.map_congr_left fun text _ => String.toList_ofList
  rw [path_eq, path_eq, Uri.pathname_placed, hlists, hwritten]
  · rw [hlists]
    exact List.forall_mem_map.mpr fun text htext => (h text htext).placed
  · rw [hlists, List.head?_map]
    intro hnil
    obtain ⟨text, htext, hempty⟩ := Option.map_eq_some_iff.mp hnil
    exact hfirst (htext.trans (congrArg some (String.toList_eq_nil_iff.mp hempty)))

/-! ## What a call gives its template -/

def Supplied (params : String → Option String) : Segment → Prop
  | .fragment s => nameable s = true
  | .placeholder name => ∃ value, params name = some value ∧ single value = true
  | .wildcard => ∃ value, params WILDCARD = some value ∧ tailed value = true
  | .star => False

theorem nameable_char {c : Char} (h : c.isAlphanum = true ∨ c = '-') :
    Uri.inPath c = false ∧ Uri.dropped c = false ∧ Uri.isSlash c = false ∧ c.toLower ≠ '.' ∧
      c.toLower ≠ '%' ∧ c ≠ '%' := by
  have hrange : c.toNat = 45 ∨ 48 ≤ c.toNat ∧ c.toNat ≤ 57 ∨ 65 ≤ c.toNat ∧ c.toNat ≤ 90 ∨
      97 ≤ c.toNat ∧ c.toNat ≤ 122 := by
    rcases h with h | rfl
    · rcases Bool.or_eq_true_iff.mp h with hletter | hdigit
      · rcases Bool.or_eq_true_iff.mp hletter with hupper | hlower
        · exact .inr (.inr (.inl (of_decide_eq_true hupper)))
        · obtain ⟨hfrom, hto⟩ := Bool.and_eq_true_iff.mp hlower
          exact .inr (.inr (.inr ⟨of_decide_eq_true hfrom, of_decide_eq_true hto⟩))
      · exact .inr (.inl (Char.isDigit_iff_toNat.mp hdigit))
    · exact .inl rfl
  have hall : ∀ n < 128, n = 45 ∨ 48 ≤ n ∧ n ≤ 57 ∨ 65 ≤ n ∧ n ≤ 90 ∨ 97 ≤ n ∧ n ≤ 122 →
      Uri.inPath (Char.ofNat n) = false ∧ Uri.dropped (Char.ofNat n) = false ∧
        Uri.isSlash (Char.ofNat n) = false ∧ (Char.ofNat n).toLower ≠ '.' ∧
          (Char.ofNat n).toLower ≠ '%' ∧ Char.ofNat n ≠ '%' := by
    decide
  have hthis := hall c.toNat (by omega) hrange
  rwa [Char.ofNat_toNat] at hthis

theorem nodots {text : List Char} (h : ∀ c ∈ text, c.toLower ≠ '.' ∧ c.toLower ≠ '%') :
    Uri.twoDots text = false ∧ Uri.oneDot text = false := by
  cases text with
  | nil => exact ⟨rfl, rfl⟩
  | cons c text =>
    obtain ⟨hdot, hpercent⟩ := h c List.mem_cons_self
    have hne {s : String} (hs : s.toList.head? = some '.' ∨ s.toList.head? = some '%') :
        String.ofList ((c :: text).map Char.toLower) ≠ s := by
      rintro rfl
      rw [String.toList_ofList, List.map_cons, List.head?_cons] at hs
      exact hs.elim (fun heq => hdot (Option.some.inj heq)) fun heq => hpercent (Option.some.inj heq)
    refine ⟨?_, ?_⟩
    · rw [Uri.twoDots, List.contains_eq_mem, decide_eq_false_iff_not, List.mem_cons, List.mem_cons,
        List.mem_cons, List.mem_singleton]
      rintro (heq | heq | heq | heq)
      · exact hne (.inl rfl) heq
      · exact hne (.inl rfl) heq
      · exact hne (.inr rfl) heq
      · exact hne (.inr rfl) heq
    · rw [Uri.oneDot, List.contains_eq_mem, decide_eq_false_iff_not, List.mem_cons, List.mem_singleton]
      rintro (heq | heq)
      · exact hne (.inl rfl) heq
      · exact hne (.inr rfl) heq

theorem kept_nameable {s : String} (h : nameable s = true) : Kept s ∧ written s = s := by
  have hchars := fun c hc => nameable_char ((nameable_iff.mp h).2 c hc)
  have hself : Uri.encode s.toList = s.toList := Uri.encode_eq_self fun c hc => (hchars c hc).1
  refine ⟨⟨⟨fun c hc => ⟨(hchars c hc).2.1, (hchars c hc).2.2.1⟩, ?_⟩, .inl fun hmem => ?_⟩, ?_⟩
  · rw [hself]
    exact nodots fun c hc => ⟨(hchars c hc).2.2.2.1, (hchars c hc).2.2.2.2.1⟩
  · exact (hchars _ hmem).2.2.2.2.2 rfl
  · rw [written, hself, String.ofList_toList]

theorem given_iff {ε : Type*} {value : Option String} {key : String} {missing divides : ε}
    {accepts : String → Bool} {resolved : String × Option String} :
    (match value with
      | none => Except.error missing
      | some value => if accepts value = true then .ok (value, some key) else .error divides) = .ok resolved ↔
        (∃ text, value = some text ∧ accepts text = true) ∧ resolved = (value.getD "", some key) := by
  cases value with
  | none => simp
  | some value =>
    simp only [Option.some.injEq, exists_eq_left', Option.getD_some]
    split_ifs with haccepts
    · rw [Except.ok.injEq]
      exact ⟨fun h => ⟨haccepts, h.symm⟩, fun h => h.2.symm⟩
    · simp [haccepts]

section
variable {params : String → Option String} {segment : Segment} {segments : List Segment}

theorem resolve_iff {method part : String} {resolved : String × Option String}
    (hpart : component segment = some part) : resolve method params part = .ok resolved ↔
      Supplied params segment ∧ resolved = (Segment.value params segment, Segment.key segment) := by
  cases segment with
  | fragment s =>
    simp only [component, Option.ite_none_right_eq_some, Option.some.injEq] at hpart
    obtain ⟨hnameable, rfl⟩ := hpart
    rw [resolve_literal method hnameable, Except.ok.injEq]
    exact ⟨fun h => ⟨hnameable, h.symm⟩, fun h => h.2.symm⟩
  | placeholder name =>
    simp only [component, Option.ite_none_right_eq_some, Option.some.injEq] at hpart
    obtain ⟨hnameable, rfl⟩ := hpart
    rw [resolve_placeholder method hnameable, Supplied, Segment.value, Segment.key]
    exact given_iff
  | wildcard =>
    obtain rfl := Option.some.inj hpart
    rw [resolve_tail, Supplied, Segment.value, Segment.key]
    exact given_iff
  | star => cases hpart

theorem resolve_components_iff {method : String} {parts : List String}
    {resolved : List (String × Option String)} (hparts : segments.mapM component = some parts) :
    parts.mapM (resolve method params) = .ok resolved ↔ (∀ segment ∈ segments, Supplied params segment) ∧
      resolved = segments.map fun segment => (Segment.value params segment, Segment.key segment) := by
  induction segments generalizing parts resolved with
  | nil =>
    obtain rfl := Option.some.inj hparts
    refine ⟨fun h => ?_, fun h => ?_⟩
    · cases h
      exact ⟨List.forall_mem_nil _, rfl⟩
    · rw [h.2]
      rfl
  | cons segment segments ih =>
    obtain ⟨part, rest, hpart, hmapped, rfl⟩ := Fallible.mapM_cons_some hparts
    rw [List.mapM_cons, List.forall_mem_cons, List.map_cons]
    constructor
    · intro h
      obtain ⟨first, hone, hmore⟩ := Fallible.bind_ok h
      obtain ⟨others, hothers, heq⟩ := Fallible.bind_ok hmore
      cases heq
      obtain ⟨hsupplied, rfl⟩ := (resolve_iff hpart).mp hone
      obtain ⟨hall, rfl⟩ := (ih hmapped).mp hothers
      exact ⟨⟨hsupplied, hall⟩, rfl⟩
    · rintro ⟨⟨hsupplied, hall⟩, rfl⟩
      rw [(resolve_iff hpart).mpr ⟨hsupplied, rfl⟩, (ih hmapped).mpr ⟨hall, rfl⟩]
      rfl

theorem address_iff {verb named : String} {a : Address} (hname : name segments verb = some named)
    (hverb : verb ∈ verbs) : address named params = .ok a ↔ (∀ segment ∈ segments, Supplied params segment) ∧
      a = ⟨path (segments.map (Segment.value params)), verb, «variables» segments⟩ := by
  obtain ⟨parts, hparts, rfl⟩ := Option.map_eq_some_iff.mp hname
  have hpath (resolved : List (String × Option String))
      (h : resolved = segments.map fun segment => (Segment.value params segment, Segment.key segment)) :
      (⟨path (resolved.map Prod.fst), verb, resolved.filterMap Prod.snd⟩ : Address) =
        ⟨path (segments.map (Segment.value params)), verb, «variables» segments⟩ := by
    rw [h, List.map_map, List.filterMap_map]
    rfl
  rw [address_eq hparts hverb]
  constructor
  · intro h
    cases hresolved : parts.mapM (resolve (".".intercalate (parts ++ [verb])) params) with
    | error reason =>
      rw [hresolved] at h
      cases h
    | ok resolved =>
      rw [hresolved] at h
      obtain ⟨hall, heq⟩ := (resolve_components_iff hparts).mp hresolved
      exact ⟨hall, (Except.ok.inj h).symm.trans (hpath resolved heq)⟩
  · rintro ⟨hall, rfl⟩
    rw [(resolve_components_iff hparts).mpr ⟨hall, rfl⟩]
    exact congrArg Except.ok (hpath _ rfl)

/-! ## What the path gives it back -/

theorem texts_cons : texts params (segment :: segments) =
    between (Segment.value params segment) ++ texts params segments := List.flatMap_cons

theorem single_free {value : String} (h : single value = true) : '/' ∉ value.toList := by
  intro hslash
  have hall := List.all_eq_true.mp h '/' hslash
  exact absurd hall (by decide)

theorem between_supplied (h : Supplied params segment) (hone : segment ≠ .wildcard) :
    between (Segment.value params segment) = [Segment.value params segment] := by
  cases segment with
  | fragment s => exact between_free (nameable_free h (by decide))
  | placeholder name =>
    obtain ⟨value, hvalue, hsingle⟩ := h
    rw [Segment.value, hvalue, Option.getD_some]
    exact between_free (single_free hsingle)
  | wildcard => exact absurd rfl hone
  | star => exact h.elim

theorem length_texts (h : ∀ segment ∈ segments, Supplied params segment) (hfree : Segment.wildcard ∉ segments) :
    (texts params segments).length = segments.length := by
  induction segments with
  | nil => rfl
  | cons segment segments ih =>
    obtain ⟨hsegment, hsegments⟩ := List.forall_mem_cons.mp h
    rw [List.mem_cons, not_or] at hfree
    rw [texts_cons, between_supplied hsegment (Ne.symm hfree.1), List.length_append, ih hsegments hfree.2,
      List.length_singleton, List.length_cons, Nat.add_comm]

theorem length_le_texts : segments.length ≤ (texts params segments).length := by
  induction segments with
  | nil => exact Nat.le_refl _
  | cons segment segments ih =>
    have hone := List.length_pos_of_ne_nil (between_ne_nil (Segment.value params segment))
    rw [texts_cons, List.length_append, List.length_cons]
    omega

theorem written_texts (h : ∀ segment ∈ segments, Supplied params segment)
    (hlast : Segment.wildcard ∉ segments.dropLast)
    (hkept : ∀ segment ∈ segments, segment.literal = none →
      ∀ text ∈ between (Segment.value params segment), Kept text) :
    agrees segments ((texts params segments).map written) = true ∧
      bindings Uri.decodeURIComponent segments ((texts params segments).map written) =
        given params segments := by
  induction segments with
  | nil => exact ⟨rfl, rfl⟩
  | cons segment segments ih =>
    obtain ⟨hsegment, hsegments⟩ := List.forall_mem_cons.mp h
    obtain ⟨hhere, hrest⟩ := List.forall_mem_cons.mp hkept
    by_cases hwildcard : segment = .wildcard
    · have hnil : segments = [] := by
        by_contra hne
        rw [List.dropLast_cons_of_ne_nil hne, hwildcard] at hlast
        exact hlast (List.mem_cons_self ..)
      subst hwildcard hnil
      obtain ⟨value, hvalue, -⟩ := hsegment
      have hread : ((between value).map written).map (fun s => decode Uri.decodeURIComponent (some s)) =
          between value := by
        rw [List.map_map]
        refine (List.map_congr_left fun text htext => ?_).trans (List.map_id _)
        rw [Segment.value, hvalue, Option.getD_some] at hhere
        exact decode_written (hhere rfl text htext)
      refine ⟨rfl, ?_⟩
      rw [texts_cons, Segment.value, hvalue, Option.getD_some, bindings, texts, List.flatMap_nil,
        List.append_nil, hread, intercalate_between, given, List.filterMap_cons, Segment.given, hvalue]
      rfl
    · have htail : Segment.wildcard ∉ segments.dropLast := by
        intro hmem
        cases segments with
        | nil => cases hmem
        | cons next segments => exact hlast (List.mem_cons_of_mem _ hmem)
      obtain ⟨hagrees, hbindings⟩ := ih hsegments htail hrest
      rw [texts_cons, between_supplied hsegment hwildcard, List.singleton_append, List.map_cons]
      cases segment with
      | fragment s =>
        have hself : written (Segment.value params (.fragment s)) = s := (kept_nameable hsegment).2
        rw [hself]
        exact ⟨Bool.and_eq_true_iff.mpr ⟨decide_eq_true rfl, hagrees⟩, hbindings⟩
      | placeholder name =>
        obtain ⟨value, hvalue, hsingle⟩ := hsegment
        have hvalue' : Segment.value params (.placeholder name) = value := by
          rw [Segment.value, hvalue, Option.getD_some]
        have hread : decode Uri.decodeURIComponent (some (written value)) = value := by
          refine decode_written (hhere rfl value ?_)
          rw [hvalue', between_free (single_free hsingle)]
          exact List.mem_singleton_self _
        have hgiven : given params (.placeholder name :: segments) = ⟨name, value⟩ :: given params segments := by
          rw [given, List.filterMap_cons, Segment.given, hvalue]
          rfl
        have hbound (fragments : List String) :
            bindings Uri.decodeURIComponent (.placeholder name :: segments) (written value :: fragments) =
              ⟨name, decode Uri.decodeURIComponent (some (written value))⟩ ::
                bindings Uri.decodeURIComponent segments fragments := rfl
        rw [hvalue', hgiven, hbound, hread, hbindings]
        exact ⟨hagrees, rfl⟩
      | wildcard => exact absurd rfl hwildcard
      | star => exact hsegment.elim

end

/-! ## Names -/

def segmentOf (part : String) : Segment :=
  match parameter part with
  | none => .fragment part
  | some key => if part = TAIL then .wildcard else .placeholder key

theorem segmentOf_component {segment : Segment} {part : String} (h : component segment = some part) :
    segmentOf part = segment := by
  cases segment with
  | fragment s =>
    simp only [component, Option.ite_none_right_eq_some, Option.some.injEq] at h
    obtain ⟨hnameable, rfl⟩ := h
    rw [segmentOf, parameter_literal hnameable]
  | placeholder name =>
    simp only [component, Option.ite_none_right_eq_some, Option.some.injEq] at h
    obtain ⟨hnameable, rfl⟩ := h
    rw [segmentOf, parameter_placeholder hnameable]
    exact if_neg (placeholder_ne_tail hnameable)
  | wildcard =>
    obtain rfl := Option.some.inj h
    rfl
  | star => cases h

theorem segmentOf_components {segments : List Segment} {parts : List String}
    (h : segments.mapM component = some parts) : parts.map segmentOf = segments := by
  induction segments generalizing parts with
  | nil =>
    obtain rfl := Option.some.inj h
    rfl
  | cons segment segments ih =>
    obtain ⟨part, rest, hpart, hmapped, rfl⟩ := Fallible.mapM_cons_some h
    rw [List.map_cons, segmentOf_component hpart, ih hmapped]

theorem name_inj {segments others : List Segment} {verb other named : String}
    (h : name segments verb = some named) (hother : name others other = some named) (hverb : verb ∈ verbs)
    (hotherverb : other ∈ verbs) : segments = others ∧ verb = other := by
  obtain ⟨parts, hparts, rfl⟩ := Option.map_eq_some_iff.mp h
  obtain ⟨otherparts, hotherparts, heq⟩ := Option.map_eq_some_iff.mp hother
  have hsame : otherparts ++ [other] = parts ++ [verb] := by
    rw [← parts_name hotherparts hotherverb, heq, parts_name hparts hverb]
  obtain ⟨hpartseq, hverbeq⟩ := List.append_inj' hsame rfl
  refine ⟨?_, (List.singleton_inj.mp hverbeq).symm⟩
  rw [← segmentOf_components hparts, ← segmentOf_components hotherparts, hpartseq]

/-! ## Calls -/

theorem find_of_takeWhile {α : Type*} {p q : α → Bool} {l : List α} (hsome : ∃ a ∈ l, q a = true)
    (hbefore : ∀ a ∈ l.takeWhile fun a => !q a, p a = false) (hkind : ∀ a ∈ l, q a = true → p a = true) :
    ∃ a ∈ l, l.find? p = some a ∧ q a = true := by
  induction l with
  | nil =>
    obtain ⟨a, ha, -⟩ := hsome
    cases ha
  | cons a l ih =>
    cases ha : q a with
    | true =>
      refine ⟨a, List.mem_cons_self, ?_, ha⟩
      rw [List.find?_cons_of_pos (hkind a List.mem_cons_self ha)]
    | false =>
      have hopen : (a :: l).takeWhile (fun a => !q a) = a :: l.takeWhile fun a => !q a := by
        rw [List.takeWhile_cons_of_pos (by rw [ha]; rfl)]
      rw [hopen] at hbefore
      obtain ⟨hhere, hrest⟩ := List.forall_mem_cons.mp hbefore
      obtain ⟨b, hb, hq⟩ := hsome
      have hlater : b ∈ l := by
        rcases List.mem_cons.mp hb with rfl | hb
        · rw [ha] at hq
          cases hq
        · exact hb
      obtain ⟨c, hc, hfind, hqc⟩ := ih ⟨b, hlater, hq⟩ hrest fun c hc => hkind c (List.mem_cons_of_mem _ hc)
      refine ⟨c, List.mem_cons_of_mem _ hc, ?_, hqc⟩
      rw [List.find?_cons_of_neg (Bool.eq_false_iff.mp hhere), hfind]

section
variable (now : ℤ) (trunk : Node μ)

/-- What a URL keeps of a call, and no template that is tried before the call's own takes. -/
structure Undisturbed (params : String → Option String) (segments : List Segment) : Prop where
  kept : ∀ segment ∈ segments, segment.literal = none →
    ∀ text ∈ between (Segment.value params segment), Kept text
  first : (texts params segments).head? ≠ some ""
  untaken : ∀ t ∈ ((trunk.live now).templates []).takeWhile (fun t => !decide (t.segments = segments)),
    (t.fits ((texts params segments).map written) || t.overruns ((texts params segments).map written)) = false

variable {now trunk}

theorem matchPath_texts {params : String → Option String} {segments : List Segment} (htrunk : trunk.All Shaped)
    (hserves : trunk.expired now = false) (hne : segments ≠ [])
    (ht : ∃ t ∈ (trunk.live now).templates [], t.segments = segments)
    (hsupplied : ∀ segment ∈ segments, Supplied params segment) (hcall : Undisturbed now trunk params segments) :
    (matchPath Uri.decodeURIComponent now trunk (path ((texts params segments).map written))).map Match.told =
      some (template segments, given params segments) := by
  have hdeclared := Node.declared_live htrunk hserves
  have htemplates : ∀ t ∈ (trunk.live now).templates [], t.Declared := fun t ht =>
    Node.templates_declared hdeclared (List.forall_mem_nil _) List.not_mem_nil ht
  obtain ⟨t, hmem, htsegments⟩ := ht
  have hlast : Segment.wildcard ∉ segments.dropLast := htsegments ▸ (htemplates t hmem).ends
  obtain ⟨hagrees, hbindings⟩ := written_texts hsupplied hlast hcall.kept
  have hwritten : (texts params segments).map written ≠ [] := by
    intro hnil
    have hlength := @length_le_texts params segments
    rw [List.map_eq_nil_iff.mp hnil] at hlength
    exact hne (List.eq_nil_of_length_eq_zero (Nat.le_zero.mp hlength))
  have hfree : ∀ text ∈ (texts params segments).map written, '/' ∉ text.toList := by
    refine List.forall_mem_map.mpr fun text htext => ?_
    obtain ⟨segment, -, hbetween⟩ := List.mem_flatMap.mp htext
    rw [written, String.toList_ofList]
    exact Uri.slash_encode (free_of_between hbetween)
  have hfits : ∀ t : Template μ, t.segments = segments → t.fits ((texts params segments).map written) = true := by
    intro t hsame
    rw [Template.fits, hsame, hagrees, Bool.true_and, List.length_map]
    split_ifs with hrest
    · exact decide_eq_true (Nat.le_succ_of_le length_le_texts)
    · exact decide_eq_true (length_texts hsupplied fun hwildcard => hrest (getLast_of_mem hwildcard hlast)).symm
  obtain ⟨found, hfound, hfind, hsame⟩ := @find_of_takeWhile (Template μ)
    (fun t => t.fits ((texts params segments).map written) || t.overruns ((texts params segments).map written))
    (fun t => decide (t.segments = segments)) _ ⟨t, hmem, decide_eq_true htsegments⟩ hcall.untaken
    fun t _ hsame => Bool.or_eq_true_iff.mpr (.inl (hfits t (of_decide_eq_true hsame)))
  have hsegments := of_decide_eq_true hsame
  rw [← matchPath_live, matchPath_templates hdeclared (path_ne hwritten),
    fragment_path hwritten hfree, hfind, Option.map_some, Option.map_some,
    (htemplates found hfound).found_eq (hfits found hsegments), hsegments, hbindings]
  rfl

theorem call_faithful (authority : List Char → Option String) (htrunk : trunk.All Shaped)
    (hserves : trunk.expired now = false) {mount : Mount μ}
    (hmount : mount ∈ trunk.walk (·.expired now) [] true) (hverb : mount.verb ∈ verbs) {named : String}
    (hname : name mount.segments mount.verb = some named) :
    (∀ params a, address named params = .ok a → Undisturbed now trunk params mount.segments →
      a.verb = mount.verb ∧ (forked authority now trunk a.path).map Match.told =
        some (template mount.segments, given params mount.segments)) ∧
    ∀ other ∈ trunk.walk (·.expired now) [] true, other.verb ∈ verbs →
      name other.segments other.verb = some named →
        other.segments = mount.segments ∧ other.verb = mount.verb := by
  refine ⟨fun params a haddress hcall => ?_, fun other _ hother hnamed => ?_⟩
  · obtain ⟨hsupplied, rfl⟩ := (address_iff hname hverb).mp haddress
    refine ⟨rfl, ?_⟩
    have hkept : ∀ text ∈ texts params mount.segments, Kept text := by
      intro text htext
      obtain ⟨segment, hsegment, hbetween⟩ := List.mem_flatMap.mp htext
      cases segment with
      | fragment s =>
        have hnameable : nameable s = true := hsupplied _ hsegment
        have hone : between s = [s] := between_free (nameable_free hnameable (by decide))
        rw [Segment.value, hone] at hbetween
        exact List.mem_singleton.mp hbetween ▸ (kept_nameable hnameable).1
      | placeholder | star | wildcard => exact hcall.kept _ hsegment rfl text hbetween
    rw [forked, pathname_path authority hkept hcall.first, Option.bind_some]
    by_cases hnil : mount.segments = []
    · rw [hnil]
      rfl
    · refine matchPath_texts htrunk hserves hnil ?_ hsupplied hcall
      rcases Node.walk_templates hmount with ⟨htrunkown, -⟩ | hserved
      · exact absurd htrunkown hnil
      · exact hserved
  · exact name_inj hnamed hname hother hverb

end

def calling (key value : String) : String → Option String := fun asked => if asked = key then some value else none

theorem call_faithful_users : address "users._id.GET" (calling "id" "a bé") = .ok ⟨"/users/a bé/", "GET", ["id"]⟩ ∧
    (forked (fun _ => none) 0 users "/users/a bé/").map Match.told =
      some ("/users/:id", [⟨"id", "a bé"⟩]) := by
  have haddress : address "users._id.GET" (calling "id" "a bé") = .ok ⟨"/users/a bé/", "GET", ["id"]⟩ := by
    decide
  have hplain : ("a bé".toList.all fun c => !Uri.dropped c && !Uri.isSlash c) = true := rfl
  have hkept : Kept "a bé" := by
    refine ⟨⟨fun c hc => ?_, ⟨rfl, rfl⟩⟩, .inl (by decide)⟩
    have hthis := List.all_eq_true.mp hplain c hc
    rwa [Bool.and_eq_true, Bool.not_eq_true', Bool.not_eq_true'] at hthis
  have hcall : Undisturbed 0 users (calling "id" "a bé") [.fragment "users", .placeholder "id"] := by
    refine ⟨List.forall_mem_cons.mpr ⟨by nofun, List.forall_mem_singleton.mpr fun _ => ?_⟩, by decide, ?_⟩
    · exact List.forall_mem_singleton.mpr hkept
    · exact List.forall_mem_nil _
  refine ⟨haddress, ?_⟩
  exact ((@call_faithful _ 0 users (fun _ => none) (Node.shaped users_declared) rfl
    ⟨[.fragment "users", .placeholder "id"], "GET", 1, serving true 1⟩ (List.mem_singleton_self _) (by decide)
    "users._id.GET" (by decide)).1 _ _ haddress hcall).2

def pots : Node ℕ :=
  holding true [.mk [.fragment "pots", .fragment "new"] (serving true 1),
    .mk [.fragment "pots", .placeholder "id"] (serving true 2)]

def files : Node ℕ := holding true [.mk [.fragment "files", .wildcard, .fragment "raw"] (serving true 1)]

/-- What is called by a name, and what is matched: dots lead out of the template, an escape is read, a
literal is a route of its own, and the rest of a path ends its template. -/
theorem call_misled :
    ((users.walk (·.expired 0) [] true).map fun mount => name mount.segments mount.verb) =
        [some "users._id.GET"] ∧
      address "users._id.GET" (calling "id" "..") = .ok ⟨"/users/../", "GET", ["id"]⟩ ∧
      (forked (fun _ => none) 0 users "/users/../").map Match.told = some ("/", []) ∧
      address "users._id.GET" (calling "id" "%41") = .ok ⟨"/users/%41/", "GET", ["id"]⟩ ∧
      (forked (fun _ => none) 0 users "/users/%41/").map Match.told = some ("/users/:id", [⟨"id", "A"⟩]) ∧
      ((pots.walk (·.expired 0) [] true).map fun mount => name mount.segments mount.verb) =
        [some "pots.new.GET", some "pots._id.GET"] ∧
      address "pots._id.GET" (calling "id" "new") = .ok ⟨"/pots/new/", "GET", ["id"]⟩ ∧
      (forked (fun _ => none) 0 pots "/pots/new/").map Match.told = some ("/pots/new", []) ∧
      ((files.walk (·.expired 0) [] true).map fun mount => name mount.segments mount.verb) =
        [some "files.__.raw.GET"] ∧
      address "files.__.raw.GET" (calling "**" "x") = .ok ⟨"/files/x/raw/", "GET", ["**"]⟩ ∧
      (forked (fun _ => none) 0 files "/files/x/raw/").map Match.told =
        some ("/files/**/raw", [⟨"**", "raw"⟩]) := by
  refine ⟨by decide, by decide, by decide, by decide, by decide, by decide, by decide, by decide, by decide,
    by decide, by decide⟩

end Toa.RPC
