import Toa.Lib.Words
import Toa.RTD.Merge

/-! The templates a tree declares, in the order they are tried, and the one a path is matched with. A
path shorter than the segments of a route is not refused by it: what it has no fragment for is taken
as text. -/

namespace Toa.RTD
universe u
variable {μ : Type u}

/-- A template, and the segments of its last route apart from those that lead to it. -/
structure Template (μ : Type u) where
  before : List Segment
  own : List Segment
  node : Node μ

def Template.segments (t : Template μ) : List Segment := t.before ++ t.own

mutual
/-- Every template declared, but those of intermediate nodes, whose `/` routes answer in their place. -/
def Node.templates : Node μ → List Segment → List (Template μ)
  | .mk _ routes, before => Routes.templates routes before

def Routes.templates : List (Route μ) → List Segment → List (Template μ)
  | [], _ => []
  | route :: routes, before => Route.templates route before ++ Routes.templates routes before

def Route.templates : Route μ → List Segment → List (Template μ)
  | .mk own node, before =>
    (if node.properties.intermediate = false ∨ (Route.mk own node).wildcard = true then
      [⟨before, own, node⟩] else []) ++ Node.templates node (before ++ own)
end

def agrees : List Segment → List String → Bool
  | [], _ => true
  | .fragment s :: segments, fragments => fragments.head? = some s && agrees segments fragments.tail
  | _ :: segments, fragments => agrees segments fragments.tail

namespace Template

/-- As long as the path, or with no more before its rest than the path has. -/
def fits (t : Template μ) (fragments : List String) : Bool :=
  agrees t.segments fragments &&
    if t.segments.getLast? = some .wildcard then decide (t.segments.length ≤ fragments.length + 1)
    else decide (t.segments.length = fragments.length)

/-- Longer than the path with no literal past its end, and ending in a `/` route or in the rest of a
path. -/
def overruns (t : Template μ) (fragments : List String) : Bool :=
  agrees t.segments fragments &&
    if t.segments.getLast? = some .wildcard then decide (fragments.length + 1 < t.segments.length)
    else t.own.isEmpty && decide (fragments.length < t.before.length)

end Template

section
variable (decodeURIComponent : String → Option String)

def bindings : List Segment → List String → List Parameter
  | .wildcard :: _, fragments =>
    [⟨"**", "/".intercalate (fragments.map fun s => decode decodeURIComponent (some s))⟩]
  | .placeholder name :: segments, s :: fragments =>
    ⟨name, decode decodeURIComponent (some s)⟩ :: bindings segments fragments
  | _ :: segments, _ :: fragments => bindings segments fragments
  | _, _ => []

/-- What a path should be matched with: nothing where no template fits it, and otherwise a template
that does, with its own placeholders bound. -/
def Exact (trunk : Node μ) (fragments : List String) (found : Option (Match μ)) : Prop :=
  (found.isSome = true ↔ ∃ t ∈ trunk.templates [], t.fits fragments = true) ∧
    ∀ m, found = some m → ∃ t ∈ trunk.templates [], t.fits fragments = true ∧
      m.route = template t.segments ∧ m.parameters = bindings decodeURIComponent t.segments fragments

end

def Segment.Declared (segment : Segment) : Prop := ∃ text : String, '/' ∉ text.toList ∧ parse text = segment

/-- A route whose rest of a path, where it has one, is its last segment and leads nowhere. -/
structure Route.Declared (route : Route μ) : Prop where
  segments : ∀ segment ∈ route.segments, segment.Declared
  last : Segment.wildcard ∉ route.segments.dropLast
  leaf : route.wildcard = true → route.node.routes = []

structure Declared (now : ℤ) (node : Node μ) : Prop where
  serves : node.expired now = false
  routes : ∀ route ∈ node.routes, route.Declared

/-! ## How templates read -/

theorem declared_parse (text : String) : (parse text).declared = text := by
  rw [parse, ← String.toList_inj]
  split
  · rename_i name hlist
    have hname : (String.ofList name).toList = name := String.toList_ofList
    rw [Segment.declared, String.toList_append, hname, hlist]
    rfl
  · rename_i hlist
    rw [Segment.declared, hlist]
    rfl
  · rename_i hlist
    rw [Segment.declared, hlist]
    rfl
  · rfl

def Parsed (segments : List Segment) : Prop :=
  ∀ segment ∈ segments, '/' ∉ segment.declared.toList ∧ parse segment.declared = segment

theorem Parsed.map {segments : List Segment} (h : Parsed segments) :
    (segments.map Segment.declared).map parse = segments := by
  rw [List.map_map]
  exact (List.map_congr_left fun segment hsegment => (h segment hsegment).2).trans (List.map_id _)

theorem Parsed.splits {segments : List Segment} (h : Parsed segments) (hne : segments ≠ []) :
    (("/".intercalate (segments.map Segment.declared)).toList.splitOn '/').map String.ofList =
      segments.map Segment.declared := by
  have hslash : "/".toList = ['/'] := rfl
  refine Words.splitOn_intercalate hslash (mt List.map_eq_nil_iff.mp hne) ?_
  exact List.forall_mem_map.mpr fun segment hsegment => (h segment hsegment).1

theorem Parsed.empty {segments : List Segment} (h : Parsed segments) (hne : segments ≠ [])
    (hread : "/".intercalate (segments.map Segment.declared) = "") : segments = [.fragment ""] := by
  have hsplits := h.splits hne
  rw [hread] at hsplits
  rw [← h.map, ← hsplits]
  rfl

theorem Parsed.inj {segments others : List Segment} (h : Parsed segments) (hothers : Parsed others)
    (hread : template segments = template others) :
    segments = others ∨ segments = [] ∧ others = [.fragment ""] ∨ segments = [.fragment ""] ∧ others = [] := by
  have hinner : "/".intercalate (segments.map Segment.declared) =
      "/".intercalate (others.map Segment.declared) := by
    rw [template, template, ← String.toList_inj, String.toList_append, String.toList_append,
      List.append_cancel_left_eq] at hread
    exact String.toList_inj.mp hread
  by_cases hne : segments = [] <;> by_cases hne' : others = []
  · exact .inl (hne.trans hne'.symm)
  · subst hne
    exact .inr (.inl ⟨rfl, hothers.empty hne' hinner.symm⟩)
  · subst hne'
    exact .inr (.inr ⟨h.empty hne hinner, rfl⟩)
  · refine .inl ?_
    rw [← h.map, ← hothers.map, ← h.splits hne, ← hothers.splits hne', hinner]

/-! ## Templates -/

theorem Node.templates_eq (node : Node μ) (before : List Segment) :
    node.templates before = node.routes.flatMap (·.templates before) := by
  obtain ⟨properties, routes⟩ := node
  rw [Node.templates, Node.routes_mk]
  induction routes with
  | nil => rfl
  | cons route routes ih => rw [Routes.templates, ih, List.flatMap_cons]

theorem Route.templates_eq (route : Route μ) (before : List Segment) : route.templates before =
    (if route.node.properties.intermediate = false ∨ route.wildcard = true then
      [⟨before, route.segments, route.node⟩] else []) ++ route.node.templates (before ++ route.segments) := by
  obtain ⟨own, node⟩ := route
  rw [Route.templates]
  rfl

theorem Node.templates_extend {node : Node μ} {before : List Segment} {t : Template μ}
    (h : t ∈ node.templates before) : ∃ more, t.before = before ++ more := by
  induction node using Node.induction generalizing before with
  | h properties routes ih =>
    rw [Node.templates_eq] at h
    obtain ⟨route, hroute, ht⟩ := List.mem_flatMap.mp h
    rw [Route.templates_eq] at ht
    rcases List.mem_append.mp ht with ht | ht
    · split_ifs at ht
      · rw [List.mem_singleton.mp ht]
        exact ⟨[], (List.append_nil _).symm⟩
      · cases ht
    · obtain ⟨more, hmore⟩ := ih route hroute ht
      exact ⟨route.segments ++ more, by rw [hmore, List.append_assoc]⟩

theorem agrees_append (before own : List Segment) (fragments : List String) :
    agrees (before ++ own) fragments = (agrees before fragments && agrees own (fragments.drop before.length)) := by
  induction before generalizing fragments with
  | nil => rfl
  | cons segment before ih =>
    have hrest := ih fragments.tail
    rw [List.drop_tail] at hrest
    cases segment <;> simp only [List.cons_append, agrees, hrest, List.length_cons, Bool.and_assoc]

section
variable {decodeURIComponent : String → Option String}

theorem capture_isSome_eq (tail : String) (own : List Segment) (fragments : List String) :
    (capture decodeURIComponent tail own fragments).isSome = agrees own fragments := by
  induction own generalizing fragments with
  | nil => rfl
  | cons segment own ih =>
    cases segment with
    | fragment s =>
      simp only [capture, agrees]
      split
      · rename_i hhead
        rw [ih, decide_eq_true hhead, Bool.true_and]
      · rename_i hhead
        rw [decide_eq_false hhead, Bool.false_and, Option.isSome_none]
    | placeholder name => simpa only [capture, agrees, Option.isSome_map] using ih fragments.tail
    | star => simpa only [capture, agrees] using ih fragments.tail
    | wildcard => simpa only [capture, agrees, Option.isSome_map] using ih fragments.tail

theorem capture_of_not_mem {own : List Segment} (h : Segment.wildcard ∉ own) (tail tail' : String)
    (fragments : List String) : capture decodeURIComponent tail own fragments =
      capture decodeURIComponent tail' own fragments := by
  induction own generalizing fragments with
  | nil => rfl
  | cons segment own ih =>
    obtain ⟨hsegment, hown⟩ := List.ne_and_not_mem_of_not_mem_cons h
    have hrest := ih hown fragments.tail
    cases segment with
    | wildcard => exact absurd rfl hsegment
    | fragment s | placeholder name | star => simp only [capture, hrest]

theorem capture_append (tail : String) (before own : List Segment) (fragments : List String) :
    capture decodeURIComponent tail (before ++ own) fragments =
      (capture decodeURIComponent tail before fragments).bind fun captured =>
        (capture decodeURIComponent tail own (fragments.drop before.length)).map (captured ++ ·) := by
  induction before generalizing fragments with
  | nil =>
    simp [capture]
  | cons segment before ih =>
    have hrest := ih fragments.tail
    rw [List.drop_tail] at hrest
    cases segment with
    | fragment s =>
      simp only [List.cons_append, capture, hrest, List.length_cons]
      split <;> rfl
    | star => simp only [List.cons_append, capture, hrest, List.length_cons]
    | placeholder name | wildcard =>
      simp only [List.cons_append, capture, hrest, List.length_cons]
      cases capture decodeURIComponent tail before fragments.tail with
      | none => rfl
      | some captured =>
        simp only [Option.bind_some, Option.map_some, Option.map_map]
        rfl

/-! ## The one a path is matched with -/

def Template.tail (t : Template μ) (decodeURIComponent : String → Option String) (fragments : List String) :
    String :=
  "/".intercalate ((fragments.drop (t.segments.length - 1)).map fun s => decode decodeURIComponent (some s))

def Template.matched (t : Template μ) (fragments : List String) : Bool :=
  agrees t.segments fragments &&
    (decide (t.own.length = fragments.length - t.before.length) || t.own.any (· = .wildcard))

def Template.found (t : Template μ) (decodeURIComponent : String → Option String) (fragments : List String) :
    Match μ :=
  ⟨t.node, (capture decodeURIComponent (t.tail decodeURIComponent fragments) t.segments fragments).getD [],
    template t.segments⟩

variable {now : ℤ} {fragments : List String} {before : List Segment} {parameters : List Parameter}

theorem Template.not_matched {t : Template μ} {more : List Segment} (ht : t.segments = before ++ more)
    (h : agrees before fragments = false) : t.matched fragments = false := by
  rw [matched, ht, agrees_append, h]
  rfl

theorem Route.captured_at (route : Route μ) (fragments : List String) (before : List Segment) :
    route.captured decodeURIComponent (fragments.drop before.length) =
      capture decodeURIComponent
        (Template.tail ⟨before, route.segments, route.node⟩ decodeURIComponent fragments) route.segments
        (fragments.drop before.length) := by
  rw [Route.captured]
  cases hown : route.segments with
  | nil => rfl
  | cons segment own =>
    have hlength : before.length + (List.length (segment :: own) - 1) =
        (before ++ segment :: own).length - 1 := by
      simp only [List.length_append, List.length_cons]
      omega
    rw [Template.tail, Template.segments, List.drop_drop, hlength]

section
variable {route : Route μ}

theorem Route.find_missed (h : agrees (before ++ route.segments) fragments = false) :
    (route.templates before).find? (·.matched fragments) = none := by
  refine List.find?_eq_none.mpr fun t ht => ?_
  rw [Bool.not_eq_true]
  rw [Route.templates_eq] at ht
  rcases List.mem_append.mp ht with ht | ht
  · split_ifs at ht
    · rw [List.mem_singleton.mp ht]
      exact Template.not_matched (List.append_nil _).symm h
    · cases ht
  · obtain ⟨more, hmore⟩ := Node.templates_extend ht
    have hsegments : t.segments = (before ++ route.segments) ++ (more ++ t.own) := by
      rw [Template.segments, hmore, List.append_assoc]
    exact Template.not_matched hsegments h

theorem Route.matched_eq (h : agrees (before ++ route.segments) fragments = true) :
    Template.matched ⟨before, route.segments, route.node⟩ fragments =
      (decide (route.segments.length = (fragments.drop before.length).length) || route.wildcard) := by
  rw [Template.matched, Template.segments, h, Bool.true_and, List.length_drop]
  rfl

theorem Route.find_ends (h : agrees (before ++ route.segments) fragments = true)
    (hends : route.ends (fragments.drop before.length) = true) :
    (route.templates before).find? (·.matched fragments) = some ⟨before, route.segments, route.node⟩ := by
  have hcases := Route.ends_iff.mp hends
  have hdeclared : route.node.properties.intermediate = false ∨ route.wildcard = true :=
    hcases.imp_left And.right
  have hmatched : Template.matched ⟨before, route.segments, route.node⟩ fragments = true := by
    rw [Route.matched_eq h, Bool.or_eq_true, decide_eq_true_iff]
    exact hcases.imp_left And.left
  rw [Route.templates_eq, if_pos hdeclared]
  exact List.find?_cons_of_pos hmatched

theorem Route.find_nested (h : agrees (before ++ route.segments) fragments = true)
    (hends : route.ends (fragments.drop before.length) = false) :
    (route.templates before).find? (·.matched fragments) =
      (route.node.templates (before ++ route.segments)).find? (·.matched fragments) := by
  obtain ⟨hexact, hplain⟩ := not_or.mp (mt Route.ends_iff.mpr (Bool.eq_false_iff.mp hends))
  rw [Route.templates_eq]
  split_ifs with hdeclared
  · have hintermediate := hdeclared.resolve_right hplain
    have hmatched : ¬Template.matched ⟨before, route.segments, route.node⟩ fragments = true := by
      rw [Route.matched_eq h, Bool.or_eq_true, decide_eq_true_iff]
      exact not_or.mpr ⟨fun hlength => hexact ⟨hlength, hintermediate⟩, hplain⟩
    exact List.find?_cons_of_neg hmatched
  · rfl

end

theorem Route.head_answers {route : Route μ} (hserves : route.node.expired now = false)
    (hwildcard : Segment.wildcard ∉ before)
    (hbefore : ∀ tail, capture decodeURIComponent tail before fragments = some parameters)
    (ih : ∀ {before parameters}, Segment.wildcard ∉ before →
      (∀ tail, capture decodeURIComponent tail before fragments = some parameters) →
      (route.node.answers decodeURIComponent now (fragments.drop before.length) parameters before).head? =
        ((route.node.templates before).find? (·.matched fragments)).map
          (·.found decodeURIComponent fragments)) :
    (route.answers decodeURIComponent now (fragments.drop before.length) parameters before).head? =
      ((route.templates before).find? (·.matched fragments)).map (·.found decodeURIComponent fragments) := by
  have hwhole : ∀ tail, capture decodeURIComponent tail (before ++ route.segments) fragments =
      (capture decodeURIComponent tail route.segments (fragments.drop before.length)).map (parameters ++ ·) := by
    intro tail
    rw [capture_append, hbefore, Option.bind_some]
  have hcaptured := @Route.captured_at _ decodeURIComponent route fragments before
  have hagrees : agrees (before ++ route.segments) fragments =
      (route.captured decodeURIComponent (fragments.drop before.length)).isSome := by
    rw [hcaptured, ← Option.isSome_map, ← hwhole, capture_isSome_eq]
  cases hroute : route.captured decodeURIComponent (fragments.drop before.length) with
  | none =>
    rw [hroute] at hagrees
    rw [Route.answers_missed hroute, Route.find_missed hagrees]
    rfl
  | some captured =>
    rw [hroute] at hagrees hcaptured
    cases hends : route.ends (fragments.drop before.length) with
    | true =>
      rw [Route.answers_ends hserves hroute hends, Route.find_ends hagrees hends, Option.map_some,
        Template.found, Template.segments, hwhole, ← hcaptured]
      rfl
    | false =>
      have hown : Segment.wildcard ∉ route.segments := by
        intro hmem
        have hplain := not_or.mp (mt Route.ends_iff.mpr (Bool.eq_false_iff.mp hends))
        exact hplain.2 (List.any_eq_true.mpr ⟨_, hmem, decide_eq_true rfl⟩)
      have hnext : ∀ tail, capture decodeURIComponent tail (before ++ route.segments) fragments =
          some (parameters ++ captured) := by
        intro tail
        rw [hwhole, capture_of_not_mem hown tail, ← hcaptured]
        rfl
      have hfree : Segment.wildcard ∉ before ++ route.segments :=
        fun hmem => (List.mem_append.mp hmem).elim hwildcard hown
      rw [Route.answers_nested hserves hroute hends, Route.find_nested hagrees hends, ← ih hfree hnext,
        List.drop_drop, List.length_append]

theorem find_congr {α : Type*} {p q : α → Bool} {l : List α} (h : ∀ a ∈ l, p a = q a) :
    l.find? p = l.find? q := by
  rw [← List.head?_filter, ← List.head?_filter, List.filter_congr h]

theorem find_or {α : Type*} {p q : α → Bool} {l : List α} (h : ∀ tried a later, l = tried ++ a :: later →
    q a = true → ∃ b ∈ tried, p b = true) : (l.find? fun a => p a || q a) = l.find? p := by
  cases hfirst : l.find? fun a => p a || q a with
  | none =>
    refine (List.find?_eq_none.mpr fun a ha hp => ?_).symm
    exact List.find?_eq_none.mp hfirst a ha (Bool.or_eq_true_iff.mpr (.inl hp))
  | some a =>
    obtain ⟨ha, tried, later, hsplit, htried⟩ := List.find?_eq_some_iff_append.mp hfirst
    have hbefore : ∀ b ∈ tried, p b = false := fun b hb => by
      have hneither := htried b hb
      rw [Bool.not_eq_true', Bool.or_eq_false_iff] at hneither
      exact hneither.1
    have hp : p a = true := by
      refine (Bool.or_eq_true_iff.mp ha).resolve_right fun hq => ?_
      obtain ⟨b, hb, hpb⟩ := h tried a later hsplit hq
      exact Bool.eq_false_iff.mp (hbefore b hb) hpb
    refine (List.find?_eq_some_iff_append.mpr ⟨hp, tried, later, hsplit, fun b hb => ?_⟩).symm
    rw [hbefore b hb]
    rfl

theorem findSome_congr {α β : Type*} {f g : α → Option β} {l : List α} (h : ∀ a ∈ l, f a = g a) :
    l.findSome? f = l.findSome? g := by
  induction l with
  | nil => rfl
  | cons a l ih =>
    obtain ⟨ha, hl⟩ := List.forall_mem_cons.mp h
    rw [List.findSome?_cons, List.findSome?_cons, ha, ih hl]

theorem Node.head_answers {node : Node μ} (h : node.All (Declared now)) (hwildcard : Segment.wildcard ∉ before)
    (hbefore : ∀ tail, capture decodeURIComponent tail before fragments = some parameters) :
    (node.answers decodeURIComponent now (fragments.drop before.length) parameters before).head? =
      ((node.templates before).find? (·.matched fragments)).map (·.found decodeURIComponent fragments) := by
  induction node using Node.induction generalizing before parameters with
  | h properties routes ih =>
    rw [Node.answers_eq, Node.templates_eq, List.head?_flatMap, List.find?_flatMap, List.map_findSome?]
    refine findSome_congr fun route hroute => ?_
    exact Route.head_answers (h.child hroute).here.serves hwildcard hbefore
      fun hwildcard hbefore => ih route hroute (h.child hroute) hwildcard hbefore

/-! ## Fitting and overrunning -/

structure Template.Declared (t : Template μ) : Prop where
  segments : ∀ segment ∈ t.segments, segment.Declared
  free : Segment.wildcard ∉ t.before
  last : Segment.wildcard ∉ t.own.dropLast

theorem Node.templates_declared {node : Node μ} (h : node.All (Declared now))
    (hsegments : ∀ segment ∈ before, segment.Declared) (hfree : Segment.wildcard ∉ before)
    {t : Template μ} (ht : t ∈ node.templates before) : t.Declared := by
  induction node using Node.induction generalizing before with
  | h properties routes ih =>
    rw [Node.templates_eq] at ht
    obtain ⟨route, hroute, ht⟩ := List.mem_flatMap.mp ht
    have hdeclared := h.here.routes route hroute
    have hwhole : ∀ segment ∈ before ++ route.segments, segment.Declared := fun segment hsegment =>
      (List.mem_append.mp hsegment).elim (hsegments segment) (hdeclared.segments segment)
    rw [Route.templates_eq] at ht
    rcases List.mem_append.mp ht with ht | ht
    · split_ifs at ht
      · rw [List.mem_singleton.mp ht]
        exact ⟨hwhole, hfree, hdeclared.last⟩
      · cases ht
    · refine ih route hroute (h.child hroute) hwhole (fun hmem => ?_) ht
      rcases List.mem_append.mp hmem with hmem | hmem
      · exact hfree hmem
      · -- nothing is declared under the rest of a path
        have hleaf := hdeclared.leaf (List.any_eq_true.mpr ⟨_, hmem, decide_eq_true rfl⟩)
        rw [Node.templates_eq, hleaf] at ht
        exact absurd ht List.not_mem_nil

theorem getLast_of_mem {α : Type*} {a : α} {l : List α} (h : a ∈ l) (hlast : a ∉ l.dropLast) :
    l.getLast? = some a := by
  have hne := List.ne_nil_of_mem h
  rw [← List.dropLast_append_getLast hne] at h
  have heq := List.mem_singleton.mp ((List.mem_append.mp h).resolve_left hlast)
  rw [List.getLast?_eq_some_getLast hne, ← heq]

namespace Template
variable {t : Template μ}

theorem Declared.rest_iff (h : t.Declared) :
    t.segments.getLast? = some .wildcard ↔ t.own.any (· = .wildcard) = true := by
  rw [List.any_eq_true, Template.segments]
  constructor
  · intro hlast
    rw [List.getLast?_append, Option.or_eq_some_iff] at hlast
    rcases hlast with hlast | ⟨-, hlast⟩
    · exact ⟨_, List.mem_of_getLast? hlast, decide_eq_true rfl⟩
    · exact absurd (List.mem_of_getLast? hlast) h.free
  · rintro ⟨segment, hmem, hsegment⟩
    obtain rfl := of_decide_eq_true hsegment
    rw [List.getLast?_append, getLast_of_mem hmem h.last]
    rfl

theorem Declared.matched_iff (h : t.Declared) (fragments : List String) :
    t.matched fragments = (t.fits fragments || t.overruns fragments) := by
  have hrest := h.rest_iff
  rw [matched, fits, overruns, ← Bool.and_or_distrib_left]
  refine congrArg (agrees t.segments fragments && ·) (Bool.eq_iff_iff.mpr ?_)
  by_cases hlast : t.segments.getLast? = some .wildcard
  · rw [if_pos hlast, if_pos hlast, hrest.mp hlast, Bool.or_true, Bool.or_eq_true, decide_eq_true_iff,
      decide_eq_true_iff]
    exact iff_of_true rfl (Nat.lt_or_ge _ _).symm
  · have hlength : t.segments.length = t.before.length + t.own.length := List.length_append
    have hempty : t.own.isEmpty = true ↔ t.own.length = 0 := by
      rw [List.isEmpty_iff, List.length_eq_zero_iff]
    rw [if_neg hlast, if_neg hlast, Bool.eq_false_iff.mpr (mt hrest.mpr hlast), Bool.or_false,
      Bool.or_eq_true, Bool.and_eq_true, hempty, decide_eq_true_iff, decide_eq_true_iff,
      decide_eq_true_iff, hlength]
    omega

end Template

theorem Template.not_fits_of_overruns {t t' : Template μ} (h : t.segments = t'.segments)
    (hover : t.overruns fragments = true) : t'.fits fragments = false := by
  rw [overruns, Bool.and_eq_true] at hover
  rw [fits, ← h, hover.1, Bool.true_and]
  have hlength : t.segments.length = t.before.length + t.own.length := List.length_append
  have hsize := hover.2
  split_ifs at hsize ⊢ with hlast
  · exact decide_eq_false (Nat.not_le.mpr (of_decide_eq_true hsize))
  · rw [Bool.and_eq_true, decide_eq_true_iff] at hsize
    exact decide_eq_false (by omega)

theorem capture_eq {segments : List Segment} (hlast : Segment.wildcard ∉ segments.dropLast)
    (hagrees : agrees segments fragments = true) (hlength : segments.length ≤ fragments.length + 1)
    (hshort : fragments.length < segments.length → segments.getLast? = some .wildcard) :
    capture decodeURIComponent ("/".intercalate ((fragments.drop (segments.length - 1)).map fun s =>
      decode decodeURIComponent (some s))) segments fragments =
        some (bindings decodeURIComponent segments fragments) := by
  induction segments generalizing fragments with
  | nil => rfl
  | cons segment segments ih =>
    by_cases hwildcard : segment = .wildcard
    · have hnil : segments = [] := by
        by_contra hne
        rw [List.dropLast_cons_of_ne_nil hne, hwildcard] at hlast
        exact hlast (List.mem_cons_self ..)
      rw [hwildcard, hnil]
      rfl
    · cases fragments with
      | nil =>
        -- a template one segment longer than the path ends in the rest of it
        have hnil : segments = [] := List.eq_nil_of_length_eq_zero (by
          rw [List.length_cons, List.length_nil] at hlength
          omega)
        have hthis := hshort (Nat.succ_pos _)
        rw [hnil] at hthis
        exact absurd (Option.some.inj hthis) hwildcard
      | cons s fragments =>
        have hrest : capture decodeURIComponent ("/".intercalate (((s :: fragments).drop
            ((segment :: segments).length - 1)).map fun s => decode decodeURIComponent (some s)))
            segments fragments = some (bindings decodeURIComponent segments fragments) := by
          cases segments with
          | nil => rfl
          | cons next segments =>
            refine ih (fun hmem => hlast (List.mem_cons_of_mem _ hmem)) ?_ (Nat.le_of_succ_le_succ hlength)
              fun h => ?_
            · cases segment with
              | fragment _ => exact (Bool.and_eq_true_iff.mp hagrees).2
              | placeholder _ | star => exact hagrees
              | wildcard => exact absurd rfl hwildcard
            · rw [← hshort (Nat.succ_lt_succ h)]
              exact List.getLast?_cons_cons.symm
        cases segment with
        | fragment text =>
          have hhead : (s :: fragments).head? = some text :=
            of_decide_eq_true (Bool.and_eq_true_iff.mp hagrees).1
          rw [capture, if_pos hhead]
          exact hrest
        | placeholder name =>
          rw [capture, List.tail_cons, hrest]
          rfl
        | star => exact hrest
        | wildcard => exact absurd rfl hwildcard

theorem Template.Declared.ends {t : Template μ} (h : t.Declared) : Segment.wildcard ∉ t.segments.dropLast := by
  rw [Template.segments]
  intro hmem
  by_cases hown : t.own = []
  · rw [hown, List.append_nil] at hmem
    exact h.free ((List.dropLast_sublist _).subset hmem)
  · rw [List.dropLast_append_of_ne_nil hown] at hmem
    exact (List.mem_append.mp hmem).elim h.free h.last

theorem Template.Declared.found_eq {t : Template μ} (h : t.Declared) (hfits : t.fits fragments = true) :
    t.found decodeURIComponent fragments =
      ⟨t.node, bindings decodeURIComponent t.segments fragments, template t.segments⟩ := by
  rw [fits, Bool.and_eq_true] at hfits
  obtain ⟨hagrees, hsize⟩ := hfits
  rw [found, Template.tail, capture_eq h.ends hagrees]
  · rfl
  · split_ifs at hsize
    · exact of_decide_eq_true hsize
    · exact (of_decide_eq_true hsize).trans_le (Nat.le_succ _)
  · intro hshort
    by_contra hplain
    rw [if_neg hplain] at hsize
    exact absurd (of_decide_eq_true hsize) (Nat.ne_of_gt hshort)

theorem Template.reads_ne {t t' : Template μ} (h : t.Declared) (h' : t'.Declared)
    (hover : t.overruns fragments = true) (hfits : t'.fits fragments = true) :
    template t'.segments ≠ template t.segments := by
  have hparsed {t : Template μ} (h : t.Declared) : Parsed t.segments := fun segment hsegment => by
    obtain ⟨text, hfree, rfl⟩ := h.segments segment hsegment
    rw [declared_parse]
    exact ⟨hfree, rfl⟩
  intro hread
  rcases (hparsed h').inj (hparsed h) hread with hsame | ⟨hnone, hempty⟩ | ⟨-, hnone⟩
  · rw [not_fits_of_overruns hsame.symm hover] at hfits
    cases hfits
  · -- the trunk's own template fits no fragments, and an empty one is not there to overrun
    rw [fits, hnone, Bool.and_eq_true] at hfits
    obtain rfl := List.length_eq_zero_iff.mp (of_decide_eq_true hfits.2).symm
    rw [overruns, hempty] at hover
    cases hover
  · have hbefore : t.before = [] := (List.append_eq_nil_iff.mp hnone).1
    rw [overruns, hnone, hbefore, Bool.and_eq_true] at hover
    have hown := (Bool.and_eq_true_iff.mp hover.2).2
    exact absurd (of_decide_eq_true hown) (Nat.not_lt_zero _)

variable {trunk : Node μ} {path : String}

theorem matchPath_templates (htrunk : trunk.All (Declared now)) (hpath : path ≠ "/") :
    matchPath decodeURIComponent now trunk path =
      ((trunk.templates []).find? fun t => t.fits (fragment path) || t.overruns (fragment path)).map
        (·.found decodeURIComponent (fragment path)) := by
  have hhead := @Node.head_answers _ decodeURIComponent now (fragment path) [] [] trunk
    htrunk List.not_mem_nil fun _ => rfl
  rw [matchPath, if_neg hpath, Node.find_eq]
  refine hhead.trans (congrArg _ (find_congr fun t ht => ?_))
  exact (Node.templates_declared htrunk (by simp) List.not_mem_nil ht).matched_iff _

/-- A match is one of a template that fits, and there is one where a template fits, of exactly the paths
that no template overruns before the first that fits. -/
theorem match_exact_iff (htrunk : trunk.All (Declared now)) (hpath : path ≠ "/") :
    Exact decodeURIComponent trunk (fragment path) (matchPath decodeURIComponent now trunk path) ↔
      ∀ tried t later, trunk.templates [] = tried ++ t :: later → t.overruns (fragment path) = true →
        ∃ t' ∈ tried, t'.fits (fragment path) = true := by
  have hdeclared : ∀ t ∈ trunk.templates [], t.Declared := fun t ht =>
    Node.templates_declared htrunk (by simp) List.not_mem_nil ht
  rw [matchPath_templates htrunk hpath]
  constructor
  · rintro ⟨-, hfound⟩ tried t later hsplit hover
    by_contra hnone
    have hunfit : t.fits (fragment path) = false := Template.not_fits_of_overruns rfl hover
    have hsome : ((tried ++ [t]).find? fun t =>
        t.fits (fragment path) || t.overruns (fragment path)).isSome = true :=
      List.find?_isSome.mpr ⟨t, List.mem_concat_self, Bool.or_eq_true_iff.mpr (.inr hover)⟩
    -- the first to take the path is `t` or comes before it, and only overruns it
    obtain ⟨first, hfirst⟩ := Option.isSome_iff_exists.mp hsome
    have hmem : first ∈ tried ++ [t] := List.mem_of_find?_eq_some hfirst
    have hfits : first.fits (fragment path) = false := by
      rcases List.mem_append.mp hmem with htried | hlast
      · exact Bool.eq_false_iff.mpr fun hfits => hnone ⟨first, htried, hfits⟩
      · rw [List.mem_singleton.mp hlast]
        exact hunfit
    have hfirstover : first.overruns (fragment path) = true := by
      have htakes := List.find?_some hfirst
      exact (Bool.or_eq_true_iff.mp htakes).resolve_left (Bool.eq_false_iff.mp hfits)
    have hwhole : trunk.templates [] = tried ++ [t] ++ later := by
      rw [hsplit, List.append_assoc]
      rfl
    have hin : first ∈ trunk.templates [] := by
      rw [hwhole]
      exact List.mem_append_left _ hmem
    have hmatch : (trunk.templates []).find?
        (fun t => t.fits (fragment path) || t.overruns (fragment path)) = some first := by
      rw [hwhole, List.find?_append, hfirst]
      rfl
    obtain ⟨t', ht', hfits', hread, -⟩ := hfound _ (congrArg (Option.map _) hmatch)
    exact Template.reads_ne (hdeclared first hin) (hdeclared t' ht') hfirstover hfits' hread.symm
  · intro h
    rw [find_or h]
    refine ⟨?_, fun m hm => ?_⟩
    · rw [Option.isSome_map, List.find?_isSome]
    · obtain ⟨t, ht, rfl⟩ := Option.map_eq_some_iff.mp hm
      have hin : t ∈ trunk.templates [] := List.mem_of_find?_eq_some ht
      have hfits : t.fits (fragment path) = true := by
        have hp := List.find?_some ht
        exact hp
      rw [(hdeclared t hin).found_eq hfits]
      exact ⟨t, hin, hfits, rfl, rfl⟩

end

theorem all_declared : (∀ method, (serving true method).All (Declared 0)) ∧ ∀ routes,
    (∀ route ∈ routes, route.Declared ∧ route.node.All (Declared 0)) → (holding true routes).All (Declared 0) :=
  ⟨fun _ => .new ⟨rfl, fun _ h => absurd (mem_sort.mp h) List.not_mem_nil⟩ fun _ h => absurd h List.not_mem_nil,
    fun _ h => .new ⟨rfl, fun route hroute => (h route (mem_sort.mp hroute)).1⟩ fun route hroute =>
      (h route hroute).2⟩

/-- `/users/:id/`, its method at a `/` route. -/
def users : Node ℕ :=
  holding true [.mk [.fragment "users", .placeholder "id"] (holding true [.mk [] (serving true 1)])]

theorem users_declared : users.All (Declared 0) := by
  have hroot : (holding true [.mk [] (serving true 1)]).All (Declared 0) :=
    all_declared.2 _ (List.forall_mem_singleton.mpr ⟨⟨by simp [Route.segments], List.not_mem_nil, by
      simp [Route.wildcard, Route.segments]⟩, all_declared.1 1⟩)
  refine all_declared.2 _ (List.forall_mem_singleton.mpr ⟨⟨?_, by decide, by decide⟩, hroot⟩)
  refine List.forall_mem_cons.mpr ⟨⟨"users", by decide, by decide⟩, List.forall_mem_singleton.mpr ?_⟩
  exact ⟨":id", by decide, by decide⟩

theorem templates_users : users.templates [] =
    [⟨[.fragment "users", .placeholder "id"], [], serving true 1⟩] := rfl

theorem match_exact_users : Exact some users (fragment "/users/7") (matchPath some 0 users "/users/7") := by
  refine (match_exact_iff users_declared (by decide)).mpr fun tried t later hsplit hover => ?_
  have hmem : t ∈ users.templates [] := by
    rw [hsplit]
    exact List.mem_append_right _ (List.mem_cons_self ..)
  rw [templates_users] at hmem
  obtain rfl := List.mem_singleton.mp hmem
  cases hover

/-- What a path has no fragment for is bound to text. -/
theorem users_match_short : users.All (Declared 0) ∧
    (∃ m, matchPath some 0 users "/users" = some m ∧ m.route = "/users/:id" ∧
      m.parameters = [⟨"id", "undefined"⟩]) ∧
    ¬Exact some users (fragment "/users") (matchPath some 0 users "/users") := by
  refine ⟨users_declared, ⟨_, rfl, rfl, rfl⟩, fun h => ?_⟩
  obtain ⟨t, ht, hfits⟩ := h.1.mp rfl
  rw [templates_users] at ht
  obtain rfl := List.mem_singleton.mp ht
  cases hfits

end Toa.RTD
