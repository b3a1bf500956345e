import Mathlib.Data.List.Pairwise
import Toa.RTD.Tree

/-! What a tree answers once a branch is merged into it. A path may be led to several nodes, and the
first of them is its match: merging keeps what either tree leads a path to, where the other leads
it nowhere. -/

set_option linter.unusedSectionVars false

namespace Toa.RTD
universe u
variable {μ : Type u}

/-! ## Sorted routes -/

theorem before_refl (route : Route μ) : route.Before route := .inr ⟨rfl, Nat.le_refl _⟩

instance : IsTrans (Route μ) Route.Before where
  trans a b c hab hbc := by
    unfold Route.Before at *
    omega

instance : Std.Total (Route.Before (μ := μ)) where
  total a b := by
    unfold Route.Before
    omega

theorem mem_sort {route : Route μ} {routes : List (Route μ)} : route ∈ sort routes ↔ route ∈ routes :=
  List.mem_insertionSort _

theorem pairwise_sort (routes : List (Route μ)) : (sort routes).Pairwise Route.Before :=
  List.pairwise_insertionSort _ _

section
variable {α β : Type*} {r : α → α → Prop} [DecidableRel r] {f : α → List β}

theorem flatMap_orderedInsert {a : α} {l : List α} (h : ∀ b ∈ l, ¬r a b → f b = []) :
    (l.orderedInsert r a).flatMap f = f a ++ l.flatMap f := by
  induction l with
  | nil => rfl
  | cons b l ih =>
    rw [List.orderedInsert]
    split_ifs with hab
    · rfl
    · have hb : f b = [] := h b (List.mem_cons_self ..) hab
      rw [List.flatMap_cons, List.flatMap_cons, hb, ih fun c hc => h c (List.mem_cons_of_mem _ hc)]
      rfl

theorem flatMap_insertionSort {l cs : List α} (hl : l.Pairwise r) (hcs : ∀ c ∈ cs, f c = []) :
    ((l ++ cs).insertionSort r).flatMap f = l.flatMap f := by
  induction l with
  | nil =>
    refine List.flatMap_eq_nil_iff.mpr fun c hc => hcs c ?_
    exact (List.mem_insertionSort r).mp hc
  | cons a l ih =>
    obtain ⟨ha, hl⟩ := List.pairwise_cons.mp hl
    rw [List.cons_append, List.insertionSort_cons, flatMap_orderedInsert, ih hl, List.flatMap_cons]
    intro b hb hab
    rcases List.mem_append.mp ((List.mem_insertionSort r).mp hb) with hb | hb
    · exact absurd (ha b hb) hab
    · exact hcs b hb

theorem head_flatMap {a : α} {l : List α} (hl : l.Pairwise r) (ha : a ∈ l)
    (hfirst : ∀ b ∈ l, f b ≠ [] → r b a → b = a) (hsome : f a ≠ []) :
    (l.flatMap f).head? = (f a).head? := by
  induction l with
  | nil => exact absurd ha List.not_mem_nil
  | cons b l ih =>
    obtain ⟨hb, hl⟩ := List.pairwise_cons.mp hl
    rw [List.flatMap_cons, List.head?_append]
    by_cases hnone : f b = []
    · have hne : a ≠ b := by
        rintro rfl
        exact hsome hnone
      rw [hnone, ih hl ((List.mem_cons.mp ha).resolve_left hne)
        fun c hc => hfirst c (List.mem_cons_of_mem _ hc)]
      rfl
    · have hba : b = a := by
        rcases List.mem_cons.mp ha with rfl | ha
        · rfl
        · exact hfirst b (List.mem_cons_self ..) hnone (hb a ha)
      subst hba
      obtain ⟨m, hm⟩ := Option.isSome_iff_exists.mp (List.isSome_head?.mpr hsome)
      rw [hm]
      rfl

theorem exists_head_flatMap {l : List α} (hl : l.Pairwise r) {m : β}
    (h : (l.flatMap f).head? = some m) :
    ∃ a ∈ l, (f a).head? = some m ∧ ∀ b ∈ l, f b ≠ [] → b = a ∨ r a b := by
  induction l with
  | nil => exact nomatch h
  | cons a l ih =>
    obtain ⟨ha, hl⟩ := List.pairwise_cons.mp hl
    rw [List.flatMap_cons, List.head?_append] at h
    cases hhead : (f a).head? with
    | some first =>
      rw [hhead] at h
      refine ⟨a, List.mem_cons_self .., hhead.trans h, fun b hb _ => ?_⟩
      exact (List.mem_cons.mp hb).imp_right (ha b)
    | none =>
      have hnil : f a = [] := List.head?_eq_none_iff.mp hhead
      rw [hhead] at h
      obtain ⟨c, hc, hm, hfirst⟩ := ih hl h
      refine ⟨c, List.mem_cons_of_mem a hc, hm, fun b hb hsome => ?_⟩
      rcases List.mem_cons.mp hb with rfl | hb
      · exact absurd hnil hsome
      · exact hfirst b hb hsome

end

/-! ## What a path is led to -/

section
variable (decodeURIComponent : String → Option String) (now : ℤ)

mutual
/-- Every node a path is led to, in the order they are tried. -/
def Node.answers : Node μ → List String → List Parameter → List Segment → List (Match μ)
  | .mk _ routes, fragments, parameters, segments =>
    Routes.answers routes fragments parameters segments

def Routes.answers :
    List (Route μ) → List String → List Parameter → List Segment → List (Match μ)
  | [], _, _, _ => []
  | route :: routes, fragments, parameters, segments =>
    Route.answers route fragments parameters segments ++
      Routes.answers routes fragments parameters segments

def Route.answers : Route μ → List String → List Parameter → List Segment → List (Match μ)
  | .mk own node, fragments, parameters, segments =>
    if node.expired now = true then []
    else match (Route.mk own node).captured decodeURIComponent fragments with
      | none => []
      | some captured =>
        if (Route.mk own node).ends fragments = true then
          [⟨node, parameters ++ captured, template (segments ++ own)⟩]
        else
          Node.answers node (fragments.drop own.length) (parameters ++ captured) (segments ++ own)
end

mutual
theorem Node.find_eq (node : Node μ) (fragments : List String) (parameters : List Parameter)
    (segments : List Segment) :
    Node.find decodeURIComponent now node fragments parameters segments =
      (node.answers decodeURIComponent now fragments parameters segments).head? :=
  match node with
  | .mk _ routes => Routes.find_eq routes fragments parameters segments

theorem Routes.find_eq (routes : List (Route μ)) (fragments : List String)
    (parameters : List Parameter) (segments : List Segment) :
    Routes.find decodeURIComponent now routes fragments parameters segments =
      (Routes.answers decodeURIComponent now routes fragments parameters segments).head? :=
  match routes with
  | [] => rfl
  | route :: routes => by
    rw [Routes.find, Routes.answers, Route.find_eq, Routes.find_eq, List.head?_append]
    split
    · rename_i found h
      rw [h]
      rfl
    · rename_i h
      rw [h]
      rfl

theorem Route.find_eq (route : Route μ) (fragments : List String) (parameters : List Parameter)
    (segments : List Segment) :
    Route.find decodeURIComponent now route fragments parameters segments =
      (route.answers decodeURIComponent now fragments parameters segments).head? :=
  match route with
  | .mk own node => by
    rw [Route.find, Route.answers]
    split
    · rfl
    · cases Route.captured decodeURIComponent (.mk own node) fragments with
      | none => rfl
      | some captured =>
        simp only
        split
        · rfl
        · exact Node.find_eq node _ _ _
end

end

/-! ## Routes that are equal -/

theorem Route.equals_iff {route other : Route μ} : route.equals other = true ↔
    route.segments.map Segment.literal = other.segments.map Segment.literal :=
  decide_eq_true_iff

theorem Route.equals_symm {route other : Route μ} (h : route.equals other = true) :
    other.equals route = true := equals_iff.mpr (equals_iff.mp h).symm

theorem Route.equals_false_symm {route other : Route μ} (h : route.equals other = false) :
    other.equals route = false :=
  Bool.eq_false_iff.mpr fun h' => nomatch h.symm.trans (equals_symm h')

theorem Route.equals_trans {a b c : Route μ} (h : a.equals b = true) (h' : b.equals c = true) :
    a.equals c = true := equals_iff.mpr ((equals_iff.mp h).trans (equals_iff.mp h'))

theorem Route.equals_length {route other : Route μ} (h : route.equals other = true) :
    route.segments.length = other.segments.length := by
  have hlength := congrArg List.length (equals_iff.mp h)
  simpa only [List.length_map] using hlength

theorem Route.equals_variables {route other : Route μ} (h : route.equals other = true) :
    route.«variables» = other.«variables» := by
  have hcount := congrArg (List.countP Option.isNone) (equals_iff.mp h)
  rw [List.countP_map, List.countP_map] at hcount
  exact hcount

theorem before_of_equals {a a' b b' : Route μ} (ha : a'.equals a = true) (hb : b'.equals b = true) :
    a'.Before b' ↔ a.Before b := by
  simp only [Route.Before, Route.equals_variables ha, Route.equals_variables hb,
    Route.equals_length ha, Route.equals_length hb]

@[simp] theorem Route.segments_land (candidate route : Route μ) :
    (candidate.land route).segments = route.segments := by
  cases candidate
  cases route
  rfl

@[simp] theorem Route.node_land (candidate route : Route μ) :
    (candidate.land route).node = route.node.merge candidate.node := by
  cases candidate
  cases route
  rfl

theorem Route.equals_land (candidate other route : Route μ) :
    other.equals (candidate.land route) = other.equals route := by
  simp only [Route.equals, Route.segments_land]

def Distinct (routes : List (Route μ)) : Prop :=
  routes.Pairwise fun route other => route.equals other = false

instance (routes : List (Route μ)) : Decidable (Distinct routes) :=
  inferInstanceAs (Decidable (List.Pairwise _ _))

instance : Std.Symm fun route other : Route μ => route.equals other = false where
  symm _ _ := Route.equals_false_symm

theorem Distinct.eq {routes : List (Route μ)} (h : Distinct routes) {route other : Route μ}
    (hroute : route ∈ routes) (hother : other ∈ routes) (hequals : route.equals other = true) :
    route = other := by
  by_contra hne
  exact nomatch (h.forall hroute hother hne).symm.trans hequals

def landOn (candidates : List (Route μ)) (route : Route μ) : Route μ :=
  match candidates.find? (·.equals route) with
  | some candidate => candidate.land route
  | none => route

@[simp] theorem segments_landOn (candidates : List (Route μ)) (route : Route μ) :
    (landOn candidates route).segments = route.segments := by
  unfold landOn
  split
  · exact Route.segments_land ..
  · rfl

theorem equals_landOn (candidates : List (Route μ)) (route : Route μ) :
    (landOn candidates route).equals route = true :=
  Route.equals_iff.mpr (congrArg _ (segments_landOn candidates route))

def Fresh (routes : List (Route μ)) (candidate : Route μ) : Bool :=
  routes.all fun route => candidate.equals route = false

def meet (candidate route : Route μ) : Route μ :=
  if candidate.equals route = true then candidate.land route else route

@[simp] theorem segments_meet (candidate route : Route μ) :
    (meet candidate route).segments = route.segments := by
  unfold meet
  split_ifs
  · exact Route.segments_land ..
  · rfl

theorem equals_meet (candidate other route : Route μ) :
    other.equals (meet candidate route) = other.equals route := by
  simp only [Route.equals, segments_meet]

theorem place_eq {candidate : Route μ} {routes : List (Route μ)} (h : Distinct routes) :
    place candidate candidate.land routes = routes.map (meet candidate) ++
      if Fresh routes candidate = true then [candidate] else [] := by
  induction routes with
  | nil => rfl
  | cons route routes ih =>
    obtain ⟨hroute, hroutes⟩ := List.pairwise_cons.mp h
    by_cases hequals : candidate.equals route = true
    · -- no other route is equal to the one that is merged
      have hrest : routes.map (meet candidate) = routes := by
        refine (List.map_congr_left fun other hother => if_neg fun hcandidate => ?_).trans (List.map_id _)
        have hsame := Route.equals_trans (Route.equals_symm hequals) hcandidate
        exact nomatch (hroute other hother).symm.trans hsame
      simp only [place, meet, hequals, if_true, List.map_cons, hrest, Fresh, List.all_cons,
        Bool.true_eq_false, decide_false, Bool.false_and, Bool.false_eq_true, if_false,
        List.append_nil]
    · have hfresh : Fresh (route :: routes) candidate = Fresh routes candidate := by
        simp only [Fresh, List.all_cons, Bool.eq_false_iff.mpr hequals, decide_true, Bool.true_and]
      rw [place, if_neg hequals, ih hroutes, hfresh, List.map_cons, meet, if_neg hequals]
      rfl

theorem landOn_cons (candidate : Route μ) (candidates : List (Route μ)) (route : Route μ) :
    landOn (candidate :: candidates) route =
      if candidate.equals route = true then candidate.land route else landOn candidates route := by
  by_cases h : candidate.equals route = true
  · simp only [landOn, List.find?_cons, h, if_true]
  · simp only [landOn, List.find?_cons, Bool.eq_false_iff.mpr h, Bool.false_eq_true, if_false]

theorem landOn_of_forall {candidates : List (Route μ)} {route : Route μ}
    (h : ∀ candidate ∈ candidates, candidate.equals route = false) : landOn candidates route = route := by
  have hnone : candidates.find? (·.equals route) = none :=
    List.find?_eq_none.mpr fun candidate hc => Bool.eq_false_iff.mp (h candidate hc)
  simp only [landOn, hnone]

theorem landOn_meet {candidate : Route μ} {candidates : List (Route μ)}
    (h : Distinct (candidate :: candidates)) (route : Route μ) :
    landOn candidates (meet candidate route) = landOn (candidate :: candidates) route := by
  rw [landOn_cons, meet]
  split_ifs with hroute
  · -- what equals the route that was landed on equals the candidate that did
    refine landOn_of_forall fun other hother => ?_
    rw [Route.equals_land]
    refine Bool.eq_false_iff.mpr fun hsame => ?_
    have hcandidate := Route.equals_trans hroute (Route.equals_symm hsame)
    exact nomatch ((List.pairwise_cons.mp h).1 other hother).symm.trans hcandidate
  · rfl

theorem fresh_meet (candidate other : Route μ) (routes : List (Route μ)) :
    Fresh (routes.map (meet candidate)) other = Fresh routes other := by
  simp only [Fresh, List.all_map, Function.comp_def, equals_meet]

theorem distinct_meet {routes : List (Route μ)} (h : Distinct routes) (candidate : Route μ) :
    Distinct (routes.map (meet candidate)) := by
  refine List.pairwise_map.mpr (h.imp fun hne => ?_)
  simpa only [Route.equals, segments_meet] using hne

theorem Routes.land_eq {candidates routes : List (Route μ)} (hcandidates : Distinct candidates)
    (hroutes : Distinct routes) : Routes.land candidates routes =
      routes.map (landOn candidates) ++ candidates.filter (Fresh routes) := by
  induction candidates generalizing routes with
  | nil =>
    rw [Routes.land, List.filter_nil, List.append_nil]
    exact ((List.map_congr_left fun _ _ => rfl).trans (List.map_id _)).symm
  | cons c cs ih =>
    obtain ⟨hc, hcs⟩ := List.pairwise_cons.mp hcandidates
    have hmap : (routes.map (meet c)).map (landOn cs) = routes.map (landOn (c :: cs)) := by
      rw [List.map_map]
      exact List.map_congr_left fun route _ => landOn_meet hcandidates route
    rw [Routes.land, place_eq hroutes]
    by_cases hfresh : Fresh routes c = true
    · have hlater : ∀ c' ∈ cs, c'.equals c = false := fun c' hc' =>
        Bool.eq_false_iff.mpr fun hsame => nomatch (hc c' hc').symm.trans (Route.equals_symm hsame)
      have hdistinct : Distinct (routes.map (meet c) ++ [c]) := by
        refine List.pairwise_append.mpr ⟨distinct_meet hroutes c, List.pairwise_singleton _ _, ?_⟩
        intro route hroute other hother
        obtain rfl := List.mem_singleton.mp hother
        obtain ⟨old, hold, rfl⟩ := List.mem_map.mp hroute
        have hne : other.equals old = false := of_decide_eq_true (List.all_eq_true.mp hfresh old hold)
        refine Bool.eq_false_iff.mpr fun hsame => ?_
        have hequals := Route.equals_symm hsame
        rw [equals_meet] at hequals
        exact nomatch hne.symm.trans hequals
      have hfilter : cs.filter (Fresh (routes.map (meet c) ++ [c])) = cs.filter (Fresh routes) := by
        refine List.filter_congr fun c' hc' => ?_
        have happend : Fresh (routes.map (meet c) ++ [c]) c' =
            (Fresh (routes.map (meet c)) c' && Fresh [c] c') := List.all_append
        have hlast : Fresh [c] c' = true := by
          simp only [Fresh, List.all_cons, hlater c' hc', decide_true, List.all_nil, Bool.and_self]
        rw [happend, hlast, Bool.and_true, fresh_meet]
      rw [if_pos hfresh, ih hcs hdistinct, hfilter, List.map_append, hmap, List.map_singleton,
        landOn_of_forall hlater, List.filter_cons_of_pos hfresh, List.append_assoc]
      rfl
    · have hfilter : cs.filter (Fresh (routes.map (meet c))) = cs.filter (Fresh routes) :=
        List.filter_congr fun c' _ => fresh_meet c c' routes
      rw [if_neg hfresh, List.append_nil, ih hcs (distinct_meet hroutes c), hfilter, hmap,
        List.filter_cons_of_neg hfresh]

/-! ## Trees -/

@[simp] theorem Node.routes_mk (properties : Properties μ) (routes : List (Route μ)) :
    (Node.mk properties routes).routes = routes := rfl

theorem Node.induction {motive : Node μ → Prop}
    (h : ∀ properties routes, (∀ route ∈ routes, motive route.node) → motive (.mk properties routes))
    (node : Node μ) : motive node :=
  @Node.rec _ motive (fun route => motive route.node)
    (fun routes => ∀ route ∈ routes, motive route.node) h (fun _ _ ih => ih)
    (fun _ hmem => absurd hmem List.not_mem_nil)
    (fun _ _ ih ihs => List.forall_mem_cons.mpr ⟨ih, ihs⟩) node

inductive Node.All (P : Node μ → Prop) : Node μ → Prop
  | mk {node : Node μ} : P node → (∀ route ∈ node.routes, Node.All P route.node) → Node.All P node

theorem Node.All.here {P : Node μ → Prop} {node : Node μ} (h : node.All P) : P node := by
  cases h with
  | mk h _ => exact h

theorem Node.All.child {P : Node μ → Prop} {node : Node μ} (h : node.All P) {route : Route μ}
    (hroute : route ∈ node.routes) : route.node.All P := by
  cases h with
  | mk _ h => exact h route hroute

/-- A node whose routes are in the order they are tried, no two of them equal, and that serves. -/
structure Ordered (now : ℤ) (node : Node μ) : Prop where
  sorted : node.routes.Pairwise Route.Before
  distinct : Distinct node.routes
  serves : node.expired now = false

/-- A node of a tree that is not changed by what is merged into it but where it says so. -/
structure Trunk (now : ℤ) (node : Node μ) : Prop extends Ordered now node where
  kept : node.properties.protected = true

structure Created (now : ℤ) (node : Node μ) : Prop extends Ordered now node where
  intermediate : node.properties.intermediate = node.routes.any (·.root)

theorem Node.created_new {now : ℤ} {routes : List (Route μ)} {methods : List (String × μ)}
    {«protected» : Bool} {forward : Option String} {expiration : Option ℤ} (hroutes : Distinct routes)
    (hserves : expiration.any (· ≤ now) = false) :
    Created now (Node.new routes methods «protected» forward expiration) where
  sorted := pairwise_sort routes
  distinct := (List.perm_insertionSort Route.Before routes).symm.pairwise hroutes
    Route.equals_false_symm
  serves := hserves
  intermediate := by
    have hany : routes.any (·.root) = (sort routes).any (·.root) := by
      rw [Bool.eq_iff_iff, List.any_eq_true, List.any_eq_true]
      simp only [mem_sort]
    exact hany

theorem Node.All.new {P : Node μ → Prop} {routes : List (Route μ)} {methods : List (String × μ)}
    {«protected» : Bool} {forward : Option String} {expiration : Option ℤ}
    (h : P (Node.new routes methods «protected» forward expiration))
    (hroutes : ∀ route ∈ routes, route.node.All P) :
    (Node.new routes methods «protected» forward expiration).All P :=
  .mk h fun route hroute => hroutes route (mem_sort.mp hroute)

/-! ## What one route leads a path to -/

section
variable {decodeURIComponent : String → Option String} {now : ℤ}

theorem Node.answers_eq (node : Node μ) (fragments : List String) (parameters : List Parameter)
    (segments : List Segment) :
    node.answers decodeURIComponent now fragments parameters segments =
      node.routes.flatMap (·.answers decodeURIComponent now fragments parameters segments) := by
  obtain ⟨properties, routes⟩ := node
  rw [Node.answers, Node.routes]
  induction routes with
  | nil => rfl
  | cons route routes ih => rw [Routes.answers, ih, List.flatMap_cons]

variable {route other : Route μ} {fragments : List String} {parameters : List Parameter}
  {segments : List Segment} {captured : List Parameter}

theorem Route.answers_expired (h : route.node.expired now = true) :
    route.answers decodeURIComponent now fragments parameters segments = [] := by
  obtain ⟨own, node⟩ := route
  rw [Route.answers]
  exact if_pos h

theorem Route.answers_missed (h : route.captured decodeURIComponent fragments = none) :
    route.answers decodeURIComponent now fragments parameters segments = [] := by
  obtain ⟨own, node⟩ := route
  rw [Route.answers, h]
  exact ite_self _

theorem Route.answers_ends (hserves : route.node.expired now = false)
    (hcaptured : route.captured decodeURIComponent fragments = some captured)
    (hends : route.ends fragments = true) :
    route.answers decodeURIComponent now fragments parameters segments =
      [⟨route.node, parameters ++ captured, template (segments ++ route.segments)⟩] := by
  obtain ⟨own, node⟩ := route
  rw [Route.answers, hcaptured]
  exact (if_neg (Bool.eq_false_iff.mp hserves)).trans (if_pos hends)

theorem Route.answers_nested (hserves : route.node.expired now = false)
    (hcaptured : route.captured decodeURIComponent fragments = some captured)
    (hends : route.ends fragments = false) :
    route.answers decodeURIComponent now fragments parameters segments =
      route.node.answers decodeURIComponent now (fragments.drop route.segments.length)
        (parameters ++ captured) (segments ++ route.segments) := by
  obtain ⟨own, node⟩ := route
  rw [Route.answers, hcaptured]
  exact (if_neg (Bool.eq_false_iff.mp hserves)).trans (if_neg (Bool.eq_false_iff.mp hends))

theorem Route.ends_iff : route.ends fragments = true ↔
    route.segments.length = fragments.length ∧ route.node.properties.intermediate = false ∨
      route.wildcard = true := decide_eq_true_iff

theorem capture_isSome {tail tail' : String} {own own' : List Segment}
    (h : own.map Segment.literal = own'.map Segment.literal) (fragments : List String) :
    (capture decodeURIComponent tail own fragments).isSome =
      (capture decodeURIComponent tail' own' fragments).isSome := by
  induction own generalizing own' fragments with
  | nil =>
    obtain rfl := List.map_eq_nil_iff.mp h.symm
    rfl
  | cons segment own ih =>
    obtain ⟨segment', own', rfl, hsegment, hown⟩ := List.map_eq_cons_iff.mp h.symm
    have hrest := ih hown.symm fragments.tail
    cases segment <;> cases segment' <;>
      simp only [Segment.literal, reduceCtorEq, Option.some.injEq] at hsegment <;>
      simp only [capture, Option.isSome_map, hrest]
    -- two literals
    subst hsegment
    split
    · exact hrest
    · rfl

theorem Route.captured_isSome (h : route.equals other = true) :
    (route.captured decodeURIComponent fragments).isSome =
      (other.captured decodeURIComponent fragments).isSome :=
  capture_isSome (Route.equals_iff.mp h) fragments

theorem Route.captured_none (h : route.equals other = true)
    (hnone : route.captured decodeURIComponent fragments = none) :
    other.captured decodeURIComponent fragments = none := by
  have hsome : _ = (other.captured decodeURIComponent fragments).isSome := Route.captured_isSome h
  rwa [hnone, Option.isSome_none, eq_comm, Option.isSome_eq_false_iff, Option.isNone_iff_eq_none]
    at hsome

theorem Route.captured_some (h : route.equals other = true)
    (hsome : route.captured decodeURIComponent fragments = some captured) :
    ∃ theirs, other.captured decodeURIComponent fragments = some theirs := by
  rw [← Option.isSome_iff_exists, ← Route.captured_isSome h, hsome]
  rfl

variable {parameters' : List Parameter} {segments' : List Segment}

theorem Route.answers_eq_nil_of
    (ih : ∀ {fragments parameters parameters' segments segments'},
      route.node.answers decodeURIComponent now fragments parameters segments = [] →
        route.node.answers decodeURIComponent now fragments parameters' segments' = [])
    (h : route.answers decodeURIComponent now fragments parameters segments = []) :
    route.answers decodeURIComponent now fragments parameters' segments' = [] := by
  cases hserves : route.node.expired now with
  | true => exact Route.answers_expired hserves
  | false =>
    cases hcaptured : route.captured decodeURIComponent fragments with
    | none => exact Route.answers_missed hcaptured
    | some captured =>
      cases hends : route.ends fragments with
      | true => exact nomatch (Route.answers_ends hserves hcaptured hends).symm.trans h
      | false =>
        rw [Route.answers_nested hserves hcaptured hends] at h ⊢
        exact ih h

theorem Node.answers_eq_nil (node : Node μ)
    (h : node.answers decodeURIComponent now fragments parameters segments = []) :
    node.answers decodeURIComponent now fragments parameters' segments' = [] := by
  induction node using Node.induction generalizing fragments parameters parameters' segments segments' with
  | h properties routes ih =>
    rw [Node.answers_eq, List.flatMap_eq_nil_iff] at h ⊢
    exact fun route hroute => Route.answers_eq_nil_of (ih route hroute) (h route hroute)

theorem Route.answers_eq_nil (h : route.answers decodeURIComponent now fragments parameters segments = []) :
    route.answers decodeURIComponent now fragments parameters' segments' = [] :=
  Route.answers_eq_nil_of (Node.answers_eq_nil route.node) h

/-- A path that ends at an intermediate node is led to what its `/` route holds. -/
theorem Node.answers_intermediate {node : Node μ} (hnode : node.All (Created now))
    (h : node.properties.intermediate = true) :
    node.answers decodeURIComponent now [] parameters segments ≠ [] := by
  induction node using Node.induction generalizing parameters segments with
  | h properties routes ih =>
    rw [hnode.here.intermediate] at h
    obtain ⟨route, hroute, hroot⟩ := List.any_eq_true.mp h
    have hsegments : route.segments = [] := List.isEmpty_iff.mp hroot
    have hbelow := hnode.child hroute
    have hcaptured : route.captured decodeURIComponent [] = some [] := by
      rw [Route.captured, hsegments]
      rfl
    have hanswers : route.answers decodeURIComponent now [] parameters segments ≠ [] := by
      cases hends : route.ends [] with
      | true =>
        rw [Route.answers_ends hbelow.here.serves hcaptured hends]
        exact List.cons_ne_nil _ _
      | false =>
        have hintermediate : route.node.properties.intermediate = true := by
          refine Bool.eq_true_of_not_eq_false fun hnot => ?_
          have hhere : route.ends [] = true :=
            Route.ends_iff.mpr (.inl ⟨congrArg List.length hsegments, hnot⟩)
          exact nomatch hends.symm.trans hhere
        rw [Route.answers_nested hbelow.here.serves hcaptured hends, List.drop_nil]
        exact ih route hroute hbelow hintermediate
    rw [Node.answers_eq]
    exact fun hnil => hanswers (List.flatMap_eq_nil_iff.mp hnil route hroute)

end

/-! ## Merging a branch -/

theorem Node.intermediate_merge (node branch : Node μ) :
    (node.merge branch).properties.intermediate = branch.properties.intermediate := by
  obtain ⟨properties, routes⟩ := node
  obtain ⟨own, candidates⟩ := branch
  rw [Node.merge, Node.land]
  split <;> rfl

theorem Node.routes_merge {now : ℤ} {node branch : Node μ} (hnode : Trunk now node)
    (hbranch : Ordered now branch) : (node.merge branch).routes =
      sort (node.routes.map (landOn branch.routes) ++ branch.routes.filter (Fresh node.routes)) := by
  obtain ⟨properties, routes⟩ := node
  obtain ⟨own, candidates⟩ := branch
  have hkept : properties.protected = true := hnode.kept
  rw [Node.merge, Node.land, if_pos hkept]
  exact congrArg sort (Routes.land_eq hbranch.distinct hnode.distinct)

theorem Node.expired_merge {now : ℤ} {node : Node μ} (hnode : Trunk now node) (branch : Node μ) :
    (node.merge branch).expired now = false := by
  refine Eq.trans ?_ hnode.serves
  obtain ⟨properties, routes⟩ := node
  obtain ⟨own, candidates⟩ := branch
  have hkept : properties.protected = true := hnode.kept
  rw [Node.merge, Node.land, if_pos hkept]
  rfl

section
variable {decodeURIComponent : String → Option String} {now : ℤ} {route candidate : Route μ}
  {fragments : List String} {parameters : List Parameter} {segments : List Segment}

theorem Route.captured_land : (candidate.land route).captured decodeURIComponent fragments =
    route.captured decodeURIComponent fragments := by
  simp only [Route.captured, Route.segments_land]

theorem Route.wildcard_land : (candidate.land route).wildcard = route.wildcard := by
  simp only [Route.wildcard, Route.segments_land]

end

/-! ## What the tree alone leads a path to -/

structure Kept (m m' : Match μ) : Prop where
  parameters : m'.parameters = m.parameters
  route : m'.route = m.route
  node : m'.node = m.node ∨ ∃ branch, m'.node = m.node.merge branch

theorem Kept.refl (m : Match μ) : Kept m m := ⟨rfl, rfl, .inl rfl⟩

theorem forall₂_flatMap {α β : Type*} {R : β → β → Prop} {f g : α → List β} {l : List α}
    (h : ∀ a ∈ l, List.Forall₂ R (f a) (g a)) : List.Forall₂ R (l.flatMap f) (l.flatMap g) := by
  induction l with
  | nil => exact .nil
  | cons a l ih =>
    obtain ⟨ha, hl⟩ := List.forall_mem_cons.mp h
    exact List.rel_append ha (ih hl)

theorem forall₂_head {α : Type*} {R : α → α → Prop} {l l' : List α} (h : List.Forall₂ R l l') {a : α}
    (ha : l.head? = some a) : ∃ a', l'.head? = some a' ∧ R a a' := by
  cases h with
  | nil => exact nomatch ha
  | cons hhead _ => exact ⟨_, rfl, Option.some.inj ha ▸ hhead⟩

section
variable {decodeURIComponent : String → Option String} {now : ℤ} {fragments : List String}
  {parameters : List Parameter} {segments : List Segment}

theorem Route.answers_land_kept {route candidate : Route μ} (hroute : route.node.All (Trunk now))
    (hcandidate : candidate.node.All (Created now)) (hequals : candidate.equals route = true)
    (hnone : candidate.answers decodeURIComponent now fragments parameters segments = [])
    (ih : ∀ {fragments parameters segments},
      candidate.node.answers decodeURIComponent now fragments parameters segments = [] →
        List.Forall₂ Kept (route.node.answers decodeURIComponent now fragments parameters segments)
          ((route.node.merge candidate.node).answers decodeURIComponent now fragments parameters
            segments)) :
    List.Forall₂ Kept (route.answers decodeURIComponent now fragments parameters segments)
      ((candidate.land route).answers decodeURIComponent now fragments parameters segments) := by
  have hserves : (candidate.land route).node.expired now = false := by
    rw [Route.node_land]
    exact Node.expired_merge hroute.here candidate.node
  cases hcaptured : route.captured decodeURIComponent fragments with
  | none =>
    rw [Route.answers_missed hcaptured, Route.answers_missed (Route.captured_land.trans hcaptured)]
    exact .nil
  | some captured =>
    have hlanded : (candidate.land route).captured decodeURIComponent fragments = some captured :=
      Route.captured_land.trans hcaptured
    obtain ⟨theirs, htheirs⟩ := Route.captured_some (Route.equals_symm hequals) hcaptured
    -- the candidate takes the fragments too, so it is below it that they lead nowhere
    have hpast : candidate.ends fragments = false := by
      refine Bool.eq_false_iff.mpr fun hends => ?_
      exact nomatch (Route.answers_ends hcandidate.here.serves htheirs hends).symm.trans hnone
    rw [Route.answers_nested hcandidate.here.serves htheirs hpast] at hnone
    have hlength : route.segments.length = candidate.segments.length :=
      (Route.equals_length hequals).symm
    -- were its own place the end of the path, its `/` route would be led to
    have hshort : route.segments.length ≠ fragments.length := by
      intro hexact
      have hintermediate : candidate.node.properties.intermediate = true := by
        refine Bool.eq_true_of_not_eq_false fun hnot => ?_
        have hends := Route.ends_iff.mpr (.inl ⟨hlength.symm.trans hexact, hnot⟩)
        exact nomatch hpast.symm.trans hends
      rw [hlength] at hexact
      rw [hexact, List.drop_length] at hnone
      exact Node.answers_intermediate hcandidate hintermediate hnone
    have hends : (candidate.land route).ends fragments = route.ends fragments := by
      refine Bool.eq_iff_iff.mpr ?_
      rw [Route.ends_iff, Route.ends_iff, Route.wildcard_land, Route.segments_land]
      simp only [hshort, false_and, false_or]
    cases hhere : route.ends fragments with
    | true =>
      rw [Route.answers_ends hroute.here.serves hcaptured hhere,
        Route.answers_ends hserves hlanded (hends.trans hhere), Route.segments_land,
        Route.node_land]
      exact .cons ⟨rfl, rfl, .inr ⟨candidate.node, rfl⟩⟩ .nil
    | false =>
      rw [Route.answers_nested hroute.here.serves hcaptured hhere,
        Route.answers_nested hserves hlanded (hends.trans hhere), Route.segments_land,
        Route.node_land]
      rw [hlength] at *
      exact ih (Node.answers_eq_nil candidate.node hnone)

theorem Node.answers_merge_kept {node branch : Node μ} (hnode : node.All (Trunk now))
    (hbranch : branch.All (Created now))
    (hnone : branch.answers decodeURIComponent now fragments parameters segments = []) :
    List.Forall₂ Kept (node.answers decodeURIComponent now fragments parameters segments)
      ((node.merge branch).answers decodeURIComponent now fragments parameters segments) := by
  induction node using Node.induction generalizing branch fragments parameters segments with
  | h properties routes ih =>
    rw [Node.answers_eq, List.flatMap_eq_nil_iff] at hnone
    have hsorted : (routes.map (landOn branch.routes)).Pairwise Route.Before :=
      List.pairwise_map.mpr (hnode.here.sorted.imp fun h =>
        (before_of_equals (equals_landOn ..) (equals_landOn ..)).mpr h)
    have hfresh : ∀ candidate ∈ branch.routes.filter (Fresh routes),
        candidate.answers decodeURIComponent now fragments parameters segments = [] :=
      fun candidate hcandidate => hnone candidate (List.mem_of_mem_filter hcandidate)
    rw [Node.answers_eq, Node.answers_eq, Node.routes_merge hnode.here hbranch.here.toOrdered, sort,
      Node.routes_mk, flatMap_insertionSort hsorted hfresh, List.flatMap_map]
    refine forall₂_flatMap fun route hroute => ?_
    unfold landOn
    split
    · rename_i candidate hfind
      have hcandidate := List.mem_of_find?_eq_some hfind
      have hequals : candidate.equals route = true := by simpa using List.find?_some hfind
      exact Route.answers_land_kept (hnode.child hroute) (hbranch.child hcandidate) hequals
        (hnone candidate hcandidate)
        fun h => ih route hroute (hnode.child hroute) (hbranch.child hcandidate) h
    · exact List.forall₂_same.mpr fun m _ => Kept.refl m

end

/-! ## What the branch alone leads a path to -/

structure Landed (m m' : Match μ) : Prop where
  parameters : m'.parameters = m.parameters
  route : m'.route = m.route
  node : m'.node = m.node ∨ ∃ node : Node μ, m'.node = node.merge m.node

theorem Landed.refl (m : Match μ) : Landed m m := ⟨rfl, rfl, .inl rfl⟩

/-- Along a path, the routes of a branch that equal a tree's are spelled as those are. -/
inductive Alike (decodeURIComponent : String → Option String) : Node μ → Node μ → List String → Prop
  | mk {node branch : Node μ} {fragments : List String} :
    (∀ route ∈ node.routes, ∀ candidate ∈ branch.routes, candidate.equals route = true →
      (candidate.captured decodeURIComponent fragments).isSome = true →
        candidate.segments = route.segments) →
    (∀ route ∈ node.routes, ∀ candidate ∈ branch.routes, candidate.equals route = true →
      (candidate.captured decodeURIComponent fragments).isSome = true →
        Alike decodeURIComponent route.node candidate.node
          (fragments.drop candidate.segments.length)) →
    Alike decodeURIComponent node branch fragments

section
variable (decodeURIComponent : String → Option String) (now : ℤ)

/-- A route that leads a path somewhere, and that no other such route comes before. -/
structure First (node : Node μ) (fragments : List String) (route : Route μ) : Prop where
  mem : route ∈ node.routes
  leads : route.answers decodeURIComponent now fragments [] [] ≠ []
  first : ∀ other ∈ node.routes, other.answers decodeURIComponent now fragments [] [] ≠ [] →
    route.Before other

/-- Which route of a node leads a path is not for the order of their declaration to say. -/
inductive Settled : Node μ → List String → Prop
  | mk {node : Node μ} {fragments : List String} :
    (∀ route other, First decodeURIComponent now node fragments route →
      First decodeURIComponent now node fragments other → route = other) →
    (∀ route, First decodeURIComponent now node fragments route → route.ends fragments = false →
      Settled route.node (fragments.drop route.segments.length)) →
    Settled node fragments

theorem Settled.nested {decodeURIComponent : String → Option String} {now : ℤ} {node : Node μ}
    {fragments : List String} (h : Settled decodeURIComponent now node fragments) {route : Route μ}
    (hfirst : First decodeURIComponent now node fragments route) (hends : route.ends fragments = false) :
    Settled decodeURIComponent now route.node (fragments.drop route.segments.length) := by
  cases h with
  | mk _ hbelow => exact hbelow route hfirst hends

theorem Settled.eq {decodeURIComponent : String → Option String} {now : ℤ} {node : Node μ}
    {fragments : List String} (h : Settled decodeURIComponent now node fragments) {route other : Route μ}
    (hroute : First decodeURIComponent now node fragments route)
    (hother : First decodeURIComponent now node fragments other) : route = other := by
  cases h with
  | mk hone _ => exact hone route other hroute hother

end

inductive Lands (routes : List (Route μ)) (candidate : Route μ) : Route μ → Prop
  | own : Fresh routes candidate = true → Lands routes candidate candidate
  | on {route : Route μ} : route ∈ routes → candidate.equals route = true →
    Lands routes candidate (candidate.land route)

theorem Lands.equals {routes : List (Route μ)} {candidate left : Route μ}
    (h : Lands routes candidate left) : candidate.equals left = true := by
  cases h with
  | own _ => exact Route.equals_iff.mpr rfl
  | on _ h => rwa [Route.equals_land]

theorem Lands.unique {routes : List (Route μ)} {candidate left left' : Route μ}
    (hroutes : Distinct routes) (h : Lands routes candidate left)
    (h' : Lands routes candidate left') : left = left' := by
  have hfresh : ∀ route ∈ routes, candidate.equals route = true → Fresh routes candidate = true →
      False := fun route hroute hequals hfresh =>
    nomatch (of_decide_eq_true (List.all_eq_true.mp hfresh route hroute)).symm.trans hequals
  cases h with
  | own hnone =>
    cases h' with
    | own _ => rfl
    | on hroute hequals => exact (hfresh _ hroute hequals hnone).elim
  | @on route hroute hequals =>
    cases h' with
    | own hnone => exact (hfresh _ hroute hequals hnone).elim
    | @on other hother hsame =>
      rw [hroutes.eq hroute hother (Route.equals_trans (Route.equals_symm hequals) hsame)]

theorem exists_lands (routes : List (Route μ)) (candidate : Route μ) :
    ∃ left, Lands routes candidate left := by
  by_cases hfresh : Fresh routes candidate = true
  · exact ⟨candidate, .own hfresh⟩
  · obtain ⟨route, hroute, hequals⟩ : ∃ route ∈ routes, candidate.equals route = true := by
      simpa only [Fresh, List.all_eq_true, decide_eq_true_eq, not_forall, Bool.not_eq_false,
        exists_prop] using hfresh
    exact ⟨candidate.land route, .on hroute hequals⟩

theorem Node.mem_routes_merge {now : ℤ} {node branch : Node μ} (hnode : Trunk now node)
    (hbranch : Ordered now branch) {left : Route μ} : left ∈ (node.merge branch).routes ↔
      (left ∈ node.routes ∧ ∀ candidate ∈ branch.routes, candidate.equals left = false) ∨
        ∃ candidate ∈ branch.routes, Lands node.routes candidate left := by
  rw [Node.routes_merge hnode hbranch, mem_sort, List.mem_append, List.mem_map, List.mem_filter]
  constructor
  · rintro (⟨route, hroute, rfl⟩ | ⟨hcandidate, hfresh⟩)
    · unfold landOn
      split
      · rename_i candidate hfind
        have hequals : candidate.equals route = true := by simpa using List.find?_some hfind
        exact .inr ⟨candidate, List.mem_of_find?_eq_some hfind, .on hroute hequals⟩
      · rename_i hfind
        exact .inl ⟨hroute, fun candidate hcandidate =>
          Bool.eq_false_iff.mpr (List.find?_eq_none.mp hfind candidate hcandidate)⟩
    · exact .inr ⟨left, hcandidate, .own hfresh⟩
  · rintro (⟨hroute, hnone⟩ | ⟨candidate, hcandidate, hlands⟩)
    · exact .inl ⟨left, hroute, landOn_of_forall hnone⟩
    · cases hlands with
      | own hfresh => exact .inr ⟨hcandidate, hfresh⟩
      | @on route hroute hequals =>
        refine .inl ⟨route, hroute, ?_⟩
        unfold landOn
        split
        · -- the first that equals the route is the only one
          rename_i other hfind
          have hother : other.equals route = true := by simpa using List.find?_some hfind
          rw [hbranch.distinct.eq (List.mem_of_find?_eq_some hfind) hcandidate
            (Route.equals_trans hother (Route.equals_symm hequals))]
        · rename_i hfind
          exact absurd hequals (List.find?_eq_none.mp hfind candidate hcandidate)

/-- All that the merged tree leads a path to comes of what the branch does, and if that does at all,
so does the tree. -/
structure Carried (answers left : List (Match μ)) : Prop where
  comes : ∀ m' ∈ left, ∃ m ∈ answers, Landed m m'
  leads : left = [] → answers = []

theorem Carried.refl (answers : List (Match μ)) : Carried answers answers :=
  ⟨fun m hm => ⟨m, hm, .refl m⟩, id⟩

theorem Carried.one {m m' : Match μ} (h : Landed m m') : Carried [m] [m'] where
  comes left hleft := by
    obtain rfl := List.mem_singleton.mp hleft
    exact ⟨m, List.mem_singleton_self m, h⟩
  leads h := absurd h (List.cons_ne_nil _ _)

section
variable {decodeURIComponent : String → Option String} {now : ℤ} {fragments : List String}
  {parameters : List Parameter} {segments : List Segment}

theorem Alike.spelled {node branch : Node μ} (h : Alike decodeURIComponent node branch fragments)
    {route candidate : Route μ} (hroute : route ∈ node.routes) (hcandidate : candidate ∈ branch.routes)
    (hequals : candidate.equals route = true)
    (hcaptured : (candidate.captured decodeURIComponent fragments).isSome = true) :
    candidate.segments = route.segments ∧ Alike decodeURIComponent route.node candidate.node
      (fragments.drop candidate.segments.length) := by
  cases h with
  | mk hspelled hnested =>
    exact ⟨hspelled route hroute candidate hcandidate hequals hcaptured,
      hnested route hroute candidate hcandidate hequals hcaptured⟩

theorem Route.answers_land {route candidate : Route μ} (hroute : Trunk now route.node)
    (hcandidate : candidate.node.expired now = false) (hspelled : candidate.segments = route.segments) :
    (candidate.answers decodeURIComponent now fragments parameters segments = [] ∧
      (candidate.land route).answers decodeURIComponent now fragments parameters segments = []) ∨
    (∃ m m' : Match μ,
      candidate.answers decodeURIComponent now fragments parameters segments = [m] ∧
      (candidate.land route).answers decodeURIComponent now fragments parameters segments = [m'] ∧
      Landed m m') ∨
    (candidate.ends fragments = false ∧ ∃ captured,
      candidate.answers decodeURIComponent now fragments parameters segments =
        candidate.node.answers decodeURIComponent now (fragments.drop candidate.segments.length)
          (parameters ++ captured) (segments ++ candidate.segments) ∧
      (candidate.land route).answers decodeURIComponent now fragments parameters segments =
        (route.node.merge candidate.node).answers decodeURIComponent now
          (fragments.drop candidate.segments.length) (parameters ++ captured)
          (segments ++ candidate.segments)) := by
  have hserves : (candidate.land route).node.expired now = false := by
    rw [Route.node_land]
    exact Node.expired_merge hroute candidate.node
  have hcaptured : (candidate.land route).captured decodeURIComponent fragments =
      candidate.captured decodeURIComponent fragments := by
    simp only [Route.captured, Route.segments_land, hspelled]
  have hends : (candidate.land route).ends fragments = candidate.ends fragments := by
    simp only [Route.ends, Route.wildcard, Route.segments_land, Route.node_land,
      Node.intermediate_merge, hspelled]
  cases hmine : candidate.captured decodeURIComponent fragments with
  | none =>
    exact .inl ⟨Route.answers_missed hmine, Route.answers_missed (hcaptured.trans hmine)⟩
  | some captured =>
    cases hhere : candidate.ends fragments with
    | true =>
      have h : (candidate.land route).answers decodeURIComponent now fragments parameters segments =
          _ := Route.answers_ends hserves (hcaptured.trans hmine) (hends.trans hhere)
      rw [Route.segments_land, Route.node_land, ← hspelled] at h
      exact .inr (.inl ⟨_, _, Route.answers_ends hcandidate hmine hhere, h, rfl, rfl,
        .inr ⟨route.node, rfl⟩⟩)
    | false =>
      refine .inr (.inr ⟨rfl, captured, Route.answers_nested hcandidate hmine hhere, ?_⟩)
      rw [Route.answers_nested hserves (hcaptured.trans hmine) (hends.trans hhere),
        Route.segments_land, Route.node_land, hspelled]

theorem Route.answers_below {route : Route μ} {captured : List Parameter}
    (hroute : route.node.expired now = false)
    (hcaptured : route.captured decodeURIComponent fragments = some captured)
    (hnone : route.answers decodeURIComponent now fragments parameters segments = []) :
    route.node.answers decodeURIComponent now (fragments.drop route.segments.length) parameters
      segments = [] := by
  cases hends : route.ends fragments with
  | true => exact nomatch (Route.answers_ends hroute hcaptured hends).symm.trans hnone
  | false =>
    rw [Route.answers_nested hroute hcaptured hends] at hnone
    exact Node.answers_eq_nil route.node hnone

theorem Lands.answers {R : List (Match μ) → List (Match μ) → Prop} (hrefl : ∀ answers, R answers answers)
    (hone : ∀ {m m' : Match μ}, Landed m m' → R [m] [m']) {node branch : Node μ}
    (hnode : node.All (Trunk now)) (hbranch : branch.All (Created now))
    (halike : Alike decodeURIComponent node branch fragments)
    (hnone : ∀ route ∈ node.routes,
      route.answers decodeURIComponent now fragments parameters segments = [])
    {candidate left : Route μ} (hcandidate : candidate ∈ branch.routes)
    (hlands : Lands node.routes candidate left)
    (ih : candidate.ends fragments = false → ∀ route ∈ node.routes, ∀ {parameters segments},
      Alike decodeURIComponent route.node candidate.node
        (fragments.drop candidate.segments.length) →
      route.node.answers decodeURIComponent now (fragments.drop candidate.segments.length) parameters
        segments = [] →
      R (candidate.node.answers decodeURIComponent now (fragments.drop candidate.segments.length)
          parameters segments)
        ((route.node.merge candidate.node).answers decodeURIComponent now
          (fragments.drop candidate.segments.length) parameters segments)) :
    R (candidate.answers decodeURIComponent now fragments parameters segments)
      (left.answers decodeURIComponent now fragments parameters segments) := by
  have hcreated := hbranch.child hcandidate
  cases hlands with
  | own _ => exact hrefl _
  | @on route hroute hequals =>
    have htrunk := hnode.child hroute
    cases hmine : candidate.captured decodeURIComponent fragments with
    | none =>
      have htheirs := Route.captured_none hequals hmine
      rw [Route.answers_missed hmine, Route.answers_missed (Route.captured_land.trans htheirs)]
      exact hrefl _
    | some captured =>
      obtain ⟨theirs, htheirs⟩ := Route.captured_some hequals hmine
      obtain ⟨hspelled, hbelow⟩ := halike.spelled hroute hcandidate hequals (by rw [hmine]; rfl)
      rcases Route.answers_land htrunk.here hcreated.here.serves hspelled with
        ⟨h, h'⟩ | ⟨m, m', h, h', hm⟩ | ⟨hends, captured, h, h'⟩
      · rw [h, h']
        exact hrefl _
      · rw [h, h']
        exact hone hm
      · have hempty := Route.answers_below htrunk.here.serves htheirs (hnone route hroute)
        rw [h, h']
        rw [← hspelled] at hempty
        exact ih hends route hroute hbelow (Node.answers_eq_nil route.node hempty)

theorem Node.answers_merge_carried {node branch : Node μ} (hnode : node.All (Trunk now))
    (hbranch : branch.All (Created now)) (halike : Alike decodeURIComponent node branch fragments)
    (hnone : node.answers decodeURIComponent now fragments parameters segments = []) :
    Carried (branch.answers decodeURIComponent now fragments parameters segments)
      ((node.merge branch).answers decodeURIComponent now fragments parameters segments) := by
  induction branch using Node.induction generalizing node fragments parameters segments with
  | h properties candidates ih =>
    rw [Node.answers_eq, List.flatMap_eq_nil_iff] at hnone
    have hmem := @Node.mem_routes_merge _ _ _ _ hnode.here hbranch.here.toOrdered
    have hcarried : ∀ candidate ∈ candidates, ∀ left, Lands node.routes candidate left →
        Carried (candidate.answers decodeURIComponent now fragments parameters segments)
          (left.answers decodeURIComponent now fragments parameters segments) :=
      fun candidate hcandidate left hleft =>
        Lands.answers Carried.refl Carried.one hnode hbranch halike hnone hcandidate hleft
          fun _ route hroute => ih candidate hcandidate (hnode.child hroute) (hbranch.child hcandidate)
    rw [Node.answers_eq, Node.answers_eq]
    constructor
    · intro m' hm'
      obtain ⟨left, hleft, hm'⟩ := List.mem_flatMap.mp hm'
      rcases hmem.mp hleft with ⟨hroute, -⟩ | ⟨candidate, hcandidate, h⟩
      · rw [hnone left hroute] at hm'
        exact absurd hm' List.not_mem_nil
      · obtain ⟨m, hm, hlanded⟩ := (hcarried candidate hcandidate left h).comes m' hm'
        exact ⟨m, List.mem_flatMap.mpr ⟨candidate, hcandidate, hm⟩, hlanded⟩
    · intro h
      rw [List.flatMap_eq_nil_iff] at h ⊢
      intro candidate hcandidate
      obtain ⟨left, hleft⟩ := exists_lands node.routes candidate
      exact (hcarried candidate hcandidate left hleft).leads
        (h left (hmem.mpr (.inr ⟨candidate, hcandidate, hleft⟩)))

theorem Lands.carried {node branch : Node μ} (hnode : node.All (Trunk now))
    (hbranch : branch.All (Created now)) (halike : Alike decodeURIComponent node branch fragments)
    (hnone : ∀ route ∈ node.routes,
      route.answers decodeURIComponent now fragments parameters segments = [])
    {candidate left : Route μ} (hcandidate : candidate ∈ branch.routes)
    (hlands : Lands node.routes candidate left) :
    Carried (candidate.answers decodeURIComponent now fragments parameters segments)
      (left.answers decodeURIComponent now fragments parameters segments) :=
  hlands.answers Carried.refl Carried.one hnode hbranch halike hnone hcandidate
    fun _ _ hroute => Node.answers_merge_carried (hnode.child hroute) (hbranch.child hcandidate)

theorem Node.head_merge_carried {node branch : Node μ} (hnode : node.All (Trunk now))
    (hbranch : branch.All (Created now)) (halike : Alike decodeURIComponent node branch fragments)
    (hsettled : Settled decodeURIComponent now branch fragments)
    (hnone : node.answers decodeURIComponent now fragments parameters segments = []) {m : Match μ}
    (hm : (branch.answers decodeURIComponent now fragments parameters segments).head? = some m) :
    ∃ m', ((node.merge branch).answers decodeURIComponent now fragments parameters segments).head? =
      some m' ∧ Landed m m' := by
  induction branch using Node.induction generalizing node fragments parameters segments m with
  | h properties candidates ih =>
    have hmem := @Node.mem_routes_merge _ _ _ _ hnode.here hbranch.here.toOrdered
    rw [Node.answers_eq, List.flatMap_eq_nil_iff] at hnone
    rw [Node.answers_eq] at hm
    obtain ⟨candidate, hcandidate, hhead, hbefore⟩ := exists_head_flatMap hbranch.here.sorted hm
    have hfirst : First decodeURIComponent now (.mk properties candidates) fragments candidate := by
      refine ⟨hcandidate, fun h => ?_, fun other hother hleads => ?_⟩
      · rw [Route.answers_eq_nil h] at hhead
        exact nomatch hhead
      · rcases hbefore other hother fun h => hleads (Route.answers_eq_nil h) with rfl | h
        · exact before_refl other
        · exact h
    obtain ⟨left, hleft⟩ := exists_lands node.routes candidate
    have hR := Lands.answers
      (R := fun answers left => ∀ m, answers.head? = some m → ∃ m', left.head? = some m' ∧ Landed m m')
      (fun _ m hm => ⟨m, hm, .refl m⟩)
      (fun hlanded _ hm => ⟨_, rfl, Option.some.inj hm ▸ hlanded⟩)
      hnode hbranch halike hnone hcandidate hleft
      (fun hends route hroute _ _ halike hnone _ hm => ih candidate hcandidate (hnode.child hroute)
        (hbranch.child hcandidate) halike (hsettled.nested hfirst hends) hnone hm)
    obtain ⟨m', hm', hlanded⟩ := hR m hhead
    refine ⟨m', ?_, hlanded⟩
    have hsorted : (node.merge (.mk properties candidates)).routes.Pairwise Route.Before := by
      rw [Node.routes_merge hnode.here hbranch.here.toOrdered]
      exact pairwise_sort _
    have hsome : left.answers decodeURIComponent now fragments parameters segments ≠ [] := by
      intro h
      rw [h] at hm'
      exact nomatch hm'
    rw [Node.answers_eq, ← hm']
    refine head_flatMap hsorted (hmem.mpr (.inr ⟨candidate, hcandidate, hleft⟩)) ?_ hsome
    intro other hother hleads hbeforeleft
    rcases hmem.mp hother with ⟨hroute, -⟩ | ⟨theirs, htheirs, hlands⟩
    · exact absurd (hnone other hroute) hleads
    · -- what leads the path as early as the first does is the first
      have hcarried := hlands.carried hnode hbranch halike hnone htheirs
      have htheirsleads : theirs.answers decodeURIComponent now fragments [] [] ≠ [] := by
        intro h
        refine hleads (List.eq_nil_iff_forall_not_mem.mpr fun m' hm' => ?_)
        obtain ⟨m, hm, -⟩ := hcarried.comes m' hm'
        rw [Route.answers_eq_nil h] at hm
        exact List.not_mem_nil hm
      have hearly : theirs.Before candidate :=
        (before_of_equals hlands.equals hleft.equals).mpr hbeforeleft
      have htheirsfirst : First decodeURIComponent now (.mk properties candidates) fragments theirs :=
        ⟨htheirs, htheirsleads, fun other hother h => IsTrans.trans _ _ _ hearly (hfirst.first other hother h)⟩
      obtain rfl := hsettled.eq htheirsfirst hfirst
      exact hlands.unique hnode.here.distinct hleft

theorem matchPath_eq {node : Node μ} {path : String} (hpath : path ≠ "/") :
    matchPath decodeURIComponent now node path =
      (node.answers decodeURIComponent now (fragment path) [] []).head? := by
  rw [matchPath, if_neg hpath, Node.find_eq]

/-- A merge is a union of what the two trees match: a path that only the tree matches is matched by
its node still, and one that only the branch matches by a node of the branch that it leads the path
to, which is its own match unless routes of one priority lead the path. -/
theorem merge_union {node branch : Node μ} (hnode : node.All (Trunk now))
    (hbranch : branch.All (Created now)) {path : String} (hpath : path ≠ "/") {m : Match μ} :
    (matchPath decodeURIComponent now node path = some m →
      matchPath decodeURIComponent now branch path = none →
      ∃ m', matchPath decodeURIComponent now (node.merge branch) path = some m' ∧ Kept m m') ∧
    (matchPath decodeURIComponent now branch path = some m →
      matchPath decodeURIComponent now node path = none →
      Alike decodeURIComponent node branch (fragment path) →
      ∃ m', matchPath decodeURIComponent now (node.merge branch) path = some m' ∧
        (∃ theirs ∈ branch.answers decodeURIComponent now (fragment path) [] [], Landed theirs m') ∧
        (Settled decodeURIComponent now branch (fragment path) → Landed m m')) := by
  rw [matchPath_eq hpath, matchPath_eq hpath, matchPath_eq hpath]
  constructor
  · intro hm hnone
    exact forall₂_head (Node.answers_merge_kept hnode hbranch (List.head?_eq_none_iff.mp hnone)) hm
  · intro hm hnone halike
    have hnone := List.head?_eq_none_iff.mp hnone
    have hcarried := Node.answers_merge_carried hnode hbranch halike hnone
    cases hhead : ((node.merge branch).answers decodeURIComponent now (fragment path) [] []).head? with
    | none =>
      rw [hcarried.leads (List.head?_eq_none_iff.mp hhead)] at hm
      exact nomatch hm
    | some m' =>
      refine ⟨m', rfl, hcarried.comes m' (List.mem_of_head? hhead), fun hsettled => ?_⟩
      obtain ⟨m₁, hm₁, hlanded⟩ := Node.head_merge_carried hnode hbranch halike hsettled hnone hm
      obtain rfl := Option.some.inj (hhead.symm.trans hm₁)
      exact hlanded

end

def serving («protected» : Bool) (method : ℕ) : Node ℕ :=
  Node.new [] [("GET", method)] «protected» none none

def holding («protected» : Bool) (routes : List (Route ℕ)) : Node ℕ :=
  Node.new routes [] «protected» none none

theorem all_created {P : Node ℕ → Prop} {«protected» : Bool}
    (h : ∀ {node}, Created 0 node → node.properties.protected = «protected» → P node) :
    (∀ method, (serving «protected» method).All P) ∧ ∀ routes, Distinct routes →
      (∀ route ∈ routes, route.node.All P) → (holding «protected» routes).All P :=
  ⟨fun _ => .new (h (Node.created_new .nil rfl) rfl) fun _ hroute => absurd hroute List.not_mem_nil,
    fun _ hdistinct hroutes => .new (h (Node.created_new hdistinct rfl) rfl) hroutes⟩

/-- Of two routes of one priority that a branch declares, the tree may have the second first. -/
theorem later_route_matches : ∃ node branch : Node ℕ, node.All (Trunk 0) ∧ branch.All (Created 0) ∧
    matchPath some 0 node "/a/b/c" = none ∧
      (∃ m, matchPath some 0 branch "/a/b/c" = some m ∧ m.parameters = [⟨"x", "b"⟩] ∧
        m.node.properties.methods = [("GET", 1)]) ∧
      ∃ m, matchPath some 0 (node.merge branch) "/a/b/c" = some m ∧ m.parameters = [⟨"y", "a"⟩] ∧
        m.node.properties.methods = [("GET", 2)] := by
  have htree := @all_created (Trunk 0) true fun h hkept => ⟨h.toOrdered, hkept⟩
  have hbranch := @all_created (Created 0) false fun h _ => h
  refine ⟨holding true [.mk [.placeholder "y", .fragment "b"]
      (holding true [.mk [.fragment "d"] (serving true 0)])],
    holding false [.mk [.fragment "a", .placeholder "x"]
        (holding false [.mk [.fragment "c"] (serving false 1)]),
      .mk [.placeholder "y", .fragment "b"]
        (holding false [.mk [.fragment "c"] (serving false 2)])],
    ?_, ?_, rfl, ⟨_, rfl, rfl, rfl⟩, ⟨_, rfl, rfl, rfl⟩⟩
  · refine htree.2 _ (by decide) (List.forall_mem_singleton.mpr ?_)
    exact htree.2 _ (by decide) (List.forall_mem_singleton.mpr (htree.1 0))
  · refine hbranch.2 _ (by decide) (List.forall_mem_cons.mpr ⟨?_, List.forall_mem_singleton.mpr ?_⟩)
    · exact hbranch.2 _ (by decide) (List.forall_mem_singleton.mpr (hbranch.1 1))
    · exact hbranch.2 _ (by decide) (List.forall_mem_singleton.mpr (hbranch.1 2))

theorem merge_union_sibling : ∃ node branch : Node ℕ,
    (∃ m, matchPath some 0 node "/7/d" = some m ∧ ∃ m', matchPath some 0 (node.merge branch) "/7/d" =
      some m' ∧ Kept m m') ∧
    ∃ m, matchPath some 0 branch "/7/c" = some m ∧ ∃ m', matchPath some 0 (node.merge branch) "/7/c" =
      some m' ∧ Landed m m' := by
  have htree := @all_created (Trunk 0) true fun h hkept => ⟨h.toOrdered, hkept⟩
  have hbranch := @all_created (Created 0) false fun h _ => h
  let node := holding true [.mk [.placeholder "x"]
    (holding true [.mk [.fragment "d"] (serving true 0)])]
  let branch := holding false [.mk [.placeholder "x"]
    (holding false [.mk [.fragment "c"] (serving false 1)])]
  have hnode : node.All (Trunk 0) :=
    htree.2 _ (by decide) (List.forall_mem_singleton.mpr
      (htree.2 _ (by decide) (List.forall_mem_singleton.mpr (htree.1 0))))
  have hcreated : branch.All (Created 0) :=
    hbranch.2 _ (by decide) (List.forall_mem_singleton.mpr
      (hbranch.2 _ (by decide) (List.forall_mem_singleton.mpr (hbranch.1 1))))
  have halike : Alike some node branch (fragment "/7/c") := by
    refine .mk ?_ ?_
    · exact List.forall_mem_singleton.mpr (List.forall_mem_singleton.mpr fun _ _ => rfl)
    · refine List.forall_mem_singleton.mpr (List.forall_mem_singleton.mpr fun _ _ => .mk ?_ ?_)
      · exact List.forall_mem_singleton.mpr (List.forall_mem_singleton.mpr fun h => nomatch h)
      · exact List.forall_mem_singleton.mpr (List.forall_mem_singleton.mpr fun h => nomatch h)
  -- each node on the way has one route
  have hsettled : Settled some 0 branch (fragment "/7/c") := by
    refine .mk ?_ fun route hroute _ => ?_
    · exact fun route other h h' => (List.mem_singleton.mp h.mem).trans (List.mem_singleton.mp h'.mem).symm
    · obtain rfl := List.mem_singleton.mp hroute.mem
      refine .mk ?_ fun route hroute _ => ?_
      · exact fun route other h h' =>
          (List.mem_singleton.mp h.mem).trans (List.mem_singleton.mp h'.mem).symm
      · obtain rfl := List.mem_singleton.mp hroute.mem
        exact .mk (fun _ _ h => absurd h.mem List.not_mem_nil) fun _ h =>
          absurd h.mem List.not_mem_nil
  have hkept := (@merge_union _ some 0 node branch hnode hcreated "/7/d" (by decide) _).1 rfl rfl
  obtain ⟨m', hm', -, hlanded⟩ :=
    (@merge_union _ some 0 node branch hnode hcreated "/7/c" (by decide) _).2 rfl rfl halike
  exact ⟨node, branch, ⟨_, rfl, hkept⟩, _, rfl, m', hm', hlanded hsettled⟩

end Toa.RTD
