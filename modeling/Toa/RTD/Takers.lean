import Toa.RTD.Merge

/-! What a template is taken by. A path that gives the variables of a template values which are no
literals of the tree is led to the nodes that take the template, whatever the values are, and a node
that is walked is one of them unless an earlier one is in its way. -/

namespace Toa.RTD
universe u
variable {μ : Type u}

/-! ## Nodes and their templates -/

structure Place (μ : Type u) where
  segments : List Segment
  node : Node μ

def Place.mounts (place : Place μ) : List (Mount μ) := place.node.mounts place.segments

def Mount.place (mount : Mount μ) : Place μ := ⟨mount.segments, mount.node⟩

mutual
def Node.places : Node μ → List Segment → List (Place μ)
  | .mk properties routes, segments => ⟨segments, .mk properties routes⟩ :: Routes.places routes segments

def Routes.places : List (Route μ) → List Segment → List (Place μ)
  | [], _ => []
  | route :: routes, segments => Route.places route segments ++ Routes.places routes segments

def Route.places : Route μ → List Segment → List (Place μ)
  | .mk own node, segments => Node.places node (segments ++ own)
end

mutual
def Node.literals : Node μ → List String
  | .mk _ routes => Routes.literals routes

def Routes.literals : List (Route μ) → List String
  | [] => []
  | route :: routes => Route.literals route ++ Routes.literals routes

def Route.literals : Route μ → List String
  | .mk own node => own.filterMap Segment.literal ++ Node.literals node
end

/-! ## Templates that are asked -/

def takes : List Segment → List Segment → Bool
  | [], _ => true
  | .fragment s :: own, asked => asked.head? = some (.fragment s) && takes own asked.tail
  | _ :: own, asked => takes own asked.tail

def Route.covers (route : Route μ) (asked : List Segment) : Bool :=
  route.segments.length = asked.length ∧ route.node.properties.intermediate = false ∨
    route.wildcard = true

section
variable (now : ℤ)

mutual
def Node.takers : Node μ → List Segment → List Segment → List (Place μ)
  | .mk _ routes, asked, segments => Routes.takers routes asked segments

def Routes.takers : List (Route μ) → List Segment → List Segment → List (Place μ)
  | [], _, _ => []
  | route :: routes, asked, segments =>
    Route.takers route asked segments ++ Routes.takers routes asked segments

def Route.takers : Route μ → List Segment → List Segment → List (Place μ)
  | .mk own node, asked, segments =>
    if node.expired now = true ∨ takes own asked = false then []
    else if (Route.mk own node).covers asked = true then [⟨segments ++ own, node⟩]
    else Node.takers node (asked.drop own.length) (segments ++ own)
end

def taker (trunk : Node μ) (asked : List Segment) : Option (Place μ) :=
  if asked = [] then some ⟨[], trunk⟩ else (trunk.takers now asked []).head?

def served (trunk : Node μ) (asked : List Segment) (verb : String) : Option μ :=
  (taker now trunk asked).bind fun place => place.node.properties.methods.lookup verb

def reached (decodeURIComponent : String → Option String) (trunk : Node μ) (path verb : String) : Option μ :=
  (matchPath decodeURIComponent now trunk path).bind fun found => found.node.properties.methods.lookup verb

end

def Fit (literals : List String) : Segment → String → Prop
  | .fragment s, text => text = s ∧ '/' ∉ text.toList
  | .placeholder _, text => text ∉ literals ∧ '/' ∉ text.toList
  | _, _ => False

abbrev Fits (literals : List String) : List Segment → List String → Prop := List.Forall₂ (Fit literals)

/-! ## By their routes -/

theorem Node.places_eq (node : Node μ) (segments : List Segment) :
    node.places segments = ⟨segments, node⟩ :: node.routes.flatMap (·.places segments) := by
  obtain ⟨properties, routes⟩ := node
  rw [Node.places, Node.routes_mk]
  congr 1
  induction routes with
  | nil => rfl
  | cons route routes ih => rw [Routes.places, ih, List.flatMap_cons]

theorem Node.literals_eq (node : Node μ) : node.literals = node.routes.flatMap Route.literals := by
  obtain ⟨properties, routes⟩ := node
  rw [Node.literals, Node.routes_mk]
  induction routes with
  | nil => rfl
  | cons route routes ih => rw [Routes.literals, ih, List.flatMap_cons]

theorem Node.takers_eq (now : ℤ) (node : Node μ) (asked segments : List Segment) :
    node.takers now asked segments = node.routes.flatMap (·.takers now asked segments) := by
  obtain ⟨properties, routes⟩ := node
  rw [Node.takers, Node.routes_mk]
  induction routes with
  | nil => rfl
  | cons route routes ih => rw [Routes.takers, ih, List.flatMap_cons]

theorem Node.walk_eq (expired : Node μ → Bool) (node : Node μ) (segments : List Segment) (trunk : Bool) :
    node.walk expired segments trunk =
      (if trunk = true ∨ node.properties.intermediate = false then node.mounts segments else []) ++
        node.routes.flatMap (·.walk expired segments) := by
  obtain ⟨properties, routes⟩ := node
  rw [Node.walk, Node.routes_mk]
  congr 1
  induction routes with
  | nil => rfl
  | cons route routes ih => rw [Routes.walk, ih, List.flatMap_cons]

theorem Route.places_eq (route : Route μ) (segments : List Segment) :
    route.places segments = route.node.places (segments ++ route.segments) := by
  obtain ⟨own, node⟩ := route
  rw [Route.places]
  rfl

section
variable {now : ℤ} {route : Route μ} {asked segments : List Segment}

theorem Route.takers_closed (h : route.node.expired now = true ∨ takes route.segments asked = false) :
    route.takers now asked segments = [] := by
  obtain ⟨own, node⟩ := route
  rw [Route.takers]
  exact if_pos h

theorem Route.takers_covers (hserves : route.node.expired now = false)
    (htakes : takes route.segments asked = true) (hcovers : route.covers asked = true) :
    route.takers now asked segments = [⟨segments ++ route.segments, route.node⟩] := by
  obtain ⟨own, node⟩ := route
  have hopen : ¬(node.expired now = true ∨ takes own asked = false) :=
    not_or.mpr ⟨Bool.eq_false_iff.mp hserves, ne_of_eq_of_ne htakes Bool.true_eq_false.mp⟩
  rw [Route.takers, if_neg hopen]
  exact if_pos hcovers

theorem Route.takers_nested (hserves : route.node.expired now = false)
    (htakes : takes route.segments asked = true) (hcovers : route.covers asked = false) :
    route.takers now asked segments =
      route.node.takers now (asked.drop route.segments.length) (segments ++ route.segments) := by
  obtain ⟨own, node⟩ := route
  have hopen : ¬(node.expired now = true ∨ takes own asked = false) :=
    not_or.mpr ⟨Bool.eq_false_iff.mp hserves, ne_of_eq_of_ne htakes Bool.true_eq_false.mp⟩
  rw [Route.takers, if_neg hopen]
  exact if_neg (Bool.eq_false_iff.mp hcovers)

end

/-! ## Paths -/

section
variable {decodeURIComponent : String → Option String} {now : ℤ} {literals : List String}
  {asked : List Segment} {fragments : List String}

theorem Fits.tail (h : Fits literals asked fragments) : Fits literals asked.tail fragments.tail := by
  cases h with
  | nil => exact .nil
  | cons _ h => exact h

theorem Fits.drop (h : Fits literals asked fragments) (n : ℕ) :
    Fits literals (asked.drop n) (fragments.drop n) := by
  induction n generalizing asked fragments with
  | zero => exact h
  | succ n ih =>
    simpa only [List.drop_tail, List.tail_drop, Nat.succ_eq_add_one, ← List.drop_one, List.drop_drop,
      Nat.add_comm] using ih h.tail

theorem Fits.head (h : Fits literals asked fragments) {s : String} (hs : s ∈ literals) :
    fragments.head? = some s ↔ asked.head? = some (.fragment s) := by
  cases h with
  | nil => simp
  | @cons segment text _ _ hfit _ =>
    simp only [List.head?_cons, Option.some.injEq]
    cases segment with
    | fragment s' => rw [hfit.1, Segment.fragment.injEq]
    | placeholder name =>
      refine ⟨fun heq => absurd (heq ▸ hs) hfit.1, fun heq => nomatch heq⟩
    | star | wildcard => exact hfit.elim

theorem Fits.capture (h : Fits literals asked fragments) (tail : String) {own : List Segment}
    (hown : own.filterMap Segment.literal ⊆ literals) :
    (capture decodeURIComponent tail own fragments).isSome = takes own asked := by
  induction own generalizing asked fragments with
  | nil => rfl
  | cons segment own ih =>
    cases segment with
    | fragment s =>
      have hs : s ∈ literals := hown (List.mem_cons_self ..)
      have hrest := ih h.tail fun s' hs' => hown (List.mem_cons_of_mem _ hs')
      simp only [RTD.capture, takes, h.head hs]
      split
      · rename_i hhead
        rw [hrest, decide_eq_true hhead, Bool.true_and]
      · rename_i hhead
        rw [decide_eq_false hhead, Bool.false_and, Option.isSome_none]
    | placeholder name => simpa only [RTD.capture, takes, Option.isSome_map] using ih h.tail hown
    | star => simpa only [RTD.capture, takes] using ih h.tail hown
    | wildcard => simpa only [RTD.capture, takes, Option.isSome_map] using ih h.tail hown

theorem Fits.ends (h : Fits literals asked fragments) (route : Route μ) :
    route.ends fragments = route.covers asked := by
  rw [Route.ends, Route.covers, h.length_eq]

theorem Route.answers_takers {route : Route μ} {parameters : List Parameter} {segments : List Segment}
    (h : Fits literals asked fragments) (hliterals : route.segments.filterMap Segment.literal ⊆ literals)
    (ih : ∀ {asked fragments parameters segments}, Fits literals asked fragments →
      (route.node.answers decodeURIComponent now fragments parameters segments).map
          (fun found => (found.node, found.route)) =
        (route.node.takers now asked segments).map fun place => (place.node, template place.segments)) :
    (route.answers decodeURIComponent now fragments parameters segments).map
        (fun found => (found.node, found.route)) =
      (route.takers now asked segments).map fun place => (place.node, template place.segments) := by
  have hsome : (route.captured decodeURIComponent fragments).isSome = takes route.segments asked :=
    h.capture _ hliterals
  have hends := h.ends route
  cases hserves : route.node.expired now with
  | true =>
    rw [Route.answers_expired hserves, Route.takers_closed (.inl hserves)]
    rfl
  | false =>
    cases hcaptured : route.captured decodeURIComponent fragments with
    | none =>
      rw [hcaptured] at hsome
      rw [Route.answers_missed hcaptured, Route.takers_closed (.inr hsome.symm)]
      rfl
    | some captured =>
      rw [hcaptured] at hsome
      have htakes : takes route.segments asked = true := hsome.symm
      cases hcovers : route.covers asked with
      | true =>
        rw [Route.answers_ends hserves hcaptured (hends.trans hcovers),
          Route.takers_covers hserves htakes hcovers]
        rfl
      | false =>
        rw [Route.answers_nested hserves hcaptured (hends.trans hcovers),
          Route.takers_nested hserves htakes hcovers]
        exact ih (h.drop route.segments.length)

theorem Node.answers_takers {node : Node μ} {parameters : List Parameter} {segments : List Segment}
    (h : Fits literals asked fragments) (hliterals : node.literals ⊆ literals) :
    (node.answers decodeURIComponent now fragments parameters segments).map
        (fun found => (found.node, found.route)) =
      (node.takers now asked segments).map fun place => (place.node, template place.segments) := by
  induction node using Node.induction generalizing asked fragments parameters segments with
  | h properties routes ih =>
    rw [Node.answers_eq, Node.takers_eq, List.map_flatMap, List.map_flatMap]
    refine List.flatMap_congr fun route hroute => ?_
    have hroutes : route.literals ⊆ literals := fun s hs => hliterals <| by
      rw [Node.literals_eq]
      exact List.mem_flatMap.mpr ⟨route, hroute, hs⟩
    obtain ⟨own, node⟩ := route
    rw [Route.literals] at hroutes
    exact Route.answers_takers h (List.append_subset.mp hroutes).1
      fun h => ih _ hroute h (List.append_subset.mp hroutes).2

end

/-! ## What is walked -/

theorem flatMap_sublist {α β : Type*} {f g : α → List β} {l : List α} (h : ∀ a ∈ l, (f a).Sublist (g a)) :
    (l.flatMap f).Sublist (l.flatMap g) := by
  induction l with
  | nil => exact .slnil
  | cons a l ih =>
    rw [List.flatMap_cons, List.flatMap_cons]
    exact (h a (List.mem_cons_self ..)).append (ih fun b hb => h b (List.mem_cons_of_mem _ hb))

section
variable {expired : Node μ → Bool} {now : ℤ} {node : Node μ} {asked segments : List Segment}

theorem Node.segments_of_mounts {mount : Mount μ} (h : mount ∈ node.mounts segments) :
    mount.segments = segments := by
  obtain ⟨method, -, rfl⟩ := List.mem_map.mp h
  rfl

theorem Route.walk_served {route : Route μ} (h : expired route.node = false) :
    route.walk expired segments = route.node.walk expired (segments ++ route.segments) false := by
  obtain ⟨own, node⟩ := route
  rw [Route.walk]
  exact if_neg (Bool.eq_false_iff.mp h)

theorem Route.walk_expired {route : Route μ} (h : expired route.node = true) :
    route.walk expired segments = [] := by
  obtain ⟨own, node⟩ := route
  rw [Route.walk]
  exact if_pos h

theorem Node.walk_sublist (trunk : Bool) :
    (node.walk expired segments trunk).Sublist ((node.places segments).flatMap Place.mounts) := by
  induction node using Node.induction generalizing segments trunk with
  | h properties routes ih =>
    rw [Node.walk_eq, Node.places_eq, List.flatMap_cons, List.flatMap_assoc]
    refine List.Sublist.append ?_ (flatMap_sublist fun route hroute => ?_)
    · split
      · exact List.Sublist.refl _
      · exact List.nil_sublist _
    · rw [Route.places_eq]
      cases hexpired : expired route.node with
      | true =>
        rw [Route.walk_expired hexpired]
        exact List.nil_sublist _
      | false =>
        rw [Route.walk_served hexpired]
        exact ih route hroute false

theorem Node.walk_extends {mount : Mount μ} {trunk : Bool} (h : mount ∈ node.walk expired segments trunk) :
    segments <+: mount.segments := by
  induction node using Node.induction generalizing segments trunk with
  | h properties routes ih =>
    rw [Node.walk_eq, List.mem_append] at h
    rcases h with h | h
    · split at h
      · exact (Node.segments_of_mounts h).symm ▸ List.prefix_refl _
      · cases h
    · obtain ⟨route, hroute, h⟩ := List.mem_flatMap.mp h
      cases hexpired : expired route.node with
      | true =>
        rw [Route.walk_expired hexpired] at h
        cases h
      | false =>
        rw [Route.walk_served hexpired] at h
        exact (List.prefix_append _ _).trans (ih route hroute h)

/-! ## What is taken -/

theorem takes_append (own rest : List Segment) : takes own (own ++ rest) = true := by
  induction own with
  | nil => rfl
  | cons segment own ih =>
    cases segment <;> simp only [List.cons_append, takes, List.head?_cons, List.tail_cons, ih, decide_true,
      Bool.true_and]

theorem Route.takers_mem {route : Route μ} {place : Place μ} (h : place ∈ route.takers now asked segments) :
    route.node.expired now = false ∧ takes route.segments asked = true ∧
      (route.covers asked = true ∧ place = ⟨segments ++ route.segments, route.node⟩ ∨
        route.covers asked = false ∧ place ∈ route.node.takers now
          (asked.drop route.segments.length) (segments ++ route.segments)) := by
  obtain ⟨own, node⟩ := route
  rw [Route.takers] at h
  split at h
  · cases h
  rename_i hopen
  rw [not_or, Bool.not_eq_true, Bool.not_eq_false] at hopen
  refine ⟨hopen.1, hopen.2, ?_⟩
  split at h
  · rename_i hcovers
    exact .inl ⟨hcovers, List.mem_singleton.mp h⟩
  · rename_i hcovers
    exact .inr ⟨Bool.eq_false_iff.mpr hcovers, h⟩

theorem Node.takers_extends {place : Place μ} (h : place ∈ node.takers now asked segments) :
    segments <+: place.segments := by
  induction node using Node.induction generalizing asked segments with
  | h properties routes ih =>
    rw [Node.takers_eq] at h
    obtain ⟨route, hroute, h⟩ := List.mem_flatMap.mp h
    obtain ⟨-, -, ⟨-, rfl⟩ | ⟨-, h⟩⟩ := Route.takers_mem h
    · exact List.prefix_append _ _
    · exact (List.prefix_append _ _).trans (ih route hroute h)

theorem Node.takers_places {place : Place μ} (h : place ∈ node.takers now asked segments) :
    place ∈ node.places segments := by
  induction node using Node.induction generalizing asked segments with
  | h properties routes ih =>
    rw [Node.takers_eq] at h
    obtain ⟨route, hroute, h⟩ := List.mem_flatMap.mp h
    rw [Node.places_eq]
    refine List.mem_cons_of_mem _ (List.mem_flatMap.mpr ⟨route, hroute, ?_⟩)
    rw [Route.places_eq]
    obtain ⟨-, -, ⟨-, rfl⟩ | ⟨-, h⟩⟩ := Route.takers_mem h
    · rw [Node.places_eq]
      exact List.mem_cons_self ..
    · exact ih route hroute h

theorem Node.takers_length {place : Place μ} (h : place ∈ node.takers now asked segments) :
    segments.length + asked.length ≤ place.segments.length ∨ .wildcard ∈ place.segments := by
  induction node using Node.induction generalizing asked segments with
  | h properties routes ih =>
    rw [Node.takers_eq] at h
    obtain ⟨route, hroute, h⟩ := List.mem_flatMap.mp h
    obtain ⟨-, -, ⟨hcovers, rfl⟩ | ⟨-, h⟩⟩ := Route.takers_mem h
    · rcases of_decide_eq_true hcovers with ⟨hlength, -⟩ | hwildcard
      · exact .inl (by rw [List.length_append, hlength])
      · obtain ⟨segment, hsegment, heq⟩ := List.any_eq_true.mp hwildcard
        obtain rfl := of_decide_eq_true heq
        exact .inr (List.mem_append_right _ hsegment)
    · refine (ih route hroute h).imp_left fun hlength => ?_
      rw [List.length_append, List.length_drop] at hlength
      omega

/-! ## What is declared at a template that is taken -/

section
variable {route : Route μ}

theorem Route.not_covers {rest : List Segment} (h : route.covers (route.segments ++ rest) = false)
    (hhere : route.node.properties.intermediate = false) : rest ≠ [] := by
  rintro rfl
  have hcovers : route.covers (route.segments ++ []) = true :=
    decide_eq_true (.inl ⟨by rw [List.append_nil], hhere⟩)
  exact nomatch h.symm.trans hcovers

theorem Route.walk_untaken (ih : ∀ {asked segments}, route.node.takers now asked segments = [] →
      ∀ mount ∈ route.node.routes.flatMap (·.walk (·.expired now) segments), mount.segments ≠ segments ++ asked)
    (h : route.takers now asked segments = []) :
    ∀ mount ∈ route.walk (·.expired now) segments, mount.segments ≠ segments ++ asked := by
  intro mount hmount heq
  cases hserves : route.node.expired now with
  | true =>
    rw [Route.walk_expired hserves] at hmount
    cases hmount
  | false =>
    rw [Route.walk_served hserves] at hmount
    have hextends := Node.walk_extends hmount
    rw [heq, List.prefix_append_right_inj] at hextends
    obtain ⟨rest, rfl⟩ := hextends
    have htakes := takes_append route.segments rest
    cases hcovers : route.covers (route.segments ++ rest) with
    | true => exact nomatch (Route.takers_covers hserves htakes hcovers).symm.trans h
    | false =>
      rw [Route.takers_nested hserves htakes hcovers, List.drop_left] at h
      rw [Node.walk_eq, List.mem_append] at hmount
      rcases hmount with hmount | hmount
      · split at hmount
        · rename_i hhere
          rw [Node.segments_of_mounts hmount, ← List.append_assoc, List.self_eq_append_right] at heq
          exact Route.not_covers hcovers (hhere.resolve_left Bool.false_ne_true) heq
        · cases hmount
      · exact ih h mount hmount (heq.trans (List.append_assoc ..).symm)

theorem Node.walk_untaken (h : node.takers now asked segments = []) :
    ∀ mount ∈ node.routes.flatMap (·.walk (·.expired now) segments), mount.segments ≠ segments ++ asked := by
  induction node using Node.induction generalizing asked segments with
  | h properties routes ih =>
    rw [Node.takers_eq, List.flatMap_eq_nil_iff] at h
    intro mount hmount
    obtain ⟨route, hroute, hmount⟩ := List.mem_flatMap.mp hmount
    exact Route.walk_untaken (ih route hroute) (h route hroute) mount hmount

abbrev At (asked : List Segment) (mount : Mount μ) : Bool := mount.segments = asked

theorem filter_mounts_eq_nil (h : segments ≠ asked) : (node.mounts segments).filter (At asked) = [] := by
  refine List.filter_eq_nil_iff.mpr fun mount hmount => ?_
  rw [decide_eq_true_eq, Node.segments_of_mounts hmount]
  exact h

theorem filter_mounts : (node.mounts segments).filter (At segments) = node.mounts segments :=
  List.filter_eq_self.mpr fun _ hmount => decide_eq_true (Node.segments_of_mounts hmount)

theorem Route.walk_taken {place : Place μ} {others : List (Place μ)}
    (ih : ∀ {asked segments others}, route.node.takers now asked segments = place :: others →
      place.segments = segments ++ asked → .wildcard ∉ asked →
        ∃ rest, (route.node.routes.flatMap (·.walk (·.expired now) segments)).filter (At (segments ++ asked)) =
          place.mounts ++ rest)
    (h : route.takers now asked segments = place :: others) (hplace : place.segments = segments ++ asked)
    (hwildcard : .wildcard ∉ asked) :
    ∃ rest, (route.walk (·.expired now) segments).filter (At (segments ++ asked)) = place.mounts ++ rest := by
  have hmem : place ∈ route.takers now asked segments := h ▸ List.mem_cons_self ..
  obtain ⟨hserves, htakes, hhere⟩ := Route.takers_mem hmem
  rw [Route.walk_served hserves]
  rcases hhere with ⟨hcovers, rfl⟩ | ⟨hcovers, hbelow⟩
  · -- the route ends here, and what its node serves is walked before what is below it
    obtain rfl : route.segments = asked := List.append_cancel_left hplace
    rcases of_decide_eq_true hcovers with ⟨-, hhere⟩ | hwild
    · rw [Node.walk_eq, if_pos (.inr hhere), List.filter_append, filter_mounts]
      exact ⟨_, rfl⟩
    · obtain ⟨segment, hsegment, heq⟩ := List.any_eq_true.mp hwild
      exact absurd (of_decide_eq_true heq ▸ hsegment) hwildcard
  · have hextends := Node.takers_extends hbelow
    rw [hplace, List.prefix_append_right_inj] at hextends
    obtain ⟨rest, rfl⟩ := hextends
    rw [Route.takers_nested hserves htakes hcovers, List.drop_left] at h
    rw [← List.append_assoc] at hplace ⊢
    obtain ⟨after, hafter⟩ := ih h hplace fun hmem => hwildcard (List.mem_append_right _ hmem)
    refine ⟨after, ?_⟩
    rw [Node.walk_eq, List.filter_append, hafter]
    suffices hnone : (if false = true ∨ route.node.properties.intermediate = false then
        route.node.mounts (segments ++ route.segments) else []).filter
          (At (segments ++ route.segments ++ rest)) = [] by
      rw [hnone, List.nil_append]
    split
    · rename_i hhere
      refine filter_mounts_eq_nil fun heq => ?_
      exact Route.not_covers hcovers (hhere.resolve_left Bool.false_ne_true) (List.self_eq_append_right.mp heq)
    · rfl

theorem Node.walk_taken {place : Place μ} {others : List (Place μ)}
    (h : node.takers now asked segments = place :: others) (hplace : place.segments = segments ++ asked)
    (hwildcard : .wildcard ∉ asked) :
    ∃ rest, (node.routes.flatMap (·.walk (·.expired now) segments)).filter (At (segments ++ asked)) =
      place.mounts ++ rest := by
  induction node using Node.induction generalizing asked segments others with
  | h properties routes ih =>
    rw [Node.takers_eq] at h
    rw [Node.routes_mk] at h ⊢
    induction routes with
    | nil => cases h
    | cons route routes ihs =>
      rw [List.flatMap_cons] at h ⊢
      rw [List.filter_append]
      cases hroute : route.takers now asked segments with
      | nil =>
        have hnone : (route.walk (·.expired now) segments).filter (At (segments ++ asked)) = [] := by
          refine List.filter_eq_nil_iff.mpr fun mount hmount => ?_
          rw [decide_eq_true_eq]
          exact Route.walk_untaken (fun h => Node.walk_untaken h) hroute mount hmount
        rw [hroute, List.nil_append] at h
        rw [hnone, List.nil_append]
        exact ihs (fun route hmem => ih route (List.mem_cons_of_mem _ hmem)) h
      | cons first _ =>
        rw [hroute, List.cons_append] at h
        obtain rfl := (List.cons.inj h).1
        obtain ⟨rest, hrest⟩ := Route.walk_taken (ih route (List.mem_cons_self ..)) hroute hplace hwildcard
        exact ⟨rest ++ _, by rw [hrest, List.append_assoc]⟩

end

end

end Toa.RTD
