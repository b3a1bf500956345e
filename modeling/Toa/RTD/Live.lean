import Toa.RTD.Takers
import Toa.RTD.Templates

/-! What is served of a tree at a time: a route to a node that is expired is neither matched nor
walked, and the tree without such routes is matched as the tree is. -/

namespace Toa.RTD
universe u
variable {μ : Type u} (now : ℤ)

mutual
def Node.live : Node μ → Node μ
  | .mk properties routes => .mk properties (Routes.live routes)

def Routes.live : List (Route μ) → List (Route μ)
  | [] => []
  | route :: routes => Route.live route ++ Routes.live routes

def Route.live : Route μ → List (Route μ)
  | .mk own node => if node.expired now = true then [] else [.mk own (Node.live node)]
end

def Match.told (found : Match μ) : String × List Parameter := (found.route, found.parameters)

variable {now}

theorem Routes.live_eq (routes : List (Route μ)) : Routes.live now routes = routes.flatMap (·.live now) := by
  induction routes with
  | nil => rfl
  | cons route routes ih => rw [Routes.live, ih, List.flatMap_cons]

theorem Node.live_eq (node : Node μ) :
    node.live now = .mk node.properties (node.routes.flatMap (·.live now)) := by
  obtain ⟨properties, routes⟩ := node
  rw [Node.live, Routes.live_eq]
  rfl

@[simp] theorem Node.properties_live (node : Node μ) : (node.live now).properties = node.properties := by
  rw [Node.live_eq]
  rfl

@[simp] theorem Node.expired_live (node : Node μ) : (node.live now).expired now = node.expired now := by
  rw [Node.expired, Node.properties_live, Node.expired]

theorem Route.live_expired {route : Route μ} (h : route.node.expired now = true) : route.live now = [] := by
  obtain ⟨own, node⟩ := route
  rw [Route.live]
  exact if_pos h

theorem Route.live_serves {route : Route μ} (h : route.node.expired now = false) :
    route.live now = [.mk route.segments (route.node.live now)] := by
  obtain ⟨own, node⟩ := route
  rw [Route.live]
  exact if_neg (Bool.eq_false_iff.mp h)

section
variable {decodeURIComponent : String → Option String}

theorem Node.told_live (node : Node μ) (fragments : List String) (parameters : List Parameter)
    (segments : List Segment) :
    ((node.live now).answers decodeURIComponent now fragments parameters segments).map Match.told =
      (node.answers decodeURIComponent now fragments parameters segments).map Match.told := by
  induction node using Node.induction generalizing fragments parameters segments with
  | h properties routes ih =>
    rw [Node.live_eq, Node.answers_eq, Node.answers_eq, Node.routes_mk, Node.routes_mk,
      List.flatMap_assoc, List.map_flatMap, List.map_flatMap]
    refine List.flatMap_congr fun route hroute => ?_
    cases hserves : route.node.expired now with
    | true => rw [Route.live_expired hserves, Route.answers_expired hserves, List.flatMap_nil]
    | false =>
      have hlive : (Route.mk route.segments (route.node.live now)).node.expired now = false := by
        rw [Route.node, Node.expired_live, hserves]
      have hcapture : (Route.mk route.segments (route.node.live now)).captured decodeURIComponent fragments =
          route.captured decodeURIComponent fragments := rfl
      have hsame : (Route.mk route.segments (route.node.live now)).ends fragments = route.ends fragments := by
        rw [Route.ends, Route.ends, Route.node, Node.properties_live]
        rfl
      rw [Route.live_serves hserves, List.flatMap_singleton]
      cases hcaptured : route.captured decodeURIComponent fragments with
      | none => rw [Route.answers_missed hcaptured, Route.answers_missed (hcapture.trans hcaptured)]
      | some captured =>
        cases hends : route.ends fragments with
        | true =>
          rw [Route.answers_ends hserves hcaptured hends,
            Route.answers_ends hlive (hcapture.trans hcaptured) (hsame.trans hends)]
          rfl
        | false =>
          rw [Route.answers_nested hserves hcaptured hends,
            Route.answers_nested hlive (hcapture.trans hcaptured) (hsame.trans hends)]
          exact ih route hroute _ _ _

theorem matchPath_live (trunk : Node μ) (path : String) :
    (matchPath decodeURIComponent now (trunk.live now) path).map Match.told =
      (matchPath decodeURIComponent now trunk path).map Match.told := by
  unfold matchPath
  split_ifs
  · rfl
  · rw [Node.find_eq, Node.find_eq, ← List.head?_map, ← List.head?_map, Node.told_live]

end

def Shaped (node : Node μ) : Prop := ∀ route ∈ node.routes, route.Declared

theorem Node.shaped {node : Node μ} (h : node.All (Declared now)) : node.All Shaped := by
  induction node using Node.induction with
  | h properties routes ih => exact .mk h.here.routes fun route hroute => ih route hroute (h.child hroute)

theorem Node.declared_live {node : Node μ} (h : node.All Shaped) (hserves : node.expired now = false) :
    (node.live now).All (Declared now) := by
  induction node using Node.induction with
  | h properties routes ih =>
    have hroutes : ∀ live ∈ (Node.live now (.mk properties routes)).routes, ∃ route ∈ routes,
        route.node.expired now = false ∧ live = .mk route.segments (route.node.live now) := by
      intro live hlive
      rw [Node.live_eq, Node.routes_mk, Node.routes_mk] at hlive
      obtain ⟨route, hroute, hlive⟩ := List.mem_flatMap.mp hlive
      cases hroute' : route.node.expired now with
      | true =>
        rw [Route.live_expired hroute'] at hlive
        cases hlive
      | false =>
        rw [Route.live_serves hroute'] at hlive
        exact ⟨route, hroute, hroute', List.mem_singleton.mp hlive⟩
    refine .mk ⟨(Node.expired_live _).trans hserves, fun live hlive => ?_⟩ fun live hlive => ?_
    · obtain ⟨route, hroute, -, rfl⟩ := hroutes live hlive
      have hdeclared := h.here route hroute
      refine ⟨hdeclared.segments, hdeclared.last, fun hwildcard => ?_⟩
      have hleaf : route.node.routes = [] := hdeclared.leaf hwildcard
      rw [Route.node, Node.live_eq, hleaf]
      rfl
    · obtain ⟨route, hroute, hroute', rfl⟩ := hroutes live hlive
      exact ih route hroute (h.child hroute) hroute'

theorem Route.walk_eq (expired : Node μ → Bool) (route : Route μ) (segments : List Segment) :
    route.walk expired segments = if expired route.node = true then []
      else route.node.walk expired (segments ++ route.segments) false := by
  obtain ⟨own, node⟩ := route
  rw [Route.walk]
  rfl

theorem Node.walk_templates {node : Node μ} {segments : List Segment} {trunk : Bool} {mount : Mount μ}
    (h : mount ∈ node.walk (·.expired now) segments trunk) :
    mount.segments = segments ∧ (trunk = true ∨ node.properties.intermediate = false) ∨
      ∃ t ∈ (node.live now).templates segments, t.segments = mount.segments := by
  induction node using Node.induction generalizing segments trunk with
  | h properties routes ih =>
    rw [Node.walk_eq] at h
    rcases List.mem_append.mp h with h | h
    · split_ifs at h with hown
      · obtain ⟨method, -, rfl⟩ := List.mem_map.mp h
        exact .inl ⟨rfl, hown⟩
      · cases h
    · obtain ⟨route, hroute, hwalk⟩ := List.mem_flatMap.mp h
      rw [Route.walk_eq] at hwalk
      split_ifs at hwalk with hserves
      · cases hwalk
      · have hlive := Route.live_serves (Bool.eq_false_iff.mpr hserves)
        have hmem : Route.mk route.segments (route.node.live now) ∈
            (Node.live now (.mk properties routes)).routes := by
          rw [Node.live_eq]
          exact List.mem_flatMap.mpr ⟨route, hroute, hlive ▸ List.mem_singleton_self _⟩
        have hin : ∀ t ∈ (Route.mk route.segments (route.node.live now)).templates segments,
            t ∈ (Node.live now (.mk properties routes)).templates segments := by
          intro t ht
          rw [Node.templates_eq]
          exact List.mem_flatMap.mpr ⟨_, hmem, ht⟩
        rcases ih route hroute hwalk with ⟨hsegments, hown⟩ | ⟨t, ht, hsegments⟩
        · refine .inr ⟨⟨segments, route.segments, route.node.live now⟩, hin _ ?_, hsegments.symm⟩
          rw [Route.templates_eq, Route.node, Node.properties_live]
          rw [if_pos (.inl (hown.resolve_left Bool.false_ne_true))]
          exact List.mem_append_left _ (List.mem_singleton_self _)
        · refine .inr ⟨t, hin t ?_, hsegments⟩
          rw [Route.templates_eq]
          exact List.mem_append_right _ ht

end Toa.RTD
