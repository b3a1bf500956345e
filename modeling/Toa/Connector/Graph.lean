import Mathlib.Logic.Function.Basic
import Mathlib.Data.List.Basic

/-! What connectors declare of each other: whom each depends on, and who is linked to it. -/

set_option linter.unusedSectionVars false

namespace Toa.Connector

variable {ν : Type*}

structure Graph (ν : Type*) where
  dependencies : ν → List ν
  links : ν → List ν

/-- A declaration made with `depends`. The `group` of an array is the connector it makes. -/
inductive Declaration (ν : Type*)
  | single (c next : ν)
  | array (c : ν) (members : List ν) (group : ν)

def Declaration.Single : Declaration ν → Prop
  | .single _ _ => True
  | .array _ _ _ => False

/-- `c` declares `m`, alone or as a member of an array. -/
def Declaration.Declares (c m : ν) : Declaration ν → Prop
  | .single c' next => c' = c ∧ next = m
  | .array c' members _ => c' = c ∧ m ∈ members

namespace Graph
variable [DecidableEq ν]

def empty : Graph ν := ⟨fun _ => [], fun _ => []⟩

def push (g : Graph ν) (c next : ν) : Graph ν :=
  { g with dependencies := Function.update g.dependencies c (g.dependencies c ++ [next]) }

def link (g : Graph ν) (c parent : ν) : Graph ν :=
  { g with links := Function.update g.links c (g.links c ++ [parent]) }

/-- `depends` of one connector -/
def one (g : Graph ν) (c next : ν) : Graph ν := (g.push c next).link next c

def member (c group : ν) (g : Graph ν) (item : ν) : Graph ν := (g.push c item).one item group

def depends (g : Graph ν) : Declaration ν → Option (Graph ν)
  | .single c next => some (g.one c next)
  -- Connectors array must not be empty
  | .array _ [] _ => none
  | .array c [next] _ => some (g.one c next)
  | .array c members group => some ((members.foldl (member c group) g).one c group)

def build (ds : List (Declaration ν)) : Option (Graph ν) := ds.foldlM depends empty

/-! ## Links -/

theorem link_self (g : Graph ν) (c parent : ν) :
    (g.link c parent).links c = g.links c ++ [parent] :=
  Function.update_self c _ g.links

theorem links_subset_link (g : Graph ν) (c parent x : ν) :
    g.links x ⊆ (g.link c parent).links x := by
  by_cases hx : x = c
  · subst hx
    rw [link_self]
    exact List.subset_append_left _ _
  · have hsame : (g.link c parent).links x = g.links x := Function.update_of_ne hx _ g.links
    exact hsame ▸ List.Subset.refl _

theorem links_one (g : Graph ν) (c next x : ν) : g.links x ⊆ (g.one c next).links x :=
  links_subset_link (g.push c next) next c x

theorem mem_links_one (g : Graph ν) (c next : ν) : c ∈ (g.one c next).links next := by
  rw [one, link_self]
  exact List.mem_append_right _ (List.mem_singleton_self c)

theorem links_foldl (c group : ν) (members : List ν) (g : Graph ν) (x : ν) :
    g.links x ⊆ (members.foldl (member c group) g).links x := by
  induction members generalizing g with
  | nil => exact List.Subset.refl _
  | cons item members ih =>
    exact fun p hp => ih (member c group g item) (links_one (g.push c item) item group x hp)

theorem links_depends {g g' : Graph ν} {d : Declaration ν} (h : g.depends d = some g') (x : ν) :
    g.links x ⊆ g'.links x := by
  cases d with
  | single c next => exact Option.some.inj h ▸ links_one g c next x
  | array c members group =>
    match members, h with
    | [next], h => exact Option.some.inj h ▸ links_one g c next x
    | a :: b :: rest, h =>
      refine Option.some.inj h ▸ fun p hp => links_one _ c group x ?_
      exact links_foldl c group (a :: b :: rest) g x hp

theorem links_foldlM {ds : List (Declaration ν)} {g g' : Graph ν}
    (h : ds.foldlM depends g = some g') (x : ν) : g.links x ⊆ g'.links x := by
  induction ds generalizing g with
  | nil => exact Option.some.inj h ▸ List.Subset.refl _
  | cons d ds ih =>
    obtain ⟨g₁, hd, hds⟩ := Option.bind_eq_some_iff.mp h
    exact fun p hp => ih hds (links_depends hd x hp)

/-! ## Dependencies -/

theorem mem_dependencies_one {g : Graph ν} {c next p d : ν}
    (h : d ∈ (g.one c next).dependencies p) : d ∈ g.dependencies p ∨ p = c ∧ d = next := by
  by_cases hp : p = c
  · subst hp
    have hdeps : (g.one p next).dependencies p = g.dependencies p ++ [next] :=
      Function.update_self p _ g.dependencies
    rw [hdeps] at h
    exact (List.mem_append.mp h).imp_right fun hd => ⟨rfl, List.mem_singleton.mp hd⟩
  · have hsame : (g.one c next).dependencies p = g.dependencies p :=
      Function.update_of_ne hp _ g.dependencies
    exact .inl (hsame ▸ h)

def Linked (g : Graph ν) : Prop := ∀ p c, c ∈ g.dependencies p → p ∈ g.links c

theorem linked_one {g : Graph ν} (h : g.Linked) (c next : ν) : (g.one c next).Linked := by
  intro p d hd
  rcases mem_dependencies_one hd with hd | ⟨rfl, rfl⟩
  · exact links_one g c next d (h p d hd)
  · exact mem_links_one g p d

theorem linked_foldlM {ds : List (Declaration ν)} (hds : ∀ d ∈ ds, d.Single) {g g' : Graph ν}
    (hg : g.Linked) (h : ds.foldlM depends g = some g') : g'.Linked := by
  induction ds generalizing g with
  | nil => exact Option.some.inj h ▸ hg
  | cons d ds ih =>
    obtain ⟨g₁, hd, hrest⟩ := Option.bind_eq_some_iff.mp h
    have hsingle := hds d (List.mem_cons_self ..)
    cases d with
    | single c next =>
      refine ih (fun d hd => hds d (List.mem_cons_of_mem _ hd)) ?_ hrest
      exact Option.some.inj hd ▸ linked_one hg c next
    | array c members group => exact hsingle.elim

theorem linked_build {ds : List (Declaration ν)} (hds : ∀ d ∈ ds, d.Single) {g : Graph ν}
    (h : build ds = some g) : g.Linked :=
  linked_foldlM hds (fun _ _ hc => absurd hc List.not_mem_nil) h

end Graph
end Toa.Connector
