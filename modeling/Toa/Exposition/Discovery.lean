import Toa.Continuity.Fingerprint
import Toa.Lib.Assoc
import Toa.RPC.Names

/-! The discovery page: every route of the tree that a caller may reach, keyed by its template, and what
each of its methods says. -/

namespace Toa.Exposition.Discovery
open RTD

inductive Flag
  | authenticated
  | «private»
  | «protected»
  | system
deriving DecidableEq

def FLAGS : List Flag := [.authenticated, .private, .protected, .system]

/-- What the directives of a method say of it. What it says itself is built once and is an object of its
own, for which the method stands here. -/
structure Directives (κ μ σ : Type*) where
  admits : κ → μ → Bool
  /-- nothing where the method is hidden -/
  describe : μ → Bool
  resource : μ → Option σ
  flags : μ → Flag → Bool
  /-- `mcp:tool` -/
  published : μ → Bool

/-- One route template as the walk found it, before the two are answered as one. -/
structure Mounted (μ σ : Type*) where
  described : Option σ
  methods : List (String × μ)

structure Resource (μ σ : Type*) where
  stated : Option σ
  flags : List Flag
  methods : List (String × μ)

def Before (route other : String) : Prop :=
  Continuity.Before (route.toList.map .char) (other.toList.map .char)

instance : DecidableRel Before := fun _ _ => inferInstanceAs (Decidable (Continuity.Before _ _))

section
variable {κ μ σ : Type*} (directives : Directives κ μ σ) (caller : κ)

def Directives.explain (method : μ) : Bool := directives.admits caller method && directives.describe method

/-- `mounted.methods[verb] ??= introspection` -/
def Mounted.state (verb : String) (method : μ) (mounted : Mounted μ σ) : Mounted μ σ :=
  if (mounted.methods.lookup verb).isSome then mounted
  else { mounted with methods := mounted.methods ++ [(verb, method)] }

def enter (routes : List (String × Mounted μ σ)) (mount : Mount μ) : List (String × Mounted μ σ) :=
  if directives.explain caller mount.method then
    Assoc.gather (template mount.segments)
      ⟨directives.resource mount.method, [(mount.verb, mount.method)]⟩
      (Mounted.state mount.verb mount.method) routes
  else routes

def guarded (methods : List (String × μ)) : List Flag :=
  FLAGS.filter fun flag => methods.any fun method => directives.flags method.2 flag

def describe (now : ℤ) (trunk : Node μ) : List (String × Resource μ σ) :=
  let routes := (trunk.walk (·.expired now) [] true).foldl (enter directives caller) []
  ((routes.map Prod.fst).insertionSort Before).filterMap fun route =>
    (routes.lookup route).map fun mounted =>
      (route, ⟨mounted.described, guarded directives mounted.methods, mounted.methods⟩)

def listed (page : List (String × Resource μ σ)) (route verb : String) : Option μ :=
  (page.lookup route).bind fun resource => resource.methods.lookup verb

/-! ## What is listed -/

def Says (route verb : String) (mount : Mount μ) : Bool :=
  directives.explain caller mount.method && template mount.segments = route && mount.verb = verb

def held (routes : List (String × Mounted μ σ)) (route verb : String) : Option μ :=
  (routes.lookup route).bind fun mounted => mounted.methods.lookup verb

variable {directives caller}

theorem Mounted.lookup_state (v verb : String) (method : μ) (mounted : Mounted μ σ) :
    (mounted.state v method).methods.lookup verb =
      (mounted.methods.lookup verb).or (if verb = v then some method else none) := by
  rw [Mounted.state]
  split
  · rename_i hstated
    by_cases hverb : verb = v
    · subst hverb
      obtain ⟨stated, hlookup⟩ := Option.isSome_iff_exists.mp hstated
      rw [hlookup, Option.some_or]
    · rw [if_neg hverb, Option.or_none]
  · rw [List.lookup_append, Assoc.lookup_single]

theorem held_enter (routes : List (String × Mounted μ σ)) (mount : Mount μ) (route verb : String) :
    held (enter directives caller routes mount) route verb =
      (held routes route verb).or
        (if Says directives caller route verb mount then some mount.method else none) := by
  rw [enter]
  cases hexplain : directives.explain caller mount.method with
  | false => simp [Says, hexplain]
  | true =>
    rw [if_pos rfl, held, Assoc.lookup_gather]
    by_cases hroute : route = template mount.segments
    · rw [if_pos hroute, Option.bind_some, held, ← hroute]
      have htold : (if Says directives caller route verb mount then some mount.method else none) =
          if verb = mount.verb then some mount.method else none := by
        simp [Says, hexplain, hroute, eq_comm]
      rw [htold]
      cases routes.lookup route with
      | none =>
        rw [Option.elim_none, Assoc.lookup_single, Option.bind_none, Option.none_or]
      | some mounted => exact Mounted.lookup_state mount.verb verb mount.method mounted
    · have htold : Says directives caller route verb mount = false := by
        simp [Says, Ne.symm hroute]
      rw [if_neg hroute, htold, if_neg Bool.false_ne_true, Option.or_none, held]

theorem held_foldl (mounts : List (Mount μ)) (routes : List (String × Mounted μ σ)) (route verb : String) :
    held (mounts.foldl (enter directives caller) routes) route verb =
      (held routes route verb).or
        ((mounts.find? (Says directives caller route verb)).map (·.method)) := by
  induction mounts generalizing routes with
  | nil => exact Option.or_none.symm
  | cons mount mounts ih =>
    rw [List.foldl_cons, ih, held_enter, Option.or_assoc, List.find?_cons]
    cases Says directives caller route verb mount with
    | false => rfl
    | true => rfl

theorem listed_describe (now : ℤ) (trunk : Node μ) (route verb : String) :
    listed (describe directives caller now trunk) route verb =
      ((trunk.walk (·.expired now) [] true).find? (Says directives caller route verb)).map (·.method) := by
  have hfold : held ((trunk.walk (·.expired now) [] true).foldl (enter directives caller) []) route verb =
      (none : Option μ).or
        (((trunk.walk (·.expired now) [] true).find? (Says directives caller route verb)).map (·.method)) :=
    held_foldl _ [] route verb
  rw [Option.none_or] at hfold
  rw [← hfold, listed, describe]
  generalize (trunk.walk (·.expired now) [] true).foldl (enter directives caller) [] = routes
  have hpage := Assoc.lookup_filterMap
    (fun route => (routes.lookup route).map fun mounted : Mounted μ σ =>
      (⟨mounted.described, guarded directives mounted.methods, mounted.methods⟩ : Resource μ σ))
    ((routes.map Prod.fst).insertionSort Before) route
  simp only [Option.map_map] at hpage
  refine (congrArg (Option.bind · _) hpage).trans ?_
  split
  · rw [held, Option.bind_map]
    rfl
  · rename_i hkey
    have hnone : routes.lookup route = none := by
      refine List.lookup_eq_none_iff.mpr fun entry hentry => bne_iff_ne.mpr fun heq => hkey ?_
      rw [List.mem_insertionSort]
      exact List.mem_map.mpr ⟨entry, hentry, heq.symm⟩
    rw [held, hnone]
    rfl

end

end Toa.Exposition.Discovery
