import Toa.RTD.Directives
import Toa.RTD.Takers

/-! The tree a declaration is made into. What is declared above a node is held on one stack, which a
node puts its own directives on, a route filters on the way down and restores on the way up. -/

namespace Toa.RTD
universe u
variable {υ δ σ ο κ ε : Type u}

namespace Syntax

structure Method (υ κ : Type u) where
  verb : String
  mapping : Option κ
  directives : List (Directive υ)

structure Properties (υ κ : Type u) where
  «protected» : Option Bool
  isolated : Bool
  forward : Option String
  methods : List (Method υ κ)
  /-- they are keys of one object -/
  verbs : (methods.map Method.verb).Nodup
  directives : List (Directive υ)

mutual
inductive Node (υ κ : Type u)
  | mk (properties : Properties υ κ) (routes : List (Route υ κ))

inductive Route (υ κ : Type u)
  | mk (path : String) (node : Node υ κ)
end

def Node.properties : Node υ κ → Properties υ κ
  | .mk properties _ => properties

def Route.path : Route υ κ → String
  | .mk path _ => path

end Syntax

structure Method (υ δ σ ο ε : Type u) where
  endpoint : Option ε
  directives : List (DirectiveSet υ δ σ ο)

/-- What is being built: what is declared above, and the path it is at. -/
structure Context (υ : Type u) where
  stack : List (Syntax.Directive υ)
  path : String
  «protected» : Bool

def ROOT : String := "/"

/-- `.replace(/\/+/g, '/')` -/
def squeeze : List Char → List Char
  | [] => []
  | c :: text => if c = '/' ∧ text.head? = some '/' then squeeze text else c :: squeeze text

/-- `.replace(/(.)\/$/, '$1')`, where a dot is no end of a line -/
def unslash (text : List Char) : List Char :=
  match text.reverse with
  | '/' :: c :: rest =>
    if c ∈ ['\n', '\r', '\u2028', '\u2029'] then text else (c :: rest).reverse
  | _ => text

def join (base path : String) : String :=
  String.ofList (unslash (squeeze (base ++ path).toList))

/-- A node that says something of itself is what a path answers, or has a `/` that is. -/
def described (properties : Syntax.Properties υ κ) (routes : List (Syntax.Route υ κ)) (path : String) :
    Except String PUnit.{u + 1} :=
  if properties.directives.any (fun directive => directive.family = "help" && directive.name = "node") &&
      properties.methods.isEmpty && !routes.any (fun route => route.path = ROOT) then
    .error ("Directive help:node: '" ++ "/" ++ "/".intercalate (fragment path) ++ "' serves no methods")
  else .ok ⟨⟩

section
variable (factory : DirectivesFactory υ δ σ ο) (endpoints : κ → Except String ε) (expiration : ℤ)

def createMethod (method : Syntax.Method υ κ) (context : Context υ) :
    Except String (String × Method υ δ σ ο ε) := do
  let directives ← factory.create (method.directives ++ context.stack) context.path
  let endpoint ← method.mapping.mapM endpoints
  pure (method.verb, ⟨endpoint, directives⟩)

def Context.put (context : Context υ) (properties : Syntax.Properties υ κ) : Context υ :=
  { context with
    stack := if properties.isolated then properties.directives
      else properties.directives ++ context.stack }

/-- What is carried along a route. What a node says of itself is carried along its `/` only. -/
def Context.enter (context : Context υ) (path : String) : Context υ :=
  { context with
    path := join context.path path
    stack := if path ≠ ROOT then context.stack.filter factory.inheritable else context.stack }

mutual
def createNode : Syntax.Node υ κ → Context υ → Except String (Node (Method υ δ σ ο ε) × Context υ)
  | .mk properties routes, context => do
    described properties routes (context.put properties).path
    let made ← createRoutes routes (context.put properties)
    let methods ← properties.methods.mapM fun method => createMethod factory endpoints method made.2
    pure (Node.new made.1 methods (properties.protected.getD context.protected) properties.forward
      (if properties.protected.getD context.protected = true then none else some expiration), made.2)

def createRoutes : List (Syntax.Route υ κ) → Context υ →
    Except String (List (Route (Method υ δ σ ο ε)) × Context υ)
  | [], context => pure ([], context)
  | route :: routes, context => do
    let one ← createRoute route context
    let others ← createRoutes routes one.2
    pure (one.1 :: others.1, others.2)

def createRoute : Syntax.Route υ κ → Context υ → Except String (Route (Method υ δ σ ο ε) × Context υ)
  | .mk path node, context => do
    let made ← createNode node (context.enter factory path)
    pure (.mk ((fragment path).map parse) made.1, { made.2 with stack := context.stack, path := context.path })
end

end

/-! ## By structure -/

/-- A node with the nodes above it, and the paths of the routes on the way. -/
inductive Lineage (υ κ : Type u)
  | top (node : Syntax.Properties υ κ)
  | under (above : Lineage υ κ) (path : String) (node : Syntax.Properties υ κ)

structure Site (υ κ : Type u) where
  lineage : Lineage υ κ
  method : Syntax.Method υ κ

mutual
def Syntax.Node.sites : Syntax.Node υ κ → Lineage υ κ → List (Site υ κ)
  | .mk properties routes, lineage =>
    properties.methods.map (⟨lineage, ·⟩) ++ Syntax.Routes.sites routes lineage

def Syntax.Routes.sites : List (Syntax.Route υ κ) → Lineage υ κ → List (Site υ κ)
  | [], _ => []
  | route :: routes, above => Syntax.Route.sites route above ++ Syntax.Routes.sites routes above

def Syntax.Route.sites : Syntax.Route υ κ → Lineage υ κ → List (Site υ κ)
  | .mk path node, above => Syntax.Node.sites node (.under above path node.properties)
end

namespace Lineage

def node : Lineage υ κ → Syntax.Properties υ κ
  | .top node => node
  | .under _ _ node => node

def segments : Lineage υ κ → List Segment
  | .top _ => []
  | .under above path _ => above.segments ++ (fragment path).map parse

def path (start : String) : Lineage υ κ → String
  | .top _ => start
  | .under above path _ => join (above.path start) path

section
variable (factory : DirectivesFactory υ δ σ ο)

/-- The directives of a node count all where the node is `near`: the one itself, or one that it
answers in the place of. -/
def counted (near : Bool) (directives : List (Syntax.Directive υ)) : List (Syntax.Directive υ) :=
  directives.filter fun directive => near || factory.inheritable directive

/-- What a lineage leaves to its node: the directives of the node itself, of those above it nearest
first, and of what the outermost is put under, ending with the nearest that is isolated. -/
def carried (outer : List (Syntax.Directive υ)) (near : Bool) : Lineage υ κ → List (Syntax.Directive υ)
  | .top node =>
    counted factory near node.directives ++ if node.isolated then [] else counted factory near outer
  | .under above path node =>
    counted factory near node.directives ++
      if node.isolated then [] else carried outer (near && path = ROOT) above

theorem counted_true (directives : List (Syntax.Directive υ)) :
    counted factory true directives = directives :=
  List.filter_eq_self.mpr fun _ _ => rfl

theorem filter_counted (near : Bool) (directives : List (Syntax.Directive υ)) :
    (counted factory near directives).filter factory.inheritable = counted factory false directives := by
  unfold counted
  rw [List.filter_filter]
  refine List.filter_congr fun directive _ => ?_
  cases near <;> cases factory.inheritable directive <;> rfl

theorem filter_carried (outer : List (Syntax.Directive υ)) (near : Bool) (lineage : Lineage υ κ) :
    (lineage.carried factory outer near).filter factory.inheritable =
      lineage.carried factory outer false := by
  induction lineage generalizing near with
  | top node =>
    rw [carried, carried, List.filter_append, filter_counted]
    split_ifs
    · rfl
    · rw [filter_counted]
  | under above path node ih =>
    rw [carried, carried, List.filter_append, filter_counted, Bool.false_and]
    split_ifs
    · rfl
    · rw [ih]

end

end Lineage

section
variable (factory : DirectivesFactory υ δ σ ο) (endpoints : κ → Except String ε) (expiration : ℤ)
  (outer : List (Syntax.Directive υ)) (start : String)

/-- What the method of a declaration is created as: at its place, with its own directives and those
that its lineage leaves. -/
structure Stands (site : Site υ κ) (mount : Mount (Method υ δ σ ο ε)) : Prop where
  segments : mount.segments = site.lineage.segments
  verb : mount.verb = site.method.verb
  directives : factory.create (site.method.directives ++ site.lineage.carried factory outer true)
    (site.lineage.path start) = .ok mount.method.directives

def AllStand (sites : List (Site υ κ)) (mounts : List (Mount (Method υ δ σ ο ε))) : Prop :=
  ∃ created, List.Perm created mounts ∧ List.Forall₂ (Stands factory outer start) sites created

variable {factory endpoints expiration outer start}

theorem AllStand.append {sites sites' : List (Site υ κ)} {mounts mounts' : List (Mount (Method υ δ σ ο ε))}
    (h : AllStand factory outer start sites mounts) (h' : AllStand factory outer start sites' mounts') :
    AllStand factory outer start (sites ++ sites') (mounts ++ mounts') := by
  obtain ⟨created, hperm, hcreated⟩ := h
  obtain ⟨created', hperm', hcreated'⟩ := h'
  exact ⟨created ++ created', hperm.append hperm', List.rel_append hcreated hcreated'⟩

theorem AllStand.perm {sites : List (Site υ κ)} {mounts mounts' : List (Mount (Method υ δ σ ο ε))}
    (h : AllStand factory outer start sites mounts) (hperm : mounts.Perm mounts') :
    AllStand factory outer start sites mounts' := by
  obtain ⟨created, hcreated, hsites⟩ := h
  exact ⟨created, hcreated.trans hperm, hsites⟩

def mounted (routes : List (Route (Method υ δ σ ο ε))) (segments : List Segment) :
    List (Mount (Method υ δ σ ο ε)) :=
  (routes.flatMap (·.places segments)).flatMap Place.mounts

theorem mounts_new (routes : List (Route (Method υ δ σ ο ε))) (methods : List (String × Method υ δ σ ο ε))
    («protected» : Bool) (forward : Option String) (expiration : Option ℤ) (segments : List Segment) :
    (((Node.new routes methods «protected» forward expiration).places segments).flatMap Place.mounts).Perm
      ((Node.new routes methods «protected» forward expiration).mounts segments ++ mounted routes segments) := by
  rw [Node.places_eq, List.flatMap_cons]
  refine List.Perm.append_left _ (List.Perm.flatMap_right _ (List.Perm.flatMap_right _ ?_))
  exact List.perm_insertionSort _ _

theorem stands_of_createMethod {method : Syntax.Method υ κ} {context : Context υ}
    {made : String × Method υ δ σ ο ε} (h : createMethod factory endpoints method context = .ok made) :
    made.1 = method.verb ∧
      factory.create (method.directives ++ context.stack) context.path = .ok made.2.directives := by
  unfold createMethod at h
  obtain ⟨directives, hdirectives, hrest⟩ := Fallible.bind_ok h
  obtain ⟨endpoint, -, hmade⟩ := Fallible.bind_ok hrest
  cases hmade
  exact ⟨rfl, hdirectives⟩

/-- A context is of a lineage where it holds what the lineage leaves, at its path. -/
structure Context.Of (factory : DirectivesFactory υ δ σ ο) (outer : List (Syntax.Directive υ))
    (start : String) (context : Context υ) (lineage : Lineage υ κ) : Prop where
  stack : context.stack = lineage.carried factory outer true
  path : context.path = lineage.path start

theorem Context.Of.methods {context : Context υ} {lineage : Lineage υ κ}
    (hof : context.Of factory outer start lineage) {methods : List (Syntax.Method υ κ)}
    {made : List (String × Method υ δ σ ο ε)}
    (h : methods.mapM (fun method => createMethod factory endpoints method context) = .ok made)
    (node : Node (Method υ δ σ ο ε)) :
    AllStand factory outer start (methods.map (⟨lineage, ·⟩))
      (made.map fun entry => ⟨lineage.segments, entry.1, entry.2, node⟩) := by
  refine ⟨_, List.Perm.refl _, ?_⟩
  rw [List.forall₂_map_left_iff, List.forall₂_map_right_iff]
  refine (Fallible.mapM_ok h).imp fun method one hone => ?_
  obtain ⟨hverb, hdirectives⟩ := stands_of_createMethod hone
  exact ⟨rfl, hverb, by rw [← hof.stack, ← hof.path]; exact hdirectives⟩

theorem Context.Of.enter {context : Context υ} {above : Lineage υ κ}
    (hof : context.Of factory outer start above) (path : String) (node : Syntax.Properties υ κ) :
    ((context.enter factory path).put node).Of factory outer start (.under above path node) := by
  refine ⟨?_, ?_⟩
  · have hstack : (context.enter factory path).stack = above.carried factory outer (true && path = ROOT) := by
      by_cases hroot : path = ROOT
      · rw [Context.enter, if_neg (not_not_intro hroot), hof.stack, decide_eq_true hroot, Bool.and_self]
      · rw [Context.enter, if_pos hroot, hof.stack, Lineage.filter_carried, decide_eq_false hroot,
          Bool.and_false]
    rw [Lineage.carried, Lineage.counted_true, Context.put, hstack]
    split_ifs <;> simp only [List.append_nil]
  · exact congrArg (join · path) hof.path

mutual
theorem createNode_stands : ∀ (node : Syntax.Node υ κ) {context after : Context υ} {lineage : Lineage υ κ}
    {made : Node (Method υ δ σ ο ε)},
    (context.put node.properties).Of factory outer start lineage →
    createNode factory endpoints expiration node context = .ok (made, after) →
    AllStand factory outer start (node.sites lineage) ((made.places lineage.segments).flatMap Place.mounts)
  | .mk properties routes, context, after, lineage, made, hof, h => by
    rw [createNode] at h
    obtain ⟨_, -, h⟩ := Fallible.bind_ok h
    obtain ⟨⟨under, context'⟩, hroutes, h⟩ := Fallible.bind_ok h
    obtain ⟨methods, hmethods, h⟩ := Fallible.bind_ok h
    cases h
    obtain ⟨hstands, hsame⟩ := createRoutes_stands routes hof hroutes
    rw [Syntax.Node.sites]
    refine AllStand.perm ?_ (mounts_new _ _ _ _ _ _).symm
    exact (hsame.methods hmethods (Node.new _ _ _ _ _)).append hstands

theorem createRoutes_stands : ∀ (routes : List (Syntax.Route υ κ)) {context after : Context υ}
    {lineage : Lineage υ κ} {made : List (Route (Method υ δ σ ο ε))},
    context.Of factory outer start lineage →
    createRoutes factory endpoints expiration routes context = .ok (made, after) →
    AllStand factory outer start (Syntax.Routes.sites routes lineage) (mounted made lineage.segments) ∧
      after.Of factory outer start lineage
  | [], context, after, lineage, made, hof, h => by
    cases h
    exact ⟨⟨[], List.Perm.refl _, .nil⟩, hof⟩
  | route :: routes, context, after, lineage, made, hof, h => by
    rw [createRoutes] at h
    obtain ⟨⟨one, context'⟩, hroute, h⟩ := Fallible.bind_ok h
    obtain ⟨⟨others, context''⟩, hroutes, h⟩ := Fallible.bind_ok h
    cases h
    obtain ⟨hone, hsame⟩ := createRoute_stands route hof hroute
    obtain ⟨hothers, hafter⟩ := createRoutes_stands routes hsame hroutes
    rw [Syntax.Routes.sites, mounted, List.flatMap_cons, List.flatMap_append]
    exact ⟨hone.append hothers, hafter⟩

theorem createRoute_stands : ∀ (route : Syntax.Route υ κ) {context after : Context υ}
    {lineage : Lineage υ κ} {made : Route (Method υ δ σ ο ε)},
    context.Of factory outer start lineage →
    createRoute factory endpoints expiration route context = .ok (made, after) →
    AllStand factory outer start (Syntax.Route.sites route lineage)
        ((made.places lineage.segments).flatMap Place.mounts) ∧
      after.Of factory outer start lineage
  | .mk path node, context, after, lineage, made, hof, h => by
    rw [createRoute] at h
    obtain ⟨⟨one, context'⟩, hnode, h⟩ := Fallible.bind_ok h
    cases h
    have hstands := createNode_stands node (hof.enter path node.properties) hnode
    rw [Syntax.Route.sites, Route.places_eq]
    exact ⟨hstands, ⟨hof.stack, hof.path⟩⟩
end

theorem of_put (context : Context υ) (properties : Syntax.Properties υ κ) :
    (context.put properties).Of factory context.stack context.path (.top properties) := by
  refine ⟨?_, rfl⟩
  rw [Lineage.carried, Lineage.counted_true, Lineage.counted_true, Context.put]
  split_ifs <;> simp only [List.append_nil]

/-- At a call the families that have a say run in the order of the sets, until one of them throws. -/
structure RunsInOrder (sets : List (DirectiveSet υ δ σ ο)) : Prop where
  precall : ∀ context, (Directives.precall sets context).1 <+: Directives.due Family.precall sets ∧
    ∀ out, (Directives.precall sets context).2 = .ok out →
      (Directives.precall sets context).1 = Directives.due Family.precall sets
  settle : ∀ context, (Directives.settle sets context).1 <+: Directives.due Family.settle sets ∧
    ∀ out, (Directives.settle sets context).2 = .ok out →
      (Directives.settle sets context).1 = Directives.due Family.settle sets

/-- What a declaration is made into under the directives of a context, which are none of a trunk's
and those of the root for a branch. -/
theorem directives_by_structure {node : Syntax.Node υ κ} {context after : Context υ}
    {made : Node (Method υ δ σ ο ε)}
    (h : createNode factory endpoints expiration node context = .ok (made, after)) :
    AllStand factory context.stack context.path (node.sites (.top node.properties))
        ((made.places []).flatMap Place.mounts) ∧
      ∀ declarations route sets, factory.create declarations route = .ok sets →
        factory.Arranged declarations route sets ∧ RunsInOrder sets := by
  refine ⟨createNode_stands node (of_put context _) h, fun declarations route sets hsets => ?_⟩
  refine ⟨DirectivesFactory.arranged_of_create hsets, fun _ => ?_, fun _ => ?_⟩
  · exact Directives.through_runs _ _ sets _
  · exact Directives.through_runs _ _ sets _

end

/-! ## Two families -/

def denying : Family Unit Unit Unit Unit :=
  ⟨"auth", true, none, fun _ _ _ => .ok (), none, some fun _ _ => .error "Forbidden", none⟩

def counting : Family Unit Unit Unit Unit :=
  ⟨"io", true, none, fun _ _ _ => .ok (), none, some fun _ context => .ok (context, none), none⟩

def gateway : DirectivesFactory Unit Unit Unit Unit :=
  ⟨[denying, counting],
    List.nodup_cons.mpr ⟨fun h => by simp [denying, counting] at h, List.nodup_singleton _⟩⟩

def pots : Syntax.Node Unit Unit :=
  .mk ⟨none, false, none, [], List.nodup_nil, [⟨"auth", "id", ()⟩]⟩ [.mk "/pots"
    (.mk ⟨none, false, none, [⟨"GET", none, [⟨"io", "output", ()⟩]⟩], List.nodup_singleton _, []⟩ [])]

def potted : Node (Method Unit Unit Unit Unit Unit) :=
  Node.new [.mk [.fragment "pots"] (Node.new [] [("GET", ⟨none,
    [⟨denying, [()], ["auth:id"]⟩, ⟨counting, [()], ["io:output"]⟩]⟩)] true none none)] [] true none none

theorem directives_by_structure_pots :
    AllStand gateway [] "" (pots.sites (.top pots.properties)) ((potted.places []).flatMap Place.mounts) ∧
      ∀ declarations route sets, gateway.create declarations route = .ok sets →
        gateway.Arranged declarations route sets ∧ RunsInOrder sets := by
  have hmade : createNode gateway (fun _ : Unit => .ok ()) 0 pots ⟨[], "", true⟩ =
      .ok (potted, ⟨[⟨"auth", "id", ()⟩], "", true⟩) := rfl
  exact directives_by_structure hmade

/-- A family that throws keeps a mandatory one after it from running. -/
theorem denied_not_reached : gateway.mandatory = ["auth", "io"] ∧
    (gateway.create [⟨"io", "output", ()⟩, ⟨"auth", "id", ()⟩] "/").map
      (fun sets => ((Directives.precall sets ()).1.map Prod.fst)) = .ok ["auth"] :=
  ⟨rfl, by decide⟩

end Toa.RTD
