import Mathlib.Data.List.Sort
import Mathlib.Data.Int.Order.Basic

/-! The resource tree of the gateway: how a path is matched, what the tree is walked as, and how a
branch is merged into it. -/

namespace Toa.RTD
universe u
variable {μ : Type u}

inductive Segment
  | fragment (s : String)
  | placeholder (name : String)
  | star
  | wildcard
deriving DecidableEq

def parse (segment : String) : Segment :=
  match segment.toList with
  | ':' :: name => .placeholder (String.ofList name)
  | ['*'] => .star
  | ['*', '*'] => .wildcard
  | _ => .fragment segment

def fragment (path : String) : List String :=
  let parts := (path.toList.splitOn '/').map String.ofList
  -- trailing slash, and leading slash
  (if parts.getLast? = some "" then parts.dropLast else parts).drop 1

/-- `segment.fragment` -/
def Segment.literal : Segment → Option String
  | .fragment s => some s
  | _ => none

def Segment.declared : Segment → String
  | .fragment s => s
  | .placeholder name => ":" ++ name
  | .star => "*"
  | .wildcard => "**"

def template (segments : List Segment) : String :=
  "/" ++ "/".intercalate (segments.map Segment.declared)

structure Parameter where
  name : String
  value : String
deriving DecidableEq

/-- What a node has beside its routes. One without an expiration never expires. -/
structure Properties (μ : Type u) where
  intermediate : Bool
  «protected» : Bool
  forward : Option String
  expiration : Option ℤ
  methods : List (String × μ)

mutual
inductive Node (μ : Type u)
  | mk (properties : Properties μ) (routes : List (Route μ))

inductive Route (μ : Type u)
  | mk (segments : List Segment) (node : Node μ)
end

def Node.properties : Node μ → Properties μ
  | .mk properties _ => properties

def Node.routes : Node μ → List (Route μ)
  | .mk _ routes => routes

def Route.segments : Route μ → List Segment
  | .mk segments _ => segments

def Route.node : Route μ → Node μ
  | .mk _ node => node

namespace Route

def root (route : Route μ) : Bool := route.segments.isEmpty

def «variables» (route : Route μ) : ℕ := route.segments.countP (·.literal.isNone)

def wildcard (route : Route μ) : Bool := route.segments.any (· = .wildcard)

def equals (route other : Route μ) : Bool :=
  route.segments.map Segment.literal = other.segments.map Segment.literal

/-- Routes with more variables are matched last, and those with more segments first. -/
def Before (route other : Route μ) : Prop :=
  route.«variables» < other.«variables» ∨
    route.«variables» = other.«variables» ∧ other.segments.length ≤ route.segments.length

instance : DecidableRel (Before (μ := μ)) := fun _ _ => inferInstanceAs (Decidable (_ ∨ _))

end Route

def sort (routes : List (Route μ)) : List (Route μ) := routes.insertionSort Route.Before

/-- `new Node` -/
def Node.new (routes : List (Route μ)) (methods : List (String × μ)) («protected» : Bool)
    (forward : Option String) (expiration : Option ℤ) : Node μ :=
  .mk ⟨routes.any (·.root), «protected», forward, expiration, methods⟩ (sort routes)

/-! ## Matching -/

structure Match (μ : Type u) where
  node : Node μ
  parameters : List Parameter
  route : String

section
variable (decodeURIComponent : String → Option String)

def decode (fragment : Option String) : String :=
  let text := fragment.getD "undefined"
  (decodeURIComponent text).getD text

def capture (tail : String) : List Segment → List String → Option (List Parameter)
  | [], _ => some []
  | segment :: segments, fragments =>
    let rest := capture tail segments fragments.tail
    match segment with
    | .fragment s => if fragments.head? = some s then rest else none
    | .placeholder name => rest.map (⟨name, decode decodeURIComponent fragments.head?⟩ :: ·)
    | .star => rest
    | .wildcard => rest.map (⟨"**", tail⟩ :: ·)

def Route.captured (route : Route μ) (fragments : List String) : Option (List Parameter) :=
  let tail := (fragments.drop (route.segments.length - 1)).map fun s => decode decodeURIComponent (some s)
  capture decodeURIComponent ("/".intercalate tail) route.segments fragments

variable (now : ℤ)

def Node.expired (node : Node μ) : Bool := node.properties.expiration.any (· ≤ now)

def Route.ends (route : Route μ) (fragments : List String) : Bool :=
  route.segments.length = fragments.length ∧ route.node.properties.intermediate = false ∨
    route.wildcard = true

mutual
/-- `match` -/
def Node.find : Node μ → List String → List Parameter → List Segment → Option (Match μ)
  | .mk _ routes, fragments, parameters, segments => Routes.find routes fragments parameters segments

def Routes.find :
    List (Route μ) → List String → List Parameter → List Segment → Option (Match μ)
  | [], _, _, _ => none
  | route :: routes, fragments, parameters, segments =>
    match Route.find route fragments parameters segments with
    | some found => some found
    | none => Routes.find routes fragments parameters segments

def Route.find : Route μ → List String → List Parameter → List Segment → Option (Match μ)
  | .mk own node, fragments, parameters, segments =>
    if node.expired now = true then none
    else match (Route.mk own node).captured decodeURIComponent fragments with
      | none => none
      | some captured =>
        if (Route.mk own node).ends fragments = true then
          some ⟨node, parameters ++ captured, template (segments ++ own)⟩
        else Node.find node (fragments.drop own.length) (parameters ++ captured) (segments ++ own)
end

def matchPath (trunk : Node μ) (path : String) : Option (Match μ) :=
  if path = "/" then some ⟨trunk, [], "/"⟩
  else Node.find decodeURIComponent now trunk (fragment path) [] []

end

/-! ## Walking -/

structure Mount (μ : Type u) where
  segments : List Segment
  verb : String
  method : μ
  node : Node μ

section
variable (expired : Node μ → Bool)

def Node.mounts (node : Node μ) (segments : List Segment) : List (Mount μ) :=
  node.properties.methods.map fun (verb, method) => ⟨segments, verb, method, node⟩

mutual
def Node.walk : Node μ → List Segment → Bool → List (Mount μ)
  | .mk properties routes, segments, trunk =>
    (if trunk = true ∨ properties.intermediate = false then
      (Node.mk properties routes).mounts segments else []) ++ Routes.walk routes segments

def Routes.walk : List (Route μ) → List Segment → List (Mount μ)
  | [], _ => []
  | route :: routes, segments => Route.walk route segments ++ Routes.walk routes segments

def Route.walk : Route μ → List Segment → List (Mount μ)
  | .mk own node, segments =>
    if expired node = true then [] else Node.walk node (segments ++ own) false
end

end

/-! ## Merging -/

/-- `this.methods[verb] = method` -/
def assign (methods : List (String × μ)) (entry : String × μ) : List (String × μ) :=
  if methods.any (·.1 = entry.1) = true then
    methods.map fun method => if method.1 = entry.1 then entry else method
  else methods ++ [entry]

/-- The first route that a candidate equals is merged with it, and where there is none the candidate
is a route of its own. -/
def place (candidate : Route μ) (merge : Route μ → Route μ) : List (Route μ) → List (Route μ)
  | [] => [candidate]
  | route :: routes =>
    if candidate.equals route = true then merge route :: routes
    else route :: place candidate merge routes

mutual
/-- `merge` of a branch, into the node it lands on: a node that is not protected is replaced. -/
def Node.land : Node μ → Node μ → Node μ
  | .mk branch candidates, .mk properties routes =>
    if properties.protected = true then
      .mk { properties with
        intermediate := branch.intermediate
        methods := branch.methods.foldl assign properties.methods }
        (sort (Routes.land candidates routes))
    else .mk { branch with «protected» := properties.protected } (sort candidates)

def Routes.land : List (Route μ) → List (Route μ) → List (Route μ)
  | [], routes => routes
  | candidate :: candidates, routes =>
    Routes.land candidates (place candidate (Route.land candidate) routes)

def Route.land : Route μ → Route μ → Route μ
  | .mk _ node, .mk segments existing => .mk segments (Node.land node existing)
end

def Node.merge (node branch : Node μ) : Node μ := branch.land node

end Toa.RTD
