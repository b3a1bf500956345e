import Toa.Exposition.Input

/-! The directives of `auth` that a method is guarded with. Each is asked whether it authorizes a request,
and may act on the context while it is asked; and each may be asked what it admits, where there is no
request. -/

namespace Toa.Auth
open Toa.Identity.Roles (Role SEPARATOR)

abbrev Text := List Char

/-! ## The request and the identity -/

inductive Remote
  | basic
  | federation
  | tokens
  | roles
  | bans
  | otp
deriving DecidableEq

inductive Claim
  | one (value : Text)
  | many (values : List Text)

structure Claims where
  iss : Option Claim
  sub : Option Claim
  aud : Option Claim

structure Identity where
  id : Text
  roles : Option (List Role)
  permissions : Option (List (Text × List Text))
  scheme : Option Text
  provider : Option Remote
  refresh : Bool
  claims : Option Claims

structure Request where
  authority : Text
  authorization : Option Text
  method : Text
  pathname : Text
  /-- the code the credentials were rejected with -/
  rejection : Option Text
  vetted : Bool
  procedural : Bool
  exploratory : Bool
  parameters : List (Text × Text)

def Request.find (request : Request) (name : Text) : Option Text :=
  (request.parameters.find? fun parameter => parameter.1 = name).map (·.2)

inductive Raised
  | Unauthorized (message : Option String)
  | Forbidden (message : Option Text)
  | BadRequest (message : String)
  | UnprocessableEntity
  | Error (message : Text)

/-- What the components answer while a request is served, and what is read of a pattern and of an URL. -/
structure Services where
  list : Text → List Role
  /-- `authenticate` with `force`: the code it is refused with, or none -/
  authenticate : Text → Option Text
  banned : Text → Bool
  incept : Remote → Text → Text → Option Identity
  newid : Text
  hostname : Text → Option Text
  glob : Text → Text → Bool

/-! ## Schemes -/

def PROVIDERS : List (Text × List Remote) :=
  [("basic".toList, [.basic]), ("token".toList, [.tokens]), ("bearer".toList, [.tokens, .federation]),
    ("code".toList, [.federation]), ("otp".toList, [.otp])]

def INCEPTION : List Remote := [.basic, .federation]

def PRIMARY : Remote := .tokens

def UNKNOWN : Text := "NOT_FOUND".toList

def UNREFRESHABLE : Text := "UNREFRESHABLE".toList

def providers (scheme : Text) : Option (List Remote) :=
  (PROVIDERS.find? fun entry => entry.1 = scheme).map (·.2)

def split (authorization : Text) : Except Raised (Text × Text) :=
  if ' ' ∈ authorization then
    .ok ((authorization.takeWhile (· ≠ ' ')).map Char.toLower, (authorization.dropWhile (· ≠ ' ')).tail)
  else .error (.Unauthorized (some "Malformed authorization header"))

/-! ## Directives -/

inductive Key
  | iss
  | sub
  | aud

inductive Matcher
  | authority
  | domain
  | parameter (name : Text)
  | literal (value : Text)

inductive Directive
  | anonymous (allow : Bool)
  | anyone (allow : Bool)
  | id (parameter : Text)
  | role (roles : List Role)
  | rule (directives : List Directive)
  | incept (property : Option String)
  | assert (enabled : Bool)
  | scheme (scheme : Text)
  | echo
  | refresh
  | delegate (property : String)
  | claims (matchers : List (Key × Matcher))
  | input (statements : List (Exposition.Input.Statement Directive))
  | transfer (property : String)

/-- What a directive leaves in `pipelines.body`. -/
inductive Transform
  | embedIdentity (property : String) (identity : Identity)
  | embedCredential (property : String) (credential : Text)
  | check (identity : Option Identity) (statements : List (Exposition.Input.Statement Directive))

/-- What the directives change: who the request is of, and its pipelines. -/
structure Context where
  identity : Option Identity
  body : List Transform
  /-- the statuses the reply is given by what is left in `pipelines.response` -/
  response : List ℕ

structure Asked where
  answer : Except Raised Bool
  context : Context

/-! ## Role -/

/-- `{(\w+)}` is replaced by the value of the parameter it names. -/
def substitute (find : Text → Option Text) : Option Text → Role → Except Text Text
  | none, [] => .ok []
  | none, c :: cs =>
    if c = '\x7b' then substitute find (some []) cs
    else (substitute find none cs).map (c :: ·)
  | some name, [] => .ok ('\x7b' :: name)
  | some name, c :: cs =>
    if c = '\x7d' ∧ name ≠ [] then
      match find name with
      | none => .error name
      | some value => (substitute find none cs).map (value ++ ·)
    else if c = '\x7b' then (substitute find (some []) cs).map ('\x7b' :: name ++ ·)
    else if c.isAlphanum ∨ c = '_' then substitute find (some (name ++ [c])) cs
    else (substitute find none cs).map ('\x7b' :: name ++ c :: ·)

def missing (role key : Text) : Raised :=
  .Error ("Role '".toList ++ role ++ "' requires '".toList ++ key ++ "' route parameter".toList)

def Role.dynamic (roles : List Role) : Bool := roles.any fun role => role.contains '\x7b'

def Role.substitute (request : Request) : List Role → Except Raised (List Role)
  | [] => .ok []
  | role :: roles =>
    match Toa.Auth.substitute request.find none role with
    | .error key => .error (missing role key)
    | .ok required => (Role.substitute request roles).map (required :: ·)

/-- `identity.roles ??= …` keeps what `list` answers, and `list` answers the same while the request is
served. -/
def Services.rolesOf (services : Services) (identity : Identity) : List Role :=
  identity.roles.getD (services.list identity.id)

def Role.authorize (services : Services) (request : Request) (roles : List Role) :
    Option Identity → Except Raised Bool
  | none => .ok false
  | some identity =>
    match (if Role.dynamic roles then Role.substitute request roles else .ok roles) with
    | .error raised => .error raised
    | .ok required => .ok (Identity.Roles.Role.match required (services.rolesOf identity))

def Role.admits (services : Services) (roles : List Role) (identity : Option Identity) : Option Bool :=
  if Role.dynamic roles then none
  else some (identity.any fun identity => Identity.Roles.Role.match roles (services.rolesOf identity))

/-! ## Anonymous, Anyone, Id, Scheme -/

def Anonymous.authorize (request : Request) (allow : Bool) : Bool :=
  if request.procedural || request.exploratory then allow
  else if request.authorization.isSome then false else allow

def Anyone.authorize (context : Context) (allow : Bool) : Bool := context.identity.isSome && allow

def Id.authorize (request : Request) (parameter : Text) : Option Identity → Bool
  | none => false
  | some identity => request.find parameter = some identity.id

def Scheme.authorize (request : Request) (scheme : Text) : Except Raised Bool :=
  match request.authorization with
  | none => .ok false
  | some authorization =>
    match split authorization with
    | .error raised => .error raised
    | .ok (presented, _) =>
      if presented ≠ scheme.map Char.toLower then
        .error (.Forbidden (some ((scheme.head?.map Char.toUpper).toList ++ scheme.tail ++
          " authentication scheme is required to access this resource".toList)))
      else .ok false

/-! ## Claims -/

def Claims.get (claims : Claims) : Key → Option Claim
  | .iss => claims.iss
  | .sub => claims.sub
  | .aud => claims.aud

def Claim.matches (reference : Text) : Option Claim → Bool
  | none => false
  | some (.one value) => value = reference
  | some (.many values) => values.contains reference

def codomain (services : Services) (request : Request) (iss : Text) : Except Raised Bool :=
  match services.hostname iss with
  | none => .error (.Error "Invalid URL".toList)
  | some hostname =>
    let basename := if '.' ∈ hostname then hostname.dropWhile (· ≠ '.') else hostname
    -- `slice(-0)` is the whole of it
    if basename = [] then .ok (request.authority = [])
    else .ok (request.authority.drop (request.authority.length - basename.length) = basename)

def Matcher.domain.some (services : Services) (request : Request) : List Text → Except Raised Bool
  | [] => .ok false
  | iss :: rest =>
    match codomain services request iss with
    | .ok false => Matcher.domain.some services request rest
    | answer => answer

def Matcher.matches (services : Services) (request : Request) (claim : Option Claim) :
    Matcher → Except Raised Bool
  | .authority => .ok (Claim.matches request.authority claim)
  | .domain =>
    match claim with
    | none => .error (.Error "Invalid URL".toList)
    | some (.one value) => codomain services request value
    | some (.many values) => Matcher.domain.some services request values
  | .parameter name => .ok (request.parameters.any fun parameter =>
      parameter.1 = name && Claim.matches parameter.2 claim)
  | .literal value => .ok (Claim.matches value claim)

def Federation.matches (services : Services) (request : Request) (claims : Claims) :
    List (Key × Matcher) → Except Raised Bool
  | [] => .ok true
  | (key, matcher) :: matchers =>
    match matcher.matches services request (claims.get key) with
    | .ok true => Federation.matches services request claims matchers
    | answer => answer

def Federation.authorize (services : Services) (request : Request) (matchers : List (Key × Matcher))
    (identity : Option Identity) : Except Raised Bool :=
  match identity.bind (·.claims) with
  | none => .ok false
  | some claims => Federation.matches services request claims matchers

/-! ## Inception -/

def Incept.incept (services : Services) (request : Request) (id : Text) : Except Raised Identity :=
  match request.authorization with
  | none => .error (.Error "authorization".toList)
  | some authorization =>
    match split authorization with
    | .error raised => .error raised
    | .ok (scheme, credentials) =>
      match providers scheme with
      | none => .error (.BadRequest "Authentication scheme is not supported")
      | some candidates =>
        match candidates.find? fun candidate => INCEPTION.contains candidate with
        | none => .error (.Unauthorized none)
        | some provider =>
          if services.banned id then .error (.Unauthorized none)
          else match services.incept provider id credentials with
            | none => .error .UnprocessableEntity
            | some identity => .ok { identity with scheme := some scheme }

def Incept.acceptable (request : Request) : Bool :=
  request.authorization.isNone || request.rejection = some UNKNOWN

def Incept.authorize (request : Request) (identity : Option Identity) : Bool :=
  identity.isNone && Incept.acceptable request

def Assert.authorize (services : Services) (request : Request) (enabled : Bool)
    (identity : Option Identity) (context : Context) : Asked :=
  if !enabled then ⟨.ok false, context⟩
  else if request.authorization.isNone then ⟨.error (.Unauthorized none), context⟩
  else if identity.isSome then ⟨.ok false, context⟩
  else if !Incept.acceptable request then ⟨.error (.Unauthorized none), context⟩
  else match Incept.incept services request services.newid with
    | .error raised => ⟨.error raised, context⟩
    | .ok incepted =>
      ⟨.ok false, { context with identity := some incepted, response := context.response ++ [201] }⟩

def create (services : Services) (credentials : Option Text) : Identity where
  id := services.newid
  roles := some []
  permissions := none
  scheme := credentials.map fun text => text.takeWhile (· ≠ ' ')
  provider := none
  refresh := false
  claims := none

/-! ## Echo, Refresh, Delegate, Input, Transfer -/

def Echo.authorize (services : Services) (request : Request) (identity : Option Identity)
    (context : Context) : Asked :=
  if identity.isNone && request.authorization.isSome then ⟨.ok false, context⟩
  else ⟨.ok true, { context with identity := some (context.identity.getD (create services none)) }⟩

def Refresh.authorize (services : Services) (request : Request) (identity : Option Identity)
    (context : Context) : Asked :=
  match identity with
  | none => ⟨.ok false, context⟩
  | some identity =>
    if identity.provider ≠ some PRIMARY then ⟨.ok true, context⟩
    else match request.authorization with
      | none => ⟨.error (.Error "authorization".toList), context⟩
      | some authorization =>
        match split authorization with
        | .error raised => ⟨.error raised, context⟩
        | .ok (_, credentials) =>
          match services.authenticate credentials with
          | some code => ⟨if code = UNREFRESHABLE then .ok false else .error (.Unauthorized none), context⟩
          | none =>
            ⟨.ok true, { context with identity := context.identity.map fun known =>
              { known with refresh := true } }⟩

def Context.push (context : Context) (transform : Transform) : Context :=
  { context with body := context.body ++ [transform] }

def Delegate.authorize (property : String) (identity : Option Identity) (context : Context) : Asked :=
  match identity with
  | none => ⟨.ok false, context⟩
  | some identity => ⟨.ok true, context.push (.embedIdentity property identity)⟩

def Transfer.authorize (request : Request) (property : String) (context : Context) : Asked :=
  if request.procedural then ⟨.ok false, context⟩
  else match request.authorization with
    | none => ⟨.ok true, context⟩
    | some credential => ⟨.ok true, context.push (.embedCredential property credential)⟩

/-! ## Asking -/

mutual

def Directive.authorize (services : Services) (request : Request) (identity : Option Identity)
    (context : Context) : Directive → Asked
  | .anonymous allow => ⟨.ok (Anonymous.authorize request allow), context⟩
  | .anyone allow => ⟨.ok (Anyone.authorize context allow), context⟩
  | .id parameter => ⟨.ok (Id.authorize request parameter identity), context⟩
  | .role roles => ⟨Role.authorize services request roles identity, context⟩
  | .rule directives => Rule.authorize services request identity context directives
  | .incept _ => ⟨.ok (Incept.authorize request identity), context⟩
  | .assert enabled => Assert.authorize services request enabled identity context
  | .scheme scheme => ⟨Scheme.authorize request scheme, context⟩
  | .echo => Echo.authorize services request identity context
  | .refresh => Refresh.authorize services request identity context
  | .delegate property => Delegate.authorize property identity context
  | .claims matchers => ⟨Federation.authorize services request matchers identity, context⟩
  | .input statements => ⟨.ok false, context.push (.check identity statements)⟩
  | .transfer property => Transfer.authorize request property context

def Rule.authorize (services : Services) (request : Request) (identity : Option Identity)
    (context : Context) : List Directive → Asked
  | [] => ⟨.ok true, context⟩
  | directive :: directives =>
    match Directive.authorize services request identity context directive with
    | ⟨.ok true, context⟩ => Rule.authorize services request identity context directives
    | asked => asked

end

mutual

/-- What is told of a directive with no request to ask it of. -/
def Directive.admits (services : Services) (request : Request) (identity : Option Identity) :
    Directive → Option Bool
  | .anonymous allow => some (Anonymous.authorize request allow)
  | .anyone allow => some (identity.isSome && allow)
  | .id _ => if identity.isNone then some false else none
  | .role roles => Role.admits services roles identity
  | .rule directives => Rule.admits services request identity false directives
  | .incept _ => none
  | .assert _ => some false
  | .scheme _ => some false
  | .echo => some !(identity.isNone && request.authorization.isSome)
  | .refresh => if identity.isNone then some false else none
  | .delegate _ => some identity.isSome
  | .claims _ => if identity.isNone then some false else none
  | .input _ => some false
  | .transfer _ => some !request.procedural

def Rule.admits (services : Services) (request : Request) (identity : Option Identity) (untold : Bool) :
    List Directive → Option Bool
  | [] => if untold then none else some true
  | directive :: directives =>
    match Directive.admits services request identity directive with
    | none => Rule.admits services request identity true directives
    | some false => some false
    | some true => Rule.admits services request identity untold directives

end

end Toa.Auth
