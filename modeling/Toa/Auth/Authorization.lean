import Toa.Auth.Directive

/-! A method's directives as they are asked: the first that authorizes a request admits it, each may have
something to settle with the reply, and a credential is re-issued at the end. -/

namespace Toa.Auth

def arrange (directives : List Directive) : List Directive :=
  let transfers : Directive → Bool
    | .transfer _ => true
    | _ => false
  let inputs : Directive → Bool
    | .input _ => true
    | _ => false
  match directives.find? transfers with
  | some transfer => [transfer]
  | none => directives.filter inputs ++ directives.filter fun directive => !inputs directive

/-! ## precall -/

/-- The answer of a directive that replies itself, in place of the operation. -/
structure Reply where
  status : Option ℕ
  body : Option Identity

def Directive.reply (services : Services) (request : Request) (context : Context) :
    Directive → Option Reply
  | .echo => some ⟨if context.identity.any fun identity => identity.scheme.isNone then some 201 else none,
      context.identity⟩
  | .refresh => some ⟨some 200, context.identity⟩
  | .incept none => some ⟨none, some (create services request.authorization)⟩
  | _ => none

def permits (services : Services) (request : Request) (permissions : List (Text × List Text)) : Bool :=
  permissions.any fun permission =>
    permission.2.any fun allowed => (allowed = ['*'] || allowed = request.method) &&
      services.glob permission.1 request.pathname

def permitted (services : Services) (request : Request) (context : Context) : Bool :=
  match context.identity.bind (·.permissions) with
  | none => true
  | some permissions => permits services request permissions

inductive Outcome
  /-- The directive at this place admitted the request. -/
  | admitted (place : ℕ) (reply : Option Reply)
  /-- The directive at this place authorized it, and the identity's permissions do not. -/
  | unpermitted (place : ℕ)
  | raised (error : Raised)
  | unadmitted (error : Raised)

def precall (services : Services) (request : Request) (place : ℕ) (context : Context) :
    List Directive → Outcome × Context
  | [] =>
    (.unadmitted (if context.identity.isNone then .Unauthorized none else .Forbidden none), context)
  | directive :: directives =>
    match directive.authorize services request context.identity context with
    | ⟨.error error, context⟩ => (.raised error, context)
    | ⟨.ok true, context⟩ =>
      if permitted services request context then
        (.admitted place (directive.reply services request context), context)
      else (.unpermitted place, context)
    | ⟨.ok false, context⟩ => precall services request (place + 1) context directives

/-! ## admits -/

def admits (services : Services) (request : Request) (identity : Option Identity) (untold : Bool) :
    List Directive → Bool
  | [] => untold
  | directive :: directives =>
    match directive.admits services request identity with
    | none => admits services request identity true directives
    | some true => true
    | some false => admits services request identity untold directives

/-! ## settle -/

/-- What a property of the reply's body is: a string, or another value. -/
inductive Value
  | text (value : Text)
  | other

/-- What a directive does with the reply: nothing to who the request is of, an identity in its place, or
an error. -/
inductive Settled
  | left
  | assigned (identity : Identity)
  | raised (error : Raised)

def Incept.settle (services : Services) (request : Request) (property : Option String)
    (body : String → Option Value) : Settled :=
  match body (property.getD "id") with
  | none => .left
  | some .other => .raised (.Error
      ("Response body property \"".toList ++ ((property.map String.toList).getD "null".toList) ++
        "\" expected to be a string".toList))
  | some (.text id) =>
    if request.authorization.isSome then
      match Incept.incept services request id with
      | .error error => .raised error
      | .ok identity => .assigned identity
    else .assigned ⟨id, some (services.list id), none, none, none, true, none⟩

/-- `settle` of a transfer is the reply's headers' alone, and no other directive has one. -/
def Directive.settle (services : Services) (request : Request) (body : String → Option Value) :
    Directive → Settled
  | .incept property => Incept.settle services request property body
  | _ => .left

def settle (services : Services) (request : Request) (body : String → Option Value)
    (directives : List Directive) : List Settled :=
  directives.map fun directive => directive.settle services request body

/-! ## depart -/

def depart (services : Services) (request : Request) (context : Context) :
    Except Raised (Option Identity) :=
  match context.identity with
  | none => .ok none
  | some identity =>
    if identity.provider = some PRIMARY && !identity.refresh then .ok none
    else if !request.vetted && services.banned identity.id then .error (.Unauthorized none)
    else .ok (some { identity with
      roles := some (if identity.provider = some PRIMARY then services.list identity.id
        else services.rolesOf identity) })

end Toa.Auth
