import Toa.Identity.Keys
import Toa.Operation.Once

/-! Basic credentials, which one call of `transit` makes or changes. A change has two other components
revoke what was issued, step by step, before it is checked and committed, while others issue tokens,
revoke them, and commit. -/

set_option linter.unusedSectionVars false

namespace Toa.Identity.Basic
open Toa.Run

structure Record where
  authority : String
  username : String
  password : String
  VERSION : ℕ
  DELETED : Option ℕ
deriving DecidableEq

/-- A record as it is acquired, a blank where there is none. -/
structure Entity where
  authority : Option String
  username : Option String
  password : Option String
  VERSION : ℕ
  DELETED : Option ℕ
deriving DecidableEq

def Entity.blank : Entity := ⟨none, none, none, 0, none⟩

def Record.entity (record : Record) : Entity :=
  ⟨some record.authority, some record.username, some record.password, record.VERSION, record.DELETED⟩

structure Principal where
  authority : String
  username : String
deriving DecidableEq

/-- An expression is what it tests. `hash` is of the cost, a salt and what is hashed. -/
structure Configuration where
  rounds : ℕ
  pepper : String
  principal : Option Principal
  usernameRx : List (String → Bool)
  passwordRx : List (String → Bool)
  hash : ℕ → String → String → String

structure Input where
  authority : Option String
  username : Option String
  password : Option String
  inception : Option Bool
deriving DecidableEq

inductive Error
  | EXISTS
  | PRINCIPAL_LOCKED
  | INVALID_USERNAME
  | INVALID_PASSWORD
deriving DecidableEq

/-! ## transit -/

def locked (configuration : Configuration) (object : Entity) : Bool :=
  configuration.principal.any fun principal =>
    object.authority = some principal.authority && object.username = some principal.username

def invalid (value : String) (expressions : List (String → Bool)) : Bool :=
  expressions.any fun expression => !expression value

def Entity.existent (object : Entity) : Bool := object.VERSION ≠ 0 && object.DELETED.isNone

/-- The part of `execute` that is about the username. -/
def named (configuration : Configuration) (input : Input) (existent : Bool) (object : Entity) :
    Except Error Entity :=
  match input.username with
  | none => .ok object
  | some username =>
    if existent && locked configuration object then .error .PRINCIPAL_LOCKED
    else if invalid username configuration.usernameRx then .error .INVALID_USERNAME
    else .ok { object with username := some username }

/-- The part of `execute` that is about the password. -/
def secured (configuration : Configuration) (salt : String) (input : Input) (object : Entity) :
    Except Error Entity :=
  match input.password with
  | none => .ok object
  | some password =>
    if invalid password configuration.passwordRx then .error .INVALID_PASSWORD
    else
      let spicy := password ++ configuration.pepper
      .ok { object with password := some (configuration.hash configuration.rounds salt spicy) }

/-- Whether there is something to revoke, and the two revocations are awaited. -/
def revokes (input : Input) (object : Entity) : Bool := object.existent && input.inception ≠ some true

/-- What `execute` leaves of the object, once the revocations it awaits have completed. -/
def execute (configuration : Configuration) (salt : String) (input : Input) (object : Entity) :
    Except Error Entity :=
  let existent := object.existent
  if existent && input.inception = some true then .error .EXISTS
  else
    let object :=
      if existent then object else { object with authority := input.authority <|> object.authority }
    match named configuration input existent object with
    | .error error => .error error
    | .ok object => secured configuration salt input object

def Entity.written (object : Entity) : Option Record :=
  match object.authority, object.username, object.password with
  | some authority, some username, some password =>
    some ⟨authority, username, password, object.VERSION + 1, none⟩
  | _, _, _ => none

/-! ## The world of a call -/

structure Tokens where
  VERSION : ℕ
  revokedAt : Option ℕ
deriving DecidableEq

def Tokens.revoke (tokens : Tokens) (moment : ℕ) : Tokens := ⟨tokens.VERSION + 1, some moment⟩

/-- A token of the identity; a custom one is under a key, and a transient one expires. `authenticate` reads
the revocation of no other, but where it is forced. -/
structure Token (κ : Type*) where
  iat : ℕ
  kid : Option κ
  transient : Bool
deriving DecidableEq

section
variable {ι κ : Type*} [DecidableEq ι] [DecidableEq κ]

def closed (keys : Keys.Store ι κ) (kid : κ) : Bool :=
  keys.all.any fun k => k.id = kid && (k.revokedAt.isSome || k.DELETED.isSome)

structure World (ι κ : Type*) where
  now : ℕ
  record : Option Record
  tokens : Tokens
  keys : Keys.Store ι κ
  issued : List (Token κ)

namespace World

def version (w : World ι κ) : ℕ := w.record.elim 0 (·.VERSION)

def revoked (w : World ι κ) (token : Token κ) : Bool :=
  (token.transient && w.tokens.revokedAt.any (token.iat < ·)) || token.kid.any (closed w.keys)

end World

inductive Other (ι κ : Type*)
  | wait (time : ℕ)
  | issue (kid : Option κ) (transient : Bool)
  | change (made : Keys.Change ι κ)
  | revoke (moment : ℕ)
  | write (record : Record)

def Tokens.revocable (tokens : Tokens) (now moment : ℕ) : Bool :=
  tokens.revokedAt.all (· ≤ moment) && moment ≤ now

def Other.enabled (w : World ι κ) : Other ι κ → Bool
  | .wait _ | .issue .. => true
  | .change made => made.enabled w.keys
  | .revoke moment => w.tokens.revocable w.now moment
  | .write record => record.VERSION = w.version + 1

def World.apply (w : World ι κ) : Other ι κ → World ι κ
  | .wait time => { w with now := w.now + time }
  | .issue kid transient => { w with issued := ⟨w.now, kid, transient⟩ :: w.issued }
  | .change made => { w with keys := w.keys.apply made }
  | .revoke moment => { w with tokens := w.tokens.revoke moment }
  | .write record => { w with record := some record }

/-! ## A call -/

structure Request where
  input : Input
  /-- `query.options.deleted` -/
  deleted : Bool

/-- `since` is when the object was acquired, `told` whether the revocation of tokens has completed, and
`left` what is to be disabled of the keys that were read. `attempt` counts the runs of the steps before
this one. -/
inductive Stage (κ : Type*)
  | idle (attempt : ℕ)
  | acquired (attempt : ℕ) (object : Entity) (since : ℕ) (told : Bool) (left : Option (List κ))
  | executed (attempt : ℕ) (existent : Bool) (object : Entity)
  | failed (error : Error)
  | lost
  | committed (existent : Bool) (issued : List (Token κ))
  | thrown

/-- `alone` is the world as it would be without the call, and `told` counts the revocations of tokens that
the call has made. -/
structure State (ι κ : Type*) where
  world : World ι κ
  alone : World ι κ
  stage : Stage κ
  told : ℕ

def State.init (w : World ι κ) : State ι κ := ⟨w, w, .idle 0, 0⟩

inductive Act (ι κ : Type*)
  | other (other : Other ι κ)
  | acquire
  | tell (moment : ℕ)
  | read (ids : List κ)
  | disable (id : κ) (moment : ℕ)
  | execute (salt : String)
  | commit
  | fail

section
variable (configuration : Configuration) (identity : ι) (request : Request)

/-- `store` of what `set` has made of the object, which writes over the version that was acquired only. -/
def commit (s : State ι κ) (attempt : ℕ) (existent : Bool) (object : Entity) : State ι κ :=
  match object.written with
  | none => { s with stage := .thrown }
  | some record =>
    if s.world.version = object.VERSION then
      { s with
        world := { s.world with record := some record }
        stage := .committed existent s.world.issued }
    else if attempt < Operation.RETRIES then { s with stage := .idle (attempt + 1) }
    else { s with stage := .lost }

/-- One call of `transit`, and what others do in the meantime. A remote call that throws, a request its
contract refuses and a query nothing answers are failures of the call, which returns no error then. -/
def step (s : State ι κ) : Act ι κ → Option (State ι κ)
  | .other other =>
    if other.enabled s.world then
      some { s with world := s.world.apply other, alone := s.alone.apply other }
    else none
  | .acquire =>
    match s.stage with
    | .idle attempt =>
      let object := s.world.record.elim .blank Record.entity
      if object.DELETED.isSome && !request.deleted then some { s with stage := .thrown }
      else some { s with stage := .acquired attempt object s.world.now false none }
    | _ => none
  | .tell moment =>
    match s.stage with
    | .acquired attempt object since false left =>
      if revokes request.input object && since ≤ moment && s.world.tokens.revocable s.world.now moment then
        some { s with
          world := { s.world with tokens := s.world.tokens.revoke moment }
          stage := .acquired attempt object since true left
          told := s.told + 1 }
      else none
    | _ => none
  | .read ids =>
    match s.stage with
    | .acquired attempt object since told none =>
      if revokes request.input object ∧ Keys.Answers identity s.world.keys ids then
        some { s with stage := .acquired attempt object since told (some ids) }
      else none
    | _ => none
  | .disable id moment =>
    match s.stage with
    | .acquired attempt object since told (some left) =>
      if revokes request.input object ∧ id ∈ left ∧ s.world.keys.live id then
        some { s with
          world := { s.world with keys := s.world.keys.disable id moment }
          stage := .acquired attempt object since told (some (left.erase id)) }
      else none
    | _ => none
  | .execute salt =>
    match s.stage with
    | .acquired attempt object _ told left =>
      if revokes request.input object → told ∧ left = some [] then
        match execute configuration salt request.input object with
        | .error error => some { s with stage := .failed error }
        | .ok executed => some { s with stage := .executed attempt object.existent executed }
      else none
    | _ => none
  | .commit =>
    match s.stage with
    | .executed attempt existent object => some (commit s attempt existent object)
    | _ => none
  | .fail =>
    match s.stage with
    | .failed _ | .lost | .committed .. | .thrown => none
    | _ => some { s with stage := .thrown }

/-! ## What is to hold -/

def Stage.refused : Stage κ → Bool
  | .failed _ | .lost => true
  | _ => false

/-- A refused call has changed nothing, and where existing credentials were changed, whatever was issued
before the commit is revoked. -/
def Holds (s : State ι κ) : Prop :=
  (s.stage.refused → s.world = s.alone) ∧
  ∀ issued, s.stage = .committed true issued → ∀ token ∈ issued, s.world.revoked token

/-! ## What keeps it so -/

/-- What `execute` checks of its input. -/
def admitted (input : Input) (object : Entity) : Bool :=
  input.username.all (fun username =>
    !(object.existent && locked configuration object) && !invalid username configuration.usernameRx) &&
  input.password.all fun password => !invalid password configuration.passwordRx

/-- A token that does not expire is revoked by what the call is to disable only. -/
def reached (keys : Keys.Store ι κ) (left : List κ) (token : Token κ) : Bool :=
  token.transient || token.kid.any fun kid => closed keys kid || kid ∈ left

def covered (keys : Keys.Store ι κ) (token : Token κ) : Stage κ → Bool
  | .acquired _ _ _ told left => !(told && token.transient) && left.all (reached keys · token)
  | .executed _ true _ => token.kid.any (closed keys)
  | _ => true

/-- The call is not refused once it has revoked, reads the key of every token that is under one, and is
not overtaken by a token. -/
def careful (s : State ι κ) : Act ι κ → Bool
  | .other (.issue kid transient) => covered s.world.keys ⟨s.world.now, kid, transient⟩ s.stage
  | .tell moment => s.world.issued.all fun token => !token.transient || token.iat < moment
  | .read ids => s.world.issued.all (reached s.world.keys ids)
  | .execute _ =>
    match s.stage with
    | .acquired _ object _ _ _ => s.told = 0 || admitted configuration request.input object
    | _ => true
  | .commit =>
    match s.stage with
    | .executed attempt _ object =>
      s.told = 0 || s.world.version = object.VERSION || attempt < Operation.RETRIES
    | _ => true
  | _ => true

end

/-! ## What a step does -/

section
variable {configuration : Configuration} {identity : ι} {request : Request} {s t : State ι κ}
  {act : Act ι κ} {acts : List (Act ι κ)}

inductive Outcome (configuration : Configuration) (identity : ι) (request : Request) (s : State ι κ) :
    Act ι κ → State ι κ → Prop
  | other (other : Other ι κ) (henabled : other.enabled s.world) :
    Outcome configuration identity request s (.other other)
      { s with world := s.world.apply other, alone := s.alone.apply other }
  | acquire (attempt : ℕ) (object : Entity) (hstage : s.stage = .idle attempt) :
    Outcome configuration identity request s .acquire
      { s with stage := .acquired attempt object s.world.now false none }
  | tell (attempt : ℕ) (object : Entity) (since : ℕ) (left : Option (List κ)) (moment : ℕ)
    (hstage : s.stage = .acquired attempt object since false left)
    (hrevokes : revokes request.input object)
    (hmoment : s.world.tokens.revocable s.world.now moment) :
    Outcome configuration identity request s (.tell moment)
      { s with
        world := { s.world with tokens := s.world.tokens.revoke moment }
        stage := .acquired attempt object since true left
        told := s.told + 1 }
  | read (attempt : ℕ) (object : Entity) (since : ℕ) (told : Bool) (ids : List κ)
    (hstage : s.stage = .acquired attempt object since told none)
    (hrevokes : revokes request.input object) (hanswers : Keys.Answers identity s.world.keys ids) :
    Outcome configuration identity request s (.read ids)
      { s with stage := .acquired attempt object since told (some ids) }
  | disable (attempt : ℕ) (object : Entity) (since : ℕ) (told : Bool) (left : List κ) (id : κ)
    (moment : ℕ) (hstage : s.stage = .acquired attempt object since told (some left))
    (hrevokes : revokes request.input object) (hlive : s.world.keys.live id) :
    Outcome configuration identity request s (.disable id moment)
      { s with
        world := { s.world with keys := s.world.keys.disable id moment }
        stage := .acquired attempt object since told (some (left.erase id)) }
  | refuse (attempt : ℕ) (object : Entity) (since : ℕ) (told : Bool) (left : Option (List κ))
    (salt : String) (error : Error) (hstage : s.stage = .acquired attempt object since told left)
    (hrevoked : revokes request.input object → told ∧ left = some [])
    (herror : execute configuration salt request.input object = .error error) :
    Outcome configuration identity request s (.execute salt) { s with stage := .failed error }
  | execute (attempt : ℕ) (object : Entity) (since : ℕ) (told : Bool) (left : Option (List κ))
    (salt : String) (executed : Entity) (hstage : s.stage = .acquired attempt object since told left)
    (hrevoked : revokes request.input object → told ∧ left = some [])
    (hok : execute configuration salt request.input object = .ok executed) :
    Outcome configuration identity request s (.execute salt)
      { s with stage := .executed attempt object.existent executed }
  | commit (attempt : ℕ) (existent : Bool) (object : Entity) (record : Record)
    (hstage : s.stage = .executed attempt existent object) :
    Outcome configuration identity request s .commit
      { s with
        world := { s.world with record := some record }
        stage := .committed existent s.world.issued }
  | retry (attempt : ℕ) (existent : Bool) (object : Entity)
    (hstage : s.stage = .executed attempt existent object) :
    Outcome configuration identity request s .commit { s with stage := .idle (attempt + 1) }
  | lose (attempt : ℕ) (existent : Bool) (object : Entity)
    (hstage : s.stage = .executed attempt existent object)
    (hversion : s.world.version ≠ object.VERSION) (hattempt : ¬ attempt < Operation.RETRIES) :
    Outcome configuration identity request s .commit { s with stage := .lost }
  | fail (act : Act ι κ) : Outcome configuration identity request s act { s with stage := .thrown }

theorem step_outcome (h : step configuration identity request s act = some t) :
    Outcome configuration identity request s act t := by
  cases act with
  | other other =>
    simp only [step, Option.ite_none_right_eq_some, Option.some.injEq] at h
    rw [← h.2]
    exact .other other h.1
  | acquire =>
    dsimp only [step] at h
    split at h
    · rename_i attempt hstage
      split at h
      · cases h
        exact .fail _
      · cases h
        exact .acquire attempt _ hstage
    · cases h
  | tell moment =>
    dsimp only [step] at h
    split at h
    · rename_i attempt object since left hstage
      simp only [Option.ite_none_right_eq_some, Option.some.injEq, Bool.and_eq_true] at h
      rw [← h.2]
      exact .tell attempt object since left moment hstage h.1.1.1 h.1.2
    · cases h
  | read ids =>
    dsimp only [step] at h
    split at h
    · rename_i attempt object since told hstage
      simp only [Option.ite_none_right_eq_some, Option.some.injEq] at h
      rw [← h.2]
      exact .read attempt object since told ids hstage h.1.1 h.1.2
    · cases h
  | disable id moment =>
    dsimp only [step] at h
    split at h
    · rename_i attempt object since told left hstage
      simp only [Option.ite_none_right_eq_some, Option.some.injEq] at h
      rw [← h.2]
      exact .disable attempt object since told left id moment hstage h.1.1 h.1.2.2
    · cases h
  | execute salt =>
    dsimp only [step] at h
    split at h
    · rename_i attempt object since told left hstage
      split at h
      · rename_i hrevoked
        split at h
        · rename_i error herror
          cases h
          exact .refuse attempt object since told left salt error hstage hrevoked herror
        · rename_i executed hok
          cases h
          exact .execute attempt object since told left salt executed hstage hrevoked hok
      · cases h
    · cases h
  | commit =>
    dsimp only [step] at h
    split at h
    · rename_i attempt existent object hstage
      cases h
      unfold commit
      split
      · exact .fail _
      · rename_i record hwritten
        split_ifs with hversion hattempt
        · exact .commit attempt existent object record hstage
        · exact .retry attempt existent object hstage
        · exact .lose attempt existent object hstage hversion hattempt
    · cases h
  | fail =>
    dsimp only [step] at h
    split at h <;> cases h
    exact .fail _

/-! ## What a refused call leaves -/

def Kept (input : Input) (w a : World ι κ) : Stage κ → Prop
  | .acquired _ object _ told _ =>
    told = false ∧ w = { a with keys := w.keys } ∧ (revokes input object = false → w = a)
  | .committed .. | .thrown => True
  | _ => w = a

structure Accounted (input : Input) (s : State ι κ) : Prop where
  versions : s.world.tokens.VERSION = s.alone.tokens.VERSION + s.told
  inception : s.told ≠ 0 → input.inception ≠ some true
  kept : s.told = 0 → Kept input s.world s.alone s.stage

theorem apply_keys (a : World ι κ) (keys : Keys.Store ι κ) (other : Other ι κ) :
    ({ a with keys := keys }).apply other =
      { a.apply other with keys := (({ a with keys := keys }).apply other).keys } := by
  cases other <;> rfl

theorem kept_apply {input : Input} {w a : World ι κ} {stage : Stage κ} (h : Kept input w a stage)
    (other : Other ι κ) : Kept input (w.apply other) (a.apply other) stage := by
  cases stage with
  | acquired attempt object since told left =>
    obtain ⟨htold, hkeys, hsame⟩ := h
    refine ⟨htold, ?_, fun hrevokes => congrArg (·.apply other) (hsame hrevokes)⟩
    rw [hkeys]
    exact apply_keys a w.keys other
  | committed existent issued => trivial
  | thrown => trivial
  | idle attempt => exact congrArg (·.apply other) h
  | executed attempt existent object => exact congrArg (·.apply other) h
  | failed error => exact congrArg (·.apply other) h
  | lost => exact congrArg (·.apply other) h

theorem versions_apply {w a : World ι κ} {told : ℕ} (h : w.tokens.VERSION = a.tokens.VERSION + told)
    (other : Other ι κ) : (w.apply other).tokens.VERSION = (a.apply other).tokens.VERSION + told := by
  cases other with
  | revoke moment =>
    simp only [World.apply, Tokens.revoke]
    omega
  | wait time => exact h
  | issue kid transient => exact h
  | change made => exact h
  | write record => exact h

theorem inception_of_revokes {input : Input} {object : Entity} (h : revokes input object) :
    input.inception ≠ some true := by
  simp only [revokes, Bool.and_eq_true, decide_eq_true_eq] at h
  exact h.2

theorem Accounted.kept_at {input : Input} {stage : Stage κ} (h : Accounted input s)
    (hstage : s.stage = stage) (htold : s.told = 0) : Kept input s.world s.alone stage :=
  hstage ▸ h.kept htold

theorem kept_executed {w a : World ι κ} {input : Input} {attempt since : ℕ} {object : Entity}
    {told : Bool} {left : Option (List κ)}
    (h : Kept input w a (.acquired attempt object since told left))
    (hrevoked : revokes input object → told ∧ left = some []) : w = a := by
  obtain ⟨htold, -, hsame⟩ := h
  refine hsame (Bool.eq_false_iff.mpr fun hrevokes => ?_)
  rw [htold] at hrevoked
  exact Bool.false_ne_true (hrevoked hrevokes).1

theorem accounted_step (hs : Accounted request.input s)
    (h : step configuration identity request s act = some t) : Accounted request.input t := by
  have hversions := hs.versions
  have hinception := hs.inception
  cases step_outcome h with
  | other other henabled =>
    exact ⟨versions_apply hversions other, hinception, fun htold => kept_apply (hs.kept htold) other⟩
  | acquire attempt object hstage =>
    refine ⟨hversions, hinception, fun htold => ?_⟩
    have hsame : s.world = s.alone := hs.kept_at hstage htold
    refine ⟨rfl, ?_, fun _ => hsame⟩
    dsimp only
    rw [hsame]
  | tell attempt object since left moment hstage hrevokes hmoment =>
    refine ⟨?_, fun _ => inception_of_revokes hrevokes, fun htold => absurd htold (Nat.succ_ne_zero _)⟩
    simp only [Tokens.revoke]
    omega
  | read attempt object since told ids hstage hrevokes hanswers =>
    refine ⟨hversions, hinception, fun htold => ?_⟩
    have hkept := hs.kept_at hstage htold
    exact hkept
  | disable attempt object since told left id moment hstage hrevokes hlive =>
    refine ⟨hversions, hinception, fun htold => ?_⟩
    obtain ⟨hfalse, hkeys, -⟩ := hs.kept_at hstage htold
    refine ⟨hfalse, ?_, fun hnot => ?_⟩
    · dsimp only
      rw [hkeys]
    · rw [hrevokes] at hnot
      cases hnot
  | refuse attempt object since told left salt error hstage hrevoked herror =>
    exact ⟨hversions, hinception, fun htold => kept_executed (hs.kept_at hstage htold) hrevoked⟩
  | execute attempt object since told left salt executed hstage hrevoked hok =>
    exact ⟨hversions, hinception, fun htold => kept_executed (hs.kept_at hstage htold) hrevoked⟩
  | commit attempt existent object record hstage => exact ⟨hversions, hinception, fun _ => trivial⟩
  | retry attempt existent object hstage =>
    refine ⟨hversions, hinception, fun htold => ?_⟩
    have hsame : s.world = s.alone := hs.kept_at hstage htold
    exact hsame
  | lose attempt existent object hstage hversion hattempt =>
    refine ⟨hversions, hinception, fun htold => ?_⟩
    have hsame : s.world = s.alone := hs.kept_at hstage htold
    exact hsame
  | fail => exact ⟨hversions, hinception, fun _ => trivial⟩

theorem accounted_run {w : World ι κ}
    (hrun : run (step configuration identity request) (.init w) acts = some s) :
    Accounted request.input s := by
  have hinit : Accounted request.input (.init w) := ⟨rfl, fun h => absurd rfl h, fun _ => rfl⟩
  exact run_invariant_all (fun _ _ _ hs h => accounted_step hs h) hinit hrun

/-- A refused call has changed nothing exactly where it has revoked nothing. -/
theorem unchanged_iff {w : World ι κ}
    (hrun : run (step configuration identity request) (.init w) acts = some s)
    (hrefused : s.stage.refused) : s.world = s.alone ↔ s.told = 0 := by
  obtain ⟨hversions, -, hkept⟩ := accounted_run hrun
  constructor
  · intro hsame
    rw [hsame] at hversions
    omega
  · intro htold
    have hsame := hkept htold
    cases hstage : s.stage with
    | failed error => rwa [hstage] at hsame
    | lost => rwa [hstage] at hsame
    | idle | acquired | executed | committed | thrown =>
      rw [hstage] at hrefused
      cases hrefused

/-! ## What is revoked stays so -/

theorem closed_iff {keys : Keys.Store ι κ} {kid : κ} :
    closed keys kid ↔ ∃ k ∈ keys.all, k.id = kid ∧ (k.revokedAt.isSome || k.DELETED.isSome) := by
  simp only [closed, List.any_eq_true, Bool.and_eq_true, decide_eq_true_eq]

theorem closed_modify {keys : Keys.Store ι κ} {kid : κ} (target : κ)
    (f : Keys.Key ι κ → Keys.Key ι κ) (hf : ∀ k, (f k).id = k.id)
    (hclosed : ∀ k, (f k).revokedAt.isSome || (f k).DELETED.isSome) (h : closed keys kid) :
    closed (keys.modify target f hf) kid := by
  obtain ⟨k, hk, hid, hkey⟩ := closed_iff.mp h
  refine closed_iff.mpr ⟨_, Keys.mem_modify hk target f hf, ?_⟩
  split
  · exact ⟨(hf k).trans hid, hclosed k⟩
  · exact ⟨hid, hkey⟩

theorem closed_disable {keys : Keys.Store ι κ} {kid : κ} (target : κ) (moment : ℕ)
    (h : closed keys kid) : closed (keys.disable target moment) kid :=
  closed_modify target (·.disable moment) (fun _ => rfl) (fun _ => rfl) h

theorem closed_apply {keys : Keys.Store ι κ} {kid : κ} (made : Keys.Change ι κ)
    (h : closed keys kid) : closed (keys.apply made) kid := by
  cases made with
  | create id identity expires =>
    dsimp only [Keys.Store.apply]
    split
    · obtain ⟨k, hk, hkey⟩ := closed_iff.mp h
      exact closed_iff.mpr ⟨k, List.mem_append_left _ hk, hkey⟩
    · exact h
  | disable id moment => exact closed_disable id moment h
  | terminate id moment =>
    refine closed_modify id (·.terminate moment) (fun _ => rfl) (fun k => ?_) h
    simp only [Keys.Key.terminate, Option.isSome_some, Bool.or_true]

theorem closed_disabled {keys : Keys.Store ι κ} {id : κ} (moment : ℕ) (h : keys.live id) :
    closed (keys.disable id moment) id := by
  obtain ⟨k, hk, hid, hrevoked⟩ := Keys.revoked_disable moment h
  exact closed_iff.mpr ⟨k, hk, hid, by rw [hrevoked]; rfl⟩

theorem revoked_iff {w : World ι κ} {token : Token κ} : w.revoked token ↔
    (token.transient ∧ w.tokens.revokedAt.any (token.iat < ·)) ∨
      ∃ kid, token.kid = some kid ∧ closed w.keys kid := by
  simp only [World.revoked, Bool.or_eq_true, Bool.and_eq_true, Option.any_eq_true]

theorem reached_iff {keys : Keys.Store ι κ} {left : List κ} {token : Token κ} :
    reached keys left token ↔
      token.transient ∨ ∃ kid, token.kid = some kid ∧ (closed keys kid ∨ kid ∈ left) := by
  simp only [reached, Bool.or_eq_true, Option.any_eq_true, decide_eq_true_eq]

theorem passed_revoke {tokens : Tokens} {now moment iat : ℕ} (hmoment : tokens.revocable now moment)
    (h : tokens.revokedAt.any (iat < ·)) : (tokens.revoke moment).revokedAt.any (iat < ·) := by
  obtain ⟨before, hbefore, hiat⟩ := (Option.any_eq_true _ _).mp h
  simp only [Tokens.revocable, hbefore, Option.all_some, Bool.and_eq_true, decide_eq_true_eq] at hmoment
  simp only [decide_eq_true_eq] at hiat
  exact decide_eq_true (hiat.trans_le hmoment.1)

theorem passed_apply {w : World ι κ} {iat : ℕ} {other : Other ι κ} (henabled : other.enabled w)
    (h : w.tokens.revokedAt.any (iat < ·)) : (w.apply other).tokens.revokedAt.any (iat < ·) := by
  cases other with
  | revoke moment => exact passed_revoke henabled h
  | wait time => exact h
  | issue kid transient => exact h
  | change made => exact h
  | write record => exact h

theorem closed_applied {w : World ι κ} {kid : κ} (other : Other ι κ) (h : closed w.keys kid) :
    closed (w.apply other).keys kid := by
  cases other with
  | change made => exact closed_apply made h
  | wait time => exact h
  | issue kid transient => exact h
  | revoke moment => exact h
  | write record => exact h

theorem revoked_apply {w : World ι κ} {token : Token κ} {other : Other ι κ}
    (henabled : other.enabled w) (h : w.revoked token) : (w.apply other).revoked token := by
  rcases revoked_iff.mp h with ⟨hdated, hpassed⟩ | ⟨kid, hkid, hclosed⟩
  · exact revoked_iff.mpr (.inl ⟨hdated, passed_apply henabled hpassed⟩)
  · exact revoked_iff.mpr (.inr ⟨kid, hkid, closed_applied other hclosed⟩)

theorem reached_mono {keys keys' : Keys.Store ι κ} {left left' : List κ} {token : Token κ}
    (hclosed : ∀ kid, closed keys kid → closed keys' kid)
    (hleft : ∀ kid ∈ left, closed keys' kid ∨ kid ∈ left') (h : reached keys left token) :
    reached keys' left' token := by
  rcases reached_iff.mp h with hdated | ⟨kid, hkid, hkey | hmem⟩
  · exact reached_iff.mpr (.inl hdated)
  · exact reached_iff.mpr (.inr ⟨kid, hkid, .inl (hclosed kid hkey)⟩)
  · exact reached_iff.mpr (.inr ⟨kid, hkid, hleft kid hmem⟩)

/-! ## What a careful call leaves -/

/-- What is revoked of what was issued, and what is to be by what is left to do. -/
def Covered (w : World ι κ) : Stage κ → Prop
  | .acquired _ _ _ told left =>
    (told → ∀ token ∈ w.issued, token.transient → w.tokens.revokedAt.any (token.iat < ·)) ∧
    ∀ ids, left = some ids → ∀ token ∈ w.issued, reached w.keys ids token
  | .executed _ true _ => ∀ token ∈ w.issued, w.revoked token
  | .committed true issued => ∀ token ∈ issued, w.revoked token
  | _ => True

structure Careful (s : State ι κ) : Prop where
  quiet : s.stage.refused → s.told = 0
  covers : Covered s.world s.stage

theorem covered_issue {w : World ι κ} {stage : Stage κ} {kid : Option κ} {transient : Bool}
    (h : Covered w stage) (hok : covered w.keys ⟨w.now, kid, transient⟩ stage) :
    Covered (w.apply (.issue kid transient)) stage := by
  match stage with
  | .acquired attempt object since told left =>
    simp only [covered, Bool.and_eq_true] at hok
    refine ⟨fun htold token hmem hdated => ?_, fun ids hids token hmem => ?_⟩
    · rcases List.mem_cons.mp hmem with rfl | hmem
      · rw [htold, show transient = true from hdated] at hok
        exact absurd hok.1 Bool.false_ne_true
      · exact h.1 htold token hmem hdated
    · rcases List.mem_cons.mp hmem with rfl | hmem
      · rw [hids] at hok
        exact hok.2
      · exact h.2 ids hids token hmem
  | .executed attempt true object =>
    intro token hmem
    rcases List.mem_cons.mp hmem with rfl | hmem
    · exact revoked_iff.mpr (.inr ((Option.any_eq_true _ _).mp hok))
    · exact h token hmem
  | .committed true issued => exact h
  | .executed _ false _ | .committed false _ | .idle _ | .failed _ | .lost | .thrown => trivial

theorem covered_apply {w : World ι κ} {stage : Stage κ} {other : Other ι κ}
    (henabled : other.enabled w) (h : Covered w stage) (hissued : (w.apply other).issued = w.issued) :
    Covered (w.apply other) stage := by
  match stage with
  | .acquired attempt object since told left =>
    refine ⟨fun htold token hmem hdated => ?_, fun ids hids token hmem => ?_⟩
    · rw [hissued] at hmem
      exact passed_apply henabled (h.1 htold token hmem hdated)
    · rw [hissued] at hmem
      exact reached_mono (fun _ => closed_applied other) (fun _ => .inr) (h.2 ids hids token hmem)
  | .executed attempt true object =>
    intro token hmem
    rw [hissued] at hmem
    exact revoked_apply henabled (h token hmem)
  | .committed true issued => exact fun token hmem => revoked_apply henabled (h token hmem)
  | .executed _ false _ | .committed false _ | .idle _ | .failed _ | .lost | .thrown => trivial

theorem named_ok {input : Input} {existent : Bool} {object : Entity}
    (h : input.username.all fun username =>
      !(existent && locked configuration object) && !invalid username configuration.usernameRx) :
    ∃ made, named configuration input existent object = .ok made := by
  unfold named
  split
  · exact ⟨_, rfl⟩
  · rename_i username husername
    simp only [husername, Option.all_some, Bool.and_eq_true, Bool.not_eq_true'] at h
    rw [h.1, h.2]
    exact ⟨_, rfl⟩

theorem secured_ok {salt : String} {input : Input} {object : Entity}
    (h : input.password.all fun password => !invalid password configuration.passwordRx) :
    ∃ made, secured configuration salt input object = .ok made := by
  unfold secured
  split
  · exact ⟨_, rfl⟩
  · rename_i password hpassword
    simp only [hpassword, Option.all_some, Bool.not_eq_true'] at h
    rw [h]
    exact ⟨_, rfl⟩

theorem execute_error {salt : String} {input : Input} {object : Entity} {error : Error}
    (hadmitted : admitted configuration input object)
    (h : execute configuration salt input object = .error error) : input.inception = some true := by
  by_contra hinception
  simp only [admitted, Bool.and_eq_true] at hadmitted
  let given : Entity :=
    if object.existent then object else { object with authority := input.authority <|> object.authority }
  have hnamed : ∃ made, named configuration input object.existent given = .ok made := by
    refine named_ok ?_
    cases hexistent : object.existent with
    | true => simpa only [given, hexistent, if_true] using hadmitted.1
    | false => simpa only [hexistent, Bool.false_and] using hadmitted.1
  obtain ⟨made, hmade⟩ := hnamed
  obtain ⟨executed, hexecuted⟩ : ∃ executed, secured configuration salt input made = .ok executed :=
    secured_ok hadmitted.2
  have hok : execute configuration salt input object = .ok executed := by
    dsimp only [execute]
    rw [if_neg (by simp [hinception]), hmade]
    exact hexecuted
  rw [hok] at h
  cases h

theorem revokes_of_ok {salt : String} {input : Input} {object executed : Entity}
    (h : execute configuration salt input object = .ok executed) (hexistent : object.existent) :
    revokes input object := by
  dsimp only [execute] at h
  split at h
  · cases h
  · rename_i hnot
    simp only [hexistent, Bool.true_and, decide_eq_true_eq] at hnot
    simp only [revokes, hexistent, Bool.true_and, decide_eq_true_eq]
    exact hnot

theorem careful_step (hinception : s.told ≠ 0 → request.input.inception ≠ some true) (hs : Careful s)
    (hok : careful configuration request s act) (h : step configuration identity request s act = some t) :
    Careful t := by
  obtain ⟨hquiet, hcovers⟩ := hs
  cases step_outcome h with
  | other other henabled =>
    refine ⟨hquiet, ?_⟩
    cases other with
    | issue kid transient => exact covered_issue hcovers hok
    | wait time => exact covered_apply henabled hcovers rfl
    | change made => exact covered_apply henabled hcovers rfl
    | revoke moment => exact covered_apply henabled hcovers rfl
    | write record => exact covered_apply henabled hcovers rfl
  | acquire attempt object hstage =>
    exact ⟨(nomatch ·), (nomatch ·), fun ids hids => nomatch hids⟩
  | tell attempt object since left moment hstage hrevokes hmoment =>
    rw [hstage] at hcovers
    refine ⟨(nomatch ·), fun _ token hmem hdated => ?_, hcovers.2⟩
    have htoken := List.all_eq_true.mp hok token hmem
    simp only [hdated, Bool.not_true, Bool.false_or] at htoken
    exact htoken
  | read attempt object since told ids hstage hrevokes hanswers =>
    rw [hstage] at hcovers
    refine ⟨(nomatch ·), hcovers.1, fun ids' hids token hmem => ?_⟩
    cases hids
    exact List.all_eq_true.mp hok token hmem
  | disable attempt object since told left id moment hstage hrevokes hlive =>
    rw [hstage] at hcovers
    refine ⟨(nomatch ·), hcovers.1, fun ids hids token hmem => ?_⟩
    cases hids
    refine reached_mono (fun _ => closed_disable id moment) (fun kid hkid => ?_)
      (hcovers.2 left rfl token hmem)
    by_cases hsame : kid = id
    · rw [hsame]
      exact .inl (closed_disabled moment hlive)
    · exact .inr ((List.mem_erase_of_ne hsame).mpr hkid)
  | refuse attempt object since told left salt error hstage hrevoked herror =>
    refine ⟨fun _ => ?_, trivial⟩
    by_contra htold
    simp only [careful, hstage, htold, decide_false, Bool.false_or] at hok
    exact hinception htold (execute_error hok herror)
  | execute attempt object since told left salt executed hstage hrevoked hexecuted =>
    refine ⟨(nomatch ·), ?_⟩
    rw [hstage] at hcovers
    cases hexistent : object.existent with
    | false => trivial
    | true =>
      intro token hmem
      obtain ⟨htold, hleft⟩ := hrevoked (revokes_of_ok hexecuted hexistent)
      have hreached := hcovers.2 [] hleft token hmem
      rcases reached_iff.mp hreached with hdated | ⟨kid, hkid, hclosed | hnone⟩
      · exact revoked_iff.mpr (.inl ⟨hdated, hcovers.1 htold token hmem hdated⟩)
      · exact revoked_iff.mpr (.inr ⟨kid, hkid, hclosed⟩)
      · cases hnone
  | commit attempt existent object record hstage =>
    refine ⟨(nomatch ·), ?_⟩
    rw [hstage] at hcovers
    cases existent with
    | true => exact hcovers
    | false => trivial
  | retry attempt existent object hstage => exact ⟨(nomatch ·), trivial⟩
  | lose attempt existent object hstage hversion hattempt =>
    refine ⟨fun _ => ?_, trivial⟩
    simp only [careful, hstage, hversion, hattempt, decide_false, Bool.or_false, decide_eq_true_eq] at hok
    exact hok
  | fail => exact ⟨(nomatch ·), trivial⟩

/-- A call that is careful is refused without having changed anything, and leaves no token of before its
commit that is not revoked. -/
theorem holds_of_careful {w : World ι κ}
    (hrun : run (step configuration identity request) (.init w) acts = some s)
    (hcareful : Along (step configuration identity request)
      (fun s act => careful configuration request s act) (.init w) acts) : Holds s := by
  let I (s : State ι κ) : Prop := Accounted request.input s ∧ Careful s
  have hinit : I (.init w) :=
    ⟨⟨rfl, fun h => absurd rfl h, fun _ => rfl⟩, (nomatch ·), trivial⟩
  have hinv := run_invariant (I := I) (fun s act t hs hok h =>
    ⟨accounted_step hs.1 h, careful_step hs.1.inception hs.2 hok h⟩) hinit hcareful hrun
  obtain ⟨-, hquiet, hcovers⟩ := hinv
  refine ⟨fun hrefused => (unchanged_iff hrun hrefused).mpr (hquiet hrefused), fun issued hstage => ?_⟩
  rw [hstage] at hcovers
  exact hcovers

end
end

def defaults : Configuration where
  rounds := 10
  pepper := ""
  principal := none
  usernameRx := [fun username => 1 ≤ username.length && username.length ≤ 128]
  passwordRx := [fun password => 8 ≤ password.length && password.length ≤ 32]
  hash := fun _ salt spicy => salt ++ spicy

def stored : World ℕ ℕ where
  now := 9
  record := some ⟨"nex.toa.io", "bob", "hash", 1, none⟩
  tokens := ⟨0, none⟩
  keys := ⟨[⟨1, 0, none, none, none, 1⟩], by decide⟩
  issued := [⟨3, none, true⟩, ⟨4, some 1, false⟩]

def change : Request := ⟨⟨none, none, some "new-password", none⟩, false⟩

def changeActs : List (Act ℕ ℕ) :=
  [.acquire, .tell 9, .read [1], .other (.wait 1), .disable 1 9, .execute "salt", .commit,
    .other (.issue none true)]

theorem holds_changed : ∃ s, run (step defaults 0 change) (.init stored) changeActs = some s ∧
    s.stage = .committed true stored.issued ∧ Holds s := by
  have hcareful : Along (step defaults 0 change) (fun s act => careful defaults change s act)
      (.init stored) changeActs := by decide
  have hrun : ∃ s, run (step defaults 0 change) (.init stored) changeActs = some s ∧
      s.stage = .committed true stored.issued := ⟨_, rfl, rfl⟩
  obtain ⟨s, hrun, hstage⟩ := hrun
  exact ⟨s, hrun, hstage, holds_of_careful hrun hcareful⟩

/-- A change that is refused has revoked the token of the session. -/
theorem refused_revokes : ∃ s, run (step defaults 0 ⟨⟨none, some "", none, none⟩, false⟩) (.init stored)
    [.acquire, .tell 9, .read [1], .disable 1 9, .execute "salt"] = some s ∧
    s.stage = .failed .INVALID_USERNAME ∧ ¬ Holds s := by
  refine ⟨_, rfl, rfl, fun h => ?_⟩
  have hsame := congrArg (·.tokens.VERSION) (h.1 rfl)
  exact absurd hsame (by decide)

end Toa.Identity.Basic
