import Toa.Identity.Tokens

/-! A grant: what a user allowed a client to do, the codes a client holds for it, the tokens those are
exchanged for, and its revocations, each of which takes several steps that others come between. -/

set_option linter.unusedSectionVars false

namespace Toa.Identity.Grants
open Toa.Run
open Toa.Identity.Tokens (Token Key Configuration authenticate)

abbrev Text := List Char

structure Entry (ι κ α : Type*) where
  VERSION : ℕ
  authority : Option α
  identity : Option ι
  client : Option Text
  scope : List Text
  resource : List Text
  kid : Option κ
  revokedAt : Option ℕ

/-- A code that is held, and how many revocations of the grant had completed when it was. -/
structure Code where
  redirect : Text
  challenge : Text
  scope : List Text
  resource : List Text
  held : ℕ

structure Input where
  verifier : Text
  redirect : Option Text
  client : Option Text

/-- How far an exchange has come: its code is spent, its token is issued, the grant is told of the key. -/
inductive Stage (ι κ α : Type*)
  | spent
  | issued (token : Token ι κ α)
  | completed (token : Token ι κ α)

structure Exchange (ι κ α : Type*) where
  code : Code
  stage : Stage ι κ α

/-- How far a revocation has come: the entry is to be read, the key it was read with is to be disabled, and
it is to be committed. -/
inductive Revoking (κ : Type*)
  | reading
  | disabling (version : ℕ) (kid : Option κ)
  | committing (version : ℕ) (kid : Option κ)

structure Revoke (ι κ α : Type*) where
  authority : α
  identity : ι
  stage : Revoking κ

structure State (ι κ α : Type*) where
  entry : Entry ι κ α
  /-- authorizations that have recorded the grant and hold no code yet -/
  allowed : ℕ
  codes : List Code
  exchanges : List (Exchange ι κ α)
  revokes : List (Revoke ι κ α)
  /-- the keys of the identity, each with its `revokedAt` -/
  keys : κ → Option (Option ℕ)
  /-- revocations of the grant that have completed -/
  revoked : ℕ

def State.init {ι κ α : Type*} : State ι κ α where
  entry := ⟨0, none, none, none, [], [], none, none⟩
  allowed := 0
  codes := []
  exchanges := []
  revokes := []
  keys _ := none
  revoked := 0

inductive Act (ι κ α : Type*)
  | authorize (scope resource : List Text)
  | hold (redirect challenge : Text) (scope resource : List Text)
  /-- A code is held for seconds. -/
  | lapse (place : ℕ)
  | spend (place : ℕ) (input : Input)
  /-- A new key, and a token under it where the identity holds the scope. -/
  | issue (place : ℕ) (kid : κ) (now lifetime : ℕ) (accessible : Bool)
  | record (place : ℕ)
  /-- The grant could not be told of the key, which is logged. -/
  | unrecorded (place : ℕ)
  | revoke (authority : α) (identity : ι)
  | read (place : ℕ)
  | disable (place : ℕ) (now : ℕ)
  | commit (place : ℕ) (now : ℕ)

section
variable {ι κ α : Type*} [DecidableEq ι] [DecidableEq κ] [DecidableEq α]
variable (digest : Text → Text) (authority : α) (identity : ι) (client : Text)

/-- `transit` assigns what it is given, and retries until it is committed. -/
def Entry.transit (entry : Entry ι κ α) (scope resource : List Text) (kid : Option κ) : Entry ι κ α :=
  { entry with
    VERSION := entry.VERSION + 1
    authority := some authority
    identity := some identity
    client := some client
    scope := scope
    resource := resource
    kid := kid <|> entry.kid }

def redeemable (code : Code) (input : Input) : Bool :=
  digest input.verifier = code.challenge && input.redirect.all (fun redirect => redirect = code.redirect) &&
    input.client.all (fun presented => presented = client)

def token (kid : κ) (now lifetime : ℕ) : Token ι κ α where
  format := .jwe
  kid := kid
  iss := authority
  identity := identity
  iat := now
  exp := if lifetime = 0 then none else some (now + lifetime * 1000)
  nbf := none

def State.stage (s : State ι κ α) (place : ℕ) (exchange : Exchange ι κ α) (stage : Stage ι κ α) :
    State ι κ α :=
  { s with exchanges := s.exchanges.set place { exchange with stage := stage } }

def State.revoking (s : State ι κ α) (place : ℕ) (revoke : Revoke ι κ α) (stage : Revoking κ) :
    State ι κ α :=
  { s with revokes := s.revokes.set place { revoke with stage := stage } }

/-- `revokedAt ??= now` -/
def disabled (keys : κ → Option (Option ℕ)) (kid : κ) (now : ℕ) : κ → Option (Option ℕ) :=
  Function.update keys kid ((keys kid).map fun revokedAt => revokedAt <|> some now)

def step (s : State ι κ α) : Act ι κ α → Option (State ι κ α)
  | .authorize scope resource =>
    some { s with
      entry := s.entry.transit authority identity client scope resource none
      allowed := s.allowed + 1 }
  | .hold redirect challenge scope resource =>
    if s.allowed = 0 then none
    else some { s with
      allowed := s.allowed - 1
      codes := s.codes ++ [⟨redirect, challenge, scope, resource, s.revoked⟩] }
  | .lapse place => some { s with codes := s.codes.eraseIdx place }
  | .spend place input =>
    match s.codes[place]? with
    | none => none
    | some code =>
      let spent := { s with codes := s.codes.eraseIdx place }
      if redeemable digest client code input then
        some { spent with exchanges := s.exchanges ++ [⟨code, .spent⟩] }
      else some spent
  | .issue place kid now lifetime accessible =>
    match s.exchanges[place]?, s.keys kid with
    | some ⟨code, .spent⟩, none =>
      let created := { s with keys := Function.update s.keys kid (some none) }
      if accessible then
        some (created.stage place ⟨code, .spent⟩ (.issued (token authority identity kid now lifetime)))
      else some { created with exchanges := s.exchanges.eraseIdx place }
    | _, _ => none
  | .record place =>
    match s.exchanges[place]? with
    | some ⟨code, .issued token⟩ =>
      some { s.stage place ⟨code, .issued token⟩ (.completed token) with
        entry := s.entry.transit authority identity client code.scope code.resource (some token.kid) }
    | _ => none
  | .unrecorded place =>
    match s.exchanges[place]? with
    | some ⟨code, .issued token⟩ => some (s.stage place ⟨code, .issued token⟩ (.completed token))
    | _ => none
  | .revoke authority identity => some { s with revokes := s.revokes ++ [⟨authority, identity, .reading⟩] }
  | .read place =>
    match s.revokes[place]? with
    | some ⟨authority, identity, .reading⟩ =>
      if s.entry.VERSION = 0 || s.entry.authority ≠ some authority || s.entry.identity ≠ some identity then
        some { s with revokes := s.revokes.eraseIdx place }
      else some (s.revoking place ⟨authority, identity, .reading⟩ (.disabling s.entry.VERSION s.entry.kid))
    | _ => none
  | .disable place now =>
    match s.revokes[place]? with
    | some ⟨authority, identity, .disabling version kid⟩ =>
      let disabling : Revoke ι κ α := ⟨authority, identity, .disabling version kid⟩
      some { s.revoking place disabling (.committing version kid) with
        keys := kid.elim s.keys fun kid => disabled s.keys kid now }
    | _ => none
  | .commit place now =>
    match s.revokes[place]? with
    | some ⟨authority, identity, .committing version kid⟩ =>
      if s.entry.VERSION = version then
        some { s with
          entry := { s.entry with VERSION := version + 1, revokedAt := some now }
          revokes := s.revokes.eraseIdx place
          revoked := s.revoked + 1 }
      else some (s.revoking place ⟨authority, identity, .committing version kid⟩ .reading)
    | _ => none

inductive Next (s : State ι κ α) : Act ι κ α → State ι κ α → Prop
  | authorize {scope resource : List Text} :
    Next s (.authorize scope resource) { s with
      entry := s.entry.transit authority identity client scope resource none
      allowed := s.allowed + 1 }
  | hold {redirect challenge : Text} {scope resource : List Text} (hallowed : s.allowed ≠ 0) :
    Next s (.hold redirect challenge scope resource) { s with
      allowed := s.allowed - 1
      codes := s.codes ++ [⟨redirect, challenge, scope, resource, s.revoked⟩] }
  | lapse {place : ℕ} : Next s (.lapse place) { s with codes := s.codes.eraseIdx place }
  | waste {place : ℕ} {input : Input} {code : Code} (hplace : s.codes[place]? = some code)
    (h : redeemable digest client code input = false) :
    Next s (.spend place input) { s with codes := s.codes.eraseIdx place }
  | redeem {place : ℕ} {input : Input} {code : Code} (hplace : s.codes[place]? = some code)
    (h : redeemable digest client code input = true) :
    Next s (.spend place input) { s with
      codes := s.codes.eraseIdx place
      exchanges := s.exchanges ++ [⟨code, .spent⟩] }
  | issue {place : ℕ} {kid : κ} {now lifetime : ℕ} {code : Code}
    (hplace : s.exchanges[place]? = some ⟨code, .spent⟩) (hfree : s.keys kid = none) :
    Next s (.issue place kid now lifetime true)
      ({ s with keys := Function.update s.keys kid (some none) }.stage place ⟨code, .spent⟩
        (.issued (token authority identity kid now lifetime)))
  | inaccessible {place : ℕ} {kid : κ} {now lifetime : ℕ} {code : Code}
    (hplace : s.exchanges[place]? = some ⟨code, .spent⟩) (hfree : s.keys kid = none) :
    Next s (.issue place kid now lifetime false) { s with
      keys := Function.update s.keys kid (some none)
      exchanges := s.exchanges.eraseIdx place }
  | record {place : ℕ} {code : Code} {token : Token ι κ α}
    (hplace : s.exchanges[place]? = some ⟨code, .issued token⟩) :
    Next s (.record place) { s.stage place ⟨code, .issued token⟩ (.completed token) with
      entry := s.entry.transit authority identity client code.scope code.resource (some token.kid) }
  | unrecorded {place : ℕ} {code : Code} {token : Token ι κ α}
    (hplace : s.exchanges[place]? = some ⟨code, .issued token⟩) :
    Next s (.unrecorded place) (s.stage place ⟨code, .issued token⟩ (.completed token))
  | revoke {authority : α} {identity : ι} :
    Next s (.revoke authority identity) { s with
      revokes := s.revokes ++ [⟨authority, identity, .reading⟩] }
  | absent {place : ℕ} {revoke : Revoke ι κ α} (hplace : s.revokes[place]? = some revoke)
    (hstage : revoke.stage = .reading) (h : s.entry.VERSION = 0 ∨
      s.entry.authority ≠ some revoke.authority ∨ s.entry.identity ≠ some revoke.identity) :
    Next s (.read place) { s with revokes := s.revokes.eraseIdx place }
  | read {place : ℕ} {revoke : Revoke ι κ α} (hplace : s.revokes[place]? = some revoke)
    (hstage : revoke.stage = .reading) (hversion : s.entry.VERSION ≠ 0)
    (hauthority : s.entry.authority = some revoke.authority)
    (hidentity : s.entry.identity = some revoke.identity) :
    Next s (.read place) (s.revoking place revoke (.disabling s.entry.VERSION s.entry.kid))
  | disable {place now version : ℕ} {kid : Option κ} {revoke : Revoke ι κ α}
    (hplace : s.revokes[place]? = some revoke) (hstage : revoke.stage = .disabling version kid) :
    Next s (.disable place now) { s.revoking place revoke (.committing version kid) with
      keys := kid.elim s.keys fun kid => disabled s.keys kid now }
  | commit {place now version : ℕ} {kid : Option κ} {revoke : Revoke ι κ α}
    (hplace : s.revokes[place]? = some revoke) (hstage : revoke.stage = .committing version kid)
    (hversion : s.entry.VERSION = version) :
    Next s (.commit place now) { s with
      entry := { s.entry with VERSION := version + 1, revokedAt := some now }
      revokes := s.revokes.eraseIdx place
      revoked := s.revoked + 1 }
  | conflict {place now version : ℕ} {kid : Option κ} {revoke : Revoke ι κ α}
    (hplace : s.revokes[place]? = some revoke) (hstage : revoke.stage = .committing version kid)
    (hversion : s.entry.VERSION ≠ version) :
    Next s (.commit place now) (s.revoking place revoke .reading)

/-! ## What is accepted -/

/-- What `identity.tokens` reads of a key, past the `ttl` of what it has read before. -/
def State.remote (s : State ι κ α) (kid : κ) : Option (Key ι) :=
  (s.keys kid).map fun revokedAt => ⟨some identity, revokedAt⟩

def State.Disabled (s : State ι κ α) (kid : κ) : Prop := ∃ revokedAt, s.keys kid = some (some revokedAt)

def Stage.token : Stage ι κ α → Option (Token ι κ α)
  | .spent => none
  | .issued token | .completed token => some token

/-- No token is accepted that a code was exchanged for which was held before a revocation that has
completed, whatever was exchanged first. -/
def State.Revoked (s : State ι κ α) : Prop :=
  ∀ exchange ∈ s.exchanges, ∀ token, exchange.stage = .completed token → exchange.code.held < s.revoked →
    ∀ (configuration : Configuration κ) (observe : ι → Option ℕ) (now : ℕ) (presented : α) (force : Bool),
      (token.kid, token.format) ∉ configuration.keys →
        ∀ accepted, authenticate configuration (s.remote identity) observe now presented force token ≠
          .ok accepted

/-- What the code leaves to chance: every token issued under the grant is under the key the grant is told of
last, or one disabled before, when a revocation commits; and no code is exchanged that was held before. -/
def Cond (s : State ι κ α) : Act ι κ α → Prop
  | .issue place _ _ _ _ => ∀ exchange ∈ s.exchanges[place]?, exchange.code.held = s.revoked
  | .commit _ _ => ∀ exchange ∈ s.exchanges, ∀ token ∈ exchange.stage.token,
      s.entry.kid = some token.kid ∨ (s.keys token.kid).any Option.isSome = true
  | _ => True

instance (s : State ι κ α) : ∀ act : Act ι κ α, Decidable (Cond s act)
  | .issue place _ _ _ _ => inferInstanceAs (Decidable (∀ exchange ∈ s.exchanges[place]?, _ = _))
  | .commit _ _ => inferInstanceAs (Decidable (∀ exchange ∈ s.exchanges, ∀ token ∈ exchange.stage.token, _ ∨ _))
  | .authorize _ _ | .hold _ _ _ _ | .lapse _ | .spend _ _ | .record _ | .unrecorded _ | .revoke _ _ | .read _
  | .disable _ _ => instDecidableTrue

variable {digest authority identity client}

theorem next_of_step {s t : State ι κ α} {act : Act ι κ α}
    (h : step digest authority identity client s act = some t) :
    Next digest authority identity client s act t := by
  cases act with
  | authorize scope resource =>
    obtain rfl := Option.some.inj h
    exact .authorize
  | hold redirect challenge scope resource =>
    simp only [step] at h
    split_ifs at h with hallowed
    obtain rfl := Option.some.inj h
    exact .hold hallowed
  | lapse place =>
    obtain rfl := Option.some.inj h
    exact .lapse
  | spend place input =>
    simp only [step] at h
    split at h
    · cases h
    rename_i hplace
    split_ifs at h with hredeemable <;> obtain rfl := Option.some.inj h
    · exact .redeem hplace hredeemable
    · exact .waste hplace (Bool.eq_false_iff.mpr hredeemable)
  | issue place kid now lifetime accessible =>
    simp only [step] at h
    split at h
    · rename_i hplace hfree
      cases accessible with
      | false =>
        obtain rfl := Option.some.inj h
        exact .inaccessible hplace hfree
      | true =>
        obtain rfl := Option.some.inj h
        exact .issue hplace hfree
    · cases h
  | record place =>
    simp only [step] at h
    split at h
    · rename_i hplace
      obtain rfl := Option.some.inj h
      exact .record hplace
    · cases h
  | unrecorded place =>
    simp only [step] at h
    split at h
    · rename_i hplace
      obtain rfl := Option.some.inj h
      exact .unrecorded hplace
    · cases h
  | revoke authority identity =>
    obtain rfl := Option.some.inj h
    exact .revoke
  | read place =>
    simp only [step] at h
    split at h
    · rename_i hplace
      split_ifs at h with habsent <;> obtain rfl := Option.some.inj h
      · simp only [Bool.or_eq_true, decide_eq_true_eq, or_assoc] at habsent
        exact .absent hplace rfl habsent
      · simp only [Bool.or_eq_true, decide_eq_true_eq, not_or, not_not] at habsent
        exact .read hplace rfl habsent.1.1 habsent.1.2 habsent.2
    · cases h
  | disable place now =>
    simp only [step] at h
    split at h
    · rename_i hplace
      obtain rfl := Option.some.inj h
      exact .disable hplace rfl
    · cases h
  | commit place now =>
    simp only [step] at h
    split at h
    · rename_i hplace
      split_ifs at h with hversion <;> obtain rfl := Option.some.inj h
      · exact .commit hplace rfl hversion
      · exact .conflict hplace rfl hversion
    · cases h

/-! ## Keys -/

theorem isSome_disabled (keys : κ → Option (Option ℕ)) (kid other : κ) (now : ℕ) :
    (disabled keys kid now other).isSome = (keys other).isSome := by
  by_cases hsame : other = kid
  · subst hsame
    simp only [disabled, Function.update_self, Option.isSome_map]
  · simp only [disabled, Function.update_of_ne hsame]

theorem disabled_of_disabled {keys : κ → Option (Option ℕ)} (kid : κ) {other : κ} (now : ℕ)
    (h : ∃ revokedAt, keys other = some (some revokedAt)) :
    ∃ revokedAt, disabled keys kid now other = some (some revokedAt) := by
  obtain ⟨revokedAt, h⟩ := h
  by_cases hsame : other = kid
  · subst hsame
    exact ⟨revokedAt, by simp only [disabled, Function.update_self, h, Option.map_some]; rfl⟩
  · exact ⟨revokedAt, by simp only [disabled, Function.update_of_ne hsame, h]⟩

theorem disabled_self {keys : κ → Option (Option ℕ)} {kid : κ} (now : ℕ) (h : (keys kid).isSome = true) :
    ∃ revokedAt, disabled keys kid now kid = some (some revokedAt) := by
  obtain ⟨revokedAt, h⟩ := Option.isSome_iff_exists.mp h
  cases revokedAt with
  | none => exact ⟨now, by simp only [disabled, Function.update_self, h, Option.map_some]; rfl⟩
  | some revokedAt =>
    exact ⟨revokedAt, by simp only [disabled, Function.update_self, h, Option.map_some]; rfl⟩

theorem refused_of_disabled {s : State ι κ α} {token : Token ι κ α} (h : s.Disabled token.kid)
    {configuration : Configuration κ} (hkey : (token.kid, token.format) ∉ configuration.keys)
    {observe : ι → Option ℕ} {now : ℕ} {presented : α} {force : Bool} {accepted : Tokens.Authenticated ι} :
    authenticate configuration (s.remote identity) observe now presented force token ≠ .ok accepted := by
  intro haccepted
  obtain ⟨claims, hclaims, -, -⟩ := Tokens.authenticate_ok haccepted
  obtain ⟨revokedAt, hrevoked⟩ := h
  simp only [Tokens.decrypt, Tokens.key, if_neg hkey, State.remote, hrevoked, Option.map_some] at hclaims
  split at hclaims
  · cases hclaims
  simp only [Tokens.answer, Option.isSome_some, if_true] at hclaims
  split at hclaims <;> cases hclaims

/-! ## What comes after -/

/-- Keys stay and stay disabled, and a grant of one version was told of one key. -/
structure State.Later (s t : State ι κ α) : Prop where
  keys : ∀ kid, (s.keys kid).isSome = true → (t.keys kid).isSome = true
  disabled : ∀ kid, s.Disabled kid → t.Disabled kid
  version : s.entry.VERSION ≤ t.entry.VERSION
  kid : t.entry.VERSION = s.entry.VERSION → t.entry.kid = s.entry.kid

theorem State.Later.of_eq {s t : State ι κ α} (hkeys : t.keys = s.keys) (hentry : t.entry = s.entry) :
    s.Later t where
  keys kid h := hkeys ▸ h
  disabled kid h := by simpa only [State.Disabled, hkeys] using h
  version := Nat.le_of_eq (congrArg Entry.VERSION hentry.symm)
  kid _ := congrArg Entry.kid hentry

theorem State.Later.of_create {s t : State ι κ α} {kid : κ} (hfree : s.keys kid = none)
    (hkeys : t.keys = Function.update s.keys kid (some none)) (hentry : t.entry = s.entry) : s.Later t := by
  have hother : ∀ other, (s.keys other).isSome = true → t.keys other = s.keys other := by
    intro other hsome
    rw [hkeys]
    refine Function.update_of_ne (fun hsame => ?_) _ _
    simp [hsame, hfree] at hsome
  refine ⟨fun other hsome => ?_, fun other hdisabled => ?_, ?_, fun _ => congrArg Entry.kid hentry⟩
  · rw [hother other hsome]
    exact hsome
  · obtain ⟨revokedAt, hrevoked⟩ := hdisabled
    exact ⟨revokedAt, (hother other (by simp [hrevoked])).trans hrevoked⟩
  · exact Nat.le_of_eq (congrArg Entry.VERSION hentry.symm)

theorem State.Later.of_commit {s t : State ι κ α} (hkeys : t.keys = s.keys)
    (hversion : t.entry.VERSION = s.entry.VERSION + 1) : s.Later t where
  keys kid h := hkeys ▸ h
  disabled kid h := by simpa only [State.Disabled, hkeys] using h
  version := by omega
  kid h := by omega

theorem step_later {s t : State ι κ α} {act : Act ι κ α}
    (h : step digest authority identity client s act = some t) : s.Later t := by
  cases next_of_step h with
  | authorize | record => exact .of_commit rfl rfl
  | commit _ _ hversion => exact .of_commit rfl (by rw [hversion])
  | issue _ hfree | inaccessible _ hfree => exact .of_create hfree rfl rfl
  | @disable _ now _ kid =>
    cases kid with
    | none => exact .of_eq rfl rfl
    | some kid =>
      refine ⟨fun other hsome => ?_, fun other hdisabled => ?_, Nat.le_refl _, fun _ => rfl⟩
      · exact (isSome_disabled s.keys kid other now).trans hsome
      · exact disabled_of_disabled kid now hdisabled
  | hold | lapse | waste | redeem | unrecorded | revoke | absent | read | conflict =>
    exact .of_eq rfl rfl

/-! ## Revocations under way -/

/-- A revocation has read the grant, and what it has read is what is there unless its version has changed. -/
structure State.Read (s : State ι κ α) (version : ℕ) (kid : Option κ) : Prop where
  before : version ≤ s.entry.VERSION
  current : s.entry.VERSION = version → s.entry.kid = kid
  known : ∀ known ∈ kid, (s.keys known).isSome = true

def State.Reached (s : State ι κ α) : Revoking κ → Prop
  | .reading => True
  | .disabling version kid => s.Read version kid
  | .committing version kid => s.Read version kid ∧ ∀ known ∈ kid, s.Disabled known

theorem State.Later.read {s t : State ι κ α} (h : s.Later t) {version : ℕ} {kid : Option κ}
    (hread : s.Read version kid) : t.Read version kid where
  before := Nat.le_trans hread.before h.version
  current hversion := by
    have hsame : t.entry.VERSION = s.entry.VERSION :=
      Nat.le_antisymm (hversion ▸ hread.before) h.version
    rw [h.kid hsame]
    exact hread.current (hsame ▸ hversion)
  known known hknown := h.keys known (hread.known known hknown)

theorem State.Later.reached {s t : State ι κ α} (h : s.Later t) {stage : Revoking κ}
    (hreached : s.Reached stage) : t.Reached stage := by
  cases stage with
  | reading => trivial
  | disabling version kid => exact h.read hreached
  | committing version kid =>
    exact ⟨h.read hreached.1, fun known hknown => h.disabled known (hreached.2 known hknown)⟩

/-! ## Runs -/

/-- Each key that a token was issued under, and the one the grant is told of, is there. A token of a code held
before a revocation is under a disabled one. -/
structure State.Inv (s : State ι κ α) : Prop where
  known : ∀ kid ∈ s.entry.kid, (s.keys kid).isSome = true
  issued : ∀ exchange ∈ s.exchanges, ∀ token ∈ exchange.stage.token, (s.keys token.kid).isSome = true
  revokes : ∀ revoke ∈ s.revokes, s.Reached revoke.stage
  revoked : ∀ exchange ∈ s.exchanges, ∀ token ∈ exchange.stage.token, exchange.code.held < s.revoked →
    s.Disabled token.kid

theorem State.Inv.init : (State.init : State ι κ α).Inv where
  known _ h := nomatch h
  issued _ h := nomatch h
  revokes _ h := nomatch h
  revoked _ h := nomatch h

theorem forall_mem_set {β : Type*} {p : β → Prop} {l : List β} (h : ∀ x ∈ l, p x) {place : ℕ} {y : β}
    (hy : p y) : ∀ x ∈ l.set place y, p x := by
  intro x hx
  rcases List.mem_or_eq_of_mem_set hx with hold | rfl
  · exact h x hold
  · exact hy

theorem issued_of_completed {exchanges : List (Exchange ι κ α)} {place : ℕ} {code : Code}
    {token : Token ι κ α} (hplace : exchanges[place]? = some ⟨code, .issued token⟩) :
    ∀ exchange ∈ exchanges.set place ⟨code, .completed token⟩,
      ∃ old ∈ exchanges, old.code = exchange.code ∧ old.stage.token = exchange.stage.token :=
  forall_mem_set (fun exchange hexchange => ⟨exchange, hexchange, rfl, rfl⟩)
    ⟨_, List.mem_of_getElem? hplace, rfl, rfl⟩

theorem State.Inv.step {s t : State ι κ α} {act : Act ι κ α} (h : s.Inv) (hcond : Cond s act)
    (hstep : step digest authority identity client s act = some t) : t.Inv := by
  have hlater := step_later hstep
  have hrevokes : ∀ revoke ∈ s.revokes, t.Reached revoke.stage :=
    fun revoke hrevoke => hlater.reached (h.revokes revoke hrevoke)
  have hknown : ∀ kid ∈ s.entry.kid, (t.keys kid).isSome = true :=
    fun kid hkid => hlater.keys kid (h.known kid hkid)
  have hissued : ∀ exchange ∈ s.exchanges, ∀ token ∈ exchange.stage.token,
      (t.keys token.kid).isSome = true :=
    fun exchange hexchange token htoken => hlater.keys _ (h.issued exchange hexchange token htoken)
  have hrevoked : ∀ exchange ∈ s.exchanges, ∀ token ∈ exchange.stage.token,
      exchange.code.held < s.revoked → t.Disabled token.kid :=
    fun exchange hexchange token htoken hheld =>
      hlater.disabled _ (h.revoked exchange hexchange token htoken hheld)
  cases next_of_step hstep with
  | authorize | hold | lapse | waste => exact ⟨hknown, hissued, hrevokes, hrevoked⟩
  | redeem =>
    -- nothing has been issued for the code that is spent
    refine ⟨hknown, List.forall_mem_append.mpr ⟨hissued, ?_⟩, hrevokes,
      List.forall_mem_append.mpr ⟨hrevoked, ?_⟩⟩
    all_goals
      intro exchange hexchange token htoken
      obtain rfl := List.mem_singleton.mp hexchange
      cases htoken
  | @issue place kid now lifetime code hplace =>
    have hheld : code.held = s.revoked := hcond _ hplace
    refine ⟨hknown, forall_mem_set hissued fun token htoken => ?_, hrevokes,
      forall_mem_set hrevoked fun token htoken hbefore => ?_⟩
    · obtain rfl := Option.some.inj htoken
      simp [State.stage, Grants.token]
    · -- the code was held after every revocation
      exact absurd hbefore (hheld ▸ Nat.lt_irrefl _)
  | inaccessible =>
    exact ⟨hknown, fun exchange hexchange => hissued exchange (List.mem_of_mem_eraseIdx hexchange),
      hrevokes, fun exchange hexchange => hrevoked exchange (List.mem_of_mem_eraseIdx hexchange)⟩
  | @record place code token hplace =>
    refine ⟨fun kid hkid => ?_, fun exchange hexchange => ?_, hrevokes, fun exchange hexchange => ?_⟩
    · obtain rfl := Option.some.inj hkid
      exact hissued _ (List.mem_of_getElem? hplace) token rfl
    all_goals
      obtain ⟨old, hold, hcode, htoken⟩ := issued_of_completed hplace exchange hexchange
      rw [← htoken]
    · exact hissued old hold
    · exact hcode ▸ hrevoked old hold
  | unrecorded hplace =>
    refine ⟨hknown, fun exchange hexchange => ?_, hrevokes, fun exchange hexchange => ?_⟩
    all_goals
      obtain ⟨old, hold, hcode, htoken⟩ := issued_of_completed hplace exchange hexchange
      rw [← htoken]
    · exact hissued old hold
    · exact hcode ▸ hrevoked old hold
  | revoke =>
    refine ⟨hknown, hissued, List.forall_mem_append.mpr ⟨hrevokes, fun revoke hrevoke => ?_⟩, hrevoked⟩
    obtain rfl := List.mem_singleton.mp hrevoke
    trivial
  | absent =>
    exact ⟨hknown, hissued, fun revoke hrevoke => hrevokes revoke (List.mem_of_mem_eraseIdx hrevoke),
      hrevoked⟩
  | read =>
    exact ⟨hknown, hissued, forall_mem_set hrevokes ⟨Nat.le_refl _, fun _ => rfl, h.known⟩, hrevoked⟩
  | @disable place now version kid revoke hplace hstage =>
    have hread : s.Read version kid := by
      have hreached := h.revokes _ (List.mem_of_getElem? hplace)
      rw [hstage] at hreached
      exact hreached
    refine ⟨hknown, hissued, forall_mem_set hrevokes ⟨hlater.read hread, fun known hmem => ?_⟩, hrevoked⟩
    obtain rfl : kid = some known := hmem
    exact disabled_self now (hread.known known rfl)
  | @commit place now version kid revoke hplace hstage hversion =>
    obtain ⟨hread, hdisabled⟩ : s.Read version kid ∧ ∀ known ∈ kid, s.Disabled known := by
      have hreached := h.revokes _ (List.mem_of_getElem? hplace)
      rw [hstage] at hreached
      exact hreached
    refine ⟨hknown, hissued, fun revoke hrevoke => hrevokes revoke (List.mem_of_mem_eraseIdx hrevoke),
      fun exchange hexchange token htoken _ => ?_⟩
    -- the key that was disabled is the one the grant is still told of
    rcases hcond exchange hexchange token htoken with hkid | hany
    · exact hdisabled token.kid ((hread.current hversion).symm.trans hkid)
    · obtain ⟨revokedAt, hkey, hsome⟩ := (Option.any_eq_true ..).mp hany
      obtain ⟨at_, rfl⟩ := Option.isSome_iff_exists.mp hsome
      exact ⟨at_, hkey⟩
  | conflict => exact ⟨hknown, hissued, forall_mem_set hrevokes trivial, hrevoked⟩

/-- Where each step meets the condition, a completed revocation leaves no token that is accepted, of those
issued before it or for a code held before it. -/
theorem revoked_along {acts : List (Act ι κ α)} {s : State ι κ α}
    (hrun : run (step digest authority identity client) State.init acts = some s)
    (hcond : Along (step digest authority identity client) Cond State.init acts) : s.Revoked identity := by
  have hinv : s.Inv := run_invariant (fun _ _ _ => State.Inv.step) .init hcond hrun
  intro exchange hexchange token hstage hheld configuration observe now presented force hkey accepted
  have hmem : token ∈ exchange.stage.token := by rw [hstage]; rfl
  exact refused_of_disabled (hinv.revoked exchange hexchange token hmem hheld) hkey

end

/-! ## A grant that was exchanged for twice -/

def opened : List (Act ℕ ℕ ℕ) :=
  [.authorize [] [], .hold [] [] [] [], .spend 0 ⟨[], none, none⟩, .issue 0 10 0 0 true, .record 0]

def withdrawn : List (Act ℕ ℕ ℕ) := [.revoke 0 7, .read 0, .disable 0 1000, .commit 0 1000]

def twice : List (Act ℕ ℕ ℕ) :=
  opened ++ [.authorize [] [], .hold [] [] [] [], .spend 0 ⟨[], none, none⟩, .issue 1 11 500 0 true,
    .record 1] ++ withdrawn

theorem twice_run : ((run (step id 0 7 []) State.init twice).any fun s =>
    s.exchanges.any fun exchange => match exchange.stage with
      | .completed token => exchange.code.held < s.revoked && !decide ((token.kid, token.format) ∈ Tokens.rotated.keys) &&
        (authenticate Tokens.rotated (s.remote 7) (fun _ => none) 2000 0 false token).toOption.isSome
      | _ => false) = true := by decide +kernel

theorem twice_accepted : ∃ s, run (step id 0 7 []) State.init twice = some s ∧ ¬s.Revoked 7 := by
  obtain ⟨s, hrun, hs⟩ := (Option.any_eq_true ..).mp twice_run
  refine ⟨s, hrun, fun hrevoked => ?_⟩
  obtain ⟨exchange, hexchange, hthere⟩ := List.any_eq_true.mp hs
  split at hthere
  · rename_i token hstage
    simp only [Bool.and_eq_true, decide_eq_true_eq, Bool.not_eq_true', decide_eq_false_iff_not] at hthere
    obtain ⟨⟨hheld, hkey⟩, hsome⟩ := hthere
    cases hanswer : authenticate Tokens.rotated (s.remote 7) (fun _ => none) 2000 0 false token with
    | error error => simp [hanswer, Except.toOption] at hsome
    | ok accepted => exact hrevoked exchange hexchange token hstage hheld _ _ _ _ _ hkey accepted hanswer
  · cases hthere

theorem revoked_along_opened :
    ∃ s, run (step id 0 7 []) State.init (opened ++ withdrawn) = some s ∧ s.Revoked 7 := by
  have hsome : (run (step id 0 7 []) State.init (opened ++ withdrawn)).isSome = true := by decide +kernel
  obtain ⟨s, hrun⟩ := Option.isSome_iff_exists.mp hsome
  exact ⟨s, hrun, revoked_along hrun (by decide +kernel)⟩

end Toa.Identity.Grants
