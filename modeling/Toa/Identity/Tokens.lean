import Mathlib.Logic.Function.Basic
import Toa.Lib.Run

/-! Session tokens, which are authenticated and re-issued, and the revocations of their identities. A token
issued before a revocation is to be refused past its refresh age and never exchanged for another. -/

set_option linter.unusedSectionVars false

namespace Toa.Identity.Tokens
open Toa.Run

inductive Format
  | jwe
  | paseto
deriving DecidableEq

/-- What a token carries, its times in milliseconds. -/
structure Token (ι κ α : Type*) where
  format : Format
  kid : κ
  iss : α
  identity : ι
  iat : ℕ
  exp : Option ℕ
  nbf : Option ℕ

/-- A configured key is of no identity; a custom one is of the one it was issued to. -/
structure Key (ι : Type*) where
  identity : Option ι
  revokedAt : Option ℕ

/-- The first key that is not of the legacy form is the one tokens are issued under, and mounting without
one throws. -/
structure Configuration (κ : Type*) where
  keys : List (κ × Format)
  latest : κ
  mounted : (keys.find? fun key => key.2 ≠ .paseto).map (·.1) = some latest
  /-- in seconds, none issued for ever with `0` -/
  lifetime : ℕ
  /-- in seconds -/
  refresh : ℕ

inductive Error
  | INVALID_TOKEN
  | INVALID_KEY
  | FORGED_KEY
  | REVOKED_KEY
  | AUTHORITY_MISMATCH
  | UNREFRESHABLE
  | TOKEN_REVOKED
deriving DecidableEq

section
variable {ι κ α : Type*} [DecidableEq ι] [DecidableEq κ] [DecidableEq α]

/-! ## decrypt -/

structure Claims (ι α : Type*) where
  iss : α
  iat : ℕ
  exp : Option ℕ
  identity : ι
  refresh : Bool
  custom : Bool

variable (configuration : Configuration κ)

def key (remote : κ → Option (Key ι)) (kid : κ) (format : Format) : Except Error (Key ι) :=
  if (kid, format) ∈ configuration.keys then .ok ⟨none, none⟩
  else match remote kid with
    | none => .error .INVALID_KEY
    | some key => .ok key

def opened (now : ℕ) (token : Token ι κ α) : Bool :=
  token.exp.all (fun exp => now < exp) && token.nbf.all (fun nbf => nbf ≤ now)

def answer (token : Token ι κ α) (key : Key ι) (refresh : Bool) : Except Error (Claims ι α) :=
  if key.identity.any fun identity => token.identity ≠ identity then .error .FORGED_KEY
  else if key.revokedAt.isSome then .error .REVOKED_KEY
  else .ok ⟨token.iss, token.iat, token.exp, token.identity, refresh, key.identity.isSome⟩

/-- A token of the legacy form, or of a session key that is not the latest, is answered with a re-issue. -/
def decrypt (remote : κ → Option (Key ι)) (now : ℕ) (token : Token ι κ α) : Except Error (Claims ι α) :=
  match key configuration remote token.kid token.format with
  | .error error => .error error
  | .ok key =>
    if !opened now token then .error .INVALID_TOKEN
    else answer token key (match token.format with
      | .paseto => true
      | .jwe => token.kid ≠ configuration.latest && key.identity.isNone)

/-! ## authenticate -/

structure Authenticated (ι : Type*) where
  identity : ι
  refresh : Bool

def authenticate (remote : κ → Option (Key ι)) (observe : ι → Option ℕ) (now : ℕ) (authority : α)
    (force : Bool) (token : Token ι κ α) : Except Error (Authenticated ι) :=
  match decrypt configuration remote now token with
  | .error error => .error error
  | .ok claims =>
    if claims.iss ≠ authority then .error .AUTHORITY_MISMATCH
    else if force && claims.custom then .error .UNREFRESHABLE
    else
      let aged := claims.exp.isSome && claims.iat + configuration.refresh * 1000 < now
      if (aged || force) && (observe claims.identity).any fun revokedAt => claims.iat < revokedAt then
        .error .TOKEN_REVOKED
      else .ok ⟨claims.identity, force || (aged && !claims.custom) || claims.refresh⟩

/-! ## encrypt -/

def encrypt (now : ℕ) (authority : α) (identity : ι) : Token ι κ α where
  format := .jwe
  kid := configuration.latest
  iss := authority
  identity := identity
  iat := now
  exp := if configuration.lifetime = 0 then none else some (now + configuration.lifetime * 1000)
  nbf := none

/-! ## The gateway over time -/

/-- A token and when the first token was issued of the chain of re-issues it is the last of. -/
structure Issued (ι κ α : Type*) where
  token : Token ι κ α
  root : ℕ

/-- A request that was authenticated and is to be answered with a re-issue, and what the last revocation of
its identity was when it was authenticated. -/
structure Pending (ι κ α : Type*) where
  issued : Issued ι κ α
  seen : Option ℕ

structure State (ι κ α : Type*) where
  now : ℕ
  /-- of each identity, the last first -/
  revocations : ι → List ℕ
  issued : List (Issued ι κ α)
  pending : List (Pending ι κ α)

def State.init : State ι κ α := ⟨0, fun _ => [], [], []⟩

/-- What `revokedAt` of an identity is. -/
def State.observe (s : State ι κ α) (identity : ι) : Option ℕ := (s.revocations identity).head?

inductive Act (ι κ α : Type*)
  | wait (time : ℕ)
  /-- A session token of any key, at a time of an older configuration too. -/
  | issue (format : Format) (kid : κ) (iss : α) (identity : ι) (exp nbf : Option ℕ)
  | revoke (identity : ι)
  | authenticate (place : ℕ) (remote : κ → Option (Key ι)) (authority : α) (force : Bool)
  /-- The end of a request, at which it is asked whether the identity is banned. -/
  | depart (place : ℕ) (authority : α) (banned : Bool)

def State.answers (s : State ι κ α) (remote : κ → Option (Key ι)) (authority : α) (force : Bool)
    (issued : Issued ι κ α) : Except Error (Authenticated ι) :=
  authenticate configuration remote s.observe s.now authority force issued.token

def step (s : State ι κ α) : Act ι κ α → Option (State ι κ α)
  | .wait time => if s.now ≤ time then some { s with now := time } else none
  | .issue format kid iss identity exp nbf =>
    some { s with issued := s.issued ++ [⟨⟨format, kid, iss, identity, s.now, exp, nbf⟩, s.now⟩] }
  | .revoke identity =>
    some { s with
      revocations := Function.update s.revocations identity (s.now :: s.revocations identity) }
  | .authenticate place remote authority force =>
    match s.issued[place]? with
    | none => none
    | some issued =>
      match s.answers configuration remote authority force issued with
      | .ok ⟨identity, true⟩ => some { s with pending := s.pending ++ [⟨issued, s.observe identity⟩] }
      | _ => some s
  | .depart place authority banned =>
    match s.pending[place]? with
    | none => none
    | some pending =>
      if banned then some { s with pending := s.pending.eraseIdx place }
      else some { s with
        pending := s.pending.eraseIdx place
        issued := s.issued ++
          [⟨encrypt configuration s.now authority pending.issued.token.identity, pending.issued.root⟩] }

/-! ## What is to hold -/

/-- A token issued before a revocation of its identity is not accepted past its refresh age, nor answered
with a re-issue. -/
def Refuses (s : State ι κ α) : Act ι κ α → Prop
  | .authenticate place remote authority force =>
    ∀ issued ∈ s.issued[place]?, ∀ revokedAt ∈ s.revocations issued.token.identity,
      issued.token.iat < revokedAt →
        (revokedAt < s.now → issued.token.iat + configuration.refresh * 1000 < s.now →
          ∀ accepted, s.answers configuration remote authority force issued ≠ .ok accepted) ∧
        ∀ identity, s.answers configuration remote authority force issued ≠ .ok ⟨identity, true⟩
  | _ => True

/-- No chain of re-issues from a token issued before a revocation has come to one issued after it. -/
def State.Chained (s : State ι κ α) : Prop :=
  ∀ issued ∈ s.issued, ∀ revokedAt ∈ s.revocations issued.token.identity,
    issued.root < revokedAt → issued.token.iat < revokedAt

/-- Where the revocation is read of a token issued before it, or the token is neither past its refresh age
nor one that is re-issued for its form or its key. -/
def Read (s : State ι κ α) (remote : κ → Option (Key ι)) (force : Bool) (token : Token ι κ α) : Prop :=
  ∀ revokedAt ∈ s.revocations token.identity, token.iat < revokedAt →
    force = true ∨
    (token.exp.isSome = true ∧ token.iat + configuration.refresh * 1000 < s.now) ∨
    ((s.now ≤ revokedAt ∨ s.now ≤ token.iat + configuration.refresh * 1000) ∧
      (decrypt configuration remote s.now token).toOption.all (fun claims => !claims.refresh) = true)

/-- What the code leaves to chance: that is so of each token that is authenticated, no revocation comes
between an authentication and the re-issue it asked for, nor in the very millisecond of a re-issue. -/
def Cond (s : State ι κ α) : Act ι κ α → Prop
  | .authenticate place remote _ force =>
    ∀ issued ∈ s.issued[place]?, Read configuration s remote force issued.token
  | .depart place _ _ => ∀ pending ∈ s.pending[place]?,
      s.observe pending.issued.token.identity = pending.seen
  | .revoke identity => ∀ issued ∈ s.issued, issued.token.identity = identity →
      issued.token.iat = s.now → issued.root = s.now
  | _ => True

instance (s : State ι κ α) (remote : κ → Option (Key ι)) (force : Bool) (token : Token ι κ α) :
    Decidable (Read configuration s remote force token) :=
  inferInstanceAs (Decidable (∀ revokedAt ∈ s.revocations token.identity, _ → _))

instance (s : State ι κ α) : ∀ act : Act ι κ α, Decidable (Cond configuration s act)
  | .authenticate place remote _ force =>
    inferInstanceAs (Decidable (∀ issued ∈ s.issued[place]?, Read configuration s remote force issued.token))
  | .depart place _ _ => inferInstanceAs (Decidable (∀ pending ∈ s.pending[place]?, _))
  | .revoke _ => inferInstanceAs (Decidable (∀ issued ∈ s.issued, _))
  | .wait _ | .issue _ _ _ _ _ _ => instDecidableTrue

/-! ## What a token is answered -/

variable {configuration} {remote : κ → Option (Key ι)}

theorem decrypt_ok {now : ℕ} {token : Token ι κ α} {claims : Claims ι α}
    (h : decrypt configuration remote now token = .ok claims) :
    claims.identity = token.identity ∧ claims.iat = token.iat ∧ claims.exp = token.exp := by
  simp only [decrypt] at h
  split at h
  · cases h
  split at h
  · cases h
  simp only [answer] at h
  split at h
  · cases h
  split at h
  · cases h
  obtain rfl := Except.ok.inj h
  exact ⟨rfl, rfl, rfl⟩

theorem authenticate_ok {observe : ι → Option ℕ} {now : ℕ} {authority : α} {force : Bool}
    {token : Token ι κ α} {accepted : Authenticated ι}
    (h : authenticate configuration remote observe now authority force token = .ok accepted) :
    ∃ claims, decrypt configuration remote now token = .ok claims ∧
      (force = true ∨ token.exp.isSome = true ∧ token.iat + configuration.refresh * 1000 < now →
        ∀ revokedAt ∈ observe token.identity, ¬token.iat < revokedAt) ∧
      (accepted.refresh = true → force = true ∨
        token.exp.isSome = true ∧ token.iat + configuration.refresh * 1000 < now ∨
          claims.refresh = true) := by
  simp only [authenticate] at h
  split at h
  · cases h
  rename_i claims hclaims
  obtain ⟨hidentity, hiat, hexp⟩ := decrypt_ok hclaims
  rw [hidentity, hiat, hexp] at h
  split at h
  · cases h
  split at h
  · cases h
  split at h
  · cases h
  rename_i hrevoked
  obtain rfl := Except.ok.inj h
  simp only [Bool.and_eq_true, Bool.or_eq_true, decide_eq_true_eq, Option.any_eq_true, not_and,
    not_exists] at hrevoked
  refine ⟨claims, hclaims, fun hread revokedAt hobserved => ?_, fun hrefresh => ?_⟩
  · exact hrevoked hread.symm revokedAt hobserved
  · simp only [Bool.or_eq_true, Bool.and_eq_true, decide_eq_true_eq] at hrefresh
    rcases hrefresh with (hforce | ⟨haged, -⟩) | hclaimed
    · exact .inl hforce
    · exact .inr (.inl haged)
    · exact .inr (.inr hclaimed)

theorem authenticate_identity {observe : ι → Option ℕ} {now : ℕ} {authority : α} {force : Bool}
    {token : Token ι κ α} {accepted : Authenticated ι}
    (h : authenticate configuration remote observe now authority force token = .ok accepted) :
    accepted.identity = token.identity := by
  simp only [authenticate] at h
  split at h
  · cases h
  rename_i claims hclaims
  split at h
  · cases h
  split at h
  · cases h
  split at h
  · cases h
  obtain rfl := Except.ok.inj h
  exact (decrypt_ok hclaims).1

/-! ## Runs -/

structure State.Inv (s : State ι κ α) : Prop where
  past : ∀ identity, ∀ revokedAt ∈ s.revocations identity, revokedAt ≤ s.now
  last : ∀ identity, ∀ revokedAt ∈ s.revocations identity, ∃ last ∈ s.observe identity, revokedAt ≤ last
  issued : ∀ issued ∈ s.issued, issued.token.iat ≤ s.now
  pending : ∀ pending ∈ s.pending, pending.issued ∈ s.issued ∧
    ∀ last ∈ pending.seen, last ≤ pending.issued.token.iat
  chained : s.Chained

theorem State.Inv.init : (State.init : State ι κ α).Inv where
  past _ _ h := nomatch h
  last _ _ h := nomatch h
  issued _ h := nomatch h
  pending _ h := nomatch h
  chained _ h := nomatch h

theorem State.Inv.refuses {s : State ι κ α} {act : Act ι κ α} (h : s.Inv) (hcond : Cond configuration s act) :
    Refuses configuration s act := by
  cases act with
  | wait | issue | revoke | depart => trivial
  | authenticate place remote authority force =>
    intro issued hissued revokedAt hrevoked hiat
    obtain ⟨last, hlast, hle⟩ := h.last _ revokedAt hrevoked
    have hbefore : issued.token.iat < last := Nat.lt_of_lt_of_le hiat hle
    have hunread : ∀ accepted, s.answers configuration remote authority force issued = .ok accepted →
        ¬(force = true ∨ issued.token.exp.isSome = true ∧
          issued.token.iat + configuration.refresh * 1000 < s.now) := by
      intro accepted haccepted hread
      obtain ⟨claims, -, hobserved, -⟩ := authenticate_ok haccepted
      exact hobserved hread last hlast hbefore
    rcases hcond issued hissued revokedAt hrevoked hiat with hforce | haged | ⟨hyoung, hmarked⟩
    · exact ⟨fun _ _ accepted haccepted => hunread accepted haccepted (.inl hforce),
        fun identity haccepted => hunread _ haccepted (.inl hforce)⟩
    · exact ⟨fun _ _ accepted haccepted => hunread accepted haccepted (.inr haged),
        fun identity haccepted => hunread _ haccepted (.inr haged)⟩
    · refine ⟨fun hnow hage => by omega, fun identity haccepted => ?_⟩
      obtain ⟨claims, hclaims, -, hrefresh⟩ := authenticate_ok haccepted
      have hnot := hunread _ haccepted
      rcases hrefresh rfl with hforce | haged | hclaimed
      · exact hnot (.inl hforce)
      · exact hnot (.inr haged)
      · rw [hclaims] at hmarked
        simp [Except.toOption, hclaimed] at hmarked

theorem State.Inv.append {s : State ι κ α} (h : s.Inv) {issued : Issued ι κ α}
    (hiat : issued.token.iat = s.now)
    (hchained : ∀ revokedAt ∈ s.revocations issued.token.identity, issued.root < revokedAt →
      issued.token.iat < revokedAt) : State.Inv { s with issued := s.issued ++ [issued] } := by
  refine ⟨h.past, h.last, List.forall_mem_append.mpr ⟨h.issued, fun other hother => ?_⟩,
    fun pending hpending => ?_, List.forall_mem_append.mpr ⟨h.chained, fun other hother => ?_⟩⟩
  · obtain rfl := List.mem_singleton.mp hother
    exact Nat.le_of_eq hiat
  · exact ⟨List.mem_append_left _ (h.pending pending hpending).1, (h.pending pending hpending).2⟩
  · obtain rfl := List.mem_singleton.mp hother
    exact hchained

theorem State.Inv.revoke {s : State ι κ α} (h : s.Inv) {identity : ι}
    (hnow : ∀ issued ∈ s.issued, issued.token.identity = identity → issued.token.iat = s.now →
      issued.root = s.now) :
    State.Inv { s with
      revocations := Function.update s.revocations identity (s.now :: s.revocations identity) } := by
  have hmem : ∀ {other revokedAt}, revokedAt ∈ Function.update s.revocations identity
      (s.now :: s.revocations identity) other →
        other = identity ∧ revokedAt = s.now ∨ revokedAt ∈ s.revocations other := by
    intro other revokedAt hrevoked
    by_cases hsame : other = identity
    · subst hsame
      rw [Function.update_self] at hrevoked
      exact (List.mem_cons.mp hrevoked).imp (⟨rfl, ·⟩) id
    · rw [Function.update_of_ne hsame] at hrevoked
      exact .inr hrevoked
  have hpast : ∀ {other revokedAt}, revokedAt ∈ Function.update s.revocations identity
      (s.now :: s.revocations identity) other → revokedAt ≤ s.now := by
    intro other revokedAt hrevoked
    rcases hmem hrevoked with ⟨-, rfl⟩ | hold
    · exact Nat.le_refl _
    · exact h.past other revokedAt hold
  refine ⟨fun _ _ => hpast, fun other revokedAt hrevoked => ?_, h.issued, h.pending, ?_⟩
  · by_cases hsame : other = identity
    · subst hsame
      exact ⟨s.now, by simp [State.observe], hpast hrevoked⟩
    · have hold : revokedAt ∈ s.revocations other :=
        (hmem hrevoked).resolve_left fun hnew => hsame hnew.1
      simpa [State.observe, Function.update_of_ne hsame] using h.last other revokedAt hold
  · intro issued hissued revokedAt hrevoked hroot
    rcases hmem hrevoked with ⟨hsame, rfl⟩ | hold
    · -- a token of this very moment is the first of its chain
      refine Nat.lt_of_le_of_ne (h.issued issued hissued) fun hiat => ?_
      rw [hnow issued hissued hsame hiat] at hroot
      exact Nat.lt_irrefl _ hroot
    · exact h.chained issued hissued revokedAt hold hroot

theorem State.Inv.pend {s : State ι κ α} (h : s.Inv) {place : ℕ} {issued : Issued ι κ α}
    (hplace : s.issued[place]? = some issued)
    (hseen : ∀ last ∈ s.observe issued.token.identity, last ≤ issued.token.iat) :
    State.Inv { s with pending := s.pending ++ [⟨issued, s.observe issued.token.identity⟩] } := by
  refine ⟨h.past, h.last, h.issued, List.forall_mem_append.mpr ⟨h.pending, fun pending hpending => ?_⟩,
    h.chained⟩
  obtain rfl := List.mem_singleton.mp hpending
  exact ⟨List.mem_of_getElem? hplace, hseen⟩

theorem State.Inv.leave {s : State ι κ α} (h : s.Inv) (place : ℕ) :
    State.Inv { s with pending := s.pending.eraseIdx place } :=
  ⟨h.past, h.last, h.issued, fun pending hpending => h.pending pending (List.mem_of_mem_eraseIdx hpending),
    h.chained⟩

theorem State.Inv.step {s t : State ι κ α} {act : Act ι κ α} (h : s.Inv)
    (hcond : Cond configuration s act) (hstep : step configuration s act = some t) : t.Inv := by
  have hrefuses := h.refuses hcond
  cases act with
  | wait time =>
    simp only [Tokens.step] at hstep
    split at hstep
    · rename_i hle
      obtain rfl := Option.some.inj hstep
      exact ⟨fun identity revokedAt hrevoked => Nat.le_trans (h.past identity revokedAt hrevoked) hle, h.last,
        fun issued hissued => Nat.le_trans (h.issued issued hissued) hle, h.pending, h.chained⟩
    · cases hstep
  | issue format kid iss identity exp nbf =>
    obtain rfl := Option.some.inj hstep
    exact h.append rfl fun _ _ hroot => hroot
  | revoke identity =>
    obtain rfl := Option.some.inj hstep
    exact h.revoke hcond
  | authenticate place remote authority force =>
    simp only [Tokens.step] at hstep
    split at hstep
    · cases hstep
    rename_i issued hplace
    split at hstep
    · rename_i identity hanswer
      obtain rfl := Option.some.inj hstep
      have hidentity : identity = issued.token.identity := authenticate_identity hanswer
      rw [hidentity] at hanswer ⊢
      refine h.pend hplace fun last hlast => Nat.le_of_not_lt fun hbefore => ?_
      exact (hrefuses issued hplace last (List.mem_of_mem_head? hlast) hbefore).2 _ hanswer
    · obtain rfl := Option.some.inj hstep
      exact h
  | depart place authority banned =>
    simp only [Tokens.step] at hstep
    split at hstep
    · cases hstep
    rename_i pending hplace
    obtain ⟨hissued, hnone⟩ := h.pending pending (List.mem_of_getElem? hplace)
    split at hstep
    · obtain rfl := Option.some.inj hstep
      exact h.leave place
    · obtain rfl := Option.some.inj hstep
      refine (h.leave place).append rfl fun revokedAt hrevoked hroot => ?_
      -- what is re-issued was not revoked when it was authenticated, and has not been since
      obtain ⟨last, hlast, hle⟩ := h.last _ revokedAt hrevoked
      have hseen : last ∈ pending.seen := hcond pending hplace ▸ hlast
      have hiat := h.chained pending.issued hissued revokedAt hrevoked hroot
      exact absurd (Nat.lt_of_lt_of_le hiat hle) (Nat.not_lt.mpr (hnone last hseen))

/-- Where every step meets the condition, a revoked token is refused as it has to be, at each of them, and
none is exchanged. -/
theorem refused_and_chained {acts : List (Act ι κ α)} {s : State ι κ α}
    (hrun : run (step configuration) State.init acts = some s)
    (hcond : Along (step configuration) (Cond configuration) State.init acts) :
    Along (step configuration) (Refuses configuration) State.init acts ∧ s.Chained :=
  ⟨along_of_invariant (fun _ _ _ => State.Inv.step) (fun _ _ => State.Inv.refuses) .init hcond,
    (run_invariant (fun _ _ _ => State.Inv.step) .init hcond hrun).chained⟩

end

/-! ## A token of the legacy form -/

def rotated : Configuration ℕ where
  keys := [(1, .jwe), (0, .paseto)]
  latest := 1
  mounted := rfl
  lifetime := 2592000
  refresh := 600

def exchanged : List (Act ℕ ℕ ℕ) :=
  [.issue .paseto 0 0 7 (some 2592000000) none, .wait 1000, .revoke 7, .wait 2000,
    .authenticate 0 (fun _ => none) 0 false, .depart 0 0 false]

theorem exchanged_run : ((run (step rotated) State.init exchanged).any fun s =>
    s.issued.any fun issued => issued.token.identity = 7 && (s.revocations 7).any fun revokedAt =>
      issued.root < revokedAt && revokedAt < issued.token.iat) = true := by decide +kernel

theorem exchanged_revoked : ∃ s, run (step rotated) State.init exchanged = some s ∧ ¬s.Chained := by
  obtain ⟨s, hrun, hs⟩ := (Option.any_eq_true ..).mp exchanged_run
  refine ⟨s, hrun, fun hchained => ?_⟩
  obtain ⟨issued, hissued, hthere⟩ := List.any_eq_true.mp hs
  obtain ⟨hidentity, hafter⟩ := Bool.and_eq_true_iff.mp hthere
  obtain ⟨revokedAt, hrevoked, htimes⟩ := List.any_eq_true.mp hafter
  simp only [Bool.and_eq_true, decide_eq_true_eq] at hidentity htimes
  have hiat := hchained issued hissued revokedAt (hidentity ▸ hrevoked) htimes.1
  exact Nat.lt_asymm hiat htimes.2

def refused : List (Act ℕ ℕ ℕ) :=
  [.issue .jwe 1 0 7 (some 2592000000) none, .wait 700000, .authenticate 0 (fun _ => none) 0 false,
    .depart 0 0 false, .wait 800000, .revoke 7, .wait 1400000, .authenticate 1 (fun _ => none) 0 false,
    .authenticate 0 (fun _ => none) 0 true]

theorem refused_and_chained_rotated : ∃ s, run (step rotated) State.init refused = some s ∧
    Along (step rotated) (Refuses rotated) State.init refused ∧ s.Chained := by
  have hsome : (run (step rotated) State.init refused).isSome = true := by decide +kernel
  obtain ⟨s, hrun⟩ := Option.isSome_iff_exists.mp hsome
  exact ⟨s, hrun, refused_and_chained hrun (by decide +kernel)⟩

end Toa.Identity.Tokens
