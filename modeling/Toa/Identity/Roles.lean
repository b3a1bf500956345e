import Toa.Lib.Scope

/-! Roles and who may grant them. A manager grants any role; a delegate grants within its own scopes, and
never the right to grant. -/

namespace Toa.Identity.Roles
open Scope

abbrev Role := List Char

def SEPARATOR : Char := ':'

def MANAGEMENT : Role := "system:identity:roles".toList

def DELEGATION : Role := "system:identity:roles:delegation".toList

structure Entity (ι : Type*) where
  identity : ι
  role : Role
  grantor : Option ι

structure Grantor (ι : Type*) where
  id : ι
  roles : List Role

structure Input (ι : Type*) where
  identity : ι
  role : Role
  grantor : Option (Grantor ι)

inductive Refusal
  | FORBIDDEN
  | INACCESSIBLE_SCOPE
  | DUPLICATE

def within (role : Role) (scopes : List Role) : Bool :=
  scopes.any fun scope => role == scope || (scope ++ [SEPARATOR]).isPrefixOf role

section
variable {ι : Type*}

def transition (input : Input ι) : Except Refusal (Entity ι) :=
  match input.grantor with
  | none => .ok ⟨input.identity, input.role, none⟩
  | some grantor =>
    if !within MANAGEMENT grantor.roles &&
        (!within input.role grantor.roles || within input.role [MANAGEMENT]) then
      .error .INACCESSIBLE_SCOPE
    else .ok ⟨input.identity, input.role, some grantor.id⟩

variable [DecidableEq ι]

def list (s : List (Entity ι)) (identity : ι) : List Role :=
  (s.filter fun entry => entry.identity = identity).map (·.role)

def grant (s : List (Entity ι)) (input : Input ι) : Except Refusal (List (Entity ι)) :=
  match transition input with
  | .error refusal => .error refusal
  | .ok entry =>
    if s.any fun other => other.identity = entry.identity && other.role == entry.role then
      .error .DUPLICATE
    else .ok (s ++ [entry])

/-! ## The route -/

def LIMIT : ℕ := 1024

def Role.get (s : List (Entity ι)) (identity : ι) : List Role := (list s identity).take LIMIT

def Role.match (required roles : List Role) : Bool :=
  roles.any fun role => required.any fun expected =>
    expected == role || (role ++ [SEPARATOR]).isPrefixOf expected

structure Request (ι : Type*) where
  caller : ι
  identity : ι
  role : Role

/-- The rule of the method is asked before the role of its resource, and it embeds the caller as the
grantor before it asks its own role. -/
def POST (s : List (Entity ι)) (request : Request ι) : Except Refusal (List (Entity ι)) :=
  let roles := Role.get s request.caller
  if Role.match [DELEGATION] roles || Role.match [MANAGEMENT] roles then
    grant s ⟨request.identity, request.role, some ⟨request.caller, roles⟩⟩
  else .error .FORBIDDEN

def served (s : List (Entity ι)) (request : Request ι) : List (Entity ι) :=
  match POST s request with
  | .ok s' => s'
  | .error _ => s

/-! ## Who may grant, and what is held -/

def Manages (s : List (Entity ι)) (identity : ι) : Prop := Within SEPARATOR MANAGEMENT (list s identity)

def Delegates (s : List (Entity ι)) (identity : ι) : Prop := Within SEPARATOR DELEGATION (list s identity)

def Covered (s : List (Entity ι)) (role : Role) : Prop :=
  ∃ identity, Within SEPARATOR role (list s identity)

end

theorem within_iff {role : Role} {scopes : List Role} :
    within role scopes = true ↔ Within SEPARATOR role scopes := by
  simp only [within, List.any_eq_true, Bool.or_eq_true, beq_iff_eq, List.isPrefixOf_iff_prefix, Within,
    Covers]

theorem management_covers_delegation : Covers SEPARATOR MANAGEMENT DELEGATION := by decide

section
variable {ι : Type*}

theorem transition_ok {input : Input ι} {grantor : Grantor ι} {entry : Entity ι}
    (hgrantor : input.grantor = some grantor) (h : transition input = .ok entry) :
    entry = ⟨input.identity, input.role, some grantor.id⟩ ∧
      (Within SEPARATOR MANAGEMENT grantor.roles ∨
        Within SEPARATOR input.role grantor.roles ∧ ¬Covers SEPARATOR MANAGEMENT input.role) := by
  simp only [transition, hgrantor] at h
  split at h
  · cases h
  · rename_i hallowed
    refine ⟨(Except.ok.inj h).symm, ?_⟩
    simp only [Bool.and_eq_true, Bool.or_eq_true, Bool.not_eq_true', not_and, not_or,
      Bool.not_eq_false, Bool.not_eq_true] at hallowed
    by_cases hmanager : within MANAGEMENT grantor.roles = true
    · exact .inl (within_iff.mp hmanager)
    · obtain ⟨hrole, hmanagement⟩ := hallowed (Bool.eq_false_iff.mpr hmanager)
      refine .inr ⟨within_iff.mp hrole, fun hcovers => ?_⟩
      rw [within_iff.mpr (within_singleton.mpr hcovers)] at hmanagement
      cases hmanagement

variable [DecidableEq ι] {s : List (Entity ι)}

theorem within_append {entry : Entity ι} {identity : ι} {name : Role} :
    Within SEPARATOR name (list (s ++ [entry]) identity) ↔
      Within SEPARATOR name (list s identity) ∨
        entry.identity = identity ∧ Covers SEPARATOR entry.role name := by
  have hmem : ∀ role, role ∈ list (s ++ [entry]) identity ↔
      role ∈ list s identity ∨ entry.identity = identity ∧ role = entry.role := by
    intro role
    by_cases hsame : entry.identity = identity <;> simp [list, hsame]
  simp only [Within, hmem, or_and_right, exists_or]
  apply or_congr_right
  constructor
  · rintro ⟨_, ⟨hsame, rfl⟩, hcovers⟩
    exact ⟨hsame, hcovers⟩
  · rintro ⟨hsame, hcovers⟩
    exact ⟨entry.role, ⟨hsame, rfl⟩, hcovers⟩

theorem Role.get_subset {identity : ι} : ∀ role ∈ Role.get s identity, role ∈ list s identity :=
  fun _ => List.mem_of_mem_take

def May (s : List (Entity ι)) (caller : ι) (role : Role) : Prop :=
  Within SEPARATOR role (list s caller) ∧ ¬Covers SEPARATOR MANAGEMENT role

theorem POST_ok {request : Request ι} {s' : List (Entity ι)} (h : POST s request = .ok s') :
    s' = s ++ [⟨request.identity, request.role, some request.caller⟩] ∧
      (Manages s request.caller ∨ May s request.caller request.role) := by
  simp only [POST] at h
  split at h
  · simp only [grant] at h
    split at h
    · cases h
    · rename_i entry hentry
      obtain ⟨rfl, hgranted⟩ := transition_ok rfl hentry
      split at h
      · cases h
      · refine ⟨(Except.ok.inj h).symm, hgranted.imp (·.mono Role.get_subset) fun hmay => ?_⟩
        exact ⟨hmay.1.mono Role.get_subset, hmay.2⟩
  · cases h

/-- Whom the assignment makes a manager or a delegate, and what it covers. -/
structure Unchanged (s s' : List (Entity ι)) : Prop where
  manages : ∀ identity, Manages s' identity ↔ Manages s identity
  delegates : ∀ identity, Delegates s' identity ↔ Delegates s identity
  covered : ∀ role, Covered s' role ↔ Covered s role

theorem Unchanged.refl (s : List (Entity ι)) : Unchanged s s :=
  ⟨fun _ => Iff.rfl, fun _ => Iff.rfl, fun _ => Iff.rfl⟩

theorem Unchanged.trans {s t u : List (Entity ι)} (h : Unchanged s t) (h' : Unchanged t u) :
    Unchanged s u where
  manages identity := (h'.manages identity).trans (h.manages identity)
  delegates identity := (h'.delegates identity).trans (h.delegates identity)
  covered role := (h'.covered role).trans (h.covered role)

theorem May.not_delegation {caller : ι} {role : Role} (h : May s caller role)
    (hcaller : ¬Manages s caller) : ¬Covers SEPARATOR role DELEGATION := by
  intro hcovers
  rcases hcovers.total management_covers_delegation with hmanagement | hwithin
  · exact hcaller (h.1.trans hmanagement)
  · exact h.2 hwithin

theorem unchanged_of_may {caller : ι} {entry : Entity ι} (h : May s caller entry.role)
    (hcaller : ¬Manages s caller) : Unchanged s (s ++ [entry]) where
  manages identity := by
    refine within_append.trans ⟨fun hmanages => hmanages.resolve_right fun hnew => ?_, .inl⟩
    exact hcaller (h.1.trans hnew.2)
  delegates identity := by
    refine within_append.trans ⟨fun hdelegates => hdelegates.resolve_right fun hnew => ?_, .inl⟩
    exact h.not_delegation hcaller hnew.2
  covered role := by
    refine ⟨fun ⟨identity, hrole⟩ => ?_, fun ⟨identity, hrole⟩ => ⟨identity, within_append.mpr (.inl hrole)⟩⟩
    rcases within_append.mp hrole with hold | ⟨-, hnew⟩
    · exact ⟨identity, hold⟩
    · exact ⟨caller, h.1.trans hnew⟩

theorem unchanged_served {request : Request ι} (hcaller : ¬Manages s request.caller) :
    Unchanged s (served s request) := by
  simp only [served]
  split
  · rename_i s' h
    obtain ⟨rfl, hgranted⟩ := POST_ok h
    exact unchanged_of_may (hgranted.resolve_left hcaller) hcaller
  · exact .refl s

theorem unchanged_of_delegates {requests : List (Request ι)}
    (hcallers : ∀ request ∈ requests, ¬Manages s request.caller) :
    Unchanged s (requests.foldl served s) := by
  induction requests generalizing s with
  | nil => exact .refl s
  | cons request requests ih =>
    have hstep := unchanged_served (hcallers request (List.mem_cons_self ..))
    refine hstep.trans (ih fun other hother hmanages => ?_)
    exact hcallers other (List.mem_cons_of_mem _ hother) ((hstep.manages _).mp hmanages)

/-- Delegation never escalates. -/
theorem never_escalates (s : List (Entity ι)) (requests : List (Request ι)) :
    (∀ request s', POST (requests.foldl served s) request = .ok s' →
      ¬Manages (requests.foldl served s) request.caller →
        ∃ held ∈ list (requests.foldl served s) request.caller,
          Covers SEPARATOR held request.role) ∧
    ((∀ request ∈ requests, ¬Manages s request.caller) → Unchanged s (requests.foldl served s)) :=
  ⟨fun _ _ h hcaller => ((POST_ok h).2.resolve_left hcaller).1, unchanged_of_delegates⟩

example : (POST [⟨0, DELEGATION, none⟩, ⟨0, "app:moderation".toList, none⟩]
    ⟨0, 1, "app:moderation:photos".toList⟩).toOption.isSome = true := by decide

end

end Toa.Identity.Roles
