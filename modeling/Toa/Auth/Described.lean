import Toa.Auth.Asked

/-! A description and the call it describes. What the directives admit is told with no request, and is what
they authorize but where the directives of the call give the caller an identity it did not have. -/

namespace Toa.Auth

/-- The request of a description: the caller's own, of no path in particular. -/
def Request.explored (request : Request) : Request :=
  { request with exploratory := true, parameters := [] }

mutual

def Directive.holdsAnonymous : Directive → Bool
  | .anonymous _ => true
  | .rule directives => Rule.holdsAnonymous directives
  | _ => false

def Rule.holdsAnonymous : List Directive → Bool
  | [] => false
  | directive :: directives => Directive.holdsAnonymous directive || Rule.holdsAnonymous directives

end

/-- No directive admitted the request, or the one that did was not permitted. -/
def Outcome.refuses : Outcome → Bool
  | .admitted _ _ => false
  | .unpermitted _ | .raised _ | .unadmitted _ => true

def Outcome.reached : Outcome → Bool
  | .admitted _ _ | .unpermitted _ | .raised _ => true
  | .unadmitted _ => false

variable {services : Services} {request : Request}

@[simp] theorem rolesOf_marked (identity : Identity) :
    services.rolesOf identity.marked = services.rolesOf identity := rfl

theorem anonymous_explored (allow : Bool) : Anonymous.authorize request.explored allow = allow := by
  simp [Anonymous.authorize, Request.explored]

theorem anonymous_le {allow : Bool} (h : Anonymous.authorize request allow = true) : allow = true := by
  cases allow with
  | true => rfl
  | false => simp [Anonymous.authorize] at h

theorem anonymous_free (allow : Bool) (h : request.authorization = none ∨ request.procedural = true) :
    Anonymous.authorize request allow = allow := by
  rcases h with h | h <;> simp [Anonymous.authorize, h]

theorem role_authorize {roles : List Identity.Roles.Role} {identity caller : Option Identity}
    (hstatic : Role.dynamic roles = false) (hsame : Same identity caller) :
    Role.authorize services request roles identity =
      .ok (caller.any fun caller => Identity.Roles.Role.match roles (services.rolesOf caller)) := by
  cases caller with
  | none =>
    cases identity with
    | none => rfl
    | some identity => exact nomatch hsame
  | some caller =>
    obtain ⟨known, rfl, hmarked⟩ := hsame.of_some
    have hroles : services.rolesOf known = services.rolesOf caller := by
      rw [← rolesOf_marked known, hmarked, rolesOf_marked]
    simp only [Role.authorize, hstatic, Bool.false_eq_true, if_false, hroles, Option.any_some]

theorem untold_eq_false {caller : Option Identity}
    (h : (if caller.isNone then some false else none) = some false) : caller = none := by
  cases caller with
  | none => rfl
  | some => exact nomatch h

theorem Rule.admits_untold {caller : Option Identity} (directives : List Directive) :
    Rule.admits services request caller true directives ≠ some true := by
  induction directives with
  | nil => exact fun h => nomatch h
  | cons directive directives ih =>
    simp only [Rule.admits]
    split
    · exact ih
    · exact fun h => nomatch h
    · exact ih

/-! ## What is refused -/

def Given (caller : Option Identity) (context : Context) : Prop :=
  caller = none ∧ context.identity.isSome = true

theorem Same.of_none {a b : Option Identity} (h : Same a b) (hb : b = none) : a = none := by
  subst hb
  exact Option.map_eq_none_iff.mp h

variable (services request) in
theorem same_or_given (directive : Directive) {caller identity : Option Identity} {context : Context}
    (hidentity : Same identity caller) (hcontext : Same context.identity caller) :
    Given caller (directive.authorize services request identity context).context ∨
      Same (directive.authorize services request identity context).context.identity caller := by
  have hcarries : Carries services request _ := carries_identity
  obtain ⟨-, hsame⟩ := hcarries.directive directive identity context
  cases caller with
  | some known => exact .inr ((hsame hidentity.isSome_eq hcontext.isSome_eq).trans hcontext)
  | none =>
    cases hafter : (directive.authorize services request identity context).context.identity with
    | none => exact .inr (.refl none)
    | some given => exact .inl ⟨rfl, by rw [hafter]; rfl⟩

mutual

theorem Directive.given (directive : Directive) {caller identity : Option Identity} {context : Context}
    (hidentity : Same identity caller) (hcontext : Same context.identity caller)
    (hadmits : directive.admits services request.explored caller = some false)
    (hanswer : (directive.authorize services request identity context).answer = .ok true) :
    Given caller (directive.authorize services request identity context).context := by
  match directive with
  | .anonymous allow =>
    have hallow : allow = false := by simpa [Directive.admits, anonymous_explored] using hadmits
    have htrue := anonymous_le (Except.ok.inj hanswer)
    rw [hallow] at htrue
    cases htrue
  | .anyone allow =>
    have hadmits := Option.some.inj hadmits
    have htrue : (context.identity.isSome && allow) = true := Except.ok.inj hanswer
    rw [hcontext.isSome_eq, hadmits] at htrue
    cases htrue
  | .id parameter =>
    obtain rfl := hidentity.of_none (untold_eq_false hadmits)
    cases hanswer
  | .role roles =>
    simp only [Directive.admits, Role.admits] at hadmits
    split at hadmits
    · cases hadmits
    rename_i hstatic
    simp only [Directive.authorize, role_authorize (Bool.eq_false_iff.mpr hstatic) hidentity,
      Option.some.inj hadmits] at hanswer
    cases hanswer
  | .rule directives =>
    simp only [Directive.admits] at hadmits
    simp only [Directive.authorize] at hanswer ⊢
    exact Rule.given directives hidentity hcontext hadmits hanswer
  | .incept _ => cases hadmits
  | .assert enabled =>
    simp only [Directive.authorize, Assert.authorize] at hanswer
    split at hanswer
    · cases hanswer
    split at hanswer
    · cases hanswer
    split at hanswer
    · cases hanswer
    split at hanswer
    · cases hanswer
    split at hanswer <;> cases hanswer
  | .scheme scheme =>
    simp only [Directive.authorize, Scheme.authorize] at hanswer
    split at hanswer
    · cases hanswer
    split at hanswer
    · cases hanswer
    split at hanswer <;> cases hanswer
  | .echo =>
    have hrefuses : (caller.isNone && request.authorization.isSome) = true := by
      simpa only [Directive.admits, Option.some.injEq, Bool.not_eq_false', Request.explored] using hadmits
    have hnone : identity.isNone = caller.isNone := by
      simpa only [Option.not_isSome] using congrArg not hidentity.isSome_eq
    simp only [Directive.authorize, Echo.authorize, hnone, hrefuses, if_true] at hanswer
    cases hanswer
  | .refresh =>
    obtain rfl := hidentity.of_none (untold_eq_false hadmits)
    cases hanswer
  | .delegate property =>
    have hcaller : caller.isSome = false := Option.some.inj hadmits
    obtain rfl := hidentity.of_none (Option.not_isSome_iff_eq_none.mp (Bool.eq_false_iff.mp hcaller))
    cases hanswer
  | .claims matchers =>
    obtain rfl := hidentity.of_none (untold_eq_false hadmits)
    cases hanswer
  | .input statements => cases hanswer
  | .transfer property =>
    have hprocedural : request.procedural = true := by
      simpa [Directive.admits, Request.explored] using hadmits
    simp only [Directive.authorize, Transfer.authorize, hprocedural, if_true] at hanswer
    cases hanswer

theorem Rule.given (directives : List Directive) {caller identity : Option Identity} {context : Context}
    {untold : Bool} (hidentity : Same identity caller) (hcontext : Same context.identity caller)
    (hadmits : Rule.admits services request.explored caller untold directives = some false)
    (hanswer : (Rule.authorize services request identity context directives).answer = .ok true) :
    Given caller (Rule.authorize services request identity context directives).context := by
  match directives with
  | [] => cases untold <;> cases hadmits
  | directive :: directives =>
    have hfirst := Directive.given directive hidentity hcontext
    by_cases hmember : (directive.authorize services request identity context).answer = .ok true
    · rw [Rule.authorize_cons hmember] at hanswer ⊢
      have hafter := same_or_given services request directive hidentity hcontext
      have hcarries : Carries services request _ := carries_identity
      have hrest := hcarries.rule directives identity
        (directive.authorize services request identity context).context
      generalize (directive.authorize services request identity context).context = after at *
      -- a caller who is given an identity by this member has it at the end
      have hgiven : Given caller after → Given caller
          (Rule.authorize services request identity after directives).context :=
        fun h => ⟨h.1, hrest.1 h.2⟩
      have hlater : ∀ untold, Rule.admits services request.explored caller untold directives = some false →
          Given caller (Rule.authorize services request identity after directives).context := by
        intro untold hadmits
        rcases hafter with hnow | hsame
        · exact hgiven hnow
        · exact Rule.given directives hidentity hsame hadmits hanswer
      simp only [Rule.admits] at hadmits
      split at hadmits
      · exact hlater _ hadmits
      · rename_i hfalse
        exact hgiven (hfirst hfalse hmember)
      · exact hlater _ hadmits
    · rw [Rule.authorize_cons_of_ne hmember] at hanswer
      exact absurd hanswer hmember

end

/-! ## What is admitted -/

section
variable {caller : Option Identity}

mutual

/-- What admits the caller authorizes it, and a credential besides where nothing in it is `anonymous`. -/
theorem Directive.authorizes (directive : Directive) {identity : Option Identity} {context : Context}
    (hidentity : caller.isSome → Same identity caller) (hcontext : caller.isSome → context.identity.isSome)
    (hopen : request.authorization = none ∨ request.procedural = true ∨ directive.holdsAnonymous = false)
    (hadmits : directive.admits services request.explored caller = some true) :
    (directive.authorize services request identity context).answer = .ok true := by
  match directive with
  | .anonymous allow =>
    have hfree : request.authorization = none ∨ request.procedural = true := by
      simpa [Directive.holdsAnonymous] using hopen
    have hallow : allow = true := by simpa [Directive.admits, anonymous_explored] using hadmits
    simp only [Directive.authorize]
    rw [anonymous_free allow hfree, hallow]
  | .anyone allow =>
    obtain ⟨hsome, hallow⟩ := Bool.and_eq_true_iff.mp (Option.some.inj hadmits)
    simp only [Directive.authorize, Anyone.authorize, hcontext hsome, hallow, Bool.and_self]
  | .id _ | .refresh | .claims _ =>
    simp only [Directive.admits] at hadmits
    split at hadmits <;> cases hadmits
  | .role roles =>
    simp only [Directive.admits, Role.admits] at hadmits
    split at hadmits
    · cases hadmits
    rename_i hstatic
    have hany := Option.some.inj hadmits
    have hsome : caller.isSome := Option.isSome_of_any hany
    simp only [Directive.authorize, role_authorize (Bool.eq_false_iff.mpr hstatic) (hidentity hsome), hany]
  | .rule directives =>
    simp only [Directive.admits] at hadmits
    simp only [Directive.authorize]
    exact Rule.authorizes directives hidentity hcontext hopen hadmits
  | .incept _ | .assert _ | .scheme _ | .input _ => cases hadmits
  | .echo =>
    have hanonymous : (caller.isNone && request.authorization.isSome) = false := by
      simpa only [Directive.admits, Option.some.injEq, Bool.not_eq_true', Request.explored] using hadmits
    simp only [Directive.authorize, Echo.authorize]
    split
    · rename_i hrefuses
      obtain ⟨hnone, hpresented⟩ := Bool.and_eq_true_iff.mp hrefuses
      rw [hpresented, Bool.and_true] at hanonymous
      have hsome : caller.isSome := by simpa using hanonymous
      rw [← (hidentity hsome).isSome_eq, Option.isNone_iff_eq_none.mp hnone] at hsome
      cases hsome
    · rfl
  | .delegate property =>
    have hsome : caller.isSome := Option.some.inj hadmits
    obtain ⟨known, hknown⟩ := Option.isSome_iff_exists.mp ((hidentity hsome).isSome_eq.trans hsome)
    simp only [Directive.authorize, Delegate.authorize, hknown]
  | .transfer property =>
    have hplain : request.procedural = false := by simpa [Directive.admits, Request.explored] using hadmits
    simp only [Directive.authorize, Transfer.authorize, hplain, Bool.false_eq_true, if_false]
    split <;> rfl

theorem Rule.authorizes (directives : List Directive) {identity : Option Identity} {context : Context}
    (hidentity : caller.isSome → Same identity caller) (hcontext : caller.isSome → context.identity.isSome)
    (hopen : request.authorization = none ∨ request.procedural = true ∨
      Rule.holdsAnonymous directives = false)
    (hadmits : Rule.admits services request.explored caller false directives = some true) :
    (Rule.authorize services request identity context directives).answer = .ok true := by
  match directives with
  | [] => rfl
  | directive :: directives =>
    simp only [Rule.holdsAnonymous, Bool.or_eq_false_iff] at hopen
    simp only [Rule.admits] at hadmits
    split at hadmits
    · exact absurd hadmits (Rule.admits_untold directives)
    · cases hadmits
    · rename_i hfirst
      have hmember := Directive.authorizes directive hidentity hcontext
        (hopen.imp_right fun h => h.imp_right And.left) hfirst
      rw [Rule.authorize_cons hmember]
      have hcarries : Carries services request _ := carries_identity
      exact Rule.authorizes directives hidentity
        (fun hsome => (hcarries.directive directive identity context).1 (hcontext hsome))
        (hopen.imp_right fun h => h.imp_right And.right) hadmits

end
end

/-! ## A method -/

theorem admits_untold {caller : Option Identity} (directives : List Directive) :
    admits services request caller true directives = true := by
  induction directives with
  | nil => rfl
  | cons directive directives ih =>
    simp only [admits]
    split
    · exact ih
    · rfl
    · exact ih

theorem precall_of_hidden {directives : List Directive} {caller : Option Identity} {context : Context}
    {place : ℕ} {untold : Bool} (hcontext : Same context.identity caller)
    (hhidden : admits services request.explored caller untold directives = false) :
    (precall services request place context directives).1.refuses = true ∨
      Given caller (precall services request place context directives).2 := by
  induction directives generalizing context place untold with
  | nil => exact .inl rfl
  | cons directive directives ih =>
    have hafter := same_or_given services request directive hcontext hcontext
    cases hanswer : (directive.authorize services request context.identity context).answer with
    | error error => exact .inl (by rw [precall_cons_error hanswer]; rfl)
    | ok answer =>
      cases hadmits : directive.admits services request.explored caller with
      | none =>
        simp only [admits, hadmits] at hhidden
        exact absurd hhidden (by simp [admits_untold])
      | some told =>
        cases told with
        | true => simp only [admits, hadmits, Bool.true_eq_false] at hhidden
        | false =>
          simp only [admits, hadmits] at hhidden
          cases answer with
          | true =>
            rw [precall_cons_true hanswer]
            exact .inr (Directive.given directive hcontext hcontext hadmits hanswer)
          | false =>
            rw [precall_cons_false hanswer]
            rcases hafter with hnow | hsame
            · exact .inr ⟨hnow.1, identity_of_precall directives hnow.2⟩
            · exact ih hsame hhidden

theorem precall_of_shown {directives : List Directive} {caller : Option Identity} {context : Context}
    {place : ℕ} (hcontext : caller.isSome → Same context.identity caller) {directive : Directive}
    (hdirective : directive ∈ directives)
    (hopen : request.authorization = none ∨ request.procedural = true ∨ directive.holdsAnonymous = false)
    (hadmits : directive.admits services request.explored caller = some true) :
    (precall services request place context directives).1.reached = true := by
  induction directives generalizing context place with
  | nil => cases hdirective
  | cons first directives ih =>
    have hsome : caller.isSome → context.identity.isSome := fun h => (hcontext h).isSome_eq.trans h
    cases hanswer : (first.authorize services request context.identity context).answer with
    | error error => rw [precall_cons_error hanswer]; rfl
    | ok answer =>
      cases answer with
      | true =>
        rw [precall_cons_true hanswer]
        dsimp only
        split <;> rfl
      | false =>
        rcases List.mem_cons.mp hdirective with rfl | hdirective
        · cases (directive.authorizes hcontext hsome hopen hadmits).symm.trans hanswer
        · rw [precall_cons_false hanswer]
          refine ih (fun h => ?_) hdirective
          refine (same_or_given services request first (hcontext h) (hcontext h)).resolve_left fun hgiven => ?_
          rw [hgiven.1] at h
          cases h

/-- What is told of a method is so of the calls of whom it is told, but where the call gives the caller an
identity, and where an `anonymous` directive is told of and the caller presents a credential. -/
theorem described_as_asked (services : Services) (request : Request) (directives : List Directive)
    (context : Context) :
    (admits services request.explored context.identity false directives = false →
      (precall services request 0 context directives).1.refuses = true ∨
        Given context.identity (precall services request 0 context directives).2) ∧
    ∀ directive ∈ directives, directive.admits services request.explored context.identity = some true →
      (request.authorization = none ∨ request.procedural = true ∨ directive.holdsAnonymous = false) →
        (precall services request 0 context directives).1.reached = true :=
  ⟨precall_of_hidden (.refl _), fun _ hdirective hadmits hopen =>
    precall_of_shown (fun _ => .refl _) hdirective hopen hadmits⟩

/-! ## Where they part -/

/-- No one has a role, and credentials that are presented are incepted. -/
def incepting : Services where
  list _ := []
  authenticate _ := none
  banned _ := false
  incept _ id _ := some ⟨id, none, none, none, none, false, none⟩
  newid := "9c4702490ff84f2a9e1b1da2ab64bdd4".toList
  hostname _ := none
  glob _ _ := false

def presenting : Request where
  authority := "nex".toList
  authorization := some "Basic dXNlcjpwYXNz".toList
  method := "POST".toList
  pathname := "/accounts/echo/".toList
  rejection := some UNKNOWN
  vetted := false
  procedural := false
  exploratory := false
  parameters := []

/-- Credentials nobody owns are incepted by `assert`, and `anyone` admits who was not told of the method. A
caller who is told of an `anonymous` method is refused it for the credential. A procedure is not told of a
method that transfers the credential, and a plain request of the same caller is admitted. -/
theorem unlike_described :
    (admits incepting presenting.explored none false [.assert true, .anyone true] = false ∧
      (precall incepting presenting 0 ⟨none, [], []⟩ [.assert true, .anyone true]).1.refuses = false) ∧
    ((Directive.anonymous true).admits incepting presenting.explored none = some true ∧
      (precall incepting presenting 0 ⟨none, [], []⟩ [.anonymous true]).1.reached = false) ∧
    (admits incepting { presenting with procedural := true }.explored none false
        [.transfer "authorization"] = false ∧
      (precall incepting presenting 0 ⟨none, [], []⟩ [.transfer "authorization"]).1.refuses = false) := by
  refine ⟨⟨rfl, ?_⟩, ⟨rfl, rfl⟩, rfl, rfl⟩
  decide +kernel

end Toa.Auth
