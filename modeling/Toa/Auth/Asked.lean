import Toa.Auth.Authorization

/-! What asking a directive can do to the context, said once. A directive leaves it, pushes a transform, or
changes who the request is of; a rule does what its members do, one after another. -/

namespace Toa.Auth

/-- Whether a transform is what `input` requires, rather than what it is given. -/
def Transform.isCheck : Transform → Bool
  | .check _ _ => true
  | _ => false

def Identity.marked (identity : Identity) : Identity := { identity with refresh := true }

section
variable (services : Services) (request : Request)

/-! ## What acts -/

def Echo.acts (identity : Option Identity) (context : Context) : Bool :=
  context.identity.isNone && !(identity.isNone && request.authorization.isSome)

def Refresh.acts (identity : Option Identity) (context : Context) : Bool :=
  identity.any (fun identity => identity.provider = some PRIMARY) &&
    context.identity.any (fun known => !known.refresh) &&
    match request.authorization.map split with
    | some (.ok (_, credentials)) => (services.authenticate credentials).isNone
    | _ => false

def Transfer.acts : Bool := !request.procedural && request.authorization.isSome

mutual

def Directive.acts (identity : Option Identity) (context : Context) : Directive → Bool
  | .rule directives => Rule.acts identity context directives
  | .echo => Echo.acts request identity context
  | .refresh => Refresh.acts services request identity context
  | .delegate _ => identity.isSome
  | .transfer _ => Transfer.acts request
  | .anonymous _ | .anyone _ | .id _ | .role _ | .incept _ | .assert _ | .scheme _ | .claims _ | .input _ =>
    false

def Rule.acts (identity : Option Identity) (context : Context) : List Directive → Bool
  | [] => false
  | directive :: directives =>
    Directive.acts identity context directive ||
      match (directive.authorize services request identity context).answer with
      | .ok true => Rule.acts identity context directives
      | _ => false

end

/-- What a directive that is no rule does to a context when it is asked about an identity, and whether it
acts. -/
inductive Acted (identity : Option Identity) (context : Context) : Bool → Asked → Prop
  | left (answer : Except Raised Bool) : Acted identity context false ⟨answer, context⟩
  | checked (statements : List (Exposition.Input.Statement Directive)) :
      Acted identity context false ⟨.ok false, context.push (.check identity statements)⟩
  | asserted (incepted : Identity) (hnone : identity = none) (hpresented : request.authorization.isSome)
      (hincepted : Incept.incept services request services.newid = .ok incepted) :
      Acted identity context false
        ⟨.ok false, { context with identity := some incepted, response := context.response ++ [201] }⟩
  | embedded (transform : Transform) (hcheck : transform.isCheck = false) :
      Acted identity context true ⟨.ok true, context.push transform⟩
  | invented (hnone : context.identity = none)
      (hanonymous : identity = none → request.authorization = none) :
      Acted identity context true
        ⟨.ok true, { context with identity := some (create services none) }⟩
  | marked (known : Identity) (hsome : identity.isSome) (hknown : context.identity = some known)
      (hfresh : known.refresh = false) :
      Acted identity context true ⟨.ok true, { context with identity := some known.marked }⟩

variable {services request} {identity : Option Identity} {context : Context}

theorem acted_assert (enabled : Bool) :
    Acted services request identity context false
      (Assert.authorize services request enabled identity context) := by
  unfold Assert.authorize
  split
  · exact .left _
  split
  · exact .left _
  rename_i hpresented
  split
  · exact .left _
  rename_i hnone
  split
  · exact .left _
  split
  · exact .left _
  · rename_i incepted hincepted
    refine .asserted incepted ?_ ?_ hincepted
    · exact Option.not_isSome_iff_eq_none.mp hnone
    · cases hauthorization : request.authorization with
      | none => exact absurd (by simp [hauthorization]) hpresented
      | some => rfl

theorem acted_echo :
    Acted services request identity context (Echo.acts request identity context)
      (Echo.authorize services request identity context) := by
  simp only [Echo.authorize, Echo.acts]
  cases hrefuses : identity.isNone && request.authorization.isSome with
  | true => simpa using .left _
  | false =>
    simp only [Bool.false_eq_true, if_false, Bool.not_false, Bool.and_true]
    cases hknown : context.identity with
    | some known =>
      have hsame : { context with identity := some known } = context := by rw [← hknown]
      simp only [Option.getD_some, hsame]
      exact .left _
    | none =>
      refine .invented hknown fun hnone => ?_
      subst hnone
      simpa using hrefuses

theorem acted_refresh :
    Acted services request identity context (Refresh.acts services request identity context)
      (Refresh.authorize services request identity context) := by
  cases identity with
  | none => exact .left _
  | some identity =>
    simp only [Refresh.authorize, Refresh.acts, Option.any_some]
    by_cases hprimary : identity.provider = some PRIMARY
    swap
    · simp only [ne_eq, hprimary, not_false_eq_true, if_true, decide_false, Bool.false_and]
      exact .left _
    simp only [hprimary, ne_eq, not_true_eq_false, if_false, decide_true, Bool.true_and]
    cases request.authorization with
    | none => simpa using .left _
    | some authorization =>
      simp only [Option.map_some]
      match split authorization with
      | .error raised => simpa using .left _
      | .ok (scheme, credentials) =>
        dsimp only
        cases hcode : services.authenticate credentials with
        | some code => simpa using .left _
        | none =>
          simp only [Option.isNone_none, Bool.and_true]
          cases hknown : context.identity with
          | none =>
            have hsame : { context with identity := none } = context := by rw [← hknown]
            simp only [Option.map_none, hsame]
            exact .left _
          | some known =>
            cases hfresh : known.refresh with
            | false => simpa [hfresh] using .marked known rfl hknown hfresh
            | true =>
              have hsame : { context with identity := some { known with refresh := true } } = context := by
                rw [← hfresh, ← hknown]
              simp only [Option.map_some, hsame, Option.any_some, hfresh, Bool.not_true]
              exact .left _

theorem acted_transfer (property : String) :
    Acted services request identity context (Transfer.acts request)
      (Transfer.authorize request property context) := by
  simp only [Transfer.authorize, Transfer.acts]
  cases request.procedural with
  | true => exact .left _
  | false =>
    cases request.authorization with
    | none => exact .left _
    | some credential => exact .embedded _ rfl

theorem Directive.acted (directive : Directive) (hrule : ∀ directives, directive ≠ .rule directives)
    {acts : Bool} (hacts : directive.acts services request identity context = acts) :
    Acted services request identity context acts
      (directive.authorize services request identity context) := by
  subst hacts
  cases directive with
  | rule directives => exact absurd rfl (hrule directives)
  | anonymous | anyone | id | role | incept | scheme | claims => exact .left _
  | assert enabled => exact acted_assert enabled
  | echo => exact acted_echo
  | refresh => exact acted_refresh
  | delegate property =>
    cases identity with
    | none => exact .left _
    | some identity => exact .embedded _ rfl
  | input statements => exact .checked statements
  | transfer property => exact acted_transfer property

theorem Rule.authorize_cons {directive : Directive} {directives : List Directive}
    (h : (directive.authorize services request identity context).answer = .ok true) :
    Rule.authorize services request identity context (directive :: directives) =
      Rule.authorize services request identity
        (directive.authorize services request identity context).context directives := by
  cases hasked : directive.authorize services request identity context with | mk answer after =>
  rw [hasked] at h
  obtain rfl : answer = .ok true := h
  simp only [Rule.authorize, hasked]

theorem Rule.authorize_cons_of_ne {directive : Directive} {directives : List Directive}
    (h : (directive.authorize services request identity context).answer ≠ .ok true) :
    Rule.authorize services request identity context (directive :: directives) =
      directive.authorize services request identity context := by
  simp only [Rule.authorize]
  split
  · rename_i hasked
    exact absurd (congrArg Asked.answer hasked) h
  · rfl

section
variable {place : ℕ} {directive : Directive} {directives : List Directive}

theorem precall_cons_true
    (h : (directive.authorize services request context.identity context).answer = .ok true) :
    precall services request place context (directive :: directives) =
      let after := (directive.authorize services request context.identity context).context
      (if permitted services request after then .admitted place (directive.reply services request after)
        else .unpermitted place, after) := by
  cases hasked : directive.authorize services request context.identity context with | mk answer after =>
  rw [hasked] at h
  obtain rfl : answer = .ok true := h
  simp only [precall, hasked]
  split <;> rfl

theorem precall_cons_false
    (h : (directive.authorize services request context.identity context).answer = .ok false) :
    precall services request place context (directive :: directives) =
      precall services request (place + 1)
        (directive.authorize services request context.identity context).context directives := by
  cases hasked : directive.authorize services request context.identity context with | mk answer after =>
  rw [hasked] at h
  obtain rfl : answer = .ok false := h
  simp only [precall, hasked]

theorem precall_cons_error {error : Raised}
    (h : (directive.authorize services request context.identity context).answer = .error error) :
    precall services request place context (directive :: directives) =
      (.raised error, (directive.authorize services request context.identity context).context) := by
  cases hasked : directive.authorize services request context.identity context with | mk answer after =>
  rw [hasked] at h
  obtain rfl : answer = .error error := h
  simp only [precall, hasked]

end

/-! ## What holds of every directive -/

variable (services request) in
/-- What relates contexts one after another, and what each directive but a rule leaves. -/
structure Carries (R : Option Identity → Context → Context → Prop) : Prop where
  refl : ∀ identity context, R identity context context
  trans : ∀ identity a b c, R identity a b → R identity b c → R identity a c
  acted : ∀ identity context acts asked, Acted services request identity context acts asked →
    R identity context asked.context

mutual

theorem Carries.directive {R : Option Identity → Context → Context → Prop} (h : Carries services request R)
    (directive : Directive) (identity : Option Identity) (context : Context) :
    R identity context (directive.authorize services request identity context).context := by
  match directive with
  | .rule directives =>
    simp only [Directive.authorize]
    exact h.rule directives identity context
  | .anonymous _ | .anyone _ | .id _ | .role _ | .incept _ | .scheme _ | .claims _ | .assert _ | .echo
  | .refresh | .delegate _ | .input _ | .transfer _ =>
    exact h.acted _ _ _ _ (Directive.acted _ (by nofun) rfl)

theorem Carries.rule {R : Option Identity → Context → Context → Prop} (h : Carries services request R)
    (directives : List Directive) (identity : Option Identity) (context : Context) :
    R identity context (Rule.authorize services request identity context directives).context := by
  match directives with
  | [] => exact h.refl _ _
  | directive :: directives =>
    have hfirst := h.directive directive identity context
    by_cases hanswer : (directive.authorize services request identity context).answer = .ok true
    · rw [Rule.authorize_cons hanswer]
      exact h.trans _ _ _ _ hfirst (h.rule directives identity _)
    · rw [Rule.authorize_cons_of_ne hanswer]
      exact hfirst

end

/-! ## The identity -/

def Same (a b : Option Identity) : Prop := a.map Identity.marked = b.map Identity.marked

theorem Same.refl (a : Option Identity) : Same a a := rfl

theorem Same.trans {a b c : Option Identity} (h : Same a b) (h' : Same b c) : Same a c := Eq.trans h h'

theorem Same.isSome_eq {a b : Option Identity} (h : Same a b) : a.isSome = b.isSome := by
  simpa only [Option.isSome_map] using congrArg Option.isSome h

theorem Same.of_some {identity : Identity} {b : Option Identity} (h : Same b (some identity)) :
    ∃ known, b = some known ∧ known.marked = identity.marked := by
  cases b with
  | none => exact nomatch h
  | some known => exact ⟨known, rfl, Option.some.inj h⟩

theorem carries_identity : Carries services request fun identity before after =>
    (before.identity.isSome → after.identity.isSome) ∧
      (identity.isSome → before.identity.isSome → Same after.identity before.identity) where
  refl _ _ := ⟨id, fun _ _ => .refl _⟩
  trans _ _ _ _ h h' := ⟨h'.1 ∘ h.1, fun hsome hbefore =>
    (h'.2 hsome (h.1 hbefore)).trans (h.2 hsome hbefore)⟩
  acted identity context acts asked h := by
    cases h with
    | left | checked | embedded => exact ⟨id, fun _ _ => .refl _⟩
    | asserted _ hnone => exact ⟨fun _ => rfl, fun hsome => absurd hsome (by simp [hnone])⟩
    | invented hnone => exact ⟨fun _ => rfl, fun _ hsome => absurd hsome (by simp [hnone])⟩
    | marked known _ hknown => exact ⟨fun _ => rfl, fun _ _ => by rw [hknown]; rfl⟩

theorem identity_of_precall (directives : List Directive) {place : ℕ} {context : Context}
    (h : context.identity.isSome) : (precall services request place context directives).2.identity.isSome := by
  induction directives generalizing context place with
  | nil => exact h
  | cons directive directives ih =>
    have hcarries : Carries services request _ := carries_identity
    have hafter := (hcarries.directive directive context.identity context).1 h
    cases hanswer : (directive.authorize services request context.identity context).answer with
    | error error => rwa [precall_cons_error hanswer]
    | ok answer =>
      cases answer with
      | true => rwa [precall_cons_true hanswer]
      | false =>
        rw [precall_cons_false hanswer]
        exact ih hafter

end

end Toa.Auth
