import Toa.Auth.Described

/-! Who acts on a request. What the directives leave on it is of the one that admits it and of what requires
rather than admits, unless a rule ends after a member of it has acted, or a reply is settled by another. -/

namespace Toa.Auth

def Context.embeds (context : Context) : List Transform :=
  context.body.filter fun transform => !transform.isCheck

section
variable (services : Services) (request : Request)

/-- Nothing is left but what is required: checks, and the identity `assert` incepts. -/
def Kept (before after : Context) : Prop :=
  after.embeds = before.embeds ∧ (after.identity = before.identity ∨
    before.identity = none ∧ request.authorization.isSome ∧
      ∃ incepted, Incept.incept services request services.newid = .ok incepted ∧
        after.identity = some incepted)

end

variable {services : Services} {request : Request}

theorem embeds_push {context : Context} {transform : Transform} :
    (context.push transform).embeds =
      context.embeds ++ if transform.isCheck then [] else [transform] := by
  simp only [Context.embeds, Context.push, List.filter_append]
  cases h : transform.isCheck <;> simp [h]

theorem Kept.refl (context : Context) : Kept services request context context := ⟨rfl, .inl rfl⟩

theorem Kept.trans {a b c : Context} (h : Kept services request a b) (h' : Kept services request b c) :
    Kept services request a c := by
  refine ⟨h'.1.trans h.1, ?_⟩
  rcases h'.2 with hsame' | ⟨hnone', hpresented, hincepted⟩
  · rw [hsame']
    exact h.2
  · rcases h.2 with hsame | ⟨-, -, incepted, -, hb⟩
    · exact .inr ⟨hsame ▸ hnone', hpresented, hincepted⟩
    · rw [hnone'] at hb
      cases hb

/-! ## What does not act -/

structure Quiet (services : Services) (request : Request) (context : Context) (asked : Asked) : Prop where
  kept : Kept services request context asked.context
  left : asked.answer = .ok true → asked.context = context

theorem Acted.quiet {identity : Option Identity} {context : Context} {asked : Asked}
    (hknown : identity = none → context.identity = none)
    (h : Acted services request identity context false asked) : Quiet services request context asked := by
  cases h with
  | left => exact ⟨.refl _, fun _ => rfl⟩
  | checked statements =>
    refine ⟨⟨?_, .inl rfl⟩, fun h => nomatch h⟩
    rw [embeds_push]
    exact List.append_nil _
  | asserted incepted hnone hpresented hincepted =>
    exact ⟨⟨rfl, .inr ⟨hknown hnone, hpresented, incepted, hincepted, rfl⟩⟩, fun h => nomatch h⟩

theorem Rule.acts_cons {directive : Directive} {directives : List Directive} {identity : Option Identity}
    {context : Context}
    (h : (directive.authorize services request identity context).answer = .ok true) :
    Rule.acts services request identity context (directive :: directives) =
      (directive.acts services request identity context ||
        Rule.acts services request identity context directives) := by
  simp only [Rule.acts, h]

theorem Rule.acts_cons_of_ne {directive : Directive} {directives : List Directive}
    {identity : Option Identity} {context : Context}
    (h : (directive.authorize services request identity context).answer ≠ .ok true) :
    Rule.acts services request identity context (directive :: directives) =
      directive.acts services request identity context := by
  simp only [Rule.acts]
  exact Bool.or_false _

mutual

theorem Directive.quiet (directive : Directive) {identity : Option Identity} {context : Context}
    (hknown : identity = none → context.identity = none)
    (h : directive.acts services request identity context = false) :
    Quiet services request context (directive.authorize services request identity context) := by
  match directive with
  | .rule directives =>
    simp only [Directive.acts] at h
    simp only [Directive.authorize]
    exact Rule.quiet directives hknown h
  | .anonymous _ | .anyone _ | .id _ | .role _ | .incept _ | .scheme _ | .claims _ | .assert _ | .echo
  | .refresh | .delegate _ | .input _ | .transfer _ =>
    exact Acted.quiet hknown (Directive.acted _ (by nofun) h)

theorem Rule.quiet (directives : List Directive) {identity : Option Identity} {context : Context}
    (hknown : identity = none → context.identity = none)
    (h : Rule.acts services request identity context directives = false) :
    Quiet services request context (Rule.authorize services request identity context directives) := by
  match directives with
  | [] => exact ⟨.refl _, fun _ => rfl⟩
  | directive :: directives =>
    by_cases hmember : (directive.authorize services request identity context).answer = .ok true
    · rw [Rule.acts_cons hmember, Bool.or_eq_false_iff] at h
      -- a member that authorizes and does not act leaves the context as it was
      have hleft := (Directive.quiet directive hknown h.1).left hmember
      rw [Rule.authorize_cons hmember, hleft]
      exact Rule.quiet directives hknown h.2
    · rw [Rule.acts_cons_of_ne hmember] at h
      rw [Rule.authorize_cons_of_ne hmember]
      exact Directive.quiet directive hknown h

end

/-! ## What acts -/

theorem carries_more : Carries services request fun identity before after =>
    before.embeds.length ≤ after.embeds.length ∧
      (before.identity.isSome → after.identity.isSome) ∧
      (identity.isSome → ∀ known ∈ before.identity, ∃ now ∈ after.identity,
        known.refresh = true → now.refresh = true) where
  refl _ _ := ⟨Nat.le_refl _, id, fun _ known hknown => ⟨known, hknown, id⟩⟩
  trans _ _ _ _ h h' := by
    refine ⟨Nat.le_trans h.1 h'.1, h'.2.1 ∘ h.2.1, fun hsome known hknown => ?_⟩
    obtain ⟨mid, hmid, hmarked⟩ := h.2.2 hsome known hknown
    obtain ⟨now, hnow, hmarked'⟩ := h'.2.2 hsome mid hmid
    exact ⟨now, hnow, hmarked' ∘ hmarked⟩
  acted identity context acts asked h := by
    have hlonger : ∀ transform : Transform,
        context.embeds.length ≤ (context.push transform).embeds.length := by
      intro transform
      rw [embeds_push, List.length_append]
      exact Nat.le_add_right _ _
    cases h with
    | left => exact ⟨Nat.le_refl _, id, fun _ known hknown => ⟨known, hknown, id⟩⟩
    | checked => exact ⟨hlonger _, id, fun _ known hknown => ⟨known, hknown, id⟩⟩
    | embedded => exact ⟨hlonger _, id, fun _ known hknown => ⟨known, hknown, id⟩⟩
    | asserted incepted hnone =>
      exact ⟨Nat.le_refl _, fun _ => rfl, fun hsome => absurd hsome (by simp [hnone])⟩
    | invented hnone =>
      exact ⟨Nat.le_refl _, fun _ => rfl, fun _ known hknown => absurd hknown (by simp [hnone])⟩
    | marked known => exact ⟨Nat.le_refl _, fun _ => rfl, fun _ _ _ => ⟨known.marked, rfl, fun _ => rfl⟩⟩

inductive Changed (request : Request) (identity : Option Identity) (before after : Context) : Prop
  | embedded (h : before.embeds.length < after.embeds.length)
  | invented (hnone : before.identity = none) (hanonymous : request.authorization = none)
      (hsome : after.identity.isSome)
  | marked (hsome : identity.isSome) (known now : Identity) (hknown : before.identity = some known)
      (hfresh : known.refresh = false) (hnow : after.identity = some now) (hmarked : now.refresh = true)

theorem Changed.not_kept {identity : Option Identity} {before after : Context}
    (h : Changed request identity before after) : ¬Kept services request before after := by
  rintro ⟨hembeds, hidentity⟩
  cases h with
  | embedded h => exact absurd (congrArg List.length hembeds) (Nat.ne_of_gt h)
  | invented hnone hanonymous hsome =>
    rcases hidentity with hsame | ⟨-, hpresented, -⟩
    · rw [hsame, hnone] at hsome
      cases hsome
    · rw [hanonymous] at hpresented
      cases hpresented
  | marked hsome known now hknown hfresh hnow hmarked =>
    rcases hidentity with hsame | ⟨hnone, -⟩
    · rw [hsame, hknown] at hnow
      obtain rfl := Option.some.inj hnow
      rw [hfresh] at hmarked
      cases hmarked
    · rw [hknown] at hnone
      cases hnone

theorem Changed.later {identity : Option Identity} {before after : Context} (directives : List Directive)
    (h : Changed request identity before after) :
    Changed request identity before (Rule.authorize services request identity after directives).context := by
  have hcarries : Carries services request _ := carries_more
  obtain ⟨hlength, hsome', hmarked'⟩ := hcarries.rule directives identity after
  cases h with
  | embedded h => exact .embedded (Nat.lt_of_lt_of_le h hlength)
  | invented hnone hanonymous hsome => exact .invented hnone hanonymous (hsome' hsome)
  | marked hsome known now hknown hfresh hnow hmarked =>
    obtain ⟨later, hlater, hrefresh⟩ := hmarked' hsome now hnow
    exact .marked hsome known later hknown hfresh hlater (hrefresh hmarked)

theorem Acted.changed {identity : Option Identity} {context : Context} {asked : Asked}
    (hknown : context.identity = none → identity = none)
    (h : Acted services request identity context true asked) :
    Changed request identity context asked.context := by
  cases h with
  | embedded transform hcheck =>
    refine .embedded ?_
    simp only [embeds_push, hcheck, Bool.false_eq_true, if_false, List.length_append, List.length_singleton]
    exact Nat.lt_succ_self _
  | invented hnone hanonymous => exact .invented hnone (hanonymous (hknown hnone)) rfl
  | marked known hsome hknown hfresh => exact .marked hsome known known.marked hknown hfresh rfl rfl

mutual

theorem Directive.changed (directive : Directive) {identity : Option Identity} {context : Context}
    (hknown : identity = none ↔ context.identity = none)
    (h : directive.acts services request identity context = true) :
    Changed request identity context (directive.authorize services request identity context).context := by
  match directive with
  | .rule directives =>
    simp only [Directive.acts] at h
    simp only [Directive.authorize]
    exact Rule.changed directives hknown h
  | .anonymous _ | .anyone _ | .id _ | .role _ | .incept _ | .scheme _ | .claims _ | .assert _ | .echo
  | .refresh | .delegate _ | .input _ | .transfer _ =>
    exact Acted.changed hknown.mpr (Directive.acted _ (by nofun) h)

theorem Rule.changed (directives : List Directive) {identity : Option Identity} {context : Context}
    (hknown : identity = none ↔ context.identity = none)
    (h : Rule.acts services request identity context directives = true) :
    Changed request identity context
      (Rule.authorize services request identity context directives).context := by
  match directives with
  | [] => cases h
  | directive :: directives =>
    by_cases hmember : (directive.authorize services request identity context).answer = .ok true
    · rw [Rule.authorize_cons hmember]
      cases hacts : directive.acts services request identity context with
      | true => exact (Directive.changed directive hknown hacts).later directives
      | false =>
        rw [Rule.acts_cons hmember, hacts, Bool.false_or] at h
        rw [(Directive.quiet directive hknown.mp hacts).left hmember]
        exact Rule.changed directives hknown h
    · rw [Rule.acts_cons_of_ne hmember] at h
      rw [Rule.authorize_cons_of_ne hmember]
      exact Directive.changed directive hknown h

end

theorem kept_iff (directive : Directive) (context : Context) :
    Kept services request context
        (directive.authorize services request context.identity context).context ↔
      directive.acts services request context.identity context = false := by
  constructor
  · intro hkept
    cases hacts : directive.acts services request context.identity context with
    | true => exact absurd hkept (Directive.changed directive Iff.rfl hacts).not_kept
    | false => rfl
  · exact fun h => (Directive.quiet directive id h).kept

/-! ## A method -/

section
variable (services : Services) (request : Request)

def asked (context : Context) : List Directive → List (Directive × Context)
  | [] => []
  | directive :: directives =>
    (directive, context) ::
      match (directive.authorize services request context.identity context).answer with
      | .ok false =>
        asked (directive.authorize services request context.identity context).context directives
      | _ => []

variable (directives : List Directive) (context : Context) (body : String → Option Value)

/-- Who acts on a request is what admitted it and what requires: what was asked and did not authorize left no
more than is required, the operation is given what the one that admitted left besides, and no other finds an
identity in the reply. -/
structure Admitting : Prop where
  before : ∀ entry ∈ asked services request context directives,
    (entry.1.authorize services request entry.2.identity entry.2).answer ≠ .ok true →
      Kept services request entry.2 (entry.1.authorize services request entry.2.identity entry.2).context
  given : ∀ place reply after,
    precall services request 0 context directives = (.admitted place reply, after) →
      ∃ directive start, directives[place]? = some directive ∧ Kept services request context start ∧
        after = (directive.authorize services request start.identity start).context
  settled : ∀ place reply after,
    precall services request 0 context directives = (.admitted place reply, after) →
      ∀ other directive, directives[other]? = some directive → other ≠ place →
        ∀ identity, directive.settle services request body ≠ .assigned identity

/-- No directive that was asked and did not authorize is one that acted. -/
def Unacted : Prop :=
  ∀ entry ∈ asked services request context directives,
    (entry.1.authorize services request entry.2.identity entry.2).answer ≠ .ok true →
      entry.1.acts services request entry.2.identity entry.2 = false

/-- The reply names no identity to an `incept` that did not admit the request, unless the credentials are
refused there. -/
def Unnamed : Prop :=
  ∀ place reply after,
    precall services request 0 context directives = (.admitted place reply, after) →
      ∀ other property, directives[other]? = some (.incept property) → other ≠ place →
        ∀ id, body (property.getD "id") = some (.text id) →
          request.authorization.isSome ∧ ∃ error, Incept.incept services request id = .error error

end

variable {directives : List Directive} {context : Context}

theorem asked_cons_false {directive : Directive}
    (h : (directive.authorize services request context.identity context).answer = .ok false) :
    asked services request context (directive :: directives) = (directive, context) ::
      asked services request (directive.authorize services request context.identity context).context
        directives := by
  simp only [asked, h]

theorem precall_given {first place : ℕ} {reply : Option Reply} {after : Context}
    (hbefore : ∀ entry ∈ asked services request context directives,
      (entry.1.authorize services request entry.2.identity entry.2).answer ≠ .ok true →
        Kept services request entry.2
          (entry.1.authorize services request entry.2.identity entry.2).context)
    (h : precall services request first context directives = (.admitted place reply, after)) :
    ∃ i directive start, place = first + i ∧ directives[i]? = some directive ∧
      Kept services request context start ∧
        after = (directive.authorize services request start.identity start).context := by
  induction directives generalizing context first with
  | nil => cases h
  | cons directive directives ih =>
    cases hanswer : (directive.authorize services request context.identity context).answer with
    | error error =>
      rw [precall_cons_error hanswer] at h
      cases h
    | ok answer =>
      cases answer with
      | true =>
        rw [precall_cons_true hanswer] at h
        obtain ⟨houtcome, rfl⟩ := Prod.mk.inj h
        split at houtcome
        · obtain ⟨rfl, -⟩ := Outcome.admitted.inj houtcome
          exact ⟨0, directive, context, rfl, rfl, .refl _, rfl⟩
        · cases houtcome
      | false =>
        rw [precall_cons_false hanswer] at h
        rw [asked_cons_false hanswer] at hbefore
        have hfirst := hbefore _ (List.mem_cons_self ..) (by rw [hanswer]; exact fun h => nomatch h)
        obtain ⟨i, admitting, start, rfl, hplace, hstart, hafter⟩ :=
          ih (fun entry hentry => hbefore entry (List.mem_cons_of_mem _ hentry)) h
        exact ⟨i + 1, admitting, start, by omega, hplace, hfirst.trans hstart, hafter⟩

theorem Incept.settle_ne_assigned {property : Option String} {body : String → Option Value} :
    (∀ identity, Incept.settle services request property body ≠ .assigned identity) ↔
      ∀ id, body (property.getD "id") = some (.text id) →
        request.authorization.isSome ∧ ∃ error, Incept.incept services request id = .error error := by
  cases hbody : body (property.getD "id") with
  | none => simp [Incept.settle, hbody]
  | some value =>
    cases value with
    | other => simp [Incept.settle, hbody]
    | text id =>
      cases hpresented : request.authorization.isSome with
      | false => simp [Incept.settle, hbody, hpresented]
      | true =>
        cases hincept : Incept.incept services request id with
        | error error => simp [Incept.settle, hbody, hpresented, hincept]
        | ok identity => simp [Incept.settle, hbody, hpresented, hincept]

/-- Only what admitted a request and what requires acts on it, just where no rule ends after a member of it
acted and no other `incept` is named an identity. -/
theorem admitting_iff (services : Services) (request : Request) (directives : List Directive)
    (context : Context) (body : String → Option Value) :
    Admitting services request directives context body ↔
      Unacted services request directives context ∧ Unnamed services request directives context body := by
  constructor
  · refine fun h => ⟨fun entry hentry hrefuses => (kept_iff entry.1 entry.2).mp (h.before entry hentry hrefuses), ?_⟩
    intro place reply after hprecall other property hother hne
    exact Incept.settle_ne_assigned.mp (h.settled place reply after hprecall other _ hother hne)
  · intro ⟨hunacted, hunnamed⟩
    have hbefore : ∀ entry ∈ asked services request context directives, _ → _ := fun entry hentry hrefuses =>
      (kept_iff entry.1 entry.2).mpr (hunacted entry hentry hrefuses)
    refine ⟨hbefore, fun place reply after hprecall => ?_, ?_⟩
    · obtain ⟨i, directive, start, rfl, hplace, hstart, hafter⟩ := precall_given hbefore hprecall
      exact ⟨directive, start, by rwa [Nat.zero_add], hstart, hafter⟩
    · intro place reply after hprecall other directive hother hne
      cases directive with
      | incept property =>
        exact Incept.settle_ne_assigned.mpr (hunnamed place reply after hprecall other property hother hne)
      | _ => exact fun _ h => nomatch h

/-! ## What acts besides -/

def delegating : List Directive :=
  [.rule [.delegate "grantor", .role ["system:identity:roles:delegation".toList]], .anyone true]

def caller : Identity where
  id := "72cf9b0ab0ac4ab2b8036e4e940ddcae".toList
  roles := some []
  permissions := none
  scheme := some "token".toList
  provider := some .tokens
  refresh := false
  claims := none

/-- A rule embeds the caller and refuses it for its role; another directive admits the request, and the
operation is given what the rule embedded. -/
theorem embeds_refused : ¬Admitting incepting presenting delegating ⟨some caller, [], []⟩ fun _ => none := by
  intro h
  have hkept := h.before (delegating.head (by decide), ⟨some caller, [], []⟩) (List.mem_cons_self ..)
    (fun h => by cases h)
  cases hkept.1

end Toa.Auth
