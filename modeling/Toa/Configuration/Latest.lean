import Toa.Configuration.Aspect

/-! That an aspect ends with the latest value. What was created is either held, or yet to be delivered, or
asked for in a call that the service has not answered before. -/

set_option linter.unusedSectionVars false

namespace Toa.Configuration
open Toa.Run

variable {γ ρ ν : Type*} [DecidableEq γ] [DecidableEq ρ]

section
variable (deployed : ρ → γ) (revision : Option ρ) (fit : γ → Option ν) (service : ρ)

/-- The revision of the values service that serves the aspect: its own, where it was deployed with one. -/
def own : ρ := revision.getD service

def Value.means (o : Value γ ρ) : γ :=
  match o.revision with
  | none => o.configuration
  | some _ => deployed (own revision service)

/-- The aspect, as of `created`, is to hold `configuration`. -/
def Means (stored : List (Value γ ρ)) (configuration : γ) (created : ℕ) : Prop :=
  (created = 0 ∧ configuration = deployed (own revision service)) ∨
    ∃ o ∈ stored, o.created = created ∧ configuration = o.means deployed revision service

def State.Fresh (s : State γ ρ ν) (v : Value γ ρ) : Prop :=
  ∀ u, s.flight = .answered (some u) → refused revision u = false → v.created ≤ u.created

/-- What is newer than what the aspect takes is delivered to it once more, or fits, and is of the
deployment it is served by. -/
def Heard (s : State γ ρ ν) : Act γ ρ → Prop
  | .deliver v last =>
    match s.aspect with
    | .following _ created => created < v.created →
      if foreign revision v = true then last = true → s.Fresh revision v
      else (revision = none → v.revision = none ∨ v.revision = some service) ∧
        (last = true → (fit v.configuration).isSome = true)
    | .served u => last = true → v.created ≤ u.created
    | .failed => True
    | .closed | .opening => last = true → s.Fresh revision v
  | .answer asked => revision = none → asked = some service ∨
      ∃ o, latest s.stored = some o ∧ o.revision = none
  | .settle =>
    match s.aspect, s.flight with
    | .following _ created, .answered (some v) => created < v.created → (fit v.configuration).isSome = true
    | _, _ => True
  | _ => True

end

instance (revision : Option ρ) (s : State γ ρ ν) (v : Value γ ρ) : Decidable (s.Fresh revision v) :=
  match h : s.flight with
  | .idle => isTrue fun _ hu => nomatch h.symm.trans hu
  | .sent => isTrue fun _ hu => nomatch h.symm.trans hu
  | .answered none => isTrue fun _ hu => nomatch Flight.answered.inj (h.symm.trans hu)
  | .answered (some u) =>
    decidable_of_iff (refused revision u = false → v.created ≤ u.created)
      ⟨fun hle _ hu => Option.some.inj (Flight.answered.inj (h.symm.trans hu)) ▸ hle, fun hfresh => hfresh u h⟩

instance (revision : Option ρ) (fit : γ → Option ν) (service : ρ) (s : State γ ρ ν) :
    ∀ act : Act γ ρ, Decidable (Heard revision fit service s act)
  | .deliver v last =>
    match h : s.aspect with
    | .following _ created =>
      decidable_of_iff (created < v.created → if foreign revision v = true then last = true → s.Fresh revision v
        else (revision = none → v.revision = none ∨ v.revision = some service) ∧
          (last = true → (fit v.configuration).isSome = true)) (by simp only [Heard, h])
    | .served u => decidable_of_iff (last = true → v.created ≤ u.created) (by simp only [Heard, h])
    | .failed => isTrue (by simp only [Heard, h])
    | .closed | .opening => decidable_of_iff (last = true → s.Fresh revision v) (by simp only [Heard, h])
  | .answer asked =>
    decidable_of_iff (revision = none → asked = some service ∨
      ∃ o ∈ latest s.stored, o.revision = none) (by simp only [Heard, Option.mem_def])
  | .settle =>
    match h : s.aspect, h' : s.flight with
    | .following _ created, .answered (some v) =>
      decidable_of_iff (created < v.created → (fit v.configuration).isSome = true)
        (by simp only [Heard, h, h'])
    | .following _ _, .answered none | .following _ _, .idle | .following _ _, .sent
    | .closed, _ | .opening, _ | .served _, _ | .failed, _ => isTrue (by simp only [Heard, h, h'])
  | .create _ _ | .reset _ _ | .connect | .ask | .flush | .lose | .subscribe => instDecidableTrue

variable {deployed : ρ → γ} {revision : Option ρ} {fit : γ → Option ν} {service : ρ}

def Aspect.waits : Aspect γ ρ ν → Bool
  | .closed | .opening => true
  | _ => false

variable (deployed revision fit service) in
structure State.Inv (s : State γ ρ ν) : Prop where
  moments : (s.stored.map (·.created)).Nodup
  created : ∀ o ∈ s.stored, 0 < o.created
  resets : ∀ o ∈ s.stored, ∀ r, o.revision = some r → o.configuration = deployed r
  undelivered : ∀ o ∈ s.undelivered, o ∈ s.stored
  idle : s.pending = none → s.flight = .idle
  answered : ∀ u, s.flight = .answered (some u) → refused revision u = false →
    Means deployed revision service s.stored u.configuration u.created
  waited : s.aspect.waits = true → ∀ o ∈ s.stored, s.Fresh revision o ∨ o ∈ s.undelivered
  served : ∀ u, s.aspect = .served u → Means deployed revision service s.stored u.configuration u.created ∧
    ∀ o ∈ s.stored, o.created ≤ u.created ∨ o ∈ s.undelivered
  held : ∀ value created, s.aspect = .following value created → ∃ configuration,
    fit configuration = some value ∧ Means deployed revision service s.stored configuration created
  heard : ∀ value created, s.aspect = .following value created → ∀ o ∈ s.stored, o.created ≤ created ∨
    o ∈ s.undelivered ∨ (.listening ∈ s.pending.getD [] ∧ s.Fresh revision o)

theorem Means.mono {stored more : List (Value γ ρ)} {configuration : γ} {created : ℕ}
    (h : Means deployed revision service stored configuration created) (hmore : ∀ o ∈ stored, o ∈ more) :
    Means deployed revision service more configuration created :=
  h.imp_right fun ⟨o, ho, hcreated, hmeans⟩ => ⟨o, hmore o ho, hcreated, hmeans⟩

theorem means_resolve {stored : List (Value γ ρ)} {asked : Option ρ} {v : Value γ ρ}
    (hheard : revision = none → asked = some service ∨ ∃ o, latest stored = some o ∧ o.revision = none)
    (h : resolve deployed asked stored = some v) (hrefused : refused revision v = false) :
    Means deployed revision service stored v.configuration v.created := by
  have hdefaults : ∀ {r : ρ}, asked = some r → v.revision = some r →
      (∀ o, latest stored = some o → o.revision ≠ none) → r = own revision service := by
    intro r hasked hv hnone
    cases hrevision : revision with
    | none =>
      rcases hheard hrevision with hsame | ⟨o, ho, hcreated⟩
      · exact Option.some.inj (hasked.symm.trans hsame)
      · exact absurd hcreated (hnone o ho)
    | some R =>
      simp only [refused, hrevision, hv, Option.isSome_some, Bool.or_true, Bool.and_true, Bool.true_and,
        decide_eq_false_iff_not, ne_eq, not_not, Option.some.injEq] at hrefused
      exact hrefused
  cases hlatest : latest stored with
  | none =>
    simp only [resolve, hlatest] at h
    obtain ⟨r, hr, rfl⟩ := Option.map_eq_some_iff.mp h
    have hown := hdefaults hr rfl fun o ho => by cases hlatest.symm.trans ho
    exact .inl ⟨rfl, congrArg deployed hown⟩
  | some o =>
    have ho := latest_mem hlatest
    obtain ⟨configuration, created, r'⟩ := o
    cases r' with
    | none =>
      simp only [resolve, hlatest, Option.some.injEq] at h
      subst h
      exact .inr ⟨_, ho, rfl, rfl⟩
    | some r' =>
      simp only [resolve, hlatest] at h
      obtain ⟨r, hr, rfl⟩ := Option.map_eq_some_iff.mp h
      have hreset : ∀ o, latest stored = some o → o.revision ≠ none := by
        intro o hsome
        rw [← Option.some.inj (hlatest.symm.trans hsome)]
        exact fun hnone => by cases hnone
      exact .inr ⟨_, ho, rfl, congrArg deployed (hdefaults hr rfl hreset)⟩

theorem resolve_of_means {s : State γ ρ ν} (hs : s.Inv deployed revision fit service) {configuration : γ}
    {created : ℕ} (hmeans : Means deployed revision service s.stored configuration created)
    (hlatest : ∀ o ∈ s.stored, o.created ≤ created) :
    ∃ r, resolve deployed (some (own revision service)) s.stored = some ⟨configuration, created, r⟩ := by
  rcases hmeans with ⟨rfl, rfl⟩ | ⟨o, ho, rfl, rfl⟩
  · have hnil : s.stored = [] := by
      refine List.eq_nil_iff_forall_not_mem.mpr fun o ho => ?_
      exact absurd (hlatest o ho) (Nat.not_le_of_lt (hs.created o ho))
    exact ⟨some (own revision service), by simp only [resolve, latest_eq_none.mpr hnil, Option.map_some,
      Option.map_none, Option.getD_none]⟩
  · have hmost := latest_eq hs.moments ho hlatest
    obtain ⟨configuration, created, r'⟩ := o
    cases r' with
    | none => exact ⟨none, by simp only [resolve, hmost, Value.means]⟩
    | some r' =>
      exact ⟨some (own revision service), by simp only [resolve, hmost, Value.means, Option.map_some,
        Option.getD_some]⟩

/-! ## The listener -/

section
variable {s : State γ ρ ν} {v : Value γ ρ} {value : ν} {created : ℕ}

theorem listener_unheard (h : ¬∃ value created, s.aspect = .following value created) :
    s.listener revision fit v = s := by
  rw [State.listener]
  split
  · exact absurd ⟨_, _, ‹_›⟩ h
  · rfl

theorem listener_old (haspect : s.aspect = .following value created) (hle : v.created ≤ created) :
    s.listener revision fit v = s := by
  simp only [State.listener, haspect, hle, if_true]

theorem listener_foreign (haspect : s.aspect = .following value created) (hle : ¬v.created ≤ created)
    (hforeign : foreign revision v = true) : s.listener revision fit v = s.fetch .listening := by
  simp only [State.listener, haspect, hle, hforeign, if_true, if_false]

theorem listener_fit (haspect : s.aspect = .following value created) (hle : ¬v.created ≤ created)
    (hforeign : ¬foreign revision v = true) {value' : ν} (hfit : fit v.configuration = some value') :
    s.listener revision fit v = { s with aspect := .following value' v.created } := by
  simp only [State.listener, haspect, hle, hforeign, hfit, if_false, Bool.false_eq_true]

theorem listener_unfit (haspect : s.aspect = .following value created)
    (hforeign : ¬foreign revision v = true) (hfit : fit v.configuration = none) :
    s.listener revision fit v = s := by
  simp only [State.listener, haspect, hforeign, hfit, if_false, Bool.false_eq_true, ite_self]

theorem not_foreign (h : refused revision v = false) : ¬foreign revision v = true := by
  intro hforeign
  simp only [foreign, Bool.and_eq_true] at hforeign
  simp only [refused, hforeign, Bool.or_true, Bool.and_true] at h
  exact nomatch h

end

/-! ## Steps -/

namespace State.Inv
variable {s : State γ ρ ν}

theorem store (h : s.Inv deployed revision fit service) {v : Value γ ρ} (hpos : 0 < v.created)
    (hfresh : v.created ∉ s.stored.map (·.created))
    (hreset : ∀ r, v.revision = some r → v.configuration = deployed r) :
    (s.store v).Inv deployed revision fit service where
  moments := List.nodup_cons.mpr ⟨hfresh, h.moments⟩
  created := List.forall_mem_cons.mpr ⟨hpos, h.created⟩
  resets := List.forall_mem_cons.mpr ⟨hreset, h.resets⟩
  undelivered := by
    intro o ho
    rcases List.mem_cons.mp ho with rfl | ho
    · exact List.mem_cons_self ..
    · exact List.mem_cons_of_mem _ (h.undelivered o ho)
  idle := h.idle
  answered := fun u hu hrefused => (h.answered u hu hrefused).mono fun _ => List.mem_cons_of_mem _
  waited := by
    intro hwaits o ho
    rcases List.mem_cons.mp ho with rfl | ho
    · exact .inr (List.mem_cons_self ..)
    · exact (h.waited hwaits o ho).imp_right (List.mem_cons_of_mem _)
  served := by
    intro u hu
    obtain ⟨hmeans, hall⟩ := h.served u hu
    refine ⟨hmeans.mono fun _ => List.mem_cons_of_mem _, fun o ho => ?_⟩
    rcases List.mem_cons.mp ho with rfl | ho
    · exact .inr (List.mem_cons_self ..)
    · exact (hall o ho).imp_right (List.mem_cons_of_mem _)
  held := by
    intro value created haspect
    obtain ⟨configuration, hfit, hmeans⟩ := h.held value created haspect
    exact ⟨configuration, hfit, hmeans.mono fun _ => List.mem_cons_of_mem _⟩
  heard := by
    intro value created haspect o ho
    rcases List.mem_cons.mp ho with rfl | ho
    · exact .inr (.inl (List.mem_cons_self ..))
    · exact (h.heard value created haspect o ho).imp_right (Or.imp_left (List.mem_cons_of_mem _))

theorem fetch (h : s.Inv deployed revision fit service) (w : Waiter) :
    (s.fetch w).Inv deployed revision fit service where
  moments := h.moments
  created := h.created
  resets := h.resets
  undelivered := h.undelivered
  idle := fun hnone => nomatch hnone
  answered := h.answered
  waited := h.waited
  served := h.served
  held := h.held
  heard := fun value created haspect o ho => (h.heard value created haspect o ho).imp_right
    (Or.imp_right fun ⟨hwaits, hfresh⟩ => ⟨List.mem_append_left _ hwaits, hfresh⟩)

theorem flight (h : s.Inv deployed revision fit service) {flight : Flight γ ρ} {waiters : List Waiter}
    (hpending : s.pending = some waiters)
    (hflight : ∀ u, flight = .answered (some u) → refused revision u = false →
      Means deployed revision service s.stored u.configuration u.created ∧
        ∀ o ∈ s.stored, o.created ≤ u.created) :
    State.Inv deployed revision fit service { s with flight := flight } where
  moments := h.moments
  created := h.created
  resets := h.resets
  undelivered := h.undelivered
  idle := fun hnone => nomatch hpending.symm.trans hnone
  answered := fun u hu hrefused => (hflight u hu hrefused).1
  waited := fun _ o ho => .inl fun u hu hrefused => (hflight u hu hrefused).2 o ho
  served := h.served
  held := h.held
  heard := fun value created haspect o ho => (h.heard value created haspect o ho).imp_right
    (Or.imp_right fun ⟨hwaits, _⟩ => ⟨hwaits, fun u hu hrefused => (hflight u hu hrefused).2 o ho⟩)

theorem follow (h : s.Inv deployed revision fit service) {configuration : γ} {value : ν} {created : ℕ}
    (hfit : fit configuration = some value)
    (hmeans : Means deployed revision service s.stored configuration created)
    (hheard : ∀ o ∈ s.stored, o.created ≤ created ∨ o ∈ s.undelivered ∨
      (.listening ∈ s.pending.getD [] ∧ s.Fresh revision o)) :
    State.Inv deployed revision fit service { s with aspect := .following value created } where
  moments := h.moments
  created := h.created
  resets := h.resets
  undelivered := h.undelivered
  idle := h.idle
  answered := h.answered
  waited := fun hwaits => nomatch hwaits
  served := fun _ hu => nomatch hu
  held := by
    intro value' created' haspect
    obtain ⟨rfl, rfl⟩ := Aspect.following.inj haspect
    exact ⟨configuration, hfit, hmeans⟩
  heard := by
    intro value' created' haspect
    obtain ⟨rfl, rfl⟩ := Aspect.following.inj haspect
    exact hheard

theorem means_of_heard (h : s.Inv deployed revision fit service) {v : Value γ ρ} (hv : v ∈ s.stored)
    (hforeign : ¬foreign revision v = true)
    (hserved : revision = none → v.revision = none ∨ v.revision = some service) :
    v.configuration = v.means deployed revision service := by
  cases hrevision : v.revision with
  | none => simp only [Value.means, hrevision]
  | some r =>
    have hown : r = own revision service := by
      cases hown : revision with
      | none => exact Option.some.inj (hrevision.symm.trans ((hserved hown).resolve_left fun hnone =>
          nomatch hrevision.symm.trans hnone))
      | some R =>
        simp only [foreign, hown, hrevision, Option.isSome_some, Bool.true_and, ne_eq, Option.some.injEq,
          decide_eq_true_eq, not_not] at hforeign
        exact hforeign
    rw [h.resets v hv r hrevision, Value.means, hrevision, hown]

theorem undeliver (h : s.Inv deployed revision fit service) {v : Value γ ρ} {last : Bool}
    (hwaited : last = true → s.aspect.waits = true → s.Fresh revision v)
    (hserved : last = true → ∀ u, s.aspect = .served u → v.created ≤ u.created)
    (hheard : last = true → ∀ value created, s.aspect = .following value created →
      v.created ≤ created ∨ (.listening ∈ s.pending.getD [] ∧ s.Fresh revision v)) :
    State.Inv deployed revision fit service
      { s with undelivered := if last = true then s.undelivered.erase v else s.undelivered } := by
  cases last with
  | false => exact h
  | true =>
    have herase : ∀ o ∈ s.undelivered, o = v ∨ o ∈ s.undelivered.erase v := fun o ho =>
      (eq_or_ne o v).imp_right fun hne => (List.mem_erase_of_ne hne).mpr ho
    refine ⟨h.moments, h.created, h.resets, fun o ho => h.undelivered o (List.mem_of_mem_erase ho), h.idle,
      h.answered, fun hwaits o ho => ?_, fun u hu => ⟨(h.served u hu).1, fun o ho => ?_⟩, h.held,
      fun value created haspect o ho => ?_⟩
    · rcases h.waited hwaits o ho with hfresh | hmem
      · exact .inl hfresh
      · rcases herase o hmem with rfl | hmem
        · exact .inl (hwaited rfl hwaits)
        · exact .inr hmem
    · rcases (h.served u hu).2 o ho with hle | hmem
      · exact .inl hle
      · rcases herase o hmem with rfl | hmem
        · exact .inl (hserved rfl u hu)
        · exact .inr hmem
    · rcases h.heard value created haspect o ho with hle | hmem | hasked
      · exact .inl hle
      · rcases herase o hmem with rfl | hmem
        · exact (hheard rfl value created haspect).imp_right .inr
        · exact .inr (.inl hmem)
      · exact .inr (.inr hasked)

theorem deliver (h : s.Inv deployed revision fit service) {v : Value γ ρ} {last : Bool}
    (hheard : Heard revision fit service s (.deliver v last)) (hv : v ∈ s.undelivered) :
    (State.listener revision fit
      { s with undelivered := if last = true then s.undelivered.erase v else s.undelivered } v).Inv
      deployed revision fit service := by
  have hstored := h.undelivered v hv
  let s₁ : State γ ρ ν :=
    { s with undelivered := if last = true then s.undelivered.erase v else s.undelivered }
  change (s₁.listener revision fit v).Inv deployed revision fit service
  by_cases hfollowing : ∃ value created, s.aspect = .following value created
  · obtain ⟨value, created, haspect⟩ := hfollowing
    simp only [Heard, haspect] at hheard
    have hwaits : s.aspect.waits ≠ true := fun hwaits => by
      rw [haspect] at hwaits
      exact nomatch hwaits
    have haspect₁ : s₁.aspect = .following value created := haspect
    by_cases hle : v.created ≤ created
    · rw [listener_old haspect₁ hle]
      refine h.undeliver (fun _ hw => absurd hw hwaits) (fun _ u hu => nomatch haspect.symm.trans hu) ?_
      rintro - value' created' haspect'
      obtain ⟨rfl, rfl⟩ := Aspect.following.inj (haspect.symm.trans haspect')
      exact .inl hle
    · have hheard := hheard (Nat.lt_of_not_le hle)
      by_cases hforeign : foreign revision v = true
      · rw [if_pos hforeign] at hheard
        rw [listener_foreign haspect₁ hle hforeign]
        refine (h.fetch .listening).undeliver (fun _ hw => absurd hw hwaits)
          (fun _ u hu => nomatch haspect.symm.trans hu) fun hlast _ _ _ => ?_
        exact .inr ⟨List.mem_append_right _ (List.mem_singleton_self _), hheard hlast⟩
      · rw [if_neg hforeign] at hheard
        cases hfit : fit v.configuration with
        | none =>
          rw [listener_unfit haspect₁ hforeign hfit]
          refine h.undeliver (fun _ hw => absurd hw hwaits) (fun _ u hu => nomatch haspect.symm.trans hu)
            fun hlast _ _ _ => ?_
          exact nomatch hfit ▸ hheard.2 hlast
        | some value' =>
          rw [listener_fit haspect₁ hle hforeign hfit]
          have hmeans : Means deployed revision service s.stored v.configuration v.created :=
            .inr ⟨v, hstored, rfl, h.means_of_heard hstored hforeign hheard.1⟩
          have hfollow := h.follow hfit hmeans fun o ho =>
            (h.heard value created haspect o ho).imp_left fun hold => hold.trans (Nat.le_of_not_le hle)
          refine hfollow.undeliver (fun _ hw => nomatch hw) (fun _ u hu => nomatch hu) ?_
          rintro - value'' created'' haspect''
          obtain ⟨rfl, rfl⟩ := Aspect.following.inj haspect''
          exact .inl le_rfl
  · have hfollowing₁ : ¬∃ value created, s₁.aspect = .following value created := hfollowing
    rw [listener_unheard hfollowing₁]
    refine h.undeliver (fun hlast hwaits => ?_) (fun hlast u hu => ?_) fun _ value created hf =>
      absurd ⟨value, created, hf⟩ hfollowing
    · cases haspect : s.aspect with
      | closed =>
        simp only [Heard, haspect] at hheard
        exact hheard hlast
      | opening =>
        simp only [Heard, haspect] at hheard
        exact hheard hlast
      | served => exact nomatch haspect ▸ hwaits
      | failed => exact nomatch haspect ▸ hwaits
      | following => exact nomatch haspect ▸ hwaits
    · simp only [Heard, hu] at hheard
      exact hheard hlast

/-- The entry is taken out before those who wait are told, and none of what it was to answer is left but
what `v` answers. -/
theorem taken (h : s.Inv deployed revision fit service)
    (hlistens : ∀ value created, s.aspect = .following value created →
      ∀ o ∈ s.stored, o.created ≤ created ∨ o ∈ s.undelivered) :
    State.Inv deployed revision fit service { s with pending := none, flight := .idle } where
  moments := h.moments
  created := h.created
  resets := h.resets
  undelivered := h.undelivered
  idle := fun _ => rfl
  answered := fun _ hu => nomatch hu
  waited := fun _ _ _ => .inl fun _ hu => nomatch hu
  served := h.served
  held := h.held
  heard := fun value created haspect o ho => (hlistens value created haspect o ho).imp_right .inl

end State.Inv

section
variable {s : State γ ρ ν} {v : Value γ ρ}

theorem foldl_told_following {value : ν} {created : ℕ} (haspect : s.aspect = .following value created)
    (hforeign : ¬foreign revision v = true)
    (hfit : created < v.created → (fit v.configuration).isSome = true) (waiters : List Waiter) :
    waiters.foldl (State.told revision fit v) s =
      if .listening ∈ waiters then s.listener revision fit v else s := by
  have honce : ∀ s' : State γ ρ ν, (s' = s ∨ s' = s.listener revision fit v) →
      (s'.listener revision fit v = s.listener revision fit v ∧
        ∃ value' created', s'.aspect = .following value' created') := by
    rintro s' (rfl | rfl)
    · exact ⟨rfl, value, created, haspect⟩
    · by_cases hle : v.created ≤ created
      · rw [listener_old haspect hle, listener_old haspect hle]
        exact ⟨rfl, value, created, haspect⟩
      · obtain ⟨value', hvalue'⟩ := Option.isSome_iff_exists.mp (hfit (Nat.lt_of_not_le hle))
        rw [listener_fit haspect hle hforeign hvalue']
        exact ⟨listener_old rfl le_rfl, value', v.created, rfl⟩
  have hall : ∀ (waiters : List Waiter) (s' : State γ ρ ν), (s' = s ∨ s' = s.listener revision fit v) →
      waiters.foldl (State.told revision fit v) s' =
        if .listening ∈ waiters then s.listener revision fit v else s' := by
    intro waiters
    induction waiters with
    | nil => exact fun s' _ => (if_neg List.not_mem_nil).symm
    | cons waiter waiters ih =>
      intro s' hs'
      obtain ⟨hlistener, value', created', haspect'⟩ := honce s' hs'
      rw [List.foldl_cons]
      cases waiter with
      | opening =>
        have htold : State.told revision fit v s' .opening = s' := by simp only [State.told, haspect']
        rw [htold, ih s' hs']
        simp only [List.mem_cons, reduceCtorEq, false_or]
      | listening =>
        have htold : State.told revision fit v s' .listening = s.listener revision fit v := hlistener
        rw [htold, ih _ (.inr rfl), ite_self]
        exact (if_pos (List.mem_cons_self ..)).symm
      | another =>
        have htold : State.told revision fit v s' .another = s' := rfl
        rw [htold, ih s' hs']
        simp only [List.mem_cons, reduceCtorEq, false_or]
  exact hall waiters s (.inl rfl)

theorem foldl_told_other (hfollowing : ¬∃ value created, s.aspect = .following value created)
    (waiters : List Waiter) :
    waiters.foldl (State.told revision fit v) s = s ∨
      (s.aspect = .opening ∧
        waiters.foldl (State.told revision fit v) s = { s with aspect := .served v }) := by
  have hserved : ∀ waiters : List Waiter, waiters.foldl (State.told revision fit v)
      { s with aspect := .served v } = { s with aspect := .served v } := by
    intro waiters
    induction waiters with
    | nil => rfl
    | cons waiter waiters ih =>
      rw [List.foldl_cons]
      cases waiter <;> exact ih
  induction waiters with
  | nil => exact .inl rfl
  | cons waiter waiters ih =>
    rw [List.foldl_cons]
    cases waiter with
    | opening =>
      simp only [State.told]
      split
      · exact .inr ⟨‹_›, hserved waiters⟩
      · exact ih
    | listening =>
      have htold : State.told revision fit v s .listening = s := listener_unheard hfollowing
      rw [htold]
      exact ih
    | another => exact ih

end

theorem State.Inv.settle {s : State γ ρ ν} (h : s.Inv deployed revision fit service) {v : Value γ ρ}
    {waiters : List Waiter} (hheard : Heard revision fit service s .settle)
    (hflight : s.flight = .answered (some v)) (hpending : s.pending = some waiters)
    (hrefused : refused revision v = false) :
    State.Inv deployed revision fit service
      (waiters.foldl (State.told revision fit v) { s with pending := none, flight := .idle }) := by
  have hmeans := h.answered v hflight hrefused
  let s₀ : State γ ρ ν := { s with pending := none, flight := .idle }
  change State.Inv deployed revision fit service (waiters.foldl (State.told revision fit v) s₀)
  by_cases hfollowing : ∃ value created, s.aspect = .following value created
  · obtain ⟨value, created, haspect⟩ := hfollowing
    have haspect₀ : s₀.aspect = .following value created := haspect
    have hforeign : ¬foreign revision v = true := not_foreign hrefused
    simp only [Heard, haspect, hflight] at hheard
    have hsame : ∀ {value' created'}, s.aspect = .following value' created' → created' = created :=
      fun haspect' => (Aspect.following.inj (haspect'.symm.trans haspect)).2
    rw [foldl_told_following haspect₀ hforeign hheard]
    by_cases hlistens : Waiter.listening ∈ waiters
    · rw [if_pos hlistens]
      have hcovered : ∀ o ∈ s.stored, o.created ≤ created ∨ o.created ≤ v.created ∨ o ∈ s.undelivered := by
        intro o ho
        rcases h.heard value created haspect o ho with hle | hmem | ⟨-, hfresh⟩
        · exact .inl hle
        · exact .inr (.inr hmem)
        · exact .inr (.inl (hfresh v hflight hrefused))
      by_cases hle : v.created ≤ created
      · rw [listener_old haspect₀ hle]
        refine h.taken fun value' created' haspect' o ho => ?_
        rw [hsame haspect']
        rcases hcovered o ho with hold | hnew | hmem
        · exact .inl hold
        · exact .inl (hnew.trans hle)
        · exact .inr hmem
      · obtain ⟨value', hvalue'⟩ := Option.isSome_iff_exists.mp (hheard (Nat.lt_of_not_le hle))
        rw [listener_fit haspect₀ hle hforeign hvalue']
        have hfollow := h.follow hvalue' hmeans fun o ho => by
          rcases hcovered o ho with hold | hnew | hmem
          · exact .inl (hold.trans (Nat.le_of_not_le hle))
          · exact .inl hnew
          · exact .inr (.inl hmem)
        refine hfollow.taken fun value'' created'' haspect'' o ho => ?_
        obtain ⟨rfl, rfl⟩ := Aspect.following.inj haspect''
        rcases hcovered o ho with hold | hnew | hmem
        · exact .inl (hold.trans (Nat.le_of_not_le hle))
        · exact .inl hnew
        · exact .inr hmem
    · rw [if_neg hlistens]
      refine h.taken fun value' created' haspect' o ho => ?_
      rcases h.heard value' created' haspect' o ho with hle | hmem | ⟨hwaits, -⟩
      · exact .inl hle
      · exact .inr hmem
      · rw [hpending] at hwaits
        exact absurd hwaits hlistens
  · have htaken : s₀.Inv deployed revision fit service :=
      h.taken fun value created haspect => absurd ⟨value, created, haspect⟩ hfollowing
    rcases foldl_told_other hfollowing waiters (s := s₀) with hsame | ⟨hopening, hserved⟩
    · rw [hsame]
      exact htaken
    · rw [hserved]
      have hwaits : s.aspect.waits = true := by
        rw [show s.aspect = .opening from hopening]
        rfl
      refine ⟨h.moments, h.created, h.resets, h.undelivered, htaken.idle, htaken.answered,
        fun hw => (nomatch hw), fun u hu => ?_, fun _ _ hf => (nomatch hf), fun _ _ hf => (nomatch hf)⟩
      obtain rfl := Aspect.served.inj hu
      exact ⟨hmeans, fun o ho => (h.waited hwaits o ho).imp_left fun hfresh => hfresh v hflight hrefused⟩

theorem State.Inv.step {s s' : State γ ρ ν} (h : s.Inv deployed revision fit service) {act : Act γ ρ}
    (hheard : Heard revision fit service s act) (hstep : step deployed revision fit s act = some s') :
    s'.Inv deployed revision fit service := by
  cases act with
  | create configuration created =>
    simp only [Configuration.step] at hstep
    split at hstep
    · rename_i hnew
      obtain rfl := Option.some.inj hstep
      exact h.store hnew.1 hnew.2 fun r hr => nomatch hr
    · cases hstep
  | reset r created =>
    simp only [Configuration.step] at hstep
    split at hstep
    · rename_i hnew
      obtain rfl := Option.some.inj hstep
      refine h.store hnew.1 hnew.2 fun r' hr' => ?_
      rw [← Option.some.inj hr']
    · cases hstep
  | deliver v last =>
    simp only [Configuration.step] at hstep
    split at hstep
    · rename_i hv
      obtain rfl := Option.some.inj hstep
      exact h.deliver hheard hv
    · cases hstep
  | connect =>
    simp only [Configuration.step] at hstep
    split at hstep
    · rename_i hclosed
      obtain rfl := Option.some.inj hstep
      have hfetch := h.fetch .opening
      have hwaits : s.aspect.waits = true := by
        rw [hclosed]
        rfl
      exact ⟨h.moments, h.created, h.resets, h.undelivered, hfetch.idle, h.answered,
        fun _ => h.waited hwaits, fun _ hu => (nomatch hu), fun _ _ hf => (nomatch hf),
        fun _ _ hf => (nomatch hf)⟩
    · cases hstep
  | ask =>
    obtain rfl := Option.some.inj hstep
    exact h.fetch .another
  | flush =>
    simp only [Configuration.step] at hstep
    split at hstep
    · rename_i hpending _
      obtain rfl := Option.some.inj hstep
      exact h.flight hpending fun _ hu => nomatch hu
    · cases hstep
  | answer asked =>
    simp only [Configuration.step] at hstep
    split at hstep
    · rename_i hsent
      obtain rfl := Option.some.inj hstep
      cases hpending : s.pending with
      | none => exact nomatch hsent.symm.trans (h.idle hpending)
      | some waiters =>
        refine hpending ▸ h.flight hpending fun u hu hrefused => ?_
        have hresolve := Flight.answered.inj hu
        exact ⟨means_resolve hheard hresolve hrefused, fun o ho => le_resolve hresolve ho⟩
    · cases hstep
  | lose =>
    obtain rfl := Option.some.inj hstep
    cases hpending : s.pending with
    | none => exact hpending ▸ h.idle hpending ▸ h
    | some waiters => exact hpending ▸ h.flight hpending fun _ hu => nomatch hu
  | settle =>
    simp only [Configuration.step] at hstep
    split at hstep
    · rename_i v waiters hflight hpending
      split at hstep
      · obtain rfl := Option.some.inj hstep
        exact h.flight hpending fun _ hu => nomatch hu
      · rename_i hrefused
        obtain rfl := Option.some.inj hstep
        exact h.settle hheard hflight hpending (Bool.not_eq_true _ ▸ hrefused)
    · rename_i hpending
      obtain rfl := Option.some.inj hstep
      exact h.flight hpending fun _ hu => nomatch hu
    · cases hstep
  | subscribe =>
    simp only [Configuration.step] at hstep
    split at hstep
    · rename_i v hserved
      obtain ⟨hmeans, hall⟩ := h.served v hserved
      split at hstep
      · rename_i value hfit
        obtain rfl := Option.some.inj hstep
        exact h.follow hfit hmeans fun o ho => (hall o ho).imp_right .inl
      · obtain rfl := Option.some.inj hstep
        exact ⟨h.moments, h.created, h.resets, h.undelivered, h.idle, h.answered, fun hw => (nomatch hw),
          fun _ hu => (nomatch hu), fun _ _ hf => (nomatch hf), fun _ _ hf => (nomatch hf)⟩
    · cases hstep

/-! ## Never older -/

/-- What is held of `value`, created then, is that or newer. -/
def Aspect.Since (value : ν) (created : ℕ) (aspect : Aspect γ ρ ν) : Prop :=
  ∃ value' created', aspect = .following value' created' ∧
    (created < created' ∨ (value = value' ∧ created = created'))

theorem Aspect.Since.listener {value : ν} {created : ℕ} {s : State γ ρ ν}
    (h : s.aspect.Since value created) (v : Value γ ρ) :
    (s.listener revision fit v).aspect.Since value created := by
  obtain ⟨value', created', haspect, hsince⟩ := h
  simp only [State.listener, haspect]
  split
  · exact ⟨value', created', haspect, hsince⟩
  · rename_i hle
    split
    · exact ⟨value', created', haspect, hsince⟩
    · split
      · refine ⟨_, v.created, rfl, .inl (lt_of_le_of_lt ?_ (Nat.lt_of_not_le hle))⟩
        exact hsince.elim le_of_lt fun hsame => le_of_eq hsame.2
      · exact ⟨value', created', haspect, hsince⟩

theorem Aspect.Since.told {value : ν} {created : ℕ} {s : State γ ρ ν}
    (h : s.aspect.Since value created) (v : Value γ ρ) (waiter : Waiter) :
    (s.told revision fit v waiter).aspect.Since value created := by
  cases waiter with
  | opening =>
    obtain ⟨value', created', haspect, hsince⟩ := h
    simp only [State.told, haspect]
    exact ⟨value', created', rfl, hsince⟩
  | listening => exact h.listener v
  | another => exact h

theorem Aspect.Since.foldl_told {value : ν} {created : ℕ} {s : State γ ρ ν}
    (h : s.aspect.Since value created) (v : Value γ ρ) (waiters : List Waiter) :
    (waiters.foldl (State.told revision fit v) s).aspect.Since value created := by
  induction waiters generalizing s with
  | nil => exact h
  | cons waiter waiters ih => exact ih (Aspect.Since.told h v waiter)

theorem Aspect.Since.step {value : ν} {created : ℕ} {s s' : State γ ρ ν}
    (h : s.aspect.Since value created) {act : Act γ ρ}
    (hstep : step deployed revision fit s act = some s') : s'.aspect.Since value created := by
  have hfollowing : ∃ value created, s.aspect = .following value created :=
    ⟨_, _, h.choose_spec.choose_spec.1⟩
  obtain ⟨value', created', haspect⟩ := hfollowing
  cases act with
  | create =>
    simp only [Configuration.step] at hstep
    split at hstep
    · exact Option.some.inj hstep ▸ h
    · cases hstep
  | reset =>
    simp only [Configuration.step] at hstep
    split at hstep
    · exact Option.some.inj hstep ▸ h
    · cases hstep
  | deliver v last =>
    simp only [Configuration.step] at hstep
    split at hstep
    · obtain rfl := Option.some.inj hstep
      refine Aspect.Since.listener ?_ v
      exact h
    · cases hstep
  | connect =>
    simp only [Configuration.step, haspect] at hstep
    cases hstep
  | ask => exact Option.some.inj hstep ▸ h
  | flush =>
    simp only [Configuration.step] at hstep
    split at hstep
    · exact Option.some.inj hstep ▸ h
    · cases hstep
  | answer =>
    simp only [Configuration.step] at hstep
    split at hstep
    · exact Option.some.inj hstep ▸ h
    · cases hstep
  | lose => exact Option.some.inj hstep ▸ h
  | settle =>
    simp only [Configuration.step] at hstep
    split at hstep
    · rename_i v waiters _ _
      split at hstep
      · exact Option.some.inj hstep ▸ h
      · obtain rfl := Option.some.inj hstep
        exact Aspect.Since.foldl_told (s := { s with pending := none, flight := .idle }) h v waiters
    · exact Option.some.inj hstep ▸ h
    · cases hstep
  | subscribe =>
    simp only [Configuration.step, haspect] at hstep
    cases hstep

/-- Where nothing newer than what the aspect takes is lost to it, it ends with what the values service
answers; it never takes what is older. -/
theorem ends_with_latest {acts : List (Act γ ρ)} {s : State γ ρ ν}
    (hrun : run (step deployed revision fit) State.init acts = some s)
    (hheard : Along (step deployed revision fit) (Heard revision fit service) State.init acts) :
    (∀ value created, s.aspect = .following value created → s.undelivered = [] → s.pending = none →
      ∃ v, resolve deployed (some (own revision service)) s.stored = some v ∧
        fit v.configuration = some value ∧ v.created = created) ∧
      ∀ before after u, acts = before ++ after →
        run (step deployed revision fit) State.init before = some u →
          ∀ value created, u.aspect = .following value created → s.aspect.Since value created := by
  have hinit : (State.init : State γ ρ ν).Inv deployed revision fit service :=
    ⟨List.nodup_nil, fun _ h => (nomatch h), fun _ h => (nomatch h), fun _ h => (nomatch h), fun _ => rfl,
      fun _ h => (nomatch h), fun _ _ h => (nomatch h), fun _ h => (nomatch h), fun _ _ h => (nomatch h),
      fun _ _ h => (nomatch h)⟩
  have hinv : s.Inv deployed revision fit service :=
    run_invariant (fun _ _ _ hI hok hstep => State.Inv.step hI hok hstep) hinit hheard hrun
  constructor
  · intro value created haspect hdelivered hpending
    obtain ⟨configuration, hfit, hmeans⟩ := hinv.held value created haspect
    have hlatest : ∀ o ∈ s.stored, o.created ≤ created := by
      intro o ho
      rcases hinv.heard value created haspect o ho with hle | hmem | ⟨hwaits, -⟩
      · exact hle
      · rw [hdelivered] at hmem
        exact nomatch hmem
      · rw [hpending] at hwaits
        exact nomatch hwaits
    obtain ⟨r, hresolve⟩ := resolve_of_means hinv hmeans hlatest
    exact ⟨_, hresolve, hfit, rfl⟩
  · rintro before after u rfl hbefore value created haspect
    rw [run_append, hbefore, Option.bind_some] at hrun
    exact run_invariant_all (fun _ _ _ hI hstep => Aspect.Since.step hI hstep)
      ⟨value, created, haspect, .inr ⟨rfl, rfl⟩⟩ hrun

def missed : List (Act ℕ ℕ) :=
  [.connect, .flush, .answer (some 1), .create 7 5, .deliver ⟨7, 5, none⟩ true, .settle, .subscribe]

/-- The aspect holds the defaults, and the service answers what was created. -/
theorem missed_created : ∃ s : State ℕ ℕ ℕ, run (step id (some 1) some) State.init missed = some s ∧
    s.aspect = .following 1 0 ∧ s.undelivered = [] ∧ s.pending = none ∧
      resolve id (some 1) s.stored = some ⟨7, 5, none⟩ :=
  ⟨_, rfl, rfl, rfl, rfl, rfl⟩

def crossing : List (Act ℕ ℕ) :=
  [.create 7 5, .connect, .deliver ⟨7, 5, none⟩ false, .flush, .answer (some 1), .create 8 9, .settle,
    .subscribe, .reset 2 12, .deliver ⟨2, 12, some 2⟩ true, .deliver ⟨8, 9, none⟩ true,
    .deliver ⟨7, 5, none⟩ true, .flush, .answer (some 2), .settle, .flush, .answer (some 1), .settle]

theorem ends_with_latest_crossing :
    ∃ s : State ℕ ℕ ℕ, run (step id (some 1) some) State.init crossing = some s ∧
      ∃ v, resolve id (some 1) s.stored = some v ∧ some v.configuration = some 1 ∧ v.created = 12 := by
  have hheard : Along (step id (some 1) (some : ℕ → Option ℕ)) (Heard (some 1) some 1) State.init
      crossing := by decide
  exact ⟨_, rfl, (ends_with_latest rfl hheard).1 _ _ rfl rfl rfl⟩

end Toa.Configuration
