import Mathlib.Logic.Function.Basic
import Toa.Lib.Run

/-! The opening of a reader, with each of its awaits: it is registered first, waits for the
subscription of its key, then writes its marker and reads what it missed. Whatever raises on the
way raises out of `open`. -/

namespace Toa.Realtime.Opening
open Toa.Run

variable {κ ρ : Type*}

inductive Subscription
  | pending
  | done
  | failed
deriving DecidableEq

structure Key (ρ : Type*) where
  streams : List ρ
  subscribed : Subscription

/-- The keys of the Hub with the readers registered under them, and the keys whose channels are
subscribed to. -/
@[ext] structure Registry (κ ρ : Type*) where
  keys : κ → Option (Key ρ)
  channels : κ → Bool

/-- How far an opening is, with the client's token where there is one. -/
inductive Stage (κ : Type*)
  | absent
  | entering (key : κ) (token : Option String)
  | marking (key : κ) (token : Option String)
  | reading (key : κ) (token : String)
  | opened (key : κ)
  | failed
  | left

/-- `closed` of a reader is whether the Hub was closed since it was registered. -/
structure Hub (κ ρ : Type*) where
  registry : Registry κ ρ
  stages : ρ → Stage κ
  closed : ρ → Bool

def Registry.empty : Registry κ ρ := ⟨fun _ => none, fun _ => false⟩

def Hub.init : Hub κ ρ := ⟨.empty, fun _ => .absent, fun _ => false⟩

variable [DecidableEq κ] [DecidableEq ρ]

namespace Registry

/-- `enter`, to where it waits for the subscription. -/
def enter (registry : Registry κ ρ) (key : κ) (r : ρ) : Registry κ ρ :=
  let entry : Key ρ :=
    match registry.keys key with
    | none => ⟨[r], .pending⟩
    | some entry => { entry with streams := entry.streams ++ [r] }
  { registry with keys := Function.update registry.keys key (some entry) }

def leave (registry : Registry κ ρ) (key : κ) (r : ρ) : Registry κ ρ :=
  match registry.keys key with
  | none => registry
  | some entry =>
    let streams := entry.streams.filter (· ≠ r)
    if 0 < streams.length then
      { registry with keys := Function.update registry.keys key (some { entry with streams }) }
    else
      { keys := Function.update registry.keys key none
        channels := Function.update registry.channels key false }

def settle (registry : Registry κ ρ) (key : κ) (entry : Key ρ) (ok : Bool) : Registry κ ρ :=
  { keys := Function.update registry.keys key
      (some { entry with subscribed := if ok then .done else .failed })
    channels := if ok then Function.update registry.channels key true else registry.channels }

end Registry

def Hub.at (hub : Hub κ ρ) (r : ρ) (stage : Stage κ) : Hub κ ρ :=
  { hub with stages := Function.update hub.stages r stage }

inductive Act (κ ρ : Type*)
  /-- The connections are there, or `connect` raises. -/
  | connect (r : ρ) (key : κ) (token : Option String) (ok : Bool)
  | subscribed (key : κ) (ok : Bool)
  /-- The reader goes on from where it waits for the subscription, or raises what that was rejected
  with. -/
  | entered (r : ρ) (ok : Bool)
  | marked (r : ρ) (ok : Bool)
  /-- The stream is read from the token and replayed, or the token is refused, or the read fails. -/
  | read (r : ρ) (ok : Bool)
  | leave (r : ρ)
  | close

def Hub.waited (hub : Hub κ ρ) (r : ρ) (key : κ) (ok : Bool) : Prop :=
  hub.closed r = true ∨ (hub.registry.keys key).map Key.subscribed =
    some (if ok then .done else .failed)

instance (hub : Hub κ ρ) (r : ρ) (key : κ) (ok : Bool) : Decidable (hub.waited r key ok) :=
  inferInstanceAs (Decidable (_ ∨ _))

def step (hub : Hub κ ρ) : Act κ ρ → Option (Hub κ ρ)
  | .connect r key token ok =>
    match hub.stages r with
    | .absent =>
      if ok then
        some ({ hub with
          registry := hub.registry.enter key r
          closed := Function.update hub.closed r false }.at r (.entering key token))
      else some (hub.at r .failed)
    | _ => none
  | .subscribed key ok =>
    match hub.registry.keys key with
    | some ⟨streams, .pending⟩ =>
      some { hub with registry := hub.registry.settle key ⟨streams, .pending⟩ ok }
    | _ => none
  | .entered r ok =>
    match hub.stages r with
    | .entering key token =>
      if hub.waited r key ok then some (hub.at r (if ok then .marking key token else .failed))
      else none
    | _ => none
  | .marked r ok =>
    match hub.stages r with
    | .marking key none => some (hub.at r (if ok then .opened key else .failed))
    | .marking key (some token) => some (hub.at r (if ok then .reading key token else .failed))
    | _ => none
  | .read r ok =>
    match hub.stages r with
    | .reading key _ => some (hub.at r (if ok then .opened key else .failed))
    | _ => none
  | .leave r =>
    match hub.stages r with
    | .opened key => some ({ hub with registry := hub.registry.leave key r }.at r .left)
    | _ => none
  | .close => some { hub with registry := .empty, closed := fun _ => true }

/-- The key that a reader is registered under while its opening is under way. -/
def Stage.key : Stage κ → Option κ
  | entering key _ | marking key _ | reading key _ | opened key => some key
  | absent | failed | left => none

/-- A step by which the opening of a reader of a key fails. -/
inductive Fails (hub : Hub κ ρ) (r : ρ) (key : κ) : Act κ ρ → Prop
  | connect (token : Option String) (h : hub.stages r = .absent) :
      Fails hub r key (.connect r key token false)
  | entered (token : Option String) (h : hub.stages r = .entering key token) :
      Fails hub r key (.entered r false)
  | marked (token : Option String) (h : hub.stages r = .marking key token) :
      Fails hub r key (.marked r false)
  | read (token : String) (h : hub.stages r = .reading key token) : Fails hub r key (.read r false)

/-- The registry is what it is without the reader: as it would be, had it left. -/
def Untouched (hub : Hub κ ρ) (r : ρ) (key : κ) : Prop :=
  hub.registry.leave key r = hub.registry

/-- Where the reader was not registered when its opening failed: it could not connect, or all the
readers there were are gone with the Hub that was closed. -/
def Unregistered (hub : Hub κ ρ) (r : ρ) : Act κ ρ → Prop
  | .connect _ _ _ _ => True
  | _ => hub.closed r = true

/-- A key is there for its readers, its channels for the key, and a reader is registered from when
it enters, under the key it opens and under no other. -/
structure Inv (hub : Hub κ ρ) : Prop where
  streams : ∀ key entry, hub.registry.keys key = some entry → entry.streams ≠ []
  channels : ∀ key, hub.registry.keys key = none → hub.registry.channels key = false
  absent : ∀ r, hub.stages r = .absent ∨ hub.closed r = true → ∀ key entry,
    hub.registry.keys key = some entry → r ∉ entry.streams
  registered : ∀ r key, (hub.stages r).key = some key → hub.closed r = false →
    ∃ entry, hub.registry.keys key = some entry ∧ r ∈ entry.streams

section At
omit [DecidableEq κ]

theorem stages_at_self (hub : Hub κ ρ) (r : ρ) (stage : Stage κ) :
    (hub.at r stage).stages r = stage := Function.update_self ..

theorem stages_at_of_ne (hub : Hub κ ρ) {r r' : ρ} (h : r' ≠ r) (stage : Stage κ) :
    (hub.at r stage).stages r' = hub.stages r' := Function.update_of_ne h ..

theorem Inv.at {hub : Hub κ ρ} (h : Inv hub) {r : ρ} {stage : Stage κ} (habsent : stage ≠ .absent)
    (hkey : ∀ key, stage.key = some key → (hub.stages r).key = some key) : Inv (hub.at r stage) := by
  refine ⟨h.streams, h.channels, fun r' hr' => ?_, fun r' key hr' hclosed => ?_⟩
  · refine h.absent r' (hr'.imp_left fun hstage => ?_)
    by_cases hsame : r' = r
    · subst hsame
      rw [stages_at_self] at hstage
      exact absurd hstage habsent
    · rwa [stages_at_of_ne hub hsame] at hstage
  · by_cases hsame : r' = r
    · subst hsame
      rw [stages_at_self] at hr'
      exact h.registered r' key (hkey key hr') hclosed
    · rw [stages_at_of_ne hub hsame] at hr'
      exact h.registered r' key hr' hclosed

end At

omit [DecidableEq ρ] in
theorem keys_enter_self (registry : Registry κ ρ) (key : κ) (r : ρ) :
    ∃ entry, (registry.enter key r).keys key = some entry ∧ r ∈ entry.streams ∧
      ∀ r', r' ∈ entry.streams ↔ r' = r ∨ ∃ e, registry.keys key = some e ∧ r' ∈ e.streams := by
  unfold Registry.enter
  simp only [Function.update_self]
  cases hkey : registry.keys key with
  | none => exact ⟨_, rfl, by simp, by simp⟩
  | some entry => exact ⟨_, rfl, by simp, by simp [or_comm]⟩

omit [DecidableEq ρ] in
theorem keys_enter_of_ne (registry : Registry κ ρ) {key key' : κ} (h : key' ≠ key) (r : ρ) :
    (registry.enter key r).keys key' = registry.keys key' := Function.update_of_ne h ..

theorem Inv.enter {hub : Hub κ ρ} (h : Inv hub) {r : ρ} (hr : hub.stages r = .absent) (key : κ)
    (token : Option String) :
    Inv (Hub.at { hub with
      registry := hub.registry.enter key r
      closed := Function.update hub.closed r false } r (.entering key token)) := by
  obtain ⟨entry, hentry, hmem, hothers⟩ := keys_enter_self hub.registry key r
  refine ⟨fun key' e he => ?streams, fun key' hnone => ?channels, fun r' hr' key' e he => ?absent,
    fun r' key' hr' hclosed => ?registered⟩
  case streams =>
    by_cases hkey : key' = key
    · subst hkey
      obtain rfl := Option.some.inj (hentry.symm.trans he)
      exact List.ne_nil_of_mem hmem
    · exact h.streams key' e ((keys_enter_of_ne hub.registry hkey r).symm.trans he)
  case channels =>
    by_cases hkey : key' = key
    · subst hkey
      exact absurd (hentry.symm.trans hnone) (Option.some_ne_none _)
    · exact h.channels key' ((keys_enter_of_ne hub.registry hkey r).symm.trans hnone)
  case absent =>
    have hne : r' ≠ r := by
      rintro rfl
      rcases hr' with hstage | hclosed
      · rw [stages_at_self] at hstage
        cases hstage
      · have hopen : Function.update hub.closed r' false r' = false := Function.update_self ..
        cases hopen.symm.trans hclosed
    have hgone : hub.stages r' = .absent ∨ hub.closed r' = true := by
      rcases hr' with hstage | hclosed
      · rw [stages_at_of_ne _ hne] at hstage
        exact .inl hstage
      · exact .inr ((Function.update_of_ne hne ..).symm.trans hclosed)
    by_cases hkey : key' = key
    · subst hkey
      obtain rfl := Option.some.inj (hentry.symm.trans he)
      rw [hothers]
      rintro (hsame | ⟨e, he, hmem⟩)
      · exact hne hsame
      · exact h.absent r' hgone key' e he hmem
    · exact h.absent r' hgone key' e ((keys_enter_of_ne hub.registry hkey r).symm.trans he)
  case registered =>
    by_cases hsame : r' = r
    · subst hsame
      rw [stages_at_self] at hr'
      obtain rfl := Option.some.inj hr'
      exact ⟨entry, hentry, hmem⟩
    · rw [stages_at_of_ne _ hsame] at hr'
      have hopen : hub.closed r' = false := (Function.update_of_ne hsame ..).symm.trans hclosed
      obtain ⟨e, he, hmem'⟩ := h.registered r' key' hr' hopen
      by_cases hkey : key' = key
      · subst hkey
        exact ⟨entry, hentry, (hothers r').mpr (.inr ⟨e, he, hmem'⟩)⟩
      · exact ⟨e, (keys_enter_of_ne hub.registry hkey r).trans he, hmem'⟩

theorem leave_cases (registry : Registry κ ρ) (key : κ) (r : ρ) :
    (registry.keys key = none ∧ registry.leave key r = registry) ∨
      ∃ entry, registry.keys key = some entry ∧
        (entry.streams.filter (· ≠ r) ≠ [] ∧ registry.leave key r = { registry with
            keys := Function.update registry.keys key
              (some { entry with streams := entry.streams.filter (· ≠ r) }) } ∨
          entry.streams.filter (· ≠ r) = [] ∧ registry.leave key r =
            ⟨Function.update registry.keys key none,
              Function.update registry.channels key false⟩) := by
  unfold Registry.leave
  cases hkey : registry.keys key with
  | none => exact .inl ⟨rfl, rfl⟩
  | some entry =>
    refine .inr ⟨entry, rfl, ?_⟩
    simp only
    by_cases hrest : entry.streams.filter (· ≠ r) = []
    · rw [if_neg (by rw [hrest]; exact Nat.lt_irrefl 0)]
      exact .inr ⟨hrest, rfl⟩
    · rw [if_pos (List.length_pos_iff.mpr hrest)]
      exact .inl ⟨hrest, rfl⟩

theorem keys_leave (registry : Registry κ ρ) (key : κ) (r : ρ) {key' : κ} {entry : Key ρ}
    (h : (registry.leave key r).keys key' = some entry) :
    entry.streams ≠ [] ∧ (∀ r' ∈ entry.streams, ∃ e, registry.keys key' = some e ∧ r' ∈ e.streams) ∨
      registry.keys key' = some entry := by
  rcases leave_cases registry key r with ⟨-, heq⟩ | ⟨e, he, ⟨hrest, heq⟩ | ⟨-, heq⟩⟩
  · rw [heq] at h
    exact .inr h
  · rw [heq] at h
    by_cases hkey : key' = key
    · subst hkey
      simp only [Function.update_self, Option.some.injEq] at h
      subst h
      exact .inl ⟨hrest, fun r' hr' => ⟨e, he, (List.mem_filter.mp hr').1⟩⟩
    · simp only [Function.update_of_ne hkey] at h
      exact .inr h
  · rw [heq] at h
    by_cases hkey : key' = key
    · subst hkey
      simp only [Function.update_self, reduceCtorEq] at h
    · simp only [Function.update_of_ne hkey] at h
      exact .inr h

theorem mem_leave {registry : Registry κ ρ} {key key' : κ} {r r' : ρ} (hne : r' ≠ r)
    {entry : Key ρ} (h : registry.keys key' = some entry) (hmem : r' ∈ entry.streams) :
    ∃ e, (registry.leave key r).keys key' = some e ∧ r' ∈ e.streams := by
  have hkept : ∀ e : Key ρ, r' ∈ e.streams → r' ∈ e.streams.filter (· ≠ r) := fun e he =>
    List.mem_filter.mpr ⟨he, decide_eq_true hne⟩
  rcases leave_cases registry key r with ⟨-, heq⟩ | ⟨e, he, ⟨-, heq⟩ | ⟨hrest, heq⟩⟩
  · exact ⟨entry, by rw [heq]; exact h, hmem⟩
  · rw [heq]
    by_cases hkey : key' = key
    · subst hkey
      obtain rfl := Option.some.inj (he.symm.trans h)
      exact ⟨_, Function.update_self .., hkept e hmem⟩
    · exact ⟨entry, (Function.update_of_ne hkey ..).trans h, hmem⟩
  · rw [heq]
    by_cases hkey : key' = key
    · subst hkey
      obtain rfl := Option.some.inj (he.symm.trans h)
      have hnil := hkept e hmem
      rw [hrest] at hnil
      cases hnil
    · exact ⟨entry, (Function.update_of_ne hkey ..).trans h, hmem⟩

theorem channels_leave {registry : Registry κ ρ} {key key' : κ} {r : ρ}
    (h : ∀ key, registry.keys key = none → registry.channels key = false)
    (hnone : (registry.leave key r).keys key' = none) :
    (registry.leave key r).channels key' = false := by
  rcases leave_cases registry key r with ⟨-, heq⟩ | ⟨e, he, ⟨-, heq⟩ | ⟨-, heq⟩⟩
  · rw [heq] at hnone ⊢
    exact h key' hnone
  · rw [heq] at hnone ⊢
    by_cases hkey : key' = key
    · subst hkey
      simp only [Function.update_self, reduceCtorEq] at hnone
    · simp only [Function.update_of_ne hkey] at hnone
      exact h key' hnone
  · rw [heq] at hnone ⊢
    by_cases hkey : key' = key
    · subst hkey
      exact Function.update_self ..
    · simp only [Function.update_of_ne hkey] at hnone ⊢
      exact h key' hnone

theorem Inv.leave {hub : Hub κ ρ} (h : Inv hub) {r : ρ} {key : κ}
    (hr : hub.stages r = .opened key) :
    Inv (Hub.at { hub with registry := hub.registry.leave key r } r .left) := by
  refine ⟨fun key' e he => ?_, fun key' => channels_leave h.channels,
    fun r' hr' key' e he hmem => ?_, fun r' key' hr' hclosed => ?_⟩
  · rcases keys_leave hub.registry key r he with ⟨hne, -⟩ | hsame
    · exact hne
    · exact h.streams key' e hsame
  · have hgone : hub.stages r' = .absent ∨ hub.closed r' = true := hr'.imp_left fun hstage => by
      by_cases hsame : r' = r
      · subst hsame
        rw [stages_at_self] at hstage
        cases hstage
      · rwa [stages_at_of_ne _ hsame] at hstage
    rcases keys_leave hub.registry key r he with ⟨-, hold⟩ | hsame
    · obtain ⟨e', he', hmem'⟩ := hold r' hmem
      exact h.absent r' hgone key' e' he' hmem'
    · exact h.absent r' hgone key' e hsame hmem
  · by_cases hsame : r' = r
    · subst hsame
      rw [stages_at_self] at hr'
      cases hr'
    · rw [stages_at_of_ne _ hsame] at hr'
      obtain ⟨e, he, hmem⟩ := h.registered r' key' hr' hclosed
      exact mem_leave hsame he hmem

omit [DecidableEq ρ] in
theorem Inv.settle {hub : Hub κ ρ} (h : Inv hub) {key : κ} {entry : Key ρ}
    (hkey : hub.registry.keys key = some entry) (ok : Bool) :
    Inv { hub with registry := hub.registry.settle key entry ok } := by
  have hstreams : ∀ key' e, (hub.registry.settle key entry ok).keys key' = some e →
      ∃ e', hub.registry.keys key' = some e' ∧ e'.streams = e.streams := by
    intro key' e he
    unfold Registry.settle at he
    by_cases hsame : key' = key
    · subst hsame
      simp only [Function.update_self, Option.some.injEq] at he
      exact ⟨entry, hkey, he ▸ rfl⟩
    · simp only [Function.update_of_ne hsame] at he
      exact ⟨e, he, rfl⟩
  refine ⟨fun key' e he => ?_, fun key' hnone => ?_, fun r hr key' e he => ?_,
    fun r key' hr hclosed => ?_⟩
  · obtain ⟨e', he', heq⟩ := hstreams key' e he
    exact heq ▸ h.streams key' e' he'
  · unfold Registry.settle at hnone ⊢
    by_cases hsame : key' = key
    · subst hsame
      simp only [Function.update_self, reduceCtorEq] at hnone
    · simp only [Function.update_of_ne hsame] at hnone
      have hchannel := h.channels key' hnone
      cases ok with
      | false => exact hchannel
      | true => exact (Function.update_of_ne hsame ..).trans hchannel
  · obtain ⟨e', he', heq⟩ := hstreams key' e he
    exact heq ▸ h.absent r hr key' e' he'
  · obtain ⟨e, he, hmem⟩ := h.registered r key' hr hclosed
    unfold Registry.settle
    by_cases hsame : key' = key
    · subst hsame
      obtain rfl := Option.some.inj (hkey.symm.trans he)
      exact ⟨_, Function.update_self .., hmem⟩
    · exact ⟨e, (Function.update_of_ne hsame ..).trans he, hmem⟩

omit [DecidableEq κ] [DecidableEq ρ] in
theorem Inv.close {hub : Hub κ ρ} : Inv { hub with registry := .empty, closed := fun _ => true } := by
  refine ⟨fun key e he => ?_, fun key _ => rfl, fun r _ key e he => ?_, fun r key _ hclosed => ?_⟩
  · cases he
  · cases he
  · cases hclosed

theorem step_cases {hub hub' : Hub κ ρ} {a : Act κ ρ} (h : step hub a = some hub') :
    (∃ r key token, a = .connect r key token true ∧ hub.stages r = .absent ∧
      hub' = Hub.at { hub with
        registry := hub.registry.enter key r
        closed := Function.update hub.closed r false } r (.entering key token)) ∨
    (∃ key entry ok, a = .subscribed key ok ∧ hub.registry.keys key = some entry ∧
      hub' = { hub with registry := hub.registry.settle key entry ok }) ∨
    (∃ r stage, stage ≠ .absent ∧
      (∀ key, stage.key = some key → (hub.stages r).key = some key) ∧ hub' = hub.at r stage) ∨
    (∃ r key, a = .leave r ∧ hub.stages r = .opened key ∧
      hub' = Hub.at { hub with registry := hub.registry.leave key r } r .left) ∨
    a = .close ∧ hub' = { hub with registry := .empty, closed := fun _ => true } := by
  have hfailed : (Stage.failed : Stage κ) ≠ .absent := by simp
  cases a with
  | connect r key token ok =>
    simp only [step] at h
    cases hstage : hub.stages r <;> simp only [hstage, reduceCtorEq] at h
    cases ok with
    | true => exact .inl ⟨r, key, token, rfl, hstage, (Option.some.inj h).symm⟩
    | false =>
      refine .inr (.inr (.inl ⟨r, .failed, hfailed, fun key hkey => ?_, (Option.some.inj h).symm⟩))
      cases hkey
  | subscribed key ok =>
    simp only [step] at h
    split at h
    · next streams hkey =>
      exact .inr (.inl ⟨key, _, ok, rfl, hkey, (Option.some.inj h).symm⟩)
    · cases h
  | entered r ok =>
    simp only [step] at h
    cases hstage : hub.stages r <;> simp only [hstage, reduceCtorEq] at h
    split_ifs at h with hwaited hok
    all_goals
      refine .inr (.inr (.inl ⟨r, _, ?_, ?_, (Option.some.inj h).symm⟩))
      all_goals simp [hstage, Stage.key]
  | marked r ok =>
    simp only [step] at h
    cases hstage : hub.stages r with
    | marking key token =>
      cases token <;> cases ok <;> simp only [hstage] at h
      all_goals
        refine .inr (.inr (.inl ⟨r, _, ?_, ?_, (Option.some.inj h).symm⟩))
        all_goals simp [hstage, Stage.key]
    | _ => simp only [hstage, reduceCtorEq] at h
  | read r ok =>
    simp only [step] at h
    cases hstage : hub.stages r <;> simp only [hstage, reduceCtorEq] at h
    cases ok
    all_goals
      refine .inr (.inr (.inl ⟨r, _, ?_, ?_, (Option.some.inj h).symm⟩))
      all_goals simp [hstage, Stage.key]
  | leave r =>
    simp only [step] at h
    cases hstage : hub.stages r <;> simp only [hstage, reduceCtorEq] at h
    exact .inr (.inr (.inr (.inl ⟨r, _, rfl, hstage, (Option.some.inj h).symm⟩)))
  | close => exact .inr (.inr (.inr (.inr ⟨rfl, (Option.some.inj h).symm⟩)))

theorem inv_step {hub hub' : Hub κ ρ} {a : Act κ ρ} (h : Inv hub) (hstep : step hub a = some hub') :
    Inv hub' := by
  rcases step_cases hstep with ⟨r, key, token, -, hr, rfl⟩ | ⟨key, entry, ok, -, hkey, rfl⟩ |
    ⟨r, stage, habsent, hkey, rfl⟩ | ⟨r, key, -, hr, rfl⟩ | ⟨-, rfl⟩
  · exact h.enter hr key token
  · exact h.settle hkey ok
  · exact h.at habsent hkey
  · exact h.leave hr
  · exact .close

omit [DecidableEq κ] [DecidableEq ρ] in
theorem inv_init : Inv (Hub.init : Hub κ ρ) := by
  refine ⟨fun key e he => ?_, fun key _ => rfl, fun r _ key e he => ?_, fun r key hr _ => ?_⟩
  · cases he
  · cases he
  · cases hr

/-- What a reader's entering does, its leaving undoes. -/
theorem leave_enter {hub : Hub κ ρ} (h : Inv hub) {r : ρ} (hr : hub.stages r = .absent) (key : κ) :
    (hub.registry.enter key r).leave key r = hub.registry := by
  cases hkey : hub.registry.keys key with
  | none =>
    have henter : hub.registry.enter key r =
        ⟨Function.update hub.registry.keys key (some ⟨[r], .pending⟩), hub.registry.channels⟩ := by
      unfold Registry.enter
      rw [hkey]
    have hkeys : Function.update hub.registry.keys key none = hub.registry.keys := by
      rw [← hkey, Function.update_eq_self]
    have hchannels : Function.update hub.registry.channels key false = hub.registry.channels := by
      rw [← h.channels key hkey, Function.update_eq_self]
    rw [henter]
    unfold Registry.leave
    simp only [Function.update_self, Function.update_idem]
    rw [hkeys, hchannels]
    simp
  | some entry =>
    have hfilter : (entry.streams ++ [r]).filter (· ≠ r) = entry.streams := by
      have hkept : entry.streams.filter (· ≠ r) = entry.streams :=
        List.filter_eq_self.mpr fun r' hr' => decide_eq_true fun hsame =>
          h.absent r (.inl hr) key entry hkey (hsame ▸ hr')
      rw [List.filter_append, hkept]
      simp
    have henter : hub.registry.enter key r = { hub.registry with
        keys := Function.update hub.registry.keys key
          (some { entry with streams := entry.streams ++ [r] }) } := by
      unfold Registry.enter
      rw [hkey]
    have hpos := List.length_pos_iff.mpr (h.streams key entry hkey)
    rw [henter]
    unfold Registry.leave
    simp only [Function.update_self, Function.update_idem, hfilter, if_pos hpos]
    rw [← hkey, Function.update_eq_self]

theorem leave_of_absent {registry : Registry κ ρ} {key : κ} {r : ρ}
    (hstreams : ∀ entry, registry.keys key = some entry → entry.streams ≠ [] ∧ r ∉ entry.streams) :
    registry.leave key r = registry := by
  rcases leave_cases registry key r with ⟨-, heq⟩ | ⟨e, he, hcases⟩
  · exact heq
  · obtain ⟨hne, hmem⟩ := hstreams e he
    have hfilter : e.streams.filter (· ≠ r) = e.streams :=
      List.filter_eq_self.mpr fun r' hr' => decide_eq_true fun hsame => hmem (hsame ▸ hr')
    rw [hfilter] at hcases
    rcases hcases with ⟨-, heq⟩ | ⟨hnil, -⟩
    · rw [heq, ← he, Function.update_eq_self]
    · exact absurd hnil hne

theorem leave_ne_of_registered {registry : Registry κ ρ} {key : κ} {r : ρ} {entry : Key ρ}
    (hkey : registry.keys key = some entry) (hmem : r ∈ entry.streams) :
    registry.leave key r ≠ registry := by
  intro heq
  rcases leave_cases registry key r with ⟨hnone, -⟩ | ⟨e, he, ⟨-, hleave⟩ | ⟨-, hleave⟩⟩
  · cases hnone.symm.trans hkey
  · obtain rfl := Option.some.inj (he.symm.trans hkey)
    have hkeys : (registry.leave key r).keys key =
        some { e with streams := e.streams.filter (· ≠ r) } := by
      rw [hleave]
      exact Function.update_self ..
    rw [heq, hkey] at hkeys
    have hstreams := congrArg Key.streams (Option.some.inj hkeys)
    rw [hstreams] at hmem
    exact of_decide_eq_true (List.mem_filter.mp hmem).2 rfl
  · have hkeys : (registry.leave key r).keys key = none := by
      rw [hleave]
      exact Function.update_self ..
    rw [heq, hkey] at hkeys
    cases hkeys

theorem Fails.registry {hub hub' : Hub κ ρ} {r : ρ} {key : κ} {a : Act κ ρ}
    (h : Fails hub r key a) (hstep : step hub a = some hub') :
    hub'.registry = hub.registry := by
  cases h with
  | connect token hstage =>
    simp only [step, hstage] at hstep
    obtain rfl := Option.some.inj hstep
    rfl
  | entered token hstage =>
    simp only [step, hstage, Bool.false_eq_true, if_false] at hstep
    split_ifs at hstep
    obtain rfl := Option.some.inj hstep
    rfl
  | marked token hstage =>
    cases token <;> simp only [step, hstage] at hstep <;> obtain rfl := Option.some.inj hstep <;> rfl
  | read token hstage =>
    simp only [step, hstage] at hstep
    obtain rfl := Option.some.inj hstep
    rfl

/-- Where an opening fails, the Hub is as it was but for others exactly where its reader was not
registered. -/
theorem untouched_iff {as : List (Act κ ρ)} {hub hub' : Hub κ ρ}
    (hrun : run step Hub.init as = some hub) {r : ρ} {key : κ} {a : Act κ ρ}
    (hfails : Fails hub r key a) (hstep : step hub a = some hub') :
    Untouched hub' r key ↔ Unregistered hub r a := by
  have h : Inv hub := run_invariant_all (fun _ _ _ => inv_step) inv_init hrun
  have hgone : hub.stages r = .absent ∨ hub.closed r = true →
      hub.registry.leave key r = hub.registry := fun habsent =>
    leave_of_absent fun entry hentry =>
      ⟨h.streams key entry hentry, h.absent r habsent key entry hentry⟩
  have hkept : (hub.stages r).key = some key →
      (hub.registry.leave key r = hub.registry ↔ hub.closed r = true) := by
    intro hkey
    refine ⟨fun heq => ?_, fun hclosed => hgone (.inr hclosed)⟩
    by_contra hopen
    obtain ⟨entry, hentry, hmem⟩ := h.registered r key hkey (Bool.eq_false_iff.mpr hopen)
    exact leave_ne_of_registered hentry hmem heq
  unfold Untouched
  rw [hfails.registry hstep]
  cases hfails with
  | connect token hstage => exact iff_of_true (hgone (.inl hstage)) trivial
  | entered token hstage => exact hkept (by rw [hstage]; rfl)
  | marked token hstage => exact hkept (by rw [hstage]; rfl)
  | read token hstage => exact hkept (by rw [hstage]; rfl)

def beside : List (Act Unit Bool) :=
  [.connect false () none true, .subscribed () true, .entered false true, .marked false true]

/-- Another cannot connect: the key is the reader's that is there, as it was. -/
theorem untouched_unconnected : ∃ hub : Hub Unit Bool, run step Hub.init beside = some hub ∧
    (hub.registry.keys ()).map Key.streams = some [false] ∧ Untouched (hub.at true .failed) true () :=
  ⟨_, rfl, rfl, (@untouched_iff _ _ _ _ beside _ _ rfl _ _ _ (.connect none rfl) rfl).mpr trivial⟩

/-- A token that is refused leaves its reader registered, and its key subscribed to. -/
theorem refused_token_stays : ∃ hub : Hub Unit Unit,
    run step Hub.init [.connect () () (some "eA") true, .subscribed () true, .entered () true,
      .marked () true, .read () false] = some hub ∧ ¬ Untouched hub () () ∧
    (hub.registry.keys ()).map Key.streams = some [()] ∧ hub.registry.channels () = true := by
  refine ⟨_, rfl, ?_, rfl, rfl⟩
  exact leave_ne_of_registered rfl List.mem_cons_self

end Toa.Realtime.Opening
