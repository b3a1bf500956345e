import Mathlib.Data.List.MinMax
import Mathlib.Data.List.Nodup

/-! What the values service answers of a component and an epoch, by what was created and reset. -/

namespace Toa.Configuration

variable {γ ρ : Type*}

/-- A configuration and when it was created; `0` for deployed defaults no reset brought back. Defaults say
of which revision they are, and what was created has none. -/
structure Value (γ ρ : Type*) where
  configuration : γ
  created : ℕ
  revision : Option ρ
deriving DecidableEq

/-- `sort: ['CREATED:desc'], limit: 1` -/
def latest (stored : List (Value γ ρ)) : Option (Value γ ρ) := stored.argmax (·.created)

/-- `resolve`, by a service that is deployed with the epoch and defaults of a revision, or with another
epoch. What a reset stored is not what is served, but what is deployed. -/
def resolve (deployed : ρ → γ) (service : Option ρ) (stored : List (Value γ ρ)) : Option (Value γ ρ) :=
  let known := service.map fun r => ⟨deployed r, ((latest stored).map (·.created)).getD 0, some r⟩
  match latest stored with
  | some ⟨configuration, created, none⟩ => some ⟨configuration, created, none⟩
  | _ => known

theorem latest_mem {stored : List (Value γ ρ)} {v : Value γ ρ} (h : latest stored = some v) :
    v ∈ stored := List.argmax_mem h

theorem le_latest {stored : List (Value γ ρ)} {v o : Value γ ρ} (h : latest stored = some v)
    (ho : o ∈ stored) : o.created ≤ v.created := List.le_of_mem_argmax ho h

theorem latest_eq_none {stored : List (Value γ ρ)} : latest stored = none ↔ stored = [] :=
  List.argmax_eq_none

theorem latest_eq {stored : List (Value γ ρ)} (hnodup : (stored.map (·.created)).Nodup) {v : Value γ ρ}
    (hv : v ∈ stored) (hle : ∀ o ∈ stored, o.created ≤ v.created) : latest stored = some v := by
  cases h : latest stored with
  | none => exact absurd (latest_eq_none.mp h ▸ hv) List.not_mem_nil
  | some u =>
    have hcreated : u.created = v.created := le_antisymm (hle u (latest_mem h)) (le_latest h hv)
    rw [List.inj_on_of_nodup_map hnodup (latest_mem h) hv hcreated]

theorem le_resolve {deployed : ρ → γ} {service : Option ρ} {stored : List (Value γ ρ)} {v o : Value γ ρ}
    (h : resolve deployed service stored = some v) (ho : o ∈ stored) : o.created ≤ v.created := by
  cases hlatest : latest stored with
  | none => exact absurd (latest_eq_none.mp hlatest ▸ ho) List.not_mem_nil
  | some u =>
    have hle := le_latest hlatest ho
    obtain ⟨configuration, created, revision⟩ := u
    simp only [resolve, hlatest] at h
    cases revision with
    | none => exact Option.some.inj h ▸ hle
    | some r =>
      obtain ⟨r', -, rfl⟩ := Option.map_eq_some_iff.mp h
      exact hle

end Toa.Configuration
