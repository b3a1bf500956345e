import Mathlib.Data.List.Nodup
import Mathlib.Data.List.Perm.Subperm
import Mathlib.Order.Nat
import Toa.Lib.Run

/-! The keys of custom tokens, and the revocation of all an identity has: they are read once, as many
as a limit lets be read, and each of them is disabled, while others create, disable and delete keys. -/

set_option linter.unusedSectionVars false

namespace Toa.Identity.Keys
open Toa.Run

structure Key (ι κ : Type*) where
  id : κ
  identity : ι
  expires : Option ℕ
  revokedAt : Option ℕ
  DELETED : Option ℕ
  VERSION : ℕ
deriving DecidableEq

def LIMIT : ℕ := 1024

section
variable {ι κ : Type*} [DecidableEq ι] [DecidableEq κ]

/-- `entry.revokedAt ??= Date.now()` -/
def Key.disable (k : Key ι κ) (now : ℕ) : Key ι κ :=
  { k with revokedAt := some (k.revokedAt.getD now), VERSION := k.VERSION + 1 }

def Key.terminate (k : Key ι κ) (now : ℕ) : Key ι κ :=
  { k with DELETED := some now, VERSION := k.VERSION + 1 }

/-- What `enumerate` reads by an identity. -/
def Key.listed (identity : ι) (k : Key ι κ) : Bool := k.identity = identity && k.DELETED.isNone

structure Store (ι κ : Type*) where
  all : List (Key ι κ)
  distinct : (all.map (·.id)).Nodup

namespace Store

def live (s : Store ι κ) (id : κ) : Bool := s.all.any fun k => k.id = id && k.DELETED.isNone

def modify (s : Store ι κ) (id : κ) (f : Key ι κ → Key ι κ) (hf : ∀ k, (f k).id = k.id) : Store ι κ where
  all := s.all.map fun k => if k.id = id then f k else k
  distinct := by
    have hids : (s.all.map fun k => if k.id = id then f k else k).map (·.id) = s.all.map (·.id) := by
      rw [List.map_map]
      refine List.map_congr_left fun k _ => ?_
      simp only [Function.comp_apply]
      split
      · exact hf k
      · rfl
    rw [hids]
    exact s.distinct

def disable (s : Store ι κ) (id : κ) (now : ℕ) : Store ι κ := s.modify id (·.disable now) fun _ => rfl

def terminate (s : Store ι κ) (id : κ) (now : ℕ) : Store ι κ := s.modify id (·.terminate now) fun _ => rfl

def create (s : Store ι κ) (id : κ) (identity : ι) (expires : Option ℕ)
    (h : id ∉ s.all.map (·.id)) : Store ι κ where
  all := s.all ++ [⟨id, identity, expires, none, none, 1⟩]
  distinct := by
    rw [List.map_append]
    exact List.nodup_append'.mpr ⟨s.distinct, List.nodup_singleton _, by simpa using h⟩

end Store

inductive Change (ι κ : Type*)
  | create (id : κ) (identity : ι) (expires : Option ℕ)
  | disable (id : κ) (now : ℕ)
  | terminate (id : κ) (now : ℕ)
deriving DecidableEq

def Change.enabled (s : Store ι κ) : Change ι κ → Bool
  | .create id _ _ => id ∉ s.all.map (·.id)
  | .disable id _ | .terminate id _ => s.live id

def Store.apply (s : Store ι κ) : Change ι κ → Store ι κ
  | .create id identity expires =>
    if h : id ∉ s.all.map (·.id) then s.create id identity expires h else s
  | .disable id now => s.disable id now
  | .terminate id now => s.terminate id now

/-- An answer to `enumerate`: without an order, any keys of the identity, as many as there are up to
the limit. -/
def Answers (identity : ι) (s : Store ι κ) (ids : List κ) : Prop :=
  ids.Nodup ∧ (∀ id ∈ ids, ∃ k ∈ s.all, k.id = id ∧ k.listed identity) ∧
    ids.length = min LIMIT (s.all.countP (·.listed identity))

instance (identity : ι) (s : Store ι κ) (ids : List κ) : Decidable (Answers identity s ids) :=
  inferInstanceAs (Decidable (_ ∧ _ ∧ _))

/-- `left` is what is still to be disabled of what was read. -/
structure State (ι κ : Type*) where
  keys : Store ι κ
  left : Option (List κ)

inductive Act (ι κ : Type*)
  | other (change : Change ι κ)
  | read (ids : List κ)
  | disable (id : κ) (now : ℕ)
deriving DecidableEq

/-- One call of `revoke`, and what others do in the meantime. Disabling is retried until it is
committed, so it is of the key as it is then; one that is deleted is not found, and the call throws. -/
def step (identity : ι) (s : State ι κ) : Act ι κ → Option (State ι κ)
  | .other change =>
    if change.enabled s.keys then some { s with keys := s.keys.apply change } else none
  | .read ids =>
    if s.left = none ∧ Answers identity s.keys ids then some { s with left := some ids } else none
  | .disable id now =>
    match s.left with
    | none => none
    | some left =>
      if id ∈ left ∧ s.keys.live id then some ⟨s.keys.disable id now, some (left.erase id)⟩ else none

/-! ## What is to hold -/

def Store.Revoked (s : Store ι κ) (id : κ) : Prop := ∃ k ∈ s.all, k.id = id ∧ k.revokedAt.isSome

/-- Every key of the identity that there was is revoked, at the moment it was first revoked at where
it was, and a key of another identity that nobody else changes is what it was. -/
def Settled (identity : ι) (before : Store ι κ) (acts : List (Act ι κ)) (after : Store ι κ) : Prop :=
  (∀ k ∈ before.all, k.listed identity → after.Revoked k.id) ∧
  (∀ k ∈ before.all, ∀ moment ∈ k.revokedAt,
    ∃ k' ∈ after.all, k'.id = k.id ∧ k'.revokedAt = some moment) ∧
  ∀ k ∈ before.all, k.identity ≠ identity →
    (∀ now, .other (.disable k.id now) ∉ acts ∧ .other (.terminate k.id now) ∉ acts) → k ∈ after.all

/-- No key is left to what was not read, unless it was revoked before, or others disable it. -/
def Covered (identity : ι) (before : Store ι κ) (acts : List (Act ι κ)) : Prop :=
  ∀ k ∈ before.all, k.listed identity → k.revokedAt.isSome ∨
    (∃ now, .other (.disable k.id now) ∈ acts) ∨ ∃ ids, .read ids ∈ acts ∧ k.id ∈ ids

/-! ## Keys -/

theorem key_eq {s : Store ι κ} {k k' : Key ι κ} (hk : k ∈ s.all) (hk' : k' ∈ s.all)
    (h : k.id = k'.id) : k = k' := List.inj_on_of_nodup_map s.distinct hk hk' h

theorem mem_modify {s : Store ι κ} {k : Key ι κ} (hk : k ∈ s.all) (id : κ)
    (f : Key ι κ → Key ι κ) (hf : ∀ k, (f k).id = k.id) :
    (if k.id = id then f k else k) ∈ (s.modify id f hf).all :=
  List.mem_map.mpr ⟨k, hk, rfl⟩

theorem mem_modify_of_ne {s : Store ι κ} {k : Key ι κ} (hk : k ∈ s.all) {id : κ}
    (f : Key ι κ → Key ι κ) (hf : ∀ k, (f k).id = k.id) (h : k.id ≠ id) :
    k ∈ (s.modify id f hf).all := by
  have hmem := mem_modify hk id f hf
  rwa [if_neg h] at hmem

theorem mem_disable_of_ne {s : Store ι κ} {k : Key ι κ} (hk : k ∈ s.all) {id : κ} (now : ℕ)
    (h : k.id ≠ id) : k ∈ (s.disable id now).all :=
  mem_modify_of_ne hk (·.disable now) (fun _ => rfl) h

theorem moment_modify {s : Store ι κ} {id : κ} {moment : ℕ} (target : κ)
    (f : Key ι κ → Key ι κ) (hf : ∀ k, (f k).id = k.id)
    (hmoment : ∀ k : Key ι κ, k.revokedAt = some moment → (f k).revokedAt = some moment)
    (h : ∃ k ∈ s.all, k.id = id ∧ k.revokedAt = some moment) :
    ∃ k ∈ (s.modify target f hf).all, k.id = id ∧ k.revokedAt = some moment := by
  obtain ⟨k, hk, hid, hrevoked⟩ := h
  refine ⟨_, mem_modify hk target f hf, ?_⟩
  split
  · exact ⟨(hf k).trans hid, hmoment k hrevoked⟩
  · exact ⟨hid, hrevoked⟩

theorem moment_disable {s : Store ι κ} {id : κ} {moment : ℕ} (target : κ) (now : ℕ)
    (h : ∃ k ∈ s.all, k.id = id ∧ k.revokedAt = some moment) :
    ∃ k ∈ (s.disable target now).all, k.id = id ∧ k.revokedAt = some moment :=
  moment_modify target (·.disable now) (fun _ => rfl) (fun k hk => by simp [Key.disable, hk]) h

theorem moment_apply {s : Store ι κ} {id : κ} {moment : ℕ} (change : Change ι κ)
    (h : ∃ k ∈ s.all, k.id = id ∧ k.revokedAt = some moment) :
    ∃ k ∈ (s.apply change).all, k.id = id ∧ k.revokedAt = some moment := by
  cases change with
  | create other identity expires =>
    dsimp only [Store.apply]
    split
    · obtain ⟨k, hk, hkey⟩ := h
      exact ⟨k, List.mem_append_left _ hk, hkey⟩
    · exact h
  | disable other now => exact moment_disable other now h
  | terminate other now => exact moment_modify other (·.terminate now) (fun _ => rfl) (fun k hk => hk) h

theorem revoked_iff {s : Store ι κ} {id : κ} :
    s.Revoked id ↔ ∃ moment, ∃ k ∈ s.all, k.id = id ∧ k.revokedAt = some moment := by
  constructor
  · rintro ⟨k, hk, hid, hrevoked⟩
    obtain ⟨moment, hmoment⟩ := Option.isSome_iff_exists.mp hrevoked
    exact ⟨moment, k, hk, hid, hmoment⟩
  · rintro ⟨moment, k, hk, hid, hmoment⟩
    exact ⟨k, hk, hid, by rw [hmoment]; rfl⟩

theorem revoked_disable_of_revoked {s : Store ι κ} {id : κ} (target : κ) (now : ℕ)
    (h : s.Revoked id) : (s.disable target now).Revoked id := by
  obtain ⟨moment, hmoment⟩ := revoked_iff.mp h
  exact revoked_iff.mpr ⟨moment, moment_disable target now hmoment⟩

theorem revoked_apply {s : Store ι κ} {id : κ} (change : Change ι κ) (h : s.Revoked id) :
    (s.apply change).Revoked id := by
  obtain ⟨moment, hmoment⟩ := revoked_iff.mp h
  exact revoked_iff.mpr ⟨moment, moment_apply change hmoment⟩

theorem revoked_disable {s : Store ι κ} {id : κ} (now : ℕ) (h : s.live id) :
    (s.disable id now).Revoked id := by
  obtain ⟨k, hk, hfound⟩ := List.any_eq_true.mp h
  simp only [Bool.and_eq_true, decide_eq_true_eq] at hfound
  have hmem := mem_modify hk id (·.disable now) fun _ => rfl
  rw [if_pos hfound.1] at hmem
  exact ⟨_, hmem, hfound.1, rfl⟩

/-- Where all the keys of an identity may be read, all are. -/
theorem answers_all {identity : ι} {s : Store ι κ} {ids : List κ} (h : Answers identity s ids)
    (hfew : s.all.countP (·.listed identity) ≤ LIMIT) {k : Key ι κ} (hk : k ∈ s.all)
    (hlisted : k.listed identity) : k.id ∈ ids := by
  obtain ⟨hnodup, hkeys, hlength⟩ := h
  let listed := (s.all.filter (·.listed identity)).map (·.id)
  have hsub : ids ⊆ listed := by
    intro id hid
    obtain ⟨k, hk, rfl, hk'⟩ := hkeys id hid
    exact List.mem_map_of_mem (List.mem_filter.mpr ⟨hk, hk'⟩)
  have hperm : ids.Perm listed := by
    refine (List.subperm_of_subset hnodup hsub).perm_of_length_le ?_
    rw [hlength, List.length_map, ← List.countP_eq_length_filter]
    omega
  exact hperm.mem_iff.mpr (List.mem_map_of_mem (List.mem_filter.mpr ⟨hk, hlisted⟩))

/-! ## Runs -/

section
variable {identity : ι} {s t : State ι κ} {act : Act ι κ} {acts : List (Act ι κ)} {id : κ}

theorem step_cases (h : step identity s act = some t) :
    (∃ change, act = .other change ∧ change.enabled s.keys ∧
      t = { s with keys := s.keys.apply change }) ∨
    (∃ ids, act = .read ids ∧ s.left = none ∧ Answers identity s.keys ids ∧
      t = { s with left := some ids }) ∨
    (∃ id now left, act = .disable id now ∧ s.left = some left ∧ id ∈ left ∧ s.keys.live id ∧
      t = ⟨s.keys.disable id now, some (left.erase id)⟩) := by
  cases act with
  | other change =>
    simp only [step, Option.ite_none_right_eq_some, Option.some.injEq] at h
    exact .inl ⟨change, rfl, h.1, h.2.symm⟩
  | read ids =>
    simp only [step, Option.ite_none_right_eq_some, Option.some.injEq] at h
    exact .inr (.inl ⟨ids, rfl, h.1.1, h.1.2, h.2.symm⟩)
  | disable id now =>
    dsimp only [step] at h
    split at h
    · cases h
    · rename_i left hleft
      simp only [Option.ite_none_right_eq_some, Option.some.injEq] at h
      exact .inr (.inr ⟨id, now, left, rfl, hleft, h.1.1, h.1.2, h.2.symm⟩)

theorem moment_run {moment : ℕ} (h : ∃ k ∈ s.keys.all, k.id = id ∧ k.revokedAt = some moment)
    (hrun : run (step identity) s acts = some t) :
    ∃ k ∈ t.keys.all, k.id = id ∧ k.revokedAt = some moment := by
  refine run_invariant_all
    (I := fun s : State ι κ => ∃ k ∈ s.keys.all, k.id = id ∧ k.revokedAt = some moment) ?_ h hrun
  intro s act t hI hstep
  rcases step_cases hstep with ⟨change, -, -, rfl⟩ | ⟨ids, -, -, -, rfl⟩ |
    ⟨target, now, left, -, -, -, -, rfl⟩
  · exact moment_apply change hI
  · exact hI
  · exact moment_disable target now hI

theorem revoked_run (h : s.keys.Revoked id) (hrun : run (step identity) s acts = some t) :
    t.keys.Revoked id := by
  obtain ⟨moment, hmoment⟩ := revoked_iff.mp h
  exact revoked_iff.mpr ⟨moment, moment_run hmoment hrun⟩

theorem revoked_of_read (h : ∃ left, s.left = some left ∧ (id ∈ left ∨ s.keys.Revoked id))
    (hrun : run (step identity) s acts = some t) (hdone : t.left = some []) : t.keys.Revoked id := by
  have hinv := run_invariant_all
    (I := fun s : State ι κ => ∃ left, s.left = some left ∧ (id ∈ left ∨ s.keys.Revoked id)) (by
      intro s act t hI hstep
      obtain ⟨left, hleft, hid⟩ := hI
      rcases step_cases hstep with ⟨change, -, -, rfl⟩ | ⟨ids, -, hnone, -, rfl⟩ |
        ⟨target, now, left', -, hleft', hmem, hlive, rfl⟩
      · exact ⟨left, hleft, hid.imp_right (revoked_apply change)⟩
      · rw [hleft] at hnone
        cases hnone
      · cases hleft.symm.trans hleft'
        refine ⟨_, rfl, ?_⟩
        by_cases hsame : id = target
        · rw [hsame]
          exact .inr (revoked_disable now hlive)
        · exact hid.imp (List.mem_erase_of_ne hsame).mpr (revoked_disable_of_revoked target now))
    h hrun
  obtain ⟨left, hleft, hid⟩ := hinv
  cases hleft.symm.trans hdone
  exact hid.resolve_left (by simp)

theorem revoked_of_act (hrun : run (step identity) s acts = some t) (hdone : t.left = some [])
    (h : (∃ now, .other (.disable id now) ∈ acts) ∨ ∃ ids, .read ids ∈ acts ∧ id ∈ ids) :
    t.keys.Revoked id := by
  rcases h with ⟨now, hact⟩ | ⟨ids, hact, hid⟩
  · obtain ⟨u, v, after, hv, hafter⟩ := run_of_mem hact hrun
    rcases step_cases hv with ⟨change, heq, henabled, rfl⟩ | ⟨_, heq, -⟩ | ⟨_, _, _, heq, -⟩
    · cases heq
      exact revoked_run (revoked_disable now henabled) hafter
    · cases heq
    · cases heq
  · obtain ⟨u, v, after, hv, hafter⟩ := run_of_mem hact hrun
    rcases step_cases hv with ⟨_, heq, -⟩ | ⟨_, heq, -, -, rfl⟩ | ⟨_, _, _, heq, -⟩
    · cases heq
    · cases heq
      exact revoked_of_read ⟨ids, rfl, .inl hid⟩ hafter hdone
    · cases heq

def Act.Leaves (id : κ) : Act ι κ → Prop
  | .other (.disable target _) => target ≠ id
  | .read ids => id ∉ ids
  | _ => True

theorem unrevoked_run {k : Key ι κ} (hk : k ∈ s.keys.all) (hnone : k.revokedAt = none)
    (hleft : s.left = none) (hacts : ∀ act ∈ acts, act.Leaves k.id)
    (hrun : run (step identity) s acts = some t) : ¬ t.keys.Revoked k.id := by
  let I (s : State ι κ) : Prop := (∃ k' ∈ s.keys.all, k'.id = k.id ∧ k'.revokedAt = none) ∧
    ∀ left, s.left = some left → k.id ∉ left
  have hpreserved : ∀ s act t, I s → act.Leaves k.id → step identity s act = some t → I t := by
    intro s act t hI hok hstep
    obtain ⟨⟨k', hk', hid, hunrevoked⟩, hleft⟩ := hI
    rcases step_cases hstep with ⟨change, rfl, -, rfl⟩ | ⟨ids, rfl, -, -, rfl⟩ |
      ⟨target, now, left, -, hleft', hmem, -, rfl⟩
    · refine ⟨?_, hleft⟩
      cases change with
      | create other owner expires =>
        dsimp only [Store.apply]
        split
        · exact ⟨k', List.mem_append_left _ hk', hid, hunrevoked⟩
        · exact ⟨k', hk', hid, hunrevoked⟩
      | disable other now =>
        have hne : k'.id ≠ other := fun heq => hok (heq.symm.trans hid)
        exact ⟨k', mem_disable_of_ne hk' now hne, hid, hunrevoked⟩
      | terminate other now =>
        refine ⟨_, mem_modify hk' other (·.terminate now) (fun _ => rfl), ?_⟩
        split
        · exact ⟨hid, hunrevoked⟩
        · exact ⟨hid, hunrevoked⟩
    · refine ⟨⟨k', hk', hid, hunrevoked⟩, fun left heq => ?_⟩
      cases heq
      exact hok
    · have hne : k'.id ≠ target := fun heq => hleft _ hleft' (hid ▸ heq ▸ hmem)
      refine ⟨⟨k', mem_disable_of_ne hk' now hne, hid, hunrevoked⟩, fun left'' heq => ?_⟩
      cases heq
      exact fun hmem' => hleft _ hleft' (List.mem_of_mem_erase hmem')
  have hI : I s := ⟨⟨k, hk, rfl, hnone⟩, fun left heq => by rw [hleft] at heq; cases heq⟩
  have hinv := run_invariant hpreserved hI (along_of_mem (fun act hact _ => hacts act hact) s) hrun
  obtain ⟨⟨k', hk', hid, hunrevoked⟩, -⟩ := hinv
  rintro ⟨k'', hk'', hid'', hrevoked⟩
  rw [key_eq hk'' hk' (hid''.trans hid.symm), hunrevoked] at hrevoked
  cases hrevoked

theorem untouched_run {k : Key ι κ} (hk : k ∈ s.keys.all) (hidentity : k.identity ≠ identity)
    (hleft : s.left = none)
    (hacts : ∀ now, .other (.disable k.id now) ∉ acts ∧ .other (.terminate k.id now) ∉ acts)
    (hrun : run (step identity) s acts = some t) : k ∈ t.keys.all := by
  let I (s : State ι κ) : Prop := k ∈ s.keys.all ∧ ∀ left, s.left = some left → k.id ∉ left
  have hpreserved : ∀ s act t, I s →
      (∀ now, act ≠ .other (.disable k.id now) ∧ act ≠ .other (.terminate k.id now)) →
      step identity s act = some t → I t := by
    intro s act t hI hok hstep
    obtain ⟨hk, hleft⟩ := hI
    rcases step_cases hstep with ⟨change, rfl, -, rfl⟩ | ⟨ids, -, -, hanswers, rfl⟩ |
      ⟨target, now, left, -, hleft', hmem, -, rfl⟩
    · refine ⟨?_, hleft⟩
      cases change with
      | create other owner expires =>
        dsimp only [Store.apply]
        split
        · exact List.mem_append_left _ hk
        · exact hk
      | disable other now =>
        exact mem_disable_of_ne hk now fun heq => (hok now).1 (by rw [heq])
      | terminate other now =>
        exact mem_modify_of_ne hk (·.terminate now) (fun _ => rfl) fun heq =>
          (hok now).2 (by rw [heq])
    · refine ⟨hk, fun left heq hmem => ?_⟩
      cases heq
      obtain ⟨k', hk', hid, hlisted⟩ := hanswers.2.1 _ hmem
      rw [key_eq hk' hk hid] at hlisted
      simp only [Key.listed, Bool.and_eq_true, decide_eq_true_eq] at hlisted
      exact hidentity hlisted.1
    · have hne : k.id ≠ target := fun heq => hleft _ hleft' (heq ▸ hmem)
      refine ⟨mem_disable_of_ne hk now hne, fun left'' heq => ?_⟩
      cases heq
      exact fun hmem' => hleft _ hleft' (List.mem_of_mem_erase hmem')
  have hI : I s := ⟨hk, fun left heq => by rw [hleft] at heq; cases heq⟩
  have hok : Along (step identity) (fun _ act => ∀ now, act ≠ .other (.disable k.id now) ∧
      act ≠ .other (.terminate k.id now)) s acts :=
    along_of_mem (fun act hact _ now => ⟨fun heq => (hacts now).1 (heq ▸ hact),
      fun heq => (hacts now).2 (heq ▸ hact)⟩) s
  have hinv := run_invariant hpreserved hI hok hrun
  exact hinv.1

end

/-- Once a revocation has completed, all is settled exactly where no key was left to what was not
read. -/
theorem settled_iff {identity : ι} {before : Store ι κ} {acts : List (Act ι κ)} {s : State ι κ}
    (hrun : run (step identity) ⟨before, none⟩ acts = some s) (hdone : s.left = some []) :
    Settled identity before acts s.keys ↔ Covered identity before acts := by
  constructor
  · rintro ⟨hrevoked, -, -⟩ k hk hlisted
    by_contra hnot
    simp only [not_or, not_exists, not_and, Option.not_isSome_iff_eq_none] at hnot
    obtain ⟨hnone, hothers, hread⟩ := hnot
    refine unrevoked_run hk hnone rfl ?_ hrun (hrevoked k hk hlisted)
    rintro (⟨_ | ⟨target, now⟩ | _⟩ | ids | _) hact
    · trivial
    · rintro rfl
      exact hothers now hact
    · trivial
    · exact hread ids hact
    · trivial
  · intro hcovered
    refine ⟨fun k hk hlisted => ?_, fun k hk moment hmoment => ?_, fun k hk hidentity hacts =>
      untouched_run hk hidentity rfl hacts hrun⟩
    · rcases hcovered k hk hlisted with hrevoked | hact
      · have hbefore : (State.mk before none).keys.Revoked k.id := ⟨k, hk, rfl, hrevoked⟩
        exact revoked_run hbefore hrun
      · exact revoked_of_act hrun hdone hact
    · have hbefore : ∃ k' ∈ (State.mk before none).keys.all, k'.id = k.id ∧
          k'.revokedAt = some moment := ⟨k, hk, rfl, hmoment⟩
      exact moment_run hbefore hrun

end

def few : Store ℕ ℕ := ⟨[⟨1, 0, none, none, none, 1⟩, ⟨2, 0, some 5, some 3, none, 2⟩], by decide⟩

def fewActs : List (Act ℕ ℕ) := [.read [2, 1], .other (.create 3 0 none), .disable 1 9, .disable 2 9]

theorem settled_few : ∃ s, run (step 0) ⟨few, none⟩ fewActs = some s ∧ s.left = some [] ∧
    (Settled 0 few fewActs s.keys ↔ Covered 0 few fewActs) :=
  ⟨_, rfl, rfl, settled_iff rfl rfl⟩

theorem live_disable {s : Store ℕ ℕ} (id target now : ℕ) : (s.disable target now).live id = s.live id := by
  simp only [Store.live, Store.disable, Store.modify, List.any_map]
  congr 1
  funext k
  simp only [Function.comp_apply]
  split
  · rfl
  · rfl

theorem run_disable (now : ℕ) (ids : List ℕ) (keys : Store ℕ ℕ) (hlive : ∀ id ∈ ids, keys.live id) :
    ∃ s, run (step 0) ⟨keys, some ids⟩ (ids.map (.disable · now)) = some s ∧ s.left = some [] := by
  induction ids generalizing keys with
  | nil => exact ⟨_, rfl, rfl⟩
  | cons id ids ih =>
    obtain ⟨s, hrun, hdone⟩ := ih (keys.disable id now) fun other hother => by
      rw [live_disable]
      exact hlive other (List.mem_cons_of_mem _ hother)
    refine ⟨s, run_cons_eq_some.mpr ⟨_, ?_, hrun⟩, hdone⟩
    dsimp only [step]
    rw [if_pos ⟨List.mem_cons_self, hlive id List.mem_cons_self⟩, List.erase_cons_head]

def numbered (n : ℕ) : Store ℕ ℕ where
  all := (List.range n).map fun id => ⟨id, 0, none, none, none, 1⟩
  distinct := by
    rw [List.map_map]
    exact List.nodup_range.map fun _ _ h => h

theorem mem_numbered {n id : ℕ} (h : id < n) :
    (⟨id, 0, none, none, none, 1⟩ : Key ℕ ℕ) ∈ (numbered n).all :=
  List.mem_map_of_mem (List.mem_range.mpr h)

theorem answers_numbered {n : ℕ} (h : LIMIT ≤ n) : Answers 0 (numbered n) (List.range LIMIT) := by
  refine ⟨List.nodup_range, fun id hid => ?_, ?_⟩
  · exact ⟨_, mem_numbered ((List.mem_range.mp hid).trans_le h), rfl, rfl⟩
  · have hall : (numbered n).all.countP (·.listed 0) = n := by
      rw [List.countP_eq_length.mpr]
      · simp [numbered]
      · intro k hk
        obtain ⟨id, -, rfl⟩ := List.mem_map.mp hk
        rfl
    rw [hall, List.length_range, Nat.min_eq_left h]

def many : Store ℕ ℕ := numbered (LIMIT + 1)

def manyActs : List (Act ℕ ℕ) := .read (List.range LIMIT) :: (List.range LIMIT).map (.disable · 9)

/-- A revocation that has completed leaves a key that nobody has revoked. -/
theorem one_is_left : ∃ s, run (step 0) ⟨many, none⟩ manyActs = some s ∧ s.left = some [] ∧
    ¬ Settled 0 many manyActs s.keys := by
  have hlive : ∀ id ∈ List.range LIMIT, many.live id := by
    intro id hid
    have hmem := mem_numbered ((List.mem_range.mp hid).trans (Nat.lt_succ_self LIMIT))
    exact List.any_eq_true.mpr ⟨_, hmem, by simp⟩
  obtain ⟨s, hrun, hdone⟩ := run_disable 9 (List.range LIMIT) many hlive
  have hread : step 0 ⟨many, none⟩ (.read (List.range LIMIT)) =
      some ⟨many, some (List.range LIMIT)⟩ := by
    dsimp only [step]
    rw [if_pos ⟨rfl, answers_numbered (Nat.le_succ LIMIT)⟩]
  have hwhole : run (step 0) ⟨many, none⟩ manyActs = some s :=
    run_cons_eq_some.mpr ⟨_, hread, hrun⟩
  refine ⟨s, hwhole, hdone, fun hsettled => ?_⟩
  have hlast : (⟨LIMIT, 0, none, none, none, 1⟩ : Key ℕ ℕ) ∈ many.all :=
    mem_numbered (Nat.lt_succ_self LIMIT)
  have hrevoked : s.keys.Revoked LIMIT := hsettled.1 _ hlast rfl
  refine @unrevoked_run ℕ ℕ _ _ 0 ⟨many, none⟩ s manyActs _ hlast rfl rfl ?_ hwhole hrevoked
  intro act hact
  rcases List.mem_cons.mp hact with rfl | hact
  · exact fun hmem => Nat.lt_irrefl _ (List.mem_range.mp hmem)
  · obtain ⟨id, -, rfl⟩ := List.mem_map.mp hact
    trivial

end Toa.Identity.Keys
