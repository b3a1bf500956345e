import Mathlib.Algebra.Order.Round
import Mathlib.Data.Rat.Floor
import Mathlib.Logic.Function.Basic
import Mathlib.Tactic.Linarith
import Mathlib.Tactic.Positivity
import Toa.Lib.Assoc

/-! A quota for each key, metered by the moment the key would be back at zero. Moments and durations are
milliseconds, and `fl` is what the result of an operation on them is rounded to: `id` where time is
exact. -/

set_option linter.unusedSectionVars false

namespace Toa.Throttle
open Assoc

variable {ξ π ω κ : Type*} [DecidableEq ξ] [DecidableEq κ]

structure Entry where
  tat : ℚ
  debt : ℚ
  deriving DecidableEq

def Entry.delta (e : Entry) : ℤ := round e.debt

def Entry.quiet (now : ℚ) (e : Entry) : Bool := decide (e.delta ≤ 0) && decide (e.tat ≤ now)

/-- What is charged to a key, what was reported of it, and that it was dropped. -/
inductive Event (κ : Type*)
  | charged (key : κ) (amount : ℚ)
  | reported (key : κ) (delta : ℤ)
  | dropped (key : κ)

/-- `get` and `matched` are those of the keys, of a context `ξ` and of an output `ω`. -/
structure Options (ξ π ω κ : Type*) where
  get : ξ → List π → Option κ
  matched : ξ → ω → Bool
  requests : ℕ
  interval : ℕ
  conditional : Bool
  requests_pos : 0 < requests
  interval_pos : 0 < interval

namespace Options

def emission (fl : ℚ → ℚ) (o : Options ξ π ω κ) : ℚ := fl (o.interval / o.requests)

def capacity (o : Options ξ π ω κ) : ℚ := o.interval

theorem emission_pos (o : Options ξ π ω κ) : 0 < o.emission id :=
  div_pos (Nat.cast_pos.mpr o.interval_pos) (Nat.cast_pos.mpr o.requests_pos)

theorem emission_le_capacity (o : Options ξ π ω κ) : o.emission id ≤ o.capacity := by
  have hone : (1 : ℚ) ≤ o.requests := by exact_mod_cast o.requests_pos
  have hinterval : (0 : ℚ) ≤ o.interval := Nat.cast_nonneg _
  exact div_le_self hinterval hone

end Options

/-- Nothing reads `log`, which is latest first. -/
structure Quotas (ξ κ : Type*) where
  entries : List (κ × Entry)
  nodup : (entries.map Prod.fst).Nodup
  keyed : ξ → Option κ
  log : List (Event κ)

namespace Quotas

def init : Quotas ξ κ := ⟨[], List.nodup_nil, fun _ => none, []⟩

def entry (q : Quotas ξ κ) (key : κ) : Option Entry := q.entries.lookup key

def tat (q : Quotas ξ κ) (key : κ) (now : ℚ) : ℚ := max (((q.entry key).map Entry.tat).getD now) now

def set (q : Quotas ξ κ) (key : κ) (new : Entry) (more : Entry → Entry) : Quotas ξ κ :=
  { q with entries := gather key new more q.entries, nodup := nodup_gather q.nodup }

def noted (q : Quotas ξ κ) (e : Event κ) : Quotas ξ κ := { q with log := e :: q.log }

theorem nodup_filter (q : Quotas ξ κ) (p : κ × Entry → Bool) :
    ((q.entries.filter p).map Prod.fst).Nodup :=
  q.nodup.sublist (List.filter_sublist.map _)

section
variable (fl : ℚ → ℚ) (o : Options ξ π ω κ)

def charge (q : Quotas ξ κ) (key : κ) (tat : ℚ) : Quotas ξ κ :=
  (q.set key ⟨fl (tat + o.emission fl), o.emission fl⟩ fun e =>
    ⟨fl (tat + o.emission fl), fl (e.debt + o.emission fl)⟩).noted (.charged key (o.emission fl))

def admitAt (q : Quotas ξ κ) (key : κ) (now : ℚ) : ℚ :=
  fl (fl (q.tat key now + o.emission fl) - o.capacity)

/-- Seconds to wait, or zero. -/
def check (q : Quotas ξ κ) (x : ξ) (ps : List π) (now : ℚ) : ℤ × Quotas ξ κ :=
  match o.get x ps with
  | none => (0, q)
  | some key =>
    let keyed := { q with keyed := Function.update q.keyed x (some key) }
    if now < q.admitAt fl o key now then (⌈fl (fl (q.admitAt fl o key now - now) / 1000)⌉, keyed)
    else (0, if o.conditional then keyed else keyed.charge fl o key (q.tat key now))

def use (q : Quotas ξ κ) (x : ξ) (output : ω) (now : ℚ) : Quotas ξ κ :=
  if o.conditional = false ∨ o.matched x output = false then q
  else match (q.keyed x).or (o.get x []) with
    | none => q
    | some key => q.charge fl o key (q.tat key now)

end

def flush (q : Quotas ξ κ) (now : ℚ) : List (κ × ℤ) × Quotas ξ κ :=
  (q.entries.filterMap fun e => if 0 < e.2.delta then some (e.1, e.2.delta) else none,
    { q with
      entries := q.entries.filter fun e => !e.2.quiet now
      nodup := q.nodup_filter _
      log := ((q.entries.filter fun e => e.2.quiet now).map fun e => .dropped e.1).reverse ++ q.log })

def settled (fl : ℚ → ℚ) (q : Quotas ξ κ) (key : κ) (delta : ℤ) (debt now : ℚ) : Quotas ξ κ :=
  match q.entry key with
  | none => if 0 < debt then q.set key ⟨fl (now + debt), 0⟩ id else q
  | some e =>
    let kept : Entry := ⟨max e.tat (fl (now + debt)), fl (e.debt - delta)⟩
    q.set key kept fun _ => kept

theorem entry_set (q : Quotas ξ κ) (key k : κ) (new : Entry) (more : Entry → Entry) :
    (q.set key new more).entry k = if k = key then some ((q.entry key).elim new more) else q.entry k :=
  lookup_gather key k new more q.entries

theorem entry_flush (q : Quotas ξ κ) (now : ℚ) (k : κ) :
    (q.flush now).2.entry k = (q.entry k).filter fun e => !e.quiet now :=
  lookup_filter q.nodup _ k

theorem nodup_flush (q : Quotas ξ κ) (now : ℚ) : ((q.flush now).1.map Prod.fst).Nodup := by
  have hkeys : (q.flush now).1.map Prod.fst =
      (q.entries.filter fun e => decide (0 < e.2.delta)).map Prod.fst := by
    rw [flush, List.map_filterMap, ← List.filterMap_eq_filter, List.map_filterMap]
    congr 1
    funext e
    by_cases he : 0 < e.2.delta
    · simp only [he, if_true, Option.map_some, Option.guard, decide_true]
    · simp only [he, if_false, Option.map_none, Option.guard, decide_false, Bool.false_eq_true]
  rw [hkeys]
  exact q.nodup_filter _

theorem tat_none {q : Quotas ξ κ} {key : κ} (h : q.entry key = none) (now : ℚ) : q.tat key now = now := by
  rw [tat, h]
  exact max_self now

theorem tat_some {q : Quotas ξ κ} {key : κ} {e : Entry} (h : q.entry key = some e) (now : ℚ) :
    q.tat key now = max e.tat now := by
  rw [tat, h]
  rfl

theorem le_tat (q : Quotas ξ κ) (key : κ) (now : ℚ) : now ≤ q.tat key now := le_max_right _ _

theorem tat_later (q : Quotas ξ κ) (key : κ) {now now' : ℚ} (h : now ≤ now') :
    q.tat key now' = max (q.tat key now) now' := by
  cases he : q.entry key with
  | none => rw [tat_none he, tat_none he, max_eq_right h]
  | some e => rw [tat_some he, tat_some he, max_assoc, max_eq_right h]

theorem tat_set (q : Quotas ξ κ) (key k : κ) (new : Entry) (more : Entry → Entry) (now : ℚ) :
    (q.set key new more).tat k now =
      if k = key then max ((q.entry key).elim new more).tat now else q.tat k now := by
  rw [tat, entry_set]
  split_ifs <;> rfl

theorem tat_charge (o : Options ξ π ω κ) (q : Quotas ξ κ) (key k : κ) (moment now : ℚ) :
    (q.charge id o key moment).tat k now =
      if k = key then max (moment + o.emission id) now else q.tat k now := by
  change (q.set key _ _).tat k now = _
  rw [tat_set]
  cases q.entry key <;> rfl

theorem tat_flush (q : Quotas ξ κ) (k : κ) {now now' : ℚ} (h : now ≤ now') :
    (q.flush now).2.tat k now' = q.tat k now' := by
  have hflush := entry_flush q now k
  cases he : q.entry k with
  | none =>
    rw [he, Option.filter_none] at hflush
    rw [tat_none hflush, tat_none he]
  | some e =>
    rw [he, Option.filter_some] at hflush
    split_ifs at hflush with hquiet
    · rw [tat_some hflush, tat_some he]
    · simp only [Bool.not_eq_true, Bool.not_eq_false', Entry.quiet, Bool.and_eq_true,
        decide_eq_true_eq] at hquiet
      rw [tat_none hflush, tat_some he, max_eq_right (hquiet.2.trans h)]

theorem tat_settled (q : Quotas ξ κ) (key k : κ) (delta : ℤ) (debt : ℚ) {now now' : ℚ} (h : now ≤ now') :
    (q.settled id key delta debt now).tat k now' =
      if k = key then max (now + debt) (q.tat k now') else q.tat k now' := by
  unfold settled
  cases he : q.entry key with
  | none =>
    dsimp only
    split_ifs with hdebt hk hk
    · rw [tat_set, if_pos hk, he, hk, tat_none he]
      rfl
    · rw [tat_set, if_neg hk]
    · have hle : now + debt ≤ now' := by linarith
      subst hk
      change q.tat k now' = _
      rw [tat_none he, max_eq_right hle]
    · rfl
  | some e =>
    dsimp only
    rw [tat_set]
    split_ifs with hk
    · rw [he, hk, tat_some he, Option.elim_some, id_eq, max_comm e.tat, max_assoc]
    · rfl

end Quotas

inductive Act (ξ π ω κ : Type*)
  | check (x : ξ) (ps : List π) (now : ℚ)
  | use (x : ξ) (output : ω) (now : ℚ)
  | flush (now : ℚ)
  | settled (key : κ) (delta : ℤ) (debt now : ℚ)

def Act.now : Act ξ π ω κ → ℚ
  | .check _ _ now | .use _ _ now | .flush now | .settled _ _ _ now => now

def Act.Of (o : Options ξ π ω κ) (key : κ) : Act ξ π ω κ → Prop
  | .check x ps _ => o.get x ps = some key
  | .settled key' _ _ _ => key' = key
  | _ => False

namespace Quotas
section
variable (fl : ℚ → ℚ) (o : Options ξ π ω κ)

def step (q : Quotas ξ κ) : Act ξ π ω κ → Quotas ξ κ
  | .check x ps now => (q.check fl o x ps now).2
  | .use x output now => q.use fl o x output now
  | .flush now => (q.flush now).2
  | .settled key delta debt now => q.settled fl key delta debt now

def run (q : Quotas ξ κ) (acts : List (Act ξ π ω κ)) : Quotas ξ κ := acts.foldl (step fl o) q

def answers (q : Quotas ξ κ) : List (Act ξ π ω κ) → List ℤ
  | [] => []
  | .check x ps now :: acts => (q.check fl o x ps now).1 :: (q.check fl o x ps now).2.answers acts
  | a :: acts => (q.step fl o a).answers acts

def admits (q : Quotas ξ κ) (key : κ) : Act ξ π ω κ → Bool
  | .check x ps now => decide (o.get x ps = some key) && decide ((q.check fl o x ps now).1 = 0)
  | _ => false

/-- How many requests of the key are admitted from `s` to `t`. -/
def admitted (key : κ) (s t : ℚ) (q : Quotas ξ κ) : List (Act ξ π ω κ) → ℕ
  | [] => 0
  | a :: acts =>
    (if q.admits fl o key a = true ∧ s ≤ a.now ∧ a.now ≤ t then 1 else 0) + (q.step fl o a).admitted key s t acts

def raises (q : Quotas ξ κ) (k : κ) : Act ξ π ω κ → Option ℚ
  | .check x ps now =>
    if o.get x ps = some k ∧ q.admitAt fl o k now ≤ now then some (fl (q.tat k now + o.emission fl))
    else none
  | .settled key _ debt now => if k = key then some (fl (now + debt)) else none
  | _ => none

variable {o}

theorem answer_pos {x : ℚ} (h : 0 < x) : 0 < ⌈x / 1000⌉ :=
  Int.ceil_pos.mpr (div_pos h (by norm_num))

theorem check_answer (q : Quotas ξ κ) {x : ξ} {ps : List π} {key : κ} (hkey : o.get x ps = some key)
    (now : ℚ) : (q.check id o x ps now).1 =
      if now < q.admitAt id o key now then ⌈(q.admitAt id o key now - now) / 1000⌉ else 0 := by
  simp only [check, hkey]
  split_ifs <;> rfl

theorem check_eq_zero {q : Quotas ξ κ} {x : ξ} {ps : List π} {key : κ} {now : ℚ}
    (hkey : o.get x ps = some key) : (q.check id o x ps now).1 = 0 ↔ q.admitAt id o key now ≤ now := by
  rw [check_answer q hkey]
  split_ifs with hadmits
  · have hpos := answer_pos (sub_pos.mpr hadmits)
    exact iff_of_false hpos.ne' (not_le.mpr hadmits)
  · exact iff_of_true rfl (not_lt.mp hadmits)

theorem check_of_refused {q : Quotas ξ κ} {x : ξ} {ps : List π} {key : κ} {now : ℚ}
    (hkey : o.get x ps = some key) (h : 0 < (q.check id o x ps now).1) :
    q.admitAt id o key now - now ≤ 1000 * (q.check id o x ps now).1 := by
  rw [check_answer q hkey] at h ⊢
  split_ifs at h ⊢
  · have hceil := Int.le_ceil ((q.admitAt id o key now - now) / 1000)
    linarith
  · exact absurd h (lt_irrefl 0)

theorem admits_iff {q : Quotas ξ κ} {key : κ} {a : Act ξ π ω κ} :
    q.admits id o key a = true ↔ q.raises id o key a = some (q.tat key a.now + o.emission id) ∧
      q.admitAt id o key a.now ≤ a.now ∧ ∃ x ps, a = .check x ps a.now ∧ o.get x ps = some key := by
  cases a with
  | check x ps now =>
    simp only [admits, raises, Act.now, Bool.and_eq_true, decide_eq_true_eq]
    constructor
    · rintro ⟨hkey, hzero⟩
      have hadmits := (check_eq_zero hkey).mp hzero
      exact ⟨if_pos ⟨hkey, hadmits⟩, hadmits, x, ps, rfl, hkey⟩
    · rintro ⟨-, hadmits, x', ps', heq, hkey⟩
      obtain ⟨rfl, rfl, -⟩ := Act.check.inj heq
      exact ⟨hkey, (check_eq_zero hkey).mpr hadmits⟩
  | use | flush | settled => simp [admits, raises]

theorem tat_step (ho : o.conditional = false) (q : Quotas ξ κ) {a : Act ξ π ω κ} {now' : ℚ}
    (h : a.now ≤ now') (k : κ) :
    (q.step id o a).tat k now' = (q.raises id o k a).elim (q.tat k now') fun m => max m (q.tat k now') := by
  cases a with
  | check x ps now =>
    change now ≤ now' at h
    simp only [step, check, raises]
    cases hkey : o.get x ps with
    | none =>
      rw [if_neg fun hk => by cases hk.1]
      rfl
    | some key =>
      simp only [Option.some.injEq]
      -- a refusal raises no key, and an admission its own by one emission
      by_cases hadmits : now < q.admitAt id o key now
      · rw [if_pos hadmits, if_neg]
        · rfl
        · rintro ⟨rfl, hle⟩
          exact absurd hadmits (not_lt.mpr hle)
      · rw [if_neg hadmits, ho, if_neg Bool.false_ne_true, tat_charge]
        by_cases hk : k = key
        · subst hk
          have hle : q.tat k now ≤ q.tat k now + o.emission id := le_add_of_nonneg_right o.emission_pos.le
          rw [if_pos rfl, if_pos ⟨rfl, not_lt.mp hadmits⟩, q.tat_later k h]
          change max _ now' = max (q.tat k now + o.emission id) (max _ now')
          rw [← max_assoc, max_eq_left hle]
        · rw [if_neg hk, if_neg fun hand => hk hand.1.symm]
          rfl
  | use x output now =>
    simp only [step, use, ho, true_or, if_true, raises]
    rfl
  | flush now => exact tat_flush q k h
  | settled key delta debt now =>
    change now ≤ now' at h
    simp only [step, raises]
    rw [tat_settled q key k delta debt h]
    split_ifs <;> rfl

theorem tat_le_step (ho : o.conditional = false) (q : Quotas ξ κ) {a : Act ξ π ω κ} {now' : ℚ}
    (h : a.now ≤ now') (k : κ) : q.tat k now' ≤ (q.step id o a).tat k now' := by
  rw [tat_step ho q h]
  cases q.raises id o k a with
  | none => exact le_rfl
  | some m => exact le_max_right _ _

theorem raises_eq_none {q : Quotas ξ κ} {k : κ} {a : Act ξ π ω κ} (h : ¬a.Of o k) :
    q.raises id o k a = none := by
  cases a with
  | check x ps now => exact if_neg fun hand => h hand.1
  | settled key delta debt now => exact if_neg fun heq => h heq.symm
  | use | flush => rfl

theorem tat_run (ho : o.conditional = false) (q : Quotas ξ κ) {acts : List (Act ξ π ω κ)} {now' : ℚ}
    {k : κ} (h : ∀ a ∈ acts, a.now ≤ now' ∧ ¬a.Of o k) : (q.run id o acts).tat k now' = q.tat k now' := by
  induction acts generalizing q with
  | nil => rfl
  | cons a acts ih =>
    obtain ⟨hnow, hof⟩ := h a List.mem_cons_self
    have hrest := ih (q.step id o a) fun b hb => h b (List.mem_cons_of_mem _ hb)
    have hstep := tat_step ho q hnow k
    rw [raises_eq_none hof] at hstep
    exact hrest.trans hstep

/-- What is admitted after `x` is admitted no faster than it drains. -/
theorem admitted_le (ho : o.conditional = false) {key : κ} {s t : ℚ} (q : Quotas ξ κ)
    {acts : List (Act ξ π ω κ)} (hsorted : acts.Pairwise (·.now ≤ ·.now)) {x : ℚ}
    (hx : ∀ a ∈ acts, s ≤ a.now → x ≤ q.tat key a.now) (hsome : 0 < q.admitted id o key s t acts) :
    x + q.admitted id o key s t acts * o.emission id ≤ t + o.capacity := by
  induction acts generalizing q x with
  | nil => exact absurd hsome (lt_irrefl 0)
  | cons a acts ih =>
    obtain ⟨hlater, hsorted⟩ := List.pairwise_cons.mp hsorted
    -- the rest is measured from `x`, which an admission moves on by one emission
    by_cases hadmits : q.admits id o key a = true ∧ s ≤ a.now ∧ a.now ≤ t
    · obtain ⟨hraises, hnow, -⟩ := admits_iff.mp hadmits.1
      have ha : x ≤ q.tat key a.now := hx a List.mem_cons_self hadmits.2.1
      have hnext : ∀ b ∈ acts, s ≤ b.now → x + o.emission id ≤ (q.step id o a).tat key b.now := by
        intro b hb _
        rw [tat_step ho q (hlater b hb), hraises]
        exact le_max_of_le_left (add_le_add_left ha _)
      have hcount : q.admitted id o key s t (a :: acts) = 1 + (q.step id o a).admitted id o key s t acts :=
        congrArg (· + _) (if_pos hadmits)
      rw [hcount] at hsome ⊢
      push_cast
      rcases Nat.eq_zero_or_pos ((q.step id o a).admitted id o key s t acts) with hzero | hpos
      · have hle : q.tat key a.now + o.emission id - o.capacity ≤ a.now := hnow
        rw [hzero, Nat.cast_zero]
        linarith [hadmits.2.2]
      · have hrest := ih (q.step id o a) hsorted hnext hpos
        linarith
    · have hcount : q.admitted id o key s t (a :: acts) = 0 + (q.step id o a).admitted id o key s t acts :=
        congrArg (· + _) (if_neg hadmits)
      rw [hcount, Nat.zero_add] at hsome ⊢
      apply ih (q.step id o a) hsorted ?_ hsome
      intro b hb hs
      exact (hx b (List.mem_cons_of_mem _ hb) hs).trans (tat_le_step ho q (hlater b hb) key)

def drop (q : Quotas ξ κ) (dropped : κ → Bool) : Quotas ξ κ :=
  { q with
    entries := q.entries.filter fun e => !dropped e.1
    nodup := q.nodup_filter _ }

theorem tat_drop {q : Quotas ξ κ} {dropped : κ → Bool} {now now' : ℚ}
    (hquiet : ∀ k e, q.entry k = some e → dropped k = true → e.quiet now = true) (h : now ≤ now')
    (k : κ) : (q.drop dropped).tat k now' = q.tat k now' := by
  have hentry : (q.drop dropped).entry k = (q.entry k).filter fun _ => !dropped k :=
    lookup_filter q.nodup _ k
  cases he : q.entry k with
  | none =>
    rw [he, Option.filter_none] at hentry
    rw [tat_none hentry, tat_none he]
  | some e =>
    rw [he, Option.filter_some] at hentry
    split_ifs at hentry with hkept
    · rw [tat_some hentry, tat_some he]
    · simp only [Bool.not_eq_true, Bool.not_eq_false'] at hkept
      have hle := hquiet k e he hkept
      simp only [Entry.quiet, Bool.and_eq_true, decide_eq_true_eq] at hle
      rw [tat_none hentry, tat_some he, max_eq_right (hle.2.trans h)]

theorem answers_congr (ho : o.conditional = false) {q q' : Quotas ξ κ} {acts : List (Act ξ π ω κ)}
    (hsorted : acts.Pairwise (·.now ≤ ·.now)) (h : ∀ a ∈ acts, ∀ k, q.tat k a.now = q'.tat k a.now) :
    q.answers id o acts = q'.answers id o acts := by
  induction acts generalizing q q' with
  | nil => rfl
  | cons a acts ih =>
    obtain ⟨hlater, hsorted⟩ := List.pairwise_cons.mp hsorted
    have ha := h a List.mem_cons_self
    have hraises : ∀ k, q.raises id o k a = q'.raises id o k a := by
      intro k
      cases a with
      | check x ps now =>
        have hk : q.tat k now = q'.tat k now := ha k
        have hadmits : q.admitAt id o k now = q'.admitAt id o k now := by rw [admitAt, admitAt, hk]
        simp only [raises, hadmits, hk]
      | use | flush | settled => rfl
    have hrest : (q.step id o a).answers id o acts = (q'.step id o a).answers id o acts := by
      apply ih hsorted
      intro b hb k
      have hnow := hlater b hb
      rw [tat_step ho q hnow, tat_step ho q' hnow, hraises, h b (List.mem_cons_of_mem _ hb)]
    cases a with
    | check x ps now =>
      have hanswer : (q.check id o x ps now).1 = (q'.check id o x ps now).1 := by
        cases hkey : o.get x ps with
        | none => simp only [check, hkey]
        | some key =>
          have hk : q.tat key now = q'.tat key now := ha key
          rw [check_answer q hkey, check_answer q' hkey, admitAt, admitAt, hk]
      exact congrArg₂ List.cons hanswer hrest
    | use | flush | settled => exact hrest

/-- What is admitted in any interval is bounded, what is refused is admitted once it has waited, and
a quiet key says no more than an absent one. -/
theorem quota_bound (ho : o.conditional = false) :
    (∀ (q : Quotas ξ κ) (acts : List (Act ξ π ω κ)), acts.Pairwise (·.now ≤ ·.now) → ∀ key s t, s ≤ t →
      q.admitted id o key s t acts * o.emission id ≤ o.capacity + (t - s)) ∧
    (∀ (q : Quotas ξ κ) x ps key now, o.get x ps = some key → 0 < (q.check id o x ps now).1 →
      ∀ (acts : List (Act ξ π ω κ)) now', (∀ a ∈ acts, a.now ≤ now' ∧ ¬a.Of o key) →
        now + 1000 * (q.check id o x ps now).1 ≤ now' →
        (((q.check id o x ps now).2.run id o acts).check id o x ps now').1 = 0) ∧
    ∀ (q : Quotas ξ κ) dropped now,
      (∀ k e, q.entry k = some e → dropped k = true → e.quiet now = true) →
      ∀ acts : List (Act ξ π ω κ), acts.Pairwise (·.now ≤ ·.now) → (∀ a ∈ acts, now ≤ a.now) →
        (q.drop dropped).answers id o acts = q.answers id o acts := by
  refine ⟨?_, ?_, ?_⟩
  · intro q acts hsorted key s t hst
    rcases Nat.eq_zero_or_pos (q.admitted id o key s t acts) with hzero | hpos
    · have hcapacity : 0 ≤ o.capacity := o.emission_pos.le.trans o.emission_le_capacity
      rw [hzero, Nat.cast_zero]
      linarith
    · have hfrom : ∀ a ∈ acts, s ≤ a.now → s ≤ q.tat key a.now :=
        fun a _ hs => hs.trans (q.le_tat key a.now)
      have hle := admitted_le ho q hsorted hfrom hpos
      linarith
  · intro q x ps key now hkey hrefused acts now' hacts hwait
    rw [check_eq_zero hkey, admitAt, tat_run ho _ hacts]
    have hadmits : now < q.admitAt id o key now := by
      rw [← not_le, ← check_eq_zero hkey]
      exact hrefused.ne'
    have hsame : (q.check id o x ps now).2.tat key now' = q.tat key now' := by
      simp only [check, hkey, if_pos hadmits]
      rfl
    have hdelay := check_of_refused hkey hrefused
    have hpos : (0 : ℚ) < (q.check id o x ps now).1 := by exact_mod_cast hrefused
    have hnow : now ≤ now' := by linarith
    have hcapacity := o.emission_le_capacity
    rw [admitAt, id_eq, id_eq] at hdelay
    rw [hsame, q.tat_later key hnow]
    rcases max_cases (q.tat key now) now' with ⟨heq, -⟩ | ⟨heq, -⟩ <;> rw [heq, id_eq, id_eq] <;> linarith
  · intro q dropped now hquiet acts hsorted hacts
    exact answers_congr ho hsorted fun a ha k => tat_drop hquiet (hacts a ha) k

def two : Options Unit Unit Unit Unit where
  get := fun _ _ => some ()
  matched := fun _ _ => true
  requests := 2
  interval := 10000
  conditional := false
  requests_pos := Nat.two_pos
  interval_pos := Nat.succ_pos 9999

def burst : List (Act Unit Unit Unit Unit) := [.check () [] 0, .check () [] 0]

def spent : List (Act Unit Unit Unit Unit) := [.check () [] 0, .settled () 5000 0 1]

theorem quota_bound_two :
    ((init.admitted id two () 0 0 burst : ℕ) : ℚ) * two.emission id ≤ two.capacity + (0 - 0) ∧
      ((((init.run id two burst).check id two () [] 0).2.run id two [.flush 1000]).check id two () [] 5000).1 = 0 ∧
      ((init.run id two spent).drop fun _ => true).answers id two [.check () [] 7000] =
        (init.run id two spent).answers id two [.check () [] 7000] := by
  obtain ⟨hbound, hretry, hdrop⟩ := quota_bound (o := two) rfl
  refine ⟨?_, ?_, ?_⟩
  · refine hbound init burst ?_ () 0 0 le_rfl
    exact List.pairwise_pair.mpr le_rfl
  · have hfive : ((init.run id two burst).check id two () [] 0).1 = 5 := by decide +kernel
    apply hretry (init.run id two burst) () [] () 0 rfl
    · rw [hfive]
      decide
    · intro a ha
      obtain rfl := List.mem_singleton.mp ha
      exact ⟨by norm_num [Act.now], not_false⟩
    · rw [hfive]
      norm_num
  · apply hdrop (init.run id two spent) (fun _ => true) 6000
    · intro k e he _
      have hspent : (init.run id two spent).entry () = some ⟨5000, 0⟩ := by decide +kernel
      obtain rfl := Option.some.inj (hspent.symm.trans he)
      decide +kernel
    · exact List.pairwise_singleton _ _
    · intro a ha
      obtain rfl := List.mem_singleton.mp ha
      norm_num [Act.now]

end
end Quotas
end Toa.Throttle
