import Mathlib.Algebra.Order.Group.Int
import Mathlib.Data.List.Basic
import Mathlib.Logic.Function.Basic
import Toa.Lib.Bucket
import Toa.Lib.Run

/-! Debt shared with every process that meters under the same key. A key is kept for as long as there is debt on
it and a while after, and one that was kept too long may be gone at any moment. -/

set_option linter.unusedSectionVars false

namespace Toa.Atomicity.Meter
open Run Bucket
variable {κ : Type*} [DecidableEq κ]

def GRACE : ℤ := 10000

def CHUNK : ℕ := 2000

/-- What is held under a key, and the last moment it is held. -/
structure Entry where
  debt : ℤ
  moment : ℤ
  expires : ℤ
deriving DecidableEq

structure Report (κ : Type*) where
  now : ℤ
  key : κ
  delta : ℤ
deriving DecidableEq

/-- The store, by the clock it has, with what it was told and what it answered, the latest first. -/
structure Store (κ : Type*) where
  now : ℤ
  entries : κ → Option Entry
  reported : List (Report κ) := []
  answered : List ℤ := []

namespace Store

def read (s : Store κ) (key : κ) : Option Entry := (s.entries key).filter fun entry => s.now ≤ entry.expires

def debt (s : Store κ) (key : κ) (delta : ℤ) : ℤ :=
  match s.read key with
  | none => max 0 (0 - (s.now - s.now)) + delta
  | some entry => max 0 (entry.debt - (s.now - entry.moment)) + delta

def report (s : Store κ) (pair : κ × ℤ) : Store κ :=
  let debt := s.debt pair.1 pair.2
  { s with
    entries := Function.update s.entries pair.1 (some ⟨debt, s.now, s.now + (debt + GRACE)⟩)
    reported := ⟨s.now, pair.1, pair.2⟩ :: s.reported
    answered := debt :: s.answered }

def call (s : Store κ) (pairs : List (κ × ℤ)) : Store κ := pairs.foldl report s

end Store

def chunks (pairs : List (κ × ℤ)) : List (List (κ × ℤ)) :=
  if pairs.length ≤ CHUNK then [pairs] else pairs.take CHUNK :: chunks (pairs.drop CHUNK)
termination_by pairs.length
decreasing_by
  have hpos : 0 < CHUNK := by decide
  rw [List.length_drop]
  omega

theorem length_le_of_mem_chunks {pairs chunk : List (κ × ℤ)} (h : chunk ∈ chunks pairs) :
    chunk.length ≤ CHUNK := by
  induction pairs using chunks.induct with
  | case1 pairs hshort =>
    rw [chunks, if_pos hshort] at h
    exact List.mem_singleton.mp h ▸ hshort
  | case2 pairs hlong ih =>
    rw [chunks, if_neg hlong] at h
    obtain rfl | hrest := List.mem_cons.mp h
    · exact List.length_take_le ..
    · exact ih hrest

/-- A batch that is split is answered as it is whole, where nothing comes between its calls. -/
theorem call_chunks (s : Store κ) (pairs : List (κ × ℤ)) : (chunks pairs).foldl Store.call s = s.call pairs := by
  induction pairs using chunks.induct generalizing s with
  | case1 pairs hshort => rw [chunks, if_pos hshort, List.foldl_cons, List.foldl_nil]
  | case2 pairs hlong ih =>
    rw [chunks, if_neg hlong, List.foldl_cons, ih, Store.call, Store.call, Store.call, ← List.foldl_append,
      List.take_append_drop]

inductive Act (κ : Type*)
  | tick (now : ℤ)
  | expire (key : κ)
  | call (pairs : List (κ × ℤ))

def step (s : Store κ) : Act κ → Option (Store κ)
  | .tick now => if s.now ≤ now then some { s with now } else none
  | .expire key =>
    if (s.entries key).any fun entry => entry.expires < s.now then
      some { s with entries := Function.update s.entries key none }
    else none
  | .call pairs => some (s.call pairs)

/-- What was reported under a key, the latest first. -/
def history (key : κ) (reports : List (Report κ)) : List (ℤ × ℤ) :=
  (reports.filter fun report => report.key = key).map fun report => (report.now, report.delta)

theorem history_cons_self (report : Report κ) (reports : List (Report κ)) :
    history report.key (report :: reports) = (report.now, report.delta) :: history report.key reports := by
  rw [history, List.filter_cons_of_pos (by simp), List.map_cons, history]

theorem history_cons_of_ne {key : κ} {report : Report κ} (h : report.key ≠ key) (reports : List (Report κ)) :
    history key (report :: reports) = history key reports := by
  rw [history, List.filter_cons_of_neg (by simpa using h), history]

/-! ## A key that is gone is one with nothing on it -/

/-- What is held under a key: the level of a bucket that never forgets, or nothing where that level has been zero
for a while. -/
def Held (s : Store κ) (key : κ) : Prop :=
  match history key s.reported with
  | [] => s.entries key = none
  | last :: rest =>
    s.entries key = some ⟨level (last :: rest), last.1, last.1 + (level (last :: rest) + GRACE)⟩ ∨
      s.entries key = none ∧ last.1 + (level (last :: rest) + GRACE) < s.now

theorem debt_of_none {s : Store κ} {key : κ} (h : s.read key = none) (delta : ℤ) : s.debt key delta = delta := by
  rw [Store.debt, h]
  simp

theorem found_of_late {now : ℤ} {last : ℤ × ℤ} {rest : List (ℤ × ℤ)}
    (h : last.1 + (level (last :: rest) + GRACE) < now) : found now (last :: rest) = 0 := by
  have hgrace : 0 < GRACE := by decide
  refine max_eq_left ?_
  omega

theorem debt_eq {s : Store κ} {key : κ} (h : Held s key) (delta : ℤ) :
    s.debt key delta = level ((s.now, delta) :: history key s.reported) := by
  rw [level_cons]
  unfold Held at h
  cases hhistory : history key s.reported with
  | nil =>
    rw [hhistory] at h
    have hread : s.read key = none := by rw [Store.read, h]; rfl
    rw [debt_of_none hread, found, zero_add]
  | cons last rest =>
    rw [hhistory] at h
    dsimp only at h ⊢
    obtain hheld | ⟨hgone, hlate⟩ := h
    · by_cases hlate : last.1 + (level (last :: rest) + GRACE) < s.now
      · have hread : s.read key = none := by
          rw [Store.read, hheld, Option.filter_some, if_neg (by simpa using hlate)]
        rw [debt_of_none hread, found_of_late hlate, zero_add]
      · have hread : s.read key =
            some ⟨level (last :: rest), last.1, last.1 + (level (last :: rest) + GRACE)⟩ := by
          rw [Store.read, hheld, Option.filter_some, if_pos (by simpa using hlate)]
        rw [Store.debt, hread]
        rfl
    · have hread : s.read key = none := by rw [Store.read, hgone]; rfl
      rw [debt_of_none hread, found_of_late hlate, zero_add]

/-! ## Every answer is that of the bucket -/

structure Inv (s : Store κ) : Prop where
  held : ∀ key, Held s key
  answered : ∀ newer report older, s.reported = newer ++ report :: older →
    s.answered[newer.length]? = some (level ((report.now, report.delta) :: history report.key older))

theorem inv_report {s : Store κ} (h : Inv s) (pair : κ × ℤ) : Inv (s.report pair) where
  held key := by
    unfold Held
    by_cases hsame : pair.1 = key
    · subst hsame
      have hhistory : history pair.1 (s.report pair).reported = (s.now, pair.2) :: history pair.1 s.reported :=
        history_cons_self ⟨s.now, pair.1, pair.2⟩ s.reported
      have hdebt := debt_eq (h.held pair.1) pair.2
      rw [hhistory]
      refine .inl ?_
      rw [← hdebt]
      exact Function.update_self ..
    · have hhistory : history key (s.report pair).reported = history key s.reported :=
        history_cons_of_ne hsame s.reported
      have hentries : (s.report pair).entries key = s.entries key :=
        Function.update_of_ne (Ne.symm hsame) _ _
      have hheld := h.held key
      unfold Held at hheld
      rw [hhistory, hentries]
      exact hheld
  answered newer report older heq := by
    cases newer with
    | nil =>
      obtain ⟨rfl, rfl⟩ := List.cons.inj heq
      exact congrArg some (debt_eq (h.held pair.1) pair.2)
    | cons latest newer => exact h.answered newer report older (List.cons.inj heq).2

theorem inv_call {s : Store κ} (h : Inv s) (pairs : List (κ × ℤ)) : Inv (s.call pairs) := by
  induction pairs generalizing s with
  | nil => exact h
  | cons pair pairs ih => exact ih (inv_report h pair)

theorem inv_step {s t : Store κ} {a : Act κ} (h : Inv s) (hstep : step s a = some t) : Inv t := by
  cases a with
  | tick now =>
    obtain ⟨hle, hstep⟩ := Option.ite_none_right_eq_some.mp hstep
    obtain rfl := Option.some.inj hstep
    refine ⟨fun key => ?_, h.answered⟩
    have hheld := h.held key
    unfold Held at hheld ⊢
    dsimp only
    split
    next hhistory => simpa only [hhistory] using hheld
    next last rest hhistory =>
      simp only [hhistory] at hheld
      exact hheld.imp_right fun hgone => ⟨hgone.1, hgone.2.trans_le hle⟩
  | expire key =>
    obtain ⟨hexpired, hstep⟩ := Option.ite_none_right_eq_some.mp hstep
    obtain rfl := Option.some.inj hstep
    refine ⟨fun other => ?_, h.answered⟩
    have hheld := h.held other
    by_cases hsame : other = key
    · subst hsame
      unfold Held at hheld ⊢
      dsimp only
      split
      · exact Function.update_self ..
      next last rest hhistory =>
        simp only [hhistory] at hheld
        refine .inr ⟨Function.update_self .., ?_⟩
        obtain hentry | hgone := hheld
        · rw [hentry] at hexpired
          exact of_decide_eq_true hexpired
        · exact hgone.2
    · unfold Held at hheld ⊢
      dsimp only
      rw [Function.update_of_ne hsame]
      exact hheld
  | call pairs => exact Option.some.inj hstep ▸ inv_call h pairs

def empty (now : ℤ) : Store κ := { now, entries := fun _ => none }

theorem inv_empty (now : ℤ) : Inv (empty now : Store κ) where
  held _ := rfl
  answered newer _ _ h := by cases newer <;> cases h

/-- In every run of calls, by whatever processes, each report is answered with the greatest of what its windows
owe: what was reported under its key since any moment, less the time since. Keys that expire in between, early or
late, are never told by an answer. -/
theorem metered {now : ℤ} {s : Store κ} {acts : List (Act κ)} (hrun : run step (empty now) acts = some s)
    {newer older : List (Report κ)} {report : Report κ} (hreported : s.reported = newer ++ report :: older) :
    ∃ debt, s.answered[newer.length]? = some debt ∧
      IsGreatest (owed report.now (history report.key (report :: older))) debt := by
  have h : Inv s := run_invariant_all (fun _ _ _ => inv_step) (inv_empty now) hrun
  refine ⟨_, h.answered newer report older hreported, ?_⟩
  rw [history_cons_self]
  exact isGreatest_level (report.now, report.delta) (history report.key older)

/-! ### Two processes that report to one key, which expires after them -/

def expiring : List (Act ℕ) :=
  [.call [(0, 500), (1, 40)], .tick 100, .call [(0, 50), (0, 70)], .tick 20000, .expire 0, .call [(0, 30)]]

theorem metered_expiring : ∃ s : Store ℕ, run step (empty 0) expiring = some s ∧
    s.answered = [30, 520, 450, 40, 500] ∧
    IsGreatest (owed (100 : ℤ) [(100, 70), (100, 50), (0, 500)]) 520 := by
  refine ⟨_, rfl, rfl, ?_⟩
  obtain ⟨debt, hdebt, hgreatest⟩ := @metered ℕ _ 0 _ expiring rfl [⟨20000, 0, 30⟩]
    [⟨100, 0, 50⟩, ⟨0, 1, 40⟩, ⟨0, 0, 500⟩] ⟨100, 0, 70⟩ rfl
  obtain rfl : (520 : ℤ) = debt := Option.some.inj hdebt
  exact hgreatest

end Toa.Atomicity.Meter
