import Mathlib.Data.Fintype.Basic
import Toa.Continuity.Uninterrupted

/-! When a run is reaped. Every record of it carries the moment it is dropped at, which each attempt fixes
by its own clock, but where it recalled one. -/

set_option linter.unusedSectionVars false

namespace Toa.Continuity
open Toa.Run

variable {ι κ ν : Type*} [DecidableEq ι] [LinearOrder κ]

/-- A step of an attempt or of the journal, or the journal dropping what has expired. -/
inductive Turn (ι κ ν : Type*)
  | act (act : Act ι κ ν)
  | reap (now : ℕ)

def State.reaped (s : State ι κ ν) (now : ℕ) : State ι κ ν :=
  { s with journal := s.journal.filter fun r => now < r.expires }

def Move.now : Move κ ν → Option ℕ
  | .take _ now | .keep _ _ now => some now
  | _ => none

/-- What is fixed is `expires`: no record carries another, kept or in flight, and no attempt that is not
over. -/
def State.Fixes (s : State ι κ ν) (expires : ℕ) : Prop :=
  (∀ r ∈ s.journal, r.expires = expires) ∧ (∀ m ∈ s.sent, m.record.expires = expires) ∧
    ∀ a, ∀ t ∈ s.attempts a, t.live = true → ∀ fixed ∈ t.expires, fixed = expires

instance [Fintype ι] (s : State ι κ ν) (expires : ℕ) : Decidable (s.Fixes expires) :=
  inferInstanceAs (Decidable (_ ∧ _ ∧ _))

section
variable (hashing : Hashing κ) (id : List Char) (window : ℕ) (operation : Operation κ ν)

def turn (s : State ι κ ν) : Turn ι κ ν → Option (State ι κ ν)
  | .act act => step hashing id window operation s act
  | .reap now => some (s.reaped now)

/-- An attempt that recalled nothing keeps its first answer where nothing else is fixed. -/
def Alike (s : State ι κ ν) : Turn ι κ ν → Prop
  | .act (.move a m) => ∀ t ∈ s.attempts a, t.expires = none → ∀ now ∈ m.now,
      s.Fixes (now + window * 1000)
  | _ => True

instance [Fintype ι] (s : State ι κ ν) : ∀ t : Turn ι κ ν, Decidable (Alike window s t)
  | .act (.move a _) => inferInstanceAs (Decidable (∀ t ∈ s.attempts a, _))
  | .act (.begin _) | .act (.land _) | .act (.lose _) | .reap _ => instDecidableTrue

end

variable {hashing : Hashing κ} {id : List Char} {window : ℕ} {operation : Operation κ ν}

theorem recall_expires {journal : List (Record κ ν)} {expires : ℕ}
    (h : (Journal.recall journal).2 = some expires) : ∃ r ∈ journal, r.expires = expires := by
  obtain ⟨r, hr, rfl⟩ := Option.map_eq_some_iff.mp h
  exact ⟨r, (List.mem_insertionSort _).mp (List.mem_of_getLast? hr), rfl⟩

theorem expires_of_move {t : Attempt κ ν} {m : Move κ ν} {d : Moved κ ν}
    (h : t.move hashing id window operation m = some d) :
    (d.attempt.expires = t.expires ∧ d.made = []) ∨ ∃ now, m.now = some now ∧
      d.attempt.expires = some (t.expiry window now) ∧
        ∀ made ∈ d.made, made.2.expires = t.expiry window now := by
  cases m with
  | take value now =>
    simp only [Attempt.move] at h
    split at h
    · split at h <;> obtain rfl := Option.some.inj h
      · exact .inl ⟨rfl, rfl⟩
      · refine .inr ⟨now, rfl, rfl, fun made hmade => ?_⟩
        rw [List.mem_singleton.mp hmade]
    · cases h
  | keep key answer now =>
    simp only [Attempt.move] at h
    split at h
    · obtain rfl := Option.some.inj h
      refine .inr ⟨now, rfl, rfl, fun made hmade => ?_⟩
      rw [List.mem_singleton.mp hmade]
    · cases h
  | ask =>
    simp only [Attempt.move] at h
    split at h
    · split at h <;> obtain rfl := Option.some.inj h <;> exact .inl ⟨rfl, rfl⟩
    · cases h
  | make key =>
    simp only [Attempt.move] at h
    split at h
    · split at h
      · obtain rfl := Option.some.inj h
        exact .inl ⟨rfl, rfl⟩
      · cases h
    · cases h
  | answer key =>
    simp only [Attempt.move] at h
    split at h
    · obtain rfl := Option.some.inj h
      exact .inl ⟨rfl, rfl⟩
    · cases h
  | fail key =>
    simp only [Attempt.move] at h
    split at h
    · split at h
      · obtain rfl := Option.some.inj h
        exact .inl ⟨rfl, rfl⟩
      · cases h
    · cases h
  | stop =>
    obtain rfl := Option.some.inj h
    exact .inl ⟨rfl, rfl⟩

theorem live_of_step {s s' : State ι κ ν} {a : ι} {m : Move κ ν} {t : Attempt κ ν}
    (h : step hashing id window operation s (.move a m) = some s') (ha : s.attempts a = some t) :
    t.live = true := by
  simp only [step, ha] at h
  split at h
  · assumption
  · cases h

theorem Attempt.stored_expires (t : Attempt κ ν) (key : κ) (kept : ν) :
    (t.stored key kept).expires = t.expires ∧ (t.stored key kept).live = t.live := by
  simp only [Attempt.stored]
  split <;> exact ⟨rfl, rfl⟩

def State.Whole (s : State ι κ ν) : Prop := ∃ expires, s.Fixes expires

namespace State.Whole
variable {s s' : State ι κ ν}

theorem moved_fixes {expires : ℕ} (h : s.Fixes expires) {a : ι} {d : Moved κ ν}
    (hattempt : d.attempt.live = true → ∀ fixed ∈ d.attempt.expires, fixed = expires)
    (hmade : ∀ made ∈ d.made, made.2.expires = expires) : (s.moved a d).Fixes expires := by
  obtain ⟨hjournal, hsent, hattempts⟩ := h
  refine ⟨hjournal, fun m hm => ?_, fun b u hu => ?_⟩
  · rcases List.mem_append.mp hm with hm | hm
    · exact hsent m hm
    · obtain ⟨made, hmem, rfl⟩ := List.mem_map.mp hm
      exact hmade made hmem
  · rcases State.moved_attempts hu with ⟨-, rfl⟩ | ⟨-, hb⟩
    · exact hattempt
    · exact hattempts b u hb

theorem moved (h : s.Whole) {a : ι} {m : Move κ ν} {t : Attempt κ ν} {d : Moved κ ν}
    (ha : s.attempts a = some t) (hlive : t.live = true)
    (halike : t.expires = none → ∀ now ∈ m.now, s.Fixes (now + window * 1000))
    (hmove : t.move hashing id window operation m = some d) : (s.moved a d).Whole := by
  obtain ⟨expires, hfixes⟩ := h
  have hbefore : ∀ fixed ∈ t.expires, fixed = expires := hfixes.2.2 a t ha hlive
  rcases expires_of_move hmove with ⟨hsame, hmade⟩ | ⟨now, hnow, hfixed, hmade⟩
  · refine ⟨expires, moved_fixes hfixes (fun _ => hsame ▸ hbefore) fun made hmem => ?_⟩
    rw [hmade] at hmem
    exact nomatch hmem
  · have hexpiry : s.Fixes (t.expiry window now) := by
      cases hnone : t.expires with
      | none =>
        rw [Attempt.expiry, hnone]
        exact halike hnone now hnow
      | some fixed =>
        rw [Attempt.expiry, hnone]
        obtain rfl := hbefore fixed hnone
        exact hfixes
    refine ⟨_, moved_fixes hexpiry (fun _ fixed hmem => ?_) hmade⟩
    exact Option.some.inj (hmem.symm.trans hfixed)

theorem turn (h : s.Whole) {act : Turn ι κ ν} (halike : Alike window s act)
    (hturn : turn hashing id window operation s act = some s') : s'.Whole := by
  have ⟨expires, hjournal, hsent, hattempts⟩ := h
  cases act with
  | reap now =>
    obtain rfl := Option.some.inj hturn
    exact ⟨expires, fun r hr => hjournal r (List.mem_of_mem_filter hr), hsent, hattempts⟩
  | act act =>
    cases next_of_step _ _ _ _ hturn with
    | begun ha =>
      refine ⟨expires, hjournal, hsent, fun b u hu hlive fixed hfixed => ?_⟩
      rcases State.begun_attempts hu with rfl | hu
      · obtain ⟨r, hr, rfl⟩ := recall_expires hfixed
        exact hjournal r hr
      · exact hattempts b u hu hlive fixed hfixed
    | @moved a m t d ha hmove => exact h.moved ha (live_of_step hturn ha) (halike t ha) hmove
    | @landed i m hi =>
      refine ⟨expires, fun r hr => ?_, fun made hmade => hsent made (List.mem_of_mem_eraseIdx hmade),
        fun b u hu hlive fixed hfixed => ?_⟩
      · rcases mem_record hr with hr | rfl
        · exact hjournal r hr
        · exact hsent m (List.mem_of_getElem? hi)
      · obtain ⟨t, ht, rfl | ⟨-, rfl⟩⟩ := State.landed_attempts hu
        · exact hattempts b u ht hlive fixed hfixed
        · obtain ⟨hsame, hsame'⟩ := t.stored_expires m.record.key (record s.journal m.record).2
          exact hattempts b t ht (hsame' ▸ hlive) fixed (hsame ▸ hfixed)
    | lost i =>
      exact ⟨expires, hjournal, fun made hmade => hsent made (List.mem_of_mem_eraseIdx hmade), hattempts⟩

end State.Whole

/-- Where each moment is fixed alike, a run is kept whole and reaped whole. -/
theorem reaped_whole {turns : List (Turn ι κ ν)} {s : State ι κ ν}
    (hrun : run (turn hashing id window operation) State.init turns = some s)
    (halike : Along (turn hashing id window operation) (Alike window) State.init turns) :
    (∀ r ∈ s.journal, ∀ r' ∈ s.journal, r.expires = r'.expires) ∧
      ∀ now, (s.reaped now).journal = s.journal ∨ (s.reaped now).journal = [] := by
  have hwhole : s.Whole := by
    have hinit : (State.init : State ι κ ν).Whole :=
      ⟨0, fun _ h => (nomatch h), fun _ h => (nomatch h), fun _ _ h => (nomatch h)⟩
    exact run_invariant (fun _ _ _ hI hok hturn => State.Whole.turn hI hok hturn) hinit halike hrun
  obtain ⟨expires, hjournal, -⟩ := hwhole
  have hsame : ∀ r ∈ s.journal, ∀ r' ∈ s.journal, r.expires = r'.expires := fun r hr r' hr' =>
    (hjournal r hr).trans (hjournal r' hr').symm
  refine ⟨hsame, fun now => ?_⟩
  by_cases hdue : ∃ r ∈ s.journal, r.expires ≤ now
  · obtain ⟨r, hr, hexpires⟩ := hdue
    refine .inr (List.filter_eq_nil_iff.mpr fun r' hr' => ?_)
    rw [hsame r hr r' hr'] at hexpires
    simpa only [decide_eq_true_eq, not_lt] using hexpires
  · refine .inl (List.filter_eq_self.mpr fun r hr => decide_eq_true ?_)
    exact Nat.lt_of_not_le fun hexpires => hdue ⟨r, hr, hexpires⟩

def inTurn : Operation (List Char) ℕ
  | [] => some (.step left)
  | [.asked _ _, .answered _ _] => some (.step right)
  | _ => none

def copies : List (Turn Bool (List Char) ℕ) :=
  [.act (.begin false), .act (.begin true), .act (.move false .ask), .act (.move true .ask),
    .act (.move false (.make (first left))), .act (.move true (.make (first left))),
    .act (.move false (.keep (first left) 10 1000)), .act (.land 0),
    .act (.move true (.keep (first left) 11 2000)), .act (.land 0), .act (.move true (.answer (first left))),
    .act (.move true .ask), .act (.move true (.make (first right))),
    .act (.move true (.keep (first right) 20 2500)), .act (.land 0)]

theorem copies_run : ((run (turn plainly [] 600 inTurn) State.init copies).any fun s =>
    s.journal.map (fun r => (r.answer, r.expires)) = [(10, 601000), (20, 602000)]) = true := by
  decide +kernel

/-- A part of the run is reaped while another is given back. -/
theorem reaped_in_part : ∃ s, run (turn plainly [] 600 inTurn) State.init copies = some s ∧
    (∃ r ∈ s.journal, ∃ r' ∈ s.journal, r.expires ≠ r'.expires) ∧
      (s.reaped 601000).journal.map (·.answer) = [20] := by
  obtain ⟨s, hrun, hs⟩ := (Option.any_eq_true ..).mp copies_run
  have hjournal := of_decide_eq_true hs
  refine ⟨s, hrun, ?_⟩
  obtain ⟨r, rest, hcons, hr, hrest⟩ := List.map_eq_cons_iff.mp hjournal
  obtain ⟨r', rest', rfl, hr', hnil⟩ := List.map_eq_cons_iff.mp hrest
  obtain rfl := List.map_eq_nil_iff.mp hnil
  have hexpires : r.expires = 601000 := (Prod.mk.inj hr).2
  have hexpires' : r'.expires = 602000 := (Prod.mk.inj hr').2
  refine ⟨⟨r, by simp [hcons], r', by simp [hcons], by omega⟩, ?_⟩
  simp [State.reaped, hcons, hexpires, hexpires', (Prod.mk.inj hr').1]

def oneByOne : List (Turn Bool (List Char) ℕ) :=
  [.act (.begin false), .act (.move false .ask), .act (.move false (.make (first left))),
    .act (.move false (.keep (first left) 10 1000)), .act (.land 0), .act (.move false .stop), .act (.begin true),
    .act (.move true .ask), .act (.move true (.answer (first left))), .act (.move true .ask),
    .act (.move true (.make (first right))), .act (.move true (.keep (first right) 20 2000)), .act (.land 0)]

theorem reaped_whole_one_by_one : ∃ s, run (turn plainly [] 600 inTurn) State.init oneByOne = some s ∧
    (∀ r ∈ s.journal, ∀ r' ∈ s.journal, r.expires = r'.expires) ∧
      ∀ now, (s.reaped now).journal = s.journal ∨ (s.reaped now).journal = [] := by
  have hsome : (run (turn plainly [] 600 inTurn) State.init oneByOne).isSome = true := by decide +kernel
  obtain ⟨s, hrun⟩ := Option.isSome_iff_exists.mp hsome
  exact ⟨s, hrun, reaped_whole hrun (by decide +kernel)⟩

end Toa.Continuity
