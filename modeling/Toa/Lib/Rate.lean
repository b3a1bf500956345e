import Mathlib.Algebra.Order.Floor.Div
import Mathlib.Order.Bounds.Basic

/-! A count that goes up `n` times in `d` ticks of a clock, evenly but for rounding, and the ticks it
goes up at. -/

namespace Toa.Rate

/-- How often the count has gone up by tick `t`. -/
def rate (n d t : ℕ) : ℕ := t * n / d

/-- The tick the count reaches `k` at. -/
def onset (n d k : ℕ) : ℕ := (k * d + n - 1) / n

variable {n d : ℕ}

theorem onset_le_iff (hn : 0 < n) (hd : 0 < d) {k t : ℕ} : onset n d k ≤ t ↔ k ≤ rate n d t := by
  calc onset n d k ≤ t ↔ k * d ≤ n * t := ceilDiv_le_iff_le_mul hn
    _ ↔ k * d ≤ t * n := by rw [Nat.mul_comm n t]
    _ ↔ k ≤ rate n d t := (Nat.le_div_iff_mul_le hd).symm

theorem gc_onset_rate (hn : 0 < n) (hd : 0 < d) : GaloisConnection (onset n d) (rate n d) :=
  fun _ _ => onset_le_iff hn hd

theorem rate_mono (hn : 0 < n) (hd : 0 < d) : Monotone (rate n d) := (gc_onset_rate hn hd).monotone_u

theorem rate_onset (hn : 0 < n) (h : n ≤ d) (k : ℕ) : rate n d (onset n d k) = k := by
  have hd : 0 < d := hn.trans_le h
  refine le_antisymm (Nat.lt_succ_iff.mp ?_) ((gc_onset_rate hn hd).le_u_l k)
  have hround : onset n d k * n ≤ k * d + n - 1 := Nat.div_mul_le_self _ _
  have hlt : onset n d k * n < (k + 1) * d := by
    rw [Nat.add_mul, Nat.one_mul]
    omega
  exact Nat.div_lt_of_lt_mul (by rwa [Nat.mul_comm d])

theorem onset_strictMono (hn : 0 < n) (h : n ≤ d) : StrictMono (onset n d) := by
  have hd : 0 < d := hn.trans_le h
  intro k l hkl
  refine lt_of_not_ge fun hle => ?_
  have hrate := (onset_le_iff hn hd).mp hle
  rw [rate_onset hn h] at hrate
  exact absurd hkl hrate.not_gt

theorem rate_eq_iff (hn : 0 < n) (hd : 0 < d) {k t : ℕ} :
    rate n d t = k ↔ onset n d k ≤ t ∧ t < onset n d (k + 1) := by
  rw [onset_le_iff hn hd, ← not_le, onset_le_iff hn hd]
  omega

theorem lt_onset_succ (hn : 0 < n) (hd : 0 < d) (t : ℕ) : t < onset n d (rate n d t + 1) :=
  ((rate_eq_iff hn hd).mp rfl).2

theorem onset_mul (hn : 0 < n) (j : ℕ) : onset n d (j * n) = j * d := by
  have hsplit : j * n * d + n - 1 = n - 1 + n * (j * d) := by
    have hcomm : j * n * d = n * (j * d) := by rw [Nat.mul_comm j n, Nat.mul_assoc]
    omega
  unfold onset
  rw [hsplit, Nat.add_mul_div_left _ _ hn, Nat.div_eq_of_lt (Nat.sub_lt hn Nat.one_pos), Nat.zero_add]

theorem isLeast_onset (hn : 0 < n) (h : n ≤ d) (t : ℕ) :
    IsLeast {u | t < u ∧ rate n d u ≠ rate n d t} (onset n d (rate n d t + 1)) := by
  have hd : 0 < d := hn.trans_le h
  refine ⟨⟨lt_onset_succ hn hd t, ?_⟩, ?_⟩
  · rw [rate_onset hn h]
    exact Nat.succ_ne_self _
  · rintro u ⟨htu, hne⟩
    exact (onset_le_iff hn hd).mpr ((rate_mono hn hd htu.le).lt_of_ne' hne)

end Toa.Rate
