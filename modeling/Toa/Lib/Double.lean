import Mathlib.Algebra.Order.Round
import Mathlib.Data.Int.Log
import Mathlib.Data.Rat.Floor
import Mathlib.Tactic.Linarith
import Mathlib.Tactic.Positivity

/-! Binary numbers of a precision and any exponent. An operation on them is what it is of the rationals,
rounded to the nearest there is, and of two as near to the even one. -/

namespace Toa.Double

def Representable (p : ℕ) (d : ℚ) : Prop := ∃ m k : ℤ, |m| ≤ 2 ^ p ∧ d = m * 2 ^ k

/-- The nearest integer, the even one of two. -/
def even (y : ℚ) : ℤ := if (round y : ℚ) - y = 1 / 2 ∧ round y % 2 = 1 then round y - 1 else round y

/-- What the last place of a number weighs. -/
def place (p : ℕ) (x : ℚ) : ℚ := 2 ^ (Int.log 2 |x| + 1 - p)

def nearest (p : ℕ) (x : ℚ) : ℚ := even (x / place p x) * place p x

def double (x : ℚ) : ℚ := nearest 53 x

theorem abs_sub_even_le (y : ℚ) (z : ℤ) : |y - even y| ≤ |y - z| := by
  have hround := round_le y z
  unfold even
  split_ifs with hhalf
  · have hup : y - round y = -(1 / 2) := by linarith [hhalf.1]
    have hdown : y - (round y - 1 : ℤ) = 1 / 2 := by
      push_cast
      linarith
    rw [hup, abs_neg] at hround
    rwa [hdown]
  · exact hround

theorem abs_sub_even_le_half (y : ℚ) : |y - even y| ≤ 1 / 2 :=
  (abs_sub_even_le y (round y)).trans (abs_sub_round y)

theorem even_intCast (z : ℤ) : even z = z := by
  have hle := abs_sub_even_le z z
  rw [sub_self, abs_zero] at hle
  have heq := sub_eq_zero.mp (abs_nonpos_iff.mp hle)
  exact_mod_cast heq.symm

theorem place_pos (p : ℕ) (x : ℚ) : 0 < place p x := zpow_pos two_pos _

theorem place_mul (p : ℕ) (x : ℚ) : place p x * 2 ^ p = 2 ^ (Int.log 2 |x| + 1) := by
  rw [place, ← zpow_natCast, ← zpow_add₀ two_ne_zero, sub_add_cancel]

theorem abs_div_place {p : ℕ} {x : ℚ} (hx : x ≠ 0) :
    (2 : ℚ) ^ p ≤ 2 * |x / place p x| ∧ |x / place p x| < 2 ^ p := by
  have hpos := place_pos p x
  have hplace := place_mul p x
  have habs : |x / place p x| * place p x = |x| := by
    rw [abs_div, abs_of_pos hpos, div_mul_cancel₀ _ hpos.ne']
  have hlow : (2 : ℚ) ^ Int.log 2 |x| ≤ |x| := Int.zpow_log_le_self one_lt_two (abs_pos.mpr hx)
  have hhigh : |x| < (2 : ℚ) ^ (Int.log 2 |x| + 1) := Int.lt_zpow_succ_log_self one_lt_two _
  have hdouble : (2 : ℚ) ^ (Int.log 2 |x| + 1) = 2 * 2 ^ Int.log 2 |x| := by
    rw [zpow_add_one₀ two_ne_zero, mul_comm]
  constructor
  · apply le_of_mul_le_mul_right ?_ hpos
    linarith
  · apply lt_of_mul_lt_mul_right ?_ hpos.le
    linarith

theorem nearest_zero (p : ℕ) : nearest p 0 = 0 := by
  have heven : even (0 / place p 0) = 0 := by
    rw [zero_div]
    exact even_intCast 0
  rw [nearest, heven, Int.cast_zero, zero_mul]

theorem sub_nearest (p : ℕ) (x : ℚ) :
    x - nearest p x = (x / place p x - even (x / place p x)) * place p x := by
  rw [nearest, sub_mul, div_mul_cancel₀ _ (place_pos p x).ne']

theorem representable_nearest (p : ℕ) (x : ℚ) : Representable p (nearest p x) := by
  refine ⟨even (x / place p x), Int.log 2 |x| + 1 - p, ?_, rfl⟩
  by_cases hx : x = 0
  · have heven : even (x / place p x) = 0 := by
      rw [hx, zero_div]
      exact even_intCast 0
    rw [heven, abs_zero]
    positivity
  · have hhalf := abs_sub_even_le_half (x / place p x)
    have hhigh := (abs_div_place (p := p) hx).2
    have htriangle := abs_sub_abs_le_abs_sub (even (x / place p x) : ℚ) (x / place p x)
    rw [abs_sub_comm] at htriangle
    have hlt : |(even (x / place p x) : ℚ)| < 2 ^ p + 1 := by linarith
    exact Int.lt_add_one_iff.mp (by exact_mod_cast hlt)

theorem representable_div_place {p : ℕ} {d x : ℚ} (hd : Representable p d) :
    (∃ z : ℤ, d / place p x = z) ∨ 2 * |d / place p x| ≤ 2 ^ p := by
  obtain ⟨m, k, hm, rfl⟩ := hd
  have hpos := place_pos p x
  rcases le_or_gt (Int.log 2 |x| + 1 - p) k with hle | hlt
  · left
    obtain ⟨n, hn⟩ := Int.le.dest hle
    refine ⟨m * 2 ^ n, ?_⟩
    rw [div_eq_iff hpos.ne', place, ← hn, zpow_add₀ two_ne_zero, zpow_natCast]
    push_cast
    ring
  · right
    have habs : |(m : ℚ)| ≤ 2 ^ p := by exact_mod_cast hm
    have hplace : 2 * (2 : ℚ) ^ k ≤ place p x := by
      have hexp : k + 1 ≤ Int.log 2 |x| + 1 - p := hlt
      calc 2 * (2 : ℚ) ^ k = 2 ^ (k + 1) := by rw [zpow_add_one₀ two_ne_zero, mul_comm]
        _ ≤ place p x := zpow_le_zpow_right₀ one_le_two hexp
    have hk : (0 : ℚ) < 2 ^ k := zpow_pos two_pos k
    rw [abs_div, abs_mul, abs_of_pos hpos, abs_of_pos hk, ← mul_div_assoc, div_le_iff₀ hpos]
    calc 2 * (|(m : ℚ)| * 2 ^ k) = |(m : ℚ)| * (2 * 2 ^ k) := by ring
      _ ≤ 2 ^ p * place p x := mul_le_mul habs hplace (mul_nonneg zero_le_two hk.le) (by positivity)

theorem abs_sub_nearest_le {p : ℕ} (hp : 0 < p) {d : ℚ} (hd : Representable p d) (x : ℚ) :
    |x - nearest p x| ≤ |x - d| := by
  by_cases hx : x = 0
  · rw [hx, nearest_zero, sub_self, abs_zero]
    exact abs_nonneg _
  · have hpos := place_pos p x
    have hsub : x - d = (x / place p x - d / place p x) * place p x := by
      rw [sub_mul, div_mul_cancel₀ _ hpos.ne', div_mul_cancel₀ _ hpos.ne']
    rw [sub_nearest, hsub, abs_mul, abs_mul]
    apply mul_le_mul_of_nonneg_right ?_ (abs_nonneg _)
    rcases representable_div_place (x := x) hd with ⟨z, hz⟩ | hsmall
    · rw [hz]
      exact abs_sub_even_le _ z
    · -- the first place is whole, and between the two
      obtain ⟨n, rfl⟩ : ∃ n, p = n + 1 := ⟨p - 1, by omega⟩
      have hlow := (abs_div_place (p := n + 1) hx).1
      have hpow : (2 : ℚ) ^ (n + 1) = 2 * 2 ^ n := pow_succ' 2 n
      have htriangle := abs_sub_abs_le_abs_sub (x / place (n + 1) x) (d / place (n + 1) x)
      rcases abs_cases (x / place (n + 1) x) with ⟨heq, -⟩ | ⟨heq, -⟩
      · have heven := abs_sub_even_le (x / place (n + 1) x) (2 ^ n)
        push_cast at heven
        have hnonneg : (0 : ℚ) ≤ x / place (n + 1) x - 2 ^ n := by linarith
        rw [abs_of_nonneg hnonneg] at heven
        linarith
      · have heven := abs_sub_even_le (x / place (n + 1) x) (-2 ^ n)
        push_cast at heven
        have hnonpos : x / place (n + 1) x - -(2 ^ n) ≤ 0 := by linarith
        rw [abs_of_nonpos hnonpos] at heven
        linarith

theorem nearest_of_representable {p : ℕ} (hp : 0 < p) {d : ℚ} (hd : Representable p d) :
    nearest p d = d := by
  have hle := abs_sub_nearest_le hp hd d
  rw [sub_self, abs_zero] at hle
  exact (sub_eq_zero.mp (abs_nonpos_iff.mp hle)).symm

theorem nearest_mono {p : ℕ} (hp : 0 < p) : Monotone (nearest p) := by
  intro x y hxy
  by_contra hlt
  rw [not_le] at hlt
  have hx := abs_sub_nearest_le hp (representable_nearest p y) x
  have hy := abs_sub_nearest_le hp (representable_nearest p x) y
  -- each is on its own side of the middle of the two
  have hupper : nearest p x + nearest p y ≤ 2 * x := by
    rcases abs_cases (x - nearest p x) with hx' | hx' <;>
      rcases abs_cases (x - nearest p y) with hy' | hy' <;> linarith
  have hlower : 2 * y ≤ nearest p x + nearest p y := by
    rcases abs_cases (y - nearest p x) with hx' | hx' <;>
      rcases abs_cases (y - nearest p y) with hy' | hy' <;> linarith
  have heq : x = y := by linarith
  exact absurd hlt (heq ▸ lt_irrefl _)

theorem abs_sub_nearest (p : ℕ) (x : ℚ) : |x - nearest p x| * 2 ^ p ≤ |x| := by
  by_cases hx : x = 0
  · rw [hx, nearest_zero, sub_self, abs_zero, zero_mul]
  · have hpos := place_pos p x
    have hlow := (abs_div_place (p := p) hx).1
    have hhalf := abs_sub_even_le_half (x / place p x)
    rw [sub_nearest, abs_mul, abs_of_pos hpos]
    have habs : |x| = |x / place p x| * place p x := by
      rw [abs_div, abs_of_pos hpos, div_mul_cancel₀ _ hpos.ne']
    rw [habs, mul_right_comm]
    apply mul_le_mul_of_nonneg_right ?_ hpos.le
    calc |x / place p x - even (x / place p x)| * 2 ^ p ≤ 1 / 2 * 2 ^ p :=
          mul_le_mul_of_nonneg_right hhalf (by positivity)
      _ ≤ |x / place p x| := by linarith

theorem nearest_nearest {p : ℕ} (hp : 0 < p) (x : ℚ) : nearest p (nearest p x) = nearest p x :=
  nearest_of_representable hp (representable_nearest p x)

example : double (1000 / 7) = 5026338869833143 / 2 ^ 45 := by decide +kernel

end Toa.Double
