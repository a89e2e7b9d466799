/-
# The integer logarithm, rounded up

For a base `γ > 1` of an archimedean ordered field every `v > 0` lies in
exactly one interval `(γ ^ (i - 1), γ ^ i]`; `ceilLog γ v` is its `i`, found by
search, so it computes. It is monotone in `v` (`ceilLog_mono`), squaring the
base halves it rounding up (`ceilLog_sq`), and it is at most `n` in size once
`v` and `v⁻¹` are at most `γ ^ n` (`neg_le_ceilLog`, `ceilLog_le`).
-/
import Mathlib.Algebra.Order.Archimedean.Basic
import Mathlib.Algebra.Order.Field.Power
import Mathlib.Tactic.Linarith
import Mathlib.Tactic.Positivity

namespace LogScale

variable {K : Type*} [Field K] [LinearOrder K] [IsStrictOrderedRing K] [Archimedean K]

theorem exists_le_pow {γ : K} (hγ : 1 < γ) (v : K) : ∃ n : ℕ, v ≤ γ ^ n :=
  (pow_unbounded_of_one_lt v hγ).imp fun _ h => h.le

theorem exists_one_lt_mul_pow {γ : K} (hγ : 1 < γ) {v : K} (hv : 0 < v) :
    ∃ n : ℕ, 1 < v * γ ^ (n + 1) := by
  obtain ⟨n, hn⟩ := pow_unbounded_of_one_lt v⁻¹ hγ
  refine ⟨n, ?_⟩
  have h1 : 1 < v * γ ^ n := by
    have := mul_lt_mul_of_pos_left hn hv
    rwa [mul_inv_cancel₀ hv.ne'] at this
  calc 1 < v * γ ^ n := h1
    _ ≤ v * γ ^ (n + 1) :=
      mul_le_mul_of_nonneg_left (pow_le_pow_right₀ hγ.le n.le_succ) hv.le

/-- The `i` with `γ ^ (i - 1) < v ≤ γ ^ i`; 0 where there is no such `i`. -/
def ceilLog (γ v : K) : ℤ :=
  if h : 1 < γ ∧ 0 < v then
    if v ≤ 1 then -(Nat.find (exists_one_lt_mul_pow h.1 h.2) : ℤ)
    else (Nat.find (exists_le_pow h.1 v) : ℤ)
  else 0

theorem ceilLog_spec {γ v : K} (hγ : 1 < γ) (hv : 0 < v) :
    γ ^ (ceilLog γ v - 1) < v ∧ v ≤ γ ^ ceilLog γ v := by
  have h0 : (0 : K) < γ := zero_lt_one.trans hγ
  rw [ceilLog, dif_pos ⟨hγ, hv⟩]
  split_ifs with h1
  · -- below 1: the least `n` with `v γ ^ (n + 1) > 1`
    set n := Nat.find (exists_one_lt_mul_pow hγ hv) with hn
    have hlt : 1 < v * γ ^ (n + 1) := Nat.find_spec (exists_one_lt_mul_pow hγ hv)
    have hle : v * γ ^ n ≤ 1 := by
      rcases Nat.eq_zero_or_pos n with h | h
      · rw [h, pow_zero, mul_one]; exact h1
      · have hmin := Nat.find_min (exists_one_lt_mul_pow hγ hv) (m := n - 1) (by omega)
        rw [not_lt, Nat.sub_add_cancel h] at hmin
        exact hmin
    constructor
    · rw [show (-(n : ℤ) - 1) = -((n + 1 : ℕ) : ℤ) by push_cast; ring, zpow_neg, zpow_natCast,
        inv_lt_iff_one_lt_mul₀ (pow_pos h0 _)]
      exact hlt
    · rw [zpow_neg, zpow_natCast, ← one_div, le_div_iff₀ (pow_pos h0 _)]
      exact hle
  · -- above 1: the least `n` with `v ≤ γ ^ n`
    set n := Nat.find (exists_le_pow hγ v) with hn
    have hle : v ≤ γ ^ n := Nat.find_spec (exists_le_pow hγ v)
    have hpos : 0 < n := by
      by_contra h
      rw [Nat.eq_zero_of_not_pos h, pow_zero] at hle
      exact h1 hle
    have hlt : γ ^ (n - 1) < v := not_le.mp (Nat.find_min (exists_le_pow hγ v) (by omega))
    refine ⟨?_, by rw [zpow_natCast]; exact hle⟩
    rw [show ((n : ℤ) - 1) = ((n - 1 : ℕ) : ℤ) by omega, zpow_natCast]
    exact hlt

/-- The interval determines the logarithm. -/
theorem ceilLog_unique {γ v : K} (hγ : 1 < γ) {i : ℤ} (h1 : γ ^ (i - 1) < v) (h2 : v ≤ γ ^ i) :
    ceilLog γ v = i := by
  have h0 : (0 : K) < γ := zero_lt_one.trans hγ
  obtain ⟨g1, g2⟩ := ceilLog_spec hγ ((zpow_pos h0 _).trans h1)
  have a := (zpow_lt_zpow_iff_right₀ hγ).mp (h1.trans_le g2)
  have b := (zpow_lt_zpow_iff_right₀ hγ).mp (g1.trans_le h2)
  omega

theorem ceilLog_mono {γ v w : K} (hγ : 1 < γ) (hv : 0 < v) (h : v ≤ w) :
    ceilLog γ v ≤ ceilLog γ w := by
  have g1 := (ceilLog_spec hγ hv).1
  have g2 := (ceilLog_spec hγ (hv.trans_le h)).2
  have := (zpow_lt_zpow_iff_right₀ hγ).mp (g1.trans_le (h.trans g2))
  omega

/-- Squaring the base halves the logarithm, rounding up. -/
theorem ceilLog_sq {γ v : K} (hγ : 1 < γ) (hv : 0 < v) :
    ceilLog (γ * γ) v = (ceilLog γ v + 1) / 2 := by
  have h0 : (0 : K) < γ := zero_lt_one.trans hγ
  obtain ⟨g1, g2⟩ := ceilLog_spec hγ hv
  set i := ceilLog γ v
  have hsq : ∀ j : ℤ, (γ * γ) ^ j = γ ^ (2 * j) := fun j => by
    rw [mul_zpow, ← zpow_add₀ h0.ne', two_mul]
  refine ceilLog_unique (one_lt_mul_of_lt_of_le hγ hγ.le) ?_ ?_
  · rw [hsq]
    exact (zpow_le_zpow_right₀ hγ.le (by omega)).trans_lt g1
  · rw [hsq]
    exact g2.trans (zpow_le_zpow_right₀ hγ.le (by omega))

theorem ceilLog_le {γ v : K} (hγ : 1 < γ) (hv : 0 < v) {n : ℕ} (h : v ≤ γ ^ n) :
    ceilLog γ v ≤ n := by
  have g := (ceilLog_spec hγ hv).1
  have := (zpow_lt_zpow_iff_right₀ hγ).mp (g.trans_le (h.trans_eq (zpow_natCast γ n).symm))
  omega

theorem neg_le_ceilLog {γ v : K} (hγ : 1 < γ) (hv : 0 < v) {n : ℕ} (h : v⁻¹ ≤ γ ^ n) :
    -(n : ℤ) ≤ ceilLog γ v := by
  have h0 : (0 : K) < γ := zero_lt_one.trans hγ
  obtain ⟨-, g⟩ := ceilLog_spec hγ hv
  have hle : γ ^ (-(n : ℤ)) ≤ v := by
    rw [zpow_neg, zpow_natCast]
    exact inv_le_of_inv_le₀ hv h
  exact (zpow_le_zpow_iff_right₀ hγ).mp (hle.trans g)

end LogScale
