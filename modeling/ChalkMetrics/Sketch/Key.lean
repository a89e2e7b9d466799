/-
# Bucket keys of the UDD sketch

`SketchHashKey` with its order and its compaction. `partialCmp` is the source's
`partial_cmp`; it is the order of the rank `negative < zero < positive <
invalid`, negative exponents reversed (`partialCmp_lt`), so the keys form a
linear order. `compactKey` halves an exponent rounding up and leaves
`i64::MAX` alone (`toInt_compactExp`); it is monotone, and two keys it joins
are neighbours (`compactKey_pair`).
-/
import Mathlib.Data.Prod.Lex
import Mathlib.Order.Lattice
import Mathlib.Tactic.Ring

namespace ChalkMetrics

inductive SketchHashKey where
  | negative (i : Int64)
  | zero
  | positive (i : Int64)
  | invalid
deriving DecidableEq, Repr

namespace SketchHashKey

def isValid : SketchHashKey → Bool
  | invalid => false
  | _ => true

/-- `if x > 0 { x + 1 } else { x } / 2`. -/
def compactExp (x : Int64) : Int64 := (if x > 0 then x + 1 else x) / 2

/-- The key after one compaction round. -/
def compactKey : SketchHashKey → SketchHashKey
  | negative x => if x = Int64.maxValue then negative x else negative (compactExp x)
  | positive x => if x = Int64.maxValue then positive x else positive (compactExp x)
  | x => x

def partialCmp : SketchHashKey → SketchHashKey → Ordering
  | invalid, invalid => .eq
  | invalid, _ => .gt
  | _, invalid => .lt
  | zero, zero => .eq
  | positive a, positive b => compare a b
  | negative a, negative b => (compare a b).swap
  | _, positive _ => .lt
  | positive _, _ => .gt
  | _, negative _ => .gt
  | negative _, _ => .lt

/-! ### The order -/

/-- Where a key stands: its constructor, then its exponent. -/
def rank : SketchHashKey → ℤ ×ₗ ℤ
  | negative i => toLex (0, -i.toInt)
  | zero => toLex (1, 0)
  | positive i => toLex (2, i.toInt)
  | invalid => toLex (3, 0)

theorem rank_injective : Function.Injective rank := by
  intro a b h
  cases a <;> cases b <;>
    simp [rank, Int64.toInt_inj] at h ⊢
  all_goals exact h

theorem compare_lt_iff (i j : Int64) : compare i j = .lt ↔ i.toInt < j.toInt := by
  rw [show compare i j = compareOfLessAndEq i j from rfl, compareOfLessAndEq_eq_lt,
    Int64.lt_iff_toInt_lt]

theorem compare_gt_iff (i j : Int64) : compare i j = .gt ↔ j.toInt < i.toInt := by
  rw [show compare i j = compareOfLessAndEq i j from rfl]
  unfold compareOfLessAndEq
  simp only [Int64.lt_iff_toInt_lt, ← Int64.toInt_inj]
  split_ifs <;> simp <;> omega

theorem partialCmp_lt_rank (a b : SketchHashKey) : partialCmp a b = .lt ↔ rank a < rank b := by
  cases a <;> cases b <;>
    simp [partialCmp, rank, Prod.Lex.toLex_lt_toLex, Ordering.swap_eq_lt, compare_lt_iff,
      compare_gt_iff]

theorem partialCmp_gt_rank (a b : SketchHashKey) : partialCmp a b = .gt ↔ rank b < rank a := by
  cases a <;> cases b <;>
    simp [partialCmp, rank, Prod.Lex.toLex_lt_toLex, Ordering.swap_eq_gt, compare_lt_iff,
      compare_gt_iff]

instance : LinearOrder SketchHashKey where
  le a b := rank a ≤ rank b
  lt a b := rank a < rank b
  le_refl a := le_refl (rank a)
  le_trans a b c := le_trans (a := rank a)
  lt_iff_le_not_ge a b := lt_iff_le_not_ge (a := rank a)
  le_antisymm a b h h' := rank_injective (le_antisymm h h')
  le_total a b := le_total (rank a) (rank b)
  toDecidableLE a b := decidable_of_iff (partialCmp a b ≠ .gt)
    ((partialCmp_gt_rank a b).not.trans not_lt)
  toDecidableLT a b := decidable_of_iff (partialCmp a b = .lt) (partialCmp_lt_rank a b)
  toDecidableEq := inferInstance

/-- `partial_cmp` is the linear order. -/
theorem partialCmp_lt (a b : SketchHashKey) : partialCmp a b = .lt ↔ a < b := partialCmp_lt_rank a b

theorem partialCmp_gt (a b : SketchHashKey) : partialCmp a b = .gt ↔ b < a := partialCmp_gt_rank a b

theorem le_iff_rank {a b : SketchHashKey} : a ≤ b ↔ rank a ≤ rank b := Iff.rfl

theorem lt_iff_rank {a b : SketchHashKey} : a < b ↔ rank a < rank b := Iff.rfl

@[simp] theorem positive_le_positive {i j : Int64} :
    positive i ≤ positive j ↔ i.toInt ≤ j.toInt := by
  simp [le_iff_rank, rank, Prod.Lex.toLex_le_toLex]

@[simp] theorem negative_le_negative {i j : Int64} :
    negative i ≤ negative j ↔ j.toInt ≤ i.toInt := by
  simp [le_iff_rank, rank, Prod.Lex.toLex_le_toLex]

@[simp] theorem positive_lt_positive {i j : Int64} :
    positive i < positive j ↔ i.toInt < j.toInt := by
  simp [lt_iff_rank, rank, Prod.Lex.toLex_lt_toLex]

@[simp] theorem negative_lt_negative {i j : Int64} :
    negative i < negative j ↔ j.toInt < i.toInt := by
  simp [lt_iff_rank, rank, Prod.Lex.toLex_lt_toLex]

theorem lt_invalid {a : SketchHashKey} (h : a ≠ invalid) : a < invalid := by
  cases a <;> simp [lt_iff_rank, rank, Prod.Lex.toLex_lt_toLex] at h ⊢

/-! ### Compaction -/

/-- The exponent after compaction: half, rounded up, except at `i64::MAX`. -/
theorem toInt_compactExp {x : Int64} (hx : x ≠ Int64.maxValue) :
    (compactExp x).toInt = (x.toInt + 1) / 2 := by
  have h1 := x.toInt_lt
  have h2 := x.le_toInt
  have h3 : x.toInt ≠ 2 ^ 63 - 1 := fun h => hx (Int64.toInt_inj.mp h)
  have two : (2 : Int64).toInt = 2 := rfl
  unfold compactExp
  rw [Int64.toInt_div_of_ne_right _ _ (by decide), two]
  split_ifs with hpos
  · have hpos' : 0 < x.toInt := Int64.lt_iff_toInt_lt.mp hpos
    rw [Int64.toInt_add, show (1 : Int64).toInt = 1 from rfl,
      Int.bmod_eq_of_le (by omega) (by omega), Int.tdiv_eq_ediv_of_nonneg (by omega)]
  · have hneg : x.toInt ≤ 0 := by
      have : ¬ (0 : Int64).toInt < x.toInt := fun h => hpos (Int64.lt_iff_toInt_lt.mpr h)
      simpa using this
    rw [← neg_neg x.toInt, Int.neg_tdiv, Int.tdiv_eq_ediv_of_nonneg (by omega)]
    omega

/-- The exponent `compactKey` gives `x`. -/
def newExp (x : Int64) : Int64 := if x = Int64.maxValue then x else compactExp x

theorem toInt_newExp (x : Int64) :
    (newExp x).toInt = if x.toInt = 2 ^ 63 - 1 then x.toInt else (x.toInt + 1) / 2 := by
  have hmax : x = Int64.maxValue ↔ x.toInt = 2 ^ 63 - 1 := by
    rw [← Int64.toInt_inj, Int64.toInt_maxValue]
  unfold newExp
  by_cases hx : x = Int64.maxValue
  · rw [if_pos hx, if_pos (hmax.mp hx)]
  · rw [if_neg hx, if_neg fun h => hx (hmax.mpr h), toInt_compactExp hx]

theorem compactKey_positive (x : Int64) : compactKey (positive x) = positive (newExp x) := by
  simp only [compactKey, newExp]; split_ifs <;> rfl

theorem compactKey_negative (x : Int64) : compactKey (negative x) = negative (newExp x) := by
  simp only [compactKey, newExp]; split_ifs <;> rfl

@[simp] theorem compactKey_zero : compactKey zero = zero := rfl

@[simp] theorem compactKey_invalid : compactKey invalid = invalid := rfl

theorem compactKey_eq_invalid {k : SketchHashKey} : compactKey k = invalid ↔ k = invalid := by
  cases k <;> simp [compactKey_positive, compactKey_negative]

theorem newExp_mono {i j : Int64} (h : i.toInt ≤ j.toInt) : (newExp i).toInt ≤ (newExp j).toInt := by
  have hi := i.toInt_lt
  have hi' := i.le_toInt
  have hj := j.toInt_lt
  rw [toInt_newExp, toInt_newExp]
  split_ifs <;> omega

theorem compactKey_mono : Monotone compactKey := by
  intro a b h
  cases a <;> cases b <;>
    simp only [compactKey_positive, compactKey_negative, compactKey_zero, compactKey_invalid,
      positive_le_positive, negative_le_negative] at h ⊢
  all_goals first
    | exact newExp_mono h
    | exact h
    | simp [le_iff_rank, rank, Prod.Lex.toLex_le_toLex] at h ⊢

/-- Three keys in a row do not merge: compaction is at most two-to-one, on
neighbours. -/
theorem compactKey_pair {a b c : SketchHashKey} (hab : a < b) (hbc : b < c)
    (h : compactKey a = compactKey b) : compactKey b ≠ compactKey c := by
  intro h'
  have key : ∀ i j k : Int64, i.toInt < j.toInt → j.toInt < k.toInt → newExp i = newExp j →
      newExp j = newExp k → False := by
    intro i j k hij hjk h1 h2
    have e1 := congrArg Int64.toInt h1
    have e2 := congrArg Int64.toInt h2
    have hk := k.toInt_lt
    rw [toInt_newExp, toInt_newExp] at e1 e2
    split_ifs at e1 e2 <;> omega
  cases a <;> cases b <;> simp [compactKey_positive, compactKey_negative] at h <;>
    cases c <;> simp [compactKey_positive, compactKey_negative] at h'
  · -- negative keys run the other way
    exact key _ _ _ (negative_lt_negative.mp hbc) (negative_lt_negative.mp hab) h'.symm h.symm
  · exact lt_irrefl _ hab
  · exact key _ _ _ (positive_lt_positive.mp hab) (positive_lt_positive.mp hbc) h h'
  · exact lt_irrefl _ hab

end SketchHashKey
end ChalkMetrics
