/-
# Ranks in a list

How many elements of a list over a linear order are below an element, counting
half of its equals: the mid-rank. It grows with the element (`midRank_mono`),
and the mid-rank of images under a monotone map is within half a fibre of the
number of elements up to a point (`midRank_near`). In a sorted list the number
of elements below an entry and of those up to it enclose its position
(`sorted_position`).
-/
import Mathlib.Algebra.Order.Field.Rat
import Mathlib.Data.List.Basic
import Mathlib.Tactic.Linarith
import Mathlib.Tactic.Positivity

namespace Ranks

variable {K V : Type*} [LinearOrder K]

/-- The elements below `t`, and half of those equal to it. -/
def midRank (ks : List K) (t : K) : ℚ := (ks.countP (· < t) : ℚ) + (ks.count t : ℚ) / 2

theorem countP_lt_add_count (t : K) : ∀ ks : List K,
    ks.countP (· < t) + ks.count t = ks.countP (· ≤ t)
  | [] => rfl
  | k :: ks => by
    have ih := countP_lt_add_count t ks
    rw [List.countP_cons, List.count_cons, List.countP_cons, ← ih]
    rcases lt_trichotomy k t with h | rfl | h
    · simp [h, h.le, h.ne]
      omega
    · simp
      omega
    · simp [h.not_gt, h.not_ge, h.ne']

theorem midRank_nonneg (ks : List K) (t : K) : 0 ≤ midRank ks t := by
  unfold midRank
  positivity

theorem midRank_le_length (ks : List K) (t : K) : midRank ks t ≤ ks.length := by
  have h := (countP_lt_add_count t ks).trans_le List.countP_le_length
  have h' : ((ks.countP (· < t) + ks.count t : ℕ) : ℚ) ≤ ks.length := by exact_mod_cast h
  have h0 : (0 : ℚ) ≤ ks.count t := Nat.cast_nonneg _
  unfold midRank
  push_cast at h'
  linarith

theorem midRank_mono (ks : List K) {t t' : K} (h : t ≤ t') : midRank ks t ≤ midRank ks t' := by
  rcases h.eq_or_lt with rfl | hlt
  · exact le_rfl
  have hle : ks.countP (· ≤ t) ≤ ks.countP (· < t') :=
    List.countP_mono_left fun k _ hk => by
      simp only [decide_eq_true_eq] at hk ⊢
      exact hk.trans_lt hlt
  rw [← countP_lt_add_count] at hle
  have hle' : ((ks.countP (· < t) + ks.count t : ℕ) : ℚ) ≤ ks.countP (· < t') := by exact_mod_cast hle
  have h0 : (0 : ℚ) ≤ ks.count t := Nat.cast_nonneg _
  have h1 : (0 : ℚ) ≤ ks.count t' := Nat.cast_nonneg _
  unfold midRank
  push_cast at hle'
  linarith

/-- Elements are counted for their images, but for half of those that share the
image of `x`. -/
theorem midRank_near [LinearOrder V] {f : V → K} {vs : List V} {x : V}
    (hup : ∀ v ∈ vs, v ≤ x → f v ≤ f x) (hdown : ∀ v ∈ vs, x ≤ v → f x ≤ f v) :
    |midRank (vs.map f) (f x) - vs.countP (· ≤ x)| ≤ ((vs.map f).count (f x) : ℚ) / 2 := by
  have hlow : (vs.map f).countP (· < f x) ≤ vs.countP (· ≤ x) := by
    rw [List.countP_map]
    refine List.countP_mono_left fun v hv hlt => ?_
    simp only [Function.comp, decide_eq_true_eq] at hlt ⊢
    by_contra hle
    exact absurd (hdown v hv (not_le.mp hle).le) (not_le.mpr hlt)
  have hhigh : vs.countP (· ≤ x) ≤ (vs.map f).countP (· < f x) + (vs.map f).count (f x) := by
    rw [countP_lt_add_count, List.countP_map]
    refine List.countP_mono_left fun v hv hle => ?_
    simp only [Function.comp, decide_eq_true_eq] at hle ⊢
    exact hup v hv hle
  have h1 : ((vs.map f).countP (· < f x) : ℚ) ≤ vs.countP (· ≤ x) := by exact_mod_cast hlow
  have h2 : (vs.countP (· ≤ x) : ℚ) ≤ (vs.map f).countP (· < f x) + (vs.map f).count (f x) := by
    exact_mod_cast hhigh
  unfold midRank
  rw [abs_le]
  constructor <;> linarith

/-- The positions of the elements with a property that only large elements lack. -/
theorem position_lt_countP {p : K → Bool} (hp : ∀ a b, a ≤ b → p b = true → p a = true) :
    ∀ {ks : List K} {i : ℕ} {k : K}, ks.Pairwise (· ≤ ·) → ks[i]? = some k →
      (p k = true ↔ i < ks.countP p)
  | [], i, k, _, hi => by simp at hi
  | a :: ks, 0, k, hs, hi => by
    obtain rfl : a = k := by simpa using hi
    by_cases ha : p a = true
    · simp [ha]
    · have hnone : ks.countP p = 0 := List.countP_eq_zero.mpr fun b hb hpb =>
        ha (hp a b ((List.pairwise_cons.mp hs).1 b hb) hpb)
      simp [ha, hnone]
  | a :: ks, i + 1, k, hs, hi => by
    obtain ⟨hak, hs⟩ := List.pairwise_cons.mp hs
    have hi : ks[i]? = some k := by simpa using hi
    have ih := position_lt_countP hp hs hi
    rw [List.countP_cons]
    by_cases ha : p a = true
    · rw [if_pos ha, ih]
      omega
    · have hk : ¬ p k = true := fun hk => ha (hp a k (hak k (List.mem_of_getElem? hi)) hk)
      have hno : ¬ i < ks.countP p := fun h => hk (ih.mpr h)
      rw [if_neg ha]
      exact iff_of_false hk (by omega)

/-- **The position of an entry of a sorted list.** -/
theorem sorted_position {ks : List K} {i : ℕ} {k : K} (hs : ks.Pairwise (· ≤ ·))
    (hi : ks[i]? = some k) :
    ks.countP (· < k) ≤ i ∧ i < ks.countP (· < k) + ks.count k := by
  constructor
  · have h := position_lt_countP (p := (· < k)) (fun a b hab hb => by
      simp only [decide_eq_true_eq] at hb ⊢
      exact hab.trans_lt hb) hs hi
    simpa using h
  · have h := position_lt_countP (p := (· ≤ k)) (fun a b hab hb => by
      simp only [decide_eq_true_eq] at hb ⊢
      exact hab.trans hb) hs hi
    rw [countP_lt_add_count]
    simpa using h

end Ranks
