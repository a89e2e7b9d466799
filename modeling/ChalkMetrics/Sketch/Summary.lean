/-
# The summaries of a sketch agree

In exact arithmetic: quantiles are monotone for every sketch that can be made,
merged or not (`estimateQuantile_mono`), since the value of a bucket grows with
its key. `min`, `max` and `mean` are those of the values added, and the first
and last quantiles are within the error of `min` and `max` (`summary_run`).
-/
import ChalkMetrics.Sketch.Rank
import Mathlib.Algebra.Order.Group.MinMax

namespace ChalkMetrics

open SketchHashKey SketchHashMap

/-! ### Quantiles are monotone -/

/-- **The value of a bucket grows with its key.** -/
theorem bucketToValue_mono {s : UDDSketch ℚ} (h : ErrorBase s.gamma s.alpha) {a b : SketchHashKey}
    (hab : a ≤ b) {x y : ℚ} (hx : s.bucketToValue a = some x) (hy : s.bucketToValue b = some y) :
    x ≤ y := by
  have h1 : 1 < s.gamma := one_lt_of_smallest h.smallest
  have hα : 0 < 1 + s.alpha := add_pos zero_lt_one h.pos
  have hpos : ∀ i : Int64, 0 < s.gamma ^ (i.toInt - 1) * (1 + s.alpha) := fun i =>
    mul_pos (zpow_pos (zero_lt_one.trans h1) _) hα
  have hmono : ∀ i j : Int64, i.toInt ≤ j.toInt →
      s.gamma ^ (i.toInt - 1) * (1 + s.alpha) ≤ s.gamma ^ (j.toInt - 1) * (1 + s.alpha) := by
    intro i j hij
    apply mul_le_mul_of_nonneg_right _ hα.le
    exact zpow_le_zpow_right₀ h1.le (by omega)
  have hzero : s.bucketToValue .zero = some 0 := by
    show some (0.0 : ℚ) = _
    norm_num
  cases a with
  | negative i =>
    rw [bucketToValue_negative] at hx
    obtain rfl := Option.some.inj hx
    cases b with
    | negative j =>
      rw [bucketToValue_negative] at hy
      obtain rfl := Option.some.inj hy
      exact neg_le_neg (hmono j i (negative_le_negative.mp hab))
    | zero =>
      obtain rfl := Option.some.inj (hzero.symm.trans hy)
      exact (neg_neg_of_pos (hpos i)).le
    | positive j =>
      rw [bucketToValue_positive] at hy
      obtain rfl := Option.some.inj hy
      exact (neg_neg_of_pos (hpos i)).le.trans (hpos j).le
    | invalid => cases hy
  | zero =>
    obtain rfl := Option.some.inj (hzero.symm.trans hx)
    cases b with
    | negative j => exact absurd hab (by simp [le_iff_rank, rank, Prod.Lex.toLex_le_toLex])
    | zero => exact (Option.some.inj (hzero.symm.trans hy)).le
    | positive j =>
      rw [bucketToValue_positive] at hy
      obtain rfl := Option.some.inj hy
      exact (hpos j).le
    | invalid => cases hy
  | positive i =>
    rw [bucketToValue_positive] at hx
    obtain rfl := Option.some.inj hx
    cases b with
    | negative j => exact absurd hab (by simp [le_iff_rank, rank, Prod.Lex.toLex_le_toLex])
    | zero => exact absurd hab (by simp [le_iff_rank, rank, Prod.Lex.toLex_le_toLex])
    | positive j =>
      rw [bucketToValue_positive] at hy
      obtain rfl := Option.some.inj hy
      exact hmono i j (positive_le_positive.mp hab)
    | invalid => cases hy
  | invalid => cases hx

/-- `estimate_quantile` passes its assertion. -/
theorem quantile_inRange {q : ℚ} (h0 : 0 ≤ q) (h1 : q ≤ 1) :
    FloatOps.le (0.0 : ℚ) q = true ∧ FloatOps.le q (1.0 : ℚ) = true := by
  simp only [FloatOps.le, decide_eq_true_eq]
  constructor <;> norm_num
  · exact h0
  · exact h1

theorem estimateQuantile_empty {s : UDDSketch ℚ} {l} (hl : Holds s.buckets l)
    (hlen : (Bins.expand l).length = s.numValues) (hpos : ∀ p ∈ l, 0 < p.2)
    (hn : s.numValues = 0) {q : ℚ} (h0 : 0 ≤ q) (h1 : q ≤ 1) : s.estimateQuantile q = some 0.0 := by
  have hnil : l = [] := by
    rcases l with _ | ⟨⟨k, c⟩, l⟩
    · rfl
    · have hk := hpos _ List.mem_cons_self
      rw [Bins.length_expand, Bins.total_cons, hn] at hlen
      omega
  subst hnil
  obtain ⟨hzero, hone⟩ := quantile_inRange h0 h1
  have hq : (FloatOps.le 0.0 q && FloatOps.le q 1.0) = true := by rw [hzero, hone]; rfl
  rw [UDDSketch.estimateQuantile, if_pos hq, hl.iter, hn]
  rfl

/-- **Quantiles are monotone**, whatever values, compactions and merges made
the sketch. -/
theorem estimateQuantile_mono {mb : ℕ} {s : UDDSketch ℚ} (h : s.Reachable mb) {q r : ℚ}
    (h0 : 0 ≤ q) (hqr : q ≤ r) (h1 : r ≤ 1) :
    ∃ x y, s.estimateQuantile q = some x ∧ s.estimateQuantile r = some y ∧ x ≤ y := by
  obtain ⟨l, hc, -, -⟩ := reachable_counts feq_abs_zero h
  by_cases hn : s.numValues = 0
  · exact ⟨0.0, 0.0, estimateQuantile_empty hc.holds hc.length hc.pos hn h0 (hqr.trans h1),
      estimateQuantile_empty hc.holds hc.length hc.pos hn (h0.trans hqr) h1, le_rfl⟩
  obtain ⟨hq0, hq1⟩ := quantile_inRange h0 (hqr.trans h1)
  obtain ⟨hr0, hr1⟩ := quantile_inRange (h0.trans hqr) h1
  obtain ⟨a, ha, hqa⟩ := estimateQuantile_key hc.holds hc.pos hc.length hn hq0 hq1
  obtain ⟨b, hb, hrb⟩ := estimateQuantile_key hc.holds hc.pos hc.length hn hr0 hr1
  have hvalid : ∀ {k : SketchHashKey} {i : ℕ}, (Bins.expand l)[i]? = some k → k ≠ .invalid :=
    fun hk hi => hc.holds.valid (hi ▸ Bins.mem_keys_of_mem_expand (List.mem_of_getElem? hk))
  obtain ⟨x, hx⟩ := bucketToValue_isSome s (hvalid ha)
  obtain ⟨y, hy⟩ := bucketToValue_isSome s (hvalid hb)
  -- the rank grows with the quantile, and the keys are in order
  have hrank : min (FloatOps.toU64 ((s.numValues : ℚ) * q) + 1) s.numValues - 1 ≤
      min (FloatOps.toU64 ((s.numValues : ℚ) * r) + 1) s.numValues - 1 := by
    have hmul : (s.numValues : ℚ) * q ≤ s.numValues * r :=
      mul_le_mul_of_nonneg_left hqr (Nat.cast_nonneg _)
    have hfloor : ⌊(s.numValues : ℚ) * q⌋.toNat ≤ ⌊(s.numValues : ℚ) * r⌋.toNat :=
      Int.toNat_le_toNat (Int.floor_le_floor hmul)
    show min (⌊(s.numValues : ℚ) * q⌋.toNat + 1) s.numValues - 1 ≤
      min (⌊(s.numValues : ℚ) * r⌋.toNat + 1) s.numValues - 1
    omega
  have hab : a ≤ b := by
    obtain ⟨hi, rfl⟩ := List.getElem?_eq_some_iff.mp ha
    obtain ⟨hj, rfl⟩ := List.getElem?_eq_some_iff.mp hb
    rcases hrank.lt_or_eq with hlt | heq
    · exact List.pairwise_iff_getElem.mp hc.holds.ascending.sorted_expand _ _ hi hj hlt
    · simp only [heq, le_refl]
  exact ⟨x, y, hqa.trans hx, hrb.trans hy, bucketToValue_mono (reachable_errorBase h) hab hx hy⟩

/-- A value before and after a merge with a second sketch. -/
theorem estimateQuantile_mono_twice : ∃ s₀ s₁ s₂ : UDDSketch ℚ, UDDSketch.new 7 (1 / 2) = some s₀ ∧
    s₀.addValue 2 = some s₁ ∧ s₁.mergeSketch s₁ = some s₂ ∧ ∃ x y,
      s₂.estimateQuantile (1 / 4) = some x ∧ s₂.estimateQuantile (3 / 4) = some y ∧ x ≤ y := by
  obtain ⟨s₀, h₀⟩ : ∃ s₀, UDDSketch.new 7 (1 / 2 : ℚ) = some s₀ := ⟨_, if_pos half_inRange⟩
  have hr₀ : s₀.Reachable 7 := .new h₀
  obtain ⟨s₁, h₁, -⟩ := (reachable_safe feq_abs_zero le_rfl hr₀).addValue 2
  have hr₁ : s₁.Reachable 7 := .addValue hr₀ h₁
  obtain ⟨s₂, h₂, -⟩ := (reachable_safe feq_abs_zero le_rfl hr₁).mergeSketch s₁ hr₁
  have hr₂ : s₂.Reachable 7 := .mergeSketch hr₁ hr₁ h₂
  exact ⟨s₀, s₁, s₂, h₀, h₁, h₂,
    estimateQuantile_mono hr₂ (by norm_num) (by norm_num) (by norm_num)⟩

/-! ### Extremes and mean -/

theorem fold_min_le {vs : Multiset ℚ} {b v : ℚ} (hv : v ∈ vs) : vs.fold min b ≤ v := by
  induction vs using Multiset.induction with
  | empty => exact absurd hv (Multiset.notMem_zero v)
  | cons w vs ih =>
    rw [Multiset.fold_cons_left]
    rcases Multiset.mem_cons.mp hv with rfl | hv
    · exact min_le_left _ _
    · exact (min_le_right _ _).trans (ih hv)

theorem fold_min_mem {vs : Multiset ℚ} {b : ℚ} (hb : ∀ v ∈ vs, v ≤ b) (hne : vs ≠ 0) :
    vs.fold min b ∈ vs := by
  induction vs using Multiset.induction with
  | empty => exact absurd rfl hne
  | cons w vs ih =>
    rw [Multiset.fold_cons_left]
    by_cases hvs : vs = 0
    · rw [hvs, Multiset.fold_zero, min_eq_left (hb w (Multiset.mem_cons_self _ _))]
      exact Multiset.mem_cons_self _ _
    · have ih := ih (fun v hv => hb v (Multiset.mem_cons_of_mem hv)) hvs
      rcases min_choice w (vs.fold min b) with h | h
      · rw [h]
        exact Multiset.mem_cons_self _ _
      · rw [h]
        exact Multiset.mem_cons_of_mem ih

/-- The maximum is the minimum of the opposites. -/
theorem fold_max_eq (vs : Multiset ℚ) (b : ℚ) :
    vs.fold max b = -((vs.map Neg.neg).fold min (-b)) := by
  induction vs using Multiset.induction with
  | empty => simp
  | cons w vs ih =>
    rw [Multiset.fold_cons_left, Multiset.map_cons, Multiset.fold_cons_left, ih]
    have h := min_neg_neg w (-(vs.map Neg.neg).fold min (-b))
    rw [neg_neg] at h
    rw [h, neg_neg]

theorem IsFinite.le_maxFinite {v : ℚ} (h : IsFinite v) : |v| ≤ maxFinite := by
  rcases h with rfl | h
  · rw [abs_zero, maxFinite, sub_nonneg]
    exact pow_le_pow_right₀ (by norm_num) (by norm_num)
  · exact h.2

/-- `min` and `max` are values, and bound all of them. -/
theorem extremes_of_tallies {s : UDDSketch ℚ} {vs : Multiset ℚ} (h : Tallies s vs)
    (hfin : ∀ v ∈ vs, IsFinite v) (hne : vs ≠ 0) :
    s.min ∈ vs ∧ s.max ∈ vs ∧ ∀ v ∈ vs, s.min ≤ v ∧ v ≤ s.max := by
  have hneg : ∀ {v : ℚ}, v ∈ vs → -v ∈ vs.map Neg.neg := fun hv => Multiset.mem_map_of_mem _ hv
  rw [h.min, h.max, fold_max_eq, neg_neg]
  refine ⟨fold_min_mem (fun v hv => (le_abs_self v).trans (hfin v hv).le_maxFinite) hne, ?_,
    fun v hv => ⟨fold_min_le hv, le_neg.mp (fold_min_le (hneg hv))⟩⟩
  have hmem : (vs.map Neg.neg).fold min maxFinite ∈ vs.map Neg.neg := by
    refine fold_min_mem (fun v hv => ?_) (by simpa using hne)
    obtain ⟨w, hw, rfl⟩ := Multiset.mem_map.mp hv
    exact (neg_le_abs w).trans (hfin w hw).le_maxFinite
  obtain ⟨w, hw, heq⟩ := Multiset.mem_map.mp hmem
  rw [← heq, neg_neg]
  exact hw

/-- `mean` is between `min` and `max`. -/
theorem mean_of_tallies {s : UDDSketch ℚ} {vs : Multiset ℚ} (h : Tallies s vs)
    (hfin : ∀ v ∈ vs, IsFinite v) (hne : vs ≠ 0) : s.min ≤ s.mean ∧ s.mean ≤ s.max := by
  obtain ⟨-, -, hbound⟩ := extremes_of_tallies h hfin hne
  have hcard : 0 < vs.card := Multiset.card_pos.mpr hne
  have hmean : s.mean = vs.sum / vs.card := by
    rw [UDDSketch.mean, h.numValues, if_neg hcard.ne', h.valuesSum]
  have hpos : (0 : ℚ) < vs.card := by exact_mod_cast hcard
  rw [hmean, le_div_iff₀ hpos, div_le_iff₀ hpos, mul_comm, ← nsmul_eq_mul, mul_comm,
    ← nsmul_eq_mul]
  exact ⟨Multiset.card_nsmul_le_sum fun v hv => (hbound v hv).1,
    Multiset.sum_le_card_nsmul _ _ fun v hv => (hbound v hv).2⟩

/-- **The summaries agree**: `min`, `max`, `sum` and `mean` are those of the
values, and the first and last quantiles are `min` and `max` up to the error. -/
theorem summary_run {mb : ℕ} {ε : ℚ} {s₀ s : UDDSketch ℚ} {ops : List (SketchOp ℚ)}
    (hnew : UDDSketch.new mb ε = some s₀) (hrun : SketchOp.run s₀ ops = some s)
    (hfin : ∀ v ∈ SketchOp.added ops, IsFinite v) (hne : SketchOp.added ops ≠ []) :
    (s.min ∈ SketchOp.added ops ∧ s.max ∈ SketchOp.added ops ∧
      ∀ v ∈ SketchOp.added ops, s.min ≤ v ∧ v ≤ s.max) ∧
    s.sum = (SketchOp.added ops).sum ∧ (s.min ≤ s.mean ∧ s.mean ≤ s.max) ∧
    ∃ x y, s.estimateQuantile 0 = some x ∧ |x - s.min| ≤ s.maxError * |s.min| ∧
      s.estimateQuantile 1 = some y ∧ |y - s.max| ≤ s.maxError * |s.max| := by
  have h := (represents_new hnew).run (smallest_le_base hnew) hfin hrun
  rw [zero_add] at h
  have hvs : (SketchOp.added ops : Multiset ℚ) ≠ 0 := (Multiset.coe_eq_zero _).not.mpr hne
  obtain ⟨hmin, hmax, hbound⟩ := extremes_of_tallies h.tallies hfin hvs
  refine ⟨⟨hmin, hmax, hbound⟩, h.tallies.valuesSum, mean_of_tallies h.tallies hfin hvs, ?_⟩
  set vs : Multiset ℚ := ↑(SketchOp.added ops) with hdef
  have hcard : 0 < vs.card := Multiset.card_pos.mpr hvs
  have hsorted : ∀ {i j : ℕ} {a b : ℚ}, i ≤ j → vs.sort[i]? = some a → vs.sort[j]? = some b →
      a ≤ b := by
    intro i j a b hij ha hb
    obtain ⟨hi, rfl⟩ := List.getElem?_eq_some_iff.mp ha
    obtain ⟨hj, rfl⟩ := List.getElem?_eq_some_iff.mp hb
    rcases hij.lt_or_eq with hlt | rfl
    · exact List.pairwise_iff_getElem.mp (vs.pairwise_sort (· ≤ ·)) _ _ hi hj hlt
    · exact le_rfl
  have hplace : ∀ v ∈ vs, ∃ i < vs.card, vs.sort[i]? = some v := by
    intro v hv
    obtain ⟨i, hi, rfl⟩ := List.mem_iff_getElem.mp ((Multiset.mem_sort (· ≤ ·)).mpr hv)
    exact ⟨i, by rwa [Multiset.length_sort] at hi, List.getElem?_eq_getElem hi⟩
  obtain ⟨a, x, ha, hx, hxa⟩ := h.withinError hvs 0 le_rfl zero_le_one
  obtain ⟨b, y, hb, hy, hyb⟩ := h.withinError hvs 1 zero_le_one le_rfl
  have hfirst : a = s.min := by
    obtain ⟨i, -, hi⟩ := hplace _ hmin
    refine le_antisymm (hsorted ?_ ha hi) (hbound a ?_).1
    · simp
    · exact (Multiset.mem_sort (· ≤ ·)).mp (List.mem_of_getElem? ha)
  have hlast : b = s.max := by
    obtain ⟨i, hi, hi'⟩ := hplace _ hmax
    refine le_antisymm (hbound b ?_).2 (hsorted ?_ hi' hb)
    · exact (Multiset.mem_sort (· ≤ ·)).mp (List.mem_of_getElem? hb)
    · rw [mul_one, Nat.floor_natCast]
      omega
  rw [hfirst] at hxa
  rw [hlast] at hyb
  exact ⟨x, y, hx, hxa, hy, hyb⟩

/-- Two values, one compaction between them. -/
theorem summary_run_pair : ∃ s₀ s : UDDSketch ℚ, UDDSketch.new 8 (1 / 2) = some s₀ ∧
    SketchOp.run s₀ [.add 2, .compact, .add (-3)] = some s ∧ s.min = -3 ∧ s.max = 2 ∧ s.sum = -1 := by
  obtain ⟨s₀, s, h₀, hs⟩ := run_pair
  obtain ⟨⟨hmin, hmax, hbound⟩, hsum, -⟩ := summary_run h₀ hs finite_pair (by simp [SketchOp.added])
  simp only [SketchOp.added, List.mem_cons, List.not_mem_nil, or_false] at hmin hmax hbound
  have h2 := hbound 2 (.inl rfl)
  have h3 := hbound (-3) (.inr rfl)
  refine ⟨s₀, s, h₀, hs, ?_, ?_, by simp [hsum, SketchOp.added]; norm_num⟩
  · rcases hmin with h | h
    · linarith
    · exact h
  · rcases hmax with h | h
    · exact h
    · linarith

end ChalkMetrics
