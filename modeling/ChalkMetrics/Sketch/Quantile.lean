/-
# The error of a quantile

`estimate_quantile(q)` of a sketch of `n` values against the value `x` of rank
`min (⌊n q⌋ + 1) n` among them. The keys in order are the keys of the sorted
values (`Bucketed.expand_eq`), so the loop over the buckets ends at the key of
`x` (`Represents.quantileKey`), and the value it returns for that key is on the
same side of zero as `x` and within `α |x|` of it (`bucketToValue_near`).

Key definitions: `SketchOp`, `run`, `added`.
-/
import ChalkMetrics.Sketch.Reachable
import ChalkMetrics.Sketch.Represents
import Mathlib.Data.Multiset.Sort
import Mathlib.Data.Sign.Basic

namespace ChalkMetrics

open SketchHashKey SketchHashMap

/-! ### Runs of one sketch -/

/-- What a caller may do to a sketch: `add_value` and `compact_buckets`. -/
inductive SketchOp (F : Type) where
  | add (value : F)
  | compact

namespace SketchOp

variable {F : Type} [FloatOps F]

def apply (s : UDDSketch F) : SketchOp F → Option (UDDSketch F)
  | .add value => s.addValue value
  | .compact => s.compactBuckets

def run (s : UDDSketch F) (ops : List (SketchOp F)) : Option (UDDSketch F) := ops.foldlM apply s

omit [FloatOps F] in
/-- The values the operations add. -/
def added : List (SketchOp F) → List F
  | [] => []
  | .add value :: ops => value :: added ops
  | .compact :: ops => added ops

end SketchOp

theorem Represents.compactBuckets {ε s vs} (h : Represents ε s vs) {s' : UDDSketch ℚ}
    (hs : s.compactBuckets = some s') : Represents ε s' vs := by
  obtain ⟨l, hl⟩ := h.buckets
  obtain ⟨b, e, hb⟩ := UDDSketch.compactBuckets_eq hl.holds
  obtain rfl := Option.some.inj (e.symm.trans hs)
  exact ⟨⟨_, hl.afterRounds 1 hb⟩, h.tallies.afterRounds 1 b⟩

/-- **A sketch represents what it was given, whatever compactions came between.** -/
theorem Represents.run {ε : ℚ} (hε : smallestBase ≤ base ε 0) {ops : List (SketchOp ℚ)} :
    ∀ {s vs s'}, Represents ε s vs → (∀ v ∈ SketchOp.added ops, IsFinite v) →
      SketchOp.run s ops = some s' → Represents ε s' (vs + SketchOp.added ops) := by
  induction ops with
  | nil =>
    intro s vs s' h _ hs
    obtain rfl : s = s' := Option.some.inj hs
    rw [SketchOp.added, Multiset.coe_nil, add_zero]
    exact h
  | cons op ops ih =>
    intro s vs s' h hf hs
    rw [SketchOp.run, List.foldlM_cons, Option.bind_eq_bind] at hs
    obtain ⟨s₁, h₁, h₂⟩ := Option.bind_eq_some_iff.mp hs
    cases op with
    | add v =>
      have h' := (h.addValue hε (hf v List.mem_cons_self) h₁).1
      have := ih h' (fun w hw => hf w (List.mem_cons_of_mem _ hw)) h₂
      rwa [SketchOp.added, ← Multiset.cons_coe, Multiset.add_cons, ← Multiset.cons_add]
    | compact => exact ih (h.compactBuckets h₁) hf h₂

/-- With at least seven buckets a run neither panics nor hangs. -/
theorem run_isSome {F : Type} [FloatOps F] (ops : List (SketchOp F)) :
    ∀ {s : UDDSketch F} {l}, Holds s.buckets l → 7 ≤ s.maxBuckets →
      (SketchOp.run s ops).isSome := by
  induction ops with
  | nil => intro s l _ _; rfl
  | cons op ops ih =>
    intro s l h hmax
    rw [SketchOp.run, List.foldlM_cons]
    cases op with
    | add value =>
      obtain ⟨s₁, l₁, e, h₁, hm⟩ := UDDSketch.addValue_ends h hmax value
      rw [SketchOp.apply, e]
      exact ih h₁ (by rw [hm]; exact hmax)
    | compact =>
      obtain ⟨b, e, hb⟩ := UDDSketch.compactBuckets_eq h
      rw [SketchOp.apply, e]
      exact ih hb hmax

/-- The sketch of one value needs no compaction. -/
theorem add_one {mb : ℕ} {ε v : ℚ} (hmb : 7 ≤ mb) (hε : UDDSketch.errorInRange ε) (hv : IsFinite v) :
    ∃ s₀ s l, UDDSketch.new mb ε = some s₀ ∧ s₀.addValue v = some s ∧ Bucketed ε s l {v} ∧
      Tallies s {v} ∧ s.compactions = 0 ∧ s.maxBuckets = mb := by
  have hbase : smallestBase ≤ base ε 0 := (errorBase_new hε).smallest
  obtain ⟨s₀, h₀⟩ : ∃ s₀, UDDSketch.new mb ε = some s₀ := ⟨_, if_pos hε⟩
  have hr₀ := represents_new h₀
  obtain ⟨hmb₀, hcomp₀⟩ : s₀.maxBuckets = mb ∧ s₀.compactions = 0 := by
    unfold UDDSketch.new at h₀
    rw [if_pos hε] at h₀
    rw [← Option.some.inj h₀]
    exact ⟨rfl, rfl⟩
  obtain ⟨l₀, hl₀⟩ := hr₀.buckets
  obtain ⟨s, -, hs, -, -⟩ := UDDSketch.addValue_ends hl₀.holds (hmb.trans_eq hmb₀.symm) v
  obtain ⟨hr, hmb', hfit⟩ := hr₀.addValue hbase hv hs
  -- one key fits, so the loop makes no round
  have hcomp : s.compactions = 0 := by
    by_contra hne
    have hmany := hfit.first 0 (by omega) (Nat.pos_of_ne_zero hne)
    have hone : bucketsAt ε (v ::ₘ 0) 0 ≤ 1 := by
      unfold bucketsAt
      calc _ ≤ (v ::ₘ (0 : Multiset ℚ)).toFinset.card :=
            Finset.card_image_le.trans Finset.card_image_le
        _ ≤ 1 := by simp
    rw [hmb₀] at hmany
    omega
  obtain ⟨l, hl⟩ := hr.buckets
  exact ⟨s₀, s, l, h₀, hs, hl, hr.tallies, hcomp, hmb'.trans hmb₀⟩

theorem Bucketed.expand_one {ε s l} {v : ℚ} (h : Bucketed ε s l {v}) :
    Bins.expand l = [UDDSketch.keyAt s.gamma v] := by
  have hbins := h.bins
  rw [Multiset.map_singleton, ← Multiset.coe_singleton] at hbins
  exact List.perm_singleton.mp (Multiset.coe_eq_coe.mp hbins)

/-! ### The value of a bucket -/

theorem bucketToValue_positive {s : UDDSketch ℚ} (i : Int64) :
    s.bucketToValue (.positive i) = some (s.gamma ^ (i.toInt - 1) * (1 + s.alpha)) := by
  have hnum : (((i.toInt : ℚ) - 1.0).num) = i.toInt - 1 := by
    rw [show ((i.toInt : ℚ) - 1.0) = ((i.toInt - 1 : ℤ) : ℚ) by norm_num, Rat.num_intCast]
  have hlit : (1.0 : ℚ) + s.alpha = 1 + s.alpha := by norm_num
  show some (s.gamma ^ ((i.toInt : ℚ) - 1.0).num * (1.0 + s.alpha)) = _
  rw [hnum, hlit]

theorem bucketToValue_negative {s : UDDSketch ℚ} (i : Int64) :
    s.bucketToValue (.negative i) = some (-(s.gamma ^ (i.toInt - 1) * (1 + s.alpha))) := by
  have h := bucketToValue_positive (s := s) i
  simp only [UDDSketch.bucketToValue, Option.some.injEq] at h ⊢
  rw [h]

/-- The middle of the interval `(g, γ g]` is within `α` of every point of it. -/
theorem middle_near {γ α g x : ℚ} (h : ErrorBase γ α) (h1 : g < x) (h2 : x ≤ γ * g) :
    |g * (1 + α) - x| ≤ α * x := by
  have hα := h.pos
  have hα1 : 0 < 1 - α := sub_pos.mpr h.lt_one
  have hup : (1 - α) * x ≤ g * (1 + α) := by
    calc (1 - α) * x ≤ (1 - α) * (γ * g) := mul_le_mul_of_nonneg_left h2 hα1.le
      _ = g * (γ * (1 - α)) := by ring
      _ = g * (1 + α) := by rw [h.eq]
  have hlo : g * (1 + α) ≤ (1 + α) * x := by
    rw [mul_comm]
    exact mul_le_mul_of_nonneg_left h1.le (by linarith)
  rw [abs_le]
  constructor <;> linarith

theorem exponent_interval {γ v : ℚ} (hγ : smallestBase ≤ γ) (hv : IsFinite v) (h0 : v ≠ 0) :
    let i := (Int64.ofIntClamp (LogScale.ceilLog γ |v|)).toInt
    γ ^ (i - 1) < |v| ∧ |v| ≤ γ * γ ^ (i - 1) := by
  have h1 := one_lt_of_smallest hγ
  obtain ⟨g1, g2⟩ := LogScale.ceilLog_spec h1 (abs_pos.mpr h0)
  simp only [(toInt_exponent hγ hv h0).1]
  refine ⟨g1, ?_⟩
  rwa [← zpow_one_add₀ (zero_lt_one.trans h1).ne', add_sub_cancel]

/-- **A bucket's value is within the error of every value in it.** -/
theorem bucketToValue_near {s : UDDSketch ℚ} (h : ErrorBase s.gamma s.alpha) {x : ℚ}
    (hx : IsFinite x) : ∃ y, s.bucketToValue (UDDSketch.keyAt s.gamma x) = some y ∧
      SignType.sign y = SignType.sign x ∧ |y - x| ≤ s.alpha * |x| := by
  have hγ : 0 < s.gamma := zero_lt_one.trans (one_lt_of_smallest h.smallest)
  have hα : 0 < 1 + s.alpha := add_pos zero_lt_one h.pos
  rcases lt_trichotomy x 0 with hneg | rfl | hpos
  · obtain ⟨h1, h2⟩ := exponent_interval h.smallest hx hneg.ne
    have hg := zpow_pos hγ ((Int64.ofIntClamp (LogScale.ceilLog s.gamma |x|)).toInt - 1)
    refine ⟨_, by rw [keyAt_neg _ hneg, bucketToValue_negative], ?_, ?_⟩
    · rw [sign_neg (neg_neg_of_pos (mul_pos hg hα)), sign_neg hneg]
    · have hnear := middle_near h h1 h2
      rw [abs_of_neg hneg] at hnear ⊢
      rwa [← abs_neg, neg_sub, sub_neg_eq_add, add_comm, ← sub_neg_eq_add]
  · refine ⟨0, ?_, rfl, ?_⟩
    · rw [keyAt_eq, if_pos rfl]
      show some (0.0 : ℚ) = _
      norm_num
    · rw [sub_zero, abs_zero, mul_zero]
  · obtain ⟨h1, h2⟩ := exponent_interval h.smallest hx hpos.ne'
    have hg := zpow_pos hγ ((Int64.ofIntClamp (LogScale.ceilLog s.gamma |x|)).toInt - 1)
    refine ⟨_, by rw [keyAt_pos _ hpos, bucketToValue_positive], ?_, ?_⟩
    · rw [sign_pos (mul_pos hg hα), sign_pos hpos]
    · have hnear := middle_near h h1 h2
      rwa [abs_of_pos hpos] at hnear ⊢

/-! ### The bucket at a rank -/

/-- The copies in the bins, in order, are the keys of the sorted values. -/
theorem Bucketed.expand_eq {ε s l vs} (h : Bucketed ε s l vs) :
    Bins.expand l = vs.sort.map (UDDSketch.keyAt s.gamma) := by
  have hsorted : (vs.sort.map (UDDSketch.keyAt s.gamma)).Pairwise (· ≤ ·) := by
    rw [List.pairwise_map]
    refine (vs.pairwise_sort (· ≤ ·)).imp_of_mem fun ha hb hab => ?_
    exact keyAt_mono h.error.smallest (h.finite _ ((Multiset.mem_sort _).mp ha))
      (h.finite _ ((Multiset.mem_sort _).mp hb)) hab
  have hperm : (Bins.expand l).Perm (vs.sort.map (UDDSketch.keyAt s.gamma)) := by
    rw [← Multiset.coe_eq_coe, h.bins, ← Multiset.map_coe, Multiset.sort_eq]
  exact hperm.eq_of_pairwise (fun _ _ _ _ => le_antisymm) h.holds.ascending.sorted_expand hsorted

/-- `estimate_quantile` answers for the bucket of the value of its rank. -/
theorem Represents.estimateQuantile_eq {ε s vs} (h : Represents ε s vs) (hne : vs ≠ 0) {q : ℚ}
    (h0 : 0 ≤ q) (h1 : q ≤ 1) :
    ∃ x ∈ vs, vs.sort[min (⌊(vs.card : ℚ) * q⌋₊ + 1) vs.card - 1]? = some x ∧
      s.estimateQuantile q = s.bucketToValue (UDDSketch.keyAt s.gamma x) := by
  obtain ⟨l, hl⟩ := h.buckets
  have hcard : s.numValues = vs.card := h.tallies.numValues
  have hlen : (Bins.expand l).length = s.numValues := by
    rw [hl.expand_eq, List.length_map, Multiset.length_sort, hcard]
  have hn : s.numValues ≠ 0 := by
    rw [hcard]
    exact (Multiset.card_pos.mpr hne).ne'
  have hzero : FloatOps.le (0.0 : ℚ) q = true := by
    simp only [FloatOps.le, decide_eq_true_eq]
    norm_num
    exact h0
  have hone : FloatOps.le q (1.0 : ℚ) = true := by
    simp only [FloatOps.le, decide_eq_true_eq]
    norm_num
    exact h1
  obtain ⟨k, hk, he⟩ := estimateQuantile_key hl.holds hl.pos hlen hn hzero hone
  rw [hl.expand_eq, List.getElem?_map, hcard] at hk
  obtain ⟨x, hx, rfl⟩ := Option.map_eq_some_iff.mp hk
  exact ⟨x, (Multiset.mem_sort _).mp (List.mem_of_getElem? hx), hx, he⟩

/-- Every quantile is within the sketch's error of the value of its rank. -/
def WithinError (s : UDDSketch ℚ) (vs : Multiset ℚ) : Prop :=
  ∀ q, 0 ≤ q → q ≤ 1 → ∃ x y, vs.sort[min (⌊(vs.card : ℚ) * q⌋₊ + 1) vs.card - 1]? = some x ∧
    s.estimateQuantile q = some y ∧ |y - x| ≤ s.maxError * |x|

theorem Represents.withinError {ε s vs} (h : Represents ε s vs) (hne : vs ≠ 0) :
    WithinError s vs := by
  intro q h0 h1
  obtain ⟨x, hmem, hx, hy⟩ := h.estimateQuantile_eq hne h0 h1
  obtain ⟨l, hl⟩ := h.buckets
  obtain ⟨y, hy', -, hnear⟩ := bucketToValue_near hl.error (hl.finite x hmem)
  exact ⟨x, y, hx, hy.trans hy', hnear⟩

/-- **Quantiles have bounded relative error**, the bound being the current one
of `max_error`. -/
theorem estimateQuantile_error {mb : ℕ} {ε : ℚ} {s₀ s : UDDSketch ℚ} {ops : List (SketchOp ℚ)}
    {q : ℚ} (hnew : UDDSketch.new mb ε = some s₀) (hrun : SketchOp.run s₀ ops = some s)
    (hfin : ∀ v ∈ SketchOp.added ops, IsFinite v) (hne : SketchOp.added ops ≠ [])
    (h0 : 0 ≤ q) (h1 : q ≤ 1) :
    ∃ x y, (SketchOp.added ops).mergeSort[min (⌊((SketchOp.added ops).length : ℚ) * q⌋₊ + 1)
        (SketchOp.added ops).length - 1]? = some x ∧
      s.estimateQuantile q = some y ∧
      SignType.sign y = SignType.sign x ∧ |y - x| ≤ s.maxError * |x| := by
  have h := (represents_new hnew).run (smallest_le_base hnew) hfin hrun
  rw [zero_add] at h
  obtain ⟨x, hmem, hx, hy⟩ := h.estimateQuantile_eq ((Multiset.coe_eq_zero _).not.mpr hne) h0 h1
  obtain ⟨l, hl⟩ := h.buckets
  obtain ⟨y, hy', hnear⟩ := bucketToValue_near hl.error (hl.finite x hmem)
  exact ⟨x, y, hx, hy.trans hy', hnear⟩

theorem run_pair : ∃ s₀ s : UDDSketch ℚ, UDDSketch.new 8 (1 / 2) = some s₀ ∧
    SketchOp.run s₀ [.add 2, .compact, .add (-3)] = some s := by
  obtain ⟨s₀, h₀⟩ : ∃ s₀, UDDSketch.new 8 (1 / 2 : ℚ) = some s₀ := ⟨_, if_pos half_inRange⟩
  have hmax : 7 ≤ s₀.maxBuckets := by
    rw [UDDSketch.new, if_pos half_inRange] at h₀
    rw [← Option.some.inj h₀]
    decide
  obtain ⟨l, hl⟩ := (represents_new h₀).buckets
  obtain ⟨s, hs⟩ := Option.isSome_iff_exists.mp
    (run_isSome [.add 2, .compact, .add (-3)] hl.holds hmax)
  exact ⟨s₀, s, h₀, hs⟩

theorem finite_pair : ∀ v ∈ SketchOp.added [.add 2, .compact, .add (-3 : ℚ)], IsFinite v := by
  intro v hv
  have hmem : v = 2 ∨ v = -3 := by simpa [SketchOp.added] using hv
  rcases hmem with rfl | rfl <;> apply isFinite_of_moderate <;> norm_num

/-- Two values, one compaction between them, at the median. -/
theorem estimateQuantile_error_pair : ∃ s₀ s : UDDSketch ℚ, ∃ y,
    UDDSketch.new 8 (1 / 2) = some s₀ ∧ SketchOp.run s₀ [.add 2, .compact, .add (-3)] = some s ∧
      s.estimateQuantile (1 / 2) = some y ∧ SignType.sign y = 1 ∧ |y - 2| ≤ s.maxError * 2 := by
  obtain ⟨s₀, s, h₀, hs⟩ := run_pair
  obtain ⟨x, y, hx, hy, hsign, hnear⟩ := estimateQuantile_error (q := 1 / 2) h₀ hs finite_pair
    (by simp [SketchOp.added]) (by norm_num) (by norm_num)
  have hx2 : x = 2 := by
    have hsort : ([2, -3] : List ℚ).mergeSort = [-3, 2] := by
      norm_num [List.mergeSort, List.MergeSort.Internal.splitInTwo, List.merge]
    simp only [SketchOp.added, hsort] at hx
    norm_num at hx
    exact hx.symm
  subst hx2
  exact ⟨s₀, s, y, h₀, hs, hy, hsign.trans (by norm_num), by simpa using hnear⟩

end ChalkMetrics
