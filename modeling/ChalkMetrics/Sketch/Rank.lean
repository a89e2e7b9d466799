/-
# The rank of a value

`estimate_quantile_at_value` walks the buckets up to the key of its argument
and counts half of that bucket: it is the mid-rank of the key among the keys of
the values (`estimateQuantileAtValue_eq`). So it brackets the number of values
up to the argument, and it answers the quantiles with their own rank
(`estimateQuantileAtValue_quantile`), since a bucket's value has the bucket's
key (`key_bucketToValue`).
-/
import ChalkMetrics.Lib.MidRank
import ChalkMetrics.Sketch.Quantile
import ChalkMetrics.Sketch.Reachable

namespace ChalkMetrics

open SketchHashKey SketchHashMap Ranks

/-! ### The loop -/

/-- The loop that counts up to a key ends with its mid-rank. -/
theorem rankOf_eq {n : ℕ} (hn : 0 < n) (t : SketchHashKey) : ∀ {l : List (SketchHashKey × ℕ)} {c : ℚ},
    Bins.Ascending l → c + Bins.total l = n →
    UDDSketch.rankOf n t c l = (c + midRank (Bins.expand l) t) / n
  | [], c, _, hc => by
    have hn' : (n : ℚ) ≠ 0 := by exact_mod_cast hn.ne'
    have hone : (1.0 : ℚ) = 1 := by norm_num
    rw [Bins.total_nil, Nat.cast_zero, add_zero] at hc
    rw [UDDSketch.rankOf, hc, hone]
    simp [midRank, hn']
  | (k, m) :: l, c, ha, hc => by
    obtain ⟨hk, hl⟩ := Bins.ascending_cons.mp ha
    have habove : ∀ t ≤ k, (Bins.expand l).countP (· < t) = 0 ∧ (Bins.expand l).count t = 0 := by
      intro t ht
      constructor
      · refine List.countP_eq_zero.mpr fun x hx => ?_
        have hx := hk x (Bins.mem_keys_of_mem_expand hx)
        simpa using ht.trans hx.le
      · refine List.count_eq_zero.mpr fun hx => ?_
        exact absurd (hk t (Bins.mem_keys_of_mem_expand hx)) (not_lt.mpr ht)
    rw [UDDSketch.rankOf]
    rcases lt_trichotomy k t with hlt | rfl | hgt
    · have hc' : (c + m) + Bins.total l = n := by
        rw [Bins.total_cons] at hc
        push_cast at hc
        linarith
      rw [if_pos ((partialCmp_gt t k).mpr hlt), rankOf_eq hn t hl hc']
      congr 1
      simp only [midRank, Bins.expand_cons, List.countP_append, List.count_append,
        List.countP_replicate, List.count_replicate]
      simp [hlt, hlt.ne]
      ring
    · obtain ⟨h0, h1⟩ := habove k le_rfl
      have htwo : (2.0 : ℚ) = 2 := by norm_num
      rw [if_neg fun h => absurd ((partialCmp_gt k k).mp h) (lt_irrefl k), if_pos rfl, htwo]
      congr 1
      simp [midRank, List.countP_append, List.count_append, List.countP_replicate, h0, h1]
    · obtain ⟨h0, h1⟩ := habove t hgt.le
      rw [if_neg fun h => absurd ((partialCmp_gt t k).mp h) (lt_asymm hgt), if_neg hgt.ne]
      congr 1
      simp [midRank, List.countP_append, List.count_append, List.countP_replicate,
        List.count_replicate, h0, h1, hgt.not_gt, hgt.ne']

theorem estimateQuantileAtValue_eq {s : UDDSketch ℚ} {l} (h : Holds s.buckets l)
    (hn : (Bins.expand l).length = s.numValues) (h0 : s.numValues ≠ 0) (x : ℚ) :
    s.estimateQuantileAtValue x = some (midRank (Bins.expand l) (s.key x) / s.numValues) := by
  have hzero : (0.0 : ℚ) + Bins.total l = s.numValues := by
    rw [← Bins.length_expand, hn]
    norm_num
  rw [UDDSketch.estimateQuantileAtValue, if_neg h0, h.iter]
  simp only [Option.bind_eq_bind, Option.bind_some]
  rw [rankOf_eq (Nat.pos_of_ne_zero h0) (s.key x) h.ascending hzero]
  norm_num

/-! ### The values up to a point -/

section

variable {ε : ℚ} {s : UDDSketch ℚ} {vs : Multiset ℚ} {l : List (SketchHashKey × ℕ)}

/-- The share of the values up to `x`, as the sketch estimates it. -/
theorem Represents.estimateQuantileAtValue_eq (h : Represents ε s vs) (hl : Bucketed ε s l vs)
    (hne : vs ≠ 0) (x : ℚ) :
    s.estimateQuantileAtValue x =
      some (midRank (vs.sort.map (UDDSketch.keyAt s.gamma)) (s.key x) / vs.card) := by
  have hcard : s.numValues = vs.card := h.tallies.numValues
  have hlen : (Bins.expand l).length = s.numValues := by
    rw [hl.expand_eq, List.length_map, Multiset.length_sort, hcard]
  have h0 : s.numValues ≠ 0 := by
    rw [hcard]
    exact (Multiset.card_pos.mpr hne).ne'
  rw [ChalkMetrics.estimateQuantileAtValue_eq hl.holds hlen h0, hl.expand_eq, hcard]

/-- It is off by at most half of the bucket of `x`. -/
theorem Bucketed.midRank_near (h : Bucketed ε s l vs) {x : ℚ} (hx : IsFinite x) :
    |midRank (vs.sort.map (UDDSketch.keyAt s.gamma)) (s.key x) - vs.sort.countP (· ≤ x)| ≤
      (Bins.countAt (s.key x) l : ℚ) / 2 := by
  have hfin : ∀ v ∈ vs.sort, IsFinite v := fun v hv => h.finite v ((Multiset.mem_sort _).mp hv)
  rw [h.holds.ascending.countAt_eq, h.expand_eq]
  exact Ranks.midRank_near (fun v hv hle => keyAt_mono h.error.smallest (hfin v hv) hx hle)
    fun v hv hle => keyAt_mono h.error.smallest hx (hfin v hv) hle

end

/-- **The estimated share of values is a monotone bracket of the true one.** -/
theorem estimateQuantileAtValue_bracket {mb : ℕ} {ε : ℚ} {s₀ s : UDDSketch ℚ}
    {ops : List (SketchOp ℚ)} (hnew : UDDSketch.new mb ε = some s₀)
    (hrun : SketchOp.run s₀ ops = some s) (hfin : ∀ v ∈ SketchOp.added ops, IsFinite v)
    (hne : SketchOp.added ops ≠ []) :
    ∃ (l : List (SketchHashKey × ℕ)) (share : ℚ → ℚ), s.buckets.iter = some l ∧
      (∀ x, s.estimateQuantileAtValue x = some (share x)) ∧
      (∀ x, 0 ≤ share x ∧ share x ≤ 1) ∧
      (∀ x y, IsFinite x → IsFinite y → x ≤ y → share x ≤ share y) ∧
      ∀ x, IsFinite x →
        |((SketchOp.added ops).length : ℚ) * share x - (SketchOp.added ops).countP (· ≤ x)| ≤
          (Bins.countAt (s.key x) l : ℚ) / 2 := by
  have h := (represents_new hnew).run (smallest_le_base hnew) hfin hrun
  rw [zero_add] at h
  set vs := SketchOp.added ops with hvs
  have hpos : (0 : ℚ) < vs.length := by exact_mod_cast List.length_pos_of_ne_nil hne
  obtain ⟨l, hl⟩ := h.buckets
  set ks := (vs : Multiset ℚ).sort.map (UDDSketch.keyAt s.gamma) with hks
  have hlen : (ks.length : ℚ) = vs.length := by
    rw [hks, List.length_map, Multiset.length_sort, Multiset.coe_card]
  refine ⟨l, fun x => midRank ks (s.key x) / vs.length, hl.holds.iter, fun x => ?_, fun x => ⟨?_, ?_⟩,
    fun x y hx hy hxy => ?_, fun x hx => ?_⟩
  · exact h.estimateQuantileAtValue_eq hl ((Multiset.coe_eq_zero _).not.mpr hne) x
  · exact div_nonneg (midRank_nonneg _ _) hpos.le
  · rw [div_le_one hpos, ← hlen]
    exact midRank_le_length _ _
  · have hkey : s.key x ≤ s.key y := keyAt_mono hl.error.smallest hx hy hxy
    exact div_le_div_of_nonneg_right (midRank_mono ks hkey) hpos.le
  · have hperm : (vs : Multiset ℚ).sort.Perm vs := by
      rw [← Multiset.coe_eq_coe, Multiset.sort_eq]
    rw [mul_div_cancel₀ _ hpos.ne', ← hperm.countP_eq]
    exact hl.midRank_near hx

/-- Two values, one compaction between them. -/
theorem estimateQuantileAtValue_bracket_pair : ∃ (s₀ s : UDDSketch ℚ)
    (l : List (SketchHashKey × ℕ)) (share : ℚ → ℚ), UDDSketch.new 8 (1 / 2) = some s₀ ∧
      SketchOp.run s₀ [.add 2, .compact, .add (-3)] = some s ∧ s.buckets.iter = some l ∧
      (∀ x, s.estimateQuantileAtValue x = some (share x)) ∧
      (∀ x, 0 ≤ share x ∧ share x ≤ 1) ∧
      (∀ x y, IsFinite x → IsFinite y → x ≤ y → share x ≤ share y) ∧
      ∀ x, IsFinite x → |(2 : ℚ) * share x - [2, -3].countP (· ≤ x)| ≤
        (Bins.countAt (s.key x) l : ℚ) / 2 := by
  obtain ⟨s₀, s, h₀, hs⟩ := run_pair
  obtain ⟨l, share, hl, h⟩ := estimateQuantileAtValue_bracket h₀ hs finite_pair
    (by simp [SketchOp.added])
  exact ⟨s₀, s, l, share, h₀, hs, hl, h⟩

/-! ### The rank of a quantile -/

theorem ofIntClamp_toInt (i : Int64) : Int64.ofIntClamp i.toInt = i := by
  have h1 := i.le_toInt
  have h2 := i.toInt_lt
  apply Int64.toInt_inj.mp
  apply Int64.toInt_ofIntClamp
  · rw [Int64.toInt_minValue]
    omega
  · rw [Int64.toInt_maxValue]
    omega

/-- The middle of a bucket is in it. -/
theorem ceilLog_middle {γ α : ℚ} (h : ErrorBase γ α) (i : Int64) :
    Int64.ofIntClamp (LogScale.ceilLog γ (γ ^ (i.toInt - 1) * (1 + α))) = i := by
  have h1 := one_lt_of_smallest h.smallest
  have hγ : 0 < γ := zero_lt_one.trans h1
  have hg : 0 < γ ^ (i.toInt - 1) := zpow_pos hγ _
  have hlog : LogScale.ceilLog γ (γ ^ (i.toInt - 1) * (1 + α)) = i.toInt := by
    apply LogScale.ceilLog_unique h1
    · exact lt_mul_of_one_lt_right hg (lt_add_of_pos_right 1 h.pos)
    · calc γ ^ (i.toInt - 1) * (1 + α) = γ ^ (i.toInt - 1) * γ * (1 - α) := by rw [← h.eq]; ring
        _ = γ ^ i.toInt * (1 - α) := by rw [← zpow_add_one₀ hγ.ne', sub_add_cancel]
        _ ≤ γ ^ i.toInt := mul_le_of_le_one_right (zpow_pos hγ _).le (sub_le_self 1 h.pos.le)
  rw [hlog, ofIntClamp_toInt]

/-- **A bucket's value has the bucket's key.** -/
theorem key_bucketToValue {s : UDDSketch ℚ} (h : ErrorBase s.gamma s.alpha) {k : SketchHashKey}
    {y : ℚ} (hy : s.bucketToValue k = some y) : s.key y = k := by
  have hγ : 0 < s.gamma := zero_lt_one.trans (one_lt_of_smallest h.smallest)
  have hpos : ∀ i : Int64, 0 < s.gamma ^ (i.toInt - 1) * (1 + s.alpha) := fun i =>
    mul_pos (zpow_pos hγ _) (add_pos zero_lt_one h.pos)
  unfold UDDSketch.key
  cases k with
  | invalid => cases hy
  | zero =>
    have hzero : y = 0 := by
      rw [← Option.some.inj hy]
      norm_num
    rw [hzero, keyAt_eq, if_pos rfl]
  | positive i =>
    rw [bucketToValue_positive] at hy
    obtain rfl := Option.some.inj hy
    rw [keyAt_pos _ (hpos i), abs_of_pos (hpos i), ceilLog_middle h]
  | negative i =>
    rw [bucketToValue_negative] at hy
    obtain rfl := Option.some.inj hy
    rw [keyAt_neg _ (neg_neg_of_pos (hpos i)), abs_neg, abs_of_pos (hpos i), ceilLog_middle h]

theorem reachable_errorBase {mb : ℕ} {s : UDDSketch ℚ} (h : s.Reachable mb) :
    ErrorBase s.gamma s.alpha := by
  refine h.scale (P := ErrorBase) (fun ε hε => ?_) fun g a hga => ?_
  · have hlit : ((1.0 + ε) / (1.0 - ε) : ℚ) = (1 + ε) / (1 - ε) := by norm_num
    rw [hlit]
    exact errorBase_new hε
  · have hlit : 2.0 * a / (1.0 + a * a) = 2 * a / (1 + a * a) := by norm_num
    rw [hlit]
    exact hga.square

/-- The rank `⌊n q⌋ + 1`, at most `n`, is within half a bucket of `n q`. -/
theorem midRank_quantile {ks : List SketchHashKey} {k : SketchHashKey} {q : ℚ}
    (hs : ks.Pairwise (· ≤ ·)) (hn : 0 < ks.length) (h0 : 0 ≤ q) (h1 : q ≤ 1)
    (hk : ks[min (⌊(ks.length : ℚ) * q⌋₊ + 1) ks.length - 1]? = some k) :
    |midRank ks k - ks.length * q| ≤ (ks.count k : ℚ) / 2 := by
  obtain ⟨hlow, hhigh⟩ := sorted_position hs hk
  have hnq : (0 : ℚ) ≤ ks.length * q := mul_nonneg (Nat.cast_nonneg _) h0
  have hfloor := Nat.floor_le hnq
  have hceil := Nat.lt_floor_add_one ((ks.length : ℚ) * q)
  have hle : (ks.length : ℚ) * q ≤ ks.length := mul_le_of_le_one_right (Nat.cast_nonneg _) h1
  set f := ⌊(ks.length : ℚ) * q⌋₊ with hf
  have hbelow : (ks.countP (· < k) : ℚ) ≤ ks.length * q := by
    have hnat : ks.countP (· < k) ≤ f := by omega
    have hcast : (ks.countP (· < k) : ℚ) ≤ f := by exact_mod_cast hnat
    exact hcast.trans hfloor
  have habove : (ks.length : ℚ) * q ≤ ks.countP (· < k) + ks.count k := by
    by_cases hlast : f + 1 ≤ ks.length
    · have hnat : f + 1 ≤ ks.countP (· < k) + ks.count k := by omega
      have hcast : ((f : ℚ) + 1) ≤ ks.countP (· < k) + ks.count k := by exact_mod_cast hnat
      exact hceil.le.trans hcast
    · have hnat : ks.length ≤ ks.countP (· < k) + ks.count k := by omega
      have hcast : (ks.length : ℚ) ≤ ks.countP (· < k) + ks.count k := by exact_mod_cast hnat
      exact hle.trans hcast
  unfold midRank
  rw [abs_le]
  constructor <;> linarith

/-- **Quantile and share agree**: a bucket's value has the bucket's key, and the
share of a quantile is the quantile, up to half of its bucket. -/
theorem estimateQuantile_share {mb : ℕ} {s : UDDSketch ℚ} (h : s.Reachable mb)
    (hne : s.numValues ≠ 0) :
    (∀ k y, s.bucketToValue k = some y → s.key y = k) ∧
      ∀ q, 0 ≤ q → q ≤ 1 → ∃ l k y share, s.buckets.iter = some l ∧ k ∈ Bins.keys l ∧
        s.bucketToValue k = some y ∧ s.estimateQuantile q = some y ∧
        s.estimateQuantileAtValue y = some share ∧
        |share - q| ≤ (Bins.countAt k l : ℚ) / (2 * s.numValues) := by
  have herr := reachable_errorBase h
  refine ⟨fun k y => key_bucketToValue herr, fun q h0 h1 => ?_⟩
  obtain ⟨l, hc, -, -⟩ := reachable_counts feq_abs_zero h
  have hzero : FloatOps.le (0.0 : ℚ) q = true := by
    simp only [FloatOps.le, decide_eq_true_eq]
    norm_num
    exact h0
  have hone : FloatOps.le q (1.0 : ℚ) = true := by
    simp only [FloatOps.le, decide_eq_true_eq]
    norm_num
    exact h1
  obtain ⟨k, hk, he⟩ := estimateQuantile_key hc.holds hc.pos hc.length hne hzero hone
  have hmem : k ∈ Bins.keys l := Bins.mem_keys_of_mem_expand (List.mem_of_getElem? hk)
  obtain ⟨y, hy⟩ := bucketToValue_isSome s fun hi => hc.holds.valid (hi ▸ hmem)
  have hshare := estimateQuantileAtValue_eq hc.holds hc.length hne y
  rw [key_bucketToValue herr hy] at hshare
  refine ⟨l, k, y, _, hc.holds.iter, hmem, hy, he.trans hy, hshare, ?_⟩
  have hn : (0 : ℚ) < s.numValues := by exact_mod_cast Nat.pos_of_ne_zero hne
  have hnear := midRank_quantile hc.holds.ascending.sorted_expand
    (hc.length.symm ▸ Nat.pos_of_ne_zero hne) h0 h1 (hc.length.symm ▸ hk)
  rw [hc.length, ← hc.holds.ascending.countAt_eq] at hnear
  calc |midRank (Bins.expand l) k / s.numValues - q|
      = |midRank (Bins.expand l) k - s.numValues * q| / s.numValues := by
        rw [← abs_of_pos hn, ← abs_div, abs_of_pos hn, sub_div, mul_div_cancel_left₀ _ hn.ne']
    _ ≤ (Bins.countAt k l : ℚ) / 2 / s.numValues := div_le_div_of_nonneg_right hnear hn.le
    _ = (Bins.countAt k l : ℚ) / (2 * s.numValues) := div_div _ _ _

/-- A value, merged with itself. -/
theorem estimateQuantile_share_twice : ∃ s₀ s₁ s₂ : UDDSketch ℚ,
    UDDSketch.new 7 (1 / 2) = some s₀ ∧ s₀.addValue 2 = some s₁ ∧ s₁.mergeSketch s₁ = some s₂ ∧
      (∀ k y, s₂.bucketToValue k = some y → s₂.key y = k) ∧
      ∀ q, 0 ≤ q → q ≤ 1 → ∃ l k y share, s₂.buckets.iter = some l ∧ k ∈ Bins.keys l ∧
        s₂.bucketToValue k = some y ∧ s₂.estimateQuantile q = some y ∧
        s₂.estimateQuantileAtValue y = some share ∧
        |share - q| ≤ (Bins.countAt k l : ℚ) / (2 * s₂.numValues) := by
  obtain ⟨s₀, h₀⟩ : ∃ s₀, UDDSketch.new 7 (1 / 2 : ℚ) = some s₀ := ⟨_, if_pos half_inRange⟩
  have hr₀ : s₀.Reachable 7 := .new h₀
  obtain ⟨s₁, h₁, -⟩ := (reachable_safe feq_abs_zero le_rfl hr₀).addValue 2
  have hr₁ : s₁.Reachable 7 := .addValue hr₀ h₁
  obtain ⟨s₂, h₂, -⟩ := (reachable_safe feq_abs_zero le_rfl hr₁).mergeSketch s₁ hr₁
  have hn₁ : s₁.numValues ≠ 0 := by
    rw [UDDSketch.addValue_numValues h₁]
    exact Nat.succ_ne_zero _
  have hn₂ : s₂.numValues ≠ 0 := by
    obtain ⟨l, hc, -, -⟩ := reachable_counts feq_abs_zero hr₁
    rw [UDDSketch.mergeSketch_numValues hc.holds hc.holds h₂]
    omega
  exact ⟨s₀, s₁, s₂, h₀, h₁, h₂, estimateQuantile_share (.mergeSketch hr₁ hr₁ h₂) hn₂⟩

end ChalkMetrics
