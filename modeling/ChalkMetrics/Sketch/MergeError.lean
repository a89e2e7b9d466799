/-
# The error after a merge

`merge_sketch` asks for equal `max_buckets` only. Sketches with one initial
error have the same base after the same number of compactions, and merging
keeps the error bound. With two initial errors the buckets of one side are read
under the other side's base: some value of `other` is then off by more than the
error (`filed_right`), so the bound survives every merge just when the initial
errors are equal (`merge_withinError_iff`).

Key definitions: `Made`, `WithinError`.
-/
import ChalkMetrics.Sketch.Merge

namespace ChalkMetrics

open SketchHashKey SketchHashMap

/-- The sketches of finite values made with this `max_buckets` and initial
error, and their values. -/
inductive Made (mb : ℕ) (ε : ℚ) : UDDSketch ℚ → Multiset ℚ → Prop
  | new {s} : UDDSketch.new mb ε = some s → Made mb ε s 0
  | addValue {s s' vs v} : Made mb ε s vs → IsFinite v → s.addValue v = some s' →
      Made mb ε s' (v ::ₘ vs)
  | compactBuckets {s s' vs} : Made mb ε s vs → s.compactBuckets = some s' → Made mb ε s' vs
  | mergeSketch {s o s' vs ws} : Made mb ε s vs → Made mb ε o ws → s.mergeSketch o = some s' →
      Made mb ε s' (vs + ws)

theorem compactBuckets_maxBuckets {s s' : UDDSketch ℚ} (h : s.compactBuckets = some s') :
    s'.maxBuckets = s.maxBuckets := by
  obtain ⟨b, -, h⟩ := Option.bind_eq_some_iff.mp h
  rw [← Option.some.inj h]

theorem Represents.mergeSketch_any {ε s o vs ws} (h : Represents ε s vs) (h' : Represents ε o ws)
    (hε : smallestBase ≤ base ε 0) (hmax : s.maxBuckets = o.maxBuckets) {s' : UDDSketch ℚ}
    (hs : s.mergeSketch o = some s') :
    Represents ε s' (vs + ws) ∧ s'.maxBuckets = s.maxBuckets := by
  by_cases ho : o.numValues = 0
  · rw [UDDSketch.mergeSketch, if_neg (not_not.mpr hmax), if_pos ho] at hs
    rw [← Option.some.inj hs, h'.tallies.eq_zero ho, add_zero]
    exact ⟨h, rfl⟩
  by_cases h0 : s.numValues = 0
  · rw [UDDSketch.mergeSketch, if_neg (not_not.mpr hmax), if_neg ho, if_pos h0] at hs
    rw [← Option.some.inj hs, h.tallies.eq_zero h0, zero_add]
    exact ⟨h', hmax.symm⟩
  obtain ⟨hr, hmb, -⟩ := h.mergeSketch h' hε hmax h0 ho hs
  exact ⟨hr, hmb⟩

theorem Made.represents {mb ε s vs} (h : Made mb ε s vs) (hε : smallestBase ≤ base ε 0) :
    Represents ε s vs ∧ s.maxBuckets = mb := by
  induction h with
  | new h =>
    refine ⟨represents_new h, ?_⟩
    unfold UDDSketch.new at h
    split_ifs at h
    rw [← Option.some.inj h]
    rfl
  | addValue _ hv hs ih =>
    obtain ⟨hr, hmb⟩ := ih
    obtain ⟨hr', hmb', -⟩ := hr.addValue hε hv hs
    exact ⟨hr', hmb'.trans hmb⟩
  | compactBuckets _ hs ih =>
    obtain ⟨hr, hmb⟩ := ih
    exact ⟨hr.compactBuckets hs, (compactBuckets_maxBuckets hs).trans hmb⟩
  | mergeSketch _ _ hs ih ih' =>
    obtain ⟨hr, hmb⟩ := ih
    obtain ⟨hr', hmb'⟩ := ih'
    obtain ⟨hm, hmb''⟩ := hr.mergeSketch_any hr' hε (hmb.trans hmb'.symm) hs
    exact ⟨hm, hmb''.trans hmb⟩

/-! ### Two values under two bases -/

/-- A sketch of one value, not compacted. -/
theorem made_one {mb : ℕ} {ε v : ℚ} (hmb : 7 ≤ mb) (hε : UDDSketch.errorInRange ε) (hv : IsFinite v) :
    ∃ s l, Made mb ε s {v} ∧ Bucketed ε s l {v} ∧ s.numValues = 1 ∧ s.compactions = 0 ∧
      s.alpha = ε ∧ s.maxBuckets = mb := by
  obtain ⟨s₀, s, l, h₀, hs, hl, ht, hcomp, hmbs⟩ := add_one hmb hε hv
  refine ⟨s, l, .addValue (.new h₀) hv hs, hl, ht.numValues, hcomp, ?_, hmbs⟩
  have hgamma : ErrorBase (base ε 0) s.alpha := by
    have herr := hl.error
    rwa [hl.gamma, hcomp] at herr
  exact hgamma.unique (errorBase_new hε)

theorem zero_le_positive (i : Int64) : SketchHashKey.zero ≤ .positive i := by
  simp [le_iff_rank, rank, Prod.Lex.toLex_le_toLex]

/-- A zero and a positive value merged. -/
theorem merge_two_bins {mb : ℕ} {ε₁ ε₂ w : ℚ} (hmb : 7 ≤ mb) (h₁ : UDDSketch.errorInRange ε₁)
    (h₂ : UDDSketch.errorInRange ε₂) (hw : IsFinite w) (hpos : 0 < w) :
    ∃ s o m l, Made mb ε₁ s {0} ∧ Made mb ε₂ o {w} ∧ s.mergeSketch o = some m ∧
      m.gamma = base ε₁ 0 ∧ m.alpha = ε₁ ∧ m.numValues = 2 ∧ Holds m.buckets l ∧
        (∀ p ∈ l, 0 < p.2) ∧
          Bins.expand l = [.zero, .positive (Int64.ofIntClamp (LogScale.ceilLog (base ε₂ 0) w))] := by
  obtain ⟨s, l, hs, hl, hns, hcs, hαs, hmbs⟩ := made_one hmb h₁ (.inl rfl)
  obtain ⟨o, l', ho, hl', hno, hco, -, hmbo⟩ := made_one hmb h₂ hw
  obtain ⟨bs, bo, b, -, -, hb, e⟩ := UDDSketch.mergeSketch_eq hl.holds hl'.holds
    (hmbs.trans hmbo.symm) (by omega) (by omega)
  rw [hcs, hco, Nat.sub_self, Function.iterate_zero, id, id] at hb
  rw [hcs, hco, Nat.sub_self] at e
  have hposb := Bins.bumps_pos hl'.pos hl.pos
  have hexp : Bins.expand (Bins.bumps l' l) =
      [.zero, .positive (Int64.ofIntClamp (LogScale.ceilLog (base ε₂ 0) w))] := by
    have hzero : UDDSketch.keyAt s.gamma (0 : ℚ) = .zero := by rw [keyAt_eq, if_pos rfl]
    have hperm := Bins.expand_bumps l' l
    rw [hl.expand_one, hl'.expand_one, hzero, keyAt_pos _ hpos, hl'.gamma, hco,
      abs_of_pos hpos] at hperm
    refine (hperm.trans (List.Perm.swap _ _ _)).eq_of_pairwise (fun _ _ _ _ => le_antisymm)
      hb.ascending.sorted_expand ?_
    simp [zero_le_positive]
  have hlen : (Bins.bumps l' l).length ≤ 2 := by
    have hle := Bins.length_le_expand hposb
    rwa [hexp] at hle
  -- two keys fit, so the loop makes no round
  obtain ⟨s₁, hw₁⟩ := UDDSketch.compactWhile_isSome (c := 0) (n := UDDSketch.loopRounds)
    (s := { s.afterRounds 0 bs with buckets := b }) hb (Nat.zero_le _)
    (hlen.trans (by show 2 ≤ s.maxBuckets; omega))
  obtain ⟨c, -, b', hs₁, hb', -, hmany⟩ := UDDSketch.compactWhile_eq
    (s := { s.afterRounds 0 bs with buckets := b }) hb hw₁
  obtain rfl : c = 0 := by
    by_contra hne
    have hlt : s.maxBuckets < (Bins.bumps l' l).length := hmany 0 (Nat.pos_of_ne_zero hne)
    omega
  subst hs₁
  rw [hw₁, Option.map_some] at e
  refine ⟨s, o, _, Bins.bumps l' l, hs, ho, e, ?_, hαs, ?_, hb', hposb, hexp⟩
  · show s.gamma = _
    rw [hl.gamma, hcs]
  · show s.numValues + o.numValues = 2
    rw [hns, hno]

/-- The last of two values. -/
theorem estimateQuantile_two {m : UDDSketch ℚ} {l} {k k' : SketchHashKey} (h : Holds m.buckets l)
    (hpos : ∀ p ∈ l, 0 < p.2) (hn : m.numValues = 2) (hexp : Bins.expand l = [k, k']) :
    m.estimateQuantile 1 = m.bucketToValue k' := by
  have hlit : ∀ q : ℚ, q = 1 → FloatOps.le (0.0 : ℚ) q = true ∧ FloatOps.le q (1.0 : ℚ) = true := by
    rintro q rfl
    simp only [FloatOps.le, decide_eq_true_eq]
    norm_num
  obtain ⟨hq0, hq1⟩ := hlit 1 rfl
  have hlen : (Bins.expand l).length = m.numValues := by
    rw [hexp, hn]
    rfl
  obtain ⟨x, hx, he⟩ := estimateQuantile_key h hpos hlen (by omega) hq0 hq1
  have hfloor : FloatOps.toU64 (((2 : ℕ) : ℚ) * 1) = 2 := by
    show ⌊((2 : ℕ) : ℚ) * 1⌋.toNat = 2
    rw [mul_one, Int.floor_natCast, Int.toNat_natCast]
  rw [hn, hfloor] at hx
  have hsecond : (Bins.expand l)[1]? = some x := hx
  rw [hexp] at hsecond
  obtain rfl : k' = x := Option.some.inj hsecond
  exact he

/-- The value is read off the bucket that it has under its own base. -/
theorem merge_two {mb : ℕ} {ε₁ ε₂ w : ℚ} (hmb : 7 ≤ mb) (h₁ : UDDSketch.errorInRange ε₁)
    (h₂ : UDDSketch.errorInRange ε₂) (hw : IsFinite w) (hpos : 0 < w) :
    ∃ s o m, Made mb ε₁ s {0} ∧ Made mb ε₂ o {w} ∧ s.mergeSketch o = some m ∧ m.maxError = ε₁ ∧
      m.estimateQuantile 1 = some (base ε₁ 0 ^ (LogScale.ceilLog (base ε₂ 0) w - 1) * (1 + ε₁)) := by
  obtain ⟨s, o, m, l, hs, ho, e, hγ, hα, hn, hl, hposl, hexp⟩ := merge_two_bins hmb h₁ h₂ hw hpos
  have hexact := (toInt_exponent (errorBase_new h₂).smallest hw hpos.ne').1
  rw [abs_of_pos hpos] at hexact
  have hexact' : (Int64.ofIntClamp (LogScale.ceilLog (base ε₂ 0) w)).toInt =
    LogScale.ceilLog (base ε₂ 0) w := hexact
  refine ⟨s, o, m, hs, ho, e, hα, ?_⟩
  rw [estimateQuantile_two hl hposl hn hexp, bucketToValue_positive, hγ, hα, hexact']

/-! ### The bound after a merge -/

/-- A bucket's value is within the error only of the values of the bucket, ends
included. -/
theorem near_middle {γ α g x : ℚ} (h : ErrorBase γ α) (hx : |g * (1 + α) - x| ≤ α * x) :
    g ≤ x ∧ x ≤ γ * g := by
  have hα : 0 < 1 + α := add_pos zero_lt_one h.pos
  have hα1 : 0 < 1 - α := sub_pos.mpr h.lt_one
  obtain ⟨hlo, hhi⟩ := abs_le.mp hx
  constructor
  · have hmul : g * (1 + α) ≤ x * (1 + α) := by linarith
    exact le_of_mul_le_mul_right hmul hα
  · have hmul : x * (1 - α) ≤ γ * g * (1 - α) := by
      calc x * (1 - α) ≤ g * (1 + α) := by linarith
        _ = γ * g * (1 - α) := by rw [← h.eq]; ring
    exact le_of_mul_le_mul_right hmul hα1

/-- The bound after every merge. -/
def MergesWithin (mb : ℕ) (ε₁ ε₂ : ℚ) : Prop :=
  ∀ s o vs ws, Made mb ε₁ s vs → Made mb ε₂ o ws → vs ≠ 0 → ws ≠ 0 →
    ∃ m, s.mergeSketch o = some m ∧ WithinError m (vs + ws)

/-- The bound at the larger of two values. -/
theorem WithinError.two {m : UDDSketch ℚ} {w y : ℚ} (h : WithinError m ({0} + {w})) (hw : 0 < w)
    (hm : m.estimateQuantile 1 = some y) : |y - w| ≤ m.maxError * w := by
  obtain ⟨x, y', hx, hy, hnear⟩ := h 1 zero_le_one le_rfl
  have hsort : ({0} + {w} : Multiset ℚ).sort = [0, w] := by
    have hperm : ({0} + {w} : Multiset ℚ).sort.Perm [0, w] := by
      rw [← Multiset.coe_eq_coe, Multiset.sort_eq]
      rfl
    exact hperm.eq_of_pairwise (fun _ _ _ _ => le_antisymm) (Multiset.pairwise_sort _ _)
      (by simp [hw.le])
  have hcard : ({0} + {w} : Multiset ℚ).card = 2 := rfl
  have hfloor : ⌊((2 : ℕ) : ℚ) * 1⌋₊ = 2 := by rw [mul_one, Nat.floor_natCast]
  rw [hsort, hcard, hfloor] at hx
  obtain rfl : w = x := Option.some.inj hx
  obtain rfl := Option.some.inj (hm.symm.trans hy)
  rwa [abs_of_pos hw] at hnear

/-- If the bound survives, a value's bucket under the second base is its bucket
under the first. -/
theorem filed_right {mb : ℕ} {ε₁ ε₂ w : ℚ} (hmb : 7 ≤ mb) (h₁ : UDDSketch.errorInRange ε₁)
    (h₂ : UDDSketch.errorInRange ε₂) (hall : MergesWithin mb ε₁ ε₂) (hw : IsFinite w) (hpos : 0 < w) :
    base ε₁ 0 ^ (LogScale.ceilLog (base ε₂ 0) w - 1) ≤ w ∧
      w ≤ base ε₁ 0 ^ LogScale.ceilLog (base ε₂ 0) w := by
  obtain ⟨s, o, m, hs, ho, e, hα, hm⟩ := merge_two hmb h₁ h₂ hw hpos
  obtain ⟨m', e', hbound⟩ := hall s o {0} {w} hs ho (by simp) (by simp)
  obtain rfl := Option.some.inj (e.symm.trans e')
  have hnear := hbound.two hpos hm
  rw [hα] at hnear
  have herr := errorBase_new h₁
  have hγ : 0 < base ε₁ 0 := zero_lt_one.trans (one_lt_of_smallest herr.smallest)
  obtain ⟨hlo, hhi⟩ := near_middle herr hnear
  refine ⟨hlo, hhi.trans_eq ?_⟩
  show base ε₁ 0 * _ = _
  rw [← zpow_one_add₀ hγ.ne', add_sub_cancel]

/-- **Merging keeps the error bound just when the initial errors are equal.** -/
theorem merge_withinError_iff {mb : ℕ} {ε₁ ε₂ : ℚ} (hmb : 7 ≤ mb) (h₁ : UDDSketch.errorInRange ε₁)
    (h₂ : UDDSketch.errorInRange ε₂) (hf₁ : IsFinite (base ε₁ 0)) (hf₂ : IsFinite (base ε₂ 0)) :
    MergesWithin mb ε₁ ε₂ ↔ ε₁ = ε₂ := by
  have herr₁ : ErrorBase (base ε₁ 0) ε₁ := errorBase_new h₁
  have herr₂ : ErrorBase (base ε₂ 0) ε₂ := errorBase_new h₂
  have hγ₁ := one_lt_of_smallest herr₁.smallest
  have hγ₂ := one_lt_of_smallest herr₂.smallest
  constructor
  · intro hall
    have heq : base ε₁ 0 = base ε₂ 0 := by
      rcases lt_trichotomy (base ε₁ 0) (base ε₂ 0) with hlt | heq | hlt
      · -- the end of the first bucket of the larger base
        have hlog : LogScale.ceilLog (base ε₂ 0) (base ε₂ 0) = 1 :=
          LogScale.ceilLog_unique hγ₂ (by simpa using hγ₂) (by simp)
        have hright := (filed_right hmb h₁ h₂ hall hf₂ (zero_lt_one.trans hγ₂)).2
        rw [hlog, zpow_one] at hright
        exact absurd hright (not_le.mpr hlt)
      · exact heq
      · -- a value of the second bucket of the smaller base
        set w := min ((base ε₁ 0 + base ε₂ 0) / 2) (base ε₂ 0 * base ε₂ 0) with hw
        have hlow : base ε₂ 0 < w := lt_min (by linarith) (lt_mul_of_one_lt_left (by linarith) hγ₂)
        have hhigh : w < base ε₁ 0 := (min_le_left _ _).trans_lt (by linarith)
        have hpos : 0 < w := zero_lt_one.trans (hγ₂.trans hlow)
        have hfin : IsFinite w := by
          right
          have hbig := hf₁.resolve_left (by linarith)
          rw [abs_of_pos (zero_lt_one.trans hγ₁)] at hbig
          rw [abs_of_pos hpos]
          refine ⟨?_, hhigh.le.trans hbig.2⟩
          calc ((2 : ℚ) ^ 1074)⁻¹ ≤ 1 := inv_le_one_of_one_le₀ (one_le_pow₀ (by norm_num))
            _ ≤ w := (hγ₂.trans hlow).le
        have hlog : LogScale.ceilLog (base ε₂ 0) w = 2 := by
          apply LogScale.ceilLog_unique hγ₂
          · simpa using hlow
          · rw [zpow_ofNat, pow_two]
            exact min_le_right _ _
        have hright := (filed_right hmb h₁ h₂ hall hfin hpos).1
        rw [hlog] at hright
        norm_num at hright
        exact absurd hright (not_le.mpr hhigh)
    rw [← heq] at herr₂
    exact herr₁.unique herr₂
  · rintro rfl s o vs ws hs ho hvs _
    obtain ⟨hr, hmbs⟩ := hs.represents herr₁.smallest
    obtain ⟨hr', hmbo⟩ := ho.represents herr₁.smallest
    obtain ⟨l, hl⟩ := hr.buckets
    obtain ⟨l', hl'⟩ := hr'.buckets
    have hmax : s.maxBuckets = o.maxBuckets := hmbs.trans hmbo.symm
    obtain ⟨m, -, hm, -, -⟩ :=
      UDDSketch.mergeSketch_ends hl.holds hl'.holds hmax (hmb.trans_eq hmbs.symm)
    refine ⟨m, hm, ((hr.mergeSketch_any hr' herr₁.smallest hmax hm).1).withinError fun h0 => hvs ?_⟩
    exact (add_eq_zero.mp h0).1

theorem third_inRange : UDDSketch.errorInRange (1 / 3 : ℚ) := by
  simp only [UDDSketch.errorInRange, FloatOps.le, FloatOps.lt]
  norm_num

theorem base_third : base (1 / 3) 0 = 2 := by
  rw [base, Function.iterate_zero, id]
  norm_num

/-- Equal errors, and two different ones. -/
theorem merge_withinError_half : MergesWithin 200 (1 / 2) (1 / 2) ∧ ¬ MergesWithin 200 (1 / 2) (1 / 3) := by
  have h3 : IsFinite (base (1 / 2) 0) := by
    rw [base_half]
    exact isFinite_of_moderate (by norm_num) (by norm_num)
  have h2 : IsFinite (base (1 / 3) 0) := by
    rw [base_third]
    exact isFinite_of_moderate (by norm_num) (by norm_num)
  have hmb : 7 ≤ 200 := by decide
  refine ⟨(merge_withinError_iff hmb half_inRange half_inRange h3 h3).mpr rfl, fun hall => ?_⟩
  have heq := (merge_withinError_iff hmb half_inRange third_inRange h3 h2).mp hall
  norm_num at heq

/-- An 8 in the bucket `(4, 8]` of base 2 is read as one in the bucket `(9, 27]` of
base 3. -/
theorem merge_misreads : ∃ s o m, Made 200 (1 / 2) s {0} ∧ Made 200 (1 / 3) o {8} ∧
    s.mergeSketch o = some m ∧ m.maxError = 1 / 2 ∧ m.estimateQuantile 1 = some (27 / 2) ∧
      ¬ WithinError m ({0} + {8}) := by
  have h8 : IsFinite 8 := isFinite_of_moderate (by norm_num) (by norm_num)
  have hmb : 7 ≤ 200 := by decide
  obtain ⟨s, o, m, hs, ho, e, hα, hm⟩ := merge_two hmb half_inRange third_inRange h8 (by norm_num)
  have hlog : LogScale.ceilLog (2 : ℚ) 8 = 3 :=
    LogScale.ceilLog_unique (by norm_num) (by norm_num) (by norm_num)
  rw [base_half, base_third, hlog] at hm
  norm_num at hm
  refine ⟨s, o, m, hs, ho, e, hα, hm, fun hbound => ?_⟩
  have hnear := hbound.two (by norm_num) hm
  rw [hα] at hnear
  norm_num [abs_of_pos] at hnear

end ChalkMetrics
