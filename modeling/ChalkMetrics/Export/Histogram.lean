/-
# Rendered histograms

The count printed for a bucket boundary is the rounded estimate of the number of
values up to it, or the largest one printed before (`bucketCounts_eq`). Where
the keys of the boundaries do not descend, it is its own estimate, and the
histogram is valid: near the true counts, growing with the boundary and bounded
by the count printed for `+Inf`. Where they descend once, the sketch of a single
value renders to an invalid one (`histogram_valid_iff`, `descending_boundaries`).

Key definitions: `runningMax`, `ValidHistogram`.
-/
import ChalkMetrics.Export.Prometheus
import ChalkMetrics.Sketch.Rank

namespace ChalkMetrics

open SketchHashKey SketchHashMap Ranks

/-! ### Running maxima -/

/-- Every number, or a larger one before it; at least `c`. -/
def runningMax : ℕ → List ℕ → List ℕ
  | _, [] => []
  | c, n :: ns => max c n :: runningMax (max c n) ns

theorem length_runningMax : ∀ (c : ℕ) (ns : List ℕ), (runningMax c ns).length = ns.length
  | _, [] => rfl
  | c, n :: ns => congrArg (· + 1) (length_runningMax (max c n) ns)

theorem runningMax_sorted : ∀ {c : ℕ} {ns : List ℕ}, (∀ n ∈ ns, c ≤ n) → ns.Pairwise (· ≤ ·) →
    runningMax c ns = ns
  | _, [], _, _ => rfl
  | c, n :: ns, hc, hs => by
    obtain ⟨hn, hs⟩ := List.pairwise_cons.mp hs
    rw [runningMax, max_eq_right (hc n List.mem_cons_self), runningMax_sorted hn hs]

theorem le_of_mem_runningMax : ∀ {c : ℕ} {ns : List ℕ} {m : ℕ}, m ∈ runningMax c ns → c ≤ m
  | _, [], _, h => absurd h List.not_mem_nil
  | c, n :: ns, m, h => by
    rw [runningMax] at h
    rcases List.mem_cons.mp h with rfl | h
    · exact le_max_left _ _
    · exact (le_max_left _ _).trans (le_of_mem_runningMax h)

/-- No number is forgotten later on. -/
theorem le_runningMax : ∀ {c : ℕ} {ns : List ℕ} {i j n m : ℕ}, i ≤ j → ns[i]? = some n →
    (runningMax c ns)[j]? = some m → n ≤ m
  | _, [], i, _, _, _, _, hi, _ => by simp at hi
  | c, a :: ns, 0, j, n, m, _, hi, hj => by
    obtain rfl : a = n := by simpa using hi
    rw [runningMax] at hj
    rcases j with _ | j
    · obtain rfl : max c a = m := by simpa using hj
      exact le_max_right _ _
    · rw [List.getElem?_cons_succ] at hj
      exact (le_max_right c a).trans (le_of_mem_runningMax (List.mem_of_getElem? hj))
  | c, a :: ns, i + 1, j, n, m, hij, hi, hj => by
    obtain ⟨j, rfl⟩ : ∃ j', j = j' + 1 := ⟨j - 1, by omega⟩
    rw [runningMax, List.getElem?_cons_succ] at hj
    rw [List.getElem?_cons_succ] at hi
    exact le_runningMax (by omega) hi hj

/-! ### Rounding -/

/-- `round() as u64` of a number that is not negative. -/
theorem toU64_round {v : ℚ} (h : 0 ≤ v) : FloatOps.toU64 (FloatOps.round v) = ⌊v + 1 / 2⌋₊ := by
  have hround : ratRound v = ⌊v + 1 / 2⌋ := if_neg (not_lt.mpr h)
  show ⌊((ratRound v : ℤ) : ℚ)⌋.toNat = _
  rw [hround, Int.floor_intCast, Int.floor_toNat]

theorem round_near {v : ℚ} (h : 0 ≤ v) : |(⌊v + 1 / 2⌋₊ : ℚ) - v| ≤ 1 / 2 := by
  have hlow := Nat.floor_le (a := v + 1 / 2) (by linarith)
  have hhigh := Nat.lt_floor_add_one (v + 1 / 2)
  rw [abs_le]
  constructor <;> linarith

/-! ### The printed counts -/

/-- What text exact numbers are written as. -/
structure RatText where
  display : ℚ → Text
  display_mem : ∀ v, ∀ c ∈ display v, c ∈ numberChars

abbrev RatText.floatText (P : RatText) : FloatText ℚ where
  display := P.display
  display_mem := P.display_mem

/-- The rounded estimate for one boundary. -/
def ownCount (ks : List SketchHashKey) (k : SketchHashKey) : ℕ := ⌊midRank ks k + 1 / 2⌋₊

theorem ownCount_mono (ks : List SketchHashKey) {k k' : SketchHashKey} (h : k ≤ k') :
    ownCount ks k ≤ ownCount ks k' := by
  apply Nat.floor_mono
  have hmono := midRank_mono ks h
  linarith

theorem ownCount_le (ks : List SketchHashKey) (k : SketchHashKey) : ownCount ks k ≤ ks.length := by
  have hle := midRank_le_length ks k
  have hlt : midRank ks k + 1 / 2 < (ks.length + 1 : ℕ) := by
    push_cast
    linarith
  have hfloor := (Nat.floor_lt (add_nonneg (midRank_nonneg ks k) (by norm_num))).mpr hlt
  exact Nat.le_of_lt_succ hfloor

/-- Of a single value, its own bucket counts it. -/
theorem ownCount_self (k : SketchHashKey) : ownCount [k] k = 1 := by
  simp only [ownCount, midRank]
  norm_num

theorem ownCount_below {k k' : SketchHashKey} (h : k < k') : ownCount [k'] k = 0 := by
  have hmid : midRank [k'] k = 0 := by simp [midRank, h.ne', h.not_gt]
  rw [ownCount, hmid]
  exact Nat.floor_eq_zero.mpr (by norm_num)

section

variable {ε : ℚ} {s : UDDSketch ℚ} {vs : Multiset ℚ} {l : List (SketchHashKey × ℕ)}

theorem Represents.ownCount (h : Represents ε s vs) (hl : Bucketed ε s l vs) (x : ℚ) :
    ∃ share, s.estimateQuantileAtValue x = some share ∧
      FloatOps.toU64 (FloatOps.round (share * (s.count : ℚ))) =
        ChalkMetrics.ownCount (Bins.expand l) (s.key x) := by
  have hcount : s.count = vs.card := h.tallies.numValues
  by_cases hne : vs = 0
  · subst hne
    have hzero : (0.0 : ℚ) * ((0 : ℕ) : ℚ) = midRank (Bins.expand l) (s.key x) := by
      rw [hl.expand_eq, Multiset.sort_zero]
      norm_num [midRank]
    refine ⟨0.0, ?_, ?_⟩
    · have hn : s.numValues = 0 := h.tallies.numValues
      rw [UDDSketch.estimateQuantileAtValue, if_pos hn]
    · rw [hcount, Multiset.card_zero, hzero, toU64_round (midRank_nonneg _ _)]
      rfl
  · have hpos : ((vs.card : ℕ) : ℚ) ≠ 0 := by exact_mod_cast (Multiset.card_pos.mpr hne).ne'
    refine ⟨_, h.estimateQuantileAtValue_eq hl hne x, ?_⟩
    rw [hcount, ← hl.expand_eq, div_mul_cancel₀ _ hpos, toU64_round (midRank_nonneg _ _)]
    rfl

/-- **The printed counts are the running maxima of the estimates.** -/
theorem Represents.bucketCounts_eq (P : RatText) (h : Represents ε s vs) (hl : Bucketed ε s l vs) :
    ∀ (c : ℕ) (bs : List ℚ), @bucketCounts ℚ P.floatText s c bs =
      some (runningMax c (bs.map fun b => ChalkMetrics.ownCount (Bins.expand l) (s.key b)))
  | _, [] => rfl
  | c, b :: bs => by
    obtain ⟨share, hshare, hown⟩ := h.ownCount hl b
    have ih := Represents.bucketCounts_eq P h hl
      (max c (ChalkMetrics.ownCount (Bins.expand l) (s.key b))) bs
    unfold bucketCounts
    rw [hshare]
    simp only [Option.bind_eq_bind, Option.bind_some]
    rw [hown, ih]
    rfl

end

/-! ### Valid histograms -/

/-- The counts printed for the boundaries, and the lines they are printed on. -/
structure Rendered (P : RatText) (s : UDDSketch ℚ) (bs : List ℚ) (counts : List ℕ) : Prop where
  cumulative : @bucketCounts ℚ P.floatText s 0 bs = some counts
  lines : ∀ (e : PrometheusExporter ℚ) (m : FlushedMetric (BitVec 64) ℚ), e.bucketBoundaries = bs →
    m.value = .histogram s →
    let name := e.fullName m.namespacePath m.metricName.text
    let tagsStr := formatTags m.tags.pairs
    @PrometheusExporter.metricLines ℚ P.floatText e m = some
      (["# HELP ".toList ++ name ++ ' ' :: name, "# TYPE ".toList ++ name ++ " histogram".toList] ++
        List.zipWith (fun le n => bucketLine name tagsStr (@formatLe ℚ P.floatText le) n) bs counts ++
        [bucketLine name tagsStr "+Inf".toList s.count,
          name ++ "_sum".toList ++ tagsStr ++ ' ' :: P.display s.sum,
          name ++ "_count".toList ++ tagsStr ++ ' ' :: displayNat s.count])

/-- Counts of the values up to each boundary, up to half a bucket and rounding,
that grow with the boundary and do not exceed the number of values. -/
structure ValidHistogram (s : UDDSketch ℚ) (vs bs : List ℚ) (counts : List ℕ) : Prop where
  near : ∃ l : List (SketchHashKey × ℕ), s.buckets.iter = some l ∧
    ∀ (i : ℕ) (b : ℚ) (n : ℕ), bs[i]? = some b → counts[i]? = some n →
    |(n : ℚ) - vs.countP (· ≤ b)| ≤ (Bins.countAt (s.key b) l : ℚ) / 2 + 1 / 2
  mono : ∀ (i j : ℕ) (b b' : ℚ) (n n' : ℕ), bs[i]? = some b → bs[j]? = some b' → counts[i]? = some n →
    counts[j]? = some n' → b ≤ b' → n ≤ n'
  top : ∀ n ∈ counts, n ≤ s.count

theorem rendered_iff {P : RatText} {s : UDDSketch ℚ} {bs : List ℚ} {counts : List ℕ} :
    Rendered P s bs counts ↔ @bucketCounts ℚ P.floatText s 0 bs = some counts := by
  refine ⟨fun h => h.cumulative, fun h => ⟨h, fun e m he hm => ?_⟩⟩
  unfold PrometheusExporter.metricLines
  rw [hm, he]
  simp only [h, Option.bind_eq_bind, Option.bind_some, Option.pure_def]
  rfl

/-- The values that `add_value` alone is given. -/
theorem added_map_add {F : Type} : ∀ vs : List F, SketchOp.added (vs.map .add) = vs
  | [] => rfl
  | v :: vs => congrArg (List.cons v) (added_map_add vs)

section

variable {ε : ℚ} {s : UDDSketch ℚ} {vs bs : List ℚ} {l : List (SketchHashKey × ℕ)}

/-- Boundaries whose keys ascend at first ascend after any compactions. -/
theorem Bucketed.keys_ascend {us : Multiset ℚ} (hl : Bucketed ε s l us)
    (hε : smallestBase ≤ base ε 0) (hbs : ∀ b ∈ bs, IsFinite b)
    (h : (bs.map (UDDSketch.keyAt (base ε 0))).Pairwise (· ≤ ·)) :
    (bs.map s.key).Pairwise (· ≤ ·) := by
  have hkey : ∀ b ∈ bs, s.key b = compactKey^[s.compactions] (UDDSketch.keyAt (base ε 0) b) := by
    intro b hb
    rw [compactKey_iterate_keyAt hε (hbs b hb), UDDSketch.key, hl.gamma]
    rfl
  rw [List.pairwise_map] at h ⊢
  refine h.imp_of_mem fun hb hb' hle => ?_
  rw [hkey _ hb, hkey _ hb']
  exact compactKey_iterate_mono _ hle

/-- Half a bucket and rounding away from the count of the values up to `b`. -/
theorem Bucketed.ownCount_near {b : ℚ} (hl : Bucketed ε s l vs) (hb : IsFinite b) :
    |(ChalkMetrics.ownCount (Bins.expand l) (s.key b) : ℚ) - vs.countP (· ≤ b)| ≤
      (Bins.countAt (s.key b) l : ℚ) / 2 + 1 / 2 := by
  have hperm : (vs : Multiset ℚ).sort.Perm vs := by
    rw [← Multiset.coe_eq_coe, Multiset.sort_eq]
  have hmid := hl.midRank_near hb
  rw [← hl.expand_eq, hperm.countP_eq] at hmid
  have hround := round_near (midRank_nonneg (Bins.expand l) (s.key b))
  calc |(ChalkMetrics.ownCount (Bins.expand l) (s.key b) : ℚ) - vs.countP (· ≤ b)|
      ≤ |(ChalkMetrics.ownCount (Bins.expand l) (s.key b) : ℚ) - midRank (Bins.expand l) (s.key b)| +
          |midRank (Bins.expand l) (s.key b) - vs.countP (· ≤ b)| := abs_sub_le _ _ _
    _ ≤ 1 / 2 + (Bins.countAt (s.key b) l : ℚ) / 2 := add_le_add hround hmid
    _ = (Bins.countAt (s.key b) l : ℚ) / 2 + 1 / 2 := add_comm _ _

/-- **Ascending boundaries render to valid histograms.** -/
theorem Represents.validHistogram (h : Represents ε s vs) (hl : Bucketed ε s l vs)
    (hbs : ∀ b ∈ bs, IsFinite b) (hkeys : (bs.map s.key).Pairwise (· ≤ ·)) :
    ValidHistogram s vs bs
      (runningMax 0 (bs.map fun b => ChalkMetrics.ownCount (Bins.expand l) (s.key b))) := by
  set own := fun b => ChalkMetrics.ownCount (Bins.expand l) (s.key b) with hown
  have hsorted : (bs.map own).Pairwise (· ≤ ·) := by
    rw [List.pairwise_map] at hkeys ⊢
    exact hkeys.imp fun hle => ownCount_mono _ hle
  rw [runningMax_sorted (fun n _ => Nat.zero_le n) hsorted]
  have hget : ∀ {i : ℕ} {b : ℚ} {n : ℕ}, bs[i]? = some b → (bs.map own)[i]? = some n →
      b ∈ bs ∧ n = own b := by
    intro i b n hb hn
    rw [List.getElem?_map, hb] at hn
    exact ⟨List.mem_of_getElem? hb, (Option.some.inj hn).symm⟩
  refine ⟨⟨l, hl.holds.iter, fun i b n hb hn => ?_⟩, fun i j b b' n n' hb hb' hn hn' hle => ?_,
    fun n hn => ?_⟩
  · obtain ⟨hmem, rfl⟩ := hget hb hn
    exact hl.ownCount_near (hbs b hmem)
  · obtain ⟨hmem, rfl⟩ := hget hb hn
    obtain ⟨hmem', rfl⟩ := hget hb' hn'
    exact ownCount_mono _ (keyAt_mono hl.error.smallest (hbs b hmem) (hbs b' hmem') hle)
  · obtain ⟨b, -, rfl⟩ := List.mem_map.mp hn
    have hlen : (Bins.expand l).length = s.count := by
      rw [hl.expand_eq, List.length_map, Multiset.length_sort]
      exact h.tallies.numValues.symm
    exact (ownCount_le _ _).trans_eq hlen

/-- Of a single value, a boundary in its bucket prints 1, and so does every
boundary behind it. -/
theorem Bucketed.not_valid_one {v b : ℚ} {i j : ℕ} (hl : Bucketed ε s l {v}) (hv : IsFinite v)
    (hb : IsFinite b) (hij : i < j) (hi : bs[i]? = some v) (hj : bs[j]? = some b)
    (hlt : s.key b < s.key v) :
    ¬ ValidHistogram s [v] bs
      (runningMax 0 (bs.map fun b => ChalkMetrics.ownCount (Bins.expand l) (s.key b))) := by
  intro hvalid
  set own := fun b => ChalkMetrics.ownCount (Bins.expand l) (s.key b) with hown
  have hexp : Bins.expand l = [s.key v] := hl.expand_one
  have hown₁ : own v = 1 := by
    simp only [hown, hexp, ownCount_self]
  obtain ⟨n, hn⟩ : ∃ n, (runningMax 0 (bs.map own))[j]? = some n := by
    obtain ⟨hlen, -⟩ := List.getElem?_eq_some_iff.mp hj
    exact ⟨_, List.getElem?_eq_getElem (by simpa [length_runningMax] using hlen)⟩
  have hone : 1 ≤ n := by
    have hget : (bs.map own)[i]? = some 1 := by rw [List.getElem?_map, hi, Option.map_some, hown₁]
    exact le_runningMax hij.le hget hn
  obtain ⟨l', hl', hnear⟩ := hvalid.near
  obtain rfl : l = l' := Option.some.inj (hl.holds.iter.symm.trans hl')
  have hbound := hnear j b n hj hn
  have hcount : Bins.countAt (s.key b) l = 0 := by
    rw [hl.holds.ascending.countAt_eq, hexp]
    simp [hlt.ne']
  have hbv : ¬ v ≤ b := fun hle =>
    absurd (keyAt_mono hl.error.smallest hv hb hle) (not_le.mpr hlt)
  rw [hcount] at hbound
  simp only [List.countP_cons, List.countP_nil, hbv, decide_false] at hbound
  have hcast : (1 : ℚ) ≤ n := by exact_mod_cast hone
  norm_num at hbound
  linarith

end

/-- Every sketch of finite values with the error `ε` renders to a valid histogram. -/
def RendersValid (P : RatText) (ε : ℚ) (bs : List ℚ) : Prop :=
  ∀ (maxBuckets : ℕ) (s₀ s : UDDSketch ℚ) (vs : List ℚ), UDDSketch.new maxBuckets ε = some s₀ →
    SketchOp.run s₀ (vs.map .add) = some s → (∀ v ∈ vs, IsFinite v) →
      ∃ counts, Rendered P s bs counts ∧ ValidHistogram s vs bs counts

/-- **Histograms are valid exactly if the keys of the boundaries do not descend.** -/
theorem histogram_valid_iff (P : RatText) {ε : ℚ} (hε : UDDSketch.errorInRange ε) {bs : List ℚ}
    (hbs : ∀ b ∈ bs, IsFinite b) :
    RendersValid P ε bs ↔ (bs.map (UDDSketch.keyAt (base ε 0))).Pairwise (· ≤ ·) := by
  have hbase : smallestBase ≤ base ε 0 := (errorBase_new hε).smallest
  constructor
  · intro hall
    rw [List.pairwise_map, List.pairwise_iff_getElem]
    intro i j hi hj hij
    by_contra hlt
    have hfi : IsFinite bs[i] := hbs _ (List.getElem_mem hi)
    have hfj : IsFinite bs[j] := hbs _ (List.getElem_mem hj)
    -- the sketch of the boundary listed first, whose bucket lies above
    obtain ⟨s₀, s, l, h₀, hs, hl, ht, hcomp, -⟩ := add_one (le_refl 7) hε hfi
    have hr : Represents ε s [bs[i]] := ⟨⟨l, hl⟩, ht⟩
    have hgamma : s.gamma = base ε 0 := by rw [hl.gamma, hcomp]
    have hkey : s.key bs[j] < s.key bs[i] := by
      rw [UDDSketch.key, UDDSketch.key, hgamma]
      exact not_le.mp hlt
    have hrun : SketchOp.run s₀ ([bs[i]].map .add) = some s := by
      show (s₀.addValue bs[i]).bind some = some s
      rw [hs, Option.bind_some]
    obtain ⟨counts, hrendered, hvalid⟩ := hall 7 s₀ s [bs[i]] h₀ hrun (by simpa using hfi)
    obtain rfl : _ = counts :=
      Option.some.inj ((hr.bucketCounts_eq P hl 0 bs).symm.trans hrendered.cumulative)
    exact hl.not_valid_one hfi hfj hij (List.getElem?_eq_getElem hi) (List.getElem?_eq_getElem hj)
      hkey hvalid
  · intro hkeys maxBuckets s₀ s vs h₀ hrun hvs
    have hr := (represents_new h₀).run hbase (by rwa [added_map_add]) hrun
    rw [added_map_add, zero_add] at hr
    obtain ⟨l, hl⟩ := hr.buckets
    exact ⟨_, rendered_iff.mpr (hr.bucketCounts_eq P hl 0 bs),
      hr.validHistogram hl hbs (hl.keys_ascend hbase hbs hkeys)⟩

/-- Whole numbers, in decimal. -/
def wholeText : RatText where
  display v := displayInt v.num
  display_mem _ _ := mem_displayInt

/-- An ascending list of two boundaries. -/
theorem histogram_valid_ascending : RendersValid wholeText (1 / 2) [1, 10] ↔
    ([1, 10].map (UDDSketch.keyAt (base (1 / 2) 0))).Pairwise (· ≤ ·) := by
  apply histogram_valid_iff wholeText half_inRange
  intro b hb
  have hmem : b = 1 ∨ b = 10 := by simpa using hb
  rcases hmem with rfl | rfl <;> apply isFinite_of_moderate <;> norm_num

/-- Of a single 10, the boundary 1 prints the count of the boundary 10 before it. -/
theorem descending_boundaries : ∃ s₀ s : UDDSketch ℚ, UDDSketch.new 200 (1 / 2) = some s₀ ∧
    SketchOp.run s₀ [.add 10] = some s ∧ IsFinite 10 ∧ IsFinite 1 ∧
      Rendered wholeText s [10, 1] [1, 1] ∧
      ∀ counts, Rendered wholeText s [10, 1] counts → ¬ ValidHistogram s [10] [10, 1] counts := by
  have h10 : IsFinite 10 := isFinite_of_moderate (by norm_num) (by norm_num)
  have h1 : IsFinite 1 := isFinite_of_moderate (by norm_num) (by norm_num)
  obtain ⟨s₀, s, l, h₀, hs, hl, ht, hcomp, -⟩ := add_one (by decide : 7 ≤ 200) half_inRange h10
  have hr : Represents (1 / 2) s [(10 : ℚ)] := ⟨⟨l, hl⟩, ht⟩
  have hgamma : s.gamma = 3 := by rw [hl.gamma, hcomp, base_half]
  have hlt : s.key 1 < s.key 10 := by
    have hlog₁ : LogScale.ceilLog (3 : ℚ) 1 = 0 :=
      LogScale.ceilLog_unique (by norm_num) (by norm_num) (by norm_num)
    have hlog₁₀ : LogScale.ceilLog (3 : ℚ) 10 = 3 :=
      LogScale.ceilLog_unique (by norm_num) (by norm_num) (by norm_num)
    rw [UDDSketch.key, UDDSketch.key, hgamma, keyAt_pos _ one_pos, keyAt_pos _ (by norm_num), abs_one,
      abs_of_pos (by norm_num), hlog₁, hlog₁₀]
    decide
  have hexp : Bins.expand l = [s.key 10] := hl.expand_one
  have hcounts := hr.bucketCounts_eq wholeText hl 0 [10, 1]
  refine ⟨s₀, s, h₀, ?_, h10, h1, ?_, fun counts hrendered => ?_⟩
  · show (s₀.addValue 10).bind some = some s
    rw [hs, Option.bind_some]
  · have hown : runningMax 0
        ([10, 1].map fun b => ChalkMetrics.ownCount (Bins.expand l) (s.key b)) = [1, 1] := by
      rw [hexp, List.map_cons, List.map_cons, List.map_nil, ownCount_self, ownCount_below hlt]
      rfl
    rw [hown] at hcounts
    exact rendered_iff.mpr hcounts
  · obtain rfl := Option.some.inj (hcounts.symm.trans hrendered.cumulative)
    exact hl.not_valid_one h10 h1 Nat.zero_lt_one rfl rfl hlt

end ChalkMetrics
