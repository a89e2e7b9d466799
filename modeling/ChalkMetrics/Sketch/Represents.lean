/-
# What a sketch represents

`Represents ε s l vs`: the sketch `s`, made with error `ε`, has bins `l`, and
they are the keys of the values `vs` under the base it has reached. Compaction
(`Represents.afterRounds`), `addValue` and `mergeSketch` keep it. The number of
bins depends on the values and the number of rounds alone (`bucketsAt`), so the
compaction loops can be followed on `vs`: they end at the first number of
rounds with `bucketsAt ε vs c ≤ maxBuckets` (`compactWhile_represents`).
-/
import ChalkMetrics.Sketch.Exact

namespace ChalkMetrics

open SketchHashKey SketchHashMap

/-- The bins `l` of `s` are the keys of `vs` under the base `s` has reached. -/
structure Bucketed (ε : ℚ) (s : UDDSketch ℚ) (l : List (SketchHashKey × ℕ))
    (vs : Multiset ℚ) : Prop where
  holds : Holds s.buckets l
  pos : ∀ p ∈ l, 0 < p.2
  bins : (Bins.expand l : Multiset SketchHashKey) = vs.map (UDDSketch.keyAt s.gamma)
  finite : ∀ v ∈ vs, IsFinite v
  error : ErrorBase s.gamma s.alpha
  gamma : s.gamma = base ε s.compactions

/-- The running totals of `s` are those of `vs`. -/
structure Tallies (s : UDDSketch ℚ) (vs : Multiset ℚ) : Prop where
  numValues : s.numValues = vs.card
  valuesSum : s.valuesSum = vs.sum
  min : s.min = vs.fold min maxFinite
  max : s.max = vs.fold max (-maxFinite)
  zeroCount : s.zeroCount = vs.count 0

structure Represents (ε : ℚ) (s : UDDSketch ℚ) (vs : Multiset ℚ) : Prop where
  buckets : ∃ l, Bucketed ε s l vs
  tallies : Tallies s vs

theorem represents_new {mb : ℕ} {ε : ℚ} {s : UDDSketch ℚ} (h : UDDSketch.new mb ε = some s) :
    Represents ε s 0 := by
  unfold UDDSketch.new at h
  split_ifs at h with hε
  obtain rfl := Option.some.inj h
  have hlit : ((1.0 + ε) / (1.0 - ε) : ℚ) = (1 + ε) / (1 - ε) := by norm_num
  have he := errorBase_new hε
  rw [← hlit] at he
  refine ⟨⟨[], ?_⟩, ?_⟩
  · exact {
      holds := holds_new
      pos := fun p hp => absurd hp List.not_mem_nil
      bins := rfl
      finite := fun v hv => absurd hv (Multiset.notMem_zero v)
      error := he
      gamma := hlit }
  · exact {
      numValues := rfl
      valuesSum := by show (0.0 : ℚ) = _; norm_num
      min := rfl
      max := rfl
      zeroCount := rfl }

/-- A sketch that could be made has a base no smaller than the smallest. -/
theorem smallest_le_base {mb : ℕ} {ε : ℚ} {s : UDDSketch ℚ} (h : UDDSketch.new mb ε = some s) :
    smallestBase ≤ base ε 0 := by
  unfold UDDSketch.new at h
  split_ifs at h with hε
  exact (errorBase_new hε).smallest

/-- The keys in the bins are the keys of the values. -/
theorem Bucketed.keys {ε s l vs} (h : Bucketed ε s l vs) :
    (Bins.keys l).toFinset = vs.toFinset.image (UDDSketch.keyAt s.gamma) := by
  ext k
  rw [List.mem_toFinset, ← Bins.mem_expand_iff h.pos, ← Multiset.mem_coe, h.bins,
    Multiset.mem_map, Finset.mem_image]
  simp only [Multiset.mem_toFinset]

/-! ### Compaction -/

/-- How many keys `vs` has after `c` rounds of compaction. -/
def bucketsAt (ε : ℚ) (vs : Multiset ℚ) (c : ℕ) : ℕ :=
  ((vs.toFinset.image (UDDSketch.keyAt (base ε 0))).image compactKey^[c]).card

/-- More values have more keys. -/
theorem bucketsAt_mono (ε : ℚ) {vs ws : Multiset ℚ} (h : vs ≤ ws) (c : ℕ) :
    bucketsAt ε vs c ≤ bucketsAt ε ws c :=
  Finset.card_le_card (Finset.image_subset_image (Finset.image_subset_image fun _ hv =>
    Multiset.mem_toFinset.mpr (Multiset.mem_of_le h (Multiset.mem_toFinset.mp hv))))

theorem image_keyAt_iterate {vs : Multiset ℚ} (hvs : ∀ v ∈ vs, IsFinite v) {γ : ℚ}
    (hγ : smallestBase ≤ γ) (n : ℕ) :
    (vs.toFinset.image (UDDSketch.keyAt γ)).image compactKey^[n] =
      vs.toFinset.image (UDDSketch.keyAt ((fun g => g * g)^[n] γ)) := by
  rw [Finset.image_image]
  apply Finset.image_congr
  intro v hv
  exact compactKey_iterate_keyAt hγ (hvs v (Multiset.mem_toFinset.mp hv)) n

/-- `n` rounds on, the sketch has `bucketsAt` bins. -/
theorem Bucketed.length_rounds {ε s l vs} (h : Bucketed ε s l vs) (hε : smallestBase ≤ base ε 0)
    (n : ℕ) : ((Bins.regroup compactKey)^[n] l).length = bucketsAt ε vs (s.compactions + n) := by
  rw [length_regroup_iterate n h.holds.ascending, h.keys,
    image_keyAt_iterate h.finite h.error.smallest, bucketsAt, image_keyAt_iterate h.finite hε,
    ← base_add, Nat.zero_add, base_add, h.gamma]

theorem Bucketed.afterRounds {ε s l vs} (h : Bucketed ε s l vs) (n : ℕ) {b : SketchHashMap}
    (hb : Holds b ((Bins.regroup compactKey)^[n] l)) :
    Bucketed ε (s.afterRounds n b) ((Bins.regroup compactKey)^[n] l) vs where
  holds := hb
  pos := regroup_iterate_pos n h.pos
  bins := by
    rw [expand_regroup_iterate, ← Multiset.map_coe, h.bins, Multiset.map_map]
    apply Multiset.map_congr rfl
    intro v hv
    exact compactKey_iterate_keyAt h.error.smallest (h.finite v hv) n
  finite := h.finite
  error := h.error.iterate n
  gamma := by
    show (fun g => g * g)^[n] s.gamma = base ε (s.compactions + n)
    rw [base_add, h.gamma]

theorem Tallies.afterRounds {s : UDDSketch ℚ} {vs} (h : Tallies s vs) (n : ℕ) (b : SketchHashMap) :
    Tallies (s.afterRounds n b) vs where
  numValues := h.numValues
  valuesSum := h.valuesSum
  min := h.min
  max := h.max
  zeroCount := h.zeroCount

/-- `c` is the first number of rounds from `c₀` on that leaves at most `mb` keys. -/
structure FirstFit (ε : ℚ) (vs : Multiset ℚ) (mb c₀ c : ℕ) : Prop where
  le : c₀ ≤ c
  fits : bucketsAt ε vs c ≤ mb
  first : ∀ j, c₀ ≤ j → j < c → mb < bucketsAt ε vs j

/-- **The compaction loop, on the values.** -/
theorem compactWhile_bucketed {ε s l vs} {n : ℕ} {s' : UDDSketch ℚ} (h : Bucketed ε s l vs)
    (hε : smallestBase ≤ base ε 0) (hs : UDDSketch.compactWhile n s = some s') :
    ∃ c b l', s' = s.afterRounds c b ∧ Bucketed ε s' l' vs ∧
      FirstFit ε vs s.maxBuckets s.compactions s'.compactions := by
  obtain ⟨c, -, b, rfl, hb, hle, hlt⟩ := UDDSketch.compactWhile_eq h.holds hs
  refine ⟨c, b, _, rfl, h.afterRounds c hb, Nat.le_add_right _ _, ?_, fun j h1 h2 => ?_⟩
  · rw [h.length_rounds hε] at hle
    exact hle
  · have := hlt (j - s.compactions) (by simp only [UDDSketch.afterRounds] at h2; omega)
    rw [h.length_rounds hε, Nat.add_sub_cancel' h1] at this
    exact this

/-! ### Adding a value -/

theorem Bucketed.increment {ε s l vs} (h : Bucketed ε s l vs) {v : ℚ} (hv : IsFinite v) :
    ∃ b, s.buckets.increment (s.key v) = some b ∧
      Bucketed ε { s with buckets := b } (Bins.bump (s.key v) 1 l) (v ::ₘ vs) := by
  obtain ⟨b, e, hb⟩ := h.holds.addCount (UDDSketch.keyAt_ne_invalid s.gamma v) 1
  refine ⟨b, e, ?_⟩
  exact {
    holds := hb
    pos := Bins.bump_pos Nat.one_pos h.pos
    bins := by
      rw [Multiset.map_cons, ← h.bins]
      exact Multiset.coe_eq_coe.mpr (Bins.expand_bump _ 1 l)
    finite := Multiset.forall_mem_cons.mpr ⟨hv, h.finite⟩
    error := h.error
    gamma := h.gamma }

theorem Represents.addValue {ε s vs} (h : Represents ε s vs) (hε : smallestBase ≤ base ε 0)
    {v : ℚ} (hv : IsFinite v) {s' : UDDSketch ℚ} (hs : s.addValue v = some s') :
    Represents ε s' (v ::ₘ vs) ∧ s'.maxBuckets = s.maxBuckets ∧
      FirstFit ε (v ::ₘ vs) s.maxBuckets s.compactions s'.compactions := by
  obtain ⟨l, hl⟩ := h.buckets
  obtain ⟨b, e, hb⟩ := hl.increment hv
  have hnan : ¬ FloatOps.isNaN v := Bool.false_ne_true
  rw [UDDSketch.addValue, if_neg hnan, e, Option.bind_eq_bind, Option.bind_some] at hs
  obtain ⟨s₁, h₁, hs⟩ := Option.bind_eq_some_iff.mp hs
  obtain rfl := Option.some.inj hs
  obtain ⟨c, b', l', rfl, hl', hfit⟩ := compactWhile_bucketed hb hε h₁
  refine ⟨⟨⟨l', ?_⟩, ?_⟩, rfl, hfit⟩
  · exact ⟨hl'.holds, hl'.pos, hl'.bins, hl'.finite, hl'.error, hl'.gamma⟩
  · exact {
      numValues := by
        show s.numValues + 1 = _
        rw [h.tallies.numValues, Multiset.card_cons]
      valuesSum := by
        show s.valuesSum + v = _
        rw [h.tallies.valuesSum, Multiset.sum_cons, add_comm]
      min := by
        show Min.min s.min v = _
        rw [h.tallies.min, Multiset.fold_cons_right]
      max := by
        show Max.max s.max v = _
        rw [h.tallies.max, Multiset.fold_cons_right]
      zeroCount := by
        have h0 : FloatOps.feq v 0.0 = decide (v = 0) := by
          show decide (v = 0.0) = _
          norm_num
        show (if FloatOps.feq v 0.0 then s.zeroCount + 1 else s.zeroCount) = _
        rw [h0, h.tallies.zeroCount, Multiset.count_cons]
        by_cases hv0 : v = 0
        · simp [hv0]
        · simp [hv0, Ne.symm hv0] }

end ChalkMetrics
