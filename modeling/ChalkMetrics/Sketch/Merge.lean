/-
# The sketch of a multiset is canonical

A sketch put together by `add_value` and `merge_sketch` in any order and tree
shape is the sketch that was given all the values one by one
(`build_eq_run`). The number of compactions does not depend on the way there:
`bucketsAt` grows with the values, so rounds one part needed the whole needs
too, and both stop at the first number of rounds that fits (`Canonical`). At
equal rounds the bins are the same multiset of keys in the same order, and a
map is determined by its bins (`Holds.unique`).

Key definitions: `Recipe`, `Recipe.build`, `Canonical`.
-/
import ChalkMetrics.Sketch.Quantile

namespace ChalkMetrics

open SketchHashKey SketchHashMap

/-! ### A map is its bins -/

theorem SketchHashMap.LinkedTo.lookup_eq {m m' : EntryMap} {nxt} : ∀ {l : List (SketchHashKey × ℕ)},
    LinkedTo m nxt l → LinkedTo m' nxt l → ∀ k ∈ Bins.keys l, m.lookup k = m'.lookup k
  | [], _, _, k, hk => absurd hk List.not_mem_nil
  | (k', c) :: l, h, h', k, hk => by
    rcases List.mem_cons.mp hk with rfl | hk
    · exact h.1.trans h'.1.symm
    · exact LinkedTo.lookup_eq h.2 h'.2 k hk

theorem SketchHashMap.Holds.unique {s s' : SketchHashMap} {l} (h : Holds s l) (h' : Holds s' l) : s = s' := by
  obtain ⟨m, hd⟩ := s
  obtain ⟨m', hd'⟩ := s'
  have hmap : m = m' := by
    apply Finmap.ext_lookup
    intro k
    by_cases hk : k ∈ Bins.keys l
    · exact LinkedTo.lookup_eq h.linked h'.linked k hk
    · have e1 : m.lookup k = none := Finmap.lookup_eq_none.mpr fun hm => hk ((h.dom k).mp hm)
      have e2 : m'.lookup k = none := Finmap.lookup_eq_none.mpr fun hm => hk ((h'.dom k).mp hm)
      rw [e1, e2]
  have hhead : hd = hd' := h.head.trans h'.head.symm
  rw [hmap, hhead]

/-! ### Canonical sketches -/

/-- `s` represents `vs` after the fewest compactions that fit. -/
structure Canonical (ε : ℚ) (mb : ℕ) (s : UDDSketch ℚ) (vs : Multiset ℚ) : Prop where
  represents : Represents ε s vs
  maxBuckets : s.maxBuckets = mb
  firstFit : FirstFit ε vs mb 0 s.compactions

/-- Rounds that part of the values needs can be left out of the search. -/
theorem FirstFit.extend {ε mb vs ws c₀ c} (h : FirstFit ε ws mb c₀ c) (hle : vs ≤ ws)
    (hvs : ∀ j < c₀, mb < bucketsAt ε vs j) : FirstFit ε ws mb 0 c where
  le := Nat.zero_le _
  fits := h.fits
  first j _ hj := by
    by_cases hc : c₀ ≤ j
    · exact h.first j hc hj
    · exact (hvs j (not_le.mp hc)).trans_le (bucketsAt_mono ε hle j)

theorem canonical_new {mb : ℕ} {ε : ℚ} {s : UDDSketch ℚ} (h : UDDSketch.new mb ε = some s) :
    Canonical ε mb s 0 := by
  have hr := represents_new h
  unfold UDDSketch.new at h
  split_ifs at h
  obtain rfl := Option.some.inj h
  exact ⟨hr, rfl, le_rfl, Nat.zero_le _, fun j _ hj => absurd hj (Nat.not_lt_zero j)⟩

theorem Canonical.addValue {ε mb s vs} (h : Canonical ε mb s vs) (hε : smallestBase ≤ base ε 0)
    {v : ℚ} (hv : IsFinite v) {s' : UDDSketch ℚ} (hs : s.addValue v = some s') :
    Canonical ε mb s' (v ::ₘ vs) := by
  obtain ⟨hr, hm, hfit⟩ := h.represents.addValue hε hv hs
  rw [h.maxBuckets] at hm hfit
  exact ⟨hr, hm, hfit.extend (Multiset.le_cons_self _ _) fun j hj =>
    h.firstFit.first j (Nat.zero_le _) hj⟩

/-- **Two canonical sketches of the same values are the same.** -/
theorem Canonical.unique {ε mb s s' vs} (h : Canonical ε mb s vs) (h' : Canonical ε mb s' vs) :
    s = s' := by
  have hc : s.compactions = s'.compactions := by
    rcases lt_trichotomy s.compactions s'.compactions with hlt | heq | hlt
    · exact absurd h.firstFit.fits (not_le.mpr (h'.firstFit.first _ (Nat.zero_le _) hlt))
    · exact heq
    · exact absurd h'.firstFit.fits (not_le.mpr (h.firstFit.first _ (Nat.zero_le _) hlt))
  obtain ⟨l, hl⟩ := h.represents.buckets
  obtain ⟨l', hl'⟩ := h'.represents.buckets
  have hγ : s.gamma = s'.gamma := by rw [hl.gamma, hl'.gamma, hc]
  have hα : s.alpha = s'.alpha := by
    have he := hl.error
    rw [hγ] at he
    exact he.unique hl'.error
  have hll : l = l' := by
    apply Bins.eq_of_expand_perm hl.holds.ascending hl'.holds.ascending hl.pos hl'.pos
    rw [← Multiset.coe_eq_coe, hl.bins, hl'.bins, hγ]
  subst hll
  have hb := hl.holds.unique hl'.holds
  have ht := h.represents.tallies
  have ht' := h'.represents.tallies
  obtain ⟨b, α, γ, c, m, n, sum, lo, hi, z⟩ := s
  obtain ⟨b', α', γ', c', m', n', sum', lo', hi', z'⟩ := s'
  simp only [UDDSketch.mk.injEq]
  exact ⟨hb, hα, hγ, hc, h.maxBuckets.trans h'.maxBuckets.symm,
    ht.numValues.trans ht'.numValues.symm, ht.valuesSum.trans ht'.valuesSum.symm,
    ht.min.trans ht'.min.symm, ht.max.trans ht'.max.symm, ht.zeroCount.trans ht'.zeroCount.symm⟩

/-! ### Merging -/

theorem Bucketed.addBuckets {ε s o b l l' vs ws} (h : Bucketed ε s l vs) (h' : Bucketed ε o l' ws)
    (hc : s.compactions = o.compactions) (hb : Holds b (Bins.bumps l' l)) :
    Bucketed ε { s with buckets := b } (Bins.bumps l' l) (vs + ws) where
  holds := hb
  pos := Bins.bumps_pos h'.pos h.pos
  bins := by
    have hγ : s.gamma = o.gamma := by rw [h.gamma, h'.gamma, hc]
    rw [Multiset.coe_eq_coe.mpr (Bins.expand_bumps l' l), ← Multiset.coe_add, h'.bins, h.bins,
      Multiset.map_add, hγ, add_comm]
  finite v hv := (Multiset.mem_add.mp hv).elim (h.finite v) (h'.finite v)
  error := h.error
  gamma := h.gamma

theorem Tallies.addTotals {s o : UDDSketch ℚ} {vs ws} (h : Tallies s vs) (h' : Tallies o ws) :
    Tallies (UDDSketch.addTotals o s) (vs + ws) where
  numValues := by
    show s.numValues + o.numValues = _
    rw [h.numValues, h'.numValues, Multiset.card_add]
  valuesSum := by
    show s.valuesSum + o.valuesSum = _
    rw [h.valuesSum, h'.valuesSum, Multiset.sum_add]
  min := by
    show Min.min s.min o.min = _
    have hf := Multiset.fold_add Min.min maxFinite maxFinite vs ws
    rw [min_self] at hf
    rw [h.min, h'.min, hf]
  max := by
    show Max.max s.max o.max = _
    have hf := Multiset.fold_add Max.max (-maxFinite) (-maxFinite) vs ws
    rw [max_self] at hf
    rw [h.max, h'.max, hf]
  zeroCount := by
    show s.zeroCount + o.zeroCount = _
    rw [h.zeroCount, h'.zeroCount, Multiset.count_add]

theorem Tallies.eq_zero {s : UDDSketch ℚ} {vs} (h : Tallies s vs) (h0 : s.numValues = 0) :
    vs = 0 :=
  Multiset.card_eq_zero.mp (h.numValues.symm.trans h0)

/-- What merging two sketches with values makes, and how far it compacts. -/
theorem Represents.mergeSketch {ε s o vs ws} (h : Represents ε s vs) (h' : Represents ε o ws)
    (hε : smallestBase ≤ base ε 0) (hmax : s.maxBuckets = o.maxBuckets) (h0 : s.numValues ≠ 0)
    (ho : o.numValues ≠ 0) {s' : UDDSketch ℚ} (hs : s.mergeSketch o = some s') :
    Represents ε s' (vs + ws) ∧ s'.maxBuckets = s.maxBuckets ∧
      FirstFit ε (vs + ws) s.maxBuckets (s.compactions + (o.compactions - s.compactions))
        s'.compactions := by
  obtain ⟨l, hl⟩ := h.buckets
  obtain ⟨l', hl'⟩ := h'.buckets
  obtain ⟨bs, bo, b, hbs, hbo, hb, e⟩ :=
    UDDSketch.mergeSketch_eq hl.holds hl'.holds hmax h0 ho
  rw [e] at hs
  obtain ⟨s₁, h₁, rfl⟩ := Option.map_eq_some_iff.mp hs
  have hboth := (hl.afterRounds _ hbs).addBuckets (hl'.afterRounds _ hbo)
    (by simp only [UDDSketch.afterRounds]; omega) hb
  obtain ⟨c, b', m, rfl, hm, hfit⟩ := compactWhile_bucketed hboth hε h₁
  refine ⟨⟨⟨m, ?_⟩, ?_⟩, rfl, hfit⟩
  · exact ⟨hm.holds, hm.pos, hm.bins, hm.finite, hm.error, hm.gamma⟩
  · exact ((h.tallies.afterRounds _ b).afterRounds c b').addTotals h'.tallies

/-- **Merging canonical sketches gives the canonical sketch of all the values.** -/
theorem Canonical.mergeSketch {ε mb s o vs ws} (h : Canonical ε mb s vs)
    (h' : Canonical ε mb o ws) (hε : smallestBase ≤ base ε 0) {s' : UDDSketch ℚ}
    (hs : s.mergeSketch o = some s') : Canonical ε mb s' (vs + ws) := by
  have hmax : s.maxBuckets = o.maxBuckets := h.maxBuckets.trans h'.maxBuckets.symm
  by_cases ho : o.numValues = 0
  · rw [UDDSketch.mergeSketch, if_neg (not_not.mpr hmax), if_pos ho] at hs
    rw [← Option.some.inj hs, h'.represents.tallies.eq_zero ho, add_zero]
    exact h
  by_cases h0 : s.numValues = 0
  · rw [UDDSketch.mergeSketch, if_neg (not_not.mpr hmax), if_neg ho, if_pos h0] at hs
    rw [← Option.some.inj hs, h.represents.tallies.eq_zero h0, zero_add]
    exact h'
  obtain ⟨hr, hmb, hfit⟩ := h.represents.mergeSketch h'.represents hε hmax h0 ho hs
  rw [h.maxBuckets] at hmb hfit
  refine ⟨hr, hmb, ⟨Nat.zero_le _, hfit.fits, fun j _ hj => ?_⟩⟩
  -- a round either side had to make, or one of the loop's
  by_cases h1 : j < s.compactions
  · exact (h.firstFit.first j (Nat.zero_le _) h1).trans_le
      (bucketsAt_mono ε (Multiset.le_add_right _ _) j)
  by_cases h2 : j < o.compactions
  · exact (h'.firstFit.first j (Nat.zero_le _) h2).trans_le
      (bucketsAt_mono ε (Multiset.le_add_left _ _) j)
  · exact hfit.first j (by omega) hj

/-! ### Recipes -/

/-- A way to put a sketch together. -/
inductive Recipe (F : Type) where
  | fresh
  | add (part : Recipe F) (value : F)
  | merge (part other : Recipe F)

namespace Recipe

def build {F : Type} [FloatOps F] (maxBuckets : ℕ) (initialError : F) :
    Recipe F → Option (UDDSketch F)
  | fresh => UDDSketch.new maxBuckets initialError
  | add part value => do (← build maxBuckets initialError part).addValue value
  | merge part other => do
    (← build maxBuckets initialError part).mergeSketch (← build maxBuckets initialError other)

/-- The values that go in. -/
def values {F : Type} : Recipe F → Multiset F
  | fresh => 0
  | add part value => value ::ₘ values part
  | merge part other => values part + values other

/-- One fresh sketch and `add_value` for every value. -/
def ofList {F : Type} (vs : List F) : Recipe F := vs.foldl add fresh

theorem values_foldl {F : Type} (vs : List F) :
    ∀ r : Recipe F, values (vs.foldl add r) = values r + vs := by
  induction vs with
  | nil => intro r; simp
  | cons v vs ih =>
    intro r
    rw [List.foldl_cons, ih, values, ← Multiset.cons_coe, Multiset.add_cons, Multiset.cons_add]

theorem values_ofList {F : Type} (vs : List F) : values (ofList vs) = vs := by
  rw [ofList, values_foldl, values, zero_add]

/-- **Every way to build a sketch gives the canonical one.** -/
theorem build_canonical {mb : ℕ} {ε : ℚ} (hmb : 7 ≤ mb) (hε : UDDSketch.errorInRange ε)
    (r : Recipe ℚ) (hfin : ∀ v ∈ r.values, IsFinite v) :
    ∃ s, r.build mb ε = some s ∧ Canonical ε mb s r.values := by
  have hbase : smallestBase ≤ base ε 0 := (errorBase_new hε).smallest
  induction r with
  | fresh =>
    obtain ⟨s, hs⟩ : ∃ s, UDDSketch.new mb ε = some s := ⟨_, if_pos hε⟩
    exact ⟨s, hs, canonical_new hs⟩
  | add part v ih =>
    obtain ⟨hv, hpart⟩ := Multiset.forall_mem_cons.mp hfin
    obtain ⟨s, hs, hcan⟩ := ih hpart
    obtain ⟨l, hl⟩ := hcan.represents.buckets
    obtain ⟨s', -, hs', -, -⟩ :=
      UDDSketch.addValue_ends hl.holds (hmb.trans_eq hcan.maxBuckets.symm) v
    refine ⟨s', ?_, hcan.addValue hbase hv hs'⟩
    rw [build, hs]
    exact hs'
  | merge part other ih ih' =>
    obtain ⟨s, hs, hcan⟩ := ih fun v hv => hfin v (Multiset.mem_add.mpr (Or.inl hv))
    obtain ⟨o, ho, hcan'⟩ := ih' fun v hv => hfin v (Multiset.mem_add.mpr (Or.inr hv))
    obtain ⟨l, hl⟩ := hcan.represents.buckets
    obtain ⟨l', hl'⟩ := hcan'.represents.buckets
    obtain ⟨s', -, hs', -, -⟩ := UDDSketch.mergeSketch_ends hl.holds hl'.holds
      (hcan.maxBuckets.trans hcan'.maxBuckets.symm) (hmb.trans_eq hcan.maxBuckets.symm)
    refine ⟨s', ?_, hcan.mergeSketch hcan' hbase hs'⟩
    rw [build, hs, ho]
    exact hs'

end Recipe

/-- **The sketch of a multiset is canonical**: however it was put together, it is
the sketch that took the values one by one, after the fewest compactions that
leave at most `mb` keys. -/
theorem build_eq_ofList {mb : ℕ} {ε : ℚ} (hmb : 7 ≤ mb) (hε : UDDSketch.errorInRange ε)
    (r : Recipe ℚ) (hfin : ∀ v ∈ r.values, IsFinite v) (vs : List ℚ) (hvs : r.values = vs) :
    ∃ s l, r.build mb ε = some s ∧ (Recipe.ofList vs).build mb ε = some s ∧
      s.buckets.iter = some l ∧ IsLeast {c | bucketsAt ε r.values c ≤ mb} s.compactions := by
  obtain ⟨s, hs, hcan⟩ := Recipe.build_canonical hmb hε r hfin
  have hval : (Recipe.ofList vs).values = r.values := (Recipe.values_ofList vs).trans hvs.symm
  obtain ⟨s', hs', hcan'⟩ := Recipe.build_canonical hmb hε (Recipe.ofList vs) (hval ▸ hfin)
  rw [hval] at hcan'
  obtain rfl := hcan.unique hcan'
  obtain ⟨l, hl⟩ := hcan.represents.buckets
  refine ⟨s, l, hs, hs', hl.holds.iter, hcan.firstFit.fits, fun c hc => ?_⟩
  by_contra hlt
  exact absurd hc (not_le.mpr (hcan.firstFit.first c (Nat.zero_le _) (not_le.mp hlt)))

/-- Three values in two parts, an empty part merged in. -/
theorem build_eq_ofList_parts : ∃ s l,
    (Recipe.merge (.add (.add .fresh 3) (-2)) (.merge .fresh (.add .fresh 2))).build 7 (1 / 2 : ℚ) =
        some s ∧
      (Recipe.ofList [2, 3, -2]).build 7 (1 / 2 : ℚ) = some s ∧ s.buckets.iter = some l ∧
      IsLeast {c | bucketsAt (1 / 2)
        (Recipe.merge (.add (.add .fresh 3) (-2)) (.merge .fresh (.add .fresh 2))).values c ≤ 7}
        s.compactions := by
  apply build_eq_ofList (by decide)
  · simp only [UDDSketch.errorInRange, FloatOps.le, FloatOps.lt]
    norm_num
  · intro v hv
    have hmem : v = -2 ∨ v = 3 ∨ v = 2 := by simpa [Recipe.values, or_assoc] using hv
    rcases hmem with rfl | rfl | rfl <;> apply isFinite_of_moderate <;> norm_num
  · decide

end ChalkMetrics
