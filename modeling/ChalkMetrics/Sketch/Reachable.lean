/-
# Reachable sketches

What holds of every sketch a program can put together by `new`, `add_value`,
`compact_buckets` and `merge_sketch`, over any `f64` arithmetic and whatever
exponent the logarithm yields: the counts of the buckets sum to `num_values`,
the one of `Zero` is `zero_count`, and there are at most `max_buckets` of them
(`reachable_counts`). So the rank `estimate_quantile` counts down from is found
(`estimateQuantile_isSome`).

Key definitions: `UDDSketch.Reachable`, `Counts`.
-/
import ChalkMetrics.Sketch.Compaction

namespace ChalkMetrics

open SketchHashKey SketchHashMap

/-- The sketches made with this `max_buckets`. -/
inductive UDDSketch.Reachable {F : Type} [FloatOps F] (mb : ℕ) : UDDSketch F → Prop
  | new {ε : F} {s} : UDDSketch.new mb ε = some s → Reachable mb s
  | addValue {s s' v} : Reachable mb s → s.addValue v = some s' → Reachable mb s'
  | compactBuckets {s s'} : Reachable mb s → s.compactBuckets = some s' → Reachable mb s'
  | mergeSketch {s o s'} : Reachable mb s → Reachable mb o → s.mergeSketch o = some s' →
      Reachable mb s'

/-- The map has the bins `l`, none of them empty, with `n` copies of which `z`
are zeros. -/
structure Counts (b : SketchHashMap) (n z : ℕ) (l : List (SketchHashKey × ℕ)) : Prop where
  holds : Holds b l
  pos : ∀ p ∈ l, 0 < p.2
  length : (Bins.expand l).length = n
  zeros : (Bins.expand l).count .zero = z

theorem counts_new : Counts .new 0 0 [] := ⟨holds_new, nofun, rfl, rfl⟩

theorem compactKey_iterate_eq_zero {n : ℕ} {k : SketchHashKey} :
    compactKey^[n] k = .zero ↔ k = .zero := by
  cases k with
  | zero => simp only [compactKey_iterate_zero]
  | positive i => simp [compactKey_iterate_positive]
  | negative i => simp [compactKey_iterate_negative]
  | invalid => simp [compactKey_iterate_eq_invalid.mpr rfl]

theorem Counts.rounds {b b' : SketchHashMap} {m z : ℕ} {l} (h : Counts b m z l) (n : ℕ)
    (hb : Holds b' ((Bins.regroup compactKey)^[n] l)) :
    Counts b' m z ((Bins.regroup compactKey)^[n] l) where
  holds := hb
  pos := regroup_iterate_pos n h.pos
  length := by rw [expand_regroup_iterate, List.length_map, h.length]
  zeros := by
    rw [expand_regroup_iterate, ← h.zeros, List.count_eq_countP, List.count_eq_countP,
      List.countP_map]
    exact List.countP_congr fun k _ => by simp [compactKey_iterate_eq_zero]

theorem Counts.bump {b b' : SketchHashMap} {m z : ℕ} {l} (h : Counts b m z l) {key : SketchHashKey}
    (hb : Holds b' (Bins.bump key 1 l)) :
    Counts b' (m + 1) (z + if key = .zero then 1 else 0) (Bins.bump key 1 l) where
  holds := hb
  pos := Bins.bump_pos Nat.one_pos h.pos
  length := by
    rw [(Bins.expand_bump key 1 l).length_eq, List.length_append, List.length_replicate, h.length,
      Nat.add_comm]
  zeros := by
    rw [(Bins.expand_bump key 1 l).count_eq, List.count_append, List.count_replicate, h.zeros,
      Nat.add_comm]
    simp

theorem Counts.bumps {b b' b'' : SketchHashMap} {m m' z z' : ℕ} {l l'} (h : Counts b m z l)
    (h' : Counts b' m' z' l') (hb : Holds b'' (Bins.bumps l' l)) :
    Counts b'' (m + m') (z + z') (Bins.bumps l' l) where
  holds := hb
  pos := Bins.bumps_pos h'.pos h.pos
  length := by
    rw [(Bins.expand_bumps l' l).length_eq, List.length_append, h.length, h'.length, Nat.add_comm]
  zeros := by
    rw [(Bins.expand_bumps l' l).count_eq, List.count_append, h.zeros, h'.zeros, Nat.add_comm]

/-! ### The invariant -/

theorem length_regroup_le {l : List (SketchHashKey × ℕ)} (h : Bins.Ascending l) :
    (Bins.regroup compactKey l).length ≤ l.length := by
  have hcard := length_regroup_iterate 1 h
  rw [Function.iterate_one, Function.iterate_one] at hcard
  rw [hcard, h.length_eq_card]
  exact Finset.card_image_le

section

variable {F : Type} [FloatOps F]

theorem keyAt_eq_zero {γ v : F} : UDDSketch.keyAt γ v = .zero ↔ FloatOps.feq (FloatOps.abs v) 0.0 := by
  unfold UDDSketch.keyAt
  dsimp only
  split_ifs with h <;> simp [h]

/-- A sketch's own counters. -/
def UDDSketch.Sound (mb : ℕ) (s : UDDSketch F) (l : List (SketchHashKey × ℕ)) : Prop :=
  Counts s.buckets s.numValues s.zeroCount l ∧ l.length ≤ mb ∧ s.maxBuckets = mb

/-- The loop at the end of `add_value` and `merge_sketch`. -/
theorem compactWhile_sound {n m z : ℕ} {s s' : UDDSketch F} {l}
    (h : Counts s.buckets m z l) (hs : UDDSketch.compactWhile n s = some s') :
    ∃ l', Counts s'.buckets m z l' ∧ l'.length ≤ s.maxBuckets ∧ s'.maxBuckets = s.maxBuckets ∧
      s'.numValues = s.numValues ∧ s'.zeroCount = s.zeroCount := by
  obtain ⟨c, -, b, rfl, hb, hle, -⟩ := UDDSketch.compactWhile_eq h.holds hs
  exact ⟨_, h.rounds c hb, hle, rfl, rfl, rfl⟩

/-- A value that is not NaN is one more copy of its key. -/
theorem addValue_counts {z : ℕ} {s s' : UDDSketch F} {l} {v : F}
    (h : Counts s.buckets s.numValues z l) (hs : s.addValue v = some s') :
    (FloatOps.isNaN v ∧ s' = s) ∨ FloatOps.isNaN v = false ∧
      ∃ l', Counts s'.buckets s'.numValues (z + if s.key v = .zero then 1 else 0) l' ∧
        l'.length ≤ s.maxBuckets ∧ s'.maxBuckets = s.maxBuckets ∧
        s'.zeroCount = if FloatOps.feq v 0.0 then s.zeroCount + 1 else s.zeroCount := by
  unfold UDDSketch.addValue at hs
  by_cases hnan : FloatOps.isNaN v
  · rw [if_pos hnan] at hs
    exact .inl ⟨hnan, (Option.some.inj hs).symm⟩
  · rw [if_neg hnan] at hs
    obtain ⟨b, hb, e⟩ := h.holds.addCount (UDDSketch.keyAt_ne_invalid s.gamma v) 1
    rw [SketchHashMap.increment, UDDSketch.key, hb, Option.bind_eq_bind, Option.bind_some] at hs
    obtain ⟨s₁, h₁, hs⟩ := Option.bind_eq_some_iff.mp hs
    obtain rfl := Option.some.inj hs
    obtain ⟨l', hc, hlen, hmb, hn, hz⟩ := compactWhile_sound (h.bump e) h₁
    rw [← hn] at hc
    exact .inr ⟨by simpa using hnan, l', hc, hlen, hmb, by rw [hz]⟩

theorem addValue_sound (hzero : ∀ v : F, FloatOps.isNaN v = false →
      FloatOps.feq (FloatOps.abs v) 0.0 = FloatOps.feq v 0.0)
    {mb : ℕ} {s s' : UDDSketch F} {l} {v : F} (h : s.Sound mb l) (hs : s.addValue v = some s') :
    ∃ l', s'.Sound mb l' := by
  obtain ⟨hc, hlen, hmb⟩ := h
  rcases addValue_counts hc hs with ⟨-, rfl⟩ | ⟨hnan, l', hc', hlen', hmb', hz⟩
  · exact ⟨l, hc, hlen, hmb⟩
  · refine ⟨l', ?_, hmb ▸ hlen', hmb'.trans hmb⟩
    have hcount : (s.zeroCount + if s.key v = .zero then 1 else 0) = s'.zeroCount := by
      simp only [UDDSketch.key, keyAt_eq_zero, hzero v hnan, hz]
      by_cases h0 : FloatOps.feq v 0.0
      · rw [if_pos h0, if_pos h0]
      · rw [if_neg h0, if_neg h0, Nat.add_zero]
    rwa [hcount] at hc'

theorem compactBuckets_counts {z : ℕ} {s s' : UDDSketch F} {l}
    (h : Counts s.buckets s.numValues z l) (hs : s.compactBuckets = some s') :
    Counts s'.buckets s'.numValues z (Bins.regroup compactKey l) ∧
      s'.maxBuckets = s.maxBuckets ∧ s'.zeroCount = s.zeroCount := by
  obtain ⟨b, e, hb⟩ := UDDSketch.compactBuckets_eq h.holds
  obtain rfl := Option.some.inj (e.symm.trans hs)
  exact ⟨h.rounds 1 hb, rfl, rfl⟩

theorem compactBuckets_sound {mb : ℕ} {s s' : UDDSketch F} {l} (h : s.Sound mb l)
    (hs : s.compactBuckets = some s') : ∃ l', s'.Sound mb l' := by
  obtain ⟨hc, hlen, hmb⟩ := h
  obtain ⟨hc', hmb', hz⟩ := compactBuckets_counts hc hs
  rw [← hz] at hc'
  exact ⟨_, hc', (length_regroup_le hc.holds.ascending).trans hlen, hmb'.trans hmb⟩

/-- A merge with an empty side is the other side; else the copies are added. -/
theorem mergeSketch_counts {z z' : ℕ} {s o s' : UDDSketch F} {l l'}
    (h : Counts s.buckets s.numValues z l) (h' : Counts o.buckets o.numValues z' l')
    (hs : s.mergeSketch o = some s') : s' = s ∨ s' = o ∨
      ∃ m, Counts s'.buckets s'.numValues (z + z') m ∧ m.length ≤ s.maxBuckets ∧
        s'.maxBuckets = s.maxBuckets ∧ s'.zeroCount = s.zeroCount + o.zeroCount := by
  have hmax : s.maxBuckets = o.maxBuckets := by
    by_contra hmax
    rw [UDDSketch.mergeSketch, if_pos hmax] at hs
    exact Option.some_ne_none _ hs.symm
  by_cases ho : o.numValues = 0
  · rw [UDDSketch.mergeSketch, if_neg (not_not.mpr hmax), if_pos ho] at hs
    exact .inl (Option.some.inj hs).symm
  by_cases h0 : s.numValues = 0
  · rw [UDDSketch.mergeSketch, if_neg (not_not.mpr hmax), if_neg ho, if_pos h0] at hs
    exact .inr (.inl (Option.some.inj hs).symm)
  obtain ⟨bs, bo, b, hbs, hbo, hb, e⟩ := UDDSketch.mergeSketch_eq h.holds h'.holds hmax h0 ho
  rw [e] at hs
  obtain ⟨s₁, h₁, rfl⟩ := Option.map_eq_some_iff.mp hs
  obtain ⟨m, hm, hle, hmb₁, hn, hz⟩ :=
    compactWhile_sound ((h.rounds _ hbs).bumps (h'.rounds _ hbo) hb) h₁
  have hcounts : Counts s₁.buckets (s₁.numValues + o.numValues) (z + z') m := by
    rw [hn]
    exact hm
  exact .inr (.inr ⟨m, hcounts, hle, hmb₁, congrArg (· + o.zeroCount) hz⟩)

theorem mergeSketch_sound {mb : ℕ} {s o s' : UDDSketch F} {l l'} (h : s.Sound mb l)
    (h' : o.Sound mb l') (hs : s.mergeSketch o = some s') : ∃ m, s'.Sound mb m := by
  rcases mergeSketch_counts h.1 h'.1 hs with rfl | rfl | ⟨m, hm, hle, hmb, hz⟩
  · exact ⟨l, h⟩
  · exact ⟨l', h'⟩
  · rw [← hz] at hm
    exact ⟨m, hm, h.2.2 ▸ hle, hmb.trans h.2.2⟩

/-- Whatever `abs` and `==` make of zeros, the buckets hold `num_values` copies. -/
theorem reachable_copies {mb : ℕ} {s : UDDSketch F} (h : s.Reachable mb) :
    ∃ z l, Counts s.buckets s.numValues z l := by
  induction h with
  | new h =>
    unfold UDDSketch.new at h
    split_ifs at h
    obtain rfl := Option.some.inj h
    exact ⟨0, [], counts_new⟩
  | addValue _ hs ih =>
    obtain ⟨z, l, hl⟩ := ih
    rcases addValue_counts hl hs with ⟨-, rfl⟩ | ⟨-, l', hl', -⟩
    · exact ⟨z, l, hl⟩
    · exact ⟨_, l', hl'⟩
  | compactBuckets _ hs ih =>
    obtain ⟨z, l, hl⟩ := ih
    exact ⟨z, _, (compactBuckets_counts hl hs).1⟩
  | mergeSketch _ _ hs ih ih' =>
    obtain ⟨z, l, hl⟩ := ih
    obtain ⟨z', l', hl'⟩ := ih'
    rcases mergeSketch_counts hl hl' hs with rfl | rfl | ⟨m, hm, -⟩
    · exact ⟨z, l, hl⟩
    · exact ⟨z', l', hl'⟩
    · exact ⟨_, m, hm⟩

/-- **The counters of a reachable sketch are right.** -/
theorem reachable_counts (hzero : ∀ v : F, FloatOps.isNaN v = false →
      FloatOps.feq (FloatOps.abs v) 0.0 = FloatOps.feq v 0.0)
    {mb : ℕ} {s : UDDSketch F} (h : s.Reachable mb) : ∃ l, s.Sound mb l := by
  induction h with
  | new h =>
    unfold UDDSketch.new at h
    split_ifs at h
    obtain rfl := Option.some.inj h
    exact ⟨[], counts_new, Nat.zero_le _, rfl⟩
  | addValue _ hs ih =>
    obtain ⟨l, hl⟩ := ih
    exact addValue_sound hzero hl hs
  | compactBuckets _ hs ih =>
    obtain ⟨l, hl⟩ := ih
    exact compactBuckets_sound hl hs
  | mergeSketch _ _ hs ih ih' =>
    obtain ⟨l, hl⟩ := ih
    obtain ⟨l', hl'⟩ := ih'
    exact mergeSketch_sound hl hl' hs

section

variable {P : F → F → Prop}

theorem scale_compactBuckets (hround : ∀ g a, P g a → P (g * g) (2.0 * a / (1.0 + a * a)))
    {s s' : UDDSketch F} (hP : P s.gamma s.alpha) (hs : s.compactBuckets = some s') :
    P s'.gamma s'.alpha := by
  obtain ⟨b, -, hs⟩ := Option.bind_eq_some_iff.mp hs
  obtain rfl := Option.some.inj hs
  exact hround _ _ hP

theorem scale_compactWhile (hround : ∀ g a, P g a → P (g * g) (2.0 * a / (1.0 + a * a))) (n : ℕ) :
    ∀ {s s' : UDDSketch F}, P s.gamma s.alpha → UDDSketch.compactWhile n s = some s' →
      P s'.gamma s'.alpha := by
  induction n with
  | zero =>
    intro s s' hP hs
    rw [UDDSketch.compactWhile] at hs
    split_ifs at hs
    exact Option.some.inj hs ▸ hP
  | succ n ih =>
    intro s s' hP hs
    rw [UDDSketch.compactWhile] at hs
    split_ifs at hs
    · obtain ⟨s₁, h₁, hs⟩ := Option.bind_eq_some_iff.mp hs
      exact ih (scale_compactBuckets hround hP h₁) hs
    · exact Option.some.inj hs ▸ hP

theorem scale_compactTimes (hround : ∀ g a, P g a → P (g * g) (2.0 * a / (1.0 + a * a))) (n : ℕ) :
    ∀ {s s' : UDDSketch F}, P s.gamma s.alpha → UDDSketch.compactTimes n s = some s' →
      P s'.gamma s'.alpha := by
  induction n with
  | zero =>
    intro s s' hP hs
    exact Option.some.inj hs ▸ hP
  | succ n ih =>
    intro s s' hP hs
    obtain ⟨s₁, h₁, hs⟩ := Option.bind_eq_some_iff.mp hs
    exact ih (scale_compactBuckets hround hP h₁) hs

/-- What holds of the base and the error of a new sketch and survives a
compaction holds of every reachable one. -/
theorem UDDSketch.Reachable.scale
    (hnew : ∀ ε, UDDSketch.errorInRange ε → P ((1.0 + ε) / (1.0 - ε)) ε)
    (hround : ∀ g a, P g a → P (g * g) (2.0 * a / (1.0 + a * a))) {mb : ℕ} {s : UDDSketch F}
    (h : s.Reachable mb) : P s.gamma s.alpha := by
  induction h with
  | new h =>
    unfold UDDSketch.new at h
    split_ifs at h with hε
    exact Option.some.inj h ▸ hnew _ hε
  | @addValue s s' v _ hs ih =>
    unfold UDDSketch.addValue at hs
    by_cases hnan : FloatOps.isNaN v
    · rw [if_pos hnan] at hs
      exact Option.some.inj hs ▸ ih
    · rw [if_neg hnan] at hs
      obtain ⟨b, -, hs⟩ := Option.bind_eq_some_iff.mp hs
      obtain ⟨s₁, h₁, hs⟩ := Option.bind_eq_some_iff.mp hs
      obtain rfl := Option.some.inj hs
      have hP : P s₁.gamma s₁.alpha := scale_compactWhile hround _ (s := { s with buckets := b }) ih h₁
      exact hP
  | compactBuckets _ hs ih => exact scale_compactBuckets hround ih hs
  | @mergeSketch s o s' _ _ hs ih ih' =>
    unfold UDDSketch.mergeSketch at hs
    split_ifs at hs
    · exact Option.some.inj hs ▸ ih
    · exact Option.some.inj hs ▸ ih'
    · obtain ⟨o₁, -, hs⟩ := Option.bind_eq_some_iff.mp hs
      obtain ⟨s₁, h₁, hs⟩ := Option.bind_eq_some_iff.mp hs
      obtain ⟨l, -, hs⟩ := Option.bind_eq_some_iff.mp hs
      obtain ⟨b, -, hs⟩ := Option.bind_eq_some_iff.mp hs
      obtain ⟨s₂, h₂, hs⟩ := Option.bind_eq_some_iff.mp hs
      obtain rfl := Option.some.inj hs
      have hP₁ : P s₁.gamma s₁.alpha := scale_compactTimes hround _ ih h₁
      have hP : P s₂.gamma s₂.alpha :=
        scale_compactWhile hround _ (s := { s₁ with buckets := b }) hP₁ h₂
      exact hP

end

/-! ### Quantiles -/

theorem bucketToValue_isSome (s : UDDSketch F) {k : SketchHashKey} (h : k ≠ .invalid) :
    ∃ v, s.bucketToValue k = some v := by
  cases k with
  | invalid => exact absurd rfl h
  | zero => exact ⟨_, rfl⟩
  | positive i => exact ⟨_, rfl⟩
  | negative i => exact ⟨_, rfl⟩

/-- `estimate_quantile` answers for the key at its rank among the copies. -/
theorem estimateQuantile_key {s : UDDSketch F} {l} (h : Holds s.buckets l) (hpos : ∀ p ∈ l, 0 < p.2)
    (hlen : (Bins.expand l).length = s.numValues) (hn : s.numValues ≠ 0) {q : F}
    (h0 : FloatOps.le 0.0 q) (h1 : FloatOps.le q 1.0) :
    ∃ k, (Bins.expand l)[min (FloatOps.toU64 ((s.numValues : F) * q) + 1) s.numValues - 1]? = some k ∧
      s.estimateQuantile q = s.bucketToValue k := by
  have hq : (FloatOps.le 0.0 q && FloatOps.le q 1.0) = true := by rw [h0, h1]; rfl
  rw [UDDSketch.estimateQuantile, if_pos hq, h.iter]
  simp only [Option.bind_eq_bind, Option.bind_some]
  set r := FloatOps.toU64 ((s.numValues : F) * q) + 1 with hr
  obtain ⟨k, hk⟩ : ∃ k, (Bins.expand l)[min r s.numValues - 1]? = some k :=
    ⟨_, List.getElem?_eq_getElem (by omega)⟩
  refine ⟨k, hk, ?_⟩
  by_cases hlast : r ≥ s.numValues
  · -- the last bucket has the last copy
    rw [min_eq_right hlast, ← hlen, ← List.getLast?_eq_getElem?, Bins.getLast?_expand hpos] at hk
    obtain ⟨⟨k', c⟩, hp, rfl⟩ := Option.map_eq_some_iff.mp hk
    rw [if_pos hlast, hp]
  · rw [min_eq_left (by omega)] at hk
    rw [if_neg hlast, Bins.pick_eq l r (by omega), hk]
    rfl

/-- Neither `unreachable!()` nor the panic on `Invalid` is reached. -/
theorem estimateQuantile_isSome {s : UDDSketch F} {z : ℕ} {l} (hc : Counts s.buckets s.numValues z l)
    {q : F} (h0 : FloatOps.le 0.0 q) (h1 : FloatOps.le q 1.0) : ∃ v, s.estimateQuantile q = some v := by
  by_cases hn : s.numValues = 0
  · -- no buckets to pick from
    have hnil : l = [] := by
      rcases l with _ | ⟨⟨k, c⟩, l⟩
      · rfl
      · have hk := hc.pos _ List.mem_cons_self
        have hlen := hc.length
        rw [Bins.length_expand, Bins.total_cons, hn] at hlen
        omega
    subst hnil
    have hq : (FloatOps.le 0.0 q && FloatOps.le q 1.0) = true := by rw [h0, h1]; rfl
    rw [UDDSketch.estimateQuantile, if_pos hq, hc.holds.iter, hn]
    exact ⟨0.0, rfl⟩
  · obtain ⟨k, hk, he⟩ := estimateQuantile_key hc.holds hc.pos hc.length hn h0 h1
    rw [he]
    refine bucketToValue_isSome s fun hi => hc.holds.valid ?_
    exact hi ▸ Bins.mem_keys_of_mem_expand (List.mem_of_getElem? hk)

/-- The counters are those of the buckets, every quantile is answered, and no call
panics, hangs or leaves too many buckets. -/
structure UDDSketch.Safe (mb : ℕ) (s : UDDSketch F) : Prop where
  counters : ∃ l, s.buckets.iter = some l ∧ Bins.total l = s.numValues ∧
    Bins.countAt .zero l = s.zeroCount
  few : s.buckets.len ≤ mb
  quantile : ∀ q, FloatOps.le 0.0 q → FloatOps.le q 1.0 → ∃ v, s.estimateQuantile q = some v
  addValue : ∀ v, ∃ s', s.addValue v = some s' ∧ s'.buckets.len ≤ mb
  compactBuckets : ∃ s', s.compactBuckets = some s'
  mergeSketch : ∀ o, o.Reachable mb → ∃ s', s.mergeSketch o = some s' ∧ s'.buckets.len ≤ mb

/-- **A reachable sketch is safe.** -/
theorem reachable_safe (hzero : ∀ v : F, FloatOps.isNaN v = false →
      FloatOps.feq (FloatOps.abs v) 0.0 = FloatOps.feq v 0.0)
    {mb : ℕ} (hmb : 7 ≤ mb) {s : UDDSketch F} (h : s.Reachable mb) : s.Safe mb := by
  have hlen : ∀ {s' : UDDSketch F}, s'.Reachable mb → s'.buckets.len ≤ mb := by
    intro s' h'
    obtain ⟨l, hc, hlen, -⟩ := reachable_counts hzero h'
    rw [hc.holds.len]
    exact hlen
  obtain ⟨l, hc, hlen', hmax⟩ := reachable_counts hzero h
  refine ⟨⟨l, hc.holds.iter, ?_, ?_⟩, hlen h, fun q h0 h1 => ?_, fun v => ?_, ?_, fun o ho => ?_⟩
  · rw [← Bins.length_expand, hc.length]
  · rw [hc.holds.ascending.countAt_eq, hc.zeros]
  · exact estimateQuantile_isSome hc h0 h1
  · obtain ⟨s', -, hs', -, -⟩ := UDDSketch.addValue_ends hc.holds (hmb.trans_eq hmax.symm) v
    exact ⟨s', hs', hlen (.addValue h hs')⟩
  · obtain ⟨b, e, -⟩ := UDDSketch.compactBuckets_eq hc.holds
    exact ⟨_, e⟩
  · obtain ⟨l', hc', -, hmax'⟩ := reachable_counts hzero ho
    obtain ⟨s', -, hs', -, -⟩ := UDDSketch.mergeSketch_ends hc.holds hc'.holds
      (hmax.trans hmax'.symm) (hmb.trans_eq hmax.symm)
    exact ⟨s', hs', hlen (.mergeSketch h ho hs')⟩

end

/-- In exact arithmetic `abs` has the same zeros. -/
theorem feq_abs_zero (v : ℚ) (_ : FloatOps.isNaN v = false) :
    FloatOps.feq (FloatOps.abs v) 0.0 = FloatOps.feq v 0.0 := by
  simp only [FloatOps.feq, FloatOps.abs, decide_eq_decide]
  norm_num

/-- A zero, merged with itself. -/
theorem reachable_safe_zeros : ∃ s₀ s₁ s₂ : UDDSketch ℚ, UDDSketch.new 7 (1 / 2) = some s₀ ∧
    s₀.addValue 0 = some s₁ ∧ s₁.mergeSketch s₁ = some s₂ ∧ s₂.Safe 7 := by
  have hε : UDDSketch.errorInRange (1 / 2 : ℚ) := by
    simp only [UDDSketch.errorInRange, FloatOps.le, FloatOps.lt]
    norm_num
  obtain ⟨s₀, h₀⟩ : ∃ s₀, UDDSketch.new 7 (1 / 2 : ℚ) = some s₀ := ⟨_, if_pos hε⟩
  have hr₀ : s₀.Reachable 7 := .new h₀
  obtain ⟨s₁, h₁, -⟩ := (reachable_safe feq_abs_zero le_rfl hr₀).addValue 0
  have hr₁ : s₁.Reachable 7 := .addValue hr₀ h₁
  obtain ⟨s₂, h₂, -⟩ := (reachable_safe feq_abs_zero le_rfl hr₁).mergeSketch s₁ hr₁
  exact ⟨s₀, s₁, s₂, h₀, h₁, h₂, reachable_safe feq_abs_zero le_rfl (.mergeSketch hr₁ hr₁ h₂)⟩

end ChalkMetrics
