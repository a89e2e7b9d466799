/-
# What the compaction loops do

On a well-formed map a round of compaction cannot fail, and `n` rounds move
every key along `compactKey` `n` times (`compactTimes_eq`). The loop of
`addValue` and `mergeSketch` stops at the first number of rounds that leaves at
most `maxBuckets` keys (`compactWhile_eq`). After 64 rounds every key is at its
`limit` (`compactKey_iterate_limit`), one of seven, so with `maxBuckets ≥ 7` the
loop always stops (`compactWhile_ends`).
-/
import ChalkMetrics.Sketch.UddSketch

namespace ChalkMetrics

open SketchHashKey SketchHashMap

/-! ### Keys after `n` rounds -/

theorem compactKey_iterate_mono (n : ℕ) : Monotone compactKey^[n] := compactKey_mono.iterate n

theorem compactKey_iterate_zero (n : ℕ) : compactKey^[n] .zero = .zero :=
  Function.iterate_fixed rfl n

theorem compactKey_iterate_positive (n : ℕ) (x : Int64) :
    compactKey^[n] (.positive x) = .positive (newExp^[n] x) := by
  induction n generalizing x with
  | zero => rfl
  | succ n ih => rw [Function.iterate_succ_apply, Function.iterate_succ_apply, compactKey_positive, ih]

theorem compactKey_iterate_negative (n : ℕ) (x : Int64) :
    compactKey^[n] (.negative x) = .negative (newExp^[n] x) := by
  induction n generalizing x with
  | zero => rfl
  | succ n ih => rw [Function.iterate_succ_apply, Function.iterate_succ_apply, compactKey_negative, ih]

theorem compactKey_iterate_eq_invalid {n : ℕ} {k : SketchHashKey} :
    compactKey^[n] k = .invalid ↔ k = .invalid := by
  induction n generalizing k with
  | zero => rfl
  | succ n ih => rw [Function.iterate_succ_apply, ih, compactKey_eq_invalid]

theorem newExp_iterate_max (n : ℕ) : newExp^[n] Int64.maxValue = Int64.maxValue :=
  Function.iterate_fixed (show newExp Int64.maxValue = _ from if_pos rfl) n

/-- Any other exponent is divided by `2 ^ n`, rounding up. -/
theorem toInt_newExp_iterate (n : ℕ) {x : Int64} (hx : x ≠ Int64.maxValue) :
    (newExp^[n] x).toInt = -((-x.toInt) / 2 ^ n) := by
  have hmax : ∀ y : Int64, y ≠ Int64.maxValue → y.toInt ≠ 2 ^ 63 - 1 := fun y hy h =>
    hy (Int64.toInt_inj.mp (h.trans Int64.toInt_maxValue.symm))
  suffices h : newExp^[n] x ≠ Int64.maxValue ∧ (newExp^[n] x).toInt = -((-x.toInt) / 2 ^ n) from h.2
  induction n with
  | zero => exact ⟨hx, by simp⟩
  | succ n ih =>
    obtain ⟨h1, h2⟩ := ih
    have hlt := (newExp^[n] x).toInt_lt
    rw [Function.iterate_succ_apply']
    have hval : (newExp (newExp^[n] x)).toInt = ((newExp^[n] x).toInt + 1) / 2 := by
      rw [toInt_newExp, if_neg (hmax _ h1)]
    refine ⟨fun h => ?_, ?_⟩
    · rw [h, Int64.toInt_maxValue] at hval
      omega
    · rw [hval, h2, pow_succ, ← Int.ediv_ediv_of_nonneg (by positivity)]
      omega

/-- Where compaction takes an exponent. -/
def limitExp (x : Int64) : Int64 :=
  if x ≤ 0 then 0 else if x = Int64.maxValue then Int64.maxValue else 1

/-- Where compaction takes a key. -/
def limit : SketchHashKey → SketchHashKey
  | .negative x => .negative (limitExp x)
  | .positive x => .positive (limitExp x)
  | k => k

/-- The limits there are. -/
def limitKeys : Finset SketchHashKey :=
  {.negative Int64.maxValue, .negative 1, .negative 0, .zero, .positive 0, .positive 1,
    .positive Int64.maxValue}

theorem newExp_iterate_limit (x : Int64) : newExp^[64] x = limitExp x := by
  have hle : x ≤ 0 ↔ x.toInt ≤ 0 := Int64.le_iff_toInt_le
  unfold limitExp
  by_cases hx : x = Int64.maxValue
  · subst hx
    rw [newExp_iterate_max]
    rfl
  · have h := toInt_newExp_iterate 64 hx
    have h1 := x.toInt_lt
    have h2 := x.le_toInt
    apply Int64.toInt_inj.mp
    rw [h]
    by_cases hpos : 0 < x.toInt
    · rw [if_neg fun h0 => not_lt.mpr (hle.mp h0) hpos, if_neg hx, show (1 : Int64).toInt = 1 from rfl]
      omega
    · rw [if_pos (hle.mpr (not_lt.mp hpos)), show (0 : Int64).toInt = 0 from rfl]
      omega

/-- After 64 rounds a key is at its limit. -/
theorem compactKey_iterate_limit (k : SketchHashKey) : compactKey^[64] k = limit k := by
  cases k with
  | invalid => exact compactKey_iterate_eq_invalid.mpr rfl
  | zero => exact compactKey_iterate_zero 64
  | positive x => rw [compactKey_iterate_positive, newExp_iterate_limit, limit]
  | negative x => rw [compactKey_iterate_negative, newExp_iterate_limit, limit]

theorem limit_mem {k : SketchHashKey} (hk : k ≠ .invalid) : limit k ∈ limitKeys := by
  have hexp : ∀ x, limitExp x = 0 ∨ limitExp x = Int64.maxValue ∨ limitExp x = 1 := by
    intro x
    unfold limitExp
    split_ifs <;> simp
  cases k with
  | invalid => exact absurd rfl hk
  | zero => decide
  | positive x =>
    rw [limit]
    rcases hexp x with h | h | h <;> rw [h] <;> decide
  | negative x =>
    rw [limit]
    rcases hexp x with h | h | h <;> rw [h] <;> decide

/-! ### Bins after `n` rounds -/

theorem expand_regroup_iterate (n : ℕ) (l : List (SketchHashKey × ℕ)) :
    Bins.expand ((Bins.regroup compactKey)^[n] l) = (Bins.expand l).map compactKey^[n] := by
  induction n generalizing l with
  | zero => simp
  | succ n ih =>
    rw [Function.iterate_succ_apply, ih, Bins.expand_regroup, List.map_map]
    rfl

theorem mem_keys_regroup_iterate (n : ℕ) (l : List (SketchHashKey × ℕ)) (x : SketchHashKey) :
    x ∈ Bins.keys ((Bins.regroup compactKey)^[n] l) ↔ ∃ k ∈ Bins.keys l, compactKey^[n] k = x := by
  induction n generalizing l with
  | zero => simp
  | succ n ih =>
    rw [Function.iterate_succ_apply, ih]
    simp only [Bins.mem_keys_regroup, Function.iterate_succ_apply]
    constructor
    · rintro ⟨_, ⟨k, hk, rfl⟩, rfl⟩; exact ⟨k, hk, rfl⟩
    · rintro ⟨k, hk, rfl⟩; exact ⟨_, ⟨k, hk, rfl⟩, rfl⟩

theorem ascending_regroup_iterate (n : ℕ) {l : List (SketchHashKey × ℕ)} (h : Bins.Ascending l) :
    Bins.Ascending ((Bins.regroup compactKey)^[n] l) := by
  induction n generalizing l with
  | zero => exact h
  | succ n ih => exact ih (h.regroup fun a _ b _ hab => compactKey_mono hab)

theorem regroup_iterate_pos (n : ℕ) {l : List (SketchHashKey × ℕ)} (h : ∀ p ∈ l, 0 < p.2) :
    ∀ p ∈ (Bins.regroup compactKey)^[n] l, 0 < p.2 := by
  induction n with
  | zero => exact h
  | succ n ih =>
    rw [Function.iterate_succ_apply']
    exact Bins.regroup_pos ih

/-- The bins left after `n` rounds are the different keys `n` rounds on. -/
theorem length_regroup_iterate (n : ℕ) {l : List (SketchHashKey × ℕ)} (h : Bins.Ascending l) :
    ((Bins.regroup compactKey)^[n] l).length = ((Bins.keys l).toFinset.image compactKey^[n]).card := by
  rw [(ascending_regroup_iterate n h).length_eq_card]
  congr 1
  ext x
  simp only [List.mem_toFinset, Finset.mem_image, mem_keys_regroup_iterate]

namespace UDDSketch

variable {F : Type} [FloatOps F]

/-! ### The loops -/

/-- The sketch `n` compaction rounds after `s`, with buckets `b`. -/
def afterRounds (s : UDDSketch F) (n : ℕ) (b : SketchHashMap) : UDDSketch F :=
  { s with
    buckets := b
    compactions := s.compactions + n
    gamma := (fun g => g * g)^[n] s.gamma
    alpha := (fun a => 2.0 * a / (1.0 + a * a))^[n] s.alpha }

theorem afterRounds_succ (s : UDDSketch F) (n : ℕ) (b b' : SketchHashMap) :
    (s.afterRounds 1 b).afterRounds n b' = s.afterRounds (n + 1) b' := by
  simp only [afterRounds, Function.iterate_succ_apply, Function.iterate_zero, id]
  congr 1
  omega

theorem compactBuckets_eq {s : UDDSketch F} {l} (h : Holds s.buckets l) :
    ∃ b, s.compactBuckets = some (s.afterRounds 1 b) ∧ Holds b (Bins.regroup compactKey l) := by
  obtain ⟨b, e, hb⟩ := h.compact
  refine ⟨b, ?_, hb⟩
  rw [compactBuckets, e]; rfl

theorem compactTimes_eq (n : ℕ) {s : UDDSketch F} {l} (h : Holds s.buckets l) :
    ∃ b, compactTimes n s = some (s.afterRounds n b) ∧ Holds b ((Bins.regroup compactKey)^[n] l) := by
  induction n generalizing s l with
  | zero => exact ⟨s.buckets, rfl, h⟩
  | succ n ih =>
    obtain ⟨b₁, e₁, h₁⟩ := compactBuckets_eq h
    obtain ⟨b, e, hb⟩ := ih (s := s.afterRounds 1 b₁) h₁
    refine ⟨b, ?_, hb⟩
    rw [compactTimes, e₁]
    simp only [Option.bind_eq_bind, Option.bind_some, e, afterRounds_succ]

/-- **The loop stops at the first round that leaves few enough keys.** -/
theorem compactWhile_eq {n : ℕ} {s s' : UDDSketch F} {l} (h : Holds s.buckets l)
    (hs : compactWhile n s = some s') :
    ∃ c ≤ n, ∃ b, s' = s.afterRounds c b ∧ Holds b ((Bins.regroup compactKey)^[c] l) ∧
      ((Bins.regroup compactKey)^[c] l).length ≤ s.maxBuckets ∧
      ∀ j < c, s.maxBuckets < ((Bins.regroup compactKey)^[j] l).length := by
  induction n generalizing s l with
  | zero =>
    rw [compactWhile, h.len] at hs
    split_ifs at hs with hc
    obtain rfl : s = s' := Option.some.inj hs
    exact ⟨0, le_rfl, s.buckets, rfl, h, not_lt.mp hc, fun j hj => absurd hj (Nat.not_lt_zero j)⟩
  | succ n ih =>
    rw [compactWhile, h.len] at hs
    split_ifs at hs with hc
    · obtain ⟨b₁, e₁, h₁⟩ := compactBuckets_eq h
      rw [e₁] at hs
      obtain ⟨c, hcn, b, rfl, hb, hle, hlt⟩ := ih (s := s.afterRounds 1 b₁) h₁ hs
      refine ⟨c + 1, Nat.succ_le_succ hcn, b, afterRounds_succ s c b₁ b, hb, hle, fun j hj => ?_⟩
      rcases j with _ | j
      · exact hc
      · exact hlt j (by omega)
    · obtain rfl : s = s' := Option.some.inj hs
      exact ⟨0, Nat.zero_le _, s.buckets, rfl, h, not_lt.mp hc,
        fun j hj => absurd hj (Nat.not_lt_zero j)⟩

theorem compactWhile_isSome {n c : ℕ} {s : UDDSketch F} {l} (h : Holds s.buckets l) (hc : c ≤ n)
    (hl : ((Bins.regroup compactKey)^[c] l).length ≤ s.maxBuckets) :
    ∃ s', compactWhile n s = some s' := by
  induction n generalizing s l c with
  | zero =>
    obtain rfl : c = 0 := Nat.le_zero.mp hc
    have hl' : l.length ≤ s.maxBuckets := hl
    exact ⟨s, by rw [compactWhile, h.len, if_neg (not_lt.mpr hl')]⟩
  | succ n ih =>
    rw [compactWhile, h.len]
    split_ifs with hlt
    · rcases c with _ | c
      · exact absurd hl (not_le.mpr hlt)
      · obtain ⟨b₁, e₁, h₁⟩ := compactBuckets_eq h
        rw [e₁]
        exact ih (s := s.afterRounds 1 b₁) h₁ (Nat.le_of_succ_le_succ hc) hl
    · exact ⟨s, rfl⟩

theorem length_limit {l : List (SketchHashKey × ℕ)} (h : Bins.Ascending l)
    (hv : .invalid ∉ Bins.keys l) : ((Bins.regroup compactKey)^[loopRounds] l).length ≤ 7 := by
  rw [length_regroup_iterate _ h]
  calc ((Bins.keys l).toFinset.image compactKey^[64]).card ≤ limitKeys.card := by
        apply Finset.card_le_card
        intro x hx
        obtain ⟨k, hk, rfl⟩ := Finset.mem_image.mp hx
        rw [compactKey_iterate_limit]
        exact limit_mem fun he => hv (he ▸ List.mem_toFinset.mp hk)
    _ ≤ 7 := by decide

/-- With at least seven buckets the loop stops. -/
theorem compactWhile_ends {s : UDDSketch F} {l} (h : Holds s.buckets l) (hmax : 7 ≤ s.maxBuckets) :
    ∃ s', compactWhile loopRounds s = some s' :=
  compactWhile_isSome h le_rfl ((length_limit h.ascending h.valid).trans hmax)

theorem keyAt_ne_invalid (gamma value : F) : keyAt gamma value ≠ .invalid := by
  unfold keyAt
  dsimp only
  split_ifs <;> exact fun h => SketchHashKey.noConfusion h

/-- **Adding a value to a well-formed sketch of at least seven buckets does not
panic and ends.** -/
theorem addValue_ends {s : UDDSketch F} {l} (h : Holds s.buckets l) (hmax : 7 ≤ s.maxBuckets)
    (value : F) :
    ∃ s' l', s.addValue value = some s' ∧ Holds s'.buckets l' ∧ s'.maxBuckets = s.maxBuckets := by
  unfold addValue
  by_cases hnan : FloatOps.isNaN value
  · rw [if_pos hnan]
    exact ⟨s, l, rfl, h, rfl⟩
  · rw [if_neg hnan]
    obtain ⟨b, e, hb⟩ := h.addCount (keyAt_ne_invalid s.gamma value) 1
    obtain ⟨s₁, e₁⟩ := compactWhile_ends (s := { s with buckets := b }) hb hmax
    obtain ⟨c, -, b', rfl, hb', -⟩ := compactWhile_eq (s := { s with buckets := b }) hb e₁
    rw [SketchHashMap.increment, key, e, Option.bind_eq_bind, Option.bind_some, e₁]
    exact ⟨_, (Bins.regroup compactKey)^[c] (Bins.bump (keyAt s.gamma value) 1 l), rfl, hb', rfl⟩

/-- Compaction leaves the number of values alone. -/
theorem compactWhile_numValues (n : ℕ) : ∀ {s s' : UDDSketch F}, compactWhile n s = some s' →
    s'.numValues = s.numValues := by
  induction n with
  | zero =>
    intro s s' h
    rw [compactWhile] at h
    split_ifs at h
    rw [Option.some.inj h]
  | succ n ih =>
    intro s s' h
    rw [compactWhile] at h
    split_ifs at h
    · obtain ⟨s₁, h₁, h₂⟩ := Option.bind_eq_some_iff.mp h
      obtain ⟨b, -, h₁⟩ := Option.bind_eq_some_iff.mp h₁
      rw [ih h₂, ← Option.some.inj h₁]
    · rw [Option.some.inj h]

theorem addValue_numValues {s s' : UDDSketch F} {value : F} (h : s.addValue value = some s') :
    s'.numValues = s.numValues + if FloatOps.isNaN value then 0 else 1 := by
  unfold addValue at h
  by_cases hnan : FloatOps.isNaN value
  · rw [if_pos hnan] at h ⊢
    rw [Option.some.inj h, Nat.add_zero]
  · rw [if_neg hnan] at h ⊢
    obtain ⟨b, -, h⟩ := Option.bind_eq_some_iff.mp h
    obtain ⟨s₁, h₁, h⟩ := Option.bind_eq_some_iff.mp h
    rw [← Option.some.inj h]
    have hc := compactWhile_numValues _ h₁
    exact congrArg (· + 1) hc

/-! ### Merging -/

theorem addBuckets_eq (l' : List (SketchHashKey × ℕ)) : ∀ {b : SketchHashMap} {l}, Holds b l →
    .invalid ∉ Bins.keys l' → ∃ b', addBuckets b l' = some b' ∧ Holds b' (Bins.bumps l' l) := by
  induction l' with
  | nil => intro b l h _; exact ⟨b, rfl, h⟩
  | cons p l' ih =>
    intro b l h hv
    obtain ⟨b₁, e₁, h₁⟩ := h.addCount (fun hk => hv (hk ▸ List.mem_cons_self)) p.2
    obtain ⟨b', e, hb'⟩ := ih h₁ fun hk => hv (List.mem_cons_of_mem _ hk)
    refine ⟨b', ?_, hb'⟩
    rw [addBuckets, List.foldlM_cons, Option.bind_eq_bind, e₁, Option.bind_some]
    exact e

/-- `s` with the totals of `other` added. -/
def addTotals (other s : UDDSketch F) : UDDSketch F :=
  { s with
    numValues := s.numValues + other.numValues
    valuesSum := s.valuesSum + other.valuesSum
    min := FloatOps.fmin s.min other.min
    max := FloatOps.fmax s.max other.max
    zeroCount := s.zeroCount + other.zeroCount }

/-- Merging two sketches with values: both are brought to the same number of
rounds, then the bins are added and the loop runs. -/
theorem mergeSketch_eq {s o : UDDSketch F} {l l'} (h : Holds s.buckets l) (h' : Holds o.buckets l')
    (hmax : s.maxBuckets = o.maxBuckets) (hs : s.numValues ≠ 0) (ho : o.numValues ≠ 0) :
    ∃ bs bo b, Holds bs ((Bins.regroup compactKey)^[o.compactions - s.compactions] l) ∧
      Holds bo ((Bins.regroup compactKey)^[s.compactions - o.compactions] l') ∧
      Holds b (Bins.bumps ((Bins.regroup compactKey)^[s.compactions - o.compactions] l')
        ((Bins.regroup compactKey)^[o.compactions - s.compactions] l)) ∧
      s.mergeSketch o = (compactWhile loopRounds
        { s.afterRounds (o.compactions - s.compactions) bs with buckets := b }).map (addTotals o) := by
  obtain ⟨bo, eo, ho'⟩ := compactTimes_eq (s.compactions - o.compactions) h'
  obtain ⟨bs, es, hs'⟩ := compactTimes_eq (o.compactions - s.compactions) h
  obtain ⟨b, eb, hb⟩ := addBuckets_eq _ hs' ho'.valid
  refine ⟨bs, bo, b, hs', ho', hb, ?_⟩
  have hround : (o.afterRounds (s.compactions - o.compactions) bo).compactions - s.compactions =
      o.compactions - s.compactions := by
    simp only [afterRounds]
    omega
  unfold mergeSketch
  rw [if_neg (not_not.mpr hmax), if_neg ho, if_neg hs, eo]
  simp only [Option.bind_eq_bind, Option.bind_some]
  rw [hround, es, Option.bind_some]
  simp only [afterRounds] at ho' ⊢
  rw [ho'.iter, Option.bind_some, eb, Option.bind_some, Option.map_eq_bind]
  rfl

theorem mergeSketch_numValues {s o s' : UDDSketch F} {l l'} (h : Holds s.buckets l)
    (h' : Holds o.buckets l') (hs : s.mergeSketch o = some s') :
    s'.numValues = s.numValues + o.numValues := by
  by_cases hmax : s.maxBuckets = o.maxBuckets
  · by_cases ho : o.numValues = 0
    · rw [mergeSketch, if_neg (not_not.mpr hmax), if_pos ho] at hs
      rw [← Option.some.inj hs, ho, Nat.add_zero]
    by_cases h0 : s.numValues = 0
    · rw [mergeSketch, if_neg (not_not.mpr hmax), if_neg ho, if_pos h0] at hs
      rw [← Option.some.inj hs, h0, Nat.zero_add]
    obtain ⟨bs, bo, b, -, -, -, e⟩ := mergeSketch_eq h h' hmax h0 ho
    rw [e] at hs
    obtain ⟨s₁, h₁, rfl⟩ := Option.map_eq_some_iff.mp hs
    have hn := compactWhile_numValues _ h₁
    exact congrArg (· + o.numValues) hn
  · rw [mergeSketch, if_pos hmax] at hs
    cases hs

/-- **Merging well-formed sketches of at least seven buckets does not panic and
ends.** -/
theorem mergeSketch_ends {s o : UDDSketch F} {l l'} (h : Holds s.buckets l)
    (h' : Holds o.buckets l') (hmax : s.maxBuckets = o.maxBuckets) (h7 : 7 ≤ s.maxBuckets) :
    ∃ s' m, s.mergeSketch o = some s' ∧ Holds s'.buckets m ∧ s'.maxBuckets = s.maxBuckets := by
  by_cases ho : o.numValues = 0
  · refine ⟨s, l, ?_, h, rfl⟩
    rw [mergeSketch, if_neg (not_not.mpr hmax), if_pos ho]
  by_cases hs : s.numValues = 0
  · refine ⟨o, l', ?_, h', hmax.symm⟩
    rw [mergeSketch, if_neg (not_not.mpr hmax), if_neg ho, if_pos hs]
  obtain ⟨bs, bo, b, -, -, hb, e⟩ := mergeSketch_eq h h' hmax hs ho
  obtain ⟨s₁, e₁⟩ := compactWhile_ends
    (s := { s.afterRounds (o.compactions - s.compactions) bs with buckets := b }) hb h7
  obtain ⟨c, -, b', rfl, hb', -⟩ := compactWhile_eq
    (s := { s.afterRounds (o.compactions - s.compactions) bs with buckets := b }) hb e₁
  rw [e, e₁]
  exact ⟨_, _, rfl, hb', rfl⟩

end UDDSketch
end ChalkMetrics
