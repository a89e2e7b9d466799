/-
# When the compaction loop ends

`while buckets.len() > max_buckets { compact_buckets() }` ends just when the
keys have at most `max_buckets` limits, and then within 64 rounds
(`compactWhile_ends_iff`): every round keeps the limits apart, and 64 rounds
leave nothing but them. There are seven limits, so seven buckets are enough for
every map and fewer are not (`compaction_ends`).

Key definitions: `limits`, `UDDSketch.LoopEnds`, `UDDSketch.LoopsForever`.
-/
import ChalkMetrics.Sketch.Compaction

namespace ChalkMetrics

open SketchHashKey SketchHashMap

/-- The limits of the keys in the bins. -/
def limits (l : List (SketchHashKey × ℕ)) : Finset SketchHashKey := (Bins.keys l).toFinset.image limit

theorem compactKey_limit (k : SketchHashKey) : compactKey (limit k) = limit k := by
  have hexp : ∀ x, newExp (limitExp x) = limitExp x := by
    intro x
    unfold limitExp
    split_ifs <;> decide
  cases k with
  | invalid => rfl
  | zero => rfl
  | positive x => rw [limit, compactKey_positive, hexp]
  | negative x => rw [limit, compactKey_negative, hexp]

/-- A round does not change the limit of a key. -/
theorem limit_iterate (n : ℕ) (k : SketchHashKey) : limit (compactKey^[n] k) = limit k := by
  calc limit (compactKey^[n] k) = compactKey^[64 + n] k := by
        rw [← compactKey_iterate_limit, ← Function.iterate_add_apply]
    _ = compactKey^[n] (limit k) := by
        rw [Nat.add_comm, Function.iterate_add_apply, compactKey_iterate_limit]
    _ = limit k := Function.iterate_fixed (compactKey_limit k) n

/-- No number of rounds leaves fewer bins than there are limits. -/
theorem card_limits_le {l : List (SketchHashKey × ℕ)} (h : Bins.Ascending l) (n : ℕ) :
    (limits l).card ≤ ((Bins.regroup compactKey)^[n] l).length := by
  have himage : limits l = ((Bins.keys l).toFinset.image compactKey^[n]).image limit := by
    rw [Finset.image_image]
    exact Finset.image_congr fun k _ => (limit_iterate n k).symm
  rw [length_regroup_iterate n h, himage]
  exact Finset.card_image_le

theorem length_limits {l : List (SketchHashKey × ℕ)} (h : Bins.Ascending l) :
    ((Bins.regroup compactKey)^[64] l).length = (limits l).card := by
  rw [length_regroup_iterate 64 h, limits]
  congr 2
  exact funext compactKey_iterate_limit

/-! ### The loop -/

section

variable {F : Type} [FloatOps F]

/-- The loop ends, after however many rounds. -/
def UDDSketch.LoopEnds (s : UDDSketch F) : Prop := ∃ n s', UDDSketch.compactWhile n s = some s'

/-- Every round is made and leaves too many buckets. -/
def UDDSketch.LoopsForever (s : UDDSketch F) : Prop :=
  ∀ n, ∃ s', UDDSketch.compactTimes n s = some s' ∧ s.maxBuckets < s'.buckets.len

/-- **The loop ends just when there are few enough limits**, and within 64
rounds. -/
theorem compactWhile_ends_iff {s : UDDSketch F} {l} (h : Holds s.buckets l) :
    (s.LoopEnds ↔ (limits l).card ≤ s.maxBuckets) ∧
      (s.LoopEnds → ∃ s', UDDSketch.compactWhile 64 s = some s') ∧
      (¬ s.LoopEnds → s.LoopsForever) := by
  have hfew : s.LoopEnds → (limits l).card ≤ s.maxBuckets := by
    rintro ⟨n, s', hs⟩
    obtain ⟨c, -, -, -, -, hle, -⟩ := UDDSketch.compactWhile_eq h hs
    exact (card_limits_le h.ascending c).trans hle
  have hends : (limits l).card ≤ s.maxBuckets → ∃ s', UDDSketch.compactWhile 64 s = some s' := by
    intro hle
    apply UDDSketch.compactWhile_isSome h le_rfl
    rw [length_limits h.ascending]
    exact hle
  refine ⟨⟨hfew, fun hle => ⟨64, hends hle⟩⟩, fun he => hends (hfew he), fun hno n => ?_⟩
  have hmany : s.maxBuckets < (limits l).card := not_le.mp fun hle => hno ⟨64, hends hle⟩
  obtain ⟨b, e, hb⟩ := UDDSketch.compactTimes_eq n h
  refine ⟨_, e, ?_⟩
  show s.maxBuckets < b.len
  rw [hb.len]
  exact hmany.trans_le (card_limits_le h.ascending n)

/-! ### Seven buckets -/

/-- A map of any valid keys. -/
theorem exists_holds (ks : Finset SketchHashKey) (h : .invalid ∉ ks) :
    ∃ b l, Holds b l ∧ (Bins.keys l).toFinset = ks := by
  set l₀ : List (SketchHashKey × ℕ) := ks.toList.map fun k => (k, 1) with hl₀
  have hkeys : ∀ k, k ∈ Bins.keys l₀ ↔ k ∈ ks := by
    intro k
    simp [hl₀, Bins.keys]
  have hpos : ∀ p ∈ l₀, 0 < p.2 := by
    intro p hp
    obtain ⟨k, -, rfl⟩ := List.mem_map.mp hp
    exact Nat.one_pos
  obtain ⟨b, -, hb⟩ := UDDSketch.addBuckets_eq l₀ holds_new fun hi => h ((hkeys _).mp hi)
  refine ⟨b, _, hb, ?_⟩
  ext k
  have hnil : ∀ p ∈ ([] : List (SketchHashKey × ℕ)), 0 < p.2 := fun p hp => absurd hp List.not_mem_nil
  rw [List.mem_toFinset, ← Bins.mem_expand_iff (Bins.bumps_pos hpos hnil),
    (Bins.expand_bumps l₀ []).mem_iff, Bins.expand_nil, List.append_nil, Bins.mem_expand_iff hpos,
    hkeys]

/-- **Seven buckets are enough for every map, and fewer are not.** The limits
decide for each map. -/
theorem compaction_ends :
    (∀ (s : UDDSketch F) (l), Holds s.buckets l → (s.LoopEnds ↔ (limits l).card ≤ s.maxBuckets) ∧
      (s.LoopEnds → ∃ s', UDDSketch.compactWhile 64 s = some s') ∧
      (¬ s.LoopEnds → s.LoopsForever)) ∧
    (∀ mb, (∀ (s : UDDSketch F) (l), Holds s.buckets l → s.maxBuckets = mb → s.LoopEnds) ↔ 7 ≤ mb) ∧
    ∀ mb ≤ 6, ∃ (s : UDDSketch F) (l : List (SketchHashKey × ℕ)), Holds s.buckets l ∧
      s.maxBuckets = mb ∧ l.length = mb + 1 ∧ s.LoopsForever := by
  have hstuck : ∀ mb ≤ 6, ∃ (s : UDDSketch F) (l : List (SketchHashKey × ℕ)), Holds s.buckets l ∧
      s.maxBuckets = mb ∧ l.length = mb + 1 ∧ mb < (limits l).card := by
    intro mb hmb
    have hseven : limitKeys.card = 7 := by decide
    obtain ⟨ks, hks, hcard⟩ := Finset.exists_subset_card_eq (s := limitKeys) (n := mb + 1) (by omega)
    obtain ⟨b, l, hb, hl⟩ := exists_holds ks fun hi => absurd (hks hi) (by decide)
    refine ⟨{ UDDSketch.empty mb (1.0 : F) with buckets := b }, l, hb, rfl, ?_, ?_⟩
    · rw [hb.ascending.length_eq_card, hl, hcard]
    · have hfix : ∀ k ∈ limitKeys, limit k = k := by decide
      rw [limits, hl, Finset.image_congr fun k hk => hfix k (hks hk), Finset.image_id', hcard]
      exact Nat.lt_succ_self mb
  refine ⟨fun s l => compactWhile_ends_iff, fun mb => ⟨fun hall => ?_, fun h7 s l h hmb => ?_⟩,
    fun mb hmb => ?_⟩
  · by_contra hlt
    obtain ⟨s, l, h, hs, -, hmany⟩ := hstuck mb (by omega)
    have hle := (compactWhile_ends_iff h).1.mp (hall s l h hs)
    omega
  · exact ⟨64, UDDSketch.compactWhile_ends h (hmb.symm ▸ h7)⟩
  · obtain ⟨s, l, h, hs, hlen, hmany⟩ := hstuck mb hmb
    refine ⟨s, l, h, hs, hlen, (compactWhile_ends_iff h).2.2 fun he => ?_⟩
    have hle := (compactWhile_ends_iff h).1.mp he
    omega

end
end ChalkMetrics
