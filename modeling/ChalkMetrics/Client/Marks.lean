/-
# Marked counts

A count that also carries the numbers of the record calls in it (`Marked`).
What a record call adds to the marks under its key and what a stripe of a flush
takes (`record_counts`, `stripe_counts`), and that a value stays the sum of the
deltas it is marked with (`Summed`).

Key definitions: `Marked`, `Update.mark`, `countsIn`, `countsOut`.
-/
import ChalkMetrics.Aggregator.Conserve
import ChalkMetrics.Aggregator.PlainMap
import Mathlib.Algebra.Group.Prod
import Mathlib.Algebra.Group.Submonoid.Basic
import Mathlib.Algebra.Order.Group.Multiset

namespace ChalkMetrics

open HashTable StripedAggMap

/-- A sum of deltas, and the numbers of the calls they came with. -/
abbrev Marked := BitVec 64 × Multiset ℕ

/-- The update of record call number `i`. -/
def Update.mark {F : Type} (i : ℕ) : Update (BitVec 64) F → Update Marked F
  | .count delta => .count (delta, {i})
  | .gauge value => .gauge value
  | .histogram value => .histogram value

theorem mark_kind {F : Type} (i : ℕ) (u : Update (BitVec 64) F) : (u.mark i).kind = u.kind := by
  cases u <;> rfl

section

variable {M F : Type} [AddCommMonoid M] [FloatOps F] [FloatBits F]

/-- The counts stored under `k`, added up. -/
def countsIn (s : StripedAggMap M F) (k : UInt64) : M := (countMeasure M F).ofBag (s.bagOf k)

/-- The counts put out for `k`, added up. -/
def countsOut (out : List (UInt64 × FlushedMetric M F)) (k : UInt64) : M :=
  (countMeasure M F).ofOut (outOf out k)

/-- How a call changes the map: it is absorbed, or goes past the map as a raw point. -/
theorem mapStep_record {s s' : StripedAggMap M F} {grow x} {u : Update M F}
    (h : MapStep s (.record grow x u) s') :
    ((∃ entry, Absorbed s.maxBuckets s.initialError x u entry (s.bagOf x.key) (s'.bagOf x.key)) ∨
      u.kind = .histogram ∧ s'.bagOf x.key = s.bagOf x.key) ∧
    (∀ k ≠ x.key, s'.bagOf k = s.bagOf k) ∧ (Placed s → Placed s') := by
  cases h with
  | count h =>
    obtain ⟨habs, hother, hplaced⟩ := recordSlot_spec h
    exact ⟨.inl ⟨_, habs⟩, hother, hplaced⟩
  | gauge h =>
    obtain ⟨habs, hother, hplaced⟩ := recordSlot_spec h
    exact ⟨.inl ⟨_, habs⟩, hother, hplaced⟩
  | histogram h =>
    rcases hraw : s.rawSender with _ | sender
    · rw [recordHistogram, hraw] at h
      obtain ⟨habs, hother, hplaced⟩ := recordSlot_spec h
      exact ⟨.inl ⟨_, habs⟩, hother, hplaced⟩
    · rw [recordHistogram, hraw] at h
      obtain rfl := Option.some.inj h
      exact ⟨.inr ⟨rfl, rfl⟩, fun _ _ => rfl, fun hp => hp⟩

/-- A call adds its delta, if counts are what is stored under its key. -/
theorem absorbed_counts {mb : ℕ} {ε : F} {x : Series} {u : Update M F} {entry}
    {b b' : List (AggKey × AggSlot M F)} (h : Absorbed mb ε x u entry b b')
    (hpure : u.kind = .count → ∀ v ∈ b, v.2.kind = .count) :
    (countMeasure M F).ofBag b' = (countMeasure M F).ofBag b + u.delta := by
  cases u with
  | count delta => exact ((countMeasure M F).absorbed h rfl (hpure rfl)).2
  | gauge value =>
    cases h with
    | @found i l r a slot slot' hr =>
      have hsame : slot'.countValue = slot.countValue := by
        cases hr with
        | other h => rfl
        | gauge value s => rfl
      simp [Measure.ofBag, countMeasure, hsame, Update.delta]
    | created hc =>
      cases hc with
      | gauge value => simp [Measure.ofBag, countMeasure, AggSlot.countValue, Update.delta]
  | histogram value =>
    cases h with
    | @found i l r a slot slot' hr =>
      have hsame : slot'.countValue = slot.countValue := by
        cases hr with
        | other h => rfl
        | histogram h => rfl
      simp [Measure.ofBag, countMeasure, hsame, Update.delta]
    | created hc =>
      cases hc with
      | histogram hn h => simp [Measure.ofBag, countMeasure, AggSlot.countValue, Update.delta]

/-- A call adds its delta to what is stored under its key. -/
theorem record_counts {s s' : StripedAggMap M F} {grow x} {u : Update M F}
    (h : MapStep s (.record grow x u) s')
    (hpure : u.kind = .count → ∀ v ∈ s.bagOf x.key, v.2.kind = .count) (k : UInt64) :
    countsIn s' k = countsIn s k + if k = x.key then u.delta else 0 := by
  obtain ⟨hself, hother, -⟩ := mapStep_record h
  by_cases hk : k = x.key
  · subst hk
    rw [if_pos rfl]
    rcases hself with ⟨entry, habs⟩ | ⟨hkind, hbag⟩
    · exact absorbed_counts habs hpure
    · have hzero : u.delta = 0 := by
        cases u with
        | count delta => cases hkind
        | gauge value => rfl
        | histogram value => rfl
      rw [countsIn, countsIn, hbag, hzero, add_zero]
  · rw [if_neg hk, add_zero, countsIn, countsIn, hother k hk]

/-- A slot after a call is of a kind stored before, or of the call's. -/
theorem absorbed_kind {mb : ℕ} {ε : F} {x : Series} {u : Update M F}
    {entry} {b b' : List (AggKey × AggSlot M F)} (h : Absorbed mb ε x u entry b b') :
    ∀ v ∈ b', (∃ v₀ ∈ b, v.2.kind = v₀.2.kind) ∨ v.2.kind = u.kind := by
  intro v hv
  cases h with
  | @found i l r a slot slot' hr =>
    rcases List.mem_append.mp hv with hv | hv
    · exact .inl ⟨v, List.mem_append_left _ hv, rfl⟩
    · rcases List.mem_cons.mp hv with rfl | hv
      · exact .inl ⟨(a, slot), by simp, hr.kind⟩
      · exact .inl ⟨v, List.mem_append_right _ (List.mem_cons_of_mem _ hv), rfl⟩
  | created hc =>
    rcases List.mem_cons.mp hv with rfl | hv
    · exact .inr hc.kind
    · exact .inl ⟨v, hv, rfl⟩

theorem absorbed_mem {H : AddSubmonoid M} {mb : ℕ} {ε : F} {x : Series} {u : Update M F} {entry}
    {b b' : List (AggKey × AggSlot M F)} (h : Absorbed mb ε x u entry b b') (hu : u.delta ∈ H)
    (hb : ∀ v ∈ b, v.2.countValue ∈ H) : ∀ v ∈ b', v.2.countValue ∈ H := by
  intro v hv
  cases h with
  | @found i l r a slot slot' hr =>
    have hslot : slot.countValue ∈ H := hb (a, slot) (by simp)
    rcases List.mem_append.mp hv with hv | hv
    · exact hb v (List.mem_append_left _ hv)
    · rcases List.mem_cons.mp hv with rfl | hv
      · cases hr with
        | other h => exact hslot
        | count delta s => exact H.add_mem hslot hu
        | gauge value s => exact hslot
        | histogram h => exact hslot
      · exact hb v (List.mem_append_right _ (List.mem_cons_of_mem _ hv))
  | created hc =>
    rcases List.mem_cons.mp hv with rfl | hv
    · cases hc with
      | count delta => exact H.add_mem H.zero_mem hu
      | gauge value => exact H.zero_mem
      | histogram hn h => exact H.zero_mem
    · exact hb v hv

/-- A drained bag puts out all its counts. -/
theorem drained_counts {k : UInt64} {b b' : List (AggKey × AggSlot M F)} {out}
    (h : Drained k b out b') :
    (countMeasure M F).ofOut out = (countMeasure M F).ofBag b ∧ (countMeasure M F).ofBag b' = 0 ∧
      ∀ v ∈ b', v ∈ b := by
  obtain ⟨l, hperm, rfl, rfl⟩ := h
  have hsum : (countMeasure M F).ofBag b = (countMeasure M F).ofBag l :=
    (hperm.map fun v : AggKey × AggSlot M F => v.2.countValue).sum_eq.symm
  have hstays : ∀ v ∈ l.filterMap (fun v => (drainEntry k v).2), v ∈ l ∧ v.2.countValue = 0 := by
    intro v hv
    obtain ⟨w, hw, hd⟩ := List.mem_filterMap.mp hv
    obtain ⟨slot, hslot, rfl⟩ := Option.map_eq_some_iff.mp hd
    have hkeep := AggSlot.flush_retained hslot
    refine ⟨by rwa [hkeep], ?_⟩
    cases hw : w.2 with
    | count s => rw [hw] at hslot; cases hslot
    | gauge s => rw [hkeep, hw]; rfl
    | histogram s => rw [hw] at hslot; cases hslot
  refine ⟨?_, List.sum_eq_zero fun c hc => ?_, fun v hv => hperm.subset (hstays v hv).1⟩
  · rw [hsum]
    clear hsum hperm hstays
    induction l with
    | nil => rfl
    | cons v l ih =>
      have hflush : v.2.flush.1.elim 0 FlushedValue.countValue = v.2.countValue := by
        cases v.2 with
        | count s => rfl
        | gauge s =>
          rcases hg : (s.flush : Option F) with _ | value
          · simp [AggSlot.flush, hg, AggSlot.countValue]
          · simp [AggSlot.flush, hg, AggSlot.countValue, FlushedValue.countValue]
        | histogram s =>
          simp only [AggSlot.flush]
          split_ifs <;> rfl
      rw [List.filterMap_cons, drainEntry]
      simp only [Measure.ofOut, Measure.ofBag, List.map_cons, List.sum_cons] at ih ⊢
      rw [show (countMeasure M F).slot v.2 = v.2.countValue from rfl, ← hflush, ← ih]
      rcases v.2.flush.1 with _ | value
      · exact (zero_add _).symm
      · rfl
  · obtain ⟨v, hv, rfl⟩ := List.mem_map.mp hc
    exact (hstays v hv).2

theorem drained_mem {H : AddSubmonoid M} {k : UInt64} {b b' : List (AggKey × AggSlot M F)} {out}
    (h : Drained k b out b') (hb : ∀ v ∈ b, v.2.countValue ∈ H) :
    ∀ m ∈ out, m.value.countValue ∈ H := by
  obtain ⟨l, hperm, rfl, rfl⟩ := h
  intro m hm
  obtain ⟨v, hv, hd⟩ := List.mem_filterMap.mp hm
  obtain ⟨value, hvalue, rfl⟩ := Option.map_eq_some_iff.mp hd
  have hcount := hb v (hperm.subset hv)
  cases hs : v.2 with
  | count s =>
    rw [hs] at hvalue hcount
    rw [← Option.some.inj hvalue]
    exact hcount
  | gauge s =>
    rw [hs] at hvalue
    obtain ⟨g, -, rfl⟩ := Option.map_eq_some_iff.mp hvalue
    exact H.zero_mem
  | histogram s =>
    rw [hs] at hvalue
    simp only [AggSlot.flush] at hvalue
    split_ifs at hvalue
    rw [← Option.some.inj hvalue]
    exact H.zero_mem

/-- What a stripe of a flush takes. -/
structure StripeTaken (s : StripedAggMap M F) (i : Fin 64) (out : List (UInt64 × FlushedMetric M F))
    (s' : StripedAggMap M F) : Prop where
  placed : Placed s'
  counts : ∀ k, countsOut out k + countsIn s' k = countsIn s k
  empty : ∀ k, stripeIdx k = i → countsIn s' k = 0
  subset : ∀ k, ∀ v ∈ s'.bagOf k, v ∈ s.bagOf k
  mem : ∀ H : AddSubmonoid M, (∀ k, ∀ v ∈ s.bagOf k, v.2.countValue ∈ H) →
    ∀ p ∈ out, p.2.value.countValue ∈ H

theorem stripe_counts {s s' : StripedAggMap M F} {scan : Fin 64 → Scan} {i : Fin 64} {out}
    (h : s.flushStripe scan i = (out, s')) (hp : Placed s) : StripeTaken s i out s' := by
  obtain ⟨hin, hother, hplaced⟩ := flushStripe_spec scan hp i
  rw [h] at hin hother hplaced
  refine ⟨hplaced, fun k => ?_, fun k hk => (drained_counts (hin k hk)).2.1, fun k => ?_,
    fun H hH p hpout => ?_⟩
  · by_cases hk : stripeIdx k = i
    · obtain ⟨hout, hbag, -⟩ := drained_counts (hin k hk)
      rw [countsOut, countsIn, countsIn, hout, hbag, add_zero]
    · obtain ⟨hout, hbag⟩ := hother k hk
      rw [countsOut, countsIn, countsIn, hout, hbag]
      exact zero_add _
  · by_cases hk : stripeIdx k = i
    · exact (drained_counts (hin k hk)).2.2
    · rw [(hother k hk).2]
      exact fun v hv => hv
  · have hmem : p.2 ∈ outOf out p.1 :=
      List.mem_map.mpr ⟨p, List.mem_filter.mpr ⟨hpout, by simp⟩, rfl⟩
    by_cases hk : stripeIdx p.1 = i
    · exact drained_mem (hin _ hk) (hH p.1) p.2 hmem
    · rw [(hother _ hk).1] at hmem
      exact absurd hmem List.not_mem_nil

end

/-! ### What a marked value says -/

section

variable {F : Type}

/-- The delta of record call number `i`, 0 if it is not a count. -/
def deltaOf (recorded : List (Series × Update (BitVec 64) F)) (i : ℕ) : BitVec 64 :=
  match recorded[i]? with
  | some (_, .count delta) => delta
  | _ => 0

/-- The values that are the sum of the deltas they are marked with. -/
def Summed (recorded : List (Series × Update (BitVec 64) F)) : AddSubmonoid Marked where
  carrier := {v | (∀ i ∈ v.2, i < recorded.length) ∧ v.1 = (v.2.map (deltaOf recorded)).sum}
  zero_mem' := ⟨nofun, rfl⟩
  add_mem' := by
    rintro v v' ⟨hv, hsum⟩ ⟨hv', hsum'⟩
    refine ⟨fun i hi => ?_, ?_⟩
    · rcases Multiset.mem_add.mp hi with hi | hi
      · exact hv i hi
      · exact hv' i hi
    · rw [Prod.fst_add, Prod.snd_add, Multiset.map_add, Multiset.sum_add, hsum, hsum']

theorem summed_append (recorded : List (Series × Update (BitVec 64) F)) (c) :
    Summed recorded ≤ Summed (recorded ++ [c]) := by
  rintro v ⟨hv, hsum⟩
  refine ⟨fun i hi => ?_, ?_⟩
  · rw [List.length_append]
    exact Nat.lt_add_right _ (hv i hi)
  · rw [hsum]
    refine congrArg Multiset.sum (Multiset.map_congr rfl fun i hi => ?_)
    rw [deltaOf, deltaOf, List.getElem?_append_left (hv i hi)]

/-- The delta of the last call, marked with its number. -/
theorem mark_summed (recorded : List (Series × Update (BitVec 64) F)) (x : Series)
    (u : Update (BitVec 64) F) :
    (u.mark recorded.length).delta ∈ Summed (recorded ++ [(x, u)]) := by
  cases u with
  | count delta =>
    refine ⟨fun i hi => ?_, ?_⟩
    · rw [Multiset.mem_singleton.mp hi, List.length_append]
      exact Nat.lt_succ_self _
    · show delta = (Multiset.map (deltaOf (recorded ++ [(x, .count delta)])) {recorded.length}).sum
      rw [Multiset.map_singleton, Multiset.sum_singleton, deltaOf, List.getElem?_concat_length]
  | gauge value => exact (Summed _).zero_mem
  | histogram value => exact (Summed _).zero_mem

end
end ChalkMetrics
