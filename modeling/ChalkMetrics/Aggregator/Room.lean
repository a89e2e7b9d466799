/-
# Record calls that return

With at least seven buckets and an initial error in range, every record call
returns and leaves a map of which that holds again: the sketch of every
histogram is well formed and has its seven buckets, so that adding a value to it
ends (`recordSlot_returns`, `record_returns`). With fewer buckets a call may
never return, and holds the lock of its stripe.

Key definitions: `AggSlot.Roomy`, `StripedAggMap.Roomy`.
-/
import ChalkMetrics.Aggregator.PlainMap
import ChalkMetrics.Sketch.Compaction

namespace ChalkMetrics

open HashTable

section

variable {M F : Type} [AddCommMonoid M] [FloatOps F] [FloatBits F]

/-- The settings of a histogram that takes every value. -/
def StripedAggMap.Valid (s : StripedAggMap M F) : Prop :=
  7 ≤ s.maxBuckets ∧ UDDSketch.errorInRange s.initialError

/-- The slot takes every value. -/
def AggSlot.Roomy : AggSlot M F → Prop
  | histogram s => (∃ l, SketchHashMap.Holds s.sketch.buckets l) ∧ 7 ≤ s.sketch.maxBuckets
  | _ => True

structure StripedAggMap.Roomy (s : StripedAggMap M F) : Prop where
  valid : s.Valid
  slots : ∀ i, ∀ e ∈ s.stripes i, e.value.2.Roomy

omit [AddCommMonoid M] [FloatBits F] in
/-- A histogram takes every value, and the next one. -/
theorem HistogramSlot.record_returns {s : HistogramSlot F}
    (hs : AggSlot.Roomy (.histogram s : AggSlot M F)) (value : F) :
    ∃ s', s.record value = some s' ∧ AggSlot.Roomy (.histogram s' : AggSlot M F) := by
  obtain ⟨⟨l, hl⟩, hmax⟩ := hs
  obtain ⟨sketch, l', hadd, hl', hm⟩ := UDDSketch.addValue_ends hl hmax value
  refine ⟨{ s with sketch }, ?_, ⟨l', hl'⟩, ?_⟩
  · rw [HistogramSlot.record, hadd]
    rfl
  · show 7 ≤ sketch.maxBuckets
    rwa [hm]

theorem AggSlot.Roomy.record {slot : AggSlot M F} (hs : slot.Roomy) (u : Update M F) :
    ∃ slot', slot.record u = some slot' ∧ slot'.Roomy := by
  unfold AggSlot.record
  split
  · exact ⟨_, rfl, trivial⟩
  · exact ⟨_, rfl, trivial⟩
  · obtain ⟨s', hrecord, hs'⟩ := HistogramSlot.record_returns hs _
    exact ⟨.histogram s', by rw [hrecord]; rfl, hs'⟩
  · -- the slot is of another kind
    exact ⟨slot, rfl, hs⟩

theorem AggSlot.create_returns {mb : ℕ} {ε : F} (hmb : 7 ≤ mb) (hε : UDDSketch.errorInRange ε)
    (u : Update M F) : ∃ slot, AggSlot.create mb ε u = some slot ∧ slot.Roomy := by
  have hempty : AggSlot.Roomy (.histogram ⟨.empty mb ε, mb, ε, hε⟩ : AggSlot M F) :=
    ⟨⟨[], SketchHashMap.holds_new⟩, hmb⟩
  unfold AggSlot.create HistogramSlot.new
  cases u with
  | count delta => exact ⟨_, rfl, trivial⟩
  | gauge value => exact ⟨_, rfl, trivial⟩
  | histogram value =>
    obtain ⟨s', hrecord, hs'⟩ := HistogramSlot.record_returns hempty value
    exact ⟨.histogram s', by simp [hε, hrecord], hs'⟩

namespace StripedAggMap

omit [AddCommMonoid M] [FloatBits F] in
theorem roomy_new (makeHash) {mb : ℕ} {ε : F} (hmb : 7 ≤ mb) (hε : UDDSketch.errorInRange ε)
    (rawSender) : (new makeHash mb ε rawSender : StripedAggMap M F).Roomy :=
  ⟨⟨hmb, hε⟩, nofun⟩

omit [AddCommMonoid M] [FloatBits F] in
theorem Roomy.withSender {s : StripedAggMap M F} (hs : s.Roomy) (rawSender) :
    { s with rawSender }.Roomy := ⟨hs.valid, hs.slots⟩

omit [AddCommMonoid M] [FloatBits F] in
/-- A stripe exchanged. -/
theorem Roomy.update {s : StripedAggMap M F} {i : Fin 64} {t : Stripe M F} (hs : s.Roomy)
    (ht : ∀ e ∈ t, e.value.2.Roomy) : { s with stripes := Function.update s.stripes i t }.Roomy := by
  refine ⟨hs.valid, fun j => ?_⟩
  by_cases hj : j = i
  · subst hj
    simpa using ht
  · simpa [hj] using hs.slots j

/-- **A record call that takes the lock of its stripe returns.** -/
theorem recordSlot_returns {s : StripedAggMap M F} (hs : s.Roomy) (grow : Bool) (x : Series)
    (u : Update M F) : ∃ s', s.recordSlot grow x u = some s' ∧ s'.Roomy := by
  let i := stripeIdx x.key
  have hhit : ∀ v : AggKey × AggSlot M F, v.2.Roomy →
      ∃ v', (do return (v.1, ← v.2.record u)) = some v' ∧ v'.2.Roomy := by
    intro v hv
    obtain ⟨slot, hrecord, hslot⟩ := hv.record u
    exact ⟨(v.1, slot), by rw [hrecord]; rfl, hslot⟩
  have hmiss : ∃ v : AggKey × AggSlot M F,
      (do return (x.aggKey, ← AggSlot.create s.maxBuckets s.initialError u)) = some v ∧ v.2.Roomy := by
    obtain ⟨slot, hcreate, hslot⟩ := AggSlot.create_returns hs.valid.1 hs.valid.2 u
    exact ⟨(x.aggKey, slot), by rw [hcreate]; rfl, hslot⟩
  have hfinds := finds_fromHash (s.stripes i) x.key x.key
  obtain ⟨t, hupsert, ht⟩ := upsert_values (P := fun v => v.2.Roomy) (hs.slots i) hfinds hhit hmiss
  refine ⟨{ s with stripes := Function.update s.stripes i t }, ?_, hs.update ht⟩
  exact Option.bind_eq_some_iff.mpr ⟨t, hupsert, rfl⟩

/-- **Every record call returns.** -/
theorem record_returns {s : StripedAggMap M F} (hs : s.Roomy) (grow : Bool) (x : Series)
    (u : Update M F) : ∃ s', MapStep s (.record grow x u) s' := by
  obtain ⟨s', h, -⟩ := recordSlot_returns hs grow x u
  cases u with
  | count delta => exact ⟨s', .count h⟩
  | gauge value => exact ⟨s', .gauge h⟩
  | histogram value =>
    cases hraw : s.rawSender with
    | none => exact ⟨s', .histogram (by rwa [recordHistogram, hraw])⟩
    | some sender => exact ⟨_, .histogram (by rw [recordHistogram, hraw])⟩

/-- The settings stay as they are. -/
theorem valid_record {s s' : StripedAggMap M F} {grow x} {u : Update M F}
    (h : MapStep s (.record grow x u) s') : s'.Valid ↔ s.Valid := by
  have hslot : ∀ {u : Update M F}, s.recordSlot grow x u = some s' → (s'.Valid ↔ s.Valid) := by
    intro u h
    obtain ⟨t, -, h⟩ := Option.bind_eq_some_iff.mp h
    obtain rfl := Option.some.inj h
    exact Iff.rfl
  cases h with
  | count h => exact hslot h
  | gauge h => exact hslot h
  | histogram h =>
    unfold recordHistogram at h
    split at h
    · obtain rfl := Option.some.inj h
      exact Iff.rfl
    · exact hslot h

theorem roomy_record {s s' : StripedAggMap M F} {grow x} {u : Update M F}
    (h : MapStep s (.record grow x u) s') (hs : s.Roomy) : s'.Roomy := by
  have hslot : ∀ {u : Update M F}, s.recordSlot grow x u = some s' → s'.Roomy := by
    intro u h
    obtain ⟨s₁, h₁, hs₁⟩ := recordSlot_returns hs grow x u
    obtain rfl := Option.some.inj (h.symm.trans h₁)
    exact hs₁
  cases h with
  | count h => exact hslot h
  | gauge h => exact hslot h
  | histogram h =>
    unfold recordHistogram at h
    split at h
    · obtain rfl := Option.some.inj h
      exact hs.withSender _
    · exact hslot h

/-- A flush keeps gauges only. -/
theorem roomy_stripe {s s' : StripedAggMap M F} {scan : Fin 64 → Scan} {i : Fin 64} {out}
    (h : s.flushStripe scan i = (out, s')) (hs : s.Roomy) : s'.Roomy := by
  obtain ⟨-, rfl⟩ := Prod.mk.inj h
  have hmet : ∀ e ∈ (scan i).order (s.stripes i), e.value.2.Roomy :=
    fun e he => hs.slots i e (((scan i).perm (s.stripes i)).mem_iff.mp he)
  refine hs.update (drain_values (P := fun v : AggKey × AggSlot M F => v.2.Roomy) hmet ?_)
  rintro k ⟨a, slot⟩ v' hv hkept
  obtain ⟨slot', hslot', rfl⟩ := Option.map_eq_some_iff.mp hkept
  cases slot with
  | count c => cases hslot'
  | gauge g =>
    obtain rfl := Option.some.inj hslot'
    trivial
  | histogram c => cases hslot'

end StripedAggMap

end
end ChalkMetrics
