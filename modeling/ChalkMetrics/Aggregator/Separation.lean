/-
# Which metrics share a slot

A slot belongs to a combined key, made of the address of the metric's name and
the hash of its tags; its namespace, tags and kind are those of the first
metric recorded under the key. A flushed metric carries the updates of its own
series alone (`Carries`) in every run over a set of metrics just when metrics
of the set with one name and one hash stream are one series
(`separated_iff`). Two metrics of one name in two namespaces are not
(`namespaces_share_slot`): the namespace is not part of the key, nor are the
kind and the export names of the tags.

Key definitions: `Collisionless`, `Separated`, `KeyedByName`.
-/
import ChalkMetrics.Aggregator.PlainMap
import ChalkMetrics.Macros.Metric

namespace ChalkMetrics

open HashTable Runs

variable {M F : Type} [AddCommMonoid M] [FloatOps F] [FloatBits F]

/-! ### Runs over metrics -/

inductive MetricEvent (M F : Type) [FloatOps F] where
  | record (grow : Bool) (m : Metric) (u : Update M F)
  | flush (scan : Fin 64 → Scan) (out : List (FlushedMetric M F))

def MetricEvent.toMap (hash : List UInt8 → UInt64) : MetricEvent M F → MapEvent M F
  | record grow m u => .record grow (m.series hash) u
  | flush scan out => .flush scan out

/-- The generated record methods call the function of their kind. -/
def MetricEvent.Typed : MetricEvent M F → Prop
  | record _ m u => u.kind = m.kind
  | flush _ _ => True

def MetricStep (hash : List UInt8 → UInt64) (s : StripedAggMap M F) (e : MetricEvent M F)
    (s' : StripedAggMap M F) : Prop :=
  e.Typed ∧ MapStep s (e.toMap hash) s'

/-- The metrics recorded are from `S`. -/
def Over (S : Set Metric) (es : List (MetricEvent M F)) : Prop :=
  ∀ grow m u, MetricEvent.record grow m u ∈ es → m ∈ S

/-- The updates recorded by metrics with this kind, namespace, name and pairs. -/
def updatesOf (kind : MetricKind) (a : AggKey) : List (MetricEvent M F) → List (Update M F)
  | [] => []
  | .record _ m u :: es =>
    if m.kind = kind ∧ m.aggKey = a then u :: updatesOf kind a es else updatesOf kind a es
  | .flush _ _ :: es => updatesOf kind a es

/-- `slot` was made by the first of `us` and took in the rest, in order. -/
inductive Replays (mb : ℕ) (ε : F) : List (Update M F) → AggSlot M F → Prop
  | one {u : Update M F} {slot : AggSlot M F} (h : AggSlot.Created mb ε u slot) :
      Replays mb ε [u] slot
  | snoc {us : List (Update M F)} {slot slot' : AggSlot M F} {u : Update M F}
      (h : Replays mb ε us slot) (hk : u.kind = slot.kind) (hr : AggSlot.Recorded u slot slot') :
      Replays mb ε (us ++ [u]) slot'

/-- The value of `fm` is that of a slot which took in some of the updates
recorded for `fm`'s own namespace, name, kind and tags, and no other. -/
def Carries (mb : ℕ) (ε : F) (es : List (MetricEvent M F)) (fm : FlushedMetric M F) : Prop :=
  ∃ us slot, us.Sublist (updatesOf fm.value.kind fm.aggKey es) ∧ Replays mb ε us slot ∧
    slot.flush.1 = some fm.value

/-! ### The assumptions and the property -/

/-- What is assumed of names and hashes: one address for one name, no two hash
streams with one hash, no two pairs of address and hash with one key. -/
structure Collisionless (hash : List UInt8 → UInt64) (S : Set Metric) : Prop where
  names : ∀ m ∈ S, ∀ m' ∈ S, m.name.text = m'.name.text ↔ m.name.addr = m'.name.addr
  hashes : ∀ m ∈ S, ∀ m' ∈ S, hash m.hashStream = hash m'.hashStream → m.hashStream = m'.hashStream
  keys : ∀ m ∈ S, ∀ m' ∈ S, (m.series hash).key = (m'.series hash).key →
    m.name.addr = m'.name.addr ∧ hash m.hashStream = hash m'.hashStream

/-- **Series separation** over the metrics of `S`: after every run, a record
call of any of them that finds a slot finds one of its kind, and every metric a
flush returns carries only updates of its own. -/
def Separated (M F : Type) [AddCommMonoid M] [FloatOps F] [FloatBits F]
    (hash : List UInt8 → UInt64) (S : Set Metric) : Prop :=
  ∀ (makeHash : Fin 64 → UInt64 → UInt64) (mb : ℕ) (ε : F) (raw : Option (Channel F))
    (es : List (MetricEvent M F)) (s : StripedAggMap M F),
    Run (MetricStep hash) (.new makeHash mb ε raw) es s → Over S es →
    (∀ m ∈ S, ∀ i e, s.lookup (m.series hash) = .occupied i →
      (s.stripes (stripeIdx (m.series hash).key))[i]? = some e → e.value.2.kind = m.kind) ∧
    ∀ scan, ∀ fm ∈ (s.flush scan).1, Carries mb ε es fm

/-- Metrics with one name and one hash stream are one series. -/
def KeyedByName (S : Set Metric) : Prop :=
  ∀ m ∈ S, ∀ m' ∈ S, m.name.text = m'.name.text → m.hashStream = m'.hashStream →
    m.kind = m'.kind ∧ m.aggKey = m'.aggKey

/-! ### Metrics with one key are one series -/

omit [AddCommMonoid M] [FloatBits F] in
theorem updatesOf_append (kind : MetricKind) (a : AggKey) (es es' : List (MetricEvent M F)) :
    updatesOf kind a (es ++ es') = updatesOf kind a es ++ updatesOf kind a es' := by
  induction es with
  | nil => rfl
  | cons e es ih =>
    cases e with
    | record grow m u =>
      simp only [List.cons_append, updatesOf, ih]
      split_ifs <;> rfl
    | flush scan out => exact ih

theorem keyedByName_key {hash : List UInt8 → UInt64} {S : Set Metric} (hc : Collisionless hash S)
    (hk : KeyedByName S) {m m' : Metric} (hm : m ∈ S) (hm' : m' ∈ S)
    (h : (m.series hash).key = (m'.series hash).key) : m.kind = m'.kind ∧ m.aggKey = m'.aggKey := by
  obtain ⟨haddr, hhash⟩ := hc.keys m hm m' hm' h
  exact hk m hm m' hm' ((hc.names m hm m' hm').mpr haddr) (hc.hashes m hm m' hm' hhash)

/-- Every slot is that of a metric of `S` and holds updates of that metric only. -/
structure Apart (hash : List UInt8 → UInt64) (S : Set Metric) (mb : ℕ) (ε : F)
    (es : List (MetricEvent M F)) (s : StripedAggMap M F) : Prop where
  maxBuckets : s.maxBuckets = mb
  initialError : s.initialError = ε
  placed : s.Placed
  own : ∀ k, ∀ v ∈ s.bagOf k, ∃ m ∈ S, (m.series hash).key = k ∧ v.1 = m.aggKey ∧
    v.2.kind = m.kind ∧ ∃ us, us.Sublist (updatesOf m.kind m.aggKey es) ∧ Replays mb ε us v.2

/-- What held before an event holds after: the updates have only grown. -/
theorem Apart.later {hash : List UInt8 → UInt64} {S : Set Metric} {mb : ℕ} {ε : F}
    {es : List (MetricEvent M F)} {s : StripedAggMap M F} (ha : Apart hash S mb ε es s)
    (e : MetricEvent M F) : Apart hash S mb ε (es ++ [e]) s := by
  refine ⟨ha.maxBuckets, ha.initialError, ha.placed, fun k v hv => ?_⟩
  obtain ⟨m, hm, hkey, h1, h2, us, hsub, hrep⟩ := ha.own k v hv
  refine ⟨m, hm, hkey, h1, h2, us, ?_, hrep⟩
  rw [updatesOf_append]
  exact hsub.trans (List.sublist_append_left _ _)

theorem apart_record {hash : List UInt8 → UInt64} {S : Set Metric} (hc : Collisionless hash S)
    (hk : KeyedByName S) {mb : ℕ} {ε : F} {es : List (MetricEvent M F)} {s s' : StripedAggMap M F}
    {grow : Bool} {m : Metric} {u : Update M F} (hm : m ∈ S) (hu : u.kind = m.kind)
    (h : s.recordSlot grow (m.series hash) u = some s') (ha : Apart hash S mb ε es s) :
    Apart hash S mb ε (es ++ [.record grow m u]) s' := by
  obtain ⟨habs, hother, hplaced⟩ := StripedAggMap.recordSlot_spec h
  have hs' := StripedAggMap.recordFound_stripes h
  rw [ha.maxBuckets, ha.initialError] at habs
  have hown : updatesOf m.kind m.aggKey [MetricEvent.record grow m u] = [u] := if_pos ⟨rfl, rfl⟩
  have hold := (ha.later (.record grow m u)).own
  refine ⟨?_, ?_, hplaced ha.placed, fun k v hv => ?_⟩
  · rw [hs']; exact ha.maxBuckets
  · rw [hs']; exact ha.initialError
  by_cases hkx : k = (m.series hash).key
  · subst hkx
    generalize hb : s.bagOf (m.series hash).key = b at habs
    generalize hb' : s'.bagOf (m.series hash).key = b' at habs
    generalize s.lookup (m.series hash) = entry at habs
    rw [hb'] at hv
    cases habs with
    | @found i l r a slot slot' hr =>
      rcases List.mem_append.mp hv with hv | hv
      · exact hold _ v (hb ▸ List.mem_append_left _ hv)
      rcases List.mem_cons.mp hv with rfl | hv
      · have hmem : (a, slot) ∈ s.bagOf (m.series hash).key := by rw [hb]; simp
        obtain ⟨m', hm', hkey, h1, h2, us, hsub, hrep⟩ := ha.own _ _ hmem
        obtain ⟨hkind, hagg⟩ := keyedByName_key hc hk hm' hm hkey
        have hks : u.kind = slot.kind := by rw [hu, ← hkind]; exact h2.symm
        refine ⟨m, hm, rfl, h1.trans hagg, ?_, us ++ [u], ?_, hrep.snoc hks hr⟩
        · rw [hr.kind]; exact h2.trans hkind
        · rw [updatesOf_append, hown]
          rw [hkind, hagg] at hsub
          exact hsub.append (List.Sublist.refl _)
      · exact hold _ v (hb ▸ List.mem_append_right _ (List.mem_cons_of_mem _ hv))
    | created hcr =>
      rcases List.mem_cons.mp hv with rfl | hv
      · refine ⟨m, hm, rfl, rfl, hcr.kind.trans hu, [u], ?_, .one hcr⟩
        rw [updatesOf_append, hown]
        exact List.sublist_append_right _ _
      · exact hold _ v (hb ▸ hv)
  · rw [hother k hkx] at hv
    exact hold k v hv

theorem apart_run {hash : List UInt8 → UInt64} {S : Set Metric} (hc : Collisionless hash S)
    (hk : KeyedByName S) {makeHash} {mb : ℕ} {ε : F} {es : List (MetricEvent M F)}
    {raw : Option (Channel F)} {s : StripedAggMap M F}
    (h : Run (MetricStep hash) (.new makeHash mb ε raw) es s) (ho : Over S es) : Apart hash S mb ε es s := by
  refine h.inv (I := fun es s => Over S es → Apart hash S mb ε es s) (fun _ => ?_) ?_ ho
  · exact ⟨rfl, rfl, StripedAggMap.placed_new makeHash mb ε raw,
      fun k v hv => absurd hv List.not_mem_nil⟩
  · intro es t e s ih hstep ho
    have ha := ih fun grow m u hmem => ho grow m u (List.mem_append_left _ hmem)
    obtain ⟨htyped, hstep⟩ := hstep
    cases e with
    | record grow m u =>
      have hm : m ∈ S := ho grow m u (by simp)
      cases hstep with
      | count h => exact apart_record hc hk hm htyped h ha
      | gauge h => exact apart_record hc hk hm htyped h ha
      | histogram h =>
        rw [StripedAggMap.recordHistogram] at h
        rcases hraw : t.rawSender with _ | sender
        · rw [hraw] at h
          exact apart_record hc hk hm htyped h ha
        · -- a raw point goes past the stripes
          rw [hraw] at h
          obtain rfl := Option.some.inj h
          exact ⟨ha.maxBuckets, ha.initialError, ha.placed, (ha.later _).own⟩
    | flush scan out =>
      cases hstep with
      | flush h =>
        have hs' : s = (t.flush scan).2 := by rw [h]
        have hst := StripedAggMap.flush_stripes scan t
        obtain ⟨-, -, hplaced⟩ := StripedAggMap.flush_spec scan ha.placed
        subst hs'
        refine ⟨?_, ?_, hplaced, fun k v hv => ?_⟩
        · rw [hst]; exact ha.maxBuckets
        · rw [hst]; exact ha.initialError
        · exact (ha.later _).own k v (StripedAggMap.mem_bag_flush ha.placed hv)

/-- Metrics keyed by name are separated. -/
theorem separated_of_keyedByName {hash : List UInt8 → UInt64} {S : Set Metric}
    (hc : Collisionless hash S) (hk : KeyedByName S) : Separated M F hash S := by
  intro makeHash mb ε raw es s hrun ho
  have ha := apart_run hc hk hrun ho
  constructor
  · intro m hm i e hl he
    have hf := finds_fromHash (s.stripes (stripeIdx (m.series hash).key)) (m.series hash).key
      (m.series hash).key
    rw [show fromHash _ _ _ = _ from hl] at hf
    obtain ⟨e', he', hkey⟩ := hf
    obtain rfl := Option.some.inj (he.symm.trans he')
    have hmem := mem_bag_of_mem (List.mem_of_getElem? he)
    rw [hkey] at hmem
    obtain ⟨m', hm', hkey', -, h2, -⟩ := ha.own _ _ hmem
    exact h2.trans (keyedByName_key hc hk hm' hm hkey').1
  · intro scan fm hfm
    obtain ⟨k, v, hv, hd⟩ := StripedAggMap.mem_flush ha.placed hfm
    obtain ⟨m, -, -, h1, h2, us, hsub, hrep⟩ := ha.own k v hv
    obtain ⟨value, hval, rfl⟩ := Option.map_eq_some_iff.mp hd
    refine ⟨us, v.2, ?_, hrep, hval⟩
    rw [← h1, ← h2, ← AggSlot.flush_kind hval] at hsub
    exact hsub

/-! ### Two series in one slot -/

/-- The map with one entry, `slot` for `x`. -/
def oneEntry (makeHash : Fin 64 → UInt64 → UInt64) (mb : ℕ) (ε : F) (x : Series)
    (slot : AggSlot M F) : StripedAggMap M F :=
  { (.new makeHash mb ε none : StripedAggMap M F) with
    stripes := Function.update (fun _ => []) (stripeIdx x.key) [⟨x.key, x.key, (x.aggKey, slot)⟩] }

theorem recordSlot_first {makeHash} {mb : ℕ} {ε : F} {x : Series} {u : Update M F}
    {slot : AggSlot M F} (h : AggSlot.create mb ε u = some slot) :
    (StripedAggMap.new makeHash mb ε none).recordSlot false x u =
      some (oneEntry makeHash mb ε x slot) := by
  have hl : (StripedAggMap.new makeHash mb ε none : StripedAggMap M F).lookup x = .vacant := rfl
  rw [StripedAggMap.recordSlot, hl]
  simp only [StripedAggMap.recordFound, upsert, StripedAggMap.new, h, Option.bind_eq_bind,
    Option.bind_some, Option.pure_def]
  rfl

omit [AddCommMonoid M] [FloatBits F] in
theorem stripe_oneEntry {makeHash} {mb : ℕ} {ε : F} {x y : Series} {slot : AggSlot M F}
    (h : y.key = x.key) : (oneEntry makeHash mb ε x slot).stripes (stripeIdx y.key) =
      [⟨x.key, x.key, (x.aggKey, slot)⟩] := by
  rw [h]
  simp only [oneEntry, Function.update_self]

omit [AddCommMonoid M] [FloatBits F] in
theorem fromHash_single (k : UInt64) (v : AggKey × AggSlot M F) :
    fromHash ([⟨k, k, v⟩] : Stripe M F) k k = .occupied 0 := by
  simp [fromHash]

omit [AddCommMonoid M] [FloatBits F] in
theorem bag_single (k : UInt64) (v : AggKey × AggSlot M F) :
    bag ([⟨k, k, v⟩] : Stripe M F) k = [v] := by
  simp [bag]

omit [AddCommMonoid M] [FloatBits F] in
theorem lookup_oneEntry {makeHash} {mb : ℕ} {ε : F} {x y : Series} {slot : AggSlot M F}
    (h : y.key = x.key) : (oneEntry makeHash mb ε x slot).lookup y = .occupied 0 := by
  rw [StripedAggMap.lookup, stripe_oneEntry h, h, fromHash_single]

theorem recordSlot_second {makeHash} {mb : ℕ} {ε : F} {x y : Series} {u : Update M F}
    {slot slot' : AggSlot M F} (hk : y.key = x.key) (h : slot.record u = some slot') :
    (oneEntry makeHash mb ε x slot).recordSlot false y u =
      some (oneEntry makeHash mb ε x slot') := by
  rw [StripedAggMap.recordSlot, lookup_oneEntry hk, StripedAggMap.recordFound, stripe_oneEntry hk]
  simp only [upsert, List.getElem?_cons_zero, h, Option.bind_eq_bind, Option.bind_some,
    Option.pure_def, List.set_cons_zero, oneEntry, hk, Function.update_idem]

omit [AddCommMonoid M] [FloatBits F] in
theorem placed_oneEntry {makeHash} {mb : ℕ} {ε : F} {x : Series} {slot : AggSlot M F} :
    (oneEntry makeHash mb ε x slot).Placed := by
  intro i k hik
  by_cases hi : i = stripeIdx x.key
  · have hk : x.key ≠ k := fun hk => hik (by rw [hi, hk])
    rw [hi, stripe_oneEntry rfl]
    simp [bag, hk]
  · simp only [oneEntry, Function.update_of_ne hi, bag_nil]

theorem mem_flush_oneEntry {makeHash} {mb : ℕ} {ε : F} {x : Series} {slot : AggSlot M F}
    {value : FlushedValue M F} (h : slot.flush.1 = some value) (scan : Fin 64 → Scan) :
    (⟨x.namespacePath, x.metricName, ⟨x.pairs⟩, value⟩ : FlushedMetric M F) ∈
      ((oneEntry makeHash mb ε x slot).flush scan).1 := by
  have hbag : (oneEntry makeHash mb ε x slot).bagOf x.key = [(x.aggKey, slot)] := by
    rw [StripedAggMap.bagOf, stripe_oneEntry rfl, bag_single]
  obtain ⟨hout, hbags, -⟩ := StripedAggMap.flush_spec scan
    (placed_oneEntry : (oneEntry makeHash mb ε x slot).Placed)
  obtain ⟨l, hperm, ho, -⟩ := hbags x.key
  rw [hbag] at hperm
  rw [List.perm_singleton.mp hperm, List.filterMap_cons, List.filterMap_nil] at ho
  have hdrain : (StripedAggMap.drainEntry x.key (x.aggKey, slot)).1 =
      some ⟨x.namespacePath, x.metricName, ⟨x.pairs⟩, value⟩ := by
    rw [StripedAggMap.drainEntry, h]
    rfl
  rw [hdrain] at ho
  rw [hout]
  have hmem : (⟨x.namespacePath, x.metricName, ⟨x.pairs⟩, value⟩ : FlushedMetric M F) ∈
      outOf (StripedAggMap.flushStripes scan (List.finRange 64)
        (oneEntry makeHash mb ε x slot)).1 x.key := by
    rw [ho]
    exact List.mem_singleton_self _
  obtain ⟨p, hp, hp2⟩ := List.mem_map.mp hmem
  exact List.mem_map.mpr ⟨p, (List.mem_filter.mp hp).1, hp2⟩

/-- For every kind there are two updates that leave another value than the first alone. -/
theorem exists_mixture (kind : MetricKind) :
    ∃ (u u' : Update (BitVec 64) F64) (slot slot' : AggSlot (BitVec 64) F64) (value : _),
      u.kind = kind ∧ u'.kind = kind ∧ AggSlot.create 200 0.001 u = some slot ∧
      slot.record u' = some slot' ∧ slot'.flush.1 = some value ∧ slot.flush.1 ≠ some value := by
  cases kind with
  | count =>
    refine ⟨.count 1, .count 2, .count ⟨1⟩, .count ⟨3⟩, .count 3, rfl, rfl, rfl, rfl, rfl, ?_⟩
    intro h
    injection h with h
    injection h with h
    exact absurd h (by decide)
  | gauge =>
    refine ⟨.gauge ⟨0⟩, .gauge ⟨1⟩, .gauge ⟨0⟩, .gauge ⟨1⟩, .gauge ⟨1⟩, rfl, rfl, rfl, rfl, rfl, ?_⟩
    intro h
    injection h with h
    injection h with h
    exact absurd h (by decide)
  | histogram =>
    have hε : UDDSketch.errorInRange (0.001 : F64) := by decide +kernel
    have hnan : FloatOps.isNaN (⟨0⟩ : F64) = false := by decide +kernel
    obtain ⟨s₁, l₁, e₁, hl₁, hm₁⟩ := UDDSketch.addValue_ends (s := .empty 200 (0.001 : F64))
      SketchHashMap.holds_new (by decide) ⟨0⟩
    obtain ⟨s₂, l₂, e₂, -, -⟩ := UDDSketch.addValue_ends hl₁ (by rw [hm₁]; decide) ⟨0⟩
    have n₁ : s₁.numValues = 1 := by
      rw [UDDSketch.addValue_numValues e₁, hnan]
      rfl
    have n₂ : s₂.numValues = 2 := by
      rw [UDDSketch.addValue_numValues e₂, hnan, n₁]
      rfl
    refine ⟨.histogram ⟨0⟩, .histogram ⟨0⟩, .histogram ⟨s₁, 200, 0.001, hε⟩,
      .histogram ⟨s₂, 200, 0.001, hε⟩, .histogram s₂, rfl, rfl, ?_, ?_, ?_, ?_⟩
    · simp only [AggSlot.create, HistogramSlot.new, dif_pos hε, HistogramSlot.record, e₁,
        Option.bind_eq_bind, Option.bind_some, Option.pure_def]
    · simp only [AggSlot.record, HistogramSlot.record, e₂, Option.bind_eq_bind, Option.bind_some,
        Option.pure_def]
    · exact if_pos (show s₂.numValues > 0 by omega)
    · intro h
      rw [show (AggSlot.histogram ⟨s₁, 200, 0.001, hε⟩ : AggSlot (BitVec 64) F64).flush.1 =
        some (.histogram s₁) from if_pos (show s₁.numValues > 0 by omega)] at h
      injection h with h
      injection h with h
      rw [h] at n₁
      omega

theorem not_replays_nil {mb : ℕ} {ε : F} {slot : AggSlot M F} (h : Replays mb ε [] slot) : False := by
  generalize hl : ([] : List (Update M F)) = l at h
  cases h with
  | one h => simp at hl
  | snoc h hk hr => simp at hl

theorem replays_singleton {mb : ℕ} {ε : F} {u : Update M F} {slot : AggSlot M F}
    (h : Replays mb ε [u] slot) : AggSlot.create mb ε u = some slot := by
  generalize hl : [u] = l at h
  cases h with
  | one h =>
    obtain rfl := (List.cons.inj hl).1
    exact h.create_eq
  | @snoc us slot slot' u' h hk hr =>
    have hnil : us = [] := by
      have := congrArg List.length hl
      simp at this
      exact this
    exact (not_replays_nil (hnil ▸ h)).elim

theorem mapStep_of_recordSlot {s s' : StripedAggMap M F} {grow : Bool} {x : Series}
    {u : Update M F} (hraw : s.rawSender = none) (h : s.recordSlot grow x u = some s') :
    MapStep s (.record grow x u) s' := by
  cases u with
  | count delta => exact .count h
  | gauge value => exact .gauge h
  | histogram value =>
    apply MapStep.histogram
    rw [StripedAggMap.recordHistogram, hraw]
    exact h

/-- One slot for two metrics: they are one series, if all slots are kept apart. -/
theorem keyedByName_of_separated {hash : List UInt8 → UInt64} {S : Set Metric}
    (hc : Collisionless hash S) (hs : Separated (BitVec 64) F64 hash S) : KeyedByName S := by
  intro m hm m' hm' hname hstream
  have haddr : m.name.addr = m'.name.addr := (hc.names m hm m' hm').mp hname
  have hkey : (m'.series hash).key = (m.series hash).key := by
    simp only [Metric.series, Series.key, combineHash, hstream, haddr]
  obtain ⟨u, u', slot, slot', value, hu, hu', hcr, hrec, hval, hne⟩ := exists_mixture m.kind
  set makeHash : Fin 64 → UInt64 → UInt64 := fun _ k => k
  -- the slot is of the kind of its first metric, and the second finds it
  have hrun₁ : Run (MetricStep hash) (.new makeHash 200 0.001 none) [.record false m u]
      (oneEntry makeHash 200 0.001 (m.series hash) slot) :=
    Run.nil.snoc ⟨hu, mapStep_of_recordSlot rfl (recordSlot_first hcr)⟩
  have hslot : slot.kind = m.kind := (AggSlot.create_cases hcr).kind.trans hu
  have hkind : m.kind = m'.kind := by
    have hover : Over S [MetricEvent.record false m u] := by
      intro grow x v hmem
      simp at hmem
      exact hmem.2.1 ▸ hm
    have hfound := (hs makeHash 200 0.001 none _ _ hrun₁ hover).1 m' hm' 0
      ⟨(m.series hash).key, (m.series hash).key, ((m.series hash).aggKey, slot)⟩
      (lookup_oneEntry hkey) (by rw [stripe_oneEntry hkey, List.getElem?_cons_zero])
    exact hslot.symm.trans hfound
  -- the slot goes by the namespace and the pairs of its first metric
  have hrun₂ : Run (MetricStep hash) (.new makeHash 200 0.001 none)
      [.record false m u, .record false m' u']
      (oneEntry makeHash 200 0.001 (m.series hash) slot') :=
    hrun₁.snoc ⟨hu'.trans hkind, mapStep_of_recordSlot rfl (recordSlot_second hkey hrec)⟩
  refine ⟨hkind, ?_⟩
  by_contra hagg
  have hover : Over S [MetricEvent.record false m u, .record false m' u'] := by
    intro grow x v hmem
    simp at hmem
    rcases hmem with ⟨-, rfl, -⟩ | ⟨-, rfl, -⟩
    · exact hm
    · exact hm'
  obtain ⟨us, slot₀, hsub, hrep, hflush⟩ := (hs makeHash 200 0.001 none _ _ hrun₂ hover).2
    (fun _ => .id) _ (mem_flush_oneEntry hval _)
  have hvk : value.kind = m.kind := by
    rw [AggSlot.flush_kind hval, (AggSlot.record_cases hrec).kind, hslot]
  have hown : updatesOf m.kind m.aggKey
      [MetricEvent.record false m u, .record false m' u'] = [u] := by
    rw [updatesOf, if_pos ⟨rfl, rfl⟩, updatesOf, if_neg fun h => hagg h.2.symm, updatesOf]
  have hsub : us.Sublist [u] := by
    rw [← hown, ← hvk]
    exact hsub
  rcases List.sublist_singleton.mp hsub with rfl | rfl
  · exact not_replays_nil hrep
  · obtain rfl := Option.some.inj ((replays_singleton hrep).symm.trans hcr)
    exact hne hflush

/-- **Series are kept apart just when metrics with one name and one hash stream
are one series**: of the four parts of a series only the name and the tags'
values make the key. -/
theorem separated_iff {hash : List UInt8 → UInt64} {S : Set Metric} (hc : Collisionless hash S) :
    Separated (BitVec 64) F64 hash S ↔ KeyedByName S :=
  ⟨keyedByName_of_separated hc, separated_of_keyedByName hc⟩

/-! ### A name in two namespaces -/

/-- A count without tags. -/
def tagless (namespaceName name : Text) (addr : UInt64) : Metric :=
  ⟨⟨[namespaceName], .count, ⟨addr, name⟩, []⟩, [], .nil⟩

theorem collisionless_tagless {ns ns' n n' : Text} {a a' : UInt64}
    (h : n = n' ↔ a = a') :
    Collisionless (fun _ => 0) {m | m ∈ [tagless ns n a, tagless ns' n' a']} := by
  have hstream : ∀ m ∈ [tagless ns n a, tagless ns' n' a'], m.hashStream = [] := by
    intro m hm
    simp at hm
    rcases hm with rfl | rfl <;> rfl
  refine ⟨fun m hm m' hm' => ?_, fun m hm m' hm' _ => ?_, fun m hm m' hm' hk => ⟨?_, rfl⟩⟩
  · simp at hm hm'
    rcases hm with rfl | rfl <;> rcases hm' with rfl | rfl
    · exact ⟨fun _ => rfl, fun _ => rfl⟩
    · exact h
    · exact ⟨fun e => (h.mp e.symm).symm, fun e => (h.mpr e.symm).symm⟩
    · exact ⟨fun _ => rfl, fun _ => rfl⟩
  · rw [hstream m hm, hstream m' hm']
  · simpa [Metric.series, Series.key, combineHash] using hk

theorem namespaces_share_slot :
    let hits := fun ns => tagless ns "hits".toList 0x1000
    let S : Set Metric := {m | m ∈ [hits "api".toList, hits "worker".toList]}
    Collisionless (fun _ => 0) S ∧ ¬ Separated (BitVec 64) F64 (fun _ => 0) S ∧
      ∃ s : StripedAggMap (BitVec 64) F64,
        Run (MetricStep fun _ => 0) (.new (fun _ k => k) 200 0.001 none)
          [.record false (hits "api".toList) (.count 1),
            .record false (hits "worker".toList) (.count 1)] s ∧
        ⟨["api".toList], ⟨0x1000, "hits".toList⟩, ⟨[]⟩, .count 2⟩ ∈ (s.flush fun _ => .id).1 := by
  intro hits S
  have hc : Collisionless (fun _ => 0) S := collisionless_tagless (by simp)
  refine ⟨hc, fun hs => ?_, oneEntry (fun _ k => k) 200 0.001
    ((hits "api".toList).series fun _ => 0) (.count ⟨2⟩), ?_, ?_⟩
  · obtain ⟨-, h⟩ := keyedByName_of_separated hc hs (hits "api".toList) (by simp [S])
      (hits "worker".toList) (by simp [S]) rfl rfl
    have hns := congrArg AggKey.namespacePath h
    simp [hits, tagless, Metric.aggKey, Metric.namespacePath] at hns
  · have h₁ : MapStep (.new (fun _ k => k) 200 0.001 none : StripedAggMap (BitVec 64) F64)
        (.record false ((hits "api".toList).series fun _ => 0) (.count 1))
        (oneEntry (fun _ k => k) 200 0.001 ((hits "api".toList).series fun _ => 0) (.count ⟨1⟩)) :=
      .count (recordSlot_first rfl)
    have h₂ : MapStep (oneEntry (fun _ k => k) 200 0.001 ((hits "api".toList).series fun _ => 0)
          (.count ⟨1⟩) : StripedAggMap (BitVec 64) F64)
        (.record false ((hits "worker".toList).series fun _ => 0) (.count 1))
        (oneEntry (fun _ k => k) 200 0.001 ((hits "api".toList).series fun _ => 0) (.count ⟨2⟩)) :=
      .count (recordSlot_second rfl rfl)
    exact (Run.nil.snoc ⟨rfl, h₁⟩).snoc ⟨rfl, h₂⟩
  · exact mem_flush_oneEntry rfl _

/-- Two counts under two names are kept apart. -/
theorem separated_iff_names : Separated (BitVec 64) F64 (fun _ => 0)
    {m | m ∈ [tagless "api".toList "hits".toList 0x1000,
      tagless "worker".toList "misses".toList 0x2000]} := by
  refine (separated_iff (collisionless_tagless (by decide))).mpr ?_
  intro m hm m' hm' hname _
  simp at hm hm'
  rcases hm with rfl | rfl <;> rcases hm' with rfl | rfl
  · exact ⟨rfl, rfl⟩
  · simp [tagless, Metric.name] at hname
  · simp [tagless, Metric.name] at hname
  · exact ⟨rfl, rfl⟩

end ChalkMetrics
