/-
# Slots and exported tags

Instances of one metric share a slot just when they write the same bytes, so
just when they are the same instance (`slot_iff`). They are exported under the
same tags just when they are the same instance if and only if the definition is
unambiguous; then no flush of a run whose record calls find what is stored
reports two entries of the metric with the same tags (`identity_iff`). An enum
tag with two variants of one text is accepted (`same_text`).

Key definitions: `MetricDef.Identified`, `MetricDef.FlushesOnce`.
-/
import ChalkMetrics.Aggregator.Separation
import ChalkMetrics.Macros.ExportedTags
import ChalkMetrics.Macros.HashStream

namespace ChalkMetrics

open HashTable Runs

/-! ### One slot -/

/-- The multiplier is odd. -/
theorem combineHash_inj {name : StaticStr} {h h' : UInt64}
    (he : combineHash name h = combineHash name h') : h = h' := by
  have hmul : h * 6364136223846793005 = h' * 6364136223846793005 :=
    (UInt64.add_left_inj name.addr).mp he
  have hinv : (6364136223846793005 : UInt64) * 13877824140714322085 = 1 := by decide
  calc h = h * (6364136223846793005 * 13877824140714322085) := by rw [hinv, UInt64.mul_one]
    _ = h' * (6364136223846793005 * 13877824140714322085) := by
        rw [← UInt64.mul_assoc, hmul, UInt64.mul_assoc]
    _ = h' := by rw [hinv, UInt64.mul_one]

/-- **Instances share a slot just when they are the same**, unless their bytes
collide. -/
theorem slot_iff {C : CharCase} {a b : Metric} (h : a.defn.Accepted C) (hd : a.defn = b.defn)
    {hash : List UInt8 → UInt64} (hhash : hash a.hashStream = hash b.hashStream →
      a.hashStream = b.hashStream) :
    (a.series hash).key = (b.series hash).key ↔ a = b := by
  constructor
  · intro hkey
    have hname : a.name = b.name := congrArg MetricDef.name hd
    have hkey' : combineHash a.name (hash a.hashStream) = combineHash a.name (hash b.hashStream) :=
      calc combineHash a.name (hash a.hashStream) = combineHash b.name (hash b.hashStream) := hkey
        _ = combineHash a.name (hash b.hashStream) := by rw [hname]
    exact hashStream_injective h hd (hhash (combineHash_inj hkey'))
  · rintro rfl
    rfl

/-- Two instances are aggregated in one slot just when they are exported under
the same tags; `hash` does not collide on them. -/
def MetricDef.Identified (d : MetricDef) : Prop :=
  ∀ a b : Metric, a.defn = d → b.defn = d → ∀ hash : List UInt8 → UInt64,
    (hash a.hashStream = hash b.hashStream → a.hashStream = b.hashStream) →
    ((a.series hash).key = (b.series hash).key ↔ a.exportPairs = b.exportPairs)

/-- Some hash tells two streams apart. -/
theorem exists_hash (bytes bytes' : List UInt8) :
    ∃ hash : List UInt8 → UInt64, hash bytes = hash bytes' → bytes = bytes' := by
  refine ⟨fun b => if b = bytes then 0 else 1, fun he => ?_⟩
  by_contra hne
  simp [Ne.symm hne] at he

theorem identified_iff {C : CharCase} {d : MetricDef} (h : d.Accepted C) :
    d.Identified ↔ d.Unambiguous := by
  rw [← exportPairs_inj_iff h]
  constructor
  · intro hid a b ha hb hpairs
    obtain ⟨hash, hhash⟩ := exists_hash a.hashStream b.hashStream
    have hkey := (hid a b ha hb hash hhash).mpr hpairs
    have hab := (slot_iff (ha.symm ▸ h) (ha.trans hb.symm) hhash).mp hkey
    rw [hab]
  · intro hinj a b ha hb hash hhash
    rw [slot_iff (ha.symm ▸ h) (ha.trans hb.symm) hhash]
    constructor
    · rintro rfl
      rfl
    · intro hpairs
      exact Metric.ext_fields (ha.trans hb.symm) (hinj a b ha hb hpairs)

/-! ### One entry -/

variable {M F : Type} [AddCommMonoid M] [FloatOps F] [FloatBits F]

/-- A flushed metric is one of `d`. -/
def FlushedMetric.OfMetric (d : MetricDef) (fm : FlushedMetric M F) : Bool :=
  fm.namespacePath = d.namespacePath && fm.metricName = d.name

/-- The steps whose record calls find what is stored for their series. -/
def FiledStep (hash : List UInt8 → UInt64) :
    StripedAggMap M F → MetricEvent M F → StripedAggMap M F → Prop :=
  Where (MetricStep hash) fun s e => Filed s (e.toMap hash)

/-- No flush of such a run over metrics among which `d` is the only one of its
namespace and name reports two entries of `d` with the same tags. -/
def MetricDef.FlushesOnce (M F : Type) [AddCommMonoid M] [FloatOps F] [FloatBits F]
    (d : MetricDef) : Prop :=
  ∀ (hash : List UInt8 → UInt64) (S : Set Metric) (makeHash : Fin 64 → UInt64 → UInt64) (mb : ℕ)
    (ε : F) (raw : Option (Channel F)) (es : List (MetricEvent M F)) (s : StripedAggMap M F),
    (∀ m ∈ S, m.namespacePath = d.namespacePath → m.name = d.name → m.defn = d) → Over S es →
    Run (FiledStep hash) (.new makeHash mb ε raw) es s →
    ∀ scan, (((s.flush scan).1.filter (FlushedMetric.OfMetric d)).map (·.tags)).Nodup

/-- Every key has at most one entry, made by a metric of `S` with this key. -/
structure Entered (hash : List UInt8 → UInt64) (S : Set Metric) (s : StripedAggMap M F) : Prop where
  placed : s.Placed
  single : ∀ k, (s.bagOf k).length ≤ 1
  own : ∀ k, ∀ v ∈ s.bagOf k, ∃ m ∈ S, (m.series hash).key = k ∧ v.1 = m.aggKey

theorem entered_record {hash : List UInt8 → UInt64} {S : Set Metric} {s s' : StripedAggMap M F}
    {grow : Bool} {m : Metric} {u : Update M F} (hm : m ∈ S)
    (h : s.recordSlot grow (m.series hash) u = some s')
    (hfiled : ∀ e ∈ s.stripes (stripeIdx (m.series hash).key), e.key = (m.series hash).key →
      e.hash = (m.series hash).key) (hs : Entered hash S s) : Entered hash S s' := by
  obtain ⟨habs, hother, hplaced⟩ := StripedAggMap.recordSlot_spec h
  have hvacant : s.lookup (m.series hash) = .vacant ↔ s.bagOf (m.series hash).key = [] :=
    fromHash_bag hfiled
  have hsingle := hs.single (m.series hash).key
  have hown := hs.own (m.series hash).key
  -- the entry found goes by the same metric, and a new one is the first
  have hbag : (s'.bagOf (m.series hash).key).length ≤ 1 ∧ ∀ v ∈ s'.bagOf (m.series hash).key,
      ∃ m' ∈ S, (m'.series hash).key = (m.series hash).key ∧ v.1 = m'.aggKey := by
    generalize s.bagOf (m.series hash).key = b at *
    generalize s'.bagOf (m.series hash).key = b' at *
    generalize s.lookup (m.series hash) = entry at *
    cases habs with
    | @found i l r a slot slot' hr =>
      refine ⟨by simpa using hsingle, fun v hv => ?_⟩
      rcases List.mem_append.mp hv with hv | hv
      · exact hown v (List.mem_append_left _ hv)
      rcases List.mem_cons.mp hv with rfl | hv
      · exact hown (a, slot) (List.mem_append_right _ List.mem_cons_self)
      · exact hown v (List.mem_append_right _ (List.mem_cons_of_mem _ hv))
    | created hcr =>
      obtain rfl := hvacant.mp rfl
      refine ⟨le_rfl, fun v hv => ?_⟩
      obtain rfl := List.mem_singleton.mp hv
      exact ⟨m, hm, rfl, rfl⟩
  refine ⟨hplaced hs.placed, fun k => ?_, fun k v hv => ?_⟩
  · by_cases hk : k = (m.series hash).key
    · subst hk
      exact hbag.1
    · rw [hother k hk]
      exact hs.single k
  · by_cases hk : k = (m.series hash).key
    · subst hk
      exact hbag.2 v hv
    · rw [hother k hk] at hv
      exact hs.own k v hv

/-- What a flush makes of at most one entry. -/
theorem filterMap_le_one {α β : Type} {l b : List α} (h : l.Perm b) (hb : b.length ≤ 1)
    (f : α → Option β) : (l.filterMap f).length ≤ 1 :=
  calc (l.filterMap f).length ≤ l.length := List.length_filterMap_le _ _
    _ = b.length := h.length_eq
    _ ≤ 1 := hb

theorem entered_flush {hash : List UInt8 → UInt64} {S : Set Metric} {s : StripedAggMap M F}
    (scan : Fin 64 → Scan) (hs : Entered hash S s) : Entered hash S (s.flush scan).2 := by
  obtain ⟨-, hbags, hplaced⟩ := StripedAggMap.flush_spec scan hs.placed
  refine ⟨hplaced, fun k => ?_, fun k v hv => hs.own k v (StripedAggMap.mem_bag_flush hs.placed hv)⟩
  obtain ⟨l, hperm, -, hb⟩ := hbags k
  rw [hb]
  exact filterMap_le_one hperm (hs.single k) _

theorem entered_run {hash : List UInt8 → UInt64} {S : Set Metric} {makeHash} {mb : ℕ} {ε : F}
    {raw : Option (Channel F)} {es : List (MetricEvent M F)} {s : StripedAggMap M F}
    (h : Run (FiledStep hash) (.new makeHash mb ε raw) es s) (ho : Over S es) : Entered hash S s := by
  refine h.inv (I := fun es s => Over S es → Entered hash S s) (fun _ => ?_) ?_ ho
  · exact ⟨StripedAggMap.placed_new makeHash mb ε raw, fun _ => Nat.zero_le _,
      fun k v hv => absurd hv List.not_mem_nil⟩
  · intro es t e s ih hstep ho
    have ht := ih fun grow m u hmem => ho grow m u (List.mem_append_left _ hmem)
    obtain ⟨⟨-, hstep⟩, hfiled⟩ := hstep
    cases e with
    | record grow m u =>
      have hm : m ∈ S := ho grow m u (by simp)
      cases hstep with
      | count h => exact entered_record hm h hfiled ht
      | gauge h => exact entered_record hm h hfiled ht
      | histogram h =>
        rw [StripedAggMap.recordHistogram] at h
        rcases hraw : t.rawSender with _ | sender
        · rw [hraw] at h
          exact entered_record hm h hfiled ht
        · -- a raw point goes past the stripes
          rw [hraw] at h
          obtain rfl := Option.some.inj h
          exact ⟨ht.placed, ht.single, ht.own⟩
    | flush scan out =>
      cases hstep with
      | flush h =>
        obtain rfl : (t.flush scan).2 = s := by rw [h]
        exact entered_flush scan ht

theorem eq_head_toList {α : Type} : ∀ {l : List α}, l.length ≤ 1 → l = l.head?.toList
  | [], _ => rfl
  | [_], _ => rfl
  | _ :: _ :: _, h => by simp at h

/-- A flush of such a map: every metric with the key of its entry, no key twice. -/
theorem Entered.flush {hash : List UInt8 → UInt64} {S : Set Metric} {s : StripedAggMap M F}
    (hs : Entered hash S s) (scan : Fin 64 → Scan) : ∃ out : List (UInt64 × FlushedMetric M F),
      (s.flush scan).1 = out.map Prod.snd ∧ (out.map Prod.fst).Nodup ∧
      ∀ p ∈ out, ∃ m ∈ S, (m.series hash).key = p.1 ∧ p.2.aggKey = m.aggKey := by
  obtain ⟨hout, hbags, -⟩ := StripedAggMap.flush_spec scan hs.placed
  set out := (StripedAggMap.flushStripes scan (List.finRange 64) s).1
  have hone : ∀ k, outOf out k = (outOf out k).head?.toList := by
    intro k
    obtain ⟨l, hperm, ho, -⟩ := hbags k
    refine eq_head_toList ?_
    rw [ho]
    exact filterMap_le_one hperm (hs.single k) _
  refine ⟨out, hout, (outOf_toList hone).1, fun p hp => ?_⟩
  have hmem : p.2 ∈ outOf out p.1 :=
    List.mem_map.mpr ⟨p, List.mem_filter.mpr ⟨hp, decide_eq_true rfl⟩, rfl⟩
  obtain ⟨l, hperm, ho, -⟩ := hbags p.1
  rw [ho] at hmem
  obtain ⟨v, hv, hd⟩ := List.mem_filterMap.mp hmem
  obtain ⟨m, hm, hkey, hagg⟩ := hs.own p.1 v (hperm.subset hv)
  obtain ⟨value, -, hfm⟩ := Option.map_eq_some_iff.mp hd
  refine ⟨m, hm, hkey, ?_⟩
  rw [← hagg, ← hfm]
  rfl

/-- **An unambiguous metric has one entry for its tags.** -/
theorem MetricDef.Unambiguous.flushesOnce {C : CharCase} {d : MetricDef} (h : d.Accepted C)
    (hd : d.Unambiguous) : d.FlushesOnce M F := by
  intro hash S makeHash mb ε raw es s honly hover hrun scan
  obtain ⟨out, hout, hkeys, hown⟩ := (entered_run hrun hover).flush scan
  rw [hout, List.filter_map, List.map_map]
  -- an entry's tags say which instance made it, and so its key
  have hkey : ∀ p ∈ out, ∀ q ∈ out, p.2.OfMetric d → q.2.OfMetric d → p.2.tags = q.2.tags →
      p.1 = q.1 := by
    intro p hp q hq hpd hqd htags
    obtain ⟨a, ha, hpkey, hpagg⟩ := hown p hp
    obtain ⟨b, hb, hqkey, hqagg⟩ := hown q hq
    simp only [FlushedMetric.OfMetric, Bool.and_eq_true, decide_eq_true_eq] at hpd hqd
    obtain ⟨hans, haname, hapairs⟩ : p.2.namespacePath = a.namespacePath ∧ p.2.metricName = a.name ∧
        p.2.tags = ⟨a.exportPairs⟩ := AggKey.mk.inj hpagg
    obtain ⟨hbns, hbname, hbpairs⟩ : q.2.namespacePath = b.namespacePath ∧ q.2.metricName = b.name ∧
        q.2.tags = ⟨b.exportPairs⟩ := AggKey.mk.inj hqagg
    have had : a.defn = d := honly a ha (hans.symm.trans hpd.1) (haname.symm.trans hpd.2)
    have hbd : b.defn = d := honly b hb (hbns.symm.trans hqd.1) (hbname.symm.trans hqd.2)
    have hpairs : a.exportPairs = b.exportPairs :=
      TagsData.mk.inj (hapairs.symm.trans (htags.trans hbpairs))
    have hab : a = b := Metric.ext_fields (had.trans hbd.symm)
      ((exportPairs_inj_iff h).mpr hd a b had hbd hpairs)
    rw [← hpkey, ← hqkey, hab]
  rw [List.Nodup, List.pairwise_map] at hkeys ⊢
  refine (hkeys.sublist List.filter_sublist).imp_of_mem fun hp hq hne htags => hne ?_
  obtain ⟨hp, hpd⟩ := List.mem_filter.mp hp
  obtain ⟨hq, hqd⟩ := List.mem_filter.mp hq
  exact hkey _ hp _ hq hpd hqd htags

/-- **Slots are exported tags just when the definition is unambiguous**, and then
no flush reports an instance twice. -/
theorem identity_iff {C : CharCase} {d : MetricDef} (h : d.Accepted C) :
    d.Identified ∧ d.FlushesOnce M F ↔ d.Unambiguous := by
  rw [identified_iff h]
  constructor
  · exact fun hd => hd.1
  · exact fun hd => ⟨hd, hd.flushesOnce h⟩

/-! ### Two instances under the same tags -/

/-- `define_tags! { Status => "status" { Ok => "ok", Success => "ok", Failed => "failed" } }`. -/
def statusTag : TagDef := ⟨"status".toList, some ["ok".toList, "ok".toList, "failed".toList]⟩

/-- `define_tags! { Method => "method" { Get => "get", Put => "put" } }`. -/
def methodTag : TagDef := ⟨"method".toList, some ["get".toList, "put".toList]⟩

/-- The free-form `Zone => "zone"`, and `OldZone => "zone"`. -/
def zoneTag : TagDef := ⟨"zone".toList, none⟩

/-- A count with `tags += [Status]`. -/
def callsByStatus : MetricDef := ⟨[], .count, ⟨0, "calls".toList⟩, [⟨false, statusTag, none⟩]⟩

/-- A gauge with `tags += [optional OldZone, optional Method, optional Zone]`. -/
def loadByZone : MetricDef := ⟨[], .gauge, ⟨0, "load".toList⟩,
  [⟨true, zoneTag, none⟩, ⟨true, methodTag, none⟩, ⟨true, zoneTag, none⟩]⟩

/-- A histogram with `tags += [optional Zone, Method, optional Zone as peer]`. -/
def delayByZone : MetricDef := ⟨[], .histogram, ⟨0, "delay".toList⟩,
  [⟨true, zoneTag, none⟩, ⟨false, methodTag, none⟩, ⟨true, zoneTag, some "peer".toList⟩]⟩

/-- Optional tags under keys of their own. -/
theorem identity_zone : delayByZone.Identified ∧ delayByZone.FlushesOnce (BitVec 64) F64 := by
  have h : delayByZone.Accepted .ascii :=
    MetricDef.accepted_of ["Zone".toList, "Method".toList, "Zone".toList] rfl (by decide +kernel)
      (by decide)
  exact (identity_iff h).mpr (by decide)

/-- `Ok` and `Success` have slots of their own and one text; the zone alone may be
the old one or the new one. -/
theorem same_text : (callsByStatus.Accepted .ascii ∧ ¬ callsByStatus.Identified) ∧
    loadByZone.Accepted .ascii ∧ ¬ loadByZone.Identified := by
  have hstatus : callsByStatus.Accepted .ascii :=
    MetricDef.accepted_of ["Status".toList] rfl (List.nodup_singleton _) (by decide)
  have hzone : loadByZone.Accepted .ascii :=
    MetricDef.accepted_of ["OldZone".toList, "Method".toList, "Zone".toList] rfl (by decide +kernel)
      (by decide)
  refine ⟨⟨hstatus, fun hd => ?_⟩, hzone, fun hd => ?_⟩
  · exact absurd ((identified_iff hstatus).mp hd) (by decide)
  · exact absurd ((identified_iff hzone).mp hd) (by decide)

end ChalkMetrics
