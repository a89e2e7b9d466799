/-
# The label names of a sample

A sample of the exposition format has every label name once. The names on the
lines of a metric are the export keys of the tags that are set, and `le` on the
bucket lines of a histogram. The macros compare none of them, so they are
distinct in every instance just when the export keys are and, of a histogram,
none is `le` (`labelsDistinct_iff`); two tag types with one export name, or a
tag `as le`, are accepted (`env_twice`).

Key definitions: `MetricDef.Flushes`, `MetricDef.LabelsDistinct`.
-/
import ChalkMetrics.Aggregator.Separation
import ChalkMetrics.Export.Prometheus
import ChalkMetrics.Macros.Definition

namespace ChalkMetrics

/-! ### The labels of the samples of a family -/

section

variable {F : Type} [FloatText F] {e : PrometheusExporter F} {m : FlushedMetric (BitVec 64) F}
  {f : Family}

/-- The tags, and `le` on the buckets of a histogram. -/
theorem sample_labels (h : e.family m = some f) {s : Sample} (hs : s ∈ f.samples) :
    s.labels = m.tags.pairs ∨ m.value.kind = .histogram ∧
      ∃ leStr, s.labels = m.tags.pairs ++ [("le".toList, leStr)] := by
  unfold PrometheusExporter.family at h
  cases hv : m.value with
  | count value =>
    rw [hv] at h
    obtain rfl := Option.some.inj h
    obtain rfl := List.mem_singleton.mp hs
    exact .inl rfl
  | gauge value =>
    rw [hv] at h
    obtain rfl := Option.some.inj h
    obtain rfl := List.mem_singleton.mp hs
    exact .inl rfl
  | histogram sketch =>
    rcases (family_of (e := e) (m := m) h).samples s hs |>.labels with hl | ⟨leStr, -, hl⟩
    · exact .inl hl
    · exact .inr ⟨rfl, leStr, hl⟩

/-- Without boundaries there is nothing to estimate. -/
theorem exists_family (he : e.bucketBoundaries = []) : ∃ f, e.family m = some f := by
  unfold PrometheusExporter.family
  cases m.value with
  | count value => exact ⟨_, rfl⟩
  | gauge value => exact ⟨_, rfl⟩
  | histogram sketch =>
    rw [he]
    exact ⟨_, rfl⟩

theorem exists_sample_tags (h : e.family m = some f) : ∃ s ∈ f.samples, s.labels = m.tags.pairs := by
  unfold PrometheusExporter.family at h
  cases hv : m.value with
  | count value =>
    rw [hv] at h
    obtain rfl := Option.some.inj h
    exact ⟨_, List.mem_singleton_self _, rfl⟩
  | gauge value =>
    rw [hv] at h
    obtain rfl := Option.some.inj h
    exact ⟨_, List.mem_singleton_self _, rfl⟩
  | histogram sketch =>
    rw [hv] at h
    obtain ⟨counts, -, h⟩ := Option.bind_eq_some_iff.mp h
    obtain rfl := Option.some.inj h
    exact ⟨_, List.mem_append_right _ (List.mem_cons_of_mem _ List.mem_cons_self), rfl⟩

/-- The last bucket is always there. -/
theorem exists_sample_le (h : e.family m = some f) (hk : m.value.kind = .histogram) :
    ∃ s ∈ f.samples, ∃ leStr, s.labels = m.tags.pairs ++ [("le".toList, leStr)] := by
  unfold PrometheusExporter.family at h
  cases hv : m.value with
  | count value => rw [hv] at hk; cases hk
  | gauge value => rw [hv] at hk; cases hk
  | histogram sketch =>
    rw [hv] at h
    obtain ⟨counts, -, h⟩ := Option.bind_eq_some_iff.mp h
    obtain rfl := Option.some.inj h
    exact ⟨_, List.mem_append_right _ List.mem_cons_self, "+Inf".toList, rfl⟩

end

/-! ### Distinct names -/

/-- A flush may report the value for the metric. -/
def MetricDef.Flushes (d : MetricDef) (value : FlushedValue (BitVec 64) F64) : Prop :=
  ∃ (mb : ℕ) (ε : F64) (us : List (Update (BitVec 64) F64)) (slot : AggSlot (BitVec 64) F64),
    Replays mb ε us slot ∧ slot.kind = d.kind ∧ slot.flush.1 = some value

/-- No sample of an instance has a label name twice. -/
def MetricDef.LabelsDistinct (d : MetricDef) : Prop :=
  ∀ (m : Metric) (e : PrometheusExporter F64) (value : FlushedValue (BitVec 64) F64) (f : Family),
    m.defn = d → d.Flushes value →
    e.family ⟨m.namespacePath, m.name, ⟨m.exportPairs⟩, value⟩ = some f →
    ∀ s ∈ f.samples, (s.labels.map Prod.fst).Nodup

theorem exists_flushes (d : MetricDef) : ∃ value, d.Flushes value ∧ value.kind = d.kind := by
  obtain ⟨u, u', slot, slot', value, hu, hu', hcr, hrec, hval, -⟩ := exists_mixture d.kind
  have hslot : slot.kind = d.kind := (AggSlot.create_cases hcr).kind.trans hu
  have hslot' : slot'.kind = d.kind := (AggSlot.record_cases hrec).kind.trans hslot
  refine ⟨value, ⟨_, _, _, slot', .snoc (.one (AggSlot.create_cases hcr)) ?_
    (AggSlot.record_cases hrec), hslot', hval⟩, (AggSlot.flush_kind hval).trans hslot'⟩
  rw [hu', hslot]

section

variable {C : CharCase} {d : MetricDef}

/-- The instance with every tag set, without boundaries. -/
theorem MetricDef.Accepted.exists_full (h : d.Accepted C) : ∃ m : Metric, ∃ value f, m.defn = d ∧
    m.exportPairs.map Prod.fst = d.tags.map TagRef.exportKey ∧ d.Flushes value ∧
      value.kind = d.kind ∧ PrometheusExporter.family (⟨none, [], []⟩ : PrometheusExporter F64)
        ⟨m.namespacePath, m.name, ⟨m.exportPairs⟩, value⟩ = some f := by
  obtain ⟨m, hm, hkeys⟩ := h.exists_metric
  obtain ⟨value, hvalue, hkind⟩ := exists_flushes d
  obtain ⟨f, hf⟩ := exists_family (e := (⟨none, [], []⟩ : PrometheusExporter F64))
    (m := ⟨m.namespacePath, m.name, ⟨m.exportPairs⟩, value⟩) rfl
  exact ⟨m, value, f, hm, hkeys, hvalue, hkind, hf⟩

theorem MetricDef.LabelsDistinct.keys (hd : d.LabelsDistinct) (h : d.Accepted C) :
    (d.tags.map TagRef.exportKey).Nodup := by
  obtain ⟨m, value, f, hm, hkeys, hvalue, -, hf⟩ := h.exists_full
  obtain ⟨s, hs, hlabels⟩ := exists_sample_tags hf
  have hnodup := hd m _ value f hm hvalue hf s hs
  rwa [hlabels, hkeys] at hnodup

theorem MetricDef.LabelsDistinct.not_le (hd : d.LabelsDistinct) (h : d.Accepted C)
    (hk : d.kind = .histogram) : "le".toList ∉ d.tags.map TagRef.exportKey := by
  obtain ⟨m, value, f, hm, hkeys, hvalue, hkind, hf⟩ := h.exists_full
  obtain ⟨s, hs, leStr, hlabels⟩ := exists_sample_le hf (hkind.trans hk)
  have hnodup := hd m _ value f hm hvalue hf s hs
  rw [hlabels, List.map_append, hkeys] at hnodup
  exact fun hmem => (List.nodup_append.mp hnodup).2.2 _ hmem _ (List.mem_singleton_self _) rfl

theorem MetricDef.labelsDistinct_of (hkeys : (d.tags.map TagRef.exportKey).Nodup)
    (hle : d.kind = .histogram → "le".toList ∉ d.tags.map TagRef.exportKey) : d.LabelsDistinct := by
  rintro m e value f rfl ⟨_, _, _, slot, -, hkind, hval⟩ hf s hs
  have hsub : (m.exportPairs.map Prod.fst).Sublist (m.defn.tags.map TagRef.exportKey) :=
    m.exportPairs_sublist
  rcases sample_labels hf hs with hlabels | ⟨hhist, leStr, hlabels⟩
  · rw [hlabels]
    exact hsub.nodup hkeys
  · have hdef : m.defn.kind = .histogram := by
      rw [← hkind, ← AggSlot.flush_kind hval]
      exact hhist
    rw [hlabels, List.map_append]
    refine List.nodup_append.mpr ⟨hsub.nodup hkeys, List.nodup_singleton _, ?_⟩
    rintro a ha b hb rfl
    obtain rfl := List.mem_singleton.mp hb
    exact hle hdef (hsub.subset ha)

/-- **The label names are distinct just when the export keys are**, and none is
the `le` of a histogram. -/
theorem labelsDistinct_iff (h : d.Accepted C) :
    d.LabelsDistinct ↔ (d.tags.map TagRef.exportKey).Nodup ∧
      (d.kind = .histogram → "le".toList ∉ d.tags.map TagRef.exportKey) := by
  constructor
  · intro hd
    exact ⟨hd.keys h, hd.not_le h⟩
  · rintro ⟨hkeys, hle⟩
    exact MetricDef.labelsDistinct_of hkeys hle

end

/-! ### Names nobody compares -/

/-- `define_tags! { Env => "env"; RegionEnv => "env"; Customer => "customer"; }`. -/
def envTag : TagDef := ⟨"env".toList, none⟩

def customerTag : TagDef := ⟨"customer".toList, none⟩

/-- A count of the group `tags = [Env, RegionEnv]`. -/
def hitsByEnv : MetricDef := ⟨[], .count, ⟨0, "hits".toList⟩, [⟨false, envTag, none⟩, ⟨false, envTag, none⟩]⟩

/-- A histogram with `tags += [Customer as le]`. -/
def latencyByLe : MetricDef :=
  ⟨[], .histogram, ⟨0, "latency".toList⟩, [⟨false, customerTag, some "le".toList⟩]⟩

/-- The gauge of the group `tags = [Env, Customer]`. -/
def depthByEnv : MetricDef :=
  ⟨[], .gauge, ⟨0, "depth".toList⟩, [⟨false, envTag, none⟩, ⟨true, customerTag, none⟩]⟩

/-- The fields `env` and `customer` are exported under their own names. -/
theorem labelsDistinct_env : depthByEnv.LabelsDistinct := by
  have h : depthByEnv.Accepted .ascii :=
    MetricDef.accepted_of ["Env".toList, "Customer".toList] rfl (by decide +kernel)
      (by decide)
  exact (labelsDistinct_iff h).mpr ⟨by decide, nofun⟩

/-- The fields `env` and `region_env` are both exported as `env`, and the field
`le` stands beside the boundary. -/
theorem env_twice : (hitsByEnv.Accepted .ascii ∧ ¬ hitsByEnv.LabelsDistinct) ∧
    latencyByLe.Accepted .ascii ∧ ¬ latencyByLe.LabelsDistinct := by
  have henv : hitsByEnv.Accepted .ascii :=
    MetricDef.accepted_of ["Env".toList, "RegionEnv".toList] rfl (by decide +kernel)
      (by decide)
  have hle : latencyByLe.Accepted .ascii :=
    MetricDef.accepted_of ["Customer".toList] rfl (List.nodup_singleton _) (by decide)
  refine ⟨⟨henv, fun hd => ?_⟩, hle, fun hd => ?_⟩
  · exact absurd (hd.keys henv) (by decide)
  · exact absurd (hd.not_le hle rfl) (by decide)

end ChalkMetrics
