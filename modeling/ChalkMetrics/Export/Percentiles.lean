/-
# The percentiles of a histogram

Under `Percentiles` a histogram is exported as one gauge for the count, one for
the average and one for each percentile. Two percentiles that round to the same
whole percent are sent under one name (`series_distinct_iff`, `same_label`), and
a percentile out of range stops the call on an assertion
(`sendMetrics_isSome_iff`, `ninety_nine_panics`).

Key definitions: `seriesName`, `HistogramExportMode.InRange`.
-/
import ChalkMetrics.Export.Histogram
import ChalkMetrics.Export.Statsd

namespace ChalkMetrics

/-! ### The names of the lines -/

/-- What a line is about, past the `name` of the metric up to the next colon. -/
def seriesName (name line : Text) : Text := name ++ (line.drop name.length).takeWhile (· ≠ ':')

theorem seriesName_eq {suffix : Text} (h : ':' ∉ suffix) (name rest : Text) :
    seriesName name (name ++ (suffix ++ ':' :: rest)) = name ++ suffix := by
  have hall : ∀ c ∈ suffix, (decide (c ≠ ':')) = true := by
    intro c hc
    exact decide_eq_true fun hcolon => h (hcolon ▸ hc)
  unfold seriesName
  rw [List.drop_left, List.takeWhile_append_of_pos hall]
  simp

theorem displayNat_inj {m n : ℕ} (h : displayNat m = displayNat n) : m = n := by
  rw [← Nat.ofDigitChars_ten_toDigits (n := m), ← Nat.ofDigitChars_ten_toDigits (n := n)]
  exact congrArg (Nat.ofDigitChars 10 · 0) h

section

variable {F : Type} [FloatText F]

theorem colon_not_mem_label (p : F) : ':' ∉ formatPercentileLabel p := by
  intro h
  rcases List.mem_cons.mp h with h | h
  · exact absurd h (by decide)
  · exact absurd (mem_displayNat h) (by decide)

/-- The series of a histogram in the order of their lines. -/
def histogramSeries (name : Text) (percentiles : List F) : List Text :=
  ["count".toList, "avg".toList] ++ percentiles.map formatPercentileLabel |>.map
    fun label => name ++ '.' :: label

theorem quantileLines_series {name tags : Text} {sketch : UDDSketch F} :
    ∀ {percentiles : List F} {lines : List Text},
      quantileLines name tags sketch percentiles = some lines →
      lines.map (seriesName name) =
        percentiles.map fun p => name ++ '.' :: formatPercentileLabel p
  | [], lines, h => by
    obtain rfl := Option.some.inj h
    rfl
  | p :: percentiles, lines, h => by
    unfold quantileLines at h
    obtain ⟨value, -, h⟩ := Option.bind_eq_some_iff.mp h
    obtain ⟨rest, hrest, h⟩ := Option.bind_eq_some_iff.mp h
    obtain rfl := Option.some.inj h
    have hlabel : ':' ∉ '.' :: formatPercentileLabel p := by
      simpa using colon_not_mem_label p
    rw [List.map_cons, List.map_cons, quantileLines_series hrest]
    exact congrArg (· :: _) (seriesName_eq hlabel name _)

/-- **The lines of a histogram are about its series.** -/
theorem metricLines_series {e : StatsdExporter F} {percentiles : List F}
    (he : e.histogramMode = .percentiles percentiles) {m : FlushedMetric (BitVec 64) F}
    {sketch : UDDSketch F} (hm : m.value = .histogram sketch) {lines : List Text}
    (h : e.metricLines m = some lines) :
    lines.map (seriesName (e.fullName m.namespacePath m.metricName.text)) =
      histogramSeries (e.fullName m.namespacePath m.metricName.text) percentiles := by
  unfold StatsdExporter.metricLines at h
  rw [hm, he] at h
  obtain ⟨quantiles, hquantiles, h⟩ := Option.bind_eq_some_iff.mp h
  obtain rfl := Option.some.inj h
  set name := e.fullName m.namespacePath m.metricName.text
  have hcount : ∀ rest, seriesName name (name ++ ".count:".toList ++ rest) =
      name ++ ".count".toList := by
    intro rest
    rw [List.append_assoc]
    exact seriesName_eq (by decide : ':' ∉ ".count".toList) name rest
  have havg : ∀ rest, seriesName name (name ++ ".avg:".toList ++ rest) =
      name ++ ".avg".toList := by
    intro rest
    rw [List.append_assoc]
    exact seriesName_eq (by decide : ':' ∉ ".avg".toList) name rest
  have hlist : histogramSeries name percentiles = [name ++ ".count".toList, name ++ ".avg".toList] ++
      percentiles.map fun p => name ++ '.' :: formatPercentileLabel p := by
    unfold histogramSeries
    rw [List.map_append, List.map_map]
    rfl
  rw [hlist, List.map_append, quantileLines_series hquantiles, List.map_cons, List.map_cons, hcount,
    havg, List.map_nil]

/-- A percentile's label is not that of the count or the average. -/
theorem histogramSeries_nodup_iff {name : Text} {percentiles : List F} :
    (histogramSeries name percentiles).Nodup ↔ (percentiles.map formatPercentileLabel).Nodup := by
  have hinj : Function.Injective fun label : Text => name ++ '.' :: label := by
    intro a b hab
    exact List.tail_eq_of_cons_eq (List.append_cancel_left hab)
  have hother : ∀ t : Text, t.head? ≠ some 'p' → t ∉ percentiles.map formatPercentileLabel := by
    intro t ht hmem
    obtain ⟨p, -, rfl⟩ := List.mem_map.mp hmem
    exact ht rfl
  unfold histogramSeries
  rw [List.nodup_map_iff hinj]
  simp only [List.cons_append, List.nil_append, List.nodup_cons, List.mem_cons, not_or]
  constructor
  · rintro ⟨-, -, h⟩
    exact h
  · intro h
    exact ⟨⟨by decide, hother _ (by decide)⟩, hother _ (by decide), h⟩

end

/-! ### Calls that panic -/

/-- The percentiles `estimate_quantile` accepts. -/
def HistogramExportMode.InRange {F : Type} [FloatOps F] : HistogramExportMode F → Prop
  | percentiles ps => ∀ p ∈ ps, FloatOps.le 0.0 p ∧ FloatOps.le p 1.0
  | distribution => True

section

variable {F : Type} [FloatText F]

theorem estimateQuantile_isSome_iff {s : UDDSketch F} {z : ℕ} {l}
    (hc : Counts s.buckets s.numValues z l) {q : F} :
    (s.estimateQuantile q).isSome ↔ FloatOps.le 0.0 q ∧ FloatOps.le q 1.0 := by
  constructor
  · intro h
    by_contra hout
    have hout' : ¬ (FloatOps.le 0.0 q && FloatOps.le q 1.0) = true := by simpa using hout
    rw [UDDSketch.estimateQuantile, if_neg hout'] at h
    simp at h
  · rintro ⟨h0, h1⟩
    obtain ⟨v, hv⟩ := estimateQuantile_isSome hc h0 h1
    rw [hv]
    rfl

theorem quantileLines_isSome_iff {s : UDDSketch F} {z : ℕ} {l}
    (hc : Counts s.buckets s.numValues z l) (name tags : Text) : ∀ percentiles : List F,
      (quantileLines name tags s percentiles).isSome ↔
        ∀ p ∈ percentiles, FloatOps.le 0.0 p ∧ FloatOps.le p 1.0
  | [] => by simp [quantileLines]
  | p :: percentiles => by
    have ih := quantileLines_isSome_iff hc name tags percentiles
    have hp := estimateQuantile_isSome_iff hc (q := p)
    rw [List.forall_mem_cons, ← ih, ← hp, quantileLines]
    cases s.estimateQuantile p with
    | none => simp
    | some value =>
      cases quantileLines name tags s percentiles with
      | none => simp
      | some lines => simp

/-- Only a histogram under `Percentiles` can panic. -/
theorem metricLines_isSome_iff {e : StatsdExporter F} {m : FlushedMetric (BitVec 64) F}
    (hr : ∀ sketch, m.value = .histogram sketch → ∃ mb, sketch.Reachable mb) :
    (e.metricLines m).isSome ↔
      m.value.kind = .histogram → e.histogramMode.InRange := by
  unfold StatsdExporter.metricLines
  cases hm : m.value with
  | count value => exact iff_of_true rfl nofun
  | gauge value => exact iff_of_true rfl nofun
  | histogram sketch =>
    cases he : e.histogramMode with
    | distribution => exact iff_of_true rfl fun _ => trivial
    | percentiles ps =>
      obtain ⟨mb, hs⟩ := hr sketch hm
      obtain ⟨z, l, hc⟩ := reachable_copies hs
      set name := e.fullName m.namespacePath m.metricName.text
      set tags := e.formatTags m.tags.pairs
      have hq := quantileLines_isSome_iff hc name tags ps
      have hkind : (FlushedValue.histogram sketch : FlushedValue (BitVec 64) F).kind = .histogram := rfl
      rw [forall_prop_of_true hkind]
      refine Iff.trans ?_ hq
      dsimp only
      cases quantileLines name tags sketch ps with
      | none => simp
      | some lines => simp

theorem metricsLines_isSome_iff {e : StatsdExporter F} : ∀ {batch : List (FlushedMetric (BitVec 64) F)},
    (e.metricsLines batch).isSome ↔ ∀ m ∈ batch, (e.metricLines m).isSome
  | [] => by simp [StatsdExporter.metricsLines]
  | m :: batch => by
    have ih : (e.metricsLines batch).isSome ↔ ∀ m ∈ batch, (e.metricLines m).isSome :=
      metricsLines_isSome_iff
    rw [List.forall_mem_cons, ← ih, StatsdExporter.metricsLines]
    cases e.metricLines m with
    | none => simp
    | some lines =>
      cases e.metricsLines batch with
      | none => simp
      | some rest => simp

theorem sendMetrics_isSome {e : StatsdExporter F} {batch : List (FlushedMetric (BitVec 64) F)} :
    (e.sendMetrics batch).isSome ↔ ∀ m ∈ batch, (e.metricLines m).isSome := by
  rw [← metricsLines_isSome_iff]
  unfold StatsdExporter.sendMetrics
  cases e.metricsLines batch with
  | none => simp
  | some lines => simp

/-- **A call panics just on a histogram under a percentile out of range.** -/
theorem sendMetrics_isSome_iff (e : StatsdExporter F) {batch : List (FlushedMetric (BitVec 64) F)}
    (hr : ∀ m ∈ batch, ∀ sketch, m.value = .histogram sketch → ∃ mb, sketch.Reachable mb) :
    (e.sendMetrics batch).isSome ↔
      (∃ m ∈ batch, m.value.kind = .histogram) → e.histogramMode.InRange := by
  rw [sendMetrics_isSome]
  constructor
  · rintro h ⟨m, hm, hist⟩
    exact (metricLines_isSome_iff (hr m hm)).mp (h m hm) hist
  · intro h m hm
    exact (metricLines_isSome_iff (hr m hm)).mpr fun hist => h ⟨m, hm, hist⟩

end

/-! ### Labels of percentiles -/

/-- The whole percents a percentile is rounded to, half of one up. -/
def wholePercents (p : ℚ) : ℕ := ⌊100 * p + 1 / 2⌋₊

theorem formatPercentileLabel_eq (P : RatText) {p : ℚ} (h0 : 0 ≤ p) (h1 : p ≤ 1) :
    @formatPercentileLabel ℚ P.floatText p = 'p' :: displayNat (wholePercents p) := by
  have hscale : p * 100.0 = 100 * p := by
    norm_num
    ring
  have hround : FloatOps.toU64 (FloatOps.round (p * 100.0)) = wholePercents p := by
    rw [hscale, toU64_round (by positivity)]
    rfl
  have hle : wholePercents p ≤ 100 := by
    have hlt : 100 * p + 1 / 2 < (100 + 1 : ℕ) := by
      push_cast
      linarith
    exact Nat.le_of_lt_succ ((Nat.floor_lt (by positivity)).mpr hlt)
  have hmin : min (wholePercents p) (2 ^ 32 - 1) = wholePercents p := by omega
  unfold formatPercentileLabel
  exact congrArg ('p' :: displayNat ·) ((congrArg (min · (2 ^ 32 - 1)) hround).trans hmin)

/-- In range, the labels are as distinct as the whole percents. -/
theorem labels_nodup_iff (P : RatText) {percentiles : List ℚ}
    (hps : ∀ p ∈ percentiles, 0 ≤ p ∧ p ≤ 1) :
    (percentiles.map (@formatPercentileLabel ℚ P.floatText)).Nodup ↔
      (percentiles.map wholePercents).Nodup := by
  have hinj : Function.Injective fun n : ℕ => 'p' :: displayNat n := by
    intro m n h
    exact displayNat_inj (List.tail_eq_of_cons_eq h)
  have hmap : percentiles.map (@formatPercentileLabel ℚ P.floatText) =
      (percentiles.map wholePercents).map fun n => 'p' :: displayNat n := by
    rw [List.map_map]
    apply List.map_congr_left
    intro p hp
    exact formatPercentileLabel_eq P (hps p hp).1 (hps p hp).2
  rw [hmap, List.nodup_map_iff hinj]

/-- Percentiles a whole percent apart have labels of their own. -/
theorem wholePercents_lt {p q : ℚ} (h0 : 0 ≤ p) (h : p + 1 / 100 ≤ q) :
    wholePercents p < wholePercents q := by
  have hsucc : wholePercents p + 1 = ⌊100 * p + 1 / 2 + 1⌋₊ :=
    (Nat.floor_add_one (by positivity)).symm
  apply Nat.lt_of_succ_le
  rw [Nat.succ_eq_add_one, hsucc]
  apply Nat.floor_mono
  linarith

/-! ### Exact percentiles -/

theorem inRange_iff {percentiles : List ℚ} :
    (HistogramExportMode.percentiles percentiles).InRange ↔ ∀ p ∈ percentiles, 0 ≤ p ∧ p ≤ 1 := by
  apply forall₂_congr
  intro p _
  simp only [FloatOps.le, decide_eq_true_eq]
  norm_num

theorem default_inRange : (HistogramExportMode.default : HistogramExportMode ℚ).InRange := by
  refine inRange_iff.mpr ?_
  simp only [List.forall_mem_cons, List.not_mem_nil, false_imp_iff, implies_true]
  norm_num

/-- The lines of a histogram under percentiles in range. -/
theorem exists_lines (P : RatText) (e : StatsdExporter ℚ) {percentiles : List ℚ}
    (he : e.histogramMode = .percentiles percentiles) (hps : ∀ p ∈ percentiles, 0 ≤ p ∧ p ≤ 1)
    (m : FlushedMetric (BitVec 64) ℚ) {sketch : UDDSketch ℚ} (hm : m.value = .histogram sketch)
    {mb : ℕ} (hr : sketch.Reachable mb) :
    ∃ lines, @StatsdExporter.metricLines ℚ P.floatText e m = some lines ∧
      lines.map (seriesName (e.fullName m.namespacePath m.metricName.text)) =
        @histogramSeries ℚ P.floatText (e.fullName m.namespacePath m.metricName.text) percentiles := by
  have hin : e.histogramMode.InRange := he ▸ inRange_iff.mpr hps
  have hreach : ∀ s, m.value = .histogram s → ∃ mb, s.Reachable mb := by
    intro s hs
    exact ⟨mb, FlushedValue.histogram.inj (hm.symm.trans hs) ▸ hr⟩
  have hsome := (@metricLines_isSome_iff ℚ P.floatText e m hreach).mpr fun _ => hin
  obtain ⟨lines, hlines⟩ := Option.isSome_iff_exists.mp hsome
  exact ⟨lines, hlines, @metricLines_series ℚ P.floatText e percentiles he m sketch hm lines hlines⟩

/-- **The series are distinct just when no two percentiles round to the same
whole percent.** -/
theorem series_distinct_iff (P : RatText) (e : StatsdExporter ℚ) {percentiles : List ℚ}
    (he : e.histogramMode = .percentiles percentiles) (hps : ∀ p ∈ percentiles, 0 ≤ p ∧ p ≤ 1)
    (m : FlushedMetric (BitVec 64) ℚ) {sketch : UDDSketch ℚ} (hm : m.value = .histogram sketch)
    {mb : ℕ} (hr : sketch.Reachable mb) :
    (∃ lines, @StatsdExporter.metricLines ℚ P.floatText e m = some lines ∧
        (lines.map (seriesName (e.fullName m.namespacePath m.metricName.text))).Nodup) ↔
      (percentiles.map wholePercents).Nodup := by
  obtain ⟨lines, hlines, hseries⟩ := exists_lines P e he hps m hm hr
  rw [← labels_nodup_iff P hps, ← @histogramSeries_nodup_iff ℚ P.floatText
    (e.fullName m.namespacePath m.metricName.text), ← hseries]
  constructor
  · rintro ⟨lines', hlines', hnodup⟩
    rwa [Option.some.inj (hlines'.symm.trans hlines)] at hnodup
  · intro hnodup
    exact ⟨lines, hlines, hnodup⟩

/-- Percentiles a whole percent apart are enough. -/
theorem wholePercents_nodup {percentiles : List ℚ} (h0 : ∀ p ∈ percentiles, 0 ≤ p)
    (h : percentiles.Pairwise fun p q => p + 1 / 100 ≤ q) : (percentiles.map wholePercents).Nodup := by
  rw [List.Nodup, List.pairwise_map]
  exact h.imp_of_mem fun hp _ hle => (wholePercents_lt (h0 _ hp) hle).ne

/-- The sketch of a single one. -/
theorem exists_sketch_one : ∃ s : UDDSketch ℚ, s.Reachable 7 ∧ s.count = 1 := by
  have h1 : IsFinite 1 := isFinite_of_moderate (by norm_num) (by norm_num)
  obtain ⟨s₀, s, l, h₀, hs, -, ht, -⟩ := add_one (le_refl 7) half_inRange h1
  exact ⟨s, .addValue (.new h₀) hs, ht.numValues⟩

/-- The percentiles of the default mode. -/
theorem series_distinct_default : ∃ sketch : UDDSketch ℚ, sketch.count = 1 ∧
    ∃ lines, @StatsdExporter.metricLines ℚ wholeText.floatText .udp
        ⟨[], ⟨0, "latency".toList⟩, ⟨[]⟩, .histogram sketch⟩ = some lines ∧
      (lines.map (seriesName "latency".toList)).Nodup := by
  obtain ⟨sketch, hr, hcount⟩ := exists_sketch_one
  have hps : ∀ p ∈ ([0.5, 0.9, 0.95, 0.99] : List ℚ), 0 ≤ p ∧ p ≤ 1 := inRange_iff.mp default_inRange
  refine ⟨sketch, hcount, (series_distinct_iff wholeText .udp rfl hps _ rfl hr).mpr ?_⟩
  apply wholePercents_nodup fun p hp => (hps p hp).1
  simp only [List.pairwise_cons, List.mem_cons, List.not_mem_nil, or_false, forall_eq_or_imp, forall_eq]
  norm_num

/-- Both 0.999 and 1 are sent as `p100`. -/
theorem same_label : ∃ (e : StatsdExporter ℚ) (sketch : UDDSketch ℚ) (lines : List Text),
    e.histogramMode = .percentiles [999 / 1000, 1] ∧ sketch.Reachable 7 ∧ sketch.count = 1 ∧
      @StatsdExporter.metricLines ℚ wholeText.floatText e
        ⟨[], ⟨0, "latency".toList⟩, ⟨[]⟩, .histogram sketch⟩ = some lines ∧
      ¬ (lines.map (seriesName "latency".toList)).Nodup := by
  obtain ⟨sketch, hr, hcount⟩ := exists_sketch_one
  have hps : ∀ p ∈ [(999 / 1000 : ℚ), 1], 0 ≤ p ∧ p ≤ 1 := by
    simp only [List.forall_mem_cons, List.not_mem_nil, false_imp_iff, implies_true]
    norm_num
  obtain ⟨lines, hlines, hseries⟩ := exists_lines wholeText
    ⟨none, [], .percentiles [999 / 1000, 1], 1432, []⟩ rfl hps
    ⟨[], ⟨0, "latency".toList⟩, ⟨[]⟩, .histogram sketch⟩ rfl hr
  refine ⟨_, sketch, lines, rfl, hr, hcount, hlines, ?_⟩
  change lines.map (seriesName "latency".toList) = _ at hseries
  rw [hseries, @histogramSeries_nodup_iff ℚ wholeText.floatText, labels_nodup_iff wholeText hps]
  have h999 : wholePercents (999 / 1000) = 100 := (Nat.floor_eq_iff (by norm_num)).mpr (by norm_num)
  have hone : wholePercents 1 = 100 := (Nat.floor_eq_iff (by norm_num)).mpr (by norm_num)
  rw [List.map_cons, List.map_cons, h999, hone]
  decide

/-- A count and a histogram under the default mode. -/
theorem sendMetrics_default : ∃ sketch : UDDSketch ℚ, sketch.count = 1 ∧
    (@StatsdExporter.sendMetrics ℚ wholeText.floatText .udp
      [⟨[], ⟨0, "hits".toList⟩, ⟨[]⟩, .count 3⟩,
        ⟨[], ⟨1, "latency".toList⟩, ⟨[]⟩, .histogram sketch⟩]).isSome := by
  obtain ⟨sketch, hr, hcount⟩ := exists_sketch_one
  refine ⟨sketch, hcount, (@sendMetrics_isSome_iff ℚ wholeText.floatText .udp _ ?_).mpr
    fun _ => default_inRange⟩
  intro m hm s hs
  rcases List.mem_pair.mp hm with rfl | rfl
  · exact absurd hs nofun
  · exact ⟨7, FlushedValue.histogram.inj hs ▸ hr⟩

/-- The percentile 99 is accepted, and the first histogram panics. -/
theorem ninety_nine_panics : ∃ (e : StatsdExporter ℚ) (sketch : UDDSketch ℚ),
    e.histogramMode = .percentiles [99] ∧ sketch.Reachable 7 ∧ sketch.count = 1 ∧
      @StatsdExporter.sendMetrics ℚ wholeText.floatText e
        [⟨[], ⟨0, "latency".toList⟩, ⟨[]⟩, .histogram sketch⟩] = none := by
  obtain ⟨sketch, hr, hcount⟩ := exists_sketch_one
  refine ⟨⟨none, [], .percentiles [99], 1432, []⟩, sketch, rfl, hr, hcount, ?_⟩
  rw [← Option.not_isSome_iff_eq_none]
  intro hsome
  have hreach : ∀ s, FlushedValue.histogram sketch = (.histogram s : FlushedValue (BitVec 64) ℚ) →
      ∃ mb, s.Reachable mb := fun s hs => ⟨7, FlushedValue.histogram.inj hs ▸ hr⟩
  have hline := (@sendMetrics_isSome ℚ wholeText.floatText _ _).mp hsome _ (List.mem_singleton_self _)
  have hin := (@metricLines_isSome_iff ℚ wholeText.floatText _ _ hreach).mp hline rfl
  have h99 := (inRange_iff.mp hin 99 List.mem_cons_self).2
  norm_num at h99

end ChalkMetrics
