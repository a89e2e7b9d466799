/-
# The Prometheus exporter

`PrometheusExporter` renders a batch into the text exposition format and keeps
the last text. What a metric writes is a `Family`: a name, a type and samples,
each with its labels and value; the lines the exporter formats, bucket lines
with the tags cut open included, are the lines of the families
(`metricLines_eq`).

Key definitions: `PrometheusExporter.render`, `formatTags`, `Sample`,
`PrometheusExporter.family`.
-/
import ChalkMetrics.Export.Display
import ChalkMetrics.Lib.Delimited

namespace ChalkMetrics

open Delimited

structure PrometheusExporter (F : Type) where
  namespacePrefix : Option Text
  bucketBoundaries : List F
  latest : Text

namespace PrometheusExporter

def defaultBucketBoundaries {F : Type} [FloatOps F] : List F :=
  [0.005, 0.01, 0.025, 0.05, 0.1, 0.25, 0.5, 1.0, 2.5, 5.0, 10.0]

/-- What the builder starts from, built at once. -/
def builder {F : Type} [FloatOps F] : PrometheusExporter F := ⟨none, defaultBucketBoundaries, []⟩

def getMetricsText {F : Type} (e : PrometheusExporter F) : Text := e.latest

def fullName {F : Type} (e : PrometheusExporter F) (namespacePath : List Text) (metricName : Text) :
    Text :=
  ['_'].intercalate (e.namespacePrefix.toList ++ namespacePath ++ [metricName])

end PrometheusExporter

def formatTags (pairs : List (Text × Text)) : Text :=
  if pairs.isEmpty then []
  else '{' :: (([','].intercalate (pairs.map fun p => p.1 ++ "=\"".toList ++ p.2 ++ ['"'])) ++ ['}'])

section

variable {F : Type} [FloatText F]

def formatLe (le : F) : Text :=
  if FloatOps.feq le (FloatOps.floor le) && FloatOps.lt (FloatOps.abs le) 1e15 then
    displayInt (FloatOps.toI64 le).toInt
  else FloatText.display le

/-- `tags_str[1..tags_str.len() - 1]`. -/
def tagsInside (tagsStr : Text) : Text := tagsStr.tail.dropLast

def bucketLine (name tagsStr leStr : Text) (count : ℕ) : Text :=
  if tagsStr.isEmpty then
    name ++ "_bucket\x7ble=\"".toList ++ leStr ++ "\"\x7d ".toList ++ displayNat count
  else
    name ++ "_bucket\x7b".toList ++ tagsInside tagsStr ++ ",le=\"".toList ++ leStr ++ "\"\x7d ".toList ++
      displayNat count

/-- The estimated number of values up to each boundary, never less than at the
boundaries before it. -/
def bucketCounts (sketch : UDDSketch F) : ℕ → List F → Option (List ℕ)
  | _, [] => some []
  | cumulative, le :: rest => do
    let quantileAt ← sketch.estimateQuantileAtValue le
    let bucketCount := FloatOps.toU64 (FloatOps.round (quantileAt * (sketch.count : F)))
    let cumulative := max cumulative bucketCount
    return cumulative :: (← bucketCounts sketch cumulative rest)

namespace PrometheusExporter

/-- The lines written for one metric. -/
def metricLines (e : PrometheusExporter F) (metric : FlushedMetric (BitVec 64) F) :
    Option (List Text) :=
  let name := e.fullName metric.namespacePath metric.metricName.text
  let tagsStr := formatTags metric.tags.pairs
  match metric.value with
  | .count value => some
      ["# HELP ".toList ++ name ++ "_total ".toList ++ name,
        "# TYPE ".toList ++ name ++ "_total counter".toList,
        name ++ "_total".toList ++ tagsStr ++ ' ' :: displayInt value.toInt]
  | .gauge value => some
      ["# HELP ".toList ++ name ++ ' ' :: name,
        "# TYPE ".toList ++ name ++ " gauge".toList,
        name ++ tagsStr ++ ' ' :: FloatText.display value]
  | .histogram sketch => do
    let counts ← bucketCounts sketch 0 e.bucketBoundaries
    return ["# HELP ".toList ++ name ++ ' ' :: name,
        "# TYPE ".toList ++ name ++ " histogram".toList] ++
      List.zipWith (fun le count => bucketLine name tagsStr (formatLe le) count)
        e.bucketBoundaries counts ++
      [bucketLine name tagsStr "+Inf".toList sketch.count,
        name ++ "_sum".toList ++ tagsStr ++ ' ' :: FloatText.display sketch.sum,
        name ++ "_count".toList ++ tagsStr ++ ' ' :: displayNat sketch.count]

def renderLines (e : PrometheusExporter F) : List (FlushedMetric (BitVec 64) F) → Option (List Text)
  | [] => some []
  | metric :: metrics => do
    let ls ← e.metricLines metric
    return ls ++ (← e.renderLines metrics)

/-- `writeln!` ends every line. -/
def render (e : PrometheusExporter F) (metrics : List (FlushedMetric (BitVec 64) F)) : Option Text := do
  return unlines '\n' (← e.renderLines metrics)

/-- The lock is held for the assignment only. -/
def «export» (e : PrometheusExporter F) (metrics : List (FlushedMetric (BitVec 64) F)) :
    Option (PrometheusExporter F) := do
  return { e with latest := ← e.render metrics }

end PrometheusExporter

/-! ### Families and samples -/

/-- A sample: the series it is of, and its value. -/
structure Sample where
  name : Text
  labels : List (Text × Text)
  value : Text

/-- The name and labels as they stand before the value. -/
def Sample.id (s : Sample) : Text := s.name ++ formatTags s.labels

def Sample.line (s : Sample) : Text := s.id ++ ' ' :: s.value

structure Family where
  name : Text
  help : Text
  type : Text
  samples : List Sample

def Family.lines (f : Family) : List Text :=
  ["# HELP ".toList ++ f.name ++ ' ' :: f.help, "# TYPE ".toList ++ f.name ++ ' ' :: f.type] ++
    f.samples.map Sample.line

/-- The samples of a histogram. -/
def histogramSamples (name : Text) (tags : List (Text × Text)) (boundaries : List F)
    (sketch : UDDSketch F) (counts : List ℕ) : List Sample :=
  List.zipWith (fun le count =>
      ⟨name ++ "_bucket".toList, tags ++ [("le".toList, formatLe le)], displayNat count⟩)
    boundaries counts ++
  [⟨name ++ "_bucket".toList, tags ++ [("le".toList, "+Inf".toList)], displayNat sketch.count⟩,
    ⟨name ++ "_sum".toList, tags, FloatText.display sketch.sum⟩,
    ⟨name ++ "_count".toList, tags, displayNat sketch.count⟩]

/-- What a metric is exposed as. -/
def PrometheusExporter.family (e : PrometheusExporter F) (metric : FlushedMetric (BitVec 64) F) :
    Option Family :=
  let name := e.fullName metric.namespacePath metric.metricName.text
  let tags := metric.tags.pairs
  match metric.value with
  | .count value => some ⟨name ++ "_total".toList, name, "counter".toList,
      [⟨name ++ "_total".toList, tags, displayInt value.toInt⟩]⟩
  | .gauge value => some ⟨name, name, "gauge".toList, [⟨name, tags, FloatText.display value⟩]⟩
  | .histogram sketch => do
    let counts ← bucketCounts sketch 0 e.bucketBoundaries
    return ⟨name, name, "histogram".toList,
      histogramSamples name tags e.bucketBoundaries sketch counts⟩

omit [FloatText F] in
/-- A bucket line is the line of a sample with one more label. -/
theorem bucketLine_eq (name : Text) (tags : List (Text × Text)) (leStr : Text) (count : ℕ) :
    bucketLine name (formatTags tags) leStr count =
      Sample.line ⟨name ++ "_bucket".toList, tags ++ [("le".toList, leStr)], displayNat count⟩ := by
  cases tags with
  | nil => simp [bucketLine, formatTags, Sample.line, Sample.id]
  | cons p tags =>
    have hins : tagsInside (formatTags (p :: tags)) =
        [','].intercalate ((p :: tags).map fun p => p.1 ++ "=\"".toList ++ p.2 ++ ['"']) := by
      simp only [formatTags, List.isEmpty_cons, tagsInside, List.tail_cons, if_false,
        Bool.false_eq_true, List.dropLast_concat]
    have hne : (formatTags (p :: tags)).isEmpty = false := rfl
    rw [bucketLine, hne, if_neg Bool.false_ne_true, hins, Sample.line, Sample.id]
    rw [show formatTags ((p :: tags) ++ [("le".toList, leStr)]) = _ from if_neg Bool.false_ne_true]
    rw [List.map_append, List.map_singleton, join_concat (by simp)]
    simp

/-- **The lines written for a metric are those of its family.** -/
theorem PrometheusExporter.metricLines_eq (e : PrometheusExporter F)
    (metric : FlushedMetric (BitVec 64) F) :
    e.metricLines metric = (e.family metric).map Family.lines := by
  unfold metricLines family
  cases metric.value with
  | count value => simp [Family.lines, Sample.line, Sample.id]
  | gauge value => simp [Family.lines, Sample.line, Sample.id]
  | histogram sketch =>
    rcases hc : bucketCounts sketch 0 e.bucketBoundaries with _ | counts
    · simp [hc]
    · simp [hc, Family.lines, histogramSamples, bucketLine_eq, Sample.line, Sample.id,
        List.map_zipWith]

/-- **The lines of a batch** are those of its families. -/
theorem PrometheusExporter.renderLines_eq {e : PrometheusExporter F} :
    ∀ {metrics : List (FlushedMetric (BitVec 64) F)} {ls : List Text},
      e.renderLines metrics = some ls → (∀ m ∈ metrics, (e.family m).isSome) ∧
        ls = (metrics.filterMap e.family).flatMap Family.lines
  | [], ls, h => by
    obtain rfl := Option.some.inj h
    exact ⟨nofun, rfl⟩
  | m :: metrics, ls, h => by
    obtain ⟨ls₁, h₁, h⟩ := Option.bind_eq_some_iff.mp h
    obtain ⟨ls₂, h₂, h⟩ := Option.bind_eq_some_iff.mp h
    obtain rfl := Option.some.inj h
    rw [metricLines_eq] at h₁
    obtain ⟨f, hf, rfl⟩ := Option.map_eq_some_iff.mp h₁
    obtain ⟨hfs, rfl⟩ := renderLines_eq h₂
    refine ⟨List.forall_mem_cons.mpr ⟨Option.isSome_of_eq_some hf, hfs⟩, ?_⟩
    rw [List.filterMap_cons_some hf, List.flatMap_cons]

/-! ### What samples are made of -/

/-- The characters of the value of `le`. -/
def leChars : List Char := '+' :: 'I' :: numberChars

def suffixes : List Text :=
  [[], "_total".toList, "_bucket".toList, "_sum".toList, "_count".toList]

/-- The metric's name and a suffix, its tags and possibly `le`, a number. -/
structure Sample.Of (base : Text) (tags : List (Text × Text)) (s : Sample) : Prop where
  name : ∃ suffix ∈ suffixes, s.name = base ++ suffix
  labels : s.labels = tags ∨
    ∃ leStr : Text, (∀ c ∈ leStr, c ∈ leChars) ∧ s.labels = tags ++ [("le".toList, leStr)]
  value : ∀ c ∈ s.value, c ∈ numberChars

structure Family.Of (base : Text) (tags : List (Text × Text)) (f : Family) : Prop where
  name : ∃ suffix ∈ suffixes, f.name = base ++ suffix
  help : f.help = base
  type : f.type ∈ ["counter".toList, "gauge".toList, "histogram".toList]
  samples : ∀ s ∈ f.samples, s.Of base tags

theorem formatLe_mem {le : F} {c : Char} (h : c ∈ formatLe le) : c ∈ leChars := by
  unfold formatLe at h
  split_ifs at h
  · exact List.mem_cons_of_mem _ (List.mem_cons_of_mem _ (mem_displayInt h))
  · exact List.mem_cons_of_mem _ (List.mem_cons_of_mem _ (FloatText.display_mem _ _ h))

/-- **Every family is made of** the metric's name and tags. -/
theorem family_of {e : PrometheusExporter F} {m : FlushedMetric (BitVec 64) F} {f : Family}
    (h : e.family m = some f) :
    f.Of (e.fullName m.namespacePath m.metricName.text) m.tags.pairs := by
  have hbare : ∀ name : Text, ∃ suffix ∈ suffixes, name = name ++ suffix := fun name =>
    ⟨[], by decide, (List.append_nil name).symm⟩
  unfold PrometheusExporter.family at h
  cases hv : m.value with
  | count value =>
    rw [hv] at h
    obtain rfl := Option.some.inj h
    refine ⟨⟨_, by decide, rfl⟩, rfl, by simp, fun s hs => ?_⟩
    obtain rfl := List.mem_singleton.mp hs
    exact ⟨⟨_, by decide, rfl⟩, .inl rfl, fun c => mem_displayInt⟩
  | gauge value =>
    rw [hv] at h
    obtain rfl := Option.some.inj h
    refine ⟨hbare _, rfl, by simp, fun s hs => ?_⟩
    obtain rfl := List.mem_singleton.mp hs
    exact ⟨hbare _, .inl rfl, fun c => FloatText.display_mem _ _⟩
  | histogram sketch =>
    rw [hv] at h
    obtain ⟨counts, -, h⟩ := Option.bind_eq_some_iff.mp h
    obtain rfl := Option.some.inj h
    refine ⟨hbare _, rfl, by simp, fun s hs => ?_⟩
    simp only [histogramSamples, List.mem_append, List.mem_cons, List.not_mem_nil, or_false] at hs
    rcases hs with hs | rfl | rfl | rfl
    · obtain ⟨i, hi, rfl⟩ := List.mem_iff_getElem.mp hs
      rw [List.getElem_zipWith]
      exact ⟨⟨_, by decide, rfl⟩, .inr ⟨_, fun c => formatLe_mem, rfl⟩, fun c => mem_displayNat⟩
    · exact ⟨⟨_, by decide, rfl⟩, .inr ⟨_, forall_mem_of_all (by decide), rfl⟩,
        fun c => mem_displayNat⟩
    · exact ⟨⟨_, by decide, rfl⟩, .inl rfl, fun c => FloatText.display_mem _ _⟩
    · exact ⟨⟨_, by decide, rfl⟩, .inl rfl, fun c => mem_displayNat⟩

end
end ChalkMetrics
