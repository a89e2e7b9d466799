/-
# What an exposed text says

`readings text id` are the values on the sample lines of a text with the name
and labels `id`. Of a rendered batch they are the values of the batch's samples
with that id (`readings_render`). The samples a counter or a histogram declares
to grow go by `growingIds`, their values by `growingNumbers`, and a metric that
alone has one of these ids determines its readings (`readings_batch`).

Key definitions: `readings`, `growingIds`, `growingNumbers`.
-/
import ChalkMetrics.Export.LabelEncoding

namespace ChalkMetrics

open Delimited

/-- The value on a line, if it is that of a sample with this id. -/
def reading (id line : Text) : Option Text :=
  if line.head? = some '#' then none
  else (splitLast ' ' line).bind fun p => if p.1 = id then some p.2 else none

def readings (text id : Text) : List Text := (lines '\n' text).filterMap (reading id)

/-- The lines can be read back: no newline, and no sample looks like a comment. -/
structure Family.Legible (f : Family) : Prop where
  newline : ∀ l ∈ f.lines, '\n' ∉ l
  comment : ∀ s ∈ f.samples, s.id.head? ≠ some '#'
  value : ∀ s ∈ f.samples, ' ' ∉ s.value

/-- The values of the samples with this id. -/
def Family.valuesOf (f : Family) (id : Text) : List Text :=
  f.samples.filterMap fun s => if s.id = id then some s.value else none

theorem reading_line {s : Sample} (hc : s.id.head? ≠ some '#') (hv : ' ' ∉ s.value) (id : Text) :
    reading id s.line = if s.id = id then some s.value else none := by
  have hhead : s.line.head? ≠ some '#' := by
    unfold Sample.line
    rcases h : s.id with _ | ⟨c, rest⟩
    · simp
    · rw [h] at hc
      simpa using hc
  rw [reading, if_neg hhead, Sample.line, splitLast_append hv, Option.bind_some]

theorem readings_family {f : Family} (hf : f.Legible) (id : Text) :
    f.lines.filterMap (reading id) = f.valuesOf id := by
  have hcomment : ∀ l : Text, reading id ("# ".toList ++ l) = none := fun l => if_pos rfl
  have hhelp := hcomment ("HELP ".toList ++ f.name ++ ' ' :: f.help)
  have htype := hcomment ("TYPE ".toList ++ f.name ++ ' ' :: f.type)
  simp only [Family.lines, List.filterMap_append, List.filterMap_cons, List.filterMap_nil,
    List.filterMap_map]
  rw [show reading id ("# HELP ".toList ++ f.name ++ ' ' :: f.help) = none from hhelp,
    show reading id ("# TYPE ".toList ++ f.name ++ ' ' :: f.type) = none from htype,
    List.nil_append, Family.valuesOf]
  exact List.filterMap_congr fun s hs => reading_line (hf.comment s hs) (hf.value s hs) id

section

variable {F : Type} [FloatText F]

/-- The values a metric writes for an id. -/
def PrometheusExporter.valuesOf (e : PrometheusExporter F) (id : Text)
    (m : FlushedMetric (BitVec 64) F) : List Text := (e.family m).elim [] (·.valuesOf id)

/-- **The readings of a rendered batch** are the values of its samples. -/
theorem readings_render {e : PrometheusExporter F} {batch : List (FlushedMetric (BitVec 64) F)}
    {text : Text} (hleg : ∀ m ∈ batch, ∀ f, e.family m = some f → f.Legible)
    (h : e.render batch = some text) (id : Text) :
    (∀ m ∈ batch, (e.family m).isSome) ∧ readings text id = batch.flatMap (e.valuesOf id) := by
  obtain ⟨ls, hls, h⟩ := Option.bind_eq_some_iff.mp h
  obtain rfl := Option.some.inj h
  obtain ⟨hfs, rfl⟩ := PrometheusExporter.renderLines_eq hls
  have hf : ∀ f ∈ batch.filterMap e.family, f.Legible := fun f hf =>
    let ⟨m, hm, hf⟩ := List.mem_filterMap.mp hf
    hleg m hm f hf
  have hn : ∀ l ∈ (batch.filterMap e.family).flatMap Family.lines, '\n' ∉ l := fun l hl =>
    let ⟨f, hmem, hl⟩ := List.mem_flatMap.mp hl
    (hf f hmem).newline l hl
  refine ⟨hfs, ?_⟩
  rw [readings, lines_unlines_iff.mpr hn, List.filterMap_flatMap]
  calc (batch.filterMap e.family).flatMap (fun f => f.lines.filterMap (reading id))
      = (batch.filterMap e.family).flatMap (·.valuesOf id) :=
        List.flatMap_congr fun f hmem => readings_family (hf f hmem) id
    _ = batch.flatMap fun m => (e.family m).toList.flatMap (·.valuesOf id) := by
        rw [List.filterMap_eq_flatMap_toList, List.flatMap_assoc]
    _ = batch.flatMap (e.valuesOf id) := List.flatMap_congr fun m _ => by
        unfold PrometheusExporter.valuesOf
        rcases e.family m with _ | f <;> simp

/-! ### The ids of a series -/

/-- The ids of all samples of a metric. -/
def sampleIds (e : PrometheusExporter F) (a : AggKey) (kind : MetricKind) : List Text :=
  let name := e.fullName a.namespacePath a.metricName.text
  let tags := a.tagsData.pairs
  match kind with
  | .count => [name ++ "_total".toList ++ formatTags tags]
  | .gauge => [name ++ formatTags tags]
  | .histogram =>
    (e.bucketBoundaries.map fun le =>
      name ++ "_bucket".toList ++ formatTags (tags ++ [("le".toList, formatLe le)])) ++
    [name ++ "_bucket".toList ++ formatTags (tags ++ [("le".toList, "+Inf".toList)]),
      name ++ "_sum".toList ++ formatTags tags, name ++ "_count".toList ++ formatTags tags]

/-- The samples that must not decrease: a total, and a histogram's buckets and count. -/
def growingIds (e : PrometheusExporter F) (a : AggKey) (kind : MetricKind) : List Text :=
  let name := e.fullName a.namespacePath a.metricName.text
  let tags := a.tagsData.pairs
  match kind with
  | .count => [name ++ "_total".toList ++ formatTags tags]
  | .gauge => []
  | .histogram =>
    (e.bucketBoundaries.map fun le =>
      name ++ "_bucket".toList ++ formatTags (tags ++ [("le".toList, formatLe le)])) ++
    [name ++ "_bucket".toList ++ formatTags (tags ++ [("le".toList, "+Inf".toList)]),
      name ++ "_count".toList ++ formatTags tags]

/-- Their values, in that order. -/
def growingNumbers (e : PrometheusExporter F) : FlushedValue (BitVec 64) F → Option (List ℤ)
  | .count value => some [value.toInt]
  | .gauge _ => some []
  | .histogram sketch => do
    let counts ← bucketCounts sketch 0 e.bucketBoundaries
    return (counts ++ [sketch.count, sketch.count]).map Int.ofNat

/-- The numbers that go with one of the ids. -/
def select (ids : List Text) (ns : List ℤ) (id : Text) : List ℤ :=
  (ids.zip ns).filterMap fun p => if p.1 = id then some p.2 else none

theorem growing_subset (e : PrometheusExporter F) (a : AggKey) (kind : MetricKind) :
    growingIds e a kind ⊆ sampleIds e a kind := by
  cases kind with
  | count => exact fun id h => h
  | gauge => exact fun id h => absurd h List.not_mem_nil
  | histogram =>
    intro id h
    simp only [growingIds, sampleIds, List.mem_append, List.mem_cons, List.not_mem_nil,
      or_false] at h ⊢
    rcases h with h | h | h
    · exact .inl h
    · exact .inr (.inl h)
    · exact .inr (.inr (.inr h))

theorem length_bucketCounts {sketch : UDDSketch F} : ∀ {boundaries : List F} {n : ℕ} {counts : List ℕ},
    bucketCounts sketch n boundaries = some counts → counts.length = boundaries.length
  | [], n, counts, h => by
    obtain rfl := Option.some.inj h
    rfl
  | le :: boundaries, n, counts, h => by
    obtain ⟨q, -, h⟩ := Option.bind_eq_some_iff.mp h
    obtain ⟨rest, hrest, h⟩ := Option.bind_eq_some_iff.mp h
    obtain rfl := Option.some.inj h
    rw [List.length_cons, List.length_cons, length_bucketCounts hrest]

omit [FloatText F] in
theorem zipWith_left {β γ : Type} (g : F → γ) : ∀ {l : List F} {r : List β}, r.length = l.length →
    List.zipWith (fun a _ => g a) l r = l.map g
  | [], [], _ => rfl
  | a :: l, b :: r, h => by
    rw [List.zipWith_cons_cons, zipWith_left g (Nat.succ.inj h), List.map_cons]

theorem displayInt_ofNat (n : ℕ) : displayInt (n : ℤ) = displayNat n := by
  rw [displayInt, if_neg (by omega), Int.natAbs_natCast]

theorem family_ids {e : PrometheusExporter F} {m : FlushedMetric (BitVec 64) F} {f : Family}
    (h : e.family m = some f) : f.samples.map Sample.id = sampleIds e m.aggKey m.value.kind := by
  unfold PrometheusExporter.family at h
  cases hv : m.value with
  | count value =>
    rw [hv] at h
    obtain rfl := Option.some.inj h
    rfl
  | gauge value =>
    rw [hv] at h
    obtain rfl := Option.some.inj h
    rfl
  | histogram sketch =>
    rw [hv] at h
    obtain ⟨counts, hc, h⟩ := Option.bind_eq_some_iff.mp h
    obtain rfl := Option.some.inj h
    simp only [histogramSamples, List.map_append, List.map_zipWith, sampleIds, FlushedValue.kind,
      Sample.id, zipWith_left _ (length_bucketCounts hc)]
    rfl

omit [FloatText F] in
theorem valuesOf_buckets (name : Text) (labels : F → List (Text × Text)) (id : Text) :
    ∀ (boundaries : List F) (counts : List ℕ),
      (List.zipWith (fun le n => (⟨name, labels le, displayNat n⟩ : Sample)) boundaries
        counts).filterMap (fun s => if s.id = id then some s.value else none) =
      (((boundaries.map fun le => name ++ formatTags (labels le)).zip
        (counts.map Int.ofNat)).filterMap fun p => if p.1 = id then some p.2 else none).map displayInt
  | [], _ => rfl
  | _ :: _, [] => rfl
  | le :: boundaries, n :: counts => by
    have ih := valuesOf_buckets name labels id boundaries counts
    simp only [List.zipWith_cons_cons, List.map_cons, List.zip_cons_cons, List.filterMap_cons,
      Sample.id] at ih ⊢
    by_cases hid : name ++ formatTags (labels le) = id
    · simp only [hid, if_true, List.map_cons, ih, Int.ofNat_eq_natCast, displayInt_ofNat]
    · simp only [hid, if_false, ih]

omit [FloatText F] in
theorem valuesOf_one {s : Sample} {z : ℤ} (hs : s.value = displayInt z) (id : Text) :
    [s].filterMap (fun s => if s.id = id then some s.value else none) =
      (([s.id].zip [z]).filterMap fun p => if p.1 = id then some p.2 else none).map displayInt := by
  by_cases h : s.id = id
  · simp [h, hs]
  · simp [h]

theorem sum_not_growing (e : PrometheusExporter F) (a : AggKey) :
    e.fullName a.namespacePath a.metricName.text ++ "_sum".toList ++ formatTags a.tagsData.pairs ∉
      growingIds e a .histogram := by
  intro h
  simp only [growingIds, List.mem_append, List.mem_map, List.mem_cons, List.not_mem_nil, or_false,
    List.append_assoc, List.append_cancel_left_eq] at h
  simp at h

/-- **The growing samples of a metric** have the values of `growingNumbers`. -/
theorem family_growing {e : PrometheusExporter F} {m : FlushedMetric (BitVec 64) F} {f : Family}
    (h : e.family m = some f) : ∃ ns, growingNumbers e m.value = some ns ∧
      ns.length = (growingIds e m.aggKey m.value.kind).length ∧
      ∀ id ∈ growingIds e m.aggKey m.value.kind,
        f.valuesOf id = (select (growingIds e m.aggKey m.value.kind) ns id).map displayInt := by
  unfold PrometheusExporter.family at h
  cases hv : m.value with
  | count value =>
    rw [hv] at h
    obtain rfl := Option.some.inj h
    refine ⟨[value.toInt], rfl, rfl, fun id hid => ?_⟩
    obtain rfl := List.mem_singleton.mp hid
    rw [Family.valuesOf, select]
    simp only [growingIds, FlushedValue.kind, List.zip_cons_cons, List.zip_nil_left,
      List.filterMap_cons, List.filterMap_nil, Sample.id]
    simp only [FlushedMetric.aggKey, if_true, List.map_cons, List.map_nil]
  | gauge value => exact ⟨[], rfl, rfl, fun id hid => absurd hid List.not_mem_nil⟩
  | histogram sketch =>
    rw [hv] at h
    obtain ⟨counts, hc, h⟩ := Option.bind_eq_some_iff.mp h
    obtain rfl := Option.some.inj h
    have hlen := length_bucketCounts hc
    refine ⟨(counts ++ [sketch.count, sketch.count]).map Int.ofNat, ?_, ?_, fun id hid => ?_⟩
    · rw [growingNumbers, hc]
      rfl
    · simp [growingIds, FlushedValue.kind, hlen]
    · set name := e.fullName m.namespacePath m.metricName.text
      have hsum : name ++ "_sum".toList ++ formatTags m.tags.pairs ≠ id := by
        rintro rfl
        exact sum_not_growing e m.aggKey hid
      have hsplit : ∀ {β : Type} (a b c : β), [a, b, c] = [a] ++ ([b] ++ [c]) := fun a b c => rfl
      have hnone : [(⟨name ++ "_sum".toList, m.tags.pairs, FloatText.display sketch.sum⟩ :
          Sample)].filterMap (fun s => if s.id = id then some s.value else none) = [] := by
        simpa [Sample.id] using hsum
      have hn := (displayInt_ofNat sketch.count).symm
      rw [Family.valuesOf, histogramSamples, hsplit, List.filterMap_append, List.filterMap_append,
        List.filterMap_append, hnone, List.nil_append, valuesOf_one hn, valuesOf_one hn,
        valuesOf_buckets (name ++ "_bucket".toList)
          (fun le => m.tags.pairs ++ [("le".toList, formatLe le)]), select]
      simp only [growingIds, FlushedValue.kind, FlushedMetric.aggKey, List.map_append]
      rw [List.zip_append (by simp [hlen]), List.filterMap_append, List.map_append]
      congr 1
      rw [← List.map_append, ← List.filterMap_append]
      rfl

/-! ### One metric of a batch -/

theorem select_ne_nil {id : Text} : ∀ {ids : List Text} {ns : List ℤ}, ns.length = ids.length →
    id ∈ ids → select ids ns id ≠ []
  | i :: ids, n :: ns, hlen, hid => by
    by_cases h : i = id
    · simp [select, h]
    · have hne := select_ne_nil (Nat.succ.inj hlen) ((List.mem_cons.mp hid).resolve_left (Ne.symm h))
      simpa [select, h] using hne

theorem select_mono (id : Text) : ∀ (ids : List Text) {ns ns' : List ℤ}, List.Forall₂ (· ≤ ·) ns ns' →
    List.Forall₂ (· ≤ ·) (select ids ns id) (select ids ns' id)
  | [], _, _, _ => .nil
  | _ :: _, _, _, .nil => .nil
  | i :: ids, _, _, .cons hn hns => by
    have ih := select_mono id ids hns
    by_cases h : i = id
    · simpa [select, h] using ⟨hn, ih⟩
    · simpa [select, h] using ih

theorem valuesOf_eq_nil {e : PrometheusExporter F} {m : FlushedMetric (BitVec 64) F} {id : Text}
    (hid : id ∉ sampleIds e m.aggKey m.value.kind) : e.valuesOf id m = [] := by
  unfold PrometheusExporter.valuesOf
  rcases hf : e.family m with _ | f
  · rfl
  · rw [← family_ids hf] at hid
    refine List.filterMap_eq_nil_iff.mpr fun s hs => if_neg ?_
    rintro rfl
    exact hid (List.mem_map_of_mem hs)

theorem family_legible {e : PrometheusExporter F} {m : FlushedMetric (BitVec 64) F} {f : Family}
    (h : e.family m = some f) (hn : '\n' ∉ e.fullName m.namespacePath m.metricName.text)
    (hc : (e.fullName m.namespacePath m.metricName.text).head? ≠ some '#')
    (ht : ∀ p ∈ m.tags.pairs, '\n' ∉ p.1 ∧ '\n' ∉ p.2) : f.Legible := by
  have hf := family_of h
  refine ⟨hf.newline hn ht, fun s hs hhead => ?_, fun s hs hmem => ?_⟩
  · obtain ⟨suffix, hsuf, hname⟩ := (hf.samples s hs).name
    rw [Sample.id, hname] at hhead
    rcases hfull : e.fullName m.namespacePath m.metricName.text with _ | ⟨c, rest⟩
    · -- the id starts with the suffix or with the labels
      have hall : suffixes.all (fun t => t.head? ≠ some '#') = true := by decide
      rw [hfull, List.nil_append] at hhead
      rcases suffix with _ | ⟨c, suffix⟩
      · rcases hl : s.labels with _ | ⟨p, labels⟩
        · rw [hl] at hhead
          cases hhead
        · rw [hl, formatTags_cons] at hhead
          cases hhead
      · exact absurd hhead (by simpa using List.all_eq_true.mp hall _ hsuf)
    · rw [hfull] at hhead hc
      exact hc hhead
  · exact absurd ((hf.samples s hs).value _ hmem) (by decide)

omit [FloatText F] in
theorem flatMap_of_apart {β : Type} {g : UInt64 → List β} {k₀ : UInt64} : ∀ {ks : List UInt64},
    ks.Nodup → (∀ k ∈ ks, k ≠ k₀ → g k = []) → ks.flatMap g = if k₀ ∈ ks then g k₀ else []
  | [], _, _ => rfl
  | k :: ks, hn, h => by
    obtain ⟨hk, hn⟩ := List.nodup_cons.mp hn
    have ih := flatMap_of_apart hn fun k' hk' => h k' (List.mem_cons_of_mem _ hk')
    rw [List.flatMap_cons, ih]
    by_cases he : k = k₀
    · subst he
      rw [if_neg hk, if_pos List.mem_cons_self, List.append_nil]
    · rw [h k List.mem_cons_self he, List.nil_append]
      simp [Ne.symm he]

/-- **A metric that alone has an id** gives the id its readings. -/
theorem readings_batch {e : PrometheusExporter F}
    {report : UInt64 → Option (FlushedMetric (BitVec 64) F)} {ks : List UInt64} (hn : ks.Nodup)
    (hks : ∀ k, k ∈ ks ↔ (report k).isSome)
    (hleg : ∀ k m, report k = some m → ∀ f, e.family m = some f → f.Legible) {text : Text}
    (h : e.render (ks.filterMap report) = some text) {id : Text} {k₀ : UInt64}
    (hother : ∀ k ≠ k₀, ∀ m, report k = some m → id ∉ sampleIds e m.aggKey m.value.kind) :
    readings text id = (report k₀).elim [] (e.valuesOf id) := by
  obtain ⟨-, hread⟩ := readings_render (fun m hm =>
    let ⟨k, _, hk⟩ := List.mem_filterMap.mp hm
    hleg k m hk) h id
  have hkeys : (ks.filterMap report).flatMap (e.valuesOf id) =
      ks.flatMap fun k => (report k).elim [] (e.valuesOf id) := by
    clear hn hks h hread
    induction ks with
    | nil => rfl
    | cons k ks ih =>
      rw [List.filterMap_cons, List.flatMap_cons]
      rcases report k with _ | m
      · exact ih
      · exact congrArg (e.valuesOf id m ++ ·) ih
  have hapart : ∀ k ∈ ks, k ≠ k₀ → (report k).elim [] (e.valuesOf id) = [] := by
    intro k _ hk
    rcases hr : report k with _ | m
    · rfl
    · exact valuesOf_eq_nil (hother k hk m hr)
  rw [hread, hkeys, flatMap_of_apart hn hapart]
  rcases hr : report k₀ with _ | m
  · exact if_neg (by simp [hks, hr])
  · exact if_pos ((hks k₀).mpr (by simp [hr]))

end
end ChalkMetrics
