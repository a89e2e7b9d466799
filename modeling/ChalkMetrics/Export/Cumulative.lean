/-
# Texts over a run

A client with one exporter, the Prometheus one. Record calls go to the map; a
flush takes what is there and, if it has something to report, puts its text in
the place of the last one. Counters and histograms promise that no value falls
and no series goes away, a counter that it shows the sum of all deltas
(`Cumulative`). Whatever went out with an earlier flush is gone from the next
text. The promise is kept where every flush that reports anything finds new
updates for all that was reported before, which make up for it
(`texts_cumulative`); it is broken by a second delta (`total_falls`).

Key definitions: `Exposition`, `ExpositionStep`, `Cumulative`, `Covered`.
-/
import ChalkMetrics.Aggregator.Conserve
import ChalkMetrics.Aggregator.Ledger
import ChalkMetrics.Export.Readings

namespace ChalkMetrics

open Runs MapEvent

/-! ### The client -/

/-- The map and the exporter, with the events so far and the texts that could
be read after each flush. -/
structure Exposition (F : Type) [FloatOps F] where
  aggregator : StripedAggMap (BitVec 64) F
  exporter : PrometheusExporter F
  log : List (MapEvent (BitVec 64) F)
  texts : List Text

section

variable {F : Type} [FloatText F] [FloatBits F]

omit [FloatBits F] in
/-- Nothing recorded, nothing exported. -/
def Exposition.init (makeHash : Fin 64 → UInt64 → UInt64) (mb : ℕ) (ε : F)
    (e : PrometheusExporter F) : Exposition F :=
  ⟨.new makeHash mb ε none, { e with latest := [] }, [], []⟩

/-- `flush_and_export`: an empty batch is not exported. -/
def flushAndExport (scan : Fin 64 → Scan) (aggregator : StripedAggMap (BitVec 64) F)
    (exporter : PrometheusExporter F) : Option (List (FlushedMetric (BitVec 64) F) ×
      StripedAggMap (BitVec 64) F × PrometheusExporter F) := do
  let (metrics, aggregator) := aggregator.flush scan
  if metrics.isEmpty then return (metrics, aggregator, exporter)
  return (metrics, aggregator, ← exporter.export metrics)

inductive ExpositionStep : Exposition F → MapEvent (BitVec 64) F → Exposition F → Prop
  | record {w : Exposition F} {grow x u aggregator}
      (h : MapStep w.aggregator (.record grow x u) aggregator) :
      ExpositionStep w (.record grow x u)
        { w with aggregator, log := w.log ++ [.record grow x u] }
  | flush {w : Exposition F} {scan out aggregator exporter}
      (h : flushAndExport scan w.aggregator w.exporter = some (out, aggregator, exporter)) :
      ExpositionStep w (.flush scan out)
        ⟨aggregator, exporter, w.log ++ [.flush scan out], w.texts ++ [exporter.getMetricsText]⟩

/-! ### What the types promise -/

/-- The ids of `{name}_total` and the like, for the series of a call. -/
def idsOf (e : PrometheusExporter F) (c : Series × Update (BitVec 64) F) : List Text :=
  growingIds e c.1.aggKey c.2.kind

/-- A histogram has the value of the call: it is not NaN. -/
def Update.Counted : Update (BitVec 64) F → Prop
  | .histogram value => FloatOps.isNaN value = false
  | _ => True

/-- What `text` owes the calls of `es` and the texts before it: a total is the
sum of all deltas, every growing value is there, and none is less than it was. -/
structure Cumulative (e : PrometheusExporter F) (es : List (MapEvent (BitVec 64) F))
    (texts : List Text) (text : Text) : Prop where
  total : ∀ c ∈ calls es, c.2.kind = .count → ∀ id ∈ idsOf e c,
    readings text id = [displayInt ((deltasOn c.1.key es).map BitVec.toInt).sum]
  grows : ∀ c ∈ calls es, c.2.Counted → ∀ id ∈ idsOf e c,
    ∃ ns ≠ [], readings text id = ns.map displayInt ∧ ∀ text' ∈ texts, ∃ ns',
      readings text' id = ns'.map displayInt ∧ (ns' = [] ∨ List.Forall₂ (· ≤ ·) ns' ns)

/-! ### When they keep it -/

/-- The slots a run may use: each series of one kind, with a key and ids of its
own, a name and tags that stay on their line and no comment's. -/
structure Exposable (e : PrometheusExporter F) (S : Set (Series × MetricKind)) : Prop where
  kinds : ∀ c ∈ S, c.2 ≠ .gauge
  keys : ∀ c ∈ S, ∀ c' ∈ S, c.1.key = c'.1.key → c = c'
  ids : ∀ c ∈ S, ∀ c' ∈ S, ∀ id ∈ sampleIds e c.1.aggKey c.2, id ∈ sampleIds e c'.1.aggKey c'.2 →
    c = c'
  name : ∀ c ∈ S, '\n' ∉ e.fullName c.1.namespacePath c.1.metricName.text ∧
    (e.fullName c.1.namespacePath c.1.metricName.text).head? ≠ some '#'
  tags : ∀ c ∈ S, ∀ p ∈ c.1.pairs, '\n' ∉ p.1 ∧ '\n' ∉ p.2

/-- A flush reports the slot. -/
def PlainSlot.Reportable : PlainSlot (BitVec 64) F → Prop
  | .count _ => True
  | .gauge value => FloatBits.toBits value ≠ GaugeSlot.unset
  | .histogram values => ∃ value ∈ values, FloatOps.isNaN value = false

omit [FloatBits F] in
/-- `later` makes up for `slot`, which an earlier flush took: there was nothing
to it, or the same values came again. -/
def Keeps : PlainSlot (BitVec 64) F → PlainSlot (BitVec 64) F → Prop
  | .count deltas, .count _ => ∀ delta ∈ deltas, delta = 0
  | .histogram values, .histogram later =>
    (values.filter fun v => !FloatOps.isNaN v) = later.filter fun v => !FloatOps.isNaN v
  | _, _ => False

/-- A flush may come: nothing waits to be reported, or under every key that has
been reported something that makes up for it each time. -/
def Covered (es : List (MapEvent (BitVec 64) F)) : Prop :=
  (∀ k, ∀ v ∈ (ledger es).pending k, ¬ v.2.Reportable) ∨
    ∀ k, ∀ v ∈ (ledger es).past k, v.2.Reportable →
      ∃ v' ∈ (ledger es).pending k, v'.2.Reportable ∧ Keeps v.2 v'.2

/-- The condition on a step: a call is of a slot of `S` and finds what is stored
for it, a flush is covered. -/
def Sound (S : Set (Series × MetricKind)) (w : Exposition F) : MapEvent (BitVec 64) F → Prop
  | .record grow x u => (x, u.kind) ∈ S ∧ Filed w.aggregator (.record grow x u)
  | .flush _ _ => Covered w.log

/-- No delta is negative and no sum of deltas leaves `i64`. -/
structure Counters (es : List (MapEvent (BitVec 64) F)) : Prop where
  nonneg : ∀ k, ∀ delta ∈ deltasOn k es, 0 ≤ delta.toInt
  bounded : ∀ k, ((deltasOn k es).map BitVec.toInt).sum < 2 ^ 63

/-! ### What a text shows -/

/-- The text shows `value` for the series of a slot. -/
def Displays (e : PrometheusExporter F) (c : Series × MetricKind) (value : FlushedValue (BitVec 64) F)
    (text : Text) : Prop :=
  ∃ ns, growingNumbers e value = some ns ∧ ns.length = (growingIds e c.1.aggKey c.2).length ∧
    ∀ id ∈ growingIds e c.1.aggKey c.2,
      readings text id = (select (growingIds e c.1.aggKey c.2) ns id).map displayInt

def Absent (e : PrometheusExporter F) (c : Series × MetricKind) (text : Text) : Prop :=
  ∀ id ∈ growingIds e c.1.aggKey c.2, readings text id = []

/-- What the flushes have reported under `k`. -/
def reported (mb : ℕ) (ε : F) (es : List (MapEvent (BitVec 64) F)) (k : UInt64) :
    List (FlushedValue (BitVec 64) F) :=
  ((ledger es).past k).filterMap fun v => v.2.report mb ε

/-- The later report shows no less: the earlier is 0, or the same again. -/
def Repeats : FlushedValue (BitVec 64) F → FlushedValue (BitVec 64) F → Prop
  | .count value, .count _ => value = 0
  | .histogram sketch, .histogram later => sketch = later
  | _, _ => False

/-- A slot of the map is reported just when it is reportable. -/
theorem report_isSome_iff {mb : ℕ} {ε : F} {slot : AggSlot (BitVec 64) F}
    {p : PlainSlot (BitVec 64) F} (h : SlotMatches mb ε slot p) :
    (p.report mb ε).isSome ↔ p.Reportable := by
  cases p with
  | count deltas => simp [PlainSlot.report, PlainSlot.Reportable]
  | gauge value =>
    by_cases hv : FloatBits.toBits value = GaugeSlot.unset <;>
      simp [PlainSlot.report, PlainSlot.Reportable, hv]
  | histogram values =>
    have hall : values.all FloatOps.isNaN = true ↔
        ¬ ∃ value ∈ values, FloatOps.isNaN value = false := by simp
    cases slot with
    | histogram s =>
      have hs : sketchOf mb ε values = some s.sketch := h
      by_cases hnan : values.all FloatOps.isNaN = true
      · simp [PlainSlot.report, PlainSlot.Reportable, hnan, hall.mp hnan]
      · simp [PlainSlot.report, PlainSlot.Reportable, hnan, hs, not_not.mp (mt hall.mpr hnan)]
    | count s => exact h.elim
    | gauge s => exact h.elim

/-- **What makes up for a slot** is reported as what repeats its report. -/
theorem Keeps.repeats {mb : ℕ} {ε : F} {p p' : PlainSlot (BitVec 64) F}
    {value later : FlushedValue (BitVec 64) F} (h : Keeps p p') (hp : p.report mb ε = some value)
    (hp' : p'.report mb ε = some later) : Repeats value later := by
  cases p with
  | count deltas =>
    cases p' with
    | count deltas' =>
      obtain rfl := Option.some.inj hp
      obtain rfl := Option.some.inj hp'
      exact List.sum_eq_zero h
    | gauge value => exact h.elim
    | histogram values => exact h.elim
  | gauge value => exact h.elim
  | histogram values =>
    cases p' with
    | histogram values' =>
      have hsame : sketchOf mb ε values = sketchOf mb ε values' := by
        rw [← sketchOf_filter, show List.filter _ values = _ from h, sketchOf_filter]
      simp only [PlainSlot.report] at hp hp'
      split_ifs at hp hp'
      obtain ⟨sketch, hs, rfl⟩ := Option.map_eq_some_iff.mp hp
      obtain ⟨sketch', hs', rfl⟩ := Option.map_eq_some_iff.mp hp'
      exact Option.some.inj (hs.symm.trans (hsame.trans hs'))
    | count deltas => exact h.elim
    | gauge value => exact h.elim

/-- What the plain map has is of the slots of `S`. -/
def Owned (S : Set (Series × MetricKind)) (k : UInt64) (v : AggKey × PlainSlot (BitVec 64) F) : Prop :=
  ∃ c ∈ S, c.1.key = k ∧ v.1 = c.1.aggKey ∧ v.2.kind = c.2

/-- A metric the plain map reports is of a slot of `S`. -/
theorem report_owned {S : Set (Series × MetricKind)} {mb : ℕ} {ε : F} {m : PlainMap (BitVec 64) F}
    (hm : ∀ k v, m k = some v → Owned S k v) {k : UInt64} {metric : FlushedMetric (BitVec 64) F}
    (h : m.report mb ε k = some metric) :
    ∃ c ∈ S, c.1.key = k ∧ metric.aggKey = c.1.aggKey ∧ metric.value.kind = c.2 := by
  obtain ⟨v, hv, h⟩ := Option.bind_eq_some_iff.mp h
  obtain ⟨value, hvalue, rfl⟩ := Option.map_eq_some_iff.mp h
  obtain ⟨c, hc, hkey, hagg, hkind⟩ := hm k v hv
  exact ⟨c, hc, hkey, hagg, (PlainSlot.report_kind hvalue).trans hkind⟩

/-- **The text of a flush** shows what the plain map reports. -/
theorem displays_of_reports {e : PrometheusExporter F} {S : Set (Series × MetricKind)} {mb : ℕ} {ε : F}
    {m : PlainMap (BitVec 64) F} {out : List (FlushedMetric (BitVec 64) F)} {text : Text}
    (hS : Exposable e S) (hm : ∀ k v, m k = some v → Owned S k v) (hr : m.Reports mb ε out)
    (h : e.render out = some text) {c : Series × MetricKind} (hc : c ∈ S) :
    (m.report mb ε c.1.key = none ∧ Absent e c text) ∨
    ∃ metric, m.report mb ε c.1.key = some metric ∧ Displays e c metric.value text := by
  obtain ⟨ks, hnd, hks, rfl⟩ := hr
  have hleg : ∀ k metric, m.report mb ε k = some metric → ∀ f, e.family metric = some f →
      f.Legible := by
    intro k metric hmet f hf
    obtain ⟨c', hc', -, hagg, -⟩ := report_owned hm hmet
    obtain ⟨hpath, hname, htags⟩ := AggKey.mk.inj hagg
    have hpairs : metric.tags.pairs = c'.1.pairs := congrArg TagsData.pairs htags
    refine family_legible hf ?_ ?_ ?_
    · rw [hpath, hname]
      exact (hS.name c' hc').1
    · rw [hpath, hname]
      exact (hS.name c' hc').2
    · rw [hpairs]
      exact hS.tags c' hc'
  have hread : ∀ id ∈ growingIds e c.1.aggKey c.2, readings text id =
      (m.report mb ε c.1.key).elim [] (e.valuesOf id) := by
    intro id hid
    refine readings_batch hnd hks hleg h fun k hk metric hmet hmem => ?_
    obtain ⟨c', hc', hkey, hagg, hkind⟩ := report_owned hm hmet
    rw [hagg, hkind] at hmem
    obtain rfl := hS.ids c hc c' hc' id (growing_subset e _ _ hid) hmem
    exact hk hkey.symm
  rcases hmet : m.report mb ε c.1.key with _ | metric
  · rw [hmet] at hread
    exact .inl ⟨rfl, hread⟩
  · obtain ⟨c', hc', hkey, hagg, hkind⟩ := report_owned hm hmet
    obtain rfl := hS.keys c' hc' c hc hkey
    have hmem : metric ∈ ks.filterMap (m.report mb ε) :=
      List.mem_filterMap.mpr ⟨c'.1.key, (hks _).mpr (by simp [hmet]), hmet⟩
    have hfam := (readings_render (fun metric hmetric =>
      let ⟨k, _, hk⟩ := List.mem_filterMap.mp hmetric
      hleg k metric hk) h []).1 metric hmem
    obtain ⟨f, hf⟩ := Option.isSome_iff_exists.mp hfam
    obtain ⟨ns, hns, hlen, hvalues⟩ := family_growing hf
    rw [hagg, hkind] at hlen hvalues
    refine .inr ⟨metric, rfl, ns, hns, hlen, fun id hid => ?_⟩
    rw [hread id hid, hmet, Option.elim_some, PrometheusExporter.valuesOf, hf, Option.elim_some]
    exact hvalues id hid

/-! ### The invariant -/

/-- After the events `es` the map is the plain one, each text shows reports of
the flushes, and the last text shows the last report of every key. -/
structure Shown (e : PrometheusExporter F) (S : Set (Series × MetricKind)) (mb : ℕ) (ε : F)
    (es : List (MapEvent (BitVec 64) F)) (w : Exposition F) : Prop where
  refines : Refines mb ε w.aggregator (plain es)
  log : w.log = es
  exporter : w.exporter = { e with latest := w.exporter.latest }
  calls : ∀ c ∈ calls es, (c.1, c.2.kind) ∈ S
  matched : ∀ k, ∀ v ∈ (ledger es).past k, ∃ slot, SlotMatches mb ε slot v.2
  texts : ∀ text ∈ w.texts, ∀ c ∈ S,
    Absent e c text ∨ ∃ value ∈ reported mb ε es c.1.key, Displays e c value text
  latest : ∀ c ∈ S, (reported mb ε es c.1.key = [] ∧ Absent e c w.exporter.latest) ∨
    ∃ before last, reported mb ε es c.1.key = before ++ [last] ∧
      Displays e c last w.exporter.latest ∧ ∀ value ∈ before, Repeats value last

omit [FloatBits F] in
theorem accounts_of_calls {e : PrometheusExporter F} {S : Set (Series × MetricKind)}
    {es : List (MapEvent (BitVec 64) F)} (hS : Exposable e S)
    (hcalls : ∀ c ∈ calls es, (c.1, c.2.kind) ∈ S) : Accounts es := by
  refine accounts es (fun c hc c' hc' hkey => ?_) fun c hc => hS.kinds _ (hcalls c hc)
  have heq := hS.keys _ (hcalls c hc) _ (hcalls c' hc') hkey
  exact Prod.mk.inj heq

theorem Shown.owned {e : PrometheusExporter F} {S : Set (Series × MetricKind)} {mb : ℕ} {ε : F}
    {es : List (MapEvent (BitVec 64) F)} {w : Exposition F} (hS : Exposable e S)
    (h : Shown e S mb ε es w) : ∀ k v, plain es k = some v → Owned S k v := by
  intro k v hv
  rw [← ledger_pending] at hv
  obtain ⟨c, hc, hkey, hagg, hkind⟩ := (accounts_of_calls hS h.calls).owned k v
    (List.mem_append_right _ (Option.mem_toList.mpr hv))
  exact ⟨_, h.calls c hc, hkey, hagg, hkind⟩

theorem reported_record {mb : ℕ} {ε : F} {es : List (MapEvent (BitVec 64) F)} {grow x u} (k : UInt64) :
    reported mb ε (es ++ [.record grow x u]) k = reported mb ε es k := by
  rw [reported, ledger_snoc]
  rfl

theorem reported_flush {mb : ℕ} {ε : F} {es : List (MapEvent (BitVec 64) F)} {scan out} (k : UInt64) :
    reported mb ε (es ++ [.flush scan out]) k =
      reported mb ε es k ++ (((plain es).report mb ε k).map FlushedMetric.value).toList := by
  have hpast : (ledger (es ++ [.flush scan out])).past k =
      (ledger es).past k ++ (plain es k).toList := by
    rw [ledger_snoc, ← ledger_pending]
    rfl
  rw [reported, hpast, List.filterMap_append, reported, PlainMap.report]
  congr 1
  rcases plain es k with _ | v
  · rfl
  · rcases hv : v.2.report mb ε with _ | value
    · simp [hv]
    · simp [hv]

omit [FloatBits F] in
theorem readings_nil (id : Text) : readings [] id = [] := by
  have hlines : Delimited.lines '\n' (Delimited.unlines '\n' []) = [] :=
    Delimited.lines_unlines_iff.mpr nofun
  exact congrArg (List.filterMap (reading id)) hlines

theorem shown_init {e : PrometheusExporter F} {S : Set (Series × MetricKind)} (makeHash) (mb : ℕ)
    (ε : F) : Shown e S mb ε [] (.init makeHash mb ε e) where
  refines := refines_new makeHash mb ε
  log := rfl
  exporter := rfl
  calls := nofun
  matched := nofun
  texts := nofun
  latest _ _ := .inl ⟨rfl, fun id _ => readings_nil id⟩

theorem shown_record {e : PrometheusExporter F} {S : Set (Series × MetricKind)} {mb : ℕ} {ε : F}
    {es : List (MapEvent (BitVec 64) F)} {w : Exposition F} {grow x u aggregator}
    (h : MapStep w.aggregator (.record grow x u) aggregator)
    (hs : Sound S w (.record grow x u)) (hw : Shown e S mb ε es w) :
    Shown e S mb ε (es ++ [.record grow x u])
      { w with aggregator, log := w.log ++ [.record grow x u] } where
  refines := by
    rw [plain, List.foldl_append]
    exact refines_step h hs.2 hw.refines
  log := by rw [hw.log]
  exporter := hw.exporter
  calls := by
    intro c hc
    rw [calls_append] at hc
    rcases List.mem_append.mp hc with hc | hc
    · exact hw.calls c hc
    · rw [List.mem_singleton.mp hc]
      exact hs.1
  matched := by
    rw [ledger_snoc]
    exact hw.matched
  texts := by
    intro text ht c hc
    rw [reported_record]
    exact hw.texts text ht c hc
  latest := by
    intro c hc
    rw [reported_record]
    exact hw.latest c hc

omit [FloatBits F] in
/-- The last text has no part in the next one. -/
theorem render_latest (e : PrometheusExporter F) (text : Text)
    (out : List (FlushedMetric (BitVec 64) F)) :
    PrometheusExporter.render { e with latest := text } out = e.render out := by
  have hlines : PrometheusExporter.renderLines { e with latest := text } out = e.renderLines out := by
    induction out with
    | nil => rfl
    | cons metric out ih =>
      rw [PrometheusExporter.renderLines, ih]
      rfl
  rw [PrometheusExporter.render, hlines]
  rfl

/-- What a flush does to map and exporter. -/
theorem flushAndExport_cases {scan} {aggregator aggregator' : StripedAggMap (BitVec 64) F}
    {exporter exporter' : PrometheusExporter F} {out}
    (h : flushAndExport scan aggregator exporter = some (out, aggregator', exporter')) :
    aggregator.flush scan = (out, aggregator') ∧
      ((out = [] ∧ exporter' = exporter) ∨
        out ≠ [] ∧ ∃ text, exporter.render out = some text ∧ exporter' = { exporter with latest := text }) := by
  unfold flushAndExport at h
  rcases hf : aggregator.flush scan with ⟨metrics, aggregator₁⟩
  rw [hf] at h
  by_cases hempty : metrics.isEmpty
  · simp only [hempty, if_true] at h
    obtain ⟨rfl, rfl, rfl⟩ := Prod.mk.inj (Option.some.inj h) |>.imp id Prod.mk.inj
    exact ⟨rfl, .inl ⟨List.isEmpty_iff.mp hempty, rfl⟩⟩
  · simp only [hempty] at h
    obtain ⟨exporter₁, hexp, h⟩ := Option.bind_eq_some_iff.mp h
    obtain ⟨text, htext, hexp⟩ := Option.bind_eq_some_iff.mp hexp
    obtain ⟨rfl, rfl, rfl⟩ := Prod.mk.inj (Option.some.inj h) |>.imp id Prod.mk.inj
    exact ⟨rfl, .inr ⟨fun hnil => hempty (List.isEmpty_iff.mpr hnil), text, htext,
      (Option.some.inj hexp).symm⟩⟩

/-- Nothing put out, nothing to report. -/
theorem report_eq_none {mb : ℕ} {ε : F} {m : PlainMap (BitVec 64) F} (h : m.Reports mb ε [])
    (k : UInt64) : m.report mb ε k = none := by
  obtain ⟨ks, -, hks, hout⟩ := h
  rcases hk : m.report mb ε k with _ | metric
  · rfl
  · have hmem : metric ∈ ks.filterMap (m.report mb ε) :=
      List.mem_filterMap.mpr ⟨k, (hks k).mpr (by simp [hk]), hk⟩
    rw [← hout] at hmem
    exact absurd hmem List.not_mem_nil

theorem Shown.waiting {e : PrometheusExporter F} {S : Set (Series × MetricKind)} {mb : ℕ} {ε : F}
    {es : List (MapEvent (BitVec 64) F)} {w : Exposition F} (hw : Shown e S mb ε es w) {k : UInt64} :
    ∀ v ∈ (ledger es).pending k, ∃ slot, SlotMatches mb ε slot v.2 := by
  intro v hv
  rw [ledger_pending] at hv
  have hbag := hw.refines.bags k
  rw [hv] at hbag
  generalize w.aggregator.bagOf k = bag at hbag
  cases hbag with
  | some hslot => exact ⟨_, hslot⟩

theorem report_pending {mb : ℕ} {ε : F} {es : List (MapEvent (BitVec 64) F)} {k : UInt64}
    {v : AggKey × PlainSlot (BitVec 64) F} (hv : v ∈ (ledger es).pending k) :
    (plain es).report mb ε k = (v.2.report mb ε).map fun value =>
      ⟨v.1.namespacePath, v.1.metricName, v.1.tagsData, value⟩ := by
  rw [ledger_pending] at hv
  rw [PlainMap.report, hv, Option.bind_some]

/-- **A covered flush** that has something to report repeats every report. -/
theorem Shown.again {e : PrometheusExporter F} {S : Set (Series × MetricKind)} {mb : ℕ} {ε : F}
    {es : List (MapEvent (BitVec 64) F)} {w : Exposition F} (hw : Shown e S mb ε es w)
    (hcovered : Covered es) (hsome : ¬ ∀ k, (plain es).report mb ε k = none) {k : UInt64}
    {value : FlushedValue (BitVec 64) F} (hvalue : value ∈ reported mb ε es k) :
    ∃ m, (plain es).report mb ε k = some m ∧ Repeats value m.value := by
  rcases hcovered with hnone | hagain
  · refine absurd (fun k => ?_) hsome
    rcases hv : (ledger es).pending k with _ | v
    · rw [ledger_pending] at hv
      rw [PlainMap.report, hv, Option.bind_none]
    · obtain ⟨slot, hslot⟩ := hw.waiting v hv
      rw [report_pending hv, Option.map_eq_none_iff, ← Option.not_isSome_iff_eq_none,
        report_isSome_iff hslot]
      exact hnone k v hv
  · obtain ⟨v, hv, hreport⟩ := List.mem_filterMap.mp hvalue
    obtain ⟨slot, hslot⟩ := hw.matched k v hv
    obtain ⟨v', hv', hrep, hkeeps⟩ :=
      hagain k v hv ((report_isSome_iff hslot).mp (Option.isSome_of_eq_some hreport))
    obtain ⟨slot', hslot'⟩ := hw.waiting v' hv'
    obtain ⟨later, hlater⟩ := Option.isSome_iff_exists.mp ((report_isSome_iff hslot').mpr hrep)
    refine ⟨⟨v'.1.namespacePath, v'.1.metricName, v'.1.tagsData, later⟩, ?_,
      hkeeps.repeats hreport hlater⟩
    rw [report_pending hv', hlater, Option.map_some]

/-- What the text shows after a flush: of every series the last report. -/
theorem Shown.latest_flush {e : PrometheusExporter F} {S : Set (Series × MetricKind)} {mb : ℕ} {ε : F}
    {es : List (MapEvent (BitVec 64) F)} {w : Exposition F} {scan out aggregator exporter}
    (hS : Exposable e S)
    (h : flushAndExport scan w.aggregator w.exporter = some (out, aggregator, exporter))
    (hcovered : Covered es) (hw : Shown e S mb ε es w) :
    ∀ c ∈ S, (reported mb ε (es ++ [.flush scan out]) c.1.key = [] ∧ Absent e c exporter.latest) ∨
      ∃ before last, reported mb ε (es ++ [.flush scan out]) c.1.key = before ++ [last] ∧
        Displays e c last exporter.latest ∧ ∀ value ∈ before, Repeats value last := by
  obtain ⟨hflush, hexport⟩ := flushAndExport_cases h
  obtain ⟨hreports, hrefines⟩ := refines_flush hflush hw.refines
  intro c hc
  rw [reported_flush]
  rcases hexport with ⟨rfl, rfl⟩ | ⟨hne, text, htext, rfl⟩
  · -- the text stays, and there was nothing to report
    rw [report_eq_none hreports, Option.map_none, Option.toList_none, List.append_nil]
    exact hw.latest c hc
  · rw [hw.exporter, render_latest] at htext
    have hagain : ∀ k, ∀ value ∈ reported mb ε es k,
        ∃ m, (plain es).report mb ε k = some m ∧ Repeats value m.value := by
      intro k value hvalue
      refine hw.again hcovered (fun hnone => hne ?_) hvalue
      obtain ⟨ks, -, -, rfl⟩ := hreports
      exact List.filterMap_eq_nil_iff.mpr fun k _ => hnone k
    rcases displays_of_reports hS (hw.owned hS) hreports htext hc with
      ⟨hnone, habsent⟩ | ⟨metric, hsome, hdisplays⟩
    · refine .inl ⟨?_, habsent⟩
      rw [hnone, Option.map_none, Option.toList_none, List.append_nil]
      refine List.eq_nil_iff_forall_not_mem.mpr fun value hvalue => ?_
      obtain ⟨m, hm, -⟩ := hagain _ value hvalue
      rw [hnone] at hm
      cases hm
    · refine .inr ⟨_, metric.value, by rw [hsome]; rfl, hdisplays, fun value hvalue => ?_⟩
      obtain ⟨m, hm, hkeeps⟩ := hagain _ value hvalue
      obtain rfl := Option.some.inj (hsome.symm.trans hm)
      exact hkeeps

theorem shown_flush {e : PrometheusExporter F} {S : Set (Series × MetricKind)} {mb : ℕ} {ε : F}
    {es : List (MapEvent (BitVec 64) F)} {w : Exposition F} {scan out aggregator exporter}
    (hS : Exposable e S)
    (h : flushAndExport scan w.aggregator w.exporter = some (out, aggregator, exporter))
    (hs : Covered w.log)
    (hw : Shown e S mb ε es w) :
    Shown e S mb ε (es ++ [.flush scan out])
      ⟨aggregator, exporter, w.log ++ [.flush scan out], w.texts ++ [exporter.getMetricsText]⟩ := by
  obtain ⟨hflush, hexport⟩ := flushAndExport_cases h
  obtain ⟨hreports, hrefines⟩ := refines_flush hflush hw.refines
  have hplain : plain (es ++ [.flush scan out]) = (plain es).flush := by
    rw [plain, List.foldl_append]
    rfl
  have hlatest := hw.latest_flush hS h (hw.log ▸ hs)
  refine ⟨by rwa [hplain], by rw [hw.log], ?_, ?_, ?_, ?_, hlatest⟩
  · rcases hexport with ⟨-, rfl⟩ | ⟨-, text, -, rfl⟩
    · exact hw.exporter
    · rw [hw.exporter]
  · intro c hc
    rw [calls_append] at hc
    exact hw.calls c (by simpa [calls] using hc)
  · intro k v hv
    rw [ledger_snoc] at hv
    rcases List.mem_append.mp hv with hv | hv
    · exact hw.matched k v hv
    · exact hw.waiting v (Option.mem_toList.mp hv)
  · intro text ht c hc
    rcases List.mem_append.mp ht with ht | ht
    · rw [reported_flush]
      refine (hw.texts text ht c hc).imp_right ?_
      rintro ⟨value, hvalue, hd⟩
      exact ⟨value, List.mem_append_left _ hvalue, hd⟩
    · rw [List.mem_singleton.mp ht]
      refine (hlatest c hc).imp And.right ?_
      rintro ⟨before, last, hrep, hd, -⟩
      exact ⟨last, by rw [hrep]; simp, hd⟩

theorem shown_run {e : PrometheusExporter F} {S : Set (Series × MetricKind)} (hS : Exposable e S)
    {makeHash} {mb : ℕ} {ε : F} {es : List (MapEvent (BitVec 64) F)} {w : Exposition F}
    (h : Run (Where ExpositionStep (Sound S)) (.init makeHash mb ε e) es w) :
    Shown e S mb ε es w := by
  refine h.inv (I := fun es w => Shown e S mb ε es w) (shown_init makeHash mb ε) ?_
  intro es w a w' hw hstep
  obtain ⟨hstep, hsound⟩ := hstep
  cases hstep with
  | record h => exact shown_record h hsound hw
  | flush h => exact shown_flush hS h hsound hw

/-! ### The promise kept -/

/-- No wrapping: the sum of the words is the word of the sum. -/
theorem toInt_sum : ∀ {deltas : List (BitVec 64)}, (∀ delta ∈ deltas, 0 ≤ delta.toInt) →
    (deltas.map BitVec.toInt).sum < 2 ^ 63 → deltas.sum.toInt = (deltas.map BitVec.toInt).sum
  | [], _, _ => rfl
  | delta :: deltas, hpos, hlt => by
    have hd := hpos delta List.mem_cons_self
    have hds : ∀ delta ∈ deltas, 0 ≤ delta.toInt := fun d hd => hpos d (List.mem_cons_of_mem _ hd)
    have hsum : 0 ≤ (deltas.map BitVec.toInt).sum := List.sum_nonneg (by simpa using hds)
    rw [List.map_cons, List.sum_cons] at hlt ⊢
    have ih := toInt_sum hds (by omega)
    rw [List.sum_cons, BitVec.toInt_add, ih]
    exact Int.bmod_eq_of_le (by omega) (by omega)

/-- The sum of the reports of counts is that of their deltas. -/
theorem sum_reports (mb : ℕ) (ε : F) : ∀ {slots : List (AggKey × PlainSlot (BitVec 64) F)},
    (∀ v ∈ slots, v.2.kind = .count) →
    ((slots.filterMap fun v => v.2.report mb ε).map FlushedValue.countValue).sum =
      (slots.flatMap fun v => v.2.deltas).sum
  | [], _ => rfl
  | (a, p) :: slots, h => by
    have ih := sum_reports mb ε fun v hv => h v (List.mem_cons_of_mem _ hv)
    cases p with
    | count deltas =>
      rw [List.flatMap_cons, List.sum_append, ← ih]
      rfl
    | gauge value => cases h _ List.mem_cons_self
    | histogram values => cases h _ List.mem_cons_self

/-- A slot that has a value is reportable. -/
theorem reportable_of_has {p : PlainSlot (BitVec 64) F}
    {u : Update (BitVec 64) F} (hu : u.Counted) (h : p.Has u) : p.Reportable := by
  cases p with
  | count deltas => trivial
  | gauge value => exact h.elim
  | histogram values =>
    cases u with
    | count delta => exact h.elim
    | gauge value => exact h.elim
    | histogram value => exact ⟨value, h, hu⟩

section

variable {e : PrometheusExporter F} {S : Set (Series × MetricKind)} {mb : ℕ} {ε : F}
  {es : List (MapEvent (BitVec 64) F)} {w : Exposition F}

/-- Every slot a flush took is of the kind of its key. -/
theorem Shown.past_kind (hS : Exposable e S) (hw : Shown e S mb ε es w) {c : Series × MetricKind}
    (hc : c ∈ S) : ∀ v ∈ (ledger es).past c.1.key, v.2.kind = c.2 := by
  intro v hv
  obtain ⟨c', hc', hkey, -, hkind⟩ := (accounts_of_calls hS hw.calls).owned _ v
    (List.mem_append_left _ hv)
  rw [hkind, ← hS.keys _ (hw.calls c' hc') c hc hkey]

theorem Shown.reported_kind (hS : Exposable e S) (hw : Shown e S mb ε es w) {c : Series × MetricKind}
    (hc : c ∈ S) : ∀ value ∈ reported mb ε es c.1.key, value.kind = c.2 := by
  intro value hvalue
  obtain ⟨v, hv, hreport⟩ := List.mem_filterMap.mp hvalue
  rw [PlainSlot.report_kind hreport, hw.past_kind hS hc v hv]

omit [FloatText F] [FloatBits F] in
theorem eq_count_of_kind [FloatOps F] {value : FlushedValue (BitVec 64) F} (h : value.kind = .count) :
    value = .count value.countValue := by
  cases value with
  | count value => rfl
  | gauge value => cases h
  | histogram sketch => cases h

omit [FloatBits F] in
theorem Repeats.countValue {value later : FlushedValue (BitVec 64) F} (hk : value.kind = .count)
    (h : Repeats value later) : value.countValue = 0 := by
  rw [eq_count_of_kind hk] at h
  cases later with
  | count later => exact h
  | gauge later => exact h.elim
  | histogram later => exact h.elim

/-- **The last report of a counter** is the sum of all its deltas, all others being 0. -/
theorem Shown.last_count (hS : Exposable e S) (hw : Shown e S mb ε es w)
    (hidle : ∀ k, (ledger es).pending k = none) {c : Series × MetricKind} (hc : c ∈ S)
    (hcount : c.2 = .count) {before : List (FlushedValue (BitVec 64) F)} {last}
    (hrep : reported mb ε es c.1.key = before ++ [last]) (hkeep : ∀ value ∈ before, Repeats value last) :
    last = .count (deltasOn c.1.key es).sum := by
  have hkind := hw.reported_kind hS hc
  rw [hcount, hrep] at hkind
  have hslots := hw.past_kind hS hc
  rw [hcount] at hslots
  have hzero : (before.map FlushedValue.countValue).sum = 0 := by
    refine List.sum_eq_zero fun value hvalue => ?_
    obtain ⟨v, hv, rfl⟩ := List.mem_map.mp hvalue
    exact (hkeep v hv).countValue (hkind v (List.mem_append_left _ hv))
  have hdeltas : ((ledger es).past c.1.key).flatMap (fun v => v.2.deltas) = deltasOn c.1.key es := by
    rw [← (accounts_of_calls hS hw.calls).deltas, Ledger.held, hidle, Option.toList_none,
      List.append_nil]
  have hsum : last.countValue = (deltasOn c.1.key es).sum := by
    calc last.countValue
        = ((before ++ [last]).map FlushedValue.countValue).sum := by
          rw [List.map_append, List.sum_append, hzero, zero_add, List.map_singleton,
            List.sum_singleton]
      _ = (((ledger es).past c.1.key).flatMap fun v => v.2.deltas).sum := by
          rw [← hrep]
          exact sum_reports mb ε hslots
      _ = (deltasOn c.1.key es).sum := by rw [hdeltas]
  rw [← hsum]
  exact eq_count_of_kind (hkind last (by simp))

/-- What was shown before is no more than what the last report shows. -/
theorem numbers_le (hS : Exposable e S) (hw : Shown e S mb ε es w)
    (hidle : ∀ k, (ledger es).pending k = none) (hes : Counters es) {c : Series × MetricKind}
    (hc : c ∈ S) {before : List (FlushedValue (BitVec 64) F)} {last value}
    (hrep : reported mb ε es c.1.key = before ++ [last]) (hkeep : ∀ value ∈ before, Repeats value last)
    (hvalue : value ∈ reported mb ε es c.1.key) {ns ns' : List ℤ}
    (hns : growingNumbers e value = some ns) (hns' : growingNumbers e last = some ns') :
    List.Forall₂ (· ≤ ·) ns ns' := by
  have hkind := hw.reported_kind hS hc
  rw [hrep] at hvalue hkind
  rcases List.mem_append.mp hvalue with hv | hv
  · have hk := hkeep value hv
    have hvk := hkind value hvalue
    cases value with
    | count value =>
      obtain rfl : value = 0 := hk.countValue rfl
      have hlast := hw.last_count hS hidle hc hvk.symm hrep hkeep
      have hpos := toInt_sum (hes.nonneg c.1.key) (hes.bounded c.1.key)
      have hsum : 0 ≤ ((deltasOn c.1.key es).map BitVec.toInt).sum :=
        List.sum_nonneg (by simpa using hes.nonneg c.1.key)
      rw [hlast] at hns'
      obtain rfl := Option.some.inj hns
      obtain rfl := Option.some.inj hns'
      exact .cons (by rw [hpos]; exact hsum) .nil
    | gauge value => exact absurd hvk.symm (hS.kinds c hc)
    | histogram sketch =>
      cases last with
      | histogram later =>
        obtain rfl : sketch = later := hk
        obtain rfl := Option.some.inj (hns.symm.trans hns')
        exact List.forall₂_same.mpr fun n _ => le_refl n
      | count value => exact hk.elim
      | gauge value => exact hk.elim
  · obtain rfl := List.mem_singleton.mp hv
    obtain rfl := Option.some.inj (hns.symm.trans hns')
    exact List.forall₂_same.mpr fun n _ => le_refl n

end

/-- **What the types promise is kept** over a run all of whose flushes are
covered and whose calls find what is stored. -/
theorem texts_cumulative {e : PrometheusExporter F} {S : Set (Series × MetricKind)} {makeHash}
    {mb : ℕ} {ε : F} {es : List (MapEvent (BitVec 64) F)} {scan out} {w : Exposition F}
    (hS : Exposable e S) (hes : Counters es)
    (h : Run (Where ExpositionStep (Sound S)) (.init makeHash mb ε e) (es ++ [.flush scan out]) w) :
    Cumulative e es w.texts w.exporter.getMetricsText := by
  have hw := shown_run hS h
  have hcalls : calls (es ++ [.flush scan out]) = calls es := by
    rw [calls_append]
    exact List.append_nil _
  have hdeltas : ∀ k, deltasOn k (es ++ [MapEvent.flush scan out]) = deltasOn k es := by
    intro k
    rw [deltasOn_append]
    exact List.append_nil _
  have hidle : ∀ k, (ledger (es ++ [MapEvent.flush scan out])).pending k = none := by
    have hes : Accounts es := accounts_of_calls hS fun c hc => hw.calls c (by rwa [hcalls])
    exact pending_flush (fun c hc => hS.kinds _ (hw.calls c (by rwa [hcalls]))) hes.owned scan out
  have hes' : Counters (es ++ [.flush scan out]) :=
    ⟨fun k => by rw [hdeltas]; exact hes.nonneg k, fun k => by rw [hdeltas]; exact hes.bounded k⟩
  -- every call is in a report, and the text shows the last one
  have hlast : ∀ c ∈ calls es, c.2.Counted → ∃ before last,
      reported mb ε (es ++ [.flush scan out]) c.1.key = before ++ [last] ∧
      Displays e (c.1, c.2.kind) last w.exporter.latest ∧ ∀ value ∈ before, Repeats value last := by
    intro c hc hcounted
    rw [← hcalls] at hc
    obtain ⟨v, hv, hhas⟩ := (accounts_of_calls hS hw.calls).covers c hc
    rw [Ledger.held, hidle, Option.toList_none, List.append_nil] at hv
    obtain ⟨slot, hslot⟩ := hw.matched _ v hv
    obtain ⟨value, hvalue⟩ := Option.isSome_iff_exists.mp
      ((report_isSome_iff hslot).mpr (reportable_of_has hcounted hhas))
    refine (hw.latest _ (hw.calls c hc)).resolve_left fun hnone => ?_
    have hmem : value ∈ reported mb ε (es ++ [.flush scan out]) c.1.key :=
      List.mem_filterMap.mpr ⟨v, hv, hvalue⟩
    rw [hnone.1] at hmem
    exact List.not_mem_nil hmem
  refine ⟨fun c hc hkind id hid => ?_, fun c hc hcounted id hid => ?_⟩
  · have hcounted : c.2.Counted := by
      cases hu : c.2 with
      | count delta => trivial
      | gauge value => trivial
      | histogram value => rw [hu] at hkind; cases hkind
    obtain ⟨before, last, hrep, ⟨ns, hns, -, hread⟩, hkeep⟩ := hlast c hc hcounted
    have hsum := hw.last_count hS hidle (hw.calls c (by rwa [hcalls])) hkind hrep hkeep
    rw [hsum, hdeltas] at hns
    obtain rfl := Option.some.inj hns
    rw [← toInt_sum (hes.nonneg _) (hes.bounded _)]
    have hids : idsOf e c = [id] := by
      unfold idsOf at hid ⊢
      rw [hkind] at hid ⊢
      rw [List.mem_singleton.mp hid]
      rfl
    have hread := hread id hid
    rw [show growingIds e c.1.aggKey c.2.kind = [id] from hids] at hread
    simpa [select, PrometheusExporter.getMetricsText] using hread
  · obtain ⟨before, last, hrep, ⟨ns, hns, hlen, hread⟩, hkeep⟩ := hlast c hc hcounted
    refine ⟨_, select_ne_nil hlen hid, hread id hid, fun text ht => ?_⟩
    rcases hw.texts text ht _ (hw.calls c (by rwa [hcalls])) with habsent | ⟨value, hvalue, hshown⟩
    · exact ⟨[], habsent id hid, .inl rfl⟩
    · obtain ⟨ns', hns', -, hread'⟩ := hshown
      refine ⟨_, hread' id hid, .inr (select_mono id _ ?_)⟩
      exact numbers_le hS hw hidle hes' (hw.calls c (by rwa [hcalls])) hrep hkeep hvalue hns' hns

end

/-! ### Two flushes -/

/-- A count without namespace and tags. -/
def hits : Series := ⟨⟨4096, "hits".toList⟩, [], 0, []⟩

def hitsTotal : Text := "hits_total".toList

/-- A count call and a flush. -/
def countAndFlush (aggregator : StripedAggMap (BitVec 64) F64) (exporter : PrometheusExporter F64)
    (delta : BitVec 64) : Option (List (FlushedMetric (BitVec 64) F64) ×
      StripedAggMap (BitVec 64) F64 × PrometheusExporter F64) := do
  flushAndExport (fun _ => .id) (← aggregator.recordCount true hits delta) exporter

theorem countAndFlush_steps {w : Exposition F64} {delta out aggregator exporter}
    (h : countAndFlush w.aggregator w.exporter delta = some (out, aggregator, exporter)) :
    ∃ w₁, w₁.log = w.log ++ [.record true hits (.count delta)] ∧
      ExpositionStep w (.record true hits (.count delta)) w₁ ∧
      ExpositionStep w₁ (.flush (fun _ => .id) out) ⟨aggregator, exporter,
        w₁.log ++ [.flush (fun _ => .id) out], w.texts ++ [exporter.getMetricsText]⟩ := by
  obtain ⟨aggregator₁, hrecord, h⟩ := Option.bind_eq_some_iff.mp h
  exact ⟨_, rfl, .record (.count hrecord), .flush h⟩

abbrev atStart : Exposition F64 := .init (fun _ k => k) 200 0.001 .builder

theorem deltasOn_hits (k : UInt64) (delta : BitVec 64) (es : List (MapEvent (BitVec 64) F64)) :
    deltasOn k (.record true hits (.count delta) :: es) =
      if k = hits.key then delta :: deltasOn k es else deltasOn k es := by
  by_cases hk : k = hits.key
  · rw [if_pos hk, hk]
    exact if_pos rfl
  · rw [if_neg hk]
    exact if_neg (Ne.symm hk)

/-- **A total falls**: 5 and 3 are recorded with a flush after each, and the
second text has 3. -/
theorem total_falls : ∃ es scan out w,
    Run ExpositionStep atStart (es ++ [.flush scan out]) w ∧ Counters es ∧
      ¬ Cumulative .builder es w.texts w.exporter.getMetricsText := by
  have hview : ((countAndFlush atStart.aggregator atStart.exporter 5).bind fun w =>
      (countAndFlush w.2.1 w.2.2 3).map fun w =>
        readings w.2.2.getMetricsText hitsTotal) = some [['3']] := by
    decide +kernel
  obtain ⟨⟨out₁, aggregator₁, exporter₁⟩, h₁, hview⟩ := Option.bind_eq_some_iff.mp hview
  obtain ⟨⟨out₂, aggregator₂, exporter₂⟩, h₂, hread⟩ := Option.map_eq_some_iff.mp hview
  obtain ⟨v₁, -, hr₁, hf₁⟩ := countAndFlush_steps h₁
  obtain ⟨v₂, -, hr₂, hf₂⟩ := countAndFlush_steps (w := ⟨aggregator₁, exporter₁, _, _⟩) h₂
  have hdeltas : ∀ k, deltasOn k [MapEvent.record true hits (.count 5),
      .flush (fun _ => .id) out₁, .record true hits (.count 3)] =
      if k = hits.key then [5, 3] else [] := by
    intro k
    have hskip : ∀ es, deltasOn k (.flush (fun _ => .id) out₁ :: es) = deltasOn k es := fun _ => rfl
    rw [deltasOn_hits, hskip, deltasOn_hits]
    split_ifs <;> rfl
  refine ⟨[.record true hits (.count 5), .flush (fun _ => .id) out₁, .record true hits (.count 3)],
    _, out₂, _, (((Run.nil.snoc hr₁).snoc hf₁).snoc hr₂).snoc hf₂, ⟨fun k => ?_, fun k => ?_⟩,
    fun h => ?_⟩
  · rw [hdeltas]
    split_ifs
    · exact List.forall_mem_cons.mpr ⟨by decide, List.forall_mem_singleton.mpr (by decide)⟩
    · exact List.forall_mem_nil _
  · rw [hdeltas]
    split_ifs
    · show (8 : ℤ) < 2 ^ 63
      norm_num
    · norm_num
  · have htotal := h.total (hits, .count 5) List.mem_cons_self rfl hitsTotal (by decide +kernel)
    rw [hdeltas, if_pos rfl] at htotal
    exact absurd (hread.symm.trans htotal) (by decide)


theorem exposable_hits : Exposable (F := F64) .builder {(hits, .count)} where
  kinds := by
    rintro _ rfl
    decide
  keys := by
    rintro _ rfl _ rfl _
    rfl
  ids := by
    rintro _ rfl _ rfl _ _ _
    rfl
  name := by
    rintro _ rfl
    decide +kernel
  tags := by
    rintro _ rfl p hp
    exact absurd hp List.not_mem_nil

/-- A count of 0 and then one of 5, with a flush after each: two texts. -/
theorem texts_cumulative_twice : ∃ (es : List (MapEvent (BitVec 64) F64)) (w : Exposition F64),
    (hits, .count 0) ∈ calls es ∧ (hits, .count 5) ∈ calls es ∧
      w.texts.map (readings · hitsTotal) = [[['0']], [['5']]] ∧
      Cumulative .builder es w.texts w.exporter.getMetricsText := by
  have hview : ((countAndFlush atStart.aggregator atStart.exporter 0).bind fun w =>
      (countAndFlush w.2.1 w.2.2 5).map fun w' => ((w.2.1.stripes (stripeIdx hits.key)).isEmpty,
        [w.2.2.getMetricsText, w'.2.2.getMetricsText].map (readings · hitsTotal))) =
      some (true, [[['0']], [['5']]]) := by
    decide +kernel
  obtain ⟨⟨out₁, aggregator₁, exporter₁⟩, h₁, hview⟩ := Option.bind_eq_some_iff.mp hview
  obtain ⟨⟨out₂, aggregator₂, exporter₂⟩, h₂, hview⟩ := Option.map_eq_some_iff.mp hview
  obtain ⟨hempty, hread⟩ := Prod.mk.inj hview
  obtain ⟨v₁, hlog₁, hr₁, hf₁⟩ := countAndFlush_steps h₁
  set w₁ : Exposition F64 := ⟨aggregator₁, exporter₁, v₁.log ++ [.flush (fun _ => .id) out₁],
    atStart.texts ++ [exporter₁.getMetricsText]⟩ with hw₁
  obtain ⟨v₂, hlog₂, hr₂, hf₂⟩ := countAndFlush_steps (w := w₁) h₂
  set es : List (MapEvent (BitVec 64) F64) :=
    [.record true hits (.count 0), .flush (fun _ => .id) out₁, .record true hits (.count 5)] with hes
  have hs₁ : Sound {(hits, .count)} atStart (.record true hits (.count 0)) :=
    ⟨rfl, fun _ hentry => absurd hentry List.not_mem_nil⟩
  have hs₂ : Sound {(hits, .count)} v₁ (.flush (fun _ => .id) out₁) := by
    refine .inr fun k v hv => ?_
    rw [hlog₁] at hv
    exact absurd hv List.not_mem_nil
  have hs₃ : Sound {(hits, .count)} w₁ (.record true hits (.count 5)) := by
    refine ⟨rfl, fun entry hentry => ?_⟩
    rw [List.isEmpty_iff.mp hempty] at hentry
    exact absurd hentry List.not_mem_nil
  have hs₄ : Sound {(hits, .count)} v₂ (.flush (fun _ => .id) out₂) := by
    have hlog : v₂.log = es := by
      rw [hlog₂, hw₁, hlog₁]
      rfl
    refine .inr fun k v hv _ => ?_
    rw [hlog] at hv ⊢
    by_cases hk : k = hits.key
    · subst hk
      obtain rfl : v = (hits.aggKey, .count [0]) := by
        simpa [hes, ledger, Ledger.apply, PlainMap.record, PlainSlot.ofUpdate] using hv
      refine ⟨(hits.aggKey, .count [5]), ?_, trivial, by simp [Keeps]⟩
      simp [hes, ledger, Ledger.apply, PlainMap.record, PlainMap.flush, PlainSlot.ofUpdate]
      rfl
    · simp [hes, ledger, Ledger.apply, PlainMap.record, hk] at hv
  have hrun : Run (Where ExpositionStep (Sound {(hits, .count)})) atStart es v₂ :=
    ((Run.nil.snoc ⟨hr₁, hs₁⟩).snoc ⟨hf₁, hs₂⟩).snoc ⟨hr₂, hs₃⟩
  have hdeltas : ∀ k, deltasOn k es = if k = hits.key then [0, 5] else [] := by
    intro k
    have hskip : ∀ es, deltasOn k (.flush (fun _ => .id) out₁ :: es) = deltasOn k es := fun _ => rfl
    rw [deltasOn_hits, hskip, deltasOn_hits]
    split_ifs <;> rfl
  refine ⟨es, _, List.mem_cons_self, List.mem_cons_of_mem _ List.mem_cons_self, ?_,
    texts_cumulative exposable_hits ⟨fun k => ?_, fun k => ?_⟩ (hrun.snoc ⟨hf₂, hs₄⟩)⟩
  · exact hread
  · rw [hdeltas]
    split_ifs
    · exact List.forall_mem_cons.mpr ⟨by decide, List.forall_mem_singleton.mpr (by decide)⟩
    · exact List.forall_mem_nil _
  · rw [hdeltas]
    split_ifs
    · show (5 : ℤ) < 2 ^ 63
      norm_num
    · norm_num

end ChalkMetrics
