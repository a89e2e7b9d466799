/-
# What a flush reports of the calls before it

In every run whose record calls find what is stored, recorders and flushers in
any interleaving, a flush puts out for a key what its history says: the deltas
recorded since a flush last took the key's stripe (`count_since`), the last
value a gauge was ever given (`gauge_last`), and a sketch of the values
recorded since, whose quantiles are within its error (`histogram_since`).

Key definitions: `sinceFlush`, `gauges`, `PlainSlot.ofUpdates`.
-/
import ChalkMetrics.Aggregator.Linear
import ChalkMetrics.Aggregator.Room
import ChalkMetrics.Sketch.Quantile

namespace ChalkMetrics

open HashTable Runs KeyEvent

/-- The slot of a key whose updates are these. -/
def PlainSlot.ofUpdates {M F : Type} : List (Update M F) → Option (PlainSlot M F)
  | [] => none
  | u :: us => some (us.foldl PlainSlot.add (.ofUpdate u))

theorem PlainSlot.ofUpdates_concat {M F : Type} (us : List (Update M F)) (u : Update M F) :
    ofUpdates (us ++ [u]) = some ((ofUpdates us).elim (ofUpdate u) fun slot => slot.add u) := by
  cases us with
  | nil => rfl
  | cons u' us => simp [ofUpdates]

theorem PlainSlot.ofUpdates_counts {M F : Type} {ds : List M} (h : ds ≠ []) :
    ofUpdates (ds.map (Update.count (F := F))) = some (.count ds) := by
  induction ds using List.reverseRecOn with
  | nil => exact absurd rfl h
  | append_singleton ds d ih =>
    rw [List.map_append, List.map_singleton, ofUpdates_concat]
    by_cases hds : ds = []
    · simp [hds, ofUpdates, ofUpdate]
    · simp [ih hds, add]

theorem PlainSlot.ofUpdates_histograms {M F : Type} {vs : List F} (h : vs ≠ []) :
    ofUpdates (vs.map (Update.histogram (M := M))) = some (.histogram vs) := by
  induction vs using List.reverseRecOn with
  | nil => exact absurd rfl h
  | append_singleton vs v ih =>
    rw [List.map_append, List.map_singleton, ofUpdates_concat]
    by_cases hvs : vs = []
    · simp [hvs, ofUpdates, ofUpdate]
    · simp [ih hvs, add]

theorem PlainSlot.isGauge_ofUpdates {M F : Type} {us : List (Update M F)}
    (h : ∀ u ∈ us, u.kind ≠ .gauge) {slot : PlainSlot M F} (hs : ofUpdates us = some slot) :
    slot.isGauge = false := by
  induction us using List.reverseRecOn generalizing slot with
  | nil => simp [ofUpdates] at hs
  | append_singleton us u ih =>
    have hu : u.kind ≠ .gauge := h u (by simp)
    rw [ofUpdates_concat, Option.some.injEq] at hs
    subst hs
    rcases hus : ofUpdates us with _ | slot
    · cases u <;> simp_all [ofUpdate, isGauge, Update.kind]
    · have := ih (fun u' hu' => h u' (by simp [hu'])) hus
      cases slot <;> cases u <;> simp_all [add, isGauge, Update.kind]

section

variable {M F : Type} [AddCommMonoid M] [FloatOps F] [FloatBits F]

namespace KeyEvent

/-- The record calls behind the last flush. -/
def sinceFlush (hist : List (KeyEvent M F)) : List (Series × Update M F) :=
  hist.foldl (fun calls e => match e with
    | record x u => calls ++ [(x, u)]
    | flush _ => []) []

/-- The values gauges were given, each with its call's series. -/
def gauges (hist : List (KeyEvent M F)) : List (Series × F) :=
  hist.filterMap fun e => match e with
    | record x (.gauge v) => some (x, v)
    | _ => none

omit [AddCommMonoid M] [FloatOps F] [FloatBits F] in
theorem sinceFlush_record (hist : List (KeyEvent M F)) (x : Series) (u : Update M F) :
    sinceFlush (hist ++ [record x u]) = sinceFlush hist ++ [(x, u)] := by
  simp [sinceFlush]

omit [AddCommMonoid M] [FloatOps F] [FloatBits F] in
theorem sinceFlush_flush (hist : List (KeyEvent M F)) (c : ℕ) :
    sinceFlush (hist ++ [flush c]) = [] := by
  simp [sinceFlush]

omit [AddCommMonoid M] [FloatOps F] [FloatBits F] in
theorem sinceFlush_mem {hist : List (KeyEvent M F)} :
    ∀ r ∈ sinceFlush hist, record r.1 r.2 ∈ hist := by
  induction hist using List.reverseRecOn with
  | nil => simp [sinceFlush]
  | append_singleton hist e ih =>
    cases e with
    | record x u =>
      intro r hr
      rw [sinceFlush_record, List.mem_append, List.mem_singleton] at hr
      rcases hr with hr | rfl
      · exact List.mem_append_left _ (ih r hr)
      · exact List.mem_append_right _ (List.mem_singleton_self _)
    | flush c => simp [sinceFlush_flush]

omit [AddCommMonoid M] [FloatOps F] [FloatBits F] in
/-- What the calls since the last flush leave under the key. -/
theorem after_since {k : UInt64} {hist : List (KeyEvent M F)}
    (h : ∀ x u, record x u ∈ hist → x.key = k ∧ u.kind ≠ .gauge) :
    after k none hist = (sinceFlush hist).head?.bind fun r =>
      (PlainSlot.ofUpdates ((sinceFlush hist).map Prod.snd)).map fun slot => (r.1.aggKey, slot) := by
  induction hist using List.reverseRecOn with
  | nil => rfl
  | append_singleton hist e ih =>
    have hhist : ∀ x u, record x u ∈ hist → x.key = k ∧ u.kind ≠ .gauge :=
      fun x u hr => h x u (List.mem_append_left _ hr)
    cases e with
    | record x u =>
      obtain ⟨hx, -⟩ := h x u (List.mem_append_right _ (List.mem_singleton_self _))
      rw [after_record, sinceFlush_record, PlainMap.record, hx, Function.update_self, ih hhist,
        List.map_append, List.map_singleton, PlainSlot.ofUpdates_concat]
      rcases hs : sinceFlush hist with _ | ⟨r, rest⟩
      · rfl
      · simp [PlainSlot.ofUpdates]
    | flush c =>
      rw [after_flush, sinceFlush_flush, PlainMap.flush, ih hhist]
      rcases hs : sinceFlush hist with _ | ⟨r, rest⟩
      · rfl
      · simp only [List.head?_cons, Option.bind_some, List.head?_nil, Option.bind_none,
          Option.filter_eq_none_iff, Option.map_eq_some_iff, forall_exists_index, and_imp]
        rintro a slot hslot rfl
        have hmem : ∀ u ∈ (r :: rest).map Prod.snd, u.kind ≠ .gauge := by
          intro u hu
          obtain ⟨q, hq, rfl⟩ := List.mem_map.mp hu
          exact (hhist _ _ (sinceFlush_mem q (hs ▸ hq))).2
        simp [PlainSlot.isGauge_ofUpdates hmem hslot]

omit [AddCommMonoid M] [FloatOps F] [FloatBits F] in
/-- A gauge keeps the key of its first call and what it was last given. -/
theorem after_gauges {k : UInt64} {hist : List (KeyEvent M F)}
    (h : ∀ x u, record x u ∈ hist → x.key = k ∧ u.kind = .gauge) :
    after k none hist = (gauges hist).head?.bind fun r =>
      (gauges hist).getLast?.map fun q => (r.1.aggKey, .gauge q.2) := by
  induction hist using List.reverseRecOn with
  | nil => rfl
  | append_singleton hist e ih =>
    have hhist : ∀ x u, record x u ∈ hist → x.key = k ∧ u.kind = .gauge :=
      fun x u hr => h x u (List.mem_append_left _ hr)
    cases e with
    | record x u =>
      obtain ⟨hx, hu⟩ := h x u (List.mem_append_right _ (List.mem_singleton_self _))
      cases u with
      | gauge v =>
        have hsnoc : gauges (hist ++ [record x (.gauge v)]) = gauges hist ++ [(x, v)] := by
          simp [gauges]
        rw [after_record, PlainMap.record, hx, Function.update_self, ih hhist, hsnoc]
        rcases hg : gauges hist with _ | ⟨r, rest⟩
        · simp [PlainSlot.ofUpdate]
        · simp [List.getLast?_cons, PlainSlot.add]
      | count delta => cases hu
      | histogram value => cases hu
    | flush c =>
      have hg : gauges (hist ++ [flush c]) = gauges hist := by simp [gauges]
      rw [after_flush, PlainMap.flush, ih hhist, hg]
      rcases gauges hist with _ | ⟨r, rest⟩
      · rfl
      · simp [List.getLast?_cons, PlainSlot.isGauge]

end KeyEvent

omit [AddCommMonoid M] [FloatOps F] [FloatBits F] in
/-- The record calls of a history are on its key. -/
theorem key_of_record_mem {k : UInt64} {x : Series} {u : Update M F} (es : List (FlushEvent M F)) :
    KeyEvent.record x u ∈ history k es → x.key = k := by
  induction es using List.reverseRecOn with
  | nil => simp [history, historyFrom]
  | append_singleton es e ih =>
    intro h
    rw [history_snoc, List.mem_append, mem_keyEvent] at h
    rcases h with h | ⟨y, v, -, hy, hu⟩ | ⟨d, -, -, hd⟩
    · exact ih h
    · obtain ⟨rfl, -⟩ : x = y ∧ u = v := by simpa using hu
      exact hy
    · simp at hd

omit [FloatBits F] [AddCommMonoid M] in
/-- With at least seven buckets every value can be added. -/
theorem sketchOf_isSome {mb : ℕ} (hmb : 7 ≤ mb) (ε : F) (values : List F) :
    (sketchOf mb ε values).isSome := by
  have hadd : ∀ (values : List F) (s : UDDSketch F) (l), SketchHashMap.Holds s.buckets l →
      7 ≤ s.maxBuckets → (values.foldlM UDDSketch.addValue s).isSome := by
    intro values
    induction values with
    | nil => exact fun s l _ _ => rfl
    | cons v values ih =>
      intro s l hs hmax
      obtain ⟨s₁, l₁, hv, hs₁, hm⟩ := UDDSketch.addValue_ends hs hmax v
      rw [List.foldlM_cons, hv]
      exact ih s₁ l₁ hs₁ (by rw [hm]; exact hmax)
  exact hadd values (.empty mb ε) [] SketchHashMap.holds_new hmb

section

variable {makeHash : Fin 64 → UInt64 → UInt64} {mb : ℕ} {ε : F} {es : List (FlushEvent M F)}
  {w : FlushState M F} {c : ℕ} {call : FlushCall M F} {k : UInt64} {pre post : List (KeyEvent M F)}

/-- **A flush reports the deltas since the last one**, once summed, where the
flushes are in the order in which they take the stripe of the key. -/
theorem count_since (h : Run FoundStep (.init makeHash mb ε) es w) (hc : w.calls[c]? = some call)
    (hk : history k es = pre ++ .flush c :: post)
    (hkind : ∀ x u, KeyEvent.record x u ∈ pre → u.kind = .count) :
    outOf call.out k = ((sinceFlush pre).head?.map fun r =>
      (⟨r.1.namespacePath, r.1.metricName, ⟨r.1.pairs⟩,
        .count ((sinceFlush pre).map fun r => r.2.delta).sum⟩ : FlushedMetric M F)).toList := by
  have hpre : ∀ x u, KeyEvent.record x u ∈ pre → x.key = k ∧ u.kind ≠ .gauge := by
    intro x u hr
    refine ⟨key_of_record_mem es (by rw [hk]; exact List.mem_append_left _ hr), ?_⟩
    rw [hkind x u hr]
    decide
  rw [outOf_eq_reported h hc hk, KeyEvent.reported, PlainMap.report, after_since hpre]
  rcases hs : sinceFlush pre with _ | ⟨r, rest⟩
  · rfl
  · have hcounts : (r :: rest).map Prod.snd =
        ((r :: rest).map fun r => r.2.delta).map Update.count := by
      rw [List.map_map]
      apply List.map_congr_left
      intro q hq
      have hq := hkind _ _ (sinceFlush_mem q (hs ▸ hq))
      rcases q with ⟨y, delta | value | value⟩
      · rfl
      · cases hq
      · cases hq
    rw [hcounts, PlainSlot.ofUpdates_counts (by simp)]
    rfl

/-- **A flush reports the last value the gauge was ever given**, however many
flushes have reported it before, unless it is the NaN of the sentinel's bits. -/
theorem gauge_last (h : Run FoundStep (.init makeHash mb ε) es w) (hc : w.calls[c]? = some call)
    (hk : history k es = pre ++ .flush c :: post)
    (hkind : ∀ x u, KeyEvent.record x u ∈ pre → u.kind = .gauge) :
    outOf call.out k = ((gauges pre).head?.bind fun r =>
      ((gauges pre).getLast?.filter fun q => FloatBits.toBits q.2 ≠ GaugeSlot.unset).map fun q =>
        (⟨r.1.namespacePath, r.1.metricName, ⟨r.1.pairs⟩, .gauge q.2⟩ : FlushedMetric M F)).toList := by
  have hpre : ∀ x u, KeyEvent.record x u ∈ pre → x.key = k ∧ u.kind = .gauge :=
    fun x u hr => ⟨key_of_record_mem es (by rw [hk]; exact List.mem_append_left _ hr), hkind x u hr⟩
  rw [outOf_eq_reported h hc hk, KeyEvent.reported, PlainMap.report, after_gauges hpre]
  rcases (gauges pre).head? with _ | r
  · rfl
  · rcases (gauges pre).getLast? with _ | q
    · rfl
    · by_cases hq : FloatBits.toBits q.2 = GaugeSlot.unset
      · simp [PlainSlot.report, Option.filter_some, hq]
      · simp [PlainSlot.report, Option.filter_some, hq, Series.aggKey]

/-- **A flush reports the sketch of the values since the last one**, added in
the order of the record calls, and nothing if all of them are NaN. -/
theorem histogram_since {values : List F} (hmb : 7 ≤ mb)
    (h : Run FoundStep (.init makeHash mb ε) es w) (hc : w.calls[c]? = some call)
    (hk : history k es = pre ++ .flush c :: post)
    (hkind : ∀ x u, KeyEvent.record x u ∈ pre → u.kind = .histogram)
    (hvalues : (sinceFlush pre).map Prod.snd = values.map Update.histogram) :
    ((∀ v ∈ values, FloatOps.isNaN v) → outOf call.out k = []) ∧
    ((∃ v ∈ values, ¬FloatOps.isNaN v) → ∃ r s, (sinceFlush pre).head? = some r ∧
      sketchOf mb ε values = some s ∧ outOf call.out k =
        [⟨r.1.namespacePath, r.1.metricName, ⟨r.1.pairs⟩, .histogram s⟩]) := by
  have hpre : ∀ x u, KeyEvent.record x u ∈ pre → x.key = k ∧ u.kind ≠ .gauge := by
    intro x u hr
    refine ⟨key_of_record_mem es (by rw [hk]; exact List.mem_append_left _ hr), ?_⟩
    rw [hkind x u hr]
    decide
  rw [outOf_eq_reported h hc hk, KeyEvent.reported, PlainMap.report, after_since hpre, hvalues]
  rcases hs : sinceFlush pre with _ | ⟨r, rest⟩
  · have hnil : values = [] := by simpa [hs] using hvalues.symm
    simp [hnil]
  · have hne : values ≠ [] := by
      rintro rfl
      simp [hs] at hvalues
    obtain ⟨s, hsketch⟩ := Option.isSome_iff_exists.mp (sketchOf_isSome hmb ε values)
    rw [PlainSlot.ofUpdates_histograms hne]
    refine ⟨fun hall => ?_, fun hsome => ⟨r, s, rfl, hsketch, ?_⟩⟩
    · have hnone : PlainSlot.report (M := M) mb ε (.histogram values) = none :=
        if_pos (List.all_eq_true.mpr hall)
      simp [hnone]
    · obtain ⟨v, hv, hnan⟩ := hsome
      have hall : values.all FloatOps.isNaN = false :=
        List.all_eq_false.mpr ⟨v, hv, hnan⟩
      have hsome : PlainSlot.report (M := M) mb ε (.histogram values) = some (.histogram s) := by
        rw [PlainSlot.report, hall, hsketch]
        rfl
      simp [hsome, Series.aggKey]

end

end

/-! ### Two flushes of one series -/

/-- The first flush has the delta. -/
theorem count_since_five : ∃ (w : FlushState (BitVec 64) F64) (call : FlushCall (BitVec 64) F64),
    Run FoundStep (.init (fun _ k => k) 200 0.001)
      [.record ⟨⟨0, []⟩, [], 0, []⟩ (.count 5), .begin, .stripe 0, .begin, .stripe 1] w ∧
    w.calls[0]? = some call ∧
    (outOf call.out 0).map (fun m => m.value.countValue) = [5] := by
  obtain ⟨w, hw, hlen⟩ := run_twice (F := F64) 0.001 (.count 5) (by decide +kernel)
  obtain ⟨call, hc⟩ : ∃ call, w.calls[0]? = some call := ⟨w.calls[0], List.getElem?_eq_getElem _⟩
  have hk : history 0 [.record ⟨⟨0, []⟩, [], 0, []⟩ (.count 5), .begin, .stripe 0, .begin,
      .stripe 1] = ([.record ⟨⟨0, []⟩, [], 0, []⟩ (.count 5)] ++ .flush 0 :: [.flush 1] :
        List (KeyEvent (BitVec 64) F64)) := rfl
  have hout := count_since hw hc hk (by simp [Update.kind])
  refine ⟨w, call, hw, hc, ?_⟩
  rw [hout]
  decide +kernel

/-- The second flush reports the gauge again. -/
theorem gauge_last_twice : ∃ (w : FlushState (BitVec 64) F64) (call : FlushCall (BitVec 64) F64),
    Run FoundStep (.init (fun _ k => k) 200 0.001)
      [.record ⟨⟨0, []⟩, [], 0, []⟩ (.gauge 0.5), .begin, .stripe 0, .begin, .stripe 1] w ∧
    w.calls[1]? = some call ∧ (outOf call.out 0).map FlushedMetric.metricName = [⟨0, []⟩] := by
  obtain ⟨w, hw, hlen⟩ := run_twice (F := F64) 0.001 (.gauge 0.5) (by decide +kernel)
  obtain ⟨call, hc⟩ : ∃ call, w.calls[1]? = some call := ⟨w.calls[1], List.getElem?_eq_getElem _⟩
  have hk : history 0 [.record ⟨⟨0, []⟩, [], 0, []⟩ (.gauge 0.5), .begin, .stripe 0, .begin,
      .stripe 1] = ([.record ⟨⟨0, []⟩, [], 0, []⟩ (.gauge 0.5), .flush 0] ++ .flush 1 :: [] :
        List (KeyEvent (BitVec 64) F64)) := rfl
  have hout := gauge_last hw hc hk (by simp [Update.kind])
  refine ⟨w, call, hw, hc, ?_⟩
  rw [hout]
  decide +kernel

/-- The first flush has the sketch of one value. -/
theorem histogram_since_once : ∃ (w : FlushState (BitVec 64) F64)
    (call : FlushCall (BitVec 64) F64), Run FoundStep (.init (fun _ k => k) 200 0.001)
      [.record ⟨⟨0, []⟩, [], 0, []⟩ (.histogram 1.0), .begin, .stripe 0, .begin, .stripe 1] w ∧
    w.calls[0]? = some call ∧ ∃ s, sketchOf 200 0.001 [1.0] = some s ∧ outOf call.out 0 =
      [⟨[], ⟨0, []⟩, ⟨[]⟩, .histogram s⟩] := by
  have hroomy : (StripedAggMap.new (fun _ k => k) 200 0.001 none :
      StripedAggMap (BitVec 64) F64).Roomy :=
    StripedAggMap.roomy_new _ (by decide) (by decide +kernel) none
  obtain ⟨s, hs, -⟩ :=
    StripedAggMap.recordSlot_returns hroomy true ⟨⟨0, []⟩, [], 0, []⟩ (.histogram 1.0)
  obtain ⟨w, hw, hlen⟩ := run_twice (F := F64) 0.001 (.histogram 1.0) (by rw [hs]; rfl)
  obtain ⟨call, hc⟩ : ∃ call, w.calls[0]? = some call := ⟨w.calls[0], List.getElem?_eq_getElem _⟩
  have hk : history 0 [.record ⟨⟨0, []⟩, [], 0, []⟩ (.histogram 1.0), .begin, .stripe 0, .begin,
      .stripe 1] = ([.record ⟨⟨0, []⟩, [], 0, []⟩ (.histogram 1.0)] ++ .flush 0 :: [.flush 1] :
        List (KeyEvent (BitVec 64) F64)) := rfl
  have hvalues : ([(⟨⟨0, []⟩, [], 0, []⟩, .histogram 1.0)] :
      List (Series × Update (BitVec 64) F64)).map Prod.snd = [1.0].map Update.histogram := rfl
  obtain ⟨r, s, hr, hs, hout⟩ := (histogram_since (by decide) hw hc hk (by simp [Update.kind])
    hvalues).2 ⟨1.0, by simp, by decide +kernel⟩
  obtain rfl := Option.some.inj hr
  exact ⟨w, call, hw, hc, s, hs, hout⟩

end ChalkMetrics
