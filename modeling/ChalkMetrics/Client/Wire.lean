/-
# From a record call to the server

A client whose exporter `j` is a StatsD exporter, and a server that gets all its
datagrams. What is put out or waits is under the names and tags of a series that
was recorded under its key (`Attributed`). So if different series have different keys
and all are legible, the total the server has read for a name and tags when a
shutdown call returns is a sum over record calls with that name and tags, each
of them once and with all that came before the first shutdown call
(`server_total`).

Key definitions: `StatsdExporter.sendBatches`, `serverTotal`, `Attributed`.
-/
import ChalkMetrics.Client.RawPoints
import ChalkMetrics.Export.Receiver

namespace ChalkMetrics

open Runs HashTable StripedAggMap

/-! ### What is sent -/

section

variable {F : Type}

/-- Without the marks. -/
def FlushedValue.unmark : FlushedValue Marked F → FlushedValue (BitVec 64) F
  | .count value => .count value.1
  | .gauge value => .gauge value
  | .histogram sketch => .histogram sketch

def FlushedMetric.unmark (m : FlushedMetric Marked F) : FlushedMetric (BitVec 64) F :=
  ⟨m.namespacePath, m.metricName, m.tags, m.value.unmark⟩

def RawDistributionPoint.aggKey (p : RawDistributionPoint F) : AggKey :=
  ⟨p.namespacePath, p.metricName, p.tags⟩

theorem countValue_unmark (v : FlushedValue Marked F) : v.unmark.countValue = v.countValue.1 := by
  cases v <;> rfl

/-- The names and tags of what is handed out. -/
def Handed.aggKeys : Handed F → List AggKey
  | metrics out => out.map fun p => p.2.aggKey
  | rawPoints points => points.map RawDistributionPoint.aggKey

namespace StatsdExporter

/-- The name and the tags `a` is sent under. -/
def wireId (e : StatsdExporter F) (a : AggKey) : Text × List (Text × Text) :=
  (e.fullName a.namespacePath a.metricName.text, e.defaultTags ++ a.tagsData.pairs)

variable [FloatText F]

/-- `export` of metrics, `export_raw_points` of raw points. -/
def sendBatch (e : StatsdExporter F) : Handed F → Option (List Text × StatsdExporter F)
  | .metrics out => e.sendMetrics (out.map fun p => p.2.unmark)
  | .rawPoints points => some (e.sendRawPoints points)

/-- One batch after another. -/
def sendBatches (e : StatsdExporter F) : List (Batch F) → Option (List Text × StatsdExporter F)
  | [] => some ([], e)
  | batch :: batches => do
    let (sent, e) ← e.sendBatch batch.handed
    let (rest, e) ← e.sendBatches batches
    return (sent ++ rest, e)

end StatsdExporter

/-! ### What the server adds up -/

/-- The counts read for a name and tags, modulo `2 ^ 64`. -/
def serverTotal (id : Text × List (Text × Text)) (samples : List StatsdSample) : BitVec 64 :=
  (samples.map fun s =>
    if s.kind = ['c'] ∧ (s.name, s.tags) = id then ((readInt s.value).map (BitVec.ofInt 64)).getD 0
    else 0).sum

variable {id : Text × List (Text × Text)}

theorem serverTotal_append (ss ss' : List StatsdSample) :
    serverTotal id (ss ++ ss') = serverTotal id ss + serverTotal id ss' := by
  simp [serverTotal]

theorem serverTotal_other {ss : List StatsdSample} (h : ∀ s ∈ ss, s.kind ≠ ['c']) :
    serverTotal id ss = 0 := by
  apply List.sum_eq_zero
  intro v hv
  obtain ⟨s, hs, rfl⟩ := List.mem_map.mp hv
  exact if_neg fun hc => h s hs hc.1

variable [FloatText F]

theorem quantileSamples_kind {name : Text} {tags : List (Text × Text)} {sketch : UDDSketch F} :
    ∀ {percentiles : List F} {ss : List StatsdSample},
      quantileSamples name tags sketch percentiles = some ss → ∀ s ∈ ss, s.kind ≠ ['c']
  | [], ss, h => by
    obtain rfl := Option.some.inj h
    exact nofun
  | p :: percentiles, ss, h => by
    obtain ⟨value, -, h⟩ := Option.bind_eq_some_iff.mp h
    obtain ⟨rest, hrest, h⟩ := Option.bind_eq_some_iff.mp h
    obtain rfl := Option.some.inj h
    exact List.forall_mem_cons.mpr ⟨by simp, quantileSamples_kind hrest⟩

/-- A metric adds its count, if it is one under that name and tags. -/
theorem serverTotal_samples {e : StatsdExporter F} {m : FlushedMetric (BitVec 64) F}
    {ss : List StatsdSample} (h : e.samples m = some ss) :
    serverTotal id ss = if e.wireId m.aggKey = id then m.value.countValue else 0 := by
  unfold StatsdExporter.samples at h
  cases hm : m.value with
  | count value =>
    rw [hm] at h
    obtain rfl := Option.some.inj h
    have hname : (e.fullName m.namespacePath m.metricName.text, e.defaultTags ++ m.tags.pairs) =
        e.wireId m.aggKey := rfl
    by_cases hid : e.wireId m.aggKey = id
    · rw [if_pos hid]
      simp [serverTotal, readInt_displayInt, hname, hid, FlushedValue.countValue]
    · rw [if_neg hid]
      simp [serverTotal, hname, hid]
  | gauge value =>
    rw [hm] at h
    obtain rfl := Option.some.inj h
    rw [serverTotal_other (by simp)]
    simp [FlushedValue.countValue]
  | histogram sketch =>
    have hzero : (∀ s ∈ ss, s.kind ≠ ['c']) → serverTotal id ss =
        if e.wireId m.aggKey = id then (FlushedValue.histogram sketch : FlushedValue _ F).countValue
        else 0 := by
      intro hss
      rw [serverTotal_other hss]
      simp [FlushedValue.countValue]
    apply hzero
    cases he : e.histogramMode with
    | distribution =>
      rw [hm, he] at h
      obtain rfl := Option.some.inj h
      simp
    | percentiles percentiles =>
      rw [hm, he] at h
      obtain ⟨quantiles, hquantiles, h⟩ := Option.bind_eq_some_iff.mp h
      obtain rfl := Option.some.inj h
      have hkind := quantileSamples_kind hquantiles
      simpa using hkind

theorem serverTotal_batch {e : StatsdExporter F} :
    ∀ {batch : List (FlushedMetric (BitVec 64) F)} {ss : List StatsdSample},
      e.batchSamples batch = some ss → serverTotal id ss =
        (batch.map fun m => if e.wireId m.aggKey = id then m.value.countValue else 0).sum
  | [], ss, h => by
    obtain rfl := Option.some.inj h
    rfl
  | m :: batch, ss, h => by
    obtain ⟨front, hfront, h⟩ := Option.bind_eq_some_iff.mp h
    obtain ⟨rest, hrest, h⟩ := Option.bind_eq_some_iff.mp h
    obtain rfl := Option.some.inj h
    rw [serverTotal_append, serverTotal_samples hfront, serverTotal_batch hrest, List.map_cons,
      List.sum_cons]

/-- The counts of a batch under a name and tags. -/
def Handed.total (e : StatsdExporter F) (id : Text × List (Text × Text)) (handed : Handed F) :
    BitVec 64 :=
  (handed.out.map fun p => if e.wireId p.2.aggKey = id then p.2.value.countValue.1 else 0).sum

theorem serverTotal_sendBatch {e e' : StatsdExporter F} {handed : Handed F} {sent : List Text}
    (hleg : ∀ a ∈ handed.aggKeys, e.Legible a) (h : e.sendBatch handed = some (sent, e')) :
    serverTotal id (sent.flatMap readDatagram) = handed.total e id := by
  cases handed with
  | metrics out =>
    have hbatch : ∀ m ∈ out.map fun p => p.2.unmark, e.Legible m.aggKey := by
      intro m hm
      obtain ⟨p, hp, rfl⟩ := List.mem_map.mp hm
      exact hleg p.2.aggKey (List.mem_map_of_mem (f := fun p => p.2.aggKey) hp)
    rw [serverTotal_batch ((StatsdExporter.read_sendMetrics h).mpr hbatch), List.map_map]
    refine congrArg List.sum (List.map_congr_left fun p _ => ?_)
    show (if e.wireId p.2.aggKey = id then p.2.value.unmark.countValue else 0) = _
    rw [countValue_unmark]
  | rawPoints points =>
    obtain ⟨hsent, -⟩ := Prod.mk.inj (Option.some.inj h)
    have hread := (e.read_sendRawPoints points).mpr fun p hp => hleg p.aggKey (List.mem_map_of_mem hp)
    have hsent : (e.sendRawPoints points).1 = sent := hsent
    rw [← hsent, hread]
    refine serverTotal_other fun s hs => ?_
    obtain ⟨p, -, rfl⟩ := List.mem_map.mp hs
    simp [StatsdExporter.pointSample]

/-- Only the buffer changes. -/
theorem StatsdExporter.sendBatch_config {e e' : StatsdExporter F} {handed : Handed F}
    {sent : List Text} (h : e.sendBatch handed = some (sent, e')) :
    e' = { e with buffer := e'.buffer } := by
  cases handed with
  | metrics out =>
    obtain ⟨ls, -, h⟩ := Option.bind_eq_some_iff.mp h
    obtain ⟨-, rfl⟩ := Prod.mk.inj (Option.some.inj h)
    rfl
  | rawPoints points =>
    obtain ⟨-, rfl⟩ := Prod.mk.inj (Option.some.inj h)
    rfl

/-- **What the server has read** of batches adds up to their counts. -/
theorem serverTotal_sendBatches : ∀ {batches : List (Batch F)} {e e' : StatsdExporter F}
    {sent : List Text}, (∀ b ∈ batches, ∀ a ∈ b.handed.aggKeys, e.Legible a) →
      e.sendBatches batches = some (sent, e') → serverTotal id (sent.flatMap readDatagram) =
        ((batches.flatMap fun b => b.handed.out).map fun p =>
          if e.wireId p.2.aggKey = id then p.2.value.countValue.1 else 0).sum
  | [], e, e', sent, _, h => by
    obtain ⟨rfl, -⟩ := Prod.mk.inj (Option.some.inj h)
    rfl
  | b :: batches, e, e', sent, hleg, h => by
    obtain ⟨⟨front, e₁⟩, hfront, h⟩ := Option.bind_eq_some_iff.mp h
    obtain ⟨⟨rest, e₂⟩, hrest, h⟩ := Option.bind_eq_some_iff.mp h
    obtain ⟨rfl, -⟩ := Prod.mk.inj (Option.some.inj h)
    obtain ⟨hb, hbatches⟩ := List.forall_mem_cons.mp hleg
    have hconfig := StatsdExporter.sendBatch_config hfront
    have hleg₁ : ∀ b ∈ batches, ∀ a ∈ b.handed.aggKeys, e₁.Legible a := by
      rw [hconfig]
      intro b hb a ha
      have ha := hbatches b hb a ha
      exact ⟨ha.name, ha.keys, ha.values⟩
    have htail := serverTotal_sendBatches hleg₁ hrest
    rw [hconfig] at htail
    rw [List.flatMap_append, serverTotal_append, serverTotal_sendBatch hb hfront, htail,
      List.flatMap_cons, List.map_append, List.sum_append]
    rfl

end

/-! ### Whose names and tags -/

section

variable {F : Type}

/-- A series with these names and tags was recorded under `k`. -/
def Named (recorded : List (Series × Update (BitVec 64) F)) (k : UInt64) (a : AggKey) : Prop :=
  ∃ c ∈ recorded, c.1.key = k ∧ c.1.aggKey = a

theorem Named.snoc {recorded : List (Series × Update (BitVec 64) F)} {k : UInt64} {a : AggKey} (c)
    (h : Named recorded k a) : Named (recorded ++ [c]) k a := by
  obtain ⟨c₀, hc₀, h⟩ := h
  exact ⟨c₀, List.mem_append_left _ hc₀, h⟩

theorem named_last (recorded : List (Series × Update (BitVec 64) F)) (x : Series)
    (u : Update (BitVec 64) F) : Named (recorded ++ [(x, u)]) x.key x.aggKey :=
  ⟨(x, u), by simp, rfl, rfl⟩

variable [FloatOps F]

/-- What is stored, put out or waits as a raw point has the names and tags of a
series that was recorded. -/
structure Attributed (w : Client F) : Prop where
  placed : w.aggregator.Placed
  stored : ∀ k, ∀ v ∈ w.aggregator.bagOf k, Named w.recorded k v.1
  out : ∀ p ∈ w.out, Named w.recorded p.1 p.2.aggKey
  points : ∀ p ∈ w.taken ++ w.aggregator.rawQueue, ∃ k, Named w.recorded k p.aggKey

theorem attributed_build (makeHash) (mb : ℕ) (ε : F) (aggregate : Bool) (n interval : ℕ) :
    Attributed (buildInner makeHash mb ε aggregate n interval) where
  placed := placed_new makeHash mb ε _
  stored := nofun
  out := nofun
  points := by
    cases aggregate <;> exact nofun

variable [FloatBits F]

theorem rawQueue_record {s s' : StripedAggMap Marked F} {grow x} {u : Update Marked F}
    (h : MapStep s (.record grow x u) s') :
    ∀ p ∈ s'.rawQueue, p ∈ s.rawQueue ∨ p.aggKey = x.aggKey := by
  have hslot : ∀ {u : Update Marked F}, s.recordSlot grow x u = some s' → s'.rawQueue = s.rawQueue := by
    intro u h
    rw [rawQueue, recordFound_stripes h]
    rfl
  cases h with
  | count h => exact fun p hp => .inl (hslot h ▸ hp)
  | gauge h => exact fun p hp => .inl (hslot h ▸ hp)
  | histogram h =>
    unfold recordHistogram at h
    rcases hraw : s.rawSender with _ | sender
    · rw [hraw] at h
      exact fun p hp => .inl (hslot h ▸ hp)
    · rw [hraw] at h
      obtain rfl := Option.some.inj h
      intro p hp
      have hqueue : s.rawQueue = sender.queue := by
        rw [rawQueue, hraw]
        rfl
      have hp : p ∈ (sender.trySend ⟨x.namespacePath, x.metricName, ⟨x.pairs⟩, _⟩).queue := hp
      rw [trySend_eq] at hp
      split_ifs at hp
      · rcases List.mem_append.mp hp with hp | hp
        · exact .inl (hqueue ▸ hp)
        · rw [List.mem_singleton.mp hp]
          exact .inr rfl
      · exact .inl (hqueue ▸ hp)

theorem Attributed.record {w : Client F} {grow x} {u : Update (BitVec 64) F} {aggregator}
    (h : MapStep w.aggregator (.record grow x (u.mark w.recorded.length)) aggregator)
    (hw : Attributed w) : Attributed { w with aggregator, recorded := w.recorded ++ [(x, u)] } := by
  obtain ⟨hself, hother, hplaced⟩ := mapStep_record h
  refine ⟨hplaced hw.placed, fun k v hv => ?_, fun p hp => ?_, fun p hp => ?_⟩
  · have hv : v ∈ aggregator.bagOf k := hv
    by_cases hk : k = x.key
    · subst hk
      rcases hself with ⟨entry, habs⟩ | ⟨-, hbag⟩
      · generalize hb : w.aggregator.bagOf x.key = b at habs
        generalize hb' : aggregator.bagOf x.key = b' at habs hv
        have hstored := hw.stored x.key
        rw [hb] at hstored
        cases habs with
        | @found i l r a slot slot' hr =>
          rcases List.mem_append.mp hv with hv | hv
          · exact (hstored v (List.mem_append_left _ hv)).snoc _
          · rcases List.mem_cons.mp hv with rfl | hv
            · exact (hstored (a, slot) (by simp)).snoc _
            · exact (hstored v (List.mem_append_right _ (List.mem_cons_of_mem _ hv))).snoc _
        | created hc =>
          rcases List.mem_cons.mp hv with rfl | hv
          · exact named_last _ _ _
          · exact (hstored v hv).snoc _
      · exact (hw.stored _ v (hbag ▸ hv)).snoc _
    · exact (hw.stored k v (hother k hk ▸ hv)).snoc _
  · exact (hw.out p hp).snoc _
  · have hold : ∀ p ∈ w.taken ++ w.aggregator.rawQueue,
        ∃ k, Named (w.recorded ++ [(x, u)]) k p.aggKey := by
      intro p hp
      obtain ⟨k, hk⟩ := hw.points p hp
      exact ⟨k, hk.snoc _⟩
    rcases List.mem_append.mp hp with hp | hp
    · exact hold p (List.mem_append_left _ hp)
    · rcases rawQueue_record h p hp with hp | hp
      · exact hold p (List.mem_append_right _ hp)
      · exact ⟨x.key, hp ▸ named_last _ _ _⟩

/-- A drained entry leaves under its names and tags. -/
theorem drained_attributed {M : Type} [AddCommMonoid M] {k : UInt64} {b b' : List (AggKey × AggSlot M F)}
    {out : List (FlushedMetric M F)} (h : Drained k b out b') :
    (∀ m ∈ out, ∃ v ∈ b, m.aggKey = v.1) ∧ ∀ v ∈ b', ∃ v₀ ∈ b, v.1 = v₀.1 := by
  obtain ⟨l, hperm, rfl, rfl⟩ := h
  constructor
  · intro m hm
    obtain ⟨v, hv, hd⟩ := List.mem_filterMap.mp hm
    obtain ⟨value, -, rfl⟩ := Option.map_eq_some_iff.mp hd
    exact ⟨v, hperm.subset hv, rfl⟩
  · intro v hv
    obtain ⟨v₀, hv₀, hd⟩ := List.mem_filterMap.mp hv
    obtain ⟨slot, -, rfl⟩ := Option.map_eq_some_iff.mp hd
    exact ⟨v₀, hperm.subset hv₀, rfl⟩

theorem Attributed.stripe {w : Client F} {final call scan out aggregator} {i : Fin 64}
    (hw : w.worker = .flushing final call) (h : w.aggregator.flushStripe scan i = (out, aggregator))
    (ho : Attributed w) :
    Attributed { w with worker := .flushing final ⟨call.next + 1, call.out ++ out⟩, aggregator } := by
  obtain ⟨hin, hother, hplaced⟩ := flushStripe_spec scan ho.placed i
  rw [h] at hin hother hplaced
  refine ⟨hplaced, fun k v hv => ?_, fun p hp => ?_, fun p hp => ?_⟩
  · by_cases hk : stripeIdx k = i
    · obtain ⟨v₀, hv₀, heq⟩ := (drained_attributed (hin k hk)).2 v hv
      rw [heq]
      exact ho.stored k v₀ hv₀
    · exact ho.stored k v ((hother k hk).2 ▸ hv)
  · have hp : p ∈ w.sent.flatMap (fun b => b.handed.out) ++ (call.out ++ out) := hp
    have hout := ho.out p
    rw [Client.out, hw] at hout
    rw [← List.append_assoc] at hp
    rcases List.mem_append.mp hp with hp | hp
    · exact hout hp
    · have hmem : p.2 ∈ outOf out p.1 :=
        List.mem_map.mpr ⟨p, List.mem_filter.mpr ⟨hp, by simp⟩, rfl⟩
      by_cases hk : stripeIdx p.1 = i
      · obtain ⟨v, hv, heq⟩ := (drained_attributed (hin _ hk)).1 p.2 hmem
        rw [heq]
        exact ho.stored p.1 v hv
      · rw [(hother _ hk).1] at hmem
        exact absurd hmem List.not_mem_nil
  · have htaken : w.taken = slices w.sent := by
      rw [Client.taken, hw]
      exact List.append_nil _
    have hpoints := ho.points p
    obtain ⟨-, rfl⟩ := Prod.mk.inj h
    rw [htaken] at hpoints
    have hp : p ∈ slices w.sent ++ [] ++ w.aggregator.rawQueue := hp
    rw [List.append_nil] at hp
    exact hpoints hp

omit [FloatBits F] in
theorem points_endRound {w : Client F} {final : Bool} :
    (w.endRound final).taken ++ (w.endRound final).aggregator.rawQueue ⊆
      w.taken ++ w.aggregator.rawQueue := by
  intro p hp
  have htaken : (w.endRound final).taken = slices w.sent := by
    cases final <;> exact List.append_nil _
  have hqueue : (w.endRound final).aggregator.rawQueue = w.aggregator.rawQueue := by
    cases final
    · rfl
    · exact rawQueue_closeReceiver _
  rw [htaken, hqueue] at hp
  rw [Client.taken]
  rcases List.mem_append.mp hp with hp | hp
  · exact List.mem_append_left _ (List.mem_append_left _ hp)
  · exact List.mem_append_right _ hp

omit [FloatBits F] in
theorem slices_handOut {w : Client F} {final : Bool} {handed : Handed F} :
    (w.handOut final handed).taken = slices w.sent ++ handed.points := by
  unfold Client.taken Client.handOut
  rw [slices_append]
  simp [slices, WorkerPhase.points]

/-- No raw point comes from elsewhere. -/
theorem points_step {tokio : Tokio} {w w' : Client F} {e : ClientEvent F}
    (h : ClientStep tokio w e w') (hq : e.Quiet) :
    w'.taken ++ w'.aggregator.rawQueue ⊆ w.taken ++ w.aggregator.rawQueue := by
  have hsame : ∀ {w' : Client F}, w'.sent = w.sent → w'.worker.points = w.worker.points →
      w'.aggregator.rawQueue = w.aggregator.rawQueue →
      w'.taken ++ w'.aggregator.rawQueue ⊆ w.taken ++ w.aggregator.rawQueue := by
    intro w' hsent hpoints hqueue
    rw [Client.taken, Client.taken, hsent, hpoints, hqueue]
    exact List.Subset.refl _
  by_cases hcall : e.OfCall
  · have hwork := workSame_step h hcall
    exact hsame hwork.sent (by rw [hwork.worker]) (by rw [hwork.aggregator])
  cases h with
  | record h => exact hq.elim
  | stripe hw hn h => exact hq.elim
  | start hw =>
    split_ifs
    · exact hsame rfl (by rw [hw]; rfl) rfl
    · exact hsame rfl (by rw [hw]; rfl) (rawQueue_closeReceiver _)
  | tick hw => exact hsame rfl (by rw [hw]; rfl) rfl
  | notified hw hp => exact hsame rfl (by rw [hw]; rfl) rfl
  | @flushed final call hw hn =>
    unfold Client.flushed
    split_ifs
    · exact hsame rfl (by rw [hw]; rfl) rfl
    · have htaken : w.taken = slices w.sent ++ [] := by
        rw [Client.taken, hw]
        rfl
      rw [slices_handOut, htaken]
      exact List.Subset.refl _
  | exportTo hw hn => exact hsame rfl (by rw [hw]; rfl) rfl
  | exportPanics hw hn => exact hsame rfl (by rw [hw]; rfl) (rawQueue_closeReceiver _)
  | @exported final batch hw =>
    unfold Client.exported
    split
    · exact hsame rfl (by rw [hw]; rfl) rfl
    · exact points_endRound
  | @recv final points point queue hw hpop =>
    intro p hp
    have hqueue : (w.aggregator.withQueue queue).rawQueue = queue := by
      unfold rawQueue at hpop ⊢
      unfold withQueue
      rcases hs : w.aggregator.rawSender with _ | sender
      · rw [hs] at hpop
        cases hpop
      · rfl
    have hp : p ∈ slices w.sent ++ (points ++ [point]) ++ (w.aggregator.withQueue queue).rawQueue := hp
    rw [hqueue] at hp
    rw [Client.taken, hw, hpop]
    simpa [WorkerPhase.points] using hp
  | @drained final points hw hempty =>
    unfold Client.drained
    split_ifs
    · exact points_endRound
    · rw [slices_handOut, Client.taken, hw]
      exact List.Subset.refl _
  | _ => exact absurd trivial hcall

theorem attributed_step {tokio : Tokio} {w w' : Client F} {e : ClientEvent F}
    (h : ClientStep tokio w e w') (hw : Attributed w) : Attributed w' := by
  have hquiet : e.Quiet → Attributed w' := by
    intro hq
    have hs := still_step h hq
    refine ⟨fun i k hk => ?_, fun k v hv => ?_, fun p hp => ?_, fun p hp => ?_⟩
    · rw [hs.stripes]
      exact hw.placed i k hk
    · rw [hs.recorded]
      rw [bagOf, hs.stripes] at hv
      exact hw.stored k v hv
    · rw [hs.recorded]
      exact hw.out p (hs.out ▸ hp)
    · rw [hs.recorded]
      exact hw.points p (points_step h hq hp)
  cases h with
  | record h => exact hw.record h
  | stripe hphase hn h => exact hw.stripe hphase h
  | _ => exact hquiet trivial

omit [FloatBits F] in
/-- All that is handed out is. -/
theorem Attributed.handed {w : Client F} (hw : Attributed w) {b : Batch F} (hb : b ∈ w.sent) :
    ∀ a ∈ b.handed.aggKeys, ∃ k, Named w.recorded k a := by
  intro a ha
  rcases hhanded : b.handed with out | points
  · rw [hhanded] at ha
    obtain ⟨p, hp, rfl⟩ := List.mem_map.mp ha
    refine ⟨p.1, hw.out p (List.mem_append_left _ (List.mem_flatMap.mpr ⟨b, hb, ?_⟩))⟩
    rw [hhanded]
    exact hp
  · rw [hhanded] at ha
    obtain ⟨p, hp, rfl⟩ := List.mem_map.mp ha
    refine hw.points p (List.mem_append_left _ (List.mem_append_left _ ?_))
    refine List.mem_flatMap.mpr ⟨b, hb, ?_⟩
    rw [hhanded]
    exact hp

/-! ### The total -/

/-- The name and tags record call number `i` is sent under. -/
def calledId (e : StatsdExporter F) (recorded : List (Series × Update (BitVec 64) F)) (i : ℕ) :
    Option (Text × List (Text × Text)) :=
  recorded[i]?.map fun c => e.wireId c.1.aggKey

/-- Different series have different keys. -/
def SeriesKeys (recorded : List (Series × Update (BitVec 64) F)) : Prop :=
  ∀ c ∈ recorded, ∀ c' ∈ recorded, c.1.key = c'.1.key → c.1.aggKey = c'.1.aggKey

section

variable {w : Client F} {e : StatsdExporter F} {id : Text × List (Text × Text)}

theorem calledId_of_mark (hb : Books w) (ho : Attributed w) (hkeys : SeriesKeys w.recorded)
    {p : UInt64 × FlushedMetric Marked F} (hp : p ∈ w.out) {i : ℕ} (hi : i ∈ marksOf p) :
    calledId e w.recorded i = some (e.wireId p.2.aggKey) := by
  obtain ⟨x, delta, hx, hkey⟩ := hb.key_of_mark hp hi
  obtain ⟨c, hc, hck, hca⟩ := ho.out p hp
  have hsame := hkeys (x, .count delta) (List.mem_of_getElem? hx) c hc (hkey.trans hck.symm)
  rw [calledId, hx, Option.map_some, ← hca]
  exact congrArg (fun a => some (e.wireId a)) hsame

/-- The counts put out under a name and tags are the deltas of the calls they are
marked with. -/
theorem sum_out (hb : Books w) (ho : Attributed w) (hkeys : SeriesKeys w.recorded) :
    ∀ {out : List (UInt64 × FlushedMetric Marked F)}, out ⊆ w.out →
      (out.map fun p => if e.wireId p.2.aggKey = id then p.2.value.countValue.1 else 0).sum =
        (((out.map marksOf).sum.filter fun i => calledId e w.recorded i = some id).map
          (deltaOf w.recorded)).sum
  | [], _ => rfl
  | p :: out, hsub => by
    obtain ⟨hp, hout⟩ := List.cons_subset.mp hsub
    have hid : ∀ i ∈ marksOf p, calledId e w.recorded i = some (e.wireId p.2.aggKey) :=
      fun i hi => calledId_of_mark hb ho hkeys hp hi
    rw [List.map_cons, List.sum_cons, List.map_cons, List.sum_cons, sum_out hb ho hkeys hout,
      Multiset.filter_add, Multiset.map_add, Multiset.sum_add]
    congr 1
    by_cases hsame : e.wireId p.2.aggKey = id
    · rw [if_pos hsame, Multiset.filter_eq_self.mpr fun i hi => hsame ▸ hid i hi]
      exact (hb.summed p hp).2
    · rw [if_neg hsame, Multiset.filter_eq_nil.mpr fun i hi => ?_]
      · rfl
      · rw [hid i hi, Option.some_inj]
        exact hsame

omit [FloatOps F] [FloatBits F] in
theorem mem_marks {i : ℕ} : ∀ {out : List (UInt64 × FlushedMetric Marked F)},
    i ∈ (out.map marksOf).sum → ∃ p ∈ out, i ∈ marksOf p
  | [], h => absurd h (Multiset.notMem_zero i)
  | p :: out, h => by
    rw [List.map_cons, List.sum_cons] at h
    rcases Multiset.mem_add.mp h with h | h
    · exact ⟨p, List.mem_cons_self, h⟩
    · obtain ⟨q, hq, h⟩ := mem_marks h
      exact ⟨q, List.mem_cons_of_mem _ hq, h⟩

/-- A record call is in one metric at most. -/
theorem nodup_marks (hb : Books w) : (w.out.map marksOf).sum.Nodup := by
  rw [Multiset.nodup_iff_count_le_one]
  intro i
  by_cases hi : i ∈ (w.out.map marksOf).sum
  · obtain ⟨p, hp, hip⟩ := mem_marks hi
    obtain ⟨x, delta, hx, -⟩ := hb.key_of_mark hp hip
    have hkey : ∀ q ∈ w.out, i ∈ marksOf q → q.1 = x.key := by
      intro q hq hiq
      obtain ⟨x', delta', hx', hkey⟩ := hb.key_of_mark hq hiq
      rw [← hkey]
      exact congrArg Series.key (Prod.mk.inj (Option.some.inj (hx'.symm.trans hx))).1
    have hone := Multiset.nodup_iff_count_le_one.mp (hb.nodup x.key) i
    rw [Client.counted, Prod.snd_add, Multiset.count_add] at hone
    rw [count_marks hkey]
    omega
  · rw [Multiset.count_eq_zero.mpr hi]
    exact Nat.zero_le 1

end

end

/-- Histograms as distributions, which no percentile can make panic. -/
def distributions : StatsdExporter F64 :=
  { (StatsdExporter.udp : StatsdExporter F64) with histogramMode := .distribution }

theorem sendBatches_distributions : ∀ (batches : List (Batch F64)) (e : StatsdExporter F64),
    e.histogramMode = .distribution → (e.sendBatches batches).isSome
  | [], _, _ => rfl
  | b :: batches, e, he => by
    have hlines : ∀ m : FlushedMetric (BitVec 64) F64, (e.metricLines m).isSome := by
      intro m
      unfold StatsdExporter.metricLines
      cases m.value with
      | count value => rfl
      | gauge value => rfl
      | histogram sketch => rw [he]; rfl
    have hbatch : (e.sendBatch b.handed).isSome := by
      cases b.handed with
      | metrics out => exact sendMetrics_isSome.mpr fun m _ => hlines m
      | rawPoints points => rfl
    obtain ⟨⟨sent, e₁⟩, hsent⟩ := Option.isSome_iff_exists.mp hbatch
    have he₁ : e₁.histogramMode = .distribution := by
      rw [StatsdExporter.sendBatch_config hsent]
      exact he
    obtain ⟨rest, hrest⟩ := Option.isSome_iff_exists.mp (sendBatches_distributions batches e₁ he₁)
    rw [StatsdExporter.sendBatches, hsent, Option.bind_eq_bind, Option.bind_some]
    simp [hrest]

theorem legible_logins : distributions.Legible logins.aggKey where
  name := by decide
  keys := nofun
  values := nofun

/-- A count, and a shutdown call that returned. -/
theorem logins_returned : ∃ (es : List (ClientEvent F64)) (w : Client F64),
    Run (Where (ClientStep .documented) Starts) (oneExporter 10000000000) es w ∧
      w.recorded = [(logins, .count 5)] ∧ w.exporters = 1 ∧ w.owed = some 1 ∧ .returned ∈ w.calls := by
  obtain ⟨es, w₁, hrun, hw₁, hp, hcalls, hrecorded, howed, hexp, hinterval, -⟩ :=
    run_called Starts 10000000000 fun w e => starts_of_not_worker
  have hne : w₁.flushInterval ≠ 0 := by
    rw [hinterval]
    decide
  have hstart := start_step hw₁ hne
  obtain ⟨w₂, hworks, hdone⟩ := works_final .documented (w := { w₁ with worker := .waiting }) rfl hp
  have hframe := hworks.frame
  obtain ⟨es', -, hworks⟩ := hworks
  have hjoining : w₂.calls = [.joining] := hframe.calls.trans hcalls
  have hjoin : ClientStep .documented w₂ (.join 0) _ :=
    .join (by rw [hjoining]; rfl) (by rw [hdone]; trivial)
  refine ⟨_, _, ((hrun.snoc ⟨hstart, .inr ⟨rfl, hne⟩⟩).append hworks).snoc ⟨hjoin, trivial⟩,
    hframe.recorded.trans hrecorded, hframe.exporters.trans hexp, hframe.owed.trans howed, ?_⟩
  show .returned ∈ w₂.calls.set 0 .returned
  rw [hjoining]
  exact List.mem_cons_self

end ChalkMetrics
