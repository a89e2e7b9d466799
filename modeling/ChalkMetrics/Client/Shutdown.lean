/-
# What is delivered when a shutdown call returns

The exporters then have the same batches, none of them twice, and every delta
recorded before the first shutdown call is in one of them (`Delivered`). It is
so in every run in which the worker gets into its loop, or there is no exporter
(`shutdown_delivers`). A worker that panics on the way there is joined just
the same, and what was recorded is lost (`zero_interval_loses`).

Four invariants carry it: what was recorded is put out or stored (`Books`),
what is owed leaves the map with the final flush (`Cleared`), every exporter
gets every batch in turn (`HandedOut`), and a call returns only behind the
thread's end (`Locked`).

Key definitions: `Delivered`, `Starts`.
-/
import ChalkMetrics.Client.Books
import ChalkMetrics.Client.HandedOut
import ChalkMetrics.Client.Locked

namespace ChalkMetrics

open Runs HashTable StripedAggMap

section

variable {F : Type}

/-- The marks on a metric. -/
def marksOf (p : UInt64 × FlushedMetric Marked F) : Multiset ℕ := p.2.value.countValue.2

def Batch.marks (b : Batch F) : Multiset ℕ := (b.handed.out.map marksOf).sum

/-- The delta of record call `i` is in one of the batches, once. -/
def Once (i : ℕ) (batches : List (Batch F)) : Prop :=
  ∃ before batch after, batches = before ++ batch :: after ∧ batch.marks.count i = 1 ∧
    ∀ b ∈ before ++ after, i ∉ b.marks

variable [FloatOps F]

structure Delivered (w : Client F) : Prop where
  once : ∀ m ∈ w.owed, ∀ i < m, ∀ x delta, w.recorded[i]? = some (x, .count delta) →
    ∀ j < w.exporters, Once i (w.received j)
  summed : ∀ j < w.exporters, ∀ b ∈ w.received j, ∀ p ∈ b.handed.out,
    p.2.value.countValue ∈ Summed w.recorded
  same : ∀ j < w.exporters, ∀ j' < w.exporters, w.received j = w.received j'
  distinct : ∀ j < w.exporters, ((w.received j).map Batch.serial).Nodup

variable [FloatBits F]

/-! ### Delivery -/

/-- What holds in every state of a run. -/
structure Intact (w : Client F) : Prop where
  books : CountKeys w.recorded → Books w ∧ Cleared w
  handedOut : HandedOut w
  locked : Locked w

theorem intact_build (makeHash) (mb : ℕ) (ε : F) (aggregate : Bool) (n interval : ℕ) :
    Intact (buildInner makeHash mb ε aggregate n interval) where
  books _ := ⟨books_build makeHash mb ε aggregate n interval, ⟨fun _ => ⟨rfl, rfl, rfl⟩, nofun, nofun⟩⟩
  handedOut := ⟨rfl, fun _ _ _ => rfl, nofun⟩
  locked := ⟨nofun, nofun, nofun⟩

theorem intact_step {tokio : Tokio} {w w' : Client F} {e : ClientEvent F}
    (h : ClientStep tokio w e w') (hw : Intact w) : Intact w' where
  books hkeys :=
    have hb := hw.books (hkeys.of_prefix (recorded_step h))
    ⟨books_step h hkeys hb.1, cleared_step h hkeys hb.1 hb.2⟩
  handedOut := handedOut_step h hw.handedOut
  locked := locked_step h hw.locked

omit [FloatOps F] [FloatBits F] in
theorem once_of_count {i : ℕ} : ∀ {batches : List (Batch F)},
    (batches.map Batch.marks).sum.count i = 1 → Once i batches
  | [], h => by simp at h
  | b :: batches, h => by
    rw [List.map_cons, List.sum_cons, Multiset.count_add] at h
    by_cases hb : b.marks.count i = 0
    · rw [hb, Nat.zero_add] at h
      obtain ⟨before, batch, after, rfl, hone, hothers⟩ := once_of_count h
      refine ⟨b :: before, batch, after, rfl, hone, ?_⟩
      exact List.forall_mem_cons.mpr ⟨Multiset.count_eq_zero.mp hb, hothers⟩
    · refine ⟨[], b, batches, rfl, by omega, fun b' hb' hmem => ?_⟩
      have hrest : (batches.map Batch.marks).sum.count i = 0 := by omega
      refine Multiset.count_eq_zero.mp hrest ?_
      exact Multiset.mem_of_le (List.single_le_sum (fun _ _ => Multiset.zero_le _) _
        (List.mem_map_of_mem hb')) hmem

theorem countsOut_snd (out : List (UInt64 × FlushedMetric Marked F)) (k : UInt64) :
    (countsOut out k).2 =
      ((out.filter fun p => p.1 = k).map marksOf).sum := by
  have hsnd : ∀ l : List Marked, l.sum.2 = (l.map Prod.snd).sum := fun l =>
    map_list_sum (AddMonoidHom.snd (BitVec 64) (Multiset ℕ)) l
  rw [countsOut, Measure.ofOut, outOf, hsnd, List.map_map, List.map_map]
  rfl

/-- The marks of all metrics, if only those of the key `k` have the mark `i`. -/
theorem count_marks {i : ℕ} {k : UInt64} {out : List (UInt64 × FlushedMetric Marked F)}
    (h : ∀ p ∈ out, i ∈ marksOf p → p.1 = k) :
    (out.map marksOf).sum.count i = (countsOut out k).2.count i := by
  rw [countsOut_snd]
  induction out with
  | nil => rfl
  | cons p out ih =>
    have ih := ih fun p hp => h p (List.mem_cons_of_mem _ hp)
    rw [List.map_cons, List.sum_cons, Multiset.count_add, ih]
    by_cases hk : p.1 = k
    · rw [List.filter_cons_of_pos (by simpa using hk), List.map_cons, List.sum_cons,
        Multiset.count_add]
    · have hnone : i ∉ marksOf p := fun hi => hk (h p List.mem_cons_self hi)
      rw [List.filter_cons_of_neg (by simpa using hk), Multiset.count_eq_zero.mpr hnone, Nat.zero_add]

/-- A mark on a metric is that of a call on its key. -/
theorem Books.key_of_mark {w : Client F} (hb : Books w) {p : UInt64 × FlushedMetric Marked F}
    (hp : p ∈ w.out) {i : ℕ}
    (hi : i ∈ marksOf p) : ∃ x delta, w.recorded[i]? = some (x, .count delta) ∧ x.key = p.1 := by
  refine (hb.marks p.1 i).mp ?_
  rw [Client.counted, Prod.snd_add, Multiset.mem_add, countsOut_snd]
  refine .inl (Multiset.mem_of_le (List.single_le_sum (fun _ _ => Multiset.zero_le _) _ ?_) hi)
  exact List.mem_map_of_mem (List.mem_filter.mpr ⟨hp, by simp⟩)

omit [FloatOps F] [FloatBits F] in
theorem sum_marks (batches : List (Batch F)) :
    (batches.map Batch.marks).sum =
      ((batches.flatMap fun b => b.handed.out).map marksOf).sum := by
  induction batches with
  | nil => rfl
  | cons b batches ih =>
    rw [List.map_cons, List.sum_cons, ih, List.flatMap_cons, List.map_append, List.sum_append]
    rfl

/-- **What was owed is in one batch** when the thread is done. -/
theorem once_of_done {w : Client F} (hb : Books w) (hc : Cleared w) (hdone : w.worker = .done)
    {m i : ℕ} (hm : m ∈ w.owed) (hi : i < m) {x : Series} {delta : BitVec 64}
    (hx : w.recorded[i]? = some (x, .count delta)) : Once i w.sent := by
  have hout : w.out = w.sent.flatMap fun b => b.handed.out := by
    rw [Client.out, hdone]
    exact List.append_nil _
  have hgone : i ∉ (countsIn w.aggregator x.key).2 := by
    refine hc.gone m hm x.key ?_ i hi
    rw [hdone]
    exact (stripeIdx x.key).isLt
  have hcount : (w.counted x.key).2.count i = 1 :=
    Multiset.count_eq_one_of_mem (hb.nodup x.key) ((hb.marks x.key i).mpr ⟨x, delta, hx, rfl⟩)
  rw [Client.counted, Prod.snd_add, Multiset.count_add, Multiset.count_eq_zero.mpr hgone,
    Nat.add_zero] at hcount
  refine once_of_count ?_
  rw [sum_marks, ← hout, ← hcount]
  refine count_marks (F := F) fun p hp hmark => ?_
  obtain ⟨x', delta', hx', hkey⟩ := hb.key_of_mark hp hmark
  rw [← hkey]
  exact congrArg Series.key (Prod.mk.inj (Option.some.inj (hx'.symm.trans hx))).1

/-- **Behind the end of the thread** everything owed is delivered. -/
theorem delivered_of_finished {w : Client F} (hw : Intact w) (ha : Alive w)
    (hkeys : CountKeys w.recorded) (hfin : w.worker.Finished) : Delivered w := by
  obtain ⟨hb, hc⟩ := hw.books hkeys
  have hdone : ∀ {j}, j < w.exporters → w.worker = .done := by
    intro j hj
    refine (finished_cases hfin).resolve_right fun hpanicked => ?_
    rw [ha hpanicked] at hj
    exact Nat.not_lt_zero _ hj
  have hreceived : ∀ j < w.exporters, w.received j = w.sent := by
    intro j hj
    rw [hw.handedOut.received (by rw [hdone hj]; nofun) j hj, hdone hj]
    rfl
  refine ⟨fun m hm i hi x delta hx j hj => ?_, fun j hj b hb' p hp => ?_, fun j hj j' hj' => ?_,
    fun j hj => ?_⟩
  · rw [hreceived j hj]
    exact once_of_done hb hc (hdone hj) hm hi hx
  · rw [hreceived j hj] at hb'
    exact hb.summed p (List.mem_append_left _ (List.mem_flatMap.mpr ⟨b, hb', hp⟩))
  · rw [hreceived j hj, hreceived j' hj']
  · rw [hreceived j hj, hw.handedOut.serials]
    exact List.nodup_range

/-- **A shutdown call that has returned has delivered** what it owed, in every
run whose worker starts. -/
theorem shutdown_delivers {tokio : Tokio} {makeHash} {mb : ℕ} {ε : F} {aggregate : Bool}
    {n interval : ℕ} {es : List (ClientEvent F)} {w : Client F}
    (h : Run (Where (ClientStep tokio) Starts) (buildInner makeHash mb ε aggregate n interval) es w)
    (hkeys : CountKeys w.recorded) (hret : .returned ∈ w.calls) : Delivered w := by
  obtain ⟨hw, ha⟩ := h.inv (I := fun _ w => Intact w ∧ Alive w)
    ⟨intact_build makeHash mb ε aggregate n interval, nofun⟩
    fun _ _ _ _ hw hstep => ⟨intact_step hstep.1 hw.1, alive_step hstep.1 hstep.2 hw.2⟩
  exact delivered_of_finished hw ha hkeys (hw.locked.returned hret)

/-! ### The final round can be finished -/

/-- The worker can take `w` to `w'`. -/
def Works (tokio : Tokio) (w w' : Client F) : Prop :=
  ∃ es, (∀ e ∈ es, e.OfWorker) ∧ Run (Where (ClientStep tokio) Starts) w es w'

section

variable {tokio : Tokio} {w w' w'' : Client F}

theorem Works.trans (h : Works tokio w w') (h' : Works tokio w' w'') : Works tokio w w'' := by
  obtain ⟨es, he, h⟩ := h
  obtain ⟨es', he', h'⟩ := h'
  refine ⟨es ++ es', fun e hmem => ?_, h.append h'⟩
  exact (List.mem_append.mp hmem).elim (he e) (he' e)

theorem Works.step {e : ClientEvent F} (h : ClientStep tokio w e w') (hs : Starts w e)
    (he : e.OfWorker) : Works tokio w w' :=
  ⟨[e], by simpa using he, Run.nil.snoc ⟨h, hs⟩⟩

theorem Works.frame (h : Works tokio w w') : WorkerFrame w w' := by
  obtain ⟨es, he, h⟩ := h
  induction h with
  | nil => exact ⟨⟨rfl, rfl, rfl, rfl⟩, rfl, rfl⟩
  | snoc h hs ih =>
    have hih := ih fun e hmem => he e (List.mem_append_left _ hmem)
    have hstep := workerFrame_step hs.1 (he _ (List.mem_append_right _ List.mem_cons_self))
    exact ⟨⟨hstep.calls.trans hih.calls, hstep.owed.trans hih.owed, hstep.handle.trans hih.handle,
      hstep.guard.trans hih.guard⟩, hstep.recorded.trans hih.recorded,
      hstep.exporters.trans hih.exporters⟩

theorem works_stripes {final : Bool} : ∀ (n : ℕ) {w : Client F} {call : FlushCall Marked F},
    w.worker = .flushing final call → call.next + n = 64 →
    ∃ w' call', Works tokio w w' ∧ w'.worker = .flushing final call' ∧ call'.next = 64
  | 0, w, call, hw, hn => ⟨w, call, ⟨[], nofun, .nil⟩, hw, hn⟩
  | n + 1, w, call, hw, hn => by
    have hlt : call.next < 64 := by omega
    rcases hf : w.aggregator.flushStripe (fun _ => Scan.id) ⟨call.next, hlt⟩ with ⟨out, aggregator⟩
    obtain ⟨w₁, hstep, call₁, hw₁, hnext⟩ : ∃ w₁, ClientStep tokio w .stripe w₁ ∧
        ∃ call₁, w₁.worker = .flushing final call₁ ∧ call₁.next = call.next + 1 :=
      ⟨_, .stripe hw hlt hf, _, rfl, rfl⟩
    obtain ⟨w', call', hworks, hrest⟩ := works_stripes n hw₁ (by omega)
    exact ⟨w', call', (Works.step hstep trivial id).trans hworks, hrest⟩

theorem works_export {final : Bool} {batch : Batch F} : ∀ (n : ℕ) {w : Client F} {next : ℕ},
    w.worker = .exporting final batch next → next + n = w.exporters →
    ∃ w', Works tokio w w' ∧ w'.worker = .exporting final batch w'.exporters
  | 0, w, next, hw, hn => ⟨w, ⟨[], nofun, .nil⟩, by rw [hw, ← hn, Nat.add_zero]⟩
  | n + 1, w, next, hw, hn => by
    obtain ⟨w₁, hstep, hw₁, hexp⟩ : ∃ w₁, ClientStep tokio w (.exportTo true) w₁ ∧
        w₁.worker = .exporting final batch (next + 1) ∧ w₁.exporters = w.exporters :=
      ⟨_, .exportTo hw (by omega), rfl, rfl⟩
    obtain ⟨w', hworks, hrest⟩ := works_export n hw₁ (by omega)
    exact ⟨w', (Works.step hstep trivial id).trans hworks, hrest⟩

/-- The raw points are taken, handed out, and the thread ends. -/
theorem works_drain : ∀ (queue : List (RawDistributionPoint F)) {w : Client F} {points},
    w.worker = .draining true points → w.aggregator.rawQueue = queue →
    ∃ w', Works tokio w w' ∧ w'.worker = .done
  | [], w, points, hw, hq => by
    have hstep : ClientStep tokio w .drained (w.drained true points) := .drained hw hq
    by_cases hempty : points.isEmpty
    · refine ⟨_, Works.step hstep trivial nofun, ?_⟩
      rw [Client.drained, if_pos hempty]
      rfl
    · rw [Client.drained, if_neg hempty] at hstep
      obtain ⟨w₁, hworks, hw₁⟩ := works_export w.exporters (w := w.handOut true (.rawPoints points)) rfl
        (Nat.zero_add _)
      have hlast : ClientStep tokio w₁ .exported (w₁.exported true (.rawPoints points)) := .exported hw₁
      exact ⟨_, ((Works.step hstep trivial id).trans hworks).trans
        (Works.step hlast trivial id), rfl⟩
  | point :: queue, w, points, hw, hq => by
    obtain ⟨w₁, hstep, hw₁, hq₁⟩ : ∃ w₁, ClientStep tokio w .recv w₁ ∧
        w₁.worker = .draining true (points ++ [point]) ∧ w₁.aggregator.rawQueue = queue := by
      refine ⟨_, .recv hw hq, rfl, ?_⟩
      unfold StripedAggMap.rawQueue at hq ⊢
      rcases hs : w.aggregator.rawSender with _ | sender
      · rw [hs] at hq
        cases hq
      · rw [StripedAggMap.withQueue, hs]
        rfl
    obtain ⟨w', hworks, hdone⟩ := works_drain queue hw₁ hq₁
    exact ⟨w', (Works.step hstep trivial id).trans hworks, hdone⟩

/-- **A permit is enough**: a waiting worker that has one can come to its end. -/
theorem works_final (tokio : Tokio) {w : Client F} (hw : w.worker = .waiting) (hp : w.permit = true) :
    ∃ w', Works tokio w w' ∧ w'.worker = .done := by
  obtain ⟨w₁, hnotified, hw₁⟩ : ∃ w₁, ClientStep tokio w .notified w₁ ∧
      w₁.worker = .flushing true ⟨0, []⟩ := ⟨_, .notified hw hp, rfl⟩
  obtain ⟨w₂, call, hstripes, hw₂, hcall⟩ := works_stripes 64 hw₁ rfl
  have hflushed : ClientStep tokio w₂ .flushed (w₂.flushed true call.out) := .flushed hw₂ hcall
  have hbefore := ((Works.step hnotified trivial id).trans hstripes).trans
    (Works.step hflushed trivial id)
  by_cases hempty : call.out.isEmpty
  · rw [Client.flushed, if_pos hempty] at hbefore
    obtain ⟨w', hdrain, hdone⟩ := works_drain _ (w := { w₂ with worker := .draining true [] }) rfl rfl
    exact ⟨w', hbefore.trans hdrain, hdone⟩
  · rw [Client.flushed, if_neg hempty] at hbefore
    obtain ⟨w₃, hexport, hw₃⟩ := works_export w₂.exporters (w := w₂.handOut true (.metrics call.out)) rfl
      (Nat.zero_add _)
    have hexported : ClientStep tokio w₃ .exported (w₃.exported true (.metrics call.out)) :=
      .exported hw₃
    obtain ⟨w', hdrain, hdone⟩ := works_drain _ (w := w₃.exported true (.metrics call.out)) rfl rfl
    exact ⟨w', ((hbefore.trans hexport).trans (Works.step hexported trivial id)).trans hdrain, hdone⟩

end

end

/-! ### Two clients -/

/-- As documented. -/
def Tokio.documented : Tokio where
  interval period := period ≠ 0
  interval_eq_false period := by simp

/-- A client with one exporter. -/
abbrev oneExporter (flushInterval : ℕ) : Client F64 :=
  buildInner (fun _ k => k) 200 0.001 true 1 flushInterval

/-- A count without namespace and tags. -/
def logins : Series := ⟨⟨4096, "logins".toList⟩, [], 0, []⟩

/-- That client behind a count of 5. -/
abbrev loggedIn (flushInterval : ℕ) (aggregator : StripedAggMap Marked F64) : Client F64 :=
  { oneExporter flushInterval with aggregator, recorded := [(logins, .count 5)] }

theorem logins_step (flushInterval : ℕ) : ∃ aggregator,
    ClientStep .documented (oneExporter flushInterval) (.record true logins (.count 5))
      (loggedIn flushInterval aggregator) := by
  have hsome : ((.new (fun _ k => k) 200 0.001 none : StripedAggMap Marked F64).recordCount true
      logins (5, {0})).isSome := by
    decide +kernel
  obtain ⟨aggregator, h⟩ := Option.isSome_iff_exists.mp hsome
  exact ⟨aggregator, .record (.count h)⟩

/-- A positive interval lets the thread into its loop. -/
theorem start_step {w : Client F64} (hw : w.worker = .starting) (hne : w.flushInterval ≠ 0) :
    ClientStep .documented w (.start true) { w with worker := .waiting } := by
  have h : ClientStep .documented w (.start true) _ := .start hw
  have hloops : (true && Tokio.documented.interval w.flushInterval) = true := decide_eq_true hne
  rwa [if_pos hloops] at h

/-- A count call and a shutdown call up to the join, while the worker is starting. -/
theorem run_called (condition : Client F64 → ClientEvent F64 → Prop) (flushInterval : ℕ)
    (hc : ∀ w e, ¬ e.OfWorker → condition w e) : ∃ es w,
    Run (Where (ClientStep .documented) condition) (oneExporter flushInterval) es w ∧
    w.worker = .starting ∧ w.permit = true ∧ w.calls = [.joining] ∧
    w.recorded = [(logins, .count 5)] ∧ w.owed = some 1 ∧ w.exporters = 1 ∧
    w.flushInterval = flushInterval ∧ w.received = fun _ => [] := by
  obtain ⟨aggregator, hrecord⟩ := logins_step flushInterval
  have hcall : ∀ w (e : ClientEvent F64), e.OfCall → condition w e := fun w e he =>
    hc w e fun h => h.not_ofCall he
  refine ⟨_, _, ((((Run.nil.snoc ⟨hrecord, hc _ _ id⟩).snoc ⟨.shutdown, hcall _ _ trivial⟩).snoc
    ⟨.notify (c := 0) rfl, hcall _ _ trivial⟩).snoc ⟨.lock (c := 0) rfl rfl, hcall _ _ trivial⟩).snoc
    ⟨.take (c := 0) rfl, hcall _ _ trivial⟩, rfl, rfl, rfl, rfl, rfl, rfl, rfl, rfl⟩

/-- **With a flush interval of 0** the worker panics, and the shutdown call
returns with nothing exported. -/
theorem zero_interval_loses : ∃ es w,
    Run (ClientStep .documented) (oneExporter 0) es w ∧ CountKeys w.recorded ∧
      .returned ∈ w.calls ∧ ¬ Delivered w := by
  obtain ⟨es, w, hrun, hw, -, hcalls, hrecorded, howed, hexp, hinterval, hreceived⟩ :=
    run_called (fun _ _ => True) 0 fun _ _ _ => trivial
  have hstart : ClientStep .documented w (.start true) (w.finish .panicked) := by
    have h : ClientStep .documented w (.start true) _ := .start hw
    rwa [hinterval] at h
  have hjoin : ClientStep .documented (w.finish .panicked) (.join 0) _ :=
    .join (by rw [Client.finish, hcalls]; rfl) trivial
  refine ⟨_, _, (hrun.of_where.snoc hstart).snoc hjoin, ?_, ?_, fun h => ?_⟩
  · show CountKeys w.recorded
    rw [hrecorded]
    intro c hc c' hc' _ _
    rw [List.mem_singleton.mp hc']
    rfl
  · show .returned ∈ w.calls.set 0 .returned
    rw [hcalls]
    exact List.mem_cons_self
  · have hone : Once 0 (w.received 0) := h.once 1 howed 0 Nat.one_pos logins 5
      (by show w.recorded[0]? = _; rw [hrecorded]; rfl) 0
      (by show 0 < w.exporters; rw [hexp]; exact Nat.one_pos)
    obtain ⟨before, batch, after, hnil, -⟩ := hone
    rw [hreceived] at hnil
    simp at hnil

/-- With an interval of ten seconds the count is delivered. -/
theorem shutdown_delivers_one : ∃ w : Client F64,
    w.recorded = [(logins, .count 5)] ∧ w.exporters = 1 ∧ w.owed = some 1 ∧ Delivered w := by
  obtain ⟨es, w₁, hrun, hw₁, hp, hcalls, hrecorded, howed, hexp, hinterval, -⟩ :=
    run_called Starts 10000000000 fun w e => starts_of_not_worker
  have hne : w₁.flushInterval ≠ 0 := by
    rw [hinterval]
    decide
  have hstart := start_step hw₁ hne
  obtain ⟨w₂, hworks, hdone⟩ := works_final .documented (w := { w₁ with worker := .waiting }) rfl hp
  have hframe := hworks.frame
  obtain ⟨es', -, hworks⟩ := hworks
  have hjoining : w₂.calls = [.joining] := hframe.calls.trans hcalls
  have hjoin : ClientStep .documented w₂ (.join 0) _ :=
    .join (by rw [hjoining]; rfl) (by rw [hdone]; trivial)
  have hall := ((hrun.snoc ⟨hstart, .inr ⟨rfl, hne⟩⟩).append hworks).snoc ⟨hjoin, trivial⟩
  refine ⟨_, ?_, ?_, ?_, shutdown_delivers hall ?_ ?_⟩
  · exact hframe.recorded.trans hrecorded
  · exact hframe.exporters.trans hexp
  · exact hframe.owed.trans howed
  · show CountKeys w₂.recorded
    rw [hframe.recorded, hrecorded]
    intro c hc c' hc' _ _
    rw [List.mem_singleton.mp hc']
    rfl
  · show .returned ∈ w₂.calls.set 0 .returned
    rw [hjoining]
    exact List.mem_cons_self

end ChalkMetrics
