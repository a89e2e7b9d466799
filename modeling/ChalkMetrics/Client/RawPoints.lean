/-
# Raw points

A client that does not aggregate histograms: `record_histogram` offers a point
to the channel, and every round of the worker takes the channel empty and hands
the points out as one slice. `Feed` is the client with what was offered so far.

The channel is a queue, so what was handed out, what the worker has taken and
what waits are the points kept, in order (`Conveyed`), until the final drain
finds the channel empty. When a shutdown call returns every exporter has just
the points kept, in the order they were accepted: all but those that found the
channel full or came after that drain (`points_delivered`), in every run whose
worker gets into its loop. No histogram is in a batch of metrics (`Plain`).

Key definitions: `Feed`, `Offer`, `Conveyed`, `Passed`.
-/
import ChalkMetrics.Client.Shutdown

namespace ChalkMetrics

open Runs HashTable StripedAggMap

section

variable {F : Type}

def Channel.accepts (c : Channel F) : Bool := !(c.closed || c.queue.length ≥ c.capacity)

/-- A point offered with `try_send`: how many waited then, whether it was
accepted, and whether the final drain was over. -/
structure Offer (F : Type) where
  point : RawDistributionPoint F
  undrained : ℕ
  accepted : Bool
  late : Bool

/-- Accepted while a drain was to come. -/
def Offer.kept (o : Offer F) : Bool := o.accepted && !o.late

def Handed.points : Handed F → List (RawDistributionPoint F)
  | metrics _ => []
  | rawPoints points => points

/-- The slices of points one after another. -/
def slices (batches : List (Batch F)) : List (RawDistributionPoint F) :=
  batches.flatMap fun b => b.handed.points

/-- What the worker has taken out of the channel and not handed out. -/
def WorkerPhase.points : WorkerPhase F → List (RawDistributionPoint F)
  | draining _ points => points
  | _ => []

/-- The final drain has found the channel empty. -/
def WorkerPhase.late : WorkerPhase F → Bool
  | exporting true ⟨_, .rawPoints _⟩ _ => true
  | done => true
  | _ => false

variable [FloatOps F]

/-- A client and the points offered so far. -/
structure Feed (F : Type) [FloatOps F] where
  client : Client F
  offers : List (Offer F)

def offerOf (w : Client F) : ClientEvent F → List (Offer F)
  | .record _ x (.histogram value) =>
    (w.aggregator.rawSender.map fun c =>
      ⟨⟨x.namespacePath, x.metricName, ⟨x.pairs⟩, value⟩, c.queue.length, c.accepts,
        w.worker.late⟩).toList
  | _ => []

/-- The points that a drain finds, in the order they were accepted. -/
def Feed.kept (f : Feed F) : List (RawDistributionPoint F) :=
  (f.offers.filter Offer.kept).map Offer.point

variable [FloatBits F]

inductive FeedStep (tokio : Tokio) : Feed F → ClientEvent F → Feed F → Prop
  | step {f : Feed F} {e w'} (h : ClientStep tokio f.client e w') :
      FeedStep tokio f e ⟨w', f.offers ++ offerOf f.client e⟩

omit [FloatBits F] in
/-- What a client has done about raw points at some point of a run. -/
structure Passed (f : Feed F) : Prop where
  ordered : ∀ j < f.client.exporters, slices (f.client.received j) <+: f.kept
  same : ∀ j < f.client.exporters, f.client.received j <+: f.client.sent
  plain : ∀ j < f.client.exporters, ∀ b ∈ f.client.received j, ∀ p ∈ b.handed.out,
    p.2.value.kind ≠ .histogram
  lost : 0 < f.client.exporters → ∀ o ∈ f.offers, o.kept = false →
    o.undrained = rawPointChannelCapacity ∨ o.late = true
  returned : .returned ∈ f.client.calls → ∀ j < f.client.exporters,
    slices (f.client.received j) = f.kept ∧ f.client.received j = f.client.sent

/-! ### The channel -/

omit [FloatOps F] [FloatBits F] in
theorem trySend_eq (c : Channel F) (p : RawDistributionPoint F) :
    c.trySend p = if c.accepts then { c with queue := c.queue ++ [p] } else c := by
  unfold Channel.trySend Channel.accepts
  cases (c.closed || decide (c.queue.length ≥ c.capacity)) <;> rfl

/-- What is handed out and what the worker holds. -/
def Client.taken (w : Client F) : List (RawDistributionPoint F) := slices w.sent ++ w.worker.points

/-- The channel is a queue between the record calls and the worker. -/
structure Conveyed (f : Feed F) : Prop where
  sender : ∃ c, f.client.aggregator.rawSender = some c ∧ c.capacity = rawPointChannelCapacity ∧
    c.queue.length ≤ rawPointChannelCapacity ∧ (c.closed = true → f.client.worker.late = true)
  onWay : f.client.worker.late = false →
    f.client.taken ++ f.client.aggregator.rawQueue = f.kept
  settled : f.client.worker.late = true → f.client.taken = f.kept
  lost : ∀ o ∈ f.offers, o.kept = false →
    o.undrained = rawPointChannelCapacity ∨ o.late = true

omit [FloatOps F] [FloatBits F] in
theorem slices_append (batches batches' : List (Batch F)) :
    slices (batches ++ batches') = slices batches ++ slices batches' := List.flatMap_append

omit [FloatBits F] in
/-- A step that leaves the channel, what is taken and the last drain alone. -/
theorem Conveyed.idle {f : Feed F} {w' : Client F} (hf : Conveyed f)
    (hs : w'.aggregator.rawSender = f.client.aggregator.rawSender)
    (ht : w'.taken = f.client.taken) (hl : w'.worker.late = f.client.worker.late) :
    Conveyed ⟨w', f.offers ++ []⟩ where
  sender := by
    rw [hs, hl]
    exact hf.sender
  onWay h := by
    have hq : w'.aggregator.rawQueue = f.client.aggregator.rawQueue := by
      rw [rawQueue, rawQueue, hs]
    rw [ht, hq, Feed.kept, List.append_nil]
    exact hf.onWay (hl ▸ h)
  settled h := by
    rw [ht, Feed.kept, List.append_nil]
    exact hf.settled (hl ▸ h)
  lost := by
    rw [List.append_nil]
    exact hf.lost

omit [FloatBits F] in
/-- The final drain is over: what was taken is all that was kept. -/
theorem Conveyed.close {f : Feed F} {w' : Client F} (hf : Conveyed f)
    (hs : w'.aggregator.rawSender = f.client.aggregator.rawSender ∨
      w'.aggregator.rawSender = f.client.aggregator.closeReceiver.rawSender)
    (ht : w'.taken = f.client.taken) (hl : w'.worker.late = true)
    (hempty : f.client.worker.late = false → f.client.aggregator.rawQueue = []) :
    Conveyed ⟨w', f.offers ++ []⟩ where
  sender := by
    obtain ⟨c, hc, hcap, hlen, -⟩ := hf.sender
    rcases hs with hs | hs
    · exact ⟨c, hs.trans hc, hcap, hlen, fun _ => hl⟩
    · refine ⟨{ c with closed := true }, ?_, hcap, hlen, fun _ => hl⟩
      rw [hs, closeReceiver, hc]
      rfl
  onWay h := by
    rw [hl] at h
    cases h
  settled _ := by
    rw [ht, Feed.kept, List.append_nil]
    rcases hlate : f.client.worker.late with _ | _
    · have h := hf.onWay hlate
      rwa [hempty hlate, List.append_nil] at h
    · exact hf.settled hlate
  lost := by
    rw [List.append_nil]
    exact hf.lost

omit [FloatBits F] in
theorem kept_append (f : Feed F) (w : Client F) (o : Offer F) :
    Feed.kept ⟨w, f.offers ++ [o]⟩ = f.kept ++ if o.kept then [o.point] else [] := by
  rw [Feed.kept, List.filter_append, List.map_append, Feed.kept]
  cases h : o.kept <;> simp [h]

omit [FloatBits F] in
/-- A histogram is offered. -/
theorem Conveyed.offer {f : Feed F} {c : Channel F} (hf : Conveyed f)
    (hc : f.client.aggregator.rawSender = some c) (point : RawDistributionPoint F) (recorded) :
    Conveyed ⟨{ f.client with
        aggregator := { f.client.aggregator with rawSender := some (c.trySend point) }
        recorded },
      f.offers ++ [⟨point, c.queue.length, c.accepts, f.client.worker.late⟩]⟩ := by
  obtain ⟨c', hc', hcap, hlen, hclosed⟩ := hf.sender
  obtain rfl := Option.some.inj (hc.symm.trans hc')
  have hqueue : f.client.aggregator.rawQueue = c.queue := by
    rw [rawQueue, hc]
    rfl
  have hroom : c.accepts = true → c.queue.length < rawPointChannelCapacity := by
    intro ha
    simp only [Channel.accepts, hcap, Bool.not_eq_true', Bool.or_eq_false_iff, decide_eq_false_iff_not] at ha
    omega
  have hrefused : c.accepts = false → c.queue.length = rawPointChannelCapacity ∨
      f.client.worker.late = true := by
    intro ha
    simp only [Channel.accepts, hcap, Bool.not_eq_false', Bool.or_eq_true, decide_eq_true_eq] at ha
    rcases ha with ha | ha
    · exact .inr (hclosed ha)
    · exact .inl (by omega)
  refine ⟨?_, fun h => ?_, fun h => ?_, fun o ho hkept => ?_⟩
  · refine ⟨c.trySend point, rfl, ?_, ?_, ?_⟩
    · rw [trySend_eq]
      split_ifs <;> exact hcap
    · rw [trySend_eq]
      split_ifs with ha
      · rw [List.length_append, List.length_singleton]
        exact hroom ha
      · exact hlen
    · rw [trySend_eq]
      split_ifs <;> exact hclosed
  · have hlate : f.client.worker.late = false := h
    have hway := hf.onWay hlate
    rw [hqueue] at hway
    show f.client.taken ++ (c.trySend point).queue = _
    rw [kept_append, ← hway, trySend_eq, hlate]
    cases ha : c.accepts <;> simp [Offer.kept]
  · have hlate : f.client.worker.late = true := h
    show f.client.taken = _
    rw [kept_append, hf.settled hlate, hlate]
    simp [Offer.kept]
  · rcases List.mem_append.mp ho with ho | ho
    · exact hf.lost o ho hkept
    · obtain rfl := List.mem_singleton.mp ho
      rcases ha : c.accepts with _ | _
      · exact hrefused ha
      · simp only [Offer.kept, ha, Bool.true_and, Bool.not_eq_false'] at hkept
        exact .inr hkept

omit [FloatBits F] in
theorem Conveyed.endRound {f : Feed F} {final : Bool} (hf : Conveyed f)
    (hl : f.client.worker.late = true → final = true) (hp : f.client.worker.points = [])
    (hempty : final = true → f.client.worker.late = false → f.client.aggregator.rawQueue = []) :
    Conveyed ⟨f.client.endRound final, f.offers ++ []⟩ := by
  have htaken : (f.client.endRound final).taken = f.client.taken := by
    rw [Client.taken, Client.taken, hp]
    cases final <;> rfl
  cases final with
  | false =>
    refine hf.idle rfl htaken ?_
    rcases hlate : f.client.worker.late with _ | _
    · rfl
    · exact absurd (hl hlate) Bool.false_ne_true
  | true => exact hf.close (.inr rfl) htaken rfl (hempty rfl)

omit [FloatBits F] in
/-- Metrics are put in a batch. -/
theorem Conveyed.handMetrics {f : Feed F} {final : Bool}
    {out : List (UInt64 × FlushedMetric Marked F)} (hf : Conveyed f)
    (hl : f.client.worker.late = false) (hp : f.client.worker.points = []) :
    Conveyed ⟨f.client.handOut final (.metrics out), f.offers ++ []⟩ := by
  refine hf.idle rfl ?_ ?_
  · rw [Client.taken, Client.taken, hp, Client.handOut, slices_append]
    simp [slices, Handed.points, WorkerPhase.points]
  · rw [hl]
    cases final <;> rfl

omit [FloatBits F] in
/-- The points of a drain are put in a batch. -/
theorem Conveyed.handPoints {f : Feed F} {final : Bool} {points : List (RawDistributionPoint F)}
    (hf : Conveyed f) (hw : f.client.worker = .draining final points)
    (hempty : f.client.aggregator.rawQueue = []) :
    Conveyed ⟨f.client.handOut final (.rawPoints points), f.offers ++ []⟩ := by
  have htaken : (f.client.handOut final (.rawPoints points)).taken = f.client.taken := by
    rw [Client.taken, Client.taken, hw, Client.handOut, slices_append, List.append_assoc]
    simp [slices, Handed.points, WorkerPhase.points]
  cases final with
  | false => exact hf.idle rfl htaken (by rw [hw]; rfl)
  | true => exact hf.close (.inl rfl) htaken rfl fun _ => hempty

omit [FloatBits F] in
/-- A point goes from the channel to the worker. -/
theorem Conveyed.recv {f : Feed F} {final : Bool} {points : List (RawDistributionPoint F)}
    {point : RawDistributionPoint F} {queue : List (RawDistributionPoint F)} (hf : Conveyed f)
    (hw : f.client.worker = .draining final points)
    (hq : f.client.aggregator.rawQueue = point :: queue) :
    Conveyed ⟨{ f.client with
        worker := .draining final (points ++ [point])
        aggregator := f.client.aggregator.withQueue queue }, f.offers ++ []⟩ := by
  obtain ⟨c, hc, hcap, hlen, hclosed⟩ := hf.sender
  have hqueue : c.queue = point :: queue := by
    rwa [rawQueue, hc] at hq
  have hlate : f.client.worker.late = false := by
    rw [hw]
    rfl
  refine ⟨⟨{ c with queue }, ?_, hcap, ?_, fun h => ?_⟩, fun _ => ?_, nofun, ?_⟩
  · rw [withQueue, hc]
    rfl
  · rw [hqueue, List.length_cons] at hlen
    exact Nat.le_of_succ_le hlen
  · rw [hclosed h] at hlate
    cases hlate
  · have hway := hf.onWay hlate
    rw [hq, Client.taken, hw] at hway
    have hrest : (f.client.aggregator.withQueue queue).rawQueue = queue := by
      rw [withQueue, rawQueue, hc]
      rfl
    rw [Feed.kept, List.append_nil, Client.taken, hrest]
    simp only [WorkerPhase.points] at hway ⊢
    rw [← List.append_assoc, List.append_assoc _ [point] queue]
    exact hway
  · rw [List.append_nil]
    exact hf.lost

omit [FloatOps F] [FloatBits F] in
theorem late_exporting {final : Bool} {batch : Batch F} {next : ℕ}
    (h : WorkerPhase.late (.exporting final batch next) = true) : final = true := by
  cases final with
  | true => rfl
  | false => cases h

theorem conveyed_step {tokio : Tokio} {f : Feed F} {w' : Client F} {e : ClientEvent F}
    (h : ClientStep tokio f.client e w') (hne : w'.worker ≠ .panicked) (hf : Conveyed f) :
    Conveyed ⟨w', f.offers ++ offerOf f.client e⟩ := by
  obtain ⟨w, offers⟩ := f
  have hidle : ∀ {w' : Client F}, w'.aggregator.rawSender = w.aggregator.rawSender →
      w'.taken = w.taken → w'.worker.late = w.worker.late → Conveyed ⟨w', offers ++ []⟩ := hf.idle
  by_cases hcall : e.OfCall
  · have hwork := workSame_step h hcall
    have hoffer : offerOf w e = [] := by
      cases e with
      | record grow x u => exact hcall.elim
      | _ => rfl
    rw [hoffer]
    have htaken : w'.taken = w.taken := by
      rw [Client.taken, Client.taken, hwork.sent, hwork.worker]
    exact hidle (by rw [hwork.aggregator]) htaken (by rw [hwork.worker])
  cases h with
  | @record grow x u aggregator h =>
    obtain ⟨c, hc, -⟩ := hf.sender
    cases u with
    | count delta =>
      cases h with
      | count h => exact hidle (by rw [recordFound_stripes h]) rfl rfl
    | gauge value =>
      cases h with
      | gauge h => exact hidle (by rw [recordFound_stripes h]) rfl rfl
    | histogram value =>
      cases h with
      | histogram h =>
        have hc : w.aggregator.rawSender = some c := hc
        rw [recordHistogram, hc] at h
        obtain rfl := Option.some.inj h
        simp only [offerOf, hc]
        exact hf.offer hc _ _
  | @start built hw =>
    split_ifs at hne ⊢ with hloops
    · exact hidle rfl (by rw [Client.taken, Client.taken, hw]; rfl) (by rw [hw]; rfl)
    · exact absurd rfl hne
  | tick hw => exact hidle rfl (by rw [Client.taken, Client.taken, hw]; rfl) (by rw [hw]; rfl)
  | notified hw hp => exact hidle rfl (by rw [Client.taken, Client.taken, hw]; rfl) (by rw [hw]; rfl)
  | @stripe final call scan out aggregator hw hn h =>
    have hsender : aggregator.rawSender = w.aggregator.rawSender := by
      rw [← (Prod.mk.inj h).2]
    exact hidle hsender (by rw [Client.taken, Client.taken, hw]; rfl) (by rw [hw]; cases final <;> rfl)
  | @flushed final call hw hn =>
    unfold Client.flushed
    split_ifs
    · exact hidle rfl (by rw [Client.taken, Client.taken, hw]; rfl) (by rw [hw]; cases final <;> rfl)
    · exact hf.handMetrics (by rw [hw]; cases final <;> rfl) (by rw [hw]; rfl)
  | @exportTo final batch next ok hw hn =>
    have hlate : WorkerPhase.late (.exporting final batch (next + 1)) =
        WorkerPhase.late (.exporting final batch next) := by
      obtain ⟨serial, handed⟩ := batch
      cases final <;> cases handed <;> rfl
    exact hidle rfl (by rw [Client.taken, Client.taken, hw]; rfl) (by rw [hw]; exact hlate)
  | exportPanics hw hn => exact absurd rfl hne
  | @exported final batch hw =>
    obtain ⟨serial, handed⟩ := batch
    cases handed with
    | metrics out =>
      exact hidle rfl (by rw [Client.taken, Client.taken, hw]; rfl) (by rw [hw]; cases final <;> rfl)
    | rawPoints points =>
      refine hf.endRound (fun hl => late_exporting (hw ▸ hl)) (by rw [hw]; rfl) fun hfinal hl => ?_
      rw [hw, hfinal] at hl
      cases hl
  | @recv final points point queue hw hq => exact hf.recv hw hq
  | @drained final points hw hq =>
    unfold Client.drained
    split_ifs with hempty
    · refine hf.endRound (fun hl => ?_) ?_ fun _ _ => hq
      · rw [hw] at hl
        cases hl
      · rw [hw]
        exact List.isEmpty_iff.mp hempty
    · exact hf.handPoints hw hq
  | _ => exact absurd trivial hcall

/-! ### No histograms -/

/-- No histogram is stored or put out. -/
structure Plain (w : Client F) : Prop where
  placed : w.aggregator.Placed
  stored : ∀ k, ∀ v ∈ w.aggregator.bagOf k, v.2.kind ≠ .histogram
  out : ∀ p ∈ w.out, p.2.value.kind ≠ .histogram

/-- What a stripe puts out has the kinds of what is stored. -/
theorem kind_of_flushStripe {s s' : StripedAggMap Marked F} {scan : Fin 64 → Scan} {i : Fin 64} {out}
    (h : s.flushStripe scan i = (out, s')) (hp : Placed s) {p : UInt64 × FlushedMetric Marked F}
    (hout : p ∈ out) : ∃ v ∈ s.bagOf p.1, p.2.value.kind = v.2.kind := by
  obtain ⟨hin, hother, -⟩ := flushStripe_spec scan hp i
  rw [h] at hin hother
  have hmem : p.2 ∈ outOf out p.1 := List.mem_map.mpr ⟨p, List.mem_filter.mpr ⟨hout, by simp⟩, rfl⟩
  by_cases hk : stripeIdx p.1 = i
  · obtain ⟨l, hperm, hflushed, -⟩ := hin p.1 hk
    rw [hflushed] at hmem
    obtain ⟨v, hv, hdrain⟩ := List.mem_filterMap.mp hmem
    obtain ⟨value, hvalue, hmetric⟩ := Option.map_eq_some_iff.mp hdrain
    refine ⟨v, hperm.subset hv, ?_⟩
    rw [← hmetric]
    exact AggSlot.flush_kind hvalue
  · rw [(hother _ hk).1] at hmem
    exact absurd hmem List.not_mem_nil

theorem Plain.recordSlot {w : Client F} {grow x} {u : Update Marked F} {aggregator} (hw : Plain w)
    (h : w.aggregator.recordSlot grow x u = some aggregator) (hu : u.kind ≠ .histogram) (recorded) :
    Plain { w with aggregator, recorded } := by
  obtain ⟨habs, hother, hplaced⟩ := recordSlot_spec h
  refine ⟨hplaced hw.placed, fun k v hv => ?_, hw.out⟩
  by_cases hk : k = x.key
  · subst hk
    rcases absorbed_kind habs v hv with ⟨v₀, hv₀, hkind⟩ | hkind
    · rw [hkind]
      exact hw.stored _ v₀ hv₀
    · rw [hkind]
      exact hu
  · exact hw.stored k v (hother k hk ▸ hv)

theorem plain_step {tokio : Tokio} {w w' : Client F} {e : ClientEvent F}
    (h : ClientStep tokio w e w') (hraw : ∃ c, w.aggregator.rawSender = some c) (hw : Plain w) :
    Plain w' := by
  have hquiet : e.Quiet → Plain w' := by
    intro hq
    have hstill := still_step h hq
    refine ⟨fun i k hk => ?_, fun k v hv => ?_, fun p hp => hw.out p (hstill.out ▸ hp)⟩
    · rw [hstill.stripes]
      exact hw.placed i k hk
    · rw [bagOf, hstill.stripes] at hv
      exact hw.stored k v hv
  cases h with
  | @record grow x u aggregator h =>
    cases u with
    | count delta =>
      cases h with
      | count h =>
        refine hw.recordSlot h (fun hkind => ?_) _
        cases hkind
    | gauge value =>
      cases h with
      | gauge h =>
        refine hw.recordSlot h (fun hkind => ?_) _
        cases hkind
    | histogram value =>
      obtain ⟨c, hc⟩ := hraw
      cases h with
      | histogram h =>
        rw [recordHistogram, hc] at h
        obtain rfl := Option.some.inj h
        exact ⟨hw.placed, hw.stored, hw.out⟩
  | @stripe final call scan out aggregator hphase hn h =>
    have ht := stripe_counts h hw.placed
    refine ⟨ht.placed, fun k v hv => hw.stored k v (ht.subset k v hv), fun p hp => ?_⟩
    rw [Client.out, WorkerPhase.out, ← List.append_assoc] at hp
    rcases List.mem_append.mp hp with hp | hp
    · refine hw.out p ?_
      rw [Client.out, hphase]
      exact hp
    · obtain ⟨v, hv, hkind⟩ := kind_of_flushStripe h hw.placed hp
      rw [hkind]
      exact hw.stored _ v hv
  | _ => exact hquiet trivial

/-! ### Delivery -/

/-- What holds in every state of a run. -/
structure Feeding (f : Feed F) : Prop where
  intact : Intact f.client
  alive : Alive f.client
  conveyed : f.client.worker ≠ .panicked → Conveyed f
  plain : f.client.worker ≠ .panicked → Plain f.client

theorem feeding_start (makeHash) (mb : ℕ) (ε : F) (n interval : ℕ) :
    Feeding ⟨buildInner makeHash mb ε false n interval, []⟩ where
  intact := intact_build makeHash mb ε false n interval
  alive := nofun
  conveyed _ :=
    { sender := ⟨_, rfl, rfl, Nat.zero_le _, nofun⟩
      onWay := fun _ => rfl
      settled := nofun
      lost := nofun }
  plain _ := ⟨placed_new makeHash mb ε _, nofun, nofun⟩

theorem feeding_step {tokio : Tokio} {f f' : Feed F} {e : ClientEvent F}
    (h : FeedStep tokio f e f') (hs : Starts f.client e) (hf : Feeding f) : Feeding f' := by
  obtain ⟨h⟩ := h
  -- a thread that panicked stays so
  have hbefore : ∀ {w' : Client F}, ClientStep tokio f.client e w' → w'.worker ≠ .panicked →
      f.client.worker ≠ .panicked := by
    intro w' h hne hpanicked
    have hsame := finished_worker h (by rw [hpanicked]; trivial)
    exact hne (hsame.trans hpanicked)
  refine ⟨intact_step h hf.intact, alive_step h hs hf.alive, fun hne => ?_, fun hne => ?_⟩
  · exact conveyed_step h hne (hf.conveyed (hbefore h hne))
  · obtain ⟨c, hc, -⟩ := (hf.conveyed (hbefore h hne)).sender
    exact plain_step h ⟨c, hc⟩ (hf.plain (hbefore h hne))

omit [FloatOps F] [FloatBits F] in
theorem slices_mono {batches batches' : List (Batch F)} (h : batches <+: batches') :
    slices batches <+: slices batches' := by
  obtain ⟨later, rfl⟩ := h
  rw [slices_append]
  exact List.prefix_append _ _

theorem Feeding.live {f : Feed F} (hf : Feeding f) {j : ℕ} (hj : j < f.client.exporters) :
    f.client.worker ≠ .panicked := by
  intro hpanicked
  rw [hf.alive hpanicked] at hj
  exact Nat.not_lt_zero _ hj

/-- What an exporter has is what was handed out so far. -/
theorem Feeding.received_mono {f : Feed F} (hf : Feeding f) {j : ℕ} (hj : j < f.client.exporters) :
    f.client.received j <+: f.client.sent := by
  rw [hf.intact.handedOut.received (hf.live hj) j hj]
  split_ifs
  · exact List.dropLast_prefix _
  · exact List.prefix_refl _

omit [FloatBits F] in
theorem Conveyed.sent_kept {f : Feed F} (hf : Conveyed f) : slices f.client.sent <+: f.kept := by
  have htaken : slices f.client.sent <+: f.client.taken := List.prefix_append _ _
  rcases hlate : f.client.worker.late with _ | _
  · rw [← hf.onWay hlate]
    exact htaken.trans (List.prefix_append _ _)
  · rw [← hf.settled hlate]
    exact htaken

theorem passed_of_feeding {f : Feed F} (hf : Feeding f) : Passed f := by
  refine ⟨fun j hj => ?_, fun j hj => hf.received_mono hj, fun j hj b hb p hp => ?_, fun hpos => ?_,
    fun hret j hj => ?_⟩
  · exact (slices_mono (hf.received_mono hj)).trans (hf.conveyed (hf.live hj)).sent_kept
  · refine (hf.plain (hf.live hj)).out p (List.mem_append_left _ ?_)
    exact List.mem_flatMap.mpr ⟨b, (hf.received_mono hj).subset hb, hp⟩
  · exact (hf.conveyed (hf.live hpos)).lost
  · have hdone : f.client.worker = .done :=
      (finished_cases (hf.intact.locked.returned hret)).resolve_right (hf.live hj)
    have hall : f.client.received j = f.client.sent := by
      rw [hf.intact.handedOut.received (hf.live hj) j hj, hdone]
      rfl
    refine ⟨?_, hall⟩
    have hsettled := (hf.conveyed (hf.live hj)).settled (by rw [hdone]; rfl)
    rw [Client.taken, hdone] at hsettled
    rw [hall, ← hsettled]
    exact (List.append_nil _).symm

/-- **Raw points are passed on in order, each once**, in every run whose worker
gets into its loop: only a point that found the channel full or came after the
final drain is missing when a shutdown call returns. -/
theorem points_delivered {tokio : Tokio} {makeHash} {mb : ℕ} {ε : F} {n interval : ℕ}
    {es : List (ClientEvent F)} {f : Feed F}
    (h : Run (Where (FeedStep tokio) fun f => Starts f.client)
      ⟨buildInner makeHash mb ε false n interval, []⟩ es f) : Passed f :=
  passed_of_feeding (h.inv (I := fun _ f => Feeding f) (feeding_start makeHash mb ε n interval)
    fun _ _ _ _ hf hstep => feeding_step hstep.1 hstep.2 hf)

/-- The worker alone is offered nothing. -/
theorem feed_works {tokio : Tokio} {f : Feed F} {w' : Client F} (h : Works tokio f.client w') :
    ∃ es, Run (Where (FeedStep tokio) fun f => Starts f.client) f es ⟨w', f.offers⟩ := by
  obtain ⟨es, he, h⟩ := h
  induction h with
  | nil => exact ⟨[], .nil⟩
  | @snoc es v e w' h hs ih =>
    obtain ⟨es', hrun⟩ := ih fun e hmem => he e (List.mem_append_left _ hmem)
    have hstep : FeedStep tokio ⟨v, f.offers⟩ e ⟨w', f.offers ++ offerOf v e⟩ := .step hs.1
    have hnone : offerOf v e = [] := by
      have hworker := he e (List.mem_append_right _ List.mem_cons_self)
      cases e with
      | record grow x u => exact hworker.elim
      | _ => rfl
    rw [hnone, List.append_nil] at hstep
    exact ⟨es' ++ [e], hrun.snoc ⟨hstep, hs.2⟩⟩

end

/-! ### Two clients -/

/-- A client with one exporter that does not aggregate histograms. -/
abbrev rawClient (flushInterval : ℕ) : Client F64 :=
  buildInner (fun _ k => k) 200 0.001 false 1 flushInterval

/-- A histogram of the value zero. -/
def zeroPoint : RawDistributionPoint F64 := ⟨[], logins.metricName, ⟨[]⟩, ⟨0⟩⟩

/-- A histogram and a shutdown call up to the join, while the worker is starting. -/
theorem run_offered (condition : Feed F64 → ClientEvent F64 → Prop) (flushInterval : ℕ)
    (hc : ∀ f e, ¬ e.OfWorker → condition f e) : ∃ es f,
    Run (Where (FeedStep .documented) condition) ⟨rawClient flushInterval, []⟩ es f ∧
    f.client.worker = .starting ∧ f.client.permit = true ∧ f.client.calls = [.joining] ∧
    f.client.exporters = 1 ∧ f.client.flushInterval = flushInterval ∧
    f.client.received = (fun _ => []) ∧ f.kept = [zeroPoint] := by
  have hrecord : ClientStep .documented (rawClient flushInterval)
      (.record false logins (.histogram ⟨0⟩)) _ := .record (.histogram rfl)
  have hcall : ∀ f (e : ClientEvent F64), e.OfCall → condition f e := fun f e he =>
    hc f e fun h => h.not_ofCall he
  refine ⟨_, _, ((((Run.nil.snoc ⟨.step hrecord, hc _ _ id⟩).snoc
    ⟨.step .shutdown, hcall _ _ trivial⟩).snoc ⟨.step (.notify (c := 0) rfl), hcall _ _ trivial⟩).snoc
    ⟨.step (.lock (c := 0) rfl rfl), hcall _ _ trivial⟩).snoc
    ⟨.step (.take (c := 0) rfl), hcall _ _ trivial⟩, rfl, rfl, rfl, rfl, rfl, rfl, rfl⟩

/-- **With a flush interval of 0** the point is accepted, and never handed out. -/
theorem zero_interval_drops : ∃ es f,
    Run (FeedStep .documented) ⟨rawClient 0, []⟩ es f ∧ ¬ Passed f := by
  obtain ⟨es, f, hrun, hw, -, hcalls, hexp, hinterval, hreceived, hkept⟩ :=
    run_offered (fun _ _ => True) 0 fun _ _ _ => trivial
  have hstart : ClientStep .documented f.client (.start true) (f.client.finish .panicked) := by
    have h : ClientStep .documented f.client (.start true) _ := .start hw
    rwa [hinterval] at h
  have hjoin : ClientStep .documented (f.client.finish .panicked) (.join 0) _ :=
    .join (by rw [Client.finish, hcalls]; rfl) trivial
  refine ⟨_, _, (hrun.of_where.snoc (.step hstart)).snoc (.step hjoin), fun h => ?_⟩
  have hreturned : .returned ∈ f.client.calls.set 0 .returned := by
    rw [hcalls]
    exact List.mem_cons_self
  have hslices := (h.returned hreturned 0 (by show 0 < f.client.exporters; rw [hexp]; exact Nat.one_pos)).1
  have hoffers : Feed.kept ⟨f.client, (f.offers ++ []) ++ []⟩ = [zeroPoint] := by
    rw [List.append_nil, List.append_nil]
    exact hkept
  have hnil : slices (f.client.received 0) = Feed.kept ⟨f.client, (f.offers ++ []) ++ []⟩ := hslices
  rw [hoffers, hreceived] at hnil
  cases hnil

/-- With an interval of ten seconds the point is handed out. -/
theorem points_delivered_one : ∃ f : Feed F64, f.kept = [zeroPoint] ∧ f.client.exporters = 1 ∧
    .returned ∈ f.client.calls ∧ Passed f := by
  obtain ⟨es, f, hrun, hw, hp, hcalls, hexp, hinterval, -, hkept⟩ :=
    run_offered (fun f => Starts f.client) 10000000000 fun f e => starts_of_not_worker
  have hne : f.client.flushInterval ≠ 0 := by
    rw [hinterval]
    exact Nat.succ_ne_zero 9999999999
  have hstart : Works .documented f.client { f.client with worker := .waiting } :=
    .step (start_step hw hne) (.inr ⟨rfl, hne⟩) id
  obtain ⟨w', hfinal, hdone⟩ := works_final .documented
    (w := { f.client with worker := .waiting }) rfl hp
  have hworks := hstart.trans hfinal
  have hframe := hworks.frame
  obtain ⟨es', hworking⟩ := feed_works hworks
  have hjoining : w'.calls = [.joining] := hframe.calls.trans hcalls
  have hjoin : ClientStep .documented w' (.join 0) _ :=
    .join (by rw [hjoining]; rfl) (by rw [hdone]; trivial)
  refine ⟨_, ?_, ?_, ?_, points_delivered ((hrun.append hworking).snoc ⟨.step hjoin, trivial⟩)⟩
  · show Feed.kept ⟨w', f.offers ++ []⟩ = _
    rw [List.append_nil]
    exact hkept
  · exact hframe.exporters.trans hexp
  · show .returned ∈ w'.calls.set 0 .returned
    rw [hjoining]
    exact List.mem_cons_self

end ChalkMetrics
