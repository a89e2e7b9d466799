/-
# The client and its worker

`ClientStep`: record calls, the flush worker and calls of
`MetricsClient::shutdown`, in any interleaving. The worker's thread builds its
runtime, skips the first tick and then loops over `select!`: a tick, or the
permit of the `Notify` that shutdown calls leave; after a flush its metrics and
then the raw points go to the exporters one after another. A shutdown call
leaves a permit, takes the lock, the handle, and joins the thread.

The state also has what happened so far: the record calls, the batches and,
from the first shutdown call on, how many record calls came before it.

Key definitions: `Client`, `ClientStep`, `WorkerPhase`, `ShutdownPhase`.
-/
import ChalkMetrics.Client.Marks

namespace ChalkMetrics

open Runs

/-- `time::interval` of tokio: it panics on a zero period. -/
structure Tokio where
  interval : ℕ → Bool
  interval_eq_false : ∀ period, interval period = false ↔ period = 0

def rawPointChannelCapacity : ℕ := 16384

/-- What exporters are handed: metrics, each with the key of its entry, or raw points. -/
inductive Handed (F : Type) where
  | metrics (out : List (UInt64 × FlushedMetric Marked F))
  | rawPoints (points : List (RawDistributionPoint F))

/-- `serial` tells equal batches apart. -/
structure Batch (F : Type) where
  serial : ℕ
  handed : Handed F

inductive WorkerPhase (F : Type) where
  | starting
  | waiting
  | flushing (final : Bool) (call : FlushCall Marked F)
  | exporting (final : Bool) (batch : Batch F) (next : ℕ)
  | draining (final : Bool) (points : List (RawDistributionPoint F))
  | done
  | panicked

inductive ShutdownPhase where
  | called
  | notified
  | locked
  | joining
  | returned
deriving DecidableEq

structure Client (F : Type) [FloatOps F] where
  aggregator : StripedAggMap Marked F
  exporters : ℕ
  flushInterval : ℕ
  worker : WorkerPhase F
  /-- The permit of `shutdown_notify`. -/
  permit : Bool
  /-- `worker_handle` is `Some`. -/
  handle : Bool
  /-- The shutdown call that holds the lock of `worker_handle`. -/
  guard : Option ℕ
  calls : List ShutdownPhase
  recorded : List (Series × Update (BitVec 64) F)
  owed : Option ℕ
  sent : List (Batch F)
  received : ℕ → List (Batch F)

def Handed.out {F : Type} : Handed F → List (UInt64 × FlushedMetric Marked F)
  | metrics out => out
  | rawPoints _ => []

/-- The worker's thread is at its end. -/
def WorkerPhase.Finished {F : Type} : WorkerPhase F → Prop
  | done => True
  | panicked => True
  | _ => False

section

variable {F : Type} [FloatOps F]

/-- `build_inner`, with the number of exporters. -/
def buildInner (makeHash : Fin 64 → UInt64 → UInt64) (maxBuckets : ℕ) (initialError : F)
    (aggregateDistrMetrics : Bool) (exporters flushInterval : ℕ) : Client F where
  aggregator := .new makeHash maxBuckets initialError
    (if aggregateDistrMetrics then none else some ⟨rawPointChannelCapacity, [], false⟩)
  exporters := exporters
  flushInterval := flushInterval
  worker := .starting
  permit := false
  handle := true
  guard := none
  calls := []
  recorded := []
  owed := none
  sent := []
  received _ := []

namespace StripedAggMap

/-- The raw points that wait for the worker. -/
def rawQueue {M : Type} (s : StripedAggMap M F) : List (RawDistributionPoint F) :=
  s.rawSender.elim [] Channel.queue

def withQueue {M : Type} (s : StripedAggMap M F) (queue : List (RawDistributionPoint F)) :
    StripedAggMap M F :=
  { s with rawSender := s.rawSender.map fun c => { c with queue } }

/-- The receiver is gone. -/
def closeReceiver {M : Type} (s : StripedAggMap M F) : StripedAggMap M F :=
  { s with rawSender := s.rawSender.map fun c => { c with closed := true } }

theorem rawQueue_closeReceiver {M : Type} (s : StripedAggMap M F) :
    s.closeReceiver.rawQueue = s.rawQueue := by
  unfold closeReceiver rawQueue
  cases s.rawSender <;> rfl

end StripedAggMap

namespace Client

/-- The thread ends, by return or by panic. -/
def finish (w : Client F) (worker : WorkerPhase F) : Client F :=
  { w with worker, aggregator := w.aggregator.closeReceiver }

/-- The end of one round of the loop. -/
def endRound (w : Client F) (final : Bool) : Client F :=
  if final then w.finish .done else { w with worker := .waiting }

/-- A batch for all exporters. -/
def handOut (w : Client F) (final : Bool) (handed : Handed F) : Client F :=
  let batch : Batch F := ⟨w.sent.length, handed⟩
  { w with worker := .exporting final batch 0, sent := w.sent ++ [batch] }

/-- `flush_and_export` once the map is flushed. -/
def flushed (w : Client F) (final : Bool) (out : List (UInt64 × FlushedMetric Marked F)) : Client F :=
  if out.isEmpty then { w with worker := .draining final [] } else w.handOut final (.metrics out)

/-- `drain_raw_and_export` once `try_recv` found nothing. -/
def drained (w : Client F) (final : Bool) (points : List (RawDistributionPoint F)) : Client F :=
  if points.isEmpty then w.endRound final else w.handOut final (.rawPoints points)

/-- All exporters have the batch. -/
def exported (w : Client F) (final : Bool) : Handed F → Client F
  | .metrics _ => { w with worker := .draining final [] }
  | .rawPoints _ => w.endRound final

end Client

inductive ClientEvent (F : Type) where
  | record (grow : Bool) (x : Series) (u : Update (BitVec 64) F)
  | start (built : Bool)
  | tick
  | notified
  | stripe
  | flushed
  | exportTo (ok : Bool)
  | exportPanics
  | exported
  | recv
  | drained
  | shutdown
  | notify (call : ℕ)
  | lock (call : ℕ)
  | take (call : ℕ)
  | join (call : ℕ)

variable [FloatBits F]

/-- The steps. An exporter returns, and what it returns is printed at most, or it
panics, which nothing catches: the thread ends. A record call is a step if it
returns. -/
inductive ClientStep (tokio : Tokio) : Client F → ClientEvent F → Client F → Prop
  | record {w : Client F} {grow x u aggregator}
      (h : MapStep w.aggregator (.record grow x (u.mark w.recorded.length)) aggregator) :
      ClientStep tokio w (.record grow x u)
        { w with aggregator, recorded := w.recorded ++ [(x, u)] }
  | start {w : Client F} {built} (hw : w.worker = .starting) :
      ClientStep tokio w (.start built)
        (if built && tokio.interval w.flushInterval then { w with worker := .waiting }
          else w.finish .panicked)
  | tick {w : Client F} (hw : w.worker = .waiting) :
      ClientStep tokio w .tick { w with worker := .flushing false ⟨0, []⟩ }
  | notified {w : Client F} (hw : w.worker = .waiting) (hp : w.permit = true) :
      ClientStep tokio w .notified { w with worker := .flushing true ⟨0, []⟩, permit := false }
  | stripe {w : Client F} {final call scan out aggregator} (hw : w.worker = .flushing final call)
      (hn : call.next < 64)
      (h : w.aggregator.flushStripe scan ⟨call.next, hn⟩ = (out, aggregator)) :
      ClientStep tokio w .stripe
        { w with worker := .flushing final ⟨call.next + 1, call.out ++ out⟩, aggregator }
  | flushed {w : Client F} {final call} (hw : w.worker = .flushing final call)
      (hn : call.next = 64) : ClientStep tokio w .flushed (w.flushed final call.out)
  | exportTo {w : Client F} {final batch next ok} (hw : w.worker = .exporting final batch next)
      (hn : next < w.exporters) :
      ClientStep tokio w (.exportTo ok)
        { w with
          worker := .exporting final batch (next + 1)
          received := Function.update w.received next (w.received next ++ [batch]) }
  | exportPanics {w : Client F} {final batch next} (hw : w.worker = .exporting final batch next)
      (hn : next < w.exporters) : ClientStep tokio w .exportPanics (w.finish .panicked)
  | exported {w : Client F} {final batch} (hw : w.worker = .exporting final batch w.exporters) :
      ClientStep tokio w .exported (w.exported final batch.handed)
  | recv {w : Client F} {final points point queue} (hw : w.worker = .draining final points)
      (hq : w.aggregator.rawQueue = point :: queue) :
      ClientStep tokio w .recv
        { w with
          worker := .draining final (points ++ [point])
          aggregator := w.aggregator.withQueue queue }
  | drained {w : Client F} {final points} (hw : w.worker = .draining final points)
      (hq : w.aggregator.rawQueue = []) : ClientStep tokio w .drained (w.drained final points)
  | shutdown {w : Client F} :
      ClientStep tokio w .shutdown
        { w with
          calls := w.calls ++ [.called]
          owed := some (w.owed.getD w.recorded.length) }
  | notify {w : Client F} {c} (hc : w.calls[c]? = some .called) :
      ClientStep tokio w (.notify c) { w with permit := true, calls := w.calls.set c .notified }
  | lock {w : Client F} {c} (hc : w.calls[c]? = some .notified) (hg : w.guard = none) :
      ClientStep tokio w (.lock c) { w with guard := some c, calls := w.calls.set c .locked }
  | take {w : Client F} {c} (hc : w.calls[c]? = some .locked) :
      ClientStep tokio w (.take c)
        (if w.handle then { w with handle := false, calls := w.calls.set c .joining }
          else { w with guard := none, calls := w.calls.set c .returned })
  | join {w : Client F} {c} (hc : w.calls[c]? = some .joining) (hw : w.worker.Finished) :
      ClientStep tokio w (.join c) { w with guard := none, calls := w.calls.set c .returned }

end
end ChalkMetrics
