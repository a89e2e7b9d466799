/-
# Who changes what

What the steps of the client leave alone: the worker and the record calls leave
the shutdown calls (`callsSame_step`), a quiet step leaves what is recorded,
stored and put out (`still_step`), the worker goes on in a round that is the
final one or not (`round_step`), a thread panics on its way into its loop or in
an exporter (`panicked_step`) and at its end stays there (`finished_step`).

Key definitions: `Still`, `CallsSame`, `WorkerFrame`, `WorkerPhase.cleared`.
-/
import ChalkMetrics.Client.Worker

namespace ChalkMetrics

section

variable {F : Type} [FloatOps F]

/-! ### Phases of the worker -/

def WorkerPhase.out : WorkerPhase F → List (UInt64 × FlushedMetric Marked F)
  | flushing _ call => call.out
  | _ => []

def WorkerPhase.final : WorkerPhase F → Bool
  | flushing final _ => final
  | exporting final _ _ => final
  | draining final _ => final
  | done => true
  | _ => false

/-- The stripes the final flush has been through. -/
def WorkerPhase.cleared : WorkerPhase F → ℕ
  | flushing true call => call.next
  | exporting true _ _ => 64
  | draining true _ => 64
  | done => 64
  | _ => 0

/-- The last batch has not got to exporter `j` yet. -/
def WorkerPhase.behind (j : ℕ) : WorkerPhase F → Bool
  | exporting _ _ next => next ≤ j
  | _ => false

/-- All metrics put out so far. -/
def Client.out (w : Client F) : List (UInt64 × FlushedMetric Marked F) :=
  w.sent.flatMap (fun b => b.handed.out) ++ w.worker.out

variable [FloatBits F]

/-! ### Shutdown calls and the others -/

/-- The steps of shutdown calls. -/
def ClientEvent.OfCall : ClientEvent F → Prop
  | .shutdown => True
  | .notify _ => True
  | .lock _ => True
  | .take _ => True
  | .join _ => True
  | _ => False

/-- What record calls and the worker leave to the shutdown calls. -/
structure CallsSame (w w' : Client F) : Prop where
  calls : w'.calls = w.calls
  owed : w'.owed = w.owed
  handle : w'.handle = w.handle
  guard : w'.guard = w.guard

/-- What shutdown calls leave to the others. -/
structure WorkSame (w w' : Client F) : Prop where
  worker : w'.worker = w.worker
  aggregator : w'.aggregator = w.aggregator
  recorded : w'.recorded = w.recorded
  sent : w'.sent = w.sent
  received : w'.received = w.received
  exporters : w'.exporters = w.exporters

theorem callsSame_step {tokio : Tokio} {w w' : Client F} {e : ClientEvent F}
    (h : ClientStep tokio w e w') (he : ¬ e.OfCall) :
    CallsSame w w' ∧ (e ≠ .notified → w'.permit = w.permit) := by
  have hend : ∀ final, CallsSame w (w.endRound final) ∧ (w.endRound final).permit = w.permit := by
    intro final
    cases final <;> exact ⟨⟨rfl, rfl, rfl, rfl⟩, rfl⟩
  have hsame : ∀ {w' : Client F}, CallsSame w w' ∧ w'.permit = w.permit →
      CallsSame w w' ∧ (e ≠ .notified → w'.permit = w.permit) := fun h => ⟨h.1, fun _ => h.2⟩
  cases h with
  | record h => exact hsame ⟨⟨rfl, rfl, rfl, rfl⟩, rfl⟩
  | start hw => split_ifs <;> exact hsame ⟨⟨rfl, rfl, rfl, rfl⟩, rfl⟩
  | tick hw => exact hsame ⟨⟨rfl, rfl, rfl, rfl⟩, rfl⟩
  | notified hw hp => exact ⟨⟨rfl, rfl, rfl, rfl⟩, fun hn => absurd rfl hn⟩
  | stripe hw hn h => exact hsame ⟨⟨rfl, rfl, rfl, rfl⟩, rfl⟩
  | flushed hw hn =>
    unfold Client.flushed
    split_ifs <;> exact hsame ⟨⟨rfl, rfl, rfl, rfl⟩, rfl⟩
  | exportTo hw hn => exact hsame ⟨⟨rfl, rfl, rfl, rfl⟩, rfl⟩
  | exportPanics hw hn => exact hsame ⟨⟨rfl, rfl, rfl, rfl⟩, rfl⟩
  | exported hw =>
    unfold Client.exported
    split
    · exact hsame ⟨⟨rfl, rfl, rfl, rfl⟩, rfl⟩
    · exact hsame (hend _)
  | recv hw hq => exact hsame ⟨⟨rfl, rfl, rfl, rfl⟩, rfl⟩
  | drained hw hq =>
    unfold Client.drained
    split_ifs
    · exact hsame (hend _)
    · exact hsame ⟨⟨rfl, rfl, rfl, rfl⟩, rfl⟩
  | shutdown => exact absurd trivial he
  | notify hc => exact absurd trivial he
  | lock hc hg => exact absurd trivial he
  | take hc => exact absurd trivial he
  | join hc hw => exact absurd trivial he

theorem workSame_step {tokio : Tokio} {w w' : Client F} {e : ClientEvent F}
    (h : ClientStep tokio w e w') (he : e.OfCall) : WorkSame w w' := by
  cases h with
  | shutdown => exact ⟨rfl, rfl, rfl, rfl, rfl, rfl⟩
  | notify hc => exact ⟨rfl, rfl, rfl, rfl, rfl, rfl⟩
  | lock hc hg => exact ⟨rfl, rfl, rfl, rfl, rfl, rfl⟩
  | take hc => split_ifs <;> exact ⟨rfl, rfl, rfl, rfl, rfl, rfl⟩
  | join hc hw => exact ⟨rfl, rfl, rfl, rfl, rfl, rfl⟩
  | _ => exact he.elim

/-! ### Records, slots and batches -/

/-- The steps that neither record nor flush a stripe. -/
def ClientEvent.Quiet : ClientEvent F → Prop
  | .record _ _ _ => False
  | .stripe => False
  | _ => True

/-- What a quiet step leaves as it is. -/
structure Still (w w' : Client F) : Prop where
  map : ∃ rawSender, w'.aggregator = { w.aggregator with rawSender }
  recorded : w'.recorded = w.recorded
  out : w'.out = w.out

omit [FloatBits F] in
theorem Still.stripes {w w' : Client F} (h : Still w w') :
    w'.aggregator.stripes = w.aggregator.stripes := by
  obtain ⟨rawSender, h⟩ := h.map
  rw [h]

omit [FloatBits F] in
theorem still_endRound {w : Client F} {final : Bool} (h : w.worker.out = []) :
    Still w (w.endRound final) := by
  have hout : (w.endRound final).out = w.out := by
    rw [Client.out, Client.out, h]
    cases final <;> rfl
  cases final
  · exact ⟨⟨_, rfl⟩, rfl, hout⟩
  · exact ⟨⟨_, rfl⟩, rfl, hout⟩

omit [FloatBits F] in
/-- What is handed out was put out already. -/
theorem still_handOut {w : Client F} {final : Bool} {handed : Handed F}
    (h : w.worker.out = handed.out) : Still w (w.handOut final handed) := by
  refine ⟨⟨_, rfl⟩, rfl, ?_⟩
  rw [Client.out, Client.out, h]
  simp [Client.handOut, WorkerPhase.out]

theorem still_step {tokio : Tokio} {w w' : Client F} {e : ClientEvent F}
    (h : ClientStep tokio w e w') (hq : e.Quiet) : Still w w' := by
  have hsame : ∀ {w' : Client F}, (∃ rawSender, w'.aggregator = { w.aggregator with rawSender }) →
      w'.recorded = w.recorded → w'.sent = w.sent → w'.worker.out = w.worker.out → Still w w' := by
    intro w' hmap hr hsent hout
    exact ⟨hmap, hr, by rw [Client.out, Client.out, hsent, hout]⟩
  by_cases hcall : e.OfCall
  · have hwork := workSame_step h hcall
    exact hsame ⟨_, hwork.aggregator⟩ hwork.recorded hwork.sent (by rw [hwork.worker])
  cases h with
  | record h => exact hq.elim
  | stripe hw hn h => exact hq.elim
  | start hw =>
    split_ifs
    · exact hsame ⟨_, rfl⟩ rfl rfl (by rw [hw]; rfl)
    · exact hsame ⟨_, rfl⟩ rfl rfl (by rw [hw]; rfl)
  | tick hw => exact hsame ⟨_, rfl⟩ rfl rfl (by rw [hw]; rfl)
  | notified hw hp => exact hsame ⟨_, rfl⟩ rfl rfl (by rw [hw]; rfl)
  | @flushed final call hw hn =>
    unfold Client.flushed
    split_ifs with hempty
    · refine hsame ⟨_, rfl⟩ rfl rfl ?_
      rw [hw]
      exact (List.isEmpty_iff.mp hempty).symm
    · exact still_handOut (by rw [hw]; rfl)
  | exportTo hw hn => exact hsame ⟨_, rfl⟩ rfl rfl (by rw [hw]; rfl)
  | exportPanics hw hn => exact hsame ⟨_, rfl⟩ rfl rfl (by rw [hw]; rfl)
  | @exported final batch hw =>
    unfold Client.exported
    split
    · exact hsame ⟨_, rfl⟩ rfl rfl (by rw [hw]; rfl)
    · exact still_endRound (by rw [hw]; rfl)
  | recv hw hq => exact hsame ⟨_, rfl⟩ rfl rfl (by rw [hw]; rfl)
  | @drained final points hw hq =>
    unfold Client.drained
    split_ifs
    · exact still_endRound (by rw [hw]; rfl)
    · exact still_handOut (by rw [hw]; rfl)
  | _ => exact absurd trivial hcall

theorem recorded_step {tokio : Tokio} {w w' : Client F} {e : ClientEvent F}
    (h : ClientStep tokio w e w') : w.recorded <+: w'.recorded := by
  have hquiet : e.Quiet → w.recorded <+: w'.recorded := fun hq => by
    rw [(still_step h hq).recorded]
  cases h with
  | record h => exact List.prefix_append _ _
  | stripe hw hn h => exact List.prefix_refl _
  | _ => exact hquiet trivial

/-! ### Rounds -/

/-- A phase behind the flush of a round. -/
def WorkerPhase.Flushed (final : Bool) (phase : WorkerPhase F) : Prop :=
  phase.final = final ∧ phase.cleared = if final then 64 else 0

omit [FloatOps F] [FloatBits F] in
theorem flushed_exporting (final : Bool) (batch : Batch F) (next : ℕ) :
    WorkerPhase.Flushed final (.exporting final batch next) := by
  cases final <;> exact ⟨rfl, rfl⟩

omit [FloatOps F] [FloatBits F] in
theorem flushed_draining (final : Bool) (points : List (RawDistributionPoint F)) :
    WorkerPhase.Flushed final (.draining final points) := by
  cases final <;> exact ⟨rfl, rfl⟩

omit [FloatBits F] in
theorem flushed_endRound (w : Client F) (final : Bool) :
    (w.endRound final).worker.Flushed final := by
  cases final <;> exact ⟨rfl, rfl⟩

/-- Quiet steps go on in a round that is the final one or not, unless an exporter
panics. -/
theorem round_step {tokio : Tokio} {w w' : Client F} {e : ClientEvent F}
    (h : ClientStep tokio w e w') (hq : e.Quiet) (hn : e ≠ .notified) (hp : e ≠ .exportPanics) :
    w'.worker.final = w.worker.final ∧ w'.worker.cleared = w.worker.cleared := by
  have hboth : ∀ {final : Bool} {phase : WorkerPhase F}, w.worker.Flushed final →
      phase.Flushed final → phase.final = w.worker.final ∧ phase.cleared = w.worker.cleared :=
    fun hw hp => ⟨hp.1.trans hw.1.symm, hp.2.trans hw.2.symm⟩
  by_cases hcall : e.OfCall
  · have hwork := workSame_step h hcall
    rw [hwork.worker]
    exact ⟨rfl, rfl⟩
  cases h with
  | record h => exact hq.elim
  | stripe hw hn h => exact hq.elim
  | start hw =>
    rw [hw]
    split_ifs <;> exact ⟨rfl, rfl⟩
  | tick hw =>
    rw [hw]
    exact ⟨rfl, rfl⟩
  | notified hw hp => exact absurd rfl hn
  | @flushed final call hw hlast =>
    have hflushed : w.worker.Flushed final := by
      rw [hw]
      cases final
      · exact ⟨rfl, rfl⟩
      · exact ⟨rfl, hlast⟩
    unfold Client.flushed
    split_ifs
    · exact hboth hflushed (flushed_draining _ _)
    · exact hboth hflushed (flushed_exporting _ _ _)
  | @exportTo final batch next ok hw hlt =>
    exact hboth (hw ▸ flushed_exporting final batch next) (flushed_exporting _ _ _)
  | exportPanics hw hlt => exact absurd rfl hp
  | @exported final batch hw =>
    have hflushed : w.worker.Flushed final := hw ▸ flushed_exporting final batch _
    unfold Client.exported
    split
    · exact hboth hflushed (flushed_draining _ _)
    · exact hboth hflushed (flushed_endRound w final)
  | @recv final points point queue hw hqueue =>
    exact hboth (hw ▸ flushed_draining final points) (flushed_draining _ _)
  | @drained final points hw hqueue =>
    have hflushed : w.worker.Flushed final := hw ▸ flushed_draining final points
    unfold Client.drained
    split_ifs
    · exact hboth hflushed (flushed_endRound w final)
    · exact hboth hflushed (flushed_exporting _ _ _)
  | _ => exact absurd trivial hcall

omit [FloatOps F] [FloatBits F] in
theorem finished_cases {phase : WorkerPhase F} (h : phase.Finished) :
    phase = .done ∨ phase = .panicked := by
  cases phase with
  | done => exact .inl rfl
  | panicked => exact .inr rfl
  | _ => exact h.elim

/-- A thread at its end stays as it is. -/
theorem finished_worker {tokio : Tokio} {w w' : Client F} {e : ClientEvent F}
    (h : ClientStep tokio w e w') (hf : w.worker.Finished) : w'.worker = w.worker := by
  cases h with
  | start hw => exact (hw ▸ hf).elim
  | tick hw => exact (hw ▸ hf).elim
  | notified hw hp => exact (hw ▸ hf).elim
  | stripe hw hn h => exact (hw ▸ hf).elim
  | flushed hw hn => exact (hw ▸ hf).elim
  | exportTo hw hn => exact (hw ▸ hf).elim
  | exportPanics hw hn => exact (hw ▸ hf).elim
  | exported hw => exact (hw ▸ hf).elim
  | recv hw hq => exact (hw ▸ hf).elim
  | drained hw hq => exact (hw ▸ hf).elim
  | take hc => split_ifs <;> rfl
  | _ => rfl

theorem finished_step {tokio : Tokio} {w w' : Client F} {e : ClientEvent F}
    (h : ClientStep tokio w e w') (hf : w.worker.Finished) : w'.worker.Finished := by
  rw [finished_worker h hf]
  exact hf

/-- No step changes what the client was built with. -/
theorem built_step {tokio : Tokio} {w w' : Client F} {e : ClientEvent F}
    (h : ClientStep tokio w e w') :
    w'.exporters = w.exporters ∧ w'.flushInterval = w.flushInterval := by
  have hend : ∀ final, (w.endRound final).exporters = w.exporters ∧
      (w.endRound final).flushInterval = w.flushInterval := by
    intro final
    cases final <;> exact ⟨rfl, rfl⟩
  cases h with
  | start hw => split_ifs <;> exact ⟨rfl, rfl⟩
  | flushed hw hn =>
    unfold Client.flushed
    split_ifs <;> exact ⟨rfl, rfl⟩
  | exported hw =>
    unfold Client.exported
    split
    · exact ⟨rfl, rfl⟩
    · exact hend _
  | drained hw hq =>
    unfold Client.drained
    split_ifs
    · exact hend _
    · exact ⟨rfl, rfl⟩
  | take hc => split_ifs <;> exact ⟨rfl, rfl⟩
  | _ => exact ⟨rfl, rfl⟩

/-- The worker's steps. -/
def ClientEvent.OfWorker : ClientEvent F → Prop
  | .record _ _ _ => False
  | e => ¬ e.OfCall

omit [FloatOps F] [FloatBits F] in
theorem ClientEvent.OfWorker.not_ofCall {e : ClientEvent F} (h : e.OfWorker) : ¬ e.OfCall := by
  cases e with
  | record grow x u => exact h.elim
  | _ => exact h

/-- What the worker leaves as it is. -/
structure WorkerFrame (w w' : Client F) : Prop extends CallsSame w w' where
  recorded : w'.recorded = w.recorded
  exporters : w'.exporters = w.exporters

theorem workerFrame_step {tokio : Tokio} {w w' : Client F} {e : ClientEvent F}
    (h : ClientStep tokio w e w') (he : e.OfWorker) : WorkerFrame w w' := by
  refine { callsSame_step h he.not_ofCall |>.1 with recorded := ?_, exporters := ?_ }
  · have hquiet : e.Quiet → w'.recorded = w.recorded := fun hq => (still_step h hq).recorded
    cases h with
    | record h => exact he.elim
    | stripe hw hn h => rfl
    | _ => exact hquiet trivial
  · exact (built_step h).1

/-- The thread panics on its way into its loop, for it has no runtime or the
flush interval is 0, or in an exporter. -/
theorem panicked_step {tokio : Tokio} {w w' : Client F} {e : ClientEvent F}
    (h : ClientStep tokio w e w') (hp : w'.worker = .panicked) :
    w.worker = .panicked ∨ e = .exportPanics ∨
      ∃ built, e = .start built ∧ (built = false ∨ w.flushInterval = 0) := by
  have hend : ∀ final, (w.endRound final).worker ≠ .panicked := by
    intro final
    cases final <;> nofun
  cases h with
  | @start built hw =>
    refine .inr (.inr ⟨built, rfl, ?_⟩)
    split_ifs at hp with hloops
    cases built with
    | false => exact .inl rfl
    | true =>
      rw [Bool.true_and] at hloops
      exact .inr ((tokio.interval_eq_false _).mp (Bool.of_not_eq_true hloops))
  | tick hw => cases hp
  | notified hw hpermit => cases hp
  | stripe hw hn h => cases hp
  | flushed hw hn =>
    unfold Client.flushed at hp
    split_ifs at hp
    cases hp
  | exportTo hw hn => cases hp
  | exportPanics hw hn => exact .inr (.inl rfl)
  | exported hw =>
    unfold Client.exported at hp
    split at hp
    · cases hp
    · exact absurd hp (hend _)
  | recv hw hq => cases hp
  | drained hw hq =>
    unfold Client.drained at hp
    split_ifs at hp
    · exact absurd hp (hend _)
    · cases hp
  | take hc => split_ifs at hp <;> exact .inl hp
  | _ => exact .inl hp

end
end ChalkMetrics
