/-
# Every shutdown call returns

Whatever the record calls, the ticks and the shutdown calls have done so far,
with any number of exporters, which return or panic, and any flush interval:
leave the worker and the calls alone, without a further tick, and they come to
an end. Each step lowers what is left to do (`lower_step`), and as long as a
call has not returned some step is possible (`progress_step`), so after finitely
many steps, in any order, all calls have returned (`shutdown_returns`). No permit
is lost: a call that has left one finds it still there, or the worker in its
final round (`Ready`). No record call keeps the lock of a stripe: with seven
buckets or more it returns in every state (`record_possible`).

Key definitions: `ClientEvent.Ending`, `Client.left`, `Ready`.
-/
import ChalkMetrics.Aggregator.Room
import ChalkMetrics.Client.Winner

namespace ChalkMetrics

open Runs

section

variable {F : Type}

/-- The steps of the worker and of calls begun, without ticks. -/
def ClientEvent.Ending : ClientEvent F → Prop
  | .record _ _ _ => False
  | .tick => False
  | .shutdown => False
  | _ => True

/-! ### What is left to do -/

/-- The steps of a drain, with `queue` points in the channel. -/
def drainLeft (exporters queue : ℕ) : ℕ := queue + exporters + 3

/-- The steps of a flush and the drain behind it. -/
def roundLeft (exporters queue : ℕ) : ℕ := 64 + exporters + drainLeft exporters queue + 3

/-- The steps behind this round: the final round, if it is not this one. -/
def againLeft (exporters queue : ℕ) (final : Bool) : ℕ :=
  if final then 0 else roundLeft exporters queue + 1

def WorkerPhase.left (exporters queue : ℕ) : WorkerPhase F → ℕ
  | starting => roundLeft exporters queue + 2
  | waiting => roundLeft exporters queue + 1
  | flushing final call =>
    64 - call.next + exporters + drainLeft exporters queue + 3 + againLeft exporters queue final
  | exporting final ⟨_, .metrics _⟩ next =>
    exporters - next + 1 + drainLeft exporters queue + againLeft exporters queue final
  | exporting final ⟨_, .rawPoints _⟩ next => exporters - next + 1 + againLeft exporters queue final
  | draining final _ => drainLeft exporters queue + againLeft exporters queue final
  | done => 0
  | panicked => 0

def ShutdownPhase.left : ShutdownPhase → ℕ
  | called => 4
  | notified => 3
  | locked => 2
  | joining => 1
  | returned => 0

variable [FloatOps F]

def Client.left (w : Client F) : ℕ :=
  w.worker.left w.exporters w.aggregator.rawQueue.length + (w.calls.map ShutdownPhase.left).sum

/-! ### The invariant -/

/-- The worker knows of the calls that have notified it, and the lock is held by
a call that will give it back. -/
structure Ready (w : Client F) : Prop where
  locked : Locked w
  handedOut : HandedOut w
  signalled : ∀ phase ∈ w.calls, phase ≠ .called →
    w.permit = true ∨ w.worker.final = true ∨ w.worker.Finished
  holder : ∀ c, w.guard = some c → w.calls[c]? = some .locked ∨ w.calls[c]? = some .joining
  stripes : ∀ final call, w.worker = .flushing final call → call.next ≤ 64

theorem ready_build (makeHash) (mb : ℕ) (ε : F) (aggregate : Bool) (n interval : ℕ) :
    Ready (buildInner makeHash mb ε aggregate n interval) where
  locked := ⟨nofun, nofun, nofun⟩
  handedOut := ⟨rfl, fun _ _ _ => rfl, nofun⟩
  signalled := nofun
  holder := nofun
  stripes := nofun

variable [FloatBits F] {tokio : Tokio} {w w' : Client F} {e : ClientEvent F}

/-- The final round stays the final one, or ends. -/
theorem final_kept (h : ClientStep tokio w e w') (hf : w.worker.final = true) :
    w'.worker.final = true ∨ w'.worker.Finished := by
  by_cases hn : e = .notified
  · subst hn
    cases h with
    | notified hw hp => exact .inl rfl
  by_cases hp : e = .exportPanics
  · subst hp
    cases h with
    | exportPanics hw hlt => exact .inr trivial
  by_cases hq : e.Quiet
  · rw [(round_step h hq hn hp).1]
    exact .inl hf
  · cases h with
    | record h => exact .inl hf
    | stripe hw hn h =>
      rw [hw] at hf
      exact .inl hf
    | _ => exact absurd trivial hq

theorem permit_step (h : ClientStep tokio w e w') (hp : w.permit = true) :
    w'.permit = true ∨ w'.worker.final = true := by
  by_cases hcall : e.OfCall
  · cases h with
    | shutdown => exact .inl hp
    | notify hc => exact .inl rfl
    | lock hc hg => exact .inl hp
    | take hc => split_ifs <;> exact .inl hp
    | join hc hw => exact .inl hp
    | _ => exact hcall.elim
  · by_cases hn : e = .notified
    · subst hn
      cases h with
      | notified hw hp => exact .inr rfl
    · exact .inl (((callsSame_step h hcall).2 hn).trans hp)

theorem signal_step (h : ClientStep tokio w e w')
    (hs : w.permit = true ∨ w.worker.final = true ∨ w.worker.Finished) :
    w'.permit = true ∨ w'.worker.final = true ∨ w'.worker.Finished := by
  rcases hs with hp | hf | hd
  · rcases permit_step h hp with hp | hf
    · exact .inl hp
    · exact .inr (.inl hf)
  · exact .inr (final_kept h hf)
  · exact .inr (.inr (finished_step h hd))

/-- What became of the calls. -/
theorem phase_step (h : ClientStep tokio w e w') : ∀ phase ∈ w'.calls, phase ≠ .called →
    w'.permit = true ∨ ∃ old ∈ w.calls, old ≠ .called := by
  intro phase hphase hne
  by_cases hcall : e.OfCall
  · cases h with
    | shutdown =>
      rcases List.mem_append.mp hphase with hold | hnew
      · exact .inr ⟨phase, hold, hne⟩
      · exact absurd (List.mem_singleton.mp hnew) hne
    | notify hc => exact .inl rfl
    | lock hc hg => exact .inr ⟨_, List.mem_of_getElem? hc, by decide⟩
    | take hc => exact .inr ⟨_, List.mem_of_getElem? hc, by decide⟩
    | join hc hw => exact .inr ⟨_, List.mem_of_getElem? hc, by decide⟩
    | _ => exact hcall.elim
  · rw [(callsSame_step h hcall).1.calls] at hphase
    exact .inr ⟨phase, hphase, hne⟩

/-- The lock goes from hand to hand. -/
theorem holder_step (h : ClientStep tokio w e w') (hw : Ready w) : ∀ c, w'.guard = some c →
    w'.calls[c]? = some .locked ∨ w'.calls[c]? = some .joining := by
  intro c hc
  by_cases hcall : e.OfCall
  · cases h with
    | shutdown =>
      have hlt : ∀ {phase}, w.calls[c]? = some phase → (w.calls ++ [.called])[c]? = some phase :=
        fun h => (List.getElem?_append_left (List.getElem?_eq_some_iff.mp h).1).trans h
      exact (hw.holder c hc).imp hlt hlt
    | @notify d hd =>
      have hne : d ≠ c := by
        rintro rfl
        rcases hw.holder d hc with h | h <;> rw [hd] at h <;> cases h
      rw [List.getElem?_set_ne hne]
      exact hw.holder c hc
    | @lock d hd hg =>
      obtain rfl := Option.some.inj hc
      exact .inl (List.getElem?_set_self (List.getElem?_eq_some_iff.mp hd).1)
    | @take d hd =>
      have hguard : w.guard = some d := hw.locked.guard d _ hd (.inl rfl)
      by_cases hhandle : w.handle = true
      · rw [if_pos hhandle] at hc ⊢
        obtain rfl : d = c := Option.some.inj (hguard.symm.trans hc)
        exact .inr (List.getElem?_set_self (List.getElem?_eq_some_iff.mp hd).1)
      · rw [if_neg hhandle] at hc
        cases hc
    | join hd hfin => cases hc
    | _ => exact hcall.elim
  · have hsame := (callsSame_step h hcall).1
    rw [hsame.guard] at hc
    rw [hsame.calls]
    exact hw.holder c hc

theorem stripes_step (h : ClientStep tokio w e w')
    (hw : ∀ final call, w.worker = .flushing final call → call.next ≤ 64) :
    ∀ final call, w'.worker = .flushing final call → call.next ≤ 64 := by
  have hend : ∀ final' final call, (w.endRound final').worker ≠ .flushing final call := by
    intro final' final call
    cases final' <;> nofun
  intro final call hflush
  by_cases hcall : e.OfCall
  · rw [(workSame_step h hcall).worker] at hflush
    exact hw final call hflush
  cases h with
  | record h => exact hw final call hflush
  | start hs =>
    split_ifs at hflush
    cases hflush
  | tick hs =>
    cases hflush
    exact Nat.zero_le 64
  | notified hs hp =>
    cases hflush
    exact Nat.zero_le 64
  | stripe hs hn h =>
    cases hflush
    exact hn
  | flushed hs hn =>
    unfold Client.flushed at hflush
    split_ifs at hflush
    cases hflush
  | exportTo hs hn => cases hflush
  | exportPanics hs hn => cases hflush
  | @exported final' batch hs =>
    unfold Client.exported at hflush
    split at hflush
    · cases hflush
    · exact absurd hflush (hend _ _ _)
  | recv hs hq => cases hflush
  | drained hs hq =>
    unfold Client.drained at hflush
    split_ifs at hflush
    · exact absurd hflush (hend _ _ _)
    · cases hflush
  | _ => exact absurd trivial hcall

theorem ready_step (h : ClientStep tokio w e w') (hw : Ready w) : Ready w' where
  locked := locked_step h hw.locked
  handedOut := handedOut_step h hw.handedOut
  signalled phase hphase hne := by
    rcases phase_step h phase hphase hne with hp | ⟨old, hold, hne⟩
    · exact .inl hp
    · exact signal_step h (hw.signalled old hold hne)
  holder := holder_step h hw
  stripes := stripes_step h hw.stripes

/-! ### Each step lowers what is left -/

omit [FloatOps F] [FloatBits F] in
theorem left_set {calls : List ShutdownPhase} {c : ℕ} {old phase : ShutdownPhase}
    (hc : calls[c]? = some old) (hlt : phase.left < old.left) :
    ((calls.set c phase).map ShutdownPhase.left).sum < (calls.map ShutdownPhase.left).sum := by
  have h := sum_map_set ShutdownPhase.left (b := phase) hc
  omega

theorem lower_call (h : ClientStep tokio w e w') (he : e.Ending) (hcall : e.OfCall) :
    w'.left < w.left := by
  have hwork := workSame_step h hcall
  unfold Client.left
  rw [hwork.worker, hwork.aggregator, hwork.exporters]
  apply Nat.add_lt_add_left
  cases h with
  | shutdown => exact he.elim
  | notify hc => exact left_set hc (by decide)
  | lock hc hg => exact left_set hc (by decide)
  | take hc => split_ifs <;> exact left_set hc (by decide)
  | join hc hw => exact left_set hc (by decide)
  | _ => exact hcall.elim

omit [FloatOps F] [FloatBits F] in
theorem left_final (exporters queue : ℕ) : againLeft exporters queue true = 0 := rfl

omit [FloatBits F] in
theorem left_endRound (final : Bool) :
    (w.endRound final).worker.left w.exporters (w.endRound final).aggregator.rawQueue.length =
      againLeft w.exporters w.aggregator.rawQueue.length final := by
  cases final <;> rfl

theorem lower_worker (h : ClientStep tokio w e w') (he : e.Ending) (hcall : ¬ e.OfCall) :
    w'.worker.left w.exporters w'.aggregator.rawQueue.length <
      w.worker.left w.exporters w.aggregator.rawQueue.length := by
  cases h with
  | record h => exact he.elim
  | tick hs => exact he.elim
  | start hs =>
    rw [hs]
    split_ifs
    · exact Nat.lt_succ_self _
    · exact Nat.succ_pos _
  | notified hs hp =>
    rw [hs]
    simp only [WorkerPhase.left, roundLeft, left_final]
    omega
  | @stripe final call scan out aggregator hs hn h =>
    have hqueue : aggregator.rawQueue = w.aggregator.rawQueue := by
      rw [show aggregator = (w.aggregator.flushStripe scan ⟨call.next, hn⟩).2 by rw [h]]
      rfl
    rw [hs, hqueue]
    simp only [WorkerPhase.left]
    omega
  | flushed hs hn =>
    rw [hs]
    unfold Client.flushed
    split_ifs
    · simp only [WorkerPhase.left]
      omega
    · simp only [WorkerPhase.left, Client.handOut]
      omega
  | @exportTo final batch next ok hs hn =>
    rw [hs]
    rcases batch with ⟨serial, out | points⟩
    · simp only [WorkerPhase.left]
      omega
    · simp only [WorkerPhase.left]
      omega
  | @exportPanics final batch next hs hn =>
    rw [hs]
    rcases batch with ⟨serial, out | points⟩
    · exact Nat.add_pos_left (Nat.add_pos_left (Nat.succ_pos _) _) _
    · exact Nat.add_pos_left (Nat.succ_pos _) _
  | @exported final batch hs =>
    rw [hs]
    rcases batch with ⟨serial, out | points⟩
    · simp only [WorkerPhase.left, Client.exported]
      omega
    · apply (left_endRound final).trans_lt
      simp only [WorkerPhase.left]
      omega
  | @recv final points point queue hs hq =>
    have hqueue : (w.aggregator.withQueue queue).rawQueue = queue := by
      unfold StripedAggMap.rawQueue StripedAggMap.withQueue at *
      rcases hsender : w.aggregator.rawSender with _ | sender
      · rw [hsender] at hq
        cases hq
      · rfl
    rw [hs, hqueue, hq]
    cases final <;> simp only [WorkerPhase.left, drainLeft, roundLeft, againLeft, List.length_cons,
      if_true, Bool.false_eq_true, if_false] <;> omega
  | @drained final points hs hq =>
    rw [hs]
    unfold Client.drained
    split_ifs
    · apply (left_endRound final).trans_lt
      simp only [WorkerPhase.left, drainLeft]
      omega
    · simp only [WorkerPhase.left, Client.handOut, drainLeft]
      omega
  | _ => exact absurd trivial hcall

theorem lower_step (h : ClientStep tokio w e w') (he : e.Ending) : w'.left < w.left := by
  by_cases hcall : e.OfCall
  · exact lower_call h he hcall
  · unfold Client.left
    rw [(callsSame_step h hcall).1.calls, (built_step h).1]
    exact Nat.add_lt_add_right (lower_worker h he hcall) _

/-! ### Some step is possible -/

/-- A worker that is in its loop, or has a permit to leave it for, goes on. -/
theorem progress_worker (tokio : Tokio) (hw : Ready w)
    (hsig : w.permit = true ∨ w.worker.final = true) (hfin : ¬ w.worker.Finished) :
    ∃ e w', ClientStep tokio w e w' ∧ e.Ending := by
  cases hphase : w.worker with
  | starting => exact ⟨.start true, _, .start hphase, trivial⟩
  | waiting =>
    rw [hphase] at hsig
    exact ⟨_, _, .notified hphase (hsig.resolve_right Bool.false_ne_true), trivial⟩
  | flushing final call =>
    rcases (hw.stripes final call hphase).lt_or_eq with hn | hn
    · rcases hf : w.aggregator.flushStripe (fun _ => Scan.id) ⟨call.next, hn⟩ with ⟨out, aggregator⟩
      exact ⟨_, _, .stripe hphase hn hf, trivial⟩
    · exact ⟨_, _, .flushed hphase hn, trivial⟩
  | exporting final batch next =>
    rcases (hw.handedOut.last final batch next hphase).1.lt_or_eq with hn | rfl
    · exact ⟨.exportTo true, _, .exportTo hphase hn, trivial⟩
    · exact ⟨_, _, .exported hphase, trivial⟩
  | draining final points =>
    cases hq : w.aggregator.rawQueue with
    | nil => exact ⟨_, _, .drained hphase hq, trivial⟩
    | cons point queue => exact ⟨_, _, .recv hphase hq, trivial⟩
  | done => exact absurd (hphase ▸ trivial) hfin
  | panicked => exact absurd (hphase ▸ trivial) hfin

theorem progress_step (tokio : Tokio) (hw : Ready w)
    (hcalls : ¬ ∀ phase ∈ w.calls, phase = .returned) : ∃ e w', ClientStep tokio w e w' ∧ e.Ending := by
  simp only [not_forall] at hcalls
  obtain ⟨phase, hmem, hphase⟩ := hcalls
  obtain ⟨c, hc⟩ := List.mem_iff_getElem?.mp hmem
  by_cases hcalled : phase = .called
  · exact ⟨_, _, .notify (hcalled ▸ hc), trivial⟩
  by_cases hfin : w.worker.Finished
  · -- the lock is free, or its holder can go on
    cases hg : w.guard with
    | none =>
      cases phase with
      | called => exact absurd rfl hcalled
      | notified => exact ⟨_, _, .lock hc hg, trivial⟩
      | locked => exact ⟨_, _, .take hc, trivial⟩
      | joining => exact ⟨_, _, .join hc hfin, trivial⟩
      | returned => exact absurd rfl hphase
    | some d =>
      rcases hw.holder d hg with hd | hd
      · exact ⟨_, _, .take hd, trivial⟩
      · exact ⟨_, _, .join hd hfin, trivial⟩
  · refine progress_worker tokio hw ?_ hfin
    rcases hw.signalled phase hmem hcalled with h | h | h
    · exact .inl h
    · exact .inr h
    · exact absurd h hfin

/-! ### Record calls return -/

/-- The settings of the map stay as they are. -/
theorem valid_step (h : ClientStep tokio w e w') : w'.aggregator.Valid ↔ w.aggregator.Valid := by
  have hquiet : e.Quiet → (w'.aggregator.Valid ↔ w.aggregator.Valid) := fun hq => by
    obtain ⟨rawSender, hmap⟩ := (still_step h hq).map
    rw [hmap]
    rfl
  cases h with
  | record h => exact StripedAggMap.valid_record h
  | stripe hs hn h =>
    obtain ⟨-, rfl⟩ := Prod.mk.inj h
    exact Iff.rfl
  | _ => exact hquiet trivial

theorem roomy_step (h : ClientStep tokio w e w') (hw : w.aggregator.Roomy) : w'.aggregator.Roomy := by
  have hquiet : e.Quiet → w'.aggregator.Roomy := fun hq => by
    obtain ⟨rawSender, hmap⟩ := (still_step h hq).map
    rw [hmap]
    exact hw.withSender rawSender
  cases h with
  | record h => exact StripedAggMap.roomy_record h hw
  | stripe hs hn h => exact StripedAggMap.roomy_stripe h hw
  | _ => exact hquiet trivial

theorem record_possible (tokio : Tokio) (hw : w.aggregator.Roomy) (grow : Bool) (x : Series)
    (u : Update (BitVec 64) F) : ∃ w', ClientStep tokio w (.record grow x u) w' := by
  obtain ⟨aggregator, h⟩ := StripedAggMap.record_returns hw grow x (u.mark w.recorded.length)
  exact ⟨_, .record h⟩

/-- **Every shutdown call returns**: from any state a run can reach, the steps of
the worker and of the calls are finitely many without a further tick, one is
possible until all calls have returned, and so they lead there. A record call
returns at any time. -/
theorem shutdown_returns {makeHash} {mb : ℕ} {ε : F} {aggregate : Bool} {n interval : ℕ}
    {es : List (ClientEvent F)} (hmb : 7 ≤ mb) (hε : UDDSketch.errorInRange ε)
    (h : Run (ClientStep tokio) (buildInner makeHash mb ε aggregate n interval) es w) :
    (∀ es' w', Run (Where (ClientStep tokio) fun _ e => e.Ending) w es' w' →
      es'.length + w'.left ≤ w.left ∧
        (∀ grow x u, ∃ w'', ClientStep tokio w' (.record grow x u) w'') ∧
        ((∀ phase ∈ w'.calls, phase = .returned) ∨
          ∃ e w'', ClientStep tokio w' e w'' ∧ e.Ending)) ∧
    ∃ es' w', Run (Where (ClientStep tokio) fun _ e => e.Ending) w es' w' ∧
      ∀ phase ∈ w'.calls, phase = .returned := by
  have hready : Ready w := h.inv (I := fun _ w => Ready w)
    (ready_build makeHash mb ε aggregate n interval) fun _ _ _ _ ht hstep => ready_step hstep ht
  have hroomy : w.aggregator.Roomy := h.inv (I := fun _ w => w.aggregator.Roomy)
    (StripedAggMap.roomy_new makeHash hmb hε _) fun _ _ _ _ ht hstep => roomy_step hstep ht
  have hkeep : ∀ (s : Client F) a t, Ready s →
      Where (ClientStep tokio) (fun _ e => e.Ending) s a t → Ready t :=
    fun s a t hs hstep => ready_step hstep.1 hs
  have hlower : ∀ (s : Client F) a (t : Client F), Ready s →
      Where (ClientStep tokio) (fun _ e => e.Ending) s a t → t.left < s.left :=
    fun s a t _ hstep => lower_step hstep.1 hstep.2
  refine ⟨fun es' w' h' => ⟨h'.length_le hready hkeep hlower, ?_, ?_⟩, ?_⟩
  · have hroomy' : w'.aggregator.Roomy := h'.inv (I := fun _ w => w.aggregator.Roomy) hroomy
      fun _ _ _ _ ht hstep => roomy_step hstep.1 ht
    exact record_possible tokio hroomy'
  · have hready' : Ready w' := h'.inv (I := fun _ w => Ready w) hready
      fun _ s a t hs hstep => hkeep s a t hs hstep
    by_cases hcalls : ∀ phase ∈ w'.calls, phase = .returned
    · exact .inl hcalls
    · exact .inr (progress_step tokio hready' hcalls)
  · have hprogress : ∀ s : Client F, Ready s → ¬ (∀ phase ∈ s.calls, phase = .returned) →
        ∃ e, ∃ t : Client F, Where (ClientStep tokio) (fun _ e => e.Ending) s e t := fun s hs hcalls =>
      progress_step tokio hs hcalls
    obtain ⟨es', w', hrun, -, hcalls⟩ := exists_run hkeep hlower hprogress hready
    exact ⟨es', w', hrun, hcalls⟩

end

/-- Two calls at once, the worker not in its loop yet. -/
theorem shutdown_returns_two : ∃ w : Client F64,
    Run (ClientStep .documented) (oneExporter 10) [.shutdown, .shutdown, .notify 1] w ∧
    w.calls = [.called, .notified] ∧
    ∃ es' w', Run (Where (ClientStep .documented) fun _ e => e.Ending) w es' w' ∧
      ∀ phase ∈ w'.calls, phase = .returned := by
  have hfirst : ClientStep .documented (oneExporter 10) .shutdown
      { oneExporter 10 with calls := [.called], owed := some 0 } := .shutdown
  have hsecond : ClientStep .documented { oneExporter 10 with calls := [.called], owed := some 0 }
      .shutdown { oneExporter 10 with calls := [.called, .called], owed := some 0 } := .shutdown
  have hnotify : ClientStep .documented
      { oneExporter 10 with calls := [.called, .called], owed := some 0 } (.notify 1)
      { oneExporter 10 with permit := true, calls := [.called, .notified], owed := some 0 } :=
    .notify rfl
  have hrun := ((Run.nil.snoc hfirst).snoc hsecond).snoc hnotify
  exact ⟨_, hrun, rfl, (shutdown_returns (by decide) (by decide +kernel) hrun).2⟩

end ChalkMetrics
