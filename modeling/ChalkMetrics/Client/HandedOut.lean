/-
# Batches and exporters

Every exporter has all batches, in order, but the one that is on its way
(`HandedOut`). The thread does not panic (`Alive`) if it gets into its loop and
no exporter panics (`Starts`).

Key definitions: `HandedOut`, `Alive`, `Starts`.
-/
import ChalkMetrics.Client.Frames

namespace ChalkMetrics

section

variable {F : Type} [FloatOps F]

/-- The condition on a step: the worker gets into its loop, or nobody is exported
to, and no exporter panics. -/
def Starts (w : Client F) : ClientEvent F → Prop
  | .start built => w.exporters = 0 ∨ built = true ∧ w.flushInterval ≠ 0
  | .exportPanics => False
  | _ => True

/-- Only the worker is under the condition. -/
theorem starts_of_not_worker {w : Client F} {e : ClientEvent F} (he : ¬ e.OfWorker) :
    Starts w e := by
  cases e with
  | start built => exact absurd id he
  | exportPanics => exact absurd id he
  | _ => trivial

/-- Unless the thread panicked, every exporter has all batches but the one that is
on its way. -/
structure HandedOut (w : Client F) : Prop where
  serials : w.sent.map Batch.serial = List.range w.sent.length
  received : w.worker ≠ .panicked → ∀ j < w.exporters,
    w.received j = if w.worker.behind j then w.sent.dropLast else w.sent
  last : ∀ final batch next, w.worker = .exporting final batch next →
    next ≤ w.exporters ∧ w.sent.getLast? = some batch

/-- The thread did not panic, or nobody misses it. -/
def Alive (w : Client F) : Prop := w.worker = .panicked → w.exporters = 0

theorem handedOut_handOut {w : Client F} {final : Bool} {handed : Handed F}
    (hlive : w.worker ≠ .panicked) (hb : ∀ j < w.exporters, w.worker.behind j = false)
    (hw : HandedOut w) :
    HandedOut (w.handOut final handed) where
  serials := by
    simp only [Client.handOut, List.map_append, List.map_singleton, List.length_append,
      List.length_singleton, List.range_succ, hw.serials]
  received := by
    intro _ j hj
    have hbehind : (w.handOut final handed).worker.behind j = true := decide_eq_true (Nat.zero_le j)
    rw [hbehind, if_pos rfl]
    have hold := hw.received hlive j hj
    rw [hb j hj, if_neg Bool.false_ne_true] at hold
    exact hold.trans (List.dropLast_concat).symm
  last := by
    rintro _ _ _ ⟨⟩
    exact ⟨Nat.zero_le _, List.getLast?_concat⟩

/-- Steps between phases that hand nothing to anybody. -/
theorem HandedOut.idle {w w' : Client F} (hw : HandedOut w) (hlive : w.worker ≠ .panicked)
    (hsent : w'.sent = w.sent) (hrec : w'.received = w.received) (hexp : w'.exporters = w.exporters)
    (hb : ∀ j < w.exporters, w.worker.behind j = false) (hb' : ∀ j, w'.worker.behind j = false)
    (hlast : ∀ final batch next, w'.worker ≠ .exporting final batch next) : HandedOut w' where
  serials := by
    rw [hsent]
    exact hw.serials
  received _ j hj := by
    rw [hexp] at hj
    rw [hrec, hsent, hb' j, hw.received hlive j hj, hb j hj]
  last final batch next h := absurd h (hlast final batch next)

/-- A thread that panics hands out nothing any more. -/
theorem HandedOut.panic {w : Client F} (hw : HandedOut w) : HandedOut (w.finish .panicked) :=
  ⟨hw.serials, fun hne => absurd rfl hne, nofun⟩

theorem handedOut_endRound {w : Client F} (final : Bool) (hlive : w.worker ≠ .panicked)
    (hb : ∀ j < w.exporters, w.worker.behind j = false) (hw : HandedOut w) :
    HandedOut (w.endRound final) := by
  cases final with
  | false => exact hw.idle hlive rfl rfl rfl hb (fun _ => rfl) nofun
  | true => exact hw.idle hlive rfl rfl rfl hb (fun _ => rfl) nofun

variable [FloatBits F]

theorem handedOut_step {tokio : Tokio} {w w' : Client F} {e : ClientEvent F}
    (h : ClientStep tokio w e w') (hw : HandedOut w) : HandedOut w' := by
  have hidle : ∀ {phase : WorkerPhase F}, w.worker = phase → (∀ j < w.exporters, phase.behind j = false) →
      ∀ j < w.exporters, w.worker.behind j = false := fun hp hb => hp ▸ hb
  have hlive : ∀ {phase : WorkerPhase F}, w.worker = phase → phase ≠ .panicked →
      w.worker ≠ .panicked := fun hp hne => hp ▸ hne
  by_cases hcall : e.OfCall
  · obtain ⟨hworker, -, -, hsent, hreceived, hexporters⟩ := workSame_step h hcall
    refine ⟨?_, ?_, ?_⟩
    · rw [hsent]
      exact hw.serials
    · rw [hexporters, hworker, hsent, hreceived]
      exact hw.received
    · rw [hexporters, hworker, hsent]
      exact hw.last
  cases h with
  | record h => exact ⟨hw.serials, hw.received, hw.last⟩
  | @start built hstart =>
    split_ifs
    · exact hw.idle (hlive hstart nofun) rfl rfl rfl (hidle hstart fun _ _ => rfl) (fun _ => rfl) nofun
    · exact hw.panic
  | tick hwait =>
    exact hw.idle (hlive hwait nofun) rfl rfl rfl (hidle hwait fun _ _ => rfl) (fun _ => rfl) nofun
  | notified hwait hp =>
    exact hw.idle (hlive hwait nofun) rfl rfl rfl (hidle hwait fun _ _ => rfl) (fun _ => rfl) nofun
  | stripe hflush hn h =>
    exact hw.idle (hlive hflush nofun) rfl rfl rfl (hidle hflush fun _ _ => rfl) (fun _ => rfl) nofun
  | flushed hflush hn =>
    have hb := hidle hflush fun _ _ => rfl
    unfold Client.flushed
    split_ifs
    · exact hw.idle (hlive hflush nofun) rfl rfl rfl hb (fun _ => rfl) nofun
    · exact handedOut_handOut (hlive hflush nofun) hb hw
  | exportPanics hexport hn => exact hw.panic
  | @exportTo final batch next ok hexport hn =>
    obtain ⟨hle, hlast⟩ := hw.last final batch next hexport
    refine ⟨hw.serials, fun _ j hj => ?_, ?_⟩
    · have hold := hw.received (hlive hexport nofun) j hj
      rw [hexport] at hold
      by_cases hj' : j = next
      · -- this exporter gets the batch
        subst hj'
        have hbehind : WorkerPhase.behind j (.exporting final batch (j + 1)) = false :=
          decide_eq_false (Nat.not_succ_le_self j)
        have hsent : w.sent = w.sent.dropLast ++ [batch] :=
          (List.dropLast_append_getLast? batch hlast).symm
        rw [show WorkerPhase.behind j (.exporting final batch j) = true from
          decide_eq_true (Nat.le_refl j), if_pos rfl] at hold
        simp only [Function.update_self, hbehind, hold]
        exact hsent.symm
      · have hbehind : WorkerPhase.behind j (.exporting final batch (next + 1)) =
            WorkerPhase.behind j (.exporting final batch next) := by
          have hiff : next + 1 ≤ j ↔ next ≤ j := by omega
          exact decide_eq_decide.mpr hiff
        simp only [Function.update_of_ne hj', hbehind, hold]
    · rintro _ _ _ ⟨⟩
      exact ⟨hn, hlast⟩
  | @exported final batch hexport =>
    have hb := hidle hexport fun j hj => decide_eq_false (Nat.not_le_of_lt hj)
    unfold Client.exported
    split
    · exact hw.idle (hlive hexport nofun) rfl rfl rfl hb (fun _ => rfl) nofun
    · exact handedOut_endRound final (hlive hexport nofun) hb hw
  | recv hdrain hq =>
    exact hw.idle (hlive hdrain nofun) rfl rfl rfl (hidle hdrain fun _ _ => rfl) (fun _ => rfl) nofun
  | drained hdrain hq =>
    have hb := hidle hdrain fun _ _ => rfl
    unfold Client.drained
    split_ifs
    · exact handedOut_endRound _ (hlive hdrain nofun) hb hw
    · exact handedOut_handOut (hlive hdrain nofun) hb hw
  | _ => exact absurd trivial hcall

theorem alive_step {tokio : Tokio} {w w' : Client F} {e : ClientEvent F}
    (h : ClientStep tokio w e w') (hs : Starts w e) (hw : Alive w) : Alive w' := by
  intro hp
  rw [(built_step h).1]
  rcases panicked_step h hp with hp | rfl | ⟨built, rfl, hfails⟩
  · exact hw hp
  · exact hs.elim
  · refine hs.resolve_right fun ⟨hbuilt, hinterval⟩ => ?_
    rcases hfails with hfalse | hzero
    · exact absurd (hfalse.symm.trans hbuilt) Bool.false_ne_true
    · exact hinterval hzero

end
end ChalkMetrics
