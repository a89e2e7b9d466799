/-
# The lock and the thread

A shutdown call that has the lock of `worker_handle`, joining or about to, is
the one that holds it; whoever finds the handle gone, or joins, returns behind
the end of the thread (`Locked`).

Key definitions: `Locked`.
-/
import ChalkMetrics.Client.Frames

namespace ChalkMetrics

section

variable {F : Type} [FloatOps F]

/-- Who holds the lock, and that only the end of the thread lets a call return. -/
structure Locked (w : Client F) : Prop where
  guard : ∀ c phase, w.calls[c]? = some phase → phase = .locked ∨ phase = .joining →
    w.guard = some c
  handle : w.handle = false → .joining ∈ w.calls ∨ w.worker.Finished
  returned : .returned ∈ w.calls → w.worker.Finished

omit [FloatOps F] in
theorem getElem?_set_calls {calls : List ShutdownPhase} {c c' : ℕ} {phase phase' : ShutdownPhase}
    (h : (calls.set c phase)[c']? = some phase') :
    (c' = c ∧ phase' = phase) ∨ (c' ≠ c ∧ calls[c']? = some phase') := by
  by_cases hc : c' = c
  · subst hc
    rw [List.getElem?_set_self'] at h
    rcases hold : calls[c']? with _ | old
    · rw [hold] at h
      cases h
    · rw [hold] at h
      exact .inl ⟨rfl, (Option.some.inj h).symm⟩
  · rw [List.getElem?_set_ne (Ne.symm hc)] at h
    exact .inr ⟨hc, h⟩

omit [FloatOps F] in
/-- The phases of the other calls are still there. -/
theorem mem_set_calls {calls : List ShutdownPhase} {c : ℕ} {phase phase' old : ShutdownPhase}
    (hc : calls[c]? = some old) (hne : phase' ≠ old) (h : phase' ∈ calls) :
    phase' ∈ calls.set c phase := by
  obtain ⟨c', hc'⟩ := List.mem_iff_getElem?.mp h
  have hne' : c ≠ c' := by
    rintro rfl
    exact hne (Option.some.inj (hc'.symm.trans hc))
  exact List.mem_of_getElem? ((List.getElem?_set_ne hne').trans hc')

/-- While another call has the lock, nobody is joining. -/
theorem Locked.not_joining {w : Client F} (hw : Locked w)
    (hg : ∀ c, w.calls[c]? = some .joining → w.guard ≠ some c) : .joining ∉ w.calls := by
  intro h
  obtain ⟨c, hc⟩ := List.mem_iff_getElem?.mp h
  exact hg c hc (hw.guard c _ hc (.inr rfl))

variable [FloatBits F]

theorem locked_step {tokio : Tokio} {w w' : Client F} {e : ClientEvent F}
    (h : ClientStep tokio w e w') (hw : Locked w) : Locked w' := by
  have hfin := finished_step h
  have hidle : ¬ e.OfCall → Locked w' := by
    intro he
    have hsame := (callsSame_step h he).1
    refine ⟨fun c phase hc hp => ?_, fun hh => ?_, fun hr => ?_⟩
    · rw [hsame.guard]
      exact hw.guard c phase (hsame.calls ▸ hc) hp
    · rw [hsame.calls]
      exact (hw.handle (hsame.handle ▸ hh)).imp_right hfin
    · exact hfin (hw.returned (hsame.calls ▸ hr))
  have hreturned : ∀ {c phase}, phase ≠ .returned → w'.calls = w.calls.set c phase →
      .returned ∈ w'.calls → w'.worker.Finished := by
    intro c phase hne hcalls hr
    rw [hcalls] at hr
    exact hfin (hw.returned ((List.mem_or_eq_of_mem_set hr).resolve_right (Ne.symm hne)))
  cases h with
  | shutdown =>
    refine ⟨fun c phase hc hp => ?_, fun hh => ?_, fun hr => hw.returned ?_⟩
    · by_cases hlt : c < w.calls.length
      · rw [List.getElem?_append_left hlt] at hc
        exact hw.guard c phase hc hp
      · rw [List.getElem?_append_right (Nat.le_of_not_lt hlt)] at hc
        obtain rfl := List.mem_singleton.mp (List.mem_of_getElem? hc)
        rcases hp with hp | hp <;> cases hp
    · exact (hw.handle hh).imp_left (List.mem_append_left _)
    · exact (List.mem_append.mp hr).resolve_right (by decide)
  | @notify c hc =>
    refine ⟨fun c' phase hc' hp => ?_, fun hh => ?_, hreturned (by decide) rfl⟩
    · rcases getElem?_set_calls hc' with ⟨-, rfl⟩ | ⟨-, hold⟩
      · rcases hp with hp | hp <;> cases hp
      · exact hw.guard c' phase hold hp
    · exact (hw.handle hh).imp_left (mem_set_calls hc (by decide))
  | @lock c hc hg =>
    have hnone : .joining ∉ w.calls := hw.not_joining fun c _ h => by
      rw [hg] at h
      cases h
    refine ⟨fun c' phase hc' hp => ?_, fun hh => ?_, hreturned (by decide) rfl⟩
    · rcases getElem?_set_calls hc' with ⟨rfl, -⟩ | ⟨-, hold⟩
      · rfl
      · have hguard := hw.guard c' phase hold hp
        rw [hg] at hguard
        cases hguard
    · exact .inr ((hw.handle hh).resolve_left hnone)
  | @take c hc =>
    have hguard : w.guard = some c := hw.guard c _ hc (.inl rfl)
    have hnone : .joining ∉ w.calls := hw.not_joining fun c' hc' h => by
      obtain rfl := Option.some.inj (hguard.symm.trans h)
      rw [hc] at hc'
      cases hc'
    by_cases hhandle : w.handle = true
    · rw [if_pos hhandle] at hreturned ⊢
      refine ⟨fun c' phase hc' hp => ?_, fun _ => .inl ?_, hreturned (by decide) rfl⟩
      · rcases getElem?_set_calls hc' with ⟨rfl, -⟩ | ⟨-, hold⟩
        · exact hguard
        · exact hw.guard c' phase hold hp
      · exact List.mem_set (List.getElem?_eq_some_iff.mp hc).1 _
    · rw [if_neg hhandle]
      have hdone : w.worker.Finished := (hw.handle (Bool.of_not_eq_true hhandle)).resolve_left hnone
      refine ⟨fun c' phase hc' hp => ?_, fun _ => .inr hdone, fun _ => hdone⟩
      rcases getElem?_set_calls hc' with ⟨-, rfl⟩ | ⟨hne, hold⟩
      · rcases hp with hp | hp <;> cases hp
      · exact absurd (Option.some.inj ((hw.guard c' phase hold hp).symm.trans hguard)) hne
  | @join c hc hdone =>
    have hguard : w.guard = some c := hw.guard c _ hc (.inr rfl)
    refine ⟨fun c' phase hc' hp => ?_, fun _ => .inr hdone, fun _ => hdone⟩
    rcases getElem?_set_calls hc' with ⟨-, rfl⟩ | ⟨hne, hold⟩
    · rcases hp with hp | hp <;> cases hp
    · exact absurd (Option.some.inj ((hw.guard c' phase hold hp).symm.trans hguard)) hne
  | _ => exact hidle nofun

end
end ChalkMetrics
