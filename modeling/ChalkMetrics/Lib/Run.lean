/-
# Runs of a labelled transition system

A run is a list of labels with the states it leads through; it grows at the
end, so an invariant may speak of the labels so far (`Run.inv`). `Where step c`
takes only the steps whose condition `c` holds before them: a run of it is a
run all of whose steps meet the condition. A run whose steps another system
matches is matched by a run of it (`Run.simulated`). Steps that lower a measure end
(`Run.length_le`), and lead where they cannot go on (`exists_run`).
-/
import Mathlib.Data.List.Basic

namespace Runs

variable {σ α : Type*} {step step' : σ → α → σ → Prop}

inductive Run (step : σ → α → σ → Prop) (s : σ) : List α → σ → Prop
  | nil : Run step s [] s
  | snoc {as : List α} {t : σ} {a : α} {u : σ} (h : Run step s as t) (hs : step t a u) :
      Run step s (as ++ [a]) u

/-- What holds at the start and is kept by every step holds after every run. -/
theorem Run.inv {s t : σ} {as : List α} {I : List α → σ → Prop} (h : Run step s as t)
    (h0 : I [] s) (hstep : ∀ as t a u, I as t → step t a u → I (as ++ [a]) u) : I as t := by
  induction h with
  | nil => exact h0
  | snoc _ hs ih => exact hstep _ _ _ _ ih hs

/-- The last step of a run. -/
theorem Run.last {s u : σ} {as : List α} {a : α} (h : Run step s (as ++ [a]) u) :
    ∃ t, Run step s as t ∧ step t a u := by
  generalize hl : as ++ [a] = l at h
  cases h with
  | nil => simp at hl
  | snoc h hs =>
    obtain ⟨rfl, ha⟩ := List.append_inj' hl rfl
    obtain rfl := List.cons.inj ha |>.1
    exact ⟨_, h, hs⟩

theorem Run.mono {s t : σ} {as : List α} (hm : ∀ s a t, step s a t → step' s a t)
    (h : Run step s as t) : Run step' s as t := by
  induction h with
  | nil => exact .nil
  | snoc _ hs ih => exact ih.snoc (hm _ _ _ hs)

theorem Run.append {s t u : σ} {as bs : List α} (h : Run step s as t) (h' : Run step t bs u) :
    Run step s (as ++ bs) u := by
  induction h' with
  | nil => rwa [List.append_nil]
  | snoc _ hs ih =>
    rw [← List.append_assoc]
    exact ih.snoc hs

/-- The steps taken in states where `c` allows the label. -/
def Where (step : σ → α → σ → Prop) (c : σ → α → Prop) (s : σ) (a : α) (t : σ) : Prop :=
  step s a t ∧ c s a

theorem Run.of_where {c : σ → α → Prop} {s t : σ} {as : List α} (h : Run (Where step c) s as t) :
    Run step s as t :=
  h.mono fun _ _ _ hs => hs.1

/-- A forward simulation: if every step is matched by a run of the other system,
every run is. -/
theorem Run.simulated {τ β : Type*} {other : τ → β → τ → Prop} {R : σ → List β → τ → Prop} {s t : σ}
    {s' : τ} {as : List α} (h : Run step s as t) (h0 : R s [] s')
    (hmatch : ∀ t a u bs t', R t bs t' → step t a u →
      ∃ bs' u', Run other t' bs' u' ∧ R u (bs ++ bs') u') :
    ∃ bs t', Run other s' bs t' ∧ R t bs t' := by
  induction h with
  | nil => exact ⟨[], s', .nil, h0⟩
  | snoc _ hs ih =>
    obtain ⟨bs, t', hrun, hR⟩ := ih
    obtain ⟨bs', u', hrun', hR'⟩ := hmatch _ _ _ bs t' hR hs
    exact ⟨bs ++ bs', u', hrun.append hrun', hR'⟩

/-! ### Runs that come to an end -/

/-- If every step lowers a measure, a run is no longer than it. -/
theorem Run.length_le {μ : σ → ℕ} {I : σ → Prop} {s t : σ} {as : List α} (h : Run step s as t)
    (hs : I s) (hkeep : ∀ s a t, I s → step s a t → I t)
    (hlower : ∀ s a t, I s → step s a t → μ t < μ s) : as.length + μ t ≤ μ s := by
  refine (h.inv (I := fun as t => I t ∧ as.length + μ t ≤ μ s) ⟨hs, by simp⟩ ?_).2
  intro as t a u ht hstep
  have hlt := hlower t a u ht.1 hstep
  refine ⟨hkeep t a u ht.1 hstep, ?_⟩
  rw [List.length_append, List.length_singleton]
  have := ht.2
  omega

/-- If besides a step is possible as long as `P` does not hold, a run leads to
where it does. -/
theorem exists_run {μ : σ → ℕ} {I P : σ → Prop} (hkeep : ∀ s a t, I s → step s a t → I t)
    (hlower : ∀ s a t, I s → step s a t → μ t < μ s)
    (hprogress : ∀ s, I s → ¬ P s → ∃ a t, step s a t) {s : σ} (hs : I s) :
    ∃ as t, Run step s as t ∧ I t ∧ P t := by
  induction hn : μ s using Nat.strongRecOn generalizing s with
  | ind n ih =>
    by_cases hP : P s
    · exact ⟨[], s, .nil, hs, hP⟩
    · obtain ⟨a, t, hstep⟩ := hprogress s hs hP
      have hlt := hlower s a t hs hstep
      obtain ⟨as, u, hrun, hu, hPu⟩ := ih (μ t) (by omega) (hkeep s a t hs hstep) rfl
      exact ⟨[a] ++ as, u, (Run.nil.snoc hstep).append hrun, hu, hPu⟩

end Runs
