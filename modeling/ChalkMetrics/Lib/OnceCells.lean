/-
# Values computed once, along a chain

Every node has a value made of the value of its parent, or one of its own if it
has no parent. A node with a parent keeps its value in a cell: the first thread
that asks for it computes it, by asking for the parent's, and those that ask
meanwhile wait. Whatever the threads do, a node's value is handed out and
stored only as it is (`run_done`). No thread waits in vain: as long as the
chains of parents end, some thread that has been asked can go on (`progress`),
and it goes on at most `2 n + 2` times for a node with `n` ancestors
(`steps_le`).

Key definitions: `Nodes.HasValue`, `Step`, `Sound`.
-/
import ChalkMetrics.Lib.Run
import Mathlib.Logic.Function.Basic
import Mathlib.Tactic.Linarith

namespace OnceCells

open Runs

variable {ι α θ : Type*}

structure Nodes (ι α : Type*) where
  parent : ι → Option ι
  root : ι → α
  extend : ι → α → α

variable (N : Nodes ι α)

inductive Nodes.HasValue : ι → α → Prop
  | root {i : ι} (h : N.parent i = none) : HasValue i (N.root i)
  | child {i j : ι} {v : α} (h : N.parent i = some j) (hv : HasValue j v) :
      HasValue i (N.extend i v)

/-- The number of ancestors. -/
inductive Nodes.Height : ι → ℕ → Prop
  | root {i : ι} (h : N.parent i = none) : Height i 0
  | child {i j : ι} {n : ℕ} (h : N.parent i = some j) (hn : Height j n) : Height i (n + 1)

def Nodes.Parent (j i : ι) : Prop := N.parent i = some j

variable {N}

theorem Nodes.Height.acc {i : ι} {n : ℕ} (hn : N.Height i n) : Acc N.Parent i := by
  induction hn with
  | root h =>
    refine ⟨_, fun j hj => ?_⟩
    simp [Parent, h] at hj
  | child h _ ih =>
    refine ⟨_, fun j hj => ?_⟩
    obtain rfl : _ = _ := Option.some.inj (h.symm.trans hj)
    exact ih

/-! ### Threads -/

inductive Cell (α θ : Type*) where
  | empty
  | busy (t : θ)
  | full (v : α)

/-- `waiting` are the nodes whose cells the thread is filling, each the parent
of the next. -/
inductive Phase (ι α : Type*) where
  | idle
  | calling (i : ι) (waiting : List ι)
  | returning (i : ι) (v : α) (waiting : List ι)

def Phase.waiting : Phase ι α → List ι
  | idle => []
  | calling _ waiting => waiting
  | returning _ _ waiting => waiting

structure State (ι α θ : Type*) where
  cell : ι → Cell α θ
  phase : θ → Phase ι α

def State.start : State ι α θ := ⟨fun _ => .empty, fun _ => .idle⟩

section

variable [DecidableEq ι] [DecidableEq θ]

def State.setPhase (s : State ι α θ) (t : θ) (p : Phase ι α) : State ι α θ :=
  { s with phase := Function.update s.phase t p }

def State.setCell (s : State ι α θ) (i : ι) (c : Cell α θ) : State ι α θ :=
  { s with cell := Function.update s.cell i c }

/-- Thread `t` is asked for the value of `i`, goes on, or has the value. -/
inductive Event (ι α θ : Type*) where
  | call (t : θ) (i : ι)
  | work (t : θ)
  | done (t : θ) (i : ι) (v : α)

/-- A thread that meets a cell being filled waits: there is no step for it. -/
inductive Step (N : Nodes ι α) : State ι α θ → Event ι α θ → State ι α θ → Prop
  | call {s : State ι α θ} {t : θ} (i : ι) (ht : s.phase t = .idle) :
      Step N s (.call t i) (s.setPhase t (.calling i []))
  | root {s : State ι α θ} {t : θ} {i : ι} {ws : List ι} (ht : s.phase t = .calling i ws)
      (hi : N.parent i = none) : Step N s (.work t) (s.setPhase t (.returning i (N.root i) ws))
  | hit {s : State ι α θ} {t : θ} {i j : ι} {v : α} {ws : List ι}
      (ht : s.phase t = .calling i ws) (hi : N.parent i = some j) (hc : s.cell i = .full v) :
      Step N s (.work t) (s.setPhase t (.returning i v ws))
  | start {s : State ι α θ} {t : θ} {i j : ι} {ws : List ι} (ht : s.phase t = .calling i ws)
      (hi : N.parent i = some j) (hc : s.cell i = .empty) :
      Step N s (.work t) ((s.setCell i (.busy t)).setPhase t (.calling j (i :: ws)))
  | store {s : State ι α θ} {t : θ} {i j : ι} {v : α} {ws : List ι}
      (ht : s.phase t = .returning j v (i :: ws)) :
      Step N s (.work t)
        ((s.setCell i (.full (N.extend i v))).setPhase t (.returning i (N.extend i v) ws))
  | done {s : State ι α θ} {t : θ} {i : ι} {v : α} (ht : s.phase t = .returning i v []) :
      Step N s (.done t i v) (s.setPhase t .idle)

/-- Each node is the parent of the next. -/
def Stacked (N : Nodes ι α) : List ι → Prop := List.IsChain N.Parent

/-- What a thread has in hand is right. -/
def Phase.Right (N : Nodes ι α) : Phase ι α → Prop
  | idle => True
  | calling i ws => Stacked N (i :: ws)
  | returning i v ws => N.HasValue i v ∧ Stacked N (i :: ws)

structure Sound (N : Nodes ι α) (s : State ι α θ) : Prop where
  full : ∀ i v, s.cell i = .full v → N.HasValue i v
  right : ∀ t, (s.phase t).Right N
  busy : ∀ i t, s.cell i = .busy t → i ∈ (s.phase t).waiting

omit [DecidableEq ι] [DecidableEq θ] in
theorem sound_start : Sound N (State.start : State ι α θ) where
  full := nofun
  right := fun _ => trivial
  busy := nofun

section Frames

omit [DecidableEq ι]

theorem setPhase_self (s : State ι α θ) (t : θ) (p : Phase ι α) : (s.setPhase t p).phase t = p :=
  Function.update_self ..

theorem setPhase_of_ne (s : State ι α θ) {t u : θ} (p : Phase ι α) (h : u ≠ t) :
    (s.setPhase t p).phase u = s.phase u := Function.update_of_ne h ..

/-- A thread goes on without touching a cell, and keeps those it fills. -/
theorem Sound.setPhase {s : State ι α θ} (hs : Sound N s) {t : θ} {p : Phase ι α}
    (hp : p.Right N) (hw : p.waiting = (s.phase t).waiting) : Sound N (s.setPhase t p) where
  full := hs.full
  right := by
    intro u
    by_cases hu : u = t
    · rw [hu, setPhase_self]
      exact hp
    · rw [setPhase_of_ne _ _ hu]
      exact hs.right u
  busy := by
    intro i u hi
    have := hs.busy i u hi
    by_cases hu : u = t
    · rw [hu] at this
      rwa [hu, setPhase_self, hw]
    · rwa [setPhase_of_ne _ _ hu]

end Frames

omit [DecidableEq θ] in
theorem setCell_self (s : State ι α θ) (i : ι) (c : Cell α θ) : (s.setCell i c).cell i = c :=
  Function.update_self ..

omit [DecidableEq θ] in
theorem setCell_of_ne (s : State ι α θ) {i k : ι} (c : Cell α θ) (h : k ≠ i) :
    (s.setCell i c).cell k = s.cell k := Function.update_of_ne h ..

theorem Sound.step {s s' : State ι α θ} {e : Event ι α θ} (hs : Sound N s) (h : Step N s e s') :
    Sound N s' := by
  cases h with
  | @call t i ht =>
    refine hs.setPhase (.singleton i) ?_
    rw [ht]
    rfl
  | @root t i ws ht hi =>
    have hr := hs.right t
    rw [ht] at hr
    refine hs.setPhase ⟨.root hi, hr⟩ ?_
    rw [ht]
    rfl
  | @hit t i j v ws ht hi hc =>
    have hr := hs.right t
    rw [ht] at hr
    refine hs.setPhase ⟨hs.full i v hc, hr⟩ ?_
    rw [ht]
    rfl
  | @start t i j ws ht hi hc =>
    have hr := hs.right t
    rw [ht] at hr
    refine ⟨fun k v hk => ?_, fun u => ?_, fun k u hk => ?_⟩
    · by_cases hki : k = i
      · subst hki
        rw [show ((s.setCell k (.busy t)).setPhase t _).cell k = .busy t from setCell_self ..] at hk
        cases hk
      · exact hs.full k v ((setCell_of_ne s (.busy t) hki).symm.trans hk)
    · by_cases hu : u = t
      · rw [hu, setPhase_self]
        exact List.isChain_cons_cons.mpr ⟨hi, hr⟩
      · rw [setPhase_of_ne _ _ hu]
        exact hs.right u
    · by_cases hki : k = i
      · subst hki
        rw [show ((s.setCell k (.busy t)).setPhase t _).cell k = .busy t from setCell_self ..] at hk
        obtain rfl := Cell.busy.inj hk
        rw [setPhase_self]
        exact List.mem_cons_self
      · have := hs.busy k u ((setCell_of_ne s (.busy t) hki).symm.trans hk)
        by_cases hu : u = t
        · subst hu
          rw [setPhase_self]
          rw [ht] at this
          exact List.mem_cons_of_mem _ this
        · rwa [setPhase_of_ne _ _ hu]
  | @store t i j v ws ht =>
    have hr := hs.right t
    rw [ht] at hr
    obtain ⟨hv, hst⟩ := hr
    obtain ⟨hi, hst⟩ := List.isChain_cons_cons.mp hst
    have hval : N.HasValue i (N.extend i v) := .child hi hv
    refine ⟨fun k w hk => ?_, fun u => ?_, fun k u hk => ?_⟩
    · by_cases hki : k = i
      · subst hki
        obtain rfl := Cell.full.inj ((setCell_self s k _).symm.trans hk)
        exact hval
      · exact hs.full k w ((setCell_of_ne s _ hki).symm.trans hk)
    · by_cases hu : u = t
      · rw [hu, setPhase_self]
        exact ⟨hval, hst⟩
      · rw [setPhase_of_ne _ _ hu]
        exact hs.right u
    · by_cases hki : k = i
      · subst hki
        cases (setCell_self s k (.full (N.extend k v))).symm.trans hk
      · have := hs.busy k u ((setCell_of_ne s _ hki).symm.trans hk)
        by_cases hu : u = t
        · subst hu
          rw [setPhase_self]
          rw [ht] at this
          exact (List.mem_cons.mp this).resolve_left hki
        · rwa [setPhase_of_ne _ _ hu]
  | @done t i v ht =>
    refine hs.setPhase trivial ?_
    rw [ht]
    rfl

theorem Sound.run {s s' : State ι α θ} {es : List (Event ι α θ)} (hs : Sound N s)
    (h : Run (Step N) s es s') : Sound N s' :=
  h.inv (I := fun _ s => Sound N s) hs fun _ _ _ _ => Sound.step

/-- **What is handed out is the value**, after every run. -/
theorem run_done {s : State ι α θ} {es : List (Event ι α θ)} (h : Run (Step N) .start es s) :
    ∀ t i v, .done t i v ∈ es → N.HasValue i v := by
  refine (h.inv (I := fun es s => Sound N s ∧ ∀ t i v, .done t i v ∈ es → N.HasValue i v)
    ⟨sound_start, nofun⟩ ?_).2
  rintro es s e s' ⟨hs, hes⟩ hstep
  refine ⟨hs.step hstep, fun t i v hmem => ?_⟩
  rcases List.mem_append.mp hmem with hmem | hmem
  · exact hes t i v hmem
  · obtain rfl := List.mem_singleton.mp hmem
    cases hstep with
    | done ht =>
      have hr := hs.right t
      rw [ht] at hr
      exact hr.1

/-! ### No thread waits in vain -/

omit [DecidableEq ι] [DecidableEq θ] in
theorem Stacked.parent_of_mem {k i : ι} : ∀ {ws : List ι}, Stacked N (k :: ws) → i ∈ ws →
    Relation.TransGen N.Parent k i
  | w :: ws, h, hi => by
    obtain ⟨hkw, hws⟩ := List.isChain_cons_cons.mp h
    rcases List.mem_cons.mp hi with rfl | hi
    · exact .single hkw
    · exact .head hkw (Stacked.parent_of_mem hws hi)

theorem Sound.step_of_returning {s : State ι α θ} {t : θ} {i : ι} {v : α} {ws : List ι}
    (ht : s.phase t = .returning i v ws) : ∃ e s', Step N s e s' ∧ ∀ u k, e ≠ .call u k := by
  cases ws with
  | nil => exact ⟨_, _, .done ht, nofun⟩
  | cons k ws => exact ⟨_, _, .store ht, nofun⟩

/-- A thread that waits for a cell waits for one that fills a cell further up. -/
theorem Sound.progress {s : State ι α θ} (hs : Sound N s) {i : ι} (hi : Acc N.Parent i) :
    ∀ {t : θ} {ws : List ι}, s.phase t = .calling i ws →
      ∃ e s', Step N s e s' ∧ ∀ u k, e ≠ .call u k := by
  have hacc := hi.transGen
  clear hi
  induction hacc with
  | intro i _ ih =>
    intro t ws ht
    cases hp : N.parent i with
    | none => exact ⟨_, _, .root ht hp, nofun⟩
    | some j =>
      cases hc : s.cell i with
      | empty => exact ⟨_, _, .start ht hp hc, nofun⟩
      | full v => exact ⟨_, _, .hit ht hp hc, nofun⟩
      | busy u =>
        have hmem := hs.busy i u hc
        have hr := hs.right u
        cases hu : s.phase u with
        | idle => simp [hu, Phase.waiting] at hmem
        | returning k v us => exact step_of_returning hu
        | calling k us =>
          rw [hu] at hmem hr
          exact ih k (Stacked.parent_of_mem hr hmem) hu

/-- What a thread still asks for has a chain of parents that ends. -/
def Phase.Ends (N : Nodes ι α) : Phase ι α → Prop
  | calling i _ => ∃ n, N.Height i n
  | _ => True

theorem Step.ends {s s' : State ι α θ} {e : Event ι α θ} (h : Step N s e s')
    (he : ∀ t i, e = .call t i → ∃ n, N.Height i n) (hs : ∀ t, (s.phase t).Ends N) (t : θ) :
    (s'.phase t).Ends N := by
  have hframe : ∀ {s : State ι α θ} {u : θ} {p : Phase ι α}, (∀ t, (s.phase t).Ends N) →
      p.Ends N → ((s.setPhase u p).phase t).Ends N := by
    intro s u p hs hp
    by_cases hu : t = u
    · rwa [hu, setPhase_self]
    · rw [setPhase_of_ne _ _ hu]
      exact hs t
  cases h with
  | call i ht => exact hframe hs (he _ i rfl)
  | root ht hi => exact hframe hs trivial
  | hit ht hi hc => exact hframe hs trivial
  | @start u i j ws ht hi hc =>
    refine hframe (s := s.setCell i (.busy u)) hs ?_
    have hn := hs u
    rw [ht] at hn
    obtain ⟨n, hn⟩ := hn
    cases hn with
    | root h => simp [h] at hi
    | child h hn =>
      obtain rfl := Option.some.inj (h.symm.trans hi)
      exact ⟨_, hn⟩
  | store ht => exact hframe (s := s.setCell _ _) hs trivial
  | done ht => exact hframe hs trivial

/-- **Some thread can go on**, in every state in which one is asked, if only
nodes whose chain of parents ends are asked for. -/
theorem progress {s : State ι α θ} {es : List (Event ι α θ)} (h : Run (Step N) .start es s)
    (hcalls : ∀ t i, .call t i ∈ es → ∃ n, N.Height i n) {t : θ} (ht : s.phase t ≠ .idle) :
    ∃ e s', Step N s e s' ∧ ∀ u k, e ≠ .call u k := by
  have hs : Sound N s := sound_start.run h
  have hends : (∀ t i, .call t i ∈ es → ∃ n, N.Height i n) → ∀ t, (s.phase t).Ends N := by
    refine h.inv (I := fun es s => (∀ t i, .call t i ∈ es → ∃ n, N.Height i n) →
      ∀ t, (s.phase t).Ends N) (fun _ _ => trivial) ?_
    intro es s e s' ih hstep hes
    refine hstep.ends (fun t i he => hes t i ?_) (ih fun t i he => hes t i ?_)
    · rw [he]
      exact List.mem_append_right _ List.mem_cons_self
    · exact List.mem_append_left _ he
  cases hp : s.phase t with
  | idle => exact absurd hp ht
  | returning i v ws => exact Sound.step_of_returning hp
  | calling i ws =>
    have hn := hends hcalls t
    rw [hp] at hn
    obtain ⟨n, hn⟩ := hn
    exact hs.progress hn.acc hp

/-! ### How long a call takes -/

def Event.thread : Event ι α θ → θ
  | call t _ => t
  | work t => t
  | done t _ _ => t

/-- The steps a thread has before it. -/
inductive Phase.Left (N : Nodes ι α) : Phase ι α → ℕ → Prop
  | idle : Left N idle 0
  | calling {i : ι} {n : ℕ} {ws : List ι} (hn : N.Height i n) :
      Left N (calling i ws) (2 * n + ws.length + 2)
  | returning {i : ι} {v : α} {ws : List ι} : Left N (returning i v ws) (ws.length + 1)

/-- The other threads stay where they are. -/
theorem Step.other {s s' : State ι α θ} {e : Event ι α θ} (h : Step N s e s') {t : θ}
    (ht : e.thread ≠ t) : s'.phase t = s.phase t := by
  cases h <;> exact setPhase_of_ne _ _ (Ne.symm ht)

theorem Step.left {s s' : State ι α θ} {e : Event ι α θ} (h : Step N s e s')
    (he : ∀ i, e ≠ .call e.thread i) {m : ℕ} (hm : (s.phase e.thread).Left N m) :
    ∃ m', (s'.phase e.thread).Left N m' ∧ m' + 1 ≤ m := by
  cases h with
  | call i ht => exact absurd rfl (he i)
  | @root t i ws ht hi =>
    rw [Event.thread, ht] at hm
    cases hm with
    | calling hn =>
      rw [Event.thread, setPhase_self]
      exact ⟨_, .returning, by omega⟩
  | @hit t i j v ws ht hi hc =>
    rw [Event.thread, ht] at hm
    cases hm with
    | calling hn =>
      rw [Event.thread, setPhase_self]
      exact ⟨_, .returning, by omega⟩
  | @start t i j ws ht hi hc =>
    rw [Event.thread, ht] at hm
    cases hm with
    | calling hn =>
      rw [Event.thread, setPhase_self]
      cases hn with
      | root h => simp [h] at hi
      | child h hn =>
        obtain rfl := Option.some.inj (h.symm.trans hi)
        refine ⟨_, .calling hn, ?_⟩
        rw [List.length_cons]
        omega
  | @store t i j v ws ht =>
    rw [Event.thread, ht] at hm
    cases hm with
    | returning =>
      rw [Event.thread, setPhase_self]
      exact ⟨_, .returning, le_rfl⟩
  | @done t i v ht =>
    rw [Event.thread, ht] at hm
    cases hm with
    | returning =>
      rw [Event.thread, setPhase_self]
      exact ⟨_, .idle, le_rfl⟩

/-- **A call takes at most `2 n + 2` steps of its thread**, for a node with `n`
ancestors. -/
theorem steps_le {s s' : State ι α θ} {es : List (Event ι α θ)} (h : Run (Step N) s es s') {t : θ}
    {i : ι} {n : ℕ} (ht : s.phase t = .calling i []) (hn : N.Height i n)
    (hes : ∀ k, .call t k ∉ es) : (es.filter fun e => e.thread = t).length ≤ 2 * n + 2 := by
  have hleft : (∀ k, .call t k ∉ es) → ∃ m, (s'.phase t).Left N m ∧
      m + (es.filter fun e => e.thread = t).length ≤ 2 * n + 2 := by
    refine h.inv (I := fun es s' => (∀ k, .call t k ∉ es) → ∃ m, (s'.phase t).Left N m ∧
      m + (es.filter fun e => e.thread = t).length ≤ 2 * n + 2) (fun _ => ?_) ?_
    · rw [ht]
      exact ⟨_, .calling hn, by simp⟩
    · intro es u e u' ih hstep hes
      obtain ⟨m, hm, hle⟩ := ih fun k hk => hes k (List.mem_append_left _ hk)
      rw [List.filter_append, List.length_append]
      by_cases he : e.thread = t
      · subst he
        obtain ⟨m', hm', hle'⟩ := hstep.left
          (fun k hk => hes k (by rw [← hk]; exact List.mem_append_right _ List.mem_cons_self)) hm
        refine ⟨m', hm', ?_⟩
        simp only [List.filter_singleton, decide_true, Bool.cond_true, List.length_singleton]
        omega
      · rw [hstep.other he]
        refine ⟨m, hm, ?_⟩
        simp only [List.filter_singleton, he, decide_false, Bool.cond_false, List.length_nil]
        omega
  obtain ⟨m, -, hle⟩ := hleft hes
  omega

end

end OnceCells
