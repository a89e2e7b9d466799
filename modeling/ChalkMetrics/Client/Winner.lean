/-
# One `try_init` wins, one `shutdown()` goes on

In every run of the process, whatever the interleaving: one call of `try_init`
and no more gets past `GLOBAL.set`, and once it has the client in `GLOBAL` is
that one for good; one call of `shutdown()` or of the `atexit` handler and no
more gets past `SHUTDOWN_CALLED`, and all clients together are shut down once
at most (`one_winner`). A client that lost is never told to stop.

Key definitions: `InitPhase.won`, `Elected`.
-/
import ChalkMetrics.Client.Global

namespace ChalkMetrics

open Runs

/-- The call got past `GLOBAL.set`. -/
def InitPhase.won : InitPhase → Bool
  | built _ => false
  | set => true
  | registered => true
  | returned ok => ok

def GlobalPhase.inside : GlobalPhase → Bool
  | inClient _ => true
  | _ => false

section

variable {F : Type} [FloatOps F]

namespace Process

/-- The calls of `try_init` that won. -/
def winners (p : Process F) : ℕ := p.inits.countP InitPhase.won

/-- The calls of `shutdown()` on their way through the client. -/
def active (p : Process F) : ℕ := p.calls.countP fun call => call.phase.active

def inside (p : Process F) : ℕ := p.calls.countP fun call => call.phase.inside

/-- The shutdown calls on all clients. -/
def shutdowns (p : Process F) : ℕ := (p.clients.map fun w => w.calls.length).sum

end Process

/-- The numbers of winners: the call that took the flag is on its way to the
client, or has called it, or gave up. -/
structure Elected (p : Process F) : Prop where
  winners : p.winners = if p.global.isSome then 1 else 0
  inside : p.inside ≤ p.shutdowns
  flag : p.active + p.shutdowns ≤ (if p.shutdownCalled then 1 else 0) + p.inside
  losers : ∀ c w, p.clients[c]? = some w → p.global ≠ some c → w.calls = []

theorem elected_start : Elected (.start : Process F) :=
  ⟨rfl, Nat.le_refl _, Nat.le_refl _, fun c w hc => by simp [Process.start] at hc⟩

omit [FloatOps F] in
theorem countP_set_of_getElem? {α : Type} {p : α → Bool} {l : List α} {i : ℕ} {a b : α}
    (h : l[i]? = some a) :
    (l.set i b).countP p + (if p a then 1 else 0) = l.countP p + if p b then 1 else 0 := by
  obtain ⟨hi, rfl⟩ := List.getElem?_eq_some_iff.mp h
  have hpos : p l[i] = true → 0 < l.countP p := fun hp =>
    List.countP_pos_iff.mpr ⟨l[i], List.getElem_mem hi, hp⟩
  rw [List.countP_set hi]
  by_cases hp : p l[i] = true
  · have hpos := hpos hp
    simp only [hp, if_true]
    omega
  · simp only [hp, if_false, Bool.false_eq_true]
    omega

omit [FloatOps F] in
theorem sum_map_set {α : Type} (f : α → ℕ) : ∀ {l : List α} {i : ℕ} {a b : α}, l[i]? = some a →
    ((l.set i b).map f).sum + f a = (l.map f).sum + f b
  | [], i, a, b, h => by simp at h
  | x :: l, 0, a, b, h => by
    obtain rfl : x = a := by simpa using h
    simp only [List.set_cons_zero, List.map_cons, List.sum_cons]
    omega
  | x :: l, i + 1, a, b, h => by
    have ih := sum_map_set f (l := l) (i := i) (a := a) (b := b) (by simpa using h)
    simp only [List.set_cons_succ, List.map_cons, List.sum_cons]
    omega

theorem shutdowns_setClient {p : Process F} {c : ℕ} {w w' : Client F} (hc : p.clients[c]? = some w) :
    (p.setClient c w').shutdowns + w.calls.length = p.shutdowns + w'.calls.length :=
  sum_map_set (fun w => w.calls.length) hc

theorem losers_setClient {p : Process F} {c : ℕ} {w w' : Client F} (hc : p.clients[c]? = some w)
    (hp : ∀ c w, p.clients[c]? = some w → p.global ≠ some c → w.calls = [])
    (hlost : p.global ≠ some c → w'.calls = w.calls) :
    ∀ d v, (p.setClient c w').clients[d]? = some v → p.global ≠ some d → v.calls = [] := by
  intro d v hv hd
  by_cases heq : c = d
  · subst heq
    rw [Process.setClient, List.getElem?_set_self (List.getElem?_eq_some_iff.mp hc).1] at hv
    obtain rfl := Option.some.inj hv
    rw [hlost hd]
    exact hp c w hc hd
  · rw [Process.setClient, List.getElem?_set_ne heq] at hv
    exact hp d v hv hd

/-- A client takes a step that calls nothing. -/
theorem Elected.setClient {p : Process F} {c : ℕ} {w w' : Client F} (hp : Elected p)
    (hc : p.clients[c]? = some w) (hlen : w'.calls.length = w.calls.length)
    (hlost : p.global ≠ some c → w'.calls = w.calls) : Elected (p.setClient c w') := by
  have hsum : (p.setClient c w').shutdowns = p.shutdowns := by
    have h : (p.setClient c w').shutdowns + w.calls.length = p.shutdowns + w'.calls.length :=
      shutdowns_setClient hc
    omega
  refine ⟨hp.winners, ?_, ?_, losers_setClient hc hp.losers hlost⟩
  · rw [hsum]
    exact hp.inside
  · rw [hsum]
    exact hp.flag

theorem active_setCall {p : Process F} {g : ℕ} {call : GlobalCall} {phase : GlobalPhase}
    (hg : p.calls[g]? = some call) :
    (p.setCall g call phase).active + (if call.phase.active then 1 else 0) =
      p.active + if phase.active then 1 else 0 :=
  countP_set_of_getElem? hg

theorem inside_setCall {p : Process F} {g : ℕ} {call : GlobalCall} {phase : GlobalPhase}
    (hg : p.calls[g]? = some call) :
    (p.setCall g call phase).inside + (if call.phase.inside then 1 else 0) =
      p.inside + if phase.inside then 1 else 0 :=
  countP_set_of_getElem? hg

/-- A call of `shutdown()` returns. -/
theorem Elected.returned {p : Process F} {g : ℕ} {call : GlobalCall} (hp : Elected p)
    (hg : p.calls[g]? = some call) : Elected (p.setCall g call .returned) := by
  have hactive : (p.setCall g call .returned).active + (if call.phase.active then 1 else 0) =
      p.active := active_setCall hg
  have hinside : (p.setCall g call .returned).inside + (if call.phase.inside then 1 else 0) =
      p.inside := inside_setCall hg
  have hphase : (if call.phase.inside then 1 else 0) ≤ if call.phase.active then 1 else 0 := by
    rcases call.phase with _ | _ | k | _ <;> simp [GlobalPhase.active, GlobalPhase.inside]
  have h1 := hp.inside
  have h2 := hp.flag
  refine ⟨hp.winners, ?_, ?_, hp.losers⟩
  · calc (p.setCall g call .returned).inside ≤ p.inside := by omega
      _ ≤ p.shutdowns := h1
  · show (p.setCall g call .returned).active + p.shutdowns ≤
      (if p.shutdownCalled then 1 else 0) + (p.setCall g call .returned).inside
    omega

/-- A call of `shutdown()` takes the flag. -/
theorem Elected.takeFlag {p : Process F} {g : ℕ} {call : GlobalCall} (hp : Elected p)
    (hg : p.calls[g]? = some call) (hphase : call.phase = .called) (hflag : p.shutdownCalled = false) :
    Elected { p.setCall g call .won with shutdownCalled := true } := by
  have hactive : (p.setCall g call .won).active + (if call.phase.active then 1 else 0) =
      p.active + 1 := active_setCall hg
  have hinside : (p.setCall g call .won).inside + (if call.phase.inside then 1 else 0) =
      p.inside := inside_setCall hg
  have h1 := hp.inside
  have h2 := hp.flag
  rw [hphase] at hactive hinside
  simp only [GlobalPhase.active, GlobalPhase.inside, Bool.false_eq_true, if_false, Nat.add_zero]
    at hactive hinside
  simp only [hflag, Bool.false_eq_true, if_false] at h2
  refine ⟨hp.winners, hinside.le.trans h1, ?_, hp.losers⟩
  show (p.setCall g call .won).active + p.shutdowns ≤ 1 + (p.setCall g call .won).inside
  omega

/-- The call that took the flag shuts the client down. -/
theorem Elected.enter {p : Process F} {g c k : ℕ} {call : GlobalCall} {w w' : Client F}
    (hp : Elected p) (hg : p.calls[g]? = some call) (hphase : call.phase = .won)
    (hglobal : p.global = some c) (hc : p.clients[c]? = some w)
    (hlen : w'.calls.length = w.calls.length + 1) :
    Elected ((p.setClient c w').setCall g call (.inClient k)) := by
  have hg' : (p.setClient c w').calls[g]? = some call := hg
  have hactive : ((p.setClient c w').setCall g call (.inClient k)).active +
      (if call.phase.active then 1 else 0) = p.active + 1 := active_setCall hg'
  have hinside : ((p.setClient c w').setCall g call (.inClient k)).inside +
      (if call.phase.inside then 1 else 0) = p.inside + 1 := inside_setCall hg'
  have hsum : (p.setClient c w').shutdowns + w.calls.length = p.shutdowns + w'.calls.length :=
    shutdowns_setClient hc
  have h1 := hp.inside
  have h2 := hp.flag
  rw [hphase] at hactive hinside
  simp only [GlobalPhase.active, GlobalPhase.inside, Bool.false_eq_true, if_false, if_true,
    Nat.add_zero] at hactive hinside
  have hlost : p.global ≠ some c → w'.calls = w.calls := fun h => absurd hglobal h
  refine ⟨hp.winners, ?_, ?_, losers_setClient hc hp.losers hlost⟩
  · show ((p.setClient c w').setCall g call (.inClient k)).inside ≤ (p.setClient c w').shutdowns
    omega
  · show ((p.setClient c w').setCall g call (.inClient k)).active + (p.setClient c w').shutdowns ≤
      (if p.shutdownCalled then 1 else 0) + ((p.setClient c w').setCall g call (.inClient k)).inside
    omega

/-- A call of `shutdown()` begins. -/
theorem Elected.callShutdown {p : Process F} (hp : Elected p) : Elected p.callShutdown := by
  have hactive : p.callShutdown.active = p.active := by
    simp [Process.active, Process.callShutdown, GlobalPhase.active]
  have hinside : p.callShutdown.inside = p.inside := by
    simp [Process.inside, Process.callShutdown, GlobalPhase.inside]
  refine ⟨hp.winners, ?_, ?_, hp.losers⟩
  · rw [hinside]
    exact hp.inside
  · rw [hactive, hinside]
    exact hp.flag

theorem inside_le_active (p : Process F) : p.inside ≤ p.active := by
  refine List.countP_mono_left fun call _ hcall => ?_
  rcases hphase : call.phase with _ | _ | k | _ <;>
    simp [hphase, GlobalPhase.inside, GlobalPhase.active] at hcall ⊢

theorem Elected.shutdowns_le {p : Process F} (hp : Elected p) :
    p.shutdowns ≤ if p.shutdownCalled then 1 else 0 := by
  have hflag := hp.flag
  have hle := inside_le_active p
  omega

theorem Elected.shutdowns_le_one {p : Process F} (hp : Elected p) : p.shutdowns ≤ 1 := by
  refine hp.shutdowns_le.trans ?_
  split_ifs <;> decide

theorem Elected.active_le_one {p : Process F} (hp : Elected p) : p.active ≤ 1 := by
  have hinside := hp.inside
  have hflag := hp.flag
  have hone : (if p.shutdownCalled then 1 else 0) ≤ 1 := by split_ifs <;> decide
  omega

end

section

variable {F : Type} [FloatOps F] [FloatBits F]

/-- Only `shutdown` makes a call. -/
theorem calls_length_step {tokio : Tokio} {w w' : Client F} {e : ClientEvent F}
    (h : ClientStep tokio w e w') (he : e ≠ .shutdown) : w'.calls.length = w.calls.length := by
  have hsame : ¬ e.OfCall → w'.calls.length = w.calls.length := fun hn => by
    rw [(callsSame_step h hn).1.calls]
  cases h with
  | shutdown => exact absurd rfl he
  | notify hc => exact List.length_set
  | lock hc hg => exact List.length_set
  | take hc => split_ifs <;> exact List.length_set
  | join hc hw => exact List.length_set
  | _ => exact hsame nofun

omit [FloatOps F] [FloatBits F] in
theorem not_ofCall_of_ofWorker {e : ClientEvent F} (he : e.OfWorker) : ¬ e.OfCall := by
  cases e with
  | record grow x u => exact he.elim
  | _ => exact he

variable {tokio : Tokio} {p p' : Process F} {e : ProcessEvent F}

theorem elected_step (h : ProcessStep tokio p e p') (hp : Elected p) : Elected p' := by
  cases h with
  | build =>
    refine ⟨?_, ?_, ?_, fun c w hc hg => ?_⟩
    · have h := hp.winners
      unfold Process.winners at h ⊢
      simpa [InitPhase.won] using h
    · have h := hp.inside
      unfold Process.inside Process.shutdowns at h ⊢
      simpa [buildInner] using h
    · have h := hp.flag
      unfold Process.active Process.inside Process.shutdowns at h ⊢
      simpa [buildInner] using h
    · rcases List.mem_append.mp (List.mem_of_getElem? hc) with hw | hw
      · by_cases hlt : c < p.clients.length
        · rw [List.getElem?_append_left hlt] at hc
          exact hp.losers c w hc hg
        · rw [List.getElem?_append_right (not_lt.mp hlt)] at hc
          have := List.mem_of_getElem? hc
          rw [List.mem_singleton.mp this]
          rfl
      · rw [List.mem_singleton.mp hw]
        rfl
  | @set i c hi =>
    have hcount := countP_set_of_getElem? (p := InitPhase.won) (b := InitPhase.set) hi
    have hcount' := countP_set_of_getElem? (p := InitPhase.won) (b := InitPhase.returned false) hi
    have hwin := hp.winners
    unfold Process.winners at hwin
    simp only [InitPhase.won, Bool.false_eq_true, if_false, if_true, Nat.add_zero] at hcount hcount'
    by_cases hg : p.global.isNone
    · rw [if_pos hg]
      have hnone : p.global = none := Option.isNone_iff_eq_none.mp hg
      rw [hnone] at hwin
      refine ⟨?_, hp.inside, hp.flag, fun c' w hw hc' => hp.losers c' w hw (by simp [hnone])⟩
      unfold Process.winners
      rw [hcount, hwin]
      rfl
    · rw [if_neg hg]
      refine ⟨?_, hp.inside, hp.flag, hp.losers⟩
      unfold Process.winners
      rw [hcount', hwin]
  | @«atexit» i hi =>
    have hcount := countP_set_of_getElem? (p := InitPhase.won) (b := InitPhase.registered) hi
    simp only [InitPhase.won, if_true, Nat.add_right_cancel_iff] at hcount
    exact ⟨hcount.trans hp.winners, hp.inside, hp.flag, hp.losers⟩
  | @ok i hi =>
    have hcount := countP_set_of_getElem? (p := InitPhase.won) (b := InitPhase.returned true) hi
    simp only [InitPhase.won, if_true, Nat.add_right_cancel_iff] at hcount
    exact ⟨hcount.trans hp.winners, hp.inside, hp.flag, hp.losers⟩
  | work hc he h =>
    have hcalls := (callsSame_step h (not_ofCall_of_ofWorker he)).1.calls
    exact hp.setClient hc (by rw [hcalls]) fun _ => hcalls
  | record hg hc h =>
    have hcalls := (callsSame_step h id).1.calls
    exact hp.setClient hc (by rw [hcalls]) fun _ => hcalls
  | recordNothing hg => exact hp
  | shutdown => exact hp.callShutdown
  | exit ha => exact hp.callShutdown
  | cas hg hphase =>
    split_ifs with hflag
    · exact hp.returned hg
    · exact hp.takeFlag hg hphase (Bool.eq_false_iff.mpr hflag)
  | getNothing hg hphase hglobal => exact hp.returned hg
  | get hg hphase hglobal hc h =>
    refine hp.enter hg hphase hglobal hc ?_
    cases h with
    | shutdown => exact List.length_append
  | client hg hphase hglobal hc he h =>
    refine hp.setClient hc (calls_length_step h ?_) fun hne => absurd hglobal hne
    intro hshutdown
    rw [hshutdown] at he
    exact he
  | finish hg hphase hw hk => exact hp.returned hg

/-- `GLOBAL` is set once. -/
theorem global_step (h : ProcessStep tokio p e p') {c : ℕ} (hc : p.global = some c) :
    p'.global = some c := by
  cases h with
  | set hi =>
    rw [hc, Option.isNone_some, if_neg Bool.false_ne_true]
  | cas hg hphase => split_ifs <;> exact hc
  | _ => exact hc

/-- **One winner**: at any time one call of `try_init` has won, or none and
`GLOBAL` is empty; from then on `GLOBAL` stays; one call at most is on its way
through the client, and only the client in `GLOBAL` is ever shut down, once. -/
theorem one_winner {es : List (ProcessEvent F)} (h : Run (ProcessStep tokio) .start es p) :
    p.winners = (if p.global.isSome then 1 else 0) ∧ p.active ≤ 1 ∧
    p.shutdowns ≤ (if p.shutdownCalled then 1 else 0) ∧
    (∀ c w, p.clients[c]? = some w → p.global ≠ some c → w.calls = []) ∧
    ∀ es' p', Run (ProcessStep tokio) p es' p' → ∀ c, p.global = some c → p'.global = some c := by
  have hp : Elected p := h.inv (I := fun _ p => Elected p) elected_start
    fun _ _ _ _ ht hstep => elected_step hstep ht
  refine ⟨hp.winners, hp.active_le_one, hp.shutdowns_le, hp.losers, fun es' p' h' c hc => ?_⟩
  exact h'.inv (I := fun _ p' => p'.global = some c) hc fun _ _ _ _ ht hstep => global_step hstep ht

end

/-- Two calls of `try_init`, the second before `GLOBAL` is set. -/
theorem one_winner_two : ∃ p : Process F64, Run (ProcessStep .documented) .start
    [.build, .build, .set 1, .set 0, .shutdown, .cas 0] p ∧ p.winners = 1 ∧ p.active ≤ 1 := by
  let w : Client F64 := oneExporter 10
  have hfirst : ProcessStep .documented .start .build
      (⟨[w], none, false, false, false, [.built 0], [], none⟩ : Process F64) := .build
  have hsecond : ProcessStep .documented ⟨[w], none, false, false, false, [.built 0], [], none⟩ .build
      (⟨[w, w], none, false, false, false, [.built 0, .built 1], [], none⟩ : Process F64) := .build
  have hset : ProcessStep .documented
      ⟨[w, w], none, false, false, false, [.built 0, .built 1], [], none⟩ (.set 1)
      (⟨[w, w], some 1, false, false, false, [.built 0, .set], [], none⟩ : Process F64) :=
    @ProcessStep.set F64 _ _ .documented _ 1 1 rfl
  have hlost : ProcessStep .documented
      ⟨[w, w], some 1, false, false, false, [.built 0, .set], [], none⟩ (.set 0)
      (⟨[w, w], some 1, false, false, false, [.returned false, .set], [], none⟩ : Process F64) :=
    @ProcessStep.set F64 _ _ .documented _ 0 0 rfl
  have hcall : ProcessStep .documented
      ⟨[w, w], some 1, false, false, false, [.returned false, .set], [], none⟩ .shutdown
      (⟨[w, w], some 1, false, false, false, [.returned false, .set], [⟨false, .called⟩], none⟩ :
        Process F64) := .shutdown
  have hcas : ProcessStep .documented
      ⟨[w, w], some 1, false, false, false, [.returned false, .set], [⟨false, .called⟩], none⟩ (.cas 0)
      (⟨[w, w], some 1, true, false, false, [.returned false, .set], [⟨false, .won⟩], none⟩ :
        Process F64) := cas_won ⟨false, .called⟩ rfl rfl rfl
  have hrun : Run (ProcessStep .documented) .start
      [.build, .build, .set 1, .set 0, .shutdown, .cas 0] _ :=
    (((((Run.nil.snoc hfirst).snoc hsecond).snoc hset).snoc hlost).snoc hcall).snoc hcas
  obtain ⟨hwinners, hactive, -⟩ := one_winner hrun
  exact ⟨_, hrun, hwinners, hactive⟩

end ChalkMetrics
