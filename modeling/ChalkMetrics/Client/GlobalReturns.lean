/-
# No call on the global client hangs

The whole process, with any number of clients: leave alone the calls of
`try_init`, of `shutdown()` and of the handler that are under way, and the
workers, without a further tick, and they come to an end. A call of `shutdown()`
that found the flag taken or no client returns at once; the one that is inside
the client waits for what the client's own calls wait for, and these go on by
`progress_step`, since it is the only one there (`progress_process`). So in
finitely many steps, in any order, all calls return (`calls_return`). Record
calls return at any time, where every client has seven buckets or more.

Key definitions: `ProcessEvent.Ending`, `Process.left`, `Underway`.
-/
import ChalkMetrics.Client.Returns

namespace ChalkMetrics

open Runs

section

variable {F : Type}

/-- The steps of calls begun and of the workers, without ticks. -/
def ProcessEvent.Ending : ProcessEvent F → Prop
  | .build => False
  | .work _ e => e.Ending
  | .record _ _ _ => False
  | .shutdown => False
  | .exit => False
  | _ => True

/-! ### What is left to do -/

def InitPhase.left : InitPhase → ℕ
  | built _ => 3
  | set => 2
  | registered => 1
  | returned _ => 0

/-- A call that goes on to the client leaves it four steps of its own. -/
def GlobalPhase.left : GlobalPhase → ℕ
  | called => 7
  | won => 6
  | inClient _ => 1
  | returned => 0

variable [FloatOps F]

def Process.left (p : Process F) : ℕ :=
  (p.clients.map Client.left).sum + (p.calls.map fun call => call.phase.left).sum +
    (p.inits.map InitPhase.left).sum

/-- All calls have returned. -/
def Process.Idle (p : Process F) : Prop :=
  (∀ call ∈ p.calls, call.phase = .returned) ∧ ∀ phase ∈ p.inits, ∃ ok, phase = .returned ok

/-! ### The invariant -/

/-- A call inside the client in `GLOBAL` is one of the client's calls. -/
structure Underway (p : Process F) : Prop where
  ready : ∀ w ∈ p.clients, Ready w
  built : ∀ c, .built c ∈ p.inits → c < p.clients.length
  global : ∀ c, p.global = some c → c < p.clients.length
  entered : ∀ call ∈ p.calls, ∀ k, call.phase = .inClient k →
    ∃ w, p.client = some w ∧ k < w.calls.length

theorem underway_start : Underway (.start : Process F) where
  ready _ h := nomatch h
  built _ h := nomatch h
  global _ h := nomatch h
  entered _ h := nomatch h

namespace Underway

variable {p : Process F}

theorem setCall {g : ℕ} {call : GlobalCall} {phase : GlobalPhase} (hp : Underway p)
    (hphase : ∀ k, phase = .inClient k → ∃ w, p.client = some w ∧ k < w.calls.length) :
    Underway (p.setCall g call phase) where
  ready := hp.ready
  built := hp.built
  global := hp.global
  entered c hc := by
    rcases List.mem_or_eq_of_mem_set hc with hc | rfl
    · exact hp.entered c hc
    · exact hphase

theorem takeFlag {g : ℕ} {call : GlobalCall} (hp : Underway p) :
    Underway { p.setCall g call .won with shutdownCalled := true } :=
  have h : Underway (p.setCall g call .won) := hp.setCall nofun
  ⟨h.ready, h.built, h.global, h.entered⟩

theorem callShutdown (hp : Underway p) : Underway p.callShutdown where
  ready := hp.ready
  built := hp.built
  global := hp.global
  entered call hcall k hk := by
    rcases List.mem_append.mp hcall with hcall | hcall
    · exact hp.entered call hcall k hk
    · rw [List.mem_singleton.mp hcall] at hk
      cases hk

theorem build (hp : Underway p) {makeHash : Fin 64 → UInt64 → UInt64} {mb : ℕ} {ε : F}
    {aggregate : Bool} {n interval : ℕ} :
    Underway { p with
      clients := p.clients ++ [buildInner makeHash mb ε aggregate n interval]
      inits := p.inits ++ [.built p.clients.length] } where
  ready w hw := by
    rcases List.mem_append.mp hw with hw | hw
    · exact hp.ready w hw
    · rw [List.mem_singleton.mp hw]
      exact ready_build makeHash mb ε aggregate n interval
  built c hc := by
    rw [List.length_append, List.length_singleton]
    rcases List.mem_append.mp hc with hc | hc
    · exact Nat.lt_succ_of_lt (hp.built c hc)
    · cases List.mem_singleton.mp hc
      exact Nat.lt_succ_self _
  global c hc := by
    rw [List.length_append]
    exact Nat.lt_add_right _ (hp.global c hc)
  entered call hcall k hk := by
    obtain ⟨w, hw, hlt⟩ := hp.entered call hcall k hk
    obtain ⟨c, hg, hc⟩ := client_eq_some.mp hw
    refine ⟨w, client_eq_some.mpr ⟨c, hg, ?_⟩, hlt⟩
    exact (List.getElem?_append_left (hp.global c hg)).trans hc

theorem setInit {i : ℕ} {phase : InitPhase} {atexit initialised : Bool} (hp : Underway p)
    (hphase : ∀ c, phase ≠ .built c) :
    Underway { p with atexit, initialised, inits := p.inits.set i phase } where
  ready := hp.ready
  built c hc := hp.built c ((List.mem_or_eq_of_mem_set hc).resolve_right (hphase c).symm)
  global := hp.global
  entered := hp.entered

theorem setGlobal {i c : ℕ} (hp : Underway p) (hi : p.inits[i]? = some (.built c))
    (hnone : p.global = none) : Underway { p with global := some c, inits := p.inits.set i .set } where
  ready := hp.ready
  built d hd := hp.built d ((List.mem_or_eq_of_mem_set hd).resolve_right nofun)
  global d hd := by
    obtain rfl := Option.some.inj hd
    exact hp.built c (List.mem_of_getElem? hi)
  entered call hcall k hk := by
    obtain ⟨w, hw, -⟩ := hp.entered call hcall k hk
    obtain ⟨d, hg, -⟩ := client_eq_some.mp hw
    rw [hnone] at hg
    cases hg

end Underway

variable [FloatBits F] {tokio : Tokio} {p p' : Process F}

theorem calls_length_le {w w' : Client F} {e : ClientEvent F} (h : ClientStep tokio w e w') :
    w.calls.length ≤ w'.calls.length := by
  by_cases he : e = .shutdown
  · subst he
    cases h with
    | shutdown => simp
  · exact (calls_length_step h he).ge

theorem Underway.setClient {c : ℕ} {w w' : Client F} {e : ClientEvent F} (hp : Underway p)
    (hc : p.clients[c]? = some w) (h : ClientStep tokio w e w') : Underway (p.setClient c w') where
  ready v hv := by
    rcases List.mem_or_eq_of_mem_set hv with hv | rfl
    · exact hp.ready v hv
    · exact ready_step h (hp.ready w (List.mem_of_getElem? hc))
  built d hd := by
    rw [Process.setClient, List.length_set]
    exact hp.built d hd
  global d hd := by
    rw [Process.setClient, List.length_set]
    exact hp.global d hd
  entered call hcall k hk := by
    obtain ⟨v, hv, hlt⟩ := hp.entered call hcall k hk
    obtain ⟨d, hg, hd⟩ := client_eq_some.mp hv
    by_cases heq : c = d
    · subst heq
      obtain rfl := Option.some.inj (hd.symm.trans hc)
      refine ⟨w', client_eq_some.mpr ⟨c, hg, ?_⟩, hlt.trans_le (calls_length_le h)⟩
      exact List.getElem?_set_self (List.getElem?_eq_some_iff.mp hc).1
    · exact ⟨v, client_eq_some.mpr ⟨d, hg, (List.getElem?_set_ne heq).trans hd⟩, hlt⟩

theorem underway_step {e : ProcessEvent F} (h : ProcessStep tokio p e p') (hp : Underway p) :
    Underway p' := by
  cases h with
  | build => exact hp.build
  | set hi =>
    split_ifs with hg
    · exact hp.setGlobal hi (Option.isNone_iff_eq_none.mp hg)
    · exact hp.setInit nofun
  | «atexit» hi => exact hp.setInit nofun
  | ok hi => exact hp.setInit nofun
  | work hc he h => exact hp.setClient hc h
  | record hg hc h => exact hp.setClient hc h
  | recordNothing hg => exact hp
  | shutdown => exact hp.callShutdown
  | exit ha => exact hp.callShutdown
  | cas hg hphase =>
    split_ifs with hflag
    · exact hp.setCall nofun
    · exact hp.takeFlag
  | getNothing hg hphase hglobal => exact hp.setCall nofun
  | @get g call c w w' hg hphase hglobal hc h =>
    refine (hp.setClient hc h).setCall fun k hk => ?_
    obtain rfl := GlobalPhase.inClient.inj hk
    refine ⟨w', client_eq_some.mpr ⟨c, hglobal, ?_⟩, ?_⟩
    · exact List.getElem?_set_self (List.getElem?_eq_some_iff.mp hc).1
    · cases h with
      | shutdown => simp
  | client hg hphase hglobal hc he h => exact hp.setClient hc h
  | finish hg hphase hw hk => exact hp.setCall nofun

/-! ### Each step lowers what is left -/

omit [FloatBits F] in
theorem left_setClient {c : ℕ} {w : Client F} (w' : Client F) (hc : p.clients[c]? = some w) :
    (p.setClient c w').left + w.left = p.left + w'.left := by
  have h := sum_map_set Client.left (b := w') hc
  simp only [Process.left, Process.setClient]
  omega

omit [FloatBits F] in
theorem left_setCall {g : ℕ} {call : GlobalCall} (phase : GlobalPhase)
    (hg : p.calls[g]? = some call) :
    (p.setCall g call phase).left + call.phase.left = p.left + phase.left := by
  have h : ((p.calls.set g { call with phase }).map fun call => call.phase.left).sum +
      call.phase.left = (p.calls.map fun call => call.phase.left).sum + phase.left :=
    sum_map_set (fun call => call.phase.left) hg
  simp only [Process.left, Process.setCall]
  omega

omit [FloatBits F] in
theorem left_setInit {i : ℕ} {old phase : InitPhase} (hi : p.inits[i]? = some old)
    (hlt : phase.left < old.left) : ({ p with inits := p.inits.set i phase } : Process F).left < p.left := by
  have h := sum_map_set InitPhase.left (b := phase) hi
  simp only [Process.left]
  omega

omit [FloatOps F] [FloatBits F] in
theorem ending_of_callNo {k : ℕ} {e : ClientEvent F} (he : e.OfCallNo k) : e.Ending := by
  cases e with
  | notify c => trivial
  | lock c => trivial
  | take c => trivial
  | join c => trivial
  | _ => exact he.elim

theorem lower_process {e : ProcessEvent F} (h : ProcessStep tokio p e p') (he : e.Ending) :
    p'.left < p.left := by
  cases h with
  | build => exact he.elim
  | record hg hc h => exact he.elim
  | recordNothing hg => exact he.elim
  | shutdown => exact he.elim
  | exit ha => exact he.elim
  | set hi =>
    split_ifs
    · exact left_setInit hi (Nat.lt_succ_self 2)
    · exact left_setInit hi (Nat.succ_pos 2)
  | «atexit» hi => exact left_setInit hi (by decide)
  | ok hi => exact left_setInit hi (by decide)
  | @work c w w' e hc hworker h =>
    have hlt := lower_step h he
    have hsum := left_setClient w' hc
    omega
  | @cas g call hg hphase =>
    split_ifs
    · have hsum := left_setCall .returned hg
      simp only [hphase, GlobalPhase.left] at hsum
      omega
    · have hsum := left_setCall .won hg
      simp only [hphase, GlobalPhase.left] at hsum
      show (p.setCall g call .won).left < p.left
      omega
  | getNothing hg hphase hglobal =>
    have hsum := left_setCall .returned hg
    simp only [hphase, GlobalPhase.left] at hsum
    omega
  | @get g call c w w' hg hphase hglobal hc h =>
    -- the call of the client costs it four steps
    have hleft : w'.left = w.left + 4 := by
      cases h with
      | shutdown =>
        simp only [Client.left, List.map_append, List.sum_append]
        rfl
    have hclient := left_setClient w' hc
    have hcall := left_setCall (p := p.setClient c w') (.inClient w.calls.length) hg
    simp only [hphase, GlobalPhase.left] at hcall
    omega
  | @client g call k c w w' e hg hphase hglobal hc hcall h =>
    have hlt := lower_step h (ending_of_callNo hcall)
    have hsum := left_setClient w' hc
    omega
  | finish hg hphase hw hk =>
    have hsum := left_setCall .returned hg
    simp only [hphase, GlobalPhase.left] at hsum
    omega

/-! ### Some step is possible -/

/-- A call of `try_init` goes on by itself. -/
theorem progress_init (tokio : Tokio) {i : ℕ} {phase : InitPhase} (hi : p.inits[i]? = some phase)
    (hphase : ∀ ok, phase ≠ .returned ok) : ∃ e p', ProcessStep tokio p e p' ∧ e.Ending := by
  cases phase with
  | built c => exact ⟨_, _, .set hi, trivial⟩
  | set => exact ⟨_, _, .atexit hi, trivial⟩
  | registered => exact ⟨_, _, .ok hi, trivial⟩
  | returned ok => exact absurd rfl (hphase ok)

/-- The call inside the client is the only one there, so what the client does
next is its doing or the worker's. -/
theorem progress_inside (tokio : Tokio) (hp : Underway p) (hone : p.shutdowns ≤ 1) {g k : ℕ}
    {call : GlobalCall} (hg : p.calls[g]? = some call) (hphase : call.phase = .inClient k) :
    ∃ e p', ProcessStep tokio p e p' ∧ e.Ending := by
  obtain ⟨w, hw, hk⟩ := hp.entered call (List.mem_of_getElem? hg) k hphase
  obtain ⟨c, hglobal, hc⟩ := client_eq_some.mp hw
  by_cases hret : w.calls[k] = .returned
  · refine ⟨_, _, .finish hg hphase hw ?_, trivial⟩
    rw [List.getElem?_eq_getElem hk, hret]
  · have hcalls : ¬ ∀ phase ∈ w.calls, phase = .returned :=
      fun hall => hret (hall _ (List.getElem_mem hk))
    obtain ⟨e, w', hstep, he⟩ := progress_step tokio (hp.ready w (mem_clients hw)) hcalls
    have hlen : w.calls.length ≤ 1 := by
      refine le_trans ?_ hone
      exact List.single_le_sum (fun _ _ => Nat.zero_le _) _ (List.mem_map_of_mem (mem_clients hw))
    have hcall : ∀ {j phase}, w.calls[j]? = some phase → j = k := fun hj => by
      have hlt := (List.getElem?_eq_some_iff.mp hj).1
      omega
    have hclient : e.OfCallNo k → ∃ e p', ProcessStep tokio p e p' ∧ e.Ending :=
      fun hcall => ⟨_, _, .client hg hphase hglobal hc hcall hstep, trivial⟩
    by_cases hof : e.OfCall
    · refine hclient ?_
      cases hstep with
      | shutdown => exact he.elim
      | notify hj => exact hcall hj
      | lock hj hfree => exact hcall hj
      | take hj => exact hcall hj
      | join hj hfin => exact hcall hj
      | _ => exact hof.elim
    · refine ⟨_, _, .work hc ?_ hstep, he⟩
      cases e with
      | record grow x u => exact he.elim
      | _ => exact hof

theorem progress_process (tokio : Tokio) (hp : Underway p) (hone : p.shutdowns ≤ 1)
    (hidle : ¬ p.Idle) : ∃ e p', ProcessStep tokio p e p' ∧ e.Ending := by
  by_cases hcalls : ∀ call ∈ p.calls, call.phase = .returned
  · have hinits : ¬ ∀ phase ∈ p.inits, ∃ ok, phase = .returned ok := fun h => hidle ⟨hcalls, h⟩
    simp only [not_forall, not_exists] at hinits
    obtain ⟨phase, hmem, hphase⟩ := hinits
    obtain ⟨i, hi⟩ := List.mem_iff_getElem?.mp hmem
    exact progress_init tokio hi hphase
  · simp only [not_forall] at hcalls
    obtain ⟨call, hmem, hne⟩ := hcalls
    obtain ⟨g, hg⟩ := List.mem_iff_getElem?.mp hmem
    cases hphase : call.phase with
    | called => exact ⟨_, _, .cas hg hphase, trivial⟩
    | won =>
      cases hglobal : p.global with
      | none => exact ⟨_, _, .getNothing hg hphase hglobal, trivial⟩
      | some c =>
        have hc := List.getElem?_eq_getElem (hp.global c hglobal)
        exact ⟨_, _, .get hg hphase hglobal hc .shutdown, trivial⟩
    | inClient k => exact progress_inside tokio hp hone hg hphase
    | returned => exact absurd hphase hne

/-! ### Record calls return -/

/-- What holds of a new client and is kept by its steps holds of all clients. -/
theorem forall_clients {P : Client F → Prop} {e : ProcessEvent F} (h : ProcessStep tokio p e p')
    (hnew : e = .build → ∀ makeHash mb ε aggregate n interval,
      P (buildInner makeHash mb ε aggregate n interval))
    (hkeep : ∀ {w w' : Client F} {e'}, ClientStep tokio w e' w' → P w → P w')
    (hp : ∀ w ∈ p.clients, P w) : ∀ w ∈ p'.clients, P w := by
  have hset : ∀ {c : ℕ} {w w' : Client F} {e'}, p.clients[c]? = some w → ClientStep tokio w e' w' →
      ∀ v ∈ (p.setClient c w').clients, P v := by
    intro c w w' e' hc hstep v hv
    rcases List.mem_or_eq_of_mem_set hv with hv | rfl
    · exact hp v hv
    · exact hkeep hstep (hp w (List.mem_of_getElem? hc))
  cases h with
  | build =>
    intro v hv
    rcases List.mem_append.mp hv with hv | hv
    · exact hp v hv
    · obtain rfl := List.mem_singleton.mp hv
      exact hnew rfl _ _ _ _ _ _
  | set hi => split_ifs <;> exact hp
  | work hc he h => exact hset hc h
  | record hg hc h => exact hset hc h
  | cas hg hphase => split_ifs <;> exact hp
  | get hg hphase hglobal hc h => exact hset hc h
  | client hg hphase hglobal hc he h => exact hset hc h
  | _ => exact hp

/-- Clients with valid settings have room. -/
theorem roomy_clients {e : ProcessEvent F} (h : ProcessStep tokio p e p')
    (hp : ∀ w ∈ p.clients, w.aggregator.Valid → w.aggregator.Roomy) :
    ∀ w ∈ p'.clients, w.aggregator.Valid → w.aggregator.Roomy := by
  refine forall_clients h (fun _ makeHash _ _ _ _ _ hvalid => ?_) (fun hstep hw hvalid => ?_) hp
  · exact StripedAggMap.roomy_new makeHash hvalid.1 hvalid.2 _
  · exact roomy_step hstep (hw ((valid_step hstep).mp hvalid))

/-- Without a new client the settings stay valid. -/
theorem valid_clients {e : ProcessEvent F} (h : ProcessStep tokio p e p') (he : e.Ending)
    (hp : ∀ w ∈ p.clients, w.aggregator.Valid) : ∀ w ∈ p'.clients, w.aggregator.Valid := by
  refine forall_clients h (fun hbuild => ?_) (fun hstep => (valid_step hstep).mpr) hp
  subst hbuild
  exact he.elim

theorem record_possible_global (tokio : Tokio) (hp : Underway p)
    (hroomy : ∀ w ∈ p.clients, w.aggregator.Roomy) (grow : Bool) (x : Series)
    (u : Update (BitVec 64) F) : ∃ p', ProcessStep tokio p (.record grow x u) p' := by
  cases hglobal : p.global with
  | none => exact ⟨p, .recordNothing hglobal⟩
  | some c =>
    have hlt := hp.global c hglobal
    obtain ⟨w', h⟩ := record_possible tokio (hroomy _ (List.getElem_mem hlt)) grow x u
    exact ⟨_, .record hglobal (List.getElem?_eq_getElem hlt) h⟩

/-- **No call hangs**: from any state the process can reach, with any number of
clients, the steps of the calls under way and of the workers are finitely many
without a further tick, one is possible until every call of `try_init`, of
`shutdown()` and of the handler has returned, and so they lead there. A record
call returns at any time. -/
theorem calls_return {es : List (ProcessEvent F)} (h : Run (ProcessStep tokio) .start es p)
    (hvalid : ∀ w ∈ p.clients, w.aggregator.Valid) :
    (∀ es' p', Run (Where (ProcessStep tokio) fun _ e => e.Ending) p es' p' →
      es'.length + p'.left ≤ p.left ∧
        (∀ grow x u, ∃ p'', ProcessStep tokio p' (.record grow x u) p'') ∧
        (p'.Idle ∨ ∃ e p'', ProcessStep tokio p' e p'' ∧ e.Ending)) ∧
    ∃ es' p', Run (Where (ProcessStep tokio) fun _ e => e.Ending) p es' p' ∧ p'.Idle := by
  let Kept (p : Process F) : Prop := Elected p ∧ Underway p
  have hkept : Kept p := by
    refine h.inv (I := fun _ p => Kept p) ⟨elected_start, underway_start⟩ ?_
    exact fun _ _ _ _ ht hstep => ⟨elected_step hstep ht.1, underway_step hstep ht.2⟩
  have hkeep : ∀ (s : Process F) a t, Kept s →
      Where (ProcessStep tokio) (fun _ e => e.Ending) s a t → Kept t :=
    fun s a t hs hstep => ⟨elected_step hstep.1 hs.1, underway_step hstep.1 hs.2⟩
  have hlower : ∀ (s : Process F) a (t : Process F), Kept s →
      Where (ProcessStep tokio) (fun _ e => e.Ending) s a t → t.left < s.left :=
    fun s a t _ hstep => lower_process hstep.1 hstep.2
  have hprogress : ∀ s : Process F, Kept s → ¬ s.Idle →
      ∃ e, ∃ t : Process F, Where (ProcessStep tokio) (fun _ e => e.Ending) s e t := fun s hs hidle =>
    progress_process tokio hs.2 hs.1.shutdowns_le_one hidle
  have hroomy : ∀ w ∈ p.clients, w.aggregator.Valid → w.aggregator.Roomy :=
    h.inv (I := fun _ p => ∀ w ∈ p.clients, w.aggregator.Valid → w.aggregator.Roomy) nofun
      fun _ _ _ _ ht hstep => roomy_clients hstep ht
  refine ⟨fun es' p' h' => ?_, ?_⟩
  · have hkept' : Kept p' := h'.inv (I := fun _ p => Kept p) hkept
      fun _ s a t hs hstep => hkeep s a t hs hstep
    obtain ⟨hroomy', hvalid'⟩ := h'.inv
      (I := fun _ p => (∀ w ∈ p.clients, w.aggregator.Valid → w.aggregator.Roomy) ∧
        ∀ w ∈ p.clients, w.aggregator.Valid) ⟨hroomy, hvalid⟩
      fun _ _ _ _ ht hstep => ⟨roomy_clients hstep.1 ht.1, valid_clients hstep.1 hstep.2 ht.2⟩
    refine ⟨h'.length_le hkept hkeep hlower, ?_, ?_⟩
    · exact record_possible_global tokio hkept'.2 fun w hw => hroomy' w hw (hvalid' w hw)
    · by_cases hidle : p'.Idle
      · exact .inl hidle
      · exact .inr (hprogress p' hkept' hidle)
  · obtain ⟨es', p', hrun, -, hidle⟩ := exists_run hkeep hlower hprogress hkept
    exact ⟨es', p', hrun, hidle⟩

end

/-- Two calls of `shutdown()` before the client is in `GLOBAL`. -/
theorem calls_return_two : ∃ p : Process F64, Run (ProcessStep .documented) .start
    [.shutdown, .build, .cas 0, .shutdown, .set 0] p ∧ ¬ p.Idle ∧
    ∃ es' p', Run (Where (ProcessStep .documented) fun _ e => e.Ending) p es' p' ∧ p'.Idle := by
  let w : Client F64 := oneExporter 10
  have hfirst : ProcessStep .documented .start .shutdown
      (⟨[], none, false, false, false, [], [⟨false, .called⟩], none⟩ : Process F64) := .shutdown
  have hbuild : ProcessStep .documented ⟨[], none, false, false, false, [], [⟨false, .called⟩], none⟩
      .build (⟨[w], none, false, false, false, [.built 0], [⟨false, .called⟩], none⟩ : Process F64) :=
    .build
  have hcas : ProcessStep .documented
      ⟨[w], none, false, false, false, [.built 0], [⟨false, .called⟩], none⟩ (.cas 0)
      (⟨[w], none, true, false, false, [.built 0], [⟨false, .won⟩], none⟩ : Process F64) :=
    cas_won ⟨false, .called⟩ rfl rfl rfl
  have hsecond : ProcessStep .documented
      ⟨[w], none, true, false, false, [.built 0], [⟨false, .won⟩], none⟩ .shutdown
      (⟨[w], none, true, false, false, [.built 0], [⟨false, .won⟩, ⟨false, .called⟩], none⟩ :
        Process F64) := .shutdown
  have hset : ProcessStep .documented
      ⟨[w], none, true, false, false, [.built 0], [⟨false, .won⟩, ⟨false, .called⟩], none⟩ (.set 0)
      (⟨[w], some 0, true, false, false, [.set], [⟨false, .won⟩, ⟨false, .called⟩], none⟩ :
        Process F64) :=
    @ProcessStep.set F64 _ _ .documented _ 0 0 rfl
  have hrun := ((((Run.nil.snoc hfirst).snoc hbuild).snoc hcas).snoc hsecond).snoc hset
  have hvalid : ∀ v ∈ [w], v.aggregator.Valid :=
    List.forall_mem_singleton.mpr ⟨by decide, by decide +kernel⟩
  refine ⟨_, hrun, fun hidle => ?_, (calls_return hrun hvalid).2⟩
  have hwon := hidle.1 _ List.mem_cons_self
  cases hwon

end ChalkMetrics
