/-
# The global client

`ProcessStep`: calls of `try_init`, record calls through the global client,
calls of `shutdown()` and of the handler `try_init` registers with `atexit`,
in any interleaving with the workers of all clients built. `GLOBAL` is set once;
the first `shutdown()` to find `SHUTDOWN_CALLED` unset goes on to the client,
if there is one, and every other returns at once.

What was counted before the first `shutdown()` after a successful `try_init`
is exported when such a call returns (`shutdown_exports`), if no call takes the
flag in vain, and such a call loses it only when the one that took it has
returned. A call before `try_init` takes the flag for nothing (`early_shutdown_loses`).

Key definitions: `Process`, `ProcessStep`, `Orderly`.
-/
import ChalkMetrics.Client.Shutdown

namespace ChalkMetrics

open Runs

/-- A call of `try_init`, behind `build_inner`. -/
inductive InitPhase where
  | built (client : ℕ)
  | set
  | registered
  | returned (ok : Bool)

inductive GlobalPhase where
  | called
  | won
  | inClient (call : ℕ)
  | returned

/-- The call took the flag and has not returned. -/
def GlobalPhase.active : GlobalPhase → Bool
  | won => true
  | inClient _ => true
  | _ => false

/-- A call of `shutdown()`, and whether a `try_init` had succeeded when it began. -/
structure GlobalCall where
  afterInit : Bool
  phase : GlobalPhase

/-- `owed` is how much was recorded before the first call after a successful `try_init`. -/
structure Process (F : Type) [FloatOps F] where
  clients : List (Client F)
  global : Option ℕ
  shutdownCalled : Bool
  atexit : Bool
  initialised : Bool
  inits : List InitPhase
  calls : List GlobalCall
  owed : Option ℕ

inductive ProcessEvent (F : Type) where
  | build
  | set (init : ℕ)
  | atexit (init : ℕ)
  | ok (init : ℕ)
  | work (client : ℕ) (e : ClientEvent F)
  | record (grow : Bool) (x : Series) (u : Update (BitVec 64) F)
  | shutdown
  | exit
  | cas (call : ℕ)
  | get (call : ℕ)
  | client (call : ℕ) (e : ClientEvent F)
  | finish (call : ℕ)

section

variable {F : Type}

/-- The steps of shutdown call `k` of a client, once it is called. -/
def ClientEvent.OfCallNo (k : ℕ) : ClientEvent F → Prop
  | .notify c => c = k
  | .lock c => c = k
  | .take c => c = k
  | .join c => c = k
  | _ => False

variable [FloatOps F]

namespace Process

def start : Process F := ⟨[], none, false, false, false, [], [], none⟩

/-- `GLOBAL.get()`. -/
def client (p : Process F) : Option (Client F) := p.global.bind fun c => p.clients[c]?

/-- A call of `shutdown()` begins. -/
def callShutdown (p : Process F) : Process F :=
  { p with
    calls := p.calls ++ [⟨p.initialised, .called⟩]
    owed := if p.initialised then
        some (p.owed.getD (p.client.elim 0 fun w => w.recorded.length))
      else p.owed }

def setClient (p : Process F) (c : ℕ) (w : Client F) : Process F :=
  { p with clients := p.clients.set c w }

def setCall (p : Process F) (g : ℕ) (call : GlobalCall) (phase : GlobalPhase) : Process F :=
  { p with calls := p.calls.set g { call with phase } }

end Process

variable [FloatBits F]

inductive ProcessStep (tokio : Tokio) : Process F → ProcessEvent F → Process F → Prop
  | build {p : Process F} {makeHash mb ε aggregate n interval} :
      ProcessStep tokio p .build
        { p with
          clients := p.clients ++ [buildInner makeHash mb ε aggregate n interval]
          inits := p.inits ++ [.built p.clients.length] }
  | set {p : Process F} {i c} (hi : p.inits[i]? = some (.built c)) :
      ProcessStep tokio p (.set i)
        (if p.global.isNone then { p with global := some c, inits := p.inits.set i .set }
          else { p with inits := p.inits.set i (.returned false) })
  | atexit {p : Process F} {i} (hi : p.inits[i]? = some .set) :
      ProcessStep tokio p (.atexit i) { p with atexit := true, inits := p.inits.set i .registered }
  | ok {p : Process F} {i} (hi : p.inits[i]? = some .registered) :
      ProcessStep tokio p (.ok i)
        { p with initialised := true, inits := p.inits.set i (.returned true) }
  | work {p : Process F} {c w w' e} (hc : p.clients[c]? = some w) (he : e.OfWorker)
      (h : ClientStep tokio w e w') : ProcessStep tokio p (.work c e) (p.setClient c w')
  | record {p : Process F} {c w w' grow x u} (hg : p.global = some c) (hc : p.clients[c]? = some w)
      (h : ClientStep tokio w (.record grow x u) w') :
      ProcessStep tokio p (.record grow x u) (p.setClient c w')
  | recordNothing {p : Process F} {grow x u} (hg : p.global = none) :
      ProcessStep tokio p (.record grow x u) p
  | shutdown {p : Process F} : ProcessStep tokio p .shutdown p.callShutdown
  | exit {p : Process F} (ha : p.atexit = true) : ProcessStep tokio p .exit p.callShutdown
  | cas {p : Process F} {g call} (hg : p.calls[g]? = some call) (hp : call.phase = .called) :
      ProcessStep tokio p (.cas g)
        (if p.shutdownCalled then p.setCall g call .returned
          else { p.setCall g call .won with shutdownCalled := true })
  | getNothing {p : Process F} {g call} (hg : p.calls[g]? = some call) (hp : call.phase = .won)
      (hglobal : p.global = none) : ProcessStep tokio p (.get g) (p.setCall g call .returned)
  | get {p : Process F} {g call c w w'} (hg : p.calls[g]? = some call) (hp : call.phase = .won)
      (hglobal : p.global = some c) (hc : p.clients[c]? = some w)
      (h : ClientStep tokio w .shutdown w') :
      ProcessStep tokio p (.get g) ((p.setClient c w').setCall g call (.inClient w.calls.length))
  | client {p : Process F} {g call k c w w' e} (hg : p.calls[g]? = some call)
      (hp : call.phase = .inClient k) (hglobal : p.global = some c) (hc : p.clients[c]? = some w)
      (he : e.OfCallNo k) (h : ClientStep tokio w e w') :
      ProcessStep tokio p (.client g e) (p.setClient c w')
  | finish {p : Process F} {g call k w} (hg : p.calls[g]? = some call)
      (hp : call.phase = .inClient k) (hw : p.client = some w) (hk : w.calls[k]? = some .returned) :
      ProcessStep tokio p (.finish g) (p.setCall g call .returned)

/-! ### The condition -/

/-- The condition on a step: the thread of the client in `GLOBAL` gets into its
loop and no exporter of it panics, and
* when `GLOBAL` gets its client, a call that took `SHUTDOWN_CALLED` has yet to look for it;
* a call that began after a successful `try_init` finds `SHUTDOWN_CALLED` taken
  only when no call that took it is under way;
* no count is recorded after such a call has called the client and before the
  first that began after a successful `try_init`. -/
def Orderly (p : Process F) : ProcessEvent F → Prop
  | .set i => ∀ c, p.inits[i]? = some (.built c) → p.global = none →
    (∀ w ∈ p.clients[c]?, Alive w) ∧
      (p.shutdownCalled = true → ∃ call ∈ p.calls, call.phase = .won)
  | .work c e => p.global = some c → ∀ w ∈ p.clients[c]?, Starts w e
  | .record _ _ u => p.owed = none → u.kind = .count → ∀ w ∈ p.client, w.calls = []
  | .cas g => p.shutdownCalled = true → ∀ call ∈ p.calls[g]?, call.afterInit = true →
    ∀ other ∈ p.calls, other.phase.active = false
  | _ => True

/-- What was recorded before the first call after a successful `try_init` is exported. -/
def Exported (p : Process F) : Prop :=
  ∃ w n, p.client = some w ∧ p.owed = some n ∧
    ∀ i < n, ∀ x delta, w.recorded[i]? = some (x, .count delta) →
      ∀ j < w.exporters, Once i (w.received j)

/-! ### The invariant -/

/-- The counts among the first `n` calls came before the first shutdown call. -/
def Client.Covers (w : Client F) (n : ℕ) : Prop :=
  ∀ m ∈ w.owed, ∀ i < n, m ≤ i → ∀ x delta, w.recorded[i]? ≠ some (x, .count delta)

structure Sane (p : Process F) : Prop where
  intact : ∀ w ∈ p.clients, Intact w
  global : ∀ c ∈ p.global, ∃ w, p.clients[c]? = some w ∧ Alive w
  unowed : p.global = none → ∀ w ∈ p.clients, w.owed = none
  built : ∀ c, .built c ∈ p.inits → c < p.clients.length
  set : .set ∈ p.inits ∨ .registered ∈ p.inits ∨ p.initialised = true → p.global ≠ none
  initialised : p.owed ≠ none → p.initialised = true
  afterInit : ∀ call ∈ p.calls, call.afterInit = true → p.owed ≠ none
  owed : ∀ n ∈ p.owed, ∀ w ∈ p.client, n ≤ w.recorded.length
  begun : ∀ w ∈ p.clients, w.calls = [] → w.owed = none
  covers : ∀ w ∈ p.client, w.Covers (p.owed.getD w.recorded.length)
  taken : p.global ≠ none → p.shutdownCalled = true →
    (∃ call ∈ p.calls, call.phase.active = true) ∨ ∀ w ∈ p.client, w.worker.Finished
  returned : ∀ call ∈ p.calls, call.afterInit = true → call.phase = .returned →
    ∀ w ∈ p.client, w.worker.Finished

omit [FloatBits F] in
theorem client_eq_some {p : Process F} {w : Client F} :
    p.client = some w ↔ ∃ c, p.global = some c ∧ p.clients[c]? = some w :=
  Option.bind_eq_some_iff

omit [FloatBits F] in
theorem mem_clients {p : Process F} {w : Client F} (h : p.client = some w) : w ∈ p.clients := by
  obtain ⟨c, -, hc⟩ := client_eq_some.mp h
  exact List.mem_of_getElem? hc

omit [FloatBits F] in
/-- What `GLOBAL` holds once a client has taken a step. -/
theorem client_setClient {p : Process F} {c : ℕ} {w' v : Client F}
    (h : (p.setClient c w').client = some v) : (p.global = some c ∧ v = w') ∨ p.client = some v := by
  obtain ⟨c', hglobal, hv⟩ := client_eq_some.mp h
  by_cases heq : c' = c
  · subst heq
    have hlt : c' < p.clients.length :=
      List.length_set.symm ▸ (List.getElem?_eq_some_iff.mp hv).1
    exact .inl ⟨hglobal, Option.some.inj (hv.symm.trans (List.getElem?_set_self hlt))⟩
  · refine .inr (client_eq_some.mpr ⟨c', hglobal, ?_⟩)
    exact (List.getElem?_set_ne (Ne.symm heq)).symm.trans hv

theorem owed_step {tokio : Tokio} {w w' : Client F} {e : ClientEvent F}
    (h : ClientStep tokio w e w') (he : e ≠ .shutdown) : w'.owed = w.owed := by
  have hsame : ¬ e.OfCall → w'.owed = w.owed := fun hn => (callsSame_step h hn).1.owed
  cases h with
  | shutdown => exact absurd rfl he
  | notify hc => rfl
  | lock hc hg => rfl
  | take hc => split_ifs <;> rfl
  | join hc hw => rfl
  | _ => exact hsame nofun

theorem begun_step {tokio : Tokio} {w w' : Client F} {e : ClientEvent F}
    (h : ClientStep tokio w e w') (hw : w.calls = [] → w.owed = none) :
    w'.calls = [] → w'.owed = none := by
  have hsame : ¬ e.OfCall → w'.calls = [] → w'.owed = none := by
    intro he
    have hs := (callsSame_step h he).1
    rw [hs.calls, hs.owed]
    exact hw
  cases h with
  | shutdown => exact fun hnil => absurd hnil (by simp)
  | notify hc => exact fun hnil => hw (by simpa using hnil)
  | lock hc hg => exact fun hnil => hw (by simpa using hnil)
  | take hc => split_ifs <;> exact fun hnil => hw (by simpa using hnil)
  | join hc hphase => exact fun hnil => hw (by simpa using hnil)
  | _ => exact hsame nofun

/-- What is recorded anew is what the call records. -/
theorem recorded_new {tokio : Tokio} {w w' : Client F} {e : ClientEvent F} {i : ℕ} {x : Series}
    {u : Update (BitVec 64) F} (h : ClientStep tokio w e w') (hi : w.recorded.length ≤ i)
    (hx : w'.recorded[i]? = some (x, u)) : ∃ grow, e = .record grow x u := by
  have hnone : w.recorded[i]? = none := List.getElem?_eq_none hi
  have hquiet : e.Quiet → ∃ grow, e = .record grow x u := fun hq => by
    rw [(still_step h hq).recorded, hnone] at hx
    cases hx
  cases h with
  | @record grow x' u' _ h =>
    rw [getElem?_recorded] at hx
    split_ifs at hx
    · obtain ⟨rfl, rfl⟩ := Prod.mk.inj (Option.some.inj hx)
      exact ⟨grow, rfl⟩
    · rw [hnone] at hx
      cases hx
  | stripe hw hn h =>
    rw [hnone] at hx
    cases hx
  | _ => exact hquiet trivial

theorem Client.Covers.step {tokio : Tokio} {w w' : Client F} {e : ClientEvent F} {owed : Option ℕ}
    (h : ClientStep tokio w e w') (he : e ≠ .shutdown) (hbegun : w.calls = [] → w.owed = none)
    (hcount : owed = none → ∀ grow x delta, e = .record grow x (.count delta) → w.calls = [])
    (hle : ∀ n ∈ owed, n ≤ w.recorded.length) (hw : w.Covers (owed.getD w.recorded.length)) :
    w'.Covers (owed.getD w'.recorded.length) := by
  intro m hm i hi hmi x delta hx
  rw [owed_step h he] at hm
  by_cases hlt : i < w.recorded.length
  · -- the call was there before the step
    have hold : i < owed.getD w.recorded.length := by
      cases owed with
      | none => exact hlt
      | some n => exact hi
    have hsame : w'.recorded[i]? = w.recorded[i]? := by
      obtain ⟨new, hnew⟩ := recorded_step h
      rw [← hnew, List.getElem?_append_left hlt]
    exact hw m hm i hold hmi x delta (hsame ▸ hx)
  · have hnone : owed = none := by
      by_contra hsome
      obtain ⟨n, rfl⟩ := Option.ne_none_iff_exists'.mp hsome
      exact hlt (Nat.lt_of_lt_of_le hi (hle n rfl))
    obtain ⟨grow, rfl⟩ := recorded_new h (Nat.le_of_not_lt hlt) hx
    rw [hbegun (hcount hnone grow x delta rfl)] at hm
    cases hm

namespace Sane

variable {tokio : Tokio} {p : Process F}

/-- A client takes a step. -/
theorem setClient {c : ℕ} {w w' : Client F} {e : ClientEvent F} (hp : Sane p)
    (hc : p.clients[c]? = some w) (h : ClientStep tokio w e w')
    (hs : p.global = some c → Starts w e) (hnone : p.global = none → w'.owed = w.owed)
    (hcovers : p.global = some c → w'.Covers (p.owed.getD w'.recorded.length)) :
    Sane (p.setClient c w') where
  intact v hv := by
    rcases List.mem_or_eq_of_mem_set hv with hv | rfl
    · exact hp.intact v hv
    · exact intact_step h (hp.intact w (List.mem_of_getElem? hc))
  global c' hc' := by
    obtain ⟨v, hv, halive⟩ := hp.global c' hc'
    by_cases heq : c' = c
    · subst heq
      obtain rfl := Option.some.inj (hv.symm.trans hc)
      refine ⟨w', List.getElem?_set_self (List.getElem?_eq_some_iff.mp hc).1, ?_⟩
      exact alive_step h (hs hc') halive
    · exact ⟨v, (List.getElem?_set_ne (Ne.symm heq)).trans hv, halive⟩
  unowed hg v hv := by
    rcases List.mem_or_eq_of_mem_set hv with hv | rfl
    · exact hp.unowed hg v hv
    · exact (hnone hg).trans (hp.unowed hg w (List.mem_of_getElem? hc))
  built c' hc' := by
    rw [Process.setClient, List.length_set]
    exact hp.built c' hc'
  set := hp.set
  initialised := hp.initialised
  afterInit := hp.afterInit
  owed n hn v hv := by
    rcases client_setClient hv with ⟨hg, rfl⟩ | hv
    · have hle := hp.owed n hn w (client_eq_some.mpr ⟨c, hg, hc⟩)
      exact hle.trans (recorded_step h).length_le
    · exact hp.owed n hn v hv
  begun v hv := by
    rcases List.mem_or_eq_of_mem_set hv with hv | rfl
    · exact hp.begun v hv
    · exact begun_step h (hp.begun w (List.mem_of_getElem? hc))
  covers v hv := by
    rcases client_setClient hv with ⟨hg, rfl⟩ | hv
    · exact hcovers hg
    · exact hp.covers v hv
  taken hg hflag := by
    refine (hp.taken hg hflag).imp_right fun hfin v hv => ?_
    rcases client_setClient hv with ⟨hc', rfl⟩ | hv
    · exact finished_step h (hfin w (client_eq_some.mpr ⟨c, hc', hc⟩))
    · exact hfin v hv
  returned call hcall hafter hret v hv := by
    rcases client_setClient hv with ⟨hg, rfl⟩ | hv
    · exact finished_step h (hp.returned call hcall hafter hret w (client_eq_some.mpr ⟨c, hg, hc⟩))
    · exact hp.returned call hcall hafter hret v hv

/-- A step that begins no shutdown call, and counts nothing if one has begun. -/
theorem setClient_keeps {c : ℕ} {w w' : Client F} {e : ClientEvent F} (hp : Sane p)
    (hc : p.clients[c]? = some w) (h : ClientStep tokio w e w') (he : e ≠ .shutdown)
    (hs : p.global = some c → Starts w e)
    (hcount : p.global = some c → p.owed = none →
      ∀ grow x delta, e = .record grow x (.count delta) → w.calls = []) :
    Sane (p.setClient c w') := by
  refine hp.setClient hc h hs (fun _ => owed_step h he) fun hg => ?_
  have hw : p.client = some w := client_eq_some.mpr ⟨c, hg, hc⟩
  exact (hp.covers w hw).step h he (hp.begun w (List.mem_of_getElem? hc)) (hcount hg)
    fun n hn => hp.owed n hn w hw

/-- A call of `shutdown()` goes on. -/
theorem setCall {g : ℕ} {call : GlobalCall} {phase : GlobalPhase} (hp : Sane p)
    (hg : p.calls[g]? = some call)
    (hactive : p.global ≠ none → p.shutdownCalled = true → call.phase.active = true →
      phase.active = true ∨ ∀ w ∈ p.client, w.worker.Finished)
    (hret : phase = .returned → call.afterInit = true → ∀ w ∈ p.client, w.worker.Finished) :
    Sane (p.setCall g call phase) where
  intact := hp.intact
  global := hp.global
  unowed := hp.unowed
  built := hp.built
  set := hp.set
  initialised := hp.initialised
  afterInit c hc hafter := by
    rcases List.mem_or_eq_of_mem_set hc with hc | rfl
    · exact hp.afterInit c hc hafter
    · exact hp.afterInit call (List.mem_of_getElem? hg) hafter
  owed := hp.owed
  begun := hp.begun
  covers := hp.covers
  taken hglobal hflag := by
    refine (hp.taken hglobal hflag).elim (fun ⟨other, hother, hact⟩ => ?_) .inr
    obtain ⟨g', hg'⟩ := List.mem_iff_getElem?.mp hother
    by_cases heq : g' = g
    · obtain rfl := Option.some.inj ((heq ▸ hg').symm.trans hg)
      have hmem : { other with phase } ∈ p.calls.set g { other with phase } :=
        List.mem_set (List.getElem?_eq_some_iff.mp hg).1 _
      exact (hactive hglobal hflag hact).imp_left fun h => ⟨_, hmem, h⟩
    · exact .inl ⟨other,
        List.mem_of_getElem? ((List.getElem?_set_ne (Ne.symm heq)).trans hg'), hact⟩
  returned c hc hafter hphase := by
    rcases List.mem_or_eq_of_mem_set hc with hc | rfl
    · exact hp.returned c hc hafter hphase
    · exact hret hphase hafter

/-- A call of `shutdown()` begins. -/
theorem callShutdown (hp : Sane p) : Sane p.callShutdown where
  intact := hp.intact
  global := hp.global
  unowed := hp.unowed
  built := hp.built
  set := hp.set
  initialised h := by
    rw [Process.callShutdown] at h
    split_ifs at h with hinit
    · exact hinit
    · exact hp.initialised h
  afterInit call hcall hafter := by
    rw [Process.callShutdown]
    split_ifs with hinit
    · exact Option.some_ne_none _
    · rcases List.mem_append.mp hcall with hcall | hcall
      · exact hp.afterInit call hcall hafter
      · obtain rfl := List.mem_singleton.mp hcall
        exact absurd hafter hinit
  owed n hn w hw := by
    rw [Process.callShutdown] at hn
    split_ifs at hn
    · obtain rfl := Option.some.inj hn
      rcases howed : p.owed with _ | n
      · have hclient : p.client = some w := hw
        rw [hclient]
        exact Nat.le_refl _
      · exact hp.owed n howed w hw
    · exact hp.owed n hn w hw
  begun := hp.begun
  covers w hw := by
    have hclient : p.client = some w := hw
    have hsame : p.callShutdown.owed.getD w.recorded.length = p.owed.getD w.recorded.length := by
      rw [Process.callShutdown, hclient]
      split_ifs <;> rfl
    rw [hsame]
    exact hp.covers w hw
  taken hg hflag := by
    refine (hp.taken hg hflag).imp_left fun ⟨call, hcall, hact⟩ => ⟨call, ?_, hact⟩
    exact List.mem_append_left _ hcall
  returned call hcall hafter hphase := by
    rcases List.mem_append.mp hcall with hcall | hcall
    · exact hp.returned call hcall hafter hphase
    · obtain rfl := List.mem_singleton.mp hcall
      cases hphase

/-- `build_inner` puts a new client beside the others. -/
theorem build {makeHash : Fin 64 → UInt64 → UInt64} {mb : ℕ} {ε : F} {aggregate : Bool}
    {n interval : ℕ} (hp : Sane p) :
    Sane { p with
      clients := p.clients ++ [buildInner makeHash mb ε aggregate n interval]
      inits := p.inits ++ [.built p.clients.length] } := by
  have hold : ∀ {c w}, p.clients[c]? = some w →
      (p.clients ++ [buildInner makeHash mb ε aggregate n interval])[c]? = some w := fun hc =>
    (List.getElem?_append_left (List.getElem?_eq_some_iff.mp hc).1).trans hc
  -- the client in `GLOBAL` is an old one
  have hclient : Process.client { p with
      clients := p.clients ++ [buildInner makeHash mb ε aggregate n interval]
      inits := p.inits ++ [.built p.clients.length] } = p.client := by
    rcases hg : p.global with _ | c
    · rw [Process.client, Process.client, hg]
      rfl
    · obtain ⟨w, hw, -⟩ := hp.global c hg
      rw [Process.client, Process.client, hg]
      exact (hold hw).trans hw.symm
  refine ⟨fun w hw => ?_, fun c hc => ?_, fun hg w hw => ?_, fun c hc => ?_, fun h => hp.set ?_,
    hp.initialised, hp.afterInit, ?_, fun w hw => ?_, ?_, ?_, ?_⟩
  · rcases List.mem_append.mp hw with hw | hw
    · exact hp.intact w hw
    · obtain rfl := List.mem_singleton.mp hw
      exact intact_build makeHash mb ε aggregate n interval
  · obtain ⟨w, hw, halive⟩ := hp.global c hc
    exact ⟨w, hold hw, halive⟩
  · rcases List.mem_append.mp hw with hw | hw
    · exact hp.unowed hg w hw
    · obtain rfl := List.mem_singleton.mp hw
      rfl
  · rw [List.length_append, List.length_singleton]
    rcases List.mem_append.mp hc with hc | hc
    · exact Nat.lt_succ_of_lt (hp.built c hc)
    · cases List.mem_singleton.mp hc
      exact Nat.lt_succ_self _
  · rcases h with h | h | h
    · exact .inl ((List.mem_append.mp h).resolve_right (by simp))
    · exact .inr (.inl ((List.mem_append.mp h).resolve_right (by simp)))
    · exact .inr (.inr h)
  · rw [hclient]
    exact hp.owed
  · rcases List.mem_append.mp hw with hw | hw
    · exact hp.begun w hw
    · obtain rfl := List.mem_singleton.mp hw
      exact fun _ => rfl
  · rw [hclient]
    exact hp.covers
  · rw [hclient]
    exact hp.taken
  · rw [hclient]
    exact hp.returned

/-- A call of `try_init` that has set `GLOBAL`, or found it set, goes on. -/
theorem setInit {i : ℕ} {phase : InitPhase} {atexit initialised : Bool} (hp : Sane p)
    (hphase : ∀ c, phase ≠ .built c) (hglobal : p.global ≠ none)
    (hinit : p.initialised = true → initialised = true) :
    Sane { p with atexit, initialised, inits := p.inits.set i phase } where
  intact := hp.intact
  global := hp.global
  unowed := hp.unowed
  built c hc := hp.built c ((List.mem_or_eq_of_mem_set hc).resolve_right (hphase c).symm)
  set _ := hglobal
  initialised h := hinit (hp.initialised h)
  afterInit := hp.afterInit
  owed := hp.owed
  begun := hp.begun
  covers := hp.covers
  taken _ := hp.taken hglobal
  returned := hp.returned

/-- `GLOBAL` gets its client. -/
theorem setGlobal {i c : ℕ} (hp : Sane p) (hi : p.inits[i]? = some (.built c))
    (hnone : p.global = none) (halive : ∀ w ∈ p.clients[c]?, Alive w)
    (hflag : p.shutdownCalled = true → ∃ call ∈ p.calls, call.phase = .won) :
    Sane { p with global := some c, inits := p.inits.set i .set } := by
  have howed : p.owed = none := by
    by_contra h
    exact hp.set (.inr (.inr (hp.initialised h))) hnone
  have hlt := hp.built c (List.mem_of_getElem? hi)
  refine ⟨hp.intact, fun c' hc' => ?_, nofun, fun c' hc' => ?_, fun _ => nofun, hp.initialised,
    hp.afterInit, fun n hn => ?_, hp.begun, fun w hw m hm => ?_, fun _ htaken => .inl ?_,
    fun call hcall hafter _ => ?_⟩
  · obtain rfl := Option.some.inj hc'
    have hget := List.getElem?_eq_getElem hlt
    exact ⟨_, hget, halive _ hget⟩
  · exact hp.built c' ((List.mem_or_eq_of_mem_set hc').resolve_right nofun)
  · rw [howed] at hn
    cases hn
  · obtain ⟨c', -, hc'⟩ := client_eq_some.mp hw
    rw [hp.unowed hnone w (List.mem_of_getElem? hc')] at hm
    cases hm
  · obtain ⟨call, hcall, hwon⟩ := hflag htaken
    exact ⟨call, hcall, by rw [hwon]; rfl⟩
  · exact absurd howed (hp.afterInit call hcall hafter)

end Sane

omit [FloatBits F] in
theorem starts_of_call {w : Client F} {e : ClientEvent F} {k : ℕ} (he : e.OfCallNo k) :
    Starts w e ∧ e ≠ .shutdown := by
  cases e with
  | notify c => exact ⟨trivial, nofun⟩
  | lock c => exact ⟨trivial, nofun⟩
  | take c => exact ⟨trivial, nofun⟩
  | join c => exact ⟨trivial, nofun⟩
  | _ => exact he.elim

theorem sane_start : Sane (Process.start : Process F) where
  intact _ h := nomatch h
  global _ h := nomatch h
  unowed _ _ h := nomatch h
  built _ h := nomatch h
  set h := by
    rcases h with h | h | h <;> cases h
  initialised h := absurd rfl h
  afterInit _ h := nomatch h
  owed _ h := nomatch h
  begun _ h := nomatch h
  covers _ h := nomatch h
  taken h := absurd rfl h
  returned _ h := nomatch h

theorem sane_step {tokio : Tokio} {p p' : Process F} {e : ProcessEvent F}
    (h : ProcessStep tokio p e p') (ho : Orderly p e) (hp : Sane p) : Sane p' := by
  cases h with
  | build => exact hp.build
  | @set i c hi =>
    split_ifs with hg
    · have hnone := Option.isNone_iff_eq_none.mp hg
      obtain ⟨halive, hflag⟩ := ho c hi hnone
      exact hp.setGlobal hi hnone halive hflag
    · exact hp.setInit nofun (fun hnone => hg (hnone ▸ rfl)) id
  | atexit hi => exact hp.setInit nofun (hp.set (.inl (List.mem_of_getElem? hi))) id
  | ok hi =>
    exact hp.setInit nofun (hp.set (.inr (.inl (List.mem_of_getElem? hi)))) fun _ => rfl
  | @work c w w' e hc he h =>
    refine hp.setClient_keeps hc h ?_ (fun hg => ho hg w hc) fun _ _ _ _ _ heq => ?_
    · rintro rfl
      exact he trivial
    · subst heq
      exact he.elim
  | @record c w w' grow x u hg hc h =>
    refine hp.setClient_keeps hc h nofun (fun _ => trivial) fun _ hnone grow' x' delta heq => ?_
    obtain ⟨rfl, rfl, rfl⟩ := ClientEvent.record.inj heq
    exact ho hnone rfl w (client_eq_some.mpr ⟨c, hg, hc⟩)
  | recordNothing hg => exact hp
  | shutdown => exact hp.callShutdown
  | exit ha => exact hp.callShutdown
  | @cas g call hg hphase =>
    have hcalled : call.phase.active ≠ true := by
      rw [hphase]
      exact Bool.false_ne_true
    split_ifs with hflag
    · refine hp.setCall hg (fun _ _ hact => absurd hact hcalled) fun _ hafter => ?_
      have hinit := hp.initialised (hp.afterInit call (List.mem_of_getElem? hg) hafter)
      refine (hp.taken (hp.set (.inr (.inr hinit))) hflag).resolve_left ?_
      rintro ⟨other, hother, hact⟩
      rw [ho hflag call hg hafter other hother] at hact
      cases hact
    · have hwon : Sane (p.setCall g call .won) := hp.setCall hg (fun _ _ _ => .inl rfl) nofun
      have hmem : { call with phase := .won } ∈ p.calls.set g { call with phase := .won } :=
        List.mem_set (List.getElem?_eq_some_iff.mp hg).1 _
      exact { hwon with taken := fun _ _ => .inl ⟨_, hmem, rfl⟩ }
  | @getNothing g call hg hphase hglobal =>
    refine hp.setCall hg (fun h => absurd hglobal h) fun _ hafter => ?_
    have hinit := hp.initialised (hp.afterInit call (List.mem_of_getElem? hg) hafter)
    exact absurd hglobal (hp.set (.inr (.inr hinit)))
  | @get g call c w w' hg hphase hglobal hc h =>
    have hw : p.client = some w := client_eq_some.mpr ⟨c, hglobal, hc⟩
    have hbegun : Sane (p.setClient c w') := by
      refine hp.setClient hc h (fun _ => trivial) (fun hnone => ?_) fun _ => ?_
      · rw [hnone] at hglobal
        cases hglobal
      · cases h
        intro m hm i hi hmi
        obtain rfl := Option.some.inj hm
        rcases howed : w.owed with _ | m
        · -- the first call of the client: all that was recorded is before it
          rw [howed] at hmi
          rintro x delta hx
          exact absurd (List.getElem?_eq_some_iff.mp hx).1 (Nat.not_lt_of_le hmi)
        · rw [howed] at hmi
          exact hp.covers w hw m howed i hi hmi
    exact hbegun.setCall hg (fun _ _ _ => .inl rfl) nofun
  | @client g call k c w w' e hg hphase hglobal hc he h =>
    obtain ⟨hs, hne⟩ := starts_of_call (w := w) he
    refine hp.setClient_keeps hc h hne (fun _ => hs) fun _ _ _ _ _ heq => ?_
    subst heq
    exact he.elim
  | @finish g call k w hg hphase hw hk =>
    have hfin : ∀ v ∈ p.client, v.worker.Finished := by
      intro v hv
      obtain rfl := Option.some.inj (hw.symm.trans hv)
      exact (hp.intact w (mem_clients hw)).locked.returned (List.mem_of_getElem? hk)
    exact hp.setCall hg (fun _ _ _ => .inr hfin) fun _ _ => hfin

/-- **A call of `shutdown()` that began after a successful `try_init` has
exported** what was recorded before the first such call, in every orderly run. -/
theorem shutdown_exports {tokio : Tokio} {es : List (ProcessEvent F)} {p : Process F}
    (h : Run (Where (ProcessStep tokio) Orderly) Process.start es p)
    (hkeys : ∀ w ∈ p.client, CountKeys w.recorded) {call : GlobalCall} (hcall : call ∈ p.calls)
    (hafter : call.afterInit = true) (hret : call.phase = .returned) : Exported p := by
  have hp : Sane p := h.inv (I := fun _ p => Sane p) sane_start
    fun _ _ _ _ hp hstep => sane_step hstep.1 hstep.2 hp
  obtain ⟨n, hn⟩ := Option.ne_none_iff_exists'.mp (hp.afterInit call hcall hafter)
  have hinit := hp.initialised (hp.afterInit call hcall hafter)
  obtain ⟨c, hc⟩ := Option.ne_none_iff_exists'.mp (hp.set (.inr (.inr hinit)))
  obtain ⟨w, hw, halive⟩ := hp.global c hc
  have hclient : p.client = some w := client_eq_some.mpr ⟨c, hc, hw⟩
  have hintact := hp.intact w (mem_clients hclient)
  have hfin := hp.returned call hcall hafter hret w hclient
  refine ⟨w, n, hclient, hn, fun i hi x delta hx j hj => ?_⟩
  -- someone is exported to, so the thread came to its end by the final flush
  have hdone : w.worker = .done := by
    refine (finished_cases hfin).resolve_right fun hpanicked => ?_
    rw [halive hpanicked] at hj
    exact Nat.not_lt_zero _ hj
  obtain ⟨m, hm⟩ : ∃ m, w.owed = some m := by
    refine Option.ne_none_iff_exists'.mp fun hnone => ?_
    have hfinal := ((hintact.books (hkeys w hclient)).2.before hnone).2.2
    rw [hdone] at hfinal
    cases hfinal
  have him : i < m := by
    by_contra hle
    refine hp.covers w hclient m hm i ?_ (Nat.le_of_not_lt hle) x delta hx
    rwa [hn]
  exact (delivered_of_finished hintact halive (hkeys w hclient) hfin).once m hm i him x delta hx j hj

theorem cas_won {tokio : Tokio} {p : Process F} {g : ℕ} (call : GlobalCall)
    (hg : p.calls[g]? = some call) (hp : call.phase = .called) (hflag : p.shutdownCalled = false) :
    ProcessStep tokio p (.cas g) { p.setCall g call .won with shutdownCalled := true } := by
  have h : ProcessStep tokio p (.cas g) _ := .cas hg hp
  rwa [if_neg (by rw [hflag]; exact Bool.false_ne_true)] at h

theorem cas_lost {tokio : Tokio} {p : Process F} {g : ℕ} (call : GlobalCall)
    (hg : p.calls[g]? = some call) (hp : call.phase = .called) (hflag : p.shutdownCalled = true) :
    ProcessStep tokio p (.cas g) (p.setCall g call .returned) := by
  have h : ProcessStep tokio p (.cas g) _ := .cas hg hp
  rwa [if_pos hflag] at h

/-- What the worker does, it does in the process. -/
theorem process_works {tokio : Tokio} {p : Process F} {c : ℕ} {w w' : Client F}
    (hc : p.clients[c]? = some w) (h : Works tokio w w') :
    ∃ es, Run (Where (ProcessStep tokio) Orderly) p es (p.setClient c w') := by
  obtain ⟨es, he, h⟩ := h
  induction h with
  | nil =>
    obtain ⟨hlt, rfl⟩ := List.getElem?_eq_some_iff.mp hc
    have hsame : p.setClient c p.clients[c] = p := by
      rw [Process.setClient, List.set_getElem_self]
    exact ⟨[], hsame.symm ▸ .nil⟩
  | @snoc es v e w' h hs ih =>
    obtain ⟨es', hrun⟩ := ih fun e hmem => he e (List.mem_append_left _ hmem)
    have hget : (p.setClient c v).clients[c]? = some v :=
      List.getElem?_set_self (List.getElem?_eq_some_iff.mp hc).1
    have hstep : ProcessStep tokio (p.setClient c v) (.work c e) _ :=
      .work hget (he e (List.mem_append_right _ List.mem_cons_self)) hs.1
    have hset : (p.setClient c v).setClient c w' = p.setClient c w' := by
      rw [Process.setClient, Process.setClient, List.set_set]
      rfl
    have horderly : Orderly (p.setClient c v) (.work c e) := by
      intro _ u hu
      obtain rfl := Option.some.inj (hget.symm.trans hu)
      exact hs.2
    exact ⟨es' ++ [.work c e], hrun.snoc ⟨hset ▸ hstep, horderly⟩⟩

end

/-! ### Two processes -/

/-- A process whose client has one exporter and a count of 5. -/
abbrev initialised (shutdownCalled : Bool) (calls : List GlobalCall)
    (aggregator : StripedAggMap Marked F64) : Process F64 :=
  ⟨[loggedIn 10000000000 aggregator], some 0, shutdownCalled, true, true, [.returned true], calls, none⟩

theorem run_initialised (shutdownCalled : Bool) (calls : List GlobalCall) : ∃ es aggregator,
    Run (Where (ProcessStep .documented) fun p e => shutdownCalled = false → Orderly p e)
      ⟨[], none, shutdownCalled, false, false, [], calls, none⟩ es
      (initialised shutdownCalled calls aggregator) := by
  obtain ⟨aggregator, hrecord⟩ := logins_step 10000000000
  let client : Client F64 := oneExporter 10000000000
  have hbuild : ProcessStep .documented ⟨[], none, shutdownCalled, false, false, [], calls, none⟩ .build
      ⟨[client], none, shutdownCalled, false, false, [.built 0], calls, none⟩ := .build
  have hset : ProcessStep .documented
      ⟨[client], none, shutdownCalled, false, false, [.built 0], calls, none⟩ (.set 0)
      ⟨[client], some 0, shutdownCalled, false, false, [.set], calls, none⟩ := .set rfl
  have hatexit : ProcessStep .documented
      ⟨[client], some 0, shutdownCalled, false, false, [.set], calls, none⟩ (.atexit 0)
      ⟨[client], some 0, shutdownCalled, true, false, [.registered], calls, none⟩ := .atexit rfl
  have hok : ProcessStep .documented
      ⟨[client], some 0, shutdownCalled, true, false, [.registered], calls, none⟩ (.ok 0)
      ⟨[client], some 0, shutdownCalled, true, true, [.returned true], calls, none⟩ := .ok rfl
  have hrecorded : ProcessStep .documented
      ⟨[client], some 0, shutdownCalled, true, true, [.returned true], calls, none⟩
      (.record true logins (.count 5)) (initialised shutdownCalled calls aggregator) :=
    .record (c := 0) rfl rfl hrecord
  have horderly : shutdownCalled = false →
      Orderly ⟨[client], none, shutdownCalled, false, false, [.built 0], calls, none⟩ (.set 0) := by
    rintro rfl _ ⟨⟩ -
    refine ⟨?_, nofun⟩
    rintro _ ⟨⟩
    exact nofun
  have hcounted : shutdownCalled = false →
      Orderly ⟨[client], some 0, shutdownCalled, true, true, [.returned true], calls, none⟩
        (.record true logins (.count 5)) := by
    rintro - - - _ ⟨⟩
    rfl
  exact ⟨_, aggregator, ((((Run.nil.snoc ⟨hbuild, fun _ => trivial⟩).snoc ⟨hset, horderly⟩).snoc
    ⟨hatexit, fun _ => trivial⟩).snoc ⟨hok, fun _ => trivial⟩).snoc ⟨hrecorded, hcounted⟩⟩

/-- **A shutdown before `try_init`** takes the flag, and the one after it
returns with nothing exported. -/
theorem early_shutdown_loses : ∃ es, ∃ p : Process F64,
    Run (ProcessStep .documented) .start es p ∧ (∀ w ∈ p.client, CountKeys w.recorded) ∧
      (∃ call ∈ p.calls, call.afterInit = true ∧ call.phase = .returned) ∧ ¬ Exported p := by
  have hcall : ProcessStep .documented (.start : Process F64) .shutdown
      ⟨[], none, false, false, false, [], [⟨false, .called⟩], none⟩ := .shutdown
  have hcas : ProcessStep .documented ⟨[], none, false, false, false, [], [⟨false, .called⟩], none⟩
      (.cas 0) (⟨[], none, true, false, false, [], [⟨false, .won⟩], none⟩ : Process F64) :=
    cas_won ⟨false, .called⟩ rfl rfl rfl
  have hget : ProcessStep .documented ⟨[], none, true, false, false, [], [⟨false, .won⟩], none⟩
      (.get 0) (⟨[], none, true, false, false, [], [⟨false, .returned⟩], none⟩ : Process F64) :=
    @ProcessStep.getNothing F64 _ _ .documented _ 0 ⟨false, .won⟩ rfl rfl rfl
  obtain ⟨es, aggregator, hinit⟩ := run_initialised true [⟨false, .returned⟩]
  have hlate : ProcessStep .documented (initialised true [⟨false, .returned⟩] aggregator) .shutdown
      { initialised true [⟨false, .returned⟩, ⟨true, .called⟩] aggregator with owed := some 1 } :=
    .shutdown
  have hlost : ProcessStep .documented
      { initialised true [⟨false, .returned⟩, ⟨true, .called⟩] aggregator with owed := some 1 } (.cas 1)
      { initialised true [⟨false, .returned⟩, ⟨true, .returned⟩] aggregator with owed := some 1 } :=
    cas_lost ⟨true, .called⟩ rfl rfl rfl
  refine ⟨_, _, (((((Run.nil.snoc hcall).snoc hcas).snoc hget).append hinit.of_where).snoc
    hlate).snoc hlost, ?_, ⟨⟨true, .returned⟩, ?_, rfl, rfl⟩, ?_⟩
  · rintro _ ⟨⟩ c hc c' hc' _ _
    rw [List.mem_singleton.mp hc']
    rfl
  · exact List.mem_cons_of_mem _ List.mem_cons_self
  · rintro ⟨w, n, ⟨⟩, ⟨⟩, h⟩
    obtain ⟨before, batch, after, hnil, -⟩ := h 0 Nat.one_pos logins 5 rfl 0 Nat.one_pos
    exact List.append_ne_nil_of_right_ne_nil before (List.cons_ne_nil batch after) hnil.symm

/-- A call behind `try_init` exports the count. -/
theorem shutdown_exports_one : ∃ p : Process F64, ∃ w, p.client = some w ∧
    w.recorded = [(logins, .count 5)] ∧ w.exporters = 1 ∧ p.owed = some 1 ∧ Exported p := by
  obtain ⟨es, aggregator, hinit⟩ := run_initialised false []
  replace hinit : Run (Where (ProcessStep .documented) Orderly) .start es
      (initialised false [] aggregator) := hinit.mono fun _ _ _ hs => ⟨hs.1, hs.2 rfl⟩
  -- one call of `shutdown()`, the client on its way
  let at' (flag : Bool) (w : Client F64) (phase : GlobalPhase) : Process F64 :=
    ⟨[w], some 0, flag, true, true, [.returned true], [⟨true, phase⟩], some 1⟩
  let w := loggedIn 10000000000 aggregator
  have hcall : ProcessStep .documented (initialised false [] aggregator) .shutdown
      (at' false w .called) := .shutdown
  have hcas : ProcessStep .documented (at' false w .called) (.cas 0) (at' true w .won) :=
    cas_won ⟨true, .called⟩ rfl rfl rfl
  have hget : ProcessStep .documented (at' true w .won) (.get 0)
      (at' true { w with calls := [.called], owed := some 1 } (.inClient 0)) :=
    @ProcessStep.get F64 _ _ .documented _ 0 ⟨true, .won⟩ 0 w _ rfl rfl rfl rfl .shutdown
  have hclient : ∀ {v v' : Client F64} {e : ClientEvent F64}, ClientStep .documented v e v' →
      e.OfCallNo 0 → ProcessStep .documented (at' true v (.inClient 0)) (.client 0 e)
        (at' true v' (.inClient 0)) := fun h he =>
    @ProcessStep.client F64 _ _ .documented _ 0 ⟨true, .inClient 0⟩ 0 0 _ _ _ rfl rfl rfl rfl he h
  let v : Client F64 :=
    { w with calls := [.joining], owed := some 1, permit := true, handle := false, guard := some 0 }
  have hnotify : ClientStep .documented { w with calls := [.called], owed := some 1 } (.notify 0)
      { w with calls := [.notified], owed := some 1, permit := true } := .notify rfl
  have hlock : ClientStep .documented
      { w with calls := [.notified], owed := some 1, permit := true } (.lock 0)
      { w with calls := [.locked], owed := some 1, permit := true, guard := some 0 } := .lock rfl rfl
  have htake : ClientStep .documented
      { w with calls := [.locked], owed := some 1, permit := true, guard := some 0 } (.take 0) v :=
    .take rfl
  have hcalled := (((((hinit.snoc ⟨hcall, trivial⟩).snoc ⟨hcas, nofun⟩).snoc
    ⟨hget, trivial⟩).snoc ⟨hclient hnotify rfl, trivial⟩).snoc ⟨hclient hlock rfl, trivial⟩).snoc
    ⟨hclient htake rfl, trivial⟩
  have hne : v.flushInterval ≠ 0 := Nat.succ_ne_zero 9999999999
  have hworks : Works .documented v { v with worker := .waiting } :=
    .step (start_step rfl hne) (.inr ⟨rfl, hne⟩) id
  obtain ⟨v', hfinal, hdone⟩ := works_final .documented (w := { v with worker := .waiting }) rfl rfl
  have hv' := hworks.trans hfinal
  have hframe := hv'.frame
  obtain ⟨es', hrun⟩ := process_works (p := at' true v (.inClient 0)) (c := 0) rfl hv'
  have hjoin : ClientStep .documented v' (.join 0) { v' with guard := none, calls := [.returned] } := by
    have h : ClientStep .documented v' (.join 0) _ :=
      .join (by rw [hframe.calls]; rfl) (by rw [hdone]; trivial)
    rwa [hframe.calls] at h
  have hfinish : ProcessStep .documented
      (at' true { v' with guard := none, calls := [.returned] } (.inClient 0)) (.finish 0)
      (at' true { v' with guard := none, calls := [.returned] } .returned) :=
    @ProcessStep.finish F64 _ _ .documented _ 0 ⟨true, .inClient 0⟩ 0 _ rfl rfl rfl rfl
  have hall := ((hcalled.append hrun).snoc ⟨hclient hjoin rfl, trivial⟩).snoc ⟨hfinish, trivial⟩
  refine ⟨_, { v' with guard := none, calls := [.returned] }, rfl, hframe.recorded,
    hframe.exporters, rfl, shutdown_exports hall ?_ List.mem_cons_self rfl rfl⟩
  rintro _ ⟨⟩
  show CountKeys v'.recorded
  rw [hframe.recorded]
  intro c hc c' hc' _ _
  rw [List.mem_singleton.mp hc']
  rfl

end ChalkMetrics
