/-
# What a failing `try_init` leaves behind

`LifecycleStep`: the process together with the clients of `build_local`, the
calls on them and their drop. `try_init` spawns its worker, the exporters moved
in, before `GLOBAL.set` decides; where that fails the client is dropped, which
detaches the thread, and nobody can notify it any more.

`Seen` is what there is to see: the running workers, their exporters, the global
client. Other threads go on meanwhile, so it is compared with what their steps
alone make of it (`CallStep`). A failing call leaves it so just when its thread
has panicked on the way into its loop before the call returns
(`failed_init_iff`); a thread that got there runs on for good
(`abandoned_runs_on`).

Key definitions: `Lifecycle`, `LifecycleStep`, `Seen`, `CallStep`, `PanicsIn`.
-/
import ChalkMetrics.Client.Global

namespace ChalkMetrics

open Runs

/-- A builder, with the number of its exporters and how its map will hash. -/
structure MetricsClientBuilder (F : Type) where
  makeHash : Fin 64 → UInt64 → UInt64
  maxBuckets : ℕ
  initialError : F
  aggregateDistrMetrics : Bool
  exporters : ℕ
  flushInterval : ℕ

/-- `locals` are the clients `build_local` returned that are not dropped. -/
structure Lifecycle (F : Type) [FloatOps F] where
  process : Process F
  locals : List ℕ

inductive LifecycleEvent (F : Type) where
  | process (e : ProcessEvent F)
  | buildLocal
  | call (client : ℕ) (e : ClientEvent F)
  | flush (client : ℕ)
  | drop (client : ℕ)

/-- The running workers, the exporters they hold, by client and place, and the
global client. -/
@[ext] structure Seen where
  workers : Set ℕ
  exporters : Set (ℕ × ℕ)
  global : Option ℕ

namespace Seen

/-- `g` changed as a step changes `before` to `after`. -/
def follow (g before after : Seen) : Seen where
  workers := g.workers \ (before.workers \ after.workers) ∪ after.workers \ before.workers
  exporters := g.exporters \ (before.exporters \ after.exporters) ∪ after.exporters \ before.exporters
  global := if after.global = before.global then g.global else after.global

/-- But for client `c`. -/
def without (v : Seen) (c : ℕ) : Seen where
  workers := {x ∈ v.workers | x ≠ c}
  exporters := {x ∈ v.exporters | x.1 ≠ c}
  global := v.global

end Seen

section

variable {F : Type} [FloatOps F]

def MetricsClientBuilder.build (b : MetricsClientBuilder F) : Client F :=
  buildInner b.makeHash b.maxBuckets b.initialError b.aggregateDistrMetrics b.exporters b.flushInterval

namespace Lifecycle

def start : Lifecycle F := ⟨.start, []⟩

/-- The worker of client `c` runs. -/
def Running (s : Lifecycle F) (c : ℕ) : Prop :=
  ∃ w, s.process.clients[c]? = some w ∧ ¬ w.worker.Finished

def seen (s : Lifecycle F) : Seen where
  workers := {c | s.Running c}
  exporters := {p | s.Running p.1 ∧ ∃ w, s.process.clients[p.1]? = some w ∧ p.2 < w.exporters}
  global := s.process.global

/-- `try_init` behind `build_inner`. -/
def tryInit (s : Lifecycle F) (b : MetricsClientBuilder F) : Lifecycle F :=
  { s with
    process := { s.process with
      clients := s.process.clients ++ [b.build]
      inits := s.process.inits ++ [.built s.process.clients.length] } }

def setClient (s : Lifecycle F) (c : ℕ) (w : Client F) : Lifecycle F :=
  { s with process := s.process.setClient c w }

end Lifecycle

variable [FloatBits F]

inductive LifecycleStep (tokio : Tokio) : Lifecycle F → LifecycleEvent F → Lifecycle F → Prop
  | process {s : Lifecycle F} {e p} (h : ProcessStep tokio s.process e p) :
      LifecycleStep tokio s (.process e) { s with process := p }
  | buildLocal {s : Lifecycle F} {b : MetricsClientBuilder F} :
      LifecycleStep tokio s .buildLocal
        ⟨{ s.process with clients := s.process.clients ++ [b.build] },
          s.locals ++ [s.process.clients.length]⟩
  | call {s : Lifecycle F} {c w w' e} (hc : c ∈ s.locals) (hw : s.process.clients[c]? = some w)
      (he : ¬ e.OfWorker) (h : ClientStep tokio w e w') :
      LifecycleStep tokio s (.call c e) (s.setClient c w')
  -- `MetricsClient::flush`, stripe by stripe
  | flush {s : Lifecycle F} {c w scan i out aggregator} (hc : c ∈ s.locals)
      (hw : s.process.clients[c]? = some w) (h : w.aggregator.flushStripe scan i = (out, aggregator)) :
      LifecycleStep tokio s (.flush c) (s.setClient c { w with aggregator })
  -- no call borrows the client any more
  | drop {s : Lifecycle F} {c w} (hc : c ∈ s.locals) (hw : s.process.clients[c]? = some w)
      (hcalls : ∀ call ∈ w.calls, call = .returned) :
      LifecycleStep tokio s (.drop c) { s with locals := s.locals.filter (· ≠ c) }

/-! ### A call of `try_init` -/

/-- The steps of call `i`, whose client is `c`, and of its worker. -/
def LifecycleEvent.OfInit (c i : ℕ) : LifecycleEvent F → Prop
  | .process (.work c' _) => c' = c
  | .process (.set i') => i' = i
  | _ => False

/-- Steps while call `i` is between `build_inner` and `GLOBAL.set`: what there
would be to see without it follows the steps of the others. -/
inductive CallStep (tokio : Tokio) (c i : ℕ) :
    Lifecycle F × Seen → LifecycleEvent F → Lifecycle F × Seen → Prop
  | worker {s t : Lifecycle F} {g : Seen} {e} (h : LifecycleStep tokio s (.process (.work c e)) t) :
      CallStep tokio c i (s, g) (.process (.work c e)) (t, g)
  | other {s t : Lifecycle F} {g : Seen} {e} (he : ¬ e.OfInit c i) (h : LifecycleStep tokio s e t) :
      CallStep tokio c i (s, g) e (t, g.follow s.seen t.seen)

/-- The worker of client `c` panics on its way into its loop: it has no runtime,
or the flush interval is 0. -/
def PanicsIn (c flushInterval : ℕ) (es : List (LifecycleEvent F)) : Prop :=
  ∃ built, .process (.work c (.start built)) ∈ es ∧ (built = false ∨ flushInterval = 0)

/-! ### Who can reach a client -/

/-- Nobody has client `c` but init call `holder`. -/
structure Unshared (c : ℕ) (holder : Option ℕ) (s : Lifecycle F) : Prop where
  inits : ∀ j, s.process.inits[j]? = some (.built c) → holder = some j
  global : s.process.global ≠ some c
  locals : c ∉ s.locals

omit [FloatOps F] [FloatBits F] in
theorem built_of_set {inits : List InitPhase} {i j c : ℕ} {phase : InitPhase}
    (hphase : phase ≠ .built c) (h : (inits.set i phase)[j]? = some (.built c)) :
    inits[j]? = some (.built c) := by
  rw [List.getElem?_set] at h
  split_ifs at h
  · exact absurd (Option.some.inj h) hphase
  · exact h

omit [FloatOps F] [FloatBits F] in
theorem built_of_append {inits : List InitPhase} {j c n : ℕ} (hc : c ≠ n)
    (h : (inits ++ [.built n])[j]? = some (.built c)) : inits[j]? = some (.built c) := by
  rw [List.getElem?_append] at h
  split_ifs at h
  · exact h
  · have hmem := List.mem_of_getElem? h
    obtain rfl := InitPhase.built.inj (List.mem_singleton.mp hmem)
    exact absurd rfl hc

/-- A step leaves the clients, adds one or moves one on, which is the global
client, a local one or moved by its worker. -/
theorem clients_step {tokio : Tokio} {s t : Lifecycle F} {e : LifecycleEvent F}
    (h : LifecycleStep tokio s e t) :
    t.process.clients = s.process.clients ∨
      (∃ w, t.process.clients = s.process.clients ++ [w]) ∨
      ∃ c w, t.process.clients = s.process.clients.set c w ∧
        (s.process.global = some c ∨ c ∈ s.locals ∨ ∃ e', e = .process (.work c e')) := by
  cases h with
  | buildLocal => exact .inr (.inl ⟨_, rfl⟩)
  | call hlocal hw he h => exact .inr (.inr ⟨_, _, rfl, .inr (.inl hlocal)⟩)
  | flush hlocal hw h => exact .inr (.inr ⟨_, _, rfl, .inr (.inl hlocal)⟩)
  | drop hlocal hw hcalls => exact .inl rfl
  | process h =>
    cases h with
    | build => exact .inr (.inl ⟨_, rfl⟩)
    | set hi => split_ifs <;> exact .inl rfl
    | work hc he h => exact .inr (.inr ⟨_, _, rfl, .inr (.inr ⟨_, rfl⟩)⟩)
    | record hg hc h => exact .inr (.inr ⟨_, _, rfl, .inl hg⟩)
    | cas hg hp => split_ifs <;> exact .inl rfl
    | get hg hp hglobal hc h => exact .inr (.inr ⟨_, _, rfl, .inl hglobal⟩)
    | client hg hp hglobal hc he h => exact .inr (.inr ⟨_, _, rfl, .inl hglobal⟩)
    | _ => exact .inl rfl

theorem length_step {tokio : Tokio} {s t : Lifecycle F} {e : LifecycleEvent F}
    (h : LifecycleStep tokio s e t) : s.process.clients.length ≤ t.process.clients.length := by
  rcases clients_step h with hsame | ⟨w, happend⟩ | ⟨c, w, hset, -⟩
  · rw [hsame]
  · rw [happend, List.length_append]
    exact Nat.le_add_right _ _
  · rw [hset, List.length_set]

theorem unshared_process {tokio : Tokio} {p q : Process F} {locals : List ℕ} {e : ProcessEvent F}
    {c : ℕ} {holder : Option ℕ} (h : ProcessStep tokio p e q) (hs : Unshared c holder ⟨p, locals⟩)
    (hc : c < p.clients.length ∨ q.clients.length ≤ c) (he : ∀ j, e = .set j → holder ≠ some j) :
    Unshared c holder ⟨q, locals⟩ := by
  have hinits : ∀ {i : ℕ} (phase : InitPhase), phase ≠ .built c →
      ∀ j, (p.inits.set i phase)[j]? = some (.built c) → holder = some j := fun phase hne j hj =>
    hs.inits j (built_of_set hne hj)
  cases h with
  | build =>
    rw [List.length_append, List.length_singleton] at hc
    exact ⟨fun j hj => hs.inits j (built_of_append (by omega) hj), hs.global, hs.locals⟩
  | @set i c' hi =>
    split_ifs
    · refine ⟨hinits .set nofun, fun hg => ?_, hs.locals⟩
      obtain rfl := Option.some.inj hg
      exact he i rfl (hs.inits i hi)
    · exact ⟨hinits (.returned false) nofun, hs.global, hs.locals⟩
  | atexit hi => exact ⟨hinits .registered nofun, hs.global, hs.locals⟩
  | ok hi => exact ⟨hinits (.returned true) nofun, hs.global, hs.locals⟩
  | cas hg hp => split_ifs <;> exact ⟨hs.inits, hs.global, hs.locals⟩
  | _ => exact ⟨hs.inits, hs.global, hs.locals⟩

theorem unshared_step {tokio : Tokio} {s t : Lifecycle F} {e : LifecycleEvent F} {c : ℕ}
    {holder : Option ℕ} (h : LifecycleStep tokio s e t) (hs : Unshared c holder s)
    (hc : c < s.process.clients.length ∨ t.process.clients.length ≤ c)
    (he : ∀ j, e = .process (.set j) → holder ≠ some j) : Unshared c holder t := by
  cases h with
  | process h => exact unshared_process h hs hc fun j hj => he j (congrArg _ hj)
  | buildLocal =>
    rw [List.length_append, List.length_singleton] at hc
    refine ⟨hs.inits, hs.global, fun hmem => ?_⟩
    rcases List.mem_append.mp hmem with hmem | hmem
    · exact hs.locals hmem
    · have heq := List.mem_singleton.mp hmem
      omega
  | call hlocal hw hcall h => exact ⟨hs.inits, hs.global, hs.locals⟩
  | flush hlocal hw h => exact ⟨hs.inits, hs.global, hs.locals⟩
  | drop hlocal hw hcalls =>
    exact ⟨hs.inits, hs.global, fun hmem => hs.locals (List.mem_of_mem_filter hmem)⟩

/-- A client nobody else has takes no step but its worker's. -/
theorem untouched_step {tokio : Tokio} {s t : Lifecycle F} {e : LifecycleEvent F} {c : ℕ}
    {holder : Option ℕ} (h : LifecycleStep tokio s e t) (hs : Unshared c holder s)
    (hc : c < s.process.clients.length) (he : ∀ e', e ≠ .process (.work c e')) :
    t.process.clients[c]? = s.process.clients[c]? := by
  rcases clients_step h with hsame | ⟨w, happend⟩ | ⟨c', w, hset, hwho⟩
  · rw [hsame]
  · rw [happend, List.getElem?_append_left hc]
  · have hne : c' ≠ c := by
      rintro rfl
      rcases hwho with hglobal | hlocal | ⟨e', hwork⟩
      · exact hs.global hglobal
      · exact hs.locals hlocal
      · exact he e' hwork
    rw [hset, List.getElem?_set_ne hne]

/-! ### A client nobody records to -/

/-- The worker has nothing to hand out. -/
def WorkerPhase.Bare : WorkerPhase F → Prop
  | flushing _ call => call.out = []
  | exporting _ _ _ => False
  | draining _ points => points = []
  | _ => True

structure Unrecorded (w : Client F) : Prop where
  stripes : ∀ i, w.aggregator.stripes i = []
  queue : w.aggregator.rawQueue = []
  worker : w.worker.Bare

theorem flushStripe_nil {s s' : StripedAggMap Marked F} {scan i out} (hs : s.stripes i = [])
    (h : s.flushStripe scan i = (out, s')) : out = [] ∧ s' = s := by
  have horder : (scan i).order (s.stripes i) = [] := by
    rw [hs]
    exact ((scan i).perm []).eq_nil
  have hself : Function.update s.stripes i [] = s.stripes := by
    rw [← hs, Function.update_eq_self]
  rw [StripedAggMap.flushStripe, horder] at h
  obtain ⟨rfl, rfl⟩ := Prod.mk.inj h
  refine ⟨rfl, ?_⟩
  show { s with stripes := Function.update s.stripes i [] } = s
  rw [hself]

omit [FloatBits F] in
theorem Unrecorded.endRound {w : Client F} (hw : Unrecorded w) (final : Bool) :
    Unrecorded (w.endRound final) := by
  cases final with
  | false => exact ⟨hw.stripes, hw.queue, trivial⟩
  | true =>
    exact ⟨hw.stripes, (StripedAggMap.rawQueue_closeReceiver w.aggregator).trans hw.queue, trivial⟩

/-- **Nothing recorded, nothing exported.** -/
theorem unrecorded_step {tokio : Tokio} {w w' : Client F} {e : ClientEvent F}
    (h : ClientStep tokio w e w') (he : e.OfWorker) (hw : Unrecorded w) : Unrecorded w' := by
  have hphase : ∀ {phase : WorkerPhase F}, w.worker = phase → phase.Bare := fun hp => hp ▸ hw.worker
  cases h with
  | record h => exact he.elim
  | @start built hstart =>
    split_ifs
    · exact ⟨hw.stripes, hw.queue, trivial⟩
    · exact ⟨hw.stripes, (hw.endRound true).queue, trivial⟩
  | tick hwait => exact ⟨hw.stripes, hw.queue, rfl⟩
  | notified hwait hp => exact ⟨hw.stripes, hw.queue, rfl⟩
  | stripe hflush hn h =>
    obtain ⟨rfl, rfl⟩ := flushStripe_nil (hw.stripes _) h
    exact ⟨hw.stripes, hw.queue, by rw [hphase hflush]; rfl⟩
  | @flushed final call hflush hn =>
    have hout : call.out = [] := hphase hflush
    rw [Client.flushed, if_pos (by rw [hout]; rfl)]
    exact ⟨hw.stripes, hw.queue, rfl⟩
  | exportTo hexport hn => exact (hphase hexport).elim
  | exportPanics hexport hn => exact (hphase hexport).elim
  | exported hexport => exact (hphase hexport).elim
  | recv hdrain hq =>
    rw [hw.queue] at hq
    cases hq
  | @drained final points hdrain hq =>
    have hpoints : points = [] := hphase hdrain
    rw [Client.drained, if_pos (by rw [hpoints]; rfl)]
    exact hw.endRound final
  | _ => exact absurd trivial he.not_ofCall

/-! ### A worker that cannot be notified -/

/-- The worker of client `c`, which has no record and no shutdown call, behind the
steps `es`. -/
structure Unnotified (c n : ℕ) (es : List (LifecycleEvent F)) (w : Client F) : Prop where
  unrecorded : Unrecorded w
  flushInterval : w.flushInterval = n
  permit : w.permit = false
  final : w.worker.final = false
  finished : w.worker.Finished ↔ PanicsIn c n es

omit [FloatBits F] in
theorem unnotified_build (c : ℕ) (b : MetricsClientBuilder F) :
    Unnotified c b.flushInterval [] b.build where
  unrecorded := by
    refine ⟨fun i => rfl, ?_, trivial⟩
    unfold MetricsClientBuilder.build buildInner StripedAggMap.rawQueue StripedAggMap.new
    cases b.aggregateDistrMetrics <;> rfl
  flushInterval := rfl
  permit := rfl
  final := rfl
  finished := by
    refine ⟨fun h => h.elim, ?_⟩
    rintro ⟨built, hmem, -⟩
    cases hmem

theorem final_step {tokio : Tokio} {w w' : Client F} {e : ClientEvent F}
    (h : ClientStep tokio w e w') (hn : e ≠ .notified) (hp : e ≠ .exportPanics) :
    w'.worker.final = w.worker.final := by
  have hquiet : e.Quiet → w'.worker.final = w.worker.final := fun hq => (round_step h hq hn hp).1
  cases h with
  | record h => rfl
  | stripe hw hlt h =>
    rw [hw]
    rfl
  | _ => exact hquiet trivial

omit [FloatOps F] [FloatBits F] in
theorem panicsIn_append {c n : ℕ} {es : List (LifecycleEvent F)} {e : LifecycleEvent F} :
    PanicsIn c n (es ++ [e]) ↔ PanicsIn c n es ∨
      ∃ built, e = .process (.work c (.start built)) ∧ (built = false ∨ n = 0) := by
  unfold PanicsIn
  constructor
  · rintro ⟨built, hmem, hfails⟩
    rcases List.mem_append.mp hmem with hmem | hmem
    · exact .inl ⟨built, hmem, hfails⟩
    · exact .inr ⟨built, (List.mem_singleton.mp hmem).symm, hfails⟩
  · rintro (⟨built, hmem, hfails⟩ | ⟨built, rfl, hfails⟩)
    · exact ⟨built, List.mem_append_left _ hmem, hfails⟩
    · exact ⟨built, List.mem_append_right _ List.mem_cons_self, hfails⟩

/-- The worker takes a step. -/
theorem Unnotified.step {tokio : Tokio} {c n : ℕ} {es : List (LifecycleEvent F)} {w w' : Client F}
    {e : ClientEvent F} (hw : Unnotified c n es w) (h : ClientStep tokio w e w')
    (he : e.OfWorker) : Unnotified c n (es ++ [.process (.work c e)]) w' := by
  have hnotified : e ≠ .notified := by
    rintro rfl
    cases h with
    | notified hwait hp => exact Bool.false_ne_true (hw.permit.symm.trans hp)
  have hpanics : e ≠ .exportPanics := by
    rintro rfl
    cases h with
    | exportPanics hexport hn =>
      have hbare := hw.unrecorded.worker
      rw [hexport] at hbare
      exact hbare
  have hfinal : w'.worker.final = false := (final_step h hnotified hpanics).trans hw.final
  refine ⟨unrecorded_step h he hw.unrecorded, (built_step h).2.trans hw.flushInterval, ?_, hfinal, ?_⟩
  · exact ((callsSame_step h he.not_ofCall).2 hnotified).trans hw.permit
  rw [panicsIn_append, ← hw.finished]
  constructor
  · intro hfin
    have hpanicked : w'.worker = .panicked := by
      refine (finished_cases hfin).resolve_left fun hdone => ?_
      rw [hdone] at hfinal
      cases hfinal
    rcases panicked_step h hpanicked with hp | hp | ⟨built, rfl, hfails⟩
    · exact .inl (hp ▸ trivial)
    · exact absurd hp hpanics
    · exact .inr ⟨built, rfl, hw.flushInterval ▸ hfails⟩
  · rintro (hfin | ⟨built, heq, hfails⟩)
    · exact finished_step h hfin
    · obtain rfl : e = .start built := by
        injection heq with heq
        injection heq
      cases h with
      | start hstart =>
        have hstops : ¬ (built && tokio.interval w.flushInterval) = true := by
          rcases hfails with rfl | rfl
          · exact Bool.false_ne_true
          · rw [hw.flushInterval, (tokio.interval_eq_false 0).mpr rfl, Bool.and_false]
            exact Bool.false_ne_true
        rw [if_neg hstops]
        trivial

/-- Client `c` is nobody's but `holder`'s, and its worker has nobody to notify it. -/
structure Kept (c n : ℕ) (holder : Option ℕ) (es : List (LifecycleEvent F))
    (s : Lifecycle F) : Prop where
  unshared : Unshared c holder s
  worker : ∃ w, s.process.clients[c]? = some w ∧ Unnotified c n es w

theorem Kept.step {tokio : Tokio} {c n : ℕ} {holder : Option ℕ} {es : List (LifecycleEvent F)}
    {s t : Lifecycle F} {e : LifecycleEvent F} (hs : Kept c n holder es s)
    (h : LifecycleStep tokio s e t) (he : ∀ j, e = .process (.set j) → holder ≠ some j) :
    Kept c n holder (es ++ [e]) t := by
  obtain ⟨w, hc, hw⟩ := hs.worker
  have hlt := (List.getElem?_eq_some_iff.mp hc).1
  refine ⟨unshared_step h hs.unshared (.inl hlt) he, ?_⟩
  by_cases hwork : ∃ e', e = .process (.work c e')
  · obtain ⟨e', rfl⟩ := hwork
    cases h with
    | process h =>
      cases h with
      | @work _ v w' _ hc' he' h =>
        obtain rfl := Option.some.inj (hc'.symm.trans hc)
        exact ⟨w', List.getElem?_set_self hlt, hw.step h he'⟩
  · have hother : ∀ e', e ≠ .process (.work c e') := fun e' heq => hwork ⟨e', heq⟩
    refine ⟨w, (untouched_step h hs.unshared hlt hother).trans hc, ?_⟩
    refine { hw with finished := hw.finished.trans (panicsIn_append.trans ?_).symm }
    refine or_iff_left ?_
    rintro ⟨built, heq, -⟩
    exact hother _ heq

omit [FloatBits F] in
theorem Kept.running {c n : ℕ} {holder : Option ℕ} {es : List (LifecycleEvent F)}
    {s : Lifecycle F} (hs : Kept c n holder es s) : s.Running c ↔ ¬ PanicsIn c n es := by
  obtain ⟨w, hc, hw⟩ := hs.worker
  rw [← hw.finished]
  constructor
  · rintro ⟨v, hv, hruns⟩
    obtain rfl := Option.some.inj (hv.symm.trans hc)
    exact hruns
  · exact fun hruns => ⟨w, hc, hruns⟩

/-! ### What there is to see -/

theorem follow_without {v v' : Seen} {c : ℕ} (hw : c ∈ v'.workers → c ∈ v.workers)
    (he : ∀ x ∈ v'.exporters, x.1 = c → x ∈ v.exporters) :
    (v.without c).follow v v' = v'.without c := by
  unfold Seen.follow Seen.without
  ext x
  · simp only [Set.mem_union, Set.mem_sdiff, Set.mem_ofPred_eq]
    by_cases hx : x = c
    · subst hx
      tauto
    · tauto
  · simp only [Set.mem_union, Set.mem_sdiff, Set.mem_ofPred_eq]
    have hx := he x
    by_cases hxc : x.1 = c
    · tauto
    · tauto
  · simp only
    split_ifs with hg
    · rw [hg]
    · rfl

section

variable {s t : Lifecycle F} {c : ℕ}

omit [FloatBits F] in
theorem running_congr {x : ℕ} (h : t.process.clients[x]? = s.process.clients[x]?) :
    t.Running x ↔ s.Running x := by
  unfold Lifecycle.Running
  rw [h]

omit [FloatBits F] in
theorem exporters_congr {x : ℕ × ℕ} (h : t.process.clients[x.1]? = s.process.clients[x.1]?) :
    x ∈ t.seen.exporters ↔ x ∈ s.seen.exporters := by
  unfold Lifecycle.seen
  rw [Set.mem_ofPred_eq, Set.mem_ofPred_eq, running_congr h, h]

omit [FloatBits F] in
/-- All clients but `c` are the same. -/
theorem without_congr (h : ∀ x, x ≠ c → t.process.clients[x]? = s.process.clients[x]?)
    (hg : t.process.global = s.process.global) : t.seen.without c = s.seen.without c := by
  ext x
  · exact and_congr_left fun hx => running_congr (h x hx)
  · exact and_congr_left fun hx => exporters_congr (h x.1 hx)
  · exact iff_of_eq (congrArg (x ∈ ·) hg)

omit [FloatBits F] in
theorem without_eq_iff : s.seen = s.seen.without c ↔ ¬ s.Running c := by
  constructor
  · intro heq hruns
    have hmem : c ∈ (s.seen.without c).workers := heq ▸ hruns
    exact hmem.2 rfl
  · intro hstill
    ext x
    · refine ⟨fun hx => ⟨hx, ?_⟩, fun hx => hx.1⟩
      rintro rfl
      exact hstill hx
    · refine ⟨fun hx => ⟨hx, ?_⟩, fun hx => hx.1⟩
      rintro rfl
      exact hstill hx.1
    · exact Iff.rfl

end

/-! ### The call -/

theorem tryInit_step (tokio : Tokio) (s : Lifecycle F) (b : MetricsClientBuilder F) :
    LifecycleStep tokio s (.process .build) (s.tryInit b) := .process .build

/-- A client that is not there yet is nobody's. -/
theorem fresh_run {tokio : Tokio} {es : List (LifecycleEvent F)} {s : Lifecycle F}
    (h : Run (LifecycleStep tokio) .start es s) {c : ℕ} (hc : s.process.clients.length ≤ c) :
    Unshared c none s := by
  refine h.inv (I := fun _ s => ∀ c, s.process.clients.length ≤ c → Unshared c none s) ?_ ?_ c hc
  · exact fun _ _ => ⟨nofun, nofun, nofun⟩
  · intro _ s e t hs hstep c hc
    exact unshared_step hstep (hs c ((length_step hstep).trans hc)) (.inr hc) fun _ _ => nofun

omit [FloatBits F] in
/-- `build_inner` in a call of `try_init`. -/
theorem kept_tryInit {s : Lifecycle F} (b : MetricsClientBuilder F)
    (hs : Unshared s.process.clients.length none s) :
    Kept s.process.clients.length b.flushInterval (some s.process.inits.length) [] (s.tryInit b) where
  unshared := by
    refine ⟨fun j hj => ?_, hs.global, hs.locals⟩
    rcases lt_or_ge j s.process.inits.length with hlt | hge
    · have hold := hs.inits j ((List.getElem?_append_left hlt).symm.trans hj)
      cases hold
    · have hlen := (List.getElem?_eq_some_iff.mp hj).1
      unfold Lifecycle.tryInit at hlen
      rw [List.length_append, List.length_singleton] at hlen
      exact congrArg some (by omega)
  worker := ⟨b.build, List.getElem?_concat_length, unnotified_build _ b⟩

omit [FloatBits F] in
theorem seen_tryInit (s : Lifecycle F) (b : MetricsClientBuilder F) :
    s.seen = (s.tryInit b).seen.without s.process.clients.length := by
  have hstill : ¬ s.Running s.process.clients.length := by
    rintro ⟨w, hw, -⟩
    exact Nat.lt_irrefl _ (List.getElem?_eq_some_iff.mp hw).1
  refine (without_eq_iff.mpr hstill).trans (without_congr (fun x hx => ?_) rfl)
  unfold Lifecycle.tryInit
  rcases lt_or_gt_of_ne hx with hlt | hgt
  · exact (List.getElem?_append_left hlt).symm
  · rw [List.getElem?_eq_none hgt.le, List.getElem?_eq_none]
    rw [List.length_append, List.length_singleton]
    exact hgt

/-- What holds while the call is between `build_inner` and `GLOBAL.set`. -/
theorem kept_call {tokio : Tokio} {es₀ es : List (LifecycleEvent F)} {s t : Lifecycle F} {g : Seen}
    (b : MetricsClientBuilder F) (hreach : Run (LifecycleStep tokio) .start es₀ s)
    (h : Run (CallStep tokio s.process.clients.length s.process.inits.length) (s.tryInit b, s.seen)
      es (t, g)) :
    Kept s.process.clients.length b.flushInterval (some s.process.inits.length) es t ∧
      g = t.seen.without s.process.clients.length := by
  refine h.inv (I := fun es x =>
    Kept s.process.clients.length b.flushInterval (some s.process.inits.length) es x.1 ∧
      x.2 = x.1.seen.without s.process.clients.length)
    ⟨kept_tryInit b (fresh_run hreach le_rfl), seen_tryInit s b⟩ ?_
  rintro es _ e _ ⟨hk, hg⟩ hstep
  cases hstep with
  | @worker t u g e hstep =>
    refine ⟨hk.step hstep fun _ => nofun, hg.trans ?_⟩
    cases hstep with
    | process hstep =>
      cases hstep with
      | work hc he h => exact without_congr (fun x hx => (List.getElem?_set_ne hx.symm).symm) rfl
  | @other t u g _ he hstep =>
    obtain ⟨w, hc, -⟩ := hk.worker
    have hlt := (List.getElem?_eq_some_iff.mp hc).1
    have hsame := untouched_step hstep hk.unshared hlt (by
      rintro e' rfl
      exact he rfl)
    refine ⟨hk.step hstep ?_, ?_⟩
    · rintro j rfl hj
      exact he (Option.some.inj hj).symm
    · show g.follow t.seen u.seen = _
      rw [show g = _ from hg]
      refine follow_without (running_congr hsame).mp ?_
      rintro ⟨c, j⟩ hx rfl
      exact (exporters_congr hsame).mp hx

/-- `GLOBAL.set` fails: the client is dropped, and nothing else changes. -/
theorem set_fails {tokio : Tokio} {i : ℕ} {t u : Lifecycle F}
    (h : LifecycleStep tokio t (.process (.set i)) u)
    (hfail : u.process.inits[i]? = some (.returned false)) :
    u.seen = t.seen ∧ u = { t with process := { t.process with
      inits := t.process.inits.set i (.returned false) } } := by
  cases h with
  | process h =>
    cases h with
    | @set i c hi =>
      split_ifs at hfail ⊢
      · have hset := (List.getElem?_set_self (List.getElem?_eq_some_iff.mp hi).1).symm.trans hfail
        cases hset
      · exact ⟨rfl, rfl⟩

/-- The client of a failed call is nobody's. -/
theorem unshared_failed {tokio : Tokio} {c i : ℕ} {t u : Lifecycle F}
    (ht : Unshared c (some i) t) (h : LifecycleStep tokio t (.process (.set i)) u)
    (hfail : u.process.inits[i]? = some (.returned false)) : Unshared c none u := by
  obtain ⟨-, rfl⟩ := set_fails h hfail
  have hne : InitPhase.returned false ≠ .built c := nofun
  refine ⟨fun j hj => ?_, ht.global, ht.locals⟩
  obtain rfl := Option.some.inj (ht.inits j (built_of_set hne hj))
  cases hj.symm.trans hfail

/-- **A failing `try_init` leaves no trace** just when its worker panicked on
the way into its loop before the call returned. -/
theorem failed_init_iff {tokio : Tokio} {es₀ es : List (LifecycleEvent F)} {s t u : Lifecycle F}
    {g : Seen} (b : MetricsClientBuilder F) (hreach : Run (LifecycleStep tokio) .start es₀ s)
    (hcall : Run (CallStep tokio s.process.clients.length s.process.inits.length)
      (s.tryInit b, s.seen) es (t, g))
    (hset : LifecycleStep tokio t (.process (.set s.process.inits.length)) u)
    (hfail : u.process.inits[s.process.inits.length]? = some (.returned false)) :
    u.seen = g ↔ PanicsIn s.process.clients.length b.flushInterval es := by
  obtain ⟨hk, rfl⟩ := kept_call b hreach hcall
  rw [(set_fails hset hfail).1, without_eq_iff, hk.running, not_not]

/-- **The worker of a failed call runs on**, whatever comes, if it got into its loop. -/
theorem abandoned_runs_on {tokio : Tokio} {es₀ es es' : List (LifecycleEvent F)}
    {s t u v : Lifecycle F} {g : Seen} (b : MetricsClientBuilder F)
    (hreach : Run (LifecycleStep tokio) .start es₀ s)
    (hcall : Run (CallStep tokio s.process.clients.length s.process.inits.length)
      (s.tryInit b, s.seen) es (t, g))
    (hset : LifecycleStep tokio t (.process (.set s.process.inits.length)) u)
    (hfail : u.process.inits[s.process.inits.length]? = some (.returned false))
    (hrun : Run (LifecycleStep tokio) u es' v) :
    v.Running s.process.clients.length ↔
      ¬ PanicsIn s.process.clients.length b.flushInterval (es ++ es') := by
  obtain ⟨hk, -⟩ := kept_call b hreach hcall
  have hdropped : Kept s.process.clients.length b.flushInterval none es u :=
    ⟨unshared_failed hk.unshared hset hfail, (set_fails hset hfail).2 ▸ hk.worker⟩
  have hkept := hrun.inv
    (I := fun es' v => Kept s.process.clients.length b.flushInterval none (es ++ es') v)
    ((List.append_nil es).symm ▸ hdropped) fun es' _ e _ hv hstep => by
      rw [← List.append_assoc]
      exact hv.step hstep fun _ _ => nofun
  exact hkept.running

end

/-! ### A second `try_init` -/

/-- One exporter, which flushes at that interval. -/
abbrev oneExporterBuilder (flushInterval : ℕ) : MetricsClientBuilder F64 :=
  ⟨fun _ k => k, 200, 0.001, true, 1, flushInterval⟩

/-- A call behind a successful one, whose worker gets as far as `w'` before it returns. -/
theorem run_second_init (flushInterval : ℕ) {w' : Client F64}
    (h : ClientStep .documented (oneExporter flushInterval) (.start true) w') :
    ∃ es₀ s t u, Run (LifecycleStep .documented) .start es₀ s ∧ s.process.clients.length = 1 ∧
      Run (CallStep .documented s.process.clients.length s.process.inits.length)
        (s.tryInit (oneExporterBuilder flushInterval), s.seen)
        [.process (.work 1 (.start true))] (t, s.seen) ∧
      LifecycleStep .documented t (.process (.set s.process.inits.length)) u ∧
      u.process.inits[s.process.inits.length]? = some (.returned false) ∧
      u.process.clients[1]? = some w' := by
  obtain ⟨es, aggregator, hinit⟩ := run_initialised false []
  have hlift : ∀ {es : List (ProcessEvent F64)} {p : Process F64},
      Run (ProcessStep .documented) .start es p →
      Run (LifecycleStep .documented) .start (es.map .process) ⟨p, []⟩ := by
    intro es p hrun
    induction hrun with
    | nil => exact .nil
    | snoc _ hs ih =>
      rw [List.map_append]
      exact ih.snoc (.process hs)
  let first : Client F64 := loggedIn 10000000000 aggregator
  let s : Lifecycle F64 := ⟨initialised false [] aggregator, []⟩
  let t : Lifecycle F64 := ⟨⟨[first, w'], some 0, false, true, true, [.returned true, .built 1], [],
    none⟩, []⟩
  let u : Lifecycle F64 := ⟨⟨[first, w'], some 0, false, true, true,
    [.returned true, .returned false], [], none⟩, []⟩
  have hwork : LifecycleStep .documented (s.tryInit (oneExporterBuilder flushInterval))
      (.process (.work 1 (.start true))) t :=
    .process (.work (c := 1) (w := oneExporter flushInterval) rfl id h)
  have hset : LifecycleStep .documented t (.process (.set 1)) u := .process (.set rfl)
  exact ⟨_, s, t, u, hlift hinit.of_where, rfl, Run.nil.snoc (.worker hwork), hset, rfl, rfl⟩

/-- **The worker of a second `try_init`** is left running, with its exporter. -/
theorem second_init_leaves_worker : ∃ es₀ es s t u, ∃ g : Seen, ∃ b : MetricsClientBuilder F64,
    Run (LifecycleStep .documented) .start es₀ s ∧
    Run (CallStep .documented s.process.clients.length s.process.inits.length)
      (s.tryInit b, s.seen) es (t, g) ∧
    LifecycleStep .documented t (.process (.set s.process.inits.length)) u ∧
    u.process.inits[s.process.inits.length]? = some (.returned false) ∧
    g = s.seen ∧ 1 ∈ u.seen.workers ∧ (1, 0) ∈ u.seen.exporters ∧ u.seen ≠ g := by
  have hstart : ClientStep .documented (oneExporter 10000000000) (.start true)
      { oneExporter 10000000000 with worker := .waiting } :=
    start_step rfl (Nat.succ_ne_zero 9999999999)
  obtain ⟨es₀, s, t, u, hreach, hlen, hcall, hset, hfail, hw⟩ := run_second_init _ hstart
  have hruns : u.Running 1 := ⟨_, hw, id⟩
  refine ⟨es₀, _, s, t, u, s.seen, _, hreach, hcall, hset, hfail, rfl, hruns,
    ⟨hruns, _, hw, Nat.one_pos⟩, fun heq => ?_⟩
  have hmem : 1 ∈ s.seen.workers := heq ▸ hruns
  obtain ⟨w, hw, -⟩ := hmem
  have hlt := (List.getElem?_eq_some_iff.mp hw).1
  omega

/-- With a flush interval of 0 the second worker panics at once. -/
theorem second_init_panics : ∃ es₀ s t u, Run (LifecycleStep .documented) .start es₀ s ∧
    Run (CallStep .documented s.process.clients.length s.process.inits.length)
      (s.tryInit (oneExporterBuilder 0), s.seen) [.process (.work 1 (.start true))] (t, s.seen) ∧
    LifecycleStep .documented t (.process (.set s.process.inits.length)) u ∧ u.seen = s.seen := by
  have hstart : ClientStep .documented (oneExporter 0) (.start true) _ := .start rfl
  obtain ⟨es₀, s, t, u, hreach, hlen, hcall, hset, hfail, -⟩ := run_second_init 0 hstart
  refine ⟨es₀, s, t, u, hreach, hcall, hset, ?_⟩
  refine (failed_init_iff (oneExporterBuilder 0) hreach hcall hset hfail).mpr ?_
  exact ⟨true, hlen ▸ List.mem_singleton_self _, .inr rfl⟩

end ChalkMetrics
