/-
# A local client flushed by hand

`LocalStep`: a client with its worker, and any number of callers of
`MetricsClient::flush` beside it, all on one map. It is simulated by recorders
and flushers at once (`local_refines`), the worker's flushes and those by hand
being flushes of one kind. So nothing is lost or reported twice between them:
what every exporter was handed, what the flushes by hand returned and what is
in the map add up to what was recorded (`local_conserves`).

Key definitions: `LocalClient`, `LocalStep`, `Simulates`.
-/
import ChalkMetrics.Client.Shutdown

namespace ChalkMetrics

open Runs HashTable StripedAggMap

/-- `manual` are the calls of `flush` begun so far. -/
structure LocalClient (F : Type) [FloatOps F] where
  client : Client F
  manual : List (FlushCall Marked F)

inductive LocalEvent (F : Type) where
  | client (e : ClientEvent F)
  | begin
  | stripe (call : ℕ)

section

variable {F : Type} [FloatOps F] [FloatBits F]

inductive LocalStep (tokio : Tokio) : LocalClient F → LocalEvent F → LocalClient F → Prop
  | client {s : LocalClient F} {e w'} (h : ClientStep tokio s.client e w') :
      LocalStep tokio s (.client e) { s with client := w' }
  | begin {s : LocalClient F} :
      LocalStep tokio s .begin { s with manual := s.manual ++ [⟨0, []⟩] }
  | stripe {s : LocalClient F} {c call scan out aggregator} (hc : s.manual[c]? = some call)
      (hn : call.next < 64)
      (h : s.client.aggregator.flushStripe scan ⟨call.next, hn⟩ = (out, aggregator)) :
      LocalStep tokio s (.stripe c)
        ⟨{ s.client with aggregator }, s.manual.set c ⟨call.next + 1, call.out ++ out⟩⟩

end

/-! ### The simulation -/

section

variable {M F : Type} [FloatOps F]

/-- The map alone. -/
def StripedAggMap.dropSender (s : StripedAggMap M F) : StripedAggMap M F :=
  { s with rawSender := none }

/-- The flush the worker is at. -/
def WorkerPhase.call : WorkerPhase F → List (FlushCall Marked F)
  | flushing _ call => [call]
  | _ => []

/-- The record calls that come to the map, marked. -/
def mapCalls (aggregate : Bool) (recorded : List (Series × Update (BitVec 64) F)) :
    List (Series × Update Marked F) :=
  (recorded.mapIdx fun i c => (c.1, c.2.mark i)).filter fun c =>
    aggregate || c.2.kind != .histogram

def recordsOf (es : List (FlushEvent M F)) : List (Series × Update M F) :=
  es.filterMap fun e => match e with
    | .record x u => some (x, u)
    | _ => none

structure Simulates (aggregate : Bool) (s : LocalClient F) (es : List (FlushEvent Marked F))
    (v : FlushState Marked F) : Prop where
  map : v.map = s.client.aggregator.dropSender
  sender : s.client.aggregator.rawSender.isSome = !aggregate
  records : recordsOf es = mapCalls aggregate s.client.recorded
  calls : ∃ past : List (FlushCall Marked F),
    v.calls.Perm (past ++ s.client.worker.call ++ s.manual) ∧
    past.flatMap FlushCall.out = s.client.sent.flatMap fun b => b.handed.out

variable [AddCommMonoid M] [FloatBits F]

theorem recordSlot_dropSender {s s' : StripedAggMap M F} {grow x u}
    (h : s.recordSlot grow x u = some s') :
    s.dropSender.recordSlot grow x u = some s'.dropSender := by
  obtain ⟨t, ht, h⟩ := Option.bind_eq_some_iff.mp h
  obtain rfl := Option.some.inj h
  exact Option.bind_eq_some_iff.mpr ⟨t, ht, rfl⟩

theorem flushStripe_dropSender {s s' : StripedAggMap M F} {scan i out}
    (h : s.flushStripe scan i = (out, s')) :
    s.dropSender.flushStripe scan i = (out, s'.dropSender) ∧ s'.rawSender = s.rawSender := by
  obtain ⟨rfl, rfl⟩ := Prod.mk.inj h
  exact ⟨rfl, rfl⟩

/-- A record call comes to the map, or goes past it as a raw point. -/
theorem mapStep_dropSender {s s' : StripedAggMap M F} {grow x} {u : Update M F}
    (h : MapStep s (.record grow x u) s') : s'.rawSender.isSome = s.rawSender.isSome ∧
      (s.dropSender.recordSlot grow x u = some s'.dropSender ∧
          (s.rawSender.isSome = true → u.kind ≠ .histogram) ∨
        s'.dropSender = s.dropSender ∧ s.rawSender.isSome = true ∧ u.kind = .histogram) := by
  have hslot : ∀ {u : Update M F}, s.recordSlot grow x u = some s' →
      s'.rawSender.isSome = s.rawSender.isSome := by
    intro u h
    rw [recordFound_stripes h]
  cases h with
  | count h => exact ⟨hslot h, .inl ⟨recordSlot_dropSender h, fun _ => by simp [Update.kind]⟩⟩
  | gauge h => exact ⟨hslot h, .inl ⟨recordSlot_dropSender h, fun _ => by simp [Update.kind]⟩⟩
  | histogram h =>
    unfold recordHistogram at h
    rcases hraw : s.rawSender with _ | sender
    · rw [hraw] at h
      have h : s.recordSlot grow x _ = some s' := h
      have hsome := hslot h
      rw [hraw] at hsome
      exact ⟨hsome, .inl ⟨recordSlot_dropSender h, fun hr => by simp at hr⟩⟩
    · rw [hraw] at h
      obtain rfl := Option.some.inj h
      exact ⟨rfl, .inr ⟨rfl, rfl, rfl⟩⟩

end

section

variable {F : Type} [FloatOps F]

omit [FloatOps F] in
theorem mapCalls_snoc (aggregate : Bool) (recorded : List (Series × Update (BitVec 64) F))
    (x : Series) (u : Update (BitVec 64) F) :
    mapCalls aggregate (recorded ++ [(x, u)]) = mapCalls aggregate recorded ++
      if aggregate || u.kind != .histogram then [(x, u.mark recorded.length)] else [] := by
  simp [mapCalls, List.mapIdx_append, List.filter_append, List.filter_singleton, mark_kind]

omit [FloatOps F] in
theorem recordsOf_append {M : Type} (es es' : List (FlushEvent M F)) :
    recordsOf (es ++ es') = recordsOf es ++ recordsOf es' := List.filterMap_append

omit [FloatOps F] in
theorem out_eq_call (phase : WorkerPhase F) : phase.out = phase.call.flatMap FlushCall.out := by
  cases phase with
  | flushing final call => exact (List.append_nil _).symm
  | _ => rfl

variable [FloatBits F]

/-- A quiet step of the worker ends its flush, if it was at one. -/
theorem quiet_call {tokio : Tokio} {w w' : Client F} {e : ClientEvent F} (h : ClientStep tokio w e w')
    (hq : e.Quiet) (hcall : ¬ e.OfCall) (ht : e ≠ .tick) (hn : e ≠ .notified) :
    w'.worker.call = [] ∧ w'.aggregator.dropSender = w.aggregator.dropSender ∧
      w'.aggregator.rawSender.isSome = w.aggregator.rawSender.isSome := by
  have hend : ∀ final, (w.endRound final).worker.call = [] ∧
      (w.endRound final).aggregator.dropSender = w.aggregator.dropSender ∧
      (w.endRound final).aggregator.rawSender.isSome = w.aggregator.rawSender.isSome := by
    intro final
    cases final
    · exact ⟨rfl, rfl, rfl⟩
    · exact ⟨rfl, rfl, Option.isSome_map⟩
  cases h with
  | record h => exact hq.elim
  | stripe hw hn h => exact hq.elim
  | tick hw => exact absurd rfl ht
  | notified hw hp => exact absurd rfl hn
  | start hw =>
    split_ifs
    · exact ⟨rfl, rfl, rfl⟩
    · exact ⟨rfl, rfl, Option.isSome_map⟩
  | flushed hw hn =>
    unfold Client.flushed
    split_ifs <;> exact ⟨rfl, rfl, rfl⟩
  | exportTo hw hn => exact ⟨rfl, rfl, rfl⟩
  | exportPanics hw hn => exact ⟨rfl, rfl, Option.isSome_map⟩
  | exported hw =>
    unfold Client.exported
    split
    · exact ⟨rfl, rfl, rfl⟩
    · exact hend _
  | recv hw hq => exact ⟨rfl, rfl, Option.isSome_map⟩
  | drained hw hq =>
    unfold Client.drained
    split_ifs
    · exact hend _
    · exact ⟨rfl, rfl, rfl⟩
  | _ => exact absurd trivial hcall

omit [FloatOps F] [FloatBits F] in
/-- A call goes on, the others stay. -/
theorem perm_set {α : Type} {a b : α} : ∀ {l : List α} {c : ℕ}, l[c]? = some a →
    ∃ rest, l.Perm (a :: rest) ∧ (l.set c b).Perm (b :: rest)
  | [], c, h => by simp at h
  | x :: l, 0, h => by
    obtain rfl : x = a := by simpa using h
    exact ⟨l, .refl _, .refl _⟩
  | x :: l, c + 1, h => by
    obtain ⟨rest, h1, h2⟩ := perm_set (b := b) (l := l) (c := c) (by simpa using h)
    exact ⟨x :: rest, (h1.cons x).trans (.swap _ _ _), (h2.cons x).trans (.swap _ _ _)⟩

omit [FloatOps F] [FloatBits F] in
/-- A call is among the others, and goes on there. -/
theorem exists_set {α : Type} {l rest : List α} {a : α} (h : l.Perm (a :: rest)) (b : α) :
    ∃ c : ℕ, l[c]? = some a ∧ (l.set c b).Perm (b :: rest) := by
  obtain ⟨c, hc⟩ := List.mem_iff_getElem?.mp (h.symm.subset List.mem_cons_self)
  obtain ⟨rest', h1, h2⟩ := perm_set (b := b) hc
  exact ⟨c, hc, h2.trans (((h1.symm.trans h).cons_inv).cons b)⟩

omit [FloatOps F] [FloatBits F] in
theorem perm_among {α : Type} (a : α) (past rest : List α) :
    (past ++ [a] ++ rest).Perm (a :: (past ++ rest)) := by
  rw [List.append_assoc]
  exact List.perm_middle

end

section

variable {F : Type} [FloatOps F] [FloatBits F] {tokio : Tokio} {aggregate : Bool} {s : LocalClient F}
  {es : List (FlushEvent Marked F)} {v : FlushState Marked F}

theorem Simulates.record {grow x} {u : Update (BitVec 64) F} {aggregator}
    (hs : Simulates aggregate s es v)
    (h : MapStep s.client.aggregator (.record grow x (u.mark s.client.recorded.length)) aggregator) :
    ∃ es' v', Run FlushStep v es' v' ∧ Simulates aggregate
      { s with client := { s.client with aggregator, recorded := s.client.recorded ++ [(x, u)] } }
      (es ++ es') v' := by
  obtain ⟨hsome, hcase⟩ := mapStep_dropSender h
  rw [mark_kind] at hcase
  rcases hcase with ⟨hslot, hkind⟩ | ⟨hmap, hraw, hkind⟩
  · rw [← hs.map] at hslot
    have hcond : (aggregate || u.kind != .histogram) = true := by
      cases haggregate : aggregate with
      | true => rfl
      | false => simpa using hkind (by rw [hs.sender, haggregate]; rfl)
    refine ⟨_, _, Run.nil.snoc (.record (finds_fromHash _ _ _) hslot), rfl, hsome.trans hs.sender, ?_,
      hs.calls⟩
    rw [mapCalls_snoc, if_pos hcond, recordsOf_append, hs.records]
    rfl
  · have hcond : ¬ (aggregate || u.kind != .histogram) = true := by
      rw [hs.sender] at hraw
      simpa [hkind] using hraw
    refine ⟨[], v, .nil, hs.map.trans hmap.symm, hsome.trans hs.sender, ?_, hs.calls⟩
    rw [mapCalls_snoc, if_neg hcond, List.append_nil, List.append_nil]
    exact hs.records

/-- The worker begins a flush. -/
theorem Simulates.begin {worker : WorkerPhase F} {permit : Bool} (hs : Simulates aggregate s es v)
    (hidle : s.client.worker.call = []) (hworker : worker.call = [⟨0, []⟩]) :
    ∃ es' v', Run FlushStep v es' v' ∧ Simulates aggregate
      { s with client := { s.client with worker, permit } } (es ++ es') v' := by
  obtain ⟨past, hperm, hout⟩ := hs.calls
  rw [hidle, List.append_nil] at hperm
  refine ⟨_, _, Run.nil.snoc .begin, hs.map, hs.sender, ?_, past, ?_, hout⟩
  · rw [recordsOf_append, hs.records]
    exact List.append_nil _
  · rw [hworker]
    refine (List.perm_append_comm.trans ?_).trans (perm_among _ past s.manual).symm
    exact hperm.cons _

/-- A flush takes a stripe. -/
theorem Simulates.takeStripe {call : FlushCall Marked F} {rest scan out aggregator}
    (hs : Simulates aggregate s es v) (hmem : v.calls.Perm (call :: rest)) (hn : call.next < 64)
    (h : s.client.aggregator.flushStripe scan ⟨call.next, hn⟩ = (out, aggregator)) :
    ∃ e v', FlushStep v e v' ∧ v'.map = aggregator.dropSender ∧
      aggregator.rawSender.isSome = !aggregate ∧ recordsOf [e] = [] ∧
      v'.calls.Perm (⟨call.next + 1, call.out ++ out⟩ :: rest) := by
  obtain ⟨hdrop, hraw⟩ := flushStripe_dropSender h
  obtain ⟨c, hc, hset⟩ := exists_set hmem ⟨call.next + 1, call.out ++ out⟩
  rw [← hs.map] at hdrop
  refine ⟨.stripe c, _, .stripe hc hn hdrop, rfl, ?_, rfl, hset⟩
  rw [hraw]
  exact hs.sender

/-- The other steps of the worker. -/
theorem Simulates.quiet {w' : Client F} {e : ClientEvent F} (hs : Simulates aggregate s es v)
    (h : ClientStep tokio s.client e w') (hq : e.Quiet) (hcall : ¬ e.OfCall) (ht : e ≠ .tick)
    (hn : e ≠ .notified) : Simulates aggregate { s with client := w' } es v := by
  obtain ⟨hidle, hmap, hsome⟩ := quiet_call h hq hcall ht hn
  have hstill := still_step h hq
  obtain ⟨past, hperm, hout⟩ := hs.calls
  refine ⟨hs.map.trans hmap.symm, hsome.trans hs.sender, ?_, past ++ s.client.worker.call, ?_, ?_⟩
  · rw [hstill.recorded]
    exact hs.records
  · rw [hidle, List.append_nil]
    exact hperm
  · have hboth := hstill.out
    rw [Client.out, Client.out, out_eq_call, out_eq_call, hidle, List.flatMap_nil,
      List.append_nil] at hboth
    rw [List.flatMap_append, hout, hboth]

theorem Simulates.clientStep {w' : Client F} {e : ClientEvent F} (hs : Simulates aggregate s es v)
    (h : ClientStep tokio s.client e w') : ∃ es' v', Run FlushStep v es' v' ∧
      Simulates aggregate { s with client := w' } (es ++ es') v' := by
  have hstay : Simulates aggregate { s with client := w' } es v → ∃ es' v', Run FlushStep v es' v' ∧
      Simulates aggregate { s with client := w' } (es ++ es') v' := fun hs' =>
    ⟨[], v, .nil, by rwa [List.append_nil]⟩
  by_cases hcall : e.OfCall
  · obtain ⟨hworker, haggregator, hrecorded, hsent, -, -⟩ := workSame_step h hcall
    refine hstay ⟨?_, ?_, ?_, ?_⟩
    · rw [haggregator]
      exact hs.map
    · rw [haggregator]
      exact hs.sender
    · rw [hrecorded]
      exact hs.records
    · rw [hworker, hsent]
      exact hs.calls
  by_cases hidle : e.Quiet ∧ e ≠ .tick ∧ e ≠ .notified
  · exact hstay (hs.quiet h hidle.1 hcall hidle.2.1 hidle.2.2)
  cases h with
  | record h => exact hs.record h
  | tick hw => exact hs.begin (by rw [hw]; rfl) rfl
  | notified hw hp => exact hs.begin (by rw [hw]; rfl) rfl
  | @stripe final call scan out aggregator hw hn h =>
    obtain ⟨past, hperm, hout⟩ := hs.calls
    rw [hw] at hperm
    obtain ⟨e, v', hstep, hmap, hsender, hrecords, hcalls⟩ :=
      hs.takeStripe (hperm.trans (perm_among call past s.manual)) hn h
    refine ⟨[e], v', Run.nil.snoc hstep, hmap, hsender, ?_, past, ?_, hout⟩
    · rw [recordsOf_append, hrecords, List.append_nil]
      exact hs.records
    · exact hcalls.trans (perm_among _ past s.manual).symm
  | shutdown => exact absurd trivial hcall
  | notify hc => exact absurd trivial hcall
  | lock hc hg => exact absurd trivial hcall
  | take hc => exact absurd trivial hcall
  | join hc hw => exact absurd trivial hcall
  | _ => exact absurd ⟨trivial, nofun, nofun⟩ hidle

theorem Simulates.step {s' : LocalClient F} {e : LocalEvent F} (hs : Simulates aggregate s es v)
    (h : LocalStep tokio s e s') :
    ∃ es' v', Run FlushStep v es' v' ∧ Simulates aggregate s' (es ++ es') v' := by
  obtain ⟨past, hperm, hout⟩ := hs.calls
  cases h with
  | client h => exact hs.clientStep h
  | begin =>
    refine ⟨_, _, Run.nil.snoc .begin, hs.map, hs.sender, ?_, past, ?_, hout⟩
    · rw [recordsOf_append, hs.records]
      exact List.append_nil _
    · rw [← List.append_assoc]
      exact hperm.append_right _
  | @stripe c call scan out aggregator hc hn h =>
    obtain ⟨rest, hrest, hset⟩ := perm_set (b := ⟨call.next + 1, call.out ++ out⟩) hc
    have hmem : v.calls.Perm (call :: (past ++ s.client.worker.call ++ rest)) :=
      (hperm.trans (hrest.append_left _)).trans List.perm_middle
    obtain ⟨e, v', hstep, hmap, hsender, hrecords, hcalls⟩ := hs.takeStripe hmem hn h
    refine ⟨[e], v', Run.nil.snoc hstep, hmap, hsender, ?_, past, ?_, hout⟩
    · rw [recordsOf_append, hrecords, List.append_nil]
      exact hs.records
    · exact hcalls.trans (List.perm_middle.symm.trans (hset.symm.append_left _))

omit [FloatBits F] in
theorem simulates_build (makeHash) (mb : ℕ) (ε : F) (n interval : ℕ) :
    Simulates aggregate ⟨buildInner makeHash mb ε aggregate n interval, []⟩ []
      (.init makeHash mb ε) := by
  refine ⟨rfl, ?_, rfl, [], .refl _, rfl⟩
  cases aggregate <;> rfl

theorem Simulates.run {s₀ : LocalClient F} {es₀ : List (FlushEvent Marked F)}
    {v₀ : FlushState Marked F} {fs : List (LocalEvent F)} (hs : Simulates aggregate s₀ es₀ v₀)
    (h : Run (LocalStep tokio) s₀ fs s) :
    ∃ es v, Run FlushStep v₀ es v ∧ Simulates aggregate s (es₀ ++ es) v := by
  refine h.simulated (R := fun s es v => Simulates aggregate s (es₀ ++ es) v) (by simpa using hs) ?_
  intro t e u bs t' ht hstep
  obtain ⟨es, v, hrun, hsim⟩ := ht.step hstep
  exact ⟨es, v, hrun, by rwa [← List.append_assoc]⟩

/-- **A client with its worker and flushes by hand is recorders and flushers at
once**: its map is theirs, without the raw points' sender, its record calls
that come to the map are theirs in order, and what their flushes put out is
what the worker and the calls of `flush` put out. -/
theorem local_refines {makeHash} {mb : ℕ} {ε : F} {n interval : ℕ} {fs : List (LocalEvent F)}
    (h : Run (LocalStep tokio) ⟨buildInner makeHash mb ε aggregate n interval, []⟩ fs s) :
    ∃ es v, Run FlushStep (.init makeHash mb ε) es v ∧ Simulates aggregate s es v :=
  (simulates_build makeHash mb ε n interval).run h

/-- A count, and a flush by hand that went through the first stripe. -/
theorem local_run : ∃ (fs : List (LocalEvent F64)) (s : LocalClient F64),
    Run (LocalStep .documented) ⟨oneExporter 10000000000, []⟩ fs s ∧
    s.client.worker = .waiting ∧ s.client.recorded = [(logins, .count 5)] ∧
    s.manual.length = 1 ∧ s.client.exporters = 1 := by
  obtain ⟨aggregator, hrecord⟩ := logins_step 10000000000
  have hstart := start_step (w := loggedIn 10000000000 aggregator) rfl (Nat.succ_ne_zero 9999999999)
  have hflush : aggregator.flushStripe (fun _ => .id) 0 =
      ((aggregator.flushStripe (fun _ => .id) 0).1, (aggregator.flushStripe (fun _ => .id) 0).2) :=
    rfl
  have h64 : 0 < 64 := by decide
  have hcall : ([⟨0, []⟩] : List (FlushCall Marked F64))[0]? = some ⟨0, []⟩ := rfl
  exact ⟨_, _, (((Run.nil.snoc (.client hrecord)).snoc (.client hstart)).snoc .begin).snoc
    (.stripe (c := 0) hcall h64 hflush), rfl, rfl, rfl, rfl⟩

theorem local_refines_logins : ∃ (s : LocalClient F64) (es : List (FlushEvent Marked F64))
    (v : FlushState Marked F64), s.client.recorded = [(logins, .count 5)] ∧
    s.manual.length = 1 ∧ Run FlushStep (.init (fun _ k => k) 200 0.001) es v ∧
    Simulates true s es v := by
  obtain ⟨fs, s, hrun, -, hrecorded, hmanual, -⟩ := local_run
  obtain ⟨es, v, hflush, hs⟩ := local_refines hrun
  exact ⟨s, es, v, hrecorded, hmanual, hflush, hs⟩

/-! ### What it conserves -/

/-- What exporter `j` was handed and the flushes by hand have put out for `k`. -/
def LocalClient.handed (s : LocalClient F) (j : ℕ) (k : UInt64) : List (FlushedValue Marked F) :=
  (outOf ((s.client.received j).flatMap fun b => b.handed.out) k ++
    s.manual.flatMap fun c => outOf c.out k).map FlushedMetric.value

/-- The updates of the record calls on `k` that come to the map. -/
def LocalClient.updates (aggregate : Bool) (s : LocalClient F) (k : UInt64) :
    List (Update Marked F) :=
  ((mapCalls aggregate s.client.recorded).filter fun c => c.1.key = k).map Prod.snd

omit [FloatOps F] [FloatBits F] in
theorem updatesOn_eq (k : UInt64) : ∀ es : List (FlushEvent Marked F),
    updatesOn k es = ((recordsOf es).filter fun c => c.1.key = k).map Prod.snd
  | [] => rfl
  | .record x u :: es => by
    have ih := updatesOn_eq k es
    rw [updatesOn, ih]
    by_cases hk : x.key = k
    · rw [if_pos hk, show recordsOf (.record x u :: es) = (x, u) :: recordsOf es from rfl,
        List.filter_cons_of_pos (by simpa using hk)]
      rfl
    · rw [if_neg hk, show recordsOf (.record x u :: es) = (x, u) :: recordsOf es from rfl,
        List.filter_cons_of_neg (by simpa using hk)]
  | .begin :: es => updatesOn_eq k es
  | .stripe _ :: es => updatesOn_eq k es

omit [FloatOps F] [FloatBits F] in
theorem outOf_flatMap {α : Type} (f : α → List (UInt64 × FlushedMetric Marked F)) (k : UInt64)
    (l : List α) : outOf (l.flatMap f) k = l.flatMap fun a => outOf (f a) k := by
  induction l with
  | nil => rfl
  | cons a l ih => rw [List.flatMap_cons, List.flatMap_cons, outOf_append, ih]

/-- Between the worker's rounds, what adds up is handed out, or is stored. -/
theorem Simulates.conserves {W : Type} [AddCommMonoid W] (μ : Measure Marked F W) {makeHash} {mb : ℕ}
    {ε : F} (hs : Simulates aggregate s es v) (hrun : Run FlushStep (.init makeHash mb ε) es v)
    (hcall : s.client.worker.call = []) {j : ℕ} (hj : s.client.received j = s.client.sent) {k : UInt64}
    (hk : ∀ u ∈ s.updates aggregate k, u.kind = μ.kind) :
    ((s.handed j k).map μ.value).sum + ((s.client.aggregator.bagOf k).map fun e => μ.slot e.2).sum =
      ((s.updates aggregate k).map μ.update).sum := by
  have hupdates : updatesOn k es = s.updates aggregate k := by
    rw [updatesOn_eq, hs.records]
    rfl
  obtain ⟨past, hperm, hout⟩ := hs.calls
  rw [hcall, List.append_nil] at hperm
  have hhanded : (v.outOn k).Perm (s.handed j k) := by
    unfold FlushState.outOn LocalClient.handed
    refine (hperm.flatMap_right _).trans ?_
    rw [List.flatMap_append, List.map_append, hj, ← hout, outOf_flatMap, List.map_flatMap,
      List.map_flatMap]
  have hslots : (v.slotsOn k).map μ.slot = (s.client.aggregator.bagOf k).map fun e => μ.slot e.2 := by
    rw [FlushState.slotsOn, hs.map, List.map_map]
    rfl
  rw [← hupdates] at hk ⊢
  rw [← μ.conserved hrun hk, hslots, (hhanded.map μ.value).sum_eq]

/-- **Nothing is lost or reported twice between the worker and flushes by
hand.** Between the worker's rounds, for every exporter and every key: what
the exporter was handed, what the flushes by hand have put out and what is
stored are the deltas recorded, each record call in it once, or as many values
as were recorded and are not NaN. -/
theorem local_conserves {makeHash} {mb : ℕ} {ε : F} {n interval : ℕ} {fs : List (LocalEvent F)}
    (h : Run (LocalStep tokio) ⟨buildInner makeHash mb ε aggregate n interval, []⟩ fs s)
    (hrest : s.client.worker = .waiting ∨ s.client.worker = .done) {j : ℕ}
    (hj : j < s.client.exporters) (k : UInt64) :
    ((∀ u ∈ s.updates aggregate k, u.kind = .count) →
      ((s.handed j k).map FlushedValue.countValue).sum + countsIn s.client.aggregator k =
        ((s.updates aggregate k).map Update.delta).sum) ∧
    ((∀ u ∈ s.updates aggregate k, u.kind = .histogram) →
      ((s.handed j k).map FlushedValue.numValues).sum +
          ((s.client.aggregator.bagOf k).map fun e => e.2.numValues).sum =
        ((s.updates aggregate k).map Update.numValues).sum) := by
  obtain ⟨es, v, hrun, hs⟩ := (simulates_build makeHash mb ε n interval).run h
  have hhanded : HandedOut s.client := by
    refine h.inv (I := fun _ s => HandedOut s.client) ⟨rfl, fun _ _ _ => rfl, nofun⟩ ?_
    intro fs t f u ht hstep
    cases hstep with
    | client h => exact handedOut_step h ht
    | begin => exact ht
    | stripe hc hn h => exact ⟨ht.serials, ht.received, ht.last⟩
  have hcall : s.client.worker.call = [] := by
    rcases hrest with hw | hw <;> rw [hw] <;> rfl
  have hreceived : s.client.received j = s.client.sent := by
    rw [hhanded.received (by rcases hrest with hw | hw <;> rw [hw] <;> nofun) j hj]
    rcases hrest with hw | hw <;> rw [hw] <;> rfl
  exact ⟨fun hk => hs.conserves (countMeasure Marked F) hrun hcall hreceived hk,
    fun hk => hs.conserves (valuesMeasure Marked F) hrun hcall hreceived hk⟩

/-- The delta of 5 is in one of the two places. -/
theorem local_conserves_five : ∃ s : LocalClient F64, s.manual.length = 1 ∧
    ((s.handed 0 logins.key).map FlushedValue.countValue).sum +
      countsIn s.client.aggregator logins.key = (5, {0}) := by
  obtain ⟨fs, s, hrun, hw, hrecorded, hmanual, hexp⟩ := local_run
  have hupdates : s.updates true logins.key = [.count (5, {0})] := by
    unfold LocalClient.updates mapCalls
    rw [hrecorded]
    simp [Update.mark]
  have hone : 0 < s.client.exporters := by
    rw [hexp]
    decide
  have hcounts := (local_conserves hrun (.inl hw) hone logins.key).1 (by
    rw [hupdates]
    intro u hu
    rw [List.mem_singleton.mp hu]
    rfl)
  rw [hupdates] at hcounts
  exact ⟨s, hmanual, hcounts.trans (add_zero _)⟩

end
end ChalkMetrics
