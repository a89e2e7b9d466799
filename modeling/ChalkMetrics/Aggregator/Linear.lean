/-
# Each key sees flushes as single steps

A flush is 64 steps, one a stripe, and others record and flush meanwhile. For
one key only the step on its stripe matters: its `history` is a sequence of
record calls and flushes, each flush in it where it takes the key's stripe. In
every run whose record calls find what is stored, what each flush puts out for
the key is what the plain map reports at that point (`flush_linear`). The order
of the history is that of the steps, and a flush is in it at most once
(`flush_once`).

Key definitions: `FoundStep`, `history`, `KeyEvent.outputs`.
-/
import ChalkMetrics.Aggregator.Conserve
import ChalkMetrics.Aggregator.PlainMap

namespace ChalkMetrics

open HashTable Runs

section

variable {M F : Type} [AddCommMonoid M] [FloatOps F] [FloatBits F]

/-! ### The system and the history of a key -/

/-- `FlushStep` with record calls that look their key up and find it if it is
stored. -/
inductive FoundStep : FlushState M F → FlushEvent M F → FlushState M F → Prop
  | record {w : FlushState M F} {map' grow x u}
      (hfiled : ∀ e ∈ w.map.stripes (stripeIdx x.key), e.key = x.key → e.hash = x.key)
      (h : w.map.recordSlot grow x u = some map') :
      FoundStep w (.record x u) { w with map := map' }
  | begin {w : FlushState M F} : FoundStep w .begin { w with calls := w.calls ++ [⟨0, []⟩] }
  | stripe {w : FlushState M F} {c : ℕ} {call : FlushCall M F} {out map' scan}
      (hc : w.calls[c]? = some call) (hn : call.next < 64)
      (h : w.map.flushStripe scan ⟨call.next, hn⟩ = (out, map')) :
      FoundStep w (.stripe c) ⟨map', w.calls.set c ⟨call.next + 1, call.out ++ out⟩⟩

/-- The stripes call `c` has been through. -/
def visits (c : ℕ) (es : List (FlushEvent M F)) : ℕ :=
  es.countP fun e => match e with
    | .stripe d => d = c
    | _ => false

inductive KeyEvent (M F : Type) where
  | record (x : Series) (u : Update M F)
  | flush (call : ℕ)

/-- What an event behind `before` is for `k`. -/
def keyEvent (k : UInt64) (before : List (FlushEvent M F)) : FlushEvent M F → List (KeyEvent M F)
  | .record x u => if x.key = k then [.record x u] else []
  | .begin => []
  | .stripe c => if visits c before = (stripeIdx k).val then [.flush c] else []

/-- The record calls on `k` and the flushes that take its stripe, in order. -/
def historyFrom (k : UInt64) : List (FlushEvent M F) → List (FlushEvent M F) → List (KeyEvent M F)
  | _, [] => []
  | before, e :: es => keyEvent k before e ++ historyFrom k (before ++ [e]) es

def history (k : UInt64) (es : List (FlushEvent M F)) : List (KeyEvent M F) := historyFrom k [] es

namespace KeyEvent

/-- What the plain map has under `k`. -/
def apply (k : UInt64) (v : Option (AggKey × PlainSlot M F)) :
    KeyEvent M F → Option (AggKey × PlainSlot M F)
  | record x u => PlainMap.record (fun _ => v) x u k
  | flush _ => PlainMap.flush (fun _ => v) k

def after (k : UInt64) (v : Option (AggKey × PlainSlot M F)) (hist : List (KeyEvent M F)) :
    Option (AggKey × PlainSlot M F) :=
  hist.foldl (apply k) v

/-- What the plain map reports for `k` to flush `c`. -/
def outputs (mb : ℕ) (ε : F) (k : UInt64) (c : ℕ) :
    Option (AggKey × PlainSlot M F) → List (KeyEvent M F) → List (FlushedMetric M F)
  | _, [] => []
  | v, record x u :: hist => outputs mb ε k c ((record x u).apply k v) hist
  | v, flush d :: hist =>
    (if d = c then (PlainMap.report mb ε (fun _ => v) k).toList else []) ++
      outputs mb ε k c ((flush d).apply k v) hist

end KeyEvent

omit [AddCommMonoid M] [FloatOps F] [FloatBits F] in
theorem historyFrom_append (k : UInt64) : ∀ (before es es' : List (FlushEvent M F)),
    historyFrom k before (es ++ es') = historyFrom k before es ++ historyFrom k (before ++ es) es'
  | before, [], es' => by simp [historyFrom]
  | before, e :: es, es' => by
    rw [List.cons_append, historyFrom, historyFrom, historyFrom_append k _ es es',
      List.append_assoc, List.append_assoc, List.singleton_append]

omit [AddCommMonoid M] [FloatOps F] [FloatBits F] in
theorem history_snoc (k : UInt64) (es : List (FlushEvent M F)) (e : FlushEvent M F) :
    history k (es ++ [e]) = history k es ++ keyEvent k es e := by
  rw [history, historyFrom_append, List.nil_append, historyFrom, historyFrom, List.append_nil]
  rfl

theorem KeyEvent.outputs_append (mb : ℕ) (ε : F) (k : UInt64) (c : ℕ) :
    ∀ (v : Option (AggKey × PlainSlot M F)) (hist hist' : List (KeyEvent M F)),
    outputs mb ε k c v (hist ++ hist') =
      outputs mb ε k c v hist ++ outputs mb ε k c (after k v hist) hist'
  | v, [], hist' => rfl
  | v, record x u :: hist, hist' => outputs_append mb ε k c _ hist hist'
  | v, flush d :: hist, hist' => by
    rw [List.cons_append, outputs, outputs, outputs_append mb ε k c _ hist hist',
      List.append_assoc]
    rfl

omit [AddCommMonoid M] [FloatOps F] [FloatBits F] in
theorem KeyEvent.after_record (k : UInt64) (v : Option (AggKey × PlainSlot M F))
    (hist : List (KeyEvent M F)) (x : Series) (u : Update M F) :
    after k v (hist ++ [record x u]) = PlainMap.record (fun _ => after k v hist) x u k := by
  rw [after, List.foldl_append, List.foldl_cons, List.foldl_nil, apply, after]

omit [AddCommMonoid M] [FloatOps F] [FloatBits F] in
theorem KeyEvent.after_flush (k : UInt64) (v : Option (AggKey × PlainSlot M F))
    (hist : List (KeyEvent M F)) (c : ℕ) :
    after k v (hist ++ [flush c]) = PlainMap.flush (fun _ => after k v hist) k := by
  rw [after, List.foldl_append, List.foldl_cons, List.foldl_nil, apply, after]

omit [AddCommMonoid M] [FloatOps F] [FloatBits F] in
theorem visits_snoc (c : ℕ) (es : List (FlushEvent M F)) (e : FlushEvent M F) :
    visits c (es ++ [e]) = visits c es + visits c [e] := List.countP_append

omit [AddCommMonoid M] [FloatOps F] [FloatBits F] in
theorem visits_stripe (c d : ℕ) :
    visits d [(.stripe c : FlushEvent M F)] = if c = d then 1 else 0 := by
  by_cases h : c = d <;> simp [visits, h]

/-! ### The invariant -/

/-- How far call `c` is, and what it has put out for `k`; a call not begun is
nowhere. -/
def FlushState.nextOf (w : FlushState M F) (c : ℕ) : ℕ := (w.calls[c]?).elim 0 FlushCall.next

def FlushState.outFor (w : FlushState M F) (c : ℕ) (k : UInt64) : List (FlushedMetric M F) :=
  (w.calls[c]?).elim [] fun call => outOf call.out k

/-- The map has for `k` what its history leaves, and the calls have put out
what the history says. -/
structure Linear (mb : ℕ) (ε : F) (k : UInt64) (es : List (FlushEvent M F)) (w : FlushState M F) :
    Prop where
  maxBuckets : w.map.maxBuckets = mb
  initialError : w.map.initialError = ε
  placed : w.map.Placed
  bag : BagMatches mb ε (w.map.bagOf k) (KeyEvent.after k none (history k es))
  next : ∀ c, w.nextOf c = visits c es
  out : ∀ c, w.outFor c k = KeyEvent.outputs mb ε k c none (history k es)

theorem linear_init (makeHash) (mb : ℕ) (ε : F) (k : UInt64) :
    Linear mb ε k [] (.init makeHash mb ε : FlushState M F) :=
  ⟨rfl, rfl, StripedAggMap.placed_new makeHash mb ε none, .none, fun _ => rfl, fun _ => rfl⟩

theorem linear_record {mb : ℕ} {ε : F} {k : UInt64} {es : List (FlushEvent M F)}
    {w : FlushState M F} {map' grow x u}
    (hfiled : ∀ e ∈ w.map.stripes (stripeIdx x.key), e.key = x.key → e.hash = x.key)
    (h : w.map.recordSlot grow x u = some map') (hw : Linear mb ε k es w) :
    Linear mb ε k (es ++ [.record x u]) { w with map := map' } := by
  obtain ⟨habs, hother, hplaced⟩ := StripedAggMap.recordSlot_spec h
  have hs' := StripedAggMap.recordFound_stripes h
  rw [hw.maxBuckets, hw.initialError] at habs
  have hbag := bagMatches_absorbed (m := fun _ => KeyEvent.after k none (history k es)) habs
    (fromHash_bag hfiled)
  have hv : ∀ c, visits c (es ++ [FlushEvent.record x u]) = visits c es := by
    intro c
    simp [visits]
  have hevent : keyEvent k es (FlushEvent.record x u) =
      if x.key = k then [KeyEvent.record x u] else [] := by
    unfold keyEvent
    simp only
  refine ⟨?_, ?_, hplaced hw.placed, ?_, fun c => ?_, fun c => ?_⟩
  · rw [hs']
    exact hw.maxBuckets
  · rw [hs']
    exact hw.initialError
  · rw [history_snoc, hevent]
    by_cases hk : x.key = k
    · rw [hk] at hbag
      rw [if_pos hk, KeyEvent.after_record]
      exact hbag hw.bag
    · have hb : map'.bagOf k = w.map.bagOf k := hother k (Ne.symm hk)
      rw [if_neg hk, List.append_nil, hb]
      exact hw.bag
  · rw [hv]
    exact hw.next c
  · rw [history_snoc, KeyEvent.outputs_append, hevent]
    by_cases hk : x.key = k
    · rw [if_pos hk, KeyEvent.outputs, KeyEvent.outputs, List.append_nil]
      exact hw.out c
    · rw [if_neg hk, KeyEvent.outputs, List.append_nil]
      exact hw.out c

theorem linear_begin {mb : ℕ} {ε : F} {k : UInt64} {es : List (FlushEvent M F)}
    {w : FlushState M F} (hw : Linear mb ε k es w) :
    Linear mb ε k (es ++ [.begin]) { w with calls := w.calls ++ [⟨0, []⟩] } := by
  have hcall : ∀ c : ℕ, (w.calls ++ [(⟨0, []⟩ : FlushCall M F)])[c]? = w.calls[c]? ∨
      (w.calls[c]? = none ∧ (w.calls ++ [(⟨0, []⟩ : FlushCall M F)])[c]? =
        some (⟨0, []⟩ : FlushCall M F)) := by
    intro c
    rcases lt_trichotomy c w.calls.length with hc | rfl | hc
    · exact Or.inl (List.getElem?_append_left hc)
    · exact Or.inr ⟨List.getElem?_eq_none le_rfl, List.getElem?_concat_length⟩
    · refine Or.inl ?_
      rw [List.getElem?_eq_none hc.le, List.getElem?_eq_none (by rw [List.length_append]; exact hc)]
  have hhist : history k (es ++ [FlushEvent.begin]) = history k es := by
    rw [history_snoc]
    exact List.append_nil _
  refine ⟨hw.maxBuckets, hw.initialError, hw.placed, ?_, fun c => ?_, fun c => ?_⟩
  · rw [hhist]
    exact hw.bag
  · have hn := hw.next c
    rw [visits_snoc, show visits c [FlushEvent.begin] = 0 from rfl, add_zero, ← hn]
    unfold FlushState.nextOf
    rcases hcall c with h | ⟨h, h'⟩
    · rw [h]
    · rw [h, h']
      rfl
  · have ho := hw.out c
    rw [hhist, ← ho]
    unfold FlushState.outFor
    rcases hcall c with h | ⟨h, h'⟩
    · rw [h]
    · rw [h, h']
      rfl

theorem linear_stripe {mb : ℕ} {ε : F} {k : UInt64} {es : List (FlushEvent M F)}
    {w : FlushState M F} {c : ℕ} {call : FlushCall M F} {out map' scan}
    (hcall : w.calls[c]? = some call) (hn : call.next < 64)
    (h : w.map.flushStripe scan ⟨call.next, hn⟩ = (out, map')) (hw : Linear mb ε k es w) :
    Linear mb ε k (es ++ [.stripe c]) ⟨map', w.calls.set c ⟨call.next + 1, call.out ++ out⟩⟩ := by
  obtain ⟨hin, hout, hplaced⟩ := StripedAggMap.flushStripe_spec scan hw.placed ⟨call.next, hn⟩
  obtain ⟨hstripes, hmap⟩ : (w.map.flushStripe scan ⟨call.next, hn⟩).2.maxBuckets = mb ∧
      (w.map.flushStripe scan ⟨call.next, hn⟩).2.initialError = ε :=
    ⟨hw.maxBuckets, hw.initialError⟩
  rw [h] at hin hout hplaced hstripes hmap
  have hlen : c < w.calls.length := (List.getElem?_eq_some_iff.mp hcall).1
  have hself : (w.calls.set c ⟨call.next + 1, call.out ++ out⟩)[c]? =
      some ⟨call.next + 1, call.out ++ out⟩ := List.getElem?_set_self hlen
  have hne : ∀ d ≠ c, (w.calls.set c ⟨call.next + 1, call.out ++ out⟩)[d]? = w.calls[d]? :=
    fun d hd => List.getElem?_set_ne (Ne.symm hd)
  have hnext : call.next = visits c es := by
    have := hw.next c
    unfold FlushState.nextOf at this
    rwa [hcall] at this
  -- the step is in the history just if the call takes the stripe of `k`
  have hevent : keyEvent k es (.stripe c) =
      if stripeIdx k = ⟨call.next, hn⟩ then [KeyEvent.flush c] else [] := by
    rw [keyEvent, ← hnext]
    simp only [Fin.ext_iff, eq_comm]
  have hbag : BagMatches mb ε (map'.bagOf k) (KeyEvent.after k none (history k (es ++ [.stripe c]))) ∧
      outOf out k = KeyEvent.outputs mb ε k c (KeyEvent.after k none (history k es))
        (keyEvent k es (.stripe c)) := by
    rw [history_snoc, hevent]
    by_cases hk : stripeIdx k = ⟨call.next, hn⟩
    · obtain ⟨ho, hb⟩ := bagMatches_drained
        (m := fun _ => KeyEvent.after k none (history k es)) (hin k hk) hw.bag
      rw [if_pos hk, KeyEvent.after_flush]
      refine ⟨hb, ho.trans ?_⟩
      rw [KeyEvent.outputs, if_pos rfl, KeyEvent.outputs, List.append_nil]
    · obtain ⟨ho, hb⟩ := hout k hk
      rw [if_neg hk, List.append_nil, hb]
      exact ⟨hw.bag, ho⟩
  refine ⟨hstripes, hmap, hplaced, hbag.1, fun d => ?_, fun d => ?_⟩
  · have hd := hw.next d
    rw [visits_snoc, visits_stripe]
    unfold FlushState.nextOf at hd ⊢
    by_cases hdc : d = c
    · subst hdc
      rw [hself, if_pos rfl, ← hnext]
      rfl
    · rw [hne d hdc, if_neg (Ne.symm hdc), add_zero]
      exact hd
  · have hd := hw.out d
    rw [history_snoc, KeyEvent.outputs_append, ← hd]
    unfold FlushState.outFor
    by_cases hdc : d = c
    · subst hdc
      rw [hself, hcall, ← hbag.2]
      exact outOf_append _ _ _
    · rw [hne d hdc, hevent]
      split_ifs
      · rw [KeyEvent.outputs, if_neg (Ne.symm hdc)]
        exact (List.append_nil _).symm
      · exact (List.append_nil _).symm

theorem linear_run {makeHash} {mb : ℕ} {ε : F} {es : List (FlushEvent M F)} {w : FlushState M F}
    (h : Run FoundStep (.init makeHash mb ε) es w) (k : UInt64) : Linear mb ε k es w := by
  refine h.inv (I := fun es w => Linear mb ε k es w) (linear_init makeHash mb ε k) ?_
  intro es t e u ht hstep
  cases hstep with
  | record hfiled h => exact linear_record hfiled h ht
  | begin => exact linear_begin ht
  | stripe hc hn h => exact linear_stripe hc hn h ht

theorem outputs_run {makeHash} {mb : ℕ} {ε : F} {es : List (FlushEvent M F)} {w : FlushState M F}
    (h : Run FoundStep (.init makeHash mb ε) es w) {c : ℕ} {call : FlushCall M F}
    (hc : w.calls[c]? = some call) (k : UInt64) :
    outOf call.out k = KeyEvent.outputs mb ε k c none (history k es) := by
  have hout := (linear_run h k).out c
  rw [FlushState.outFor, hc] at hout
  exact hout

/-! ### One report a flush -/

omit [AddCommMonoid M] [FloatOps F] [FloatBits F] in
theorem mem_keyEvent {k : UInt64} {es : List (FlushEvent M F)} {e : FlushEvent M F}
    {a : KeyEvent M F} : a ∈ keyEvent k es e ↔
      (∃ x u, e = .record x u ∧ x.key = k ∧ a = .record x u) ∨
      ∃ c, e = .stripe c ∧ visits c es = (stripeIdx k).val ∧ a = .flush c := by
  cases e with
  | record x u =>
    simp only [keyEvent, List.mem_ite_nil_right, List.mem_singleton]
    aesop
  | begin => simp [keyEvent]
  | stripe c =>
    simp only [keyEvent, List.mem_ite_nil_right, List.mem_singleton]
    aesop

omit [AddCommMonoid M] [FloatOps F] [FloatBits F] in
/-- A flush in the history is past the stripe. -/
theorem visits_of_flush_mem {k : UInt64} {c : ℕ} (es : List (FlushEvent M F)) :
    KeyEvent.flush c ∈ history k es → (stripeIdx k).val < visits c es := by
  induction es using List.reverseRecOn with
  | nil => simp [history, historyFrom]
  | append_singleton es e ih =>
    intro hc
    rw [history_snoc, List.mem_append, mem_keyEvent] at hc
    rw [visits_snoc]
    rcases hc with hc | ⟨x, u, -, -, hu⟩ | ⟨d, rfl, hd, hcd⟩
    · exact (ih hc).trans_le (Nat.le_add_right _ _)
    · simp at hu
    · obtain rfl : c = d := by simpa using hcd
      rw [hd, visits_stripe, if_pos rfl]
      exact Nat.lt_succ_self _

def KeyEvent.flushed : KeyEvent M F → Option ℕ
  | record _ _ => none
  | flush c => some c

omit [AddCommMonoid M] [FloatOps F] [FloatBits F] in
@[simp] theorem KeyEvent.flushed_record (x : Series) (u : Update M F) :
    (record x u).flushed = none := rfl

omit [AddCommMonoid M] [FloatOps F] [FloatBits F] in
@[simp] theorem KeyEvent.flushed_flush (c : ℕ) : (flush c : KeyEvent M F).flushed = some c := rfl

omit [AddCommMonoid M] [FloatOps F] [FloatBits F] in
theorem KeyEvent.flushed_eq_some {a : KeyEvent M F} {c : ℕ} : a.flushed = some c ↔ a = flush c := by
  cases a <;> simp

omit [AddCommMonoid M] [FloatOps F] [FloatBits F] in
/-- A flush takes the stripe once. -/
theorem nodup_flushed {k : UInt64} (es : List (FlushEvent M F)) :
    ((history k es).filterMap KeyEvent.flushed).Nodup := by
  induction es using List.reverseRecOn with
  | nil => simp [history, historyFrom]
  | append_singleton es e ih =>
    have hlate : ∀ c, KeyEvent.flush c ∈ keyEvent k es e → KeyEvent.flush c ∉ history k es := by
      intro c hc hmem
      obtain ⟨x, u, -, -, hu⟩ | ⟨d, -, hd, hcd⟩ := mem_keyEvent.mp hc
      · simp at hu
      · obtain rfl : c = d := by simpa using hcd
        exact (visits_of_flush_mem es hmem).ne' hd
    have hone : ((keyEvent k es e).filterMap KeyEvent.flushed).Nodup := by
      cases e with
      | record x u =>
        have hnone : (keyEvent k es (.record x u)).filterMap KeyEvent.flushed = [] := by
          rw [List.filterMap_eq_nil_iff]
          intro a ha
          obtain ⟨_, _, -, -, rfl⟩ | ⟨_, he, -⟩ := mem_keyEvent.mp ha
          · rfl
          · simp at he
        rw [hnone]
        exact List.nodup_nil
      | begin => simp [keyEvent]
      | stripe c =>
        by_cases hc : visits c es = (stripeIdx k).val <;> simp [keyEvent, hc]
    rw [history_snoc, List.filterMap_append]
    refine ih.append hone ?_
    intro c hc hc'
    simp only [List.mem_filterMap, KeyEvent.flushed_eq_some, exists_eq_right] at hc hc'
    exact hlate c hc' hc

omit [AddCommMonoid M] [FloatOps F] [FloatBits F] in
theorem flush_once {k : UInt64} {c : ℕ} {es : List (FlushEvent M F)}
    {pre post : List (KeyEvent M F)} (h : history k es = pre ++ .flush c :: post) :
    KeyEvent.flush c ∉ pre ∧ KeyEvent.flush c ∉ post := by
  have hnodup := nodup_flushed (k := k) es
  rw [h, List.filterMap_append, List.filterMap_cons_some (KeyEvent.flushed_flush c),
    List.nodup_middle, List.nodup_cons, List.mem_append, not_or] at hnodup
  have hmem : ∀ {l : List (KeyEvent M F)}, c ∉ l.filterMap KeyEvent.flushed →
      KeyEvent.flush c ∉ l := fun hl hc => hl (List.mem_filterMap.mpr ⟨_, hc, rfl⟩)
  exact ⟨hmem hnodup.1.1, hmem hnodup.1.2⟩

theorem KeyEvent.outputs_of_notMem (mb : ℕ) (ε : F) (k : UInt64) (c : ℕ) :
    ∀ (v : Option (AggKey × PlainSlot M F)) (hist : List (KeyEvent M F)), flush c ∉ hist →
      outputs mb ε k c v hist = []
  | _, [], _ => rfl
  | v, record x u :: hist, h =>
    outputs_of_notMem mb ε k c _ hist fun hm => h (List.mem_cons_of_mem _ hm)
  | v, flush d :: hist, h => by
    have hd : d ≠ c := by
      rintro rfl
      exact h List.mem_cons_self
    rw [outputs, if_neg hd, List.nil_append]
    exact outputs_of_notMem mb ε k c _ hist fun hm => h (List.mem_cons_of_mem _ hm)

/-- What a flush puts out for `k` when the events `pre` come before it. -/
def KeyEvent.reported (mb : ℕ) (ε : F) (k : UInt64) (pre : List (KeyEvent M F)) :
    List (FlushedMetric M F) :=
  (PlainMap.report mb ε (fun _ => KeyEvent.after k none pre) k).toList

theorem outOf_eq_reported {makeHash} {mb : ℕ} {ε : F} {es : List (FlushEvent M F)}
    {w : FlushState M F} (h : Run FoundStep (.init makeHash mb ε) es w) {c : ℕ}
    {call : FlushCall M F} (hc : w.calls[c]? = some call) {k : UInt64}
    {pre post : List (KeyEvent M F)} (hk : history k es = pre ++ .flush c :: post) :
    outOf call.out k = KeyEvent.reported mb ε k pre := by
  obtain ⟨hpre, hpost⟩ := flush_once hk
  rw [outputs_run h hc, hk, KeyEvent.outputs_append, KeyEvent.outputs_of_notMem mb ε k c none _ hpre,
    List.nil_append, KeyEvent.outputs, if_pos rfl, KeyEvent.outputs_of_notMem mb ε k c _ _ hpost,
    List.append_nil]
  rfl

/-- **For each key a flush is one step**: it puts out what the plain map reports
at its place in the history, and nothing before it has one. -/
theorem flush_linear {makeHash} {mb : ℕ} {ε : F} {es : List (FlushEvent M F)}
    {w : FlushState M F} (h : Run FoundStep (.init makeHash mb ε) es w) {c : ℕ}
    {call : FlushCall M F} (hc : w.calls[c]? = some call) (k : UInt64) :
    (∀ pre post, history k es = pre ++ .flush c :: post →
      outOf call.out k = KeyEvent.reported mb ε k pre) ∧
    (KeyEvent.flush c ∉ history k es → outOf call.out k = []) := by
  refine ⟨fun pre post hk => outOf_eq_reported h hc hk, fun hk => ?_⟩
  rw [outputs_run h hc]
  exact KeyEvent.outputs_of_notMem mb ε k c none _ hk

end

/-- A record call and two flushes that go through the first stripe. -/
theorem run_twice {F : Type} [FloatOps F] [FloatBits F] (ε : F) (u : Update (BitVec 64) F)
    (h : ((StripedAggMap.new (fun _ k => k) 200 ε none).recordSlot true
      ⟨⟨0, []⟩, [], 0, []⟩ u).isSome) :
    ∃ w : FlushState (BitVec 64) F, Run FoundStep (.init (fun _ k => k) 200 ε)
      [.record ⟨⟨0, []⟩, [], 0, []⟩ u, .begin, .stripe 0, .begin, .stripe 1] w ∧
      w.calls.length = 2 := by
  obtain ⟨s, hs⟩ := Option.isSome_iff_exists.mp h
  have hempty : ∀ e ∈ (FlushState.init (M := BitVec 64) (fun _ k => k) 200 ε).map.stripes
      (stripeIdx (Series.key ⟨⟨0, []⟩, [], 0, []⟩)),
      e.key = Series.key ⟨⟨0, []⟩, [], 0, []⟩ → e.hash = Series.key ⟨⟨0, []⟩, [], 0, []⟩ :=
    fun e he => absurd he List.not_mem_nil
  have hflush : ∀ (m : StripedAggMap (BitVec 64) F) (i : Fin 64),
      m.flushStripe (fun _ => .id) i = ((m.flushStripe (fun _ => .id) i).1,
        (m.flushStripe (fun _ => .id) i).2) := fun _ _ => rfl
  have h64 : 0 < 64 := by decide
  exact ⟨_, ((((Run.nil.snoc (.record hempty hs)).snoc .begin).snoc
    (.stripe rfl h64 (hflush _ _))).snoc .begin).snoc (.stripe rfl h64 (hflush _ _)), rfl⟩

/-- The first flush reports the delta of 5. -/
theorem flush_linear_five : ∃ (w : FlushState (BitVec 64) F64) (call : FlushCall (BitVec 64) F64),
    Run FoundStep (.init (fun _ k => k) 200 0.001)
      [.record ⟨⟨0, []⟩, [], 0, []⟩ (.count 5), .begin, .stripe 0, .begin, .stripe 1] w ∧
    w.calls[0]? = some call ∧ outOf call.out 0 =
      KeyEvent.reported 200 0.001 0 [.record ⟨⟨0, []⟩, [], 0, []⟩ (.count 5)] := by
  obtain ⟨w, hw, hlen⟩ := run_twice (F := F64) 0.001 (.count 5) (by decide +kernel)
  obtain ⟨call, hc⟩ : ∃ call, w.calls[0]? = some call := ⟨w.calls[0], List.getElem?_eq_getElem _⟩
  exact ⟨w, call, hw, hc, (flush_linear hw hc 0).1 _ [.flush 1] rfl⟩

end ChalkMetrics
