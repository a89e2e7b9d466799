/-
# Recorders and flushers at once

`FlushStep`: any number of record calls, each one step on its stripe, and of
flushes, each 64 steps, one a stripe, in any interleaving. A record call may
find an entry of its key or miss it. What is in the map under a key and what
the flushes, finished or not, have put out for it add up to what was recorded
(`conserved_run`), for anything that adds up over the updates of one kind
(`Measure`): the deltas of counts, the number of values of histograms.

Key definitions: `FlushState`, `FlushStep`, `Measure`.
-/
import ChalkMetrics.Aggregator.Bags
import ChalkMetrics.Lib.Run
import Mathlib.Algebra.BigOperators.Group.List.Basic
import Mathlib.Data.BitVec
import Mathlib.Tactic.Abel

namespace ChalkMetrics

open HashTable Runs

/-! ### The system -/

/-- A flush in progress: the stripes it has been through, what it has put out. -/
structure FlushCall (M F : Type) where
  next : ℕ
  out : List (UInt64 × FlushedMetric M F)

/-- The map and all flushes begun so far; one with `next = 64` is finished. -/
structure FlushState (M F : Type) [FloatOps F] where
  map : StripedAggMap M F
  calls : List (FlushCall M F)

section

variable {M F : Type} [AddCommMonoid M] [FloatOps F] [FloatBits F]

inductive FlushEvent (M F : Type) where
  | record (x : Series) (u : Update M F)
  | begin
  | stripe (call : ℕ)

inductive FlushStep : FlushState M F → FlushEvent M F → FlushState M F → Prop
  | record {w : FlushState M F} {map' grow x u entry}
      (hf : Finds (w.map.stripes (stripeIdx x.key)) x.key entry)
      (h : w.map.recordFound grow x u entry = some map') :
      FlushStep w (.record x u) { w with map := map' }
  | begin {w : FlushState M F} : FlushStep w .begin { w with calls := w.calls ++ [⟨0, []⟩] }
  | stripe {w : FlushState M F} {c : ℕ} {call : FlushCall M F} {out map' scan}
      (hc : w.calls[c]? = some call) (hn : call.next < 64)
      (h : w.map.flushStripe scan ⟨call.next, hn⟩ = (out, map')) :
      FlushStep w (.stripe c)
        ⟨map', w.calls.set c ⟨call.next + 1, call.out ++ out⟩⟩

def FlushState.init (makeHash : Fin 64 → UInt64 → UInt64) (mb : ℕ) (ε : F) : FlushState M F := ⟨.new makeHash mb ε none, []⟩

/-- The record calls on the key `k`. -/
def updatesOn (k : UInt64) : List (FlushEvent M F) → List (Update M F)
  | [] => []
  | .record x u :: es => if x.key = k then u :: updatesOn k es else updatesOn k es
  | .begin :: es => updatesOn k es
  | .stripe _ :: es => updatesOn k es

/-- What all flushes have put out for the key `k`. -/
def FlushState.outOn (w : FlushState M F) (k : UInt64) : List (FlushedValue M F) :=
  w.calls.flatMap fun c => (outOf c.out k).map FlushedMetric.value

/-- The slots in the map under `k`. -/
def FlushState.slotsOn (w : FlushState M F) (k : UInt64) : List (AggSlot M F) :=
  (w.map.bagOf k).map Prod.snd

/-! ### What adds up -/

/-- A quantity of slots, flushed values and updates of one kind that record
calls add to and a flush passes on. -/
structure Measure (M F W : Type) [AddCommMonoid M] [FloatOps F] [FloatBits F] [AddCommMonoid W] where
  kind : MetricKind
  slot : AggSlot M F → W
  value : FlushedValue M F → W
  update : Update M F → W
  created : ∀ {mb ε u s}, AggSlot.Created mb ε u s → u.kind = kind → slot s = update u
  recorded : ∀ {u s s'}, AggSlot.Recorded u s s' → u.kind = kind → s.kind = kind →
    slot s' = slot s + update u
  flushed : ∀ s : AggSlot M F, s.kind = kind →
    (s.flush.1.elim 0 value) + (s.flush.2.elim 0 slot) = slot s

def AggSlot.countValue : AggSlot M F → M
  | .count s => s.value
  | _ => 0

def FlushedValue.countValue : FlushedValue M F → M
  | .count value => value
  | _ => 0

def Update.delta : Update M F → M
  | .count delta => delta
  | _ => 0

omit [AddCommMonoid M] [FloatBits F] in
/-- `num_values` of a histogram's sketch. -/
def AggSlot.numValues : AggSlot M F → ℕ
  | .histogram s => s.sketch.numValues
  | _ => 0

omit [AddCommMonoid M] [FloatOps F] [FloatBits F] in
def FlushedValue.numValues : FlushedValue M F → ℕ
  | .histogram sketch => sketch.numValues
  | _ => 0

/-- 1 for a histogram's value that is not NaN. -/
def Update.numValues : Update M F → ℕ
  | .histogram value => if FloatOps.isNaN value then 0 else 1
  | _ => 0

/-- The deltas of counts. -/
def countMeasure (M F : Type) [AddCommMonoid M] [FloatOps F] [FloatBits F] : Measure M F M where
  kind := .count
  slot := AggSlot.countValue
  value := FlushedValue.countValue
  update := Update.delta
  created h hk := by
    cases h with
    | count delta => exact zero_add delta
    | gauge value => cases hk
    | histogram _ _ => cases hk
  recorded h hk hs := by
    cases h with
    | other hne => exact absurd (hk.trans hs.symm) hne
    | count delta s => rfl
    | gauge value s => cases hk
    | histogram _ => cases hk
  flushed s hs := by
    cases s with
    | count s => exact add_zero s.value
    | gauge s => cases hs
    | histogram s => cases hs

/-- The values of histograms that are not NaN. -/
def valuesMeasure (M F : Type) [AddCommMonoid M] [FloatOps F] [FloatBits F] : Measure M F ℕ where
  kind := .histogram
  slot := AggSlot.numValues
  value := FlushedValue.numValues
  update := Update.numValues
  created h hk := by
    cases h with
    | count delta => cases hk
    | gauge value => cases hk
    | @histogram value s s' hn h =>
      obtain ⟨sk, hsk, h⟩ := Option.bind_eq_some_iff.mp h
      unfold HistogramSlot.new at hn
      split_ifs at hn
      obtain rfl := Option.some.inj hn
      obtain rfl := Option.some.inj h
      exact (UDDSketch.addValue_numValues hsk).trans (Nat.zero_add _)
  recorded h hk hs := by
    cases h with
    | other hne => exact absurd (hk.trans hs.symm) hne
    | count delta s => cases hk
    | gauge value s => cases hk
    | @histogram value s s' h =>
      obtain ⟨sk, hsk, h⟩ := Option.bind_eq_some_iff.mp h
      obtain rfl := Option.some.inj h
      exact UDDSketch.addValue_numValues hsk
  flushed s hs := by
    cases s with
    | count s => cases hs
    | gauge s => cases hs
    | histogram s =>
      by_cases h0 : s.sketch.numValues > 0
      · have he : (AggSlot.histogram s : AggSlot M F).flush.1 = some (.histogram s.sketch) :=
          if_pos h0
        rw [he]
        rfl
      · have he : (AggSlot.histogram s : AggSlot M F).flush.1 = none := if_neg h0
        rw [he]
        exact (Nat.eq_zero_of_not_pos h0).symm

/-! ### Conservation -/

variable {W : Type} [AddCommMonoid W]

/-- What the slots of a bag add up to. -/
def Measure.ofBag (μ : Measure M F W) (b : List (AggKey × AggSlot M F)) : W :=
  (b.map fun v => μ.slot v.2).sum

/-- What flushed metrics add up to. -/
def Measure.ofOut (μ : Measure M F W) (out : List (FlushedMetric M F)) : W :=
  (out.map fun m => μ.value m.value).sum

/-- Every slot of the bag is of the kind the measure is about. -/
def Measure.Pure (μ : Measure M F W) (b : List (AggKey × AggSlot M F)) : Prop :=
  ∀ v ∈ b, v.2.kind = μ.kind

theorem Measure.absorbed (μ : Measure M F W) {mb : ℕ} {ε : F} {x u entry}
    {b b' : List (AggKey × AggSlot M F)} (h : StripedAggMap.Absorbed mb ε x u entry b b')
    (hu : u.kind = μ.kind) (hb : μ.Pure b) :
    μ.Pure b' ∧ μ.ofBag b' = μ.ofBag b + μ.update u := by
  cases h with
  | @found i l r a slot slot' hr =>
    have hs : slot.kind = μ.kind := hb (a, slot) (by simp)
    constructor
    · intro v hv
      rcases List.mem_append.mp hv with hv | hv
      · exact hb v (List.mem_append_left _ hv)
      · rcases List.mem_cons.mp hv with rfl | hv
        · exact hr.kind.trans hs
        · exact hb v (List.mem_append_right _ (List.mem_cons_of_mem _ hv))
    · simp only [ofBag, List.map_append, List.map_cons, List.sum_append, List.sum_cons,
        μ.recorded hr hu hs]
      abel
  | created hc =>
    constructor
    · intro v hv
      rcases List.mem_cons.mp hv with rfl | hv
      · exact hc.kind.trans hu
      · exact hb v hv
    · simp only [ofBag, List.map_cons, List.sum_cons, μ.created hc hu]
      abel

theorem Measure.drained (μ : Measure M F W) {k : UInt64} {b b' : List (AggKey × AggSlot M F)} {out}
    (h : StripedAggMap.Drained k b out b') (hb : μ.Pure b) :
    μ.Pure b' ∧ μ.ofOut out + μ.ofBag b' = μ.ofBag b := by
  obtain ⟨l, hperm, rfl, rfl⟩ := h
  have hl : μ.Pure l := fun v hv => hb v (hperm.subset hv)
  have hsum : μ.ofBag b = μ.ofBag l :=
    (hperm.map fun v : AggKey × AggSlot M F => μ.slot v.2).sum_eq.symm
  rw [hsum]
  clear hsum hperm hb
  induction l with
  | nil => exact ⟨hl, add_zero _⟩
  | cons v l ih =>
    obtain ⟨hpure, hih⟩ := ih fun w hw => hl w (List.mem_cons_of_mem _ hw)
    have hv := hl v List.mem_cons_self
    have hflush := μ.flushed v.2 hv
    have hkeep : ∀ s, v.2.flush.2 = some s → s.kind = μ.kind := by
      intro s hs
      rw [AggSlot.flush_retained hs, hv]
    simp only [List.filterMap_cons, StripedAggMap.drainEntry]
    rcases h1 : v.2.flush.1 with _ | o <;> rcases h2 : v.2.flush.2 with _ | s <;>
      simp only [h1, h2, Option.map_none, Option.map_some, Option.elim_none, Option.elim_some] at hflush ⊢
    all_goals
      refine ⟨?_, ?_⟩
      · intro w hw
        first
          | exact hpure w hw
          | (rcases List.mem_cons.mp hw with rfl | hw
             · exact hkeep s h2
             · exact hpure w hw)
      · simp only [ofOut, ofBag, List.map_cons, List.sum_cons, StripedAggMap.drainEntry] at hih ⊢
        rw [← hflush, ← hih]
        abel

omit [AddCommMonoid M] [FloatOps F] [FloatBits F] in
theorem updatesOn_append (k : UInt64) (es es' : List (FlushEvent M F)) :
    updatesOn k (es ++ es') = updatesOn k es ++ updatesOn k es' := by
  induction es with
  | nil => rfl
  | cons e es ih =>
    cases e with
    | record x u =>
      simp only [List.cons_append, updatesOn, ih]
      split_ifs <;> rfl
    | begin => exact ih
    | stripe c => exact ih

/-- What all flushes have put out for `k` adds up to. -/
def Measure.ofCalls (μ : Measure M F W) (calls : List (FlushCall M F)) (k : UInt64) : W :=
  (calls.map fun c => μ.ofOut (outOf c.out k)).sum

/-- The flushes and the map together have what was recorded under `k`. -/
def Conserved (μ : Measure M F W) (es : List (FlushEvent M F)) (w : FlushState M F) : Prop :=
  w.map.Placed ∧ ∀ k, (∀ u ∈ updatesOn k es, u.kind = μ.kind) →
    μ.Pure (w.map.bagOf k) ∧
      μ.ofCalls w.calls k + μ.ofBag (w.map.bagOf k) = ((updatesOn k es).map μ.update).sum

theorem conserved_record {μ : Measure M F W} {es : List (FlushEvent M F)} {w : FlushState M F}
    {map' grow x u entry} (hf : Finds (w.map.stripes (stripeIdx x.key)) x.key entry)
    (h : w.map.recordFound grow x u entry = some map') (hc : Conserved μ es w) :
    Conserved μ (es ++ [.record x u]) { w with map := map' } := by
  obtain ⟨habs, hother, hplaced⟩ := StripedAggMap.recordFound_spec h hf
  refine ⟨hplaced hc.1, fun k hk => ?_⟩
  rw [updatesOn_append] at hk ⊢
  obtain ⟨hpure, hsum⟩ := hc.2 k fun v hv => hk v (List.mem_append_left _ hv)
  by_cases hkx : x.key = k
  · subst hkx
    have hu : updatesOn x.key [FlushEvent.record x u] = [u] := if_pos rfl
    rw [hu] at hk ⊢
    obtain ⟨hpure', hsum'⟩ := μ.absorbed habs (hk u (by simp)) hpure
    refine ⟨hpure', ?_⟩
    rw [hsum', ← add_assoc, hsum, List.map_append, List.sum_append, List.map_singleton,
      List.sum_singleton]
  · have hu : updatesOn k [FlushEvent.record x u] = [] := if_neg hkx
    rw [hu, List.append_nil]
    rw [hother k (Ne.symm hkx)]
    exact ⟨hpure, hsum⟩

theorem conserved_stripe {μ : Measure M F W} {es : List (FlushEvent M F)} {w : FlushState M F}
    {c : ℕ} {call : FlushCall M F} {out map' scan} (hcall : w.calls[c]? = some call)
    (hn : call.next < 64) (h : w.map.flushStripe scan ⟨call.next, hn⟩ = (out, map'))
    (hc : Conserved μ es w) :
    Conserved μ (es ++ [.stripe c])
      ⟨map', w.calls.set c ⟨call.next + 1, call.out ++ out⟩⟩ := by
  obtain ⟨hin, hout, hplaced⟩ := StripedAggMap.flushStripe_spec scan hc.1 ⟨call.next, hn⟩
  rw [h] at hin hout hplaced
  obtain ⟨l, r, hl, hset⟩ := set_split hcall
  refine ⟨hplaced, fun k hk => ?_⟩
  have hu : updatesOn k (es ++ [FlushEvent.stripe c]) = updatesOn k es := by
    rw [updatesOn_append]
    exact List.append_nil _
  rw [hu] at hk ⊢
  obtain ⟨hpure, hsum⟩ := hc.2 k hk
  rw [hset]
  rw [hl] at hsum
  simp only [Measure.ofCalls, List.map_append, List.map_cons, List.sum_append, List.sum_cons,
    outOf_append, Measure.ofOut] at hsum ⊢
  by_cases hki : stripeIdx k = ⟨call.next, hn⟩
  · obtain ⟨hpure', hsum'⟩ := μ.drained (hin k hki) hpure
    refine ⟨hpure', ?_⟩
    rw [← hsum, ← hsum']
    simp only [Measure.ofOut]
    abel
  · obtain ⟨ho, hb⟩ := hout k hki
    rw [hb]
    refine ⟨hpure, ?_⟩
    rw [← hsum, ho, List.map_nil, List.sum_nil]
    abel

theorem conserved_step {μ : Measure M F W} {es : List (FlushEvent M F)} {w w' : FlushState M F}
    {e : FlushEvent M F} (h : FlushStep w e w') (hc : Conserved μ es w) :
    Conserved μ (es ++ [e]) w' := by
  cases h with
  | record hf h => exact conserved_record hf h hc
  | begin =>
    refine ⟨hc.1, fun k hk => ?_⟩
    have hu : updatesOn k (es ++ [FlushEvent.begin]) = updatesOn k es := by
      rw [updatesOn_append]
      exact List.append_nil _
    rw [hu] at hk ⊢
    obtain ⟨hpure, hsum⟩ := hc.2 k hk
    refine ⟨hpure, ?_⟩
    rw [← hsum]
    simp [Measure.ofCalls, Measure.ofOut, outOf]
  | stripe hcall hn h => exact conserved_stripe hcall hn h hc

/-- **Nothing that adds up is lost or duplicated**, in any interleaving. -/
theorem conserved_run (μ : Measure M F W) {makeHash} {mb : ℕ} {ε : F}
    {es : List (FlushEvent M F)} {w : FlushState M F}
    (h : Run FlushStep (.init makeHash mb ε) es w) : Conserved μ es w := by
  refine h.inv (I := fun es w => Conserved μ es w) ⟨fun _ _ _ => rfl, fun k _ => ⟨?_, ?_⟩⟩ ?_
  · intro v hv
    exact absurd hv List.not_mem_nil
  · exact add_zero 0
  · intro es t e u ht hstep
    exact conserved_step hstep ht

theorem Measure.conserved (μ : Measure M F W) {makeHash} {mb : ℕ} {ε : F}
    {es : List (FlushEvent M F)} {w : FlushState M F}
    (h : Run FlushStep (.init makeHash mb ε) es w) {k : UInt64}
    (hk : ∀ u ∈ updatesOn k es, u.kind = μ.kind) :
    ((w.outOn k).map μ.value).sum + ((w.slotsOn k).map μ.slot).sum =
      ((updatesOn k es).map μ.update).sum := by
  have hsum := ((conserved_run μ h).2 k hk).2
  have hout : ((w.outOn k).map μ.value).sum = μ.ofCalls w.calls k := by
    unfold FlushState.outOn Measure.ofCalls
    induction w.calls with
    | nil => rfl
    | cons c calls ih =>
      rw [List.flatMap_cons, List.map_append, List.sum_append, ih, List.map_cons, List.sum_cons,
        Measure.ofOut, List.map_map]
      rfl
  have hin : ((w.slotsOn k).map μ.slot).sum = μ.ofBag (w.map.bagOf k) := by
    rw [FlushState.slotsOn, Measure.ofBag, List.map_map]
    rfl
  rw [hout, hin, hsum]

end

variable {F : Type} [FloatOps F] [FloatBits F]

/-- **No update is lost or duplicated**: at any moment of any interleaving, what
the flushes have put out for a key and what is stored under it are the deltas
recorded, or as many values as were recorded and are not NaN. -/
theorem no_update_lost {makeHash} {mb : ℕ} {ε : F} {es : List (FlushEvent (BitVec 64) F)}
    {w : FlushState (BitVec 64) F} (h : Run FlushStep (.init makeHash mb ε) es w) (k : UInt64) :
    ((∀ u ∈ updatesOn k es, u.kind = .count) →
      ((w.outOn k).map FlushedValue.countValue).sum + ((w.slotsOn k).map AggSlot.countValue).sum =
        ((updatesOn k es).map Update.delta).sum) ∧
    ((∀ u ∈ updatesOn k es, u.kind = .histogram) →
      ((w.outOn k).map FlushedValue.numValues).sum + ((w.slotsOn k).map AggSlot.numValues).sum =
        ((updatesOn k es).map Update.numValues).sum) := by
  constructor
  · intro hk
    exact (countMeasure (BitVec 64) F).conserved h hk
  · intro hk
    exact (valuesMeasure (BitVec 64) F).conserved h hk

/-- A delta of 5, then 7 more behind a flush that has done the first stripe. -/
theorem no_update_lost_two : ∃ w : FlushState (BitVec 64) F64,
    Run FlushStep (.init (fun _ k => k) 200 0.001)
      [.record ⟨⟨0, []⟩, [], 0, []⟩ (.count 5), .begin, .stripe 0,
        .record ⟨⟨0, []⟩, [], 0, []⟩ (.count 7)] w ∧
    ((w.outOn 0).map FlushedValue.countValue).sum + ((w.slotsOn 0).map AggSlot.countValue).sum =
      12 := by
  set x : Series := ⟨⟨0, []⟩, [], 0, []⟩ with hx
  set s₀ : StripedAggMap (BitVec 64) F64 := .new (fun _ k => k) 200 0.001 none with hs₀
  have hmiss : ∀ (t : Stripe (BitVec 64) F64) (k : UInt64), Finds t k .vacant := fun _ _ => trivial
  have h₁ : (s₀.recordFound true x (.count 5) .vacant).isSome := by
    rw [hs₀]
    decide +kernel
  obtain ⟨s₁, h₁⟩ := Option.isSome_iff_exists.mp h₁
  obtain ⟨s₃, h₃⟩ : ∃ s₃, (s₁.flushStripe (fun _ => .id) 0).2.recordFound true x (.count 7) .vacant =
      some s₃ := ⟨_, rfl⟩
  have h₂ : s₁.flushStripe (fun _ => .id) ⟨0, by decide⟩ =
      ((s₁.flushStripe (fun _ => .id) 0).1, (s₁.flushStripe (fun _ => .id) 0).2) := rfl
  have hrun : Run FlushStep (.init (fun _ k => k) 200 0.001)
      [.record x (.count 5), .begin, .stripe 0, .record x (.count 7)] ⟨s₃, _⟩ :=
    (((Run.nil.snoc (.record (hmiss _ _) h₁)).snoc .begin).snoc
      (.stripe rfl (by decide) h₂)).snoc (.record (hmiss _ _) h₃)
  exact ⟨_, hrun, ((no_update_lost hrun 0).1 (by decide)).trans (by decide)⟩

end ChalkMetrics
