/-
# The striped map against a plain map

`PlainMap` is what the aggregator is for: one slot per combined key, holding
the updates since the last flush, the last value for a gauge. A flush reports
every key once (`Reports`). The striped map does that as long as every record
call finds the entry it has for its key under that key (`Filed`): then each bag
has at most one value (`Refines`), and the flushes are those of the plain map
(`flush_reports`).

It does not always. `insert_hashed_nocheck` files a new entry under the key,
but when an insertion makes the table grow, the older entries are filed anew
under the table's own hash of the key. The next record call of such a series
does not find its entry and makes a second one (`flush_after_growth`).

Key definitions: `PlainMap`, `MapStep`, `Reports`, `Filed`.
-/
import ChalkMetrics.Aggregator.Bags
import ChalkMetrics.Lib.Run
import Mathlib.Data.BitVec

namespace ChalkMetrics

open HashTable Runs

/-! ### The plain map -/

/-- What a key has seen: the deltas and the values since the last flush, the
last gauge value ever. -/
inductive PlainSlot (M F : Type) where
  | count (deltas : List M)
  | gauge (value : F)
  | histogram (values : List F)

abbrev PlainMap (M F : Type) := UInt64 → Option (AggKey × PlainSlot M F)

namespace PlainSlot

variable {M F : Type}

def ofUpdate : Update M F → PlainSlot M F
  | .count delta => count [delta]
  | .gauge value => gauge value
  | .histogram value => histogram [value]

def add : PlainSlot M F → Update M F → PlainSlot M F
  | count deltas, .count delta => count (deltas ++ [delta])
  | gauge _, .gauge value => gauge value
  | histogram values, .histogram value => histogram (values ++ [value])
  | slot, _ => slot

def isGauge : PlainSlot M F → Bool
  | gauge _ => true
  | _ => false

end PlainSlot

/-- The sketch of `values`, added one by one. -/
def sketchOf {F : Type} [FloatOps F] (mb : ℕ) (ε : F) (values : List F) : Option (UDDSketch F) :=
  values.foldlM UDDSketch.addValue (.empty mb ε)

section

variable {M F : Type} [AddCommMonoid M] [FloatOps F] [FloatBits F]

/-- The value a flush reports: the sum of the deltas, the gauge unless its bits
are the sentinel, the sketch unless all values are NaN. -/
def PlainSlot.report (mb : ℕ) (ε : F) : PlainSlot M F → Option (FlushedValue M F)
  | count deltas => some (.count deltas.sum)
  | gauge value => if FloatBits.toBits value = GaugeSlot.unset then none else some (.gauge value)
  | histogram values =>
    if values.all FloatOps.isNaN then none else (sketchOf mb ε values).map .histogram

namespace PlainMap

def record (m : PlainMap M F) (x : Series) (u : Update M F) : PlainMap M F :=
  Function.update m x.key (some (match m x.key with
    | some (a, slot) => (a, slot.add u)
    | none => (x.aggKey, .ofUpdate u)))

/-- Gauges stay. -/
def flush (m : PlainMap M F) : PlainMap M F := fun k => (m k).filter fun v => v.2.isGauge

def report (mb : ℕ) (ε : F) (m : PlainMap M F) (k : UInt64) : Option (FlushedMetric M F) :=
  (m k).bind fun v => (v.2.report mb ε).map fun value =>
    ⟨v.1.namespacePath, v.1.metricName, v.1.tagsData, value⟩

/-- The metrics are those of the keys that have something to report, each once. -/
def Reports (mb : ℕ) (ε : F) (m : PlainMap M F) (out : List (FlushedMetric M F)) : Prop :=
  ∃ ks : List UInt64, ks.Nodup ∧ (∀ k, k ∈ ks ↔ (m.report mb ε k).isSome) ∧
    out = ks.filterMap (m.report mb ε)

end PlainMap

/-! ### Runs -/

inductive MapEvent (M F : Type) [FloatOps F] where
  | record (grow : Bool) (x : Series) (u : Update M F)
  | flush (scan : Fin 64 → Scan) (out : List (FlushedMetric M F))

inductive MapStep : StripedAggMap M F → MapEvent M F → StripedAggMap M F → Prop
  | count {s s' : StripedAggMap M F} {grow x delta} (h : s.recordCount grow x delta = some s') :
      MapStep s (.record grow x (.count delta)) s'
  | gauge {s s' : StripedAggMap M F} {grow x value} (h : s.recordGauge grow x value = some s') :
      MapStep s (.record grow x (.gauge value)) s'
  | histogram {s s' : StripedAggMap M F} {grow x value}
      (h : s.recordHistogram grow x value = some s') :
      MapStep s (.record grow x (.histogram value)) s'
  | flush {s s' : StripedAggMap M F} {scan out} (h : s.flush scan = (out, s')) :
      MapStep s (.flush scan out) s'

namespace MapEvent

def apply (m : PlainMap M F) : MapEvent M F → PlainMap M F
  | record _ x u => m.record x u
  | flush _ _ => m.flush

/-- The plain map after the events. -/
def plain (es : List (MapEvent M F)) : PlainMap M F := es.foldl apply fun _ => none

/-- The calls made. -/
def calls : List (MapEvent M F) → List (Series × Update M F)
  | [] => []
  | record _ x u :: es => (x, u) :: calls es
  | flush _ _ :: es => calls es

/-- Different series have different keys, and a key has one kind. -/
def OneSeriesPerKey (es : List (MapEvent M F)) : Prop :=
  ∀ c ∈ calls es, ∀ c' ∈ calls es, c.1.key = c'.1.key → c.1 = c'.1 ∧ c.2.kind = c'.2.kind

end MapEvent

/-- What is stored for the series of a record call is filed under its key. -/
def Filed (s : StripedAggMap M F) : MapEvent M F → Prop
  | .record _ x _ => ∀ e ∈ s.stripes (stripeIdx x.key), e.key = x.key → e.hash = x.key
  | .flush _ _ => True

/-! ### Slots -/

/-- `slot` holds what the plain slot has seen. -/
def SlotMatches (mb : ℕ) (ε : F) : AggSlot M F → PlainSlot M F → Prop
  | .count s, .count deltas => s.value = deltas.sum
  | .gauge s, .gauge value => s.bits = FloatBits.toBits value
  | .histogram s, .histogram values => sketchOf mb ε values = some s.sketch
  | _, _ => False

omit [FloatBits F] in
theorem sketchOf_concat {mb : ℕ} {ε : F} {values : List F} {value : F} {s s' : UDDSketch F}
    (h : sketchOf mb ε values = some s) (hs : s.addValue value = some s') :
    sketchOf mb ε (values ++ [value]) = some s' := by
  unfold sketchOf at h ⊢
  rw [List.foldlM_append, h, Option.bind_eq_bind, Option.bind_some, List.foldlM_cons, hs]
  rfl

omit [FloatBits F] in
/-- NaN has no part in a sketch. -/
theorem sketchOf_filter (mb : ℕ) (ε : F) (values : List F) :
    sketchOf mb ε (values.filter fun v => !FloatOps.isNaN v) = sketchOf mb ε values := by
  unfold sketchOf
  rw [List.foldlM_filter]
  congr 1
  funext s value
  by_cases hnan : FloatOps.isNaN value
  · simp [hnan, UDDSketch.addValue]
  · simp [hnan]

omit [FloatBits F] in
/-- The values in the sketch are those that are not NaN. -/
theorem numValues_sketchOf {mb : ℕ} {ε : F} : ∀ {values : List F} {s : UDDSketch F},
    sketchOf mb ε values = some s → s.numValues = values.countP fun v => !FloatOps.isNaN v := by
  intro values
  induction values using List.reverseRecOn with
  | nil =>
    intro s h
    rw [← Option.some.inj h]
    rfl
  | append_singleton values value ih =>
    intro s h
    unfold sketchOf at h ih
    rw [List.foldlM_append, Option.bind_eq_bind] at h
    obtain ⟨s₁, h₁, h⟩ := Option.bind_eq_some_iff.mp h
    rw [List.foldlM_cons, Option.bind_eq_bind] at h
    obtain ⟨s₂, h₂, h⟩ := Option.bind_eq_some_iff.mp h
    obtain rfl := Option.some.inj h
    rw [UDDSketch.addValue_numValues h₂, ih h₁, List.countP_append, List.countP_singleton]
    cases FloatOps.isNaN value <;> rfl

theorem slotMatches_created {mb : ℕ} {ε : F} {u : Update M F} {slot : AggSlot M F}
    (h : AggSlot.Created mb ε u slot) : SlotMatches mb ε slot (.ofUpdate u) := by
  cases h with
  | count delta =>
    show (0 : M) + delta = [delta].sum
    rw [zero_add, List.sum_singleton]
  | gauge value => rfl
  | @histogram value s s' hn hs =>
    obtain ⟨sk, hsk, hs⟩ := Option.bind_eq_some_iff.mp hs
    unfold HistogramSlot.new at hn
    split_ifs at hn
    obtain rfl := Option.some.inj hn
    obtain rfl := Option.some.inj hs
    have hempty : sketchOf mb ε [] = some (.empty mb ε) := rfl
    exact sketchOf_concat hempty hsk

theorem slotMatches_recorded {mb : ℕ} {ε : F} {u : Update M F} {slot slot' : AggSlot M F}
    {p : PlainSlot M F} (h : AggSlot.Recorded u slot slot') (hm : SlotMatches mb ε slot p) :
    SlotMatches mb ε slot' (p.add u) := by
  cases h with
  | other hk =>
    -- a call of another kind leaves both alone
    cases u <;> cases slot <;> cases p <;> first | exact hm | exact absurd rfl hk
  | count delta s =>
    cases p with
    | count deltas =>
      show s.value + delta = (deltas ++ [delta]).sum
      rw [List.sum_append, List.sum_singleton, ← show s.value = deltas.sum from hm]
    | gauge value => exact hm.elim
    | histogram values => exact hm.elim
  | gauge value s =>
    cases p with
    | gauge value' => rfl
    | count deltas => exact hm.elim
    | histogram values => exact hm.elim
  | @histogram value s s' hs =>
    obtain ⟨sk, hsk, hs⟩ := Option.bind_eq_some_iff.mp hs
    obtain rfl := Option.some.inj hs
    cases p with
    | histogram values => exact sketchOf_concat hm hsk
    | count deltas => exact hm.elim
    | gauge value' => exact hm.elim

/-- A flush reads the slot as the plain map reports it, and keeps gauges. -/
theorem slotMatches_flush {mb : ℕ} {ε : F} {slot : AggSlot M F} {p : PlainSlot M F}
    (h : SlotMatches mb ε slot p) :
    slot.flush.1 = p.report mb ε ∧ slot.flush.2 = if p.isGauge then some slot else none := by
  cases slot with
  | count s =>
    cases p with
    | count deltas => exact ⟨congrArg (fun v => some (FlushedValue.count v)) h, rfl⟩
    | gauge value => exact h.elim
    | histogram values => exact h.elim
  | gauge s =>
    cases p with
    | gauge value =>
      refine ⟨?_, rfl⟩
      simp only [AggSlot.flush, GaugeSlot.flush, PlainSlot.report, show s.bits = _ from h,
        FloatBits.fromBits_toBits]
      split_ifs <;> rfl
    | count deltas => exact h.elim
    | histogram values => exact h.elim
  | histogram s =>
    cases p with
    | histogram values =>
      refine ⟨?_, rfl⟩
      have hs : sketchOf mb ε values = some s.sketch := h
      have hn := numValues_sketchOf hs
      have hall : (values.all FloatOps.isNaN = true) ↔ ¬ s.sketch.numValues > 0 := by
        rw [hn, gt_iff_lt, List.countP_pos_iff]
        simp
      have hrep : (PlainSlot.histogram values : PlainSlot M F).report mb ε =
          if values.all FloatOps.isNaN then none else some (.histogram s.sketch) := by
        rw [PlainSlot.report, hs]
        rfl
      rw [hrep]
      by_cases h0 : s.sketch.numValues > 0
      · rw [if_neg fun ha => hall.mp ha h0]
        exact if_pos h0
      · rw [if_pos (hall.mpr h0)]
        exact if_neg h0
    | count deltas => exact h.elim
    | gauge value => exact h.elim

/-! ### The refinement -/

/-- A bag has what the plain map has, once. -/
inductive BagMatches (mb : ℕ) (ε : F) :
    List (AggKey × AggSlot M F) → Option (AggKey × PlainSlot M F) → Prop
  | none : BagMatches mb ε [] none
  | some {a : AggKey} {slot : AggSlot M F} {p : PlainSlot M F} (h : SlotMatches mb ε slot p) :
      BagMatches mb ε [(a, slot)] (some (a, p))

/-- The striped map `s` stands for the plain map `m`. -/
structure Refines (mb : ℕ) (ε : F) (s : StripedAggMap M F) (m : PlainMap M F) : Prop where
  maxBuckets : s.maxBuckets = mb
  initialError : s.initialError = ε
  aggregating : s.rawSender = none
  placed : s.Placed
  bags : ∀ k, BagMatches mb ε (s.bagOf k) (m k)

theorem refines_new (makeHash) (mb : ℕ) (ε : F) :
    Refines mb ε (.new makeHash mb ε none : StripedAggMap M F) (MapEvent.plain []) :=
  ⟨rfl, rfl, rfl, StripedAggMap.placed_new makeHash mb ε none, fun _ => .none⟩

/-- The bag of a key after a call that finds the entry if there is one. -/
theorem bagMatches_absorbed {mb : ℕ} {ε : F} {x : Series} {u : Update M F} {entry}
    {b b' : List (AggKey × AggSlot M F)} {m : PlainMap M F}
    (h : StripedAggMap.Absorbed mb ε x u entry b b') (hv : entry = .vacant ↔ b = [])
    (hm : BagMatches mb ε b (m x.key)) : BagMatches mb ε b' (m.record x u x.key) := by
  have hrec : m.record x u x.key = some (match m x.key with
      | some (a, slot) => (a, slot.add u)
      | none => (x.aggKey, .ofUpdate u)) := Function.update_self _ _ _
  rw [hrec]
  generalize m x.key = v at hm
  cases h with
  | @found i l r a slot slot' hr =>
    generalize hb : l ++ (a, slot) :: r = b at hm
    cases hm with
    | none => simp at hb
    | some hs =>
      obtain ⟨rfl, hb⟩ | ⟨-, hb⟩ := List.append_eq_singleton_iff.mp hb
      · obtain ⟨hp, rfl⟩ := List.cons.inj hb
        obtain ⟨rfl, rfl⟩ := Prod.mk.inj hp
        exact .some (slotMatches_recorded hr hs)
      · simp at hb
  | created hc =>
    obtain rfl := hv.mp rfl
    cases hm
    exact .some (slotMatches_created hc)

theorem refines_record {mb : ℕ} {ε : F} {s s' : StripedAggMap M F} {m : PlainMap M F} {grow x}
    {u : Update M F} (h : s.recordSlot grow x u = some s')
    (hfiled : ∀ e ∈ s.stripes (stripeIdx x.key), e.key = x.key → e.hash = x.key)
    (hr : Refines mb ε s m) : Refines mb ε s' (m.record x u) := by
  obtain ⟨habs, hother, hplaced⟩ := StripedAggMap.recordSlot_spec h
  have hs' := StripedAggMap.recordFound_stripes h
  refine ⟨?_, ?_, ?_, hplaced hr.placed, fun k => ?_⟩
  · rw [hs']; exact hr.maxBuckets
  · rw [hs']; exact hr.initialError
  · rw [hs']; exact hr.aggregating
  · by_cases hk : k = x.key
    · subst hk
      rw [hr.maxBuckets, hr.initialError] at habs
      exact bagMatches_absorbed habs (fromHash_bag hfiled) (hr.bags x.key)
    · rw [hother k hk, show m.record x u k = m k from Function.update_of_ne hk _ _]
      exact hr.bags k

/-- A drained bag puts out the key's report and keeps a gauge. -/
theorem bagMatches_drained {mb : ℕ} {ε : F} {k : UInt64} {b b' : List (AggKey × AggSlot M F)} {out}
    {m : PlainMap M F} (h : StripedAggMap.Drained k b out b') (hm : BagMatches mb ε b (m k)) :
    out = (m.report mb ε k).toList ∧ BagMatches mb ε b' (m.flush k) := by
  obtain ⟨l, hperm, rfl, rfl⟩ := h
  unfold PlainMap.report PlainMap.flush
  generalize m k = v at hm
  cases hm with
  | none =>
    rw [hperm.eq_nil]
    exact ⟨rfl, .none⟩
  | @some a slot p hslot =>
    obtain ⟨h1, h2⟩ := slotMatches_flush hslot
    rw [List.perm_singleton.mp hperm]
    simp only [List.filterMap_cons, List.filterMap_nil, StripedAggMap.drainEntry, h1, h2,
      Option.bind_some, Option.filter_some]
    constructor
    · cases p.report mb ε <;> rfl
    · cases hg : p.isGauge
      · exact .none
      · exact .some hslot

theorem refines_flush {mb : ℕ} {ε : F} {s s' : StripedAggMap M F} {m : PlainMap M F} {scan out}
    (h : s.flush scan = (out, s')) (hr : Refines mb ε s m) :
    m.Reports mb ε out ∧ Refines mb ε s' m.flush := by
  obtain ⟨hout, hbags, hplaced⟩ := StripedAggMap.flush_spec scan hr.placed
  have hs' := StripedAggMap.flush_stripes scan s
  rw [h] at hout hbags hplaced hs'
  simp only at hout hbags hplaced hs'
  have hkeys := fun k => (bagMatches_drained (hbags k) (hr.bags k)).1
  obtain ⟨hnd, hmem, hmap⟩ := outOf_toList hkeys
  refine ⟨⟨_, hnd, hmem, hout.trans hmap⟩, ?_, ?_, ?_, hplaced, fun k => ?_⟩
  · rw [hs']; exact hr.maxBuckets
  · rw [hs']; exact hr.initialError
  · rw [hs']; exact hr.aggregating
  · exact (bagMatches_drained (hbags k) (hr.bags k)).2

theorem refines_step {mb : ℕ} {ε : F} {s s' : StripedAggMap M F} {m : PlainMap M F}
    {e : MapEvent M F} (h : MapStep s e s') (hfiled : Filed s e) (hr : Refines mb ε s m) :
    Refines mb ε s' (e.apply m) := by
  cases h with
  | count h => exact refines_record h hfiled hr
  | gauge h => exact refines_record h hfiled hr
  | histogram h =>
    rw [StripedAggMap.recordHistogram, hr.aggregating] at h
    exact refines_record h hfiled hr
  | flush h => exact (refines_flush h hr).2

/-- **A run whose record calls find what is stored refines the plain map.** -/
theorem refines_run {makeHash} {mb : ℕ} {ε : F} {es : List (MapEvent M F)} {s : StripedAggMap M F}
    (h : Run (Where MapStep Filed) (.new makeHash mb ε none) es s) :
    Refines mb ε s (MapEvent.plain es) := by
  refine h.inv (I := fun es s => Refines mb ε s (MapEvent.plain es)) (refines_new makeHash mb ε) ?_
  intro es t e u ht hstep
  rw [MapEvent.plain, List.foldl_append]
  exact refines_step hstep.1 hstep.2 ht

/-- **Every flush of such a run reports exactly the plain map.** -/
theorem flush_reports {makeHash} {mb : ℕ} {ε : F} {es : List (MapEvent M F)} {scan out}
    {s : StripedAggMap M F}
    (h : Run (Where MapStep Filed) (.new makeHash mb ε none) (es ++ [.flush scan out]) s) :
    (MapEvent.plain es).Reports mb ε out := by
  obtain ⟨t, ht, hstep, -⟩ := h.last
  cases hstep with
  | flush hf => exact (refines_flush hf (refines_run ht)).1

instance (s : StripedAggMap M F) (e : MapEvent M F) : Decidable (Filed s e) := by
  cases e with
  | record grow x u =>
    exact inferInstanceAs (Decidable (∀ e ∈ s.stripes (stripeIdx x.key), e.key = x.key → e.hash = x.key))
  | flush scan out => exact inferInstanceAs (Decidable True)

/-! ### When the table grows -/

/-- Count calls one after another. -/
def countCalls (s : StripedAggMap M F) (cs : List (Bool × Series × M)) :
    Option (StripedAggMap M F) :=
  cs.foldlM (fun s c => s.recordCount c.1 c.2.1 c.2.2) s

/-- The events of count calls. -/
def countEvents (cs : List (Bool × Series × M)) : List (MapEvent M F) :=
  cs.map fun c => .record c.1 c.2.1 (.count c.2.2)

theorem run_countCalls {cs : List (Bool × Series × M)} : ∀ {s s' : StripedAggMap M F},
    countCalls s cs = some s' → Run MapStep s (countEvents cs) s' := by
  induction cs using List.reverseRecOn with
  | nil =>
    intro s s' h
    rw [← Option.some.inj h]
    exact .nil
  | append_singleton cs c ih =>
    intro s s' h
    unfold countCalls at h ih
    rw [List.foldlM_append, Option.bind_eq_bind] at h
    obtain ⟨s₁, h₁, h⟩ := Option.bind_eq_some_iff.mp h
    rw [List.foldlM_cons, Option.bind_eq_bind] at h
    obtain ⟨s₂, h₂, h⟩ := Option.bind_eq_some_iff.mp h
    obtain rfl := Option.some.inj h
    rw [countEvents, List.map_append]
    exact (ih h₁).snoc (.count h₂)

omit [AddCommMonoid M] [FloatBits F] in
theorem oneSeriesPerKey_countEvents {cs : List (Bool × Series × M)}
    (h : ∀ x ∈ cs.map (·.2.1), ∀ y ∈ cs.map (·.2.1), x.key = y.key → x = y) :
    MapEvent.OneSeriesPerKey (countEvents cs : List (MapEvent M F)) := by
  have hcalls : MapEvent.calls (countEvents cs : List (MapEvent M F)) =
      cs.map fun c => (c.2.1, .count c.2.2) := by
    induction cs with
    | nil => rfl
    | cons c cs ih =>
      have htail := ih fun x hx y hy =>
        h x (List.mem_cons_of_mem _ hx) y (List.mem_cons_of_mem _ hy)
      exact congrArg (List.cons _) htail
  intro c hc c' hc' hk
  rw [hcalls] at hc hc'
  obtain ⟨d, hd, rfl⟩ := List.mem_map.mp hc
  obtain ⟨d', hd', rfl⟩ := List.mem_map.mp hc'
  exact ⟨h _ (List.mem_map_of_mem hd) _ (List.mem_map_of_mem hd') hk, rfl⟩

end

/-- Series of one name that differ in a tag and share a stripe. -/
def shard (j : ℕ) : Series :=
  ⟨⟨4096, "requests".toList⟩, [], 64 * UInt64.ofNat j, [("shard".toList, [Char.ofNat (48 + j)])]⟩

/-- Four series, the fourth call growing the table, then the first series again. -/
def growthCalls : List (Bool × Series × BitVec 64) :=
  [(true, shard 0, 1), (false, shard 1, 1), (false, shard 2, 1), (true, shard 3, 1),
    (false, shard 0, 1)]

/-- The tags of a metric and its value, if it is a count. -/
def countView (m : FlushedMetric (BitVec 64) F64) : TagsData × Option (BitVec 64) :=
  (m.tags, match m.value with
    | .count value => some value
    | _ => none)

theorem plain_growthCalls (k : UInt64) :
    (MapEvent.plain (countEvents growthCalls) : PlainMap (BitVec 64) F64) k =
      if k = (shard 0).key then some ((shard 0).aggKey, .count [1, 1])
      else if k = (shard 3).key then some ((shard 3).aggKey, .count [1])
      else if k = (shard 2).key then some ((shard 2).aggKey, .count [1])
      else if k = (shard 1).key then some ((shard 1).aggKey, .count [1])
      else none := by
  have h01 : (shard 0).key ≠ (shard 1).key := by decide
  have h02 : (shard 0).key ≠ (shard 2).key := by decide
  have h03 : (shard 0).key ≠ (shard 3).key := by decide
  have h12 : (shard 1).key ≠ (shard 2).key := by decide
  have h13 : (shard 1).key ≠ (shard 3).key := by decide
  have h23 : (shard 2).key ≠ (shard 3).key := by decide
  simp only [MapEvent.plain, countEvents, growthCalls, List.map_cons, List.map_nil, List.foldl_cons,
    List.foldl_nil, MapEvent.apply, PlainMap.record]
  simp only [Function.update_apply, h01, h02, h03, h01.symm, h02.symm, h03.symm, h12.symm,
    h13.symm, h23.symm, if_true, if_false, PlainSlot.add, PlainSlot.ofUpdate]
  by_cases h0 : k = (shard 0).key
  · rw [if_pos h0, if_pos h0]
    rfl
  · simp only [if_neg h0]

/-- **After growth a series has two entries.** The first series is reported
twice with 1, where the plain map has it once with 2. -/
theorem flush_after_growth : ∃ out s,
    Run MapStep (.new (fun _ k => k + 1) 200 0.001 none)
      (countEvents growthCalls ++ [.flush (fun _ => .id) out]) s ∧
    MapEvent.OneSeriesPerKey (countEvents growthCalls : List (MapEvent (BitVec 64) F64)) ∧
    ¬ (MapEvent.plain (countEvents growthCalls)).Reports 200 (0.001 : F64) out := by
  have hview : (countCalls (.new (fun _ k => k + 1) 200 0.001 none : StripedAggMap (BitVec 64) F64)
      growthCalls).map (fun s => (s.flush fun _ => .id).1.map countView) =
      some [((shard 0).aggKey.tagsData, some 1), ((shard 3).aggKey.tagsData, some 1),
        ((shard 2).aggKey.tagsData, some 1), ((shard 1).aggKey.tagsData, some 1),
        ((shard 0).aggKey.tagsData, some 1)] := by
    decide +kernel
  obtain ⟨s, hs, hout⟩ := Option.map_eq_some_iff.mp hview
  refine ⟨(s.flush fun _ => .id).1, (s.flush fun _ => .id).2, (run_countCalls hs).snoc (.flush rfl),
    ?_, ?_⟩
  · exact oneSeriesPerKey_countEvents (by decide)
  · rintro ⟨ks, -, -, hks⟩
    have hmem : ((shard 0).aggKey.tagsData, some 1) ∈ (s.flush fun _ => .id).1.map countView := by
      rw [hout]
      exact List.mem_cons_self
    obtain ⟨m, hm, hmv⟩ := List.mem_map.mp hmem
    rw [hks] at hm
    obtain ⟨k, -, hk⟩ := List.mem_filterMap.mp hm
    rw [PlainMap.report, plain_growthCalls] at hk
    split_ifs at hk
    · rw [← Option.some.inj hk] at hmv
      exact absurd hmv (by decide)
    · rw [← Option.some.inj hk] at hmv
      exact absurd hmv (by decide)
    · rw [← Option.some.inj hk] at hmv
      exact absurd hmv (by decide)
    · rw [← Option.some.inj hk] at hmv
      exact absurd hmv (by decide)
    · exact absurd hk (by simp)

/-- Without growth the same series is found again. -/
theorem flush_reports_twice : ∃ out : List (FlushedMetric (BitVec 64) F64),
    (MapEvent.plain (countEvents [(true, shard 0, 1), (false, shard 0, 1)])).Reports 200
      (0.001 : F64) out := by
  set s₀ : StripedAggMap (BitVec 64) F64 := .new (fun _ k => k + 1) 200 0.001 none with hs₀
  have hfiled : (s₀.recordCount true (shard 0) 1).map (fun s =>
      decide (Filed s (.record false (shard 0) (.count 1)))) = some true := by
    rw [hs₀]
    decide +kernel
  obtain ⟨s₁, h₁, hf⟩ := Option.map_eq_some_iff.mp hfiled
  have hsome : ((s₀.recordCount true (shard 0) 1).bind fun s =>
      s.recordCount false (shard 0) 1).isSome := by
    rw [hs₀]
    decide +kernel
  rw [h₁, Option.bind_some] at hsome
  obtain ⟨s₂, h₂⟩ := Option.isSome_iff_exists.mp hsome
  have hrun : Run (Where MapStep Filed) s₀ [.record true (shard 0) (.count 1),
      .record false (shard 0) (.count 1)] s₂ :=
    (Run.nil.snoc ⟨.count h₁, fun e he => absurd he List.not_mem_nil⟩).snoc
      ⟨.count h₂, of_decide_eq_true hf⟩
  have hflush : MapStep s₂ (.flush (fun _ => .id) (s₂.flush fun _ => .id).1)
      (s₂.flush fun _ => .id).2 := .flush rfl
  have hall : Run (Where MapStep Filed) s₀ (countEvents [(true, shard 0, 1), (false, shard 0, 1)] ++
      [.flush (fun _ => .id) (s₂.flush fun _ => .id).1]) (s₂.flush fun _ => .id).2 :=
    hrun.snoc ⟨hflush, trivial⟩
  exact ⟨_, flush_reports hall⟩

end ChalkMetrics
