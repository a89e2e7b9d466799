/-
# Aggregation slots

`CountSlot`, `GaugeSlot` and `HistogramSlot` with their `record` and `flush`,
and what a flush puts out. The counter is over any additive monoid `M`: the
source's `AtomicI64` with its wrapping `fetch_add` is `M = BitVec 64`, and a
monoid that also names its summands shows which calls a value contains.

Key definitions: `AggSlot.record`, `AggSlot.create`, `AggSlot.flush`.
-/
import ChalkMetrics.Sketch.Compaction
import Mathlib.Algebra.Group.Defs

namespace ChalkMetrics

abbrev Text := List Char

/-- A `&'static str`: its address and its characters. -/
structure StaticStr where
  addr : UInt64
  text : Text
deriving DecidableEq

/-- `(export_name, value)` pairs. -/
structure TagsData where
  pairs : List (Text × Text)
deriving DecidableEq

structure AggKey where
  namespacePath : List Text
  metricName : StaticStr
  tagsData : TagsData
deriving DecidableEq

inductive MetricKind where
  | count
  | gauge
  | histogram
deriving DecidableEq

/-! ### Counts -/

structure CountSlot (M : Type) where
  value : M

namespace CountSlot

variable {M : Type} [AddCommMonoid M]

def new : CountSlot M := ⟨0⟩

def record (s : CountSlot M) (delta : M) : CountSlot M := ⟨s.value + delta⟩

/-- The value, and the slot reset. -/
def flush (s : CountSlot M) : M × CountSlot M := (s.value, ⟨0⟩)

end CountSlot

/-! ### Gauges -/

structure GaugeSlot where
  bits : UInt64

namespace GaugeSlot

variable {F : Type} [FloatBits F]

/-- `u64::MAX`: no value recorded. -/
def unset : UInt64 := 0xFFFFFFFFFFFFFFFF

def new : GaugeSlot := ⟨unset⟩

def record (_ : GaugeSlot) (value : F) : GaugeSlot := ⟨FloatBits.toBits value⟩

def flush (s : GaugeSlot) : Option F :=
  if s.bits = unset then none else some (FloatBits.fromBits s.bits)

end GaugeSlot

/-! ### Histograms -/

/-- `valid` is the assertion of `UDDSketch::new`, which passed when the slot
was made. -/
structure HistogramSlot (F : Type) [FloatOps F] where
  sketch : UDDSketch F
  maxBuckets : ℕ
  initialError : F
  valid : UDDSketch.errorInRange initialError

namespace HistogramSlot

variable {F : Type} [FloatOps F]

def new (maxBuckets : ℕ) (initialError : F) : Option (HistogramSlot F) :=
  if h : UDDSketch.errorInRange initialError then
    some ⟨.empty maxBuckets initialError, maxBuckets, initialError, h⟩
  else none

def record (s : HistogramSlot F) (value : F) : Option (HistogramSlot F) := do
  let sketch ← s.sketch.addValue value
  return { s with sketch }

/-- The sketch, and the slot with a fresh one. -/
def flush (s : HistogramSlot F) : UDDSketch F × HistogramSlot F :=
  (s.sketch, { s with sketch := .empty s.maxBuckets s.initialError })

end HistogramSlot

/-! ### One of the three -/

inductive AggSlot (M F : Type) [FloatOps F] where
  | count (slot : CountSlot M)
  | gauge (slot : GaugeSlot)
  | histogram (slot : HistogramSlot F)

/-- What one record call brings: a delta or a value, by the kind of the call. -/
inductive Update (M F : Type) where
  | count (delta : M)
  | gauge (value : F)
  | histogram (value : F)

inductive FlushedValue (M F : Type) where
  | count (value : M)
  | gauge (value : F)
  | histogram (sketch : UDDSketch F)

structure FlushedMetric (M F : Type) where
  namespacePath : List Text
  metricName : StaticStr
  tags : TagsData
  value : FlushedValue M F

def FlushedMetric.aggKey {M F : Type} (m : FlushedMetric M F) : AggKey :=
  ⟨m.namespacePath, m.metricName, m.tags⟩

/-- A histogram's value on its own, for the exporters to aggregate. -/
structure RawDistributionPoint (F : Type) where
  namespacePath : List Text
  metricName : StaticStr
  tags : TagsData
  value : F

def Update.kind {M F : Type} : Update M F → MetricKind
  | count _ => .count
  | gauge _ => .gauge
  | histogram _ => .histogram

def FlushedValue.kind {M F : Type} : FlushedValue M F → MetricKind
  | count _ => .count
  | gauge _ => .gauge
  | histogram _ => .histogram

namespace AggSlot

variable {M F : Type} [AddCommMonoid M] [FloatOps F] [FloatBits F]

def kind : AggSlot M F → MetricKind
  | count _ => .count
  | gauge _ => .gauge
  | histogram _ => .histogram

/-- An occupied entry: `if let` passes over a slot of another kind. -/
def record (u : Update M F) (slot : AggSlot M F) : Option (AggSlot M F) :=
  match u, slot with
  | .count delta, count s => some (count (s.record delta))
  | .gauge value, gauge s => some (gauge (s.record value))
  | .histogram value, histogram s => do return histogram (← s.record value)
  | _, slot => some slot

/-- A vacant entry: a new slot with the value recorded. -/
def create (maxBuckets : ℕ) (initialError : F) (u : Update M F) : Option (AggSlot M F) :=
  match u with
  | .count delta => some (count (CountSlot.new.record delta))
  | .gauge value => some (gauge (GaugeSlot.new.record value))
  | .histogram value => do
    let slot ← HistogramSlot.new maxBuckets initialError
    return histogram (← slot.record value)

/-- The closure of `flush`: what is pushed, and the slot if it is retained. -/
def flush (slot : AggSlot M F) : Option (FlushedValue M F) × Option (AggSlot M F) :=
  match slot with
  | count s => (some (.count s.flush.1), none)
  | gauge s => (s.flush.map .gauge, some (gauge s))
  | histogram s =>
    (if s.flush.1.count > 0 then some (.histogram s.flush.1) else none, none)

/-- What `record` does to a slot. -/
inductive Recorded : Update M F → AggSlot M F → AggSlot M F → Prop
  | other {u : Update M F} {slot : AggSlot M F} (h : u.kind ≠ slot.kind) : Recorded u slot slot
  | count (delta : M) (s : CountSlot M) : Recorded (.count delta) (count s) (count (s.record delta))
  | gauge (value : F) (s : GaugeSlot) : Recorded (.gauge value) (gauge s) (gauge (s.record value))
  | histogram {value : F} {s s' : HistogramSlot F} (h : s.record value = some s') :
      Recorded (.histogram value) (histogram s) (histogram s')

theorem record_cases {u : Update M F} {slot slot' : AggSlot M F} (h : record u slot = some slot') :
    Recorded u slot slot' := by
  have hother : ∀ hk : u.kind ≠ slot.kind, record u slot = some slot → Recorded u slot slot' := by
    intro hk e
    obtain rfl := Option.some.inj (e.symm.trans h)
    exact .other hk
  cases u with
  | count delta =>
    cases slot with
    | count s => obtain rfl := Option.some.inj h; exact .count delta s
    | gauge s => exact hother nofun rfl
    | histogram s => exact hother nofun rfl
  | gauge value =>
    cases slot with
    | count s => exact hother nofun rfl
    | gauge s => obtain rfl := Option.some.inj h; exact .gauge value s
    | histogram s => exact hother nofun rfl
  | histogram value =>
    cases slot with
    | count s => exact hother nofun rfl
    | gauge s => exact hother nofun rfl
    | histogram s =>
      obtain ⟨s', hs, h⟩ := Option.bind_eq_some_iff.mp h
      obtain rfl := Option.some.inj h
      exact .histogram hs

/-- What `create` makes. -/
inductive Created (maxBuckets : ℕ) (initialError : F) : Update M F → AggSlot M F → Prop
  | count (delta : M) :
      Created maxBuckets initialError (.count delta) (count (CountSlot.new.record delta))
  | gauge (value : F) :
      Created maxBuckets initialError (.gauge value) (gauge (GaugeSlot.new.record value))
  | histogram {value : F} {s s' : HistogramSlot F}
      (hn : HistogramSlot.new maxBuckets initialError = some s) (h : s.record value = some s') :
      Created maxBuckets initialError (.histogram value) (histogram s')

theorem create_cases {maxBuckets : ℕ} {initialError : F} {u : Update M F} {slot : AggSlot M F}
    (h : create maxBuckets initialError u = some slot) : Created maxBuckets initialError u slot := by
  cases u with
  | count delta => obtain rfl := Option.some.inj h; exact .count delta
  | gauge value => obtain rfl := Option.some.inj h; exact .gauge value
  | histogram value =>
    obtain ⟨s, hn, h⟩ := Option.bind_eq_some_iff.mp h
    obtain ⟨s', hs, h⟩ := Option.bind_eq_some_iff.mp h
    obtain rfl := Option.some.inj h
    exact .histogram hn hs

theorem Created.create_eq {maxBuckets : ℕ} {initialError : F} {u : Update M F} {slot : AggSlot M F}
    (h : Created maxBuckets initialError u slot) :
    create maxBuckets initialError u = some slot := by
  cases h with
  | count delta => rfl
  | gauge value => rfl
  | histogram hn h => rw [create, hn, Option.bind_eq_bind, Option.bind_some, h]; rfl

/-- Only a gauge is retained, as it is. -/
theorem flush_retained {slot slot' : AggSlot M F} (h : slot.flush.2 = some slot') :
    slot' = slot := by
  cases slot with
  | count s => cases h
  | gauge s => exact (Option.some.inj h).symm
  | histogram s => cases h

theorem flush_kind {slot : AggSlot M F} {value : FlushedValue M F}
    (h : slot.flush.1 = some value) : value.kind = slot.kind := by
  cases slot with
  | count s => rw [← Option.some.inj h]; rfl
  | gauge s =>
    obtain ⟨v, -, rfl⟩ := Option.map_eq_some_iff.mp h
    rfl
  | histogram s =>
    simp only [flush] at h
    split_ifs at h
    rw [← Option.some.inj h]
    rfl

theorem Recorded.kind {u : Update M F} {slot slot' : AggSlot M F} (h : Recorded u slot slot') :
    slot'.kind = slot.kind := by
  cases h <;> rfl

theorem Created.kind {maxBuckets : ℕ} {initialError : F} {u : Update M F} {slot : AggSlot M F}
    (h : Created maxBuckets initialError u slot) : slot.kind = u.kind := by
  cases h <;> rfl

end AggSlot
end ChalkMetrics
