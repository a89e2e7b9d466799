/-
# The striped aggregation map

`StripedAggMap`: 64 stripes, each a `hashbrown` table under a lock, keyed by
the combined hash of a series. A record call is one step on the stripe of its
key, a flush is 64 of them. What the source leaves to `hashbrown` and to
chance comes in as arguments: whether an insertion makes the table grow
(`grow`), the table's own hash (`makeHash`), and the order in which a flush
meets the entries of a stripe (`Scan`).

Key definitions: `Series`, `combineHash`, `StripedAggMap.recordCount`,
`StripedAggMap.recordGauge`, `StripedAggMap.recordHistogram`,
`StripedAggMap.flush`.
-/
import ChalkMetrics.Aggregator.Slots
import ChalkMetrics.Lib.HashTable
import Mathlib.Data.Fintype.Basic
import Mathlib.Logic.Function.Basic

namespace ChalkMetrics

open HashTable

/-- The arguments of a record call but its value: the name, the namespace, the
hash of the tags and the pairs `make_tags` would give. -/
structure Series where
  metricName : StaticStr
  namespacePath : List Text
  tagsHash : UInt64
  pairs : List (Text × Text)
deriving DecidableEq

/-- Wrapping, as `UInt64` is; the name counts by its address. -/
def combineHash (metricName : StaticStr) (tagsHash : UInt64) : UInt64 :=
  tagsHash * 6364136223846793005 + metricName.addr

/-- `combined as usize & STRIPE_MASK`. -/
def stripeIdx (combined : UInt64) : Fin 64 := Fin.ofNat 64 (combined &&& 63).toNat

namespace Series

def key (x : Series) : UInt64 := combineHash x.metricName x.tagsHash

def aggKey (x : Series) : AggKey := ⟨x.namespacePath, x.metricName, ⟨x.pairs⟩⟩

end Series

abbrev Stripe (M F : Type) [FloatOps F] := Table UInt64 (AggKey × AggSlot M F)

/-- The bounded channel of raw points. -/
structure Channel (F : Type) where
  capacity : ℕ
  queue : List (RawDistributionPoint F)
  closed : Bool

/-- The point is dropped if the channel is full or its receiver is gone. -/
def Channel.trySend {F : Type} (c : Channel F) (p : RawDistributionPoint F) : Channel F :=
  if c.closed || c.queue.length ≥ c.capacity then c else { c with queue := c.queue ++ [p] }

structure StripedAggMap (M F : Type) [FloatOps F] where
  stripes : Fin 64 → Stripe M F
  makeHash : Fin 64 → UInt64 → UInt64
  maxBuckets : ℕ
  initialError : F
  rawSender : Option (Channel F)

/-- An order in which the entries of a table are met. -/
structure Scan where
  order : {α : Type} → List α → List α
  perm : ∀ {α : Type} (l : List α), (order l).Perm l

def Scan.id : Scan := ⟨fun l => l, fun l => List.Perm.refl l⟩

namespace StripedAggMap

variable {M F : Type} [AddCommMonoid M] [FloatOps F] [FloatBits F]

omit [AddCommMonoid M] [FloatBits F] in
/-- `HashMap::new()` takes a hash function at random for every stripe. -/
def new (makeHash : Fin 64 → UInt64 → UInt64) (maxBuckets : ℕ) (initialError : F)
    (rawSender : Option (Channel F)) : StripedAggMap M F :=
  ⟨fun _ => [], makeHash, maxBuckets, initialError, rawSender⟩

/-- A record call that found `entry` in its stripe. -/
def recordFound (s : StripedAggMap M F) (grow : Bool) (x : Series) (u : Update M F)
    (entry : RawEntry) : Option (StripedAggMap M F) := do
  let i := stripeIdx x.key
  let t ← upsert (s.stripes i) (if grow then some (s.makeHash i) else none) x.key x.key entry
    (fun v => do return (v.1, ← v.2.record u))
    (do return (x.aggKey, ← AggSlot.create s.maxBuckets s.initialError u))
  return { s with stripes := Function.update s.stripes i t }

/-- `raw_entry_mut().from_hash(combined, |k| *k == combined)`. -/
def lookup (s : StripedAggMap M F) (x : Series) : RawEntry :=
  fromHash (s.stripes (stripeIdx x.key)) x.key x.key

def recordSlot (s : StripedAggMap M F) (grow : Bool) (x : Series) (u : Update M F) :
    Option (StripedAggMap M F) := s.recordFound grow x u (s.lookup x)

def recordCount (s : StripedAggMap M F) (grow : Bool) (x : Series) (delta : M) :
    Option (StripedAggMap M F) := s.recordSlot grow x (.count delta)

def recordGauge (s : StripedAggMap M F) (grow : Bool) (x : Series) (value : F) :
    Option (StripedAggMap M F) := s.recordSlot grow x (.gauge value)

def recordHistogram (s : StripedAggMap M F) (grow : Bool) (x : Series) (value : F) :
    Option (StripedAggMap M F) :=
  match s.rawSender with
  | some sender =>
    some { s with
      rawSender := some (sender.trySend ⟨x.namespacePath, x.metricName, ⟨x.pairs⟩, value⟩) }
  | none => s.recordSlot grow x (.histogram value)

/-- The closure of `flush` on one entry. -/
def drainEntry (_combined : UInt64) (v : AggKey × AggSlot M F) :
    Option (FlushedMetric M F) × Option (AggKey × AggSlot M F) :=
  (v.2.flush.1.map fun value => ⟨v.1.namespacePath, v.1.metricName, v.1.tagsData, value⟩,
    v.2.flush.2.map fun slot => (v.1, slot))

/-- One stripe of a flush; each metric comes with the key of its entry. -/
def flushStripe (scan : Fin 64 → Scan) (s : StripedAggMap M F) (i : Fin 64) :
    List (UInt64 × FlushedMetric M F) × StripedAggMap M F :=
  let (out, t) := drain drainEntry ((scan i).order (s.stripes i))
  (out, { s with stripes := Function.update s.stripes i t })

/-- The stripes one after another. -/
def flushStripes (scan : Fin 64 → Scan) :
    List (Fin 64) → StripedAggMap M F → List (UInt64 × FlushedMetric M F) × StripedAggMap M F
  | [], s => ([], s)
  | i :: is, s =>
    let (out, s) := s.flushStripe scan i
    let (rest, s) := flushStripes scan is s
    (out ++ rest, s)

def flush (scan : Fin 64 → Scan) (s : StripedAggMap M F) :
    List (FlushedMetric M F) × StripedAggMap M F :=
  let (out, s) := flushStripes scan (List.finRange 64) s
  (out.map Prod.snd, s)

end StripedAggMap
end ChalkMetrics
