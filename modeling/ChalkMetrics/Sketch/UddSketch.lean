/-
# The UDD sketch

`UDDSketch` over any `FloatOps`: adding a value, compacting, merging and the
two estimates. `none` is a panic of the source (an assertion, an index of a
missing key, `unreachable!()`) or a loop that does not end. The loop `while
buckets.len() > max_buckets { compact_buckets() }` is given `loopRounds`
rounds: after that many every key has reached the limit compaction takes it to,
so a loop that is not done by then runs forever.

Key definitions: `UDDSketch.addValue`, `UDDSketch.mergeSketch`,
`UDDSketch.estimateQuantile`, `UDDSketch.estimateQuantileAtValue`.
-/
import ChalkMetrics.Float
import ChalkMetrics.Sketch.HashMap

namespace ChalkMetrics

structure UDDSketch (F : Type) where
  buckets : SketchHashMap
  alpha : F
  gamma : F
  compactions : ℕ
  maxBuckets : ℕ
  numValues : ℕ
  valuesSum : F
  min : F
  max : F
  zeroCount : ℕ

namespace UDDSketch

variable {F : Type} [FloatOps F]

/-- `assert!((1e-12..1.0).contains(&initial_error))`. -/
def errorInRange (initialError : F) : Bool :=
  FloatOps.le 1e-12 initialError && FloatOps.lt initialError 1.0

/-- The sketch `new` makes. -/
def empty (maxBuckets : ℕ) (initialError : F) : UDDSketch F where
  buckets := .new
  alpha := initialError
  gamma := (1.0 + initialError) / (1.0 - initialError)
  compactions := 0
  maxBuckets
  numValues := 0
  valuesSum := 0.0
  min := FloatOps.maxValue
  max := FloatOps.minValue
  zeroCount := 0

def new (maxBuckets : ℕ) (initialError : F) : Option (UDDSketch F) :=
  if errorInRange initialError then some (empty maxBuckets initialError) else none

/-- The key of `value` under the base `gamma`. -/
def keyAt (gamma value : F) : SketchHashKey :=
  let negative := FloatOps.lt value 0.0
  let value := FloatOps.abs value
  if FloatOps.feq value 0.0 then .zero
  else if negative then .negative (FloatOps.ceilLog gamma value)
  else .positive (FloatOps.ceilLog gamma value)

def key (s : UDDSketch F) (value : F) : SketchHashKey := keyAt s.gamma value

/-- `compact_buckets`; `alpha.powi(2)` is one product. -/
def compactBuckets (s : UDDSketch F) : Option (UDDSketch F) := do
  let buckets ← s.buckets.compact
  return { s with
    buckets
    compactions := s.compactions + 1
    gamma := s.gamma * s.gamma
    alpha := 2.0 * s.alpha / (1.0 + s.alpha * s.alpha) }

/-- `while self.buckets.len() > self.max_buckets { self.compact_buckets(); }`, at
most `n` rounds. -/
def compactWhile : ℕ → UDDSketch F → Option (UDDSketch F)
  | 0, s => if s.buckets.len > s.maxBuckets then none else some s
  | n + 1, s =>
    if s.buckets.len > s.maxBuckets then do compactWhile n (← s.compactBuckets) else some s

/-- Rounds enough for any loop that ends: an exponent of 64 bits halves 64 times. -/
def loopRounds : ℕ := 64

def addValue (s : UDDSketch F) (value : F) : Option (UDDSketch F) :=
  if FloatOps.isNaN value then some s
  else do
    let buckets ← s.buckets.increment (s.key value)
    let s ← compactWhile loopRounds { s with buckets }
    return { s with
      numValues := s.numValues + 1
      valuesSum := s.valuesSum + value
      min := FloatOps.fmin s.min value
      max := FloatOps.fmax s.max value
      zeroCount := if FloatOps.feq value 0.0 then s.zeroCount + 1 else s.zeroCount }

/-- `n` times `compact_buckets`. -/
def compactTimes : ℕ → UDDSketch F → Option (UDDSketch F)
  | 0, s => some s
  | n + 1, s => do compactTimes n (← s.compactBuckets)

/-- `for (key, value) in other.buckets.iter() { self.buckets.entry(key).count += value; }`. -/
def addBuckets (b : SketchHashMap) (l : List (SketchHashKey × ℕ)) : Option SketchHashMap :=
  l.foldlM (fun b p => b.addCount p.1 p.2) b

/-- `merge_sketch`. Each of the two alignment loops raises `compactions` by one
a round, up to the other side's. -/
def mergeSketch (s other : UDDSketch F) : Option (UDDSketch F) :=
  if s.maxBuckets ≠ other.maxBuckets then none
  else if other.numValues = 0 then some s
  else if s.numValues = 0 then some other
  else do
    let other ← compactTimes (s.compactions - other.compactions) other
    let s ← compactTimes (other.compactions - s.compactions) s
    let buckets ← addBuckets s.buckets (← other.buckets.iter)
    let s ← compactWhile loopRounds { s with buckets }
    return { s with
      numValues := s.numValues + other.numValues
      valuesSum := s.valuesSum + other.valuesSum
      min := FloatOps.fmin s.min other.min
      max := FloatOps.fmax s.max other.max
      zeroCount := s.zeroCount + other.zeroCount }

def bucketToValue (s : UDDSketch F) : SketchHashKey → Option F
  | .zero => some 0.0
  | .positive i => some (FloatOps.powf s.gamma ((i.toInt : F) - 1.0) * (1.0 + s.alpha))
  | .negative i => some (-(FloatOps.powf s.gamma ((i.toInt : F) - 1.0) * (1.0 + s.alpha)))
  | .invalid => none

/-- `estimate_quantile`; the loop over the buckets is `Bins.pick`. -/
def estimateQuantile (s : UDDSketch F) (quantile : F) : Option F :=
  if FloatOps.le 0.0 quantile && FloatOps.le quantile 1.0 then do
    let remaining := FloatOps.toU64 ((s.numValues : F) * quantile) + 1
    let buckets ← s.buckets.iter
    if remaining ≥ s.numValues then
      match buckets.getLast? with
      | some (key, _) => s.bucketToValue key
      | none => some 0.0
    else
      s.bucketToValue (← Bins.pick buckets remaining)
  else none

def mean (s : UDDSketch F) : F :=
  if s.numValues = 0 then 0.0 else s.valuesSum / (s.numValues : F)

def sum (s : UDDSketch F) : F := s.valuesSum

def count (s : UDDSketch F) : ℕ := s.numValues

def maxError (s : UDDSketch F) : F := s.alpha

/-- The loop of `estimate_quantile_at_value` over the buckets, `count` counted. -/
def rankOf (numValues : ℕ) (target : SketchHashKey) (count : F) : List (SketchHashKey × ℕ) → F
  | [] => 1.0
  | (key, bucketCount) :: l =>
    if SketchHashKey.partialCmp target key = .gt then
      rankOf numValues target (count + (bucketCount : F)) l
    else if target = key then (count + (bucketCount : F) / 2.0) / (numValues : F)
    else count / (numValues : F)

def estimateQuantileAtValue (s : UDDSketch F) (value : F) : Option F :=
  if s.numValues = 0 then some 0.0
  else do return rankOf s.numValues (s.key value) 0.0 (← s.buckets.iter)

end UDDSketch
end ChalkMetrics
