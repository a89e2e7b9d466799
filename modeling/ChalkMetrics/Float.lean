/-
# The `f64` operations the crate calls

The sketch and the exporters are written against `FloatOps`, the operations
of `f64` they use, so that one model has two readings: `F64`, the 64-bit
patterns with IEEE arithmetic, and `ℚ`, exact arithmetic. `log`, `ceil` and
the cast to `i64` occur only as `value.log(gamma).ceil() as i64`, which is the
one operation `ceilLog`.
-/
import ChalkMetrics.Lib.CeilLog
import Mathlib.Algebra.Order.Archimedean.Basic
import Mathlib.Data.Rat.Floor

namespace ChalkMetrics

/-- The `f64` operations. `1e-12` and the other literals are read through
`OfScientific`, `n as f64` through the casts. -/
class FloatOps (F : Type) extends Add F, Sub F, Mul F, Div F, Neg F, NatCast F, IntCast F,
    OfScientific F where
  isNaN : F → Bool
  lt : F → F → Bool
  le : F → F → Bool
  /-- `==` of `f64`. -/
  feq : F → F → Bool
  abs : F → F
  fmin : F → F → F
  fmax : F → F → F
  floor : F → F
  /-- `f64::round`, half away from zero. -/
  round : F → F
  powf : F → F → F
  /-- `value.log(base).ceil() as i64`, arguments in the order base, value. -/
  ceilLog : F → F → Int64
  /-- `as u64`, saturating. -/
  toU64 : F → ℕ
  /-- `as i64`, saturating. -/
  toI64 : F → Int64
  /-- `f64::MAX`. -/
  maxValue : F
  /-- `f64::MIN`. -/
  minValue : F

/-- `to_bits` and `from_bits`. -/
class FloatBits (F : Type) where
  toBits : F → UInt64
  fromBits : UInt64 → F
  fromBits_toBits : ∀ v, fromBits (toBits v) = v

/-! ### IEEE doubles -/

/-- An `f64`: any pattern of 64 bits, NaN payloads included. -/
structure F64 where
  bits : UInt64
deriving DecidableEq

namespace F64

def toFloat (v : F64) : Float := Float.ofBits v.bits

def ofFloat (v : Float) : F64 := ⟨v.toBits⟩

instance : FloatOps F64 where
  add a b := ofFloat (a.toFloat + b.toFloat)
  sub a b := ofFloat (a.toFloat - b.toFloat)
  mul a b := ofFloat (a.toFloat * b.toFloat)
  div a b := ofFloat (a.toFloat / b.toFloat)
  neg a := ofFloat (-a.toFloat)
  natCast n := ofFloat (UInt64.ofNat n).toFloat
  intCast n := ofFloat (Float.ofInt n)
  ofScientific m s e := ofFloat (OfScientific.ofScientific m s e)
  isNaN a := a.toFloat.isNaN
  lt a b := a.toFloat < b.toFloat
  le a b := a.toFloat ≤ b.toFloat
  feq a b := a.toFloat == b.toFloat
  abs a := ofFloat a.toFloat.abs
  fmin a b :=
    if a.toFloat.isNaN then b else if b.toFloat.isNaN then a
    else if a.toFloat < b.toFloat then a else b
  fmax a b :=
    if a.toFloat.isNaN then b else if b.toFloat.isNaN then a
    else if b.toFloat < a.toFloat then a else b
  floor a := ofFloat a.toFloat.floor
  round a := ofFloat a.toFloat.round
  powf a b := ofFloat (a.toFloat.pow b.toFloat)
  ceilLog base v := (v.toFloat.log / base.toFloat.log).ceil.toInt64
  toU64 a := a.toFloat.toUInt64.toNat
  toI64 a := a.toFloat.toInt64
  maxValue := ⟨0x7FEFFFFFFFFFFFFF⟩
  minValue := ⟨0xFFEFFFFFFFFFFFFF⟩

instance : FloatBits F64 where
  toBits := bits
  fromBits := mk
  fromBits_toBits _ := rfl

end F64

/-! ### Exact arithmetic -/

/-- The largest finite `f64`. -/
def maxFinite : ℚ := 2 ^ 1024 - 2 ^ 971

/-- Round half away from zero. -/
def ratRound (v : ℚ) : ℤ := if v < 0 then -⌊-v + 1 / 2⌋ else ⌊v + 1 / 2⌋

instance : FloatOps ℚ where
  isNaN _ := false
  lt a b := a < b
  le a b := a ≤ b
  feq a b := a = b
  abs a := |a|
  fmin := min
  fmax := max
  floor a := ⌊a⌋
  round a := ratRound a
  -- the exponent of the crate's only `powf` is `i as f64 - 1.0`, an integer
  powf a b := a ^ b.num
  ceilLog base v := Int64.ofIntClamp (LogScale.ceilLog base v)
  toU64 a := ⌊a⌋.toNat
  toI64 a := Int64.ofIntClamp (if a < 0 then ⌈a⌉ else ⌊a⌋)
  maxValue := maxFinite
  minValue := -maxFinite

end ChalkMetrics
