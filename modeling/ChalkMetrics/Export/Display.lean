/-
# Numbers as text

What `{}` prints for the numbers an exporter writes: `u64` and `i64` in
decimal, `f64` as the shortest decimal that reads back as the same double,
without an exponent. No number is printed with a character other than
`numberChars`.

Key definitions: `displayNat`, `displayInt`, `F64.display`.
-/
import ChalkMetrics.Aggregator.Slots
import Mathlib.Data.Int.Log

namespace ChalkMetrics

/-- The characters numbers are printed with. -/
def numberChars : List Char := "0123456789.-NaNinf".toList

/-- The characters of tag keys. -/
def labelChars : Set Char := {c | c.isAlphanum ∨ c = '_'}

instance : DecidablePred (· ∈ labelChars) := fun c =>
  inferInstanceAs (Decidable (c.isAlphanum ∨ c = '_'))

def displayNat (n : ℕ) : Text := Nat.toDigits 10 n

def displayInt (n : ℤ) : Text := if n < 0 then '-' :: displayNat n.natAbs else displayNat n.natAbs

/-- Checked character by character. -/
theorem forall_mem_of_all {P : Char → Prop} [DecidablePred P] {t : Text}
    (h : (t.all fun c => P c) = true) : ∀ c ∈ t, P c := by
  simpa using h

/-- A type of floats with its `Display`. -/
class FloatText (F : Type) extends FloatOps F where
  display : F → Text
  display_mem : ∀ v, ∀ c ∈ display v, c ∈ numberChars

theorem mem_displayNat {n : ℕ} {c : Char} (h : c ∈ displayNat n) : c ∈ numberChars := by
  have hd : c.isDigit := Nat.isDigit_of_mem_toDigits (by decide) (by decide) h
  simp only [Char.isDigit, Bool.and_eq_true, decide_eq_true_eq] at hd
  have hval : ∀ m : Fin 10, Char.ofNat (48 + m) ∈ numberChars := by decide
  have hlo : 48 ≤ c.toNat := hd.1
  have hhi : c.toNat ≤ 57 := hd.2
  have hc := hval ⟨c.toNat - 48, by omega⟩
  rwa [show 48 + (c.toNat - 48) = c.toNat by omega, Char.ofNat_toNat] at hc

theorem mem_displayInt {n : ℤ} {c : Char} (h : c ∈ displayInt n) : c ∈ numberChars := by
  unfold displayInt at h
  split_ifs at h
  · rcases List.mem_cons.mp h with rfl | h
    · decide
    · exact mem_displayNat h
  · exact mem_displayNat h

/-! ### Doubles -/

namespace F64

/-- The significand of a finite double. -/
def mantissa (v : F64) : ℕ :=
  let fraction := v.bits.toNat % 2 ^ 52
  if v.bits.toNat / 2 ^ 52 % 2 ^ 11 = 0 then fraction else 2 ^ 52 + fraction

/-- The power of two the significand is multiplied with. -/
def exponent (v : F64) : ℤ := max 1 (v.bits.toNat / 2 ^ 52 % 2 ^ 11 : ℕ) - 1075

/-- The decimals that read back as `m * 2 ^ e`: nearer to it than to the next
doubles, or as near if `m` is even. Below a power of two they are half as far
apart. -/
def readsBack (m : ℕ) (e : ℤ) (x : ℚ) : Bool :=
  let value : ℚ := m * 2 ^ e
  let below : ℚ := 2 ^ e / if m = 2 ^ 52 then 4 else 2
  let above : ℚ := 2 ^ e / 2
  if m % 2 = 0 then value - below ≤ x && x ≤ value + above
  else value - below < x && x < value + above

/-- The decimal of `n` digits nearest to `m * 2 ^ e`, the greater of two, as digits
and exponent, if it reads back; 17 digits are always enough. -/
def shortest (m : ℕ) (e : ℤ) (n : ℕ) : ℕ × ℤ :=
  let value : ℚ := m * 2 ^ e
  let p : ℤ := Int.log 10 value + 1 - n
  let digits := ⌊value / 10 ^ p⌋.toNat
  let near := if value / 10 ^ p - digits < 1 / 2 then digits else digits + 1
  let far := if value / 10 ^ p - digits < 1 / 2 then digits + 1 else digits
  if readsBack m e (near * 10 ^ p) then (near, p)
  else if readsBack m e (far * 10 ^ p) then (far, p)
  else if n < 17 then shortest m e (n + 1)
  else (near, p)
termination_by 17 - n

/-- No zeros behind the point. -/
def stripZeros : ℕ → ℕ × ℤ → ℕ × ℤ
  | 0, d => d
  | fuel + 1, (digits, p) =>
    if digits % 10 = 0 ∧ p < 0 then stripZeros fuel (digits / 10, p + 1) else (digits, p)

/-- The digits `ds` times `10 ^ p`, without an exponent. -/
def plainDecimal (ds : Text) (p : ℤ) : Text :=
  if 0 ≤ p then ds ++ List.replicate p.toNat '0'
  else if p.natAbs < ds.length then
    ds.take (ds.length - p.natAbs) ++ '.' :: ds.drop (ds.length - p.natAbs)
  else '0' :: '.' :: (List.replicate (p.natAbs - ds.length) '0' ++ ds)

/-- What is printed for the absolute value. -/
def displayAbs (v : F64) : Text :=
  if v.bits.toNat / 2 ^ 52 % 2 ^ 11 = 2047 then
    if v.bits.toNat % 2 ^ 52 = 0 then "inf".toList else "NaN".toList
  else if v.mantissa = 0 then ['0']
  else
    let d := stripZeros 17 (shortest v.mantissa v.exponent 1)
    plainDecimal (displayNat d.1) d.2

/-- NaN has no sign. -/
def display (v : F64) : Text :=
  if v.bits.toNat / 2 ^ 63 = 1 ∧ v.displayAbs ≠ "NaN".toList then '-' :: v.displayAbs
  else v.displayAbs

theorem mem_plainDecimal {ds : Text} {p : ℤ} {c : Char} (hds : ∀ c ∈ ds, c ∈ numberChars)
    (h : c ∈ plainDecimal ds p) : c ∈ numberChars := by
  have hzero : ∀ n, c ∈ List.replicate n '0' → c ∈ numberChars := by
    intro n hc
    rw [List.eq_of_mem_replicate hc]
    decide
  have hdot : '.' ∈ numberChars := by decide
  unfold plainDecimal at h
  split_ifs at h
  · rcases List.mem_append.mp h with h | h
    · exact hds c h
    · exact hzero _ h
  · rcases List.mem_append.mp h with h | h
    · exact hds c (List.mem_of_mem_take h)
    · rcases List.mem_cons.mp h with rfl | h
      · exact hdot
      · exact hds c (List.mem_of_mem_drop h)
  · rcases List.mem_cons.mp h with rfl | h
    · decide
    · rcases List.mem_cons.mp h with rfl | h
      · exact hdot
      · rcases List.mem_append.mp h with h | h
        · exact hzero _ h
        · exact hds c h

theorem mem_displayAbs {v : F64} {c : Char} (h : c ∈ v.displayAbs) : c ∈ numberChars := by
  have hword : ∀ c ∈ "inf".toList ++ "NaN".toList ++ ['0'], c ∈ numberChars :=
    forall_mem_of_all (by decide)
  unfold displayAbs at h
  split_ifs at h
  · exact hword c (List.mem_append_left _ (List.mem_append_left _ h))
  · exact hword c (List.mem_append_left _ (List.mem_append_right _ h))
  · exact hword c (List.mem_append_right _ h)
  · exact mem_plainDecimal (fun c => mem_displayNat) h

theorem mem_display {v : F64} {c : Char} (h : c ∈ v.display) : c ∈ numberChars := by
  unfold display at h
  split_ifs at h
  · rcases List.mem_cons.mp h with rfl | h
    · decide
    · exact mem_displayAbs h
  · exact mem_displayAbs h

instance : FloatText F64 where
  display := display
  display_mem _ _ := mem_display

end F64
end ChalkMetrics
