/-
# The bytes a metric is hashed by

What a derived `Hash` writes for an instance is read back field by field: an
enum of several variants writes a discriminant of 8 bytes, a `String` its UTF-8
bytes up to `0xFF`, which is in no UTF-8 text, and an `Option` puts a
discriminant in front. Two instances of one metric that write the same bytes are
the same (`hashStream_injective`).
-/
import ChalkMetrics.Lib.PrefixCode
import ChalkMetrics.Macros.Definition

namespace ChalkMetrics

open PrefixCode

namespace TagDef

theorem length_isizeBytes (n : ℕ) : (isizeBytes n).length = 8 := by
  simp [isizeBytes]

/-- Numbers with the same `k` low bytes. -/
theorem mod_eq_of_bytes {m n : ℕ} : ∀ k, (∀ j < k, m / 256 ^ j % 256 = n / 256 ^ j % 256) →
    m % 256 ^ k = n % 256 ^ k
  | 0, _ => by rw [Nat.pow_zero, Nat.mod_one, Nat.mod_one]
  | k + 1, h => by
    have ih := mod_eq_of_bytes k fun j hj => h j (Nat.lt_succ_of_lt hj)
    rw [Nat.mod_pow_succ, Nat.mod_pow_succ, ih, h k (Nat.lt_succ_self k)]

theorem isizeBytes_inj {m n : ℕ} (hm : m < 2 ^ 64) (hn : n < 2 ^ 64)
    (h : isizeBytes m = isizeBytes n) : m = n := by
  have hbyte : ∀ a b : ℕ, UInt8.ofNat (a % 256) = UInt8.ofNat (b % 256) → a % 256 = b % 256 := by
    intro a b hab
    have hnat := congrArg UInt8.toNat hab
    simpa using hnat
  have hbytes : ∀ j < 8, m / 256 ^ j % 256 = n / 256 ^ j % 256 := fun j hj =>
    hbyte _ _ (List.map_inj_left.mp h j (List.mem_range.mpr hj))
  have hmod := mod_eq_of_bytes 8 hbytes
  rwa [Nat.mod_eq_of_lt (by omega), Nat.mod_eq_of_lt (by omega)] at hmod

/-- The UTF-8 bytes of a free-form value. -/
def textBytes : TagValue → List UInt8
  | .variant _ => []
  | .text s => s.flatMap String.utf8EncodeChar

/-- `0xFF` occurs in no UTF-8 text. -/
theorem ff_not_mem_utf8 (s : Text) : (0xFF : UInt8) ∉ s.flatMap String.utf8EncodeChar := by
  have hbyte : ∀ n : ℕ, n < 0xF8 → (0xFF : UInt8) ≠ UInt8.ofNat n := by
    intro n hn h
    have hnat := congrArg UInt8.toNat h
    rw [UInt8.toNat_ofNat', Nat.mod_eq_of_lt (by omega)] at hnat
    have h255 : (0xFF : UInt8).toNat = 255 := rfl
    omega
  have hchar : ∀ c, ∀ b ∈ String.utf8EncodeChar c, (0xFF : UInt8) ≠ b := by
    intro c
    unfold String.utf8EncodeChar
    dsimp only
    split_ifs
    all_goals simp only [List.forall_mem_cons, List.not_mem_nil, false_imp_iff, implies_true, and_true]
    · exact hbyte _ (by omega)
    · exact ⟨hbyte _ (by omega), hbyte _ (by omega)⟩
    · exact ⟨hbyte _ (by omega), hbyte _ (by omega), hbyte _ (by omega)⟩
    · exact ⟨hbyte _ (by omega), hbyte _ (by omega), hbyte _ (by omega), hbyte _ (by omega)⟩
  intro h
  obtain ⟨c, -, h⟩ := List.mem_flatMap.mp h
  exact hchar c _ h rfl

theorem utf8_inj {s t : Text}
    (h : s.flatMap String.utf8EncodeChar = t.flatMap String.utf8EncodeChar) : s = t := by
  have henc : s.utf8Encode = t.utf8Encode := congrArg List.toByteArray h
  have hdec := congrArg ByteArray.utf8Decode? henc
  rw [List.utf8Decode?_utf8Encode, List.utf8Decode?_utf8Encode] at hdec
  simpa using hdec

theorem codes_text {d : TagDef} (hd : d.values = none) : Codes d.Has d.hashValue := by
  have hmarked : Codes d.Has fun v => textBytes v ++ [0xFF] := by
    apply codes_marked
    · intro v hv
      obtain ⟨s, rfl⟩ := hv.text hd
      exact ff_not_mem_utf8 s
    · intro v w hv hw he
      obtain ⟨s, rfl⟩ := hv.text hd
      obtain ⟨t, rfl⟩ := hw.text hd
      exact congrArg TagValue.text (utf8_inj he)
  refine hmarked.congr fun v hv => ⟨hv, ?_⟩
  obtain ⟨s, rfl⟩ := hv.text hd
  rfl

/-- Of one variant nothing is written. -/
theorem codes_variant {d : TagDef} {vs : List Text} (hd : d.values = some vs)
    (hone : vs.length ≤ 1) : Codes d.Has d.hashValue := by
  have hnone : Codes d.Has fun _ => ([] : List UInt8) := by
    apply codes_subsingleton
    intro v w hv hw
    obtain ⟨i, hi, rfl⟩ := hv.variant hd
    obtain ⟨j, hj, rfl⟩ := hw.variant hd
    exact congrArg TagValue.variant (by omega)
  refine hnone.congr fun v hv => ⟨hv, ?_⟩
  obtain ⟨i, -, rfl⟩ := hv.variant hd
  simp [hashValue, hd, hone]

theorem codes_variants {d : TagDef} {vs : List Text} (hd : d.values = some vs)
    (hmore : ¬ vs.length ≤ 1) (hlen : vs.length ≤ 2 ^ 63) : Codes d.Has d.hashValue := by
  have hbytes : ∀ i, d.hashValue (.variant i) = isizeBytes i := by
    intro i
    simp [hashValue, hd, hmore]
  apply codes_fixed
  · intro v hv
    obtain ⟨i, -, rfl⟩ := hv.variant hd
    rw [hbytes, length_isizeBytes]
  · intro v w hv hw he
    obtain ⟨i, hi, rfl⟩ := hv.variant hd
    obtain ⟨j, hj, rfl⟩ := hw.variant hd
    rw [hbytes, hbytes] at he
    exact congrArg TagValue.variant (isizeBytes_inj (by omega) (by omega) he)

/-- The bytes of a value end by themselves. -/
theorem codes_hashValue {d : TagDef} (h : ∀ vs, d.values = some vs → vs.length ≤ 2 ^ 63) :
    Codes d.Has d.hashValue := by
  cases hd : d.values with
  | none => exact codes_text hd
  | some vs =>
    by_cases hone : vs.length ≤ 1
    · exact codes_variant hd hone
    · exact codes_variants hd hone (h vs hd)

end TagDef

theorem TagRef.codes_hashField {r : TagRef} (h : ∀ vs, r.ty.values = some vs → vs.length ≤ 2 ^ 63) :
    Codes r.Fits r.hashField := by
  have hvalue := TagDef.codes_hashValue h
  by_cases hopt : r.optional
  · have hflags : TagDef.isizeBytes 0 ≠ TagDef.isizeBytes 1 := fun he =>
      absurd (TagDef.isizeBytes_inj (by omega) (by omega) he) (by omega)
    refine (hvalue.option (TagDef.length_isizeBytes 0) hflags).congr fun field hfits => ⟨?_, ?_⟩
    · rintro v rfl
      exact hfits
    · cases field with
      | none => exact if_pos hopt
      | some v => exact if_pos hopt
  · intro x y hx hy rest rest' he
    cases x with
    | none => exact absurd hx hopt
    | some v =>
      cases y with
      | none => exact absurd hy hopt
      | some w =>
        simp only [hashField, if_neg hopt] at he
        obtain ⟨rfl, hrest⟩ := hvalue v w hx hy rest rest' he
        exact ⟨rfl, hrest⟩

/-- Instances of one metric are the same if their fields are. -/
theorem Metric.ext_fields {a b : Metric} (hd : a.defn = b.defn) (hf : a.fields = b.fields) : a = b := by
  obtain ⟨d, fields, hfits⟩ := a
  obtain rfl : d = b.defn := hd
  obtain rfl : fields = b.fields := hf
  rfl

/-- **Instances of one metric that write the same bytes are the same.** -/
theorem hashStream_injective {C : CharCase} {a b : Metric} (h : a.defn.Accepted C)
    (hd : a.defn = b.defn) (hs : a.hashStream = b.hashStream) : a = b := by
  have hcodes : Codes (List.Forall₂ TagRef.Fits a.defn.tags) fun fields =>
      (List.zipWith TagRef.hashField a.defn.tags fields).flatten :=
    Codes.zip fun r hr => TagRef.codes_hashField fun vs hvs => (h.variants r hr vs hvs).2
  refine Metric.ext_fields hd (hcodes.injective a.fits (hd ▸ b.fits) ?_)
  unfold Metric.hashStream at hs
  rw [← hd] at hs
  exact hs

end ChalkMetrics
