/-
# Definitions that compile

The macros accept any input that parses; what they generate has to compile. The
fields of a metric type need different names, which are the aliases and the
names of the tag types in snake case, and an enum tag needs a variant, or its
`match self {}` does not cover `&Self`. Nothing compares the keys the tags are
exported under: they are the keys of the fields that are set, in order.

Key definitions: `toSnakeCase`, `TagRef.field`, `MetricDef.Accepted`.
-/
import ChalkMetrics.Macros.Metric

namespace ChalkMetrics

/-- `char::is_uppercase` and `char::to_lowercase`. -/
structure CharCase where
  isUppercase : Char → Bool
  toLowercase : Char → Text

/-- What they are on ASCII. -/
def CharCase.ascii : CharCase := ⟨Char.isUpper, fun c => [c.toLower]⟩

def toSnakeCase (C : CharCase) (s : Text) : Text :=
  s.zipIdx.flatMap fun p =>
    (if C.isUppercase p.1 && p.2 > 0 then ['_'] else []) ++ C.toLowercase p.1

/-- Of the last segment of the type's path. -/
def defaultFieldIdent (C : CharCase) (typeIdent : Text) : Text := toSnakeCase C typeIdent

/-- The name of the field of a tag. -/
def TagRef.field (C : CharCase) (r : TagRef) (typeIdent : Text) : Text :=
  r.aliasIdent.getD (defaultFieldIdent C typeIdent)

/-- What rustc asks of the generated types; discriminants are `isize`. -/
structure MetricDef.Accepted (C : CharCase) (d : MetricDef) : Prop where
  fields : ∃ typeIdents : List Text, typeIdents.length = d.tags.length ∧
    (List.zipWith (TagRef.field C) d.tags typeIdents).Nodup
  variants : ∀ r ∈ d.tags, ∀ vs, r.ty.values = some vs → vs ≠ [] ∧ vs.length ≤ 2 ^ 63

theorem MetricDef.accepted_of {C : CharCase} {d : MetricDef} (typeIdents : List Text)
    (hlen : typeIdents.length = d.tags.length)
    (hnodup : (List.zipWith (TagRef.field C) d.tags typeIdents).Nodup)
    (hvariants : ∀ r ∈ d.tags, ∀ vs ∈ r.ty.values, vs ≠ [] ∧ vs.length ≤ 2 ^ 63) : d.Accepted C :=
  ⟨⟨typeIdents, hlen, hnodup⟩, hvariants⟩

example : toSnakeCase .ascii "HttpStatus".toList = "http_status".toList := by decide

/-- A value of an enum tag. -/
theorem TagDef.Has.variant {d : TagDef} {vs : List Text} (h : d.values = some vs) {v : TagValue}
    (hv : d.Has v) : ∃ i < vs.length, v = .variant i := by
  cases v with
  | variant i =>
    obtain ⟨ws, hws, hi⟩ := hv
    obtain rfl := Option.some.inj (h.symm.trans hws)
    exact ⟨i, hi, rfl⟩
  | text s =>
    have hnone : some vs = none := h.symm.trans hv
    cases hnone

/-- A value of a free-form tag. -/
theorem TagDef.Has.text {d : TagDef} (h : d.values = none) {v : TagValue} (hv : d.Has v) :
    ∃ s, v = .text s := by
  cases v with
  | variant i =>
    obtain ⟨vs, hvs, -⟩ := hv
    have hnone : some vs = none := hvs.symm.trans h
    cases hnone
  | text s => exact ⟨s, rfl⟩

theorem MetricDef.Accepted.exists_has {C : CharCase} {d : MetricDef} (h : d.Accepted C) :
    ∀ r ∈ d.tags, ∃ v, r.ty.Has v := by
  intro r hr
  cases hv : r.ty.values with
  | none => exact ⟨.text [], hv⟩
  | some vs => exact ⟨.variant 0, vs, hv, List.length_pos_of_ne_nil (h.variants r hr vs hv).1⟩

/-! ### Export keys -/

/-- Every field set, to a value of its tag. -/
theorem exists_fields : ∀ {rs : List TagRef}, (∀ r ∈ rs, ∃ v, r.ty.Has v) →
    ∃ fields : List (Option TagValue), List.Forall₂ TagRef.Fits rs fields ∧
      ((List.zipWith TagRef.exportPair rs fields).filterMap id).map Prod.fst =
        rs.map TagRef.exportKey
  | [], _ => ⟨[], .nil, rfl⟩
  | r :: rs, h => by
    obtain ⟨⟨v, hv⟩, hrs⟩ := List.forall_mem_cons.mp h
    obtain ⟨fields, hfits, hkeys⟩ := exists_fields hrs
    exact ⟨some v :: fields, .cons hv hfits, congrArg (r.exportKey :: ·) hkeys⟩

/-- **Every export key occurs in some instance.** -/
theorem MetricDef.Accepted.exists_metric {C : CharCase} {d : MetricDef} (h : d.Accepted C) :
    ∃ m : Metric, m.defn = d ∧ m.exportPairs.map Prod.fst = d.tags.map TagRef.exportKey := by
  obtain ⟨fields, hfits, hkeys⟩ := exists_fields h.exists_has
  exact ⟨⟨d, fields, hfits⟩, rfl, hkeys⟩

theorem exportKeys_sublist : ∀ (rs : List TagRef) (fields : List (Option TagValue)),
    (((List.zipWith TagRef.exportPair rs fields).filterMap id).map Prod.fst).Sublist
      (rs.map TagRef.exportKey)
  | [], _ => List.nil_sublist _
  | _ :: _, [] => List.nil_sublist _
  | _ :: rs, none :: fields => (exportKeys_sublist rs fields).cons _
  | _ :: rs, some _ :: fields => (exportKeys_sublist rs fields).cons_cons _

/-- **Only export keys occur**, each once for a field. -/
theorem Metric.exportPairs_sublist (m : Metric) :
    (m.exportPairs.map Prod.fst).Sublist (m.defn.tags.map TagRef.exportKey) :=
  exportKeys_sublist m.defn.tags m.fields

end ChalkMetrics
