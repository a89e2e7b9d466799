/-
# Instances with the same exported tags

Two instances of a metric are exported under the same tags if a tag has two
variants of one text, or if an optional tag left out in the one is made up for
by a later tag of its key in the other. Both can be read off the definition
(`exportPairs_inj_iff`).

Key definitions: `TagRef.meets`, `tagSlots`, `MetricDef.Unambiguous`.
-/
import ChalkMetrics.Lib.Omission
import ChalkMetrics.Macros.Definition
import Mathlib.Data.List.GetD

namespace ChalkMetrics

namespace TagDef

/-- Some value is exported as `t`. -/
def Spells (d : TagDef) (t : Text) : Prop := ∃ v, d.Has v ∧ d.exportValue v = t

/-- Some text is that of a value of both. -/
def common (d e : TagDef) : Bool :=
  match d.values, e.values with
  | some vs, some ws => vs.any (· ∈ ws)
  | some vs, none => !vs.isEmpty
  | none, some ws => !ws.isEmpty
  | none, none => true

theorem exportValue_variant {d : TagDef} {vs : List Text} (h : d.values = some vs) {i : ℕ}
    (hi : i < vs.length) : d.exportValue (.variant i) = vs[i] := by
  show (d.values.getD []).getD i [] = vs[i]
  rw [h, Option.getD_some, List.getD_eq_getElem _ _ hi]

theorem spells_variants {d : TagDef} {vs : List Text} (h : d.values = some vs) {t : Text} :
    d.Spells t ↔ t ∈ vs := by
  constructor
  · rintro ⟨v, hv, rfl⟩
    obtain ⟨i, hi, rfl⟩ := hv.variant h
    rw [exportValue_variant h hi]
    exact List.getElem_mem hi
  · intro ht
    obtain ⟨i, hi, rfl⟩ := List.mem_iff_getElem.mp ht
    exact ⟨.variant i, ⟨vs, h, hi⟩, exportValue_variant h hi⟩

theorem spells_freeForm {d : TagDef} (h : d.values = none) (t : Text) : d.Spells t :=
  ⟨.text t, h, rfl⟩

theorem common_iff {d e : TagDef} : d.common e ↔ ∃ t, d.Spells t ∧ e.Spells t := by
  unfold common
  cases hd : d.values with
  | none =>
    cases he : e.values with
    | none => exact iff_of_true rfl ⟨[], spells_freeForm hd _, spells_freeForm he _⟩
    | some ws =>
      simp only [spells_freeForm hd, spells_variants he, true_and, Bool.not_eq_true',
        List.isEmpty_eq_false_iff_exists_mem]
  | some vs =>
    cases he : e.values with
    | none =>
      simp only [spells_freeForm he, spells_variants hd, and_true, Bool.not_eq_true',
        List.isEmpty_eq_false_iff_exists_mem]
    | some ws => simp only [spells_variants hd, spells_variants he, List.any_eq_true, decide_eq_true_eq]

/-- Different variants have different texts. -/
theorem exportValue_inj_iff {d : TagDef} : (∀ vs, d.values = some vs → vs.Nodup) ↔
    ∀ v w, d.Has v → d.Has w → d.exportValue v = d.exportValue w → v = w := by
  constructor
  · intro h v w hv hw he
    cases hd : d.values with
    | none =>
      obtain ⟨s, rfl⟩ := hv.text hd
      obtain ⟨t, rfl⟩ := hw.text hd
      exact congrArg TagValue.text he
    | some vs =>
      obtain ⟨i, hi, rfl⟩ := hv.variant hd
      obtain ⟨j, hj, rfl⟩ := hw.variant hd
      rw [exportValue_variant hd hi, exportValue_variant hd hj] at he
      exact congrArg TagValue.variant ((h vs hd).getElem_inj_iff.mp he)
  · intro h vs hvs
    rw [List.Nodup, List.pairwise_iff_getElem]
    intro i j hi hj hij he
    have heq : d.exportValue (.variant i) = d.exportValue (.variant j) := by
      rw [exportValue_variant hvs hi, exportValue_variant hvs hj, he]
    have hvar := TagValue.variant.inj (h _ _ ⟨vs, hvs, hi⟩ ⟨vs, hvs, hj⟩ heq)
    omega

end TagDef

/-- Both can be exported as one pair. -/
def TagRef.meets (r s : TagRef) : Bool := r.exportKey = s.exportKey && r.ty.common s.ty

/-- The fields as slots for pairs. -/
def tagSlots : Omission.Slots TagRef (Text × Text) where
  optional := TagRef.optional
  outputs r := {p | p.1 = r.exportKey ∧ r.ty.Spells p.2}
  meets := TagRef.meets
  meets_iff r s := by
    rw [TagRef.meets, Bool.and_eq_true, decide_eq_true_eq, TagDef.common_iff]
    constructor
    · rintro ⟨hkey, t, hr, hs⟩
      exact ⟨(r.exportKey, t), ⟨rfl, hr⟩, hkey, hs⟩
    · rintro ⟨p, ⟨hr, ht⟩, hs, ht'⟩
      exact ⟨hr.symm.trans hs, p.2, ht, ht'⟩

/-- Different variants of a tag have different texts, and no tag makes up for
one left out. -/
def MetricDef.Unambiguous (d : MetricDef) : Prop :=
  (∀ r ∈ d.tags, ∀ vs ∈ r.ty.values, vs.Nodup) ∧ tagSlots.ambiguous d.tags = false

/-- With different export keys no tag makes up for another. -/
theorem MetricDef.unambiguous_of_keys {d : MetricDef} (h : (d.tags.map TagRef.exportKey).Nodup) :
    d.Unambiguous ↔ ∀ r ∈ d.tags, ∀ vs ∈ r.ty.values, vs.Nodup := by
  refine and_iff_left (Omission.Slots.ambiguous_eq_false ?_)
  refine (List.pairwise_map.mp h).imp fun {r s} hne => ?_
  show TagRef.meets r s = false
  rw [TagRef.meets, decide_eq_false hne, Bool.false_and]

instance (d : MetricDef) : Decidable d.Unambiguous := by
  unfold MetricDef.Unambiguous
  infer_instance

namespace TagRef

/-- The pairs of the fields are a choice. -/
theorem fits_choice {r : TagRef} {field : Option TagValue} (h : r.Fits field) :
    tagSlots.Fits r (r.exportPair field) := by
  cases field with
  | none => exact h
  | some v => exact ⟨rfl, v, h, rfl⟩

theorem exists_field {r : TagRef} {p : Option (Text × Text)} (h : tagSlots.Fits r p) :
    ∃ field, r.Fits field ∧ r.exportPair field = p := by
  cases p with
  | none => exact ⟨none, h, rfl⟩
  | some p =>
    obtain ⟨hkey, v, hv, hp⟩ := h
    refine ⟨some v, hv, congrArg some (Prod.ext hkey.symm hp)⟩

theorem exportPair_inj {r : TagRef} (h : ∀ vs ∈ r.ty.values, vs.Nodup) {x y : Option TagValue}
    (hx : r.Fits x) (hy : r.Fits y) (he : r.exportPair x = r.exportPair y) : x = y := by
  cases x with
  | none =>
    cases y with
    | none => rfl
    | some w => exact absurd he nofun
  | some v =>
    cases y with
    | none => exact absurd he nofun
    | some w =>
      have hvalue := congrArg Prod.snd (Option.some.inj he)
      exact congrArg some (TagDef.exportValue_inj_iff.mp h v w hx hy hvalue)

end TagRef

section

variable {rs : List TagRef}

theorem fits_choices {fields : List (Option TagValue)} (h : List.Forall₂ TagRef.Fits rs fields) :
    List.Forall₂ tagSlots.Fits rs (List.zipWith TagRef.exportPair rs fields) := by
  induction h with
  | nil => exact .nil
  | cons hr _ ih => exact .cons (TagRef.fits_choice hr) ih

theorem exists_fields_of_choices {choices : List (Option (Text × Text))}
    (h : List.Forall₂ tagSlots.Fits rs choices) : ∃ fields, List.Forall₂ TagRef.Fits rs fields ∧
      List.zipWith TagRef.exportPair rs fields = choices := by
  induction h with
  | nil => exact ⟨[], .nil, rfl⟩
  | cons hr _ ih =>
    obtain ⟨field, hfit, hpair⟩ := TagRef.exists_field hr
    obtain ⟨fields, hfits, hpairs⟩ := ih
    exact ⟨field :: fields, .cons hfit hfits, congrArg₂ List.cons hpair hpairs⟩

theorem choices_inj (h : ∀ r ∈ rs, ∀ vs ∈ r.ty.values, vs.Nodup) {fields : List (Option TagValue)}
    (hf : List.Forall₂ TagRef.Fits rs fields) : ∀ {fields' : List (Option TagValue)},
      List.Forall₂ TagRef.Fits rs fields' →
      List.zipWith TagRef.exportPair rs fields = List.zipWith TagRef.exportPair rs fields' →
      fields = fields' := by
  induction hf with
  | nil =>
    intro fields' hf' _
    cases hf'
    rfl
  | cons hr _ ih =>
    intro fields' hf' he
    obtain ⟨y, ys, hy, hys, rfl⟩ := List.forall₂_cons_left_iff.mp hf'
    obtain ⟨hdist, hdists⟩ := List.forall_mem_cons.mp h
    obtain ⟨hhead, htail⟩ := List.cons.inj he
    rw [TagRef.exportPair_inj hdist hr hy hhead, ih hdists hys htail]

/-- What the fields are exported as. -/
def pairsOf (rs : List TagRef) (fields : List (Option TagValue)) : List (Text × Text) :=
  (List.zipWith TagRef.exportPair rs fields).reduceOption

/-- Different fields are exported as different pairs. -/
def PairsInjective (rs : List TagRef) : Prop :=
  ∀ fields fields', List.Forall₂ TagRef.Fits rs fields → List.Forall₂ TagRef.Fits rs fields' →
    pairsOf rs fields = pairsOf rs fields' → fields = fields'

/-- Of the first tag the variants differ, and the others tell themselves apart. -/
theorem PairsInjective.cons {r : TagRef} (hne : ∀ s ∈ r :: rs, ∃ v, s.ty.Has v)
    (h : PairsInjective (r :: rs)) : (∀ vs ∈ r.ty.values, vs.Nodup) ∧ PairsInjective rs := by
  obtain ⟨⟨v₀, hv₀⟩, hne⟩ := List.forall_mem_cons.mp hne
  constructor
  · apply TagDef.exportValue_inj_iff.mpr
    intro v w hv hw he
    obtain ⟨fields, hfits, -⟩ := exists_fields hne
    have heq : r.exportPair (some v) = r.exportPair (some w) :=
      congrArg (fun t => some (r.exportKey, t)) he
    have hcons := h (some v :: fields) (some w :: fields) (.cons hv hfits) (.cons hw hfits) (by
      unfold pairsOf
      rw [List.zipWith_cons_cons, List.zipWith_cons_cons, heq])
    exact Option.some.inj (List.cons.inj hcons).1
  · intro fields fields' hf hf' he
    have hcons := h (some v₀ :: fields) (some v₀ :: fields') (.cons hv₀ hf) (.cons hv₀ hf')
      (congrArg (_ :: ·) he)
    exact (List.cons.inj hcons).2

theorem PairsInjective.nodup (hne : ∀ r ∈ rs, ∃ v, r.ty.Has v) (h : PairsInjective rs) :
    ∀ r ∈ rs, ∀ vs ∈ r.ty.values, vs.Nodup := by
  induction rs with
  | nil => exact fun r hr => absurd hr List.not_mem_nil
  | cons r rs ih =>
    obtain ⟨hr, hrs⟩ := h.cons hne
    exact List.forall_mem_cons.mpr ⟨hr, ih (List.forall_mem_cons.mp hne).2 hrs⟩

/-- **Which tags tell all their fields apart.** -/
theorem pairsInjective_iff (hne : ∀ r ∈ rs, ∃ v, r.ty.Has v) :
    PairsInjective rs ↔
      (∀ r ∈ rs, ∀ vs ∈ r.ty.values, vs.Nodup) ∧ tagSlots.ambiguous rs = false := by
  have houts : ∀ r ∈ rs, (tagSlots.outputs r).Nonempty := by
    intro r hr
    obtain ⟨v, hv⟩ := hne r hr
    exact ⟨(r.exportKey, r.ty.exportValue v), rfl, v, hv, rfl⟩
  constructor
  · intro h
    refine ⟨h.nodup hne, Bool.eq_false_iff.mpr fun hamb => ?_⟩
    obtain ⟨c, c', hc, hc', hcc, hread⟩ := (Omission.Slots.ambiguous_iff houts).mp hamb
    obtain ⟨fields, hf, rfl⟩ := exists_fields_of_choices hc
    obtain ⟨fields', hf', rfl⟩ := exists_fields_of_choices hc'
    exact hcc (by rw [h fields fields' hf hf' hread])
  · rintro ⟨hdist, hamb⟩ fields fields' hf hf' he
    by_contra hne'
    refine absurd ((Omission.Slots.ambiguous_iff houts).mpr ?_) (Bool.eq_false_iff.mp hamb)
    exact ⟨_, _, fits_choices hf, fits_choices hf', fun hcc => hne' (choices_inj hdist hf hf' hcc), he⟩

end

/-- **Instances are told apart by their exported tags** just when the definition
is unambiguous. -/
theorem exportPairs_inj_iff {C : CharCase} {d : MetricDef} (h : d.Accepted C) :
    (∀ a b : Metric, a.defn = d → b.defn = d → a.exportPairs = b.exportPairs → a.fields = b.fields) ↔
      d.Unambiguous := by
  refine Iff.trans ?_ (pairsInjective_iff h.exists_has)
  constructor
  · intro hd fields fields' hf hf' he
    exact hd ⟨d, fields, hf⟩ ⟨d, fields', hf'⟩ rfl rfl he
  · rintro hd a b rfl hb he
    refine hd a.fields b.fields a.fits (hb ▸ b.fits) ?_
    unfold Metric.exportPairs at he
    rw [hb] at he
    exact he

end ChalkMetrics
