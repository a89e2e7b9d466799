/-
# Which label values the exposition format tells apart

Label values are written as they are, between quotes, and so are names in front
of the labels. Over an alphabet `N` for names and one `A` for tag values,
different tag lists give different texts, every line is one line of the text,
and series of one exporter are told apart (`LabelsUnambiguous`) just when no
value over `A` can spell the end of its label and the start of another, no name
over `N` the start of labels, and neither of them nor the exporter's namespace
has a newline (`labelsUnambiguous_iff`). Arbitrary strings do all of it
(`value_spells_label`).

Key definitions: `LabelsUnambiguous`, `SpellsLabel`, `SpellsLabels`.
-/
import ChalkMetrics.Export.Prometheus

namespace ChalkMetrics

open Delimited PairSyntax

def labelSyntax : PairSyntax Char := ⟨'=', ['"'], some '"', ','⟩

theorem labelSyntax_keys : labelSyntax.Keys labelChars where
  mid := by decide
  sep := by decide
  sep_ne := by decide
  close := by
    rintro c ⟨⟩
    decide
  opens := by
    intro c hc
    rw [List.mem_singleton.mp hc]
    rfl

@[simp] theorem formatTags_nil : formatTags [] = [] := rfl

theorem formatTags_cons (p : Text × Text) (pairs : List (Text × Text)) :
    formatTags (p :: pairs) = '{' :: (labelSyntax.encode (p :: pairs) ++ ['}']) := by
  have hpair : labelSyntax.pair = fun p : Text × Text => p.1 ++ "=\"".toList ++ p.2 ++ ['"'] := by
    funext p
    simp [PairSyntax.pair, labelSyntax]
  rw [formatTags, encode, hpair]
  rfl

theorem formatTags_eq_iff {p q : List (Text × Text)} :
    formatTags p = formatTags q ↔ labelSyntax.encode p = labelSyntax.encode q := by
  rcases p with _ | ⟨a, p⟩ <;> rcases q with _ | ⟨b, q⟩
  · exact ⟨fun _ => rfl, fun _ => rfl⟩
  · exact ⟨fun h => absurd h.symm (by rw [formatTags_cons]; exact List.cons_ne_nil _ _),
      fun h => absurd h.symm (encode_ne_nil b q)⟩
  · exact ⟨fun h => absurd h (by rw [formatTags_cons]; exact List.cons_ne_nil _ _),
      fun h => absurd h (encode_ne_nil a p)⟩
  · rw [formatTags_cons, formatTags_cons, List.cons_inj_right, List.append_cancel_right_eq]

/-- Values over `A` can hold a whole `",name=`. -/
def SpellsLabel (A : Set Char) : Prop :=
  '"' ∈ A ∧ ',' ∈ A ∧ '=' ∈ A ∧ ∃ c ∈ labelChars, c ∈ A

/-- Names over `N` can hold labels: all of them, or up to within a value over `A`
that goes on as labels do. -/
def SpellsLabels (N A : Set Char) : Prop :=
  '{' ∈ N ∧ '=' ∈ N ∧ '"' ∈ N ∧
    ('}' ∈ N ∨ '{' ∈ A ∧ '=' ∈ A ∧ '"' ∈ A ∧ ∃ c ∈ labelChars, c ∈ A)

theorem formatTags_injective_iff (A : Set Char) :
    (∀ p q, Over labelChars A p → Over labelChars A q → formatTags p = formatTags q → p = q) ↔
      ¬ SpellsLabel A := by
  have h := encode_injective_iff labelSyntax_keys A
  simp only [formatTags_eq_iff]
  rw [h, SpellsLabel]
  simp [labelSyntax]

section

variable {F : Type} [FloatText F]

/-- Names are over `N`, tags over `A`. -/
structure Exposed (N A : Set Char) (m : FlushedMetric (BitVec 64) F) : Prop where
  names : ∀ t ∈ m.namespacePath ++ [m.metricName.text], ∀ c ∈ t, c ∈ N
  tags : Over labelChars A m.tags.pairs

/-- Tags are told apart, a line is a line, and no two series write the same one. -/
structure LabelsUnambiguous (e : PrometheusExporter F) (N A : Set Char) : Prop where
  injective : ∀ p q, Over labelChars A p → Over labelChars A q → formatTags p = formatTags q → p = q
  lines : ∀ batch text, (∀ m ∈ batch, Exposed N A m) → e.render batch = some text →
    e.renderLines batch = some (lines '\n' text)
  series : ∀ m m' f f', Exposed N A m → Exposed N A m' → e.family m = some f → e.family m' = some f' →
    ∀ s ∈ f.samples, ∀ s' ∈ f'.samples, s.line = s'.line → s.name = s'.name ∧ s.labels = s'.labels

/-! ### What a sample is made of -/

/-- What stands in front of every name. -/
def PrometheusExporter.before (e : PrometheusExporter F) : Text :=
  e.namespacePrefix.elim [] (· ++ ['_'])

/-- Names over `N` with underscores and suffixes, tags over `A` or `le`, numbers. -/
structure Sample.Plain (before : Text) (N A : Set Char) (s : Sample) : Prop where
  name : ∃ n, s.name = before ++ n ∧ ∀ c ∈ n, c ∈ N ∨ c ∈ labelChars
  labels : ∀ p ∈ s.labels, IsKey labelChars p.1 ∧ ((∀ c ∈ p.2, c ∈ A) ∨ ∀ c ∈ p.2, c ∈ leChars)
  value : ∀ c ∈ s.value, c ∈ numberChars

omit [FloatText F] in
theorem fullName_before (e : PrometheusExporter F) (path : List Text) (metricName : Text) :
    e.fullName path metricName = e.before ++ ['_'].intercalate (path ++ [metricName]) := by
  rcases hp : e.namespacePrefix with _ | ns
  · simp [PrometheusExporter.fullName, PrometheusExporter.before, hp]
  · rw [PrometheusExporter.fullName, PrometheusExporter.before, hp, Option.toList_some,
      List.append_assoc, List.singleton_append, List.intercalate_cons_of_ne_nil (by simp)]
    rfl

omit [FloatText F] in
theorem mem_fullName {N : Set Char} {parts : List Text} (h : ∀ t ∈ parts, ∀ c ∈ t, c ∈ N) :
    ∀ c ∈ ['_'].intercalate parts, c ∈ N ∨ c ∈ labelChars := by
  intro c hc
  rcases mem_join hc with rfl | ⟨t, ht, hc⟩
  · exact .inr (by decide)
  · exact .inl (h t ht c hc)

theorem underscore_isKey : IsKey labelChars "_".toList :=
  ⟨by decide, forall_mem_of_all (by decide)⟩

theorem le_isKey : IsKey labelChars "le".toList := ⟨by decide, forall_mem_of_all (by decide)⟩

/-- **Every sample of a metric is plain.** -/
theorem sample_plain {e : PrometheusExporter F} {N A : Set Char} {m : FlushedMetric (BitVec 64) F}
    {f : Family} (hm : Exposed N A m) (h : e.family m = some f) :
    ∀ s ∈ f.samples, s.Plain e.before N A := by
  intro s hs
  have hs := (family_of h).samples s hs
  have hsuffix : ∀ t ∈ suffixes, ∀ c ∈ t, c ∈ labelChars := by
    intro t ht
    have hall : suffixes.all (fun t => t.all fun c => c ∈ labelChars) = true := by decide
    exact forall_mem_of_all (List.all_eq_true.mp hall t ht)
  have htags : ∀ p ∈ m.tags.pairs,
      IsKey labelChars p.1 ∧ ((∀ c ∈ p.2, c ∈ A) ∨ ∀ c ∈ p.2, c ∈ leChars) :=
    fun p hp => ⟨(hm.tags p hp).1, .inl (hm.tags p hp).2⟩
  obtain ⟨suffix, hsuf, hsname⟩ := hs.name
  refine ⟨⟨_, by rw [hsname, fullName_before, List.append_assoc], fun c hc => ?_⟩, ?_, hs.value⟩
  · rcases List.mem_append.mp hc with hc | hc
    · exact mem_fullName hm.names c hc
    · exact .inr (hsuffix suffix hsuf c hc)
  · rcases hs.labels with hl | ⟨leStr, hle, hl⟩
    · rw [hl]
      exact htags
    · rw [hl]
      intro p hp
      rcases List.mem_append.mp hp with hp | hp
      · exact htags p hp
      · rw [List.mem_singleton.mp hp]
        exact ⟨le_isKey, .inr hle⟩

/-! ### Lines -/

omit [FloatText F] in
theorem mem_formatTags {tags : List (Text × Text)} {c : Char} (h : c ∈ formatTags tags) :
    c ∈ ['{', '}', ',', '=', '"'] ∨ ∃ p ∈ tags, c ∈ p.1 ∨ c ∈ p.2 := by
  rcases tags with _ | ⟨p, tags⟩
  · exact absurd h List.not_mem_nil
  have hdelims : ∀ c ∈ labelSyntax.sep :: labelSyntax.mid ::
      (labelSyntax.opens ++ labelSyntax.close.toList), c ∈ ['{', '}', ',', '=', '"'] :=
    forall_mem_of_all (by decide)
  rw [formatTags_cons, List.mem_cons, List.mem_append, List.mem_singleton] at h
  rcases h with rfl | h | rfl
  · exact .inl (by decide)
  · obtain h | h := mem_encode h
    · exact .inl (hdelims c h)
    · exact .inr h
  · exact .inl (by decide)

omit [FloatText F] in
/-- A family stays on its lines. -/
theorem Family.Of.newline {name : Text} {tags : List (Text × Text)} {f : Family}
    (hf : f.Of name tags) (hn : '\n' ∉ name) (ht : ∀ p ∈ tags, '\n' ∉ p.1 ∧ '\n' ∉ p.2) :
    ∀ l ∈ f.lines, '\n' ∉ l := by
  have hsuffix : ∀ {n : Text}, (∃ suffix ∈ suffixes, n = name ++ suffix) → '\n' ∉ n := by
    rintro n ⟨suffix, hs, rfl⟩
    have hall : suffixes.all (fun t => '\n' ∉ t) = true := by decide
    rw [List.mem_append, not_or]
    exact ⟨hn, by simpa using List.all_eq_true.mp hall suffix hs⟩
  have htype : '\n' ∉ f.type := by
    have hall : ["counter".toList, "gauge".toList, "histogram".toList].all (fun t => '\n' ∉ t) = true := by
      decide
    simpa using List.all_eq_true.mp hall f.type hf.type
  have hname := hsuffix hf.name
  have hlabels : ∀ {labels : List (Text × Text)}, (∀ p ∈ labels, '\n' ∉ p.1 ∧ '\n' ∉ p.2) →
      '\n' ∉ formatTags labels := by
    intro labels hl hmem
    obtain h | ⟨p, hp, h | h⟩ := mem_formatTags hmem
    · exact absurd h (by decide)
    · exact (hl p hp).1 h
    · exact (hl p hp).2 h
  intro l hl
  simp only [Family.lines, List.mem_append, List.mem_cons, List.not_mem_nil, or_false] at hl
  rcases hl with (rfl | rfl) | hl
  · rw [hf.help]
    simp [hname, hn]
  · simp [hname, htype]
  · obtain ⟨s, hs, rfl⟩ := List.mem_map.mp hl
    have hs := hf.samples s hs
    have hsname := hsuffix hs.name
    have hvalue : '\n' ∉ s.value := fun hmem => absurd (hs.value _ hmem) (by decide)
    have hslabels : '\n' ∉ formatTags s.labels := by
      rcases hs.labels with hl | ⟨leStr, hle, hl⟩
      · rw [hl]
        exact hlabels ht
      · rw [hl]
        refine hlabels fun p hp => ?_
        rcases List.mem_append.mp hp with hp | hp
        · exact ht p hp
        · rw [List.mem_singleton.mp hp]
          exact ⟨by simp, fun hmem => absurd (hle _ hmem) (by decide)⟩
    simp [Sample.line, Sample.id, hsname, hslabels, hvalue]

theorem family_newline {e : PrometheusExporter F} {N A : Set Char} {m : FlushedMetric (BitVec 64) F}
    {f : Family} (hm : Exposed N A m) (h : e.family m = some f) (hN : '\n' ∉ N) (hA : '\n' ∉ A)
    (hb : '\n' ∉ e.before) : ∀ l ∈ f.lines, '\n' ∉ l := by
  refine (family_of h).newline ?_ fun p hp => ?_
  · rw [fullName_before, List.mem_append, not_or]
    refine ⟨hb, fun hmem => ?_⟩
    rcases mem_fullName hm.names _ hmem with hmem | hmem
    · exact hN hmem
    · exact absurd hmem (by decide)
  · obtain ⟨hk, hv⟩ := hm.tags p hp
    exact ⟨fun hmem => absurd (hk.2 _ hmem) (by decide), fun hmem => hA (hv _ hmem)⟩

theorem renderLines_newline {e : PrometheusExporter F} {N A : Set Char} (hN : '\n' ∉ N)
    (hA : '\n' ∉ A) (hb : '\n' ∉ e.before) {batch : List (FlushedMetric (BitVec 64) F)}
    {ls : List Text} (hm : ∀ m ∈ batch, Exposed N A m) (h : e.renderLines batch = some ls) :
    ∀ l ∈ ls, '\n' ∉ l := by
  obtain ⟨-, rfl⟩ := PrometheusExporter.renderLines_eq h
  intro l hl
  obtain ⟨f, hf, hl⟩ := List.mem_flatMap.mp hl
  obtain ⟨m, hmem, hf⟩ := List.mem_filterMap.mp hf
  exact family_newline (hm m hmem) hf hN hA hb l hl

/-! ### Series -/

omit [FloatText F] in
theorem mem_value_of_plain {before : Text} {N A : Set Char} {s : Sample} (hs : s.Plain before N A)
    {p : Text × Text} (hp : p ∈ s.labels) {c : Char} (hc : c ∈ p.2) (hle : c ∉ leChars) : c ∈ A := by
  obtain ⟨-, hv | hv⟩ := hs.labels p hp
  · exact hv c hc
  · exact absurd (hv c hc) hle

omit [FloatText F] in
/-- Without quotes in the values there are two for every label. -/
theorem count_quotes : ∀ {ps : List (Text × Text)}, (∀ p ∈ ps, '"' ∉ p.1 ∧ '"' ∉ p.2) →
    (labelSyntax.rest ps).count '"' = 2 * ps.length
  | [], _ => rfl
  | p :: ps, h => by
    have ih := count_quotes fun q hq => h q (List.mem_cons_of_mem p hq)
    obtain ⟨hk, hv⟩ := h p List.mem_cons_self
    have hpair : (labelSyntax.pair p).count '"' = 2 := by
      simp [PairSyntax.pair, labelSyntax, List.count_eq_zero_of_not_mem hk,
        List.count_eq_zero_of_not_mem hv]
    have hsep : labelSyntax.sep ≠ '"' := by decide
    rw [rest, encode_cons, List.count_cons_of_ne hsep, List.count_append, hpair, ih,
      List.length_cons]
    omega

omit [FloatText F] in
/-- If a name may end with labels, it spells them. -/
theorem spells_of_moved {before : Text} {N A : Set Char} {s s' : Sample} {u : Text}
    (hs : s.Plain before N A) (hs' : s'.Plain before N A) (hu : ∀ c ∈ u, c ∈ N ∨ c ∈ labelChars)
    (h : formatTags s.labels = u ++ formatTags s'.labels) : u = [] ∨ SpellsLabels N A := by
  have hN : ∀ c ∈ u, c ∉ labelChars → c ∈ N := fun c hc hn => (hu c hc).resolve_right hn
  rcases hl : s.labels with _ | ⟨p, ps⟩
  · rw [hl, formatTags_nil] at h
    exact .inl (List.append_eq_nil_iff.mp h.symm).1
  rcases u with _ | ⟨d, u⟩
  · exact .inl rfl
  right
  rw [hl, formatTags_cons] at h
  obtain ⟨rfl, hmoved⟩ := List.cons.inj h
  have hmoved : labelSyntax.encode (p :: ps) ++ ['}'] = u ++ formatTags s'.labels := hmoved
  have hkeys : ∀ q ∈ p :: ps, IsKey labelChars q.1 := fun q hq => (hs.labels q (hl ▸ hq)).1
  rcases hl' : s'.labels with _ | ⟨p', ps'⟩
  · -- the name ends with whole labels
    rw [hl', formatTags_nil, List.append_nil] at hmoved
    have hmem : ∀ c ∈ ['=', '"', '}'], c ∈ u := by
      intro c hc
      rw [← hmoved, encode_cons]
      simp only [List.mem_cons, List.not_mem_nil, or_false] at hc
      rcases hc with rfl | rfl | rfl <;> simp [PairSyntax.pair, labelSyntax]
    exact ⟨hN _ List.mem_cons_self (by decide),
      hN _ (List.mem_cons_of_mem _ (hmem _ (by simp))) (by decide),
      hN _ (List.mem_cons_of_mem _ (hmem _ (by simp))) (by decide),
      .inl (hN _ (List.mem_cons_of_mem _ (hmem _ (by simp))) (by decide))⟩
  · -- it ends within a value
    rw [hl', formatTags_cons, ← List.cons_append, ← List.append_assoc,
      List.append_cancel_right_eq] at hmoved
    obtain ⟨q, hq, a, b, qs, hval, hsuf, hrest, hsub⟩ :=
      split_encode (K := labelChars) (by decide) (by decide) hkeys hmoved
    have hfront : ∀ c ∈ ['=', '"'], c ∈ u := fun c hc =>
      hsuf.subset (List.mem_append_left a hc)
    have hA : ∀ c ∈ q.2, c ∉ leChars → c ∈ A := fun c hc =>
      mem_value_of_plain hs (by rw [hl]; exact hq) hc
    have hkey' : IsKey labelChars p'.1 := (hs'.labels p' (by rw [hl']; exact List.mem_cons_self)).1
    have hquote : '"' ∉ p'.1 ++ ['='] := by
      rw [List.mem_append, not_or]
      exact ⟨fun hmem => absurd (hkey'.2 _ hmem) (by decide), by decide⟩
    have hgo : (p'.1 ++ ['=']) ++ ('"' :: (p'.2 ++ '"' :: labelSyntax.rest ps')) =
        b ++ '"' :: labelSyntax.rest qs := by
      rw [encode_cons] at hrest
      simpa [PairSyntax.pair, labelSyntax] using hrest
    obtain ⟨b', rfl⟩ := prefix_of_not_mem hquote hgo
    have hmem : ∀ c ∈ '{' :: ((p'.1 ++ ['=']) ++ b'), c ∈ q.2 := fun c hc => by
      rw [hval]
      exact List.mem_append_right a hc
    -- without quotes in the values their number would be odd
    have hquoteA : '"' ∈ A := by
      by_contra hno
      have hnone : ∀ {s : Sample}, s.Plain before N A → ∀ r ∈ s.labels, '"' ∉ r.1 ∧ '"' ∉ r.2 :=
        fun hs r hr => ⟨fun hc => absurd ((hs.labels r hr).1.2 _ hc) (by decide),
          fun hc => hno (mem_value_of_plain hs hr hc (by decide))⟩
      have hps := count_quotes fun r hr => hnone hs' r (hl' ▸ List.mem_cons_of_mem p' hr)
      have hqs := count_quotes fun r hr => hnone hs r (hl ▸ hsub hr)
      have hp := hnone hs' p' (hl' ▸ List.mem_cons_self)
      have hb : '"' ∉ b' := fun hc => (hnone hs q (hl ▸ hq)).2 (hmem _ (by simp [hc]))
      have hcount := congrArg (List.count '"') hgo
      simp only [List.count_append, List.count_cons_self, List.count_eq_zero_of_not_mem hp.2,
        List.count_eq_zero_of_not_mem hb, hps, hqs] at hcount
      omega
    refine ⟨hN _ List.mem_cons_self (by decide),
      hN _ (List.mem_cons_of_mem _ (hfront _ (by simp))) (by decide),
      hN _ (List.mem_cons_of_mem _ (hfront _ (by simp))) (by decide),
      .inr ⟨hA _ (hmem _ (by simp)) (by decide), hA _ (hmem _ (by simp)) (by decide), hquoteA, ?_⟩⟩
    obtain ⟨c, k, hk⟩ := List.exists_cons_of_ne_nil hkey'.1
    refine ⟨c, hkey'.2 c (hk ▸ List.mem_cons_self), ?_⟩
    obtain ⟨-, hv | hv⟩ := hs.labels q (hl ▸ hq)
    · exact hv c (hmem c (by simp [hk]))
    · exact absurd (hv '{' (hmem _ (by simp))) (by decide)

omit [FloatText F] in
/-- A name ends where the labels begin. -/
theorem name_eq {before : Text} {N A : Set Char} {s s' : Sample} (hNA : ¬ SpellsLabels N A)
    (hs : s.Plain before N A) (hs' : s'.Plain before N A) (h : s.id = s'.id) :
    s.name = s'.name ∧ formatTags s.labels = formatTags s'.labels := by
  obtain ⟨n, hname, hn⟩ := hs.name
  obtain ⟨n', hname', hn'⟩ := hs'.name
  rw [Sample.id, Sample.id, hname, hname', List.append_assoc, List.append_assoc,
    List.append_cancel_left_eq] at h
  rw [hname, hname']
  rcases List.append_eq_append_iff.mp h with ⟨u, rfl, hu⟩ | ⟨u, rfl, hu⟩
  · have hmoved := spells_of_moved hs hs' (fun c hc => hn' c (List.mem_append_right n hc)) hu
    obtain rfl := hmoved.resolve_right hNA
    exact ⟨by rw [List.append_nil], hu⟩
  · have hmoved := spells_of_moved hs' hs (fun c hc => hn c (List.mem_append_right n' hc)) hu
    obtain rfl := hmoved.resolve_right hNA
    exact ⟨by rw [List.append_nil], hu.symm⟩

theorem Sample.Plain.clean {before : Text} {N A : Set Char} {s : Sample} (hs : s.Plain before N A)
    (hA : ¬ SpellsLabel A) :
    ∀ p ∈ s.labels, IsKey labelChars p.1 ∧ labelSyntax.Clean labelChars p.2 := by
  intro p hp
  obtain ⟨hk, hv | hv⟩ := hs.labels p hp
  · refine ⟨hk, clean_of_over (A := A) ?_ hv⟩
    simpa [SpellsLabel, labelSyntax] using hA
  · refine ⟨hk, clean_of_over (A := {c | c ∈ leChars}) ?_ hv⟩
    rintro ⟨-, hsep, -⟩
    exact absurd hsep (by decide)

theorem line_inj {before : Text} {N A : Set Char} {s s' : Sample} (hA : ¬ SpellsLabel A)
    (hNA : ¬ SpellsLabels N A) (hs : s.Plain before N A) (hs' : s'.Plain before N A)
    (h : s.line = s'.line) : s.name = s'.name ∧ s.labels = s'.labels := by
  have hvalue : ∀ {s : Sample}, s.Plain before N A → ' ' ∉ s.value := fun hs hmem =>
    absurd (hs.value _ hmem) (by decide)
  -- the last space of the line is the one before the value
  have hid : s.id = s'.id := by
    have hl := splitLast_append (hvalue hs) s.id
    have hl' := splitLast_append (hvalue hs') s'.id
    rw [← Sample.line, h] at hl
    rw [← Sample.line, hl] at hl'
    exact (Prod.mk.inj (Option.some.inj hl')).1
  obtain ⟨hname, htags⟩ := name_eq hNA hs hs' hid
  exact ⟨hname, encode_inj labelSyntax_keys (hs.clean hA) (hs'.clean hA) (formatTags_eq_iff.mp htags)⟩

/-! ### The condition -/

/-- A count of 0. -/
def counted (name : Text) (tags : List (Text × Text)) : FlushedMetric (BitVec 64) F :=
  ⟨[], ⟨0, name⟩, ⟨tags⟩, .count 0⟩

theorem renderLines_counted (e : PrometheusExporter F) (name : Text) (tags : List (Text × Text)) :
    ∃ ls, e.renderLines [counted name tags] = some ls ∧
      e.before ++ name ++ "_total".toList ++ formatTags tags ++ " 0".toList ∈ ls := by
  have hname : e.fullName [] name = e.before ++ name := by
    rw [fullName_before, List.nil_append, List.intercalate_singleton]
  have hline : e.before ++ name ++ "_total".toList ++ formatTags tags ++ " 0".toList =
      Sample.line ⟨e.fullName [] name ++ "_total".toList, tags, displayInt (0 : BitVec 64).toInt⟩ := by
    rw [hname, show displayInt (0 : BitVec 64).toInt = ['0'] by decide]
    simp [Sample.line, Sample.id]
  set full := e.fullName [] name
  refine ⟨Family.lines ⟨full ++ "_total".toList, full, "counter".toList,
    [⟨full ++ "_total".toList, tags, displayInt (0 : BitVec 64).toInt⟩]⟩ ++ [], ?_, ?_⟩
  · rw [PrometheusExporter.renderLines, PrometheusExporter.metricLines_eq]
    rfl
  · rw [hline]
    simp [Family.lines]

/-- No newline in what is written for a count. -/
theorem LabelsUnambiguous.no_newline {e : PrometheusExporter F} {N A : Set Char}
    (h : LabelsUnambiguous e N A) (name : Text) (tags : List (Text × Text)) (hname : ∀ c ∈ name, c ∈ N)
    (htags : Over labelChars A tags) : '\n' ∉ e.before ∧ '\n' ∉ name ∧ '\n' ∉ formatTags tags := by
  have hm : Exposed N A (counted name tags : FlushedMetric (BitVec 64) F) :=
    ⟨by simpa [counted] using hname, htags⟩
  obtain ⟨ls, hls, hmem⟩ := renderLines_counted e name tags
  have htext : e.render [counted name tags] = some (unlines '\n' ls) := by
    rw [PrometheusExporter.render, hls]
    rfl
  have hlines := h.lines [counted name tags] _ (by simpa using hm) htext
  rw [hls] at hlines
  have hlast := lines_unlines_iff.mp (Option.some.inj hlines).symm _ hmem
  simp only [List.mem_append, not_or] at hlast
  exact ⟨hlast.1.1.1.1, hlast.1.1.1.2, hlast.1.2⟩

/-- A gauge of 0 and its one sample. -/
def gauged (path : List Text) (name : Text) (tags : List (Text × Text)) :
    FlushedMetric (BitVec 64) F := ⟨path, ⟨0, name⟩, ⟨tags⟩, .gauge 0.0⟩

theorem LabelsUnambiguous.gauges {e : PrometheusExporter F} {N A : Set Char}
    (h : LabelsUnambiguous e N A) (path : List Text) (name : Text) (tags tags' : List (Text × Text))
    (hm : Exposed N A (gauged path name tags : FlushedMetric _ F))
    (hm' : Exposed N A (gauged [] [] tags' : FlushedMetric _ F))
    (heq : e.fullName path name ++ formatTags tags = e.fullName [] [] ++ formatTags tags') :
    tags = tags' := by
  have hsame := h.series _ _ _ _ hm hm' rfl rfl _ List.mem_cons_self _ List.mem_cons_self ?_
  · exact hsame.2
  · exact congrArg (· ++ ' ' :: FloatText.display (0.0 : F)) heq

/-- **Names that spell labels** are told from no others. -/
theorem LabelsUnambiguous.not_spells {e : PrometheusExporter F} {N A : Set Char}
    (h : LabelsUnambiguous e N A) : ¬ SpellsLabels N A := by
  rintro ⟨hbrace, heq, hquote, hend | ⟨hbraceA, heqA, hquoteA, c, hc, hcA⟩⟩
  · -- a name of the form `{_=""}`
    have htags := h.gauges ["\x7b".toList] "=\"\"\x7d".toList [] [("_".toList, [])]
      ⟨by simp [gauged, hbrace, heq, hquote, hend], List.forall_mem_nil _⟩
      ⟨by simp [gauged], ?_⟩ ?_
    · cases htags
    · intro p hp
      rw [List.mem_singleton.mp hp]
      exact ⟨underscore_isKey, List.forall_mem_nil _⟩
    · rw [fullName_before, fullName_before]
      simp [formatTags, List.intercalate_cons_cons]
  · -- a name of the form `{_="`, and a value that goes on as its labels do
    have htags := h.gauges ["\x7b".toList] "=\"".toList [([c], [])] [("_".toList, ['{', c, '=', '"'])]
      ⟨by simp [gauged, hbrace, heq, hquote], ?_⟩ ⟨by simp [gauged], ?_⟩ ?_
    · cases htags
    · intro p hp
      rw [List.mem_singleton.mp hp]
      exact ⟨⟨List.cons_ne_nil _ _, by simpa using hc⟩, List.forall_mem_nil _⟩
    · intro p hp
      rw [List.mem_singleton.mp hp]
      exact ⟨underscore_isKey, by simp [hbraceA, heqA, hquoteA, hcA]⟩
    · rw [fullName_before, fullName_before]
      simp [formatTags, List.intercalate_cons_cons]

/-- **Labels are unambiguous just when** tag values spell no label, names no
labels, and nothing has a newline. -/
theorem labelsUnambiguous_iff (e : PrometheusExporter F) (N A : Set Char) :
    LabelsUnambiguous e N A ↔ ¬ SpellsLabel A ∧ ¬ SpellsLabels N A ∧ '\n' ∉ N ∧ '\n' ∉ A ∧
      ∀ ns ∈ e.namespacePrefix, '\n' ∉ ns := by
  have hbefore : (∀ ns ∈ e.namespacePrefix, '\n' ∉ ns) ↔ '\n' ∉ e.before := by
    rcases hp : e.namespacePrefix with _ | ns
    · simp [PrometheusExporter.before, hp]
    · simp [PrometheusExporter.before, hp]
  rw [hbefore]
  constructor
  · intro h
    refine ⟨(formatTags_injective_iff A).mp h.injective, h.not_spells, fun hN => ?_, fun hA => ?_,
      (h.no_newline [] [] nofun nofun).1⟩
    · have hno := h.no_newline ['\n'] [] (by simpa using hN) nofun
      exact hno.2.1 List.mem_cons_self
    · have hover : Over labelChars A [("k".toList, ['\n'])] := by
        intro p hp
        rw [List.mem_singleton.mp hp]
        exact ⟨⟨by decide, forall_mem_of_all (by decide)⟩, by simpa using hA⟩
      exact (h.no_newline [] _ nofun hover).2.2 (by decide)
  · rintro ⟨hA, hNA, hnN, hnA, hb⟩
    refine ⟨(formatTags_injective_iff A).mpr hA, fun batch text hbatch h => ?_, ?_⟩
    · obtain ⟨ls, hls, h⟩ := Option.bind_eq_some_iff.mp h
      obtain rfl := Option.some.inj h
      rw [lines_unlines_iff.mpr (renderLines_newline hnN hnA hb hbatch hls)]
      exact hls
    · intro m m' f f' hm hm' hf hf' s hs s' hs' h
      exact line_inj hA hNA (sample_plain hm hf s hs) (sample_plain hm' hf' s' hs') h

/-- A value that spells a label, and one that spells a sample. -/
theorem value_spells_label :
    let spelled : List (Text × Text) := [("a".toList, "x\",b=\"y".toList)]
    let honest : List (Text × Text) := [("a".toList, "x".toList), ("b".toList, "y".toList)]
    let injected : FlushedMetric (BitVec 64) F64 :=
      ⟨[], ⟨0, "hits".toList⟩, ⟨[("path".toList, "/\"\x7d 1\nlogins_total 999\nrest\x7btail=\"".toList)]⟩, .count 1⟩
    formatTags spelled = formatTags honest ∧ spelled ≠ honest ∧
      (∃ text, (PrometheusExporter.builder : PrometheusExporter F64).render [injected] = some text ∧
        lines '\n' text =
          ["# HELP hits_total hits".toList, "# TYPE hits_total counter".toList,
            "hits_total\x7bpath=\"/\"\x7d 1".toList, "logins_total 999".toList,
            "rest\x7btail=\"\"\x7d 1".toList]) ∧
      ¬ LabelsUnambiguous (PrometheusExporter.builder : PrometheusExporter F64) labelChars Set.univ := by
  refine ⟨by decide, by decide, ⟨_, rfl, by decide⟩, fun h => ?_⟩
  have hcond := (formatTags_injective_iff Set.univ).mp h.injective
  exact hcond ⟨trivial, trivial, trivial, 'a', by decide, trivial⟩

end
end ChalkMetrics
