/-
# Which tag values the StatsD lines tell apart

Tags are written `key:value`, joined by commas, with nothing escaped. Over an
alphabet `N` for names and one `A` for tag values, lines of one name, kind and
value with different tags are different, and the datagrams split into the lines
formatted, one for every sample (`TagsUnambiguous`), just when no value over `A`
can spell another tag, and neither of them nor what the exporter adds has a
newline (`tagsUnambiguous_iff`). The default tags in front change nothing. Arbitrary
strings break both (`value_spells_tag`).

Key definitions: `TagsUnambiguous`, `SpellsTag`.
-/
import ChalkMetrics.Export.Statsd

namespace ChalkMetrics

open Delimited PairSyntax

def tagSyntax : PairSyntax Char := ⟨':', [], none, ','⟩

theorem tagSyntax_keys : tagSyntax.Keys labelChars where
  mid := by decide
  sep := by decide
  sep_ne := by decide
  close := nofun
  opens := nofun

/-- Values over `A` can hold a whole `,name:`. -/
def SpellsTag (A : Set Char) : Prop := ',' ∈ A ∧ ':' ∈ A ∧ ∃ c ∈ labelChars, c ∈ A

/-- Name and namespace over `N`, tags over `A`. -/
structure Sendable (N A : Set Char) (path : List Text) (name : Text) (tags : List (Text × Text)) :
    Prop where
  names : ∀ t ∈ path ++ [name], ∀ c ∈ t, c ∈ N
  tags : Over labelChars A tags

section

variable {F : Type}

namespace StatsdExporter

theorem formatTags_eq (e : StatsdExporter F) (tags : List (Text × Text)) :
    e.formatTags tags = if e.defaultTags ++ tags = [] then [] else
      "|#".toList ++ tagSyntax.encode (e.defaultTags ++ tags) := by
  have hpair : tagSyntax.pair = fun p : Text × Text => p.1 ++ ':' :: p.2 := by
    funext p
    simp [PairSyntax.pair, tagSyntax]
  rw [formatTags, encode, hpair]
  simp only [List.isEmpty_iff]
  rfl

theorem formatTags_eq_iff (e : StatsdExporter F) {p q : List (Text × Text)} :
    e.formatTags p = e.formatTags q ↔ tagSyntax.encode p = tagSyntax.encode q := by
  rw [← encode_append_inj e.defaultTags, formatTags_eq, formatTags_eq]
  rcases e.defaultTags ++ p with _ | ⟨a, p⟩ <;> rcases e.defaultTags ++ q with _ | ⟨b, q⟩
  · exact ⟨fun _ => rfl, fun _ => rfl⟩
  · exact ⟨fun h => absurd h.symm (by simp), fun h => absurd h.symm (encode_ne_nil b q)⟩
  · exact ⟨fun h => absurd h (by simp), fun h => absurd h (encode_ne_nil a p)⟩
  · rw [if_neg (List.cons_ne_nil _ _), if_neg (List.cons_ne_nil _ _), List.append_cancel_left_eq]

theorem mem_formatTags {e : StatsdExporter F} {tags : List (Text × Text)} {c : Char}
    (h : c ∈ e.formatTags tags) :
    c ∈ ['|', '#', ',', ':'] ∨ ∃ p ∈ e.defaultTags ++ tags, c ∈ p.1 ∨ c ∈ p.2 := by
  have hdelims : ∀ c ∈ tagSyntax.sep :: tagSyntax.mid ::
      (tagSyntax.opens ++ tagSyntax.close.toList), c ∈ ['|', '#', ',', ':'] :=
    forall_mem_of_all (by decide)
  have hfront : ∀ c ∈ "|#".toList, c ∈ ['|', '#', ',', ':'] :=
    forall_mem_of_all (by decide)
  rw [formatTags_eq] at h
  split_ifs at h
  · exact absurd h List.not_mem_nil
  rcases List.mem_append.mp h with h | h
  · exact .inl (hfront c h)
  · obtain h | h := mem_encode h
    · exact .inl (hdelims c h)
    · exact .inr h

theorem formatTags_mem {e : StatsdExporter F} {tags : List (Text × Text)} {c : Char}
    {p : Text × Text} (hp : p ∈ e.defaultTags ++ tags) (hc : c ∈ p.1 ∨ c ∈ p.2) :
    c ∈ e.formatTags tags := by
  rw [formatTags_eq, if_neg (List.ne_nil_of_mem hp)]
  exact List.mem_append_right _ (mem_encode_of_mem hp hc)

end StatsdExporter

variable [FloatText F]

/-- Lines tell tags apart, and datagrams split into the lines. -/
structure TagsUnambiguous (e : StatsdExporter F) (N A : Set Char) : Prop where
  metrics : ∀ m m' ls, Sendable N A m.namespacePath m.metricName.text m.tags.pairs →
    Sendable N A m'.namespacePath m'.metricName.text m'.tags.pairs →
    e.fullName m.namespacePath m.metricName.text = e.fullName m'.namespacePath m'.metricName.text →
    m.value = m'.value → e.metricLines m = some ls → e.metricLines m' = some ls → m.tags = m'.tags
  points : ∀ p p', Sendable N A p.namespacePath p.metricName.text p.tags.pairs →
    Sendable N A p'.namespacePath p'.metricName.text p'.tags.pairs →
    e.fullName p.namespacePath p.metricName.text = e.fullName p'.namespacePath p'.metricName.text →
    p.value = p'.value → e.pointLine p = e.pointLine p' → p.tags = p'.tags
  datagrams : ∀ batch sent e',
    (∀ m ∈ batch, Sendable N A m.namespacePath m.metricName.text m.tags.pairs) →
    e.sendMetrics batch = some (sent, e') →
    e.metricsLines batch = some (sent.flatMap (List.splitOn '\n'))
  pointDatagrams : ∀ points,
    (∀ p ∈ points, Sendable N A p.namespacePath p.metricName.text p.tags.pairs) →
    (e.sendRawPoints points).1.flatMap (List.splitOn '\n') = points.map e.pointLine

/-! ### What a line is made of -/

/-- The name, something of the sample that is neither empty nor has a newline,
and the tags. -/
def LineOf (name tags line : Text) : Prop :=
  ∃ middle, line = name ++ middle ++ tags ∧ middle ≠ [] ∧ '\n' ∉ middle

theorem number_newline {t : Text} (h : ∀ c ∈ t, c ∈ numberChars) : '\n' ∉ t := fun hmem =>
  absurd (h _ hmem) (by decide)

theorem lineOf_quantileLines {name tags : Text} {sketch : UDDSketch F} :
    ∀ {percentiles : List F} {ls : List Text},
      quantileLines name tags sketch percentiles = some ls → ∀ l ∈ ls, LineOf name tags l
  | [], ls, h => by
    obtain rfl := Option.some.inj h
    exact fun l hl => absurd hl List.not_mem_nil
  | p :: percentiles, ls, h => by
    obtain ⟨value, -, h⟩ := Option.bind_eq_some_iff.mp h
    obtain ⟨rest, hrest, h⟩ := Option.bind_eq_some_iff.mp h
    obtain rfl := Option.some.inj h
    intro l hl
    rcases List.mem_cons.mp hl with rfl | hl
    · refine ⟨'.' :: (formatPercentileLabel p ++ ':' :: (FloatText.display value ++ "|g".toList)),
        by simp, List.cons_ne_nil _ _, ?_⟩
      have hlabel : '\n' ∉ formatPercentileLabel p := by
        rw [formatPercentileLabel, List.mem_cons, not_or]
        exact ⟨by decide, number_newline fun c => mem_displayNat⟩
      have hvalue : '\n' ∉ FloatText.display value :=
        number_newline fun c => FloatText.display_mem _ _
      simp [hlabel, hvalue]
    · exact lineOf_quantileLines hrest l hl

/-- **Every line of a metric** is made so, and the first of them by the name,
the value and the tags alone. -/
theorem metricLines_spec {e : StatsdExporter F} (name : Text)
    (value : FlushedValue (BitVec 64) F) :
    ∃ middle, ∀ {m : FlushedMetric (BitVec 64) F} {ls : List Text},
      e.fullName m.namespacePath m.metricName.text = name → m.value = value →
      e.metricLines m = some ls →
      ls.head? = some (name ++ middle ++ e.formatTags m.tags.pairs) ∧
        ∀ l ∈ ls, LineOf name (e.formatTags m.tags.pairs) l := by
  have hfloat : ∀ v : F, '\n' ∉ FloatText.display v := fun v =>
    number_newline fun c => FloatText.display_mem _ _
  cases value with
  | count value =>
    have hnum : '\n' ∉ displayInt value.toInt := number_newline fun c => mem_displayInt
    refine ⟨':' :: (displayInt value.toInt ++ "|c".toList), fun hn hv h => ?_⟩
    rw [StatsdExporter.metricLines, hn, hv] at h
    obtain rfl := Option.some.inj h
    refine ⟨by simp, fun l hl => ⟨':' :: (displayInt value.toInt ++ "|c".toList), ?_,
      List.cons_ne_nil _ _, by simp [hnum]⟩⟩
    rw [List.mem_singleton.mp hl]
    simp
  | gauge value =>
    refine ⟨':' :: (FloatText.display value ++ "|g".toList), fun hn hv h => ?_⟩
    rw [StatsdExporter.metricLines, hn, hv] at h
    obtain rfl := Option.some.inj h
    refine ⟨by simp, fun l hl => ⟨':' :: (FloatText.display value ++ "|g".toList), ?_,
      List.cons_ne_nil _ _, by simp [hfloat]⟩⟩
    rw [List.mem_singleton.mp hl]
    simp
  | histogram sketch =>
    have hcount : '\n' ∉ displayNat sketch.count := number_newline fun c => mem_displayNat
    rcases hmode : e.histogramMode with percentiles | _
    · refine ⟨".count:".toList ++ displayNat sketch.count ++ "|g".toList, fun hn hv h => ?_⟩
      rw [StatsdExporter.metricLines, hn, hv, hmode] at h
      obtain ⟨quantiles, hq, h⟩ := Option.bind_eq_some_iff.mp h
      obtain rfl := Option.some.inj h
      refine ⟨by simp, fun l hl => ?_⟩
      simp only [List.mem_append, List.mem_cons, List.not_mem_nil, or_false] at hl
      rcases hl with (rfl | rfl) | hl
      · exact ⟨".count:".toList ++ displayNat sketch.count ++ "|g".toList, by simp, by simp,
          by simp [hcount]⟩
      · exact ⟨".avg:".toList ++ FloatText.display sketch.mean ++ "|g".toList, by simp, by simp,
          by simp [hfloat]⟩
      · exact lineOf_quantileLines hq l hl
    · refine ⟨':' :: (FloatText.display sketch.mean ++ "|d".toList), fun hn hv h => ?_⟩
      rw [StatsdExporter.metricLines, hn, hv, hmode] at h
      obtain rfl := Option.some.inj h
      refine ⟨by simp [formatDistributionLine], fun l hl =>
        ⟨':' :: (FloatText.display sketch.mean ++ "|d".toList), ?_, List.cons_ne_nil _ _,
          by simp [hfloat]⟩⟩
      rw [List.mem_singleton.mp hl]
      simp [formatDistributionLine]

theorem lineOf_pointLine (e : StatsdExporter F) (p : RawDistributionPoint F) :
    LineOf (e.fullName p.namespacePath p.metricName.text) (e.formatTags p.tags.pairs)
      (e.pointLine p) := by
  have hvalue : '\n' ∉ FloatText.display p.value := number_newline fun c => FloatText.display_mem _ _
  exact ⟨':' :: (FloatText.display p.value ++ "|d".toList),
    by simp [StatsdExporter.pointLine, formatDistributionLine], List.cons_ne_nil _ _,
    by simp [hvalue]⟩

theorem LineOf.ne_nil {name tags line : Text} (h : LineOf name tags line) : line ≠ [] := by
  obtain ⟨middle, rfl, hne, -⟩ := h
  simp [hne]

/-! ### The condition -/

/-- The exporter puts no newline of its own into a line. -/
def StatsdExporter.Quiet (e : StatsdExporter F) : Prop :=
  (∀ ns ∈ e.namespacePrefix, '\n' ∉ ns) ∧ ∀ p ∈ e.defaultTags, '\n' ∉ p.1 ∧ '\n' ∉ p.2

omit [FloatText F] in
theorem LineOf.newline {e : StatsdExporter F} {N A : Set Char} {path : List Text} {name line : Text}
    {tags : List (Text × Text)} (h : LineOf (e.fullName path name) (e.formatTags tags) line)
    (hs : Sendable N A path name tags) (hN : '\n' ∉ N) (hA : '\n' ∉ A) (he : e.Quiet) :
    '\n' ∉ line := by
  obtain ⟨middle, rfl, -, hmiddle⟩ := h
  rw [List.mem_append, List.mem_append, not_or, not_or]
  refine ⟨⟨fun hmem => ?_, hmiddle⟩, fun hmem => ?_⟩
  · rw [StatsdExporter.fullName, List.append_assoc] at hmem
    obtain hmem | ⟨t, ht, hmem⟩ := mem_join hmem
    · exact absurd hmem (by decide)
    · rcases List.mem_append.mp ht with ht | ht
      · exact he.1 t (Option.mem_toList.mp ht) hmem
      · exact hN (hs.names t ht _ hmem)
  · obtain hmem | ⟨p, hp, hmem⟩ := StatsdExporter.mem_formatTags hmem
    · exact absurd hmem (by decide)
    · rcases List.mem_append.mp hp with hp | hp
      · exact hmem.elim (he.2 p hp).1 (he.2 p hp).2
      · obtain ⟨hk, hv⟩ := hs.tags p hp
        exact hmem.elim (fun hmem => absurd (hk.2 _ hmem) (by decide)) fun hmem => hA (hv _ hmem)

theorem metricsLines_lineOf {e : StatsdExporter F} : ∀ {batch : List (FlushedMetric (BitVec 64) F)}
    {ls : List Text}, e.metricsLines batch = some ls → ∀ l ∈ ls, ∃ m ∈ batch,
      LineOf (e.fullName m.namespacePath m.metricName.text) (e.formatTags m.tags.pairs) l
  | [], ls, h => by
    obtain rfl := Option.some.inj h
    exact fun l hl => absurd hl List.not_mem_nil
  | m :: batch, ls, h => by
    obtain ⟨ls₁, h₁, h⟩ := Option.bind_eq_some_iff.mp h
    obtain ⟨ls₂, h₂, h⟩ := Option.bind_eq_some_iff.mp h
    obtain rfl := Option.some.inj h
    intro l hl
    rcases List.mem_append.mp hl with hl | hl
    · obtain ⟨middle, hspec⟩ := metricLines_spec (e := e)
        (e.fullName m.namespacePath m.metricName.text) m.value
      exact ⟨m, List.mem_cons_self, (hspec rfl rfl h₁).2 l hl⟩
    · obtain ⟨m', hm', hline⟩ := metricsLines_lineOf h₂ l hl
      exact ⟨m', List.mem_cons_of_mem _ hm', hline⟩

/-- A count of 0. -/
def sentCount (name : Text) (tags : List (Text × Text)) : FlushedMetric (BitVec 64) F :=
  ⟨[], ⟨0, name⟩, ⟨tags⟩, .count 0⟩

theorem metricLines_sentCount (e : StatsdExporter F) (name : Text) (tags : List (Text × Text)) :
    e.metricLines (sentCount name tags) =
      some [e.fullName [] name ++ ':' :: (displayInt (0 : BitVec 64).toInt ++ "|c".toList ++
        e.formatTags tags)] := rfl

theorem metricsLines_sentCount (e : StatsdExporter F) (name : Text) (tags : List (Text × Text)) :
    ∃ line, LineOf (e.fullName [] name) (e.formatTags tags) line ∧
      e.metricsLines [sentCount name tags] = some [line] := by
  refine ⟨_, ⟨':' :: (displayInt (0 : BitVec 64).toInt ++ "|c".toList), rfl, List.cons_ne_nil _ _,
    by decide⟩, ?_⟩
  rw [StatsdExporter.metricsLines, metricLines_sentCount]
  simp [StatsdExporter.metricsLines]

omit [FloatText F] in
/-- Tags can be read off what is sent for them just when no value spells a tag. -/
theorem StatsdExporter.formatTags_injective_iff (e : StatsdExporter F) (A : Set Char) :
    (∀ p q, Over labelChars A p → Over labelChars A q → e.formatTags p = e.formatTags q → p = q) ↔
      ¬ SpellsTag A := by
  simp only [e.formatTags_eq_iff]
  rw [encode_injective_iff tagSyntax_keys A, SpellsTag]
  simp [tagSyntax]

theorem sendable_sentCount {N A : Set Char} {name : Text} {tags : List (Text × Text)}
    (hname : ∀ c ∈ name, c ∈ N) (htags : Over labelChars A tags) : Sendable N A [] name tags :=
  ⟨by simpa using hname, htags⟩

/-- No newline in what is sent for a count. -/
theorem TagsUnambiguous.no_newline {e : StatsdExporter F} {N A : Set Char}
    (h : TagsUnambiguous e N A) (name : Text) (tags : List (Text × Text)) (hname : ∀ c ∈ name, c ∈ N)
    (htags : Over labelChars A tags) : '\n' ∉ e.fullName [] name ∧ '\n' ∉ e.formatTags tags := by
  obtain ⟨line, hline, hls⟩ := metricsLines_sentCount e name tags
  have hsent : e.sendMetrics [sentCount name tags] = some (e.sendLines [line]) := by
    rw [StatsdExporter.sendMetrics, hls]
    rfl
  have hsplit := h.datagrams [sentCount name tags] _ _
    (by simpa [sentCount] using sendable_sentCount hname htags) hsent
  rw [hls] at hsplit
  have hquiet := (e.split_sendLines_iff fun l hl => ?_).mp (Option.some.inj hsplit).symm line
    (List.mem_singleton_self _)
  · obtain ⟨middle, rfl, -, -⟩ := hline
    simp only [List.mem_append, not_or] at hquiet
    exact ⟨hquiet.1.1, hquiet.2⟩
  · rw [List.mem_singleton.mp hl]
    exact hline.ne_nil

omit [FloatText F] in
theorem StatsdExporter.mem_fullName {e : StatsdExporter F} {path : List Text} {name t : Text} {c : Char}
    (ht : t ∈ e.namespacePrefix.toList ++ path ++ [name]) (hc : c ∈ t) : c ∈ e.fullName path name :=
  mem_join_of_mem hc ht

/-- **Tags are unambiguous just when** tag values spell no tag and no newline,
names no newline, and the exporter adds none. -/
theorem tagsUnambiguous_iff (e : StatsdExporter F) (N A : Set Char) :
    TagsUnambiguous e N A ↔ ¬ SpellsTag A ∧ '\n' ∉ N ∧ '\n' ∉ A ∧ e.Quiet := by
  constructor
  · intro h
    have hline : ∀ tags, Over labelChars A tags →
        '\n' ∉ e.fullName [] [] ∧ '\n' ∉ e.formatTags tags := fun tags => h.no_newline [] tags nofun
    refine ⟨(e.formatTags_injective_iff A).mp fun p q hp hq heq => ?_, fun hN => ?_, fun hA => ?_,
      fun ns hns hn => ?_, fun p hp => ?_⟩
    · have htags := h.metrics (sentCount [] p) (sentCount [] q) _ (sendable_sentCount nofun hp)
        (sendable_sentCount nofun hq) rfl rfl (metricLines_sentCount e [] p)
        (by rw [metricLines_sentCount, heq])
      exact congrArg TagsData.pairs htags
    · have hno := (h.no_newline ['\n'] [] (by simpa using hN) nofun).1
      exact hno (StatsdExporter.mem_fullName (List.mem_append_right _ (List.mem_singleton_self _))
        List.mem_cons_self)
    · have hover : Over labelChars A [("k".toList, ['\n'])] := by
        intro p hp
        rw [List.mem_singleton.mp hp]
        exact ⟨⟨by decide, forall_mem_of_all (by decide)⟩, by simpa using hA⟩
      exact (hline _ hover).2 (StatsdExporter.formatTags_mem
        (List.mem_append_right _ (List.mem_singleton_self _)) (.inr (by simp)))
    · refine (hline [] nofun).1 (StatsdExporter.mem_fullName ?_ hn)
      rw [Option.mem_def.mp hns]
      simp
    · have hno := (hline [] nofun).2
      exact ⟨fun hc => hno (StatsdExporter.formatTags_mem (List.mem_append_left _ hp) (.inl hc)),
        fun hc => hno (StatsdExporter.formatTags_mem (List.mem_append_left _ hp) (.inr hc))⟩
  · rintro ⟨hA, hnN, hnA, he⟩
    have hinj := (e.formatTags_injective_iff A).mpr hA
    refine ⟨fun m m' ls hm hm' hname hval h h' => ?_, fun p p' hp hp' hname hval h => ?_,
      fun batch sent e' hbatch h => ?_, fun points hpoints => ?_⟩
    · obtain ⟨middle, hspec⟩ := metricLines_spec (e := e)
        (e.fullName m.namespacePath m.metricName.text) m.value
      have hhead := (hspec rfl rfl h).1
      rw [(hspec hname.symm hval.symm h').1, Option.some.injEq, List.append_cancel_left_eq] at hhead
      exact congrArg TagsData.mk (hinj _ _ hm.tags hm'.tags hhead.symm)
    · rw [StatsdExporter.pointLine, StatsdExporter.pointLine, hname, hval, formatDistributionLine,
        formatDistributionLine, List.append_cancel_left_eq, List.cons_inj_right,
        List.append_cancel_left_eq] at h
      exact congrArg TagsData.mk (hinj _ _ hp.tags hp'.tags h)
    · obtain ⟨ls, hls, h⟩ := Option.bind_eq_some_iff.mp h
      have hsent : (e.sendLines ls).1 = sent := congrArg Prod.fst (Option.some.inj h)
      have hlines := metricsLines_lineOf hls
      rw [hls, ← hsent, (e.split_sendLines_iff fun l hl => ?_).mpr fun l hl => ?_]
      · obtain ⟨m, -, hline⟩ := hlines l hl
        exact hline.ne_nil
      · obtain ⟨m, hm, hline⟩ := hlines l hl
        exact hline.newline (hbatch m hm) hnN hnA he
    · refine (e.split_sendLines_iff fun l hl => ?_).mpr fun l hl => ?_
      · obtain ⟨p, -, rfl⟩ := List.mem_map.mp hl
        exact (lineOf_pointLine e p).ne_nil
      · obtain ⟨p, hp, rfl⟩ := List.mem_map.mp hl
        exact (lineOf_pointLine e p).newline (hpoints p hp) hnN hnA he

/-- A value that spells a tag, and one that spells a sample. -/
theorem value_spells_tag :
    let e : StatsdExporter F64 := .udp
    let hits : List (Text × Text) → FlushedMetric (BitVec 64) F64 := fun tags =>
      ⟨[], ⟨0, "hits".toList⟩, ⟨tags⟩, .count 1⟩
    let spelled := [("a".toList, "x,b:y".toList)]
    let honest := [("a".toList, "x".toList), ("b".toList, "y".toList)]
    e.metricLines (hits spelled) = some ["hits:1|c|#a:x,b:y".toList] ∧
      e.metricLines (hits honest) = some ["hits:1|c|#a:x,b:y".toList] ∧
      (∃ e', e.sendMetrics [hits [("path".toList, "/\nlogins:999|c".toList)]] =
          some (["hits:1|c|#path:/\nlogins:999|c".toList], e')) ∧
      "hits:1|c|#path:/\nlogins:999|c".toList.splitOn '\n' =
        ["hits:1|c|#path:/".toList, "logins:999|c".toList] ∧
      ¬ TagsUnambiguous e labelChars Set.univ := by
  intro e hits spelled honest
  have hk : ∀ k : Text, k ∈ ["a".toList, "b".toList] → IsKey labelChars k := by
    intro k hk
    simp only [List.mem_cons, List.not_mem_nil, or_false] at hk
    rcases hk with rfl | rfl
    · exact ⟨by decide, forall_mem_of_all (by decide)⟩
    · exact ⟨by decide, forall_mem_of_all (by decide)⟩
  have hname : ∀ t ∈ (hits spelled).namespacePath ++ [(hits spelled).metricName.text], ∀ c ∈ t,
      c ∈ labelChars := by
    intro t ht
    rw [List.mem_singleton.mp ht]
    exact forall_mem_of_all (by decide)
  refine ⟨by decide, by decide, ⟨_, by rfl⟩, by decide, fun h => ?_⟩
  have htags := h.metrics (hits spelled) (hits honest) ["hits:1|c|#a:x,b:y".toList]
    ⟨hname, by simp [Over, hits, spelled, hk]⟩ ⟨hname, by simp [Over, hits, honest, hk]⟩ rfl rfl (by decide)
    (by decide)
  exact absurd (congrArg TagsData.pairs htags) (by decide)

end
end ChalkMetrics
