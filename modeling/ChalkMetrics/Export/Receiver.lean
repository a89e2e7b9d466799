/-
# What a StatsD server reads

A server splits a datagram at the newlines, a line at the bars and the first
part of it at its first colon, and the tags at the commas and each at its first
colon (`readLine`). What it can read off a line is the sample the line was
written from, as long as nothing in the sample has a delimiter of its place in
it (`readLine_eq_some_iff`). So of what is sent for a batch or for raw points it
reads just the samples, in order and each once, if all names and tags are
legible, and something else if one is not (`received_iff`).

Key definitions: `StatsdSample`, `readLine`, `readDatagram`,
`StatsdExporter.samples`, `StatsdExporter.Legible`.
-/
import ChalkMetrics.Export.TagEncoding
import ChalkMetrics.Export.Percentiles

namespace ChalkMetrics

open Delimited

/-! ### The server -/

/-- What a line says. -/
structure StatsdSample where
  name : Text
  value : Text
  kind : Text
  tags : List (Text × Text)
deriving DecidableEq

def readTags (t : Text) : Option (List (Text × Text)) := (t.splitOn ',').mapM (cut ':')

/-- `name:value|kind`, and `|#` with the tags or not. -/
def readLine (line : Text) : Option StatsdSample :=
  match line.splitOn '|' with
  | [head, kind] => (cut ':' head).map fun p => ⟨p.1, p.2, kind, []⟩
  | [head, kind, '#' :: tags] => do
    let p ← cut ':' head
    return ⟨p.1, p.2, kind, ← readTags tags⟩
  | _ => none

def readNat (t : Text) : Option ℕ :=
  if t ≠ [] ∧ t.all Char.isDigit then some (Nat.ofDigitChars 10 t 0) else none

def readInt : Text → Option ℤ
  | '-' :: t => (readNat t).map fun n : ℕ => -(n : ℤ)
  | t => (readNat t).map Int.ofNat

/-- Lines that are none are passed over. -/
def readDatagram (datagram : Text) : List StatsdSample :=
  (datagram.splitOn '\n').filterMap readLine

/-! ### The line of a sample -/

namespace StatsdSample

def head (s : StatsdSample) : Text := s.name ++ ':' :: s.value

def tagsText (tags : List (Text × Text)) : Text :=
  [','].intercalate (tags.map fun p => p.1 ++ ':' :: p.2)

def line (s : StatsdSample) : Text :=
  s.head ++ '|' :: s.kind ++ if s.tags.isEmpty then [] else "|#".toList ++ tagsText s.tags

/-- No delimiter but in its place. -/
structure Legible (s : StatsdSample) : Prop where
  name : ':' ∉ s.name ∧ '|' ∉ s.name
  value : '|' ∉ s.value
  kind : '|' ∉ s.kind
  keys : ∀ p ∈ s.tags, ':' ∉ p.1 ∧ ',' ∉ p.1 ∧ '|' ∉ p.1
  values : ∀ p ∈ s.tags, ',' ∉ p.2 ∧ '|' ∉ p.2

theorem head_legible {s : StatsdSample} : '|' ∉ s.head ↔ '|' ∉ s.name ∧ '|' ∉ s.value := by
  simp [head]

/-- The parts of a line between the bars. -/
def sections (s : StatsdSample) : List Text :=
  [s.head, s.kind] ++ if s.tags.isEmpty then [] else ['#' :: tagsText s.tags]

theorem line_eq (s : StatsdSample) : s.line = ['|'].intercalate s.sections := by
  unfold line sections
  by_cases h : s.tags.isEmpty
  · simp [h, List.intercalate_cons_cons]
  · simp [h, List.intercalate_cons_cons]

theorem notMem_tagsText {c : Char} (hcomma : c ≠ ',') (hcolon : c ≠ ':') {tags : List (Text × Text)} :
    c ∉ tagsText tags ↔ ∀ p ∈ tags, c ∉ p.1 ∧ c ∉ p.2 := by
  have hpair : ∀ p : Text × Text, c ∉ p.1 ++ ':' :: p.2 ↔ c ∉ p.1 ∧ c ∉ p.2 := by
    intro p
    simp [hcolon]
  constructor
  · intro h p hp
    exact (hpair p).mp fun hc =>
      h (mem_join_of_mem hc (List.mem_map_of_mem (f := fun p => p.1 ++ ':' :: p.2) hp))
  · intro h hc
    rcases mem_join hc with rfl | ⟨l, hl, hc⟩
    · exact hcomma rfl
    · obtain ⟨p, hp, rfl⟩ := List.mem_map.mp hl
      exact (hpair p).mpr (h p hp) hc

theorem newline_line {s : StatsdSample} : '\n' ∉ s.line ↔
    '\n' ∉ s.name ∧ '\n' ∉ s.value ∧ '\n' ∉ s.kind ∧ ∀ p ∈ s.tags, '\n' ∉ p.1 ∧ '\n' ∉ p.2 := by
  have htags : '\n' ∉ (if s.tags.isEmpty then [] else "|#".toList ++ tagsText s.tags) ↔
      ∀ p ∈ s.tags, '\n' ∉ p.1 ∧ '\n' ∉ p.2 := by
    rw [← notMem_tagsText (by decide) (by decide)]
    by_cases h : s.tags = []
    · simp [h, tagsText]
    · simp [h]
  rw [← htags]
  simp [line, head]

end StatsdSample

theorem readTags_eq_some_iff {t : Text} {tags : List (Text × Text)} :
    readTags t = some tags ↔ tags ≠ [] ∧ t = StatsdSample.tagsText tags ∧
      ∀ p ∈ tags, ':' ∉ p.1 ∧ ',' ∉ p.1 ∧ ',' ∉ p.2 := by
  have hpair : ∀ p : Text × Text, ',' ∉ p.1 ++ ':' :: p.2 ↔ ',' ∉ p.1 ∧ ',' ∉ p.2 := by
    intro p
    simp
  unfold readTags
  rw [mapM_cut_eq_some_iff]
  constructor
  · rintro ⟨hsplit, hcolon⟩
    have hjoin : t = StatsdSample.tagsText tags := by
      unfold StatsdSample.tagsText
      rw [← hsplit, List.intercalate_splitOn]
    refine ⟨?_, hjoin, fun p hp => ⟨hcolon p hp, ?_⟩⟩
    · rintro rfl
      exact List.splitOn_ne_nil ',' t hsplit
    · have hmem : p.1 ++ ':' :: p.2 ∈ t.splitOn ',' := by
        rw [hsplit]
        exact List.mem_map_of_mem (f := fun p => p.1 ++ ':' :: p.2) hp
      exact (hpair p).mp (not_mem_of_mem_splitOn hmem)
  · rintro ⟨hne, rfl, htags⟩
    refine ⟨(splitOn_join_iff (by simpa using hne)).mpr fun l hl => ?_, fun p hp => (htags p hp).1⟩
    obtain ⟨p, hp, rfl⟩ := List.mem_map.mp hl
    exact (hpair p).mpr (htags p hp).2

/-- What is read off a line is a sample with that line. -/
theorem readLine_sound {line : Text} {s : StatsdSample} (h : readLine line = some s) :
    line = s.line ∧ s.Legible := by
  have hbar : ∀ l ∈ line.splitOn '|', '|' ∉ l := fun l => not_mem_of_mem_splitOn
  have hline : line = ['|'].intercalate (line.splitOn '|') := (List.intercalate_splitOn '|').symm
  unfold readLine at h
  split at h
  · rename_i head kind hsplit
    rw [hsplit] at hbar hline
    obtain ⟨p, hp, rfl⟩ := Option.map_eq_some_iff.mp h
    obtain ⟨rfl, hcolon⟩ := cut_eq_some_iff.mp hp
    have hhead := hbar _ List.mem_cons_self
    simp only [List.mem_append, List.mem_cons, not_or] at hhead
    refine ⟨?_, ⟨hcolon, hhead.1⟩, hhead.2.2, hbar kind (by simp), nofun, nofun⟩
    rw [StatsdSample.line_eq, hline]
    rfl
  · rename_i head kind tags hsplit
    rw [hsplit] at hbar hline
    obtain ⟨p, hp, h⟩ := Option.bind_eq_some_iff.mp h
    obtain ⟨ts, hts, h⟩ := Option.bind_eq_some_iff.mp h
    obtain rfl := Option.some.inj h
    obtain ⟨rfl, hcolon⟩ := cut_eq_some_iff.mp hp
    obtain ⟨hne, rfl, htags⟩ := readTags_eq_some_iff.mp hts
    have hhead := hbar _ List.mem_cons_self
    simp only [List.mem_append, List.mem_cons, not_or] at hhead
    have hlast : '|' ∉ StatsdSample.tagsText ts := fun hc =>
      hbar ('#' :: StatsdSample.tagsText ts) (by simp) (List.mem_cons_of_mem _ hc)
    have hbars := (StatsdSample.notMem_tagsText (by decide) (by decide)).mp hlast
    refine ⟨?_, ⟨hcolon, hhead.1⟩, hhead.2.2, hbar kind (by simp), fun p hp => ?_, fun p hp => ?_⟩
    · rw [StatsdSample.line_eq, hline]
      simp [StatsdSample.sections, StatsdSample.head, hne]
    · exact ⟨(htags p hp).1, (htags p hp).2.1, (hbars p hp).1⟩
    · exact ⟨(htags p hp).2.2, (hbars p hp).2⟩
  · cases h

/-- A legible line splits at the bars into its parts. -/
theorem StatsdSample.Legible.splitOn_line {s : StatsdSample} (hs : s.Legible) :
    s.line.splitOn '|' = s.sections := by
  have hbars : '|' ∉ tagsText s.tags :=
    (notMem_tagsText (by decide) (by decide)).mpr fun p hp =>
      ⟨(hs.keys p hp).2.2, (hs.values p hp).2⟩
  have hne : s.sections ≠ [] := List.cons_ne_nil _ _
  rw [line_eq]
  refine (splitOn_join_iff hne).mpr fun l hl => ?_
  rcases List.mem_append.mp hl with hl | hl
  · rcases List.mem_pair.mp hl with rfl | rfl
    · exact head_legible.mpr ⟨hs.name.2, hs.value⟩
    · exact hs.kind
  · split_ifs at hl
    · exact absurd hl List.not_mem_nil
    · rw [List.mem_singleton.mp hl, List.mem_cons, not_or]
      exact ⟨by decide, hbars⟩

theorem StatsdSample.Legible.readLine {s : StatsdSample} (hs : s.Legible) :
    readLine s.line = some s := by
  have hcut : cut ':' s.head = some (s.name, s.value) := cut_eq_some_iff.mpr ⟨rfl, hs.name.1⟩
  unfold ChalkMetrics.readLine
  rw [hs.splitOn_line]
  by_cases hnil : s.tags = []
  · have hsections : s.sections = [s.head, s.kind] := by simp [sections, hnil]
    rw [hsections]
    simp [hcut, ← hnil]
  · have hsections : s.sections = [s.head, s.kind, '#' :: tagsText s.tags] := by
      simp [sections, hnil]
    have htags : readTags (tagsText s.tags) = some s.tags :=
      readTags_eq_some_iff.mpr ⟨hnil, rfl, fun p hp =>
        ⟨(hs.keys p hp).1, (hs.keys p hp).2.1, (hs.values p hp).1⟩⟩
    rw [hsections]
    simp [hcut, htags]

/-- **A sample is read off its own line** if it is legible, and off no other. -/
theorem readLine_eq_some_iff {line : Text} {s : StatsdSample} :
    readLine line = some s ↔ line = s.line ∧ s.Legible := by
  refine ⟨readLine_sound, ?_⟩
  rintro ⟨rfl, hs⟩
  exact hs.readLine

theorem readNat_displayNat (n : ℕ) : readNat (displayNat n) = some n := by
  have hdigits : (displayNat n).all Char.isDigit = true := by
    rw [List.all_eq_true]
    exact fun c hc => Nat.isDigit_of_mem_toDigits (by decide) (by decide) hc
  unfold readNat
  rw [if_pos ⟨Nat.toDigits_ne_nil, hdigits⟩, displayNat, Nat.ofDigitChars_ten_toDigits]

/-- An integer is read off its text. -/
theorem readInt_displayInt (z : ℤ) : readInt (displayInt z) = some z := by
  unfold displayInt
  split_ifs with hz
  · rw [readInt, readNat_displayNat, Option.map_some]
    congr 1
    omega
  · have hhead : ∀ t, displayNat z.natAbs ≠ '-' :: t := by
      intro t ht
      have hmem : '-' ∈ displayNat z.natAbs := ht ▸ List.mem_cons_self
      have hdigit : Char.isDigit '-' := Nat.isDigit_of_mem_toDigits (by decide) (by decide) hmem
      exact absurd hdigit (by decide)
    rw [readInt.eq_2 _ hhead, readNat_displayNat, Option.map_some]
    congr 1
    show (z.natAbs : ℤ) = z
    omega

/-! ### Datagrams -/

/-- **Samples are read off their datagrams**, in order and each once, just when
all of them are legible and have no newline. -/
theorem StatsdExporter.read_sendLines_iff {F : Type} (e : StatsdExporter F)
    (samples : List StatsdSample) :
    (e.sendLines (samples.map StatsdSample.line)).1.flatMap readDatagram = samples ↔
      ∀ s ∈ samples, s.Legible ∧ '\n' ∉ s.line := by
  have hne : ∀ l ∈ samples.map StatsdSample.line, l ≠ [] := by
    intro l hl
    obtain ⟨s, -, rfl⟩ := List.mem_map.mp hl
    simp [StatsdSample.line, StatsdSample.head]
  constructor
  · intro h s hs
    rw [← h] at hs
    obtain ⟨d, -, hs⟩ := List.mem_flatMap.mp hs
    obtain ⟨l, hl, hread⟩ := List.mem_filterMap.mp hs
    obtain ⟨rfl, hlegible⟩ := readLine_eq_some_iff.mp hread
    exact ⟨hlegible, not_mem_of_mem_splitOn hl⟩
  · intro h
    have hlines : ∀ l ∈ samples.map StatsdSample.line, '\n' ∉ l := by
      intro l hl
      obtain ⟨s, hs, rfl⟩ := List.mem_map.mp hl
      exact (h s hs).2
    calc (e.sendLines (samples.map StatsdSample.line)).1.flatMap readDatagram
        = ((e.sendLines (samples.map StatsdSample.line)).1.flatMap (List.splitOn '\n')).filterMap
            readLine := by rw [List.filterMap_flatMap]; rfl
      _ = (samples.map StatsdSample.line).filterMap readLine := by
          rw [(e.split_sendLines_iff hne).mpr hlines]
      _ = samples.filterMap some := by
          rw [List.filterMap_map]
          exact List.filterMap_congr fun s hs => (h s hs).1.readLine
      _ = samples := List.filterMap_some

/-! ### The samples of a metric -/

section

variable {F : Type} [FloatText F]

/-- The samples of the percentiles. -/
def quantileSamples (name : Text) (tags : List (Text × Text)) (sketch : UDDSketch F) :
    List F → Option (List StatsdSample)
  | [] => some []
  | p :: percentiles => do
    let value ← sketch.estimateQuantile p
    let s := ⟨name ++ '.' :: formatPercentileLabel p, FloatText.display value, ['g'], tags⟩
    return s :: (← quantileSamples name tags sketch percentiles)

namespace StatsdExporter

/-- What a metric says: under which names, with which values, kinds and tags. -/
def samples (e : StatsdExporter F) (m : FlushedMetric (BitVec 64) F) : Option (List StatsdSample) :=
  let name := e.fullName m.namespacePath m.metricName.text
  let tags := e.defaultTags ++ m.tags.pairs
  match m.value with
  | .count value => some [⟨name, displayInt value.toInt, ['c'], tags⟩]
  | .gauge value => some [⟨name, FloatText.display value, ['g'], tags⟩]
  | .histogram sketch =>
    match e.histogramMode with
    | .distribution => some [⟨name, FloatText.display sketch.mean, ['d'], tags⟩]
    | .percentiles percentiles => do
      let quantiles ← quantileSamples name tags sketch percentiles
      return [⟨name ++ ".count".toList, displayNat sketch.count, ['g'], tags⟩,
        ⟨name ++ ".avg".toList, FloatText.display sketch.mean, ['g'], tags⟩] ++ quantiles

def batchSamples (e : StatsdExporter F) :
    List (FlushedMetric (BitVec 64) F) → Option (List StatsdSample)
  | [] => some []
  | metric :: metrics => do
    let ss ← e.samples metric
    return ss ++ (← e.batchSamples metrics)

def pointSample (e : StatsdExporter F) (point : RawDistributionPoint F) : StatsdSample :=
  ⟨e.fullName point.namespacePath point.metricName.text, FloatText.display point.value, ['d'],
    e.defaultTags ++ point.tags.pairs⟩

omit [FloatText F] in
theorem line_eq (e : StatsdExporter F) (name value kind : Text) (tags : List (Text × Text)) :
    StatsdSample.line ⟨name, value, kind, e.defaultTags ++ tags⟩ =
      name ++ ':' :: (value ++ '|' :: kind ++ e.formatTags tags) := by
  simp [StatsdSample.line, StatsdSample.head, formatTags, StatsdSample.tagsText]

theorem quantileLines_eq (e : StatsdExporter F) (name : Text) (tags : List (Text × Text))
    (sketch : UDDSketch F) : ∀ percentiles : List F,
      quantileLines name (e.formatTags tags) sketch percentiles =
        (quantileSamples name (e.defaultTags ++ tags) sketch percentiles).map
          (List.map StatsdSample.line)
  | [] => rfl
  | p :: percentiles => by
    rw [quantileLines, quantileSamples, quantileLines_eq e name tags sketch percentiles]
    cases sketch.estimateQuantile p with
    | none => rfl
    | some value =>
      cases quantileSamples name (e.defaultTags ++ tags) sketch percentiles with
      | none => rfl
      | some ss => simp [line_eq]

/-- The lines of a metric are those of its samples. -/
theorem metricLines_eq (e : StatsdExporter F) (m : FlushedMetric (BitVec 64) F) :
    e.metricLines m = (e.samples m).map (List.map StatsdSample.line) := by
  unfold metricLines samples
  cases m.value with
  | count value => simp [line_eq]
  | gauge value => simp [line_eq]
  | histogram sketch =>
    cases e.histogramMode with
    | distribution => simp [line_eq, formatDistributionLine]
    | percentiles percentiles =>
      simp only [quantileLines_eq]
      cases quantileSamples (e.fullName m.namespacePath m.metricName.text)
        (e.defaultTags ++ m.tags.pairs) sketch percentiles with
      | none => rfl
      | some ss => simp [line_eq]

theorem metricsLines_eq (e : StatsdExporter F) : ∀ batch : List (FlushedMetric (BitVec 64) F),
    e.metricsLines batch = (e.batchSamples batch).map (List.map StatsdSample.line)
  | [] => rfl
  | m :: batch => by
    rw [metricsLines, batchSamples, metricLines_eq, metricsLines_eq e batch]
    cases e.samples m with
    | none => rfl
    | some ss =>
      cases e.batchSamples batch with
      | none => rfl
      | some rest => simp

theorem pointLine_eq (e : StatsdExporter F) (p : RawDistributionPoint F) :
    e.pointLine p = (e.pointSample p).line := by
  simp [pointLine, pointSample, line_eq, formatDistributionLine]

end StatsdExporter

/-! ### What is legible -/

def Undelimited (t : Text) : Prop := ':' ∉ t ∧ '|' ∉ t ∧ '\n' ∉ t

instance (t : Text) : Decidable (Undelimited t) := inferInstanceAs (Decidable (_ ∧ _ ∧ _))

omit [FloatText F] in
/-- The name and the tags under which `a` is sent have no delimiter in them. -/
structure StatsdExporter.Legible (e : StatsdExporter F) (a : AggKey) : Prop where
  name : Undelimited (e.fullName a.namespacePath a.metricName.text)
  keys : ∀ p ∈ e.defaultTags ++ a.tagsData.pairs, Undelimited p.1 ∧ ',' ∉ p.1
  values : ∀ p ∈ e.defaultTags ++ a.tagsData.pairs, ',' ∉ p.2 ∧ '|' ∉ p.2 ∧ '\n' ∉ p.2

/-- The sample of a metric with this name and these tags. -/
structure StatsdSample.Of (name : Text) (tags : List (Text × Text)) (s : StatsdSample) : Prop where
  name : ∃ suffix, s.name = name ++ suffix ∧ Undelimited suffix
  value : Undelimited s.value
  kind : Undelimited s.kind
  tags : s.tags = tags

theorem undelimited_nil : Undelimited [] := ⟨nofun, nofun, nofun⟩

theorem undelimited_kind {c : Char} (h : c ∈ ['c', 'g', 'd']) : Undelimited [c] := by
  have hcases : c = 'c' ∨ c = 'g' ∨ c = 'd' := by simpa using h
  rcases hcases with rfl | rfl | rfl <;> decide

theorem undelimited_append {s t : Text} : Undelimited (s ++ t) ↔ Undelimited s ∧ Undelimited t := by
  simp only [Undelimited, List.mem_append, not_or]
  tauto

theorem undelimited_number {t : Text} (h : ∀ c ∈ t, c ∈ numberChars) : Undelimited t := by
  have hnot : ∀ {c : Char}, c ∉ numberChars → c ∉ t := fun hc hmem => hc (h _ hmem)
  exact ⟨hnot (by decide), hnot (by decide), hnot (by decide)⟩

/-- A number behind a name that is longer by a suffix without delimiters. -/
theorem StatsdSample.of_number {name suffix value : Text} {c : Char} {tags : List (Text × Text)}
    (hsuffix : Undelimited suffix) (hvalue : ∀ d ∈ value, d ∈ numberChars)
    (hc : c ∈ ['c', 'g', 'd']) : Of name tags ⟨name ++ suffix, value, [c], tags⟩ where
  name := ⟨suffix, rfl, hsuffix⟩
  value := undelimited_number hvalue
  kind := undelimited_kind hc
  tags := rfl

theorem StatsdSample.of_name {name value : Text} {c : Char} {tags : List (Text × Text)}
    (hvalue : ∀ d ∈ value, d ∈ numberChars) (hc : c ∈ ['c', 'g', 'd']) :
    Of name tags ⟨name, value, [c], tags⟩ := by
  have h : Of name tags ⟨name ++ [], value, [c], tags⟩ := of_number undelimited_nil hvalue hc
  rwa [List.append_nil] at h

omit [FloatText F] in
theorem StatsdSample.Of.legible_iff {e : StatsdExporter F} {a : AggKey} {s : StatsdSample}
    (h : s.Of (e.fullName a.namespacePath a.metricName.text) (e.defaultTags ++ a.tagsData.pairs)) :
    (s.Legible ∧ '\n' ∉ s.line) ↔ e.Legible a := by
  obtain ⟨suffix, hname, hsuffix⟩ := h.name
  rw [newline_line, hname, h.tags]
  constructor
  · rintro ⟨hs, hn, -, -, htags⟩
    have hwhole : Undelimited (e.fullName a.namespacePath a.metricName.text ++ suffix) :=
      hname ▸ ⟨hs.name.1, hs.name.2, hname.symm ▸ hn⟩
    have hkeys := hs.keys
    have hvalues := hs.values
    rw [h.tags] at hkeys hvalues
    refine ⟨(undelimited_append.mp hwhole).1, fun p hp => ?_, fun p hp => ?_⟩
    · exact ⟨⟨(hkeys p hp).1, (hkeys p hp).2.2, (htags p hp).1⟩, (hkeys p hp).2.1⟩
    · exact ⟨(hvalues p hp).1, (hvalues p hp).2, (htags p hp).2⟩
  · intro ha
    have hwhole : Undelimited s.name := hname ▸ undelimited_append.mpr ⟨ha.name, hsuffix⟩
    refine ⟨⟨⟨hwhole.1, hwhole.2.1⟩, h.value.2.1, h.kind.2.1, ?_, ?_⟩, hname ▸ hwhole.2.2, h.value.2.2,
      h.kind.2.2, fun p hp => ⟨(ha.keys p hp).1.2.2, (ha.values p hp).2.2⟩⟩
    · rw [h.tags]
      intro p hp
      exact ⟨(ha.keys p hp).1.1, (ha.keys p hp).2, (ha.keys p hp).1.2.1⟩
    · rw [h.tags]
      intro p hp
      exact ⟨(ha.values p hp).1, (ha.values p hp).2.1⟩

theorem quantileSamples_of {name : Text} {tags : List (Text × Text)} {sketch : UDDSketch F} :
    ∀ {percentiles : List F} {ss : List StatsdSample},
      quantileSamples name tags sketch percentiles = some ss → ∀ s ∈ ss, s.Of name tags
  | [], ss, h => by
    obtain rfl := Option.some.inj h
    exact nofun
  | p :: percentiles, ss, h => by
    obtain ⟨value, -, h⟩ := Option.bind_eq_some_iff.mp h
    obtain ⟨rest, hrest, h⟩ := Option.bind_eq_some_iff.mp h
    obtain rfl := Option.some.inj h
    have hlabel : Undelimited ('.' :: formatPercentileLabel p) := by
      have hdot : Undelimited ['.', 'p'] := by decide
      exact undelimited_append.mpr ⟨hdot, undelimited_number fun c => mem_displayNat⟩
    refine List.forall_mem_cons.mpr ⟨?_, quantileSamples_of hrest⟩
    exact StatsdSample.of_number hlabel (FloatText.display_mem value) (by decide)

/-- A metric has a sample at least, and all of them have its name and tags. -/
theorem StatsdExporter.samples_of {e : StatsdExporter F} {m : FlushedMetric (BitVec 64) F}
    {ss : List StatsdSample} (h : e.samples m = some ss) :
    ss ≠ [] ∧ ∀ s ∈ ss,
      s.Of (e.fullName m.namespacePath m.metricName.text) (e.defaultTags ++ m.tags.pairs) := by
  unfold samples at h
  cases hm : m.value with
  | count value =>
    rw [hm] at h
    obtain rfl := Option.some.inj h
    refine ⟨List.cons_ne_nil _ _, List.forall_mem_singleton.mpr ?_⟩
    exact StatsdSample.of_name (fun d => mem_displayInt) (by decide)
  | gauge value =>
    rw [hm] at h
    obtain rfl := Option.some.inj h
    refine ⟨List.cons_ne_nil _ _, List.forall_mem_singleton.mpr ?_⟩
    exact StatsdSample.of_name (FloatText.display_mem value) (by decide)
  | histogram sketch =>
    cases he : e.histogramMode with
    | distribution =>
      rw [hm, he] at h
      obtain rfl := Option.some.inj h
      refine ⟨List.cons_ne_nil _ _, List.forall_mem_singleton.mpr ?_⟩
      exact StatsdSample.of_name (FloatText.display_mem _) (by decide)
    | percentiles percentiles =>
      rw [hm, he] at h
      obtain ⟨quantiles, hquantiles, h⟩ := Option.bind_eq_some_iff.mp h
      obtain rfl := Option.some.inj h
      refine ⟨List.cons_ne_nil _ _, List.forall_mem_cons.mpr ⟨?_, List.forall_mem_cons.mpr
        ⟨?_, quantileSamples_of hquantiles⟩⟩⟩
      · exact StatsdSample.of_number (by decide) (fun d => mem_displayNat) (by decide)
      · exact StatsdSample.of_number (by decide) (FloatText.display_mem _) (by decide)

theorem StatsdExporter.batchSamples_of {e : StatsdExporter F} :
    ∀ {batch : List (FlushedMetric (BitVec 64) F)} {ss : List StatsdSample},
      e.batchSamples batch = some ss →
        ((∀ s ∈ ss, s.Legible ∧ '\n' ∉ s.line) ↔ ∀ m ∈ batch, e.Legible m.aggKey)
  | [], ss, h => by
    obtain rfl := Option.some.inj h
    simp
  | m :: batch, ss, h => by
    obtain ⟨front, hfront, h⟩ := Option.bind_eq_some_iff.mp h
    obtain ⟨rest, hrest, h⟩ := Option.bind_eq_some_iff.mp h
    obtain rfl := Option.some.inj h
    obtain ⟨hne, hof⟩ := samples_of hfront
    have hmetric : (∀ s ∈ front, s.Legible ∧ '\n' ∉ s.line) ↔ e.Legible m.aggKey := by
      constructor
      · intro hall
        obtain ⟨s, front, rfl⟩ := List.exists_cons_of_ne_nil hne
        exact ((hof s List.mem_cons_self).legible_iff (a := m.aggKey)).mp (hall s List.mem_cons_self)
      · intro hm s hs
        exact ((hof s hs).legible_iff (a := m.aggKey)).mpr hm
    rw [List.forall_mem_append, List.forall_mem_cons, hmetric, batchSamples_of hrest]

theorem StatsdExporter.read_sendMetrics {e e' : StatsdExporter F}
    {batch : List (FlushedMetric (BitVec 64) F)} {sent : List Text}
    (h : e.sendMetrics batch = some (sent, e')) :
    e.batchSamples batch = some (sent.flatMap readDatagram) ↔ ∀ m ∈ batch, e.Legible m.aggKey := by
  obtain ⟨ls, hls, h⟩ := Option.bind_eq_some_iff.mp h
  obtain rfl : (e.sendLines ls).1 = sent := congrArg Prod.fst (Option.some.inj h)
  rw [e.metricsLines_eq] at hls
  obtain ⟨ss, hss, rfl⟩ := Option.map_eq_some_iff.mp hls
  rw [hss, Option.some_inj, eq_comm, e.read_sendLines_iff, batchSamples_of hss]

theorem StatsdExporter.read_sendRawPoints (e : StatsdExporter F)
    (points : List (RawDistributionPoint F)) :
    (e.sendRawPoints points).1.flatMap readDatagram = points.map e.pointSample ↔
      ∀ p ∈ points, e.Legible ⟨p.namespacePath, p.metricName, p.tags⟩ := by
  have hlines : points.map e.pointLine = (points.map e.pointSample).map StatsdSample.line := by
    rw [List.map_map]
    exact List.map_congr_left fun p _ => e.pointLine_eq p
  have hof : ∀ p : RawDistributionPoint F, (e.pointSample p).Of
      (e.fullName p.namespacePath p.metricName.text) (e.defaultTags ++ p.tags.pairs) := fun p =>
    StatsdSample.of_name (FloatText.display_mem p.value) (by decide)
  rw [sendRawPoints, hlines, e.read_sendLines_iff, List.forall_mem_map]
  exact forall₂_congr fun p _ => (hof p).legible_iff (a := ⟨p.namespacePath, p.metricName, p.tags⟩)

/-- **The server reads what was flushed**, the samples of the batch or of the
points in order and each once, just when all names and tags are legible. -/
theorem received_iff (e : StatsdExporter F) :
    (∀ batch sent e', e.sendMetrics batch = some (sent, e') →
      (e.batchSamples batch = some (sent.flatMap readDatagram) ↔ ∀ m ∈ batch, e.Legible m.aggKey)) ∧
    ∀ points, ((e.sendRawPoints points).1.flatMap readDatagram = points.map e.pointSample ↔
      ∀ p ∈ points, e.Legible ⟨p.namespacePath, p.metricName, p.tags⟩) :=
  ⟨fun _ _ _ h => StatsdExporter.read_sendMetrics h, e.read_sendRawPoints⟩

end
end ChalkMetrics
