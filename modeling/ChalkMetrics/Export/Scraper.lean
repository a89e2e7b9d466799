/-
# What a scraper reads

A scraper reads the lines of an exposed text: HELP and TYPE lines, and samples,
which are a metric name, labels in braces and a value. It passes over blank
lines and other comments, and gives up at a line that is none of these. In the
value of a label a backslash escapes a quote, a backslash or a newline.

The exporter escapes nothing. So of a rendered batch a scraper reads just the
families of the batch, their samples in order and each once, if all names are
names of the format and no label value has one of these three characters in it,
and something else or nothing if not (`scraped_iff`).

Key definitions: `readSample`, `scrape`, `PrometheusExporter.Scrapable`.
-/
import ChalkMetrics.Export.Families
import ChalkMetrics.Lib.Quoting

namespace ChalkMetrics

open Delimited Parsing

/-! ### The scraper -/

def isLabelChar (c : Char) : Bool := c.isAlphanum || c = '_'

def isMetricChar (c : Char) : Bool := isLabelChar c || c = ':'

/-- Names do not begin with a digit. -/
def isName (ok : Char → Bool) (n : Text) : Bool := n.all ok && n.head?.any fun c => !c.isDigit

/-- Between the quotes of a label value. -/
def labelQuoting : Quoting Char where
  quote := '"'
  esc := '\\'
  letter c := if c = '"' then some '"' else if c = '\\' then some '\\'
    else if c = '\n' then some 'n' else none
  meaning l := if l = '"' then some '"' else if l = '\\' then some '\\'
    else if l = 'n' then some '\n' else none
  meaning_iff := by
    intro l t
    constructor
    · intro h
      split_ifs at h with hquote hesc hn <;> cases h <;> subst l <;> decide
    · intro h
      split_ifs at h with hquote hesc hn <;> cases h <;> subst t <;> decide
  quote_letter := by decide
  esc_letter := by decide
  quote_ne_esc := by decide

def peekChar (c : Char) (ts : Text) : Bool := ts.head? = some c

def readName (ok : Char → Bool) : Parser Char Unit Text := suchThat (span ok) (isName ok) ()

def readLabel : Parser Char Unit (Text × Text) := do
  let key ← readName isLabelChar
  word "=\"".toList ()
  let value ← labelQuoting.quoted ()
  return (key, value)

def readBraces : Parser Char Unit (List (Text × Text)) := do
  word ['{'] ()
  let labels ← upTo (peekChar '}') readLabel (word [','] ())
  word ['}'] ()
  return labels

def readLabels : Parser Char Unit (List (Text × Text)) := do
  let labels ← ifPeek (peekChar '{') readBraces
  return labels.getD []

/-- The value is passed on as it stands. -/
def readSample : Parser Char Unit Sample := do
  let name ← readName isMetricChar
  let labels ← readLabels
  word [' '] ()
  let value ← span (· ≠ ' ')
  return ⟨name, labels, value⟩

inductive Scraped where
  | help (name text : Text)
  | type (name kind : Text)
  | sample (s : Sample)

def helpMark : Text := "# HELP ".toList

def typeMark : Text := "# TYPE ".toList

def commentLine (mark name rest : Text) : Text := mark ++ (name ++ ' ' :: rest)

def Scraped.line : Scraped → Text
  | help name text => commentLine helpMark name text
  | type name kind => commentLine typeMark name kind
  | sample s => s.line

def readComment (mark line : Text) : Option (Text × Text) :=
  (cut ' ' (line.drop mark.length)).filter fun p => isName isMetricChar p.1

def readEntry (line : Text) : Option (Option Scraped) :=
  if helpMark.isPrefixOf line then
    (readComment helpMark line).map fun p => some (.help p.1 p.2)
  else if typeMark.isPrefixOf line then
    (readComment typeMark line).map fun p => some (.type p.1 p.2)
  else if line = [] ∨ line.head? = some '#' then some none
  else match readSample line with
    | .ok (s, []) => some (some (.sample s))
    | _ => none

def scrape (text : Text) : Option (List Scraped) := readLines '\n' readEntry text

/-! ### How samples are spelled -/

def labelSpelling (p : Text × Text) : Language Char :=
  given (isName isLabelChar p.1 = true)
    ({p.1} * ({"=\"".toList} * {labelQuoting.escape p.2 ++ ['"']}))

def bracesSpelling (labels : List (Text × Text)) : Language Char :=
  {['{']} * (Terminated labelSpelling {[',']} labels * {['}']})

/-- No labels may have braces or not. -/
def labelsSpelling (labels : List (Text × Text)) : Language Char :=
  given (labels = []) 1 + bracesSpelling labels

def sampleSpelling (s : Sample) : Language Char :=
  given (isName isMetricChar s.name = true ∧ ' ' ∉ s.value)
    ({s.name} * (labelsSpelling s.labels * ({[' ']} * {s.value})))

theorem isName_all {ok : Char → Bool} {n : Text} (h : isName ok n = true) :
    ∀ c ∈ n, ok c = true := by
  unfold isName at h
  rw [Bool.and_eq_true, List.all_eq_true] at h
  exact h.1

theorem exists_cons_of_isName {ok : Char → Bool} {n : Text} (h : isName ok n = true) :
    ∃ c rest, n = c :: rest ∧ ok c = true := by
  cases n with
  | nil => cases h
  | cons c rest => exact ⟨c, rest, rfl, isName_all h c List.mem_cons_self⟩

theorem parses_name (ok : Char → Bool) : Parses (readName ok)
    (fun n => given (isName ok n = true) {n}) {rest | ∀ c ∈ rest.head?, ok c = false} := by
  refine ((Parses.span ok).suchThat (isName ok) ()).congr fun n => ?_
  rw [given_given, and_iff_left_of_imp isName_all]

theorem parses_label : Parses readLabel labelSpelling Set.univ := by
  have h : Parses readLabel (fun p => given True (given (isName isLabelChar p.1 = true) {p.1} *
      ({"=\"".toList} * ({labelQuoting.escape p.2 ++ ['"']} * 1)))) Set.univ := by
    unfold readLabel
    refine (parses_name isLabelChar).field Prod.fst (fun key => ?_) ?_
    · refine (Parses.word _ _).token' ?_
      refine (Parses.quoted labelQuoting ()).field' Prod.snd fun value => Parses.pure fun p => ?_
      rw [true_and, Prod.ext_iff]
    · rintro p - s hs rest -
      obtain ⟨t, -, rfl⟩ := mem_word_mul.mp hs
      rintro c ⟨⟩
      rfl
  refine h.congr fun p => ?_
  rw [given_true, given_mul, mul_one, labelSpelling]

theorem closed_labels : Closed (peekChar '}') labelSpelling {[',']} Set.univ where
  ne_nil := by
    rintro p ⟨-, h⟩
    obtain ⟨_, hs, h⟩ := mem_word_mul.mp h
    obtain ⟨_, -, rfl⟩ := mem_word_mul.mp hs
    simp at h
  sep_ne_nil h := absurd (Set.mem_singleton_iff.mp h) (List.cons_ne_nil _ _).symm
  nil_mem := trivial
  mem _ _ _ := trivial
  stop_mem _ _ := trivial
  item := by
    rintro p s ⟨hp, h⟩ rest
    obtain ⟨t, -, rfl⟩ := mem_word_mul.mp h
    obtain ⟨c, key, hkey⟩ := exists_cons_of_isName hp
    rw [hkey.1]
    refine decide_eq_false fun he => ?_
    obtain rfl := Option.some.inj he
    exact absurd hkey.2 (by decide)
  sep := by
    rintro u rfl rest
    rfl

theorem parses_braces : Parses readBraces bracesSpelling Set.univ := by
  have h : Parses readBraces (fun labels => given True
      ({['{']} * (Terminated labelSpelling {[',']} labels * ({['}']} * 1)))) Set.univ := by
    unfold readBraces
    refine (Parses.word _ _).token' ?_
    refine (parses_label.upTo (Parses.word _ _) closed_labels).field id (fun labels => ?_) ?_
    · refine (Parses.word _ _).token' (Parses.pure fun ls => ?_)
      rw [true_and, id]
    · rintro labels - s hs rest -
      obtain ⟨t, -, rfl⟩ := mem_word_mul.mp hs
      rfl
  refine h.congr fun labels => ?_
  rw [given_true, mul_one, bracesSpelling]

theorem parses_labels : Parses readLabels labelsSpelling {rest | peekChar '{' rest = false} := by
  have hpeek : ∀ labels, ∀ s ∈ bracesSpelling labels, ∀ rest ∈ Set.univ,
      peekChar '{' (s ++ rest) = true := by
    rintro labels s hs rest -
    obtain ⟨t, -, rfl⟩ := mem_word_mul.mp hs
    rfl
  have h : Parses readLabels (fun labels => ofSome fun o : Option (List (Text × Text)) =>
      Maybe bracesSpelling o * given (labels = o.getD []) 1) {rest | peekChar '{' rest = false} := by
    unfold readLabels
    refine (parses_braces.ifPeek hpeek).bind (fun o => (Parses.pure fun ls => Iff.rfl).mono
      fun _ _ => trivial) ?_
    rintro o labels s ⟨-, rfl⟩ rest hrest
    exact ⟨trivial, hrest⟩
  refine h.congr fun labels => Language.ext fun ts => ?_
  rw [labelsSpelling, Language.mem_add, mem_ofSome, Option.exists]
  simp only [Maybe, Option.getD_none, Option.getD_some, one_mul]
  refine or_congr Iff.rfl ⟨?_, fun hts => ⟨labels, ?_⟩⟩
  · rintro ⟨ls, hts⟩
    obtain ⟨s, hs, t, ⟨rfl, rfl⟩, rfl⟩ := Language.mem_mul.mp hts
    rwa [List.append_nil]
  · have hnil : [] ∈ given (labels = labels) (1 : Language Char) := ⟨rfl, rfl⟩
    have hmem := Language.append_mem_mul hts hnil
    rwa [List.append_nil] at hmem

theorem parses_sample : Parses readSample sampleSpelling {[]} := by
  have h : Parses readSample (fun s => given True (given (isName isMetricChar s.name = true) {s.name} *
      (labelsSpelling s.labels *
        ({[' ']} * (given (∀ c ∈ s.value, decide (c ≠ ' ') = true) {s.value} * 1)))))
      {[]} := by
    unfold readSample
    refine (parses_name isMetricChar).field Sample.name (fun name => ?_) ?_
    · refine parses_labels.field Sample.labels (fun labels => ?_) ?_
      · refine (Parses.word _ _).token' ?_
        refine (Parses.span _).field Sample.value (fun value => (Parses.pure fun s => ?_).mono
          fun _ _ => trivial) ?_
        · cases s
          simp [and_assoc]
        · rintro s - t rfl rest rfl
          exact nofun
      · rintro s - t hs rest -
        obtain ⟨t, -, rfl⟩ := mem_word_mul.mp hs
        rfl
    · rintro s - t hs rest -
      obtain ⟨u, hu, v, hv, rfl⟩ := Language.mem_mul.mp hs
      rcases hu with ⟨-, rfl⟩ | hu
      · obtain ⟨v, -, rfl⟩ := mem_word_mul.mp hv
        rintro c ⟨⟩
        rfl
      · obtain ⟨u, -, rfl⟩ := mem_word_mul.mp hu
        rintro c ⟨⟩
        rfl
  refine h.congr fun s => ?_
  have hspace : (∀ c ∈ s.value, decide (c ≠ ' ') = true) ↔ ' ' ∉ s.value := by
    simp only [decide_eq_true_eq]
    exact ⟨fun h hc => h _ hc rfl, fun h c hc => ne_of_mem_of_not_mem hc h⟩
  rw [given_true, mul_one, mul_given, mul_given, mul_given, given_mul, given_given, hspace,
    sampleSpelling, and_comm]

/-! ### What is spelled by the exporter's lines -/

/-- A label as the exporter writes it. -/
def labelText (p : Text × Text) : Text := p.1 ++ "=\"".toList ++ p.2 ++ ['"']

/-- All names are of the format, and no label value needs an escape. -/
structure Sample.Scrapable (s : Sample) : Prop where
  name : isName isMetricChar s.name = true
  labels : ∀ p ∈ s.labels, isName isLabelChar p.1 = true ∧ labelQuoting.Bare p.2
  value : ' ' ∉ s.value

theorem mem_labelSpelling {p : Text × Text} {ts : Text} : ts ∈ labelSpelling p ↔
    isName isLabelChar p.1 = true ∧ p.1 ++ "=\"".toList ++ labelQuoting.escape p.2 ++ ['"'] = ts := by
  rw [labelSpelling, mem_given]
  refine and_congr_right fun _ => ?_
  rw [mem_word_mul]
  constructor
  · rintro ⟨t, ht, rfl⟩
    obtain ⟨u, rfl, rfl⟩ := mem_word_mul.mp ht
    simp
  · rintro rfl
    exact ⟨_, mem_word_mul.mpr ⟨_, rfl, rfl⟩, by simp⟩

/-- **A spelling is longer** than what the exporter writes, or the same and bare. -/
theorem label_le {p : Text × Text} {ts : Text} (h : ts ∈ labelSpelling p) :
    labelText p = ts ∧ labelQuoting.Bare p.2 ∨ (labelText p).length < ts.length := by
  obtain ⟨-, rfl⟩ := mem_labelSpelling.mp h
  unfold labelText
  rcases labelQuoting.escape_le p.2 with ⟨hbare, hesc⟩ | hlt
  · exact .inl ⟨by rw [hesc], hbare⟩
  · exact .inr (by simp only [List.length_append]; omega)

theorem joined_le : ∀ {labels : List (Text × Text)} {ts : Text},
    ts ∈ Terminated labelSpelling {[',']} labels →
      (∀ p ∈ labels, isName isLabelChar p.1 = true) ∧
      ([','].intercalate (labels.map labelText) = ts ∧ (∀ p ∈ labels, labelQuoting.Bare p.2) ∨
        ([','].intercalate (labels.map labelText)).length < ts.length)
  | [], ts, h => by
    obtain rfl : ts = [] := h
    exact ⟨nofun, .inl ⟨rfl, nofun⟩⟩
  | [p], ts, h => by
    obtain ⟨s, hs, u, hu, rfl⟩ := Language.mem_mul.mp h
    refine ⟨List.forall_mem_singleton.mpr hs.1, ?_⟩
    rw [List.map_singleton, List.intercalate_singleton, List.forall_mem_singleton, List.length_append]
    rcases hu with rfl | rfl
    · rw [List.append_nil]
      exact (label_le hs).imp_right fun h => by simpa using h
    · right
      have : ([','] : Text).length = 1 := rfl
      rcases label_le hs with ⟨rfl, -⟩ | hlt <;> omega
  | p :: q :: labels, ts, h => by
    obtain ⟨s, hs, v, hv, rfl⟩ := Language.mem_mul.mp h
    obtain ⟨t, ht, rfl⟩ := mem_word_mul.mp hv
    obtain ⟨hnames, hle⟩ := joined_le ht
    refine ⟨List.forall_mem_cons.mpr ⟨hs.1, hnames⟩, ?_⟩
    rw [List.map_cons, List.map_cons, List.intercalate_cons_cons, ← List.map_cons, List.append_assoc,
      List.forall_mem_cons]
    simp only [List.length_append]
    rcases label_le hs with ⟨rfl, hp⟩ | hlt
    · rcases hle with ⟨rfl, hbare⟩ | hlt
      · exact .inl ⟨rfl, hp, hbare⟩
      · exact .inr (by omega)
    · have hrest : ([','].intercalate ((q :: labels).map labelText)).length ≤ t.length := by
        rcases hle with ⟨heq, -⟩ | hlt
        · rw [heq]
        · omega
      exact .inr (by omega)

theorem labels_le {labels : List (Text × Text)} {ts : Text} (h : ts ∈ labelsSpelling labels) :
    (∀ p ∈ labels, isName isLabelChar p.1 = true) ∧
      (formatTags labels = ts ∧ (∀ p ∈ labels, labelQuoting.Bare p.2) ∨
        (formatTags labels).length < ts.length) := by
  rcases h with ⟨rfl, rfl⟩ | h
  · exact ⟨nofun, .inl ⟨rfl, nofun⟩⟩
  obtain ⟨t, ht, rfl⟩ := mem_word_mul.mp h
  obtain ⟨s, hs, u, rfl, rfl⟩ := Language.mem_mul.mp ht
  obtain ⟨hnames, hle⟩ := joined_le hs
  refine ⟨hnames, ?_⟩
  cases labels with
  | nil => exact .inr (by simp [formatTags])
  | cons p labels =>
    have htags : formatTags (p :: labels) =
        '{' :: ([','].intercalate ((p :: labels).map labelText) ++ ['}']) := rfl
    rw [htags]
    rcases hle with ⟨rfl, hbare⟩ | hlt
    · exact .inl ⟨rfl, hbare⟩
    · exact .inr (by simpa using hlt)

theorem labelText_mem {p : Text × Text} (hname : isName isLabelChar p.1 = true)
    (hbare : labelQuoting.Bare p.2) : labelText p ∈ labelSpelling p := by
  have hesc : labelQuoting.escape p.2 = p.2 := labelQuoting.escape_eq hbare
  exact mem_labelSpelling.mpr ⟨hname, by rw [hesc, labelText]⟩

theorem joined_mem : ∀ {labels : List (Text × Text)},
    (∀ p ∈ labels, isName isLabelChar p.1 = true ∧ labelQuoting.Bare p.2) →
      [','].intercalate (labels.map labelText) ∈ Terminated labelSpelling {[',']} labels
  | [], _ => rfl
  | [p], h => by
    have hp := h p List.mem_cons_self
    have hnil : [] ∈ (1 : Language Char) + {[',']} := Or.inl rfl
    have hmem := Language.append_mem_mul (labelText_mem hp.1 hp.2) hnil
    rw [List.append_nil] at hmem
    rwa [List.map_singleton, List.intercalate_singleton]
  | p :: q :: labels, h => by
    have hp := h p List.mem_cons_self
    have hrest := joined_mem fun r hr => h r (List.mem_cons_of_mem p hr)
    rw [List.map_cons, List.map_cons, List.intercalate_cons_cons, ← List.map_cons, List.append_assoc]
    exact Language.append_mem_mul (labelText_mem hp.1 hp.2)
      (mem_word_mul.mpr ⟨_, hrest, rfl⟩)

theorem formatTags_mem_spelling {labels : List (Text × Text)}
    (h : ∀ p ∈ labels, isName isLabelChar p.1 = true ∧ labelQuoting.Bare p.2) :
    formatTags labels ∈ labelsSpelling labels := by
  cases labels with
  | nil => exact Or.inl ⟨rfl, rfl⟩
  | cons p labels =>
    have hclose : ['}'] ∈ ({['}']} : Language Char) := rfl
    have hjoined := Language.append_mem_mul (joined_mem h) hclose
    exact Or.inr (mem_word_mul.mpr ⟨_, hjoined, rfl⟩)

theorem mem_sampleSpelling {s : Sample} {ts : Text} : ts ∈ sampleSpelling s ↔
    (isName isMetricChar s.name = true ∧ ' ' ∉ s.value) ∧
      ∃ u ∈ labelsSpelling s.labels, s.name ++ (u ++ ' ' :: s.value) = ts := by
  rw [sampleSpelling, mem_given, mem_word_mul]
  refine and_congr_right fun _ => ?_
  constructor
  · rintro ⟨t, ht, rfl⟩
    obtain ⟨u, hu, v, hv, rfl⟩ := Language.mem_mul.mp ht
    obtain ⟨v, rfl, rfl⟩ := mem_word_mul.mp hv
    exact ⟨u, hu, rfl⟩
  · rintro ⟨u, hu, rfl⟩
    exact ⟨_, Language.append_mem_mul hu (mem_word_mul.mpr ⟨_, rfl, rfl⟩), rfl⟩

theorem line_eq_append (s : Sample) : s.line = s.name ++ (formatTags s.labels ++ ' ' :: s.value) :=
  List.append_assoc _ _ _

theorem sample_le {s : Sample} {ts : Text} (h : ts ∈ sampleSpelling s) :
    s.line = ts ∨ s.line.length < ts.length := by
  obtain ⟨-, u, hu, rfl⟩ := mem_sampleSpelling.mp h
  rw [line_eq_append]
  rcases (labels_le hu).2 with ⟨rfl, -⟩ | hlt
  · exact .inl rfl
  · exact .inr (by simp only [List.length_append]; omega)

/-- **A sample is spelled by its own line** just when it is scrapable. -/
theorem line_mem_iff {s : Sample} : s.line ∈ sampleSpelling s ↔ s.Scrapable := by
  rw [mem_sampleSpelling, line_eq_append]
  constructor
  · rintro ⟨⟨hname, hvalue⟩, u, hu, heq⟩
    have hu' : u = formatTags s.labels := List.append_cancel_right (List.append_cancel_left heq)
    rw [hu'] at hu
    obtain ⟨hnames, ⟨-, hbare⟩ | hlt⟩ := labels_le hu
    · exact ⟨hname, fun p hp => ⟨hnames p hp, hbare p hp⟩, hvalue⟩
    · exact absurd hlt (lt_irrefl _)
  · intro hs
    exact ⟨⟨hs.name, hs.value⟩, _, formatTags_mem_spelling hs.labels, rfl⟩

/-! ### Entries -/

theorem readComment_eq_some_iff {mark line n t : Text} (h : mark.isPrefixOf line = true) :
    readComment mark line = some (n, t) ↔
      line = commentLine mark n t ∧ isName isMetricChar n = true := by
  obtain ⟨rest, rfl⟩ := List.isPrefixOf_iff_prefix.mp h
  rw [readComment, List.drop_left, Option.filter_eq_some_iff, cut_eq_some_iff, commentLine,
    List.append_cancel_left_eq, and_assoc]
  refine and_congr_right fun _ => and_iff_right_of_imp fun hname hspace => ?_
  exact absurd (isName_all hname _ hspace) (by decide)

theorem isPrefixOf_commentLine (mark n t : Text) : mark.isPrefixOf (commentLine mark n t) = true :=
  isPrefixOf_append mark _

theorem not_help_of_type {line : Text} (h : typeMark.isPrefixOf line = true) :
    ¬ helpMark.isPrefixOf line = true := by
  obtain ⟨rest, rfl⟩ := List.isPrefixOf_iff_prefix.mp h
  exact Bool.false_ne_true

/-- What an entry was read from. -/
theorem readEntry_cases {line : Text} {x : Scraped} (h : readEntry line = some (some x)) :
    (∃ n t, x = .help n t ∧ line = x.line ∧ isName isMetricChar n = true) ∨
    (∃ n t, x = .type n t ∧ line = x.line ∧ isName isMetricChar n = true) ∨
    ∃ s, x = .sample s ∧ line ∈ sampleSpelling s := by
  unfold readEntry at h
  split_ifs at h with hhelp htype
  · obtain ⟨⟨n, t⟩, hp, h⟩ := Option.map_eq_some_iff.mp h
    obtain rfl := Option.some.inj h
    exact .inl ⟨n, t, rfl, (readComment_eq_some_iff hhelp).mp hp⟩
  · obtain ⟨⟨n, t⟩, hp, h⟩ := Option.map_eq_some_iff.mp h
    obtain rfl := Option.some.inj h
    exact .inr (.inl ⟨n, t, rfl, (readComment_eq_some_iff htype).mp hp⟩)
  · cases h
  · split at h
    · rename_i s hread
      obtain rfl := Option.some.inj (Option.some.inj h)
      exact .inr (.inr ⟨s, rfl, (parses_sample.run_iff rfl).mp hread⟩)
    · cases h

theorem readEntry_help {n t : Text} (hn : isName isMetricChar n = true) :
    readEntry (Scraped.help n t).line = some (some (.help n t)) := by
  have hmark := isPrefixOf_commentLine helpMark n t
  have hread : readComment helpMark (commentLine helpMark n t) = some (n, t) :=
    (readComment_eq_some_iff hmark).mpr ⟨rfl, hn⟩
  rw [Scraped.line, readEntry, if_pos hmark, hread]
  rfl

theorem readEntry_type {n t : Text} (hn : isName isMetricChar n = true) :
    readEntry (Scraped.type n t).line = some (some (.type n t)) := by
  have hmark := isPrefixOf_commentLine typeMark n t
  have hread : readComment typeMark (commentLine typeMark n t) = some (n, t) :=
    (readComment_eq_some_iff hmark).mpr ⟨rfl, hn⟩
  rw [Scraped.line, readEntry, if_neg (not_help_of_type hmark), if_pos hmark, hread]
  rfl

theorem head_of_mark {mark line : Text} (hmark : mark.head? = some '#')
    (h : mark.isPrefixOf line = true) : line.head? = some '#' := by
  obtain ⟨rest, rfl⟩ := List.isPrefixOf_iff_prefix.mp h
  cases mark with
  | nil => cases hmark
  | cons c mark => exact hmark

theorem readEntry_sample {line : Text} {s : Sample} (h : line ∈ sampleSpelling s) :
    readEntry line = some (some (.sample s)) := by
  have hread := (parses_sample.run_iff rfl).mpr h
  obtain ⟨⟨hname, -⟩, u, -, rfl⟩ := mem_sampleSpelling.mp h
  obtain ⟨c, rest, hc, hok⟩ := exists_cons_of_isName hname
  have hhead : (s.name ++ (u ++ ' ' :: s.value)).head? ≠ some '#' := by
    rw [hc]
    intro hcons
    obtain rfl := Option.some.inj hcons
    exact absurd hok (by decide)
  have hnil : s.name ++ (u ++ ' ' :: s.value) ≠ [] := by simp [hc]
  rw [readEntry, if_neg fun hmark => hhead (head_of_mark rfl hmark),
    if_neg fun hmark => hhead (head_of_mark rfl hmark), if_neg (not_or.mpr ⟨hnil, hhead⟩), hread]

theorem sparing_readEntry : Sparing readEntry Scraped.line := by
  intro line x h
  rcases readEntry_cases h with ⟨n, t, -, hline, -⟩ | ⟨n, t, -, hline, -⟩ | ⟨s, rfl, hs⟩
  · exact .inl hline.symm
  · exact .inl hline.symm
  · exact sample_le hs

/-! ### The entries of a batch -/

def Scraped.Legible : Scraped → Prop
  | help name _ => isName isMetricChar name = true
  | type name _ => isName isMetricChar name = true
  | sample s => s.Scrapable

/-- **An entry is read off its own line** just when it is legible. -/
theorem readEntry_line_iff {x : Scraped} : readEntry x.line = some (some x) ↔ x.Legible := by
  constructor
  · intro h
    rcases readEntry_cases h with ⟨n, t, rfl, -, hn⟩ | ⟨n, t, rfl, -, hn⟩ | ⟨s, rfl, hs⟩
    · exact hn
    · exact hn
    · exact line_mem_iff.mp hs
  · intro h
    cases x with
    | help n t => exact readEntry_help h
    | type n t => exact readEntry_type h
    | sample s => exact readEntry_sample (line_mem_iff.mpr h)

/-- What a family says. -/
def Family.scraped (f : Family) : List Scraped :=
  .help f.name f.help :: .type f.name f.type :: f.samples.map .sample

theorem Family.lines_eq (f : Family) : f.lines = f.scraped.map Scraped.line := by
  have hassoc : ∀ mark name rest : Text, mark ++ name ++ ' ' :: rest = commentLine mark name rest :=
    fun mark name rest => List.append_assoc mark name (' ' :: rest)
  rw [Family.lines, hassoc, hassoc, scraped, List.map_cons, List.map_cons, List.map_map]
  rfl

/-- The names of the format, and label values that need no escape. -/
structure PrometheusExporter.Scrapable {F : Type} (e : PrometheusExporter F)
    (m : FlushedMetric (BitVec 64) F) : Prop where
  names : ∀ n ∈ e.exposedNames m, isName isMetricChar n = true
  labels : ∀ p ∈ m.tags.pairs, isName isLabelChar p.1 = true ∧ labelQuoting.Bare p.2

section

variable {F : Type} [FloatText F]

theorem bare_le {t : Text} (h : ∀ c ∈ t, c ∈ leChars) : labelQuoting.Bare t := by
  have hall : ∀ c ∈ leChars, labelQuoting.letter c = none := forall_mem_of_all (by decide)
  exact fun c hc => hall c (h c hc)

omit [FloatText F] in
/-- The samples of a scrapable metric are scrapable. -/
theorem PrometheusExporter.Scrapable.sample {e : PrometheusExporter F}
    {m : FlushedMetric (BitVec 64) F} {s : Sample} (hm : e.Scrapable m)
    (hname : s.name ∈ e.exposedNames m)
    (hs : s.Of (e.fullName m.namespacePath m.metricName.text) m.tags.pairs) : s.Scrapable where
  name := hm.names _ hname
  labels := by
    rcases hs.labels with hl | ⟨leStr, hle, hl⟩
    · rw [hl]
      exact hm.labels
    · rw [hl, List.forall_mem_append, List.forall_mem_singleton]
      exact ⟨hm.labels, rfl, bare_le hle⟩
  value hc := absurd (hs.value _ hc) (by decide)

/-- A metric is as legible as what its family says. -/
theorem family_scrapable_iff {e : PrometheusExporter F} {m : FlushedMetric (BitVec 64) F} {f : Family}
    (h : e.family m = some f) :
    (∀ x ∈ f.scraped, x.Legible ∧ '\n' ∉ x.line) ↔ e.Scrapable m := by
  have hf := family_of h
  obtain ⟨hshaped, hnames⟩ := family_names h
  have hsample : ∀ s ∈ f.samples, .sample s ∈ f.scraped := fun s hs =>
    List.mem_cons_of_mem _ (List.mem_cons_of_mem _ (List.mem_map_of_mem hs))
  constructor
  · intro hall
    have hscrapable : ∀ s ∈ f.samples, s.Scrapable := fun s hs => (hall _ (hsample s hs)).1
    constructor
    · intro n hn
      rcases List.mem_cons.mp ((hnames n).mpr hn) with rfl | hn
      · exact (hall _ List.mem_cons_self).1
      · obtain ⟨s, hs, rfl⟩ := List.mem_map.mp hn
        exact (hscrapable s hs).name
    · intro p hp
      obtain ⟨s, rest, hcons⟩ := List.exists_cons_of_ne_nil hshaped.samples
      have hs : s ∈ f.samples := hcons ▸ List.mem_cons_self
      refine (hscrapable s hs).labels p ?_
      rcases (hf.samples s hs).labels with hl | ⟨leStr, -, hl⟩
      · rwa [hl]
      · rw [hl]
        exact List.mem_append_left _ hp
  · intro hm
    have hname : isName isMetricChar f.name = true := hm.names _ ((hnames _).mp List.mem_cons_self)
    have hbase : '\n' ∉ e.fullName m.namespacePath m.metricName.text := by
      obtain ⟨suffix, -, heq⟩ := hf.name
      intro hc
      have hmem : '\n' ∈ f.name := heq ▸ List.mem_append_left _ hc
      exact absurd (isName_all hname _ hmem) (by decide)
    have htags : ∀ p ∈ m.tags.pairs, '\n' ∉ p.1 ∧ '\n' ∉ p.2 := by
      intro p hp
      obtain ⟨hkey, hbare⟩ := hm.labels p hp
      exact ⟨fun hc => absurd (isName_all hkey _ hc) (by decide), fun hc => by cases hbare _ hc⟩
    have hlegible : ∀ x ∈ f.scraped, x.Legible := by
      refine List.forall_mem_cons.mpr ⟨hname, List.forall_mem_cons.mpr ⟨hname, ?_⟩⟩
      rw [List.forall_mem_map]
      intro s hs
      refine hm.sample ((hnames _).mp ?_) (hf.samples s hs)
      exact List.mem_cons_of_mem _ (List.mem_map_of_mem hs)
    intro x hx
    refine ⟨hlegible x hx, hf.newline hbase htags _ ?_⟩
    rw [f.lines_eq]
    exact List.mem_map_of_mem hx

/-- **A scraper reads what was rendered**, the families of the batch in order,
just when all names and label values are fit for it. -/
theorem scraped_iff {e : PrometheusExporter F} {batch : List (FlushedMetric (BitVec 64) F)}
    {text : Text} (h : e.render batch = some text) :
    scrape text = some ((batch.filterMap e.family).flatMap Family.scraped) ↔
      ∀ m ∈ batch, e.Scrapable m := by
  obtain ⟨ls, hls, h⟩ := Option.bind_eq_some_iff.mp h
  obtain rfl := Option.some.inj h
  obtain ⟨hfs, rfl⟩ := PrometheusExporter.renderLines_eq hls
  have hlines : (batch.filterMap e.family).flatMap Family.lines =
      ((batch.filterMap e.family).flatMap Family.scraped).map Scraped.line := by
    rw [List.map_flatMap]
    exact List.flatMap_congr fun f _ => f.lines_eq
  rw [scrape, hlines, readLines_unlines_iff sparing_readEntry]
  simp only [readEntry_line_iff]
  constructor
  · intro hall m hm
    obtain ⟨f, hf⟩ := Option.isSome_iff_exists.mp (hfs m hm)
    refine (family_scrapable_iff hf).mp fun x hx => hall x ?_
    exact List.mem_flatMap.mpr ⟨f, List.mem_filterMap.mpr ⟨m, hm, hf⟩, hx⟩
  · intro hall x hx
    obtain ⟨f, hf, hx⟩ := List.mem_flatMap.mp hx
    obtain ⟨m, hm, hf⟩ := List.mem_filterMap.mp hf
    exact (family_scrapable_iff hf).mpr (hall m hm) x hx

def hitsOn (path : Text) : FlushedMetric (BitVec 64) F64 :=
  ⟨[], ⟨0, "hits".toList⟩, ⟨[("path".toList, path)]⟩, .count 1⟩

/-- Two series, one of them with a quote in its label. -/
theorem scraped_two : ∃ text,
    (PrometheusExporter.builder : PrometheusExporter F64).render
      [hitsOn "/a".toList, hitsOn "\"".toList] = some text ∧
    (scrape text = some (([hitsOn "/a".toList, hitsOn "\"".toList].filterMap
        (PrometheusExporter.builder : PrometheusExporter F64).family).flatMap Family.scraped) ↔
      ∀ m ∈ [hitsOn "/a".toList, hitsOn "\"".toList],
        (PrometheusExporter.builder : PrometheusExporter F64).Scrapable m) :=
  ⟨_, rfl, scraped_iff rfl⟩

/-- One quote fails the scrape of all series. -/
example : ((PrometheusExporter.builder : PrometheusExporter F64).render
    [hitsOn "/a".toList, hitsOn "\"".toList]).bind scrape = none := by decide

end
end ChalkMetrics
