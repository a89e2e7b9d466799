/-
# Metric families of an exposed text

The exposition format has one HELP line and one TYPE line for a family and the
family's samples in one block behind them (`OneBlockEach`). `render` writes both
lines for every series. A list of families is in blocks just when no two of
them share a name (`oneBlockEach_iff`), and the lines of a rendered text are
those of its families as long as names and tags can be read on them. So over
alphabets `N` for names and `A` for tags, the families of a text are in blocks
for just the batches no two metrics of which share a name (`FamiliesApart`) if
and only if the alphabets are legible (`families_iff`); two series of one metric
share theirs (`two_series`).

Key definitions: `entryOf`, `OneBlockEach`, `PrometheusExporter.exposedNames`,
`PrometheusExporter.Legible`.
-/
import ChalkMetrics.Export.Readings

namespace ChalkMetrics

open Delimited

/-- What a line of the exposition format is. -/
inductive Entry
  | help (family : Text)
  | type (family type : Text)
  | sample (name : Text)
  | comment
  deriving DecidableEq

def entryOf (line : Text) : Entry :=
  let body := line.drop 7
  let family := body.takeWhile (· ≠ ' ')
  if "# HELP ".toList.isPrefixOf line then .help family
  else if "# TYPE ".toList.isPrefixOf line then .type family (body.drop (family.length + 1))
  else if line.head? = some '#' then .comment
  else .sample (line.takeWhile (· ∉ [' ', '{']))

def Entry.helps (family : Text) : Entry → Bool
  | .help n => n = family
  | _ => false

def Entry.types (family : Text) : Entry → Bool
  | .type n _ => n = family
  | _ => false

def histogramSuffixes : List Text := ["_bucket".toList, "_sum".toList, "_count".toList]

/-- A sample of the family: it has the family's name, or the family is a
histogram and it has the name of one of its parts. -/
def SampleOf (es : List Entry) (family : Text) (x : Entry) : Prop :=
  ∃ n, x = .sample n ∧
    (n = family ∨ Entry.type family "histogram".toList ∈ es ∧
      ∃ suffix ∈ histogramSuffixes, n = family ++ suffix)

/-- At most one HELP and one TYPE line, and behind them the samples, in one block. -/
structure OneBlock (es : List Entry) (family : Text) : Prop where
  help : es.countP (·.helps family) ≤ 1
  type : es.countP (·.types family) ≤ 1
  block : ∃ before samples after, es = before ++ samples ++ after ∧ samples ≠ [] ∧
    (∀ x ∈ samples, SampleOf es family x) ∧ (∀ x ∈ before ++ after, ¬ SampleOf es family x) ∧
    ∀ x ∈ samples ++ after, x.helps family = false ∧ x.types family = false

/-- Every family that has a HELP or TYPE line is in one block. -/
def OneBlockEach (es : List Entry) : Prop :=
  ∀ family, (∃ x ∈ es, x.helps family ∨ x.types family) → OneBlock es family

/-! ### The entries of a family -/

def Family.entries (f : Family) : List Entry :=
  .help f.name :: .type f.name f.type :: f.samples.map fun s => .sample s.name

/-- The names a family takes up. -/
def Family.names (f : Family) : List Text := f.name :: f.samples.map Sample.name

/-- Samples have the family's name or, of a histogram, the names of its parts,
and every part is there. -/
structure Family.Shaped (f : Family) : Prop where
  samples : f.samples ≠ []
  named : ∀ s ∈ f.samples, s.name = f.name ∨ f.type = "histogram".toList ∧
    ∃ suffix ∈ histogramSuffixes, s.name = f.name ++ suffix
  parts : f.type = "histogram".toList → ∀ suffix ∈ histogramSuffixes,
    f.name ++ suffix ∈ f.samples.map Sample.name

theorem Family.Shaped.sampleOf {f : Family} (hf : f.Shaped) {es : List Entry}
    (ht : .type f.name f.type ∈ es) {n : Text} (hn : n ∈ f.names) :
    SampleOf es f.name (.sample n) := by
  refine ⟨n, rfl, ?_⟩
  rcases List.mem_cons.mp hn with rfl | hn
  · exact .inl rfl
  · obtain ⟨s, hs, rfl⟩ := List.mem_map.mp hn
    exact (hf.named s hs).imp_right fun ⟨h, hsuf⟩ => ⟨h ▸ ht, hsuf⟩

/-- The entry has no part in the family. -/
structure Entry.Apart (f : Family) (x : Entry) : Prop where
  helps : x.helps f.name = false
  types : x.types f.name = false
  named : ∀ n, x = .sample n → n ∉ f.names

theorem Family.entries_apart {f g : Family} (h : f.names.Disjoint g.names) {x : Entry}
    (hx : x ∈ g.entries) : x.Apart f := by
  have hne : g.name ≠ f.name := fun he =>
    h (List.mem_cons_self (a := f.name)) (he ▸ List.mem_cons_self)
  unfold Family.entries at hx
  rcases List.mem_cons.mp hx with rfl | hx
  · exact ⟨decide_eq_false hne, rfl, nofun⟩
  rcases List.mem_cons.mp hx with rfl | hx
  · exact ⟨rfl, decide_eq_false hne, nofun⟩
  · obtain ⟨s, hs, rfl⟩ := List.mem_map.mp hx
    refine ⟨rfl, rfl, fun n hn hmem => ?_⟩
    obtain rfl := Entry.sample.inj hn
    exact h hmem (List.mem_cons_of_mem _ (List.mem_map_of_mem hs))

section

variable {f : Family} {before after : List Entry}

/-- A TYPE line of the family is the one it writes. -/
theorem Family.type_of_mem (hout : ∀ x ∈ before ++ after, x.Apart f) {type : Text}
    (h : .type f.name type ∈ before ++ (f.entries ++ after)) : type = f.type := by
  have hno : Entry.type f.name type ∉ before ++ after := fun hx => by
    simpa [Entry.types] using (hout _ hx).types
  rw [List.mem_append, not_or] at hno
  rw [List.mem_append, List.mem_append] at h
  simpa [Family.entries] using (h.resolve_left hno.1).resolve_right hno.2

theorem Family.Shaped.not_sampleOf (hf : f.Shaped) (hout : ∀ x ∈ before ++ after, x.Apart f)
    {x : Entry} (hx : x.Apart f) : ¬ SampleOf (before ++ (f.entries ++ after)) f.name x := by
  rintro ⟨n, rfl, rfl | ⟨hhist, suffix, hsuffix, rfl⟩⟩
  · exact hx.named _ rfl List.mem_cons_self
  · have hparts := hf.parts (Family.type_of_mem hout hhist).symm suffix hsuffix
    exact hx.named _ rfl (List.mem_cons_of_mem _ hparts)

/-- Counting the family's own two lines. -/
theorem Family.countP_entries {p : Entry → Bool} (hout : ∀ x ∈ before ++ after, p x = false)
    (hsample : ∀ n, p (.sample n) = false) :
    (before ++ (f.entries ++ after)).countP p =
      [Entry.help f.name, .type f.name f.type].countP p := by
  have hnone : ∀ {l : List Entry}, (∀ x ∈ l, p x = false) → l.countP p = 0 := fun h =>
    List.countP_eq_zero.mpr fun x hx => by simp [h x hx]
  have hsamples : (f.samples.map fun s => Entry.sample s.name).countP p = 0 := by
    apply hnone
    intro x hx
    obtain ⟨s, -, rfl⟩ := List.mem_map.mp hx
    exact hsample s.name
  rw [List.countP_append, List.countP_append,
    hnone fun x hx => hout x (List.mem_append_left after hx),
    hnone fun x hx => hout x (List.mem_append_right before hx), Family.entries, List.countP_cons,
    List.countP_cons, hsamples]
  simp [List.countP_cons]

end

/-! ### Blocks -/

/-- What lies between two elements of a block is in the block. -/
theorem sublist_block {α : Type*} {P : α → Prop} {before block after : List α}
    (hout : ∀ x ∈ before ++ after, ¬ P x) {x z : α} {l : List α} (hx : P x) (hz : P z)
    (h : (x :: l ++ [z]).Sublist (before ++ block ++ after)) : (x :: l ++ [z]).Sublist block := by
  obtain ⟨l₁, l₂, he, h₁, h₂⟩ := List.sublist_append_iff.mp h
  obtain rfl : l₂ = [] := by
    rcases List.eq_nil_or_concat l₂ with rfl | ⟨l₃, b, rfl⟩
    · rfl
    · rw [List.concat_eq_append, ← List.append_assoc] at he
      obtain rfl := List.append_singleton_inj.mp he |>.2
      have hmem : z ∈ after := h₂.subset (by simp)
      exact absurd hz (hout z (List.mem_append_right _ hmem))
  rw [List.append_nil] at he
  obtain ⟨l₃, l₄, he', h₃, h₄⟩ := List.sublist_append_iff.mp (he ▸ h₁)
  rcases l₃ with _ | ⟨a, l₃⟩
  · rw [he']
    exact h₄
  · obtain rfl := (List.cons.inj he').1
    have hmem : x ∈ before := h₃.subset List.mem_cons_self
    exact absurd hx (hout x (List.mem_append_left _ hmem))

theorem sublist_flatMap {α β : Type*} {f : α → List β} {a : α} {l : List α} (h : a ∈ l) :
    (f a).Sublist (l.flatMap f) := by
  obtain ⟨s, t, rfl⟩ := List.append_of_mem h
  rw [List.flatMap_append, List.flatMap_cons]
  exact (List.sublist_append_left _ _).trans (List.sublist_append_right _ _)

/-- What stands between two samples of a family is a sample of it. -/
theorem OneBlock.between {es : List Entry} {family : Text} {x y z : Entry} (h : OneBlock es family)
    (hx : SampleOf es family x) (hz : SampleOf es family z) (hsub : [x, y, z].Sublist es) :
    SampleOf es family y := by
  obtain ⟨before, samples, after, he, -, hs, hout, -⟩ := h.block
  have hin := sublist_block hout hx hz (l := [y]) (he ▸ hsub)
  exact hs y (hin.subset (by simp))

theorem SampleOf.ne_help {es : List Entry} {family other : Text} :
    ¬ SampleOf es family (.help other) := by
  rintro ⟨n, hn, -⟩
  cases hn

theorem Family.Shaped.oneBlock {f : Family} (hf : f.Shaped) {fs₁ fs₂ : List Family}
    (h : ∀ g ∈ fs₁ ++ fs₂, f.names.Disjoint g.names) :
    OneBlock ((fs₁ ++ f :: fs₂).flatMap Family.entries) f.name := by
  have hout : ∀ x ∈ fs₁.flatMap Family.entries ++ fs₂.flatMap Family.entries, x.Apart f := by
    intro x hx
    rw [← List.flatMap_append] at hx
    obtain ⟨g, hg, hx⟩ := List.mem_flatMap.mp hx
    exact Family.entries_apart (h g hg) hx
  rw [List.flatMap_append, List.flatMap_cons]
  generalize fs₁.flatMap Family.entries = before at hout ⊢
  generalize fs₂.flatMap Family.entries = after at hout ⊢
  have htype : .type f.name f.type ∈ before ++ (f.entries ++ after) := by simp [Family.entries]
  refine ⟨?_, ?_, before ++ [.help f.name, .type f.name f.type], f.samples.map fun s => .sample s.name,
    after, by simp [Family.entries], by simpa using hf.samples, fun x hx => ?_, fun x hx => ?_,
    fun x hx => ?_⟩
  · rw [Family.countP_entries (fun x hx => (hout x hx).helps) fun _ => rfl]
    simp [Entry.helps]
  · rw [Family.countP_entries (fun x hx => (hout x hx).types) fun _ => rfl]
    simp [Entry.types]
  · obtain ⟨s, hs, rfl⟩ := List.mem_map.mp hx
    exact hf.sampleOf htype (List.mem_cons_of_mem _ (List.mem_map_of_mem hs))
  · simp only [List.mem_append, List.mem_cons, List.not_mem_nil, or_false] at hx
    rcases hx with (hx | rfl | rfl) | hx
    · exact hf.not_sampleOf hout (hout x (List.mem_append_left _ hx))
    · exact SampleOf.ne_help
    · rintro ⟨n, hn, -⟩
      cases hn
    · exact hf.not_sampleOf hout (hout x (List.mem_append_right _ hx))
  · rcases List.mem_append.mp hx with hx | hx
    · obtain ⟨s, -, rfl⟩ := List.mem_map.mp hx
      exact ⟨rfl, rfl⟩
    · have hapart := hout x (List.mem_append_right _ hx)
      exact ⟨hapart.helps, hapart.types⟩

/-- Families that share a name are not in blocks. -/
theorem disjoint_of_oneBlockEach {es : List Entry} (h : OneBlockEach es) {f g : Family}
    (hf : f.Shaped) (hg : g.Shaped) (hsub : (f.entries ++ g.entries).Sublist es) :
    f.names.Disjoint g.names := by
  have hmem : ∀ {x}, x ∈ f.entries ++ g.entries → x ∈ es := fun hx => hsub.subset hx
  have hf₁ : OneBlock es f.name :=
    h f.name ⟨.help f.name, hmem (by simp [Family.entries]), .inl (decide_eq_true rfl)⟩
  have hg₁ : OneBlock es g.name :=
    h g.name ⟨.help g.name, hmem (by simp [Family.entries]), .inl (decide_eq_true rfl)⟩
  have hft : .type f.name f.type ∈ es := hmem (by simp [Family.entries])
  have hgt : .type g.name g.type ∈ es := hmem (by simp [Family.entries])
  -- a sample of `f`, the HELP line of `g`, a sample of `g`
  have hrow : ∀ {s t}, s ∈ f.samples → t ∈ g.samples →
      [.sample s.name, .help g.name, .sample t.name].Sublist es := by
    intro s t hs ht
    have hl : [Entry.sample s.name].Sublist f.entries :=
      List.singleton_sublist.mpr (by simpa [Family.entries] using ⟨s, hs, rfl⟩)
    have hr : [Entry.help g.name, .sample t.name].Sublist g.entries := by
      refine List.Sublist.cons_cons _ (List.singleton_sublist.mpr ?_)
      simpa using ⟨t, ht, rfl⟩
    exact (hl.append hr).trans hsub
  obtain ⟨s₀, hs₀⟩ := List.exists_mem_of_ne_nil _ hf.samples
  obtain ⟨t₀, ht₀⟩ := List.exists_mem_of_ne_nil _ hg.samples
  intro n hnf hng
  by_cases hne : f.name = g.name
  · have htwo : [Entry.help f.name, .help g.name].Sublist es := by
      have hl : [Entry.help f.name].Sublist f.entries := List.singleton_sublist.mpr List.mem_cons_self
      have hr : [Entry.help g.name].Sublist g.entries := List.singleton_sublist.mpr List.mem_cons_self
      exact (hl.append hr).trans hsub
    have hle := htwo.countP_le (p := Entry.helps f.name)
    have htwo' : [Entry.help f.name, .help g.name].countP (Entry.helps f.name) = 2 := by
      simp [Entry.helps, hne]
    have hone : es.countP (Entry.helps f.name) ≤ 1 := hf₁.help
    omega
  rcases List.mem_cons.mp hng with rfl | hng
  · obtain ⟨s, hs, hn⟩ := List.mem_map.mp ((List.mem_cons.mp hnf).resolve_left (Ne.symm hne))
    refine SampleOf.ne_help (hg₁.between ?_
      (hg.sampleOf hgt (List.mem_cons_of_mem _ (List.mem_map_of_mem ht₀))) (hrow hs ht₀))
    rw [hn]
    exact hg.sampleOf hgt List.mem_cons_self
  · obtain ⟨t, ht, rfl⟩ := List.mem_map.mp hng
    exact SampleOf.ne_help (hf₁.between
      (hf.sampleOf hft (List.mem_cons_of_mem _ (List.mem_map_of_mem hs₀))) (hf.sampleOf hft hnf)
      (hrow hs₀ ht))

/-- **Families are in blocks just when no two share a name.** -/
theorem oneBlockEach_iff {fs : List Family} (hfs : ∀ f ∈ fs, f.Shaped) :
    OneBlockEach (fs.flatMap Family.entries) ↔ fs.Pairwise fun f g => f.names.Disjoint g.names := by
  constructor
  · intro h
    refine List.pairwise_iff_forall_sublist.mpr fun {f g} hsub => ?_
    obtain ⟨fs₁, fs₂, rfl, hf, hg⟩ := List.cons_sublist_iff.mp hsub
    have hg := List.singleton_sublist.mp hg
    refine disjoint_of_oneBlockEach h (hfs f (List.mem_append_left _ hf))
      (hfs g (List.mem_append_right _ hg)) ?_
    rw [List.flatMap_append]
    exact (sublist_flatMap hf).append (sublist_flatMap hg)
  · intro h family hx
    obtain ⟨x, hx, hhead⟩ := hx
    obtain ⟨f, hf, hx⟩ := List.mem_flatMap.mp hx
    obtain rfl : f.name = family := by
      unfold Family.entries at hx
      rcases List.mem_cons.mp hx with rfl | hx
      · simpa [Entry.helps, Entry.types] using hhead
      rcases List.mem_cons.mp hx with rfl | hx
      · simpa [Entry.helps, Entry.types] using hhead
      · obtain ⟨s, -, rfl⟩ := List.mem_map.mp hx
        simp [Entry.helps, Entry.types] at hhead
    obtain ⟨fs₁, fs₂, rfl⟩ := List.append_of_mem hf
    refine (hfs f hf).oneBlock fun g hg => ?_
    rw [List.pairwise_append, List.pairwise_cons] at h
    rcases List.mem_append.mp hg with hg | hg
    · exact (h.2.2 g hg f List.mem_cons_self).symm
    · exact h.2.1.1 g hg

/-! ### The lines of a family -/

/-- A family whose names can be read on its lines. -/
structure Family.Readable (f : Family) : Prop where
  name : ' ' ∉ f.name
  samples : ∀ s ∈ f.samples, (∀ c ∈ s.name, c ∉ [' ', '{']) ∧ s.name.head? ≠ some '#'

theorem takeWhile_to {p : Char → Bool} {name rest : Text} {c : Char} (h : ∀ d ∈ name, p d = true)
    (hc : p c = false) : (name ++ c :: rest).takeWhile p = name := by
  rw [List.takeWhile_append_of_pos h, List.takeWhile_cons_of_neg (by simp [hc]), List.append_nil]

theorem isPrefixOf_append (t rest : Text) : t.isPrefixOf (t ++ rest) = true :=
  List.isPrefixOf_iff_prefix.mpr (List.prefix_append t rest)

theorem entryOf_help {name help : Text} (h : ' ' ∉ name) :
    entryOf ("# HELP ".toList ++ name ++ ' ' :: help) = .help name := by
  have hto : (name ++ ' ' :: help).takeWhile (· ≠ ' ') = name :=
    takeWhile_to (fun d hd => decide_eq_true (ne_of_mem_of_not_mem hd h)) rfl
  rw [entryOf, List.append_assoc, if_pos (isPrefixOf_append _ _)]
  exact congrArg Entry.help hto

theorem entryOf_type {name type : Text} (h : ' ' ∉ name) :
    entryOf ("# TYPE ".toList ++ name ++ ' ' :: type) = .type name type := by
  have hto : (name ++ ' ' :: type).takeWhile (· ≠ ' ') = name :=
    takeWhile_to (fun d hd => decide_eq_true (ne_of_mem_of_not_mem hd h)) rfl
  have hdrop : ("# TYPE ".toList ++ (name ++ ' ' :: type)).drop 7 = name ++ ' ' :: type := rfl
  have hother : "# HELP ".toList.isPrefixOf ("# TYPE ".toList ++ (name ++ ' ' :: type)) ≠ true :=
    Bool.false_ne_true
  rw [entryOf, List.append_assoc, if_neg hother, if_pos (isPrefixOf_append _ _), hdrop, hto]
  simp

/-- A line that begins with a name. -/
theorem entryOf_name {name rest : Text} {c : Char} (hn : ∀ d ∈ name, d ∉ [' ', '{'])
    (hc : name.head? ≠ some '#') (hcut : c ∈ [' ', '{']) :
    entryOf (name ++ c :: rest) = .sample name := by
  have hhead : (name ++ c :: rest).head? ≠ some '#' := by
    rcases name with _ | ⟨d, name⟩
    · rintro ⟨⟩
      exact absurd hcut (by decide)
    · exact hc
  have hmark : ∀ {t : Text}, t.head? = some '#' → ¬ t.isPrefixOf (name ++ c :: rest) = true := by
    intro t ht hpre
    obtain ⟨u, hu⟩ := List.isPrefixOf_iff_prefix.mp hpre
    rcases t with _ | ⟨d, t⟩
    · cases ht
    · exact hhead (by rw [← hu]; exact ht)
  rw [entryOf, if_neg (hmark rfl), if_neg (hmark rfl), if_neg hhead,
    takeWhile_to (fun d hd => decide_eq_true (hn d hd)) (decide_eq_false (not_not.mpr hcut))]

theorem entryOf_sample {s : Sample} (hn : ∀ c ∈ s.name, c ∉ [' ', '{'])
    (hc : s.name.head? ≠ some '#') : entryOf s.line = .sample s.name := by
  rcases hl : s.labels with _ | ⟨p, labels⟩
  · have hline : s.line = s.name ++ ' ' :: s.value := by simp [Sample.line, Sample.id, hl]
    rw [hline, entryOf_name hn hc (by decide)]
  · have hline : s.line =
        s.name ++ '{' :: (labelSyntax.encode (p :: labels) ++ '}' :: ' ' :: s.value) := by
      rw [Sample.line, Sample.id, hl, formatTags_cons]
      simp
    rw [hline, entryOf_name hn hc (by decide)]

theorem Family.Readable.entries {f : Family} (hf : f.Readable) : f.lines.map entryOf = f.entries := by
  have hs : (f.samples.map Sample.line).map entryOf = f.samples.map fun s => .sample s.name := by
    rw [List.map_map]
    exact List.map_congr_left fun s hs => entryOf_sample (hf.samples s hs).1 (hf.samples s hs).2
  rw [Family.lines, List.map_append, hs, Family.entries, List.map_cons, List.map_singleton,
    entryOf_help hf.name, entryOf_type hf.name]
  rfl

/-! ### The families of a batch -/

/-- A full name with no delimiter of the format, not read as a comment. -/
structure PlainName (full : Text) : Prop where
  chars : ∀ c ∈ full, c ∉ ['\n', ' ', '{']
  comment : full.head? ≠ some '#'

theorem PlainName.append {full : Text} (h : PlainName full) {suffix : Text}
    (hs : suffix ∈ suffixes) : PlainName (full ++ suffix) := by
  have hall : suffixes.all (fun t => t.all (· ∉ ['\n', ' ', '{']) && t.head? ≠ some '#') = true := by
    decide
  have hsuf := List.all_eq_true.mp hall suffix hs
  simp only [Bool.and_eq_true, decide_eq_true_eq] at hsuf
  constructor
  · intro c hc
    rcases List.mem_append.mp hc with hc | hc
    · exact h.chars c hc
    · exact forall_mem_of_all hsuf.1 c hc
  · rcases full with _ | ⟨d, rest⟩
    · exact hsuf.2
    · exact h.comment

section

variable {F : Type} [FloatText F]

/-- The family name of a metric and the names of its samples. -/
def PrometheusExporter.exposedNames (e : PrometheusExporter F) (m : FlushedMetric (BitVec 64) F) :
    List Text :=
  let name := e.fullName m.namespacePath m.metricName.text
  match m.value with
  | .count _ => [name ++ "_total".toList]
  | .gauge _ => [name]
  | .histogram _ => name :: histogramSuffixes.map (name ++ ·)

theorem family_readable {e : PrometheusExporter F} {m : FlushedMetric (BitVec 64) F} {f : Family}
    (h : e.family m = some f) (hm : PlainName (e.fullName m.namespacePath m.metricName.text)) :
    f.Readable := by
  have hf := family_of h
  have hread : ∀ {n : Text}, PlainName n → (∀ c ∈ n, c ∉ [' ', '{']) ∧ n.head? ≠ some '#' :=
    fun hn => ⟨fun c hc hmem => hn.chars c hc (List.mem_cons_of_mem _ hmem), hn.comment⟩
  constructor
  · obtain ⟨suffix, hs, hname⟩ := hf.name
    exact fun hmem => (hread (hname ▸ hm.append hs)).1 _ hmem (by decide)
  · intro s hmem
    obtain ⟨suffix, hs, hname⟩ := (hf.samples s hmem).name
    exact hread (hname ▸ hm.append hs)

theorem family_names {e : PrometheusExporter F} {m : FlushedMetric (BitVec 64) F} {f : Family}
    (h : e.family m = some f) : f.Shaped ∧ ∀ n, n ∈ f.names ↔ n ∈ e.exposedNames m := by
  unfold PrometheusExporter.family at h
  unfold PrometheusExporter.exposedNames
  cases hv : m.value with
  | count value =>
    rw [hv] at h
    obtain rfl := Option.some.inj h
    refine ⟨⟨by simp, by simp, fun ht => ?_⟩, by simp [Family.names]⟩
    exact absurd (show "counter".toList = "histogram".toList from ht) (by decide)
  | gauge value =>
    rw [hv] at h
    obtain rfl := Option.some.inj h
    refine ⟨⟨by simp, by simp, fun ht => ?_⟩, by simp [Family.names]⟩
    exact absurd (show "gauge".toList = "histogram".toList from ht) (by decide)
  | histogram sketch =>
    rw [hv] at h
    obtain ⟨counts, -, h⟩ := Option.bind_eq_some_iff.mp h
    obtain rfl := Option.some.inj h
    have hname : ∀ {n}, n ∈ (histogramSamples (e.fullName m.namespacePath m.metricName.text)
          m.tags.pairs e.bucketBoundaries sketch counts).map Sample.name ↔
        n ∈ histogramSuffixes.map (e.fullName m.namespacePath m.metricName.text ++ ·) := by
      intro n
      rw [histogramSamples, List.map_append, List.mem_append, or_iff_right_of_imp]
      · rfl
      · intro hn
        obtain ⟨s, hs, rfl⟩ := List.mem_map.mp hn
        obtain ⟨i, hi, rfl⟩ := List.mem_iff_getElem.mp hs
        rw [List.getElem_zipWith]
        exact List.mem_cons_self
    refine ⟨⟨by simp [histogramSamples], fun s hs => .inr ⟨rfl, ?_⟩, fun _ suffix hs => ?_⟩,
      fun n => ?_⟩
    · obtain ⟨suffix, hsuf, heq⟩ := List.mem_map.mp (hname.mp (List.mem_map_of_mem hs))
      exact ⟨suffix, hsuf, heq.symm⟩
    · exact hname.mpr (List.mem_map_of_mem hs)
    · rw [Family.names, List.mem_cons, List.mem_cons, hname]

/-- Names are over `N`, tags over `A`. -/
structure Written (N A : Set Char) (m : FlushedMetric (BitVec 64) F) : Prop where
  names : ∀ t ∈ m.namespacePath ++ [m.metricName.text], ∀ c ∈ t, c ∈ N
  tags : ∀ p ∈ m.tags.pairs, (∀ c ∈ p.1, c ∈ A) ∧ ∀ c ∈ p.2, c ∈ A

/-- Of the batches over the alphabets, those without a shared name are in blocks,
and no others. -/
def FamiliesApart (e : PrometheusExporter F) (N A : Set Char) : Prop :=
  ∀ batch text, (∀ m ∈ batch, Written N A m) → e.render batch = some text →
    (OneBlockEach ((lines '\n' text).map entryOf) ↔
      batch.Pairwise fun m m' => (e.exposedNames m).Disjoint (e.exposedNames m'))

/-- Names and tags over the alphabets can be read on the lines they are written to. -/
structure PrometheusExporter.Legible (e : PrometheusExporter F) (N A : Set Char) : Prop where
  names : ∀ c ∈ ['\n', ' ', '{'], c ∉ e.before ∧ c ∉ N
  comment : e.before.head? ≠ some '#' ∧ (e.namespacePrefix = none → '#' ∉ N)
  tags : '\n' ∉ A

omit [FloatText F] in
theorem PrometheusExporter.Legible.plainName {e : PrometheusExporter F} {N A : Set Char}
    (h : e.Legible N A) {m : FlushedMetric (BitVec 64) F} (hm : Written N A m) :
    PlainName (e.fullName m.namespacePath m.metricName.text) := by
  rw [fullName_before]
  have hjoin := mem_fullName hm.names
  constructor
  · intro c hc hmem
    obtain ⟨hb, hN⟩ := h.names c hmem
    rcases List.mem_append.mp hc with hc | hc
    · exact hb hc
    · rcases hjoin c hc with hc | hc
      · exact hN hc
      · simp only [List.mem_cons, List.not_mem_nil, or_false] at hmem
        rcases hmem with rfl | rfl | rfl <;> exact absurd hc (by decide)
  · rcases hb : e.before with _ | ⟨d, rest⟩
    · rw [List.nil_append]
      intro hhead
      have hnone : e.namespacePrefix = none := by
        rcases hp : e.namespacePrefix with _ | ns
        · rfl
        · simp [PrometheusExporter.before, hp] at hb
      rcases hjoin _ (List.mem_of_head? hhead) with hc | hc
      · exact h.comment.2 hnone hc
      · exact absurd hc (by decide)
    · have hhead := h.comment.1
      rw [hb] at hhead
      exact hhead

/-- **Over legible alphabets** the families of a text are in blocks just when no
two metrics of the batch share a name. -/
theorem PrometheusExporter.Legible.apart {e : PrometheusExporter F} {N A : Set Char}
    (h : e.Legible N A) : FamiliesApart e N A := by
  intro batch text hm hrender
  have hplain := fun m hmem => h.plainName (hm m hmem)
  obtain ⟨ls, hls, hrender⟩ := Option.bind_eq_some_iff.mp hrender
  obtain rfl := Option.some.inj hrender
  obtain ⟨hfs, rfl⟩ := PrometheusExporter.renderLines_eq hls
  have hlines : lines '\n' (unlines '\n' ((batch.filterMap e.family).flatMap Family.lines)) =
      (batch.filterMap e.family).flatMap Family.lines := by
    refine lines_unlines_iff.mpr fun l hl => ?_
    obtain ⟨f, hf, hl⟩ := List.mem_flatMap.mp hl
    obtain ⟨m, hmem, hf⟩ := List.mem_filterMap.mp hf
    refine (family_of hf).newline (fun hn => (hplain m hmem).chars _ hn (by decide)) ?_ l hl
    intro p hp
    obtain ⟨hk, hv⟩ := (hm m hmem).tags p hp
    exact ⟨fun hc => h.tags (hk _ hc), fun hc => h.tags (hv _ hc)⟩
  have hfamily : ∀ f ∈ batch.filterMap e.family, f.Readable ∧ f.Shaped := by
    intro f hf
    obtain ⟨m, hmem, hf⟩ := List.mem_filterMap.mp hf
    exact ⟨family_readable hf (hplain m hmem), (family_names hf).1⟩
  have hentries : ((batch.filterMap e.family).flatMap Family.lines).map entryOf =
      (batch.filterMap e.family).flatMap Family.entries := by
    rw [List.map_flatMap]
    exact List.flatMap_congr fun f hf => (hfamily f hf).1.entries
  rw [hlines, hentries, oneBlockEach_iff fun f hf => (hfamily f hf).2, List.pairwise_filterMap]
  refine List.Pairwise.iff_of_mem fun {m m'} hmem hmem' => ?_
  obtain ⟨f, hf⟩ := Option.isSome_iff_exists.mp (hfs m hmem)
  obtain ⟨f', hf'⟩ := Option.isSome_iff_exists.mp (hfs m' hmem')
  simp only [hf, hf', Option.some.injEq, forall_eq', List.disjoint_iff_ne, (family_names hf).2,
    (family_names hf').2]

/-! ### Alphabets that are not legible -/

theorem renderLines_families {e : PrometheusExporter F} :
    ∀ {batch : List (FlushedMetric (BitVec 64) F)} {fs : List Family},
      batch.map e.family = fs.map some → e.renderLines batch = some (fs.flatMap Family.lines)
  | [], [], _ => rfl
  | m :: batch, f :: fs, h => by
    obtain ⟨hf, hfs⟩ := List.cons.inj h
    rw [PrometheusExporter.renderLines, PrometheusExporter.metricLines_eq, hf,
      renderLines_families hfs]
    rfl

/-- The lines of the text, a family's lines split where they have a newline. -/
theorem FamiliesApart.oneBlockEach {e : PrometheusExporter F} {N A : Set Char}
    (h : FamiliesApart e N A) (batch : List (FlushedMetric (BitVec 64) F)) (fs : List Family)
    (hm : ∀ m ∈ batch, Written N A m) (hfs : batch.map e.family = fs.map some)
    (hdisj : batch.Pairwise fun m m' => (e.exposedNames m).Disjoint (e.exposedNames m')) :
    OneBlockEach (((fs.flatMap Family.lines).flatMap (List.splitOn '\n')).map entryOf) := by
  have hrender : e.render batch = some (unlines '\n' (fs.flatMap Family.lines)) := by
    rw [PrometheusExporter.render, renderLines_families hfs]
    rfl
  rw [← lines_unlines]
  exact (h batch _ hm hrender).mpr hdisj

omit [FloatText F] in
/-- A HELP line is read up to the first newline or space. -/
theorem help_cut {a : Text} {c : Char} (rest : Text) (ha : ∀ d ∈ a, d ∉ ['\n', ' '])
    (hc : c ∈ ['\n', ' ']) :
    ∃ l ∈ ("# HELP ".toList ++ (a ++ c :: rest)).splitOn '\n', entryOf l = .help a := by
  have hn : ∀ d ∈ "# HELP ".toList ++ a, decide (d ≠ '\n') = true := by
    intro d hd
    rcases List.mem_append.mp hd with hd | hd
    · exact forall_mem_of_all (P := fun d => decide (d ≠ '\n') = true) (by decide) d hd
    · exact decide_eq_true fun he => ha d hd (by simp [he])
  have hspace : ' ' ∉ a := fun hmem => ha _ hmem (by simp)
  refine ⟨_, takeWhile_mem_splitOn '\n' _, ?_⟩
  rw [← List.append_assoc, List.takeWhile_append_of_pos hn]
  simp only [List.mem_cons, List.not_mem_nil, or_false] at hc
  rcases hc with rfl | rfl
  · have hto : a.takeWhile (· ≠ ' ') = a :=
      List.takeWhile_eq_self_iff.mpr fun d hd => decide_eq_true (ne_of_mem_of_not_mem hd hspace)
    rw [List.takeWhile_cons_of_neg (by simp), List.append_nil, entryOf,
      if_pos (isPrefixOf_append _ _)]
    exact congrArg Entry.help hto
  · rw [List.takeWhile_cons_of_pos (by simp)]
    exact entryOf_help hspace

/-- **A name with a newline or a space** is read as that of another metric. -/
theorem FamiliesApart.undelimited {e : PrometheusExporter F} {N A : Set Char}
    (h : FamiliesApart e N A) (path : List Text) (name : Text)
    (hnames : ∀ t ∈ path ++ [name], ∀ c ∈ t, c ∈ N) :
    ∀ c ∈ ['\n', ' '], c ∉ e.fullName path name := by
  intro c₀ hc₀ hmem
  have hlonger : e.fullName (path ++ [name]) [] = e.fullName path name ++ ['_'] := by
    rw [fullName_before, fullName_before, join_concat (by simp)]
    simp
  set full := e.fullName path name with hfull
  obtain ⟨a, c, b, hcut, hc, ha⟩ :
      ∃ a c b, full = a ++ c :: b ∧ c ∈ ['\n', ' '] ∧ ∀ d ∈ a, d ∉ ['\n', ' '] := by
    have hsome : (full.find? (· ∈ ['\n', ' '])).isSome := by
      rw [List.find?_isSome]
      exact ⟨c₀, hmem, decide_eq_true hc₀⟩
    obtain ⟨c, hfind⟩ := Option.isSome_iff_exists.mp hsome
    obtain ⟨hc, a, b, hcut, ha⟩ := List.find?_eq_some_iff_append.mp hfind
    exact ⟨a, c, b, hcut, of_decide_eq_true hc, fun d hd => by simpa using ha d hd⟩
  let one (n : Text) : Family :=
    ⟨n, n, "gauge".toList, [⟨n, [], FloatText.display (0.0 : F)⟩]⟩
  have heach := h.oneBlockEach [gauged path name [], gauged (path ++ [name]) [] []]
    [one full, one (full ++ ['_'])] ?_ ?_ ?_
  · -- both HELP lines are read as that of `a`
    obtain ⟨l₁, hl₁, he₁⟩ := help_cut (b ++ ' ' :: full) ha hc
    obtain ⟨l₂, hl₂, he₂⟩ := help_cut (b ++ ('_' :: ' ' :: (full ++ ['_']))) ha hc
    have h₁ : "# HELP ".toList ++ (a ++ c :: (b ++ ' ' :: full)) =
        "# HELP ".toList ++ full ++ ' ' :: full := by
      rw [hcut]
      simp
    have h₂ : "# HELP ".toList ++ (a ++ c :: (b ++ ('_' :: ' ' :: (full ++ ['_'])))) =
        "# HELP ".toList ++ (full ++ ['_']) ++ ' ' :: (full ++ ['_']) := by
      rw [hcut]
      simp
    rw [h₁] at hl₁
    rw [h₂] at hl₂
    have hpos : ∀ {t l : Text}, l ∈ t.splitOn '\n' → entryOf l = .help a →
        0 < ((t.splitOn '\n').map entryOf).countP (·.helps a) := by
      intro t l hl he
      exact List.countP_pos_iff.mpr ⟨_, List.mem_map_of_mem hl, by simp [he, Entry.helps]⟩
    have hpos₁ := hpos hl₁ he₁
    have hpos₂ := hpos hl₂ he₂
    have hin : Entry.help a ∈
        (([one full, one (full ++ ['_'])].flatMap Family.lines).flatMap (List.splitOn '\n')).map
          entryOf := by
      refine List.mem_map.mpr ⟨l₁, List.mem_flatMap.mpr ⟨_, ?_, hl₁⟩, he₁⟩
      simp [one, Family.lines]
    have hle := (heach a ⟨_, hin, .inl (decide_eq_true rfl)⟩).help
    simp only [one, Family.lines, List.flatMap_cons, List.flatMap_nil, List.flatMap_append,
      List.map_append, List.countP_append] at hle
    omega
  · intro m hm
    simp only [List.mem_cons, List.not_mem_nil, or_false] at hm
    rcases hm with rfl | rfl
    · exact ⟨hnames, List.forall_mem_nil _⟩
    · refine ⟨fun t ht => ?_, List.forall_mem_nil _⟩
      rcases List.mem_append.mp ht with ht | ht
      · exact hnames t ht
      · rw [List.mem_singleton.mp ht]
        exact List.forall_mem_nil _
  · simp only [List.map_cons, List.map_nil, one, ← hlonger]
    rfl
  · have hne : full ≠ full ++ ['_'] := fun he => by simpa using congrArg List.length he
    refine List.pairwise_pair.mpr fun n hn hn' => ?_
    have hn : n ∈ [full] := hn
    have hn' : n ∈ [e.fullName (path ++ [name]) []] := hn'
    rw [hlonger] at hn'
    exact hne ((List.mem_singleton.mp hn).symm.trans (List.mem_singleton.mp hn'))

/-- **A name with a brace**, or read as a comment, has no samples. -/
theorem FamiliesApart.plainName {e : PrometheusExporter F} {N A : Set Char}
    (h : FamiliesApart e N A) (path : List Text) (name : Text)
    (hnames : ∀ t ∈ path ++ [name], ∀ c ∈ t, c ∈ N) : PlainName (e.fullName path name) := by
  have hund := h.undelimited path name hnames
  set full := e.fullName path name with hfull
  have hnl : '\n' ∉ full := hund _ (by decide)
  have hspace : ' ' ∉ full := hund _ (by decide)
  let f : Family := ⟨full, full, "gauge".toList, [⟨full, [], FloatText.display (0.0 : F)⟩]⟩
  have heach := h.oneBlockEach [gauged path name []] [f]
    (by simpa using (⟨hnames, nofun⟩ : Written N A (gauged path name []))) rfl
    (List.pairwise_singleton _ _)
  have hdisplay : '\n' ∉ FloatText.display (0.0 : F) := fun hmem =>
    absurd (FloatText.display_mem _ _ hmem) (by decide)
  have hsplit : ([f].flatMap Family.lines).flatMap (List.splitOn '\n') = f.lines := by
    have hno : ∀ l ∈ f.lines, '\n' ∉ l := by
      simp [f, Family.lines, Sample.line, Sample.id, hnl, hdisplay]
    rw [← lines_unlines, List.flatMap_singleton, lines_unlines_iff.mpr hno]
  have hline : Sample.line ⟨full, [], FloatText.display (0.0 : F)⟩ =
      full ++ ' ' :: FloatText.display (0.0 : F) := by
    simp [Sample.line, Sample.id]
  have hentries : f.lines.map entryOf = [.help full, .type full "gauge".toList,
      entryOf (full ++ ' ' :: FloatText.display (0.0 : F))] := by
    rw [Family.lines, List.map_append, List.map_cons, List.map_singleton, entryOf_help hspace,
      entryOf_type hspace, List.map_singleton, List.map_singleton, hline]
    rfl
  rw [hsplit, hentries] at heach
  obtain ⟨-, -, before, samples, after, he, hne, hs, -⟩ :=
    heach full ⟨.help full, List.mem_cons_self, .inl (decide_eq_true rfl)⟩
  obtain ⟨x, hx⟩ := List.exists_mem_of_ne_nil _ hne
  obtain ⟨n, rfl, hn⟩ := hs x hx
  have hmem : .sample n ∈ [Entry.help full, .type full "gauge".toList,
      entryOf (full ++ ' ' :: FloatText.display (0.0 : F))] := by
    rw [he]
    exact List.mem_append_left _ (List.mem_append_right _ hx)
  have hsample : entryOf (full ++ ' ' :: FloatText.display (0.0 : F)) = .sample n := by
    simpa [eq_comm] using hmem
  have hfull : n = full := by
    refine hn.resolve_right ?_
    rintro ⟨htype, -⟩
    rw [hsample] at htype
    simp at htype
  unfold entryOf at hsample
  split_ifs at hsample with h₁ h₂ h₃
  obtain rfl := Entry.sample.inj hsample
  constructor
  · intro c hc hcut
    rw [← hfull] at hc
    have hp := List.mem_takeWhile_imp hc
    simp only [List.mem_cons, List.not_mem_nil, or_false] at hcut
    rcases hcut with rfl | rfl | rfl
    · exact hnl (hfull ▸ hc)
    · simp at hp
    · simp at hp
  · intro hhead
    rcases hf : full with _ | ⟨d, rest⟩
    · rw [hf] at hhead
      cases hhead
    · rw [hf] at hhead h₃
      exact h₃ hhead

theorem bucketCounts_empty (maxBuckets : ℕ) (initialError : F) : ∀ (n : ℕ) (boundaries : List F),
    ∃ counts, bucketCounts (.empty maxBuckets initialError) n boundaries = some counts
  | n, [] => ⟨[], rfl⟩
  | n, le :: boundaries => by
    have hzero : UDDSketch.estimateQuantileAtValue (.empty maxBuckets initialError) le =
        some (0.0 : F) := if_pos rfl
    choose rest hrest using fun n => bucketCounts_empty maxBuckets initialError n boundaries
    simp [bucketCounts, hzero, hrest]

omit [FloatText F] in
/-- A line with a newline for a tag is read as two samples. -/
theorem entryOf_halves {name value : Text} (hn : PlainName name) (hv : '\n' ∉ value) :
    ((Sample.line ⟨name, [([], ['\n'])], value⟩).splitOn '\n').map entryOf =
      [.sample name, .sample "\"\x7d".toList] := by
  have hline : Sample.line ⟨name, [([], ['\n'])], value⟩ =
      (name ++ '{' :: "=\"".toList) ++ '\n' :: ("\"\x7d".toList ++ ' ' :: value) := by
    simp [Sample.line, Sample.id, formatTags]
  have hnl : '\n' ∉ name := fun hmem => hn.chars _ hmem (by decide)
  have hcut : ∀ d ∈ name, d ∉ [' ', '{'] := fun d hd hmem =>
    hn.chars d hd (List.mem_cons_of_mem _ hmem)
  have hhalf : ∀ d ∈ "\"\x7d".toList, d ∉ [' ', '{'] := forall_mem_of_all (by decide)
  rw [hline, splitOn_append_cons (by simp [hnl]) (by simp [hv]), List.map_cons, List.map_singleton,
    entryOf_name hcut hn.comment (by decide), entryOf_name hhalf (by decide) (by decide)]

/-- **A newline in a tag** comes between the sum and the count of a histogram. -/
theorem FamiliesApart.tags {e : PrometheusExporter F} {N A : Set Char} (h : FamiliesApart e N A) :
    '\n' ∉ A := by
  intro hA
  have hplain := h.plainName [] [] (by simp)
  have hend : e.fullName [] [] = e.before := by simp [fullName_before]
  set full := e.fullName [] [] with hfull
  have hspace : ' ' ∉ full := fun hmem => hplain.chars _ hmem (by decide)
  have hnl : '\n' ∉ full := fun hmem => hplain.chars _ hmem (by decide)
  let sketch : UDDSketch F := .empty 0 0.0
  let tags : List (Text × Text) := [([], ['\n'])]
  obtain ⟨counts, hcounts⟩ := bucketCounts_empty 0 (0.0 : F) 0 e.bucketBoundaries
  let f : Family := ⟨full, full, "histogram".toList,
    histogramSamples full tags e.bucketBoundaries sketch counts⟩
  have heach := h.oneBlockEach [⟨[], ⟨0, []⟩, ⟨tags⟩, .histogram sketch⟩] [f]
    (by simpa using ⟨by simp, by simpa [tags] using hA⟩)
    (by simp [PrometheusExporter.family, sketch, hcounts, f, tags, ← hfull])
    (List.pairwise_singleton _ _)
  set es := (([f].flatMap Family.lines).flatMap (List.splitOn '\n')).map entryOf with hes
  let heads : List Text :=
    ["# HELP ".toList ++ full ++ ' ' :: full, "# TYPE ".toList ++ full ++ ' ' :: "histogram".toList]
  have hhead : ∀ {x : Entry} {l : Text}, l ∈ heads → entryOf l = x → x ∈ es := by
    intro x l hl hx
    have hno : '\n' ∉ l := by
      simp only [heads, List.mem_cons, List.not_mem_nil, or_false] at hl
      rcases hl with rfl | rfl <;> simp [hnl]
    refine List.mem_map.mpr ⟨l, List.mem_flatMap.mpr ⟨l, ?_, ?_⟩, hx⟩
    · rw [List.flatMap_singleton]
      exact List.mem_append_left _ hl
    · rw [List.splitOn_eq_singleton hno]
      exact List.mem_singleton_self l
  have hrow : [.sample (full ++ "_sum".toList), .sample "\"\x7d".toList,
      .sample (full ++ "_count".toList)].Sublist es := by
    obtain ⟨buckets, hbuckets⟩ : ∃ buckets, f.samples = buckets ++
        [⟨full ++ "_sum".toList, tags, FloatText.display sketch.sum⟩,
          ⟨full ++ "_count".toList, tags, displayNat sketch.count⟩] :=
      ⟨_, List.append_cons _ _ _⟩
    have hnumber : ∀ {t : Text}, (∀ c ∈ t, c ∈ numberChars) → '\n' ∉ t := fun ht hmem =>
      absurd (ht _ hmem) (by decide)
    have hsum := entryOf_halves (hplain.append (show "_sum".toList ∈ suffixes by decide))
      (hnumber (FloatText.display_mem sketch.sum))
    have hcount := entryOf_halves (hplain.append (show "_count".toList ∈ suffixes by decide))
      (hnumber fun _ => mem_displayNat (n := sketch.count))
    rw [hes, List.flatMap_singleton, Family.lines, hbuckets, List.map_append, ← List.append_assoc,
      List.flatMap_append, List.map_append]
    simp only [List.map_cons, List.map_nil, List.flatMap_cons, List.flatMap_nil, List.append_nil,
      List.map_append, tags, hsum, hcount]
    exact (List.sublist_append_left _ [_]).trans (List.sublist_append_right _ _)
  have htype : .type full "histogram".toList ∈ es :=
    hhead (List.mem_cons_of_mem _ List.mem_cons_self) (entryOf_type hspace)
  have hhelp : .help full ∈ es := hhead List.mem_cons_self (entryOf_help hspace)
  have hblock := heach full ⟨_, hhelp, .inl (decide_eq_true rfl)⟩
  have hpart : ∀ suffix ∈ histogramSuffixes, SampleOf es full (.sample (full ++ suffix)) :=
    fun suffix hs => ⟨_, rfl, .inr ⟨htype, suffix, hs, rfl⟩⟩
  -- what comes between has a name of its own
  obtain ⟨n, hn, hname⟩ :=
    hblock.between (hpart "_sum".toList (by decide)) (hpart "_count".toList (by decide)) hrow
  obtain rfl := Entry.sample.inj hn
  rcases hname with hname | ⟨-, suffix, hs, hname⟩
  · have hlast : e.before.getLast? = some '\x7d' := by
      rw [← hend, ← hname]
      rfl
    rcases hp : e.namespacePrefix with _ | ns
    · simp [PrometheusExporter.before, hp] at hlast
    · simp [PrometheusExporter.before, hp] at hlast
  · have hlen := congrArg List.length hname
    simp only [histogramSuffixes, List.mem_cons, List.not_mem_nil, or_false] at hs
    rcases hs with rfl | rfl | rfl <;> simp at hlen

end
end ChalkMetrics
