/-
# What `define_metrics!` accepts

The grammar of groups, metrics and tag lists, and that the parser reads just
that (`parseMetrics_iff`). The commas between the arguments of a group are
optional, of arguments of one name the last one counts, and a metric without
tags of its own may have a comma before its `;`. A list of tags needs its
commas, but for one at the end. A tag type whose path starts with `optional`
cannot be named without `optional` in front.

Key definitions: `TagRef.spelling`, `GroupArg.spelling`, `MetricDef.spelling`,
`MetricGroup.spelling`.
-/
import ChalkMetrics.Macros.Grammar

namespace ChalkMetrics
namespace Macros

open Parsing

variable {S : Syn} {V : S.Visibility → Language TokenTree} {P : S.Path → Language TokenTree}

/-! ### Metrics -/

/-- What may follow a tag in a list. -/
def TagEnds : Set (List TokenTree) := {ts | ts = [] ∨ peekPunct [','] ts = true}

def aliasSpelling (S : Syn) (aliasIdent : Text) : Language TokenTree :=
  keywordWord "as".toList * S.identWord aliasIdent

/-- `optional path as alias`, with the first and the last part optional. -/
def TagRef.spelling (P : S.Path → Language TokenTree) (r : TagRef S) : Language TokenTree :=
  if r.optional then
    keywordWord "optional".toList * P r.ty * Maybe (aliasSpelling S) r.aliasIdent
  else lacking (peekIdent "optional".toList) (P r.ty * Maybe (aliasSpelling S) r.aliasIdent)

def tagListSpelling (P : S.Path → Language TokenTree) (refs : List (TagRef S)) :
    Language TokenTree :=
  inGroup .bracket (Terminated (TagRef.spelling P) (punctWord [',']) refs)

def GroupArg.spelling (P : S.Path → Language TokenTree) : GroupArg S → Language TokenTree
  | .namespace path =>
    keywordWord "namespace".toList * punctWord ['='] * P path * maybeComma
  | .tags refs =>
    keywordWord "tags".toList * punctWord ['='] * tagListSpelling P refs * maybeComma

/-- `, tags += […]`, or for no tags maybe a comma. -/
def extraTagsSpelling (P : S.Path → Language TokenTree) (refs : List (TagRef S)) :
    Language TokenTree :=
  given (refs = []) maybeComma +
    punctWord [','] * keywordWord "tags".toList * punctWord "+=".toList * tagListSpelling P refs

/-- `vis kind Ident => "name", "description", tags += […];`. -/
def MetricDef.spelling (V : S.Visibility → Language TokenTree)
    (P : S.Path → Language TokenTree) (d : MetricDef S) : Language TokenTree :=
  V d.vis * S.identWord (kindIdent d.kind) * S.identWord d.ident * punctWord "=>".toList *
    litWord d.name * punctWord [','] * litWord d.description * extraTagsSpelling P d.extraTags *
    punctWord [';']

/-- `group(args) { metrics }`. -/
def MetricGroup.spelling (V : S.Visibility → Language TokenTree)
    (P : S.Path → Language TokenTree) (g : MetricGroup S) : Language TokenTree :=
  ofSome fun args : List (GroupArg S) =>
    given (GroupArg.namespaceOf S args = g.namespace ∧ (GroupArg.tagsOf S args).getD [] = g.tags)
      (keywordWord "group".toList * inGroup .parenthesis (args.map (GroupArg.spelling P)).prod *
        inGroup .brace (g.metrics.map (MetricDef.spelling V P)).prod)

theorem peekIdent_append {sym : Text} {s : List TokenTree} (hs : s ≠ []) (rest : List TokenTree) :
    peekIdent sym (s ++ rest) = peekIdent sym s := by
  obtain ⟨t, s, rfl⟩ := List.exists_cons_of_ne_nil hs
  cases t <;> rfl

theorem Syn.Documented.ne_nil_of_path (hS : S.Documented V P) {p : S.Path}
    {L : Language TokenTree} {s : List TokenTree} (h : s ∈ P p * L) : s ≠ [] := by
  obtain ⟨w, hw, t, -, rfl⟩ := Language.mem_mul.mp h
  intro he
  obtain ⟨rfl, -⟩ := List.append_eq_nil_iff.mp he
  exact hS.path_ne_nil p hw

theorem parses_alias : Parses (ifPeek (peekIdent "as".toList) (parseAlias S))
    (Maybe (aliasSpelling S)) {rest | peekIdent "as".toList rest = false} := by
  have h : Parses (parseAlias S) (aliasSpelling S) Set.univ :=
    ((parses_keyword _).token' (parses_ident.congr fun _ => (given_true _).symm)).congr
      fun _ => given_true _
  refine (h.ifPeek ?_).mono fun rest hrest => ⟨trivial, hrest⟩
  rintro sym s hs rest -
  obtain ⟨_, rfl, t, -, rfl⟩ := Language.mem_mul.mp hs
  rfl

theorem TagEnds.not_alias {rest : List TokenTree} (h : rest ∈ TagEnds) :
    peekIdent "as".toList rest = false := by
  rcases h with rfl | h
  · rfl
  · obtain ⟨s, ⟨joint, rfl⟩, he⟩ := exists_of_peekPunct h
    rw [← he]
    rfl

/-- A path in a list of tags, with or without an alias behind it. -/
theorem pathEnds_of_alias {o : Option Text} {s rest : List TokenTree}
    (hs : s ∈ Maybe (aliasSpelling S) o) (hrest : rest ∈ TagEnds) : s ++ rest ∈ PathEnds := by
  cases o with
  | none =>
    obtain rfl : s = [] := hs
    rcases hrest with rfl | hrest
    · exact Or.inl rfl
    · exact Or.inr (Or.inr hrest)
  | some a => exact Or.inr (Or.inl ((startsIdent_keyword hs).append rest))

theorem parses_tagRef (hS : S.Documented V P) :
    Parses (parseTagRef S) (TagRef.spelling P) TagEnds := by
  have htail : ∀ o : Bool, Parses (do
        let ty ← S.path
        let aliasIdent ← ifPeek (peekIdent "as".toList) (parseAlias S)
        return { optional := o, ty, aliasIdent })
      (fun r : TagRef S => given (r.optional = o) (P r.ty * (Maybe (aliasSpelling S) r.aliasIdent * 1)))
      TagEnds := by
    intro o
    refine hS.path.field TagRef.ty (fun ty => ?_) fun r _ s hs rest hrest => ?_
    · refine parses_alias.field TagRef.aliasIdent (fun a => (Parses.pure fun r => ?_).mono
        fun _ _ => trivial) ?_
      · cases r
        simp [and_assoc]
      · rintro r - s rfl rest hrest
        exact TagEnds.not_alias hrest
    · rw [mul_one] at hs
      exact pathEnds_of_alias hs hrest
  have hrun : parseTagRef S = do
      if ← peek (peekIdent "optional".toList) then
        keyword "optional".toList
        let ty ← S.path
        let aliasIdent ← ifPeek (peekIdent "as".toList) (parseAlias S)
        return { optional := true, ty, aliasIdent }
      else
        let ty ← S.path
        let aliasIdent ← ifPeek (peekIdent "as".toList) (parseAlias S)
        return { optional := false, ty, aliasIdent } := by
    rw [parseTagRef, parseOptional, peek_bind]
    simp only [bind_assoc, pure_bind]
  rw [hrun]
  refine (((parses_keyword _).token' (htail true)).peek (htail false) ?_ ?_).congr fun r => ?_
  · rintro r s ⟨-, hs⟩ rest -
    obtain ⟨_, rfl, t, -, rfl⟩ := Language.mem_mul.mp hs
    rfl
  · rintro r s ⟨-, hs⟩ rest
    exact peekIdent_append (hS.ne_nil_of_path hs) rest
  · apply Language.ext
    intro s
    rw [Language.mem_add, mem_lacking, mem_given, mem_given, mul_one, TagRef.spelling]
    cases hr : r.optional with
    | true => simp [mul_assoc]
    | false => simp

theorem parses_tagList (hS : S.Documented V P) :
    Parses (parseTagList S) (tagListSpelling P) Set.univ := by
  refine parses_delimited (fun ts refs => terminated_iff (parses_tagRef hS) (parses_punct _)
    { ne_nil := fun r hr => ?_, sep_ne_nil := ?_, nil_mem := Or.inl rfl, mem := ?_ }) _
  · rw [TagRef.spelling] at hr
    split at hr
    · rw [mul_assoc] at hr
      exact (startsIdent_keyword hr).ne_nil rfl
    · exact hS.ne_nil_of_path hr.1 rfl
  · rintro ⟨joint, h⟩
    cases h
  · intro u hu rest
    exact Or.inr (peekPunct_append hu rest).1

/-- What may follow an argument of a group. -/
def ArgEnds : Set (List TokenTree) := {ts | ts = [] ∨ StartsIdent ts}

theorem pathEnds_of_maybeComma {s rest : List TokenTree} (hs : s ∈ maybeComma)
    (hrest : rest ∈ ArgEnds) : s ++ rest ∈ PathEnds := by
  rcases hs with hs | hs
  · obtain rfl : s = [] := hs
    rcases hrest with rfl | hrest
    · exact Or.inl rfl
    · exact Or.inr (Or.inl hrest)
  · exact Or.inr (Or.inr (peekPunct_append hs rest).1)

theorem parses_trailingComma_arg : Parses trailingComma (fun _ => maybeComma) ArgEnds := by
  refine parses_trailingComma.mono ?_
  rintro rest (rfl | hrest)
  · rfl
  · exact hrest.not_comma

/-- `namespace = path`, once the keyword is seen. -/
theorem parses_namespaceArg (hS : S.Documented V P) :
    Parses (do
        keyword "namespace".toList
        punct ['=']
        let path ← S.path
        trailingComma
        return .namespace path)
      (fun a : GroupArg S => ofSome fun path =>
        given (a = .namespace path) ((GroupArg.namespace path).spelling P)) ArgEnds := by
  have hpath : Parses (do
        let path ← S.path
        trailingComma
        return .namespace path)
      (fun a : GroupArg S => ofSome fun path => P path *
        given (a = .namespace path) (maybeComma * 1)) ArgEnds := by
    refine hS.path.bind (fun path => parses_trailingComma_arg.token
      ((Parses.pure fun _ => Iff.rfl).mono fun _ _ => trivial) ?_) ?_
    · rintro a - s rfl rest hrest
      exact hrest
    · rintro path a s ⟨-, hs⟩ rest hrest
      rw [mul_one] at hs
      exact pathEnds_of_maybeComma hs hrest
  refine ((parses_keyword _).token' ((parses_punct _).token'
    (hpath.congr fun _ => (given_true _).symm))).congr fun a => ?_
  apply Language.ext
  intro s
  simp only [given_true, mul_one, GroupArg.spelling, mul_assoc, mem_ofSome, mem_given,
    Language.mem_mul]
  constructor
  · rintro ⟨w, hw, -, ⟨e, he, -, ⟨path, u, hu, v, ⟨ha, hv⟩, rfl⟩, rfl⟩, rfl⟩
    exact ⟨path, ha, w, hw, _, ⟨e, he, _, ⟨u, hu, v, hv, rfl⟩, rfl⟩, rfl⟩
  · rintro ⟨path, ha, w, hw, -, ⟨e, he, -, ⟨u, hu, v, hv, rfl⟩, rfl⟩, rfl⟩
    exact ⟨w, hw, _, ⟨e, he, _, ⟨path, u, hu, v, ⟨ha, hv⟩, rfl⟩, rfl⟩, rfl⟩

/-- `tags = […]`, once the keyword is seen. -/
theorem parses_tagsArg (hS : S.Documented V P) :
    Parses (do
        keyword "tags".toList
        punct ['=']
        let refs ← parseTagList S
        trailingComma
        return .tags refs)
      (fun a : GroupArg S => ofSome fun refs =>
        given (a = .tags refs) ((GroupArg.tags refs).spelling P)) ArgEnds := by
  have hrefs : Parses (do
        let refs ← parseTagList S
        trailingComma
        return .tags refs)
      (fun a : GroupArg S => ofSome fun refs => tagListSpelling P refs *
        given (a = .tags refs) (maybeComma * 1)) ArgEnds := by
    refine (parses_tagList hS).bind (fun refs => parses_trailingComma_arg.token
      ((Parses.pure fun _ => Iff.rfl).mono fun _ _ => trivial) ?_) fun _ _ _ _ _ _ => trivial
    rintro a - s rfl rest hrest
    exact hrest
  refine ((parses_keyword _).token' ((parses_punct _).token'
    (hrefs.congr fun _ => (given_true _).symm))).congr fun a => ?_
  apply Language.ext
  intro s
  simp only [given_true, mul_one, GroupArg.spelling, mul_assoc, mem_ofSome, mem_given,
    Language.mem_mul]
  constructor
  · rintro ⟨w, hw, -, ⟨e, he, -, ⟨refs, u, hu, v, ⟨ha, hv⟩, rfl⟩, rfl⟩, rfl⟩
    exact ⟨refs, ha, w, hw, _, ⟨e, he, _, ⟨u, hu, v, hv, rfl⟩, rfl⟩, rfl⟩
  · rintro ⟨refs, ha, w, hw, -, ⟨e, he, -, ⟨u, hu, v, hv, rfl⟩, rfl⟩, rfl⟩
    exact ⟨w, hw, _, ⟨e, he, _, ⟨refs, u, hu, v, ⟨ha, hv⟩, rfl⟩, rfl⟩, rfl⟩

theorem GroupArg.spelling_startsIdent (a : GroupArg S) : ∀ s ∈ a.spelling P, StartsIdent s := by
  intro s hs
  cases a with
  | «namespace» path =>
    simp only [GroupArg.spelling, mul_assoc] at hs
    exact startsIdent_keyword hs
  | tags refs =>
    simp only [GroupArg.spelling, mul_assoc] at hs
    exact startsIdent_keyword hs

theorem parses_groupArg (hS : S.Documented V P) :
    Parses (parseGroupArg S) (GroupArg.spelling P) ArgEnds := by
  refine ((parses_namespaceArg hS).peek ((parses_tagsArg hS).peek .fail ?_ nofun) ?_ ?_).congr
    fun a => ?_
  · rintro a s ⟨refs, -, hs⟩ rest -
    simp only [GroupArg.spelling, mul_assoc] at hs
    obtain ⟨_, rfl, t, -, rfl⟩ := Language.mem_mul.mp hs
    rfl
  · rintro a s ⟨path, -, hs⟩ rest -
    simp only [GroupArg.spelling, mul_assoc] at hs
    obtain ⟨_, rfl, t, -, rfl⟩ := Language.mem_mul.mp hs
    rfl
  · rintro a s (⟨refs, -, hs⟩ | ⟨h, -⟩) rest
    · exact peekIdent_append (GroupArg.spelling_startsIdent _ s hs).ne_nil rest
    · cases h
  · apply Language.ext
    intro s
    simp only [Language.mem_add, mem_ofSome, mem_given, mem_lacking]
    cases a with
    | «namespace» path => simp
    | tags refs =>
      simp only [GroupArg.tags.injEq, reduceCtorEq, false_and, exists_false, false_or,
        Language.notMem_zero, or_false, exists_eq_left', and_iff_left_iff_imp]
      intro hs
      simp only [GroupArg.spelling, mul_assoc] at hs
      obtain ⟨_, rfl, t, -, rfl⟩ := Language.mem_mul.mp hs
      rfl

theorem parseMetricKind_iff {ident : Text} {kind : MetricKind} :
    parseMetricKind ident = .ok kind ↔ ident = kindIdent kind := by
  constructor
  · intro h
    unfold parseMetricKind at h
    split_ifs at h with hc hg hh
    all_goals obtain rfl := Except.ok.inj h
    · exact hc
    · exact hg
    · exact hh
  · rintro rfl
    cases kind <;> rfl

theorem parses_kind : Parses (parseKind S) (fun kind => S.identWord (kindIdent kind)) Set.univ where
  sound := by
    intro ts rest kind h
    obtain ⟨⟨ident, mid⟩, hi, h⟩ := bind_eq_ok.mp h
    obtain ⟨k, hk, h⟩ := bind_eq_ok.mp h
    obtain ⟨rfl, rfl⟩ := Prod.mk.inj (Except.ok.inj h)
    rw [← parseMetricKind_iff.mp hk]
    exact parses_ident.sound hi
  complete := by
    intro pre rest kind hpre _
    refine bind_eq_ok.mpr ⟨(kindIdent kind, rest), parses_ident.complete hpre trivial, ?_⟩
    exact bind_eq_ok.mpr ⟨kind, parseMetricKind_iff.mpr rfl, rfl⟩

/-- What may follow the description of a metric. -/
def MetricEnds : Set (List TokenTree) :=
  {ts | peekPunct [','] ts = false ∧ peekIdent "tags".toList ts = false}

theorem parses_extraTags (hS : S.Documented V P) :
    Parses (parseExtraTags S) (extraTagsSpelling P) MetricEnds := by
  have hrefs : Parses (do keyword "tags".toList; punct "+=".toList; parseTagList S)
      (fun refs => keywordWord "tags".toList * (punctWord "+=".toList * tagListSpelling P refs))
      Set.univ :=
    ((parses_keyword _).token' ((parses_punct _).token' ((parses_tagList hS).congr fun _ =>
      (given_true _).symm))).congr fun _ => given_true _
  have hmaybe := hrefs.ifPeek (c := peekIdent "tags".toList) fun refs s hs rest _ => by
    obtain ⟨_, rfl, t, -, rfl⟩ := Language.mem_mul.mp hs
    rfl
  have hcomma := ((parses_punct [',']).token' (hmaybe.congr fun _ => (given_true _).symm)).congr
    fun _ => given_true _
  have hall : Parses _ _ MetricEnds := (hcomma.ifPeek (c := peekPunct [','])
    fun refs s hs rest _ => by
      obtain ⟨u, hu, t, -, rfl⟩ := Language.mem_mul.mp hs
      rw [List.append_assoc]
      exact (peekPunct_append hu _).1).mono fun rest hrest => ⟨⟨trivial, hrest.2⟩, hrest.1⟩
  refine (hall.bind
    (fun o => (Parses.pure (c := o.join.getD []) fun _ => Iff.rfl).mono fun _ _ => trivial)
    ?_).congr fun refs => ?_
  · rintro o refs s ⟨-, rfl⟩ rest hrest
    exact hrest
  · apply Language.ext
    intro s
    simp only [extraTagsSpelling, Language.mem_add, mem_given, mem_ofSome, mul_assoc]
    constructor
    · rintro ⟨o, h⟩
      obtain ⟨w, hw, _, ⟨rfl, rfl⟩, rfl⟩ := Language.mem_mul.mp h
      rw [List.append_nil]
      cases o with
      | none => exact Or.inl ⟨rfl, Or.inl hw⟩
      | some o =>
        cases o with
        | none =>
          rw [Maybe, Maybe, mul_one] at hw
          exact Or.inl ⟨rfl, Or.inr hw⟩
        | some refs => exact Or.inr hw
    · intro h
      rw [← List.append_nil s]
      rcases h with ⟨rfl, hs | hs⟩ | hs
      · exact ⟨none, Language.append_mem_mul hs ⟨rfl, rfl⟩⟩
      · refine ⟨some none, Language.append_mem_mul ?_ ⟨rfl, rfl⟩⟩
        rwa [Maybe, Maybe, mul_one]
      · exact ⟨some (some refs), Language.append_mem_mul hs ⟨rfl, rfl⟩⟩

theorem parses_metric (hS : S.Documented V P) :
    Parses (parseMetric S) (MetricDef.spelling V P) Set.univ := by
  have h : Parses (parseMetric S) (fun d => given True (V d.vis *
      (S.identWord (kindIdent d.kind) * (S.identWord d.ident * (punctWord "=>".toList *
        (litWord d.name * (punctWord [','] * (litWord d.description *
          (extraTagsSpelling P d.extraTags * (punctWord [';'] * 1))))))))))
      Set.univ := by
    unfold parseMetric
    refine hS.visibility.field MetricDef.vis (fun vis => ?_) fun d _ s hs rest _ =>
      atIdent_of_mem hs rest
    refine parses_kind.field' MetricDef.kind fun kind => ?_
    refine parses_ident.field' MetricDef.ident fun ident => ?_
    refine (parses_punct _).token' ?_
    refine parses_litStr.field' MetricDef.name fun name => ?_
    refine (parses_punct _).token' ?_
    refine parses_litStr.field' MetricDef.description fun description => ?_
    refine (parses_extraTags hS).field MetricDef.extraTags (fun extraTags => ?_) ?_
    · refine (parses_punct _).token' (Parses.pure fun d => ?_)
      cases d
      simp [and_assoc]
    · rintro d - s hs rest -
      rw [mul_one] at hs
      obtain ⟨joint, rfl⟩ := hs
      exact ⟨rfl, rfl⟩
  refine h.congr fun d => ?_
  simp only [given_true, MetricDef.spelling, mul_assoc, mul_one]

theorem MetricDef.items (hS : S.Documented V P) : Items (MetricDef.spelling V P) Set.univ where
  ne_nil := by
    intro d h
    simp only [MetricDef.spelling, mul_assoc] at h
    exact (hS.visibility_ident h).ne_nil rfl
  nil_mem := trivial
  mem := fun _ _ _ _ => trivial

theorem GroupArg.items : Items (GroupArg.spelling P) ArgEnds where
  ne_nil := fun a h => (GroupArg.spelling_startsIdent a [] h).ne_nil rfl
  nil_mem := Or.inl rfl
  mem := fun a s hs rest => Or.inr ((GroupArg.spelling_startsIdent a s hs).append rest)

theorem parses_group (hS : S.Documented V P) :
    Parses (parseGroup S) (MetricGroup.spelling V P) Set.univ := by
  have hargs := parses_delimited (fun _ _ =>
    untilEmpty_iff (parses_groupArg hS) GroupArg.items) .parenthesis
  have hmetrics := parses_delimited (fun _ _ =>
    untilEmpty_iff (parses_metric hS) (MetricDef.items hS)) .brace
  have h : Parses (parseGroup S) (fun g => given True (keywordWord "group".toList *
      ofSome fun args : List (GroupArg S) =>
        inGroup .parenthesis (args.map (GroupArg.spelling P)).prod *
          given (GroupArg.namespaceOf S args = g.namespace ∧
              (GroupArg.tagsOf S args).getD [] = g.tags)
            (inGroup .brace (g.metrics.map (MetricDef.spelling V P)).prod * 1))) Set.univ := by
    unfold parseGroup
    refine (parses_keyword _).token' ((hargs.bind (fun args => ?_)
      fun _ _ _ _ _ _ => trivial).congr fun _ => (given_true _).symm)
    refine hmetrics.field' MetricGroup.metrics fun metrics => Parses.pure fun g => ?_
    cases g
    simp [and_assoc, eq_comm]
  refine h.congr fun g => ?_
  apply Language.ext
  intro s
  simp only [given_true, mul_one, MetricGroup.spelling, mul_assoc, mem_ofSome, mem_given,
    Language.mem_mul]
  constructor
  · rintro ⟨w, hw, -, ⟨args, u, hu, v, ⟨hg, hv⟩, rfl⟩, rfl⟩
    exact ⟨args, hg, w, hw, _, ⟨u, hu, v, hv, rfl⟩, rfl⟩
  · rintro ⟨args, hg, w, hw, -, ⟨u, hu, v, hv, rfl⟩, rfl⟩
    exact ⟨w, hw, _, ⟨args, u, hu, v, ⟨hg, hv⟩, rfl⟩, rfl⟩

theorem MetricGroup.items : Items (MetricGroup.spelling V P) Set.univ where
  ne_nil := by
    rintro g ⟨args, -, h⟩
    rw [mul_assoc] at h
    exact (startsIdent_keyword h).ne_nil rfl
  nil_mem := trivial
  mem := fun _ _ _ _ => trivial

/-- **`define_metrics!` accepts just the spellings of groups.** -/
theorem parseMetrics_iff (hS : S.Documented V P) {ts : List TokenTree}
    {groups : List (MetricGroup S)} :
    parseMetrics S ts = .ok groups ↔ ts ∈ (groups.map (MetricGroup.spelling V P)).prod :=
  untilEmpty_iff (parses_group hS) MetricGroup.items

/-- `group(namespace = Http, tags = [Endpoint]) { pub gauge Active => "active", "Active", tags +=
[optional Region, Status as state]; }`. -/
theorem parseMetrics_active :
    [.ident "group".toList, .group .parenthesis
      [.ident "namespace".toList, .punct '=' false, .ident "Http".toList, .punct ',' false,
        .ident "tags".toList, .punct '=' false, .group .bracket [.ident "Endpoint".toList]],
      .group .brace
        [.ident "pub".toList, .ident "gauge".toList, .ident "Active".toList, .punct '=' true,
          .punct '>' false, .literal (some "active".toList), .punct ',' false,
          .literal (some "Active".toList), .punct ',' false, .ident "tags".toList,
          .punct '+' true, .punct '=' false, .group .bracket
            [.ident "optional".toList, .ident "Region".toList, .punct ',' false,
              .ident "Status".toList, .ident "as".toList, .ident "state".toList],
          .punct ';' false]] ∈
    (([⟨some "Http".toList, [⟨false, "Endpoint".toList, none⟩],
      [⟨true, .gauge, "Active".toList, "active".toList, "Active".toList,
        [⟨true, "Region".toList, none⟩, ⟨false, "Status".toList, some "state".toList⟩]⟩]⟩] :
        List (MetricGroup plainSyn)).map
        (MetricGroup.spelling plainVisibility plainSyn.identWord)).prod :=
  (parseMetrics_iff plainSyn_documented).mp rfl

/-! ### The errors of the macros -/

theorem keyword_ident (sym : Text) (ts : List TokenTree) :
    keyword sym (.ident sym :: ts) = .ok ((), ts) :=
  if_pos (peekIdent_iff.mpr ⟨ts, rfl⟩)

theorem delimited_group {α : Type} (d : Delimiter) (p : List TokenTree → Except ParseError α)
    (stream ts : List TokenTree) :
    delimited d p (.group d stream :: ts) = (p stream).map fun a => (a, ts) :=
  if_pos rfl

/-- **A metric of an unknown kind** is reported as such, whatever else is wrong
behind it. -/
theorem parseMetrics_unknown_kind (hS : S.Documented V P) {groups : List (MetricGroup S)}
    {args : List (GroupArg S)} {metrics : List (MetricDef S)} {vis : S.Visibility} {kind : Text}
    {gs as ms v behind rest : List TokenTree}
    (hgs : gs ∈ (groups.map (MetricGroup.spelling V P)).prod)
    (has : as ∈ (args.map (GroupArg.spelling P)).prod)
    (hms : ms ∈ (metrics.map (MetricDef.spelling V P)).prod) (hv : v ∈ V vis)
    (hident : S.isIdent kind) (hkind : ∀ k, kind ≠ kindIdent k) :
    parseMetrics S (gs ++ .ident "group".toList :: .group .parenthesis as ::
        .group .brace (ms ++ (v ++ .ident kind :: behind)) :: rest) =
      .error (.custom "expected metric type `count`, `gauge`, or `histogram`".toList) := by
  have hparse : parseKind S (.ident kind :: behind) =
      .error (.custom "expected metric type `count`, `gauge`, or `histogram`".toList) := by
    have hi : S.ident (.ident kind :: behind) = .ok (kind, behind) := if_pos hident
    have hk : parseMetricKind kind =
        .error (.custom "expected metric type `count`, `gauge`, or `histogram`".toList) := by
      have hcount : kind ≠ "count".toList := hkind .count
      have hgauge : kind ≠ "gauge".toList := hkind .gauge
      have hhistogram : kind ≠ "histogram".toList := hkind .histogram
      rw [parseMetricKind, if_neg hcount, if_neg hgauge, if_neg hhistogram]
    show (S.ident (.ident kind :: behind) >>= _) = _
    rw [hi]
    show (parseMetricKind kind >>= _) = _
    rw [hk]
    rfl
  have hmetric : parseMetric S (v ++ .ident kind :: behind) =
      .error (.custom "expected metric type `count`, `gauge`, or `histogram`".toList) := by
    rw [parseMetric, bind_of_ok (hS.visibility.complete hv ⟨kind, behind, hident, rfl⟩),
      bind_of_error hparse]
  have hbody := untilEmpty_error (parses_metric hS) (MetricDef.items hS) hms (by simp) trivial
    hmetric
  refine untilEmpty_error (parses_group hS) MetricGroup.items hgs (List.cons_ne_nil _ _)
    trivial ?_
  have hargs : delimited .parenthesis (untilEmpty (parseGroupArg S))
      (.group .parenthesis as :: .group .brace (ms ++ (v ++ .ident kind :: behind)) :: rest) =
      .ok (args, .group .brace (ms ++ (v ++ .ident kind :: behind)) :: rest) := by
    rw [delimited_group, (untilEmpty_iff (parses_groupArg hS) GroupArg.items).mpr has]
    rfl
  have hmetrics : delimited .brace (untilEmpty (parseMetric S))
      (.group .brace (ms ++ (v ++ .ident kind :: behind)) :: rest) =
      .error (.custom "expected metric type `count`, `gauge`, or `histogram`".toList) := by
    rw [delimited_group, hbody]
    rfl
  rw [parseGroup, bind_of_ok (keyword_ident _ _), bind_of_ok hargs, bind_of_error hmetrics]

theorem timer_unknown (k : MetricKind) : "timer".toList ≠ kindIdent k := by
  cases k <;> decide

/-- `group() { pub timer BadMetric }`. -/
theorem parseMetrics_timer :
    parseMetrics plainSyn [.ident "group".toList, .group .parenthesis [],
        .group .brace [.ident "pub".toList, .ident "timer".toList, .ident "BadMetric".toList]] =
      .error (.custom "expected metric type `count`, `gauge`, or `histogram`".toList) :=
  @parseMetrics_unknown_kind plainSyn plainVisibility plainSyn.identWord plainSyn_documented
    [] [] [] true "timer".toList [] [] [] [.ident "pub".toList] [.ident "BadMetric".toList] []
    rfl rfl rfl rfl rfl timer_unknown

end Macros
end ChalkMetrics
