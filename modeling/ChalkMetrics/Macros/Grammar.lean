/-
# What the macros accept

Every piece of a definition has its spellings, a language of token trees, and
each parser reads a definition just from its spellings: `parseTags_iff` and
`parseNamespaces_iff` here, the metrics in `MetricsGrammar`. The commas between
tags and between values are optional.

Of `syn` the macros rely on four facts (`Syn.Documented`): a visibility may be
followed by an identifier and a path by an identifier, a comma or the end, a
visibility is nothing or starts with an identifier, and a path is not empty.

Key definitions: `Syn.Documented`, `TagDef.spelling`, `NamespaceDef.spelling`.
-/
import ChalkMetrics.Macros.Syntax

namespace ChalkMetrics
namespace Macros

open Parsing

/-! ### Tokens -/

def keywordWord (sym : Text) : Language TokenTree := {[.ident sym]}

def litWord (str : Text) : Language TokenTree := {[.literal (some str)]}

/-- Whether the last character is joint does not matter. -/
def punctWord : Text → Language TokenTree
  | [] => 1
  | [ch] => {ts | ∃ joint, ts = [.punct ch joint]}
  | ch :: chs => {[.punct ch true]} * punctWord chs

def inGroup (d : Delimiter) (L : Language TokenTree) : Language TokenTree :=
  {ts | ∃ stream ∈ L, ts = [.group d stream]}

def Syn.identWord (S : Syn) (sym : Text) : Language TokenTree :=
  given (S.isIdent sym) (keywordWord sym)

/-- A comma that may be missing. -/
def maybeComma : Language TokenTree := 1 + punctWord [',']

section Tokens

variable {S : Syn} {ts rest s : List TokenTree} {sym : Text}

theorem peekIdent_iff : peekIdent sym ts ↔ ∃ rest, ts = .ident sym :: rest := by
  unfold peekIdent
  split
  · rw [decide_eq_true_iff]
    constructor
    · rintro rfl
      exact ⟨_, rfl⟩
    · rintro ⟨rest, h⟩
      obtain ⟨h, -⟩ := List.cons.inj h
      exact TokenTree.ident.inj h
  · rename_i hts
    simp only [Bool.false_eq_true, false_iff]
    rintro ⟨rest, rfl⟩
    exact hts _ _ rfl

theorem parses_keyword (sym : Text) :
    Parses (keyword sym) (fun _ => keywordWord sym) Set.univ where
  sound := by
    intro ts rest a h
    unfold keyword at h
    split at h
    · rename_i hp
      obtain ⟨mid, rfl⟩ := peekIdent_iff.mp hp
      obtain ⟨-, rfl⟩ := Prod.mk.inj (Except.ok.inj h)
      exact ⟨_, rfl, rfl⟩
    · cases h
  complete := by
    rintro pre rest a rfl -
    exact if_pos (peekIdent_iff.mpr ⟨rest, rfl⟩)

theorem parses_ident : Parses S.ident S.identWord Set.univ where
  sound := by
    intro ts rest a h
    unfold Syn.ident at h
    split at h
    · split at h
      · rename_i hs
        obtain ⟨rfl, rfl⟩ := Prod.mk.inj (Except.ok.inj h)
        exact ⟨_, ⟨hs, rfl⟩, rfl⟩
      · cases h
    · cases h
  complete := by
    rintro pre rest a ⟨ha, rfl⟩ -
    exact if_pos ha

theorem parses_litStr : Parses litStr litWord Set.univ where
  sound := by
    intro ts rest a h
    unfold litStr at h
    split at h
    · obtain ⟨rfl, rfl⟩ := Prod.mk.inj (Except.ok.inj h)
      exact ⟨_, rfl, rfl⟩
    · cases h
  complete := by
    rintro pre rest a rfl -
    rfl

theorem peekPunct_append : ∀ {chs : Text} {s : List TokenTree}, s ∈ punctWord chs →
    ∀ rest, peekPunct chs (s ++ rest) = true ∧ (s ++ rest).drop chs.length = rest
  | [], s, h, rest => by
    obtain rfl : s = [] := h
    exact ⟨rfl, rfl⟩
  | [ch], s, h, rest => by
    obtain ⟨joint, rfl⟩ := h
    exact ⟨decide_eq_true rfl, rfl⟩
  | ch :: c :: chs, s, h, rest => by
    obtain ⟨_, rfl, t, ht, rfl⟩ := Language.mem_mul.mp h
    obtain ⟨hpeek, hdrop⟩ := peekPunct_append ht rest
    refine ⟨?_, hdrop⟩
    show (decide (ch = ch) && true && peekPunct (c :: chs) (t ++ rest)) = true
    rw [hpeek, decide_eq_true rfl]
    rfl

theorem exists_of_peekPunct : ∀ {chs : Text} {ts : List TokenTree}, peekPunct chs ts = true →
    ∃ s ∈ punctWord chs, s ++ ts.drop chs.length = ts
  | [], ts, _ => ⟨[], rfl, rfl⟩
  | [ch], .punct c joint :: ts, h => by
    obtain rfl := of_decide_eq_true h
    exact ⟨_, ⟨joint, rfl⟩, rfl⟩
  | ch :: d :: chs, .punct c joint :: ts, h => by
    simp only [peekPunct, Bool.and_eq_true, decide_eq_true_eq] at h
    obtain ⟨⟨rfl, rfl⟩, h⟩ := h
    obtain ⟨s, hs, he⟩ := exists_of_peekPunct h
    exact ⟨_, Language.append_mem_mul rfl hs, congrArg (List.cons _) he⟩
  | [_], [], h | [_], .ident _ :: _, h | [_], .literal _ :: _, h | [_], .group _ _ :: _, h
  | _ :: _ :: _, [], h | _ :: _ :: _, .ident _ :: _, h | _ :: _ :: _, .literal _ :: _, h
  | _ :: _ :: _, .group _ _ :: _, h => by
    cases h

theorem parses_punct (chs : Text) : Parses (punct chs) (fun _ => punctWord chs) Set.univ where
  sound := by
    intro ts rest a h
    unfold punct at h
    split at h
    · rename_i hp
      obtain ⟨-, rfl⟩ := Prod.mk.inj (Except.ok.inj h)
      exact exists_of_peekPunct hp
    · cases h
  complete := by
    intro pre rest a hpre _
    obtain ⟨hpeek, hdrop⟩ := peekPunct_append hpre rest
    rw [punct, hpeek, hdrop]
    rfl

theorem parses_delimited {α : Type} {p : List TokenTree → Except ParseError α}
    {G : α → Language TokenTree} (hp : ∀ ts a, p ts = .ok a ↔ ts ∈ G a) (d : Delimiter) :
    Parses (delimited d p) (fun a => inGroup d (G a)) Set.univ where
  sound := by
    intro ts rest a h
    unfold delimited at h
    split at h
    · rename_i e stream mid
      split at h
      · rename_i hd
        obtain ⟨rfl⟩ := hd
        cases hs : p stream with
        | error err => rw [hs] at h; cases h
        | ok b =>
          rw [hs] at h
          obtain ⟨rfl, rfl⟩ := Prod.mk.inj (Except.ok.inj h)
          exact ⟨_, ⟨stream, (hp _ _).mp hs, rfl⟩, rfl⟩
      · cases h
    · cases h
  complete := by
    rintro pre rest a ⟨stream, hs, rfl⟩ -
    show (if d = d then (p stream).map fun a => (a, rest) else _) = _
    rw [if_pos rfl, (hp _ _).mpr hs]
    rfl

/-- The inside of a delimited part has no leftover. -/
theorem whole_iff {α : Type} {p : Parser α} {G : α → Language TokenTree}
    {F : Set (List TokenTree)} (hp : Parses p G F) (hnil : [] ∈ F) (ts : List TokenTree) (a : α) :
    whole p ts = .ok a ↔ ts ∈ G a := by
  rw [← hp.run_iff hnil, whole, bind_eq_ok]
  constructor
  · rintro ⟨⟨b, rest⟩, hb, h⟩
    cases rest with
    | nil =>
      obtain rfl := Except.ok.inj h
      exact hb
    | cons t rest => cases h
  · intro h
    exact ⟨(a, []), h, rfl⟩

theorem parses_trailingComma : Parses trailingComma (fun _ => maybeComma)
    {rest | peekPunct [','] rest = false} :=
  ((parses_punct [',']).skipIf fun _ hs rest _ => (peekPunct_append hs rest).1).mono
    fun _ hrest => ⟨trivial, hrest⟩

/-! ### How spellings start -/

/-- An identifier is in front. -/
def StartsIdent (ts : List TokenTree) : Prop := ∃ sym rest, ts = .ident sym :: rest

theorem StartsIdent.not_comma (h : StartsIdent ts) : peekPunct [','] ts = false := by
  obtain ⟨sym, rest, rfl⟩ := h
  rfl

theorem StartsIdent.ne_nil (h : StartsIdent ts) : ts ≠ [] := by
  obtain ⟨sym, rest, rfl⟩ := h
  exact List.cons_ne_nil _ _

theorem StartsIdent.append (h : StartsIdent ts) (rest : List TokenTree) :
    StartsIdent (ts ++ rest) := by
  obtain ⟨sym, ts, rfl⟩ := h
  exact ⟨sym, ts ++ rest, rfl⟩

theorem startsIdent_keyword {L : Language TokenTree} (h : s ∈ keywordWord sym * L) :
    StartsIdent s := by
  obtain ⟨_, rfl, t, -, rfl⟩ := Language.mem_mul.mp h
  exact ⟨sym, t, rfl⟩

/-- What may follow a visibility. -/
def Syn.AtIdent (S : Syn) : Set (List TokenTree) :=
  {ts | ∃ sym rest, S.isIdent sym ∧ ts = .ident sym :: rest}

theorem atIdent_of_mem {L : Language TokenTree} (h : s ∈ S.identWord sym * L)
    (rest : List TokenTree) : s ++ rest ∈ S.AtIdent := by
  obtain ⟨_, ⟨hsym, rfl⟩, t, -, rfl⟩ := Language.mem_mul.mp h
  exact ⟨sym, t ++ rest, hsym, rfl⟩

/-- What may follow a path. -/
def PathEnds : Set (List TokenTree) :=
  {ts | ts = [] ∨ StartsIdent ts ∨ peekPunct [','] ts = true}

end Tokens

/-- What the macros rely on; `V` and `P` are the spellings of visibilities and
paths. -/
structure Syn.Documented (S : Syn) (V : S.Visibility → Language TokenTree)
    (P : S.Path → Language TokenTree) : Prop where
  visibility : Parses S.visibility V S.AtIdent
  path : Parses S.path P PathEnds
  startsIdent : ∀ v, ∀ s ∈ V v, s = [] ∨ StartsIdent s
  path_ne_nil : ∀ p, [] ∉ P p

/-! ### A plain `syn` -/

def rustKeywords : List Text :=
  ["as", "async", "await", "break", "const", "continue", "crate", "dyn", "else", "enum", "extern",
    "false", "fn", "for", "if", "impl", "in", "let", "loop", "match", "mod", "move", "mut", "pub",
    "ref", "return", "self", "Self", "static", "struct", "super", "trait", "true", "type",
    "unsafe", "use", "where", "while"].map String.toList

/-- `pub` or nothing for a visibility, and one identifier for a path. -/
def plainSyn : Syn where
  Visibility := Bool
  Path := Text
  isIdent := fun s => !rustKeywords.contains s
  visibility := fun ts =>
    if peekIdent "pub".toList ts then .ok (true, ts.tail) else .ok (false, ts)
  path
    | .ident s :: ts =>
      if !rustKeywords.contains s then .ok (s, ts) else .error (.expected "identifier".toList)
    | _ => .error (.expected "identifier".toList)
  lastSegment := some

def plainVisibility : plainSyn.Visibility → Language TokenTree
  | true => keywordWord "pub".toList
  | false => 1

theorem plainSyn_documented : plainSyn.Documented plainVisibility plainSyn.identWord where
  visibility := by
    refine ⟨?_, ?_⟩
    · intro ts rest a h
      have hrun : plainSyn.visibility ts =
          if peekIdent "pub".toList ts then .ok (true, ts.tail) else .ok (false, ts) := rfl
      by_cases hp : peekIdent "pub".toList ts
      · rw [hrun, if_pos hp] at h
        obtain ⟨mid, rfl⟩ := peekIdent_iff.mp hp
        obtain ⟨rfl, rfl⟩ := Prod.mk.inj (Except.ok.inj h)
        exact ⟨_, rfl, rfl⟩
      · rw [hrun, if_neg hp] at h
        obtain ⟨rfl, rfl⟩ := Prod.mk.inj (Except.ok.inj h)
        exact ⟨[], rfl, rfl⟩
    · intro pre rest a hpre hrest
      cases a with
      | true =>
        obtain rfl : pre = [.ident "pub".toList] := hpre
        rfl
      | false =>
        obtain rfl : pre = [] := hpre
        obtain ⟨sym, rest, hsym, rfl⟩ := hrest
        refine if_neg fun hp => ?_
        obtain ⟨_, he⟩ := peekIdent_iff.mp hp
        obtain rfl := TokenTree.ident.inj (List.cons.inj he).1
        revert hsym
        decide
  path := (parses_ident (S := plainSyn)).mono fun _ _ => trivial
  startsIdent := by
    intro v s hs
    cases v with
    | true =>
      obtain rfl : s = [.ident "pub".toList] := hs
      exact Or.inr ⟨_, _, rfl⟩
    | false => exact Or.inl hs
  path_ne_nil := by
    rintro p ⟨-, h⟩
    cases h

variable {S : Syn} {V : S.Visibility → Language TokenTree} {P : S.Path → Language TokenTree}

/-- A visibility with an identifier behind it. -/
theorem Syn.Documented.visibility_ident (hS : S.Documented V P) {v : S.Visibility} {sym : Text}
    {L : Language TokenTree} {s : List TokenTree} (h : s ∈ V v * (S.identWord sym * L)) :
    StartsIdent s := by
  obtain ⟨w, hw, t, ht, rfl⟩ := Language.mem_mul.mp h
  rcases hS.startsIdent v w hw with rfl | hw
  · obtain ⟨_, ⟨-, rfl⟩, r, -, rfl⟩ := Language.mem_mul.mp ht
    exact ⟨sym, r, rfl⟩
  · exact hw.append t

/-- Items that start with an identifier, in a loop that skips commas. -/
theorem items_of_startsIdent {α : Type} {G : α → Language TokenTree}
    (h : ∀ a, ∀ s ∈ G a, StartsIdent s) : Items G {rest | peekPunct [','] rest = false} where
  ne_nil := fun a ha => (h a [] ha).ne_nil rfl
  nil_mem := rfl
  mem := fun a s hs rest => ((h a s hs).append rest).not_comma

/-! ### Tags -/

/-- `Variant => "value"`. -/
def valueSpelling (S : Syn) (v : Text × Text) : Language TokenTree :=
  S.identWord v.1 * punctWord "=>".toList * litWord v.2 * maybeComma

def valuesSpelling (S : Syn) : Option (List (Text × Text)) → Language TokenTree
  | none => punctWord [';']
  | some values => inGroup .brace (values.map (valueSpelling S)).prod

/-- `vis Ident => "name" { … }` or `vis Ident => "name";`. -/
def TagDef.spelling (V : S.Visibility → Language TokenTree) (d : TagDef S) : Language TokenTree :=
  V d.vis * S.identWord d.ident * punctWord "=>".toList * litWord d.exportName *
    valuesSpelling S d.values * maybeComma

theorem parses_value : Parses (parseValue S) (valueSpelling S)
    {rest | peekPunct [','] rest = false} := by
  have h : Parses (parseValue S) (fun v => given True (S.identWord v.1 *
      (punctWord "=>".toList * (litWord v.2 * (maybeComma * 1)))))
      {rest | peekPunct [','] rest = false} := by
    unfold parseValue
    refine parses_ident.field' Prod.fst fun variant => ?_
    refine (parses_punct _).token' ?_
    refine parses_litStr.field' Prod.snd fun value => ?_
    refine parses_trailingComma.token ((Parses.pure fun v => ?_).mono fun _ _ => trivial) ?_
    · rw [true_and, Prod.ext_iff]
    · rintro v - s rfl rest hrest
      exact hrest
  refine h.congr fun v => ?_
  simp only [given_true, valueSpelling, mul_assoc, mul_one]

theorem valueSpelling_startsIdent (v : Text × Text) : ∀ s ∈ valueSpelling S v, StartsIdent s := by
  intro s hs
  simp only [valueSpelling, mul_assoc] at hs
  obtain ⟨_, ⟨-, rfl⟩, t, -, rfl⟩ := Language.mem_mul.mp hs
  exact ⟨v.1, t, rfl⟩

theorem parses_values : Parses (parseValues S) (valuesSpelling S) Set.univ := by
  have hbrace : Parses (do
        let values ← delimited .brace (untilEmpty (parseValue S))
        return some values)
      (fun o => given o.isSome (inGroup .brace ((o.getD []).map (valueSpelling S)).prod * 1))
      Set.univ := by
    refine (parses_delimited (fun ts a => untilEmpty_iff parses_value
      (items_of_startsIdent valueSpelling_startsIdent)) .brace).field' (Option.getD · [])
      fun values => Parses.pure fun o => ?_
    cases o with
    | none => simp
    | some ws => simp
  have hsemi : Parses (do punct [';']; return none)
      (fun o : Option (List (Text × Text)) => given (o = none) (punctWord [';'] * 1)) Set.univ :=
    (parses_punct _).token' (Parses.pure fun _ => Iff.rfl)
  refine (hbrace.peek hsemi ?_ ?_).congr fun o => ?_
  · rintro o s ⟨-, hs⟩ rest -
    rw [mul_one] at hs
    obtain ⟨stream, -, rfl⟩ := hs
    rfl
  · rintro o s ⟨-, hs⟩ rest
    rw [mul_one] at hs
    obtain ⟨joint, rfl⟩ := hs
    rfl
  · apply Language.ext
    intro s
    rw [Language.mem_add, mem_lacking, mem_given, mem_given, mul_one, mul_one]
    cases o with
    | none =>
      refine ⟨?_, fun hs => Or.inr ⟨⟨rfl, hs⟩, ?_⟩⟩
      · rintro (⟨h, -⟩ | ⟨⟨-, hs⟩, -⟩)
        · cases h
        · exact hs
      · obtain ⟨joint, rfl⟩ := hs
        rfl
    | some values =>
      refine ⟨?_, fun hs => Or.inl ⟨rfl, hs⟩⟩
      rintro (⟨-, hs⟩ | ⟨⟨h, -⟩, -⟩)
      · exact hs
      · cases h

theorem parses_tag (hS : S.Documented V P) : Parses (parseTag S) (TagDef.spelling V)
    {rest | peekPunct [','] rest = false} := by
  have h : Parses (parseTag S) (fun d => given True (V d.vis * (S.identWord d.ident *
      (punctWord "=>".toList * (litWord d.exportName *
        (valuesSpelling S d.values * (maybeComma * 1)))))))
      {rest | peekPunct [','] rest = false} := by
    unfold parseTag
    refine hS.visibility.field TagDef.vis (fun vis => ?_) fun d _ s hs rest _ =>
      atIdent_of_mem hs rest
    refine parses_ident.field' TagDef.ident fun ident => ?_
    refine (parses_punct _).token' ?_
    refine parses_litStr.field' TagDef.exportName fun exportName => ?_
    refine parses_values.field' TagDef.values fun values => ?_
    refine parses_trailingComma.token ((Parses.pure fun d => ?_).mono fun _ _ => trivial) ?_
    · cases d
      simp [and_assoc]
    · rintro d - s rfl rest hrest
      exact hrest
  refine h.congr fun d => ?_
  simp only [given_true, TagDef.spelling, mul_assoc, mul_one]

theorem TagDef.spelling_startsIdent (hS : S.Documented V P) (d : TagDef S) :
    ∀ s ∈ d.spelling V, StartsIdent s := by
  intro s hs
  simp only [TagDef.spelling, mul_assoc] at hs
  exact hS.visibility_ident hs

/-- **`define_tags!` accepts just the spellings of tags**, one after another. -/
theorem parseTags_iff (hS : S.Documented V P) {ts : List TokenTree} {tags : List (TagDef S)} :
    parseTags S ts = .ok tags ↔ ts ∈ (tags.map (TagDef.spelling V)).prod :=
  untilEmpty_iff (parses_tag hS) (items_of_startsIdent (TagDef.spelling_startsIdent hS))

/-- `pub Status => "status" { Ok => "ok", Failed => "failed" } Region => "region";`. -/
def statusTokens : List TokenTree :=
  [.ident "pub".toList, .ident "Status".toList, .punct '=' true, .punct '>' false,
    .literal (some "status".toList), .group .brace
      [.ident "Ok".toList, .punct '=' true, .punct '>' false, .literal (some "ok".toList),
        .punct ',' false, .ident "Failed".toList, .punct '=' true, .punct '>' false,
        .literal (some "failed".toList)],
    .ident "Region".toList, .punct '=' true, .punct '>' false, .literal (some "region".toList),
    .punct ';' false]

theorem parseTags_status :
    statusTokens ∈ (([⟨true, "Status".toList, "status".toList,
        some [("Ok".toList, "ok".toList), ("Failed".toList, "failed".toList)]⟩,
      ⟨false, "Region".toList, "region".toList, none⟩] : List (TagDef plainSyn)).map
        (TagDef.spelling plainVisibility)).prod :=
  (parseTags_iff plainSyn_documented).mp rfl

/-! ### Namespaces -/

/-- `(parent = path)`, or nothing. -/
def parentSpelling (P : S.Path → Language TokenTree) (path : S.Path) : Language TokenTree :=
  inGroup .parenthesis (keywordWord "parent".toList * punctWord ['='] * P path)

/-- `vis Ident => "segment";` or `vis Ident(parent = path) => "segment";`. -/
def NamespaceDef.spelling (V : S.Visibility → Language TokenTree)
    (P : S.Path → Language TokenTree) (d : NamespaceDef S) : Language TokenTree :=
  V d.vis * S.identWord d.ident * Maybe (parentSpelling P) d.parent * punctWord "=>".toList *
    litWord d.segment * punctWord [';']

theorem parses_parent (hS : S.Documented V P) : Parses (parseParent S)
    (fun path => keywordWord "parent".toList * punctWord ['='] * P path) PathEnds := by
  have h : Parses (parseParent S) (fun path => given True (keywordWord "parent".toList *
      (punctWord ['='] * P path))) PathEnds :=
    (parses_keyword _).token' ((parses_punct _).token' (hS.path.congr fun _ => (given_true _).symm))
  refine h.congr fun path => ?_
  rw [given_true, mul_assoc]

theorem parses_namespace (hS : S.Documented V P) :
    Parses (parseNamespace S) (NamespaceDef.spelling V P) Set.univ := by
  have hparent : Parses (ifPeek (peekGroup .parenthesis)
      (delimited .parenthesis (whole (parseParent S)))) (Maybe (parentSpelling P))
      {rest | rest ∈ Set.univ ∧ peekGroup .parenthesis rest = false} := by
    refine (parses_delimited (whole_iff (parses_parent hS) (Or.inl rfl)) _).ifPeek ?_
    rintro path s ⟨stream, -, rfl⟩ rest -
    rfl
  have h : Parses (parseNamespace S) (fun d => given True (V d.vis * (S.identWord d.ident *
      (Maybe (parentSpelling P) d.parent * (punctWord "=>".toList * (litWord d.segment *
        (punctWord [';'] * 1))))))) Set.univ := by
    unfold parseNamespace
    refine hS.visibility.field NamespaceDef.vis (fun vis => ?_) fun d _ s hs rest _ =>
      atIdent_of_mem hs rest
    refine parses_ident.field' NamespaceDef.ident fun ident => ?_
    refine hparent.field NamespaceDef.parent (fun parent => ?_) ?_
    · refine (parses_punct _).token' ?_
      refine parses_litStr.field' NamespaceDef.segment fun segment => ?_
      refine (parses_punct _).token' (Parses.pure fun d => ?_)
      cases d
      simp [and_assoc]
    · rintro d - s hs rest -
      obtain ⟨w, hw, t, -, rfl⟩ := Language.mem_mul.mp hs
      obtain ⟨_, rfl, u, -, rfl⟩ := Language.mem_mul.mp hw
      exact ⟨trivial, rfl⟩
  refine h.congr fun d => ?_
  simp only [given_true, NamespaceDef.spelling, mul_assoc, mul_one]

/-- **`define_namespaces!` accepts just the spellings of namespaces.** -/
theorem parseNamespaces_iff (hS : S.Documented V P) {ts : List TokenTree}
    {namespaces : List (NamespaceDef S)} :
    parseNamespaces S ts = .ok namespaces ↔
      ts ∈ (namespaces.map (NamespaceDef.spelling V P)).prod := by
  refine untilEmpty_iff (F := Set.univ) (parses_namespace hS)
    ⟨fun d h => ?_, trivial, fun _ _ _ _ => trivial⟩
  simp only [NamespaceDef.spelling, mul_assoc] at h
  exact (hS.visibility_ident h).ne_nil rfl

/-- `pub Http => "http"; pub HttpAuth(parent = Http) => "auth";`. -/
theorem parseNamespaces_http :
    [.ident "pub".toList, .ident "Http".toList, .punct '=' true, .punct '>' false,
      .literal (some "http".toList), .punct ';' false, .ident "pub".toList,
      .ident "HttpAuth".toList, .group .parenthesis
        [.ident "parent".toList, .punct '=' false, .ident "Http".toList],
      .punct '=' true, .punct '>' false, .literal (some "auth".toList), .punct ';' false] ∈
    (([⟨true, "Http".toList, none, "http".toList⟩,
      ⟨true, "HttpAuth".toList, some "Http".toList, "auth".toList⟩] :
        List (NamespaceDef plainSyn)).map
        (NamespaceDef.spelling plainVisibility plainSyn.identWord)).prod :=
  (parseNamespaces_iff plainSyn_documented).mp rfl

end Macros
end ChalkMetrics
