/-
# The input of the macros

`define_tags!`, `define_namespaces!` and `define_metrics!` get a list of token
trees, and each has a parser for it: `TagsInput`, `NamespacesInput`,
`MetricsInput`. What is not the macros' own comes from `syn`: which words are
identifiers, and the parsers of visibilities and paths (`Syn`). A delimited
part of the input has to be read to its end.

Key definitions: `TokenTree`, `Syn`, `parseTags`, `parseNamespaces`,
`parseMetrics`.
-/
import ChalkMetrics.Aggregator.Slots
import ChalkMetrics.Lib.Parsing

namespace ChalkMetrics
namespace Macros

open Parsing

inductive Delimiter where
  | parenthesis
  | brace
  | bracket
deriving DecidableEq

/-- A keyword is an identifier; `joint` says that the next token is a `punct`
right behind; `str` is the value of a string literal. -/
inductive TokenTree where
  | ident (sym : Text)
  | punct (ch : Char) (joint : Bool)
  | literal (str : Option Text)
  | group (delimiter : Delimiter) (stream : List TokenTree)

/-- An error of `syn`, about a token that is not there or one too many, or one
of the macros' own with its text. -/
inductive ParseError where
  | expected (what : Text)
  | unexpectedToken
  | custom (text : Text)
deriving DecidableEq

abbrev Parser := Parsing.Parser TokenTree ParseError

/-- What `syn` brings: the words that parse as an `Ident`, and the parsers of
`Visibility` and `Path`. -/
structure Syn where
  Visibility : Type
  Path : Type
  isIdent : Text → Bool
  visibility : Parser Visibility
  path : Parser Path
  lastSegment : Path → Option Text

/-! ### Tokens -/

def peekIdent (sym : Text) : List TokenTree → Bool
  | .ident s :: _ => s = sym
  | _ => false

def peekGroup (d : Delimiter) : List TokenTree → Bool
  | .group e _ :: _ => e = d
  | _ => false

/-- All but the last character of a token are joint. -/
def peekPunct : Text → List TokenTree → Bool
  | [], _ => true
  | [ch], .punct c _ :: _ => c = ch
  | ch :: chs, .punct c joint :: ts => c = ch && joint && peekPunct chs ts
  | _ :: _, _ => false

def keyword (sym : Text) : Parser Unit := fun ts =>
  if peekIdent sym ts then .ok ((), ts.tail) else .error (.expected sym)

def punct (chs : Text) : Parser Unit := fun ts =>
  if peekPunct chs ts then .ok ((), ts.drop chs.length) else .error (.expected chs)

def litStr : Parser Text
  | .literal (some str) :: ts => .ok (str, ts)
  | _ => .error (.expected "string literal".toList)

/-- `braced!`, `bracketed!` or `parenthesized!`, and what `p` reads inside. -/
def delimited {α : Type} (d : Delimiter) (p : List TokenTree → Except ParseError α) : Parser α
  | .group e stream :: ts =>
    if e = d then (p stream).map fun a => (a, ts) else .error (.expected "delimiter".toList)
  | _ => .error (.expected "delimiter".toList)

/-- A parser that reads all. -/
def whole {α : Type} (p : Parser α) (ts : List TokenTree) : Except ParseError α := do
  let (a, rest) ← p ts
  if rest.isEmpty then return a else .error .unexpectedToken

variable (S : Syn)

def Syn.ident : Parser Text
  | .ident s :: ts => if S.isIdent s then .ok (s, ts) else .error (.expected "identifier".toList)
  | _ => .error (.expected "identifier".toList)

/-- `if input.peek(Token![,]) { input.parse::<Token![,]>()?; }`. -/
def trailingComma : Parser Unit := skipIf (peekPunct [',']) (punct [','])

/-! ### `define_tags!` -/

structure TagDef where
  vis : S.Visibility
  ident : Text
  exportName : Text
  values : Option (List (Text × Text))

def parseValue : Parser (Text × Text) := do
  let variant ← S.ident
  punct "=>".toList
  let value ← litStr
  trailingComma
  return (variant, value)

/-- The values of an enum tag in braces, or a semicolon. -/
def parseValues : Parser (Option (List (Text × Text))) := do
  if ← peek (peekGroup .brace) then
    let values ← delimited .brace (untilEmpty (parseValue S))
    return some values
  else
    punct [';']
    return none

def parseTag : Parser (TagDef S) := do
  let vis ← S.visibility
  let ident ← S.ident
  punct "=>".toList
  let exportName ← litStr
  let values ← parseValues S
  trailingComma
  return { vis, ident, exportName, values }

/-- `TagsInput`. -/
def parseTags : List TokenTree → Except ParseError (List (TagDef S)) := untilEmpty (parseTag S)

/-! ### `define_namespaces!` -/

structure NamespaceDef where
  vis : S.Visibility
  ident : Text
  parent : Option S.Path
  segment : Text

/-- `(parent = …)`. -/
def parseParent : Parser S.Path := do
  keyword "parent".toList
  punct ['=']
  S.path

def parseNamespace : Parser (NamespaceDef S) := do
  let vis ← S.visibility
  let ident ← S.ident
  let parent ← ifPeek (peekGroup .parenthesis) (delimited .parenthesis (whole (parseParent S)))
  punct "=>".toList
  let segment ← litStr
  punct [';']
  return { vis, ident, parent, segment }

/-- `NamespacesInput`. -/
def parseNamespaces : List TokenTree → Except ParseError (List (NamespaceDef S)) :=
  untilEmpty (parseNamespace S)

/-! ### `define_metrics!` -/

structure TagRef where
  optional : Bool
  ty : S.Path
  aliasIdent : Option Text

structure MetricDef where
  vis : S.Visibility
  kind : MetricKind
  ident : Text
  name : Text
  description : Text
  extraTags : List (TagRef S)

structure MetricGroup where
  «namespace» : Option S.Path
  tags : List (TagRef S)
  metrics : List (MetricDef S)

/-- An argument of `group`. -/
inductive GroupArg where
  | «namespace» (path : S.Path)
  | tags (refs : List (TagRef S))

def parseOptional : Parser Bool := do
  if ← peek (peekIdent "optional".toList) then
    keyword "optional".toList
    return true
  else return false

/-- `as alias`. -/
def parseAlias : Parser Text := do
  keyword "as".toList
  S.ident

def parseTagRef : Parser (TagRef S) := do
  let optional ← parseOptional
  let ty ← S.path
  let aliasIdent ← ifPeek (peekIdent "as".toList) (parseAlias S)
  return { optional, ty, aliasIdent }

def parseTagList : Parser (List (TagRef S)) :=
  delimited .bracket (terminated (parseTagRef S) (punct [',']))

def parseGroupArg : Parser (GroupArg S) := do
  if ← peek (peekIdent "namespace".toList) then
    keyword "namespace".toList
    punct ['=']
    let path ← S.path
    trailingComma
    return .namespace path
  else if ← peek (peekIdent "tags".toList) then
    keyword "tags".toList
    punct ['=']
    let refs ← parseTagList S
    trailingComma
    return .tags refs
  else fun _ => .error (.custom "expected `namespace = ...` or `tags = [...]`".toList)

def kindIdent : MetricKind → Text
  | .count => "count".toList
  | .gauge => "gauge".toList
  | .histogram => "histogram".toList

def parseMetricKind (ident : Text) : Except ParseError MetricKind :=
  if ident = "count".toList then .ok .count
  else if ident = "gauge".toList then .ok .gauge
  else if ident = "histogram".toList then .ok .histogram
  else .error (.custom "expected metric type `count`, `gauge`, or `histogram`".toList)

def parseKind : Parser MetricKind := fun ts => do
  let (kindIdent, rest) ← S.ident ts
  return (← parseMetricKind kindIdent, rest)

/-- `, tags += […]`, of which a comma may be all there is. -/
def parseExtraTags : Parser (List (TagRef S)) := do
  let refs ← ifPeek (peekPunct [',']) do
    punct [',']
    ifPeek (peekIdent "tags".toList) do
      keyword "tags".toList
      punct "+=".toList
      parseTagList S
  return refs.join.getD []

def parseMetric : Parser (MetricDef S) := do
  let vis ← S.visibility
  let kind ← parseKind S
  let ident ← S.ident
  punct "=>".toList
  let name ← litStr
  punct [',']
  let description ← litStr
  let extraTags ← parseExtraTags S
  punct [';']
  return { vis, kind, ident, name, description, extraTags }

/-- Of several arguments of one name the last one counts. -/
def GroupArg.namespaceOf : List (GroupArg S) → Option S.Path
  | [] => none
  | arg :: args => match namespaceOf args, arg with
    | some path, _ => some path
    | none, .namespace path => some path
    | none, .tags _ => none

def GroupArg.tagsOf : List (GroupArg S) → Option (List (TagRef S))
  | [] => none
  | arg :: args => match tagsOf args, arg with
    | some refs, _ => some refs
    | none, .tags refs => some refs
    | none, .namespace _ => none

def parseGroup : Parser (MetricGroup S) := do
  keyword "group".toList
  let args ← delimited .parenthesis (untilEmpty (parseGroupArg S))
  let metrics ← delimited .brace (untilEmpty (parseMetric S))
  return ⟨GroupArg.namespaceOf S args, (GroupArg.tagsOf S args).getD [], metrics⟩

/-- `MetricsInput`. -/
def parseMetrics : List TokenTree → Except ParseError (List (MetricGroup S)) :=
  untilEmpty (parseGroup S)

end Macros
end ChalkMetrics
