/-
# Metrics the macros generate

What `define_tags!` and `define_metrics!` make of their input: a metric type
with one field for every tag, and for an instance of it the export pairs, the
bytes its derived `Hash` writes, and the arguments of its record calls. An
instance carries that its fields fit its definition.

Key definitions: `MetricDef`, `Metric`, `Metric.exportPairs`,
`Metric.hashStream`, `Metric.series`.
-/
import ChalkMetrics.Aggregator.StripedMap
import Mathlib.Data.List.Forall2

namespace ChalkMetrics

/-- A tag of `define_tags!`: an enum with the value of every variant, or a
free-form tag around a `String`. -/
structure TagDef where
  exportName : Text
  values : Option (List Text)

/-- A value of a tag type. -/
inductive TagValue where
  | variant (i : ℕ)
  | text (s : Text)
deriving DecidableEq

/-- The tag of a field: `optional`, the type, `as alias`. -/
structure TagRef where
  optional : Bool
  ty : TagDef
  aliasIdent : Option Text

/-- A metric of a group; `tags` are the group's, then the metric's own. -/
structure MetricDef where
  namespacePath : List Text
  kind : MetricKind
  name : StaticStr
  tags : List TagRef

namespace TagDef

/-- The value is of the tag's type. -/
def Has (d : TagDef) : TagValue → Prop
  | .variant i => ∃ vs, d.values = some vs ∧ i < vs.length
  | .text _ => d.values = none

def exportValue (d : TagDef) : TagValue → Text
  | .variant i => (d.values.getD []).getD i []
  | .text s => s

/-- An `isize` in memory, 8 bytes, low byte first. -/
def isizeBytes (n : ℕ) : List UInt8 := (List.range 8).map fun j => UInt8.ofNat (n / 256 ^ j % 256)

/-- Derived `Hash` of an enum writes the discriminant, unless there is only one
variant; a `String` writes its bytes and `0xFF`. -/
def hashValue (d : TagDef) : TagValue → List UInt8
  | .variant i => if (d.values.getD []).length ≤ 1 then [] else isizeBytes i
  | .text s => s.flatMap String.utf8EncodeChar ++ [0xFF]

end TagDef

namespace TagRef

/-- A field of an optional tag is an `Option`. -/
def Fits (r : TagRef) : Option TagValue → Prop
  | none => r.optional
  | some v => r.ty.Has v

def exportKey (r : TagRef) : Text := r.aliasIdent.getD r.ty.exportName

def exportPair (r : TagRef) (field : Option TagValue) : Option (Text × Text) :=
  field.map fun v => (r.exportKey, r.ty.exportValue v)

/-- Derived `Hash` of an `Option` writes its discriminant first. -/
def hashField (r : TagRef) (field : Option TagValue) : List UInt8 :=
  if r.optional then
    match field with
    | none => TagDef.isizeBytes 0
    | some v => TagDef.isizeBytes 1 ++ r.ty.hashValue v
  else
    match field with
    | none => []
    | some v => r.ty.hashValue v

end TagRef

/-- An instance of a metric type. -/
structure Metric where
  defn : MetricDef
  fields : List (Option TagValue)
  fits : List.Forall₂ TagRef.Fits defn.tags fields

namespace Metric

def name (m : Metric) : StaticStr := m.defn.name

def namespacePath (m : Metric) : List Text := m.defn.namespacePath

def kind (m : Metric) : MetricKind := m.defn.kind

def exportPairs (m : Metric) : List (Text × Text) :=
  (List.zipWith TagRef.exportPair m.defn.tags m.fields).filterMap id

/-- What `self.hash(&mut hasher)` writes: field by field, no name, no type. -/
def hashStream (m : Metric) : List UInt8 :=
  (List.zipWith TagRef.hashField m.defn.tags m.fields).flatten

/-- What a record call passes on, with `hash` for `DefaultHasher`. -/
def series (hash : List UInt8 → UInt64) (m : Metric) : Series :=
  ⟨m.name, m.namespacePath, hash m.hashStream, m.exportPairs⟩

/-- What a flushed metric is reported under. -/
def aggKey (m : Metric) : AggKey := ⟨m.namespacePath, m.name, ⟨m.exportPairs⟩⟩

end Metric
end ChalkMetrics
