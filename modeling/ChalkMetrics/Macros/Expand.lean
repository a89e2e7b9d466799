/-
# From the input to the metrics

`expand_tags` and `expand_metrics`: what the definitions read by the parsers
mean, once rustc has resolved their paths. The tags of a metric are those of
its group and then its own, the namespace is the group's, or none. The fields
of the struct are named after the aliases and the types; where they differ, and
enum tags have variants, the metric compiles (`definition_accepted`).

Key definitions: `Program`, `Program.definitions`.
-/
import ChalkMetrics.Macros.FieldNames
import ChalkMetrics.Macros.Namespaces

namespace ChalkMetrics
namespace Macros

variable {S : Syn} {ι : Type}

/-- What paths resolve to, the path of each namespace, and where the name of a
metric is in memory. -/
structure Program (S : Syn) (ι : Type) where
  namespaces : Namespaces S ι
  resolveTag : S.Path → TagDef S
  path : ι → List Text
  path_eq : ∀ i, namespaces.nodes.HasValue i (path i)
  addr : MetricDef S → UInt64

/-- The type of a tag; the names of its variants do not matter. -/
def TagDef.expand (d : TagDef S) : ChalkMetrics.TagDef :=
  ⟨d.exportName, d.values.map fun values => values.map Prod.snd⟩

namespace Program

variable (G : Program S ι)

def tagRef (r : TagRef S) : ChalkMetrics.TagRef :=
  ⟨r.optional, (G.resolveTag r.ty).expand, r.aliasIdent⟩

/-- `NoNamespace` has no segments. -/
def namespacePath (g : MetricGroup S) : List Text :=
  match g.namespace with
  | none => []
  | some p => G.path (G.namespaces.resolve p)

/-- `expand_metric`, with the tags of the group before those of the metric. -/
def definition (g : MetricGroup S) (m : MetricDef S) : ChalkMetrics.MetricDef where
  namespacePath := G.namespacePath g
  kind := m.kind
  name := ⟨G.addr m, m.name⟩
  tags := (g.tags ++ m.extraTags).map G.tagRef

/-- `expand_metrics`. -/
def definitions (groups : List (MetricGroup S)) : List ChalkMetrics.MetricDef :=
  groups.flatMap fun g => g.metrics.map (G.definition g)

/-- `default_field_ident` takes the last segment of the path. -/
def typeIdent (r : TagRef S) : Text := (S.lastSegment r.ty).getD "tag".toList

variable {G}

/-- **A metric without aliases compiles** if its tag types have different names
in camel case and its enum tags have variants. -/
theorem definition_accepted {C : CharCase} (hC : C.OnAscii) {g : MetricGroup S} {m : MetricDef S}
    (halias : ∀ r ∈ g.tags ++ m.extraTags, r.aliasIdent = none)
    (hcamel : ∀ r ∈ g.tags ++ m.extraTags, IsCamel (typeIdent r))
    (hnodup : ((g.tags ++ m.extraTags).map typeIdent).Nodup)
    (hvalues : ∀ r ∈ g.tags ++ m.extraTags, ∀ vs, (G.resolveTag r.ty).values = some vs →
      vs ≠ [] ∧ vs.length ≤ 2 ^ 63) :
    (G.definition g m).Accepted C := by
  refine MetricDef.accepted_of ((g.tags ++ m.extraTags).map typeIdent) ?_ ?_ ?_
  · rw [definition, List.length_map, List.length_map]
  · have hlen : ((g.tags ++ m.extraTags).map typeIdent).length = (G.definition g m).tags.length := by
      rw [definition, List.length_map, List.length_map]
    rw [zipWith_field hlen fun s hs => ?_]
    · refine (toSnakeCase_nodup hC fun s hs => ?_).mpr hnodup
      obtain ⟨r, hr, rfl⟩ := List.mem_map.mp hs
      exact hcamel r hr
    · obtain ⟨q, hq, rfl⟩ := List.mem_map.mp hs
      exact halias q hq
  · intro r hr vs hvs
    obtain ⟨q, hq, rfl⟩ := List.mem_map.mp hr
    obtain ⟨ws, hws, rfl⟩ := Option.map_eq_some_iff.mp hvs
    rw [List.length_map, Ne, List.map_eq_nil_iff]
    exact hvalues q hq ws hws

/-- **The namespace of a metric** is spelled by the ancestors of its group's. -/
theorem definition_path {g : MetricGroup S} {m : MetricDef S} {p : S.Path}
    (hp : g.namespace = some p) :
    ∃ is, G.namespaces.Ancestry (G.namespaces.resolve p) is ∧
      (G.definition g m).namespacePath = is.map fun i => (G.namespaces.defs i).segment := by
  have : (G.definition g m).namespacePath = G.path (G.namespaces.resolve p) := by
    rw [definition, namespacePath, hp]
  rw [this]
  exact Namespaces.Ancestry.of_hasValue (G.path_eq _)

end Program
end Macros
end ChalkMetrics
