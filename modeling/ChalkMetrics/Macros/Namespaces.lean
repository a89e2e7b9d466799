/-
# The paths of namespaces

`expand_namespaces` gives every namespace type a `path()`. A top-level one
returns its segment. A child has a `OnceLock` for its path: the first call asks
the parent for its path and adds a segment, and calls meanwhile wait. In any
program and on any number of threads, a call returns the segments of the
ancestors, from the top (`path_returns`), and if the ancestors of what is asked
for end, some thread in a call can always go on, and a call takes at most two
steps for each ancestor and itself (`path_completes`). Nothing
keeps a namespace from being its own ancestor; then no call returns.

Key definitions: `Namespaces`, `Namespaces.nodes`, `Namespaces.Ancestry`.
-/
import ChalkMetrics.Lib.OnceCells
import ChalkMetrics.Macros.Grammar

namespace ChalkMetrics
namespace Macros

open OnceCells Runs

variable {S : Syn} {ι θ : Type} [DecidableEq ι] [DecidableEq θ]

/-- The namespace types of a program, and which of them a path names. -/
structure Namespaces (S : Syn) (ι : Type) where
  defs : ι → NamespaceDef S
  resolve : S.Path → ι

namespace Namespaces

variable (D : Namespaces S ι)

def parent (i : ι) : Option ι := (D.defs i).parent.map D.resolve

/-- `path()`: the segment, or the parent's path with the segment behind. -/
def nodes : Nodes ι (List Text) where
  parent := D.parent
  root i := [(D.defs i).segment]
  extend i path := path ++ [(D.defs i).segment]

/-- The ancestors of `i` from the top, and `i`. -/
inductive Ancestry : ι → List ι → Prop
  | top {i : ι} (h : D.parent i = none) : Ancestry i [i]
  | child {i j : ι} {is : List ι} (h : D.parent i = some j) (hj : Ancestry j is) :
      Ancestry i (is ++ [i])

variable {D}

omit [DecidableEq ι] in
theorem Ancestry.of_hasValue {i : ι} {path : List Text} (h : D.nodes.HasValue i path) :
    ∃ is, D.Ancestry i is ∧ path = is.map fun j => (D.defs j).segment := by
  induction h with
  | @root i h => exact ⟨[i], .top h, rfl⟩
  | @child i j path h _ ih =>
    obtain ⟨is, his, rfl⟩ := ih
    refine ⟨is ++ [i], .child h his, ?_⟩
    rw [List.map_append]
    rfl

omit [DecidableEq ι] in
theorem Ancestry.height {i : ι} {is : List ι} (h : D.Ancestry i is) :
    ∃ n, D.nodes.Height i n ∧ is.length = n + 1 := by
  induction h with
  | top h => exact ⟨0, .root h, rfl⟩
  | child h _ ih =>
    obtain ⟨n, hn, hlen⟩ := ih
    refine ⟨n + 1, .child h hn, ?_⟩
    rw [List.length_append, hlen]
    rfl

/-- **A call of `path()` returns the segments of the ancestors, from the top**,
in every run of any number of threads. -/
theorem path_returns {s : State ι (List Text) θ} {es : List (Event ι (List Text) θ)}
    (h : Run (Step D.nodes) .start es s) {t : θ} {i : ι} {path : List Text}
    (hdone : .done t i path ∈ es) :
    ∃ is, D.Ancestry i is ∧ path = is.map fun j => (D.defs j).segment :=
  Ancestry.of_hasValue (run_done h t i path hdone)

/-- A call takes at most two steps for each ancestor and for the namespace. -/
theorem path_steps {s s' : State ι (List Text) θ} {es : List (Event ι (List Text) θ)}
    (h : Run (Step D.nodes) s es s') {t : θ} {i : ι} {is : List ι}
    (ht : s.phase t = .calling i []) (hi : D.Ancestry i is) (hes : ∀ k, .call t k ∉ es) :
    (es.filter fun e => e.thread = t).length ≤ 2 * is.length := by
  obtain ⟨n, hn, hlen⟩ := hi.height
  have := steps_le h ht hn hes
  omega

/-- **No call waits in vain**: as long as one is not done some thread can go on,
and a call goes on at most two times for each ancestor and for the namespace. -/
theorem path_completes {s : State ι (List Text) θ} {es : List (Event ι (List Text) θ)}
    (h : Run (Step D.nodes) .start es s)
    (hcalls : ∀ t i, .call t i ∈ es → ∃ is, D.Ancestry i is) :
    (∀ t, s.phase t ≠ .idle → ∃ e s', Step D.nodes s e s' ∧ ∀ u i, e ≠ .call u i) ∧
      ∀ t i is fs s', s.phase t = .calling i [] → D.Ancestry i is → Run (Step D.nodes) s fs s' →
        (∀ k, .call t k ∉ fs) → (fs.filter fun e => e.thread = t).length ≤ 2 * is.length := by
  refine ⟨fun t ht => progress h (fun u i hu => ?_) ht,
    fun t i is fs s' ht hi hrun hfs => path_steps hrun ht hi hfs⟩
  obtain ⟨is, his⟩ := hcalls u i hu
  obtain ⟨n, hn, -⟩ := his.height
  exact ⟨n, hn⟩

/-! ### Two namespaces -/

/-- `Http => "http"` and `HttpAuth(parent = Http) => "auth"`. -/
def httpNamespaces : Namespaces plainSyn Bool where
  defs child := if child then ⟨true, "HttpAuth".toList, some "Http".toList, "auth".toList⟩
    else ⟨true, "Http".toList, none, "http".toList⟩
  resolve (path : Text) := decide (path = "HttpAuth".toList)

theorem httpNamespaces_auth : httpNamespaces.Ancestry true [false, true] := by
  have htop : httpNamespaces.Ancestry false [false] := .top rfl
  have hchild := htop.child (i := true) rfl
  exact hchild

theorem httpAuth_called : Run (Step httpNamespaces.nodes) State.start [.call () true]
    (State.start.setPhase () (.calling true [])) :=
  .snoc .nil (.call true rfl)

theorem httpAuth_run : ∃ s, Run (Step httpNamespaces.nodes) State.start
    [.call () true, .work (), .work (), .work (),
      .done () true ["http".toList, "auth".toList]] s := by
  have hstart := httpAuth_called.snoc (.start (t := ()) (i := true) (j := false) rfl rfl rfl)
  have hroot := hstart.snoc (.root (t := ()) (i := false) rfl rfl)
  have hstore := hroot.snoc (.store (t := ()) (i := true) (j := false) rfl)
  exact ⟨_, hstore.snoc (.done (t := ()) rfl)⟩

theorem httpAuth_returns : ∃ is, httpNamespaces.Ancestry true is ∧
    ["http".toList, "auth".toList] = is.map fun j => (httpNamespaces.defs j).segment := by
  obtain ⟨s, hs⟩ := httpAuth_run
  exact path_returns hs (t := ()) (by simp)

theorem httpAuth_completes :
    ∃ e s', Step httpNamespaces.nodes (State.start.setPhase () (.calling true [])) e s' ∧
      ∀ u i, e ≠ .call u i := by
  refine (path_completes httpAuth_called fun t i h => ?_).1 () (by simp [State.setPhase])
  obtain ⟨-, rfl⟩ := Event.call.inj (List.mem_singleton.mp h)
  exact ⟨_, httpNamespaces_auth⟩

end Namespaces
end Macros
end ChalkMetrics
