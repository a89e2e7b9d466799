/-
# A sorted association list by what it says

A list of bins is its set of keys and the count of each key: `Tally.list` writes
a tally out in order, and every list of bins comes from its tally
(`Tells.list_eq`). Adding to a bin is adding to a count (`Tells.add`), moving
the keys along a monotone function is adding up the counts over each fibre
(`Tells.map`).

Key definitions: `Tally`, `Tally.add`, `Tally.map`, `Tally.list`, `Tells`.
-/
import ChalkMetrics.Lib.Bins
import Mathlib.Algebra.BigOperators.Group.Finset.Basic
import Mathlib.Data.Finset.Sort

namespace Bins

/-- Keys with a count each, 0 off the keys. -/
structure Tally (K : Type*) where
  keys : Finset K
  count : K → ℕ

namespace Tally

variable {K L : Type*}

def empty : Tally K := ⟨∅, fun _ => 0⟩

/-- `n` more of `k`. -/
def add [DecidableEq K] (t : Tally K) (k : K) (n : ℕ) : Tally K :=
  ⟨insert k t.keys, Function.update t.count k (t.count k + n)⟩

@[simp] theorem count_add [DecidableEq K] (t : Tally K) (k : K) (n : ℕ) :
    (t.add k n).count = Function.update t.count k (t.count k + n) := rfl

/-- Every key moved along `f`, the counts of those that meet added up. -/
def map [DecidableEq L] (f : K → L) (t : Tally K) : Tally L :=
  ⟨t.keys.image f, fun y => ∑ k ∈ t.keys with f k = y, t.count k⟩

/-- The keys in order, with their counts. -/
def list [LinearOrder K] (t : Tally K) : List (K × ℕ) :=
  (t.keys.sort (· ≤ ·)).map fun k => (k, t.count k)

end Tally

variable {K L : Type*} [LinearOrder K] [LinearOrder L]

/-- `l` has the keys of `t` and their counts. -/
structure Tells (l : List (K × ℕ)) (t : Tally K) : Prop where
  keys : (keys l).toFinset = t.keys
  count : ∀ k, countAt k l = t.count k

theorem tells_nil : Tells ([] : List (K × ℕ)) Tally.empty := ⟨rfl, fun _ => rfl⟩

theorem map_countAt {l : List (K × ℕ)} (h : Ascending l) :
    (keys l).map (fun k => (k, countAt k l)) = l := by
  induction l with
  | nil => rfl
  | cons p l ih =>
    obtain ⟨k, c⟩ := p
    obtain ⟨hk, hl⟩ := ascending_cons.mp h
    have htail : (keys l).map (fun x => (x, countAt x ((k, c) :: l))) = l := by
      refine Eq.trans (List.map_congr_left fun x hx => ?_) (ih hl)
      rw [countAt, if_neg (hk x hx).ne']
    rw [keys_cons, List.map_cons, htail, countAt, if_pos rfl]

theorem Tally.list_eq_map {t : Tally K} (ks : List K) (hks : t.keys = ks.toFinset)
    (h : ks.Pairwise (· < ·)) : t.list = ks.map fun k => (k, t.count k) := by
  have hsort : ks.toFinset.sort (· ≤ ·) = ks :=
    (List.toFinset_sort (· ≤ ·) (h.imp ne_of_lt)).mpr (h.imp le_of_lt)
  unfold Tally.list
  rw [hks, hsort]

/-- A list of bins is its tally, written out. -/
theorem Tells.list_eq {l : List (K × ℕ)} {t : Tally K} (h : Tells l t) (hl : Ascending l) :
    t.list = l := by
  rw [Tally.list_eq_map (Bins.keys l) h.keys.symm hl]
  refine Eq.trans (List.map_congr_left fun k _ => ?_) (map_countAt hl)
  rw [h.count]

theorem countAt_bump {l : List (K × ℕ)} (h : Ascending l) (k : K) (n : ℕ) (x : K) :
    countAt x (bump k n l) = (if k = x then n else 0) + countAt x l := by
  rw [(h.bump k n).countAt_eq, (expand_bump k n l).count_eq, List.count_append, List.count_replicate,
    h.countAt_eq]
  simp only [beq_iff_eq]

/-- **Adding to a bin** adds to the count. -/
theorem Tells.add {l : List (K × ℕ)} {t : Tally K} (h : Tells l t) (hl : Ascending l) (k : K)
    (n : ℕ) : Tells (bump k n l) (t.add k n) where
  keys := by
    ext x
    rw [List.mem_toFinset, mem_keys_bump, Tally.add, Finset.mem_insert, ← h.keys, List.mem_toFinset]
  count x := by
    rw [countAt_bump hl, Tally.count_add, h.count]
    by_cases hx : x = k
    · subst hx
      rw [if_pos rfl, Function.update_self, Nat.add_comm]
    · rw [if_neg (Ne.symm hx), Function.update_of_ne hx, Nat.zero_add]

omit [LinearOrder L] in
/-- The copies that `f` takes to `y`, by their keys. -/
theorem count_map_expand [DecidableEq L] (f : K → L) (y : L) {l : List (K × ℕ)} (h : Ascending l) :
    ((expand l).map f).count y = ∑ k ∈ (keys l).toFinset with f k = y, countAt k l := by
  rw [Finset.sum_filter]
  induction l with
  | nil => rfl
  | cons p l ih =>
    obtain ⟨k, c⟩ := p
    obtain ⟨hk, hl⟩ := ascending_cons.mp h
    have hnot : k ∉ (keys l).toFinset := fun hmem => lt_irrefl k (hk k (List.mem_toFinset.mp hmem))
    have htail : ∀ x ∈ (keys l).toFinset, countAt x ((k, c) :: l) = countAt x l := fun x hx => by
      rw [countAt, if_neg (hk x (List.mem_toFinset.mp hx)).ne']
    rw [keys_cons, List.toFinset_cons, Finset.sum_insert hnot, countAt, if_pos rfl, expand_cons,
      List.map_append, List.map_replicate, List.count_append, List.count_replicate, ih hl]
    simp only [beq_iff_eq]
    congr 1
    exact Finset.sum_congr rfl fun x hx => by rw [htail x hx]

/-- **Moving the keys along a monotone function** adds up the counts of those that meet. -/
theorem Tells.map {f : K → L} (hf : Monotone f) {l : List (K × ℕ)} {t : Tally K} (h : Tells l t)
    (hl : Ascending l) : Tells (regroup f l) (t.map f) where
  keys := by
    ext y
    rw [List.mem_toFinset, mem_keys_regroup, Tally.map, Finset.mem_image, ← h.keys]
    simp only [List.mem_toFinset]
  count y := by
    rw [(hl.regroup fun a _ b _ hab => hf hab).countAt_eq, expand_regroup, count_map_expand f y hl,
      Tally.map, h.keys]
    exact Finset.sum_congr rfl fun k _ => h.count k

end Bins
