/-
# Greedy packing

Items are packed, in order, into groups: an item joins the open group, with a
separator in front of it, unless that would make the group wider than `cap`;
then the group is closed and the item opens the next one (`place`, `pack`). The
result is a greedy packing (`greedy_pack`): nothing is lost or moved, no group is
wider than `cap` unless it is a single item, and no group has room for the item
that opens the next one. There is no other (`Greedy.unique`).

Key definitions: `Packing.pack`, `Packing.Greedy`.
-/
import Mathlib.Data.List.Chain

namespace Packing

variable {α : Type*} (size : α → ℕ) (sep cap : ℕ)

/-- The sizes of the items and of the separators between them. -/
def width : List α → ℕ
  | [] => 0
  | [a] => size a
  | a :: b :: l => size a + sep + width (b :: l)

/-- The groups that are closed, and the open one. -/
abbrev Placing (α : Type*) := List (List α) × List α

def place (s : Placing α) (a : α) : Placing α :=
  if s.2 ≠ [] ∧ cap < width size sep s.2 + sep + size a then (s.1 ++ [s.2], [a])
  else (s.1, s.2 ++ [a])

/-- The open group is closed unless it is empty. -/
def Placing.groups (s : Placing α) : List (List α) := if s.2 = [] then s.1 else s.1 ++ [s.2]

def pack (items : List α) : List (List α) := (items.foldl (place size sep cap) ([], [])).groups

structure Greedy (items : List α) (gs : List (List α)) : Prop where
  flatten : gs.flatten = items
  nonempty : [] ∉ gs
  fits : ∀ g ∈ gs, width size sep g ≤ cap ∨ ∃ a, g = [a]
  full : gs.IsChain fun g g' => ∀ a ∈ g'.head?, cap < width size sep g + sep + size a

variable {size sep cap}

theorem width_append {t : List α} (ht : t ≠ []) : ∀ {g : List α}, g ≠ [] →
    width size sep (g ++ t) = width size sep g + sep + width size sep t
  | [], h => absurd rfl h
  | [a], _ => by
    obtain ⟨b, t, rfl⟩ := List.exists_cons_of_ne_nil ht
    rfl
  | a :: b :: g, _ => by
    have ih := width_append ht (List.cons_ne_nil b g)
    rw [List.cons_append, List.cons_append, width, width, ← List.cons_append, ih]
    omega

theorem size_le_width (size : α → ℕ) (sep : ℕ) (a : α) : ∀ l : List α, size a ≤ width size sep (a :: l)
  | [] => le_refl _
  | b :: l => by
    rw [width]
    omega

/-! ### The packing is greedy -/

/-- The open group belongs to the packing of the items so far. -/
structure Placed (size : α → ℕ) (sep cap : ℕ) (items : List α) (s : Placing α) : Prop where
  greedy : Greedy size sep cap items s.groups
  empty : s.2 = [] → s.1 = []

theorem Placing.flatten_groups (s : Placing α) : s.groups.flatten = s.1.flatten ++ s.2 := by
  unfold Placing.groups
  split_ifs with h
  · rw [h, List.append_nil]
  · rw [List.flatten_append, List.flatten_singleton]

/-- The open group holds items. -/
theorem Placed.mem {items : List α} {s : Placing α} (h : Placed size sep cap items s) {a : α}
    (ha : a ∈ s.2) : a ∈ items := by
  rw [← h.greedy.flatten, s.flatten_groups]
  exact List.mem_append_right _ ha

theorem placed_nil : Placed size sep cap [] ([], []) :=
  ⟨⟨rfl, List.not_mem_nil, fun _ h => absurd h List.not_mem_nil, List.IsChain.nil⟩, fun _ => rfl⟩

/-- The first item opens the first group. -/
theorem placed_first (a : α) : Placed size sep cap [a] ([], [a]) := by
  refine ⟨⟨rfl, ?_, ?_, List.IsChain.singleton _⟩, fun h => absurd h (List.cons_ne_nil a [])⟩
  · simp [Placing.groups]
  · intro g hg
    right
    exact ⟨a, by simpa [Placing.groups] using hg⟩

/-- The item opens a group of its own. -/
theorem Placed.close {items group : List α} {closed : List (List α)}
    (h : Placed size sep cap items (closed, group)) (hg : group ≠ []) {a : α}
    (hroom : cap < width size sep group + sep + size a) :
    Placed size sep cap (items ++ [a]) (closed ++ [group], [a]) := by
  obtain ⟨hflat, hne, hfits, hfull⟩ := h.greedy
  simp only [Placing.groups, if_neg hg] at hflat hne hfits hfull
  refine ⟨?_, fun h => absurd h (List.cons_ne_nil a [])⟩
  rw [Placing.groups, if_neg (List.cons_ne_nil a [])]
  constructor
  · rw [List.flatten_append, hflat, List.flatten_singleton]
  · rw [List.mem_append, not_or]
    exact ⟨hne, by simp⟩
  · intro g hmem
    rcases List.mem_append.mp hmem with hmem | hmem
    · exact hfits g hmem
    · exact .inr ⟨a, List.mem_singleton.mp hmem⟩
  · apply hfull.append (List.IsChain.singleton _)
    intro g hlast g' hhead b hb
    obtain rfl : group = g := by simpa using hlast
    obtain rfl : [a] = g' := by simpa using hhead
    obtain rfl : a = b := by simpa using hb
    exact hroom

/-- The open group takes the item. -/
theorem Placed.join {items group : List α} {closed : List (List α)}
    (h : Placed size sep cap items (closed, group)) (hg : group ≠ []) {a : α}
    (hroom : width size sep group + sep + size a ≤ cap) :
    Placed size sep cap (items ++ [a]) (closed, group ++ [a]) := by
  obtain ⟨hflat, hne, hfits, hfull⟩ := h.greedy
  simp only [Placing.groups, if_neg hg] at hflat hne hfits hfull
  have hne' : group ++ [a] ≠ [] := by simp
  have hhead : (group ++ [a]).head? = group.head? := List.head?_append_of_ne_nil _ hg
  refine ⟨?_, fun h => absurd h hne'⟩
  rw [Placing.groups, if_neg hne']
  constructor
  · rw [← hflat]
    simp
  · rw [List.mem_append, not_or] at hne ⊢
    exact ⟨hne.1, by simp⟩
  · intro g hmem
    rcases List.mem_append.mp hmem with hmem | hmem
    · exact hfits g (List.mem_append_left _ hmem)
    · obtain rfl := List.mem_singleton.mp hmem
      left
      rwa [width_append (List.cons_ne_nil a []) hg]
  · rw [List.isChain_append] at hfull ⊢
    refine ⟨hfull.1, List.IsChain.singleton _, ?_⟩
    intro g hlast g' hg' b hb
    obtain rfl : group ++ [a] = g' := by simpa using hg'
    exact hfull.2.2 g hlast group (by simp) b (hhead ▸ hb)

theorem Placed.place {items : List α} {s : Placing α} (h : Placed size sep cap items s) (a : α) :
    Placed size sep cap (items ++ [a]) (place size sep cap s a) := by
  obtain ⟨closed, group⟩ := s
  by_cases hg : group = []
  · subst hg
    obtain rfl : closed = [] := h.empty rfl
    obtain rfl : items = [] := h.greedy.flatten.symm
    simpa [Packing.place] using placed_first a
  by_cases hroom : cap < width size sep group + sep + size a
  · rw [Packing.place, if_pos ⟨hg, hroom⟩]
    exact h.close hg hroom
  · rw [Packing.place, if_neg fun h => hroom h.2]
    exact h.join hg (not_lt.mp hroom)

theorem placed_foldl (items : List α) :
    Placed size sep cap items (items.foldl (Packing.place size sep cap) ([], [])) := by
  induction items using List.reverseRecOn with
  | nil => exact placed_nil
  | append_singleton items a ih =>
    rw [List.foldl_append]
    exact ih.place a

/-- **Packing is greedy.** -/
theorem greedy_pack (items : List α) : Greedy size sep cap items (pack size sep cap items) :=
  (placed_foldl items).greedy

/-! ### There is no other greedy packing -/

theorem Greedy.tail {items g : List α} {gs : List (List α)}
    (h : Greedy size sep cap items (g :: gs)) : Greedy size sep cap gs.flatten gs :=
  ⟨rfl, fun hn => h.nonempty (List.mem_cons_of_mem _ hn),
    fun g hg => h.fits g (List.mem_cons_of_mem _ hg), h.full.tail⟩

/-- A first group that is longer has room for an item more. -/
theorem Greedy.head_le {items items' g t : List α} {gs gs' : List (List α)}
    (h : Greedy size sep cap items (g :: gs)) (h' : Greedy size sep cap items' ((g ++ t) :: gs'))
    (hflat : gs.flatten = t ++ gs'.flatten) : t = [] := by
  by_contra ht
  obtain ⟨a, t, rfl⟩ := List.exists_cons_of_ne_nil ht
  have hg : g ≠ [] := fun h0 => h.nonempty (h0 ▸ List.mem_cons_self)
  rcases gs with _ | ⟨g₁, gs⟩
  · simp at hflat
  -- the next group starts with `a`
  have hfull := (List.isChain_cons_cons.mp h.full).1
  obtain ⟨b, g₁, rfl⟩ := List.exists_cons_of_ne_nil fun h0 : g₁ = [] =>
    h.nonempty (h0 ▸ List.mem_cons_of_mem _ List.mem_cons_self)
  obtain ⟨rfl, -⟩ : b = a ∧ _ := by simpa using hflat
  have hroom := hfull b rfl
  rcases h'.fits _ List.mem_cons_self with hfits | ⟨c, hc⟩
  · rw [width_append (List.cons_ne_nil b t) hg] at hfits
    have hsize := size_le_width size sep b t
    omega
  · have hlen := congrArg List.length hc
    rw [List.length_append, List.length_cons, List.length_singleton] at hlen
    have hpos := List.length_pos_iff.mpr hg
    omega

/-- **The greedy packing is unique.** -/
theorem Greedy.unique : ∀ {gs gs' : List (List α)} {items : List α},
    Greedy size sep cap items gs → Greedy size sep cap items gs' → gs = gs'
  | [], gs', items, h, h' => by
    obtain rfl : [] = items := h.flatten
    rcases gs' with _ | ⟨g', gs'⟩
    · rfl
    · obtain ⟨hg, -⟩ := List.append_eq_nil_iff.mp h'.flatten
      exact absurd List.mem_cons_self (hg ▸ h'.nonempty)
  | g :: gs, [], items, h, h' => by
    obtain rfl : [] = items := h'.flatten
    obtain ⟨hg, -⟩ := List.append_eq_nil_iff.mp h.flatten
    exact absurd List.mem_cons_self (hg ▸ h.nonempty)
  | g :: gs, g' :: gs', items, h, h' => by
    have hflat : g ++ gs.flatten = g' ++ gs'.flatten := h.flatten.trans h'.flatten.symm
    obtain rfl : g = g' := by
      rcases List.append_eq_append_iff.mp hflat with ⟨t, rfl, ht⟩ | ⟨t, rfl, ht⟩
      · rw [h.head_le h' ht, List.append_nil]
      · rw [h'.head_le h ht, List.append_nil]
    have htail : gs.flatten = gs'.flatten := List.append_cancel_left hflat
    rw [h.tail.unique (htail ▸ h'.tail)]

end Packing
