/-
# The sketch's ordered hash map

`SketchHashMap` threads a linked list of its keys through a hash map. Its
operations are modelled on the map as the source writes them: a lookup of a
missing key, the `expect` on the insertion point and a walk over more keys
than the map holds (a cycle, on which the source would not return) are `none`.

`Holds s l` says that the list from `head` is the bins `l` and that the map
holds nothing else. Every operation keeps it and never fails: `iter` reads `l`
(`Holds.iter`), adding to an entry is `Bins.bump` (`Holds.addCount`) and
`compact` is `Bins.regroup` along `compactKey` (`Holds.compact`).
-/
import ChalkMetrics.Lib.Bins
import ChalkMetrics.Sketch.Key
import Mathlib.Data.Finmap

namespace ChalkMetrics

open SketchHashKey

structure SketchHashEntry where
  count : ℕ
  next : SketchHashKey
deriving DecidableEq

/-- `HashMap<SketchHashKey, SketchHashEntry>`. -/
abbrev EntryMap := Finmap fun _ : SketchHashKey => SketchHashEntry

structure SketchHashMap where
  map : EntryMap
  head : SketchHashKey

namespace SketchHashMap

def new : SketchHashMap := ⟨∅, .invalid⟩

def len (s : SketchHashMap) : ℕ := s.map.keys.card

/-- `SketchHashIterator::next` from `key` until it returns `None`, over at most
`n` keys. -/
def walk (m : EntryMap) : ℕ → SketchHashKey → Option (List (SketchHashKey × ℕ))
  | _, .invalid => some []
  | 0, _ => none
  | n + 1, key => do
    let e ← m.lookup key
    let rest ← walk m n e.next
    return (key, e.count) :: rest

def iter (s : SketchHashMap) : Option (List (SketchHashKey × ℕ)) := walk s.map s.len s.head

/-- `while key > next { prev = next; next = self.map[&next].next; }`, at most
`n` times. -/
def seek (m : EntryMap) (key : SketchHashKey) :
    ℕ → SketchHashKey → SketchHashKey → Option (SketchHashKey × SketchHashKey)
  | 0, prev, next => if partialCmp key next = .gt then none else some (prev, next)
  | n + 1, prev, next =>
    if partialCmp key next = .gt then do
      let e ← m.lookup next
      seek m key n next e.next
    else some (prev, next)

/-- `entry`: the map with an entry for `key`. -/
def entry (s : SketchHashMap) (key : SketchHashKey) : Option SketchHashMap :=
  if key ∈ s.map then some s
  else if partialCmp key s.head = .lt then some ⟨s.map.insert key ⟨0, s.head⟩, key⟩
  else do
    let (prev, next) ← seek s.map key s.len .invalid s.head
    let e ← s.map.lookup prev
    return ⟨(s.map.insert prev { e with next := key }).insert key ⟨0, next⟩, s.head⟩

/-- `self.entry(key).count += n`. -/
def addCount (s : SketchHashMap) (key : SketchHashKey) (n : ℕ) : Option SketchHashMap := do
  let s ← s.entry key
  let e ← s.map.lookup key
  return { s with map := s.map.insert key { e with count := e.count + n } }

def increment (s : SketchHashMap) (key : SketchHashKey) : Option SketchHashMap := s.addCount key 1

/-- The loop of `compact` from `target`, over at most `n` keys: `old` is the map
taken, `m` the one being built. -/
def compactLoop (old : EntryMap) : ℕ → SketchHashKey → EntryMap → Option EntryMap
  | _, .invalid, m => some m
  | 0, _, _ => none
  | n + 1, target, m => do
    let oldEntry ← old.lookup target
    let newKey := target.compactKey
    let newNext ←
      if oldEntry.next.compactKey = newKey then
        (old.lookup oldEntry.next).map fun e => e.next.compactKey
      else some oldEntry.next.compactKey
    let e := (m.lookup newKey).getD ⟨0, newNext⟩
    compactLoop old n oldEntry.next (m.insert newKey { e with count := e.count + oldEntry.count })

def compact (s : SketchHashMap) : Option SketchHashMap := do
  let m ← compactLoop s.map s.len s.head ∅
  return ⟨m, s.head.compactKey⟩

/-! ### The list in the map -/

/-- The first key of `l`, `nxt` if there is none. -/
def headOr (nxt : SketchHashKey) : List (SketchHashKey × ℕ) → SketchHashKey
  | [] => nxt
  | (k, _) :: _ => k

@[simp] theorem headOr_nil (nxt) : headOr nxt [] = nxt := rfl
@[simp] theorem headOr_cons (nxt k c l) : headOr nxt ((k, c) :: l) = k := rfl

theorem headOr_append (nxt) : ∀ l l' : List (SketchHashKey × ℕ),
    headOr nxt (l ++ l') = headOr (headOr nxt l') l
  | [], _ => rfl
  | _ :: _, _ => rfl

theorem headOr_mem {nxt} {l : List (SketchHashKey × ℕ)} (h : l ≠ []) :
    headOr nxt l ∈ Bins.keys l := by
  obtain ⟨_, _, rfl⟩ := List.exists_cons_of_ne_nil h
  exact List.mem_cons_self

/-- The entries of `l` are linked in order, the last to `nxt`. -/
def LinkedTo (m : EntryMap) (nxt : SketchHashKey) : List (SketchHashKey × ℕ) → Prop
  | [] => True
  | (k, c) :: l => m.lookup k = some ⟨c, headOr nxt l⟩ ∧ LinkedTo m nxt l

@[simp] theorem linkedTo_nil (m nxt) : LinkedTo m nxt [] := trivial

@[simp] theorem linkedTo_cons (m nxt k c l) : LinkedTo m nxt ((k, c) :: l) ↔
    m.lookup k = some ⟨c, headOr nxt l⟩ ∧ LinkedTo m nxt l := Iff.rfl

theorem linkedTo_append (m nxt) : ∀ l l' : List (SketchHashKey × ℕ),
    LinkedTo m nxt (l ++ l') ↔ LinkedTo m (headOr nxt l') l ∧ LinkedTo m nxt l'
  | [], _ => by simp
  | (k, c) :: l, l' => by
    rw [List.cons_append, linkedTo_cons, linkedTo_cons, linkedTo_append m nxt l l', headOr_append,
      and_assoc]

/-- Entries of other keys do not matter. -/
theorem LinkedTo.congr {m m' : EntryMap} {nxt} : ∀ {l : List (SketchHashKey × ℕ)},
    LinkedTo m nxt l → (∀ k ∈ Bins.keys l, m'.lookup k = m.lookup k) → LinkedTo m' nxt l
  | [], _, _ => trivial
  | (_, _) :: _, h, hm =>
    ⟨(hm _ List.mem_cons_self).trans h.1, h.2.congr fun k' hk' => hm k' (List.mem_cons_of_mem _ hk')⟩

theorem LinkedTo.insert {m : EntryMap} {nxt k : SketchHashKey} {e : SketchHashEntry}
    {l : List (SketchHashKey × ℕ)} (h : LinkedTo m nxt l) (hne : ∀ x ∈ Bins.keys l, x ≠ k) :
    LinkedTo (m.insert k e) nxt l :=
  h.congr fun x hx => Finmap.lookup_insert_of_ne _ (hne x hx)

/-- The map is the linked list `l`. -/
structure Holds (s : SketchHashMap) (l : List (SketchHashKey × ℕ)) : Prop where
  head : s.head = headOr .invalid l
  linked : LinkedTo s.map .invalid l
  dom : ∀ k, k ∈ s.map ↔ k ∈ Bins.keys l
  ascending : Bins.Ascending l
  valid : .invalid ∉ Bins.keys l

theorem holds_new : Holds new [] where
  head := rfl
  linked := trivial
  dom _ := ⟨fun h => absurd h Finmap.notMem_empty, fun h => absurd h List.not_mem_nil⟩
  ascending := Bins.ascending_nil
  valid := List.not_mem_nil

theorem Holds.len {s : SketchHashMap} {l} (h : Holds s l) : s.len = l.length := by
  rw [h.ascending.length_eq_card, SketchHashMap.len]
  congr 1
  ext k
  rw [Finmap.mem_keys, h.dom, List.mem_toFinset]

theorem walk_eq {m : EntryMap} : ∀ {l : List (SketchHashKey × ℕ)}, LinkedTo m .invalid l →
    .invalid ∉ Bins.keys l → walk m l.length (headOr .invalid l) = some l
  | [], _, _ => by simp [walk]
  | (k, c) :: l, h, hv => by
    have hk : k ≠ .invalid := fun hk => hv (hk ▸ List.mem_cons_self)
    have ih := walk_eq h.2 fun h' => hv (List.mem_cons_of_mem _ h')
    rw [headOr_cons, List.length_cons, walk.eq_3 _ _ _ hk, h.1]
    simp [ih]

/-- **`iter` reads the list.** -/
theorem Holds.iter {s : SketchHashMap} {l} (h : Holds s l) : s.iter = some l := by
  rw [SketchHashMap.iter, h.len, h.head]
  exact walk_eq h.linked h.valid

/-! ### Adding to an entry -/

/-- The walk stops between the keys below `key` and those above. -/
theorem seek_eq {m : EntryMap} {key nxt : SketchHashKey} (hn : ¬ nxt < key) :
    ∀ {l : List (SketchHashKey × ℕ)} {n : ℕ} (prev : SketchHashKey), LinkedTo m nxt l →
      (∀ x ∈ Bins.keys l, x < key) → l.length ≤ n →
      seek m key n prev (headOr nxt l) = some ((Bins.keys l).getLastD prev, nxt)
  | [], n, prev, _, _, _ => by
    have : partialCmp key nxt ≠ .gt := fun h => hn ((partialCmp_gt _ _).mp h)
    cases n <;> simp [seek, this]
  | (k, c) :: l, 0, _, _, _, h => by simp at h
  | (k, c) :: l, n + 1, prev, hl, hlt, hlen => by
    have hk : partialCmp key k = .gt := (partialCmp_gt _ _).mpr (hlt k List.mem_cons_self)
    rw [headOr_cons, seek, if_pos hk, hl.1]
    simp only [Option.bind_eq_bind, Option.bind_some]
    rw [seek_eq hn k hl.2 (fun x hx => hlt x (List.mem_cons_of_mem _ hx)) (by simpa using hlen)]
    rw [Bins.keys_cons, List.getLastD_cons]

/-- A key that is not there goes between those below and those above. -/
theorem Holds.keys_between {s : SketchHashMap} {l₁ l₂ : List (SketchHashKey × ℕ)}
    {key : SketchHashKey} (h : Holds s (l₁ ++ l₂)) (hv : key ≠ .invalid)
    (h₁ : ∀ x ∈ Bins.keys l₁, x < key) (h₂ : ∀ x ∈ Bins.keys l₂, key < x) :
    key ∉ s.map ∧ Bins.Ascending (l₁ ++ (key, 0) :: l₂) ∧
      .invalid ∉ Bins.keys (l₁ ++ (key, 0) :: l₂) ∧
        ∀ x, x ∈ Bins.keys (l₁ ++ (key, 0) :: l₂) ↔ x = key ∨ x ∈ s.map := by
  have hbump := Bins.bump_append 0 h₁ h₂
  have hkeys : ∀ x, x ∈ Bins.keys (l₁ ++ (key, 0) :: l₂) ↔ x = key ∨ x ∈ s.map := by
    intro x
    rw [← hbump, h.dom]
    exact Bins.mem_keys_bump key 0 _ x
  refine ⟨fun hm => ?_, hbump ▸ h.ascending.bump key 0, fun hx => ?_, hkeys⟩
  · have hmem := (h.dom key).mp hm
    rw [Bins.keys, List.map_append, List.mem_append] at hmem
    rcases hmem with hx | hx
    · exact lt_irrefl _ (h₁ _ hx)
    · exact lt_irrefl _ (h₂ _ hx)
  · exact ((hkeys _).mp hx).elim (fun he => hv he.symm) fun hm => h.valid ((h.dom _).mp hm)

/-- What is linked behind `key` is above it. -/
theorem lt_headOr {key : SketchHashKey} {l : List (SketchHashKey × ℕ)} (hv : key ≠ .invalid)
    (h : ∀ x ∈ Bins.keys l, key < x) : key < headOr .invalid l := by
  rcases eq_or_ne l [] with rfl | hne
  · exact lt_invalid hv
  · exact h _ (headOr_mem hne)

/-- The new key is the least. -/
theorem Holds.entry_least {s : SketchHashMap} {l : List (SketchHashKey × ℕ)} {key : SketchHashKey}
    (h : Holds s l) (hv : key ≠ .invalid) (hl : ∀ x ∈ Bins.keys l, key < x) :
    ∃ s', s.entry key = some s' ∧ Holds s' ((key, 0) :: l) := by
  have h' : Holds s ([] ++ l) := h
  obtain ⟨hnot, hasc, hval, hkeys⟩ := h'.keys_between hv nofun hl
  have hhead : partialCmp key s.head = .lt := by
    rw [partialCmp_lt, h.head]
    exact lt_headOr hv hl
  rw [SketchHashMap.entry, if_neg hnot, if_pos hhead]
  refine ⟨_, rfl, ?_⟩
  refine { head := rfl, linked := ⟨?_, ?_⟩, dom := fun k => ?_, ascending := hasc, valid := hval }
  · rw [Finmap.lookup_insert, h.head]
  · exact h.linked.insert fun x hx => (hl x hx).ne'
  · rw [Finmap.mem_insert]
    exact (hkeys k).symm

/-- The new key goes after `p`. -/
theorem Holds.entry_after {s : SketchHashMap} {l₀ l₂ : List (SketchHashKey × ℕ)}
    {key p : SketchHashKey} {c : ℕ} (h : Holds s (l₀ ++ [(p, c)] ++ l₂)) (hv : key ≠ .invalid)
    (h₁ : ∀ x ∈ Bins.keys (l₀ ++ [(p, c)]), x < key) (h₂ : ∀ x ∈ Bins.keys l₂, key < x) :
    ∃ s', s.entry key = some s' ∧ Holds s' (l₀ ++ [(p, c)] ++ (key, 0) :: l₂) := by
  obtain ⟨hnot, hasc, hval, hkeys⟩ := h.keys_between hv h₁ h₂
  obtain ⟨hl₁, hl₂⟩ := (linkedTo_append _ _ _ _).mp h.linked
  obtain ⟨hl₀, hpc, -⟩ := (linkedTo_append _ _ _ _).mp hl₁
  simp only [headOr_nil] at hpc
  have hp : p < key := h₁ p (by simp [Bins.keys])
  have hsorted := h.ascending
  unfold Bins.Ascending at hsorted
  simp only [Bins.keys, List.map_append, List.pairwise_append, List.mem_append] at hsorted
  have hlt₀ : ∀ x ∈ Bins.keys l₀, x < p := fun x hx => hsorted.1.2.2 x hx p (by simp)
  have hhead : s.head ≤ p := by
    rw [h.head, List.append_assoc, headOr_append]
    rcases l₀ with _ | ⟨⟨k₀, c₀⟩, l₀⟩
    · exact le_rfl
    · exact (hlt₀ k₀ List.mem_cons_self).le
  have hnlt : partialCmp key s.head ≠ .lt := fun hlt =>
    absurd (((partialCmp_lt _ _).mp hlt).trans_le (hhead.trans hp.le)) (lt_irrefl _)
  have hseek : seek s.map key s.len .invalid s.head = some (p, headOr .invalid l₂) := by
    rw [h.head, headOr_append, seek_eq (lt_headOr hv h₂).not_gt _ hl₁ h₁ (by rw [h.len]; simp)]
    simp [Bins.keys]
  rw [SketchHashMap.entry, if_neg hnot, if_neg hnlt, hseek]
  simp only [Option.bind_eq_bind, Option.bind_some, hpc]
  refine ⟨_, rfl, ?_⟩
  refine { head := ?_, linked := ?_, dom := fun k => ?_, ascending := hasc, valid := hval }
  · change s.head = _
    rw [h.head]
    simp only [headOr_append, headOr_cons]
  · refine (linkedTo_append _ _ _ _).mpr ⟨(linkedTo_append _ _ _ _).mpr ⟨?_, ?_, trivial⟩, ?_, ?_⟩
    · exact (hl₀.insert fun x hx => (hlt₀ x hx).ne).insert fun x hx => ((hlt₀ x hx).trans hp).ne
    · rw [Finmap.lookup_insert_of_ne _ hp.ne, Finmap.lookup_insert]
      rfl
    · rw [Finmap.lookup_insert]
    · exact (hl₂.insert fun x hx => (hp.trans (h₂ x hx)).ne').insert fun x hx => (h₂ x hx).ne'
  · have hpmem : p ∈ s.map := (h.dom p).mpr (by simp [Bins.keys])
    rw [Finmap.mem_insert, Finmap.mem_insert, hkeys]
    constructor
    · rintro (rfl | rfl | hk)
      · exact .inl rfl
      · exact .inr hpmem
      · exact .inr hk
    · exact fun hk => hk.imp_right .inr

theorem Holds.entry_absent {s : SketchHashMap} {l₁ l₂ : List (SketchHashKey × ℕ)}
    {key : SketchHashKey} (h : Holds s (l₁ ++ l₂)) (hv : key ≠ .invalid)
    (h₁ : ∀ x ∈ Bins.keys l₁, x < key) (h₂ : ∀ x ∈ Bins.keys l₂, key < x) :
    ∃ s', s.entry key = some s' ∧ Holds s' (l₁ ++ (key, 0) :: l₂) := by
  rcases List.eq_nil_or_concat l₁ with rfl | ⟨l₀, ⟨p, c⟩, rfl⟩
  · exact h.entry_least hv h₂
  · rw [List.concat_eq_append] at *
    exact h.entry_after hv h₁ h₂

/-- Adding to an entry that is there. -/
theorem Holds.addCount_present {s : SketchHashMap} {l₁ l₂ : List (SketchHashKey × ℕ)}
    {key : SketchHashKey} {c : ℕ} (h : Holds s (l₁ ++ (key, c) :: l₂)) (n : ℕ) :
    ∃ m, (do let e ← s.map.lookup key
             return ({ s with map := s.map.insert key { e with count := e.count + n } } :
               SketchHashMap)) = some m ∧ Holds m (l₁ ++ (key, c + n) :: l₂) := by
  obtain ⟨hl₁, hk, hl₂⟩ := (linkedTo_append _ _ _ _).mp h.linked
  have hnd := h.ascending.nodup
  simp only [Bins.keys, List.map_append, List.map_cons] at hnd
  have hnot := List.nodup_middle.mp hnd |> List.nodup_cons.mp |>.1
  have hne : ∀ x, x ∈ Bins.keys l₁ ∨ x ∈ Bins.keys l₂ → x ≠ key := by
    rintro x hx rfl
    exact hnot (List.mem_append.mpr hx)
  rw [hk]
  refine ⟨_, rfl, ?_⟩
  have hkeys : Bins.keys (l₁ ++ (key, c + n) :: l₂) = Bins.keys (l₁ ++ (key, c) :: l₂) := by
    simp [Bins.keys]
  refine { head := ?_, linked := ?_, dom := fun k => ?_, ascending := ?_, valid := hkeys ▸ h.valid }
  · rw [h.head, headOr_append, headOr_append]; rfl
  · refine (linkedTo_append _ _ _ _).mpr ⟨?_, ?_, ?_⟩
    · exact hl₁.insert fun k hk => hne k (.inl hk)
    · rw [Finmap.lookup_insert]
    · exact hl₂.insert fun k hk => hne k (.inr hk)
  · rw [hkeys, Finmap.mem_insert, h.dom]
    have : k = key → k ∈ Bins.keys (l₁ ++ (key, c) :: l₂) := by rintro rfl; simp [Bins.keys]
    tauto
  · unfold Bins.Ascending; rw [hkeys]; exact h.ascending

/-- **Adding to an entry adds to its bin.** -/
theorem Holds.addCount {s : SketchHashMap} {l} (h : Holds s l) {key : SketchHashKey}
    (hv : key ≠ .invalid) (n : ℕ) :
    ∃ s', s.addCount key n = some s' ∧ Holds s' (Bins.bump key n l) := by
  obtain ⟨l₁, l₂, h₁, h₂, rfl | ⟨c, rfl⟩⟩ := h.ascending.split key
  · obtain ⟨s₁, e₁, H₁⟩ := h.entry_absent hv h₁ h₂
    obtain ⟨s₂, e₂, H₂⟩ := H₁.addCount_present n
    refine ⟨s₂, ?_, ?_⟩
    · rw [SketchHashMap.addCount, e₁]; exact e₂
    · rw [Bins.bump_append n h₁ h₂]; simpa using H₂
  · obtain ⟨s₂, e₂, H₂⟩ := h.addCount_present n
    have hmem : key ∈ s.map := (h.dom key).mpr (by simp [Bins.keys])
    refine ⟨s₂, ?_, ?_⟩
    · rw [SketchHashMap.addCount, SketchHashMap.entry, if_pos hmem]; exact e₂
    · rw [Bins.bump_append_of_mem n c l₂ h₁]; exact H₂

/-! ### Compaction -/

/-- A round at a key that does not merge with the next. -/
theorem compactLoop_single {old m : EntryMap} {n : ℕ} {k nxt : SketchHashKey} {c : ℕ}
    (hk : k ≠ .invalid) (hl : old.lookup k = some ⟨c, nxt⟩) (hn : compactKey nxt ≠ compactKey k) :
    compactLoop old (n + 1) k m = compactLoop old n nxt
      (let e := (m.lookup (compactKey k)).getD ⟨0, compactKey nxt⟩
       m.insert (compactKey k) { e with count := e.count + c }) := by
  rw [compactLoop.eq_3 _ _ _ _ hk, hl]
  simp only [Option.bind_eq_bind, Option.bind_some, if_neg hn]

/-- A round at a key that merges with the next: the entry is linked past it. -/
theorem compactLoop_pair {old m : EntryMap} {n : ℕ} {k k' nxt : SketchHashKey} {c c' : ℕ}
    (hk : k ≠ .invalid) (hl : old.lookup k = some ⟨c, k'⟩) (hl' : old.lookup k' = some ⟨c', nxt⟩)
    (hn : compactKey k' = compactKey k) :
    compactLoop old (n + 1) k m = compactLoop old n k'
      (let e := (m.lookup (compactKey k)).getD ⟨0, compactKey nxt⟩
       m.insert (compactKey k) { e with count := e.count + c }) := by
  rw [compactLoop.eq_3 _ _ _ _ hk, hl]
  simp only [Option.bind_eq_bind, Option.bind_some, if_pos hn, hl', Option.map_some]

theorem headOr_regroup : ∀ l : List (SketchHashKey × ℕ),
    headOr .invalid (Bins.regroup compactKey l) = compactKey (headOr .invalid l)
  | [] => rfl
  | (k, c) :: l => by
    have h := Bins.head_regroup compactKey k c l
    rcases hr : Bins.regroup compactKey ((k, c) :: l) with _ | ⟨⟨k', c'⟩, m⟩
    · rw [hr] at h; simp at h
    · rw [hr] at h
      simpa using h

theorem compactKey_headOr_ne {k : SketchHashKey} {l : List (SketchHashKey × ℕ)}
    (hk : k ≠ .invalid) (h : ∀ x ∈ Bins.keys l, compactKey x ≠ compactKey k) :
    compactKey (headOr .invalid l) ≠ compactKey k := by
  rcases eq_or_ne l [] with rfl | hne
  · exact fun he => hk (compactKey_eq_invalid.mp he.symm)
  · exact h _ (headOr_mem hne)

/-- What the loop makes of the keys of `l` from the map `m` on: it links the
merged bins and leaves the other entries alone. -/
def Links (old : EntryMap) (n : ℕ) (l : List (SketchHashKey × ℕ)) (m : EntryMap) : Prop :=
  ∃ m', compactLoop old n (headOr .invalid l) m = some m' ∧
    LinkedTo m' .invalid (Bins.regroup compactKey l) ∧
      ∀ k, k ∉ Bins.keys (Bins.regroup compactKey l) → m'.lookup k = m.lookup k

theorem links_nil (old : EntryMap) (n : ℕ) (m : EntryMap) : Links old n [] m :=
  ⟨m, by cases n <;> rfl, trivial, fun _ _ => rfl⟩

section

variable {old m : EntryMap} {n : ℕ} {k k' : SketchHashKey} {c c' : ℕ} {l : List (SketchHashKey × ℕ)}

theorem not_mem_regroup (hne : ∀ x ∈ Bins.keys l, compactKey k ≠ compactKey x) :
    compactKey k ∉ Bins.keys (Bins.regroup compactKey l) := fun h => by
  obtain ⟨x, hx, he⟩ := (Bins.mem_keys_regroup _ _ _).mp h
  exact hne x hx he.symm

/-- The key keeps to itself. -/
theorem Links.single (hk : k ≠ .invalid) (hl : old.lookup k = some ⟨c, headOr .invalid l⟩)
    (hm : m.lookup (compactKey k) = none) (hne : ∀ x ∈ Bins.keys l, compactKey k ≠ compactKey x)
    (h : Links old n l (m.insert (compactKey k) ⟨c, compactKey (headOr .invalid l)⟩)) :
    Links old (n + 1) ((k, c) :: l) m := by
  obtain ⟨m', e, hL, hK⟩ := h
  have hn := compactKey_headOr_ne hk fun x hx => (hne x hx).symm
  refine ⟨m', ?_, ?_, fun x hx => ?_⟩
  · rw [headOr_cons, compactLoop_single hk hl hn, hm]
    simp only [Option.getD_none, Nat.zero_add]
    exact e
  · rw [Bins.regroup_single c hne]
    refine ⟨?_, hL⟩
    rw [hK _ (not_mem_regroup hne), Finmap.lookup_insert, headOr_regroup]
  · rw [Bins.regroup_single c hne, Bins.keys_cons, List.mem_cons, not_or] at hx
    rw [hK x hx.2, Finmap.lookup_insert_of_ne _ hx.1]

/-- It merges with the next, and that one with no third. -/
theorem Links.pair (hk : k ≠ .invalid) (hk' : k' ≠ .invalid) (hl : old.lookup k = some ⟨c, k'⟩)
    (hl' : old.lookup k' = some ⟨c', headOr .invalid l⟩) (hm : m.lookup (compactKey k) = none)
    (heq : compactKey k = compactKey k') (hne : ∀ x ∈ Bins.keys l, compactKey k' ≠ compactKey x)
    (h : Links old n l (m.insert (compactKey k) ⟨c + c', compactKey (headOr .invalid l)⟩)) :
    Links old (n + 2) ((k, c) :: (k', c') :: l) m := by
  obtain ⟨m', e, hL, hK⟩ := h
  have hn := compactKey_headOr_ne hk' fun x hx => (hne x hx).symm
  refine ⟨m', ?_, ?_, fun x hx => ?_⟩
  · rw [headOr_cons, compactLoop_pair hk hl hl' heq.symm, hm, compactLoop_single hk' hl' hn, ← heq]
    simp only [Option.getD_none, Nat.zero_add, Finmap.lookup_insert, Option.getD_some,
      Finmap.insert_insert]
    exact e
  · rw [Bins.regroup_pair c c' heq hne]
    refine ⟨?_, hL⟩
    rw [hK _ (heq ▸ not_mem_regroup hne), Finmap.lookup_insert, headOr_regroup]
  · rw [Bins.regroup_pair c c' heq hne, Bins.keys_cons, List.mem_cons, not_or] at hx
    rw [hK x hx.2, Finmap.lookup_insert_of_ne _ hx.1]

end

theorem compactLoop_eq {old : EntryMap} (n : ℕ) : ∀ (l : List (SketchHashKey × ℕ)) (m : EntryMap),
    LinkedTo old .invalid l → Bins.Ascending l → .invalid ∉ Bins.keys l → l.length ≤ n →
    (∀ k ∈ Bins.keys l, m.lookup (compactKey k) = none) → Links old n l m := by
  induction n using Nat.strongRecOn with
  | _ n ih =>
  rintro (_ | ⟨⟨k, c⟩, l⟩) m hl hasc hv hlen hm
  · exact links_nil old n m
  obtain ⟨hlt, hasc'⟩ := Bins.ascending_cons.mp hasc
  obtain ⟨hlk, hl'⟩ := hl
  have hk : k ≠ .invalid := fun h => hv (h ▸ List.mem_cons_self)
  have hv' : .invalid ∉ Bins.keys l := fun h => hv (List.mem_cons_of_mem _ h)
  have hmk : m.lookup (compactKey k) = none := hm k List.mem_cons_self
  by_cases hne : ∀ x ∈ Bins.keys l, compactKey k ≠ compactKey x
  · obtain ⟨n, rfl⟩ : ∃ n', n = n' + 1 := ⟨n - 1, by simp at hlen; omega⟩
    refine Links.single hk hlk hmk hne (ih n (by omega) l _ hl' hasc' hv' (by simpa using hlen) ?_)
    intro x hx
    rw [Finmap.lookup_insert_of_ne _ (hne x hx).symm]
    exact hm x (List.mem_cons_of_mem _ hx)
  · push Not at hne
    obtain ⟨x, hx, hkx⟩ := hne
    rcases l with _ | ⟨⟨k', c'⟩, l⟩
    · cases hx
    obtain ⟨hlt', hasc''⟩ := Bins.ascending_cons.mp hasc'
    obtain ⟨hlk', hl''⟩ := hl'
    have hkk : k < k' := hlt k' List.mem_cons_self
    have heq : compactKey k = compactKey k' := by
      rcases List.mem_cons.mp hx with rfl | hx
      · exact hkx
      · exact le_antisymm (compactKey_mono hkk.le) (hkx ▸ compactKey_mono (hlt' x hx).le)
    have hne' : ∀ y ∈ Bins.keys l, compactKey k' ≠ compactKey y := fun y hy =>
      compactKey_pair hkk (hlt' y hy) heq
    have hk' : k' ≠ .invalid := fun h => hv' (h ▸ List.mem_cons_self)
    obtain ⟨n, rfl⟩ : ∃ n', n = n' + 2 := ⟨n - 2, by simp at hlen; omega⟩
    refine Links.pair hk hk' hlk hlk' hmk heq hne' (ih n (by omega) l _ hl'' hasc''
      (fun h => hv' (List.mem_cons_of_mem _ h)) (by simpa using hlen) ?_)
    intro y hy
    rw [Finmap.lookup_insert_of_ne _ (heq ▸ (hne' y hy).symm)]
    exact hm y (List.mem_cons_of_mem _ (List.mem_cons_of_mem _ hy))

/-- **`compact` moves every key along `compactKey` and merges the bins that
meet.** -/
theorem Holds.compact {s : SketchHashMap} {l} (h : Holds s l) :
    ∃ s', s.compact = some s' ∧ Holds s' (Bins.regroup compactKey l) := by
  obtain ⟨m, e, hL, hK⟩ := compactLoop_eq s.len l ∅ h.linked h.ascending h.valid h.len.ge
    fun k _ => Finmap.lookup_empty _
  refine ⟨⟨m, s.head.compactKey⟩, ?_, ?_⟩
  · rw [SketchHashMap.compact, h.head, e]; rfl
  have hdom : ∀ k, k ∈ m ↔ k ∈ Bins.keys (Bins.regroup compactKey l) := by
    have hin : ∀ {l : List (SketchHashKey × ℕ)}, LinkedTo m .invalid l → ∀ k ∈ Bins.keys l, k ∈ m := by
      intro l
      induction l with
      | nil => intro _ k hk; cases hk
      | cons p l ih =>
        intro hl k hk
        rcases List.mem_cons.mp hk with rfl | hk
        · exact Finmap.mem_of_lookup_eq_some hl.1
        · exact ih hl.2 k hk
    refine fun k => ⟨fun hk => ?_, hin hL k⟩
    by_contra hout
    have := hK k hout
    rw [Finmap.lookup_empty, Finmap.lookup_eq_none] at this
    exact this hk
  refine { head := ?_, linked := hL, dom := hdom, ascending := ?_, valid := fun hi => ?_ }
  · rw [headOr_regroup, h.head]
  · exact h.ascending.regroup fun a _ b _ hab => compactKey_mono hab
  · obtain ⟨k, hk, he⟩ := (Bins.mem_keys_regroup _ _ _).mp hi
    exact h.valid (compactKey_eq_invalid.mp he ▸ hk)

end SketchHashMap
end ChalkMetrics
