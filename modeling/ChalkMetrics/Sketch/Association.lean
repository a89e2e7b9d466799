/-
# The map as a sorted association list

`SketchHashMap` as it is in memory: counts are `u64`s and wrap, and the key
arithmetic of `compact_key` is checked (`checkedCompactKey`), so an overflow of
it is a failure like the lookup of a missing key. It is the map of `HashMap`
with its counts taken modulo `2 ^ 64` (`Wraps`): no branch looks at a count.

Over any operations on valid keys nothing fails, `next` leads from `head`
through every key once, in order, and `iter` is the sorted association list
that the operations spell out (`refines_association`).

Key definitions: `MapOp`, `run`, `association`, `Follows`.
-/
import ChalkMetrics.Lib.Tally
import ChalkMetrics.Sketch.HashMap

namespace ChalkMetrics

open SketchHashKey Bins

/-! ### The map in memory -/

/-- `x + 1` on an `i64`. -/
def checkedSucc (x : Int64) : Option Int64 := if x.toInt + 1 < 2 ^ 63 then some (x + 1) else none

/-- `if x > 0 { x + 1 } else { x } / 2`. -/
def checkedCompactExp (x : Int64) : Option Int64 := do
  let y ← if x > 0 then checkedSucc x else some x
  return y / 2

/-- `compact_key`, its arithmetic checked. -/
def SketchHashKey.checkedCompactKey : SketchHashKey → Option SketchHashKey
  | negative x =>
    if x = Int64.maxValue then some (negative x) else (checkedCompactExp x).map negative
  | positive x =>
    if x = Int64.maxValue then some (positive x) else (checkedCompactExp x).map positive
  | x => some x

/-- `a + b` on `u64`s. -/
def addU64 (a b : ℕ) : ℕ := (a + b) % 2 ^ 64

namespace SketchHashMap

/-- `self.entry(key).count += n`. -/
def addCountU64 (s : SketchHashMap) (key : SketchHashKey) (n : ℕ) : Option SketchHashMap := do
  let s ← s.entry key
  let e ← s.map.lookup key
  return { s with map := s.map.insert key { e with count := addU64 e.count n } }

def incrementU64 (s : SketchHashMap) (key : SketchHashKey) : Option SketchHashMap :=
  s.addCountU64 key 1

/-- The key `compact` links behind `newKey`: `next` compacted, the one behind it
if `next` is merged. -/
def newNextU64 (old : EntryMap) (newKey next : SketchHashKey) : Option SketchHashKey := do
  let nextKey ← next.checkedCompactKey
  if nextKey = newKey then
    let e ← old.lookup next
    e.next.checkedCompactKey
  else some nextKey

/-- The loop of `compact` from `target`, as `compactLoop`. -/
def compactLoopU64 (old : EntryMap) : ℕ → SketchHashKey → EntryMap → Option EntryMap
  | _, .invalid, m => some m
  | 0, _, _ => none
  | n + 1, target, m => do
    let oldEntry ← old.lookup target
    let newKey ← target.checkedCompactKey
    let newNext ← newNextU64 old newKey oldEntry.next
    let e := (m.lookup newKey).getD ⟨0, newNext⟩
    compactLoopU64 old n oldEntry.next
      (m.insert newKey { e with count := addU64 e.count oldEntry.count })

def compactU64 (s : SketchHashMap) : Option SketchHashMap := do
  let head ← s.head.checkedCompactKey
  let m ← compactLoopU64 s.map s.len s.head ∅
  return ⟨m, head⟩

end SketchHashMap

inductive MapOp where
  | increment (key : SketchHashKey)
  | add (key : SketchHashKey) (n : ℕ)
  | compact

namespace MapOp

/-- `Invalid` stands for the end of the list and is never put in. -/
def Valid : MapOp → Prop
  | increment key => key.isValid
  | add key _ => key.isValid
  | compact => True

def apply (s : SketchHashMap) : MapOp → Option SketchHashMap
  | increment key => s.incrementU64 key
  | add key n => s.addCountU64 key n
  | compact => s.compactU64

/-- What the operation says of keys and counts. -/
def tally (t : Tally SketchHashKey) : MapOp → Tally SketchHashKey
  | increment key => t.add key 1
  | add key n => t.add key n
  | compact => t.map compactKey

/-- How much the operation adds. -/
def amount : MapOp → ℕ
  | increment _ => 1
  | add _ n => n
  | compact => 0

end MapOp

/-- The operations, from `new()`. -/
def run (ops : List MapOp) : Option SketchHashMap := ops.foldlM MapOp.apply SketchHashMap.new

/-- The keys put in, as far as they have been compacted, with what was added to each. -/
def association (ops : List MapOp) : Tally SketchHashKey := ops.foldl MapOp.tally Tally.empty

/-- The counts as `u64`s. -/
def wrapped (l : List (SketchHashKey × ℕ)) : List (SketchHashKey × ℕ) :=
  l.map fun p => (p.1, p.2 % 2 ^ 64)

/-- Following `next` from a key visits `ks` and ends at `Invalid`. -/
inductive Follows (m : EntryMap) : SketchHashKey → List SketchHashKey → Prop
  | invalid : Follows m .invalid []
  | next {k ks e} (hk : k ≠ .invalid) (he : m.lookup k = some e) (h : Follows m e.next ks) :
      Follows m k (k :: ks)

/-- The list from `head` is the map, in order. -/
def Linked (s : SketchHashMap) : Prop :=
  ∃ ks, Follows s.map s.head ks ∧ ks.Pairwise (fun a b => partialCmp a b = .lt) ∧
    ∀ k, k ∈ s.map ↔ k ∈ ks

/-- Keys stay in order and at most two neighbours meet. -/
structure JoinsNeighbours (f : SketchHashKey → SketchHashKey) : Prop where
  monotone : ∀ a b, partialCmp a b ≠ .gt → partialCmp (f a) (f b) ≠ .gt
  neighbours : ∀ a b, partialCmp a b = .lt → f a = f b →
    ¬ ∃ c, partialCmp a c = .lt ∧ partialCmp c b = .lt
  pairs : ∀ a b, a ≠ b → f a = f b → ∀ c, f c = f a → c = a ∨ c = b

/-! ### Key arithmetic -/

theorem checkedSucc_eq {x : Int64} (hx : x ≠ Int64.maxValue) : checkedSucc x = some (x + 1) := by
  have h1 := x.toInt_lt
  have h2 : x.toInt ≠ 2 ^ 63 - 1 := fun h => hx (Int64.toInt_inj.mp h)
  unfold checkedSucc
  rw [if_pos (by omega)]

theorem checkedCompactExp_eq {x : Int64} (hx : x ≠ Int64.maxValue) :
    checkedCompactExp x = some (compactExp x) := by
  unfold checkedCompactExp compactExp
  split_ifs
  · rw [checkedSucc_eq hx]
    rfl
  · rfl

/-- `compact_key` does not overflow. -/
theorem checkedCompactKey_eq (k : SketchHashKey) : k.checkedCompactKey = some k.compactKey := by
  cases k with
  | negative x =>
    simp only [checkedCompactKey, compactKey]
    split_ifs with hx
    · rfl
    · rw [checkedCompactExp_eq hx]
      rfl
  | positive x =>
    simp only [checkedCompactKey, compactKey]
    split_ifs with hx
    · rfl
    · rw [checkedCompactExp_eq hx]
      rfl
  | zero => rfl
  | invalid => rfl

/-- No third key meets two that meet. -/
theorem compactKey_two {a b : SketchHashKey} (hab : a < b) (heq : compactKey a = compactKey b)
    {c : SketchHashKey} (hc : compactKey c = compactKey a) : c = a ∨ c = b := by
  rcases lt_trichotomy c a with hca | rfl | hac
  · exact absurd heq (compactKey_pair hca hab hc)
  · exact .inl rfl
  · rcases lt_trichotomy c b with hcb | rfl | hbc
    · exact absurd (hc.trans heq) (compactKey_pair hac hcb hc.symm)
    · exact .inr rfl
    · exact absurd (hc.trans heq).symm (compactKey_pair hab hbc heq)

theorem joinsNeighbours_compactKey : JoinsNeighbours compactKey where
  monotone a b h := by
    rw [Ne, partialCmp_gt, not_lt] at h ⊢
    exact compactKey_mono h
  neighbours a b h heq := by
    rintro ⟨c, hac, hcb⟩
    rw [partialCmp_lt] at h hac hcb
    have hc : compactKey c = compactKey a :=
      le_antisymm (heq ▸ compactKey_mono hcb.le) (compactKey_mono hac.le)
    rcases compactKey_two h heq hc with rfl | rfl
    · exact lt_irrefl _ hac
    · exact lt_irrefl _ hcb
  pairs a b hne heq c hc := by
    rcases lt_or_gt_of_ne hne with hab | hba
    · exact compactKey_two hab heq hc
    · exact (compactKey_two hba heq.symm (hc.trans heq)).symm

/-! ### Counts modulo `2 ^ 64` -/

def wrap (e : SketchHashEntry) : SketchHashEntry := { e with count := e.count % 2 ^ 64 }

theorem wrap_add (e : SketchHashEntry) (n : ℕ) :
    { wrap e with count := addU64 (wrap e).count n } = wrap { e with count := e.count + n } := by
  unfold wrap addU64
  rw [Nat.mod_add_mod]

theorem wrap_add_wrap (e v : SketchHashEntry) :
    { wrap e with count := addU64 (wrap e).count (wrap v).count }
      = wrap { e with count := e.count + v.count } := by
  unfold wrap addU64
  rw [← Nat.add_mod]

/-- `m'` is `m` with its counts as `u64`s. -/
def WrapsMap (m m' : EntryMap) : Prop := ∀ k, m'.lookup k = (m.lookup k).map wrap

structure Wraps (s s' : SketchHashMap) : Prop where
  head : s'.head = s.head
  map : WrapsMap s.map s'.map

namespace WrapsMap

variable {m m' : EntryMap}

theorem empty : WrapsMap ∅ ∅ := fun k => by
  rw [Finmap.lookup_empty]
  rfl

theorem mem (h : WrapsMap m m') (k : SketchHashKey) : k ∈ m' ↔ k ∈ m := by
  rw [← Finmap.lookup_isSome, ← Finmap.lookup_isSome, h k, Option.isSome_map]

theorem insert (h : WrapsMap m m') (k : SketchHashKey) {e e' : SketchHashEntry} (he : e' = wrap e) :
    WrapsMap (m.insert k e) (m'.insert k e') := fun x => by
  by_cases hx : x = k
  · subst hx
    rw [Finmap.lookup_insert, Finmap.lookup_insert, he]
    rfl
  · rw [Finmap.lookup_insert_of_ne _ hx, Finmap.lookup_insert_of_ne _ hx]
    exact h x

theorem keys (h : WrapsMap m m') : m'.keys = m.keys := by
  ext k
  rw [Finmap.mem_keys, Finmap.mem_keys, h.mem]

/-- The insertion point does not depend on counts. -/
theorem seek (h : WrapsMap m m') (key : SketchHashKey) : ∀ (n : ℕ) (prev next : SketchHashKey),
    SketchHashMap.seek m' key n prev next = SketchHashMap.seek m key n prev next
  | 0, _, _ => rfl
  | n + 1, prev, next => by
    unfold SketchHashMap.seek
    rw [h next]
    split_ifs
    · rcases m.lookup next with _ | e
      · rfl
      · exact h.seek key n next e.next
    · rfl

end WrapsMap

namespace Wraps

variable {s s' t : SketchHashMap}

theorem len (h : Wraps s s') : s'.len = s.len := congrArg Finset.card h.map.keys

theorem entry (h : Wraps s s') {key : SketchHashKey} (ht : s.entry key = some t) :
    ∃ t', s'.entry key = some t' ∧ Wraps t t' := by
  unfold SketchHashMap.entry at ht ⊢
  simp only [h.map.mem, h.head, h.len, h.map.seek] at ht ⊢
  split_ifs at ht ⊢
  · obtain rfl := Option.some.inj ht
    exact ⟨s', rfl, h⟩
  · obtain rfl := Option.some.inj ht
    exact ⟨_, rfl, rfl, h.map.insert key rfl⟩
  · obtain ⟨⟨prev, next⟩, hseek, ht⟩ := Option.bind_eq_some_iff.mp ht
    obtain ⟨e, he, ht⟩ := Option.bind_eq_some_iff.mp ht
    obtain rfl := Option.some.inj ht
    have he' : s'.map.lookup prev = some (wrap e) := by
      rw [h.map prev, he]
      rfl
    rw [hseek]
    simp only [Option.bind_eq_bind, Option.bind_some, he']
    exact ⟨_, rfl, rfl, (h.map.insert prev rfl).insert key rfl⟩

theorem addCount (h : Wraps s s') {key : SketchHashKey} {n : ℕ} (ht : s.addCount key n = some t) :
    ∃ t', s'.addCountU64 key n = some t' ∧ Wraps t t' := by
  unfold SketchHashMap.addCount at ht
  obtain ⟨u, hu, ht⟩ := Option.bind_eq_some_iff.mp ht
  obtain ⟨e, he, ht⟩ := Option.bind_eq_some_iff.mp ht
  obtain rfl := Option.some.inj ht
  obtain ⟨u', hu', hw⟩ := h.entry hu
  have he' : u'.map.lookup key = some (wrap e) := by
    rw [hw.map key, he]
    rfl
  unfold SketchHashMap.addCountU64
  rw [hu']
  simp only [Option.bind_eq_bind, Option.bind_some, he']
  exact ⟨_, rfl, hw.head, hw.map.insert key (wrap_add e n)⟩

end Wraps

open SketchHashMap

/-- A round of the loop, and a round of it in memory. -/
theorem compactLoop_succ {old : EntryMap} {n : ℕ} {target : SketchHashKey} {m r : EntryMap}
    (ht : target ≠ .invalid) (h : compactLoop old (n + 1) target m = some r) :
    ∃ e nxt, old.lookup target = some e ∧ newNextU64 old target.compactKey e.next = some nxt ∧
      compactLoop old n e.next
        (let v := (m.lookup target.compactKey).getD ⟨0, nxt⟩
         m.insert target.compactKey { v with count := v.count + e.count }) = some r := by
  rw [compactLoop.eq_3 _ _ _ _ ht] at h
  obtain ⟨e, he, h⟩ := Option.bind_eq_some_iff.mp h
  unfold newNextU64
  simp only [Option.bind_eq_bind, checkedCompactKey_eq, Option.bind_some]
  by_cases hjoin : e.next.compactKey = target.compactKey
  · simp only [if_pos hjoin, Option.bind_eq_bind] at h ⊢
    obtain ⟨nxt, hnxt, h⟩ := Option.bind_eq_some_iff.mp h
    obtain ⟨v, hv, rfl⟩ := Option.map_eq_some_iff.mp hnxt
    refine ⟨e, v.next.compactKey, he, ?_, h⟩
    rw [if_pos hjoin, hv]
    rfl
  · simp only [if_neg hjoin, Option.bind_eq_bind, Option.bind_some] at h ⊢
    exact ⟨e, _, he, if_neg hjoin, h⟩

theorem WrapsMap.newNext {old old' : EntryMap} (h : WrapsMap old old') (newKey next : SketchHashKey) :
    newNextU64 old' newKey next = newNextU64 old newKey next := by
  unfold newNextU64
  simp only [checkedCompactKey_eq, Option.bind_eq_bind, Option.bind_some, h next]
  rcases old.lookup next with _ | e <;> rfl

theorem WrapsMap.compactLoop {old old' : EntryMap} (h : WrapsMap old old') :
    ∀ (n : ℕ) (target : SketchHashKey) {m m' r : EntryMap}, WrapsMap m m' →
      compactLoop old n target m = some r →
      ∃ r', compactLoopU64 old' n target m' = some r' ∧ WrapsMap r r' := by
  intro n
  induction n with
  | zero =>
    intro target m m' r hm hr
    cases target with
    | invalid =>
      obtain rfl := Option.some.inj hr
      exact ⟨m', rfl, hm⟩
    | _ => cases hr
  | succ n ih =>
    intro target m m' r hm hr
    by_cases ht : target = .invalid
    · subst ht
      obtain rfl := Option.some.inj hr
      exact ⟨m', rfl, hm⟩
    obtain ⟨e, nxt, he, hnxt, hr⟩ := compactLoop_succ ht hr
    have he' : old'.lookup target = some (wrap e) := by
      rw [h target, he]
      rfl
    have hnxt' : newNextU64 old' target.compactKey (wrap e).next = some nxt :=
      (h.newNext _ _).trans hnxt
    have hget : (m'.lookup target.compactKey).getD ⟨0, nxt⟩
        = wrap ((m.lookup target.compactKey).getD ⟨0, nxt⟩) := by
      rw [hm]
      rcases m.lookup target.compactKey with _ | v <;> rfl
    rw [compactLoopU64.eq_3 _ _ _ _ ht]
    simp only [Option.bind_eq_bind, he', Option.bind_some, checkedCompactKey_eq, hnxt', hget]
    exact ih e.next (hm.insert _ (wrap_add_wrap _ e)) hr

theorem Wraps.compact {s s' t : SketchHashMap} (h : Wraps s s') (ht : s.compact = some t) :
    ∃ t', s'.compactU64 = some t' ∧ Wraps t t' := by
  obtain ⟨m, hm, ht⟩ := Option.bind_eq_some_iff.mp ht
  obtain rfl := Option.some.inj ht
  obtain ⟨m', hm', hw⟩ := h.map.compactLoop _ _ .empty hm
  refine ⟨⟨m', s.head.compactKey⟩, ?_, rfl, hw⟩
  unfold compactU64
  rw [checkedCompactKey_eq, h.len, h.head, hm']
  rfl

/-! ### Over whole runs -/

theorem keys_wrapped (l : List (SketchHashKey × ℕ)) : Bins.keys (wrapped l) = Bins.keys l := by
  unfold wrapped Bins.keys
  rw [List.map_map]
  rfl

theorem headOr_wrapped (nxt : SketchHashKey) : ∀ l, headOr nxt (wrapped l) = headOr nxt l
  | [] => rfl
  | _ :: _ => rfl

theorem linkedTo_wrapped {m m' : EntryMap} (h : WrapsMap m m') {nxt : SketchHashKey} :
    ∀ {l : List (SketchHashKey × ℕ)}, LinkedTo m nxt l → LinkedTo m' nxt (wrapped l)
  | [], _ => trivial
  | (k, c) :: l, hl => by
    refine ⟨?_, linkedTo_wrapped h hl.2⟩
    rw [h k, hl.1, ← headOr_wrapped nxt l]
    rfl

theorem Wraps.holds {s s' : SketchHashMap} (h : Wraps s s') {l} (hl : Holds s l) :
    Holds s' (wrapped l) where
  head := by rw [h.head, hl.head, headOr_wrapped]
  linked := linkedTo_wrapped h.map hl.linked
  dom k := by rw [h.map.mem, hl.dom, keys_wrapped]
  ascending := by
    unfold Bins.Ascending
    rw [keys_wrapped]
    exact hl.ascending
  valid := by
    rw [keys_wrapped]
    exact hl.valid

theorem follows_of_linkedTo {m : EntryMap} : ∀ {l : List (SketchHashKey × ℕ)},
    LinkedTo m .invalid l → .invalid ∉ Bins.keys l → Follows m (headOr .invalid l) (Bins.keys l)
  | [], _, _ => .invalid
  | (k, c) :: l, h, hv => by
    have hk : k ≠ .invalid := fun hk => hv (hk ▸ List.mem_cons_self)
    have htail := follows_of_linkedTo h.2 fun hmem => hv (List.mem_cons_of_mem _ hmem)
    exact .next hk h.1 htail

theorem linked_of_holds {s : SketchHashMap} {l} (h : Holds s l) : Linked s := by
  refine ⟨Bins.keys l, ?_, ?_, h.dom⟩
  · rw [h.head]
    exact follows_of_linkedTo h.linked h.valid
  · exact h.ascending.imp fun hab => (partialCmp_lt _ _).mpr hab

/-- Counts that together fit a `u64` do not wrap. -/
theorem wrapped_eq {l : List (SketchHashKey × ℕ)} (h : Bins.total l < 2 ^ 64) : wrapped l = l := by
  induction l with
  | nil => rfl
  | cons p l ih =>
    obtain ⟨k, c⟩ := p
    rw [Bins.total_cons] at h
    have hc : c % 2 ^ 64 = c := Nat.mod_eq_of_lt (by omega)
    have hl : wrapped l = l := ih (by omega)
    rw [wrapped, List.map_cons, hc]
    exact congrArg _ hl

/-- `s` is the list of `t`, in memory, and counts `n` in all. -/
def Mirrors (s : SketchHashMap) (t : Tally SketchHashKey) (n : ℕ) : Prop :=
  ∃ s₀ l, Holds s₀ l ∧ Wraps s₀ s ∧ Tells l t ∧ Bins.total l = n

namespace Mirrors

variable {s : SketchHashMap} {t : Tally SketchHashKey} {n : ℕ}

theorem new : Mirrors SketchHashMap.new Tally.empty 0 :=
  ⟨SketchHashMap.new, [], holds_new, ⟨rfl, .empty⟩, tells_nil, rfl⟩

theorem add (h : Mirrors s t n) {key : SketchHashKey} (hv : key.isValid) (k : ℕ) :
    ∃ s', s.addCountU64 key k = some s' ∧ Mirrors s' (t.add key k) (k + n) := by
  obtain ⟨s₀, l, hl, hw, ht, hn⟩ := h
  have hne : key ≠ .invalid := by
    rintro rfl
    cases hv
  obtain ⟨s₁, hs₁, hl₁⟩ := hl.addCount hne k
  obtain ⟨s', hs', hw'⟩ := hw.addCount hs₁
  refine ⟨s', hs', s₁, _, hl₁, hw', ht.add hl.ascending key k, ?_⟩
  rw [Bins.total_bump, hn]

theorem compact (h : Mirrors s t n) :
    ∃ s', s.compactU64 = some s' ∧ Mirrors s' (t.map compactKey) n := by
  obtain ⟨s₀, l, hl, hw, ht, hn⟩ := h
  obtain ⟨s₁, hs₁, hl₁⟩ := hl.compact
  obtain ⟨s', hs', hw'⟩ := hw.compact hs₁
  refine ⟨s', hs', s₁, _, hl₁, hw', ht.map compactKey_mono hl.ascending, ?_⟩
  rw [Bins.total_regroup, hn]

theorem apply (h : Mirrors s t n) {op : MapOp} (hv : op.Valid) :
    ∃ s', op.apply s = some s' ∧ Mirrors s' (op.tally t) (op.amount + n) := by
  cases op with
  | increment key => exact h.add hv 1
  | add key k => exact h.add hv k
  | compact =>
    obtain ⟨s', hs', h'⟩ := h.compact
    refine ⟨s', hs', ?_⟩
    rw [MapOp.amount, Nat.zero_add]
    exact h'

/-- By induction on the operations: none fails. -/
theorem run (h : Mirrors s t n) {ops : List MapOp} (hops : ∀ op ∈ ops, op.Valid) :
    ∃ s', ops.foldlM MapOp.apply s = some s' ∧
      Mirrors s' (ops.foldl MapOp.tally t) ((ops.map MapOp.amount).sum + n) := by
  induction ops generalizing s t n with
  | nil =>
    refine ⟨s, rfl, ?_⟩
    rw [List.map_nil, List.sum_nil, Nat.zero_add]
    exact h
  | cons op ops ih =>
    obtain ⟨s₁, hs₁, h₁⟩ := h.apply (hops op List.mem_cons_self)
    obtain ⟨s', hs', h'⟩ := ih h₁ fun o ho => hops o (List.mem_cons_of_mem _ ho)
    refine ⟨s', ?_, ?_⟩
    · rw [List.foldlM_cons, hs₁]
      exact hs'
    · have hsum : ((op :: ops).map MapOp.amount).sum + n
          = (ops.map MapOp.amount).sum + (op.amount + n) := by
        rw [List.map_cons, List.sum_cons]
        omega
      rw [hsum]
      exact h'

theorem linked (h : Mirrors s t n) : Linked s := by
  obtain ⟨s₀, l, hl, hw, -⟩ := h
  exact linked_of_holds (hw.holds hl)

theorem iter (h : Mirrors s t n) : s.iter = some (wrapped t.list) := by
  obtain ⟨s₀, l, hl, hw, ht, -⟩ := h
  rw [ht.list_eq hl.ascending]
  exact (hw.holds hl).iter

theorem fits (h : Mirrors s t n) (hn : n < 2 ^ 64) : wrapped t.list = t.list := by
  obtain ⟨s₀, l, hl, hw, ht, rfl⟩ := h
  rw [ht.list_eq hl.ascending]
  exact wrapped_eq hn

end Mirrors

/-- **The map refines a sorted association list**, over any operations on
valid keys. The counts are those of the list while they fit a `u64`. -/
theorem refines_association (ops : List MapOp) (hops : ∀ op ∈ ops, op.Valid) :
    ∃ s, run ops = some s ∧ Linked s ∧ s.iter = some (wrapped (association ops).list) ∧
      ((ops.map MapOp.amount).sum < 2 ^ 64 → s.iter = some (association ops).list) ∧
      (∃ s', s.compactU64 = some s' ∧
        s'.iter = some (wrapped ((association ops).map compactKey).list)) ∧
      JoinsNeighbours compactKey := by
  obtain ⟨s, hs, h⟩ := Mirrors.new.run hops
  obtain ⟨s', hs', h'⟩ := h.compact
  refine ⟨s, hs, h.linked, h.iter, fun hfit => ?_, ⟨s', hs', h'.iter⟩, joinsNeighbours_compactKey⟩
  rw [h.iter, h.fits hfit]
  rfl

/-- A run over both ends of the exponents. -/
theorem refines_association_ends : ∃ s, run [.increment (.positive Int64.maxValue),
      .add (.negative 3) 5, .increment (.negative Int64.minValue), .increment (.negative 4),
      .compact] = some s ∧
    s.iter = some [(.negative 2, 6), (.negative (-4611686018427387904), 1),
      (.positive Int64.maxValue, 1)] := by
  have hvalid : ∀ op ∈ [MapOp.increment (.positive Int64.maxValue), .add (.negative 3) 5,
      .increment (.negative Int64.minValue), .increment (.negative 4), .compact], op.Valid := by
    intro op hop
    simp only [List.mem_cons, List.not_mem_nil, or_false] at hop
    rcases hop with rfl | rfl | rfl | rfl | rfl
    · rfl
    · rfl
    · rfl
    · rfl
    · trivial
  obtain ⟨s, hs, -, -, hiter, -⟩ := refines_association _ hvalid
  refine ⟨s, hs, (hiter (by decide)).trans (congrArg some ?_)⟩
  rw [Tally.list_eq_map [.negative 2, .negative (-4611686018427387904), .positive Int64.maxValue]
    (by decide) (by decide)]
  decide

end ChalkMetrics
