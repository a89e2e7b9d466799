/-
# A hash table with raw entries

A table whose callers supply the hashes. Every entry is filed under a hash;
`fromHash` finds an entry only under the hash it is filed under, `insertHashed`
files the new entry under the hash given, and when it makes the table grow all
older entries are filed anew under the table's own hash. The list of entries
has no order a caller could rely on.

What the table holds for one key is its `bag`, the values of all entries with
that key. `upsert`, the update-or-insert on a lookup's outcome, changes the bag
of its key alone, by one value (`bag_upsert`); `drain`, which visits every
entry, acts on each bag by itself (`bag_drain`, `out_drain`). Both keep what
holds of every value (`upsert_values`, `drain_values`). A table whose entry for
a key is filed under the hash looked up finds it (`fromHash_bag`).
-/
import Mathlib.Data.List.Basic

namespace HashTable

variable {K V O : Type}

structure Entry (K V : Type) where
  hash : UInt64
  key : K
  value : V

abbrev Table (K V : Type) := List (Entry K V)

/-- The outcome of a lookup: the place of an entry, or none. -/
inductive RawEntry where
  | occupied (i : ℕ)
  | vacant
deriving DecidableEq

/-- Every entry filed under the hash of its key. -/
def refile (makeHash : K → UInt64) (t : Table K V) : Table K V :=
  t.map fun e => { e with hash := makeHash e.key }

/-- Insert without looking; `growth` is the table's own hash if the table grows. -/
def insertHashed (t : Table K V) (growth : Option (K → UInt64)) (hash : UInt64) (k : K) (v : V) :
    Table K V :=
  ⟨hash, k, v⟩ :: match growth with
    | some makeHash => refile makeHash t
    | none => t

/-- Update what a lookup found, else insert. -/
def upsert (t : Table K V) (growth : Option (K → UInt64)) (hash : UInt64) (k : K) (at_ : RawEntry)
    (hit : V → Option V) (miss : Option V) : Option (Table K V) :=
  match at_ with
  | .occupied i => do
    let e ← t[i]?
    let v ← hit e.value
    return t.set i { e with value := v }
  | .vacant => do
    let v ← miss
    return insertHashed t growth hash k v

/-- Visit every entry: `f` says what to put out and what to keep. -/
def drain (f : K → V → Option O × Option V) (t : Table K V) : List (K × O) × Table K V :=
  (t.filterMap fun e => (f e.key e.value).1.map (Prod.mk e.key),
    t.filterMap fun e => (f e.key e.value).2.map fun v => { e with value := v })

/-- An entry replaced in place. -/
theorem set_split {α : Type*} {t : List α} {i : ℕ} {e : α} (h : t[i]? = some e) :
    ∃ l r, t = l ++ e :: r ∧ ∀ e', t.set i e' = l ++ e' :: r := by
  obtain ⟨hi, rfl⟩ := List.getElem?_eq_some_iff.mp h
  refine ⟨t.take i, t.drop (i + 1), ?_, fun e' => ?_⟩
  · rw [List.getElem_cons_drop hi, List.take_append_drop]
  · rw [List.set_eq_take_cons_drop _ hi]

section Lookup

variable [DecidableEq K]

/-- The entry filed under `hash` that has the key `k`. -/
def fromHash (t : Table K V) (hash : UInt64) (k : K) : RawEntry :=
  match t.findIdx? fun e => e.hash = hash ∧ e.key = k with
  | some i => .occupied i
  | none => .vacant

/-- The outcome is an entry with the key, or none. -/
def Finds (t : Table K V) (k : K) : RawEntry → Prop
  | .occupied i => ∃ e, t[i]? = some e ∧ e.key = k
  | .vacant => True

/-- The values of the entries with key `k`. -/
def bag (t : Table K V) (k : K) : List V := (t.filter fun e => e.key = k).map Entry.value

/-- The outputs for key `k`. -/
def outOf (out : List (K × O)) (k : K) : List O := (out.filter fun p => p.1 = k).map Prod.snd

/-! ### Bags -/

@[simp] theorem bag_nil (k : K) : bag ([] : Table K V) k = [] := rfl

theorem bag_cons_self (e : Entry K V) (t : Table K V) : bag (e :: t) e.key = e.value :: bag t e.key := by
  simp [bag]

theorem bag_cons_of_ne {e : Entry K V} {k : K} (h : e.key ≠ k) (t : Table K V) :
    bag (e :: t) k = bag t k := by
  simp [bag, h]

theorem bag_append (t t' : Table K V) (k : K) : bag (t ++ t') k = bag t k ++ bag t' k := by
  simp [bag]

theorem mem_bag_of_mem {t : Table K V} {e : Entry K V} (h : e ∈ t) : e.value ∈ bag t e.key :=
  List.mem_map.mpr ⟨e, List.mem_filter.mpr ⟨h, by simp⟩, rfl⟩

theorem mem_bag {t : Table K V} {k : K} {v : V} : v ∈ bag t k ↔ ∃ e ∈ t, e.key = k ∧ e.value = v := by
  simp [bag, and_assoc]

theorem bag_perm {t t' : Table K V} (h : t.Perm t') (k : K) : (bag t k).Perm (bag t' k) :=
  (h.filter _).map _

theorem bag_refile (makeHash : K → UInt64) (t : Table K V) (k : K) :
    bag (refile makeHash t) k = bag t k := by
  induction t with
  | nil => rfl
  | cons e t ih =>
    by_cases h : e.key = k
    · subst h
      rw [bag_cons_self, ← ih]
      exact bag_cons_self { e with hash := makeHash e.key } _
    · rw [bag_cons_of_ne h, ← ih]
      exact bag_cons_of_ne (e := { e with hash := makeHash e.key }) h _

theorem bag_insertHashed_self (t : Table K V) (growth hash) (k : K) (v : V) :
    bag (insertHashed t growth hash k v) k = v :: bag t k := by
  unfold insertHashed
  rw [show k = (⟨hash, k, v⟩ : Entry K V).key from rfl, bag_cons_self]
  cases growth with
  | none => rfl
  | some makeHash => rw [bag_refile]

theorem bag_insertHashed_of_ne (t : Table K V) (growth hash) {k k' : K} (h : k ≠ k') (v : V) :
    bag (insertHashed t growth hash k v) k' = bag t k' := by
  unfold insertHashed
  rw [bag_cons_of_ne h]
  cases growth with
  | none => rfl
  | some makeHash => rw [bag_refile]

/-! ### Update or insert -/

/-- How the bag of a key changes: what was found is updated, or there is one
value more. -/
inductive Upserted (hit : V → Option V) (miss : Option V) : RawEntry → List V → List V → Prop
  | hit {i : ℕ} {l r : List V} {v v' : V} (h : hit v = some v') :
      Upserted hit miss (.occupied i) (l ++ v :: r) (l ++ v' :: r)
  | miss {l : List V} {v : V} (h : miss = some v) : Upserted hit miss .vacant l (v :: l)

/-- **`upsert` touches the bag of its key only.** -/
theorem bag_upsert {t t' : Table K V} {growth hash k at_ hit miss}
    (h : upsert t growth hash k at_ hit miss = some t') (hf : Finds t k at_) :
    Upserted hit miss at_ (bag t k) (bag t' k) ∧ ∀ k' ≠ k, bag t' k' = bag t k' := by
  cases at_ with
  | occupied i =>
    obtain ⟨e, he, rfl⟩ := hf
    obtain ⟨l, r, hl, hset⟩ := set_split he
    rw [upsert, he, Option.bind_eq_bind, Option.bind_some, Option.bind_eq_bind] at h
    obtain ⟨v, hv, h⟩ := Option.bind_eq_some_iff.mp h
    obtain rfl := Option.some.inj h
    rw [hset, hl]
    constructor
    · simp only [bag_append, bag_cons_self]
      exact .hit hv
    · intro k' hk'
      rw [bag_append, bag_append, bag_cons_of_ne (Ne.symm hk'),
        bag_cons_of_ne (e := { e with value := v }) (Ne.symm hk')]
  | vacant =>
    rw [upsert, Option.bind_eq_bind] at h
    obtain ⟨v, hv, h⟩ := Option.bind_eq_some_iff.mp h
    obtain rfl := Option.some.inj h
    refine ⟨?_, fun k' hk' => bag_insertHashed_of_ne t growth hash (Ne.symm hk') v⟩
    rw [bag_insertHashed_self]
    exact .miss hv

/-! ### Lookup -/

theorem finds_fromHash (t : Table K V) (hash : UInt64) (k : K) : Finds t k (fromHash t hash k) := by
  unfold fromHash
  split
  · next i h =>
    obtain ⟨hi, hp, -⟩ := List.findIdx?_eq_some_iff_getElem.mp h
    simp only [decide_eq_true_eq] at hp
    exact ⟨t[i], List.getElem?_eq_getElem hi, hp.2⟩
  · trivial

/-- A key whose entries are filed under the hash is found if it is there. -/
theorem fromHash_bag {t : Table K V} {hash : UInt64} {k : K}
    (hf : ∀ e ∈ t, e.key = k → e.hash = hash) :
    fromHash t hash k = .vacant ↔ bag t k = [] := by
  unfold fromHash
  split
  · next i h =>
    obtain ⟨hi, hp, -⟩ := List.findIdx?_eq_some_iff_getElem.mp h
    simp only [decide_eq_true_eq] at hp
    have hmem := mem_bag_of_mem (List.getElem_mem hi)
    rw [hp.2] at hmem
    simp [List.ne_nil_of_mem hmem]
  · next h =>
    simp only [List.findIdx?_eq_none_iff, decide_eq_false_iff_not, not_and] at h
    simp only [true_iff]
    apply List.eq_nil_iff_forall_not_mem.mpr
    intro v hv
    obtain ⟨e, he, hk, -⟩ := mem_bag.mp hv
    exact h e he (hf e he hk) hk

/-! ### Draining -/

theorem out_drain (f : K → V → Option O × Option V) (t : Table K V) (k : K) :
    outOf (drain f t).1 k = (bag t k).filterMap fun v => (f k v).1 := by
  induction t with
  | nil => rfl
  | cons e t ih =>
    simp only [drain, outOf] at ih ⊢
    by_cases h : e.key = k
    · subst h
      rw [bag_cons_self]
      rcases ho : (f e.key e.value).1 with _ | o <;> simp [ho, ih]
    · rw [bag_cons_of_ne h]
      rcases ho : (f e.key e.value).1 with _ | o <;> simp [ho, h, ih]

theorem bag_drain (f : K → V → Option O × Option V) (t : Table K V) (k : K) :
    bag (drain f t).2 k = (bag t k).filterMap fun v => (f k v).2 := by
  induction t with
  | nil => rfl
  | cons e t ih =>
    simp only [drain, bag] at ih ⊢
    by_cases h : e.key = k
    · subst h
      rcases ho : (f e.key e.value).2 with _ | v <;> simp [ho, ih]
    · rcases ho : (f e.key e.value).2 with _ | v <;> simp [ho, h, ih]

/-! ### What holds of every value -/

omit [DecidableEq K] in
/-- `upsert` does not fail where the update and the new value do not, and keeps
what they keep. -/
theorem upsert_values {P : V → Prop} {t : Table K V} {growth hash k at_ hit miss}
    (ht : ∀ e ∈ t, P e.value) (hf : Finds t k at_)
    (hhit : ∀ v, P v → ∃ v', hit v = some v' ∧ P v') (hmiss : ∃ v, miss = some v ∧ P v) :
    ∃ t', upsert t growth hash k at_ hit miss = some t' ∧ ∀ e ∈ t', P e.value := by
  cases at_ with
  | occupied i =>
    obtain ⟨e, he, rfl⟩ := hf
    obtain ⟨v, hv, hP⟩ := hhit e.value (ht e (List.mem_of_getElem? he))
    refine ⟨t.set i { e with value := v }, by simp [upsert, he, hv], fun e' he' => ?_⟩
    rcases List.mem_or_eq_of_mem_set he' with he' | rfl
    · exact ht e' he'
    · exact hP
  | vacant =>
    obtain ⟨v, rfl, hP⟩ := hmiss
    refine ⟨insertHashed t growth hash k v, rfl, List.forall_mem_cons.mpr ⟨hP, ?_⟩⟩
    cases growth with
    | none => exact ht
    | some makeHash => exact List.forall_mem_map.mpr ht

omit [DecidableEq K] in
theorem drain_values {P : V → Prop} {f : K → V → Option O × Option V} {t : Table K V}
    (ht : ∀ e ∈ t, P e.value) (hf : ∀ k v v', P v → (f k v).2 = some v' → P v') :
    ∀ e ∈ (drain f t).2, P e.value := by
  intro e he
  obtain ⟨e₀, he₀, h⟩ := List.mem_filterMap.mp he
  obtain ⟨v, hv, rfl⟩ := Option.map_eq_some_iff.mp h
  exact hf e₀.key e₀.value v (ht e₀ he₀) hv

/-- Outputs that are `f k` at every key `k`, key by key. -/
theorem outOf_toList {out : List (K × O)} {f : K → Option O}
    (h : ∀ k, outOf out k = (f k).toList) :
    (out.map Prod.fst).Nodup ∧ (∀ k, k ∈ out.map Prod.fst ↔ (f k).isSome) ∧
      out.map Prod.snd = (out.map Prod.fst).filterMap f := by
  have hlen : ∀ k, (out.map Prod.fst).count k = (f k).toList.length := by
    intro k
    rw [← h k, outOf, List.length_map, ← List.countP_eq_length_filter, List.count, List.countP_map]
    rfl
  have hmem : ∀ p ∈ out, f p.1 = some p.2 := by
    intro p hp
    have : p.2 ∈ outOf out p.1 := List.mem_map.mpr ⟨p, List.mem_filter.mpr ⟨hp, by simp⟩, rfl⟩
    rw [h, Option.mem_toList] at this
    exact this
  refine ⟨List.nodup_iff_count.mpr fun k => ?_, fun k => ?_, ?_⟩
  · rw [hlen]
    cases f k <;> simp
  · rw [← List.count_pos_iff, hlen]
    cases f k <;> simp
  · rw [List.filterMap_map]
    clear h hlen
    induction out with
    | nil => rfl
    | cons p out ih =>
      have hp : (f ∘ Prod.fst) p = some p.2 := hmem p List.mem_cons_self
      rw [List.map_cons, List.filterMap_cons_some hp, ih fun q hq => hmem q (List.mem_cons_of_mem _ hq)]

theorem outOf_append (out out' : List (K × O)) (k : K) :
    outOf (out ++ out') k = outOf out k ++ outOf out' k := by
  simp [outOf]

end Lookup

end HashTable
