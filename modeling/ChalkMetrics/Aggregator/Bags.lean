/-
# The map, key by key

`bagOf s k` is what the map holds under the key `k`. In a well-placed map
(`Placed`: every entry is in the stripe of its key) a record call changes the
bag of its key by one value (`recordFound_spec`), one stripe of a flush drains
the bags of its keys and leaves the others (`flushStripe_spec`), and a whole
flush drains every bag once (`flush_spec`). Nothing else of the map is looked
at by the results about series.

Key definitions: `bagOf`, `Placed`, `Drained`.
-/
import ChalkMetrics.Aggregator.StripedMap

namespace ChalkMetrics

open HashTable

namespace StripedAggMap

variable {M F : Type} [AddCommMonoid M] [FloatOps F] [FloatBits F]

/-- What is stored under `k`. -/
def bagOf (s : StripedAggMap M F) (k : UInt64) : List (AggKey × AggSlot M F) :=
  bag (s.stripes (stripeIdx k)) k

/-- No entry is outside the stripe of its key. -/
def Placed (s : StripedAggMap M F) : Prop := ∀ i k, stripeIdx k ≠ i → bag (s.stripes i) k = []

omit [AddCommMonoid M] [FloatBits F] in
theorem placed_new (makeHash) (mb : ℕ) (ε : F) (raw) :
    Placed (new makeHash mb ε raw : StripedAggMap M F) := fun _ _ _ => rfl

/-! ### Recording -/

/-- How a record call changes the bag of its key: the slot of one entry takes
the update in, or there is a new entry. -/
inductive Absorbed (mb : ℕ) (ε : F) (x : Series) (u : Update M F) :
    RawEntry → List (AggKey × AggSlot M F) → List (AggKey × AggSlot M F) → Prop
  | found {i : ℕ} {l r : List (AggKey × AggSlot M F)} {a : AggKey} {slot slot' : AggSlot M F}
      (h : AggSlot.Recorded u slot slot') :
      Absorbed mb ε x u (.occupied i) (l ++ (a, slot) :: r) (l ++ (a, slot') :: r)
  | created {l : List (AggKey × AggSlot M F)} {slot : AggSlot M F}
      (h : AggSlot.Created mb ε u slot) : Absorbed mb ε x u .vacant l ((x.aggKey, slot) :: l)

/-- The map with other stripes. -/
theorem recordFound_stripes {s s' : StripedAggMap M F} {grow x u entry}
    (h : s.recordFound grow x u entry = some s') : s' = { s with stripes := s'.stripes } := by
  obtain ⟨t, -, h⟩ := Option.bind_eq_some_iff.mp h
  rw [← Option.some.inj h]

/-- **A record call changes the bag of its key only.** -/
theorem recordFound_spec {s s' : StripedAggMap M F} {grow x u entry}
    (h : s.recordFound grow x u entry = some s')
    (hf : Finds (s.stripes (stripeIdx x.key)) x.key entry) :
    Absorbed s.maxBuckets s.initialError x u entry (s.bagOf x.key) (s'.bagOf x.key) ∧
      (∀ k ≠ x.key, s'.bagOf k = s.bagOf k) ∧ (Placed s → Placed s') := by
  obtain ⟨t, ht, h⟩ := Option.bind_eq_some_iff.mp h
  obtain rfl := Option.some.inj h
  obtain ⟨hself, hother⟩ := bag_upsert ht hf
  refine ⟨?_, fun k hk => ?_, fun hp i k hik => ?_⟩
  · simp only [bagOf, Function.update_self]
    generalize bag (s.stripes (stripeIdx x.key)) x.key = b at hself
    generalize bag t x.key = b' at hself
    cases hself with
    | hit hv =>
      obtain ⟨slot', hs, hv⟩ := Option.bind_eq_some_iff.mp hv
      obtain rfl := Option.some.inj hv
      exact .found (AggSlot.record_cases hs)
    | miss hv =>
      obtain ⟨slot, hs, hv⟩ := Option.bind_eq_some_iff.mp hv
      obtain rfl := Option.some.inj hv
      exact .created (AggSlot.create_cases hs)
  · simp only [bagOf]
    by_cases hi : stripeIdx k = stripeIdx x.key
    · rw [hi, Function.update_self]
      exact hother k hk
    · rw [Function.update_of_ne hi]
  · by_cases hi : i = stripeIdx x.key
    · subst hi
      have hk : k ≠ x.key := fun hk => hik (by rw [hk])
      simp only [Function.update_self]
      rw [hother k hk]
      exact hp _ k hik
    · simp only [Function.update_of_ne hi]
      exact hp i k hik

theorem recordSlot_spec {s s' : StripedAggMap M F} {grow x u}
    (h : s.recordSlot grow x u = some s') :
    Absorbed s.maxBuckets s.initialError x u (s.lookup x) (s.bagOf x.key) (s'.bagOf x.key) ∧
      (∀ k ≠ x.key, s'.bagOf k = s.bagOf k) ∧ (Placed s → Placed s') :=
  recordFound_spec h (finds_fromHash _ _ _)

/-! ### Flushing -/

/-- A bag drained: its values met in some order, what they put out, what stays. -/
def Drained (k : UInt64) (b : List (AggKey × AggSlot M F)) (out : List (FlushedMetric M F))
    (b' : List (AggKey × AggSlot M F)) : Prop :=
  ∃ l : List (AggKey × AggSlot M F), l.Perm b ∧
    out = l.filterMap (fun v => (drainEntry k v).1) ∧
    b' = l.filterMap fun v => (drainEntry k v).2

/-- One stripe of a flush drains the bags of its keys. -/
theorem flushStripe_spec (scan : Fin 64 → Scan) {s : StripedAggMap M F} (hp : Placed s)
    (i : Fin 64) :
    (∀ k, stripeIdx k = i →
      Drained k (s.bagOf k) (outOf (s.flushStripe scan i).1 k) ((s.flushStripe scan i).2.bagOf k)) ∧
    (∀ k, stripeIdx k ≠ i →
      outOf (s.flushStripe scan i).1 k = [] ∧ (s.flushStripe scan i).2.bagOf k = s.bagOf k) ∧
    Placed (s.flushStripe scan i).2 := by
  have hperm := (scan i).perm (s.stripes i)
  refine ⟨fun k hk => ?_, fun k hk => ?_, fun j k hjk => ?_⟩
  · subst hk
    refine ⟨bag ((scan (stripeIdx k)).order (s.stripes (stripeIdx k))) k, bag_perm hperm k, ?_, ?_⟩
    · exact out_drain _ _ _
    · simp only [bagOf, flushStripe, Function.update_self]
      exact bag_drain _ _ _
  · constructor
    · have hnil := hp i k hk
      have hbag : bag ((scan i).order (s.stripes i)) k = [] := by
        have := bag_perm hperm k
        rw [hnil] at this
        exact this.eq_nil
      simp only [flushStripe, out_drain, hbag, List.filterMap_nil]
    · simp only [bagOf, flushStripe, Function.update_of_ne hk]
  · by_cases hj : j = i
    · subst hj
      have hbag : bag ((scan j).order (s.stripes j)) k = [] := by
        have := bag_perm hperm k
        rw [hp j k hjk] at this
        exact this.eq_nil
      simp only [flushStripe, Function.update_self, bag_drain, hbag, List.filterMap_nil]
    · simp only [flushStripe, Function.update_of_ne hj]
      exact hp j k hjk

theorem flushStripes_spec (scan : Fin 64 → Scan) : ∀ (is : List (Fin 64)) {s : StripedAggMap M F},
    Placed s → is.Nodup →
    (∀ k, stripeIdx k ∈ is →
      Drained k (s.bagOf k) (outOf (flushStripes scan is s).1 k)
        ((flushStripes scan is s).2.bagOf k)) ∧
    (∀ k, stripeIdx k ∉ is →
      outOf (flushStripes scan is s).1 k = [] ∧ (flushStripes scan is s).2.bagOf k = s.bagOf k) ∧
    Placed (flushStripes scan is s).2
  | [], s, hp, _ => ⟨fun k hk => absurd hk List.not_mem_nil, fun k _ => ⟨rfl, rfl⟩, hp⟩
  | i :: is, s, hp, hnd => by
    obtain ⟨hi, hnd⟩ := List.nodup_cons.mp hnd
    obtain ⟨h1, h2, h3⟩ := flushStripe_spec scan hp i
    obtain ⟨g1, g2, g3⟩ := flushStripes_spec scan is h3 hnd
    simp only [flushStripes, outOf_append]
    refine ⟨fun k hk => ?_, fun k hk => ?_, g3⟩
    · by_cases hki : stripeIdx k = i
      · obtain ⟨ho, hb⟩ := g2 k (hki ▸ hi)
        rw [ho, hb, List.append_nil]
        exact h1 k hki
      · have hkis : stripeIdx k ∈ is := (List.mem_cons.mp hk).resolve_left hki
        obtain ⟨ho, hb⟩ := h2 k hki
        rw [ho, List.nil_append, ← hb]
        exact g1 k hkis
    · rw [List.mem_cons, not_or] at hk
      obtain ⟨hki, hkis⟩ := hk
      obtain ⟨ho, hb⟩ := h2 k hki
      obtain ⟨ho', hb'⟩ := g2 k hkis
      exact ⟨by rw [ho, ho']; rfl, hb'.trans hb⟩

/-- **A flush drains every bag once.** -/
theorem flush_spec (scan : Fin 64 → Scan) {s : StripedAggMap M F} (hp : Placed s) :
    (s.flush scan).1 = (flushStripes scan (List.finRange 64) s).1.map Prod.snd ∧
    (∀ k, Drained k (s.bagOf k) (outOf (flushStripes scan (List.finRange 64) s).1 k)
      ((s.flush scan).2.bagOf k)) ∧
    Placed (s.flush scan).2 := by
  obtain ⟨h1, -, h3⟩ := flushStripes_spec scan (List.finRange 64) hp (List.nodup_finRange 64)
  exact ⟨rfl, fun k => h1 k (List.mem_finRange _), h3⟩

/-- A metric a flush returns was put out for some entry of some bag. -/
theorem mem_flush {scan : Fin 64 → Scan} {s : StripedAggMap M F} (hp : Placed s)
    {fm : FlushedMetric M F} (h : fm ∈ (s.flush scan).1) :
    ∃ k, ∃ v ∈ s.bagOf k, (drainEntry k v).1 = some fm := by
  obtain ⟨hout, hbags, -⟩ := flush_spec scan hp
  rw [hout] at h
  obtain ⟨p, hp, rfl⟩ := List.mem_map.mp h
  have hmem : p.2 ∈ outOf (flushStripes scan (List.finRange 64) s).1 p.1 :=
    List.mem_map.mpr ⟨p, List.mem_filter.mpr ⟨hp, by simp⟩, rfl⟩
  obtain ⟨l, hperm, ho, -⟩ := hbags p.1
  rw [ho] at hmem
  obtain ⟨v, hv, hd⟩ := List.mem_filterMap.mp hmem
  exact ⟨p.1, v, hperm.subset hv, hd⟩

/-- A value in a bag after a flush was there before. -/
theorem mem_bag_flush {scan : Fin 64 → Scan} {s : StripedAggMap M F} (hp : Placed s) {k : UInt64}
    {v : AggKey × AggSlot M F} (h : v ∈ (s.flush scan).2.bagOf k) : v ∈ s.bagOf k := by
  obtain ⟨-, hbags, -⟩ := flush_spec scan hp
  obtain ⟨l, hperm, -, hb⟩ := hbags k
  rw [hb] at h
  obtain ⟨w, hw, hd⟩ := List.mem_filterMap.mp h
  obtain ⟨slot, hs, rfl⟩ := Option.map_eq_some_iff.mp hd
  rw [AggSlot.flush_retained hs]
  exact hperm.subset hw

theorem flushStripes_stripes (scan : Fin 64 → Scan) : ∀ (is : List (Fin 64)) (s : StripedAggMap M F),
    (flushStripes scan is s).2 = { s with stripes := (flushStripes scan is s).2.stripes }
  | [], _ => rfl
  | i :: is, s => flushStripes_stripes scan is (s.flushStripe scan i).2

theorem flush_stripes (scan : Fin 64 → Scan) (s : StripedAggMap M F) :
    (s.flush scan).2 = { s with stripes := (s.flush scan).2.stripes } :=
  flushStripes_stripes scan (List.finRange 64) s

end StripedAggMap
end ChalkMetrics
