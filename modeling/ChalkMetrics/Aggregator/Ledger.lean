/-
# What the flushes took

The books of a run of the plain map: what each flush took from every key
(`past`) and what waits for the next (`pending`). Without gauges a flush moves
all that waits, so the books always hold every update of the run once
(`accounts`): each slot is that of a call on its key, the deltas add up, and
every call is in some slot.

Key definitions: `Ledger`, `MapEvent.ledger`, `Accounts`.
-/
import ChalkMetrics.Aggregator.PlainMap

namespace ChalkMetrics

open MapEvent

variable {M F : Type} [FloatOps F]

structure Ledger (M F : Type) where
  pending : PlainMap M F
  past : UInt64 → List (AggKey × PlainSlot M F)

def Ledger.apply (l : Ledger M F) : MapEvent M F → Ledger M F
  | .record _ x u => { l with pending := l.pending.record x u }
  | .flush _ _ => ⟨l.pending.flush, fun k => l.past k ++ (l.pending k).toList⟩

def MapEvent.ledger (es : List (MapEvent M F)) : Ledger M F :=
  es.foldl Ledger.apply ⟨fun _ => none, fun _ => []⟩

/-- All slots of a key. -/
def Ledger.held (l : Ledger M F) (k : UInt64) : List (AggKey × PlainSlot M F) :=
  l.past k ++ (l.pending k).toList

namespace PlainSlot

def kind : PlainSlot M F → MetricKind
  | count _ => .count
  | gauge _ => .gauge
  | histogram _ => .histogram

def deltas : PlainSlot M F → List M
  | count deltas => deltas
  | _ => []

/-- The update is one of the slot's. -/
def Has : PlainSlot M F → Update M F → Prop
  | count deltas, .count delta => delta ∈ deltas
  | histogram values, .histogram value => value ∈ values
  | _, _ => False

end PlainSlot

/-- A report is of the slot's kind. -/
theorem PlainSlot.report_kind [AddCommMonoid M] [FloatBits F] {mb : ℕ} {ε : F} {p : PlainSlot M F}
    {value : FlushedValue M F} (h : p.report mb ε = some value) : value.kind = p.kind := by
  cases p with
  | count deltas =>
    rw [← Option.some.inj h]
    rfl
  | gauge v =>
    simp only [report] at h
    split_ifs at h
    rw [← Option.some.inj h]
    rfl
  | histogram values =>
    simp only [report] at h
    split_ifs at h
    obtain ⟨sketch, -, rfl⟩ := Option.map_eq_some_iff.mp h
    rfl

/-- The deltas recorded under `k`. -/
def MapEvent.deltasOn (k : UInt64) : List (MapEvent M F) → List M
  | [] => []
  | .record _ x (.count delta) :: es => if x.key = k then delta :: deltasOn k es else deltasOn k es
  | _ :: es => deltasOn k es

def MapEvent.Ungauged (es : List (MapEvent M F)) : Prop := ∀ c ∈ calls es, c.2.kind ≠ .gauge

theorem ledger_snoc (es : List (MapEvent M F)) (e : MapEvent M F) :
    ledger (es ++ [e]) = (ledger es).apply e := by
  rw [ledger, List.foldl_append]
  rfl

theorem ledger_pending (es : List (MapEvent M F)) : (ledger es).pending = plain es := by
  induction es using List.reverseRecOn with
  | nil => rfl
  | append_singleton es e ih =>
    rw [ledger_snoc, plain, List.foldl_append, ← plain, ← ih]
    cases e <;> rfl

theorem calls_append (es es' : List (MapEvent M F)) : calls (es ++ es') = calls es ++ calls es' := by
  induction es with
  | nil => rfl
  | cons e es ih => cases e <;> simp [calls, ih]

theorem deltasOn_append (k : UInt64) (es es' : List (MapEvent M F)) :
    deltasOn k (es ++ es') = deltasOn k es ++ deltasOn k es' := by
  induction es with
  | nil => rfl
  | cons e es ih =>
    rw [List.cons_append]
    rcases e with ⟨grow, x, delta | value | value⟩ | ⟨scan, out⟩
    · simp only [deltasOn, ih]
      split_ifs <;> rfl
    · exact ih
    · exact ih
    · exact ih

/-- The books of `es` hold its updates. -/
structure Accounts (es : List (MapEvent M F)) : Prop where
  owned : ∀ k, ∀ v ∈ (ledger es).held k,
    ∃ c ∈ calls es, c.1.key = k ∧ v.1 = c.1.aggKey ∧ v.2.kind = c.2.kind
  deltas : ∀ k, ((ledger es).held k).flatMap (fun v => v.2.deltas) = deltasOn k es
  covers : ∀ c ∈ calls es, ∃ v ∈ (ledger es).held c.1.key, v.2.Has c.2

/-- Nothing waits after a flush. -/
theorem pending_flush {es : List (MapEvent M F)} (hg : Ungauged es)
    (howned : ∀ k, ∀ v ∈ (ledger es).held k,
      ∃ c ∈ calls es, c.1.key = k ∧ v.1 = c.1.aggKey ∧ v.2.kind = c.2.kind) (scan out) (k : UInt64) :
    (ledger (es ++ [.flush scan out])).pending k = none := by
  rw [ledger_snoc]
  refine Option.filter_eq_none_iff.mpr fun v hv hgauge => ?_
  obtain ⟨c, hc, -, -, hkind⟩ := howned k v (List.mem_append_right _ (Option.mem_toList.mpr hv))
  refine hg c hc (hkind ▸ ?_)
  cases hs : v.2 with
  | gauge value => rfl
  | count deltas => rw [hs] at hgauge; cases hgauge
  | histogram values => rw [hs] at hgauge; cases hgauge

theorem held_flush {es : List (MapEvent M F)} (hg : Ungauged es)
    (howned : ∀ k, ∀ v ∈ (ledger es).held k,
      ∃ c ∈ calls es, c.1.key = k ∧ v.1 = c.1.aggKey ∧ v.2.kind = c.2.kind) (scan out) (k : UInt64) :
    (ledger (es ++ [.flush scan out])).held k = (ledger es).held k := by
  rw [Ledger.held, pending_flush hg howned, ledger_snoc]
  exact List.append_nil _

theorem held_record_of_ne {es : List (MapEvent M F)} {grow x} {u : Update M F} {k : UInt64}
    (h : k ≠ x.key) :
    (ledger (es ++ [.record grow x u])).held k = (ledger es).held k := by
  simp only [ledger_snoc, Ledger.held, Ledger.apply, PlainMap.record, Function.update_of_ne h]

/-- A call changes the waiting slot of its key, or makes one. -/
theorem held_record {es : List (MapEvent M F)} (grow) (x : Series) (u : Update M F) :
    (∃ a p, (ledger es).held x.key = (ledger es).past x.key ++ [(a, p)] ∧
      (ledger (es ++ [.record grow x u])).held x.key =
        (ledger es).past x.key ++ [(a, p.add u)]) ∨
    (ledger (es ++ [.record grow x u])).held x.key =
      (ledger es).held x.key ++ [(x.aggKey, .ofUpdate u)] := by
  rw [ledger_snoc]
  simp only [Ledger.held, Ledger.apply, PlainMap.record, Function.update_self]
  rcases (ledger es).pending x.key with _ | ⟨a, p⟩
  · exact .inr (by simp)
  · exact .inl ⟨a, p, rfl, rfl⟩

omit [FloatOps F] in
theorem add_spec {p : PlainSlot M F} {u : Update M F} (h : p.kind = u.kind) (hg : u.kind ≠ .gauge) :
    (p.add u).kind = p.kind ∧ (p.add u).deltas = p.deltas ++ (PlainSlot.ofUpdate u).deltas ∧
      (p.add u).Has u ∧ ∀ u', p.Has u' → (p.add u).Has u' := by
  cases u with
  | count delta =>
    cases p with
    | count deltas =>
      refine ⟨rfl, ?_, List.mem_append_right _ (List.mem_singleton_self _), fun u' hu => ?_⟩
      · rfl
      · cases u' with
        | count delta' => exact List.mem_append_left _ hu
        | gauge value => exact hu.elim
        | histogram value => exact hu.elim
    | gauge value => cases h
    | histogram values => cases h
  | gauge value => exact absurd rfl hg
  | histogram value =>
    cases p with
    | count deltas => cases h
    | gauge value => cases h
    | histogram values =>
      refine ⟨rfl, ?_, List.mem_append_right _ (List.mem_singleton_self _), fun u' hu => ?_⟩
      · rfl
      · cases u' with
        | count delta' => exact hu.elim
        | gauge value => exact hu.elim
        | histogram value' => exact List.mem_append_left _ hu

omit [FloatOps F] in
theorem ofUpdate_spec {u : Update M F} (hg : u.kind ≠ .gauge) :
    (PlainSlot.ofUpdate u).kind = u.kind ∧ (PlainSlot.ofUpdate u).Has u := by
  cases u with
  | count delta => exact ⟨rfl, List.mem_singleton_self _⟩
  | gauge value => exact absurd rfl hg
  | histogram value => exact ⟨rfl, List.mem_singleton_self _⟩

theorem ofUpdate_deltas (u : Update M F) (grow) (x : Series) :
    (PlainSlot.ofUpdate u).deltas = deltasOn x.key [MapEvent.record grow x u] := by
  cases u with
  | count delta => exact (if_pos rfl).symm
  | gauge value => rfl
  | histogram value => rfl

theorem deltasOn_of_ne {grow} {x : Series} {u : Update M F} {k : UInt64} (h : k ≠ x.key) :
    deltasOn k [MapEvent.record grow x u] = [] := by
  cases u with
  | count delta => exact if_neg (Ne.symm h)
  | gauge value => rfl
  | histogram value => rfl

section

variable {es : List (MapEvent M F)} {grow : Bool} {x : Series} {u : Update M F}

theorem Accounts.owned_append (h : Accounts es) (es' : List (MapEvent M F)) {k : UInt64} :
    ∀ v ∈ (ledger es).held k,
      ∃ c ∈ calls (es ++ es'), c.1.key = k ∧ v.1 = c.1.aggKey ∧ v.2.kind = c.2.kind := by
  intro v hv
  obtain ⟨c, hc, hrest⟩ := h.owned k v hv
  exact ⟨c, by rw [calls_append]; exact List.mem_append_left _ hc, hrest⟩

theorem mem_calls_record (es : List (MapEvent M F)) (grow : Bool) (x : Series) (u : Update M F) :
    (x, u) ∈ calls (es ++ [.record grow x u]) := by
  rw [calls_append]
  exact List.mem_append_right _ (List.mem_singleton_self _)

/-- A slot that waits under the key is of the kind of the call. -/
theorem Accounts.held_record (hone : OneSeriesPerKey (es ++ [.record grow x u])) (h : Accounts es) :
    (∃ a p, p.kind = u.kind ∧ (ledger es).held x.key = (ledger es).past x.key ++ [(a, p)] ∧
      (ledger (es ++ [.record grow x u])).held x.key = (ledger es).past x.key ++ [(a, p.add u)]) ∨
      (ledger (es ++ [.record grow x u])).held x.key =
        (ledger es).held x.key ++ [(x.aggKey, .ofUpdate u)] := by
  refine (ChalkMetrics.held_record grow x u).imp_left ?_
  rintro ⟨a, p, hold, hnow⟩
  obtain ⟨c, hc, hkey, -, hkind⟩ :=
    h.owned_append [.record grow x u] (k := x.key) (a, p) (by rw [hold]; simp)
  exact ⟨a, p, hkind.trans (hone c hc _ (mem_calls_record es grow x u) hkey).2, hold, hnow⟩

theorem Accounts.record_owned (hone : OneSeriesPerKey (es ++ [.record grow x u]))
    (hg : u.kind ≠ .gauge) (h : Accounts es) (k : UInt64) :
    ∀ v ∈ (ledger (es ++ [.record grow x u])).held k,
      ∃ c ∈ calls (es ++ [.record grow x u]),
        c.1.key = k ∧ v.1 = c.1.aggKey ∧ v.2.kind = c.2.kind := by
  intro v hv
  have hkeep := h.owned_append [.record grow x u] (k := k)
  by_cases hk : k = x.key
  · subst hk
    rcases h.held_record hone with ⟨a, p, hpu, hold, hnow⟩ | hnow
    · rw [hnow] at hv
      rcases List.mem_append.mp hv with hv | hv
      · exact hkeep v (List.mem_append_left _ hv)
      · obtain rfl := List.mem_singleton.mp hv
        obtain ⟨c, hc, hkey, hagg, hkind⟩ := hkeep (a, p) (by rw [hold]; simp)
        exact ⟨c, hc, hkey, hagg, (add_spec hpu hg).1.trans hkind⟩
    · rw [hnow] at hv
      rcases List.mem_append.mp hv with hv | hv
      · exact hkeep v hv
      · obtain rfl := List.mem_singleton.mp hv
        exact ⟨(x, u), mem_calls_record es grow x u, rfl, rfl, (ofUpdate_spec hg).1⟩
  · rw [held_record_of_ne hk] at hv
    exact hkeep v hv

theorem Accounts.record_deltas (hone : OneSeriesPerKey (es ++ [.record grow x u]))
    (hg : u.kind ≠ .gauge) (h : Accounts es) (k : UInt64) :
    ((ledger (es ++ [.record grow x u])).held k).flatMap (fun v => v.2.deltas) =
      deltasOn k (es ++ [.record grow x u]) := by
  rw [deltasOn_append, ← h.deltas k]
  by_cases hk : k = x.key
  · subst hk
    rw [← ofUpdate_deltas u grow x]
    rcases h.held_record hone with ⟨a, p, hpu, hold, hnow⟩ | hnow
    · rw [hnow, hold]
      simp only [List.flatMap_append, List.flatMap_cons, List.flatMap_nil, List.append_nil,
        (add_spec hpu hg).2.1, List.append_assoc]
    · rw [hnow]
      simp only [List.flatMap_append, List.flatMap_cons, List.flatMap_nil, List.append_nil]
  · rw [held_record_of_ne hk, deltasOn_of_ne hk, List.append_nil]

theorem Accounts.record_covers (hone : OneSeriesPerKey (es ++ [.record grow x u]))
    (hg : u.kind ≠ .gauge) (h : Accounts es) :
    ∀ c ∈ calls (es ++ [.record grow x u]),
      ∃ v ∈ (ledger (es ++ [.record grow x u])).held c.1.key, v.2.Has c.2 := by
  intro c hc
  rw [calls_append] at hc
  rcases List.mem_append.mp hc with hc | hc
  · obtain ⟨v, hv, hhas⟩ := h.covers c hc
    by_cases hk : c.1.key = x.key
    · rw [hk] at hv ⊢
      rcases h.held_record hone with ⟨a, p, hpu, hold, hnow⟩ | hnow
      · rw [hold] at hv
        rw [hnow]
        rcases List.mem_append.mp hv with hv | hv
        · exact ⟨v, List.mem_append_left _ hv, hhas⟩
        · obtain rfl := List.mem_singleton.mp hv
          exact ⟨(a, p.add u), by simp, (add_spec hpu hg).2.2.2 _ hhas⟩
      · rw [hnow]
        exact ⟨v, List.mem_append_left _ hv, hhas⟩
    · rw [held_record_of_ne hk]
      exact ⟨v, hv, hhas⟩
  · obtain rfl := List.mem_singleton.mp hc
    rcases h.held_record hone with ⟨a, p, hpu, hold, hnow⟩ | hnow
    · exact ⟨(a, p.add u), by rw [hnow]; simp, (add_spec hpu hg).2.2.1⟩
    · exact ⟨(x.aggKey, .ofUpdate u), by rw [hnow]; simp, (ofUpdate_spec hg).2⟩

theorem accounts_record (hone : OneSeriesPerKey (es ++ [.record grow x u])) (hg : u.kind ≠ .gauge)
    (h : Accounts es) : Accounts (es ++ [.record grow x u]) :=
  ⟨h.record_owned hone hg, h.record_deltas hone hg, h.record_covers hone hg⟩

end

/-- **The books hold every update once.** -/
theorem accounts (es : List (MapEvent M F)) (hone : OneSeriesPerKey es) (hg : Ungauged es) :
    Accounts es := by
  induction es using List.reverseRecOn with
  | nil => exact ⟨fun k v hv => absurd hv List.not_mem_nil, fun k => rfl,
      fun c hc => absurd hc List.not_mem_nil⟩
  | append_singleton es e ih =>
    have hsub : ∀ c ∈ calls es, c ∈ calls (es ++ [e]) := by
      intro c hc
      rw [calls_append]
      exact List.mem_append_left _ hc
    have hes := ih (fun c hc c' hc' => hone c (hsub c hc) c' (hsub c' hc'))
      fun c hc => hg c (hsub c hc)
    cases e with
    | record grow x u =>
      exact accounts_record hone (hg (x, u) (by rw [calls_append]; simp [calls])) hes
    | flush scan out =>
      have hcalls : calls (es ++ [MapEvent.flush scan out]) = calls es := by
        rw [calls_append]
        exact List.append_nil _
      have hheld := held_flush (fun c hc => hg c (hsub c hc)) hes.owned scan out
      refine ⟨fun k => ?_, fun k => ?_, fun c hc => ?_⟩
      · rw [hheld, hcalls]
        exact hes.owned k
      · rw [hheld, deltasOn_append]
        simp only [deltasOn, List.append_nil]
        exact hes.deltas k
      · rw [hcalls] at hc
        rw [hheld]
        exact hes.covers c hc

end ChalkMetrics
