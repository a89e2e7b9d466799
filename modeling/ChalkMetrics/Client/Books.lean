/-
# The books of a client

Each count call is put out or stored, once, under its key, and every value is
the sum of the deltas it is marked with (`Books`); the final flush leaves
nothing that is owed in the map (`Cleared`). Every step keeps both, as long as
keys used for counts are used for counts only (`books_step`, `cleared_step`).

Key definitions: `Books`, `Cleared`, `CountKeys`.
-/
import ChalkMetrics.Client.Frames
import Mathlib.Data.Multiset.Count

namespace ChalkMetrics

open HashTable StripedAggMap

section

variable {F : Type}

/-- Keys used for counts are used for counts only. -/
def CountKeys (recorded : List (Series × Update (BitVec 64) F)) : Prop :=
  ∀ c ∈ recorded, ∀ c' ∈ recorded, c.1.key = c'.1.key → c.2.kind = .count → c'.2.kind = .count

theorem CountKeys.of_prefix {recorded recorded' : List (Series × Update (BitVec 64) F)}
    (hp : recorded <+: recorded') (h : CountKeys recorded') : CountKeys recorded :=
  fun c hc c' hc' => h c (hp.subset hc) c' (hp.subset hc')

variable [FloatOps F] [FloatBits F]

/-- The counts of a key, put out or stored. -/
def Client.counted (w : Client F) (k : UInt64) : Marked := countsOut w.out k + countsIn w.aggregator k

/-- Each count call is put out or stored, once, under its key. -/
structure Books (w : Client F) : Prop where
  placed : w.aggregator.Placed
  kinds : ∀ k, ∀ v ∈ w.aggregator.bagOf k, ∃ c ∈ w.recorded, c.1.key = k ∧ v.2.kind = c.2.kind
  nodup : ∀ k, (w.counted k).2.Nodup
  marks : ∀ k i, i ∈ (w.counted k).2 ↔ ∃ x delta, w.recorded[i]? = some (x, .count delta) ∧ x.key = k
  stored : ∀ k, ∀ v ∈ w.aggregator.bagOf k, v.2.countValue ∈ Summed w.recorded
  summed : ∀ p ∈ w.out, p.2.value.countValue ∈ Summed w.recorded

/-- The final flush leaves nothing owed behind. -/
structure Cleared (w : Client F) : Prop where
  before : w.owed = none → w.calls = [] ∧ w.permit = false ∧ w.worker.final = false
  le : ∀ m ∈ w.owed, m ≤ w.recorded.length
  gone : ∀ m ∈ w.owed, ∀ k, (stripeIdx k).val < w.worker.cleared → ∀ i < m,
    i ∉ (countsIn w.aggregator k).2

/-! ### Recording and flushing -/

theorem countsOut_append (out out' : List (UInt64 × FlushedMetric Marked F)) (k : UInt64) :
    countsOut (out ++ out') k = countsOut out k + countsOut out' k := by
  rw [countsOut, countsOut, countsOut, outOf_append]
  simp [Measure.ofOut]

theorem Books.still {w w' : Client F} (hs : Still w w') (hw : Books w) : Books w' := by
  have hbag : ∀ k, w'.aggregator.bagOf k = w.aggregator.bagOf k := fun k => by
    rw [bagOf, bagOf, hs.stripes]
  have hcounted : ∀ k, w'.counted k = w.counted k := fun k => by
    rw [Client.counted, Client.counted, countsIn, countsIn, hbag, hs.out]
  refine ⟨fun i k hk => ?_, fun k v hv => ?_, fun k => ?_, fun k i => ?_, fun k v hv => ?_,
    fun p hp => ?_⟩
  · rw [hs.stripes]
    exact hw.placed i k hk
  · rw [hs.recorded]
    exact hw.kinds k v (hbag k ▸ hv)
  · rw [hcounted]
    exact hw.nodup k
  · rw [hcounted, hs.recorded]
    exact hw.marks k i
  · rw [hs.recorded]
    exact hw.stored k v (hbag k ▸ hv)
  · rw [hs.recorded]
    exact hw.summed p (hs.out ▸ hp)

omit [FloatOps F] [FloatBits F] in
theorem mem_mark {u : Update (BitVec 64) F} {i j : ℕ} :
    i ∈ (u.mark j).delta.2 ↔ i = j ∧ ∃ delta, u = .count delta := by
  cases u with
  | count delta => simp [Update.mark, Update.delta]
  | gauge value => simp [Update.mark, Update.delta]
  | histogram value => simp [Update.mark, Update.delta]

omit [FloatOps F] [FloatBits F] in
theorem getElem?_recorded {recorded : List (Series × Update (BitVec 64) F)} {c} {i : ℕ} :
    (recorded ++ [c])[i]? = if i = recorded.length then some c else recorded[i]? := by
  rw [List.getElem?_append]
  split_ifs with h₁ h₂ h₂
  · omega
  · rfl
  · subst h₂
    rw [Nat.sub_self]
    rfl
  · rw [List.getElem?_eq_none (Nat.le_of_not_lt h₁), List.getElem?_eq_none]
    rw [List.length_singleton]
    omega

/-- A call adds its marked delta under its key. -/
theorem Books.counts {w : Client F} {grow x} {u : Update (BitVec 64) F} {aggregator}
    (h : MapStep w.aggregator (.record grow x (u.mark w.recorded.length)) aggregator)
    (hkeys : CountKeys (w.recorded ++ [(x, u)])) (hw : Books w) (k : UInt64) :
    countsIn aggregator k = countsIn w.aggregator k +
      if k = x.key then (u.mark w.recorded.length).delta else 0 := by
  refine record_counts h (fun hkind v hv => ?_) k
  -- what is stored under the key of a count is counts
  obtain ⟨c, hc, hkey, hvk⟩ := hw.kinds _ v hv
  rw [hvk]
  exact hkeys (x, u) (by simp) c (List.mem_append_left _ hc) hkey.symm (by rwa [mark_kind] at hkind)

section

variable {w : Client F} {grow : Bool} {x : Series} {u : Update (BitVec 64) F}
  {aggregator : StripedAggMap Marked F}

theorem Books.record_kinds
    (h : MapStep w.aggregator (.record grow x (u.mark w.recorded.length)) aggregator) (hw : Books w)
    (k : UInt64) : ∀ v ∈ aggregator.bagOf k,
      ∃ c ∈ w.recorded ++ [(x, u)], c.1.key = k ∧ v.2.kind = c.2.kind := by
  obtain ⟨hself, hother, -⟩ := mapStep_record h
  have hold : ∀ {v}, v ∈ w.aggregator.bagOf k →
      ∃ c ∈ w.recorded ++ [(x, u)], c.1.key = k ∧ v.2.kind = c.2.kind := by
    intro v hv
    obtain ⟨c, hc, hck⟩ := hw.kinds k v hv
    exact ⟨c, List.mem_append_left _ hc, hck⟩
  intro v hv
  by_cases hk : k = x.key
  · subst hk
    rcases hself with ⟨entry, habs⟩ | ⟨-, hbag⟩
    · rcases absorbed_kind habs v hv with ⟨v₀, hv₀, hkind⟩ | hkind
      · obtain ⟨c, hc, hkey, hck⟩ := hold hv₀
        exact ⟨c, hc, hkey, hkind.trans hck⟩
      · exact ⟨(x, u), by simp, rfl, by rw [hkind, mark_kind]⟩
    · exact hold (hbag ▸ hv)
  · exact hold (hother k hk ▸ hv)

theorem Books.record_stored
    (h : MapStep w.aggregator (.record grow x (u.mark w.recorded.length)) aggregator) (hw : Books w)
    (k : UInt64) : ∀ v ∈ aggregator.bagOf k, v.2.countValue ∈ Summed (w.recorded ++ [(x, u)]) := by
  obtain ⟨hself, hother, -⟩ := mapStep_record h
  have hold : ∀ v ∈ w.aggregator.bagOf k, v.2.countValue ∈ Summed (w.recorded ++ [(x, u)]) :=
    fun v hv => summed_append _ _ (hw.stored k v hv)
  by_cases hk : k = x.key
  · subst hk
    rcases hself with ⟨entry, habs⟩ | ⟨-, hbag⟩
    · exact absorbed_mem habs (mark_summed _ x u) hold
    · exact hbag ▸ hold
  · exact hother k hk ▸ hold

/-- The mark of a call is new. -/
theorem Books.fresh (hw : Books w) (k : UInt64) : w.recorded.length ∉ (w.counted k).2 := by
  intro hmem
  obtain ⟨x', delta, hx', -⟩ := (hw.marks k _).mp hmem
  rw [List.getElem?_eq_none (Nat.le_refl _)] at hx'
  cases hx'

theorem Books.nodup_mark (hw : Books w) (k : UInt64) :
    (w.counted k + if k = x.key then (u.mark w.recorded.length).delta else 0).2.Nodup := by
  split_ifs
  · rw [Prod.snd_add, Multiset.nodup_add]
    refine ⟨hw.nodup k, ?_, Multiset.disjoint_left.mpr fun {i} hi hmark => ?_⟩
    · cases u with
      | count delta => exact Multiset.nodup_singleton _
      | gauge value => exact Multiset.nodup_zero
      | histogram value => exact Multiset.nodup_zero
    · rw [(mem_mark.mp hmark).1] at hi
      exact hw.fresh k hi
  · rw [add_zero]
    exact hw.nodup k

theorem Books.marks_mark (hw : Books w) (k : UInt64) (i : ℕ) :
    i ∈ (w.counted k + if k = x.key then (u.mark w.recorded.length).delta else 0).2 ↔
      ∃ x' delta, (w.recorded ++ [(x, u)])[i]? = some (x', .count delta) ∧ x'.key = k := by
  rw [getElem?_recorded]
  by_cases hi : i = w.recorded.length
  · subst hi
    simp only [if_true, Prod.snd_add, Multiset.mem_add, hw.fresh k, false_or, Option.some.injEq,
      Prod.mk.injEq]
    split_ifs with hk
    · rw [mem_mark]
      exact ⟨fun ⟨_, delta, hu⟩ => ⟨x, delta, ⟨rfl, hu⟩, hk.symm⟩,
        fun ⟨_, delta, ⟨_, hu⟩, _⟩ => ⟨rfl, delta, hu⟩⟩
    · refine ⟨fun h => absurd h (Multiset.notMem_zero _), ?_⟩
      rintro ⟨x', delta, ⟨rfl, -⟩, hk'⟩
      exact absurd hk'.symm hk
  · rw [if_neg hi, ← hw.marks, Prod.snd_add, Multiset.mem_add, or_iff_left]
    split_ifs
    · exact fun hmark => hi (mem_mark.mp hmark).1
    · exact Multiset.notMem_zero _

theorem Books.record
    (h : MapStep w.aggregator (.record grow x (u.mark w.recorded.length)) aggregator)
    (hkeys : CountKeys (w.recorded ++ [(x, u)])) (hw : Books w) :
    Books { w with aggregator, recorded := w.recorded ++ [(x, u)] } := by
  have hcounted : ∀ k, Client.counted { w with aggregator, recorded := w.recorded ++ [(x, u)] } k =
      w.counted k + if k = x.key then (u.mark w.recorded.length).delta else 0 := by
    intro k
    rw [Client.counted, hw.counts h hkeys, ← add_assoc]
    rfl
  exact
    { placed := (mapStep_record h).2.2 hw.placed
      kinds := hw.record_kinds h
      nodup := fun k => by
        rw [hcounted]
        exact hw.nodup_mark k
      marks := fun k i => by
        rw [hcounted]
        exact hw.marks_mark k i
      stored := hw.record_stored h
      summed := fun p hp => summed_append _ _ (hw.summed p hp) }

end

theorem Books.stripe {w : Client F} {final call scan out aggregator} {i : Fin 64}
    (hw : w.worker = .flushing final call) (h : w.aggregator.flushStripe scan i = (out, aggregator))
    (hb : Books w) :
    Books { w with worker := .flushing final ⟨call.next + 1, call.out ++ out⟩, aggregator } := by
  have ht := stripe_counts h hb.placed
  have hout : Client.out { w with
      worker := .flushing final ⟨call.next + 1, call.out ++ out⟩, aggregator } = w.out ++ out := by
    rw [Client.out, Client.out, hw, List.append_assoc]
    rfl
  have hcounted : ∀ k, Client.counted { w with
      worker := .flushing final ⟨call.next + 1, call.out ++ out⟩, aggregator } k = w.counted k := by
    intro k
    rw [Client.counted, hout, countsOut_append, add_assoc, ht.counts, Client.counted]
  refine ⟨ht.placed, fun k v hv => hb.kinds k v (ht.subset k v hv), fun k => ?_, fun k i => ?_,
    fun k v hv => hb.stored k v (ht.subset k v hv), fun p hp => ?_⟩
  · rw [hcounted]
    exact hb.nodup k
  · rw [hcounted]
    exact hb.marks k i
  · rw [hout] at hp
    rcases List.mem_append.mp hp with hp | hp
    · exact hb.summed p hp
    · exact ht.mem _ hb.stored p hp

theorem books_step {tokio : Tokio} {w w' : Client F} {e : ClientEvent F}
    (h : ClientStep tokio w e w') (hkeys : CountKeys w'.recorded) (hw : Books w) : Books w' := by
  have hquiet : e.Quiet → Books w' := fun hq => hw.still (still_step h hq)
  cases h with
  | record h => exact hw.record h hkeys
  | stripe hphase hn h => exact hw.stripe hphase h
  | _ => exact hquiet trivial

theorem books_build (makeHash) (mb : ℕ) (ε : F) (aggregate : Bool) (n interval : ℕ) :
    Books (buildInner makeHash mb ε aggregate n interval) where
  placed := placed_new makeHash mb ε _
  kinds := nofun
  nodup _ := Multiset.nodup_zero
  marks _ _ := ⟨fun h => absurd h (Multiset.notMem_zero _), fun ⟨_, _, h, _⟩ => by cases h⟩
  stored := nofun
  summed := nofun

/-! ### The final flush -/

omit [FloatOps F] [FloatBits F] in
theorem cleared_of_not_final {phase : WorkerPhase F} (h : phase.final = false) :
    phase.cleared = 0 := by
  unfold WorkerPhase.final at h
  unfold WorkerPhase.cleared
  split at h <;> simp_all

theorem Cleared.record {w : Client F} {grow x} {u : Update (BitVec 64) F} {aggregator}
    (h : MapStep w.aggregator (.record grow x (u.mark w.recorded.length)) aggregator)
    (hkeys : CountKeys (w.recorded ++ [(x, u)])) (hb : Books w) (hw : Cleared w) :
    Cleared { w with aggregator, recorded := w.recorded ++ [(x, u)] } := by
  refine ⟨hw.before, fun m hm => ?_, fun m hm k hk i hi hmem => ?_⟩
  · rw [List.length_append]
    exact Nat.le_add_right_of_le (hw.le m hm)
  · rw [hb.counts h hkeys, Prod.snd_add, Multiset.mem_add] at hmem
    rcases hmem with hmem | hmem
    · exact hw.gone m hm k hk i hi hmem
    · split_ifs at hmem
      · -- the mark of the call is not among those owed
        have hlen := hw.le m hm
        rw [(mem_mark.mp hmem).1] at hi
        omega
      · exact absurd hmem (Multiset.notMem_zero _)

theorem Cleared.stripe {w : Client F} {final call scan out aggregator} {hn : call.next < 64}
    (hw : w.worker = .flushing final call)
    (h : w.aggregator.flushStripe scan ⟨call.next, hn⟩ = (out, aggregator))
    (hb : Books w) (hc : Cleared w) :
    Cleared { w with worker := .flushing final ⟨call.next + 1, call.out ++ out⟩, aggregator } := by
  have ht := stripe_counts h hb.placed
  refine ⟨fun howed => ?_, hc.le, fun m hm k hk i hi hmem => ?_⟩
  · have hnone := hc.before howed
    rw [hw] at hnone
    exact hnone
  · have hgone := hc.gone m hm k
    rw [hw] at hgone
    cases final with
    | false => exact absurd hk (Nat.not_lt_zero _)
    | true =>
      by_cases hlast : stripeIdx k = ⟨call.next, hn⟩
      · rw [ht.empty k hlast] at hmem
        exact absurd hmem (Multiset.notMem_zero _)
      · have hlt : (stripeIdx k).val < call.next := by
          have hne : (stripeIdx k).val ≠ call.next := fun heq => hlast (Fin.ext heq)
          have hle : (stripeIdx k).val < call.next + 1 := hk
          omega
        refine hgone hlt i hi ?_
        rw [← ht.counts k, Prod.snd_add]
        exact Multiset.mem_add.mpr (.inr hmem)

theorem Cleared.still {w w' : Client F} (hs : Still w w') (howed : w'.owed = w.owed)
    (hnone : w.owed = none → w'.calls = [] ∧ w'.permit = false ∧ w'.worker.final = false)
    (hle : w'.worker.cleared ≤ w.worker.cleared) (hw : Cleared w) : Cleared w' := by
  have hcounts : ∀ k, (countsIn w'.aggregator k : Marked) = countsIn w.aggregator k := fun k => by
    rw [countsIn, countsIn, bagOf, bagOf, hs.stripes]
  refine ⟨fun h => hnone (howed ▸ h), fun m hm => ?_, fun m hm k hk i hi => ?_⟩
  · rw [hs.recorded]
    exact hw.le m (howed ▸ hm)
  · rw [hcounts]
    exact hw.gone m (howed ▸ hm) k (Nat.lt_of_lt_of_le hk hle) i hi

theorem cleared_step {tokio : Tokio} {w w' : Client F} {e : ClientEvent F}
    (h : ClientStep tokio w e w') (hkeys : CountKeys w'.recorded) (hb : Books w) (hw : Cleared w) :
    Cleared w' := by
  have hquiet : e.Quiet → e ≠ .notified → e ≠ .exportPanics → ¬ e.OfCall → Cleared w' := by
    intro hq hn hpanics hcall
    obtain ⟨hfinal, hle⟩ := round_step h hq hn hpanics
    obtain ⟨hsame, hpermit⟩ := callsSame_step h hcall
    refine hw.still (still_step h hq) hsame.owed (fun hnone => ?_) hle.le
    obtain ⟨hc, hp, hf⟩ := hw.before hnone
    exact ⟨hsame.calls.trans hc, (hpermit hn).trans hp, hfinal.trans hf⟩
  -- a call that is under way was begun
  have hbegun : ∀ {c : ℕ} {phase}, w.calls[c]? = some phase → e.Quiet → e ≠ .notified →
      e ≠ .exportPanics → w'.owed = w.owed → Cleared w' := by
    intro c phase hc hq hn hpanics howed
    refine hw.still (still_step h hq) howed (fun hnone => ?_) (round_step h hq hn hpanics).2.le
    rw [(hw.before hnone).1] at hc
    cases hc
  have hstill := still_step h
  cases h with
  | record h => exact hw.record h hkeys hb
  | stripe hphase hn h => exact hw.stripe hphase h hb
  | notified hphase hp =>
    refine hw.still (hstill trivial) rfl (fun hnone => ?_) (Nat.zero_le _)
    rw [(hw.before hnone).2.1] at hp
    cases hp
  | exportPanics hphase hlt =>
    refine hw.still (hstill trivial) rfl (fun hnone => ?_) (Nat.zero_le _)
    obtain ⟨hc, hp, -⟩ := hw.before hnone
    exact ⟨hc, hp, rfl⟩
  | shutdown =>
    refine ⟨nofun, fun m hm => ?_, fun m hm k hk i hi => ?_⟩
    · obtain rfl := Option.some.inj hm
      rcases howed : w.owed with _ | m
      · exact Nat.le_refl _
      · exact hw.le m howed
    · obtain rfl := Option.some.inj hm
      rcases howed : w.owed with _ | m
      · rw [cleared_of_not_final (hw.before howed).2.2] at hk
        exact absurd hk (Nat.not_lt_zero _)
      · rw [howed] at hi
        exact hw.gone m howed k hk i hi
  | notify hc => exact hbegun hc trivial nofun nofun rfl
  | lock hc hg => exact hbegun hc trivial nofun nofun rfl
  | take hc => exact hbegun hc trivial nofun nofun (by split_ifs <;> rfl)
  | join hc hphase => exact hbegun hc trivial nofun nofun rfl
  | _ => exact hquiet trivial nofun nofun nofun

end
end ChalkMetrics
