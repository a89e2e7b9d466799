/-
# Lists read off slots that may be left out

A choice for a list of slots gives every slot an output of its own, or nothing
if the slot is optional; it is read as the list of the outputs. Two slots meet if
they have an output in common. Whether two lists of slots have a reading in
common (`alike_iff`), and whether two different choices for one list of slots
read the same (`ambiguous_iff`), is decided from left to right.

Key definitions: `Slots`, `Slots.alike`, `Slots.ambiguous`.
-/
import Mathlib.Data.List.Forall2
import Mathlib.Data.List.ReduceOption
import Mathlib.Data.Set.Insert

namespace Omission

/-- Slots of type `σ` with outputs in `β`. -/
structure Slots (σ β : Type*) where
  optional : σ → Bool
  outputs : σ → Set β
  meets : σ → σ → Bool
  meets_iff : ∀ s t, meets s t ↔ (outputs s ∩ outputs t).Nonempty

namespace Slots

variable {σ β : Type*} (S : Slots σ β)

def Fits (s : σ) : Option β → Prop
  | none => S.optional s
  | some b => b ∈ S.outputs s

/-- What the choices for the slots read as. -/
def readings (ss : List σ) : Set (List β) :=
  {out | ∃ choice, List.Forall₂ S.Fits ss choice ∧ choice.reduceOption = out}

/-- The first slot that is not left out meets `s`, and `tail` holds behind it. -/
def firstMeets (s : σ) (tail : List σ → Bool) : List σ → Bool
  | [] => false
  | t :: ts => (S.meets s t && tail ts) || (S.optional t && firstMeets s tail ts)

/-- There is a reading of both. -/
def alike : List σ → List σ → Bool
  | [], ts => ts.all S.optional
  | s :: ss, ts => (S.optional s && alike ss ts) || S.firstMeets s (alike ss) ts

/-- There are two choices with one reading. -/
def ambiguous : List σ → Bool
  | [] => false
  | s :: ss => (S.optional s && S.firstMeets s (S.alike ss) ss) || ambiguous ss

variable {S}

@[simp]
theorem readings_nil : S.readings [] = {[]} := by
  ext out
  constructor
  · rintro ⟨choice, hfits, rfl⟩
    cases hfits
    rfl
  · rintro rfl
    exact ⟨[], .nil, rfl⟩

theorem mem_readings_cons {s : σ} {ss : List σ} {out : List β} :
    out ∈ S.readings (s :: ss) ↔ (S.optional s ∧ out ∈ S.readings ss) ∨
      ∃ b ∈ S.outputs s, ∃ rest ∈ S.readings ss, out = b :: rest := by
  constructor
  · rintro ⟨choice, hfits, rfl⟩
    cases hfits with
    | @cons _ v _ choice hv hfits =>
      cases v with
      | none => exact .inl ⟨hv, choice, hfits, by simp⟩
      | some b => exact .inr ⟨b, hv, _, ⟨choice, hfits, rfl⟩, by simp⟩
  · rintro (⟨hopt, choice, hfits, rfl⟩ | ⟨b, hb, _, ⟨choice, hfits, rfl⟩, rfl⟩)
    · exact ⟨none :: choice, .cons hopt hfits, by simp⟩
    · exact ⟨some b :: choice, .cons hb hfits, by simp⟩

/-- All slots can be left out. -/
theorem nil_mem_readings {ss : List σ} : [] ∈ S.readings ss ↔ ss.all S.optional := by
  induction ss with
  | nil => simp
  | cons s ss ih =>
    rw [mem_readings_cons, ih]
    simp

theorem firstMeets_iff {s : σ} {tail : List σ → Bool} {R : Set (List β)}
    (htail : ∀ ts, tail ts ↔ (R ∩ S.readings ts).Nonempty) {ts : List σ} :
    S.firstMeets s tail ts ↔ ∃ b ∈ S.outputs s, ∃ rest ∈ R, b :: rest ∈ S.readings ts := by
  induction ts with
  | nil => simp [firstMeets]
  | cons t ts ih =>
    simp only [firstMeets, Bool.or_eq_true, Bool.and_eq_true, S.meets_iff, htail, ih]
    constructor
    · rintro (⟨⟨b, hs, ht⟩, rest, hR, hrest⟩ | ⟨hopt, b, hb, rest, hR, hrest⟩)
      · exact ⟨b, hs, rest, hR, mem_readings_cons.mpr (.inr ⟨b, ht, rest, hrest, rfl⟩)⟩
      · exact ⟨b, hb, rest, hR, mem_readings_cons.mpr (.inl ⟨hopt, hrest⟩)⟩
    · rintro ⟨b, hb, rest, hR, hread⟩
      rcases mem_readings_cons.mp hread with ⟨hopt, hread⟩ | ⟨b', hb', rest', hread, he⟩
      · exact .inr ⟨hopt, b, hb, rest, hR, hread⟩
      · obtain ⟨rfl, rfl⟩ := List.cons.inj he
        exact .inl ⟨⟨b, hb, hb'⟩, rest, hR, hread⟩

/-- **Two lists of slots have a reading in common.** -/
theorem alike_iff : ∀ {ss ts : List σ},
    S.alike ss ts ↔ (S.readings ss ∩ S.readings ts).Nonempty
  | [], ts => by
    rw [alike, ← nil_mem_readings, readings_nil, Set.singleton_inter_nonempty]
  | s :: ss, ts => by
    rw [alike, Bool.or_eq_true, Bool.and_eq_true, firstMeets_iff fun _ => alike_iff, alike_iff]
    constructor
    · rintro (⟨hopt, out, hs, ht⟩ | ⟨b, hb, rest, hs, ht⟩)
      · exact ⟨out, mem_readings_cons.mpr (.inl ⟨hopt, hs⟩), ht⟩
      · exact ⟨b :: rest, mem_readings_cons.mpr (.inr ⟨b, hb, rest, hs, rfl⟩), ht⟩
    · rintro ⟨out, hs, ht⟩
      rcases mem_readings_cons.mp hs with ⟨hopt, hss⟩ | ⟨b, hb, rest, hss, rfl⟩
      · exact .inl ⟨hopt, out, hss, ht⟩
      · exact .inr ⟨b, hb, rest, hss, ht⟩

/-- A slot's output left out at the front and put out by a later slot. -/
theorem exists_of_firstMeets {s : σ} {ss : List σ} (hopt : S.optional s)
    (h : S.firstMeets s (S.alike ss) ss) : ∃ c c', List.Forall₂ S.Fits (s :: ss) c ∧
      List.Forall₂ S.Fits (s :: ss) c' ∧ c ≠ c' ∧ c.reduceOption = c'.reduceOption := by
  obtain ⟨b, hb, rest, ⟨c, hc, hread⟩, c', hc', hread'⟩ := (firstMeets_iff fun _ => alike_iff).mp h
  refine ⟨some b :: c, none :: c', .cons hb hc, .cons hopt hc', nofun, ?_⟩
  simp [hread, hread']

theorem firstMeets_of_exists {s : σ} {ss : List σ} {b : β} {c c' : List (Option β)}
    (hb : b ∈ S.outputs s) (hc : List.Forall₂ S.Fits ss c) (hc' : List.Forall₂ S.Fits ss c')
    (h : b :: c.reduceOption = c'.reduceOption) : S.firstMeets s (S.alike ss) ss :=
  (firstMeets_iff fun _ => alike_iff).mpr ⟨b, hb, _, ⟨c, hc, rfl⟩, c', hc', h.symm⟩

/-- **Two choices read the same**, of slots with outputs. -/
theorem ambiguous_iff {ss : List σ} (hne : ∀ s ∈ ss, (S.outputs s).Nonempty) :
    S.ambiguous ss ↔ ∃ c c', List.Forall₂ S.Fits ss c ∧ List.Forall₂ S.Fits ss c' ∧ c ≠ c' ∧
      c.reduceOption = c'.reduceOption := by
  induction ss with
  | nil =>
    refine iff_of_false Bool.false_ne_true ?_
    rintro ⟨c, c', hc, hc', hcc, -⟩
    cases hc
    cases hc'
    exact hcc rfl
  | cons s ss ih =>
    obtain ⟨⟨b, hb⟩, hne⟩ := List.forall_mem_cons.mp hne
    rw [ambiguous, Bool.or_eq_true, Bool.and_eq_true, ih hne]
    constructor
    · rintro (⟨hopt, h⟩ | ⟨c, c', hc, hc', hcc, hread⟩)
      · exact exists_of_firstMeets hopt h
      · refine ⟨some b :: c, some b :: c', .cons hb hc, .cons hb hc', ?_, ?_⟩
        · exact fun he => hcc (List.cons.inj he).2
        · simp [hread]
    · rintro ⟨_, _, hfits, hfits', hcc, hread⟩
      obtain ⟨v, c, hv, hc, rfl⟩ := List.forall₂_cons_left_iff.mp hfits
      obtain ⟨v', c', hv', hc', rfl⟩ := List.forall₂_cons_left_iff.mp hfits'
      cases v with
      | none =>
        cases v' with
        | none =>
          refine .inr ⟨c, c', hc, hc', ?_, by simpa using hread⟩
          rintro rfl
          exact hcc rfl
        | some b' =>
          left
          exact ⟨hv, firstMeets_of_exists hv' hc' hc (by simpa using hread.symm)⟩
      | some b =>
        cases v' with
        | none =>
          left
          exact ⟨hv', firstMeets_of_exists hv hc hc' (by simpa using hread)⟩
        | some b' =>
          -- a difference between the two outputs would be read
          simp only [List.reduceOption_cons_of_some, List.cons.injEq] at hread
          obtain ⟨rfl, hread⟩ := hread
          refine .inr ⟨c, c', hc, hc', ?_, hread⟩
          rintro rfl
          exact hcc rfl

theorem firstMeets_eq_false {s : σ} {tail : List σ → Bool} {ts : List σ}
    (h : ∀ t ∈ ts, S.meets s t = false) : S.firstMeets s tail ts = false := by
  induction ts with
  | nil => rfl
  | cons t ts ih =>
    obtain ⟨ht, hts⟩ := List.forall_mem_cons.mp h
    simp [firstMeets, ht, ih hts]

/-- Slots of which no two meet. -/
theorem ambiguous_eq_false {ss : List σ} (h : ss.Pairwise fun s t => S.meets s t = false) :
    S.ambiguous ss = false := by
  induction h with
  | nil => rfl
  | cons hs _ ih => simp [ambiguous, firstMeets_eq_false hs, ih]

end Slots
end Omission
