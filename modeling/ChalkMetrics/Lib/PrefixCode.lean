/-
# Codes that end by themselves

`Codes P enc`: of the values in `P`, two encodings with something behind them
are alike only if the values and what is behind them are. Encodings of one
length and encodings up to an end mark are such codes, a flag may be put in
front, and encodings of different kinds may be put one behind another
(`Codes.zip`), so the fields of a record can be read back from its bytes.

Key definitions: `Codes`.
-/
import ChalkMetrics.Lib.Delimited
import Mathlib.Data.List.Forall2

namespace PrefixCode

variable {α β ι : Type*}

def Codes (P : α → Prop) (enc : α → List β) : Prop :=
  ∀ x y, P x → P y → ∀ rest rest', enc x ++ rest = enc y ++ rest' → x = y ∧ rest = rest'

variable {P : α → Prop} {enc : α → List β}

theorem Codes.injective (h : Codes P enc) {x y : α} (hx : P x) (hy : P y) (he : enc x = enc y) :
    x = y :=
  (h x y hx hy [] [] (congrArg (· ++ []) he)).1

/-- Another encoding of fewer values. -/
theorem Codes.congr {Q : α → Prop} {enc' : α → List β} (h : Codes P enc)
    (he : ∀ x, Q x → P x ∧ enc' x = enc x) : Codes Q enc' := by
  intro x y hx hy rest rest' heq
  rw [(he x hx).2, (he y hy).2] at heq
  exact h x y (he x hx).1 (he y hy).1 rest rest' heq

/-- **Values of one kind, one behind another**, if each leaves something. -/
theorem Codes.flatMap_inj (h : Codes P enc) (hne : ∀ x, P x → enc x ≠ []) :
    ∀ {xs ys : List α}, (∀ x ∈ xs, P x) → (∀ y ∈ ys, P y) → xs.flatMap enc = ys.flatMap enc →
      xs = ys
  | [], [], _, _, _ => rfl
  | [], y :: ys, _, hys, he => by
    rw [List.flatMap_nil, List.flatMap_cons] at he
    exact absurd (List.append_eq_nil_iff.mp he.symm).1 (hne y (hys y List.mem_cons_self))
  | x :: xs, [], hxs, _, he => by
    rw [List.flatMap_nil, List.flatMap_cons] at he
    exact absurd (List.append_eq_nil_iff.mp he).1 (hne x (hxs x List.mem_cons_self))
  | x :: xs, y :: ys, hxs, hys, he => by
    obtain ⟨hx, hxs'⟩ := List.forall_mem_cons.mp hxs
    obtain ⟨hy, hys'⟩ := List.forall_mem_cons.mp hys
    rw [List.flatMap_cons, List.flatMap_cons] at he
    obtain ⟨hxy, htail⟩ := h x y hx hy _ _ he
    rw [hxy, h.flatMap_inj hne hxs' hys' htail]

/-- One value needs no code. -/
theorem codes_subsingleton (h : ∀ x y, P x → P y → x = y) : Codes P fun _ => ([] : List β) := by
  intro x y hx hy rest rest' he
  exact ⟨h x y hx hy, he⟩

theorem codes_fixed {n : ℕ} (hlen : ∀ x, P x → (enc x).length = n)
    (hinj : ∀ x y, P x → P y → enc x = enc y → x = y) : Codes P enc := by
  intro x y hx hy rest rest' he
  obtain ⟨hxy, hrest⟩ := List.append_inj he ((hlen x hx).trans (hlen y hy).symm)
  exact ⟨hinj x y hx hy hxy, hrest⟩

/-- Up to an end mark that is not in the encoding. -/
theorem codes_marked {mark : β} (hmark : ∀ x, P x → mark ∉ enc x)
    (hinj : ∀ x y, P x → P y → enc x = enc y → x = y) : Codes P fun x => enc x ++ [mark] := by
  intro x y hx hy rest rest' he
  simp only [List.append_assoc, List.singleton_append] at he
  obtain ⟨hxy, hrest⟩ := Delimited.PairSyntax.key_eq (hmark x hx) (hmark y hy) he
  exact ⟨hinj x y hx hy hxy, hrest⟩

/-- A value that may be missing, behind a flag of one length. -/
theorem Codes.option (h : Codes P enc) {absent present : List β}
    (hlen : absent.length = present.length) (hne : absent ≠ present) :
    Codes (fun v : Option α => ∀ x, v = some x → P x)
      (fun v => match v with | none => absent | some x => present ++ enc x) := by
  have hflag : ∀ rest rest', absent ++ rest = present ++ rest' → False := fun rest rest' he =>
    hne (List.append_inj he hlen).1
  intro v w hv hw rest rest' he
  cases v with
  | none =>
    cases w with
    | none => exact ⟨rfl, List.append_cancel_left he⟩
    | some y =>
      rw [List.append_assoc] at he
      exact (hflag _ _ he).elim
  | some x =>
    cases w with
    | none =>
      rw [List.append_assoc] at he
      exact (hflag _ _ he.symm).elim
    | some y =>
      rw [List.append_assoc, List.append_assoc] at he
      obtain ⟨hxy, hrest⟩ := h x y (hv x rfl) (hw y rfl) rest rest' (List.append_cancel_left he)
      exact ⟨congrArg some hxy, hrest⟩

/-- **Values of different kinds, one behind another.** -/
theorem Codes.zip {Q : ι → α → Prop} {code : ι → α → List β} : ∀ {is : List ι},
    (∀ i ∈ is, Codes (Q i) (code i)) →
    Codes (List.Forall₂ Q is) fun xs => (List.zipWith code is xs).flatten
  | [], _ => by
    intro xs ys hxs hys rest rest' he
    cases hxs
    cases hys
    exact ⟨rfl, he⟩
  | i :: is, h => by
    obtain ⟨hi, his⟩ := List.forall_mem_cons.mp h
    intro xs ys hxs hys rest rest' he
    cases hxs with
    | @cons _ x _ xs hx hxs =>
      cases hys with
      | @cons _ y _ ys hy hys =>
        simp only [List.zipWith_cons_cons, List.flatten_cons, List.append_assoc] at he
        obtain ⟨hxy, he⟩ := hi x y hx hy _ _ he
        obtain ⟨hxys, hrest⟩ := Codes.zip his xs ys hxs hys rest rest' he
        exact ⟨by rw [hxy, hxys], hrest⟩

end PrefixCode
