/-
# Quoted text

A `Quoting` has a quote, an escape and, for every token that does not stand for
itself between quotes, the letter that stands for it behind the escape.
`quoted` reads up to the closing quote, and reads a text off just its escaped
form (`Parses.quoted`). Escaping makes a text longer unless it is `Bare`
(`escape_le`): so what is written without escapes is read back just when it is
bare.

Key definitions: `Quoting`, `Quoting.escape`, `Quoting.quoted`.
-/
import ChalkMetrics.Lib.Parsing

namespace Parsing

/-- `letter` and `meaning` are inverse to each other. -/
structure Quoting (τ : Type) where
  quote : τ
  esc : τ
  letter : τ → Option τ
  meaning : τ → Option τ
  meaning_iff : ∀ {l t}, meaning l = some t ↔ letter t = some l
  quote_letter : letter quote ≠ none
  esc_letter : letter esc ≠ none
  quote_ne_esc : quote ≠ esc

namespace Quoting

variable {τ ε : Type} (Q : Quoting τ)

/-- What a token is written as. -/
def spell (t : τ) : List τ :=
  match Q.letter t with
  | some l => [Q.esc, l]
  | none => [t]

def escape (v : List τ) : List τ := v.flatMap Q.spell

/-- Every token stands for itself. -/
def Bare (v : List τ) : Prop := ∀ t ∈ v, Q.letter t = none

/-- **Escaping lengthens a text** that is not bare. -/
theorem escape_le : ∀ v : List τ, Q.Bare v ∧ Q.escape v = v ∨ v.length < (Q.escape v).length
  | [] => .inl ⟨nofun, rfl⟩
  | t :: v => by
    have hcons : Q.escape (t :: v) = Q.spell t ++ Q.escape v := rfl
    have ih := escape_le v
    rw [hcons]
    unfold spell
    cases ht : Q.letter t with
    | some l =>
      right
      have hle : v.length ≤ (Q.escape v).length := by
        rcases ih with ⟨-, h⟩ | h
        · rw [h]
        · omega
      simp only [List.length_append, List.length_cons, List.length_nil]
      omega
    | none =>
      rcases ih with ⟨hv, h⟩ | h
      · exact .inl ⟨List.forall_mem_cons.mpr ⟨ht, hv⟩, by rw [h]; rfl⟩
      · exact .inr (by simp only [List.length_append, List.length_cons, List.length_nil]; omega)

theorem escape_eq {v : List τ} (h : Q.Bare v) : Q.escape v = v := by
  have hspell : ∀ t ∈ v, Q.spell t = [t] := fun t ht => by rw [spell, h t ht]
  rw [escape, List.flatMap_congr hspell, List.flatMap_singleton']

variable [DecidableEq τ]

/-- Up to the closing quote, which is read too. -/
def quoted (e : ε) : Parser τ ε (List τ) := go false
where
  /-- `behind` the escape or not. -/
  go : Bool → List τ → Except ε (List τ × List τ)
  | _, [] => .error e
  | true, l :: ts =>
    match Q.meaning l with
    | some t => (go false ts).map fun r => (t :: r.1, r.2)
    | none => .error e
  | false, t :: ts =>
    if t = Q.quote then .ok ([], ts)
    else if t = Q.esc then go true ts
    else if (Q.letter t).isSome then .error e
    else (go false ts).map fun r => (t :: r.1, r.2)

variable {Q}

theorem quoted_spell {e : ε} {t : τ} {ts : List τ} :
    quoted.go Q e false (Q.spell t ++ ts) = (quoted.go Q e false ts).map fun r => (t :: r.1, r.2) := by
  unfold spell
  cases ht : Q.letter t with
  | some l =>
    show quoted.go Q e false (Q.esc :: l :: ts) = _
    rw [quoted.go, if_neg Q.quote_ne_esc.symm, if_pos rfl, quoted.go, Q.meaning_iff.mpr ht]
  | none =>
    have hquote : t ≠ Q.quote := by
      rintro rfl
      exact Q.quote_letter ht
    have hesc : t ≠ Q.esc := by
      rintro rfl
      exact Q.esc_letter ht
    show quoted.go Q e false (t :: ts) = _
    rw [quoted.go, if_neg hquote, if_neg hesc, ht]
    rfl

theorem quoted_sound {e : ε} : ∀ {behind : Bool} {ts rest v : List τ},
    quoted.go Q e behind ts = .ok (v, rest) →
      (if behind then [Q.esc] else []) ++ ts = Q.escape v ++ [Q.quote] ++ rest
  | true, l :: ts, rest, v, h => by
    rw [quoted.go] at h
    cases hl : Q.meaning l with
    | none =>
      rw [hl] at h
      cases h
    | some t =>
      rw [hl] at h
      obtain ⟨⟨w, mid⟩, hgo, h⟩ := map_eq_ok.mp h
      obtain ⟨rfl, rfl⟩ := Prod.mk.inj h
      have ih := quoted_sound hgo
      have hspell : Q.spell t = [Q.esc, l] := by rw [spell, Q.meaning_iff.mp hl]
      have hcons : Q.escape (t :: w) = Q.spell t ++ Q.escape w := rfl
      rw [hcons, hspell, List.append_assoc, List.append_assoc, ← List.append_assoc (Q.escape w), ← ih]
      rfl
  | false, t :: ts, rest, v, h => by
    rw [quoted.go] at h
    split_ifs at h with hquote hesc hletter
    · obtain ⟨rfl, rfl⟩ := Prod.mk.inj (Except.ok.inj h)
      rw [hquote]
      rfl
    · have ih := quoted_sound h
      rw [hesc]
      exact ih
    · obtain ⟨⟨w, mid⟩, hgo, h⟩ := map_eq_ok.mp h
      obtain ⟨rfl, rfl⟩ := Prod.mk.inj h
      have ih := quoted_sound hgo
      have hnone : Q.letter t = none := by simpa using hletter
      have hspell : Q.spell t = [t] := by rw [spell, hnone]
      have hcons : Q.escape (t :: w) = Q.spell t ++ Q.escape w := rfl
      rw [hcons, hspell, List.append_assoc, List.append_assoc, ← List.append_assoc (Q.escape w), ← ih]
      rfl

theorem quoted_complete (e : ε) (rest : List τ) : ∀ v : List τ,
    Q.quoted e (Q.escape v ++ [Q.quote] ++ rest) = .ok (v, rest)
  | [] => if_pos rfl
  | t :: v => by
    have hcons : Q.escape (t :: v) = Q.spell t ++ Q.escape v := rfl
    have ih := quoted_complete e rest v
    unfold quoted at ih ⊢
    rw [hcons, List.append_assoc, List.append_assoc, quoted_spell, ← List.append_assoc, ih]
    rfl

end Quoting

/-- **A text is read off its escaped form** and the closing quote. -/
theorem Parses.quoted {τ ε : Type} [DecidableEq τ] (Q : Quoting τ) (e : ε) :
    Parses (Q.quoted e) (fun v => {Q.escape v ++ [Q.quote]}) Set.univ where
  sound := fun h => ⟨_, rfl, (Quoting.quoted_sound h).symm⟩
  complete := by
    rintro pre rest v rfl -
    exact Quoting.quoted_complete e rest v

end Parsing
