/-
# Lists with delimiters

`unlines` ends every line with the delimiter and `lines` splits them again;
the lines come back just when none has the delimiter in it
(`lines_unlines_iff`), and so do lines joined by it (`splitOn_join_iff`). A
reader of lines that never makes up more than is there reads back what was
written just when it does so line by line (`readLines_unlines_iff`). `cut` and
`splitLast` cut at the first delimiter and at the last one.

`PairSyntax.encode` writes a list of pairs as `key mid … value close`, with
`sep` between the pairs. Nothing in a value is escaped, so a value can spell
the end of its own pair and the start of another. Values that do not
(`Clean`) are told apart (`encode_inj`); over an alphabet for values, the
encoding is injective just when the alphabet lacks one of the delimiters or
all letters of keys (`encode_injective_iff`).
-/
import Mathlib.Algebra.GroupWithZero.Nat
import Mathlib.Data.List.Basic
import Mathlib.Data.List.ReduceOption
import Mathlib.Data.List.TakeWhile
import Mathlib.Data.Set.Basic

namespace Delimited

variable {α : Type*}

/-! ### Lines -/

section Lines

variable [DecidableEq α]

def unlines (nl : α) (ls : List (List α)) : List α := ls.flatMap fun l => l ++ [nl]

def lines (nl : α) (text : List α) : List (List α) := (text.splitOn nl).dropLast

theorem not_mem_of_mem_splitOn {nl : α} : ∀ {text l : List α}, l ∈ text.splitOn nl → nl ∉ l
  | [], l, h => by
    rw [List.splitOn_nil, List.mem_singleton] at h
    subst h
    exact List.not_mem_nil
  | c :: text, l, h => by
    rw [List.splitOn_cons_eq_if_modifyHead] at h
    by_cases hc : c = nl
    · rw [if_pos (by simp [hc])] at h
      rcases List.mem_cons.mp h with rfl | h
      · exact List.not_mem_nil
      · exact not_mem_of_mem_splitOn h
    · rw [if_neg (by simp [hc])] at h
      obtain ⟨l₀, ls, hs⟩ := List.exists_cons_of_ne_nil (List.splitOn_ne_nil nl text)
      have ih : ∀ l ∈ l₀ :: ls, nl ∉ l := by
        rw [← hs]
        exact fun l => not_mem_of_mem_splitOn
      rw [hs, List.modifyHead_cons] at h
      rcases List.mem_cons.mp h with rfl | h
      · rw [List.mem_cons, not_or]
        exact ⟨Ne.symm hc, ih l₀ List.mem_cons_self⟩
      · exact ih l (List.mem_cons_of_mem _ h)

theorem splitOn_unlines {nl : α} : ∀ {ls : List (List α)}, (∀ l ∈ ls, nl ∉ l) →
    (unlines nl ls).splitOn nl = ls ++ [[]]
  | [], _ => rfl
  | l :: ls, h => by
    have ih := splitOn_unlines fun l' hl => h l' (List.mem_cons_of_mem _ hl)
    rw [unlines, List.flatMap_cons, List.append_assoc, List.singleton_append,
      List.splitOn_append_cons_self_of_not_mem (h l List.mem_cons_self)]
    exact congrArg (List.cons l) ih

/-- **Lines come back just when none has the delimiter in it.** -/
theorem lines_unlines_iff {nl : α} {ls : List (List α)} :
    lines nl (unlines nl ls) = ls ↔ ∀ l ∈ ls, nl ∉ l := by
  constructor
  · intro h l hl
    rw [← h] at hl
    exact not_mem_of_mem_splitOn (List.dropLast_subset _ hl)
  · intro h
    rw [lines, splitOn_unlines h, List.dropLast_concat]

theorem lines_unlines {nl : α} : ∀ ls : List (List α),
    lines nl (unlines nl ls) = ls.flatMap (List.splitOn nl)
  | [] => rfl
  | l :: ls => by
    have ih : lines nl (unlines nl ls) = ls.flatMap (List.splitOn nl) := lines_unlines ls
    have hne : (unlines nl ls).splitOn nl ≠ [] := List.splitOn_ne_nil nl _
    have hcons : unlines nl (l :: ls) = l ++ nl :: unlines nl ls := by simp [unlines]
    unfold lines at ih ⊢
    rw [hcons, List.splitOn_append_cons_self, List.dropLast_append_of_ne_nil hne, List.flatMap_cons,
      ih]

/-- What is in front of the first delimiter is the first part. -/
theorem takeWhile_mem_splitOn (nl : α) (t : List α) : t.takeWhile (· ≠ nl) ∈ t.splitOn nl := by
  by_cases h : nl ∈ t
  · obtain ⟨a, b, rfl, ha⟩ := List.eq_append_cons_of_mem h
    have hpos : ∀ c ∈ a, decide (c ≠ nl) = true := fun c hc =>
      decide_eq_true (ne_of_mem_of_not_mem hc ha)
    rw [List.takeWhile_append_of_pos hpos, List.takeWhile_cons_of_neg (by simp), List.append_nil,
      List.splitOn_append_cons_self_of_not_mem ha]
    exact List.mem_cons_self
  · have hpos : ∀ c ∈ t, decide (c ≠ nl) = true := fun c hc =>
      decide_eq_true (ne_of_mem_of_not_mem hc h)
    rw [List.splitOn_eq_singleton h, List.takeWhile_eq_self_iff.2 hpos]
    exact List.mem_singleton_self t

theorem splitOn_append_cons {nl : α} {a b : List α} (ha : nl ∉ a) (hb : nl ∉ b) :
    (a ++ nl :: b).splitOn nl = [a, b] := by
  rw [List.splitOn_append_cons_self_of_not_mem ha, List.splitOn_eq_singleton hb]

/-- How long lines are, each with its end. -/
def size (ls : List (List α)) : ℕ := (ls.map fun l => l.length + 1).sum

theorem size_splitOn (nl : α) : ∀ l : List α, size (l.splitOn nl) = l.length + 1
  | [] => rfl
  | c :: l => by
    have ih := size_splitOn nl l
    obtain ⟨p, ps, hs⟩ := List.exists_cons_of_ne_nil (List.splitOn_ne_nil nl l)
    rw [hs] at ih
    rw [List.splitOn_cons_eq_if_modifyHead, hs]
    simp only [size, List.map_cons, List.sum_cons] at ih
    split_ifs
    · simp only [size, List.map_cons, List.sum_cons, List.length_cons, List.length_nil]
      omega
    · simp only [size, List.modifyHead_cons, List.map_cons, List.sum_cons, List.length_cons]
      omega

theorem size_flatMap (nl : α) : ∀ ls : List (List α), size (ls.flatMap (List.splitOn nl)) = size ls
  | [] => rfl
  | l :: ls => by
    have ih := size_flatMap nl ls
    have hl := size_splitOn nl l
    simp only [size, List.flatMap_cons, List.map_append, List.sum_append, List.map_cons,
      List.sum_cons] at ih hl ⊢
    omega

variable {β : Type*}

/-- What is read line by line; lines may be passed over, and one that cannot be
read is the end of it. -/
def readLines (nl : α) (read : List α → Option (Option β)) (text : List α) : Option (List β) :=
  ((lines nl text).mapM read).map List.reduceOption

/-- `read` makes up no more than is there. -/
def Sparing (read : List α → Option (Option β)) (write : β → List α) : Prop :=
  ∀ {l b}, read l = some (some b) → write b = l ∨ (write b).length < l.length

omit [DecidableEq α] in
theorem mapM_eq_some_iff {γ : Type*} {f : γ → Option β} {xs : List γ} {ys : List β} :
    xs.mapM f = some ys ↔ xs.map f = ys.map some := by
  induction xs generalizing ys with
  | nil => cases ys <;> simp
  | cons x xs ih =>
    rw [List.mapM_cons]
    cases ys with
    | nil => simp [Option.bind_eq_some_iff]
    | cons y ys => simp [Option.bind_eq_some_iff, ih]

omit [DecidableEq α] in
/-- Reading takes up no more than there is, and if as much, all lines. -/
theorem Sparing.size_le {read : List α → Option (Option β)} {write : β → List α}
    (h : Sparing read write) : ∀ {ls : List (List α)} {os : List (Option β)},
      ls.map read = os.map some → size (os.reduceOption.map write) ≤ size ls ∧
        (size (os.reduceOption.map write) = size ls →
          os = os.reduceOption.map some ∧ ls = os.reduceOption.map write)
  | [], [], _ => ⟨le_rfl, fun _ => ⟨rfl, rfl⟩⟩
  | l :: ls, o :: os, hread => by
    obtain ⟨ho, hos⟩ := List.cons.inj hread
    obtain ⟨hle, hall⟩ := h.size_le hos
    have hsize : ∀ l : List α, ∀ ls, size (l :: ls) = l.length + 1 + size ls := fun _ _ => rfl
    cases o with
    | none =>
      rw [List.reduceOption_cons_of_none, hsize]
      exact ⟨by omega, fun heq => absurd heq (by omega)⟩
    | some b =>
      rw [List.reduceOption_cons_of_some, List.map_cons, hsize, hsize]
      rcases h ho with rfl | hlt
      · refine ⟨by omega, fun heq => ?_⟩
        obtain ⟨hos', hls⟩ := hall (by omega)
        exact ⟨congrArg (List.cons _) hos', congrArg (List.cons _) hls⟩
      · exact ⟨by omega, fun heq => absurd heq (by omega)⟩

/-- **What was written is read back** just when every line of it is. -/
theorem readLines_unlines_iff {nl : α} {read : List α → Option (Option β)} {write : β → List α}
    (h : Sparing read write) (bs : List β) :
    readLines nl read (unlines nl (bs.map write)) = some bs ↔
      ∀ b ∈ bs, read (write b) = some (some b) ∧ nl ∉ write b := by
  constructor
  · intro hread
    obtain ⟨os, hos, rfl⟩ := Option.map_eq_some_iff.mp hread
    rw [lines_unlines, mapM_eq_some_iff] at hos
    obtain ⟨heq, hlines⟩ := (h.size_le hos).2 (size_flatMap nl _).symm
    rw [hlines, heq, List.map_map, List.map_map, ← heq, List.map_inj_left] at hos
    intro b hb
    refine ⟨hos b hb, ?_⟩
    have hmem : write b ∈ (os.reduceOption.map write).flatMap (List.splitOn nl) := by
      rw [hlines]
      exact List.mem_map_of_mem hb
    obtain ⟨l, -, hl⟩ := List.mem_flatMap.mp hmem
    exact not_mem_of_mem_splitOn hl
  · intro hbs
    have hlines : lines nl (unlines nl (bs.map write)) = bs.map write := by
      refine lines_unlines_iff.mpr fun l hl => ?_
      obtain ⟨b, hb, rfl⟩ := List.mem_map.mp hl
      exact (hbs b hb).2
    have hread : (bs.map write).mapM read = some (bs.map some) := by
      rw [mapM_eq_some_iff, List.map_map, List.map_map]
      exact List.map_congr_left fun b hb => (hbs b hb).1
    have hall : (bs.map some).reduceOption = bs := by simp [List.reduceOption]
    rw [readLines, hlines, hread, Option.map_some, hall]

/-- The same of lines joined by the delimiter. -/
theorem splitOn_join_iff {nl : α} {ls : List (List α)} (hne : ls ≠ []) :
    ([nl].intercalate ls).splitOn nl = ls ↔ ∀ l ∈ ls, nl ∉ l := by
  constructor
  · intro h l hl
    rw [← h] at hl
    exact not_mem_of_mem_splitOn hl
  · intro h
    exact List.splitOn_intercalate nl h hne

omit [DecidableEq α] in
theorem join_append {a : α} {ls' : List (List α)} (h' : ls' ≠ []) : ∀ {ls : List (List α)}, ls ≠ [] →
    [a].intercalate (ls ++ ls') = [a].intercalate ls ++ a :: [a].intercalate ls'
  | [], h => absurd rfl h
  | [l], _ => by
    obtain ⟨l', ls', rfl⟩ := List.exists_cons_of_ne_nil h'
    simp [List.intercalate_cons_cons]
  | l₀ :: l₁ :: ls, _ => by
    have ih := join_append (a := a) h' (List.cons_ne_nil l₁ ls)
    rw [List.cons_append, List.cons_append, List.intercalate_cons_cons, List.intercalate_cons_cons,
      ← List.cons_append, ih]
    simp

omit [DecidableEq α] in
theorem join_concat {a : α} {l : List α} {ls : List (List α)} (h : ls ≠ []) :
    [a].intercalate (ls ++ [l]) = [a].intercalate ls ++ a :: l := by
  rw [join_append (List.cons_ne_nil l []) h, List.intercalate_singleton]

omit [DecidableEq α] in
/-- Joining in groups is joining at once. -/
theorem join_flatten {a : α} : ∀ {gs : List (List (List α))}, [] ∉ gs →
    [a].intercalate (gs.map ([a].intercalate ·)) = [a].intercalate gs.flatten
  | [], _ => rfl
  | [g], _ => by
    rw [List.map_singleton, List.intercalate_singleton, List.flatten_singleton]
  | g :: g' :: gs, h => by
    rw [List.mem_cons, not_or] at h
    have hne : (g' :: gs).flatten ≠ [] := by
      rw [List.flatten_cons]
      exact List.append_ne_nil_of_left_ne_nil (fun h0 => h.2 (h0 ▸ List.mem_cons_self)) _
    have ih := join_flatten (a := a) h.2
    rw [List.map_cons] at ih
    have hflat : (g :: g' :: gs).flatten = g ++ (g' :: gs).flatten := List.flatten_cons
    rw [List.map_cons, List.map_cons, List.intercalate_cons_cons, ih, hflat,
      join_append hne fun h0 => h.1 h0.symm]
    simp

omit [DecidableEq α] in
theorem mem_join {a c : α} : ∀ {ls : List (List α)}, c ∈ [a].intercalate ls →
    c = a ∨ ∃ l ∈ ls, c ∈ l
  | [], h => absurd h List.not_mem_nil
  | [l], h => by
    rw [List.intercalate_singleton] at h
    exact .inr ⟨l, List.mem_cons_self, h⟩
  | l :: l' :: ls, h => by
    rw [List.intercalate_cons_cons, List.append_assoc, List.mem_append, List.singleton_append,
      List.mem_cons] at h
    rcases h with h | h | h
    · exact .inr ⟨l, List.mem_cons_self, h⟩
    · exact .inl h
    · obtain h | ⟨l₀, hl, h⟩ := mem_join h
      · exact .inl h
      · exact .inr ⟨l₀, List.mem_cons_of_mem _ hl, h⟩

omit [DecidableEq α] in
theorem mem_join_of_mem {a c : α} {l : List α} (hc : c ∈ l) : ∀ {ls : List (List α)}, l ∈ ls →
    c ∈ [a].intercalate ls
  | [], h => absurd h List.not_mem_nil
  | [l₀], h => by
    rw [List.intercalate_singleton, ← List.mem_singleton.mp h]
    exact hc
  | l₀ :: l₁ :: ls, h => by
    rw [List.intercalate_cons_cons]
    rcases List.mem_cons.mp h with rfl | h
    · exact List.mem_append_left _ (List.mem_append_left _ hc)
    · exact List.mem_append_right _ (mem_join_of_mem hc h)

/-- What stands before and behind the last `a`. -/
def splitLast (a : α) : List α → Option (List α × List α)
  | [] => none
  | c :: l =>
    match splitLast a l with
    | some (before, behind) => some (c :: before, behind)
    | none => if c = a then some ([], l) else none

theorem splitLast_eq_none {a : α} : ∀ {l : List α}, a ∉ l → splitLast a l = none
  | [], _ => rfl
  | c :: l, h => by
    rw [List.mem_cons, not_or] at h
    rw [splitLast, splitLast_eq_none h.2]
    exact if_neg (Ne.symm h.1)

theorem splitLast_append {a : α} {behind : List α} (h : a ∉ behind) : ∀ before : List α,
    splitLast a (before ++ a :: behind) = some (before, behind)
  | [] => by
    rw [List.nil_append, splitLast, splitLast_eq_none h]
    exact if_pos rfl
  | c :: before => by rw [List.cons_append, splitLast, splitLast_append h before]

/-- What stands before and behind the first `a`. -/
def cut (a : α) : List α → Option (List α × List α)
  | [] => none
  | c :: l => if c = a then some ([], l) else (cut a l).map fun p => (c :: p.1, p.2)

theorem cut_eq_some_iff {a : α} : ∀ {l : List α} {p : List α × List α},
    cut a l = some p ↔ l = p.1 ++ a :: p.2 ∧ a ∉ p.1
  | [], p => by simp [cut]
  | c :: l, ⟨before, behind⟩ => by
    unfold cut
    by_cases hc : c = a
    · rw [if_pos hc, hc]
      cases before with
      | nil => simp
      | cons d before => simp +contextual
    · rw [if_neg hc]
      cases before with
      | nil => simp [hc]
      | cons d before =>
        have ih := cut_eq_some_iff (a := a) (l := l) (p := (before, behind))
        have hmap : (cut a l).map (fun p => (c :: p.1, p.2)) = some (d :: before, behind) ↔
            c = d ∧ cut a l = some (before, behind) := by
          rw [Option.map_eq_some_iff]
          constructor
          · rintro ⟨p, hp, he⟩
            simp only [Prod.mk.injEq, List.cons.injEq] at he
            obtain ⟨⟨rfl, rfl⟩, rfl⟩ := he
            exact ⟨rfl, hp⟩
          · rintro ⟨rfl, hp⟩
            exact ⟨_, hp, rfl⟩
        rw [hmap, ih, List.cons_append, List.cons.injEq, List.mem_cons, not_or, and_assoc]
        constructor
        · rintro ⟨rfl, hl, hn⟩
          exact ⟨rfl, hl, Ne.symm hc, hn⟩
        · rintro ⟨rfl, hl, -, hn⟩
          exact ⟨rfl, hl, hn⟩

/-- Cutting each of a list. -/
theorem mapM_cut_eq_some_iff {a : α} {ls : List (List α)} {ps : List (List α × List α)} :
    ls.mapM (cut a) = some ps ↔ ls = ps.map (fun p => p.1 ++ a :: p.2) ∧ ∀ p ∈ ps, a ∉ p.1 := by
  rw [mapM_eq_some_iff]
  induction ps generalizing ls with
  | nil => simp
  | cons p ps ih =>
    cases ls with
    | nil => simp
    | cons l ls =>
      simp only [List.map_cons, List.cons.injEq, cut_eq_some_iff, ih, List.forall_mem_cons]
      tauto

end Lines

/-! ### Pairs -/

/-- A pair is the key, `mid`, `opens`, the value and `close`. -/
structure PairSyntax (α : Type*) where
  mid : α
  opens : List α
  close : Option α
  sep : α

namespace PairSyntax

variable (S : PairSyntax α)

def pair (p : List α × List α) : List α :=
  p.1 ++ S.mid :: (S.opens ++ (p.2 ++ S.close.toList))

def encode (ps : List (List α × List α)) : List α := [S.sep].intercalate (ps.map S.pair)

/-- What follows a pair. -/
def rest : List (List α × List α) → List α
  | [] => []
  | p :: ps => S.sep :: S.encode (p :: ps)

theorem encode_cons (p : List α × List α) (ps : List (List α × List α)) :
    S.encode (p :: ps) = S.pair p ++ S.rest ps := by
  cases ps with
  | nil => simp [encode, rest]
  | cons q ps => simp [encode, rest, List.intercalate_cons_cons]

/-- Keys are words over `K`, which has none of the delimiters. -/
structure Keys (K : Set α) : Prop where
  mid : S.mid ∉ K
  sep : S.sep ∉ K
  sep_ne : S.sep ≠ S.mid
  close : ∀ c, S.close = some c → c ∉ K ∧ c ≠ S.mid ∧ c ≠ S.sep
  opens : ∀ c ∈ S.opens, S.close = some c

def IsKey (K : Set α) (k : List α) : Prop := k ≠ [] ∧ ∀ c ∈ k, c ∈ K

/-- What ends a pair and opens the next one, up to `mid`. -/
def turn (k : List α) : List α := S.close.toList ++ S.sep :: (k ++ [S.mid])

/-- The value spells no such turn. -/
def Clean (K : Set α) (v : List α) : Prop := ∀ k, IsKey K k → ¬ S.turn k <:+: v

variable {S} {K : Set α}

/-- A word without `c` before a `c` is a prefix. -/
theorem prefix_of_not_mem {a b X Y : List α} {c : α} (hc : c ∉ a) (h : a ++ X = b ++ c :: Y) :
    ∃ b', b = a ++ b' := by
  rcases List.append_eq_append_iff.mp h with ⟨b', hb, -⟩ | ⟨a', ha, hX⟩
  · exact ⟨b', hb⟩
  · cases a' with
    | nil =>
      rw [List.append_nil] at ha
      exact ⟨[], by rw [ha, List.append_nil]⟩
    | cons d a' =>
      rw [List.cons_append] at hX
      obtain rfl := (List.cons.inj hX).1
      exact absurd (ha ▸ List.mem_append_right _ List.mem_cons_self) hc

theorem key_eq {k k' X X' : List α} {c : α} (hk : c ∉ k) (hk' : c ∉ k')
    (h : k ++ c :: X = k' ++ c :: X') : k = k' ∧ X = X' := by
  obtain ⟨b, rfl⟩ := prefix_of_not_mem hk h
  rw [List.append_assoc] at h
  cases b with
  | nil =>
    rw [List.append_nil]
    exact ⟨rfl, (List.cons.inj (List.append_cancel_left h)).2⟩
  | cons d b =>
    obtain rfl := (List.cons.inj (List.append_cancel_left h)).1
    exact absurd (List.mem_append_right _ List.mem_cons_self) hk'

/-- If the end of a value is moved by `u`, `u` begins with a turn. -/
theorem turn_of_moved (hK : S.Keys K) {ps ps' : List (List α × List α)} {u : List α}
    (hps : ∀ p ∈ ps, IsKey K p.1)
    (h : S.close.toList ++ S.rest ps = u ++ (S.close.toList ++ S.rest ps')) :
    u = [] ∨ ∃ k, IsKey K k ∧ S.turn k <+: u := by
  rcases u with _ | ⟨c, u⟩
  · exact .inl rfl
  right
  -- whatever comes first in what follows a value is not in a key and not `mid`
  have hturn : ∀ {p : List α × List α} {u X Y : List α} {d : α}, IsKey K p.1 → d ∉ K →
      d ≠ S.mid → p.1 ++ S.mid :: X = u ++ d :: Y → ∃ b, u = p.1 ++ [S.mid] ++ b := by
    intro p u X Y d hp hd hm h
    refine prefix_of_not_mem (a := p.1 ++ [S.mid]) (X := X) (Y := Y) (c := d) ?_ (by simpa using h)
    simp only [List.mem_append, List.mem_singleton, not_or]
    exact ⟨fun hmem => hd (hp.2 d hmem), hm⟩
  rcases ps with _ | ⟨p, ps⟩
  · exfalso
    have hlen := congrArg List.length h
    simp only [rest, List.append_nil, List.cons_append, List.length_cons, List.length_append] at hlen
    omega
  have hp : IsKey K p.1 := hps p List.mem_cons_self
  have hrest : S.rest (p :: ps) =
      S.sep :: (p.1 ++ S.mid :: (S.opens ++ (p.2 ++ S.close.toList) ++ S.rest ps)) := by
    rw [rest, encode_cons, pair]
    simp
  refine ⟨p.1, hp, ?_⟩
  rw [hrest] at h
  rcases hcl : S.close with _ | t
  · rw [hcl, Option.toList_none, List.nil_append, List.nil_append, List.cons_append] at h
    obtain ⟨hc, h⟩ := List.cons.inj h
    rcases ps' with _ | ⟨p', ps'⟩
    · refine ⟨S.opens ++ p.2 ++ S.rest ps, ?_⟩
      simpa [turn, hcl, rest, hc] using h
    · obtain ⟨b, rfl⟩ := hturn hp hK.sep hK.sep_ne h
      exact ⟨b, by simp [turn, hcl, hc]⟩
  · obtain ⟨htK, htm, hts⟩ := hK.close t hcl
    rw [hcl, Option.toList_some, List.singleton_append, List.singleton_append,
      List.cons_append] at h
    obtain ⟨hc, h⟩ := List.cons.inj h
    rcases u with _ | ⟨d, u⟩
    · exact absurd (List.cons.inj h).1.symm hts
    · obtain ⟨hd, h⟩ := List.cons.inj h
      obtain ⟨b, rfl⟩ := hturn hp htK htm h
      exact ⟨b, by simp [turn, hcl, hc, hd]⟩

theorem value_eq (hK : S.Keys K) {ps ps' : List (List α × List α)} {v v' : List α}
    (hps : ∀ p ∈ ps, IsKey K p.1) (hps' : ∀ p ∈ ps', IsKey K p.1) (hv : S.Clean K v)
    (hv' : S.Clean K v')
    (h : v ++ (S.close.toList ++ S.rest ps) = v' ++ (S.close.toList ++ S.rest ps')) :
    v = v' ∧ S.rest ps = S.rest ps' := by
  have hsame : ∀ {w u : List α}, S.Clean K (w ++ u) →
      (u = [] ∨ ∃ k, IsKey K k ∧ S.turn k <+: u) → u = [] := by
    intro w u hw hu
    refine hu.resolve_right ?_
    rintro ⟨k, hk, hpre⟩
    exact hw k hk (hpre.isInfix.trans (List.suffix_append w u).isInfix)
  rcases List.append_eq_append_iff.mp h with ⟨u, rfl, hu⟩ | ⟨u, rfl, hu⟩
  · obtain rfl := hsame hv' (turn_of_moved hK hps hu)
    exact ⟨(List.append_nil _).symm, List.append_cancel_left hu⟩
  · obtain rfl := hsame hv (turn_of_moved hK hps' hu)
    exact ⟨List.append_nil _, (List.append_cancel_left hu).symm⟩

theorem encode_ne_nil (p : List α × List α) (ps : List (List α × List α)) :
    S.encode (p :: ps) ≠ [] := by
  rw [encode_cons, pair]
  simp

/-- The same pairs in front change nothing. -/
theorem encode_append_inj : ∀ (front : List (List α × List α)) {ps ps' : List (List α × List α)},
    S.encode (front ++ ps) = S.encode (front ++ ps') ↔ S.encode ps = S.encode ps'
  | [], ps, ps' => Iff.rfl
  | p :: front, ps, ps' => by
    have hrest : ∀ qs qs', S.rest qs = S.rest qs' ↔ S.encode qs = S.encode qs' := by
      intro qs qs'
      rcases qs with _ | ⟨q, qs⟩ <;> rcases qs' with _ | ⟨q', qs'⟩
      · exact ⟨fun _ => rfl, fun _ => rfl⟩
      · exact ⟨fun h => absurd h.symm (List.cons_ne_nil _ _), fun h => absurd h.symm (encode_ne_nil _ _)⟩
      · exact ⟨fun h => absurd h (List.cons_ne_nil _ _), fun h => absurd h (encode_ne_nil _ _)⟩
      · rw [rest, rest, List.cons_inj_right]
    rw [List.cons_append, List.cons_append, encode_cons, encode_cons, List.append_cancel_left_eq,
      hrest, encode_append_inj front]

/-- **Pairs with clean values are told apart.** -/
theorem encode_inj (hK : S.Keys K) : ∀ {ps ps' : List (List α × List α)},
    (∀ p ∈ ps, IsKey K p.1 ∧ S.Clean K p.2) → (∀ p ∈ ps', IsKey K p.1 ∧ S.Clean K p.2) →
    S.encode ps = S.encode ps' → ps = ps'
  | [], [], _, _, _ => rfl
  | [], p' :: ps', _, _, h => absurd h.symm (encode_ne_nil p' ps')
  | p :: ps, [], _, _, h => absurd h (encode_ne_nil p ps)
  | p :: ps, p' :: ps', hps, hps', h => by
    obtain ⟨hp, hv⟩ := hps p List.mem_cons_self
    obtain ⟨hp', hv'⟩ := hps' p' List.mem_cons_self
    have htl := fun q hq => hps q (List.mem_cons_of_mem p hq)
    have htl' := fun q hq => hps' q (List.mem_cons_of_mem p' hq)
    rw [encode_cons, encode_cons, pair, pair] at h
    simp only [List.append_assoc, List.cons_append] at h
    obtain ⟨hk, h⟩ := key_eq (fun hm => hK.mid (hp.2 _ hm)) (fun hm => hK.mid (hp'.2 _ hm)) h
    obtain ⟨hvv, hrest⟩ := value_eq hK (fun q hq => (htl q hq).1) (fun q hq => (htl' q hq).1) hv hv'
      (List.append_cancel_left h)
    have htail : ps = ps' := by
      rcases ps with _ | ⟨q, ps⟩ <;> rcases ps' with _ | ⟨q', ps'⟩
      · rfl
      · exact absurd hrest.symm (List.cons_ne_nil _ _)
      · exact absurd hrest (List.cons_ne_nil _ _)
      · exact encode_inj hK htl htl' (List.cons.inj hrest).2
    rw [htail, Prod.ext hk hvv]

theorem mem_encode {c : α} {ps : List (List α × List α)} (h : c ∈ S.encode ps) :
    c ∈ S.sep :: S.mid :: (S.opens ++ S.close.toList) ∨ ∃ p ∈ ps, c ∈ p.1 ∨ c ∈ p.2 := by
  rcases mem_join h with rfl | ⟨l, hl, hc⟩
  · exact .inl List.mem_cons_self
  obtain ⟨p, hp, rfl⟩ := List.mem_map.mp hl
  simp only [pair, List.mem_append, List.mem_cons] at hc ⊢
  rcases hc with hc | rfl | hc | hc | hc
  · exact .inr ⟨p, hp, .inl hc⟩
  · exact .inl (.inr (.inl rfl))
  · exact .inl (.inr (.inr (.inl hc)))
  · exact .inr ⟨p, hp, .inr hc⟩
  · exact .inl (.inr (.inr (.inr hc)))

theorem mem_encode_of_mem {c : α} {p : List α × List α} {ps : List (List α × List α)} (hp : p ∈ ps)
    (hc : c ∈ p.1 ∨ c ∈ p.2) : c ∈ S.encode ps := by
  refine mem_join_of_mem (l := S.pair p) ?_ (List.mem_map_of_mem hp)
  rcases hc with hc | hc
  · exact List.mem_append_left _ hc
  · simp [pair, hc]

/-- Cut at a letter that is no delimiter and in no key, the encoding is cut
within a value. -/
theorem split_encode {c : α} (hK : c ∉ K) (hc : c ∉ S.sep :: S.mid :: (S.opens ++ S.close.toList)) :
    ∀ {ps : List (List α × List α)} {u w : List α}, (∀ p ∈ ps, IsKey K p.1) →
      S.encode ps = u ++ c :: w → ∃ p ∈ ps, ∃ a b ps', p.2 = a ++ c :: b ∧
        S.mid :: S.opens ++ a <:+ u ∧ w = b ++ (S.close.toList ++ S.rest ps') ∧ ps' ⊆ ps
  | [], u, w, _, h => by simp [encode] at h
  | p :: ps, u, w, hps, h => by
    simp only [List.mem_cons, List.mem_append, not_or] at hc
    obtain ⟨hsep, hmid, hopens, hclose⟩ := hc
    have hrest : ∀ {u w : List α}, S.rest ps = u ++ c :: w →
        ∃ u', u = S.sep :: u' ∧ S.encode ps = u' ++ c :: w := by
      intro u w h
      rcases ps with _ | ⟨q, ps⟩
      · simp [rest] at h
      · rcases u with _ | ⟨d, u⟩
        · exact absurd (List.cons.inj h).1.symm hsep
        · obtain ⟨rfl, htail⟩ := List.cons.inj h
          exact ⟨u, rfl, htail⟩
    rw [encode_cons] at h
    rcases List.append_eq_append_iff.mp h with ⟨v, rfl, htail⟩ | ⟨v, hpair, h⟩
    · obtain ⟨u, rfl, hps'⟩ := hrest htail
      obtain ⟨q, hq, a, b, ps', hval, hsuf, hw, hsub⟩ :=
        split_encode hK (by simp [hsep, hmid, hopens, hclose])
          (fun q hq => hps q (List.mem_cons_of_mem p hq)) hps'
      refine ⟨q, List.mem_cons_of_mem p hq, a, b, ps', hval, ?_, hw, ?_⟩
      · exact hsuf.trans ((List.suffix_cons _ _).trans (List.suffix_append _ _))
      · exact fun r hr => List.mem_cons_of_mem p (hsub hr)
    · rcases v with _ | ⟨d, v⟩
      · obtain ⟨u', hu, -⟩ := hrest (u := []) (w := w) h.symm
        cases hu
      · obtain ⟨rfl, rfl⟩ := List.cons.inj h
        -- the key and what opens the value are in front of the letter
        have hfront : c ∉ p.1 ++ S.mid :: S.opens := by
          simp only [List.mem_append, List.mem_cons, not_or]
          exact ⟨fun hmem => hK ((hps p List.mem_cons_self).2 c hmem), hmid, hopens⟩
        have hpair : (p.1 ++ S.mid :: S.opens) ++ (p.2 ++ S.close.toList) = u ++ c :: v := by
          simpa [pair] using hpair
        obtain ⟨a, rfl⟩ := prefix_of_not_mem hfront hpair
        rw [List.append_assoc _ a, List.append_cancel_left_eq] at hpair
        rcases List.append_eq_append_iff.mp hpair with ⟨t, -, ht⟩ | ⟨t, hval, ht⟩
        · exact absurd (ht ▸ List.mem_append_right t List.mem_cons_self) hclose
        · rcases t with _ | ⟨d, b⟩
          · have hmem : c ∈ [] ++ S.close.toList := by
              rw [← ht]
              exact List.mem_cons_self
            exact absurd hmem hclose
          · obtain ⟨rfl, rfl⟩ := List.cons.inj ht
            refine ⟨p, List.mem_cons_self, a, b, ps, hval, ⟨p.1, by simp⟩, by simp, ?_⟩
            exact List.subset_cons_self p ps

/-- Keys over `K`, values over `A`. -/
def Over (K A : Set α) (ps : List (List α × List α)) : Prop :=
  ∀ p ∈ ps, IsKey K p.1 ∧ ∀ c ∈ p.2, c ∈ A

theorem clean_of_over {A : Set α}
    (hA : ¬ ((∀ c ∈ S.close, c ∈ A) ∧ S.sep ∈ A ∧ S.mid ∈ A ∧ ∃ c ∈ K, c ∈ A)) {v : List α}
    (hv : ∀ c ∈ v, c ∈ A) : S.Clean K v := by
  intro k hk hin
  have hmem : ∀ c ∈ S.turn k, c ∈ A := fun c hc => hv c (hin.subset hc)
  refine hA ⟨fun c hc => ?_, hmem _ (by simp [turn]), hmem _ (by simp [turn]), ?_⟩
  · exact hmem c (List.mem_append_left _ (Option.mem_toList.mpr hc))
  · obtain ⟨c, k', rfl⟩ := List.exists_cons_of_ne_nil hk.1
    exact ⟨c, hk.2 c List.mem_cons_self, hmem c (by simp [turn])⟩

/-- **The encoding over an alphabet is injective just when no value can spell a
turn.** -/
theorem encode_injective_iff (hK : S.Keys K) (A : Set α) :
    (∀ ps ps', Over K A ps → Over K A ps' → S.encode ps = S.encode ps' → ps = ps') ↔
      ¬ ((∀ c ∈ S.close, c ∈ A) ∧ S.sep ∈ A ∧ S.mid ∈ A ∧ ∃ c ∈ K, c ∈ A) := by
  constructor
  · rintro hinj ⟨hclose, hsep, hmid, c, hcK, hcA⟩
    have hc : IsKey K [c] := ⟨List.cons_ne_nil _ _, by simpa using hcK⟩
    -- two empty values, or one value that spells what stands between them
    have heq := hinj [([c], []), ([c], [])] [([c], S.turn [c] ++ S.opens)] ?_ ?_ ?_
    · simp at heq
    · intro p hp
      simp at hp
      subst hp
      exact ⟨hc, nofun⟩
    · intro p hp
      rw [List.mem_singleton] at hp
      subst hp
      refine ⟨hc, fun d hd => ?_⟩
      simp only [turn, List.append_assoc, List.mem_append, List.mem_cons, Option.mem_toList,
        List.cons_append, List.nil_append] at hd
      rcases hd with hd | rfl | rfl | rfl | hd
      · exact hclose d hd
      · exact hsep
      · exact hcA
      · exact hmid
      · exact hclose d (hK.opens d hd)
    · simp [encode, List.intercalate_cons_cons, pair, turn]
  · intro hA ps ps' hps hps' h
    exact encode_inj hK (fun p hp => ⟨(hps p hp).1, clean_of_over hA (hps p hp).2⟩)
      (fun p hp => ⟨(hps' p hp).1, clean_of_over hA (hps' p hp).2⟩) h

end PairSyntax
end Delimited
