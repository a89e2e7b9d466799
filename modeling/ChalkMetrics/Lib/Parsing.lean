/-
# Parsers and the languages they read

A parser takes a value off the front of a list of tokens, or fails. A grammar
`G` gives every value the language of its spellings, and `Parses p G F` says
that `p` reads `a` off a list just if a spelling of `a` is in front; what
follows it has to be in `F`, for a parser that looks ahead. There is one rule
for each way of putting parsers together: fields read one after another
(`Parses.field`), alternatives told apart by a look ahead (`Parses.peek`),
something that may be missing (`Parses.ifPeek`). A loop over all of the input reads the
concatenations of what its items are spelled by (`untilEmpty_iff`,
`terminated_iff`); a list up to a closing token is `Parses.upTo`.

Key definitions: `Parser`, `Parses`, `untilEmpty`, `terminated`, `upTo`.
-/
import Mathlib.Computability.Language
import Mathlib.Data.List.TakeWhile

namespace Parsing

abbrev Parser (τ ε : Type) := StateT (List τ) (Except ε)

variable {τ ε α β γ : Type}

/-- Whether `c` holds of what is left. -/
def peek (c : List τ → Bool) : Parser τ ε Bool := fun ts => .ok (c ts, ts)

/-- What `p` reads, if `c` announces it. -/
def ifPeek (c : List τ → Bool) (p : Parser τ ε α) : Parser τ ε (Option α) := do
  if ← peek c then return some (← p) else return none

/-- Past a token that may be there. -/
def skipIf (c : List τ → Bool) (p : Parser τ ε Unit) : Parser τ ε Unit := do
  if ← peek c then p

/-- Items up to the end of the input, at most as many as there are tokens. -/
def untilEmpty (p : Parser τ ε α) (ts : List τ) : Except ε (List α) := loop ts.length ts
where
  loop : ℕ → List τ → Except ε (List α)
  | _, [] => .ok []
  | 0, _ :: _ => .ok []
  | n + 1, t :: ts => do
    let (a, rest) ← p (t :: ts)
    return a :: (← loop n rest)

/-- Items up to the end of the input with a separator after each, which the
last one may lack. -/
def terminated (p : Parser τ ε α) (sep : Parser τ ε Unit) (ts : List τ) : Except ε (List α) :=
  loop ts.length ts
where
  loop : ℕ → List τ → Except ε (List α)
  | _, [] => .ok []
  | 0, _ :: _ => .ok []
  | n + 1, t :: ts => do
    let (a, rest) ← p (t :: ts)
    if rest.isEmpty then return [a]
    let (_, rest) ← sep rest
    return a :: (← loop n rest)

/-- Items up to where `stop` holds, with a separator after each, which the last
one may lack. -/
def upTo (stop : List τ → Bool) (p : Parser τ ε α) (sep : Parser τ ε Unit) : Parser τ ε (List α) :=
  fun ts => loop ts.length ts
where
  loop : ℕ → List τ → Except ε (List α × List τ)
  | 0, ts => .ok ([], ts)
  | n + 1, ts =>
    if stop ts then .ok ([], ts)
    else do
      let (a, rest) ← p ts
      if stop rest then return ([a], rest)
      let (_, rest) ← sep rest
      let (as, rest) ← loop n rest
      return (a :: as, rest)

/-- These tokens. -/
def word [DecidableEq τ] (w : List τ) (e : ε) : Parser τ ε Unit := fun ts =>
  if w.isPrefixOf ts then .ok ((), ts.drop w.length) else .error e

/-- As many tokens with `c` as there are. -/
def span (c : τ → Bool) : Parser τ ε (List τ) := fun ts => .ok (ts.takeWhile c, ts.dropWhile c)

/-- What `p` reads, if it is `good`. -/
def suchThat (p : Parser τ ε α) (good : α → Bool) (e : ε) : Parser τ ε α := do
  let a ← p
  if good a then return a else throw e

theorem bind_eq_ok {x : Except ε α} {f : α → Except ε β} {b : β} :
    x >>= f = .ok b ↔ ∃ a, x = .ok a ∧ f a = .ok b := by
  cases x with
  | error e => simp [Bind.bind, Except.bind]
  | ok a => simp [Bind.bind, Except.bind]

theorem map_eq_ok {x : Except ε α} {f : α → β} {b : β} :
    x.map f = .ok b ↔ ∃ a, x = .ok a ∧ f a = b := by
  cases x with
  | error e => simp [Except.map]
  | ok a => simp [Except.map]

/-- The inversion rule for two parsers in a row. -/
theorem bind_run {p : Parser τ ε α} {q : α → Parser τ ε β} {ts rest : List τ} {b : β} :
    (p >>= q) ts = .ok (b, rest) ↔
      ∃ a mid, p ts = .ok (a, mid) ∧ q a mid = .ok (b, rest) := by
  show (p ts >>= fun r => q r.1 r.2) = _ ↔ _
  rw [bind_eq_ok, Prod.exists]

theorem bind_of_ok {p : Parser τ ε α} {q : α → Parser τ ε β} {ts mid : List τ} {a : α}
    (h : p ts = .ok (a, mid)) : (p >>= q) ts = q a mid := by
  show (p ts >>= fun r => q r.1 r.2) = _
  rw [h]
  rfl

theorem bind_of_error {p : Parser τ ε α} {q : α → Parser τ ε β} {ts : List τ} {e : ε}
    (h : p ts = .error e) : (p >>= q) ts = .error e := by
  show (p ts >>= fun r => q r.1 r.2) = _
  rw [h]
  rfl

/-- What comes behind a branch, in the branch. -/
theorem peek_bind {c : List τ → Bool} {p q : Parser τ ε α} {k : α → Parser τ ε β} :
    (do if ← peek c then p else q) >>= k = (do if ← peek c then p >>= k else q >>= k) := by
  rw [bind_assoc]
  congr 1
  funext b
  cases b <;> rfl

/-- Under the condition `P`. -/
def given (P : Prop) (L : Language τ) : Language τ := {ts | P ∧ ts ∈ L}

@[simp] theorem mem_given {P : Prop} {L : Language τ} {ts : List τ} :
    ts ∈ given P L ↔ P ∧ ts ∈ L := Iff.rfl

theorem given_true (L : Language τ) : given True L = L :=
  Language.ext fun _ => and_iff_right trivial

theorem given_mul {P : Prop} {L M : Language τ} : given P L * M = given P (L * M) := by
  apply Language.ext
  intro ts
  simp only [Language.mem_mul, mem_given]
  constructor
  · rintro ⟨s, ⟨hP, hs⟩, t, ht, rfl⟩
    exact ⟨hP, s, hs, t, ht, rfl⟩
  · rintro ⟨hP, s, hs, t, ht, rfl⟩
    exact ⟨s, ⟨hP, hs⟩, t, ht, rfl⟩

theorem mul_given {P : Prop} {L M : Language τ} : L * given P M = given P (L * M) := by
  apply Language.ext
  intro ts
  simp only [Language.mem_mul, mem_given]
  constructor
  · rintro ⟨s, hs, t, ⟨hP, ht⟩, rfl⟩
    exact ⟨hP, s, hs, t, ht, rfl⟩
  · rintro ⟨hP, s, hs, t, ht, rfl⟩
    exact ⟨s, hs, t, ⟨hP, ht⟩, rfl⟩

theorem given_given {P Q : Prop} {L : Language τ} : given P (given Q L) = given (P ∧ Q) L :=
  Language.ext fun _ => and_assoc.symm

/-- Behind a word. -/
theorem mem_word_mul {w ts : List τ} {L : Language τ} :
    ts ∈ ({w} : Language τ) * L ↔ ∃ t ∈ L, w ++ t = ts := by
  rw [Language.mem_mul]
  exact ⟨fun ⟨_, hs, h⟩ => Set.mem_singleton_iff.mp hs ▸ h, fun h => ⟨w, rfl, h⟩⟩

/-- The words of some `G a`. -/
def ofSome (G : α → Language τ) : Language τ := {ts | ∃ a, ts ∈ G a}

@[simp] theorem mem_ofSome {G : α → Language τ} {ts : List τ} : ts ∈ ofSome G ↔ ∃ a, ts ∈ G a :=
  Iff.rfl

/-- The words that `c` does not announce. -/
def lacking (c : List τ → Bool) (L : Language τ) : Language τ := {ts | ts ∈ L ∧ c ts = false}

@[simp] theorem mem_lacking {c : List τ → Bool} {L : Language τ} {ts : List τ} :
    ts ∈ lacking c L ↔ ts ∈ L ∧ c ts = false := Iff.rfl

/-- Nothing, or a word of `G`. -/
def Maybe (G : α → Language τ) : Option α → Language τ
  | none => 1
  | some a => G a

structure Parses (p : Parser τ ε α) (G : α → Language τ) (F : Set (List τ)) : Prop where
  sound : ∀ {ts rest : List τ} {a : α}, p ts = .ok (a, rest) → ∃ pre ∈ G a, pre ++ rest = ts
  complete : ∀ {pre rest : List τ} {a : α}, pre ∈ G a → rest ∈ F →
    p (pre ++ rest) = .ok (a, rest)

namespace Parses

variable {p : Parser τ ε α} {G G' : α → Language τ} {F F' : Set (List τ)}

theorem mono (h : Parses p G F) (hF : F' ⊆ F) : Parses p G F' :=
  ⟨h.sound, fun hpre hrest => h.complete hpre (hF hrest)⟩

theorem congr (h : Parses p G F) (hG : ∀ a, G a = G' a) : Parses p G' F := by
  obtain rfl : G = G' := funext hG
  exact h

/-- All of the input. -/
theorem run_iff (h : Parses p G F) (hnil : [] ∈ F) {ts : List τ} {a : α} :
    p ts = .ok (a, []) ↔ ts ∈ G a := by
  constructor
  · intro hp
    obtain ⟨pre, hpre, rfl⟩ := h.sound hp
    rwa [List.append_nil]
  · intro hts
    have := h.complete hts hnil
    rwa [List.append_nil] at this

/-- A value whose fields `P` has fixed. -/
theorem pure {c : α} {P : α → Prop} (hP : ∀ b, P b ↔ b = c) :
    Parses (Pure.pure c : Parser τ ε α) (fun b => given (P b) 1) Set.univ where
  sound := by
    intro ts rest b h
    obtain ⟨rfl, rfl⟩ := Prod.mk.inj (Except.ok.inj h)
    exact ⟨[], ⟨(hP _).mpr rfl, rfl⟩, rfl⟩
  complete := by
    rintro pre rest b ⟨hb, rfl⟩ -
    obtain rfl := (hP b).mp hb
    rfl

/-- One parser, then another that knows what the first one read. -/
theorem bind {q : α → Parser τ ε β} {H : α → β → Language τ} (hp : Parses p G F)
    (hq : ∀ a, Parses (q a) (H a) F')
    (hF : ∀ a b, ∀ s ∈ H a b, ∀ rest ∈ F', s ++ rest ∈ F) :
    Parses (p >>= q) (fun b => ofSome fun a => G a * H a b) F' where
  sound := by
    intro ts rest b h
    obtain ⟨a, mid, ha, hb⟩ := bind_run.mp h
    obtain ⟨s, hs, rfl⟩ := hp.sound ha
    obtain ⟨t, ht, rfl⟩ := (hq a).sound hb
    exact ⟨s ++ t, ⟨a, Language.append_mem_mul hs ht⟩, List.append_assoc _ _ _⟩
  complete := by
    intro pre rest b hpre hrest
    obtain ⟨a, hpre⟩ := hpre
    obtain ⟨s, hs, t, ht, rfl⟩ := Language.mem_mul.mp hpre
    rw [List.append_assoc, bind_run]
    exact ⟨a, t ++ rest, hp.complete hs (hF a b t ht rest hrest), (hq a).complete ht hrest⟩

/-- **A field is read**, then the rest of the value, whose field it has to be. -/
theorem field {q : α → Parser τ ε β} {P : β → Prop} {H : β → Language τ} (key : β → α)
    (hp : Parses p G F) (hq : ∀ a, Parses (q a) (fun b => given (P b ∧ key b = a) (H b)) F')
    (hF : ∀ b, P b → ∀ s ∈ H b, ∀ rest ∈ F', s ++ rest ∈ F) :
    Parses (p >>= q) (fun b => given (P b) (G (key b) * H b)) F' := by
  refine (hp.bind hq fun a b s hs rest hrest => hF b hs.1.1 s hs.2 rest hrest).congr fun b => ?_
  apply Language.ext
  intro ts
  simp only [mem_ofSome, Language.mem_mul, mem_given]
  constructor
  · rintro ⟨a, s, hs, t, ⟨⟨hP, rfl⟩, ht⟩, rfl⟩
    exact ⟨hP, s, hs, t, ht, rfl⟩
  · rintro ⟨hP, s, hs, t, ht, rfl⟩
    exact ⟨key b, s, hs, t, ⟨⟨hP, rfl⟩, ht⟩, rfl⟩

/-- Nothing is read. -/
theorem fail {e : ε} : Parses (fun _ => .error e : Parser τ ε α) (fun _ => 0) F where
  sound := nofun
  complete := nofun

/-- A field that is read without looking ahead. -/
theorem field' {q : α → Parser τ ε β} {P : β → Prop} {H : β → Language τ} (key : β → α)
    (hp : Parses p G Set.univ)
    (hq : ∀ a, Parses (q a) (fun b => given (P b ∧ key b = a) (H b)) F') :
    Parses (p >>= q) (fun b => given (P b) (G (key b) * H b)) F' :=
  hp.field key hq fun _ _ _ _ _ _ => trivial

/-- Something is read that no field keeps. -/
theorem token {p : Parser τ ε Unit} {L : Language τ} {q : Parser τ ε β} {P : β → Prop}
    {H : β → Language τ} (hp : Parses p (fun _ => L) F)
    (hq : Parses q (fun b => given (P b) (H b)) F')
    (hF : ∀ b, P b → ∀ s ∈ H b, ∀ rest ∈ F', s ++ rest ∈ F) :
    Parses (p >>= fun _ => q) (fun b => given (P b) (L * H b)) F' := by
  refine hp.field (fun _ => ()) (fun _ => hq.congr fun b => ?_) hF
  rw [and_iff_left rfl]

/-- The same without looking ahead. -/
theorem token' {p : Parser τ ε Unit} {L : Language τ} {q : Parser τ ε β} {P : β → Prop}
    {H : β → Language τ} (hp : Parses p (fun _ => L) Set.univ)
    (hq : Parses q (fun b => given (P b) (H b)) F') :
    Parses (p >>= fun _ => q) (fun b => given (P b) (L * H b)) F' :=
  hp.token hq fun _ _ _ _ _ _ => trivial

/-- **Two ways to go on**, told apart by a look ahead at the first token. -/
theorem peek {c : List τ → Bool} {q : Parser τ ε α} {H : α → Language τ} (hp : Parses p G F)
    (hq : Parses q H F) (hG : ∀ a, ∀ s ∈ G a, ∀ rest ∈ F, c (s ++ rest) = true)
    (hH : ∀ a, ∀ s ∈ H a, ∀ rest, c (s ++ rest) = c s) :
    Parses (do if ← Parsing.peek c then p else q)
      (fun a => G a + lacking c (H a)) F where
  sound := by
    intro ts rest a h
    obtain ⟨b, mid, hb, h⟩ := bind_run.mp h
    obtain ⟨rfl, rfl⟩ := Prod.mk.inj (Except.ok.inj hb)
    split at h
    · obtain ⟨pre, hpre, rfl⟩ := hp.sound h
      exact ⟨pre, Or.inl hpre, rfl⟩
    · rename_i hc
      obtain ⟨pre, hpre, rfl⟩ := hq.sound h
      rw [hH a pre hpre, Bool.not_eq_true] at hc
      exact ⟨pre, Or.inr ⟨hpre, hc⟩, rfl⟩
  complete := by
    intro pre rest a hpre hrest
    refine bind_run.mpr ⟨c (pre ++ rest), pre ++ rest, rfl, ?_⟩
    rcases hpre with hpre | ⟨hpre, hc⟩
    · rw [hG a pre hpre rest hrest]
      exact hp.complete hpre hrest
    · rw [hH a pre hpre, hc]
      exact hq.complete hpre hrest

/-- **Something that may be missing**, if what follows does not look like it. -/
theorem ifPeek {c : List τ → Bool} (hp : Parses p G F)
    (hG : ∀ a, ∀ s ∈ G a, ∀ rest ∈ F, c (s ++ rest) = true) :
    Parses (ifPeek c p) (Maybe G) {rest ∈ F | c rest = false} where
  sound := by
    intro ts rest o h
    obtain ⟨b, mid, hb, h⟩ := bind_run.mp h
    obtain ⟨rfl, rfl⟩ := Prod.mk.inj (Except.ok.inj hb)
    split at h
    · obtain ⟨a, mid, ha, h⟩ := bind_run.mp h
      obtain ⟨rfl, rfl⟩ := Prod.mk.inj (Except.ok.inj h)
      exact hp.sound ha
    · obtain ⟨rfl, rfl⟩ := Prod.mk.inj (Except.ok.inj h)
      exact ⟨[], rfl, rfl⟩
  complete := by
    rintro pre rest o hpre ⟨hrest, hc⟩
    refine bind_run.mpr ⟨c (pre ++ rest), pre ++ rest, rfl, ?_⟩
    cases o with
    | none =>
      obtain rfl : pre = [] := hpre
      rw [List.nil_append, hc]
      rfl
    | some a =>
      rw [hG a pre hpre rest hrest]
      exact bind_run.mpr ⟨a, rest, hp.complete hpre hrest, rfl⟩

theorem skipIf {c : List τ → Bool} {p : Parser τ ε Unit} {L : Language τ}
    (hp : Parses p (fun _ => L) F) (hL : ∀ s ∈ L, ∀ rest ∈ F, c (s ++ rest) = true) :
    Parses (skipIf c p) (fun _ => 1 + L) {rest ∈ F | c rest = false} where
  sound := by
    intro ts rest a h
    obtain ⟨b, mid, hb, h⟩ := bind_run.mp h
    obtain ⟨rfl, rfl⟩ := Prod.mk.inj (Except.ok.inj hb)
    split at h
    · obtain ⟨pre, hpre, rfl⟩ := hp.sound h
      exact ⟨pre, Or.inr hpre, rfl⟩
    · obtain ⟨-, rfl⟩ := Prod.mk.inj (Except.ok.inj h)
      exact ⟨[], Or.inl rfl, rfl⟩
  complete := by
    rintro pre rest a hpre ⟨hrest, hc⟩
    refine bind_run.mpr ⟨c (pre ++ rest), pre ++ rest, rfl, ?_⟩
    rcases hpre with hpre | hpre
    · obtain rfl : pre = [] := hpre
      rw [List.nil_append, hc]
      rfl
    · rw [hL pre hpre rest hrest]
      exact hp.complete hpre hrest

theorem word [DecidableEq τ] (w : List τ) (e : ε) :
    Parses (word w e) (fun _ => {w}) Set.univ where
  sound := by
    intro ts rest a h
    unfold Parsing.word at h
    split at h
    · rename_i hw
      obtain ⟨mid, rfl⟩ := List.isPrefixOf_iff_prefix.mp hw
      obtain ⟨-, rfl⟩ := Prod.mk.inj (Except.ok.inj h)
      exact ⟨w, rfl, by rw [List.drop_left]⟩
    · cases h
  complete := by
    rintro pre rest a rfl -
    rw [Parsing.word, if_pos (List.isPrefixOf_iff_prefix.mpr (List.prefix_append pre rest)),
      List.drop_left]

/-- A span ends where a token without `c` is. -/
theorem span (c : τ → Bool) :
    Parses (span c : Parser τ ε (List τ)) (fun a => given (∀ t ∈ a, c t = true) {a})
      {rest | ∀ t ∈ rest.head?, c t = false} where
  sound := by
    intro ts rest a h
    obtain ⟨rfl, rfl⟩ := Prod.mk.inj (Except.ok.inj h)
    exact ⟨_, ⟨fun t => List.mem_takeWhile_imp, rfl⟩, List.takeWhile_append_dropWhile⟩
  complete := by
    rintro pre rest a ⟨ha, rfl⟩ hrest
    have hstop : rest.takeWhile c = [] ∧ rest.dropWhile c = rest := by
      cases rest with
      | nil => exact ⟨rfl, rfl⟩
      | cons t rest =>
        have ht : c t = false := hrest t rfl
        simp [ht]
    rw [Parsing.span, List.takeWhile_append_of_pos ha, List.dropWhile_append_of_pos ha, hstop.1,
      hstop.2, List.append_nil]

theorem suchThat (hp : Parses p G F) (good : α → Bool) (e : ε) :
    Parses (suchThat p good e) (fun a => given (good a = true) (G a)) F where
  sound := by
    intro ts rest a h
    obtain ⟨b, mid, hb, h⟩ := bind_run.mp h
    split at h
    · rename_i hgood
      obtain ⟨rfl, rfl⟩ := Prod.mk.inj (Except.ok.inj h)
      obtain ⟨pre, hpre, rfl⟩ := hp.sound hb
      exact ⟨pre, ⟨hgood, hpre⟩, rfl⟩
    · cases h
  complete := by
    rintro pre rest a ⟨hgood, hpre⟩ hrest
    refine bind_run.mpr ⟨a, rest, hp.complete hpre hrest, ?_⟩
    rw [if_pos hgood]
    rfl

end Parses

/-! ### Loops -/

section Loops

variable {p : Parser τ ε α} {G : α → Language τ} {F : Set (List τ)}

/-- Every spelling has a token, and what may follow an item includes the end
and another item. -/
structure Items (G : α → Language τ) (F : Set (List τ)) : Prop where
  ne_nil : ∀ a, [] ∉ G a
  nil_mem : [] ∈ F
  mem : ∀ a, ∀ s ∈ G a, ∀ rest, s ++ rest ∈ F

theorem Items.length_lt (hG : Items G F) {a : α} {pre : List τ} (h : pre ∈ G a) (rest : List τ) :
    rest.length < (pre ++ rest).length := by
  have : pre ≠ [] := fun e => hG.ne_nil a (e ▸ h)
  have := List.length_pos_of_ne_nil this
  rw [List.length_append]
  omega

theorem Items.prod_mem (hG : Items G F) : ∀ {as : List α} {ts : List τ},
    ts ∈ (as.map G).prod → ts ∈ F
  | [], ts, h => by
    obtain rfl : ts = [] := h
    exact hG.nil_mem
  | a :: as, ts, h => by
    rw [List.map_cons, List.prod_cons] at h
    obtain ⟨s, hs, t, -, rfl⟩ := Language.mem_mul.mp h
    exact hG.mem a s hs t

theorem untilEmpty_loop_iff (hp : Parses p G F) (hG : Items G F) :
    ∀ {n : ℕ} {ts : List τ} {as : List α}, ts.length ≤ n →
      (untilEmpty.loop p n ts = .ok as ↔ ts ∈ (as.map G).prod)
  | n, [], as, _ => by
    rw [untilEmpty.loop]
    constructor
    · intro h
      obtain rfl := Except.ok.inj h
      rfl
    · intro h
      cases as with
      | nil => rfl
      | cons a as =>
        rw [List.map_cons, List.prod_cons] at h
        obtain ⟨s, hs, t, -, he⟩ := Language.mem_mul.mp h
        obtain ⟨rfl, -⟩ := List.append_eq_nil_iff.mp he
        exact absurd hs (hG.ne_nil a)
  | 0, t :: ts, as, hn => by simp at hn
  | n + 1, t :: ts, as, hn => by
    rw [untilEmpty.loop]
    constructor
    · intro h
      obtain ⟨⟨a, rest⟩, ha, h⟩ := bind_eq_ok.mp h
      obtain ⟨as', has, h⟩ := bind_eq_ok.mp h
      obtain rfl := Except.ok.inj h
      obtain ⟨pre, hpre, he⟩ := hp.sound ha
      have hlt : rest.length ≤ n := by
        have := hG.length_lt hpre rest
        rw [he] at this
        omega
      rw [List.map_cons, List.prod_cons, ← he]
      exact Language.append_mem_mul hpre ((untilEmpty_loop_iff hp hG hlt).mp has)
    · intro h
      cases as with
      | nil => exact absurd h (List.cons_ne_nil t ts)
      | cons a as =>
        rw [List.map_cons, List.prod_cons] at h
        obtain ⟨pre, hpre, rest, hrest, he⟩ := Language.mem_mul.mp h
        have hlt : rest.length ≤ n := by
          have := hG.length_lt hpre rest
          rw [he] at this
          omega
        rw [← he, hp.complete hpre (hG.prod_mem hrest)]
        show (untilEmpty.loop p n rest >>= fun as => .ok (a :: as)) = _
        rw [(untilEmpty_loop_iff hp hG hlt).mpr hrest]
        rfl

/-- **A loop up to the end of the input** reads one item after another. -/
theorem untilEmpty_iff (hp : Parses p G F) (hG : Items G F) {ts : List τ} {as : List α} :
    untilEmpty p ts = .ok as ↔ ts ∈ (as.map G).prod :=
  untilEmpty_loop_iff hp hG le_rfl

theorem untilEmpty_loop_error (hp : Parses p G F) (hG : Items G F) {e : ε} {rest : List τ}
    (hne : rest ≠ []) (hrest : rest ∈ F) (he : p rest = .error e) :
    ∀ {as : List α} {n : ℕ} {ts : List τ}, (ts ++ rest).length ≤ n → ts ∈ (as.map G).prod →
      untilEmpty.loop p n (ts ++ rest) = .error e
  | [], n, ts, hn, h => by
    obtain rfl : ts = [] := h
    obtain ⟨t, r, rfl⟩ := List.exists_cons_of_ne_nil hne
    cases n with
    | zero => simp at hn
    | succ n =>
      rw [List.nil_append, untilEmpty.loop, he]
      rfl
  | a :: as, n, ts, hn, h => by
    rw [List.map_cons, List.prod_cons] at h
    obtain ⟨s, hs, r, hr, rfl⟩ := Language.mem_mul.mp h
    have hlt := hG.length_lt hs (r ++ rest)
    rw [← List.append_assoc] at hlt
    have hF : r ++ rest ∈ F := by
      cases as with
      | nil =>
        obtain rfl : r = [] := hr
        exact hrest
      | cons b as =>
        rw [List.map_cons, List.prod_cons] at hr
        obtain ⟨u, hu, v, -, rfl⟩ := Language.mem_mul.mp hr
        rw [List.append_assoc]
        exact hG.mem b u hu _
    obtain ⟨t, l, hl⟩ := List.exists_cons_of_ne_nil
      (List.ne_nil_of_length_pos (Nat.zero_lt_of_lt hlt))
    cases n with
    | zero => omega
    | succ n =>
      rw [hl, untilEmpty.loop, ← hl, List.append_assoc, hp.complete hs hF]
      show (untilEmpty.loop p n (r ++ rest) >>= fun as => .ok (a :: as)) = _
      rw [untilEmpty_loop_error hp hG hne hrest he (by omega) hr]
      rfl

/-- An error behind some items is the error of the loop. -/
theorem untilEmpty_error (hp : Parses p G F) (hG : Items G F) {e : ε} {as : List α}
    {ts rest : List τ} (hts : ts ∈ (as.map G).prod) (hne : rest ≠ []) (hrest : rest ∈ F)
    (he : p rest = .error e) : untilEmpty p (ts ++ rest) = .error e :=
  untilEmpty_loop_error hp hG hne hrest he le_rfl hts

/-- Items with `S` between them and maybe at the end. -/
def Terminated (G : α → Language τ) (S : Language τ) : List α → Language τ
  | [] => 1
  | [a] => G a * (1 + S)
  | a :: b :: as => G a * (S * Terminated G S (b :: as))

/-- Spellings have a token, separators too, and the end or a separator may
follow an item. -/
structure Separated (G : α → Language τ) (S : Language τ) (F : Set (List τ)) : Prop where
  ne_nil : ∀ a, [] ∉ G a
  sep_ne_nil : [] ∉ S
  nil_mem : [] ∈ F
  mem : ∀ u ∈ S, ∀ rest, u ++ rest ∈ F

variable {S : Language τ} {sep : Parser τ ε Unit}

theorem Separated.ne_nil_of_mem (hG : Separated G S F) {a : α} {s : List τ} (h : s ∈ G a) :
    s ≠ [] := fun e => hG.ne_nil a (e ▸ h)

theorem Separated.sep_ne_nil_of_mem (hG : Separated G S F) {u : List τ} (h : u ∈ S) : u ≠ [] :=
  fun e => hG.sep_ne_nil (e ▸ h)

/-- An item takes one round of a loop. -/
theorem Separated.exists_succ (hG : Separated G S F) {a : α} {s v : List τ} {n : ℕ} (h : s ∈ G a)
    (hn : (s ++ v).length ≤ n) : ∃ m, n = m + 1 := by
  have := List.length_pos_of_ne_nil (hG.ne_nil_of_mem h)
  rw [List.length_append] at hn
  exact Nat.exists_eq_add_one.mpr (by omega)

/-- The step of the loop behind an item. -/
theorem terminated_loop_cons {n : ℕ} {s rest : List τ} {a : α} (hs : s ≠ [])
    (hp : p (s ++ rest) = .ok (a, rest)) :
    terminated.loop p sep (n + 1) (s ++ rest) =
      if rest.isEmpty then .ok [a]
      else sep rest >>= fun r => terminated.loop p sep n r.2 >>= fun as => .ok (a :: as) := by
  obtain ⟨t, ts, ht⟩ := List.exists_cons_of_ne_nil (l := s ++ rest) (by simp [hs])
  rw [ht, terminated.loop, ← ht, hp]
  rfl

theorem terminated_loop_sound (hp : Parses p G F) (hsep : Parses sep (fun _ => S) Set.univ)
    (hG : Separated G S F) : ∀ {n : ℕ} {ts : List τ} {as : List α}, ts.length ≤ n →
      terminated.loop p sep n ts = .ok as → ts ∈ Terminated G S as
  | n, [], as, _, h => by
    rw [terminated.loop] at h
    obtain rfl := Except.ok.inj h
    rfl
  | 0, t :: ts, as, hn, _ => by simp at hn
  | n + 1, t :: ts, as, hn, h => by
    have hloop := h
    rw [terminated.loop] at hloop
    obtain ⟨⟨a, rest⟩, ha, -⟩ := bind_eq_ok.mp hloop
    obtain ⟨s, hs, he⟩ := hp.sound ha
    rw [← he] at h ha ⊢
    rw [terminated_loop_cons (hG.ne_nil_of_mem hs) ha] at h
    by_cases hrest : rest.isEmpty
    · rw [if_pos hrest] at h
      obtain rfl := Except.ok.inj h
      obtain rfl := List.isEmpty_iff.mp hrest
      exact Language.append_mem_mul hs (Or.inl rfl)
    · rw [if_neg hrest] at h
      obtain ⟨⟨_, mid⟩, hsu, h⟩ := bind_eq_ok.mp h
      obtain ⟨as', has, h⟩ := bind_eq_ok.mp h
      obtain rfl := Except.ok.inj h
      obtain ⟨u, hu, rfl⟩ := hsep.sound hsu
      have hlt : mid.length ≤ n := by
        have := List.length_pos_of_ne_nil (hG.ne_nil_of_mem hs)
        have := congrArg List.length he
        simp only [List.length_append, List.length_cons] at this hn
        omega
      have ih := terminated_loop_sound hp hsep hG hlt has
      match as', ih with
      | [], ih =>
        obtain rfl : mid = [] := ih
        rw [List.append_nil]
        exact Language.append_mem_mul hs (Or.inr hu)
      | b :: bs, ih => exact Language.append_mem_mul hs (Language.append_mem_mul hu ih)

theorem terminated_loop_complete (hp : Parses p G F) (hsep : Parses sep (fun _ => S) Set.univ)
    (hG : Separated G S F) : ∀ {as : List α} {n : ℕ} {ts : List τ}, ts.length ≤ n →
      ts ∈ Terminated G S as → terminated.loop p sep n ts = .ok as
  | [], n, ts, _, h => by
    obtain rfl : ts = [] := h
    rw [terminated.loop]
  | [a], n, ts, hn, h => by
    obtain ⟨s, hs, u, hu, rfl⟩ := Language.mem_mul.mp h
    have hsne := hG.ne_nil_of_mem hs
    obtain ⟨n, rfl⟩ := hG.exists_succ hs hn
    rcases hu with hu | hu
    · obtain rfl : u = [] := hu
      rw [terminated_loop_cons hsne (hp.complete hs hG.nil_mem)]
      rfl
    · have hF : u ∈ F := by
        have := hG.mem u hu []
        rwa [List.append_nil] at this
      have hu' : sep u = .ok ((), []) := (hsep.run_iff trivial).mpr hu
      rw [terminated_loop_cons hsne (hp.complete hs hF), if_neg
        (by simpa using hG.sep_ne_nil_of_mem hu), hu']
      show (terminated.loop p sep n [] >>= fun as => .ok (a :: as)) = _
      rw [terminated.loop]
      rfl
  | a :: b :: as, n, ts, hn, h => by
    obtain ⟨s, hs, v, hv, rfl⟩ := Language.mem_mul.mp h
    obtain ⟨u, hu, r, hr, rfl⟩ := Language.mem_mul.mp hv
    have hsne := hG.ne_nil_of_mem hs
    obtain ⟨n, rfl⟩ := hG.exists_succ hs hn
    have hlt : r.length ≤ n := by
      have := List.length_pos_of_ne_nil hsne
      simp only [List.length_append] at hn
      omega
    rw [terminated_loop_cons hsne (hp.complete hs (hG.mem u hu r)), if_neg
      (by simp [hG.sep_ne_nil_of_mem hu]), hsep.complete (a := ()) hu trivial]
    show (terminated.loop p sep n r >>= fun as => .ok (a :: as)) = _
    rw [terminated_loop_complete hp hsep hG hlt hr]
    rfl

/-- **A list with separators**, the last one optional. -/
theorem terminated_iff (hp : Parses p G F) (hsep : Parses sep (fun _ => S) Set.univ)
    (hG : Separated G S F) {ts : List τ} {as : List α} :
    terminated p sep ts = .ok as ↔ ts ∈ Terminated G S as :=
  ⟨terminated_loop_sound hp hsep hG le_rfl, terminated_loop_complete hp hsep hG le_rfl⟩

/-- A separated list whose items and separators do not look like the end. -/
structure Closed (stop : List τ → Bool) (G : α → Language τ) (S : Language τ) (F : Set (List τ)) :
    Prop extends Separated G S F where
  stop_mem : ∀ rest, stop rest = true → rest ∈ F
  item : ∀ a, ∀ s ∈ G a, ∀ rest, stop (s ++ rest) = false
  sep : ∀ u ∈ S, ∀ rest, stop (u ++ rest) = false

variable {stop : List τ → Bool}

/-- The step of the loop behind an item. -/
theorem upTo_loop_item {n : ℕ} {ts rest : List τ} {a : α} (hstop : ¬ stop ts = true)
    (hp : p ts = .ok (a, rest)) :
    upTo.loop stop p sep (n + 1) ts =
      if stop rest then .ok ([a], rest)
      else sep rest >>= fun r => upTo.loop stop p sep n r.2 >>= fun q => .ok (a :: q.1, q.2) := by
  rw [upTo.loop, if_neg hstop, hp]
  rfl

theorem upTo_loop_sound (hp : Parses p G F) (hsep : Parses sep (fun _ => S) Set.univ) :
    ∀ {n : ℕ} {ts rest : List τ} {as : List α}, upTo.loop stop p sep n ts = .ok (as, rest) →
      ∃ pre ∈ Terminated G S as, pre ++ rest = ts
  | 0, ts, rest, as, h => by
    obtain ⟨rfl, rfl⟩ := Prod.mk.inj (Except.ok.inj h)
    exact ⟨[], rfl, rfl⟩
  | n + 1, ts, rest, as, h => by
    by_cases hstop : stop ts = true
    · rw [upTo.loop, if_pos hstop] at h
      obtain ⟨rfl, rfl⟩ := Prod.mk.inj (Except.ok.inj h)
      exact ⟨[], rfl, rfl⟩
    have hloop := h
    rw [upTo.loop, if_neg hstop] at hloop
    obtain ⟨⟨a, mid⟩, ha, -⟩ := bind_eq_ok.mp hloop
    rw [upTo_loop_item hstop ha] at h
    obtain ⟨s, hs, rfl⟩ := hp.sound ha
    by_cases hmid : stop mid
    · rw [if_pos hmid] at h
      obtain ⟨rfl, rfl⟩ := Prod.mk.inj (Except.ok.inj h)
      have hnil : [] ∈ 1 + S := Or.inl rfl
      have hmem := Language.append_mem_mul hs hnil
      rw [List.append_nil] at hmem
      exact ⟨s, hmem, rfl⟩
    · rw [if_neg hmid] at h
      obtain ⟨⟨_, behind⟩, hsu, h⟩ := bind_eq_ok.mp h
      obtain ⟨⟨as', last⟩, has, h⟩ := bind_eq_ok.mp h
      obtain ⟨rfl, rfl⟩ := Prod.mk.inj (Except.ok.inj h)
      obtain ⟨u, hu, rfl⟩ := hsep.sound hsu
      obtain ⟨r, hr, rfl⟩ := upTo_loop_sound hp hsep has
      refine ⟨s ++ (u ++ r), ?_, by simp⟩
      match as', hr with
      | [], hr =>
        obtain rfl : r = [] := hr
        rw [List.append_nil]
        exact Language.append_mem_mul hs (Or.inr hu)
      | b :: bs, hr => exact Language.append_mem_mul hs (Language.append_mem_mul hu hr)

theorem upTo_loop_complete (hp : Parses p G F) (hsep : Parses sep (fun _ => S) Set.univ)
    (hG : Closed stop G S F) {rest : List τ} (hrest : stop rest = true) :
    ∀ {as : List α} {n : ℕ} {ts : List τ}, ts.length ≤ n → ts ∈ Terminated G S as →
      upTo.loop stop p sep n (ts ++ rest) = .ok (as, rest)
  | [], n, ts, _, h => by
    obtain rfl : ts = [] := h
    cases n with
    | zero => rfl
    | succ n => rw [List.nil_append, upTo.loop, if_pos hrest]
  | [a], n, ts, hn, h => by
    obtain ⟨s, hs, u, hu, rfl⟩ := Language.mem_mul.mp h
    obtain ⟨n, rfl⟩ := hG.exists_succ hs hn
    have hstop : ¬ stop (s ++ (u ++ rest)) = true := ne_true_of_eq_false (hG.item a s hs _)
    rw [List.append_assoc]
    rcases hu with hu | hu
    · obtain rfl : u = [] := hu
      have hat : ¬ stop (s ++ rest) = true := hstop
      rw [List.nil_append, upTo_loop_item hat (hp.complete hs (hG.stop_mem rest hrest)), if_pos hrest]
    · rw [upTo_loop_item hstop (hp.complete hs (hG.mem u hu rest)),
        if_neg (ne_true_of_eq_false (hG.sep u hu rest)), hsep.complete (a := ()) hu trivial]
      show (upTo.loop stop p sep n rest >>= fun q => .ok (a :: q.1, q.2)) = _
      have : upTo.loop stop p sep n ([] ++ rest) = .ok ([], rest) :=
        upTo_loop_complete hp hsep hG hrest (Nat.zero_le n) rfl
      rw [List.nil_append] at this
      rw [this]
      rfl
  | a :: b :: as, n, ts, hn, h => by
    obtain ⟨s, hs, v, hv, rfl⟩ := Language.mem_mul.mp h
    obtain ⟨u, hu, r, hr, rfl⟩ := Language.mem_mul.mp hv
    obtain ⟨n, rfl⟩ := hG.exists_succ hs hn
    have hlt : r.length ≤ n := by
      have := List.length_pos_of_ne_nil (hG.ne_nil_of_mem hs)
      simp only [List.length_append] at hn
      omega
    rw [List.append_assoc, List.append_assoc,
      upTo_loop_item (ne_true_of_eq_false (hG.item a s hs _)) (hp.complete hs (hG.mem u hu _)),
      if_neg (ne_true_of_eq_false (hG.sep u hu _)), hsep.complete (a := ()) hu trivial]
    show (upTo.loop stop p sep n (r ++ rest) >>= fun q => .ok (a :: q.1, q.2)) = _
    rw [upTo_loop_complete hp hsep hG hrest hlt hr]
    rfl

/-- **A list up to its end.** -/
theorem Parses.upTo (hp : Parses p G F) (hsep : Parses sep (fun _ => S) Set.univ)
    (hG : Closed stop G S F) :
    Parses (upTo stop p sep) (Terminated G S) {rest | stop rest = true} where
  sound := upTo_loop_sound hp hsep
  complete := by
    intro pre rest as hpre hrest
    exact upTo_loop_complete hp hsep hG hrest (by simp) hpre

end Loops
end Parsing
