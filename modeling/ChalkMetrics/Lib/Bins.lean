/-
# Counted bins over a linear order

A list of keys with a count each, the keys strictly increasing: what an
ordered histogram holds. `expand` writes every key out as often as it is
counted, so a list of bins is a sorted multiset (`eq_of_expand_perm`), adding
to a bin is adding copies (`expand_bump`), moving the keys along a monotone
function is mapping the copies (`expand_regroup`), and walking the counts down
from a rank finds the element at that rank (`pick_eq`).
-/
import Mathlib.Data.Finset.Card
import Mathlib.Data.List.Sort
import Mathlib.Order.Monotone.Basic
import Mathlib.Tactic.Ring

namespace Bins

variable {K L : Type*}

/-- The bins' keys, in order. -/
def keys (l : List (K × ℕ)) : List K := l.map Prod.fst

/-- The copies the bins count, in order. -/
def expand : List (K × ℕ) → List K
  | [] => []
  | (k, c) :: l => List.replicate c k ++ expand l

/-- The number of copies. -/
def total (l : List (K × ℕ)) : ℕ := (l.map Prod.snd).sum

@[simp] theorem keys_nil : keys ([] : List (K × ℕ)) = [] := rfl
@[simp] theorem keys_cons (k : K) (c : ℕ) (l) : keys ((k, c) :: l) = k :: keys l := rfl
@[simp] theorem expand_nil : expand ([] : List (K × ℕ)) = [] := rfl
@[simp] theorem expand_cons (k : K) (c : ℕ) (l) :
    expand ((k, c) :: l) = List.replicate c k ++ expand l := rfl
@[simp] theorem total_nil : total ([] : List (K × ℕ)) = 0 := rfl
@[simp] theorem total_cons (k : K) (c : ℕ) (l) : total ((k, c) :: l) = c + total l := rfl

theorem length_expand (l : List (K × ℕ)) : (expand l).length = total l := by
  induction l with
  | nil => rfl
  | cons p l ih => obtain ⟨k, c⟩ := p; simp [ih]

theorem length_keys (l : List (K × ℕ)) : (keys l).length = l.length := by simp [keys]

theorem mem_keys_of_mem_expand {l : List (K × ℕ)} {k : K} (h : k ∈ expand l) : k ∈ keys l := by
  induction l with
  | nil => cases h
  | cons p l ih =>
    obtain ⟨k', c⟩ := p
    simp only [expand_cons, List.mem_append, List.mem_replicate] at h
    simp only [keys_cons, List.mem_cons]
    exact h.imp (·.2) ih

/-- With no empty bin, the keys are the elements counted. -/
theorem mem_expand_iff {l : List (K × ℕ)} (hpos : ∀ p ∈ l, 0 < p.2) {k : K} :
    k ∈ expand l ↔ k ∈ keys l := by
  refine ⟨mem_keys_of_mem_expand, fun h => ?_⟩
  induction l with
  | nil => cases h
  | cons p l ih =>
    obtain ⟨k', c⟩ := p
    simp only [expand_cons, List.mem_append, List.mem_replicate]
    rcases List.mem_cons.mp h with rfl | h
    · exact Or.inl ⟨(hpos _ List.mem_cons_self).ne', rfl⟩
    · exact Or.inr (ih (fun q hq => hpos q (List.mem_cons_of_mem _ hq)) h)

theorem length_le_expand : ∀ {l : List (K × ℕ)}, (∀ p ∈ l, 0 < p.2) → l.length ≤ (expand l).length
  | [], _ => le_rfl
  | (k, c) :: l, h => by
    have hc : 0 < c := h _ List.mem_cons_self
    have ih := length_le_expand fun p hp => h p (List.mem_cons_of_mem _ hp)
    rw [expand_cons, List.length_append, List.length_replicate, List.length_cons]
    omega

section Order

variable [LinearOrder K] [LinearOrder L]

/-- The keys strictly increase. -/
def Ascending (l : List (K × ℕ)) : Prop := (keys l).Pairwise (· < ·)

theorem ascending_nil : Ascending ([] : List (K × ℕ)) := List.Pairwise.nil

theorem ascending_cons {k : K} {c : ℕ} {l : List (K × ℕ)} :
    Ascending ((k, c) :: l) ↔ (∀ k' ∈ keys l, k < k') ∧ Ascending l := by
  simp [Ascending, List.pairwise_cons]

theorem Ascending.nodup {l : List (K × ℕ)} (h : Ascending l) : (keys l).Nodup :=
  h.imp fun hab => hab.ne

theorem Ascending.length_eq_card {l : List (K × ℕ)} (h : Ascending l) :
    l.length = (keys l).toFinset.card := by
  rw [List.toFinset_card_of_nodup h.nodup, length_keys]

theorem Ascending.sorted_expand {l : List (K × ℕ)} (h : Ascending l) :
    (expand l).Pairwise (· ≤ ·) := by
  induction l with
  | nil => exact List.Pairwise.nil
  | cons p l ih =>
    obtain ⟨k, c⟩ := p
    obtain ⟨hk, hl⟩ := ascending_cons.mp h
    refine List.pairwise_append.mpr ⟨?_, ih hl, fun a ha b hb => ?_⟩
    · exact List.pairwise_replicate.mpr (Or.inr le_rfl)
    · rw [(List.mem_replicate.mp ha).2]
      exact (hk b (mem_keys_of_mem_expand hb)).le

/-- Two lists of non-empty bins that count the same elements are the same. -/
theorem eq_of_expand_eq : ∀ {l l' : List (K × ℕ)}, Ascending l → Ascending l' →
    (∀ p ∈ l, 0 < p.2) → (∀ p ∈ l', 0 < p.2) → expand l = expand l' → l = l'
  | [], [], _, _, _, _, _ => rfl
  | [], (k, c) :: l', _, _, _, h', he => by
    have := h' _ List.mem_cons_self
    rw [expand_nil, expand_cons] at he
    have h0 := congrArg List.length he
    simp at h0; omega
  | (k, c) :: l, [], _, _, h, _, he => by
    have := h _ List.mem_cons_self
    rw [expand_nil, expand_cons] at he
    have h0 := congrArg List.length he
    simp at h0; omega
  | (k, c) :: l, (k', c') :: l', ha, ha', h, h', he => by
    obtain ⟨hk, hl⟩ := ascending_cons.mp ha
    obtain ⟨hk', hl'⟩ := ascending_cons.mp ha'
    have hc : 0 < c := h _ List.mem_cons_self
    have hc' : 0 < c' := h' _ List.mem_cons_self
    have hkk : k = k' := by
      have h0 := congrArg List.head? he
      obtain ⟨n, rfl⟩ : ∃ n, c = n + 1 := ⟨c - 1, by omega⟩
      obtain ⟨n', rfl⟩ : ∃ n, c' = n + 1 := ⟨c' - 1, by omega⟩
      simpa [List.replicate_succ] using h0
    subst hkk
    -- the key does not occur in either tail, so both bins count it equally often
    have hnot : ∀ {m : List (K × ℕ)}, (∀ x ∈ keys m, k < x) → (expand m).count k = 0 := fun hm =>
      List.count_eq_zero.mpr fun hx => lt_irrefl k (hm k (mem_keys_of_mem_expand hx))
    have hcc : c = c' := by
      have h0 := congrArg (List.count k) he
      simpa [List.count_append, hnot hk, hnot hk'] using h0
    subst hcc
    rw [expand_cons, expand_cons, List.append_cancel_left_eq] at he
    rw [eq_of_expand_eq hl hl' (fun p hp => h p (List.mem_cons_of_mem _ hp))
      (fun p hp => h' p (List.mem_cons_of_mem _ hp)) he]

theorem eq_of_expand_perm {l l' : List (K × ℕ)} (hl : Ascending l) (hl' : Ascending l')
    (h : ∀ p ∈ l, 0 < p.2) (h' : ∀ p ∈ l', 0 < p.2) (hp : (expand l).Perm (expand l')) : l = l' :=
  eq_of_expand_eq hl hl' h h'
    (hp.eq_of_pairwise (fun _ _ _ _ => le_antisymm) hl.sorted_expand hl'.sorted_expand)

/-! ### The count of a bin -/

/-- The count of the bin of `k`, 0 if there is none. -/
def countAt [DecidableEq K] (k : K) : List (K × ℕ) → ℕ
  | [] => 0
  | (k', c) :: l => if k = k' then c else countAt k l

theorem Ascending.countAt_eq {l : List (K × ℕ)} (h : Ascending l) (k : K) :
    countAt k l = (expand l).count k := by
  induction l with
  | nil => rfl
  | cons p l ih =>
    obtain ⟨k', c⟩ := p
    obtain ⟨hk, hl⟩ := ascending_cons.mp h
    rw [countAt, expand_cons, List.count_append, List.count_replicate]
    by_cases he : k = k'
    · subst he
      have h0 : (expand l).count k = 0 :=
        List.count_eq_zero.mpr fun hx => lt_irrefl k (hk k (mem_keys_of_mem_expand hx))
      simp [h0]
    · simp [he, Ne.symm he, ih hl]

/-! ### Adding to a bin -/

/-- Add `n` copies of `k`. -/
def bump (k : K) (n : ℕ) : List (K × ℕ) → List (K × ℕ)
  | [] => [(k, n)]
  | (k', c) :: l =>
    if k < k' then (k, n) :: (k', c) :: l
    else if k = k' then (k', c + n) :: l
    else (k', c) :: bump k n l

theorem mem_keys_bump (k : K) (n : ℕ) : ∀ (l : List (K × ℕ)) (x : K),
    x ∈ keys (bump k n l) ↔ x = k ∨ x ∈ keys l
  | [], x => by simp [bump]
  | (k', c) :: l, x => by
    rw [bump]
    split_ifs with h1 h2
    · simp
    · subst h2; simp
    · simp only [keys_cons, List.mem_cons, mem_keys_bump k n l]; tauto

theorem Ascending.bump {l : List (K × ℕ)} (h : Ascending l) (k : K) (n : ℕ) :
    Ascending (bump k n l) := by
  induction l with
  | nil => simp [Bins.bump, Ascending]
  | cons p l ih =>
    obtain ⟨k', c⟩ := p
    obtain ⟨hk, hl⟩ := ascending_cons.mp h
    rw [Bins.bump]
    split_ifs with h1 h2
    · refine ascending_cons.mpr ⟨fun x hx => ?_, h⟩
      rcases List.mem_cons.mp hx with rfl | hx
      · exact h1
      · exact h1.trans (hk x hx)
    · exact ascending_cons.mpr ⟨hk, hl⟩
    · refine ascending_cons.mpr ⟨fun x hx => ?_, ih hl⟩
      rcases (mem_keys_bump k n l x).mp hx with rfl | hx
      · exact lt_of_le_of_ne (not_lt.mp h1) (Ne.symm h2)
      · exact hk x hx

theorem expand_bump (k : K) (n : ℕ) (l : List (K × ℕ)) :
    (expand (bump k n l)).Perm (List.replicate n k ++ expand l) := by
  induction l with
  | nil => simp [bump]
  | cons p l ih =>
    obtain ⟨k', c⟩ := p
    rw [bump]
    split_ifs with h1 h2
    · exact List.Perm.refl _
    · subst h2
      rw [expand_cons, expand_cons, List.replicate_add, List.append_assoc]
      exact List.perm_append_comm_assoc _ _ _
    · rw [expand_cons, expand_cons]
      exact (ih.append_left _).trans (List.perm_append_comm_assoc _ _ _)

theorem total_bump (k : K) (n : ℕ) (l : List (K × ℕ)) : total (bump k n l) = n + total l := by
  rw [← length_expand, (expand_bump k n l).length_eq, List.length_append, List.length_replicate,
    length_expand]

theorem bump_pos {k : K} {n : ℕ} (hn : 0 < n) : ∀ {l : List (K × ℕ)}, (∀ p ∈ l, 0 < p.2) →
    ∀ p ∈ bump k n l, 0 < p.2
  | [], _, p, hp => by
    rw [List.mem_singleton.mp hp]; exact hn
  | (k', c) :: l, h, p, hp => by
    have hl : ∀ q ∈ l, 0 < q.2 := fun q hq => h q (List.mem_cons_of_mem _ hq)
    rw [bump] at hp
    split_ifs at hp
    · rcases List.mem_cons.mp hp with rfl | hp
      · exact hn
      · exact h p hp
    · rcases List.mem_cons.mp hp with rfl | hp
      · exact Nat.add_pos_right _ hn
      · exact hl p hp
    · rcases List.mem_cons.mp hp with rfl | hp
      · exact h _ List.mem_cons_self
      · exact bump_pos hn hl p hp

/-- Add every bin of `l'` to `l`, in order. -/
def bumps (l' l : List (K × ℕ)) : List (K × ℕ) := l'.foldl (fun m p => bump p.1 p.2 m) l

theorem expand_bumps (l' l : List (K × ℕ)) : (expand (bumps l' l)).Perm (expand l' ++ expand l) := by
  induction l' generalizing l with
  | nil => exact List.Perm.refl _
  | cons p l' ih =>
    obtain ⟨k, c⟩ := p
    calc (expand (bumps l' (bump k c l))).Perm (expand l' ++ expand (bump k c l)) := ih _
      List.Perm _ (expand l' ++ (List.replicate c k ++ expand l)) := (expand_bump k c l).append_left _
      List.Perm _ (List.replicate c k ++ expand l' ++ expand l) := by
        rw [← List.append_assoc]
        exact List.perm_append_comm.append_right _

theorem bumps_pos {l' : List (K × ℕ)} (hl' : ∀ p ∈ l', 0 < p.2) :
    ∀ {l : List (K × ℕ)}, (∀ p ∈ l, 0 < p.2) → ∀ p ∈ bumps l' l, 0 < p.2 := by
  induction l' with
  | nil => intro l hl; exact hl
  | cons q l' ih =>
    intro l hl
    exact ih (fun p hp => hl' p (List.mem_cons_of_mem _ hp))
      (bump_pos (hl' q List.mem_cons_self) hl)

/-- Below and above the new key nothing changes. -/
theorem bump_append {k : K} (n : ℕ) : ∀ {l l' : List (K × ℕ)}, (∀ x ∈ keys l, x < k) →
    (∀ x ∈ keys l', k < x) → bump k n (l ++ l') = l ++ (k, n) :: l'
  | [], [], _, _ => rfl
  | [], (k', c) :: l', _, h' => by
    rw [List.nil_append, bump, if_pos (h' k' (by simp)), List.nil_append]
  | (k', c) :: l, l', h, h' => by
    have hk : k' < k := h k' (by simp)
    rw [List.cons_append, bump, if_neg hk.not_gt, if_neg hk.ne',
      bump_append n (fun x hx => h x (List.mem_cons_of_mem _ hx)) h', List.cons_append]

theorem bump_append_of_mem {k : K} (n c : ℕ) : ∀ {l : List (K × ℕ)} (l' : List (K × ℕ)),
    (∀ x ∈ keys l, x < k) → bump k n (l ++ (k, c) :: l') = l ++ (k, c + n) :: l'
  | [], l', _ => by simp [bump]
  | (k', c') :: l, l', h => by
    have hk : k' < k := h k' (by simp)
    rw [List.cons_append, bump, if_neg hk.not_gt, if_neg hk.ne',
      bump_append_of_mem n c l' (fun x hx => h x (List.mem_cons_of_mem _ hx)), List.cons_append]

/-- The bins below a key, its own if there is one, and those above. -/
theorem Ascending.split {l : List (K × ℕ)} (h : Ascending l) (k : K) :
    ∃ l₁ l₂, (∀ x ∈ keys l₁, x < k) ∧ (∀ x ∈ keys l₂, k < x) ∧
      (l = l₁ ++ l₂ ∨ ∃ c, l = l₁ ++ (k, c) :: l₂) := by
  induction l with
  | nil => exact ⟨[], [], by simp, by simp, Or.inl rfl⟩
  | cons p l ih =>
    obtain ⟨k', c⟩ := p
    obtain ⟨hk, hl⟩ := ascending_cons.mp h
    rcases lt_trichotomy k k' with hlt | rfl | hgt
    · refine ⟨[], (k', c) :: l, by simp, fun x hx => ?_, Or.inl rfl⟩
      rcases List.mem_cons.mp hx with rfl | hx
      · exact hlt
      · exact hlt.trans (hk x hx)
    · exact ⟨[], l, by simp, hk, Or.inr ⟨c, rfl⟩⟩
    · obtain ⟨l₁, l₂, h1, h2, h3⟩ := ih hl
      refine ⟨(k', c) :: l₁, l₂, fun x hx => ?_, h2, ?_⟩
      · rcases List.mem_cons.mp hx with rfl | hx
        · exact hgt
        · exact h1 x hx
      · rcases h3 with rfl | ⟨d, rfl⟩
        · exact Or.inl rfl
        · exact Or.inr ⟨d, rfl⟩

/-! ### Moving the keys -/

/-- Move every key along `f` and merge the bins that meet. -/
def regroup (f : K → L) : List (K × ℕ) → List (L × ℕ)
  | [] => []
  | (k, c) :: l =>
    match regroup f l with
    | [] => [(f k, c)]
    | (k', c') :: m => if f k = k' then (k', c + c') :: m else (f k, c) :: (k', c') :: m

omit [LinearOrder K] in
@[simp] theorem regroup_nil (f : K → L) : regroup f [] = [] := rfl

omit [LinearOrder K] in
theorem expand_regroup (f : K → L) : ∀ l : List (K × ℕ),
    expand (regroup f l) = (expand l).map f
  | [] => rfl
  | (k, c) :: l => by
    have ih := expand_regroup f l
    rw [regroup]
    rcases hm : regroup f l with _ | ⟨⟨k', c'⟩, m⟩
    · rw [hm] at ih
      simp [← ih]
    · rw [hm] at ih
      simp only
      split_ifs with hk
      · subst hk
        rw [expand_cons, expand_cons, List.map_append, List.map_replicate, ← ih, List.replicate_add,
          List.append_assoc, expand_cons]
      · simp [← ih]

omit [LinearOrder K] in
theorem total_regroup (f : K → L) (l : List (K × ℕ)) : total (regroup f l) = total l := by
  rw [← length_expand, expand_regroup, List.length_map, length_expand]

omit [LinearOrder K] in
theorem mem_keys_regroup (f : K → L) : ∀ (l : List (K × ℕ)) (x : L),
    x ∈ keys (regroup f l) ↔ ∃ k ∈ keys l, f k = x
  | [], x => by simp
  | (k, c) :: l, x => by
    have ih := mem_keys_regroup f l x
    have hsplit : (∃ k' ∈ keys ((k, c) :: l), f k' = x) ↔ x = f k ∨ x ∈ keys (regroup f l) := by
      rw [ih, keys_cons]
      simp only [List.mem_cons, exists_eq_or_imp]
      exact or_congr_left eq_comm
    rw [hsplit, regroup]
    rcases regroup f l with _ | ⟨⟨k', c'⟩, m⟩
    · simp
    · simp only
      split_ifs with hk
      · simp only [keys_cons, List.mem_cons, hk]; tauto
      · simp only [keys_cons, List.mem_cons]

omit [LinearOrder K] in
theorem head_regroup (f : K → L) (k : K) (c : ℕ) (l : List (K × ℕ)) :
    (regroup f ((k, c) :: l)).head?.map Prod.fst = some (f k) := by
  rw [regroup]
  rcases regroup f l with _ | ⟨⟨k', c'⟩, m⟩
  · rfl
  · simp only
    split_ifs with hk
    · simp [hk]
    · rfl

omit [LinearOrder K] in
/-- A bin that meets no other. -/
theorem regroup_single {f : K → L} {k : K} (c : ℕ) {l : List (K × ℕ)}
    (h : ∀ k' ∈ keys l, f k ≠ f k') : regroup f ((k, c) :: l) = (f k, c) :: regroup f l := by
  rw [regroup]
  rcases hm : regroup f l with _ | ⟨⟨k', c'⟩, m⟩
  · rfl
  · have hk' : k' ∈ keys (regroup f l) := by rw [hm]; simp
    obtain ⟨k₀, h₀, rfl⟩ := (mem_keys_regroup f l k').mp hk'
    simp only [if_neg (h k₀ h₀)]

omit [LinearOrder K] in
/-- Two bins that meet each other and no third. -/
theorem regroup_pair {f : K → L} {k k' : K} (c c' : ℕ) {l : List (K × ℕ)} (hk : f k = f k')
    (h : ∀ x ∈ keys l, f k' ≠ f x) :
    regroup f ((k, c) :: (k', c') :: l) = (f k, c + c') :: regroup f l := by
  rw [regroup, regroup_single c' h]
  simp only [hk, if_true]

theorem Ascending.regroup {f : K → L} {l : List (K × ℕ)} (h : Ascending l)
    (hf : ∀ a ∈ keys l, ∀ b ∈ keys l, a ≤ b → f a ≤ f b) : Ascending (regroup f l) := by
  induction l with
  | nil => exact ascending_nil
  | cons p l ih =>
    obtain ⟨k, c⟩ := p
    obtain ⟨hk, hl⟩ := ascending_cons.mp h
    have ih' := ih hl fun a ha b hb => hf a (List.mem_cons_of_mem _ ha) b (List.mem_cons_of_mem _ hb)
    have hle : ∀ x ∈ keys (Bins.regroup f l), f k ≤ x := fun x hx => by
      obtain ⟨k', hk', rfl⟩ := (mem_keys_regroup f l x).mp hx
      exact hf k List.mem_cons_self k' (List.mem_cons_of_mem _ hk') (hk k' hk').le
    rw [Bins.regroup]
    rcases hm : Bins.regroup f l with _ | ⟨⟨k', c'⟩, m⟩
    · simp [Ascending]
    · rw [hm] at ih' hle
      obtain ⟨hk', hm'⟩ := ascending_cons.mp ih'
      simp only
      split_ifs with hkk
      · exact ascending_cons.mpr ⟨hk', hm'⟩
      · have hlt : f k < k' := lt_of_le_of_ne (hle k' (by simp)) hkk
        refine ascending_cons.mpr ⟨fun x hx => ?_, ih'⟩
        rcases List.mem_cons.mp hx with rfl | hx
        · exact hlt
        · exact hlt.trans (hk' x hx)

omit [LinearOrder K] in
theorem regroup_pos {f : K → L} : ∀ {l : List (K × ℕ)}, (∀ p ∈ l, 0 < p.2) →
    ∀ p ∈ regroup f l, 0 < p.2
  | [], _, p, hp => by cases hp
  | (k, c) :: l, h, p, hp => by
    have hc : 0 < c := h _ List.mem_cons_self
    have ih := regroup_pos (f := f) fun q hq => h q (List.mem_cons_of_mem _ hq)
    rw [regroup] at hp
    rcases hm : regroup f l with _ | ⟨⟨k', c'⟩, m⟩
    · rw [hm] at hp
      rw [List.mem_singleton.mp hp]; exact hc
    · rw [hm] at hp ih
      simp only at hp
      split_ifs at hp
      · rcases List.mem_cons.mp hp with rfl | hp
        · exact Nat.add_pos_left hc _
        · exact ih p (List.mem_cons_of_mem _ hp)
      · rcases List.mem_cons.mp hp with rfl | hp
        · exact hc
        · exact ih p hp

/-! ### The bin at a rank -/

/-- Walk the counts down from `r`: the key of the bin where they run out. -/
def pick : List (K × ℕ) → ℕ → Option K
  | [], _ => none
  | (k, c) :: l, r => if r ≤ c then some k else pick l (r - c)

omit [LinearOrder K] in
/-- The walk from rank `r` ends at the `r`-th copy. -/
theorem pick_eq : ∀ (l : List (K × ℕ)) (r : ℕ), 0 < r → pick l r = (expand l)[r - 1]?
  | [], r, _ => by simp [pick]
  | (k, c) :: l, r, hr => by
    rw [pick, expand_cons]
    split_ifs with hc
    · rw [List.getElem?_append_left (by simp; omega), List.getElem?_replicate, if_pos (by omega)]
    · rw [pick_eq l (r - c) (by omega), List.getElem?_append_right (by simp; omega)]
      simp only [List.length_replicate]
      congr 1; omega

omit [LinearOrder K] in
/-- With no empty bin, the last bin has the last copy. -/
theorem getLast?_expand : ∀ {l : List (K × ℕ)}, (∀ p ∈ l, 0 < p.2) →
    (expand l).getLast? = l.getLast?.map Prod.fst
  | [], _ => rfl
  | [(k, c)], h => by
    have hc : c ≠ 0 := (h _ List.mem_cons_self).ne'
    simp [List.getLast?_replicate, hc]
  | (k, c) :: p :: l, h => by
    have ih := getLast?_expand fun q hq => h q (List.mem_cons_of_mem _ hq)
    have hne : ((p :: l).getLast?.map Prod.fst).isSome := by simp
    rw [expand_cons, List.getLast?_append, ih, List.getLast?_cons_cons, Option.or_of_isSome hne]

end Order

end Bins
