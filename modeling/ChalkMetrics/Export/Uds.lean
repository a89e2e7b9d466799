/-
# The socket of a StatsD exporter on a path

`UdsSocket`: `build` and `send_buffer` on a Unix domain socket. Every call
looks at the path, for the inode number and, where it reconnects, with a
connect; between the two looks and between calls the path may change in any
way, so a run is a list of what the looks find (`Looks`).

A call connects when the number is another than the one before it
(`Attempts`), and at no other time. So a datagram gets to the listener at the
path just when the number is new, or the last attempt was answered by that
listener (`sendBuffer_iff`): an attempt that failed is not made again under
the same number, and a new listener under an old number is not noticed
(`stuck`).

Key definitions: `UdsSocket`, `Attempts`, `LastAttempt`.
-/
import ChalkMetrics.Export.Statsd
import Mathlib.Data.List.Induction

namespace ChalkMetrics

section

variable {L : Type}

/-- The state of the path: what is there, and whether a connect succeeds. -/
structure Path (L : Type) where
  node : Option (UInt64 × L)
  connects : Bool

/-- What a call finds: the number `get_inode` returns and the listener
`connect_uds` gets connected to. -/
structure Looks (L : Type) where
  inode : Option UInt64
  connect : Option L

/-- The path stays as it is during the call. -/
def Path.looks (p : Path L) : Looks L where
  inode := p.node.map Prod.fst
  connect := if p.connects then p.node.map Prod.snd else none

/-- `get_inode(path).unwrap_or(0)`. -/
def Looks.number (k : Looks L) : UInt64 := k.inode.getD 0

/-- `socket` is the listener the held socket is connected to. -/
structure UdsSocket (L : Type) where
  socket : Option L
  lastInode : UInt64

namespace UdsSocket

def build (k : Looks L) : UdsSocket L where
  socket := k.connect
  lastInode := k.number

/-- Where the datagram goes, if there is a socket, and the socket after. -/
def sendBuffer (s : UdsSocket L) (k : Looks L) (data : Text) : Option (L × Text) × UdsSocket L :=
  let currentInode := k.number
  let s := if currentInode ≠ s.lastInode ∧ currentInode ≠ 0 then ⟨k.connect, currentInode⟩ else s
  (s.socket.map fun l => (l, data), s)

/-- The socket after `build` and the sends. -/
def after (first : Looks L) (sends : List (Looks L × Text)) : UdsSocket L :=
  sends.foldl (fun s c => (s.sendBuffer c.1 c.2).2) (build first)

end UdsSocket

/-! ### Attempts -/

/-- The number seen last, 0 before any. -/
def lastNumber : List (Looks L) → UInt64 :=
  List.foldl (fun n k => if k.number = 0 then n else k.number) 0

/-- Behind the looks `before`, a send that finds `k` tries to connect. -/
def Attempts (before : List (Looks L)) (k : Looks L) : Prop :=
  k.number ≠ 0 ∧ k.number ≠ lastNumber before

/-- `k` was the last attempt among the looks: that of `build`, or of a send. -/
def LastAttempt (looks : List (Looks L)) (k : Looks L) : Prop :=
  ∃ before later, looks = before ++ k :: later ∧ (before = [] ∨ Attempts before k) ∧
    ∀ a j b, later = a ++ j :: b → ¬ Attempts (before ++ k :: a) j

theorem lastNumber_concat (looks : List (Looks L)) (k : Looks L) :
    lastNumber (looks ++ [k]) = if k.number = 0 then lastNumber looks else k.number := by
  unfold lastNumber
  rw [List.foldl_append]
  rfl

/-- An attempt is the last one. -/
theorem lastAttempt_of_attempts {looks : List (Looks L)} {k k' : Looks L} (h : Attempts looks k) :
    LastAttempt (looks ++ [k]) k' ↔ k' = k := by
  constructor
  · rintro ⟨before, later, heq, -, hlater⟩
    rcases List.eq_nil_or_concat later with rfl | ⟨later, j, rfl⟩
    · exact (List.append_inj_right' heq rfl |> List.cons.inj |>.1).symm
    · -- a later look would be the attempt
      exfalso
      rw [List.concat_eq_append] at heq hlater
      have heq' : looks ++ [k] = (before ++ k' :: later) ++ [j] := by
        rw [heq]
        simp
      obtain ⟨rfl, hk⟩ := List.append_inj' heq' rfl
      obtain rfl := List.singleton_inj.mp hk
      exact hlater later k [] rfl h
  · rintro rfl
    refine ⟨looks, [], rfl, .inr h, fun a j b hnil => ?_⟩
    exact absurd hnil.symm (List.append_ne_nil_of_right_ne_nil a (List.cons_ne_nil j b))

/-- A look without an attempt changes nothing. -/
theorem lastAttempt_of_not {looks : List (Looks L)} {k k' : Looks L} (hne : looks ≠ [])
    (h : ¬ Attempts looks k) : LastAttempt (looks ++ [k]) k' ↔ LastAttempt looks k' := by
  constructor
  · rintro ⟨before, later, heq, hbefore, hlater⟩
    rcases List.eq_nil_or_concat later with rfl | ⟨later, j, rfl⟩
    · obtain ⟨rfl, hk⟩ := List.append_inj' heq rfl
      obtain rfl := List.singleton_inj.mp hk
      exact absurd (hbefore.resolve_left hne) h
    · rw [List.concat_eq_append] at heq hlater
      have heq' : looks ++ [k] = (before ++ k' :: later) ++ [j] := by
        rw [heq]
        simp
      obtain ⟨rfl, -⟩ := List.append_inj' heq' rfl
      refine ⟨before, later, rfl, hbefore, fun a i b hab => hlater a i (b ++ [j]) ?_⟩
      rw [hab]
      simp
  · rintro ⟨before, later, rfl, hbefore, hlater⟩
    refine ⟨before, later ++ [k], by simp, hbefore, fun a j b hab => ?_⟩
    rcases List.eq_nil_or_concat b with rfl | ⟨b, i, rfl⟩
    · obtain ⟨rfl, hk⟩ := List.append_inj' hab rfl
      obtain rfl := List.singleton_inj.mp hk
      exact h
    · rw [List.concat_eq_append] at hab
      have hab' : later ++ [k] = (a ++ j :: b) ++ [i] := by
        rw [hab]
        simp
      exact hlater a j b (List.append_inj' hab' rfl).1

/-! ### What is held -/

/-- The socket behind the looks: it has the number seen last, and the listener
of the last attempt. -/
structure Held (looks : List (Looks L)) (s : UdsSocket L) : Prop where
  lastInode : s.lastInode = lastNumber looks
  socket : ∀ k, LastAttempt looks k → s.socket = k.connect
  attempted : ∃ k, LastAttempt looks k

theorem held_build (k : Looks L) : Held [k] (UdsSocket.build k) where
  lastInode := by
    have h := lastNumber_concat [] k
    rw [List.nil_append] at h
    rw [h]
    split_ifs with hzero
    · exact hzero
    · rfl
  socket k' h := by
    obtain ⟨before, later, heq, -, -⟩ := h
    rcases before with _ | ⟨j, before⟩
    · rw [← (List.cons.inj heq).1]
      rfl
    · have hnil := (List.cons.inj heq).2
      exact absurd hnil.symm (List.append_ne_nil_of_right_ne_nil before (List.cons_ne_nil k' later))
  attempted := ⟨k, [], [], rfl, .inl rfl, fun a j b h =>
    absurd h.symm (List.append_ne_nil_of_right_ne_nil a (List.cons_ne_nil j b))⟩

theorem held_sendBuffer {looks : List (Looks L)} {s : UdsSocket L} (hne : looks ≠ [])
    (h : Held looks s) (k : Looks L) (data : Text) :
    Held (looks ++ [k]) (s.sendBuffer k data).2 := by
  unfold UdsSocket.sendBuffer
  by_cases hk : Attempts looks k
  · have hcond : k.number ≠ s.lastInode ∧ k.number ≠ 0 := ⟨h.lastInode ▸ hk.2, hk.1⟩
    simp only [if_pos hcond]
    refine ⟨?_, fun k' hk' => ?_, ⟨k, (lastAttempt_of_attempts hk).mpr rfl⟩⟩
    · rw [lastNumber_concat, if_neg hk.1]
    · rw [(lastAttempt_of_attempts hk).mp hk']
  · have hcond : ¬ (k.number ≠ s.lastInode ∧ k.number ≠ 0) := fun hc =>
      hk ⟨hc.2, h.lastInode ▸ hc.1⟩
    simp only [if_neg hcond]
    refine ⟨?_, fun k' hk' => ?_, ?_⟩
    · rw [h.lastInode, lastNumber_concat]
      split_ifs with hzero
      · rfl
      · by_contra hnumber
        exact hk ⟨hzero, fun heq => hnumber heq.symm⟩
    · exact h.socket k' ((lastAttempt_of_not hne hk).mp hk')
    · obtain ⟨k', hk'⟩ := h.attempted
      exact ⟨k', (lastAttempt_of_not hne hk).mpr hk'⟩

theorem held_after (first : Looks L) (sends : List (Looks L × Text)) :
    Held (first :: sends.map Prod.fst) (UdsSocket.after first sends) := by
  induction sends using List.reverseRecOn with
  | nil => exact held_build first
  | append_singleton sends c ih =>
    have h := held_sendBuffer (List.cons_ne_nil _ _) ih c.1 c.2
    rw [UdsSocket.after, List.foldl_append, List.map_append]
    exact h

/-- **A datagram gets to the listener at the path** just when the number there
is not the one seen last, or the last attempt was answered by that listener. -/
theorem sendBuffer_iff (first : Looks L) (sends : List (Looks L × Text)) (inode : UInt64) (l : L)
    (data : Text) :
    ((UdsSocket.after first sends).sendBuffer (Path.looks ⟨some (inode, l), true⟩) data).1 =
        some (l, data) ↔
      Attempts (first :: sends.map Prod.fst) (Path.looks ⟨some (inode, l), true⟩) ∨
        ∃ k, LastAttempt (first :: sends.map Prod.fst) k ∧ k.connect = some l := by
  have h := held_sendBuffer (List.cons_ne_nil _ _) (held_after first sends)
    (Path.looks ⟨some (inode, l), true⟩) data
  have hsent : ∀ s : UdsSocket L, (s.sendBuffer (Path.looks ⟨some (inode, l), true⟩) data).1 =
      some (l, data) ↔ (s.sendBuffer (Path.looks ⟨some (inode, l), true⟩) data).2.socket = some l := by
    intro s
    simp [UdsSocket.sendBuffer]
  rw [hsent]
  by_cases hk : Attempts (first :: sends.map Prod.fst) (Path.looks ⟨some (inode, l), true⟩)
  · refine iff_of_true ?_ (.inl hk)
    rw [h.socket _ ((lastAttempt_of_attempts hk).mpr rfl)]
    rfl
  · obtain ⟨k, hlast⟩ := (held_after first sends).attempted
    have hlater := (lastAttempt_of_not (List.cons_ne_nil _ _) hk).mpr hlast
    rw [h.socket k hlater, or_iff_right hk]
    constructor
    · exact fun hconnect => ⟨k, hlast, hconnect⟩
    · rintro ⟨k', hlast', hconnect⟩
      rw [← (held_after first sends).socket k hlast, (held_after first sends).socket k' hlast']
      exact hconnect

end

/-- **Two ways to get stuck**: a listener that answers by now, under the number
it had when it did not, and a new listener under the number of an old one. -/
theorem stuck :
    ((UdsSocket.build (Path.looks ⟨some (5, 1), false⟩)).sendBuffer
        (Path.looks ⟨some (5, (1 : ℕ)), true⟩) ['m']).1 ≠ some (1, ['m']) ∧
      ((UdsSocket.build (Path.looks ⟨some (5, 1), true⟩)).sendBuffer
        (Path.looks ⟨some (5, (2 : ℕ)), true⟩) ['m']).1 ≠ some (2, ['m']) := by
  decide

end ChalkMetrics
