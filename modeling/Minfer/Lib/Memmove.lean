/-
Overlap-safe block moves on a list of rows, and when a sequence of them
acts as one simultaneous move.

A relocation plan names source and destination ranges that may overlap
each other. Executed one after another, a move can land on rows a later
move still has to read; `Clear` is the order condition that rules this
out, and `runMoves_spec` is what it buys: every destination holds what
its source held before the first move, and every row outside the
destinations is untouched.
-/
import Mathlib.Data.List.Basic

namespace Minfer.Lib

variable {α : Type*}

-- =========================== intervals

/-- `c` lies in the range of `len` cells that starts at `start`. -/
def InRun (start len c : Nat) : Prop := start ≤ c ∧ c < start + len

instance (start len c : Nat) : Decidable (InRun start len c) :=
  inferInstanceAs (Decidable (_ ∧ _))

/-- Two ranges have no cell in common. -/
def Apart (s m t n : Nat) : Prop := ∀ c, InRun s m c → ¬ InRun t n c

theorem Apart.symm {s m t n : Nat} (h : Apart s m t n) : Apart t n s m :=
  fun c hc hc' => h c hc' hc

/-- Ranges in order are apart. -/
theorem apart_of_le {s m t n : Nat} (h : s + m ≤ t) : Apart s m t n := by
  intro c hc hc'
  unfold InRun at hc hc'
  omega

/-- Nonempty ranges that are apart are in order one way or the other. -/
theorem Apart.le_or_le {s m t n : Nat} (h : Apart s m t n)
    (hm : 0 < m) (hn : 0 < n) : s + m ≤ t ∨ t + n ≤ s := by
  by_contra hcon
  have hmax : InRun s m (max s t) := by unfold InRun; omega
  have hmax' : InRun t n (max s t) := by unfold InRun; omega
  exact h _ hmax hmax'

-- ============================ one move

/-- Move `rows` rows from `src` to `dst`, reading every source row before
any of them is overwritten (`copy_within`). -/
def memmove (m : List α) (dst src rows : Nat) : List α :=
  m.mapIdx fun c x =>
    if InRun dst rows c then (m[src + (c - dst)]?).getD x else x

@[simp] theorem length_memmove (m : List α) (dst src rows : Nat) :
    (memmove m dst src rows).length = m.length := by
  simp [memmove]

/-- A moved row reads as its source, when the source is in the buffer. -/
theorem getElem?_memmove_dst {m : List α} {dst src rows i : Nat}
    (hi : i < rows) (hsrc : src + rows ≤ m.length)
    (hdst : dst + rows ≤ m.length) :
    (memmove m dst src rows)[dst + i]? = m[src + i]? := by
  have hin : InRun dst rows (dst + i) := by unfold InRun; omega
  have hd : dst + i < m.length := by omega
  have hs : src + i < m.length := by omega
  simp [memmove, List.getElem?_mapIdx, hin, List.getElem?_eq_getElem hd,
    List.getElem?_eq_getElem hs]

/-- Rows outside the destination are kept. -/
theorem getElem?_memmove_out {m : List α} {dst src rows c : Nat}
    (hc : ¬ InRun dst rows c) :
    (memmove m dst src rows)[c]? = m[c]? := by
  simp [memmove, List.getElem?_mapIdx, hc]

/-- Moving no rows changes nothing. -/
theorem memmove_zero (m : List α) (dst src : Nat) : memmove m dst src 0 = m := by
  refine List.ext_getElem? fun c => getElem?_memmove_out ?_
  unfold InRun
  omega

-- ========================== a sequence

/-- One block move of a plan. -/
structure Move where
  src : Nat
  dst : Nat
  rows : Nat
deriving Repr, DecidableEq

/-- The buffer after the moves, executed in list order. -/
def runMoves (m : List α) (ms : List Move) : List α :=
  ms.foldl (fun m v => memmove m v.dst v.src v.rows) m

@[simp] theorem runMoves_nil (m : List α) : runMoves m [] = m := rfl

@[simp] theorem runMoves_cons (m : List α) (v : Move) (ms : List Move) :
    runMoves m (v :: ms) = runMoves (memmove m v.dst v.src v.rows) ms :=
  rfl

@[simp] theorem length_runMoves (m : List α) (ms : List Move) :
    (runMoves m ms).length = m.length := by
  induction ms generalizing m with
  | nil => rfl
  | cons v ms ih => rw [runMoves_cons, ih, length_memmove]

/-- A later move neither reads nor writes what an earlier one wrote. -/
def Clear (a b : Move) : Prop :=
  Apart a.dst a.rows b.src b.rows ∧ Apart a.dst a.rows b.dst b.rows

/-- The move stays inside a buffer of `n` rows. -/
def Move.Fits (n : Nat) (v : Move) : Prop :=
  v.src + v.rows ≤ n ∧ v.dst + v.rows ≤ n

/-- Rows outside every destination survive a whole plan. -/
theorem getElem?_runMoves_out {m : List α} {ms : List Move} {c : Nat}
    (hc : ∀ v ∈ ms, ¬ InRun v.dst v.rows c) :
    (runMoves m ms)[c]? = m[c]? := by
  induction ms generalizing m with
  | nil => rfl
  | cons v ms ih =>
      rw [runMoves_cons, ih fun w hw => hc w (List.mem_cons_of_mem _ hw)]
      exact getElem?_memmove_out (hc v (List.mem_cons_self ..))

/-- In a clear order, every destination ends up with what its source held
before the plan started. -/
theorem getElem?_runMoves_dst {m : List α} {ms : List Move}
    (hclear : ms.Pairwise Clear) (hfit : ∀ v ∈ ms, 0 < v.rows → v.Fits m.length)
    {v : Move} (hv : v ∈ ms) {i : Nat} (hi : i < v.rows) :
    (runMoves m ms)[v.dst + i]? = m[v.src + i]? := by
  induction ms generalizing m with
  | nil => cases hv
  | cons w ms ih =>
      obtain ⟨hw, hms⟩ := List.pairwise_cons.mp hclear
      rw [runMoves_cons]
      rcases List.mem_cons.mp hv with rfl | hv'
      · -- the first move: nothing later writes its destination
        have hvfit := hfit v hv (by omega)
        rw [getElem?_runMoves_out, getElem?_memmove_dst hi hvfit.1 hvfit.2]
        intro u hu hin
        exact (hw u hu).2 _ ⟨by omega, by omega⟩ hin
      · -- a later move: its source was not written by the first
        have hfit' : ∀ u ∈ ms, 0 < u.rows →
            u.Fits (memmove m w.dst w.src w.rows).length := by
          intro u hu
          rw [length_memmove]
          exact hfit u (List.mem_cons_of_mem _ hu)
        rw [ih hms hfit' hv']
        refine getElem?_memmove_out fun hin => ?_
        exact (hw v hv').1 _ hin ⟨by omega, by omega⟩

end Minfer.Lib
