/-
The Z function of a list: at each shift, how far the list agrees with itself.

A box is a shift with a length over which the list is known to agree. Inside a
box, the Z function at a shift is read off at the shift less the box's own,
and that is all the Z algorithm rests on.
-/
import Mathlib.Data.List.Basic
import Mathlib.Order.Bounds.Basic

namespace Minfer.Lib

variable {α : Type}

/-- The length of the longest common prefix. -/
def commonPrefix [DecidableEq α] : List α → List α → Nat
  | x :: xs, y :: ys => if x = y then commonPrefix xs ys + 1 else 0
  | _, _ => 0

/-- How far a list agrees with itself shifted by `k`. -/
def zLength [DecidableEq α] (w : List α) (k : Nat) : Nat := commonPrefix w (w.drop k)

/-- The first `n` places of a list agree with those `k` further on. -/
def Agrees (w : List α) (k n : Nat) : Prop :=
  ∀ j < n, j + k < w.length ∧ w[j]? = w[j + k]?

theorem agrees_zero (w : List α) (k : Nat) : Agrees w k 0 := by
  intro j hj
  omega

variable {k n : Nat} {w : List α}

theorem Agrees.succ (h : Agrees w k n) (hn : n + k < w.length)
    (heq : w[n]? = w[n + k]?) : Agrees w k (n + 1) := by
  intro j hj
  by_cases hlast : j = n
  · subst hlast
    exact ⟨hn, heq⟩
  · apply h
    omega

theorem Agrees.le (h : Agrees w k n) (hn : 0 < n) :
    n + k ≤ w.length := by
  have := (h (n - 1) (by omega)).1
  omega

/-- Inside a box the list agrees at a shift as far as it does at the shift less
the box's. -/
theorem agrees_box {lt m : Nat} (hbox : Agrees w lt m) (hk : lt ≤ k)
    (hn : n + (k - lt) ≤ m) : Agrees w k n ↔ Agrees w (k - lt) n := by
  apply forall₂_congr
  intro j hj
  obtain ⟨hlen, heq⟩ := hbox (j + (k - lt)) (by omega)
  have hplace : j + (k - lt) + lt = j + k := by omega
  rw [hplace] at hlen heq
  rw [heq, and_congr_left_iff]
  omega

-- ========================== z function

variable [DecidableEq α]

/-- The common prefix reaches `n` exactly when the lists agree so far. -/
theorem le_commonPrefix_iff (xs ys : List α) (n : Nat) :
    n ≤ commonPrefix xs ys ↔ ∀ j < n, j < ys.length ∧ xs[j]? = ys[j]? := by
  induction xs generalizing ys n with
  | nil =>
    constructor
    · intro h j hj
      simp only [commonPrefix] at h
      omega
    · intro h
      by_contra hn
      obtain ⟨hlt, heq⟩ := h 0 (by omega)
      simp [hlt] at heq
  | cons x xs ih =>
    cases ys with
    | nil =>
      constructor
      · intro h j hj
        simp only [commonPrefix] at h
        omega
      · intro h
        by_contra hn
        simpa using (h 0 (by omega)).1
    | cons y ys =>
      cases n with
      | zero => simp
      | succ n =>
        by_cases hxy : x = y
        · have hrest := ih ys n
          rw [commonPrefix, if_pos hxy, Nat.add_le_add_iff_right, hrest]
          constructor
          · intro h j hj
            cases j with
            | zero => simp [hxy]
            | succ j => simpa using h j (by omega)
          · intro h j hj
            simpa using h (j + 1) (by omega)
        · rw [commonPrefix, if_neg hxy]
          constructor
          · intro h
            omega
          · intro h
            have := (h 0 (by omega)).2
            simp [hxy] at this

theorem le_zLength_iff (w : List α) (k n : Nat) : n ≤ zLength w k ↔ Agrees w k n := by
  rw [zLength, le_commonPrefix_iff]
  apply forall₂_congr
  intro j hj
  rw [List.length_drop, List.getElem?_drop, Nat.add_comm k j]
  apply and_congr_left'
  omega

theorem zLength_agrees (w : List α) (k : Nat) : Agrees w k (zLength w k) :=
  (le_zLength_iff w k _).mp le_rfl

/-- Where the agreement breaks off, the Z function is known. -/
theorem zLength_eq (h : Agrees w k n)
    (hstop : n + k < w.length → w[n]? ≠ w[n + k]?) : zLength w k = n := by
  apply Nat.le_antisymm
  · by_contra hlt
    have hnext := (le_zLength_iff w k (n + 1)).mp (by omega) n (by omega)
    exact hstop hnext.1 hnext.2
  · exact (le_zLength_iff w k n).mpr h

theorem zLength_le (w : List α) (k : Nat) : zLength w k ≤ w.length - k := by
  by_cases hz : zLength w k = 0
  · omega
  · have := (zLength_agrees w k).le (by omega)
    omega

/-- Up to the end of a box, the Z function at a shift is that at the shift less
the box's. -/
theorem le_zLength_box {lt m : Nat} (hbox : Agrees w lt m) (hk : lt ≤ k)
    (hn : n + (k - lt) ≤ m) : n ≤ zLength w k ↔ n ≤ zLength w (k - lt) := by
  rw [le_zLength_iff, le_zLength_iff, agrees_box hbox hk hn]

/-- A value that falls short of the end of the box is copied. -/
theorem zLength_copy {lt m : Nat} (hbox : Agrees w lt m) (hk : lt ≤ k)
    (hin : zLength w (k - lt) + (k - lt) < m) : zLength w k = zLength w (k - lt) := by
  apply Nat.le_antisymm
  · by_contra hlt
    have hlonger : zLength w (k - lt) + 1 ≤ zLength w (k - lt) :=
      (le_zLength_box hbox hk (by omega)).mp (by omega)
    omega
  · exact (le_zLength_box hbox hk (by omega)).mpr le_rfl

end Minfer.Lib
