/-
Machine arithmetic with every check in the open: an operation is none where
it would stop or wrap.

A loop whose every access succeeds is the loop without the checks; there is
one such rule for each shape of loop.
-/
import Mathlib.Data.List.Basic

namespace Minfer.Lib

variable {α β σ : Type}

/-- Subtraction of `usize`. -/
def usizeSub (a b : Nat) : Option Nat := if b ≤ a then some (a - b) else none

/-- `as i32`, and the result of `i32` arithmetic. -/
def asI32 (x : Int) : Option Int :=
  if -2147483648 ≤ x ∧ x ≤ 2147483647 then some x else none

/-- `as usize`. -/
def asUsize (x : Int) : Option Nat := if 0 ≤ x then some x.toNat else none

/-- A write to a slot of an array. -/
def writeAt (table : List α) (slot : Nat) (v : α) : Option (List α) :=
  if slot < table.length then some (table.set slot v) else none

theorem usizeSub_of_le {a b : Nat} (h : b ≤ a) : usizeSub a b = some (a - b) :=
  if_pos h

theorem asI32_of_mem {x : Int} (h : -2147483648 ≤ x ∧ x ≤ 2147483647) :
    asI32 x = some x := if_pos h

theorem asUsize_of_nonneg {x : Int} (h : 0 ≤ x) : asUsize x = some x.toNat := if_pos h

theorem writeAt_of_lt {table : List α} {slot : Nat} {v : α}
    (h : slot < table.length) :
    writeAt table slot v = some (table.set slot v) := if_pos h

-- =============================== loops

theorem findSomeM?_of_forall {f : α → Option (Option β)} {g : α → Option β}
    {l : List α} (h : ∀ a ∈ l, f a = some (g a)) :
    l.findSomeM? f = some (l.findSome? g) := by
  induction l with
  | nil => rfl
  | cons a l ih =>
      rw [List.forall_mem_cons] at h
      rw [List.findSomeM?, h.1, List.findSome?_cons]
      cases g a with
      | none => exact ih h.2
      | some b => rfl

theorem allM_of_forall {f : α → Option Bool} {g : α → Bool} {l : List α}
    (h : ∀ a ∈ l, f a = some (g a)) : l.allM f = some (l.all g) := by
  induction l with
  | nil => rfl
  | cons a l ih =>
      rw [List.forall_mem_cons] at h
      rw [List.allM, h.1, List.all_cons]
      cases g a with
      | false => rfl
      | true => exact ih h.2

theorem mapM_of_forall {f : α → Option β} {g : α → β} {l : List α}
    (h : ∀ a ∈ l, f a = some (g a)) : l.mapM f = some (l.map g) := by
  induction l with
  | nil => rfl
  | cons a l ih =>
      rw [List.forall_mem_cons] at h
      rw [List.mapM_cons, h.1, ih h.2]
      rfl

end Minfer.Lib
