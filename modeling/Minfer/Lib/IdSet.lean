/-
Sets of ids that give out their smallest element: a strictly ascending list
and the proof that it is one.
-/
import Mathlib.Order.Basic
import Mathlib.Data.List.Pairwise

namespace Minfer.Lib

/-- The sorted insertion. -/
def insertId (x : Nat) : List Nat → List Nat
  | [] => [x]
  | y :: ys => if x < y then x :: y :: ys else if x = y then y :: ys
      else y :: insertId x ys

theorem mem_insertId {x z : Nat} {l : List Nat} : z ∈ insertId x l
    ↔ z = x ∨ z ∈ l := by
  induction l with
  | nil => rw [insertId, List.mem_singleton, or_iff_left List.not_mem_nil]
  | cons y ys ih =>
      rw [insertId]
      split
      · exact List.mem_cons
      split
      next heq =>
        subst heq
        exact ⟨.inr, fun h => h.elim (fun h => h ▸ List.mem_cons_self) id⟩
      next =>
        rw [List.mem_cons, ih, List.mem_cons]
        exact or_left_comm

theorem pairwise_insertId {x : Nat} {l : List Nat} (h : l.Pairwise (· < ·)) :
    (insertId x l).Pairwise (· < ·) := by
  induction l with
  | nil => exact List.pairwise_singleton ..
  | cons y ys ih =>
      obtain ⟨hy, hys⟩ := List.pairwise_cons.1 h
      rw [insertId]
      split
      next hlt =>
        refine List.pairwise_cons.2 ⟨fun z hz => ?_, h⟩
        rcases List.mem_cons.1 hz with rfl | hz
        · exact hlt
        · exact Nat.lt_trans hlt (hy z hz)
      next hge =>
        split
        · exact h
        next hne =>
          refine List.pairwise_cons.2 ⟨fun z hz => ?_, ih hys⟩
          rcases mem_insertId.1 hz with rfl | hz
          · omega
          · exact hy z hz

/-- A `BTreeSet` of ids. -/
structure IdSet where
  ids : List Nat
  sorted : ids.Pairwise (· < ·)
deriving DecidableEq

namespace IdSet

instance : EmptyCollection IdSet := ⟨⟨[], List.Pairwise.nil⟩⟩

instance : Membership Nat IdSet := ⟨fun s x => x ∈ s.ids⟩

def insert (s : IdSet) (x : Nat) : IdSet :=
  ⟨insertId x s.ids, pairwise_insertId s.sorted⟩

/-- `pop_first`: the smallest id, and the others. -/
def popFirst : IdSet → Option (Nat × IdSet)
  | ⟨[], _⟩ => none
  | ⟨x :: rest, h⟩ => some (x, ⟨rest, (List.pairwise_cons.1 h).2⟩)

@[simp] theorem not_mem_empty (x : Nat) : x ∉ (∅ : IdSet) := List.not_mem_nil

@[simp] theorem mem_insert {s : IdSet} {x z : Nat} : z ∈ s.insert x
    ↔ z = x ∨ z ∈ s := mem_insertId

/-- What is popped was in the set, and no longer is. -/
theorem popFirst_spec {s s' : IdSet} {x : Nat} (h : s.popFirst = some (x, s')) :
    x ∈ s ∧ ∀ z, z ∈ s' ↔ z ∈ s ∧ z ≠ x := by
  obtain ⟨ids, hsorted⟩ := s
  cases ids with
  | nil => cases h
  | cons y rest =>
      cases h
      have hlt := (List.pairwise_cons.1 hsorted).1
      refine ⟨List.mem_cons_self, fun z =>
        ⟨fun hz => ⟨List.mem_cons_of_mem _ hz, ?_⟩, fun ⟨hz, hne⟩ => ?_⟩⟩
      · have := hlt z hz
        omega
      · exact (List.mem_cons.1 hz).resolve_left hne

end IdSet
end Minfer.Lib
