/-
A map kept in key order, as a list of its entries.

Writing a list of entries into the empty map keeps them all exactly when no
key stands in the list twice.
-/
import Mathlib.Data.List.Nodup
import Mathlib.Data.List.Perm.Subperm
import Mathlib.Order.Lattice

namespace Minfer.Lib

/-- The entries of a map, by ascending key. -/
structure SortedMap (κ β : Type) [LinearOrder κ] where
  entries : List (κ × β)
  sorted : entries.Pairwise fun a b => a.1 < b.1

namespace SortedMap

variable {κ β : Type} [LinearOrder κ]

/-- A written entry goes in front of the first key above it, and replaces its own. -/
def insertEntry (k : κ) (v : β) : List (κ × β) → List (κ × β)
  | [] => [(k, v)]
  | e :: rest =>
      if k < e.1 then (k, v) :: e :: rest
      else if k = e.1 then (k, v) :: rest
      else e :: insertEntry k v rest

variable {l : List (κ × β)}
variable {k : κ} {v : β} {m : SortedMap κ β}

theorem mem_insertEntry_keys {x : κ} :
    x ∈ (insertEntry k v l).map Prod.fst ↔ x = k ∨ x ∈ l.map Prod.fst := by
  induction l with
  | nil => simp [insertEntry]
  | cons e rest ih =>
      rw [insertEntry]
      by_cases hlt : k < e.1
      · simp [hlt]
      · by_cases heq : k = e.1
        · rw [if_neg hlt, if_pos heq]
          simp [heq]
        · simp only [hlt, heq, if_false, List.map_cons, List.mem_cons, ih]
          exact or_left_comm

theorem mem_of_mem_insertEntry {e : κ × β} (h : e ∈ insertEntry k v l) :
    e = (k, v) ∨ e ∈ l := by
  induction l with
  | nil => exact .inl (List.mem_singleton.1 h)
  | cons x rest ih =>
      rw [insertEntry] at h
      split at h
      · exact List.mem_cons.1 h
      · split at h
        · rcases List.mem_cons.1 h with h | h
          · exact .inl h
          · exact .inr (List.mem_cons_of_mem _ h)
        · rcases List.mem_cons.1 h with rfl | h
          · exact .inr List.mem_cons_self
          · exact (ih h).imp_right (List.mem_cons_of_mem _)

theorem insertEntry_sorted (h : l.Pairwise fun a b => a.1 < b.1) :
    (insertEntry k v l).Pairwise fun a b => a.1 < b.1 := by
  induction l with
  | nil => exact List.pairwise_singleton _ _
  | cons e rest ih =>
      obtain ⟨hhead, htail⟩ := List.pairwise_cons.1 h
      rw [insertEntry]
      by_cases hlt : k < e.1
      · rw [if_pos hlt]
        apply List.pairwise_cons.2 ⟨?_, h⟩
        intro a ha
        rcases List.mem_cons.1 ha with rfl | ha
        · exact hlt
        · exact lt_trans hlt (hhead a ha)
      · rw [if_neg hlt]
        by_cases heq : k = e.1
        · rw [if_pos heq]
          apply List.pairwise_cons.2 ⟨?_, htail⟩
          intro a ha
          exact heq ▸ hhead a ha
        · rw [if_neg heq]
          apply List.pairwise_cons.2 ⟨?_, ih htail⟩
          intro a ha
          rcases mem_insertEntry_keys.1 (List.mem_map_of_mem ha) with hkey | hkey
          · rw [hkey]
            exact lt_of_le_of_ne (not_lt.1 hlt) (Ne.symm heq)
          · obtain ⟨b, hb, hab⟩ := List.mem_map.1 hkey
            exact hab ▸ hhead b hb

theorem insertEntry_perm (h : k ∉ l.map Prod.fst) :
    (insertEntry k v l).Perm ((k, v) :: l) := by
  induction l with
  | nil => exact .refl _
  | cons e rest ih =>
      rw [List.map_cons, List.mem_cons, not_or] at h
      rw [insertEntry]
      by_cases hlt : k < e.1
      · rw [if_pos hlt]
      · rw [if_neg hlt, if_neg h.1]
        exact ((ih h.2).cons e).trans (.swap ..)

/-- The map without entries. -/
def empty : SortedMap κ β := ⟨[], .nil⟩

def insert (m : SortedMap κ β) (k : κ) (v : β) : SortedMap κ β :=
  ⟨insertEntry k v m.entries, insertEntry_sorted m.sorted⟩

/-- Entries written one after another. -/
def insertAll (m : SortedMap κ β) (l : List (κ × β)) : SortedMap κ β :=
  l.foldl (fun m e => m.insert e.1 e.2) m

def keys (m : SortedMap κ β) : List κ := m.entries.map Prod.fst

theorem keys_nodup (m : SortedMap κ β) : m.keys.Nodup := by
  rw [keys, List.nodup_iff_pairwise_ne, List.pairwise_map]
  exact m.sorted.imp ne_of_lt

theorem mem_of_mem_insertAll {e : κ × β} (h : e ∈ (m.insertAll l).entries) :
    e ∈ m.entries ∨ e ∈ l := by
  induction l generalizing m with
  | nil => exact .inl h
  | cons x l ih =>
      rw [insertAll, List.foldl_cons, ← insertAll] at h
      rcases ih h with h | h
      · rcases mem_of_mem_insertEntry h with rfl | h
        · exact .inr List.mem_cons_self
        · exact .inl h
      · exact .inr (List.mem_cons_of_mem _ h)

theorem mem_insertAll_keys {x : κ} :
    x ∈ (m.insertAll l).keys ↔ x ∈ m.keys ∨ x ∈ l.map Prod.fst := by
  induction l generalizing m with
  | nil => simp [insertAll]
  | cons e l ih =>
      rw [insertAll, List.foldl_cons, ← insertAll, ih, keys, insert,
        mem_insertEntry_keys, List.map_cons,
        List.mem_cons, or_assoc, or_left_comm]
      rfl

theorem insertAll_perm (h : (l.map Prod.fst).Nodup)
    (hnew : ∀ k ∈ l.map Prod.fst, k ∉ m.keys) : (m.insertAll l).entries.Perm
    (l ++ m.entries) := by
  induction l generalizing m with
  | nil => exact .refl _
  | cons e l ih =>
      rw [List.map_cons, List.nodup_cons] at h
      rw [List.map_cons, List.forall_mem_cons] at hnew
      rw [insertAll, List.foldl_cons, ← insertAll]
      have hrest : ∀ k ∈ l.map Prod.fst, k ∉ (m.insert e.1 e.2).keys := by
        intro k hk hin
        rcases mem_insertEntry_keys.1 hin with rfl | hin
        · exact h.1 hk
        · exact hnew.2 k hk hin
      exact (ih h.2 hrest).trans
        (((insertEntry_perm hnew.1).append_left l).trans List.perm_middle)

/-- Entries with distinct keys are all there. -/
theorem perm_of_nodup (h : (l.map Prod.fst).Nodup) :
    (insertAll empty l).entries.Perm l := by
  have hperm := insertAll_perm (m := empty) h (by simp [keys, empty])
  rwa [empty, List.append_nil] at hperm

/-- As many entries as were written: their keys are distinct. -/
theorem nodup_of_length (h : (insertAll empty l).entries.length = l.length) :
    (l.map Prod.fst).Nodup := by
  have hsub : (insertAll empty l).keys.Subperm (l.map Prod.fst) := by
    apply List.subperm_of_subset (keys_nodup _)
    intro x hx
    rcases mem_insertAll_keys.1 hx with hnone | hx
    · simp [keys, empty] at hnone
    · exact hx
  have hperm := hsub.perm_of_length_le (by simp [keys, h])
  exact hperm.nodup_iff.1 (keys_nodup _)

end SortedMap

end Minfer.Lib
