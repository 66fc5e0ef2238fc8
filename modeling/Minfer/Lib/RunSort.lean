/-
Sorting the runs of a sequence by weight.

An element of weight zero is fixed: it ends the run before it and the next run
starts after it. The elements of a run are put in the order of their weights
and those of one weight keep theirs. Two sequences are the same up to runs when
they sort alike whatever follows them, and then also inside a longer sequence.
-/
import Mathlib.Data.List.Chain
import Mathlib.Data.List.Sort

namespace Minfer.Lib.Runs

section Place

variable {α : Type} (weight : α → Nat)

/-- `a` may stand right before `b`. -/
def Before (a b : α) : Prop := weight b = 0 ∨ weight a ≤ weight b

instance (a b : α) : Decidable (Before weight a b) :=
  inferInstanceAs (Decidable (_ ∨ _))

/-- The order inside a run. -/
def NotHeavier (a b : α) : Prop := weight a ≤ weight b

instance (a b : α) : Decidable (NotHeavier weight a b) :=
  inferInstanceAs (Decidable (_ ≤ _))

/-- Put an element in front of a sorted sequence: a fixed one stays there, any
other one goes past the lighter elements of the first run. -/
def place (a : α) (l : List α) : List α :=
  if weight a = 0 then a :: l else l.orderedInsert (Before weight) a

/-- The sequence with its runs sorted. -/
def runSort (l : List α) : List α := l.foldr (place weight) []

/-- Every run is sorted. -/
def Sorted (l : List α) : Prop := l.IsChain (Before weight)

/-- The sequences sort alike, whatever follows. -/
def Same (l m : List α) : Prop := ∀ ys, runSort weight
    (l ++ ys) = runSort weight (m ++ ys)

end Place

variable {α : Type} {weight : α → Nat}

@[simp]
theorem runSort_nil : runSort weight [] = [] := rfl

@[simp]
theorem runSort_cons (a : α) (l : List α) : runSort weight
    (a :: l) = place weight a (runSort weight l) := rfl

/-- The first part is placed into the sorted rest. -/
theorem runSort_append (l m : List α) : runSort weight (l ++ m) = l.foldr
    (place weight) (runSort weight m) :=
  List.foldr_append

/-- Placing an element loses none. -/
theorem perm_place (a : α) (l : List α) : (place weight a l).Perm (a :: l) := by
  rw [place]
  split
  · exact .refl _
  · exact List.perm_orderedInsert _ a l

/-- Sorting loses no element. -/
theorem perm_runSort (l : List α) : (runSort weight l).Perm l := by
  induction l with
  | nil => exact .refl _
  | cons a l ih => exact (perm_place a _).trans (ih.cons a)

-- ============================== sorted

variable {l : List α}

/-- An element that may stand in front stays there. -/
theorem place_of_sorted {a : α} (h : Sorted weight (a :: l)) :
    place weight a l = a :: l := by
  rw [place]
  split
  · rfl
  · cases l with
    | nil => rfl
    | cons b l =>
        exact List.orderedInsert_cons_of_le _ l (List.isChain_cons_cons.mp h).1

/-- A fixed element may stand before anything. -/
theorem sorted_cons_fixed {a : α} (ha : weight a = 0)
    (h : Sorted weight l) : Sorted weight (a :: l) := by
  cases l with
  | nil => exact .singleton a
  | cons b l => exact List.isChain_cons_cons.mpr ⟨.inr (ha ▸ Nat.zero_le _), h⟩

/-- Placing an element keeps the runs sorted. -/
theorem sorted_place (a : α) (h : Sorted weight l) :
    Sorted weight (place weight a l) := by
  rw [place]
  split
  next ha => exact sorted_cons_fixed ha h
  next ha =>
    induction l with
    | nil => exact .singleton a
    | cons b l ih =>
        by_cases hab : Before weight a b
        · rw [List.orderedInsert_cons_of_le _ l hab]
          exact List.isChain_cons_cons.mpr ⟨hab, h⟩
        · rw [List.orderedInsert_of_not_le _ l hab]
          have hba : Before weight b a := by
            rw [Before] at hab ⊢
            omega
          -- what stands after `b` is `a` or what stood there
          have hrest := ih h.tail
          cases l with
          | nil => exact List.isChain_cons_cons.mpr ⟨hba, hrest⟩
          | cons c l =>
              by_cases hac : Before weight a c
              · rw [List.orderedInsert_cons_of_le _ l hac] at hrest ⊢
                exact List.isChain_cons_cons.mpr ⟨hba, hrest⟩
              · rw [List.orderedInsert_of_not_le _ l hac] at hrest ⊢
                exact List.isChain_cons_cons.mpr
                  ⟨(List.isChain_cons_cons.mp h).1, hrest⟩

/-- Every run comes out sorted. -/
theorem sorted_runSort (l : List α) : Sorted weight (runSort weight l) := by
  induction l with
  | nil => exact .nil
  | cons a l ih => exact sorted_place a ih

/-- A sorted sequence stays as it is. -/
theorem runSort_of_sorted (h : Sorted weight l) :
    runSort weight l = l := by
  induction l with
  | nil => rfl
  | cons a l ih => rw [runSort_cons, ih h.tail, place_of_sorted h]

/-- Fixed elements are sorted. -/
theorem sorted_of_fixed (h : ∀ a ∈ l, weight a = 0) :
    Sorted weight l := by
  induction l with
  | nil => exact .nil
  | cons a l ih =>
      exact sorted_cons_fixed (h a List.mem_cons_self)
        (ih fun b hb => h b (List.mem_cons_of_mem a hb))

/-- A run before a fixed element, or at the end, is sorted by itself. -/
theorem place_run {a : α} (ha : weight a ≠ 0) {run rest : List α}
    (hrun : ∀ b ∈ run, weight b ≠ 0) (hrest : ∀ b ∈ rest.head?, weight b = 0) :
    place weight a (run ++ rest) = run.orderedInsert (NotHeavier weight) a
      ++ rest := by
  rw [place, if_neg ha]
  induction run with
  | nil =>
      cases rest with
      | nil => rfl
      | cons b rest => exact List.orderedInsert_cons_of_le _ rest (.inl (hrest b rfl))
  | cons b run ih =>
      have hb := hrun b List.mem_cons_self
      have hiff : Before weight a b ↔ NotHeavier weight a b := or_iff_right hb
      rw [List.cons_append]
      by_cases hab : NotHeavier weight a b
      · rw [List.orderedInsert_cons_of_le _ _ (hiff.mpr hab),
          List.orderedInsert_cons_of_le _ _ hab]
        rfl
      · rw [List.orderedInsert_of_not_le _ _ (hab ∘ hiff.mp),
          List.orderedInsert_of_not_le _ _ hab, List.cons_append,
          ih fun c hc => hrun c (List.mem_cons_of_mem b hc)]

/-- A run up to a fixed element is sorted by insertion. -/
theorem runSort_run {run rest : List α} (hrun : ∀ b ∈ run, weight b ≠ 0)
    (hrest : ∀ b ∈ (runSort weight rest).head?, weight b = 0) :
    runSort weight (run ++ rest) = run.insertionSort (NotHeavier weight)
      ++ runSort weight rest := by
  induction run with
  | nil => rfl
  | cons a run ih =>
      rw [List.cons_append, runSort_cons, ih fun b hb =>
        hrun b (List.mem_cons_of_mem a hb), List.insertionSort_cons]
      apply place_run (hrun a List.mem_cons_self) _ hrest
      intro b hb
      exact hrun b (List.mem_cons_of_mem a ((List.mem_insertionSort _).mp hb))

/-- A sequence that starts with a fixed element still does so when sorted. -/
theorem head_runSort (h : ∀ b ∈ l.head?, weight b = 0) :
    ∀ b ∈ (runSort weight l).head?, weight b = 0 := by
  cases l with
  | nil => exact h
  | cons a l =>
      have ha := h a rfl
      rw [runSort_cons, place, if_pos ha]
      exact h

-- ================================ same

/-- Two elements of one run and of different weights can be put in either
order. -/
theorem place_comm {a b : α} (hab : weight a ≠ weight b) (ha : weight a ≠ 0)
    (hb : weight b ≠ 0) (l : List α) :
    place weight a (place weight b l) = place weight b (place weight a l) := by
  simp only [place, if_neg ha, if_neg hb]
  have hone : Before weight b a ↔ ¬ Before weight a b := by
    simp only [Before]
    omega
  induction l with
  | nil => by_cases h : Before weight a b <;> simp [hone, h]
  | cons c l ih =>
      by_cases hac : Before weight a c
      · by_cases hbc : Before weight b c
        · by_cases h : Before weight a b <;> simp [hone, h, hac, hbc]
        · have hlighter : Before weight a b := by
            simp only [Before] at hac hbc ⊢
            omega
          simp [hone, hlighter, hac, hbc]
      · by_cases hbc : Before weight b c
        · have hlighter : ¬ Before weight a b := by
            simp only [Before] at hac hbc ⊢
            omega
          simp [hlighter, hac, hbc]
        · simp [hac, hbc, ih]

namespace Same

theorem refl (l : List α) : Same weight l l := fun _ => rfl

variable {l m : List α}

theorem symm (h : Same weight l m) : Same weight m l :=
  fun ys => (h ys).symm

theorem trans {n : List α} (h : Same weight l m) (h' : Same weight m n) :
    Same weight l n :=
  fun ys => (h ys).trans (h' ys)

/-- Whatever stands in front. -/
theorem append_left (l : List α) {n : List α} (h : Same weight m n) :
    Same weight (l ++ m) (l ++ n) := by
  intro ys
  rw [List.append_assoc, List.append_assoc, runSort_append, runSort_append l, h ys]

/-- Whatever follows. -/
theorem append_right (h : Same weight l m) (n : List α) :
    Same weight (l ++ n) (m ++ n) := by
  intro ys
  rw [List.append_assoc, List.append_assoc, h (n ++ ys)]

/-- Neighbours of different weight in one run may be swapped. -/
theorem swap {a b : α} (hab : weight a ≠ weight b) (ha : weight a ≠ 0)
    (hb : weight b ≠ 0) :
    Same weight [a, b] [b, a] :=
  fun ys => place_comm hab ha hb (runSort weight ys)

/-- An element goes before the lighter ones of its run. -/
theorem past {a : α} (h : ∀ b ∈ l, weight b ≠ 0 ∧ weight b < weight a) :
    Same weight (l ++ [a]) (a :: l) := by
  induction l with
  | nil => exact refl [a]
  | cons b l ih =>
      obtain ⟨hb, hlt⟩ := h b List.mem_cons_self
      have hinner := (ih fun c hc => h c (List.mem_cons_of_mem b hc)).append_left [b]
      have hswap : Same weight [b, a] [a, b] := swap (by omega) hb (by omega)
      exact hinner.trans (hswap.append_right l)

/-- Sequences that sort alike have one sorted form. -/
theorem runSort_eq (h : Same weight l m) :
    runSort weight l = runSort weight m := by
  have hend := h []
  rwa [List.append_nil, List.append_nil] at hend

end Same

end Minfer.Lib.Runs
