/-
Position-addressed rows of a causal model.

A row is the input written at its position together with what the model
computed there from the rows before it. Rows past the ones in use are
stale: nothing reads them before they are written again.
-/
import Mathlib.Data.List.Induction
import Mathlib.Logic.Function.Basic
import Mathlib.Tactic.Common

namespace Minfer.Lib

/-- A causal model: the content of a row is a function of the rows before it
and its input, and its output of the rows up to it. -/
structure Causal (T V O : Type) where
  value : List (T × V) → T → V
  out : List (T × V) → O

/-- Rows by position. -/
abbrev Rows (T V : Type) := Nat → T × V

namespace Rows

variable {T V : Type}

/-- The rows at positions below `p`. -/
def before (rows : Rows T V) (p : Nat) : List (T × V) := (List.range p).map rows

theorem before_succ (rows : Rows T V) (p : Nat) :
    rows.before (p + 1) = rows.before p ++ [rows p] := by
  simp [before, List.range_succ]

theorem before_congr {rows rows' : Rows T V} {p : Nat}
    (h : ∀ i < p, rows i = rows' i) :
    rows.before p = rows'.before p := by
  unfold before
  apply List.map_congr_left
  intro i hi
  exact h i (List.mem_range.mp hi)

theorem before_update {rows : Rows T V} {p q : Nat} (h : p ≤ q) (r : T × V) :
    before (Function.update rows q r) p = rows.before p := by
  apply before_congr
  intro i hi
  exact Function.update_of_ne (by omega) ..

end Rows

namespace Causal

variable {T V O : Type} (m : Causal T V O)

/-- Write one row. -/
def write (rows : Rows T V) (p : Nat) (t : T) : Rows T V :=
  Function.update rows p (t, m.value (rows.before p) t)

/-- The output at a position. -/
def outAt (rows : Rows T V) (p : Nat) : O := m.out (rows.before (p + 1))

/-- Write inputs at their positions in order; the outputs are read as the
rows are written. -/
def feed (rows : Rows T V) : List (T × Nat) → Rows T V × List O
  | [] => (rows, [])
  | (t, p) :: rest =>
      let rows := m.write rows p t
      let (rows', outs) := feed rows rest
      (rows', m.outAt rows p :: outs)

/-- The rows of an input sequence written from position 0. -/
def history (ts : List T) : List (T × V) :=
  ts.foldl (fun vs t => vs ++ [(t, m.value vs t)]) []

/-- The rows hold an input sequence. -/
def Holds (rows : Rows T V) (ts : List T) : Prop :=
  rows.before ts.length = m.history ts

variable {m}

theorem history_concat (ts : List T) (t : T) :
    m.history (ts ++ [t]) = m.history ts ++ [(t, m.value (m.history ts) t)] := by
  unfold history
  rw [List.foldl_append]
  rfl

namespace Holds

theorem nil (rows : Rows T V) : m.Holds rows [] := rfl

variable {rows : Rows T V} {ts : List T}

theorem of_append {us : List T} (h : m.Holds rows (ts ++ us)) :
    m.Holds rows ts := by
  induction us using List.reverseRecOn with
  | nil =>
      rw [List.append_nil] at h
      exact h
  | append_singleton us u ih =>
      apply ih
      unfold Holds at h ⊢
      rw [← List.append_assoc, history_concat, List.length_append,
        List.length_singleton, Rows.before_succ] at h
      exact (List.append_inj' h rfl).1

/-- A write past the sequence does not disturb it. -/
theorem write_ge (h : m.Holds rows ts) {p : Nat} (hp : ts.length ≤ p) (t : T) :
    m.Holds (m.write rows p t) ts := by
  unfold Holds at h ⊢
  unfold write
  rw [Rows.before_update hp]
  exact h

/-- A write at its end extends it. -/
theorem write (h : m.Holds rows ts) (t : T) :
    m.Holds (m.write rows ts.length t) (ts ++ [t]) := by
  have hkeep := h.write_ge (Nat.le_refl _) t
  unfold Holds at h hkeep ⊢
  rw [List.length_append, List.length_singleton, Rows.before_succ, hkeep,
    history_concat]
  unfold Causal.write
  rw [Function.update_self, h]

/-- The output at the end of the sequence is a function of it. -/
theorem outAt {t : T} (h : m.Holds rows (ts ++ [t])) :
    m.outAt rows ts.length = m.out (m.history (ts ++ [t])) := by
  unfold Causal.outAt
  unfold Holds at h
  rw [List.length_append, List.length_singleton] at h
  rw [h]

end Holds

/-- The outputs along a sequence that continues another. -/
def outsAlong (m : Causal T V O) (ts : List T) : List T → List O
  | [] => []
  | u :: us => m.out (m.history (ts ++ [u])) :: outsAlong m (ts ++ [u]) us

/-- Feeding a sequence at the end of the one held. -/
theorem feed_holds {us : List T} : ∀ {rows : Rows T V}
    {ts : List T}, m.Holds rows ts →
    m.Holds (m.feed rows (us.zip (List.range' ts.length us.length))).1 (ts ++ us)
      ∧ (m.feed rows (us.zip (List.range' ts.length us.length))).2
        = m.outsAlong ts us := by
  induction us with
  | nil =>
      intro rows ts h
      rw [List.append_nil]
      exact ⟨h, rfl⟩
  | cons u us ih =>
      intro rows ts h
      have hstep := h.write u
      have hih := ih hstep
      rw [List.length_append, List.length_singleton] at hih
      rw [List.length_cons, List.range'_succ, List.zip_cons_cons]
      refine ⟨?_, ?_⟩
      · have := hih.1
        rw [List.append_assoc] at this
        exact this
      · show m.outAt (m.write rows ts.length u) ts.length :: _ = _
        rw [hstep.outAt, hih.2]
        rfl

theorem feed_append {us us' : List (T × Nat)} : ∀ {rows : Rows T V},
    (m.feed rows (us ++ us')).1 = (m.feed (m.feed rows us).1 us').1 := by
  induction us with
  | nil => exact rfl
  | cons u us ih => exact ih

/-- Feeding touches only the positions it is given. -/
theorem feed_other {q : Nat} : ∀ {us : List (T × Nat)} {rows : Rows T V},
    (∀ u ∈ us, u.2 ≠ q) → (m.feed rows us).1 q = rows q := by
  intro us
  induction us with
  | nil => exact fun _ => rfl
  | cons u us ih =>
      intro rows h
      obtain ⟨t, p⟩ := u
      show (m.feed (m.write rows p t) us).1 q = rows q
      rw [ih fun u hu => h u (List.mem_cons_of_mem _ hu)]
      exact Function.update_of_ne (h (t, p) List.mem_cons_self).symm ..

/-- A span that was fed is what its positions hold. -/
theorem feed_input {us : List T} : ∀ {rows : Rows T V} {p j : Nat}, j < us.length →
    some ((m.feed rows (us.zip (List.range' p us.length))).1 (p + j)).1 = us[j]? := by
  induction us with
  | nil =>
      intro rows p j hj
      exact absurd hj (Nat.not_lt_zero j)
  | cons u us ih =>
      intro rows p j hj
      rw [List.length_cons, List.range'_succ, List.zip_cons_cons]
      show some ((m.feed (m.write rows p u)
        (us.zip (List.range' (p + 1) us.length))).1 (p + j)).1
        = _
      cases j with
      | zero =>
          rw [feed_other]
          · show some ((Function.update rows p _) p).1 = _
            rw [Function.update_self]
            rfl
          · intro x hx
            have hmem := List.of_mem_zip hx
            have := (List.mem_range'_1.mp hmem.2).1
            omega
      | succ j =>
          rw [show p + (j + 1) = p + 1 + j by omega, ih (by simpa using hj)]
          rfl

end Causal

end Minfer.Lib
