/-
Machine arithmetic on signed integers that keeps a record: each step gives
what the machine keeps of its result, and whether the result stayed in range.

A computation that is `pure` did nothing the machine could not hold. A loop
that adds up is `pure` where a bound on the terms, times their number, is in
range.
-/
import Mathlib.Algebra.BigOperators.Ring.Finset
import Mathlib.Algebra.Order.BigOperators.Group.Finset
import Mathlib.Algebra.Order.Group.Abs
import Mathlib.Algebra.Order.Ring.Int

namespace Minfer.Lib

/-- A value, and whether every step on the way to it stayed in its range. -/
structure Tracked (α : Type) where
  value : α
  inRange : Bool
deriving DecidableEq

namespace Tracked

variable {α β : Type}

instance : Monad Tracked where
  pure a := ⟨a, true⟩
  bind x f := ⟨(f x.value).value, x.inRange && (f x.value).inRange⟩

instance : LawfulMonad Tracked := LawfulMonad.mk' Tracked
  (fun x => by cases x; simp [Functor.map])
  (fun _ _ => by simp [bind, pure])
  (fun _ _ _ => by simp [bind, Bool.and_assoc])

end Tracked

/-- What `i16` holds. -/
def InI16 (z : Int) : Prop := -32768 ≤ z ∧ z ≤ 32767

/-- What `i32` holds. -/
def InI32 (z : Int) : Prop := -2147483648 ≤ z ∧ z ≤ 2147483647

instance (z : Int) : Decidable (InI16 z) := inferInstanceAs (Decidable (_ ∧ _))

instance (z : Int) : Decidable (InI32 z) := inferInstanceAs (Decidable (_ ∧ _))

/-- What is left of an integer in 16 bits. -/
def wrapI16 (z : Int) : Int := (z + 32768) % 65536 - 32768

/-- What is left of an integer in 32 bits. -/
def wrapI32 (z : Int) : Int := (z + 2147483648) % 4294967296 - 2147483648

/-- An integer held at the ends of the 16-bit range. -/
def satI16 (z : Int) : Int := max (-32768) (min z 32767)

theorem wrapI16_of_mem {z : Int} (h : InI16 z) : wrapI16 z = z := by
  obtain ⟨hlow, hhigh⟩ := h
  rw [wrapI16]
  omega

theorem wrapI32_of_mem {z : Int} (h : InI32 z) : wrapI32 z = z := by
  obtain ⟨hlow, hhigh⟩ := h
  rw [wrapI32]
  omega

theorem satI16_of_mem {z : Int} (h : InI16 z) : satI16 z = z := by
  obtain ⟨hlow, hhigh⟩ := h
  rw [satI16, min_eq_left hhigh, max_eq_right hlow]

theorem InI16.of_abs_le {z : Int} (h : |z| ≤ 32767) : InI16 z := by
  rw [abs_le] at h
  exact ⟨by omega, h.2⟩

theorem InI32.of_abs_le {z : Int} (h : |z| ≤ 2147483647) : InI32 z := by
  rw [abs_le] at h
  exact ⟨by omega, h.2⟩

/-- The result of a step of `i32` arithmetic. -/
def trackI32 (z : Int) : Tracked Int := ⟨wrapI32 z, decide (InI32 z)⟩

theorem trackI32_of_mem {z : Int} (h : InI32 z) : trackI32 z = pure z := by
  rw [trackI32, wrapI32_of_mem h, decide_eq_true h]
  rfl

theorem trackI32_of_abs_le {z : Int} (h : |z| ≤ 2147483647) : trackI32 z = pure z :=
  trackI32_of_mem (.of_abs_le h)

-- =============================== loops

/-- A loop that adds up `n` terms in `i32`. -/
def sumI32 (n : Nat) (term : Nat → Tracked Int) : Tracked Int :=
  (List.range n).foldlM (fun sum k => do trackI32 (sum + (← term k))) 0

/-- A partial sum is bounded by the terms' bound times their number. -/
theorem abs_sum_range_le {n : Nat} {f : Nat → Int} (bound : Int)
    (h : ∀ k < n, |f k| ≤ bound) :
    |∑ k ∈ Finset.range n, f k| ≤ n * bound := by
  calc |∑ k ∈ Finset.range n, f k| ≤ ∑ k ∈ Finset.range n, |f k| :=
    Finset.abs_sum_le_sum_abs _ _
    _ ≤ ∑ _k ∈ Finset.range n, bound :=
      Finset.sum_le_sum fun k hk => h k (Finset.mem_range.1 hk)
    _ = n * bound := by rw [Finset.sum_const, Finset.card_range, nsmul_eq_mul]

theorem sumI32_eq {n : Nat} {term : Nat → Tracked Int} {f : Nat → Int} (bound : Int)
    (hterm : ∀ k < n, term k = pure (f k)) (hbound : ∀ k < n, |f k| ≤ bound)
    (hn : n * bound ≤ 2147483647) : sumI32 n term = pure
    (∑ k ∈ Finset.range n, f k) := by
  suffices h : ∀ m ≤ n,
      (List.range m).foldlM (fun sum k => do trackI32 (sum + (← term k))) 0
      = (pure (∑ k ∈ Finset.range m, f k) : Tracked Int) from h n le_rfl
  intro m hm
  induction m with
  | zero => rfl
  | succ m ih =>
      rw [List.range_succ, List.foldlM_append, ih (by omega), pure_bind]
      simp only [List.foldlM_cons, List.foldlM_nil, bind_pure]
      rw [hterm m hm, pure_bind, ← Finset.sum_range_succ]
      apply trackI32_of_abs_le
      have hsum := abs_sum_range_le (n := m + 1) (f := f) bound fun k hk =>
        hbound k (by omega)
      have hpos : 0 ≤ bound := (abs_nonneg _).trans (hbound m hm)
      have hcount : ((m + 1 : Nat) : Int) * bound ≤ n * bound :=
        mul_le_mul_of_nonneg_right (by exact_mod_cast hm) hpos
      omega

namespace Tracked

variable {α σ τ : Type}

/-- Two loops whose steps keep a relation, and stay in range, end related and
in range. -/
theorem foldlM_related {f : σ → α → Tracked σ} {g : τ → α → Tracked τ}
    (rel : σ → τ → Prop)
    (hstep : ∀ s t a, rel s t → ∃ s' t', f s a = pure s' ∧ g t a = pure t'
      ∧ rel s' t') (l : List α) {s : σ} {t : τ}
    (h : rel s t) : ∃ s' t', l.foldlM f s = pure s' ∧ l.foldlM g t = pure t'
    ∧ rel s' t' := by
  induction l generalizing s t with
  | nil => exact ⟨s, t, rfl, rfl, h⟩
  | cons a l ih =>
      obtain ⟨s', t', hf, hg, hrel⟩ := hstep s t a h
      rw [List.foldlM_cons, List.foldlM_cons, hf, hg, pure_bind, pure_bind]
      exact ih hrel

/-- A loop whose every step stays in range. -/
theorem foldlM_pure {f : σ → α → Tracked σ}
    (hstep : ∀ s a, ∃ s', f s a = pure s') (l : List α) (s : σ) :
    ∃ s', l.foldlM f s = pure s' := by
  induction l generalizing s with
  | nil => exact ⟨s, rfl⟩
  | cons a l ih =>
      obtain ⟨s', hf⟩ := hstep s a
      rw [List.foldlM_cons, hf, pure_bind]
      exact ih s'

end Tracked

end Minfer.Lib
