/-
Programs that change a state and may fail: a failure keeps the state it was
raised in.

`Ends x s Q` is the weakest precondition: the run of `x` from `s` ends in an
outcome and a state that `Q` accepts. A judgement over it composes along a
program without looking at its states: `Raises` for the errors it can end with.
-/
import Mathlib.Control.Monad.Basic

namespace Minfer.Lib.Attempt

variable {ε σ α β : Type}

/-- A run from `s` ends in what `Q` accepts. -/
def Ends (x : ExceptT ε (StateM σ) α) (s : σ) (Q : Except ε α → σ → Prop) :
    Prop := Q (x s).1 (x s).2

/-- A run that fails does so with one of these errors. -/
def Raises (E : ε → Prop) (x : ExceptT ε (StateM σ) α) : Prop :=
  ∀ s e, (x s).1 = .error e → E e

theorem run_bind (x : ExceptT ε (StateM σ) α) (f : α → ExceptT ε (StateM σ) β)
    (s : σ) :
    (x >>= f) s = match x s with
      | (.ok a, s') => f a s'
      | (.error e, s') => (.error e, s') := by
  show ExceptT.bindCont f (x s).1 (x s).2 = _
  cases x s with
  | mk out s' => cases out <;> rfl

-- ================================ ends

theorem Ends.mono {x : ExceptT ε (StateM σ) α} {s : σ}
    {Q Q' : Except ε α → σ → Prop} (h : Ends x s Q)
    (hQ : ∀ r s', Q r s' → Q' r s') : Ends x s Q' := hQ _ _ h

theorem Ends.bind {x : ExceptT ε (StateM σ) α} {f : α → ExceptT ε (StateM σ) β}
    {s : σ} {Q : Except ε β → σ → Prop} (h : Ends x s fun r s' => match r with
      | .ok a => Ends (f a) s' Q
      | .error e => Q (.error e) s') : Ends (x >>= f) s Q := by
  rw [Ends, run_bind]
  rw [Ends] at h
  cases hrun : x s with
  | mk out s' =>
      rw [hrun] at h
      cases out with
      | ok a => exact h
      | error e => exact h

theorem Ends.ite {c : Prop} [Decidable c] {x y : ExceptT ε (StateM σ) α}
    {s : σ} {Q : Except ε α → σ → Prop}
    (hx : c → Ends x s Q) (hy : ¬c → Ends y s Q) : Ends (if c then x else y) s Q := by
  by_cases hc : c
  · rw [if_pos hc]
    exact hx hc
  · rw [if_neg hc]
    exact hy hc

-- ============================== raises

section Raises

variable {E : ε → Prop}

theorem Raises.pure (a : α) : Raises E (Pure.pure a : ExceptT ε (StateM σ) α) := by
  intro s e h
  cases h

theorem Raises.throw {e : ε} (h : E e) : Raises E
    (throw e : ExceptT ε (StateM σ) α) := by
  intro s e' he
  cases he
  exact h

theorem Raises.modify (f : σ → σ) : Raises E
    (modify f : ExceptT ε (StateM σ) Unit) := by
  intro s e h
  cases h

theorem Raises.bind {x : ExceptT ε (StateM σ) α}
    {f : α → ExceptT ε (StateM σ) β} (hx : Raises E x)
    (hf : ∀ a, Raises E (f a)) : Raises E (x >>= f) := by
  intro s e h
  rw [run_bind] at h
  cases hrun : x s with
  | mk out s' =>
      rw [hrun] at h
      cases out with
      | ok a => exact hf a s' e h
      | error e' =>
          cases h
          exact hx s e (congrArg Prod.fst hrun)

theorem Raises.ite {c : Prop} [Decidable c] {x y : ExceptT ε (StateM σ) α}
    (hx : Raises E x) (hy : Raises E y) :
    Raises E (if c then x else y) := by
  split
  · exact hx
  · exact hy

end Raises

end Minfer.Lib.Attempt
