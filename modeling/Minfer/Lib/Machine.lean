/-
A nondeterministic machine whose states either move without input or wait for
it, and its simulation by the list of the waiting states.

The machine is Mathlib's automaton with ε-moves, over any type of states. What
a simulation carries from letter to letter is `Live`: the list holds the
waiting states that the input read so far can reach, and no others.
-/
import Mathlib.Computability.EpsilonNFA
import Minfer.Lib.Worklist

namespace Minfer.Lib

open Relation (ReflTransGen)

section Machine

variable {σ α : Type}

/-- The machine of a successor function and a reading function; a state reads
where it has no successors. -/
def machine (next : σ → Option (List σ)) (reads : σ → α → Option σ) (start : σ)
    (accept : Set σ) : εNFA α σ where
  step s
    | none => {t | Succ next s t}
    | some a => {t | next s = none ∧ reads s a = some t}
  start := {start}
  accept := accept

variable {next : σ → Option (List σ)} {reads : σ → α → Option σ} {start : σ}
  {accept : Set σ}

theorem mem_εClosure_iff {starts : Set σ} {t : σ} :
    t ∈ (machine next reads start accept).εClosure starts
      ↔ ∃ s ∈ starts, ReflTransGen (Succ next) s t := by
  constructor
  · intro h
    induction h with
    | base s hs => exact ⟨s, hs, .refl⟩
    | step s t hstep _ ih =>
        obtain ⟨s₀, hs₀, hpath⟩ := ih
        exact ⟨s₀, hs₀, hpath.tail hstep⟩
  · rintro ⟨s, hs, hpath⟩
    induction hpath with
    | refl => exact .base s hs
    | tail _ hstep ih => exact εNFA.εClosure.step _ _ hstep ih

/-- Reading a letter moves through a waiting state. -/
theorem mem_stepSet_iff {states : Set σ} {a : α} {t : σ} :
    t ∈ (machine next reads start accept).stepSet states a
      ↔ ∃ s ∈ states, next s = none ∧ ∃ u, reads s a = some u
        ∧ ReflTransGen (Succ next) u t := by
  rw [εNFA.mem_stepSet_iff]
  constructor
  · rintro ⟨s, hs, ht⟩
    obtain ⟨u, ⟨hwait, hread⟩, hpath⟩ := mem_εClosure_iff.1 ht
    exact ⟨s, hs, hwait, u, hread, hpath⟩
  · rintro ⟨s, hs, hwait, u, hread, hpath⟩
    exact ⟨s, hs, mem_εClosure_iff.2 ⟨u, ⟨hwait, hread⟩, hpath⟩⟩

-- ========================== simulation

/-- The waiting states reached by a word. -/
def Live (M : εNFA α σ) (next : σ → Option (List σ)) (word : List α)
    (live : List σ) : Prop :=
  ∀ t, t ∈ live ↔ t ∈ M.eval word ∧ next t = none

/-- What can be reached before any input. -/
theorem reached_nil {t : σ} : (∃ s ∈ [start], ReflTransGen (Succ next) s t)
    ↔ t ∈ (machine next reads start accept).eval [] := by
  rw [εNFA.eval_nil, mem_εClosure_iff]
  simp only [List.mem_singleton]
  rfl

variable {live : List σ} {word : List α}

theorem Live.nil (h : ∀ t, t ∈ live ↔ Found next [start] t) :
    Live (machine next reads start accept) next [] live := by
  intro t
  rw [h t]
  exact and_congr_left fun _ => reached_nil

/-- What can be reached from the waiting states once they have read a letter. -/

theorem Live.reached {a : α}
    (h : Live (machine next reads start accept) next word live) {t : σ} :
    (∃ u ∈ live.filterMap (reads · a), ReflTransGen (Succ next) u t)
      ↔ t ∈ (machine next reads start accept).eval (word ++ [a]) := by
  rw [εNFA.eval_append_singleton, mem_stepSet_iff]
  constructor
  · rintro ⟨u, hu, hpath⟩
    obtain ⟨s, hs, hread⟩ := List.mem_filterMap.1 hu
    obtain ⟨hs, hwait⟩ := (h s).1 hs
    exact ⟨s, hs, hwait, u, hread, hpath⟩
  · rintro ⟨s, hs, hwait, u, hread, hpath⟩
    exact ⟨u, List.mem_filterMap.2 ⟨s, (h s).2 ⟨hs, hwait⟩, hread⟩, hpath⟩

theorem Live.concat {a : α} {live' : List σ}
    (h : Live (machine next reads start accept) next word live)
    (h' : ∀ t, t ∈ live' ↔ Found next (live.filterMap (reads · a)) t) :
    Live (machine next reads start accept) next (word ++ [a]) live' := by
  intro t
  rw [h' t]
  exact and_congr_left fun _ => h.reached

/-- Where no waiting state reads a letter, no word goes on with it. -/
theorem Live.stuck {a : α}
    (h : Live (machine next reads start accept) next word live)
    (hstuck : ∀ s ∈ live, reads s a = none) (rest : List α) :
    word ++ a :: rest ∉ (machine next reads start accept).accepts := by
  have hdead : (machine next reads start accept).eval (word ++ [a]) = ∅ := by
    refine Set.eq_empty_iff_forall_notMem.2 fun t ht => ?_
    rw [εNFA.eval_append_singleton, mem_stepSet_iff] at ht
    obtain ⟨s, hs, hwait, u, hread, -⟩ := ht
    rw [hstuck s ((h s).2 ⟨hs, hwait⟩)] at hread
    cases hread
  rintro ⟨s, -, hs⟩
  rw [List.append_cons, εNFA.eval, εNFA.evalFrom, List.foldl_append] at hs
  have hrest : ∀ l : List α,
      l.foldl (machine next reads start accept).stepSet ∅ = ∅ := by
    intro l
    induction l with
    | nil => rfl
    | cons b l ih => rw [List.foldl_cons, εNFA.stepSet_empty, ih]
  rw [show List.foldl (machine next reads start accept).stepSet _ (word ++ [a])
    = ∅ from hdead,
    hrest] at hs
  exact hs

/-- A word is accepted where a waiting state is. -/
theorem Live.accepts_iff
    (h : Live (machine next reads start accept) next word live)
    (haccept : ∀ s ∈ accept, next s = none) :
    word ∈ (machine next reads start accept).accepts ↔ ∃ s ∈ live, s ∈ accept := by
  constructor
  · rintro ⟨s, hs, heval⟩
    exact ⟨s, (h s).2 ⟨heval, haccept s hs⟩, hs⟩
  · rintro ⟨s, hs, hacc⟩
    exact ⟨s, hacc, ((h s).1 hs).1⟩

end Machine

end Minfer.Lib
