/-
Code in its place, and the runs of the machine over it.

The compiler is correct when the machine leaves the code of a node having read
just the strings the node derives. `Blocks` has one way, by induction on the
length of a run, and `Complete` the other, by induction on the derivation.
-/
import Minfer.Grammar.Language

namespace Minfer.Gbnf

open Minfer.Lib (Succ)
open Minfer.Tokenize (Text)

-- =========================== placement

section Placed

variable (rules : Rules)

/-- Code stands at a place of a rule's program. -/
def Placed (r base : Nat) (code : List Inst) : Prop :=
  code <+: (rules.getD r []).drop base

variable {rules} {r base : Nat}

theorem placed_append {a b : List Inst} :
    Placed rules r base (a ++ b)
      ↔ Placed rules r base a ∧ Placed rules r (base + a.length) b := by
  unfold Placed
  rw [← List.drop_drop]
  constructor
  · rintro ⟨rest, h⟩
    rw [← h, List.append_assoc]
    refine ⟨List.prefix_append a _, ?_⟩
    rw [List.drop_left]
    exact List.prefix_append b rest
  · rintro ⟨⟨rest, h⟩, hb⟩
    rw [← h, List.drop_left] at hb
    rw [← h]
    exact (List.prefix_append_right_inj a).2 hb

theorem placed_cons {i : Inst} {code : List Inst} :
    Placed rules r base (i :: code)
      ↔ Placed rules r base [i] ∧ Placed rules r (base + 1) code :=
  placed_append (a := [i])

theorem Placed.inst {i : Inst} {code : List Inst}
    (h : Placed rules r base (i :: code)) :
    instAt rules ⟨r, base⟩ = i := by
  obtain ⟨rest, h⟩ := h
  rw [instAt, List.getD_eq_getElem?_getD, ← Nat.add_zero base,
    ← List.getElem?_drop, ← h]
  rfl

end Placed

-- ================================ runs

section Runs

variable {rules : Rules} {root : Nat}

/-- The machine moves from a stack to another reading a string. -/
def Runs (rules : Rules) (root : Nat) (st : Stack) (s : List Nat)
    (st' : Stack) : Prop :=
  ∃ x, (stackMachine rules root).IsPath st st' x ∧ x.reduceOption = s

theorem Runs.refl (st : Stack) : Runs rules root st [] st := ⟨[], .nil st, rfl⟩

theorem Runs.trans {st st' st'' : Stack} {s t : List Nat}
    (h : Runs rules root st s st')
    (h' : Runs rules root st' t st'') : Runs rules root st (s ++ t) st'' := by
  obtain ⟨x, hx, rfl⟩ := h
  obtain ⟨y, hy, rfl⟩ := h'
  exact ⟨x ++ y, (εNFA.isPath_append _).2 ⟨st', hx, hy⟩, List.reduceOption_append x y⟩

/-- A move without input. -/
theorem Runs.move {st st' st'' : Stack} {succs : List Stack} {s : List Nat}
    (hflow : flow rules st = some succs) (hmem : st' ∈ succs)
    (h : Runs rules root st' s st'') :
    Runs rules root st s st'' := by
  obtain ⟨x, hx, rfl⟩ := h
  exact ⟨none :: x, .cons _ _ _ _ _ ⟨succs, hflow, hmem⟩ hx, rfl⟩

theorem Runs.read {st : Stack} {c : Nat} (h : (instAt rules st.top).consumes c) :
    Runs rules root st [c] st.advance := by
  refine ⟨[some c], .cons _ _ _ _ _ ⟨?_, ?_⟩ (.nil _), rfl⟩
  · rw [flow]
    cases hinst : instAt rules st.top with
    | cp _ | cls _ _ | any => rfl
    | split _ _ | jump _ | call _ | ret =>
        rw [hinst] at h
        cases h
  · rw [Stack.read, if_pos h]

end Runs

end Minfer.Gbnf
