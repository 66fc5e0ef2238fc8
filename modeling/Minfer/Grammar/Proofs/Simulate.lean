/-
The stacks `close` and `step` keep are the waiting states of the machine.
-/
import Minfer.Grammar.Language

namespace Minfer.Gbnf

open Minfer.Lib (Found Live mem_explore)

section Simulate

variable {rules : Rules}
variable {live : List Stack}

theorem mem_sortStacks {st : Stack} : st ∈ sortStacks live
    ↔ st ∈ live :=
  (List.perm_insertionSort _ live).mem_iff

theorem mem_dedup {st : Stack} : st ∈ dedup live
    ↔ st ∈ live := by
  induction live using dedup.induct with
  | case1 => rfl
  | case2 s => rfl
  | case3 t rest ih =>
      rw [dedup, if_pos rfl, ih]
      simp
  | case4 s t rest hne ih =>
      rw [dedup, if_neg hne, List.mem_cons, ih, List.mem_cons (l := t :: rest)]

/-- What a closure that is not refused holds. -/
theorem mem_close {input out : List Stack} (h : close rules input = .ok out)
    (st : Stack) :
    st ∈ out ↔ Found (flow rules) input st := by
  unfold close at h
  split at h
  · cases h
  next found hfound =>
    simp only at h
    split at h
    · cases h
    · cases h
      rw [mem_dedup, mem_sortStacks, mem_explore hfound, Found, Found]
      simp only [List.mem_reverse]

/-- The stacks that read a codepoint, moved on. -/
theorem next_eq_filterMap (live : List Stack) (c : Nat) :
    (live.filter fun st => (instAt rules st.top).consumes c).map Stack.advance
      = live.filterMap (Stack.read rules · c) := by
  induction live with
  | nil => rfl
  | cons st live ih =>
      rw [List.filter_cons, List.filterMap_cons, Stack.read]
      split
      · rw [List.map_cons, ih]
      · exact ih

/-- `step`, by what it moves. -/
theorem step_eq (live : List Stack) (c : Nat) :
    step rules live c =
      if live.filterMap (Stack.read rules · c) = [] then .error (.deadEnd c)
      else (close rules (live.filterMap (Stack.read rules · c))).mapError .close := by
  rw [step, next_eq_filterMap]
  split
  next h => rw [if_pos h]
  next h =>
    rw [if_neg h]
    cases close rules (live.filterMap (Stack.read rules · c)) <;> rfl

theorem mem_step {live' : List Stack} {c : Nat}
    (h : step rules live c = .ok live')
    (st : Stack) : st ∈ live' ↔ Found (flow rules)
    (live.filterMap (Stack.read rules · c)) st := by
  rw [step_eq] at h
  split at h
  · cases h
  · apply mem_close
    match hclose : close rules (live.filterMap (Stack.read rules · c)) with
    | .ok out =>
        rw [hclose] at h
        cases h
        rfl
    | .error e =>
        rw [hclose] at h
        cases h

/-- A dead end: no stack reads the codepoint. -/
theorem stuck_of_deadEnd {c d : Nat}
    (h : step rules live c = .error (.deadEnd d)) :
    ∀ st ∈ live, Stack.read rules st c = none := by
  rw [step_eq] at h
  split at h
  next hnone => exact List.filterMap_eq_nil_iff.1 hnone
  · match hclose : close rules (live.filterMap (Stack.read rules · c)) with
    | .ok out =>
        rw [hclose] at h
        cases h
    | .error e =>
        rw [hclose] at h
        cases h

variable {root : Nat}

/-- The stacks of a run are the waiting states its codepoints reach. -/
theorem live_run {live' : List Stack} {word cps : List Nat}
    (h : Live (stackMachine rules root) (flow rules) word live)
    (hrun : run rules live cps = .ok live') :
    Live (stackMachine rules root) (flow rules) (word ++ cps) live' := by
  induction cps generalizing live word with
  | nil =>
      cases hrun
      rwa [List.append_nil]
  | cons c cps ih =>
      rw [run, List.foldlM_cons] at hrun
      match hstep : step rules live c with
      | .error e =>
          rw [hstep] at hrun
          cases hrun
      | .ok next =>
          rw [hstep] at hrun
          rw [List.append_cons]
          exact ih (h.concat (mem_step hstep)) hrun

/-- A run into a dead end leaves no word of the machine. -/
theorem notMem_of_deadEnd {word cps : List Nat} {c : Nat}
    (h : Live (stackMachine rules root) (flow rules) word live)
    (hrun : run rules live cps = .error (.deadEnd c)) :
    word ++ cps ∉ (stackMachine rules root).accepts := by
  induction cps generalizing live word with
  | nil => cases hrun
  | cons d cps ih =>
      rw [run, List.foldlM_cons] at hrun
      match hstep : step rules live d with
      | .error e =>
          rw [hstep] at hrun
          cases hrun
          exact h.stuck (stuck_of_deadEnd hstep) cps
      | .ok next =>
          rw [hstep] at hrun
          rw [List.append_cons]
          exact ih (h.concat (mem_step hstep)) hrun

/-- The initial stacks. -/
theorem live_initial (h : close rules [⟨⟨root, 0⟩, []⟩] = .ok live) :
    Live (stackMachine rules root) (flow rules) [] live :=
  Live.nil (mem_close h)

end Simulate

end Minfer.Gbnf
