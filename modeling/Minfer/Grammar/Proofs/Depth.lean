/-
The bound on the call stack (`MAX_STACK_DEPTH`).

A call leaves a frame behind even when nothing is left to do there, so the
stacks of a rule that ends with itself grow with every item read. What the
bound refuses is therefore not left recursion but depth: a sentence is read
without that error as long as no parse of a part of it is inside more than 256
rules at once (`depth_limit`), whatever the rules have consumed.
-/
import Minfer.Grammar.Proofs.Complete
import Minfer.Grammar.Proofs.Simulate

namespace Minfer.Gbnf

open Minfer.Lib
open Minfer.Tokenize (Text)
open Relation (ReflTransGen)

section Closure

variable {rules : Rules} {root : Nat}

-- ============================ closures

/-- A closure that ends has seen no stack that is too deep. -/
theorem shallow_of_close {input out : List Stack}
    (h : close rules input = .ok out) {st₀ st : Stack}
    (hst₀ : st₀ ∈ input) (hpath : ReflTransGen (Succ (flow rules)) st₀ st) :
    st.depth ≤ maxStackDepth := by
  unfold close at h
  cases hexplore :
      explore (flow rules) (fun st => st.depth ≤ maxStackDepth) maxClosureSteps
      input.reverse [] [] with
  | error e =>
      rw [hexplore] at h
      cases h
  | ok found =>
      have hfits := fits_of_explore (Explored.start input.reverse) (by simp) hexplore
        (List.mem_reverse.2 hst₀) hpath
      simpa using hfits

/-- A closure that reports the bound has seen a stack that is too deep. -/
theorem deep_of_close {input : List Stack}
    (h : close rules input = .error (.overrun .size)) :
    ∃ st₀ ∈ input, ∃ st, ReflTransGen (Succ (flow rules)) st₀ st
      ∧ maxStackDepth < st.depth := by
  unfold close at h
  cases hexplore :
      explore (flow rules) (fun st => st.depth ≤ maxStackDepth) maxClosureSteps
      input.reverse [] [] with
  | error e =>
      rw [hexplore] at h
      cases h
      obtain ⟨st₀, hst₀, st, hpath, hfits⟩ :=
        reach_of_size (Explored.start input.reverse) hexplore
      exact ⟨st₀, List.mem_reverse.1 hst₀, st, hpath, by simpa using hfits⟩
  | ok found =>
      rw [hexplore] at h
      simp only at h
      split at h
      · cases h
      · cases h

variable {live : List Stack} {word : List Nat}

/-- What a step that does not fail, and one that reports the bound, say of the
stacks that can be reached. -/
theorem shallow_of_step {live' : List Stack} {c : Nat}
    (hlive : Live (stackMachine rules root) (flow rules) word live)
    (h : step rules live c = .ok live') {st : Stack}
    (hst : st ∈ (stackMachine rules root).eval (word ++ [c])) :
    st.depth ≤ maxStackDepth := by
  obtain ⟨st₀, hst₀, hpath⟩ := hlive.reached.2 hst
  rw [step_eq] at h
  split at h
  · cases h
  · cases hclose : close rules (live.filterMap (Stack.read rules · c)) with
    | ok out => exact shallow_of_close hclose hst₀ hpath
    | error e =>
        rw [hclose] at h
        cases h

theorem deep_of_step {c : Nat}
    (hlive : Live (stackMachine rules root) (flow rules) word live)
    (h : step rules live c = .error (.close (.overrun .size))) :
    ∃ st ∈ (stackMachine rules root).eval (word ++ [c]),
      maxStackDepth < st.depth := by
  rw [step_eq] at h
  split at h
  · cases h
  · cases hclose : close rules (live.filterMap (Stack.read rules · c)) with
    | ok out =>
        rw [hclose] at h
        cases h
    | error e =>
        rw [hclose] at h
        cases h
        obtain ⟨st₀, hst₀, st, hpath, hdeep⟩ := deep_of_close hclose
        exact ⟨st, hlive.reached.1 ⟨st₀, hst₀, hpath⟩, hdeep⟩

-- ================================ runs

/-- The stacks of a run that goes on to the end. -/
theorem shallow_of_run {live' : List Stack} {cps : List Nat}
    (hlive : Live (stackMachine rules root) (flow rules) word live)
    (hword : ∀ st ∈ (stackMachine rules root).eval word,
      st.depth ≤ maxStackDepth) (h : run rules live cps = .ok live')
    {before : List Nat} (hbefore : before <+: cps) :
    ∀ st ∈ (stackMachine rules root).eval (word ++ before),
      st.depth ≤ maxStackDepth := by
  induction cps generalizing live word before with
  | nil =>
      rw [List.prefix_nil.1 hbefore, List.append_nil]
      exact hword
  | cons c cps ih =>
      rw [run, List.foldlM_cons] at h
      obtain ⟨next, hstep, hrun⟩ := bind_eq_ok.1 h
      cases before with
      | nil =>
          rw [List.append_nil]
          exact hword
      | cons d before =>
          obtain ⟨rfl, hrest⟩ := List.cons_prefix_cons.1 hbefore
          rw [List.append_cons]
          exact ih (hlive.concat (mem_step hstep))
            (fun st => shallow_of_step hlive hstep) hrun hrest

/-- A run that reports the bound. -/
theorem deep_of_run {cps : List Nat}
    (hlive : Live (stackMachine rules root) (flow rules) word live)
    (h : run rules live cps = .error (.close (.overrun .size))) :
    ∃ before, before <+: cps
      ∧ ∃ st ∈ (stackMachine rules root).eval (word ++ before),
        maxStackDepth < st.depth := by
  induction cps generalizing live word with
  | nil => cases h
  | cons c cps ih =>
      rw [run, List.foldlM_cons] at h
      cases hstep : step rules live c with
      | error e =>
          rw [hstep] at h
          cases h
          exact ⟨[c], ⟨cps, rfl⟩, deep_of_step hlive hstep⟩
      | ok next =>
          rw [hstep] at h
          obtain ⟨before, hbefore, hdeep⟩ := ih (hlive.concat (mem_step hstep)) h
          refine ⟨c :: before, List.cons_prefix_cons.2 ⟨rfl, hbefore⟩, ?_⟩
          rwa [List.append_cons]

/-- The initial closure, then `step` for one codepoint after another. -/
def runFrom (rules : Rules) (root : Nat) (cps : List Nat) :
    Except StepError (List Stack) :=
  match close rules [⟨⟨root, 0⟩, []⟩] with
  | .error e => .error (.close e)
  | .ok live => run rules live cps

theorem mem_eval_iff {st : Stack} :
    st ∈ (stackMachine rules root).eval word
      ↔ Runs rules root ⟨⟨root, 0⟩, []⟩ word st := by
  rw [show (stackMachine rules root).eval word
    = (stackMachine rules root).evalFrom {⟨⟨root, 0⟩, []⟩} word from rfl,
    εNFA.mem_evalFrom_iff_exists_path]
  exact exists_congr fun x => and_comm

end Closure

-- =========================== sentences

/-- No parse of a part of the string from its start is inside more rules than
the stack may hold frames. -/
def Shallow (grammar : List (Text × Node)) (cps : List Nat) : Prop :=
  ∀ before k, before <+: cps → Opens grammar (.ref "root".toList) before k →
    k ≤ maxStackDepth

/-- A grammar that is accepted, as it was parsed and compiled. -/
theorem compiled_of_compileGbnf {fuel : Nat} {source : Text}
    {program : Program} (h : compileGbnf fuel source = .ok program) :
    ∃ grammar, parse fuel source = .ok grammar
      ∧ Compiled grammar program.rules
      ∧ idOf (grammar.map (·.1)) "root".toList = some program.root := by
  obtain ⟨grammar, hparse, hnames, hroot, hrules⟩ := compileGbnf_eq_ok h
  rw [hnames] at hroot hrules
  exact ⟨grammar, hparse, ⟨hrules, parse_legal hparse⟩, hroot⟩

variable {grammar : List (Text × Node)} {rules : Rules} {root : Nat} {cps : List Nat}

/-- The stacks that can be reached on the parts of a string are shallow when
its parses are. -/
theorem shallow_iff (h : Compiled grammar rules)
    (hroot : idOf (grammar.map (·.1)) "root".toList = some root) :
    Shallow grammar cps ↔
      ∀ before, before <+: cps → ∀ st ∈ (stackMachine rules root).eval before,
        st.depth ≤ maxStackDepth := by
  simp only [mem_eval_iff]
  constructor
  · intro hshallow before hbefore st hst
    exact hshallow before st.depth hbefore ((reach_iff h hroot).1 ⟨st, rfl, hst⟩)
  · intro hall before k hbefore hk
    match k with
    | 0 => exact Nat.zero_le _
    | k + 1 =>
        obtain ⟨st, hdepth, hst⟩ := (reach_iff h hroot).2 hk
        rw [← hdepth]
        exact hall before hbefore st hst

theorem runFrom_of_shallow (h : Compiled grammar rules)
    (hroot : idOf (grammar.map (·.1)) "root".toList = some root)
    (hshallow : Shallow grammar cps) :
    runFrom rules root cps ≠ .error (.close (.overrun .size)) := by
  rw [shallow_iff h hroot] at hshallow
  intro hrun
  unfold runFrom at hrun
  cases hclose : close rules [⟨⟨root, 0⟩, []⟩] with
  | error e =>
      rw [hclose] at hrun
      cases hrun
      obtain ⟨st₀, hst₀, st, hpath, hdeep⟩ := deep_of_close hclose
      have hle := hshallow [] List.nil_prefix st (reached_nil.1 ⟨st₀, hst₀, hpath⟩)
      omega
  | ok live =>
      rw [hclose] at hrun
      obtain ⟨before, hbefore, st, hst, hdeep⟩ :=
        deep_of_run (live_initial hclose) hrun
      have hle := hshallow before hbefore st hst
      omega

theorem shallow_of_runFrom (h : Compiled grammar rules)
    (hroot : idOf (grammar.map (·.1)) "root".toList = some root) {live : List Stack}
    (hrun : runFrom rules root cps = .ok live) : Shallow grammar cps := by
  rw [shallow_iff h hroot]
  unfold runFrom at hrun
  cases hclose : close rules [⟨⟨root, 0⟩, []⟩] with
  | error e =>
      rw [hclose] at hrun
      cases hrun
  | ok first =>
      rw [hclose] at hrun
      intro before hbefore
      refine shallow_of_run (live_initial hclose) ?_ hrun hbefore
      intro st hst
      obtain ⟨st₀, hst₀, hpath⟩ := reached_nil.2 hst
      exact shallow_of_close hclose hst₀ hpath

/-- A sentence leads into no dead end. -/
theorem runFrom_of_derives (h : Compiled grammar rules)
    (hroot : idOf (grammar.map (·.1)) "root".toList = some root)
    (hcps : Derives grammar (.ref "root".toList) cps) (c : Nat) :
    runFrom rules root cps ≠ .error (.deadEnd c) := by
  intro hrun
  unfold runFrom at hrun
  cases hclose : close rules [⟨⟨root, 0⟩, []⟩] with
  | error e =>
      rw [hclose] at hrun
      cases hrun
  | ok live =>
      rw [hclose] at hrun
      have hnot := notMem_of_deadEnd (live_initial hclose) hrun
      rw [List.nil_append] at hnot
      exact hnot ((accepts_iff h hroot).2 hcps)

/-- Reading a sentence meets the bound on the stack when a parse of a part of
it is inside more than 256 rules, and only then: what the rules consume does
not matter. The first half asks nothing else of the sentence; for the converse
the other two limits must not refuse it first. -/
theorem depth_limit {fuel : Nat} {source : Text} {program : Program}
    (h : compileGbnf fuel source = .ok program) :
    ∃ grammar, parse fuel source = .ok grammar
      ∧ ∀ cps, Derives grammar (.ref "root".toList) cps →
      (Shallow grammar cps →
        runFrom program.rules program.root cps ≠ .error (.close (.overrun .size)))
      ∧ ((∀ e, runFrom program.rules program.root cps = .error (.close e) →
        e = .overrun .size) →
        (runFrom program.rules program.root cps ≠ .error (.close (.overrun .size))
          ↔ Shallow grammar cps)) := by
  obtain ⟨grammar, hparse, hcompiled, hroot⟩ := compiled_of_compileGbnf h
  refine ⟨grammar, hparse, fun cps hcps => ?_⟩
  have hsound : Shallow grammar cps →
      runFrom program.rules program.root cps ≠ .error (.close (.overrun .size)) :=
    runFrom_of_shallow hcompiled hroot
  refine ⟨hsound, fun hother => ⟨fun hnot => ?_, hsound⟩⟩
  cases hrun : runFrom program.rules program.root cps with
  | ok live => exact shallow_of_runFrom hcompiled hroot hrun
  | error e =>
      match e with
      | .deadEnd c => exact absurd hrun (runFrom_of_derives hcompiled hroot hcps c)
      | .close e =>
          rw [hother e hrun] at hrun
          exact absurd hrun hnot

-- ===================== right recursion

mutual

/-- The rules a node refers to. -/
def Node.refs : Node → List Text
  | .ref name => [name]
  | .seq items => refsOf items
  | .alt branches => refsOf branches
  | .rep inner _ _ => inner.refs
  | .str _ | .cls _ _ | .any => []

def refsOf : List Node → List Text
  | [] => []
  | node :: rest => node.refs ++ refsOf rest

end

mutual

/-- The rules a node refers to elsewhere than at its end. -/
def Node.innerRefs : Node → List Text
  | .seq items => innerRefsOfSeq items
  | .alt branches => innerRefsOf branches
  | .rep inner _ _ => inner.refs
  | .ref _ | .str _ | .cls _ _ | .any => []

def innerRefsOf : List Node → List Text
  | [] => []
  | node :: rest => node.innerRefs ++ innerRefsOf rest

def innerRefsOfSeq : List Node → List Text
  | [] => []
  | [node] => node.innerRefs
  | node :: rest => node.refs ++ innerRefsOfSeq rest

end

/-- A rule leads to another through references. -/
def Leads (grammar : List (Text × Node)) : Text → Text → Prop :=
  ReflTransGen fun name name' => ∃ body, bodyOf grammar name = some body
    ∧ name' ∈ body.refs

/-- Every recursive reference is at the end of its rule. -/
def RightRecursive (grammar : List (Text × Node)) : Prop :=
  ∀ rule ∈ grammar, ∀ name ∈ rule.2.innerRefs, ¬ Leads grammar name rule.1

/-- `root ::= "a" root | "b"`. -/
def chained : List (Text × Node) :=
  [("root".toList, .alt [.seq [.str [0x61], .ref "root".toList], .str [0x62]])]

/-- Its program. -/
def chainedProgram : Program :=
  ⟨[[.split 1 4, .cp 0x61, .call 0, .jump 5, .cp 0x62, .ret]], ["root".toList], 0⟩

theorem chained_parses :
    parse 40 "root ::= \"a\" root | \"b\"".toList = .ok chained := by
  decide +kernel

theorem chained_compiles :
    compileGbnf 40 "root ::= \"a\" root | \"b\"".toList = .ok chainedProgram := by
  decide +kernel

theorem derives_chained (n : Nat) :
    Derives chained (.ref "root".toList) (List.replicate n 0x61 ++ [0x62]) := by
  induction n with
  | zero =>
      exact .ref rfl (.alt (List.mem_cons_of_mem _ (List.mem_singleton_self _))
        (.str [0x62]))
  | succ n ih =>
      refine .ref rfl (.alt List.mem_cons_self ?_)
      have hseq : Derives chained (.seq [.ref "root".toList])
          (List.replicate n 0x61 ++ [0x62] ++ []) :=
        .seqCons ih .seqNil
      rw [List.append_nil] at hseq
      exact .seqCons (s := [0x61]) (.str [0x61]) hseq

/-- The stack of the `n`-th item, at one of its places. -/
def nested (n pc : Nat) : Stack := ⟨⟨0, pc⟩, List.replicate n ⟨0, 3⟩⟩

theorem framesLe_nested (n pc pc' : Nat) :
    framesLe (nested n pc).frames (nested n pc').frames = decide (pc ≤ pc') := by
  simp only [nested, Stack.frames, List.reverse_cons, List.reverse_replicate]
  induction n with
  | zero =>
      simp only [List.replicate_zero, List.nil_append, framesLe, Nat.lt_irrefl,
        if_false]
      split_ifs
      all_goals simp
      all_goals omega
  | succ n ih =>
      rw [List.replicate_succ, List.cons_append, List.cons_append, framesLe]
      simpa using ih

theorem explore_chained (n fuel : Nat) (hn : n + 1 ≤ maxStackDepth) :
    explore (flow chainedProgram.rules) (fun st => st.depth ≤ maxStackDepth)
      (fuel + 5) [nested n 2]
      [] [] = if n + 2 ≤ maxStackDepth then .ok [nested (n + 1) 4, nested (n + 1) 1]
        else .error .size := by
  have hcall : flow chainedProgram.rules (nested n 2) = some [nested (n + 1) 0] := rfl
  have hsplit : flow chainedProgram.rules (nested (n + 1) 0)
      = some [nested (n + 1) 4, nested (n + 1) 1] := rfl
  have hwait : flow chainedProgram.rules (nested (n + 1) 4) = none
      ∧ flow chainedProgram.rules (nested (n + 1) 1) = none := ⟨rfl, rfl⟩
  have hdepth (k pc : Nat) : (nested k pc).depth = k + 1 := by
    simp [nested, Stack.depth]
  have hne {k pc k' pc' : Nat} (h : pc ≠ pc') : nested k pc ≠ nested k' pc' := by
    intro heq
    exact h (congrArg (·.top.pc) heq)
  split
  next hle =>
    simp [explore, hcall, hsplit, hwait, hdepth, hne, hn, hle]
  next hle =>
    simp [explore, hcall, hdepth, hne, hn, hle]

theorem close_chained {n : Nat} (h : n + 2 ≤ maxStackDepth) :
    close chainedProgram.rules [nested n 2]
      = .ok [nested (n + 1) 1, nested (n + 1) 4] := by
  have hexplore := explore_chained n 65531 (by omega)
  rw [if_pos h] at hexplore
  have hsort : sortStacks [nested (n + 1) 4, nested (n + 1) 1]
      = [nested (n + 1) 1, nested (n + 1) 4] := by
    simp [sortStacks, framesLe_nested]
  have hne : nested (n + 1) 1 ≠ nested (n + 1) 4 := by simp [nested]
  simp only [close, List.reverse_singleton]
  rw [show maxClosureSteps = 65531 + 5 from rfl, hexplore]
  simp only [hsort, dedup, if_neg hne]
  rfl

theorem close_chained_deep :
    close chainedProgram.rules [nested 255 2] = .error (.overrun .size) := by
  have hexplore := explore_chained 255 65531 (by decide)
  rw [if_neg (by decide)] at hexplore
  simp only [close, List.reverse_singleton]
  rw [show maxClosureSteps = 65531 + 5 from rfl, hexplore]

theorem step_chained (n : Nat) :
    step chainedProgram.rules [nested n 1, nested n 4] 0x61
      = (close chainedProgram.rules [nested n 2]).mapError .close := by
  have hread : [nested n 1, nested n 4].filterMap
      (Stack.read chainedProgram.rules · 0x61)
      = [nested n 2] := rfl
  rw [step_eq, hread, if_neg (List.cons_ne_nil _ _)]

theorem run_chained {n : Nat} (hn : n + 1 ≤ maxStackDepth) (rest : List Nat) :
    run chainedProgram.rules [nested 0 1, nested 0 4] (List.replicate n 0x61 ++ rest)
      = run chainedProgram.rules [nested n 1, nested n 4] rest := by
  induction n generalizing rest with
  | zero => rfl
  | succ n ih =>
      rw [List.replicate_succ', List.append_assoc, ih (by omega),
        List.singleton_append, run,
        List.foldlM_cons, step_chained, close_chained hn]
      rfl

/-- A sentence that is read to its end has no deep parse: here four uses of
the recursion. -/
theorem depth_limit_chained :
    Shallow chained [0x61, 0x61, 0x61, 0x61, 0x62] := by
  obtain ⟨grammar, hparse, hall⟩ := depth_limit chained_compiles
  rw [chained_parses] at hparse
  cases hparse
  have hrun : runFrom chainedProgram.rules chainedProgram.root
      [0x61, 0x61, 0x61, 0x61, 0x62] = .ok [⟨⟨0, 5⟩, []⟩] := by decide +kernel
  apply ((hall _ (derives_chained 4)).2 ?_).1
  · simp [hrun]
  · simp [hrun]

/-- The 256th use of a right recursion is refused as left recursion. -/
theorem right_recursion_refused :
    compileGbnf 40 "root ::= \"a\" root | \"b\"".toList = .ok chainedProgram
    ∧ parse 40 "root ::= \"a\" root | \"b\"".toList = .ok chained
    ∧ RightRecursive chained
    ∧ Derives chained (.ref "root".toList) (List.replicate 256 0x61 ++ [0x62])
    ∧ runFrom chainedProgram.rules chainedProgram.root
      (List.replicate 256 0x61 ++ [0x62])
      = .error (.close (.overrun .size)) := by
  refine ⟨chained_compiles, chained_parses, ?_, derives_chained 256, ?_⟩
  · simp [RightRecursive, chained, Node.innerRefs, innerRefsOf, innerRefsOfSeq,
      Node.refs]
  · have hclose : close chainedProgram.rules [⟨⟨0, 0⟩, []⟩]
        = .ok [nested 0 1, nested 0 4] := by
      decide +kernel
    rw [runFrom, show chainedProgram.root = 0 from rfl, hclose,
      List.replicate_succ', List.append_assoc]
    simp only
    rw [run_chained (by decide), List.singleton_append, run, List.foldlM_cons,
      step_chained,
      close_chained_deep]
    rfl

end Minfer.Gbnf
