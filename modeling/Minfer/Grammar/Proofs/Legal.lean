/-
What the GBNF parser promises of the trees it makes, and what a compiled
program keeps of it.

The ranges of a class are in order and none is reversed, an alternation has a
branch, and the bounds of a repetition are in order. One induction on the
parser's fuel carries all of it (`parse_legal`).
-/
import Minfer.Grammar.Gbnf
import Minfer.Lib.Except

namespace Minfer.Gbnf

open Minfer.Lib (bind_eq_ok)
open Minfer.Tokenize (Text)

-- ============================= classes

/-- Sorted ranges, none of them empty. -/
structure Ordered (ranges : Ranges) : Prop where
  sorted : ranges.Pairwise (·.1 ≤ ·.1)
  filled : ∀ r ∈ ranges, r.1 ≤ r.2

variable {ranges : Ranges} {rest text : Text} {fuel : Nat} {node : Node}

/-- Sorting keeps the ranges. -/
theorem mem_sortRanges {r : Nat × Nat} :
    r ∈ sortRanges ranges ↔ r ∈ ranges :=
  (List.perm_insertionSort _ ranges).mem_iff

/-- The ranges come out in order of their lower ends. -/
theorem sorted_sortRanges (ranges : Ranges) : (sortRanges ranges).Pairwise
    (·.1 ≤ ·.1) := by
  let le (r s : Nat × Nat) : Prop := r.1 < s.1 ∨ (r.1 = s.1 ∧ r.2 ≤ s.2)
  have htotal : Std.Total le := ⟨fun r s => by simp only [le]; omega⟩
  have htrans : IsTrans (Nat × Nat) le := ⟨fun r s t => by simp only [le]; omega⟩
  have hsorted : (sortRanges ranges).Pairwise le :=
    List.pairwise_insertionSort le ranges
  apply hsorted.imp
  intro r s h
  simp only [le] at h
  omega

variable {ranges' : Ranges} {source : Text}

/-- A range that is pushed is not empty: the bounds were compared. -/
theorem filled_pushRange {lo hi : Nat} (h : ∀ r ∈ ranges, r.1 ≤ r.2)
    (hpush : pushRange ranges lo hi = .ok ranges') : ∀ r ∈ ranges', r.1 ≤ r.2 := by
  unfold pushRange at hpush
  split at hpush
  · cases hpush
  next hle =>
    cases hpush
    simp only [List.mem_append, List.mem_singleton]
    rintro r (hr | rfl)
    · exact h r hr
    · exact Nat.le_of_not_lt hle

/-- Neither is one read from a class item. -/
theorem filled_pushClassItem {lo : Nat} (h : ∀ r ∈ ranges, r.1 ≤ r.2)
    (hpush : pushClassItem ranges lo text = .ok (ranges', rest)) :
    ∀ r ∈ ranges', r.1 ≤ r.2 := by
  unfold pushClassItem at hpush
  split at hpush
  · split at hpush
    · cases hpush
      simp only [List.mem_append, List.mem_cons, List.not_mem_nil, or_false]
      rintro r (hr | rfl | rfl)
      · exact h r hr
      · exact Nat.le_refl _
      · exact Nat.le_refl _
    · cases hpush
      simp only [List.mem_append, List.mem_cons, List.not_mem_nil, or_false]
      rintro r (hr | rfl | rfl)
      · exact h r hr
      · exact Nat.le_refl _
      · exact Nat.le_refl _
    · obtain ⟨⟨hi, _⟩, -, hpush⟩ := bind_eq_ok.1 hpush
      obtain ⟨pushed, hranges, hpush⟩ := bind_eq_ok.1 hpush
      cases hpush
      exact filled_pushRange h hranges
    · obtain ⟨pushed, hranges, hpush⟩ := bind_eq_ok.1 hpush
      cases hpush
      exact filled_pushRange h hranges
  · cases hpush
    simp only [List.mem_append, List.mem_singleton]
    rintro r (hr | rfl)
    · exact h r hr
    · exact Nat.le_refl _

/-- The ranges of a shorthand such as `\d` are not empty. -/
theorem filled_shorthand {c : Char} {short : Ranges}
    (h : shorthandRanges c = some short) :
    ∀ r ∈ short, r.1 ≤ r.2 := by
  unfold shorthandRanges at h
  split at h
  all_goals
    cases h
    try decide

/-- Nor are they when the shorthand stands in a class. -/
theorem filled_classShorthand {short : Ranges}
    (h : classShorthand text = .ok (some (short, rest))) :
    ∀ r ∈ short, r.1 ≤ r.2 := by
  unfold classShorthand at h
  split at h
  · cases h
  · split at h
    · cases h
    next hshort =>
      split at h
      · rw [hshort] at h
        cases h
        exact filled_shorthand hshort
      · cases h
    next hshort _ =>
      cases h
      exact filled_shorthand hshort

/-- A whole class adds no empty range. -/
theorem filled_classLoop (h : ∀ r ∈ ranges, r.1 ≤ r.2)
    (hloop : classLoop fuel ranges text = .ok (ranges', rest)) :
    ∀ r ∈ ranges', r.1 ≤ r.2 := by
  induction fuel generalizing ranges text with
  | zero => cases hloop
  | succ fuel ih =>
      unfold classLoop at hloop
      split at hloop
      · cases hloop
      · cases hloop
        exact h
      · obtain ⟨short, hshort, hloop⟩ := bind_eq_ok.1 hloop
        match short with
        | some (short, _) =>
            apply ih _ hloop
            simp only [List.mem_append]
            rintro r (hr | hr)
            · exact h r hr
            · exact filled_classShorthand hshort r hr
        | none =>
            obtain ⟨⟨lo, _⟩, -, hloop⟩ := bind_eq_ok.1 hloop
            obtain ⟨⟨pushed, _⟩, hpush, hloop⟩ := bind_eq_ok.1 hloop
            exact ih (filled_pushClassItem h hpush) hloop
      · obtain ⟨⟨pushed, _⟩, hpush, hloop⟩ := bind_eq_ok.1 hloop
        exact ih (filled_pushClassItem h hpush) hloop

-- =============================== nodes

/-- A tree the parser makes. -/
inductive Node.Legal : Node → Prop where
  | str (cps : List Nat) : Legal (.str cps)
  | cls (negated : Bool) {ranges : Ranges} (h : Ordered ranges) :
      Legal (.cls negated ranges)
  | any : Legal .any
  | seq {items : List Node} (h : ∀ node ∈ items, Legal node) : Legal (.seq items)
  | alt {branches : List Node} (hne : branches ≠ [])
      (h : ∀ node ∈ branches, Legal node) :
      Legal (.alt branches)
  | rep {inner : Node} {m : Nat} {n : Option Nat} (h : Legal inner)
      (hn : ∀ total, n = some total → m ≤ total) : Legal (.rep inner m n)
  | ref (name : Text) : Legal (.ref name)

/-- A character class that was read is legal. -/
theorem legal_charClass (h : charClass text = .ok (node, rest)) :
    node.Legal := by
  unfold charClass at h
  simp only at h
  obtain ⟨⟨ranges, _⟩, hloop, h⟩ := bind_eq_ok.1 h
  have hfilled := filled_classLoop (fun r hr => absurd hr List.not_mem_nil) hloop
  simp only at h
  split at h
  · cases h
  · cases h
    exact .cls _ ⟨sorted_sortRanges ranges, fun r hr =>
      hfilled r (mem_sortRanges.1 hr)⟩

/-- A repetition with bounds has them in order. -/
theorem legal_explicitRepetition {node' : Node} (hnode : node.Legal)
    (h : explicitRepetition node text = .ok (node', rest)) : node'.Legal := by
  obtain ⟨⟨m, _⟩, -, h⟩ := bind_eq_ok.1 h
  obtain ⟨⟨n, text⟩, -, h⟩ := bind_eq_ok.1 h
  simp only at h
  split at h
  · obtain ⟨⟨⟩, hcheck, h⟩ := bind_eq_ok.1 h
    cases h
    refine .rep hnode fun total htotal => ?_
    rw [htotal, checkBounds] at hcheck
    split at hcheck
    · cases hcheck
    · omega
  · cases h

/-- Any run of repetition marks keeps a node legal. -/
theorem legal_repetitions {node' : Node} (hnode : node.Legal)
    (h : repetitions fuel node text = .ok (node', rest)) : node'.Legal := by
  induction fuel generalizing node text with
  | zero => cases h
  | succ fuel ih =>
      unfold repetitions at h
      split at h
      · exact ih (.rep hnode fun total htotal => by cases htotal) h
      · exact ih (.rep hnode fun total htotal => by cases htotal) h
      · exact ih (.rep hnode fun total _ => Nat.zero_le total) h
      · obtain ⟨⟨repeated, _⟩, hrep, h⟩ := bind_eq_ok.1 h
        exact ih (legal_explicitRepetition hnode hrep) h
      · cases h
        exact hnode

/-- A sequence of one node is that node. -/
theorem legal_unwrap {wrap : List Node → Node} {nodes : List Node}
    (h : ∀ node ∈ nodes, node.Legal) (hwrap : (wrap nodes).Legal) :
    (unwrap wrap nodes).Legal := by
  unfold unwrap
  split
  · exact h _ List.mem_cons_self
  · exact hwrap

/-- Legal nodes and one more. -/
theorem legal_concat {nodes : List Node} {last : Node}
    (h : ∀ node ∈ nodes, node.Legal)
    (hlast : last.Legal) : ∀ node ∈ nodes ++ [last], node.Legal := by
  simp only [List.mem_append, List.mem_singleton]
  rintro node (hmem | rfl)
  · exact h node hmem
  · exact hlast

/-- What the parsers of a right-hand side return, with some fuel. -/
structure LegalAt (fuel : Nat) : Prop where
  alternation : ∀ {text node rest}, alternation fuel text = .ok (node, rest) →
    node.Legal
  moreBranches : ∀ {branches text branches' rest},
    (∀ node ∈ branches, node.Legal) → branches ≠ [] →
    moreBranches fuel branches text = .ok (branches', rest) →
    (∀ node ∈ branches', node.Legal) ∧ branches' ≠ []
  sequence : ∀ {text node rest}, sequence fuel text = .ok (node, rest) → node.Legal
  moreItems : ∀ {items text items' rest}, (∀ node ∈ items, node.Legal) →
    moreItems fuel items text = .ok (items', rest) → ∀ node ∈ items', node.Legal
  item : ∀ {text node rest}, item fuel text = .ok (node, rest) → node.Legal
  atom : ∀ {text node rest}, atom fuel text = .ok (node, rest) → node.Legal

/-- What the parser answers at any depth is legal: one case for each of its
mutually recursive readers. -/
theorem legalAt : ∀ fuel, LegalAt fuel
  | 0 => by
      constructor
      case moreBranches =>
        intro _ _ _ _ _ _ h
        cases h
      case moreItems =>
        intro _ _ _ _ _ h
        cases h
      all_goals
        intro _ _ _ h
        cases h
  | fuel + 1 => by
      have ih := legalAt fuel
      constructor
      case alternation =>
        intro text node rest h
        unfold alternation at h
        obtain ⟨⟨first, _⟩, hfirst, h⟩ := bind_eq_ok.1 h
        obtain ⟨⟨branches, _⟩, hmore, h⟩ := bind_eq_ok.1 h
        cases h
        have hfirst := ih.sequence hfirst
        obtain ⟨hall, hne⟩ :=
          ih.moreBranches (by simpa using hfirst) (List.cons_ne_nil _ _) hmore
        exact legal_unwrap hall (.alt hne hall)
      case moreBranches =>
        intro branches text branches' rest hall hne h
        unfold moreBranches at h
        split at h
        · obtain ⟨⟨branch, _⟩, hbranch, h⟩ := bind_eq_ok.1 h
          have hall := legal_concat hall (ih.sequence hbranch)
          exact ih.moreBranches hall (by simp) h
        · cases h
          exact ⟨hall, hne⟩
      case sequence =>
        intro text node rest h
        unfold sequence at h
        obtain ⟨⟨items, _⟩, hitems, h⟩ := bind_eq_ok.1 h
        cases h
        have hall :=
          ih.moreItems (fun node hnode => absurd hnode List.not_mem_nil) hitems
        exact legal_unwrap hall (.seq hall)
      case moreItems =>
        intro items text items' rest hall h
        unfold moreItems at h
        simp only at h
        split at h
        · cases h
          exact hall
        · split at h
          · cases h
            exact hall
          · cases h
            exact hall
          · cases h
            exact hall
          · obtain ⟨⟨item, _⟩, hitem, h⟩ := bind_eq_ok.1 h
            have hall := legal_concat hall (ih.item hitem)
            exact ih.moreItems hall h
      case item =>
        intro text node rest h
        unfold item at h
        obtain ⟨⟨inner, _⟩, hatom, h⟩ := bind_eq_ok.1 h
        exact legal_repetitions (ih.atom hatom) h
      case atom =>
        intro text node rest h
        unfold atom at h
        split at h
        · obtain ⟨⟨inner, _⟩, hinner, h⟩ := bind_eq_ok.1 h
          simp only at h
          split at h
          · cases h
            exact ih.alternation hinner
          · cases h
        · obtain ⟨⟨cps, _⟩, -, h⟩ := bind_eq_ok.1 h
          cases h
          exact .str cps
        · exact legal_charClass h
        · cases h
          exact .any
        · cases h
        · split at h
          · obtain ⟨⟨name, _⟩, -, h⟩ := bind_eq_ok.1 h
            cases h
            exact .ref name
          · cases h

/-- Reading a rule more keeps the rules legal. -/
theorem rulesLoop_legal {rules rules' : List (Text × Node)}
    (hall : ∀ rule ∈ rules, rule.2.Legal)
    (h : rulesLoop fuel rules text = .ok rules') :
    ∀ rule ∈ rules', rule.2.Legal := by
  induction fuel generalizing rules text with
  | zero => cases h
  | succ fuel ih =>
      unfold rulesLoop at h
      split at h
      · cases h
        exact hall
      · obtain ⟨⟨name, _⟩, -, h⟩ := bind_eq_ok.1 h
        obtain ⟨_, -, h⟩ := bind_eq_ok.1 h
        obtain ⟨⟨body, _⟩, hbody, h⟩ := bind_eq_ok.1 h
        simp only at h
        split at h
        · cases h
        · apply ih _ h
          simp only [List.mem_append, List.mem_singleton]
          rintro rule (hrule | rfl)
          · exact hall rule hrule
          · exact (legalAt fuel).alternation hbody

/-- Every rule of a grammar that is accepted. -/
theorem parse_legal {rules : List (Text × Node)}
    (h : parse fuel source = .ok rules) : ∀ rule ∈ rules, rule.2.Legal := by
  obtain ⟨parsed, hloop, h⟩ := bind_eq_ok.1 h
  split at h
  · cases h
  · obtain ⟨⟨⟩, -, h⟩ := bind_eq_ok.1 h
    cases h
    exact rulesLoop_legal (fun rule hrule => absurd hrule List.not_mem_nil) hloop

-- ============================ programs

/-- The class of an instruction, if it is one. -/
def Inst.Ordered : Inst → Prop
  | .cls _ ranges => Gbnf.Ordered ranges
  | .cp _ | .any | .split _ _ | .jump _ | .call _ | .ret => True

/-- All the code an emitter returns has its classes in order. -/
def OrderedCode (emit : Nat → Except GrammarError (List Inst)) : Prop :=
  ∀ base code, emit base = .ok code → ∀ i ∈ code, i.Ordered

/-- Code in two parts. -/
theorem ordered_append {a b : List Inst} (ha : ∀ i ∈ a, i.Ordered)
    (hb : ∀ i ∈ b, i.Ordered) :
    ∀ i ∈ a ++ b, i.Ordered := by
  intro i hi
  exact (List.mem_append.1 hi).elim (ha i) (hb i)

/-- Code with one instruction in front. -/
theorem ordered_cons {i : Inst} {code : List Inst} (hi : i.Ordered)
    (hcode : ∀ j ∈ code, j.Ordered) : ∀ j ∈ i :: code, j.Ordered :=
  List.forall_mem_cons.2 ⟨hi, hcode⟩

/-- No code. -/
theorem ordered_nil : ∀ i ∈ ([] : List Inst), i.Ordered :=
  fun _ hi => absurd hi List.not_mem_nil

/-- Code repeated a fixed number of times. -/
theorem ordered_emitTimes {emit : Nat → Except GrammarError (List Inst)}
    (h : OrderedCode emit) (k : Nat) : OrderedCode (emitTimes emit k) := by
  induction k with
  | zero =>
      intro base code hcode
      cases hcode
      exact ordered_nil
  | succ k ih =>
      intro base code hcode
      obtain ⟨first, hfirst, hcode⟩ := bind_eq_ok.1 hcode
      obtain ⟨others, hothers, hcode⟩ := bind_eq_ok.1 hcode
      cases hcode
      exact ordered_append (h _ _ hfirst) (ih _ _ hothers)

/-- Code that may be left out, some number of times. -/
theorem ordered_emitOptional {emit : Nat → Except GrammarError (List Inst)}
    (h : OrderedCode emit) (k : Nat) : OrderedCode (emitOptional emit k) := by
  induction k with
  | zero =>
      intro base code hcode
      cases hcode
      exact ordered_nil
  | succ k ih =>
      intro base code hcode
      obtain ⟨first, hfirst, hcode⟩ := bind_eq_ok.1 hcode
      obtain ⟨others, hothers, hcode⟩ := bind_eq_ok.1 hcode
      cases hcode
      exact ordered_cons trivial (ordered_append (h _ _ hfirst) (ih _ _ hothers))

variable {names : List Text}

/-- The code of a sequence. -/
theorem ordered_emitSeq {items : List Node}
    (h : ∀ node ∈ items, OrderedCode (emitNode names node)) :
    OrderedCode (emitSeq names items) := by
  induction items with
  | nil =>
      intro base code hcode
      cases hcode
      exact ordered_nil
  | cons node rest ih =>
      intro base code hcode
      obtain ⟨first, hfirst, hcode⟩ := bind_eq_ok.1 hcode
      obtain ⟨others, hothers, hcode⟩ := bind_eq_ok.1 hcode
      cases hcode
      obtain ⟨hnode, hrest⟩ := List.forall_mem_cons.1 h
      exact ordered_append (hnode _ _ hfirst) (ih hrest _ _ hothers)

/-- The code of an alternation. -/
theorem ordered_emitAlt {branches : List Node}
    (h : ∀ node ∈ branches, OrderedCode (emitNode names node)) :
    OrderedCode (emitAlt names branches) := by
  induction branches with
  | nil =>
      intro base code hcode
      cases hcode
      exact ordered_nil
  | cons node rest ih =>
      obtain ⟨hnode, hrest⟩ := List.forall_mem_cons.1 h
      match rest with
      | [] => exact hnode
      | _ :: _ =>
          intro base code hcode
          obtain ⟨first, hfirst, hcode⟩ := bind_eq_ok.1 hcode
          obtain ⟨others, hothers, hcode⟩ := bind_eq_ok.1 hcode
          cases hcode
          have hothers := ih hrest _ _ hothers
          exact ordered_cons trivial
            (ordered_append (hnode _ _ hfirst) (ordered_cons trivial hothers))

/-- The code of a legal node has only ordered ranges. -/
theorem ordered_emitNode (h : node.Legal) :
    OrderedCode (emitNode names node) := by
  induction h with
  | str cps =>
      intro base code hcode
      cases hcode
      simp [Inst.Ordered]
  | cls negated h =>
      intro base code hcode
      cases hcode
      exact ordered_cons h ordered_nil
  | any =>
      intro base code hcode
      cases hcode
      exact ordered_cons trivial ordered_nil
  | seq _ ih => exact ordered_emitSeq ih
  | alt _ _ ih => exact ordered_emitAlt ih
  | ref name =>
      intro base code hcode
      unfold emitNode at hcode
      split at hcode
      · cases hcode
        exact ordered_cons trivial ordered_nil
      · cases hcode
  | @rep inner m n _ _ ih =>
      intro base code hcode
      unfold emitNode at hcode
      obtain ⟨head, hhead, hcode⟩ := bind_eq_ok.1 hcode
      have hhead := ordered_emitTimes ih m _ _ hhead
      match n with
      | none =>
          obtain ⟨body, hbody, hcode⟩ := bind_eq_ok.1 hcode
          cases hcode
          exact ordered_append
            (ordered_append hhead (ordered_cons trivial (ih _ _ hbody)))
            (ordered_cons trivial ordered_nil)
      | some total =>
          obtain ⟨others, hothers, hcode⟩ := bind_eq_ok.1 hcode
          cases hcode
          exact ordered_append hhead (ordered_emitOptional ih (total - m) _ _ hothers)

/-- So has every program of a legal grammar. -/
theorem ordered_compileRules {parsed : List (Text × Node)} {rules : Rules}
    (hlegal : ∀ rule ∈ parsed, rule.2.Legal)
    (h : compileRules names parsed = .ok rules) :
    ∀ prog ∈ rules, ∀ i ∈ prog, i.Ordered := by
  induction parsed generalizing rules with
  | nil =>
      cases h
      exact fun prog hprog => absurd hprog List.not_mem_nil
  | cons rule parsed ih =>
      obtain ⟨prog, hprog, h⟩ := bind_eq_ok.1 h
      obtain ⟨others, hothers, h⟩ := bind_eq_ok.1 h
      cases h
      obtain ⟨hrule, hparsed⟩ := List.forall_mem_cons.1 hlegal
      refine List.forall_mem_cons.2 ⟨?_, ih hparsed hothers⟩
      obtain ⟨code, hcode, hprog⟩ := bind_eq_ok.1 hprog
      split at hprog
      · cases hprog
        exact ordered_append (ordered_emitNode hrule _ _ hcode)
          (ordered_cons trivial ordered_nil)
      · cases hprog

/-- What `from_gbnf` goes through. -/
theorem compileGbnf_eq_ok {program : Program}
    (h : compileGbnf fuel source = .ok program) :
    ∃ parsed, parse fuel source = .ok parsed
      ∧ program.names = parsed.map (·.1)
      ∧ idOf program.names "root".toList = some program.root
      ∧ compileRules program.names parsed = .ok program.rules := by
  obtain ⟨parsed, hparsed, h⟩ := bind_eq_ok.1 h
  simp only at h
  split at h
  · cases h
  next root hroot =>
    obtain ⟨rules, hrules, h⟩ := bind_eq_ok.1 h
    obtain ⟨⟨⟩, -, h⟩ := bind_eq_ok.1 h
    cases h
    exact ⟨parsed, hparsed, rfl, hroot, hrules⟩

/-- Every instruction of a grammar that is accepted. -/
theorem ordered_instAt {program : Program}
    (h : compileGbnf fuel source = .ok program) (f : Frame) :
    (instAt program.rules f).Ordered := by
  obtain ⟨parsed, hparsed, -, -, hrules⟩ := compileGbnf_eq_ok h
  have hall := ordered_compileRules (parse_legal hparsed) hrules
  unfold instAt
  simp only [List.getD_eq_getElem?_getD]
  match hprog : program.rules[f.rule]? with
  | none => trivial
  | some prog =>
      match hi : prog[f.pc]? with
      | none => simp [Inst.Ordered]
      | some i =>
          simp only [Option.getD_some]
          exact hall prog (List.mem_of_getElem? hprog) i (List.mem_of_getElem? hi)

end Minfer.Gbnf
