/-
What a grammar means: the codepoint strings each syntax tree derives, and the
machine that runs over the call stacks of its compiled programs.
-/
import Minfer.Grammar.Gbnf
import Minfer.Lib.Machine

namespace Minfer.Gbnf

open Minfer.Lib (machine)
open Minfer.Tokenize (Text)

-- =========================== languages

/-- The body of a rule. -/
def bodyOf (grammar : List (Text × Node)) (name : Text) : Option Node :=
  (grammar.find? (·.1 = name)).map (·.2)

/-- The codepoint strings of a node. -/
inductive Derives (grammar : List (Text × Node)) : Node → List Nat → Prop where
  | str (cps : List Nat) : Derives grammar (.str cps) cps
  | cls {negated : Bool} {ranges : Ranges} {c : Nat}
      (h : inRanges ranges c ≠ negated) :
      Derives grammar (.cls negated ranges) [c]
  | any (c : Nat) : Derives grammar .any [c]
  | seqNil : Derives grammar (.seq []) []
  | seqCons {item : Node} {items : List Node} {s t : List Nat}
      (head : Derives grammar item s)
      (tail : Derives grammar (.seq items) t) :
        Derives grammar (.seq (item :: items)) (s ++ t)
  | alt {branch : Node} {branches : List Node} {s : List Nat}
      (mem : branch ∈ branches)
      (h : Derives grammar branch s) : Derives grammar (.alt branches) s
  | rep {inner : Node} {m : Nat} {n : Option Nat} {words : List (List Nat)}
      (each : ∀ w ∈ words, Derives grammar inner w) (least : m ≤ words.length)
      (most : ∀ total, n = some total → words.length ≤ total) :
      Derives grammar (.rep inner m n) words.flatten
  | ref {name : Text} {body : Node} {s : List Nat}
      (hbody : bodyOf grammar name = some body)
      (h : Derives grammar body s) : Derives grammar (.ref name) s

/-- The strings a parse of a node has read when it is somewhere inside the
node, and how many rules it has entered there and not left. -/
inductive Opens (grammar : List (Text × Node)) : Node → List Nat → Nat → Prop where
  | start (node : Node) : Opens grammar node [] 0
  | done {node : Node} {s : List Nat} (h : Derives grammar node s) :
      Opens grammar node s 0
  | str (cps : List Nat) (i : Nat) : Opens grammar (.str cps) (cps.take i) 0
  | seqHead {item : Node} {items : List Node} {s : List Nat} {k : Nat}
      (h : Opens grammar item s k) : Opens grammar (.seq (item :: items)) s k
  | seqTail {item : Node} {items : List Node} {s t : List Nat} {k : Nat}
      (head : Derives grammar item s) (h : Opens grammar (.seq items) t k) :
      Opens grammar (.seq (item :: items)) (s ++ t) k
  | alt {branch : Node} {branches : List Node} {s : List Nat} {k : Nat}
      (mem : branch ∈ branches)
      (h : Opens grammar branch s k) : Opens grammar (.alt branches) s k
  | rep {inner : Node} {m : Nat} {n : Option Nat} {words : List (List Nat)}
      {t : List Nat} {k : Nat}
      (each : ∀ w ∈ words, Derives grammar inner w)
      (most : ∀ total, n = some total → words.length < total)
        (h : Opens grammar inner t k) :
      Opens grammar (.rep inner m n) (words.flatten ++ t) k
  | ref {name : Text} {body : Node} {s : List Nat} {k : Nat}
      (hbody : bodyOf grammar name = some body) (h : Opens grammar body s k) :
      Opens grammar (.ref name) s (k + 1)

/-- The texts of a grammar. -/
def language (grammar : List (Text × Node)) : Set (List Char) :=
  {text | Derives grammar (.ref "root".toList) (text.map Char.toNat)}

-- ========================= well formed

mutual

/-- What the parser promises of a node: an alternation has a branch, and the
bounds of a repetition are in order. -/
def Node.WellFormed : Node → Prop
  | .str _ | .cls _ _ | .any | .ref _ => True
  | .seq items => AllWellFormed items
  | .alt branches => branches ≠ [] ∧ AllWellFormed branches
  | .rep inner m n => inner.WellFormed ∧ ∀ total, n = some total → m ≤ total

def AllWellFormed : List Node → Prop
  | [] => True
  | node :: rest => node.WellFormed ∧ AllWellFormed rest

end

mutual

/-- Induction on a node, with its parts at hand. -/
theorem Node.induct {P : Node → Prop} (hstr : ∀ cps, P (.str cps))
    (hcls : ∀ negated ranges, P (.cls negated ranges)) (hany : P .any)
    (hseq : ∀ items, (∀ node ∈ items, P node) → P (.seq items))
    (halt : ∀ branches, (∀ node ∈ branches, P node) → P (.alt branches))
    (hrep : ∀ inner m n, P inner → P (.rep inner m n))
    (href : ∀ name, P (.ref name)) :
    ∀ node, P node
  | .str cps => hstr cps
  | .cls negated ranges => hcls negated ranges
  | .any => hany
  | .seq items => hseq items (Node.inductAll hstr hcls hany hseq halt hrep href items)
  | .alt branches =>
      halt branches
        (Node.inductAll hstr hcls hany hseq halt hrep href branches)
  | .rep inner m n =>
      hrep inner m n (Node.induct hstr hcls hany hseq halt hrep href inner)
  | .ref name => href name

theorem Node.inductAll {P : Node → Prop} (hstr : ∀ cps, P (.str cps))
    (hcls : ∀ negated ranges, P (.cls negated ranges)) (hany : P .any)
    (hseq : ∀ items, (∀ node ∈ items, P node) → P (.seq items))
    (halt : ∀ branches, (∀ node ∈ branches, P node) → P (.alt branches))
    (hrep : ∀ inner m n, P inner → P (.rep inner m n))
    (href : ∀ name, P (.ref name)) :
    ∀ nodes : List Node, ∀ node ∈ nodes, P node
  | [] => fun _ h => absurd h List.not_mem_nil
  | first :: rest =>
      List.forall_mem_cons.2 ⟨Node.induct hstr hcls hany hseq halt hrep href first,
        Node.inductAll hstr hcls hany hseq halt hrep href rest⟩

end

-- ============================= machine

section StackMachine

variable (rules : Rules)

/-- The stack after a codepoint. -/
def Stack.read (st : Stack) (c : Nat) : Option Stack :=
  if (instAt rules st.top).consumes c then some st.advance else none

/-- The root rule has finished. -/
def Stack.Final (st : Stack) : Prop := st.below = [] ∧ instAt rules st.top = .ret

/-- The machine over call stacks. -/
def stackMachine (root : Nat) : εNFA Nat Stack :=
  machine (flow rules) (Stack.read rules) ⟨⟨root, 0⟩, []⟩ {st | st.Final rules}

/-- `step` for one codepoint after another. -/
def run (live : List Stack) (cps : List Nat) : Except StepError (List Stack) :=
  cps.foldlM (step rules) live

theorem flow_of_final {st : Stack} (h : st.Final rules) : flow rules st = none := by
  obtain ⟨hbelow, hret⟩ := h
  rw [flow, hret]
  simp only [hbelow]

end StackMachine

end Minfer.Gbnf
