/-
GBNF (`grammar.rs`): the syntax tree of a grammar, its parser, and the
compiler to rule programs.

The parser's methods call each other without a bound; here they run on fuel,
and a text is accepted when some amount is enough. An error carries what its
message names; a place in the text is the text from there on.
-/
import Minfer.Grammar.Automaton
import Minfer.Tokenizer.Split

namespace Minfer.Gbnf

open Minfer.Tokenize (Text isWhitespace)

-- =============================== nodes

/-- `Node`. -/
inductive Node where
  | str (cps : List Nat)
  | cls (negated : Bool) (ranges : Ranges)
  | any
  | seq (items : List Node)
  | alt (branches : List Node)
  /-- At least `m` times, and at most `n` when there is a bound. -/
  | rep (inner : Node) (m : Nat) (n : Option Nat)
  | ref (name : Text)
deriving Repr

mutual

/-- The same tree. -/
def Node.same : Node → Node → Bool
  | .str cps, .str cps' => cps = cps'
  | .cls negated ranges, .cls negated' ranges' => negated = negated'
      && ranges = ranges'
  | .any, .any => true
  | .seq items, .seq items' => sameAll items items'
  | .alt branches, .alt branches' => sameAll branches branches'
  | .rep inner m n, .rep inner' m' n' => inner.same inner' && m = m' && n = n'
  | .ref name, .ref name' => name = name'
  | _, _ => false

def sameAll : List Node → List Node → Bool
  | [], [] => true
  | node :: rest, node' :: rest' => node.same node' && sameAll rest rest'
  | _, _ => false

end

mutual

theorem Node.same_iff : ∀ a b : Node, a.same b = true ↔ a = b
  | .str _, b => by cases b <;> simp [Node.same]
  | .cls _ _, b => by cases b <;> simp [Node.same]
  | .any, b => by cases b <;> simp [Node.same]
  | .seq items, b => by cases b <;> simp [Node.same, sameAll_iff items]
  | .alt branches, b => by cases b <;> simp [Node.same, sameAll_iff branches]
  | .rep inner _ _, b => by
      cases b <;> simp [Node.same, Node.same_iff inner, and_assoc]
  | .ref _, b => by cases b <;> simp [Node.same]

theorem sameAll_iff : ∀ a b : List Node, sameAll a b = true ↔ a = b
  | [], b => by cases b <;> simp [sameAll]
  | node :: rest, b => by
      cases b <;> simp [sameAll, Node.same_iff node, sameAll_iff rest]

end

instance : DecidableEq Node := fun a b => decidable_of_iff _ (Node.same_iff a b)

/-- The errors of `from_gbnf`. -/
inductive GrammarError where
  | expectedName (rest : Text)
  | expectedLiteral (lit : String) (rest : Text)
  | duplicateRule (name : Text)
  | noRules
  | undefinedRule (owner name : Text)
  | unclosedRepetition (rest : Text)
  | reversedRepetition (m n : Nat)
  | repetitionTooLarge (n : Nat)
  | expectedNumber (what : String) (rest : Text)
  | numberTooLarge (what : String) (digits : Text)
  | missingParen (rest : Text)
  | unterminatedString
  | expectedItem (rest : Text)
  | unterminatedEscape
  | unsupportedEscape (c : Char)
  | expectedHex (n : Nat) (rest : Text)
  | shorthandEndpoint (rest : Text)
  | unterminatedClass
  | emptyClass
  | reversedRange (lo hi : Nat)
  | noRoot
  | undefinedInternal (name : Text)
  | closure (name : Text) (e : CloseError)
  /-- An assertion fails. -/
  | panic
  /-- The bound on the model's recursion is used up. -/
  | fuel
deriving Repr, DecidableEq

-- ============================== tokens

/-- A parser: what it reads and the text after it. -/
abbrev Parser (α : Type) := Text → Except GrammarError (α × Text)

/-- Whitespace and comments, from inside a comment or not. -/
def skipFrom (space : Char → Bool) : Bool → Text → Text
  | _, [] => []
  | true, c :: rest => skipFrom space (c ≠ '\n') rest
  | false, c :: rest =>
      if space c then skipFrom space false rest
      else if c = '#' then skipFrom space true rest
      else c :: rest

/-- `skip_trivia`. -/
def skipTrivia (text : Text) : Text := skipFrom isWhitespace false text

/-- A character a rule name starts with. -/
def isNameStart (c : Char) : Bool := c.isAlpha || c = '_'

/-- A character of a rule name. -/
def isNameChar (c : Char) : Bool := c.isAlphanum || c = '_' || c = '-'

/-- `ident`. -/
def ident : Parser Text
  | [] => .error (.expectedName [])
  | c :: rest =>
      if isNameStart c
        then .ok (c :: rest.takeWhile isNameChar, rest.dropWhile isNameChar)
      else .error (.expectedName (c :: rest))

/-- `expect_str`. -/
def expectStr (lit : String) (text : Text) : Except GrammarError Text :=
  if lit.toList.isPrefixOf text then .ok (text.drop lit.toList.length)
  else .error (.expectedLiteral lit text)

/-- `at_rule_boundary`; its own trivia is read byte by byte, so only ASCII
whitespace counts. -/
def atRuleBoundary : Text → Bool
  | [] => false
  | c :: rest =>
      isNameStart c && "::=".toList.isPrefixOf
        (skipFrom (fun c => c.toNat < 0x80 && isWhitespace c) false
          (rest.dropWhile isNameChar))

/-- The value of decimal digits. -/
def decimal (digits : Text) : Nat :=
  digits.foldl (fun n c => 10 * n + (c.toNat - 48)) 0

/-- `number`. -/
def number (what : String) : Parser Nat := fun text =>
  let digits := text.takeWhile Char.isDigit
  if digits = [] then .error (.expectedNumber what text)
  else if decimal digits ≥ 2 ^ 64 then .error (.numberTooLarge what digits)
  else .ok (decimal digits, text.dropWhile Char.isDigit)

/-- The value of a hexadecimal digit. -/
def hexValue (c : Char) : Option Nat :=
  if '0' ≤ c ∧ c ≤ '9' then some (c.toNat - 48)
  else if 'a' ≤ c ∧ c ≤ 'f' then some (c.toNat - 87)
  else if 'A' ≤ c ∧ c ≤ 'F' then some (c.toNat - 55)
  else none

/-- The loop of `hex`: `total` digits, `left` of them to come. -/
def hexLoop (total : Nat) : Nat → Nat → Parser Nat
  | 0, value => fun text => .ok (value, text)
  | left + 1, value => fun text =>
      match text with
      | [] => .error (.expectedHex total [])
      | c :: rest =>
          match hexValue c with
          | some d => hexLoop total left (16 * value + d) rest
          | none => .error (.expectedHex total (c :: rest))

/-- `hex`. -/
def hex (n : Nat) : Parser Nat := hexLoop n n 0

/-- `escape`, after the backslash. -/
def escape : Parser Nat
  | [] => .error .unterminatedEscape
  | c :: rest =>
      match c with
      | 'n' => .ok (0x0A, rest)
      | 'r' => .ok (0x0D, rest)
      | 't' => .ok (0x09, rest)
      | '\\' | '"' | '\'' | '[' | ']' | '-' | '^' | '/' => .ok (c.toNat, rest)
      | 'x' => hex 2 rest
      | 'u' => hex 4 rest
      | other => .error (.unsupportedEscape other)

-- ============================= classes

/-- The sets `\d`, `\w` and `\s`. -/
def shorthandRanges : Char → Option Ranges
  | 'd' => some [(0x30, 0x39)]
  | 'w' => some [(0x30, 0x39), (0x41, 0x5A), (0x5F, 0x5F), (0x61, 0x7A)]
  | 's' => some [(0x09, 0x0D), (0x20, 0x20)]
  | _ => none

/-- `class_shorthand`, after the backslash. -/
def classShorthand (text : Text) : Except GrammarError (Option (Ranges × Text)) :=
  match text with
  | [] => .ok none
  | c :: rest =>
      match shorthandRanges c, rest with
      | none, _ => .ok none
      -- a set is no end of a range, but `-` before `]` is a character
      | some _, '-' :: d :: _ =>
          if d = ']' then .ok ((shorthandRanges c).map (·, rest))
          else .error (.shorthandEndpoint rest)
      | some ranges, _ => .ok (some (ranges, rest))

/-- `push_range`. -/
def pushRange (ranges : Ranges) (lo hi : Nat) : Except GrammarError Ranges :=
  if hi < lo then .error (.reversedRange lo hi) else .ok (ranges ++ [(lo, hi)])

/-- `push_class_item`. -/
def pushClassItem (ranges : Ranges) (lo : Nat) : Parser Ranges
  | '-' :: rest =>
      match rest with
      | [] | ']' :: _ => .ok (ranges ++ [(lo, lo), (0x2D, 0x2D)], rest)
      | '\\' :: rest => do
          let (hi, rest) ← escape rest
          return (← pushRange ranges lo hi, rest)
      | c :: rest => do return (← pushRange ranges lo c.toNat, rest)
  | text => .ok (ranges ++ [(lo, lo)], text)

/-- The loop of `char_class`. -/
def classLoop : Nat → Ranges → Parser Ranges
  | 0, _ => fun _ => .error .fuel
  | fuel + 1, ranges => fun text =>
      match text with
      | [] => .error .unterminatedClass
      | ']' :: rest => .ok (ranges, rest)
      | '\\' :: rest => do
          match ← classShorthand rest with
          | some (short, rest) => classLoop fuel (ranges ++ short) rest
          | none =>
              let (lo, rest) ← escape rest
              let (ranges, rest) ← pushClassItem ranges lo rest
              classLoop fuel ranges rest
      | c :: rest => do
          let (ranges, rest) ← pushClassItem ranges c.toNat rest
          classLoop fuel ranges rest

/-- `ranges.sort()`. -/
def sortRanges (ranges : Ranges) : Ranges :=
  ranges.insertionSort fun r s => r.1 < s.1 ∨ (r.1 = s.1 ∧ r.2 ≤ s.2)

/-- `char_class`, after the bracket. -/
def charClass : Parser Node := fun text => do
  let negated := text.head? = some '^'
  let text := if negated then text.drop 1 else text
  let (ranges, text) ← classLoop (text.length + 1) [] text
  if ranges = [] then .error .emptyClass
    else return (.cls negated (sortRanges ranges), text)

/-- The loop over a string literal, after the quote. -/
def stringLoop : Nat → List Nat → Parser (List Nat)
  | 0, _ => fun _ => .error .fuel
  | fuel + 1, cps => fun text =>
      match text with
      | [] => .error .unterminatedString
      | '"' :: rest => .ok (cps, rest)
      | '\\' :: rest => do
          let (c, rest) ← escape rest
          stringLoop fuel (cps ++ [c]) rest
      | c :: rest => stringLoop fuel (cps ++ [c.toNat]) rest

-- ========================= repetitions

/-- The upper bound of an explicit repetition. -/
def upperBound (m : Nat) : Parser (Option Nat) := fun text =>
  match skipTrivia text with
  | ',' :: rest =>
      match skipTrivia rest with
      | '}' :: rest => .ok (none, '}' :: rest)
      | rest => do
          let (n, rest) ← number "repetition upper bound" rest
          return (some n, rest)
  | rest => .ok (some m, rest)

/-- The bounds of a repetition are in order and small enough. -/
def checkBounds (m : Nat) : Option Nat → Except GrammarError Unit
  | none => .ok ()
  | some n =>
      if n < m then .error (.reversedRepetition m n)
      else if n > maxRepeat then .error (.repetitionTooLarge n)
      else .ok ()

/-- An explicit repetition, after the brace. -/
def explicitRepetition (node : Node) : Parser Node := fun text => do
  let (m, text) ← number "repetition lower bound" text
  let (n, text) ← upperBound m text
  match skipTrivia text with
  | '}' :: rest =>
      checkBounds m n
      return (.rep node m n, rest)
  | rest => .error (.unclosedRepetition rest)

/-- The loop of `item` after its atom. -/
def repetitions : Nat → Node → Parser Node
  | 0, _ => fun _ => .error .fuel
  | fuel + 1, node => fun text =>
      match skipTrivia text with
      | '*' :: rest => repetitions fuel (.rep node 0 none) rest
      | '+' :: rest => repetitions fuel (.rep node 1 none) rest
      | '?' :: rest => repetitions fuel (.rep node 0 (some 1)) rest
      | '{' :: rest => do
          let (node, rest) ← explicitRepetition node rest
          repetitions fuel node rest
      | rest => .ok (node, rest)

-- ============================= grammar

/-- One element stands for itself. -/
def unwrap (wrap : List Node → Node) : List Node → Node
  | [node] => node
  | nodes => wrap nodes

mutual

/-- `alternation`. -/
def alternation : Nat → Parser Node
  | 0 => fun _ => .error .fuel
  | fuel + 1 => fun text => do
      let (first, text) ← sequence fuel text
      let (branches, text) ← moreBranches fuel [first] text
      return (unwrap .alt branches, text)

/-- The loop of `alternation` after its first branch. -/
def moreBranches : Nat → List Node → Parser (List Node)
  | 0, _ => fun _ => .error .fuel
  | fuel + 1, branches => fun text =>
      match skipTrivia text with
      | '|' :: rest => do
          let (branch, rest) ← sequence fuel rest
          moreBranches fuel (branches ++ [branch]) rest
      | rest => .ok (branches, rest)

/-- `sequence`. -/
def sequence : Nat → Parser Node
  | 0 => fun _ => .error .fuel
  | fuel + 1 => fun text => do
      let (items, text) ← moreItems fuel [] text
      return (unwrap .seq items, text)

/-- The loop of `sequence`. -/
def moreItems : Nat → List Node → Parser (List Node)
  | 0, _ => fun _ => .error .fuel
  | fuel + 1, items => fun text =>
      let text := skipTrivia text
      if atRuleBoundary text then .ok (items, text)
      else
        match text with
        | [] => .ok (items, [])
        | '|' :: rest => .ok (items, '|' :: rest)
        | ')' :: rest => .ok (items, ')' :: rest)
        | text => do
            let (item, text) ← item fuel text
            moreItems fuel (items ++ [item]) text

/-- `item`. -/
def item : Nat → Parser Node
  | 0 => fun _ => .error .fuel
  | fuel + 1 => fun text => do
      let (node, text) ← atom fuel text
      repetitions (text.length + 1) node text

/-- `atom`. -/
def atom : Nat → Parser Node
  | 0 => fun _ => .error .fuel
  | fuel + 1 => fun text =>
      match skipTrivia text with
      | '(' :: rest => do
          let (inner, rest) ← alternation fuel rest
          match skipTrivia rest with
          | ')' :: rest => return (inner, rest)
          | rest => .error (.missingParen rest)
      | '"' :: rest => do
          let (cps, rest) ← stringLoop (rest.length + 1) [] rest
          return (.str cps, rest)
      | '[' :: rest => charClass rest
      | '.' :: rest => .ok (.any, rest)
      | [] => .error (.expectedItem [])
      | c :: rest =>
          if isNameStart c then do
            let (name, rest) ← ident (c :: rest)
            return (.ref name, rest)
          else .error (.expectedItem (c :: rest))

end

/-- The loop of `parse` over the rules. -/
def rulesLoop : Nat → List (Text × Node) → Text →
    Except GrammarError (List (Text × Node))
  | 0, _, _ => .error .fuel
  | fuel + 1, rules, text =>
      match skipTrivia text with
      | [] => .ok rules
      | text => do
          let (name, text) ← ident text
          let text ← expectStr "::=" (skipTrivia text)
          let (body, text) ← alternation fuel text
          if rules.any fun r => r.1 = name then .error (.duplicateRule name)
          else rulesLoop fuel (rules ++ [(name, body)]) text

mutual

/-- The first reference `check_refs` finds no rule for. -/
def unresolved (names : List Text) : Node → Option Text
  | .ref name => if name ∈ names then none else some name
  | .seq items => unresolvedIn names items
  | .alt branches => unresolvedIn names branches
  | .rep inner _ _ => unresolved names inner
  | .str _ | .cls _ _ | .any => none

def unresolvedIn (names : List Text) : List Node → Option Text
  | [] => none
  | node :: rest => (unresolved names node).or (unresolvedIn names rest)

end

/-- `check_refs` of every rule. -/
def checkRefs (names : List Text) : List (Text × Node) → Except GrammarError Unit
  | [] => .ok ()
  | (owner, node) :: rest =>
      match unresolved names node with
      | some name => .error (.undefinedRule owner name)
      | none => checkRefs names rest

/-- `GbnfParser::parse`. -/
def parse (fuel : Nat) (source : Text) : Except GrammarError
    (List (Text × Node)) := do
  let rules ← rulesLoop fuel [] source
  if rules = [] then .error .noRules
  else
    checkRefs (rules.map (·.1)) rules
    return rules

-- ============================ compiler

/-- The id of a rule. -/
def idOf (names : List Text) (name : Text) : Option Nat := names.findIdx? (· = name)

/-- The same code `k` times. -/
def emitTimes (emit : Nat → Except GrammarError (List Inst)) :
    Nat → Nat → Except GrammarError (List Inst)
  | 0, _ => .ok []
  | k + 1, base => do
      let code ← emit base
      return code ++ (← emitTimes emit k (base + code.length))

/-- The same code at most `k` times, each behind a branch. -/
def emitOptional (emit : Nat → Except GrammarError (List Inst)) :
    Nat → Nat → Except GrammarError (List Inst)
  | 0, _ => .ok []
  | k + 1, base => do
      let code ← emit (base + 1)
      let end_ := base + 1 + code.length
      return .split (base + 1) end_ :: code ++ (← emitOptional emit k end_)

mutual

/-- `emit_node`: the code of a node at an address. The source patches the
targets of its forward jumps once the code behind them is emitted. -/
def emitNode (names : List Text) : Node → Nat → Except GrammarError (List Inst)
  | .str cps, _ => .ok (cps.map .cp)
  | .cls negated ranges, _ => .ok [.cls negated ranges]
  | .any, _ => .ok [.any]
  | .ref name, _ =>
      match idOf names name with
      | some id => .ok [.call id]
      | none => .error (.undefinedInternal name)
  | .seq items, base => emitSeq names items base
  | .alt branches, base => emitAlt names branches base
  | .rep inner m n, base => do
      let head ← emitTimes (emitNode names inner) m base
      let split := base + head.length
      match n with
      | none =>
          let body ← emitNode names inner (split + 1)
          return head ++ .split (split + 1) (split + 1 + body.length + 1)
            :: body ++ [.jump split]
      | some total =>
          return head ++ (← emitOptional (emitNode names inner) (total - m) split)

def emitSeq (names : List Text) : List Node → Nat → Except GrammarError (List Inst)
  | [], _ => .ok []
  | node :: rest, base => do
      let code ← emitNode names node base
      return code ++ (← emitSeq names rest (base + code.length))

/-- A branch but the last: a split, its code, and a jump to the end of them
all. -/
def emitAlt (names : List Text) : List Node → Nat → Except GrammarError (List Inst)
  | [], _ => .ok []
  | [node], base => emitNode names node base
  | node :: rest, base => do
      let code ← emitNode names node (base + 1)
      let next := base + 1 + code.length + 1
      let others ← emitAlt names rest next
      return .split (base + 1) next :: code ++ .jump (next + others.length) :: others

end

/-- The program of a rule. -/
def compileRule (names : List Text) (node : Node) : Except GrammarError
    (List Inst) := do
  let code ← emitNode names node 0
  if code.length + 1 < 2 ^ 32 - 1 then return code ++ [.ret] else .error .panic

/-- The programs of the rules. -/
def compileRules (names : List Text) : List (Text × Node) → Except GrammarError Rules
  | [] => .ok []
  | (_, node) :: rest => do
      let prog ← compileRule names node
      return prog :: (← compileRules names rest)

/-- What `from_gbnf` compiles from the text alone. -/
structure Program where
  rules : Rules
  names : List Text
  root : Nat
deriving Repr, DecidableEq

/-- The eager closures: rule `r` and the rules after it. -/
def checkClosures (rules : Rules) : Nat → List Text → Except GrammarError Unit
  | _, [] => .ok ()
  | r, name :: rest =>
      match close rules [⟨⟨r, 0⟩, []⟩] with
      | .error e => .error (.closure name e)
      | .ok _ => checkClosures rules (r + 1) rest

/-- The part of `from_gbnf` that reads the grammar. -/
def compileGbnf (fuel : Nat) (source : Text) : Except GrammarError Program := do
  let parsed ← parse fuel source
  let names := parsed.map (·.1)
  match idOf names "root".toList with
  | none => .error .noRoot
  | some root =>
      let rules ← compileRules names parsed
      checkClosures rules 0 names
      return ⟨rules, names, root⟩

end Minfer.Gbnf
