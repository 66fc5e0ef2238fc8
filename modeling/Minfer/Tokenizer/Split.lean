/-
Pre-tokenization (`tokenizer.rs`): the rule `tokenizer.ggml.pre` selects
and the hand-written splitter of each rule.

The Unicode classes are the `regex` crate's tables, so they are a
parameter; whitespace is the standard library's.
-/
import Mathlib.Algebra.GroupWithZero.Nat
import Mathlib.Data.List.Basic

namespace Minfer.Tokenize

abbrev Text := List Char

-- ============================= classes

/-- The general categories the splitters ask for. -/
structure Classes where
  isLetter : Char → Bool
  isNumber : Char → Bool
  isAccentMark : Char → Bool

/-- `char::is_whitespace`: Unicode `White_Space`. -/
def isWhitespace (c : Char) : Bool :=
  (0x09 ≤ c.toNat && c.toNat ≤ 0x0D) || c.toNat = 0x20 || c.toNat = 0x85
    || c.toNat = 0xA0
    || c.toNat = 0x1680 || (0x2000 ≤ c.toNat && c.toNat ≤ 0x200A) || c.toNat = 0x2028
    || c.toNat = 0x2029 || c.toNat = 0x202F || c.toNat = 0x205F || c.toNat = 0x3000

/-- `char::to_ascii_lowercase`. -/
def toAsciiLowercase (c : Char) : Char :=
  if 'A' ≤ c ∧ c ≤ 'Z' then Char.ofNat (c.toNat + 32) else c

-- =============================== rules

/-- Why a vocabulary is refused; each carries what its message names. -/
inductive LoadError where
  | preMissing
  | preUnsupported (value : String)
  | modelMissing
  | modelUnsupported (value : String)
  | mergesEmpty
  /-- Byte tokens that are missing, and the first of them. -/
  | bytesMissing (count : Nat) (first : UInt8)
  /-- Bytes no token starts with, and no unknown token either. -/
  | bytesUncovered (count : Nat) (first : UInt8)
  | scoresEmpty
  | scoresMismatch (scores tokens : Nat)
  | unknownMissing
  | unknownOutOfRange (id tokens : Nat)
  | charsmapHeader
  | charsmapTruncated (blob bytes : Nat)
  /-- An assertion on the metadata fails. -/
  | panic
deriving Repr, DecidableEq

/-- `PreTokenizer`. -/
inductive PreTokenizer where
  | qwen2
  | qwen35
  | llamaBpe
  | gemma4
  | lfm2
  | smaugDbrx
  | jinaV1En
  | whitespace
deriving Repr, DecidableEq

namespace PreTokenizer

/-- `from_gguf`: unknown and missing values are refused. -/
def fromGguf : Option String → Except LoadError PreTokenizer
  | some "qwen2" | some "deepseek-r1-qwen" => .ok .qwen2
  | some "qwen35" => .ok .qwen35
  | some "llama-bpe" | some "llama3" | some "llama-v3" | some "falcon3"
      | some "falcon-h1"
  | some "pixtral" | some "midm-2.0" | some "jina-v5-nano" => .ok .llamaBpe
  | some "smaug-bpe" | some "dbrx" => .ok .smaugDbrx
  | some "lfm2" => .ok .lfm2
  | some "whitespace" => .ok .whitespace
  | some "jina-v1-en" | some "mpt" | some "olmo" | some "jais" | some "trillion"
  | some "granite-docling" => .ok .jinaV1En
  | some "gemma4" => .ok .gemma4
  | some other => .error (.preUnsupported other)
  | none => .error .preMissing

/-- `ignores_merges`. -/
def ignoresMerges (pre : PreTokenizer) : Bool := pre = .llamaBpe || pre = .lfm2

/-- `include_marks`. -/
def includeMarks (pre : PreTokenizer) : Bool := pre = .qwen35

/-- `number_run`: the digits one piece may hold. -/
def numberRun : PreTokenizer → Nat
  | .llamaBpe | .lfm2 | .smaugDbrx => 3
  | .qwen2 | .qwen35 | .gemma4 | .whitespace => 1
  | .jinaV1En => 2 ^ 64 - 1

/-- `applies_nfc`. -/
def appliesNfc (pre : PreTokenizer) : Bool := pre = .qwen2 || pre = .qwen35

end PreTokenizer

-- =========================== splitting

/-- The length of the run of a class at the start of a text. -/
def runLen (p : Char → Bool) (text : Text) : Nat := (text.takeWhile p).length

/-- The contractions `'s 't 'm 'd 're 've 'll`, in any case: the characters
after the apostrophe. -/
def contraction : Text → Option Nat
  | c1 :: rest =>
      let l1 := toAsciiLowercase c1
      if l1 = 's' ∨ l1 = 't' ∨ l1 = 'm' ∨ l1 = 'd' then some 1
      else
        match rest with
        | c2 :: _ =>
            let l2 := toAsciiLowercase c2
            if (l1 = 'r' ∧ l2 = 'e') ∨ (l1 = 'v' ∧ l2 = 'e')
              ∨ (l1 = 'l' ∧ l2 = 'l') then some 2
            else none
        | [] => none
  | [] => none

def isNewline (c : Char) : Bool := c = '\r' || c = '\n'

/-- The end of the last newline of a whitespace run, 0 when it has none. -/
def lastNewlineEnd : Text → Nat
  | [] => 0
  | c :: rest =>
      if lastNewlineEnd rest > 0 then lastNewlineEnd rest + 1
      else if isNewline c then 1
      else 0

section Rules

variable (cls : Classes)

/-- A character of the letter arm. -/
def isWord (marks : Bool) (c : Char) : Bool :=
  cls.isLetter c || (marks && cls.isAccentMark c)

/-- A character of the symbol arm. -/
def isSymbol (marks : Bool) (c : Char) : Bool :=
  !isWhitespace c && !cls.isLetter c && !cls.isNumber c
    && !(marks && cls.isAccentMark c)

/-- `\s*[\r\n]+|\s+(?!\S)|\s+` and the single code point nothing else takes. -/
def whitespaceLen (text : Text) : Nat :=
  let run := text.takeWhile isWhitespace
  if lastNewlineEnd run > 0 then lastNewlineEnd run
  else if run.length > 1 ∧ run.length < text.length then run.length - 1
  else if run.length > 0 then run.length
  else 1

/-- The symbol arm: an optional space, symbols, newlines. -/
def symbolLen (marks : Bool) (c : Char) (rest : Text) : Option Nat :=
  let body := if c = ' ' then rest else c :: rest
  if (body.head?.map (isSymbol cls marks)).getD false then
    let symbols := runLen (isSymbol cls marks) body
    some ((if c = ' ' then 1 else 0) + symbols + runLen isNewline (body.drop symbols))
  else none

/-- The piece the shared rule takes at the start of `c :: rest`. -/
def nextLen (pre : PreTokenizer) (c : Char) (rest : Text) : Nat :=
  match (if c = '\'' then contraction rest else none) with
  | some k => k + 1
  | none =>
      if c ≠ '\r' ∧ c ≠ '\n' ∧ ¬ cls.isNumber c
          ∧ (isWord cls pre.includeMarks c
            ∨ (rest.head?.map (isWord cls pre.includeMarks)).getD false) then
        1 + runLen (isWord cls pre.includeMarks) rest
      else if cls.isNumber c then min pre.numberRun (runLen cls.isNumber (c :: rest))
      else
        match symbolLen cls pre.includeMarks c rest with
        | some k => k
        | none => whitespaceLen (c :: rest)

/-- A run of a class, after one leading space or the first character. -/
def jinaRun (p : Char → Bool) (rest : Text) : Nat := 1 + runLen p rest

/-- The whitespace arm of the plain GPT-2 rule. -/
def jinaWhitespaceLen (text : Text) : Nat :=
  let run := runLen isWhitespace text
  if run < text.length ∧ run > 1 then run - 1 else run

/-- The piece the plain GPT-2 rule takes at the start of `c :: rest`. -/
def jinaNextLen (c : Char) (rest : Text) : Nat :=
  let symbol := isSymbol cls false
  let nextIs (p : Char → Bool) : Bool := (rest.head?.map p).getD false
  if c = '\'' then
    match contraction rest with
    | some k => k + 1
    | none => jinaRun symbol rest
  else if c = ' ' ∧ nextIs cls.isLetter then jinaRun cls.isLetter rest
  else if cls.isLetter c then jinaRun cls.isLetter rest
  else if c = ' ' ∧ nextIs cls.isNumber then jinaRun cls.isNumber rest
  else if cls.isNumber c then jinaRun cls.isNumber rest
  else if c = ' ' ∧ nextIs symbol then jinaRun symbol rest
  else if c ≠ ' ' ∧ symbol c then jinaRun symbol rest
  else if isWhitespace c then jinaWhitespaceLen (c :: rest)
  else 1

/-- The scan: pieces of the lengths a rule asks for. The fuel is the text's
length, which bounds the pieces. -/
def splitLoop (len : Char → Text → Nat) : Nat → Text → List Text
  | 0, _ => []
  | _ + 1, [] => []
  | fuel + 1, c :: rest =>
      (c :: rest).take (len c rest) :: splitLoop len fuel
        ((c :: rest).drop (len c rest))

/-- `str::split_whitespace`: the runs between whitespace, which is dropped. -/
def splitWhitespace : Text → List Text
  | [] => []
  | c :: rest =>
      if isWhitespace c then splitWhitespace rest
      else
        match rest with
        | [] => [[c]]
        | d :: _ =>
            if isWhitespace d then [c] :: splitWhitespace rest
            else
              match splitWhitespace rest with
              | piece :: pieces => (c :: piece) :: pieces
              | [] => [[c]]

/-- `PreTokenizer::split`. -/
def PreTokenizer.split (pre : PreTokenizer) (text : Text) : List Text :=
  match pre with
  | .jinaV1En => splitLoop (jinaNextLen cls) text.length text
  | .whitespace => splitWhitespace text
  -- maximal runs of newlines and of everything else
  | .gemma4 => text.splitBy fun a b => (a = '\n') == (b = '\n')
  | _ => splitLoop (nextLen cls pre) text.length text

end Rules

end Minfer.Tokenize
