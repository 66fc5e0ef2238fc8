/-
JSON Schema to GBNF (`grammar.rs`): the expressions the compiler writes.

A rule body is a text; the source builds it from string templates, and so
does the model. Numbers are written in decimal.
-/
import Minfer.Grammar.Gbnf
import Minfer.Lib.JsonText

namespace Minfer.Schema

open Minfer.Lib (Json)
open Minfer.Tokenize (Text)

-- =========================== templates

/-- `join`. -/
def join (sep : String) (parts : List Text) : Text := sep.toList.intercalate parts

theorem join_cons (sep : String) (t t' : Text) (ts : List Text) :
    join sep (t :: t' :: ts) = t ++ sep.toList ++ join sep (t' :: ts) := by
  rw [join, join, List.intercalate_cons_cons]

/-- A string literal of GBNF around a text that needs no escapes. -/
def quoted (t : Text) : Text := '"' :: t ++ ['"']

/-- A group. -/
def grouped (t : Text) : Text := '(' :: t ++ [')']

/-- A count in braces. -/
def counted (n : Nat) : Text := '{' :: Nat.toDigits 10 n ++ ['}']

/-- The digits between two. -/
def digitClass (a b : Nat) : Text :=
  ['[', Char.ofNat (48 + a), '-', Char.ofNat (48 + b), ']']

-- ======================= generic rules

/-- `GENERIC_RULES`. -/
def genericRules : List (Text × Text) :=
  [("j-ws".toList, "[ \\t\\n\\r]*".toList),
    ("j-char".toList, "[^\"\\\\\\u0000-\\u001f] | \"\\\\\" j-esc".toList),
    ("j-esc".toList,
      ("[\"\\\\/bfnrt] | \"u\" [0-9a-fA-F] [0-9a-fA-F] " ++
        "[0-9a-fA-F] [0-9a-fA-F]").toList),
    ("j-string".toList, "\"\\\"\" j-char* \"\\\"\"".toList),
    ("j-int".toList, "\"0\" | [1-9] [0-9]*".toList),
    ("j-frac".toList, "\".\" [0-9]+".toList),
    ("j-exp".toList, "[eE] [+-]? [0-9]+".toList),
    ("j-number".toList, "\"-\"? j-int j-frac? j-exp?".toList),
    ("j-integer".toList, "\"-\"? j-int".toList),
    ("j-value".toList,
      ("j-object | j-array | j-string | j-number | \"true\" " ++
        "| \"false\" | \"null\"").toList),
    ("j-object".toList,
      ("\"\x7b\" j-ws \"\x7d\" | \"\x7b\" j-ws j-pair (j-ws " ++
        "\",\" j-ws j-pair)* j-ws \"\x7d\"").toList),
    ("j-pair".toList, "j-string j-ws \":\" j-ws j-value".toList),
    ("j-array".toList,
      ("\"[\" j-ws \"]\" | \"[\" j-ws j-value (j-ws \",\" " ++
        "j-ws j-value)* j-ws \"]\"").toList)]

-- ============================ literals

/-- A number in four hexadecimal digits or more. -/
def hexPadded (n : Nat) : Text :=
  List.replicate (4 - (Nat.toDigits 16 n).length) '0' ++ Nat.toDigits 16 n

/-- A character of `json_string_literal`: its JSON spelling in GBNF escapes. -/
def jsonStringChar (c : Char) : Text :=
  if c = '"' then ['\\', '\\', '\\', '"']
  else if c = '\\' then ['\\', '\\', '\\', '\\']
  else if c = '\n' then ['\\', '\\', 'n']
  else if c = '\r' then ['\\', '\\', 'r']
  else if c = '\t' then ['\\', '\\', 't']
  else if c.toNat < 0x20 then ['\\', '\\', 'u'] ++ hexPadded c.toNat
  else [c]

/-- `json_string_literal`. -/
def jsonStringLiteral (s : Text) : Text :=
  ['"', '\\', '"'] ++ s.flatMap jsonStringChar ++ ['\\', '"', '"']

mutual

/-- `literal_expr`, which never fails. The text of the empty object is no
format string, so its braces stay doubled. -/
def literalExpr : Json → Text
  | .null => "\"null\"".toList
  | .bool true => "\"true\"".toList
  | .bool false => "\"false\"".toList
  | .number n => quoted (Json.numberText n)
  | .string s => jsonStringLiteral s
  | .array items =>
      let parts := literalItems items
      if parts = [] then "\"[\" j-ws \"]\"".toList
      else
        "\"[\" j-ws ".toList ++ join " j-ws \",\" j-ws " parts ++ " j-ws \"]\"".toList
  | .object members =>
      let parts := literalMembers members
      if parts = [] then "\"\x7b\x7b\" j-ws \"\x7d\x7d\"".toList
      else
        "\"\x7b\" j-ws ".toList ++ join " j-ws \",\" j-ws " parts
          ++ " j-ws \"\x7d\"".toList

def literalItems : List Json → List Text
  | [] => []
  | item :: items => literalExpr item :: literalItems items

def literalMembers : List (Text × Json) → List Text
  | [] => []
  | (k, v) :: members =>
      (jsonStringLiteral k ++ " j-ws \":\" j-ws ".toList ++ literalExpr v)
        :: literalMembers members

end

-- ====================== integer ranges

/-- How many digits two texts start with in common. -/
def commonDigits : Text → Text → Nat
  | a :: as, b :: bs => if a = b then commonDigits as bs + 1 else 0
  | _, _ => 0

/-- `fixed_len_range`: decimal strings of one length between two. Past their
common digits both strings have one more, since they are of one length and
differ. -/
def fixedLenRange (lo hi : Text) : Text :=
  if lo = hi then quoted lo
  else
    let i := commonDigits lo hi
    let pre := lo.take i
    match _hl : lo.drop i, hi.drop i with
    | a :: subLo, b :: subHi =>
        let l := a.toNat - 48
        let h := b.toNat - 48
        let suffixLen := lo.length - i - 1
        let middle :=
          if h > l + 1 then
            [(if pre.isEmpty then [] else quoted pre) ++ digitClass (l + 1) (h - 1)
              ++ (if suffixLen > 0 then "[0-9]".toList ++ counted suffixLen else [])]
          else []
        let low := quoted (pre ++ [Char.ofNat (48 + l)])
        let high := quoted (pre ++ [Char.ofNat (48 + h)])
        let alts :=
          if suffixLen = 0 then middle ++ [low, high]
          else
            middle ++ [low
              ++ grouped (fixedLenRange subLo (List.replicate suffixLen '9')),
              high ++ grouped (fixedLenRange (List.replicate suffixLen '0') subHi)]
        join " | " alts
    | _, _ => []
termination_by lo.length
decreasing_by
  all_goals
    have hlen := congrArg List.length _hl
    rw [List.length_drop, List.length_cons] at hlen
    first
      | omega
      | rw [List.length_replicate]
        omega

/-- Every decimal string of `len` digits without a leading zero. -/
def allOfLength (len : Nat) : Text := "[1-9][0-9]".toList ++ counted (len - 1)

/-- `uint_up_to`. -/
def uintUpTo (n : Nat) : Text :=
  if n < 10 then digitClass 0 n
  else
    let s := Nat.toDigits 10 n
    let d := s.length
    join " | " (["\"0\"".toList, "[1-9]".toList]
      ++ (List.range' 2 (d - 2)).map allOfLength
      ++ [fixedLenRange ('1' :: List.replicate (d - 1) '0') s])

/-- `uint_range`. -/
def uintRange (lo hi : Nat) : Text :=
  if lo = 0 then uintUpTo hi
  else
    let loS := Nat.toDigits 10 lo
    let hiS := Nat.toDigits 10 hi
    let dl := loS.length
    let dh := hiS.length
    if dl = dh then fixedLenRange loS hiS
    else
      join " | " ([fixedLenRange loS (List.replicate dl '9')]
        ++ (List.range' (dl + 1) (dh - (dl + 1))).map allOfLength
        ++ [fixedLenRange ('1' :: List.replicate (dh - 1) '0') hiS])

/-- The errors of the schema compiler. -/
inductive SchemaError where
  | emptyRange (lo hi : Int)
deriving Repr, DecidableEq

/-- `int_range_expr`. -/
def intRangeExpr (lo hi : Int) : Except SchemaError Text :=
  if lo > hi then .error (.emptyRange lo hi)
  else if lo ≥ 0 then .ok (uintRange lo.toNat hi.toNat)
  else if hi ≤ 0 then
    let magLo := (-hi).toNat
    let magHi := (-lo).toNat
    if magLo = 0 then
      .ok ("\"-\" (".toList ++ uintRange 1 magHi ++ ") | \"0\"".toList)
    else .ok ("\"-\" (".toList ++ uintRange magLo magHi ++ ")".toList)
  else
    .ok ("(\"-\" (".toList ++ uintRange 1 (-lo).toNat ++ ") | ".toList
      ++ uintRange 0 hi.toNat
      ++ ")".toList)

end Minfer.Schema
