/-
The tables of a tokenizer (`tokenizer.rs`): the byte-to-unicode map, the
special-token index, the byte trie and the two token spellings of bytes.

A hash map is an association list with one entry a key. A node of the trie
is the bytes on the way to it.
-/
import Mathlib.Data.List.Sort
import Minfer.Lib.Utf8
import Minfer.Tokenizer.Split

namespace Minfer.Tokenize

open Minfer.Lib (utf8Encode fromUtf8Lossy)

-- ================================ maps

/-- A `HashMap`: one entry a key. -/
abbrev Map (κ ν : Type) := List (κ × ν)

namespace Map

variable {κ ν : Type} [DecidableEq κ]

def get (m : Map κ ν) (k : κ) : Option ν := (m.find? (·.1 = k)).map (·.2)

def insert (m : Map κ ν) (k : κ) (v : ν) : Map κ ν := (k, v) :: m.filter (·.1 ≠ k)

def containsKey (m : Map κ ν) (k : κ) : Bool := (m.get k).isSome

end Map

-- ============================ byte map

/-- The bytes that stand for themselves. -/
def printableBytes : List Nat :=
  List.range' 0x21 (0x7e + 1 - 0x21) ++ List.range' 0xa1 (0xac + 1 - 0xa1)
    ++ List.range' 0xae (0xff + 1 - 0xae)

/-- The loop over the other bytes: each takes the next code point from 256
on. -/
def shiftBytes : Nat → List Nat → List (Nat × Nat)
  | _, [] => []
  | n, b :: rest => (b, 256 + n) :: shiftBytes (n + 1) rest

/-- `build_byte_to_unicode`, as pairs of byte and code point. -/
def buildByteToUnicode : List (Nat × Nat) :=
  printableBytes.map (fun b => (b, b))
    ++ shiftBytes 0 ((List.range 256).filter (· ∉ printableBytes))

/-- `byte_to_unicode[&b]`. -/
def byteToUnicode (b : UInt8) : Char :=
  match buildByteToUnicode.find? (·.1 = b.toNat) with
  | some (_, c) => Char.ofNat c
  | none => Char.ofNat 0

/-- `unicode_to_byte.get(&c)`. -/
def unicodeToByte (c : Char) : Option UInt8 :=
  (buildByteToUnicode.find? (·.2 = c.toNat)).map fun p => UInt8.ofNat p.1

/-- `byte_encode`. -/
def byteEncode (text : Text) : Text := (utf8Encode text).map byteToUnicode

-- ====================== special tokens

/-- The key a pattern is grouped under. -/
def firstChar : Text → Char
  | [] => Char.ofNat 0
  | c :: _ => c

/-- One group of `special_index`: the patterns of a first character, longest
first. The patterns are distinct, so two of one length never both match and
the order the map is walked in does not matter. -/
def specialGroup (specials : Map Text Nat) (c : Char) : List (Text × Nat) :=
  (specials.filter (firstChar ·.1 = c)).insertionSort
    fun a b => (utf8Encode b.1).length ≤ (utf8Encode a.1).length

-- ================================ trie

/-- `VocabTrie`: its entries. -/
abbrev VocabTrie := Map (List UInt8) Nat

namespace VocabTrie

/-- `insert_bytes`. -/
def insertBytes (t : VocabTrie) (bytes : List UInt8) (id : Nat) : VocabTrie :=
  Map.insert t bytes id

/-- `step`: the child of a node. -/
def step (t : VocabTrie) (node : List UInt8) (b : UInt8) : Option (List UInt8) :=
  if t.any fun e => (node ++ [b]).isPrefixOf e.1 then some (node ++ [b]) else none

/-- `terminal`. -/
def terminal (t : VocabTrie) (node : List UInt8) : Option Nat := Map.get t node

/-- The walk down from a node: every entry that ends on it, with its length. -/
def walk (t : VocabTrie) : List UInt8 → List UInt8 → List (Nat × Nat)
  | _, [] => []
  | node, b :: rest =>
      match t.step node b with
      | none => []
      | some next =>
          match t.terminal next with
          | some id => (id, next.length) :: walk t next rest
          | none => walk t next rest

/-- `matches` from the start of the bytes: ids and lengths, shortest first. -/
def matchesAt (t : VocabTrie) (bytes : List UInt8) : List (Nat × Nat) :=
  t.walk [] bytes

/-- `starts_with_byte`. -/
def startsWithByte (t : VocabTrie) (b : UInt8) : Bool := (t.step [] b).isSome

/-- `longest_prefix_bytes`. -/
def longestPrefixBytes (t : VocabTrie) (bytes : List UInt8) : Option (Nat × Nat) :=
  (t.matchesAt bytes).getLast?

end VocabTrie

-- ====================== byte spellings

/-- The value of a hexadecimal digit in an RWKV escape, in wrapping bytes. -/
def rwkvHexValue (b : UInt8) : UInt8 := if b ≥ 0x61 then b - 0x61 + 10 else b - 0x30

/-- Where the unescape loop stands. -/
inductive Unescape where
  | plain
  | escaping
  /-- Hexadecimal digits to come, and their value so far. -/
  | hex (remaining : Nat) (acc : UInt8)
deriving Repr, DecidableEq

/-- The loop of `unescape_rwkv_token`. -/
def unescapeFrom : Unescape → List UInt8 → List UInt8
  | _, [] => []
  | .hex remaining acc, b :: rest =>
      if remaining ≤ 1 then (acc <<< 4 + rwkvHexValue b) :: unescapeFrom .plain rest
      else unescapeFrom (.hex (remaining - 1) (acc <<< 4 + rwkvHexValue b)) rest
  | .escaping, b :: rest =>
      if b = 0x74 then 0x09 :: unescapeFrom .plain rest
      else if b = 0x6e then 0x0a :: unescapeFrom .plain rest
      else if b = 0x72 then 0x0d :: unescapeFrom .plain rest
      else if b = 0x78 then unescapeFrom (.hex 2 0) rest
      else b :: unescapeFrom .plain rest
  | .plain, b :: rest =>
      if b = 0x5c then unescapeFrom .escaping rest else b :: unescapeFrom .plain rest

/-- `unescape_rwkv_token`. -/
def unescapeRwkvToken (escaped : Text) : List UInt8 :=
  unescapeFrom .plain (utf8Encode escaped)

/-- The value of a hexadecimal digit. -/
def hexDigit (c : Char) : Option Nat :=
  if '0' ≤ c ∧ c ≤ '9' then some (c.toNat - 48)
  else if 'a' ≤ c ∧ c ≤ 'f' then some (c.toNat - 87)
  else if 'A' ≤ c ∧ c ≤ 'F' then some (c.toNat - 55)
  else none

/-- `u8::from_str_radix(_, 16)` on a text of two bytes. -/
def fromStrRadix16 : Text → Option UInt8
  | ['+', d] => (hexDigit d).map UInt8.ofNat
  | [c, d] => do return UInt8.ofNat (16 * (← hexDigit c) + (← hexDigit d))
  | _ => none

/-- `parse_spm_byte_token`: the byte of a `<0xXX>` token. -/
def parseSpmByteToken (token : Text) : Option UInt8 :=
  match token with
  | ['<', '0', 'x', c, d, '>'] => fromStrRadix16 [c, d]
  | _ => none

end Minfer.Tokenize
