/-
Loading a model from one file or from the first part of a split
(`gguf.rs`): part file names, and `load_gguf_model`.

The directory is a lookup from file names to contents; a file that is not
there cannot be mapped.
-/
import Minfer.Gguf.Parse

namespace Minfer.Gguf

open Minfer.Lib (leNat signed utf8Encode)

-- ============================ integers

/-- One of the `get_val_*` functions at index 0: the first `size` bytes. -/
def GgufKv.firstBytes (kv : GgufKv) (size : Nat) : Except Stop (List UInt8) :=
  if kv.data.length < size then .error .panic else .ok (kv.data.take size)

/-- The unsigned value at index 0. -/
def GgufKv.getUnsigned (kv : GgufKv) (size : Nat) : Except Stop (Option Int) :=
  (kv.firstBytes size).map fun bytes => some (leNat bytes : Int)

/-- The signed value at index 0. -/
def GgufKv.getSigned (kv : GgufKv) (size : Nat) : Except Stop (Option Int) :=
  (kv.firstBytes size).map fun bytes => some (signed (8 * size) (leNat bytes))

/-- `get_i64`: any integer or boolean value, as an `i64`. -/
def GgufKv.getI64 (kv : GgufKv) : Except Stop (Option Int) :=
  match kv.type with
  | .int64 | .uint64 => kv.getSigned 8
  | .uint32 => kv.getUnsigned 4
  | .int32 => kv.getSigned 4
  | .uint16 => kv.getUnsigned 2
  | .int16 => kv.getSigned 2
  | .uint8 => kv.getUnsigned 1
  | .int8 => kv.getSigned 1
  | .bool => (kv.firstBytes 1).map fun bytes =>
      some (if leNat bytes ≠ 0 then 1 else 0)
  | .float32 | .float64 | .string | .array => .ok none

/-- `get_key_val_i64`. -/
def GgufContext.getKeyValI64 (ctx : GgufContext) (key : Text) :
    Except Stop (Option Int) :=
  match ctx.kv.find? (·.key = key) with
  | none => .ok none
  | some kv => kv.getI64

-- ========================== file names

/-- Split a text at the last occurrence of a pattern. -/
def rsplitOnce (pat : Text) : Text → Option (Text × Text)
  | [] => if pat = [] then some ([], []) else none
  | c :: rest =>
      match rsplitOnce pat rest with
      | some (before, after) => some (c :: before, after)
      | none => if pat.isPrefixOf (c :: rest)
          then some ([], (c :: rest).drop pat.length) else none

/-- `strip_suffix`. -/
def stripSuffix (suffix text : Text) : Option Text :=
  if suffix.isSuffixOf text then some (text.take (text.length - suffix.length))
    else none

/-- `str::parse::<usize>`: decimal digits, after an optional plus sign. -/
def parseUsize (text : Text) : Option Nat :=
  let digits := match text with
    | '+' :: rest => rest
    | _ => text
  if digits ≠ [] ∧ digits.all Char.isDigit
      ∧ Nat.ofDigitChars 10 digits 0 < 2 ^ 64 then
    some (Nat.ofDigitChars 10 digits 0)
  else none

/-- `split_file_info`: the prefix, the zero-based index and the count of
`name-0000X-of-0000Y.gguf`. -/
def splitFileInfo (name : Text) : Option (Text × Nat × Nat) := do
  let stem ← stripSuffix ".gguf".toList name
  let (idxPart, countStr) ← rsplitOnce "-of-".toList stem
  let (pre, idxNum) ← rsplitOnce "-".toList idxPart
  guard ((utf8Encode idxNum).length = 5 ∧ (utf8Encode countStr).length = 5)
  let idx ← parseUsize idxNum
  let count ← parseUsize countStr
  guard (idx ≠ 0 ∧ count ≠ 0 ∧ idx ≤ count)
  return (pre, idx - 1, count)

/-- A number as `{:05}` prints it. -/
def fiveDigits (n : Nat) : Text :=
  List.replicate (5 - (Nat.toDigits 10 n).length) '0' ++ Nat.toDigits 10 n

/-- `format!("{}-{:05}-of-{:05}.gguf", prefix, p + 1, total)`. -/
def partName (stem : Text) (p total : Nat) : Text :=
  stem ++ "-".toList ++ fiveDigits (p + 1) ++ "-of-".toList ++ fiveDigits total
    ++ ".gguf".toList

/-- `resolve_splits`: the names of all parts, from the first one's. -/
def resolveSplits (name : Text) : Option (List Text) := do
  let (stem, idx, count) ← splitFileInfo name
  guard (idx = 0)
  return (List.range count).map fun p => partName stem p count

-- =============================== model

/-- `GgufPart`: a parsed file and its bytes. -/
structure GgufPart where
  ctx : GgufContext
  data : List UInt8
deriving Repr, DecidableEq

/-- Map and parse one file. -/
def openPart (grant : Nat) (files : Text → Option (List UInt8)) (name : Text) :
    Except Stop GgufPart :=
  match files name with
  | none => .error .refused
  | some data => (initFromData grant data).map fun ctx => ⟨ctx, data⟩

/-- An integer key as a `usize`, or its default. -/
def GgufContext.getUsize (ctx : GgufContext) (key : Text) (default : Nat) :
    Except Stop Nat :=
  (ctx.getKeyValI64 key).map fun v => (v.map asU64).getD default

def keySplitNo : Text := "split.no".toList

def keySplitCount : Text := "split.count".toList

/-- The part loop: part `i` must carry its own number. -/
def loadParts (grant : Nat) (files : Text → Option (List UInt8)) :
    Nat → List Text → Except Stop (List GgufPart)
  | _, [] => .ok []
  | i, name :: rest => do
      let part ← openPart grant files name
      let no ← part.ctx.getUsize keySplitNo 0
      if no ≠ i then .error .refused
      else return part :: (← loadParts grant files (i + 1) rest)

/-- `load_gguf_model`. -/
def loadGgufModel (grant : Nat) (files : Text → Option (List UInt8)) (name : Text) :
    Except Stop (List GgufPart) := do
  let part ← openPart grant files name
  let splitCount ← part.ctx.getUsize keySplitCount 1
  if splitCount ≤ 1 then return [part]
  else
    let splitNo ← part.ctx.getUsize keySplitNo 0
    if splitNo ≠ 0 then .error .refused
    else
      match resolveSplits name with
      | none => .error .refused
      | some names =>
          if names.length ≠ splitCount then .error .refused
          else loadParts grant files 0 names

end Minfer.Gguf
