/-
The GGUF parser (`gguf.rs`): a reader over the mapped file and
`init_from_reader`.

A parse stops by refusing the file (`None`) or by a panic; both end it
and neither has a result. The reader's `nbytes_remain` is always what the
file has left after `offset`, so it is computed here.

# Allocations

The parser reserves memory for every string and every array before it reads
their bytes. `read_string`, `read_vec` and `read_string_vec` test the count
first against what the file has left, so what they reserve is bounded by the
file in memory, and these reservations are taken to be granted. A boolean
array has no such test: its buffer is reserved with the count the file
states, a `u64` of the file's own choosing.

How much of that a process is granted is not said by the code, so it is a
parameter: `grant` bounds what the allocator gives beyond the file's own
size. A count of `2^63` or more overflows the capacity of a `Vec`, which is a
panic; a smaller one that is not granted aborts the process. The model does
not tell the two apart.
-/
import Minfer.Gguf.Format

namespace Minfer.Gguf

open Minfer.Lib (leNat signed fromUtf8Lossy)

-- ============================== reader

/-- Why there is no result: `None`, or the end of the process, by a panic or by
an allocation that fails. -/
inductive Stop where
  | refused
  | panic
deriving Repr, DecidableEq

/-- `GgufReader`. -/
structure GgufReader where
  data : List UInt8
  offset : Nat

namespace GgufReader

/-- `nbytes_remain`. -/
def nbytesRemain (r : GgufReader) : Nat := r.data.length - r.offset

end GgufReader

/-- One step of the parse. -/
abbrev Parse := StateT GgufReader (Except Stop)

namespace Parse

variable {α : Type}

def stop (s : Stop) : Parse α := fun _ => .error s

/-- Stop unless a condition holds. -/
def ensure (s : Stop) (p : Prop) [Decidable p] : Parse Unit :=
  if p then pure () else stop s

/-- `read_raw`, after the length test of its callers. -/
def readRaw (size : Nat) : Parse (List UInt8) := fun r =>
  if size > r.nbytesRemain then .error .refused
  else .ok ((r.data.drop r.offset).take size, { r with offset := r.offset + size })

/-- `read_val` of an unsigned type of `size` bytes. -/
def readNat (size : Nat) : Parse Nat := do return leNat (← readRaw size)

/-- `read_val::<i32>` / `read_val::<i64>`. -/
def readInt (size : Nat) : Parse Int := do return signed (8 * size) (← readNat size)

def ggufMaxStringLength : Nat := 1024 * 1024 * 1024

def ggufMaxArrayElements : Nat := 1024 * 1024 * 1024

/-- The bytes left to read. -/
def remaining : Parse Nat := fun r => .ok (r.nbytesRemain, r)

/-- `read_string`. -/
def readString : Parse Text := do
  let size ← readNat 8
  ensure .refused (size ≤ ggufMaxStringLength)
  let left ← remaining
  ensure .refused (size ≤ left)
  return fromUtf8Lossy (← readRaw size)

/-- `n` values of `size` bytes, as raw bytes. -/
def readMany (size : Nat) : Nat → Parse (List UInt8)
  | 0 => pure []
  | n + 1 => do
      let x ← readRaw size
      return x ++ (← readMany size n)

/-- `read_vec`. -/
def readVec (size n : Nat) : Parse (List UInt8) := do
  ensure .refused (n ≤ ggufMaxArrayElements)
  let left ← remaining
  ensure .refused (n ≤ left / size)
  readMany size n

/-- `n` strings. -/
def readStrings : Nat → Parse (List Text)
  | 0 => pure []
  | n + 1 => do
      let s ← readString
      return s :: (← readStrings n)

/-- `read_string_vec`. -/
def readStringVec (n : Nat) : Parse (List Text) := do
  ensure .refused (n ≤ ggufMaxArrayElements)
  let left ← remaining
  ensure .refused (n * 8 ≤ left)
  readStrings n

/-- `read_bool`, as the byte it is stored as. -/
def readBool : Parse UInt8 := do
  let b ← readNat 1
  return if b ≠ 0 then 1 else 0

/-- The loop over a boolean array. -/
def readBools : Nat → Parse (List UInt8)
  | 0 => pure []
  | n + 1 => do
      let b ← readBool
      return b :: (← readBools n)

/-- A buffer of `n` bytes can be reserved, with `left` bytes of the file still
to read: it is no larger than these, or than what the allocator grants. -/
def Reservable (grant left n : Nat) : Prop := n < 2 ^ 63 ∧ (n ≤ left ∨ n ≤ grant)

instance (grant left n : Nat) : Decidable (Reservable grant left n) :=
  inferInstanceAs (Decidable (_ ∧ _))

/-- A boolean array; its buffer is reserved up front, with no test of the
count. -/
def readBoolVec (grant n : Nat) : Parse (List UInt8) := do
  let left ← remaining
  ensure .panic (Reservable grant left n)
  readBools n

/-- `read_gguf_type`. -/
def readGgufType : Parse GgufType := do
  match GgufType.fromI32 (← readInt 4) with
  | some t => return t
  | none => stop .panic

/-- `read_ggml_type`. -/
def readGgmlType : Parse GgmlType := do
  match GgmlType.fromI32 (← readInt 4) with
  | some t => return t
  | none => stop .panic

-- ========================== key values

/-- An array of `n` values. -/
def readArray (grant : Nat) (key : Text) (type : GgufType) (n : Nat) :
    Parse GgufKv :=
  match type with
  | .array => stop .refused
  | .string => do return ⟨key, true, .string, [], ← readStringVec n⟩
  | .bool => do return ⟨key, true, .bool, ← readBoolVec grant n, []⟩
  | _ => do return ⟨key, true, type, ← readVec type.typeSize n, []⟩

/-- One value. -/
def readScalar (key : Text) (type : GgufType) : Parse GgufKv :=
  match type with
  | .array => stop .refused
  | .string => do return ⟨key, false, .string, [], [← readString]⟩
  | .bool => do return ⟨key, false, .bool, [← readBool], []⟩
  | _ => do return ⟨key, false, type, ← readRaw type.typeSize, []⟩

/-- One key/value pair; a key that was read before is refused. -/
def readKv (grant : Nat) (seen : List GgufKv) : Parse GgufKv := do
  let key ← readString
  ensure .refused (∀ kv ∈ seen, kv.key ≠ key)
  let type ← readGgufType
  if type = .array then
    let elem ← readGgufType
    let n ← readNat 8
    readArray grant key elem n
  else readScalar key type

/-- The key/value loop. -/
def readKvs (grant : Nat) : Nat → List GgufKv → Parse (List GgufKv)
  | 0, seen => pure seen
  | n + 1, seen => do
      let kv ← readKv grant seen
      readKvs grant n (seen ++ [kv])

-- ============================= tensors

/-- The shape loop: at most four dimensions, the rest are 1. -/
def readDims : Nat → Parse (List Int)
  | 0 => pure []
  | n + 1 => do
      let v ← readInt 8
      ensure .refused (0 ≤ v)
      return v :: (← readDims n)

/-- The dimensions a shape has, filled up with ones. -/
def shapeOf (dims : List Int) : Int × Int × Int × Int :=
  (dims.getD 0 1, dims.getD 1 1, dims.getD 2 1, dims.getD 3 1)

/-- The number of elements is representable. Division by zero panics; the
tests run in this order. -/
def checkElements (ne : Int × Int × Int × Int) : Parse Unit := do
  ensure .panic (ne.2.1 ≠ 0)
  ensure .refused (ne.1 < i64Max / ne.2.1)
  ensure .panic (ne.2.2.1 ≠ 0)
  ensure .refused (wrapI64 (ne.1 * ne.2.1) < i64Max / ne.2.2.1)
  ensure .panic (ne.2.2.2 ≠ 0)
  ensure .refused (wrapI64 (wrapI64 (ne.1 * ne.2.1) * ne.2.2.1) < i64Max / ne.2.2.2)

/-- The strides of a shape. -/
def strides (type : GgmlType) (ne : Int × Int × Int × Int) : Nat × Nat × Nat × Nat :=
  let nb1 := wrap64 (type.typeSize * asU64 (ne.1.tdiv type.blckSize))
  let nb2 := wrap64 (nb1 * asU64 ne.2.1)
  (type.typeSize, nb1, nb2, wrap64 (nb2 * asU64 ne.2.2.1))

def ggmlMaxName : Nat := 64

def ggmlMaxDims : Nat := 4

/-- One tensor record. -/
def readInfo (seen : List GgufTensorInfo) : Parse GgufTensorInfo := do
  let name ← readString
  ensure .refused ((Lib.utf8Encode name).length < ggmlMaxName)
  ensure .refused (∀ info ∈ seen, info.name ≠ name)
  let nDims ← readNat 4
  ensure .refused (nDims ≤ ggmlMaxDims)
  let ne := shapeOf (← readDims nDims)
  checkElements ne
  let type ← readGgmlType
  -- rows are whole blocks
  ensure .refused (ne.1.tmod type.blckSize = 0)
  ensure .refused (asU64 ((neProduct ne).tdiv type.blckSize) ≤ u64Max / type.typeSize)
  let offset ← readNat 8
  return ⟨name, ne, strides type ne, type, offset⟩

/-- The tensor loop. -/
def readInfos : Nat → List GgufTensorInfo → Parse (List GgufTensorInfo)
  | 0, seen => pure seen
  | n + 1, seen => do
      let info ← readInfo seen
      readInfos n (seen ++ [info])

end Parse

-- ========================= the context

/-- `get_ne`, with its assertions. -/
def GgufKv.getNe (kv : GgufKv) : Except Stop Nat :=
  if kv.type = .string then
    if kv.isArray ∨ kv.dataString.length = 1 then .ok kv.dataString.length
      else .error .panic
  else if kv.type.typeSize = 0 ∨ kv.data.length % kv.type.typeSize ≠ 0
    then .error .panic
  else if kv.isArray ∨ kv.data.length / kv.type.typeSize = 1 then
    .ok (kv.data.length / kv.type.typeSize)
  else .error .panic

/-- `get_val_u32` of a context: one value, of type `u32`. -/
def GgufKv.getValU32 (kv : GgufKv) : Except Stop Nat :=
  match kv.getNe with
  | .error s => .error s
  | .ok ne => if ne = 1 ∧ kv.type = .uint32 then .ok (leNat (kv.data.take 4))
      else .error .panic

/-- `GGUF_KEY_GENERAL_ALIGNMENT`. -/
def keyGeneralAlignment : Text := "general.alignment".toList

def ggufDefaultAlignment : Nat := 32

def ggufVersion : Nat := 3

def ggufMagic : List UInt8 := [0x47, 0x47, 0x55, 0x46]

/-- The alignment the metadata asks for. -/
def alignmentOf (kvs : List GgufKv) : Except Stop Nat :=
  match kvs.find? (·.key = keyGeneralAlignment) with
  | none => .ok ggufDefaultAlignment
  | some kv => kv.getValU32

/-- `data_section_size`: the furthest tensor end, every range inside the
limit. -/
def dataSectionSize (limit : Nat) : List GgufTensorInfo → Nat → Except Stop Nat
  | [], size => .ok size
  | ti :: rest, size =>
      if ti.offset + ti.ggmlNbytes > u64Max then .error .refused
      else if ti.offset + ti.ggmlNbytes > limit then .error .refused
      else dataSectionSize limit rest (max size (ti.offset + ti.ggmlNbytes))

/-- `size_of::<GgufTensorInfo>()` and `size_of::<GgufKv>()` on a 64-bit
target. -/
def sizeOfTensorInfo : Nat := 104

def sizeOfKv : Nat := 80

open Parse in
/-- The header: version and the two counts. -/
def readHeader : Parse (Nat × Nat × Nat) := do
  let magic ← readVec 1 4
  ensure .refused (magic = ggufMagic)
  let version ← readNat 4
  ensure .refused (version ≠ 0)
  ensure .refused (version % 2 ^ 16 ≠ 0)
  ensure .refused (version ≠ 1)
  ensure .refused (version ≤ ggufVersion)
  let nTensors ← readInt 8
  ensure .refused (0 ≤ nTensors ∧ nTensors ≤ (u64Max / sizeOfTensorInfo : Nat))
  let nKv ← readInt 8
  ensure .refused (0 ≤ nKv ∧ nKv ≤ (u64Max / sizeOfKv : Nat))
  return (version, nTensors.toNat, nKv.toNat)

open Parse in
/-- Where the data section starts: right here, or at the next aligned offset
when there are tensors. -/
def seekData (nTensors alignment : Nat) : Parse Nat := fun r =>
  if nTensors > 0 then
    if ggmlPad r.offset alignment > r.data.length then .error .refused
    else .ok (ggmlPad r.offset alignment,
      { r with offset := ggmlPad r.offset alignment })
  else .ok (r.offset, r)

open Parse in
/-- `init_from_reader`. -/
def initFromReader (grant len : Nat) : Parse GgufContext := do
  let (version, nTensors, nKv) ← readHeader
  let kv ← readKvs grant nKv []
  let alignment ← StateT.lift (alignmentOf kv)
  ensure .refused (alignment ≠ 0 ∧ alignment &&& (alignment - 1) = 0)
  let info ← readInfos nTensors []
  let offset ← seekData nTensors alignment
  let size ← StateT.lift (dataSectionSize (len - offset) info 0)
  return ⟨version, kv, info, alignment, offset, size⟩

/-- `init_from_data`. -/
def initFromData (grant : Nat) (data : List UInt8) : Except Stop GgufContext :=
  (initFromReader grant data.length ⟨data, 0⟩).map (·.1)

end Minfer.Gguf
