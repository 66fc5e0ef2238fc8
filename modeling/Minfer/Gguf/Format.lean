/-
The GGUF container's data model (`gguf.rs`): value types, tensor types
with their block layout, key/value pairs and tensor records.

Machine integers are `Nat` and `Int`; where the source's arithmetic can
wrap, `wrap64` (`usize`, `u64`) and `wrapI64` (`i64`) say so. A string is
its characters.
-/
import Minfer.Lib.Bytes
import Minfer.Lib.Utf8

namespace Minfer.Gguf

-- ========================== arithmetic

/-- `u64` / `usize` wrap-around. -/
def wrap64 (n : Nat) : Nat := n % 2 ^ 64

/-- `i64` wrap-around. -/
def wrapI64 (x : Int) : Int := (x + 2 ^ 63) % 2 ^ 64 - 2 ^ 63

/-- `as u64` / `as usize` of an `i64`. -/
def asU64 (x : Int) : Nat := (x % 2 ^ 64).toNat

def i64Max : Int := 2 ^ 63 - 1

def u64Max : Nat := 2 ^ 64 - 1

-- =============================== types

/-- The type of a metadata value. -/
inductive GgufType where
  | uint8 | int8 | uint16 | int16 | uint32 | int32 | float32 | bool | string | array
  | uint64 | int64 | float64
deriving Repr, DecidableEq

namespace GgufType

/-- `from_i32`; the code panics on the values this has no answer for. -/
def fromI32 : Int → Option GgufType
  | 0 => some .uint8
  | 1 => some .int8
  | 2 => some .uint16
  | 3 => some .int16
  | 4 => some .uint32
  | 5 => some .int32
  | 6 => some .float32
  | 7 => some .bool
  | 8 => some .string
  | 9 => some .array
  | 10 => some .uint64
  | 11 => some .int64
  | 12 => some .float64
  | _ => none

/-- The discriminant. -/
def code : GgufType → Nat
  | .uint8 => 0
  | .int8 => 1
  | .uint16 => 2
  | .int16 => 3
  | .uint32 => 4
  | .int32 => 5
  | .float32 => 6
  | .bool => 7
  | .string => 8
  | .array => 9
  | .uint64 => 10
  | .int64 => 11
  | .float64 => 12

/-- `type_size`; 0 where it is undefined. -/
def typeSize : GgufType → Nat
  | .uint8 | .int8 | .bool => 1
  | .uint16 | .int16 => 2
  | .uint32 | .int32 | .float32 => 4
  | .uint64 | .int64 | .float64 => 8
  | .string | .array => 0

end GgufType

/-- The type of a tensor's elements. -/
inductive GgmlType where
  | f32
  | f16
  | q4_0
  | q4_1
  | q5_0
  | q5_1
  | q8_0
  | q8_1
  | q2_k
  | q3_k
  | q4_k
  | q5_k
  | q6_k
  | q8_k
  | iq2_xxs
  | iq2_xs
  | iq3_xxs
  | iq1_s
  | iq4_nl
  | iq3_s
  | iq2_s
  | iq4_xs
  | i8
  | i16
  | i32
  | i64
  | f64
  | iq1_m
  | bf16
  | tq1_0
  | tq2_0
  | mxfp4
  | nvfp4
  | q1_0
deriving Repr, DecidableEq

namespace GgmlType

/-- `from_i32`; the code panics on the values this has no answer for. -/
def fromI32 : Int → Option GgmlType
  | 0 => some .f32
  | 1 => some .f16
  | 2 => some .q4_0
  | 3 => some .q4_1
  | 6 => some .q5_0
  | 7 => some .q5_1
  | 8 => some .q8_0
  | 9 => some .q8_1
  | 10 => some .q2_k
  | 11 => some .q3_k
  | 12 => some .q4_k
  | 13 => some .q5_k
  | 14 => some .q6_k
  | 15 => some .q8_k
  | 16 => some .iq2_xxs
  | 17 => some .iq2_xs
  | 18 => some .iq3_xxs
  | 19 => some .iq1_s
  | 20 => some .iq4_nl
  | 21 => some .iq3_s
  | 22 => some .iq2_s
  | 23 => some .iq4_xs
  | 24 => some .i8
  | 25 => some .i16
  | 26 => some .i32
  | 27 => some .i64
  | 28 => some .f64
  | 29 => some .iq1_m
  | 30 => some .bf16
  | 34 => some .tq1_0
  | 35 => some .tq2_0
  | 39 => some .mxfp4
  | 40 => some .nvfp4
  | 41 => some .q1_0
  | _ => none

/-- The discriminant. -/
def code : GgmlType → Nat
  | .f32 => 0
  | .f16 => 1
  | .q4_0 => 2
  | .q4_1 => 3
  | .q5_0 => 6
  | .q5_1 => 7
  | .q8_0 => 8
  | .q8_1 => 9
  | .q2_k => 10
  | .q3_k => 11
  | .q4_k => 12
  | .q5_k => 13
  | .q6_k => 14
  | .q8_k => 15
  | .iq2_xxs => 16
  | .iq2_xs => 17
  | .iq3_xxs => 18
  | .iq1_s => 19
  | .iq4_nl => 20
  | .iq3_s => 21
  | .iq2_s => 22
  | .iq4_xs => 23
  | .i8 => 24
  | .i16 => 25
  | .i32 => 26
  | .i64 => 27
  | .f64 => 28
  | .iq1_m => 29
  | .bf16 => 30
  | .tq1_0 => 34
  | .tq2_0 => 35
  | .mxfp4 => 39
  | .nvfp4 => 40
  | .q1_0 => 41

/-- `type_size`: bytes of one block. -/
def typeSize : GgmlType → Nat
  | .f32 => 4
  | .f16 => 2
  | .q4_0 => 18
  | .q4_1 => 20
  | .q5_0 => 22
  | .q5_1 => 24
  | .q8_0 => 34
  | .q8_1 => 36
  | .q2_k => 70
  | .q3_k => 110
  | .q4_k => 144
  | .q5_k => 176
  | .q6_k => 210
  | .q8_k => 290
  | .iq2_xxs => 42
  | .iq2_xs => 36
  | .iq3_xxs => 58
  | .iq1_s => 36
  | .iq4_nl => 18
  | .iq3_s => 64
  | .iq2_s => 48
  | .iq4_xs => 28
  | .i8 => 1
  | .i16 => 2
  | .i32 => 4
  | .i64 => 8
  | .f64 => 8
  | .iq1_m => 54
  | .bf16 => 2
  | .tq1_0 => 68
  | .tq2_0 => 100
  | .mxfp4 => 72
  | .nvfp4 => 80
  | .q1_0 => 6

/-- `blck_size`: elements of one block. -/
def blckSize : GgmlType → Nat
  | .f32 => 1
  | .f16 => 1
  | .q4_0 => 32
  | .q4_1 => 32
  | .q5_0 => 32
  | .q5_1 => 32
  | .q8_0 => 32
  | .q8_1 => 32
  | .q2_k => 256
  | .q3_k => 256
  | .q4_k => 256
  | .q5_k => 256
  | .q6_k => 256
  | .q8_k => 256
  | .iq2_xxs => 256
  | .iq2_xs => 256
  | .iq3_xxs => 256
  | .iq1_s => 256
  | .iq4_nl => 32
  | .iq3_s => 256
  | .iq2_s => 256
  | .iq4_xs => 32
  | .i8 => 1
  | .i16 => 1
  | .i32 => 1
  | .i64 => 1
  | .f64 => 1
  | .iq1_m => 256
  | .bf16 => 1
  | .tq1_0 => 256
  | .tq2_0 => 256
  | .mxfp4 => 32
  | .nvfp4 => 32
  | .q1_0 => 32

theorem typeSize_pos (t : GgmlType) : 0 < t.typeSize := by
  cases t <;> decide

theorem blckSize_pos (t : GgmlType) : 0 < t.blckSize := by
  cases t <;> decide

end GgmlType

/-- `ggml_pad`: round up to a multiple of a power of two. -/
def ggmlPad (x n : Nat) : Nat := wrap64 (x + n - 1) &&& (2 ^ 64 - 1 - (n - 1))

-- ============================= records

/-- A string of the format. -/
abbrev Text := List Char

/-- `GgufKv`: raw little-endian bytes, or strings. -/
structure GgufKv where
  key : Text
  isArray : Bool
  type : GgufType
  data : List UInt8
  dataString : List Text
deriving Repr, DecidableEq

/-- `GgufTensorInfo`: shape, strides, type and place in the data section. -/
structure GgufTensorInfo where
  name : Text
  ne : Int × Int × Int × Int
  nb : Nat × Nat × Nat × Nat
  type : GgmlType
  offset : Nat
deriving Repr, DecidableEq

/-- The wrapping product of a shape. -/
def neProduct (ne : Int × Int × Int × Int) : Int :=
  wrapI64 (wrapI64 (wrapI64 (ne.1 * ne.2.1) * ne.2.2.1) * ne.2.2.2)

namespace GgufTensorInfo

/-- `nbytes`: whole blocks times the block's bytes. -/
def nbytes (info : GgufTensorInfo) : Nat :=
  wrap64 (asU64 ((neProduct info.ne).tdiv info.type.blckSize) * info.type.typeSize)

/-- `ggml_nbytes`: the end of the last element, by strides. -/
def ggmlNbytes (info : GgufTensorInfo) : Nat :=
  if info.ne.1 ≤ 0 ∨ info.ne.2.1 ≤ 0 ∨ info.ne.2.2.1 ≤ 0 ∨ info.ne.2.2.2 ≤ 0 then 0
  else
    let tail (start : Nat) : Nat :=
      wrap64 (wrap64 (wrap64 (start + wrap64 (asU64 (info.ne.2.1 - 1) * info.nb.2.1))
        + wrap64 (asU64 (info.ne.2.2.1 - 1) * info.nb.2.2.1))
        + wrap64 (asU64 (info.ne.2.2.2 - 1) * info.nb.2.2.2))
    if info.type.blckSize = 1 then
      tail (wrap64 (info.type.typeSize + wrap64 (asU64 (info.ne.1 - 1) * info.nb.1)))
    else tail (wrap64 (asU64 info.ne.1 * info.nb.1) / info.type.blckSize)

end GgufTensorInfo

/-- `GgufContext`. -/
structure GgufContext where
  version : Nat
  kv : List GgufKv
  info : List GgufTensorInfo
  alignment : Nat
  /-- Where the data section starts. -/
  offset : Nat
  /-- The data section's size. -/
  size : Nat
deriving Repr, DecidableEq

end Minfer.Gguf
