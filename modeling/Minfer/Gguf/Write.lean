/-
The GGUF v3 writer (`gguf_write.rs`): key/value and index encoding, one
file, and the split into parts.

A file is its bytes. A payload provider is the bytes it writes for each
tensor.
-/
import Minfer.Gguf.Load

namespace Minfer.Gguf

open Minfer.Lib (leBytes utf8Encode)

-- ============================== errors

/-- Why nothing was written; each carries what its message names. -/
inductive WriteError where
  /-- The name has 64 bytes or more. -/
  | nameTooLong (name : Text) (bytes : Nat)
  /-- The row is not a whole number of blocks. -/
  | partialRow (name : Text) (type : GgmlType) (ne0 : Int)
  /-- Dimension `j` is below 1. -/
  | badDim (name : Text) (j : Nat) (ne : Int)
  | duplicateName (name : Text)
  | badAlignment (alignment : Nat)
  /-- The provider wrote another number of bytes. -/
  | payloadSize (name : Text) (wrote expected : Nat)
  | unwritten (written total : Nat)
  | zeroCap
  | noTensors
  /-- A tensor larger than the part cap. -/
  | tensorTooLarge (name : Text) (padded cap : Nat)
  /-- An assertion or an index fails. -/
  | panic
deriving Repr, DecidableEq

-- =============================== specs

/-- `TensorSpec`. -/
structure TensorSpec where
  name : Text
  ne : Int × Int × Int × Int
  type : GgmlType
deriving Repr, DecidableEq

/-- `nbytes`: whole blocks times the block's bytes. -/
def TensorSpec.nbytes (spec : TensorSpec) : Nat :=
  wrap64 (asU64 ((neProduct spec.ne).tdiv spec.type.blckSize) * spec.type.typeSize)

/-- `ggml_n_dims`: trailing ones are dropped, the first dimension stays. -/
def ggmlNDims (ne : Int × Int × Int × Int) : Nat :=
  if ne.2.2.2 ≠ 1 then 4
  else if ne.2.2.1 ≠ 1 then 3
  else if ne.2.1 ≠ 1 then 2
  else 1

/-- The checks of one spec against those before it. -/
def validateSpec (seen : List TensorSpec) (s : TensorSpec) : Except WriteError Unit :=
  if (utf8Encode s.name).length ≥ 64
    then .error (.nameTooLong s.name (utf8Encode s.name).length)
  else if s.type.blckSize = 0 ∨ s.ne.1.tmod s.type.blckSize ≠ 0 then
    .error (.partialRow s.name s.type s.ne.1)
  else if s.ne.2.1 < 1 then .error (.badDim s.name 1 s.ne.2.1)
  else if s.ne.2.2.1 < 1 then .error (.badDim s.name 2 s.ne.2.2.1)
  else if s.ne.2.2.2 < 1 then .error (.badDim s.name 3 s.ne.2.2.2)
  else if seen.any (·.name = s.name) then .error (.duplicateName s.name)
  else .ok ()

/-- The loop of `validate_specs`, past the specs `seen`. -/
def validateFrom : List TensorSpec → List TensorSpec → Except WriteError Unit
  | _, [] => .ok ()
  | seen, s :: rest => do
      validateSpec seen s
      validateFrom (seen ++ [s]) rest

/-- `validate_specs`. -/
def validateSpecs (specs : List TensorSpec) : Except WriteError Unit :=
  validateFrom [] specs

-- ============================ encoding

/-- `write_string`. -/
def writeString (s : Text) : List UInt8 :=
  leBytes 8 (utf8Encode s).length ++ utf8Encode s

/-- `encode_kv`. -/
def encodeKv (kv : GgufKv) : Except WriteError (List UInt8) :=
  if kv.isArray then
    match kv.getNe with
    | .error _ => .error .panic
    | .ok ne =>
        .ok (writeString kv.key ++ leBytes 4 GgufType.array.code
          ++ leBytes 4 kv.type.code
          ++ leBytes 8 ne
          ++ if kv.type = .string then kv.dataString.flatMap writeString else kv.data)
  else if kv.type = .string then
    match kv.dataString with
    | [] => .error .panic
    | s :: _ => .ok (writeString kv.key ++ leBytes 4 kv.type.code ++ writeString s)
  else .ok (writeString kv.key ++ leBytes 4 kv.type.code ++ kv.data)

/-- The metadata, pair after pair. -/
def encodeKvs : List GgufKv → Except WriteError (List UInt8)
  | [] => .ok []
  | kv :: rest => do return (← encodeKv kv) ++ (← encodeKvs rest)

/-- `kv_upsert`: replace in place, or append. -/
def kvUpsert (new : GgufKv) : List GgufKv → List GgufKv
  | [] => [new]
  | kv :: rest => if kv.key = new.key then new :: rest else kv :: kvUpsert new rest

/-- `kv_remove`. -/
def kvRemove (key : Text) (kv : List GgufKv) : List GgufKv := kv.filter (·.key ≠ key)

/-- `GgufKv::new_u32`. -/
def GgufKv.newU32 (key : Text) (value : Nat) : GgufKv :=
  ⟨key, false, .uint32, leBytes 4 value, []⟩

/-- Where each tensor starts in the data section. -/
def offsetsFrom (alignment : Nat) : Nat → List TensorSpec → List Nat
  | _, [] => []
  | cursor, s :: rest =>
      cursor :: offsetsFrom alignment
        (wrap64 (cursor + ggmlPad s.nbytes alignment)) rest

/-- The shape as a list. -/
def neList (ne : Int × Int × Int × Int) : List Int :=
  [ne.1, ne.2.1, ne.2.2.1, ne.2.2.2]

/-- One record of the tensor index. -/
def encodeInfo (spec : TensorSpec) (off : Nat) : List UInt8 :=
  writeString spec.name ++ leBytes 4 (ggmlNDims spec.ne)
    ++ ((neList spec.ne).take (ggmlNDims spec.ne)).flatMap
      (fun x => leBytes 8 (asU64 x))
    ++ leBytes 4 spec.type.code ++ leBytes 8 off

/-- The tensor index. -/
def encodeInfos (specs : List TensorSpec) (offsets : List Nat) : List UInt8 :=
  (specs.zip offsets).flatMap fun p => encodeInfo p.1 p.2

/-- Everything up to the padding before the data section. -/
def encodeHeader (kv : List GgufKv) (specs : List TensorSpec) (alignment : Nat) :
    Except WriteError (List UInt8) := do
  let metadata ← encodeKvs kv
  return ggufMagic ++ leBytes 4 ggufVersion ++ leBytes 8 specs.length
    ++ leBytes 8 kv.length
    ++ metadata ++ encodeInfos specs (offsetsFrom alignment 0 specs)

/-- `Vec::resize` with zeros. -/
def resizeZero (bytes : List UInt8) (len : Nat) : List UInt8 :=
  bytes.take len ++ List.replicate (len - bytes.length) 0

-- ============================== writer

/-- `GgufWriter`; `out` is what the file holds. -/
structure GgufWriter where
  out : List UInt8
  specs : List TensorSpec
  alignment : Nat
  next : Nat

namespace GgufWriter

/-- `create`. -/
def create (kv : List GgufKv) (specs : List TensorSpec) (alignment : Nat) :
    Except WriteError GgufWriter := do
  validateSpecs specs
  if alignment = 0 ∨ alignment &&& (alignment - 1) ≠ 0
    then .error (.badAlignment alignment)
  else
    let header ← encodeHeader kv specs alignment
    return ⟨resizeZero header (ggmlPad header.length alignment), specs, alignment, 0⟩

/-- `write_tensor_data`: the payload, which must have the declared size, and
its padding. -/
def writeTensorData (w : GgufWriter) (i : Nat) (spec : TensorSpec)
    (data : Nat → List UInt8) :
    Except WriteError GgufWriter :=
  if (data i).length ≠ spec.nbytes then
    .error (.payloadSize spec.name (data i).length spec.nbytes)
  else
    .ok { w with
      out := w.out ++ data i
        ++ List.replicate (ggmlPad spec.nbytes w.alignment - spec.nbytes) 0
      next := w.next + 1 }

/-- The payload loop: provider index and spec, in file order. -/
def writeTensors (data : Nat → List UInt8) :
    GgufWriter → List (Nat × TensorSpec) → Except WriteError GgufWriter
  | w, [] => .ok w
  | w, (i, spec) :: rest => do
      let w ← w.writeTensorData i spec data
      writeTensors data w rest

/-- `finish`: the file, once every declared tensor was written. -/
def finish (w : GgufWriter) : Except WriteError (List UInt8) :=
  if w.next ≠ w.specs.length then .error (.unwritten w.next w.specs.length)
    else .ok w.out

end GgufWriter

def keySplitTensorsCount : Text := "split.tensors.count".toList

/-- The metadata without the keys a split owns. -/
def dropSplitKeys (kv : List GgufKv) : List GgufKv :=
  kvRemove keySplitTensorsCount (kvRemove keySplitCount (kvRemove keySplitNo kv))

/-- One file: header, then the payloads the provider has under `ids`. -/
def writeFile (kv : List GgufKv) (specs : List TensorSpec) (alignment : Nat)
    (ids : List Nat)
    (data : Nat → List UInt8) : Except WriteError (List UInt8) := do
  let w ← GgufWriter.create kv specs alignment
  let w ← GgufWriter.writeTensors data w (ids.zip w.specs)
  w.finish

/-- `write_single`. -/
def writeSingle (kv : List GgufKv) (specs : List TensorSpec) (alignment : Nat)
    (data : Nat → List UInt8) : Except WriteError (List UInt8) :=
  writeFile (dropSplitKeys kv) specs alignment (List.range specs.length) data

-- =============================== split

/-- The assignment loop: `parts` are closed, `cur` is open and holds
`curBytes`. -/
def assignFrom (alignment maxPartBytes : Nat) :
    List (List Nat) → List Nat → Nat → List (Nat × TensorSpec) →
      Except WriteError (List (List Nat))
  | parts, cur, _, [] => .ok (if cur = [] then parts else parts ++ [cur])
  | parts, cur, curBytes, (i, s) :: rest =>
      let padded := ggmlPad s.nbytes alignment
      if padded > maxPartBytes
        then .error (.tensorTooLarge s.name padded maxPartBytes)
      else if cur ≠ [] ∧ wrap64 (curBytes + padded) > maxPartBytes then
        assignFrom alignment maxPartBytes (parts ++ [cur]) [i] padded rest
      else assignFrom alignment maxPartBytes parts (cur ++ [i])
        (wrap64 (curBytes + padded)) rest

/-- The specs with their indices. -/
def indexed (specs : List TensorSpec) : List (Nat × TensorSpec) :=
  (List.range specs.length).zip specs

/-- `split_assignment`. -/
def splitAssignment (specs : List TensorSpec) (alignment maxPartBytes : Nat) :
    Except WriteError (List (List Nat)) :=
  if specs = [] then .error .noTensors
  else assignFrom alignment maxPartBytes [] [] 0 (indexed specs)

/-- The metadata of part `p`. -/
def partKv (kv : List GgufKv) (p total nTensors : Nat) : List GgufKv :=
  kvUpsert (.newU32 keySplitTensorsCount nTensors)
    (kvUpsert (.newU32 keySplitCount total)
      (kvUpsert (.newU32 keySplitNo p) (dropSplitKeys kv)))

/-- The specs of a part. -/
def partSpecs (specs : List TensorSpec) (ids : List Nat) : List TensorSpec :=
  ids.filterMap (specs[·]?)

/-- The part loop, from part `p` on. -/
def writeParts (stem : Text) (kv : List GgufKv) (specs : List TensorSpec)
    (alignment total : Nat) (data : Nat → List UInt8) : Nat → List (List Nat) →
    Except WriteError (List (Text × List UInt8))
  | _, [] => .ok []
  | p, ids :: rest => do
      let bytes ← writeFile (partKv kv p total specs.length)
        (partSpecs specs ids) alignment ids data
      return (partName stem p total, bytes)
        :: (← writeParts stem kv specs alignment total data
        (p + 1) rest)

/-- `write_split`: the files with their names. -/
def writeSplit (stem : Text) (kv : List GgufKv) (specs : List TensorSpec)
    (alignment maxPartBytes : Nat) (data : Nat → List UInt8) :
    Except WriteError (List (Text × List UInt8)) := do
  if maxPartBytes = 0 then .error .zeroCap
  else
    let assignment ← splitAssignment specs alignment maxPartBytes
    if assignment.length = 1 then
      let bytes ← writeSingle kv specs alignment data
      return [(stem ++ ".gguf".toList, bytes)]
    else writeParts stem kv specs alignment assignment.length data 0 assignment

end Minfer.Gguf
