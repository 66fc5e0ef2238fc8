/-
A HuggingFace checkpoint converted to one GGUF file (`convert.rs`): the
safetensors headers, the names, the element conversion, the plan and the
writer that follows it.

What is read before the tensors (`config.json`, `tokenizer.json` and the
metadata made of them) is its outcome here. JSON text, the half-precision
format and file paths are not this program's own and are parameters.
-/
import Mathlib.Data.Char
import Mathlib.Data.List.Lex
import Mathlib.Data.List.Sort
import Minfer.Gguf.Write
import Minfer.Lib.Json
import Minfer.Lib.SortedMap

namespace Minfer.Convert

open Minfer.Gguf
    (Text GgmlType GgufKv GgufWriter TensorSpec WriteError u64Max wrap64
      wrapI64)
open Minfer.Lib (Json SortedMap leBytes leNat)

-- =============================== types

/-- `OutType`. -/
inductive OutType where
  | f16
  | bf16
  | f32
deriving Repr, DecidableEq

namespace OutType

/-- `ggml_type`. -/
def ggmlType : OutType → GgmlType
  | f16 => .f16
  | bf16 => .bf16
  | f32 => .f32

/-- `keeps_1d_f32`. -/
def keeps1dF32 : OutType → Bool
  | f16 | bf16 => true
  | f32 => false

/-- `tensor_type`: norms and biases stay in `f32`. -/
def tensorType (out : OutType) (ndims : Nat) : GgmlType :=
  if out.keeps1dF32 && ndims ≤ 1 then .f32 else out.ggmlType

end OutType

/-- `HfDtype`. -/
inductive HfDtype where
  | bf16
  | f16
  | f32
deriving Repr, DecidableEq

namespace HfDtype

/-- `parse`. -/
def parse (s : Text) : Option HfDtype :=
  if s = "BF16".toList then some .bf16
  else if s = "F16".toList then some .f16
  else if s = "F32".toList then some .f32
  else none

/-- `elem_size`. -/
def elemSize : HfDtype → Nat
  | bf16 | f16 => 2
  | f32 => 4

end HfDtype

/-- Why a checkpoint is refused; each carries what its message names. A file
is named by its place among the shards. -/
inductive ConvertError where
  /-- `Config::load`, `TokenizerData::load`. -/
  | config (msg : Text)
  | tokenizer (msg : Text)
  /-- Neither `model.safetensors` nor its index. -/
  | noModel
  | indexJson
  | noWeightMap
  | openShard (file : Nat)
  | headerLength (file : Nat)
  | implausibleHeader (file hlen : Nat)
  | headerRead (file : Nat)
  | headerJson (file : Nat)
  | headerNotObject (file : Nat)
  | noDtype (file : Nat) (name : Text)
  | dtype (name dtype : Text)
  | noShape (file : Nat) (name : Text)
  | noOffsets (file : Nat) (name : Text)
  | badOffsets (file : Nat) (name : Text) (offs : List Nat)
  | span (file : Nat) (name : Text) (shape : List Int) (needs span : Nat)
  /-- `unknown_tensor_error`. -/
  | unknownTensor (name : Text)
  | noTensors
  | range (file start stop len : Nat)
  | write (e : WriteError)
deriving Repr, DecidableEq

-- ========================== conversion

/-- The half-precision format, on bits: `half::f16::to_f32` and
`half::f16::from_f32`. -/
structure Half where
  toF32 : Nat → Nat
  fromF32 : Nat → Nat

/-- `f32_to_bf16_bits`: round to nearest even, with a NaN forced quiet. -/
def f32ToBf16Bits (u : Nat) : Nat :=
  if u % 0x80000000 > 0x7f800000 then u / 0x10000 ||| 64
  else (u + (0x7fff + u / 0x10000 % 2)) % 0x100000000 / 0x10000

/-- `chunks_exact`. -/
def chunksExact (n : Nat) (src : List UInt8) : List (List UInt8) :=
  (List.range (src.length / n)).map fun i => (src.drop (i * n)).take n

/-- The `f32` an element stands for. -/
def decodeElement (half : Half) : HfDtype → List UInt8 → Nat
  | .bf16, c => leNat c * 0x10000
  | .f16, c => half.toF32 (leNat c)
  | .f32, c => leNat c

/-- `convert_bytes`. -/
def convertBytes (half : Half) (dtype : HfDtype) (out : OutType)
    (src : List UInt8) : List UInt8 :=
  match dtype, out with
  | .f16, .f16 => src
  | .f32, .f32 => src
  | .bf16, .f32 | .f16, .f32 =>
      (chunksExact dtype.elemSize src).flatMap fun c =>
        leBytes 4 (decodeElement half dtype c)
  | .bf16, .f16 | .f32, .f16 =>
      (chunksExact dtype.elemSize src).flatMap fun c =>
        leBytes 2 (half.fromF32 (decodeElement half dtype c))
  | .bf16, .bf16 | .f16, .bf16 | .f32, .bf16 =>
      (chunksExact dtype.elemSize src).flatMap fun c =>
        leBytes 2 (f32ToBf16Bits (decodeElement half dtype c))

/-- `convert_bytes_ggml`. -/
def convertBytesGgml (half : Half) (dtype : HfDtype) (out : GgmlType)
    (src : List UInt8) : List UInt8 :=
  match out with
  | .f32 => convertBytes half dtype .f32 src
  | .bf16 => convertBytes half dtype .bf16 src
  | _ => convertBytes half dtype .f16 src

-- =============================== names

/-- `strip_prefix`. -/
def stripPrefix (start text : Text) : Option Text :=
  if start.isPrefixOf text then some (text.drop start.length) else none

/-- `split_once`. -/
def splitOnce (c : Char) (text : Text) : Option (Text × Text) :=
  match text.dropWhile (· ≠ c) with
  | [] => none
  | _ :: rest => some (text.takeWhile (· ≠ c), rest)

/-- Decimal digits, at least one. -/
def decimal (digits : Text) : Option Nat :=
  if digits = [] ∨ ¬ digits.all Char.isDigit then none
  else some (digits.foldl (fun n c => n * 10 + (c.toNat - 48)) 0)

/-- `parse::<i64>`: a sign may stand in front. -/
def parseI64 (s : Text) : Option Int :=
  match s with
  | '-' :: digits => (decimal digits).bind fun n =>
      if n ≤ 2 ^ 63 then some (-n) else none
  | '+' :: digits => (decimal digits).bind fun n =>
      if n < 2 ^ 63 then some n else none
  | digits => (decimal digits).bind fun n => if n < 2 ^ 63 then some n else none

/-- The tensors outside of the blocks. -/
def outerNames : List (String × String) :=
  [("model.embed_tokens.weight", "token_embd.weight"),
    ("model.norm.weight", "output_norm.weight"),
    ("lm_head.weight", "output.weight")]

/-- The tensors of a block. -/
def blockNames : List (String × String) :=
  [("input_layernorm.weight", "attn_norm.weight"),
    ("post_attention_layernorm.weight", "ffn_norm.weight"),
    ("self_attn.q_proj.weight", "attn_q.weight"),
      ("self_attn.q_proj.bias", "attn_q.bias"),
    ("self_attn.k_proj.weight", "attn_k.weight"),
      ("self_attn.k_proj.bias", "attn_k.bias"),
    ("self_attn.v_proj.weight", "attn_v.weight"),
      ("self_attn.v_proj.bias", "attn_v.bias"),
    ("self_attn.o_proj.weight", "attn_output.weight"),
      ("mlp.gate_proj.weight", "ffn_gate.weight"),
    ("mlp.up_proj.weight", "ffn_up.weight"),
      ("mlp.down_proj.weight", "ffn_down.weight")]

def lookupName (table : List (String × String)) (name : Text) : Option String :=
  (table.find? fun p => p.1.toList = name).map (·.2)

/-- The tensor that is meant to be left out. -/
def isRotary (name : Text) : Bool :=
  ".rotary_emb.inv_freq".toList.isSuffixOf name
    || "rotary_emb.inv_freq".toList.isSuffixOf name

/-- `map_tensor_name`. -/
def mapTensorName (name : Text) (nLayer : Int) : Option Text :=
  if isRotary name then none
  else
    match lookupName outerNames name with
    | some mapped => some mapped.toList
    | none => do
        let rest ← stripPrefix "model.layers.".toList name
        let (idx, tail) ← splitOnce '.' rest
        let i ← parseI64 idx
        if i < 0 ∨ i ≥ nLayer then none
        else
          let suffix ← lookupName blockNames tail
          some s!"blk.{i}.{suffix}".toList

-- ========================== checkpoint

/-- What a conversion finds: the directory and the code that is not this
program's. -/
structure Env (P : Type) where
  half : Half
  /-- `serde_json::from_slice`. -/
  fromSlice : List UInt8 → Option Json
  /-- `Path::join` on the directory. -/
  join : Text → P
  /-- A file that can be read. -/
  file : P → Option (List UInt8)
  /-- `Config::load`, as far as the tensors go: the number of layers. -/
  config : Except Text Int
  /-- `TokenizerData::load` and `build_metadata`. -/
  metadata : OutType → Except Text (List GgufKv)

/-- `SafeFile`, with the bytes of the file. -/
structure SafeFile where
  dataOffset : Nat
  header : List UInt8
  dataLen : Nat
  bytes : List UInt8
deriving Repr, DecidableEq

namespace SafeFile

/-- `open`; `file` names it in an error. -/
def fromBytes (file : Nat) (bytes : List UInt8) : Except ConvertError SafeFile :=
  if bytes.length < 8 then .error (.headerLength file)
  else
    let hlen := leNat (bytes.take 8)
    if hlen = 0 ∨ hlen > 512 * 1024 * 1024 then .error (.implausibleHeader file hlen)
    else if bytes.length < 8 + hlen then .error (.headerRead file)
    else .ok ⟨8 + hlen, (bytes.drop 8).take hlen, bytes.length - (8 + hlen), bytes⟩

/-- `read_range`. -/
def readRange (sf : SafeFile) (file start stop : Nat) :
    Except ConvertError (List UInt8) :=
  if stop < start ∨ stop > sf.dataLen then .error (.range file start stop sf.dataLen)
  else .ok ((sf.bytes.drop (sf.dataOffset + start)).take (stop - start))

end SafeFile

/-- `HfTensor`. -/
structure HfTensor where
  ggufName : Text
  shape : List Int
  dtype : HfDtype
  file : Nat
  start : Nat
  stop : Nat
deriving Repr, DecidableEq

/-- What a header says of a tensor. -/
structure Meta where
  dtype : HfDtype
  shape : List Int
  start : Nat
  stop : Nat
deriving Repr, DecidableEq

/-- `product::<i64>`. -/
def shapeProduct (shape : List Int) : Int :=
  shape.foldl (fun p d => wrapI64 (p * d)) 1

/-- The bytes a shape needs. -/
def neededBytes (shape : List Int) (dtype : HfDtype) : Nat :=
  wrap64 ((max (shapeProduct shape) 0).toNat * dtype.elemSize)

/-- The checks of a header entry before its name is mapped. -/
def readMeta (file : Nat) (name : Text) (entry : Json) :
    Except ConvertError Meta := do
  let dtypeName ← ((entry.get "dtype").bind Json.asStr).elim
    (.error (.noDtype file name)) .ok
  let dtype ← (HfDtype.parse dtypeName).elim (.error (.dtype name dtypeName)) .ok
  let shape ← ((entry.get "shape").bind Json.asArray).elim
    (.error (.noShape file name)) .ok
  let shape := shape.map fun x => x.asI64.getD (-1)
  let offs ← ((entry.get "data_offsets").bind Json.asArray).elim
    (.error (.noOffsets file name)) .ok
  match offs.map fun x => x.asU64.getD u64Max with
  | [start, stop] =>
      if stop < start then .error (.badOffsets file name [start, stop])
      else if stop - start ≠ neededBytes shape dtype then
        .error (.span file name shape (neededBytes shape dtype) (stop - start))
      else return ⟨dtype, shape, start, stop⟩
  | offs => .error (.badOffsets file name offs)

/-- A header entry. -/
def readEntry (nLayer : Int) (file : Nat) (name : Text) (entry : Json) :
    Except ConvertError HfTensor := do
  let found ← readMeta file name entry
  match mapTensorName name nLayer with
  | none => .error (.unknownTensor name)
  | some ggufName =>
      return ⟨ggufName, found.shape, found.dtype, file, found.start,
        found.stop⟩

/-- The loop over the entries of a header. -/
def readEntries (nLayer : Int) (file : Nat) (found : SortedMap Text HfTensor) :
    List (Text × Json) → Except ConvertError (SortedMap Text HfTensor)
  | [] => .ok found
  | (name, entry) :: rest =>
      if name = "__metadata__".toList then readEntries nLayer file found rest
      else do
        let tensor ← readEntry nLayer file name entry
        readEntries nLayer file (found.insert name tensor) rest

section Open

variable {P : Type} [LinearOrder P] (env : Env P)

/-- The members of a header. -/
def headerMembers (file : Nat) (sf : SafeFile) : Except ConvertError
    (List (Text × Json)) := do
  let header ← (env.fromSlice sf.header).elim (.error (.headerJson file)) .ok
  header.asObject.elim (.error (.headerNotObject file)) .ok

/-- The loop over the shards, from shard `file` on. -/
def readHeaders (nLayer : Int) : Nat → SortedMap Text HfTensor → List SafeFile →
    Except ConvertError (SortedMap Text HfTensor)
  | _, found, [] => .ok found
  | file, found, sf :: rest => do
      let members ← headerMembers env file sf
      let found ← readEntries nLayer file found members
      readHeaders nLayer (file + 1) found rest

/-- The shards of the directory, each once. -/
def shardPaths : Except ConvertError (List P) :=
  if (env.file (env.join "model.safetensors".toList)).isSome then
    .ok [env.join "model.safetensors".toList]
  else
    match env.file (env.join "model.safetensors.index.json".toList) with
    | none => .error .noModel
    | some text => do
        let index ← (env.fromSlice text).elim (.error .indexJson) .ok
        let map ← ((index.get "weight_map").bind Json.asObject).elim
          (.error .noWeightMap) .ok
        let files := map.filterMap fun entry => entry.2.asStr.map env.join
        return (files.insertionSort (· ≤ ·)).dedup

/-- The shards, opened one after another. -/
def openShards : Nat → List P → Except ConvertError (List SafeFile)
  | _, [] => .ok []
  | file, path :: rest => do
      let bytes ← (env.file path).elim (.error (.openShard file)) .ok
      let sf ← SafeFile.fromBytes file bytes
      return sf :: (← openShards (file + 1) rest)

/-- `HfCheckpoint`. -/
structure HfCheckpoint where
  files : List SafeFile
  tensors : List HfTensor

/-- The shards of the directory, opened. -/
def shards : Except ConvertError (List SafeFile) := do
  let paths ← shardPaths env
  openShards env 0 paths

/-- `HfCheckpoint::open`: the tensors by name. -/
def openCheckpoint (nLayer : Int) : Except ConvertError HfCheckpoint := do
  let files ← shards env
  let found ← readHeaders env nLayer 0 .empty files
  return ⟨files, found.entries.map (·.2)⟩

/-- `HfCheckpoint::read`. -/
def HfCheckpoint.read (ckpt : HfCheckpoint) (t : HfTensor) :
    Except ConvertError (List UInt8) :=
  match ckpt.files[t.file]? with
  | none => .error (.openShard t.file)
  | some sf => sf.readRange t.file t.start t.stop

/-- `Conversion`. -/
structure Conversion where
  kv : List GgufKv
  specs : List TensorSpec
  ckpt : HfCheckpoint
  targets : List GgmlType

/-- The shape of the format: reversed, and no more than four dimensions of it. -/

def neOf (shape : List Int) : Int × Int × Int × Int :=
  let dims := shape.reverse
  (dims.getD 0 1, dims.getD 1 1, dims.getD 2 1, dims.getD 3 1)

/-- `Conversion::plan`. -/
def plan (out : OutType) : Except ConvertError Conversion := do
  let nLayer ← env.config.mapError .config
  let ckpt ← openCheckpoint env nLayer
  if ckpt.tensors = [] then .error .noTensors
  else
    let kv ← (env.metadata out).mapError .tokenizer
    let targets := ckpt.tensors.map fun t => out.tensorType t.shape.length
    return {
      kv := kv
      specs := ckpt.tensors.map fun t =>
        ⟨t.ggufName, neOf t.shape, out.tensorType t.shape.length⟩
      ckpt := ckpt
      targets := targets }

variable (half : Half)

/-- The loop of the writer over the planned tensors: each is read, converted
and written. -/
def writeTensors (ckpt : HfCheckpoint) : GgufWriter →
    List (HfTensor × GgmlType × TensorSpec) →
    Except ConvertError GgufWriter
  | w, [] => .ok w
  | w, (t, target, spec) :: rest => do
      let src ← ckpt.read t
      let bytes := convertBytesGgml half t.dtype target src
      let w ← (w.writeTensorData w.next spec fun _ => bytes).mapError .write
      writeTensors ckpt w rest

/-- `Conversion::write_single`: the bytes of the file. -/
def Conversion.writeSingle (conv : Conversion) : Except ConvertError
    (List UInt8) := do
  let w ← (GgufWriter.create (Gguf.dropSplitKeys conv.kv) conv.specs
    32).mapError .write
  let w ← writeTensors half conv.ckpt w
    (conv.ckpt.tensors.zip (conv.targets.zip conv.specs))
  w.finish.mapError .write

end Open

end Minfer.Convert
