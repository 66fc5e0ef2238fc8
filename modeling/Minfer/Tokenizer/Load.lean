/-
Loading a tokenizer from GGUF metadata (`tokenizer.rs`): the vocabulary,
the merge ranks, the declared special tokens and what each engine checks.

Token ids are `Nat`: an array of the format has at most 2^30 elements, so
`as u32` is exact.
-/
import Minfer.Gguf.Format
import Minfer.Gguf.Parse
import Minfer.Tokenizer.Tables

namespace Minfer.Tokenize

open Minfer.Lib (utf8Encode leNat signed)
open Minfer.Gguf (GgufKv GgufType)

-- ============================= engines

/-- `TokenizerModel`. -/
inductive TokenizerModel where
  | gpt2
  | spm
  | ugm
  | rwkv
  | whitespace
  | none
  | hybridDna
  | plamo2
  | gemma4
  | bert
deriving Repr, DecidableEq

/-- `TokenizerModel::from_gguf`. -/
def TokenizerModel.fromGguf : Option String → Except LoadError TokenizerModel
  | Option.none => .error .modelMissing
  | some "gpt2" => .ok .gpt2
  | some "none" | some "no_vocab" => .ok .none
  | some "whitespace" => .ok .whitespace
  | some "llama" => .ok .spm
  | some "bert" => .ok .bert
  | some "gemma4" => .ok .gemma4
  | some "rwkv" => .ok .rwkv
  | some "plamo2" => .ok .plamo2
  | some "hybriddna" => .ok .hybridDna
  | some "t5" => .ok .ugm
  | some other => .error (.modelUnsupported other)

/-- `NormalizerOptions`. -/
structure NormalizerOptions where
  lowercase : Bool := true
  stripAccents : Bool := true

/-- `DnaData`. -/
structure DnaData where
  start : Nat
  end_ : Nat
  oov : Nat
  kmers : Map Text Nat

/-- `UgmData`. -/
structure UgmData where
  trie : VocabTrie := []
  userDefined : VocabTrie := []
  unknownTokenScore : Float32 := 0
  xcda : List UInt32 := []
  prefixReplacements : List UInt8 := []

/-- `Tokenizer`. -/
structure Tokenizer where
  idToToken : List Text
  idToScore : List Float32
  idToType : List Int
  vocab : Map Text Nat
  merges : Map (Text × Text) Nat
  specialTokens : Map Text Nat
  model : TokenizerModel
  pre : Option PreTokenizer := Option.none
  addSpacePrefix : Bool := false
  spmByteToId : Map UInt8 Nat := []
  normalizer : NormalizerOptions := {}
  maxTokenLen : Nat := 0
  unkToken : Nat := 0
  ugm : UgmData := {}
  ignoreMerges : Bool := false
  dna : Option DnaData := Option.none
  removeExtraWhitespaces : Bool := false

-- ============================ metadata

/-- The elements of every array under a key, read with one of the
`get_val_*` functions, which assert the type. -/
def arrayVals {α : Type} (kvs : List GgufKv) (key : String) (type : GgufType)
    (read : GgufKv → Nat → α) : Except LoadError (List α) :=
  kvs.foldlM (fun acc kv =>
    if kv.key = key.toList ∧ kv.isArray then
      match kv.getNe with
      | .error _ => .error .panic
      | .ok ne =>
          if ne = 0 ∨ kv.type = type then .ok (acc ++ (List.range ne).map (read kv))
          else .error .panic
    else .ok acc) []

/-- `get_val_str`. -/
def valStr (kv : GgufKv) (i : Nat) : Text := kv.dataString.getD i []

/-- The bytes of element `i`. -/
def valBytes (kv : GgufKv) (size i : Nat) : List UInt8 :=
  (kv.data.drop (i * size)).take size

/-- `get_val_f32`. -/
def valF32 (kv : GgufKv) (i : Nat) : Float32 :=
  Float32.ofBits (UInt32.ofNat (leNat (valBytes kv 4 i)))

/-- `get_val_i32`. -/
def valI32 (kv : GgufKv) (i : Nat) : Int := signed 32 (leNat (valBytes kv 4 i))

/-- `get_gguf_str`: the first string under a key; an empty array panics. -/
def getGgufStr (kvs : List GgufKv) (key : String) : Except LoadError
    (Option String) :=
  match kvs.find? (fun kv => kv.key = key.toList ∧ kv.type = .string) with
  | Option.none => .ok Option.none
  | some kv =>
      match kv.dataString with
      | [] => .error .panic
      | s :: _ => .ok (some (String.ofList s))

/-- `get_gguf_bool`. -/
def getGgufBool (kvs : List GgufKv) (key : String) : Except LoadError (Option Bool) :=
  match kvs.find? (fun kv => kv.key = key.toList ∧ kv.type = .bool ∧ !kv.isArray) with
  | Option.none => .ok Option.none
  | some kv =>
      match kv.data with
      | [] => .error .panic
      | b :: _ => .ok (some (b ≠ 0))

/-- `get_gguf_u32`: an integer of 32 or 64 bits, truncated. -/
def getGgufU32 : List GgufKv → String → Except LoadError (Option Nat)
  | [], _ => .ok Option.none
  | kv :: rest, key =>
      if kv.key = key.toList
          ∧ (kv.type = .uint32 ∨ kv.type = .int32 ∨ kv.type = .int64
          ∨ kv.type = .uint64) then
        if kv.data.length < kv.type.typeSize then .error .panic
        else .ok (some (leNat (kv.data.take kv.type.typeSize) % 2 ^ 32))
      else getGgufU32 rest key

/-- `get_gguf_bytes`. -/
def getGgufBytes (kvs : List GgufKv) (key : String) :
    Except LoadError (Option (List UInt8)) :=
  match kvs.find? (fun kv => kv.key = key.toList ∧ kv.isArray
      ∧ (kv.type = .int8 ∨ kv.type = .uint8)) with
  | Option.none => .ok Option.none
  | some kv => .ok (some kv.data)

/-- `SPECIAL_ROLE_KEYS`. -/
def specialRoleKeys : List String :=
  ["tokenizer.ggml.bos_token_id", "tokenizer.ggml.eos_token_id",
   "tokenizer.ggml.eot_token_id", "tokenizer.ggml.eom_token_id",
   "tokenizer.ggml.unknown_token_id", "tokenizer.ggml.seperator_token_id",
   "tokenizer.ggml.padding_token_id", "tokenizer.ggml.mask_token_id",
   "tokenizer.ggml.fim_pre_token_id", "tokenizer.ggml.fim_suf_token_id",
   "tokenizer.ggml.fim_mid_token_id", "tokenizer.ggml.fim_pad_token_id",
   "tokenizer.ggml.fim_rep_token_id", "tokenizer.ggml.fim_sep_token_id",
   "tokenizer.ggml.prefix_token_id", "tokenizer.ggml.suffix_token_id",
   "tokenizer.ggml.middle_token_id"]

-- ========================== vocabulary

/-- The tokens with their ids. -/
def enumerate (tokens : List Text) : List (Nat × Text) :=
  (List.range tokens.length).zip tokens

/-- The vocabulary: a repeated token keeps its last id. -/
def vocabOf (tokens : List Text) : Map Text Nat :=
  (enumerate tokens).foldl (fun m p => m.insert p.2 p.1) []

/-- A merge line: two texts around the first space. -/
def parseMerge (s : Text) : Option (Text × Text) :=
  if ' ' ∈ s then some (s.takeWhile (· ≠ ' '), (s.dropWhile (· ≠ ' ')).drop 1)
    else Option.none

/-- The merge ranks. -/
def mergesOf (lines : List Text) : Map (Text × Text) Nat :=
  (enumerate lines).foldl (fun m p =>
    match parseMerge p.2 with
    | some pair => m.insert pair p.1
    | Option.none => m) []

/-- The type of a token. -/
def typeOf (types : List Int) (id : Nat) : Int := types.getD id 1

/-- The special tokens the types declare. -/
def declaredSpecials (tokens : List Text) (types : List Int) : Map Text Nat :=
  (enumerate tokens).foldl (fun m p =>
    if typeOf types p.1 = 2 ∨ typeOf types p.1 = 3
      ∨ typeOf types p.1 = 4 then m.insert p.2 p.1
    else m) []

/-- The special tokens the roles name. -/
def addRoles (kvs : List GgufKv) (tokens : List Text) :
    List String → Map Text Nat → Except LoadError (Map Text Nat)
  | [], m => .ok m
  | key :: rest, m => do
      match ← getGgufU32 kvs key with
      | Option.none => addRoles kvs tokens rest m
      | some id =>
          match tokens[id]? with
          | Option.none => addRoles kvs tokens rest m
          | some text =>
              addRoles kvs tokens rest (if text = [] then m else m.insert text id)

/-- The `<0xXX>` tokens of the declared byte type. -/
def spmBytes (tokens : List Text) (types : List Int) : Map UInt8 Nat :=
  (enumerate tokens).foldl (fun m p =>
    if typeOf types p.1 ≠ 6 then m
    else
      match parseSpmByteToken p.2 with
      | some b => m.insert b p.1
      | Option.none => m) []

/-- All bytes. -/
def allBytes : List UInt8 := (List.range 256).map UInt8.ofNat

/-- The bytes a byte table lacks. -/
def missingSpmBytes (table : Map UInt8 Nat) : List UInt8 :=
  allBytes.filter fun b => !table.containsKey b

/-- Refuse a byte table that is not complete. -/
def requireSpmBytes (table : Map UInt8 Nat) : Except LoadError Unit :=
  match missingSpmBytes table with
  | [] => .ok ()
  | first :: rest => .error (.bytesMissing (rest.length + 1) first)

/-- The bytes without a token that the byte-level check does not let pass:
those that occur in the vocabulary and start no entry. -/
def reachableBytes (tokens : List Text) (vocab : Map Text Nat) : List UInt8 :=
  (allBytes.filter fun b => !vocab.containsKey [byteToUnicode b]).filter fun b =>
    tokens.any (fun t => b ∈ utf8Encode t)
      && !tokens.any (fun t => (utf8Encode t).head? = some b)

def dnaKmerMarker : Char := Char.ofNat 0xe000

/-- A token without the k-mer marker, when it has one. -/
def stripMarker (text : Text) : Option Text :=
  if text.getLast? = some dnaKmerMarker then some text.dropLast else Option.none

/-- The k-mer table, and the tokens without their markers. -/
def kmersOf (tokens : List Text) : Map Text Nat × List Text :=
  ((enumerate tokens).foldl (fun m p =>
      match stripMarker p.2 with
      | some bare => m.insert bare p.1
      | Option.none => m) [],
    tokens.map fun t => (stripMarker t).getD t)

/-- The unknown token of an engine that needs one. -/
def unknownToken (kvs : List GgufKv) (tokens : List Text) : Except LoadError Nat := do
  match ← getGgufU32 kvs "tokenizer.ggml.unknown_token_id" with
  | Option.none => .error .unknownMissing
  | some id => if id ≥ tokens.length
      then .error (.unknownOutOfRange id tokens.length) else .ok id

/-- The unigram engine's tries. -/
def ugmTries (tokens : List Text) (types : List Int) : VocabTrie × VocabTrie :=
  (enumerate tokens).foldl (fun ts p =>
    let ty := typeOf types p.1
    (if ty = 1 ∨ ty = 4 ∨ ty = 5 then ts.1.insertBytes (utf8Encode p.2) p.1 else ts.1,
      if ty = 4 then ts.2.insertBytes (utf8Encode p.2) p.1 else ts.2)) ([], [])

/-- `f32::MAX`. -/
def f32Max : Float32 := Float32.ofBits 0x7F7FFFFF

/-- `f32::min`: a NaN loses. -/
def f32Min (a b : Float32) : Float32 :=
  if a.isNaN then b else if b.isNaN then a else if b < a then b else a

/-- The unknown transition's score: ten below the lowest normal entry's. -/
def unknownScore (tokens : List Text) (scores : List Float32)
    (types : List Int) : Float32 :=
  let minScore := (enumerate tokens).foldl (fun m p =>
    if typeOf types p.1 = 1 then f32Min m (scores.getD p.1 0) else m) f32Max
  (if minScore == f32Max then 0 else minScore) - 10

/-- The words of a charsmap blob. -/
def leWords : List UInt8 → List UInt32
  | a :: b :: c :: d :: rest => UInt32.ofNat (leNat [a, b, c, d]) :: leWords rest
  | _ => []

/-- The precompiled charsmap: its array and its replacements. -/
def charsmapOf (kvs : List GgufKv) : Except LoadError (List UInt32 × List UInt8) := do
  match ← getGgufBytes kvs "tokenizer.ggml.precompiled_charsmap" with
  | Option.none => .ok ([], [])
  | some bytes =>
      if bytes.length < 4 then .error .charsmapHeader
      else
        let blob := leNat (bytes.take 4)
        if 4 + blob > bytes.length
          ∨ blob % 4 ≠ 0 then .error (.charsmapTruncated blob bytes.length)
        else .ok (leWords ((bytes.drop 4).take blob), bytes.drop (4 + blob))

/-- The plamo2 tries: byte tokens are the fallback, not candidates. -/
def plamo2Trie (tokens : List Text) (types : List Int) : VocabTrie :=
  (enumerate tokens).foldl (fun t p =>
    if typeOf types p.1 = 6 then t else t.insertBytes (utf8Encode p.2) p.1) []

/-- The RWKV trie: the unescaped bytes of every token. -/
def rwkvTrie (tokens : List Text) : VocabTrie :=
  (enumerate tokens).foldl (fun t p => t.insertBytes (unescapeRwkvToken p.2) p.1) []

-- ================================ load

/-- The byte-level engines: a rule, merge ranks, and the byte check. -/
def loadBpe (kvs : List GgufKv) (base : Tokenizer) : Except LoadError Tokenizer := do
  let pre ← PreTokenizer.fromGguf (← getGgufStr kvs "tokenizer.ggml.pre")
  if base.merges = [] then .error .mergesEmpty
  else
    match reachableBytes base.idToToken base.vocab with
    | first :: rest => .error (.bytesMissing (rest.length + 1) first)
    | [] =>
        let tok := { base with pre := some pre, ignoreMerges := pre.ignoresMerges }
        if base.model ≠ .hybridDna then return tok
        else
          match base.vocab.get "<dna>".toList, base.vocab.get "</dna>".toList,
              base.vocab.get "<oov>".toList with
          | some start, some end_, some oov =>
              let (kmers, tokens) := kmersOf base.idToToken
              return { tok with
                idToToken := tokens, dna := some ⟨start, end_, oov, kmers⟩ }
          | _, _, _ => return tok

/-- The SentencePiece engine. -/
def loadSpm (kvs : List GgufKv) (base : Tokenizer) : Except LoadError Tokenizer := do
  if base.idToScore.all (· == 0) then .error .scoresEmpty
  else
    requireSpmBytes (spmBytes base.idToToken base.idToType)
    let space ← getGgufBool kvs "tokenizer.ggml.add_space_prefix"
    return { base with
      spmByteToId := spmBytes base.idToToken base.idToType
      addSpacePrefix := space.getD true }

/-- The RWKV engine. -/
def loadRwkv (kvs : List GgufKv) (base : Tokenizer) : Except LoadError Tokenizer := do
  let trie := rwkvTrie base.idToToken
  let tok := { base with ugm := { base.ugm with trie := trie } }
  match ← getGgufU32 kvs "tokenizer.ggml.unknown_token_id" with
  | some id =>
      if id ≥ base.idToToken.length
        then .error (.unknownOutOfRange id base.idToToken.length)
      else return { tok with unkToken := id }
  | Option.none =>
      match allBytes.filter fun b => !trie.startsWithByte b with
      | [] => return { tok with unkToken := 0 }
      | first :: rest => .error (.bytesUncovered (rest.length + 1) first)

/-- The PLaMo-2 engine. -/
def loadPlamo2 (base : Tokenizer) : Except LoadError Tokenizer := do
  if base.idToScore.length ≠ base.idToToken.length ∨ base.idToScore = [] then
    .error (.scoresMismatch base.idToScore.length base.idToToken.length)
  else
    requireSpmBytes (spmBytes base.idToToken base.idToType)
    return { base with
      spmByteToId := spmBytes base.idToToken base.idToType
      ugm := { base.ugm with trie := plamo2Trie base.idToToken base.idToType } }

/-- The Gemma-4 engine: the model value forces the rule. -/
def loadGemma4 (base : Tokenizer) : Except LoadError Tokenizer := do
  if base.merges = [] then .error .mergesEmpty
  else
    requireSpmBytes (spmBytes base.idToToken base.idToType)
    return { base with
      spmByteToId := spmBytes base.idToToken base.idToType
      pre := some .gemma4 }

/-- The unigram engine. -/
def loadUgm (kvs : List GgufKv) (base : Tokenizer) : Except LoadError Tokenizer := do
  if base.idToScore.all (· == 0) then .error .scoresEmpty
  else
    let unk ← unknownToken kvs base.idToToken
    let (trie, userDefined) := ugmTries base.idToToken base.idToType
    let (xcda, replacements) ← charsmapOf kvs
    let space ← getGgufBool kvs "tokenizer.ggml.add_space_prefix"
    let extra ← getGgufBool kvs "tokenizer.ggml.remove_extra_whitespaces"
    return { base with
      unkToken := unk
      ugm := ⟨trie, userDefined,
        unknownScore base.idToToken base.idToScore base.idToType, xcda,
        replacements⟩
      addSpacePrefix := space.getD false
      removeExtraWhitespaces := extra.getD false }

/-- The WordPiece engine. -/
def loadBert (kvs : List GgufKv) (base : Tokenizer) : Except LoadError Tokenizer := do
  let lowercase := (← getGgufBool kvs "tokenizer.ggml.normalizer.lowercase").getD true
  let strip :=
    (← getGgufBool kvs "tokenizer.ggml.normalizer.strip_accents").getD
    lowercase
  let unk ← unknownToken kvs base.idToToken
  return { base with
    normalizer := ⟨lowercase, strip⟩
    unkToken := unk
    maxTokenLen := (base.idToToken.map fun t => (utf8Encode t).length).foldl max 0 }

/-- The placeholder vocabulary of a model without one. -/
def loadNone (kvs : List GgufKv) (base : Tokenizer) : Except LoadError Tokenizer := do
  let n := (← getGgufU32 kvs "tokenizer.ggml.vocab_size").getD 0
  return { base with
    idToToken := List.replicate n []
    idToScore := List.replicate n 0
    idToType := List.replicate n 0 }

/-- `Tokenizer::load`. -/
def load (kvs : List GgufKv) : Except LoadError Tokenizer := do
  let tokens ← arrayVals kvs "tokenizer.ggml.tokens" .string valStr
  let scores ← arrayVals kvs "tokenizer.ggml.scores" .float32 valF32
  let types ← arrayVals kvs "tokenizer.ggml.token_type" .int32 valI32
  let merges ← arrayVals kvs "tokenizer.ggml.merges" .string valStr
  let types := if types = [] then List.replicate tokens.length 1 else types
  let specials ← addRoles kvs tokens specialRoleKeys (declaredSpecials tokens types)
  let model ← TokenizerModel.fromGguf (← getGgufStr kvs "tokenizer.ggml.model")
  let base : Tokenizer := {
    idToToken := tokens
    idToScore := if scores.isEmpty then List.replicate tokens.length 0 else scores
    idToType := types
    vocab := vocabOf tokens
    merges := mergesOf merges
    specialTokens := specials
    model := model }
  match model with
  | .none => loadNone kvs base
  | .gpt2 | .hybridDna | .whitespace => loadBpe kvs base
  | .spm => loadSpm kvs base
  | .rwkv => loadRwkv kvs base
  | .plamo2 => loadPlamo2 base
  | .gemma4 => loadGemma4 base
  | .ugm => loadUgm kvs base
  | .bert => loadBert kvs base

end Minfer.Tokenize
