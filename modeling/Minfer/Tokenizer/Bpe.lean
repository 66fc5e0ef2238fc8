/-
The byte-level BPE engine (`tokenizer.rs`): the merge loop, the byte
fallback and `encode_bpe`; the Gemma-4 engine, which runs the same loop on
raw text; and HybridDNA, which wraps the byte-level one.

A panic ends a call. A loop the source does not bound runs on fuel.
-/
import Minfer.Tokenizer.Load

namespace Minfer.Tokenize

open Minfer.Lib (utf8Encode fromUtf8Lossy)

/-- How a call ends without a result. -/
inductive Stop where
  | panic
  /-- The bound on a loop is used up. -/
  | fuel
deriving Repr, DecidableEq

/-- What the engines take from Unicode tables: the `regex` crate's classes,
the standard library's lowercase mapping and the generated normal forms. -/
structure Unicode where
  classes : Classes
  isControl : Char → Bool
  isPunctuation : Char → Bool
  isNonspacingMark : Char → Bool
  toLowercase : Char → List Char
  nfc : Text → Text
  nfd : Text → Text

-- ========================== merge loop

/-- The pair of lowest rank, the first of them: rank and index. -/
def bestMerge (merges : Map (Text × Text) Nat) : List Text → Option (Nat × Nat)
  | a :: b :: rest =>
      let later := (bestMerge merges (b :: rest)).map fun p => (p.1, p.2 + 1)
      match merges.get (a, b), later with
      | none, _ => later
      | some rank, none => some (rank, 0)
      | some rank, some p => if p.1 < rank then some p else some (rank, 0)
  | _ => none

/-- Join the words at an index and after it. -/
def mergeAt : Nat → List Text → List Text
  | 0, a :: b :: rest => (a ++ b) :: rest
  | i + 1, a :: rest => a :: mergeAt i rest
  | _, word => word

/-- The merge loop; every merge shortens the word. -/
def mergeLoop (merges : Map (Text × Text) Nat) : Nat → List Text → List Text
  | 0, word => word
  | fuel + 1, word =>
      match bestMerge merges word with
      | none => word
      | some (_, idx) => mergeLoop merges fuel (mergeAt idx word)

/-- The words of a piece after every merge. -/
def mergedWords (merges : Map (Text × Text) Nat) (piece : Text) : List Text :=
  mergeLoop merges piece.length (piece.map fun c => [c])

/-- A loop that appends what each element gives. -/
def extendAll {α : Type} (f : α → Except Stop (List Nat)) : List α →
    Except Stop (List Nat)
  | [] => .ok []
  | x :: rest => do
      let ids ← f x
      return ids ++ (← extendAll f rest)

-- ========================== byte level

namespace Tokenizer

variable (tok : Tokenizer)

/-- `byte_fallback`: one token per character of a byte-encoded word. -/
def byteFallback (word : Text) : Except Stop (List Nat) :=
  extendAll (fun c =>
    match tok.vocab.get [c] with
    | some id => .ok [id]
    | none => .error .panic) word

/-- The tokens of one merged word. -/
def wordTokens (word : Text) : Except Stop (List Nat) :=
  match tok.vocab.get word with
  | some id => .ok [id]
  | none => tok.byteFallback word

/-- `bpe_encode`. -/
def bpeEncode (token : Text) : Except Stop (List Nat) :=
  extendAll tok.wordTokens (mergedWords tok.merges token)

/-- The tokens of one pre-token. -/
def encodePiece (piece : Text) : Except Stop (List Nat) :=
  let encoded := byteEncode piece
  match (if tok.ignoreMerges then tok.vocab.get encoded else none) with
  | some id => .ok [id]
  | none => tok.bpeEncode encoded

/-- `encode_bpe`. -/
def encodeBpe (cls : Classes) (text : Text) : Except Stop (List Nat) :=
  match tok.pre with
  | none => .error .panic
  | some pre => extendAll tok.encodePiece (pre.split cls text)

-- ============================= Gemma-4

/-- `SPM_SPACE`. -/
def spmSpace : Char := Char.ofNat 0x2581

/-- One `<0xXX>` token per byte of a word. -/
def spmByteTokens (bytes : List UInt8) : Except Stop (List Nat) :=
  extendAll (fun b =>
    match tok.spmByteToId.get b with
    | some id => .ok [id]
    | none => .error .panic) bytes

/-- The tokens of one merged word of raw text. -/
def rawWordTokens (word : Text) : Except Stop (List Nat) :=
  match tok.vocab.get word with
  | some id => .ok [id]
  | none => tok.spmByteTokens (utf8Encode word)

/-- `bpe_encode_raw`. -/
def bpeEncodeRaw (piece : Text) : Except Stop (List Nat) :=
  extendAll tok.rawWordTokens (mergedWords tok.merges piece)

/-- The tokens of one piece: newlines alone are emitted whole when they are an
entry. -/
def gemma4Piece (piece : Text) : Except Stop (List Nat) :=
  match (if piece.all (· = '\n') then tok.vocab.get piece else none) with
  | some id => .ok [id]
  | none => tok.bpeEncodeRaw piece

/-- `gemma4_encode`. -/
def gemma4Encode (cls : Classes) (text : Text) : Except Stop (List Nat) :=
  match tok.pre with
  | none => .error .panic
  | some pre =>
      extendAll tok.gemma4Piece
        (pre.split cls (text.map fun c => if c = ' ' then spmSpace else c))

-- =========================== HybridDNA

/-- `str::find`: what stands before the first occurrence of a pattern and after
it. -/
def splitFirst (pat : Text) : Text → Option (Text × Text)
  | [] => if pat = [] then some ([], []) else none
  | c :: rest =>
      if pat.isPrefixOf (c :: rest) then some ([], (c :: rest).drop pat.length)
      else (splitFirst pat rest).map fun p => (c :: p.1, p.2)

/-- An ASCII letter in upper case. -/
def upperByte (b : UInt8) : UInt8 := if 0x61 ≤ b ∧ b ≤ 0x7a then b - 32 else b

/-- The id of a k-mer, or the one for unknown k-mers. -/
def kmerId (dna : DnaData) (kmer : Text) : Nat := (dna.kmers.get kmer).getD dna.oov

/-- Pad a text with `A` to six bytes. -/
def padKmer : Nat → Text → Text
  | 0, kmer => kmer
  | fuel + 1, kmer =>
      if (utf8Encode kmer).length < 6 then padKmer fuel (kmer ++ ['A']) else kmer

/-- The k-mer loop over upper-case bytes. -/
def kmerLoop (dna : DnaData) : Nat → List UInt8 → List Nat
  | 0, _ => []
  | fuel + 1, seq =>
      if 6 ≤ seq.length then
        kmerId dna (fromUtf8Lossy (seq.take 6)) :: kmerLoop dna fuel (seq.drop 6)
      else if seq = [] then []
      else [kmerId dna (padKmer 6 (fromUtf8Lossy seq))]

/-- `hybriddna_kmers`. -/
def hybriddnaKmers (dna : DnaData) (raw : Text) : List Nat :=
  let seq := (utf8Encode raw).map upperByte
  kmerLoop dna (seq.length + 1) seq

/-- The text in front of a block, when there is any. -/
def encodeBefore (cls : Classes) (before : Text) : Except Stop (List Nat) :=
  if before = [] then .ok [] else tok.encodeBpe cls before

/-- The block loop of `hybriddna_encode`. -/
def hybriddnaLoop (cls : Classes) (dna : DnaData) : Nat → Text →
    Except Stop (List Nat)
  | 0, _ => .error .fuel
  | fuel + 1, text =>
      if text = [] then .ok []
      else
        match splitFirst "<dna>".toList text with
        | none => tok.encodeBpe cls text
        | some (before, inside) => do
            let head ← tok.encodeBefore cls before
            match splitFirst "</dna>".toList inside with
            | some (block, after) =>
                let rest ← hybriddnaLoop cls dna fuel after
                return head ++ dna.start :: hybriddnaKmers dna block
                  ++ dna.end_ :: rest
            | none => return head ++ dna.start :: hybriddnaKmers dna inside

/-- `hybriddna_encode`. -/
def hybriddnaEncode (cls : Classes) (text : Text) : Except Stop (List Nat) :=
  match tok.dna with
  | none => tok.encodeBpe cls text
  | some dna => tok.hybriddnaLoop cls dna (text.length + 1) text

end Tokenizer

end Minfer.Tokenize
