/-
Text to tokens and back (`tokenizer.rs`): the special-token scan of
`encode` over the engine the file selects, and `decode_bytes`.
-/
import Minfer.Tokenizer.Engines

namespace Minfer.Tokenize

open Minfer.Lib (utf8Encode)

/-- What a run takes from outside the tokenizer: the Unicode tables and the
choice of the SentencePiece heap. -/
structure Env where
  unicode : Unicode
  pick : List Tokenizer.SpmBigram → Nat

namespace Tokenizer

variable (env : Env) (tok : Tokenizer)

/-- `normalized`. -/
def normalized (text : Text) : Text :=
  match tok.pre with
  | some pre => if pre.appliesNfc then env.unicode.nfc text else text
  | none => text

-- ================================ scan

/-- The special token a text starts with: the longest of its group. -/
def specialAt : Text → Option (Text × Nat)
  | [] => none
  | c :: rest => (specialGroup tok.specialTokens c).find? fun p =>
      p.1.isPrefixOf (c :: rest)

/-- The earliest special token: what stands before it, the token and its id. -/
def findSpecial : Text → Option (Text × Text × Nat)
  | [] => none
  | c :: rest =>
      match tok.specialAt (c :: rest) with
      | some (pat, id) => some ([], pat, id)
      | none => (findSpecial rest).map fun p => (c :: p.1, p.2)

-- ============================== encode

/-- `encode_text`: one raw segment, with the engine of the file. -/
def encodeText (text : Text) (prevSpecial : Bool) : Except Stop (List Nat) :=
  if text = [] then .ok []
  else
    match tok.model with
    | .none => .ok []
    | .gpt2 | .whitespace => tok.encodeBpe env.unicode.classes text
    | .hybridDna => tok.hybriddnaEncode env.unicode.classes text
    | .bert => .ok (tok.wpmEncode env.unicode text)
    | .ugm => tok.ugmEncode text
    | .gemma4 => tok.gemma4Encode env.unicode.classes text
    | .rwkv => tok.rwkvEncode text
    | .plamo2 => tok.plamo2Encode text
    | .spm => tok.spmEncode env.pick (tok.spmEscape prevSpecial text)

/-- The loop of `encode`. Every segment follows a special token or starts the
text, so `prev_special` is always set. -/
def encodeLoop : Nat → Text → Except Stop (List Nat)
  | 0, _ => .error .fuel
  | fuel + 1, remaining =>
      match tok.findSpecial remaining with
      | none => tok.encodeText env remaining true
      | some (before, pat, id) => do
          let head ← tok.encodeText env before true
          let rest ← encodeLoop fuel (remaining.drop (before.length + pat.length))
          return head ++ id :: rest

/-- `encode` returns `ids`: some number of rounds of its loop is enough. -/
def Encodes (text : Text) (ids : List Nat) : Prop :=
  ∃ fuel, tok.encodeLoop env fuel (tok.normalized env text) = .ok ids

-- ============================== decode

/-- A character of a byte-level token: its byte, or itself. -/
def decodeChar (c : Char) : List UInt8 :=
  match unicodeToByte c with
  | some b => [b]
  | none => String.utf8EncodeChar c

/-- A character of a SentencePiece token. -/
def spmDecodeChar (c : Char) : List UInt8 :=
  if c = spmSpace then [0x20] else String.utf8EncodeChar c

/-- The bytes of one token, engine by engine. -/
def tokenBytes (id : Nat) : List UInt8 :=
  match tok.idToToken[id]? with
  | none => []
  | some token =>
      match tok.model with
      | .bert =>
          let ty := typeOf tok.idToType id
          if ty = 2 ∨ ty = 3 ∨ ty = 4 then utf8Encode token
            else token.flatMap spmDecodeChar
      | .rwkv => unescapeRwkvToken token
      | .spm | .ugm | .gemma4 | .plamo2 =>
          match (if typeOf tok.idToType id = 6 then parseSpmByteToken token
              else none) with
          | some b => [b]
          | none => token.flatMap spmDecodeChar
      | .gpt2 | .whitespace | .hybridDna | .none => token.flatMap decodeChar

/-- `decode_bytes`. -/
def decodeBytes (ids : List Nat) : List UInt8 := ids.flatMap tok.tokenBytes

end Tokenizer

end Minfer.Tokenize
