/-
The byte-level helpers both generation loops share: the UTF-8 hold-back
(`tokenizer.rs`), stop-string matching and the penalty window
(`sampler.rs`), the prefix comparison and the fed span
(`server/chat.rs`).

A text chunk is a list of characters; a token is its id.
-/
import Minfer.Lib.Utf8

namespace Minfer.Server

-- =========================== hold-back

/-- A token id (`u32`). -/
abbrev Token := Nat

/-- The length a lead byte announces; a stray continuation byte is one
unit. -/
def unitLen (b : UInt8) : Nat :=
  if b < 0x80 then 1
  else if b &&& 0xE0 = 0xC0 then 2
  else if b &&& 0xF0 = 0xE0 then 3
  else if b &&& 0xF8 = 0xF0 then 4
  else 1

/-- The loop of `complete_utf8_prefix_len`: the next `skip` bytes belong to
a unit already counted; a unit that does not fit ends the walk. -/
def completeFrom : List UInt8 → Nat → Nat
  | [], _ => 0
  | _ :: rest, skip + 1 => completeFrom rest skip
  | b :: rest, 0 =>
      if unitLen b > rest.length + 1 then 0
      else unitLen b + completeFrom rest (unitLen b - 1)

/-- `complete_utf8_prefix_len`: the longest prefix that ends on a complete
character. -/
def completeUtf8PrefixLen (bytes : List UInt8) : Nat := completeFrom bytes 0

-- ======================== stop strings

/-- `match_stop_suffix`: where the earliest matching stop string starts. -/
def matchStopSuffix (buf : List UInt8) (stops : List (List UInt8)) : Option Nat :=
  stops.foldl (fun best s =>
    if s.isEmpty ∨ s.length > buf.length then best
    else if buf.drop (buf.length - s.length) = s then
      match best with
      | none => some (buf.length - s.length)
      | some b => some (min b (buf.length - s.length))
    else best) none

-- ============================= windows

/-- How many recent tokens the penalties see. -/
def repeatLastN : Nat := 64

/-- `recent_window`. -/
def recentWindow (tokens : List Token) (lastN : Nat) : List Token :=
  tokens.drop (tokens.length - lastN)

/-- Push a token and keep the last `repeatLastN`. -/
def pushRecent (prev : List Token) (tok : Token) : List Token :=
  recentWindow (prev ++ [tok]) repeatLastN

/-- `common_prefix_len`. -/
def commonPrefixLen : List Token → List Token → Nat
  | a :: as, b :: bs => if a = b then commonPrefixLen as bs + 1 else 0
  | _, _ => 0

/-- `prefill_span`: where feeding starts and how many tokens are fed;
always at least the last one. -/
def prefillSpan (nt reuse : Nat) : Nat × Nat :=
  let feedFrom := min reuse (nt - 1)
  (feedFrom, nt - feedFrom)

end Minfer.Server
