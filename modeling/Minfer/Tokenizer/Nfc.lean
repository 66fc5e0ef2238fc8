/-
NFC and NFD (`tokenizer/nfc.rs`): decompose, order, compose, and the tests
that skip them.

A code point is its number, as in the source; `char::from_u32` is the only
place where one may be no character, and panics there.
-/
import Mathlib.Data.List.Sort
import Minfer.Tokenizer.Bpe

namespace Minfer.Tokenize.Nfc

open Minfer.Tokenize (Stop)

-- ============================== tables

/-- The generated tables. Each is sorted for its binary search, so a key
occurs once, and holds characters; the parts of a character are never made of
the character itself, so `push_decomposed` returns. -/
structure Tables where
  decomposition : List (Nat × List Nat)
  combiningClass : List (Nat × Nat)
  composition : List ((Nat × Nat) × Nat)
  compositionSecond : List Nat
  decomposition_sorted : decomposition.Pairwise (·.1 < ·.1)
  combiningClass_sorted : combiningClass.Pairwise (·.1 < ·.1)
  composition_sorted : composition.Pairwise fun x y => x.1.1 < y.1.1
    ∨ x.1.1 = y.1.1 ∧ x.1.2 < y.1.2
  compositionSecond_sorted : compositionSecond.Pairwise (· < ·)
  decomposition_characters : ∀ entry ∈ decomposition, entry.1.isValidChar
    ∧ ∀ part ∈ entry.2, part.isValidChar
  decomposition_founded : WellFounded fun part cp =>
    ∃ parts, (cp, parts) ∈ decomposition ∧ part ∈ parts

-- ============================== Hangul

def sBase : Nat := 0xAC00
def lBase : Nat := 0x1100
def vBase : Nat := 0x1161
def tBase : Nat := 0x11A7
def lCount : Nat := 19
def vCount : Nat := 21
def tCount : Nat := 28
def nCount : Nat := vCount * tCount
def sCount : Nat := lCount * nCount

/-- The range of `count` code points from `base`. -/
def inRange (base count cp : Nat) : Bool := base ≤ cp ∧ cp < base + count

/-- `is_hangul_jamo`. -/
def isHangulJamo (cp : Nat) : Bool :=
  inRange lBase lCount cp || inRange vBase vCount cp
    || inRange (tBase + 1) (tCount - 1) cp

/-- `is_hangul_syllable`. -/
def isHangulSyllable (cp : Nat) : Bool := inRange sBase sCount cp

namespace Tables

variable (t : Tables)

/-- `decomposition_of`. -/
def decompositionOf (cp : Nat) : Option (List Nat) :=
  (t.decomposition.find? (·.1 = cp)).map (·.2)

/-- `combining_class`. -/
def combiningClassOf (cp : Nat) : Nat :=
  ((t.combiningClass.find? (·.1 = cp)).map (·.2)).getD 0

/-- `is_composition_second`. -/
def isCompositionSecond (cp : Nat) : Bool := t.compositionSecond.contains cp

theorem mem_of_decompositionOf {cp : Nat} {parts : List Nat}
    (h : t.decompositionOf cp = some parts) :
    (cp, parts) ∈ t.decomposition := by
  rw [decompositionOf, Option.map_eq_some_iff] at h
  obtain ⟨⟨c, ps⟩, hfind, rfl⟩ := h
  have hkey := List.find?_some hfind
  obtain rfl : c = cp := by simpa using hkey
  exact List.mem_of_find?_eq_some hfind

-- =========================== decompose

/-- `push_decomposed`: the code points it pushes. -/
def pushDecomposed (cp : Nat) : List Nat :=
  if isHangulSyllable cp then
    let s := cp - sBase
    [lBase + s / nCount, vBase + s % nCount / tCount] ++ if s % tCount ≠ 0
      then [tBase + s % tCount] else []
  else
    match _ : t.decompositionOf cp with
    | some parts => parts.attach.flatMap fun part => pushDecomposed part.val
    | none => [cp]
termination_by t.decomposition_founded.wrap cp
decreasing_by exact ⟨parts, t.mem_of_decompositionOf ‹_›, part.property⟩

/-- `decompose`. -/
def decompose (input : Text) : List Nat :=
  (input.map Char.toNat).flatMap t.pushDecomposed

-- =============================== order

/-- `canonical_order`: each run of non-starters is sorted by class, stably. -/
def canonicalOrder : List Nat → List Nat
  | [] => []
  | cp :: rest =>
      if t.combiningClassOf cp = 0 then cp :: canonicalOrder rest
      else
        (cp :: rest.takeWhile (t.combiningClassOf · ≠ 0)).insertionSort
            (fun a b => t.combiningClassOf a ≤ t.combiningClassOf b)
          ++ canonicalOrder (rest.dropWhile (t.combiningClassOf · ≠ 0))
termination_by cps => cps.length
decreasing_by
  · exact Nat.lt_succ_self _
  · exact Nat.lt_succ_of_le (List.dropWhile_suffix _).length_le

-- ============================= compose

/-- `compose_pair`. -/
def composePair (a b : Nat) : Option Nat :=
  if inRange lBase lCount a ∧ inRange vBase vCount b then
    some (sBase + ((a - lBase) * vCount + (b - vBase)) * tCount)
  else if isHangulSyllable a ∧ (a - sBase) % tCount = 0
      ∧ inRange (tBase + 1) (tCount - 1) b then
    some (a + (b - tBase))
  else (t.composition.find? (·.1 = (a, b))).map (·.2)

/-- The state of the loop of `compose`. -/
structure Composing where
  out : List Nat
  starter : Option Nat
  lastClass : Nat

/-- `out.push(cp)`, with what is remembered of it. -/
def push (s : Composing) (cp : Nat) : Composing :=
  ⟨s.out ++ [cp], if t.combiningClassOf cp = 0 then some s.out.length
    else s.starter, t.combiningClassOf cp⟩

/-- One turn of the loop. -/
def composeStep (s : Composing) (cp : Nat) : Composing :=
  match s.starter with
  | none => t.push s cp
  | some si =>
      -- blocked from the last starter
      if s.out.length > si + 1 ∧ s.lastClass ≥ t.combiningClassOf cp then t.push s cp
      else
        match s.out[si]?.bind (t.composePair · cp) with
        | some composed => { s with out := s.out.set si composed }
        | none => t.push s cp

/-- `compose`. -/
def compose (cps : List Nat) : List Nat := (cps.foldl t.composeStep ⟨[], none, 0⟩).out

-- =============================== forms

/-- `char::from_u32(cp).expect(..)`, code point by code point. -/
def toText : List Nat → Except Stop Text
  | [] => .ok []
  | cp :: rest =>
      if cp.isValidChar then (toText rest).map (Char.ofNat cp :: ·) else .error .panic

/-- `needs_normalization`. -/
def needsNormalization (input : Text) : Bool :=
  input.any fun c =>
    (t.decompositionOf c.toNat).isSome || t.combiningClassOf c.toNat ≠ 0
      || isHangulJamo c.toNat
      || t.isCompositionSecond c.toNat

/-- `is_ascii`. -/
def isAscii (input : Text) : Bool := input.all (·.toNat < 0x80)

/-- `nfc`. -/
def nfc (input : Text) : Except Stop Text :=
  if isAscii input || !t.needsNormalization input then .ok input
  else toText (t.compose (t.canonicalOrder (t.decompose input)))

/-- `nfd`. -/
def nfd (input : Text) : Except Stop Text :=
  if isAscii input then .ok input else toText (t.canonicalOrder (t.decompose input))

end Tables

end Minfer.Tokenize.Nfc
