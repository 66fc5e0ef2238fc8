/-
DRY over again with every access in the open (`apply_dry`): a subtraction of
`usize`, an index and a cast of `i32` is none where the source would stop or
wrap. What DRY is for stands at the end: the repeats a token would extend.
-/
import Minfer.Lib.Checked
import Minfer.Lib.ZFunction
import Minfer.Sampler.Filters

namespace Minfer.Sampler

open Minfer.Lib
open Minfer.Server (Token)

-- ============================= checked

section Checked

variable (recent : List Token) (window : Nat)

def ratChecked (i : Nat) : Option Token := do
  let last ← usizeSub recent.length 1
  let place ← usizeSub last i
  recent[place]?

/-- Whether the tail of a breaker follows its head, which is at distance `i`. -/

def tailChecked (i : Nat) (tail : List Token) : Option Bool :=
  tail.zipIdx.allM fun (t, offset) => do
    let before ← usizeSub i offset
    let place ← usizeSub before 1
    let here ← ratChecked recent place
    pure (t = here)

def restartChecked (breakers : List (List Token)) (i : Nat) :
    Option (Option Nat) := do
  let head ← ratChecked recent i
  breakers.findSomeM? fun
    | [] => pure none
    | breakHead :: tail =>
        if breakHead ≠ head ∨ tail.length > i then pure none
        else do
          let matched ← tailChecked recent i tail
          if matched then some <$> usizeSub i tail.length else pure none

def repLimitChecked (breakers : List (List Token)) : Option Nat := do
  let found ← (List.range window).findSomeM? (restartChecked recent breakers)
  pure (found.getD window)

/-- The loop of the first case, from `n` on. -/
def extendChecked (k : Nat) : Nat → Nat → Option Nat
  | 0, n => some n
  | fuel + 1, n =>
      if n + k < window then do
        let here ← ratChecked recent n
        let there ← ratChecked recent (n + k)
        if here = there then extendChecked k fuel (n + 1) else some n
      else some n

/-- The loop of the last case, from `i` on. -/
def extendFromChecked (k : Nat) : Nat → Nat → Option Nat
  | 0, i => some i
  | fuel + 1, i =>
      if i < window then do
        let there ← ratChecked recent i
        let back ← usizeSub i k
        let here ← ratChecked recent back
        if there = here then extendFromChecked k fuel (i + 1) else some i
      else some i

def zStepChecked (limit : Nat) (st : ZState) (k : Nat) : Option ZState := do
  let last ← usizeSub window 1
  let slot ← usizeSub last k
  let limit ← asI32 limit
  let shift ← asI32 k
  if shift > st.rt then
    let n ← extendChecked recent window k window 0
    let count ← asI32 n
    let repeatCount ← writeAt st.repeatCount slot (min count limit)
    if n > 0 then
      let stop ← usizeSub (k + n) 1
      let rt ← asI32 stop
      pure ⟨repeatCount, shift, rt⟩
    else pure { st with repeatCount := repeatCount }
  else
    let p ← asI32 (shift - st.lt)
    let left ← asI32 (st.rt - shift)
    let rightPartLen ← asI32 (left + 1)
    let p ← asUsize p
    let copied ← usizeSub last p
    let stored ← st.repeatCount[copied]?
    if stored < rightPartLen then
      let repeatCount ← writeAt st.repeatCount slot (min stored limit)
      pure { st with repeatCount := repeatCount }
    else
      let next ← asI32 (st.rt + 1)
      let next ← asUsize next
      let i ← extendFromChecked recent window k window next
      let n ← usizeSub i k
      let count ← asI32 n
      let repeatCount ← writeAt st.repeatCount slot (min count limit)
      let stop ← usizeSub i 1
      let rt ← asI32 stop
      pure ⟨repeatCount, shift, rt⟩

def repeatCountsChecked (limit : Nat) : Option (List Int) := do
  let st ← (List.range' 1 (window - 1)).foldlM (zStepChecked recent window limit)
    ⟨List.replicate window 0, 0, 0⟩
  pure st.repeatCount

/-- A slot of step 3, with the token it is about when it counts. -/
def repeatAtChecked (counts : List Int) (allowed i : Nat) :
    Option (Option (Token × Int)) := do
  let repeatLen ← counts[i]?
  let least ← asI32 allowed
  if repeatLen ≥ least then
    let before ← usizeSub window 2
    let place ← usizeSub before i
    let token ← ratChecked recent place
    pure (some (token, repeatLen))
  else pure none

/-- `max_token_repeat`, from what step 3 goes through. -/
def longestOf (found : List (Token × Int)) (t : Token) : Option Int :=
  let lengths := found.filterMap fun e => if e.1 = t then some e.2 else none
  if lengths = [] then none else some (lengths.foldl max 0)

end Checked

section Apply

variable {F D R : Type} [LinearOrder F] [OrderBot F] (fl : Floats F D R)

/-- `max_exponent`. -/
def maxExponent (base : F) : Int :=
  if fl.lit (1000001 / 1000000) < base
    then fl.toInt (fl.div (fl.lit (8872284 / 100000)) (fl.ln base))
  else 0

/-- What step 4 subtracts for a repeat. -/
def penaltyOf (multiplier base : F) (allowed : Nat) (repeatLen : Int) : F :=
  let repeatExp := repeatLen - allowed
  let repeatExp :=
    if maxExponent fl base > 0 ∧ repeatExp > maxExponent fl base
      then maxExponent fl base else repeatExp
  fl.mul multiplier (fl.powi base repeatExp)

/-- Step 4 for a token. -/
def penaliseChecked (breakers : List (List Token)) (longest : Token → Option Int)
    (multiplier base : F) (allowed : Nat) (v : F) (t : Token) : Option F :=
  if v = ⊥ then some v
  else
    match longest t with
    | none => some v
    | some repeatLen =>
        if breakers.any (· = [t]) then some v
        else do
          let least ← asI32 allowed
          let _ ← asI32 (repeatLen - least)
          some (fl.sub v (penaltyOf fl multiplier base allowed repeatLen))

/-- `apply_dry`, none where it would stop or wrap. -/
def applyDryChecked (row : List F) (recent : List Token) (multiplier base : F)
    (allowed lastN : Nat) (breakers : List (List Token)) : Option (List F) :=
  if multiplier = fl.lit 0 ∨ base < fl.lit 1 ∨ lastN = 0 then some row
  else
    let window := min recent.length lastN
    if window ≤ allowed then some row
    else do
      let limit ← repLimitChecked recent window breakers
      if limit < allowed then some row
      else
        let counts ← repeatCountsChecked recent window limit
        let steps ← usizeSub window 1
        let found ← (List.range steps).mapM
          (repeatAtChecked recent window counts allowed)
        row.zipIdx.mapM fun (v, t) =>
          penaliseChecked fl breakers
            (longestOf found.reduceOption) multiplier base allowed v t

end Apply

-- ============================= meaning

/-- The last tokens, the latest first. -/
def latest (recent : List Token) (window : Nat) : List Token :=
  recent.reverse.take window

/-- The lengths of the repeats that a token would extend, each capped. -/
def extended (recent : List Token) (window limit allowed : Nat) (t : Token) :
    Set Nat :=
  { n | ∃ k, 1 ≤ k ∧ k < window ∧ (latest recent window)[k - 1]? = some t
    ∧ n = min limit (zLength (latest recent window) k) ∧ allowed ≤ n }

/-- The guards of `apply_dry` let the second step run. -/
structure Runs {F D R : Type} [LinearOrder F] (fl : Floats F D R)
    (recent : List Token) (multiplier base : F)
    (allowed lastN : Nat) (breakers : List (List Token)) : Prop where
  multiplier : multiplier ≠ fl.lit 0
  base : ¬base < fl.lit 1
  window : allowed < min recent.length lastN
  limit : allowed ≤ repLimit recent (min recent.length lastN) breakers

end Minfer.Sampler
