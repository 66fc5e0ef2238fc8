/-
The numeric stages of the sampler (`sampler.rs`): logit bias, penalties and
DRY; top-k, typical, top-p, min-p and XTC; the greedy, temperature and
mirostat draws.

The float arithmetic is a parameter. A comparison is that of a linear order
and −∞ is the least `f32`; every other operation is arbitrary, so nothing
here depends on how a float rounds.
-/
import Mathlib.Data.List.Sort
import Mathlib.Data.Rat.Defs
import Mathlib.Order.Lattice
import Minfer.Session.Sampler

namespace Minfer.Sampler

open Minfer.Server (Token)
open Minfer.Session (MirostatMode)

/-- The arithmetic of `f32` (`F`) and `f64` (`D`), and a random stream. -/
structure Floats (F D R : Type) where
  /-- A decimal literal. -/
  lit : ℚ → F
  litD : ℚ → D
  ofNat : Nat → F
  ofNatD : Nat → D
  add : F → F → F
  sub : F → F → F
  mul : F → F → F
  div : F → F → F
  abs : F → F
  exp : F → F
  ln : F → F
  powi : F → Int → F
  addD : D → D → D
  subD : D → D → D
  mulD : D → D → D
  divD : D → D → D
  negD : D → D
  absD : D → D
  expD : D → D
  lnD : D → D
  log2D : D → D
  powfD : D → D → D
  isFiniteD : D → Bool
  /-- `as i32`. -/
  toInt : F → Int
  /-- `as usize`. -/
  toNat : D → Nat
  /-- `as f64`. -/
  widen : F → D
  /-- `as f32`. -/
  narrow : D → F
  /-- `rng.gen::<f32>()`. -/
  gen : R → F × R

variable {F D R : Type} [LinearOrder F] [OrderBot F] [LinearOrder D]
  (fl : Floats F D R)

-- ======================= deterministic

/-- `apply_logit_bias`. -/
def applyLogitBias (row : List F) (bias : List (Token × F)) : List F :=
  bias.foldl (fun row (id, b) => row.modify id fun v => fl.add v b) row

/-- `x.abs() < 1e-6`. -/
def negligible (x : F) : Bool := fl.abs x < fl.lit (1 / 1000000)

/-- The penalty of a token that stands `c` times in the window. -/
def penalise (c : Nat) (repeats frequency presence v : F) : F :=
  let v :=
    if !negligible fl frequency || !negligible fl presence then
      let v := fl.sub v (fl.mul (fl.ofNat c) frequency)
      if c > 0 then fl.sub v presence else v
    else v
  if !negligible fl (fl.sub repeats (fl.lit 1)) && fl.lit 1 ≤ repeats then
    if v ≤ fl.lit 0 then fl.mul v repeats else fl.div v repeats
  else v

/-- `apply_penalties`. The tokens are counted in a hash map: each is penalised
once, and they do not meet. -/
def applyPenalties (row : List F) (prev : List Token)
    (repeats frequency presence : F) : List F :=
  if negligible fl (fl.sub repeats (fl.lit 1)) && negligible fl frequency
      && negligible fl presence then
    row
  else
    prev.dedup.foldl
      (fun row t =>
        row.modify t (penalise fl (prev.count t) repeats frequency presence))
        row

section Dry

variable (recent : List Token) (window : Nat)

/-- `rat`: the token at a distance from the end. -/
def rat (i : Nat) : Token := recent.reverse.getD i 0

/-- A restart sequence that begins at distance `i`. -/
def restartAt (breakers : List (List Token)) (i : Nat) : Option Nat :=
  breakers.findSome? fun
    | [] => none
    | head :: tail =>
        if head = rat recent i ∧ tail.length ≤ i
            ∧ (tail.zipIdx.all fun (t, offset) =>
              t = rat recent (i - offset - 1)) then
          some (i - tail.length)
        else none

/-- `rep_limit`. -/
def repLimit (breakers : List (List Token)) : Nat :=
  ((List.range window).findSome? (restartAt recent breakers)).getD window

/-- How far the history repeats at distance `k`, from `n` tokens on. -/
def extend (k : Nat) : Nat → Nat → Nat
  | 0, n => n
  | fuel + 1, n =>
      if n + k < window ∧ rat recent n = rat recent (n + k)
        then extend k fuel (n + 1) else n

/-- The counts of the reverse Z-algorithm, and its window `lt..=rt`. -/
structure ZState where
  repeatCount : List Int
  lt : Int
  rt : Int

/-- A round of the reverse Z-algorithm. -/
def zStep (limit : Nat) (st : ZState) (k : Nat) : ZState :=
  let last := window - 1
  if (k : Int) > st.rt then
    let n := extend recent window k window 0
    let repeatCount := st.repeatCount.set (last - k) (min (n : Int) limit)
    if n > 0 then ⟨repeatCount, k, k + n - 1⟩
      else { st with repeatCount := repeatCount }
  else
    let p := ((k : Int) - st.lt).toNat
    let rightPartLen := st.rt - k + 1
    if st.repeatCount.getD (last - p) 0 < rightPartLen then
      { st with repeatCount :=
          st.repeatCount.set (last - k) (min (st.repeatCount.getD (last - p) 0) limit) }
    else
      let n := extend recent window k window ((st.rt + 1).toNat - k)
      ⟨st.repeatCount.set (last - k) (min (n : Int) limit), k, k + n - 1⟩

def repeatCounts (limit : Nat) : List Int :=
  ((List.range' 1 (window - 1)).foldl (zStep recent window limit)
    ⟨List.replicate window 0, 0, 0⟩).repeatCount

/-- The longest repeat a token would extend, if one is long enough. -/
def maxTokenRepeat (counts : List Int) (allowed : Nat) (t : Token) : Option Int :=
  let lengths := (List.range (window - 1)).filterMap fun i =>
    if counts.getD i 0 ≥ allowed ∧ rat recent (window - 2 - i) = t
      then some (counts.getD i 0) else none
  if lengths = [] then none else some (lengths.foldl max 0)

/-- The penalty of a token that would continue a repeat; a single-token breaker
is exempt. -/
def dryPenalty (breakers : List (List Token)) (counts : List Int)
    (multiplier base : F) (allowed : Nat) (t : Token) : Option F :=
  let maxExponent :=
    if fl.lit (1000001 / 1000000) < base
      then fl.toInt (fl.div (fl.lit (8872284 / 100000)) (fl.ln base))
    else 0
  match maxTokenRepeat recent window counts allowed t with
  | none => none
  | some repeatLen =>
      if breakers.any (· = [t]) then none
      else
        let repeatExp := repeatLen - allowed
        let repeatExp := if maxExponent > 0
          ∧ repeatExp > maxExponent then maxExponent else repeatExp
        some (fl.mul multiplier (fl.powi base repeatExp))

end Dry

/-- `apply_dry`. -/
def applyDry (row : List F) (recent : List Token) (multiplier base : F)
    (allowed lastN : Nat) (breakers : List (List Token)) : List F :=
  if multiplier = fl.lit 0 ∨ base < fl.lit 1 ∨ lastN = 0 then row
  else
    let window := min recent.length lastN
    if window ≤ allowed then row
    else
      let limit := repLimit recent window breakers
      if limit < allowed then row
      else
        let counts := repeatCounts recent window limit
        row.zipIdx.map fun (v, t) =>
          if v = ⊥ then v
          else
            match dryPenalty fl recent window breakers counts multiplier base
                allowed t with
            | some penalty => fl.sub v penalty
            | none => v

-- ============================= softmax

/-- `fold(NEG_INFINITY, f32::max)`. -/
def maxOf (row : List F) : F := row.foldl max ⊥

/-- The entries above −∞, with their tokens. -/
def survivors (row : List F) : List (Token × F) :=
  (row.zipIdx.filter fun (v, _) => decide (⊥ < v)).map fun (v, i) => (i, v)

/-- A stable descending sort by the second component. -/
def sortDesc (cand : List (Token × F)) : List (Token × F) :=
  cand.insertionSort fun a b => b.2 ≤ a.2

/-- The sum of the exponentials, in `f64`. -/
def expSum (values : List F) (top : F) : D :=
  values.foldl (fun sum v => fl.addD sum (fl.expD (fl.widen (fl.sub v top))))
    (fl.litD 0)

/-- `softmax_desc`. -/
def softmaxDesc (row : List F) : List (Token × F) :=
  let live := survivors row
  let top := maxOf (live.map (·.2))
  let sum := expSum fl (live.map (·.2)) top
  sortDesc (live.map fun (i, v) =>
    (i, fl.narrow (fl.divD (fl.expD (fl.widen (fl.sub v top))) sum)))

/-- The probabilities of `apply_top_p`. -/
def topPWeights (values : List F) : List F :=
  let top := maxOf values
  let sum := fl.narrow (expSum fl values top)
  values.map fun v => fl.div (fl.exp (fl.sub v top)) sum

/-- How many weights it takes for the running sum to exceed `p`; all of them
when it never does. -/
def keepAbove {W : Type} [LinearOrder W] (add : W → W → W) (p : W) : W → List W → Nat
  | _, [] => 0
  | sum, w :: rest =>
      if p < add sum w then 1 else 1 + keepAbove add p (add sum w) rest

-- ============================= filters

/-- Entries set to −∞. -/
def maskOut (row : List F) (ids : List Nat) : List F :=
  ids.foldl (fun row id => row.set id ⊥) row

/-- `apply_top_k`: everything below the `k`-th largest entry is masked. -/
def applyTopK (row : List F) (k : Nat) : List F :=
  if k = 0 ∨ k ≥ row.length then row
  else
    let threshold := (row.insertionSort (· ≥ ·)).getD (k - 1) ⊥
    row.map fun v => if v < threshold then ⊥ else v

/-- What `apply_top_p` and its full-array path do with their candidates. -/
def maskTail (row : List F) (p : F) (cand : List (Token × F)) : List F :=
  let cand := sortDesc cand
  maskOut row ((cand.drop (keepAbove fl.add p (fl.lit 0) (cand.map (·.2)))).map (·.1))

/-- `apply_top_p_full`: the masked entries take part. -/
def applyTopPFull (row : List F) (p : F) : List F :=
  maskTail fl row p ((List.range row.length).zip (topPWeights fl row))

/-- `apply_top_p`. -/
def applyTopP (row : List F) (p : F) : List F :=
  if p ≤ fl.lit 0 ∨ fl.lit 1 ≤ p then row
  else
    let live := survivors row
    if live = [] then row
    else if live.length > 1024 then applyTopPFull fl row p
    else maskTail fl row p ((live.map (·.1)).zip (topPWeights fl (live.map (·.2))))

/-- The largest finite entry, the first of equals. -/
def bestOf (row : List F) : Option (Nat × F) :=
  row.zipIdx.foldl (fun best (v, i) =>
    if v ≠ ⊥ ∧ best.all (fun b => b.2 < v) then some (i, v) else best) none

/-- `apply_min_p`. -/
def applyMinP (row : List F) (p : F) : List F :=
  if p ≤ fl.lit 0 then row
  else
    match bestOf row with
    | none => row
    | some (best, top) =>
        let least := fl.add top (fl.ln p)
        let kept := row.map fun v => if least ≤ v then v else ⊥
        if (row.filter fun v => decide (least ≤ v)) = [] then kept.set best top
          else kept

/-- `apply_typical`. -/
def applyTypical (row : List F) (p : F) : List F :=
  if fl.lit 1 ≤ p then row
  else
    let cand := softmaxDesc fl row
    if cand.length ≤ 1 then row
    else
      let probs := cand.map fun (_, pr) => fl.widen pr
      let entropy := probs.foldl (fun sum pr => fl.addD sum
        (if fl.litD 0 < pr then fl.mulD (fl.negD pr) (fl.lnD pr)
          else fl.litD 0)) (fl.litD 0)
      let score : Token × F → D := fun c =>
        fl.absD (fl.subD (fl.negD (fl.lnD (fl.widen c.2))) entropy)
      let order := cand.insertionSort fun a b => score a ≤ score b
      let keep := keepAbove fl.addD (fl.widen p) (fl.litD 0)
        (order.map fun (_, pr) => fl.widen pr)
      let kept := (order.take keep).map (·.1)
      row.zipIdx.map fun (v, i) => if i ∈ kept then v else ⊥

/-- `apply_xtc`. -/
def applyXtc (row : List F) (probability threshold : F) (rng : R) : List F × R :=
  if probability ≤ fl.lit 0 ∨ fl.lit (1 / 2) < threshold then (row, rng)
  else
    let cand := softmaxDesc fl row
    if cand.length < 2 then (row, rng)
    else
      let (chance, rng) := fl.gen rng
      if probability < chance then (row, rng)
      else
        let posLast := (cand.takeWhile fun c => decide (threshold ≤ c.2)).length - 1
        (maskOut row ((cand.take posLast).map (·.1)), rng)

-- =============================== draws

/-- The first candidate at which the running sum of the weights reaches `r`.
Weights that are not positive are passed over. -/
def firstReached (r : F) : F → List (Token × F) → Option (Token × F)
  | _, [] => none
  | sum, (i, p) :: rest =>
      if p ≤ fl.lit 0 then firstReached r sum rest
      else if r ≤ fl.add sum p then some (i, p)
      else firstReached r (fl.add sum p) rest

/-- The scan of `sample_greedy` from token `i` on. -/
def scanMax : List F → Nat → Nat → F → Token
  | [], _, best, _ => best
  | v :: row, i, best, top => if top < v then scanMax row (i + 1) i v
      else scanMax row (i + 1) best top

/-- `sample_greedy`; there is no empty row of logits. -/
def sampleGreedy (row : List F) : Token := scanMax row 0 0 (row.headD ⊥)

/-- The weights of `sample_temperature`. -/
def temperatureWeights (row : List F) (temp : F) : List F :=
  let scaled := row.map fun v => fl.mul v (fl.div (fl.lit 1) temp)
  let top := maxOf scaled
  let raw := scaled.map fun v => if ⊥ < v then fl.exp (fl.sub v top) else fl.lit 0
  let sum := raw.foldl (fun sum v => fl.addD sum (fl.widen v)) (fl.litD 0)
  raw.map fun v => fl.mul v (fl.narrow (fl.divD (fl.litD 1) sum))

/-- `sample_temperature`: when the running sum does not reach the draw, the
last token of the vocabulary. -/
def sampleTemperature (row : List F) (temp : F) (rng : R) : Token × R :=
  if temp < fl.lit (1 / 1000000) then (sampleGreedy row, rng)
  else
    let (r, rng) := fl.gen rng
    let weights := temperatureWeights fl row temp
    match firstReached fl r (fl.lit 0) ((List.range weights.length).zip weights) with
    | some (i, _) => (i, rng)
    | none => (row.length - 1, rng)

/-- `sample_categorical`: when the running sum does not reach the draw, the
last candidate. The caller has one. -/
def sampleCategorical (cand : List (Token × F)) (rng : R) : (Token × F) × R :=
  let (r, rng) := fl.gen rng
  match firstReached fl r (fl.lit 0) cand with
  | some c => (c, rng)
  | none => (cand.getLastD (0, ⊥), rng)

/-- The update of `mu` after a token of probability `p`. -/
def nextMu (mu tau eta p : F) : F :=
  let observed := fl.negD (fl.log2D (fl.widen p))
  fl.narrow (fl.subD (fl.widen mu)
    (fl.mulD (fl.widen eta) (fl.subD observed (fl.widen tau))))

/-- `sample_mirostat_v2`: the token, `mu` and the stream after it. -/
def sampleMirostatV2 (row : List F) (mu tau eta : F) (rng : R) : Token × F × R :=
  let cand := softmaxDesc fl row
  if cand = [] then (0, mu, rng)
  else
    let keep := (cand.takeWhile fun c =>
      !(decide (c.2 ≤ fl.lit 0)
        || decide (fl.widen mu < fl.negD (fl.log2D (fl.widen c.2))))).length
    let live := cand.take (max keep 1)
    let sum := live.foldl (fun sum c => fl.addD sum (fl.widen c.2)) (fl.litD 0)
    let norm := live.map fun (i, p) => (i, fl.narrow (fl.divD (fl.widen p) sum))
    let ((t, p), rng) := sampleCategorical fl norm rng
    (t, nextMu fl mu tau eta p, rng)

/-- The sums `sum_ti_bi` and `sum_ti_sq` over the neighbours of the top
probabilities, up to a zero. -/
def estimatorSums (m : Nat) (cand : List (Token × F)) : D × D :=
  let lim := min (m - 1) (cand.length - 1)
  let pairs := ((cand.zip cand.tail).take lim).map fun (a, b) =>
    (fl.widen a.2, fl.widen b.2)
  let pairs := pairs.takeWhile fun (p, q) => decide (fl.litD 0 < p)
    && decide (fl.litD 0 < q)
  pairs.zipIdx.foldl (fun (bi, sq) ((p, q), i) =>
    let t := fl.lnD (fl.divD (fl.ofNatD (i + 2)) (fl.ofNatD (i + 1)))
    (fl.addD bi (fl.mulD t (fl.lnD (fl.divD p q))), fl.addD sq (fl.mulD t t)))
      (fl.litD 0, fl.litD 0)

/-- The truncation size of `sample_mirostat_v1`. -/
def mirostatK (nVocab m : Nat) (mu : F) (cand : List (Token × F)) : Nat :=
  let (bi, sq) := estimatorSums fl m cand
  let sHat := if fl.litD 0 < sq then fl.divD bi sq else fl.litD 1
  let sHat := if !fl.isFiniteD sHat || decide (sHat ≤ fl.litD 0) then fl.litD 1
    else sHat
  let epsilon := fl.subD sHat (fl.litD 1)
  let denom := fl.subD (fl.litD 1) (fl.powfD (fl.ofNatD nVocab) (fl.negD epsilon))
  let k :=
    if fl.absD denom < fl.litD (1 / 1000000000000) then fl.litD 1
    else fl.powfD
      (fl.divD (fl.mulD epsilon (fl.powfD (fl.litD 2) (fl.widen mu))) denom)
      (fl.divD (fl.litD 1) sHat)
  if fl.isFiniteD k && decide (fl.litD 1 ≤ k) then fl.toNat k else 1

/-- `sample_mirostat_v1`. -/
def sampleMirostatV1 (row : List F) (mu tau eta : F) (m : Nat) (rng : R) :
    Token × F × R :=
  let cand := softmaxDesc fl row
  if cand = [] then (0, mu, rng)
  else
    let row := applyTopK row (mirostatK fl row.length m mu cand)
    let ((t, p), rng) := sampleCategorical fl (softmaxDesc fl row) rng
    (t, nextMu fl mu tau eta p, rng)

end Minfer.Sampler
