/-
Speculative decoding (`spec.rs`): the adaptive depth controller and one
round of draft, verify and accept.

A model is causal: the row at a position and its logits are functions of
the rows up to it. A cache is its rows by position and, for the proofs,
the positions written so far. The round's wall-clock readings are inputs.
-/
import Mathlib.Algebra.GroupWithZero.Nat
import Minfer.Session.Sampler
import Minfer.Lib.Causal

namespace Minfer.Session

open Minfer.Lib (Rows Causal)
open Minfer.Server (Token pushRecent)

-- ============================== models

/-- `ModelDef`: rows of `V` and logits over `F`. -/
abbrev ModelDef (V F : Type) := Causal Token V (List F)

/-- `GraphCache`: a model's rows, and every position written so far. -/
structure GraphCache (V : Type) where
  rows : Rows Token V
  touched : List Nat

/-- `forward_graph_cached`: write the rows, return the logits of the last
`nOut` of them. -/
def ModelDef.forwardGraphCached {V F : Type} (m : ModelDef V F) (tokens : List Token)
    (positions : List Nat) (nOut : Nat) (cache : GraphCache V) :
    List F × GraphCache V :=
  let (rows, outs) := m.feed cache.rows (tokens.zip positions)
  ((outs.drop (outs.length - nOut)).flatten, ⟨rows, cache.touched ++ positions⟩)

-- ========================== controller

/-- `AdaptiveD`: acceptance counts per depth and measured costs. -/
structure AdaptiveD where
  dMax : Nat
  succ : List Nat
  n : List Nat
  v : List Float
  vWin : List (List Float)
  tDraft : Float
  tDraftWin : List Float
  rounds : Nat
  lastPick : Nat
  lastScore : Float
  dCounts : List Nat

namespace AdaptiveD

def costWindow : Nat := 4

def betaA : Float := 0.5

def betaB : Float := 1.5

def priorP : Float := 0.75

def switchMargin : Float := 0.10

def minTrials : Nat := 8

def negInfinity : Float := -(1.0 / 0.0)

/-- `min_window_update`: the minimum of the window, and the window. -/
def minWindowUpdate (sample : Float) (win : List Float) : Float × List Float :=
  let win := win ++ [sample]
  let win := if win.length > costWindow then win.drop 1 else win
  (win.foldl min (1.0 / 0.0), win)

/-- `observe_draft`. -/
def observeDraft (ad : AdaptiveD) (totalMs : Float) (n : Nat) : AdaptiveD :=
  if n = 0 then ad
  else
    let (t, win) := minWindowUpdate (totalMs / Float.ofNat n) ad.tDraftWin
    { ad with tDraft := t, tDraftWin := win }

/-- `observe_verify`. -/
def observeVerify (ad : AdaptiveD) (nt : Nat) (ms : Float) : AdaptiveD :=
  if 2 ≤ nt ∧ nt - 2 < ad.v.length then
    let (t, win) := minWindowUpdate ms (ad.vWin.getD (nt - 2) [])
    { ad with v := ad.v.set (nt - 2) t, vWin := ad.vWin.set (nt - 2) win }
  else ad

/-- `observe_round`. -/
def observeRound (ad : AdaptiveD) (dR accepted : Nat) : AdaptiveD :=
  { ad with
    succ := ad.succ.mapIdx fun j s => if j < dR ∧ j < accepted then s + 1 else s
    n := ad.n.mapIdx fun j k =>
      if j < min dR ad.succ.length then min (k + 1) (2 ^ 32 - 1) else k }

/-- The Laplace mean of a depth's acceptance. -/
def mean (ad : AdaptiveD) (j : Nat) : Float :=
  (Float.ofNat (ad.succ.getD j 0) + betaA) / (Float.ofNat (ad.n.getD j 0) + betaB)

/-- The depth-1 rate. -/
def p1 (ad : AdaptiveD) : Float := if ad.n.getD 0 0 > 0 then ad.mean 0 else priorP

/-- A depth's rate: optimistic until it has enough trials. -/
def rate (ad : AdaptiveD) (j : Nat) : Float :=
  if ad.n.getD j 0 = 0 then ad.p1
  else max (ad.mean j) (if ad.n.getD j 0 < minTrials then ad.p1 else ad.mean j)

/-- A depth's rate, without the floor (`score_of`). -/
def plainRate (ad : AdaptiveD) (j : Nat) : Float :=
  if ad.n.getD j 0 = 0 then ad.p1 else ad.mean j

/-- Projected tokens per millisecond at a depth. -/
def score (ad : AdaptiveD) (rate : Nat → Float) (cand : Nat) : Float :=
  let tokens := (List.range cand).foldl
    (fun (acc : Float × Float) j => (acc.1 * rate j, acc.2 + acc.1 * rate j))
      (1.0, 1.0)
  tokens.2 / (ad.v.getD (cand - 1) 0 + Float.ofNat cand * ad.tDraft)

/-- The candidate loop of `pick`. -/
def best (ad : AdaptiveD) (dCap : Nat) : Nat × Float :=
  (List.range' 1 dCap).foldl (fun best cand =>
    if ad.score ad.rate cand > best.2 then (cand, ad.score ad.rate cand) else best)
    (1, negInfinity)

/-- `pick`: the depth for this round. -/
def pick (ad : AdaptiveD) (horizon : Nat) : Nat × AdaptiveD :=
  let dCap := min ad.dMax horizon
  if dCap = 0 then (0, ad)
  else
    let (bestD, bestScore) := ad.best dCap
    let d :=
      if ad.lastPick ≥ 1 ∧ ad.lastPick ≤ dCap ∧ bestD ≠ ad.lastPick
          ∧ bestScore < ad.lastScore * (1.0 + switchMargin) then ad.lastPick
      else bestD
    (d, { ad with
      rounds := ad.rounds + 1
      lastScore := if d = bestD then bestScore else ad.score ad.plainRate d
      dCounts := ad.dCounts.modify (d - 1) (· + 1) })

end AdaptiveD

-- =============================== round

/-- `SpecStats`. -/
structure SpecStats where
  rounds : Nat
  drafted : Nat
  accepted : Nat
  repairs : Nat
  dSum : Nat
deriving Repr, DecidableEq

/-- `SpecEngine`. -/
structure SpecEngine (V F : Type) where
  draft : ModelDef V F
  draftCache : GraphCache V
  draftN : Nat
  adaptive : Option AdaptiveD
  stats : SpecStats

/-- What the round's timers read. -/
structure Timing where
  draftMs : Float
  verifyMs : Float

/-- What a round leaves: the emitted tokens, both caches, the penalty window
and the random stream. -/
structure Round (V W F R : Type) where
  emitted : List Token
  engine : SpecEngine W F
  cache : GraphCache V
  prev : List Token
  rng : R

variable {V W F M G R : Type}

/-- `draft_proposal`. -/
def draftProposal (cfg : SamplerConfig F M G R) (logits : List F)
    (window : List Token) :
    Token :=
  cfg.argmax (cfg.applyDeterministicFilters logits window)

/-- The draft phase: `d` forwards from position `pos`, each proposal fed to
the next. -/
def draftPhase (m : ModelDef W F) (cfg : SamplerConfig F M G R) :
    Nat → Nat → Token → List Token → GraphCache W → List Token × GraphCache W
  | 0, _, _, _, cache => ([], cache)
  | d + 1, pos, tok, window, cache =>
      let (logits, cache) := m.forwardGraphCached [tok] [pos] 1 cache
      let tok := draftProposal cfg logits window
      let (proposals, cache) :=
        draftPhase m cfg d (pos + 1) tok (pushRecent window tok) cache
      (tok :: proposals, cache)

/-- `accept_loop` from row `i` on: emitted tokens, accepted proposals,
window and random stream. -/
def acceptLoop (cfg : SamplerConfig F M G R) (logits : List F) (nv : Nat) :
    List Token → Nat → List Token → M → R → Option (List Token × Nat × List Token × R)
  | proposals, i, prev, mirostat, rng => do
      let (t, mirostat, rng) ←
        cfg.sampleWithConfig ((logits.drop (i * nv)).take nv) prev mirostat rng
      match proposals with
      | [] => return ([t], 0, pushRecent prev t, rng)
      | p :: rest =>
          if t = p then
            let (emitted, accepted, prev, rng) ←
              acceptLoop cfg logits nv rest (i + 1) (pushRecent prev p) mirostat rng
            return (p :: emitted, accepted + 1, prev, rng)
          else return ([t], 0, pushRecent prev t, rng)

/-- The depth of a round: the controller's pick, or the static depth, inside
the context. -/
def SpecEngine.depth (eng : SpecEngine W F) (horizon : Nat) :
    Nat × Option AdaptiveD :=
  match eng.adaptive with
  | some ad =>
      let (d, ad) := ad.pick horizon
      (d, some ad)
  | none => (min eng.draftN horizon, none)

/-- `SpecEngine::round`; `none` is the sampler's `unreachable!`. -/
def SpecEngine.round (eng : SpecEngine W F) (time : Timing)
    (target : ModelDef V F) (cache : GraphCache V) (next : Token)
    (pos nCtx : Nat) (cfg : SamplerConfig F M G R) (prev : List Token)
    (rng : R) : Option (Round V W F R) := do
  let (d, adaptive) := eng.depth (nCtx - (pos + 1))
  if d = 0 then
    let (row, cache) := target.forwardGraphCached [next] [pos] 1 cache
    let (t, _, rng) ← cfg.sampleWithConfig row prev cfg.newMirostat rng
    return ⟨[t], { eng with
      adaptive := adaptive
      stats := { eng.stats with rounds := eng.stats.rounds + 1 } }, cache,
        pushRecent prev t, rng⟩
  else
    let (proposals, draftCache) :=
      draftPhase eng.draft cfg d pos next prev eng.draftCache
    let adaptive := adaptive.map (·.observeDraft time.draftMs d)
    let (logits, cache) := target.forwardGraphCached (next :: proposals)
      (List.range' pos (d + 1)) (d + 1) cache
    let adaptive := adaptive.map (·.observeVerify (d + 1) time.verifyMs)
    let (emitted, accepted, prev, rng) ← acceptLoop cfg logits
      (logits.length / (proposals.length + 1)) proposals 0 prev cfg.newMirostat rng
    let adaptive := adaptive.map (·.observeRound d accepted)
    -- every proposal accepted: the draft has not seen the last one yet
    let (draftCache, repairs) :=
      if emitted.length = d + 1 then
        ((eng.draft.forwardGraphCached [proposals.getD (d - 1) 0]
          [pos + d] 1 draftCache).2, 1)
      else (draftCache, 0)
    return ⟨emitted, { eng with
      draftCache := draftCache
      adaptive := adaptive
      stats := ⟨eng.stats.rounds + 1, eng.stats.drafted + d,
        eng.stats.accepted + accepted,
        eng.stats.repairs + repairs, eng.stats.dSum + d⟩ }, cache, prev, rng⟩

-- ========================== sequential

/-- Sequential decoding: forward the pending token, sample the next one,
`n` times over. -/
def sequential (target : ModelDef V F) (cfg : SamplerConfig F M G R) :
    Nat → GraphCache V → Token → Nat → List Token → M → R →
    Option (List Token × GraphCache V × List Token × R)
  | 0, cache, _, _, prev, _, rng => some ([], cache, prev, rng)
  | n + 1, cache, next, pos, prev, mirostat, rng => do
      let (row, cache) := target.forwardGraphCached [next] [pos] 1 cache
      let (t, mirostat, rng) ← cfg.sampleWithConfig row prev mirostat rng
      let (rest, cache, prev, rng) ←
        sequential target cfg n cache t (pos + 1) (pushRecent prev t) mirostat rng
      return (t :: rest, cache, prev, rng)

end Minfer.Session
