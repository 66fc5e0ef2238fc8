/-
The sampling pipeline (`sampler.rs`): deterministic filters, the grammar
mask, the greedy shortcut, the stochastic filters and the final draw.

The numeric stages are parameters of a `SamplerConfig`: what they do to a
row of logits is no concern of the loops that call the pipeline. The order
of the stages, what each may change and the error exits are the source's.
-/
import Minfer.Server.Text

namespace Minfer.Session

open Minfer.Server (Token)

/-- `MirostatMode`. -/
inductive MirostatMode where
  | off
  | v1
  | v2
deriving Repr, DecidableEq

/-- `SampleError`. -/
inductive SampleError where
  | noAllowedToken (state : String)
  | grammar (msg : String)
deriving Repr, DecidableEq

/-- What the pipeline asks of a compiled grammar; `G` is a run's position in
the automaton. -/
structure GrammarOps (G : Type) where
  /-- The start position of a run. -/
  state : G
  nVocab : Nat
  mask : G → Except String (List Bool)
  acceptToken : G → Token → Except String G
  describe : G → String

/-- `SamplerConfig`: the stages of the pipeline over rows of `F`, with
mirostat state `M`, grammar state `G` and random stream `R`. -/
structure SamplerConfig (F M G R : Type) where
  /-- `apply_deterministic_filters`: logit bias, penalties, DRY. -/
  applyDeterministicFilters : List F → List Token → List F
  /-- `temp < 1e-6`. -/
  greedy : Bool
  /-- Top-k, typical, top-p, min-p and XTC; only XTC draws. -/
  applyStochasticFilters : List F → R → List F × R
  sampleTemperature : List F → R → Token × R
  mirostat : MirostatMode
  sampleMirostatV1 : List F → M → R → Token × M × R
  sampleMirostatV2 : List F → M → R → Token × M × R
  /-- `MirostatState::new`. -/
  newMirostat : M
  grammar : Option (GrammarOps G)
  /-- `f32`'s `>`. -/
  gt : F → F → Bool
  negInfinity : F

/-- What one run of the pipeline reads and writes besides the row. -/
structure SamplerState (M G R : Type) where
  mirostat : M
  grammar : Option G
  rng : R
deriving Repr, DecidableEq

variable {F M G R : Type}

namespace SamplerConfig

/-- The scan for the largest entry: the first one above `bv`, then above
that, from index `i` on. -/
def scanMax (cfg : SamplerConfig F M G R) : List F → Nat → Nat → F → Token
  | [], _, best, _ => best
  | v :: row, i, best, bv =>
      if cfg.gt v bv then cfg.scanMax row (i + 1) i v
        else cfg.scanMax row (i + 1) best bv

/-- `sample_greedy`; there is no empty row of logits. -/
def sampleGreedy (cfg : SamplerConfig F M G R) (row : List F) : Token :=
  cfg.scanMax row 0 0 (row.headD cfg.negInfinity)

/-- `argmax` (`spec.rs`). -/
def argmax (cfg : SamplerConfig F M G R) (row : List F) : Token :=
  cfg.scanMax row 0 0 cfg.negInfinity

/-- `apply_token_mask`: the masked row and how many allowed entries are
above `-inf`. An entry the mask does not reach is forbidden. -/
def applyTokenMask (cfg : SamplerConfig F M G R) : List F → List Bool → List F × Nat
  | [], _ => ([], 0)
  | v :: row, mask =>
      let (rest, allowed) := cfg.applyTokenMask row mask.tail
      if mask.headD false then
        (v :: rest, allowed + if cfg.gt v cfg.negInfinity then 1 else 0)
      else (cfg.negInfinity :: rest, allowed)

/-- The grammar stage of `sample_with_config_grammar`: the row to draw from
and whether the run is constrained. -/
def maskStage (cfg : SamplerConfig F M G R) (row : List F) (grammar : Option G) :
    Except SampleError (List F × Bool) :=
  match cfg.grammar, grammar with
  | some g, some st =>
      if row.length ≠ g.nVocab then
        .error (.grammar ("grammar: the logits row has " ++ toString row.length
          ++ " entries but the grammar's vocabulary has " ++ toString g.nVocab))
      else
        match g.mask st with
        | .error e => .error (.grammar e)
        | .ok mask =>
            let (row, allowed) := cfg.applyTokenMask row mask
            if allowed = 0 then .error (.noAllowedToken (g.describe st))
              else .ok (row, true)
  | some _, none =>
      .error (.grammar
        "grammar: a grammar is configured but this run has no grammar state")
  | none, _ => .ok (row, false)

/-- The draw: the greedy shortcut, or the stochastic filters and then
temperature or mirostat. -/
def draw (cfg : SamplerConfig F M G R) (row : List F) (mirostat : M) (rng : R) :
    Token × M × R :=
  if cfg.greedy then (cfg.sampleGreedy row, mirostat, rng)
  else
    let (row, rng) := cfg.applyStochasticFilters row rng
    match cfg.mirostat with
    | .off =>
        let (t, rng) := cfg.sampleTemperature row rng
        (t, mirostat, rng)
    | .v2 => cfg.sampleMirostatV2 row mirostat rng
    | .v1 => cfg.sampleMirostatV1 row mirostat rng

/-- `sample_with_config_grammar`. -/
def sampleWithConfigGrammar (cfg : SamplerConfig F M G R) (row : List F)
    (prev : List Token) (st : SamplerState M G R) :
    Except SampleError Token × SamplerState M G R :=
  match cfg.maskStage (cfg.applyDeterministicFilters row prev) st.grammar with
  | .error e => (.error e, st)
  | .ok (row, constrained) =>
      let (t, mirostat, rng) := cfg.draw row st.mirostat st.rng
      let st := { st with mirostat := mirostat, rng := rng }
      match constrained, cfg.grammar, st.grammar with
      | true, some g, some gs =>
          match g.acceptToken gs t with
          | .error e => (.error (.grammar e), st)
          | .ok gs => (.ok t, { st with grammar := some gs })
      | _, _, _ => (.ok t, st)

/-- `sample_with_config`: no grammar state; `none` is its `unreachable!`. -/
def sampleWithConfig (cfg : SamplerConfig F M G R) (row : List F)
    (prev : List Token) (mirostat : M) (rng : R) : Option (Token × M × R) :=
  match cfg.sampleWithConfigGrammar row prev ⟨mirostat, none, rng⟩ with
  | (.ok t, st) => some (t, st.mirostat, st.rng)
  | (.error _, _) => none

variable {cfg : SamplerConfig F M G R}

/-- Without a grammar the pipeline is the filters and the draw. -/
theorem sampleWithConfigGrammar_free (h : cfg.grammar = none) (row : List F)
    (prev : List Token) (st : SamplerState M G R) :
    cfg.sampleWithConfigGrammar row prev st
      = (.ok (cfg.draw (cfg.applyDeterministicFilters row prev) st.mirostat st.rng).1,
          { st with
            mirostat := (cfg.draw (cfg.applyDeterministicFilters row prev)
              st.mirostat st.rng).2.1,
            rng := (cfg.draw (cfg.applyDeterministicFilters row prev)
                st.mirostat st.rng).2.2 }) := by
  have hmask : cfg.maskStage (cfg.applyDeterministicFilters row prev) st.grammar
      = .ok (cfg.applyDeterministicFilters row prev, false) := by
    unfold maskStage
    rw [h]
  unfold sampleWithConfigGrammar
  rw [hmask]

theorem sampleWithConfig_free (h : cfg.grammar = none) (row : List F)
    (prev : List Token) (mirostat : M) (rng : R) :
    cfg.sampleWithConfig row prev mirostat rng
      = some (cfg.draw (cfg.applyDeterministicFilters row prev) mirostat rng) := by
  unfold sampleWithConfig
  rw [sampleWithConfigGrammar_free h]

/-- With mirostat off its state is neither read nor written. -/
theorem draw_off (h : cfg.mirostat = .off)
    (row : List F) (m m' : M) (rng : R) :
    (cfg.draw row m rng).1 = (cfg.draw row m' rng).1 ∧ (cfg.draw row m rng).2.1 = m
      ∧ (cfg.draw row m rng).2.2 = (cfg.draw row m' rng).2.2 := by
  unfold draw
  cases cfg.greedy
  · rw [h]
    exact ⟨rfl, rfl, rfl⟩
  · exact ⟨rfl, rfl, rfl⟩

/-- A greedy draw leaves the random stream alone. -/
theorem draw_greedy (h : cfg.greedy = true) (row : List F) (m : M) (rng : R) :
    cfg.draw row m rng = (cfg.sampleGreedy row, m, rng) := by
  unfold draw
  rw [if_pos h]

end SamplerConfig

end Minfer.Session
