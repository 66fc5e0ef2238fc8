/-
The configured pipeline (`sampler.rs`): `SamplerConfig` with its `validate`,
and the numeric stages in the places `sample_with_config_grammar` gives them.

The grammar is a compiled one. Its mask is read without the cache, which
holds nothing else.
-/
import Minfer.Grammar.Mask
import Minfer.Sampler.Filters

namespace Minfer.Sampler

open Minfer.Server (Token)
open Minfer.Session (MirostatMode GrammarOps)
open Minfer.Gbnf (Grammar GrammarState hasBit)

/-- `SamplerConfig`. -/
structure Config (F : Type) where
  temp : F
  topK : Nat
  topP : F
  repeatPenalty : F
  frequencyPenalty : F
  presencePenalty : F
  minP : F
  typicalP : F
  dryMultiplier : F
  dryBase : F
  dryAllowedLength : Nat
  dryPenaltyLastN : Nat
  dryBreakers : List (List Token)
  xtcProbability : F
  xtcThreshold : F
  mirostat : MirostatMode
  mirostatTau : F
  mirostatEta : F
  mirostatM : Nat
  logitBias : List (Token × F)
  grammar : Option Grammar

/-- A refusal of `validate`: the text up to the value it reports. -/
structure ConfigError (F : Type) where
  text : String
  got : Option F
deriving DecidableEq

variable {F D R : Type} [LinearOrder F] [OrderBot F] [LinearOrder D]

/-- `SamplerConfig::default`. -/
def defaultConfig (fl : Floats F D R) : Config F where
  temp := fl.lit (8 / 10)
  topK := 40
  topP := fl.lit (95 / 100)
  repeatPenalty := fl.lit (11 / 10)
  frequencyPenalty := fl.lit 0
  presencePenalty := fl.lit 0
  minP := fl.lit 0
  typicalP := fl.lit 1
  dryMultiplier := fl.lit 0
  dryBase := fl.lit (175 / 100)
  dryAllowedLength := 2
  dryPenaltyLastN := 64
  dryBreakers := []
  xtcProbability := fl.lit 0
  xtcThreshold := fl.lit (1 / 2)
  mirostat := .off
  mirostatTau := fl.lit 5
  mirostatEta := fl.lit (1 / 10)
  mirostatM := 100
  logitBias := []
  grammar := none

namespace Config

/-- The `finite` of `validate`. -/
def finite (name : String) (v : F) : Except (ConfigError F) Unit :=
  if v = ⊥ then .error ⟨"sampler: " ++ name ++ " must be finite", some v⟩ else .ok ()

/-- A check of `validate`. -/
def require (ok : Bool) (text : String) (got : Option F) :
    Except (ConfigError F) Unit :=
  if ok then .ok () else .error ⟨text, got⟩

/-- A value that must be in `[0, 1]`. -/
def probability (fl : Floats F D R) (name : String) (v : F) :
    Except (ConfigError F) Unit := do
  finite name v
  require (fl.lit 0 ≤ v && v ≤ fl.lit 1)
    ("sampler: " ++ name ++ " must be in [0, 1]") (some v)

/-- A logit bias. -/
def bias (fl : Floats F D R) : Token × F → Except (ConfigError F) Unit :=
  fun (id, b) => do
  finite "logit_bias value" b
  require (fl.lit (-100) ≤ b && b ≤ fl.lit 100)
    ("sampler: logit_bias for token " ++ toString id
      ++ " must be in the OpenAI range [-100, 100]") (some b)

/-- The checks of a configured DRY. -/
def validateDry (fl : Floats F D R) (cfg : Config F) :
    Except (ConfigError F) Unit := do
  require (fl.lit 1 ≤ cfg.dryBase) "sampler: dry_base must be >= 1" (some cfg.dryBase)
  require (1 ≤ cfg.dryAllowedLength) "sampler: dry_allowed_length must be >= 1" none
  require (cfg.dryPenaltyLastN ≠ 0)
    (("sampler: dry_multiplier > 0 with dry_penalty_last_n " ++
        "= 0 would silently disable DRY; ")
      ++ "set a window or leave dry_multiplier at 0") none

/-- The checks of a configured mirostat. -/
def validateMirostat (fl : Floats F D R) (cfg : Config F) :
    Except (ConfigError F) Unit := do
  finite "mirostat_tau" cfg.mirostatTau
  finite "mirostat_eta" cfg.mirostatEta
  require (fl.lit 0 < cfg.mirostatTau)
    "sampler: mirostat_tau must be > 0 (target surprise in bits)"
    (some cfg.mirostatTau)
  require (fl.lit 0 < cfg.mirostatEta)
    "sampler: mirostat_eta must be > 0 (learning rate)"
    (some cfg.mirostatEta)
  require (1 ≤ cfg.mirostatM) "sampler: mirostat_m must be >= 1" none

/-- `validate`. -/
def validate (fl : Floats F D R) (cfg : Config F) : Except (ConfigError F) Unit := do
  finite "temperature" cfg.temp
  require (fl.lit 0 ≤ cfg.temp)
    "sampler: temperature must be >= 0 (0 = greedy)" (some cfg.temp)
  probability fl "min_p" cfg.minP
  probability fl "typical_p" cfg.typicalP
  probability fl "top_p" cfg.topP
  probability fl "xtc_probability" cfg.xtcProbability
  finite "xtc_threshold" cfg.xtcThreshold
  require (fl.lit 0 ≤ cfg.xtcThreshold && cfg.xtcThreshold ≤ fl.lit (1 / 2))
    ("sampler: xtc_threshold must be in [0, 0.5] " ++
      "(llama.cpp disables it above 0.5)") (some cfg.xtcThreshold)
  finite "repeat_penalty" cfg.repeatPenalty
  require (fl.lit 0 ≤ cfg.repeatPenalty) "sampler: repeat_penalty must be >= 0"
    (some cfg.repeatPenalty)
  finite "frequency_penalty" cfg.frequencyPenalty
  finite "presence_penalty" cfg.presencePenalty
  finite "dry_multiplier" cfg.dryMultiplier
  finite "dry_base" cfg.dryBase
  require (fl.lit 0 ≤ cfg.dryMultiplier)
    "sampler: dry_multiplier must be >= 0 (0 disables DRY)"
    (some cfg.dryMultiplier)
  if fl.lit 0 < cfg.dryMultiplier then cfg.validateDry fl else .ok ()
  cfg.logitBias.forM (bias fl)
  if cfg.mirostat ≠ .off then cfg.validateMirostat fl else .ok ()

/-- `apply_deterministic_filters`. -/
def applyDeterministicFilters (fl : Floats F D R) (cfg : Config F)
    (row : List F) (prev : List Token) :
    List F :=
  let row := applyLogitBias fl row cfg.logitBias
  let row := applyPenalties fl row prev cfg.repeatPenalty cfg.frequencyPenalty
    cfg.presencePenalty
  if fl.lit 0 < cfg.dryMultiplier then
    applyDry fl row prev cfg.dryMultiplier cfg.dryBase cfg.dryAllowedLength
      cfg.dryPenaltyLastN
      cfg.dryBreakers
  else row

/-- The filters between the greedy shortcut and the draw. -/
def applyStochasticFilters (fl : Floats F D R) (cfg : Config F) (row : List F)
    (rng : R) : List F × R :=
  let row := applyTopK row cfg.topK
  let row := applyTypical fl row cfg.typicalP
  let row := applyTopP fl row cfg.topP
  let row := applyMinP fl row cfg.minP
  applyXtc fl row cfg.xtcProbability cfg.xtcThreshold rng

end Config

/-- What the pipeline asks of a compiled grammar. -/
def grammarOps (g : Grammar) (start : GrammarState) : GrammarOps GrammarState where
  state := start
  nVocab := g.nVocab
  mask st := .ok ((List.range g.nVocab).map (hasBit (g.mask st).1))
  acceptToken st t :=
    match g.acceptToken st t with
    | (.ok (), st) => .ok st
    | (.error e, st) => .error (g.refusal st e)
  describe := g.describe

/-- The pipeline of a configuration; a run under its grammar begins at
`start`. -/
def Config.pipeline (fl : Floats F D R) (cfg : Config F) (start : GrammarState) :
    Session.SamplerConfig F F GrammarState R where
  applyDeterministicFilters := cfg.applyDeterministicFilters fl
  greedy := cfg.temp < fl.lit (1 / 1000000)
  applyStochasticFilters := cfg.applyStochasticFilters fl
  sampleTemperature row rng := sampleTemperature fl row cfg.temp rng
  mirostat := cfg.mirostat
  sampleMirostatV1 row mu rng :=
    sampleMirostatV1 fl row mu cfg.mirostatTau cfg.mirostatEta cfg.mirostatM rng
  sampleMirostatV2 row mu rng :=
    sampleMirostatV2 fl row mu cfg.mirostatTau cfg.mirostatEta rng
  newMirostat := fl.mul (fl.lit 2) cfg.mirostatTau
  grammar := cfg.grammar.map fun g => grammarOps g start
  gt v w := w < v
  negInfinity := ⊥

end Minfer.Sampler
