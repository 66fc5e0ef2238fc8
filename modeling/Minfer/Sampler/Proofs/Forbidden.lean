/-
A forbidden token is drawn only past the end of the weights.

What the mask leaves is narrowed by each filter and never emptied, so every
draw but one is allowed. `sample_temperature` answers with the last token of
the vocabulary when the rounded running sum stays below the draw, where
`sample_categorical` answers with its last candidate.
-/
import Mathlib.Algebra.Order.Field.Rat
import Mathlib.Order.WithBot
import Mathlib.Tactic.Linarith
import Minfer.Grammar.Proofs.Mask
import Minfer.Sampler.Pipeline
import Minfer.Sampler.Proofs.Filters

namespace Minfer.Sampler

open Minfer.Server (Token)
open Minfer.Session (SamplerState SampleError)
open Minfer.Gbnf (Grammar GrammarState hasBit fromGbnf)

variable {F D R : Type} [LinearOrder F] [OrderBot F] [LinearOrder D]
  {fl : Floats F D R}

/-- What the weights of the two filters and draws that divide by a sum promise,
whatever the row. -/
structure Weighing (fl : Floats F D R) : Prop where
  temperature : ∀ (row : List F) (temp : F), ¬ temp < fl.lit (1 / 1000000) →
    Weighs fl row (temperatureWeights fl row temp)
  full : ∀ row : List F, Weighs fl row (topPWeights fl row)

-- ============================== stages

/-- The rows after top-k, typical, top-p, min-p and XTC. -/
def Config.stages (fl : Floats F D R) (cfg : Config F) (row : List F)
    (rng : R) : List (List F) :=
  let topK := applyTopK row cfg.topK
  let typical := applyTypical fl topK cfg.typicalP
  let topP := applyTopP fl typical cfg.topP
  let minP := applyMinP fl topP cfg.minP
  [topK, typical, topP, minP,
    (applyXtc fl minP cfg.xtcProbability cfg.xtcThreshold rng).1]

/-- Every filter narrows what it is given and leaves something. -/
theorem filters_stages (hfl : Weighing fl) (cfg : Config F) {row : List F}
    (h : Live row) (rng : R) :
    ∀ row' ∈ cfg.stages fl row rng, Filters row row' := by
  have htopK := filters_applyTopK h cfg.topK
  have htypical := htopK.trans (filters_applyTypical fl htopK.live cfg.typicalP)
  have htopP := htypical.trans (filters_applyTopP htypical.live (hfl.full _) cfg.topP)
  have hminP := htopP.trans (filters_applyMinP fl htopP.live cfg.minP)
  have hxtc := hminP.trans
    (filters_applyXtc fl hminP.live cfg.xtcProbability cfg.xtcThreshold rng)
  intro row' hrow'
  simp only [Config.stages, List.mem_cons, List.not_mem_nil, or_false] at hrow'
  rcases hrow' with rfl | rfl | rfl | rfl | rfl
  · exact htopK
  · exact htypical
  · exact htopP
  · exact hminP
  · exact hxtc

theorem filters_applyStochasticFilters (hfl : Weighing fl) (cfg : Config F)
    {row : List F} (h : Live row) (rng : R) : Filters row
    (cfg.applyStochasticFilters fl row rng).1 := by
  apply filters_stages hfl cfg h rng
  simp [Config.stages, Config.applyStochasticFilters]

-- ================================ draw

/-- The temperature draw is past the end of the weights: no running sum of
theirs reaches it. -/
def FallsThrough (fl : Floats F D R) (cfg : Config F) (row : List F)
    (rng : R) : Prop :=
  ¬ cfg.temp < fl.lit (1 / 1000000) ∧ cfg.mirostat = .off
    ∧ ¬ Reaches fl (fl.gen (cfg.applyStochasticFilters fl row rng).2).1
      (temperatureWeights fl (cfg.applyStochasticFilters fl row rng).1 cfg.temp)

theorem scanMax_pipeline (cfg : Config F) (start : GrammarState) (row : List F)
    (i best : Nat) (top : F) :
    (cfg.pipeline fl start).scanMax row i best top = scanMax row i best top := by
  induction row generalizing i best top with
  | nil => rfl
  | cons v row ih =>
      rw [Session.SamplerConfig.scanMax, scanMax]
      by_cases h : top < v
      · rw [if_pos h, if_pos (by exact decide_eq_true h), ih]
      · rw [if_neg h, if_neg (by exact fun hgt => h (of_decide_eq_true hgt)), ih]

/-- The token that is drawn. -/
theorem draw_pipeline (cfg : Config F) (start : GrammarState) (row : List F)
    (mu : F) (rng : R) :
    ((cfg.pipeline fl start).draw row mu rng).1 =
      if cfg.temp < fl.lit (1 / 1000000) then sampleGreedy row
      else
        let filtered := cfg.applyStochasticFilters fl row rng
        match cfg.mirostat with
        | .off => (sampleTemperature fl filtered.1 cfg.temp filtered.2).1
        | .v2 => (sampleMirostatV2 fl filtered.1 mu cfg.mirostatTau
            cfg.mirostatEta filtered.2).1
        | .v1 =>
            (sampleMirostatV1 fl filtered.1 mu cfg.mirostatTau cfg.mirostatEta
              cfg.mirostatM
              filtered.2).1 := by
  have hflag : (cfg.pipeline fl start).greedy
    = decide (cfg.temp < fl.lit (1 / 1000000)) := rfl
  have hmode : (cfg.pipeline fl start).mirostat = cfg.mirostat := rfl
  unfold Session.SamplerConfig.draw
  rw [hflag, hmode]
  by_cases h : cfg.temp < fl.lit (1 / 1000000)
  · rw [if_pos h, if_pos (decide_eq_true h)]
    exact scanMax_pipeline cfg start row 0 0 (row.headD ⊥)
  · rw [if_neg h, if_neg (by rw [decide_eq_false h]; simp)]
    cases cfg.mirostat <;> rfl

/-- A draw is allowed unless it falls through to a last token that is not. -/
theorem allowed_draw_iff (hfl : Weighing fl) (cfg : Config F)
    (start : GrammarState) {row : List F} (h : Live row) (mu : F) (rng : R) :
    Allowed row ((cfg.pipeline fl start).draw row mu rng).1
      ↔ (FallsThrough fl cfg row rng → Allowed row (row.length - 1)) := by
  rw [draw_pipeline]
  have hfilters := filters_applyStochasticFilters hfl cfg h rng
  unfold FallsThrough
  generalize cfg.applyStochasticFilters fl row rng = filtered at hfilters
  obtain ⟨left, rng'⟩ := filtered
  simp only at hfilters ⊢
  split
  next hgreedy =>
    exact iff_of_true (allowed_sampleGreedy h) fun hfalls =>
      absurd hgreedy hfalls.1
  next hgreedy =>
    cases hmode : cfg.mirostat with
    | off =>
        have hcases :=
          sampleTemperature_cases hgreedy
          (hfl.temperature left cfg.temp hgreedy) rng'
        rcases hcases with ⟨hreaches, hallowed⟩ | ⟨hshort, hlast⟩
        · exact iff_of_true (hfilters.narrows.allowed hallowed) fun hfalls =>
            absurd hreaches hfalls.2.2
        · simp only
          rw [hlast, hfilters.narrows.1]
          exact ⟨fun hallowed _ => hallowed, fun hallowed =>
            hallowed ⟨hgreedy, trivial, hshort⟩⟩
    | v1 =>
        apply iff_of_true
        · exact hfilters.narrows.allowed
            (allowed_sampleMirostatV1 hfilters.live _ _ _ _ _)
        · exact fun hfalls => absurd hfalls.2.1 (by simp)
    | v2 =>
        apply iff_of_true
        · exact hfilters.narrows.allowed
            (allowed_sampleMirostatV2 hfilters.live _ _ _ _)
        · exact fun hfalls => absurd hfalls.2.1 (by simp)

-- ================================ mask

/-- What the mask leaves was allowed by it. -/
theorem allowed_applyTokenMask (cfg : Config F) (start : GrammarState)
    {row : List F} {mask : List Bool} {t : Nat}
    (h : Allowed ((cfg.pipeline fl start).applyTokenMask row mask).1 t) :
    mask[t]? = some true := by
  induction row generalizing mask t with
  | nil =>
      obtain ⟨v, hv, -⟩ := h
      simp [Session.SamplerConfig.applyTokenMask] at hv
  | cons v row ih =>
      obtain ⟨w, hw, hne⟩ := h
      rw [Session.SamplerConfig.applyTokenMask] at hw
      simp only at hw
      cases mask with
      | nil =>
          cases t with
          | zero =>
              cases hw
              exact absurd rfl hne
          | succ t =>
              have := @ih [] t ⟨w, hw, hne⟩
              simp at this
      | cons ok mask =>
          cases t with
          | zero =>
              cases ok with
              | true => rfl
              | false =>
                  cases hw
                  exact absurd rfl hne
          | succ t =>
              have hrest :
                  ((cfg.pipeline fl start).applyTokenMask row mask).1[t]?
                  = some w := by
                cases ok <;> exact hw
              exact @ih mask t ⟨w, hrest, hne⟩

variable {cfg : Config F} {start : GrammarState} {row masked : List F}
  {constrained : Bool}

/-- What `maskStage` answers with a grammar, and without one. -/
theorem maskStage_cases {grammar : Option GrammarState}
    (h : (cfg.pipeline fl start).maskStage row grammar = .ok (masked, constrained)) :
    (constrained = false ∧ cfg.grammar = none)
      ∨ (constrained = true ∧ ∃ g gs, cfg.grammar = some g ∧ grammar = some gs
        ∧ masked = ((cfg.pipeline fl start).applyTokenMask row
          ((List.range g.nVocab).map (hasBit (g.mask gs).1))).1) := by
  unfold Session.SamplerConfig.maskStage at h
  cases hg : cfg.grammar with
  | none =>
      have hnone : (cfg.pipeline fl start).grammar = none := by
        simp [Config.pipeline, hg]
      rw [hnone] at h
      cases grammar <;> cases h <;> exact Or.inl ⟨rfl, rfl⟩
  | some g =>
      have hsome : (cfg.pipeline fl start).grammar = some (grammarOps g start) := by
        simp [Config.pipeline, hg]
      rw [hsome] at h
      cases grammar with
      | none => cases h
      | some gs =>
          simp only at h
          split at h
          · cases h
          · simp only [grammarOps] at h
            split at h
            · cases h
            · cases h
              exact Or.inr ⟨rfl, g, gs, rfl, rfl, rfl⟩

variable {st : SamplerState F GrammarState R}

/-- The token that is returned is one the mask allowed exactly when the drawn
one is, and the run has not ended. -/
theorem sampled_allowed_drawn_iff (prev : List Token)
    (hgrammar : ∀ g, cfg.grammar = some g →
      (∃ fuel source vocab, fromGbnf fuel source vocab = .ok g)
      ∧ ∀ gs, st.grammar = some gs → g.Reachable gs)
    (hmask : (cfg.pipeline fl start).maskStage
      (cfg.applyDeterministicFilters fl row prev) st.grammar
      = .ok (masked, constrained)) :
    (∃ t, ((cfg.pipeline fl start).sampleWithConfigGrammar row prev st).1 = .ok t
        ∧ Allowed masked t)
      ↔ Allowed masked ((cfg.pipeline fl start).draw masked st.mirostat st.rng).1
        ∧ ∀ g gs, cfg.grammar = some g → st.grammar = some gs →
          gs.inner.done = false := by
  unfold Session.SamplerConfig.sampleWithConfigGrammar
  have hfilters : (cfg.pipeline fl start).applyDeterministicFilters row prev
      = cfg.applyDeterministicFilters fl row prev := rfl
  simp only [hfilters, hmask]
  generalize (cfg.pipeline fl start).draw masked st.mirostat st.rng = drawn
  obtain ⟨t, mu, rng⟩ := drawn
  rcases maskStage_cases hmask with ⟨rfl, hnone⟩ | ⟨rfl, g, gs, hg, hgs, hmasked⟩
  · simp [hnone]
  · obtain ⟨⟨fuel, source, vocab, hcompiled⟩, hreachable⟩ := hgrammar g hg
    have hsome : (cfg.pipeline fl start).grammar = some (grammarOps g start) := by
      simp [Config.pipeline, hg]
    simp only [hsome, hgs, hg, Option.some.injEq, grammarOps]
    by_cases hdone : gs.inner.done = false
    · have hexact := Grammar.mask_exact hcompiled (hreachable gs hgs) hdone t
      have haccept : Allowed masked t → (g.acceptToken gs t).1 = .ok () := by
        intro hallowed
        rw [hmasked] at hallowed
        have hbit := allowed_applyTokenMask cfg start hallowed
        rw [List.getElem?_map] at hbit
        obtain ⟨i, hi, hbit⟩ := Option.map_eq_some_iff.1 hbit
        have hlt := (List.getElem?_eq_some_iff.1 hi).1
        rw [List.length_range] at hlt
        rw [List.getElem?_range hlt] at hi
        rw [← Option.some.inj hi] at hbit
        exact hexact.1.1 hbit
      constructor
      · intro h
        obtain ⟨t', ht', hallowed⟩ := h
        refine ⟨?_, fun g' gs' hg' hgs' => by rw [← hgs']; exact hdone⟩
        generalize g.acceptToken gs t = accepted at ht'
        obtain ⟨answer, gs'⟩ := accepted
        cases answer with
        | error e => cases ht'
        | ok u =>
            cases ht'
            exact hallowed
      · intro h
        have hok := haccept h.1
        refine ⟨t, ?_, h.1⟩
        generalize g.acceptToken gs t = accepted at hok
        obtain ⟨answer, gs'⟩ := accepted
        cases hok
        rfl
    · -- after the end of the generation every token is refused
      have hended : ∃ e, (g.acceptToken gs t).1 = .error e := by
        rcases Grammar.acceptToken_cases (g := g) gs t with ⟨herror, -⟩ | ⟨-, hnot, -⟩
        · exact herror
        · exact absurd hnot hdone
      obtain ⟨e, he⟩ := hended
      generalize g.acceptToken gs t = accepted at he
      obtain ⟨answer, gs'⟩ := accepted
      cases he
      constructor
      · intro h
        obtain ⟨t', ht', -⟩ := h
        cases ht'
      · intro h
        exact absurd (h.2 g gs rfl rfl) hdone

/-- No filter empties the row, and the token that is returned is one the mask
allowed, exactly when the draw does not fall through to a last token that is
forbidden, and the run has not ended. -/
theorem sampled_allowed_iff (hfl : Weighing fl) (prev : List Token)
    (hgrammar : ∀ g, cfg.grammar = some g →
      (∃ fuel source vocab, fromGbnf fuel source vocab = .ok g)
      ∧ ∀ gs, st.grammar = some gs → g.Reachable gs)
    (hmask : (cfg.pipeline fl start).maskStage
      (cfg.applyDeterministicFilters fl row prev) st.grammar
      = .ok (masked, constrained)) (hlive : Live masked) :
    (∀ row' ∈ cfg.stages fl masked st.rng, Live row')
      ∧ ((∃ t, ((cfg.pipeline fl start).sampleWithConfigGrammar row prev st).1 = .ok t
          ∧ Allowed masked t)
        ↔ (FallsThrough fl cfg masked st.rng → Allowed masked (masked.length - 1))
          ∧ ∀ g gs, cfg.grammar = some g → st.grammar = some gs →
            gs.inner.done = false) := by
  refine ⟨fun row' hrow' => (filters_stages hfl cfg hlive st.rng row' hrow').live, ?_⟩
  rw [← allowed_draw_iff hfl cfg start hlive st.mirostat st.rng]
  exact sampled_allowed_drawn_iff prev hgrammar hmask

/-- On the configuration and the masked row alone: the token is allowed when
the draw is greedy or mirostat's, and always when the last token is. -/
theorem sampled_allowed_of_config (hfl : Weighing fl) (prev : List Token)
    (hgrammar : ∀ g, cfg.grammar = some g →
      (∃ fuel source vocab, fromGbnf fuel source vocab = .ok g)
        ∧ ∀ gs, st.grammar = some gs → g.Reachable gs)
    (hmask : (cfg.pipeline fl start).maskStage
        (cfg.applyDeterministicFilters fl row prev) st.grammar
      = .ok (masked, constrained)) (hlive : Live masked)
    (hrunning : ∀ g gs, cfg.grammar = some g → st.grammar = some gs →
      gs.inner.done = false)
    (hexit : cfg.temp < fl.lit (1 / 1000000) ∨ cfg.mirostat ≠ .off
      ∨ Allowed masked (masked.length - 1)) :
    ∃ t, ((cfg.pipeline fl start).sampleWithConfigGrammar row prev st).1 = .ok t
      ∧ Allowed masked t := by
  refine (sampled_allowed_drawn_iff prev hgrammar hmask).mpr ⟨?_, hrunning⟩
  refine (allowed_draw_iff hfl cfg start hlive st.mirostat
    st.rng).mpr fun hfalls => ?_
  rcases hexit with hgreedy | hmode | hlast
  · exact absurd hgreedy hfalls.1
  · exact absurd hfalls.2.1 hmode
  · exact hlast

-- ======================= an arithmetic

/-- A number: −∞ is the bottom. -/
abbrev Number := WithBot ℚ

/-- An operation on numbers; −∞ is absorbing. -/
def both (f : ℚ → ℚ → ℚ) : Number → Number → Number
  | some a, some b => ((f a b : ℚ) : Number)
  | _, _ => ⊥

def value : Number → ℚ
  | some a => a
  | none => 0

/-- Exact numbers, but for a sum of them, which is rounded down to thousandths,
and for the exponential, which is a half of everything but zero. The random
stream repeats one number. -/
def thousandths : Floats Number ℚ ℚ where
  lit q := (q : Number)
  litD q := q
  ofNat n := ((n : ℚ) : Number)
  ofNatD n := n
  add := both fun a b => ((a + b) * 1000).floor / 1000
  sub
    | some a, some b => ((a - b : ℚ) : Number)
    | some a, none => ((a : ℚ) : Number)
    | none, _ => ⊥
  mul := both (· * ·)
  div := both (· / ·)
  abs v := max v (both (· - ·) ((0 : ℚ) : Number) v)
  exp
    | none => ((0 : ℚ) : Number)
    | some a => if a = 0 then ((1 : ℚ) : Number) else ((1 / 2 : ℚ) : Number)
  ln v := v
  powi v _ := v
  addD := (· + ·)
  subD := (· - ·)
  mulD := (· * ·)
  divD := (· / ·)
  negD a := -a
  absD a := |a|
  expD _ := 1
  lnD a := a
  log2D a := a
  powfD a _ := a
  isFiniteD _ := true
  toInt v := (value v).floor
  toNat a := a.floor.toNat
  widen := value
  narrow a := (a : Number)
  gen r := ((r : Number), r)

theorem eq_bot_or_coe (v : Number) : v = ⊥ ∨ ∃ a : ℚ, v = (a : Number) := by
  cases v with
  | none => exact Or.inl rfl
  | some a => exact Or.inr ⟨a, rfl⟩

/-- An exponential is zero at −∞ and positive elsewhere. -/
theorem exp_sub (v top : Number) :
    (v = ⊥ ∧ thousandths.exp (thousandths.sub v top) = ((0 : ℚ) : Number))
      ∨ (v ≠ ⊥ ∧ ∃ e : ℚ, 0 < e
        ∧ thousandths.exp (thousandths.sub v top) = (e : Number)) := by
  have hexp : ∀ a : ℚ, ∃ e : ℚ, 0 < e
      ∧ thousandths.exp (a : Number) = (e : Number) := by
    intro a
    by_cases ha : a = 0
    · exact ⟨1, by norm_num, if_pos ha⟩
    · exact ⟨1 / 2, by norm_num, if_neg ha⟩
  rcases eq_bot_or_coe v with rfl | ⟨a, rfl⟩
  · exact Or.inl ⟨rfl, rfl⟩
  · right
    refine ⟨WithBot.coe_ne_bot, ?_⟩
    rcases eq_bot_or_coe top with rfl | ⟨b, rfl⟩
    · exact hexp a
    · exact hexp (a - b)

/-- Positive weights over a positive sum. -/
theorem weighs_of {row weights : List Number} (raw : Number → ℚ) (total : ℚ)
    (hweights : weights = row.map fun v => ((raw v / total : ℚ) : Number))
    (hbot : raw ⊥ = 0) (hpos : ∀ v, v ≠ ⊥ → 0 < raw v)
    (htotal : Live row → 0 < total) :
    Weighs thousandths row weights := by
  subst hweights
  refine ⟨List.length_map _, fun i hi => ?_, fun i v hv hne w hw => ?_,
    fun hlive => ?_⟩
  · rw [List.getElem?_map, hi, Option.map_some, hbot, zero_div]
    rfl
  · rw [List.getElem?_map, hv, Option.map_some, Option.mem_some_iff] at hw
    rw [← hw]
    exact WithBot.coe_le_coe.2 (div_pos (hpos v hne) (htotal ⟨i, v, hv, hne⟩)).le
  · obtain ⟨v, hv, hne⟩ := live_iff.1 hlive
    refine ⟨_, List.mem_map_of_mem hv, ?_⟩
    exact WithBot.coe_lt_coe.2 (div_pos (hpos v hne) (htotal hlive))

theorem foldl_add_pos {α : Type} {f : α → ℚ} {l : List α}
    (hnonneg : ∀ a ∈ l, 0 ≤ f a) {start : ℚ}
    (hpos : 0 < start ∨ 0 ≤ start ∧ ∃ a ∈ l, 0 < f a) :
    0 < l.foldl (fun sum a => sum + f a) start := by
  induction l generalizing start with
  | nil =>
      rcases hpos with hpos | ⟨-, a, ha, -⟩
      · exact hpos
      · exact absurd ha List.not_mem_nil
  | cons b l ih =>
      have hb := hnonneg b List.mem_cons_self
      apply ih fun a ha => hnonneg a (List.mem_cons_of_mem _ ha)
      rcases hpos with hpos | ⟨hstart, a, ha, hpos⟩
      · exact Or.inl (by linarith)
      · rcases List.mem_cons.1 ha with rfl | ha
        · exact Or.inl (by linarith)
        · exact Or.inr ⟨by linarith, a, ha, hpos⟩

theorem temperature_thousandths (row : List Number) {temp : Number}
    (htemp : ¬ temp < thousandths.lit (1 / 1000000)) :
    Weighs thousandths row (temperatureWeights thousandths row temp) := by
  obtain ⟨q, rfl⟩ : ∃ q : ℚ, temp = (q : Number) := by
    rcases eq_bot_or_coe temp with rfl | hq
    · exact absurd (WithBot.bot_lt_coe _) htemp
    · exact hq
  unfold temperatureWeights
  simp only [List.map_map, List.foldl_map]
  generalize maxOf
    (row.map fun v =>
      thousandths.mul v (thousandths.div (thousandths.lit 1) q)) = top
  -- an entry after the scaling and the exponential
  generalize hraw :
    (fun v : Number =>
      value (if ⊥ < v then thousandths.exp (thousandths.sub v top)
    else thousandths.lit 0)) = raw
  have hexp : ∀ v : Number, (if ⊥ < v then thousandths.exp (thousandths.sub v top)
      else thousandths.lit 0) = ((raw v : ℚ) : Number) ∧ (v = ⊥ → raw v = 0)
          ∧ (v ≠ ⊥ → 0 < raw v) := by
    intro v
    subst hraw
    rcases exp_sub v top with ⟨rfl, -⟩ | ⟨hne, e, hpos, he⟩
    · exact ⟨rfl, fun _ => rfl, fun h => absurd rfl h⟩
    · simp only [if_pos (bot_lt_iff_ne_bot.2 hne), he]
      exact ⟨rfl, fun h => absurd h hne, fun _ => hpos⟩
  have hscale : ∀ v : Number, v ≠ ⊥ →
      thousandths.mul v (thousandths.div (thousandths.lit 1) q) ≠ ⊥ := by
    intro v hne
    rcases eq_bot_or_coe v with rfl | ⟨a, rfl⟩
    · exact absurd rfl hne
    · exact WithBot.coe_ne_bot
  apply weighs_of
    (fun v => raw (thousandths.mul v (thousandths.div (thousandths.lit 1) q)))
    (row.foldl (fun sum v =>
      sum + raw (thousandths.mul v (thousandths.div (thousandths.lit 1) q))) 0)
  · apply List.map_congr_left
    intro v _
    simp only [Function.comp_apply, (hexp _).1]
    exact congrArg (fun a : ℚ => (a : Number)) (mul_one_div _ _)
  · exact (hexp ⊥).2.1 rfl
  · exact fun v hne => (hexp _).2.2 (hscale v hne)
  · intro hlive
    obtain ⟨v, hv, hne⟩ := live_iff.1 hlive
    apply foldl_add_pos
    · intro w _
      by_cases hw : thousandths.mul w (thousandths.div (thousandths.lit 1) q) = ⊥
      · exact ((hexp _).2.1 hw).ge
      · exact ((hexp _).2.2 hw).le
    · exact Or.inr ⟨le_refl _, v, hv, (hexp _).2.2 (hscale v hne)⟩

theorem full_thousandths (row : List Number) :
    Weighs thousandths row (topPWeights thousandths row) := by
  unfold topPWeights
  simp only
  generalize maxOf row = top
  have hexp : ∀ v : Number, thousandths.exp (thousandths.sub v top)
      = ((value (thousandths.exp (thousandths.sub v top)) : ℚ) : Number) := by
    intro v
    rcases exp_sub v top with ⟨-, he⟩ | ⟨-, e, -, he⟩
    · rw [he]
      rfl
    · rw [he]
      rfl
  apply weighs_of (fun v => value (thousandths.exp (thousandths.sub v top)))
    (expSum thousandths row top)
  · apply List.map_congr_left
    intro v _
    rw [hexp v]
    rfl
  · rfl
  · intro v hne
    rcases exp_sub v top with ⟨hbot, -⟩ | ⟨-, e, hpos, he⟩
    · exact absurd hbot hne
    · simp only [he]
      exact hpos
  · intro hlive
    obtain ⟨v, hv, -⟩ := live_iff.1 hlive
    unfold expSum
    apply foldl_add_pos (f := fun _ => 1)
    · intro w _
      norm_num
    · exact Or.inr ⟨le_refl _, v, hv, by norm_num⟩

theorem weighing_thousandths : Weighing thousandths :=
  ⟨fun row _ htemp => temperature_thousandths row htemp, full_thousandths⟩

-- ============================== a draw

/-- Temperature sampling and no filter, under the grammar of `é`. -/
def plainConfig : Config Number :=
  { defaultConfig thousandths with
    temp := ((1 : ℚ) : Number)
    topK := 0
    topP := ((1 : ℚ) : Number)
    repeatPenalty := ((1 : ℚ) : Number)
    grammar := some Grammar.accentedGrammar }

def plainRow : List Number :=
  [((0 : ℚ) : Number), ((-1 : ℚ) : Number), ((0 : ℚ) : Number)]

/-- The end of the generation is forbidden. -/
def plainMasked : List Number := [((0 : ℚ) : Number), ((-1 : ℚ) : Number), ⊥]

/-- A run at its start, with the number its random stream repeats. -/
def plainState (r : ℚ) : SamplerState Number GrammarState ℚ :=
  ⟨((10 : ℚ) : Number), some Grammar.accentedStart, r⟩

theorem plain_masked (r : ℚ) :
    (plainConfig.pipeline thousandths Grammar.accentedStart).maskStage
    (plainConfig.applyDeterministicFilters thousandths plainRow [])
      (plainState r).grammar
    = .ok (plainMasked, true) := by
  have hrow : plainConfig.applyDeterministicFilters thousandths plainRow []
    = plainRow := by decide +kernel
  have hgrammar : (plainState r).grammar = some Grammar.accentedStart := rfl
  rw [hrow, hgrammar]
  decide +kernel

theorem plain_grammar (r : ℚ) : ∀ g, plainConfig.grammar = some g →
    (∃ fuel source vocab, fromGbnf fuel source vocab = .ok g)
      ∧ ∀ gs, (plainState r).grammar = some gs → g.Reachable gs := by
  intro g hg
  cases hg
  refine ⟨⟨_, _, _, Grammar.accentedGrammar_compiles⟩, fun gs hgs => ?_⟩
  cases hgs
  exact .start Grammar.accentedGrammar_state

theorem plain_live : Live plainMasked :=
  ⟨0, ((0 : ℚ) : Number), rfl, WithBot.coe_ne_bot⟩

/-- Half way through the weights the draw is allowed. -/
theorem sampled_allowed_plain :
    (∃ t, ((plainConfig.pipeline thousandths
        Grammar.accentedStart).sampleWithConfigGrammar plainRow []
        (plainState (1 / 2))).1 = .ok t ∧ Allowed plainMasked t) := by
  refine ((sampled_allowed_iff weighing_thousandths [] (plain_grammar (1 / 2))
    (plain_masked (1 / 2))
    plain_live).2).2 ⟨fun hfalls => ?_, fun g gs _ hgs => ?_⟩
  · refine absurd ⟨0, ((2 / 3 : ℚ) : Number), ?_, ?_, ?_⟩ hfalls.2.2
    · decide +kernel
    · decide +kernel
    · decide +kernel
  · cases hgs
    rfl

/-- The weights are 2/3 and 1/3, and their sum rounds to 0.999. A draw of
0.9995 is answered with the end of the generation, which the grammar refuses. -/

theorem forbidden_sampled : plainConfig.validate thousandths = .ok
    () ∧ Weighing thousandths
    ∧ (plainConfig.pipeline thousandths Grammar.accentedStart).maskStage
      (plainConfig.applyDeterministicFilters thousandths plainRow [])
      (plainState (9995 / 10000)).grammar = .ok (plainMasked, true)
    ∧ Live plainMasked
    ∧ ¬ ∃ t, ((plainConfig.pipeline thousandths
        Grammar.accentedStart).sampleWithConfigGrammar plainRow []
        (plainState (9995 / 10000))).1 = .ok t := by
  refine ⟨by decide +kernel, weighing_thousandths, plain_masked _, plain_live,
    fun h => ?_⟩
  obtain ⟨t, ht⟩ := h
  have hrefused :
      ((plainConfig.pipeline thousandths
        Grammar.accentedStart).sampleWithConfigGrammar
      plainRow [] (plainState (9995 / 10000))).1.isOk = false := by decide +kernel
  rw [ht] at hrefused
  cases hrefused

end Minfer.Sampler
