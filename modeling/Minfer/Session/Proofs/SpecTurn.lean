/-
When speculation is invisible in a turn (`conversation.rs`).

`generate_assistant_spec` and the plain loop are compared from one state:
they end alike exactly when no limit is met at the wrong place.

Both are compared with the walk, the sequential turn without an engine. The
plain loop is the walk; the rounds are batches of it, and how their loop ends
against the walk is `LoopOutcome`. It differs in two places: the budget can
cut a batch, whose later rows are then lost, and at the end of the context a
round still takes the token it sampled last. `NoLimitAmiss` says, of the
walk and of the limits before the turn, that neither happens.
-/
import Minfer.Session.Proofs.Speculation

namespace Minfer.Session

open Minfer.Lib (Causal)
open Minfer.Server (Token pushRecent matchStopSuffix)

variable {S V W F M G R : Type}

-- ============================ property

/-- A speculative turn ends like a plain one, its stream is in the cache and
nothing was forwarded outside the context. -/
structure Invisible (c : Course V F M G R) (cacheOf : S → GraphCache V)
    (touched : List Nat)
    (plain : Except Exit TurnOutcome × World (GraphCache V) M G R)
    (spec : Except Exit TurnOutcome × World S M G R) : Prop where
  /-- Text, flags and token count. -/
  outcome : ∃ out, plain.1 = .ok out ∧ spec.1 = .ok out
  stream : spec.2.conv.streamTokens = plain.2.conv.streamTokens
  pos : spec.2.conv.currentPos = plain.2.conv.currentPos
  mirror : spec.2.conv.streamTokens.length = spec.2.conv.currentPos
  rows : c.model.Holds (cacheOf spec.2.engine).rows spec.2.conv.streamTokens
  inside : ∀ p ∈ (cacheOf spec.2.engine).touched, p ∈ touched ∨ p < c.nCtx

/-- A loop's end and the turn's. -/
def finished (g : Gen) (s : World S M G R) :
    Except Exit TurnOutcome × World S M G R :=
  (.ok (finishTurn g s).1, (finishTurn g s).2)

theorem finishTurn_world (g : Gen) (s : World S M G R) :
    (finishTurn g s).2.conv.streamTokens = s.conv.streamTokens
      ∧ (finishTurn g s).2.conv.currentPos = s.conv.currentPos
      ∧ (finishTurn g s).2.engine = s.engine := by
  unfold finishTurn
  dsimp only
  split
  · exact ⟨rfl, rfl, rfl⟩
  · exact ⟨rfl, rfl, rfl⟩

/-- Agreeing loops make an invisible turn. -/
theorem Agrees.invisible {c : Course V F M G R} {cacheOf : S → GraphCache V}
    {touched : List Nat} {e : List Token × Gen × Ending} {g : Gen}
    {s : World S M G R} {s₀ : World (GraphCache V) M G R}
    (h : Agrees c cacheOf touched e g s) (hstream : s₀.conv.streamTokens = e.1)
    (hpos : s₀.conv.currentPos = e.1.length) :
    Invisible c cacheOf touched (finished e.2.1 s₀) (finished g s) := by
  obtain ⟨rfl, hs⟩ := h
  obtain ⟨h1, h2, h3⟩ := finishTurn_world e.2.1 s
  obtain ⟨h1', h2', -⟩ := finishTurn_world e.2.1 s₀
  constructor
  · exact ⟨_, rfl, rfl⟩
  · show (finishTurn e.2.1 s).2.conv.streamTokens
      = (finishTurn e.2.1 s₀).2.conv.streamTokens
    rw [h1, h1', hs.stream, hstream]
  · show (finishTurn e.2.1 s).2.conv.currentPos
      = (finishTurn e.2.1 s₀).2.conv.currentPos
    rw [h2, h2', hs.pos, hpos]
  · show (finishTurn e.2.1 s).2.conv.streamTokens.length
      = (finishTurn e.2.1 s).2.conv.currentPos
    rw [h1, h2, hs.stream, hs.pos]
  · show c.model.Holds (cacheOf (finishTurn e.2.1 s).2.engine).rows
      (finishTurn e.2.1 s).2.conv.streamTokens
    rw [h1, h3, hs.stream]
    exact hs.holds
  · show ∀ p ∈ (cacheOf (finishTurn e.2.1 s).2.engine).touched, _
    rw [h3]
    exact hs.inside

/-- What an invisible turn says about the loops. -/
theorem Invisible.loops {c : Course V F M G R} {cacheOf : S → GraphCache V}
    {touched : List Nat}
    {g g' : Gen} {s₀ : World (GraphCache V) M G R} {s : World S M G R}
    (h : Invisible c cacheOf touched (finished g s₀) (finished g' s)) :
    g'.nGen = g.nGen ∧ g'.stoppedByEog = g.stoppedByEog
      ∧ g'.stoppedByString = g.stoppedByString ∧ g'.hitNPredict = g.hitNPredict
      ∧ s.conv.streamTokens.length = s.conv.currentPos := by
  obtain ⟨out, h1, h2⟩ := h.outcome
  obtain ⟨h3, h4, -⟩ := finishTurn_world g' s
  have hmirror := h.mirror
  change (finishTurn g' s).2.conv.streamTokens.length
    = (finishTurn g' s).2.conv.currentPos at hmirror
  rw [h3, h4] at hmirror
  have heq : (finishTurn g' s).1 = (finishTurn g s₀).1 :=
    Except.ok.inj (h2.trans h1.symm)
  have hfields := TurnOutcome.mk.inj heq
  exact ⟨hfields.2.2.2.2.2.1, hfields.2.1, hfields.2.2.1, hfields.2.2.2.1, hmirror⟩

-- =========================== condition

/-- The course of a conversation's turn. -/
def courseOf (m : ModelDef V F) (codec : TokenCodec) (cfg : TurnParams F M G R)
    (conv : Conversation M G R) : Course V F M G R :=
  ⟨m, cfg, codec, conv.eog, conv.nCtx⟩

/-- No limit is met at the wrong place: there is budget and room for a token;
if the first token ends generation the context has room for one more, and
if it completes a stop string the budget has; otherwise a later token ends
the turn before the context is full, or the budget runs out with a batch. -/
def NoLimitAmiss (m : ModelDef V F) (codec : TokenCodec) (cfg : TurnParams F M G R)
    (eng : Engine S F M G R) (conv : Conversation M G R) (st : S) : Prop :=
  let c := courseOf m codec cfg conv
  let t := c.next conv.streamTokens conv.prevTokens
  0 < cfg.nPredict ∧ conv.streamTokens.length < conv.nCtx
    ∧ if t ∈ conv.eog then conv.streamTokens.length + 1 < conv.nCtx
      else if c.stopAt (Gen.start.take codec t) ≠ none then 2 ≤ cfg.nPredict
      else
        match (c.walk cfg.nPredict conv.streamTokens conv.prevTokens
            Gen.start).2.2 with
        | .eog | .stop => True
        | .context => False
        | .budget => endsBatch eng cfg.sampler cfg.nPredict (cfg.nPredict - 1) st t
            conv.streamTokens.length (pushRecent conv.prevTokens t) conv.rng = true

-- ================================ turn

section Turn

variable {m : ModelDef V F} {codec : TokenCodec} {cfg : TurnParams F M G R}

/-- The plain turn is the walk. -/
theorem plain_walk (hg : Greedy cfg.sampler) (unwritten : Lib.Rows Token V)
    {s : World (GraphCache V) M G R}
    (hpos : s.conv.streamTokens.length = s.conv.currentPos)
    (hholds : m.Holds s.engine.rows s.conv.streamTokens) :
    ∃ s', generateAssistantWithLogits (modelEngine m unwritten) codec cfg
        (m.out (m.history s.conv.streamTokens)) s
        = finished ((courseOf m codec cfg s.conv).walk cfg.nPredict
            s.conv.streamTokens
            s.conv.prevTokens Gen.start).2.1 s'
      ∧ s'.conv.streamTokens = ((courseOf m codec cfg s.conv).walk cfg.nPredict
          s.conv.streamTokens s.conv.prevTokens Gen.start).1
      ∧ s'.conv.currentPos = ((courseOf m codec cfg s.conv).walk cfg.nPredict
          s.conv.streamTokens s.conv.prevTokens Gen.start).1.length := by
  obtain ⟨s', hrun, hstream, hend⟩ :=
    decodeLoop_walk (c := courseOf m codec cfg s.conv) hg
    unwritten cfg.nPredict s.conv.streamTokens Gen.start (resetGrammar cfg s)
    ⟨rfl, rfl, rfl, hholds⟩ hpos.symm
  refine ⟨s', ?_, hstream, hend⟩
  show generateAssistantPlain (modelEngine m unwritten) codec cfg _ s = _
  unfold generateAssistantPlain
  rw [show decodeLoop (modelEngine m unwritten) codec cfg cfg.nPredict
    (m.out (m.history s.conv.streamTokens)) Gen.start (resetGrammar cfg s)
      = _ from hrun]
  rfl

/-- The speculative turn: the seed, then the round loop. -/
theorem spec_seed (hg : Greedy cfg.sampler) (eng : Engine S F M G R)
    {s : World S M G R} {t : Token} (ht :
      (courseOf m codec cfg s.conv).next s.conv.streamTokens s.conv.prevTokens
      = t) {g g' : Gen} {s₁ s' : World S M G R}
    (hseed : takeSeed eng codec cfg t (resetGrammar cfg s) = (g, s₁))
    (hloop : specLoop eng codec cfg (cfg.nPredict + 1) t g s₁ = (.ok g', s')) :
    generateAssistantSpec eng codec cfg (m.out (m.history s.conv.streamTokens)) s
      = finished g' s' := by
  unfold generateAssistantSpec
  dsimp only
  rw [hg.sample]
  rw [show cfg.sampler.sampleGreedy (cfg.sampler.applyDeterministicFilters
    (m.out (m.history s.conv.streamTokens))
      (resetGrammar cfg s).conv.prevTokens) = t from ht]
  dsimp only
  rw [show (resetGrammar cfg s).setSampler (resetGrammar cfg s).samplerState
    = resetGrammar cfg s from rfl, hseed]
  dsimp only
  rw [hloop]
  rfl

/-- At a limit the loop flushes the seed, also when the turn is over. -/
theorem specLoop_limit (eng : Engine S F M G R) (fuel : Nat) (t : Token)
    {g : Gen} {s : World S M G R}
    (h : cfg.nPredict ≤ g.nGen ∨ s.conv.nCtx ≤ s.conv.currentPos) :
    specLoop eng codec cfg (fuel + 1) t g s
      = (.ok (flushSeed eng t g s).1, (flushSeed eng t g s).2) := by
  unfold specLoop
  by_cases h1 : cfg.nPredict ≤ g.nGen
  · rw [if_pos h1]
  · rw [if_neg h1, if_pos (h.resolve_left h1)]

/-- Before the limits a turn that is over stays as it is. -/
theorem specLoop_over (eng : Engine S F M G R) (fuel : Nat) (t : Token) {g : Gen}
    {s : World S M G R} (hg : g.stoppedByEog = true ∨ g.stoppedByString = true)
    (h : ¬ (cfg.nPredict ≤ g.nGen ∨ s.conv.nCtx ≤ s.conv.currentPos)) :
    specLoop eng codec cfg (fuel + 1) t g s = (.ok g, s) := by
  obtain ⟨h1, h2⟩ := not_or.mp h
  unfold specLoop
  rw [if_neg h1, if_neg h2, if_pos hg]

/-- Without budget or room the plain turn ends before its first token. -/
theorem walk_at_once {c : Course V F M G R} {N : Nat} {ts w : List Token}
    (h : N = 0 ∨ c.nCtx ≤ ts.length) :
    (c.walk N ts w Gen.start).2.1 = { Gen.start with hitNPredict := true } := by
  cases N with
  | zero => rfl
  | succ N => rw [Course.walk_context (h.resolve_left (Nat.succ_ne_zero N))]

section Seed

variable {eng : Engine S F M G R} {cacheOf : S → GraphCache V}
  {s : World S M G R} {s₀ : World (GraphCache V) M G R} {t : Token}
  (hg : Greedy cfg.sampler)
  (hsp : Speculates (courseOf m codec cfg s.conv) eng cacheOf)
  (hpos : s.conv.streamTokens.length = s.conv.currentPos)
  (hholds : m.Holds (cacheOf s.engine).rows s.conv.streamTokens)
  (ht : (courseOf m codec cfg s.conv).next s.conv.streamTokens
    s.conv.prevTokens = t) (hstream₀ : s₀.conv.streamTokens
    = ((courseOf m codec cfg s.conv).walk cfg.nPredict
    s.conv.streamTokens s.conv.prevTokens Gen.start).1)
  (hpos₀ : s₀.conv.currentPos = ((courseOf m codec cfg s.conv).walk cfg.nPredict
    s.conv.streamTokens s.conv.prevTokens Gen.start).1.length)

include hg hsp hpos hholds ht hstream₀ hpos₀

/-- A first token that ends generation. -/
theorem spec_eog_iff (heog : t ∈ s.conv.eog) :
    Invisible (courseOf m codec cfg s.conv) cacheOf (cacheOf s.engine).touched
        (finished ((courseOf m codec cfg s.conv).walk cfg.nPredict s.conv.streamTokens
          s.conv.prevTokens Gen.start).2.1 s₀)
        (generateAssistantSpec eng codec cfg
          (m.out (m.history s.conv.streamTokens)) s)
      ↔ 0 < cfg.nPredict ∧ s.conv.streamTokens.length < s.conv.nCtx
        ∧ s.conv.streamTokens.length + 1 < s.conv.nCtx := by
  have hseed : takeSeed eng codec cfg t (resetGrammar cfg s)
      = (⟨[], 0, 0, true, false, false⟩,
        ((((resetGrammar cfg s).pushWindow t).pushStream t).forwardRow eng t
          s.conv.currentPos).advance 1) := by
    unfold takeSeed
    rw [if_pos (show t ∈ (resetGrammar cfg s).conv.eog from heog)]
    rfl
  generalize hs₁ :
    ((((resetGrammar cfg s).pushWindow t).pushStream t).forwardRow eng t
    s.conv.currentPos).advance 1 = s₁ at hseed
  have hpos₁ : s₁.conv.currentPos = s.conv.streamTokens.length + 1 := by
    rw [← hs₁, hpos]
    rfl
  have hctx₁ : s₁.conv.nCtx = s.conv.nCtx := by
    rw [← hs₁]
    rfl
  by_cases hlimit : cfg.nPredict ≤ 0 ∨ s.conv.nCtx ≤ s.conv.streamTokens.length + 1
  · have htop : specLoop eng codec cfg (cfg.nPredict + 1) t
        ⟨[], 0, 0, true, false, false⟩ s₁ = _ :=
      specLoop_limit eng cfg.nPredict t (by rw [hpos₁, hctx₁]; exact hlimit)
    rw [spec_seed hg eng ht hseed htop]
    refine iff_of_false (fun hinv => ?_) (by omega)
    obtain ⟨-, heq, -, hhit, -⟩ := hinv.loops
    -- the plain turn stops at the limit or by the token, never by both
    by_cases hnone : cfg.nPredict = 0 ∨ s.conv.nCtx ≤ s.conv.streamTokens.length
    · rw [walk_at_once hnone] at heq
      cases heq
    · obtain ⟨N, hN⟩ : ∃ N, cfg.nPredict = N + 1 := ⟨cfg.nPredict - 1, by omega⟩
      rw [hN, Course.walk_eog (c := courseOf m codec cfg s.conv)
        (show s.conv.streamTokens.length < s.conv.nCtx by omega)
          (by rw [ht]; exact heog)] at hhit
      cases hhit
  · have htop : specLoop eng codec cfg (cfg.nPredict + 1) t
        ⟨[], 0, 0, true, false, false⟩ s₁ = _ :=
      specLoop_over eng cfg.nPredict t (Or.inl rfl)
        (by rw [hpos₁, hctx₁]; exact hlimit)
    rw [spec_seed hg eng ht hseed htop]
    refine iff_of_true ?_ (by omega)
    apply Agrees.invisible _ hstream₀ hpos₀
    obtain ⟨N, hN⟩ : ∃ N, cfg.nPredict = N + 1 := ⟨cfg.nPredict - 1, by omega⟩
    have hlt : s.conv.streamTokens.length < s.conv.nCtx := by omega
    rw [hN, Course.walk_eog (c := courseOf m codec cfg s.conv) hlt
      (by rw [ht]; exact heog), ht]
    refine ⟨rfl, ?_, ?_, ?_, ?_⟩
    · rw [← hs₁]
      rfl
    · rw [hpos₁, List.length_append]
      rfl
    · rw [← hs₁]
      show m.Holds (cacheOf (eng.forward s.engine [t] [s.conv.currentPos] 1).2).rows _
      rw [hsp.forward, ← hpos]
      show m.Holds (m.forwardGraphCached [t] [s.conv.streamTokens.length] 1
        (cacheOf s.engine)).2.rows _
      rw [forward_one hholds]
      exact hholds.write t
    · rw [← hs₁]
      show ∀ p ∈ (cacheOf
        (eng.forward s.engine [t] [s.conv.currentPos] 1).2).touched, _
      rw [hsp.forward, forward_touched, ← hpos]
      intro p hp
      refine (List.mem_append.mp hp).imp_right fun hp => ?_
      rw [List.mem_singleton.mp hp]
      exact hlt

omit hsp in
/-- A first token that completes a stop string. -/
theorem spec_stop_iff (heog : t ∉ s.conv.eog) {cut : Nat}
    (hstop : (courseOf m codec cfg s.conv).stopAt (Gen.start.take codec t)
      = some cut) :
    Invisible (courseOf m codec cfg s.conv) cacheOf (cacheOf s.engine).touched
        (finished ((courseOf m codec cfg s.conv).walk cfg.nPredict s.conv.streamTokens
          s.conv.prevTokens Gen.start).2.1 s₀)
        (generateAssistantSpec eng codec cfg
          (m.out (m.history s.conv.streamTokens)) s)
      ↔ 0 < cfg.nPredict ∧ s.conv.streamTokens.length < s.conv.nCtx
        ∧ 2 ≤ cfg.nPredict := by
  have hseed : takeSeed eng codec cfg t (resetGrammar cfg s)
      = ({ Gen.start.take codec t with
          stoppedByString := true, full := (Gen.start.take codec t).full.take cut },
        resetGrammar cfg s) := by
    unfold takeSeed
    rw [if_neg (show t ∉ (resetGrammar cfg s).conv.eog from heog)]
    dsimp only
    rw [show matchStopSuffix (Gen.start.take codec t).full cfg.stopStrings
      = some cut from hstop]
  by_cases hlimit : cfg.nPredict ≤ 1 ∨ s.conv.nCtx ≤ s.conv.currentPos
  · have htop : specLoop eng codec cfg (cfg.nPredict + 1) t
        { Gen.start.take codec t with
          stoppedByString := true, full := (Gen.start.take codec t).full.take cut }
        (resetGrammar cfg s) = _ := specLoop_limit eng cfg.nPredict t hlimit
    rw [spec_seed hg eng ht hseed htop]
    refine iff_of_false (fun hinv => ?_) (by omega)
    obtain ⟨hgen, -, -, hhit, -⟩ := hinv.loops
    by_cases hnone : cfg.nPredict = 0 ∨ s.conv.nCtx ≤ s.conv.streamTokens.length
    · rw [walk_at_once hnone] at hgen
      cases hgen
    · obtain ⟨N, hN⟩ : ∃ N, cfg.nPredict = N + 1 := ⟨cfg.nPredict - 1, by omega⟩
      rw [hN, Course.walk_stop (c := courseOf m codec cfg s.conv)
        (show s.conv.streamTokens.length < s.conv.nCtx by omega)
          (by rw [ht]; exact heog)
        (by rw [ht]; exact hstop)] at hhit
      cases hhit
  · have htop : specLoop eng codec cfg (cfg.nPredict + 1) t
        { Gen.start.take codec t with
          stoppedByString := true, full := (Gen.start.take codec t).full.take cut }
        (resetGrammar cfg s) = _ :=
          specLoop_over eng cfg.nPredict t (Or.inr rfl) hlimit
    rw [spec_seed hg eng ht hseed htop]
    refine iff_of_true ?_ (by omega)
    apply Agrees.invisible _ hstream₀ hpos₀
    obtain ⟨N, hN⟩ : ∃ N, cfg.nPredict = N + 1 := ⟨cfg.nPredict - 1, by omega⟩
    have hlt : s.conv.streamTokens.length < s.conv.nCtx := by omega
    rw [hN, Course.walk_stop (c := courseOf m codec cfg s.conv) hlt
      (by rw [ht]; exact heog)
      (by rw [ht]; exact hstop), ht]
    exact ⟨rfl, rfl, hpos.symm, hholds, fun p hp => Or.inl hp⟩

/-- An ordinary first token. -/
theorem spec_ordinary_iff (heog : t ∉ s.conv.eog)
    (hstop : (courseOf m codec cfg s.conv).stopAt (Gen.start.take codec t) = none) :
    Invisible (courseOf m codec cfg s.conv) cacheOf (cacheOf s.engine).touched
        (finished ((courseOf m codec cfg s.conv).walk cfg.nPredict s.conv.streamTokens
          s.conv.prevTokens Gen.start).2.1 s₀)
        (generateAssistantSpec eng codec cfg
          (m.out (m.history s.conv.streamTokens)) s)
      ↔ 0 < cfg.nPredict ∧ s.conv.streamTokens.length < s.conv.nCtx
        ∧ match ((courseOf m codec cfg s.conv).walk cfg.nPredict s.conv.streamTokens
            s.conv.prevTokens Gen.start).2.2 with
          | .eog | .stop => True
          | .context => False
          | .budget =>
              endsBatch eng cfg.sampler cfg.nPredict
                (cfg.nPredict - 1) s.engine t
              s.conv.streamTokens.length
                  (pushRecent s.conv.prevTokens t) s.conv.rng = true := by
  obtain ⟨emitted, hheld⟩ := holdBack_eq (courseOf m codec cfg s.conv) Gen.start t
    (((resetGrammar cfg s).pushWindow t).pushStream t)
  have hseed : takeSeed eng codec cfg t (resetGrammar cfg s)
      = ((courseOf m codec cfg s.conv).keep Gen.start t,
        { ((resetGrammar cfg s).pushWindow t).pushStream t with emitted :=
            emitted }) := by
    unfold takeSeed
    rw [if_neg (show t ∉ (resetGrammar cfg s).conv.eog from heog)]
    dsimp only
    rw [show matchStopSuffix (Gen.start.take codec t).full cfg.stopStrings
      = none from hstop]
    exact hheld
  obtain ⟨hgen, hkeog, hkstr, -⟩ :=
    (courseOf m codec cfg s.conv).keep_fields Gen.start t
  by_cases hlimit : cfg.nPredict = 0 ∨ s.conv.nCtx ≤ s.conv.streamTokens.length
  · -- the plain turn takes no token
    have htop : specLoop eng codec cfg (cfg.nPredict + 1) t
        ((courseOf m codec cfg s.conv).keep Gen.start t)
        { ((resetGrammar cfg s).pushWindow t).pushStream t with emitted :=
            emitted } = _ :=
      specLoop_limit eng cfg.nPredict t
        (hlimit.imp (fun h => by rw [h]; exact Nat.zero_le _)
        (fun h => by rw [hpos] at h; exact h))
    rw [spec_seed hg eng ht hseed htop]
    refine iff_of_false (fun hinv => ?_) (by omega)
    obtain ⟨hn, -⟩ := hinv.loops
    rw [walk_at_once hlimit] at hn
    change ((courseOf m codec cfg s.conv).keep Gen.start t).nGen = 0 at hn
    rw [hgen] at hn
    cases hn
  obtain ⟨hN0, hroom⟩ := not_or.mp hlimit
  obtain ⟨N, hN⟩ : ∃ N, cfg.nPredict = N + 1 := ⟨cfg.nPredict - 1, by omega⟩
  have hlt : s.conv.streamTokens.length < s.conv.nCtx := Nat.not_le.mp hroom
  have hwalk : (courseOf m codec cfg s.conv).walk cfg.nPredict s.conv.streamTokens
      s.conv.prevTokens Gen.start
      = (courseOf m codec cfg s.conv).walk N (s.conv.streamTokens ++ [t])
        (pushRecent s.conv.prevTokens t)
            ((courseOf m codec cfg s.conv).keep Gen.start t) := by
    rw [hN, Course.walk_ordinary (c := courseOf m codec cfg s.conv) hlt (by
      unfold Course.Ordinary
      rw [ht]
      exact ⟨heog, hstop⟩), ht]
  have hpending : Batching (courseOf m codec cfg s.conv) cacheOf
      (cacheOf s.engine).touched
      s.conv.streamTokens.length
      { ((resetGrammar cfg s).pushWindow t).pushStream t with emitted := emitted }
      (s.conv.streamTokens ++ [t]) [] := by
    refine ⟨rfl, rfl, rfl, hpos.symm, ?_, fun p hp => Or.inl hp⟩
    rw [List.append_nil, List.dropLast_concat]
    exact hholds
  obtain ⟨g', s', hloop, hout⟩ :=
    specLoop_outcome hsp (cfg.nPredict + 1) N s.conv.streamTokens t
    ((courseOf m codec cfg s.conv).keep Gen.start t) _ cfg.nPredict hpending hlt
    (by
      rw [hgen]
      show 0 + 1 + N = cfg.nPredict
      omega) (by rw [hkeog]; rfl) (by rw [hkstr]; rfl) (by omega) (by omega)
  rw [spec_seed hg eng ht hseed hloop]
  change LoopOutcome _ _ _
    ((courseOf m codec cfg s.conv).walk N (s.conv.streamTokens ++ [t])
    (pushRecent s.conv.prevTokens t) ((courseOf m codec cfg s.conv).keep Gen.start t))
    (endsBatch eng cfg.sampler cfg.nPredict N s.engine t s.conv.streamTokens.length
      (pushRecent s.conv.prevTokens t) s.conv.rng) g' s' at hout
  rw [← hwalk] at hout
  rw [show cfg.nPredict - 1 = N by omega]
  have hboth : 0 < cfg.nPredict ∧ s.conv.streamTokens.length < s.conv.nCtx :=
    ⟨by omega, hlt⟩
  cases hend : ((courseOf m codec cfg s.conv).walk cfg.nPredict s.conv.streamTokens
      s.conv.prevTokens Gen.start).2.2 with
  | eog =>
      exact iff_of_true ((hout.token (Or.inl hend)).invisible hstream₀ hpos₀)
        ⟨hboth.1, hboth.2, trivial⟩
  | stop =>
      exact iff_of_true ((hout.token (Or.inr hend)).invisible hstream₀ hpos₀)
        ⟨hboth.1, hboth.2, trivial⟩
  | budget =>
      cases haligned : endsBatch eng cfg.sampler cfg.nPredict N s.engine t
          s.conv.streamTokens.length (pushRecent s.conv.prevTokens t) s.conv.rng with
      | true =>
          exact iff_of_true ((hout.budget hend haligned).invisible hstream₀ hpos₀)
            ⟨hboth.1, hboth.2, rfl⟩
      | false =>
          refine iff_of_false (fun hinv => ?_) fun h => Bool.noConfusion h.2.2
          exact hout.cut hend haligned hinv.loops.2.2.2.2
  | context =>
      refine iff_of_false (fun hinv => ?_) fun h => h.2.2
      obtain ⟨hn, he, hs, -⟩ := hinv.loops
      obtain ⟨-, hfe, hfs⟩ := Course.walk_fills hend (Nat.le_of_lt hlt)
      rcases hout.full hend with h | h | h
      · rw [he, hfe] at h
        cases h
      · rw [hs, hfs] at h
        cases h
      · omega

end Seed

/-- A speculative turn is invisible exactly when no limit is met amiss. -/
theorem spec_turn_invisible_iff (hg : Greedy cfg.sampler)
    {eng : Engine S F M G R} {cacheOf : S → GraphCache V}
    {conv : Conversation M G R} {st : S} {cache : GraphCache V}
    (hsp : Speculates (courseOf m codec cfg conv) eng cacheOf)
    (unwritten : Lib.Rows Token V) (emitted : List UInt8)
    (hpos : conv.streamTokens.length = conv.currentPos)
    (hplain : m.Holds cache.rows conv.streamTokens)
    (hspec : m.Holds (cacheOf st).rows conv.streamTokens) :
    Invisible (courseOf m codec cfg conv) cacheOf (cacheOf st).touched
        (generateAssistantWithLogits (modelEngine m unwritten) codec cfg
          (m.out (m.history conv.streamTokens)) ⟨conv, cache, emitted⟩)
        (generateAssistantSpec eng codec cfg (m.out (m.history conv.streamTokens))
          ⟨conv, st, emitted⟩)
      ↔ NoLimitAmiss m codec cfg eng conv st := by
  obtain ⟨s₀, hrun, hstream₀, hpos₀⟩ :=
    @plain_walk _ _ _ _ _ m codec cfg hg unwritten ⟨conv, cache, emitted⟩ hpos hplain
  rw [hrun]
  unfold NoLimitAmiss
  dsimp only
  generalize ht :
    (courseOf m codec cfg conv).next conv.streamTokens conv.prevTokens = t
  by_cases heog : t ∈ conv.eog
  · rw [if_pos heog]
    exact spec_eog_iff (s := ⟨conv, st, emitted⟩) hg hsp hpos hspec ht hstream₀
      hpos₀ heog
  rw [if_neg heog]
  cases hstop : (courseOf m codec cfg conv).stopAt (Gen.start.take codec t) with
  | some cut =>
      rw [if_pos (by simp)]
      exact spec_stop_iff (s := ⟨conv, st, emitted⟩) hg hpos hspec ht hstream₀
        hpos₀ heog hstop
  | none =>
      rw [if_neg (by simp)]
      exact spec_ordinary_iff (s := ⟨conv, st, emitted⟩) hg hsp hpos hspec ht
        hstream₀ hpos₀ heog
        hstop

end Turn

-- ============================== engine

/-- `SpecAwareEngine`: the target's cache and a draft. Its rounds sample with
the engine's own parameters. -/
def specAwareEngine (target : ModelDef V F) (sparams : SamplerConfig F M G R)
    (nCtx : Nat) (time : Timing) (unwritten : Lib.Rows Token V)
    (draftUnwritten : Lib.Rows Token W) :
    Engine (GraphCache V × SpecEngine W F) F M G R where
  forward st toks positions nOut :=
    let (logits, cache) := target.forwardGraphCached toks positions nOut st.1
    (logits, (cache, st.2))
  resetCache st := ({ st.1 with rows := unwritten },
    { st.2 with draftCache := { st.2.draftCache with rows := draftUnwritten } })
  kvRm st _ _ := (.error "context shift with a speculative draft is not wired", st)
  hasSpec := true
  specRound st seed pos _ prev rng :=
    (st.2.round time target st.1 seed pos nCtx sparams prev rng).map fun out =>
      (out.emitted, out.prev, out.rng, (out.cache, out.engine))

/-- The engine's rounds continue sequentially. -/
theorem specAwareEngine_speculates {target : ModelDef V F} {codec : TokenCodec}
    {cfg : TurnParams F M G R} (hg : Greedy cfg.sampler) {nv : Nat}
    (hnv : ∀ rows, (target.out rows).length = nv) (conv : Conversation M G R)
    (time : Timing)
    (unwritten : Lib.Rows Token V) (draftUnwritten : Lib.Rows Token W) :
    Speculates (courseOf target codec cfg conv)
      (specAwareEngine target cfg.sampler conv.nCtx time unwritten
        draftUnwritten) Prod.fst := by
  refine ⟨fun st t p => rfl, fun st seed committed w rng hholds hlt => ?_⟩
  obtain ⟨out, hround, hseq⟩ :=
    @round_sequential _ _ _ _ _ _ cfg.sampler st.1 target st.2 time
    committed seed conv.nCtx nv w rng hg.off hg.free hnv hholds
  have hdepth := st.2.depth_le (conv.nCtx - (committed.length + 1))
  have hlen := hseq.length
  have hpos := List.length_pos_of_ne_nil hseq.nonempty
  have hfit : committed.length < conv.nCtx := hlt
  -- the batch is the greedy continuation of its own length
  obtain ⟨cache', hrun⟩ := hseq.tokens cfg.sampler.newMirostat
  obtain ⟨cache'', hcont⟩ :=
    hg.sequential (m := target) out.emitted.length st.1 committed seed w
    cfg.sampler.newMirostat rng hholds
  rw [hrun] at hcont
  obtain ⟨hemitted, -, hprev, hrng⟩ : out.emitted = _ ∧ _ ∧ out.prev = _
      ∧ out.rng = rng := by
    simpa only [Option.some.injEq, Prod.mk.injEq] using hcont
  refine ⟨out.emitted.length, (out.cache, out.engine), hpos, ?_, ?_, ?_, ?_⟩
  · show committed.length + out.emitted.length ≤ conv.nCtx
    omega
  · show (st.2.round time target st.1 seed committed.length conv.nCtx
      cfg.sampler w rng).map _ = _
    rw [hround]
    show some (out.emitted, out.prev, out.rng, (out.cache, out.engine))
      = some ((continuation target cfg.sampler out.emitted.length
        (committed ++ [seed]) w).1,
        (continuation target cfg.sampler out.emitted.length
          (committed ++ [seed]) w).2, rng, _)
    rw [hrng, ← hprev, ← hemitted]
  · show target.Holds out.cache.rows (committed ++ seed ::
      (continuation target cfg.sampler out.emitted.length
        (committed ++ [seed]) w).1.dropLast)
    rw [← hemitted]
    exact hseq.target
  · intro p hp
    rcases (hseq.writes hfit).1 p hp with hp | hp
    · exact Or.inl hp
    · exact Or.inr hp.2

-- =========================== instances

/-- A codec with one byte a token. -/
def byteCodec : TokenCodec := ⟨fun _ => [], fun _ => [65]⟩

/-- A turn of at most `n` greedy tokens. -/
def greedyTurn (n : Nat) : TurnParams Nat Unit Unit Unit := ⟨n, greedyOnly, []⟩

/-- A conversation whose stream is one token. -/
def oneToken : Conversation Unit Unit Unit :=
  ⟨[], [0], 1, 0, (), [0], [], 0, false, 8, (), none, 0⟩

/-- The target as its own draft, two tokens deep. -/
def sameDraft : GraphCache Unit × SpecEngine Unit Nat :=
  (⟨fun _ => (0, ()), [0]⟩,
    ⟨stepping (· + 1), ⟨fun _ => (0, ()), [0]⟩, 2, none, ⟨0, 0, 0, 0, 0⟩⟩)

def sameDraftEngine (n : Nat) : Engine
    (GraphCache Unit × SpecEngine Unit Nat) Nat Unit Unit Unit :=
  specAwareEngine (stepping (· + 1)) (greedyTurn n).sampler 8 ⟨0, 0⟩
    (fun _ => (0, ()))
    (fun _ => (0, ()))

theorem sameDraft_speculates (n : Nat) :
    Speculates (courseOf (stepping (· + 1)) byteCodec (greedyTurn n) oneToken)
      (sameDraftEngine n)
      Prod.fst :=
  specAwareEngine_speculates ⟨rfl, rfl, rfl⟩
    (show ∀ rows, ((stepping (· + 1)).out rows).length
      = 4 from fun _ => by simp [stepping])
    oneToken _ _ _

/-- A budget of four: the seed and one whole batch. -/
theorem whole_batch_invisible :
    Invisible (courseOf (stepping (· + 1)) byteCodec (greedyTurn 4) oneToken)
      Prod.fst [0]
      (generateAssistantWithLogits
        (modelEngine (stepping (· + 1)) fun _ => (0, ())) byteCodec
        (greedyTurn 4) ((stepping (· + 1)).out ((stepping (· + 1)).history [0]))
        ⟨oneToken, sameDraft.1, []⟩)
      (generateAssistantSpec (sameDraftEngine 4) byteCodec (greedyTurn 4)
        ((stepping (· + 1)).out ((stepping (· + 1)).history [0]))
          ⟨oneToken, sameDraft, []⟩) := by
  refine (@spec_turn_invisible_iff _ _ _ _ _ _ _ _ (greedyTurn 4)
    ⟨rfl, rfl, rfl⟩ _ _ oneToken
    sameDraft sameDraft.1 (sameDraft_speculates 4)
      (fun _ => (0, ())) [] rfl rfl rfl).mpr ?_
  refine ⟨by decide, by decide, ?_⟩
  rw [if_neg (by decide), if_neg (by decide)]
  have hend : ((courseOf (stepping (· + 1)) byteCodec (greedyTurn 4) oneToken).walk 4
      oneToken.streamTokens oneToken.prevTokens Gen.start).2.2 = .budget := by decide
  dsimp only [greedyTurn] at hend ⊢
  rw [hend]
  decide

/-- A budget of two cuts the batch of three after its first token: the
stream has three tokens, but the position is two. -/
theorem cut_batch_loses_position :
    (generateAssistantSpec (sameDraftEngine 2) byteCodec (greedyTurn 2)
        ((stepping (· + 1)).out ((stepping (· + 1)).history [0]))
        ⟨oneToken, sameDraft, []⟩).2.conv.streamTokens = [0, 1, 2]
      ∧ (generateAssistantSpec (sameDraftEngine 2) byteCodec (greedyTurn 2)
        ((stepping (· + 1)).out ((stepping (· + 1)).history [0]))
        ⟨oneToken, sameDraft, []⟩).2.conv.currentPos = 2
      ∧ ¬ Invisible
        (courseOf (stepping (· + 1)) byteCodec (greedyTurn 2) oneToken)
        Prod.fst [0]
        (generateAssistantWithLogits
          (modelEngine (stepping (· + 1)) fun _ => (0, ())) byteCodec
          (greedyTurn 2) ((stepping (· + 1)).out ((stepping (· + 1)).history [0]))
          ⟨oneToken, sameDraft.1, []⟩)
        (generateAssistantSpec (sameDraftEngine 2) byteCodec (greedyTurn 2)
          ((stepping (· + 1)).out ((stepping (· + 1)).history [0]))
            ⟨oneToken, sameDraft, []⟩) := by
  have hstream : (generateAssistantSpec (sameDraftEngine 2) byteCodec (greedyTurn 2)
      ((stepping (· + 1)).out ((stepping (· + 1)).history [0]))
      ⟨oneToken, sameDraft, []⟩).2.conv.streamTokens = [0, 1, 2] := by decide
  have hpos : (generateAssistantSpec (sameDraftEngine 2) byteCodec (greedyTurn 2)
      ((stepping (· + 1)).out ((stepping (· + 1)).history [0]))
      ⟨oneToken, sameDraft, []⟩).2.conv.currentPos = 2 := by decide
  refine ⟨hstream, hpos, fun h => ?_⟩
  have hmirror := h.mirror
  rw [hstream, hpos] at hmirror
  cases hmirror

end Minfer.Session
