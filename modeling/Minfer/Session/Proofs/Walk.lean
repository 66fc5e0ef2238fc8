/-
The plain decode loop as a walk along the greedy continuation
(`conversation.rs`).

With a causal model, greedy sampling and no grammar the next token is a
function of the stream and the penalty window. The walk takes these
tokens one by one until the budget, the context, an end-of-generation
token or a stop string ends it.
-/
import Minfer.Session.Conversation
import Minfer.Session.Proofs.Round

namespace Minfer.Session

open Minfer.Lib (Causal)
open Minfer.Server (Token pushRecent matchStopSuffix)

variable {S V W F M G R : Type}

-- ======================== continuation

/-- The greedy token after a stream. -/
def nextToken (m : ModelDef V F) (cfg : SamplerConfig F M G R)
    (ts w : List Token) : Token :=
  cfg.sampleGreedy (cfg.applyDeterministicFilters (m.out (m.history ts)) w)

/-- The next `n` tokens, and the window after them. -/
def continuation (m : ModelDef V F) (cfg : SamplerConfig F M G R) :
    Nat → List Token → List Token → List Token × List Token
  | 0, _, w => ([], w)
  | n + 1, ts, w =>
      let t := nextToken m cfg ts w
      let (rest, w) := continuation m cfg n (ts ++ [t]) (pushRecent w t)
      (t :: rest, w)

theorem length_continuation (m : ModelDef V F) (cfg : SamplerConfig F M G R) :
    ∀ (n : Nat) (ts w : List Token), (continuation m cfg n ts w).1.length = n
  | 0, _, _ => rfl
  | n + 1, _, _ => congrArg (· + 1) (length_continuation m cfg n _ _)

/-- Sampling is greedy and unconstrained. -/
structure Greedy (cfg : SamplerConfig F M G R) : Prop where
  greedy : cfg.greedy = true
  off : cfg.mirostat = .off
  free : cfg.grammar = none

theorem Greedy.sample {cfg : SamplerConfig F M G R} (h : Greedy cfg)
    (row : List F) (w : List Token) (st : SamplerState M G R) :
    cfg.sampleWithConfigGrammar row w st
      = (.ok (cfg.sampleGreedy (cfg.applyDeterministicFilters row w)), st) := by
  rw [SamplerConfig.sampleWithConfigGrammar_free h.free,
    SamplerConfig.draw_greedy h.greedy]

/-- Sequential decoding yields the continuation and leaves the random stream
alone. -/
theorem Greedy.sequential {m : ModelDef V F} {cfg : SamplerConfig F M G R}
    (h : Greedy cfg) :
    ∀ (n : Nat) (cache : GraphCache V) (ts : List Token) (next : Token)
      (w : List Token) (mu : M)
      (rng : R), m.Holds cache.rows ts →
    ∃ cache', Session.sequential m cfg n cache next ts.length w mu rng
      = some ((continuation m cfg n (ts ++ [next]) w).1, cache',
          (continuation m cfg n (ts ++ [next]) w).2, rng) := by
  intro n
  induction n with
  | zero => exact fun cache ts next w mu rng _ => ⟨cache, rfl⟩
  | succ n ih =>
      intro cache ts next w mu rng hholds
      have hdraw : cfg.sampleWithConfig (m.out (m.history (ts ++ [next]))) w mu rng
          = some (nextToken m cfg (ts ++ [next]) w, mu, rng) := by
        unfold SamplerConfig.sampleWithConfig
        rw [h.sample]
        rfl
      obtain ⟨cache', hrest⟩ := ih
        ⟨m.write cache.rows ts.length next, cache.touched ++ [ts.length]⟩
          (ts ++ [next])
        (nextToken m cfg (ts ++ [next]) w)
          (pushRecent w (nextToken m cfg (ts ++ [next]) w)) mu rng
        (hholds.write next)
      rw [List.length_append, List.length_singleton] at hrest
      refine ⟨cache', ?_⟩
      rw [sequential_succ hholds hdraw, hrest]
      rfl

-- ================================ walk

/-- How a walk ends. -/
inductive Ending where
  | budget
  | context
  | eog
  | stop
deriving Repr, DecidableEq

/-- What a walk reads: the model, the turn's parameters, the codec, the
end-of-generation set and the context size. -/
structure Course (V F M G R : Type) where
  model : ModelDef V F
  cfg : TurnParams F M G R
  codec : TokenCodec
  eog : List Token
  nCtx : Nat

namespace Course

variable (c : Course V F M G R)

/-- The token after a stream. -/
def next (ts w : List Token) : Token := nextToken c.model c.cfg.sampler ts w

/-- Where a stop string ends the text. -/
def stopAt (g : Gen) : Option Nat := matchStopSuffix g.full c.cfg.stopStrings

/-- An ordinary token's text, after the hold-back. -/
def keep (g : Gen) (t : Token) : Gen :=
  let g := g.take c.codec t
  if g.complete > g.emitted then { g with emitted := g.complete } else g

/-- The walk, with the budget left: stream, text and ending. -/
def walk : Nat → List Token → List Token → Gen → List Token × Gen × Ending
  | 0, ts, _, g => (ts, { g with hitNPredict := true }, .budget)
  | b + 1, ts, w, g =>
      if ts.length ≥ c.nCtx then (ts, { g with hitNPredict := true }, .context)
      else if c.next ts w ∈ c.eog
        then (ts ++ [c.next ts w], { g with stoppedByEog := true }, .eog)
      else
        match c.stopAt (g.take c.codec (c.next ts w)) with
        | some cut =>
            (ts, { g.take c.codec (c.next ts w) with
              stoppedByString := true, full :=
                (g.take c.codec (c.next ts w)).full.take cut }, .stop)
        | none =>
            walk b (ts ++ [c.next ts w]) (pushRecent w (c.next ts w))
              (c.keep g (c.next ts w))

/-- A token that does not end the turn. -/
def Ordinary (ts w : List Token) (g : Gen) : Prop :=
  c.next ts w ∉ c.eog ∧ c.stopAt (g.take c.codec (c.next ts w)) = none

instance (ts w : List Token) (g : Gen) : Decidable (c.Ordinary ts w g) :=
  inferInstanceAs (Decidable (_ ∧ _))

variable {c}
variable {b : Nat} {g : Gen} {ts w : List Token}

theorem walk_context (h : c.nCtx ≤ ts.length) :
    c.walk (b + 1) ts w g = (ts, { g with hitNPredict := true }, .context) := by
  rw [walk, if_pos h]

theorem walk_eog (h : ts.length < c.nCtx) (ht : c.next ts w ∈ c.eog) :
    c.walk (b + 1) ts w g
      = (ts ++ [c.next ts w], { g with stoppedByEog := true }, .eog) := by
  rw [walk, if_neg (Nat.not_le.mpr h), if_pos ht]

theorem walk_stop {cut : Nat}
    (h : ts.length < c.nCtx) (ht : c.next ts w ∉ c.eog)
    (hcut : c.stopAt (g.take c.codec (c.next ts w)) = some cut) :
    c.walk (b + 1) ts w g = (ts, { g.take c.codec (c.next ts w) with
      stoppedByString := true, full :=
  (g.take c.codec (c.next ts w)).full.take cut }, .stop) := by
  rw [walk, if_neg (Nat.not_le.mpr h), if_neg ht, hcut]

theorem walk_ordinary (h : ts.length < c.nCtx) (hord : c.Ordinary ts w g) :
    c.walk (b + 1) ts w g
      = c.walk b (ts ++ [c.next ts w]) (pushRecent w (c.next ts w))
        (c.keep g (c.next ts w)) := by
  rw [walk, if_neg (Nat.not_le.mpr h), if_neg hord.1, hord.2]

theorem keep_fields (g : Gen) (t : Token) : (c.keep g t).nGen = g.nGen + 1
    ∧ (c.keep g t).stoppedByEog = g.stoppedByEog
    ∧ (c.keep g t).stoppedByString = g.stoppedByString
    ∧ (c.keep g t).hitNPredict = g.hitNPredict := by
  unfold keep
  dsimp only
  split <;> exact ⟨rfl, rfl, rfl, rfl⟩

/-- A walk that fills the context has generated a token for every free
position, and nothing ended it before. -/
theorem walk_fills : ∀ {b : Nat} {ts w : List Token} {g : Gen},
    (c.walk b ts w g).2.2 = .context → ts.length ≤ c.nCtx →
    (c.walk b ts w g).2.1.nGen = g.nGen + (c.nCtx - ts.length)
      ∧ (c.walk b ts w g).2.1.stoppedByEog = g.stoppedByEog
      ∧ (c.walk b ts w g).2.1.stoppedByString = g.stoppedByString
  | 0, ts, w, g, h, _ => by cases h
  | b + 1, ts, w, g, h, hle => by
      by_cases hfull : c.nCtx ≤ ts.length
      · rw [walk_context hfull]
        exact ⟨by show g.nGen = _; omega, rfl, rfl⟩
      have hlt : ts.length < c.nCtx := Nat.not_le.mp hfull
      by_cases heog : c.next ts w ∈ c.eog
      · rw [walk_eog hlt heog] at h
        cases h
      cases hstop : c.stopAt (g.take c.codec (c.next ts w)) with
      | some cut =>
          rw [walk_stop hlt heog hstop] at h
          cases h
      | none =>
          rw [walk_ordinary hlt ⟨heog, hstop⟩] at h ⊢
          obtain ⟨hn, he, hs⟩ := walk_fills h (by simp; omega)
          obtain ⟨hk, hke, hks, -⟩ := c.keep_fields g (c.next ts w)
          rw [hn, he, hs, hk, hke, hks]
          refine ⟨?_, rfl, rfl⟩
          rw [List.length_append, List.length_singleton]
          omega

end Course

-- ========================== plain turn

/-- The engine of a model: forwards on its cache; a reset leaves the rows of
an unwritten one. -/
def modelEngine (m : ModelDef V F) (unwritten : Lib.Rows Token V) :
    Engine (GraphCache V) F M G R where
  forward cache toks positions nOut := m.forwardGraphCached toks positions nOut cache
  resetCache cache := { cache with rows := unwritten }
  kvRm cache _ _ := (.error "this engine has no KV rows to remove", cache)
  hasSpec := false
  specRound _ _ _ _ _ _ := none

/-- A conversation on a course: its stream, and a cache that holds a first
part of it. -/
structure OnCourse (c : Course V F M G R) (conv : Conversation M G R)
    (cache : GraphCache V) (stream held : List Token) : Prop where
  stream : conv.streamTokens = stream
  eog : conv.eog = c.eog
  nCtx : conv.nCtx = c.nCtx
  holds : c.model.Holds cache.rows held

theorem holdBack_eq (c : Course V F M G R) (g : Gen) (t : Token) (s : World S M G R) :
    ∃ emitted, holdBack (g.take c.codec t) s
      = (c.keep g t, { s with emitted := emitted }) := by
  unfold holdBack Course.keep
  dsimp only
  split
  · exact ⟨_, rfl⟩
  · exact ⟨s.emitted, rfl⟩

/-- The plain loop walks. -/
theorem decodeLoop_walk {c : Course V F M G R} (hg : Greedy c.cfg.sampler)
    (unwritten : Lib.Rows Token V) :
    ∀ (b : Nat) (ts : List Token) (g : Gen) (s : World (GraphCache V) M G R),
    OnCourse c s.conv s.engine ts ts → s.conv.currentPos = ts.length →
    ∃ s', decodeLoop (modelEngine c.model unwritten) c.codec c.cfg b
        (c.model.out (c.model.history ts)) g s
        = (.ok (c.walk b ts s.conv.prevTokens g).2.1, s')
      ∧ s'.conv.streamTokens = (c.walk b ts s.conv.prevTokens g).1
      ∧ s'.conv.currentPos = (c.walk b ts s.conv.prevTokens g).1.length := by
  intro b
  induction b with
  | zero => exact fun ts g s hon hpos => ⟨s, rfl, hon.stream, hpos⟩
  | succ b ih =>
      intro ts g s hon hpos
      unfold decodeLoop
      by_cases hfull : c.nCtx ≤ ts.length
      · rw [if_pos (by rw [hon.nCtx, hpos]; exact hfull), Course.walk_context hfull]
        exact ⟨s, rfl, hon.stream, hpos⟩
      have hlt : ts.length < c.nCtx := Nat.not_le.mp hfull
      rw [if_neg (by rw [hon.nCtx, hpos]; exact hfull), hg.sample]
      generalize hnext : c.next ts s.conv.prevTokens = t
      rw [show c.cfg.sampler.sampleGreedy (c.cfg.sampler.applyDeterministicFilters
        (c.model.out (c.model.history ts)) s.conv.prevTokens) = t from hnext]
      dsimp only
      by_cases heog : t ∈ c.eog
      · rw [if_pos (by rw [← hon.eog] at heog; exact heog),
          Course.walk_eog hlt (by rw [hnext]; exact heog), hnext]
        refine ⟨_, rfl, ?_, ?_⟩
        · show s.conv.streamTokens ++ [t] = ts ++ [t]
          rw [hon.stream]
        · show s.conv.currentPos + 1 = (ts ++ [t]).length
          rw [hpos, List.length_append]
          rfl
      rw [if_neg (by rw [← hon.eog] at heog; exact heog)]
      cases hstop : c.stopAt (g.take c.codec t) with
      | some cut =>
          rw [Course.walk_stop hlt (by rw [hnext]; exact heog)
            (by rw [hnext]; exact hstop), hnext]
          rw [show matchStopSuffix (g.take c.codec t).full c.cfg.stopStrings
            = some cut from hstop]
          exact ⟨_, rfl, hon.stream, hpos⟩
      | none =>
          rw [Course.walk_ordinary hlt (by
            unfold Course.Ordinary
            rw [hnext]
            exact ⟨heog, hstop⟩), hnext]
          rw [show matchStopSuffix (g.take c.codec t).full c.cfg.stopStrings
            = none from hstop]
          obtain ⟨emitted, hheld⟩ := holdBack_eq c g t
            (((s.setSampler s.samplerState).pushWindow t).pushStream t)
          have hforward :
              (modelEngine c.model unwritten :
                Engine (GraphCache V) F M G R).forward
              (((s.setSampler s.samplerState).pushWindow t).pushStream t).engine [t]
              [(((s.setSampler s.samplerState).pushWindow t).pushStream
                t).conv.currentPos] 1
              = (c.model.out (c.model.history (ts ++ [t])),
                ⟨c.model.write s.engine.rows ts.length t,
                    s.engine.touched ++ [ts.length]⟩) := by
            show c.model.forwardGraphCached [t] [s.conv.currentPos] 1 s.engine = _
            rw [hpos]
            exact forward_one hon.holds t
          simp only [hheld, hforward]
          refine ih (ts ++ [t]) (c.keep g t) _
            ⟨?_, hon.eog, hon.nCtx, hon.holds.write t⟩ ?_
          · show s.conv.streamTokens ++ [t] = _
            rw [hon.stream]
          · show s.conv.currentPos + 1 = _
            rw [hpos, List.length_append]
            rfl

end Minfer.Session
