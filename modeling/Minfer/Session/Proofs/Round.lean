/-
A speculative round emits what sequential decoding would (`spec.rs`).

The verify forward writes the pending token and every proposal after the
committed tokens, so its row `i` is the logits sequential decoding would
see if it had taken the first `i` proposals. The accept loop samples that
row only after those proposals were accepted, with the window and the
random stream sequential decoding would have: by induction over the
proposals the two runs agree token by token, and the rows past the last
accepted proposal are stale.
-/
import Minfer.Session.Spec

namespace Minfer.Session

open Minfer.Lib (Rows Causal)
open Minfer.Server (Token pushRecent)

variable {V W F M G R : Type}

-- ============================ sampling

/-- The token and the random stream after one draw without mirostat. -/
def SamplerConfig.sampleOff (cfg : SamplerConfig F M G R) (row : List F)
    (prev : List Token) (rng : R) : Token × R :=
  let drawn := cfg.draw (cfg.applyDeterministicFilters row prev) cfg.newMirostat rng
  (drawn.1, drawn.2.2)

variable {cfg : SamplerConfig F M G R} {cache : GraphCache V}
  {target : ModelDef V F}

theorem SamplerConfig.sampleWithConfig_off
    (hoff : cfg.mirostat = .off) (hfree : cfg.grammar = none) (row : List F)
    (prev : List Token) (m : M) (rng : R) :
    cfg.sampleWithConfig row prev m rng
      = some ((cfg.sampleOff row prev rng).1, m, (cfg.sampleOff row prev rng).2) := by
  rw [sampleWithConfig_free hfree]
  obtain ⟨htok, hm, hrng⟩ :=
    cfg.draw_off hoff (cfg.applyDeterministicFilters row prev) m
    cfg.newMirostat rng
  unfold sampleOff
  simp only [← htok, ← hrng]
  exact congrArg some (Prod.ext rfl (Prod.ext hm rfl))

-- ============================ forwards

/-- One token forwarded at the end of what a cache holds. -/
theorem forward_one {m : ModelDef V F} {ts : List Token}
    (h : m.Holds cache.rows ts) (t : Token) :
    m.forwardGraphCached [t] [ts.length] 1 cache
      = (m.out (m.history (ts ++ [t])),
          ⟨m.write cache.rows ts.length t, cache.touched ++ [ts.length]⟩) := by
  have hout : m.outAt (m.write cache.rows ts.length t) ts.length
      = m.out (m.history (ts ++ [t])) := (h.write t).outAt
  show ([m.outAt (m.write cache.rows ts.length t) ts.length].flatten, _) = _
  rw [hout, List.flatten_singleton]

/-- A sequence forwarded at the end of what a cache holds, with logits on
every row. -/
theorem forward_span {m : ModelDef V F}
    {ts : List Token} (h : m.Holds cache.rows ts) (us : List Token) :
    (m.forwardGraphCached us (List.range' ts.length us.length) us.length cache).1
        = (m.outsAlong ts us).flatten
      ∧ m.Holds (m.forwardGraphCached us
          (List.range' ts.length us.length) us.length cache).2.rows
          (ts ++ us) := by
  obtain ⟨hholds, houts⟩ := @Causal.feed_holds _ _ _ m us _ _ h
  refine ⟨?_, hholds⟩
  have hlen : ∀ (us ts : List Token), (m.outsAlong ts us).length = us.length := by
    intro us
    induction us with
    | nil => exact fun _ => rfl
    | cons u us ih => exact fun ts => congrArg (· + 1) (ih _)
  show ((m.feed cache.rows _).2.drop
    ((m.feed cache.rows _).2.length - us.length)).flatten = _
  rw [houts, hlen, Nat.sub_self, List.drop_zero]

theorem forward_touched (m : ModelDef V F) (us : List Token) (ps : List Nat)
    (n : Nat) (cache : GraphCache V) :
    (m.forwardGraphCached us ps n cache).2.touched = cache.touched ++ ps := rfl

-- ============================== accept

/-- One step of sequential decoding. -/
theorem sequential_succ {ts prev : List Token} {tok t : Token} {m : M}
    {rng rng₁ : R} (hholds : target.Holds cache.rows ts)
    (hdraw : cfg.sampleWithConfig (target.out (target.history (ts ++ [tok])))
      prev m rng
      = some (t, m, rng₁)) (n : Nat) :
    sequential target cfg (n + 1) cache tok ts.length prev m rng
      = (sequential target cfg n
          ⟨target.write cache.rows ts.length tok, cache.touched ++ [ts.length]⟩
            t (ts.length + 1)
          (pushRecent prev t) m rng₁).map fun out => (t :: out.1, out.2) := by
  simp only [sequential, forward_one hholds, hdraw, Option.bind_eq_bind,
    Option.bind_some]
  cases sequential target cfg n _ t (ts.length + 1) (pushRecent prev t) m rng₁ <;> rfl

/-- The accept loop is sequential decoding for as long as the proposals are
what it samples. -/
theorem acceptLoop_sequential (hoff : cfg.mirostat = .off)
    (hfree : cfg.grammar = none) {logits : List F} {nv : Nat}
    (hnv : ∀ rows, (target.out rows).length = nv) :
    ∀ (proposals : List Token) (i : Nat) (ts : List Token) (tok : Token)
      (cache : GraphCache V)
      (prev : List Token) (m m' : M) (rng : R),
    target.Holds cache.rows ts →
    logits.drop (i * nv) = (target.outsAlong ts (tok :: proposals)).flatten →
    ∃ emitted accepted prev' rng' cache',
      acceptLoop cfg logits nv proposals i prev m rng
        = some (emitted, accepted, prev', rng')
      ∧ emitted.length = accepted + 1 ∧ accepted ≤ proposals.length
      ∧ emitted.dropLast = proposals.take accepted
      ∧ sequential target cfg emitted.length cache tok ts.length prev m' rng
          = some (emitted, cache', prev', rng') := by
  intro proposals
  induction proposals with
  | nil =>
      intro i ts tok cache prev m m' rng hholds hlog
      have hrow : (logits.drop (i * nv)).take nv
          = target.out (target.history (ts ++ [tok])) := by
        rw [hlog]
        show (target.out (target.history (ts ++ [tok])) ++ []).take nv = _
        rw [List.append_nil, List.take_of_length_le (Nat.le_of_eq (hnv _))]
      generalize hsample :
        cfg.sampleOff (target.out (target.history (ts ++ [tok]))) prev rng = sampled
      obtain ⟨t, rng₁⟩ := sampled
      have hdraw : ∀ m : M,
          cfg.sampleWithConfig (target.out (target.history (ts ++ [tok]))) prev
          m rng = some (t, m, rng₁) := by
        intro m
        rw [SamplerConfig.sampleWithConfig_off hoff hfree, hsample]
      refine ⟨[t], 0, pushRecent prev t, rng₁,
        ⟨target.write cache.rows ts.length tok, cache.touched ++ [ts.length]⟩,
        ?_, rfl, Nat.le_refl 0, rfl, sequential_succ hholds (hdraw m') 0⟩
      unfold acceptLoop
      rw [hrow, hdraw]
      rfl
  | cons p rest ih =>
      intro i ts tok cache prev m m' rng hholds hlog
      have hlen := hnv (target.history (ts ++ [tok]))
      have hrow : (logits.drop (i * nv)).take nv
          = target.out (target.history (ts ++ [tok])) := by
        rw [hlog]
        show (target.out (target.history (ts ++ [tok]))
          ++ (target.outsAlong (ts ++ [tok]) (p :: rest)).flatten).take nv = _
        rw [← hlen, List.take_left]
      have hnext : logits.drop ((i + 1) * nv)
          = (target.outsAlong (ts ++ [tok]) (p :: rest)).flatten := by
        rw [Nat.succ_mul, ← List.drop_drop, hlog]
        show (target.out (target.history (ts ++ [tok]))
          ++ (target.outsAlong (ts ++ [tok]) (p :: rest)).flatten).drop nv = _
        rw [← hlen, List.drop_left]
      generalize hsample :
        cfg.sampleOff (target.out (target.history (ts ++ [tok]))) prev rng = sampled
      obtain ⟨t, rng₁⟩ := sampled
      have hdraw : ∀ m : M,
          cfg.sampleWithConfig (target.out (target.history (ts ++ [tok]))) prev
          m rng = some (t, m, rng₁) := by
        intro m
        rw [SamplerConfig.sampleWithConfig_off hoff hfree, hsample]
      by_cases htp : t = p
      · -- accepted: both runs take the proposal
        subst htp
        obtain ⟨emitted, accepted, prev', rng', cache', hloop, hlen', hle,
            hlast, hseq⟩ :=
          ih (i + 1) (ts ++ [tok]) t
            ⟨target.write cache.rows ts.length tok, cache.touched ++ [ts.length]⟩
            (pushRecent prev t) m m' rng₁ (hholds.write tok) hnext
        rw [List.length_append, List.length_singleton] at hseq
        refine ⟨t :: emitted, accepted + 1, prev', rng', cache', ?_,
          by simp [hlen'], by simp [hle],
          ?_, ?_⟩
        · unfold acceptLoop
          rw [hrow, hdraw]
          simp only [Option.bind_eq_bind, Option.bind_some, if_pos, hloop,
            Option.pure_def]
        · have hne : emitted ≠ [] := by
            rintro rfl
            simp at hlen'
          rw [List.dropLast_cons_of_ne_nil hne, hlast, List.take_succ_cons]
        · show sequential target cfg (emitted.length + 1) _ _ _ _ _ _ = _
          rw [sequential_succ hholds (hdraw m'), hseq]
          rfl
      · -- rejected: the sample ends the round
        refine ⟨[t], 0, pushRecent prev t, rng₁,
          ⟨target.write cache.rows ts.length tok,
            cache.touched ++ [ts.length]⟩, ?_, rfl,
          Nat.zero_le _, rfl, sequential_succ hholds (hdraw m') 0⟩
        unfold acceptLoop
        rw [hrow, hdraw]
        simp only [Option.bind_eq_bind, Option.bind_some, if_neg htp, Option.pure_def]

-- =============================== draft

/-- The draft phase feeds the pending token and every proposal but the
last. -/
theorem draftPhase_feed (m : ModelDef W F) (cfg : SamplerConfig F M G R) :
    ∀ (d pos : Nat) (tok : Token) (window : List Token) (cache : GraphCache W),
    (draftPhase m cfg d pos tok window cache).1.length = d
      ∧ (draftPhase m cfg d pos tok window cache).2.rows
        = (m.feed cache.rows
            (((tok :: (draftPhase m cfg d pos tok window cache).1).take d).zip
              (List.range' pos d))).1
      ∧ (draftPhase m cfg d pos tok window cache).2.touched
        = cache.touched ++ List.range' pos d := by
  intro d
  induction d with
  | zero => exact fun pos tok window cache => ⟨rfl, rfl, (List.append_nil _).symm⟩
  | succ d ih =>
      intro pos tok window cache
      simp only [draftPhase]
      obtain ⟨hlen, hrows, htouched⟩ := ih (pos + 1)
        (draftProposal cfg (m.forwardGraphCached [tok] [pos] 1 cache).1 window)
        (pushRecent window
          (draftProposal cfg (m.forwardGraphCached [tok] [pos] 1 cache).1 window))
        (m.forwardGraphCached [tok] [pos] 1 cache).2
      refine ⟨congrArg (· + 1) hlen, ?_, ?_⟩
      · rw [hrows]
        rfl
      · rw [htouched, forward_touched, List.append_assoc]
        rfl

theorem AdaptiveD.best_le (ad : AdaptiveD) {dCap : Nat} (h : 0 < dCap) :
    (ad.best dCap).1 ≤ dCap := by
  have hfold : ∀ (l : List Nat) (b : Nat × Float), b.1 ≤ dCap → (∀ c ∈ l, c ≤ dCap) →
      (l.foldl (fun best cand =>
        if ad.score ad.rate cand > best.2 then (cand, ad.score ad.rate cand)
          else best) b).1
        ≤ dCap := by
    intro l
    induction l with
    | nil => exact fun b hb _ => hb
    | cons c l ih =>
        intro b hb hl
        apply ih
        · dsimp only
          split
          · exact hl c List.mem_cons_self
          · exact hb
        · exact fun x hx => hl x (List.mem_cons_of_mem _ hx)
  apply hfold
  · exact h
  · intro c hc
    have := (List.mem_range'_1.mp hc).2
    omega

/-- The controller stays inside the horizon. -/
theorem AdaptiveD.pick_le (ad : AdaptiveD) (horizon : Nat) :
    (ad.pick horizon).1 ≤ horizon := by
  unfold pick
  dsimp only
  split
  · exact Nat.zero_le _
  · next hcap =>
    have hbest := ad.best_le (Nat.pos_of_ne_zero hcap)
    split
    · next hlast => exact Nat.le_trans hlast.2.1 (Nat.min_le_right ..)
    · exact Nat.le_trans hbest (Nat.min_le_right ..)

theorem SpecEngine.depth_le (eng : SpecEngine W F) (horizon : Nat) :
    (eng.depth horizon).1 ≤ horizon := by
  unfold depth
  split
  · exact AdaptiveD.pick_le ..
  · exact Nat.min_le_right ..

-- =========================== the round

/-- What a round from a cache that holds the committed tokens does: it emits
what sequential decoding would emit, leaves the window and the random
stream as sequential decoding would, and both caches hold everything
emitted but the last token. -/
structure SequentialRound (eng : SpecEngine W F) (target : ModelDef V F)
    (cfg : SamplerConfig F M G R) (committed : List Token)
    (cache : GraphCache V) (next : Token)
    (nCtx : Nat) (prev : List Token) (rng : R) (out : Round V W F R) : Prop where
  nonempty : out.emitted ≠ []
  /-- At most one token more than the depth. -/
  length : out.emitted.length ≤ (eng.depth (nCtx - (committed.length + 1))).1 + 1
  tokens : ∀ m, ∃ cache',
    sequential target cfg out.emitted.length cache next committed.length
    prev m rng = some (out.emitted, cache', out.prev, out.rng)
  target : target.Holds out.cache.rows (committed ++ next :: out.emitted.dropLast)
  /-- The draft's rows, and what they were computed from. -/
  draft : 0 < (eng.depth (nCtx - (committed.length + 1))).1 →
    (∀ j < out.emitted.length,
      some (out.engine.draftCache.rows (committed.length + j)).1
      = (next :: out.emitted.dropLast)[j]?)
    ∧ ∀ ts : List Token, ts.length = committed.length →
        eng.draft.Holds eng.draftCache.rows ts →
        eng.draft.Holds out.engine.draftCache.rows
          (ts ++ next :: out.emitted.dropLast)
  /-- Rows are written from the pending token's on, inside the context. -/
  writes : committed.length < nCtx →
    (∀ p ∈ out.cache.touched, p ∈ cache.touched ∨ committed.length ≤ p ∧ p < nCtx)
    ∧ ∀ p ∈ out.engine.draftCache.touched,
        p ∈ eng.draftCache.touched ∨ committed.length ≤ p ∧ p < nCtx

theorem length_flatten_outsAlong {nv : Nat}
    (hnv : ∀ rows, (target.out rows).length = nv) : ∀ (us ts : List Token),
    (target.outsAlong ts us).flatten.length = us.length * nv := by
  intro us
  induction us with
  | nil => exact fun ts => (Nat.zero_mul nv).symm
  | cons u us ih =>
      intro ts
      show (target.out (target.history (ts ++ [u]))
        ++ (target.outsAlong (ts ++ [u]) us).flatten).length = _
      rw [List.length_append, hnv, ih, List.length_cons, Nat.succ_mul, Nat.add_comm]

/-- A cache into which a span was fed holds any first part of the span. -/
theorem fed_span_holds {m : ModelDef W F} {rows rows' : Rows Token W}
    {us ws : List Token} {pos : Nat}
    (hfed : rows' = (m.feed rows (us.zip (List.range' pos us.length))).1)
    (hpre : ws <+: us) :
    (∀ j < ws.length, some (rows' (pos + j)).1 = ws[j]?)
      ∧ ∀ ts : List Token, ts.length = pos → m.Holds rows ts →
        m.Holds rows' (ts ++ ws) := by
  obtain ⟨zs, rfl⟩ := hpre
  constructor
  · intro j hj
    have hlt : j < (ws ++ zs).length := by
      rw [List.length_append]
      omega
    rw [hfed, Causal.feed_input hlt, List.getElem?_append_left hj]
  · rintro ts rfl hts
    have hall : m.Holds rows' (ts ++ (ws ++ zs)) := by
      rw [hfed]
      exact (Causal.feed_holds hts).1
    rw [← List.append_assoc] at hall
    exact hall.of_append

/-- The repair forward completes the span of a fully accepted round. -/
theorem repair_feed {m : ModelDef W F} {rows : Rows Token W} {proposals : List Token}
    {next : Token} {pos d : Nat} (hlen : proposals.length = d + 1) :
    m.write (m.feed rows
        (((next :: proposals).take (d + 1)).zip (List.range' pos (d + 1)))).1
        (pos + (d + 1)) (proposals.getD d 0)
      = (m.feed rows ((next :: proposals).zip (List.range' pos (d + 1 + 1)))).1 := by
  have hsplit : next :: proposals = (next :: proposals).take (d + 1)
      ++ [proposals.getD d 0] := by
    have hlast : proposals.getD d 0 = (next :: proposals).getD (d + 1) 0 := rfl
    have hfull : (next :: proposals).take (d + 1 + 1) = next :: proposals :=
      List.take_of_length_le (by simp [hlen])
    rw [hlast, List.getD_eq_getElem?_getD, List.getElem?_eq_getElem (by simp [hlen]),
      Option.getD_some, ← List.take_succ_eq_append_getElem, hfull]
  have hzip : (next :: proposals).zip (List.range' pos (d + 1 + 1))
      = ((next :: proposals).take (d + 1)).zip (List.range' pos (d + 1))
        ++ [(proposals.getD d 0, pos + (d + 1))] := by
    rw [List.range'_1_concat]
    conv_lhs => rw [hsplit]
    rw [List.zip_append (by simp [hlen])]
    rfl
  rw [hzip, Causal.feed_append]
  rfl

/-- What the draft was fed in a round, with the repair forward or without. -/
theorem repair_fed {m : ModelDef W F} {start draftCache : GraphCache W}
    {proposals emitted : List Token} {next : Token} {pos d accepted : Nat}
    (hzero : d ≠ 0) (hplen : proposals.length = d)
    (hrows : draftCache.rows = (m.feed start.rows
      (((next :: proposals).take d).zip (List.range' pos d))).1)
    (htouched : draftCache.touched = start.touched ++ List.range' pos d)
    (hlen : emitted.length = accepted + 1) (hle : accepted ≤ proposals.length)
    (hlast : emitted.dropLast = proposals.take accepted) :
    ∃ us : List Token, (next :: emitted.dropLast) <+: us
      ∧ us.length ≤ d + 1
      ∧ (if emitted.length = d + 1 then
          ((m.forwardGraphCached [proposals.getD (d - 1) 0] [pos + d] 1
            draftCache).2, 1) else (draftCache, 0)).1.rows
        = (m.feed start.rows (us.zip (List.range' pos us.length))).1
      ∧ (if emitted.length = d + 1 then
          ((m.forwardGraphCached [proposals.getD (d - 1) 0] [pos + d] 1
            draftCache).2, 1) else (draftCache, 0)).1.touched
        = start.touched ++ List.range' pos us.length := by
  obtain ⟨k, rfl⟩ : ∃ k, d = k + 1 := ⟨d - 1, by omega⟩
  by_cases hfull : emitted.length = k + 1 + 1
  · refine ⟨next :: proposals, ?_, by simp [hplen], ?_, ?_⟩
    · rw [hlast]
      exact (List.prefix_cons_inj next).mpr (List.take_prefix ..)
    · rw [if_pos hfull, List.length_cons, hplen]
      show m.write draftCache.rows (pos + (k + 1)) _ = _
      rw [hrows]
      exact repair_feed hplen
    · rw [if_pos hfull, forward_touched, htouched, List.length_cons, hplen,
        List.append_assoc, ← List.range'_1_concat]
  · have htake : ((next :: proposals).take (k + 1)).length = k + 1 := by
      simp [hplen]
    refine ⟨(next :: proposals).take (k + 1), ?_, by omega, ?_, ?_⟩
    · rw [hlast, List.take_succ_cons]
      exact (List.prefix_cons_inj next).mpr
        (List.take_prefix_take_left (by omega))
    · rw [if_neg hfull, htake]
      exact hrows
    · rw [if_neg hfull, htake]
      exact htouched

/-- At the context's edge a round is one plain step. -/
theorem round_edge {eng : SpecEngine W F} (time : Timing)
    {committed : List Token} (next : Token) (nCtx : Nat) (prev : List Token)
    (rng : R) (hoff : cfg.mirostat = .off) (hfree : cfg.grammar = none)
    (hholds : target.Holds cache.rows committed)
    (hzero : (eng.depth (nCtx - (committed.length + 1))).1 = 0) :
    ∃ out, eng.round time target cache next committed.length nCtx cfg prev rng
      = some out
      ∧ SequentialRound eng target cfg committed cache next nCtx prev rng out := by
  unfold SpecEngine.round
  generalize hd : eng.depth (nCtx - (committed.length + 1)) = depth at hzero
  obtain ⟨d, adaptive⟩ := depth
  simp only at hzero
  subst hzero
  generalize hsample :
    cfg.sampleOff (target.out (target.history (committed ++ [next]))) prev
      rng = sampled
  obtain ⟨t, rng₁⟩ := sampled
  have hdraw : ∀ m : M,
      cfg.sampleWithConfig
      (target.out (target.history (committed ++ [next])))
      prev m rng = some (t, m, rng₁) := by
    intro m
    rw [SamplerConfig.sampleWithConfig_off hoff hfree, hsample]
  simp only [if_pos, forward_one hholds, hdraw, Option.bind_eq_bind,
    Option.bind_some, Option.pure_def]
  refine ⟨_, rfl,
    ⟨List.cons_ne_nil _ _, ?_, fun m =>
      ⟨_, sequential_succ hholds (hdraw m) 0⟩,
    hholds.write next, ?_, ?_⟩⟩
  · rw [hd]
    exact Nat.le_refl 1
  · rw [hd]
    exact fun h => absurd h (Nat.lt_irrefl 0)
  · intro hpos
    refine ⟨fun p hp => ?_, fun p hp => Or.inl hp⟩
    rcases List.mem_append.mp hp with hp | hp
    · exact Or.inl hp
    · rw [List.mem_singleton.mp hp]
      exact Or.inr ⟨Nat.le_refl _, hpos⟩

/-- A round returns and is sequential, whatever the draft proposes. -/
theorem round_sequential {eng : SpecEngine W F} (time : Timing)
    {committed : List Token} (next : Token) (nCtx nv : Nat) (prev : List Token)
    (rng : R) (hoff : cfg.mirostat = .off) (hfree : cfg.grammar = none)
    (hnv : ∀ rows, (target.out rows).length = nv)
    (hholds : target.Holds cache.rows committed) :
    ∃ out, eng.round time target cache next committed.length nCtx cfg prev rng
      = some out
      ∧ SequentialRound eng target cfg committed cache next nCtx prev rng out := by
  by_cases hzero : (eng.depth (nCtx - (committed.length + 1))).1 = 0
  · exact round_edge time next nCtx prev rng hoff hfree hholds hzero
  have hdepth := eng.depth_le (nCtx - (committed.length + 1))
  unfold SpecEngine.round
  generalize hd : eng.depth (nCtx - (committed.length + 1)) = depth
    at hdepth hzero
  obtain ⟨d, adaptive⟩ := depth
  simp only at hdepth hzero
  simp only [if_neg hzero]
  obtain ⟨hplen, hdrows, hdtouched⟩ :=
    draftPhase_feed eng.draft cfg d committed.length next prev eng.draftCache
  generalize hdraft :
    draftPhase eng.draft cfg d committed.length next prev eng.draftCache
    = drafted at hplen hdrows hdtouched
  obtain ⟨proposals, draftCache⟩ := drafted
  simp only at hplen hdrows hdtouched
  -- the verify forward
  obtain ⟨hlogits, hverified⟩ := forward_span hholds (next :: proposals)
  rw [List.length_cons, hplen] at hlogits hverified
  generalize hforward : target.forwardGraphCached (next :: proposals)
    (List.range' committed.length (d + 1)) (d + 1) cache
      = verified at hlogits hverified
  obtain ⟨logits, cache'⟩ := verified
  simp only at hlogits hverified
  have hrow : logits.length / (proposals.length + 1) = nv := by
    rw [hlogits, length_flatten_outsAlong hnv, List.length_cons,
      Nat.mul_div_cancel_left _ (Nat.succ_pos _)]
  have hstart : logits.drop (0 * nv)
      = (target.outsAlong committed (next :: proposals)).flatten := by
    rw [Nat.zero_mul, List.drop_zero, hlogits]
  obtain ⟨emitted, accepted, prev', rng', scache, hloop, hlen, hle, hlast, -⟩ :=
    acceptLoop_sequential hoff hfree hnv proposals 0 committed next cache
      prev cfg.newMirostat
      cfg.newMirostat rng hholds hstart
  simp only [hrow, hloop, Option.bind_eq_bind, Option.bind_some,
    Option.pure_def]
  have hne : emitted ≠ [] := by
    rintro rfl
    simp at hlen
  obtain ⟨us, hpre, huslen, husrows, hustouched⟩ :=
    repair_fed hzero hplen hdrows hdtouched hlen hle hlast
  refine ⟨_, rfl, ⟨hne, ?_, ?_, ?_, ?_, ?_⟩⟩
  · rw [hd]
    show emitted.length ≤ d + 1
    omega
  · intro m
    obtain ⟨emitted₂, accepted₂, prev₂, rng₂, scache₂, hloop₂, -, -, -, hseq⟩ :=
      acceptLoop_sequential hoff hfree hnv proposals 0 committed next cache prev
        cfg.newMirostat m rng hholds hstart
    rw [hloop] at hloop₂
    cases hloop₂
    exact ⟨scache₂, hseq⟩
  · show target.Holds cache'.rows (committed ++ next :: emitted.dropLast)
    rw [hlast]
    obtain ⟨zs, hzs⟩ := List.take_prefix accepted proposals
    rw [← hzs, ← List.cons_append, ← List.append_assoc] at hverified
    exact hverified.of_append
  · intro _
    have hcount : (next :: emitted.dropLast).length = emitted.length := by
      rw [List.length_cons, List.length_dropLast]
      omega
    have hspan := fed_span_holds husrows hpre
    rw [hcount] at hspan
    exact hspan
  · intro hpos
    have hinside : ∀ n ≤ d + 1, ∀ p ∈ List.range' committed.length n,
        committed.length ≤ p ∧ p < nCtx := by
      intro n hn p hp
      have := List.mem_range'_1.mp hp
      omega
    constructor
    · intro p hp
      have htouched : cache'.touched
          = cache.touched ++ List.range' committed.length (d + 1) := by
        rw [← forward_touched target (next :: proposals) _ (d + 1) cache,
          hforward]
      change p ∈ cache'.touched at hp
      rw [htouched] at hp
      exact (List.mem_append.mp hp).imp_right (hinside _ (Nat.le_refl _) p)
    · intro p hp
      rw [hustouched] at hp
      exact (List.mem_append.mp hp).imp_right (hinside _ huslen p)

/-- Greedy sampling over small natural numbers. -/
def greedyOnly : SamplerConfig Nat Unit Unit Unit where
  applyDeterministicFilters row _ := row
  greedy := true
  applyStochasticFilters row rng := (row, rng)
  sampleTemperature _ rng := (0, rng)
  mirostat := .off
  sampleMirostatV1 _ m rng := (0, m, rng)
  sampleMirostatV2 _ m rng := (0, m, rng)
  newMirostat := ()
  grammar := none
  gt v w := decide (w < v)
  negInfinity := 0

/-- A model over four tokens whose next token is a function of the last one. -/
def stepping (next : Token → Token) : ModelDef Unit Nat where
  value _ _ := ()
  out rows := (List.range 4).map fun t =>
    if some t = rows.getLast?.map (next ·.1) then 1 else 0

/-- A draft that counts like the target but stays at 1. -/
def stuckDraft : SpecEngine Unit Nat :=
  ⟨stepping fun t => if t = 1 then 1 else t + 1, ⟨fun _ => (0, ()), []⟩, 2,
    none, ⟨0, 0, 0, 0, 0⟩⟩

/-- The first proposal is accepted and the second is not. -/
theorem stuck_draft_round : ∃ out,
    stuckDraft.round ⟨0, 0⟩ (stepping (· + 1))
      ⟨fun _ => (0, ()), []⟩ 0 0 8 greedyOnly [] ()
      = some out ∧ out.emitted = [1, 2]
    ∧ SequentialRound stuckDraft (stepping (· + 1)) greedyOnly []
        ⟨fun _ => (0, ()), []⟩ 0 8 [] ()
        out := by
  obtain ⟨out, hround, hseq⟩ :=
    @round_sequential _ _ _ _ _ _ greedyOnly ⟨fun _ => (0, ()), []⟩
    (stepping (· + 1)) stuckDraft ⟨0, 0⟩ [] 0 8 4 [] () rfl rfl
    (fun _ => by simp [stepping]) (Causal.Holds.nil _)
  refine ⟨out, hround, ?_, hseq⟩
  have hemitted :
      (stuckDraft.round ⟨0, 0⟩ (stepping (· + 1)) ⟨fun _ => (0, ()), []⟩ 0 0 8
      greedyOnly [] ()).map (·.emitted) = some [1, 2] := by decide
  rw [show stuckDraft.round ⟨0, 0⟩ (stepping (· + 1)) ⟨fun _ => (0, ()), []⟩ 0 0 8
      greedyOnly [] () = some out from hround] at hemitted
  exact Option.some.inj hemitted

end Minfer.Session
