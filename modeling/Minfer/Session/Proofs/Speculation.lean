/-
Speculation in a conversation turn (`conversation.rs`).

A round's batch is the greedy continuation, so the batch loop walks the
same tokens as the plain loop. What differs is the bookkeeping at the
ends: the seed is taken before any limit is looked at, the loop top looks
at the limits before it looks at what ended the turn, the context limit is
looked at one token late, and a batch cut by the budget loses a position.
-/
import Minfer.Session.Proofs.Walk

namespace Minfer.Session

open Minfer.Lib (Causal)
open Minfer.Server (Token pushRecent matchStopSuffix)

variable {S V W F M G R : Type}

-- ============================== rounds

/-- An engine whose rounds continue sequentially: a round from a cache that
holds the committed tokens emits some of the greedy continuation, as much
as the context has room for, and its rows are in the cache up to the last
one. -/
structure Speculates (c : Course V F M G R) (eng : Engine S F M G R)
    (cacheOf : S → GraphCache V) : Prop where
  forward : ∀ st t p, cacheOf (eng.forward st [t] [p] 1).2
    = (c.model.forwardGraphCached [t] [p] 1 (cacheOf st)).2
  round : ∀ st seed committed w rng, c.model.Holds (cacheOf st).rows committed →
    committed.length < c.nCtx →
    ∃ n st', 0 < n ∧ committed.length + n ≤ c.nCtx
      ∧ eng.specRound st seed committed.length c.cfg.sampler w rng
        = some ((continuation c.model c.cfg.sampler n (committed ++ [seed]) w).1,
            (continuation c.model c.cfg.sampler n (committed ++ [seed]) w).2,
              rng, st')
      ∧ c.model.Holds (cacheOf st').rows
          (committed ++ seed
            :: (continuation c.model c.cfg.sampler n
              (committed ++ [seed]) w).1.dropLast)
      ∧ ∀ p ∈ (cacheOf st').touched, p ∈ (cacheOf st).touched ∨ p < c.nCtx

/-- Whether a budget runs out at the end of a batch. -/
def endsBatch (eng : Engine S F M G R) (cfg : SamplerConfig F M G R) :
    Nat → Nat → S → Token → Nat → List Token → R → Bool
  | _, 0, _, _, _, _, _ => true
  | 0, _ + 1, _, _, _, _, _ => false
  | fuel + 1, b + 1, st, seed, pos, w, rng =>
      match eng.specRound st seed pos cfg w rng with
      | none => false
      | some (toks, w, rng, st) =>
          decide (toks.length ≤ b + 1)
            && endsBatch eng cfg fuel (b + 1 - toks.length) st (toks.getLastD 0)
              (pos + toks.length) w rng

/-- A session whose stream is in the cache, with nothing written outside the
context. -/
structure Settled (c : Course V F M G R) (cacheOf : S → GraphCache V)
    (touched : List Nat) (s : World S M G R) (ts : List Token) : Prop where
  stream : s.conv.streamTokens = ts
  pos : s.conv.currentPos = ts.length
  holds : c.model.Holds (cacheOf s.engine).rows ts
  inside : ∀ p ∈ (cacheOf s.engine).touched, p ∈ touched ∨ p < c.nCtx

/-- A session inside a batch from position `p0`: the stream, and what is left
of the batch, whose rows are written up to the last one. -/
structure Batching (c : Course V F M G R) (cacheOf : S → GraphCache V)
    (touched : List Nat)
    (p0 : Nat) (s : World S M G R) (ts rest : List Token) : Prop where
  stream : s.conv.streamTokens = ts
  eog : s.conv.eog = c.eog
  nCtx : s.conv.nCtx = c.nCtx
  pos : s.conv.currentPos = p0
  holds : c.model.Holds (cacheOf s.engine).rows (ts ++ rest).dropLast
  inside : ∀ p ∈ (cacheOf s.engine).touched, p ∈ touched ∨ p < c.nCtx

/-- How a batch ends, against the walk. -/
inductive Consumed (c : Course V F M G R) (cacheOf : S → GraphCache V)
    (touched : List Nat)
    (p0 total b : Nat) (ts w rest : List Token) (g : Gen) :
    Gen × World S M G R × Nat × BreakKind → Prop
  /-- The walk ends inside the batch, by a token. -/
  | ended {s : World S M G R} {i : Nat} {kind : BreakKind}
      (hkind : kind = .eog ∨ kind = .stop)
      (hend : (c.walk b ts w g).2.2 = .eog ∨ (c.walk b ts w g).2.2 = .stop)
      (settled : Settled c cacheOf touched s (c.walk b ts w g).1) :
      Consumed c cacheOf touched p0 total b ts w rest g
        ((c.walk b ts w g).2.1, s, i, kind)
  /-- The budget runs out before the batch does. -/
  | cap {g' : Gen} {s : World S M G R} {i : Nat}
      (hend : (c.walk b ts w g).2.2 = .budget)
      (hlt : b < rest.length) (hi : s.conv.streamTokens.length = p0 + 1 + i)
      (pos : s.conv.currentPos = p0) :
      Consumed c cacheOf touched p0 total b ts w rest g (g', s, i, .cap)
  /-- The batch was ordinary, and the walk goes on after it. -/
  | full {g' : Gen} {s : World S M G R} {i : Nat} (hle : rest.length ≤ b)
      (hctx : ts.length + rest.length ≤ c.nCtx)
      (hwalk : c.walk b ts w g = c.walk (b - rest.length) (ts ++ rest)
        (continuation c.model c.cfg.sampler rest.length ts w).2 g')
      (hgen : g'.nGen = g.nGen + rest.length)
      (hflags : g'.stoppedByEog = g.stoppedByEog
        ∧ g'.stoppedByString = g.stoppedByString)
      (batching : Batching c cacheOf touched p0 s (ts ++ rest) []) :
      Consumed c cacheOf touched p0 total b ts w rest g (g', s, i, .none)
  /-- The context is full, and the batch has one token more that ends the
  turn. -/
  | spilled {g' : Gen} {s : World S M G R} {i : Nat} {kind : BreakKind}
      (hkind : kind = .eog ∨ kind = .stop) (hend : (c.walk b ts w g).2.2 = .context)
      (hflag : g'.stoppedByEog = true ∨ g'.stoppedByString = true) :
      Consumed c cacheOf touched p0 total b ts w rest g (g', s, i, kind)
  /-- The context is full, and the batch has one ordinary token more. -/
  | beyond {g' : Gen} {s : World S M G R} {i : Nat}
      (hend : (c.walk b ts w g).2.2 = .context)
      (hgen : (c.walk b ts w g).2.1.nGen < g'.nGen) (pos : s.conv.currentPos = p0)
      (hnCtx : s.conv.nCtx = c.nCtx) (hlen : p0 + total = c.nCtx) :
      Consumed c cacheOf touched p0 total b ts w rest g (g', s, i, .none)

variable {c : Course V F M G R} {cacheOf : S → GraphCache V} {p0 total : Nat}
  {rest ts : List Token} {s : World S M G R} {touched : List Nat}
  {eng : Engine S F M G R}

theorem Consumed.of_walk {b i : Nat} {te w : List Token}
    {g g' : Gen} {ending : Ending} {kind : BreakKind}
    (hwalk : c.walk b ts w g = (te, g', ending))
    (hend : ending = .eog ∨ ending = .stop) (hkind : kind = .eog ∨ kind = .stop)
    (settled : Settled c cacheOf touched s te) :
    Consumed c cacheOf touched p0 total b ts w rest g (g', s, i, kind) := by
  have hte : (c.walk b ts w g).1 = te := by rw [hwalk]
  have hg : (c.walk b ts w g).2.1 = g' := by rw [hwalk]
  have he : (c.walk b ts w g).2.2 = ending := by rw [hwalk]
  rw [← hg]
  exact .ended hkind (by rw [he]; exact hend) (by rw [hte]; exact settled)

/-- An ordinary token before the rest of a batch. -/
theorem Consumed.step {b : Nat} {w : List Token} {g : Gen}
    {out : Gen × World S M G R × Nat × BreakKind} (hlt : ts.length < c.nCtx)
    (hord : c.Ordinary ts w g)
    (h : Consumed c cacheOf touched p0 total b (ts ++ [c.next ts w])
      (pushRecent w (c.next ts w))
      rest (c.keep g (c.next ts w)) out) :
    Consumed c cacheOf touched p0 total (b + 1) ts w (c.next ts w :: rest) g out := by
  have hwalk := Course.walk_ordinary (b := b) hlt hord
  obtain ⟨hgen, heog, hstr, -⟩ := c.keep_fields g (c.next ts w)
  cases h with
  | ended hkind hend settled =>
      rw [← hwalk] at hend settled ⊢
      exact .ended hkind hend settled
  | cap hend hlen hi pos =>
      rw [← hwalk] at hend
      exact .cap hend (Nat.succ_lt_succ hlen) hi pos
  | full hle hctx hrest hgen' hflags batching =>
      rw [← hwalk] at hrest
      rw [List.length_append, List.length_singleton] at hctx
      refine .full (Nat.succ_le_succ hle)
        (by rw [List.length_cons]; omega) ?_ ?_ ?_ ?_
      · rw [hrest, List.append_assoc, List.length_cons, Nat.add_sub_add_right]
        rfl
      · rw [hgen', hgen, List.length_cons]
        omega
      · rw [hflags.1, hflags.2, heog, hstr]
        exact ⟨rfl, rfl⟩
      · rw [List.append_assoc] at batching
        exact batching
  | spilled hkind hend hflag =>
      rw [← hwalk] at hend
      exact .spilled hkind hend hflag
  | beyond hend hgen' pos hnCtx hlen =>
      rw [← hwalk] at hend hgen'
      exact .beyond hend hgen' pos hnCtx hlen

/-- The rows of a batch hold the stream while the batch has a token left. -/
theorem Batching.holds_stream {tok : Token}
    (h : Batching c cacheOf touched p0 s ts (tok :: rest)) :
    c.model.Holds (cacheOf s.engine).rows ts := by
  have hholds := h.holds
  rw [List.dropLast_append_of_ne_nil (List.cons_ne_nil _ _)] at hholds
  exact hholds.of_append

/-- An end-of-generation token inside a batch: its row was written by the
round, or is written now if it is the last one. -/
theorem Batching.settle_eog {i : Nat} {tok : Token}
    (h : Batching c cacheOf touched p0 s ts (tok :: rest))
    (hsp : Speculates c eng cacheOf) (hlt : ts.length < c.nCtx)
    (hpos : s.conv.currentPos + 1 + i = ts.length)
    (htotal : i + (rest.length + 1) = total) :
    Settled c cacheOf touched ((if i + 1 = total then
      (s.pushStream tok).forwardRow eng tok
        ((s.pushStream tok).conv.currentPos + 1 + i)
      else s.pushStream tok).advance (1 + i + 1)) (ts ++ [tok]) := by
  have hlen : (ts ++ [tok]).length = s.conv.currentPos + (1 + i + 1) := by
    rw [List.length_append, List.length_singleton]
    omega
  split
  · refine ⟨congrArg (· ++ [tok]) h.stream, hlen.symm, ?_, ?_⟩
    · show c.model.Holds
        (cacheOf (eng.forward s.engine [tok]
          [s.conv.currentPos + 1 + i] 1).2).rows _
      rw [hsp.forward, hpos, forward_one h.holds_stream]
      exact h.holds_stream.write tok
    · show ∀ p ∈ (cacheOf
        (eng.forward s.engine [tok] [s.conv.currentPos + 1 + i] 1).2).touched,
        _
      rw [hsp.forward, hpos, forward_touched]
      intro p hp
      rcases List.mem_append.mp hp with hp | hp
      · exact h.inside p hp
      · rw [List.mem_singleton.mp hp]
        exact Or.inr hlt
  · next hmore =>
    refine ⟨congrArg (· ++ [tok]) h.stream, hlen.symm, ?_, h.inside⟩
    have hne : rest ≠ [] := by
      rintro rfl
      exact hmore (by simpa using htotal)
    have hholds := h.holds
    rw [List.dropLast_append_of_ne_nil (List.cons_ne_nil _ _),
      List.dropLast_cons_of_ne_nil hne,
      ← List.singleton_append, ← List.append_assoc] at hholds
    exact hholds.of_append

/-- The batch loop follows the walk. -/
theorem consumeBatch_consumed (hsp : Speculates c eng cacheOf) :
    ∀ (rest ts w : List Token) (g : Gen) (s : World S M G R)
    (i b : Nat),
    rest = (continuation c.model c.cfg.sampler rest.length ts w).1 →
    Batching c cacheOf touched p0 s ts rest → ts.length = p0 + 1 + i →
      i + rest.length = total →
    p0 + total ≤ c.nCtx → ts.length ≤ c.nCtx → g.nGen + b = c.cfg.nPredict →
    Consumed c cacheOf touched p0 total b ts w rest g
      (consumeBatch eng c.codec c.cfg total rest i g s) := by
  intro rest
  induction rest with
  | nil =>
      intro ts w g s i b _ hb hlen htotal hfit hroom hbudget
      refine .full (Nat.zero_le b) hroom ?_ rfl ⟨rfl, rfl⟩ ?_
      · rw [List.append_nil]
        rfl
      · rw [List.append_nil]
        exact hb
  | cons tok rest ih =>
      intro ts w g s i b hcont hb hlen htotal hfit hroom hbudget
      obtain ⟨htok, hrest⟩ := List.cons_eq_cons.mp hcont
      change tok = c.next ts w at htok
      rw [List.length_cons] at htotal
      unfold consumeBatch
      cases b with
      | zero =>
          rw [if_pos (by omega)]
          exact .cap rfl (Nat.succ_pos _) (by rw [hb.stream, hlen]) hb.pos
      | succ b =>
      rw [if_neg (by omega)]
      have hpos : s.conv.currentPos + 1 + i = ts.length := by rw [hb.pos, hlen]
      by_cases heog : tok ∈ c.eog
      · rw [if_pos (by rw [hb.eog]; exact heog)]
        by_cases hlt : ts.length < c.nCtx
        · have hwalk : c.walk (b + 1) ts w g
              = (ts ++ [tok], { g with stoppedByEog := true }, .eog) := by
            rw [Course.walk_eog hlt (by rw [← htok]; exact heog), ← htok]
          exact .of_walk hwalk (Or.inl rfl) (Or.inl rfl)
            (hb.settle_eog hsp hlt hpos htotal)
        · exact .spilled (Or.inl rfl)
            (by rw [Course.walk_context (Nat.not_lt.mp hlt)])
            (Or.inl rfl)
      rw [if_neg (by rw [hb.eog]; exact heog)]
      dsimp only
      cases hstop : c.stopAt (g.take c.codec tok) with
      | some cut =>
          rw [show matchStopSuffix (g.take c.codec tok).full c.cfg.stopStrings
            = some cut from hstop]
          by_cases hlt : ts.length < c.nCtx
          · have hwalk : c.walk (b + 1) ts w g = (ts, { g.take c.codec tok with
                stoppedByString := true, full :=
                    (g.take c.codec tok).full.take cut }, .stop) := by
              rw [Course.walk_stop hlt (by rw [← htok]; exact heog)
                (by rw [← htok]; exact hstop),
                ← htok]
            refine .of_walk hwalk (Or.inr rfl) (Or.inr rfl)
              ⟨hb.stream, ?_, hb.holds_stream, hb.inside⟩
            show s.conv.currentPos + (1 + i) = ts.length
            omega
          · exact .spilled (Or.inr rfl)
              (by rw [Course.walk_context (Nat.not_lt.mp hlt)])
              (Or.inr rfl)
      | none =>
          rw [show matchStopSuffix (g.take c.codec tok).full c.cfg.stopStrings
            = none from hstop]
          obtain ⟨emitted, hheld⟩ := holdBack_eq c g tok (s.pushStream tok)
          simp only [hheld]
          obtain ⟨hgen, -, -, -⟩ := c.keep_fields g tok
          by_cases hlt : ts.length < c.nCtx
          · have hord : c.Ordinary ts w g := by
              unfold Course.Ordinary
              rw [← htok]
              exact ⟨heog, hstop⟩
            have hnext : Batching c cacheOf touched p0
                { s.pushStream tok with emitted := emitted } (ts ++ [tok]) rest := by
              refine ⟨congrArg (· ++ [tok]) hb.stream, hb.eog, hb.nCtx, hb.pos,
                ?_, hb.inside⟩
              rw [List.append_assoc]
              exact hb.holds
            have hrec := ih (ts ++ [tok]) (pushRecent w tok) (c.keep g tok)
              { s.pushStream tok with emitted := emitted } (i + 1) b
                (by rw [htok]; exact hrest)
              hnext
              (by rw [List.length_append, List.length_singleton, hlen]; omega)
              (by omega)
              hfit (by rw [List.length_append, List.length_singleton]; omega)
                (by omega)
            rw [htok] at hrec ⊢
            exact hrec.step hlt hord
          · -- the last token of a batch that reaches the end of the context
            have hrest : rest = [] := List.eq_nil_of_length_eq_zero (by omega)
            subst hrest
            have hwalk :=
              Course.walk_context (b := b) (w := w) (g := g)
              (Nat.not_lt.mp hlt)
            refine .beyond (by rw [hwalk]) ?_ hb.pos hb.nCtx
              (by simp at htotal; omega)
            rw [hwalk, hgen]
            exact Nat.lt_succ_self _

/-- A batch that is consumed whole leaves the engine, the window and the
random stream as the round left them. -/
theorem consumeBatch_none {codec : TokenCodec}
    {cfg : TurnParams F M G R} : ∀ {rest : List Token} {i j : Nat} {g g' : Gen}
    {s s' : World S M G R},
    consumeBatch eng codec cfg total rest i g s = (g', s', j, .none) →
    s'.engine = s.engine ∧ s'.conv.prevTokens = s.conv.prevTokens
      ∧ s'.conv.rng = s.conv.rng := by
  intro rest
  induction rest with
  | nil =>
      intro i j g g' s s' h
      cases h
      exact ⟨rfl, rfl, rfl⟩
  | cons tok rest ih =>
      intro i j g g' s s' h
      unfold consumeBatch at h
      split at h
      · cases h
      split at h
      · cases h
      dsimp only at h
      split at h
      · cases h
      · have hkeep := ih h
        unfold holdBack at hkeep
        split at hkeep
        · exact hkeep
        · exact hkeep

-- ================================ loop

/-- A turn's end agrees with a walk's. -/
def Agrees (c : Course V F M G R) (cacheOf : S → GraphCache V) (touched : List Nat)
    (e : List Token × Gen × Ending) (g : Gen) (s : World S M G R) : Prop :=
  g = e.2.1 ∧ Settled c cacheOf touched s e.1

/-- How the round loop ends, against the walk: it agrees when a token ends
the turn or the budget runs out with a batch; it loses a position when the
budget cuts a batch, and has taken a token too many when the context is
full. -/
structure LoopOutcome (c : Course V F M G R) (cacheOf : S → GraphCache V)
    (touched : List Nat) (e : List Token × Gen × Ending) (aligned : Bool)
    (g : Gen) (s : World S M G R) : Prop where
  token : e.2.2 = .eog ∨ e.2.2 = .stop → Agrees c cacheOf touched e g s
  budget : e.2.2 = .budget → aligned = true → Agrees c cacheOf touched e g s
  cut : e.2.2 = .budget → aligned = false →
    s.conv.streamTokens.length ≠ s.conv.currentPos
  full : e.2.2 = .context →
    g.stoppedByEog = true ∨ g.stoppedByString = true ∨ e.2.1.nGen < g.nGen

/-- The row of the pending token completes the stream. -/
theorem Batching.flush (hsp : Speculates c eng cacheOf)
    {committed : List Token} {seed : Token}
    (h : Batching c cacheOf touched committed.length s
      (committed ++ [seed]) []) (hlt : committed.length < c.nCtx) (g : Gen) :
    Settled c cacheOf touched (flushSeed eng seed g s).2 (committed ++ [seed]) := by
  have hholds := h.holds
  rw [List.append_nil, List.dropLast_concat] at hholds
  refine ⟨h.stream, ?_, ?_, ?_⟩
  · show s.conv.currentPos + 1 = _
    rw [h.pos, List.length_append]
    rfl
  · show c.model.Holds
      (cacheOf (eng.forward s.engine [seed] [s.conv.currentPos] 1).2).rows _
    rw [hsp.forward, h.pos, forward_one hholds]
    exact hholds.write seed
  · show ∀ p ∈ (cacheOf
      (eng.forward s.engine [seed] [s.conv.currentPos] 1).2).touched, _
    rw [hsp.forward, h.pos, forward_touched]
    intro p hp
    rcases List.mem_append.mp hp with hp | hp
    · exact h.inside p hp
    · rw [List.mem_singleton.mp hp]
      exact Or.inr hlt

section

variable {e : List Token × Gen × Ending} {g : Gen} {aligned : Bool}

theorem LoopOutcome.of_token (hend : e.2.2 = .eog ∨ e.2.2 = .stop)
    (h : Agrees c cacheOf touched e g s) :
    LoopOutcome c cacheOf touched e aligned g s := by
  refine ⟨fun _ => h, fun hother => ?_, fun hother => ?_, fun hother => ?_⟩
  all_goals
    rw [hother] at hend
    rcases hend with hend | hend <;> cases hend

theorem LoopOutcome.of_budget (hend : e.2.2 = .budget)
    (h : aligned = true → Agrees c cacheOf touched e g s)
    (hcut : aligned = false →
      s.conv.streamTokens.length ≠ s.conv.currentPos) :
    LoopOutcome c cacheOf touched e aligned g s := by
  refine ⟨fun hother => ?_, fun _ => h, fun _ => hcut, fun hother => ?_⟩
  · rw [hend] at hother
    rcases hother with hother | hother <;> cases hother
  · rw [hend] at hother
    cases hother

theorem LoopOutcome.of_full (hend : e.2.2 = .context)
    (h : g.stoppedByEog = true ∨ g.stoppedByString = true
      ∨ e.2.1.nGen < g.nGen) :
    LoopOutcome c cacheOf touched e aligned g s := by
  refine ⟨fun hother => ?_, fun hother => ?_, fun hother => ?_, fun _ => h⟩
  · rw [hend] at hother
    rcases hother with hother | hother <;> cases hother
  all_goals
    rw [hend] at hother
    cases hother

end

section

variable {committed toks : List Token} {seed : Token}

/-- The batch, from the state a round leaves. -/
theorem Batching.enter
    (h : Batching c cacheOf touched committed.length s
      (committed ++ [seed]) []) (hne : toks ≠ []) {st' : S}
    (hrows : c.model.Holds (cacheOf st').rows
      (committed ++ seed :: toks.dropLast))
    (hinside : ∀ p ∈ (cacheOf st').touched,
      p ∈ (cacheOf s.engine).touched ∨ p < c.nCtx) (w : List Token) (rng : R) :
    Batching c cacheOf touched committed.length
      { s with engine := st'
               conv := { s.conv with prevTokens := w, rng := rng } }
      (committed ++ [seed]) toks := by
  refine ⟨h.stream, h.eog, h.nCtx, h.pos, ?_, fun p hp => ?_⟩
  · rw [List.dropLast_append_of_ne_nil hne, List.append_assoc]
    exact hrows
  · rcases hinside p hp with hp | hp
    · exact h.inside p hp
    · exact Or.inr hp

theorem length_committed (hne : toks ≠ []) :
    (committed ++ [seed] ++ toks.dropLast).length
      = committed.length + toks.length := by
  have hpos := List.length_pos_of_ne_nil hne
  rw [List.length_append, List.length_append, List.length_dropLast,
    List.length_singleton]
  omega

theorem committed_getLast (hne : toks ≠ []) :
    committed ++ [seed] ++ toks.dropLast ++ [toks.getLast hne]
      = committed ++ [seed] ++ toks := by
  rw [List.append_assoc (committed ++ [seed]),
    List.dropLast_append_getLast hne]

/-- A batch that was consumed whole leaves its last token pending. -/
theorem Batching.leave
    (h : Batching c cacheOf touched committed.length s
      (committed ++ [seed] ++ toks) []) (hne : toks ≠ []) :
    Batching c cacheOf touched (committed ++ [seed] ++ toks.dropLast).length
      (s.advance toks.length)
      (committed ++ [seed] ++ toks.dropLast ++ [toks.getLast hne]) [] := by
  rw [committed_getLast hne, length_committed hne]
  refine ⟨h.stream, h.eog, h.nCtx, ?_, h.holds, h.inside⟩
  show s.conv.currentPos + toks.length = _
  rw [h.pos]

end

/-- With the context full the loop writes the pending row and ends. -/
theorem specLoop_full {codec : TokenCodec} {cfg : TurnParams F M G R}
    (fuel : Nat) (seed : Token) (g : Gen)
    (hfull : s.conv.nCtx ≤ s.conv.currentPos) :
    specLoop eng codec cfg (fuel + 1) seed g s
      = (.ok (flushSeed eng seed g s).1, (flushSeed eng seed g s).2) := by
  unfold specLoop
  by_cases hcap : g.nGen ≥ cfg.nPredict
  · rw [if_pos hcap]
  · rw [if_neg hcap, if_pos hfull]

/-- The round loop follows the walk: each round is a batch of it, and the
loop ends with the batch that ends the walk. -/
theorem specLoop_outcome (hsp : Speculates c eng cacheOf) :
    ∀ (fuel b : Nat) (committed : List Token) (seed : Token) (g : Gen)
      (s : World S M G R)
      (rounds : Nat),
    Batching c cacheOf touched committed.length s (committed ++ [seed]) [] →
    committed.length < c.nCtx → g.nGen + b = c.cfg.nPredict → g.stoppedByEog = false →
    g.stoppedByString = false → b < fuel → b ≤ rounds →
    ∃ g' s', specLoop eng c.codec c.cfg fuel seed g s = (.ok g', s')
      ∧ LoopOutcome c cacheOf touched
          (c.walk b (committed ++ [seed]) s.conv.prevTokens g)
          (endsBatch eng c.cfg.sampler rounds b s.engine seed committed.length
            s.conv.prevTokens
            s.conv.rng) g' s' := by
  intro fuel
  induction fuel with
  | zero => exact fun b _ _ _ _ _ _ _ _ _ _ hfuel => absurd hfuel (Nat.not_lt_zero b)
  | succ fuel ih =>
      intro b committed seed g s rounds hb hlt hbudget heog hstr hfuel hrounds
      unfold specLoop
      cases b with
      | zero =>
          rw [if_pos (by omega)]
          refine ⟨_, _, rfl, .of_budget rfl
            (fun _ => ⟨rfl, hb.flush hsp hlt g⟩) fun hfalse => ?_⟩
          unfold endsBatch at hfalse
          cases hfalse
      | succ b =>
      obtain ⟨rounds, rfl⟩ : ∃ r, rounds = r + 1 := ⟨rounds - 1, by omega⟩
      have hholds := hb.holds
      rw [List.append_nil, List.dropLast_concat] at hholds
      obtain ⟨n, st', hn, hfit, hround, hrows, hinside⟩ :=
        hsp.round s.engine seed committed s.conv.prevTokens s.conv.rng hholds hlt
      have hlen :=
        length_continuation c.model c.cfg.sampler n
        (committed ++ [seed]) s.conv.prevTokens
      generalize htoks : (continuation c.model c.cfg.sampler n (committed ++ [seed])
        s.conv.prevTokens).1 = toks at hround hrows hlen
      generalize hw : (continuation c.model c.cfg.sampler n (committed ++ [seed])
        s.conv.prevTokens).2 = w' at hround
      rw [if_neg (by omega), if_neg (by rw [hb.pos, hb.nCtx]; omega),
        if_neg (by simp [heog, hstr]),
        hb.pos, hround]
      have hne : toks ≠ [] := by
        rintro rfl
        rw [List.length_nil] at hlen
        omega
      have hconsumed :=
        @consumeBatch_consumed _ _ _ _ _ _ _ _ committed.length toks.length
        touched _ hsp toks (committed ++ [seed]) s.conv.prevTokens g _ 0 (b + 1)
        (by rw [hlen, htoks]) (hb.enter hne hrows hinside w' s.conv.rng)
          (by simp) (by omega) (by omega) (by simp; omega) hbudget
      have hends : endsBatch eng c.cfg.sampler (rounds + 1)
          (b + 1) s.engine seed committed.length
          s.conv.prevTokens s.conv.rng
          = (decide (toks.length ≤ b + 1) && endsBatch eng c.cfg.sampler rounds
              (b + 1 - toks.length) st' (toks.getLastD 0)
                (committed.length + toks.length) w'
              s.conv.rng) := by
        rw [endsBatch, hround]
      rw [hends]
      dsimp only
      generalize hrun : consumeBatch eng c.codec c.cfg toks.length toks 0 g
        { s with engine := st', conv :=
          { s.conv with prevTokens := w', rng := s.conv.rng } }
        = out at hconsumed
      cases hconsumed with
      | ended hkind hend settled =>
          rcases hkind with rfl | rfl <;>
          exact ⟨_, _, rfl, .of_token hend ⟨rfl, settled⟩⟩
      | @cap g₁ s₁ i₁ hend hcut hi pos =>
          rw [decide_eq_false (Nat.not_le.mpr hcut), Bool.false_and]
          refine ⟨_, _, rfl, .of_budget hend
            (fun haligned => absurd haligned Bool.false_ne_true) fun _ => ?_⟩
          show s₁.conv.streamTokens.length ≠ s₁.conv.currentPos + i₁
          omega
      | @full g₁ s₁ i₁ hle hctx hwalk hgen hflags batching =>
          obtain ⟨hengine, hprev, hrng⟩ := consumeBatch_none hrun
          rw [hlen, hw, ← hlen] at hwalk
          obtain ⟨g', s', hloop, hout⟩ :=
            ih (b + 1 - toks.length) _ _ g₁ _ rounds (batching.leave hne)
            (by rw [length_committed hne]; simp at hctx; omega)
            (by rw [hgen]; omega) (by rw [hflags.1, heog])
            (by rw [hflags.2, hstr]) (by omega) (by omega)
          rw [List.getLast?_eq_getLast_of_ne_nil hne]
          refine ⟨g', s', hloop, ?_⟩
          rw [decide_eq_true hle, Bool.true_and, hwalk]
          have hlastD : toks.getLastD 0 = toks.getLast hne := by
            rw [List.getLastD_eq_getLast?,
              List.getLast?_eq_getLast_of_ne_nil hne, Option.getD_some]
          rw [hlastD]
          rw [length_committed hne, committed_getLast hne] at hout
          rw [show (s₁.advance toks.length).conv.prevTokens = w' from hprev,
            show (s₁.advance toks.length).conv.rng = s.conv.rng from hrng,
            show (s₁.advance toks.length).engine = st' from hengine] at hout
          exact hout
      | spilled hkind hend hflag =>
          rcases hkind with rfl | rfl <;>
          exact ⟨_, _, rfl, .of_full hend (hflag.imp_right Or.inl)⟩
      | @beyond g₁ s₁ i₁ hend hgen pos hnCtx hspan =>
          rw [List.getLast?_eq_getLast_of_ne_nil hne]
          obtain ⟨fuel, rfl⟩ : ∃ k, fuel = k + 1 := ⟨fuel - 1, by omega⟩
          have hfull : (s₁.advance toks.length).conv.nCtx
              ≤ (s₁.advance toks.length).conv.currentPos := by
            show s₁.conv.nCtx ≤ s₁.conv.currentPos + toks.length
            rw [pos, hnCtx]
            omega
          exact ⟨_, _, specLoop_full fuel _ g₁ hfull,
            .of_full hend (.inr (.inr hgen))⟩

end Minfer.Session
