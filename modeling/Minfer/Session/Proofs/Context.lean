/-
The positions a conversation forwards (`conversation.rs`, every call of the
session on a plain engine).

A plan to append, or to append after a shift, was measured against the
context (`Plan.Ready`); a plan to feed the whole render from scratch was not
(`Plan.Fits`). A call from inside the context stays there when its plan fits,
and forwards past it when its plan does not.
-/
import Mathlib.Data.List.Induction
import Minfer.Session.Proofs.Planned

namespace Minfer.Session

open Minfer.Lib
open Minfer.Lib.Attempt (Ends)
open Minfer.Server (Token)

variable {S F M G R α β : Type}

-- ============================= the log

/-- An engine that records every position it is asked to forward. -/
def Engine.logged (eng : Engine S F M G R) : Engine (S × List Nat) F M G R where
  forward st toks positions nOut :=
    ((eng.forward st.1 toks positions nOut).1,
      (eng.forward st.1 toks positions nOut).2, st.2 ++ positions)
  resetCache st := (eng.resetCache st.1, st.2)
  kvRm st start len :=
    ((eng.kvRm st.1 start len).1, (eng.kvRm st.1 start len).2, st.2)
  hasSpec := eng.hasSpec
  specRound st seed pos cfg window rng :=
    (eng.specRound st.1 seed pos cfg window rng).map fun (toks, window, rng,
      e) => (toks, window, rng, e, st.2)

/-- The mirror is inside the context, and so is everything forwarded. -/
structure Below (n : Nat) (s : World (S × List Nat) M G R) : Prop where
  nCtx : s.conv.nCtx = n
  pos : s.conv.currentPos = s.conv.streamTokens.length
  room : s.conv.currentPos ≤ n
  log : ∀ p ∈ s.engine.2, p < n

/-- A session between two calls. -/
structure Inside (n : Nat) (s : World (S × List Nat) M G R) :
    Prop extends Below n s where
  turn : s.conv.turnPos ≤ s.conv.currentPos

section Log

variable {n : Nat} {s s' : World (S × List Nat) M G R}

/-- It depends on the position, the stream and the log. -/
theorem Below.congr (h : Below n s) (hctx : s'.conv.nCtx = s.conv.nCtx)
    (hpos : s'.conv.currentPos = s.conv.currentPos)
    (hstream : s'.conv.streamTokens = s.conv.streamTokens)
    (hlog : s'.engine.2 = s.engine.2) : Below n s' := by
  refine ⟨hctx.trans h.nCtx, ?_, ?_, ?_⟩
  · rw [hpos, hstream]
    exact h.pos
  · rw [hpos]
    exact h.room
  · rw [hlog]
    exact h.log

/-- It depends on the positions, the stream and the log. -/
theorem Inside.congr (h : Inside n s) (hctx : s'.conv.nCtx = s.conv.nCtx)
    (hpos : s'.conv.currentPos = s.conv.currentPos)
    (hturn : s'.conv.turnPos = s.conv.turnPos)
    (hstream : s'.conv.streamTokens = s.conv.streamTokens)
    (hlog : s'.engine.2 = s.engine.2) : Inside n s' := by
  refine ⟨h.toBelow.congr hctx hpos hstream hlog, ?_⟩
  rw [hturn, hpos]
  exact h.turn

variable {toks : List Token}

/-- Tokens forwarded at the end of the stream. -/
theorem Below.forward (h : Below n s)
    (hroom : s.conv.currentPos + toks.length ≤ n)
    (hctx : s'.conv.nCtx = s.conv.nCtx)
    (hpos : s'.conv.currentPos = s.conv.currentPos + toks.length)
    (hstream : s'.conv.streamTokens = s.conv.streamTokens ++ toks)
    (hlog : s'.engine.2
      = s.engine.2 ++ List.range' s.conv.currentPos toks.length) :
    Below n s' := by
  refine ⟨hctx.trans h.nCtx, ?_, ?_, ?_⟩
  · rw [hpos, hstream, List.length_append, h.pos]
  · rw [hpos]
    exact hroom
  · intro p hp
    rw [hlog, List.mem_append, List.mem_range'_1] at hp
    rcases hp with hp | hp
    · exact h.log p hp
    · omega

/-- What the steps of a reply do: the log grows, and a session inside the
context stays there. -/
structure Grew (n : Nat) (s s' : World (S × List Nat) M G R) : Prop where
  log : ∀ p ∈ s.engine.2, p ∈ s'.engine.2
  inside : Inside n s → Inside n s'

/-- One growth after another. -/
theorem Grew.trans {s'' : World (S × List Nat) M G R} (h : Grew n s s')
    (h' : Grew n s' s'') : Grew n s s'' :=
  ⟨fun p hp => h'.log p (h.log p hp), fun hin => h'.inside (h.inside hin)⟩

theorem Grew.congr (hctx : s'.conv.nCtx = s.conv.nCtx)
    (hpos : s'.conv.currentPos = s.conv.currentPos)
    (hturn : s'.conv.turnPos = s.conv.turnPos)
    (hstream : s'.conv.streamTokens = s.conv.streamTokens)
    (hlog : s'.engine.2 = s.engine.2) : Grew n s s' := by
  refine ⟨?_, fun h => h.congr hctx hpos hturn hstream hlog⟩
  rw [hlog]
  exact fun _ hp => hp

/-- A token sampled while there is room. -/
theorem Grew.token {t : Token} (hroom : s.conv.currentPos < s.conv.nCtx)
    (hctx : s'.conv.nCtx = s.conv.nCtx)
    (hpos : s'.conv.currentPos = s.conv.currentPos + 1)
    (hturn : s'.conv.turnPos = s.conv.turnPos)
    (hstream : s'.conv.streamTokens = s.conv.streamTokens ++ [t])
    (hlog : s'.engine.2 = s.engine.2 ++ [s.conv.currentPos]) : Grew n s s' := by
  refine ⟨?_, fun h => ⟨?_, ?_⟩⟩
  · rw [hlog]
    exact fun _ hp => List.mem_append_left _ hp
  · have hfits : s.conv.currentPos + [t].length ≤ n := by
      rw [← h.nCtx]
      exact hroom
    exact h.toBelow.forward hfits hctx hpos hstream hlog
  · have hle := h.turn
    omega

variable {env : Setup (S × List Nat) F M G R} {eng : Engine S F M G R}

/-- The decode loop stays inside the context. -/
theorem decodeLoop_grew (codec : TokenCodec) (cfg : TurnParams F M G R)
    (budget : Nat) (logits : List F) (g : Gen)
    (s : World (S × List Nat) M G R) : Grew n s
    (decodeLoop eng.logged codec cfg budget logits g s).2 := by
  induction budget generalizing logits g s with
  | zero => exact .congr rfl rfl rfl rfl rfl
  | succ budget ih =>
      rw [decodeLoop]
      split
      · exact .congr rfl rfl rfl rfl rfl
      next hroom =>
        have hlt : s.conv.currentPos < s.conv.nCtx := Nat.lt_of_not_le hroom
        split
        · exact .congr rfl rfl rfl rfl rfl
        next t st _ =>
          dsimp only
          split
          · exact .token hlt rfl rfl rfl rfl rfl
          · split
            · exact .congr rfl rfl rfl rfl rfl
            · refine Grew.trans (.token (t := t) hlt ?_ ?_ ?_ ?_ ?_) (ih _ _ _)
              all_goals
                rw [holdBack]
                split
                · rfl
                · rfl

/-- So does the end of a turn. -/
theorem finishTurn_grew (g : Gen) (s : World (S × List Nat) M G R) :
    Grew n s (finishTurn g s).2 := by
  unfold finishTurn
  by_cases hrest : g.emitted < g.full.length
  · rw [if_pos hrest]
    exact .congr rfl rfl rfl rfl rfl
  · rw [if_neg hrest]
    exact .congr rfl rfl rfl rfl rfl

/-- So does a plain generation. -/
theorem generate_grew (hplain : eng.hasSpec = false) (codec : TokenCodec)
    (cfg : TurnParams F M G R)
    (logits : List F) (s : World (S × List Nat) M G R) :
    Grew n s (generateAssistantWithLogits eng.logged codec cfg logits s).2 := by
  have hspec : eng.logged.hasSpec = false := hplain
  rw [generateAssistantWithLogits,
    if_neg (by rw [hspec]; exact Bool.false_ne_true), generateAssistantPlain]
  have hgrew :=
    @decodeLoop_grew S F M G R n eng codec cfg cfg.nPredict logits Gen.start
    (resetGrammar cfg s)
  have hstart : Grew n s (resetGrammar cfg s) := .congr rfl rfl rfl rfl rfl
  split
  next e s₁ hloop =>
    rw [hloop] at hgrew
    exact hstart.trans hgrew
  next g s₁ hloop =>
    rw [hloop] at hgrew
    exact (hstart.trans hgrew).trans (finishTurn_grew g s₁)

/-- So does a reply. -/
theorem reply_grew (henv : env.engine = eng.logged)
    (hplain : eng.hasSpec = false) (cfg : TurnParams F M G R) (logits : List F)
    (prefill dropped : Nat) (s : World (S × List Nat) M G R) :
    Grew n s (reply env cfg logits prefill dropped s).2 := by
  rw [reply, Turn.run_bind, Turn.run_modifyConv]
  dsimp only
  rw [Turn.bind_pure, henv]
  refine Grew.trans ?_ (generate_grew hplain ..)
  exact .congr rfl rfl rfl rfl rfl

-- ============================= service

/-- The state a plan leaves: the check that was made for it. -/
def Plan.Ready (n : Nat) (s : World (S × List Nat) M G R) : Plan → Prop
  | .refuse needed _ => Inside n s ∧ n < needed
  | .append toks => Inside n s ∧ s.conv.currentPos + toks.length ≤ n
  | .shift toks _ => Below n s
      ∧ s.conv.currentPos + (if s.conv.needInsertEot then 1 else 0)
      + toks.length ≤ n
  | .scratch _ _ => Inside n s

/-- A whole render fits the context. -/
def Plan.Fits (n : Nat) : Plan → Prop
  | .scratch toks _ => toks.length ≤ n
  | _ => True

/-- A plan that reaches no further than the context fits it. -/
theorem Plan.fits_of_reach {plan : Plan} (c : Conversation M G R)
    (h : plan.reach c ≤ n) : plan.Fits n := by
  cases plan with
  | scratch toks droppedTurns => exact h
  | refuse needed available => trivial
  | append toks => trivial
  | shift toks droppedTurns => trivial

/-- An append that has room stays inside the context. -/
theorem appendForward_below (henv : env.engine = eng.logged) (h : Below n s)
    (hroom : s.conv.currentPos + toks.length ≤ n) : Below n
    (appendForward env toks s).2 :=
  h.forward hroom rfl rfl rfl (by rw [appendForward, henv]; rfl)

/-- The session after the engine was reset. -/
def World.rewound (s : World (S × List Nat) M G R) (eng : Engine S F M G R) :
    World (S × List Nat) M G R :=
  { s with
    engine := (eng.resetCache s.engine.1, s.engine.2)
    conv := { s.conv with streamTokens := [], currentPos := 0, turnPos := 0 } }

/-- A rehydration is an append to the empty cache. -/
theorem rehydrateFull_rewound (henv : env.engine = eng.logged)
    (hne : toks ≠ []) :
    rehydrateFull env toks s = appendForward env toks (s.rewound eng) := by
  rw [rehydrateFull, if_neg hne, henv]
  rfl

/-- A rehydration that fits stays inside the context. -/
theorem rehydrateFull_inside (henv : env.engine = eng.logged) (h : Below n s)
    (hfits : toks.length ≤ n) : Inside n (rehydrateFull env toks s).2 := by
  have hrewound : Below n (s.rewound eng) := ⟨h.nCtx, rfl, Nat.zero_le n, h.log⟩
  by_cases hne : toks = []
  · rw [rehydrateFull, if_pos hne, henv]
    exact ⟨hrewound, Nat.le_refl 0⟩
  · rw [rehydrateFull_rewound henv hne]
    refine ⟨appendForward_below henv hrewound ?_, Nat.zero_le _⟩
    rw [show (s.rewound eng).conv.currentPos = 0 from rfl, Nat.zero_add]
    exact hfits

/-- A rehydration that does not fit forwards a position outside it. -/
theorem rehydrateFull_escapes (henv : env.engine = eng.logged)
    (h : n < toks.length) :
    n ∈ (rehydrateFull env toks s).2.engine.2 := by
  have hne : toks ≠ [] := List.ne_nil_of_length_pos (by omega)
  rw [rehydrateFull_rewound henv hne, appendForward, henv]
  refine List.mem_append_right _ (List.mem_range'_1.2 ?_)
  show 0 ≤ n ∧ n < 0 + toks.length
  omega

/-- What is appended after a shift stays inside the context. -/
theorem shiftPrefill_inside (henv : env.engine = eng.logged) (h : Below n s)
    (hroom : s.conv.currentPos + (if s.conv.needInsertEot then 1 else 0)
      + toks.length ≤ n) :
    Inside n (shiftPrefill env toks s).2 := by
  have hrest : ∀ {s : World (S × List Nat) M G R}, Below n s →
      s.conv.currentPos + toks.length ≤ n →
      Inside n (appendForward env toks { s with conv :=
          { s.conv with turnPos := s.conv.currentPos } }).2 := by
    intro s h hroom
    refine ⟨appendForward_below henv (h.congr rfl rfl rfl rfl) hroom, ?_⟩
    exact Nat.le_add_right _ _
  by_cases howed : s.conv.needInsertEot = true
  · rw [if_pos howed] at hroom
    have heot : Below n (insertEot env s).2 := by
      refine (@appendForward_below S F M G R n s [s.conv.eot] env
        eng henv h ?_).congr rfl rfl rfl rfl
      show s.conv.currentPos + 1 ≤ n
      omega
    have hrun : shiftPrefill env toks s
        = appendForward env toks { (insertEot env s).2 with
        conv := { (insertEot env s).2.conv with turnPos :=
            (insertEot env s).2.conv.currentPos } } := by
      rw [shiftPrefill, Turn.run_bind, Turn.run_conv]
      dsimp only
      rw [if_pos howed]
      rfl
    rw [hrun]
    refine hrest heot ?_
    exact hroom
  · rw [if_neg howed] at hroom
    have hrun : shiftPrefill env toks s
        = appendForward env toks { s with conv :=
          { s.conv with turnPos := s.conv.currentPos } } := by
      rw [shiftPrefill, Turn.run_bind, Turn.run_conv]
      dsimp only
      rw [if_neg howed]
      rfl
    rw [hrun]
    exact hrest h hroom

theorem Grew.bind {x : Turn (S × List Nat) M G R α}
    {f : α → Turn (S × List Nat) M G R β}
    (hf : ∀ a s, Grew n s (f a s).2) (s : World (S × List Nat) M G R) :
    Grew n (x s).2 ((x >>= f) s).2 := by
  rw [Turn.run_bind]
  cases x s with
  | mk out s' =>
      cases out with
      | ok a => exact hf a s'
      | error e => exact .congr rfl rfl rfl rfl rfl

/-- A plan that fits is served inside the context, and refused where it reaches
past it. -/
theorem Plan.Ready.serve (henv : env.engine = eng.logged)
    (hplain : eng.hasSpec = false) (cfg : TurnParams F M G R)
    {plan : Plan} (h : plan.Ready n s) (hfits : plan.Fits n) :
    Inside n (plan.serve env cfg s).2 ∧ (n < plan.reach s.conv →
      ∃ needed available, (plan.serve env cfg s).1
        = .error (.err (.contextFull needed available))) := by
  have hreply : ∀ prefill dropped logits s,
      Grew n s (reply env cfg logits prefill dropped s).2 :=
    fun prefill dropped logits s =>
      reply_grew henv hplain cfg logits prefill dropped s
  cases plan with
  | refuse needed available => exact ⟨h.1, fun _ => ⟨needed, available, rfl⟩⟩
  | append toks =>
      have hin : Inside n (appendForward env toks s).2 :=
        ⟨appendForward_below henv h.1.toBelow h.2,
          Nat.le_trans h.1.turn (Nat.le_add_right _ _)⟩
      exact ⟨(Grew.bind (hreply _ _) s).inside hin,
        fun hlt => absurd h.2 (Nat.not_le_of_lt hlt)⟩
  | shift toks droppedTurns =>
      have hin := shiftPrefill_inside henv h.1 h.2
      exact ⟨(Grew.bind (hreply _ _) s).inside hin,
        fun hlt => absurd h.2 (Nat.not_le_of_lt hlt)⟩
  | scratch toks droppedTurns =>
      have hin := rehydrateFull_inside henv h.toBelow hfits
      exact ⟨(Grew.bind (hreply _ _) s).inside hin,
        fun hlt => absurd hfits (Nat.not_le_of_lt hlt)⟩

/-- A plan that does not fit forwards a position outside the context. -/
theorem Plan.serve_escapes (henv : env.engine = eng.logged)
    (hplain : eng.hasSpec = false) (cfg : TurnParams F M G R)
    {plan : Plan} (h : ¬ plan.Fits n) : n ∈ (plan.serve env cfg s).2.engine.2 := by
  cases plan with
  | refuse needed available => exact absurd trivial h
  | append toks => exact absurd trivial h
  | shift toks droppedTurns => exact absurd trivial h
  | scratch toks droppedTurns =>
      have hescapes := rehydrateFull_escapes henv (s := s) (Nat.lt_of_not_le h)
      exact (Grew.bind (n := n)
        (fun logits s => reply_grew henv hplain cfg logits _ droppedTurns s)
        s).log n hescapes

-- ============================ planning

/-- What planning ends in. -/
def Planned (n : Nat) : Except Exit Plan → World (S × List Nat) M G R → Prop
  | .ok plan, s => plan.Ready n s
  | .error _, s => Inside n s

theorem Inside.atRender (h : Inside n s) (k : Nat) : Inside n (s.atRender k) :=
  h.congr rfl rfl rfl rfl rfl

/-- Planning goes on after a step that only renders. -/
theorem Ends.renders {x : Turn (S × List Nat) M G R α}
    {f : α → Turn (S × List Nat) M G R Plan} (hx : Renders x)
    (h : Inside n s) (hf : ∀ a k, Ends (f a) (s.atRender k) (Planned n)) :
    Ends (x >>= f) s (Planned n) := by
  obtain ⟨k, hk⟩ := hx.left s
  refine Ends.bind ?_
  rw [Ends, hk]
  cases (x s).1 with
  | ok a => exact hf a k
  | error e => exact h.atRender k

theorem Ends.modify {f : Conversation M G R → Conversation M G R}
    {x : Unit → Turn (S × List Nat) M G R α}
    {Q : Except Exit α → World (S × List Nat) M G R → Prop}
    (h : Ends (x ()) { s with conv := f s.conv } Q) :
    Ends (Turn.modifyConv f >>= x) s Q := Ends.bind h

theorem Ends.conv {x : Conversation M G R → Turn (S × List Nat) M G R α}
    {Q : Except Exit α → World (S × List Nat) M G R → Prop}
    (h : Ends (x s.conv) s Q) :
    Ends (Turn.conv >>= x) s Q := Ends.bind h

/-- What a shift ends in: with the rows gone there is room for the delta. -/
def Shifted (n : Nat) (deltaToks : List Token) : Except Exit Bool →
    World (S × List Nat) M G R → Prop
  | .ok true, s => (Plan.shift deltaToks 0).Ready n s
  | _, s => Inside n s

/-- A shift that succeeds leaves room for the new tokens. -/
theorem shiftRows_ends (henv : env.engine = eng.logged)
    {deltaToks : List Token} (start len : Nat) (s : World (S × List Nat) M G R)
    (h : Inside n s) (hend : start + len ≤ s.conv.currentPos)
    (hroom : s.conv.currentPos - len + (if s.conv.needInsertEot then 1 else 0)
      + deltaToks.length ≤ n) :
    Ends (shiftRows env start len) s (Shifted n deltaToks) := by
  have hlen : (s.conv.streamTokens.take start
      ++ s.conv.streamTokens.drop (start + len)).length
      = s.conv.currentPos - len := by
    rw [List.length_append, List.length_take, List.length_drop, ← h.pos]
    omega
  rw [Ends, shiftRows, henv]
  dsimp only [Engine.logged]
  cases eng.kvRm s.engine.1 start len with
  | mk out engine =>
      cases out with
      | error msg => exact h.congr rfl rfl rfl rfl rfl
      | ok rows =>
          refine ⟨⟨h.nCtx, rfl, ?_, h.log⟩, ?_⟩
          · show (s.conv.streamTokens.take start
              ++ s.conv.streamTokens.drop (start + len)).length ≤ n
            rw [hlen]
            have hle := h.room
            omega
          · show (s.conv.streamTokens.take start
              ++ s.conv.streamTokens.drop (start + len)).length + _ + _ ≤ n
            rw [hlen]
            exact hroom

/-- So does the plan of one. -/
theorem shiftPlan_ends (henv : env.engine = eng.logged)
    (region : Option (Nat × Nat)) (eotBudget : Nat)
    (deltaToks : List Token) (s : World (S × List Nat) M G R) (h : Inside n s)
    (hbudget : eotBudget = if s.conv.needInsertEot then 1 else 0) :
    Ends (shiftPlan env region eotBudget deltaToks) s (Shifted n deltaToks) := by
  refine Ends.conv ?_
  cases region with
  | none => exact h
  | some span =>
      refine Ends.ite (fun hfits => ?_) fun _ => h
      obtain ⟨-, -, hend, hroom⟩ := hfits
      rw [h.nCtx] at hroom
      exact shiftRows_ends henv span.1 span.2 s h hend (by omega)

/-- Dropping turns leaves a plan that is ready. -/
theorem droppedPlan_ends (henv : env.engine = eng.logged) (eotBudget : Nat)
    (deltaToks : List Token)
    (first dropped : Nat) (s : World (S × List Nat) M G R) (h : Inside n s)
    (hbudget : eotBudget = if s.conv.needInsertEot then 1 else 0) :
    Ends (droppedPlan env eotBudget deltaToks first dropped) s (Planned n) := by
  refine Ends.renders (renders_overflowRegion env first dropped) h fun region
    k => Ends.modify ?_
  refine Ends.renders (renders_full env true)
    ((h.atRender k).congr rfl rfl rfl rfl rfl) fun full k' => ?_
  refine Ends.bind
    ((shiftPlan_ends (n := n) henv region eotBudget deltaToks _ ?_ ?_).mono ?_)
  · exact h.congr rfl rfl rfl rfl rfl
  · exact hbudget
  · intro r s' hshifted
    match r with
    | .error e => exact hshifted
    | .ok true => exact hshifted
    | .ok false => exact Inside.congr hshifted rfl rfl rfl rfl rfl

/-- So does every way out of an overflow. -/
theorem overflowPlan_ends (henv : env.engine = eng.logged) (input : Text)
    (written : Bool) (eotBudget : Nat)
    (deltaToks : List Token) (s : World (S × List Nat) M G R) (h : Inside n s)
    (hbudget : eotBudget = if s.conv.needInsertEot then 1 else 0)
    (hover : n < s.conv.currentPos + eotBudget + deltaToks.length) :
    Ends (overflowPlan env input written eotBudget deltaToks) s (Planned n) := by
  refine Ends.modify
    (Ends.renders (renders_planOverflowDrop env) ?_ fun plan k => Ends.conv ?_)
  · exact h.congr rfl rfl rfl rfl rfl
  · refine Ends.ite (fun _ => ?_) fun _ => ?_
    · exact ⟨h.congr rfl rfl rfl rfl rfl, hover⟩
    · refine droppedPlan_ends henv eotBudget deltaToks _ _ _ ?_ hbudget
      exact h.congr rfl rfl rfl rfl rfl

/-- A turn that has room is ready as it is. -/
theorem appendPlan_ends (input : Text) (deltaToks : List Token)
    (s : World (S × List Nat) M G R) (h : Inside n s)
    (hroom : s.conv.currentPos + deltaToks.length ≤ n) :
    Ends (appendPlan env input deltaToks) s (Planned n) := by
  refine Ends.modify (Ends.conv (Ends.ite (fun _ => ?_) fun _ => ?_))
  · refine Ends.renders (renders_full env true)
      (h.congr rfl rfl rfl rfl rfl) fun full k => ?_
    exact Ends.ite (fun _ => h.congr rfl rfl rfl rfl rfl) fun _ =>
      h.congr rfl rfl rfl rfl rfl
  · exact ⟨⟨h.toBelow.congr rfl rfl rfl rfl, Nat.le_refl _⟩, hroom⟩

/-- An entered turn gets a plan that is ready. -/
theorem enteredPlan_ends (henv : env.engine = eng.logged) (input : Text)
    (messages : List Message) (written : Bool)
    (s : World (S × List Nat) M G R) (h : Inside n s) :
    Ends (enteredPlan env input messages written) s (Planned n) := by
  refine Ends.renders (renders_formatSingle env messages _) h fun delta k => ?_
  refine Ends.ite (fun _ => h.atRender k) fun _ =>
    Ends.ite (fun _ => Ends.conv ?_) fun _ => ?_
  · refine Ends.ite (fun hover => ?_) fun hroom => ?_
    · rw [(h.atRender k).nCtx] at hover
      exact overflowPlan_ends henv input written _ _ _ (h.atRender k) rfl hover
    · rw [(h.atRender k).nCtx] at hroom
      exact appendPlan_ends input _ _ (h.atRender k) (by omega)
  · refine Ends.modify
      (Ends.renders (renders_full env true)
        (h.congr rfl rfl rfl rfl rfl) fun full k' => ?_)
    exact Ends.ite (fun _ => h.congr rfl rfl rfl rfl rfl) fun _ =>
      h.congr rfl rfl rfl rfl rfl

/-- An EOT is written only while there is room. -/
theorem entered_inside (henv : env.engine = eng.logged) (h : Inside n s) :
    Inside n (s.entered env) := by
  by_cases hw : s.eotWritten = true
  · have hlt := (of_decide_eq_true hw).2
    rw [h.nCtx] at hlt
    rw [World.entered, if_pos hw]
    refine ⟨?_, Nat.le_succ_of_le h.turn⟩
    exact (@appendForward_below S F M G R n s [s.conv.eot] env eng
      henv h.toBelow hlt).congr rfl rfl rfl rfl
  · rw [World.entered, if_neg hw]
    exact h

/-- A user turn gets a plan that is ready. -/
theorem userPlan_ends (henv : env.engine = eng.logged) (input : Text)
    (h : Inside n s) :
    Ends (userPlan env input) s (Planned n) :=
  enteredPlan_ends henv input s.conv.messages s.eotWritten (s.entered env)
    (entered_inside henv h)

/-- The text of a replay is a render. -/
theorem renders_replayText (lastUser : Text) : Renders (replayText env lastUser) := by
  refine Renders.conv.bind fun c => Renders.ite (renders_full env true) ?_
  exact (renders_formatSingle env _ _).bind fun delta => Renders.pure _

/-- A regeneration gets a plan that is ready. -/
theorem regenPlan_ends (h : Inside n s) : Ends (regenPlan env) s (Planned n) := by
  refine Ends.conv (Ends.ite (fun _ => h) fun _ => Ends.modify (Ends.conv ?_))
  have hback : Inside n ({ s with conv := { s.conv with
      messages := s.conv.messages.dropLast
      streamTokens := s.conv.streamTokens.take s.conv.turnPos
      currentPos := s.conv.turnPos
      needInsertEot := false } } : World (S × List Nat) M G R) := by
    refine ⟨⟨h.nCtx, ?_, Nat.le_trans h.turn h.room, h.log⟩, Nat.le_refl _⟩
    show s.conv.turnPos = (s.conv.streamTokens.take s.conv.turnPos).length
    rw [List.length_take, ← h.pos, Nat.min_eq_left h.turn]
  generalize ({ s with conv := { s.conv with
      messages := s.conv.messages.dropLast
      streamTokens := s.conv.streamTokens.take s.conv.turnPos
      currentPos := s.conv.turnPos
      needInsertEot := false } } : World (S × List Nat) M G R) = s' at hback ⊢
  cases s'.conv.messages.getLast?.bind (·.content) with
  | none => exact hback
  | some lastUser =>
      refine Ends.renders (renders_replayText lastUser) hback fun text k =>
        Ends.ite (fun _ => hback.atRender k) ?_
      refine fun _ => Ends.ite (fun hover => ?_) fun hroom => ?_
      · rw [hback.nCtx] at hover
        exact ⟨hback.atRender k, hover⟩
      · rw [hback.nCtx] at hroom
        exact ⟨hback.atRender k, Nat.le_of_not_lt hroom⟩

/-- A loaded history gets a plan that is ready. -/
theorem loadPlan_ends (messages : List Message) (h : Inside n s) :
    Ends (loadPlan env messages) s (Planned n) := by
  refine Ends.modify (Ends.renders (renders_full env false) ?_ fun full k => ?_)
  · exact ⟨h.toBelow.congr rfl rfl rfl rfl, Nat.zero_le _⟩
  · exact ⟨h.toBelow.congr rfl rfl rfl rfl, Nat.zero_le _⟩

end Log

-- ================================ runs

/-- The plan of a call and the session it leaves; a call that fails before its
prompt, and `/clear`, have none. -/
def Turn.planned (x : Turn S M G R Plan) (s : World S M G R) :
    Option (Plan × World S M G R) :=
  match x s with
  | (.ok plan, s') => some (plan, s')
  | (.error _, _) => none

def Call.planned (env : Setup S F M G R) (s : World S M G R) : Call F M G R →
    Option (Plan × World S M G R)
  | .userTurn _ input => (userPlan env input).planned s
  | .regenTurn _ => (regenPlan env).planned s
  | .loadHistory messages => (loadPlan env messages).planned s
  | .clear => none

/-- What a call returns. -/
def Call.outcome (env : Setup S F M G R) (s : World S M G R) : Call F M G R →
    Except Exit Unit
  | .userTurn cfg input => (Session.userTurn env cfg input s).1.map fun _ => ()
  | .regenTurn cfg => (Session.regenTurn env cfg s).1.map fun _ => ()
  | .loadHistory messages => (Session.loadHistory env messages s).1
  | .clear => (Session.clear env s).1

/-- A whole render that the call would feed fits the context. -/
def Call.RenderFits (n : Nat) (env : Setup S F M G R) (s : World S M G R)
    (call : Call F M G R) : Prop :=
  ∀ plan s', call.planned env s = some (plan, s') → plan.Fits n

/-- A call whose prompt would reach past the context is refused. -/
def Call.Refuses (n : Nat) (env : Setup S F M G R) (s : World S M G R)
    (call : Call F M G R) : Prop :=
  ∀ plan s', call.planned env s = some (plan, s') → n < plan.reach s'.conv →
    ∃ needed available, call.outcome env s
      = .error (.err (.contextFull needed available))

section Runs

variable {n : Nat} {s : World (S × List Nat) M G R}
  {env : Setup (S × List Nat) F M G R} {eng : Engine S F M G R}

variable {x : Turn (S × List Nat) M G R Plan} {cfg : TurnParams F M G R}

/-- A turn, from its planning. -/
theorem planned_turn (henv : env.engine = eng.logged) (hplain : eng.hasSpec = false)
    {turn : Turn (S × List Nat) M G R TurnOutcome}
    (hturn : turn = x >>= Plan.serve env cfg) (hends : Ends x s (Planned n))
    (hfits : ∀ plan s', x.planned s = some (plan, s') → plan.Fits n) :
    Inside n (turn s).2 ∧ ∀ plan s', x.planned s = some (plan, s') →
      n < plan.reach s'.conv →
      ∃ needed available, ((turn s).1.map fun _ => ())
        = .error (.err (.contextFull needed available)) := by
  rw [hturn, Turn.run_bind]
  unfold Turn.planned at hfits ⊢
  unfold Ends at hends
  cases hrun : x s with
  | mk out s₁ =>
      rw [hrun] at hends hfits
      cases out with
      | error e => exact ⟨hends, nofun⟩
      | ok plan =>
          have hserve := Plan.Ready.serve henv hplain cfg hends (hfits plan s₁ rfl)
          refine ⟨hserve.1, fun plan' s' heq hlt => ?_⟩
          cases heq
          obtain ⟨needed, available, hout⟩ := hserve.2 hlt
          refine ⟨needed, available, ?_⟩
          dsimp only
          rw [hout]
          rfl

/-- So does a turn with such a plan. -/
theorem planned_turn_escapes (henv : env.engine = eng.logged)
    (hplain : eng.hasSpec = false)
    {turn : Turn (S × List Nat) M G R TurnOutcome}
    (hturn : turn = x >>= Plan.serve env cfg) {plan : Plan}
    {s' : World (S × List Nat) M G R} (hplan : x.planned s = some (plan, s'))
    (hfits : ¬ plan.Fits n) : n ∈ (turn s).2.engine.2 := by
  rw [hturn, Turn.run_bind]
  unfold Turn.planned at hplan
  cases hrun : x s with
  | mk out s₁ =>
      rw [hrun] at hplan
      cases out with
      | error e => cases hplan
      | ok plan' =>
          cases hplan
          exact Plan.serve_escapes henv hplain cfg hfits

/-- A call whose whole render fits stays inside the context, and is refused
where its prompt would not. -/
theorem Call.run_inside (henv : env.engine = eng.logged)
    (hplain : eng.hasSpec = false) (h : Inside n s)
    (call : Call F M G R) (hfits : call.RenderFits n env s) :
    Inside n (call.run env s) ∧ call.Refuses n env s := by
  cases call with
  | userTurn cfg input =>
      exact planned_turn henv hplain (userTurn_planned cfg input)
        (userPlan_ends henv input h) hfits
  | regenTurn cfg =>
      exact planned_turn henv hplain (regenTurn_planned cfg)
        (regenPlan_ends h) hfits
  | loadHistory messages =>
      have hends : Planned n _ _ := @loadPlan_ends S F M G R n s env messages h
      show Inside n (Session.loadHistory env messages s).2 ∧ _
      obtain ⟨e, s', hplan, hrun⟩ | ⟨toks, s', hplan, hrun⟩ :=
        loadHistory_planned env messages s
      · have hnone : Call.planned env s (.loadHistory messages : Call F M G R)
            = none := by
          rw [Call.planned, Turn.planned, hplan]
        rw [hplan] at hends
        refine ⟨by rw [hrun]; exact hends, fun plan s₁ heq => ?_⟩
        rw [hnone] at heq
        cases heq
      · have hsome : Call.planned env s (.loadHistory messages : Call F M G R)
            = some (.scratch toks 0, s') := by
          rw [Call.planned, Turn.planned, hplan]
        have hlen : toks.length ≤ n := hfits _ _ hsome
        rw [hplan] at hends
        have hin := rehydrateFull_inside henv hends.toBelow hlen
        refine ⟨by rw [hrun]; exact hin, fun plan s₁ heq hlt => ?_⟩
        rw [hsome] at heq
        cases heq
        exact absurd hlen (Nat.not_le_of_lt hlt)
  | clear =>
      refine ⟨⟨⟨h.nCtx, rfl, Nat.zero_le n, ?_⟩, Nat.le_refl 0⟩, nofun⟩
      show ∀ p ∈ (env.engine.resetCache s.engine).2, p < n
      rw [henv]
      exact h.log

/-- A call whose whole render does not fit forwards a position outside it. -/
theorem Call.run_escapes (henv : env.engine = eng.logged)
    (hplain : eng.hasSpec = false) (call : Call F M G R)
    (hfits : ¬ call.RenderFits n env s) : n ∈ (call.run env s).engine.2 := by
  obtain ⟨plan, s', hplan, hlong⟩ : ∃ plan s',
      call.planned env s = some (plan, s') ∧ ¬ plan.Fits n := by
    by_contra hall
    exact hfits fun plan s' hplan => by_contra fun hlong =>
      hall ⟨plan, s', hplan, hlong⟩
  cases call with
  | userTurn cfg input =>
      exact planned_turn_escapes henv hplain
        (userTurn_planned cfg input) hplan hlong
  | regenTurn cfg =>
      exact planned_turn_escapes henv hplain
        (regenTurn_planned cfg) hplan hlong
  | loadHistory messages =>
      show n ∈ (Session.loadHistory env messages s).2.engine.2
      rw [Call.planned, Turn.planned] at hplan
      obtain ⟨e, s₁, hrun, -⟩ | ⟨toks, s₁, hrun, hload⟩ :=
        loadHistory_planned env messages s
      · rw [hrun] at hplan
        cases hplan
      · rw [hrun] at hplan
        cases hplan
        rw [hload]
        exact rehydrateFull_escapes henv (Nat.lt_of_not_le hlong)
  | clear => cases hplan

/-- A conversation never forwards past its context, and refuses what would,
exactly when no call has to feed a whole render longer than the context: the
delta of a turn is measured, a render fed from scratch is not. -/
theorem forwards_inside_iff (eng : Engine S F M G R)
    (hplain : eng.hasSpec = false) (codec : TokenCodec)
    (template : Template) (shift : Bool) (spec : ConversationSpec M R)
    (engine : S) (calls : List (Call F M G R)) :
    let env : Setup (S × List Nat) F M G R := ⟨eng.logged, codec, template, shift⟩
    (∀ part call, part ++ [call] <+: calls →
      call.RenderFits spec.nCtx env (after env spec (engine, []) part))
      ↔ (∀ part, part <+: calls →
        ∀ p ∈ (after env spec (engine, []) part).engine.2, p < spec.nCtx)
        ∧ ∀ part call, part ++ [call] <+: calls →
          call.Refuses spec.nCtx env (after env spec (engine, []) part) := by
  intro env
  have hstep : ∀ part call, after env spec (engine, []) (part ++ [call])
      = call.run env (after env spec (engine, []) part) := by
    intro part call
    unfold after
    rw [List.foldl_append, List.foldl_cons, List.foldl_nil]
  constructor
  · intro hfits
    have hinside : ∀ part, part <+: calls →
        Inside spec.nCtx (after env spec (engine, []) part) := by
      intro part
      induction part using List.reverseRecOn with
      | nil => exact fun _ => ⟨⟨rfl, rfl, Nat.zero_le _, nofun⟩, Nat.le_refl 0⟩
      | append_singleton part call ih =>
          intro hpart
          rw [hstep]
          exact (Call.run_inside rfl hplain
            (ih ((List.prefix_append ..).trans hpart)) call
            (hfits part call hpart)).1
    refine ⟨fun part hpart => (hinside part hpart).log, fun part call hpart => ?_⟩
    exact (Call.run_inside rfl hplain
      (hinside part ((List.prefix_append ..).trans hpart)) call
      (hfits part call hpart)).2
  · rintro ⟨hbelow, -⟩ part call hpart
    by_contra hlong
    have hmem := @Call.run_escapes S F M G R spec.nCtx _ env eng rfl hplain call hlong
    rw [← hstep] at hmem
    exact absurd (hbelow _ hpart _ hmem) (Nat.lt_irrefl _)

end Runs

-- ============================= samples

/-- The plain engine of the samples, with its log. -/
def loggedSetup : Setup (Unit × List Nat) Unit Unit Unit (List Token) :=
  ⟨scriptedSetup.engine.logged, markerCodec, chatml, true⟩

/-- A session over 64 tokens, under a system prompt that is longer. -/
def promptedSpec : ConversationSpec Unit (List Token) :=
  { scriptedSpec [97, 256] with
    nCtx := 64, systemPrompt := some (List.replicate 64 's') }

/-- The first turn feeds the system prompt with the message, the second call a
whole history: neither is measured against the context. -/
theorem long_renders_forwarded :
    (∃ p ∈ (after loggedSetup promptedSpec ((), [])
      [.userTurn (stoppingAt ['!']) ['q']]).engine.2, 64 ≤ p)
    ∧ (∃ p ∈ (after loggedSetup { scriptedSpec [] with nCtx := 64 } ((), [])
        [.loadHistory [⟨"user", some (List.replicate 64 'u')⟩]]).engine.2, 64 ≤ p)
    ∧ ¬ ∀ part, part <+: [.userTurn (stoppingAt ['!']) ['q']] →
      ∀ p ∈ (after loggedSetup promptedSpec ((), []) part).engine.2,
        p < promptedSpec.nCtx := by
  have hfirst : ∃ p
      ∈ (after loggedSetup promptedSpec ((), [])
        [.userTurn (stoppingAt ['!']) ['q']]).engine.2,
      64 ≤ p := ⟨64, by decide +kernel, Nat.le_refl 64⟩
  refine ⟨hfirst, ⟨64, by decide +kernel, Nat.le_refl 64⟩, fun hbelow => ?_⟩
  obtain ⟨p, hp, hle⟩ := hfirst
  exact absurd (hbelow _ (List.prefix_refl _) p hp) (Nat.not_lt_of_le hle)

/-- A turn whose render fits. -/
theorem short_turn_inside : (after loggedSetup (scriptedSpec [97, 256]) ((), [])
    [.userTurn (stoppingAt ['!']) ['q']]).engine.2.all (· < 4096) = true := by
  refine List.all_eq_true.2 fun p hp => decide_eq_true ?_
  refine ((forwards_inside_iff scriptedSetup.engine rfl markerCodec chatml true
    (scriptedSpec [97, 256]) ()
    [.userTurn (stoppingAt ['!']) ['q']]).1 fun part call hpart => ?_).1 _
      (List.prefix_refl _) p hp
  obtain ⟨rfl, rfl⟩ : part = [] ∧ call = .userTurn (stoppingAt ['!']) ['q'] := by
    rcases part with _ | ⟨x, part⟩
    · exact ⟨rfl, (List.cons_prefix_cons.1 hpart).1⟩
    · have hlen := hpart.length_le
      simp at hlen
  have hreach :
      (Call.planned loggedSetup
        (after loggedSetup (scriptedSpec [97, 256]) ((), []) [])
      (.userTurn (stoppingAt ['!']) ['q'])).map (fun p => p.1.reach p.2.conv)
        = some 51 := by decide +kernel
  intro plan s' hplan
  have hplan : Call.planned loggedSetup
      (after loggedSetup (scriptedSpec [97, 256]) ((), []) [])
      (.userTurn (stoppingAt ['!']) ['q']) = some (plan, s') := hplan
  rw [hplan] at hreach
  have hreach : plan.reach s'.conv = 51 := Option.some.inj hreach
  refine Plan.fits_of_reach s'.conv ?_
  rw [hreach]
  decide

end Minfer.Session
