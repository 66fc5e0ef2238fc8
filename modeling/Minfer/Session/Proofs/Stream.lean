/-
The token mirror is the KV (`conversation.rs`).

Every path that rewrites the pair of stream and position goes through one
of four moves: tokens are forwarded at the end of the stream and recorded,
the stream is cut back to the rollback point, a region is removed from the
rows and the stream alike, or everything starts over from an empty cache.
Each move keeps the invariant, and no error exit lies inside a move.
-/
import Minfer.Session.Calls
import Minfer.Lib.Provenance

namespace Minfer.Session

open Minfer.Lib (Slot Store)
open Minfer.Server (Token)

variable {F M G R α β : Type}

-- ============================== engine

/-- A plain engine over rows that remember what they were computed from. Its
logits are any function of them; a removal succeeds or not, and one that
fails may leave any rows behind. -/
structure PlainEngine (F : Type) where
  logits : Store Token → Nat → List F
  removal : Store Token → Nat → Nat →
    Except (String × (Nat → Option (Slot Token))) Nat

/-- The engine's operations. -/
def PlainEngine.ops (p : PlainEngine F) : Engine (Store Token) F M G R where
  forward st toks positions nOut :=
    let st := st.writes (toks.zip positions)
    (p.logits st nOut, st)
  resetCache := Store.reset
  kvRm st start len :=
    match p.removal st start len with
    | .error (e, rows) => (.error e, { st with rows := rows })
    | .ok n => (.ok n, st.remove start len)
  hasSpec := false
  specRound _ _ _ _ _ _ := none

-- =========================== invariant

/-- The stream is what the first rows hold, the position is its end and the
rollback point is inside it. -/
structure Inv (s : World (Store Token) M G R) : Prop where
  pos : s.conv.currentPos = s.conv.streamTokens.length
  turn : s.conv.turnPos ≤ s.conv.currentPos
  mirror : s.engine.Mirrors s.conv.streamTokens

variable {s : World (Store Token) M G R}
variable {s' : World (Store Token) M G R}

/-- Nothing but the stream, the two positions and the rows matters. -/
theorem Inv.congr (h : Inv s)
    (hstream : s'.conv.streamTokens = s.conv.streamTokens)
    (hpos : s'.conv.currentPos = s.conv.currentPos)
    (hturn : s'.conv.turnPos ≤ s.conv.currentPos)
    (hengine : s'.engine = s.engine) : Inv s' where
  pos := by rw [hpos, hstream, h.pos]
  turn := by rw [hpos]; exact hturn
  mirror := by rw [hstream, hengine]; exact h.mirror

/-- Tokens forwarded at the end of the stream and recorded there. -/
theorem Inv.append (h : Inv s) (toks : List Token)
    (hstream : s'.conv.streamTokens = s.conv.streamTokens ++ toks)
    (hpos : s'.conv.currentPos = s.conv.currentPos + toks.length)
    (hturn : s'.conv.turnPos = s.conv.turnPos) (hengine : s'.engine
      = s.engine.writes
        (toks.zip (List.range' s.conv.currentPos toks.length))) : Inv s' where
  pos := by rw [hpos, hstream, List.length_append, h.pos]
  turn := by
    rw [hpos, hturn]
    exact Nat.le_trans h.turn (Nat.le_add_right ..)
  mirror := by
    rw [hstream, hengine, h.pos]
    exact h.mirror.writes

/-- Everything starts over. -/
theorem Inv.reset (past : ∀ k ∈ s.engine.removed, k < s.engine.clock)
    (hstream : s'.conv.streamTokens = []) (hpos : s'.conv.currentPos = 0)
    (hturn : s'.conv.turnPos = 0) (hengine : s'.engine = s.engine.reset) :
    Inv s' where
  pos := by rw [hpos, hstream]; rfl
  turn := Nat.le_of_eq (hturn.trans hpos.symm)
  mirror := by rw [hstream, hengine]; exact Store.Mirrors.reset past

-- ============================= keeping

theorem Turn.bind_ok {S : Type} {x : Turn S M G R α} {f : α → Turn S M G R β}
    {s s' : World S M G R} {a : α} (h : x s = (.ok a, s')) :
    (x >>= f) s = f a s' := by
  show ExceptT.bindCont f (x s).1 (x s).2 = f a s'
  rw [h]
  rfl

/-- What is done to a result does not touch the session. -/
theorem Turn.bind_pure {S : Type} (x : Turn S M G R α) (f : α → β)
    (s : World S M G R) :
    ((x >>= fun a => Pure.pure (f a)) s).2 = (x s).2 := by
  cases hx : x s with
  | mk out s' =>
  cases out with
  | ok a => rw [Turn.bind_ok hx]; rfl
  | error e =>
      show (ExceptT.bindCont (fun a => (Pure.pure (f a) : Turn S M G R β))
        (x s).1 (x s).2).2 = s'
      rw [hx]
      rfl

/-- A step keeps the invariant, however it ends. -/
structure Keeps (x : Turn (Store Token) M G R α) : Prop where
  inv : ∀ s, Inv s → Inv (x s).2

namespace Keeps

theorem pure (a : α) : Keeps (M := M) (G := G) (R := R) (Pure.pure a) :=
  ⟨fun _ h => h⟩

theorem fail (e : ConvError) : Keeps (M := M) (G := G) (R := R)
    (Turn.fail e : Turn _ _ _ _ α) :=
  ⟨fun _ h => h⟩

theorem conv : Keeps (M := M) (G := G) (R := R) Turn.conv := ⟨fun _ h => h⟩

theorem bind {x : Turn (Store Token) M G R α} {f : α → Turn (Store Token) M G R β}
    (hx : Keeps x) (hf : ∀ a, Keeps (f a)) : Keeps (x >>= f) := by
  refine ⟨fun s h => ?_⟩
  have hs := hx.inv s h
  show Inv (ExceptT.bindCont f (x s).1 (x s).2).2
  cases (x s).1 with
  | error e => exact hs
  | ok a => exact (hf a).inv _ hs

theorem modifyConv {f : Conversation M G R → Conversation M G R}
    (hf : ∀ s : World (Store Token) M G R, Inv s → Inv { s with conv := f s.conv }) :
    Keeps (Turn.modifyConv f) := ⟨fun s h => hf s h⟩

theorem ite {p : Prop} [Decidable p] {x y : Turn (Store Token) M G R α}
    (hx : Keeps x) (hy : Keeps y) : Keeps (if p then x else y) := by
  split
  · exact hx
  · exact hy

end Keeps

-- ========================== generation

theorem holdBack_conv {S : Type} (g : Gen) (s : World S M G R) :
    (holdBack g s).2.conv = s.conv ∧ (holdBack g s).2.engine = s.engine := by
  unfold holdBack
  split
  · exact ⟨rfl, rfl⟩
  · exact ⟨rfl, rfl⟩

theorem finishTurn_inv {g : Gen} (h : Inv s) :
    Inv (finishTurn g s).2 := by
  unfold finishTurn
  dsimp only
  split
  · exact h.congr rfl rfl h.turn rfl
  · exact h.congr rfl rfl h.turn rfl

/-- The decode loop records every token it forwards, and no other. -/
theorem decodeLoop_inv (p : PlainEngine F) (codec : TokenCodec)
    (cfg : TurnParams F M G R) :
    ∀ (budget : Nat) (logits : List F) (g : Gen)
      (s : World (Store Token) M G R), Inv s →
    Inv (decodeLoop p.ops codec cfg budget logits g s).2 := by
  intro budget
  induction budget with
  | zero => exact fun logits g s h => h
  | succ budget ih =>
      intro logits g s h
      unfold decodeLoop
      split
      · exact h
      split
      · exact h.congr rfl rfl h.turn rfl
      next t st _ =>
      dsimp only
      split
      · -- the end-of-generation token is written
        exact h.append [t] rfl rfl rfl rfl
      split
      · exact h.congr rfl rfl h.turn rfl
      · apply ih
        obtain ⟨hconv, hengine⟩ := holdBack_conv (g.take codec t)
          (((s.setSampler st).pushWindow t).pushStream t)
        apply h.append [t]
        · simp only [World.advance, hconv]
          rfl
        · simp only [World.advance, hconv]
          rfl
        · simp only [World.advance, hconv]
          rfl
        · simp only [World.advance, hconv, hengine]
          rfl

theorem generate_inv (p : PlainEngine F) (codec : TokenCodec)
    (cfg : TurnParams F M G R) (logits : List F) (h : Inv s) :
    Inv (generateAssistantWithLogits p.ops codec cfg logits s).2 := by
  show Inv (generateAssistantPlain p.ops codec cfg logits s).2
  have hloop :=
    decodeLoop_inv p codec cfg cfg.nPredict logits Gen.start
    (resetGrammar cfg s)
    (h.congr rfl rfl h.turn rfl)
  unfold generateAssistantPlain
  split
  · next heq =>
    rw [heq] at hloop
    exact hloop
  · next heq =>
    rw [heq] at hloop
    exact finishTurn_inv hloop

-- =============================== calls

section Calls

variable {p : PlainEngine F} {env : Setup (Store Token) F M G R}

theorem keeps_renderMessagesWith (messages : List Message) (addGen : Bool) :
    Keeps (renderMessagesWith env messages addGen) := by
  refine Keeps.conv.bind fun c => ?_
  refine (Keeps.modifyConv fun s h => h.congr rfl rfl h.turn rfl).bind fun _ => ?_
  split
  · exact Keeps.fail _
  · exact Keeps.pure _

theorem keeps_renderFull (addGen : Bool) : Keeps (renderFull env addGen) :=
  Keeps.conv.bind fun c => keeps_renderMessagesWith c.messages addGen

theorem keeps_formatSingle (messages : List Message) (m : Message) :
    Keeps (formatSingle env messages m) := by
  have hpast : Keeps (renderPast env messages) :=
    Keeps.ite (Keeps.pure _) (keeps_renderMessagesWith ..)
  refine hpast.bind fun past => ?_
  refine (keeps_renderMessagesWith (messages ++ [m]) true).bind fun new => ?_
  exact Keeps.ite (Keeps.pure _) (Keeps.pure _)

/-- Prefill forwards at the end of the stream. -/
theorem keeps_appendForward (henv : env.engine = p.ops) (toks : List Token) :
    Keeps (appendForward env toks) := by
  refine ⟨fun s h => ?_⟩
  refine h.append toks rfl rfl rfl ?_
  show (env.engine.forward s.engine toks
    (List.range' s.conv.currentPos toks.length) 1).2 = _
  rw [henv]
  rfl

variable {s : World (Store Token) M G R}

/-- A re-render starts over, whatever the rows are. -/
theorem rehydrateFull_inv (henv : env.engine = p.ops) (toks : List Token)
    (past : ∀ k ∈ s.engine.removed, k < s.engine.clock) :
    Inv (rehydrateFull env toks s).2 := by
  have hreset : Inv ({ s with
      engine := env.engine.resetCache s.engine
      conv := { s.conv with streamTokens := [], currentPos := 0, turnPos := 0 } } :
      World (Store Token) M G R) := by
    refine Inv.reset past rfl rfl rfl ?_
    show env.engine.resetCache s.engine = _
    rw [henv]
    rfl
  have hrest : Keeps (if toks = [] then pure [] else appendForward env toks) :=
    Keeps.ite (Keeps.pure _) (keeps_appendForward henv toks)
  exact hrest.inv _ hreset

theorem keeps_rehydrateFull (henv : env.engine = p.ops) (toks : List Token) :
    Keeps (rehydrateFull env toks) :=
  ⟨fun _ h => rehydrateFull_inv henv toks h.mirror.past⟩

theorem keeps_reply (henv : env.engine = p.ops) (cfg : TurnParams F M G R)
    (logits : List F) (n d : Nat) : Keeps (reply env cfg logits n d) := by
  refine (Keeps.modifyConv fun s h => h.congr rfl rfl h.turn rfl).bind fun _ => ?_
  refine Keeps.bind ⟨fun s h => ?_⟩ fun _ => Keeps.pure _
  show Inv (generateAssistantWithLogits env.engine env.codec cfg logits s).2
  rw [henv]
  exact generate_inv p env.codec cfg logits h

theorem keeps_rerender (henv : env.engine = p.ops) (cfg : TurnParams F M G R)
    (toks : List Token) : Keeps (rerender env cfg toks) :=
  (keeps_rehydrateFull henv toks).bind fun _ => keeps_reply henv ..

theorem keeps_insertEot (henv : env.engine = p.ops) : Keeps (insertEot env) :=
  Keeps.conv.bind fun _ => (keeps_appendForward henv _).bind fun _ =>
    Keeps.modifyConv fun _ h => h.congr rfl rfl h.turn rfl

theorem keeps_planLoop : ∀ (fuel : Nat) (msgs : List Message) (first : Option Nat)
    (end_ removed : Nat), Keeps (planLoop env fuel msgs first end_ removed) := by
  intro fuel
  induction fuel with
  | zero => exact fun _ _ _ _ => Keeps.pure _
  | succ fuel ih =>
      intro msgs first end_ removed
      refine (keeps_renderMessagesWith msgs true).bind fun full =>
        Keeps.conv.bind fun c => ?_
      refine Keeps.ite (Keeps.pure _) ?_
      split
      · exact Keeps.pure _
      · exact ih ..

theorem keeps_planOverflowDrop : Keeps (planOverflowDrop env) :=
  Keeps.conv.bind fun _ => (keeps_planLoop ..).bind fun _ => Keeps.pure _

theorem keeps_streamBoundary (upto : Nat) : Keeps (streamBoundary env upto) := by
  refine Keeps.conv.bind fun c =>
    Keeps.ite (Keeps.pure _) (Keeps.ite (Keeps.pure _) ?_)
  exact (keeps_renderMessagesWith ..).bind fun _ => Keeps.pure _

theorem keeps_overflowRegion (first count : Nat) : Keeps
    (overflowRegion env first count) :=
  Keeps.ite (Keeps.pure _) ((keeps_streamBoundary _).bind fun _ =>
    (keeps_streamBoundary _).bind fun _ => Keeps.pure _)

theorem keeps_shiftPrefill (henv : env.engine = p.ops) (deltaToks : List Token) :
    Keeps (shiftPrefill env deltaToks) := by
  refine Keeps.conv.bind fun c => ?_
  have hrest : Keeps (do
      Turn.modifyConv fun c => { c with turnPos := c.currentPos }
      appendForward env deltaToks) :=
    (Keeps.modifyConv fun s h => h.congr rfl rfl (Nat.le_refl _) rfl).bind fun _ =>
      keeps_appendForward henv deltaToks
  exact Keeps.ite ((keeps_insertEot henv).bind fun _ => hrest) hrest

theorem overflowRerender_inv (henv : env.engine = p.ops) (toks : List Token)
    (past : ∀ k ∈ s.engine.removed, k < s.engine.clock) :
    Inv (overflowRerender env toks s).2 :=
  rehydrateFull_inv henv toks (s :=
    { s with conv := { s.conv with needInsertEot := false } }) past

/-- A removal inside the stream takes the same span from rows and stream; one
that fails is told, and its rows may be anything. -/
theorem shiftRows_cases (henv : env.engine = p.ops) {start len : Nat}
    (h : Inv s) (hle : start + len ≤ s.conv.currentPos) :
    (∃ s', shiftRows env start len s = (.ok true, s')
        ∧ s'.conv.currentPos = s'.conv.streamTokens.length
        ∧ s'.engine.Mirrors s'.conv.streamTokens)
      ∨ ∃ s', shiftRows env start len s = (.ok false, s')
        ∧ ∀ k ∈ s'.engine.removed, k < s'.engine.clock := by
  rw [h.pos] at hle
  cases hrm : p.removal s.engine start len with
  | error e =>
      right
      refine ⟨{ s with engine := { s.engine with rows := e.2 } }, ?_, h.mirror.past⟩
      unfold shiftRows
      rw [henv]
      simp only [PlainEngine.ops, hrm]
  | ok n =>
      left
      refine ⟨{ s with
        engine := s.engine.remove start len
        conv := { s.conv with
          streamTokens := s.conv.streamTokens.take start
            ++ s.conv.streamTokens.drop (start + len)
          currentPos := (s.conv.streamTokens.take start
            ++ s.conv.streamTokens.drop (start + len)).length } }, ?_, rfl,
              h.mirror.remove hle⟩
      unfold shiftRows
      rw [henv]
      simp only [PlainEngine.ops, hrm]

/-- After a removal the rollback point is set anew, so the old one does not
matter. -/
theorem shiftPrefill_inv (henv : env.engine = p.ops) (deltaToks : List Token)
    (hpos : s.conv.currentPos = s.conv.streamTokens.length)
    (hmirror : s.engine.Mirrors s.conv.streamTokens) :
    Inv (shiftPrefill env deltaToks s).2 := by
  have hsame : shiftPrefill env deltaToks s
      = shiftPrefill env deltaToks { s with conv :=
        { s.conv with turnPos := 0 } } := by
    unfold shiftPrefill
    show (if s.conv.needInsertEot then _ else _ : Turn (Store Token) M G R (List F)) s
      = (if s.conv.needInsertEot then _ else _ : Turn (Store Token) M G R (List F)) _
    cases s.conv.needInsertEot <;> rfl
  rw [hsame]
  exact (keeps_shiftPrefill henv deltaToks).inv _ ⟨hpos, Nat.zero_le _, hmirror⟩

theorem keeps_overflowPrefill (henv : env.engine = p.ops)
    (region : Option (Nat × Nat))
    (eotBudget : Nat) (deltaToks toks : List Token) :
    Keeps (overflowPrefill env region eotBudget deltaToks toks) := by
  refine ⟨fun s h => ?_⟩
  have hrerender : ∀ {s' : World (Store Token) M G R},
      (∀ k ∈ s'.engine.removed, k < s'.engine.clock) →
      Inv ((do return (← overflowRerender env toks, false) :
        Turn (Store Token) M G R (List F × Bool)) s').2 := by
    intro s' past
    rw [Turn.bind_pure]
    exact overflowRerender_inv henv toks past
  cases region with
  | none => exact hrerender h.mirror.past
  | some span =>
      obtain ⟨start, len⟩ := span
      show Inv ((if env.contextShiftEnabled ∧ len > 0
          ∧ start + len ≤ s.conv.currentPos
          ∧ s.conv.currentPos - len + eotBudget + deltaToks.length ≤ s.conv.nCtx then
        (shiftRows env start len >>= fun done =>
          if done then (do return (← shiftPrefill env deltaToks, true))
          else (do return (← overflowRerender env toks, false)))
        else (do return (← overflowRerender env toks, false)) :
        Turn (Store Token) M G R (List F × Bool)) s).2
      split
      · next hfits =>
        rcases shiftRows_cases henv h hfits.2.2.1
          with ⟨s', hrun, hpos, hmirror⟩ | ⟨s', hrun, past⟩
        · rw [Turn.bind_ok hrun, if_pos rfl, Turn.bind_pure]
          exact shiftPrefill_inv henv deltaToks hpos hmirror
        · rw [Turn.bind_ok hrun, if_neg (by decide)]
          exact hrerender past
      · exact hrerender h.mirror.past

theorem keeps_pushMessage (m : Message) :
    Keeps (pushMessage m : Turn (Store Token) M G R Unit) :=
  Keeps.modifyConv fun _ h => h.congr rfl rfl h.turn rfl

theorem keeps_overflowTurn (henv : env.engine = p.ops)
    (cfg : TurnParams F M G R) (input : Text)
    (eotWritten : Bool) (eotBudget : Nat) (deltaToks : List Token) :
    Keeps (overflowTurn env cfg input eotWritten eotBudget deltaToks) := by
  refine (keeps_pushMessage _).bind fun _ =>
    keeps_planOverflowDrop.bind fun plan => ?_
  refine Keeps.conv.bind fun c => Keeps.ite ?_ ?_
  · exact (Keeps.modifyConv fun _ h =>
      h.congr rfl rfl h.turn rfl).bind fun _ => Keeps.fail _
  · refine (keeps_overflowRegion ..).bind fun region => ?_
    refine (Keeps.modifyConv fun _ h => h.congr rfl rfl h.turn rfl).bind fun _ => ?_
    refine (keeps_renderFull true).bind fun full => ?_
    exact (keeps_overflowPrefill henv ..).bind fun _ => keeps_reply henv ..

theorem keeps_appendTurn (henv : env.engine = p.ops) (cfg : TurnParams F M G R)
    (input : Text)
    (deltaToks : List Token) : Keeps (appendTurn env cfg input deltaToks) := by
  refine (keeps_pushMessage _).bind fun _ => Keeps.conv.bind fun c => Keeps.ite ?_ ?_
  · refine (keeps_renderFull true).bind fun full =>
      Keeps.ite ?_ (keeps_rerender henv ..)
    exact (Keeps.modifyConv fun _ h =>
      h.congr rfl rfl h.turn rfl).bind fun _ => Keeps.fail _
  · refine (Keeps.modifyConv fun _ h =>
      h.congr rfl rfl (Nat.le_refl _) rfl).bind fun _ => ?_
    exact (keeps_appendForward henv _).bind fun _ => keeps_reply henv ..

theorem keeps_userTurn (henv : env.engine = p.ops) (cfg : TurnParams F M G R)
    (input : Text) :
    Keeps (userTurn env cfg input) := by
  refine Keeps.conv.bind fun c => ?_
  apply Keeps.ite
  · refine (keeps_insertEot henv).bind fun _ =>
      (keeps_formatSingle ..).bind fun delta => ?_
    apply Keeps.ite (Keeps.fail _)
    apply Keeps.ite
    · refine Keeps.conv.bind fun c => ?_
      exact Keeps.ite (keeps_overflowTurn henv ..) (keeps_appendTurn henv ..)
    · refine (keeps_pushMessage _).bind fun _ =>
        (keeps_renderFull true).bind fun full => ?_
      exact Keeps.ite (Keeps.fail _) (keeps_rerender henv ..)
  · refine (keeps_formatSingle ..).bind fun delta => ?_
    apply Keeps.ite (Keeps.fail _)
    apply Keeps.ite
    · refine Keeps.conv.bind fun c => ?_
      exact Keeps.ite (keeps_overflowTurn henv ..) (keeps_appendTurn henv ..)
    · refine (keeps_pushMessage _).bind fun _ =>
        (keeps_renderFull true).bind fun full => ?_
      exact Keeps.ite (Keeps.fail _) (keeps_rerender henv ..)

theorem keeps_regenTurn (henv : env.engine = p.ops) (cfg : TurnParams F M G R) :
    Keeps (regenTurn env cfg) := by
  refine Keeps.conv.bind fun c => Keeps.ite (Keeps.fail _) ?_
  have hrollback : Keeps (Turn.modifyConv fun c => { c with
      messages := c.messages.dropLast
      streamTokens := c.streamTokens.take c.turnPos
      currentPos := c.turnPos
      needInsertEot := false } : Turn (Store Token) M G R Unit) := by
    refine Keeps.modifyConv fun s h => ⟨?_, Nat.le_refl _, h.mirror.take _⟩
    show s.conv.turnPos = (s.conv.streamTokens.take s.conv.turnPos).length
    rw [List.length_take, ← h.pos, Nat.min_eq_left h.turn]
  refine hrollback.bind fun _ => Keeps.conv.bind fun c => ?_
  split
  · exact Keeps.fail _
  · next lastUser _ =>
    have htext : Keeps (replayText env lastUser) := by
      refine Keeps.conv.bind fun c => Keeps.ite (keeps_renderFull true) ?_
      exact (keeps_formatSingle ..).bind fun _ => Keeps.pure _
    refine htext.bind fun text =>
      Keeps.ite (Keeps.fail _) (Keeps.ite (Keeps.fail _) ?_)
    exact (keeps_appendForward henv _).bind fun _ => keeps_reply henv ..

theorem keeps_loadHistory (henv : env.engine = p.ops) (messages : List Message) :
    Keeps (loadHistory env messages) := by
  refine (Keeps.modifyConv fun s h =>
    h.congr rfl rfl (Nat.zero_le _) rfl).bind fun _ => ?_
  refine (keeps_renderFull false).bind fun full => ?_
  exact (keeps_rehydrateFull henv _).bind fun _ => Keeps.pure _

theorem keeps_clear (henv : env.engine = p.ops) : Keeps (clear env) := by
  refine ⟨fun s h => Inv.reset h.mirror.past rfl rfl rfl ?_⟩
  show env.engine.resetCache s.engine = _
  rw [henv]
  rfl

end Calls

-- ================================ runs

/-- A call of the session. -/
inductive Call (F M G R : Type) where
  | userTurn (cfg : TurnParams F M G R) (input : Text)
  | regenTurn (cfg : TurnParams F M G R)
  | loadHistory (messages : List Message)
  | clear

/-- The session after a call, returned or failed. -/
def Call.run {S : Type} (env : Setup S F M G R) (s : World S M G R) :
    Call F M G R → World S M G R
  | .userTurn cfg input => (Session.userTurn env cfg input s).2
  | .regenTurn cfg => (Session.regenTurn env cfg s).2
  | .loadHistory messages => (Session.loadHistory env messages s).2
  | .clear => (Session.clear env s).2

/-- A session on a plain engine, before its first call. -/
def freshWorld (spec : ConversationSpec M R) : World (Store Token) M G R :=
  ⟨Conversation.new spec, ⟨fun _ => none, 0, []⟩, []⟩

theorem freshWorld_inv (spec : ConversationSpec M R) :
    Inv (freshWorld spec : World (Store Token) M G R) where
  pos := rfl
  turn := Nat.le_refl 0
  mirror := @Store.Mirrors.reset Token ⟨fun _ => none, 0, []⟩ fun _ hk =>
    absurd hk List.not_mem_nil

/-- One call keeps the invariant. -/
theorem Call.run_inv {p : PlainEngine F} {env : Setup (Store Token) F M G R}
    (henv : env.engine = p.ops) (h : Inv s)
    (call : Call F M G R) : Inv (call.run env s) := by
  cases call with
  | userTurn cfg input => exact (keeps_userTurn henv cfg input).inv s h
  | regenTurn cfg => exact (keeps_regenTurn henv cfg).inv s h
  | loadHistory messages => exact (keeps_loadHistory henv messages).inv s h
  | clear => exact (keeps_clear henv).inv s h

/-- After any sequence of calls the stream is what the rows hold, and every
row was computed from the stream before it, up to removed rows. -/
theorem stream_mirrors_rows (p : PlainEngine F) (codec : TokenCodec)
    (template : Template) (shift : Bool) (spec : ConversationSpec M R)
    (calls : List (Call F M G R)) :
    let s : World (Store Token) M G R :=
      calls.foldl (fun s call => call.run ⟨p.ops, codec, template, shift⟩ s)
        (freshWorld spec)
    s.conv.currentPos = s.conv.streamTokens.length
      ∧ s.conv.turnPos ≤ s.conv.currentPos
      ∧ ∀ i < s.conv.currentPos, ∃ row, s.engine.rows i = some row
        ∧ s.conv.streamTokens[i]? = some row.input
        ∧ (row.seen.filter (Store.survives s.engine.removed)).map
          (Option.map Prod.snd)
          = (s.conv.streamTokens.take i).map some := by
  have hinv : ∀ (calls : List (Call F M G R)) (s : World (Store Token) M G R), Inv s →
      Inv (calls.foldl
          (fun s call => call.run ⟨p.ops, codec, template, shift⟩ s) s) := by
    intro calls
    induction calls with
    | nil => exact fun s h => h
    | cons call calls ih => exact fun s h => ih _ (Call.run_inv rfl h call)
  have h := hinv calls _ (freshWorld_inv spec)
  refine ⟨h.pos, h.turn, fun i hi => h.mirror.row ?_⟩
  rw [← h.pos]
  exact hi

end Minfer.Session
