/-
A turn that is refused for context (`user_turn`, `plan_overflow_drop`).

Nothing of a refused call stays but the EOT it may have written, the count of
its renders and the flag that says whether an EOT is still owed. The flag is
rebuilt from whether the EOT was written, not put back: that is the same
exactly when one was owed before.
-/
import Minfer.Lib.Attempt
import Minfer.Session.Proofs.Canonical

namespace Minfer.Session

open Minfer.Lib.Attempt
open Minfer.Server (Token)

variable {S F M G R α β : Type}

-- ============================= renders

/-- The same session after `k` renders. -/
def World.atRender (k : Nat) (s : World S M G R) : World S M G R :=
  { s with conv := { s.conv with renders := k } }

/-- A step that renders and does nothing else. -/
structure Renders (x : Turn S M G R α) : Prop where
  left : ∀ s, ∃ k, (x s).2 = s.atRender k
  refused : Raises (fun e => ∃ msg, e = .err (.template msg)) x

/-- An answer alone renders. -/
theorem Renders.pure (a : α) : Renders (Pure.pure a : Turn S M G R α) :=
  ⟨fun s => ⟨s.conv.renders, rfl⟩, Raises.pure a⟩

/-- Reading the conversation changes nothing. -/
theorem Renders.conv : Renders (Turn.conv : Turn S M G R _) :=
  ⟨fun s => ⟨s.conv.renders, rfl⟩, fun _ _ h => nomatch h⟩

variable {x : Turn S M G R α} {s : World S M G R}

/-- Two renders in sequence. -/
theorem Renders.bind {f : α → Turn S M G R β}
    (hx : Renders x) (hf : ∀ a, Renders (f a)) :
    Renders (x >>= f) where
  left := by
    intro s
    obtain ⟨k, hk⟩ := hx.left s
    rw [run_bind]
    cases hrun : x s with
    | mk out s' =>
        rw [hrun] at hk
        cases out with
        | ok a =>
            obtain ⟨k', hk'⟩ := (hf a).left s'
            refine ⟨k', hk'.trans ?_⟩
            rw [show s' = s.atRender k from hk]
            rfl
        | error e => exact ⟨k, hk⟩
  refused := hx.refused.bind fun a => (hf a).refused

/-- Either branch renders. -/
theorem Renders.ite {c : Prop} [Decidable c] {y : Turn S M G R α}
    (hx : Renders x) (hy : Renders y) :
    Renders (if c then x else y) := by
  split
  · exact hx
  · exact hy

section Plan

variable (env : Setup S F M G R)

/-- Rendering a list of messages may fail, and changes nothing but the count of
renders. -/
theorem renders_messages (messages : List Message) (addGen : Bool) :
    Renders (renderMessagesWith env messages addGen) where
  left := by
    intro s
    refine ⟨s.conv.renders + 1, ?_⟩
    rw [renderMessagesWith, run_bind, Turn.run_conv]
    dsimp only
    rw [run_bind, Turn.run_modifyConv]
    cases env.template s.conv.renders messages addGen with
    | error msg => rfl
    | ok text => rfl
  refused := by
    refine Renders.conv.refused.bind fun c =>
      Raises.bind (fun _ _ h => nomatch h) fun _ => ?_
    split
    next msg _ => exact Raises.throw ⟨msg, rfl⟩
    next text _ => exact Raises.pure text

/-- So does rendering the whole conversation, -/
theorem renders_full (addGen : Bool) : Renders (renderFull env addGen) :=
  Renders.conv.bind fun c => renders_messages env c.messages addGen

/-- rendering one message more, -/
theorem renders_formatSingle (messages : List Message) (new : Message) :
    Renders (formatSingle env messages new) := by
  have hpast : Renders (renderPast env messages) :=
    Renders.ite (Renders.pure []) (renders_messages env messages false)
  exact hpast.bind fun past => (renders_messages env _ true).bind fun new =>
    Renders.ite (Renders.pure _) (Renders.pure _)

/-- looking for the exchange to drop, -/
theorem renders_planLoop (fuel : Nat) (msgs : List Message)
    (first : Option Nat) (end_ removed : Nat) :
    Renders (planLoop env fuel msgs first end_ removed) := by
  induction fuel generalizing msgs first end_ removed with
  | zero => exact Renders.pure _
  | succ fuel ih =>
      refine (renders_messages env msgs true).bind fun full =>
        Renders.conv.bind fun c => Renders.ite (Renders.pure _) ?_
      split
      · exact Renders.pure _
      · exact ih ..

/-- planning a drop as a whole, -/
theorem renders_planOverflowDrop : Renders (planOverflowDrop env) :=
  Renders.conv.bind fun _ => (renders_planLoop env _ _ _ _ _).bind fun _ =>
    Renders.pure _

/-- finding where a message ends in the stream, -/
theorem renders_streamBoundary (upto : Nat) : Renders (streamBoundary env upto) :=
  Renders.conv.bind fun _ => Renders.ite (Renders.pure _) <|
    Renders.ite (Renders.pure _) <|
    (renders_messages env _ false).bind fun _ => Renders.pure _

/-- and finding the rows that a drop would free. -/
theorem renders_overflowRegion (first count : Nat) :
    Renders (overflowRegion env first count) :=
  Renders.ite (Renders.pure _) <| (renders_streamBoundary env first).bind fun _ =>
    (renders_streamBoundary env _).bind fun _ => Renders.pure _

-- ================================ full

/-- Not a refusal for context. -/
def NotFull (e : Exit) : Prop := ∀ needed available, e ≠ .err
    (.contextFull needed available)

/-- A render is never what fills the context. -/
theorem Renders.notFull {x : Turn S M G R α} (h : Renders x) : Raises NotFull x := by
  intro s e he
  obtain ⟨msg, rfl⟩ := h.refused s e he
  exact nofun

/-- Nor is reading the conversation, -/
theorem notFull_conv : Raises NotFull (Turn.conv : Turn S M G R _) :=
  fun _ _ h => nomatch h

/-- or writing it. -/
theorem notFull_modifyConv (f : Conversation M G R → Conversation M G R) :
    Raises NotFull (Turn.modifyConv f : Turn S M G R Unit) := fun _ _ h => nomatch h

/-- The plain generation loop stops at the context limit with an answer, not
with the refusal. -/
theorem decodeLoop_notFull (eng : Engine S F M G R) (codec : TokenCodec)
    (cfg : TurnParams F M G R) (budget : Nat) (logits : List F) (g : Gen)
    (s : World S M G R) {e : Exit} {s' : World S M G R}
    (h : decodeLoop eng codec cfg budget logits g s = (.error e, s')) :
    NotFull e := by
  induction budget generalizing logits g s with
  | zero => cases h
  | succ budget ih =>
      rw [decodeLoop] at h
      split at h
      · cases h
      · split at h
        · cases h
          simp [NotFull]
        · dsimp only at h
          split at h
          · cases h
          · split at h
            · cases h
            · exact ih _ _ _ h

/-- So does the speculative one. -/
theorem specLoop_notFull (eng : Engine S F M G R) (codec : TokenCodec)
    (cfg : TurnParams F M G R) (fuel : Nat) (seed : Token) (g : Gen)
    (s : World S M G R) {e : Exit} {s' : World S M G R}
    (h : specLoop eng codec cfg fuel seed g s = (.error e, s')) : NotFull e := by
  induction fuel generalizing seed g s with
  | zero =>
      cases h
      exact nofun
  | succ fuel ih =>
      rw [specLoop] at h
      split at h
      · cases h
      · split at h
        · cases h
        · split at h
          · cases h
          · split at h
            · cases h
              exact nofun
            · dsimp only at h
              split at h
              · split at h
                · cases h
                  exact nofun
                · exact ih _ _ _ h
              · cases h
              · cases h

/-- So does generating an answer, by either loop. -/
theorem generate_notFull (cfg : TurnParams F M G R) (logits : List F) :
    Raises NotFull
      (fun s => generateAssistantWithLogits env.engine env.codec cfg logits s :
        Turn S M G R TurnOutcome) := by
  intro s e h
  cases hrun : generateAssistantWithLogits env.engine env.codec cfg logits s with
  | mk out s' =>
  obtain rfl : out = .error e := (congrArg Prod.fst hrun).symm.trans h
  clear h
  rw [generateAssistantWithLogits] at hrun
  split at hrun
  · split at hrun
    · cases hrun
      simp [NotFull]
    · rw [generateAssistantSpec] at hrun
      dsimp only at hrun
      split at hrun
      · cases hrun
        simp [NotFull]
      · split at hrun
        next e' s₁ hloop =>
          cases hrun
          exact specLoop_notFull _ _ _ _ _ _ _ hloop
        next => cases hrun
  · rw [generateAssistantPlain] at hrun
    split at hrun
    next e' s₁ hloop =>
      cases hrun
      exact decodeLoop_notFull _ _ _ _ _ _ _ hloop
    next => cases hrun

/-- The turn's answer is never the refusal. -/
theorem reply_notFull (cfg : TurnParams F M G R) (logits : List F)
    (prefill dropped : Nat) :
    Raises NotFull (reply env cfg logits prefill dropped) :=
  (notFull_modifyConv _).bind fun _ =>
    (generate_notFull env cfg logits).bind fun _ => Raises.pure _

/-- Forwarding the delta checks nothing. -/
theorem appendForward_notFull (toks : List Token) : Raises NotFull
    (appendForward env toks) := fun _ _ h => nomatch h

/-- Feeding a whole render checks nothing. -/
theorem rehydrateFull_notFull (toks : List Token) : Raises NotFull
    (rehydrateFull env toks) :=
  (Raises.modify _).bind fun _ =>
    Raises.ite (Raises.pure _) (appendForward_notFull env toks)

/-- A turn that feeds a whole render is not refused. -/
theorem rerender_notFull (cfg : TurnParams F M G R) (toks : List Token) :
    Raises NotFull (rerender env cfg toks) :=
  (rehydrateFull_notFull env toks).bind fun _ => reply_notFull env cfg _ _ _

/-- The refusal of an empty input is another one. -/
theorem emptyInput_notFull : Raises NotFull
    (Turn.fail .emptyInput : Turn S M G R α) := Raises.throw nofun

/-- A turn that appends its delta is refused before it starts or not at all. -/
theorem appendTurn_notFull (cfg : TurnParams F M G R) (input : Text)
    (deltaToks : List Token) :
    Raises NotFull (appendTurn env cfg input deltaToks) := by
  refine (notFull_modifyConv _).bind fun _ => notFull_conv.bind fun c =>
    Raises.ite ?_ ?_
  · exact (renders_full env true).notFull.bind fun full => Raises.ite
      ((notFull_modifyConv _).bind fun _ => emptyInput_notFull)
        (rerender_notFull env cfg _)
  · exact (notFull_modifyConv _).bind fun _ =>
      (appendForward_notFull env _).bind fun _ => reply_notFull env cfg _ _ _

/-- The re-render after a drop is not refused, -/
theorem overflowRerender_notFull (toks : List Token) :
    Raises NotFull (overflowRerender env toks) :=
  (notFull_modifyConv _).bind fun _ => rehydrateFull_notFull env toks

/-- nor is the end-of-turn token that is owed, -/
theorem insertEot_notFull : Raises NotFull (insertEot env) := fun _ _ h => nomatch h

/-- nor the forward after a shift, -/
theorem shiftPrefill_notFull (deltaToks : List Token) :
    Raises NotFull (shiftPrefill env deltaToks) := by
  have hrest : Raises NotFull (do
      Turn.modifyConv fun c => { c with turnPos := c.currentPos }
      appendForward env deltaToks : Turn S M G R (List F)) :=
    (notFull_modifyConv _).bind fun _ => appendForward_notFull env deltaToks
  exact notFull_conv.bind fun _ =>
    Raises.ite ((insertEot_notFull env).bind fun _ => hrest) hrest

/-- nor the shift itself, -/
theorem shiftRows_notFull (start len : Nat) : Raises NotFull
    (shiftRows env start len) := by
  intro s e h
  rw [shiftRows] at h
  split at h
  · cases h
  · cases h

/-- nor the prefill of an overflowing turn, in either form, -/
theorem overflowPrefill_notFull (region : Option (Nat × Nat)) (eotBudget : Nat)
    (deltaToks toks : List Token) :
    Raises NotFull (overflowPrefill env region eotBudget deltaToks toks) := by
  have hagain :
      Raises NotFull
      (do return (← overflowRerender env toks, false) :
        Turn S M G R (List F × Bool)) :=
    (overflowRerender_notFull env toks).bind fun _ => Raises.pure _
  refine notFull_conv.bind fun c => ?_
  split
  · refine Raises.ite ?_ hagain
    refine (shiftRows_notFull env _ _).bind fun done => Raises.ite ?_ hagain
    exact (shiftPrefill_notFull env deltaToks).bind fun _ => Raises.pure _
  · exact hagain

/-- The overflow branch once something is to be dropped. -/
def droppedTurn (cfg : TurnParams F M G R) (eotBudget : Nat)
    (deltaToks : List Token) (first dropped : Nat) :
    Turn S M G R TurnOutcome := do
  let region ← overflowRegion env first dropped
  Turn.modifyConv fun c => { c with
    messages := c.messages.take first ++ c.messages.drop (first + dropped) }
  let full ← renderFull env true
  let toks := env.codec.encode full
  let (logits, usedShift) ← overflowPrefill env region eotBudget deltaToks toks
  reply env cfg logits (if usedShift then deltaToks.length else toks.length)
    (dropped / 2)

/-- nor the turn, once an exchange was dropped. -/
theorem droppedTurn_notFull (cfg : TurnParams F M G R) (eotBudget : Nat)
    (deltaToks : List Token) (first dropped : Nat) :
    Raises NotFull (droppedTurn env cfg eotBudget deltaToks first dropped) :=
  (renders_overflowRegion env first dropped).notFull.bind fun _ =>
      (notFull_modifyConv _).bind fun _ =>
    (renders_full env true).notFull.bind fun _ =>
        (overflowPrefill_notFull env _ _ _ _).bind fun _ =>
      reply_notFull env cfg _ _ _

end Plan

-- ============================ overflow

variable {env : Setup S F M G R} {cfg : TurnParams F M G R}

/-- What a step that may refuse does with the flag: refused, it takes the new
flag and keeps the rest; otherwise the flag has no part in it. -/
def RefusedOrSame (x : Bool → Turn S M G R α) (s : World S M G R) : Prop :=
  (∃ needed available k, ∀ written,
      x written s = (.error (.err (.contextFull needed available)),
      ({ s with conv := { s.conv with needInsertEot := !written } } :
        World S M G R).atRender k))
    ∨ ∃ out s', (∀ written, x written s = (out, s')) ∧ ∀ e, out = .error e → NotFull e

/-- A step that does not look at the flag and is not refused. -/
theorem RefusedOrSame.of_notFull (h : Raises NotFull x) (s : World S M G R) :
    RefusedOrSame (fun _ => x) s := .inr ⟨(x s).1, (x s).2, fun _ => rfl, h s⟩

/-- Either branch, when the test does not look at the flag. -/
theorem RefusedOrSame.ite {c : Prop} [Decidable c]
    {x y : Bool → Turn S M G R α}
    (hx : RefusedOrSame x s) (hy : RefusedOrSame y s) :
    RefusedOrSame (fun written => if c then x written else y written) s := by
  split
  · exact hx
  · exact hy

/-- A step that renders, then one that may refuse. -/
theorem RefusedOrSame.bind {f : Bool → α → Turn S M G R β} (hx : Renders x)
    (hf : ∀ a k, RefusedOrSame (fun written => f written a) (s.atRender k)) :
    RefusedOrSame (fun written => x >>= f written) s := by
  obtain ⟨k, hk⟩ := hx.left s
  cases hrun : x s with
  | mk out s₁ =>
  obtain rfl : s₁ = s.atRender k := by rw [← hk, hrun]
  cases out with
  | ok a =>
      have hstep : ∀ written, (x >>= f written) s
        = f written a (s.atRender k) := fun written => Turn.bind_ok hrun
      obtain ⟨needed, available, k', hfull⟩ | ⟨out, s', hsame, hout⟩ := hf a k
      · exact .inl ⟨needed, available, k', fun written =>
          (hstep written).trans (hfull written)⟩
      · exact .inr
          ⟨out, s', fun written => (hstep written).trans (hsame written), hout⟩
  | error e =>
      refine .inr ⟨.error e, s.atRender k, fun written => Turn.bind_error hrun, ?_⟩
      intro e' he
      cases he
      exact hx.notFull s e (congrArg Prod.fst hrun)

/-- The session with one more message. -/
def World.pushed (m : Message) (s : World S M G R) : World S M G R :=
  { s with conv := { s.conv with messages := s.conv.messages ++ [m] } }

/-- An overflowing turn refuses before it changes anything, or does not depend
on the flag that was set. -/
theorem overflowTurn_refused (env : Setup S F M G R) (cfg : TurnParams F M G R)
    (input : Text) (eotBudget : Nat)
    (deltaToks : List Token) (s : World S M G R) :
    RefusedOrSame
      (fun written => overflowTurn env cfg input written eotBudget deltaToks)
      s := by
  have hpush : pushMessage ⟨"user", some input⟩ s
    = (.ok (), s.pushed ⟨"user", some input⟩) := rfl
  obtain ⟨k, hk⟩ :=
    (renders_planOverflowDrop env).left (s.pushed ⟨"user", some input⟩)
  cases hplan : planOverflowDrop env (s.pushed ⟨"user", some input⟩) with
  | mk out s₁ =>
  obtain rfl : s₁ = (s.pushed ⟨"user", some input⟩).atRender k := by rw [← hk, hplan]
  cases out with
  | error e =>
      refine .inr ⟨.error e, _, fun written =>
        (Turn.bind_ok hpush).trans (Turn.bind_error hplan), ?_⟩
      intro e' he
      cases he
      exact (renders_planOverflowDrop env).notFull _ e (congrArg Prod.fst hplan)
  | ok plan =>
      obtain ⟨first, dropped⟩ := plan
      have hstep : ∀ written, overflowTurn env cfg input written eotBudget deltaToks s
          = if dropped = 0 then
              (.error (.err
                (.contextFull
                  (s.conv.currentPos + eotBudget + deltaToks.length)
                  s.conv.nCtx)),
                ({ s with conv := { s.conv with
                    messages := (s.conv.messages
                      ++ [(⟨"user", some input⟩ : Message)]).dropLast
                    needInsertEot := !written } } : World S M G R).atRender k)
            else droppedTurn env cfg eotBudget deltaToks first dropped
                ((s.pushed ⟨"user", some input⟩).atRender k) := by
        intro written
        refine (Turn.bind_ok hpush).trans
          ((Turn.bind_ok hplan).trans
            ((Turn.bind_ok (Turn.run_conv _)).trans ?_))
        dsimp only
        split
        next hzero =>
          subst hzero
          rfl
        next hzero => rfl
      by_cases hzero : dropped = 0
      · refine .inl ⟨s.conv.currentPos + eotBudget + deltaToks.length,
          s.conv.nCtx, k, fun written => (hstep written).trans ?_⟩
        rw [if_pos hzero, List.dropLast_concat]
      · refine .inr ⟨_, _, fun written => (hstep written).trans (if_neg hzero), ?_⟩
        exact droppedTurn_notFull env cfg eotBudget deltaToks first dropped _

-- ================================ turn

/-- `user_turn` once the pending EOT is dealt with. -/
def enteredTurn (env : Setup S F M G R) (cfg : TurnParams F M G R)
    (input : Text) (messages : List Message)
    (eotWritten : Bool) : Turn S M G R TurnOutcome := do
  let (text, prefixMatched) ← formatSingle env messages ⟨"user", some input⟩
  let deltaToks := env.codec.encode text
  if deltaToks = [] then Turn.fail .emptyInput
  else if prefixMatched then
    let c ← Turn.conv
    let eotBudget := if c.needInsertEot then 1 else 0
    if c.currentPos + eotBudget + deltaToks.length > c.nCtx then
      overflowTurn env cfg input eotWritten eotBudget deltaToks
    else appendTurn env cfg input deltaToks
  else
    pushMessage ⟨"user", some input⟩
    let full ← renderFull env true
    let toks := env.codec.encode full
    if toks = [] then Turn.fail .emptyInput else rerender env cfg toks

/-- The EOT is written: one is owed and there is room for it. -/
def World.eotWritten (s : World S M G R) : Bool :=
  s.conv.needInsertEot ∧ s.conv.currentPos < s.conv.nCtx

/-- The session once `user_turn` has dealt with the pending EOT. -/
def World.entered (s : World S M G R) (env : Setup S F M G R) : World S M G R :=
  if s.eotWritten then (insertEot env s).2 else s

/-- A user turn sets the pending message and the flag, and goes on from there.
-/
theorem userTurn_entered (env : Setup S F M G R) (cfg : TurnParams F M G R)
    (input : Text) (s : World S M G R) :
    userTurn env cfg input s
      = enteredTurn env cfg input s.conv.messages s.eotWritten
      (s.entered env) := by
  refine (Turn.bind_ok (Turn.run_conv s)).trans ?_
  dsimp only
  by_cases hw : s.conv.needInsertEot = true ∧ s.conv.currentPos < s.conv.nCtx
  · have hwritten : s.eotWritten = true := decide_eq_true hw
    have heot : insertEot env s = (.ok (), (insertEot env s).2) := rfl
    rw [if_pos hw, World.entered, if_pos hwritten, hwritten]
    refine (Turn.bind_ok heot).trans ?_
    simp only [hw, and_self, decide_true]
    rfl
  · have hwritten : s.eotWritten = false := decide_eq_false hw
    rw [if_neg hw, World.entered, hwritten, if_neg Bool.false_ne_true]
    simp only [hw, decide_false]
    rfl

/-- The turn from there on, by its three paths. -/
theorem enteredTurn_refused (env : Setup S F M G R) (cfg : TurnParams F M G R)
    (input : Text) (messages : List Message) (s : World S M G R) :
    RefusedOrSame (enteredTurn env cfg input messages) s := by
  refine RefusedOrSame.bind (renders_formatSingle env messages _) fun delta k => ?_
  obtain ⟨text, prefixMatched⟩ := delta
  dsimp only
  split
  · exact .of_notFull emptyInput_notFull _
  · split
    · refine RefusedOrSame.bind Renders.conv fun c _ => ?_
      exact RefusedOrSame.ite (overflowTurn_refused env cfg input _ _ _)
        (.of_notFull (appendTurn_notFull env cfg input _) _)
    · refine .of_notFull
        ((notFull_modifyConv _).bind fun _ =>
          (renders_full env true).notFull.bind fun full => ?_) _
      exact Raises.ite emptyInput_notFull (rerender_notFull env cfg _)

/-- What a call refused for context may leave: the EOT the previous turn owed,
and a session that no call that is not refused tells from the one before. -/
structure LeftAsItWas (env : Setup S F M G R) (s s' : World S M G R) : Prop where
  messages : s'.conv.messages = s.conv.messages
  turnPos : s'.conv.turnPos = s.conv.turnPos
  streamTokens : s'.conv.streamTokens = s.conv.streamTokens ++ if s.eotWritten
    then [s.conv.eot] else []
  currentPos : s'.conv.currentPos = s.conv.currentPos + if s.eotWritten then 1 else 0
  needInsertEot : s'.conv.needInsertEot = true
    ↔ s.conv.needInsertEot = true ∧ s.eotWritten = false
  following : ∀ (cfg : TurnParams F M G R) input,
    (∀ e, (userTurn env cfg input s).1 = .error e → NotFull e) →
    userTurn env cfg input (s'.atRender s.conv.renders) = userTurn env cfg input s

/-- What a refused call leaves, exactly. -/
theorem userTurn_refused_left {input : Text} {needed available : Nat}
    {s' : World S M G R} (h : userTurn env cfg input s
      = (.error (.err (.contextFull needed available)), s')) :
    ∃ k, s' = ({ s.entered env with conv := { (s.entered env).conv with
      needInsertEot := !s.eotWritten } } : World S M G R).atRender k := by
  rw [userTurn_entered] at h
  obtain ⟨needed', available', k, hfull⟩ | ⟨out, s₁, hsame, hout⟩ :=
    enteredTurn_refused env cfg input s.conv.messages (s.entered env)
  · refine ⟨k, ?_⟩
    exact (Prod.mk.inj (h.symm.trans (hfull _))).2
  · obtain ⟨rfl, -⟩ := Prod.mk.inj (h.symm.trans (hsame _))
    exact absurd rfl (hout _ rfl needed available)

/-- A call that is not refused for context has no use for whether the EOT was
written by it or before. -/
theorem userTurn_eq_of_entered {input : Text} {s' : World S M G R}
    (hmessages : s'.conv.messages = s.conv.messages)
    (hentered : s'.entered env = s.entered env)
    (hfits : ∀ e, (userTurn env cfg input s).1 = .error e → NotFull e) :
    userTurn env cfg input s' = userTurn env cfg input s := by
  rw [userTurn_entered] at hfits
  rw [userTurn_entered, userTurn_entered, hmessages, hentered]
  obtain ⟨needed, available, k, hfull⟩ | ⟨out, s₁, hsame, -⟩ :=
    enteredTurn_refused env cfg input s.conv.messages (s.entered env)
  · have hnot := hfits _ (congrArg Prod.fst (hfull s.eotWritten))
    exact absurd rfl (hnot needed available)
  · exact (hsame _).trans (hsame _).symm

/-- With the flag set before the call, the rollback restores it. -/
theorem leftAsItWas_of_written (hw : s.eotWritten = true) (k : Nat) :
    LeftAsItWas env s (({ s.entered env with conv := { (s.entered env).conv with
      needInsertEot := !s.eotWritten } } : World S M G R).atRender k) := by
  have hentered : s.entered env = (insertEot env s).2 := by
    rw [World.entered, if_pos hw]
  have hleft : ({ s.entered env with conv := { (s.entered env).conv with
      needInsertEot := !s.eotWritten } } : World S M G R) = s.entered env := by
    rw [hentered, hw]
    rfl
  rw [hleft, hentered]
  refine ⟨rfl, rfl, by rw [if_pos hw]; rfl, by rw [if_pos hw]; rfl, ?_,
    fun cfg input hfits => ?_⟩
  · rw [hw]
    exact ⟨nofun, nofun⟩
  · refine userTurn_eq_of_entered rfl ?_ hfits
    rw [hentered]
    rfl

/-- With the flag clear it is restored too, whatever was rendered. -/
theorem leftAsItWas_atRender (hw : s.eotWritten = false) (k : Nat) :
    LeftAsItWas env s (s.atRender k) := by
  refine ⟨rfl, rfl, ?_, ?_, ?_, fun cfg input hfits => rfl⟩
  · rw [hw]
    exact (List.append_nil _).symm
  · rw [hw]
    rfl
  · exact ⟨fun h => ⟨h, hw⟩, And.left⟩

/-- A turn refused for context leaves the session as it was exactly when the
previous turn owed an EOT: the flag is set again without a look at what it
was. -/
theorem refused_leftAsItWas_iff (env : Setup S F M G R)
    (cfg : TurnParams F M G R) (input : Text) (needed available : Nat)
    (s s' : World S M G R) (h : userTurn env cfg input s
      = (.error (.err (.contextFull needed available)), s')) :
    LeftAsItWas env s s' ↔ s.conv.needInsertEot = true := by
  obtain ⟨k, rfl⟩ := userTurn_refused_left h
  constructor
  · intro hleft
    by_contra hnone
    have hwritten : s.eotWritten = false := decide_eq_false fun hw => hnone hw.1
    have hflag :=
      hleft.needInsertEot.1 (show (!s.eotWritten) = true by rw [hwritten]; rfl)
    exact hnone hflag.1
  · intro howed
    by_cases hw : s.eotWritten = true
    · exact leftAsItWas_of_written hw k
    · have hnot : s.eotWritten = false := Bool.eq_false_iff.2 hw
      have hentered : s.entered env = s := if_neg hw
      have hsame :
          ({ s with conv := { s.conv with needInsertEot := !s.eotWritten } } :
            World S M G R) = s := by
        rw [hnot, Bool.not_false, ← howed]
      rw [hentered, hsame]
      exact leftAsItWas_atRender hnot k

-- ============================= samples

/-- A fresh session over a context of 64 tokens. -/
def smallContext : World Unit Unit Unit (List Token) :=
  ⟨Conversation.new { scriptedSpec [97, 256] with nCtx := 64 }, (), []⟩

/-- A message that is too long for it. -/
def longMessage : Text := List.replicate 64 'a'

/-- A fresh session that was asked a message too long for it. -/
def refusedOnce : World Unit Unit Unit (List Token) :=
  (userTurn scriptedSetup (stoppingAt ['!']) longMessage smallContext).2

/-- The first message of a session is too long. Nothing was owed, and now an
EOT is: the next turn that fits opens with it. -/
theorem refused_first_turn_owes_eot :
    (∃ needed, (userTurn scriptedSetup (stoppingAt ['!']) longMessage smallContext).1
      = .error (.err (.contextFull needed 64)))
    ∧ ¬ LeftAsItWas scriptedSetup smallContext refusedOnce
    ∧ (userTurn scriptedSetup (stoppingAt ['!'])
      ['q'] refusedOnce).2.conv.streamTokens.head? = some 256
    ∧ (userTurn scriptedSetup (stoppingAt ['!'])
      ['q'] smallContext).2.conv.streamTokens.head? = some 60 := by
  refine ⟨⟨114, by decide +kernel⟩, fun hleft => ?_, by decide +kernel,
    by decide +kernel⟩
  have hflag := hleft.needInsertEot.1 (by decide +kernel)
  exact absurd hflag.1 (by decide +kernel)

/-- A second message that is too long, when the first one left an EOT to
write. -/
theorem refused_second_turn_left : ∃ s, LeftAsItWas scriptedSetup refusedOnce s := by
  have howed : refusedOnce.conv.needInsertEot = true := by decide +kernel
  have hrefused :
      (userTurn scriptedSetup (stoppingAt ['!']) longMessage refusedOnce).1
      = .error (.err (.contextFull 115 64)) := by decide +kernel
  have hrun : userTurn scriptedSetup (stoppingAt ['!']) longMessage refusedOnce
      = (.error (.err (.contextFull 115 64)),
      (userTurn scriptedSetup (stoppingAt ['!']) longMessage refusedOnce).2) := by
    rw [← hrefused, Prod.eta]
  exact ⟨_, (refused_leftAsItWas_iff scriptedSetup
    (stoppingAt ['!']) longMessage 115 64 refusedOnce _ hrun).2 howed⟩

end Minfer.Session
