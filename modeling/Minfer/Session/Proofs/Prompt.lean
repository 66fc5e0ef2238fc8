/-
The prompt of a turn (`conversation.rs`, `user_turn` and `regen_turn` up to
the reply), under the ChatML fallback.

When nothing overflows, a turn is its prompt and a reply
(`userTurn_reply`, `regenTurn_reply`): the EOT that is owed, then either
the delta of the message or, in an empty stream, the whole render. A
regenerated turn cuts the stream back and feeds the same text again.
-/
import Minfer.Session.Proofs.Reply

namespace Minfer.Session

open Minfer.Lib (utf8Encode)
open Minfer.Server (Token)

variable {S F M G R α : Type}

-- ============================= prompts

theorem Turn.run_bind {β : Type} (x : Turn S M G R α) (f : α → Turn S M G R β)
    (s : World S M G R) : (x >>= f) s
      = match x s with
        | (.ok a, s') => f a s'
        | (.error e, s') => (.error e, s') := by
  cases hx : x s with
  | mk out s' =>
  cases out with
  | ok a => exact Turn.bind_ok hx
  | error e => exact Turn.bind_error hx

theorem Turn.run_conv (s : World S M G R) : Turn.conv s = (.ok s.conv, s) := rfl

theorem Turn.run_modifyConv (f : Conversation M G R → Conversation M G R)
    (s : World S M G R) :
    Turn.modifyConv f s = (.ok (), { s with conv := f s.conv }) := rfl

section Prompts

variable {env : Setup S F M G R}

/-- The end of `user_turn` before its reply, where nothing overflows. -/
def appendPrompt (env : Setup S F M G R) (input text : Text) :
    Turn S M G R (List F × Nat) := do
  pushMessage ⟨"user", some input⟩
  let c ← Turn.conv
  if c.currentPos = 0 then
    let full ← renderFull env true
    let logits ← rehydrateFull env (env.codec.encode full)
    return (logits, (env.codec.encode full).length)
  else
    Turn.modifyConv fun c => { c with turnPos := c.currentPos }
    let logits ← appendForward env (env.codec.encode text)
    return (logits, (env.codec.encode text).length)

/-- `user_turn` before its reply. -/
def userPrompt (env : Setup S F M G R) (input : Text) :
    Turn S M G R (List F × Nat) := do
  let c ← Turn.conv
  if c.needInsertEot ∧ c.currentPos < c.nCtx then insertEot env
  let (text, _) ← formatSingle env c.messages ⟨"user", some input⟩
  appendPrompt env input text

/-- `regen_turn` before its reply. -/
def regenPrompt (env : Setup S F M G R) : Turn S M G R (List F × Nat) := do
  let c ← Turn.conv
  if (c.messages.getLast?.map (·.role)) ≠ some "assistant"
    then Turn.fail .nothingToRegen
  else
    Turn.modifyConv fun c => { c with
      messages := c.messages.dropLast
      streamTokens := c.streamTokens.take c.turnPos
      currentPos := c.turnPos
      needInsertEot := false }
    let c ← Turn.conv
    match c.messages.getLast?.bind (·.content) with
    | none => Turn.fail .nothingToRegen
    | some lastUser =>
        let text ← replayText env lastUser
        let logits ← appendForward env (env.codec.encode text)
        return (logits, (env.codec.encode text).length)

theorem renderMessagesWith_chatml (htemplate : env.template = chatml)
    (messages : List Message) (addGen : Bool) (s : World S M G R) :
    ∃ k, renderMessagesWith env messages addGen s
      = (.ok (fallbackChatmlMessages messages addGen),
          { s with conv := { s.conv with renders := k } }) := by
  refine ⟨s.conv.renders + 1, ?_⟩
  unfold renderMessagesWith
  rw [Turn.run_bind, Turn.run_conv]
  dsimp only
  rw [Turn.run_bind, Turn.run_modifyConv, htemplate]
  rfl

theorem renderFull_chatml (htemplate : env.template = chatml) (addGen : Bool)
    (s : World S M G R) : ∃ k, renderFull env addGen s
      = (.ok (fallbackChatmlMessages s.conv.messages addGen),
          { s with conv := { s.conv with renders := k } }) := by
  unfold renderFull
  rw [Turn.run_bind, Turn.run_conv]
  exact renderMessagesWith_chatml htemplate ..

/-- The diff of two renders of the fallback. -/
theorem formatSingle_chatml (htemplate : env.template = chatml) (past : List Message)
    (new : Message) (s : World S M G R) : ∃ k, formatSingle env past new s
      = (.ok (chatmlDelta past new, true),
        { s with conv := { s.conv with renders := k } }) := by
  have hpast : ∃ k, renderPast env past s = (.ok (fallbackChatmlMessages past false),
      { s with conv := { s.conv with renders := k } }) := by
    unfold renderPast
    by_cases hnil : past = []
    · rw [if_pos hnil, hnil]
      exact ⟨s.conv.renders, rfl⟩
    · rw [if_neg hnil]
      exact renderMessagesWith_chatml htemplate ..
  obtain ⟨k, hk⟩ := hpast
  obtain ⟨k', hk'⟩ := renderMessagesWith_chatml htemplate (past ++ [new]) true
    { s with conv := { s.conv with renders := k } }
  have hnew : fallbackChatmlMessages (past ++ [new]) true
      = fallbackChatmlMessages past false
        ++ (chatmlMessage new ++ assistantHeader) := by
    simp [fallbackChatmlMessages]
  refine ⟨k', ?_⟩
  unfold formatSingle
  rw [Turn.bind_ok hk, Turn.bind_ok hk',
    if_pos (by rw [hnew]; exact List.prefix_append ..), hnew,
    List.drop_left, getLast?_chatml, chatmlDelta, List.append_assoc]
  by_cases hnil : past = []
  · rw [if_pos hnil, if_pos hnil]
    rfl
  · rw [if_neg hnil, if_neg hnil]
    rfl

theorem appendForward_run (toks : List Token) (s : World S M G R) : ∃ logits e,
    appendForward env toks s = (.ok logits, { s with
      engine := e
      conv := { s.conv with
        streamTokens := s.conv.streamTokens ++ toks
        currentPos := s.conv.currentPos + toks.length } }) := ⟨_, _, rfl⟩

theorem rehydrateFull_run {toks : List Token} (hne : toks ≠ []) (s : World S M G R) :
    ∃ logits e, rehydrateFull env toks s = (.ok logits, { s with
      engine := e
      conv := { s.conv with
        streamTokens := toks, currentPos := toks.length, turnPos := 0 } }) := by
  obtain ⟨logits, e, hrun⟩ := @appendForward_run S F M G R env toks { s with
    engine := env.engine.resetCache s.engine
    conv := { s.conv with streamTokens := [], currentPos := 0, turnPos := 0 } }
  refine ⟨logits, e, ?_⟩
  unfold rehydrateFull
  rw [if_neg hne]
  refine Eq.trans ?_ (hrun.trans ?_)
  · rfl
  · dsimp only
    rw [List.nil_append, Nat.zero_add]

theorem insertEot_run (s : World S M G R) : ∃ e, insertEot env s = (.ok (), { s with
    engine := e
    conv := { s.conv with
      streamTokens := s.conv.streamTokens ++ [s.conv.eot]
      currentPos := s.conv.currentPos + 1
      needInsertEot := false } }) := ⟨_, rfl⟩

/-- What a prompt leaves: the user's message, and either the whole render in
an empty stream or the delta behind it. -/
structure UserPrompted (codec : TokenCodec) (input : Text) (past : List Message)
    (stream : List Token) (c c' : Conversation M G R) : Prop where
  messages : c'.messages = past ++ [⟨"user", some input⟩]
  eog : c'.eog = c.eog
  eot : c'.eot = c.eot
  pos : c'.currentPos = c'.streamTokens.length
  stream : (stream = [] ∧ c'.turnPos = 0
      ∧ c'.streamTokens
        = codec.encode (fallbackChatmlMessages (past ++ [⟨"user", some input⟩]) true))
    ∨ (stream ≠ [] ∧ c'.turnPos = stream.length
      ∧ c'.streamTokens
        = stream ++ codec.encode (chatmlDelta past ⟨"user", some input⟩))

theorem assistantHeader_ne_nil : assistantHeader ≠ [] := by decide

theorem chatmlDelta_ne_nil (past : List Message) (new : Message) :
    chatmlDelta past new ≠ [] :=
  List.append_ne_nil_of_right_ne_nil _ assistantHeader_ne_nil

theorem chatml_prompt_ne_nil (messages : List Message) :
    fallbackChatmlMessages messages true ≠ [] :=
  List.append_ne_nil_of_right_ne_nil _ assistantHeader_ne_nil

/-- The end of `user_turn`, for a stream that owes no EOT. -/
theorem appendTurn_reply (htemplate : env.template = chatml) {eot : Token}
    (hcodec : Faithful env.codec eot) (cfg : TurnParams F M G R) (input : Text)
    {past : List Message} {s : World S M G R} (hpast : s.conv.messages = past)
    (hpos : s.conv.currentPos = s.conv.streamTokens.length) :
    ∃ logits n s₁, appendPrompt env input (chatmlDelta past ⟨"user", some input⟩) s
        = (.ok (logits, n), s₁)
      ∧ appendTurn env cfg input
        (env.codec.encode (chatmlDelta past ⟨"user", some input⟩)) s
        = reply env cfg logits n 0 s₁
      ∧ UserPrompted env.codec input past s.conv.streamTokens s.conv s₁.conv := by
  subst hpast
  unfold appendTurn appendPrompt pushMessage
  rw [Turn.run_bind, Turn.run_modifyConv, Turn.run_bind, Turn.run_modifyConv]
  dsimp only
  rw [Turn.run_bind, Turn.run_conv, Turn.run_bind, Turn.run_conv]
  dsimp only
  by_cases hzero : s.conv.currentPos = 0
  · rw [if_pos hzero, if_pos hzero]
    have hnil : s.conv.streamTokens = [] :=
      List.eq_nil_of_length_eq_zero (hpos ▸ hzero)
    obtain ⟨k, hk⟩ := renderFull_chatml htemplate true ({ s with conv := { s.conv with
      messages := s.conv.messages ++ [⟨"user", some input⟩] } } : World S M G R)
    have hne := hcodec.encode_ne_nil (chatml_prompt_ne_nil
      (s.conv.messages ++ [⟨"user", some input⟩]))
    obtain ⟨logits, e, hrun⟩ :=
        @rehydrateFull_run S F M G R env _ hne ({ s with conv := { s.conv with
      messages := s.conv.messages ++ [⟨"user", some input⟩], renders := k } } :
        World S M G R)
    rw [Turn.bind_ok hk, Turn.bind_ok hk, if_neg hne, Turn.bind_ok hrun]
    unfold rerender
    rw [Turn.bind_ok hrun]
    exact ⟨_, _, _, rfl, rfl, rfl, rfl, rfl, rfl, .inl ⟨hnil, rfl, rfl⟩⟩
  · rw [if_neg hzero, if_neg hzero]
    have hne : s.conv.streamTokens ≠ [] := by
      intro hnil
      rw [hnil] at hpos
      exact hzero hpos
    rw [Turn.run_bind, Turn.run_modifyConv, Turn.run_bind, Turn.run_modifyConv]
    dsimp only
    obtain ⟨logits, e, hrun⟩ := @appendForward_run S F M G R env
      (env.codec.encode (chatmlDelta s.conv.messages ⟨"user", some input⟩))
      { s with conv := { s.conv with
        messages := s.conv.messages ++ [⟨"user", some input⟩], turnPos :=
          s.conv.currentPos } }
    rw [Turn.bind_ok hrun, Turn.bind_ok hrun]
    refine ⟨_, _, _, rfl, rfl, rfl, rfl, rfl, ?_, .inr ⟨hne, hpos, rfl⟩⟩
    rw [List.length_append, ← hpos]

/-- A `user_turn` that fits is its prompt and a reply. -/
theorem userTurn_reply (htemplate : env.template = chatml) (cfg : TurnParams F M G R)
    (input : Text) {s : World S M G R} (hcodec : Faithful env.codec s.conv.eot)
    (hpos : s.conv.currentPos = s.conv.streamTokens.length)
    (hfits : s.conv.currentPos + (if s.conv.needInsertEot then 1 else 0)
      + (env.codec.encode (chatmlDelta s.conv.messages ⟨"user", some input⟩)).length
        ≤ s.conv.nCtx) :
    ∃ logits n s₁, userPrompt env input s = (.ok (logits, n), s₁)
      ∧ userTurn env cfg input s = reply env cfg logits n 0 s₁
      ∧ UserPrompted env.codec input s.conv.messages
          (s.conv.streamTokens ++ if s.conv.needInsertEot then [s.conv.eot]
            else []) s.conv
          s₁.conv := by
  have hne := hcodec.encode_ne_nil
    (chatmlDelta_ne_nil s.conv.messages ⟨"user", some input⟩)
  unfold userTurn userPrompt
  rw [Turn.run_bind, Turn.run_conv, Turn.run_bind, Turn.run_conv]
  dsimp only
  by_cases hneed : s.conv.needInsertEot = true
  · have hlen := List.length_pos_iff.2 hne
    rw [if_pos hneed] at hfits ⊢
    obtain ⟨e, hinsert⟩ := @insertEot_run S F M G R env s
    rw [if_pos ⟨hneed, by omega⟩, if_pos ⟨hneed, by omega⟩, Turn.bind_ok hinsert,
      Turn.bind_ok hinsert]
    obtain ⟨k, hk⟩ :=
      formatSingle_chatml htemplate s.conv.messages ⟨"user", some input⟩
      { s with
        engine := e
        conv := { s.conv with
          streamTokens := s.conv.streamTokens ++ [s.conv.eot]
          currentPos := s.conv.currentPos + 1
          needInsertEot := false } }
    rw [Turn.bind_ok hk, Turn.bind_ok hk]
    dsimp only
    rw [if_neg hne, if_pos rfl, Turn.run_bind, Turn.run_conv]
    dsimp only
    rw [if_neg (by simpa using hfits)]
    obtain ⟨logits, n, s₁, hprompt, hturn, hp⟩ :=
      @appendTurn_reply S F M G R env htemplate _
      hcodec cfg input s.conv.messages { s with
        engine := e
        conv := { s.conv with
          streamTokens := s.conv.streamTokens ++ [s.conv.eot]
          currentPos := s.conv.currentPos + 1
          needInsertEot := false
          renders := k } } rfl (by rw [List.length_append, ← hpos]; rfl)
    exact ⟨logits, n, s₁, hprompt, hturn, hp.messages, hp.eog, hp.eot, hp.pos,
      hp.stream⟩
  · have hskip : ¬ (s.conv.needInsertEot = true ∧ s.conv.currentPos < s.conv.nCtx) :=
      fun h => hneed h.1
    rw [if_neg hskip, if_neg hskip, if_neg hneed, List.append_nil]
    obtain ⟨k, hk⟩ :=
      formatSingle_chatml htemplate s.conv.messages ⟨"user", some input⟩ s
    rw [Turn.bind_ok hk, Turn.bind_ok hk]
    dsimp only
    rw [if_neg hne, if_pos rfl, Turn.run_bind, Turn.run_conv]
    dsimp only
    rw [if_neg (Nat.not_lt.2 hfits)]
    obtain ⟨logits, n, s₁, hprompt, hturn, hp⟩ :=
      @appendTurn_reply S F M G R env htemplate _
      hcodec cfg input s.conv.messages { s with conv :=
        { s.conv with renders := k } } rfl hpos
    exact ⟨logits, n, s₁, hprompt, hturn, hp.messages, hp.eog, hp.eot, hp.pos,
      hp.stream⟩

/-- What `regen_turn` feeds again, after `past` and its last user
message. -/
def regenText (past : List Message) (lastUser : Text) (turnPos : Nat) : Text :=
  if turnPos = 0 then fallbackChatmlMessages (past ++ [⟨"user", some lastUser⟩]) true
  else chatmlDelta past ⟨"user", some lastUser⟩

/-- A `regen_turn` of an answered message that fits is its prompt and a
reply. -/
theorem regenTurn_reply (htemplate : env.template = chatml)
    (cfg : TurnParams F M G R) {s : World S M G R}
    (hcodec : Faithful env.codec s.conv.eot) {past : List Message}
    {lastUser : Text} {answer : Option Text} (hmessages : s.conv.messages
      = past ++ [⟨"user", some lastUser⟩, ⟨"assistant", answer⟩])
    (hturn : s.conv.turnPos ≤ s.conv.streamTokens.length)
    (hfits : s.conv.turnPos
      + (env.codec.encode (regenText past lastUser s.conv.turnPos)).length
      ≤ s.conv.nCtx) :
    ∃ logits n s₁, regenPrompt env s = (.ok (logits, n), s₁)
      ∧ regenTurn env cfg s = reply env cfg logits n 0 s₁
      ∧ s₁.conv.messages = past ++ [⟨"user", some lastUser⟩]
      ∧ s₁.conv.eog = s.conv.eog
      ∧ s₁.conv.eot = s.conv.eot ∧ s₁.conv.turnPos = s.conv.turnPos
      ∧ s₁.conv.currentPos = s₁.conv.streamTokens.length
      ∧ s₁.conv.streamTokens = s.conv.streamTokens.take s.conv.turnPos
        ++ env.codec.encode (regenText past lastUser s.conv.turnPos) := by
  have hlast : s.conv.messages.getLast?.map (·.role) = some "assistant" := by
    rw [hmessages]
    simp
  have hdrop : s.conv.messages.dropLast = past ++ [⟨"user", some lastUser⟩] := by
    rw [hmessages, List.dropLast_append_of_ne_nil (by simp)]
    rfl
  have htext : regenText past lastUser s.conv.turnPos ≠ [] := by
    unfold regenText
    split
    · exact chatml_prompt_ne_nil _
    · exact chatmlDelta_ne_nil _ _
  have hne := hcodec.encode_ne_nil htext
  unfold regenTurn regenPrompt
  rw [Turn.run_bind, Turn.run_conv, Turn.run_bind, Turn.run_conv]
  dsimp only
  rw [if_neg (not_not_intro hlast), if_neg (not_not_intro hlast)]
  rw [Turn.run_bind, Turn.run_modifyConv, Turn.run_bind, Turn.run_modifyConv]
  dsimp only
  rw [Turn.run_bind, Turn.run_conv, Turn.run_bind, Turn.run_conv]
  dsimp only
  rw [hdrop, List.getLast?_concat, Option.bind_some]
  dsimp only
  -- the rolled-back state replays the text
  have hreplay : ∃ k, replayText env lastUser { s with conv := { s.conv with
      messages := past ++ [⟨"user", some lastUser⟩]
      streamTokens := s.conv.streamTokens.take s.conv.turnPos
      currentPos := s.conv.turnPos
      needInsertEot := false } }
          = (.ok (regenText past lastUser s.conv.turnPos), { s with
        conv := { s.conv with
          messages := past ++ [⟨"user", some lastUser⟩]
          streamTokens := s.conv.streamTokens.take s.conv.turnPos
          currentPos := s.conv.turnPos
          needInsertEot := false
          renders := k } }) := by
    unfold replayText regenText
    rw [Turn.run_bind, Turn.run_conv]
    dsimp only
    by_cases hzero : s.conv.turnPos = 0
    · rw [if_pos hzero, if_pos hzero]
      exact renderFull_chatml htemplate ..
    · rw [if_neg hzero, if_neg hzero, List.dropLast_concat]
      obtain ⟨k, hk⟩ := formatSingle_chatml htemplate past ⟨"user", some lastUser⟩
        { s with conv := { s.conv with
          messages := past ++ [⟨"user", some lastUser⟩]
          streamTokens := s.conv.streamTokens.take s.conv.turnPos
          currentPos := s.conv.turnPos
          needInsertEot := false } }
      refine ⟨k, ?_⟩
      rw [Turn.bind_ok hk]
      rfl
  obtain ⟨k, hk⟩ := hreplay
  rw [Turn.bind_ok hk, Turn.bind_ok hk]
  dsimp only
  rw [if_neg hne, if_neg (Nat.not_lt.2 hfits)]
  obtain ⟨logits, e, hrun⟩ := @appendForward_run S F M G R env
    (env.codec.encode (regenText past lastUser s.conv.turnPos))
    { s with conv := { s.conv with
      messages := past ++ [⟨"user", some lastUser⟩]
      streamTokens := s.conv.streamTokens.take s.conv.turnPos
      currentPos := s.conv.turnPos
      needInsertEot := false
      renders := k } }
  rw [Turn.bind_ok hrun, Turn.bind_ok hrun]
  refine ⟨_, _, _, rfl, rfl, rfl, rfl, rfl, rfl, ?_, rfl⟩
  rw [List.length_append, List.length_take, Nat.min_eq_left hturn]

/-- Nothing to regenerate: the session is left as it was. -/
theorem regenTurn_refused (cfg : TurnParams F M G R) {s : World S M G R}
    (hlast : s.conv.messages.getLast?.map (·.role) ≠ some "assistant") :
    regenTurn env cfg s = (.error (.err .nothingToRegen), s) := by
  unfold regenTurn
  rw [Turn.run_bind, Turn.run_conv]
  dsimp only
  rw [if_pos hlast]
  rfl

end Prompts

end Minfer.Session
