/-
The calls of a conversation session (`conversation.rs`): `user_turn`,
`regen_turn`, `load_history` and `/clear`, with the overflow plan and the
context shift.
-/
import Minfer.Session.Conversation

namespace Minfer.Session

open Minfer.Server (Token recentWindow repeatLastN)

variable {S F M G R : Type}

/-- What a session runs with: engine, codec, template and the
`MINFER_NO_CONTEXT_SHIFT` switch. -/
structure Setup (S F M G R : Type) where
  engine : Engine S F M G R
  codec : TokenCodec
  template : Template
  contextShiftEnabled : Bool

namespace Turn

variable {α : Type}

/-- Read the conversation. -/
def conv : Turn S M G R (Conversation M G R) := do return (← get).conv

/-- Change the conversation. -/
def modifyConv (f : Conversation M G R → Conversation M G R) : Turn S M G R Unit :=
  modify fun s => { s with conv := f s.conv }

def fail (e : ConvError) : Turn S M G R α := throw (.err e)

end Turn

open Turn

-- =========================== rendering

/-- `render_messages_with`: one render of a message list. -/
def renderMessagesWith (env : Setup S F M G R) (messages : List Message)
    (addGen : Bool) :
    Turn S M G R Text := do
  let c ← conv
  modifyConv fun c => { c with renders := c.renders + 1 }
  match env.template c.renders messages addGen with
  | .error e => fail (.template e)
  | .ok text => return text

/-- `render_full`. -/
def renderFull (env : Setup S F M G R) (addGen : Bool) : Turn S M G R Text := do
  let c ← conv
  renderMessagesWith env c.messages addGen

/-- The render of the history before a new message. -/
def renderPast (env : Setup S F M G R) (messages : List Message) :
    Turn S M G R Text :=
  if messages = [] then pure [] else renderMessagesWith env messages false

/-- `format_single`: what a new message adds to the render, and whether the
old render is a prefix of the new one. -/
def formatSingle (env : Setup S F M G R) (messages : List Message)
    (newMsg : Message) :
    Turn S M G R (Text × Bool) := do
  let past ← renderPast env messages
  let new ← renderMessagesWith env (messages ++ [newMsg]) true
  if past <+: new then
    return ((if past.getLast? = some '\n' then ['\n'] else [])
      ++ new.drop past.length, true)
  else return (new, false)

-- ============================= prefill

/-- Forward tokens at the current position and record them. -/
def appendForward (env : Setup S F M G R) (toks : List Token) :
    Turn S M G R (List F) := do
  let s ← get
  let (logits, engine) := env.engine.forward s.engine toks
    (List.range' s.conv.currentPos toks.length) 1
  set { s with
    engine := engine
    conv := { s.conv with
      streamTokens := s.conv.streamTokens ++ toks
      currentPos := s.conv.currentPos + toks.length } }
  return logits

/-- `rehydrate_full`. -/
def rehydrateFull (env : Setup S F M G R) (toks : List Token) :
    Turn S M G R (List F) := do
  modify fun s => { s with
    engine := env.engine.resetCache s.engine
    conv := { s.conv with streamTokens := [], currentPos := 0, turnPos := 0 } }
  if toks = [] then return [] else appendForward env toks

/-- The reply to a prefilled prompt. -/
def reply (env : Setup S F M G R) (cfg : TurnParams F M G R) (logits : List F)
    (prefillTokens droppedTurns : Nat) : Turn S M G R TurnOutcome := do
  modifyConv fun c => { c with prevTokens := recentWindow c.streamTokens repeatLastN }
  let out ← (fun s => generateAssistantWithLogits env.engine env.codec cfg logits s :
    Turn S M G R TurnOutcome)
  return { out with prefillTokens := prefillTokens, droppedTurns := droppedTurns }

/-- The reply to the whole history, rendered and prefilled from scratch. -/
def rerender (env : Setup S F M G R) (cfg : TurnParams F M G R) (toks : List Token) :
    Turn S M G R TurnOutcome := do
  let logits ← rehydrateFull env toks
  reply env cfg logits toks.length 0

/-- Write the EOT a previous turn still owes. -/
def insertEot (env : Setup S F M G R) : Turn S M G R Unit := do
  let c ← conv
  let _ ← appendForward env [c.eot]
  modifyConv fun c => { c with needInsertEot := false }

-- ============================ overflow

/-- `oldest_droppable_turn_start`. -/
def oldestDroppableTurnStart (messages : List Message) : Option Nat :=
  match (messages.reverse.findIdx? (·.role = "user")).map
      (messages.length - 1 - ·) with
  | none => none
  | some lastUser => (messages.take lastUser).findIdx? (·.role = "user")

/-- The loop of `plan_overflow_drop`: every round drops a message. -/
def planLoop (env : Setup S F M G R) :
    Nat → List Message → Option Nat → Nat → Nat → Turn S M G R (Option Nat × Nat)
  | 0, _, first, end_, _ => pure (first, end_)
  | fuel + 1, msgs, first, end_, removed => do
      let full ← renderMessagesWith env msgs true
      let c ← conv
      if (env.codec.encode full).length ≤ c.nCtx then return (first, end_)
      else
        match oldestDroppableTurnStart msgs with
        | none => return (first, end_)
        | some idx =>
            let msgs := msgs.eraseIdx idx
            let (msgs, n) :=
              if (msgs[idx]?.map (·.role)) = some "assistant"
                then (msgs.eraseIdx idx, 2)
              else (msgs, 1)
            planLoop env fuel msgs (some (first.getD (idx + removed)))
              (idx + (removed + n))
              (removed + n)

/-- `plan_overflow_drop`: the first message to drop and how many. -/
def planOverflowDrop (env : Setup S F M G R) : Turn S M G R (Nat × Nat) := do
  let c ← conv
  let (first, end_) ← planLoop env (c.messages.length + 1) c.messages none 0 0
  return match first with
    | none => (0, 0)
    | some first => (first, end_ - first)

/-- `stream_boundary`: where message `upto` starts in the stream, if the
render before it is a prefix of the stream. -/
def streamBoundary (env : Setup S F M G R) (upto : Nat) :
    Turn S M G R (Option Nat) := do
  let c ← conv
  if upto = 0 then return some 0
  else if upto > c.messages.length then return none
  else
    let text ← renderMessagesWith env (c.messages.take upto) false
    let toks := env.codec.encode text
    return if toks <+: c.streamTokens then some toks.length else none

/-- `overflow_region`. -/
def overflowRegion (env : Setup S F M G R) (first count : Nat) :
    Turn S M G R (Option (Nat × Nat)) := do
  if count = 0 then return none
  else
    let start ← streamBoundary env first
    let end_ ← streamBoundary env (first + count)
    return match start, end_ with
      | some start, some end_ => if end_ > start
          then some (start, end_ - start) else none
      | _, _ => none

/-- The removal of a region's rows: `true` when the engine did it. -/
def shiftRows (env : Setup S F M G R) (start len : Nat) : Turn S M G R Bool :=
  fun s =>
  match env.engine.kvRm s.engine start len with
  | (.error _, engine) => (.ok false, { s with engine := engine })
  | (.ok _, engine) =>
      let stream := s.conv.streamTokens.take start
        ++ s.conv.streamTokens.drop (start + len)
      (.ok true, { s with
        engine := engine
        conv := { s.conv with streamTokens := stream, currentPos := stream.length } })

/-- What follows a removal: the pending EOT, the rollback point and the
delta. -/
def shiftPrefill (env : Setup S F M G R) (deltaToks : List Token) :
    Turn S M G R (List F) := do
  let c ← conv
  if c.needInsertEot then insertEot env
  modifyConv fun c => { c with turnPos := c.currentPos }
  appendForward env deltaToks

/-- The prompt is re-rendered from scratch. -/
def overflowRerender (env : Setup S F M G R) (toks : List Token) :
    Turn S M G R (List F) := do
  modifyConv fun c => { c with needInsertEot := false }
  rehydrateFull env toks

/-- The prefill after an overflow: shift the region out if the engine can and
the result fits, otherwise re-render. The flag says which. -/
def overflowPrefill (env : Setup S F M G R) (region : Option (Nat × Nat))
    (eotBudget : Nat)
    (deltaToks toks : List Token) : Turn S M G R (List F × Bool) := do
  let c ← conv
  match region with
  | some (start, len) =>
      if env.contextShiftEnabled ∧ len > 0 ∧ start + len ≤ c.currentPos
          ∧ c.currentPos - len + eotBudget + deltaToks.length ≤ c.nCtx then
        if ← shiftRows env start len then return (← shiftPrefill env deltaToks, true)
        else return (← overflowRerender env toks, false)
      else return (← overflowRerender env toks, false)
  | none => return (← overflowRerender env toks, false)

-- =============================== calls

def pushMessage (m : Message) : Turn S M G R Unit :=
  modifyConv fun c => { c with messages := c.messages ++ [m] }

/-- The overflow branch of `user_turn`. -/
def overflowTurn (env : Setup S F M G R) (cfg : TurnParams F M G R) (input : Text)
    (eotWritten : Bool) (eotBudget : Nat) (deltaToks : List Token) :
    Turn S M G R TurnOutcome := do
  pushMessage ⟨"user", some input⟩
  let (first, dropped) ← planOverflowDrop env
  let c ← conv
  if dropped = 0 then
    modifyConv fun c => { c with
      messages := c.messages.dropLast, needInsertEot := !eotWritten }
    fail (.contextFull (c.currentPos + eotBudget + deltaToks.length) c.nCtx)
  else
    let region ← overflowRegion env first dropped
    modifyConv fun c => { c with
      messages := c.messages.take first ++ c.messages.drop (first + dropped) }
    let full ← renderFull env true
    let toks := env.codec.encode full
    let (logits, usedShift) ← overflowPrefill env region eotBudget deltaToks toks
    reply env cfg logits (if usedShift then deltaToks.length else toks.length)
      (dropped / 2)

/-- The last steps of `user_turn`: record the message and prefill the delta,
or the whole render when there are no rows yet. -/
def appendTurn (env : Setup S F M G R) (cfg : TurnParams F M G R)
    (input : Text) (deltaToks : List Token) : Turn S M G R TurnOutcome := do
  pushMessage ⟨"user", some input⟩
  let c ← conv
  if c.currentPos = 0 then
    let full ← renderFull env true
    let toks := env.codec.encode full
    if toks = [] then
      modifyConv fun c => { c with messages := c.messages.dropLast }
      fail .emptyInput
    else rerender env cfg toks
  else
    modifyConv fun c => { c with turnPos := c.currentPos }
    let logits ← appendForward env deltaToks
    reply env cfg logits deltaToks.length 0

/-- `user_turn`. -/
def userTurn (env : Setup S F M G R) (cfg : TurnParams F M G R) (input : Text) :
    Turn S M G R TurnOutcome := do
  let c ← conv
  let eotWritten := c.needInsertEot ∧ c.currentPos < c.nCtx
  if eotWritten then insertEot env
  let (text, prefixMatched) ← formatSingle env c.messages ⟨"user", some input⟩
  let deltaToks := env.codec.encode text
  if deltaToks = [] then fail .emptyInput
  else if prefixMatched then
    let c ← conv
    let eotBudget := if c.needInsertEot then 1 else 0
    if c.currentPos + eotBudget + deltaToks.length > c.nCtx then
      overflowTurn env cfg input eotWritten eotBudget deltaToks
    else appendTurn env cfg input deltaToks
  else
    pushMessage ⟨"user", some input⟩
    let full ← renderFull env true
    let toks := env.codec.encode full
    if toks = [] then fail .emptyInput else rerender env cfg toks

/-- What `regen_turn` feeds again: the whole render after a rollback to the
start, otherwise the last user message's delta. -/
def replayText (env : Setup S F M G R) (lastUser : Text) : Turn S M G R Text := do
  let c ← conv
  if c.turnPos = 0 then renderFull env true
  else return (← formatSingle env c.messages.dropLast ⟨"user", some lastUser⟩).1

/-- `regen_turn`. -/
def regenTurn (env : Setup S F M G R) (cfg : TurnParams F M G R) :
    Turn S M G R TurnOutcome := do
  let c ← conv
  if (c.messages.getLast?.map (·.role)) ≠ some "assistant" then fail .nothingToRegen
  else
    modifyConv fun c => { c with
      messages := c.messages.dropLast
      streamTokens := c.streamTokens.take c.turnPos
      currentPos := c.turnPos
      needInsertEot := false }
    let c ← conv
    match c.messages.getLast?.bind (·.content) with
    | none => fail .nothingToRegen
    | some lastUser =>
        let text ← replayText env lastUser
        let toks := env.codec.encode text
        if toks = [] then fail .emptyInput
        else if c.currentPos + toks.length > c.nCtx then
          fail (.contextFull (c.currentPos + toks.length) c.nCtx)
        else
          let logits ← appendForward env toks
          reply env cfg logits toks.length 0

/-- `load_history`. -/
def loadHistory (env : Setup S F M G R) (messages : List Message) :
    Turn S M G R Unit := do
  modifyConv fun c =>
    { c with messages := messages, needInsertEot := false, turnPos := 0 }
  let full ← renderFull env false
  let _ ← rehydrateFull env (env.codec.encode full)

/-- `/clear`, with the reset the caller owes. -/
def clear (env : Setup S F M G R) : Turn S M G R Unit :=
  modify fun s => { s with
    engine := env.engine.resetCache s.engine
    conv := { s.conv with
      messages := (s.conv.messages.find? (·.role = "system")).toList
      streamTokens := []
      currentPos := 0
      turnPos := 0
      prevTokens := []
      needInsertEot := false } }

end Minfer.Session
