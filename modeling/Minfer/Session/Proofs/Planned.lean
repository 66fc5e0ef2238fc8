/-
The calls of a conversation as a plan and its service (`conversation.rs`,
`user_turn`, `regen_turn` and `load_history`).

The plan is everything up to the first prompt token: the EOT that is owed, the
renders, the overflow plan and the removal of rows. What is left to do is one
of four things, and each call does just that (`userTurn_planned`,
`regenTurn_planned`, `loadHistory_planned`).
-/
import Minfer.Session.Proofs.Refused

namespace Minfer.Session

open Minfer.Server (Token)

variable {S F M G R : Type}

-- =============================== plans

/-- What a call does once it has rendered. -/
inductive Plan where
  | refuse (needed available : Nat)
  | append (toks : List Token)
  | shift (toks : List Token) (droppedTurns : Nat)
  | scratch (toks : List Token) (droppedTurns : Nat)

/-- How far the stream would reach. -/
def Plan.reach (c : Conversation M G R) : Plan → Nat
  | .refuse needed _ => needed
  | .append toks => c.currentPos + toks.length
  | .shift toks _ => c.currentPos + (if c.needInsertEot then 1 else 0) + toks.length
  | .scratch toks _ => toks.length

section Plans

variable (env : Setup S F M G R)

/-- The overflow branch of `user_turn` up to its prompt: `true` when rows were
shifted out. -/
def shiftPlan (region : Option (Nat × Nat)) (eotBudget : Nat)
    (deltaToks : List Token) : Turn S M G R Bool := do
  let c ← Turn.conv
  match region with
  | some (start, len) =>
      if env.contextShiftEnabled ∧ len > 0 ∧ start + len ≤ c.currentPos
          ∧ c.currentPos - len + eotBudget + deltaToks.length ≤ c.nCtx then
        shiftRows env start len
      else return false
  | none => return false

/-- The prompt after some turns were dropped. -/
def droppedPlan (eotBudget : Nat) (deltaToks : List Token)
    (first dropped : Nat) : Turn S M G R Plan := do
  let region ← overflowRegion env first dropped
  Turn.modifyConv fun c => { c with
    messages := c.messages.take first ++ c.messages.drop (first + dropped) }
  let full ← renderFull env true
  let shifted ← shiftPlan env region eotBudget deltaToks
  if shifted then return .shift deltaToks (dropped / 2)
  else
    Turn.modifyConv fun c => { c with needInsertEot := false }
    return .scratch (env.codec.encode full) (dropped / 2)

def overflowPlan (input : Text) (eotWritten : Bool) (eotBudget : Nat)
    (deltaToks : List Token) :
    Turn S M G R Plan := do
  pushMessage ⟨"user", some input⟩
  let (first, dropped) ← planOverflowDrop env
  let c ← Turn.conv
  if dropped = 0 then
    Turn.modifyConv fun c => { c with
      messages := c.messages.dropLast, needInsertEot := !eotWritten }
    return .refuse (c.currentPos + eotBudget + deltaToks.length) c.nCtx
  else droppedPlan env eotBudget deltaToks first dropped

def appendPlan (input : Text) (deltaToks : List Token) : Turn S M G R Plan := do
  pushMessage ⟨"user", some input⟩
  let c ← Turn.conv
  if c.currentPos = 0 then
    let full ← renderFull env true
    let toks := env.codec.encode full
    if toks = [] then
      Turn.modifyConv fun c => { c with messages := c.messages.dropLast }
      Turn.fail .emptyInput
    else return .scratch toks 0
  else
    Turn.modifyConv fun c => { c with turnPos := c.currentPos }
    return .append deltaToks

def enteredPlan (input : Text) (messages : List Message) (eotWritten : Bool) :
    Turn S M G R Plan := do
  let (text, prefixMatched) ← formatSingle env messages ⟨"user", some input⟩
  let deltaToks := env.codec.encode text
  if deltaToks = [] then Turn.fail .emptyInput
  else if prefixMatched then
    let c ← Turn.conv
    let eotBudget := if c.needInsertEot then 1 else 0
    if c.currentPos + eotBudget + deltaToks.length > c.nCtx then
      overflowPlan env input eotWritten eotBudget deltaToks
    else appendPlan env input deltaToks
  else
    pushMessage ⟨"user", some input⟩
    let full ← renderFull env true
    let toks := env.codec.encode full
    if toks = [] then Turn.fail .emptyInput else return .scratch toks 0

/-- `user_turn` up to its prompt. -/
def userPlan (input : Text) : Turn S M G R Plan := fun s =>
  enteredPlan env input s.conv.messages s.eotWritten (s.entered env)

/-- `regen_turn` up to its prompt. -/
def regenPlan : Turn S M G R Plan := do
  let c ← Turn.conv
  if (c.messages.getLast?.map (·.role)) ≠ some "assistant"
    then Turn.fail .nothingToRegen
  else
    Turn.modifyConv fun c => { c with
      messages := c.messages.dropLast
      streamTokens := c.streamTokens.take c.turnPos
      currentPos := c.turnPos
      needInsertEot := false }
    let c ← Turn.conv
    match c.messages.getLast?.bind (·.content) with
    | none => Turn.fail .nothingToRegen
    | some lastUser =>
        let text ← replayText env lastUser
        let toks := env.codec.encode text
        if toks = [] then Turn.fail .emptyInput
        else if c.currentPos + toks.length > c.nCtx
          then return .refuse (c.currentPos + toks.length) c.nCtx
        else return .append toks

/-- `load_history` up to its prompt. -/
def loadPlan (messages : List Message) : Turn S M G R Plan := do
  Turn.modifyConv fun c =>
    { c with messages := messages, needInsertEot := false, turnPos := 0 }
  let full ← renderFull env false
  return .scratch (env.codec.encode full) 0

/-- A turn from its plan on. -/
def Plan.serve (cfg : TurnParams F M G R) : Plan → Turn S M G R TurnOutcome
  | .refuse needed available => Turn.fail (.contextFull needed available)
  | .append toks => do
      let logits ← appendForward env toks
      reply env cfg logits toks.length 0
  | .shift toks droppedTurns => do
      let logits ← shiftPrefill env toks
      reply env cfg logits toks.length droppedTurns
  | .scratch toks droppedTurns => do
      let logits ← rehydrateFull env toks
      reply env cfg logits toks.length droppedTurns

variable {env} (cfg : TurnParams F M G R)

theorem droppedTurn_planned (eotBudget : Nat) (deltaToks : List Token)
    (first dropped : Nat) :
    droppedTurn env cfg eotBudget deltaToks first dropped
      = droppedPlan env eotBudget deltaToks first dropped >>= Plan.serve env cfg := by
  simp only [droppedTurn, droppedPlan, bind_assoc]
  refine bind_congr fun region => bind_congr fun _ => bind_congr fun full => ?_
  have hagain :
      (do return (← overflowRerender env (env.codec.encode full), false) :
        Turn S M G R (List F × Bool))
      >>= (fun p =>
        reply env cfg p.1 (if p.2 then deltaToks.length
          else (env.codec.encode full).length) (dropped / 2))
      = (do
          Turn.modifyConv fun c => { c with needInsertEot := false }
          return Plan.scratch (env.codec.encode full) (dropped / 2))
              >>= Plan.serve env cfg := by
    simp only [overflowRerender, bind_assoc, pure_bind]
    rfl
  simp only [overflowPrefill, shiftPlan, bind_assoc]
  refine bind_congr fun c => ?_
  cases region with
  | none =>
      simp only [pure_bind]
      exact hagain
  | some span =>
      dsimp only
      split
      · simp only [bind_assoc]
        refine bind_congr fun done => ?_
        cases done with
        | false => exact hagain
        | true =>
            simp only [if_true, bind_assoc, pure_bind]
            rfl
      · simp only [pure_bind]
        exact hagain

theorem overflowTurn_planned (input : Text) (written : Bool) (eotBudget : Nat)
    (deltaToks : List Token) :
    overflowTurn env cfg input written eotBudget deltaToks
      = overflowPlan env input written eotBudget deltaToks
        >>= Plan.serve env cfg := by
  simp only [overflowTurn, overflowPlan, bind_assoc]
  refine bind_congr fun _ => bind_congr fun plan => bind_congr fun c => ?_
  split
  · rfl
  · exact droppedTurn_planned cfg eotBudget deltaToks _ _

theorem appendTurn_planned (input : Text) (deltaToks : List Token) :
    appendTurn env cfg input deltaToks = appendPlan env input deltaToks
      >>= Plan.serve env cfg := by
  simp only [appendTurn, appendPlan, bind_assoc]
  refine bind_congr fun _ => bind_congr fun c => ?_
  split
  · simp only [bind_assoc]
    refine bind_congr fun full => ?_
    split
    · rfl
    · rfl
  · rfl

theorem enteredTurn_planned (input : Text) (messages : List Message)
    (written : Bool) :
    enteredTurn env cfg input messages written
      = enteredPlan env input messages written >>= Plan.serve env cfg := by
  simp only [enteredTurn, enteredPlan, bind_assoc]
  refine bind_congr fun delta => ?_
  split
  · rfl
  · split
    · simp only [bind_assoc]
      refine bind_congr fun c => ?_
      generalize (if c.needInsertEot = true then 1 else 0) = eotBudget
      split
      · exact overflowTurn_planned cfg input _ _ _
      · exact appendTurn_planned cfg input _
    · simp only [bind_assoc]
      refine bind_congr fun _ => bind_congr fun full => ?_
      split
      · rfl
      · rfl

theorem userTurn_planned (input : Text) :
    userTurn env cfg input = userPlan env input >>= Plan.serve env cfg := by
  funext s
  rw [userTurn_entered, enteredTurn_planned]
  rfl

theorem regenTurn_planned :
    regenTurn env cfg = regenPlan env >>= Plan.serve env cfg := by
  simp only [regenTurn, regenPlan, bind_assoc]
  refine bind_congr fun c => ?_
  split
  · rfl
  · simp only [bind_assoc]
    refine bind_congr fun _ => bind_congr fun c => ?_
    cases c.messages.getLast?.bind (·.content) with
    | none => rfl
    | some lastUser =>
      simp only [bind_assoc]
      refine bind_congr fun text => ?_
      split
      · rfl
      · split
        · rfl
        · rfl

end Plans

/-- `load_history` fails to render, or feeds the whole render. -/
theorem loadHistory_planned (env : Setup S F M G R) (messages : List Message)
    (s : World S M G R) :
    (∃ e s', loadPlan env messages s = (.error e, s')
      ∧ loadHistory env messages s = (.error e, s'))
    ∨ ∃ toks s', loadPlan env messages s = (.ok (.scratch toks 0), s')
      ∧ (loadHistory env messages s).2 = (rehydrateFull env toks s').2 := by
  rw [loadPlan, Turn.run_bind, Turn.run_modifyConv, loadHistory, Turn.run_bind,
    Turn.run_modifyConv]
  dsimp only
  rw [Turn.run_bind, Turn.run_bind]
  cases renderFull env false { s with conv := { s.conv with
      messages := messages, needInsertEot := false, turnPos := 0 } } with
  | mk out s' =>
      cases out with
      | error e => exact .inl ⟨e, s', rfl, rfl⟩
      | ok full => exact .inr ⟨env.codec.encode full, s', rfl, Turn.bind_pure _ _ _⟩

end Minfer.Session
