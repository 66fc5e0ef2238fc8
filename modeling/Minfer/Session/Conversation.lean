/-
The conversation session (`conversation.rs`): the token mirror, both
generation loops and the calls that rewrite the pair of stream and
position.

The engine is the `Engine` trait: its state is a parameter. A template is
a function of the render count, since a render may read the clock. A call
returns, fails with a `ConvError`, or panics; the session is kept in all
three cases.
-/
import Minfer.Session.Sampler

namespace Minfer.Session

open Minfer.Lib (fromUtf8Lossy)
open Minfer.Server
    (Token completeUtf8PrefixLen matchStopSuffix recentWindow pushRecent
  repeatLastN)

-- ============================== traits

/-- A text. -/
abbrev Text := List Char

/-- `Engine`: a forward, a reset, the removal of rows and a speculative
round, over an engine state `S`. -/
structure Engine (S F M G R : Type) where
  forward : S → List Token → List Nat → Nat → List F × S
  resetCache : S → S
  kvRm : S → Nat → Nat → Except String Nat × S
  hasSpec : Bool
  /-- `spec_round`: the batch, the window, the random stream. -/
  specRound : S → Token → Nat → SamplerConfig F M G R → List Token → R →
    Option (List Token × List Token × R × S)

/-- `TokenCodec`. -/
structure TokenCodec where
  encode : Text → List Token
  decodeBytes : List Token → List UInt8

/-- A recorded message: role and content. -/
structure Message where
  role : String
  content : Option Text
deriving Repr, DecidableEq

/-- `render_messages_with`, for one session's template: the `n`-th render. -/
abbrev Template := Nat → List Message → Bool → Except String Text

-- =============================== state

/-- `ConvError`. -/
inductive ConvError where
  | nothingToRegen
  | contextFull (needed available : Nat)
  | emptyInput
  | mirostatWithSpec
  | grammar (e : SampleError)
  | template (msg : String)
deriving Repr, DecidableEq

/-- Why a call has no outcome. -/
inductive Exit where
  | err (e : ConvError)
  | panic
deriving Repr, DecidableEq

/-- `TurnParams`; stop strings as bytes. -/
structure TurnParams (F M G R : Type) where
  nPredict : Nat
  sampler : SamplerConfig F M G R
  stopStrings : List (List UInt8)

/-- `TurnOutcome`. -/
structure TurnOutcome where
  text : Text
  stoppedByEog : Bool
  stoppedByString : Bool
  hitNPredict : Bool
  prefillTokens : Nat
  tokensGenerated : Nat
  droppedTurns : Nat
deriving Repr, DecidableEq

/-- `Conversation`, with the number of renders so far. -/
structure Conversation (M G R : Type) where
  messages : List Message
  streamTokens : List Token
  currentPos : Nat
  turnPos : Nat
  rng : R
  prevTokens : List Token
  eog : List Token
  eot : Token
  needInsertEot : Bool
  nCtx : Nat
  mirostat : M
  grammarState : Option G
  renders : Nat
deriving Repr, DecidableEq

/-- `ConversationSpec`; the seed and `mirostat_tau` as the states they
make. -/
structure ConversationSpec (M R : Type) where
  eog : List Token
  eot : Token
  rng : R
  nCtx : Nat
  mirostat : M
  systemPrompt : Option Text

/-- `Conversation::new`. -/
def Conversation.new {M G R : Type} (spec : ConversationSpec M R) :
    Conversation M G R where
  messages := (spec.systemPrompt.map fun text =>
    (⟨"system", some text⟩ : Message)).toList
  streamTokens := []
  currentPos := 0
  turnPos := 0
  rng := spec.rng
  prevTokens := []
  eog := spec.eog
  eot := spec.eot
  needInsertEot := false
  nCtx := spec.nCtx
  mirostat := spec.mirostat
  grammarState := none
  renders := 0

/-- A conversation, its engine and the bytes emitted so far. -/
structure World (S M G R : Type) where
  conv : Conversation M G R
  engine : S
  emitted : List UInt8
deriving Repr, DecidableEq

/-- A step of a session. -/
abbrev Turn (S M G R : Type) := ExceptT Exit (StateM (World S M G R))

variable {S F M G R : Type}

namespace World

def setSampler (s : World S M G R) (st : SamplerState M G R) : World S M G R :=
  { s with conv := { s.conv with
      mirostat := st.mirostat, grammarState := st.grammar, rng := st.rng } }

def samplerState (s : World S M G R) : SamplerState M G R :=
  ⟨s.conv.mirostat, s.conv.grammarState, s.conv.rng⟩

/-- Record a token in the stream. -/
def pushStream (s : World S M G R) (t : Token) : World S M G R :=
  { s with conv := { s.conv with streamTokens := s.conv.streamTokens ++ [t] } }

/-- Record a token in the penalty window. -/
def pushWindow (s : World S M G R) (t : Token) : World S M G R :=
  { s with conv := { s.conv with prevTokens := pushRecent s.conv.prevTokens t } }

def advance (s : World S M G R) (n : Nat) : World S M G R :=
  { s with conv := { s.conv with currentPos := s.conv.currentPos + n } }

def emit (s : World S M G R) (bytes : List UInt8) : World S M G R :=
  { s with emitted := s.emitted ++ bytes }

/-- Forward one token at a position, for its row only. -/
def forwardRow (s : World S M G R) (eng : Engine S F M G R) (t : Token) (pos : Nat) :
    World S M G R :=
  { s with engine := (eng.forward s.engine [t] [pos] 1).2 }

end World

-- ========================== generation

/-- The locals of a generation loop. -/
structure Gen where
  full : List UInt8
  emitted : Nat
  nGen : Nat
  stoppedByEog : Bool
  stoppedByString : Bool
  hitNPredict : Bool
deriving Repr, DecidableEq

namespace Gen

def start : Gen := ⟨[], 0, 0, false, false, false⟩

/-- Count a token and append its bytes. -/
def take (g : Gen) (codec : TokenCodec) (t : Token) : Gen :=
  { g with full := g.full ++ codec.decodeBytes [t], nGen := g.nGen + 1 }

/-- Where the complete characters end. -/
def complete (g : Gen) : Nat := g.emitted + completeUtf8PrefixLen
    (g.full.drop g.emitted)

/-- What the hold-back lets out. -/
def ready (g : Gen) : List UInt8 := (g.full.drop g.emitted).take
    (g.complete - g.emitted)

end Gen

/-- Emit the complete characters. -/
def holdBack (g : Gen) (s : World S M G R) : Gen × World S M G R :=
  if g.complete > g.emitted
    then ({ g with emitted := g.complete }, s.emit g.ready) else (g, s)

/-- The decode loop of `generate_assistant_with_logits`, with the budget left. -/

def decodeLoop (eng : Engine S F M G R) (codec : TokenCodec)
    (cfg : TurnParams F M G R) :
    Nat → List F → Gen → World S M G R → Except Exit Gen × World S M G R
  | 0, _, g, s => (.ok { g with hitNPredict := true }, s)
  | budget + 1, logits, g, s =>
      if s.conv.currentPos ≥ s.conv.nCtx then (.ok { g with hitNPredict := true }, s)
      else
        match cfg.sampler.sampleWithConfigGrammar logits s.conv.prevTokens
            s.samplerState with
        | (.error e, st) => (.error (.err (.grammar e)), s.setSampler st)
        | (.ok t, st) =>
            let s := s.setSampler st
            if t ∈ s.conv.eog then
              let s := (s.pushWindow t).pushStream t
              let s := (s.forwardRow eng t s.conv.currentPos).advance 1
              (.ok { g with stoppedByEog := true }, s)
            else
              let g := g.take codec t
              match matchStopSuffix g.full cfg.stopStrings with
              | some cut =>
                  (.ok { g with
                    stoppedByString := true, full := g.full.take cut }, s)
              | none =>
                  let s := (s.pushWindow t).pushStream t
                  let (g, s) := holdBack g s
                  let (logits, engine) :=
                    eng.forward s.engine [t] [s.conv.currentPos] 1
                  let s := ({ s with engine := engine } : World S M G R).advance 1
                  decodeLoop eng codec cfg budget logits g s

/-- The end of both loops: the rest of the text, the assistant's message. -/
def finishTurn (g : Gen) (s : World S M G R) : TurnOutcome × World S M G R :=
  let s := if g.emitted < g.full.length then s.emit (g.full.drop g.emitted) else s
  let text := fromUtf8Lossy g.full
  (⟨text, g.stoppedByEog, g.stoppedByString, g.hitNPredict, 0, g.nGen, 0⟩,
    { s with conv := { s.conv with
        messages := s.conv.messages ++ [⟨"assistant", some text⟩]
        needInsertEot := !g.stoppedByEog } })

/-- `BreakKind`. -/
inductive BreakKind where
  | none
  | eog
  | stop
  | cap
deriving Repr, DecidableEq

/-- The loop over one batch of `total` tokens, from index `i` on: the tokens
consumed and how it ended. -/
def consumeBatch (eng : Engine S F M G R) (codec : TokenCodec)
    (cfg : TurnParams F M G R)
    (total : Nat) : List Token → Nat → Gen → World S M G R →
    Gen × World S M G R × Nat × BreakKind
  | [], i, g, s => (g, s, i, .none)
  | tok :: rest, i, g, s =>
      if g.nGen ≥ cfg.nPredict then ({ g with hitNPredict := true }, s, i, .cap)
      else if tok ∈ s.conv.eog then
        let s := s.pushStream tok
        let s := if i + 1 = total
          then s.forwardRow eng tok (s.conv.currentPos + 1 + i) else s
        ({ g with stoppedByEog := true }, s.advance (1 + i + 1), i, .eog)
      else
        let g := g.take codec tok
        match matchStopSuffix g.full cfg.stopStrings with
        | some cut =>
            ({ g with stoppedByString := true, full := g.full.take cut },
              s.advance (1 + i), i,
              .stop)
        | .none =>
            let s := s.pushStream tok
            let (g, s) := holdBack g s
            consumeBatch eng codec cfg total rest (i + 1) g s

/-- Write the pending token's row. -/
def flushSeed (eng : Engine S F M G R) (seed : Token) (g : Gen) (s : World S M G R) :
    Gen × World S M G R :=
  ({ g with hitNPredict := true },
    (s.forwardRow eng seed s.conv.currentPos).advance 1)

/-- The round loop of `generate_assistant_spec`. A round commits a token at
least, so the fuel is the budget; an empty batch panics. -/
def specLoop (eng : Engine S F M G R) (codec : TokenCodec)
    (cfg : TurnParams F M G R) :
    Nat → Token → Gen → World S M G R → Except Exit Gen × World S M G R
  | 0, _, _, s => (.error .panic, s)
  | fuel + 1, seed, g, s =>
      if g.nGen ≥ cfg.nPredict then
        let (g, s) := flushSeed eng seed g s
        (.ok g, s)
      else if s.conv.currentPos ≥ s.conv.nCtx then
        let (g, s) := flushSeed eng seed g s
        (.ok g, s)
      else if g.stoppedByEog ∨ g.stoppedByString then (.ok g, s)
      else
        match eng.specRound s.engine seed s.conv.currentPos cfg.sampler
            s.conv.prevTokens
            s.conv.rng with
        | none => (.error .panic, s)
        | some (toks, prev, rng, engine) =>
            let s := ({ s with
              engine := engine
              conv := { s.conv with prevTokens := prev, rng := rng } } :
                World S M G R)
            match consumeBatch eng codec cfg toks.length toks 0 g s with
            | (g, s, _, .none) =>
                match toks.getLast? with
                | none => (.error .panic, s)
                | some seed =>
                    specLoop eng codec cfg fuel seed g (s.advance toks.length)
            | (g, s, consumed, .cap) => (.ok g, s.advance consumed)
            | (g, s, _, _) => (.ok g, s)

/-- The seed of `generate_assistant_spec`, committed unless it ends the
turn. -/
def takeSeed (eng : Engine S F M G R) (codec : TokenCodec) (cfg : TurnParams F M G R)
    (seed : Token) (s : World S M G R) : Gen × World S M G R :=
  if seed ∈ s.conv.eog then
    let s := (s.pushWindow seed).pushStream seed
    ({ Gen.start with stoppedByEog := true },
      (s.forwardRow eng seed s.conv.currentPos).advance 1)
  else
    let g := Gen.start.take codec seed
    match matchStopSuffix g.full cfg.stopStrings with
    | some cut => ({ g with stoppedByString := true, full := g.full.take cut }, s)
    | none => holdBack g ((s.pushWindow seed).pushStream seed)

/-- A fresh automaton position for the turn. -/
def resetGrammar (cfg : TurnParams F M G R) (s : World S M G R) : World S M G R :=
  { s with conv := { s.conv with grammarState := cfg.sampler.grammar.map (·.state) } }

/-- `generate_assistant_spec`. -/
def generateAssistantSpec (eng : Engine S F M G R) (codec : TokenCodec)
    (cfg : TurnParams F M G R) (logits : List F) (s : World S M G R) :
    Except Exit TurnOutcome × World S M G R :=
  let s := resetGrammar cfg s
  match cfg.sampler.sampleWithConfigGrammar logits s.conv.prevTokens
      s.samplerState with
  | (.error e, st) => (.error (.err (.grammar e)), s.setSampler st)
  | (.ok seed, st) =>
      let (g, s) := takeSeed eng codec cfg seed (s.setSampler st)
      match specLoop eng codec cfg (cfg.nPredict + 1) seed g s with
      | (.error e, s) => (.error e, s)
      | (.ok g, s) =>
          let (out, s) := finishTurn g s
          (.ok out, s)

/-- The plain path of `generate_assistant_with_logits`. -/
def generateAssistantPlain (eng : Engine S F M G R) (codec : TokenCodec)
    (cfg : TurnParams F M G R) (logits : List F) (s : World S M G R) :
    Except Exit TurnOutcome × World S M G R :=
  match decodeLoop eng codec cfg cfg.nPredict logits Gen.start
      (resetGrammar cfg s) with
  | (.error e, s) => (.error e, s)
  | (.ok g, s) =>
      let (out, s) := finishTurn g s
      (.ok out, s)

/-- `generate_assistant_with_logits`. -/
def generateAssistantWithLogits (eng : Engine S F M G R) (codec : TokenCodec)
    (cfg : TurnParams F M G R) (logits : List F) (s : World S M G R) :
    Except Exit TurnOutcome × World S M G R :=
  if eng.hasSpec then
    if cfg.sampler.mirostat ≠ .off then (.error (.err .mirostatWithSpec), s)
    else generateAssistantSpec eng codec cfg logits s
  else generateAssistantPlain eng codec cfg logits s

end Minfer.Session
