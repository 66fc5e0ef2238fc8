/-
The serial worker (`server/chat.rs`): one request at a time, run to
completion on a slot that owns its KV arena.

`generate_seq` is the plain path, without a speculative draft. Its loop
recurses on the rows left in the slot's context: every turn of it that
continues writes one more row, and the loop leaves when the context is
full, so `room` never runs out before that test does.

A panic outside the guarded forwards (tokenizer, sampler, stop strings) is
an outcome of the step it happens in, read by step number like the
engine's other oracles.
-/
import Minfer.Server.Batch

namespace Minfer.Server

open Minfer.Graph (KvCache SeqId Batch)
open Minfer.Lib (fromUtf8Lossy)

variable {Λ σ : Type}

/-- The world of the serial worker: the engine's, and whether the `n`-th
sampling step panics. -/
structure SerialWorld (Λ σ : Type) extends World Λ σ where
  panics : Nat → Option String

/-- How a job that did not complete ended. -/
inductive Halt where
  | err (e : ApiError)
  | panic (msg : String)

/-- A slot of the serial worker, with the call counters and the log of the
process around it. -/
structure Serial where
  cache : KvCache Row
  /-- The tokens the slot's rows hold. -/
  cachedTokens : List Token
  forwards : Nat
  sends : Nat
  samples : Nat
  log : List LogEntry

/-- `SEQ_MAIN`. -/
def seqMain : SeqId := 0

/-- `Batch::single`. -/
def Batch.single (tokens : List Token) (positions : List Nat) : Batch where
  tokens := tokens
  positions := positions
  seqIds := List.replicate tokens.length seqMain

namespace Serial

/-- Send one event on the request's channel. -/
def send (w : SerialWorld Λ σ) (st : Serial) (job : Nat) (ev : StreamEvent) :
    Bool × Serial :=
  (w.sendOk st.sends,
    { st with sends := st.sends + 1
              log := st.log ++ [.sent job ev (w.sendOk st.sends)] })

/-- `guarded_forward`: a panic inside the forward becomes an error. -/
def guardedForward (w : SerialWorld Λ σ) (st : Serial) (tokens : List Token)
    (positions : List Nat) : Except ApiError (List Token → Λ) × Serial :=
  match forwardOn w.toWorld st.forwards st.cache (Batch.single tokens positions) with
  | (.error _, c) =>
      (.error (.server "inference panicked"),
        { st with forwards := st.forwards + 1, cache := c })
  | (.ok logits, c) =>
      (.ok logits, { st with forwards := st.forwards + 1, cache := c })

/-- `emit`: bytes as one text event, unless there are none. -/
def emit (w : SerialWorld Λ σ) (st : Serial) (job : Nat) (bytes : List UInt8) :
    Except ApiError Unit × Serial :=
  if bytes.isEmpty then (.ok (), st)
  else
    match st.send w job (.text (fromUtf8Lossy bytes)) with
    | (true, st) => (.ok (), st)
    | (false, st) => (.error (.server "client disconnected"), st)

/-- How the loop was left: why, whether a stop string ended it, and the
request's state. -/
abbrev Left (Λ σ : Type) := FinishReason × Bool × Run Λ σ

/-- The generation loop. -/
def generateLoop (w : SerialWorld Λ σ) (nCtxSlot : Nat) :
    Nat → Serial → Run Λ σ → Except Halt (Left Λ σ) × Serial
  | 0, st, run => (.ok (.length, false, run), st)
  | room + 1, st, run =>
      if BatchEngine.Run.budgetDone run then (.ok (.length, false, run), st)
      else if run.currentPos ≥ nCtxSlot then (.ok (.length, false, run), st)
      else match w.panics st.samples with
      | some msg => (.error (.panic msg), { st with samples := st.samples + 1 })
      | none =>
        let st := { st with samples := st.samples + 1 }
        let sampled := w.sample run.sampler run.lastLogits run.prevTokens
        let run := { run with sampler := sampled.2 }
        match sampled.1 with
        | .error _ => (.ok (.stop, false, run), st)
        | .ok tok =>
          if w.isStopToken tok then (.ok (.stop, false, run), st)
          else
            let run := BatchEngine.Run.commit w.toWorld run tok
            match matchStopSuffix run.full run.params.stopStrings with
            | some cut =>
                -- what lies between the emitted text and the stop string
                match st.emit w run.id ((run.full.take cut).drop run.emitted) with
                | (.error e, st) => (.error (.err e), st)
                | (.ok (), st) =>
                    (.ok (.stop, true,
                      { run with emitted := max run.emitted cut }), st)
            | none =>
                let text := BatchEngine.Run.pendingText run
                match st.emit w run.id text with
                | (.error e, st) => (.error (.err e), st)
                | (.ok (), st) =>
                    let run := { run with emitted := run.emitted + text.length }
                    match st.guardedForward w [tok] [run.currentPos] with
                    | (.error e, st) => (.error (.err e), st)
                    | (.ok logits, st) =>
                        generateLoop w nCtxSlot room
                          (if w.track then { st with cachedTokens :=
                            st.cachedTokens ++ [tok] }
                            else st)
                          { run with lastLogits := logits (run.context ++ [tok])
                                     currentPos := run.currentPos + 1
                                     context := run.context ++ [tok] }

/-- The bytes of the final flush. -/
def flushBytes (stoppedByString : Bool) (run : Run Λ σ) : List UInt8 :=
  if stoppedByString then
    let full := match matchStopSuffix run.full run.params.stopStrings with
      | some cut => run.full.take cut
      | none => run.full
    full.drop run.emitted
  else
    let rest := run.full.drop run.emitted
    rest.take (completeUtf8PrefixLen rest)

/-- The request's state after its prefill. -/
def startRun (job : Job σ) (logits : Λ) : Run Λ σ where
  id := job.id
  params := job.params
  sampler := job.sampler
  prevTokens := recentWindow job.inputIds repeatLastN
  full := []
  emitted := 0
  completionTokens := 0
  currentPos := job.inputIds.length
  lastLogits := logits
  needsForward := none
  lastProgressWork := 0
  context := job.inputIds

/-- Where `generate_seq` starts feeding. -/
def feedFrom (w : SerialWorld Λ σ) (st : Serial) (inputIds : List Token) : Nat :=
  (prefillSpan inputIds.length
    (if w.track then commonPrefixLen st.cachedTokens inputIds else 0)).1

/-- The prefill forward of `generate_seq`. -/
def prefillBatch (w : SerialWorld Λ σ) (st : Serial) (inputIds : List Token) :
    Batch :=
  Batch.single (inputIds.drop (st.feedFrom w inputIds))
    (List.range' (st.feedFrom w inputIds) (inputIds.length - st.feedFrom w inputIds))

/-- After the loop: flush what is left and send the end. -/
def endTurn (w : SerialWorld Λ σ) (st : Serial) (left : Left Λ σ) :
    Except Halt Unit × Serial :=
  match st.emit w left.2.2.id (flushBytes left.2.1 left.2.2) with
  | (.error e, st) => (.error (.err e), st)
  | (.ok (), st) =>
      (.ok (), (st.send w left.2.2.id (.finish left.1 left.2.2.completionTokens)).2)

/-- `generate_seq` (which `generate` calls): one request to completion. -/
def generateSeq (w : SerialWorld Λ σ) (nCtxSlot : Nat) (st : Serial) (job : Job σ) :
    Except Halt Unit × Serial :=
  if job.inputIds.isEmpty then
    (.error (.err (.invalidRequest "prompt tokenizes to nothing")), st)
  else if job.inputIds.length > nCtxSlot then
    (.error (.err (.exceedContext
      (s!"prompt of {job.inputIds.length} tokens exceeds slot " ++
        s!"context of {nCtxSlot}"))), st)
  else
    let batch := st.prefillBatch w job.inputIds
    match st.guardedForward w batch.tokens batch.positions with
    | (.error e, st) => (.error (.err e), st)
    | (.ok logits, st) =>
        let st := { st with cachedTokens := if w.track then job.inputIds else [] }
        match generateLoop w nCtxSlot (nCtxSlot - job.inputIds.length + 1) st
            (startRun job (logits job.inputIds)) with
        | (.error h, st) => (.error h, st)
        | (.ok left, st) => st.endTurn w left

/-- `run_job_isolated` and what `worker_loop_serial` does after it: an error
is sent on, a panic is answered and the record dropped. -/
def runJob (w : SerialWorld Λ σ) (nCtxSlot : Nat) (st : Serial) (job : Job σ) :
    Serial :=
  match st.generateSeq w nCtxSlot job with
  | (.ok (), st) => st
  | (.error (.err e), st) => (st.send w job.id (.err e)).2
  | (.error (.panic msg), st) =>
      { (st.send w job.id (.err (.server s!"internal error: {msg}"))).2
        with cachedTokens := [] }

/-- `worker_loop_serial` over the jobs its channel delivers. Every job finds
its slot idle again. -/
def workerLoop (w : SerialWorld Λ σ) (nCtxSlot : Nat) : Serial → List (Job σ) → Serial
  | st, [] => st
  | st, job :: rest => workerLoop w nCtxSlot (st.runJob w nCtxSlot job) rest

end Serial
end Minfer.Server
