/-
The continuous-batching engine's state (`server/batch.rs`), what it talks
to, and one forward.

# The world around the engine

Everything the engine does not decide is a field of `World`: the sampler
and the tokenizer as functions, the environment switches, and two oracles
read by call number — whether the `n`-th forward fails and what it wrote
by then, and whether the `n`-th send still finds a receiver. Quantifying
over worlds is quantifying over every outcome of every call.

# Rows

A KV row is the token sequence it was computed from, or `none` when that
is not known. A forward that writes position `p` reads the rows below it;
the new row is `h ++ [tok]` when those rows are exactly the prefixes of
one sequence `h`, and unknown otherwise. Logits are a function of the
call and of the request's token prefix.

`log` and `context` are records for the proofs: no decision reads them.
-/
import Minfer.Graph.Alloc
import Minfer.Server.Text

namespace Minfer.Server

open Minfer.Graph (KvCache KvLayer KvMove KvEnv SeqId Batch)

-- ============================== events

/-- Why a turn ended. -/
inductive FinishReason where
  | stop
  | length
deriving Repr, DecidableEq

/-- An API error: status, message and type. -/
structure ApiError where
  status : Nat
  message : String
  errorType : String
deriving Repr, DecidableEq

namespace ApiError

def invalidRequest (msg : String) : ApiError := ⟨400, msg, "invalid_request_error"⟩

def exceedContext (msg : String) : ApiError := ⟨400, msg, "exceed_context_size_error"⟩

def unavailable (msg : String) : ApiError := ⟨503, msg, "unavailable_error"⟩

def server (msg : String) : ApiError := ⟨500, msg, "server_error"⟩

end ApiError

/-- What travels to a client. -/
inductive StreamEvent where
  | text (chunk : List Char)
  | finish (reason : FinishReason) (tokens : Nat)
  | err (e : ApiError)
deriving Repr, DecidableEq

/-- An event after which the client hears nothing more. -/
def StreamEvent.terminal : StreamEvent → Bool
  | .text _ => false
  | .finish _ _ => true
  | .err _ => true

-- =============================== state

variable {Λ σ : Type}

/-- The sampling parameters the engine itself reads. -/
structure SamplingParams where
  /-- Negative: no limit. -/
  maxTokens : Int
  /-- The stop strings, as bytes. -/
  stopStrings : List (List UInt8)
deriving Repr, DecidableEq

/-- A request. `sampler` is what its parameters build once: the sampler
configuration, mirostat's budget, the grammar automaton and the seeded
generator. -/
structure Job (σ : Type) where
  id : Nat
  inputIds : List Token
  params : SamplingParams
  sampler : σ

/-- One in-flight request's decoding state. -/
structure Run (Λ σ : Type) where
  id : Nat
  params : SamplingParams
  sampler : σ
  prevTokens : List Token
  /-- Bytes generated so far. -/
  full : List UInt8
  /-- How many of them were sent as text. -/
  emitted : Nat
  completionTokens : Nat
  /-- Rows written in this slot. -/
  currentPos : Nat
  lastLogits : Λ
  /-- A committed token whose row has not been written yet. -/
  needsForward : Option Token
  lastProgressWork : Nat
  /-- The tokens whose rows this request has written or reused. -/
  context : List Token

/-- One slot: its reservation, the tokens its rows hold, and the request
running on it. -/
structure SlotState (Λ σ : Type) where
  seq : SeqId
  start : Nat
  cap : Nat
  cachedTokens : List Token
  run : Option (Run Λ σ)

/-- A KV row: the tokens it was computed from, if that is known. -/
abbrev Row := Option (List Token)

/-- What the engine did, in order. -/
inductive LogEntry where
  /-- An event handed to a client's channel, and whether a receiver was
  there. -/
  | sent (job : Nat) (ev : StreamEvent) (delivered : Bool)
  /-- A slot was sampled. -/
  | sampled (slot : Nat)
  /-- A slot committed a token with outcome `Continue`. -/
  | committed (slot : Nat) (tok : Token)
  /-- A slot's committed token was forwarded, at its position. -/
  | forwarded (slot : Nat) (tok : Token) (pos : Nat)
deriving Repr, DecidableEq

/-- The engine. -/
structure BatchEngine (Λ σ : Type) where
  cache : KvCache Row
  nCtxTotal : Nat
  slots : List (SlotState Λ σ)
  /-- Fed tokens per prefill forward; 0 turns chunking off. -/
  nBatch : Nat
  workUnits : Nat
  /-- Forwards issued so far. -/
  forwards : Nat
  /-- Events sent so far. -/
  sends : Nat
  log : List LogEntry

/-- How a forward that panicked ended. -/
structure Failure where
  message : String
  /-- It failed before the allocator was asked for anything. -/
  early : Bool
  /-- The rows it wrote by then, by index in the batch. -/
  wrote : Nat → Option Row

/-- Everything the engine does not decide. -/
structure World (Λ σ : Type) where
  /-- `sample_with_config_grammar`: logits and penalty window in, a token
  or the grammar's refusal out. -/
  sample : σ → Λ → List Token → Except String Token × σ
  /-- `decode_bytes` of one token. -/
  decodeBytes : Token → List UInt8
  isStopToken : Token → Bool
  /-- The logits of the `n`-th forward for a request's token prefix. -/
  logits : Nat → List Token → Λ
  /-- The empty logits vector. -/
  noLogits : Λ
  /-- `MINFER_NO_PREFIX_REUSE` is not set to 1. -/
  track : Bool
  /-- The device gathers a `kv_map`, so prefixes are shared in place. -/
  gathers : Bool
  /-- Several prompts may share one prefill forward. -/
  prefillBatchOk : Bool
  kvEnv : KvEnv
  /-- Whether the `n`-th forward fails. -/
  failure : Nat → Option Failure
  /-- Whether the `n`-th send finds a receiver. -/
  sendOk : Nat → Bool

-- ================================ rows

/-- The tokens the rows below position `p` of `seq` hold in one layer:
known when each row is the next prefix of one sequence, in both regions. -/
def readContext (c : KvCache Row) (l : KvLayer Row) (seq : SeqId) : Nat →
    Option (List Token)
  | 0 => some []
  | p + 1 =>
      match readContext c l seq p, (c.cellOf seq p).bind (l.k[·]?),
        (c.cellOf seq p).bind (l.v[·]?) with
      | some h, some (some hk), some (some hv) =>
          if hk = hv ∧ hk.take p = h ∧ hk.length = p + 1 then some hk else none
      | _, _, _ => none

/-- The row a forward computes for `tok` at position `pos`. -/
def computeRow (c : KvCache Row) (l : KvLayer Row) (seq : SeqId) (pos : Nat)
    (tok : Token) : Row :=
  (readContext c l seq pos).map (· ++ [tok])

/-- Write one cell of both regions, in every layer. -/
def writeCell (c : KvCache Row) (cell : Nat) (row : KvLayer Row → Row) :
    KvCache Row :=
  { c with layers := c.layers.map fun _ l =>
      { l with k := l.k.set cell (row l), v := l.v.set cell (row l) } }

/-- The stores of a forward that succeeded, entry by entry: `(seq, pos)`,
token and resolved cell. -/
def storeBatch (c : KvCache Row) : List ((SeqId × Nat) × Token × Nat) → KvCache Row
  | [] => c
  | ((seq, pos), tok, cell) :: rest =>
      storeBatch (writeCell c cell fun l => computeRow c l seq pos tok) rest

/-- The stores of a forward that failed part-way: any of its entries,
holding anything. -/
def scribble (wrote : Nat → Option Row) (c : KvCache Row) : Nat → List Nat →
    KvCache Row
  | _, [] => c
  | k, cell :: rest =>
      match wrote k with
      | some row => scribble wrote (writeCell c cell fun _ => row) (k + 1) rest
      | none => scribble wrote c (k + 1) rest

/-- The batch's entries with their resolved cells. -/
def batchEntries (b : Batch) (cells : List Nat) : List
    ((SeqId × Nat) × Token × Nat) :=
  (b.seqIds.zip b.positions).zip (b.tokens.zip cells)

/-- The `n`-th forward, on an arena: the batch is filled and its rows are
stored; or it panics, before the fill, in it, or part-way through the
stores. -/
def forwardOn (w : World Λ σ) (n : Nat) (c : KvCache Row) (b : Batch) :
    Except String (List Token → Λ) × KvCache Row :=
  match w.failure n with
  | some f =>
      if f.early then (.error f.message, c)
      else match c.fillBatchInputs w.kvEnv b with
        | (.error msg, c) => (.error msg, c)
        | (.ok cells, c) => (.error f.message, scribble f.wrote c 0 cells)
  | none =>
      match c.fillBatchInputs w.kvEnv b with
      | (.error msg, c) => (.error msg, c)
      | (.ok cells, c) => (.ok (w.logits n), storeBatch c (batchEntries b cells))

/-- `apply_run_moves`: every slot that caches its run's start adopts the
new position. -/
def applyRunMoves (slots : List (SlotState Λ σ)) (moves : List KvMove) :
    List (SlotState Λ σ) :=
  moves.foldl (fun slots m =>
    slots.map fun s => if s.seq = m.seq then { s with start := m.toCell }
      else s) slots

namespace BatchEngine

/-- Send one event on a request's channel. -/
def send (w : World Λ σ) (e : BatchEngine Λ σ) (job : Nat) (ev : StreamEvent) :
    Bool × BatchEngine Λ σ :=
  (w.sendOk e.sends,
    { e with sends := e.sends + 1
             log := e.log ++ [.sent job ev (w.sendOk e.sends)] })

/-- `reject`: answer a job the engine will not run. -/
def reject (w : World Λ σ) (e : BatchEngine Λ σ) (job : Nat) (err : ApiError) :
    BatchEngine Λ σ :=
  (e.send w job (.err err)).2

/-- `guarded_forward_batch`: one forward. On success, the logits of a row
by the token prefix it ends. -/
def forwardBatch (w : World Λ σ) (e : BatchEngine Λ σ) (b : Batch) :
    Except ApiError (List Token → Λ) × BatchEngine Λ σ :=
  match forwardOn w e.forwards e.cache b with
  | (.error msg, c) =>
      (.error (.server s!"inference panicked: {msg}"),
        { e with forwards := e.forwards + 1, cache := c })
  | (.ok logits, c) => (.ok logits, { e with forwards := e.forwards + 1, cache := c })

/-- Replace one slot. -/
def setSlot (e : BatchEngine Λ σ) (i : Nat) (s : SlotState Λ σ) : BatchEngine Λ σ :=
  { e with slots := e.slots.set i s }

/-- `busy`. -/
def busy (e : BatchEngine Λ σ) : Bool := e.slots.any (·.run.isSome)

/-- `new`: one reservation per slot in an arena with nothing reserved. -/
def reserveSlots (w : World Λ σ) (cap : Nat) :
    KvCache Row → List (SlotState Λ σ) → List SeqId →
      Except String (KvCache Row × List (SlotState Λ σ))
  | c, slots, [] => .ok (c, slots)
  | c, slots, seq :: rest =>
      match c.kvReserveSeqWithDefrag w.kvEnv seq cap with
      | (.error e, _) => .error s!"slot {seq - 1}: {e}"
      | (.ok (slot, moves), c) =>
          reserveSlots w cap c
            (applyRunMoves slots moves
              ++ [{ seq, start := slot.start, cap, cachedTokens := [], run :=
                none }]) rest

/-- `BatchEngine::new`, over the arena the model's layers are registered
in. Sequence ids start at 1. -/
def new (w : World Λ σ) (arena : KvCache Row) (nSlots nCtxTotal nBatch : Nat) :
    Except String (BatchEngine Λ σ) :=
  let nSlots := max nSlots 1
  let cap := nCtxTotal / nSlots
  if cap = 0 then
    .error (s!"continuous batching needs at least one row per slot " ++
        s!"(n_ctx {nCtxTotal} over {nSlots} slots)")
  else match reserveSlots w cap (arena.setNCtx nCtxTotal) []
      (List.range' 1 nSlots) with
    | .error e => .error e
    | .ok (cache, slots) =>
        .ok { cache, nCtxTotal, slots, nBatch, workUnits := 0, forwards :=
              0, sends := 0,
              log := [] }

end BatchEngine
end Minfer.Server
