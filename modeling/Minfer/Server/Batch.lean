/-
The engine's steps (`server/batch.rs`): placing requests, prefilling
them, and the decode step that forwards every pending token in one batch
and then samples the next one for each slot.

Loops over slots are folds over slot indices; an index that names no slot
does nothing.
-/
import Minfer.Server.Engine

namespace Minfer.Server

open Minfer.Graph (KvCache KvMove SeqId Batch)
open Minfer.Lib (fromUtf8Lossy)

variable {Λ σ : Type}

/-- What one token did to its request. -/
inductive StepOutcome where
  | continue
  | finish (reason : FinishReason)
deriving Repr, DecidableEq

/-- Slots per step. -/
def maxBatch : Nat := 16

/-- Largest combined prompt one prefill forward carries. -/
def maxPrefillBatch : Nat := 512

/-- What `MINFER_TEST_TICK` makes a step do. -/
inductive TickSeam where
  | off
  | wedge
  | spin
deriving Repr, DecidableEq

/-- The loop of `prefill_chunks`: `fuel` bounds the number of spans. -/
def chunkSpans (total chunk : Nat) : Nat → Nat → List (Nat × Nat)
  | 0, _ => []
  | fuel + 1, at_ =>
      if at_ < total then
        (at_, min (at_ + chunk) total) :: chunkSpans total chunk fuel
          (min (at_ + chunk) total)
      else []

/-- `prefill_chunks`: the fed tokens `[from, total)` in spans of at most
`chunk`. -/
def prefillChunks (start total chunk : Nat) : List (Nat × Nat) :=
  if start ≥ total then []
  else if chunk = 0 ∨ total - start ≤ chunk then [(start, total)]
  else chunkSpans total chunk (total - start) start

/-- `wanted_cells_from`. -/
def wantedCellsFrom (nt : Nat) (maxTokens : Int) (slotCap nCtxTotal : Nat) : Nat :=
  let headroom := if maxTokens < 0 then slotCap else maxTokens.toNat
  max (min (nt + headroom) nCtxTotal) nt

namespace BatchEngine

-- ============================= answers

/-- `fail`: tell the client and drop the slot's record. -/
def fail (w : World Λ σ) (e : BatchEngine Λ σ) (idx : Nat) (err : ApiError) :
    BatchEngine Λ σ :=
  match e.slots[idx]? with
  | none => e
  | some slot =>
      let e := match slot.run with
        | some run => e.reject w run.id err
        | none => e
      e.setSlot idx { slot with run := none, cachedTokens := [] }

/-- `fail_batch`: answer every run whose row was in a failed batch. -/
def failBatch (w : World Λ σ) (e : BatchEngine Λ σ) (rows : List Nat)
    (err : ApiError) :
    BatchEngine Λ σ :=
  rows.foldl (fun e idx => e.fail w idx err) e

/-- The text `finish` flushes: what the stop string leaves, up to the last
complete character. -/
def Run.tail (run : Run Λ σ) : List UInt8 :=
  let full := match matchStopSuffix run.full run.params.stopStrings with
    | some cut => run.full.take cut
    | none => run.full
  let rest := full.drop run.emitted
  rest.take (completeUtf8PrefixLen rest)

/-- `finish`: flush the tail, send the end, and free the slot. -/
def finish (w : World Λ σ) (e : BatchEngine Λ σ) (idx : Nat) (reason : FinishReason) :
    BatchEngine Λ σ :=
  match e.slots[idx]? with
  | none => e
  | some slot =>
      match slot.run with
      | none => e
      | some run =>
          let e := e.setSlot idx { slot with run := none }
          let flushed := if (Run.tail run).isEmpty then (true, e)
            else e.send w run.id (.text (fromUtf8Lossy (Run.tail run)))
          if flushed.1 then
            (flushed.2.send w run.id (.finish reason run.completionTokens)).2
          else flushed.2.setSlot idx { slot with run := none, cachedTokens := [] }

-- =========================== one token

/-- The text a committed token adds: the complete characters not sent
yet. -/
def Run.pendingText (run : Run Λ σ) : List UInt8 :=
  (run.full.drop run.emitted).take (completeUtf8PrefixLen (run.full.drop run.emitted))

/-- A sampled token taken into the run: counted, in the penalty window,
decoded. -/
def Run.commit (w : World Λ σ) (run : Run Λ σ) (tok : Token) : Run Λ σ :=
  { run with completionTokens := run.completionTokens + 1
             prevTokens := pushRecent run.prevTokens tok
             full := run.full ++ w.decodeBytes tok }

/-- `max_tokens` is used up. -/
def Run.budgetDone (run : Run Λ σ) : Bool :=
  decide (run.params.maxTokens ≥ 0
    ∧ (run.completionTokens : Int) ≥ run.params.maxTokens)

/-- `advance`: one token of one slot. -/
def advance (w : World Λ σ) (e : BatchEngine Λ σ) (idx : Nat) (slot : SlotState Λ σ)
    (run : Run Λ σ) : Except ApiError StepOutcome × BatchEngine Λ σ :=
  if Run.budgetDone run then (.ok (.finish .length), e)
  else if run.currentPos ≥ slot.cap then (.ok (.finish .length), e)
  else
    let sampled := w.sample run.sampler run.lastLogits run.prevTokens
    let run := { run with sampler := sampled.2 }
    let e := { e with log := e.log ++ [.sampled idx] }
    let keep := fun (e : BatchEngine Λ σ) run =>
      e.setSlot idx { slot with run := some run }
    match sampled.1 with
    | .error _ => (.ok (.finish .stop), keep e run)
    | .ok tok =>
      if w.isStopToken tok then (.ok (.finish .stop), keep e run)
      else
        let run := Run.commit w run tok
        if (matchStopSuffix run.full run.params.stopStrings).isSome then
          (.ok (.finish .stop), keep e run)
        else
          let text := Run.pendingText run
          let shown := if text.isEmpty then (true, e)
            else e.send w run.id (.text (fromUtf8Lossy text))
          if !shown.1 then (.error (.server "client disconnected"), keep shown.2 run)
          else
            let run := { run with emitted := run.emitted + text.length }
            if Run.budgetDone run ∨ run.currentPos + 1 ≥ slot.cap then
              (.ok (.finish .length), keep shown.2 run)
            else
              let e := { shown.2 with log := shown.2.log ++ [.committed idx tok] }
              (.ok .continue, keep e { run with needsForward := some tok })

-- ===================== the decode step

/-- Every slot with a committed token whose row is not written, in slot
order. -/
def pendingRows (e : BatchEngine Λ σ) : List (Nat × SeqId × Token × Nat) :=
  e.slots.zipIdx.filterMap fun (slot, i) =>
    slot.run.bind fun run => run.needsForward.map fun tok =>
      (i, slot.seq, tok, run.currentPos)

/-- The rows of one step: at most `maxBatch` of them. -/
def stepRows (e : BatchEngine Λ σ) : List (Nat × SeqId × Token × Nat) :=
  e.pendingRows.take maxBatch

/-- The decode batch. -/
def stepBatch (rows : List (Nat × SeqId × Token × Nat)) : Batch where
  tokens := rows.map (·.2.2.1)
  positions := rows.map (·.2.2.2)
  seqIds := rows.map (·.2.1)

/-- A pending token's row was written: the mirror and the position advance
with the write. -/
def rowWritten (logits : List Token → Λ) (e : BatchEngine Λ σ) (idx : Nat) :
    BatchEngine Λ σ :=
  match e.slots[idx]? with
  | none => e
  | some slot =>
      match slot.run with
      | none => e
      | some run =>
          match run.needsForward with
          | none => e
          | some tok =>
              let run' := { run with lastLogits := logits (run.context ++ [tok])
                                     needsForward := none
                                     currentPos := run.currentPos + 1
                                     context := run.context ++ [tok] }
              { e.setSlot idx { slot with cachedTokens := slot.cachedTokens ++ [tok]
                                          run := some run' } with
                log := e.log ++ [.forwarded idx tok run.currentPos] }

/-- The second half of a step for one slot: sample, commit, queue. The flag
says that the slot moved. -/
def stepSlot (w : World Λ σ) (e : BatchEngine Λ σ) (idx : Nat) :
    Bool × BatchEngine Λ σ :=
  match e.slots[idx]? with
  | none => (false, e)
  | some slot =>
      match slot.run with
      | none => (false, e)
      | some run =>
          match e.advance w idx slot run with
          | (.ok .continue, e) => (true, { e with workUnits := e.workUnits + 1 })
          | (.ok (.finish reason), e) => (false, e.finish w idx reason)
          | (.error err, e) => (false, e.fail w idx err)

/-- Sample every slot in turn; collects the slots that moved. -/
def stepSlots (w : World Λ σ) (e : BatchEngine Λ σ) : List Nat →
    List Nat × BatchEngine Λ σ
  | [] => ([], e)
  | idx :: rest =>
      let one := e.stepSlot w idx
      let more := stepSlots w one.2 rest
      (if one.1 then idx :: more.1 else more.1, more.2)

/-- Stamp the runs this step moved. -/
def stampProgress (e : BatchEngine Λ σ) (moved : List Nat) : BatchEngine Λ σ :=
  { e with slots := e.slots.mapIdx fun i slot =>
      if moved.contains i then
        { slot with run :=
          slot.run.map fun run =>
          { run with lastProgressWork := e.workUnits } }
      else slot }

/-- `tick`: forward every ready slot's pending token in one batch, then
sample the next token of each. -/
def tick (w : World Λ σ) (seam : TickSeam) (e : BatchEngine Λ σ) :
    Except ApiError Unit × BatchEngine Λ σ :=
  match seam with
  | .wedge => (.ok (), e)
  | .spin => (.ok (), { e with workUnits := e.workUnits + 1 })
  | .off =>
      let rows := e.stepRows
      let forwarded : Except ApiError Unit × BatchEngine Λ σ :=
        if rows.isEmpty then (.ok (), e)
        else match e.forwardBatch w (stepBatch rows) with
          | (.error err, e) => (.error err, e.failBatch w (rows.map (·.1)) err)
          | (.ok logits, e) =>
              (.ok (), (rows.map (·.1)).foldl (rowWritten logits)
                { e with workUnits := e.workUnits + rows.length })
      match forwarded with
      | (.error err, e) => (.error err, e)
      | (.ok (), e) =>
          let stepped := e.stepSlots w (List.range e.slots.length)
          (.ok (), stepped.2.stampProgress (rows.map (·.1) ++ stepped.1))

-- ============================ capacity

/-- The reclaim loop of `ensure_slot_capacity`: release idle runs until
`need` cells are free. -/
def reclaim (e : BatchEngine Λ σ) (idx need : Nat) : List Nat → BatchEngine Λ σ
  | [] => e
  | j :: rest =>
      match e.slots[j]? with
      | none => reclaim e idx need rest
      | some slot =>
          if j = idx ∨ slot.run.isSome ∨ slot.cap = 0 then reclaim e idx need rest
          else if e.cache.nCtx
              - (e.cache.seqs.toList.map fun s => min s.2.cap e.cache.nCtx).sum
                ≥ need then e
          else
            reclaim ({ e with cache := (e.cache.releaseSeq slot.seq).2 }.setSlot j
              { slot with cachedTokens := [], cap := 0 }) idx need rest

/-- `ensure_slot_capacity`: make a slot hold at least `want` cells,
reclaiming idle capacity. -/
def ensureSlotCapacity (w : World Λ σ) (e : BatchEngine Λ σ) (idx want : Nat) :
    BatchEngine Λ σ :=
  match e.slots[idx]? with
  | none => e
  | some slot =>
      if min want e.nCtxTotal = 0 ∨ slot.cap ≥ min want e.nCtxTotal then e
      else if slot.cap = 0 then
        match e.cache.kvReserveSeqWithDefrag w.kvEnv slot.seq
            (min want e.nCtxTotal) with
        | (.error _, c) => { e with cache := c }
        | (.ok (kvSlot, moves), c) =>
            let e := { e with cache := c, slots := applyRunMoves e.slots moves }
            e.setSlot idx { slot with start := kvSlot.start, cap := kvSlot.cap }
      else
        let e := e.reclaim idx (min want e.nCtxTotal - slot.cap)
          (List.range e.slots.length)
        match e.cache.kvSetCapWithDefrag w.kvEnv slot.seq (min want e.nCtxTotal) with
        | (.error _, c) => { e with cache := c }
        | (.ok (kvSlot, moves), c) =>
            let e := { e with cache := c, slots := applyRunMoves e.slots moves }
            e.setSlot idx { slot with start := kvSlot.start, cap := kvSlot.cap }

/-- `wanted_cells`. -/
def wantedCells (e : BatchEngine Λ σ) (idx nt : Nat) (maxTokens : Int) : Nat :=
  wantedCellsFrom nt maxTokens ((e.slots[idx]?.map (·.cap)).getD 0) e.nCtxTotal

-- ============================ prefixes

/-- The tokens a slot's record holds. -/
def cachedOf (e : BatchEngine Λ σ) (idx : Nat) : List Token :=
  (e.slots[idx]?.map (·.cachedTokens)).getD []

/-- `feed_span`: what a slot would have to feed, given what it holds. -/
def feedSpan (w : World Λ σ) (e : BatchEngine Λ σ) (idx : Nat)
    (inputIds : List Token) :
    Nat × Nat :=
  prefillSpan inputIds.length
    (if w.track then commonPrefixLen (e.cachedOf idx) inputIds else 0)

/-- `shared_prefix`: the longest prefix a slot may start from, and the slot
that holds it when that is another one. -/
def sharedPrefix (w : World Λ σ) (e : BatchEngine Λ σ) (idx : Nat)
    (prompt : List Token) (own : Nat) : Nat × Option Nat :=
  if own = 0 ∧ !w.track then (0, none)
  else
    let usable := prompt.length - 1
    e.slots.zipIdx.foldl (fun best (slot, j) =>
      if j = idx ∨ slot.cachedTokens.isEmpty then best
      else
        let n := min (commonPrefixLen slot.cachedTokens prompt) usable
        if n > best.1 then (n, some j) else best) (min own usable, none)

/-- `copy_prefix_from`: start from another slot's rows, shared in place or
copied; `own` when that fails. -/
def copyPrefixFrom (w : World Λ σ) (e : BatchEngine Λ σ) (src idx rows own : Nat) :
    Nat × BatchEngine Λ σ :=
  match e.slots[src]?, e.slots[idx]? with
  | some srcSlot, some slot =>
      let done : Bool × KvCache Row :=
        if w.gathers then
          match e.cache.kvSharePrefix srcSlot.seq slot.seq rows with
          | (.ok _, c) => (true, c)
          | (.error _, c) => (false, c)
        else
          match e.cache.kvCopyPrefix w.kvEnv srcSlot.seq slot.seq rows with
          | (.ok _, c) => (true, c)
          | (.error _, c) => (false, c)
      if done.1 then
        (rows, { e with cache := done.2 }.setSlot idx
          { slot with cachedTokens := srcSlot.cachedTokens.take rows })
      else (own, { e with cache := done.2 })
  | _, _ => (own, e)

/-- Where feeding starts once another slot's rows were considered. -/
def startFrom (w : World Λ σ) (e : BatchEngine Λ σ) (idx : Nat)
    (inputIds : List Token) :
    Nat × BatchEngine Λ σ :=
  let own := (e.feedSpan w idx inputIds).1
  match e.sharedPrefix w idx inputIds own with
  | (wantRows, some src) => e.copyPrefixFrom w src idx wantRows own
  | (wantRows, none) => (wantRows, e)

-- ============================= prefill

/-- `install_run`: put a request into a slot with the logits of its last
prompt row. -/
def installRun (w : World Λ σ) (e : BatchEngine Λ σ) (idx : Nat) (job : Job σ)
    (logits : Λ) :
    BatchEngine Λ σ :=
  match e.slots[idx]? with
  | none => e
  | some slot =>
      e.setSlot idx { slot with
        cachedTokens := if w.track then job.inputIds else []
        run := some {
          id := job.id, params := job.params, sampler := job.sampler
          prevTokens := recentWindow job.inputIds repeatLastN
          full := [], emitted := 0, completionTokens := 0
          currentPos := job.inputIds.length
          lastLogits := logits, needsForward := none
          lastProgressWork := e.workUnits
          context := job.inputIds } }

/-- `has_pending_decode`. -/
def hasPendingDecode (e : BatchEngine Λ σ) : Bool :=
  e.slots.any fun s => s.run.any (·.needsForward.isSome)

/-- The batch of one prefill span. -/
def spanBatch (seq : SeqId) (inputIds : List Token) (span : Nat × Nat) : Batch where
  tokens := (inputIds.drop span.1).take (span.2 - span.1)
  positions := List.range' span.1 (span.2 - span.1)
  seqIds := List.replicate (span.2 - span.1) seq

/-- The chunk loop of `submit_on`: forward the spans in order, and between
two of them let the other slots take their decode step. -/
def prefillLoop (w : World Λ σ) (seam : TickSeam) (seq : SeqId)
    (inputIds : List Token) :
    BatchEngine Λ σ → List (Nat × Nat) → Except ApiError Λ × BatchEngine Λ σ
  | e, [] => (.ok w.noLogits, e)
  | e, span :: rest =>
      match e.forwardBatch w (spanBatch seq inputIds span) with
      | (.error err, e) => (.error err, e)
      | (.ok logits, e) =>
          if rest.isEmpty then (.ok (logits inputIds), e)
          else if e.hasPendingDecode then
            prefillLoop w seam seq inputIds (e.tick w seam).2 rest
          else prefillLoop w seam seq inputIds e rest

/-- `submit_on`: admit a request on a specific slot. -/
def submitOn (w : World Λ σ) (seam : TickSeam) (e : BatchEngine Λ σ)
    (idx : Nat) (job : Job σ) : Except ApiError Nat × BatchEngine Λ σ :=
  match e.slots[idx]? with
  | none =>
      let err := ApiError.invalidRequest
        s!"slot {idx} does not exist ({e.slots.length} slots)"
      (.error err, e.reject w job.id err)
  | some slot =>
      if slot.run.isSome then
        let err := ApiError.unavailable s!"slot {idx} is busy"
        (.error err, e.reject w job.id err)
      else
        let nt := job.inputIds.length
        let e := e.ensureSlotCapacity w idx
          (e.wantedCells idx nt job.params.maxTokens)
        let cap := (e.slots[idx]?.map (·.cap)).getD 0
        if nt > cap then
          let err := ApiError.exceedContext
            s!"prompt of {nt} tokens exceeds slot context of {cap}"
          (.error err, e.reject w job.id err)
        else
          let started := e.startFrom w idx job.inputIds
          match started.2.prefillLoop w seam slot.seq job.inputIds
              (prefillChunks started.1 nt e.nBatch) with
          | (.error err, e) => (.error err, e.reject w job.id err)
          | (.ok logits, e) => (.ok idx, e.installRun w idx job logits)

/-- The preparation loop of `prefill_group`: each request's start, capacity
and entries, in order. -/
def groupBatch (w : World Λ σ) : BatchEngine Λ σ → List (Nat × Job σ × Nat) → Batch →
    Except String Batch × BatchEngine Λ σ
  | e, [], b => (.ok b, e)
  | e, (_, job, idx) :: rest, b =>
      let started := e.startFrom w idx job.inputIds
      let nt := job.inputIds.length
      let e := started.2.ensureSlotCapacity w idx
        (started.2.wantedCells idx nt job.params.maxTokens)
      let cap := (e.slots[idx]?.map (·.cap)).getD 0
      if nt > cap then
        (.error s!"prompt of {nt} tokens exceeds slot context of {cap}", e)
      else
        let seq := (e.slots[idx]?.map (·.seq)).getD 0
        let mine := spanBatch seq job.inputIds (started.1, nt)
        groupBatch w e rest { tokens := b.tokens ++ mine.tokens
                              positions := b.positions ++ mine.positions
                              seqIds := b.seqIds ++ mine.seqIds }

/-- `prefill_group`: one forward for several requests' prefills. -/
def prefillGroup (w : World Λ σ) (e : BatchEngine Λ σ)
    (placed : List (Nat × Job σ × Nat)) :
    Except String Unit × BatchEngine Λ σ :=
  match e.groupBatch w placed ⟨[], [], []⟩ with
  | (.error msg, e) => (.error msg, e)
  | (.ok b, e) =>
      match e.forwardBatch w b with
      | (.error err, e) => (.error err.message, e)
      | (.ok logits, e) =>
          (.ok (), placed.foldl
            (fun e p => e.installRun w p.2.2 p.2.1 (logits p.2.1.inputIds)) e)

-- =========================== admission

/-- The idle slot whose record shares the longest prefix with the prompt;
the first one when several do. -/
def bestSlot (e : BatchEngine Λ σ) (taken : List Bool) (prompt : List Token) :
    Option (Nat × Nat) :=
  (List.range e.slots.length).foldl (fun best slot =>
    if taken.getD slot true then best
    else
      let n := commonPrefixLen (e.cachedOf slot) prompt
      match best with
      | some (bn, _) => if n > bn then some (n, slot) else best
      | none => some (n, slot)) none

/-- One answer of `admit`, by the job's place in the group. -/
abbrev Answer := Nat × Except ApiError Nat

/-- The placement loop of `admit`: jobs with their slots, and the answers
of the jobs no slot was left for. -/
def place (w : World Λ σ) : BatchEngine Λ σ → List Bool → Nat → List (Job σ) →
    List (Nat × Job σ × Nat) × List Answer × BatchEngine Λ σ
  | e, _, _, [] => ([], [], e)
  | e, taken, i, job :: rest =>
      match e.bestSlot taken job.inputIds with
      | some (_, slot) =>
          let more := place w e (taken.set slot true) (i + 1) rest
          ((i, job, slot) :: more.1, more.2)
      | none =>
          let err := ApiError.unavailable "no idle slot"
          let more := place w (e.reject w job.id err) taken (i + 1) rest
          (more.1, (i, .error err) :: more.2.1, more.2.2)

/-- Prefill the placed requests one at a time. -/
def submitAll (w : World Λ σ) (seam : TickSeam) :
    BatchEngine Λ σ → List (Nat × Job σ × Nat) → List Answer × BatchEngine Λ σ
  | e, [] => ([], e)
  | e, (i, job, slot) :: rest =>
      let one := e.submitOn w seam slot job
      let more := submitAll w seam one.2 rest
      ((i, one.1) :: more.1, more.2)

/-- Answer every job of a group whose forward failed. -/
def rejectAll (w : World Λ σ) (e : BatchEngine Λ σ)
    (placed : List (Nat × Job σ × Nat)) (err : ApiError) : BatchEngine Λ σ :=
  placed.foldl (fun e p => e.reject w p.2.1.id err) e

/-- `admit`: place a group of requests and prefill them, in one forward
when that pays. -/
def admitJobs (w : World Λ σ) (seam : TickSeam) (e : BatchEngine Λ σ)
    (jobs : List (Job σ)) :
    List Answer × BatchEngine Λ σ :=
  let (placed, refused, e) := e.place w (e.slots.map (·.run.isSome)) 0 jobs
  let total := (placed.map fun p => (e.feedSpan w p.2.2 p.2.1.inputIds).1).sum
  let groupCap := if e.nBatch = 0 then maxPrefillBatch
    else min e.nBatch maxPrefillBatch
  if placed.length > 1 ∧ total ≤ groupCap ∧ w.prefillBatchOk then
    match e.prefillGroup w placed with
    | (.ok (), e) => (refused ++ placed.map (fun p => (p.1, .ok p.2.2)), e)
    | (.error msg, e) =>
        (refused ++ placed.map (fun p => (p.1, .error (.server msg))),
          e.rejectAll w placed (.server msg))
  else
    let done := e.submitAll w seam placed
    (refused ++ done.1, done.2)

end BatchEngine
end Minfer.Server
