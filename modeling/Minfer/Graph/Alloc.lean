/-
The KV half of the graph allocator (`graph/alloc.rs`): the operations that
move rows and bookkeeping together, and the batch fill that decides which
cells a forward stores to.

Every operation returns its result next to the state it leaves behind: a
copy that fails half-way has already moved rows, and the callers see that.
`KvEnv` is what the environment decides: the defragmentation gate and
whether a backend refuses a particular `copy_cells` call.
-/
import Minfer.Graph.KvCache

namespace Minfer.Graph

open Lib (memmove)

-- ============================= batches

/-- One forward: `tokens[t]` at `positions[t]`, belonging to `seqIds[t]`. -/
structure Batch where
  tokens : List Nat
  positions : List Nat
  seqIds : List SeqId
deriving Repr, DecidableEq

namespace Batch

/-- `seqs`: distinct sequences, in first-appearance order. -/
def seqs (b : Batch) : List SeqId :=
  b.seqIds.foldl (fun out s => if out.contains s then out else out ++ [s]) []

/-- `n_seqs`. -/
def nSeqs (b : Batch) : Nat := b.seqs.length

/-- The loop of `groups`: `t` is the index looked at, the last entry of
`out` the run that is still open. -/
def groupsFrom : List SeqId → Nat → List (SeqId × Nat × Nat) →
    List (SeqId × Nat × Nat)
  | [], _, out => out
  | s :: rest, t, out =>
      match out.getLast? with
      | some (last, lo, _) =>
          if last = s then groupsFrom rest (t + 1) (out.dropLast ++ [(s, lo, t + 1)])
          else groupsFrom rest (t + 1) (out ++ [(s, t, t + 1)])
      | none => groupsFrom rest (t + 1) (out ++ [(s, t, t + 1)])

/-- `groups`: contiguous `(seq, lo, hi)` runs, in batch order. -/
def groups (b : Batch) : List (SeqId × Nat × Nat) := groupsFrom b.seqIds 0 []

/-- The positions of one group, `positions[lo..hi]`. -/
def groupPositions (b : Batch) (g : SeqId × Nat × Nat) : List Nat :=
  (b.positions.drop g.2.1).take (g.2.2 - g.2.1)

end Batch

-- ========================= environment

/-- What the environment decides about KV moves. -/
structure KvEnv where
  /-- `kv_defrag_enabled()`. -/
  defragEnabled : Bool
  /-- A backend's refusal of one `copy_cells` call, named by layer, region
  (`true` for V), destination, source and rows. -/
  copyErr : Nat → Bool → Nat → Nat → Nat → Option String

/-- An environment in which every copy a buffer has room for succeeds. -/
def KvEnv.plain : KvEnv := { defragEnabled := true, copyErr := fun _ _ _ _ _ => none }

variable {ρ : Type}

-- =========================== row moves

/-- `copy_cells` on one region. -/
def copyCells (env : KvEnv) (layer : Nat) (isV : Bool) (dst src rows : Nat)
    (region : List ρ) : Except String (List ρ) :=
  match env.copyErr layer isV dst src rows with
  | some e => .error e
  | none =>
    if src + rows > region.length ∨ dst + rows > region.length then
      .error
        (s!"copy_cells: {rows} rows at src {src} / dst {dst} do " ++
          s!"not fit a {region.length} row buffer")
    else .ok (memmove region dst src rows)

/-- Copy one move's rows in the K and then the V region of one layer. -/
def copyMove (env : KvEnv) (wrap : KvMove → String → String) (layer : Nat)
    (l : KvLayer ρ) (m : KvMove) : Except String Unit × KvLayer ρ :=
  match copyCells env layer false m.toCell m.fromCell m.rows l.k with
  | .error e => (.error (wrap m e), l)
  | .ok k =>
    match copyCells env layer true m.toCell m.fromCell m.rows l.v with
    | .error e => (.error (wrap m e), { l with k })
    | .ok v => (.ok (), { l with k, v })

/-- Copy a plan's rows in one layer, in list order; a move of no rows
copies nothing. -/
def copyMoves (env : KvEnv) (wrap : KvMove → String → String) (layer : Nat)
    (l : KvLayer ρ) : List KvMove → Except String Unit × KvLayer ρ
  | [] => (.ok (), l)
  | m :: rest =>
      if m.rows = 0 then copyMoves env wrap layer l rest
      else match copyMove env wrap layer l m with
        | (.ok (), l) => copyMoves env wrap layer l rest
        | (.error e, l) => (.error e, l)

/-- Copy a plan's rows in every layer, layer by layer; the first refusal
stops the walk with the earlier copies done. -/
def copyLayers (env : KvEnv) (wrap : KvMove → String → String)
    (moves : List KvMove) (c : KvCache ρ) :
    List (Nat × KvLayer ρ) → Except String Unit × KvCache ρ
  | [] => (.ok (), c)
  | (layer, l) :: rest =>
      match copyMoves env wrap layer l moves with
      | (.ok (), l) =>
          copyLayers env wrap moves { c with layers := c.layers.insert layer l } rest
      | (.error e, l) => (.error e, { c with layers := c.layers.insert layer l })

/-- The regions snapshot every row-moving operation walks. -/
def copyPlan (env : KvEnv) (wrap : KvMove → String → String)
    (moves : List KvMove) (c : KvCache ρ) : Except String Unit × KvCache ρ :=
  copyLayers env wrap moves c c.layers.toList

namespace KvCache

-- ========================== compaction

/-- What `kv_defrag` reports to whoever reserved a run. -/
structure DefragReport where
  moves : List KvMove
  rowsMoved : Nat
deriving Repr, DecidableEq

/-- `kv_defrag`: compact the arena downward, rows first, bookkeeping
after. -/
def kvDefrag (env : KvEnv) (c : KvCache ρ) (need : Option Nat) :
    Except String DefragReport × KvCache ρ :=
  let moves := c.compactionPlan need
  if moves.isEmpty then (.ok { moves, rowsMoved := 0 }, c)
  else
    let wrap := fun (m : KvMove) e =>
      (s!"kv_defrag: moving sequence {m.seq} rows " ++
        s!"{m.fromCell}..{m.fromCell + m.rows} -> {m.toCell} " ++
        s!"failed: {e}")
    match copyPlan env wrap moves c with
    | (.error e, c) => (.error e, c)
    | (.ok (), c) =>
      match c.applyMoves moves with
      | (.error e, c) => (.error e, c)
      | (.ok rowsMoved, c) => (.ok { moves, rowsMoved }, c)

/-- `kv_set_cap_with_defrag`: resize a sequence's run, moving whatever is
in the way in either direction. -/
def kvSetCapWithDefrag (env : KvEnv) (c : KvCache ρ) (seq : SeqId) (cap : Nat) :
    Except String (SeqSlot × List KvMove) × KvCache ρ :=
  match c.seqSlot seq with
  | none => (.error s!"kv_set_cap: sequence {seq} holds no run", c)
  | some old =>
    match c.setCap seq cap with
    | .error e => (.error e, c)
    | .ok (moves, c) =>
      if moves.isEmpty then
        match c.seqSlot seq with
        | none => (.error "kv_set_cap: the run vanished", c)
        | some slot => (.ok (slot, moves), c)
      else if !env.defragEnabled then
        match c.setCap seq old.cap with
        | .error e => (.error e, c)
        | .ok (_, c) =>
          (.error
            (s!"resizing sequence {seq} to {cap} cells needs a " ++
              s!"compaction and KV defragmentation is disabled"), c)
      else
        let ordered := orderMoves moves
        let wrap := fun (m : KvMove) e =>
          (s!"kv_set_cap: moving sequence {m.seq} rows " ++
            s!"{m.fromCell}..{m.fromCell + m.rows} -> {m.toCell} " ++
            s!"failed: {e}")
        match copyPlan env wrap ordered c with
        | (.error e, c) => (.error e, c)
        | (.ok (), c) =>
          match c.applyMoves ordered with
          | (.error e, c) => (.error e, c)
          | (.ok _, c) =>
            match c.seqSlot seq with
            | none => (.error "kv_set_cap: the run vanished", c)
            | some slot => (.ok (slot, ordered), c)

/-- `kv_reserve_seq_with_defrag`: reserve `cap` cells, compacting the arena
once when first-fit cannot. -/
def kvReserveSeqWithDefrag (env : KvEnv) (c : KvCache ρ) (seq : SeqId) (cap : Nat) :
    Except String (SeqSlot × List KvMove) × KvCache ρ :=
  match c.reserveSeq seq cap with
  | .ok (slot, c) => (.ok (slot, []), c)
  | .error first =>
    if !env.defragEnabled then
      (.error s!"{first} (KV defragmentation disabled)", c)
    else match c.kvDefrag env (some cap) with
      | (.error e, c) => (.error e, c)
      | (.ok report, c) =>
        if report.moves.isEmpty then (.error first, c)
        else match c.reserveSeq seq cap with
          | .error e =>
              (.error
                (s!"{e} (after a compaction that moved " ++
                  s!"{report.moves.length} run(s): {first})"), c)
          | .ok (slot, c) => (.ok (slot, report.moves), c)

-- ==================== prefixes and COW

/-- `kv_copy_prefix`: copy the first `rows` written rows of `src` into
`dst`'s run and give `dst` their ownership. -/
def kvCopyPrefix (env : KvEnv) (c : KvCache ρ) (src dst : SeqId) (rows : Nat) :
    Except String Unit × KvCache ρ :=
  if rows = 0 then (.ok (), c)
  else match c.seqSlot src with
  | none => (.error s!"kv_copy_prefix: source sequence {src} holds no run", c)
  | some fromSlot =>
    if fromSlot.shared.rows > 0 then
      (.error
        (s!"kv_copy_prefix: source sequence {src} shares a " ++
          s!"{fromSlot.shared.rows}-row prefix in place; there " ++
          s!"is no contiguous run to copy"), c)
    else match c.seqSlot dst with
    | none => (.error s!"kv_copy_prefix: destination sequence {dst} holds no run", c)
    | some toSlot =>
      if rows > c.writtenRows src then
        (.error
          (s!"kv_copy_prefix: sequence {src} has written " ++
            s!"{c.writtenRows src} rows, {rows} requested"), c)
      else if rows > toSlot.cap then
        (.error
          (s!"kv_copy_prefix: destination sequence {dst} reserved " ++
            s!"{toSlot.cap} cells, {rows} requested"), c)
      else if fromSlot.start = toSlot.start then (.ok (), c)
      else
        let wrap := fun (_ : KvMove) e =>
          (s!"kv_copy_prefix: copying {rows} rows of sequence " ++
            s!"{src} ({fromSlot.start}) into sequence {dst} " ++
            s!"({toSlot.start}) failed: {e}")
        match copyPlan env wrap [⟨dst, fromSlot.start, toSlot.start, rows⟩] c with
        | (.error e, c) => (.error e, c)
        | (.ok (), c) => (.ok (), c.ownRange dst toSlot.start (toSlot.start + rows))

/-- `kv_share_prefix`. -/
def kvSharePrefix (c : KvCache ρ) (src dst : SeqId) (rows : Nat) :
    Except String Nat × KvCache ρ :=
  match c.sharePrefix src dst rows with
  | .error e => (.error e, c)
  | .ok c => (.ok rows, c)

/-- `kv_private_row_for`: copy-on-write — make position `t` of `seq`
private because a store is about to land there. -/
def kvPrivateRowFor (env : KvEnv) (c : KvCache ρ) (seq : SeqId) (t : Nat) :
    Except String (Option KvShift) × KvCache ρ :=
  match c.privateRowFor seq t with
  | .error e => (.error e, c)
  | .ok none => (.ok none, c)
  | .ok (some shift) =>
    let wrap := fun (m : KvMove) e =>
      (s!"kv_private_row_for: moving sequence {m.seq} rows " ++
        s!"{m.fromCell}..{m.fromCell + m.rows} -> {m.toCell} " ++
        s!"failed: {e}")
    match copyPlan env wrap [⟨seq, shift.fromCell, shift.toCell, shift.rows⟩] c with
    | (.error e, c) => (.error e, c)
    | (.ok (), c) =>
      match c.applyPrivateRow shift with
      | .error e => (.error e, c)
      | .ok c => (.ok (some shift), c)

-- ========================== batch fill

/-- One query of `kv_cells_for_seq`: the cell its row is stored in. -/
def kvCellAt (c : KvCache ρ) (t : Nat) (seq : SeqId) (rel : Nat) :
    Except String Nat :=
  match c.seqSlot seq with
  | none => .error s!"kv_cells_for_seq: query {t} has no reserved run (seq {seq})"
  | some slot =>
    if rel < slot.shared.rows then
      .error
        (s!"kv_cells_for_seq: query {t} position {rel} would be " ++
          s!"written into sequence {seq}'s " ++
          s!"{slot.shared.rows}-row shared prefix (cells " ++
          s!"{slot.shared.cell}..{slot.shared.cell + slot.shared.rows}); " ++
          s!"a store must not write through a shared prefix (C8b " ++
          s!"S3 copies the row first)")
    else if rel ≥ slot.shared.rows + slot.cap then
      .error
        (s!"kv_cells_for_seq: query {t} position {rel} is past " ++
          s!"sequence {seq}'s reserved run ({slot.cap} cells at " ++
          s!"{slot.start}, holding positions " ++
          s!"{slot.shared.rows}..{slot.shared.rows + slot.cap})")
    else match c.cellOf seq rel with
      | none => .error
          (s!"kv_cells_for_seq: query {t} position {rel} is " ++
            s!"outside sequence {seq}'s span list " ++
            s!"({repr (c.spansOf seq)})")
      | some cell => .ok cell

/-- `kv_cells_for_seq`: resolve each query's store cell. -/
def kvCellsForSeq (c : KvCache ρ) (seqIds : List SeqId) (positions : List Nat) :
    Except String (List Nat) :=
  if seqIds.length ≠ positions.length then
    .error
      (s!"kv_cells_for_seq: {seqIds.length} sequence ids but " ++
        s!"{positions.length} positions")
  else forQueries c.kvCellAt 0 seqIds positions

/-- The copy-on-write pass of `fill_batch_inputs`: one per group, at the
group's lowest position, before any cell is resolved. -/
def cowPass (env : KvEnv) (b : Batch) (c : KvCache ρ) :
    List (SeqId × Nat × Nat) → Except String Unit × KvCache ρ
  | [] => (.ok (), c)
  | g :: rest =>
      match (b.groupPositions g).min? with
      | none => cowPass env b c rest
      | some t =>
        match c.kvPrivateRowFor env g.1 t with
        | (.error e, c) => (.error e, c)
        | (.ok _, c) => cowPass env b c rest

/-- The ownership pass of `fill_batch_inputs`: reserve the single
unreserved sequence of a classic forward, then own every group's
positions. -/
def ownPass (b : Batch) (c : KvCache ρ) :
    List (SeqId × Nat × Nat) → Except String Unit × KvCache ρ
  | [] => (.ok (), c)
  | g :: rest =>
      let reserved : Except String (KvCache ρ) :=
        match c.seqSlot g.1 with
        | some _ => .ok c
        | none =>
          if b.nSeqs > 1 then
            .error
              (s!"sequence {g.1} holds no KV cells; reserve it before " ++
                s!"batching                          " ++
                s!"(GraphAllocator::kv_reserve_seq)")
          else match c.reserveSeq g.1 c.nCtx with
            | .error e => .error e
            | .ok (_, c) => .ok c
      match reserved with
      | .error e => (.error e, c)
      | .ok c =>
        match c.ownPositions g.1 (b.groupPositions g) with
        | (.error e, c) => (.error e, c)
        | (.ok (), c) => ownPass b c rest

/-- `fill_batch_inputs` up to the cells it resolves: the copy-on-write
pass, the ownership pass, then `kv_cells_for_seq`. -/
def fillBatchInputs (env : KvEnv) (c : KvCache ρ) (b : Batch) :
    Except String (List Nat) × KvCache ρ :=
  match cowPass env b c b.groups with
  | (.error e, c) => (.error e, c)
  | (.ok (), c) =>
    match ownPass b c b.groups with
    | (.error e, c) => (.error e, c)
    | (.ok (), c) => (c.kvCellsForSeq b.seqIds b.positions, c)

end KvCache
end Minfer.Graph
