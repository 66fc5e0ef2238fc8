/-
The KV cell store (`graph/kvcache.rs`): a run table, the span lists
derived from it, per-layer owner tables, and the operations that reserve,
share, rewrite and compact runs of cells.

# Representation

`BTreeMap` is `Std.TreeMap` (iteration in ascending key order). A pool
buffer is a list of rows, one per cell, over an arbitrary row type `ρ`:
the store itself never looks at a row, it only says where rows live. The
two persistent regions of a layer sit in the layer record, in place of
the `BufRef` handles the source keeps there — a handle is allocated once
per layer and region and never reassigned, so the two are interchangeable.
`usize` is `Nat`; every quantity here is bounded by the arena.

Operations the source writes as "validate, then apply" return
`Except String (KvCache ρ)`; the two that can fail half-way
(`own_positions`, `apply_moves`) return the state they leave behind next
to the result.
-/
import Mathlib.Algebra.GroupWithZero.Nat
import Mathlib.Data.List.Sort
import Minfer.Lib.Memmove

namespace Minfer.Graph

open Lib (InRun memmove)

-- ========================== data model

/-- Sequence identifier (`u32`). -/
abbrev SeqId := Nat

/-- The one sequence the classic single-sequence path builds. -/
def seqMain : SeqId := 0

/-- A cell no sequence owns (`u32::MAX`). -/
def free : SeqId := 4294967295

/-- The backend handles, in registry-id order. -/
inductive Backend where
  | cpu
  | metal
  | cuda
deriving Repr, DecidableEq

/-- One layer's KV arena: the two persistent regions plus per-cell
ownership. -/
structure KvLayer (ρ : Type) where
  /-- Where both regions live (`k.backend`). -/
  backend : Backend
  k : List ρ
  v : List ρ
  /-- Element count of one region. -/
  elems : Nat
  nCtx : Nat
  /-- The logical row width. -/
  nEmbd : Nat
  packed : Bool
  owner : List SeqId
  /-- Highest written row + 1. -/
  nUsed : Nat
deriving Repr, DecidableEq

/-- A prefix a sequence reads from another sequence's rows. -/
structure SharedPrefix where
  cell : Nat
  rows : Nat
deriving Repr, DecidableEq

/-- A sequence's reserved cell run: cells `[start, start + cap)` hold
positions `[shared.rows, shared.rows + cap)`. -/
structure SeqSlot where
  start : Nat
  cap : Nat
  shared : SharedPrefix
  /-- Positions written so far, the shared prefix included. -/
  written : Nat
deriving Repr, DecidableEq

/-- A private run with nothing written. -/
def SeqSlot.new (start cap : Nat) : SeqSlot :=
  { start, cap, shared := ⟨0, 0⟩, written := 0 }

/-- Rows the sequence wrote into its own run. -/
def SeqSlot.privateWritten (s : SeqSlot) : Nat := s.written - s.shared.rows

/-- One span of a sequence's address space. -/
structure Span where
  /-- First position. -/
  base : Nat
  /-- First cell. -/
  cell : Nat
  len : Nat
deriving Repr, DecidableEq

/-- The span list a slot stands for: the shared prefix (the donor's
cells) if there is one, then the private run. -/
def SeqSlot.spanList (slot : SeqSlot) : List Span :=
  (if slot.shared.rows > 0 then
    [⟨0, slot.shared.cell, slot.shared.rows⟩] else [])
    ++ (if slot.cap > 0 then [⟨slot.shared.rows, slot.start, slot.cap⟩] else [])

/-- One run relocation of a compaction plan. -/
structure KvMove where
  seq : SeqId
  fromCell : Nat
  toCell : Nat
  rows : Nat
deriving Repr, DecidableEq

/-- The move a copy-on-write performs inside one sequence's own run. -/
structure KvShift where
  seq : SeqId
  /-- Position the run's first cell holds after the shift. -/
  base : Nat
  fromCell : Nat
  toCell : Nat
  rows : Nat
deriving Repr, DecidableEq

/-- The KV cell store of one allocator. -/
structure KvCache (ρ : Type) where
  layers : Std.TreeMap Nat (KvLayer ρ)
  identity : Bool
  seqs : Std.TreeMap SeqId SeqSlot
  spans : Std.TreeMap SeqId (List Span)
  nCtx : Nat
  defrags : Nat
  cellsMoved : Nat
  cows : Nat
  cowCells : Nat

variable {ρ : Type}

namespace KvCache

/-- `KvCache::new`. -/
def new : KvCache ρ where
  layers := ∅
  identity := true
  seqs := ∅
  spans := ∅
  nCtx := 0
  defrags := 0
  cellsMoved := 0
  cows := 0
  cowCells := 0

/-- `set_n_ctx`: declare the arena's row capacity. -/
def setNCtx (c : KvCache ρ) (nCtx : Nat) : KvCache ρ := { c with nCtx := nCtx }

/-- `insert`: register a layer's regions, every cell free. -/
def insert (c : KvCache ρ) (layer : Nat) (backend : Backend) (k v : List ρ)
    (nEmbd rowElems nCtx : Nat) (packed : Bool) : KvCache ρ :=
  { c with
    nCtx := max c.nCtx nCtx
    layers := c.layers.insert layer
      { backend, k, v, elems := rowElems * nCtx, nCtx, nEmbd, packed,
        owner := List.replicate nCtx free, nUsed := 0 } }

/-- `any_packed`. -/
def anyPacked (c : KvCache ρ) : Bool := c.layers.toList.any (·.2.packed)

-- ========================== resolution

/-- `refresh_spans`: rederive `seq`'s span list from its slot. -/
def refreshSpans (c : KvCache ρ) (seq : SeqId) : KvCache ρ :=
  match c.seqs[seq]? with
  | some slot =>
      if slot.spanList.isEmpty then { c with spans := c.spans.erase seq }
      else { c with spans := c.spans.insert seq slot.spanList }
  | none => { c with spans := c.spans.erase seq }

/-- Store a changed slot and rederive its spans: the pair of statements
every path that changes a run's `start`, `cap` or `shared` ends in. -/
def putSlot (c : KvCache ρ) (seq : SeqId) (slot : SeqSlot) : KvCache ρ :=
  { c with seqs := c.seqs.insert seq slot }.refreshSpans seq

/-- `cell_of`: the cell `pos` resolves to for `seq`, through the span
list. -/
def cellOf (c : KvCache ρ) (seq : SeqId) (pos : Nat) : Option Nat :=
  match c.spans[seq]? with
  | none => none
  | some spans => spans.findSome? fun s =>
      if pos ≥ s.base ∧ pos < s.base + s.len then some (s.cell + (pos - s.base))
      else none

/-- `pos_of_cell`: the position `cell` holds for `seq`, inverting the span
list. -/
def posOfCell (c : KvCache ρ) (seq : SeqId) (cell : Nat) : Option Nat :=
  match c.spans[seq]? with
  | none => none
  | some spans => spans.findSome? fun s =>
      if cell ≥ s.cell ∧ cell < s.cell + s.len then some (s.base + (cell - s.cell))
      else none

/-- `spans_of`. -/
def spansOf (c : KvCache ρ) (seq : SeqId) : List Span :=
  (c.spans[seq]?).getD []

/-- `seq_slot`. -/
def seqSlot (c : KvCache ρ) (seq : SeqId) : Option SeqSlot := c.seqs[seq]?

/-- `written_rows`: positions `seq` has written, its shared prefix
included. -/
def writtenRows (c : KvCache ρ) (seq : SeqId) : Nat :=
  match c.seqs[seq]? with
  | some s => s.written
  | none => 0

/-- `occupied`: the cells covered by any live sequence's spans. The
source marks them span by span; here each cell is asked once. -/
def occupied (c : KvCache ρ) : List Bool :=
  (List.range c.nCtx).map fun cell =>
    c.spans.toList.any fun e => e.2.any fun s => InRun s.cell s.len cell

-- =================== attention windows

/-- How many `(cell, len)` runs one query's `kv_map` entry carries. -/
def kvMapMaxSpans : Nat := 4

/-- One query of `attn_span`: its `[lo, hi)` window. -/
def attnSpanAt (c : KvCache ρ) (t : Nat) (seq : SeqId) (rel : Nat) :
    Except String (Nat × Nat) :=
  match c.spansOf seq with
  | [] => .error
      s!"attn_span: query {t} belongs to sequence {seq}, which holds no cells"
  | [one] =>
      match c.cellOf seq rel with
      | none => .error
          (s!"attn_span: query {t} (sequence {seq}, position " ++
            s!"{rel}) is outside its reserved run [{one.cell}, " ++
            s!"{one.cell + one.len})")
      | some cell =>
          if rel ≥ c.writtenRows seq then
            .error (s!"attn_span: query {t} (sequence {seq}, position " ++
                s!"{rel}) resolves to cell {cell}, which was not " ++
                s!"written by sequence {seq}")
          else .ok (one.cell, min (one.cell + one.len) (cell + 1))
  | many => .error
      (s!"attn_span: query {t} belongs to sequence {seq}, " ++
        s!"which is laid out in {many.length} spans; a window " ++
        s!"that is not one contiguous range needs the C8b S2 " ++
        s!"`kv_map` input")

/-- Run a per-query resolver over a batch, stopping at the first refusal. -/
def forQueries {α : Type} (f : Nat → SeqId → Nat → Except String α) :
    Nat → List SeqId → List Nat → Except String (List α)
  | t, seq :: seqs, rel :: rels =>
      match f t seq rel with
      | .error e => .error e
      | .ok x => match forQueries f (t + 1) seqs rels with
        | .error e => .error e
        | .ok xs => .ok (x :: xs)
  | _, _, _ => .ok []

/-- `attn_span`: every query's window, `lo`s first, then `hi`s. -/
def attnSpan (c : KvCache ρ) (seqIds : List SeqId) (positions : List Nat) :
    Except String (List Nat) :=
  if positions.length ≠ seqIds.length then
    .error (s!"attn_span: {seqIds.length} sequence ids but " ++
        s!"{positions.length} positions")
  else if c.layers.isEmpty then .error "attn_span: no KV arena allocated"
  else match forQueries c.attnSpanAt 0 seqIds positions with
    | .error e => .error e
    | .ok ws => .ok (ws.map (·.1) ++ ws.map (·.2))

/-- The runs of `attn_map` for one query: every span that starts at or
before `rel`, the last one clipped to the query's own row. -/
def mapRuns (rel : Nat) : List Span → List (Nat × Nat)
  | [] => []
  | s :: rest =>
      if s.base > rel then []
      else
        let take := min s.len (rel + 1 - s.base)
        if take = 0 then mapRuns rel rest
        else (s.cell, take) :: mapRuns rel rest

/-- One query of `attn_map`: its runs, zero-padded to the fixed shape. -/
def attnMapAt (c : KvCache ρ) (t : Nat) (seq : SeqId) (rel : Nat) :
    Except String (List (Nat × Nat)) :=
  let spans := c.spansOf seq
  if spans.isEmpty then
    .error (s!"attn_map: query {t} belongs to sequence {seq}, " ++
        s!"which holds no cells")
  else if rel ≥ c.writtenRows seq then
    .error (s!"attn_map: query {t} (sequence {seq}, position " ++
        s!"{rel}) has not been written")
  else
    let runs := mapRuns rel spans
    if runs.length > kvMapMaxSpans then
      .error (s!"attn_map: query {t} (sequence {seq}, position " ++
          s!"{rel}) needs more than {kvMapMaxSpans} cell runs " ++
          s!"(spans {repr spans})")
    else if runs.isEmpty then
      .error (s!"attn_map: query {t} (sequence {seq}, position " ++
          s!"{rel}) resolves to no cells (spans {repr spans})")
    else .ok (runs ++ List.replicate (kvMapMaxSpans - runs.length) (0, 0))

/-- `attn_map`: the `kv_map` input of a batch. -/
def attnMap (c : KvCache ρ) (seqIds : List SeqId) (positions : List Nat) :
    Except String (List (Nat × Nat)) :=
  if positions.length ≠ seqIds.length then
    .error (s!"attn_map: {seqIds.length} sequence ids but " ++
        s!"{positions.length} positions")
  else if c.layers.isEmpty then .error "attn_map: no KV arena allocated"
  else match forQueries c.attnMapAt 0 seqIds positions with
    | .error e => .error e
    | .ok maps => .ok maps.flatten

-- ========================= reservation

/-- The first-fit scan of `reserve_seq`: `start` is the cell looked at and
`run` the number of free cells directly below it. -/
def firstFit (cap : Nat) : List Bool → Nat → Nat → Option Nat
  | [], _, _ => none
  | true :: rest, start, _ => firstFit cap rest (start + 1) 0
  | false :: rest, start, run =>
      if run + 1 = cap then some (start + 1 - cap)
      else firstFit cap rest (start + 1) (run + 1)

/-- Cells reserved by all live runs together. -/
def reservedCells (c : KvCache ρ) : Nat := (c.seqs.toList.map (·.2.cap)).sum

/-- `reserve_seq`: first-fit a run of `cap` cells no live sequence
covers. -/
def reserveSeq (c : KvCache ρ) (seq : SeqId) (cap : Nat) :
    Except String (SeqSlot × KvCache ρ) :=
  if cap = 0 then
    .error s!"reserve_seq: sequence {seq} asked for 0 cells"
  else match c.seqs[seq]? with
  | some slot =>
      if slot.cap ≥ cap then .ok (slot, c)
      else .error (s!"reserve_seq: sequence {seq} already holds " ++
          s!"{slot.cap} cells, {cap} requested (no growth)")
  | none =>
      if c.nCtx = 0 then .error "reserve_seq: no KV arena allocated"
      else match firstFit cap c.occupied 0 0 with
        | some start =>
            let slot := SeqSlot.new start cap
            .ok (slot, c.putSlot seq slot)
        | none =>
            .error (s!"reserve_seq: no free run of {cap} cells for " ++
                s!"sequence {seq} ({c.reservedCells} of {c.nCtx} cells " ++
                s!"reserved)")

/-- Overwrite the entries `[lo, hi)` of an owner table that satisfy `p`. -/
def setOwnerIf (owner : List SeqId) (lo hi : Nat) (p : SeqId → Bool)
    (seq : SeqId) : List SeqId :=
  owner.mapIdx fun cell o => if lo ≤ cell ∧ cell < hi ∧ p o then seq else o

/-- `release_seq`: drop everything `seq` reserved and owned; returns the
freed capacity. -/
def releaseSeq (c : KvCache ρ) (seq : SeqId) : Nat × KvCache ρ :=
  match c.seqs[seq]? with
  | none => (0, c)
  | some slot =>
      let c := { c with seqs := c.seqs.erase seq }.refreshSpans seq
      let layers := c.layers.map fun _ l =>
        let hi := min (slot.start + slot.cap) l.owner.length
        { l with owner := setOwnerIf l.owner slot.start hi (· == seq) free }
      (slot.cap, { c with layers })

-- =========================== ownership

/-- The written extent after owning `cells`, from the extent `w`. A cell
outside the sequence's spans is only a debug assertion in the source, so
it counts nothing here. -/
def raiseWritten (c : KvCache ρ) (seq : SeqId) (w : Nat) (cells : List Nat) : Nat :=
  cells.foldl (fun w cell => max w (((c.posOfCell seq cell).map (· + 1)).getD 0)) w

/-- `own_range`: take ownership of cells `[lo, hi)` for `seq` in every
layer and raise its written extent. -/
def ownRange (c : KvCache ρ) (seq : SeqId) (lo hi : Nat) : KvCache ρ :=
  let layers := c.layers.map fun _ l =>
    let upto := min hi l.owner.length
    { l with owner := setOwnerIf l.owner (min lo upto) upto (fun _ => true) seq
             nUsed := max l.nUsed upto }
  match c.seqs[seq]? with
  | some slot =>
      let written := c.raiseWritten seq slot.written (List.range' lo (hi - lo))
      { c with layers := layers
               seqs := c.seqs.insert seq { slot with written := written } }
  | none => { c with layers := layers }

/-- `own_positions`: mark the rows this forward wrote, given the positions
it wrote them at. A position no span covers stops the loop with the
earlier positions already owned. -/
def ownPositions (c : KvCache ρ) (seq : SeqId) :
    List Nat → Except String Unit × KvCache ρ
  | [] => (.ok (), c)
  | pos :: rest =>
      match c.cellOf seq pos with
      | none =>
          (.error (s!"own_positions: sequence {seq} wrote position {pos}, " ++
              s!"which its span list {repr (c.spansOf seq)} does not " ++
              s!"cover"), c)
      | some cell => (c.ownRange seq cell (cell + 1)).ownPositions seq rest

-- ============================= sharing

/-- `share_prefix`: let `dst` read the first `rows` positions of `src` in
place. -/
def sharePrefix (c : KvCache ρ) (src dst : SeqId) (rows : Nat) :
    Except String (KvCache ρ) :=
  if rows = 0 then .error "share_prefix: asked to share 0 rows"
  else if src = dst then
    .error s!"share_prefix: sequence {src} cannot share with itself"
  else match c.seqs[src]? with
  | none => .error s!"share_prefix: source sequence {src} holds no run"
  | some donor =>
    if donor.written < rows then
      .error (s!"share_prefix: sequence {src} has written " ++
          s!"{donor.written} rows, {rows} requested")
    else match c.seqs[dst]? with
    | none => .error s!"share_prefix: destination sequence {dst} holds no run"
    | some slot =>
      if slot.shared.rows > 0 then
        .error (s!"share_prefix: sequence {dst} already shares " ++
            s!"{slot.shared.rows} rows")
      else if slot.written > 0 then
        .error (s!"share_prefix: sequence {dst} has written " ++
            s!"{slot.written} rows of its own")
      else match c.cellOf src 0 with
      | none => .error s!"share_prefix: sequence {src} has no first cell"
      | some cell =>
        -- contiguity: the prefix must be one span entry
        if c.cellOf src (rows - 1) = some (cell + rows - 1) then
          .ok (c.putSlot dst { slot with shared := ⟨cell, rows⟩, written := rows })
        else
          .error (s!"share_prefix: sequence {src} does not hold " ++
              s!"positions [0, {rows}) as one contiguous range " ++
              s!"(spans {repr (c.spansOf src)})")

/-- `private_row_for`: the copy-on-write a store at position `t` needs, or
`none` when `t` already resolves into the sequence's own run. -/
def privateRowFor (c : KvCache ρ) (seq : SeqId) (t : Nat) :
    Except String (Option KvShift) :=
  match c.seqs[seq]? with
  | none => .ok none
  | some slot =>
    if slot.shared.rows = 0 ∨ t ≥ slot.shared.rows then .ok none
    else
      let d := slot.shared.rows - t
      let rows := slot.privateWritten
      if rows + d > slot.cap then
        .error (s!"private_row_for: sequence {seq} cannot take " ++
            s!"position {t} privately: its {rows} written row(s) " ++
            s!"would move {d} cell(s) into a run of {slot.cap} " ++
            s!"cells (shared prefix of {slot.shared.rows})")
      else .ok (some { seq, base := t, fromCell := slot.start,
                       toCell := slot.start + d, rows })

/-- The used extent an owner table shows: last owned cell + 1. -/
def usedExtent (owner : List SeqId) : Nat :=
  match owner.reverse.findIdx? (· ≠ free) with
  | some i => owner.length - i
  | none => 0

/-- A shift's effect on one layer's owner table: the rows keep their owner
stamps, the cells they vacated are free. -/
def shiftOwner (shift : KvShift) (l : KvLayer ρ) : KvLayer ρ :=
  let moved := if shift.rows > 0 then
      memmove l.owner shift.toCell shift.fromCell shift.rows
    else l.owner
  let owner := setOwnerIf moved shift.fromCell shift.toCell (· == shift.seq) free
  { l with owner, nUsed := usedExtent owner }

/-- `apply_private_row`: the bookkeeping half of a copy-on-write. -/
def applyPrivateRow (c : KvCache ρ) (shift : KvShift) :
    Except String (KvCache ρ) :=
  match c.seqs[shift.seq]? with
  | none => .error s!"apply_private_row: sequence {shift.seq} holds no run"
  | some slot =>
    if slot.start ≠ shift.fromCell ∨ slot.shared.rows ≤ shift.base
        ∨ slot.privateWritten ≠ shift.rows then
      .error (s!"apply_private_row: sequence {shift.seq} is not in " ++
          s!"the state the shift was planned from (run at " ++
          s!"{slot.start}, {slot.shared.rows} shared row(s), " ++
          s!"{slot.privateWritten} private row(s); shift " ++
          s!"{repr shift})")
    else match c.layers.toList.find? fun l =>
        decide (shift.toCell + shift.rows > l.2.owner.length
          ∨ shift.fromCell + shift.rows > l.2.owner.length) with
    | some (_, l) =>
        .error (s!"apply_private_row: {repr shift} does not fit a " ++
            s!"{l.owner.length}-cell arena")
    | none =>
      let c' := c.putSlot shift.seq
        { slot with shared := { slot.shared with rows := shift.base } }
      .ok { c' with layers := c.layers.map fun _ l => shiftOwner shift l
                    cows := c.cows + 1
                    cowCells := c.cowCells + shift.rows * c.layers.size }

-- ========================== compaction

/-- The order `runs.sort_by_key` uses: by `start`, then by sequence. -/
def runLe (a b : SeqId × SeqSlot) : Prop :=
  a.2.start < b.2.start ∨ (a.2.start = b.2.start ∧ a.1 ≤ b.1)

instance : DecidableRel runLe := fun _ _ => inferInstanceAs (Decidable (_ ∨ _))

/-- The live runs in ascending `start` order. -/
def sortedRuns (c : KvCache ρ) : List (SeqId × SeqSlot) :=
  (c.seqs.toList.filter fun r => r.2.cap > 0).insertionSort runLe

/-- Where the free cells behind a run end: at the next run, or at the end
of the arena. -/
def gapEnd (nCtx : Nat) : List (SeqId × SeqSlot) → Nat
  | (_, next) :: _ => next.start
  | [] => nCtx

/-- The packing loop of `compaction_plan`: `cursor` is the packed end so
far. With `need = some n` the loop stops once `n` free cells lie between
the cursor and the next run that stays where it is. -/
def packRuns (nCtx : Nat) (need : Option Nat) :
    Nat → List (SeqId × SeqSlot) → List KvMove
  | _, [] => []
  | cursor, (seq, slot) :: rest =>
      let here := if slot.start ≠ cursor then
          [{ seq, fromCell := slot.start, toCell := cursor,
             rows := slot.privateWritten }]
        else []
      if need.any fun n => gapEnd nCtx rest - (cursor + slot.cap) ≥ n then here
      else here ++ packRuns nCtx need (cursor + slot.cap) rest

/-- `compaction_plan`: the moves that pack the live runs downward. -/
def compactionPlan (c : KvCache ρ) (need : Option Nat) : List KvMove :=
  packRuns c.nCtx need 0 c.sortedRuns

end KvCache

/-- The comparator of `order_moves`: upward moves first and top-down, then
downward moves bottom-up. -/
def moveLe (a b : KvMove) : Prop :=
  if a.toCell > a.fromCell then
    if b.toCell > b.fromCell then b.fromCell ≤ a.fromCell else True
  else
    if b.toCell > b.fromCell then False else a.fromCell ≤ b.fromCell

instance : DecidableRel moveLe := fun a b => by
  unfold moveLe
  infer_instance

/-- `order_moves`: order relocations so that an overlapping move never
lands on a row that has not been copied yet. -/
def orderMoves (moves : List KvMove) : List KvMove := moves.insertionSort moveLe

namespace KvCache

/-- `set_cap`: set `seq`'s reservation to `cap` cells and return the
compaction plan that reconciles the arena. -/
def setCap (c : KvCache ρ) (seq : SeqId) (cap : Nat) :
    Except String (List KvMove × KvCache ρ) :=
  match c.seqs[seq]? with
  | none => .error s!"set_cap: sequence {seq} holds no run"
  | some slot =>
    let others := ((c.seqs.toList.filter fun r => r.1 ≠ seq).map (·.2.cap)).sum
    if cap = slot.cap then .ok ([], c)
    else if cap = 0 then
      let c := (c.releaseSeq seq).2
      .ok (c.compactionPlan none, c)
    else if cap < slot.cap ∧ cap < slot.privateWritten then
      .error (s!"set_cap: sequence {seq} has written " ++
          s!"{slot.privateWritten} rows and cannot shrink to " ++
          s!"{cap}")
    else if slot.cap < cap ∧ others + cap > c.nCtx then
      .error (s!"set_cap: sequence {seq} asked for {cap} cells, " ++
          s!"{others} are reserved elsewhere and the arena holds " ++
          s!"{c.nCtx}")
    else
      let c := c.putSlot seq { slot with cap }
      .ok (c.compactionPlan none, c)

/-- One run's place after the plan, or the refusal of a plan that does not
describe this table. -/
def plannedRun (moves : List KvMove) (r : SeqId × SeqSlot) :
    Except String (Nat × Nat) :=
  match moves.find? (·.seq == r.1) with
  | some m =>
      if r.2.start ≠ m.fromCell then
        .error (s!"apply_moves: sequence {r.1} starts at {r.2.start}, " ++
            s!"the plan says {m.fromCell}")
      else if m.rows > r.2.cap then
        .error (s!"apply_moves: {repr m} copies {m.rows} rows but the " ++
            s!"run holds {r.2.cap}")
      else .ok (m.toCell, r.2.cap)
  | none => .ok (r.2.start, r.2.cap)

/-- The order of `planned.sort_unstable()`: lexicographic on pairs. -/
def pairLe (a b : Nat × Nat) : Prop := a.1 < b.1 ∨ (a.1 = b.1 ∧ a.2 ≤ b.2)

instance : DecidableRel pairLe := fun _ _ => inferInstanceAs (Decidable (_ ∨ _))

/-- The `windows(2)` walk and the arena bound: consecutive planned runs do
not overlap and the last one ends inside `nCtx` cells. -/
def checkPlanned (nCtx : Nat) : List (Nat × Nat) → Except String Unit
  | [] => .ok ()
  | [(start, cap)] =>
      if start + cap > nCtx then
        .error (s!"apply_moves: the plan ends at {start + cap} but the " ++
            s!"arena holds {nCtx} cells")
      else .ok ()
  | a :: b :: rest =>
      if a.1 + a.2 > b.1 then
        .error (s!"apply_moves: runs would overlap after the plan " ++
            s!"({a.1}..{a.1 + a.2} then {b.1})")
      else checkPlanned nCtx (b :: rest)

/-- The validation of `apply_moves`, against the post-state layout. -/
def checkPlan (c : KvCache ρ) (moves : List KvMove) : Except String Unit :=
  match c.seqs.toList.mapM (plannedRun moves) with
  | .error e => .error e
  | .ok planned => checkPlanned c.nCtx (planned.insertionSort pairLe)

/-- One move's effect on one layer's owner table. -/
def moveOwner (m : KvMove) (l : KvLayer ρ) : KvLayer ρ :=
  let rows := min m.rows (l.owner.length - m.fromCell)
  let owner := if rows > 0 then
      let moved := memmove l.owner m.toCell m.fromCell rows
      let lo := min m.toCell m.fromCell
      let hi := min (max m.toCell m.fromCell + rows) moved.length
      -- free what the move vacated: outside the destination, own stamp only
      moved.mapIdx fun cell o =>
        if lo ≤ cell ∧ cell < hi ∧ ¬ InRun m.toCell rows cell ∧ o = m.seq then free
        else o
    else l.owner
  { l with owner, nUsed := usedExtent owner }

/-- The sharers whose prefix overlaps the rows a move copies. -/
def sharersOf (c : KvCache ρ) (m : KvMove) : List (SeqId × SeqSlot) :=
  c.seqs.toList.filter fun r =>
    decide (r.1 ≠ m.seq ∧ r.2.shared.rows ≠ 0
      ∧ r.2.shared.cell < m.fromCell + m.rows
      ∧ m.fromCell < r.2.shared.cell + r.2.shared.rows)

/-- The prefix reaches past the copied rows, so following the move would
have to split it. -/
def straddles (m : KvMove) (r : SeqId × SeqSlot) : Bool :=
  decide (r.2.shared.cell < m.fromCell
    ∨ r.2.shared.cell + r.2.shared.rows > m.fromCell + m.rows)

/-- Point one sharer's prefix at the rows' new cells. -/
def followMove (m : KvMove) (c : KvCache ρ) (r : SeqId × SeqSlot) : KvCache ρ :=
  c.putSlot r.1
    { r.2 with shared :=
      ⟨m.toCell + (r.2.shared.cell - m.fromCell), r.2.shared.rows⟩ }

/-- Move the run itself: a slot and its spans, and nothing when the
sequence holds no run. -/
def moveRun (c : KvCache ρ) (m : KvMove) : KvCache ρ :=
  match c.seqs[m.seq]? with
  | some slot => c.putSlot m.seq { slot with start := m.toCell }
  | none => c.refreshSpans m.seq

/-- The last step of a move: every sharer that reads its rows follows, or
the plan is refused. -/
def followSharers (c : KvCache ρ) (m : KvMove) : Except String Unit × KvCache ρ :=
  if m.rows > 0 then
    match (c.sharersOf m).find? (straddles m) with
    | some r =>
        (.error (s!"apply_moves: sequence {r.1}'s {r.2.shared.rows}-row " ++
            s!"shared prefix ({r.2.shared.cell}, " ++
            s!"{r.2.shared.cell + r.2.shared.rows}) straddles the " ++
            s!"{m.rows}-row range moved from {m.fromCell} to " ++
            s!"{m.toCell} — it would have to split"), c)
    | none => (.ok (), (c.sharersOf m).foldl (followMove m) c)
  else (.ok (), c)

/-- One iteration of the `apply_moves` loop: owner tables, the moved run,
then the sharers that read its rows. -/
def applyMove (c : KvCache ρ) (m : KvMove) : Except String Unit × KvCache ρ :=
  ({ c with layers := c.layers.map fun _ l => moveOwner m l }.moveRun
    m).followSharers m

/-- The loop of `apply_moves`. -/
def applyMovesLoop (c : KvCache ρ) : List KvMove → Except String Unit × KvCache ρ
  | [] => (.ok (), c)
  | m :: rest =>
      match c.applyMove m with
      | (.ok (), c) => c.applyMovesLoop rest
      | (.error e, c) => (.error e, c)

/-- `apply_moves`: the bookkeeping half of a plan. Returns the rows moved
per layer. -/
def applyMoves (c : KvCache ρ) (moves : List KvMove) :
    Except String Nat × KvCache ρ :=
  if moves.isEmpty then (.ok 0, c)
  else
    let moves := orderMoves moves
    match c.checkPlan moves with
    | .error e => (.error e, c)
    | .ok () =>
      match c.applyMovesLoop moves with
      | (.error e, c) => (.error e, c)
      | (.ok (), c) =>
          let rowsMoved := (moves.map (·.rows)).sum
          (.ok rowsMoved,
            { c with defrags := c.defrags + 1
                     cellsMoved := c.cellsMoved + rowsMoved * c.layers.size })

end KvCache
end Minfer.Graph
