/-
The session file (`graph/kvsession.rs`): a header, one block of K and V
words per layer, the arena's bookkeeping, the caller's host state and a
checksum.

A word of a region is the bit pattern of an f32. The checksum of a sink is
the one of everything written to it, so it is computed when the sink is
finished; a source hashes what it reads as it reads it. Writing the bytes
to a disk and opening a path do not fail here.
-/
import Minfer.Graph.Pool
import Minfer.Graph.Session
import Minfer.Lib.Bytes
import Minfer.Lib.Stream

namespace Minfer.Graph

open Lib (Reader leBytes leNat)

-- ============================= formats

/-- One f32 word of a region, by its bits. -/
abbrev Word := UInt32

/-- `KvFormat`. -/
inductive KvFormat where
  | f32
  | f16
  | q8_0
deriving Repr, DecidableEq

/-- `KvFormat::name`. -/
def KvFormat.name : KvFormat → String
  | .f32 => "f32"
  | .f16 => "f16"
  | .q8_0 => "q8_0"

/-- `KvFormat::row_elems`: the words of one cell. -/
def KvFormat.rowElems (format : KvFormat) (nkt : Nat) : Nat :=
  match format with
  | .f32 | .f16 => nkt
  | .q8_0 => GraphAllocator.rowElemsQ8 nkt

/-- `Backend::index`. -/
def Backend.index : Backend → Nat
  | .cpu => 0
  | .metal => 1
  | .cuda => 2

/-- `Backend::from_index`. -/
def Backend.fromIndex : Nat → Option Backend
  | 0 => some .cpu
  | 1 => some .metal
  | 2 => some .cuda
  | _ => none

/-- `KvSessionHeader`. -/
structure KvSessionHeader where
  version : Nat
  format : KvFormat
  backend : Backend
  nLayer : Nat
  nCtx : Nat
  /-- The logical row width. -/
  nEmbd : Nat
  /-- Stored words per cell. -/
  rowElems : Nat
deriving Repr, DecidableEq

/-- `layer_words`: the words of one of a layer's two regions. -/
def KvSessionHeader.layerWords (h : KvSessionHeader) : Nat := h.nCtx * h.rowElems

/-- `KvSessionExpect`. -/
structure KvSessionExpect where
  backend : Backend
  nCtx : Nat
  nEmbd : Nat
deriving Repr, DecidableEq

/-- `KvSessionReport`. -/
structure KvSessionReport where
  layers : Nat
  cells : Nat
  bytes : Nat
  written : Nat
deriving Repr, DecidableEq

/-- What `next_layer` yields: a layer's index and the words of its regions. -/
structure SessionLayer where
  layer : Nat
  k : List Word
  v : List Word
deriving Repr, DecidableEq

/-- `KvSessionBody`. -/
structure KvSessionBody where
  state : KvSessionState
  host : List UInt8
  report : KvSessionReport
deriving Repr, DecidableEq

namespace KvSession

/-- `MAGIC`. -/
def magic : List UInt8 := [77, 73, 78, 70, 69, 82, 75, 86]

/-- `VERSION`. -/
def version : Nat := 2

/-- `flags_of`: bit 0 is `FLAG_PACKED`, bit 1 `FLAG_F16`. -/
def flagsOf : KvFormat → Nat
  | .q8_0 => 1
  | .f16 => 2
  | .f32 => 0

/-- `format_of_flags`. -/
def formatOfFlags (flags : Nat) : KvFormat :=
  if flags.testBit 0 then .q8_0 else if flags.testBit 1 then .f16 else .f32

/-- `FNV_OFFSET`. -/
def fnvOffset : UInt64 := 0xcbf29ce484222325

/-- `FNV_PRIME`. -/
def fnvPrime : UInt64 := 0x00000100000001b3

/-- `hash_bytes`, one byte of it. -/
def hashByte (h : UInt64) (b : UInt8) : UInt64 := (h ^^^ b.toUInt64) * fnvPrime

/-- `hash_bytes`. -/
def hashBytes (h : UInt64) (bytes : List UInt8) : UInt64 := bytes.foldl hashByte h

/-- The buffer of `words`, in words. -/
def chunk : Nat := 2 ^ 14

-- ============================= writing

/-- `Sink::u32`. -/
def u32 (v : Nat) : List UInt8 := leBytes 4 v

/-- `Sink::u64`. -/
def u64 (v : Nat) : List UInt8 := leBytes 8 v

/-- `slice::chunks`: runs of `chunk` words, and what is left. -/
def chunks : Nat → List Word → List (List Word)
  | _, [] => []
  | 0, _ => []
  | fuel + 1, ws => ws.take chunk :: chunks fuel (ws.drop chunk)

/-- `Sink::words`, a buffer at a time. -/
def words (ws : List Word) : List UInt8 :=
  (chunks ws.length ws).flatMap fun buf => buf.flatMap fun w => u32 w.toNat

/-- One row of the run table. -/
def writeRun (r : SeqId × SeqSlot) : List UInt8 :=
  u32 r.1 ++ u32 r.2.start ++ u32 r.2.cap ++ u32 r.2.shared.cell
    ++ u32 r.2.shared.rows
    ++ u32 r.2.written

/-- One span. -/
def writeSpan (s : Span) : List UInt8 := u32 s.base ++ u32 s.cell ++ u32 s.len

/-- One span list. -/
def writeSpans (r : SeqId × List Span) : List UInt8 :=
  u32 r.1 ++ u32 r.2.length ++ r.2.flatMap writeSpan

/-- One layer's bookkeeping. -/
def writeLayerState (ls : KvLayerSession) : List UInt8 :=
  u32 ls.layer ++ u32 ls.nUsed ++ u32 ls.owner.length ++ ls.owner.flatMap u32

/-- `write_state`. -/
def writeState (st : KvSessionState) : List UInt8 :=
  u32 st.identity.toNat ++ u32 st.nCtx
    ++ (u32 st.seqs.length ++ st.seqs.flatMap writeRun)
    ++ (u32 st.spans.length ++ st.spans.flatMap writeSpans)
    ++ (u32 st.layers.length ++ st.layers.flatMap writeLayerState)
    ++ (u64 st.defrags ++ u64 st.cellsMoved ++ u64 st.cows ++ u64 st.cowCells)

end KvSession

open KvSession in
/-- `KvSessionWriter`: what its sink has taken so far. -/
structure KvSessionWriter where
  sink : List UInt8
  header : KvSessionHeader
  layers : Nat
  host : List UInt8

namespace KvSessionWriter

open KvSession

/-- `create`. -/
def create (header : KvSessionHeader) : KvSessionWriter where
  sink := magic ++ u32 header.version ++ u32 (flagsOf header.format)
    ++ u32 header.backend.index
    ++ u32 header.nLayer ++ u32 header.nCtx ++ u32 header.nEmbd ++ u32 header.rowElems
  header := header
  layers := 0
  host := []

/-- `set_host`. -/
def setHost (w : KvSessionWriter) (host : List UInt8) : KvSessionWriter :=
  { w with host }

/-- `layer`. -/
def layer (w : KvSessionWriter) (l : SessionLayer) : Except String KvSessionWriter :=
  let want := w.header.layerWords
  if l.k.length ≠ want ∨ l.v.length ≠ want then
    .error
      (s!"KV session: layer {l.layer} has {l.k.length} K / " ++
        s!"{l.v.length} V words, expected {want} each (n_ctx " ++
        s!"{w.header.nCtx} x row_elems {w.header.rowElems})")
  else if w.layers ≥ w.header.nLayer then
    .error s!"KV session: more than {w.header.nLayer} layers were written"
  else
    .ok { w with
      sink := w.sink
        ++ (u32 l.layer ++ u32 l.k.length ++ u32 l.v.length ++ words l.k
          ++ words l.v)
      layers := w.layers + 1 }

/-- `finish`: the bookkeeping, the host state and the checksum. -/
def finish (w : KvSessionWriter) (st : KvSessionState) :
    Except String (List UInt8 × KvSessionReport) :=
  if w.layers ≠ w.header.nLayer then
    .error
      (s!"KV session: the header declares {w.header.nLayer} " ++
        s!"layers but {w.layers} were written")
  else if st.nCtx ≠ w.header.nCtx then
    .error
      (s!"KV session: the bookkeeping describes " ++
        s!"{st.nCtx}-cell runs, the header {w.header.nCtx}")
  else
    let sink := w.sink ++ writeState st ++ (u32 w.host.length ++ w.host)
    .ok (sink ++ u64 (hashBytes fnvOffset sink).toNat,
      { layers := w.layers, cells := st.nCtx, bytes :=
        sink.length + 8, written := st.written })

end KvSessionWriter

/-- A whole session, written: the header, the host state, the layers one
after the other, the bookkeeping. -/
def writeSession (header : KvSessionHeader) (layers : List SessionLayer)
    (st : KvSessionState)
    (host : List UInt8) : Except String (List UInt8 × KvSessionReport) := do
  let w ← layers.foldlM KvSessionWriter.layer
    ((KvSessionWriter.create header).setHost host)
  w.finish st

-- ============================= reading

namespace KvSession

/-- `{:#x}`, on at least `width` digits. -/
def hex (width n : Nat) : String :=
  let digits := Nat.toDigits 16 n
  "0x" ++ String.ofList (List.replicate (width - digits.length) '0' ++ digits)

/-- `Source`: what is left of the file, and the hash and the number of the
bytes read. -/
abbrev Source := Lib.Stream UInt8 (UInt64 × Nat)

/-- A step of a reader. -/
abbrev Read := Reader UInt8 (UInt64 × Nat) String

namespace Source

/-- What one byte adds to a source's account. -/
def account (acc : UInt64 × Nat) (b : UInt8) : UInt64 × Nat :=
  (hashByte acc.1 b, acc.2 + 1)

/-- `new`. -/
def new (file : List UInt8) : Source := ⟨file, (fnvOffset, 0)⟩

/-- `bytes`. -/
def bytes (n : Nat) (what : String) : Read (List UInt8) :=
  Reader.take account n
    (s!"KV session: truncated — the file ends inside {what} " ++
      s!"(wanted {n} more bytes)")

/-- `u32`. -/
def u32 (what : String) : Read Nat := do return leNat (← bytes 4 what)

/-- `u64`. -/
def u64 (what : String) : Read Nat := do return leNat (← bytes 8 what)

/-- The words of a buffer. -/
def wordsOf : List UInt8 → List Word
  | a :: b :: c :: d :: rest => UInt32.ofNat (leNat [a, b, c, d]) :: wordsOf rest
  | _ => []

/-- The loop of `words`, with `left` words to go. -/
def wordsLoop (what : String) : Nat → Nat → Read (List Word)
  | 0, _ => pure []
  | fuel + 1, left =>
      if left = 0 then pure []
      else do
        let take := min left chunk
        let b ← bytes (take * 4) what
        return wordsOf b ++ (← wordsLoop what fuel (left - take))

/-- `words`: a buffer at a time, none of which is empty. -/
def words (n : Nat) (what : String) : Read (List Word) := wordsLoop what n n

/-- `finish`: the checksum, and that nothing follows it. -/
def finish (s : Source) (what : String) : Except String Nat :=
  if s.rest.length < 8 then
    .error s!"KV session: truncated — the file ends before the checksum of {what}"
  else
    let got := leNat (s.rest.take 8)
    let want := s.acc.1.toNat
    if got ≠ want then
      .error
        (s!"KV session: checksum mismatch ({hex 16 got} in the " ++
          s!"file, {hex 16 want} computed) — the file is corrupt")
    else if s.rest.length = 8 then .ok (s.acc.2 + 8)
    else .error "KV session: trailing bytes after the checksum"

end Source

/-- `backend_of_tag`. -/
def backendOfTag (tag : Nat) : Read Backend :=
  match Backend.fromIndex tag with
  | some b => pure b
  | none =>
      Reader.refuse
        (s!"KV session: unknown backend tag {tag} (this file " ++
          s!"was written by a newer build?)")

/-- `KvSessionReader::open`. -/
def openFile (path : String) : Read KvSessionHeader := do
  let m ← Source.bytes 8 "the magic"
  Reader.ensure (m = magic)
    (s!"KV session: {path} does not start with the " ++
      s!"{magic.length}-byte magic \"MINFERKV\" (it is not a " ++
      s!"minfer KV session file)")
  let ver ← Source.u32 "the version"
  Reader.ensure (ver = version)
    (s!"KV session: version {ver} cannot be read by this " ++
      s!"build (version {version}); refusing rather than " ++
      s!"guessing the layout")
  let flags ← Source.u32 "the flags"
  Reader.ensure (flags &&& 0xfffffffc = 0)
    (s!"KV session: unknown flags {hex 0 flags} (this file " ++
      s!"was written by a newer build that knows " ++
      s!"element-type bits this one does not)")
  Reader.ensure (¬ (flags.testBit 0 = true ∧ flags.testBit 1 = true))
    (s!"KV session: the header claims both packed Q8_0 and " ++
      s!"f16 cells (flags {hex 0 flags}); the two element " ++
      s!"types are mutually exclusive, so the file is corrupt")
  let tag ← Source.u32 "the backend tag"
  let backend ← backendOfTag tag
  let nLayer ← Source.u32 "the layer count"
  let nCtx ← Source.u32 "n_ctx"
  let nEmbd ← Source.u32 "n_kv_embd"
  let rowElems ← Source.u32 "the cell width"
  let format := formatOfFlags flags
  Reader.ensure (¬ (nLayer = 0 ∨ nCtx = 0 ∨ nEmbd = 0 ∨ rowElems = 0))
    (s!"KV session: the header declares {nLayer} layers of " ++
      s!"{nCtx} cells x {rowElems} words ({nEmbd} " ++
      s!"elements/cell) — a zero-sized arena is not a session")
  Reader.ensure (rowElems = format.rowElems nEmbd)
    (s!"KV session: the header says {format.name} with " ++
      s!"{rowElems} words per {nEmbd}-element cell, but that " ++
      s!"format packs a cell into {format.rowElems nEmbd}")
  return { version := ver, format, backend, nLayer, nCtx, nEmbd, rowElems }

/-- `next_layer`, after `layers` of them; `none` once all that the header
declares have been read. -/
def nextLayer (h : KvSessionHeader) (layers : Nat) : Read (Option SessionLayer) :=
  if layers = h.nLayer then pure none
  else do
    let what := s!"layer {layers}"
    let layer ← Source.u32 s!"{what}: its index"
    let kw ← Source.u32 s!"{what}: its K length"
    let vw ← Source.u32 s!"{what}: its V length"
    let want := h.layerWords
    Reader.ensure (¬ (kw ≠ want ∨ vw ≠ want))
      (s!"KV session: layer {layer} declares {kw} K / {vw} V " ++
        s!"words, expected {want} ({h.nCtx} x {h.rowElems})")
    let k ← Source.words kw s!"{what}: its K rows"
    let v ← Source.words vw s!"{what}: its V rows"
    return some { layer, k, v }

/-- One row of the run table. -/
def readRun (i : Nat) : Read (SeqId × SeqSlot) := do
  let what := s!"sequence {i}"
  let seq ← Source.u32 s!"{what}: its id"
  let start ← Source.u32 s!"{what}: its start"
  let cap ← Source.u32 s!"{what}: its capacity"
  let cell ← Source.u32 s!"{what}: its shared prefix cell"
  let rows ← Source.u32 s!"{what}: its shared prefix rows"
  let written ← Source.u32 s!"{what}: its written extent"
  return (seq, { start, cap, shared := ⟨cell, rows⟩, written })

/-- One span. -/
def readSpan (what : String) (j : Nat) : Read Span := do
  let base ← Source.u32 s!"{what} entry {j}: position base"
  let cell ← Source.u32 s!"{what} entry {j}: first cell"
  let len ← Source.u32 s!"{what} entry {j}: length"
  return ⟨base, cell, len⟩

/-- One span list. -/
def readSpans (i : Nat) : Read (SeqId × List Span) := do
  let what := s!"span list {i}"
  let seq ← Source.u32 s!"{what}: its sequence"
  let count ← Source.u32 s!"{what}: its length"
  return (seq, ← Reader.times (readSpan what) 0 count)

/-- One layer's bookkeeping. -/
def readLayerState (h : KvSessionHeader) (i : Nat) : Read KvLayerSession := do
  let what := s!"bookkeeping layer {i}"
  let layer ← Source.u32 s!"{what}: its index"
  let nUsed ← Source.u32 s!"{what}: its written extent"
  let owners ← Source.u32 s!"{what}: its owner-table length"
  Reader.ensure (owners = h.nCtx)
    (s!"KV session: layer {layer} carries a {owners}-entry " ++
      s!"owner table for a {h.nCtx}-cell arena")
  let owner ← Reader.times (fun j => Source.u32 s!"{what} owner {j}") 0 owners
  return { layer, nUsed, owner }

/-- `read_state`. -/
def readState (h : KvSessionHeader) : Read KvSessionState := do
  let flag ← Source.u32 "the identity flag"
  let nCtx ← Source.u32 "the bookkeeping's n_ctx"
  Reader.ensure (nCtx = h.nCtx)
    (s!"KV session: the bookkeeping describes {nCtx}-cell " ++
      s!"runs, the header {h.nCtx}")
  let nSeq ← Source.u32 "the sequence count"
  let seqs ← Reader.times readRun 0 nSeq
  let nSpans ← Source.u32 "the span-list count"
  let spans ← Reader.times readSpans 0 nSpans
  let nLayers ← Source.u32 "the bookkeeping's layer count"
  let layers ← Reader.times (readLayerState h) 0 nLayers
  let defrags ← Source.u64 "the defrag counter"
  let cellsMoved ← Source.u64 "the cells-moved counter"
  let cows ← Source.u64 "the copy-on-write counter"
  let cowCells ← Source.u64 "the copied-cells counter"
  return { identity := decide (flag ≠ 0), nCtx, seqs, spans, layers, defrags, cellsMoved, cows,
           cowCells }

/-- `KvSessionReader::finish`, after `layers` layers. -/
def finish (h : KvSessionHeader) (layers : Nat) (s : Source) :
    Except String KvSessionBody :=
  if layers ≠ h.nLayer then
    .error
      (s!"KV session: the header declares {h.nLayer} layers, " ++
        s!"the file holds {layers}")
  else
    match (do let st ← readState h
              let len ← Source.u32 "the host-state length"
              let host ← Source.bytes len "the host state"
              return (st, host) : Read (KvSessionState × List UInt8)) s with
    | .error e => .error e
    | .ok ((state, host), s) =>
      match Source.finish s "the bookkeeping" with
      | .error e => .error e
      | .ok bytes =>
          .ok { state, host, report :=
            { layers, cells := h.nCtx, bytes, written := state.written } }

/-- `next_layer` until it returns `none`; the layers, and how many. -/
def restLayers (h : KvSessionHeader) : Nat → Nat → Read (List SessionLayer × Nat)
  | 0, layers => pure ([], layers)
  | fuel + 1, layers => do
      match ← nextLayer h layers with
      | none => return ([], layers)
      | some l =>
          let (ls, n) ← restLayers h fuel (layers + 1)
          return (l :: ls, n)

/-- A session file, read from end to end without applying anything: what
`verify` walks over. -/
def readFile (path : String) (file : List UInt8) :
    Except String (KvSessionHeader × List SessionLayer × KvSessionBody) :=
  match (do let h ← openFile path
            let (ls, n) ← restLayers h (h.nLayer + 1) 0
            return (h, ls, n) :
                Read (KvSessionHeader × List SessionLayer × Nat))
                (Source.new file) with
  | .error e => .error e
  | .ok ((h, ls, n), s) =>
    match finish h n s with
    | .error e => .error e
    | .ok body => .ok (h, ls, body)

/-- `verify`. -/
def verify (path : String) (file : List UInt8) : Except String KvSessionHeader :=
  (readFile path file).map (·.1)

end KvSession
end Minfer.Graph
