/-
Liveness analysis and the assignment of buffers (`graph/alloc.rs`,
`alloc_graph`): one walk over the graph in build order that releases what no
later step reads and gives every node its buffer.

Deadlines stand in two tables. `lastUse` says until which step a node is
needed, and starts from its direct readers; `bufAlive` says the same of a
buffer. A view or an in-place alias found on the way extends both.
-/
import Mathlib.Algebra.GroupWithZero.Nat
import Minfer.Graph.Pool

namespace Minfer.Graph

namespace ComputeGraph

variable (g : ComputeGraph)

/-- Set an entry, when the table is that long. -/
def setAt (table : List Nat) (ids : List NodeId) (v : Nat) : List Nat :=
  ids.foldl (fun table id => table.set id v) table

/-- One node's reads, at its step. -/
def readSources (table : List Nat) (node : CNode) (i : Nat) : List Nat :=
  node.src.foldl (fun table s => table.modify s fun t => if t < i then i else t) table

/-- `last_use`, before any alias is known: a node's own step, its last
reader's, and the end of the run for outputs and inputs. -/
def lastUses : List Nat :=
  let own := List.range g.nNodes
  let read := g.nodes.zipIdx.foldl
    (fun table (node, i) => readSources table node i) own
  setAt (setAt read g.outputs g.nNodes) g.inputs g.nNodes

/-- `n_consumers`: how often a node is listed as a source. -/
def nConsumers (s : NodeId) : Nat := (g.nodes.map fun node => node.src.count s).sum

/-- `extend_through_views`: extend the liveness of a node and its view
ancestors until `upto`. The nodes that grew, in walk order; each step goes to
an earlier node, so the fuel is their number. -/
def extendThroughViews (upto : Nat) : Nat → List Nat → NodeId → List Nat × List NodeId
  | 0, lastUse, _ => (lastUse, [])
  | fuel + 1, lastUse, cur =>
      match lastUse[cur]? with
      | none => (lastUse, [])
      | some t =>
          if t ≥ upto then (lastUse, [])
          else
            let lastUse := lastUse.set cur upto
            match (g.nodes[cur]?).bind (·.view) with
            | some v =>
                let (lastUse, grown) := extendThroughViews upto fuel lastUse v.src
                (lastUse, cur :: grown)
            | none => (lastUse, [cur])

end ComputeGraph

/-- The walk of `alloc_graph`: the allocator and `last_use`. -/
structure Walk where
  alloc : GraphAllocator
  lastUse : List Nat

namespace GraphAllocator

/-- One step of `extend_buffer_alive`. -/
def extendOne (upto : Nat) (a : GraphAllocator) (n : NodeId) : GraphAllocator :=
  match a.nodeToBuf.lookup n with
  | none => a
  | some br =>
      match a.bufAlive.lookup br.key with
      | none => a
      | some al => { a with bufAlive := a.bufAlive.insert br.key (max al upto) }

/-- `extend_buffer_alive`. -/
def extendBufferAlive (a : GraphAllocator) (grown : List NodeId) (upto : Nat) :
    GraphAllocator :=
  grown.foldl (extendOne upto) a

/-- A node's buffer from its pool, alive until `deadline`. -/
def handBuffer (env : AllocEnv) (a : GraphAllocator) (node : CNode)
    (n : NodeId) (deadline : Nat) : Except AllocExit Unit × GraphAllocator :=
  let size := node.nElements
  match a.allocInPool env node.home size with
  | (.error e, a) => (.error e, a)
  | (.ok pid, a) =>
      (.ok (), { a with
        bufAlive := a.bufAlive.insert (node.home, pid) deadline
        nodeToBuf := a.nodeToBuf.insert n (.own node.home pid size)
        handed := a.handed ++ [(n, (node.home, pid))] })

/-- Every input gets its buffer before the walk. -/
def placeInputs (env : AllocEnv) (lastUse : List Nat) :
    List CNode → GraphAllocator → Except AllocExit Unit × GraphAllocator
  | [], a => (.ok (), a)
  | node :: rest, a =>
      if node.isInput then
        match a.handBuffer env node node.id ((lastUse[node.id]?).getD 0) with
        | (.error e, a) => (.error e, a)
        | (.ok (), a) => placeInputs env lastUse rest a
      else placeInputs env lastUse rest a

end GraphAllocator

namespace Walk

/-- The node is on `src`'s buffer: both tables follow. -/
def share (w : Walk) (g : ComputeGraph) (n src : NodeId) (ref : BufRef) : Walk :=
  let lu := (w.lastUse[n]?).getD 0
  let (lastUse, grown) := g.extendThroughViews lu (g.nNodes + 1) w.lastUse src
  let a := { w.alloc with nodeToBuf := w.alloc.nodeToBuf.insert n ref }
  ⟨a.extendBufferAlive grown lu, lastUse⟩

/-- The node's own buffer, unless nothing reads it. -/
def ownBuffer (env : AllocEnv) (w : Walk) (node : CNode) (n : NodeId) :
    Except AllocExit Unit × Walk :=
  let lu := (w.lastUse[n]?).getD 0
  if lu > n then
    let (out, a) := w.alloc.handBuffer env node n lu
    (out, { w with alloc := a })
  else (.ok (), w)

/-- The view branch. -/
def placeView (w : Walk) (g : ComputeGraph) (node : CNode) (n : NodeId)
    (v : ViewAlias) :
    Except AllocExit Unit × Walk :=
  match w.alloc.nodeToBuf.lookup v.src with
  | none =>
      (.error (.err
        (s!"view node {n} ('{node.name}') has no buffer for its " ++
          s!"parent {v.src}")), w)
  | some parent =>
      let parentElems := ((g.nodes[v.src]?).map CNode.nElements).getD 0
      let window := node.nElements
      if parent.backend ≠ node.home then
        (.error (.err
          (s!"view node {n} ('{node.name}') is assigned to " ++
            s!"{node.home.debugName} but its parent {v.src} lives " ++
            s!"on {parent.backend.debugName}: a cross-backend view " ++
            s!"would need a staged copy, so build a materialized " ++
            s!"copy instead of a view")), w)
      else if parent.backend = .metal ∧ (v.offset ≠ 0 ∨ window ≠ parentElems) then
        (.error (.err
          (s!"view node {n} ('{node.name}') is a window of " ++
            s!"{window} elements at offset {v.offset} of a " ++
            s!"{parentElems}-element buffer on Metal, whose " ++
            s!"kernels take a buffer and a length with no offset; " ++
            s!"Metal supports exact views only (G5)")), w)
      else if v.offset + window > parentElems then
        (.error (.err
          (s!"view node {n} ('{node.name}') spans [{v.offset}, " ++
            s!"{v.offset + window}) but its parent {v.src} has " ++
            s!"{parentElems} elements — the window does not fit")), w)
      else (.ok (), w.share g n v.src (parent.window v.offset window))

/-- A layer's regions, from the walk. -/
def regions (env : AllocEnv) (w : Walk) (node : CNode)
    (layer nEmbd rowElems nCtx : Nat) :
    Except AllocExit (BufRef × BufRef) × Walk :=
  let (out, a) := w.alloc.ensureKv env layer node.home nEmbd rowElems nCtx
  (out, { w with alloc := a })

/-- A KV node: its buffer is the layer's K region. -/
def placeKv (env : AllocEnv) (w : Walk) (node : CNode) (n : NodeId) (layer : Nat) :
    Except AllocExit Unit × Walk :=
  let (nEmbd, rowElems) :=
    match node.nodeMeta with
    | .kvcache nEmbd rowElems => (nEmbd, rowElems)
    | _ => (node.outShape.d0, node.outShape.d0)
  match w.regions env node layer nEmbd rowElems node.outShape.d1 with
  | (.error e, w) => (.error e, w)
  | (.ok pair, w) =>
      (.ok (), { w with alloc :=
        { w.alloc with nodeToBuf := w.alloc.nodeToBuf.insert n pair.1 } })

/-- A fused node's widths: K/V width, cell width and rows. -/
def fusedWidths (node : CNode) (widths : Option (Nat × Nat × Nat)) :
    Nat × Nat × Nat :=
  match widths with
  | some (nkt, rowElems, kvElems) => (nkt, rowElems, kvElems / max nkt 1)
  | none => (node.outShape.d0, node.outShape.d0, node.outShape.d1)

/-- A fused node of a layer: its regions, then a buffer of its own. -/
def placeFused (env : AllocEnv) (w : Walk) (node : CNode) (n : NodeId) (layer : Nat)
    (widths : Option (Nat × Nat × Nat)) : Except AllocExit Unit × Walk :=
  let (nEmbd, rowElems, nCtx) := fusedWidths node widths
  match w.regions env node layer nEmbd rowElems nCtx with
  | (.error e, w) => (.error e, w)
  | (.ok _, w) => w.ownBuffer env node n

/-- An in-place operation: on its input's buffer when it is the input's only
reader, on the same backend. A SwiGLU takes a view's window only. -/
def placeInPlace (env : AllocEnv) (w : Walk) (g : ComputeGraph) (node : CNode)
    (n : NodeId) :
    Except AllocExit Unit × Walk :=
  if (w.lastUse[n]?).getD 0 > n then
    match node.src.head? with
    | none => (.error (.panic "index out of bounds"), w)
    | some src =>
        match w.alloc.nodeToBuf.lookup src with
        | none => (.error (.err s!"in-place op src buffer missing (node {n})"), w)
        | some inRef =>
            let inPlaceOk : Bool := match node.op with
              | .swiGlu => ((g.nodes[src]?).bind (·.view)).isSome
              | _ => true
            if inPlaceOk ∧ inRef.backend = node.home ∧ g.nConsumers src = 1 then
              (.ok (), w.share g n src inRef)
            else w.ownBuffer env node n
  else (.ok (), w)

/-- What `alloc_graph` does at one node, after the sweep. -/
def place (env : AllocEnv) (w : Walk) (g : ComputeGraph) (node : CNode) (n : NodeId) :
    Except AllocExit Unit × Walk :=
  if node.isInput then (.ok (), w)
  else
    match node.view with
    | some v => w.placeView g node n v
    | none =>
        match node.op with
        | .kvcacheStore layer | .kvcacheLoad layer => w.placeKv env node n layer
        | .fusedQkv layer =>
            w.placeFused env node n layer
              (match node.nodeMeta with
                | .fusedQkv nkt rowElems kvElems => some (nkt, rowElems, kvElems)
                | _ => none)
        | .fusedQkvNorm layer =>
            w.placeFused env node n layer
              (match node.nodeMeta with
                | .fusedQkvNorm nkt rowElems kvElems => some (nkt, rowElems, kvElems)
                | _ => none)
        | .qkvBiasRopeStore layer =>
            let (nEmbd, rowElems, nCtx) := fusedWidths node
              (match node.nodeMeta with
                | .qkvBiasRopeStore nkt rowElems kvElems =>
                    some (nkt, rowElems, kvElems)
                | _ => none)
            match w.regions env node layer nEmbd rowElems nCtx with
            | (.error e, w) => (.error e, w)
            | (.ok _, w) => w.placeInPlace env g node n
        | .silu | .rope | .swiGlu => w.placeInPlace env g node n
        | _ => w.ownBuffer env node n

/-- The walk, from node `i` on. -/
def run (env : AllocEnv) (g : ComputeGraph) : List CNode → Nat → Walk →
    Except AllocExit Unit × Walk
  | [], _, w => (.ok (), w)
  | node :: rest, i, w =>
      match place env { w with alloc := w.alloc.sweep i } g node i with
      | (.error e, w) => (.error e, w)
      | (.ok (), w) => run env g rest (i + 1) w

end Walk

namespace GraphAllocator

/-- The start of `alloc_graph`: the last graph's buffers are released. -/
def restart (a : GraphAllocator) : GraphAllocator :=
  { a.freeAll a.bufAlive.keys with
    bufAlive := ∅, nodeToBuf := ∅, crossPending := [], handed := [] }

/-- `alloc_graph`. An output or input that is no node panics. -/
def allocGraph (env : AllocEnv) (a : GraphAllocator) (g : ComputeGraph) :
    Except AllocExit Unit × GraphAllocator :=
  let a := a.restart
  match g.topoOrder with
  | .error e => (.error (.err e), a)
  | .ok _ =>
      if (g.outputs ++ g.inputs).all (· < g.nNodes) then
        match a.placeInputs env g.lastUses g.nodes with
        | (.error e, a) => (.error e, a)
        | (.ok (), a) =>
            let (out, w) := Walk.run env g g.nodes 0 ⟨a, g.lastUses⟩
            (out, w.alloc)
      else (.error (.panic "index out of bounds"), a)

end GraphAllocator
end Minfer.Graph
