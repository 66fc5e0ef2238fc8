/-
The compute graph (`graph/mod.rs`, `graph/ops.rs`): nodes in build order,
their operations and shapes, views, and the validation of the order.

Only what the allocator and the scheduler read is kept of an operation's
payload and of a node's metadata.
-/
import Minfer.Graph.KvCache

namespace Minfer.Graph

-- ============================ backends

namespace Backend

/-- `name`. -/
def name : Backend → String
  | cpu => "cpu"
  | metal => "metal"
  | cuda => "cuda"

/-- How a handle prints. -/
def debugName : Backend → String
  | cpu => "CPU"
  | metal => "Metal"
  | cuda => "Cuda"

end Backend

/-- A buffer of a backend's pool. -/
abbrev BufKey := Backend × Nat

/-- `BufRef`: a window into a pool buffer. -/
structure BufRef where
  backend : Backend
  id : Nat
  offset : Nat
  len : Nat
deriving Repr, DecidableEq

namespace BufRef

/-- `own`: a whole pool buffer. -/
def own (backend : Backend) (id len : Nat) : BufRef := ⟨backend, id, 0, len⟩

/-- `window`. -/
def window (r : BufRef) (offset len : Nat) : BufRef :=
  ⟨r.backend, r.id, r.offset + offset, len⟩

/-- The pool buffer the window is in. -/
def key (r : BufRef) : BufKey := (r.backend, r.id)

@[simp] theorem own_key (backend : Backend) (id len : Nat) :
    (own backend id len).key = (backend, id) :=
  rfl

@[simp] theorem window_key (r : BufRef) (offset len : Nat) :
    (r.window offset len).key = r.key := rfl

end BufRef

-- =============================== nodes

abbrev NodeId := Nat

/-- `Op`, with the payloads the allocator reads. -/
inductive Op where
  | input
  | add
  | mul
  | scale
  | silu
  | softmax
  | rmsNorm
  | qkNorm
  | matMul
  | getRows
  | rope
  | attn
  | kvcacheStore (layer : Nat)
  | kvcacheLoad (layer : Nat)
  | view
  | reshape
  | permute
  | swiGlu
  | batchMatMul
  | fusedQkv (layer : Nat)
  | qkvBiasRopeStore (layer : Nat)
  | fusedFfn
  | fusedQkvNorm (layer : Nat)
deriving Repr, DecidableEq

/-- `NodeMeta`: the KV widths; any other metadata is `other`. -/
inductive NodeMeta where
  | other
  | kvcache (nEmbd rowElems : Nat)
  | fusedQkv (nkt rowElems kvElems : Nat)
  | qkvBiasRopeStore (nkt rowElems kvElems : Nat)
  | fusedQkvNorm (nkt rowElems kvElems : Nat)
deriving Repr, DecidableEq

/-- `[usize; 4]`. -/
structure Shape where
  d0 : Nat
  d1 : Nat
  d2 : Nat
  d3 : Nat
deriving Repr, DecidableEq

/-- `ViewAlias`: the node is a window into another node's buffer. -/
structure ViewAlias where
  src : NodeId
  offset : Nat
deriving Repr, DecidableEq

/-- `CNode`. -/
structure CNode where
  id : NodeId
  name : String
  op : Op
  src : List NodeId
  outShape : Shape
  backend : Option Backend
  nodeMeta : NodeMeta
  view : Option ViewAlias
deriving Repr, DecidableEq

namespace CNode

/-- `n_elements`. -/
def nElements (node : CNode) : Nat :=
  node.outShape.d0 * node.outShape.d1 * node.outShape.d2 * node.outShape.d3

/-- `is_input`. -/
def isInput (node : CNode) : Bool := node.op = .input

/-- The assigned backend, the CPU when undecided. -/
def home (node : CNode) : Backend := node.backend.getD .cpu

end CNode

-- ============================== graphs

/-- `ComputeGraph`. -/
structure ComputeGraph where
  nodes : List CNode
  inputs : List NodeId
  outputs : List NodeId
  uid : Nat
deriving Repr, DecidableEq

namespace ComputeGraph

variable (g : ComputeGraph)

/-- `n_nodes`. -/
def nNodes : Nat := g.nodes.length

/-- Count one node's distinct sources into its in-degree. -/
def countSources (n : Nat) (id : NodeId) : List NodeId → List NodeId → List Nat →
    Except String (List Nat)
  | _, [], indeg => .ok indeg
  | seen, s :: rest, indeg =>
      if s ≥ n then .error s!"node {id}: src {s} out of range"
      else
        countSources n id (seen ++ [s]) rest
          (if s ∈ seen then indeg else indeg.modify id (· + 1))

/-- The in-degrees of a list of nodes. -/
def inDegrees (n : Nat) : List CNode → List Nat → Except String (List Nat)
  | [], indeg => .ok indeg
  | node :: rest, indeg =>
      if node.id ≥ n then .error s!"node id {node.id} out of range"
      else
        match countSources n node.id [] node.src indeg with
        | .error e => .error e
        | .ok indeg => inDegrees n rest indeg

/-- One node is ordered: release the nodes that read it, from index `v`
on. -/
def releaseReaders (u : NodeId) : List CNode → NodeId → List Nat → List NodeId →
    List Nat × List NodeId
  | [], _, indeg, queue => (indeg, queue)
  | node :: rest, v, indeg, queue =>
      if u ∈ node.src then
        let indeg := indeg.modify v (· - 1)
        releaseReaders u rest (v + 1) indeg
          (if indeg[v]? = some 0 then queue ++ [v] else queue)
      else releaseReaders u rest (v + 1) indeg queue

/-- The queue loop; a node enters the queue once, so the fuel is their
number. -/
def orderLoop (nodes : List CNode) : Nat → Nat → List Nat → List NodeId → List NodeId
  | 0, _, _, queue => queue
  | fuel + 1, qi, indeg, queue =>
      match queue[qi]? with
      | none => queue
      | some u =>
          let (indeg, queue) := releaseReaders u nodes 0 indeg queue
          orderLoop nodes fuel (qi + 1) indeg queue

/-- `topo_order`: Kahn's sort; every queued node is ordered. -/
def topoOrder : Except String (List NodeId) :=
  match inDegrees g.nNodes g.nodes (List.replicate g.nNodes 0) with
  | .error e => .error e
  | .ok indeg =>
      let order := orderLoop g.nodes g.nNodes 0 indeg
        ((List.range g.nNodes).filter fun i => indeg[i]? = some 0)
      if order.length ≠ g.nNodes then
        .error s!"cycle detected: {order.length}/{g.nNodes} nodes ordered"
      else .ok order

/-- What a builder makes: ids count up, sources come first, a view lists its
parent, and an input is listed. -/
structure BuildOrder : Prop where
  ids : ∀ (n : NodeId) node, g.nodes[n]? = some node → node.id = n
  sources : ∀ (n : NodeId) node, g.nodes[n]? = some node → ∀ s ∈ node.src, s < n
  views : ∀ (n : NodeId) node v, g.nodes[n]? = some node → node.view = some v →
    v.src ∈ node.src
  listed : ∀ (n : NodeId) node, g.nodes[n]? = some node → node.isInput = true →
    n ∈ g.inputs

end ComputeGraph
end Minfer.Graph
