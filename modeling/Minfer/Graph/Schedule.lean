/-
The backend scheduler (`graph/scheduler.rs`) and the staging copies it asks
the allocator for (`graph/alloc.rs`, `copy_across` to `drain_cross_pending`):
assign, split, execute.

What a backend's pools hold is a store of elements under the buffers' names;
the KV regions are one state that a node's operation reads and writes, since
no reference to a region is ever read as a value. A staging copy takes its
source's elements when it is asked for; whether they arrive then or when the
copy is awaited is the source backend's choice.

Left out are the replay of captured device graphs and what only reports:
timing, traces, counters.
-/
import Mathlib.Logic.Function.Basic
import Minfer.Graph.Assign

namespace Minfer.Graph

variable {ε σ : Type}

-- ============================= kernels

namespace Op

/-- The operations of a backend that write their output buffer; a view's arm
does nothing, and a store writes the regions. -/
def writes : Op → Bool
  | view | reshape | permute | kvcacheLoad _ | kvcacheStore _ => false
  | _ => true

/-- The operations whose buffer is a KV region. -/
def onRegion : Op → Bool
  | kvcacheLoad _ | kvcacheStore _ => true
  | _ => false

end Op

/-- What the backends do, and when their copies arrive. -/
structure Kernels (ε σ : Type) where
  /-- `execute_node`: a node's elements and the regions it leaves, from the
  elements of its sources and the regions. -/
  op : CNode → List (List ε) → σ → Except String (List ε) × σ
  /-- `async_copies_enabled`. -/
  asyncCopies : Bool
  /-- The source backend's `copy_cross` hook for a destination: what it
  enqueues arrives when it is awaited. -/
  enqueues : Backend → Backend → Bool

namespace Kernels

/-- A node's run: a view-like operation leaves everything as it is. -/
def run (k : Kernels ε σ) (node : CNode) (ins : List (List ε)) (kv : σ) :
    Except String (List ε) × σ :=
  match node.op with
  | .view | .reshape | .permute | .kvcacheLoad _ => (.ok [], kv)
  | _ => k.op node ins kv

end Kernels

-- ============================== splits

/-- `Split`. -/
structure Split where
  backend : Backend
  /-- `node_range`. -/
  start : Nat
  stop : Nat
  /-- Nodes whose values live in another split. -/
  inputs : List NodeId
  /-- Nodes that another split reads. -/
  outputs : List NodeId
deriving Repr, DecidableEq

namespace Split

/-- `Split::new`. -/
def new (backend : Backend) (start : Nat) : Split := ⟨backend, start, start, [], []⟩

/-- `contains`, else `push`. -/
def addInput (s : Split) (n : NodeId) : Split :=
  if n ∈ s.inputs then s else { s with inputs := s.inputs ++ [n] }

def addOutput (s : Split) (n : NodeId) : Split :=
  if n ∈ s.outputs then s else { s with outputs := s.outputs ++ [n] }

/-- The node ids of the range. -/
def ids (s : Split) : List NodeId := List.range' s.start (s.stop - s.start)

end Split

namespace ComputeGraph

/-- The first loop of `split_graph`: cut where the backend changes. -/
def cutSplits : List CNode → Nat → Option Backend → Split → List Split
  | [], id, _, split => [{ split with stop := id }]
  | node :: rest, id, cur, split =>
      let b := node.backend.getD (cur.getD .cpu)
      match cur with
      | some c =>
          if b ≠ c then
            { split with stop := id } :: cutSplits rest (id + 1) (some b) (.new b id)
          else cutSplits rest (id + 1) (some b) split
      | none => cutSplits rest (id + 1) (some b) (.new b id)

/-- `split_of`: the split of every node. -/
def splitOf (g : ComputeGraph) (splits : List Split) : List Nat :=
  splits.zipIdx.foldl (fun table s => setAt table s.1.ids s.2)
    (List.replicate g.nNodes 0)

/-- One edge: a source in another split is an input here and an output
there. -/
def noteEdge (splitOf : List Nat) (si : Nat) (splits : List Split)
    (src : NodeId) : List Split :=
  let srcSplit := splitOf.getD src 0
  if srcSplit ≠ si then
    (splits.modify si (·.addInput src)).modify srcSplit (·.addOutput src)
  else splits

/-- The edges of one split's nodes. -/
def noteEdges (g : ComputeGraph) (splitOf : List Nat) (splits : List Split)
    (si : Nat) :
    List Split :=
  match splits[si]? with
  | none => splits
  | some split =>
      split.ids.foldl (fun splits id =>
        (((g.nodes[id]?).map (·.src)).getD []).foldl
          (noteEdge splitOf si) splits) splits

/-- `split_graph`. -/
def splitGraph (g : ComputeGraph) : List Split :=
  let splits := cutSplits g.nodes 0 none (.new .cpu 0)
  (List.range splits.length).foldl (g.noteEdges (g.splitOf splits)) splits

end ComputeGraph

-- ============================== inputs

namespace ComputeGraph

/-- The first input of a name. -/
def inputNamed (g : ComputeGraph) (name : String) : Option NodeId :=
  g.inputs.find? fun n => (g.nodes[n]?).any (·.name = name)

/-- The refusal of a fill of the wrong length. -/
def wrongLength (name : String) (got len : Nat) : String :=
  (s!"input '{name}': {got} elements were supplied but " ++
    s!"the node holds {len} (its pool buffer is rounded up " ++
    s!"to the {classSize len} element class)")

end ComputeGraph

-- ============================= machine

/-- What an execution works on. -/
structure Machine (ε σ : Type) where
  alloc : GraphAllocator
  /-- The elements of the pools' buffers. -/
  mem : BufKey → Nat → ε
  /-- The elements of the copies that have not arrived. -/
  inFlight : CrossKey → Option (List ε)
  kv : σ

namespace Machine

/-- The elements of a window. -/
def read (m : Machine ε σ) (r : BufRef) : List ε :=
  (List.range r.len).map fun i => m.mem r.key (r.offset + i)

/-- A window's elements are written, as far as it goes. -/
def write (m : Machine ε σ) (r : BufRef) (data : List ε) : Machine ε σ :=
  { m with mem := fun key i =>
      if key = r.key ∧ r.offset ≤ i then
        ((data.take r.len)[i - r.offset]?).getD (m.mem key i)
      else m.mem key i }

/-- The pool's host access fails where the pool is not enabled. -/
def hasPool (m : Machine ε σ) (b : Backend) : Bool := (m.alloc.pools.lookup b).isSome

/-- `copy_across`: phase A of a staging copy. -/
def copyAcross (env : AllocEnv) (k : Kernels ε σ) (uid : Nat) (node : NodeId)
    (dst : Backend) (m : Machine ε σ) : Except AllocExit Unit × Machine ε σ :=
  match m.alloc.nodeToBuf.lookup node with
  | none => (.error (.err s!"node {node} has no buffer"), m)
  | some br =>
      if br.backend = dst then (.ok (), m)
      else if (uid, node, dst) ∈ m.alloc.crossPending then (.ok (), m)
      else
        match m.alloc.crossStaging env uid node dst with
        | (.error e, a) => (.error e, { m with alloc := a })
        | (.ok cb, a) =>
            let m := { m with alloc :=
              { a with crossPending := (uid, node, dst) :: a.crossPending } }
            if k.asyncCopies && !env.isRegistered br.backend then
              (.error (.err
                (s!"copy_across: {br.backend.name} is not compiled into " ++
                  s!"this build")), m)
            else if k.asyncCopies && k.enqueues br.backend dst then
              (.ok (), { m with
                inFlight := Function.update m.inFlight (uid, node, dst)
                  (some (m.read br)) })
            else if !m.hasPool br.backend then
              (.error (.err s!"node {node} host read failed"), m)
            else if !m.hasPool dst then
              (.error (.err s!"{dst.name} is not usable on this allocator"), m)
            else (.ok (), m.write cb (m.read br))

/-- `await_cross`: phase B. -/
def awaitCross (env : AllocEnv) (uid : Nat) (node : NodeId) (dst : Backend)
    (m : Machine ε σ) :
    Except AllocExit Unit × Machine ε σ :=
  match m.alloc.nodeToBuf.lookup node with
  | none => (.error (.err s!"node {node} has no buffer"), m)
  | some br =>
      let awaited (m : Machine ε σ) : Machine ε σ :=
        { m with alloc :=
          { m.alloc with crossPending :=
            m.alloc.crossPending.filter (· ≠ (uid, node, dst)) } }
      if br.backend = dst then (.ok (), awaited m)
      else if !env.isRegistered br.backend then
        (.error (.err
          s!"await_cross: {br.backend.name} is not compiled into this build"),
          m)
      else
        match m.inFlight (uid, node, dst), m.alloc.cross.lookup (uid, node, dst) with
        | some data, some cb =>
            (.ok (), awaited { (m.write cb data) with
              inFlight := Function.update m.inFlight (uid, node, dst) none })
        | _, _ => (.ok (), awaited m)

/-- `cross_input`. -/
def crossInput (uid : Nat) (node : NodeId) (backend : Backend) (m : Machine ε σ) :
    Except AllocExit (Option BufRef) :=
  match m.alloc.cross.lookup (uid, node, backend) with
  | none => .ok none
  | some staged =>
      if (uid, node, backend) ∈ m.alloc.crossPending then
        .error (.err
          (s!"staged cross-backend input {node} for " ++
            s!"{backend.debugName} was read before its boundary " ++
            s!"wait: every copy_across owes one await_cross (F5, " ++
            s!"#58)"))
      else .ok (some staged)

/-- `cross_input_ready`: the wait is issued at the first use. -/
def crossInputReady (env : AllocEnv) (uid : Nat) (node : NodeId) (backend : Backend)
    (m : Machine ε σ) : Except AllocExit (Option BufRef) × Machine ε σ :=
  if (uid, node, backend) ∈ m.alloc.crossPending then
    match m.awaitCross env uid node backend with
    | (.error e, m) => (.error e, m)
    | (.ok (), m) => (m.crossInput uid node backend, m)
  else (m.crossInput uid node backend, m)

/-- The waits of a list of staged entries. -/
def awaitAll (env : AllocEnv) : List CrossKey → Machine ε σ →
    Except AllocExit Unit × Machine ε σ
  | [], m => (.ok (), m)
  | (uid, node, dst) :: rest, m =>
      match m.awaitCross env uid node dst with
      | (.error e, m) => (.error e, m)
      | (.ok (), m) => awaitAll env rest m

/-- `drain_cross_pending`. -/
def drainCrossPending (env : AllocEnv) (m : Machine ε σ) :
    Except AllocExit Unit × Machine ε σ :=
  m.awaitAll env m.alloc.crossPending

/-- Stage a list of nodes for a backend. -/
def stageAll (env : AllocEnv) (k : Kernels ε σ) (uid : Nat) (dst : Backend) :
    List NodeId → Machine ε σ → Except AllocExit Unit × Machine ε σ
  | [], m => (.ok (), m)
  | node :: rest, m =>
      match m.copyAcross env k uid node dst with
      | (.error e, m) => (.error e, m)
      | (.ok (), m) => stageAll env k uid dst rest m

-- =========================== execution

/-- A split boundary: what Metal's open command buffer stages before it is
retired, then every input. -/
def boundary (env : AllocEnv) (k : Kernels ε σ) (uid : Nat) (prev : Backend)
    (split : Split) (m : Machine ε σ) : Except AllocExit Unit × Machine ε σ :=
  let early := if prev = .metal ∧ split.backend = .cpu ∧ k.asyncCopies = true then
      split.inputs.filter fun n =>
        ((m.alloc.nodeToBuf.lookup n).map BufRef.backend) = some .metal
    else []
  match m.stageAll env k uid split.backend early with
  | (.error e, m) => (.error e, m)
  | (.ok (), m) => m.stageAll env k uid split.backend split.inputs

/-- Entering a split: a boundary where the backend changes. -/
def enter (env : AllocEnv) (k : Kernels ε σ) (uid : Nat)
    (prev : Option Backend) (split : Split)
    (m : Machine ε σ) : Except AllocExit Unit × Machine ε σ :=
  match prev with
  | some pb => if pb ≠ split.backend then m.boundary env k uid pb split
      else (.ok (), m)
  | none => (.ok (), m)

/-- The buffers a node reads: a staged copy for this backend comes first. -/
def resolve (env : AllocEnv) (uid : Nat) (backend : Backend) :
    List NodeId → Machine ε σ → Except AllocExit (List BufRef) × Machine ε σ
  | [], m => (.ok [], m)
  | s :: rest, m =>
      match m.crossInputReady env uid s backend with
      | (.error e, m) => (.error e, m)
      | (.ok staged, m) =>
          match staged.or (m.alloc.nodeToBuf.lookup s) with
          | none => (.error (.err s!"node {s} has no allocated buffer"), m)
          | some ref =>
              match resolve env uid backend rest m with
              | (.error e, m) => (.error e, m)
              | (.ok refs, m) => (.ok (ref :: refs), m)

/-- What a node's operation reads: a region is no value. -/
def readSources (g : ComputeGraph) (m : Machine ε σ) (src : List NodeId)
    (refs : List BufRef) :
    List (List ε) :=
  (src.zip refs).map fun p =>
    if (g.nodes[p.1]?).any (·.op.onRegion) then [] else m.read p.2

/-- One node of a split: inputs and nodes without a buffer are skipped. -/
def executeNode (env : AllocEnv) (k : Kernels ε σ) (g : ComputeGraph)
    (backend : Backend) (node : CNode) (n : NodeId) (m : Machine ε σ) :
    Except AllocExit Unit × Machine ε σ :=
  if node.isInput then (.ok (), m)
  else
    match m.alloc.nodeToBuf.lookup n with
    | none => (.ok (), m)
    | some br =>
        if br.backend ≠ backend then
          (.error (.err
            (s!"node {n} buffer on {br.backend.debugName} but " ++
              s!"executing split is {backend.debugName} " ++
              s!"(assignment/alloc mismatch)")), m)
        else
          match m.resolve env g.uid backend node.src with
          | (.error e, m) => (.error e, m)
          | (.ok refs, m) =>
              if !m.hasPool backend then
                (.error (.err s!"{backend.name} backend not enabled"), m)
              else
                match k.run node (m.readSources g node.src refs) m.kv with
                | (.error e, kv) => (.error (.err e), { m with kv := kv })
                | (.ok data, kv) =>
                    (.ok (), { (if node.op.writes then m.write br data else m)
                      with kv := kv })

/-- The nodes of a split, from node `n` on. -/
def executeNodes (env : AllocEnv) (k : Kernels ε σ) (g : ComputeGraph)
    (backend : Backend) :
    List CNode → NodeId → Machine ε σ → Except AllocExit Unit × Machine ε σ
  | [], _, m => (.ok (), m)
  | node :: rest, n, m =>
      match m.executeNode env k g backend node n with
      | (.error e, m) => (.error e, m)
      | (.ok (), m) => executeNodes env k g backend rest (n + 1) m

/-- The loop over the splits. -/
def executeSplits (env : AllocEnv) (k : Kernels ε σ) (g : ComputeGraph) :
    Option Backend → List Split → Machine ε σ → Except AllocExit Unit × Machine ε σ
  | _, [], m => (.ok (), m)
  | prev, split :: rest, m =>
      match m.enter env k g.uid prev split with
      | (.error e, m) => (.error e, m)
      | (.ok (), m) =>
          match m.executeNodes env k g split.backend
            ((g.nodes.drop split.start).take (split.stop - split.start))
                split.start with
          | (.error e, m) => (.error e, m)
          | (.ok (), m) => executeSplits env k g (some split.backend) rest m

/-- `execute`; `isIdentity` is the KV mapping's gate. -/
def execute (env : AllocEnv) (k : Kernels ε σ) (isIdentity : Bool) (g : ComputeGraph)
    (m : Machine ε σ) : Except AllocExit Unit × Machine ε σ :=
  if !isIdentity then
    (.error (.err
      ("KV cell mapping is no longer the identity: the " ++
        "resolved cell array must be passed to the backend, " ++
        "and no backend consumes it yet (Phase C / C2)")), m)
  else
    match m.executeSplits env k g none g.splitGraph with
    | (.error e, m) => (.error e, m)
    | (.ok (), m) => m.drainCrossPending env

-- ============================ forwards

/-- `fill_input`: an input's elements, under its name. -/
def fillInput (g : ComputeGraph) (name : String) (data : List ε) (m : Machine ε σ) :
    Except AllocExit Unit × Machine ε σ :=
  match g.inputNamed name with
  | none => (.error (.err s!"no input node named '{name}'"), m)
  | some n =>
      match m.alloc.nodeToBuf.lookup n with
      | none => (.error (.err s!"input '{name}' has no buffer (not allocated)"), m)
      | some br =>
          if data.length ≠ br.len then
            (.error (.err (ComputeGraph.wrongLength name data.length br.len)), m)
          else if !m.hasPool br.backend then
            (.error (.err s!"{br.backend.name} is not usable on this allocator"), m)
          else (.ok (), m.write br data)

/-- The fills of a forward. -/
def fillInputs (g : ComputeGraph) : List (String × List ε) → Machine ε σ →
    Except AllocExit Unit × Machine ε σ
  | [], m => (.ok (), m)
  | (name, data) :: rest, m =>
      match m.fillInput g name data with
      | (.error e, m) => (.error e, m)
      | (.ok (), m) => fillInputs g rest m

/-- `copy_to_cpu`: what a node's window holds. -/
def copyToCpu (env : AllocEnv) (m : Machine ε σ) (n : NodeId) : Option (List ε) :=
  (m.alloc.nodeToBuf.lookup n).bind fun br =>
    if env.isRegistered br.backend && m.hasPool br.backend
      then some (m.read br) else none

/-- A graph's forward on an allocator that is mapped onto it: fill, execute,
read the outputs. -/
def forward (env : AllocEnv) (k : Kernels ε σ) (g : ComputeGraph)
    (fills : List (String × List ε)) (m : Machine ε σ) :
    Except AllocExit (List (Option (List ε))) × Machine ε σ :=
  match m.fillInputs g fills with
  | (.error e, m) => (.error e, m)
  | (.ok (), m) =>
      match m.execute env k true g with
      | (.error e, m) => (.error e, m)
      | (.ok (), m) => (.ok (g.outputs.map (m.copyToCpu env)), m)

end Machine

-- ========================== evaluation

namespace ComputeGraph

/-- What the graph means: a node's elements and the regions after it, from
its sources' elements and the regions before it. A view is a window of its
parent. -/
def evalNode (k : Kernels ε σ) (node : CNode) (vals : NodeId → List ε) (kv : σ) :
    Except String (List ε) × σ :=
  match node.view with
  | some v => (.ok (((vals v.src).drop v.offset).take node.nElements), kv)
  | none =>
      match k.run node (node.src.map vals) kv with
      | (.error e, kv) => (.error e, kv)
      | (.ok data, kv) => (.ok (if node.op.onRegion then [] else data), kv)

/-- A node that counts: something reads it, it stores rows, or it is a
window. -/
def isLive (g : ComputeGraph) (n : NodeId) (node : CNode) : Bool :=
  node.op.onRegion || node.view.isSome || decide (n < (g.lastUses[n]?).getD 0)

/-- One node; an input has its value, and a node nothing needs has none. -/
def evalStep (k : Kernels ε σ) (g : ComputeGraph) (node : CNode) (n : NodeId)
    (vals : NodeId → List ε) (kv : σ) : Except String (NodeId → List ε) × σ :=
  if node.isInput || !g.isLive n node then (.ok vals, kv)
  else
    match evalNode k node vals kv with
    | (.error e, kv) => (.error e, kv)
    | (.ok data, kv) => (.ok (Function.update vals n data), kv)

/-- Evaluate the nodes in build order, each once, with no buffers. -/
def evalFrom (k : Kernels ε σ) (g : ComputeGraph) :
    List CNode → NodeId → (NodeId → List ε) → σ → Except String (NodeId → List ε) × σ
  | [], _, vals, kv => (.ok vals, kv)
  | node :: rest, n, vals, kv =>
      match evalStep k g node n vals kv with
      | (.error e, kv) => (.error e, kv)
      | (.ok vals, kv) => evalFrom k g rest (n + 1) vals kv

/-- The graph's values, from its inputs' and the regions. -/
def eval (k : Kernels ε σ) (g : ComputeGraph) (inputs : NodeId → List ε) (kv : σ) :
    Except String (NodeId → List ε) × σ :=
  evalFrom k g g.nodes 0 inputs kv

/-- What the fills say of the inputs. -/
def fillValues (g : ComputeGraph) : List (String × List ε) → (NodeId → List ε) →
    Except String (NodeId → List ε)
  | [], vals => .ok vals
  | (name, data) :: rest, vals =>
      match g.inputNamed name with
      | none => .error s!"no input node named '{name}'"
      | some n =>
          let want := ((g.nodes[n]?).map CNode.nElements).getD 0
          if data.length ≠ want
            then .error (ComputeGraph.wrongLength name data.length want)
          else fillValues g rest (Function.update vals n data)

/-- A forward's meaning: the outputs' values. -/
def forwardValues (k : Kernels ε σ) (g : ComputeGraph)
    (fills : List (String × List ε))
    (kv : σ) : Except AllocExit (List (Option (List ε))) × σ :=
  match g.fillValues fills (fun _ => []) with
  | .error e => (.error (.err e), kv)
  | .ok inputs =>
      match g.eval k inputs kv with
      | (.error e, kv) => (.error (.err e), kv)
      | (.ok vals, kv) => (.ok (g.outputs.map fun n => some (vals n)), kv)

end ComputeGraph
end Minfer.Graph
