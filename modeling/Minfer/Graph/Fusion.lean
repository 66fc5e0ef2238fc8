/-
The fusion pass (`graph/fusion.rs`): a product of a gated value becomes one
node, `Mul(Silu(x), y)` to `SwiGLU(x, y)`, where the node's backend has the
fused kernel. The `Silu` stays in the graph; what no longer has a reader is
not run.

`backend_of` and the backends' answers are parameters. The indexing the source
panics on has no result here.
-/
import Minfer.Graph.Ir

namespace Minfer.Graph

/-- The pass while it goes over the nodes: the sources are replaced at once,
the operations at the end. -/
structure Fusing where
  graph : ComputeGraph
  newOps : List (Option Op)
  replaced : Nat
deriving Repr, DecidableEq

namespace ComputeGraph

/-- `is_silu`. -/
def isSilu (g : ComputeGraph) (n : NodeId) : Option Bool :=
  (g.nodes[n]?).map fun node => node.op = .silu

/-- The node's first source. -/
def gateOf (g : ComputeGraph) (n : NodeId) : Option NodeId :=
  (g.nodes[n]?).bind fun node => node.src[0]?

/-- The gate and the other factor, when one of the factors is a `Silu`. -/
def gated (g : ComputeGraph) (s y : NodeId) : Option (Option (NodeId × NodeId)) :=
  match g.isSilu s with
  | none => none
  | some true => (g.gateOf s).map fun gate => some (gate, y)
  | some false =>
      match g.isSilu y with
      | none => none
      | some true => (g.gateOf y).map fun gate => some (gate, s)
      | some false => some none

end ComputeGraph

namespace Fusing

/-- The body of the loop of `fuse_swiglu`. -/
def visit (supportsFused : List Bool)
    (backendOf : ComputeGraph → NodeId → Option Nat) (st : Fusing)
    (id : NodeId) :
    Option Fusing :=
  match st.graph.nodes[id]? with
  | none => none
  | some mul =>
      match mul.op, mul.src with
      | .mul, [s, y] =>
          match st.graph.gated s y with
          | none => none
          | some none => some st
          | some (some (gate, up)) =>
              match backendOf st.graph id with
              | none => some st
              | some bi =>
                  match supportsFused[bi]? with
                  | none => none
                  | some false => some st
                  | some true =>
                      some
                        { graph := { st.graph with
                            nodes := st.graph.nodes.modify id fun node =>
                              { node with src := [gate, up] } }
                          newOps := st.newOps.set id (some .swiGlu)
                          replaced := st.replaced + 1 }
      | _, _ => some st

def visitAll (supportsFused : List Bool)
    (backendOf : ComputeGraph → NodeId → Option Nat) :
    List NodeId → Fusing → Option Fusing
  | [], st => some st
  | id :: rest, st =>
      match st.visit supportsFused backendOf id with
      | none => none
      | some st => visitAll supportsFused backendOf rest st

/-- The operations are replaced. -/
def finish (st : Fusing) : ComputeGraph :=
  { st.graph with
    nodes := List.zipWith (fun node op => { node with op := op.getD node.op })
      st.graph.nodes st.newOps }

end Fusing

/-- `fuse_swiglu`: the number of nodes rewritten, and the graph. -/
def ComputeGraph.fuseSwiglu (supportsFused : List Bool)
    (backendOf : ComputeGraph → NodeId → Option Nat)
    (g : ComputeGraph) : Option (Nat × ComputeGraph) :=
  match Fusing.visitAll supportsFused backendOf (List.range g.nNodes)
      ⟨g, List.replicate g.nNodes none, 0⟩ with
  | none => none
  | some st => some (st.replaced, st.finish)

/-- `FusionPass::run`: the one rule there is. -/
def ComputeGraph.fuse (supportsFused : List Bool)
    (backendOf : ComputeGraph → NodeId → Option Nat) (g : ComputeGraph) :
    Option (Nat × ComputeGraph) :=
  g.fuseSwiglu supportsFused backendOf

end Minfer.Graph
