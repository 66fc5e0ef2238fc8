/-
The graph cache (`graph/cache.rs`) and a forward through it, as the model
graphs do it (`models/qwen2/graph.rs`, `forward_batch`): reuse the graph that
was built for these parameters, or build one, then fill, execute and read.

A cached graph's uid names its staging buffers. The counter it comes from is
the process's, so a request carries what the counter would give it. What the
model graphs unwrap is the forward's error here. Building,
assigning and fusing are one function of the parameters.
-/
import Minfer.Graph.Schedule

namespace Minfer.Graph

variable {π ε σ : Type}

/-- `MAX_CACHED_GRAPHS`. -/
def maxCachedGraphs : Nat := 8

/-- A graph under another uid. -/
def ComputeGraph.withUid (g : ComputeGraph) (uid : Nat) : ComputeGraph :=
  { g with uid := uid }

/-- `GraphCache`: the graphs by their parameters, the most recent one first;
the allocator is part of the machine. -/
structure GraphCache (π ε σ : Type) where
  graphs : List (π × ComputeGraph)
  machine : Machine ε σ

/-- What a forward is asked to do. -/
structure Request (π ε : Type) where
  params : π
  /-- What `NEXT_GRAPH_UID` gives, when a graph is built. -/
  uid : Nat
  fills : List (String × List ε)

namespace GraphCache

variable [DecidableEq π]

/-- `try_reuse`: map the allocator onto the graph that was built for these
parameters. The entry is gone when that is refused. -/
def tryReuse (env : AllocEnv) (params : π) (c : GraphCache π ε σ) :
    Except AllocExit Bool × GraphCache π ε σ :=
  match c.graphs.find? fun entry => entry.1 = params with
  | none => (.ok false, c)
  | some (_, graph) =>
      let rest := c.graphs.eraseP fun entry => entry.1 = params
      match c.machine.alloc.allocGraph env graph with
      | (.error e, a) => (.error e, ⟨rest, { c.machine with alloc := a }⟩)
      | (.ok (), a) =>
          (.ok true, ⟨(params, graph) :: rest, { c.machine with alloc := a }⟩)

/-- `replace_graph`. -/
def replaceGraph (graph : ComputeGraph) (params : π) (uid : Nat)
    (c : GraphCache π ε σ) :
    GraphCache π ε σ :=
  { c with graphs :=
    ((params, graph.withUid uid) :: c.graphs.filter fun entry =>
      entry.1 ≠ params).take maxCachedGraphs }

/-- A forward on the current graph. -/
def runCurrent (env : AllocEnv) (k : Kernels ε σ)
    (fills : List (String × List ε)) (c : GraphCache π ε σ) : Except AllocExit
    (List (Option (List ε))) × GraphCache π ε σ :=
  match c.graphs.head? with
  | none => (.error (.panic "called `Option::unwrap()` on a `None` value"), c)
  | some (_, graph) =>
      match c.machine.forward env k graph fills with
      | (out, m) => (out, { c with machine := m })

/-- A forward through the cache; `build` is what the model makes of the
parameters. -/
def forward (env : AllocEnv) (k : Kernels ε σ) (build : π → ComputeGraph)
    (r : Request π ε) (c : GraphCache π ε σ) : Except AllocExit
    (List (Option (List ε))) × GraphCache π ε σ :=
  match c.tryReuse env r.params with
  | (.error e, c) => (.error e, c)
  | (.ok true, c) => c.runCurrent env k r.fills
  | (.ok false, c) =>
      match c.machine.alloc.allocGraph env (build r.params) with
      | (.error e, a) =>
          (.error e, { c with machine := { c.machine with alloc := a } })
      | (.ok (), a) =>
          (({ c with machine := { c.machine with alloc := a } } :
            GraphCache π ε σ).replaceGraph
            (build r.params) r.params r.uid).runCurrent env k r.fills

/-- Forwards one after the other, whatever each of them answers. -/
def serve (env : AllocEnv) (k : Kernels ε σ) (build : π → ComputeGraph) :
    List (Request π ε) → GraphCache π ε σ →
      List (Except AllocExit (List (Option (List ε)))) × GraphCache π ε σ
  | [], c => ([], c)
  | r :: rest, c =>
      match c.forward env k build r with
      | (out, c) =>
          match serve env k build rest c with
          | (outs, c) => (out :: outs, c)

end GraphCache

/-- What a forward is to answer: the values of the graph that its parameters
make on the regions it finds, and it leaves the regions that this graph leaves;
or the allocator's refusal of the graph, with the regions as they were. -/
inductive Served (env : AllocEnv) (k : Kernels ε σ) (build : π → ComputeGraph)
    (r : Request π ε) (kv : σ) :
    Except AllocExit (List (Option (List ε))) → σ → Prop where
  | computed {out : Except AllocExit (List (Option (List ε)))} {kv' : σ}
      (value : out = ((build r.params).forwardValues k r.fills kv).1)
      (regions : kv' = ((build r.params).forwardValues k r.fills kv).2) :
        Served env k build r kv out kv'
  | refused {e : AllocExit} {a a' : GraphAllocator}
      (refusal : a.allocGraph env (build r.params) = (.error e, a')) :
      Served env k build r kv (.error e) kv

/-- What a list of requests is to answer, each on the regions the ones before
left. -/
inductive ServedAll (env : AllocEnv) (k : Kernels ε σ) (build : π → ComputeGraph) :
    List (Request π ε) → σ → List (Except AllocExit (List (Option (List ε)))) →
      σ → Prop where
  | nil (kv : σ) : ServedAll env k build [] kv [] kv
  | cons {r : Request π ε} {rest : List (Request π ε)} {kv kv' kv'' : σ}
      {out : Except AllocExit (List (Option (List ε)))}
        {outs : List (Except AllocExit (List (Option (List ε))))}
      (first : Served env k build r kv out kv')
        (next : ServedAll env k build rest kv' outs kv'') :
      ServedAll env k build (r :: rest) kv (out :: outs) kv''

end Minfer.Graph
