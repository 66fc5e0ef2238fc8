/-
Fusing a graph does not change what it means.

The pass replaces the sources of a product whose one factor is a `Silu`, so
the two graphs have the same nodes, and the fused one reads a gate where the
other reads the gated value (`Fused`). Evaluated side by side they have the
same value wherever the fused graph still has a reader (`Alike`); a `Silu`
that lost its last one is not run there, and where it is run it does nothing
but have a value.
-/
import Minfer.Graph.Fusion
import Minfer.Graph.Proofs.Forward

namespace Minfer.Graph

variable {ε σ : Type}

-- ============================ the pass

namespace ComputeGraph

/-- A node and what the pass leaves of it. -/
inductive Rewrites (g : ComputeGraph) (node : CNode) : CNode → Prop where
  | same : Rewrites g node node
  | fused {s x y : NodeId} {snode : CNode} (product : node.op = .mul)
      (factors : node.src = [s, y] ∨ node.src = [y, s])
        (factor : g.nodes[s]? = some snode) (silu : snode.op = .silu)
      (gate : snode.src[0]? = some x) :
        Rewrites g node { node with op := .swiGlu, src := [x, y] }

/-- The fused graph and the one it comes from. -/
structure Fused (g g' : ComputeGraph) : Prop where
  length : g'.nNodes = g.nNodes
  rewrites : ∀ {n : Nat} {node : CNode}, g.nodes[n]? = some node →
    ∃ node', g'.nodes[n]? = some node' ∧ g.Rewrites node node'
  inputs : g'.inputs = g.inputs
  outputs : g'.outputs = g.outputs

/-- What the builder's `Silu`, `Mul` and views are of: one source, factors of
the product's size, and a window within its parent. -/
structure Shaped (g : ComputeGraph) : Prop where
  unary : ∀ node ∈ g.nodes, node.op = .silu → node.src.length = 1
  factors : ∀ node ∈ g.nodes, node.op = .silu ∨ node.op = .mul →
    ∀ s ∈ node.src, ∀ snode, g.nodes[s]? = some snode →
    snode.op.onRegion = false ∧ snode.nElements = node.nElements
  windows : ∀ node ∈ g.nodes, node.view.isSome = node.op.viewLike
  fits : ∀ node ∈ g.nodes, ∀ v, node.view = some v →
    ∀ pnode, g.nodes[v.src]? = some pnode →
    pnode.op.onRegion = false ∧ v.offset + node.nElements ≤ pnode.nElements

/-- A node while the pass is on: its source list, and the operation it will
have. -/
inductive Visited (g : ComputeGraph) (node : CNode) : CNode → Option Op → Prop where
  | kept : Visited g node node none
  | fused {s x y : NodeId} {snode : CNode} (product : node.op = .mul)
      (factors : node.src = [s, y] ∨ node.src = [y, s])
        (factor : g.nodes[s]? = some snode) (silu : snode.op = .silu)
      (gate : snode.src[0]? = some x) :
        Visited g node { node with src := [x, y] } (some .swiGlu)

variable {g g' : ComputeGraph} {node node' : CNode}

theorem mem_factors {s y : NodeId}
    (h : node.src = [s, y] ∨ node.src = [y, s]) :
    s ∈ node.src ∧ y ∈ node.src := by
  rcases h with heq | heq
  · rw [heq]
    exact ⟨List.mem_cons_self, List.mem_cons_of_mem _ List.mem_cons_self⟩
  · rw [heq]
    exact ⟨List.mem_cons_of_mem _ List.mem_cons_self, List.mem_cons_self⟩

theorem Shaped.viewless (h : g.Shaped) (hnode : node ∈ g.nodes)
    (hop : node.op.viewLike = false) : node.view = none := by
  have hwindow := h.windows node hnode
  rw [hop] at hwindow
  exact Option.not_isSome_iff_eq_none.1 (hwindow ▸ Bool.false_ne_true)

theorem BuildOrder.source_node (hg : g.BuildOrder) {n : Nat}
    (hnode : g.nodes[n]? = some node) {s : NodeId}
    (hs : s ∈ node.src) : ∃ snode, g.nodes[s]? = some snode :=
  have hn : n < g.nodes.length := (List.getElem?_eq_some_iff.1 hnode).1
  have hlt : s < g.nodes.length := Nat.lt_trans (hg.sources n node hnode s hs) hn
  ⟨_, List.getElem?_eq_getElem hlt⟩

theorem Visited.op {op : Option Op} (h : g.Visited node node' op) :
    node'.op = node.op := by
  cases h with
  | kept => rfl
  | fused _ _ _ _ _ => rfl

theorem Visited.src {op : Option Op} (h : g.Visited node node' op)
    (hop : node.op = .silu) : node'.src = node.src := by
  cases h with
  | kept => rfl
  | fused product _ _ _ _ => rw [hop] at product; cases product

theorem Visited.rewrites {op : Option Op} (h : g.Visited node node' op) :
    g.Rewrites node { node' with op := op.getD node'.op } := by
  cases h with
  | kept => exact .same
  | fused product factors factor silu gate =>
      exact .fused product factors factor silu gate

theorem Fused.back (h : g.Fused g') {n : Nat} (hnode' : g'.nodes[n]? = some node') :
    ∃ node, g.nodes[n]? = some node ∧ g.Rewrites node node' := by
  have hn : n < g'.nNodes := (List.getElem?_eq_some_iff.1 hnode').1
  rw [h.length] at hn
  have hnode : g.nodes[n]? = some g.nodes[n] := List.getElem?_eq_getElem hn
  obtain ⟨fused, hfused, hrewrites⟩ := h.rewrites hnode
  rw [hnode'] at hfused
  cases hfused
  exact ⟨_, hnode, hrewrites⟩

end ComputeGraph

namespace Fusing

open ComputeGraph

variable {g : ComputeGraph} {P : NodeId → Prop} {st : Fusing} {i : Nat}
  {supportsFused : List Bool} {backendOf : ComputeGraph → NodeId → Option Nat}

/-- The pass has gone over the nodes before `i`, and fused only where `P`. -/
structure At (g : ComputeGraph) (P : NodeId → Prop) (i : Nat) (st : Fusing) :
    Prop where
  length : st.graph.nodes.length = g.nNodes
  ops : st.newOps.length = g.nNodes
  inputs : st.graph.inputs = g.inputs
  outputs : st.graph.outputs = g.outputs
  visited : ∀ {n : Nat} {node : CNode}, g.nodes[n]? = some node →
    ∃ node' op, st.graph.nodes[n]? = some node' ∧ st.newOps[n]? = some op
      ∧ g.Visited node node' op
  ahead : ∀ {n : Nat} {node : CNode}, i ≤ n → g.nodes[n]? = some node →
    st.graph.nodes[n]? = some node
  place : ∀ {n : Nat} {op : Op}, st.newOps[n]? = some (some op) → P n

theorem At.start : At g P 0 ⟨g, List.replicate g.nNodes none, 0⟩ where
  length := rfl
  ops := List.length_replicate
  inputs := rfl
  outputs := rfl
  visited {n node} hnode := by
    have hn : n < g.nNodes := (List.getElem?_eq_some_iff.1 hnode).1
    refine ⟨node, none, hnode, ?_, .kept⟩
    rw [List.getElem?_replicate, if_pos hn]
  ahead _ hnode := hnode
  place {n op} hop := by cases List.eq_of_mem_replicate (List.mem_of_getElem? hop)

theorem At.skip (h : At g P i st) : At g P (i + 1) st :=
  ⟨h.length, h.ops, h.inputs, h.outputs, h.visited,
    fun hle => h.ahead (Nat.le_of_succ_le hle), h.place⟩

variable {s : NodeId} {snode : CNode}

theorem At.isSilu (h : At g P i st) (hs : g.nodes[s]? = some snode) :
    st.graph.isSilu s = some (decide (snode.op = .silu)) := by
  obtain ⟨node', op, hnode', -, hvisited⟩ := h.visited hs
  rw [ComputeGraph.isSilu, hnode', Option.map_some, hvisited.op]

theorem At.gateOf (h : At g P i st)
    (hs : g.nodes[s]? = some snode) (hop : snode.op = .silu) :
    st.graph.gateOf s = snode.src[0]? := by
  obtain ⟨node', op, hnode', -, hvisited⟩ := h.visited hs
  rw [ComputeGraph.gateOf, hnode', Option.bind_some, hvisited.src hop]

/-- Of two factors: neither is a `Silu`, or the gate of the first that is
one. -/
theorem At.gated (h : At g P i st) (hg : g.Shaped) {y : NodeId} {ynode : CNode}
    (hs : g.nodes[s]? = some snode) (hy : g.nodes[y]? = some ynode) :
    st.graph.gated s y = some none ∨ ∃ f fnode x up,
      st.graph.gated s y = some (some (x, up)) ∧
      ([s, y] = [f, up] ∨ [s, y] = [up, f]) ∧ g.nodes[f]? = some fnode
        ∧ fnode.op = .silu ∧ fnode.src[0]? = some x := by
  have hgate : ∀ {f : NodeId} {fnode : CNode}, g.nodes[f]? = some fnode →
      fnode.op = .silu →
      ∃ x, fnode.src[0]? = some x := by
    intro f fnode hf hop
    have hone : fnode.src.length = 1 := hg.unary fnode (List.mem_of_getElem? hf) hop
    exact ⟨_, List.getElem?_eq_getElem (hone ▸ Nat.one_pos)⟩
  rw [ComputeGraph.gated, h.isSilu hs]
  by_cases hsilu : snode.op = .silu
  · obtain ⟨x, hx⟩ := hgate hs hsilu
    refine .inr ⟨s, snode, x, y, ?_, .inl rfl, hs, hsilu, hx⟩
    rw [decide_eq_true hsilu, h.gateOf hs hsilu, hx]
    rfl
  · rw [decide_eq_false hsilu, h.isSilu hy]
    by_cases hsilu' : ynode.op = .silu
    · obtain ⟨x, hx⟩ := hgate hy hsilu'
      refine .inr ⟨y, ynode, x, s, ?_, .inr rfl, hy, hsilu', hx⟩
      rw [decide_eq_true hsilu', h.gateOf hy hsilu', hx]
      rfl
    · rw [decide_eq_false hsilu']
      exact .inl rfl

/-- A fusion at the node the pass is at. -/
theorem At.fused (h : At g P i st) {node : CNode}
    (hnode : g.nodes[i]? = some node) {f x up : NodeId} {fnode : CNode}
    (hproduct : node.op = .mul)
    (hfactors : node.src = [f, up] ∨ node.src = [up, f])
    (hf : g.nodes[f]? = some fnode)
    (hsilu : fnode.op = .silu) (hx : fnode.src[0]? = some x) (hplace : P i) :
    At g P (i + 1)
      { graph :=
        { st.graph with nodes :=
          st.graph.nodes.modify i fun node => { node with src := [x, up] } }
        newOps := st.newOps.set i (some .swiGlu)
        replaced := st.replaced + 1 } where
  length := List.length_modify .. |>.trans h.length
  ops := List.length_set.trans h.ops
  inputs := h.inputs
  outputs := h.outputs
  visited {n n'} hn := by
    dsimp only
    by_cases heq : i = n
    · subst heq
      rw [hnode] at hn
      cases hn
      have hlt : i < st.newOps.length := h.ops ▸ (List.getElem?_eq_some_iff.1 hnode).1
      rw [List.getElem?_modify_eq, h.ahead (Nat.le_refl i) hnode,
        List.getElem?_set_self hlt]
      exact ⟨_, _, rfl, rfl, .fused hproduct hfactors hf hsilu hx⟩
    · rw [List.getElem?_modify_ne _ _ heq, List.getElem?_set_ne heq]
      exact h.visited hn
  ahead {n n'} hle hn := by
    dsimp only
    have hne : i ≠ n := fun heq => Nat.not_succ_le_self i (heq ▸ hle)
    rw [List.getElem?_modify_ne _ _ hne]
    exact h.ahead (Nat.le_of_succ_le hle) hn
  place {n op} hop := by
    dsimp only at hop
    by_cases heq : i = n
    · exact heq ▸ hplace
    · rw [List.getElem?_set_ne heq] at hop
      exact h.place hop

theorem At.visit (h : At g P i st) (hg : g.BuildOrder) (hs : g.Shaped)
    (hi : i < g.nNodes)
    (hbackends : ∀ g n bi, backendOf g n = some bi → bi < supportsFused.length)
    (hplace : ∀ bi, backendOf st.graph i = some bi →
      supportsFused[bi]? = some true → P i) :
    ∃ st', st.visit supportsFused backendOf i = some st' ∧ At g P (i + 1) st' := by
  have hnode : g.nodes[i]? = some g.nodes[i] := List.getElem?_eq_getElem hi
  generalize g.nodes[i] = node at hnode
  rw [Fusing.visit, h.ahead (Nat.le_refl i) hnode]
  dsimp only
  split
  next s y hop hsrc =>
    have hmem : s ∈ node.src ∧ y ∈ node.src := by
      rw [hsrc]
      exact ⟨List.mem_cons_self, List.mem_cons_of_mem _ List.mem_cons_self⟩
    obtain ⟨snode, hs'⟩ := hg.source_node hnode hmem.1
    obtain ⟨ynode, hy'⟩ := hg.source_node hnode hmem.2
    obtain hnone | ⟨f, fnode, x, up, hsome, hfactors, hf, hsilu, hx⟩ :=
      h.gated hs hs' hy'
    · rw [hnone]
      exact ⟨st, rfl, h.skip⟩
    · rw [hsome]
      dsimp only
      cases hback : backendOf st.graph i with
      | none => exact ⟨st, rfl, h.skip⟩
      | some bi =>
          dsimp only
          obtain ⟨fused, hfused⟩ : ∃ fused, supportsFused[bi]? = some fused :=
            ⟨_, List.getElem?_eq_getElem (hbackends _ _ _ hback)⟩
          rw [hfused]
          cases fused with
          | false => exact ⟨st, rfl, h.skip⟩
          | true => exact ⟨_, rfl,
              h.fused hnode hop (hsrc ▸ hfactors) hf hsilu hx
                (hplace _ hback hfused)⟩
  next => exact ⟨st, rfl, h.skip⟩

/-- Visiting one node more. -/
theorem visitAll_concat {ids : List NodeId} {n : NodeId} {st st' : Fusing}
    (h : st.visitAll supportsFused backendOf ids = some st') :
    st.visitAll supportsFused backendOf (ids ++ [n])
      = st'.visit supportsFused backendOf n := by
  induction ids generalizing st with
  | nil =>
      cases h
      rw [List.nil_append, visitAll]
      cases st'.visit supportsFused backendOf n <;> rfl
  | cons id rest ih =>
      rw [visitAll] at h
      rw [List.cons_append, visitAll]
      cases hvisit : st.visit supportsFused backendOf id with
      | none =>
          rw [hvisit] at h
          cases h
      | some st₁ =>
          rw [hvisit] at h
          exact ih h

/-- The pass goes through. `hrun` says how it came to node `i`, so that
`hplace` is asked about that state only. -/
theorem At.visitAll {st₀ : Fusing} (hg : g.BuildOrder) (hs : g.Shaped)
    (hbackends : ∀ g n bi, backendOf g n = some bi → bi < supportsFused.length)
    (hplace : ∀ n st,
      st₀.visitAll supportsFused backendOf (List.range n) = some st → ∀ bi,
      backendOf st.graph n = some bi → supportsFused[bi]? = some true → P n)
    {ids : List NodeId} (h : At g P i st)
    (hrun : st₀.visitAll supportsFused backendOf (List.range i) = some st)
    (hids : ids = List.range' i (g.nNodes - i)) :
    ∃ st', st.visitAll supportsFused backendOf ids = some st'
      ∧ At g P g.nNodes st' := by
  induction ids generalizing i st with
  | nil =>
      have hlen := congrArg List.length hids
      rw [List.length_nil, List.length_range'] at hlen
      exact ⟨st, rfl, h.length, h.ops, h.inputs, h.outputs, h.visited,
          fun hle hnode =>
        absurd (List.getElem?_eq_some_iff.1 hnode).1 (Nat.not_lt_of_le hle), h.place⟩
  | cons id rest ih =>
      have hi : i < g.nNodes := by
        have hlen := congrArg List.length hids
        rw [List.length_cons, List.length_range'] at hlen
        omega
      rw [show g.nNodes - i = (g.nNodes - (i + 1)) + 1 by omega,
        List.range'_succ] at hids
      obtain ⟨rfl, hrest⟩ := List.cons.inj hids
      obtain ⟨st', hvisit, hat⟩ := h.visit hg hs hi hbackends (hplace _ st hrun)
      rw [Fusing.visitAll, hvisit]
      refine ih hat ?_ hrest
      rw [List.range_succ, visitAll_concat hrun, hvisit]

theorem At.finish (h : At g P g.nNodes st) : g.Fused st.finish where
  length := by
    rw [Fusing.finish, nNodes]
    dsimp only
    rw [List.length_zipWith, h.length, h.ops, Nat.min_self]
  rewrites {n node} hnode := by
    obtain ⟨node', op, hnode', hop, hvisited⟩ := h.visited hnode
    refine ⟨{ node' with op := op.getD node'.op }, ?_, hvisited.rewrites⟩
    rw [Fusing.finish]
    dsimp only
    rw [List.getElem?_zipWith, hnode', hop]
  inputs := h.inputs
  outputs := h.outputs

/-- A node that is not where the pass fuses is as it was. -/
theorem At.untouched (h : At g P g.nNodes st) {n : Nat} {node' : CNode}
    (hnode' : st.finish.nodes[n]? = some node')
    (hplace : ¬P n) : g.nodes[n]? = some node' := by
  obtain ⟨node, hnode, -⟩ := h.finish.back hnode'
  obtain ⟨kept, op, hkept, hop, hvisited⟩ := h.visited hnode
  rw [Fusing.finish] at hnode'
  dsimp only at hnode'
  rw [List.getElem?_zipWith, hkept, hop] at hnode'
  cases hvisited with
  | kept =>
      cases hnode'
      exact hnode
  | fused _ _ _ _ _ => exact absurd (h.place hop) hplace

end Fusing

-- ============================ liveness

namespace ComputeGraph

variable {g g' : ComputeGraph} {node node' : CNode} {n : NodeId}
variable {table : List Nat}

/-- A deadline that moved was moved by a reader. -/
theorem due_readSources {i : Nat} :
    due (readSources table node i) n = due table n ∨ n ∈ node.src
      ∧ due (readSources table node i) n = i := by
  rw [readSources]
  generalize node.src = src
  induction src generalizing table with
  | nil => exact .inl rfl
  | cons s rest ih =>
      rw [List.foldl_cons]
      rcases @ih (table.modify s fun t => if t < i then i else t) with heq
        | ⟨hmem, heq⟩
      · rw [heq, due_modify]
        by_cases hs : n = s ∧ s < table.length
        · rw [if_pos hs]
          split
          · exact .inr ⟨hs.1 ▸ List.mem_cons_self, rfl⟩
          · exact .inl rfl
        · rw [if_neg hs]
          exact .inl rfl
      · exact .inr ⟨List.mem_cons_of_mem _ hmem, heq⟩

theorem due_readAll {nodes : List (CNode × Nat)} :
    due (nodes.foldl (fun table (node, i) => readSources table node i) table) n
      = due table n ∨
      ∃ p ∈ nodes, n ∈ p.1.src
        ∧ due (nodes.foldl (fun table (node, i) => readSources table node i)
          table) n = p.2 := by
  induction nodes generalizing table with
  | nil => exact .inl rfl
  | cons first rest ih =>
      obtain ⟨node₀, i₀⟩ := first
      rw [List.foldl_cons]
      rcases @ih (readSources table node₀ i₀) with heq | ⟨p, hmem, hp⟩
      · rcases @due_readSources node₀ n table i₀ with hsame | ⟨hread, hdue⟩
        · exact .inl (heq.trans hsame)
        · exact .inr ⟨_, List.mem_cons_self, hread, heq.trans hdue⟩
      · exact .inr ⟨p, List.mem_cons_of_mem _ hmem, hp⟩

theorem due_beyond {n : Nat} (h : table.length ≤ n) :
    due table n = 0 := by
  rw [due, List.getElem?_eq_none h, Option.getD_none]

/-- What is needed after its own step is an end of the graph or has a later
reader. -/
theorem reader_of_need {n : Nat} (h : n < g.need n) :
    n < g.nNodes ∧ (n ∈ g.outputs ∨ n ∈ g.inputs ∨
    ∃ (i : Nat) (reader : CNode), g.nodes[i]? = some reader ∧ n ∈ reader.src
      ∧ n < i) := by
  have hlen : g.lastUses.length = g.nNodes := by
    rw [lastUses, length_setAt, length_setAt]
    exact readAll_spec.1.trans List.length_range
  have hn : n < g.nNodes := by
    refine Nat.lt_of_not_le fun hle => ?_
    rw [need, due_beyond (hlen ▸ hle)] at h
    exact Nat.not_lt_zero n h
  refine ⟨hn, ?_⟩
  by_cases hend : n ∈ g.outputs ∨ n ∈ g.inputs
  · exact hend.imp_right .inl
  · rw [need, lastUses, due_setAt, if_neg fun h => hend (.inr h.1), due_setAt,
      if_neg fun h => hend (.inl h.1)] at h
    rcases @due_readAll n (List.range g.nNodes) g.nodes.zipIdx with heq
      | ⟨p, hmem, hread, hdue⟩
    · have hrange : due (List.range g.nNodes) n = n := by
        rw [due, List.getElem?_range hn, Option.getD_some]
      rw [heq, hrange] at h
      exact absurd h (Nat.lt_irrefl n)
    · refine .inr (.inr ⟨p.2, p.1, List.mem_zipIdx_iff_getElem?.1 hmem, hread, ?_⟩)
      exact hdue ▸ h

/-- The pass leaves where a node stands. -/
structure SamePlace (node node' : CNode) : Prop where
  region : node'.op.onRegion = node.op.onRegion
  view : node'.view = node.view
  input : node'.isInput = node.isInput
  name : node'.name = node.name
  size : node'.nElements = node.nElements

theorem Rewrites.place (h : g.Rewrites node node') : SamePlace node node' := by
  cases h with
  | same => exact ⟨rfl, rfl, rfl, rfl, rfl⟩
  | fused product _ _ _ _ =>
      refine ⟨?_, rfl, ?_, rfl, rfl⟩
      · rw [product]
        rfl
      · rw [CNode.isInput, CNode.isInput, product]
        rfl

theorem isLive_iff {n : Nat} : g.isLive n node = true ↔
    node.op.onRegion = true ∨ node.view.isSome = true ∨ n < g.need n := by
  rw [isLive, Bool.or_eq_true, Bool.or_eq_true, decide_eq_true_iff, or_assoc]
  exact .rfl

theorem read_live {n s : Nat} {snode : CNode} (hnode : g.nodes[n]? = some node)
    (hs : s ∈ node.src) (hlt : s < n) :
    g.isLive s snode = true := by
  have hn : n < g.nNodes := (List.getElem?_eq_some_iff.1 hnode).1
  exact isLive_iff.2
    (.inr (.inr (Nat.lt_of_lt_of_le hlt
      (le_need hnode hs (Nat.lt_trans hlt hn)))))

/-- What the fused graph needs, the other one needs: a gate was read by its
`Silu`. -/
theorem Fused.live (h : g.Fused g') (hg : g.BuildOrder) {n : Nat}
    (hrewrites : g.Rewrites node node')
    (hlive : g'.isLive n node' = true) : g.isLive n node = true := by
  have hplace := hrewrites.place
  rw [isLive_iff, hplace.region, hplace.view] at hlive
  refine isLive_iff.2 (hlive.imp_right (.imp_right fun hneed => ?_))
  obtain ⟨hn, hread⟩ := reader_of_need hneed
  have hn : n < g.nNodes := h.length ▸ hn
  rw [h.outputs, h.inputs, ← or_assoc] at hread
  rcases hread with hend | ⟨i, reader', hreader', hmem, hlt⟩
  · exact (need_end hn hend).symm ▸ hn
  · obtain ⟨reader, hreader, hrw⟩ := h.back hreader'
    cases hrw with
    | same => exact Nat.lt_of_lt_of_le hlt (le_need hreader hmem hn)
    | @fused s x y snode product factors factor silu gate =>
        have hboth := mem_factors factors
        rcases List.mem_pair.1 hmem with rfl | rfl
        · have hxs : n ∈ snode.src := List.mem_of_getElem? gate
          exact Nat.lt_of_lt_of_le (hg.sources s snode factor n hxs)
            (le_need factor hxs hn)
        · exact Nat.lt_of_lt_of_le hlt (le_need hreader hboth.2 hn)

/-- What the other one needs, the fused graph needs, but for a `Silu`. -/
theorem Fused.live_or_silu (h : g.Fused g') {n : Nat}
    (hnode : g.nodes[n]? = some node)
    (hrewrites : g.Rewrites node node') (hlive : g.isLive n node = true) :
    g'.isLive n node' = true ∨ node.op = .silu := by
  have hplace := hrewrites.place
  rw [isLive_iff] at hlive
  rw [isLive_iff, hplace.region, hplace.view]
  rcases hlive with hregion | hview | hneed
  · exact .inl (.inl hregion)
  · exact .inl (.inr (.inl hview))
  · obtain ⟨hn, hread⟩ := reader_of_need hneed
    have hn' : n < g'.nNodes := h.length.symm ▸ hn
    rw [← or_assoc] at hread
    rcases hread with hend | ⟨i, reader, hreader, hmem, hlt⟩
    · rw [← h.outputs, ← h.inputs] at hend
      exact .inl (.inr (.inr ((need_end hn' hend).symm ▸ hn')))
    · obtain ⟨reader', hreader', hrw⟩ := h.rewrites hreader
      cases hrw with
      | same =>
          exact .inl
            (.inr (.inr (Nat.lt_of_lt_of_le hlt (le_need hreader' hmem hn'))))
      | @fused s x y snode product factors factor silu gate =>
          have hone : n = s ∨ n = y := by
            rcases factors with heq | heq
            · exact List.mem_pair.1 (heq ▸ hmem)
            · exact (List.mem_pair.1 (heq ▸ hmem)).symm
          rcases hone with rfl | rfl
          · rw [hnode] at factor
            cases factor
            exact .inr silu
          · have hread' : n ∈ [x, n] := List.mem_cons_of_mem _ List.mem_cons_self
            exact .inl (.inr
              (.inr (Nat.lt_of_lt_of_le hlt (le_need hreader' hread' hn'))))

end ComputeGraph

-- ============================= meaning

/-- The kernels of a gated product: element by element, for whatever gate
function and product the elements have, and fused they make the same. -/
structure Kernels.Gated (k : Kernels ε σ) (act : ε → ε) (prod : ε → ε → ε) :
    Prop where
  silu : ∀ (node : CNode) x kv, node.op = .silu → x.length = node.nElements →
    k.op node [x] kv = (.ok (x.map act), kv)
  mul : ∀ (node : CNode) x y kv, node.op = .mul → x.length = node.nElements →
    y.length = node.nElements →
    k.op node [x, y] kv = (.ok (List.zipWith prod x y), kv)
  swiGlu : ∀ (node : CNode) x y kv, node.op = .swiGlu →
    x.length = node.nElements → y.length = node.nElements →
    k.op node [x, y] kv = (.ok (List.zipWith (fun a b => prod (act a) b) x y), kv)
  comm : ∀ a b, prod a b = prod b a

namespace ComputeGraph

/-- Both graphs have been evaluated up to node `n`: where the fused one has a
value it is the other one's, a `Silu`'s value is its gate's, and the values
have their nodes' sizes. -/
structure Alike (act : ε → ε) (g g' : ComputeGraph) (n : Nat)
    (vals vals' : NodeId → List ε) : Prop where
  agree : ∀ m : Nat,
    (∀ node', g'.nodes[m]? = some node' → m < n →
      node'.isInput = true ∨ g'.isLive m node' = true) →
    vals' m = vals m
  silu : ∀ (m : Nat) node x, g.nodes[m]? = some node → m < n →
    node.op = .silu → g.isLive m node = true →
    node.src = [x] → vals m = (vals x).map act
  sized : ∀ (m : Nat) node, g.nodes[m]? = some node →
    node.isInput = true ∨ m < n ∧ g.isLive m node = true →
    node.op.onRegion = false → (vals m).length = node.nElements

/-- Both went on, or both failed alike. -/
inductive Together (act : ε → ε) (g g' : ComputeGraph) (n : Nat) :
    Except String (NodeId → List ε) × σ → Except String (NodeId → List ε) × σ →
      Prop where
  | ok {vals vals' : NodeId → List ε} {kv : σ} (h : Alike act g g' n vals vals') :
      Together act g g' n (.ok vals, kv) (.ok vals', kv)
  | failed (e : String) (kv : σ) : Together act g g' n (.error e, kv) (.error e, kv)

section

variable {k : Kernels ε σ} {act : ε → ε} {prod : ε → ε → ε}
  {g g' : ComputeGraph} {node node' : CNode} {n : Nat}
  {vals vals' : NodeId → List ε} {kv : σ} {data : List ε}

/-- A node that has no value of its own, now or ever. -/
theorem Alike.skip (h : Alike act g g' n vals vals')
    (hnode : g.nodes[n]? = some node) (hnode' : g'.nodes[n]? = some node')
    (hskip : node'.isInput = true ∨ g'.isLive n node' = false)
    (hnone : node.isInput = true ∨ g.isLive n node = false) :
    Alike act g g' (n + 1) vals vals' := by
  have hop : node.isInput = true → node.op = .input :=
    fun hin => of_decide_eq_true hin
  refine ⟨fun m hm => ?_, fun m mnode x hm hlt hsilu hlive hx => ?_,
    fun m mnode hm hor hplain => ?_⟩
  · refine h.agree m fun mnode' hm' hlt => hm mnode' hm' (Nat.lt_succ_of_lt hlt)
  · rcases Nat.lt_succ_iff_lt_or_eq.1 hlt with hlt | rfl
    · exact h.silu m mnode x hm hlt hsilu hlive hx
    · rw [hnode] at hm
      cases hm
      rcases hnone with hin | hdead
      · rw [hop hin] at hsilu
        cases hsilu
      · rw [hdead] at hlive
        cases hlive
  · refine h.sized m mnode hm ?_ hplain
    rcases hor with hin | ⟨hlt, hlive⟩
    · exact .inl hin
    · rcases Nat.lt_succ_iff_lt_or_eq.1 hlt with hlt | rfl
      · exact .inr ⟨hlt, hlive⟩
      · rw [hnode] at hm
        cases hm
        exact hnone.imp id fun hdead =>
          absurd hlive (by rw [hdead]; exact Bool.false_ne_true)

/-- The node got a value, in the graph that has all of them and, where it is
still read, in the fused one. -/
theorem Alike.put (hg : g.BuildOrder) (h : Alike act g g' n vals vals')
    (hnode : g.nodes[n]? = some node)
    (hsilu : node.op = .silu → ∀ x, node.src = [x] → data = (vals x).map act)
    (hsized : node.op.onRegion = false → data.length = node.nElements)
    {after : NodeId → List ε} (hothers : ∀ m, m ≠ n → after m = vals' m)
    (hhere : (∀ node', g'.nodes[n]? = some node' →
      node'.isInput = true ∨ g'.isLive n node' = true) → after n = data) :
    Alike act g g' (n + 1) (Function.update vals n data) after := by
  refine ⟨fun m hm => ?_, fun m mnode x hm hlt hop hlive hx => ?_,
    fun m mnode hm hor hplain => ?_⟩
  · by_cases heq : m = n
    · subst heq
      rw [Function.update_self]
      exact hhere fun mnode' hm' => hm mnode' hm' (Nat.lt_succ_self m)
    · rw [Function.update_of_ne heq, hothers m heq]
      exact h.agree m fun mnode' hm' hlt => hm mnode' hm' (Nat.lt_succ_of_lt hlt)
  · have hxm : x < m := hg.sources m mnode hm x (hx ▸ List.mem_singleton_self x)
    have hxn : x ≠ n := Nat.ne_of_lt (Nat.lt_of_lt_of_le hxm (Nat.le_of_lt_succ hlt))
    rw [Function.update_of_ne hxn]
    by_cases heq : m = n
    · subst heq
      rw [hnode] at hm
      cases hm
      rw [Function.update_self]
      exact hsilu hop x hx
    · rw [Function.update_of_ne heq]
      exact h.silu m mnode x hm
        (Nat.lt_of_le_of_ne (Nat.le_of_lt_succ hlt) heq) hop hlive hx
  · by_cases heq : m = n
    · subst heq
      rw [hnode] at hm
      cases hm
      rw [Function.update_self]
      exact hsized hplain
    · rw [Function.update_of_ne heq]
      refine h.sized m mnode hm (hor.imp_right fun hlt => ⟨?_, hlt.2⟩) hplain
      exact Nat.lt_of_le_of_ne (Nat.le_of_lt_succ hlt.1) heq

/-- A source of a node of the fused graph has its value there. -/
theorem Alike.source (h : Alike act g g' n vals vals')
    (hnode' : g'.nodes[n]? = some node') {s : Nat}
    (hs : s ∈ node'.src) : vals' s = vals s :=
  h.agree s fun _ _ hlt => .inr (read_live hnode' hs hlt)

/-- A source's value has the source's size. -/
theorem Alike.sourceSized (hg : g.BuildOrder) (h : Alike act g g' n vals vals')
    (hnode : g.nodes[n]? = some node) {s : Nat} (hs : s ∈ node.src)
    {snode : CNode} (hsnode : g.nodes[s]? = some snode)
    (hplain : snode.op.onRegion = false) : (vals s).length = snode.nElements :=
  have hlt : s < n := hg.sources n node hnode s hs
  h.sized s snode hsnode (.inr ⟨hlt, read_live hnode hs hlt⟩) hplain

theorem evalNode_congr (hg : g.BuildOrder) (hnode : g.nodes[n]? = some node)
    (h : ∀ s ∈ node.src, vals' s = vals s) :
    evalNode k node vals' kv = evalNode k node vals kv := by
  rw [evalNode, evalNode, List.map_congr_left h]
  cases hview : node.view with
  | none => rfl
  | some v =>
      dsimp only
      rw [h v.src (hg.views n node v hnode hview)]

/-- A computed node's value has its size. -/
theorem evalNode_sized (hs : g.Shaped) (hk : k.Sized) (hg : g.BuildOrder)
    (h : Alike act g g' n vals vals') (hnode : g.nodes[n]? = some node)
    (hplain : node.op.onRegion = false) {kv' : σ}
    (hvalue : evalNode k node vals kv = (.ok data, kv')) :
    data.length = node.nElements := by
  have hmem := List.mem_of_getElem? hnode
  have hwindow := hs.windows node hmem
  rw [evalNode] at hvalue
  cases hview : node.view with
  | some v =>
      rw [hview] at hvalue
      cases hvalue
      have hread := hg.views n node v hnode hview
      obtain ⟨pnode, hparent⟩ := hg.source_node hnode hread
      obtain ⟨hparentPlain, hfits⟩ := hs.fits node hmem v hview _ hparent
      rw [List.length_take, List.length_drop,
        h.sourceSized hg hnode hread hparent hparentPlain]
      omega
  | none =>
      rw [hview, Option.isSome_none] at hwindow
      rw [hview] at hvalue
      have hwrites : node.op.writes = true
          ∧ k.run node (node.src.map vals) kv
          = k.op node (node.src.map vals) kv := by
        rw [Kernels.run]
        cases hop : node.op with
        | view => rw [hop] at hwindow; cases hwindow
        | reshape => rw [hop] at hwindow; cases hwindow
        | permute => rw [hop] at hwindow; cases hwindow
        | kvcacheLoad layer => rw [hop] at hplain; cases hplain
        | kvcacheStore layer => rw [hop] at hplain; cases hplain
        | _ => exact ⟨rfl, rfl⟩
      rw [hwrites.2, hplain] at hvalue
      dsimp only at hvalue
      generalize hrun : k.op node (node.src.map vals) kv = r at hvalue
      obtain ⟨out, kv₁⟩ := r
      cases out with
      | error e => cases hvalue
      | ok made =>
          cases hvalue
          exact hk _ _ _ _ _ hrun hwrites.1

/-- A `Silu`'s value. -/
theorem evalNode_silu (hs : g.Shaped) (hgated : k.Gated act prod)
    (hg : g.BuildOrder) (h : Alike act g g' n vals vals')
    (hnode : g.nodes[n]? = some node) (hop : node.op = .silu) (kv : σ) :
    ∃ x, node.src = [x] ∧ evalNode k node vals kv = (.ok ((vals x).map act), kv) := by
  have hmem := List.mem_of_getElem? hnode
  obtain ⟨x, hx⟩ := List.length_eq_one_iff.1 (hs.unary node hmem hop)
  have hread : x ∈ node.src := hx ▸ List.mem_singleton_self x
  obtain ⟨gate, hgate⟩ := hg.source_node hnode hread
  obtain ⟨hplain, hsize⟩ := hs.factors node hmem (.inl hop) x hread _ hgate
  have hlen := (h.sourceSized hg hnode hread hgate hplain).trans hsize
  have hview : node.view = none := hs.viewless hmem (by rw [hop]; rfl)
  refine ⟨x, hx, ?_⟩
  rw [evalNode, hview, Kernels.run, hop, hx]
  dsimp only [List.map]
  rw [hgated.silu node _ kv hop hlen]
  rfl

/-- A fused product's value is the product's. -/
theorem evalNode_fused (hs : g.Shaped) (hgated : k.Gated act prod)
    (hg : g.BuildOrder) (h : Alike act g g' n vals vals')
    (hnode : g.nodes[n]? = some node) {s x y : NodeId} {snode : CNode}
    (hproduct : node.op = .mul)
    (hfactors : node.src = [s, y] ∨ node.src = [y, s])
    (hfactor : g.nodes[s]? = some snode) (hsilu : snode.op = .silu)
    (hgate : snode.src[0]? = some x) (hx : vals' x = vals x)
    (hy : vals' y = vals y) (kv : σ) :
    ∃ data, evalNode k node vals kv = (.ok data, kv) ∧
      evalNode k { node with op := .swiGlu, src := [x, y] } vals' kv
        = (.ok data, kv) := by
  have hmem := List.mem_of_getElem? hnode
  have hview : node.view = none := hs.viewless hmem (by rw [hproduct]; rfl)
  have hread := mem_factors hfactors
  have hsn : s < n := hg.sources n node hnode s hread.1
  have hvalue : vals s = (vals x).map act := by
    refine h.silu s snode x hfactor hsn hsilu (read_live hnode hread.1 hsn) ?_
    obtain ⟨x', hx'⟩ :=
      List.length_eq_one_iff.1
      (hs.unary snode (List.mem_of_getElem? hfactor) hsilu)
    rw [hx'] at hgate ⊢
    rw [← Option.some.inj hgate]
  have hsize : ∀ s ∈ node.src, (vals s).length = node.nElements := by
    intro s hs'
    obtain ⟨fnode, hfnode⟩ := hg.source_node hnode hs'
    obtain ⟨hplain, heq⟩ := hs.factors node hmem (.inr hproduct) s hs' fnode hfnode
    exact (h.sourceSized hg hnode hs' hfnode hplain).trans heq
  have hlens := hsize s hread.1
  have hleny := hsize y hread.2
  have hlenx : (vals x).length = node.nElements := by
    rw [← hlens, hvalue, List.length_map]
  refine ⟨List.zipWith (fun a b => prod (act a) b) (vals x) (vals y), ?_, ?_⟩
  · rw [evalNode, hview, Kernels.run, hproduct]
    dsimp only
    rcases hfactors with heq | heq
    · rw [heq]
      dsimp only [List.map]
      rw [hgated.mul node _ _ kv hproduct hlens hleny, hvalue, List.zipWith_map_left]
      rfl
    · rw [heq]
      dsimp only [List.map]
      rw [hgated.mul node _ _ kv hproduct hleny hlens, hvalue,
        List.zipWith_map_right, List.zipWith_comm]
      simp only [hgated.comm]
      rfl
  · generalize hfused : { node with op := .swiGlu, src := [x, y] } = fused
    have hop : fused.op = .swiGlu := hfused ▸ rfl
    have hsrc : fused.src = [x, y] := hfused ▸ rfl
    have hsame : fused.nElements = node.nElements := hfused ▸ rfl
    have hviewless : fused.view = none := hfused ▸ hview
    rw [evalNode, hviewless, Kernels.run, hop, hsrc]
    dsimp only [List.map]
    rw [hx, hy, hgated.swiGlu fused _ _ kv hop (hsame ▸ hlenx) (hsame ▸ hleny)]
    rfl

/-- One node in both graphs. -/
theorem Alike.step (hf : g.Fused g') (hs : g.Shaped) (hk : k.Sized)
    (hgated : k.Gated act prod) (hg : g.BuildOrder)
    (h : Alike act g g' n vals vals') (hnode : g.nodes[n]? = some node)
    (hnode' : g'.nodes[n]? = some node')
    (hrewrites : g.Rewrites node node') (kv : σ) :
    Together act g g' (n + 1) (g.evalStep k node n vals kv)
      (g'.evalStep k node' n vals' kv) := by
  have hinput := hrewrites.place.input
  rw [evalStep, evalStep]
  by_cases hin : node.isInput = true
  · rw [hinput, hin, Bool.true_or, Bool.true_or, if_pos rfl, if_pos rfl]
    exact .ok (h.skip hnode hnode' (.inl (hinput.trans hin)) (.inl hin))
  have hcomputed : node.isInput = false := Bool.not_eq_true _ ▸ hin
  rw [hinput, hcomputed, Bool.false_or, Bool.false_or]
  by_cases hlive : g.isLive n node = true
  · rw [hlive, Bool.not_true, if_neg Bool.false_ne_true]
    by_cases hlive' : g'.isLive n node' = true
    · rw [hlive', Bool.not_true, if_neg Bool.false_ne_true]
      cases hrewrites with
      | same =>
          have hsame : evalNode k node vals' kv = evalNode k node vals kv :=
            evalNode_congr hg hnode fun s hs' => h.source hnode' hs'
          rw [hsame]
          generalize hvalue : evalNode k node vals kv = r
          obtain ⟨out, kv'⟩ := r
          cases out with
          | error e => exact .failed e kv'
          | ok data =>
              refine .ok (h.put hg hnode (fun hop x hx => ?_)
                (fun hplain => evalNode_sized hs hk hg h hnode hplain hvalue)
                (fun m hne => Function.update_of_ne hne ..) fun _ =>
                  Function.update_self ..)
              obtain ⟨x', hx', hsilu⟩ := evalNode_silu hs hgated hg h hnode hop kv
              rw [hx] at hx'
              cases hx'
              rw [hvalue] at hsilu
              cases hsilu
              rfl
      | fused product factors factor silu gate =>
          obtain ⟨data, hvalue, hvalue'⟩ :=
            evalNode_fused hs hgated hg h hnode product factors factor
            silu gate
            (h.source hnode' List.mem_cons_self)
              (h.source hnode' (List.mem_cons_of_mem _ List.mem_cons_self)) kv
          rw [hvalue, hvalue']
          refine .ok (h.put hg hnode (fun hop => ?_)
            (fun hplain => evalNode_sized hs hk hg h hnode hplain hvalue)
            (fun m hne => Function.update_of_ne hne ..) fun _ =>
              Function.update_self ..)
          rw [product] at hop
          cases hop
    · -- a Silu that lost its last reader
      have hdead : g'.isLive n node' = false := Bool.not_eq_true _ ▸ hlive'
      have hop := (hf.live_or_silu hnode hrewrites hlive).resolve_left hlive'
      obtain ⟨x, hx, hvalue⟩ := evalNode_silu hs hgated hg h hnode hop kv
      rw [hdead, Bool.not_false, if_pos rfl, hvalue]
      refine .ok (h.put hg hnode (fun _ x' hx' => ?_)
        (fun hplain => evalNode_sized hs hk hg h hnode hplain hvalue)
        (fun m _ => rfl) fun hwanted => ?_)
      · rw [hx] at hx'
        cases hx'
        rfl
      · rcases hwanted node' hnode' with hin' | hlive''
        · exact absurd (hinput.symm.trans hin') hin
        · exact absurd hlive'' hlive'
  · have hdead : g.isLive n node = false := Bool.not_eq_true _ ▸ hlive
    have hdead' : g'.isLive n node' = false :=
      Bool.not_eq_true _ ▸ mt (hf.live hg hrewrites) hlive
    rw [hdead, hdead', Bool.not_false, if_pos rfl, if_pos rfl]
    exact .ok (h.skip hnode hnode' (.inr hdead') (.inr hdead))

/-- The two graphs evaluated from one node on. -/
theorem Alike.run (hf : g.Fused g') (hs : g.Shaped) (hk : k.Sized)
    (hgated : k.Gated act prod) (hg : g.BuildOrder) {nodes nodes' : List CNode}
    (h : Alike act g g' n vals vals') (hn : n ≤ g.nNodes)
    (hnodes : nodes = g.nodes.drop n) (hnodes' : nodes' = g'.nodes.drop n) :
    Together act g g' g.nNodes (g.evalFrom k nodes n vals kv)
      (g'.evalFrom k nodes' n vals' kv) := by
  induction nodes generalizing n nodes' vals vals' kv with
  | nil =>
      obtain rfl : n = g.nNodes :=
        Nat.le_antisymm hn (List.drop_eq_nil_iff.1 hnodes.symm)
      have hnil : nodes' = [] :=
        hnodes'.trans (List.drop_eq_nil_of_le (Nat.le_of_eq hf.length))
      rw [hnil]
      exact .ok h
  | cons node rest ih =>
      have hlt : n < g.nodes.length := by
        refine Nat.lt_of_not_le fun hle => ?_
        rw [List.drop_eq_nil_of_le hle] at hnodes
        cases hnodes
      rw [List.drop_eq_getElem_cons hlt] at hnodes
      obtain ⟨rfl, hrest⟩ := List.cons.inj hnodes
      have hnode : g.nodes[n]? = some g.nodes[n] := List.getElem?_eq_getElem hlt
      obtain ⟨node', hnode', hrewrites⟩ := hf.rewrites hnode
      obtain ⟨hlt', heq⟩ := List.getElem?_eq_some_iff.1 hnode'
      rw [List.drop_eq_getElem_cons hlt', heq] at hnodes'
      have hone := h.step hf hs hk hgated hg hnode hnode' hrewrites kv
      rw [hnodes', evalFrom, evalFrom]
      generalize g.evalStep k g.nodes[n] n vals kv = r at hone
      generalize g'.evalStep k node' n vals' kv = r' at hone
      cases hone with
      | failed e kv' => exact .failed e kv'
      | ok halike => exact ih halike hlt hrest rfl

end

-- =========================== the fills

variable {g g' : ComputeGraph} {fills : List (String × List ε)}
  {vals vals' : NodeId → List ε} {n : Nat} {node : CNode}

/-- What the pass leaves alone in every node. -/
theorem Fused.map {β : Type} (h : g.Fused g') (f : CNode → β)
    (hsame : ∀ node node', SamePlace node node' → f node' = f node)
    (n : Nat) : (g'.nodes[n]?).map f = (g.nodes[n]?).map f := by
  cases hnode : g.nodes[n]? with
  | none =>
      have hle : g.nNodes ≤ n := List.getElem?_eq_none_iff.1 hnode
      rw [List.getElem?_eq_none (h.length ▸ hle : g'.nNodes ≤ n)]
  | some node =>
      obtain ⟨node', hnode', hrewrites⟩ := h.rewrites hnode
      rw [hnode', Option.map_some, Option.map_some, hsame node node' hrewrites.place]

theorem Fused.inputNamed (h : g.Fused g') {name : String} :
    g'.inputNamed name = g.inputNamed name := by
  have hnames : ∀ n : NodeId,
      (g'.nodes[n]?).any (fun node => decide (node.name = name)) =
      (g.nodes[n]?).any (fun node => decide (node.name = name)) := by
    intro n
    have hmap :=
      congrArg (Option.any fun s => decide (s = name))
      (h.map CNode.name (fun _ _ hsame => hsame.name) n)
    rw [Option.any_map, Option.any_map] at hmap
    exact hmap
  rw [ComputeGraph.inputNamed, ComputeGraph.inputNamed, h.inputs]
  simp only [hnames]

theorem Fused.fillValues (h : g.Fused g') :
    g'.fillValues fills vals = g.fillValues fills vals := by
  induction fills generalizing vals with
  | nil => rfl
  | cons fill rest ih =>
      obtain ⟨name, data⟩ := fill
      have hsize := h.map CNode.nElements fun _ _ hsame => hsame.size
      rw [ComputeGraph.fillValues, ComputeGraph.fillValues, h.inputNamed]
      simp only [hsize, ih]

/-- What is filled in has its input's size. -/
theorem fillValues_sized (h : g.fillValues fills vals = .ok vals')
    {F : NodeId → Prop} (hF : ∀ m, F m → ∀ mnode, g.nodes[m]? = some mnode →
      (vals m).length = mnode.nElements)
    (hn : F n ∨ ∃ fill ∈ fills, g.inputNamed fill.1 = some n)
    (hnode : g.nodes[n]? = some node) :
    (vals' n).length = node.nElements := by
  induction fills generalizing vals F with
  | nil =>
      cases h
      exact hF n (hn.resolve_right fun ⟨fill, hmem, _⟩ =>
        List.not_mem_nil hmem) node hnode
  | cons fill rest ih =>
      obtain ⟨name, data⟩ := fill
      rw [ComputeGraph.fillValues] at h
      cases hname : g.inputNamed name with
      | none =>
          rw [hname] at h
          cases h
      | some m =>
          rw [hname] at h
          dsimp only at h
          by_cases hwrong : data.length ≠ ((g.nodes[m]?).map CNode.nElements).getD 0
          · rw [if_pos hwrong] at h
            cases h
          rw [if_neg hwrong] at h
          refine @ih (Function.update vals m data) h (fun x => F x ∨ x = m)
            (fun x hx xnode hxnode => ?_) ?_
          · by_cases heq : x = m
            · subst heq
              rw [Function.update_self, not_not.1 hwrong, hxnode]
              rfl
            · rw [Function.update_of_ne heq]
              exact hF x (hx.resolve_right heq) xnode hxnode
          · rcases hn with hn | ⟨fill, hmem, hn⟩
            · exact .inl (.inl hn)
            · rcases List.mem_cons.1 hmem with rfl | hmem
              · rw [hname] at hn
                exact .inl (.inr (Option.some.inj hn).symm)
              · exact .inr ⟨fill, hmem, hn⟩

-- ========================== the fusion

theorem Fused.buildOrder (h : g.Fused g') (hg : g.BuildOrder) (hs : g.Shaped) :
    g'.BuildOrder where
  ids n node' hnode' := by
    obtain ⟨node, hnode, hrewrites⟩ := h.back hnode'
    have hid := hg.ids n node hnode
    cases hrewrites with
    | same => exact hid
    | fused _ _ _ _ _ => exact hid
  sources n node' hnode' := by
    obtain ⟨node, hnode, hrewrites⟩ := h.back hnode'
    cases hrewrites with
    | same => exact hg.sources n _ hnode
    | @fused s x y snode product factors factor silu gate =>
        obtain ⟨hs', hy'⟩ := mem_factors factors
        intro m hm
        rcases List.mem_pair.1 hm with rfl | rfl
        · exact Nat.lt_trans
            (hg.sources s snode factor m (List.mem_of_getElem? gate))
            (hg.sources n node hnode s hs')
        · exact hg.sources n node hnode m hy'
  views n node' v hnode' hv := by
    obtain ⟨node, hnode, hrewrites⟩ := h.back hnode'
    cases hrewrites with
    | same => exact hg.views n _ v hnode hv
    | fused product _ _ _ _ =>
        have hview : node.view = none :=
          hs.viewless (List.mem_of_getElem? hnode) (by rw [product]; rfl)
        rw [show node.view = some v from hv] at hview
        cases hview
  listed n node' hnode' hin := by
    obtain ⟨node, hnode, hrewrites⟩ := h.back hnode'
    rw [h.inputs]
    exact hg.listed n node hnode (hrewrites.place.input ▸ hin)

theorem Fused.forwardValues {k : Kernels ε σ} {act : ε → ε} {prod : ε → ε → ε}
    {kv : σ} (h : g.Fused g')
    (hs : g.Shaped) (hk : k.Sized) (hgated : k.Gated act prod)
    (hg : g.BuildOrder) (hfilled : g.Filled fills) :
    g'.forwardValues k fills kv = g.forwardValues k fills kv := by
  rw [ComputeGraph.forwardValues, ComputeGraph.forwardValues, h.fillValues]
  cases hfill : g.fillValues fills (fun _ => []) with
  | error e => rfl
  | ok inputs =>
      have hstart : Alike act g g' 0 inputs inputs := by
        refine ⟨fun _ _ => rfl, fun _ _ _ _ hlt =>
          absurd hlt (Nat.not_lt_zero _), fun m mnode hm hor _ => ?_⟩
        have hin : mnode.isInput = true :=
          hor.resolve_right fun hlt => Nat.not_lt_zero _ hlt.1
        exact fillValues_sized hfill (fun _ => False.elim)
          (.inr (hfilled m ⟨mnode, hm, hin⟩)) hm
      have hrun : Together act g g' g.nNodes (g.eval k inputs kv)
          (g'.eval k inputs kv) :=
        hstart.run h hs hk hgated hg (Nat.zero_le _) rfl rfl
      dsimp only
      generalize g.eval k inputs kv = r at hrun
      generalize g'.eval k inputs kv = r' at hrun
      cases hrun with
      | failed e kv' => rfl
      | @ok vals vals' kv' halike =>
          dsimp only
          rw [h.outputs]
          refine congrArg (fun outs => (Except.ok outs, kv'))
            (List.map_congr_left fun out hout => ?_)
          rw [halike.agree out fun node' hnode' hlt =>
            .inr (isLive_iff.2 (.inr (.inr ?_)))]
          have hlt' : out < g'.nNodes := (List.getElem?_eq_some_iff.1 hnode').1
          exact (need_end hlt' (.inl (h.outputs.symm ▸ hout))).symm ▸ hlt'

/-- The graph as it is when the pass comes to a node: the sources of the
products before it are replaced, the operations are not. -/
def fusingAt (g : ComputeGraph) (supportsFused : List Bool)
    (backendOf : ComputeGraph → NodeId → Option Nat) (n : NodeId) :
    Option ComputeGraph :=
  (Fusing.visitAll supportsFused backendOf (List.range n)
    ⟨g, List.replicate g.nNodes none, 0⟩).map (·.graph)

/-- The pass goes through and touches only nodes that are on a backend with
the kernel when it comes to them, the fused graph is in build order, and a
forward of it is a forward of the graph the pass was given. -/
theorem fuse_keeps {k : Kernels ε σ} {act : ε → ε} {prod : ε → ε → ε}
    {supportsFused : List Bool}
    {backendOf : ComputeGraph → NodeId → Option Nat} (hg : g.BuildOrder)
    (hs : g.Shaped) (hk : k.Sized) (hgated : k.Gated act prod)
    (hbackends : ∀ g n bi, backendOf g n = some bi → bi < supportsFused.length)
    :
    ∃ replaced g', g.fuse supportsFused backendOf = some (replaced, g')
      ∧ g'.BuildOrder ∧
      (∀ n, g'.nodes[n]? ≠ g.nodes[n]? →
        ∃ h bi, g.fusingAt supportsFused backendOf n = some h ∧
        backendOf h n = some bi ∧ supportsFused[bi]? = some true) ∧
      ∀ fills kv, g.Filled fills →
        g'.forwardValues k fills kv = g.forwardValues k fills kv := by
  have hids : List.range g.nNodes = List.range' 0 (g.nNodes - 0) :=
    List.range_eq_range'
  have hplace : ∀ n st, Fusing.visitAll supportsFused backendOf (List.range n)
        ⟨g, List.replicate g.nNodes none, 0⟩ = some st →
      ∀ bi, backendOf st.graph n = some bi → supportsFused[bi]? = some true →
        ∃ h bi, g.fusingAt supportsFused backendOf n = some h ∧
          backendOf h n = some bi ∧ supportsFused[bi]? = some true := by
    intro n st hrun bi hback hkernel
    refine ⟨st.graph, bi, ?_, hback, hkernel⟩
    rw [fusingAt, hrun]
    rfl
  obtain ⟨st, hvisit, hat⟩ := Fusing.At.start.visitAll hg hs hbackends hplace rfl hids
  have hfused := hat.finish
  refine ⟨st.replaced, st.finish, ?_, hfused.buildOrder hg hs, fun n hne => ?_,
      fun fills kv hfilled =>
    hfused.forwardValues hs hk hgated hg hfilled⟩
  · rw [fuse, fuseSwiglu, hvisit]
  · by_contra hnone
    refine hne ?_
    cases hnode' : st.finish.nodes[n]? with
    | none =>
        have hle : st.finish.nNodes ≤ n := List.getElem?_eq_none_iff.1 hnode'
        exact (List.getElem?_eq_none (hfused.length ▸ hle : g.nNodes ≤ n)).symm
    | some node' => exact (hat.untouched hnode' hnone).symm

end ComputeGraph

-- ============================== sample

namespace Sample

/-- A gated product: the activation of an input, by a norm of it. -/
def gatedBlock : ComputeGraph where
  nodes := [link 0 .input [], link 1 .silu [0], link 2 .rmsNorm [0],
    link 3 .mul [1, 2]]
  inputs := [0]
  outputs := [3]
  uid := 1

theorem gatedBlock_links : ∀ p ∈ gatedBlock.nodes.zipIdx, p.1.id = p.2
    ∧ (∀ s ∈ p.1.src, s < p.2) ∧
    (p.1.isInput = true → p.2 = 0) ∧ p.1.op.onRegion = false
      ∧ p.1.op.viewLike = false ∧ p.1.view = none ∧
      p.1.nElements = 8 ∧ (p.1.op = .silu → p.1.src.length = 1) := by
  decide

theorem gatedBlock_link {n : NodeId} {node : CNode}
    (h : gatedBlock.nodes[n]? = some node) : node.id = n ∧
    (∀ s ∈ node.src, s < n) ∧ (node.isInput = true → n = 0)
      ∧ node.op.onRegion = false ∧ node.op.viewLike = false ∧
      node.view = none ∧ node.nElements = 8
        ∧ (node.op = .silu → node.src.length = 1) :=
  gatedBlock_links (node, n) (List.mem_zipIdx_iff_getElem?.2 h)

theorem gatedBlock_buildOrder : gatedBlock.BuildOrder where
  ids n node h := (gatedBlock_link h).1
  sources n node h := (gatedBlock_link h).2.1
  views n node v h hv := by
    obtain ⟨-, -, -, -, -, hview, -, -⟩ := gatedBlock_link h
    rw [hview] at hv
    cases hv
  listed n node h hin := (gatedBlock_link h).2.2.1 hin ▸ List.mem_cons_self

theorem gatedBlock_shaped : gatedBlock.Shaped where
  unary node hmem hop := by
    obtain ⟨n, hnode⟩ := List.mem_iff_getElem?.1 hmem
    obtain ⟨-, -, -, -, -, -, -, hone⟩ := gatedBlock_link hnode
    exact hone hop
  factors node hmem _ s _ snode hsnode := by
    obtain ⟨n, hnode⟩ := List.mem_iff_getElem?.1 hmem
    obtain ⟨-, -, -, -, -, -, hsize, -⟩ := gatedBlock_link hnode
    obtain ⟨-, -, -, hplain, -, -, hsize', -⟩ := gatedBlock_link hsnode
    exact ⟨hplain, hsize'.trans hsize.symm⟩
  windows node hmem := by
    obtain ⟨n, hnode⟩ := List.mem_iff_getElem?.1 hmem
    obtain ⟨-, -, -, -, hop, hview, -, -⟩ := gatedBlock_link hnode
    rw [hop, hview]
    rfl
  fits node hmem v hv := by
    obtain ⟨n, hnode⟩ := List.mem_iff_getElem?.1 hmem
    obtain ⟨-, -, -, -, -, hview, -, -⟩ := gatedBlock_link hnode
    rw [hview] at hv
    cases hv

/-- A gate adds one. -/
def gateValue (node : CNode) (ins : List (List Nat)) : List Nat :=
  match node.op, ins with
  | .silu, [x] => x.map (· + 1)
  | .mul, [x, y] => List.zipWith (· * ·) x y
  | .swiGlu, [x, y] => List.zipWith (fun a b => (a + 1) * b) x y
  | _, _ => List.replicate node.nElements 2

/-- A value that is not of its node's size is refused. -/
def gates : Kernels Nat Nat where
  op node ins kv :=
    if (gateValue node ins).length = node.nElements
      then (.ok (gateValue node ins), kv) else (.error "size", kv)
  asyncCopies := true
  enqueues _ _ := false

theorem gates_sized : gates.Sized := by
  intro node ins kv data kv' h _
  rw [gates] at h
  dsimp only at h
  by_cases hlen : (gateValue node ins).length = node.nElements
  · rw [if_pos hlen] at h
    cases h
    exact hlen
  · rw [if_neg hlen] at h
    cases h

theorem gates_op {node : CNode} {ins : List (List Nat)} {data : List Nat}
    (kv : Nat) (hvalue : gateValue node ins = data)
    (hlen : data.length = node.nElements) :
    gates.op node ins kv = (.ok data, kv) := by
  subst hvalue
  exact if_pos hlen

theorem gates_gated : gates.Gated (· + 1) (· * ·) where
  silu node x kv hop hlen :=
    gates_op kv (by simp only [gateValue, hop])
    (List.length_map .. |>.trans hlen)
  mul node x y kv hop hx hy := by
    refine gates_op kv (by simp only [gateValue, hop]) ?_
    rw [List.length_zipWith, hx, hy, Nat.min_self]
  swiGlu node x y kv hop hx hy := by
    refine gates_op kv (by simp only [gateValue, hop]) ?_
    rw [List.length_zipWith, hx, hy, Nat.min_self]
  comm := Nat.mul_comm

theorem fuse_keeps_gatedBlock : ∃ replaced g', gatedBlock.fuse [true]
    (fun _ _ => some 0) = some (replaced, g') ∧
    g'.BuildOrder ∧ g'.forwardValues gates [("n", List.replicate 8 5)] 0 =
      gatedBlock.forwardValues gates [("n", List.replicate 8 5)] 0 := by
  have hbackends : ∀ (g : ComputeGraph) (n : NodeId) (bi : Nat),
      (fun _ _ => some 0 : ComputeGraph → NodeId → Option Nat) g n = some bi →
      bi < [true].length := by
    intro g n bi h
    cases h
    exact Nat.one_pos
  obtain ⟨replaced, g', hfuse, horder, -, hkeeps⟩ :=
    ComputeGraph.fuse_keeps gatedBlock_buildOrder gatedBlock_shaped gates_sized
      gates_gated hbackends
  refine ⟨replaced, g', hfuse, horder, hkeeps _ _ fun n hn => ?_⟩
  obtain ⟨node, hnode, hinput⟩ := hn
  rw [(gatedBlock_link hnode).2.2.1 hinput]
  exact ⟨_, List.mem_cons_self, rfl⟩

example : gatedBlock.fuse [true] (fun _ _ => some 0) = some (1, { gatedBlock with
    nodes := [link 0 .input [], link 1 .silu [0], link 2 .rmsNorm [0],
      link 3 .swiGlu [0, 2]] }) := by
  decide

end Sample
end Minfer.Graph
