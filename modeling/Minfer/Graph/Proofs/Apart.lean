/-
Two nodes that are both still needed do not disturb each other's elements.

Buffers are shared on purpose: a view is a window of its parent, and an
in-place node stands where its source stood. So two needed nodes on one buffer
are either windows of one node, or their windows are disjoint (`NeededApart`),
and the step that places a node keeps it so: a view stays within its parent,
what is handed out has no needed holder (`recycled`), and an in-place node
takes a window that, by the condition on the graph (`Executable.inPlace`),
nothing reads any more.
-/
import Minfer.Graph.Proofs.Layout
import Minfer.Graph.Proofs.Splits

namespace Minfer.Graph

open GraphAllocator

namespace Op

/-- The operations whose nodes are windows. -/
def viewLike : Op → Bool
  | view | reshape | permute => true
  | _ => false

end Op

namespace BufRef

/-- The windows have no element in common. -/
def Disjoint (r r' : BufRef) : Prop :=
  r.offset + r.len ≤ r'.offset ∨ r'.offset + r'.len ≤ r.offset

theorem Disjoint.symm {r r' : BufRef} (h : r.Disjoint r') : r'.Disjoint r := Or.symm h

end BufRef

namespace ComputeGraph

/-- `n` is a window of `root`, or of a window of it and so on, from element
`off` on. -/
inductive Window (g : ComputeGraph) : NodeId → NodeId → Nat → Prop where
  | self (n : NodeId) : Window g n n 0
  | view {n root : NodeId} {off : Nat} {node : CNode} {v : ViewAlias}
      (hnode : g.nodes[n]? = some node)
      (computed : node.isInput = false) (hview : node.view = some v)
        (h : Window g v.src root off) :
      Window g n root (off + v.offset)

/-- What an execution asks of a graph. -/
structure Executable (g : ComputeGraph) : Prop where
  order : g.BuildOrder
  assigned : g.Assigned
  entries : ∀ n ∈ g.inputs, g.InputNode n
  windows : ∀ node ∈ g.nodes, node.view.isSome = node.op.viewLike
  parents : ∀ node ∈ g.nodes, ∀ v, node.view = some v →
    ∀ pnode, g.nodes[v.src]? = some pnode →
    pnode.op.onRegion = false
  /-- What an in-place node writes over has its length, and no overlapping
  window of it is read later. -/
  inPlace : ∀ (n : NodeId) node p pnode, g.nodes[n]? = some node →
    g.InPlace node p → g.nodes[p]? = some pnode →
    pnode.op.onRegion = false ∧ pnode.nElements = node.nElements ∧
      ∀ m mnode root off off', g.nodes[m]? = some mnode → g.Window p root off →
        g.Window m root off' →
        off < off' + mnode.nElements → off' < off + pnode.nElements → g.need m ≤ n
  results : ∀ n ∈ g.outputs, ∀ node, g.nodes[n]? = some node →
    node.op.onRegion = false

/-- The node's elements are a value: it stands in no region. -/
def Plain (g : ComputeGraph) (n : NodeId) : Prop :=
  ∀ node, g.nodes[n]? = some node → node.op.onRegion = false

variable {g : ComputeGraph}

/-- A window comes after what it is a window of. -/
theorem Window.le (hg : g.BuildOrder) {n root : NodeId} {off : Nat}
    (h : g.Window n root off) :
    n = root ∧ off = 0 ∨ root < n ∧ ¬g.InputNode n := by
  induction h with
  | self n => exact .inl ⟨rfl, rfl⟩
  | @view n root off node v hnode computed hview _ ih =>
      have hlt : v.src < n :=
        hg.sources n node hnode v.src (hg.views n node v hnode hview)
      refine .inr ⟨?_, not_inputNode hnode computed⟩
      rcases ih with ⟨heq, -⟩ | ⟨hroot, -⟩
      · exact heq ▸ hlt
      · exact Nat.lt_trans hroot hlt

end ComputeGraph

-- ============================== mapped

/-- An allocator that `alloc_graph` has mapped onto the graph. -/
structure Mapped (g : ComputeGraph) (a : GraphAllocator) : Prop where
  sound : a.Sound
  laid : ∀ n node, g.nodes[n]? = some node → LaidAt g a n node
  placed : ∀ {n r}, a.nodeToBuf.lookup n = some r → n < g.nNodes
  active : ∀ {n key}, (n, key) ∈ a.handed → a.Active key
  recycled : ∀ {n key}, (n, key) ∈ a.handed → ¬g.InputNode n →
    ∀ {m r}, a.nodeToBuf.lookup m = some r → r.key = key → m ≠ n →
      m < n ∨ g.InputNode m → g.need m < n
  inputsOnce : ∀ {n key}, (n, key) ∈ a.handed → g.InputNode n →
    ∀ {m}, (m, key) ∈ a.handed → m = n

theorem allocGraph_mapped {a a' : GraphAllocator} {env : AllocEnv}
    {g : ComputeGraph} (h : a.Sound)
    (hg : g.BuildOrder) (hok : a.allocGraph env g = (.ok (), a')) :
    Mapped g a' ∧ ∀ n ∈ g.outputs, n < g.nNodes := by
  obtain ⟨hout, lastUse, hwalk⟩ := allocGraph_walkOk h hg hok
  refine ⟨⟨hwalk.sound, allocGraph_laid h hg hok, fun hr => ?_, hwalk.active,
    hwalk.recycled, hwalk.inputsOnce⟩, hout⟩
  rcases hwalk.placed hr with hlt | ⟨node, hnode, -⟩
  · exact hlt
  · exact (List.getElem?_eq_some_iff.1 hnode).1

namespace Mapped

variable {g : ComputeGraph} {a : GraphAllocator}
variable {n : NodeId} {r : BufRef}

theorem node_of (h : Mapped g a) (hr : a.nodeToBuf.lookup n = some r) :
    ∃ node, g.nodes[n]? = some node :=
  ⟨_, List.getElem?_eq_getElem (h.placed hr)⟩

variable {node : CNode}

/-- What a node reads has a buffer. -/
theorem placed_of_read (h : Mapped g a) {s : NodeId}
    (hnode : g.nodes[n]? = some node) (hg : g.BuildOrder) (hs : s ∈ node.src) :
    (a.nodeToBuf.lookup s).isSome := by
  have hlt : s < n := hg.sources n node hnode s hs
  have hslt : s < g.nNodes := Nat.lt_trans hlt (List.getElem?_eq_some_iff.1 hnode).1
  cases h.laid s _ (List.getElem?_eq_getElem hslt) with
  | input _ _ buf _ => rw [buf]; rfl
  | view _ _ _ _ _ buf _ _ => rw [buf]; rfl
  | region _ _ _ _ buf _ _ => rw [buf]; rfl
  | own _ _ _ _ _ buf _ => rw [buf]; rfl
  | inPlace _ _ _ _ _ _ buf _ => rw [buf]; rfl
  | dead _ _ _ unread _ =>
      have hread := ComputeGraph.le_need hnode hs hslt
      exact absurd (Nat.lt_of_lt_of_le hlt hread) (Nat.not_lt_of_le unread)

/-- A node's window has the node's length. -/
theorem length_of (h : Mapped g a) (hx : g.Executable)
    (hnode : g.nodes[n]? = some node) (hop : node.op.onRegion = false)
    (hr : a.nodeToBuf.lookup n = some r) :
    r.len = node.nElements := by
  induction n using Nat.strong_induction_on generalizing node r with
  | _ n ih =>
      cases h.laid n node hnode with
      | input pid _ buf _ => rw [hr] at buf; cases buf; rfl
      | view v rp _ _ _ buf _ _ => rw [hr] at buf; cases buf; rfl
      | region _ _ _ op _ _ _ => rw [op] at hop; cases hop
      | own pid _ _ _ _ buf _ => rw [hr] at buf; cases buf; rfl
      | inPlace p rp _ _ source parent buf _ =>
          have hlt : p < n :=
            hx.order.sources n node hnode p (List.mem_of_mem_head? source.head)
          obtain ⟨pnode, hpnode⟩ := h.node_of parent
          obtain ⟨hpop, hlen, -⟩ := hx.inPlace n node p pnode hnode source hpnode
          rw [hr] at buf
          cases buf
          exact (ih p hlt hpnode hpop parent).trans hlen
      | dead _ _ _ _ buf => rw [hr] at buf; cases buf

/-- Only a region node stands in a region. -/
theorem active_of (h : Mapped g a) (hx : g.Executable)
    (hnode : g.nodes[n]? = some node) (hop : node.op.onRegion = false)
    (hr : a.nodeToBuf.lookup n = some r) :
    a.Active r.key := by
  induction n using Nat.strong_induction_on generalizing node r with
  | _ n ih =>
      cases h.laid n node hnode with
      | input pid _ buf handed =>
          rw [hr] at buf
          cases buf
          exact h.active handed
      | view v rp _ view parent buf _ _ =>
          have hlt : v.src < n :=
            hx.order.sources n node hnode v.src
            (hx.order.views n node v hnode view)
          obtain ⟨pnode, hpnode⟩ := h.node_of parent
          have hpop :=
            hx.parents node (List.mem_of_getElem? hnode) v view pnode hpnode
          rw [hr] at buf
          cases buf
          have hactive := ih v.src hlt hpnode hpop parent
          rwa [BufRef.window_key]
      | region _ _ _ op _ _ _ => rw [op] at hop; cases hop
      | own pid _ _ _ _ buf handed =>
          rw [hr] at buf
          cases buf
          exact h.active handed
      | inPlace p rp _ _ source parent buf _ =>
          have hlt : p < n :=
            hx.order.sources n node hnode p (List.mem_of_mem_head? source.head)
          obtain ⟨pnode, hpnode⟩ := h.node_of parent
          rw [hr] at buf
          cases buf
          exact ih p hlt hpnode
            (hx.inPlace n node p pnode hnode source hpnode).1 parent
      | dead _ _ _ _ buf => rw [hr] at buf; cases buf

/-- A window of a node is inside its buffer, at the same place. -/
theorem window_of (h : Mapped g a) {root : NodeId} {off : Nat}
    (hw : g.Window n root off) (hr : a.nodeToBuf.lookup n = some r) :
    ∃ rr, a.nodeToBuf.lookup root = some rr ∧ r.key = rr.key
      ∧ r.offset = rr.offset + off := by
  induction hw generalizing r with
  | self n => exact ⟨r, hr, rfl, rfl⟩
  | @view n root off node v hnode computed hview _ ih =>
      cases h.laid n node hnode with
      | view v' rp _ view parent buf _ _ =>
          rw [hview] at view
          cases view
          rw [hr] at buf
          cases buf
          obtain ⟨rr, hrr, hkey, hoff⟩ := ih parent
          refine ⟨rr, hrr, hkey, ?_⟩
          rw [BufRef.window, hoff]
          exact Nat.add_assoc ..
      | input _ input _ _ => rw [computed] at input; cases input
      | region _ _ viewless _ _ _ _ => rw [hview] at viewless; cases viewless
      | own _ _ viewless _ _ _ _ => rw [hview] at viewless; cases viewless
      | inPlace _ _ _ _ source _ _ _ =>
          have hnone := source.viewless
          rw [hview] at hnone
          cases hnone
      | dead _ viewless _ _ _ => rw [hview] at viewless; cases viewless

end Mapped

-- =============================== apart

/-- Two windows of one node. -/
def Related (g : ComputeGraph) (m n : NodeId) : Prop :=
  ∃ root off off', g.Window m root off ∧ g.Window n root off'

theorem Related.symm {g : ComputeGraph} {m n : NodeId} (h : Related g m n) :
    Related g n m := by
  obtain ⟨root, off, off', hm, hn⟩ := h
  exact ⟨root, off', off, hn, hm⟩

/-- The node has been placed before step `i`, and a step from `i` on needs
it. -/
structure Needed (g : ComputeGraph) (a : GraphAllocator) (i n : NodeId)
    (r : BufRef) : Prop where
  present : n < i ∨ g.InputNode n
  needed : i ≤ g.need n
  buf : a.nodeToBuf.lookup n = some r
  plain : g.Plain n

/-- Before step `i`, needed nodes do not disturb each other. -/
def NeededApart (g : ComputeGraph) (a : GraphAllocator) (i : Nat) : Prop :=
  ∀ m n r r', m ≠ n → Needed g a i m r → Needed g a i n r' → r.key = r'.key →
    Related g m n ∨ r.Disjoint r'

section

variable {g : ComputeGraph} {a : GraphAllocator} {i : Nat}
variable {r : BufRef}
variable {n m : NodeId} {r' : BufRef}

theorem Needed.earlier (h : Needed g a (i + 1) n r)
    (hne : n < i ∨ g.InputNode n) :
    Needed g a i n r :=
  ⟨hne, Nat.le_of_succ_le h.needed, h.buf, h.plain⟩

theorem apart_start (h : Mapped g a) : NeededApart g a 0 := by
  intro m n r r' hne hm hn hkey
  have hinput : ∀ {n r}, Needed g a 0 n r →
      g.InputNode n ∧ (n, r.key) ∈ a.handed := by
    intro n r hn
    obtain ⟨node, hnode, hin⟩ := hn.present.resolve_left (Nat.not_lt_zero n)
    refine ⟨⟨node, hnode, hin⟩, ?_⟩
    cases h.laid n node hnode with
    | input pid _ buf handed =>
        rw [hn.buf] at buf
        cases buf
        exact handed
    | view _ _ computed _ _ _ _ _ => rw [hin] at computed; cases computed
    | region _ computed _ _ _ _ _ => rw [hin] at computed; cases computed
    | own _ computed _ _ _ _ _ => rw [hin] at computed; cases computed
    | inPlace _ _ computed _ _ _ _ _ => rw [hin] at computed; cases computed
    | dead computed _ _ _ _ => rw [hin] at computed; cases computed
  obtain ⟨hin, hhanded⟩ := hinput hm
  exact absurd (h.inputsOnce hhanded hin (hkey ▸ (hinput hn).2)).symm hne

/-- Windows of one node that do not meet are disjoint. -/
theorem disjoint_of_windows (h : Mapped g a) (hx : g.Executable)
    {root : NodeId} {off off' : Nat} {mnode nnode : CNode}
    (hm : g.Window m root off) (hn : g.Window n root off')
    (hmnode : g.nodes[m]? = some mnode) (hnnode : g.nodes[n]? = some nnode)
    (hmop : mnode.op.onRegion = false) (hnop : nnode.op.onRegion = false)
    (hr : a.nodeToBuf.lookup m = some r) (hr' : a.nodeToBuf.lookup n = some r')
    (hapart : ¬(off < off' + nnode.nElements ∧ off' < off + mnode.nElements)) :
    r.Disjoint r' := by
  obtain ⟨rr, hrr, -, hoff⟩ := h.window_of hm hr
  obtain ⟨rr', hrr', -, hoff'⟩ := h.window_of hn hr'
  rw [hrr] at hrr'
  cases hrr'
  have hlen := h.length_of hx hmnode hmop hr
  have hlen' := h.length_of hx hnnode hnop hr'
  rw [BufRef.Disjoint, hoff, hoff', hlen, hlen']
  omega

/-- The node that step `i` places is apart from those it found. -/
theorem NeededApart.new (h : Mapped g a) (hx : g.Executable)
    (hapart : NeededApart g a i) {node : CNode}
    (hnode : g.nodes[i]? = some node) (hcomputed : node.isInput = false)
    (hi : Needed g a (i + 1) i r) (hm : Needed g a (i + 1) m r')
    (hbefore : m < i ∨ g.InputNode m) (hkey : r.key = r'.key) :
    Related g i m ∨ r.Disjoint r' := by
  have hne : m ≠ i := by
    rintro rfl
    rcases hbefore with hlt | hin
    · exact Nat.lt_irrefl _ hlt
    · exact ComputeGraph.not_inputNode hnode hcomputed hin
  have hearlier := hm.earlier hbefore
  -- what the node reads is needed until here
  have hsource : ∀ {s rs}, s ∈ node.src → a.nodeToBuf.lookup s = some rs →
      g.Plain s → Needed g a i s rs := by
    intro s rs hs hrs hplain
    have hlt : s < i := hx.order.sources i node hnode s hs
    exact ⟨.inl hlt,
      ComputeGraph.le_need hnode hs
        (Nat.lt_trans hlt (List.getElem?_eq_some_iff.1 hnode).1), hrs, hplain⟩
  obtain ⟨mnode, hmnode⟩ := h.node_of hm.buf
  cases h.laid i node hnode with
  | input _ input _ _ => rw [hcomputed] at input; cases input
  | @view v rp _ view parent buf fits _ =>
      rw [hi.buf] at buf
      cases buf
      obtain ⟨pnode, hpnode⟩ := h.node_of parent
      have hpop := hx.parents node (List.mem_of_getElem? hnode) v view pnode hpnode
      have hneeded :=
          hsource (hx.order.views i node v hnode view) parent fun snode
          hsnode => by
        rw [hpnode] at hsnode
        cases hsnode
        exact hpop
      by_cases heq : m = v.src
      · subst heq
        exact .inl ⟨v.src, _, 0, .view hnode hcomputed view (.self _), .self _⟩
      · rcases hapart v.src m rp r' (Ne.symm heq) hneeded hearlier hkey
          with ⟨root, off, off', hw, hw'⟩ | hdis
        · exact .inl ⟨root, _, off', .view hnode hcomputed view hw, hw'⟩
        · right
          have hlen := h.length_of hx hpnode hpop parent
          have hfits := fits pnode hpnode
          rw [BufRef.Disjoint] at hdis ⊢
          dsimp only [BufRef.window]
          omega
  | region _ _ _ op _ _ _ =>
      have hplain := hi.plain node hnode
      rw [op] at hplain
      cases hplain
  | @own pid _ _ _ _ buf handed =>
      rw [hi.buf] at buf
      cases buf
      have hdone :=
        h.recycled handed (ComputeGraph.not_inputNode hnode hcomputed) hm.buf
        hkey.symm hne hbefore
      exact absurd hm.needed (Nat.not_le_of_lt (Nat.lt_succ_of_lt hdone))
  | @inPlace p rp _ _ source parent buf _ =>
      rw [hi.buf] at buf
      cases buf
      obtain ⟨pnode, hpnode⟩ := h.node_of parent
      obtain ⟨hpop, -, hquiet⟩ := hx.inPlace i node p pnode hnode source hpnode
      have hmop := hm.plain mnode hmnode
      have hrelated : Related g p m → r.Disjoint r' := by
        rintro ⟨root, off, off', hw, hw'⟩
        refine disjoint_of_windows h hx hw hw' hpnode hmnode hpop hmop parent
          hm.buf fun ⟨hlo, hhi⟩ => ?_
        exact absurd
          (Nat.le_trans hm.needed
            (hquiet m mnode root off off' hmnode hw hw' hlo hhi))
          (Nat.not_succ_le_self i)
      right
      by_cases heq : m = p
      · subst heq
        exact hrelated ⟨m, 0, 0, .self m, .self m⟩
      · have hneeded :=
            hsource (List.mem_of_mem_head? source.head) parent fun snode
            hsnode => by
          rw [hpnode] at hsnode
          cases hsnode
          exact hpop
        exact (hapart p m r r' (Ne.symm heq) hneeded hearlier hkey).elim hrelated id
  | dead _ _ _ _ buf => rw [hi.buf] at buf; cases buf

theorem NeededApart.succ (h : Mapped g a) (hx : g.Executable)
    (hapart : NeededApart g a i) : NeededApart g a (i + 1) := by
  intro m n r r' hne hm hn hkey
  have hcases : ∀ {n r}, Needed g a (i + 1) n r →
      (n < i ∨ g.InputNode n) ∨ n = i ∧ ∃ node, g.nodes[i]? = some node
          ∧ node.isInput = false := by
    intro n r hn
    by_cases hin : g.InputNode n
    · exact .inl (.inr hin)
    · by_cases heq : n = i
      · subst heq
        obtain ⟨node, hnode⟩ := h.node_of hn.buf
        refine .inr ⟨rfl, node, hnode, ?_⟩
        cases hinput : node.isInput with
        | false => rfl
        | true => exact absurd ⟨node, hnode, hinput⟩ hin
      · have hlt := hn.present.resolve_right hin
        exact .inl (.inl (Nat.lt_of_le_of_ne (Nat.le_of_lt_succ hlt) heq))
  rcases hcases hm with hold | ⟨rfl, node, hnode, hcomputed⟩
  · rcases hcases hn with hold' | ⟨rfl, node, hnode, hcomputed⟩
    · exact hapart m n r r' hne (hm.earlier hold) (hn.earlier hold') hkey
    · exact (NeededApart.new h hx hapart hnode hcomputed hn hm hold
        hkey.symm).imp .symm .symm
  · rcases hcases hn with hold' | ⟨rfl, -⟩
    · exact NeededApart.new h hx hapart hnode hcomputed hm hn hold' hkey
    · exact absurd rfl hne

theorem apart_all (h : Mapped g a) (hx : g.Executable) (i : Nat) :
    NeededApart g a i := by
  induction i with
  | zero => exact apart_start h
  | succ i ih => exact ih.succ h hx

/-- What a computed node writes is no element that a later step needs. -/
theorem Mapped.write_apart (h : Mapped g a) (hx : g.Executable)
    {node : CNode} (hnode : g.nodes[n]? = some node)
    (hcomputed : node.isInput = false) (hview : node.view = none)
    (hop : node.op.onRegion = false) (hr : a.nodeToBuf.lookup n = some r)
    (hm : Needed g a (n + 1) m r') (hne : m ≠ n) :
    r'.key ≠ r.key ∨ r'.Disjoint r := by
  by_cases hkey : r'.key = r.key
  · right
    have hlive : n < g.need n := by
      cases h.laid n node hnode with
      | input _ input _ _ => rw [hcomputed] at input; cases input
      | view _ _ _ view _ _ _ _ => rw [hview] at view; cases view
      | region _ _ _ op _ _ _ => rw [hop] at op; cases op
      | own _ _ _ _ live _ _ => exact live
      | inPlace _ _ _ live _ _ _ _ => exact live
      | dead _ _ _ _ buf => rw [hr] at buf; cases buf
    have hn : Needed g a (n + 1) n r := by
      refine ⟨.inl (Nat.lt_succ_self n), hlive, hr, fun node' hnode' => ?_⟩
      rw [hnode] at hnode'
      cases hnode'
      exact hop
    rcases apart_all h hx (n + 1) m n r' r hne hm hn hkey
      with ⟨root, off, off', hw, hw'⟩ | hdis
    · -- the node is no window, so the other would be one of it, and later
      have hroot : root = n := by
        cases hw' with
        | self => rfl
        | view hnode' _ hview' _ =>
            rw [hnode] at hnode'
            cases hnode'
            rw [hview] at hview'
            cases hview'
      subst hroot
      rcases hw.le hx.order with ⟨heq, -⟩ | ⟨hlt, hcomp⟩
      · exact absurd heq hne
      · exact absurd (hm.present.resolve_right hcomp) (Nat.not_lt_of_le hlt)
    · exact hdis
  · exact .inl hkey

end
end Minfer.Graph
