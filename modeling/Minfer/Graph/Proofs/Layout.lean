/-
Where `alloc_graph` leaves every node.

A node that is computed is a window of its parent, stands in a KV region,
has a buffer of its own, is on its first source's, or has none because
nothing reads it (`LaidAt`). The walk places each node once and never moves
one, so what a step finds is what an execution finds; and what the step reads
of the liveness table about the node itself is still its `need`, since an
alias only extends earlier nodes.

The walk does not touch the staging buffers and takes no pool away
(`Aside`).
-/
import Minfer.Graph.Schedule
import Minfer.Graph.Proofs.Recycle

namespace Minfer.Graph

open GraphAllocator

-- =============================== aside

namespace GraphAllocator

/-- The staging tables are as they were, and every pool is still there. -/
structure Aside (a a' : GraphAllocator) : Prop where
  cross : a'.cross = a.cross
  pending : a'.crossPending = a.crossPending
  pools : ∀ b, (a.pools.lookup b).isSome → (a'.pools.lookup b).isSome

section

variable {a a' a'' : GraphAllocator} {env : AllocEnv} {b : Backend} {key : BufKey}

theorem Aside.rfl : Aside a a := ⟨.refl _, .refl _, fun _ => id⟩

theorem Aside.trans (h : Aside a a') (h' : Aside a' a'') : Aside a a'' :=
  ⟨h'.cross.trans h.cross, h'.pending.trans h.pending,
    fun b hb => h'.pools b (h.pools b hb)⟩

theorem isSome_insert {α β : Type} [DecidableEq α] {t : Table α β} {k x : α}
    {v : β} (h : (t.lookup x).isSome) :
    ((t.insert k v).lookup x).isSome := by
  rw [lookup_insert_eq]
  split
  · rfl
  · exact h

/-- Returning a buffer to its pool leaves the staging tables. -/
theorem freeInPool_aside : Aside a (a.freeInPool key) := by
  rw [freeInPool]
  split
  · exact ⟨rfl, rfl, fun _ => id⟩
  · split
    · exact ⟨rfl, rfl, fun _ => isSome_insert⟩
    · exact .rfl

/-- So does a loop of such steps. -/
theorem foldl_aside {α : Type} {f : GraphAllocator → α → GraphAllocator}
    (hf : ∀ a x, Aside a (f a x)) (xs : List α) :
    Aside a (xs.foldl f a) := by
  induction xs generalizing a with
  | nil => exact .rfl
  | cons x rest ih => exact (hf a x).trans ih

/-- Returning the buffers that are due leaves them. -/
theorem sweep_aside (i : Nat) : Aside a (a.sweep i) := by
  refine foldl_aside (fun a key => ?_) _
  have h : Aside { a with bufAlive := a.bufAlive.erase key }
      (({ a with bufAlive := a.bufAlive.erase key } :
        GraphAllocator).freeInPool key) := freeInPool_aside
  exact ⟨h.cross, h.pending, h.pools⟩

/-- Moving deadlines back leaves them. -/
theorem extendBufferAlive_aside {grown : List NodeId} {upto : Nat} :
    Aside a (a.extendBufferAlive grown upto) := by
  refine foldl_aside (fun a n => ?_) _
  rw [extendOne]
  split
  · exact .rfl
  · split
    · exact .rfl
    · exact ⟨rfl, rfl, fun _ => id⟩

/-- Work inside one pool leaves them, and drops no pool. -/
theorem inPool_aside {f : Pool → Nat × Pool} : Aside a (a.inPool env b f).2 := by
  rw [inPool]
  split
  · exact ⟨rfl, rfl, fun _ => isSome_insert⟩
  · exact .rfl

theorem allocClassInPool_aside {size : Nat} : Aside a
    (a.allocClassInPool env b size).2 := by
  rw [allocClassInPool]
  split
  · exact ⟨rfl, rfl, fun _ => id⟩
  · exact inPool_aside

theorem allocInPool_aside {size : Nat} : Aside a (a.allocInPool env b size).2 := by
  have hallocated : ∀ want, Aside a (allocInPool.allocated env size a b want).2 := by
    intro want
    have hcls : Aside a (a.allocClassInPool env b size).2 := allocClassInPool_aside
    rw [allocInPool.allocated]
    split
    next e a₁ hgot =>
      rw [hgot] at hcls
      exact hcls
    next id a₁ hgot =>
      rw [hgot] at hcls
      dsimp only
      split
      · exact ⟨hcls.cross, hcls.pending, hcls.pools⟩
      · exact ⟨hcls.cross, hcls.pending, hcls.pools⟩
  rw [allocInPool]
  split
  · exact .rfl
  · dsimp only
    split
    · split
      · exact .rfl
      · exact hallocated _
    · exact hallocated _

/-- Handing a node its buffer leaves them. -/
theorem handBuffer_aside {node : CNode} {n : NodeId} {deadline : Nat} :
    Aside a (a.handBuffer env node n deadline).2 := by
  have hpool : Aside a (a.allocInPool env node.home node.nElements).2 :=
    allocInPool_aside
  rw [handBuffer]
  split
  next e a₁ hgot =>
    rw [hgot] at hpool
    exact hpool
  next pid a₁ hgot =>
    rw [hgot] at hpool
    exact ⟨hpool.cross, hpool.pending, hpool.pools⟩

/-- Placing the inputs leaves them. -/
theorem placeInputs_aside {lastUse : List Nat} {nodes : List CNode} :
    Aside a (a.placeInputs env lastUse nodes).2 := by
  induction nodes generalizing a with
  | nil => exact .rfl
  | cons node rest ih =>
      rw [placeInputs]
      split
      · have hone :
          Aside a (a.handBuffer env node node.id
            ((lastUse[node.id]?).getD 0)).2 := handBuffer_aside
        split
        next e a₁ hgot =>
          rw [hgot] at hone
          exact hone
        next a₁ hgot =>
          rw [hgot] at hone
          exact hone.trans ih
      · exact ih

/-- Making a persistent slot leaves them. -/
theorem allocPersistent_aside {name : String} {size : Nat} :
    Aside a (a.allocPersistent env name b size).2 := by
  have hpool : Aside a (a.allocExactInPool env b size).2 := inPool_aside
  rw [allocPersistent]
  split
  next e a₁ hgot =>
    rw [hgot] at hpool
    exact hpool
  next id a₁ hgot =>
    rw [hgot] at hpool
    exact ⟨hpool.cross, hpool.pending, hpool.pools⟩

/-- Making a layer's regions leaves them. -/
theorem ensureKv_aside {layer nEmbd rowElems nCtx : Nat} :
    Aside a (a.ensureKv env layer b nEmbd rowElems nCtx).2 := by
  rw [ensureKv]
  dsimp only
  split
  · exact .rfl
  split
  · split
    · exact .rfl
    · exact .rfl
  have hk : Aside a
    (a.allocPersistent env s!"kv.{layer}.k" b (rowElems * nCtx)).2 :=
    allocPersistent_aside
  split
  next e a₁ hgot =>
    rw [hgot] at hk
    exact hk
  next k a₁ hgot =>
    rw [hgot] at hk
    have hv : Aside a₁
      (a₁.allocPersistent env s!"kv.{layer}.v" b (rowElems * nCtx)).2 :=
      allocPersistent_aside
    split
    next e a₂ hgot' =>
      rw [hgot'] at hv
      exact hk.trans hv
    next v a₂ hgot' =>
      rw [hgot'] at hv
      have hboth := hk.trans hv
      exact ⟨hboth.cross, hboth.pending, hboth.pools⟩

end
end GraphAllocator

namespace Walk

variable {env : AllocEnv} {g : ComputeGraph} {w : Walk} {node : CNode} {n : NodeId}

/-- A step's outcome leaves the staging tables. -/
def Beside (w : Walk) (r : Except AllocExit Unit × Walk) : Prop :=
  w.alloc.Aside r.2.alloc

/-- A node of its own buffer leaves the staging tables. -/
theorem ownBuffer_beside : w.Beside (w.ownBuffer env node n) := by
  rw [ownBuffer]
  dsimp only
  split
  · exact handBuffer_aside
  · exact .rfl

/-- So does a node that shares its source's buffer. -/
theorem share_aside {src : NodeId} {ref : BufRef} : w.alloc.Aside
    (w.share g n src ref).alloc := by
  have h :
      GraphAllocator.Aside
      { w.alloc with nodeToBuf := w.alloc.nodeToBuf.insert n ref }
      (w.share g n src ref).alloc := extendBufferAlive_aside
  exact ⟨h.cross, h.pending, h.pools⟩

theorem placeInPlace_beside : w.Beside (w.placeInPlace env g node n) := by
  rw [placeInPlace]
  split
  · split
    · exact .rfl
    · split
      · exact .rfl
      · dsimp only
        split
        · split
          · exact share_aside
          · exact ownBuffer_beside
        · split
          · exact share_aside
          · exact ownBuffer_beside
  · exact .rfl

/-- The regions first, then the rest of the step. -/
theorem regions_beside {layer nEmbd rowElems nCtx : Nat}
    (rest : BufRef × BufRef → Walk → Except AllocExit Unit × Walk)
    (hrest : ∀ pair (w : Walk), w.Beside (rest pair w)) :
    w.Beside (match w.regions env node layer nEmbd rowElems nCtx with
      | (.error e, w) => (.error e, w)
      | (.ok pair, w) => rest pair w) := by
  have hone : w.alloc.Aside
    (w.regions env node layer nEmbd rowElems nCtx).2.alloc := ensureKv_aside
  split
  next e w₁ hgot =>
    rw [hgot] at hone
    exact hone
  next pair w₁ hgot =>
    rw [hgot] at hone
    exact hone.trans (hrest pair w₁)

theorem placeKv_beside {layer : Nat} : w.Beside (w.placeKv env node n layer) := by
  rw [placeKv]
  split
  exact regions_beside (fun pair w => (.ok (), { w with alloc :=
    { w.alloc with nodeToBuf := w.alloc.nodeToBuf.insert n pair.1 } })) fun _
      _ => ⟨rfl, rfl, fun _ => id⟩

theorem placeFused_beside {layer : Nat} {widths : Option (Nat × Nat × Nat)} :
    w.Beside (w.placeFused env node n layer widths) := by
  rw [placeFused]
  exact regions_beside (fun _ w => w.ownBuffer env node n) fun _ _ => ownBuffer_beside

theorem placeView_beside {v : ViewAlias} : w.Beside (w.placeView g node n v) := by
  rw [placeView]
  split
  · exact .rfl
  · dsimp only
    split
    · exact .rfl
    split
    · exact .rfl
    split
    · exact .rfl
    · exact share_aside

/-- Placing a node leaves the staging tables. -/
theorem place_beside : w.Beside (place env w g node n) := by
  rw [place]
  split
  · exact .rfl
  split
  · exact placeView_beside
  split
  · exact placeKv_beside
  · exact placeKv_beside
  · exact placeFused_beside
  · exact placeFused_beside
  · exact regions_beside (fun _ w => w.placeInPlace env g node n) fun _ _ =>
      placeInPlace_beside
  · exact placeInPlace_beside
  · exact placeInPlace_beside
  · exact placeInPlace_beside
  · exact ownBuffer_beside

/-- So does the walk. -/
theorem run_beside {nodes : List CNode} {i : Nat} : w.Beside
    (run env g nodes i w) := by
  induction nodes generalizing w i with
  | nil => exact .rfl
  | cons node rest ih =>
      have hswept : w.alloc.Aside (w.alloc.sweep i) := sweep_aside i
      have hone : ({ w with alloc := w.alloc.sweep i } : Walk).Beside
          (place env { w with alloc := w.alloc.sweep i } g node i) := place_beside
      rw [run]
      split
      next e w₁ hgot =>
        rw [hgot] at hone
        exact hswept.trans hone
      next w₁ hgot =>
        rw [hgot] at hone
        exact (hswept.trans hone).trans ih

end Walk

namespace GraphAllocator

variable {a : GraphAllocator} {env : AllocEnv} {g : ComputeGraph}

/-- Returning buffers leaves the staging tables. -/
theorem freeAll_aside {keys : List BufKey} : Aside a (a.freeAll keys) :=
  foldl_aside (fun _ _ => freeInPool_aside) _

/-- `alloc_graph` keeps the staging buffers, forgets what is in flight, and
takes no pool away. -/
theorem allocGraph_aside : (a.allocGraph env g).2.cross = a.cross
    ∧ (a.allocGraph env g).2.crossPending = [] ∧
    ∀ b, (a.pools.lookup b).isSome →
      ((a.allocGraph env g).2.pools.lookup b).isSome := by
  have hfreed : Aside a (a.freeAll a.bufAlive.keys) := freeAll_aside
  have hrestart : ∀ {a' : GraphAllocator}, Aside a.restart a' →
      a'.cross = a.cross ∧ a'.crossPending = [] ∧
      ∀ b, (a.pools.lookup b).isSome → (a'.pools.lookup b).isSome := fun h =>
    ⟨h.cross.trans hfreed.cross, h.pending, fun b hb => h.pools b (hfreed.pools b hb)⟩
  rw [allocGraph]
  dsimp only
  split
  · exact hrestart .rfl
  split
  · have hinputs :
      Aside a.restart (a.restart.placeInputs env g.lastUses g.nodes).2 :=
      placeInputs_aside
    split
    next e a₁ hgot =>
      rw [hgot] at hinputs
      exact hrestart hinputs
    next a₁ hgot =>
      rw [hgot] at hinputs
      have hrun : (⟨a₁, g.lastUses⟩ : Walk).Beside
        (Walk.run env g g.nodes 0 ⟨a₁, g.lastUses⟩) := Walk.run_beside
      exact hrestart (hinputs.trans hrun)
  · exact hrestart .rfl

end GraphAllocator

-- ====================== a node's place

/-- The operations that may write over their first source. -/
def Op.inPlace : Op → Bool
  | .silu | .rope | .swiGlu | .qkvBiasRopeStore _ => true
  | _ => false

namespace ComputeGraph

/-- The node is put on the buffer of its first source, which nothing else
reads; a SwiGLU's is a window. -/
structure InPlace (g : ComputeGraph) (node : CNode) (p : NodeId) : Prop where
  op : node.op.inPlace = true
  viewless : node.view = none
  head : node.src.head? = some p
  sole : g.nConsumers p = 1
  home : ∃ pnode, g.nodes[p]? = some pnode ∧ pnode.home = node.home
  gate : node.op = .swiGlu → ∃ pnode v, g.nodes[p]? = some pnode ∧ pnode.view = some v

end ComputeGraph

/-- Where a node is. -/
inductive LaidAt (g : ComputeGraph) (a : GraphAllocator) (n : NodeId)
    (node : CNode) : Prop where
  | input (pid : Nat) (input : node.isInput = true)
      (buf : a.nodeToBuf.lookup n = some (.own node.home pid node.nElements))
      (handed : (n, (node.home, pid)) ∈ a.handed)
  | view (v : ViewAlias) (r : BufRef) (computed : node.isInput = false)
      (view : node.view = some v)
      (parent : a.nodeToBuf.lookup v.src = some r)
        (buf : a.nodeToBuf.lookup n = some (r.window v.offset node.nElements))
      (fits : ∀ pnode, g.nodes[v.src]? = some pnode →
        v.offset + node.nElements ≤ pnode.nElements)
      (home : r.backend = node.home)
  | region (r : BufRef) (computed : node.isInput = false)
      (viewless : node.view = none) (op : node.op.onRegion = true)
      (buf : a.nodeToBuf.lookup n = some r) (home : r.backend = node.home)
        (pinned : a.Holds r.key .pinned)
  | own (pid : Nat) (computed : node.isInput = false)
      (viewless : node.view = none) (op : node.op.onRegion = false)
      (live : n < g.need n)
        (buf : a.nodeToBuf.lookup n = some (.own node.home pid node.nElements))
      (handed : (n, (node.home, pid)) ∈ a.handed)
  | inPlace (p : NodeId) (r : BufRef) (computed : node.isInput = false)
      (live : n < g.need n)
      (source : g.InPlace node p) (parent : a.nodeToBuf.lookup p = some r)
        (buf : a.nodeToBuf.lookup n = some r)
      (home : r.backend = node.home)
  | dead (computed : node.isInput = false) (viewless : node.view = none)
      (op : node.op.onRegion = false)
      (unread : g.need n ≤ n) (buf : a.nodeToBuf.lookup n = none)

namespace LaidAt

variable {g : ComputeGraph} {a a' : GraphAllocator} {n : NodeId} {node : CNode}

/-- A node is on the backend it is assigned to. -/
theorem at_home (h : LaidAt g a n node) {r : BufRef}
    (hr : a.nodeToBuf.lookup n = some r) : r.backend = node.home := by
  cases h with
  | input pid _ buf _ => rw [buf] at hr; cases hr; rfl
  | view v rp _ _ _ buf _ home => rw [buf] at hr; cases hr; exact home
  | region r' _ _ _ buf home _ => rw [buf] at hr; cases hr; exact home
  | own pid _ _ _ _ buf _ => rw [buf] at hr; cases hr; rfl
  | inPlace p r' _ _ _ _ buf home => rw [buf] at hr; cases hr; exact home
  | dead _ _ _ _ buf => rw [buf] at hr; cases hr

/-- What a node's place depends on: its own entry, and those before it. -/
theorem mono (h : LaidAt g a n node) (hg : g.BuildOrder)
    (hnode : g.nodes[n]? = some node)
    (hself : a'.nodeToBuf.lookup n = a.nodeToBuf.lookup n)
    (hbefore : node.isInput = false →
      ∀ m < n, a'.nodeToBuf.lookup m = a.nodeToBuf.lookup m)
    (hhanded : ∀ e ∈ a.handed, e ∈ a'.handed)
    (hpinned : ∀ {key}, a.Holds key .pinned → a'.Holds key .pinned) :
    LaidAt g a' n node := by
  cases h with
  | input pid input buf handed =>
      exact .input pid input (hself.trans buf) (hhanded _ handed)
  | view v r computed view parent buf fits home =>
      have hlt : v.src < n :=
        hg.sources n node hnode v.src (hg.views n node v hnode view)
      exact .view v r computed view ((hbefore computed _ hlt).trans parent)
        (hself.trans buf) fits home
  | region r computed viewless op buf home pinned =>
      exact .region r computed viewless op (hself.trans buf) home (hpinned pinned)
  | own pid computed viewless op live buf handed =>
      exact .own pid computed viewless op live (hself.trans buf) (hhanded _ handed)
  | inPlace p r computed live source parent buf home =>
      have hlt : p < n :=
        hg.sources n node hnode p (List.mem_of_mem_head? source.head)
      exact .inPlace p r computed live source
        ((hbefore computed _ hlt).trans parent) (hself.trans buf) home
  | dead computed viewless op unread buf =>
      exact .dead computed viewless op unread (hself.trans buf)

end LaidAt

-- ============================ one step

namespace ComputeGraph

/-- An extension stays at its node and before. -/
theorem extendThroughViews_le {g : ComputeGraph} (hg : g.BuildOrder)
    {upto fuel : Nat} {lastUse : List Nat}
    {cur m : NodeId} (hlt : cur < m) : due
    (g.extendThroughViews upto fuel lastUse cur).1 m = due lastUse m := by
  have hset : ∀ {cur : NodeId} (table : List Nat), cur < m →
      due (table.set cur upto) m = due table m := by
    intro cur table hlt
    rw [due_set, if_neg fun h => Nat.ne_of_gt hlt h.1]
  induction fuel generalizing lastUse cur with
  | zero => rfl
  | succ fuel ih =>
      rw [extendThroughViews]
      split
      · rfl
      · split
        · rfl
        · cases hview : (g.nodes[cur]?).bind (·.view) with
          | none => exact hset lastUse hlt
          | some v =>
              obtain ⟨node, hnode, hv⟩ := Option.bind_eq_some_iff.1 hview
              have hsrc : v.src < cur :=
                hg.sources cur node hnode v.src (hg.views cur node v hnode hv)
              exact (ih (Nat.lt_trans hsrc hlt)).trans (hset lastUse hlt)

end ComputeGraph

/-- A node that was handed a buffer lies in it. -/
theorem GraphAllocator.handBuffer_laid {a a' : GraphAllocator} {env : AllocEnv}
    {node : CNode} {n : NodeId} {deadline : Nat} (h : a.Sound)
    (hok : a.handBuffer env node n deadline = (.ok (), a')) :
    ∃ pid, a'.nodeToBuf = a.nodeToBuf.insert n (.own node.home pid node.nElements) ∧
      a'.handed = a.handed ++ [(n, (node.home, pid))]
        ∧ a'.persistent = a.persistent := by
  rw [handBuffer] at hok
  split at hok
  · cases hok
  next pid a₁ hgot =>
    cases hok
    rcases allocInPool_spec h.custody hgot with ⟨e, he, -⟩ | ⟨id, hid, htook, -, -⟩
    · cases he
    · cases hid
      exact ⟨pid, by rw [htook.nodeToBuf], by rw [htook.handed], htook.persistent⟩

/-- A layer's regions are on the backend that was asked for. -/
theorem GraphAllocator.ensureKv_backend {a a' : GraphAllocator}
    {env : AllocEnv} {layer nEmbd rowElems nCtx : Nat}
    {b : Backend} {pair : BufRef × BufRef}
    (hok : a.ensureKv env layer b nEmbd rowElems nCtx = (.ok pair, a')) :
    pair.1.backend = b := by
  have hfresh : ∀ {a a' : GraphAllocator} {name : String} {size : Nat} {r : BufRef},
      a.allocPersistent env name b size = (.ok r, a') → r.backend = b := by
    intro a a' name size r hgot
    rw [allocPersistent] at hgot
    split at hgot
    · cases hgot
    · cases hgot
      rfl
  rw [ensureKv] at hok
  dsimp only at hok
  split at hok
  · cases hok
  split at hok
  next region hregion =>
    split at hok
    · cases hok
    next hcheck =>
      cases hok
      rw [checkRegion] at hcheck
      split at hcheck
      · cases hcheck
      split at hcheck
      · cases hcheck
      next heq => exact not_not.1 heq
  split at hok
  · cases hok
  next k a₁ hk =>
    split at hok
    · cases hok
    · cases hok
      exact hfresh hk

namespace Walk

/-- What a step leaves: one entry more at most, and the node in its place. -/
structure Laid (g : ComputeGraph) (w : Walk) (node : CNode) (n : NodeId)
    (w' : Walk) : Prop where
  others : ∀ m, m ≠ n → w'.alloc.nodeToBuf.lookup m = w.alloc.nodeToBuf.lookup m
  handed : ∀ e ∈ w.alloc.handed, e ∈ w'.alloc.handed
  pinned : ∀ {key}, w.alloc.Holds key .pinned → w'.alloc.Holds key .pinned
  later : ∀ m, n < m → due w'.lastUse m = due w.lastUse m
  laid : LaidAt g w'.alloc n node

section

variable {env : AllocEnv} {g : ComputeGraph} {w w' : Walk} {node : CNode} {n : NodeId}

/-- Regions that were added before count to the step. -/
theorem Laid.after {w₁ : Walk} (hkeeps : Keeps w.alloc w₁.alloc)
    (hlast : w₁.lastUse = w.lastUse)
    (h : Laid g w₁ node n w') : Laid g w node n w' where
  others m hm := (h.others m hm).trans (by rw [hkeeps.nodeToBuf])
  handed e he := h.handed e (hkeeps.handed ▸ he)
  pinned hp := h.pinned (hkeeps.pinned hp)
  later m hm := (h.later m hm).trans (by rw [hlast])
  laid := h.laid

/-- The regions of a KV node are pinned and at the node's home. -/
theorem regions_spec {layer nEmbd rowElems nCtx : Nat} {pair : BufRef × BufRef}
    (h : w.alloc.Sound)
    (hok : w.regions env node layer nEmbd rowElems nCtx = (.ok pair, w')) :
    w'.alloc.Sound ∧ Keeps w.alloc w'.alloc ∧ w'.lastUse = w.lastUse
      ∧ w'.alloc.Holds pair.1.key .pinned ∧
      pair.1.backend = node.home := by
  rw [regions] at hok
  cases hgot : w.alloc.ensureKv env layer node.home nEmbd rowElems nCtx with
  | mk out a =>
      rw [hgot] at hok
      cases hok
      obtain ⟨hsound, hkeeps, hpin⟩ := ensureKv_spec h hgot
      exact ⟨hsound, hkeeps, rfl, hpin pair rfl, ensureKv_backend hgot⟩

/-- A node that shares its source's buffer lies where the source does. -/
theorem share_laid {src : NodeId} {ref : BufRef} (hg : g.BuildOrder)
    (hsrc : src < n) (hlaid : ∀ a : GraphAllocator,
      (∀ m, m ≠ n → a.nodeToBuf.lookup m = w.alloc.nodeToBuf.lookup m) →
      a.nodeToBuf.lookup n = some ref → LaidAt g a n node) :
        Laid g w node n (w.share g n src ref) := by
  have hext :
      Extended { w.alloc with nodeToBuf := w.alloc.nodeToBuf.insert n ref }
      (w.share g n src ref).alloc
      (g.extendThroughViews ((w.lastUse[n]?).getD 0)
          (g.nNodes + 1) w.lastUse src).2 ((w.lastUse[n]?).getD 0) :=
    extendBufferAlive_spec
  have hbufs : (w.share g n src ref).alloc.nodeToBuf
    = w.alloc.nodeToBuf.insert n ref := by rw [hext.same]
  have hhanded : (w.share g n src ref).alloc.handed = w.alloc.handed := by
    rw [hext.same]
  have hpersistent : (w.share g n src ref).alloc.persistent
    = w.alloc.persistent := by rw [hext.same]
  have hothers : ∀ m, m ≠ n →
      (w.share g n src ref).alloc.nodeToBuf.lookup m
      = w.alloc.nodeToBuf.lookup m := by
    intro m hm
    rw [hbufs]
    exact AList.lookup_insert_ne hm
  refine ⟨hothers, fun e he => ?_, fun {key} hp => ?_, fun m hm => ?_,
    hlaid _ hothers ?_⟩
  · exact hhanded ▸ he
  · obtain ⟨p, hp, hkey⟩ := hp
    exact ⟨p, hpersistent ▸ hp, hkey⟩
  · have hlast : (w.share g n src ref).lastUse =
        (g.extendThroughViews ((w.lastUse[n]?).getD 0)
          (g.nNodes + 1) w.lastUse src).1 := rfl
    rw [hlast]
    exact ComputeGraph.extendThroughViews_le hg (Nat.lt_trans hsrc hm)
  · rw [hbufs]
    exact AList.lookup_insert _

/-- A node with a buffer of its own lies in it. -/
theorem ownBuffer_laid (h : w.alloc.Sound) (hdue : due w.lastUse n = g.need n)
    (hfresh : w.alloc.nodeToBuf.lookup n = none)
    (hinput : node.isInput = false) (hview : node.view = none)
    (hop : node.op.onRegion = false)
    (hok : w.ownBuffer env node n = (.ok (), w')) : Laid g w node n w' := by
  rw [ownBuffer] at hok
  dsimp only at hok
  split at hok
  next hlive =>
    cases hgot : w.alloc.handBuffer env node n ((w.lastUse[n]?).getD 0) with
    | mk out a =>
        rw [hgot] at hok
        cases hok
        obtain ⟨pid, hbufs, hhanded, hpersistent⟩ := handBuffer_laid h hgot
        refine ⟨fun m hm => ?_, fun e he => ?_, fun {key} hp => ?_,
          fun _ _ => rfl, .own pid hinput hview hop ?_ ?_ ?_⟩
        · rw [hbufs]
          exact AList.lookup_insert_ne hm
        · exact hhanded ▸ List.mem_append_left _ he
        · obtain ⟨p, hp, hkey⟩ := hp
          exact ⟨p, hpersistent ▸ hp, hkey⟩
        · exact hdue ▸ hlive
        · rw [hbufs]
          exact AList.lookup_insert _
        · exact hhanded ▸ List.mem_append_right _ List.mem_cons_self
  next hdead =>
    cases hok
    refine ⟨fun _ _ => rfl, fun _ => id, id, fun _ _ => rfl,
      .dead hinput hview hop ?_ hfresh⟩
    exact hdue ▸ Nat.le_of_not_lt hdead

/-- An in-place node lies in its source's buffer, or in its own. -/
theorem placeInPlace_laid (hg : g.BuildOrder) (hnode : g.nodes[n]? = some node)
    (h : w.alloc.Sound) (hdue : due w.lastUse n = g.need n)
    (hfresh : w.alloc.nodeToBuf.lookup n = none)
    (hbefore : ∀ m < n, ∀ mnode, g.nodes[m]? = some mnode →
      LaidAt g w.alloc m mnode) (hinput : node.isInput = false)
    (hview : node.view = none) (hop : node.op.inPlace = true)
    (hok : w.placeInPlace env g node n = (.ok (), w')) :
    Laid g w node n w' := by
  have hregion : node.op.onRegion = false := by
    cases hnop : node.op with
    | kvcacheStore layer => rw [hnop] at hop; cases hop
    | kvcacheLoad layer => rw [hnop] at hop; cases hop
    | _ => rfl
  rw [placeInPlace] at hok
  split at hok
  next hlive =>
    cases hhead : node.src.head? with
    | none => rw [hhead] at hok; cases hok
    | some p =>
        have hmem : p ∈ node.src := List.mem_of_mem_head? hhead
        have hlt : p < n := hg.sources n node hnode p hmem
        obtain ⟨pnode, hpnode⟩ : ∃ pnode, g.nodes[p]? = some pnode :=
          ⟨_, List.getElem?_eq_getElem
            (Nat.lt_trans hlt (List.getElem?_eq_some_iff.1 hnode).1)⟩
        rw [hhead] at hok
        dsimp only at hok
        cases hr : w.alloc.nodeToBuf.lookup p with
        | none => rw [hr] at hok; cases hok
        | some r =>
            rw [hr] at hok
            dsimp only at hok
            -- the source is on the node's backend and nothing else reads it
            have hshare :
                (node.op = .swiGlu → ((g.nodes[p]?).bind (·.view)).isSome) →
                r.backend = node.home →
                g.nConsumers p = 1 → Laid g w node n (w.share g n p r) := by
              intro hgate hhome hsole
              have hsource : g.InPlace node p := by
                refine ⟨hop, hview, hhead, hsole, ⟨pnode, hpnode, ?_⟩, fun hswi => ?_⟩
                · exact ((hbefore p hlt pnode hpnode).at_home hr).symm.trans hhome
                · obtain ⟨v, hv⟩ := Option.isSome_iff_exists.1 (hgate hswi)
                  obtain ⟨pnode', hpnode', hview'⟩ := Option.bind_eq_some_iff.1 hv
                  exact ⟨pnode', v, hpnode', hview'⟩
              refine share_laid hg hlt fun a hothers hself => ?_
              exact .inPlace p r hinput (hdue ▸ hlive) hsource
                ((hothers p (Nat.ne_of_lt hlt)).trans hr) hself hhome
            have hown : ∀ {w'}, w.ownBuffer env node n = (.ok (), w') →
                Laid g w node n w' := fun hgot =>
              ownBuffer_laid h hdue hfresh hinput hview hregion hgot
            split at hok
            next hswi =>
              split at hok
              next hcond =>
                cases hok
                exact hshare (fun _ => hcond.1) hcond.2.1 hcond.2.2
              next => exact hown hok
            next hswi =>
              split at hok
              next hcond =>
                cases hok
                exact hshare (fun heq => absurd heq hswi) hcond.2.1 hcond.2.2
              next => exact hown hok
  next hdead =>
    cases hok
    refine ⟨fun _ _ => rfl, fun _ => id, id, fun _ _ => rfl,
      .dead hinput hview hregion ?_ hfresh⟩
    exact hdue ▸ Nat.le_of_not_lt hdead

/-- A node that writes a layer's region lies in the region. -/
theorem placeKv_laid {layer : Nat} (h : w.alloc.Sound)
    (hinput : node.isInput = false) (hview : node.view = none)
    (hop : node.op.onRegion = true)
    (hok : w.placeKv env node n layer = (.ok (), w')) :
    Laid g w node n w' := by
  rw [placeKv] at hok
  split at hok
  next nEmbd rowElems _ =>
    split at hok
    · cases hok
    next pair w₁ hgot =>
      cases hok
      obtain ⟨-, hkeeps, hlast, hpin, hhome⟩ := regions_spec h hgot
      refine .after hkeeps hlast
        ⟨fun m hm => AList.lookup_insert_ne hm, fun _ => id, id,
          fun _ _ => rfl, ?_⟩
      exact .region pair.1 hinput hview hop (AList.lookup_insert _) hhome hpin

/-- A fused attention node has its own buffer and the layer's regions. -/
theorem placeFused_laid {layer : Nat} {widths : Option (Nat × Nat × Nat)}
    (h : w.alloc.Sound) (hdue : due w.lastUse n = g.need n)
    (hfresh : w.alloc.nodeToBuf.lookup n = none)
    (hinput : node.isInput = false) (hview : node.view = none)
    (hop : node.op.onRegion = false)
    (hok : w.placeFused env node n layer widths = (.ok (), w')) :
    Laid g w node n w' := by
  rw [placeFused] at hok
  dsimp only at hok
  split at hok
  · cases hok
  next pair w₁ hgot =>
    obtain ⟨hsound, hkeeps, hlast, -, -⟩ := regions_spec h hgot
    refine .after hkeeps hlast (ownBuffer_laid hsound ?_ ?_ hinput hview hop hok)
    · rw [hlast, hdue]
    · rw [hkeeps.nodeToBuf, hfresh]

/-- A view lies in its source's buffer. -/
theorem placeView_laid {v : ViewAlias} (hg : g.BuildOrder)
    (hnode : g.nodes[n]? = some node) (hinput : node.isInput = false)
    (hview : node.view = some v)
    (hok : w.placeView g node n v = (.ok (), w')) : Laid g w node n w' := by
  have hlt : v.src < n :=
    hg.sources n node hnode v.src (hg.views n node v hnode hview)
  rw [placeView] at hok
  split at hok
  · cases hok
  next parent hparent =>
    dsimp only at hok
    split at hok
    · cases hok
    next hhome =>
    split at hok
    · cases hok
    split at hok
    · cases hok
    next hfits =>
      cases hok
      refine share_laid hg hlt fun a hothers hself => ?_
      refine .view v parent hinput hview
        ((hothers _ (Nat.ne_of_lt hlt)).trans hparent) hself
        (fun pnode hpnode => ?_)
        (not_not.1 hhome)
      rw [hpnode] at hfits
      exact Nat.le_of_not_lt hfits

/-- One step of the walk puts the node in its place. -/
theorem place_laid (hg : g.BuildOrder) (hnode : g.nodes[n]? = some node)
    (h : w.alloc.Sound) (hdue : due w.lastUse n = g.need n)
    (hbefore : ∀ m < n, ∀ mnode, g.nodes[m]? = some mnode → LaidAt g w.alloc m mnode)
    (hinputs : node.isInput = true → LaidAt g w.alloc n node)
    (hfresh : node.isInput = false → w.alloc.nodeToBuf.lookup n = none)
    (hok : place env w g node n = (.ok (), w')) :
    Laid g w node n w' := by
  rw [place] at hok
  split at hok
  next hinput =>
    cases hok
    exact ⟨fun _ _ => rfl, fun _ => id, id, fun _ _ => rfl, hinputs hinput⟩
  next hinput =>
    rw [Bool.not_eq_true] at hinput
    split at hok
    next v hview => exact placeView_laid hg hnode hinput hview hok
    next hview =>
      have hfresh := hfresh hinput
      split at hok
      next layer hop => exact placeKv_laid h hinput hview (by rw [hop]; rfl) hok
      next layer hop => exact placeKv_laid h hinput hview (by rw [hop]; rfl) hok
      next layer hop =>
        exact placeFused_laid h hdue hfresh hinput hview (by rw [hop]; rfl) hok
      next layer hop =>
        exact placeFused_laid h hdue hfresh hinput hview (by rw [hop]; rfl) hok
      next layer hop =>
        dsimp only at hok
        split at hok
        · cases hok
        next pair w₁ hgot =>
          obtain ⟨hsound, hkeeps, hlast, -, -⟩ := regions_spec h hgot
          refine .after hkeeps hlast
            (placeInPlace_laid hg hnode hsound ?_ ?_ (fun m hm mnode hmnode =>
              ?_) hinput hview
            (by rw [hop]; rfl) hok)
          · rw [hlast, hdue]
          · rw [hkeeps.nodeToBuf, hfresh]
          · refine (hbefore m hm mnode hmnode).mono hg hmnode ?_ (fun _ p _ =>
              ?_) (fun e he => ?_) hkeeps.pinned
            · rw [hkeeps.nodeToBuf]
            · rw [hkeeps.nodeToBuf]
            · exact hkeeps.handed ▸ he
      next hop =>
        exact placeInPlace_laid hg hnode h hdue hfresh hbefore hinput hview
          (by rw [hop]; rfl) hok
      next hop =>
        exact placeInPlace_laid hg hnode h hdue hfresh hbefore hinput hview
          (by rw [hop]; rfl) hok
      next hop =>
        exact placeInPlace_laid hg hnode h hdue hfresh hbefore hinput hview
          (by rw [hop]; rfl) hok
      next hnot₁ hnot₂ _ _ _ _ _ _ =>
        refine ownBuffer_laid h hdue hfresh hinput hview ?_ hok
        cases hop : node.op with
        | kvcacheStore layer => exact absurd hop (hnot₁ layer)
        | kvcacheLoad layer => exact absurd hop (hnot₂ layer)
        | _ => rfl

-- ============================ the walk

/-- What the walk keeps of the places, before node `i`. -/
structure LayoutOk (g : ComputeGraph) (i : Nat) (w : Walk) : Prop where
  later : ∀ n, i ≤ n → due w.lastUse n = g.need n
  inputs : ∀ n node, g.nodes[n]? = some node → node.isInput = true →
    LaidAt g w.alloc n node
  before : ∀ n < i, ∀ node, g.nodes[n]? = some node → LaidAt g w.alloc n node
  fresh : ∀ n node, i ≤ n → g.nodes[n]? = some node → node.isInput = false →
    w.alloc.nodeToBuf.lookup n = none

/-- The walk lays out every node. -/
theorem LayoutOk.run {i : Nat} {rest : List CNode} (hg : g.BuildOrder)
    (h : LayoutOk g i w) (hsound : w.alloc.Sound)
    (hrest : g.nodes.drop i = rest) (hok : run env g rest i w = (.ok (), w')) :
    ∀ n node, g.nodes[n]? = some node → LaidAt g w'.alloc n node := by
  induction rest generalizing w i with
  | nil =>
      cases hok
      intro n node hnode
      have hend : g.nNodes ≤ i := List.drop_eq_nil_iff.1 hrest
      exact h.before n
        (Nat.lt_of_lt_of_le (List.getElem?_eq_some_iff.1 hnode).1 hend)
        node hnode
  | cons node rest ih =>
      have hnode : g.nodes[i]? = some node := by
        rw [← List.head?_drop, hrest, List.head?_cons]
      obtain ⟨hswept, hsame⟩ := sweep_spec hsound i
      have hpinned : ∀ {key}, w.alloc.Holds key .pinned →
          (w.alloc.sweep i).Holds key .pinned := by
        rintro key ⟨p, hp, hkey⟩
        exact ⟨p, hsame.persistent ▸ hp, hkey⟩
      have hstays : ∀ {n node}, g.nodes[n]? = some node →
          LaidAt g w.alloc n node → LaidAt g (w.alloc.sweep i) n node :=
        fun hnode hlaid =>
          hlaid.mono hg hnode (by rw [hsame.nodeToBuf])
          (fun _ m _ => by rw [hsame.nodeToBuf])
          (fun e he => hsame.handed ▸ he) hpinned
      rw [Walk.run] at hok
      split at hok
      · cases hok
      next w₁ hgot =>
        have hplaced : Laid g { w with alloc := w.alloc.sweep i } node i w₁ :=
          place_laid hg hnode hswept (h.later i (Nat.le_refl i))
            (fun m hm mnode hmnode =>
              hstays hmnode (h.before m hm mnode hmnode))
            (fun hinput => hstays hnode (h.inputs i node hnode hinput))
            (fun hinput => by rw [hsame.nodeToBuf,
              h.fresh i node (Nat.le_refl i) hnode hinput]) hgot
        have hsound₁ : w₁.alloc.Sound := by
          have houtcome : Outcome g { w with alloc := w.alloc.sweep i } node i
              (place env { w with alloc := w.alloc.sweep i } g node i) :=
                place_outcome hswept
          rw [hgot] at houtcome
          exact houtcome.1
        have hothers : ∀ m, m ≠ i →
            w₁.alloc.nodeToBuf.lookup m = w.alloc.nodeToBuf.lookup m :=
            fun m hm => by
          rw [hplaced.others m hm, hsame.nodeToBuf]
        have hkept : ∀ {n node}, n ≠ i → (node.isInput = true ∨ n < i) →
            g.nodes[n]? = some node →
            LaidAt g w.alloc n node → LaidAt g w₁.alloc n node := by
          intro n node hne hsmall hnode hlaid
          refine hlaid.mono hg hnode (hothers n hne)
            (fun hcomputed m hm => hothers m ?_)
            (fun e he => hplaced.handed e (hsame.handed ▸ he)) fun hp =>
              hplaced.pinned (hpinned hp)
          rcases hsmall with hin | hlt
          · rw [hin] at hcomputed
            cases hcomputed
          · exact Nat.ne_of_lt (Nat.lt_trans hm hlt)
        refine ih ⟨fun n hn => ?_, fun n node' hnode' hinput => ?_,
          fun n hn node' hnode' => ?_,
          fun n node' hn hnode' hinput => ?_⟩ hsound₁ ?_ hok
        · exact (hplaced.later n hn).trans (h.later n (Nat.le_of_lt hn))
        · by_cases heq : n = i
          · subst heq
            rw [hnode] at hnode'
            cases hnode'
            exact hplaced.laid
          · exact hkept heq (.inl hinput) hnode' (h.inputs n node' hnode' hinput)
        · by_cases heq : n = i
          · subst heq
            rw [hnode] at hnode'
            cases hnode'
            exact hplaced.laid
          · have hlt : n < i := Nat.lt_of_le_of_ne (Nat.le_of_lt_succ hn) heq
            exact hkept heq (.inr hlt) hnode' (h.before n hlt node' hnode')
        · exact (hothers n (Nat.ne_of_gt hn)).trans
            (h.fresh n node' (Nat.le_of_lt hn) hnode' hinput)
        · rw [← List.drop_drop, hrest]
          rfl

end
end Walk

namespace GraphAllocator

variable {a a' : GraphAllocator} {env : AllocEnv} {g : ComputeGraph}

/-- The inputs get their buffers first. -/
theorem placeInputs_laid {lastUse : List Nat} {nodes : List CNode}
    (h : a.Sound) (hids : nodes.Pairwise fun node node' => node.id ≠ node'.id)
    (hok : a.placeInputs env lastUse nodes = (.ok (), a')) :
    a'.Sound ∧ (∀ e ∈ a.handed, e ∈ a'.handed) ∧
      (∀ n, (∀ node ∈ nodes, node.isInput = true → node.id ≠ n) →
        a'.nodeToBuf.lookup n = a.nodeToBuf.lookup n) ∧
        ∀ node ∈ nodes, node.isInput = true → ∃ pid,
          a'.nodeToBuf.lookup node.id = some (.own node.home pid node.nElements) ∧
            (node.id, (node.home, pid)) ∈ a'.handed := by
  induction nodes generalizing a with
  | nil =>
      cases hok
      exact ⟨h, fun _ => id, fun _ _ => rfl, fun node hmem =>
        absurd hmem List.not_mem_nil⟩
  | cons node rest ih =>
      obtain ⟨hfirst, hids⟩ := List.pairwise_cons.1 hids
      rw [placeInputs] at hok
      split at hok
      next hinput =>
        split at hok
        · cases hok
        next a₁ hgot =>
          obtain ⟨pid, hbufs, hhanded, -⟩ := handBuffer_laid h hgot
          have hsound₁ : a₁.Sound := by
            rcases handBuffer_spec h hgot with ⟨e, he, -⟩ | ⟨-, hsound, -⟩
            · cases he
            · exact hsound
          obtain ⟨hsound, hgrows, hothers, hgave⟩ := ih hsound₁ hids hok
          refine ⟨hsound, fun e he =>
            hgrows e (hhanded ▸ List.mem_append_left _ he), fun n hn => ?_,
            fun node' hmem hinput' => ?_⟩
          · rw [hothers n fun node' hmem =>
              hn node' (List.mem_cons_of_mem _ hmem), hbufs]
            exact AList.lookup_insert_ne (hn node List.mem_cons_self hinput).symm
          · rcases List.mem_cons.1 hmem with rfl | hmem
            · refine ⟨pid, ?_,
                hgrows _ (hhanded
                  ▸ List.mem_append_right _ List.mem_cons_self)⟩
              rw [hothers _ fun other hother _ => (hfirst other hother).symm, hbufs]
              exact AList.lookup_insert _
            · exact hgave node' hmem hinput'
      next hnot =>
        obtain ⟨hsound, hgrows, hothers, hgave⟩ := ih h hids hok
        refine ⟨hsound, hgrows, fun n hn => hothers n fun node' hmem =>
          hn node' (List.mem_cons_of_mem _ hmem),
          fun node' hmem hinput' => ?_⟩
        rcases List.mem_cons.1 hmem with rfl | hmem
        · exact absurd hinput' hnot
        · exact hgave node' hmem hinput'

/-- After `alloc_graph` every node is in its place. -/
theorem allocGraph_laid (h : a.Sound) (hg : g.BuildOrder)
    (hok : a.allocGraph env g = (.ok (), a')) :
    ∀ n node, g.nodes[n]? = some node → LaidAt g a' n node := by
  rw [allocGraph] at hok
  dsimp only at hok
  split at hok
  · cases hok
  split at hok
  · split at hok
    · cases hok
    next a₁ hgot =>
      have hdistinct : g.nodes.Pairwise fun node node' => node.id ≠ node'.id := by
        refine List.pairwise_iff_getElem.2 fun i j hi hj hlt => ?_
        rw [hg.ids i _ (List.getElem?_eq_getElem hi),
          hg.ids j _ (List.getElem?_eq_getElem hj)]
        exact Nat.ne_of_lt hlt
      obtain ⟨hsound, -, hothers, hgave⟩ :=
        placeInputs_laid (restart_sound h) hdistinct hgot
      cases hrun : Walk.run env g g.nodes 0 ⟨a₁, g.lastUses⟩ with
      | mk out w =>
          rw [hrun] at hok
          cases hok
          refine Walk.LayoutOk.run hg
            ⟨fun _ _ => rfl, fun n node hnode hinput => ?_,
              fun n hn => absurd hn (Nat.not_lt_zero n),
            fun n node _ hnode hinput => ?_⟩ hsound List.drop_zero hrun
          · obtain ⟨pid, hbuf, hhanded⟩ :=
              hgave node (List.mem_of_getElem? hnode) hinput
            rw [hg.ids n node hnode] at hbuf hhanded
            exact .input pid hinput hbuf hhanded
          · rw [hothers n fun node' hmem hinput' heq => ?_]
            · exact AList.lookup_empty n
            · obtain ⟨j, hj⟩ := List.mem_iff_getElem?.1 hmem
              have hjn : j = n := (hg.ids j node' hj).symm.trans heq
              subst hjn
              rw [hnode] at hj
              cases hj
              rw [hinput] at hinput'
              cases hinput'
  · cases hok

end GraphAllocator
end Minfer.Graph
