/-
Any list of requests through the graph cache gets the values its graphs mean.

A graph that is served again finds the staging buffers of its last forward,
and one that was evicted leaves its own behind. What keeps them apart is the
uid: an entry under a uid is always of a node that lives elsewhere in the
graph of that uid (`Machine.Tidy`), and a uid is never given twice. So the
cache's invariant (`GraphCache.Ok`) is about every graph that has had a uid
so far, and a build adds one.
-/
import Minfer.Graph.Proofs.Forward
import Minfer.Graph.Cache

namespace Minfer.Graph

open GraphAllocator

variable {π ε σ : Type}

-- ================================ uids

namespace ComputeGraph

variable {g : ComputeGraph} {uid : Nat}

theorem extendThroughViews_withUid {upto fuel : Nat} {lastUse : List Nat}
    {cur : NodeId} :
    (g.withUid uid).extendThroughViews upto fuel lastUse cur
      = g.extendThroughViews upto fuel lastUse cur := by
  induction fuel generalizing lastUse cur with
  | zero => rfl
  | succ fuel ih =>
      rw [extendThroughViews, extendThroughViews]
      have hnodes : (g.withUid uid).nodes = g.nodes := rfl
      rw [hnodes]
      cases (g.nodes[cur]?).bind (·.view) with
      | none => rfl
      | some v =>
          dsimp only
          rw [ih]

variable {n : NodeId} {w : Walk} {env : AllocEnv}

theorem share_withUid {src : NodeId} {ref : BufRef} :
    w.share (g.withUid uid) n src ref = w.share g n src ref := by
  rw [Walk.share, Walk.share]
  dsimp only
  rw [extendThroughViews_withUid]
  rfl

theorem place_withUid {node : CNode} :
    Walk.place env w (g.withUid uid) node n = Walk.place env w g node n := by
  have hview : ∀ v, w.placeView (g.withUid uid) node n v
      = w.placeView g node n v := by
    intro v
    rw [Walk.placeView, Walk.placeView]
    simp only [share_withUid]
    rfl
  have hinPlace : ∀ w : Walk, w.placeInPlace env (g.withUid uid) node n
      = w.placeInPlace env g node n := by
    intro w
    rw [Walk.placeInPlace, Walk.placeInPlace]
    simp only [share_withUid]
    rfl
  rw [Walk.place, Walk.place]
  simp only [hview, hinPlace]

theorem run_withUid {nodes : List CNode} {i : Nat} :
    Walk.run env (g.withUid uid) nodes i w = Walk.run env g nodes i w := by
  induction nodes generalizing i w with
  | nil => rfl
  | cons node rest ih =>
      rw [Walk.run, Walk.run, place_withUid]
      simp only [ih]

/-- The allocator does not read the uid. -/
theorem allocGraph_withUid {a : GraphAllocator} :
    a.allocGraph env (g.withUid uid) = a.allocGraph env g := by
  rw [allocGraph, allocGraph]
  have hrun : ∀ w, Walk.run env (g.withUid uid) g.nodes 0 w
    = Walk.run env g g.nodes 0 w := fun w => run_withUid
  have horder : (g.withUid uid).topoOrder = g.topoOrder := rfl
  have hnodes : (g.withUid uid).nodes = g.nodes := rfl
  have hlast : (g.withUid uid).lastUses = g.lastUses := rfl
  rw [horder, hnodes, hlast]
  simp only [hrun]
  rfl

theorem evalFrom_withUid {k : Kernels ε σ} {nodes : List CNode}
    {vals : NodeId → List ε} {kv : σ} :
    (g.withUid uid).evalFrom k nodes n vals kv = g.evalFrom k nodes n vals kv := by
  induction nodes generalizing n vals kv with
  | nil => rfl
  | cons node rest ih =>
      have hstep : (g.withUid uid).evalStep k node n vals kv
        = g.evalStep k node n vals kv := rfl
      rw [evalFrom, evalFrom, hstep]
      simp only [ih]

theorem fillValues_withUid {fills : List (String × List ε)} {vals : NodeId → List ε} :
    (g.withUid uid).fillValues fills vals = g.fillValues fills vals := by
  induction fills generalizing vals with
  | nil => rfl
  | cons fill rest ih =>
      have hname : (g.withUid uid).inputNamed fill.1 = g.inputNamed fill.1 := rfl
      have hnodes : (g.withUid uid).nodes = g.nodes := rfl
      rw [fillValues, fillValues, hname, hnodes]
      simp only [ih]

/-- Nor does the meaning of a forward. -/
theorem forwardValues_withUid {k : Kernels ε σ}
    {fills : List (String × List ε)} {kv : σ} :
    (g.withUid uid).forwardValues k fills kv = g.forwardValues k fills kv := by
  have hnodes : (g.withUid uid).nodes = g.nodes := rfl
  have houtputs : (g.withUid uid).outputs = g.outputs := rfl
  rw [forwardValues, forwardValues, fillValues_withUid]
  simp only [eval, hnodes, evalFrom_withUid, houtputs]

theorem Window.withUid {root : NodeId} {off : Nat}
    (h : (g.withUid uid).Window n root off) : g.Window n root off := by
  induction h with
  | self n => exact .self n
  | view hnode computed hview _ ih => exact .view hnode computed hview ih

theorem Executable.withUid (h : g.Executable) : (g.withUid uid).Executable where
  order := ⟨h.order.ids, h.order.sources, h.order.views, h.order.listed⟩
  assigned := h.assigned
  entries := h.entries
  windows := h.windows
  parents := h.parents
  inPlace n node p pnode hnode hsource hpnode := by
    obtain ⟨hop, hlen, hquiet⟩ := h.inPlace n node p pnode hnode
      ⟨hsource.op, hsource.viewless, hsource.head, hsource.sole, hsource.home,
        hsource.gate⟩ hpnode
    exact ⟨hop, hlen, fun m mnode root off off' hm hw hw' =>
      hquiet m mnode root off off' hm hw.withUid hw'.withUid⟩
  results := h.results

end ComputeGraph

-- =========================== the cache

/-- What a request may ask for: a graph that can be executed on backends that
have a pool, with all its inputs. -/
structure Request.Ready (r : Request π ε) (env : AllocEnv)
    (build : π → ComputeGraph) (a₀ : GraphAllocator) : Prop where
  executable : (build r.params).Executable
  registered : ∀ node ∈ (build r.params).nodes, env.isRegistered node.home = true
  pools : ∀ node ∈ (build r.params).nodes, (a₀.pools.lookup node.home).isSome
  filled : (build r.params).Filled r.fills

namespace GraphCache

open Machine

variable {env : AllocEnv} {k : Kernels ε σ} {build : π → ComputeGraph}
  {a₀ : GraphAllocator} {homes : Nat → NodeId → Option Backend}
  {r : Request π ε} {c : GraphCache π ε σ}

/-- Every graph is what was built for its parameters, under a uid of its own,
and nothing in the machine contradicts where the uids' nodes live. -/
structure Ok (k : Kernels ε σ) (build : π → ComputeGraph) (a₀ : GraphAllocator)
    (homes : Nat → NodeId → Option Backend) (c : GraphCache π ε σ) : Prop where
  rest : Resting k homes a₀ c.machine
  cached : ∀ p g, (p, g) ∈ c.graphs → ∃ uid, g = (build p).withUid uid ∧
    ∀ n node, (build p).nodes[n]? = some node → homes uid n = some node.home

/-- Mapping the allocator touches none of that. -/
theorem resting_alloc {m : Machine ε σ} (h : Resting k homes a₀ m)
    {g : ComputeGraph} :
    Resting k homes a₀ { m with alloc := (m.alloc.allocGraph env g).2 } where
  sound := allocGraph_sound h.sound
  pools b hb := allocGraph_aside.2.2 b (h.pools b hb)
  tidy := ⟨fun hcb => h.tidy.away (allocGraph_aside.1 ▸ hcb), h.tidy.flights⟩

/-- The forward on the graph in front, once the allocator is mapped onto it. -/
theorem Ok.runCurrent (h : c.Ok k build a₀ homes) (hk : k.Sized)
    (hready : r.Ready env build a₀) {uid : Nat}
    {rest : List (π × ComputeGraph)}
    (hfront : c.graphs = (r.params, (build r.params).withUid uid) :: rest)
    (hhomes : ∀ n node, (build r.params).nodes[n]? = some node →
      homes uid n = some node.home) {a : GraphAllocator} (hsound : a.Sound)
    (hok : a.allocGraph env (build r.params) = (.ok (), c.machine.alloc)) :
    (c.runCurrent env k r.fills).1
      = ((build r.params).forwardValues k r.fills c.machine.kv).1 ∧
      (c.runCurrent env k r.fills).2.machine.kv
        = ((build r.params).forwardValues k r.fills c.machine.kv).2 ∧
        (c.runCurrent env k r.fills).2.Ok k build a₀ homes := by
  have hx : ((build r.params).withUid uid).Executable := hready.executable.withUid
  have hok' : a.allocGraph env ((build r.params).withUid uid)
      = (.ok (), c.machine.alloc) :=
    ComputeGraph.allocGraph_withUid.trans hok
  obtain ⟨hmapped, hout⟩ := allocGraph_mapped hsound hx.order hok'
  obtain ⟨-, hpending, -⟩ := @allocGraph_aside a env (build r.params)
  rw [hok] at hpending
  have hsetup : Setup env homes ((build r.params).withUid uid) c.machine.alloc :=
    ⟨hx, hmapped, hhomes, hready.registered, fun node hnode =>
      h.rest.pools _ (hready.pools node hnode)⟩
  have hrest : Resting k homes c.machine.alloc c.machine :=
    ⟨h.rest.sound, fun _ => id, h.rest.tidy⟩
  obtain ⟨hvalue, hkv, hafter⟩ :=
    forward_agrees hsetup hk hrest rfl hpending hout hready.filled
  rw [ComputeGraph.forwardValues_withUid] at hvalue hkv
  have hcached := h.cached
  rw [hfront] at hcached
  rw [GraphCache.runCurrent, hfront, List.head?_cons]
  exact ⟨hvalue, hkv,
    ⟨hafter.sound, fun b hb => hafter.pools b (h.rest.pools b hb),
      hafter.tidy⟩, hcached⟩

/-- A uid that no node is under can be given to a graph. -/
theorem homes_named (g : ComputeGraph) {uid : Nat}
    (hfresh : ∀ n, homes uid n = none) :
    ∃ homes' : Nat → NodeId →
      Option Backend, (∀ uid', uid' ≠ uid → homes' uid' = homes uid') ∧
      (∀ uid' n b, homes uid' n = some b → homes' uid' n = some b) ∧
        ∀ n node, g.nodes[n]? = some node → homes' uid n = some node.home := by
  refine ⟨Function.update homes uid fun n => (g.nodes[n]?).map (·.home),
    fun uid' hne => Function.update_of_ne hne _ _,
    fun uid' n b hb => ?_, fun n node hnode => ?_⟩
  · have hne : uid' ≠ uid := by
      intro heq
      rw [heq, hfresh n] at hb
      cases hb
    rw [Function.update_of_ne hne]
    exact hb
  · rw [Function.update_self, hnode, Option.map_some]

variable [DecidableEq π]

/-- The graph of these parameters is the one at hand: it goes to the front. -/
theorem Ok.hit (h : c.Ok k build a₀ homes) (hk : k.Sized)
    (hready : r.Ready env build a₀) {p : π} {g : ComputeGraph}
    (hfind : (c.graphs.find? fun entry => entry.1 = r.params) = some (p, g)) :
    Served env k build r c.machine.kv (c.forward env k build r).1
      (c.forward env k build r).2.machine.kv ∧
      (c.forward env k build r).2.Ok k build a₀ homes := by
  have hp := List.find?_some hfind
  obtain rfl : p = r.params := of_decide_eq_true hp
  obtain ⟨uid, rfl, hhomes⟩ := h.cached _ g (List.mem_of_find?_eq_some hfind)
  have hrest : Resting k homes a₀ { c.machine with alloc :=
      (c.machine.alloc.allocGraph env (build r.params)).2 } :=
    resting_alloc h.rest
  have hleft : ∀ p g,
      (p, g) ∈ c.graphs.eraseP (fun entry => entry.1 = r.params) →
      (p, g) ∈ c.graphs :=
    fun p g hmem => List.mem_of_mem_eraseP hmem
  rw [GraphCache.forward, GraphCache.tryReuse, hfind]
  dsimp only
  rw [ComputeGraph.allocGraph_withUid]
  cases halloc : c.machine.alloc.allocGraph env (build r.params) with
  | mk out a =>
      rw [halloc] at hrest
      cases out with
      | error e =>
          exact ⟨.refused halloc, hrest, fun p g hmem =>
            h.cached p g (hleft p g hmem)⟩
      | ok _ =>
          have hok : Ok k build a₀ homes (⟨(r.params, (build r.params).withUid uid) ::
              c.graphs.eraseP (fun entry => entry.1 = r.params),
                  { c.machine with alloc := a }⟩ : GraphCache π ε σ) := by
            refine ⟨hrest, fun p g hmem => ?_⟩
            rcases List.mem_cons.1 hmem with heq | hmem
            · cases heq
              exact ⟨uid, rfl, hhomes⟩
            · exact h.cached p g (hleft p g hmem)
          obtain ⟨hvalue, hkv, hafter⟩ :=
            hok.runCurrent hk hready rfl hhomes h.rest.sound halloc
          exact ⟨.computed hvalue hkv, hafter⟩

/-- There is none: it is built, under the uid that comes next. -/
theorem Ok.miss (h : c.Ok k build a₀ homes) (hk : k.Sized)
    (hready : r.Ready env build a₀) (hfresh : ∀ n, homes r.uid n = none)
    (hfind : (c.graphs.find? fun entry => entry.1 = r.params) = none) :
    Served env k build r c.machine.kv (c.forward env k build r).1
      (c.forward env k build r).2.machine.kv ∧
      ∃ homes', (∀ uid, uid ≠ r.uid → homes' uid = homes uid)
        ∧ (c.forward env k build r).2.Ok k build a₀ homes' := by
  rw [GraphCache.forward, GraphCache.tryReuse, hfind]
  dsimp only
  have hrest : Resting k homes a₀ { c.machine with alloc :=
      (c.machine.alloc.allocGraph env (build r.params)).2 } :=
    resting_alloc h.rest
  cases halloc : c.machine.alloc.allocGraph env (build r.params) with
  | mk out a =>
      rw [halloc] at hrest
      cases out with
      | error e => exact ⟨.refused halloc, homes, fun _ _ => rfl, hrest, h.cached⟩
      | ok _ =>
          obtain ⟨homes', hothers, hkept, hhomes⟩ :=
            homes_named (build r.params) hfresh
          have hok : Ok k build a₀ homes'
              (({ c with machine := { c.machine with alloc := a } } :
                GraphCache π ε σ).replaceGraph
              (build r.params) r.params r.uid) := by
            refine ⟨⟨hrest.sound, hrest.pools, fun hcb => ?_, fun hfl => ?_⟩,
              fun p g hmem => ?_⟩
            · obtain ⟨home, hhome, hne⟩ := hrest.tidy.away hcb
              exact ⟨home, hkept _ _ _ hhome, hne⟩
            · obtain ⟨home, hhome, hasync⟩ := hrest.tidy.flights hfl
              exact ⟨home, hkept _ _ _ hhome, hasync⟩
            · rcases List.mem_cons.1 (List.mem_of_mem_take hmem) with heq | hmem
              · cases heq
                exact ⟨r.uid, rfl, hhomes⟩
              · obtain ⟨uid, hg, hknown⟩ := h.cached p g (List.mem_of_mem_filter hmem)
                exact ⟨uid, hg, fun n node hnode => hkept _ _ _ (hknown n node hnode)⟩
          obtain ⟨hvalue, hkv, hafter⟩ :=
            hok.runCurrent hk hready rfl hhomes h.rest.sound halloc
          exact ⟨.computed hvalue hkv, homes', hothers, hafter⟩

theorem Ok.forward (h : c.Ok k build a₀ homes) (hk : k.Sized)
    (hready : r.Ready env build a₀) (hfresh : ∀ n, homes r.uid n = none) :
    Served env k build r c.machine.kv (c.forward env k build r).1
      (c.forward env k build r).2.machine.kv ∧
      ∃ homes', (∀ uid, uid ≠ r.uid → homes' uid = homes uid)
        ∧ (c.forward env k build r).2.Ok k build a₀ homes' := by
  cases hfind : c.graphs.find? fun entry => entry.1 = r.params with
  | none => exact h.miss hk hready hfresh hfind
  | some entry =>
      obtain ⟨hserved, hafter⟩ := h.hit hk hready hfind
      exact ⟨hserved, homes, fun _ _ => rfl, hafter⟩

theorem Ok.serve {reqs : List (Request π ε)} (h : c.Ok k build a₀ homes)
    (hk : k.Sized) (hready : ∀ r ∈ reqs, r.Ready env build a₀)
    (hdistinct : (reqs.map (·.uid)).Nodup)
    (hfresh : ∀ r ∈ reqs, ∀ n, homes r.uid n = none) :
    ServedAll env k build reqs c.machine.kv (c.serve env k build reqs).1
      (c.serve env k build reqs).2.machine.kv := by
  induction reqs generalizing c homes with
  | nil => exact .nil _
  | cons r rest ih =>
      rw [List.map_cons, List.nodup_cons] at hdistinct
      obtain ⟨hserved, homes', hothers, hafter⟩ :=
        h.forward hk (hready r List.mem_cons_self) (hfresh r List.mem_cons_self)
      rw [GraphCache.serve]
      refine .cons hserved
        (ih hafter (fun r' hmem => hready r' (List.mem_cons_of_mem _ hmem))
          hdistinct.2 ?_)
      intro r' hmem n
      have hne : r'.uid ≠ r.uid :=
        fun heq => hdistinct.1 (heq ▸ List.mem_map_of_mem hmem)
      rw [hothers _ hne]
      exact hfresh r' (List.mem_cons_of_mem _ hmem) n

/-- A cache that starts empty, on an allocator in any state that has no
staging buffers: every request is answered with what its graph means. -/
theorem serve_served {m : Machine ε σ} {reqs : List (Request π ε)}
    (halloc : GraphAllocator.Reachable m.alloc) (hcross : m.alloc.cross = ∅)
    (hflight : ∀ entry, m.inFlight entry = none) (hk : k.Sized)
    (hready : ∀ r ∈ reqs, r.Ready env build m.alloc)
    (hdistinct : (reqs.map (·.uid)).Nodup) :
    ServedAll env k build reqs m.kv (serve env k build reqs ⟨[], m⟩).1
      (serve env k build reqs ⟨[], m⟩).2.machine.kv := by
  have hok : Ok k build m.alloc (fun _ _ => none) (⟨[], m⟩ : GraphCache π ε σ) := by
    refine ⟨⟨halloc.sound, fun _ => id, fun hcb => ?_,
      fun hfl => absurd (hflight _) hfl⟩, fun p g hmem => ?_⟩
    · rw [hcross] at hcb
      cases hcb
    · exact absurd hmem List.not_mem_nil
  exact hok.serve hk hready hdistinct fun _ _ _ => rfl

end GraphCache

-- ============================== sample

namespace Sample

open GraphAllocator

theorem detour_places : ∀ p ∈ detour.nodes.zipIdx, p.1.op.onRegion = false
    ∧ p.1.op.viewLike = false ∧
    p.1.view = none
      ∧ (p.1.op.inPlace = true → p.2 = 3 ∧ p.1.src.head? = some 2)
      ∧ (p.1.isInput = true → p.2 = 0) := by
  decide

theorem detour_place {n : NodeId} {node : CNode}
    (h : detour.nodes[n]? = some node) : node.op.onRegion = false ∧
    node.op.viewLike = false ∧ node.view = none
      ∧ (node.op.inPlace = true → n = 3 ∧ node.src.head? = some 2) ∧
      (node.isInput = true → n = 0) :=
  detour_places (node, n) (List.mem_zipIdx_iff_getElem?.2 h)

theorem detour_window {n root : NodeId} {off : Nat}
    (h : detour.Window n root off) : n = root := by
  cases h with
  | self => rfl
  | view hnode _ hview _ =>
      rw [(detour_place hnode).2.2.1] at hview
      cases hview

theorem detour_executable : detour.Executable where
  order := detour_buildOrder
  assigned := detour_assigned
  entries n hmem := by
    rw [show detour.inputs = [0] from rfl, List.mem_singleton] at hmem
    subst hmem
    exact ⟨{ (link 0 .input []) with backend := some .cpu }, rfl, rfl⟩
  windows node hmem := by
    obtain ⟨n, hnode⟩ := List.mem_iff_getElem?.1 hmem
    obtain ⟨-, hop, hview, -⟩ := detour_place hnode
    rw [hop, hview]
    rfl
  parents node hmem v hv pnode hpnode := (detour_place hpnode).1
  inPlace n node p pnode hnode hsource hpnode := by
    obtain ⟨rfl, hhead⟩ := (detour_place hnode).2.2.2.1 hsource.op
    obtain rfl : 2 = p := Option.some.inj (hhead.symm.trans hsource.head)
    refine ⟨(detour_place hpnode).1, ?_, fun m mnode root off off' _ hw hw' _ _ => ?_⟩
    · cases hnode
      cases hpnode
      rfl
    · rw [detour_window hw', ← detour_window hw]
      decide
  results n _ node hnode := (detour_place hnode).1

/-- A node's elements are the sums of its sources' ones, and one more; the
regions count the nodes. -/
def adders : Kernels Nat Nat where
  op node ins kv :=
    (.ok ((List.range node.nElements).map fun i =>
      (ins.map fun v => v.getD i 0).sum + 1), kv + 1)
  asyncCopies := true
  enqueues src _ := src = .metal

/-- A CPU and a Metal pool, with nothing in them. -/
def idle : Machine Nat Nat where
  alloc := new.enable .metal true
  mem _ _ := 0
  inFlight _ := none
  kv := 0

/-- The same parameters twice: the second forward is on the cached graph. -/
def twice : List (Request Unit Nat) :=
  [⟨(), 1, [("n", List.replicate 8 5)]⟩, ⟨(), 2, [("n", List.replicate 8 7)]⟩]

theorem serve_served_twice : ServedAll roomy adders (fun _ => detour) twice 0
    (GraphCache.serve roomy adders (fun _ => detour) twice ⟨[], idle⟩).1
    (GraphCache.serve roomy adders (fun _ => detour) twice
      ⟨[], idle⟩).2.machine.kv := by
  have hsized : adders.Sized := by
    intro node ins kv data kv' h _
    cases h
    rw [List.length_map, List.length_range]
  have hpools : ∀ node ∈ detour.nodes,
    (idle.alloc.pools.lookup node.home).isSome := by decide
  have hdistinct : (twice.map (·.uid)).Nodup := by decide
  have hflight : ∀ entry, idle.inFlight entry = none := fun _ => rfl
  have halloc : GraphAllocator.Reachable idle.alloc := .enable .metal true .new
  refine GraphCache.serve_served halloc rfl hflight hsized (fun r hr => ?_) hdistinct
  refine ⟨detour_executable, fun _ _ => rfl, hpools, fun n hn => ?_⟩
  obtain ⟨node, hnode, hinput⟩ := hn
  rw [(detour_place hnode).2.2.2.2 hinput]
  rcases List.mem_pair.1 hr with rfl | rfl
  · exact ⟨_, List.mem_cons_self, rfl⟩
  · exact ⟨_, List.mem_cons_self, rfl⟩

end Sample
end Minfer.Graph
