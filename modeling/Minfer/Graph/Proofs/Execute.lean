/-
An execution computes what the graph means.

The scheduler runs the nodes in build order, so its run is the evaluation of
the graph, node by node: before node `i` the nodes that are still needed have
their values (`Running`), a node reads its sources from their buffers or from
their staging copies, and what it writes is no element that is needed later.
A split boundary, the waits and the drain at the end only restage. When an
operation fails, the run stops where the evaluation does (`Agrees`).
-/
import Minfer.Graph.Proofs.Staging

namespace Minfer.Graph

open GraphAllocator

variable {ε σ : Type}

namespace Kernels

/-- An operation that writes a buffer fills its node's window. -/
def Sized (k : Kernels ε σ) : Prop :=
  ∀ node ins kv data kv', k.op node ins kv = (.ok data, kv') →
    node.op.writes = true → data.length = node.nElements

variable {k : Kernels ε σ} {node : CNode}

theorem run_viewLike (h : node.op.viewLike = true) (ins : List (List ε)) (kv : σ) :
    k.run node ins kv = (.ok [], kv) ∧ node.op.writes = false := by
  rw [run]
  cases hop : node.op with
  | view => exact ⟨rfl, rfl⟩
  | reshape => exact ⟨rfl, rfl⟩
  | permute => exact ⟨rfl, rfl⟩
  | _ => rw [hop] at h; cases h

theorem writes_onRegion (h : node.op.onRegion = true) : node.op.writes = false := by
  cases hop : node.op with
  | kvcacheStore layer => rfl
  | kvcacheLoad layer => rfl
  | _ => rw [hop] at h; cases h

theorem run_plain (h : node.op.viewLike = false)
    (h' : node.op.onRegion = false) (ins : List (List ε)) (kv : σ) :
    k.run node ins kv = k.op node ins kv ∧ node.op.writes = true := by
  rw [run]
  cases hop : node.op with
  | view => rw [hop] at h; cases h
  | reshape => rw [hop] at h; cases h
  | permute => rw [hop] at h; cases h
  | kvcacheStore layer => rw [hop] at h'; cases h'
  | kvcacheLoad layer => rw [hop] at h'; cases h'
  | _ => exact ⟨rfl, rfl⟩

end Kernels

namespace Machine

-- ============================ outcomes

/-- What an execution leaves, also when it fails. -/
structure Resting (k : Kernels ε σ) (homes : Nat → NodeId → Option Backend)
    (a : GraphAllocator) (m : Machine ε σ) : Prop where
  sound : m.alloc.Sound
  pools : ∀ b, (a.pools.lookup b).isSome → (m.alloc.pools.lookup b).isSome
  tidy : m.Tidy k homes

/-- The run did what the evaluation did: both failed alike, or both went on,
and the run is where `P` says. -/
inductive Agrees (F : Machine ε σ → Prop) (P : (NodeId → List ε) → Machine ε σ → Prop)
    (r : Except AllocExit Unit × Machine ε σ) : Except String
    (NodeId → List ε) × σ → Prop where
  | ok {vals : NodeId → List ε} {m : Machine ε σ} {kv : σ}
      (run : r = (.ok (), m)) (regions : m.kv = kv)
      (at_ : P vals m) : Agrees F P r (.ok vals, kv)
  | failed {e : String} {m : Machine ε σ} {kv : σ}
      (run : r = (.error (.err e), m)) (regions : m.kv = kv)
      (rest : F m) : Agrees F P r (.error e, kv)

section

variable {env : AllocEnv} {k : Kernels ε σ}
  {homes : Nat → NodeId → Option Backend} {g : ComputeGraph}
  {a : GraphAllocator} {n : NodeId} {vals : NodeId → List ε} {b : Backend}
  {S : List NodeId} {m m' : Machine ε σ} {node : CNode}
variable {i : Nat} {s : NodeId} {kv : σ}

theorem Running.resting (h : Running k homes g a i vals b S m) :
    Resting k homes a m := ⟨h.sound, h.pools, h.tidy⟩

-- ============================= sources

/-- The buffer a node's value is read from: its own where it lives, its copy
elsewhere. -/
def Reads (homes : Nat → NodeId → Option Backend) (g : ComputeGraph)
    (a : GraphAllocator) (b : Backend) (m : Machine ε σ)
    (s : NodeId) (ref : BufRef) : Prop :=
  homes g.uid s = some b ∧ a.nodeToBuf.lookup s = some ref ∨
    homes g.uid s ≠ some b ∧ m.alloc.cross.lookup (g.uid, s, b) = some ref
      ∧ (g.uid, s, b) ∉ m.alloc.crossPending

theorem Reads.later {ref : BufRef} (h : Reads homes g a b m s ref)
    (hcross : m'.alloc.cross = m.alloc.cross)
    (hpending : ∀ entry ∈ m'.alloc.crossPending,
      entry ∈ m.alloc.crossPending) : Reads homes g a b m' s ref :=
  h.imp_right fun ⟨haway, hcb, hnot⟩ =>
    ⟨haway, hcross ▸ hcb, fun hin => hnot (hpending _ hin)⟩

/-- What is read is the node's value. -/
theorem Running.reads (h : Running k homes g a i vals b S m) {ref : BufRef}
    (href : Reads homes g a b m s ref) (hlt : s < i) (hneed : i ≤ g.need s)
    (hin : homes g.uid s = some b ∨ s ∈ S) (hplain : g.Plain s) :
    m.read ref = vals s := by
  rcases href with ⟨-, hr⟩ | ⟨haway, hcb, hnot⟩
  · exact h.values ⟨.inl hlt, hneed, hr, hplain⟩
  · obtain ⟨-, -, cb, hcb', harrives⟩ := h.inputs s (hin.resolve_left haway) haway
    rw [hcb] at hcb'
    cases hcb'
    obtain ⟨-, hdata⟩ := harrives hplain
    rwa [arriving_settled hnot] at hdata

/-- A source's buffer is found, after a wait where its copy is pending. -/
theorem Running.source (hs : Setup env homes g a)
    (h : Running k homes g a i vals b S m)
    (hplaced : (a.nodeToBuf.lookup s).isSome) (hin : homes g.uid s = some b ∨ s ∈ S) :
    ∃ staged ref m', m.crossInputReady env g.uid s b = (.ok staged, m') ∧
      staged.or (m'.alloc.nodeToBuf.lookup s) = some ref
        ∧ Running k homes g a i vals b S m' ∧ m'.kv = m.kv ∧
        Reads homes g a b m' s ref ∧ m'.alloc.cross = m.alloc.cross ∧
          ∀ entry ∈ m'.alloc.crossPending, entry ∈ m.alloc.crossPending := by
  rw [Machine.crossInputReady]
  by_cases hpend : (g.uid, s, b) ∈ m.alloc.crossPending
  · obtain ⟨-, -, -, cb, hcb, -⟩ := h.own hpend
    obtain ⟨m', hwait, h', hkv, hcross, hpending⟩ := h.awaitCross hs hpend
    have hcb' : m'.alloc.cross.lookup (g.uid, s, b) = some cb := hcross ▸ hcb
    have hgone : (g.uid, s, b) ∉ m'.alloc.crossPending := by
      rw [hpending]
      exact fun hmem => of_decide_eq_true (List.mem_filter.1 hmem).2 rfl
    refine ⟨some cb, cb, m', ?_, rfl, h', hkv,
      .inr ⟨h.tidy.not_home hcb, hcb', hgone⟩, hcross, fun entry hmem => ?_⟩
    · rw [if_pos hpend, hwait]
      dsimp only
      rw [Machine.crossInput, hcb']
      dsimp only
      rw [if_neg hgone]
    · rw [hpending] at hmem
      exact (List.mem_filter.1 hmem).1
  · rw [if_neg hpend, Machine.crossInput]
    cases hcb : m.alloc.cross.lookup (g.uid, s, b) with
    | some cb =>
        refine ⟨some cb, cb, m, ?_, rfl, h, rfl,
          .inr ⟨h.tidy.not_home hcb, hcb, hpend⟩, rfl, fun _ => id⟩
        dsimp only
        rw [if_neg hpend]
    | none =>
        obtain ⟨r, hr⟩ := Option.isSome_iff_exists.1 hplaced
        have hhome : homes g.uid s = some b := by
          by_contra haway
          obtain ⟨-, -, cb, hcb', -⟩ := h.inputs s (hin.resolve_left haway) haway
          rw [hcb] at hcb'
          cases hcb'
        refine ⟨none, r, m, rfl, ?_, h, rfl, .inl ⟨hhome, hr⟩, rfl, fun _ => id⟩
        rw [h.bufs, hr]
        rfl

/-- All sources of a node. -/
theorem Running.resolve (hs : Setup env homes g a)
    {src : List NodeId} (h : Running k homes g a i vals b S m)
    (hsrc : ∀ s ∈ src, (a.nodeToBuf.lookup s).isSome
      ∧ (homes g.uid s = some b ∨ s ∈ S)) :
    ∃ refs m', m.resolve env g.uid b src = (.ok refs, m')
      ∧ Running k homes g a i vals b S m' ∧ m'.kv = m.kv ∧
      List.Forall₂ (Reads homes g a b m') src refs ∧ m'.alloc.cross = m.alloc.cross ∧
        ∀ entry ∈ m'.alloc.crossPending, entry ∈ m.alloc.crossPending := by
  induction src generalizing m with
  | nil => exact ⟨[], m, rfl, h, rfl, .nil, rfl, fun _ => id⟩
  | cons s rest ih =>
      obtain ⟨hplaced, hin⟩ := hsrc s List.mem_cons_self
      obtain ⟨staged, ref, m₁, hready, href, h₁, hkv₁, hreads, hcross₁,
        hpending₁⟩ := h.source hs hplaced hin
      obtain ⟨refs, m₂, hrest, h₂, hkv₂, hall, hcross₂, hpending₂⟩ :=
        ih h₁ fun s' hmem => hsrc s' (List.mem_cons_of_mem _ hmem)
      refine ⟨ref :: refs, m₂, ?_, h₂, hkv₂.trans hkv₁,
        .cons (hreads.later hcross₂ hpending₂) hall, hcross₂.trans hcross₁,
        fun entry hmem => hpending₁ entry (hpending₂ entry hmem)⟩
      rw [Machine.resolve, hready]
      dsimp only
      rw [href]
      dsimp only
      rw [hrest]

/-- An operation reads its sources' values. -/
theorem Running.readSources (h : Running k homes g a i vals b S m)
    {src : List NodeId} {refs : List BufRef}
    (hrefs : List.Forall₂ (Reads homes g a b m) src refs)
    (hsrc : ∀ s ∈ src, s < i ∧ i ≤ g.need s ∧ s < g.nNodes
      ∧ (homes g.uid s = some b ∨ s ∈ S)) :
    m.readSources g src refs = src.map vals := by
  rw [Machine.readSources]
  induction hrefs with
  | nil => rfl
  | @cons s ref rest refs href _ ih =>
      obtain ⟨hlt, hneed, hnode, hin⟩ := hsrc s List.mem_cons_self
      rw [List.zip_cons_cons, List.map_cons, List.map_cons,
        ih fun s' hmem => hsrc s' (List.mem_cons_of_mem _ hmem)]
      congr 1
      have hsome : g.nodes[s]? = some g.nodes[s] := List.getElem?_eq_getElem hnode
      dsimp only
      rw [hsome, Option.any_some]
      by_cases hop : g.nodes[s].op.onRegion = true
      · rw [if_pos hop, h.regions hlt hsome hop]
      · rw [if_neg hop]
        refine h.reads href hlt hneed hin fun node hnode' => ?_
        rw [hsome] at hnode'
        cases hnode'
        exact Bool.not_eq_true _ ▸ hop

-- ============================ one node

/-- A node is done: the others that are needed are as they were, no copy was
touched, and this one has its value. -/
theorem Running.advance (h : Running k homes g a n vals b S m)
    (hnode : g.nodes[n]? = some node) {vals' : NodeId → List ε}
    (halloc : m'.alloc = m.alloc) (hinFlight : m'.inFlight = m.inFlight)
    (hvals : ∀ x, x ≠ n → vals' x = vals x)
    (hreads : ∀ {x r}, x ≠ n → Needed g a (n + 1) x r → m'.read r = m.read r)
    (hcopies : ∀ {entry cb}, m.alloc.cross.lookup entry = some cb →
      m'.read cb = m.read cb)
    (hself : ∀ {r}, Needed g a (n + 1) n r → m'.read r = vals' n)
    (hregion : node.op.onRegion = true → vals' n = []) :
    Running k homes g a (n + 1) vals' b S m' := by
  have hstaged : ∀ {x dst}, x < n → Staged g a m x dst (vals x) →
      Staged g a m' x dst (vals' x) := by
    intro x dst hlt hst
    obtain ⟨hplaced, cb, hcb, harrives⟩ := hst
    rw [hvals x (Nat.ne_of_lt hlt)]
    refine ⟨hplaced, cb, halloc ▸ hcb, fun hplain => ?_⟩
    obtain ⟨hlen, hdata⟩ := harrives hplain
    refine ⟨hlen, ?_⟩
    rw [arriving] at hdata ⊢
    rwa [halloc, hinFlight, hcopies hcb]
  refine
    { bufs := halloc ▸ h.bufs, sound := halloc ▸ h.sound, active :=
      fun hkey => halloc ▸ h.active hkey
      pools := fun bk hbk => halloc ▸ h.pools bk hbk
      tidy := ⟨fun hcb => h.tidy.away (halloc ▸ hcb),
        fun hfl => h.tidy.flights (hinFlight ▸ hfl)⟩
      values := fun {x r} hx => ?_, regions :=
        fun {x xnode} hlt hxnode hop => ?_, once := halloc ▸ h.once
      own := fun {uid x dst} hmem => ?_, inputs := fun x hmem haway => ?_ }
  · by_cases heq : x = n
    · subst heq
      exact hself hx
    · have hbefore : x < n ∨ g.InputNode x :=
        hx.present.imp_left fun hlt => Nat.lt_of_le_of_ne (Nat.le_of_lt_succ hlt) heq
      rw [hreads heq hx, hvals x heq]
      exact h.values (hx.earlier hbefore)
  · by_cases heq : x = n
    · subst heq
      rw [hnode] at hxnode
      cases hxnode
      exact hregion hop
    · rw [hvals x heq]
      exact h.regions (Nat.lt_of_le_of_ne (Nat.le_of_lt_succ hlt) heq) hxnode hop
  · obtain ⟨huid, hlt, hst⟩ := h.own (halloc ▸ hmem)
    exact ⟨huid, Nat.lt_succ_of_lt hlt, hstaged hlt hst⟩
  · obtain ⟨hlt, hst⟩ := h.inputs x hmem haway
    exact ⟨Nat.lt_succ_of_lt hlt, hstaged hlt hst⟩

/-- A node is passed over: an input, or one that has no buffer. -/
theorem Running.pass (h : Running k homes g a n vals b S m)
    (hnode : g.nodes[n]? = some node)
    (hpass : node.isInput = true ∨ a.nodeToBuf.lookup n = none
      ∧ node.op.onRegion = false) :
    Running k homes g a (n + 1) vals b S m := by
  refine h.advance hnode rfl rfl (fun _ _ => rfl) (fun _ _ => rfl)
    (fun _ => rfl) (fun {r} hx => ?_) fun hop => ?_
  · rcases hpass with hin | ⟨hnone, -⟩
    · exact h.values (hx.earlier (.inr ⟨node, hnode, hin⟩))
    · rw [hx.buf] at hnone
      cases hnone
  · rcases hpass with hin | ⟨-, hplain⟩
    · have hnot : node.op = .input := of_decide_eq_true hin
      rw [hnot] at hop
      cases hop
    · rw [hplain] at hop
      cases hop

/-- A computed node counts when it has a buffer. -/
theorem laid_live (h : LaidAt g a n node) (hcomputed : node.isInput = false) :
    g.isLive n node = (a.nodeToBuf.lookup n).isSome := by
  rw [ComputeGraph.isLive]
  cases h with
  | input _ input _ _ => rw [hcomputed] at input; cases input
  | view v r _ view _ buf _ _ => rw [buf, view]; simp
  | region r _ _ op buf _ _ => rw [buf, op]; rfl
  | own pid _ _ _ live buf _ =>
      rw [buf, Option.isSome_some, Bool.or_eq_true]
      exact .inr (decide_eq_true live)
  | inPlace p r _ live _ _ buf _ =>
      rw [buf, Option.isSome_some, Bool.or_eq_true]
      exact .inr (decide_eq_true live)
  | dead _ viewless op unread buf =>
      rw [buf, op, viewless, Option.isSome_none, Option.isSome_none,
        Bool.false_or, Bool.false_or]
      exact decide_eq_false (Nat.not_lt_of_le unread)

/-- A window: nothing is run, and it shows its parent's elements. -/
theorem Running.view (hs : Setup env homes g a)
    (h : Running k homes g a n vals b S m) (hnode : g.nodes[n]? = some node)
    (hcomputed : node.isInput = false) {v : ViewAlias}
    (hview : node.view = some v) :
    Running k homes g a (n + 1)
      (Function.update vals n
        (((vals v.src).drop v.offset).take node.nElements)) b S
      { m with kv := kv } := by
  have hmem := List.mem_of_getElem? hnode
  have hreads := hs.executable.order.views n node v hnode hview
  have hlt : v.src < n := hs.executable.order.sources n node hnode v.src hreads
  have hn : n < g.nNodes := (List.getElem?_eq_some_iff.1 hnode).1
  refine h.advance hnode rfl rfl (fun x hne => Function.update_of_ne hne ..)
    (fun {x r} hne hx => rfl) (fun _ => rfl)
    (fun {r} hx => ?_) fun hop => ?_
  · rw [Function.update_self]
    cases hs.mapped.laid n node hnode with
    | view v' rp _ view parent buf fits _ =>
        rw [hview] at view
        cases view
        rw [hx.buf] at buf
        cases buf
        obtain ⟨pnode, hpnode⟩ := hs.mapped.node_of parent
        have hpop := hs.executable.parents node hmem v hview pnode hpnode
        have hplain : g.Plain v.src := fun node' hnode' => by
          rw [hpnode] at hnode'
          cases hnode'
          exact hpop
        have hlen := hs.mapped.length_of hs.executable hpnode hpop parent
        have hvalue : m.read rp = vals v.src :=
          h.values ⟨.inl hlt,
            ComputeGraph.le_need hnode hreads (Nat.lt_trans hlt hn), parent,
            hplain⟩
        rw [← hvalue]
        exact read_window (hlen ▸ fits pnode hpnode)
    | input _ input _ _ => rw [hcomputed] at input; cases input
    | region _ _ viewless _ _ _ _ => rw [hview] at viewless; cases viewless
    | own _ _ viewless _ _ _ _ => rw [hview] at viewless; cases viewless
    | inPlace _ _ _ _ source _ _ _ =>
        have hnone := source.viewless
        rw [hview] at hnone
        cases hnone
    | dead _ viewless _ _ _ => rw [hview] at viewless; cases viewless
  · have hwin := hs.executable.windows node hmem
    rw [hview] at hwin
    cases hop' : node.op with
    | kvcacheStore layer => rw [hop'] at hwin; cases hwin
    | kvcacheLoad layer => rw [hop'] at hwin; cases hwin
    | _ => rw [hop'] at hop; cases hop

/-- A region node: the rows went into the regions, and it has no value. -/
theorem Running.region (h : Running k homes g a n vals b S m)
    (hnode : g.nodes[n]? = some node) (hop : node.op.onRegion = true) :
    Running k homes g a (n + 1) (Function.update vals n []) b S
      { m with kv := kv } := by
  refine h.advance hnode rfl rfl (fun x hne => Function.update_of_ne hne ..)
    (fun {x r} hne hx => rfl) (fun _ => rfl)
    (fun {r} hx => ?_) fun _ => Function.update_self ..
  have hplain := hx.plain node hnode
  rw [hop] at hplain
  cases hplain

/-- A node that writes its window. -/
theorem Running.written (hs : Setup env homes g a)
    (h : Running k homes g a n vals b S m) (hnode : g.nodes[n]? = some node)
    (hcomputed : node.isInput = false) (hview : node.view = none)
    (hop : node.op.onRegion = false) {br : BufRef}
    (hbr : a.nodeToBuf.lookup n = some br) {data : List ε}
    (hlen : data.length = node.nElements) :
    Running k homes g a (n + 1) (Function.update vals n data) b S
      { (m.write br data) with kv := kv } := by
  have hactive : m.alloc.Active br.key :=
    h.active (hs.mapped.active_of hs.executable hnode hop hbr)
  refine h.advance hnode rfl rfl (fun x hne => Function.update_of_ne hne ..)
    (fun {x r} hne hx => ?_)
    (fun {entry cb} hcb => ?_) (fun {r} hx => ?_) fun hregion => ?_
  · exact read_write_apart
      (hs.mapped.write_apart hs.executable hnode hcomputed hview hop hbr
        hx hne)
  · have hnot : ¬m.alloc.Holds br.key (.staged entry) :=
      h.sound.active_not_staged hactive
    exact read_write_apart (.inl fun heq => hnot ⟨cb, hcb, heq⟩)
  · have hrbr : r = br := Option.some.inj (hx.buf.symm.trans hbr)
    subst hrbr
    rw [Function.update_self]
    exact read_write
      (hlen.trans (hs.mapped.length_of hs.executable hnode hop hbr).symm)
  · rw [hop] at hregion
    cases hregion

/-- One node of a split does what the evaluation does at it. -/
theorem Running.ofNode (hs : Setup env homes g a) (hk : k.Sized)
    (h : Running k homes g a n vals b S m)
    (hnode : g.nodes[n]? = some node) (hhome : node.home = b)
    (hsrc : ∀ s ∈ node.src, homes g.uid s = some b ∨ s ∈ S) :
    Agrees (Resting k homes a)
      (fun vals' m' => Running k homes g a (n + 1) vals' b S m')
      (m.executeNode env k g b node n) (g.evalStep k node n vals m.kv) := by
  have hn : n < g.nNodes := (List.getElem?_eq_some_iff.1 hnode).1
  have hmem := List.mem_of_getElem? hnode
  have hlaid := hs.mapped.laid n node hnode
  rw [Machine.executeNode, ComputeGraph.evalStep]
  by_cases hinput : node.isInput = true
  · rw [if_pos hinput, hinput, Bool.true_or, if_pos rfl]
    exact .ok rfl rfl (h.pass hnode (.inl hinput))
  have hcomputed : node.isInput = false := Bool.not_eq_true _ ▸ hinput
  rw [if_neg hinput, hcomputed, Bool.false_or, laid_live hlaid hcomputed, h.bufs]
  cases hbr : a.nodeToBuf.lookup n with
  | none =>
      refine .ok rfl rfl (h.pass hnode (.inr ⟨hbr, ?_⟩))
      cases hlaid with
      | dead _ _ op _ _ => exact op
      | input _ _ buf _ => rw [hbr] at buf; cases buf
      | view _ _ _ _ _ buf _ _ => rw [hbr] at buf; cases buf
      | region _ _ _ _ buf _ _ => rw [hbr] at buf; cases buf
      | own _ _ _ _ _ buf _ => rw [hbr] at buf; cases buf
      | inPlace _ _ _ _ _ _ buf _ => rw [hbr] at buf; cases buf
  | some br =>
      have hback : br.backend = b := (hlaid.at_home hbr).trans hhome
      dsimp only
      rw [Option.isSome_some, Bool.not_true, if_neg Bool.false_ne_true,
        if_neg (not_not.2 hback)]
      -- every source is earlier, and read here at least
      have hearly : ∀ s ∈ node.src, s < n ∧ n ≤ g.need s ∧ s < g.nNodes
          ∧ (homes g.uid s = some b ∨ s ∈ S) := by
        intro s hsmem
        have hlt : s < n := hs.executable.order.sources n node hnode s hsmem
        exact ⟨hlt, ComputeGraph.le_need hnode hsmem (Nat.lt_trans hlt hn),
          Nat.lt_trans hlt hn, hsrc s hsmem⟩
      obtain ⟨refs, m₁, hres, h₁, hkv₁, hrefs, -, -⟩ := h.resolve hs fun s hsmem =>
        ⟨hs.mapped.placed_of_read hnode hs.executable.order hsmem, hsrc s hsmem⟩
      have hvals : m₁.readSources g node.src refs = node.src.map vals :=
        h₁.readSources hrefs hearly
      have hpool : m₁.hasPool b = true := h₁.pools b (hhome ▸ hs.pools node hmem)
      rw [hres]
      dsimp only
      rw [hpool, Bool.not_true, if_neg Bool.false_ne_true, hvals, hkv₁,
        ComputeGraph.evalNode]
      have hwin := hs.executable.windows node hmem
      cases hview : node.view with
      | some v =>
          rw [hview, Option.isSome_some] at hwin
          obtain ⟨hrun, hwrites⟩ :=
            Kernels.run_viewLike (k := k) hwin.symm (node.src.map vals) m.kv
          rw [hrun, hwrites]
          exact .ok rfl rfl (h₁.view hs hnode hcomputed hview)
      | none =>
          rw [hview, Option.isSome_none] at hwin
          dsimp only
          cases hrun : k.run node (node.src.map vals) m.kv with
          | mk out kv =>
              cases out with
              | error e =>
                  exact .failed rfl rfl ⟨h₁.sound, h₁.pools,
                    ⟨h₁.tidy.away, h₁.tidy.flights⟩⟩
              | ok data =>
                  dsimp only
                  by_cases hop : node.op.onRegion = true
                  · rw [Kernels.writes_onRegion hop, if_neg Bool.false_ne_true,
                      if_pos hop]
                    exact .ok rfl rfl (h₁.region hnode hop)
                  · have hplain : node.op.onRegion = false := Bool.not_eq_true _ ▸ hop
                    obtain ⟨hkrun, hwrites⟩ :=
                      Kernels.run_plain (k := k) hwin.symm hplain
                      (node.src.map vals) m.kv
                    rw [hwrites, if_pos rfl, if_neg hop]
                    have hlen := hk node _ _ data kv (hkrun ▸ hrun) hwrites
                    exact .ok rfl rfl (h₁.written hs hnode hcomputed hview
                      hplain hbr hlen)

end

-- ================================ runs

section

variable {env : AllocEnv} {k : Kernels ε σ}
  {homes : Nat → NodeId → Option Backend} {g : ComputeGraph}
  {a : GraphAllocator} {i n : Nat} {vals : NodeId → List ε} {b : Backend}
  {S : List NodeId} {m : Machine ε σ}

/-- A run of nodes that live on one backend. -/
theorem Running.ofNodes (hs : Setup env homes g a) (hk : k.Sized)
    {nodes : List CNode} (h : Running k homes g a n vals b S m)
    (hnodes : ∀ j node, nodes[j]? = some node → g.nodes[n + j]? = some node)
    (hhome : ∀ node ∈ nodes, node.home = b)
    (hsrc : ∀ node ∈ nodes, ∀ s ∈ node.src, homes g.uid s = some b ∨ s ∈ S) :
    Agrees (Resting k homes a)
      (fun vals' m' => Running k homes g a (n + nodes.length) vals' b S m')
      (m.executeNodes env k g b nodes n) (g.evalFrom k nodes n vals m.kv) := by
  induction nodes generalizing n vals m with
  | nil => exact .ok rfl rfl h
  | cons node rest ih =>
      have hone :=
        h.ofNode hs hk (hnodes 0 node rfl) (hhome node List.mem_cons_self)
        (hsrc node List.mem_cons_self)
      rw [Machine.executeNodes, ComputeGraph.evalFrom]
      generalize m.executeNode env k g b node n = r at hone
      generalize g.evalStep k node n vals m.kv = v at hone
      cases hone with
      | failed run regions rest => exact .failed (by rw [run]) regions rest
      | @ok vals' m' kv run regions at_ =>
          rw [run, ← regions]
          dsimp only
          have hlen : n + (node :: rest).length = n + 1 + rest.length := by
            rw [List.length_cons]; omega
          rw [hlen]
          refine ih at_ (fun j node' hj => ?_)
            (fun node' hmem => hhome node' (List.mem_cons_of_mem _ hmem))
            fun node' hmem => hsrc node' (List.mem_cons_of_mem _ hmem)
          rw [Nat.add_assoc, Nat.add_comm 1]
          exact hnodes (j + 1) node' hj

/-- Fewer inputs, or another backend's none. -/
theorem Running.enter (h : Running k homes g a i vals b S m) {b' : Backend}
    {S' : List NodeId}
    (hS : ∀ n ∈ S', b' = b ∧ n ∈ S) : Running k homes g a i vals b' S' m := by
  refine { h with inputs := fun n hmem haway => ?_ }
  obtain ⟨rfl, hin⟩ := hS n hmem
  exact h.inputs n hin haway

/-- Staging a list of nodes. -/
theorem Running.stageAll (hs : Setup env homes g a) {nodes : List NodeId}
    (h : Running k homes g a i vals b S m) (hpool : (a.pools.lookup b).isSome)
    (hnodes : ∀ n ∈ nodes, n < i ∧ i ≤ g.need n ∧ (a.nodeToBuf.lookup n).isSome) :
    ∃ S' m', m.stageAll env k g.uid b nodes = (.ok (), m')
      ∧ Running k homes g a i vals b S' m' ∧ m'.kv = m.kv ∧
      (∀ n ∈ S, n ∈ S') ∧ ∀ n ∈ nodes, n ∈ S' := by
  induction nodes generalizing S m with
  | nil => exact ⟨S, m, rfl, h, rfl, fun _ => id,
      fun n hmem => absurd hmem List.not_mem_nil⟩
  | cons n rest ih =>
      obtain ⟨hlt, hneed, hplaced⟩ := hnodes n List.mem_cons_self
      obtain ⟨r, hr⟩ := Option.isSome_iff_exists.1 hplaced
      obtain ⟨m₁, hcopy, h₁, hkv₁⟩ := h.copyAcross hs hlt hneed hr hpool
      obtain ⟨S', m₂, hrest, h₂, hkv₂, hold, hall⟩ :=
        ih h₁ fun n' hmem => hnodes n' (List.mem_cons_of_mem _ hmem)
      refine ⟨S', m₂, ?_, h₂, hkv₂.trans hkv₁, fun x hx =>
        hold x (List.mem_cons_of_mem _ hx), fun x hx => ?_⟩
      · rw [Machine.stageAll, hcopy]
        exact hrest
      · rcases List.mem_cons.1 hx with rfl | hx
        · exact hold x List.mem_cons_self
        · exact hall x hx

/-- A boundary stages every input of the split it enters. -/
theorem Running.boundary (hs : Setup env homes g a) {prev : Backend}
    {split : Split} (h : Running k homes g a i vals b S m)
    (hpool : split.inputs ≠ [] → (a.pools.lookup split.backend).isSome)
    (hinputs : ∀ n ∈ split.inputs, n < i ∧ i ≤ g.need n
      ∧ (a.nodeToBuf.lookup n).isSome) :
    ∃ m', m.boundary env k g.uid prev split = (.ok (), m') ∧
      Running k homes g a i vals split.backend split.inputs m' ∧ m'.kv = m.kv := by
  have h₀ : Running k homes g a i vals split.backend [] m :=
    h.enter fun n hmem => absurd hmem List.not_mem_nil
  rw [Machine.boundary]
  set early : List NodeId := if prev = .metal ∧ split.backend = .cpu
      ∧ k.asyncCopies = true then
      split.inputs.filter fun n =>
        ((m.alloc.nodeToBuf.lookup n).map BufRef.backend) = some .metal
    else [] with hearly
  have hsub : ∀ n ∈ early, n ∈ split.inputs := by
    intro n hmem
    rw [hearly] at hmem
    split at hmem
    · exact (List.mem_filter.1 hmem).1
    · exact absurd hmem List.not_mem_nil
  by_cases hnil : split.inputs = []
  · have hnone : early = [] := List.eq_nil_iff_forall_not_mem.2 fun n hmem => by
      have hin := hsub n hmem
      rw [hnil] at hin
      exact List.not_mem_nil hin
    rw [hnone, hnil]
    exact ⟨m, rfl, h₀, rfl⟩
  · obtain ⟨S₁, m₁, hfirst, h₁, hkv₁, -, -⟩ :=
      h₀.stageAll hs (hpool hnil) fun n hmem => hinputs n (hsub n hmem)
    obtain ⟨S₂, m₂, hsecond, h₂, hkv₂, -, hall⟩ := h₁.stageAll hs (hpool hnil) hinputs
    refine ⟨m₂, ?_, h₂.enter fun n hmem => ⟨rfl, hall n hmem⟩, hkv₂.trans hkv₁⟩
    rw [hfirst]
    exact hsecond

/-- The waits for copies that nothing has read. -/
theorem Running.awaitAll (hs : Setup env homes g a) {entries : List CrossKey}
    (h : Running k homes g a i vals b S m) (honce : entries.Nodup)
    (hin : ∀ entry ∈ entries, entry ∈ m.alloc.crossPending) :
    ∃ m', m.awaitAll env entries = (.ok (), m')
      ∧ Running k homes g a i vals b S m' ∧ m'.kv = m.kv := by
  induction entries generalizing m with
  | nil => exact ⟨m, rfl, h, rfl⟩
  | cons entry rest ih =>
      obtain ⟨uid, n, dst⟩ := entry
      obtain ⟨hnot, hrest⟩ := List.nodup_cons.1 honce
      have hpend := hin _ List.mem_cons_self
      obtain ⟨rfl, -, -⟩ := h.own hpend
      obtain ⟨m₁, hwait, h₁, hkv₁, -, hpending₁⟩ := h.awaitCross hs hpend
      obtain ⟨m₂, hawait, h₂, hkv₂⟩ := ih h₁ hrest fun entry hmem => by
        rw [hpending₁, List.mem_filter]
        exact ⟨hin entry (List.mem_cons_of_mem _ hmem),
          decide_eq_true fun heq => hnot (heq ▸ hmem)⟩
      refine ⟨m₂, ?_, h₂, hkv₂.trans hkv₁⟩
      rw [Machine.awaitAll, hwait]
      exact hawait

end

end Machine

namespace ComputeGraph

variable {k : Kernels ε σ} {g : ComputeGraph} {nodes rest : List CNode}
  {n : NodeId} {vals : NodeId → List ε} {kv : σ}

theorem evalFrom_append_ok {vals' : NodeId → List ε} {kv' : σ}
    (h : g.evalFrom k nodes n vals kv = (.ok vals', kv')) :
    g.evalFrom k (nodes ++ rest) n vals kv
      = g.evalFrom k rest (n + nodes.length) vals' kv' := by
  induction nodes generalizing n vals kv with
  | nil =>
      cases h
      rfl
  | cons node nodes ih =>
      rw [evalFrom] at h
      rw [List.cons_append, evalFrom, List.length_cons,
        Nat.add_comm nodes.length, ← Nat.add_assoc]
      cases hstep : g.evalStep k node n vals kv with
      | mk out kv₁ =>
          rw [hstep] at h
          cases out with
          | error e => cases h
          | ok vals₁ => exact ih h

theorem evalFrom_append_error {e : String} {kv' : σ}
    (h : g.evalFrom k nodes n vals kv = (.error e, kv')) :
    g.evalFrom k (nodes ++ rest) n vals kv = (.error e, kv') := by
  induction nodes generalizing n vals kv with
  | nil => cases h
  | cons node nodes ih =>
      rw [evalFrom] at h
      rw [List.cons_append, evalFrom]
      cases hstep : g.evalStep k node n vals kv with
      | mk out kv₁ =>
          rw [hstep] at h
          cases out with
          | error e₁ => exact h
          | ok vals₁ => exact ih h

end ComputeGraph

namespace Machine

section

variable {env : AllocEnv} {k : Kernels ε σ}
  {homes : Nat → NodeId → Option Backend} {g : ComputeGraph}
  {a : GraphAllocator} {vals : NodeId → List ε} {b : Backend} {S : List NodeId}
  {m : Machine ε σ}

/-- A split: its inputs are staged when the backend changes, then its nodes
run. -/
theorem Running.ofSplit (hs : Setup env homes g a) (hk : k.Sized) {split : Split}
    (h : Running k homes g a split.start vals split.backend split.inputs m)
    (hsplit : split ∈ g.splitGraph) :
    Agrees (Resting k homes a)
      (fun vals' m' =>
        Running k homes g a split.stop vals' split.backend split.inputs m')
      (m.executeNodes env k g split.backend
        ((g.nodes.drop split.start).take (split.stop - split.start))
        split.start)
      (g.evalFrom k
        ((g.nodes.drop split.start).take (split.stop - split.start))
        split.start vals m.kv) := by
  have hx := hs.executable
  have htiles := ComputeGraph.splitGraph_tiles hx.assigned
  have hbounds := htiles.bounds split hsplit
  have hlen : ((g.nodes.drop split.start).take
      (split.stop - split.start)).length = split.stop - split.start := by
    rw [List.length_take, List.length_drop]
    have : split.stop ≤ g.nodes.length := hbounds.2
    omega
  have hat : ∀ j node,
      ((g.nodes.drop split.start).take (split.stop - split.start))[j]?
      = some node →
      g.nodes[split.start + j]? = some node ∧ split.start + j ∈ split.ids := by
    intro j node hj
    have hlt : j < split.stop - split.start :=
      hlen ▸ (List.getElem?_eq_some_iff.1 hj).1
    rw [List.getElem?_take_of_lt hlt, List.getElem?_drop] at hj
    exact ⟨hj, Split.mem_ids.2 ⟨Nat.le_add_right .., by omega⟩⟩
  have hnode : ∀ node ∈ (g.nodes.drop split.start).take
      (split.stop - split.start), ∃ n ∈ split.ids,
      g.nodes[n]? = some node := by
    intro node hmem
    obtain ⟨j, hj⟩ := List.mem_iff_getElem?.1 hmem
    obtain ⟨hat, hin⟩ := hat j node hj
    exact ⟨_, hin, hat⟩
  have hrun :=
    h.ofNodes hs hk (fun j node hj => (hat j node hj).1)
    (fun node hmem => ?_) fun node hmem s hsmem => ?_
  · rwa [hlen, Nat.add_sub_cancel' hbounds.1] at hrun
  · obtain ⟨n, hin, hn⟩ := hnode node hmem
    exact htiles.atHome split hsplit n hin node hn
  · obtain ⟨n, hin, hn⟩ := hnode node hmem
    have hlt : s < n := hx.order.sources n node hn s hsmem
    by_cases hbefore : s < split.start
    · refine .inr
        (((ComputeGraph.mem_inputs_outputs hx.order hx.assigned hsplit).1).2
          ⟨hbefore, n, hin, ?_⟩)
      exact ComputeGraph.mem_sourcesOf.2 ⟨node, hn, hsmem⟩
    · have hsin : s ∈ split.ids := by
        have hnin := Split.mem_ids.1 hin
        exact Split.mem_ids.2 ⟨Nat.le_of_not_lt hbefore, Nat.lt_trans hlt hnin.2⟩
      have hslt : s < g.nodes.length :=
        Nat.lt_trans hlt (List.getElem?_eq_some_iff.1 hn).1
      have hsnode : g.nodes[s]? = some g.nodes[s] := List.getElem?_eq_getElem hslt
      rw [hs.homes s _ hsnode]
      exact .inl (congrArg some (htiles.atHome split hsplit s hsin _ hsnode))

/-- What a split's inputs need before it is entered. -/
theorem Setup.input_ready (hs : Setup env homes g a) {split : Split}
    (hsplit : split ∈ g.splitGraph) {x : Nat} (hin : x ∈ split.inputs) :
    x < split.start ∧ split.start ≤ g.need x ∧ (a.nodeToBuf.lookup x).isSome ∧
      (a.pools.lookup split.backend).isSome := by
  have hx := hs.executable
  obtain ⟨hlt, n, hn, hread⟩ :=
    ((ComputeGraph.mem_inputs_outputs hx.order hx.assigned hsplit).1).1 hin
  obtain ⟨node, hnode, hmem⟩ := ComputeGraph.mem_sourcesOf.1 hread
  have hstart := (Split.mem_ids.1 hn).1
  have hxlt : x < g.nNodes :=
    Nat.lt_trans (hx.order.sources n node hnode x hmem)
    (List.getElem?_eq_some_iff.1 hnode).1
  refine ⟨hlt, Nat.le_trans hstart (ComputeGraph.le_need hnode hmem hxlt),
    hs.mapped.placed_of_read hnode hx.order hmem, ?_⟩
  rw [← (ComputeGraph.splitGraph_tiles hx.assigned).atHome split hsplit n hn
    node hnode]
  exact hs.pools node (List.mem_of_getElem? hnode)

/-- The loop over the splits, from node `lo` on. -/
theorem Running.ofSplits (hs : Setup env homes g a) (hk : k.Sized)
    {splits : List Split} {lo : Nat} {prev : Option Backend}
    (h : Running k homes g a lo vals b S m) (htiles : g.Tiles lo splits)
    (hall : ∀ s ∈ splits, s ∈ g.splitGraph) (hfirst : prev = none → lo = 0)
    (hprev : ∀ pb, prev = some pb → ∀ s ∈ splits.head?, pb ≠ s.backend) :
    Agrees (Resting k homes a) (fun vals' m' => ∃ b' S',
      Running k homes g a g.nNodes vals' b' S' m')
      (m.executeSplits env k g prev splits)
        (g.evalFrom k (g.nodes.drop lo) lo vals m.kv) := by
  induction splits generalizing lo prev vals b S m with
  | nil => cases htiles
  | cons split rest ih =>
      have hsplit := hall split List.mem_cons_self
      obtain ⟨hle, hstop⟩ :=
        (ComputeGraph.splitGraph_tiles hs.executable.assigned).bounds
        split hsplit
      have hlo : split.start = lo := by cases htiles <;> rfl
      subst hlo
      -- entering the split
      obtain ⟨m₁, hentered, h₁, hkv₁⟩ : ∃ m₁,
          m.enter env k g.uid prev split = (.ok (), m₁) ∧
          Running k homes g a split.start vals split.backend split.inputs m₁
              ∧ m₁.kv = m.kv := by
        cases prev with
        | some pb =>
            rw [Machine.enter, if_pos (hprev pb rfl split rfl)]
            refine h.boundary hs (fun hne => ?_) fun x hin => ?_
            · obtain ⟨x, hin⟩ := List.exists_mem_of_ne_nil _ hne
              exact (hs.input_ready hsplit hin).2.2.2
            · obtain ⟨hlt, hneed, hplaced, -⟩ := hs.input_ready hsplit hin
              exact ⟨hlt, hneed, hplaced⟩
        | none =>
            refine ⟨m, rfl, { h with inputs := fun x hin _ => ?_ }, rfl⟩
            obtain ⟨hlt, -⟩ := hs.input_ready hsplit hin
            rw [hfirst rfl] at hlt
            exact absurd hlt (Nat.not_lt_zero x)
      have hrun := h₁.ofSplit hs hk hsplit
      have hcut : g.nodes.drop split.start =
          (g.nodes.drop split.start).take (split.stop - split.start)
              ++ g.nodes.drop split.stop := by
        have hdrop : g.nodes.drop split.stop
            = (g.nodes.drop split.start).drop (split.stop - split.start) := by
          rw [List.drop_drop, Nat.add_sub_cancel' hle]
        rw [hdrop, List.take_append_drop]
      have hlen : split.start
          + ((g.nodes.drop split.start).take (split.stop - split.start)).length
          = split.stop := by
        rw [List.length_take, List.length_drop]
        have : split.stop ≤ g.nodes.length := hstop
        omega
      rw [Machine.executeSplits, hentered]
      dsimp only
      generalize (g.nodes.drop split.start).take (split.stop - split.start)
        = part at hrun hcut hlen ⊢
      rw [hcut, ← hkv₁]
      generalize m₁.executeNodes env k g split.backend part split.start = r at hrun
      cases heval : g.evalFrom k part split.start vals m₁.kv with
      | mk out kv =>
          rw [heval] at hrun
          cases hrun with
          | failed run regions rest =>
              rw [ComputeGraph.evalFrom_append_error heval]
              exact .failed (by rw [run]) regions rest
          | @ok vals' m' _ run regions at_ =>
              rw [ComputeGraph.evalFrom_append_ok heval, run, ← regions, hlen]
              dsimp only
              rcases htiles.tail with ⟨rfl, hend⟩ | ⟨t, more, rfl, hdiffer, hnext⟩
              · rw [hend, ComputeGraph.nNodes, List.drop_length]
                rw [hend] at at_
                exact .ok rfl rfl ⟨_, _, at_⟩
              · refine ih at_ hnext
                  (fun s hmem => hall s (List.mem_cons_of_mem _ hmem))
                  (fun hnone => by cases hnone)
                  fun pb hpb s hhead => ?_
                cases hpb
                rw [List.head?_cons, Option.mem_some_iff] at hhead
                exact hhead ▸ hdiffer

/-- The whole execution. -/
theorem Running.execute (hs : Setup env homes g a) (hk : k.Sized)
    (h : Running k homes g a 0 vals b S m) :
    Agrees (Resting k homes a) (fun vals' m' => ∃ b' S',
      Running k homes g a g.nNodes vals' b' S' m')
      (m.execute env k true g) (g.eval k vals m.kv) := by
  have hrun :=
    h.ofSplits hs hk (ComputeGraph.splitGraph_tiles hs.executable.assigned)
    (fun s hmem => hmem)
    (fun _ : none = none => rfl) fun pb hpb => by cases hpb
  rw [Machine.execute, Bool.not_true, if_neg Bool.false_ne_true, ComputeGraph.eval]
  rw [List.drop_zero] at hrun
  generalize m.executeSplits env k g none g.splitGraph = r at hrun
  generalize g.evalFrom k g.nodes 0 vals m.kv = v at hrun
  cases hrun with
  | failed run regions rest => exact .failed (by rw [run]) regions rest
  | ok run regions at_ =>
      obtain ⟨b', S', hend⟩ := at_
      obtain ⟨m', hdrain, hend', hkv⟩ := hend.awaitAll hs hend.once fun _ => id
      rw [run]
      exact .ok hdrain (hkv.trans regions) ⟨b', S', hend'⟩

end

end Machine
end Minfer.Graph
