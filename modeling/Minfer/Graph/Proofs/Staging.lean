/-
Staging copies during an execution.

A staging buffer is in nobody else's hand, so writing it disturbs no node and
no other copy. What it holds when its copy has arrived is known as soon as
the copy is asked for: the elements in flight, or what it holds already
(`arriving`). An execution keeps that this is the node's value, for every
copy that is pending and for every input of the split it is in (`Running`);
asking for a copy, waiting for it and reading it all keep this, whether the
backends copy at once or later.
-/
import Minfer.Graph.Proofs.Apart

namespace Minfer.Graph

open GraphAllocator

-- ============================= buffers

namespace GraphAllocator

variable {a a' : GraphAllocator} {env : AllocEnv}

/-- An activation is no staging buffer. -/
theorem Sound.active_not_staged (h : a.Sound) {key : BufKey}
    (hactive : a.Active key) {entry : CrossKey} :
    ¬a.Holds key (.staged entry) := by
  intro hstaged
  rcases hactive with hlive | ⟨cls, hidle⟩
  · exact nomatch h.custody.exclusive hlive hstaged
  · exact nomatch h.custody.exclusive hidle hstaged

theorem Sound.staged_apart (h : a.Sound) {entry entry' : CrossKey}
    {cb cb' : BufRef} (hcb : a.cross.lookup entry = some cb)
    (hcb' : a.cross.lookup entry' = some cb') (hne : entry ≠ entry') :
    cb.key ≠ cb'.key := by
  intro hkey
  have hstaged : a.Holds cb.key (.staged entry) := ⟨cb, hcb, rfl⟩
  have hstaged' : a.Holds cb.key (.staged entry') := ⟨cb', hcb', hkey.symm⟩
  exact hne (Hand.staged.inj (h.custody.exclusive hstaged hstaged'))

/-- What a request for a staging buffer leaves of the allocator. -/
structure StagedFor (a : GraphAllocator) (entry : CrossKey) (cb : BufRef)
    (a' : GraphAllocator) : Prop where
  sound : a'.Sound
  nodeToBuf : a'.nodeToBuf = a.nodeToBuf
  pending : a'.crossPending = a.crossPending
  staged : a'.cross.lookup entry = some cb
  others : ∀ entry', entry' ≠ entry → a'.cross.lookup entry' = a.cross.lookup entry'
  active : ∀ {key}, a.Active key → a'.Active key
  pools : ∀ b, (a.pools.lookup b).isSome → (a'.pools.lookup b).isSome

theorem staged_spec {uid : Nat} {node : NodeId} {dst : Backend} {len : Nat}
    (h : a.Sound) (hnone : a.cross.lookup (uid, node, dst) = none)
    (hpool : (a.pools.lookup dst).isSome) :
    ∃ cb, (crossStaging.staged env uid node dst a len).1 = .ok cb ∧ cb.len = len ∧
      StagedFor a (uid, node, dst) cb
        (crossStaging.staged env uid node dst a len).2 := by
  have hsound : (crossStaging.staged env uid node dst a len).2.Sound :=
    staged_sound h hnone
  rw [crossStaging.staged] at hsound ⊢
  cases hgot : a.allocFreshIn env dst len with
  | mk out a₁ =>
      rw [hgot] at hsound
      rcases allocFreshIn_spec h.custody hgot with ⟨e, rfl, -⟩
        | ⟨id, rfl, htook, -, hslots⟩
      · obtain ⟨p, hp⟩ := Option.isSome_iff_exists.1 hpool
        rw [allocFreshIn, inPool, hp] at hgot
        cases hgot
      · refine ⟨.own dst id len, rfl, rfl, hsound, htook.nodeToBuf, ?_,
          AList.lookup_insert _, fun entry' hne => ?_,
          fun {key} hactive => ?_, fun b hb => ?_⟩
        · have haside : Aside a (a.allocFreshIn env dst len).2 := inPool_aside
          rw [hgot] at haside
          exact haside.pending
        · exact (AList.lookup_insert_ne hne).trans (by rw [htook.cross])
        · rcases hactive with ⟨al, hal⟩ | ⟨cls, s, hs, hin⟩
          · exact .inl ⟨al, htook.bufAlive ▸ hal⟩
          · exact .inr ⟨cls, s, hslots ▸ hs, hin⟩
        · have haside : Aside a (a.allocFreshIn env dst len).2 := inPool_aside
          rw [hgot] at haside
          exact haside.pools b hb

/-- `cross_staging` gives a buffer of the node's length, and takes only that
entry's old one. -/
theorem crossStaging_spec {uid : Nat} {node : NodeId} {dst : Backend}
    {br : BufRef} (h : a.Sound) (hbr : a.nodeToBuf.lookup node = some br)
    (hpool : (a.pools.lookup dst).isSome) :
    ∃ cb, (a.crossStaging env uid node dst).1 = .ok cb ∧ cb.len = br.len ∧
      StagedFor a (uid, node, dst) cb (a.crossStaging env uid node dst).2 := by
  rw [crossStaging, hbr]
  dsimp only
  cases hcb : a.cross.lookup (uid, node, dst) with
  | none => exact staged_spec h hcb hpool
  | some cb =>
      dsimp only
      split
      next hlen =>
        exact ⟨cb, rfl, hlen, h, rfl, rfl, hcb, fun _ _ => rfl, id,
          fun _ => id⟩
      next =>
        set a₁ : GraphAllocator :=
          { a with cross := a.cross.erase (uid, node, dst) } with ha₁
        have huse : SameUse a₁ (a₁.freeInPool cb.key) := freeInPool_sameUse
        have haside : Aside a₁ (a₁.freeInPool cb.key) := freeInPool_aside
        have hgone : (a₁.freeInPool cb.key).cross.lookup (uid, node, dst) = none := by
          rw [huse.cross]
          exact AList.lookup_erase ..
        obtain ⟨cb', hok, hlen, hfor⟩ : ∃ cb',
            (crossStaging.staged env uid node dst
              (a₁.freeInPool cb.key) br.len).1 = .ok cb' ∧
            cb'.len = br.len ∧ StagedFor (a₁.freeInPool cb.key) (uid, node, dst) cb'
              (crossStaging.staged env uid node dst
                  (a₁.freeInPool cb.key) br.len).2 :=
          staged_spec (unstage_sound h hcb) hgone (haside.pools dst hpool)
        refine ⟨cb', hok, hlen, hfor.sound,
          hfor.nodeToBuf.trans huse.nodeToBuf,
          hfor.pending.trans haside.pending, hfor.staged,
          fun entry' hne => ?_, fun {key} hactive =>
            hfor.active ?_, fun b hb => hfor.pools b (haside.pools b hb)⟩
        · rw [hfor.others entry' hne, huse.cross]
          exact AList.lookup_erase_ne hne
        · rcases hactive with ⟨al, hal⟩ | ⟨cls, hidle⟩
          · exact .inl ⟨al, by rw [huse.bufAlive]; exact hal⟩
          · have hidle₁ : a₁.Holds key (.idle cls) := hidle
            exact .inr ⟨cls, freeInPool_keeps_idle hidle₁⟩

end GraphAllocator

-- ============================== memory

namespace Machine

variable {ε σ : Type} {m : Machine ε σ} {r r' : BufRef} {data : List ε}

@[simp] theorem length_read : (m.read r).length = r.len := by
  rw [Machine.read, List.length_map, List.length_range]

@[simp] theorem getElem_read {i : Nat} (h : i < (m.read r).length) :
    (m.read r)[i] = m.mem r.key (r.offset + i) := by
  simp [Machine.read]

@[simp] theorem write_alloc : (m.write r data).alloc = m.alloc := rfl

@[simp] theorem write_inFlight : (m.write r data).inFlight = m.inFlight := rfl

@[simp] theorem write_kv : (m.write r data).kv = m.kv := rfl

/-- A window reads what was written to it. -/
theorem read_write (hlen : data.length = r.len) : (m.write r data).read r = data := by
  refine List.ext_getElem (by rw [length_read, hlen]) fun i hi hi' => ?_
  rw [getElem_read, Machine.write]
  dsimp only
  rw [if_pos ⟨rfl, Nat.le_add_right ..⟩, Nat.add_sub_cancel_left,
    List.take_of_length_le (Nat.le_of_eq hlen),
    List.getElem?_eq_getElem hi', Option.getD_some]

/-- A window that has no element in common is as it was. -/
theorem read_write_apart (h : r'.key ≠ r.key ∨ r'.Disjoint r) :
    (m.write r data).read r' = m.read r' := by
  rw [Machine.read, Machine.read]
  refine List.map_congr_left fun i hi => ?_
  have hlt := List.mem_range.1 hi
  rw [Machine.write]
  dsimp only
  split
  next hin =>
    obtain ⟨hkey, hle⟩ := hin
    have hdis := h.resolve_left (not_not.2 hkey)
    rw [List.getElem?_eq_none, Option.getD_none]
    rw [List.length_take]
    rw [BufRef.Disjoint] at hdis
    omega
  next => rfl

/-- A window of a window. -/
theorem read_window {off len : Nat} (hfits : off + len ≤ r.len) :
    m.read (r.window off len) = ((m.read r).drop off).take len := by
  refine List.ext_getElem ?_ fun i hi hi' => ?_
  · have hlen : len ≤ r.len - off := Nat.le_sub_of_add_le' hfits
    rw [length_read, List.length_take, List.length_drop, length_read]
    exact (Nat.min_eq_left hlen).symm
  · rw [List.getElem_take, List.getElem_drop, getElem_read, getElem_read,
      BufRef.window_key, BufRef.window, Nat.add_assoc]

-- ============================= running

/-- What a staging buffer holds when its copy has arrived. -/
def arriving (m : Machine ε σ) (entry : CrossKey) (cb : BufRef) : List ε :=
  if m.alloc.crossPending.contains entry
    then (m.inFlight entry).getD (m.read cb) else m.read cb

theorem arriving_pending {m : Machine ε σ} {entry : CrossKey} {cb : BufRef}
    (h : entry ∈ m.alloc.crossPending) :
    m.arriving entry cb = (m.inFlight entry).getD (m.read cb) := by
  rw [arriving, if_pos (List.contains_iff_mem.2 h)]

theorem arriving_settled {m : Machine ε σ} {entry : CrossKey} {cb : BufRef}
    (h : entry ∉ m.alloc.crossPending) :
    m.arriving entry cb = m.read cb := by
  rw [arriving, if_neg (mt List.contains_iff_mem.1 h)]

/-- Copies are of the graphs `homes` knows and go to where their node is not,
and what is in flight is what the backends enqueue. -/
structure Tidy (k : Kernels ε σ) (homes : Nat → NodeId → Option Backend)
    (m : Machine ε σ) : Prop where
  away : ∀ {uid n dst cb}, m.alloc.cross.lookup (uid, n, dst) = some cb →
    ∃ home, homes uid n = some home ∧ home ≠ dst
  flights : ∀ {uid n dst}, m.inFlight (uid, n, dst) ≠ none →
    ∃ home, homes uid n = some home ∧ k.asyncCopies = true
      ∧ k.enqueues home dst = true

theorem Tidy.not_home {k : Kernels ε σ} {homes : Nat → NodeId → Option Backend}
    (h : m.Tidy k homes) {uid : Nat} {n : NodeId} {dst : Backend} {cb : BufRef}
    (hcb : m.alloc.cross.lookup (uid, n, dst) = some cb) :
    homes uid n ≠ some dst := by
  obtain ⟨home, hknown, hne⟩ := h.away hcb
  rw [hknown]
  exact fun heq => hne (Option.some.inj heq)

/-- The node is staged for a backend: its copy is there, or on its way. -/
structure Staged (g : ComputeGraph) (a : GraphAllocator) (m : Machine ε σ)
    (n : NodeId) (dst : Backend) (data : List ε) : Prop where
  placed : (a.nodeToBuf.lookup n).isSome
  arrives : ∃ cb, m.alloc.cross.lookup (g.uid, n, dst) = some cb ∧
    (g.Plain n → data.length = cb.len ∧ m.arriving (g.uid, n, dst) cb = data)

/-- What an execution relies on: the allocator is mapped onto the graph, and
the nodes' backends are there. -/
structure Setup (env : AllocEnv) (homes : Nat → NodeId → Option Backend)
    (g : ComputeGraph) (a : GraphAllocator) : Prop where
  executable : g.Executable
  mapped : Mapped g a
  homes : ∀ n node, g.nodes[n]? = some node → homes g.uid n = some node.home
  registered : ∀ node ∈ g.nodes, env.isRegistered node.home = true
  pools : ∀ node ∈ g.nodes, (a.pools.lookup node.home).isSome

/-- Before node `i`: the nodes that are still needed have their values, and
so have the copies that are pending and the inputs `S` of the split on `b`. -/
structure Running (k : Kernels ε σ) (homes : Nat → NodeId → Option Backend)
    (g : ComputeGraph) (a : GraphAllocator) (i : Nat) (vals : NodeId → List ε)
    (b : Backend) (S : List NodeId) (m : Machine ε σ) : Prop where
  bufs : m.alloc.nodeToBuf = a.nodeToBuf
  sound : m.alloc.Sound
  active : ∀ {key}, a.Active key → m.alloc.Active key
  pools : ∀ b, (a.pools.lookup b).isSome → (m.alloc.pools.lookup b).isSome
  tidy : m.Tidy k homes
  values : ∀ {n r}, Needed g a i n r → m.read r = vals n
  regions : ∀ {n node}, n < i → g.nodes[n]? = some node →
    node.op.onRegion = true → vals n = []
  once : m.alloc.crossPending.Nodup
  own : ∀ {uid n dst}, (uid, n, dst) ∈ m.alloc.crossPending →
    uid = g.uid ∧ n < i ∧ Staged g a m n dst (vals n)
  inputs : ∀ n ∈ S, homes g.uid n ≠ some b → n < i ∧ Staged g a m n b (vals n)

/-- One staging entry was worked on. -/
structure Restaged (entry : CrossKey) (m m' : Machine ε σ) : Prop where
  bufs : m'.alloc.nodeToBuf = m.alloc.nodeToBuf
  sound : m'.alloc.Sound
  active : ∀ {key}, m.alloc.Active key → m'.alloc.Active key
  pools : ∀ b, (m.alloc.pools.lookup b).isSome → (m'.alloc.pools.lookup b).isSome
  kv : m'.kv = m.kv
  reads : ∀ {r : BufRef}, m.alloc.Active r.key → m'.read r = m.read r
  cross : ∀ entry', entry' ≠ entry →
    m'.alloc.cross.lookup entry' = m.alloc.cross.lookup entry'
  pending : ∀ entry', entry' ≠ entry →
    (entry' ∈ m'.alloc.crossPending ↔ entry' ∈ m.alloc.crossPending)
  inFlight : ∀ entry', entry' ≠ entry → m'.inFlight entry' = m.inFlight entry'
  copies : ∀ {entry' cb}, entry' ≠ entry →
    m.alloc.cross.lookup entry' = some cb → m'.read cb = m.read cb

section

variable {env : AllocEnv} {k : Kernels ε σ}
  {homes : Nat → NodeId → Option Backend} {g : ComputeGraph}
  {a : GraphAllocator} {i : Nat} {vals : NodeId → List ε} {b : Backend}
  {S : List NodeId} {m' : Machine ε σ} {entry : CrossKey}
variable {n : NodeId}

/-- The other entries' copies are as they were. -/
theorem Restaged.staged (h : Restaged entry m m') {dst : Backend}
    (hne : (g.uid, n, dst) ≠ entry)
    (hstaged : Staged g a m n dst data) : Staged g a m' n dst data := by
  obtain ⟨hplaced, cb, hcb, harrives⟩ := hstaged
  refine ⟨hplaced, cb, (h.cross _ hne).trans hcb, fun hplain => ?_⟩
  have hread := h.copies hne hcb
  obtain ⟨hlen, hdata⟩ := harrives hplain
  refine ⟨hlen, ?_⟩
  by_cases hin : (g.uid, n, dst) ∈ m.alloc.crossPending
  · rw [arriving_pending ((h.pending _ hne).2 hin), h.inFlight _ hne, hread]
    rwa [arriving_pending hin] at hdata
  · rw [arriving_settled (mt (h.pending _ hne).1 hin), hread]
    rwa [arriving_settled hin] at hdata

/-- Work on one entry keeps the execution going, when that entry is in
order afterwards. -/
theorem Running.restage (hs : Setup env homes g a)
    (h : Running k homes g a i vals b S m) {dst : Backend}
    (hr : Restaged (g.uid, n, dst) m m') (htidy : m'.Tidy k homes)
    (honce : m'.alloc.crossPending.Nodup)
    (hlt : n < i) (hstaged : Staged g a m' n dst (vals n)) :
    Running k homes g a i vals b S m' where
  bufs := hr.bufs.trans h.bufs
  sound := hr.sound
  active hkey := hr.active (h.active hkey)
  pools b hb := hr.pools b (h.pools b hb)
  tidy := htidy
  values := by
    intro n r hn
    obtain ⟨node, hnode⟩ := hs.mapped.node_of hn.buf
    have hactive :=
      hs.mapped.active_of hs.executable hnode (hn.plain node hnode) hn.buf
    exact (hr.reads (h.active hactive)).trans (h.values hn)
  regions := h.regions
  once := honce
  own := by
    intro uid n' dst' hmem
    by_cases heq : (uid, n', dst') = (g.uid, n, dst)
    · cases heq
      exact ⟨rfl, hlt, hstaged⟩
    · obtain ⟨rfl, hlt', hst⟩ := h.own ((hr.pending _ heq).1 hmem)
      exact ⟨rfl, hlt', hr.staged heq hst⟩
  inputs := by
    intro n' hmem haway
    obtain ⟨hlt', hst⟩ := h.inputs n' hmem haway
    by_cases heq : (g.uid, n', b) = (g.uid, n, dst)
    · cases heq
      exact ⟨hlt, hstaged⟩
    · exact ⟨hlt', hr.staged heq hst⟩

/-- Writing a staging buffer disturbs nobody else. -/
theorem restaged_write {cb : BufRef} {flights : CrossKey → Option (List ε)}
    {pending : List CrossKey} (hsound : m.alloc.Sound)
    (hcb : m.alloc.cross.lookup entry = some cb)
    (hpending : ∀ entry', entry' ≠ entry →
      (entry' ∈ pending ↔ entry' ∈ m.alloc.crossPending))
    (hflights : ∀ entry', entry' ≠ entry → flights entry' = m.inFlight entry') :
    Restaged entry m
      { m.write cb data with
        alloc := { m.alloc with crossPending := pending }
        inFlight := flights } where
  bufs := rfl
  sound := ⟨hsound.custody.congr rfl rfl rfl rfl fun _ hal => hal,
    hsound.classed, hsound.regions⟩
  active := id
  pools _ := id
  kv := rfl
  reads := by
    intro r hactive
    have hnot : ¬m.alloc.Holds r.key (.staged entry) :=
      hsound.active_not_staged hactive
    exact read_write_apart (.inl fun heq => hnot ⟨cb, hcb, heq.symm⟩)
  cross _ _ := rfl
  pending := hpending
  inFlight := hflights
  copies := by
    intro entry' cb' hne hcb'
    exact read_write_apart (.inl (hsound.staged_apart hcb' hcb hne))

theorem Setup.backend (hs : Setup env homes g a) {r : BufRef}
    (hr : a.nodeToBuf.lookup n = some r) :
    homes g.uid n = some r.backend ∧ env.isRegistered r.backend = true
      ∧ (a.pools.lookup r.backend).isSome := by
  obtain ⟨node, hnode⟩ := hs.mapped.node_of hr
  have hhome := (hs.mapped.laid n node hnode).at_home hr
  have hmem := List.mem_of_getElem? hnode
  rw [hhome]
  exact ⟨hs.homes n node hnode, hs.registered node hmem, hs.pools node hmem⟩

/-- One more input of the split. -/
theorem Running.cons (h : Running k homes g a i vals b S m) (hlt : n < i)
    (hstaged : homes g.uid n ≠ some b → Staged g a m n b (vals n)) :
    Running k homes g a i vals b (n :: S) m := by
  refine { h with inputs := fun n' hmem haway => ?_ }
  rcases List.mem_cons.1 hmem with rfl | hmem
  · exact ⟨hlt, hstaged haway⟩
  · exact h.inputs n' hmem haway

/-- Phase A was made on a buffer for the copy. -/
theorem Running.copied (hs : Setup env homes g a)
    (h : Running k homes g a i vals b S m) {r cb : BufRef}
    {a₁ : GraphAllocator} (hlt : n < i) (hneed : i ≤ g.need n)
    (hr : a.nodeToBuf.lookup n = some r) (haway : homes g.uid n ≠ some b)
    (hpend : (g.uid, n, b) ∉ m.alloc.crossPending)
    (hfor : StagedFor m.alloc (g.uid, n, b) cb a₁) (hlen : cb.len = r.len)
    (halloc : m'.alloc
      = { a₁ with crossPending := (g.uid, n, b) :: a₁.crossPending })
    (hkv : m'.kv = m.kv)
    (hreads : ∀ {r : BufRef}, m.alloc.Active r.key → m'.read r = m.read r)
    (hcopies : ∀ {entry cb}, entry ≠ (g.uid, n, b) →
      m.alloc.cross.lookup entry = some cb → m'.read cb = m.read cb)
    (hinFlight : ∀ entry, entry ≠ (g.uid, n, b) →
      m'.inFlight entry = m.inFlight entry)
    (hflight : m'.inFlight (g.uid, n, b) ≠ none →
      k.asyncCopies = true ∧ k.enqueues r.backend b = true)
    (harrives : (m'.inFlight (g.uid, n, b)).getD (m'.read cb) = m.read r) :
    Running k homes g a i vals b (n :: S) m' := by
  have hhome := (hs.backend hr).1
  have hpending : m'.alloc.crossPending
    = (g.uid, n, b) :: m.alloc.crossPending := by rw [halloc, ← hfor.pending]
  have hcross : m'.alloc.cross = a₁.cross := by rw [halloc]
  have hr' : Restaged (g.uid, n, b) m m' :=
    { bufs := by rw [halloc]; exact hfor.nodeToBuf
      sound := by
        rw [halloc]
        exact ⟨hfor.sound.custody.congr rfl rfl rfl rfl fun _ hal => hal,
          hfor.sound.classed, hfor.sound.regions⟩
      active := fun hkey => by rw [halloc]; exact hfor.active hkey
      pools := fun b' hb' => by rw [halloc]; exact hfor.pools b' hb'
      kv := hkv
      reads := hreads
      cross := fun entry hne => by rw [hcross]; exact hfor.others entry hne
      pending := fun entry hne => by
        rw [hpending, List.mem_cons]
        exact ⟨fun hor => hor.resolve_left hne, .inr⟩
      inFlight := hinFlight
      copies := hcopies }
  have hstaged : Staged g a m' n b (vals n) := by
    refine ⟨by rw [hr]; rfl, cb, by rw [hcross]; exact hfor.staged, fun hplain => ?_⟩
    have hvalue : m.read r = vals n := h.values ⟨.inl hlt, hneed, hr, hplain⟩
    refine ⟨by rw [← hvalue, length_read, hlen], ?_⟩
    have hin : (g.uid, n, b) ∈ m'.alloc.crossPending := hpending ▸ List.mem_cons_self
    rw [arriving_pending hin, harrives, hvalue]
  have htidy : m'.Tidy k homes := by
    refine ⟨fun {uid n' dst cb'} hcb' => ?_, fun {uid n' dst} hfl => ?_⟩
    · by_cases heq : (uid, n', dst) = (g.uid, n, b)
      · cases heq
        exact ⟨r.backend, hhome, fun heq => haway (hhome.trans (congrArg some heq))⟩
      · exact h.tidy.away ((hfor.others _ heq).symm.trans (hcross ▸ hcb'))
    · by_cases heq : (uid, n', dst) = (g.uid, n, b)
      · cases heq
        exact ⟨r.backend, hhome, hflight hfl⟩
      · exact h.tidy.flights (hinFlight _ heq ▸ hfl)
  have honce : m'.alloc.crossPending.Nodup :=
    hpending ▸ List.nodup_cons.2 ⟨hpend, h.once⟩
  exact (h.restage hs hr' htidy honce hlt hstaged).cons hlt fun _ => hstaged

/-- Phase A: the node is staged, whether the copy was made or enqueued. -/
theorem Running.copyAcross (hs : Setup env homes g a)
    (h : Running k homes g a i vals b S m) {r : BufRef}
    (hlt : n < i) (hneed : i ≤ g.need n) (hr : a.nodeToBuf.lookup n = some r)
    (hpool : (a.pools.lookup b).isSome) :
    ∃ m', m.copyAcross env k g.uid n b = (.ok (), m')
      ∧ Running k homes g a i vals b (n :: S) m' ∧ m'.kv = m.kv := by
  obtain ⟨hhome, hreg, hpool'⟩ := hs.backend hr
  have hbuf : m.alloc.nodeToBuf.lookup n = some r := h.bufs ▸ hr
  rw [Machine.copyAcross, hbuf]
  dsimp only
  by_cases hsame : r.backend = b
  · rw [if_pos hsame]
    exact ⟨m, rfl, h.cons hlt fun haway =>
      absurd (hhome.trans (congrArg some hsame)) haway, rfl⟩
  rw [if_neg hsame]
  have haway : homes g.uid n ≠ some b :=
    fun heq => hsame (Option.some.inj (hhome.symm.trans heq))
  by_cases hpend : (g.uid, n, b) ∈ m.alloc.crossPending
  · rw [if_pos hpend]
    exact ⟨m, rfl, h.cons hlt fun _ => (h.own hpend).2.2, rfl⟩
  rw [if_neg hpend]
  obtain ⟨cb, hok, hlen, hfor⟩ : ∃ cb, (m.alloc.crossStaging env g.uid n b).1
      = .ok cb ∧ cb.len = r.len ∧
      StagedFor m.alloc (g.uid, n, b) cb (m.alloc.crossStaging env g.uid n b).2 :=
    crossStaging_spec h.sound hbuf (h.pools b hpool)
  cases hgot : m.alloc.crossStaging env g.uid n b with
  | mk out a₁ =>
      rw [hgot] at hok hfor
      cases hok
      dsimp only
      rw [hreg, Bool.not_true, Bool.and_false, if_neg Bool.false_ne_true]
      by_cases henq : (k.asyncCopies && k.enqueues r.backend b) = true
      · rw [if_pos henq]
        rw [Bool.and_eq_true] at henq
        refine ⟨_, rfl,
          h.copied hs hlt hneed hr haway hpend hfor hlen rfl rfl (fun _ => rfl)
            (fun _ _ => rfl)
          (fun entry hne => Function.update_of_ne hne ..) (fun _ => henq) ?_, rfl⟩
        dsimp only
        rw [Function.update_self]
        rfl
      · rw [if_neg henq]
        -- nothing is in flight for a copy that is made at once
        have hnone : m.inFlight (g.uid, n, b) = none := by
          by_contra hflight
          obtain ⟨home, hknown, hasync, hq⟩ := h.tidy.flights hflight
          rw [hhome] at hknown
          cases hknown
          rw [hasync, hq] at henq
          exact henq rfl
        set m₁ : Machine ε σ :=
          { m with alloc :=
            { a₁ with crossPending := (g.uid, n, b) :: a₁.crossPending } }
          with hm₁
        have hpools : m₁.hasPool r.backend = true ∧ m₁.hasPool b = true :=
          ⟨hfor.pools _ (h.pools _ hpool'), hfor.pools _ (h.pools _ hpool)⟩
        rw [hpools.1, hpools.2, Bool.not_true, if_neg Bool.false_ne_true,
          if_neg Bool.false_ne_true]
        have hsound₁ : m₁.alloc.Sound :=
          ⟨hfor.sound.custody.congr rfl rfl rfl rfl fun _ hal => hal,
            hfor.sound.classed, hfor.sound.regions⟩
        have hw : Restaged (g.uid, n, b) m₁ { m₁.write cb (m₁.read r) with
            alloc := { m₁.alloc with crossPending := m₁.alloc.crossPending },
                inFlight := m₁.inFlight } :=
          restaged_write hsound₁ hfor.staged (fun _ _ => .rfl) fun _ _ => rfl
        refine ⟨_, rfl,
          h.copied hs hlt hneed hr haway hpend hfor hlen
            rfl rfl (fun hkey => hw.reads (hfor.active hkey))
          (fun hne hcb' => hw.copies hne ((hfor.others _ hne).trans hcb'))
            (fun _ _ => rfl)
          (fun hflight => absurd hnone hflight) ?_, rfl⟩
        rw [write_inFlight, hnone, Option.getD_none]
        exact read_write (by rw [length_read, hlen])

/-- Phase B: the copy arrives, and the entry is no longer pending. -/
theorem Running.awaitCross (hs : Setup env homes g a)
    (h : Running k homes g a i vals b S m) {dst : Backend}
    (hin : (g.uid, n, dst) ∈ m.alloc.crossPending) :
    ∃ m', m.awaitCross env g.uid n dst = (.ok (), m')
      ∧ Running k homes g a i vals b S m' ∧ m'.kv = m.kv ∧
      m'.alloc.cross = m.alloc.cross ∧
        m'.alloc.crossPending
          = m.alloc.crossPending.filter (· ≠ (g.uid, n, dst)) := by
  obtain ⟨-, hlt, hplaced, cb, hcb, harrives⟩ := h.own hin
  obtain ⟨r, hr⟩ := Option.isSome_iff_exists.1 hplaced
  obtain ⟨hhome, hreg, -⟩ := hs.backend hr
  have haway : r.backend ≠ dst :=
    fun heq => h.tidy.not_home hcb (hhome.trans (congrArg some heq))
  have hrest : ∀ entry, entry ≠ (g.uid, n, dst) →
      (entry ∈ m.alloc.crossPending.filter (· ≠ (g.uid, n, dst))
          ↔ entry ∈ m.alloc.crossPending) := by
    intro entry hne
    rw [List.mem_filter]
    exact ⟨fun hand => hand.1, fun hmem => ⟨hmem, decide_eq_true hne⟩⟩
  have hgone : (g.uid, n, dst) ∉ m.alloc.crossPending.filter
      (· ≠ (g.uid, n, dst)) := fun hmem =>
    of_decide_eq_true (List.mem_filter.1 hmem).2 rfl
  have honce : (m.alloc.crossPending.filter (· ≠ (g.uid, n, dst))).Nodup :=
    h.once.filter _
  rw [Machine.awaitCross, h.bufs, hr]
  dsimp only
  rw [if_neg haway, hreg, Bool.not_true, if_neg Bool.false_ne_true, hcb]
  cases hflight : m.inFlight (g.uid, n, dst) with
  | none =>
      refine ⟨_, rfl, h.restage hs ?_ ⟨h.tidy.away, h.tidy.flights⟩ honce hlt
        ⟨hplaced, cb, hcb, fun hplain => ?_⟩, rfl, rfl, rfl⟩
      · exact ⟨rfl,
          ⟨h.sound.custody.congr rfl rfl rfl rfl fun _ hal => hal,
            h.sound.classed, h.sound.regions⟩, id,
          fun _ => id, rfl, fun _ => rfl, fun _ _ => rfl, hrest, fun _ _ =>
            rfl, fun _ _ => rfl⟩
      · obtain ⟨hlen, hdata⟩ := harrives hplain
        refine ⟨hlen, ?_⟩
        rw [arriving_pending hin, hflight, Option.getD_none] at hdata
        rw [arriving_settled hgone]
        exact hdata
  | some data =>
      refine ⟨_, rfl, h.restage hs (restaged_write h.sound hcb hrest fun entry hne =>
        Function.update_of_ne hne ..)
          ⟨h.tidy.away, fun {uid n' dst'} hfl => ?_⟩ honce hlt
        ⟨hplaced, cb, hcb, fun hplain => ?_⟩, rfl, rfl, rfl⟩
      · refine h.tidy.flights fun hnone => hfl ?_
        dsimp only
        by_cases heq : (uid, n', dst') = (g.uid, n, dst)
        · rw [heq, Function.update_self]
        · rw [Function.update_of_ne heq]
          exact hnone
      · obtain ⟨hlen, hdata⟩ := harrives hplain
        refine ⟨hlen, ?_⟩
        rw [arriving_pending hin, hflight, Option.getD_some] at hdata
        rw [arriving_settled hgone, ← hdata]
        exact read_write (hdata ▸ hlen)

end

end Machine
end Minfer.Graph
