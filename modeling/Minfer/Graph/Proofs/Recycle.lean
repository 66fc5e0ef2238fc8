/-
Recycling never destroys a value still needed.

A node's *need* is when the graph itself reads it last: `last_use` before
any alias is known. It never changes, and it is all that recycling has to
respect, because an alias is a reader: what is read through a view or an
in-place node is read by that node first. So the walk keeps, of every node
that has a buffer, that the buffer is a region, or alive for as long as the
node's deadline, or the node is needed no more (`WalkOk.held`); a buffer
that is handed out is neither alive nor a region, and its former holders are
needed no more.
-/
import Minfer.Graph.Proofs.Placement

namespace Minfer.Graph

open GraphAllocator

-- =============================== needs

/-- An entry of a liveness table. -/
def due (table : List Nat) (n : NodeId) : Nat := (table[n]?).getD 0

variable {m n : NodeId}

theorem due_set {table : List Nat} {v : Nat} :
    due (table.set n v) m = if m = n ∧ n < table.length then v else due table m := by
  rw [due, due, List.getElem?_set]
  by_cases heq : n = m
  · subst heq
    by_cases hlt : n < table.length
    · rw [if_pos rfl, if_pos hlt, if_pos ⟨rfl, hlt⟩, Option.getD_some]
    · rw [if_pos rfl, if_neg hlt, if_neg fun h => hlt h.2,
        List.getElem?_eq_none (Nat.le_of_not_lt hlt)]
  · rw [if_neg heq, if_neg fun h => heq h.1.symm]

theorem due_modify {table : List Nat} {f : Nat → Nat} :
    due (table.modify n f) m = if m = n ∧ n < table.length then f (due table m)
      else due table m := by
  rw [due, due, List.getElem?_modify]
  by_cases heq : n = m
  · subst heq
    by_cases hlt : n < table.length
    · rw [if_pos ⟨rfl, hlt⟩, List.getElem?_eq_getElem hlt]
      simp
    · rw [if_neg fun h => hlt h.2, List.getElem?_eq_none (Nat.le_of_not_lt hlt)]
      rfl
  · rw [if_neg fun h => heq h.1.symm]
    simp [heq]

namespace ComputeGraph

variable {g : ComputeGraph}

/-- The last step that reads the node directly; the end of the run for
outputs and inputs. -/
def need (g : ComputeGraph) (n : NodeId) : Nat := due g.lastUses n

/-- The node is an input. -/
def InputNode (g : ComputeGraph) (n : NodeId) : Prop :=
  ∃ node, g.nodes[n]? = some node ∧ node.isInput = true

variable {table : List Nat}

theorem length_setAt {ids : List NodeId} {v : Nat} :
    (setAt table ids v).length = table.length := by
  induction ids generalizing table with
  | nil => rfl
  | cons id rest ih =>
      rw [setAt, List.foldl_cons]
      exact ih.trans List.length_set

theorem due_setAt {ids : List NodeId} {v n : Nat} :
    due (setAt table ids v) n = if n ∈ ids ∧ n < table.length then v
      else due table n := by
  induction ids generalizing table with
  | nil => rw [if_neg fun h => List.not_mem_nil h.1]; rfl
  | cons id rest ih =>
      have hstep : setAt table (id :: rest) v = setAt (table.set id v) rest v := rfl
      rw [hstep, ih, List.length_set, due_set]
      by_cases hlt : n < table.length
      · by_cases hrest : n ∈ rest
        · rw [if_pos ⟨hrest, hlt⟩, if_pos ⟨List.mem_cons_of_mem _ hrest, hlt⟩]
        · rw [if_neg fun h => hrest h.1]
          by_cases heq : n = id
          · rw [if_pos ⟨heq, heq ▸ hlt⟩, if_pos ⟨heq ▸ List.mem_cons_self, hlt⟩]
          · rw [if_neg fun h => heq h.1, if_neg fun h =>
              (List.mem_cons.1 h.1).elim heq hrest]
      · have hid : ¬(n = id ∧ id < table.length) := fun h => hlt (h.1 ▸ h.2)
        rw [if_neg fun h => hlt h.2, if_neg hid, if_neg fun h => hlt h.2]

/-- A read only moves a deadline back, and the node's sources to its step at
least. -/
theorem readSources_spec {node : CNode} {i : Nat} :
    (readSources table node i).length = table.length ∧
      (∀ n, due table n ≤ due (readSources table node i) n) ∧
        ∀ s ∈ node.src, s < table.length → i ≤ due (readSources table node i) s := by
  rw [readSources]
  generalize node.src = src
  induction src generalizing table with
  | nil => exact ⟨rfl, fun _ => Nat.le_refl _, fun s hs => absurd hs List.not_mem_nil⟩
  | cons s rest ih =>
      rw [List.foldl_cons]
      have hlen : (table.modify s fun t => if t < i then i else t).length
        = table.length := List.length_modify ..
      have hgrow : ∀ n,
          due table n ≤ due (table.modify s fun t => if t < i then i else t)
          n := by
        intro n
        rw [due_modify]
        split
        · split <;> omega
        · exact Nat.le_refl _
      obtain ⟨hlen', hgrow', hreads⟩ :=
        @ih (table.modify s fun t => if t < i then i else t)
      refine ⟨hlen'.trans hlen, fun n => Nat.le_trans (hgrow n) (hgrow' n),
        fun x hx hlt => ?_⟩
      rcases List.mem_cons.1 hx with rfl | hx
      · refine Nat.le_trans ?_ (hgrow' x)
        rw [due_modify, if_pos ⟨rfl, hlt⟩]
        split <;> omega
      · exact hreads x hx (hlen ▸ hlt)

theorem readAll_spec {nodes : List (CNode × Nat)} :
    (nodes.foldl (fun table (node, i) => readSources table node i)
      table).length = table.length ∧
      (∀ n, due table n
        ≤ due (nodes.foldl (fun table (node, i) => readSources table node i)
          table) n) ∧
        ∀ node i, (node, i) ∈ nodes → ∀ s ∈ node.src, s < table.length →
          i ≤ due (nodes.foldl
            (fun table (node, i) => readSources table node i) table) s := by
  induction nodes generalizing table with
  | nil => exact ⟨rfl, fun _ => Nat.le_refl _, fun node i hmem =>
      absurd hmem List.not_mem_nil⟩
  | cons first rest ih =>
      obtain ⟨node₀, i₀⟩ := first
      rw [List.foldl_cons]
      obtain ⟨hlen, hgrow, hreads⟩ := @readSources_spec table node₀ i₀
      obtain ⟨hlen', hgrow', hreads'⟩ := @ih (readSources table node₀ i₀)
      refine ⟨hlen'.trans hlen, fun n => Nat.le_trans (hgrow n) (hgrow' n),
        fun node i hmem s hs hlt => ?_⟩
      rcases List.mem_cons.1 hmem with heq | hmem
      · cases heq
        exact Nat.le_trans (hreads s hs hlt) (hgrow' s)
      · exact hreads' node i hmem s hs (hlen ▸ hlt)

theorem need_end {n : NodeId} (hn : n < g.nNodes)
    (hmem : n ∈ g.outputs ∨ n ∈ g.inputs) :
    g.need n = g.nNodes := by
  have hlen : ∀ (nodes : List (CNode × Nat)) (table : List Nat),
      (nodes.foldl (fun table (node, i) => readSources table node i)
          table).length = table.length :=
    fun _ _ => readAll_spec.1
  rw [need, lastUses, due_setAt, length_setAt, hlen, List.length_range]
  split
  · rfl
  next hnot =>
    rw [due_setAt, hlen, List.length_range]
    exact if_pos ⟨hmem.resolve_right fun h => hnot ⟨h, hn⟩, hn⟩

/-- A direct reader comes before the need ends. -/
theorem le_need {i : Nat} {node : CNode} {s : NodeId}
    (hnode : g.nodes[i]? = some node)
    (hs : s ∈ node.src) (hlt : s < g.nNodes) : i ≤ g.need s := by
  have hi : i < g.nNodes := (List.getElem?_eq_some_iff.1 hnode).1
  by_cases hend : s ∈ g.outputs ∨ s ∈ g.inputs
  · rw [need_end hlt hend]
    exact Nat.le_of_lt hi
  · obtain ⟨hlen, -, hreads⟩ :=
      @readAll_spec (List.range g.nNodes) g.nodes.zipIdx
    rw [need, lastUses, due_setAt, if_neg fun h => hend (.inr h.1), due_setAt,
      if_neg fun h => hend (.inl h.1)]
    exact hreads node i (List.mem_zipIdx_iff_getElem?.2 hnode) s hs
      (List.length_range ▸ hlt)

/-- What an extension does: a node either grew, to `upto`, or kept its
deadline. -/
theorem extendThroughViews_spec {upto fuel : Nat} {lastUse : List Nat}
    {cur : NodeId} :
    let r := g.extendThroughViews upto fuel lastUse cur
    r.1.length = lastUse.length ∧ (∀ n, due lastUse n ≤ due r.1 n)
      ∧ (∀ n, n ∈ r.2 ∨ due r.1 n = due lastUse n) ∧
      (∀ n, due r.1 n ≤ max (due lastUse n) upto) ∧
        (0 < fuel → cur < lastUse.length → cur ∈ r.2 ∨ upto ≤ due lastUse cur) := by
  induction fuel generalizing lastUse cur with
  | zero => exact ⟨rfl, fun _ => Nat.le_refl _, fun _ => .inr rfl,
      fun _ => Nat.le_max_left .., nofun⟩
  | succ fuel ih =>
      rw [extendThroughViews]
      split
      next hnone =>
        refine ⟨rfl, fun _ => Nat.le_refl _, fun _ => .inr rfl,
          fun _ => Nat.le_max_left .., fun _ hlt => ?_⟩
        rw [List.getElem?_eq_getElem hlt] at hnone
        cases hnone
      next t ht =>
        have hdue : due lastUse cur = t := by rw [due, ht, Option.getD_some]
        have hlt : cur < lastUse.length := (List.getElem?_eq_some_iff.1 ht).1
        split
        next hge =>
          exact ⟨rfl, fun _ => Nat.le_refl _, fun _ => .inr rfl,
            fun _ => Nat.le_max_left .., fun _ _ => .inr (hdue ▸ hge)⟩
        next hlow =>
          have hset : ∀ n, due (lastUse.set cur upto) n = if n = cur then upto
              else due lastUse n := by
            intro n
            rw [due_set]
            by_cases heq : n = cur
            · rw [if_pos ⟨heq, hlt⟩, if_pos heq]
            · rw [if_neg fun h => heq h.1, if_neg heq]
          have hgrows : ∀ n, due lastUse n ≤ due (lastUse.set cur upto) n := by
            intro n
            rw [hset]
            split
            next heq =>
              rw [heq, hdue]
              omega
            next => exact Nat.le_refl _
          have hmax : ∀ n, due (lastUse.set cur upto) n
              ≤ max (due lastUse n) upto := by
            intro n
            rw [hset]
            split
            · exact Nat.le_max_right ..
            · exact Nat.le_max_left ..
          split
          next v hv =>
            obtain ⟨hlen, hmono, hsame, hbound, -⟩ := @ih (lastUse.set cur upto) v.src
            refine ⟨hlen.trans List.length_set, fun n =>
              Nat.le_trans (hgrows n) (hmono n), fun n => ?_, fun n =>
              ?_, fun _ _ => .inl List.mem_cons_self⟩
            · by_cases heq : n = cur
              · exact .inl (heq ▸ List.mem_cons_self)
              · refine (hsame n).imp (List.mem_cons_of_mem _) fun h => ?_
                rw [h, hset, if_neg heq]
            · exact Nat.le_trans (hbound n)
                (Nat.max_le.2 ⟨hmax n, Nat.le_max_right ..⟩)
          next =>
            refine ⟨List.length_set, hgrows, fun n => ?_, hmax,
              fun _ _ => .inl List.mem_cons_self⟩
            by_cases heq : n = cur
            · exact .inl (heq ▸ List.mem_cons_self)
            · exact .inr (by rw [hset, if_neg heq])

end ComputeGraph

-- ============================ the walk

/-- The node's buffer still has what the node computed, or no step from `i`
on reads the node. -/
def Kept (g : ComputeGraph) (i : Nat) (w : Walk) (n : NodeId) (key : BufKey) : Prop :=
  w.alloc.Holds key .pinned
    ∨ (∃ al, w.alloc.bufAlive.lookup key = some al ∧ due w.lastUse n ≤ al) ∨
    g.need n < i

/-- What holds of the walk before step `i`. -/
structure WalkOk (g : ComputeGraph) (i : Nat) (w : Walk) : Prop where
  sound : w.alloc.Sound
  length : w.lastUse.length = g.nNodes
  needs : ∀ n, g.need n ≤ due w.lastUse n
  placed : ∀ {n r}, w.alloc.nodeToBuf.lookup n = some r → n < i ∨ g.InputNode n
  held : ∀ {n r}, w.alloc.nodeToBuf.lookup n = some r → Kept g i w n r.key
  viewed : ∀ {n node v}, n < i → g.nodes[n]? = some node →
    node.isInput = false → node.view = some v →
    ∃ r r', w.alloc.nodeToBuf.lookup n = some r
      ∧ w.alloc.nodeToBuf.lookup v.src = some r' ∧ r.key = r'.key
  handed : ∀ {n key}, (n, key) ∈ w.alloc.handed → n < i ∨ g.InputNode n
  active : ∀ {n key}, (n, key) ∈ w.alloc.handed → w.alloc.Active key
  recycled : ∀ {n key}, (n, key) ∈ w.alloc.handed → ¬g.InputNode n →
    ∀ {m r}, w.alloc.nodeToBuf.lookup m = some r → r.key = key → m ≠ n →
      m < n ∨ g.InputNode m →
      g.need m < n
  inputs : ∀ {n key}, (n, key) ∈ w.alloc.handed → g.InputNode n →
    ∃ al, w.alloc.bufAlive.lookup key = some al ∧ g.nNodes ≤ al
  inputsOnce : ∀ {n key}, (n, key) ∈ w.alloc.handed → g.InputNode n →
    ∀ {m}, (m, key) ∈ w.alloc.handed → m = n

section

variable {g : ComputeGraph} {i : Nat} {w : Walk}
variable {n : NodeId} {w' : Walk}

theorem Kept.succ {key : BufKey} (h : Kept g i w n key) :
    Kept g (i + 1) w n key :=
  h.imp_right (.imp_right (Nat.lt_succ_of_lt ·))

/-- The nodes have the buffers they had, and those that matter are as they
were. -/
theorem WalkOk.carry {a : GraphAllocator} (h : WalkOk g i w) (hsound : a.Sound)
    (hnodes : a.nodeToBuf = w.alloc.nodeToBuf) (hhanded : a.handed = w.alloc.handed)
    (hactive : ∀ {key}, w.alloc.Active key → a.Active key)
    (hkept : ∀ {n key}, Kept g i w n key → Kept g i ⟨a, w.lastUse⟩ n key)
    (hinputs : ∀ {key al}, w.alloc.bufAlive.lookup key = some al → g.nNodes ≤ al →
      a.bufAlive.lookup key = some al) : WalkOk g i ⟨a, w.lastUse⟩ where
  sound := hsound
  length := h.length
  needs := h.needs
  placed hr := h.placed (hnodes ▸ hr)
  held hr := hkept (h.held (hnodes ▸ hr))
  viewed hlt hnode hinput hview := by
    obtain ⟨r, r', hr, hr', hkey⟩ := h.viewed hlt hnode hinput hview
    exact ⟨r, r', hnodes ▸ hr, hnodes ▸ hr', hkey⟩
  handed hmem := h.handed (hhanded ▸ hmem)
  active hmem := hactive (h.active (hhanded ▸ hmem))
  recycled := fun {n key} hmem hnot {m r} hr =>
    h.recycled (hhanded ▸ hmem) hnot (hnodes ▸ hr)
  inputs hmem hin := by
    obtain ⟨al, hal, hge⟩ := h.inputs (hhanded ▸ hmem) hin
    exact ⟨al, hinputs hal hge, hge⟩
  inputsOnce := fun {n key} hmem hin {m} hmem' =>
    h.inputsOnce (hhanded ▸ hmem) hin (hhanded ▸ hmem')

/-- The sweep takes only what no step from `i` on needs. -/
theorem WalkOk.sweep (h : WalkOk g i w) (hi : i < g.nNodes) :
    WalkOk g i { w with alloc := w.alloc.sweep i } := by
  obtain ⟨hsound, hswept⟩ := sweep_spec h.sound i
  have hstays : ∀ {key al}, w.alloc.bufAlive.lookup key = some al → i ≤ al →
      (w.alloc.sweep i).bufAlive.lookup key = some al := by
    intro key al hal hge
    refine (hswept.stays ?_).trans hal
    rintro ⟨al', hal', hlt⟩
    rw [hal] at hal'
    cases hal'
    exact Nat.not_le_of_lt hlt hge
  refine h.carry hsound hswept.nodeToBuf hswept.handed hswept.active
    (fun {n key} hkept => ?_)
    fun hal hge => hstays hal (Nat.le_trans (Nat.le_of_lt hi) hge)
  rcases hkept with ⟨p, hp, hkey⟩ | ⟨al, hal, hle⟩ | hneed
  · exact .inl ⟨p, hswept.persistent ▸ hp, hkey⟩
  · by_cases hgone : al < i
    · exact .inr (.inr (Nat.lt_of_le_of_lt (Nat.le_trans (h.needs n) hle) hgone))
    · exact .inr (.inl ⟨al, hstays hal (Nat.le_of_not_lt hgone), hle⟩)
  · exact .inr (.inr hneed)

/-- New regions change nothing for the nodes. -/
theorem WalkOk.keeps {a : GraphAllocator} (h : WalkOk g i w)
    (hkeeps : Keeps w.alloc a)
    (hsound : a.Sound) : WalkOk g i ⟨a, w.lastUse⟩ :=
  h.carry hsound hkeeps.nodeToBuf hkeeps.handed hkeeps.active
    (fun hkept =>
      hkept.imp hkeeps.pinned
      (.imp_left fun ⟨al, hal, hle⟩ => ⟨al, hkeeps.bufAlive ▸ hal, hle⟩))
    fun hal _ => hkeeps.bufAlive ▸ hal

/-- A buffer is handed out: to an input before the walk, or to the node of
the step. Its former holders are needed no more. -/
theorem WalkOk.hand {a : GraphAllocator} {key : BufKey} {j : Nat}
    (h : WalkOk g i w) (hsound : a.Sound)
    (hgave : Handed w.alloc a n key (due w.lastUse n)) (hij : i ≤ j)
    (hn : g.InputNode n ∧ j = 0 ∧ n < g.nNodes ∧ n ∈ g.inputs ∨
      ¬g.InputNode n ∧ n = i ∧ j = i + 1 ∧ ∀ node, g.nodes[i]? = some node →
        node.view = none) :
    WalkOk g j ⟨a, w.lastUse⟩ := by
  obtain ⟨len, hnodes⟩ := hgave.nodeToBuf
  have hspare : ∀ {m r}, w.alloc.nodeToBuf.lookup m = some r → r.key = key →
      g.need m < i := by
    intro m r hr hkey
    rcases h.held hr with hpinned | ⟨al, hal, -⟩ | hneed
    · exact absurd (hkey ▸ hpinned) hgave.spare.2
    · exact absurd ⟨al, hkey ▸ hal⟩ hgave.spare.1
    · exact hneed
  have hnew : ∀ {m}, (m, key) ∈ w.alloc.handed → ¬g.InputNode m := by
    intro m hmem hin
    obtain ⟨al, hal, -⟩ := h.inputs hmem hin
    exact hgave.spare.1 ⟨al, hal⟩
  have hlook : ∀ {m}, m ≠ n → a.nodeToBuf.lookup m = w.alloc.nodeToBuf.lookup m := by
    intro m hne
    rw [hnodes, AList.lookup_insert_ne hne]
  have hself : a.nodeToBuf.lookup n = some (.own key.1 key.2 len) := by
    rw [hnodes, AList.lookup_insert]
  have hmem : ∀ {m key'}, (m, key') ∈ a.handed →
      (m, key') ∈ w.alloc.handed ∨ m = n ∧ key' = key := by
    intro m key' hin
    rw [hgave.handed] at hin
    exact (List.mem_append.1 hin).imp_right fun hin =>
      Prod.mk.inj (List.mem_singleton.1 hin)
  have hlive : ∀ {key' al}, w.alloc.bufAlive.lookup key' = some al →
      a.bufAlive.lookup key' = some al := by
    intro key' al hal
    have hne : key' ≠ key := fun heq => hgave.spare.1 ⟨al, heq ▸ hal⟩
    rw [hgave.bufAlive, AList.lookup_insert_ne hne, hal]
  have hplaced : n < j ∨ g.InputNode n := by
    rcases hn with ⟨hin, -⟩ | ⟨-, rfl, rfl, -⟩
    · exact .inr hin
    · exact .inl (Nat.lt_succ_self n)
  refine
    { sound := hsound, length := h.length, needs := h.needs, placed :=
      fun {m r} hr => ?_,
      held := fun {m r} hr => ?_, viewed :=
        fun {m node v} hlt hnode hinput hview => ?_,
      handed := fun {m key'} hin => ?_, active := fun {m key'} hin => ?_,
      recycled := fun {n₀ key₀} hin hnot {m r} hr hkey hne hbefore => ?_,
      inputs := fun {m key'} hin hinput => ?_, inputsOnce :=
        fun {n₀ key₀} hin hinput {m} hin' => ?_ }
  · by_cases heq : m = n
    · exact heq ▸ hplaced
    · exact (h.placed ((hlook heq) ▸ hr)).imp_left (Nat.lt_of_lt_of_le · hij)
  · by_cases heq : m = n
    · subst heq
      rw [hself] at hr
      cases hr
      exact .inr (.inl ⟨_, hgave.bufAlive ▸ AList.lookup_insert _, Nat.le_refl _⟩)
    · rcases h.held (hlook heq ▸ hr) with ⟨p, hp, hkey⟩ | ⟨al, hal, hle⟩ | hneed
      · exact .inl ⟨p, hgave.persistent ▸ hp, hkey⟩
      · exact .inr (.inl ⟨al, hlive hal, hle⟩)
      · exact .inr (.inr (Nat.lt_of_lt_of_le hneed hij))
  · rcases hn with ⟨-, rfl, -⟩ | ⟨hnot, rfl, rfl, hviewless⟩
    · exact absurd hlt (Nat.not_lt_zero _)
    · by_cases heq : m = n
      · rw [hviewless node (heq ▸ hnode)] at hview
        cases hview
      · obtain ⟨r, r', hr, hr', hkey⟩ :=
          h.viewed (Nat.lt_of_le_of_ne (Nat.le_of_lt_succ hlt) heq) hnode
          hinput hview
        have hsrc : v.src ≠ n := by
          rintro rfl
          exact (h.placed hr').elim (Nat.lt_irrefl _) hnot
        exact ⟨r, r', (hlook heq).trans hr, (hlook hsrc).trans hr', hkey⟩
  · rcases hmem hin with hold | ⟨rfl, -⟩
    · exact (h.handed hold).imp_left (Nat.lt_of_lt_of_le · hij)
    · exact hplaced
  · rcases hmem hin with hold | ⟨-, rfl⟩
    · exact hgave.active (h.active hold)
    · exact .inl ⟨_, hgave.bufAlive ▸ AList.lookup_insert _⟩
  · rcases hn with ⟨hinput, rfl, -⟩ | ⟨hnot', rfl, rfl, -⟩
    · -- before the walk only inputs have been served
      rcases hmem hin with hold | ⟨rfl, -⟩
      · refine absurd (h.handed hold) ?_
        rw [Nat.le_zero.1 hij]
        exact fun hor => hor.elim (Nat.not_lt_zero _) hnot
      · exact absurd hinput hnot
    · rcases hmem hin with hold | ⟨rfl, rfl⟩
      · have hlt : n₀ < n := (h.handed hold).resolve_right hnot
        have hm : m ≠ n := by
          rintro rfl
          exact hbefore.elim (Nat.not_lt.2 (Nat.le_of_lt hlt)) hnot'
        exact h.recycled hold hnot (hlook hm ▸ hr) hkey hne hbefore
      · exact hspare (hlook hne ▸ hr) hkey
  · rcases hmem hin with hold | ⟨rfl, rfl⟩
    · obtain ⟨al, hal, hge⟩ := h.inputs hold hinput
      exact ⟨al, hlive hal, hge⟩
    · rcases hn with ⟨-, -, hlt, hlisted⟩ | ⟨hnot, -⟩
      · refine ⟨_, hgave.bufAlive ▸ AList.lookup_insert _, ?_⟩
        rw [← ComputeGraph.need_end hlt (.inr hlisted)]
        exact h.needs m
      · exact absurd hinput hnot
  · rcases hmem hin with hold | ⟨rfl, rfl⟩
    · rcases hmem hin' with hold' | ⟨rfl, rfl⟩
      · exact h.inputsOnce hold hinput hold'
      · exact absurd hinput (hnew hold)
    · rcases hmem hin' with hold' | ⟨rfl, -⟩
      · rcases hn with ⟨-, rfl, -⟩ | ⟨hnot, -⟩
        · refine absurd ((h.handed hold').resolve_left ?_) (hnew hold')
          rw [Nat.le_zero.1 hij]
          exact Nat.not_lt_zero _
        · exact absurd hinput hnot
      · rfl

/-- The node of the step goes on a buffer that others use already. -/
theorem WalkOk.name {ref : BufRef} (h : WalkOk g i w)
    (hsound : w'.alloc.Sound) (hlen : w'.lastUse.length = g.nNodes)
    (hneeds : ∀ n, g.need n ≤ due w'.lastUse n) (hcomputed : ¬g.InputNode i)
    (hnodes : w'.alloc.nodeToBuf = w.alloc.nodeToBuf.insert i ref)
    (hhanded : w'.alloc.handed = w.alloc.handed)
    (hactive : ∀ {key}, w.alloc.Active key → w'.alloc.Active key)
    (hkept : ∀ {n r}, w.alloc.nodeToBuf.lookup n = some r → n ≠ i →
      Kept g i w n r.key →
      Kept g i w' n r.key) (hself : Kept g i w' i ref.key)
    (hinputs : ∀ {key al}, w.alloc.bufAlive.lookup key = some al →
      ∃ al', w'.alloc.bufAlive.lookup key = some al' ∧ al ≤ al')
    (hview : ∀ node v, g.nodes[i]? = some node → node.view = some v →
      ∃ r', w.alloc.nodeToBuf.lookup v.src = some r' ∧ ref.key = r'.key) :
        WalkOk g (i + 1) w' := by
  have hlook : ∀ {m}, m ≠ i →
      w'.alloc.nodeToBuf.lookup m = w.alloc.nodeToBuf.lookup m := by
    intro m hne
    rw [hnodes, AList.lookup_insert_ne hne]
  have hown : w'.alloc.nodeToBuf.lookup i = some ref := by
    rw [hnodes, AList.lookup_insert]
  have hother : ∀ {m r}, w.alloc.nodeToBuf.lookup m = some r → m ≠ i := by
    rintro m r hr rfl
    exact (h.placed hr).elim (Nat.lt_irrefl _) hcomputed
  refine
    { sound := hsound, length := hlen, needs := hneeds, placed := fun {m r} hr => ?_,
      held := fun {m r} hr => ?_, viewed := fun {m node v} hlt hnode hinput hv => ?_,
      handed := fun hin => (h.handed (hhanded ▸ hin)).imp_left (Nat.lt_succ_of_lt ·),
      active := fun hin => hactive (h.active (hhanded ▸ hin)),
      recycled := fun {n₀ key₀} hin hnot {m r} hr hkey hne hbefore => ?_,
      inputs := fun {m key'} hin hinput => ?_,
      inputsOnce := fun {n₀ key₀} hin hinput {m} hin' =>
        h.inputsOnce (hhanded ▸ hin) hinput (hhanded ▸ hin') }
  · by_cases heq : m = i
    · exact .inl (heq ▸ Nat.lt_succ_self _)
    · exact (h.placed (hlook heq ▸ hr)).imp_left (Nat.lt_succ_of_lt ·)
  · by_cases heq : m = i
    · subst heq
      rw [hown] at hr
      cases hr
      exact hself.succ
    · have hr := hlook heq ▸ hr
      exact (hkept hr heq (h.held hr)).succ
  · by_cases heq : m = i
    · subst heq
      obtain ⟨r', hr', hkey⟩ := hview node v hnode hv
      exact ⟨ref, r', hown, (hlook (hother hr')).trans hr', hkey⟩
    · obtain ⟨r, r', hr, hr', hkey⟩ :=
        h.viewed (Nat.lt_of_le_of_ne (Nat.le_of_lt_succ hlt) heq) hnode
        hinput hv
      exact ⟨r, r', (hlook heq).trans hr, (hlook (hother hr')).trans hr', hkey⟩
  · have hin := hhanded ▸ hin
    have hm : m ≠ i := by
      rintro rfl
      have hlt : n₀ < m := (h.handed hin).resolve_right hnot
      exact hbefore.elim (Nat.not_lt.2 (Nat.le_of_lt hlt)) hcomputed
    exact h.recycled hin hnot (hlook hm ▸ hr) hkey hne hbefore
  · obtain ⟨al, hal, hge⟩ := h.inputs (hhanded ▸ hin) hinput
    obtain ⟨al', hal', hle⟩ := hinputs hal
    exact ⟨al', hal', Nat.le_trans hge hle⟩

theorem ComputeGraph.not_inputNode {node : CNode}
    (hnode : g.nodes[n]? = some node)
    (hinput : node.isInput = false) : ¬g.InputNode n := by
  rintro ⟨node', hnode', hinput'⟩
  rw [hnode] at hnode'
  cases hnode'
  rw [hinput] at hinput'
  cases hinput'

/-- A node shares a source's buffer: the source is read at this step, so its
buffer is still there, and now lasts as long as the node. -/
theorem WalkOk.share {src : NodeId} {r ref : BufRef} (h : WalkOk g i w)
    (hi : i < g.nNodes)
    (hcomputed : ¬g.InputNode i) (hlt : src < i) (hneed : i ≤ g.need src)
    (hr : w.alloc.nodeToBuf.lookup src = some r) (hkey : ref.key = r.key)
    (hview : ∀ node v, g.nodes[i]? = some node → node.view = some v → v.src = src) :
    WalkOk g (i + 1) (w.share g i src ref) := by
  rw [Walk.share]
  generalize hlu : (w.lastUse[i]?).getD 0 = lu
  have hdue : due w.lastUse i = lu := hlu
  have hspec :=
    @ComputeGraph.extendThroughViews_spec g lu (g.nNodes + 1) w.lastUse src
  generalize g.extendThroughViews lu (g.nNodes + 1) w.lastUse src = grownUse at hspec
  obtain ⟨lastUse, grown⟩ := grownUse
  obtain ⟨hlen, hmono, hsame, hbound, hsrc⟩ := hspec
  dsimp only at hlen hmono hsame hbound hsrc ⊢
  set b : GraphAllocator :=
    { w.alloc with nodeToBuf := w.alloc.nodeToBuf.insert i ref }
  have hext : Extended b (b.extendBufferAlive grown lu) grown lu :=
    extendBufferAlive_spec
  have hsound : (b.extendBufferAlive grown lu).Sound := hext.sound (h.sound.named _)
  have hsrc : src ∈ grown ∨ lu ≤ due w.lastUse src :=
    hsrc (Nat.succ_pos _) (by rw [h.length]; exact Nat.lt_trans hlt hi)
  have hpinned : ∀ {key}, w.alloc.Holds key .pinned →
      (b.extendBufferAlive grown lu).Holds key .pinned := by
    rintro key ⟨p, hp, hpk⟩
    refine ⟨p, ?_, hpk⟩
    rw [hext.same]
    exact hp
  have hcovers : ∀ {m r' al'}, m ∈ grown →
      w.alloc.nodeToBuf.lookup m = some r' → m ≠ i →
      (b.extendBufferAlive grown lu).bufAlive.lookup r'.key = some al' →
          lu ≤ al' := by
    intro m r' al' hmem hr' hne hal'
    exact hext.covers hmem ((AList.lookup_insert_ne hne).trans hr') hal'
  have hold : Kept g i w src r.key := h.held hr
  have hnodes : (b.extendBufferAlive grown lu).nodeToBuf
      = w.alloc.nodeToBuf.insert i ref := by
    rw [hext.same]
  have hhanded : (b.extendBufferAlive grown lu).handed = w.alloc.handed := by
    rw [hext.same]
  refine h.name hsound (hlen.trans h.length)
    (fun n => Nat.le_trans (h.needs n) (hmono n)) hcomputed hnodes hhanded
    (fun {key} hactive => ?_) (fun {n r'} hr' hne hkept => ?_) ?_ hext.grows
      (fun node v hnode hv => ?_)
  · rcases hactive with ⟨al, hal⟩ | ⟨cls, hidle⟩
    · obtain ⟨al', hal', -⟩ := hext.grows hal
      exact .inl ⟨al', hal'⟩
    · refine .inr ⟨cls, ?_⟩
      rw [hext.same]
      exact hidle
  · rcases hkept with hpin | ⟨al, hal, hle⟩ | hdone
    · exact .inl (hpinned hpin)
    · obtain ⟨al', hal', hle'⟩ := hext.grows hal
      refine .inr (.inl ⟨al', hal', ?_⟩)
      rcases hsame n with hmem | heq
      · -- the node grew, and its buffer with it
        refine Nat.le_trans (hbound n) (Nat.max_le.2 ⟨Nat.le_trans hle hle', ?_⟩)
        exact hcovers hmem hr' hne hal'
      · exact heq ▸ Nat.le_trans hle hle'
    · exact .inr (.inr hdone)
  · rw [hkey]
    rcases hold with hpin | ⟨al, hal, hle⟩ | hdone
    · exact .inl (hpinned hpin)
    · obtain ⟨al', hal', hle'⟩ := hext.grows hal
      refine .inr (.inl ⟨al', hal', ?_⟩)
      have hlu' : lu ≤ al' := by
        rcases hsrc with hmem | hcovered
        · exact hcovers hmem hr (Nat.ne_of_lt hlt) hal'
        · exact Nat.le_trans hcovered (Nat.le_trans hle hle')
      refine Nat.le_trans (hbound i) (Nat.max_le.2 ⟨?_, hlu'⟩)
      exact hdue ▸ hlu'
    · exact absurd hneed (Nat.not_le_of_lt hdone)
  · rw [hview node v hnode hv]
    exact ⟨r, hr, hkey⟩

/-- One step of the walk. -/
theorem WalkOk.place {node : CNode} (hg : g.BuildOrder) (h : WalkOk g i w)
    (hnode : g.nodes[i]? = some node) (hsound : w'.alloc.Sound)
    (hplaced : Walk.Placed g w node i w') : WalkOk g (i + 1) w' := by
  have hi : i < g.nNodes := (List.getElem?_eq_some_iff.1 hnode).1
  have hthis : ∀ {node'}, g.nodes[i]? = some node' → node' = node := fun hnode' =>
    Option.some.inj (hnode'.symm.trans hnode)
  cases hplaced with
  | nothing keeps sound viewless =>
      have h := h.keeps keeps sound
      refine
        { sound := h.sound, length := h.length, needs := h.needs,
          placed := fun hr => (h.placed hr).imp_left (Nat.lt_succ_of_lt ·),
          held := fun hr => (h.held hr).succ, viewed :=
            fun {m node' v} hlt hnode' hinput hv => ?_,
          handed := fun hin => (h.handed hin).imp_left (Nat.lt_succ_of_lt ·),
            active := h.active,
          recycled := h.recycled, inputs := h.inputs, inputsOnce := h.inputsOnce }
      by_cases heq : m = i
      · subst heq
        cases hthis hnode'
        rw [viewless hinput] at hv
        cases hv
      · exact h.viewed (Nat.lt_of_le_of_ne (Nat.le_of_lt_succ hlt) heq) hnode'
          hinput hv
  | @shared a src r ref keeps sound computed reads viewed holds same =>
      have hreads : src ∈ node.src := by
        rcases reads with hmem | hparent
        · exact hmem
        · obtain ⟨v, hv, rfl⟩ := Option.map_eq_some_iff.1 hparent
          exact hg.views i node v hnode hv
      have hlt : src < i := hg.sources i node hnode src hreads
      refine (h.keeps keeps sound).share hi
        (ComputeGraph.not_inputNode hnode computed) hlt
        (ComputeGraph.le_need hnode hreads (Nat.lt_trans hlt hi)) holds
          same fun node' v hnode' hv => ?_
      cases hthis hnode'
      exact viewed v hv
  | @region a r keeps sound computed viewless pinned =>
      refine (h.keeps keeps sound).name hsound h.length h.needs
        (ComputeGraph.not_inputNode hnode computed) rfl rfl id
        (fun _ _ hkept => hkept) (.inl pinned)
          (fun hal => ⟨_, hal, Nat.le_refl _⟩) fun node' v hnode' hv => ?_
      cases hthis hnode'
      rw [viewless] at hv
      cases hv
  | handed keeps sound computed viewless gave =>
      refine (h.keeps keeps sound).hand hsound gave (Nat.le_succ i)
        (.inr ⟨ComputeGraph.not_inputNode hnode computed, rfl, rfl, ?_⟩)
      intro node' hnode'
      exact hthis hnode' ▸ viewless

/-- The inputs are placed before the walk. -/
theorem WalkOk.placeInputs {env : AllocEnv} {nodes : List CNode}
    {a a' : GraphAllocator} {lastUse : List Nat} (h : WalkOk g 0 ⟨a, lastUse⟩)
    (hnodes : ∀ node ∈ nodes, node.isInput = true →
      g.InputNode node.id ∧ node.id < g.nNodes ∧ node.id ∈ g.inputs)
    (hok : a.placeInputs env lastUse nodes = (.ok (), a')) :
    WalkOk g 0 ⟨a', lastUse⟩ := by
  induction nodes generalizing a with
  | nil =>
      cases hok
      exact h
  | cons node rest ih =>
      rw [GraphAllocator.placeInputs] at hok
      have hrest : ∀ node ∈ rest, node.isInput = true →
          g.InputNode node.id ∧ node.id < g.nNodes ∧ node.id ∈ g.inputs :=
        fun node hmem => hnodes node (List.mem_cons_of_mem _ hmem)
      split at hok
      next hinput =>
        obtain ⟨hin, hlt, hlisted⟩ := hnodes node List.mem_cons_self hinput
        split at hok
        · cases hok
        next a₁ hgot =>
          rcases handBuffer_spec h.sound hgot with ⟨e, he, -⟩
            | ⟨-, hsound, pid, hgave⟩
          · cases he
          · have hone : WalkOk g 0 ⟨a₁, lastUse⟩ :=
              h.hand hsound hgave (Nat.le_refl 0) (.inl ⟨hin, rfl, hlt, hlisted⟩)
            exact ih hone hrest hok
      next => exact ih h hrest hok

theorem WalkOk.run {env : AllocEnv} {rest : List CNode} (hg : g.BuildOrder)
    (h : WalkOk g i w) (hi : i ≤ g.nNodes) (hrest : g.nodes.drop i = rest)
    (hok : Walk.run env g rest i w = (.ok (), w')) : WalkOk g g.nNodes w' := by
  induction rest generalizing w i with
  | nil =>
      cases hok
      exact Nat.le_antisymm hi (List.drop_eq_nil_iff.1 hrest) ▸ h
  | cons node rest ih =>
      have hnode : g.nodes[i]? = some node := by
        rw [← List.head?_drop, hrest, List.head?_cons]
      have hi : i < g.nNodes := (List.getElem?_eq_some_iff.1 hnode).1
      rw [Walk.run] at hok
      have hswept := h.sweep hi
      have houtcome : Walk.Outcome g { w with alloc := w.alloc.sweep i } node i
          (Walk.place env { w with alloc := w.alloc.sweep i } g node i) :=
            Walk.place_outcome hswept.sound
      split at hok
      · cases hok
      next w₁ hgot =>
        rw [hgot] at houtcome
        refine ih (hswept.place hg hnode houtcome.1 (houtcome.2 rfl)) hi ?_ hok
        rw [← List.drop_drop, hrest]
        rfl

end

-- ==================== allocated graphs

namespace ComputeGraph

/-- What shares the node's buffer: its views and in-place aliases, theirs,
and so on. -/
inductive Shares (g : ComputeGraph) (a : GraphAllocator) (m : NodeId) :
    NodeId → Prop where
  | refl : Shares g a m m
  | view {p q : NodeId} {node : CNode} {v : ViewAlias} (h : Shares g a m p)
      (hnode : g.nodes[q]? = some node)
      (hcomputed : node.isInput = false) (hview : node.view = some v)
        (hsrc : v.src = p) : Shares g a m q
  | inPlace {p q : NodeId} {node : CNode} (h : Shares g a m p)
      (hnode : g.nodes[q]? = some node)
      (hsrc : node.src.head? = some p)
        (hsame : a.nodeToBuf.lookup q = a.nodeToBuf.lookup p) : Shares g a m q

/-- The node, or something on its buffer, is read at a step from `n` on, or
is an output. -/
def NeededFrom (g : ComputeGraph) (a : GraphAllocator) (n m : NodeId) : Prop :=
  ∃ q, g.Shares a m q
    ∧ (q ∈ g.outputs ∨ ∃ j node, n ≤ j ∧ g.nodes[j]? = some node
      ∧ q ∈ node.src)

end ComputeGraph

variable {g : ComputeGraph} {a a' : GraphAllocator} {env : AllocEnv}

/-- A walk starts with nothing placed. -/
theorem WalkOk.start (h : a.Sound) : WalkOk g 0 ⟨a.restart, g.lastUses⟩ := by
  have hnone : ∀ {n r}, a.restart.nodeToBuf.lookup n ≠ some r := by
    intro n r hr
    rw [restart, AList.lookup_empty] at hr
    cases hr
  have hnothing : ∀ {entry}, entry ∉ a.restart.handed := List.not_mem_nil
  refine
    { sound := restart_sound h, length := ?_, needs := fun _ => Nat.le_refl _,
      placed := fun hr => absurd hr hnone, held := fun hr => absurd hr hnone,
      viewed := fun hlt => absurd hlt (Nat.not_lt_zero _), handed :=
        fun hin => absurd hin hnothing,
      active := fun hin => absurd hin hnothing, recycled :=
        fun hin => absurd hin hnothing,
      inputs := fun hin => absurd hin hnothing, inputsOnce :=
        fun hin => absurd hin hnothing }
  have hlen : ∀ (nodes : List (CNode × Nat)) (table : List Nat),
      (nodes.foldl
          (fun table (node, i) => ComputeGraph.readSources table node i)
          table).length = table.length :=
    fun _ _ => ComputeGraph.readAll_spec.1
  rw [ComputeGraph.lastUses, ComputeGraph.length_setAt,
    ComputeGraph.length_setAt, hlen, List.length_range]

/-- The whole of `alloc_graph`. -/
theorem allocGraph_walkOk (h : a.Sound) (hg : g.BuildOrder)
    (hok : a.allocGraph env g = (.ok (), a')) :
    (∀ n ∈ g.outputs, n < g.nNodes) ∧ ∃ lastUse, WalkOk g g.nNodes ⟨a', lastUse⟩ := by
  rw [allocGraph] at hok
  dsimp only at hok
  split at hok
  · cases hok
  split at hok
  next hrange =>
    have hlt : ∀ n, n ∈ g.outputs ∨ n ∈ g.inputs → n < g.nNodes := fun n hmem =>
      of_decide_eq_true (List.all_eq_true.1 hrange n (List.mem_append.2 hmem))
    split at hok
    · cases hok
    next a₁ hgot =>
      have hinputs : WalkOk g 0 ⟨a₁, g.lastUses⟩ := by
        refine (WalkOk.start h).placeInputs (fun node hmem hinput => ?_) hgot
        obtain ⟨j, hj⟩ := List.mem_iff_getElem?.1 hmem
        have hid := hg.ids j node hj
        rw [hid]
        have hlisted := hg.listed j node hj hinput
        exact ⟨⟨node, hj, hinput⟩, hlt j (.inr hlisted), hlisted⟩
      refine ⟨fun n hn => hlt n (.inl hn), ?_⟩
      cases hrun : Walk.run env g g.nodes 0 ⟨a₁, g.lastUses⟩ with
      | mk out w =>
          rw [hrun] at hok
          cases hok
          exact ⟨w.lastUse, hinputs.run hg (Nat.zero_le _) List.drop_zero hrun⟩
  · cases hok

/-- Nothing on a recycled buffer is needed any more. -/
theorem WalkOk.not_needed {lastUse : List Nat} {key : BufKey}
    {r : BufRef} (h : WalkOk g g.nNodes ⟨a, lastUse⟩) (hg : g.BuildOrder)
    (hout : ∀ n ∈ g.outputs, n < g.nNodes) (hhanded : (n, key) ∈ a.handed)
    (hcomputed : ¬g.InputNode n) (hr : a.nodeToBuf.lookup m = some r)
    (hkey : r.key = key) (hne : m ≠ n) (hbefore : m < n ∨ g.InputNode m) :
    ¬g.NeededFrom a n m := by
  have hn : n < g.nNodes := (h.handed hhanded).resolve_right hcomputed
  -- along the chain every reader comes before `n`, and holds the same buffer
  have hchain : ∀ {q}, g.Shares a m q → g.need q < n
      ∧ ∃ r, a.nodeToBuf.lookup q = some r ∧ r.key = key := by
    intro q hshares
    induction hshares with
    | refl => exact ⟨h.recycled hhanded hcomputed hr hkey hne hbefore, r, hr, hkey⟩
    | @view p q node v _ hnode hcomputed' hview hsrc ih =>
        obtain ⟨hneed, rp, hrp, hkeyp⟩ := ih
        subst hsrc
        have hq : q < g.nNodes := (List.getElem?_eq_some_iff.1 hnode).1
        have hreads := hg.views q node v hnode hview
        have hsrc : v.src < q := hg.sources q node hnode v.src hreads
        have hlt : q < n :=
          Nat.lt_of_le_of_lt
          (ComputeGraph.le_need hnode hreads (Nat.lt_trans hsrc hq)) hneed
        obtain ⟨rq, rp', hrq, hrp', hsame⟩ := h.viewed hq hnode hcomputed' hview
        rw [hrp] at hrp'
        cases hrp'
        exact ⟨h.recycled hhanded hcomputed hrq (hsame.trans hkeyp)
          (Nat.ne_of_lt hlt) (.inl hlt), rq, hrq,
          hsame.trans hkeyp⟩
    | @inPlace p q node _ hnode hsrc hsame ih =>
        obtain ⟨hneed, rp, hrp, hkeyp⟩ := ih
        have hq : q < g.nNodes := (List.getElem?_eq_some_iff.1 hnode).1
        have hreads : p ∈ node.src := List.mem_of_mem_head? hsrc
        have hpq : p < q := hg.sources q node hnode p hreads
        have hlt : q < n :=
          Nat.lt_of_le_of_lt
          (ComputeGraph.le_need hnode hreads (Nat.lt_trans hpq hq)) hneed
        have hrq := hsame.trans hrp
        exact ⟨h.recycled hhanded hcomputed hrq hkeyp (Nat.ne_of_lt hlt)
          (.inl hlt), rp, hrq, hkeyp⟩
  rintro ⟨q, hshares, hneeded⟩
  obtain ⟨hneed, -⟩ := hchain hshares
  rcases hneeded with houtput | ⟨j, node, hj, hnode, hmem⟩
  · rw [ComputeGraph.need_end (hout q houtput) (.inl houtput)] at hneed
    exact Nat.lt_asymm hn hneed
  · have hjlt : j < g.nNodes := (List.getElem?_eq_some_iff.1 hnode).1
    have hread :=
      ComputeGraph.le_need hnode hmem
      (Nat.lt_trans (hg.sources j node hnode q hmem) hjlt)
    exact Nat.lt_irrefl _ (Nat.lt_of_le_of_lt (Nat.le_trans hj hread) hneed)

/-- A buffer is handed on only when no former holder is needed, an input's
never, and none is a KV region. -/
theorem recycled_buffers_unneeded (h : Reachable a) (hg : g.BuildOrder)
    (hok : a.allocGraph env g = (.ok (), a')) :
    (∀ n key, (n, key) ∈ a'.handed → ¬g.InputNode n →
        ∀ m r, a'.nodeToBuf.lookup m = some r → r.key = key → m ≠ n →
          m < n ∨ g.InputNode m →
          ¬g.NeededFrom a' n m) ∧
      (∀ n key, (n, key) ∈ a'.handed → g.InputNode n →
        ∀ m, (m, key) ∈ a'.handed → m = n) ∧
        ∀ n key, (n, key) ∈ a'.handed →
          (∀ p ∈ a'.persistent, (p.backend, p.id) ≠ key) ∧
          ∀ layer region, a'.kv.lookup layer = some region →
            region.k.key ≠ key ∧ region.v.key ≠ key := by
  obtain ⟨hout, lastUse, hwalk⟩ := allocGraph_walkOk h.sound hg hok
  refine ⟨fun n key hhanded hcomputed m r hr hkey hne hbefore => ?_,
    fun n key hhanded hinput m hm => ?_, fun n key hhanded => ?_⟩
  · exact hwalk.not_needed hg hout hhanded hcomputed hr hkey hne hbefore
  · exact hwalk.inputsOnce hhanded hinput hm
  · have hpin : ¬a'.Holds key .pinned :=
      hwalk.sound.active_not_pinned (hwalk.active hhanded)
    refine ⟨fun p hp hkey => hpin ⟨p, hp, hkey⟩, fun layer region hregion => ?_⟩
    obtain ⟨hk, hv⟩ := hwalk.sound.regions hregion
    exact ⟨fun heq => hpin (heq ▸ hk), fun heq => hpin (heq ▸ hv)⟩

-- ============================== sample

namespace Sample

/-- A link of a chain: an operation on eight values. -/
def link (id : NodeId) (op : Op) (src : List NodeId) : CNode where
  id := id
  name := "n"
  op := op
  src := src
  outShape := ⟨8, 1, 1, 1⟩
  backend := none
  nodeMeta := .other
  view := none

/-- An input, and each node reads the one before. -/
def chain : ComputeGraph where
  nodes := [link 0 .input [], link 1 .rmsNorm [0], link 2 .mul [1],
    link 3 .scale [2], link 4 .silu [3]]
  inputs := [0]
  outputs := [4]
  uid := 1

/-- No budget, no refusal. -/
def roomy : AllocEnv where
  guard _ _ := none
  memoryBudget _ := none
  weightsBytes _ := 0
  readsPackedKv _ := true
  isRegistered _ := true

theorem chain_links : ∀ i : Fin chain.nodes.length, chain.nodes[i].id = i.1 ∧
    (∀ s ∈ chain.nodes[i].src, s < i.1) ∧ chain.nodes[i].view = none ∧
      (chain.nodes[i].isInput = true → i.1 ∈ chain.inputs) := by
  decide

theorem chain_buildOrder : chain.BuildOrder where
  ids n node h := by
    obtain ⟨hn, rfl⟩ := List.getElem?_eq_some_iff.1 h
    exact (chain_links ⟨n, hn⟩).1
  sources n node h := by
    obtain ⟨hn, rfl⟩ := List.getElem?_eq_some_iff.1 h
    exact (chain_links ⟨n, hn⟩).2.1
  views n node v h hv := by
    obtain ⟨hn, rfl⟩ := List.getElem?_eq_some_iff.1 h
    exact absurd ((chain_links ⟨n, hn⟩).2.2.1.symm.trans hv) nofun
  listed n node h hinput := by
    obtain ⟨hn, rfl⟩ := List.getElem?_eq_some_iff.1 h
    exact (chain_links ⟨n, hn⟩).2.2.2 hinput

/-- The third node gets the first one's buffer, which nothing needs then. -/
theorem chain_recycled :
    (3, (Backend.cpu, 1)) ∈ (new.allocGraph roomy chain).2.handed ∧
      ((new.allocGraph roomy chain).2.nodeToBuf.lookup 1).map BufRef.key
        = some (Backend.cpu, 1) ∧
        ¬chain.NeededFrom (new.allocGraph roomy chain).2 3 1 := by
  have hok : new.allocGraph roomy chain = (.ok (), (new.allocGraph roomy chain).2) :=
    Prod.ext (by decide +kernel) rfl
  have hhanded : (3, (Backend.cpu, 1))
    ∈ (new.allocGraph roomy chain).2.handed := by decide +kernel
  have hbuf : (new.allocGraph roomy chain).2.nodeToBuf.lookup 1
    = some (.own .cpu 1 8) := by decide +kernel
  have hcomputed : ¬chain.InputNode 3 :=
    ComputeGraph.not_inputNode
      (show chain.nodes[3]? = some (link 3 .scale [2]) from rfl) rfl
  refine ⟨hhanded, congrArg (Option.map BufRef.key) hbuf, ?_⟩
  exact (recycled_buffers_unneeded .new chain_buildOrder hok).1 3
    (.cpu, 1) hhanded hcomputed 1 _ hbuf rfl
    (by decide) (.inl (by decide))

end Sample
end Minfer.Graph
