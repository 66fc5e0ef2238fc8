/-
What `split_graph` makes of a graph whose nodes are assigned.

The first loop tiles the graph (`Tiles`): the splits follow one another,
each runs on the backend its nodes are assigned to, and neighbours differ.
The second loop only notes edges (`Noted`), so the tiles stay what they
were; what it has noted at the end is every edge that leaves its split, once.
-/
import Minfer.Graph.Schedule
import Minfer.Graph.Proofs.Recycle

namespace Minfer.Graph

namespace Split

/-- What the edges leave alone. -/
def span (s : Split) : Backend × Nat × Nat := (s.backend, s.start, s.stop)

variable {s : Split} {n x : NodeId}

@[simp] theorem span_addInput : (s.addInput n).span = s.span := by
  rw [addInput]
  split <;> rfl

@[simp] theorem span_addOutput : (s.addOutput n).span = s.span := by
  rw [addOutput]
  split <;> rfl

@[simp] theorem outputs_addInput : (s.addInput n).outputs = s.outputs := by
  rw [addInput]
  split <;> rfl

@[simp] theorem inputs_addOutput : (s.addOutput n).inputs = s.inputs := by
  rw [addOutput]
  split <;> rfl

@[simp] theorem mem_inputs_addInput : x ∈ (s.addInput n).inputs
    ↔ x ∈ s.inputs ∨ x = n := by
  rw [addInput]
  split
  next h => exact ⟨.inl, fun hx => hx.elim id fun heq => heq ▸ h⟩
  next => simp

@[simp] theorem mem_outputs_addOutput : x ∈ (s.addOutput n).outputs
    ↔ x ∈ s.outputs ∨ x = n := by
  rw [addOutput]
  split
  next h => exact ⟨.inl, fun hx => hx.elim id fun heq => heq ▸ h⟩
  next => simp

/-- What a split notes, it notes once. -/
def Once (s : Split) : Prop := s.inputs.Nodup ∧ s.outputs.Nodup

/-- An input is noted once. -/
theorem Once.addInput (h : s.Once) : (s.addInput n).Once := by
  rw [Split.addInput]
  split
  · exact h
  next hnot =>
    refine ⟨List.nodup_append.2
      ⟨h.1, List.nodup_singleton _, fun y hy z hz heq => hnot ?_⟩, h.2⟩
    rw [← List.mem_singleton.1 hz, ← heq]
    exact hy

/-- An output is noted once. -/
theorem Once.addOutput (h : s.Once) : (s.addOutput n).Once := by
  rw [Split.addOutput]
  split
  · exact h
  next hnot =>
    refine ⟨h.1,
      List.nodup_append.2 ⟨h.2, List.nodup_singleton _,
        fun y hy z hz heq => hnot ?_⟩⟩
    rw [← List.mem_singleton.1 hz, ← heq]
    exact hy

/-- A split has the nodes from its start up to its stop. -/
theorem mem_ids {n : Nat} : n ∈ s.ids ↔ s.start ≤ n ∧ n < s.stop := by
  rw [ids, List.mem_range'_1]
  omega

end Split

namespace ComputeGraph

variable {g : ComputeGraph}

-- =============================== tiles

/-- `assign_backends` has run. -/
def Assigned (g : ComputeGraph) : Prop := ∀ node ∈ g.nodes, node.backend.isSome

/-- A node's sources, none when there is no such node. -/
def sourcesOf (g : ComputeGraph) (n : NodeId) : List NodeId :=
  ((g.nodes[n]?).map (·.src)).getD []

/-- The split runs its nodes where they are assigned. -/
def AtHome (g : ComputeGraph) (s : Split) : Prop :=
  ∀ n ∈ s.ids, ∀ node, g.nodes[n]? = some node → node.home = s.backend

/-- The splits cover the graph from node `lo` on, one after the other. -/
inductive Tiles (g : ComputeGraph) : Nat → List Split → Prop where
  | last {s : Split} (start : s.start ≤ s.stop) (stop : s.stop = g.nNodes)
      (home : g.AtHome s) : Tiles g s.start [s]
  | cons {s t : Split} {rest : List Split} (start : s.start < s.stop)
      (home : g.AtHome s)
      (differ : s.backend ≠ t.backend) (next : Tiles g s.stop (t :: rest)) :
        Tiles g s.start (s :: t :: rest)

variable {lo : Nat} {splits : List Split} {s : Split} {n : NodeId}

/-- What is noted on the splits does not matter. -/
theorem Tiles.congr {splits' : List Split} (h : g.Tiles lo splits)
    (hspans : splits'.map Split.span = splits.map Split.span) :
    g.Tiles lo splits' := by
  have hspan : ∀ {s s' : Split}, s'.span = s.span →
      s'.backend = s.backend ∧ s'.start = s.start ∧ s'.stop = s.stop := fun heq =>
    ⟨congrArg Prod.fst heq, congrArg (·.2.1) heq, congrArg (·.2.2) heq⟩
  have hhome : ∀ {s s' : Split}, s'.span = s.span → g.AtHome s → g.AtHome s' := by
    intro s s' heq hs n hn node hnode
    obtain ⟨hb, hstart, hstop⟩ := hspan heq
    rw [Split.mem_ids, hstart, hstop, ← Split.mem_ids] at hn
    rw [hb]
    exact hs n hn node hnode
  induction h generalizing splits' with
  | @last s hle hstop hs =>
      obtain ⟨s', rest', rfl, heq, hnil⟩ := List.map_eq_cons_iff.1 hspans
      obtain rfl := List.map_eq_nil_iff.1 hnil
      obtain ⟨-, hstart, hstop'⟩ := hspan heq
      rw [← hstart]
      exact .last (by rwa [hstart, hstop']) (hstop'.trans hstop) (hhome heq hs)
  | @cons s t rest hlt hs hne _ ih =>
      obtain ⟨s', tail', rfl, heq, htail⟩ := List.map_eq_cons_iff.1 hspans
      have hnext := ih htail
      obtain ⟨t', rest', rfl, heqt, -⟩ := List.map_eq_cons_iff.1 htail
      obtain ⟨hb, hstart, hstop⟩ := hspan heq
      rw [← hstop] at hnext
      rw [← hstart]
      refine .cons (by rwa [hstart, hstop]) (hhome heq hs) ?_ hnext
      rw [hb, (hspan heqt).1]
      exact hne

/-- The first loop, from node `id` on, with `split` open on backend `c`. -/
theorem cutSplits_tiles {nodes : List CNode} {id : Nat} {c : Backend}
    {split : Split} (hassigned : ∀ node ∈ nodes, node.backend.isSome)
    (hdrop : g.nodes.drop id = nodes) (hid : id ≤ g.nNodes)
    (hopen : split.start < id) (hc : split.backend = c)
    (hhome : ∀ n node, split.start ≤ n → n < id → g.nodes[n]? = some node →
      node.home = c) :
    g.Tiles split.start (cutSplits nodes id (some c) split) ∧
      ((cutSplits nodes id (some c) split).head?.map Split.backend) = some c := by
  have hclosed : g.AtHome { split with stop := id } := by
    intro n hn node hnode
    rw [Split.mem_ids] at hn
    rw [hc]
    exact hhome n node hn.1 hn.2 hnode
  induction nodes generalizing id c split with
  | nil =>
      have hend : id = g.nNodes := Nat.le_antisymm hid (List.drop_eq_nil_iff.1 hdrop)
      exact ⟨.last (s := { split with stop := id })
        (Nat.le_of_lt hopen) hend hclosed, by simp [cutSplits, hc]⟩
  | cons node rest ih =>
      have hnode : g.nodes[id]? = some node := by
        rw [← List.head?_drop, hdrop, List.head?_cons]
      have hlt : id < g.nNodes := (List.getElem?_eq_some_iff.1 hnode).1
      have hrest : g.nodes.drop (id + 1) = rest := by
        rw [← List.drop_drop, hdrop]
        rfl
      have hassigned' :=
        fun node' hmem => hassigned node' (List.mem_cons_of_mem _ hmem)
      obtain ⟨b, hb⟩ := Option.isSome_iff_exists.1 (hassigned node List.mem_cons_self)
      have hhomeb : node.home = b := by rw [CNode.home, hb, Option.getD_some]
      -- the split that is open when the rest is cut: this node's, alone or
      -- appended
      have hnext : ∀ s : Split, s.backend = b → s.start ≤ id →
          (∀ n node', s.start ≤ n → n < id → g.nodes[n]? = some node' →
            node'.home = b) →
            ∀ n node', s.start ≤ n → n < id + 1 → g.nodes[n]? = some node' →
                node'.home = b := by
        intro s _ _ hbefore n node' hlo hn hnode'
        by_cases heq : n = id
        · subst heq
          rw [hnode] at hnode'
          cases hnode'
          exact hhomeb
        · exact hbefore n node' hlo (by omega) hnode'
      rw [cutSplits, hb]
      dsimp only [Option.getD_some]
      by_cases hcut : b ≠ c
      · rw [if_pos hcut]
        have hbefore : ∀ n node', (Split.new b id).start ≤ n → n < id →
            g.nodes[n]? = some node' → node'.home = b :=
          fun n node' hlo hn => absurd hn (Nat.not_lt_of_le hlo)
        have hall := hnext (Split.new b id) rfl (Nat.le_refl _) hbefore
        obtain ⟨htiles, hhead⟩ :=
          ih hassigned' hrest hlt (Nat.lt_succ_self id)
          (show (Split.new b id).backend = b from rfl) hall
          fun n hn node' hnode' =>
            hall n node' (Split.mem_ids.1 hn).1 (Split.mem_ids.1 hn).2 hnode'
        refine ⟨?_, by simp [hc]⟩
        cases hcuts : cutSplits rest (id + 1) (some b) (Split.new b id) with
        | nil => rw [hcuts] at hhead; cases hhead
        | cons t more =>
            rw [hcuts] at htiles hhead
            have hbt : t.backend = b := Option.some.inj hhead
            refine .cons (s := { split with stop := id }) hopen hclosed ?_ htiles
            rw [hbt]
            exact fun heq => hcut (heq.symm.trans hc)
      · rw [if_neg hcut]
        have hbc : b = c := not_not.1 hcut
        subst hbc
        have hall := hnext split hc (Nat.le_of_lt hopen) hhome
        refine ih hassigned' hrest hlt
          (Nat.lt_succ_of_lt hopen) hc hall fun n hn node' hnode' => ?_
        rw [hc]
        exact hall n node' (Split.mem_ids.1 hn).1 (Split.mem_ids.1 hn).2 hnode'

/-- The cuts tile the graph. -/
theorem cutSplits_all (h : g.Assigned) : g.Tiles 0
    (cutSplits g.nodes 0 none (.new .cpu 0)) := by
  cases hnodes : g.nodes with
  | nil =>
      have hnone : g.nNodes = 0 := by rw [nNodes, hnodes]; rfl
      refine .last (s := { Split.new .cpu 0 with stop := 0 })
        (Nat.le_refl _) hnone.symm fun n hn => ?_
      rw [Split.mem_ids] at hn
      exact absurd hn.2 (Nat.not_lt_zero n)
  | cons node rest =>
      have hnode : g.nodes[0]? = some node := by rw [hnodes]; rfl
      obtain ⟨b, hb⟩ :=
        Option.isSome_iff_exists.1 (h node (hnodes ▸ List.mem_cons_self))
      have hhomeb : node.home = b := by rw [CNode.home, hb, Option.getD_some]
      rw [cutSplits, hb]
      refine (@cutSplits_tiles g rest 1 b (.new b 0)
        (fun node' hmem => h node' (hnodes ▸ List.mem_cons_of_mem _ hmem))
        (by rw [hnodes]; rfl) (by rw [nNodes, hnodes]; exact Nat.succ_pos _)
          (Nat.lt_succ_self 0) rfl fun n node' _ hn hnode' => ?_).1
      obtain rfl : n = 0 := by omega
      rw [hnode] at hnode'
      cases hnode'
      exact hhomeb

/-- The first loop notes nothing. -/
theorem cutSplits_fresh {nodes : List CNode} {id : Nat} {cur : Option Backend}
    {split : Split} (hopen : split.inputs = [] ∧ split.outputs = []) :
    ∀ s ∈ cutSplits nodes id cur split, s.inputs = [] ∧ s.outputs = [] := by
  induction nodes generalizing id cur split with
  | nil => exact fun s hs => (List.mem_singleton.1 hs) ▸ hopen
  | cons node rest ih =>
      cases cur with
      | none => exact ih ⟨rfl, rfl⟩
      | some c =>
          rw [cutSplits]
          split
          · intro s hs
            rcases List.mem_cons.1 hs with rfl | hs
            · exact hopen
            · exact ih ⟨rfl, rfl⟩ s hs
          · exact ih hopen

/-- After a split the tiling ends, or goes on with another backend. -/
theorem Tiles.tail {rest : List Split} (h : g.Tiles lo (s :: rest)) :
    rest = [] ∧ s.stop = g.nNodes ∨ ∃ t more, rest = t :: more
      ∧ s.backend ≠ t.backend ∧ g.Tiles s.stop rest := by
  cases h with
  | last _ stop _ => exact .inl ⟨rfl, stop⟩
  | cons _ _ differ next => exact .inr ⟨_, _, rfl, differ, next⟩

theorem Tiles.le_start (h : g.Tiles lo splits) :
    ∀ s ∈ splits, lo ≤ s.start := by
  induction h with
  | last => exact fun s hs => (List.mem_singleton.1 hs) ▸ Nat.le_refl _
  | @cons s t rest hlt _ _ _ ih =>
      intro s' hs'
      rcases List.mem_cons.1 hs' with rfl | hs'
      · exact Nat.le_refl _
      · exact Nat.le_trans (Nat.le_of_lt hlt) (ih s' hs')

/-- One split ends before the next one starts. -/
theorem Tiles.pairwise (h : g.Tiles lo splits) :
    splits.Pairwise fun s t => s.stop ≤ t.start := by
  induction h with
  | last => exact List.pairwise_singleton ..
  | cons _ _ _ next ih => exact List.pairwise_cons.2 ⟨next.le_start, ih⟩

/-- Every node is in a split. -/
theorem Tiles.cover (h : g.Tiles lo splits) (hlo : lo ≤ n)
    (hn : n < g.nNodes) : ∃ s ∈ splits, n ∈ s.ids := by
  induction h with
  | @last s _ hstop _ =>
      exact ⟨s, List.mem_singleton_self s, Split.mem_ids.2 ⟨hlo, hstop ▸ hn⟩⟩
  | @cons s t rest _ _ _ _ ih =>
      by_cases hin : n < s.stop
      · exact ⟨s, List.mem_cons_self, Split.mem_ids.2 ⟨hlo, hin⟩⟩
      · obtain ⟨s', hs', hmem⟩ := ih (Nat.le_of_not_lt hin)
        exact ⟨s', List.mem_cons_of_mem _ hs', hmem⟩

/-- Every node of a split is at home on the split's backend. -/
theorem Tiles.atHome (h : g.Tiles lo splits) :
    ∀ s ∈ splits, g.AtHome s := by
  induction h with
  | last _ _ home => exact fun s hs => (List.mem_singleton.1 hs) ▸ home
  | @cons s t rest _ home _ _ ih =>
      intro s' hs'
      rcases List.mem_cons.1 hs' with rfl | hs'
      · exact home
      · exact ih s' hs'

/-- A node is in one split. -/
theorem Tiles.unique (h : g.Tiles lo splits) {i j : Nat} {t : Split}
    (hs : splits[i]? = some s) (ht : splits[j]? = some t) (hns : n ∈ s.ids)
    (hnt : n ∈ t.ids) : i = j := by
  have hpair := List.pairwise_iff_getElem.1 h.pairwise
  rw [Split.mem_ids] at hns hnt
  obtain ⟨hi, rfl⟩ := List.getElem?_eq_some_iff.1 hs
  obtain ⟨hj, rfl⟩ := List.getElem?_eq_some_iff.1 ht
  rcases Nat.lt_trichotomy i j with hlt | heq | hlt
  · exact absurd (hpair i j hi hj hlt) (by omega)
  · exact heq
  · exact absurd (hpair j i hj hi hlt) (by omega)

-- ============================== owners

/-- A table that is filled split by split holds what each split wrote. -/
theorem due_assignAll {entries : List (Split × Nat)} {table : List Nat}
    {n v : Nat} (hn : n < table.length)
    (hsame : ∀ p ∈ entries, n ∈ p.1.ids → p.2 = v)
    (hset : (∃ p ∈ entries, n ∈ p.1.ids) ∨ due table n = v) :
    due (entries.foldl (fun table s => setAt table s.1.ids s.2) table) n = v := by
  induction entries generalizing table with
  | nil => exact hset.elim (fun ⟨_, hp, _⟩ => absurd hp List.not_mem_nil) id
  | cons p rest ih =>
      rw [List.foldl_cons]
      refine ih (by rwa [length_setAt])
        (fun q hq => hsame q (List.mem_cons_of_mem _ hq)) ?_
      by_cases hin : n ∈ p.1.ids
      · refine .inr ?_
        rw [due_setAt, if_pos ⟨hin, hn⟩]
        exact hsame p List.mem_cons_self hin
      · rcases hset with ⟨q, hq, hnq⟩ | hdue
        · rcases List.mem_cons.1 hq with rfl | hq
          · exact absurd hnq hin
          · exact .inl ⟨q, hq, hnq⟩
        · exact .inr (by rw [due_setAt, if_neg fun h => hin h.1]; exact hdue)

/-- `split_of` names the split a node is in. -/
theorem splitOf_eq (h : g.Tiles 0 splits) {i : Nat}
    (hs : splits[i]? = some s) (hn : n ∈ s.ids) (hlt : n < g.nNodes) :
    due (g.splitOf splits) n = i := by
  rw [splitOf]
  refine due_assignAll (by rwa [List.length_replicate]) (fun p hp hmem => ?_)
    (.inl ⟨(s, i), ?_, hn⟩)
  · exact h.unique (List.mem_zipIdx_iff_getElem?.1 hp) hs hmem hn
  · exact List.mem_zipIdx_iff_getElem?.2 hs

-- =============================== edges

/-- The inputs and outputs noted on a split. -/
def inputsAt (splits : List Split) (i : Nat) : List NodeId :=
  ((splits[i]?).map (·.inputs)).getD []

def outputsAt (splits : List Split) (i : Nat) : List NodeId :=
  ((splits[i]?).map (·.outputs)).getD []

/-- The edges into the splits that `E` names have been noted, and nothing
else has changed. -/
structure Noted (owner : List Nat) (E : Nat → NodeId → Prop)
    (splits splits' : List Split) : Prop where
  spans : splits'.map Split.span = splits.map Split.span
  inputs : ∀ i x, x ∈ inputsAt splits' i ↔
    x ∈ inputsAt splits i ∨ (E i x ∧ due owner x ≠ i ∧ i < splits.length)
  outputs : ∀ i x, x ∈ outputsAt splits' i ↔
    x ∈ outputsAt splits i
      ∨ (due owner x = i ∧ i < splits.length ∧ ∃ j, E j x ∧ j ≠ i)
  once : (∀ s ∈ splits, s.Once) → ∀ s ∈ splits', s.Once

section

variable {owner : List Nat} {E E' : Nat → NodeId → Prop}
  {splits splits' splits'' : List Split}

/-- Noting edges adds no split. -/
theorem Noted.length (h : Noted owner E splits splits') :
    splits'.length = splits.length := by
  have := congrArg List.length h.spans
  rwa [List.length_map, List.length_map] at this

/-- Nothing noted. -/
theorem Noted.none : Noted owner (fun _ _ => False) splits splits where
  spans := rfl
  inputs i x := by simp
  outputs i x := by simp
  once := id

/-- Edges noted in two passes. -/
theorem Noted.trans (h : Noted owner E splits splits')
    (h' : Noted owner E' splits' splits'') :
    Noted owner (fun i x => E i x ∨ E' i x) splits splits'' where
  spans := h'.spans.trans h.spans
  inputs i x := by
    rw [h'.inputs, h.inputs, h.length]
    grind
  outputs i x := by
    rw [h'.outputs, h.outputs, h.length]
    grind
  once hs := h'.once (h.once hs)

/-- Which edges were noted is all that counts. -/
theorem Noted.congr (h : Noted owner E splits splits') (heq : ∀ i x, E i x ↔ E' i x) :
    Noted owner E' splits splits' := by
  have : E = E' := funext fun i => funext fun x => propext (heq i x)
  exact this ▸ h

variable {f : Split → Split} {i j : Nat} {n : NodeId}

theorem spans_modify (hf : ∀ s, (f s).span = s.span) (i : Nat) :
    (splits.modify i f).map Split.span = splits.map Split.span := by
  refine List.ext_getElem? fun j => ?_
  rw [List.getElem?_map, List.getElem?_map, List.getElem?_modify]
  cases splits[j]? with
  | none => rfl
  | some s =>
      by_cases heq : i = j
      · simp [heq, hf]
      · simp [heq]

/-- The inputs of a split, after a change to one. -/
theorem inputsAt_modify :
    inputsAt (splits.modify i f) j =
      if i = j then ((splits[j]?).map fun s => (f s).inputs).getD []
        else inputsAt splits j := by
  rw [inputsAt, inputsAt, List.getElem?_modify]
  cases splits[j]? with
  | none => split <;> rfl
  | some s => split <;> rfl

/-- The outputs of a split, after a change to one. -/
theorem outputsAt_modify :
    outputsAt (splits.modify i f) j =
      if i = j then ((splits[j]?).map fun s => (f s).outputs).getD []
        else outputsAt splits j := by
  rw [outputsAt, outputsAt, List.getElem?_modify]
  cases splits[j]? with
  | none => split <;> rfl
  | some s => split <;> rfl

/-- An input noted on one split. -/
theorem mem_addedInput {x : NodeId} :
    x ∈ inputsAt (splits.modify i (·.addInput n)) j ↔
      x ∈ inputsAt splits j ∨ (x = n ∧ i = j ∧ j < splits.length) := by
  rw [inputsAt_modify]
  split
  next heq =>
    rw [inputsAt]
    by_cases hj : j < splits.length
    · simp [heq, hj]
    · simp [hj]
  next hne => exact ⟨.inl, fun h => h.elim id fun hx => absurd hx.2.1 hne⟩

/-- An output noted on one split. -/
theorem mem_addedOutput {x : NodeId} :
    x ∈ outputsAt (splits.modify i (·.addOutput n)) j ↔
      x ∈ outputsAt splits j ∨ (x = n ∧ i = j ∧ j < splits.length) := by
  rw [outputsAt_modify]
  split
  next heq =>
    rw [outputsAt]
    by_cases hj : j < splits.length
    · simp [heq, hj]
    · simp [hj]
  next hne => exact ⟨.inl, fun h => h.elim id fun hx => absurd hx.2.1 hne⟩

theorem outputsAt_addInput :
    outputsAt (splits.modify i (·.addInput n)) j = outputsAt splits j := by
  rw [outputsAt_modify]
  split
  · rw [outputsAt]
    cases splits[j]? <;> simp
  · rfl

theorem inputsAt_addOutput :
    inputsAt (splits.modify i (·.addOutput n)) j = inputsAt splits j := by
  rw [inputsAt_modify]
  split
  · rw [inputsAt]
    cases splits[j]? <;> simp
  · rfl

/-- A change that keeps edges single on one split does so on all. -/
theorem once_modify (hf : ∀ s : Split, s.Once → (f s).Once)
    (h : ∀ s ∈ splits, s.Once) : ∀ s ∈ splits.modify i f, s.Once := by
  intro s hs
  obtain ⟨j, hj⟩ := List.mem_iff_getElem?.1 hs
  rw [List.getElem?_modify] at hj
  obtain ⟨s₀, hs₀, rfl⟩ := Option.map_eq_some_iff.1 hj
  have hone := h s₀ (List.mem_iff_getElem?.2 ⟨j, hs₀⟩)
  split
  · exact hf s₀ hone
  · exact hone

/-- One edge. -/
theorem noteEdge_noted {src : NodeId} :
    Noted owner (fun j x => j = i ∧ x = src) splits
      (noteEdge owner i splits src) := by
  rw [noteEdge]
  have hdue : owner.getD src 0 = due owner src := List.getD_eq_getElem?_getD ..
  rw [hdue]
  by_cases hcross : due owner src ≠ i
  · rw [if_pos hcross]
    refine ⟨?_, fun j x => ?_, fun j x => ?_, fun h => ?_⟩
    · rw [spans_modify fun _ => Split.span_addOutput,
        spans_modify fun _ => Split.span_addInput]
    · rw [inputsAt_addOutput, mem_addedInput]
      grind
    · rw [mem_addedOutput, outputsAt_addInput, List.length_modify]
      grind
    · exact once_modify (fun _ => Split.Once.addOutput)
        (once_modify (fun _ => Split.Once.addInput) h)
  · rw [if_neg hcross]
    refine ⟨rfl, fun j x => ?_, fun j x => ?_, id⟩
    · grind
    · grind

/-- The edges from a node's sources. -/
theorem noteEdgeAll_noted {src : List NodeId} :
    Noted owner (fun j x => j = i ∧ x ∈ src) splits
      (src.foldl (noteEdge owner i) splits) := by
  induction src generalizing splits with
  | nil => exact Noted.none.congr fun j x => by simp
  | cons s rest ih =>
      refine (noteEdge_noted.trans ih).congr fun j x => ?_
      simp
      grind

/-- The edges of a list of nodes. -/
theorem noteNodes_noted {ids : List NodeId} :
    Noted owner (fun j x => j = i ∧ ∃ n ∈ ids, x ∈ g.sourcesOf n) splits
      (ids.foldl (fun splits n =>
        (((g.nodes[n]?).map (·.src)).getD []).foldl (noteEdge owner i) splits)
        splits) := by
  induction ids generalizing splits with
  | nil => exact Noted.none.congr fun j x => by simp
  | cons n rest ih =>
      refine (noteEdgeAll_noted.trans ih).congr fun j x => ?_
      simp [sourcesOf]
      grind

/-- The edges of one split. -/
theorem noteEdges_noted :
    Noted owner (fun j x => j = i ∧ ∃ s, splits[i]? = some s
      ∧ ∃ n ∈ s.ids, x ∈ g.sourcesOf n) splits
      (g.noteEdges owner splits i) := by
  rw [noteEdges]
  split
  next hnone => exact Noted.none.congr fun j x => by simp [hnone]
  next s hs => exact noteNodes_noted.congr fun j x => by simp [hs]

/-- The span of a split gives its nodes. -/
theorem ids_of_spans (h : splits'.map Split.span = splits.map Split.span) (i : Nat) :
    (splits'[i]?).map Split.ids = (splits[i]?).map Split.ids := by
  have hids : Split.ids
    = (fun sp : Backend × Nat × Nat => List.range' sp.2.1 (sp.2.2 - sp.2.1))
    ∘ Split.span := rfl
  have hspan : (splits'[i]?).map Split.span = (splits[i]?).map Split.span := by
    rw [← List.getElem?_map, ← List.getElem?_map, h]
  rw [hids, ← Option.map_map, hspan, Option.map_map]

/-- The second loop. -/
theorem noteAll_noted {is : List Nat} :
    Noted owner (fun j x => j ∈ is ∧ ∃ s, splits[j]? = some s
      ∧ ∃ n ∈ s.ids, x ∈ g.sourcesOf n) splits
      (is.foldl (g.noteEdges owner) splits) := by
  induction is generalizing splits with
  | nil => exact Noted.none.congr fun j x => by simp
  | cons i rest ih =>
      have hone : Noted owner _ splits (g.noteEdges owner splits i) := noteEdges_noted
      refine (hone.trans ih).congr fun j x => ?_
      have hids := ids_of_spans hone.spans j
      have hsame :
          (∃ s, (g.noteEdges owner splits i)[j]? = some s
            ∧ ∃ n ∈ s.ids, x ∈ g.sourcesOf n) ↔
          ∃ s, splits[j]? = some s ∧ ∃ n ∈ s.ids, x ∈ g.sourcesOf n := by
        cases hj : splits[j]? with
        | none =>
            rw [hj, Option.map_none, Option.map_eq_none_iff] at hids
            simp [hids]
        | some s =>
            rw [hj, Option.map_some] at hids
            obtain ⟨s', hs', hidseq⟩ := Option.map_eq_some_iff.1 hids
            simp [hs', hidseq]
      rw [hsame, List.mem_cons]
      constructor
      · rintro (⟨rfl, h⟩ | ⟨hmem, h⟩)
        · exact ⟨.inl rfl, h⟩
        · exact ⟨.inr hmem, h⟩
      · rintro ⟨rfl | hmem, h⟩
        · exact .inl ⟨rfl, h⟩
        · exact .inr ⟨hmem, h⟩

end

-- ========================= split_graph

/-- Every edge of the graph is noted, and nothing else. -/
theorem splitGraph_noted : Noted (g.splitOf (cutSplits g.nodes 0 none (.new .cpu 0)))
    (fun j x => ∃ s, (cutSplits g.nodes 0 none (.new .cpu 0))[j]? = some s
      ∧ ∃ n ∈ s.ids, x ∈ g.sourcesOf n)
      (cutSplits g.nodes 0 none (.new .cpu 0)) g.splitGraph := by
  refine noteAll_noted.congr fun j x => ⟨fun h => h.2, fun h => ⟨?_, h⟩⟩
  obtain ⟨s, hs, -⟩ := h
  exact List.mem_range.2 (List.getElem?_eq_some_iff.1 hs).1

/-- Noting edges does not move the cuts. -/
theorem splitGraph_tiles (h : g.Assigned) : g.Tiles 0 g.splitGraph :=
  (cutSplits_all h).congr splitGraph_noted.spans

theorem Tiles.start_le (h : g.Tiles lo splits) : lo ≤ g.nNodes := by
  induction h with
  | @last s hle hstop _ => exact hstop ▸ hle
  | cons hlt _ _ _ ih => exact Nat.le_trans (Nat.le_of_lt hlt) ih

/-- A split ends inside the graph, after its start. -/
theorem Tiles.bounds (h : g.Tiles lo splits) :
    ∀ s ∈ splits, s.start ≤ s.stop ∧ s.stop ≤ g.nNodes := by
  induction h with
  | last hle hstop _ => exact fun s hs =>
      (List.mem_singleton.1 hs) ▸ ⟨hle, Nat.le_of_eq hstop⟩
  | @cons s t rest hlt _ _ hnext ih =>
      intro s' hs'
      rcases List.mem_cons.1 hs' with rfl | hs'
      · exact ⟨Nat.le_of_lt hlt, hnext.start_le⟩
      · exact ih s' hs'

/-- The splits list every node once, in order. -/
theorem Tiles.ids_range (h : g.Tiles lo splits) :
    splits.flatMap Split.ids = List.range' lo (g.nNodes - lo) := by
  induction h with
  | last _ hstop _ => rw [List.flatMap_singleton, Split.ids, hstop]
  | @cons s t rest hlt _ _ hnext ih =>
      have hle : s.stop ≤ g.nNodes := hnext.start_le
      have hjoin : List.range' s.start (s.stop - s.start)
          ++ List.range' s.stop (g.nNodes - s.stop) =
          List.range' s.start (s.stop - s.start + (g.nNodes - s.stop)) := by
        rw [← List.range'_append_1, Nat.add_sub_cancel' (Nat.le_of_lt hlt)]
      rw [List.flatMap_cons, ih, Split.ids, hjoin]
      congr 1
      omega

/-- Neighbouring splits have different backends. -/
theorem Tiles.differ (h : g.Tiles lo splits) :
    splits.IsChain fun s t => s.backend ≠ t.backend := by
  induction h with
  | last => exact .singleton _
  | cons _ _ hne _ ih => exact .cons_cons hne ih

/-- A node's sources are those its entry names. -/
theorem mem_sourcesOf {x : NodeId} : x ∈ g.sourcesOf n
    ↔ ∃ node, g.nodes[n]? = some node ∧ x ∈ node.src := by
  rw [sourcesOf]
  cases g.nodes[n]? with
  | none => simp
  | some node => simp

/-- A split's inputs are what its nodes read from before it, its outputs
what is read after it. -/
theorem mem_inputs_outputs (hg : g.BuildOrder) (h : g.Assigned)
    (hs : s ∈ g.splitGraph) {x : Nat} :
    (x ∈ s.inputs ↔ x < s.start ∧ ∃ n ∈ s.ids, x ∈ g.sourcesOf n) ∧
      (x ∈ s.outputs ↔ x ∈ s.ids ∧ ∃ n : Nat, s.stop ≤ n ∧ x ∈ g.sourcesOf n) := by
  have htiles := splitGraph_tiles h
  have hcuts := cutSplits_all h
  have hnoted := splitGraph_noted (g := g)
  obtain ⟨i, hi⟩ := List.mem_iff_getElem?.1 hs
  have hlen : i < (cutSplits g.nodes 0 none (.new .cpu 0)).length := by
    rw [← hnoted.length]
    exact (List.getElem?_eq_some_iff.1 hi).1
  -- the split as the first loop cut it
  obtain ⟨c, hc⟩ : ∃ c, (cutSplits g.nodes 0 none (.new .cpu 0))[i]?
    = some c := ⟨_, List.getElem?_eq_getElem hlen⟩
  have hids : s.ids = c.ids := by
    have hsame := ids_of_spans hnoted.spans i
    rw [hi, hc] at hsame
    exact Option.some.inj hsame
  have hfresh := cutSplits_fresh ⟨rfl, rfl⟩ c (List.mem_iff_getElem?.2 ⟨i, hc⟩)
  have hread : ∀ {n x : Nat}, x ∈ g.sourcesOf n → n < g.nNodes ∧ x < n := by
    intro n x hx
    obtain ⟨node, hnode, hmem⟩ := mem_sourcesOf.1 hx
    exact ⟨(List.getElem?_eq_some_iff.1 hnode).1, hg.sources n node hnode x hmem⟩
  have howner : ∀ {n}, n < g.nNodes →
      (due (g.splitOf (cutSplits g.nodes 0 none (.new .cpu 0))) n = i
        ↔ n ∈ s.ids) := by
    intro n hn
    constructor
    · intro heq
      obtain ⟨t, ht, hnt⟩ := hcuts.cover (Nat.zero_le n) hn
      obtain ⟨j, hj⟩ := List.mem_iff_getElem?.1 ht
      rw [splitOf_eq hcuts hj hnt hn] at heq
      subst heq
      rw [hc] at hj
      cases hj
      exact hids ▸ hnt
    · exact fun hmem => splitOf_eq hcuts hc (hids ▸ hmem) hn
  constructor
  · have hin := hnoted.inputs i x
    rw [inputsAt, inputsAt, hi, hc, Option.map_some, Option.map_some,
      Option.getD_some, Option.getD_some, hfresh.1] at hin
    rw [hin]
    constructor
    · rintro (hnil | ⟨⟨c', hc', n, hn, hx⟩, hne, -⟩)
      · exact absurd hnil List.not_mem_nil
      · cases hc'
        obtain ⟨hlt, hxn⟩ := hread hx
        have hout : x ∉ s.ids :=
          fun hmem => hne ((howner (Nat.lt_trans hxn hlt)).2 hmem)
        rw [← hids] at hn
        rw [Split.mem_ids] at hn hout
        exact ⟨by omega, n, Split.mem_ids.2 hn, hx⟩
    · rintro ⟨hlo, n, hn, hx⟩
      obtain ⟨hlt, hxn⟩ := hread hx
      refine .inr ⟨⟨c, rfl, n, hids ▸ hn, hx⟩, fun heq => ?_, hlen⟩
      have hmem := Split.mem_ids.1 ((howner (Nat.lt_trans hxn hlt)).1 heq)
      omega
  · have hout := hnoted.outputs i x
    rw [outputsAt, outputsAt, hi, hc, Option.map_some, Option.map_some,
      Option.getD_some, Option.getD_some, hfresh.2] at hout
    rw [hout]
    constructor
    · rintro (hnil | ⟨heq, -, j, ⟨c', hc', n, hn, hx⟩, hne⟩)
      · exact absurd hnil List.not_mem_nil
      · obtain ⟨hlt, hxn⟩ := hread hx
        have hmem := (howner (Nat.lt_trans hxn hlt)).1 heq
        have hnot : n ∉ s.ids := fun hin => hne (hcuts.unique hc' hc hn (hids ▸ hin))
        refine ⟨hmem, n, ?_, hx⟩
        rw [Split.mem_ids] at hmem hnot
        omega
    · rintro ⟨hmem, n, hstop, hx⟩
      obtain ⟨hlt, hxn⟩ := hread hx
      obtain ⟨t, ht, hnt⟩ := hcuts.cover (Nat.zero_le n) hlt
      obtain ⟨j, hj⟩ := List.mem_iff_getElem?.1 ht
      refine .inr ⟨(howner (Nat.lt_trans hxn hlt)).2 hmem, hlen, j,
        ⟨t, hj, n, hnt, hx⟩, fun heq => ?_⟩
      subst heq
      rw [hc] at hj
      cases hj
      rw [← hids, Split.mem_ids] at hnt
      omega

/-- The splits of an assigned graph: they cut the build order into runs, a
run stays on its nodes' backend and the next one changes it, and a split
notes each edge that leaves it once. -/
theorem splitGraph_cuts (hg : g.BuildOrder) (h : g.Assigned) :
    g.splitGraph.flatMap Split.ids = List.range g.nNodes ∧
      (g.splitGraph.IsChain fun s t => s.backend ≠ t.backend) ∧
        ∀ s ∈ g.splitGraph, g.AtHome s ∧ s.Once ∧ ∀ x : Nat,
          (x ∈ s.inputs ↔ x < s.start ∧ ∃ n ∈ s.ids, x ∈ g.sourcesOf n) ∧
            (x ∈ s.outputs ↔ x ∈ s.ids ∧ ∃ n : Nat, s.stop ≤ n
              ∧ x ∈ g.sourcesOf n) := by
  have htiles := splitGraph_tiles h
  refine ⟨?_, htiles.differ, fun s hs =>
    ⟨htiles.atHome s hs, ?_, fun x => mem_inputs_outputs hg h hs⟩⟩
  · rw [htiles.ids_range, Nat.sub_zero, List.range_eq_range']
  · refine splitGraph_noted.once (fun c hc => ?_) s hs
    obtain ⟨hin, hout⟩ := cutSplits_fresh ⟨rfl, rfl⟩ c hc
    rw [Split.Once, hin, hout]
    exact ⟨List.nodup_nil, List.nodup_nil⟩

end ComputeGraph

-- ============================== sample

namespace Sample

/-- A graph that goes to another backend and back. -/
def detour : ComputeGraph where
  nodes := [{ (link 0 .input []) with backend := some .cpu },
    { (link 1 .rmsNorm [0]) with backend := some .cpu },
    { (link 2 .mul [1, 1]) with backend := some .metal },
      { (link 3 .silu [2]) with backend := some .metal },
    { (link 4 .add [3, 1]) with backend := some .cpu }]
  inputs := [0]
  outputs := [4]
  uid := 1

theorem detour_links : ∀ i : Fin detour.nodes.length, detour.nodes[i].id = i.1 ∧
    (∀ s ∈ detour.nodes[i].src, s < i.1) ∧ detour.nodes[i].view = none ∧
      (detour.nodes[i].isInput = true → i.1 ∈ detour.inputs) := by
  decide

theorem detour_buildOrder : detour.BuildOrder where
  ids n node h := by
    obtain ⟨hn, rfl⟩ := List.getElem?_eq_some_iff.1 h
    exact (detour_links ⟨n, hn⟩).1
  sources n node h := by
    obtain ⟨hn, rfl⟩ := List.getElem?_eq_some_iff.1 h
    exact (detour_links ⟨n, hn⟩).2.1
  views n node v h hv := by
    obtain ⟨hn, rfl⟩ := List.getElem?_eq_some_iff.1 h
    have hnone : detour.nodes[n].view = none := (detour_links ⟨n, hn⟩).2.2.1
    rw [hnone] at hv
    cases hv
  listed n node h hinput := by
    obtain ⟨hn, rfl⟩ := List.getElem?_eq_some_iff.1 h
    exact (detour_links ⟨n, hn⟩).2.2.2 hinput

theorem detour_assigned : detour.Assigned := by
  rw [ComputeGraph.Assigned]
  decide

/-- The three runs; the middle one hands on its last node only. -/
theorem splitGraph_cuts_detour :
    detour.splitGraph.flatMap Split.ids = [0, 1, 2, 3, 4] ∧
      ∀ s ∈ detour.splitGraph, s.backend = .metal →
        s.outputs.Nodup ∧ (3 ∈ s.outputs ↔ 3 ∈ s.ids) := by
  obtain ⟨hids, -, hall⟩ :=
    ComputeGraph.splitGraph_cuts detour_buildOrder detour_assigned
  refine ⟨hids, fun s hs _ => ?_⟩
  obtain ⟨-, honce, hnoted⟩ := hall s hs
  refine ⟨honce.2, (hnoted 3).2.trans ⟨fun h => h.1, fun h => ⟨h, 4, ?_, by decide⟩⟩⟩
  have hlast : ∀ s ∈ detour.splitGraph, 3 ∈ s.ids → s.stop ≤ 4 := by decide
  exact hlast s hs h

end Sample
end Minfer.Graph
