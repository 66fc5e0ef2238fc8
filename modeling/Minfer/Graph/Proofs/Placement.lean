/-
What one step of the walk does to the buffers.

Whatever the node, a step that succeeds may add KV regions, and then either
gives the node nothing, puts it on the buffer of one of its sources, puts it
on a region, or hands it a buffer of its own (`Placed`). Whatever the
outcome, custody is kept (`place_outcome`), so it holds of every state that
any sequence of calls leaves (`Reachable.sound`).
-/
import Minfer.Graph.Proofs.Custody

namespace Minfer.Graph

open GraphAllocator

namespace Walk

/-- What a successful step did at a node. -/
inductive Placed (g : ComputeGraph) (w : Walk) (node : CNode) (n : NodeId) :
    Walk → Prop where
  | nothing {a : GraphAllocator} (keeps : Keeps w.alloc a) (sound : a.Sound)
      (viewless : node.isInput = false → node.view = none) :
        Placed g w node n ⟨a, w.lastUse⟩
  | shared {a : GraphAllocator} {src : NodeId} {r ref : BufRef}
      (keeps : Keeps w.alloc a)
      (sound : a.Sound) (computed : node.isInput = false)
        (reads : src ∈ node.src ∨ node.view.map (·.src) = some src)
      (viewed : ∀ v, node.view = some v → v.src = src)
        (holds : a.nodeToBuf.lookup src = some r)
      (same : ref.key = r.key) : Placed g w node n (share ⟨a, w.lastUse⟩ g n src ref)
  | region {a : GraphAllocator} {r : BufRef} (keeps : Keeps w.alloc a)
      (sound : a.Sound) (computed : node.isInput = false)
        (viewless : node.view = none)
      (pinned : a.Holds r.key .pinned) :
      Placed g w node n ⟨{ a with nodeToBuf := a.nodeToBuf.insert n r }, w.lastUse⟩
  | handed {a a' : GraphAllocator} {key : BufKey} (keeps : Keeps w.alloc a)
      (sound : a.Sound) (computed : node.isInput = false)
        (viewless : node.view = none)
      (gave : Handed a a' n key ((w.lastUse[n]?).getD 0)) :
        Placed g w node n ⟨a', w.lastUse⟩

/-- A step's outcome: custody is kept, and a success placed the node. -/
def Outcome (g : ComputeGraph) (w : Walk) (node : CNode) (n : NodeId)
    (r : Except AllocExit Unit × Walk) : Prop :=
  r.2.alloc.Sound ∧ (r.1 = .ok () → Placed g w node n r.2)

section

variable {env : AllocEnv} {g : ComputeGraph} {w : Walk} {node : CNode} {n : NodeId}

/-- A refusal says only that the allocator is sound. -/
theorem Outcome.failed {e : AllocExit} {w' : Walk} (h : w'.alloc.Sound) :
    Outcome g w node n (.error e, w') :=
  ⟨h, nofun⟩

/-- Regions that were added before count to the step. -/
theorem Outcome.after {a : GraphAllocator} {r : Except AllocExit Unit × Walk}
    (hkeeps : Keeps w.alloc a) (h : Outcome g ⟨a, w.lastUse⟩ node n r) :
    Outcome g w node n r := by
  refine ⟨h.1, fun hok => ?_⟩
  have hplaced := h.2 hok
  revert hplaced
  generalize r.2 = w'
  intro hplaced
  cases hplaced with
  | nothing keeps sound viewless => exact .nothing (hkeeps.trans keeps) sound viewless
  | shared keeps sound computed reads viewed holds same =>
      exact .shared (hkeeps.trans keeps) sound computed reads viewed holds same
  | region keeps sound computed viewless pinned =>
      exact .region (hkeeps.trans keeps) sound computed viewless pinned
  | handed keeps sound computed viewless gave =>
      exact .handed (hkeeps.trans keeps) sound computed viewless gave

/-- Sharing a buffer hands out no new one. -/
theorem share_sound {src : NodeId} {ref : BufRef} (h : w.alloc.Sound) :
    (w.share g n src ref).alloc.Sound :=
  extendBufferAlive_spec.sound (h.named _)

/-- A buffer of its own, from the pool. -/
theorem ownBuffer_outcome (h : w.alloc.Sound) (hinput : node.isInput = false)
    (hview : node.view = none) : Outcome g w node n (w.ownBuffer env node n) := by
  rw [ownBuffer]
  dsimp only
  split
  · cases hgot : w.alloc.handBuffer env node n ((w.lastUse[n]?).getD 0) with
    | mk out a =>
        rcases handBuffer_spec h hgot with ⟨e, rfl, rfl⟩ | ⟨rfl, hsound, pid, hgave⟩
        · exact .failed h
        · exact ⟨hsound, fun _ => .handed .rfl h hinput hview hgave⟩
  · exact ⟨h, fun _ => .nothing .rfl h fun _ => hview⟩

/-- A view: its parent's buffer, at an offset. -/
theorem placeView_outcome {v : ViewAlias} (h : w.alloc.Sound)
    (hinput : node.isInput = false)
    (hview : node.view = some v) : Outcome g w node n (w.placeView g node n v) := by
  rw [placeView]
  split
  · exact .failed h
  next parent hparent =>
    dsimp only
    split
    · exact .failed h
    split
    · exact .failed h
    split
    · exact .failed h
    · refine ⟨share_sound h, fun _ =>
        .shared .rfl h hinput (.inr ?_) (fun v' hv' => ?_) hparent rfl⟩
      · rw [hview]
        rfl
      · rw [hview] at hv'
        cases hv'
        rfl

variable {layer : Nat}

/-- A node of the cache: the region of its layer. -/
theorem placeKv_outcome (h : w.alloc.Sound) (hinput : node.isInput = false)
    (hview : node.view = none) : Outcome g w node n (w.placeKv env node n layer) := by
  rw [placeKv]
  split
  next nEmbd rowElems _ =>
    rw [regions]
    cases hgot :
        w.alloc.ensureKv env layer node.home nEmbd rowElems
        node.outShape.d1 with
    | mk out a =>
        obtain ⟨hsound, hkeeps, hpin⟩ := ensureKv_spec h hgot
        cases out with
        | error e => exact .failed hsound
        | ok pair =>
            exact ⟨hsound.named _, fun _ =>
              .region hkeeps hsound hinput hview (hpin pair rfl)⟩

/-- An operation in place: the buffer of its first source, when nobody else
reads it any more. -/
theorem placeInPlace_outcome (h : w.alloc.Sound) (hinput : node.isInput = false)
    (hview : node.view = none) : Outcome g w node n
    (w.placeInPlace env g node n) := by
  rw [placeInPlace]
  split
  · split
    · exact .failed h
    next src hsrc =>
      split
      · exact .failed h
      next inRef hin =>
        have hshare : Outcome g w node n (.ok (), w.share g n src inRef) := by
          refine ⟨share_sound h, fun _ =>
            .shared .rfl h hinput (.inl ?_) (fun v hv => ?_) hin rfl⟩
          · exact List.mem_of_mem_head? hsrc
          · rw [hview] at hv
            cases hv
        have hown : Outcome g w node n (w.ownBuffer env node n) :=
          ownBuffer_outcome h hinput hview
        dsimp only
        split
        · split
          · exact hshare
          · exact hown
        · split
          · exact hshare
          · exact hown
  · exact ⟨h, fun _ => .nothing .rfl h fun _ => hview⟩

/-- The regions first, then the rest of the step. -/
theorem regions_outcome {nEmbd rowElems nCtx : Nat}
    (rest : Walk → Except AllocExit Unit × Walk) (h : w.alloc.Sound)
    (hrest : ∀ w : Walk, w.alloc.Sound → Outcome g w node n (rest w)) :
    Outcome g w node n (match w.regions env node layer nEmbd rowElems nCtx with
      | (.error e, w) => (.error e, w)
      | (.ok _, w) => rest w) := by
  rw [regions]
  cases hgot : w.alloc.ensureKv env layer node.home nEmbd rowElems nCtx with
  | mk out a =>
      obtain ⟨hsound, hkeeps, -⟩ := ensureKv_spec h hgot
      cases out with
      | error e => exact .failed hsound
      | ok pair => exact .after hkeeps (hrest ⟨a, w.lastUse⟩ hsound)

/-- A fused store, in the region of its layer. -/
theorem placeFused_outcome {widths : Option (Nat × Nat × Nat)}
    (h : w.alloc.Sound)
    (hinput : node.isInput = false) (hview : node.view = none) :
    Outcome g w node n (w.placeFused env node n layer widths) := by
  rw [placeFused]
  exact regions_outcome (·.ownBuffer env node n) h fun w hw =>
    ownBuffer_outcome hw hinput hview

/-- Any node: one case for each of the rules above. -/
theorem place_outcome (h : w.alloc.Sound) : Outcome g w node n
    (place env w g node n) := by
  rw [place]
  split
  next hinput =>
    refine ⟨h, fun _ => .nothing .rfl h fun hnot => ?_⟩
    rw [hinput] at hnot
    cases hnot
  next hinput =>
    rw [Bool.not_eq_true] at hinput
    split
    next v hview => exact placeView_outcome h hinput hview
    next hview =>
      split
      · exact placeKv_outcome h hinput hview
      · exact placeKv_outcome h hinput hview
      · exact placeFused_outcome h hinput hview
      · exact placeFused_outcome h hinput hview
      · exact regions_outcome (·.placeInPlace env g node n) h
          fun w hw => placeInPlace_outcome hw hinput hview
      · exact placeInPlace_outcome h hinput hview
      · exact placeInPlace_outcome h hinput hview
      · exact placeInPlace_outcome h hinput hview
      · exact ownBuffer_outcome h hinput hview

/-- A whole walk over the nodes. -/
theorem run_sound {nodes : List CNode} {i : Nat} (h : w.alloc.Sound) :
    (run env g nodes i w).2.alloc.Sound := by
  induction nodes generalizing w i with
  | nil => exact h
  | cons node rest ih =>
      rw [run]
      have houtcome : Outcome g { w with alloc := w.alloc.sweep i } node i
          (place env { w with alloc := w.alloc.sweep i } g node i) :=
            place_outcome (sweep_spec h i).1
      have hsound := houtcome.1
      split
      next e w' heq =>
        rw [heq] at hsound
        exact hsound
      next w' heq =>
        rw [heq] at hsound
        exact ih hsound

end
end Walk

-- ========================= every state

namespace GraphAllocator

variable {a a' : GraphAllocator}

/-- A new allocator owns nothing. -/
theorem new_sound : new.Sound := by
  have hfree : ∀ {b p}, new.pools.lookup b = some p → p.free = [] := by
    intro b p hp
    rw [new, ← AList.insert_empty, lookup_insert_eq] at hp
    split at hp
    · cases hp
      rfl
    · rw [AList.lookup_empty] at hp
      cases hp
  have hnone : ∀ {key hand}, ¬new.Holds key hand := by
    intro key hand hholds
    cases hand with
    | live =>
        obtain ⟨al, hal⟩ := hholds
        rw [new, AList.lookup_empty] at hal
        cases hal
    | idle cls =>
        obtain ⟨s, hs, -⟩ := hholds
        rw [new, AList.lookup_empty] at hs
        cases hs
    | free =>
        obtain ⟨p, hp, hin⟩ := hholds
        rw [hfree hp] at hin
        exact List.not_mem_nil hin
    | pinned =>
        obtain ⟨p, hp, -⟩ := hholds
        exact List.not_mem_nil hp
    | staged entry =>
        obtain ⟨cb, hcb, -⟩ := hholds
        rw [new, AList.lookup_empty] at hcb
        cases hcb
  refine
    { custody :=
        { exclusive := fun h => absurd h hnone, owes :=
          fun _ _ => hnone, once := List.nodup_nil,
          made := fun h => absurd h hnone, owedMade :=
            fun h => absurd h List.not_mem_nil,
          freeOnce := fun hp => by rw [hfree hp]; exact List.nodup_nil }
      classed := fun hal => absurd ⟨_, hal⟩ (@hnone _ .live), regions :=
        fun {layer region} hr => ?_ }
  rw [new, AList.lookup_empty] at hr
  cases hr

/-- Enabling a backend adds an empty pool. -/
theorem enable_sound (h : a.Sound) (b : Backend) (swapRemoves : Bool) :
    (a.enable b swapRemoves).Sound := by
  rw [enable]
  split
  · exact h
  next hnone =>
    have hlen : ∀ b',
        ({ a with pools := a.pools.insert b ⟨[], [], swapRemoves⟩ } :
          GraphAllocator).poolLenOf b' =
        a.poolLenOf b' := by
      intro b'
      rw [poolLenOf_insert]
      split
      next heq =>
        rw [heq, poolLenOf, hnone]
        rfl
      next => rfl
    have hfree : ∀ {b' p}, (a.pools.insert b ⟨[], [], swapRemoves⟩).lookup b'
        = some p →
        p.free = [] ∨ a.pools.lookup b' = some p := by
      intro b' p hp
      rw [lookup_insert_eq] at hp
      split at hp
      · cases hp
        exact .inl rfl
      · exact .inr hp
    have hto : ∀ {key hand},
        ({ a with pools := a.pools.insert b ⟨[], [], swapRemoves⟩ } :
          GraphAllocator).Holds key hand →
          a.Holds key hand := by
      intro key hand hholds
      cases hand with
      | free =>
          obtain ⟨p, hp, hin⟩ := hholds
          rcases hfree hp with hempty | hold
          · rw [hempty] at hin
            exact absurd hin List.not_mem_nil
          · exact ⟨p, hold, hin⟩
      | _ => exact hholds
    refine ⟨⟨fun h₁ h₂ => h.custody.exclusive (hto h₁) (hto h₂),
      fun hmem => absurd hmem List.not_mem_nil,
      List.nodup_nil, fun hholds => (hlen _).symm ▸ h.custody.made (hto hholds),
      fun hmem => absurd hmem List.not_mem_nil, fun hp => ?_⟩, h.classed, h.regions⟩
    rcases hfree hp with hempty | hold
    · rw [hempty]
      exact List.nodup_nil
    · exact h.custody.freeOnce hold

variable {env : AllocEnv}

/-- Placing the inputs, which are never shared. -/
theorem placeInputs_sound {lastUse : List Nat} {nodes : List CNode}
    (h : a.Sound) : (a.placeInputs env lastUse nodes).2.Sound := by
  induction nodes generalizing a with
  | nil => exact h
  | cons node rest ih =>
      rw [placeInputs]
      split
      · split
        next e a₁ hgot =>
          rcases handBuffer_spec h hgot with ⟨e', -, rfl⟩ | ⟨he, -⟩
          · exact h
          · cases he
        next a₁ hgot =>
          rcases handBuffer_spec h hgot with ⟨e', he, -⟩ | ⟨-, hsound, -⟩
          · cases he
          · exact ih hsound
      · exact ih h

/-- Allocating a graph, from any sound allocator. -/
theorem allocGraph_sound {g : ComputeGraph} (h : a.Sound) :
    (a.allocGraph env g).2.Sound := by
  rw [allocGraph]
  dsimp only
  have hrestart := restart_sound h
  split
  · exact hrestart
  split
  · have hinputs : (a.restart.placeInputs env g.lastUses g.nodes).2.Sound :=
      placeInputs_sound hrestart
    split
    next e a₁ hgot => rwa [hgot] at hinputs
    next a₁ hgot =>
      rw [hgot] at hinputs
      exact Walk.run_sound hinputs
  · exact hrestart

/-- A staging buffer leaves its entry. -/
theorem unstage_sound {entry : CrossKey} {cb : BufRef} (h : a.Sound)
    (hcb : a.cross.lookup entry = some cb) :
    (({ a with cross := a.cross.erase entry } : GraphAllocator).freeInPool
      cb.key).Sound := by
  set b : GraphAllocator := { a with cross := a.cross.erase entry }
  have huse : SameUse b (b.freeInPool cb.key) := freeInPool_sameUse
  have hstaged : a.Holds cb.key (.staged entry) := ⟨cb, hcb, rfl⟩
  refine ⟨?_, fun {key al} hal => ?_, fun hr => ?_⟩
  · refine Custody.freeInPool
      (h.custody.takeFrom (.inl hstaged) (fun key' hand hholds => ?_)
      (h.custody.made hstaged) (fun _ => Nat.le_refl _) h.custody.freeOnce)
    cases hand with
    | staged entry' =>
        obtain ⟨cb', hcb', hkey⟩ := hholds
        have hne : entry' ≠ entry := by
          rintro rfl
          rw [AList.lookup_erase] at hcb'
          cases hcb'
        refine ⟨⟨cb', (AList.lookup_erase_ne hne).symm.trans hcb', hkey⟩,
          fun heq => ?_⟩
        exact absurd (Hand.staged.inj heq) hne
    | _ => exact ⟨hholds, nofun⟩
  · rw [huse.bufAlive] at hal
    have hlive : a.Holds key .live := ⟨al, hal⟩
    have hne : key ≠ cb.key := by
      rintro rfl
      exact nomatch h.custody.exclusive hlive hstaged
    rw [freeInPool_classes hne]
    exact h.classed hal
  · obtain ⟨⟨pk, hk, hkkey⟩, pv, hv, hvkey⟩ := h.regions (huse.kv ▸ hr)
    exact ⟨⟨pk, huse.persistent ▸ hk, hkkey⟩, pv, huse.persistent ▸ hv, hvkey⟩

/-- A staging buffer is one more of the pool. -/
theorem staged_sound {uid : Nat} {node : NodeId} {dst : Backend} {len : Nat}
    (h : a.Sound) (hnone : a.cross.lookup (uid, node, dst) = none) :
    (crossStaging.staged env uid node dst a len).2.Sound := by
  rw [crossStaging.staged]
  split
  next e a₁ hgot =>
    rcases allocFreshIn_spec h.custody hgot with ⟨e', -, rfl⟩ | ⟨id, hid, -⟩
    · exact h
    · cases hid
  next id a₁ hgot =>
    rcases allocFreshIn_spec h.custody hgot with ⟨e', he', -⟩
      | ⟨id', hid, htook, hcus, -⟩
    · cases he'
    cases hid
    refine ⟨hcus.give (.staged (uid, node, dst)) (fun key' hand hholds => ?_)
      (fun _ => Nat.le_refl _) hcus.freeOnce,
      fun hal => htook.classed h hal, fun hr => ?_⟩
    · cases hand with
      | staged entry' =>
          obtain ⟨cb', hcb', hkey⟩ := hholds
          rw [lookup_insert_eq] at hcb'
          split at hcb'
          next heq =>
            cases hcb'
            exact .inr ⟨hkey.symm, by rw [heq]⟩
          next => exact .inl ⟨cb', hcb', hkey⟩
      | _ => exact .inl hholds
    · obtain ⟨⟨pk, hk, hkkey⟩, pv, hv, hvkey⟩ := h.regions (htook.kv ▸ hr)
      exact ⟨⟨pk, htook.persistent ▸ hk, hkkey⟩, pv, htook.persistent ▸ hv, hvkey⟩

/-- Asking for a staging buffer, found or made. -/
theorem crossStaging_sound {uid : Nat} {node : NodeId}
    {dst : Backend} (h : a.Sound) :
    (a.crossStaging env uid node dst).2.Sound := by
  rw [crossStaging]
  split
  · exact h
  split
  next cb hcb =>
    split
    · exact h
    · refine staged_sound (unstage_sound h hcb) ?_
      have huse : SameUse
          ({ a with cross := a.cross.erase (uid, node, dst) } : GraphAllocator)
          (({ a with cross := a.cross.erase (uid, node, dst) } :
            GraphAllocator).freeInPool cb.key) := freeInPool_sameUse
      rw [huse.cross]
      exact AList.lookup_erase ..
  next hnone => exact staged_sound h hnone

/-- The states that calls leave, failed ones included. -/
inductive Reachable : GraphAllocator → Prop where
  | new : Reachable new
  | enable {a : GraphAllocator} (backend : Backend) (swapRemoves : Bool)
      (h : Reachable a) :
      Reachable (a.enable backend swapRemoves)
  | alloc {a : GraphAllocator} (env : AllocEnv) (g : ComputeGraph) (h : Reachable a) :
      Reachable (a.allocGraph env g).2
  | stage {a : GraphAllocator} (env : AllocEnv) (uid : Nat) (node : NodeId)
      (dst : Backend)
      (h : Reachable a) : Reachable (a.crossStaging env uid node dst).2

/-- Whatever graphs an allocator has served, it is sound. -/
theorem Reachable.sound (h : Reachable a) : a.Sound := by
  induction h with
  | new => exact new_sound
  | enable backend swapRemoves _ ih => exact enable_sound ih backend swapRemoves
  | alloc env g _ ih => exact allocGraph_sound ih
  | stage env uid node dst _ ih => exact crossStaging_sound ih

end GraphAllocator
end Minfer.Graph
