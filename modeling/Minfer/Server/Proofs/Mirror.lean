/-
Slot records and KV rows (`server/batch.rs`): the decode step.

`Mirror skip e` says that every slot's `cached_tokens` describes its rows
and that a running request stands at the end of its record; the slots
named by `skip` are in the middle of a prefill and left out. A decode step
keeps it whatever its forward does: a row it wrote is recorded with the
write, and every slot in a failed batch loses its record.
-/
import Minfer.Server.Proofs.Rows
import Minfer.Server.Proofs.Turn

namespace Minfer.Server

open Minfer.Graph (KvCache SeqId Batch)
open Minfer.Graph.KvCache (Keeps Solo Steady)

variable {Λ σ : Type}

namespace BatchEngine

-- ========================== the mirror

/-- A slot's record describes its rows. -/
def Faithful (c : KvCache Row) (slot : SlotState Λ σ) : Prop :=
  Described c slot.seq slot.cachedTokens

/-- A running request stands at the end of its slot's record. -/
def InStep (slot : SlotState Λ σ) : Prop :=
  ∀ run, slot.run = some run → run.currentPos = slot.cachedTokens.length

/-- The mirror invariant, but for the slots of `skip`. -/
structure Mirror (skip : Nat → Prop) (e : BatchEngine Λ σ) : Prop where
  solo : e.cache.Solo
  distinct : (e.slots.map (·.seq)).Nodup
  faithful : ∀ (i : Nat) slot, e.slots[i]? = some slot → ¬ skip i →
    Faithful e.cache slot
  inStep : ∀ (i : Nat) slot, e.slots[i]? = some slot → InStep slot

variable {w : World Λ σ} {skip : Nat → Prop} {e e' : BatchEngine Λ σ}

/-- Distinct slots hold distinct sequences. -/
theorem Mirror.seq_inj (hm : Mirror skip e) {i j : Nat} {a b : SlotState Λ σ}
    (ha : e.slots[i]? = some a) (hb : e.slots[j]? = some b)
    (hseq : a.seq = b.seq) : i = j := by
  have hi : (e.slots.map (·.seq))[i]? = some a.seq := by
    rw [List.getElem?_map, ha]; rfl
  have hj : (e.slots.map (·.seq))[j]? = some a.seq := by
    rw [List.getElem?_map, hb, hseq]; rfl
  have hlt : i < (e.slots.map (·.seq)).length := (List.getElem?_eq_some_iff.mp hi).1
  exact (List.getElem?_inj hlt hm.distinct).mp (hi.trans hj.symm)

variable {idx : Nat} {slot slot' : SlotState Λ σ} {rows : List Nat}

/-- Replacing a slot by one of the same sequence. -/
theorem Mirror.turned (hm : Mirror skip e) (hs : e.slots[idx]? = some slot)
    (hseq : slot'.seq = slot.seq) (hf : ¬ skip idx → Faithful e.cache slot')
    (hin : InStep slot') (work sends : Nat) (D : List LogEntry) :
    Mirror skip (e.turned idx slot' work sends D) where
  solo := hm.solo
  distinct := by
    have hmap : (e.slots.set idx slot').map (·.seq) = e.slots.map (·.seq) := by
      rw [List.map_set, hseq]
      refine List.ext_getElem? fun i => ?_
      rw [List.getElem?_set]
      split
      next h =>
        subst h
        rw [List.getElem?_map, hs]
        have hlt : idx < e.slots.length := (List.getElem?_eq_some_iff.mp hs).1
        simp [hlt]
      next => rfl
    rw [BatchEngine.turned, hmap]
    exact hm.distinct
  faithful i a ha hskip := by
    by_cases hi : idx = i
    · subst hi
      rw [getElem?_turned_self hs] at ha
      cases ha
      exact hf hskip
    · rw [getElem?_turned_ne hi] at ha
      exact hm.faithful i a ha hskip
  inStep i a ha := by
    by_cases hi : idx = i
    · subst hi
      rw [getElem?_turned_self hs] at ha
      cases ha
      exact hin
    · rw [getElem?_turned_ne hi] at ha
      exact hm.inStep i a ha

-- ===================== the second half

theorem Mirror.stepSlot (hm : Mirror skip e) (idx : Nat) :
    Mirror skip (e.stepSlot w idx).2 := by
  cases hrun : e.runAt idx with
  | none =>
      rw [stepSlot_idle hrun]
      exact hm
  | some run =>
  obtain ⟨slot, hs, hr⟩ := runAt_eq_some.mp hrun
  have hturn := stepSlot_cases (w := w) hs hr
  revert hturn
  generalize e.stepSlot w idx = out
  intro hturn
  cases hturn with
  | moved run' tok sends T hT hroom hpending hcur hid hcontext hstamp =>
      apply hm.turned hs
      · rfl
      · exact fun hskip => hm.faithful idx slot hs hskip
      · intro r hr'
        cases hr'
        rw [hcur]
        exact hm.inStep idx slot hs run hr
  | left cached sends S T hc hS hT =>
      apply hm.turned hs
      · rfl
      · intro hskip
        rcases hc with rfl | rfl
        · exact hm.faithful idx slot hs hskip
        · exact .nil _ _
      · exact fun r hr' => nomatch hr'

theorem Mirror.stepSlots (is : List Nat) (hm : Mirror skip e) :
    Mirror skip (e.stepSlots w is).2 := by
  induction is generalizing e with
  | nil => exact hm
  | cons idx is ih => exact ih (hm.stepSlot idx)

theorem Mirror.stampProgress (hm : Mirror skip e) (moved : List Nat) :
    Mirror skip (e.stampProgress moved) := by
  have hslot : ∀ (i : Nat) a, (e.stampProgress moved).slots[i]? = some a → ∃ slot,
      e.slots[i]? = some slot ∧ a.seq = slot.seq ∧ a.cachedTokens = slot.cachedTokens
        ∧ ∀ r, a.run = some r → ∃ run, slot.run = some run
        ∧ r.currentPos = run.currentPos := by
    intro i a ha
    rw [BatchEngine.stampProgress, List.getElem?_mapIdx] at ha
    obtain ⟨slot, hs, rfl⟩ := Option.map_eq_some_iff.mp ha
    refine ⟨slot, hs, ?_⟩
    split
    · refine ⟨rfl, rfl, fun r hr => ?_⟩
      obtain ⟨run, hrun, rfl⟩ := Option.map_eq_some_iff.mp hr
      exact ⟨run, hrun, rfl⟩
    · exact ⟨rfl, rfl, fun r hr => ⟨r, hr, rfl⟩⟩
  refine ⟨hm.solo, ?_, fun i a ha hskip => ?_, fun i a ha r hr => ?_⟩
  · have hmap : (e.stampProgress moved).slots.map (·.seq) = e.slots.map (·.seq) := by
      refine List.ext_getElem? fun i => ?_
      rw [BatchEngine.stampProgress, List.getElem?_map, List.getElem?_mapIdx,
        List.getElem?_map, Option.map_map]
      congr 1
      funext slot
      simp only [Function.comp_apply]
      split <;> rfl
    rw [hmap]
    exact hm.distinct
  · obtain ⟨slot, hs, hseq, hcached, -⟩ := hslot i a ha
    unfold Faithful
    rw [hseq, hcached]
    exact hm.faithful i slot hs hskip
  · obtain ⟨slot, hs, -, hcached, hrun⟩ := hslot i a ha
    obtain ⟨run, hrun, hpos⟩ := hrun r hr
    rw [hpos, hcached]
    exact hm.inStep i slot hs run hrun

theorem Mirror.sampleAll (hm : Mirror skip e) (rows : List Nat) :
    Mirror skip (e.sampleAll w rows) :=
  (hm.stepSlots _).stampProgress _

-- ==================== idle slots, rows

/-- Slots without a run are left alone. -/
def IdleKept (e e' : BatchEngine Λ σ) : Prop :=
  ∀ (i : Nat) slot, e.slots[i]? = some slot → slot.run = none →
    e'.slots[i]? = some slot

theorem IdleKept.refl (e : BatchEngine Λ σ) : IdleKept e e := fun _ _ h _ => h

theorem IdleKept.trans {e₁ : BatchEngine Λ σ} (h : IdleKept e e₁)
    (h' : IdleKept e₁ e') :
    IdleKept e e' := fun i slot hs hr => h' i slot (h i slot hs hr) hr

theorem idleKept_turned {run : Run Λ σ} (hs : e.slots[idx]? = some slot)
    (hr : slot.run = some run) (work sends : Nat) (D : List LogEntry) :
    IdleKept e (e.turned idx slot' work sends D) := by
  intro i a ha hidle
  have hne : idx ≠ i := by
    rintro rfl
    rw [hs] at ha
    cases ha
    rw [hr] at hidle
    cases hidle
  rw [getElem?_turned_ne hne]
  exact ha

theorem stepSlot_frame (e : BatchEngine Λ σ) (idx : Nat) :
    (e.stepSlot w idx).2.cache = e.cache ∧ IdleKept e (e.stepSlot w idx).2 := by
  cases hrun : e.runAt idx with
  | none =>
      rw [stepSlot_idle hrun]
      exact ⟨rfl, .refl e⟩
  | some run =>
      obtain ⟨slot, hs, hr⟩ := runAt_eq_some.mp hrun
      have hturn := stepSlot_cases (w := w) hs hr
      revert hturn
      generalize e.stepSlot w idx = out
      intro hturn
      cases hturn with
      | moved => exact ⟨rfl, idleKept_turned hs hr _ _ _⟩
      | left => exact ⟨rfl, idleKept_turned hs hr _ _ _⟩

theorem stepSlots_frame (is : List Nat) (e : BatchEngine Λ σ) :
    (e.stepSlots w is).2.cache = e.cache ∧ IdleKept e (e.stepSlots w is).2 := by
  induction is generalizing e with
  | nil => exact ⟨rfl, .refl e⟩
  | cons idx is ih =>
      obtain ⟨hcache, hidle⟩ := stepSlot_frame (w := w) e idx
      obtain ⟨hcache', hidle'⟩ := ih (e.stepSlot w idx).2
      exact ⟨hcache'.trans hcache, hidle.trans hidle'⟩

theorem sampleAll_frame (e : BatchEngine Λ σ) (rows : List Nat) :
    (e.sampleAll w rows).cache = e.cache ∧ IdleKept e (e.sampleAll w rows) := by
  obtain ⟨hcache, hidle⟩ := stepSlots_frame (w := w) (List.range e.slots.length) e
  refine ⟨hcache, hidle.trans fun i slot hs hr => ?_⟩
  simp only [BatchEngine.sampleAll, BatchEngine.stampProgress,
    List.getElem?_mapIdx, hs, Option.map_some]
  split
  · rw [hr, Option.map_none, ← hr]
  · rfl

/-- A pending row, read back from its slot. -/
theorem mem_stepRows {r : Nat × SeqId × Token × Nat} (hr : r ∈ e.stepRows) :
    ∃ slot run, e.slots[r.1]? = some slot ∧ slot.run = some run
      ∧ run.needsForward = some r.2.2.1 ∧ r.2.1 = slot.seq
      ∧ r.2.2.2 = run.currentPos := by
  obtain ⟨⟨slot, i⟩, hmem, hpend⟩ := List.mem_filterMap.mp (List.mem_of_mem_take hr)
  have hs := List.mem_zipIdx_iff_getElem?.mp hmem
  simp only at hpend hs
  obtain ⟨run, hrun, hpend⟩ := Option.bind_eq_some_iff.mp hpend
  obtain ⟨tok, htok, rfl⟩ := Option.map_eq_some_iff.mp hpend
  exact ⟨slot, run, hs, hrun, htok, rfl, rfl⟩

theorem filterMap_sublist {α β : Type} {f : α → Option β} {g : α → β}
    (h : ∀ x y, f x = some y → y = g x) (l : List α) :
    (l.filterMap f).Sublist (l.map g) := by
  induction l with
  | nil => exact .slnil
  | cons x l ih =>
      rw [List.map_cons]
      cases hx : f x with
      | none =>
          rw [List.filterMap_cons_none hx]
          exact ih.cons _
      | some y =>
          rw [List.filterMap_cons_some hx, h x y hx]
          exact ih.cons_cons _

/-- The rows of a step belong to distinct sequences. -/
theorem Mirror.nodup_stepRows (hm : Mirror skip e) :
    (e.stepRows.map (·.2.1)).Nodup := by
  have hsub : (e.pendingRows.map (·.2.1)).Sublist (e.slots.map (·.seq)) := by
    rw [pendingRows, List.map_filterMap]
    have hseq : e.slots.zipIdx.map (fun x => x.1.seq) = e.slots.map (·.seq) := by
      have := congrArg (List.map fun s : SlotState Λ σ => s.seq)
        (List.zipIdx_map_fst 0 e.slots)
      rwa [List.map_map] at this
    rw [← hseq]
    refine filterMap_sublist (fun x y hxy => ?_) _
    obtain ⟨r, hr, rfl⟩ := Option.map_eq_some_iff.mp hxy
    obtain ⟨run, -, hr⟩ := Option.bind_eq_some_iff.mp hr
    obtain ⟨tok, -, rfl⟩ := Option.map_eq_some_iff.mp hr
    rfl
  have htake : (e.stepRows.map (·.2.1)).Sublist (e.pendingRows.map (·.2.1)) :=
    (List.take_sublist maxBatch e.pendingRows).map _
  exact hm.distinct.sublist (htake.trans hsub)

theorem fed_stepBatch (rows : List (Nat × SeqId × Token × Nat)) (s : SeqId) :
    fed (stepBatch rows) s
      = rows.filterMap fun r => if r.2.1 = s then some (r.2.2.2, r.2.2.1)
        else none := by
  rw [fed, stepBatch]
  simp only [List.zip_map', List.filterMap_map]
  rfl

/-- The one entry of a list that a key without repetitions picks. -/
theorem filterMap_of_nodup {α β : Type} (key : α → SeqId) {g : α → β}
    {l : List α} (hnd : (l.map key).Nodup) {r : α} (hr : r ∈ l) :
    l.filterMap (fun x => if key x = key r then some (g x) else none) = [g r] := by
  induction l with
  | nil => cases hr
  | cons x l ih =>
      obtain ⟨hx, hnd⟩ := List.nodup_cons.mp hnd
      rcases List.mem_cons.mp hr with rfl | hr
      · have hnone :
            l.filterMap (fun y => if key y = key r then some (g y) else none)
            = [] := by
          refine List.filterMap_eq_nil_iff.mpr fun y hy => if_neg fun heq => ?_
          exact hx (heq ▸ List.mem_map_of_mem hy)
        simp only [List.filterMap_cons, if_true, hnone]
      · have hne : key x ≠ key r := fun heq => hx (heq ▸ List.mem_map_of_mem hr)
        simp only [List.filterMap_cons, hne, if_false]
        exact ih hnd hr

/-- What a step's batch carries for a slot in it. -/
theorem Mirror.fed_row (hm : Mirror skip e) {r : Nat × SeqId × Token × Nat}
    (hr : r ∈ e.stepRows) : fed
    (stepBatch e.stepRows) r.2.1 = [(r.2.2.2, r.2.2.1)] := by
  rw [fed_stepBatch]
  exact filterMap_of_nodup (fun r : Nat × SeqId × Token × Nat => r.2.1)
    hm.nodup_stepRows hr

/-- It carries nothing for a sequence no row belongs to. -/
theorem fed_stepBatch_nil {rows : List (Nat × SeqId × Token × Nat)} {s : SeqId}
    (h : ∀ r ∈ rows, r.2.1 ≠ s) : fed (stepBatch rows) s = [] := by
  rw [fed_stepBatch]
  exact List.filterMap_eq_nil_iff.mpr fun r hr => if_neg (h r hr)

/-- A slot outside the batch has no row in it. -/
theorem Mirror.row_seq_ne (hm : Mirror skip e) {i : Nat}
    (hs : e.slots[i]? = some slot) (hi : i ∉ e.stepSlotsOf) :
    ∀ r ∈ e.stepRows, r.2.1 ≠ slot.seq := by
  intro r hr heq
  obtain ⟨a, run, ha, -, -, hseq, -⟩ := mem_stepRows hr
  have : r.1 = i := hm.seq_inj ha hs (hseq.symm.trans heq)
  exact hi (this ▸ List.mem_map_of_mem hr)

-- ====================== failed batches

/-- A slot that was left out is put right. -/
theorem Mirror.settle (hm : Mirror (fun i => skip i ∨ i ∈ idx :: rows) e)
    (hs : e.slots[idx]? = some slot) (hseq : slot'.seq = slot.seq)
    (hf : Faithful e.cache slot') (hin : InStep slot') (work sends : Nat)
    (D : List LogEntry) :
    Mirror (fun i => skip i ∨ i ∈ rows) (e.turned idx slot' work sends D) := by
  have hturned := hm.turned hs hseq (fun _ => hf) hin work sends D
  refine ⟨hturned.solo, hturned.distinct, fun i a ha hskip => ?_, hturned.inStep⟩
  by_cases hi : i = idx
  · subst hi
    rw [getElem?_turned_self hs] at ha
    cases ha
    exact hf
  · refine hturned.faithful i a ha fun h => hskip (h.imp id fun hmem => ?_)
    exact (List.mem_cons.mp hmem).resolve_left hi

theorem fail_frame {run : Run Λ σ} (hrun : e.runAt idx = some run)
    (err : ApiError) :
    (e.fail w idx err).cache = e.cache ∧ IdleKept e (e.fail w idx err)
      ∧ ∀ i, idx ≠ i → (e.fail w idx err).runAt i = e.runAt i := by
  obtain ⟨slot, hs, hr⟩ := runAt_eq_some.mp hrun
  rw [fail_eq hs hr]
  exact ⟨rfl, idleKept_turned hs hr _ _ _, fun i hi => runAt_turned_ne hi _ _ _ _⟩

/-- Failing a whole batch clears the record of every slot in it. -/
theorem Mirror.failBatch (err : ApiError) (hnd : rows.Nodup)
    (hm : Mirror (fun i => skip i ∨ i ∈ rows) e)
    (hrun : ∀ i ∈ rows, e.runAt i ≠ none) :
    Mirror skip (e.failBatch w rows err) ∧ (e.failBatch w rows err).cache = e.cache
      ∧ IdleKept e (e.failBatch w rows err) := by
  induction rows generalizing e with
  | nil =>
      refine ⟨⟨hm.solo, hm.distinct, fun i a ha hskip => ?_, hm.inStep⟩, rfl, .refl e⟩
      exact hm.faithful i a ha fun h => h.elim hskip nofun
  | cons idx rows ih =>
      obtain ⟨hnot, hnd⟩ := List.nodup_cons.mp hnd
      obtain ⟨run, hidx⟩ :=
        Option.ne_none_iff_exists'.mp (hrun idx List.mem_cons_self)
      obtain ⟨hcache, hidle, hother⟩ := fail_frame (w := w) hidx err
      have hfailed : Mirror (fun i => skip i ∨ i ∈ rows) (e.fail w idx err) := by
        obtain ⟨slot, hs, hr⟩ := runAt_eq_some.mp hidx
        rw [fail_eq hs hr]
        apply hm.settle hs
        · rfl
        · exact .nil _ _
        · exact fun r hr' => nomatch hr'
      obtain ⟨hrest, hcache', hidle'⟩ := ih hnd hfailed fun i hi => by
        rw [hother i fun h => hnot (h ▸ hi)]
        exact hrun i (List.mem_cons_of_mem idx hi)
      exact ⟨hrest, hcache'.trans hcache, hidle.trans hidle'⟩

theorem Mirror.nodup_stepSlotsOf (hm : Mirror skip e) : e.stepSlotsOf.Nodup := by
  refine List.pairwise_map.mpr ?_
  refine (List.pairwise_map.mp hm.nodup_stepRows).imp_of_mem fun {a b} ha hb
    hne heq => ?_
  obtain ⟨sa, -, hsa, -, -, hseqa, -⟩ := mem_stepRows ha
  obtain ⟨sb, -, hsb, -, -, hseqb, -⟩ := mem_stepRows hb
  rw [heq, hsb] at hsa
  cases hsa
  exact hne (hseqa.trans hseqb.symm)

-- ======================== written rows

/-- Slots whose waiting token's row is already there, but not recorded. -/
def Owed (e : BatchEngine Λ σ) (rows : List Nat) : Prop :=
  ∀ i ∈ rows, ∃ slot run tok, e.slots[i]? = some slot ∧ slot.run = some run
    ∧ run.needsForward = some tok
    ∧ Described e.cache slot.seq (slot.cachedTokens ++ [tok])

/-- The bookkeeping of a forward records the rows it wrote. -/
theorem Mirror.rowsWritten (logits : List Token → Λ) (hnd : rows.Nodup)
    (hm : Mirror (fun i => skip i ∨ i ∈ rows) e) (howed : e.Owed rows) :
    Mirror skip (e.rowsWritten logits rows)
      ∧ (e.rowsWritten logits rows).cache = e.cache
      ∧ IdleKept e (e.rowsWritten logits rows) := by
  induction rows generalizing e with
  | nil =>
      refine ⟨⟨hm.solo, hm.distinct, fun i a ha hskip => ?_, hm.inStep⟩, rfl, .refl e⟩
      exact hm.faithful i a ha fun h => h.elim hskip nofun
  | cons idx rows ih =>
      obtain ⟨hnot, hnd⟩ := List.nodup_cons.mp hnd
      obtain ⟨slot, run, tok, hs, hr, hn, hd⟩ := howed idx List.mem_cons_self
      have hwritten : e.rowWritten logits idx
          = e.turned idx { slot with cachedTokens := slot.cachedTokens ++ [tok]
                                     run := some (Run.written logits run tok) }
              e.workUnits e.sends [.forwarded idx tok run.currentPos] := by
        rcases rowWritten_cases logits e idx with ⟨hnone, -⟩
          | ⟨slot', run', tok', hs', hr', hn', heq⟩
        · rw [hnone run (runAt_eq_some.mpr ⟨slot, hs, hr⟩)] at hn
          cases hn
        · rw [hs] at hs'
          cases hs'
          rw [hr] at hr'
          cases hr'
          rw [hn] at hn'
          cases hn'
          exact heq
      have hsettled : Mirror (fun i => skip i ∨ i ∈ rows)
          (e.rowWritten logits idx) := by
        rw [hwritten]
        apply hm.settle hs
        · rfl
        · exact hd
        · intro r hr'
          cases hr'
          rw [List.length_append, List.length_singleton,
            ← hm.inStep idx slot hs run hr]
          rfl
      have howed' : (e.rowWritten logits idx).Owed rows := by
        intro i hi
        obtain ⟨a, r, t, ha, hrest⟩ := howed i (List.mem_cons_of_mem idx hi)
        have hne : idx ≠ i := by
          rintro rfl
          exact hnot hi
        rw [hwritten]
        refine ⟨a, r, t, ?_, hrest⟩
        rw [getElem?_turned_ne hne]
        exact ha
      obtain ⟨hrest, hcache, hidle⟩ := ih hnd hsettled howed'
      refine ⟨hrest, hcache.trans (by rw [hwritten]; rfl), IdleKept.trans ?_ hidle⟩
      rw [hwritten]
      exact idleKept_turned hs hr _ _ _

-- ============================ the step

/-- Descriptions of sequences no running slot holds. -/
def OthersKept (e e' : BatchEngine Λ σ) : Prop :=
  ∀ s h, (∀ slot ∈ e.slots, slot.run ≠ none → slot.seq ≠ s) → Described e.cache s h →
    Described e'.cache s h

/-- A decode step keeps the mirror, the idle slots and every other
sequence's rows. -/
theorem Mirror.tick (hm : Mirror skip e)
    (hidle : ∀ i, skip i → e.runAt i = none) (seam : TickSeam) :
    Mirror skip (e.tick w seam).2 ∧ IdleKept e (e.tick w seam).2
      ∧ OthersKept e (e.tick w seam).2 := by
  obtain ⟨out, hout⟩ : ∃ out, out = e.tick w seam := ⟨_, rfl⟩
  have hcases : Ticked w e out := hout ▸ tick_cases w seam e
  rw [← hout]
  have hlen : (stepBatch e.stepRows).tokens.length
      = (stepBatch e.stepRows).seqIds.length := by
    simp [stepBatch]
  have hother : ∀ s, (∀ slot ∈ e.slots, slot.run ≠ none → slot.seq ≠ s) →
      ∀ r ∈ e.stepRows, r.2.1 ≠ s := by
    intro s hs r hr
    obtain ⟨slot, run, hslot, hrun, -, hseq, -⟩ := mem_stepRows hr
    rw [hseq]
    exact hs slot (List.mem_of_getElem? hslot) (by rw [hrun]; exact nofun)
  cases hcases with
  | seam work =>
      exact ⟨⟨hm.solo, hm.distinct, hm.faithful, hm.inStep⟩,
        fun _ _ hs _ => hs, fun _ _ _ hd => hd⟩
  | sampled hrows =>
      obtain ⟨hcache, hkept⟩ := sampleAll_frame (w := w) e []
      refine ⟨hm.sampleAll [], hkept, fun s h _ hd => ?_⟩
      rw [hcache]
      exact hd
  | failed err e' hrows hf =>
      obtain ⟨msg, c, hfwd, -, rfl⟩ := forwardBatch_error hf
      obtain ⟨hsolo, hdesc⟩ := forwardOn_error hm.solo hfwd
      -- a sequence without an entry in the batch loses nothing
      have hfree : ∀ s, (∀ r ∈ e.stepRows, r.2.1 ≠ s) →
          ∀ h, Described e.cache s h → Described c s h := by
        intro s hs h hd
        refine hdesc s h hd fun k row p _ hk => ?_
        have hmem : s ∈ e.stepRows.map (·.2.1) := List.mem_of_getElem? hk
        obtain ⟨r, hr, heq⟩ := List.mem_map.mp hmem
        exact absurd heq (hs r hr)
      have hafter : Mirror (fun i => skip i ∨ i ∈ e.stepSlotsOf) (e.forwarded c) := by
        refine ⟨hsolo, hm.distinct, fun i slot hs hskip => ?_, hm.inStep⟩
        have hnot : i ∉ e.stepSlotsOf := fun h => hskip (.inr h)
        exact hfree slot.seq (hm.row_seq_ne hs hnot) _
          (hm.faithful i slot hs fun h => hskip (.inl h))
      obtain ⟨hres, hcache, hkept⟩ :=
        hafter.failBatch (w := w) err hm.nodup_stepSlotsOf
        fun i hi => by
          obtain ⟨r, hr, rfl⟩ := List.mem_map.mp hi
          obtain ⟨slot, run, hs, hrun, -⟩ := mem_stepRows hr
          rw [show (e.forwarded c).runAt r.1 = e.runAt r.1 from rfl,
            runAt_eq_some.mpr ⟨slot, hs, hrun⟩]
          exact nofun
      refine ⟨hres, hkept, fun s h hs hd => ?_⟩
      rw [hcache]
      exact hfree s (hother s hs) h hd
  | stepped logits e' hrows hf =>
      obtain ⟨c, hfwd, rfl⟩ := forwardBatch_ok hf
      obtain ⟨-, hsolo, hdesc, -⟩ := forwardOn_ok hm.solo hlen hfwd
      have hfree : ∀ s, (∀ r ∈ e.stepRows, r.2.1 ≠ s) →
          ∀ h, Described e.cache s h → Described c s h := by
        intro s hs h hd
        have := hdesc s h hd
        rw [fed_stepBatch_nil hs] at this
        simpa using this
      have hafter : Mirror (fun i => skip i ∨ i ∈ e.stepSlotsOf)
          { e.forwarded c with workUnits :=
              (e.forwarded c).workUnits + e.stepRows.length } := by
        refine ⟨hsolo, hm.distinct, fun i slot hs hskip => ?_, hm.inStep⟩
        have hnot : i ∉ e.stepSlotsOf := fun h => hskip (.inr h)
        exact hfree slot.seq (hm.row_seq_ne hs hnot) _
          (hm.faithful i slot hs fun h => hskip (.inl h))
      have howed : Owed
          { e.forwarded c with workUnits :=
            (e.forwarded c).workUnits + e.stepRows.length }
          e.stepSlotsOf := by
        intro i hi
        obtain ⟨r, hr, rfl⟩ := List.mem_map.mp hi
        obtain ⟨slot, run, hs, hrun, htok, hseq, hpos⟩ := mem_stepRows hr
        refine ⟨slot, run, r.2.2.1, hs, hrun, htok, ?_⟩
        have hnot : ¬ skip r.1 := fun h => by
          have := hidle r.1 h
          rw [runAt_eq_some.mpr ⟨slot, hs, hrun⟩] at this
          cases this
        have hrow := hm.fed_row hr
        rw [hseq, hpos, hm.inStep r.1 slot hs run hrun] at hrow
        have hext := hdesc slot.seq slot.cachedTokens (hm.faithful r.1 slot hs hnot)
        rw [hrow] at hext
        show Described c slot.seq (slot.cachedTokens ++ [r.2.2.1])
        simpa using hext
      obtain ⟨hres, hcache, hkept⟩ :=
        hafter.rowsWritten logits hm.nodup_stepSlotsOf howed
      obtain ⟨hcache', hkept'⟩ := sampleAll_frame (w := w)
        (BatchEngine.rowsWritten
          { e.forwarded c with workUnits :=
            (e.forwarded c).workUnits + e.stepRows.length }
          logits e.stepSlotsOf) e.stepSlotsOf
      refine ⟨hres.sampleAll _, fun i slot hs hr =>
        hkept' i slot (hkept i slot hs hr) hr,
        fun s h hs hd => ?_⟩
      rw [hcache', hcache]
      exact hfree s (hother s hs) h hd

end BatchEngine
end Minfer.Server
