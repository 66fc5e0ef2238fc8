/-
Resizing a run (`set_cap`) and the results about whole runs of the arena:
the invariant holds in every reachable state, and a compaction from a
reachable state keeps every readable row exactly when it is safe.

A resize changes one capacity first and repairs the layout afterwards, so
in between the table is only `Movable`: the written rows still lie apart,
the reservations may not.
-/
import Minfer.Graph.Proofs.Compaction

namespace Minfer.Graph

open Lib (InRun)

variable {ρ : Type}

namespace KvCache

-- ==================== the new capacity

/-- The table with `seq`'s capacity changed, before anything moves. -/
def resized (c : KvCache ρ) (seq cap : Nat) (slot : SeqSlot) : KvCache ρ :=
  c.putSlot seq { slot with cap }

theorem resized_seqs (c : KvCache ρ) (seq cap : Nat) (slot : SeqSlot) (s : SeqId) :
    (c.resized seq cap slot).seqs[s]?
      = if seq = s then some { slot with cap } else c.seqs[s]? :=
  putSlot_seqs ..

section

variable {c : KvCache ρ} {seq cap : Nat} {slot : SeqSlot}

/-- A slot of the resized table is one of the old ones, with its run's
start, prefix and written rows. -/
theorem resized_old (hslot : c.seqs[seq]? = some slot) {s : SeqId}
    {a : SeqSlot} (ha : (c.resized seq cap slot).seqs[s]? = some a) :
    ∃ b, c.seqs[s]? = some b ∧ a.start = b.start ∧ a.shared = b.shared
      ∧ a.written = b.written
      ∧ (a.cap = b.cap ∨ (s = seq ∧ a.cap = cap ∧ b = slot)) := by
  rw [resized_seqs] at ha
  split at ha
  next hs =>
    subst hs
    cases ha
    exact ⟨slot, hslot, rfl, rfl, rfl, .inr ⟨rfl, rfl, rfl⟩⟩
  next => exact ⟨a, ha, rfl, rfl, rfl, .inl rfl⟩

/-- A capacity that holds the written rows leaves a table the plan can
move. -/
theorem Inv.movable_resized (hc : c.Inv) (hslot : c.seqs[seq]? = some slot)
    (hpos : 0 < cap) (hfit : slot.privateWritten ≤ cap) :
    (c.resized seq cap slot).Movable := by
  have hm := hc.movable
  refine ⟨fun s a ha => ?_, fun s a ha => ?_, fun s t a b hst ha hb => ?_⟩
  · obtain ⟨b, hb, -, -, -, hcap | ⟨-, hcap, -⟩⟩ := resized_old hslot ha
    · rw [hcap]
      exact hm.cap_pos s b hb
    · omega
  · obtain ⟨b, hb, -, hsh, hw, hcap⟩ := resized_old hslot ha
    have := hm.fits s b hb
    unfold SeqSlot.privateWritten at *
    rw [hsh, hw]
    rcases hcap with hcap | ⟨-, hcap, rfl⟩ <;> omega
  · obtain ⟨a₀, ha₀, hstart, hsh, hw, -⟩ := resized_old hslot ha
    obtain ⟨b₀, hb₀, hstart', hsh', hw', -⟩ := resized_old hslot hb
    have := hm.order s t a₀ b₀ hst ha₀ hb₀
    unfold SeqSlot.privateWritten at *
    rw [hstart, hstart', hsh, hsh', hw, hw']
    exact this

/-- The prefixes of the resized table are the old ones. -/
theorem Inv.shared_resized (hc : c.Inv) (hslot : c.seqs[seq]? = some slot) (s : SeqId)
    (a : SeqSlot) (ha : (c.resized seq cap slot).seqs[s]? = some a) :
    a.shared.rows ≤ a.written
      ∧ (a.shared.rows = 0
        ∨ a.shared.cell + a.shared.rows ≤ (c.resized seq cap slot).nCtx) := by
  obtain ⟨b, hb, -, hsh, hw, -⟩ := resized_old hslot ha
  have hok := hc.table.ok s b hb
  rw [hsh, hw]
  refine ⟨hok.shared_le, ?_⟩
  rw [resized, putSlot_nCtx]
  exact hok.shared_in

/-- A new capacity that holds the written rows leaves every reader where
it was. -/
theorem Inv.resized_reads (hc : c.Inv) (hslot : c.seqs[seq]? = some slot)
    (hpos : 0 < cap) (hfit : slot.privateWritten ≤ cap) (s : SeqId) :
    ((c.resized seq cap slot).seqs[s]? = none ↔ c.seqs[s]? = none)
      ∧ (c.resized seq cap slot).writtenRows s = c.writtenRows s
      ∧ ∀ p < c.writtenRows s, (c.resized seq cap slot).cellOf s p
        = c.cellOf s p := by
  by_cases hs : seq = s
  · subst hs
    have hnew : (c.resized seq cap slot).seqs[seq]? = some { slot with cap } := by
      rw [resized_seqs, if_pos rfl]
    refine ⟨by simp [hnew, hslot],
      by rw [writtenRows_eq hnew, writtenRows_eq hslot], ?_⟩
    intro p hp
    rw [writtenRows_eq hslot] at hp
    rw [(hc.movable_resized hslot hpos hfit).cellOf (hc.spans.putSlot _ _) hnew hp,
      hc.movable.cellOf hc.spans hslot hp]
  · have hold : (c.resized seq cap slot).seqs[s]? = c.seqs[s]? := by
      rw [resized_seqs, if_neg hs]
    refine ⟨by rw [hold], by simp only [writtenRows, hold], fun p _ => ?_⟩
    rw [cellOf_eq (c := c.resized seq cap slot) (hc.spans.putSlot _ _),
      cellOf_eq hc.spans, hold]

/-- So keeping rows from the resized table is keeping them from the
original. -/
theorem Inv.keepsRows_resized {c' : KvCache ρ} (hc : c.Inv)
    (hslot : c.seqs[seq]? = some slot) (hpos : 0 < cap)
    (hfit : slot.privateWritten ≤ cap) :
    KeepsRows (c.resized seq cap slot) c' ↔ KeepsRows c c' := by
  have hreads := hc.resized_reads hslot hpos hfit
  have hlay : (c.resized seq cap slot).layers = c.layers := putSlot_layers ..
  unfold KeepsRows
  refine forall_congr' fun s => ?_
  obtain ⟨hnone, hw, hcell⟩ := hreads s
  rw [hw, hlay]
  have hbody : (∀ p < c.writtenRows s, ∃ cell cell',
        (c.resized seq cap slot).cellOf s p = some cell ∧ c'.cellOf s p = some cell'
          ∧ ∀ (i : Nat) (l : KvLayer ρ), c.layers[i]? = some l → ∃ l' : KvLayer ρ,
            c'.layers[i]? = some l' ∧ l'.k[cell']? = l.k[cell]?
              ∧ l'.v[cell']? = l.v[cell]?)
      ↔ ∀ p < c.writtenRows s, ∃ cell cell',
        c.cellOf s p = some cell ∧ c'.cellOf s p = some cell'
          ∧ ∀ (i : Nat) (l : KvLayer ρ), c.layers[i]? = some l → ∃ l' : KvLayer ρ,
            c'.layers[i]? = some l' ∧ l'.k[cell']? = l.k[cell]?
                ∧ l'.v[cell']? = l.v[cell]? := by
    refine forall_congr' fun p => imp_congr_right fun hp => ?_
    rw [hcell p hp]
  rw [hbody]
  cases ha : c.seqs[s]? with
  | none => simp [hnone.mpr ha]
  | some a =>
      cases hb : (c.resized seq cap slot).seqs[s]? with
      | none => simp [hnone.mp hb] at ha
      | some b => simp

/-- Nothing moved, nothing lost. -/
theorem Movable.keepsRows_self (hc : c.Movable) (hsp : c.SpansOk) :
    KeepsRows c c := by
  intro s a ha
  refine ⟨rfl, fun p hp => ?_⟩
  rw [writtenRows_eq ha] at hp
  have hcell := hc.cellOf hsp ha hp
  exact ⟨_, _, hcell, hcell, fun i l hl => ⟨l, hl, rfl, rfl⟩⟩

end

-- ======================= an empty plan

variable {c c' : KvCache ρ} {slot : SeqSlot} {cap seq : Nat} {env : KvEnv}

/-- Nothing to move means every run sits where packing puts it. -/
theorem Movable.packed_of_plan_nil (hc : c.Movable)
    (hplan : c.compactionPlan none = []) {s : SeqId}
    (hslot : c.seqs[s]? = some slot) : slot.start = c.packedStart slot := by
  by_contra hne
  have hmem : moveOf (s, slot) (c.packedStart slot) ∈ c.compactionPlan none :=
    (mem_compactionPlan hc).mpr ⟨slot, hslot, rfl, hne, fun n hn => nomatch hn⟩
  rw [hplan] at hmem
  cases hmem

/-- Packed runs lie apart, below the sum of all capacities. -/
theorem Movable.packed_layout (hc : c.Movable)
    (hplan : c.compactionPlan none = []) :
    (∀ (s : SeqId) slot, c.seqs[s]? = some slot →
      slot.start + slot.cap ≤ c.reservedCells)
      ∧ ∀ (s t : SeqId) a b, s ≠ t → c.seqs[s]? = some a → c.seqs[t]? = some b →
        a.start + a.cap ≤ b.start ∨ b.start + b.cap ≤ a.start := by
  constructor
  · intro s slot hslot
    rw [hc.packed_of_plan_nil hplan hslot]
    exact hc.packedStart_add_cap_le hslot
  · -- the lower run is packed below the higher one
    have hlow : ∀ (s t : SeqId) a b, c.seqs[s]? = some a → c.seqs[t]? = some b →
        a.start < b.start → a.start + a.cap ≤ b.start := by
      intro s t a b ha hb hlt
      rw [hc.packed_of_plan_nil hplan ha, hc.packed_of_plan_nil hplan hb]
      exact hc.packedStart_add_le ha hb hlt
    intro s t a b hst ha hb
    rcases hc.order s t a b hst ha hb with h | h
    · exact .inl (hlow s t a b ha hb h.1)
    · exact .inr (hlow t s b a hb ha h.1)

/-- The cells reserved after a resize: the other runs' and the new
capacity. -/
theorem reservedCells_resized (c : KvCache ρ) (seq cap : Nat) (slot : SeqSlot) :
    (c.resized seq cap slot).reservedCells
      = ((c.seqs.toList.filter fun r => r.1 ≠ seq).map (·.2.cap)).sum + cap := by
  unfold reservedCells resized putSlot
  rw [refreshSpans_seqs]
  have hperm := Std.TreeMap.toList_insert_perm (t := c.seqs) (k := seq)
    (v := { slot with cap })
  rw [(hperm.map (·.2.cap)).sum_nat, List.map_cons, List.sum_cons, Nat.add_comm]
  congr 4
  funext r
  by_cases hr : r.1 = seq
  · simp [hr]
  · simp [hr, Ne.symm hr]

-- ============================= set_cap

/-- What `set_cap` decided: nothing to do, a release, or a new capacity
that holds the written rows and, when it grew, fits the arena. -/
theorem setCap_cases {c₁ : KvCache ρ} {moves : List KvMove}
    (hslot : c.seqs[seq]? = some slot) (h : c.setCap seq cap = .ok (moves, c₁))
    :
    (cap = slot.cap ∧ moves = [] ∧ c₁ = c)
      ∨ (cap = 0 ∧ c₁ = (c.releaseSeq seq).2 ∧ moves = c₁.compactionPlan none)
      ∨ (cap ≠ slot.cap ∧ 0 < cap ∧ (cap < slot.cap → slot.privateWritten ≤ cap)
          ∧ (slot.cap < cap → (c.resized seq cap slot).reservedCells ≤ c.nCtx)
          ∧ c₁ = c.resized seq cap slot ∧ moves = c₁.compactionPlan none) := by
  simp only [setCap, hslot] at h
  split at h
  next heq =>
    cases h
    exact .inl ⟨heq, rfl, rfl⟩
  next hne =>
    split at h
    next hzero =>
      cases h
      exact .inr (.inl ⟨hzero, rfl, rfl⟩)
    next hpos =>
      split at h
      · cases h
      next hshrink =>
        split at h
        · cases h
        next hgrow =>
          cases h
          refine .inr (.inr ⟨hne, by omega, by omega, ?_, rfl, rfl⟩)
          rw [reservedCells_resized]
          omega

variable {out : SeqSlot × List KvMove} {need : Option Nat}

/-- What a successful `kv_set_cap_with_defrag` did: nothing, a capacity
changed in place, or a capacity changed and the arena relocated. -/
theorem Inv.kvSetCap_cases (hc : c.Inv)
    (h : c.kvSetCapWithDefrag env seq cap = (.ok out, c')) :
    ∃ slot, c.seqs[seq]? = some slot ∧ ((cap = slot.cap ∧ c' = c)
      ∨ (cap ≠ slot.cap ∧ 0 < cap ∧ slot.privateWritten ≤ cap
        ∧ (slot.cap < cap → (c.resized seq cap slot).reservedCells ≤ c.nCtx)
        ∧ ((c.resized seq cap slot).compactionPlan none = []
          ∧ c' = c.resized seq cap slot
          ∨ Relocated (orderMoves ((c.resized seq cap slot).compactionPlan none))
              (c.resized seq cap slot) c'))) := by
  unfold kvSetCapWithDefrag at h
  split at h
  · cases h
  next slot hslot =>
    refine ⟨slot, hslot, ?_⟩
    have hfits := hc.movable.fits seq slot hslot
    split at h
    · cases h
    next moves c₁ hset =>
      have hcases := setCap_cases hslot hset
      split at h
      next hempty =>
        split at h
        · cases h
        next slot' hslot' =>
          cases h
          rcases hcases with ⟨heq, -, rfl⟩ | ⟨-, rfl, -⟩
            | ⟨hne, hpos, hsh, hgr, rfl, hm⟩
          · exact .inl ⟨heq, rfl⟩
          · have := releaseSeq_table c seq seq
            rw [if_pos rfl] at this
            rw [seqSlot, show (c.releaseSeq seq).2.seqs[seq]? = none from this]
              at hslot'
            cases hslot'
          · refine .inr ⟨hne, hpos, by omega, hgr, .inl ⟨?_, rfl⟩⟩
            rw [← hm]
            simpa using hempty
      next hne' =>
        split at h
        · -- defragmentation off: the resize is undone and refused
          split at h
          · cases h
          · cases h
        · simp only at h
          split at h
          · cases h
          next c₂ hcopy =>
            split at h
            · cases h
            next n c₃ happly =>
              split at h
              · cases h
              next slot' hslot' =>
                cases h
                have hord := orderMoves_orderMoves moves
                have hmne : orderMoves moves ≠ [] := by
                  rw [Ne, orderMoves_eq_nil]
                  simpa using hne'
                rcases hcases with ⟨-, rfl, -⟩ | ⟨-, rfl, -⟩
                  | ⟨hne, hpos, hsh, hgr, rfl, hm⟩
                · exact absurd rfl hne'
                · have hrel :=
                    relocated_of_ok (hc.releaseSeq seq).spans hmne hord hcopy
                    happly
                  have := releaseSeq_table c seq seq
                  rw [if_pos rfl] at this
                  rw [seqSlot, hrel.seqs seq,
                    show (c.releaseSeq seq).2.seqs[seq]? = none from this] at hslot'
                  cases hslot'
                · refine .inr ⟨hne, hpos, by omega, hgr, .inr ?_⟩
                  rw [← hm]
                  exact relocated_of_ok (hc.spans.putSlot _ _) hmne hord hcopy happly

/-- A resize in place keeps the invariant. -/
theorem Inv.resized (hc : c.Inv) (hslot : c.seqs[seq]? = some slot)
    (hpos : 0 < cap) (hfit : slot.privateWritten ≤ cap)
    (hgrow : slot.cap < cap → (c.resized seq cap slot).reservedCells ≤ c.nCtx)
    (hplan : (c.resized seq cap slot).compactionPlan none = []) :
    (c.resized seq cap slot).Inv := by
  have hm := hc.movable_resized hslot hpos hfit
  obtain ⟨hend, hapart⟩ := hm.packed_layout hplan
  have hn : (c.resized seq cap slot).nCtx = c.nCtx := putSlot_nCtx ..
  refine ⟨⟨fun s a ha => ?_, fun s t a b hst ha hb => hapart s t a b hst ha hb⟩,
    hc.spans.putSlot _ _, ?_⟩
  · obtain ⟨hle, hin⟩ := hc.shared_resized hslot s a ha
    have hf := hm.fits s a ha
    unfold SeqSlot.privateWritten at hf
    refine ⟨hm.cap_pos s a ha, ?_, hle, by omega, hin⟩
    rw [hn]
    obtain ⟨b, hb, hstart, -, -, hcap⟩ := resized_old hslot ha
    have hb' := (hc.table.ok s b hb).in_arena
    have hs := hend s a ha
    rcases hcap with hcap | ⟨-, hcap, rfl⟩
    · omega
    · by_cases hg : b.cap < cap
      · have := hgrow hg
        omega
      · omega
  · intro i l hl
    rw [hn]
    rw [KvCache.resized, putSlot_layers] at hl
    exact hc.layers i l hl

-- ==================== reachable states

theorem Inv.kvDefrag (hc : c.Inv) {report : DefragReport}
    (h : c.kvDefrag env need = (.ok report, c')) :
    c'.Inv := by
  rcases hc.kvDefrag_cases h with ⟨-, rfl⟩ | hrel
  · exact hc
  · refine hrel.inv hc.movable (fun s slot hs => ?_) hc.layers
    have hok := hc.table.ok s slot hs
    exact ⟨hok.shared_le, hok.shared_in⟩

theorem Inv.kvSetCap (hc : c.Inv)
    (h : c.kvSetCapWithDefrag env seq cap = (.ok out, c')) : c'.Inv := by
  obtain ⟨slot, hslot, ⟨-, rfl⟩ | ⟨-, hpos, hfit, hgrow, hcase⟩⟩ :=
    hc.kvSetCap_cases h
  · exact hc
  · rcases hcase with ⟨hplan, rfl⟩ | hrel
    · exact hc.resized hslot hpos hfit hgrow hplan
    · refine hrel.inv (hc.movable_resized hslot hpos hfit)
        (hc.shared_resized hslot) ?_
      intro i l hl
      rw [KvCache.resized, putSlot_layers] at hl
      rw [KvCache.resized, putSlot_nCtx]
      exact hc.layers i l hl

theorem IsEmpty.inv (hc : c.IsEmpty) : c.Inv := by
  refine ⟨⟨fun s slot hs => ?_, fun s t a b _ ha _ => ?_⟩, fun s => ?_,
    fun i l hl => ?_⟩
  · exact absurd (hs.symm.trans (hc.seqs s)) nofun
  · exact absurd (ha.symm.trans (hc.seqs s)) nofun
  · rw [hc.spans s, hc.seqs s]
    rfl
  · exact ⟨hc.owner_len i l hl, hc.k_len i l hl, hc.v_len i l hl⟩

/-- One call keeps the invariant. -/
theorem Inv.step {op : ArenaOp ρ} (hc : c.Inv)
    (h : c.step env op = some c') : c'.Inv := by
  cases op with
  | reserve seq cap =>
      simp only [KvCache.step] at h
      split at h
      next slot c₁ h₁ =>
        cases h
        exact hc.reserveSeq h₁
      next =>
        cases h
        exact hc
  | release seq =>
      cases h
      exact hc.releaseSeq seq
  | own seq positions rows =>
      simp only [KvCache.step] at h
      split at h
      next c₁ h₁ =>
        cases h
        exact (hc.ownPositions h₁).storeRows ..
      next e c₁ h₁ =>
        cases h
        exact hc.ownPositions h₁
  | share src dst rows =>
      cases h
      unfold kvSharePrefix
      split
      · exact hc
      next c₁ h₁ => exact hc.sharePrefix h₁
  | copyPrefix src dst rows =>
      cases h
      exact hc.kvCopyPrefix rfl
  | privateRow seq t =>
      cases h
      exact hc.kvPrivateRowFor rfl
  | defrag need =>
      simp only [KvCache.step] at h
      unfold okState at h
      split at h
      next report c₁ h₁ =>
        cases h
        exact hc.kvDefrag h₁
      next => cases h
  | setCap seq cap =>
      simp only [KvCache.step] at h
      unfold okState at h
      split at h
      next out c₁ h₁ =>
        cases h
        exact hc.kvSetCap h₁
      next => cases h

/-- The arena invariant holds in every reachable state. -/
theorem Reachable.inv (hc : Reachable env c) :
    c.Inv := by
  induction hc with
  | empty h => exact h.inv
  | step op _ h ih => exact ih.step h

-- ================ rows of a compaction

/-- Some layer holds no row twice, so that one row cannot pass for
another. -/
def DistinctRows (c : KvCache ρ) : Prop :=
  ∃ (i : Nat) (l : KvLayer ρ), c.layers[i]? = some l ∧ l.k.Nodup

/-- The plan of a resize is safe: `CompactionSafe` of the table with the
new capacity in it. -/
def ResizeSafe (c : KvCache ρ) (seq cap : Nat) : Prop :=
  ∀ slot ∈ c.seqSlot seq, cap ≠ slot.cap →
    (c.resized seq cap slot).CompactionSafe none

/-- An empty plan is safe. -/
theorem Movable.safe_of_plan_nil (hc : c.Movable)
    (hplan : c.compactionPlan need = []) : c.CompactionSafe need := by
  intro e _ r hr hdisp
  have hmem : moveOf r (c.packedStart r.2) ∈ c.compactionPlan need :=
    (mem_compactionPlan hc).mpr ⟨r.2, mem_seqs_toList.mp hr, rfl, hdisp⟩
  rw [hplan] at hmem
  cases hmem

/-- `kv_defrag` keeps every readable row exactly when it is safe. -/
theorem Inv.kvDefrag_keepsRows (hc : c.Inv)
    {report : DefragReport} (h : c.kvDefrag env need = (.ok report, c')) :
    (c.CompactionSafe need → KeepsRows c c')
      ∧ (c.DistinctRows → KeepsRows c c' → c.CompactionSafe need) := by
  have hm := hc.movable
  rcases hc.kvDefrag_cases h with ⟨hplan, rfl⟩ | hrel
  · exact ⟨fun _ => hm.keepsRows_self hc.spans, fun _ _ => hm.safe_of_plan_nil hplan⟩
  · refine ⟨hrel.keepsRows hm hc.spans, ?_⟩
    rintro ⟨i, l, hl, hdistinct⟩ hkeep
    exact hrel.safe_of_keepsRows hm hc.spans
      (fun s slot hs => (hc.table.ok s slot hs).shared_le) hl hdistinct hkeep

/-- `kv_set_cap_with_defrag` keeps every readable row exactly when its plan
is safe. -/
theorem Inv.kvSetCap_keepsRows (hc : c.Inv)
    (h : c.kvSetCapWithDefrag env seq cap = (.ok out, c')) :
    (c.ResizeSafe seq cap → KeepsRows c c')
      ∧ (c.DistinctRows → KeepsRows c c' → c.ResizeSafe seq cap) := by
  obtain ⟨slot, hslot, ⟨hcap, rfl⟩ | ⟨hne, hpos, hfit, -, hcase⟩⟩ :=
    hc.kvSetCap_cases h
  · refine ⟨fun _ => hc.movable.keepsRows_self hc.spans,
      fun _ _ slot' hslot' hne => ?_⟩
    rw [seqSlot, Option.mem_def, hslot] at hslot'
    cases hslot'
    exact absurd hcap hne
  · have hm := hc.movable_resized hslot hpos hfit
    have hsp : (c.resized seq cap slot).SpansOk := hc.spans.putSlot _ _
    have hsafe : c.ResizeSafe seq cap
        ↔ (c.resized seq cap slot).CompactionSafe none := by
      refine ⟨fun hs => hs slot hslot hne, fun hs slot' hslot' _ => ?_⟩
      rw [seqSlot, Option.mem_def, hslot] at hslot'
      cases hslot'
      exact hs
    rw [hsafe, ← hc.keepsRows_resized hslot hpos hfit]
    rcases hcase with ⟨hplan, rfl⟩ | hrel
    · exact ⟨fun _ => hm.keepsRows_self hsp, fun _ _ => hm.safe_of_plan_nil hplan⟩
    · refine ⟨hrel.keepsRows hm hsp, ?_⟩
      rintro ⟨i, l, hl, hdistinct⟩ hkeep
      have hl' : (c.resized seq cap slot).layers[i]? = some l := by
        rw [KvCache.resized, putSlot_layers, hl]
      exact hrel.safe_of_keepsRows hm hsp
        (fun s a ha => (hc.shared_resized hslot s a ha).1) hl' hdistinct hkeep

/-- Compaction and resizing, from every reachable state: every readable
row is kept when no run is packed onto an unheld prefix cell, and, where
rows can be told apart, only then. -/
theorem compaction_keeps_rows (hc : Reachable env c) :
    (∀ need report c', c.kvDefrag env need = (.ok report, c') →
        (c.CompactionSafe need → KeepsRows c c')
          ∧ (c.DistinctRows → KeepsRows c c' → c.CompactionSafe need))
      ∧ ∀ seq cap out c', c.kvSetCapWithDefrag env seq cap = (.ok out, c') →
        (c.ResizeSafe seq cap → KeepsRows c c')
          ∧ (c.DistinctRows → KeepsRows c c' → c.ResizeSafe seq cap) :=
  ⟨fun _ _ _ h => hc.inv.kvDefrag_keepsRows h, fun _ _ _ _ h =>
    hc.inv.kvSetCap_keepsRows h⟩

/-- A readable position whose row changed. -/
theorem not_keepsRows {s : SeqId} {p i : Nat} {cell cell' : Nat} {x y : ρ}
    (hslot : c.seqs[s]? = some slot) (hp : p < c.writtenRows s)
    (hcell : c.cellOf s p = some cell) (hcell' : c'.cellOf s p = some cell')
    (hrow : (c.layers[i]?.bind (·.k[cell]?)) = some x)
    (hrow' : (c'.layers[i]?.bind (·.k[cell']?)) = some y) (hne : x ≠ y) :
    ¬ KeepsRows c c' := by
  intro hkeep
  obtain ⟨d, d', hd, hd', hrows⟩ := (hkeep s slot hslot).2 p hp
  rw [hcell] at hd
  rw [hcell'] at hd'
  cases hd
  cases hd'
  obtain ⟨l, hl, hk⟩ := Option.bind_eq_some_iff.mp hrow
  obtain ⟨l', hl', hk'⟩ := Option.bind_eq_some_iff.mp hrow'
  obtain ⟨l'', hl'', hsame, -⟩ := hrows i l hl
  rw [hl'] at hl''
  cases hl''
  rw [hk, hk'] at hsame
  exact hne (Option.some.inj hsame.symm)

/-- An arena of eight cells and one layer. -/
def eightCells : KvCache Nat :=
  KvCache.new.insert 0 .cpu (List.range 8) (List.range 8) 1 1 8 false

/-- The rows of one forward: each position's row is `base + position`. -/
def rowsFrom (base : Nat) : Stores Nat := fun _ pos => (base + pos, base + pos)

/-- The state after a run of calls that all went through. -/
def after (ops : List (ArenaOp Nat)) : KvCache Nat :=
  (runOps .plain eightCells ops).getD eightCells

theorem reachable_after (ops : List (ArenaOp Nat)) :
    Reachable .plain (after ops) := by
  have hempty : Reachable .plain eightCells := .empty (isEmpty_insert_new rfl rfl)
  unfold after
  cases h : runOps .plain eightCells ops with
  | none => exact hempty
  | some c => exact reachable_of_runOps hempty h

/-- Sequence 2 shares three rows of sequence 1, writes one of its own, and
its donor is released. -/
def orphanedPrefix : KvCache Nat := after
  [.reserve 1 4, .own 1 [0, 1, 2] (rowsFrom 100), .reserve 2 4, .share 1 2 3,
    .own 2 [3] (rowsFrom 300), .release 1]

set_option maxRecDepth 8000 in
/-- The compaction packs sequence 2's own row onto the first row of the
prefix it still reads: its position 0 reads row 303 where it read 100. -/
theorem defrag_overwrites_orphaned_prefix :
    Reachable .plain orphanedPrefix ∧ ∃ report c',
      orphanedPrefix.kvDefrag .plain none = (.ok report, c')
        ∧ orphanedPrefix.cellOf 2 0 = some 0 ∧ c'.cellOf 2 0 = some 0
        ∧ (orphanedPrefix.layers[0]?.bind (·.k[0]?)) = some 100
        ∧ (c'.layers[0]?.bind (·.k[0]?)) = some 303
        ∧ ¬ KeepsRows orphanedPrefix c' := by
  have hok : (orphanedPrefix.kvDefrag .plain none).1
    = .ok ⟨[⟨2, 4, 0, 1⟩], 1⟩ := by decide
  have hcell : orphanedPrefix.cellOf 2 0 = some 0 := by decide
  have hcell' : (orphanedPrefix.kvDefrag .plain none).2.cellOf 2 0
    = some 0 := by decide
  have hrow : (orphanedPrefix.layers[0]?.bind (·.k[0]?)) = some 100 := by decide
  have hrow' : ((orphanedPrefix.kvDefrag .plain none).2.layers[0]?.bind (·.k[0]?))
      = some 303 := by decide
  have hslot : orphanedPrefix.seqs[2]? = some ⟨4, 4, ⟨0, 3⟩, 4⟩ := by decide
  exact ⟨reachable_after _, _, (orphanedPrefix.kvDefrag .plain none).2,
    Prod.ext hok rfl,
    hcell, hcell', hrow, hrow',
    not_keepsRows hslot (by decide) hcell hcell' hrow hrow' (by decide)⟩

/-- Sequence 3 shares three rows of sequence 2, which is still live. -/
def liveDonor : KvCache Nat := after
  [.reserve 1 2, .reserve 2 4, .own 2 [0, 1, 2] (rowsFrom 100), .reserve 3 2,
    .share 2 3 3, .own 3 [3] (rowsFrom 300), .release 1]

set_option maxRecDepth 8000 in
/-- With the donor live the same compaction moves both runs and the prefix
with them, and nothing is lost. -/
theorem defrag_keeps_live_donor : ∃ c',
    liveDonor.kvDefrag .plain none = (.ok ⟨[⟨2, 2, 0, 3⟩, ⟨3, 6, 4, 1⟩], 4⟩, c')
      ∧ liveDonor.cellOf 3 0 = some 2 ∧ c'.cellOf 3 0 = some 0
      ∧ KeepsRows liveDonor c' := by
  have hok : (liveDonor.kvDefrag .plain none).1
      = .ok ⟨[⟨2, 2, 0, 3⟩, ⟨3, 6, 4, 1⟩], 4⟩ := by
    decide
  refine ⟨(liveDonor.kvDefrag .plain none).2, Prod.ext hok rfl, by decide,
    by decide, ?_⟩
  exact ((compaction_keeps_rows (reachable_after _)).1 none _ _ (Prod.ext hok rfl)).1
    (by decide)

end KvCache
end Minfer.Graph
