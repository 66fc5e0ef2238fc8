/-
The slots of one group, while the group is placed (`admit` of the engine).

An admission first gives every request a slot and then makes room slot by
slot. Making room for one may take idle runs back, and a run counts as
idle until its own request is installed: so the slot of a request that
still waits can be taken back by another request of its own group.

`Growth.Endangers` says when, in terms of the engine the call finds: the
slot it grows has a run, the waiting slot has one, and the cells that are
free once the idle runs before it were released are not enough.
`group_undisturbed_iff` says that nothing else disturbs a waiting slot —
not the compaction, and not the prefixes of the others — and that the
rows a group's forward stores are where its requests read them.
-/
import Mathlib.Algebra.Order.BigOperators.Group.List
import Mathlib.Algebra.Order.Group.Nat
import Minfer.Server.Proofs.SlotTable

namespace Minfer.Server

open Minfer.Graph (KvCache KvEnv KvMove SeqId SeqSlot Batch landing)
open Minfer.Graph.KvCache
    (setCap_cases copyPlan_frame applyMoves_cap reserveSeq_runs runs)

variable {Λ σ : Type}

-- ===================== who holds a run

section

variable {ρ : Type} {env : KvEnv} {c c' : KvCache ρ}

/-- A sequence holds a run. -/
def Holds (c : KvCache ρ) (s : SeqId) : Prop := (c.seqSlot s).isSome = true

variable {s : SeqId}

theorem holds_congr (h : c'.seqs[s]? = c.seqs[s]?) : Holds c' s
    ↔ Holds c s := by
  rw [Holds, KvCache.seqSlot, h, Holds, KvCache.seqSlot]

theorem holds_of_cap
    (h : (c'.seqs[s]?).map (·.cap) = (c.seqs[s]?).map (·.cap)) :
    Holds c' s ↔ Holds c s := by
  have hsome := congrArg Option.isSome h
  rw [Option.isSome_map, Option.isSome_map] at hsome
  rw [Holds, KvCache.seqSlot, hsome, Holds, KvCache.seqSlot]

theorem holds_of_runs (h : c'.runs s = c.runs s) : Holds c' s
    ↔ Holds c s := by
  have hsome := congrArg Option.isSome h
  rw [runs, runs, Option.isSome_map, Option.isSome_map] at hsome
  rw [Holds, KvCache.seqSlot, hsome, Holds, KvCache.seqSlot]

/-- A compaction takes nobody's run. -/
theorem holds_kvDefrag {need : Option Nat} {r : Except String KvCache.DefragReport}
    (h : c.kvDefrag env need = (r, c')) (s : SeqId) : Holds c' s ↔ Holds c s := by
  simp only [KvCache.kvDefrag] at h
  split at h
  · cases h
    rfl
  · split at h
    next hcopy =>
      cases h
      exact holds_congr (by rw [(copyPlan_frame hcopy).1])
    next c₁ hcopy =>
      have hcopied : Holds c₁ s ↔ Holds c s :=
        holds_congr (by rw [(copyPlan_frame hcopy).1])
      split at h
      next happly =>
        cases h
        exact (holds_of_cap (applyMoves_cap happly s)).trans hcopied
      next happly =>
        cases h
        exact (holds_of_cap (applyMoves_cap happly s)).trans hcopied

/-- Nor does a reservation. -/
theorem holds_kvReserveSeq {seq cap : Nat} {r : Except String (SeqSlot × List KvMove)}
    (h : c.kvReserveSeqWithDefrag env seq cap = (r, c')) (hs : s ≠ seq) :
    Holds c' s ↔ Holds c s := by
  simp only [KvCache.kvReserveSeqWithDefrag] at h
  split at h
  next h₁ =>
    cases h
    exact holds_of_runs ((reserveSeq_runs h₁).2 s hs)
  next =>
    split at h
    · cases h
      rfl
    · split at h
      next hdefrag =>
        cases h
        exact holds_kvDefrag hdefrag s
      next hdefrag =>
        have hmoved := holds_kvDefrag hdefrag s
        split at h
        · cases h
          exact hmoved
        · split at h
          · cases h
            exact hmoved
          next h₂ =>
            cases h
            exact (holds_of_runs ((reserveSeq_runs h₂).2 s hs)).trans hmoved

theorem holds_setCap {seq cap : Nat} {moves : List KvMove}
    (h : c.setCap seq cap = .ok (moves, c')) (hs : s ≠ seq) :
    Holds c' s ↔ Holds c s := by
  cases hslot : c.seqs[seq]? with
  | none =>
      simp only [KvCache.setCap, hslot] at h
      cases h
  | some slot =>
      rcases setCap_cases hslot h with ⟨-, -, rfl⟩ | ⟨-, rfl, -⟩
        | ⟨-, -, -, -, rfl, -⟩
      · rfl
      · exact holds_of_runs (KvCache.releaseSeq_runs c hs)
      · exact holds_congr (by rw [KvCache.resized_seqs, if_neg (Ne.symm hs)])

/-- Nor does a resize. -/
theorem holds_kvSetCap {seq cap : Nat} {r : Except String (SeqSlot × List KvMove)}
    (h : c.kvSetCapWithDefrag env seq cap = (r, c')) (hs : s ≠ seq) :
    Holds c' s ↔ Holds c s := by
  simp only [KvCache.kvSetCapWithDefrag] at h
  split at h
  · cases h
    rfl
  · split at h
    · cases h
      rfl
    next plan c₁ hset =>
      have hresized := holds_setCap hset hs
      split at h
      · split at h
        · cases h
          exact hresized
        · cases h
          exact hresized
      · split at h
        · split at h
          · cases h
            exact hresized
          next hback =>
            cases h
            exact (holds_setCap hback hs).trans hresized
        · split at h
          next hcopy =>
            cases h
            exact (holds_congr (by rw [(copyPlan_frame hcopy).1])).trans hresized
          next c₂ hcopy =>
            have hcopied : Holds c₂ s ↔ Holds c s :=
              (holds_congr (by rw [(copyPlan_frame hcopy).1])).trans hresized
            split at h
            next happly =>
              cases h
              exact (holds_of_cap (applyMoves_cap happly s)).trans hcopied
            next happly =>
              have hmoved := (holds_of_cap (applyMoves_cap happly s)).trans hcopied
              split at h
              · cases h
                exact hmoved
              · cases h
                exact hmoved

end

-- ========================= the reclaim

/-- The cells no run covers, once the runs of `gone` are released. -/
def freeWithout {ρ : Type} (c : KvCache ρ) (gone : List SeqId) : Nat :=
  c.nCtx - ((c.seqs.toList.filter fun r => decide (r.1 ∉ gone)).map fun r =>
    min r.2.cap c.nCtx).sum

theorem freeWithout_nil {ρ : Type} (c : KvCache ρ) :
    freeWithout c []
      = c.nCtx - (c.seqs.toList.map fun r => min r.2.cap c.nCtx).sum := by
  simp [freeWithout]

/-- Releasing a run is one more that is gone. -/
theorem freeWithout_releaseSeq {ρ : Type} (c : KvCache ρ) (s : SeqId)
    (gone : List SeqId) :
    freeWithout (c.releaseSeq s).2 gone = freeWithout c (s :: gone) := by
  have hperm :
      ((c.releaseSeq s).2.seqs.toList.filter fun r => decide (r.1 ∉ gone)).Perm
      (c.seqs.toList.filter fun r => decide (r.1 ∉ s :: gone)) := by
    have hnd : ∀ c : KvCache ρ, c.seqs.toList.Nodup := fun c =>
      (Graph.nodup_keys_toList c.seqs).of_map _
    refine (List.perm_ext_iff_of_nodup ((hnd _).filter _)
      ((hnd _).filter _)).2 fun r => ?_
    have htable := KvCache.releaseSeq_table c s r.1
    rw [KvCache.table, KvCache.table] at htable
    rw [List.mem_filter, List.mem_filter, KvCache.mem_seqs_toList,
      KvCache.mem_seqs_toList, htable]
    by_cases hs : s = r.1
    · simp [hs]
    · simp [hs, Ne.symm hs]
  rw [freeWithout, freeWithout, KvCache.releaseSeq_nCtx, (hperm.map _).sum_nat]

/-- The more is gone, the more is free. -/
theorem freeWithout_le {ρ : Type} (c : KvCache ρ) (gone : List SeqId) :
    freeWithout c [] ≤ freeWithout c gone := by
  have hsub : ((c.seqs.toList.filter fun r => decide (r.1 ∉ gone)).map
      fun r => min r.2.cap c.nCtx).Sublist
          (c.seqs.toList.map fun r => min r.2.cap c.nCtx) :=
    List.filter_sublist.map _
  have hle := hsub.sum_le_sum fun _ _ => Nat.zero_le _
  rw [freeWithout_nil, freeWithout]
  omega

namespace BatchEngine

/-- The sequence of a slot the reclaim loop may take back: not the one that
grows, no request on it, and a run to give. -/
def victim (e : BatchEngine Λ σ) (idx j : Nat) : Option SeqId :=
  match e.slots[j]? with
  | none => none
  | some slot => if j = idx ∨ slot.run.isSome
      ∨ slot.cap = 0 then none else some slot.seq

/-- A slot and its run, as they were. -/
structure Untouched (q : Nat) (e e' : BatchEngine Λ σ) : Prop where
  slot : e'.slots[q]? = e.slots[q]?
  run : ∀ slot, e.slots[q]? = some slot →
    (Holds e'.cache slot.seq ↔ Holds e.cache slot.seq)

variable {w : World Λ σ} {e e' : BatchEngine Λ σ}

theorem Untouched.refl (q : Nat) (e : BatchEngine Λ σ) : Untouched q e e :=
  ⟨rfl, fun _ _ => .rfl⟩

/-- The engine once a slot's run was taken back. -/
def takenBack (e : BatchEngine Λ σ) (j : Nat) (slot : SlotState Λ σ) :
    BatchEngine Λ σ :=
  { e with cache := (e.cache.releaseSeq slot.seq).2 }.setSlot j
    { slot with cachedTokens := [], cap := 0 }

theorem nodup_takenBack {j : Nat} {slot : SlotState Λ σ}
    (hs : e.slots[j]? = some slot) (hnd : (e.slots.map (·.seq)).Nodup) :
    ((e.takenBack j slot).slots.map (·.seq)).Nodup := by
  show ((e.slots.set j _).map (·.seq)).Nodup
  rw [map_set_same hs (by rfl)]
  exact hnd

variable {q : Nat}

theorem untouched_takenBack {j : Nat} {other : SlotState Λ σ} (hne : j ≠ q)
    (ho : e.slots[j]? = some other) (hnd : (e.slots.map (·.seq)).Nodup) :
    Untouched q e (e.takenBack j other) := by
  refine ⟨List.getElem?_set_ne hne, fun slot hs => holds_of_runs ?_⟩
  exact KvCache.releaseSeq_runs _ (seq_ne_of_nodup hnd (Ne.symm hne) hs ho)

theorem Untouched.trans {e₁ : BatchEngine Λ σ} (h : Untouched q e e₁)
    (h' : Untouched q e₁ e') : Untouched q e e' :=
  ⟨h'.slot.trans h.slot, fun slot hs =>
    (h'.run slot (h.slot.trans hs)).trans (h.run slot hs)⟩

/-- One round of the loop: the slot is passed over, or the loop ends, or
the slot's run is taken back. -/
theorem reclaim_cons (idx need j : Nat) (rest : List Nat) (e : BatchEngine Λ σ) :
    (e.victim idx j = none ∧ e.reclaim idx need (j :: rest) = e.reclaim idx need rest)
      ∨ ∃ slot, e.slots[j]? = some slot ∧ e.victim idx j = some slot.seq
        ∧ (need ≤ freeWithout e.cache [] ∧ e.reclaim idx need (j :: rest) = e
          ∨ freeWithout e.cache [] < need
            ∧ e.reclaim idx need (j :: rest)
              = (e.takenBack j slot).reclaim idx need rest) := by
  rw [reclaim, victim, freeWithout_nil]
  cases hs : e.slots[j]? with
  | none => exact .inl ⟨rfl, rfl⟩
  | some slot =>
      by_cases hbusy : j = idx ∨ slot.run.isSome ∨ slot.cap = 0
      · simp only [hbusy, if_true]
        exact .inl ⟨trivial, trivial⟩
      · simp only [hbusy, if_false]
        refine .inr ⟨slot, rfl, rfl, ?_⟩
        by_cases hfree : e.cache.nCtx
            - (e.cache.seqs.toList.map fun r => min r.2.cap e.cache.nCtx).sum ≥ need
        · exact .inl ⟨hfree, if_pos hfree⟩
        · exact .inr ⟨by omega, if_neg hfree⟩

/-- The slot that grows is not one of them. -/
theorem reclaim_own (idx need : Nat) (js : List Nat) :
    ∀ e : BatchEngine Λ σ, (e.reclaim idx need js).slots[idx]? = e.slots[idx]? := by
  induction js with
  | nil => exact fun e => rfl
  | cons j rest ih =>
      intro e
      rcases reclaim_cons idx need j rest e with ⟨-, h⟩
        | ⟨slot, hs, hv, ⟨-, h⟩ | ⟨-, h⟩⟩
      · rw [h, ih]
      · rw [h]
      · have hne : j ≠ idx := by
          rintro rfl
          rw [victim, hs] at hv
          simp at hv
        rw [h, ih]
        exact List.getElem?_set_ne hne

/-- Slots the loop does not visit stay as they are. -/
theorem untouched_reclaim (idx need : Nat) (js : List Nat) :
    ∀ {e : BatchEngine Λ σ}, q ∉ js → (e.slots.map (·.seq)).Nodup →
      Untouched q e (e.reclaim idx need js) := by
  induction js with
  | nil => exact fun _ _ => .refl q _
  | cons j rest ih =>
      intro e hq hnd
      obtain ⟨hj, hrest⟩ := not_or.1 (fun h => hq (List.mem_cons.2 h))
      rcases reclaim_cons idx need j rest e with ⟨-, h⟩
        | ⟨slot, hs, -, ⟨-, h⟩ | ⟨-, h⟩⟩
      · rw [h]
        exact ih hrest hnd
      · rw [h]
        exact .refl q e
      · rw [h]
        exact (untouched_takenBack (Ne.symm hj) hs hnd).trans
          (ih hrest (nodup_takenBack hs hnd))

/-- The slot's run is gone, and its record with it. -/
structure Taken (q : Nat) (e e' : BatchEngine Λ σ) : Prop where
  slot : e'.slots[q]? = (e.slots[q]?).map fun slot =>
    { slot with cachedTokens := [], cap := 0 }
  run : ∀ slot, e.slots[q]? = some slot → ¬ Holds e'.cache slot.seq

theorem victim_takenBack {idx j : Nat} {slot : SlotState Λ σ} (hne : j ≠ q) :
    (e.takenBack j slot).victim idx q = e.victim idx q := by
  rw [victim, victim, show (e.takenBack j slot).slots[q]?
    = e.slots[q]? from List.getElem?_set_ne hne]

/-- The loop takes a slot back exactly when it may, and the runs it took
before are not enough. -/
theorem reclaim_spec (idx need q : Nat) (before after : List Nat) :
    ∀ {e : BatchEngine Λ σ}, (before ++ q :: after).Nodup →
      (e.slots.map (·.seq)).Nodup →
      (((e.victim idx q).isSome
          ∧ freeWithout e.cache (before.filterMap (e.victim idx)) < need)
          ∧ Taken q e (e.reclaim idx need (before ++ q :: after)))
        ∨ (¬ ((e.victim idx q).isSome
            ∧ freeWithout e.cache (before.filterMap (e.victim idx)) < need)
          ∧ Untouched q e (e.reclaim idx need (before ++ q :: after))) := by
  induction before with
  | nil =>
      intro e hjs hnd
      have hafter : q ∉ after := (List.nodup_cons.1 hjs).1
      rw [List.nil_append, List.filterMap_nil]
      rcases reclaim_cons idx need q after e with ⟨hv, h⟩
        | ⟨slot, hs, hv, ⟨hfree, h⟩ | ⟨hfree, h⟩⟩
      · rw [h, hv]
        exact .inr ⟨fun hcon => absurd hcon.1 Bool.false_ne_true,
          untouched_reclaim idx need after hafter hnd⟩
      · rw [h]
        exact .inr ⟨fun hcon => absurd hcon.2 (by omega), .refl q e⟩
      · rw [h, hv]
        have hlt : q < e.slots.length := (List.getElem?_eq_some_iff.1 hs).1
        have hself : (e.takenBack q slot).slots[q]?
            = some { slot with cachedTokens := [], cap := 0 } :=
              List.getElem?_set_self hlt
        have hrest := untouched_reclaim idx need after hafter
          (nodup_takenBack hs hnd)
        refine .inl ⟨⟨rfl, hfree⟩,
          ⟨by rw [hrest.slot, hself, hs]; rfl, fun slot' hs' => ?_⟩⟩
        rw [hs] at hs'
        cases hs'
        rw [hrest.run _ hself, Holds, KvCache.seqSlot]
        have hgone : (e.takenBack q slot).cache.runs slot.seq = none :=
          KvCache.releaseSeq_runs_self _ _
        rw [runs, Option.map_eq_none_iff] at hgone
        rw [hgone]
        exact Bool.false_ne_true
  | cons j before ih =>
      intro e hjs hnd
      obtain ⟨hj, hjs'⟩ := List.nodup_cons.1 hjs
      have hne : j ≠ q :=
        fun h => hj (List.mem_append_right _ (h ▸ List.mem_cons_self ..))
      rw [List.cons_append]
      rcases reclaim_cons idx need j (before ++ q :: after) e with
        ⟨hv, h⟩ | ⟨slot, hs, hv, ⟨hfree, h⟩ | ⟨hfree, h⟩⟩
      · rw [h, List.filterMap_cons_none hv]
        exact ih hjs' hnd
      · rw [h]
        have hle := freeWithout_le e.cache ((j :: before).filterMap (e.victim idx))
        exact .inr ⟨fun hcon => absurd hcon.2 (by omega), .refl q e⟩
      · rw [h, List.filterMap_cons_some hv]
        have hvictims : before.filterMap ((e.takenBack j slot).victim idx)
            = before.filterMap (e.victim idx) := by
          refine List.filterMap_congr fun i hi => victim_takenBack fun hij => hj ?_
          exact List.mem_append_left _ (hij ▸ hi)
        have hone := untouched_takenBack hne hs hnd
        have hsame := ih (e := e.takenBack j slot) hjs' (nodup_takenBack hs hnd)
        rw [victim_takenBack hne, hvictims,
          show freeWithout (e.takenBack j slot).cache
            (before.filterMap (e.victim idx))
            = freeWithout e.cache (slot.seq :: before.filterMap (e.victim idx))
            from freeWithout_releaseSeq ..] at hsame
        rcases hsame with ⟨hcond, htaken⟩ | ⟨hcond, hkept⟩
        · refine .inl ⟨hcond, ⟨by rw [htaken.slot, hone.slot], fun slot' hs' => ?_⟩⟩
          exact htaken.run slot' (hone.slot.trans hs')
        · exact .inr ⟨hcond, hone.trans hkept⟩

-- ========================== one growth

end BatchEngine

/-- The call leaves a waiting slot its record and its run. -/
def Growth.Spares (w : World Λ σ) (g : Growth Λ σ) (q : Nat) : Prop :=
  (g.grown w).cachedOf q = g.engine.cachedOf q
    ∧ ∀ slot, g.engine.slots[q]? = some slot → Holds g.engine.cache slot.seq →
      Holds (g.grown w).cache slot.seq

/-- The call takes the slot back: the slot it grows has a run that is too
small, the other one is idle and has something to lose, and the cells free
without the idle slots before it are not enough. -/
def Growth.Endangers (g : Growth Λ σ) (q : Nat) : Prop :=
  ∃ own slot, g.engine.slots[g.slot]? = some own ∧ own.cap ≠ 0
    ∧ own.cap < min g.want g.engine.nCtxTotal
    ∧ g.engine.slots[q]? = some slot ∧ q ≠ g.slot ∧ slot.run = none ∧ slot.cap ≠ 0
    ∧ (slot.cachedTokens ≠ [] ∨ Holds g.engine.cache slot.seq)
    ∧ freeWithout g.engine.cache ((List.range q).filterMap (g.engine.victim g.slot))
      < min g.want g.engine.nCtxTotal - own.cap

namespace BatchEngine

variable {w : World Λ σ} {e e' : BatchEngine Λ σ}

theorem cachedOf_of_tokens {q : Nat} (h : (e'.slots[q]?).map (·.cachedTokens)
    = (e.slots[q]?).map (·.cachedTokens)) : e'.cachedOf q = e.cachedOf q := by
  rw [cachedOf, h, cachedOf]

end BatchEngine

/-- The slots' records, and who holds a run besides the growing slot, after
a call whose slot had no run; and after one that had one, once idle runs
were taken back. -/
theorem Growth.grown_cases (w : World Λ σ) (g : Growth Λ σ) :
    (g.grown w = g.engine ∧ ∀ own, g.engine.slots[g.slot]? = some own →
        min g.want g.engine.nCtxTotal ≤ own.cap)
      ∨ ∃ own e₁, g.engine.slots[g.slot]? = some own
        ∧ own.cap < min g.want g.engine.nCtxTotal
        ∧ (g.grown w).slots.map (·.cachedTokens) = e₁.slots.map (·.cachedTokens)
        ∧ (∀ s, s ≠ own.seq → (Holds (g.grown w).cache s ↔ Holds e₁.cache s))
        ∧ (own.cap = 0 ∧ e₁ = g.engine
          ∨ own.cap ≠ 0
              ∧ e₁ = g.engine.reclaim g.slot
              (min g.want g.engine.nCtxTotal - own.cap)
              (List.range g.engine.slots.length)) := by
  obtain ⟨e, idx, want, waiting⟩ := g
  simp only [Growth.grown, BatchEngine.ensureSlotCapacity]
  cases hs : e.slots[idx]? with
  | none => exact .inl ⟨rfl, by simp⟩
  | some own =>
  by_cases hroom : min want e.nCtxTotal = 0 ∨ own.cap ≥ min want e.nCtxTotal
  · simp only [hroom, if_true]
    refine .inl ⟨trivial, fun own' hown => ?_⟩
    cases hown
    omega
  simp only [hroom, if_false]
  right
  by_cases hzero : own.cap = 0
  · simp only [hzero, if_true]
    refine ⟨own, e, rfl, by omega, ?_⟩
    cases hres : e.cache.kvReserveSeqWithDefrag w.kvEnv own.seq
        (min want e.nCtxTotal) with
    | mk r c =>
    cases r with
    | error err =>
        exact ⟨rfl, fun s hne => holds_kvReserveSeq hres hne, .inl ⟨hzero, rfl⟩⟩
    | ok out =>
        exact ⟨map_granted hs (fun _ _ _ => rfl) ..,
          fun s hne => holds_kvReserveSeq hres hne, .inl ⟨hzero, rfl⟩⟩
  · simp only [hzero, if_false]
    refine ⟨own,
      e.reclaim idx (min want e.nCtxTotal - own.cap)
        (List.range e.slots.length), rfl,
      by omega, ?_⟩
    have hown := (BatchEngine.reclaim_own idx (min want e.nCtxTotal - own.cap)
      (List.range e.slots.length) e).trans hs
    revert hown
    generalize e.reclaim idx (min want e.nCtxTotal - own.cap)
      (List.range e.slots.length) = e₁
    intro hown
    cases hres : e₁.cache.kvSetCapWithDefrag w.kvEnv own.seq
        (min want e₁.nCtxTotal) with
    | mk r c =>
    cases r with
    | error err =>
        exact ⟨rfl, fun s hne => holds_kvSetCap hres hne, .inr ⟨hzero, rfl⟩⟩
    | ok out =>
        exact ⟨map_granted hown (fun _ _ _ => rfl) ..,
          fun s hne => holds_kvSetCap hres hne, .inr ⟨hzero, rfl⟩⟩

/-- One call spares another slot of the engine unless it endangers it. -/
theorem Growth.spares_iff (w : World Λ σ) (g : Growth Λ σ)
    (hnd : (g.engine.slots.map (·.seq)).Nodup) {q : Nat} (hq : q ≠ g.slot) :
    g.Spares w q ↔ ¬ g.Endangers q := by
  rcases g.grown_cases w with ⟨hsame, hroom⟩
    | ⟨own, e₁, hown, hgrows, htokens, hholds, hcase⟩
  · refine ⟨fun _ ⟨own, slot, hs, _, hlt, _⟩ => ?_, fun _ => ?_⟩
    · exact absurd (hroom own hs) (by omega)
    · rw [Spares, hsame]
      exact ⟨rfl, fun _ _ h => h⟩
  -- what the call does after the reclaim does not matter to the slot
  have hspares : g.Spares w q ↔ (e₁.cachedOf q = g.engine.cachedOf q
      ∧ ∀ slot, g.engine.slots[q]? = some slot → Holds g.engine.cache slot.seq →
        Holds e₁.cache slot.seq) := by
    have hcached : (g.grown w).cachedOf q = e₁.cachedOf q := by
      refine BatchEngine.cachedOf_of_tokens ?_
      rw [← List.getElem?_map, ← List.getElem?_map, htokens]
    rw [Spares, hcached]
    refine and_congr_right' (forall_congr' fun slot => forall_congr' fun hs => ?_)
    rw [hholds slot.seq (BatchEngine.seq_ne_of_nodup hnd hq hs hown)]
  rw [hspares]
  rcases hcase with ⟨hzero, rfl⟩ | ⟨hpos, rfl⟩
  · refine iff_of_true ⟨rfl, fun _ _ h => h⟩ ?_
    rintro ⟨own', slot, hs, hpos, -⟩
    rw [hown] at hs
    cases hs
    exact hpos hzero
  by_cases hlt : q < g.engine.slots.length
  swap
  · -- no such slot
    have hnone : g.engine.slots[q]? = none := List.getElem?_eq_none_iff.2 (by omega)
    have hmiss : q ∉ List.range g.engine.slots.length := by simpa using hlt
    have hkept := BatchEngine.untouched_reclaim g.slot
      (min g.want g.engine.nCtxTotal - own.cap)
        (List.range g.engine.slots.length) hmiss hnd
    refine iff_of_true ⟨?_, fun slot hs => ?_⟩ ?_
    · rw [BatchEngine.cachedOf, hkept.slot, BatchEngine.cachedOf]
    · rw [hnone] at hs
      cases hs
    · rintro ⟨-, slot, -, -, -, hs, -⟩
      rw [hnone] at hs
      cases hs
  have hrange : List.range g.engine.slots.length
      = List.range q ++ q :: List.range' (q + 1)
        (g.engine.slots.length - (q + 1)) := by
    rw [List.range_eq_range', List.range_eq_range', ← List.range'_succ]
    have happend := @List.range'_append_1 0 q (g.engine.slots.length - (q + 1) + 1)
    rw [Nat.zero_add] at happend
    rw [happend]
    congr 1
    omega
  have hspec := BatchEngine.reclaim_spec g.slot
    (min g.want g.engine.nCtxTotal - own.cap) q (List.range q)
    (List.range' (q + 1) (g.engine.slots.length - (q + 1)))
      (hrange ▸ List.nodup_range) hnd
  rw [← hrange] at hspec
  obtain ⟨slot, hs⟩ : ∃ slot, g.engine.slots[q]? = some slot :=
    ⟨_, List.getElem?_eq_getElem hlt⟩
  have hvictim : (g.engine.victim g.slot q).isSome
      ↔ slot.run = none ∧ slot.cap ≠ 0 := by
    rw [BatchEngine.victim, hs]
    by_cases hbusy : q = g.slot ∨ slot.run.isSome ∨ slot.cap = 0
    · simp only [hbusy, if_true, Option.isSome_none, Bool.false_eq_true, false_iff]
      rintro ⟨hidle, hcap⟩
      rcases hbusy with h | h | h
      · exact hq h
      · rw [hidle] at h
        cases h
      · exact hcap h
    · obtain ⟨-, hidle, hcap⟩ := not_or.1 hbusy |>.imp_right not_or.1
      simp only [hbusy, if_false, Option.isSome_some, true_iff]
      exact ⟨by simpa using hidle, hcap⟩
  rcases hspec with ⟨⟨hv, hfree⟩, htaken⟩ | ⟨hcond, hkept⟩
  · obtain ⟨hidle, hcap⟩ := hvictim.1 hv
    have hcached : (g.engine.reclaim g.slot (min g.want g.engine.nCtxTotal - own.cap)
        (List.range g.engine.slots.length)).cachedOf q = [] := by
      rw [BatchEngine.cachedOf, htaken.slot, hs]
      rfl
    rw [hcached, BatchEngine.cachedOf_eq hs]
    constructor
    · rintro ⟨hempty, hkeep⟩ ⟨own', slot', -, -, -, hs', -, -, -, hlose, -⟩
      rw [hs] at hs'
      cases hs'
      rcases hlose with htokens | hheld
      · exact htokens hempty.symm
      · exact htaken.run slot hs (hkeep slot hs hheld)
    · intro hsafe
      have hnothing :
          ¬ (slot.cachedTokens ≠ [] ∨ Holds g.engine.cache slot.seq) :=
          fun hlose =>
        hsafe ⟨own, slot, hown, hpos, hgrows, hs, hq, hidle, hcap, hlose, hfree⟩
      obtain ⟨hempty, hfree⟩ := not_or.1 hnothing
      refine ⟨(not_ne_iff.1 hempty).symm, fun slot' hs' hheld => ?_⟩
      rw [hs] at hs'
      cases hs'
      exact absurd hheld hfree
  · refine iff_of_true ⟨?_, fun slot' hs' hheld => (hkept.run slot' hs').2 hheld⟩ ?_
    · rw [BatchEngine.cachedOf, hkept.slot, BatchEngine.cachedOf]
    · rintro ⟨own', slot', hown', -, -, hs', -, hidle, hcap, -, hfree⟩
      rw [hown] at hown'
      rw [hs] at hs'
      cases hown'
      cases hs'
      exact hcond ⟨hvictim.2 ⟨hidle, hcap⟩, hfree⟩

namespace BatchEngine

variable {w : World Λ σ} {e e' : BatchEngine Λ σ}

-- ======================== an admission

/-- A slot does not wait for itself. -/
theorem slot_not_waiting {seam : TickSeam} {jobs : List (Job σ)} {g : Growth Λ σ}
    (hg : g ∈ e.admitGrowths w seam jobs) : g.slot ∉ g.waiting := by
  have hsubmit : ∀ {e : BatchEngine Λ σ} {idx : Nat} {job : Job σ}
      {others : List Nat},
      g ∈ e.submitGrowths idx job (others.filter (· ≠ idx)) → g.slot ∉ g.waiting := by
    intro e idx job others hg
    unfold submitGrowths at hg
    split at hg
    · cases hg
    · split at hg
      · cases hg
      · rw [List.mem_singleton.1 hg]
        simp
  have hall : ∀ (placed : List (Nat × Job σ × Nat)) {e : BatchEngine Λ σ},
      g ∈ e.submitAllGrowths w seam placed → g.slot ∉ g.waiting := by
    intro placed
    induction placed with
    | nil => exact fun hg => nomatch hg
    | cons p rest ih =>
        intro e hg
        rcases List.mem_append.1 hg with hg | hg
        · exact hsubmit hg
        · exact ih hg
  have hgroup : ∀ (group : List Nat) (placed : List (Nat × Job σ × Nat))
      {e : BatchEngine Λ σ},
      g ∈ e.groupGrowths w group placed → g.slot ∉ g.waiting := by
    intro group placed
    induction placed with
    | nil => exact fun hg => nomatch hg
    | cons p rest ih =>
        intro e hg
        rw [groupGrowths] at hg
        simp only [List.mem_cons] at hg
        rcases hg with rfl | hg
        · simp
        · split at hg
          · cases hg
          · exact ih hg
  unfold admitGrowths at hg
  simp only at hg
  split at hg
  · exact hgroup _ _ hg
  · exact hall _ hg

theorem nodup_grown (g : Growth Λ σ) (hnd : (g.engine.slots.map (·.seq)).Nodup) :
    ((g.grown w).slots.map (·.seq)).Nodup := by
  have hreclaim : ∀ (idx need : Nat) (js : List Nat) {e : BatchEngine Λ σ},
      (e.slots.map (·.seq)).Nodup →
          ((e.reclaim idx need js).slots.map (·.seq)).Nodup := by
    intro idx need js
    induction js with
    | nil => exact fun hnd => hnd
    | cons j rest ih =>
        intro e hnd
        rcases reclaim_cons idx need j rest e with ⟨-, h⟩
          | ⟨slot, hs, -, ⟨-, h⟩ | ⟨-, h⟩⟩
        · rw [h]
          exact ih hnd
        · rw [h]
          exact hnd
        · rw [h]
          exact ih (nodup_takenBack hs hnd)
  have hgranted : ∀ {e : BatchEngine Λ σ} {idx : Nat} {slot : SlotState Λ σ}
      (moves : List KvMove)
      (start cap : Nat), e.slots[idx]? = some slot → (e.slots.map (·.seq)).Nodup →
      (((applyRunMoves e.slots moves).set idx { slot with start, cap }).map
          (·.seq)).Nodup := by
    intro e idx slot moves start cap hs hnd
    rw [map_granted hs fun _ _ _ => rfl]
    exact hnd
  obtain ⟨e, idx, want, waiting⟩ := g
  simp only [Growth.grown, ensureSlotCapacity]
  split
  · exact hnd
  next slot hs =>
    split
    · exact hnd
    · split
      · split
        · exact hnd
        · exact hgranted _ _ _ hs hnd
      · have hnd₁ :=
          hreclaim idx (min want e.nCtxTotal - slot.cap)
          (List.range e.slots.length) hnd
        have hs₁ := (reclaim_own idx (min want e.nCtxTotal - slot.cap)
          (List.range e.slots.length) e).trans hs
        split
        · exact hnd₁
        · exact hgranted _ _ _ hs₁ hnd₁

/-- A forward stores each row in the cell its position resolves to, there
and later: no resize comes between the two. -/
def RowsLand (w : World Λ σ) (seam : TickSeam) (e : BatchEngine Λ σ)
    (jobs : List (Job σ)) : Prop :=
  Grouped w (e.placedOn w jobs) (e.placedJobs w jobs) → ∀ b e₁ logits e₂,
    (e.placedOn w jobs).groupBatch w (e.placedJobs w jobs) ⟨[], [], []⟩
      = (.ok b, e₁) →
    e₁.forwardBatch w b = (.ok logits, e₂) →
    ∃ cells c, e₁.cache.fillBatchInputs w.kvEnv b = (.ok cells, c)
      ∧ e₂.cache = storeBatch c (batchEntries b cells)
      ∧ ∀ x ∈ batchEntries b cells,
        (e.admitJobs w seam jobs).2.cache.cellOf x.1.1 x.1.2 = some x.2.2

/-- While a group is placed and prefilled, no resize made for one of its
requests takes the run or the record of the slot another one waits for;
and the rows its forward stores are where they are read. -/
def Undisturbed (w : World Λ σ) (seam : TickSeam) (e : BatchEngine Λ σ)
    (jobs : List (Job σ)) :
    Prop :=
  (∀ g ∈ e.admitGrowths w seam jobs, ∀ q ∈ g.waiting, g.Spares w q)
    ∧ RowsLand w seam e jobs

/-- The cells a fill resolved are those of its entries. -/
theorem cellOf_of_fill {env : KvEnv} {c c' : KvCache Row} {b : Batch}
    {cells : List Nat} (h : c.fillBatchInputs env b = (.ok cells, c'))
    {x : (SeqId × Nat) × Token × Nat} (hx : x ∈ batchEntries b cells) :
    c'.cellOf x.1.1 x.1.2 = some x.2.2 := by
  have hcells : c'.kvCellsForSeq b.seqIds b.positions = .ok cells := by
    unfold KvCache.fillBatchInputs at h
    split at h
    · cases h
    · split at h
      · cases h
      · obtain ⟨hres, rfl⟩ := Prod.mk.inj h
        exact hres
  unfold KvCache.kvCellsForSeq at hcells
  split at hcells
  · cases hcells
  obtain ⟨k, hk⟩ := List.mem_iff_getElem?.1 hx
  rw [batchEntries, List.getElem?_zip_eq_some, List.getElem?_zip_eq_some,
    List.getElem?_zip_eq_some] at hk
  obtain ⟨⟨hseq, hpos⟩, -, hcell⟩ := hk
  obtain ⟨cell, hcell', hat⟩ := KvCache.forQueries_ok hcells hseq hpos
  rw [hcell'] at hcell
  cases hcell
  unfold KvCache.kvCellAt at hat
  split at hat
  · cases hat
  · split at hat
    · cases hat
    · split at hat
      · cases hat
      · split at hat
        · cases hat
        next hres =>
          cases hat
          exact hres

theorem cellOf_storeBatch (entries : List ((SeqId × Nat) × Token × Nat))
    (c : KvCache Row) (s : SeqId) (p : Nat) :
    (storeBatch c entries).cellOf s p = c.cellOf s p := by
  induction entries generalizing c with
  | nil => rfl
  | cons entry rest ih => exact ih _

theorem rowsLand (seam : TickSeam) (e : BatchEngine Λ σ) (jobs : List (Job σ)) :
    RowsLand w seam e jobs := by
  intro hgroup b e₁ logits e₂ hbatch hforward
  obtain ⟨c₂, hf, rfl⟩ := forwardBatch_ok hforward
  have hfill : ∃ cells c, e₁.cache.fillBatchInputs w.kvEnv b = (.ok cells, c)
      ∧ c₂ = storeBatch c (batchEntries b cells) := by
    unfold forwardOn at hf
    split at hf
    · split at hf
      · cases hf
      · split at hf
        · cases hf
        · cases hf
    · split at hf
      · cases hf
      next cells c hfill =>
        cases hf
        exact ⟨cells, c, hfill, rfl⟩
  obtain ⟨cells, c, hfill, rfl⟩ := hfill
  refine ⟨cells, c, hfill, rfl, fun x hx => ?_⟩
  -- the installs do not touch the arena
  have hcache : (e.admitJobs w seam jobs).2.cache
      = storeBatch c (batchEntries b cells) := by
    have hinstall : ∀ (placed : List (Nat × Job σ × Nat)) (e : BatchEngine Λ σ),
        (placed.foldl
          (fun e p => e.installRun w p.2.2 p.2.1 (logits p.2.1.inputIds))
          e).cache
          = e.cache := by
      intro placed
      induction placed with
      | nil => exact fun e => rfl
      | cons p rest ih =>
          intro e
          rw [List.foldl_cons, ih, installRun]
          split <;> rfl
    have hprefill : ((e.placedOn w jobs).prefillGroup w (e.placedJobs w jobs))
        = (.ok (), (e.placedJobs w jobs).foldl
            (fun e p => e.installRun w p.2.2 p.2.1 (logits p.2.1.inputIds))
            (e₁.forwarded (storeBatch c (batchEntries b cells)))) := by
      unfold prefillGroup
      simp only [hbatch, hforward]
    refine (congrArg (fun out : List Answer × BatchEngine Λ σ => out.2.cache)
      (if_pos hgroup)).trans ?_
    rw [← placedOn, ← placedJobs, hprefill]
    exact hinstall _ _
  rw [hcache, cellOf_storeBatch]
  exact cellOf_of_fill hfill hx

/-- Placing a group leaves its waiting slots alone exactly when none of its
resizes endangers one. -/
theorem group_undisturbed_iff (w : World Λ σ) (seam : TickSeam) (e : BatchEngine Λ σ)
    (jobs : List (Job σ)) (hseqs : (e.slots.map (·.seq)).Nodup) :
    Undisturbed w seam e jobs
      ↔ ∀ g ∈ e.admitGrowths w seam jobs, ∀ q ∈ g.waiting, ¬ g.Endangers q := by
  have hnd := (@admitJobs_holds Λ σ w e (fun e => (e.slots.map (·.seq)).Nodup)
    (fun _ => True)
    (fun hq h => hq.seqs ▸ h) (fun g _ => nodup_grown g) hseqs seam jobs
    fun _ _ => trivial).2
  rw [Undisturbed, and_iff_left (rowsLand seam e jobs)]
  refine forall_congr' fun g => forall_congr' fun hg => forall_congr' fun q =>
    forall_congr' fun hq => ?_
  exact g.spares_iff w (hnd g hg) fun heq => slot_not_waiting hg (heq ▸ hq)

/-- Two slots of four cells in an arena of eight. -/
def pair : BatchEngine (List Token) Unit :=
  match BatchEngine.new counting (blankArena 8) 2 8 0 with
  | .ok e => e
  | .error _ => ⟨blankArena 8, 8, [], 0, 0, 0, 0, []⟩

/-- A short request, and one whose completion needs six cells. -/
def uneven : List (Job Unit) := [asks 0 [3], ⟨1, [1, 2], ⟨4, []⟩, ()⟩]

theorem pair_eq : BatchEngine.new counting (blankArena 8) 2 8 0 = .ok pair := by
  have hok : (BatchEngine.new counting (blankArena 8) 2 8 0).isOk = true := by
    decide +kernel
  unfold pair
  split
  next e he => exact he
  next err herr =>
    rw [herr] at hok
    cases hok

set_option maxRecDepth 8000 in
/-- The second request of the group takes the run of the first one back,
and the group's forward fails for both. -/
theorem group_takes_sibling_back :
    BatchEngine.new counting (blankArena 8) 2 8 0 = .ok pair
      ∧ ¬ Undisturbed counting .off pair uneven
      ∧ ((pair.admitJobs counting .off uneven).1.all fun a => !a.2.isOk) = true := by
  refine ⟨pair_eq, fun hund => ?_, by decide +kernel⟩
  have hcall : ((pair.admitGrowths counting .off uneven)[1]?.map fun g =>
      (g.waiting, g.engine.slots[0]?.map (·.seq), (g.engine.cache.seqSlot 1).isSome,
        ((g.grown counting).cache.seqSlot 1).isSome))
            = some ([0], some 1, true, false) := by
    decide +kernel
  obtain ⟨g, hg, hfacts⟩ := Option.map_eq_some_iff.1 hcall
  obtain ⟨hwaiting, hslot, hheld, hgone⟩ : g.waiting = [0]
      ∧ g.engine.slots[0]?.map (·.seq) = some 1
      ∧ (g.engine.cache.seqSlot 1).isSome = true
      ∧ ((g.grown counting).cache.seqSlot 1).isSome = false := by simpa using hfacts
  obtain ⟨slot, hs, hseq⟩ := Option.map_eq_some_iff.1 hslot
  have hspared :=
    (hund.1 g (List.mem_of_getElem? hg) 0
      (hwaiting ▸ List.mem_singleton_self 0)).2 slot hs
  rw [hseq, Holds, Holds, hgone] at hspared
  exact absurd (hspared hheld) Bool.false_ne_true

set_option maxRecDepth 8000 in
/-- Two requests that grow into the free cells. -/
theorem group_grows_undisturbed :
    Undisturbed counting .off trio [asks 0 [1, 2, 3], asks 1 [4, 5, 6]] := by
  refine (group_undisturbed_iff counting .off trio _
    (by decide +kernel)).2 fun g hg q hq => ?_
  have hall : ((trio.admitGrowths counting .off
      [asks 0 [1, 2, 3], asks 1 [4, 5, 6]]).all fun g =>
      g.waiting.all fun q => min g.want g.engine.nCtxTotal
          - (g.engine.slots[g.slot]?.map (·.cap)).getD 0
        ≤ freeWithout g.engine.cache
          ((List.range q).filterMap (g.engine.victim g.slot))) = true := by
    decide +kernel
  have hroom := List.all_eq_true.1 (List.all_eq_true.1 hall g hg) q hq
  rintro ⟨own, slot, hown, -, -, -, -, -, -, -, hfree⟩
  rw [hown] at hroom
  exact absurd hfree (Nat.not_lt_of_le (of_decide_eq_true hroom))

end BatchEngine
end Minfer.Server
