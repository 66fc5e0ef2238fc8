/-
Fragmentation alone never refuses a reservation.

First fit misses no gap (`firstFit_none`), so a reservation fails only when
no free run is long enough. The packing loop stops at the first run behind
whose packed end enough free cells follow; behind the last run lies
everything that is not reserved, so the loop stops when the capacities
allow it, and the cells between the packed end and the next run are the gap
the retry finds (`Inv.opened`).
-/
import Minfer.Graph.Session
import Minfer.Graph.Proofs.Keeps

namespace Minfer.Graph

open Lib (InRun)

variable {ρ : Type}

namespace KvCache

-- =========================== first fit

/-- When first fit finds nothing, every window of the length it looks for
has a taken cell. -/
theorem firstFit_none {cap : Nat} :
    ∀ {taken : List Bool} {start run : Nat}, run < cap →
      firstFit cap taken start run = none →
      ∀ s, start ≤ s + run → s + cap ≤ start + taken.length →
        ∃ cell, InRun s cap cell ∧ start ≤ cell
          ∧ taken[cell - start]? = some true := by
  intro taken
  induction taken with
  | nil =>
      intro start run hrun _ s hlow hhigh
      simp only [List.length_nil] at hhigh
      omega
  | cons t rest ih =>
      intro start run hrun hfit s hlow hhigh
      rw [List.length_cons] at hhigh
      -- a taken cell of the rest is one of the whole
      have hrest :
          (∃ cell, InRun s cap cell ∧ start + 1 ≤ cell
            ∧ rest[cell - (start + 1)]? = some true) →
          ∃ cell, InRun s cap cell ∧ start ≤ cell
              ∧ (t :: rest)[cell - start]? = some true := by
        rintro ⟨cell, hin, hge, hcell⟩
        refine ⟨cell, hin, by omega, ?_⟩
        rw [show cell - start = (cell - (start + 1)) + 1 by omega,
          List.getElem?_cons_succ]
        exact hcell
      cases t with
      | true =>
          rw [firstFit] at hfit
          by_cases hs : s ≤ start
          · refine ⟨start, ⟨hs, by omega⟩, Nat.le_refl _, ?_⟩
            rw [Nat.sub_self, List.getElem?_cons_zero]
          · exact hrest (ih (by omega) hfit s (by omega) (by omega))
      | false =>
          rw [firstFit] at hfit
          split at hfit
          · cases hfit
          · exact hrest (ih (by omega) hfit s (by omega) (by omega))

variable {c : KvCache ρ}

/-- A cell the scan sees taken lies in a live sequence's run or prefix. -/
theorem exists_of_occupied (hc : c.SpansOk) {cell : Nat}
    (htaken : c.occupied[cell]? = some true) : ∃ (s : SeqId)
    (slot : SeqSlot), c.seqs[s]? = some slot ∧
      (InRun slot.start slot.cap cell
        ∨ InRun slot.shared.cell slot.shared.rows cell) := by
  obtain ⟨hlt, hval⟩ := List.getElem?_eq_some_iff.mp htaken
  simp only [occupied, List.getElem_map, List.getElem_range, List.any_eq_true,
    decide_eq_true_eq] at hval
  obtain ⟨⟨s, spans⟩, hentry, p, hp, hin⟩ := hval
  have hspans : c.spans[s]? = some spans :=
    Std.TreeMap.mem_toList_iff_getElem?_eq_some.mp hentry
  rw [hc s] at hspans
  obtain ⟨slot, hslot, hlist⟩ := Option.bind_eq_some_iff.mp hspans
  refine ⟨s, slot, hslot, ?_⟩
  rw [SeqSlot.spanEntry] at hlist
  split at hlist
  · cases hlist
  · cases hlist
    simp only [SeqSlot.spanList, List.mem_append] at hp
    rcases hp with hp | hp
    · split at hp
      · cases List.mem_singleton.mp hp
        exact .inr hin
      · cases hp
    · split at hp
      · cases List.mem_singleton.mp hp
        exact .inl hin
      · cases hp

section

variable {env : KvEnv} {c c' : KvCache ρ} {seq cap : Nat}

/-- First fit finds any gap that is long enough. -/
theorem Solo.reserveSeq_of_gap (hc : c.Solo) (hnew : c.seqs[seq]? = none)
    (hpos : 0 < cap) {start : Nat} (hin : start + cap ≤ c.nCtx)
    (hgap : ∀ (s : SeqId) slot, c.seqs[s]? = some slot →
      slot.start + slot.cap ≤ start ∨ start + cap ≤ slot.start) :
    ∃ slot c', c.reserveSeq seq cap = .ok (slot, c') := by
  unfold KvCache.reserveSeq
  rw [if_neg (Nat.ne_of_gt hpos), hnew]
  dsimp only
  rw [if_neg (by omega)]
  cases hfit : firstFit cap c.occupied 0 0 with
  | some found => exact ⟨_, _, rfl⟩
  | none =>
      obtain ⟨cell, hcell, -, htaken⟩ := firstFit_none hpos hfit start (Nat.zero_le _)
        (by rw [length_occupied, Nat.zero_add]; exact hin)
      obtain ⟨s, slot, hslot, hrun⟩ := exists_of_occupied hc.inv.spans htaken
      have halone := hc.alone s slot hslot
      have hclear := hgap s slot hslot
      unfold InRun at hcell hrun
      omega

-- ====================== where it stops

/-- The packing loop stops: behind some run enough cells lie free, and
behind no earlier one. -/
theorem exists_stop {nCtx n : Nat} : ∀ {runs : List (SeqId × SeqSlot)}
    {cursor : Nat}, runs ≠ [] →
    cursor + capSum runs + n ≤ nCtx →
      ∃ pre t post, runs = pre ++ t :: post
        ∧ n ≤ gapEnd nCtx post - (cursor + capSum pre + t.2.cap)
        ∧ ∀ a u b, pre = a ++ u :: b →
          gapEnd nCtx (b ++ t :: post) - (cursor + capSum a + u.2.cap) < n := by
  intro runs
  induction runs with
  | nil =>
      intro cursor hne _
      exact absurd rfl hne
  | cons x rest ih =>
      intro cursor _ hfits
      rw [capSum_cons] at hfits
      by_cases hstop : n ≤ gapEnd nCtx rest - (cursor + x.2.cap)
      · refine ⟨[], x, rest, rfl, by simpa using hstop, fun a u b hnil => ?_⟩
        cases a <;> cases hnil
      · have hrest : rest ≠ [] := by
          rintro rfl
          simp only [gapEnd, capSum_nil] at hstop hfits
          omega
        obtain ⟨pre, t, post, rfl, hgap, hopen⟩ :=
          @ih (cursor + x.2.cap) hrest (by omega)
        refine ⟨x :: pre, t, post, rfl, ?_, fun a u b hsplit => ?_⟩
        · rw [capSum_cons, ← Nat.add_assoc]
          exact hgap
        · rcases a with _ | ⟨y, a⟩
          · cases hsplit
            rw [capSum_nil, Nat.add_zero]
            exact Nat.lt_of_not_le hstop
          · cases hsplit
            rw [capSum_cons, ← Nat.add_assoc]
            exact hopen a u b rfl

theorem gapEnd_le {n : Nat} {runs : List (SeqId × SeqSlot)}
    (hord : InOrder runs) {u : SeqId × SeqSlot}
    (hu : u ∈ runs) : gapEnd n runs ≤ u.2.start := by
  rcases runs with _ | ⟨y, rest⟩
  · cases hu
  · rcases List.mem_cons.mp hu with rfl | hu
    · exact Nat.le_refl _
    · exact Nat.le_of_lt ((List.pairwise_cons.mp hord).1 u hu).1

/-- The plan for `n` cells opens a gap of `n` cells, when the capacities
leave room for it. -/
theorem Inv.opened (hc : c.Inv) {n : Nat} (hpos : 0 < n)
    (hfits : c.reservedCells + n ≤ c.nCtx) :
    ∃ start, start + n ≤ c.nCtx ∧ ∀ (s : SeqId) slot, c.seqs[s]? = some slot →
      plannedStart (orderMoves (c.compactionPlan (some n))) s slot + slot.cap ≤ start
        ∨ start + n ≤ plannedStart (orderMoves (c.compactionPlan (some n))) s
          slot := by
  have hm := hc.movable
  have hsum : c.reservedCells = capSum c.sortedRuns :=
    (hm.perm_sortedRuns.symm.map _).sum_nat
  by_cases hnil : c.sortedRuns = []
  · refine ⟨0, by omega, fun s slot hslot => ?_⟩
    have hmem : (s, slot) ∈ c.sortedRuns := hm.mem_sortedRuns.mpr hslot
    rw [hnil] at hmem
    cases hmem
  obtain ⟨pre, t, post, hruns, hgap, hopen⟩ :=
    @exists_stop c.nCtx n _ 0 hnil (by omega)
  simp only [Nat.zero_add] at hgap hopen
  rw [← hm.packedStart_eq hruns] at hgap
  have hord := hm.inOrder
  rw [hruns] at hord
  obtain ⟨-, htail, hbelow⟩ := List.pairwise_append.mp hord
  obtain ⟨habove, hpost⟩ := List.pairwise_cons.mp htail
  have hmem : ∀ {r}, r ∈ pre ++ t :: post ↔ c.seqs[r.1]? = some r.2 := by
    intro r
    rw [← hruns]
    exact hm.mem_sortedRuns
  have ht : c.seqs[t.1]? = some t.2 := hmem.mp (by simp)
  have hend : gapEnd c.nCtx post ≤ c.nCtx := by
    rcases post with _ | ⟨y, post⟩
    · exact Nat.le_refl _
    · have hy : c.seqs[y.1]? = some y.2 := hmem.mp (by simp)
      have hin := (hc.table.ok _ _ hy).in_arena
      exact Nat.le_trans (Nat.le_add_right ..) hin
  refine ⟨c.packedStart t.2 + t.2.cap, by omega, fun s slot hslot => ?_⟩
  rw [hm.plannedStart_plan hslot]
  -- a run up to `t` is packed, whether or not it moves
  have hpacked : slot.start ≤ t.2.start → ¬c.Displaced (some n) slot →
      slot.start = c.packedStart slot := by
    intro hle hnot
    by_contra hne
    refine hnot ⟨hne, fun n' hn' x hx hlt => ?_⟩
    cases hn'
    have hxin : x ∈ pre := by
      rcases List.mem_append.mp (hmem.mpr (mem_seqs_toList.mp hx)) with h | h
      · exact h
      · rcases List.mem_cons.mp h with rfl | h
        · omega
        · have := (habove x h).1
          omega
    obtain ⟨a, b, rfl⟩ := List.append_of_mem hxin
    have hsplit : c.sortedRuns = a ++ x :: (b ++ t :: post) := by
      rw [hruns, List.append_assoc]
      rfl
    have hgapx := hopen a x b rfl
    rw [← hm.packedStart_eq hsplit] at hgapx
    have hordx := hm.inOrder
    rw [hsplit] at hordx
    have hnext := (List.pairwise_cons.mp (List.pairwise_append.mp hordx).2.1).1
    obtain ⟨u, rest, hu⟩ : ∃ u rest, b ++ t :: post = u :: rest := by
      rcases b with _ | ⟨y, b⟩
      · exact ⟨t, post, rfl⟩
      · exact ⟨y, b ++ t :: post, rfl⟩
    rw [hu] at hgapx hnext hsplit
    refine ⟨u, hm.perm_sortedRuns.mem_iff.mp (by rw [hsplit]; simp),
      (hnext u List.mem_cons_self).1, hgapx⟩
  rcases List.mem_append.mp ((@hmem (s, slot)).mpr hslot) with h | h
  · left
    have hlt := (hbelow (s, slot) h t List.mem_cons_self).1
    have hend' := hm.packedStart_add_le hslot ht hlt
    split
    next => omega
    next hnot =>
      have := hpacked (Nat.le_of_lt hlt) hnot
      omega
  · rcases List.mem_cons.mp h with rfl | h
    · left
      simp only at hpacked ⊢
      split
      next => exact Nat.le_refl _
      next hnot =>
        rw [← hpacked (Nat.le_refl _) hnot]
    · right
      have hle : gapEnd c.nCtx post ≤ slot.start := gapEnd_le hpost h
      rw [if_neg]
      · omega
      · rintro ⟨-, hall⟩
        obtain ⟨u, hu, hlt, hsmall⟩ :=
          hall n rfl t (mem_seqs_toList.mpr ht) (habove _ h).1
        have huin : u ∈ post := by
          rcases List.mem_append.mp (hmem.mpr (mem_seqs_toList.mp hu)) with h' | h'
          · have := (hbelow u h' t List.mem_cons_self).1
            omega
          · rcases List.mem_cons.mp h' with rfl | h'
            · exact absurd hlt (Nat.lt_irrefl _)
            · exact h'
        have := @gapEnd_le c.nCtx _ hpost _ huin
        omega

-- =========================== the retry

/-- The reserved cells are a function of the capacities. -/
theorem reservedCells_congr
    (h : ∀ s : SeqId, (c'.seqs[s]?).map (·.cap) = (c.seqs[s]?).map (·.cap)) :
    c'.reservedCells = c.reservedCells := by
  have hmem : ∀ (c : KvCache ρ) (s : SeqId) (cap : Nat),
      (s, cap) ∈ c.seqs.toList.map (fun r => (r.1, r.2.cap))
          ↔ (c.seqs[s]?).map (·.cap) = some cap := by
    intro c s cap
    rw [List.mem_map, Option.map_eq_some_iff]
    constructor
    · rintro ⟨r, hr, heq⟩
      cases heq
      exact ⟨r.2, mem_seqs_toList.mp hr, rfl⟩
    · rintro ⟨slot, hslot, rfl⟩
      exact ⟨(s, slot), mem_seqs_toList.mpr hslot, rfl⟩
  have hnd : ∀ c : KvCache ρ, (c.seqs.toList.map fun r => (r.1, r.2.cap)).Nodup := by
    intro c
    refine List.Nodup.of_map Prod.fst ?_
    rw [List.map_map]
    exact nodup_keys_toList c.seqs
  have hperm : (c'.seqs.toList.map fun r => (r.1, r.2.cap)).Perm
      (c.seqs.toList.map fun r => (r.1, r.2.cap)) := by
    refine (List.perm_ext_iff_of_nodup (hnd c') (hnd c)).mpr fun r => ?_
    obtain ⟨s, cap⟩ := r
    rw [hmem, hmem, h s]
  have hsum := (hperm.map Prod.snd).sum_nat
  rwa [List.map_map, List.map_map] at hsum

variable {slot : SeqSlot}

/-- A new run adds its cells. -/
theorem reservedCells_putSlot (hnew : c.seqs[seq]? = none) :
    (c.putSlot seq slot).reservedCells = c.reservedCells + slot.cap := by
  have hown : (c.putSlot seq slot).seqs[seq]? = some slot := by
    rw [putSlot_seqs, if_pos rfl]
  have hperm :
      ((c.putSlot seq slot).seqs.toList.filter fun r => r.1 ≠ seq).Perm
      c.seqs.toList := by
    have hnd : ∀ c : KvCache ρ, c.seqs.toList.Nodup :=
      fun c => (nodup_keys_toList c.seqs).of_map _
    refine (List.perm_ext_iff_of_nodup ((hnd _).filter _) (hnd c)).mpr fun r => ?_
    rw [List.mem_filter, decide_eq_true_eq, ← Prod.mk.eta (p := r),
      mem_seqs_toList, mem_seqs_toList, putSlot_seqs]
    constructor
    · rintro ⟨hr, hne⟩
      rwa [if_neg (Ne.symm hne)] at hr
    · intro hr
      have hne : r.1 ≠ seq := by
        intro heq
        rw [heq, hnew] at hr
        cases hr
      exact ⟨by rwa [if_neg (Ne.symm hne)], hne⟩
  rw [reservedCells_split hown, (hperm.map (·.2.cap)).sum_nat]
  rfl

/-- What a granted reservation is: the new run, apart from every other one,
and the moves that tell each sequence how far its run went. -/
structure Granted (c c' : KvCache ρ) (seq cap : Nat) (slot : SeqSlot)
    (moves : List KvMove) : Prop where
  held : c'.seqs[seq]? = some slot ∧ slot.cap = cap ∧ slot.start + cap ≤ c'.nCtx
  apart : ∀ (s : SeqId) a, s ≠ seq → c'.seqs[s]? = some a →
    a.start + a.cap ≤ slot.start ∨ slot.start + cap ≤ a.start
  others : ∀ (s : SeqId), s ≠ seq →
    (c'.seqs[s]?).map (·.cap) = (c.seqs[s]?).map (·.cap)
  moved : ∀ (s : SeqId) a a', s ≠ seq → c.seqs[s]? = some a → c'.seqs[s]? = some a' →
    (a.start ≠ a'.start ↔ ∃ m ∈ moves, m.seq = s)
  exact : ∀ m ∈ moves, ∃ a a', c.seqs[m.seq]? = some a ∧ c'.seqs[m.seq]? = some a' ∧
    m.fromCell = a.start ∧ m.toCell = a'.start
  once : (moves.map (·.seq)).Nodup

/-- The runs of the new table, apart from the old ones it was made of. -/
theorem Granted.reserved {moves : List KvMove}
    (h : Granted c c' seq cap slot moves) (hnew : c.seqs[seq]? = none) :
    c'.reservedCells = c.reservedCells + cap := by
  obtain ⟨hown, hcap, -⟩ := h.held
  rw [← hcap, ← reservedCells_putSlot hnew]
  refine reservedCells_congr fun s => ?_
  by_cases hs : s = seq
  · rw [hs, hown, putSlot_seqs, if_pos rfl]
  · rw [h.others s hs, putSlot_seqs, if_neg (Ne.symm hs)]

/-- A first-fit success moves nothing. -/
theorem Solo.granted_first (hc : c.Solo)
    (hnew : c.seqs[seq]? = none) (h : c.reserveSeq seq cap = .ok (slot, c')) :
    Granted c c' seq cap slot [] ∧ c'.nCtx = c.nCtx := by
  have hinv := hc.inv.reserveSeq h
  rcases reserveSeq_cases h with ⟨hold, -⟩ | ⟨-, hslot, hpos, hin, -, rfl⟩
  · rw [hnew] at hold
    cases hold
  have hcap : slot.cap = cap := by rw [hslot]; rfl
  have hown : (c.putSlot seq slot).seqs[seq]? = some slot := by
    rw [putSlot_seqs, if_pos rfl]
  have hother : ∀ s : SeqId, s ≠ seq →
      (c.putSlot seq slot).seqs[s]? = c.seqs[s]? := by
    intro s hs
    rw [putSlot_seqs, if_neg (Ne.symm hs)]
  refine ⟨⟨⟨hown, hcap, by rw [putSlot_nCtx]; exact hin⟩, fun s a hs ha => ?_,
    fun s hs => by rw [hother s hs],
    fun s a a' hs ha ha' => ?_, fun m hm => absurd hm List.not_mem_nil,
      List.nodup_nil⟩, putSlot_nCtx ..⟩
  · rw [← hcap]
    exact hinv.table.apart s seq a slot hs ha hown
  · rw [hother s hs, ha] at ha'
    cases ha'
    exact ⟨fun h => absurd rfl h, fun ⟨m, hm, _⟩ => absurd hm List.not_mem_nil⟩

/-- The compaction before the retry. -/
theorem Solo.compacted (hc : c.Solo) (henv : env.Obliging) (need : Option Nat)
    (hne : c.compactionPlan need ≠ []) :
    ∃ report c₁, c.kvDefrag env need = (.ok report, c₁) ∧
      report.moves = c.compactionPlan need ∧ c₁.Solo
        ∧ Relocated (orderMoves (c.compactionPlan need)) c c₁ := by
  obtain ⟨report, c₁, hdef, hsteady, -⟩ := hc.kvDefrag henv need
  refine ⟨report, c₁, hdef, ?_, hsteady.solo, ?_⟩
  · unfold KvCache.kvDefrag at hdef
    simp only [List.isEmpty_iff, hne, if_false] at hdef
    split at hdef
    · cases hdef
    · split at hdef
      · cases hdef
      · cases hdef
        rfl
  · rcases hc.inv.kvDefrag_cases hdef with ⟨hnil, -⟩ | hrel
    · exact absurd hnil hne
    · exact hrel

/-- A first fit behind a compaction reports the compaction's moves. -/
theorem Solo.granted_retry {c₁ : KvCache ρ} {need : Option Nat} (hc : c.Solo)
    (hnew : c.seqs[seq]? = none) (hsolo : c₁.Solo)
    (hrel : Relocated (orderMoves (c.compactionPlan need)) c c₁)
    (h : c₁.reserveSeq seq cap = .ok (slot, c')) :
    Granted c c' seq cap slot (c.compactionPlan need) ∧ c'.nCtx = c.nCtx := by
  have hm := hc.inv.movable
  have hnd := hm.nodup_seq need
  have hnew₁ : c₁.seqs[seq]? = none := by
    rw [hrel.seqs seq, hnew]
    rfl
  obtain ⟨hgrant, hn⟩ := hsolo.granted_first hnew₁ h
  -- the other runs stand where the plan puts them
  have hplaced : ∀ (s : SeqId) a, s ≠ seq → c.seqs[s]? = some a →
      ∃ a', c'.seqs[s]? = some a'
      ∧ a'.cap = a.cap
      ∧ a'.start = plannedStart (orderMoves (c.compactionPlan need)) s a := by
    intro s a hs ha
    have h₁ := hrel.slot hnd ha
    rcases reserveSeq_cases h with ⟨hold, -⟩ | ⟨-, -, -, -, -, rfl⟩
    · rw [hnew₁] at hold
      cases hold
    · rw [putSlot_seqs, if_neg (Ne.symm hs)]
      exact ⟨_, h₁, rfl, rfl⟩
  have hmoved : ∀ m ∈ c.compactionPlan need, ∃ a, c.seqs[m.seq]? = some a
      ∧ m.fromCell = a.start
      ∧ m.toCell = plannedStart (orderMoves (c.compactionPlan need)) m.seq a
      ∧ a.start ≠ m.toCell := by
    intro m hmem
    obtain ⟨a, ha, hmeq, hdisp⟩ := (mem_compactionPlan hm).mp hmem
    refine ⟨a, ha, by rw [hmeq]; rfl, ?_, ?_⟩
    · rw [hm.plannedStart_plan ha, if_pos hdisp, hmeq]
      rfl
    · rw [hmeq]
      exact hdisp.1
  have hold : ∀ m ∈ c.compactionPlan need, m.seq ≠ seq := by
    rintro m hmem rfl
    obtain ⟨a, ha, -⟩ := hmoved m hmem
    rw [hnew] at ha
    cases ha
  refine ⟨⟨hgrant.held, hgrant.apart, fun s hs => ?_,
    fun s a a' hs ha ha' => ?_, fun m hmem => ?_, ?_⟩,
    hn.trans hrel.nCtx⟩
  · rw [hgrant.others s hs, hrel.seqs s, Option.map_map]
    refine congrFun (congrArg _ (funext fun a => ?_)) _
    rw [Function.comp_apply, relocateAll_eq]
  · obtain ⟨b, hb, -, hstart⟩ := hplaced s a hs ha
    rw [ha'] at hb
    cases hb
    rw [hstart]
    constructor
    · intro hne
      rw [hm.plannedStart_plan ha] at hne
      split at hne
      next hdisp =>
        refine ⟨moveOf (s, a) (c.packedStart a), ?_, rfl⟩
        exact (mem_compactionPlan hm).mpr ⟨a, ha, rfl, hdisp⟩
      next => exact absurd rfl hne
    · rintro ⟨m, hmem, rfl⟩
      obtain ⟨b, hb, -, hto, hne⟩ := hmoved m hmem
      rw [ha] at hb
      cases hb
      rw [← hto]
      exact hne
  · obtain ⟨a, ha, hfrom, hto, -⟩ := hmoved m hmem
    obtain ⟨a', ha', -, hstart⟩ := hplaced m.seq a (hold m hmem) ha
    exact ⟨a, a', ha, ha', hfrom, by rw [hto, hstart]⟩
  · exact ((List.perm_insertionSort _ _).map _).nodup_iff.mp hnd

/-- A granted request: the new run, and the moves that made room. -/
theorem Solo.reserve_granted (hc : c.Solo) (henv : env.Obliging)
    (hnew : c.seqs[seq]? = none) {out : SeqSlot × List KvMove}
    (h : c.kvReserveSeqWithDefrag env seq cap = (.ok out, c')) :
    Granted c c' seq cap out.1 out.2 ∧ c'.nCtx = c.nCtx := by
  unfold kvReserveSeqWithDefrag at h
  cases hfirst : c.reserveSeq seq cap with
  | ok first =>
      rw [hfirst] at h
      cases h
      exact hc.granted_first hnew hfirst
  | error first =>
      simp only [hfirst] at h
      split at h
      · cases h
      by_cases hnil : c.compactionPlan (some cap) = []
      · unfold KvCache.kvDefrag at h
        simp only [hnil, List.isEmpty_nil, if_true] at h
        cases h
      · obtain ⟨report, c₁, hdef, hmoves, hsolo, hrel⟩ :=
          hc.compacted henv (some cap) hnil
        simp only [hdef, hmoves, List.isEmpty_iff, hnil, if_false] at h
        split at h
        · cases h
        next slot c₂ hretry =>
          cases h
          exact hc.granted_retry hnew hsolo hrel hretry

/-- Enough unreserved cells, wherever they lie, are enough. -/
theorem Solo.reserve_of_fits (hc : c.Solo) (henv : env.Obliging)
    (hon : env.defragEnabled = true) (hnew : c.seqs[seq]? = none)
    (hpos : 0 < cap) (hfits : c.reservedCells + cap ≤ c.nCtx) :
    ∃ out c', c.kvReserveSeqWithDefrag env seq cap = (.ok out, c') := by
  obtain ⟨start, hin, hgap⟩ := hc.inv.opened hpos hfits
  unfold kvReserveSeqWithDefrag
  cases hfirst : c.reserveSeq seq cap with
  | ok first => exact ⟨_, _, rfl⟩
  | error first =>
      simp only [hon, Bool.not_true, Bool.false_eq_true, if_false]
      by_cases hnil : c.compactionPlan (some cap) = []
      · -- an empty plan leaves the gap where it is, and first fit has seen it
        have hstay : ∀ (s : SeqId) slot,
            plannedStart (orderMoves (c.compactionPlan (some cap))) s slot
            = slot.start := by
          intro s slot
          rw [hnil]
          rfl
        obtain ⟨slot, c₁, hok⟩ :=
            hc.reserveSeq_of_gap hnew hpos hin fun s slot hslot => by
          rw [← hstay s slot]
          exact hgap s slot hslot
        rw [hfirst] at hok
        cases hok
      · obtain ⟨report, c₁, hdef, hmoves, hsolo, hrel⟩ :=
          hc.compacted henv (some cap) hnil
        have hnd := hc.inv.movable.nodup_seq (some cap)
        have hnew₁ : c₁.seqs[seq]? = none := by
          rw [hrel.seqs seq, hnew]
          rfl
        obtain ⟨slot, c₂, hok⟩ :=
            hsolo.reserveSeq_of_gap hnew₁ hpos
            (by rw [hrel.nCtx]; exact hin) fun s a ha => by
          rw [hrel.seqs s] at ha
          obtain ⟨b, hb, heq⟩ := Option.map_eq_some_iff.mp ha
          have hslot := hrel.slot hnd hb
          rw [hrel.seqs s, hb, Option.map_some, heq] at hslot
          cases hslot
          exact hgap s b hb
        simp only [hdef, hmoves, List.isEmpty_iff, hnil, if_false, hok]
        exact ⟨_, _, rfl⟩

end

-- ================================ runs

section

variable {env : KvEnv} {c c' : KvCache ρ}

theorem Solo.storeRows (hc : c.Solo) (seq : SeqId) (positions : List Nat)
    (rows : Stores ρ) :
    (c.storeRows seq positions rows).Solo :=
  ⟨hc.inv.storeRows seq positions rows, hc.alone⟩

/-- A resize to nothing gives the run up and packs what is left. -/
theorem Solo.kvSetCap_zero (hc : c.Solo) (henv : env.Obliging) (seq : SeqId) :
    (c.kvSetCapWithDefrag env seq 0).2.Solo := by
  unfold kvSetCapWithDefrag
  cases hslot : c.seqSlot seq with
  | none => exact hc
  | some slot =>
      rw [seqSlot] at hslot
      have hpos := (hc.inv.table.ok seq slot hslot).cap_pos
      have hset : c.setCap seq 0
          = .ok ((c.releaseSeq seq).2.compactionPlan none,
            (c.releaseSeq seq).2) := by
        unfold KvCache.setCap
        simp only [hslot]
        simp only [if_neg (Nat.ne_of_lt hpos), if_true]
      obtain ⟨hsolo, -, -, hgone⟩ := hc.releaseSeq seq
      simp only [hset]
      by_cases hnil : (c.releaseSeq seq).2.compactionPlan none = []
      · simp only [hnil, List.isEmpty_nil, if_true, seqSlot, hgone]
        exact hsolo
      · simp only [List.isEmpty_iff, hnil, if_false]
        by_cases hon : env.defragEnabled = true
        · simp only [hon, Bool.not_true, Bool.false_eq_true, if_false]
          have hm := hsolo.inv.movable
          have hsrc : ∀ (s : SeqId) slot, (c.releaseSeq seq).2.seqs[s]? = some slot →
              slot.start + slot.privateWritten ≤ (c.releaseSeq seq).2.nCtx := by
            intro s slot hs
            have := hm.fits s slot hs
            have := (hsolo.inv.table.ok s slot hs).in_arena
            omega
          obtain ⟨c₁, n, c₂, hcopy, happly, hrel⟩ := Private.relocated henv
            (fun (m : KvMove) e =>
              (s!"kv_set_cap: moving sequence {m.seq} rows " ++
                s!"{m.fromCell}..{m.fromCell + m.rows} -> {m.toCell} " ++
                s!"failed: {e}"))
            hsolo.alone hm hsolo.inv.spans hsolo.inv.layers hsrc
              (hsolo.inv.laidOut none)
            (fun h => hnil (orderMoves_eq_nil.1 h))
          obtain ⟨hsteady, hbirth⟩ :=
            hrel.steady hm hsolo.inv.spans hsolo.alone hsolo.inv.layers
          have hgone₂ : c₂.seqs[seq]? = none := hbirth seq hgone
          simp only [hcopy, happly, seqSlot, hgone₂]
          exact hsteady.solo
        · simp only [hon, Bool.not_false, if_true, setCap, hgone]
          exact hsolo

end

/-- The calls that share no rows. -/
def Unsharing : ArenaOp ρ → Prop
  | .reserve .. | .release .. | .own .. | .defrag .. | .setCap .. => True
  | .share .. | .copyPrefix .. | .privateRow .. => False

/-- The arenas that reservations, releases, stores, resizes and compactions
lead to, whatever the calls answer; the backends grant the copies. -/
inductive Unshared : KvCache ρ → Prop
  | empty {c : KvCache ρ} : c.IsEmpty → Unshared c
  | call {c : KvCache ρ} {env : KvEnv} {op : ArenaOp ρ} :
      Unshared c → env.Obliging → Unsharing op → Unshared (c.left env op)

theorem IsEmpty.solo (hc : c.IsEmpty) : c.Solo :=
  ⟨hc.inv, fun s slot hs => by rw [hc.seqs s] at hs; cases hs⟩

/-- One call keeps the arena free of shared prefixes. -/
theorem Solo.left {env : KvEnv} {op : ArenaOp ρ} (hc : c.Solo)
    (henv : env.Obliging) (hop : Unsharing op) : (c.left env op).Solo := by
  cases op with
  | reserve seq cap =>
      rw [KvCache.left]
      split
      next h => exact (hc.reserveSeq h).1.solo
      · exact hc
  | release seq => exact (hc.releaseSeq seq).1
  | own seq positions rows =>
      rw [KvCache.left]
      split
      next h => exact (hc.ownPositions h).1.solo.storeRows seq positions rows
      next h => exact (hc.ownPositions h).1.solo
  | share src dst rows => exact hop.elim
  | copyPrefix src dst rows => exact hop.elim
  | privateRow seq t => exact hop.elim
  | defrag need =>
      obtain ⟨report, c', hdef, hsteady, -⟩ := hc.kvDefrag henv need
      rw [KvCache.left, hdef]
      exact hsteady.solo
  | setCap seq cap =>
      rw [KvCache.left]
      by_cases hpos : 0 < cap
      · exact (hc.kvSetCap henv hpos rfl).1.solo
      · obtain rfl : cap = 0 := by omega
        exact hc.kvSetCap_zero henv seq

theorem Unshared.solo (hc : Unshared c) : c.Solo := by
  induction hc with
  | empty h => exact h.solo
  | call _ henv hop ih => exact ih.left henv hop

/-- Fragmentation alone never refuses a reservation: a new sequence gets its
run exactly when the reserved cells leave room for it somewhere, the run is
its own, and the reported moves are what happened to the others. -/
theorem reserve_despite_fragmentation {env : KvEnv}
    (hc : Unshared c) (henv : env.Obliging) (hon : env.defragEnabled = true)
    {seq : SeqId} (hnew : c.seqs[seq]? = none) {cap : Nat} (hpos : 0 < cap) :
    ((∃ out c', c.kvReserveSeqWithDefrag env seq cap = (.ok out, c'))
      ↔ c.reservedCells + cap ≤ c.nCtx)
      ∧ ∀ slot moves c', c.kvReserveSeqWithDefrag env seq cap
        = (.ok (slot, moves), c') →
        Granted c c' seq cap slot moves := by
  refine ⟨⟨?_, hc.solo.reserve_of_fits henv hon hnew hpos⟩, fun slot moves c' h =>
    (hc.solo.reserve_granted henv hnew h).1⟩
  rintro ⟨out, c', h⟩
  obtain ⟨hgrant, hn⟩ := hc.solo.reserve_granted henv hnew h
  have hle := (hc.solo.kvReserveSeq henv h).1.solo.inv.reservedCells_le
  rwa [hgrant.reserved hnew, hn] at hle

theorem Unshared.calls {env : KvEnv} (henv : env.Obliging) :
    ∀ {ops : List (ArenaOp ρ)} {c : KvCache ρ}, Unshared c →
      (∀ op ∈ ops, Unsharing op) →
      Unshared (ops.foldl (KvCache.left env) c) := by
  intro ops
  induction ops with
  | nil => exact fun hc _ => hc
  | cons op ops ih =>
      exact fun hc hall => ih (.call hc henv (hall op List.mem_cons_self))
        fun op' h => hall op' (List.mem_cons_of_mem op h)

/-- Four free cells of eight, in two pieces. -/
def fragmented : KvCache Nat :=
  [.reserve 1 2, .reserve 2 2, .own 2 [0] (rowsFrom 200), .reserve 3 2,
    .reserve 4 2, .release 1,
    .release 3].foldl (KvCache.left .plain) eightCells

set_option maxRecDepth 8000 in
theorem reserve_despite_fragmentation_three :
    (∃ e, fragmented.reserveSeq 5 3 = .error e)
      ∧ fragmented.reservedCells + 3 ≤ fragmented.nCtx
      ∧ ∃ slot moves c', fragmented.kvReserveSeqWithDefrag .plain 5 3
        = (.ok (slot, moves), c')
        ∧ Granted fragmented c' 5 3 slot moves := by
  have hreached : Unshared fragmented := by
    refine .calls (fun _ _ _ _ _ => rfl)
      (.empty (isEmpty_insert_new rfl rfl)) fun op hop => ?_
    simp only [List.mem_cons, List.not_mem_nil, or_false] at hop
    rcases hop with rfl | rfl | rfl | rfl | rfl | rfl | rfl <;> exact trivial
  have hfits : fragmented.reservedCells + 3 ≤ fragmented.nCtx := by decide
  obtain ⟨hiff, hgrants⟩ :=
    @reserve_despite_fragmentation _ fragmented .plain hreached
    (fun _ _ _ _ _ => rfl) rfl 5 (by decide) 3 (by decide)
  obtain ⟨⟨slot, moves⟩, c', h⟩ := hiff.mpr hfits
  have hrefused : ∃ e, fragmented.reserveSeq 5 3 = .error e := by
    have herr : ∀ r : Except String (SeqSlot × KvCache Nat), r.isOk = false →
        ∃ e, r = .error e := by
      rintro (e | x) hr
      · exact ⟨e, rfl⟩
      · cases hr
    exact herr _ (by decide)
  exact ⟨hrefused, hfits, slot, moves, c', h, hgrants slot moves c' h⟩

end KvCache
end Minfer.Graph
