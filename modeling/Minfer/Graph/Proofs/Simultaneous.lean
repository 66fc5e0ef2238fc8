/-
A relocation plan, executed move after move, is the simultaneous move
(`order_moves`, `apply_moves` and the copy loop of
`kv_set_cap_with_defrag`).

The rows are `Lib.runMoves` in an order that is `Clear`: no move lands on
rows a later one still reads. The owner tables follow the same moves, and
each one also frees what it vacated. `Marks` says that a table marks
exactly the cells of a family of runs; one move takes it to the family in
which the moved run is at its destination, whatever else overlaps.
-/
import Minfer.Graph.Proofs.Undo

namespace Minfer.Graph

open Lib (InRun Apart Clear memmove runMoves)

variable {ρ : Type}

namespace KvCache

-- ==================== the owner tables

/-- The table marks exactly the cells of the runs `rng` gives, start and
rows by sequence: each of them as its sequence's, every other cell free. -/
structure Marks (n : Nat) (rng : SeqId → Option (Nat × Nat))
    (owner : List SeqId) : Prop where
  length : owner.length = n
  held : ∀ s r, rng s = some r → ∀ cell, InRun r.1 r.2 cell → owner[cell]? = some s
  spare : ∀ cell < n, (∀ s r, rng s = some r → ¬ InRun r.1 r.2 cell) →
    owner[cell]? = some free

/-- The written rows of each sequence's own run. -/
def ownRows (c : KvCache ρ) (s : SeqId) : Option (Nat × Nat) :=
  (c.seqs[s]?).map fun a => (a.start, a.privateWritten)

/-- One cell of an owner table after a move that copies rows. -/
theorem getElem?_moveOwner {m : KvMove} {l : KvLayer ρ} (hpos : 0 < m.rows)
    (hfit : m.fromCell + m.rows ≤ l.owner.length) (cell : Nat) :
    (moveOwner m l).owner[cell]?
      = ((memmove l.owner m.toCell m.fromCell m.rows)[cell]?).map fun o =>
          if min m.toCell m.fromCell ≤ cell
              ∧ cell < min (max m.toCell m.fromCell + m.rows) l.owner.length
              ∧ ¬ InRun m.toCell m.rows cell ∧ o = m.seq then free else o := by
  have hrows : min m.rows (l.owner.length - m.fromCell) = m.rows := by omega
  simp only [moveOwner, hrows, if_pos hpos, List.getElem?_mapIdx, Lib.length_memmove]

variable {n : Nat} {ms moves : List KvMove} {c' c₁ : KvCache ρ}

/-- One move: the owner table marks the moved run at its destination, and
the cells it left are free. -/
theorem Marks.moveOwner {rng : SeqId → Option (Nat × Nat)}
    {l : KvLayer ρ} {m : KvMove}
    (h : Marks n rng l.owner) (hsrc : rng m.seq = some (m.fromCell, m.rows))
    (hfit : 0 < m.rows → m.toMove.Fits n)
    (hapart : ∀ s r, s ≠ m.seq → rng s = some r → Apart m.toCell m.rows r.1 r.2) :
    Marks n (movedRuns m rng) (moveOwner m l).owner := by
  have hlen := h.length
  -- a run of the moved family, and the one it was
  have hold : ∀ s r, movedRuns m rng s = some r → (s = m.seq ∧ r = (m.toCell, m.rows))
      ∨ s ≠ m.seq ∧ rng s = some r := by
    intro s r hr
    obtain ⟨q, hq, rfl⟩ := Option.map_eq_some_iff.1 hr
    by_cases hs : m.seq = s
    · subst hs
      rw [hsrc] at hq
      cases hq
      exact .inl ⟨rfl, by rw [if_pos rfl]⟩
    · refine .inr ⟨Ne.symm hs, ?_⟩
      rw [if_neg hs]
      exact hq
  have hkeep : ∀ s r, s ≠ m.seq → rng s = some r → movedRuns m rng s = some r := by
    intro s r hs hr
    rw [movedRuns, hr, Option.map_some, if_neg (Ne.symm hs)]
  have hmoved : movedRuns m rng m.seq = some (m.toCell, m.rows) := by
    rw [movedRuns, hsrc, Option.map_some, if_pos rfl]
  by_cases hpos : 0 < m.rows
  · obtain ⟨hin, hout⟩ := hfit hpos
    simp only [KvMove.toMove] at hin hout
    have hcell := getElem?_moveOwner (l := l) hpos (by omega)
    refine ⟨(moveOwner_frame m l).2.2.trans hlen, fun s r hr cell hc => ?_,
      fun cell hlt hnone => ?_⟩
    · rw [hcell]
      rcases hold s r hr with ⟨rfl, rfl⟩ | ⟨hs, hr⟩
      · -- the destination has the stamps of the rows moved there
        obtain ⟨i, rfl⟩ := Nat.exists_eq_add_of_le hc.1
        have hi : i < m.rows := by
          unfold InRun at hc
          omega
        rw [Lib.getElem?_memmove_dst hi (by omega) (by omega),
          h.held _ _ hsrc (m.fromCell + i) ⟨by omega, by simp only; omega⟩,
            Option.map_some,
          if_neg fun hfreed => hfreed.2.2.1 hc]
      · rw [Lib.getElem?_memmove_out fun hd => hapart s r hs hr cell hd hc,
          h.held s r hr cell hc,
          Option.map_some, if_neg fun hfreed => hs hfreed.2.2.2]
    · have hdst : ¬ InRun m.toCell m.rows cell := hnone _ _ hmoved
      rw [hcell, Lib.getElem?_memmove_out hdst]
      by_cases hleft : InRun m.fromCell m.rows cell
      · rw [h.held _ _ hsrc cell hleft, Option.map_some, if_pos]
        unfold InRun at hleft
        exact ⟨by omega, by omega, hdst, rfl⟩
      · rw [h.spare cell hlt, Option.map_some]
        · split <;> rfl
        · intro s r hr hc
          by_cases hs : s = m.seq
          · subst hs
            rw [hsrc] at hr
            cases hr
            exact hleft hc
          · exact hnone s r (hkeep s r hs hr) hc
  · -- no rows: the table is the same, and so are the marked cells
    have hzero : min m.rows (l.owner.length - m.fromCell) = 0 := by omega
    have hsame : (KvCache.moveOwner m l).owner = l.owner := by
      simp only [KvCache.moveOwner, hzero]
      rfl
    rw [hsame]
    refine ⟨hlen, fun s r hr cell hc => ?_, fun cell hlt hnone => h.spare cell hlt ?_⟩
    · rcases hold s r hr with ⟨rfl, rfl⟩ | ⟨-, hr⟩
      · unfold InRun at hc
        simp only at hc
        omega
      · exact h.held s r hr cell hc
    · intro s r hr hc
      by_cases hs : s = m.seq
      · subst hs
        rw [hsrc] at hr
        cases hr
        unfold InRun at hc
        simp only at hc
        omega
      · exact hnone s r (hkeep s r hs hr) hc

/-- The owner table of a layer after a plan, move after move. -/
def moveOwners (l : KvLayer ρ) (ms : List KvMove) : KvLayer ρ :=
  ms.foldl (fun l m => moveOwner m l) l

/-- A whole plan in a clear order. What is not moved has to be out of the
way of every destination; what is moved is, by the order. -/
theorem Marks.moveOwners (hclear : (ms.map KvMove.toMove).Pairwise Clear)
    (hnd : (ms.map (·.seq)).Nodup) (hfit : ∀ m ∈ ms, 0 < m.rows → m.toMove.Fits n) :
    ∀ {rng : SeqId → Option (Nat × Nat)} {l : KvLayer ρ}, Marks n rng l.owner →
      (∀ m ∈ ms, rng m.seq = some (m.fromCell, m.rows)) →
      (∀ m ∈ ms, ∀ s r, s ∉ ms.map (·.seq) → rng s = some r →
        Apart m.toCell m.rows r.1 r.2) →
      Marks n (ms.foldl (fun rng m => movedRuns m rng) rng)
        (moveOwners l ms).owner := by
  induction ms with
  | nil => exact fun h _ _ => h
  | cons m rest ih =>
      intro rng l h hsrc hrest
      obtain ⟨hm, hclear⟩ := List.pairwise_cons.1 hclear
      obtain ⟨hnot, hnd⟩ := List.nodup_cons.1 hnd
      have hne : ∀ w ∈ rest, m.seq ≠ w.seq := by
        intro w hw heq
        exact hnot (List.mem_map.2 ⟨w, hw, heq.symm⟩)
      refine ih hclear hnd (fun w hw => hfit w (List.mem_cons_of_mem _ hw))
        (h.moveOwner (hsrc m List.mem_cons_self) (hfit m List.mem_cons_self) ?_) ?_ ?_
      · intro s r hs hr
        by_cases hmem : s ∈ rest.map (·.seq)
        · -- a run that moves later: its rows are read where they are
          obtain ⟨w, hw, rfl⟩ := List.mem_map.1 hmem
          rw [hsrc w (List.mem_cons_of_mem _ hw)] at hr
          cases hr
          exact (hm w.toMove (List.mem_map.2 ⟨w, hw, rfl⟩)).1
        · exact hrest m List.mem_cons_self s r (by simp [hs, hmem]) hr
      · intro w hw
        show movedRuns m rng w.seq = _
        rw [movedRuns, hsrc w (List.mem_cons_of_mem _ hw), Option.map_some,
          if_neg (hne w hw)]
      · intro w hw s r hs hr
        obtain ⟨q, hq, rfl⟩ := Option.map_eq_some_iff.1 hr
        by_cases hms : m.seq = s
        · subst hms
          rw [hsrc m List.mem_cons_self] at hq
          cases hq
          rw [if_pos rfl]
          exact (hm w.toMove (List.mem_map.2 ⟨w, hw, rfl⟩)).2.symm
        · rw [if_neg hms]
          exact hrest w (List.mem_cons_of_mem _ hw) s q (by simp [Ne.symm hms, hs]) hq

-- ========================= apply_moves

variable {c : KvCache ρ} {cap seq : Nat}

/-- What the loop of `apply_moves` leaves, wherever it stops: the plan up
to some move, in the owner tables and in the runs. -/
theorem applyMovesLoop_left
    {r : Except String Unit} (h : c.applyMovesLoop ms = (r, c')) :
    ∃ part, part <+: ms ∧ c'.nCtx = c.nCtx
      ∧ (∀ i : Nat, c'.layers[i]? = (c.layers[i]?).map (moveOwners · part))
      ∧ c'.ownRows = part.foldl (fun rng m => movedRuns m rng) c.ownRows := by
  induction ms generalizing c with
  | nil =>
      cases h
      exact ⟨[], List.nil_prefix, rfl, fun i => by cases c'.layers[i]? <;> rfl, rfl⟩
  | cons m rest ih =>
      have hstep : ∀ {c₁ : KvCache ρ} {r₁ : Except String Unit},
          c.applyMove m = (r₁, c₁) →
          c₁.nCtx = c.nCtx
            ∧ (∀ i : Nat, c₁.layers[i]? = (c.layers[i]?).map (moveOwner m))
            ∧ c₁.ownRows = movedRuns m c.ownRows := by
        intro c₁ r₁ h₁
        obtain ⟨hlayers, hn, -, hseqs⟩ := applyMove_slots h₁
        refine ⟨hn, fun i => by rw [hlayers, getElem?_map_nat], funext fun s => ?_⟩
        rcases hseqs with hseqs | ⟨hseqs, -⟩
        all_goals
          simp only [ownRows, movedRuns, hseqs s]
          cases c.seqs[s]? with
          | none => rfl
          | some a => simp [relocate, SeqSlot.privateWritten]
      simp only [KvCache.applyMovesLoop] at h
      split at h
      next c₁ h₁ =>
        obtain ⟨hn₁, hlayers₁, hrows₁⟩ := hstep h₁
        obtain ⟨part, hpart, hn, hlayers, hrows⟩ := ih h
        refine ⟨m :: part, (List.prefix_cons_inj m).2 hpart, hn.trans hn₁,
          fun i => ?_, ?_⟩
        · rw [hlayers i, hlayers₁ i, Option.map_map]
          rfl
        · rw [hrows, hrows₁]
          rfl
      next e c₁ h₁ =>
        cases h
        obtain ⟨hn₁, hlayers₁, hrows₁⟩ := hstep h₁
        exact ⟨[m], ⟨rest, rfl⟩, hn₁, hlayers₁, hrows₁⟩

/-- Every layer's owner table marks exactly what each sequence wrote in its
own run. -/
def Marked (c : KvCache ρ) : Prop :=
  ∀ (i : Nat) (l : KvLayer ρ), c.layers[i]? = some l → Marks c.nCtx c.ownRows l.owner

/-- Wherever a plan stops, the owner tables mark the runs it leaves. -/
theorem Movable.applyMoves_marked {r : Except String Nat}
    (hc : c.Movable) (hlaid : c.LaidOut none)
    (hsrc : ∀ (s : SeqId) slot, c.seqs[s]? = some slot →
      slot.start + slot.privateWritten ≤ c.nCtx) (hmarked : c.Marked)
    (h : c.applyMoves (c.compactionPlan none) = (r, c')) :
    c'.Marked := by
  have hloop : ∀ {c₁ : KvCache ρ} {r₁ : Except String Unit},
      c.applyMovesLoop (orderMoves (c.compactionPlan none)) = (r₁, c₁) →
          c₁.Marked := by
    intro c₁ r₁ h₁
    obtain ⟨part, hpart, hn, hlayers, hrows⟩ := applyMovesLoop_left h₁
    have hclear := clear_orderMoves (hc.ascends none)
    have hnd := hc.nodup_seq none
    have hmem : ∀ m ∈ part, ∃ slot, c.seqs[m.seq]? = some slot
        ∧ m.fromCell = slot.start ∧ m.rows = slot.privateWritten
        ∧ m.toCell = plannedStart (orderMoves (c.compactionPlan none)) m.seq
          slot := by
      intro m hm
      obtain ⟨slot, hslot, hmeq, hdisp⟩ := (mem_orderedPlan hc).1 (hpart.subset hm)
      refine ⟨slot, hslot, by rw [hmeq]; rfl, by rw [hmeq]; rfl, ?_⟩
      rw [hc.plannedStart_plan hslot, if_pos hdisp, hmeq]
      rfl
    intro i l' hl'
    rw [hlayers i] at hl'
    obtain ⟨l, hl, rfl⟩ := Option.map_eq_some_iff.1 hl'
    rw [hn, hrows]
    refine Marks.moveOwners (hclear.sublist (hpart.sublist.map _))
      (hnd.sublist (hpart.sublist.map _))
      (fun m hm hpos => ?_) (hmarked i l hl) (fun m hm => ?_) fun m hm s q hs hq => ?_
    · obtain ⟨slot, hslot, hfrom, hrows, hto⟩ := hmem m hm
      have hsrc := hsrc m.seq slot hslot
      have hdst := hlaid.1 m.seq slot hslot
      have hfits := hc.fits m.seq slot hslot
      constructor <;> simp only [KvMove.toMove] <;> omega
    · obtain ⟨slot, hslot, hfrom, hrows, -⟩ := hmem m hm
      rw [ownRows, hslot, Option.map_some, hfrom, hrows]
    · by_cases hlater : ∃ w ∈ orderMoves (c.compactionPlan none), w.seq = s
      · -- the plan stopped before this run's own move
        obtain ⟨w, hw, rfl⟩ := hlater
        obtain ⟨slot, hslot, hmeq, -⟩ := (mem_orderedPlan hc).1 hw
        obtain ⟨tail, htail⟩ := hpart
        rw [← htail, List.mem_append] at hw
        rcases hw with hw | hw
        · exact absurd (List.mem_map.2 ⟨w, hw, rfl⟩) hs
        · rw [← htail, List.map_append, List.pairwise_append] at hclear
          have happly := (hclear.2.2 m.toMove (List.mem_map.2 ⟨m, hm, rfl⟩) w.toMove
            (List.mem_map.2 ⟨w, hw, rfl⟩)).1
          rw [ownRows, hslot] at hq
          cases hq
          rw [hmeq] at happly
          exact happly
      · obtain ⟨a, ha, rfl⟩ := Option.map_eq_some_iff.1 hq
        obtain ⟨slot, hslot, -, hrows, hto⟩ := hmem m hm
        have hstay : plannedStart (orderMoves (c.compactionPlan none)) s a
            = a.start := by
          rw [plannedStart_eq hnd]
          exact relocateAll_start_of_not_mem (fun w hw heq => hlater ⟨w, hw, heq⟩) a
        have hne : m.seq ≠ s := fun heq => hlater ⟨m, hpart.subset hm, heq⟩
        have hapart := hlaid.2 m.seq s slot a hne hslot ha
        rw [← hto, hstay] at hapart
        have hfits := hc.fits m.seq slot hslot
        have hfits' := hc.fits s a ha
        intro cell hcell hcell'
        unfold InRun at hcell hcell'
        simp only at hcell'
        omega
  unfold KvCache.applyMoves at h
  split at h
  · cases h
    exact hmarked
  · simp only at h
    split at h
    · cases h
      exact hmarked
    · split at h
      next e c₁ h₁ =>
        cases h
        exact hloop h₁
      next c₁ h₁ =>
        cases h
        have hleft := hloop h₁
        exact hleft

-- ============================= set_cap

/-- A release takes the marks of its own run away. -/
theorem Inv.releaseSeq_marked (hc : c.Inv) (seq : SeqId) (hmarked : c.Marked) :
    (c.releaseSeq seq).2.Marked := by
  cases hslot : c.seqs[seq]? with
  | none =>
      have hsame : (c.releaseSeq seq).2 = c := by
        unfold KvCache.releaseSeq
        rw [hslot]
      rw [hsame]
      exact hmarked
  | some slot =>
  have hrows : ∀ s, (c.releaseSeq seq).2.ownRows s = if seq = s then none
      else c.ownRows s := by
    intro s
    have htable : (c.releaseSeq seq).2.seqs[s]? = if seq = s then none
        else c.seqs[s]? :=
      releaseSeq_table c seq s
    unfold ownRows
    rw [htable]
    split <;> rfl
  have hin := (hc.table.ok seq slot hslot).in_arena
  have hfits := hc.movable.fits seq slot hslot
  have hown : c.ownRows seq = some (slot.start, slot.privateWritten) := by
    rw [ownRows, hslot, Option.map_some]
  intro i l' hl'
  obtain ⟨l, hl, howner⟩ : ∃ l : KvLayer ρ, c.layers[i]? = some l ∧ l'.owner
      = setOwnerIf l.owner slot.start
        (min (slot.start + slot.cap) l.owner.length) (· == seq) free := by
    unfold KvCache.releaseSeq at hl'
    rw [hslot] at hl'
    simp only [refreshSpans_layers, getElem?_map_nat] at hl'
    obtain ⟨l, hl, rfl⟩ := Option.map_eq_some_iff.1 hl'
    exact ⟨l, hl, rfl⟩
  obtain ⟨hlen, hheld, hspare⟩ := hmarked i l hl
  have hcell : ∀ cell : Nat, l'.owner[cell]? = (l.owner[cell]?).map fun o =>
      if slot.start ≤ cell ∧ cell < min (slot.start + slot.cap) l.owner.length
        ∧ (o == seq)
      then free else o := by
    intro cell
    rw [howner, setOwnerIf, List.getElem?_mapIdx]
  rw [releaseSeq_nCtx]
  refine ⟨by rw [howner, length_setOwnerIf, hlen], fun s r hr cell hc => ?_,
    fun cell hlt hnone => ?_⟩
  · rw [hrows s] at hr
    split at hr
    · cases hr
    next hs =>
      rw [hcell, hheld s r hr cell hc, Option.map_some, if_neg]
      rintro ⟨-, -, heq⟩
      exact hs (beq_iff_eq.1 heq).symm
  · by_cases hseq : InRun slot.start slot.privateWritten cell
    · rw [hcell, hheld seq _ hown cell hseq, Option.map_some, if_pos]
      unfold InRun at hseq
      exact ⟨by omega, by omega, beq_self_eq_true seq⟩
    · rw [hcell, hspare cell hlt, Option.map_some]
      · split <;> rfl
      · intro s r hr hc
        by_cases hs : seq = s
        · subst hs
          rw [hown] at hr
          cases hr
          exact hseq hc
        · exact hnone s r (by rw [hrows s, if_neg hs, hr]) hc

/-- A capacity changed in place leaves the written rows where they were. -/
theorem resized_ownRows {slot : SeqSlot} (hslot : c.seqs[seq]? = some slot) :
    (c.resized seq cap slot).ownRows = c.ownRows := by
  funext s
  unfold ownRows
  rw [resized_seqs]
  split
  next hs =>
    rw [← hs, hslot]
    rfl
  next => rfl

/-- What `set_cap` hands to the plan: a table whose runs the plan lays out
apart, with the rows and the marks still where they were. -/
theorem Inv.setCap_planned (hc : c.Inv)
    (h : c.setCap seq cap = .ok (moves, c₁)) (hne : moves ≠ []) :
    moves = c₁.compactionPlan none ∧ c₁.nCtx = c.nCtx ∧ c₁.Movable ∧ c₁.LaidOut none
      ∧ (∀ (s : SeqId) slot, c₁.seqs[s]? = some slot →
        slot.start + slot.privateWritten ≤ c₁.nCtx) := by
  obtain ⟨slot, hslot⟩ : ∃ slot, c.seqs[seq]? = some slot := by
    cases hslot : c.seqs[seq]? with
    | none =>
        rw [setCap, hslot] at h
        cases h
    | some slot => exact ⟨slot, rfl⟩
  rcases setCap_cases hslot h with ⟨-, rfl, -⟩ | ⟨-, rfl, hmoves⟩
    | ⟨-, hpos, hsh, hgr, rfl, hmoves⟩
  · exact absurd rfl hne
  · have hrel := hc.releaseSeq seq
    refine ⟨hmoves, releaseSeq_nCtx .., hrel.movable, hrel.laidOut none,
      fun s a ha => ?_⟩
    have hin := (hrel.table.ok s a ha).in_arena
    have hfits := hrel.movable.fits s a ha
    omega
  · have hfits := hc.movable.fits seq slot hslot
    have hm := hc.movable_resized hslot hpos (show slot.privateWritten ≤ cap by omega)
    exact ⟨hmoves, putSlot_nCtx .., hm, hm.laidOut (hc.resized_fits hslot hgr),
      hc.resized_rows hslot⟩

theorem Inv.setCap_marked (hc : c.Inv)
    (h : c.setCap seq cap = .ok (moves, c₁)) (hmarked : c.Marked) : c₁.Marked := by
  cases hslot : c.seqs[seq]? with
  | none =>
      rw [setCap, hslot] at h
      cases h
  | some slot =>
      rcases setCap_cases hslot h with ⟨-, -, rfl⟩ | ⟨-, rfl, -⟩
        | ⟨-, -, -, -, rfl, -⟩
      · exact hmarked
      · exact hc.releaseSeq_marked seq hmarked
      · unfold Marked
        rw [resized_ownRows hslot, show (c.resized seq cap slot).layers
          = c.layers from putSlot_layers ..,
          show (c.resized seq cap slot).nCtx = c.nCtx from putSlot_nCtx ..]
        exact hmarked

/-- Where the rows of each sequence are after a plan that was applied. -/
theorem applyMoves_rows (h : c.applyMoves ms = (.ok n, c')) (s : SeqId) :
    c'.ownRows s = (c.seqs[s]?).map fun a =>
      ((relocateAll s a (orderMoves ms)).start, a.privateWritten) := by
  have hrelocated : ∀ {c' : KvCache ρ},
      (∀ s : SeqId,
        c'.seqs[s]? = (c.seqs[s]?).map (relocateAll s · (orderMoves ms))) →
      c'.ownRows s = (c.seqs[s]?).map fun a =>
        ((relocateAll s a (orderMoves ms)).start, a.privateWritten) := by
    intro c' hseqs
    rw [ownRows, hseqs s, Option.map_map]
    refine congrArg (Option.map · _) (funext fun a => ?_)
    rw [Function.comp_apply, relocateAll_eq]
    simp only [SeqSlot.privateWritten, followAll_rows]
  unfold KvCache.applyMoves at h
  split at h
  next hnil =>
    cases h
    rw [List.isEmpty_iff.1 hnil]
    rfl
  · simp only at h
    split at h
    · cases h
    · split at h
      · cases h
      next c₁ h₁ =>
        cases h
        exact hrelocated (applyMovesLoop_ok h₁).1

/-- Whatever capacity `set_cap` puts in, the plan it returns, carried out
move after move in the order of `order_moves`, is the simultaneous move.
Each destination holds what its source held before the plan, each run that
is not moved keeps its rows, and the owner tables mark exactly the written
rows of every sequence where `apply_moves` put them. -/
theorem relocation_is_simultaneous
    (hc : c.Inv) (hset : c.setCap seq cap = .ok (moves, c₁)) :
    (∀ m ∈ moves, c₁.ownRows m.seq = some (m.fromCell, m.rows))
      ∧ (∀ region : List ρ, region.length = c.nCtx →
        (∀ m ∈ moves, ∀ i < m.rows,
          (runMoves region ((orderMoves moves).map KvMove.toMove))[m.toCell + i]?
            = region[m.fromCell + i]?)
        ∧ ∀ s r, (∀ m ∈ moves, m.seq ≠ s) → c₁.ownRows s = some r →
          ∀ cell, InRun r.1 r.2 cell →
          (runMoves region ((orderMoves moves).map KvMove.toMove))[cell]?
            = region[cell]?)
      ∧ (c.Marked → ∀ r c', c₁.applyMoves moves = (r, c') → c'.Marked)
      ∧ ∀ n c', c₁.applyMoves moves = (.ok n, c') →
        (∀ m ∈ moves, c'.ownRows m.seq = some (m.toCell, m.rows))
          ∧ ∀ s, (∀ m ∈ moves, m.seq ≠ s) → c'.ownRows s = c₁.ownRows s := by
  by_cases hnil : moves = []
  · subst hnil
    refine ⟨fun m hm => (nomatch hm), fun _ _ =>
      ⟨fun m hm => (nomatch hm), fun _ _ _ _ _ _ => rfl⟩,
      fun hmarked r c' h => ?_, fun n c' h => ?_⟩
    · cases h
      exact hc.setCap_marked hset hmarked
    · cases h
      exact ⟨fun m hm => (nomatch hm), fun _ _ => rfl⟩
  obtain ⟨rfl, hn, hm, hlaid, hsrc⟩ := hc.setCap_planned hset hnil
  have hnd := hm.nodup_seq none
  have hmem : ∀ m ∈ c₁.compactionPlan none, m ∈ orderMoves (c₁.compactionPlan none)
      ∧ ∃ slot, c₁.seqs[m.seq]? = some slot ∧ m.fromCell = slot.start
        ∧ m.rows = slot.privateWritten := by
    intro m hmem
    obtain ⟨slot, hslot, hmeq, -⟩ := (mem_compactionPlan hm).1 hmem
    exact ⟨(List.perm_insertionSort moveLe _).mem_iff.2 hmem, slot, hslot,
      by rw [hmeq]; rfl,
      by rw [hmeq]; rfl⟩
  have hstay : ∀ s, (∀ m ∈ c₁.compactionPlan none, m.seq ≠ s) →
      ∀ m ∈ orderMoves (c₁.compactionPlan none), m.seq ≠ s :=
    fun s hs m hm => hs m ((List.perm_insertionSort moveLe _).mem_iff.1 hm)
  refine ⟨fun m hmove => ?_, fun region hregion => ?_,
    fun hmarked r c' h => ?_, fun n c' h => ?_⟩
  · obtain ⟨-, slot, hslot, hfrom, hrows⟩ := hmem m hmove
    rw [ownRows, hslot, Option.map_some, hfrom, hrows]
  · have hfit : ∀ m ∈ orderMoves (c₁.compactionPlan none), 0 < m.rows →
        m.toMove.Fits region.length := by
      intro m hmove _
      obtain ⟨slot, hslot, hmeq, hdisp⟩ := (mem_orderedPlan hm).1 hmove
      have hfrom := hsrc m.seq slot hslot
      have hto := hlaid.1 m.seq slot hslot
      have hfits := hm.fits m.seq slot hslot
      rw [hm.plannedStart_plan hslot, if_pos hdisp] at hto
      rw [hregion, ← hn, hmeq]
      constructor <;> simp only [moveOf, KvMove.toMove] <;> omega
    refine ⟨fun m hmove i hi => ?_, fun s r hs hr cell hcell => ?_⟩
    · obtain ⟨hordered, slot, hslot, hfrom, hrows⟩ := hmem m hmove
      have hrow := hm.private_row hlaid.2 hfit hslot (hrows ▸ hi)
      rw [plannedStart_eq hnd, relocateAll_start_of_mem hnd hordered, ← hfrom] at hrow
      exact hrow
    · obtain ⟨slot, hslot, rfl⟩ := Option.map_eq_some_iff.1 hr
      obtain ⟨i, rfl⟩ := Nat.exists_eq_add_of_le hcell.1
      have hi : i < slot.privateWritten := by
        unfold InRun at hcell
        simp only at hcell
        omega
      have hrow := hm.private_row hlaid.2 hfit hslot hi
      rw [plannedStart_eq hnd, relocateAll_start_of_not_mem (hstay s hs)] at hrow
      exact hrow
  · exact hm.applyMoves_marked hlaid hsrc (hc.setCap_marked hset hmarked) h
  · have hrows := applyMoves_rows h
    refine ⟨fun m hmove => ?_, fun s hs => ?_⟩
    · obtain ⟨hordered, slot, hslot, -, hrow⟩ := hmem m hmove
      rw [hrows, hslot, Option.map_some, relocateAll_start_of_mem hnd hordered, hrow]
    · rw [hrows, ownRows]
      refine congrArg (Option.map · _) (funext fun a => ?_)
      rw [relocateAll_start_of_not_mem (hstay s hs)]

set_option maxRecDepth 8000 in
/-- The first of two runs grows by one cell: the second moves up over its
own rows. -/
theorem growth_is_simultaneous : ∃ moves c₁, twoRuns.setCap 1 3 = .ok (moves, c₁)
    ∧ moves = [⟨2, 2, 3, 2⟩]
    ∧ (runMoves [0, 1, 2, 3, 4, 5, 6, 7]
      ((orderMoves moves).map KvMove.toMove))[3 + 1]? = some 3 := by
  obtain ⟨out, hset⟩ : ∃ out, (twoRuns.setCap 1 3).toOption = some out :=
    Option.isSome_iff_exists.1 (by decide)
  have hset := Lib.toOption_eq_some hset
  have hmoves : out.1 = [⟨2, 2, 3, 2⟩] := by
    have hplan : (twoRuns.setCap 1 3).toOption.map (·.1)
      = some [⟨2, 2, 3, 2⟩] := by decide
    rw [hset] at hplan
    exact Option.some.inj hplan
  refine ⟨out.1, out.2, hset, hmoves, ?_⟩
  have hrows :=
    (@relocation_is_simultaneous Nat out.1 out.2 twoRuns 3 1
      (reachable_after _).inv hset).2.1
    [0, 1, 2, 3, 4, 5, 6, 7] (by decide)
  exact hrows.1 ⟨2, 2, 3, 2⟩ (by rw [hmoves]; exact List.mem_cons_self) 1 (by decide)

end KvCache
end Minfer.Graph
