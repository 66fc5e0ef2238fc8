/-
Compaction and resizing, end to end: rows copied, bookkeeping moved, and
what every live sequence reads afterwards.

`Relocated` collects what a successful compaction did to the whole state;
everything here is derived from it. Private rows always survive: the plan
tracks them. A shared prefix survives when the cells the plan writes over
are held by a live run, because then the move that writes there comes
after the prefix was carried away. A prefix whose donor was released is
held by nobody, and the plan, which is read off the run table alone, packs
runs on top of it: `CompactionSafe` is exactly the absence of that.
-/
import Minfer.Graph.Proofs.Plan

namespace Minfer.Graph

open Lib (InRun Apart runMoves Move Clear)

variable {ρ : Type}

namespace KvCache

-- ====================== what was asked

/-- Every readable row is read again after the operation: each position of
each live sequence resolves, and holds what it held. -/
def KeepsRows (c c' : KvCache ρ) : Prop :=
  ∀ (s : SeqId) slot, c.seqs[s]? = some slot →
    c'.writtenRows s = c.writtenRows s ∧ ∀ p < c.writtenRows s,
      ∃ cell cell', c.cellOf s p = some cell ∧ c'.cellOf s p = some cell'
        ∧ ∀ (i : Nat) (l : KvLayer ρ), c.layers[i]? = some l →
          ∃ l' : KvLayer ρ, c'.layers[i]? = some l'
            ∧ l'.k[cell']? = l.k[cell]? ∧ l'.v[cell']? = l.v[cell]?

/-- The cell lies in rows another live sequence wrote. -/
def HeldByOther (c : KvCache ρ) (s : SeqId) (cell : Nat) : Prop :=
  ∃ t ∈ c.seqs.toList, t.1 ≠ s ∧ InRun t.2.start t.2.privateWritten cell

instance (c : KvCache ρ) (s : SeqId) (cell : Nat) : Decidable
    (c.HeldByOther s cell) :=
  inferInstanceAs (Decidable (∃ _ ∈ _, _))

/-- Packing moves no run's rows onto a shared prefix cell that no other
live sequence holds. -/
def CompactionSafe (need : Option Nat) (c : KvCache ρ) : Prop :=
  ∀ e ∈ c.seqs.toList, ∀ r ∈ c.seqs.toList, c.Displaced need r.2 →
    ∀ i < e.2.shared.rows,
      InRun (c.packedStart r.2) r.2.privateWritten (e.2.shared.cell + i) →
      c.HeldByOther e.1 (e.2.shared.cell + i)

instance (need : Option Nat) (c : KvCache ρ) : Decidable (c.CompactionSafe need) :=
  inferInstanceAs (Decidable (∀ _ ∈ _, _))

-- ================== what a success did

/-- What a successful relocation by `ms` did to the state. -/
structure Relocated (ms : List KvMove) (c c' : KvCache ρ) : Prop where
  seqs : ∀ s : SeqId, c'.seqs[s]? = (c.seqs[s]?).map (relocateAll s · ms)
  carries : ∀ (s : SeqId) slot, c.seqs[s]? = some slot → CarriesAll s slot.shared ms
  rows : ∀ (i : Nat) (l : KvLayer ρ), c.layers[i]? = some l →
    ∃ l' : KvLayer ρ, c'.layers[i]? = some l'
      ∧ l'.k = runMoves l.k (ms.map KvMove.toMove)
      ∧ l'.v = runMoves l.v (ms.map KvMove.toMove)
      ∧ l'.owner.length = l.owner.length
  layers : ∀ i : Nat, c.layers[i]? = none → c'.layers[i]? = none
  fits : ∀ (i : Nat) (l : KvLayer ρ), c.layers[i]? = some l → ∀ m ∈ ms, 0 < m.rows →
    m.toMove.Fits l.k.length ∧ m.toMove.Fits l.v.length
  inside : ∀ (s : SeqId) slot, c.seqs[s]? = some slot →
    plannedStart ms s slot + slot.cap ≤ c.nCtx
  apart : ∀ (s t : SeqId) a b, s ≠ t → c.seqs[s]? = some a → c.seqs[t]? = some b →
    plannedStart ms s a + a.cap ≤ plannedStart ms t b
      ∨ plannedStart ms t b + b.cap ≤ plannedStart ms s a
  nCtx : c'.nCtx = c.nCtx
  spans : c'.SpansOk

variable {c : KvCache ρ}

/-- Rows copied in execution order and bookkeeping applied without a
refusal. -/
theorem relocated_of_ok {env : KvEnv} {wrap : KvMove → String → String}
    {ms : List KvMove} {c₁ c₂ : KvCache ρ} {n : Nat} (hsp : c.SpansOk)
    (hne : ms ≠ []) (hord : orderMoves ms = ms)
    (hcopy : copyPlan env wrap ms c = (.ok (), c₁))
    (happly : c₁.applyMoves ms = (.ok n, c₂)) : Relocated ms c c₂ := by
  obtain ⟨hseqs₁, hspans₁, hn₁⟩ := copyPlan_frame hcopy
  obtain ⟨hrows, hfits⟩ := copyPlan_ok hcopy
  unfold applyMoves at happly
  rw [if_neg (by simpa using hne)] at happly
  simp only [hord] at happly
  split at happly
  · cases happly
  next hcheck =>
    obtain ⟨hinside, hapart⟩ := checkPlan_ok hcheck
    split at happly
    · cases happly
    next c₃ hloop =>
      obtain ⟨hseqs, hcarry, hlay, hnone, hn, hsp'⟩ := applyMovesLoop_ok hloop
      cases happly
      rw [hseqs₁] at hseqs hcarry hinside hapart
      rw [hn₁] at hinside hn
      refine ⟨hseqs, hcarry, fun i l hl => ?_, fun i hi => ?_, hfits, hinside, hapart,
        hn, SpansOk.of_eq (c := c₃) rfl rfl (hsp' (hsp.of_eq hseqs₁ hspans₁))⟩
      · cases hl' : c₃.layers[i]? with
        | none =>
            have := hnone i hl'
            rw [hrows i, hl] at this
            cases this
        | some l' =>
            obtain ⟨l₁, hl₁, hk, hv, ho⟩ := hlay i l' hl'
            rw [hrows i, hl] at hl₁
            cases hl₁
            exact ⟨l', rfl, hk, hv, ho⟩
      · cases hl' : c₃.layers[i]? with
        | none => rfl
        | some l' =>
            obtain ⟨l₁, hl₁, -⟩ := hlay i l' hl'
            rw [hrows i, hi] at hl₁
            cases hl₁

/-- With one move per sequence, the validated start is the applied one. -/
theorem plannedStart_eq {ms : List KvMove} (hnd : (ms.map (·.seq)).Nodup)
    (s : SeqId) (slot : SeqSlot) :
    plannedStart ms s slot = (relocateAll s slot ms).start := by
  unfold plannedStart
  split
  next m hm =>
    have hs : m.seq = s := by simpa using List.find?_some hm
    subst hs
    exact (relocateAll_start_of_mem hnd (List.mem_of_find?_eq_some hm) slot).symm
  next hnone =>
    refine (relocateAll_start_of_not_mem (fun m hm heq => ?_) slot).symm
    have := List.find?_eq_none.mp hnone m hm
    simp [heq] at this

-- ==================== the plan's moves

/-- The moves in execution order are the plan's. -/
theorem mem_orderedPlan (hc : c.Movable) {need : Option Nat} {m : KvMove} :
    m ∈ orderMoves (c.compactionPlan need) ↔ ∃ slot, c.seqs[m.seq]? = some slot
      ∧ m = moveOf (m.seq, slot) (c.packedStart slot) ∧ c.Displaced need slot := by
  rw [← mem_compactionPlan hc]
  exact (List.perm_insertionSort moveLe _).mem_iff

theorem Movable.ascends (hc : c.Movable) (need : Option Nat) :
    (c.compactionPlan need).Pairwise Ascends :=
  ascends_packRuns hc.inOrder fun r hr => hc.fits r.1 r.2 (hc.mem_sortedRuns.mp hr)

/-- The plan names every sequence at most once. -/
theorem Movable.nodup_seq (hc : c.Movable) (need : Option Nat) :
    ((orderMoves (c.compactionPlan need)).map (·.seq)).Nodup := by
  have hperm := (List.perm_insertionSort moveLe (c.compactionPlan need)).map (·.seq)
  refine hperm.nodup_iff.mpr (List.pairwise_map.mpr ?_)
  refine (hc.ascends need).imp_of_mem fun {a b} ha hb hab heq => ?_
  obtain ⟨sa, hsa, hma, -⟩ := (mem_compactionPlan hc).mp ha
  obtain ⟨sb, hsb, hmb, -⟩ := (mem_compactionPlan hc).mp hb
  rw [heq, hsb] at hsa
  cases hsa
  have hlt := hab.1
  rw [hma, hmb] at hlt
  exact Nat.lt_irrefl _ hlt

-- ======================== private rows

section Relocation

variable {c c' : KvCache ρ} {need : Option Nat}
variable {s : SeqId} {ms : List KvMove}
variable {i : Nat} {sh : SharedPrefix}

/-- A row in a sequence's own run ends up where the run does. -/
theorem Movable.private_row (hc : c.Movable)
    (hapart : ∀ (s t : SeqId) a b, s ≠ t → c.seqs[s]? = some a → c.seqs[t]? = some b →
      plannedStart (orderMoves (c.compactionPlan need)) s a + a.cap
          ≤ plannedStart (orderMoves (c.compactionPlan need)) t b
        ∨ plannedStart (orderMoves (c.compactionPlan need)) t b + b.cap
          ≤ plannedStart (orderMoves (c.compactionPlan need)) s a) {rows : List ρ}
    (hfit : ∀ m ∈ orderMoves (c.compactionPlan need), 0 < m.rows →
      m.toMove.Fits rows.length) {slot : SeqSlot}
    (hslot : c.seqs[s]? = some slot) (hi : i < slot.privateWritten) :
    (runMoves rows ((orderMoves (c.compactionPlan need)).map KvMove.toMove))[
        plannedStart (orderMoves (c.compactionPlan need)) s slot + i]?
      = rows[slot.start + i]? := by
  have hclear := clear_orderMoves (hc.ascends need)
  have hnd := hc.nodup_seq need
  rw [plannedStart_eq hnd]
  by_cases hmoved : ∃ m ∈ orderMoves (c.compactionPlan need), m.seq = s
  · -- the run moved: its rows are one destination of the plan
    obtain ⟨m, hm, rfl⟩ := hmoved
    obtain ⟨slot', hslot', hmeq, -⟩ := (mem_orderedPlan hc).mp hm
    rw [hslot] at hslot'
    cases hslot'
    have hfrom : m.fromCell = slot.start := by rw [hmeq]; rfl
    have hrows : m.rows = slot.privateWritten := by rw [hmeq]; rfl
    rw [relocateAll_start_of_mem hnd hm, ← hfrom]
    refine Lib.getElem?_runMoves_dst (v := m.toMove) hclear (fun v hv hpos => ?_)
      (List.mem_map.mpr ⟨m, hm, rfl⟩) (by simp only [KvMove.toMove]; omega)
    obtain ⟨w, hw, rfl⟩ := List.mem_map.mp hv
    exact hfit w hw hpos
  · -- the run stayed: every destination lies in another run
    have hstay : ∀ m ∈ orderMoves (c.compactionPlan need), m.seq ≠ s :=
      fun m hm heq => hmoved ⟨m, hm, heq⟩
    rw [relocateAll_start_of_not_mem hstay]
    refine Lib.getElem?_runMoves_out fun v hv hin => ?_
    obtain ⟨m, hm, rfl⟩ := List.mem_map.mp hv
    obtain ⟨slot', hslot', hmeq, -⟩ := (mem_orderedPlan hc).mp hm
    have hto : plannedStart (orderMoves (c.compactionPlan need)) m.seq slot'
        = m.toCell := by
      rw [plannedStart_eq hnd, relocateAll_start_of_mem hnd hm]
    have hkeep : plannedStart (orderMoves (c.compactionPlan need)) s slot
        = slot.start := by
      rw [plannedStart_eq hnd, relocateAll_start_of_not_mem hstay]
    have hrows : m.rows = slot'.privateWritten := by rw [hmeq]; rfl
    have hle := hc.fits m.seq slot' hslot'
    have hle' := hc.fits s slot hslot
    have hdis := hapart m.seq s slot' slot (hstay m hm) hslot' hslot
    rw [hto, hkeep] at hdis
    simp only [InRun, KvMove.toMove] at hin
    omega

theorem Relocated.private_row (hc : c.Movable)
    (h : Relocated (orderMoves (c.compactionPlan need)) c c') {rows : List ρ}
    (hfit : ∀ m ∈ orderMoves (c.compactionPlan need), 0 < m.rows →
      m.toMove.Fits rows.length) {slot : SeqSlot}
    (hslot : c.seqs[s]? = some slot) (hi : i < slot.privateWritten) :
    (runMoves rows ((orderMoves (c.compactionPlan need)).map KvMove.toMove))[
        plannedStart (orderMoves (c.compactionPlan need)) s slot + i]?
      = rows[slot.start + i]? :=
  hc.private_row h.apart hfit hslot hi

-- ========================= shared rows

/-- When every prefix cell the plan writes over is read by a move of
another sequence, the plan spares the prefix. -/
theorem sparedAll_of_read (hclear : (ms.map KvMove.toMove).Pairwise Clear)
    (hcarry : CarriesAll s sh ms)
    (hread : ∀ m ∈ ms, ∀ x, InRun m.toCell m.rows x → InRun sh.cell sh.rows x →
      ∃ w ∈ ms, w.seq ≠ s ∧ InRun w.fromCell w.rows x) :
    SparedAll s sh ms := by
  induction ms generalizing sh with
  | nil => trivial
  | cons m ms ih =>
      obtain ⟨hm, hms⟩ := List.pairwise_cons.mp hclear
      obtain ⟨hcarry₁, hcarry⟩ := hcarry
      have hm' : ∀ w ∈ ms, Clear m.toMove w.toMove :=
        fun w hw => hm _ (List.mem_map.mpr ⟨w, hw, rfl⟩)
      have htouch : ∀ x, InRun m.fromCell m.rows x → InRun sh.cell sh.rows x →
          Touches m sh := by
        intro x h₁ h₂
        unfold InRun at h₁ h₂
        exact ⟨by omega, by omega, by omega, by omega⟩
      refine ⟨fun hno x hdst hsh => ?_, ih hms hcarry fun w hw x hdst hsh => ?_⟩
      · obtain ⟨w, hw, hne, hsrc⟩ := hread m (List.mem_cons_self ..) x hdst hsh
        rcases List.mem_cons.mp hw with rfl | hw
        · exact hno ⟨Ne.symm hne, htouch x hsrc hsh⟩
        · exact (hm' w hw).1 x hdst hsrc
      · by_cases hf : s ≠ m.seq ∧ Touches m sh
        · -- carried into `m`'s destination, where nothing later writes
          obtain ⟨hlo, hhi⟩ := hcarry₁ hf.1 hf.2
          rw [follow, if_pos hf] at hsh
          refine absurd hdst ((hm' w hw).2 x ?_)
          simp only [InRun, KvMove.toMove] at hsh ⊢
          omega
        · rw [follow, if_neg hf] at hsh
          obtain ⟨u, hu, hne, hsrc⟩ := hread w (List.mem_cons_of_mem _ hw) x hdst hsh
          rcases List.mem_cons.mp hu with rfl | hu
          · exact absurd ⟨Ne.symm hne, htouch x hsrc hsh⟩ hf
          · exact ⟨u, hu, hne, hsrc⟩

/-- A safe plan spares every prefix. -/
theorem Relocated.sparedAll (hc : c.Movable)
    (h : Relocated (orderMoves (c.compactionPlan need)) c c')
    (hsafe : c.CompactionSafe need) {slot : SeqSlot}
    (hslot : c.seqs[s]? = some slot) :
    SparedAll s slot.shared (orderMoves (c.compactionPlan need)) := by
  have hnd := hc.nodup_seq need
  refine sparedAll_of_read (clear_orderMoves (hc.ascends need))
    (h.carries s slot hslot)
    fun m hm x hdst hsh => ?_
  obtain ⟨run, hrun, hmeq, hdisp⟩ := (mem_orderedPlan hc).mp hm
  have hto : m.toCell = c.packedStart run := by rw [hmeq]; rfl
  have hrows : m.rows = run.privateWritten := by rw [hmeq]; rfl
  have hx : slot.shared.cell + (x - slot.shared.cell) = x := by
    unfold InRun at hsh
    omega
  obtain ⟨⟨t, tslot⟩, ht, hts, hheld⟩ := hsafe (s, slot) (mem_seqs_toList.mpr hslot)
    (m.seq, run) (mem_seqs_toList.mpr hrun) hdisp (x - slot.shared.cell)
    (by unfold InRun at hsh; simp only; omega)
    (by simp only [hx, ← hto, ← hrows]; exact hdst)
  simp only [hx] at hheld hts
  have htslot := mem_seqs_toList.mp ht
  by_cases hmoved : ∃ w ∈ orderMoves (c.compactionPlan need), w.seq = t
  · obtain ⟨w, hw, rfl⟩ := hmoved
    obtain ⟨wslot, hwslot, hweq, -⟩ := (mem_orderedPlan hc).mp hw
    rw [htslot] at hwslot
    cases hwslot
    refine ⟨w, hw, hts, ?_⟩
    rw [hweq]
    exact hheld
  · -- the holder does not move, so nothing lands in its run
    exfalso
    have hstay : ∀ w ∈ orderMoves (c.compactionPlan need), w.seq ≠ t :=
      fun w hw heq => hmoved ⟨w, hw, heq⟩
    have hdis := h.apart m.seq t run tslot (hstay m hm) hrun htslot
    rw [plannedStart_eq hnd, plannedStart_eq hnd, relocateAll_start_of_mem hnd hm,
      relocateAll_start_of_not_mem hstay] at hdis
    have hle := hc.fits m.seq run hrun
    have hle' := hc.fits t tslot htslot
    unfold InRun at hdst hheld
    omega

/-- The slot a relocation leaves behind. -/
theorem Relocated.slot (hnd : (ms.map (·.seq)).Nodup) (h : Relocated ms c c')
    {slot : SeqSlot} (hslot : c.seqs[s]? = some slot) :
    c'.seqs[s]? = some { slot with start := plannedStart ms s slot
                                   shared := followAll s slot.shared ms } := by
  rw [h.seqs s, hslot, Option.map_some, relocateAll_eq, plannedStart_eq hnd]

/-- Where a written position resolves before the relocation. -/
theorem Movable.cellOf (hc : c.Movable) (hsp : c.SpansOk) {slot : SeqSlot}
    (hslot : c.seqs[s]? = some slot) {p : Nat} (hp : p < slot.written) :
    c.cellOf s p = some (if p < slot.shared.rows then slot.shared.cell + p
      else slot.start + (p - slot.shared.rows)) := by
  rw [cellOf_eq hsp, hslot]
  exact SeqSlot.cellAt_written hp (hc.fits s slot hslot)

/-- Where a written position resolves after the relocation. -/
theorem Relocated.cellOf (hc : c.Movable)
    (h : Relocated (orderMoves (c.compactionPlan need)) c c') {slot : SeqSlot}
    (hslot : c.seqs[s]? = some slot) {p : Nat} (hp : p < slot.written) :
    c'.cellOf s p = some (if p < slot.shared.rows then
        (followAll s slot.shared (orderMoves (c.compactionPlan need))).cell + p
      else plannedStart (orderMoves (c.compactionPlan need)) s slot
        + (p - slot.shared.rows)) := by
  rw [cellOf_eq h.spans, h.slot (hc.nodup_seq need) hslot, Option.bind_some]
  have hfit := hc.fits s slot hslot
  unfold SeqSlot.privateWritten at hfit
  rw [SeqSlot.cellAt_written]
  · simp only [followAll_rows]
  · exact hp
  · simpa only [SeqSlot.privateWritten, followAll_rows] using hfit

/-- A safe relocation keeps every readable row. -/
theorem Relocated.keepsRows (hc : c.Movable) (hsp : c.SpansOk)
    (h : Relocated (orderMoves (c.compactionPlan need)) c c')
    (hsafe : c.CompactionSafe need) : KeepsRows c c' := by
  intro s slot hslot
  have hslot' := h.slot (hc.nodup_seq need) hslot
  refine ⟨by rw [writtenRows_eq hslot, writtenRows_eq hslot'], fun p hp => ?_⟩
  rw [writtenRows_eq hslot] at hp
  refine ⟨_, _, hc.cellOf hsp hslot hp, h.cellOf hc hslot hp, fun i l hl => ?_⟩
  obtain ⟨l', hl', hk, hv, -⟩ := h.rows i l hl
  have hfitk := fun m hm hpos => (h.fits i l hl m hm hpos).1
  have hfitv := fun m hm hpos => (h.fits i l hl m hm hpos).2
  refine ⟨l', hl', ?_⟩
  rw [hk, hv]
  split
  next hshared =>
    have hcarry := h.carries s slot hslot
    have hspare := h.sparedAll hc hsafe hslot
    exact ⟨prefix_tracked hcarry hspare hfitk hshared,
      prefix_tracked hcarry hspare hfitv hshared⟩
  next hprivate =>
    have hi : p - slot.shared.rows < slot.privateWritten := by
      unfold SeqSlot.privateWritten
      omega
    exact ⟨h.private_row hc hfitk hslot hi, h.private_row hc hfitv hslot hi⟩

/-- A prefix with a cell no other sequence's move reads is carried by
nobody. -/
theorem followAll_eq_self
    {x : Nat} (hx : InRun sh.cell sh.rows x) (hcarry : CarriesAll s sh ms)
    (hfree : ∀ m ∈ ms, m.seq ≠ s → ¬ InRun m.fromCell m.rows x) :
    followAll s sh ms = sh := by
  induction ms with
  | nil => rfl
  | cons m ms ih =>
      obtain ⟨hcarry₁, hcarry⟩ := hcarry
      have hstay : follow s sh m = sh := by
        rw [follow, if_neg]
        rintro ⟨hne, ht⟩
        obtain ⟨hlo, hhi⟩ := hcarry₁ hne ht
        refine hfree m (List.mem_cons_self ..) (Ne.symm hne) ?_
        unfold InRun at hx ⊢
        omega
      rw [hstay] at hcarry
      have hrest := ih hcarry fun w hw => hfree w (List.mem_cons_of_mem _ hw)
      unfold followAll at hrest ⊢
      rw [List.foldl_cons, hstay, hrest]

/-- Where the rows of a layer are all distinct, keeping them needs a safe
plan: an unheld prefix cell that is written over now reads another row. -/
theorem Relocated.safe_of_keepsRows (hc : c.Movable) (hsp : c.SpansOk)
    (hshared : ∀ (s : SeqId) slot, c.seqs[s]? = some slot →
      slot.shared.rows ≤ slot.written)
    (h : Relocated (orderMoves (c.compactionPlan need)) c c') {l : KvLayer ρ}
    (hl : c.layers[i]? = some l) (hdistinct : l.k.Nodup)
    (hkeep : KeepsRows c c') :
    c.CompactionSafe need := by
  rintro ⟨s, slot⟩ hs ⟨r, run⟩ hr hdisp j hj hdst
  by_contra hheld
  simp only at hj hdst hheld
  rw [mem_seqs_toList] at hs hr
  -- the move that lands on the cell, and the row it brings
  have hm : moveOf (r, run) (c.packedStart run)
      ∈ orderMoves (c.compactionPlan need) :=
    (mem_orderedPlan hc).mpr ⟨run, hr, rfl, hdisp⟩
  obtain ⟨hfit, -⟩ :=
    h.fits i l hl _ hm (by unfold InRun at hdst; simp only [moveOf]; omega)
  obtain ⟨l', hl', hk, -⟩ := h.rows i l hl
  have hnew : l'.k[slot.shared.cell + j]?
      = l.k[run.start + (slot.shared.cell + j - c.packedStart run)]? := by
    have hrun := h.private_row hc (fun m hm hpos => (h.fits i l hl m hm hpos).1) hr
      (i := slot.shared.cell + j - c.packedStart run) (by unfold InRun at hdst; omega)
    rw [plannedStart_eq (hc.nodup_seq need)] at hrun
    have hto : (relocateAll r run (orderMoves (c.compactionPlan need))).start
        = c.packedStart run := relocateAll_start_of_mem (hc.nodup_seq need) hm run
    rw [hto, ← hk] at hrun
    rw [← hrun]
    congr 1
    unfold InRun at hdst
    omega
  -- the prefix itself went nowhere
  have hstay : followAll s slot.shared (orderMoves (c.compactionPlan need))
      = slot.shared := by
    refine followAll_eq_self (x := slot.shared.cell + j) ⟨by omega, by omega⟩
      (h.carries s slot hs) fun m hm hne hsrc => hheld ?_
    obtain ⟨mslot, hmslot, hmeq, -⟩ := (mem_orderedPlan hc).mp hm
    rw [hmeq] at hsrc
    exact ⟨(m.seq, mslot), mem_seqs_toList.mpr hmslot, hne, hsrc⟩
  have hp : j < slot.written := Nat.lt_of_lt_of_le hj (hshared s slot hs)
  obtain ⟨cell, cell', hcell, hcell', hrows⟩ :=
    (hkeep s slot hs).2 j (by rw [writtenRows_eq hs]; exact hp)
  rw [hc.cellOf hsp hs hp, if_pos hj] at hcell
  rw [h.cellOf hc hs hp, if_pos hj, hstay] at hcell'
  cases hcell
  cases hcell'
  obtain ⟨l'', hl'', hkrow, -⟩ := hrows i l hl
  rw [hl'] at hl''
  cases hl''
  rw [hnew] at hkrow
  simp only [KvMove.toMove, moveOf] at hfit
  have hlt : run.start + (slot.shared.cell + j - c.packedStart run) < l.k.length := by
    have := hfit.1
    simp only at this
    unfold InRun at hdst
    omega
  have hcells := (List.getElem?_inj hlt hdistinct).mp hkrow
  have hne := hdisp.1
  simp only at hne
  unfold InRun at hdst
  omega

-- ======================= the invariant

/-- Carried prefixes stay inside the arena. -/
theorem followAll_le {n : Nat} (hin : sh.rows = 0 ∨ sh.cell + sh.rows ≤ n)
    (hcarry : CarriesAll s sh ms) (hms : ∀ m ∈ ms, m.toCell + m.rows ≤ n) :
    (followAll s sh ms).rows = 0
      ∨ (followAll s sh ms).cell + (followAll s sh ms).rows ≤ n := by
  induction ms generalizing sh with
  | nil => exact hin
  | cons m ms ih =>
      refine ih ?_ hcarry.2 fun w hw => hms w (List.mem_cons_of_mem _ hw)
      have hm := hms m (List.mem_cons_self ..)
      unfold follow
      split
      next hf =>
        obtain ⟨hlo, hhi⟩ := hcarry.1 hf.1 hf.2
        simp only
        omega
      next => exact hin

/-- A relocation re-establishes the arena invariant, from a table that may
have lost it to a resize. -/
theorem Relocated.inv (hc : c.Movable)
    (hshared : ∀ (s : SeqId) slot, c.seqs[s]? = some slot →
      slot.shared.rows ≤ slot.written ∧ (slot.shared.rows = 0
        ∨ slot.shared.cell + slot.shared.rows ≤ c.nCtx))
    (hlayers : ∀ (i : Nat) (l : KvLayer ρ), c.layers[i]? = some l → LayerOk c.nCtx l)
    (h : Relocated (orderMoves (c.compactionPlan need)) c c') : c'.Inv := by
  have hnd := hc.nodup_seq need
  have hold : ∀ (s : SeqId) slot', c'.seqs[s]? = some slot' →
      ∃ slot, c.seqs[s]? = some slot
      ∧ slot' = { slot with
        start := plannedStart (orderMoves (c.compactionPlan need)) s slot
        shared := followAll s slot.shared (orderMoves (c.compactionPlan need)) } := by
    intro s slot' hs
    cases hslot : c.seqs[s]? with
    | none =>
        rw [h.seqs s, hslot] at hs
        cases hs
    | some slot =>
        rw [h.slot hnd hslot] at hs
        cases hs
        exact ⟨slot, rfl, rfl⟩
  refine ⟨⟨?_, ?_⟩, h.spans, ?_⟩
  · intro s slot' hs
    obtain ⟨slot, hslot, rfl⟩ := hold s slot' hs
    obtain ⟨hle, hin⟩ := hshared s slot hslot
    have hfit := hc.fits s slot hslot
    unfold SeqSlot.privateWritten at hfit
    refine ⟨hc.cap_pos s slot hslot, ?_, by simpa using hle, ?_, ?_⟩
    · rw [h.nCtx]
      exact h.inside s slot hslot
    · simp only [followAll_rows]
      omega
    · rw [h.nCtx]
      refine followAll_le hin (h.carries s slot hslot) fun m hm => ?_
      obtain ⟨mslot, hmslot, hmeq, -⟩ := (mem_orderedPlan hc).mp hm
      have hmin := h.inside m.seq mslot hmslot
      rw [plannedStart_eq hnd, relocateAll_start_of_mem hnd hm] at hmin
      have hmfit := hc.fits m.seq mslot hmslot
      have hrows : m.rows = mslot.privateWritten := by rw [hmeq]; rfl
      omega
  · intro s t a b hst ha hb
    obtain ⟨a₀, ha₀, rfl⟩ := hold s a ha
    obtain ⟨b₀, hb₀, rfl⟩ := hold t b hb
    exact h.apart s t a₀ b₀ hst ha₀ hb₀
  · intro i l' hl'
    cases hl : c.layers[i]? with
    | none =>
        rw [h.layers i hl] at hl'
        cases hl'
    | some l =>
        obtain ⟨l₁, hl₁, hk, hv, ho⟩ := h.rows i l hl
        rw [hl'] at hl₁
        cases hl₁
        have hok := hlayers i l hl
        rw [h.nCtx]
        exact ⟨by rw [ho, hok.owner_len], by rw [hk, Lib.length_runMoves, hok.k_len],
          by rw [hv, Lib.length_runMoves, hok.v_len]⟩

end Relocation

-- =========================== kv_defrag

/-- Packing a well-formed table only moves runs down. -/
theorem Inv.packedStart_le (hc : c.Inv) {s : SeqId} {slot : SeqSlot}
    (hslot : c.seqs[s]? = some slot) : c.packedStart slot ≤ slot.start := by
  have hm := hc.movable
  obtain ⟨pre, post, hruns⟩ :=
    List.append_of_mem ((hm.mem_sortedRuns (r := (s, slot))).mpr hslot)
  rw [hm.packedStart_eq hruns]
  -- from any floor below the listed runs, their capacities stack up
  have hstack : ∀ (rs : List (SeqId × SeqSlot)) (floor : Nat),
      (rs ++ (s, slot) :: post).Sublist c.sortedRuns →
      (∀ r ∈ rs ++ (s, slot) :: post, floor ≤ r.2.start) →
      floor + capSum rs ≤ slot.start := by
    intro rs
    induction rs with
    | nil =>
        intro floor _ hfloor
        simpa using hfloor (s, slot) (by simp)
    | cons x rs ih =>
        intro floor hsub hfloor
        have hx := hfloor x (by simp)
        have htail : (rs ++ (s, slot) :: post).Sublist c.sortedRuns :=
          (List.sublist_cons_self x _).trans hsub
        have hord := hm.inOrder.sublist hsub
        have hnext := (List.pairwise_cons.mp hord).1
        have := ih (x.2.start + x.2.cap) htail fun r hr => by
          have hlt := (hnext r hr).1
          have hxm := hm.mem_sortedRuns.mp (hsub.subset (List.mem_cons_self ..))
          have hrm := hm.mem_sortedRuns.mp (htail.subset hr)
          have hne : x.1 ≠ r.1 := by
            intro heq
            rw [heq, hrm, Option.some_inj] at hxm
            rw [hxm] at hlt
            exact Nat.lt_irrefl _ hlt
          have := hc.table.apart x.1 r.1 x.2 r.2 hne hxm hrm
          omega
        rw [capSum_cons]
        omega
  have := hstack pre 0 (by rw [hruns]) (fun r _ => Nat.zero_le _)
  omega

/-- So the copy order of `kv_defrag` is already the execution order. -/
theorem Inv.orderMoves_plan (hc : c.Inv) (need : Option Nat) :
    orderMoves (c.compactionPlan need) = c.compactionPlan need := by
  refine List.Pairwise.insertionSort_eq ?_
  refine (hc.movable.ascends need).imp_of_mem fun {a b} ha hb hab => ?_
  have hdown : ∀ m ∈ c.compactionPlan need, m.toCell ≤ m.fromCell := by
    intro m hm
    obtain ⟨slot, hslot, hmeq, -⟩ := (mem_compactionPlan hc.movable).mp hm
    rw [hmeq]
    exact hc.packedStart_le hslot
  have ha' := hdown a ha
  have hb' := hdown b hb
  have hlt := hab.1
  unfold moveLe
  rw [if_neg (by omega), if_neg (by omega)]
  omega

/-- What a successful `kv_defrag` did. -/
theorem Inv.kvDefrag_cases {env : KvEnv} {c' : KvCache ρ} (hc : c.Inv)
    {need : Option Nat} {report : DefragReport}
    (h : c.kvDefrag env need = (.ok report, c')) :
    (c.compactionPlan need = [] ∧ c' = c)
      ∨ Relocated (orderMoves (c.compactionPlan need)) c c' := by
  simp only [KvCache.kvDefrag] at h
  split at h
  next hempty =>
    cases h
    exact .inl ⟨by simpa using hempty, rfl⟩
  next hne =>
    split at h
    · cases h
    next c₁ hcopy =>
      split at h
      · cases h
      next n c₂ happly =>
        cases h
        rw [hc.orderMoves_plan need]
        exact .inr (relocated_of_ok hc.spans (by simpa using hne)
          (hc.orderMoves_plan need) hcopy happly)

end KvCache
end Minfer.Graph
