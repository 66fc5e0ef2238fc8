/-
What an arena call leaves alone.

`Keeps s c c'` says that sequence `s` reads in `c'` every row it had
written in `c`. In an arena without shared prefixes every call keeps every
sequence it was not asked to give up, whatever it answers: refusals
included.
-/
import Minfer.Graph.Proofs.Solo

namespace Minfer.Graph

open Lib (InRun)

variable {ρ : Type}

namespace KvCache

/-- The two rows a sequence reads at a position, in one layer. -/
def rowAt (c : KvCache ρ) (i : Nat) (s : SeqId) (p : Nat) : Option (ρ × ρ) :=
  match c.cellOf s p, c.layers[i]? with
  | some cell, some l => (l.k[cell]?).bind fun k => (l.v[cell]?).map (k, ·)
  | _, _ => none

/-- `s` reads every row it had written. -/
structure Keeps (s : SeqId) (c c' : KvCache ρ) : Prop where
  written : c.writtenRows s ≤ c'.writtenRows s
  rows : ∀ i p, p < c.writtenRows s → c'.rowAt i s p = c.rowAt i s p
  layers : ∀ i : Nat, c'.layers[i]? = none ↔ c.layers[i]? = none

theorem Keeps.refl (s : SeqId) (c : KvCache ρ) : Keeps s c c :=
  ⟨Nat.le_refl _, fun _ _ _ => rfl, fun _ => Iff.rfl⟩

variable {c : KvCache ρ}

theorem Keeps.trans {s : SeqId} {c₁ c₂ : KvCache ρ} (h₁ : Keeps s c c₁)
    (h₂ : Keeps s c₁ c₂) : Keeps s c c₂ where
  written := Nat.le_trans h₁.written h₂.written
  rows i p hp := by
    rw [h₂.rows i p (Nat.lt_of_lt_of_le hp h₁.written)]
    exact h₁.rows i p hp
  layers i := (h₂.layers i).trans (h₁.layers i)

/-- An arena without shared prefixes. -/
structure Solo (c : KvCache ρ) : Prop where
  inv : c.Inv
  alone : c.Private

section

variable {c c' : KvCache ρ}
variable {p : Nat} {s : SeqId}

/-- A position of a run is a cell of it. -/
theorem Solo.cellOf (hc : c.Solo) {cell : Nat} :
    c.cellOf s p = some cell ↔
      ∃ slot, c.seqs[s]? = some slot ∧ p < slot.cap ∧ cell = slot.start + p := by
  rw [cellOf_eq hc.inv.spans]
  cases hslot : c.seqs[s]? with
  | none => simp
  | some slot =>
      have hzero := hc.alone s slot hslot
      simp only [Option.bind_some, SeqSlot.cellAt, hzero, Nat.not_lt_zero, if_false,
        Nat.zero_add, Nat.sub_zero, Option.some.injEq, exists_eq_left']
      split
      next h => simp [h, eq_comm]
      next h => simp [h]

/-- A cell belongs to one sequence and one position. -/
theorem Solo.cellOf_inj (hc : c.Solo) {t : SeqId} {q cell : Nat}
    (hs : c.cellOf s p = some cell) (ht : c.cellOf t q = some cell) :
    s = t ∧ p = q := by
  obtain ⟨a, ha, hp, rfl⟩ := hc.cellOf.mp hs
  obtain ⟨b, hb, hq, hcell⟩ := hc.cellOf.mp ht
  by_cases hst : s = t
  · subst hst
    rw [ha] at hb
    cases hb
    exact ⟨rfl, by omega⟩
  · have := hc.inv.table.apart s t a b hst ha hb
    omega

/-- A written position resolves, and in every layer there is a row. -/
theorem Solo.cellOf_written (hc : c.Solo) (hp : p < c.writtenRows s) :
    ∃ cell, c.cellOf s p = some cell := by
  unfold writtenRows at hp
  split at hp
  next slot hslot =>
    have hok := (hc.inv.table.ok s slot hslot).written_le
    rw [hc.alone s slot hslot] at hok
    exact ⟨_, hc.cellOf.mpr ⟨slot, hslot, by omega, rfl⟩⟩
  next => exact absurd hp (Nat.not_lt_zero p)

/-- A reader depends on its cell and on the two regions. -/
theorem rowAt_congr {i : Nat} (hcell : c'.cellOf s p = c.cellOf s p)
    (hlayer : c'.layers[i]?.map (fun l => (l.k, l.v))
      = c.layers[i]?.map fun l => (l.k, l.v)) :
    c'.rowAt i s p = c.rowAt i s p := by
  unfold rowAt
  rw [hcell]
  cases h : c.layers[i]? <;> cases h' : c'.layers[i]? <;> cases c.cellOf s p
    <;> simp_all

/-- Lookups and written extents are all a sequence depends on. -/
theorem Keeps.of_same (hw : c.writtenRows s ≤ c'.writtenRows s)
    (hcell : ∀ p < c.writtenRows s, c'.cellOf s p = c.cellOf s p)
    (hlayers : ∀ i : Nat, c'.layers[i]?.map (fun l => (l.k, l.v))
      = c.layers[i]?.map fun l => (l.k, l.v)) : Keeps s c c' where
  written := hw
  rows i p hp := rowAt_congr (hcell p hp) (hlayers i)
  layers i := by
    have := hlayers i
    cases h : c.layers[i]? <;> cases h' : c'.layers[i]? <;> simp_all

end

-- ========================== relocation

/-- Whatever the call answered, the arena still has no shared prefixes and
every sequence keeps its rows. -/
structure Steady (c c' : KvCache ρ) : Prop where
  solo : c'.Solo
  keeps : ∀ s, Keeps s c c'

theorem Steady.refl (hc : c.Solo) : Steady c c :=
  ⟨hc, fun s => .refl s c⟩

theorem Steady.trans {c₁ c₂ : KvCache ρ} (h₁ : Steady c c₁)
    (h₂ : Steady c₁ c₂) :
    Steady c c₂ := ⟨h₂.solo, fun s => (h₁.keeps s).trans (h₂.keeps s)⟩

/-- No sequence came to hold a run. -/
def NoBirth (c c' : KvCache ρ) : Prop := ∀ s : SeqId, c.seqs[s]? = none →
    c'.seqs[s]? = none

theorem NoBirth.refl (c : KvCache ρ) : NoBirth c c := fun _ h => h

theorem NoBirth.trans {c₁ c₂ : KvCache ρ} (h₁ : NoBirth c c₁)
    (h₂ : NoBirth c₁ c₂) :
    NoBirth c c₂ := fun s h => h₂ s (h₁ s h)

theorem KeepsRows.keeps {c' : KvCache ρ} (h : KeepsRows c c')
    (hlayers : ∀ i : Nat, c'.layers[i]? = none ↔ c.layers[i]? = none) (s : SeqId) :
    Keeps s c c' := by
  cases hslot : c.seqs[s]? with
  | none =>
      have hzero : c.writtenRows s = 0 := by simp [writtenRows, hslot]
      exact ⟨by omega, fun i p hp => by omega, hlayers⟩
  | some slot =>
      obtain ⟨hw, hrows⟩ := h s slot hslot
      refine ⟨Nat.le_of_eq hw.symm, fun i p hp => ?_, hlayers⟩
      obtain ⟨cell, cell', hcell, hcell', hlay⟩ := hrows p hp
      unfold rowAt
      rw [hcell, hcell']
      cases hl : c.layers[i]? with
      | none => rw [(hlayers i).mpr hl]
      | some l =>
          obtain ⟨l', hl', hk, hv⟩ := hlay i l hl
          simp only [hl', hk, hv]

/-- A relocation without shared prefixes keeps every row. -/
theorem Relocated.steady {c' : KvCache ρ} {need : Option Nat}
    (hc : c.Movable) (hsp : c.SpansOk) (hp : c.Private)
    (hlayers : ∀ (i : Nat) (l : KvLayer ρ), c.layers[i]? = some l → LayerOk c.nCtx l)
    (h : Relocated (orderMoves (c.compactionPlan need)) c c') :
    Steady c c' ∧ NoBirth c c' := by
  have hsafe : c.CompactionSafe need := by
    intro e he r _ _ i hi
    have hzero := hp e.1 e.2 (mem_seqs_toList.mp he)
    omega
  have hdom : ∀ i : Nat, c'.layers[i]? = none ↔ c.layers[i]? = none := by
    intro i
    refine ⟨fun hnone => ?_, h.layers i⟩
    cases hl : c.layers[i]? with
    | none => rfl
    | some l =>
        obtain ⟨l', hl', -⟩ := h.rows i l hl
        rw [hnone] at hl'
        cases hl'
  have hshared : ∀ (s : SeqId) slot, c.seqs[s]? = some slot →
      slot.shared.rows ≤ slot.written
      ∧ (slot.shared.rows = 0 ∨ slot.shared.cell + slot.shared.rows ≤ c.nCtx) := by
    intro s slot hs
    have hzero := hp s slot hs
    exact ⟨by omega, .inl hzero⟩
  refine ⟨⟨⟨h.inv hc hshared hlayers, h.private (hc.nodup_seq need) hp⟩, ?_⟩, ?_⟩
  · exact (h.keepsRows hc hsp hsafe).keeps hdom
  · intro s hs
    rw [h.seqs s, hs]
    rfl

section

variable {env : KvEnv} {c c' : KvCache ρ}

/-- `kv_defrag` succeeds and keeps every row. -/
theorem Solo.kvDefrag (hc : c.Solo) (henv : env.Obliging) (need : Option Nat) :
    ∃ report c', c.kvDefrag env need = (.ok report, c') ∧ Steady c c'
      ∧ NoBirth c c' := by
  have hm := hc.inv.movable
  unfold KvCache.kvDefrag
  by_cases hnil : c.compactionPlan need = []
  · simp only [hnil, List.isEmpty_nil, if_true]
    exact ⟨_, c, rfl, .refl hc, .refl c⟩
  · have hord := hc.inv.orderMoves_plan need
    have hsrc : ∀ (s : SeqId) slot, c.seqs[s]? = some slot →
        slot.start + slot.privateWritten ≤ c.nCtx := by
      intro s slot hs
      have := hm.fits s slot hs
      have := (hc.inv.table.ok s slot hs).in_arena
      omega
    obtain ⟨c₁, n, c₂, hcopy, happly, hrel⟩ := Private.relocated henv
      (fun (m : KvMove) e =>
        (s!"kv_defrag: moving sequence {m.seq} rows " ++
          s!"{m.fromCell}..{m.fromCell + m.rows} -> {m.toCell} " ++
          s!"failed: {e}"))
      hc.alone hm hc.inv.spans hc.inv.layers hsrc (hc.inv.laidOut need)
        (by rwa [hord])
    have hsteady := hrel.steady hm hc.inv.spans hc.alone hc.inv.layers
    rw [hord] at hcopy happly
    simp only [List.isEmpty_iff, hnil, if_false, hcopy, happly]
    exact ⟨_, c₂, rfl, hsteady⟩

-- ============================ resizing

/-- A table with the same lookups is the same table. -/
theorem Solo.of_lookups (hc : c.Solo)
    (hseqs : ∀ s : SeqId, c'.seqs[s]? = c.seqs[s]?) (hsp : c'.SpansOk)
    (hlayers : c'.layers = c.layers) (hn : c'.nCtx = c.nCtx) :
    Steady c c' ∧ NoBirth c c' := by
  refine ⟨⟨⟨?_, fun s slot hs => hc.alone s slot (hseqs s ▸ hs)⟩, fun s => ?_⟩, ?_⟩
  · refine hc.inv.of_lookups hseqs hsp ?_ hn
    rw [hlayers]
    exact hc.inv.layers
  · refine .of_same ?_ (fun p _ => ?_) fun i => by rw [hlayers]
    · unfold writtenRows
      rw [hseqs s]
    · rw [cellOf_eq hsp, cellOf_eq hc.inv.spans, hseqs s]
  · intro s hs
    rw [hseqs s]
    exact hs

variable {slot : SeqSlot} {cap seq : Nat}

/-- The other runs' capacities and this one's make up the reserved cells. -/
theorem reservedCells_split {seq : SeqId} (hslot : c.seqs[seq]? = some slot) :
    c.reservedCells
      = ((c.seqs.toList.filter fun r => r.1 ≠ seq).map (·.2.cap)).sum + slot.cap := by
  have hperm :
      c.seqs.toList.Perm
      ((seq, slot) :: c.seqs.toList.filter fun r => r.1 ≠ seq) := by
    have hnd : c.seqs.toList.Nodup := (nodup_keys_toList c.seqs).of_map _
    refine (List.perm_ext_iff_of_nodup hnd ?_).mpr fun r => ?_
    · refine List.nodup_cons.mpr ⟨?_, hnd.filter _⟩
      simp
    · simp only [List.mem_cons, List.mem_filter, decide_eq_true_eq]
      constructor
      · intro hr
        by_cases hs : r.1 = seq
        · have := mem_seqs_toList.mp hr
          rw [hs, hslot] at this
          cases this
          exact .inl (by rw [← hs])
        · exact .inr ⟨hr, hs⟩
      · rintro (rfl | ⟨hr, -⟩)
        · exact mem_seqs_toList.mpr hslot
        · exact hr
  unfold reservedCells
  rw [(hperm.map (·.2.cap)).sum_nat, List.map_cons, List.sum_cons, Nat.add_comm]

/-- A capacity `set_cap` accepts fits the arena with the others. -/
theorem Inv.resized_fits (hc : c.Inv) (hslot : c.seqs[seq]? = some slot)
    (hgrow : slot.cap < cap → (c.resized seq cap slot).reservedCells ≤ c.nCtx) :
    (c.resized seq cap slot).reservedCells ≤ (c.resized seq cap slot).nCtx := by
  rw [show (c.resized seq cap slot).nCtx = c.nCtx from putSlot_nCtx ..]
  by_cases hg : slot.cap < cap
  · exact hgrow hg
  · have hle := hc.reservedCells_le
    rw [reservedCells_split hslot] at hle
    rw [reservedCells_resized]
    omega

/-- The written rows of a resized table lie in the arena. -/
theorem Inv.resized_rows (hc : c.Inv)
    (hslot : c.seqs[seq]? = some slot) (s : SeqId) (a : SeqSlot)
    (ha : (c.resized seq cap slot).seqs[s]? = some a) :
    a.start + a.privateWritten ≤ (c.resized seq cap slot).nCtx := by
  obtain ⟨b, hb, hstart, hsh, hw, -⟩ := resized_old hslot ha
  have := hc.movable.fits s b hb
  have := (hc.table.ok s b hb).in_arena
  rw [show (c.resized seq cap slot).nCtx = c.nCtx from putSlot_nCtx ..]
  unfold SeqSlot.privateWritten at *
  rw [hstart, hsh, hw]
  omega

/-- A resize in place: readers read where they read. -/
theorem Solo.resized (hc : c.Solo) (hslot : c.seqs[seq]? = some slot)
    (hpos : 0 < cap) (hfit : slot.privateWritten ≤ cap) :
    (c.resized seq cap slot).Private ∧ (∀ s, Keeps s c (c.resized seq cap slot))
      ∧ NoBirth c (c.resized seq cap slot) := by
  have hreads := hc.inv.resized_reads hslot hpos hfit
  refine ⟨hc.alone.of_seqs fun s a ha => ?_, fun s => ?_,
    fun s hs => (hreads s).1.mpr hs⟩
  · obtain ⟨b, hb, -, hsh, -⟩ := resized_old hslot ha
    exact ⟨b, hb, by rw [hsh]⟩
  · refine .of_same (Nat.le_of_eq (hreads s).2.1.symm) (hreads s).2.2 fun i => ?_
    rw [show (c.resized seq cap slot).layers = c.layers from putSlot_layers ..]

/-- Undoing a resize that would have needed a compaction is accepted. -/
theorem Inv.setCap_back (hc : c.Inv)
    (hslot : c.seqs[seq]? = some slot) (hne : cap ≠ slot.cap) :
    ∃ moves, (c.resized seq cap slot).setCap seq slot.cap
      = .ok (moves, (c.resized seq cap slot).putSlot seq slot) := by
  have hnew : (c.resized seq cap slot).seqs[seq]? = some { slot with cap } := by
    rw [resized_seqs, if_pos rfl]
  have hpos := (hc.table.ok seq slot hslot).cap_pos
  have hfits := hc.movable.fits seq slot hslot
  have hothers : (((c.resized seq cap slot).seqs.toList.filter fun r => r.1 ≠ seq).map
      (·.2.cap)).sum + slot.cap ≤ (c.resized seq cap slot).nCtx := by
    rw [show (c.resized seq cap slot).nCtx = c.nCtx from putSlot_nCtx ..]
    have hold := reservedCells_split hslot
    have hsplit := reservedCells_split hnew
    have hres := reservedCells_resized c seq cap slot
    have hle := hc.reservedCells_le
    simp only at hsplit
    omega
  refine ⟨((c.resized seq cap slot).putSlot seq slot).compactionPlan none, ?_⟩
  simp only [setCap, hnew]
  rw [if_neg (Ne.symm hne), if_neg (by omega), if_neg, if_neg]
  · omega
  · rintro ⟨-, hlt⟩
    unfold SeqSlot.privateWritten at hfits hlt
    simp only at hlt
    omega

/-- And it puts the table back. -/
theorem putBack_seqs (hslot : c.seqs[seq]? = some slot) (s : SeqId) :
    ((c.resized seq cap slot).putSlot seq slot).seqs[s]?
    = c.seqs[s]? := by
  rw [putSlot_seqs]
  split
  next hs => rw [← hs, hslot]
  next hs => rw [resized_seqs, if_neg hs]

/-- Readers of an undone resize read where they read. -/
theorem Solo.setCap_back (hc : c.Solo)
    (hslot : c.seqs[seq]? = some slot) (hne : cap ≠ slot.cap) :
    ∃ moves c', (c.resized seq cap slot).setCap seq slot.cap = .ok (moves, c')
      ∧ Steady c c' ∧ NoBirth c c' := by
  obtain ⟨moves, hback⟩ := hc.inv.setCap_back hslot hne
  refine ⟨moves, _, hback, hc.of_lookups (putBack_seqs hslot)
    ((hc.inv.spans.putSlot _ _).putSlot _ _) ?_ ?_⟩
  · rw [putSlot_layers, KvCache.resized, putSlot_layers]
  · rw [putSlot_nCtx, KvCache.resized, putSlot_nCtx]

/-- `kv_set_cap_with_defrag` keeps every row, whatever it answers. -/
theorem Solo.kvSetCap (hc : c.Solo) (henv : env.Obliging)
    (hpos : 0 < cap) {r : Except String (SeqSlot × List KvMove)}
    (h : c.kvSetCapWithDefrag env seq cap = (r, c')) :
    Steady c c' ∧ NoBirth c c' := by
  have hsame : Steady c c ∧ NoBirth c c := ⟨.refl hc, .refl c⟩
  unfold kvSetCapWithDefrag at h
  split at h
  · cases h
    exact hsame
  next slot hslot =>
  rw [seqSlot] at hslot
  cases hset : c.setCap seq cap with
  | error e =>
      rw [hset] at h
      cases h
      exact hsame
  | ok out =>
  obtain ⟨moves, c₁⟩ := out
  rw [hset] at h
  simp only at h
  rcases setCap_cases hslot hset with ⟨-, rfl, rfl⟩ | ⟨hzero, -⟩
    | ⟨hne, -, hsh, hgr, rfl, rfl⟩
  · simp only [List.isEmpty_nil, if_true, seqSlot, hslot] at h
    cases h
    exact hsame
  · omega
  have hfits := hc.inv.movable.fits seq slot hslot
  have hfit : slot.privateWritten ≤ cap := by omega
  have hm := hc.inv.movable_resized hslot hpos hfit
  obtain ⟨hp, hkeeps, hbirth⟩ := hc.resized hslot hpos hfit
  have hnew : (c.resized seq cap slot).seqs[seq]? = some { slot with cap } := by
    rw [resized_seqs, if_pos rfl]
  by_cases hnil : (c.resized seq cap slot).compactionPlan none = []
  · -- nothing has to move
    simp only [hnil, List.isEmpty_nil, if_true, seqSlot, hnew] at h
    cases h
    exact ⟨⟨⟨hc.inv.resized hslot hpos hfit hgr hnil, hp⟩, hkeeps⟩, hbirth⟩
  simp only [List.isEmpty_iff, hnil, if_false] at h
  cases hdef : env.defragEnabled with
  | false =>
      obtain ⟨ms, c₂, hback, hsteady⟩ := hc.setCap_back hslot hne
      simp only [hdef, Bool.not_false, if_true, hback] at h
      cases h
      exact hsteady
  | true =>
  have hsp : (c.resized seq cap slot).SpansOk := hc.inv.spans.putSlot _ _
  have hlayers : ∀ (i : Nat) (l : KvLayer ρ),
      (c.resized seq cap slot).layers[i]? = some l →
      LayerOk (c.resized seq cap slot).nCtx l := by
    rw [show (c.resized seq cap slot).layers = c.layers from putSlot_layers ..,
      show (c.resized seq cap slot).nCtx = c.nCtx from putSlot_nCtx ..]
    exact hc.inv.layers
  have hplan : orderMoves ((c.resized seq cap slot).compactionPlan none) ≠ [] :=
    fun hempty => hnil (orderMoves_eq_nil.1 hempty)
  obtain ⟨c₂, n, c₃, hcopy, happly, hrel⟩ := Private.relocated henv
    (fun (m : KvMove) e =>
      (s!"kv_set_cap: moving sequence {m.seq} rows " ++
        s!"{m.fromCell}..{m.fromCell + m.rows} -> {m.toCell} " ++
        s!"failed: {e}"))
    hp hm hsp hlayers (hc.inv.resized_rows hslot)
      (hm.laidOut (hc.inv.resized_fits hslot hgr)) hplan
  obtain ⟨hsteady, hbirth'⟩ := hrel.steady hm hsp hp hlayers
  have hafter := hrel.slot (hm.nodup_seq none) hnew
  simp only [hdef, Bool.not_true, Bool.false_eq_true, if_false, hcopy, happly,
    seqSlot, hafter] at h
  cases h
  exact ⟨⟨hsteady.solo, fun s => (hkeeps s).trans (hsteady.keeps s)⟩,
    hbirth.trans hbirth'⟩

-- ========================= reservation

/-- A reservation that went through. -/
theorem Solo.reserveSeq (hc : c.Solo)
    (h : c.reserveSeq seq cap = .ok (slot, c')) :
    Steady c c' ∧ ∀ s, s ≠ seq → c.seqs[s]? = none → c'.seqs[s]? = none := by
  have hinv := hc.inv.reserveSeq h
  rcases reserveSeq_cases h with ⟨-, -, rfl⟩ | ⟨hnone, hslot, -, -, -, rfl⟩
  · exact ⟨.refl hc, fun _ _ hs => hs⟩
  · have hlookup (s : SeqId) (hs : s ≠ seq) : (c.putSlot seq slot).seqs[s]?
        = c.seqs[s]? := by
      rw [putSlot_seqs, if_neg (Ne.symm hs)]
    refine ⟨⟨⟨hinv, fun s a ha => ?_⟩, fun s => ?_⟩, fun s hs hnone => ?_⟩
    · by_cases hs : s = seq
      · rw [hs, putSlot_seqs, if_pos rfl] at ha
        cases ha
        rw [hslot]
        rfl
      · rw [hlookup s hs] at ha
        exact hc.alone s a ha
    · by_cases hs : s = seq
      · have hzero : c.writtenRows s = 0 := by simp [writtenRows, hs, hnone]
        exact .of_same (by omega) (fun p hp => by omega) fun i => by
          rw [putSlot_layers]
      · refine .of_same ?_ (fun p _ => ?_) fun i => by rw [putSlot_layers]
        · unfold writtenRows
          rw [hlookup s hs]
        · rw [cellOf_eq (hc.inv.spans.putSlot seq slot),
            cellOf_eq hc.inv.spans, hlookup s hs]
    · rw [hlookup s hs]
      exact hnone

/-- `kv_reserve_seq_with_defrag` keeps every row, whatever it answers. -/
theorem Solo.kvReserveSeq (hc : c.Solo) (henv : env.Obliging)
    {r : Except String (SeqSlot × List KvMove)}
    (h : c.kvReserveSeqWithDefrag env seq cap = (r, c')) :
    Steady c c' ∧ ∀ s, s ≠ seq → c.seqs[s]? = none → c'.seqs[s]? = none := by
  have hsame : Steady c c ∧ ∀ s, s ≠ seq → c.seqs[s]? = none → c.seqs[s]? = none :=
    ⟨.refl hc, fun _ _ hs => hs⟩
  unfold kvReserveSeqWithDefrag at h
  split at h
  next slot c₁ h₁ =>
    cases h
    exact hc.reserveSeq h₁
  next first h₁ =>
    split at h
    · cases h
      exact hsame
    · obtain ⟨report, c₁, hdef, hsteady, hbirth⟩ := hc.kvDefrag henv (some cap)
      simp only [hdef] at h
      split at h
      · cases h
        exact ⟨hsteady, fun s _ hs => hbirth s hs⟩
      · split at h
        next =>
          cases h
          exact ⟨hsteady, fun s _ hs => hbirth s hs⟩
        next slot c₂ h₂ =>
          cases h
          obtain ⟨hsteady₂, hbirth₂⟩ := hsteady.solo.reserveSeq h₂
          exact ⟨hsteady.trans hsteady₂, fun s hs hnone =>
            hbirth₂ s hs (hbirth s hnone)⟩

/-- A release keeps everybody else's rows. -/
theorem Solo.releaseSeq (hc : c.Solo) (seq : SeqId) :
    (c.releaseSeq seq).2.Solo ∧ (∀ s, s ≠ seq → Keeps s c (c.releaseSeq seq).2)
      ∧ NoBirth c (c.releaseSeq seq).2 ∧ (c.releaseSeq seq).2.seqs[seq]? = none := by
  have hinv := hc.inv.releaseSeq seq
  have hlookup (s : SeqId) : (c.releaseSeq seq).2.seqs[s]?
      = if seq = s then none else c.seqs[s]? := releaseSeq_table c seq s
  have hlayers (i : Nat) : (c.releaseSeq seq).2.layers[i]?.map (fun l => (l.k, l.v))
      = c.layers[i]?.map fun l => (l.k, l.v) := by
    unfold KvCache.releaseSeq
    split
    · rfl
    · simp only [getElem?_map_nat, refreshSpans_layers, Option.map_map]
      rfl
  refine ⟨⟨hinv, hc.alone.of_seqs fun s a ha => ?_⟩, fun s hs => ?_,
    fun s hs => ?_, ?_⟩
  · rw [hlookup] at ha
    split at ha
    · cases ha
    · exact ⟨a, ha, rfl⟩
  · refine .of_same ?_ (fun p _ => ?_) hlayers
    · unfold writtenRows
      rw [hlookup, if_neg (Ne.symm hs)]
    · rw [cellOf_eq hinv.spans, cellOf_eq hc.inv.spans, hlookup, if_neg (Ne.symm hs)]
  · rw [hlookup]
    split
    · rfl
    · exact hs
  · rw [hlookup, if_pos rfl]

-- =========================== ownership

/-- The position a cell of a run holds. -/
theorem Solo.posOfCell (hc : c.Solo) {s : SeqId} {p cell : Nat}
    (h : c.cellOf s p = some cell) : c.posOfCell s cell = some p := by
  obtain ⟨slot, hslot, hp, rfl⟩ := hc.cellOf.mp h
  have hzero := hc.alone s slot hslot
  have hpos := (hc.inv.table.ok s slot hslot).cap_pos
  unfold KvCache.posOfCell
  rw [hc.inv.spans s, hslot]
  simp [SeqSlot.spanEntry, SeqSlot.spanList, hzero, hpos, hp]

theorem le_raiseWritten (c : KvCache ρ) (seq : SeqId) (w : Nat) (cells : List Nat) :
    w ≤ c.raiseWritten seq w cells := by
  induction cells generalizing w with
  | nil => exact Nat.le_refl w
  | cons cell cells ih => exact Nat.le_trans (Nat.le_max_left ..) (ih _)

theorem lt_raiseWritten {seq : SeqId} {w p cell : Nat} {cells : List Nat}
    (hmem : cell ∈ cells) (hpos : c.posOfCell seq cell = some p) :
    p < c.raiseWritten seq w cells := by
  induction cells generalizing w with
  | nil => cases hmem
  | cons x cells ih =>
      rcases List.mem_cons.mp hmem with rfl | hmem
      · refine Nat.lt_of_lt_of_le ?_ (le_raiseWritten c seq _ cells)
        simp only [hpos, Option.map_some, Option.getD_some]
        omega
      · exact ih hmem

theorem ownRange_regions (c : KvCache ρ) (seq lo hi i : Nat) :
    (c.ownRange seq lo hi).layers[i]?.map (fun l => (l.k, l.v))
      = c.layers[i]?.map fun l => (l.k, l.v) := by
  simp only [KvCache.ownRange]
  split <;> (simp only [getElem?_map_nat, Option.map_map]; rfl)

theorem ownRange_cellOf (c : KvCache ρ) (seq lo hi s p : Nat) :
    (c.ownRange seq lo hi).cellOf s p = c.cellOf s p := by
  unfold KvCache.cellOf
  rw [ownRange_spans]

/-- Owning cells changes no row, and counts their positions as written. -/
theorem Solo.ownRange (hc : c.Solo) (seq lo hi : Nat) :
    Steady c (c.ownRange seq lo hi) ∧ NoBirth c (c.ownRange seq lo hi)
      ∧ ∀ p cell, c.cellOf seq p = some cell → lo ≤ cell → cell < hi →
        p < (c.ownRange seq lo hi).writtenRows seq := by
  have hinv := hc.inv.ownRange seq lo hi
  have hlookup (s : SeqId) : (c.ownRange seq lo hi).seqs[s]?
      = (c.seqs[s]?).map fun slot =>
      if seq = s then
        { slot with
          written := c.raiseWritten seq slot.written (List.range' lo (hi - lo)) }
      else slot := ownRange_table c seq lo hi s
  refine ⟨⟨⟨hinv, hc.alone.of_seqs fun s a ha => ?_⟩, fun s => ?_⟩,
    fun s hs => ?_, ?_⟩
  · rw [hlookup] at ha
    obtain ⟨slot, hslot, rfl⟩ := Option.map_eq_some_iff.mp ha
    refine ⟨slot, hslot, ?_⟩
    split <;> rfl
  · refine .of_same ?_ (fun p _ => ownRange_cellOf ..) (ownRange_regions c seq lo hi)
    unfold writtenRows
    rw [hlookup]
    cases c.seqs[s]? with
    | none => exact Nat.le_refl _
    | some slot =>
        simp only [Option.map_some]
        split
        · exact le_raiseWritten ..
        · exact Nat.le_refl _
  · rw [hlookup, hs]
    rfl
  · intro p cell hcell hlo hhi
    obtain ⟨slot, hslot, -⟩ := hc.cellOf.mp hcell
    unfold writtenRows
    rw [hlookup, hslot]
    simp only [Option.map_some, if_true]
    refine lt_raiseWritten (List.mem_range'_1.mpr ?_) (hc.posOfCell hcell)
    omega

theorem Solo.ownPositions {seq : SeqId} {positions : List Nat} :
    ∀ {c c' : KvCache ρ} {r : Except String Unit}, c.Solo →
      c.ownPositions seq positions = (r, c') → Steady c c' ∧ NoBirth c c'
        ∧ (r = .ok () → ∀ p ∈ positions, p < c'.writtenRows seq) := by
  induction positions with
  | nil =>
      intro c c' r hc h
      cases h
      exact ⟨.refl hc, .refl c, by simp⟩
  | cons pos rest ih =>
      intro c c' r hc h
      simp only [KvCache.ownPositions] at h
      split at h
      · cases h
        exact ⟨.refl hc, .refl c, by simp⟩
      next cell hcell =>
        obtain ⟨hsteady, hbirth, hwritten⟩ := hc.ownRange seq cell (cell + 1)
        obtain ⟨hsteady', hbirth', hrest⟩ := ih hsteady.solo h
        refine ⟨hsteady.trans hsteady', hbirth.trans hbirth', fun hr p hp => ?_⟩
        rcases List.mem_cons.mp hp with rfl | hp
        · exact Nat.lt_of_lt_of_le
            (hwritten p cell hcell (Nat.le_refl _) (Nat.lt_succ_self _))
            (hsteady'.keeps seq).written
        · exact hrest hr p hp

-- =============================== fills

/-- Nothing is copied on write. -/
theorem Solo.cowPass (hc : c.Solo) (b : Batch) (gs : List (SeqId × Nat × Nat)) :
    c.cowPass env b gs = (.ok (), c) := by
  induction gs with
  | nil => rfl
  | cons g rest ih =>
      simp only [KvCache.cowPass]
      split
      · exact ih
      next t _ =>
        have hnone : c.privateRowFor g.1 t = .ok none := by
          unfold privateRowFor
          split
          · rfl
          next slot hslot => rw [if_pos (.inl (hc.alone g.1 slot hslot))]
        simp only [KvCache.kvPrivateRowFor, hnone]
        exact ih

/-- The ownership pass keeps every row; on success every position of the
batch counts as written, and a batch of several sequences found them all
reserved. -/
theorem Solo.ownPass {b : Batch} {gs : List (SeqId × Nat × Nat)} :
    ∀ {c c' : KvCache ρ} {r : Except String Unit}, c.Solo → c.ownPass b gs = (r, c') →
      Steady c c' ∧ (1 < b.nSeqs → NoBirth c c')
        ∧ (r = .ok () → (∀ g ∈ gs, ∀ p ∈ b.groupPositions g, p < c'.writtenRows g.1)
          ∧ (1 < b.nSeqs → ∀ g ∈ gs, c.seqs[g.1]? ≠ none)) := by
  induction gs with
  | nil =>
      intro c c' r hc h
      cases h
      exact ⟨.refl hc, fun _ => .refl c, fun _ => ⟨by simp, by simp⟩⟩
  | cons g rest ih =>
      intro c c' r hc h
      rcases ownPass_cons h with ⟨rfl, e, rfl⟩ | ⟨c₁, hres, hown⟩
      · exact ⟨.refl hc, fun _ => .refl _, by simp⟩
      -- the group's sequence holds a run, or a lone sequence is given one
      have hfirst : Steady c c₁ ∧ (1 < b.nSeqs → c₁ = c ∧ c.seqs[g.1]? ≠ none) := by
        rcases hres with ⟨rfl, slot, hslot⟩ | ⟨-, hlone, slot, hreserve⟩
        · exact ⟨.refl hc, fun _ => ⟨rfl, by simp [hslot]⟩⟩
        · exact ⟨(hc.reserveSeq hreserve).1, fun hn => absurd hn hlone⟩
      obtain ⟨hsteady, hmany⟩ := hfirst
      rcases hown with ⟨e, hown, rfl⟩ | ⟨c₂, hown, h⟩
      · obtain ⟨hsteady₂, hbirth₂, -⟩ := Solo.ownPositions hsteady.solo hown
        refine ⟨hsteady.trans hsteady₂, fun hn => ?_, by simp⟩
        rw [(hmany hn).1] at hbirth₂
        exact hbirth₂
      · obtain ⟨hsteady₂, hbirth₂, hwritten₂⟩ := Solo.ownPositions hsteady.solo hown
        obtain ⟨hsteady₃, hbirth₃, hrest⟩ := ih hsteady₂.solo h
        refine ⟨(hsteady.trans hsteady₂).trans hsteady₃, fun hn => ?_,
          fun hr => ⟨?_, ?_⟩⟩
        · rw [(hmany hn).1] at hbirth₂
          exact hbirth₂.trans (hbirth₃ hn)
        · intro g' hg' p hp
          rcases List.mem_cons.mp hg' with rfl | hg'
          · exact Nat.lt_of_lt_of_le (hwritten₂ rfl p hp)
              (hsteady₃.keeps g'.1).written
          · exact (hrest hr).1 g' hg' p hp
        · intro hn g' hg'
          obtain ⟨rfl, hlive⟩ := hmany hn
          rcases List.mem_cons.mp hg' with rfl | hg'
          · exact hlive
          · intro hnone
            exact (hrest hr).2 hn g' hg' (hbirth₂ g'.1 hnone)

/-- What a fill leaves: every row kept, and on success a cell for every
query, where its position counts as written. -/
theorem Solo.fillBatchInputs (hc : c.Solo) {b : Batch}
    {r : Except String (List Nat)} (h : c.fillBatchInputs env b = (r, c')) :
    Steady c c' ∧ ∀ cells, r = .ok cells →
      (cells.length = b.seqIds.length ∧ b.seqIds.length = b.positions.length)
      ∧ (∀ {k s p : Nat}, b.seqIds[k]? = some s → b.positions[k]? = some p →
        ∃ cell, cells[k]? = some cell ∧ c'.cellOf s p = some cell
          ∧ p < c'.writtenRows s)
      ∧ (1 < b.nSeqs → ∀ s ∈ b.seqIds, c.seqs[s]? ≠ none) := by
  simp only [KvCache.fillBatchInputs, hc.cowPass] at h
  split at h
  next e c₁ hown =>
    cases h
    exact ⟨(Solo.ownPass hc hown).1, fun cells hr => nomatch hr⟩
  next c₁ hown =>
    obtain ⟨hsteady, -, hok⟩ := Solo.ownPass hc hown
    obtain ⟨hwritten, hlive⟩ := hok rfl
    cases h
    refine ⟨hsteady, fun cells hcells => ?_⟩
    unfold kvCellsForSeq at hcells
    split at hcells
    · cases hcells
    next hlen =>
      have hlen : b.seqIds.length = b.positions.length := by simpa using hlen
      have hgroup : ∀ s p, (s, p) ∈ b.seqIds.zip b.positions →
          ∃ g ∈ b.groups, g.1 = s ∧ p ∈ b.groupPositions g :=
        fun s p hp => Batch.mem_groupPositions.mpr hp
      have hcount := forQueries_length hcells
      refine ⟨⟨by omega, hlen⟩, ?_, ?_⟩
      · intro k s p hs hp
        obtain ⟨cell, hcell, hat⟩ := forQueries_ok hcells hs hp
        have hmem : (s, p) ∈ b.seqIds.zip b.positions :=
          List.mem_iff_getElem?.mpr ⟨k, List.getElem?_zip_eq_some.mpr ⟨hs, hp⟩⟩
        obtain ⟨g, hg, rfl, hpos⟩ := hgroup s p hmem
        refine ⟨cell, hcell, ?_, hwritten g hg p hpos⟩
        obtain ⟨slot, hslot, -, hstart, hin⟩ := kvCellAt_ok hsteady.solo.inv.spans hat
        have hzero := hsteady.solo.alone g.1 slot hslot
        unfold InRun at hin
        rw [hzero, Nat.sub_zero] at hstart
        exact hsteady.solo.cellOf.mpr ⟨slot, hslot, by omega, hstart⟩
      · intro hn s hs
        obtain ⟨k, hk⟩ := List.mem_iff_getElem?.mp hs
        have hlt : k < b.positions.length :=
          hlen ▸ (List.getElem?_eq_some_iff.mp hk).1
        obtain ⟨p, hp⟩ : ∃ p, b.positions[k]? = some p :=
          ⟨_, List.getElem?_eq_getElem hlt⟩
        obtain ⟨g, hg, rfl, -⟩ := hgroup s p
          (List.mem_iff_getElem?.mpr ⟨k, List.getElem?_zip_eq_some.mpr ⟨hk, hp⟩⟩)
        exact hlive hn g hg

-- ======================= prefix copies

/-- What one in-bounds copy between two runs does to the readers. -/
theorem Solo.copyPlan (hc : c.Solo) {wrap : KvMove → String → String}
    {src dst : SeqId} {a b : SeqSlot} {rows : Nat} (ha : c.seqs[src]? = some a)
    (hb : c.seqs[dst]? = some b) (hra : rows ≤ a.cap) (hrb : rows ≤ b.cap)
    (h : copyPlan env wrap [⟨dst, a.start, b.start, rows⟩] c = (.ok (), c')) :
    c'.Solo ∧ (∀ s, s ≠ dst → Keeps s c c') ∧ NoBirth c c'
      ∧ (∀ s p, c'.cellOf s p = c.cellOf s p)
      ∧ (∀ i : Nat, c'.layers[i]? = none ↔ c.layers[i]? = none)
      ∧ ∀ i p, p < rows → c'.rowAt i dst p = c.rowAt i src p := by
  obtain ⟨hseqs, hspans, hn⟩ := copyPlan_frame h
  obtain ⟨hlayers, -⟩ := copyPlan_ok h
  have hcell : ∀ s p, c'.cellOf s p = c.cellOf s p := by
    intro s p
    unfold KvCache.cellOf
    rw [hspans]
  have hdom : ∀ i : Nat, c'.layers[i]? = none ↔ c.layers[i]? = none := by
    intro i
    rw [hlayers i, Option.map_eq_none_iff]
  have hain := (hc.inv.table.ok src a ha).in_arena
  have hbin := (hc.inv.table.ok dst b hb).in_arena
  have hwr : ∀ s, c'.writtenRows s = c.writtenRows s := by
    intro s
    unfold writtenRows
    rw [hseqs]
  refine ⟨⟨hc.inv.copyPlan h, fun s slot hs => hc.alone s slot (hseqs ▸ hs)⟩,
    fun s hs => ?_,
    fun s hs => by rw [hseqs]; exact hs, hcell, hdom, fun i p hp => ?_⟩
  · -- a cell of another run is no destination
    refine ⟨Nat.le_of_eq (hwr s).symm, fun i p hp => ?_, hdom⟩
    obtain ⟨cell, hcellp⟩ := hc.cellOf_written hp
    unfold rowAt
    rw [hcell, hcellp, hlayers i]
    cases hl : c.layers[i]? with
    | none => rfl
    | some l =>
        obtain ⟨slot, hslot, hpc, rfl⟩ := hc.cellOf.mp hcellp
        have hout : ¬ InRun b.start rows (slot.start + p) := by
          have := hc.inv.table.apart s dst slot b hs hslot hb
          unfold InRun
          omega
        simp only [Option.map_some, KvLayer.copied, List.map_cons,
          List.map_nil, KvMove.toMove, Lib.runMoves_cons, Lib.runMoves_nil,
          Lib.getElem?_memmove_out hout]
  · have hsrc : c.cellOf src p = some (a.start + p) :=
      hc.cellOf.mpr ⟨a, ha, by omega, rfl⟩
    have hdst : c.cellOf dst p = some (b.start + p) :=
      hc.cellOf.mpr ⟨b, hb, by omega, rfl⟩
    unfold rowAt
    rw [hcell, hdst, hsrc, hlayers i]
    cases hl : c.layers[i]? with
    | none => rfl
    | some l =>
        have hok := hc.inv.layers i l hl
        simp only [Option.map_some, KvLayer.copied, List.map_cons,
          List.map_nil, KvMove.toMove, Lib.runMoves_cons, Lib.runMoves_nil]
        rw [Lib.getElem?_memmove_dst hp (by rw [hok.k_len]; omega)
          (by rw [hok.k_len]; omega),
          Lib.getElem?_memmove_dst hp (by rw [hok.v_len]; omega)
            (by rw [hok.v_len]; omega)]

/-- `kv_copy_prefix`: a refusal changes nothing; on success the destination
reads the source's first rows, and everybody else keeps theirs. -/
theorem Solo.kvCopyPrefix (hc : c.Solo) (henv : env.Obliging) {src dst : SeqId}
    {rows : Nat} (hne : src ≠ dst) {r : Except String Unit}
    (h : c.kvCopyPrefix env src dst rows = (r, c')) :
    c'.Solo ∧ (∀ s, s ≠ dst → Keeps s c c') ∧ NoBirth c c'
      ∧ (r ≠ .ok () → c' = c)
      ∧ (r = .ok () → rows ≤ c.writtenRows src ∧ rows ≤ c'.writtenRows dst
        ∧ (∀ i : Nat, c'.layers[i]? = none ↔ c.layers[i]? = none)
        ∧ ∀ i p, p < rows → c'.rowAt i dst p = c.rowAt i src p) := by
  have hsame (e : String) : c.Solo ∧ (∀ s, s ≠ dst → Keeps s c c) ∧ NoBirth c c
      ∧ (Except.error e ≠ .ok () → c = c)
      ∧ (Except.error e = .ok () → rows ≤ c.writtenRows src ∧ rows ≤ c.writtenRows dst
        ∧ (∀ i : Nat, c.layers[i]? = none ↔ c.layers[i]? = none)
        ∧ ∀ i p, p < rows → c.rowAt i dst p = c.rowAt i src p) :=
    ⟨hc, fun s _ => .refl s c, .refl c, fun _ => rfl, fun h => nomatch h⟩
  unfold KvCache.kvCopyPrefix at h
  split at h
  next hzero =>
    cases h
    refine ⟨hc, fun s _ => .refl s c, .refl c, fun _ => rfl,
      fun _ => ⟨?_, ?_, ?_, ?_⟩⟩
    · omega
    · omega
    · exact fun _ => Iff.rfl
    · exact fun i p hp => by omega
  split at h
  · cases h
    exact hsame _
  next a ha =>
  split at h
  · cases h
    exact hsame _
  split at h
  · cases h
    exact hsame _
  next b hb =>
  rw [seqSlot] at ha hb
  split at h
  · cases h
    exact hsame _
  next hwritten =>
  split at h
  · cases h
    exact hsame _
  next hcap =>
  have hoka := hc.inv.table.ok src a ha
  have hokb := hc.inv.table.ok dst b hb
  have hra : rows ≤ a.cap := by
    have hle := hoka.written_le
    rw [hc.alone src a ha] at hle
    rw [writtenRows_eq ha] at hwritten
    omega
  split at h
  next heq =>
    -- two runs never start at one cell
    have := hc.inv.table.apart src dst a b hne ha hb
    have := hoka.cap_pos
    have := hokb.cap_pos
    omega
  simp only at h
  have hain := hoka.in_arena
  have hbin := hokb.in_arena
  have hfit : ∀ m ∈ [(⟨dst, a.start, b.start, rows⟩ : KvMove)],
      m.toMove.Fits c.nCtx := by
    intro m hm
    rw [List.mem_singleton.mp hm]
    constructor <;>
    · simp only [KvMove.toMove]
      omega
  obtain ⟨c₁, hcopy⟩ := copyPlan_total
    (fun _ e =>
      (s!"kv_copy_prefix: copying {rows} rows of sequence " ++
        s!"{src} ({a.start}) into sequence {dst} " ++
        s!"({b.start}) failed: {e}"))
    (henv.grantsAll c _) hc.inv.layers hfit
  simp only [hcopy] at h
  cases h
  obtain ⟨hsolo₁, hkeeps₁, hbirth₁, hcell₁, hdom₁, hrows₁⟩ :=
    hc.copyPlan ha hb hra (by omega) hcopy
  obtain ⟨hsteady, hbirth₂, hown⟩ := hsolo₁.ownRange dst b.start (b.start + rows)
  refine ⟨hsteady.solo, fun s hs => (hkeeps₁ s hs).trans (hsteady.keeps s),
    hbirth₁.trans hbirth₂, fun hr => absurd rfl hr, fun _ => ⟨by omega, ?_, ?_, ?_⟩⟩
  · by_contra hlt
    have hcellp : c₁.cellOf dst (rows - 1) = some (b.start + (rows - 1)) := by
      rw [hcell₁]
      exact hc.cellOf.mpr ⟨b, hb, by omega, rfl⟩
    have := hown (rows - 1) _ hcellp (by omega) (by omega)
    omega
  · intro i
    exact ((hsteady.keeps dst).layers i).trans (hdom₁ i)
  · intro i p hp
    rw [rowAt_congr (ownRange_cellOf ..) (ownRange_regions ..)]
    exact hrows₁ i p hp

end

end KvCache
end Minfer.Graph
