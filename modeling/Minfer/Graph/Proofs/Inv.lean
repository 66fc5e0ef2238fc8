/-
The invariant of the KV arena and the operations other than compaction
that keep it.

`TableInv` is about the run table alone: runs are non-empty, inside the
arena and pairwise disjoint, a sequence has written at least its shared
prefix and at most what its spans cover. It deliberately says nothing
about where a shared prefix points: a prefix outlives its donor, and which
cells it then occupies is exactly what compaction gets wrong.
-/
import Minfer.Graph.Proofs.Table

namespace Minfer.Graph

open Lib (InRun Apart memmove runMoves)

variable {ρ : Type}

-- ======================= the invariant

/-- One well-formed slot of an arena of `n` cells. -/
structure SlotOk (n : Nat) (slot : SeqSlot) : Prop where
  cap_pos : 0 < slot.cap
  in_arena : slot.start + slot.cap ≤ n
  shared_le : slot.shared.rows ≤ slot.written
  written_le : slot.written ≤ slot.shared.rows + slot.cap
  shared_in : slot.shared.rows = 0 ∨ slot.shared.cell + slot.shared.rows ≤ n

/-- A well-formed run table: every slot is, and runs do not overlap. -/
structure TableInv (n : Nat) (tbl : SeqId → Option SeqSlot) : Prop where
  ok : ∀ s slot, tbl s = some slot → SlotOk n slot
  apart : ∀ s t a b, s ≠ t → tbl s = some a → tbl t = some b →
    a.start + a.cap ≤ b.start ∨ b.start + b.cap ≤ a.start

/-- The regions and the owner table of a layer have one entry per cell. -/
structure LayerOk (n : Nat) (l : KvLayer ρ) : Prop where
  owner_len : l.owner.length = n
  k_len : l.k.length = n
  v_len : l.v.length = n

namespace KvCache

/-- The run table as a function. -/
def table (c : KvCache ρ) : SeqId → Option SeqSlot := fun s => c.seqs[s]?

/-- The arena invariant. -/
structure Inv (c : KvCache ρ) : Prop where
  table : TableInv c.nCtx c.table
  spans : c.SpansOk
  layers : ∀ (i : Nat) (l : KvLayer ρ), c.layers[i]? = some l → LayerOk c.nCtx l

end KvCache

-- ======================= table updates

/-- Replacing one slot keeps a table well formed when the new slot is and
stays clear of the others. -/
theorem TableInv.update {n : Nat} {tbl tbl' : SeqId → Option SeqSlot}
    (ht : TableInv n tbl) {seq : SeqId} {slot : SeqSlot} (hok : SlotOk n slot)
    (hself : tbl' seq = some slot) (hrest : ∀ s, s ≠ seq → tbl' s = tbl s)
    (hclear : ∀ s a, s ≠ seq → tbl s = some a →
      a.start + a.cap ≤ slot.start ∨ slot.start + slot.cap ≤ a.start) :
    TableInv n tbl' := by
  constructor
  · intro s a ha
    by_cases hs : s = seq
    · subst hs
      rw [hself] at ha
      cases ha
      exact hok
    · exact ht.ok s a (hrest s hs ▸ ha)
  · intro s t a b hst ha hb
    by_cases hs : s = seq
    · subst hs
      rw [hself] at ha
      cases ha
      rw [hrest t (Ne.symm hst)] at hb
      exact (hclear t b (Ne.symm hst) hb).symm
    · rw [hrest s hs] at ha
      by_cases htq : t = seq
      · subst htq
        rw [hself] at hb
        cases hb
        exact hclear s a hs ha
      · rw [hrest t htq] at hb
        exact ht.apart s t a b hst ha hb

/-- A slot changed in place, keeping its run, keeps the table well
formed. -/
theorem TableInv.replace {n : Nat} {tbl tbl' : SeqId → Option SeqSlot}
    (ht : TableInv n tbl) {seq : SeqId} {old slot : SeqSlot}
    (hold : tbl seq = some old) (hok : SlotOk n slot)
    (hstart : slot.start = old.start) (hcap : slot.cap = old.cap)
    (hself : tbl' seq = some slot) (hrest : ∀ s, s ≠ seq → tbl' s = tbl s) :
    TableInv n tbl' := by
  refine ht.update hok hself hrest fun s a hs ha => ?_
  rw [hstart, hcap]
  exact ht.apart s seq a old hs ha hold

namespace KvCache

/-- The table after `putSlot`. -/
theorem putSlot_table (c : KvCache ρ) (seq : SeqId) (slot : SeqSlot) (s : SeqId) :
    (c.putSlot seq slot).table s = if seq = s then some slot else c.table s :=
  putSlot_seqs c seq s slot

variable {c c' : KvCache ρ} {seq : SeqId} {slot : SeqSlot}

/-- `putSlot` with a slot that keeps the old run. -/
theorem Inv.putSlot_same_run (hc : c.Inv)
    {old : SeqSlot} (hold : c.seqs[seq]? = some old)
    (hok : SlotOk c.nCtx slot) (hstart : slot.start = old.start)
    (hcap : slot.cap = old.cap) : (c.putSlot seq slot).Inv := by
  refine ⟨?_, hc.spans.putSlot seq slot, ?_⟩
  · rw [putSlot_nCtx]
    refine hc.table.replace hold hok hstart hcap ?_ ?_
    · rw [putSlot_table, if_pos rfl]
    · intro s hs
      rw [putSlot_table, if_neg (Ne.symm hs)]
  · intro i l hl
    rw [putSlot_layers] at hl
    rw [putSlot_nCtx]
    exact hc.layers i l hl

/-- A table with the same lookups is as well formed. -/
theorem Inv.of_lookups (hc : c.Inv)
    (hseqs : ∀ s : SeqId, c'.seqs[s]? = c.seqs[s]?) (hsp : c'.SpansOk)
    (hlayers : ∀ (i : Nat) (l : KvLayer ρ), c'.layers[i]? = some l →
      LayerOk c.nCtx l) (hn : c'.nCtx = c.nCtx) : c'.Inv := by
  have htable : c'.table = c.table := funext hseqs
  refine ⟨?_, hsp, ?_⟩
  · rw [hn, htable]
    exact hc.table
  · rw [hn]
    exact hlayers

-- ========================= reservation

/-- What a successful `reserve_seq` did: returned the run that was there,
or placed a fresh one on free cells. -/
theorem reserveSeq_cases {seq cap : Nat}
    (h : c.reserveSeq seq cap = .ok (slot, c')) :
    (c.seqs[seq]? = some slot ∧ cap ≤ slot.cap ∧ c' = c)
      ∨ (c.seqs[seq]? = none ∧ slot = SeqSlot.new slot.start cap ∧ 0 < cap
          ∧ slot.start + cap ≤ c.nCtx
          ∧ (∀ cell, InRun slot.start cap cell → c.occupied[cell]? = some false)
          ∧ c' = c.putSlot seq slot) := by
  unfold reserveSeq at h
  split at h
  next => cases h
  next hcap =>
    split at h
    next old hold =>
      split at h
      next hle =>
        cases h
        exact .inl ⟨hold, hle, rfl⟩
      next => cases h
    next hnone =>
      split at h
      next => cases h
      next =>
        split at h
        next start hfit =>
          cases h
          obtain ⟨-, hend, hfree⟩ :=
            firstFit_spec (Nat.le_refl 0) (by omega) (by omega) hfit
          refine .inr ⟨hnone, rfl, by omega, by simpa [SeqSlot.new] using hend,
            ?_, rfl⟩
          intro cell hin
          simpa using hfree cell (by simpa [SeqSlot.new] using hin) (Nat.zero_le _)
        next => cases h

theorem Inv.reserveSeq {seq cap : Nat}
    (hc : c.Inv) (h : c.reserveSeq seq cap = .ok (slot, c')) : c'.Inv := by
  rcases reserveSeq_cases h with ⟨-, -, rfl⟩ | ⟨hnone, hslot, hcap, hin, hfree, rfl⟩
  · exact hc
  · refine ⟨?_, hc.spans.putSlot seq slot, ?_⟩
    · rw [putSlot_nCtx]
      have hok : SlotOk c.nCtx slot := by
        rw [hslot]
        exact ⟨hcap, hin, Nat.le_refl _, by simp [SeqSlot.new], .inl rfl⟩
      refine hc.table.update hok
        ((putSlot_table c seq slot seq).trans (if_pos rfl)) ?_ ?_
      · intro s hs
        rw [putSlot_table, if_neg (Ne.symm hs)]
      · intro s a _ ha
        have hcapeq : slot.cap = cap := by rw [hslot]; rfl
        refine Apart.le_or_le (fun cell hcell hcell' => ?_)
          (hc.table.ok s a ha).cap_pos (by omega)
        rw [hcapeq] at hcell'
        exact (not_occupied hc.spans (hfree cell hcell') ha).1 hcell
    · intro i l hl
      rw [putSlot_layers] at hl
      rw [putSlot_nCtx]
      exact hc.layers i l hl

-- ============================= release

@[simp] theorem length_setOwnerIf (owner : List SeqId) (lo hi : Nat)
    (p : SeqId → Bool) (seq : SeqId) :
    (setOwnerIf owner lo hi p seq).length = owner.length := by
  simp [setOwnerIf]

/-- Mapping the layers with a function that keeps their shape keeps the
layer invariant. -/
theorem layersOk_map {n : Nat} {f : Nat → KvLayer ρ → KvLayer ρ}
    (hc : ∀ (i : Nat) (l : KvLayer ρ), c.layers[i]? = some l → LayerOk n l)
    (hf : ∀ i l, LayerOk n l → LayerOk n (f i l)) (i : Nat) (l : KvLayer ρ)
    (hl : (c.layers.map f)[i]? = some l) : LayerOk n l := by
  rw [getElem?_map_nat] at hl
  obtain ⟨l₀, h₀, rfl⟩ := Option.map_eq_some_iff.mp hl
  exact hf i l₀ (hc i l₀ h₀)

/-- The table after a release: one entry gone. -/
theorem releaseSeq_table (c : KvCache ρ) (seq s : SeqId) :
    (c.releaseSeq seq).2.table s = if seq = s then none else c.table s := by
  unfold releaseSeq table
  split
  next hnone =>
    by_cases hs : seq = s
    · simpa [← hs] using hnone
    · simp [hs]
  next slot hslot => simp [getElem?_erase_nat]

@[simp] theorem releaseSeq_nCtx (c : KvCache ρ) (seq : SeqId) :
    (c.releaseSeq seq).2.nCtx = c.nCtx := by
  unfold releaseSeq
  split <;> simp

theorem Inv.releaseSeq (hc : c.Inv) (seq : SeqId) :
    (c.releaseSeq seq).2.Inv := by
  refine ⟨?_, ?_, ?_⟩
  · rw [releaseSeq_nCtx]
    constructor
    · intro s slot hs
      rw [releaseSeq_table] at hs
      split at hs
      · cases hs
      · exact hc.table.ok s slot hs
    · intro s t a b hst ha hb
      rw [releaseSeq_table] at ha hb
      split at ha
      · cases ha
      · split at hb
        · cases hb
        · exact hc.table.apart s t a b hst ha hb
  · unfold KvCache.releaseSeq
    split
    next => exact hc.spans
    next slot hslot =>
      exact spansOk_refresh (t := c.seqs.erase seq) hc.spans
        fun s hs => by simp [getElem?_erase_nat, hs]
  · rw [releaseSeq_nCtx]
    unfold KvCache.releaseSeq
    split
    next => exact hc.layers
    next slot hslot =>
      refine layersOk_map (by simpa using hc.layers) fun i l hl => ?_
      exact ⟨by simpa using hl.owner_len, hl.k_len, hl.v_len⟩

-- =========================== ownership

/-- A cell of a slot's spans holds a position inside what they cover. -/
theorem posOfCell_lt (hc : c.SpansOk) {seq cell pos : Nat}
    (hslot : c.seqs[seq]? = some slot) (h : c.posOfCell seq cell = some pos) :
    pos < slot.shared.rows + slot.cap := by
  unfold posOfCell at h
  rw [hc seq, hslot] at h
  simp only [Option.bind_some] at h
  split at h
  next => cases h
  next spans hspans =>
    simp only [SeqSlot.spanEntry] at hspans
    split at hspans
    · cases hspans
    · cases hspans
      obtain ⟨p, hp, hval⟩ := List.exists_of_findSome?_eq_some h
      split at hval
      next hin =>
        cases hval
        simp only [SeqSlot.spanList, List.mem_append] at hp
        rcases hp with hp | hp <;> split at hp <;> simp at hp <;> subst hp <;>
          simp at hin ⊢ <;> omega
      next => cases hval

/-- Owning cells raises the written extent, never past what the spans
cover. -/
theorem raiseWritten_bounds (hc : c.SpansOk) (hslot : c.seqs[seq]? = some slot)
    (cells : List Nat) {w : Nat} (hw : w ≤ slot.shared.rows + slot.cap) :
    w ≤ c.raiseWritten seq w cells
      ∧ c.raiseWritten seq w cells ≤ slot.shared.rows + slot.cap := by
  induction cells generalizing w with
  | nil => exact ⟨Nat.le_refl _, hw⟩
  | cons cell cells ih =>
      have hstep : (((c.posOfCell seq cell).map (· + 1)).getD 0)
          ≤ slot.shared.rows + slot.cap := by
        cases hp : c.posOfCell seq cell with
        | none => exact Nat.zero_le _
        | some pos => exact posOfCell_lt hc hslot hp
      have := ih (w := max w (((c.posOfCell seq cell).map (· + 1)).getD 0)) (by omega)
      exact ⟨Nat.le_trans (Nat.le_max_left ..) this.1, this.2⟩

/-- The table after `own_range`: one written extent changed. -/
theorem ownRange_table (c : KvCache ρ) (seq lo hi : Nat) (s : SeqId) :
    (c.ownRange seq lo hi).table s = (c.table s).map fun slot =>
      if seq = s then
        { slot with
          written := c.raiseWritten seq slot.written (List.range' lo (hi - lo)) }
      else slot := by
  unfold KvCache.ownRange KvCache.table
  by_cases hs : seq = s
  · subst hs
    cases hslot : c.seqs[seq]? <;> simp [hslot]
  · cases hslot : c.seqs[s]? <;> cases c.seqs[seq]? <;>
      simp [getElem?_insert_nat, hs, hslot]

@[simp] theorem ownRange_nCtx (c : KvCache ρ) (seq lo hi : Nat) :
    (c.ownRange seq lo hi).nCtx = c.nCtx := by
  simp only [ownRange]
  split <;> rfl

@[simp] theorem ownRange_spans (c : KvCache ρ) (seq lo hi : Nat) :
    (c.ownRange seq lo hi).spans = c.spans := by
  simp only [ownRange]
  split <;> rfl

theorem SpansOk.ownRange (hc : c.SpansOk) (seq lo hi : Nat) :
    (c.ownRange seq lo hi).SpansOk := by
  intro s
  have hw := ownRange_table c seq lo hi s
  unfold KvCache.table at hw
  rw [ownRange_spans, hc s, hw]
  cases c.seqs[s]? with
  | none => rfl
  | some slot =>
      simp only [Option.map_some, Option.bind_some]
      -- the span list does not read the written extent
      split <;> rfl

theorem Inv.ownRange (hc : c.Inv) (seq lo hi : Nat) :
    (c.ownRange seq lo hi).Inv := by
  refine ⟨?_, ?_, ?_⟩
  · rw [ownRange_nCtx]
    constructor
    · intro s slot h
      rw [ownRange_table] at h
      obtain ⟨slot₀, h₀, rfl⟩ := Option.map_eq_some_iff.mp h
      have hok := hc.table.ok s slot₀ h₀
      split
      next hs =>
        subst hs
        obtain ⟨hlo, hhi⟩ := raiseWritten_bounds hc.spans h₀
          (List.range' lo (hi - lo)) hok.written_le
        exact ⟨hok.cap_pos, hok.in_arena, Nat.le_trans hok.shared_le hlo, hhi,
          hok.shared_in⟩
      next => exact hok
    · intro s t a b hst ha hb
      rw [ownRange_table] at ha hb
      obtain ⟨a₀, ha₀, rfl⟩ := Option.map_eq_some_iff.mp ha
      obtain ⟨b₀, hb₀, rfl⟩ := Option.map_eq_some_iff.mp hb
      have := hc.table.apart s t a₀ b₀ hst ha₀ hb₀
      split <;> split <;> simpa using this
  · exact hc.spans.ownRange seq lo hi
  · intro i l hl
    rw [ownRange_nCtx]
    have hl' : (c.layers.map fun _ l =>
        { l with owner := setOwnerIf l.owner (min lo (min hi l.owner.length))
                   (min hi l.owner.length) (fun _ => true) seq
                 nUsed := max l.nUsed (min hi l.owner.length) })[i]? = some l := by
      simp only [KvCache.ownRange] at hl
      split at hl <;> exact hl
    refine layersOk_map hc.layers (fun j l₀ h₀ => ?_) i l hl'
    exact ⟨by simpa using h₀.owner_len, h₀.k_len, h₀.v_len⟩

theorem Inv.ownPositions {positions : List Nat} {r : Except String Unit}
    (hc : c.Inv) (h : c.ownPositions seq positions = (r, c')) : c'.Inv := by
  induction positions generalizing c with
  | nil =>
      cases h
      exact hc
  | cons pos rest ih =>
      simp only [KvCache.ownPositions] at h
      split at h
      next =>
        cases h
        exact hc
      next cell _ => exact ih (hc.ownRange seq cell (cell + 1)) h

/-- Storing rows touches nothing but the regions. -/
theorem storeRows_layer {n : Nat} {positions : List Nat} {rows : Stores ρ}
    {i : Nat} {l : KvLayer ρ} (hl : LayerOk n l) :
    LayerOk n (positions.foldl (fun l pos => match c.cellOf seq pos with
      | some cell => { l with k := l.k.set cell (rows i pos).1
                              v := l.v.set cell (rows i pos).2 }
      | none => l) l) := by
  induction positions generalizing l with
  | nil => exact hl
  | cons pos rest ih =>
      rw [List.foldl_cons]
      refine ih ?_
      split
      · exact ⟨hl.owner_len, by simpa using hl.k_len, by simpa using hl.v_len⟩
      · exact hl

theorem Inv.storeRows (hc : c.Inv) (seq : SeqId)
    (positions : List Nat) (rows : Stores ρ) : (c.storeRows seq positions rows).Inv :=
  ⟨hc.table, hc.spans, layersOk_map hc.layers fun _ _ hl => storeRows_layer hl⟩

-- ============================= sharing

/-- What a successful `share_prefix` did: `dst`, private and unwritten so
far, reads the donor's first `rows` positions where they lie. -/
theorem sharePrefix_cases {src dst : SeqId} {rows : Nat}
    (h : c.sharePrefix src dst rows = .ok c') :
    ∃ donor slot cell, 0 < rows ∧ src ≠ dst ∧ c.seqs[src]? = some donor
      ∧ rows ≤ donor.written ∧ c.seqs[dst]? = some slot ∧ slot.shared.rows = 0
      ∧ slot.written = 0 ∧ c.cellOf src 0 = some cell
      ∧ c.cellOf src (rows - 1) = some (cell + rows - 1)
      ∧ c' = c.putSlot dst { slot with shared := ⟨cell, rows⟩, written := rows } := by
  unfold sharePrefix at h
  split at h
  · cases h
  split at h
  · cases h
  split at h
  · cases h
  next donor hdonor =>
    split at h
    · cases h
    split at h
    · cases h
    next slot hslot =>
      split at h
      · cases h
      split at h
      · cases h
      split at h
      · cases h
      next cell hcell =>
        split at h
        next hlast =>
          cases h
          exact ⟨donor, slot, cell, by omega, by omega, hdonor, by omega, hslot,
            by omega, by omega, hcell, hlast, rfl⟩
        · cases h

/-- A resolved cell lies in the arena. -/
theorem Inv.cellOf_lt (hc : c.Inv) {seq pos cell : Nat}
    (h : c.cellOf seq pos = some cell) : cell < c.nCtx := by
  rw [cellOf_eq hc.spans] at h
  obtain ⟨slot, hslot, hcell⟩ := Option.bind_eq_some_iff.mp h
  have hok := hc.table.ok seq slot hslot
  have hin := hok.in_arena
  have hsh := hok.shared_in
  unfold SeqSlot.cellAt at hcell
  split at hcell
  · cases hcell
    omega
  · split at hcell
    · cases hcell
      omega
    · cases hcell

theorem Inv.sharePrefix (hc : c.Inv) {src dst : SeqId}
    {rows : Nat} (h : c.sharePrefix src dst rows = .ok c') : c'.Inv := by
  obtain ⟨donor, slot, cell, hpos, -, -, -, hslot, -, -, -, hlast, rfl⟩ :=
    sharePrefix_cases h
  have hok := hc.table.ok dst slot hslot
  have hlt := hc.cellOf_lt hlast
  refine hc.putSlot_same_run hslot ⟨hok.cap_pos, hok.in_arena, Nat.le_refl _, ?_, ?_⟩
    rfl rfl
  · exact Nat.le_add_right _ _
  · simp only
    omega

end KvCache
end Minfer.Graph
