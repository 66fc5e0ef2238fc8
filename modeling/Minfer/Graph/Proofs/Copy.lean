/-
What the row copies do, layer by layer, and the two operations built
from one copy: the prefix copy and the copy-on-write.

A plan that was copied without a refusal is `runMoves` in both regions of
every layer, and nothing else changed; a plan that was refused half-way
still kept every layer's shape and the whole bookkeeping (`copyPlan_frame`).
-/
import Minfer.Graph.Proofs.Inv

namespace Minfer.Graph

open Lib (InRun Apart memmove runMoves Move memmove_zero)

variable {ρ : Type}

/-- A relocation as a block move. -/
def KvMove.toMove (m : KvMove) : Move := ⟨m.fromCell, m.toCell, m.rows⟩

/-- A layer with a plan's rows moved. -/
def KvLayer.copied (moves : List KvMove) (l : KvLayer ρ) : KvLayer ρ :=
  { l with k := runMoves l.k (moves.map KvMove.toMove)
           v := runMoves l.v (moves.map KvMove.toMove) }

-- =========================== one layer

variable {env : KvEnv} {layer : Nat} {l l' : KvLayer ρ}
  {r : Except String Unit} {wrap : KvMove → String → String}
  {moves : List KvMove}

/-- A copy the region accepted is an in-bounds block move. -/
theorem copyCells_ok {isV : Bool}
    {dst src rows : Nat} {region region' : List ρ}
    (h : copyCells env layer isV dst src rows region = .ok region') :
    region' = memmove region dst src rows
      ∧ src + rows ≤ region.length ∧ dst + rows ≤ region.length := by
  unfold copyCells at h
  split at h
  · cases h
  · split at h
    · cases h
    · cases h
      exact ⟨rfl, by omega, by omega⟩

variable {m : KvMove} {n : Nat} {c c' : KvCache ρ}
  {ls : List (Nat × KvLayer ρ)}

/-- One move's copy keeps a layer's shape, whatever its outcome. -/
theorem copyMove_layerOk (hl : LayerOk n l)
    (h : copyMove env wrap layer l m = (r, l')) :
    LayerOk n l' := by
  unfold copyMove at h
  split at h
  · cases h
    exact hl
  next k hk =>
    obtain ⟨rfl, -, -⟩ := copyCells_ok hk
    split at h
    · cases h
      exact ⟨hl.owner_len, by simpa using hl.k_len, hl.v_len⟩
    next v hv =>
      obtain ⟨rfl, -, -⟩ := copyCells_ok hv
      cases h
      exact ⟨hl.owner_len, by simpa using hl.k_len, by simpa using hl.v_len⟩

/-- One move that was copied. -/
theorem copyMove_ok (h : copyMove env wrap layer l m = (.ok (), l')) :
    l' = l.copied [m] ∧ m.toMove.Fits l.k.length ∧ m.toMove.Fits l.v.length := by
  unfold copyMove at h
  split at h
  · cases h
  next k hk =>
    obtain ⟨rfl, hk₁, hk₂⟩ := copyCells_ok hk
    split at h
    · cases h
    next v hv =>
      obtain ⟨rfl, hv₁, hv₂⟩ := copyCells_ok hv
      cases h
      exact ⟨rfl, ⟨hk₁, hk₂⟩, ⟨hv₁, hv₂⟩⟩

/-- A plan's copies keep a layer's shape, whatever their outcome. -/
theorem copyMoves_layerOk (hl : LayerOk n l)
    (h : copyMoves env wrap layer l moves = (r, l')) :
    LayerOk n l' := by
  induction moves generalizing l with
  | nil =>
      cases h
      exact hl
  | cons m rest ih =>
      simp only [copyMoves] at h
      split at h
      · exact ih hl h
      · split at h
        next l₁ h₁ => exact ih (copyMove_layerOk hl h₁) h
        next e l₁ h₁ =>
          cases h
          exact copyMove_layerOk hl h₁

/-- Copying one move and then the rest is copying the whole plan. -/
theorem KvLayer.copied_cons (m : KvMove) (rest : List KvMove) (l : KvLayer ρ) :
    l.copied (m :: rest) = (l.copied [m]).copied rest := rfl

/-- A move of no rows copies nothing. -/
theorem KvLayer.copied_zero (hm : m.rows = 0) (l : KvLayer ρ) :
    l.copied [m] = l := by
  simp [copied, KvMove.toMove, hm, memmove_zero]

/-- A plan that was copied in one layer. -/
theorem copyMoves_ok (h : copyMoves env wrap layer l moves = (.ok (), l')) :
    l' = l.copied moves ∧ ∀ m ∈ moves, 0 < m.rows →
      m.toMove.Fits l.k.length ∧ m.toMove.Fits l.v.length := by
  induction moves generalizing l with
  | nil =>
      cases h
      exact ⟨rfl, fun m hm => nomatch hm⟩
  | cons m rest ih =>
      rw [KvLayer.copied_cons]
      simp only [copyMoves] at h
      split at h
      next hzero =>
        obtain ⟨rfl, hfit⟩ := ih h
        refine ⟨by rw [KvLayer.copied_zero hzero], fun m' hm' hpos => ?_⟩
        rcases List.mem_cons.mp hm' with rfl | hm'
        · omega
        · exact hfit m' hm' hpos
      next =>
        split at h
        next l₁ h₁ =>
          obtain ⟨rfl, hk, hv⟩ := copyMove_ok h₁
          obtain ⟨rfl, hfit⟩ := ih h
          refine ⟨rfl, fun m' hm' hpos => ?_⟩
          rcases List.mem_cons.mp hm' with rfl | hm'
          · exact ⟨hk, hv⟩
          · simpa [KvLayer.copied] using hfit m' hm' hpos
        next => cases h

-- ========================= every layer

/-- The copies touch nothing but the layers. -/
theorem copyLayers_frame (h : copyLayers env wrap moves c ls = (r, c')) :
    c' = { c with layers := c'.layers } := by
  induction ls generalizing c with
  | nil =>
      cases h
      rfl
  | cons e ls ih =>
      obtain ⟨layer, l⟩ := e
      simp only [copyLayers] at h
      split at h
      next l' _ =>
        have hrest := ih h
        exact hrest
      next =>
        cases h
        rfl

/-- The copies keep every layer's shape, whatever their outcome. -/
theorem copyLayers_layerOk (h : copyLayers env wrap moves c ls = (r, c'))
    (hls : ∀ e ∈ ls, LayerOk n e.2)
    (hc : ∀ (i : Nat) (l : KvLayer ρ), c.layers[i]? = some l → LayerOk n l)
    (i : Nat) (l : KvLayer ρ) (hl : c'.layers[i]? = some l) : LayerOk n l := by
  induction ls generalizing c with
  | nil =>
      cases h
      exact hc i l hl
  | cons e ls ih =>
      obtain ⟨layer, l₀⟩ := e
      have h₀ : LayerOk n l₀ := hls _ (List.mem_cons_self ..)
      -- the layer just written, and the ones that were there
      have hput : ∀ l₁ : KvLayer ρ, LayerOk n l₁ → ∀ (j : Nat) (l₂ : KvLayer ρ),
          (c.layers.insert layer l₁)[j]? = some l₂ → LayerOk n l₂ := by
        intro l₁ hl₁ j l₂ hj
        rw [getElem?_insert_nat] at hj
        split at hj
        · cases hj
          exact hl₁
        · exact hc j l₂ hj
      simp only [copyLayers] at h
      split at h
      next l₁ h₁ =>
        exact ih h (fun e he => hls e (List.mem_cons_of_mem _ he))
          (hput l₁ (copyMoves_layerOk h₀ h₁))
      next e l₁ h₁ =>
        cases h
        exact hput l₁ (copyMoves_layerOk h₀ h₁) i l hl

/-- A plan that was copied, over a list of layers with distinct indices. -/
theorem copyLayers_ok (hnd : (ls.map Prod.fst).Nodup)
    (h : copyLayers env wrap moves c ls = (.ok (), c')) :
    (∀ i, i ∉ ls.map Prod.fst → c'.layers[i]? = c.layers[i]?)
      ∧ ∀ i l, (i, l) ∈ ls → c'.layers[i]? = some (l.copied moves)
        ∧ ∀ m ∈ moves, 0 < m.rows →
          m.toMove.Fits l.k.length ∧ m.toMove.Fits l.v.length := by
  induction ls generalizing c with
  | nil =>
      cases h
      exact ⟨fun _ _ => rfl, fun i l hl => nomatch hl⟩
  | cons e ls ih =>
      obtain ⟨layer, l₀⟩ := e
      obtain ⟨hnotin, hnd⟩ := List.nodup_cons.mp hnd
      simp only [copyLayers] at h
      split at h
      next l₁ h₁ =>
        obtain ⟨rfl, hfit⟩ := copyMoves_ok h₁
        obtain ⟨hout, hin⟩ := ih hnd h
        constructor
        · intro i hi
          rw [List.map_cons, List.mem_cons, not_or] at hi
          rw [hout i hi.2, getElem?_insert_nat, if_neg (Ne.symm hi.1)]
        · intro i l hl
          rcases List.mem_cons.mp hl with heq | hl
          · cases heq
            exact ⟨by rw [hout layer hnotin, getElem?_insert_nat, if_pos rfl], hfit⟩
          · exact hin i l hl
      next => cases h

namespace KvCache

variable {c c' : KvCache ρ} {env : KvEnv}

/-- The copies touch nothing but the layers. -/
theorem copyPlan_frame {wrap : KvMove → String → String} {moves : List KvMove}
    {r : Except String Unit} (h : copyPlan env wrap moves c = (r, c')) :
    c'.seqs = c.seqs ∧ c'.spans = c.spans ∧ c'.nCtx = c.nCtx := by
  have hf := copyLayers_frame h
  rw [hf]
  exact ⟨rfl, rfl, rfl⟩

/-- A plan that was copied: both regions of every layer moved, every
nonempty move inside them. -/
theorem copyPlan_ok {wrap : KvMove → String → String} {moves : List KvMove}
    (h : copyPlan env wrap moves c = (.ok (), c')) :
    (∀ i : Nat, c'.layers[i]? = (c.layers[i]?).map (·.copied moves))
      ∧ ∀ (i : Nat) (l : KvLayer ρ), c.layers[i]? = some l → ∀ m ∈ moves, 0 < m.rows →
        m.toMove.Fits l.k.length ∧ m.toMove.Fits l.v.length := by
  obtain ⟨hout, hin⟩ := copyLayers_ok (nodup_keys_toList c.layers) h
  constructor
  · intro i
    cases hi : c.layers[i]? with
    | none =>
        rw [hout i, hi]
        · rfl
        · intro hmem
          obtain ⟨⟨j, l⟩, hjl, rfl⟩ := List.mem_map.mp hmem
          rw [Std.TreeMap.mem_toList_iff_getElem?_eq_some] at hjl
          simp [hi] at hjl
    | some l =>
        rw [(hin i l (Std.TreeMap.mem_toList_iff_getElem?_eq_some.mpr hi)).1]
        rfl
  · intro i l hl
    exact (hin i l (Std.TreeMap.mem_toList_iff_getElem?_eq_some.mpr hl)).2

theorem Inv.copyPlan {wrap : KvMove → String → String}
    {moves : List KvMove} {r : Except String Unit}
    (hc : c.Inv) (h : copyPlan env wrap moves c = (r, c')) : c'.Inv := by
  obtain ⟨hseqs, hspans, hn⟩ := copyPlan_frame h
  refine ⟨?_, ?_, ?_⟩
  · unfold KvCache.table
    rw [hn, hseqs]
    exact hc.table
  · intro s
    rw [hseqs, hspans]
    exact hc.spans s
  · rw [hn]
    refine copyLayers_layerOk h (fun e he => ?_) hc.layers
    exact hc.layers e.1 e.2 (Std.TreeMap.mem_toList_iff_getElem?_eq_some.mp he)

-- ========================= prefix copy

theorem Inv.kvCopyPrefix {src dst : SeqId}
    {rows : Nat} {r : Except String Unit} (hc : c.Inv)
    (h : c.kvCopyPrefix env src dst rows = (r, c')) : c'.Inv := by
  unfold KvCache.kvCopyPrefix at h
  split at h
  · cases h; exact hc
  split at h
  · cases h; exact hc
  split at h
  · cases h; exact hc
  split at h
  · cases h; exact hc
  split at h
  · cases h; exact hc
  split at h
  · cases h; exact hc
  split at h
  · cases h; exact hc
  simp only at h
  split at h
  next e c₁ h₁ =>
    cases h
    exact hc.copyPlan h₁
  next c₁ h₁ =>
    cases h
    exact (hc.copyPlan h₁).ownRange _ _ _

-- ======================= copy-on-write

/-- What `private_row_for` plans: nothing, or the shift that makes room
for position `t` at the start of the run. -/
theorem privateRowFor_cases {seq t : Nat} {o : Option KvShift}
    (h : c.privateRowFor seq t = .ok o) :
    (o = none ∧ ∀ slot, c.seqs[seq]? = some slot → slot.shared.rows ≤ t)
      ∨ ∃ slot, c.seqs[seq]? = some slot ∧ t < slot.shared.rows
        ∧ slot.privateWritten + (slot.shared.rows - t) ≤ slot.cap
        ∧ o = some ⟨seq, t, slot.start, slot.start + (slot.shared.rows - t),
            slot.privateWritten⟩ := by
  unfold privateRowFor at h
  split at h
  next hnone =>
    cases h
    exact .inl ⟨rfl, fun slot hs => by simp [hnone] at hs⟩
  next slot hslot =>
    split at h
    next hpriv =>
      cases h
      refine .inl ⟨rfl, fun slot' hs => ?_⟩
      rw [hslot] at hs
      cases hs
      omega
    next hshared =>
      simp only at h
      split at h
      · cases h
      · cases h
        exact .inr ⟨slot, hslot, by omega, by omega, rfl⟩

/-- What a successful `apply_private_row` did: the prefix shrank to the
shift's base; the layers kept their regions and shape. -/
theorem applyPrivateRow_cases {shift : KvShift}
    (h : c.applyPrivateRow shift = .ok c') :
    ∃ slot, c.seqs[shift.seq]? = some slot ∧ slot.start = shift.fromCell
      ∧ shift.base < slot.shared.rows ∧ slot.privateWritten = shift.rows
      ∧ (∀ s : SeqId, c'.seqs[s]? = if shift.seq = s then
          some { slot with shared := { slot.shared with rows := shift.base } }
        else c.seqs[s]?)
      ∧ (c.SpansOk → c'.SpansOk)
      ∧ c'.nCtx = c.nCtx
      ∧ c'.layers = c.layers.map fun _ l => shiftOwner shift l := by
  unfold applyPrivateRow at h
  split at h
  · cases h
  next slot hslot =>
    split at h
    · cases h
    next hstate =>
      split at h
      · cases h
      next hfit =>
        simp only at h
        cases h
        refine ⟨slot, hslot, by omega, by omega, by omega, fun s => ?_, fun hsp => ?_,
          by simp, rfl⟩
        · exact putSlot_seqs ..
        · exact SpansOk.of_eq (c := c.putSlot _ _) rfl rfl (hsp.putSlot _ _)

/-- A shift keeps a layer's shape and regions. -/
theorem shiftOwner_layerOk {n : Nat} {l : KvLayer ρ} (shift : KvShift)
    (hl : LayerOk n l) : LayerOk n (shiftOwner shift l) := by
  refine ⟨?_, hl.k_len, hl.v_len⟩
  simp only [shiftOwner, length_setOwnerIf]
  split
  · rw [Lib.length_memmove, hl.owner_len]
  · exact hl.owner_len

theorem Inv.applyPrivateRow {shift : KvShift} (hc : c.Inv)
    (hroom : ∀ slot, c.seqs[shift.seq]? = some slot →
      slot.privateWritten + (slot.shared.rows - shift.base) ≤ slot.cap)
    (h : c.applyPrivateRow shift = .ok c') : c'.Inv := by
  obtain ⟨slot, hslot, -, hbase, -, hseqs, hspans, hn, hlayers⟩ :=
    applyPrivateRow_cases h
  have hok := hc.table.ok shift.seq slot hslot
  have hfits := hroom slot hslot
  have hin := hok.shared_in
  have hle := hok.shared_le
  unfold SeqSlot.privateWritten at hfits
  refine ⟨?_, hspans hc.spans, ?_⟩
  · rw [hn]
    have hcut : SlotOk c.nCtx { slot with shared :=
        { slot.shared with rows := shift.base } } := by
      refine ⟨hok.cap_pos, hok.in_arena, Nat.le_trans (Nat.le_of_lt hbase) hle,
        ?_, ?_⟩
      · simp only
        omega
      · simp only
        omega
    refine hc.table.replace hslot hcut rfl rfl ?_ ?_
    · exact (hseqs shift.seq).trans (if_pos rfl)
    · exact fun s hs => (hseqs s).trans (if_neg (Ne.symm hs))
  · rw [hn, hlayers]
    exact layersOk_map hc.layers fun _ _ hl => shiftOwner_layerOk shift hl

theorem Inv.kvPrivateRowFor {seq t : Nat} {r : Except String (Option KvShift)}
    (hc : c.Inv) (h : c.kvPrivateRowFor env seq t = (r, c')) : c'.Inv := by
  unfold KvCache.kvPrivateRowFor at h
  split at h
  · cases h; exact hc
  · cases h; exact hc
  next shift hshift =>
    rcases privateRowFor_cases hshift with ⟨hcon, -⟩ | ⟨slot, hslot, -, hroom, heq⟩
    · cases hcon
    simp only at h
    split at h
    next e c₁ h₁ =>
      cases h
      exact hc.copyPlan h₁
    next c₁ h₁ =>
      have hc₁ := hc.copyPlan h₁
      split at h
      · cases h
        exact hc₁
      next c₂ h₂ =>
        cases h
        refine hc₁.applyPrivateRow (fun slot' hs => ?_) h₂
        obtain ⟨hseqs, -, -⟩ := copyPlan_frame h₁
        cases heq
        rw [hseqs, hslot] at hs
        cases hs
        exact hroom

end KvCache
end Minfer.Graph
