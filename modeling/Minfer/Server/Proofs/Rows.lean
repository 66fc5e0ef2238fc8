/-
What a forward does to the rows a sequence reads, in an arena without
shared prefixes.

`Described c s h` says that the first rows of sequence `s` are the rows of
the token sequence `h`, in every layer. A forward that succeeds extends
the description of every sequence it carries; one that fails keeps every
description that the rows it wrote agree with.
-/
import Minfer.Graph.Proofs.Keeps
import Minfer.Server.Engine

namespace Minfer.Server

open Minfer.Graph (KvCache KvLayer SeqId Batch LayerOk)
open Minfer.Graph.KvCache (Keeps Solo Steady)

variable {Λ σ : Type}

-- ========================= description

/-- The rows of `s` at its first positions are the rows of `h`. -/
structure Described (c : KvCache Row) (s : SeqId) (h : List Token) : Prop where
  written : h.length ≤ c.writtenRows s
  rows : ∀ i : Nat, c.layers[i]? ≠ none → ∀ p < h.length,
    c.rowAt i s p = some (some (h.take (p + 1)), some (h.take (p + 1)))

theorem Described.nil (c : KvCache Row) (s : SeqId) : Described c s [] :=
  ⟨Nat.zero_le _, fun _ _ p hp => absurd hp (Nat.not_lt_zero p)⟩

variable {c : KvCache Row} {h : List Token} {s : SeqId} {i cell : Nat}

theorem Described.keeps {c' : KvCache Row}
    (hd : Described c s h) (hk : Keeps s c c') : Described c' s h where
  written := Nat.le_trans hd.written hk.written
  rows i hi p hp := by
    rw [hk.rows i p (Nat.lt_of_lt_of_le hp hd.written)]
    exact hd.rows i (fun hnone => hi ((hk.layers i).mpr hnone)) p hp

theorem Described.take
    (hd : Described c s h) (n : Nat) : Described c s (h.take n) where
  written := Nat.le_trans (List.length_take_le' n h) hd.written
  rows i hi p hp := by
    rw [List.length_take] at hp
    rw [List.take_take, Nat.min_eq_left (by omega)]
    exact hd.rows i hi p (by omega)

/-- The rows a description names are what a forward reads. -/
theorem Described.readContext (hd : Described c s h) {l : KvLayer Row}
    (hl : c.layers[i]? = some l) {n : Nat} (hn : n ≤ h.length) :
    readContext c l s n = some (h.take n) := by
  induction n with
  | zero => rfl
  | succ n ih =>
      have hrow := hd.rows i (by rw [hl]; exact nofun) n (by omega)
      unfold KvCache.rowAt at hrow
      rw [hl] at hrow
      cases hcell : c.cellOf s n with
      | none => simp [hcell] at hrow
      | some cell =>
          simp only [hcell] at hrow
          obtain ⟨k, hk, hrow⟩ := Option.bind_eq_some_iff.mp hrow
          obtain ⟨v, hv, hrow⟩ := Option.map_eq_some_iff.mp hrow
          cases hrow
          rw [Server.readContext, ih (by omega), hcell, Option.bind_some,
            Option.bind_some,
            hk, hv]
          simp only
          rw [if_pos]
          refine ⟨trivial, ?_, ?_⟩
          · rw [List.take_take, Nat.min_eq_left (by omega)]
          · rw [List.length_take, Nat.min_eq_left hn]

-- ============================== writes

@[simp] theorem writeCell_cellOf (c : KvCache Row) (cell : Nat)
    (row : KvLayer Row → Row)
    (s : SeqId) (p : Nat) : (writeCell c cell row).cellOf s p = c.cellOf s p := rfl

@[simp] theorem writeCell_writtenRows (c : KvCache Row) (cell : Nat)
    (row : KvLayer Row → Row)
    (s : SeqId) : (writeCell c cell row).writtenRows s = c.writtenRows s := rfl

theorem writeCell_layers (c : KvCache Row) (cell : Nat)
    (row : KvLayer Row → Row) (i : Nat) :
    (writeCell c cell row).layers[i]? = (c.layers[i]?).map fun l =>
      { l with k := l.k.set cell (row l), v := l.v.set cell (row l) } := by
  rw [writeCell, Graph.getElem?_map_nat]

theorem writeCell_layers_none {row : KvLayer Row → Row} :
    (writeCell c cell row).layers[i]? = none ↔ c.layers[i]? = none := by
  rw [writeCell_layers, Option.map_eq_none_iff]

theorem solo_writeCell (hc : c.Solo) (cell : Nat) (row : KvLayer Row → Row) :
    (writeCell c cell row).Solo := by
  refine ⟨⟨hc.inv.table, hc.inv.spans, fun i l hl => ?_⟩, hc.alone⟩
  rw [writeCell_layers] at hl
  obtain ⟨l₀, hl₀, rfl⟩ := Option.map_eq_some_iff.mp hl
  have hok := hc.inv.layers i l₀ hl₀
  exact ⟨hok.owner_len, (List.length_set ..).trans hok.k_len,
    (List.length_set ..).trans hok.v_len⟩

/-- Another cell reads as before. -/
theorem rowAt_writeCell_ne
    {row : KvLayer Row → Row} {p : Nat} (hne : c.cellOf s p ≠ some cell) :
    (writeCell c cell row).rowAt i s p = c.rowAt i s p := by
  unfold KvCache.rowAt
  rw [writeCell_cellOf, writeCell_layers]
  cases hcell : c.cellOf s p with
  | none => rfl
  | some x =>
      have hx : cell ≠ x := by
        rintro rfl
        exact hne hcell
      cases c.layers[i]? with
      | none => rfl
      | some l => simp only [Option.map_some, List.getElem?_set_ne hx]

/-- The written cell reads as the row. -/
theorem rowAt_writeCell_self (hc : c.Solo) {row : KvLayer Row → Row} {p : Nat}
    (hcell : c.cellOf s p = some cell) {l : KvLayer Row}
    (hl : c.layers[i]? = some l) :
    (writeCell c cell row).rowAt i s p = some (row l, row l) := by
  have hlt := hc.inv.cellOf_lt hcell
  have hok := hc.inv.layers i l hl
  unfold KvCache.rowAt
  rw [writeCell_cellOf, writeCell_layers, hcell, hl]
  simp [hok.k_len, hok.v_len, hlt]

/-- A row of another sequence, or past the description, does not touch
it. -/
theorem Described.writeCell (hc : c.Solo) {t : SeqId} (hd : Described c s h)
    {q : Nat} (hcell : c.cellOf t q = some cell) (row : KvLayer Row → Row)
    (hrow : t = s → q < h.length → ∀ l, row l = some (h.take (q + 1))) :
    Described (writeCell c cell row) s h where
  written := hd.written
  rows i hi p hp := by
    by_cases hsame : c.cellOf s p = some cell
    · obtain ⟨rfl, rfl⟩ := hc.cellOf_inj hcell hsame
      cases hl : c.layers[i]? with
      | none => exact absurd (writeCell_layers_none.mpr hl) hi
      | some l => rw [rowAt_writeCell_self hc hsame hl, hrow rfl hp l]
    · rw [rowAt_writeCell_ne hsame]
      exact hd.rows i (fun hnone => hi (writeCell_layers_none.mpr hnone)) p hp

/-- The row a forward computes right after a description extends it. -/
theorem Described.append (hc : c.Solo) (hd : Described c s h)
    (hcell : c.cellOf s h.length = some cell) (hw : h.length < c.writtenRows s)
    (tok : Token) :
    Described (Server.writeCell c cell fun l => computeRow c l s h.length tok)
      s (h ++ [tok]) where
  written := by
    rw [writeCell_writtenRows, List.length_append, List.length_singleton]
    exact hw
  rows i hi p hp := by
    rw [List.length_append, List.length_singleton] at hp
    cases hl : c.layers[i]? with
    | none => exact absurd (writeCell_layers_none.mpr hl) hi
    | some l =>
    by_cases hlast : p = h.length
    · subst hlast
      rw [rowAt_writeCell_self hc hcell hl, computeRow,
        hd.readContext hl (Nat.le_refl _),
        List.take_of_length_le (Nat.le_refl _), Option.map_some,
          List.take_of_length_le (by simp)]
    · have hne : c.cellOf s p ≠ some cell :=
        fun hsame => hlast (hc.cellOf_inj hsame hcell).2
      rw [rowAt_writeCell_ne hne, List.take_append_of_le_length (by omega)]
      exact hd.rows i (by rw [hl]; exact nofun) p (by omega)

-- ============================= batches

/-- What a batch carries for a sequence, in order: positions and tokens. -/
def fed (b : Batch) (s : SeqId) : List (Nat × Token) :=
  (b.seqIds.zip (b.positions.zip b.tokens)).filterMap fun e =>
    if e.1 = s then some e.2 else none

/-- An entry's position and token, if it is one of `s`. -/
def entryOf (s : SeqId) (e : (SeqId × Nat) × Token × Nat) : Option (Nat × Token) :=
  if e.1.1 = s then some (e.1.2, e.2.1) else none

theorem filterMap_batchEntries {b : Batch} (cells : List Nat)
    (hlen : b.tokens.length ≤ cells.length) (s : SeqId) :
    (batchEntries b cells).filterMap (entryOf s) = fed b s := by
  have hzip : ∀ (ids ps ts cs : List Nat), ts.length ≤ cs.length →
      ((ids.zip ps).zip (ts.zip cs)).map (fun e => (e.1.1, (e.1.2, e.2.1)))
        = ids.zip (ps.zip ts) := by
    intro ids
    induction ids with
    | nil => intro ps ts cs _; rfl
    | cons id ids ih =>
        intro ps ts cs hle
        rcases ps with _ | ⟨p, ps⟩
        · rfl
        rcases ts with _ | ⟨t, ts⟩
        · rfl
        rcases cs with _ | ⟨x, cs⟩
        · simp at hle
        · simp only [List.zip_cons_cons, List.map_cons]
          rw [ih ps ts cs (by simpa using hle)]
  rw [fed, ← hzip b.seqIds b.positions b.tokens cells hlen, List.filterMap_map]
  rfl

/-- Stores in order extend a description they continue. -/
theorem Described.storeBatch :
    ∀ {E : List ((SeqId × Nat) × Token × Nat)} {c : KvCache Row}
      {h : List Token}, c.Solo →
      (∀ e ∈ E, c.cellOf e.1.1 e.1.2 = some e.2.2 ∧ e.1.2 < c.writtenRows e.1.1) →
      Described c s h →
      (E.filterMap (entryOf s)).map (·.1)
        = List.range' h.length (E.filterMap (entryOf s)).length →
      Described (storeBatch c E) s (h ++ (E.filterMap (entryOf s)).map (·.2)) := by
  intro E
  induction E with
  | nil =>
      intro c h _ _ hd _
      simpa [Server.storeBatch] using hd
  | cons e E ih =>
      intro c h hc hcells hd hpos
      obtain ⟨⟨t, p⟩, tok, cell⟩ := e
      obtain ⟨hcell, hw⟩ := hcells _ List.mem_cons_self
      simp only at hcell hw
      have hrest : ∀ e ∈ E,
          (Server.writeCell c cell fun l => computeRow c l t p tok).cellOf
          e.1.1 e.1.2 = some e.2.2
          ∧ e.1.2 < (Server.writeCell c cell fun l =>
            computeRow c l t p tok).writtenRows e.1.1 :=
        fun e' he' => hcells e' (List.mem_cons_of_mem _ he')
      have hc' := solo_writeCell hc cell fun l => computeRow c l t p tok
      rw [Server.storeBatch]
      by_cases hts : t = s
      · subst hts
        have hone : entryOf t ((t, p), tok, cell) = some (p, tok) := by simp [entryOf]
        rw [List.filterMap_cons_some hone] at hpos ⊢
        simp only [List.map_cons, List.length_cons, List.range'_succ,
          List.cons.injEq] at hpos
        obtain ⟨rfl, hpos⟩ := hpos
        have hnext := ih hc' hrest (hd.append hc hcell hw tok) (by
          rw [List.length_append, List.length_singleton]
          exact hpos)
        simpa using hnext
      · have hnone : entryOf s ((t, p), tok, cell) = none := by simp [entryOf, hts]
        rw [List.filterMap_cons_none hnone] at hpos ⊢
        exact ih hc' hrest (hd.writeCell hc hcell _ fun h => absurd h hts) hpos

theorem solo_storeBatch :
    ∀ {E : List ((SeqId × Nat) × Token × Nat)} {c : KvCache Row}, c.Solo →
      (Server.storeBatch c E).Solo := by
  intro E
  induction E with
  | nil => exact fun hc => hc
  | cons e E ih => exact fun hc => ih (solo_writeCell hc _ _)

/-- The rows a failed forward wrote, by index in its batch. -/
def failedWrites (w : World Λ σ) (n : Nat) (c : KvCache Row) (b : Batch)
    (k : Nat) : Option Row :=
  match w.failure n, (c.fillBatchInputs w.kvEnv b).1 with
  | some f, .ok _ => if f.early then none else f.wrote k
  | _, _ => none

/-- A failed forward wrote nothing below the end of a description that
disagrees with it. -/
def Harmless (w : World Λ σ) (n : Nat) (c : KvCache Row) (b : Batch)
    (s : SeqId) (h : List Token) : Prop :=
  ∀ k row p, failedWrites w n c b k = some row → b.seqIds[k]? = some s →
    b.positions[k]? = some p → p < h.length → row = some (h.take (p + 1))

/-- Stray stores keep a description they agree with. -/
theorem Described.scribble {wrote : Nat → Option Row} (ids ps : List Nat)
    (hrows : ∀ k row p, wrote k = some row → ids[k]? = some s → ps[k]? = some p →
      p < h.length → row = some (h.take (p + 1))) :
    ∀ {cells : List Nat} {k : Nat} {c : KvCache Row}, c.Solo →
      (∀ j cell, cells[j]? = some cell → ∃ t q, ids[k + j]? = some t
        ∧ ps[k + j]? = some q
        ∧ c.cellOf t q = some cell) →
      Described c s h → Described (scribble wrote c k cells) s h := by
  intro cells
  induction cells with
  | nil => exact fun _ _ hd => hd
  | cons cell cells ih =>
      intro k c hc hcells hd
      have hrest : ∀ j x, cells[j]? = some x → ∃ t q, ids[k + 1 + j]? = some t
          ∧ ps[k + 1 + j]? = some q ∧ c.cellOf t q = some x := by
        intro j x hx
        have := hcells (j + 1) x (by simpa using hx)
        rwa [show k + (j + 1) = k + 1 + j by omega] at this
      unfold Server.scribble
      split
      next row hrow =>
        obtain ⟨t, q, ht, hq, hcell⟩ := hcells 0 cell rfl
        refine ih (solo_writeCell hc cell _) hrest (hd.writeCell hc hcell _ ?_)
        rintro rfl hlt l
        exact hrows k row q hrow (by simpa using ht) (by simpa using hq) hlt
      next => exact ih hc hrest hd

theorem solo_scribble {wrote : Nat → Option Row} :
    ∀ {cells : List Nat} {k : Nat} {c : KvCache Row}, c.Solo →
      (Server.scribble wrote c k cells).Solo := by
  intro cells
  induction cells with
  | nil => exact fun hc => hc
  | cons cell cells ih =>
      intro k c hc
      unfold Server.scribble
      split
      · exact ih (solo_writeCell hc _ _)
      · exact ih hc

-- ============================ forwards

section

variable {w : World Λ σ} {n : Nat} {c c' : KvCache Row} {b : Batch}

/-- A forward that succeeded: every description the batch continues is
extended, and a batch of several sequences found them all reserved. -/
theorem forwardOn_ok (hc : c.Solo) (hlen : b.tokens.length = b.seqIds.length)
    {logits : List Token → Λ} (h : forwardOn w n c b = (.ok logits, c')) :
    logits = w.logits n ∧ c'.Solo
      ∧ (∀ s hist, Described c s hist →
        (fed b s).map (·.1) = List.range' hist.length (fed b s).length →
        Described c' s (hist ++ (fed b s).map (·.2)))
      ∧ (1 < b.nSeqs → ∀ s ∈ b.seqIds, c.seqs[s]? ≠ none) := by
  unfold forwardOn at h
  split at h
  next f _ =>
    -- a panic never answers `ok`
    split at h
    · cases h
    · split at h <;> cases h
  next =>
    split at h
    · cases h
    next cells c₁ hfill =>
      obtain ⟨hsteady, hok⟩ := hc.fillBatchInputs hfill
      obtain ⟨⟨hcount, hpos⟩, hcells, hlive⟩ := hok cells rfl
      cases h
      have hentries : ∀ e ∈ batchEntries b cells,
          c₁.cellOf e.1.1 e.1.2 = some e.2.2 ∧ e.1.2 < c₁.writtenRows e.1.1 := by
        intro e he
        obtain ⟨k, hk⟩ := List.mem_iff_getElem?.mp he
        rw [batchEntries, List.getElem?_zip_eq_some, List.getElem?_zip_eq_some,
          List.getElem?_zip_eq_some] at hk
        obtain ⟨⟨hs, hp⟩, -, hx⟩ := hk
        obtain ⟨cell, hcell, hat, hw⟩ := hcells hs hp
        rw [hx] at hcell
        cases hcell
        exact ⟨hat, hw⟩
      have hfed (s : SeqId) : (batchEntries b cells).filterMap (entryOf s)
          = fed b s :=
        filterMap_batchEntries cells (by omega) s
      refine ⟨rfl, solo_storeBatch hsteady.solo, fun s hist hd hcont => ?_, hlive⟩
      have := Described.storeBatch (s := s) hsteady.solo hentries
        (hd.keeps (hsteady.keeps s))
        (by rw [hfed]; exact hcont)
      rwa [hfed] at this

/-- A forward that failed keeps every description its stores agree with. -/
theorem forwardOn_error (hc : c.Solo) {msg : String}
    (h : forwardOn w n c b = (.error msg, c')) :
    c'.Solo ∧ ∀ s hist, Described c s hist → Harmless w n c b s hist →
      Described c' s hist := by
  unfold forwardOn at h
  split at h
  next f hf =>
    split at h
    next =>
      cases h
      exact ⟨hc, fun s hist hd _ => hd⟩
    next hearly =>
      split at h
      next e c₁ hfill =>
        cases h
        obtain ⟨hsteady, -⟩ := hc.fillBatchInputs hfill
        exact ⟨hsteady.solo, fun s hist hd _ => hd.keeps (hsteady.keeps s)⟩
      next cells c₁ hfill =>
        cases h
        obtain ⟨hsteady, hok⟩ := hc.fillBatchInputs hfill
        obtain ⟨⟨hcount, hpos⟩, hcells, -⟩ := hok cells rfl
        refine ⟨solo_scribble hsteady.solo, fun s hist hd hsafe => ?_⟩
        refine Described.scribble b.seqIds b.positions ?_ hsteady.solo ?_
          (hd.keeps (hsteady.keeps s))
        · intro k row p hrow
          refine hsafe k row p ?_
          simp only [failedWrites, hf, hfill, hearly, Bool.false_eq_true, if_false]
          exact hrow
        · intro j cell hcell
          have hlt : j < b.seqIds.length :=
            hcount ▸ (List.getElem?_eq_some_iff.mp hcell).1
          obtain ⟨t, ht⟩ : ∃ t, b.seqIds[j]? = some t :=
            ⟨_, List.getElem?_eq_getElem hlt⟩
          obtain ⟨q, hq⟩ : ∃ q, b.positions[j]? = some q :=
            ⟨_, List.getElem?_eq_getElem (hpos ▸ hlt)⟩
          obtain ⟨cell', hcell', hat, -⟩ := hcells ht hq
          rw [hcell] at hcell'
          cases hcell'
          rw [Nat.zero_add]
          exact ⟨t, q, ht, hq, hat⟩
  next =>
    split at h
    next e c₁ hfill =>
      cases h
      obtain ⟨hsteady, -⟩ := hc.fillBatchInputs hfill
      exact ⟨hsteady.solo, fun s hist hd _ => hd.keeps (hsteady.keeps s)⟩
    · cases h

end

end Minfer.Server
