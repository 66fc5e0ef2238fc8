/-
The window of a query, three ways: `attn_map`'s runs, `attn_span`'s range and
`kv_cells_for_seq`'s cell all read the one span list.

Two facts about a store carry it: every span list is its slot's, and a
sequence has written no more than its spans cover. Both hold in every state,
also in what a call that failed half-way leaves behind.

A sequence has at most two spans, the shared prefix and its own run, and the
runs of a query are those two cut off behind its row (`mapRuns_spanList`).
-/
import Minfer.Graph.Proofs.Removal
import Minfer.Graph.Proofs.Resize

namespace Minfer.Graph

variable {ρ : Type}

namespace KvCache

-- ======================= the invariant

/-- Spans and extents are those of the slots. -/
structure Resolves (c : KvCache ρ) : Prop where
  spans : c.SpansOk
  written : ∀ (s : SeqId) slot, c.seqs[s]? = some slot →
    slot.written ≤ slot.shared.rows + slot.cap

variable {c c' : KvCache ρ} {slot : SeqSlot} {rel : Nat} {seq : SeqId}

theorem Resolves.of_eq (hc : c.Resolves) (hseqs : c'.seqs = c.seqs)
    (hspans : c'.spans = c.spans) : c'.Resolves := by
  refine ⟨hc.spans.of_eq hseqs hspans, fun s slot hslot => ?_⟩
  rw [hseqs] at hslot
  exact hc.written s slot hslot

theorem Resolves.putSlot (hc : c.Resolves) (seq : SeqId)
    (hslot : slot.written ≤ slot.shared.rows + slot.cap) :
    (c.putSlot seq slot).Resolves := by
  refine ⟨hc.spans.putSlot seq slot, fun s a ha => ?_⟩
  rw [putSlot_seqs] at ha
  split at ha
  · cases ha
    exact hslot
  · exact hc.written s a ha

theorem Resolves.reserveSeq (hc : c.Resolves) {seq cap : Nat}
    (h : c.reserveSeq seq cap = .ok (slot, c')) : c'.Resolves := by
  unfold KvCache.reserveSeq at h
  split at h
  · cases h
  · split at h
    · split at h
      · cases h
        exact hc
      · cases h
    · split at h
      · cases h
      · split at h
        · cases h
          exact hc.putSlot seq (Nat.zero_le _)
        · cases h

theorem Resolves.releaseSeq (hc : c.Resolves) (seq : SeqId) :
    (c.releaseSeq seq).2.Resolves := by
  constructor
  · unfold KvCache.releaseSeq
    split
    · exact hc.spans
    · exact spansOk_refresh (t := c.seqs.erase seq) hc.spans
        fun s hs => by simp [getElem?_erase_nat, hs]
  · intro s slot hslot
    have htable := releaseSeq_table c seq s
    unfold table at htable
    rw [htable] at hslot
    split at hslot
    · cases hslot
    · exact hc.written s slot hslot

theorem Resolves.ownRange (hc : c.Resolves) (seq lo hi : Nat) :
    (c.ownRange seq lo hi).Resolves := by
  refine ⟨hc.spans.ownRange seq lo hi, fun s slot hslot => ?_⟩
  have htable := ownRange_table c seq lo hi s
  unfold table at htable
  rw [htable] at hslot
  obtain ⟨slot₀, h₀, rfl⟩ := Option.map_eq_some_iff.1 hslot
  have hold := hc.written s slot₀ h₀
  split
  next hs =>
    subst hs
    exact (raiseWritten_bounds hc.spans h₀ _ hold).2
  · exact hold

theorem Resolves.ownPositions (hc : c.Resolves) (seq : SeqId)
    (positions : List Nat) : (c.ownPositions seq positions).2.Resolves := by
  induction positions generalizing c with
  | nil => exact hc
  | cons pos rest ih =>
      rw [KvCache.ownPositions]
      split
      · exact hc
      · exact ih (hc.ownRange _ _ _)

theorem Resolves.sharePrefix (hc : c.Resolves) {src dst : SeqId} {rows : Nat}
    (h : c.sharePrefix src dst rows = .ok c') : c'.Resolves := by
  obtain ⟨-, slot, cell, -, -, -, -, -, -, -, -, -, rfl⟩ := sharePrefix_cases h
  exact hc.putSlot dst (Nat.le_add_right _ _)

theorem Resolves.copyPlan {env : KvEnv} {wrap : KvMove → String → String}
    {moves : List KvMove} {r : Except String Unit} (hc : c.Resolves)
    (h : Minfer.Graph.copyPlan env wrap moves c = (r, c')) : c'.Resolves := by
  obtain ⟨hseqs, hspans, -⟩ := copyPlan_frame h
  exact hc.of_eq hseqs hspans

-- ======================= copy-on-write

theorem Resolves.applyPrivateRow {shift : KvShift}
    (hc : c.Resolves) (hroom : ∀ slot, c.seqs[shift.seq]? = some slot →
      slot.privateWritten + (slot.shared.rows - shift.base) ≤ slot.cap)
    (h : c.applyPrivateRow shift = .ok c') : c'.Resolves := by
  obtain ⟨slot, hslot, -, hbase, -, hseqs, hspans, -, -⟩ := applyPrivateRow_cases h
  have hfits := hroom slot hslot
  unfold SeqSlot.privateWritten at hfits
  refine ⟨hspans hc.spans, fun s a ha => ?_⟩
  rw [hseqs s] at ha
  split at ha
  · cases ha
    simp only
    omega
  · exact hc.written s a ha

theorem Resolves.kvPrivateRowFor (hc : c.Resolves)
    (env : KvEnv) (seq t : Nat) :
    (c.kvPrivateRowFor env seq t).2.Resolves := by
  unfold KvCache.kvPrivateRowFor
  split
  · exact hc
  · exact hc
  next shift hshift =>
    rcases privateRowFor_cases hshift with ⟨hcon, -⟩ | ⟨slot, hslot, -, hroom, heq⟩
    · cases hcon
    simp only
    split
    next e c₁ h₁ => exact hc.copyPlan h₁
    next c₁ h₁ =>
      split
      · exact hc.copyPlan h₁
      next c₂ h₂ =>
        refine (hc.copyPlan h₁).applyPrivateRow (fun slot' hs => ?_) h₂
        obtain ⟨hseqs, -, -⟩ := copyPlan_frame h₁
        cases heq
        rw [hseqs, hslot] at hs
        cases hs
        exact hroom

-- ========================== compaction

theorem Resolves.moveRun (hc : c.Resolves) (m : KvMove) :
    (c.moveRun m).Resolves := by
  refine ⟨(moveRun_frame c m).2.2 hc.spans, fun s slot hslot => ?_⟩
  rw [moveRun_seqs] at hslot
  obtain ⟨slot₀, h₀, rfl⟩ := Option.map_eq_some_iff.1 hslot
  exact hc.written s slot₀ h₀

/-- Prefixes that follow a move keep their length. -/
theorem Resolves.followMoves {m : KvMove} {sharers : List (SeqId × SeqSlot)}
    (hc : c.Resolves)
    (hsharers : ∀ r ∈ sharers, r.2.written ≤ r.2.shared.rows + r.2.cap) :
    (sharers.foldl (followMove m) c).Resolves := by
  induction sharers generalizing c with
  | nil => exact hc
  | cons r rest ih =>
      rw [List.foldl_cons]
      apply ih
      · exact hc.putSlot r.1 (hsharers r List.mem_cons_self)
      · exact fun r' hr' => hsharers r' (List.mem_cons_of_mem r hr')

theorem Resolves.followSharers (hc : c.Resolves) (m : KvMove) :
    (c.followSharers m).2.Resolves := by
  unfold KvCache.followSharers
  split
  · split
    · exact hc
    · apply hc.followMoves
      intro r hr
      exact hc.written r.1 r.2 (mem_seqs_toList.1 (List.mem_filter.1 hr).1)
  · exact hc

theorem Resolves.applyMove (hc : c.Resolves) (m : KvMove) :
    (c.applyMove m).2.Resolves := by
  apply Resolves.followSharers
  apply Resolves.moveRun
  exact hc.of_eq rfl rfl

theorem Resolves.applyMovesLoop (hc : c.Resolves) (moves : List KvMove) :
    (c.applyMovesLoop moves).2.Resolves := by
  induction moves generalizing c with
  | nil => exact hc
  | cons m rest ih =>
      have hstep := hc.applyMove m
      rw [KvCache.applyMovesLoop]
      split
      next c₁ h₁ =>
        rw [h₁] at hstep
        exact ih hstep
      next e c₁ h₁ =>
        rw [h₁] at hstep
        exact hstep

theorem Resolves.applyMoves (hc : c.Resolves) (moves : List KvMove) :
    (c.applyMoves moves).2.Resolves := by
  unfold KvCache.applyMoves
  split
  · exact hc
  · simp only
    split
    · exact hc
    · have hloop := hc.applyMovesLoop (orderMoves moves)
      split
      next e c₁ h₁ =>
        rw [h₁] at hloop
        exact hloop
      next c₁ h₁ =>
        rw [h₁] at hloop
        exact hloop.of_eq rfl rfl

theorem Resolves.kvDefrag (hc : c.Resolves) (env : KvEnv) (need : Option Nat) :
    (c.kvDefrag env need).2.Resolves := by
  unfold KvCache.kvDefrag
  simp only
  split
  · exact hc
  · split
    next e c₁ h₁ => exact hc.copyPlan h₁
    next c₁ h₁ =>
      have happly := (hc.copyPlan h₁).applyMoves (c.compactionPlan need)
      split
      next e c₂ h₂ =>
        rw [h₂] at happly
        exact happly
      next n c₂ h₂ =>
        rw [h₂] at happly
        exact happly

theorem Resolves.setCap (hc : c.Resolves) {seq cap : Nat} {moves : List KvMove}
    (h : c.setCap seq cap = .ok (moves, c')) : c'.Resolves := by
  match hslot : c.seqs[seq]? with
  | none =>
      rw [KvCache.setCap, hslot] at h
      cases h
  | some slot =>
      rcases setCap_cases hslot h with ⟨-, -, rfl⟩ | ⟨-, rfl, -⟩
        | ⟨-, -, hshrink, -, rfl, -⟩
      · exact hc
      · exact hc.releaseSeq seq
      · have hold := hc.written seq slot hslot
        unfold SeqSlot.privateWritten at hshrink
        apply hc.putSlot
        simp only
        omega

theorem Resolves.kvSetCapWithDefrag (hc : c.Resolves) (env : KvEnv)
    (seq cap : Nat) : (c.kvSetCapWithDefrag env seq cap).2.Resolves := by
  unfold KvCache.kvSetCapWithDefrag
  split
  · exact hc
  · split
    · exact hc
    next moves c₁ h₁ =>
      have hset := hc.setCap h₁
      split
      · split
        · exact hset
        · exact hset
      · split
        · split
          · exact hset
          next h₂ => exact hset.setCap h₂
        · simp only
          split
          next e c₂ h₂ => exact hset.copyPlan h₂
          next c₂ h₂ =>
            have happly := (hset.copyPlan h₂).applyMoves (orderMoves moves)
            split
            next e c₃ h₃ =>
              rw [h₃] at happly
              exact happly
            next n c₃ h₃ =>
              rw [h₃] at happly
              split
              · exact happly
              · exact happly

-- ============================ any call

theorem Resolves.kvCopyPrefix (hc : c.Resolves) (env : KvEnv)
    (src dst : SeqId) (rows : Nat) :
    (c.kvCopyPrefix env src dst rows).2.Resolves := by
  unfold KvCache.kvCopyPrefix
  split
  · exact hc
  · split
    · exact hc
    · split
      · exact hc
      · split
        · exact hc
        · split
          · exact hc
          · split
            · exact hc
            · split
              · exact hc
              · simp only
                split
                next e c₁ h₁ => exact hc.copyPlan h₁
                next c₁ h₁ => exact (hc.copyPlan h₁).ownRange _ _ _

theorem Resolves.left (hc : c.Resolves) (env : KvEnv) (op : ArenaOp ρ) :
    (c.left env op).Resolves := by
  cases op with
  | reserve seq cap =>
      rw [KvCache.left]
      split
      next h => exact hc.reserveSeq h
      · exact hc
  | release seq => exact hc.releaseSeq seq
  | own seq positions rows =>
      have hown := hc.ownPositions seq positions
      rw [KvCache.left]
      split
      next h =>
        rw [h] at hown
        exact hown.of_eq rfl rfl
      next h =>
        rw [h] at hown
        exact hown
  | share src dst rows =>
      rw [KvCache.left, kvSharePrefix]
      split
      · exact hc
      next h => exact hc.sharePrefix h
  | copyPrefix src dst rows => exact hc.kvCopyPrefix env src dst rows
  | privateRow seq t => exact hc.kvPrivateRowFor env seq t
  | defrag need => exact hc.kvDefrag env need
  | setCap seq cap => exact hc.kvSetCapWithDefrag env seq cap

-- ============================ sessions

/-- A map is its list of entries. -/
theorem getElem?_ofList_toList {β : Type} (t : Std.TreeMap Nat β) (a : Nat) :
    (Std.TreeMap.ofList t.toList)[a]? = t[a]? := by
  match h : t[a]? with
  | some v =>
      have hmem : (a, v) ∈ t.toList := Std.TreeMap.mem_toList_iff_getElem?_eq_some.2 h
      exact Std.TreeMap.getElem?_ofList_of_mem (by simp) t.distinct_keys_toList hmem
  | none =>
      apply Std.TreeMap.getElem?_ofList_of_contains_eq_false
      rw [← Bool.not_eq_true, List.contains_iff_mem]
      intro hmem
      obtain ⟨⟨b, v⟩, hb, rfl⟩ := List.mem_map.1 hmem
      rw [Std.TreeMap.mem_toList_iff_getElem?_eq_some.1 hb] at h
      cases h

theorem Resolves.restoreSession {saved : KvCache ρ} (hsaved : saved.Resolves)
    (h : c.restoreSession saved.sessionState = .ok c') : c'.Resolves := by
  unfold KvCache.restoreSession at h
  split at h
  · cases h
  · split at h
    · cases h
    · split at h
      · cases h
      · cases h
        constructor
        · intro s
          show (Std.TreeMap.ofList saved.spans.toList)[s]?
            = ((Std.TreeMap.ofList saved.seqs.toList)[s]?).bind SeqSlot.spanEntry
          rw [getElem?_ofList_toList, getElem?_ofList_toList]
          exact hsaved.spans s
        · intro s slot hslot
          have hslot : (Std.TreeMap.ofList saved.seqs.toList)[s]? = some slot := hslot
          rw [getElem?_ofList_toList] at hslot
          exact hsaved.written s slot hslot

/-- Every state of a store resolves. -/
theorem Touched.resolves (hc : c.Touched) : c.Resolves := by
  induction hc with
  | new =>
      refine ⟨fun s => ?_, fun s slot hslot => ?_⟩
      · exact Std.TreeMap.getElem?_emptyc.trans
          (congrArg (Option.bind · _) Std.TreeMap.getElem?_emptyc).symm
      · rw [show KvCache.new.seqs[s]? = none from Std.TreeMap.getElem?_emptyc]
          at hslot
        cases hslot
  | capacity nCtx _ ih => exact ih.of_eq rfl rfl
  | insert _ _ _ _ _ _ _ _ _ ih => exact ih.of_eq rfl rfl
  | call env op _ ih => exact ih.left env op
  | @remove c env rope start len _ ih =>
      have hframe : (c.kvRm env rope start len).2 = _ := kvRm_frame rfl
      rw [hframe]
      exact ih.of_eq rfl rfl
  | restore _ _ h ihsaved _ => exact ihsaved.restoreSession h

-- ========================= the windows

/-- The cells of the runs that are not padding, in order. -/
def windowCells (runs : List (Nat × Nat)) : List Nat :=
  (runs.filter fun r => r.2 ≠ 0).flatMap fun r => List.range' r.1 r.2

/-- The cells a sequence's positions up to `rel` resolve to. -/
def cellsUpTo (c : KvCache ρ) (seq : SeqId) (rel : Nat) : List (Option Nat) :=
  (List.range (rel + 1)).map (c.cellOf seq)

/-- A run of cells, position by position. -/
theorem map_some_range' (cell n : Nat) :
    (List.range' cell n).map some = (List.range n).map fun p => some (cell + p) := by
  rw [List.range'_eq_map_range, List.map_map]
  rfl

/-- The runs of a slot up to a position: one run, or the whole prefix and a
part of the private run. -/
theorem mapRuns_spanList (hrel : rel < slot.shared.rows + slot.cap) :
    mapRuns rel slot.spanList
      = if rel < slot.shared.rows then [(slot.shared.cell, rel + 1)]
        else if slot.shared.rows = 0 then [(slot.start, rel + 1)]
        else [(slot.shared.cell, slot.shared.rows),
          (slot.start, rel + 1 - slot.shared.rows)] := by
  unfold SeqSlot.spanList
  by_cases hrows : slot.shared.rows = 0
  · have hcap : slot.cap > 0 := by omega
    have htake : min slot.cap (rel + 1) = rel + 1 := by omega
    simp [hrows, hcap, mapRuns, htake]
  · have hpos : slot.shared.rows > 0 := by omega
    by_cases hin : rel < slot.shared.rows
    · have htake : min slot.shared.rows (rel + 1) = rel + 1 := by omega
      rw [if_pos hpos, if_pos hin, List.singleton_append, mapRuns,
        if_neg (Nat.not_lt_zero rel)]
      simp only [Nat.sub_zero, htake, Nat.add_one_ne_zero, if_false]
      -- the private span, if there is one, is past the row
      split
      · rw [mapRuns, if_pos hin]
      · rw [mapRuns]
    · have hcap : slot.cap > 0 := by omega
      have htake : min slot.shared.rows (rel + 1) = slot.shared.rows := by omega
      have hrest : min slot.cap (rel + 1 - slot.shared.rows)
        = rel + 1 - slot.shared.rows := by omega
      have hne : rel + 1 - slot.shared.rows ≠ 0 := by omega
      simp [hpos, hcap, hin, mapRuns, htake, hrest, hrows, hne]

/-- Those runs list the cells of the positions. -/
theorem cells_mapRuns (hrel : rel < slot.shared.rows + slot.cap) :
    ((mapRuns rel slot.spanList).flatMap fun r => List.range' r.1 r.2).map some
      = (List.range (rel + 1)).map slot.cellAt := by
  rw [mapRuns_spanList hrel]
  by_cases hin : rel < slot.shared.rows
  · rw [if_pos hin, List.flatMap_singleton, map_some_range']
    refine List.map_congr_left fun p hp => ?_
    rw [SeqSlot.cellAt, if_pos (by have := List.mem_range.1 hp; omega)]
  · rw [if_neg hin]
    have hprivate {p : Nat} (hp : slot.shared.rows + p < rel + 1) :
        slot.cellAt (slot.shared.rows + p) = some (slot.start + p) := by
      rw [SeqSlot.cellAt, if_neg (by omega), if_pos (by omega),
        Nat.add_sub_cancel_left]
    by_cases hrows : slot.shared.rows = 0
    · rw [if_pos hrows, List.flatMap_singleton, map_some_range']
      refine List.map_congr_left fun p hp => ?_
      have := hprivate (p := p) (by have := List.mem_range.1 hp; omega)
      rw [hrows, Nat.zero_add] at this
      exact this.symm
    · rw [if_neg hrows, List.flatMap_cons, List.flatMap_singleton,
        List.map_append, map_some_range', map_some_range']
      conv_rhs => rw [show rel + 1
        = slot.shared.rows + (rel + 1 - slot.shared.rows) by omega]
      rw [List.range_add, List.map_append, List.map_map]
      congr 1
      · refine List.map_congr_left fun p hp => ?_
        rw [SeqSlot.cellAt, if_pos (List.mem_range.1 hp)]
      · refine List.map_congr_left fun p hp => ?_
        have := List.mem_range.1 hp
        exact (hprivate (by omega)).symm

-- =========================== one query

/-- A written position has a slot whose spans cover it. -/
theorem Resolves.slot_of_written (hc : c.Resolves)
    (hrel : rel < c.writtenRows seq) :
    ∃ slot, c.seqs[seq]? = some slot ∧ rel < slot.shared.rows + slot.cap
      ∧ c.spansOf seq = slot.spanList ∧ slot.spanList ≠ []
      ∧ c.cellsUpTo seq rel = (List.range (rel + 1)).map slot.cellAt := by
  match hslot : c.seqs[seq]? with
  | none =>
      rw [writtenRows, hslot] at hrel
      exact absurd hrel (Nat.not_lt_zero rel)
  | some slot =>
      have hcover := hc.written seq slot hslot
      rw [writtenRows_eq hslot] at hrel
      have hne : slot.spanList ≠ [] := by
        intro hnil
        have hruns := @mapRuns_spanList slot rel (by omega)
        rw [hnil, mapRuns] at hruns
        split at hruns
        · cases hruns
        · split at hruns <;> cases hruns
      refine ⟨slot, rfl, by omega, ?_, hne, ?_⟩
      · rw [spansOf, hc.spans seq, hslot]
        simp [SeqSlot.spanEntry, hne]
      · refine List.map_congr_left fun p _ => ?_
        rw [cellOf_eq hc.spans, hslot, Option.bind_some]

/-- `attn_map` accepts a written position, and its runs are the window. -/
theorem Resolves.attnMapAt (hc : c.Resolves) (hrel : rel < c.writtenRows seq)
    (t : Nat) :
    ∃ map, c.attnMapAt t seq rel = .ok map ∧ map.length = kvMapMaxSpans
      ∧ (windowCells map).map some = c.cellsUpTo seq rel := by
  obtain ⟨slot, -, hcover, hspans, hne, hcells⟩ := hc.slot_of_written hrel
  have hruns := mapRuns_spanList hcover
  have hlist := cells_mapRuns hcover
  have hshort : (mapRuns rel slot.spanList).length ≤ 2
      ∧ mapRuns rel slot.spanList ≠ []
      ∧ ∀ r ∈ mapRuns rel slot.spanList, r.2 ≠ 0 := by
    rw [hruns]
    split
    · simp
    · split
      · simp
      · simp
        omega
  obtain ⟨hle, hsome, hlen⟩ := hshort
  refine ⟨mapRuns rel slot.spanList
    ++ List.replicate (kvMapMaxSpans - (mapRuns rel slot.spanList).length)
      (0, 0), ?_, ?_, ?_⟩
  · have hfits : ¬ (mapRuns rel slot.spanList).length > kvMapMaxSpans := by
      rw [kvMapMaxSpans]
      omega
    rw [KvCache.attnMapAt, hspans]
    simp only [List.isEmpty_iff, hne, hsome, hfits, if_false, Nat.not_le.2 hrel]
  · rw [List.length_append, List.length_replicate, kvMapMaxSpans]
    omega
  · have hpad (n : Nat) : (List.replicate n ((0, 0) : Nat × Nat)).filter
        (fun r => r.2 ≠ 0) = [] := by
      simp
    rw [windowCells, List.filter_append, hpad, List.append_nil,
      List.filter_eq_self.2 fun r hr => by simpa using hlen r hr, hlist, hcells]

/-- `attn_span` accepts a written position of a sequence with one span, and its
range is the window. -/
theorem Resolves.attnSpanAt (hc : c.Resolves) (hrel : rel < c.writtenRows seq)
    (hone : (c.spansOf seq).length = 1) (t : Nat) :
    ∃ w, c.attnSpanAt t seq rel = .ok w
      ∧ (List.range' w.1 (w.2 - w.1)).map some = c.cellsUpTo seq rel := by
  obtain ⟨slot, hslot, hcover, hspans, -, hcells⟩ := hc.slot_of_written hrel
  obtain ⟨one, heq⟩ := List.length_eq_one_iff.1 hone
  have hlist := cells_mapRuns hcover
  -- the one span starts at position 0 and reaches past the query
  have hspan : slot.cellAt rel = some (one.cell + rel) ∧ rel < one.len
      ∧ mapRuns rel slot.spanList = [(one.cell, rel + 1)] := by
    have hruns := mapRuns_spanList hcover
    rw [hspans] at heq
    unfold SeqSlot.spanList at heq
    by_cases hrows : slot.shared.rows = 0
    · have hcap : slot.cap > 0 := by omega
      simp [hrows, hcap] at heq
      rw [← heq, hruns, if_neg (by omega), if_pos hrows, SeqSlot.cellAt,
        if_neg (by omega),
        if_pos hcover, hrows]
      exact ⟨rfl, by simp only; omega, rfl⟩
    · have hpos : slot.shared.rows > 0 := by omega
      have hcap : ¬ slot.cap > 0 := by
        intro hcap
        simp [hpos, hcap] at heq
      simp [hpos, hcap] at heq
      have hin : rel < slot.shared.rows := by omega
      rw [← heq, hruns, if_pos hin, SeqSlot.cellAt, if_pos hin]
      exact ⟨rfl, hin, rfl⟩
  obtain ⟨hcell, hlt, hruns⟩ := hspan
  refine ⟨(one.cell, one.cell + rel + 1), ?_, ?_⟩
  · have hcellOf : c.cellOf seq rel = some (one.cell + rel) := by
      rw [cellOf_eq hc.spans, hslot, Option.bind_some, hcell]
    have hmin : min (one.cell + one.len) (one.cell + rel + 1)
      = one.cell + rel + 1 := by omega
    rw [KvCache.attnSpanAt, heq]
    simp only [hcellOf, hmin, Nat.not_le.2 hrel, if_false]
  · rw [hcells, ← hlist, hruns, List.flatMap_singleton]
    congr 2
    simp only
    omega

/-- The cell `kv_cells_for_seq` accepts is the last of the window. -/
theorem kvCellAt_last {t : Nat} {cell : Nat}
    (h : c.kvCellAt t seq rel = .ok cell) :
    (c.cellsUpTo seq rel).getLast? = some (some cell) := by
  have hcell : c.cellOf seq rel = some cell := by
    unfold kvCellAt at h
    split at h
    · cases h
    · split at h
      · cases h
      · split at h
        · cases h
        · split at h
          · cases h
          next hcell =>
            cases h
            exact hcell
  rw [cellsUpTo, List.range_succ, List.map_append, List.map_singleton,
    List.getLast?_concat, hcell]

-- ============================= batches

variable {positions : List Nat} {seqIds : List SeqId}

/-- What a per-query resolver gives query by query, it gives the batch. -/
theorem forQueries_of_each {α : Type} {f : Nat → SeqId → Nat → Except String α}
    {P : SeqId × Nat → α → Prop}
    (h : ∀ q ∈ seqIds.zip positions, ∀ t, ∃ x, f t q.1 q.2 = .ok x ∧ P q x)
    (t : Nat) :
    ∃ xs, forQueries f t seqIds positions = .ok xs
      ∧ List.Forall₂ P (seqIds.zip positions) xs := by
  induction seqIds generalizing positions t with
  | nil => exact ⟨[], rfl, .nil⟩
  | cons seq seqIds ih =>
      match positions with
      | [] => exact ⟨[], rfl, .nil⟩
      | rel :: positions =>
          obtain ⟨x, hx, hP⟩ := h (seq, rel) List.mem_cons_self t
          obtain ⟨xs, hxs, hall⟩ :=
            ih (fun q hq => h q (List.mem_cons_of_mem _ hq)) (t + 1)
          refine ⟨x :: xs, ?_, .cons hP hall⟩
          rw [forQueries, hx]
          simp only [hxs]

/-- What the batch resolves to, each query does. -/
theorem each_of_forQueries {α : Type} {f : Nat → SeqId → Nat → Except String α}
    {P : SeqId × Nat → α → Prop}
    {xs : List α} (h : ∀ t seq rel x, f t seq rel = .ok x → P (seq, rel) x)
    {t : Nat} (hxs : forQueries f t seqIds positions = .ok xs) :
    List.Forall₂ P (seqIds.zip positions) xs := by
  induction seqIds generalizing positions t xs with
  | nil =>
      cases hxs
      exact .nil
  | cons seq seqIds ih =>
      match positions with
      | [] =>
          cases hxs
          exact .nil
      | rel :: positions =>
          rw [forQueries] at hxs
          split at hxs
          · cases hxs
          next x hx =>
            split at hxs
            · cases hxs
            next ys hys =>
              cases hxs
              exact .cons (h t seq rel x hx) (ih hys)

/-- In every state of a store and for every batch of written positions: the
runs of `attn_map` list the cells of the positions up to each query; where
every sequence has one span, `attn_span` gives the same cells; and the cell
`kv_cells_for_seq` accepts for a query is the last of them. -/
theorem windows_agree (hc : c.Touched) (hlayers : c.layers.isEmpty = false)
    (hlen : positions.length = seqIds.length)
    (hwritten : ∀ q ∈ seqIds.zip positions, q.2 < c.writtenRows q.1) :
    (∃ maps, c.attnMap seqIds positions = .ok maps.flatten
        ∧ List.Forall₂ (fun q map => map.length = kvMapMaxSpans
            ∧ (windowCells map).map some = c.cellsUpTo q.1 q.2)
              (seqIds.zip positions) maps)
      ∧ ((∀ seq ∈ seqIds, (c.spansOf seq).length = 1) →
        ∃ windows : List (Nat × Nat), c.attnSpan seqIds positions
          = .ok (windows.map (·.1) ++ windows.map (·.2))
          ∧ List.Forall₂ (fun q w => (List.range' w.1 (w.2 - w.1)).map some
              = c.cellsUpTo q.1 q.2) (seqIds.zip positions) windows)
      ∧ ∀ cells, c.kvCellsForSeq seqIds positions = .ok cells →
        List.Forall₂ (fun q cell => (c.cellsUpTo q.1 q.2).getLast? = some (some cell))
          (seqIds.zip positions) cells := by
  have hres := hc.resolves
  refine ⟨?_, fun hone => ?_, fun cells hcells => ?_⟩
  · obtain ⟨maps, hmaps, hall⟩ :=
      forQueries_of_each (fun q hq t => hres.attnMapAt (hwritten q hq) t) 0
    refine ⟨maps, ?_, hall⟩
    rw [attnMap, if_neg (by simpa using hlen), hlayers, hmaps]
    rfl
  · obtain ⟨windows, hwindows, hall⟩ := forQueries_of_each
      (fun q hq t =>
        hres.attnSpanAt (hwritten q hq) (hone q.1 (List.of_mem_zip hq).1) t) 0
    refine ⟨windows, ?_, hall⟩
    rw [attnSpan, if_neg (by simpa using hlen), hlayers, hwindows]
    rfl
  · rw [kvCellsForSeq, if_neg (by simpa using hlen.symm)] at hcells
    exact each_of_forQueries (fun t seq rel x hx => kvCellAt_last hx) hcells

/-- A call that went through left its result behind. -/
theorem left_of_step {env : KvEnv} {op : ArenaOp ρ}
    (h : c.step env op = some c') : c.left env op = c' := by
  have hok {α : Type} {r : Except String α × KvCache ρ}
      (h : okState r = some c') : r.2 = c' := by
    match r with
    | (.ok _, c) => exact Option.some.inj h
    | (.error _, c) => cases h
  cases op with
  | defrag need => exact hok h
  | setCap seq cap => exact hok h
  | reserve seq cap =>
      rw [step] at h
      rw [KvCache.left]
      cases hres : c.reserveSeq seq cap with
      | ok out =>
          rw [hres] at h
          exact Option.some.inj h
      | error e =>
          rw [hres] at h
          exact Option.some.inj h
  | own seq positions rows =>
      rw [step] at h
      rw [KvCache.left]
      cases hres : c.ownPositions seq positions with
      | mk r c₁ =>
          rw [hres] at h
          cases r with
          | ok out => exact Option.some.inj h
          | error e => exact Option.some.inj h
  | release _ | share _ _ _ | copyPrefix _ _ _ | privateRow _ _ =>
      exact Option.some.inj h

theorem touched_after (ops : List (ArenaOp Nat)) : (after ops).Touched := by
  have hstart : eightCells.Touched := .insert _ _ _ _ _ _ _ _ .new
  have hrun {c c' : KvCache Nat} (hc : c.Touched)
      (h : runOps .plain c ops = some c') :
      c'.Touched := by
    induction ops generalizing c with
    | nil =>
        cases h
        exact hc
    | cons op rest ih =>
        rw [runOps] at h
        split at h
        next c₁ h₁ => exact ih (left_of_step h₁ ▸ hc.call .plain op) h
        · cases h
  unfold after
  cases h : runOps .plain eightCells ops with
  | none => exact hstart
  | some c => exact hrun hstart h

/-- A sharer's window: the donor's three rows, then the row it wrote. -/
theorem windows_of_sharer :
    ∃ maps, liveDonor.attnMap [2, 3] [1, 3] = .ok maps.flatten
      ∧ List.Forall₂ (fun q map => map.length = kvMapMaxSpans
          ∧ (windowCells map).map some = liveDonor.cellsUpTo q.1 q.2)
            [(2, 1), (3, 3)] maps :=
  (@windows_agree Nat liveDonor [1, 3] [2, 3] (touched_after _)
    (by decide) rfl (by decide)).1

end KvCache
end Minfer.Graph
