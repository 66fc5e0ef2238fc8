/-
What a restored session is worth (`restore_session` of `graph/kvcache.rs`).

The state comes from a file as a run table, span lists and layers that need not
agree. The checks bound each run, each span and each extent alone. `WellFormed`
is what the other operations rely on; of it the checks give that the runs lie
in the arena, that a sequence has written no more than its spans cover and that
the extents of the restored layers do. `Coherent` is the rest, said of the
state that was read.
-/
import Minfer.Graph.Proofs.Inv
import Minfer.Graph.Proofs.SessionLoad

namespace Minfer.Graph

open Lib (forM_eq_ok)

variable {ρ : Type}

namespace KvCache

/-- The positions a sequence's spans cover. -/
def covered (c : KvCache ρ) (seq : SeqId) : Nat :=
  (((c.spans[seq]?).getD []).map (·.len)).sum

/-- What every operation on an arena relies on. -/
structure WellFormed (c : KvCache ρ) : Prop where
  run : ∀ (s : SeqId) (slot : SeqSlot), c.seqs[s]? = some slot →
    0 < slot.cap ∧ slot.start + slot.cap ≤ c.nCtx
  apart : ∀ (s t : SeqId) (a b : SeqSlot), s ≠ t → c.seqs[s]? = some a →
    c.seqs[t]? = some b →
    a.start + a.cap ≤ b.start ∨ b.start + b.cap ≤ a.start
  spans : c.SpansOk
  written : ∀ s : SeqId, c.writtenRows s ≤ c.covered s
  extent : ∀ (i : Nat) (l : KvLayer ρ), c.layers[i]? = some l → l.nUsed ≤ c.nCtx
  shared : ∀ (s : SeqId) (slot : SeqSlot), c.seqs[s]? = some slot →
    slot.shared.rows = 0 ∨ slot.shared.cell + slot.shared.rows ≤ c.nCtx

end KvCache

/-- The parts of a saved state fit together: no run is empty, no two overlap,
each span list is that of its run, and a shared prefix is in the arena. -/
structure KvSessionState.Coherent (st : KvSessionState) : Prop where
  nonempty : ∀ (s : SeqId) (slot : SeqSlot),
    (Std.TreeMap.ofList st.seqs)[s]? = some slot → 0 < slot.cap
  apart : ∀ (s t : SeqId) (a b : SeqSlot), s ≠ t →
    (Std.TreeMap.ofList st.seqs)[s]? = some a →
    (Std.TreeMap.ofList st.seqs)[t]? = some b → a.start + a.cap ≤ b.start
      ∨ b.start + b.cap ≤ a.start
  spans : ∀ s : SeqId,
    (Std.TreeMap.ofList st.spans)[s]?
      = ((Std.TreeMap.ofList st.seqs)[s]?).bind SeqSlot.spanEntry
  shared : ∀ (s : SeqId) (slot : SeqSlot), (Std.TreeMap.ofList st.seqs)[s]?
    = some slot →
    slot.shared.rows = 0 ∨ slot.shared.cell + slot.shared.rows ≤ st.nCtx

namespace KvCache

-- ============================= entries

/-- An entry of a map made of a list is one of the list. -/
theorem mem_of_getElem?_foldl {β : Type} {l : List (Nat × β)}
    {m : Std.TreeMap Nat β} {k : Nat} {v : β}
    (h : (l.foldl (fun m e => m.insert e.1 e.2) m)[k]? = some v) :
    (k, v) ∈ l ∨ m[k]? = some v := by
  induction l generalizing m with
  | nil => exact .inr h
  | cons e l ih =>
      rcases ih h with hmem | hget
      · exact .inl (List.mem_cons_of_mem e hmem)
      · rw [getElem?_insert_nat] at hget
        split at hget
        next hk =>
          cases hget
          exact .inl (hk ▸ List.mem_cons_self)
        next => exact .inr hget

theorem mem_of_getElem?_ofList {β : Type} {l : List (Nat × β)} {k : Nat}
    {v : β} (h : (Std.TreeMap.ofList l)[k]? = some v) : (k, v) ∈ l := by
  rw [Std.TreeMap.ofList_equiv_foldl.getElem?_eq] at h
  exact (mem_of_getElem?_foldl h).resolve_right (by simp)

/-- A run that passes the check lies in the arena, and what is written of it
is reserved. -/
theorem checkRun_ok {c : KvCache ρ} {spans : List (SeqId × List Span)}
    {r : SeqId × SeqSlot} (h : c.checkRun spans r = .ok ()) :
    r.2.start + r.2.cap ≤ c.nCtx ∧ r.2.written ≤ r.2.shared.rows + r.2.cap := by
  rw [checkRun] at h
  split at h
  · cases h
  next hstart =>
    split at h
    · cases h
    next hwritten => exact ⟨not_lt.mp hstart, not_lt.mp hwritten⟩

theorem checkLayer_extent {c : KvCache ρ} {ls : KvLayerSession}
    (h : c.checkLayer ls = .ok ()) :
    ls.nUsed ≤ c.nCtx := by
  rw [checkLayer] at h
  split at h
  · cases h
  split at h
  · cases h
  split at h
  · cases h
  next hused => exact not_lt.mp hused

-- ============================== layers

/-- A layer after the saved ones are put back: a saved one has a saved extent,
any other one is as it was. -/
theorem foldl_putLayer {saved : List KvLayerSession}
    {layers : Std.TreeMap Nat (KvLayer ρ)} {i : Nat}
    {l : KvLayer ρ} (h : (saved.foldl putLayer layers)[i]? = some l) :
    (∃ ls ∈ saved, l.nUsed = ls.nUsed)
      ∨ (i ∉ saved.map (·.layer) ∧ layers[i]? = some l) := by
  induction saved generalizing layers with
  | nil => exact .inr ⟨List.not_mem_nil, h⟩
  | cons ls saved ih =>
      rcases ih h with ⟨ls', hmem, hused⟩ | ⟨hno, hget⟩
      · exact .inl ⟨ls', List.mem_cons_of_mem ls hmem, hused⟩
      rw [putLayer] at hget
      split at hget
      next old hold =>
        rw [getElem?_insert_nat] at hget
        split at hget
        next hi =>
          cases hget
          exact .inl ⟨ls, List.mem_cons_self, rfl⟩
        next hi =>
          refine .inr ⟨?_, hget⟩
          rw [List.map_cons, List.mem_cons, not_or]
          exact ⟨Ne.symm hi, hno⟩
      next hnone =>
        refine .inr ⟨?_, hget⟩
        rw [List.map_cons, List.mem_cons, not_or]
        refine ⟨fun hi => ?_, hno⟩
        rw [← hi, hget] at hnone
        cases hnone

/-- A layer that was not saved is left alone. -/
theorem foldl_putLayer_other {saved : List KvLayerSession}
    {layers : Std.TreeMap Nat (KvLayer ρ)} {i : Nat}
    (h : i ∉ saved.map (·.layer)) :
    (saved.foldl putLayer layers)[i]? = layers[i]? := by
  induction saved generalizing layers with
  | nil => rfl
  | cons ls saved ih =>
      rw [List.map_cons, List.mem_cons, not_or] at h
      rw [List.foldl_cons, ih h.2, putLayer]
      split
      · rw [getElem?_insert_nat, if_neg (Ne.symm h.1)]
      · rfl

-- =========================== restoring

/-- What a restored arena is made of. -/
theorem restoreSession_parts {c c' : KvCache ρ} {st : KvSessionState}
    (h : c.restoreSession st = .ok c') :
    Restorable c st ∧ c'.nCtx = c.nCtx ∧ c'.seqs = Std.TreeMap.ofList st.seqs
      ∧ c'.spans = Std.TreeMap.ofList st.spans
      ∧ c'.layers = st.layers.foldl putLayer c.layers := by
  rw [restoreSession] at h
  split at h
  · cases h
  next hctx =>
    split at h
    · cases h
    next hlayers =>
      split at h
      · cases h
      next hruns =>
        cases h
        exact ⟨⟨not_not.mp hctx, forM_eq_ok hlayers, forM_eq_ok hruns⟩, rfl,
          rfl, rfl, rfl⟩

/-- The spans of a slot cover its shared prefix and its run. -/
theorem covered_eq {c : KvCache ρ} {s : SeqId} {slot : SeqSlot}
    (hspans : c.SpansOk) (h : c.seqs[s]? = some slot) :
    c.covered s = slot.shared.rows + slot.cap := by
  have hentry : c.spans[s]? = slot.spanEntry := by rw [hspans s, h, Option.bind_some]
  rw [covered, hentry, SeqSlot.spanEntry, SeqSlot.spanList]
  by_cases hrows : slot.shared.rows > 0
  · by_cases hcap : slot.cap > 0
    · simp [hrows, hcap]
    · simp [hrows, Nat.eq_zero_of_not_pos hcap]
  · by_cases hcap : slot.cap > 0
    · simp [hcap, Nat.eq_zero_of_not_pos hrows]
    · simp [Nat.eq_zero_of_not_pos hrows, Nat.eq_zero_of_not_pos hcap]

/-- **A restored session is as sound as its file.** The arena is well formed
exactly when the parts of the saved state fit together; a layer the state does
not name keeps its extent, which has to be in bounds already. -/
theorem restored_wellFormed_iff {c c' : KvCache ρ} {st : KvSessionState}
    (h : c.restoreSession st = .ok c') :
    c'.WellFormed ↔ st.Coherent
      ∧ ∀ (i : Nat) (l : KvLayer ρ), i ∉ st.layers.map (·.layer) →
        c.layers[i]? = some l → l.nUsed ≤ c.nCtx := by
  obtain ⟨⟨hctx, hlayer, hrun⟩, hn, hseqs, hspans, hlayers⟩ := restoreSession_parts h
  constructor
  · intro hw
    refine ⟨⟨fun s slot hs => ?_, fun s t a b hne ha hb => ?_, fun s => ?_,
      fun s slot hs => ?_⟩, fun i l hi hl => ?_⟩
    · exact (hw.run s slot (hseqs ▸ hs)).1
    · exact hw.apart s t a b hne (hseqs ▸ ha) (hseqs ▸ hb)
    · rw [← hspans, ← hseqs]
      exact hw.spans s
    · have hshared := hw.shared s slot (hseqs ▸ hs)
      rwa [hn, ← hctx] at hshared
    · rw [← hn]
      apply hw.extent i l
      rw [hlayers, foldl_putLayer_other hi, hl]
  · rintro ⟨hst, hother⟩
    have hspansOk : c'.SpansOk := by
      intro s
      rw [hspans, hseqs]
      exact hst.spans s
    have hchecked : ∀ (s : SeqId) (slot : SeqSlot), c'.seqs[s]? = some slot →
        slot.start + slot.cap ≤ c.nCtx
            ∧ slot.written ≤ slot.shared.rows + slot.cap := by
      intro s slot hs
      rw [hseqs] at hs
      exact checkRun_ok (hrun _ (mem_of_getElem?_ofList hs))
    refine ⟨fun s slot hs => ?_, fun s t a b hne ha hb => ?_, hspansOk,
      fun s => ?_, fun i l hl => ?_, fun s slot hs => ?_⟩
    · rw [hn]
      exact ⟨hst.nonempty s slot (hseqs ▸ hs), (hchecked s slot hs).1⟩
    · exact hst.apart s t a b hne (hseqs ▸ ha) (hseqs ▸ hb)
    · rw [writtenRows]
      split
      next slot hs =>
        rw [covered_eq hspansOk hs]
        exact (hchecked s slot hs).2
      next => exact Nat.zero_le _
    · rw [hlayers] at hl
      rw [hn]
      rcases foldl_putLayer hl with ⟨ls, hls, hused⟩ | ⟨hi, hget⟩
      · rw [hused]
        exact checkLayer_extent (hlayer ls hls)
      · exact hother i l hi hget
    · rw [hn, ← hctx]
      exact hst.shared s slot (hseqs ▸ hs)

/-- Two runs of four cells each, from cell `start` on for the second one. -/
def savedRuns (start : Nat) : KvSessionState where
  identity := false
  nCtx := 8
  seqs := [(0, SeqSlot.new 0 4), (1, SeqSlot.new start 4)]
  spans := [(0, [⟨0, 0, 4⟩]), (1, [⟨0, start, 4⟩])]
  layers := []
  defrags := 0
  cellsMoved := 0
  cows := 0
  cowCells := 0

/-- An arena of eight cells without a layer. -/
def eightCellArena : KvCache Nat := KvCache.new.setNCtx 8

/-- The arena that `savedRuns` restores. -/
def restoredRuns (start : Nat) : KvCache Nat :=
  { eightCellArena with
    identity := false
    seqs := Std.TreeMap.ofList (savedRuns start).seqs
    spans := Std.TreeMap.ofList (savedRuns start).spans }

theorem restored_wellFormed_iff_apart : (restoredRuns 4).WellFormed
    ↔ (savedRuns 4).Coherent
    ∧ ∀ (i : Nat) (l : KvLayer Nat), i ∉ (savedRuns 4).layers.map (·.layer) →
      eightCellArena.layers[i]? = some l →
      l.nUsed ≤ eightCellArena.nCtx :=
  @restored_wellFormed_iff Nat eightCellArena (restoredRuns 4) (savedRuns 4) rfl

/-- Runs that overlap are restored. -/
theorem overlapping_runs_restored :
    eightCellArena.restoreSession (savedRuns 2) = .ok (restoredRuns 2)
      ∧ ¬ (restoredRuns 2).WellFormed := by
  refine ⟨rfl, fun hw => ?_⟩
  have hclash := hw.apart 0 1 (SeqSlot.new 0 4) (SeqSlot.new 2 4) (by decide) rfl rfl
  simp [SeqSlot.new] at hclash

end KvCache
end Minfer.Graph
