/-
What each operation does to the run table and the span lists, read
through lookups.

The span list is a function of the slot (`spanEntry`), so once
`SpansOk` is known every question about resolution becomes a question
about one slot: `cellOf_eq`. Later modules never unfold `refreshSpans`.
-/
import Minfer.Graph.Arena

namespace Minfer.Graph

open Lib (InRun)

variable {ρ : Type}

-- ========================== map lemmas

/-- Lookup after an insertion, with the key test as an equation. -/
theorem getElem?_insert_nat {β : Type} (t : Std.TreeMap Nat β) (k a : Nat) (v : β) :
    (t.insert k v)[a]? = if k = a then some v else t[a]? := by
  simp [Std.TreeMap.getElem?_insert]

/-- Lookup after an erasure, with the key test as an equation. -/
theorem getElem?_erase_nat {β : Type} (t : Std.TreeMap Nat β) (k a : Nat) :
    (t.erase k)[a]? = if k = a then none else t[a]? := by
  simp [Std.TreeMap.getElem?_erase]

/-- Lookup after a map over the values. -/
theorem getElem?_map_nat {β γ : Type} (t : Std.TreeMap Nat β) (f : Nat → β → γ)
    (a : Nat) : (t.map f)[a]? = (t[a]?).map (f a) := by
  simp [Std.TreeMap.getElem?_map]

/-- The entries of a map have distinct keys. -/
theorem nodup_keys_toList {β : Type} (t : Std.TreeMap Nat β) :
    (t.toList.map Prod.fst).Nodup := by
  rw [List.nodup_iff_pairwise_ne, List.pairwise_map]
  refine t.distinct_keys_toList.imp fun {a b} h => ?_
  simpa using h

/-- Inserting a new value for each entry of a list with distinct keys. -/
theorem getElem?_foldl_insert {β : Type} (f : β → β) {entries : List (Nat × β)}
    (hnd : (entries.map Prod.fst).Nodup) (t : Std.TreeMap Nat β) :
    (∀ a, a ∉ entries.map Prod.fst →
        (entries.foldl (fun t e => t.insert e.1 (f e.2)) t)[a]? = t[a]?)
      ∧ ∀ e ∈ entries,
        (entries.foldl (fun t e => t.insert e.1 (f e.2)) t)[e.1]?
        = some (f e.2) := by
  induction entries generalizing t with
  | nil => exact ⟨fun _ _ => rfl, fun e he => nomatch he⟩
  | cons e rest ih =>
      rw [List.map_cons, List.nodup_cons] at hnd
      obtain ⟨hout, hin⟩ := ih hnd.2 (t.insert e.1 (f e.2))
      refine ⟨fun a ha => ?_, fun e' he' => ?_⟩
      · rw [List.map_cons, List.mem_cons, not_or] at ha
        rw [List.foldl_cons, hout a ha.2, getElem?_insert_nat, if_neg (Ne.symm ha.1)]
      · rcases List.mem_cons.1 he' with rfl | he'
        · rw [List.foldl_cons, hout _ hnd.1, getElem?_insert_nat, if_pos rfl]
        · exact hin e' he'

/-- Rewriting every entry of a map in turn is mapping it. -/
theorem getElem?_rewrite {β : Type} (f : β → β) (t : Std.TreeMap Nat β) (a : Nat) :
    (t.toList.foldl (fun t e => t.insert e.1 (f e.2)) t)[a]? = (t[a]?).map f := by
  obtain ⟨hout, hin⟩ := getElem?_foldl_insert f (nodup_keys_toList t) t
  match h : t[a]? with
  | some v => exact hin (a, v) (Std.TreeMap.mem_toList_iff_getElem?_eq_some.2 h)
  | none =>
      rw [hout a, h]
      · rfl
      · intro hmem
        obtain ⟨⟨b, v⟩, hb, rfl⟩ := List.mem_map.1 hmem
        rw [Std.TreeMap.mem_toList_iff_getElem?_eq_some.1 hb] at h
        cases h

-- ============================ one slot

namespace SeqSlot

/-- What `refresh_spans` stores for a slot. -/
def spanEntry (slot : SeqSlot) : Option (List Span) :=
  if slot.spanList.isEmpty then none else some slot.spanList

/-- The cell a position resolves to, read off the slot: the shared prefix
first, then the private run. -/
def cellAt (slot : SeqSlot) (pos : Nat) : Option Nat :=
  if pos < slot.shared.rows then some (slot.shared.cell + pos)
  else if pos < slot.shared.rows + slot.cap then
    some (slot.start + (pos - slot.shared.rows))
  else none

/-- The first-match search over a slot's spans is `cellAt`. -/
theorem findSome?_spanList (slot : SeqSlot) (pos : Nat) :
    (slot.spanList.findSome? fun s =>
      if pos ≥ s.base ∧ pos < s.base + s.len then some (s.cell + (pos - s.base))
      else none) = slot.cellAt pos := by
  unfold spanList cellAt
  by_cases hr : slot.shared.rows > 0 <;> by_cases hc : slot.cap > 0 <;>
    by_cases hp : pos < slot.shared.rows <;>
    by_cases hq : pos < slot.shared.rows + slot.cap <;>
    simp [hr, hc, hp, hq] <;> omega

/-- The cell of a written position. -/
theorem cellAt_written {slot : SeqSlot} {p : Nat} (hp : p < slot.written)
    (hfit : slot.privateWritten ≤ slot.cap) :
    slot.cellAt p = some (if p < slot.shared.rows then slot.shared.cell + p
      else slot.start + (p - slot.shared.rows)) := by
  unfold privateWritten at hfit
  unfold cellAt
  split
  · rfl
  · rw [if_pos (by omega)]

end SeqSlot

namespace KvCache

-- ===================== slots and spans

/-- Every span list is the one its slot stands for. -/
def SpansOk (c : KvCache ρ) : Prop :=
  ∀ s : SeqId, c.spans[s]? = (c.seqs[s]?).bind SeqSlot.spanEntry

variable {c : KvCache ρ}

/-- `SpansOk` reads the table and the span lists only. -/
theorem SpansOk.of_eq {c' : KvCache ρ} (hseqs : c'.seqs = c.seqs)
    (hspans : c'.spans = c.spans) (hc : c.SpansOk) : c'.SpansOk := by
  intro s
  rw [hseqs, hspans]
  exact hc s

@[simp] theorem refreshSpans_seqs (c : KvCache ρ) (seq : SeqId) :
    (c.refreshSpans seq).seqs = c.seqs := by
  unfold refreshSpans
  split
  · split <;> rfl
  · rfl

@[simp] theorem refreshSpans_layers (c : KvCache ρ) (seq : SeqId) :
    (c.refreshSpans seq).layers = c.layers := by
  unfold refreshSpans
  split
  · split <;> rfl
  · rfl

@[simp] theorem refreshSpans_nCtx (c : KvCache ρ) (seq : SeqId) :
    (c.refreshSpans seq).nCtx = c.nCtx := by
  unfold refreshSpans
  split
  · split <;> rfl
  · rfl

/-- `refresh_spans` sets one entry and keeps the others. -/
theorem refreshSpans_spans (c : KvCache ρ) (seq s : SeqId) :
    (c.refreshSpans seq).spans[s]?
      = if seq = s then (c.seqs[s]?).bind SeqSlot.spanEntry else c.spans[s]? := by
  by_cases hs : seq = s
  · subst hs
    cases hslot : c.seqs[seq]? with
    | none => simp [refreshSpans, hslot]
    | some slot =>
        by_cases he : slot.spanList = []
        · simp [refreshSpans, hslot, SeqSlot.spanEntry, he]
        · simp [refreshSpans, hslot, SeqSlot.spanEntry, he]
  · unfold refreshSpans
    simp only [hs, if_false]
    split
    · split <;> simp [getElem?_erase_nat, getElem?_insert_nat, hs]
    · simp [getElem?_erase_nat, hs]

@[simp] theorem putSlot_layers (c : KvCache ρ) (seq : SeqId) (slot : SeqSlot) :
    (c.putSlot seq slot).layers = c.layers := by
  simp [putSlot]

@[simp] theorem putSlot_nCtx (c : KvCache ρ) (seq : SeqId) (slot : SeqSlot) :
    (c.putSlot seq slot).nCtx = c.nCtx := by
  simp [putSlot]

theorem putSlot_seqs (c : KvCache ρ) (seq s : SeqId) (slot : SeqSlot) :
    (c.putSlot seq slot).seqs[s]? = if seq = s then some slot else c.seqs[s]? := by
  simp [putSlot, getElem?_insert_nat]

/-- Refreshing the one entry a table change touched restores the span
lists. -/
theorem spansOk_refresh {seq : SeqId} {t : Std.TreeMap SeqId SeqSlot}
    (hc : c.SpansOk) (ht : ∀ s, seq ≠ s → t[s]? = c.seqs[s]?) :
    ({ c with seqs := t }.refreshSpans seq).SpansOk := by
  intro s
  rw [refreshSpans_spans, refreshSpans_seqs]
  by_cases hs : seq = s
  · simp [hs]
  · simp only [hs, if_false]
    rw [hc s, ht s hs]

theorem SpansOk.putSlot (hc : c.SpansOk) (seq : SeqId)
    (slot : SeqSlot) : (c.putSlot seq slot).SpansOk :=
  spansOk_refresh hc fun s hs => by simp [getElem?_insert_nat, hs]

/-- Resolution through the span list is resolution through the slot. -/
theorem cellOf_eq (hc : c.SpansOk) (seq : SeqId) (pos : Nat) :
    c.cellOf seq pos = (c.seqs[seq]?).bind (·.cellAt pos) := by
  unfold cellOf
  rw [hc seq]
  cases c.seqs[seq]? with
  | none => rfl
  | some slot =>
      simp only [Option.bind_some, SeqSlot.spanEntry]
      by_cases he : slot.spanList = []
      · rw [← SeqSlot.findSome?_spanList]
        simp [he]
      · simp only [List.isEmpty_iff, he, if_false]
        exact SeqSlot.findSome?_spanList slot pos

/-- The written extent is the slot's. -/
theorem writtenRows_eq {seq : SeqId} {slot : SeqSlot}
    (h : c.seqs[seq]? = some slot) : c.writtenRows seq = slot.written := by
  simp [writtenRows, h]

/-- The entries of the run table are its lookups. -/
theorem mem_seqs_toList {s : SeqId} {slot : SeqSlot} :
    (s, slot) ∈ c.seqs.toList ↔ c.seqs[s]? = some slot :=
  Std.TreeMap.mem_toList_iff_getElem?_eq_some

-- =========================== occupancy

/-- A cell the scan sees free lies in no live sequence's run. -/
theorem not_occupied (hc : c.SpansOk) {cell : Nat}
    (hfree : c.occupied[cell]? = some false) {s : SeqId} {slot : SeqSlot}
    (hs : c.seqs[s]? = some slot) :
    ¬ InRun slot.start slot.cap cell
      ∧ ¬ InRun slot.shared.cell slot.shared.rows cell := by
  obtain ⟨hlt, hval⟩ := List.getElem?_eq_some_iff.mp hfree
  simp only [occupied, List.getElem_map, List.getElem_range,
    List.any_eq_false] at hval
  have hspan : ∀ p ∈ slot.spanList, ¬ InRun p.cell p.len cell := by
    intro p hp
    have hne : slot.spanList ≠ [] := List.ne_nil_of_mem hp
    have hentry : c.spans[s]? = some slot.spanList := by
      rw [hc s, hs]
      simp [SeqSlot.spanEntry, hne]
    have h := hval _ (Std.TreeMap.mem_toList_iff_getElem?_eq_some.mpr hentry)
    simp only [Bool.not_eq_true, List.any_eq_false, decide_eq_true_eq] at h
    exact h p hp
  constructor
  · intro hin
    have hcap : slot.cap > 0 := by unfold InRun at hin; omega
    exact hspan ⟨slot.shared.rows, slot.start, slot.cap⟩
      (by simp [SeqSlot.spanList, hcap]) hin
  · intro hin
    have hrows : slot.shared.rows > 0 := by unfold InRun at hin; omega
    exact hspan ⟨0, slot.shared.cell, slot.shared.rows⟩
      (by simp [SeqSlot.spanList, hrows]) hin

/-- First fit returns a run of cells the scan saw free. -/
theorem firstFit_spec {cap : Nat} :
    ∀ {taken : List Bool} {start run s : Nat}, run ≤ start → 0 < cap → run < cap →
      firstFit cap taken start run = some s →
      start - run ≤ s ∧ s + cap ≤ start + taken.length
        ∧ ∀ c, InRun s cap c → start ≤ c → taken[c - start]? = some false := by
  intro taken
  induction taken with
  | nil => intro start run s _ _ _ h; cases h
  | cons t rest ih =>
      intro start run s hle hpos hrun h
      cases t with
      | true =>
          simp only [firstFit] at h
          obtain ⟨h₁, h₂, h₃⟩ := ih (by omega) hpos hpos h
          simp only [List.length_cons]
          refine ⟨by omega, by omega, fun c hc hge => ?_⟩
          have hc' : start + 1 ≤ c := by unfold InRun at hc; omega
          rw [show c - start = (c - (start + 1)) + 1 by omega,
            List.getElem?_cons_succ]
          exact h₃ c hc hc'
      | false =>
          simp only [firstFit] at h
          split at h
          next heq =>
            cases h
            simp only [List.length_cons]
            refine ⟨by omega, by omega, fun c hc hge => ?_⟩
            have : c = start := by unfold InRun at hc; omega
            subst this
            simp
          next hne =>
            obtain ⟨h₁, h₂, h₃⟩ := ih (by omega) hpos (by omega) h
            simp only [List.length_cons]
            refine ⟨by omega, by omega, fun c hc hge => ?_⟩
            by_cases hc' : c = start
            · subst hc'
              simp
            · rw [show c - start = (c - (start + 1)) + 1 by omega,
                List.getElem?_cons_succ]
              exact h₃ c hc (by omega)

@[simp] theorem length_occupied (c : KvCache ρ) : c.occupied.length = c.nCtx := by
  simp [occupied]

end KvCache
end Minfer.Graph
