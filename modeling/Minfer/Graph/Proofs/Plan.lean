/-
The compaction plan: which runs it moves, where to, and why executing it
move by move is a simultaneous relocation.

The plan is read off the run table alone. `mem_compactionPlan` says what
it is without the packing loop: a run moves to the sum of the capacities
below it, unless an earlier gap already satisfied the request.
`clear_orderMoves` is the order argument: going up top-down and then down
bottom-up, no move lands on rows a later one still has to read.
-/
import Minfer.Graph.Proofs.Relocate

namespace Minfer.Graph

open Lib (InRun Apart Move Clear)

variable {ρ : Type}

-- ========================= the packing

/-- Cells the listed runs reserve together. -/
def capSum (runs : List (SeqId × SeqSlot)) : Nat := (runs.map (·.2.cap)).sum

@[simp] theorem capSum_nil : capSum [] = 0 := rfl

@[simp] theorem capSum_cons (r : SeqId × SeqSlot) (runs : List (SeqId × SeqSlot)) :
    capSum (r :: runs) = r.2.cap + capSum runs := by
  simp [capSum]

theorem capSum_append (xs ys : List (SeqId × SeqSlot)) :
    capSum (xs ++ ys) = capSum xs + capSum ys := by
  simp [capSum]

/-- The relocation of one run to `cell`. -/
def moveOf (r : SeqId × SeqSlot) (cell : Nat) : KvMove :=
  { seq := r.1, fromCell := r.2.start, toCell := cell, rows := r.2.privateWritten }

namespace KvCache

/-- One round of the packing loop. -/
theorem packRuns_cons (nCtx : Nat) (need : Option Nat) (cursor : Nat)
    (r : SeqId × SeqSlot) (rest : List (SeqId × SeqSlot)) :
    packRuns nCtx need cursor (r :: rest)
      = (if r.2.start ≠ cursor then [moveOf r cursor] else [])
        ++ (if need.any fun n => gapEnd nCtx rest - (cursor + r.2.cap) ≥ n then []
            else packRuns nCtx need (cursor + r.2.cap) rest) := by
  simp only [packRuns, moveOf]
  split
  · rw [List.append_nil]
  · rfl

/-- Membership in the plan: a run that is not where the runs before it
end, with no early stop before it. -/
theorem mem_packRuns {nCtx : Nat} {need : Option Nat} {m : KvMove} :
    ∀ {runs : List (SeqId × SeqSlot)} {cursor : Nat},
      m ∈ packRuns nCtx need cursor runs ↔
        ∃ pre r post, runs = pre ++ r :: post ∧ m = moveOf r (cursor + capSum pre)
          ∧ r.2.start ≠ cursor + capSum pre
          ∧ ∀ a t b, pre = a ++ t :: b → ∀ n ∈ need,
            gapEnd nCtx (b ++ r :: post) - (cursor + capSum a + t.2.cap) < n := by
  intro runs
  induction runs with
  | nil =>
      intro cursor
      simp [packRuns]
  | cons x rest ih =>
      intro cursor
      rw [packRuns_cons, List.mem_append]
      constructor
      · rintro (h | h)
        · split at h
          next hne =>
            exact ⟨[], x, rest, rfl, by simpa using h, by simpa using hne, by simp⟩
          next => cases h
        · split at h
          · cases h
          next hstop =>
            obtain ⟨pre, r, post, rfl, rfl, hne, hopen⟩ := ih.mp h
            refine ⟨x :: pre, r, post, rfl, ?_, ?_, ?_⟩
            · rw [capSum_cons, Nat.add_assoc]
            · rw [capSum_cons, ← Nat.add_assoc]
              exact hne
            · intro a t b hsplit n hn
              rcases a with _ | ⟨y, a⟩
              · cases hsplit
                cases hn
                simpa using hstop
              · cases hsplit
                have := hopen a t b rfl n hn
                rw [capSum_cons]
                omega
      · rintro ⟨pre, r, post, hsplit, rfl, hne, hopen⟩
        rcases pre with _ | ⟨y, pre⟩
        · cases hsplit
          left
          rw [if_pos (by simpa using hne)]
          simp
        · cases hsplit
          right
          rw [if_neg]
          · refine ih.mpr ⟨pre, r, post, rfl, ?_, ?_, ?_⟩
            · rw [capSum_cons, Nat.add_assoc]
            · rw [capSum_cons, ← Nat.add_assoc] at hne
              exact hne
            · rintro a t b rfl n hn
              have := hopen (x :: a) t b rfl n hn
              rw [capSum_cons] at this
              omega
          · rcases need with _ | n
            · simp
            · have := hopen [] x pre rfl n rfl
              simpa using this

/-- Moves of one plan, in plan order: sources and destinations ascend
together. -/
def Ascends (a b : KvMove) : Prop :=
  a.fromCell < b.fromCell ∧ a.fromCell + a.rows ≤ b.fromCell
    ∧ a.toCell + a.rows ≤ b.toCell

/-- Runs in ascending order whose written rows do not reach the next
run. -/
def InOrder (runs : List (SeqId × SeqSlot)) : Prop :=
  runs.Pairwise fun a b =>
    a.2.start < b.2.start ∧ a.2.start + a.2.privateWritten ≤ b.2.start

theorem ascends_packRuns {nCtx : Nat} {need : Option Nat} :
    ∀ {runs : List (SeqId × SeqSlot)} {cursor : Nat}, InOrder runs →
      (∀ r ∈ runs, r.2.privateWritten ≤ r.2.cap) →
      (packRuns nCtx need cursor runs).Pairwise Ascends := by
  intro runs
  induction runs with
  | nil => intro _ _ _; exact .nil
  | cons x rest ih =>
      intro cursor hord hfit
      obtain ⟨hx, hrest⟩ := List.pairwise_cons.mp hord
      have htail :
          (if need.any fun n => gapEnd nCtx rest - (cursor + x.2.cap) ≥ n
            then []
          else packRuns nCtx need (cursor + x.2.cap) rest).Pairwise Ascends := by
        split
        · exact .nil
        · exact ih hrest fun r hr => hfit r (List.mem_cons_of_mem _ hr)
      rw [packRuns_cons, List.pairwise_append]
      refine ⟨?_, htail, ?_⟩
      · split
        · exact List.pairwise_singleton ..
        · exact .nil
      · intro a ha b hb
        split at ha
        next =>
          rw [List.mem_singleton] at ha
          subst ha
          split at hb
          · cases hb
          · obtain ⟨pre, r, post, rfl, rfl, -, -⟩ := mem_packRuns.mp hb
            have hr := hx r (by simp)
            have := hfit x (List.mem_cons_self ..)
            refine ⟨hr.1, hr.2, ?_⟩
            simp only [moveOf]
            omega
        next => cases ha

-- ========================== move order

instance : Std.Total moveLe := ⟨fun a b => by unfold moveLe; grind⟩

instance : IsTrans KvMove moveLe :=
  ⟨fun a b c hab hbc => by unfold moveLe at *; grind⟩

theorem orderMoves_eq_nil {ms : List KvMove} : orderMoves ms = [] ↔ ms = [] := by
  have hperm : (orderMoves ms).Perm ms := List.perm_insertionSort moveLe ms
  constructor
  · intro h
    rw [h] at hperm
    exact hperm.symm.eq_nil
  · rintro rfl
    exact hperm.eq_nil

/-- Ordering the moves a second time changes nothing. -/
theorem orderMoves_orderMoves (ms : List KvMove) :
    orderMoves (orderMoves ms) = orderMoves ms :=
  (List.pairwise_insertionSort moveLe ms).insertionSort_eq

/-- In execution order, no move lands on what a later move reads or
writes. -/
theorem clear_orderMoves {ms : List KvMove} (h : ms.Pairwise Ascends) :
    ((orderMoves ms).map KvMove.toMove).Pairwise Clear := by
  have hperm : (orderMoves ms).Perm ms := List.perm_insertionSort moveLe ms
  have hsym : (orderMoves ms).Pairwise fun a b => Ascends a b ∨ Ascends b a := by
    refine (hperm.pairwise_iff fun {a b} hab => hab.symm).mpr ?_
    exact h.imp .inl
  rw [List.pairwise_map]
  refine (hsym.and (List.pairwise_insertionSort moveLe ms)).imp ?_
  rintro a b ⟨hasc, hle⟩
  have hcase : (a.toCell + a.rows ≤ b.fromCell ∨ b.fromCell + b.rows ≤ a.toCell)
      ∧ (a.toCell + a.rows ≤ b.toCell ∨ b.toCell + b.rows ≤ a.toCell) := by
    unfold Ascends at hasc
    unfold moveLe at hle
    split at hle <;> split at hle <;> omega
  constructor
  · rcases hcase.1 with hlt | hlt
    · exact Lib.apart_of_le hlt
    · exact (Lib.apart_of_le hlt).symm
  · rcases hcase.2 with hlt | hlt
    · exact Lib.apart_of_le hlt
    · exact (Lib.apart_of_le hlt).symm

-- ============================ the plan

/-- What the plan needs of a table: nonempty runs that hold their written
rows, at distinct places, with written rows that do not overlap. A table
whose capacities were just changed has no more than that. -/
structure Movable (c : KvCache ρ) : Prop where
  cap_pos : ∀ (s : SeqId) slot, c.seqs[s]? = some slot → 0 < slot.cap
  fits : ∀ (s : SeqId) slot, c.seqs[s]? = some slot → slot.privateWritten ≤ slot.cap
  order : ∀ (s t : SeqId) a b, s ≠ t → c.seqs[s]? = some a → c.seqs[t]? = some b →
    (a.start < b.start ∧ a.start + a.privateWritten ≤ b.start)
      ∨ (b.start < a.start ∧ b.start + b.privateWritten ≤ a.start)

variable {c : KvCache ρ}

theorem Inv.movable (hc : c.Inv) : c.Movable := by
  have hfits : ∀ (s : SeqId) slot, c.seqs[s]? = some slot →
      slot.privateWritten ≤ slot.cap := by
    intro s slot hs
    have hle := (hc.table.ok s slot hs).written_le
    unfold SeqSlot.privateWritten
    omega
  refine ⟨fun s slot hs => (hc.table.ok s slot hs).cap_pos, hfits, ?_⟩
  intro s t a b hst ha hb
  have hpa := (hc.table.ok s a ha).cap_pos
  have hpb := (hc.table.ok t b hb).cap_pos
  have hfa := hfits s a ha
  have hfb := hfits t b hb
  rcases hc.table.apart s t a b hst ha hb with h | h
  · exact .inl ⟨by omega, by omega⟩
  · exact .inr ⟨by omega, by omega⟩

instance : Std.Total runLe := ⟨fun a b => by unfold runLe; grind⟩

instance : IsTrans (SeqId × SeqSlot) runLe := ⟨fun a b c hab hbc => by
  unfold runLe at *
  grind⟩

/-- The sorted runs are the table's entries. -/
theorem Movable.perm_sortedRuns (hc : c.Movable) :
    c.sortedRuns.Perm c.seqs.toList := by
  refine (List.perm_insertionSort runLe _).trans ?_
  rw [List.filter_eq_self.mpr]
  intro r hr
  exact decide_eq_true (hc.cap_pos r.1 r.2 (mem_seqs_toList.mp hr))

theorem Movable.mem_sortedRuns (hc : c.Movable) {r : SeqId × SeqSlot} :
    r ∈ c.sortedRuns ↔ c.seqs[r.1]? = some r.2 := by
  rw [hc.perm_sortedRuns.mem_iff]
  exact mem_seqs_toList

theorem Movable.inOrder (hc : c.Movable) :
    InOrder c.sortedRuns := by
  have hne : c.sortedRuns.Pairwise fun a b => a.1 ≠ b.1 := by
    have hnd : (c.sortedRuns.map Prod.fst).Nodup :=
      (hc.perm_sortedRuns.map Prod.fst).nodup_iff.mpr (nodup_keys_toList c.seqs)
    exact List.pairwise_map.mp hnd
  refine ((hne.and (List.pairwise_insertionSort runLe _)).imp_of_mem ?_)
  rintro a b ha hb ⟨hab, hle⟩
  unfold runLe at hle
  rcases hc.order a.1 b.1 a.2 b.2 hab (hc.mem_sortedRuns.mp ha)
    (hc.mem_sortedRuns.mp hb)
    with h | h
  · exact h
  · omega

/-- Where the plan packs a run: behind the capacities of the runs below
it. -/
def packedStart (c : KvCache ρ) (slot : SeqSlot) : Nat :=
  capSum (c.seqs.toList.filter fun r => r.2.start < slot.start)

/-- The run is not packed yet, and nothing below it stopped the packing:
with a request for `n` cells, no run below it has `n` free cells between
its packed end and the next run. -/
def Displaced (need : Option Nat) (c : KvCache ρ) (slot : SeqSlot) : Prop :=
  slot.start ≠ c.packedStart slot
    ∧ ∀ n ∈ need, ∀ t ∈ c.seqs.toList, t.2.start < slot.start →
      ∃ u ∈ c.seqs.toList, t.2.start < u.2.start
        ∧ u.2.start - (c.packedStart t.2 + t.2.cap) < n

instance (need : Option Nat) (c : KvCache ρ) (slot : SeqSlot) :
    Decidable (c.Displaced need slot) :=
  inferInstanceAs (Decidable (_ ∧ _))

/-- The packed start counts exactly the runs sorted before. -/
theorem Movable.packedStart_eq (hc : c.Movable)
    {pre post : List (SeqId × SeqSlot)} {r : SeqId × SeqSlot}
    (h : c.sortedRuns = pre ++ r :: post) : c.packedStart r.2 = capSum pre := by
  have hord := hc.inOrder
  rw [h] at hord
  obtain ⟨-, hpost, hpre⟩ := List.pairwise_append.mp hord
  have hperm := hc.perm_sortedRuns.symm.filter fun x => x.2.start < r.2.start
  have hfilter : c.sortedRuns.filter (fun x => x.2.start < r.2.start) = pre := by
    rw [h, List.filter_append, List.filter_eq_self.mpr,
      List.filter_eq_nil_iff.mpr, List.append_nil]
    · intro x hx
      rcases List.mem_cons.mp hx with rfl | hx
      · simp
      · have := ((List.pairwise_cons.mp hpost).1 x hx).1
        simp only [decide_eq_true_eq]
        omega
    · intro x hx
      exact decide_eq_true (hpre x hx r (List.mem_cons_self ..)).1
  unfold packedStart capSum
  rw [(hperm.map _).sum_nat, hfilter]

/-- A lower run is packed below a higher one. -/
theorem Movable.packedStart_add_le (hc : c.Movable) {s t : SeqId}
    {a b : SeqSlot} (ha : c.seqs[s]? = some a) (hb : c.seqs[t]? = some b)
    (hlt : a.start < b.start) : c.packedStart a + a.cap ≤ c.packedStart b := by
  obtain ⟨pre, post, hruns⟩ :=
    List.append_of_mem ((hc.mem_sortedRuns (r := (t, b))).mpr hb)
  have hmem := (hc.mem_sortedRuns (r := (s, a))).mpr ha
  have hord := hc.inOrder
  rw [hruns] at hmem hord
  have hpre : (s, a) ∈ pre := by
    rcases List.mem_append.mp hmem with h | h
    · exact h
    · rcases List.mem_cons.mp h with h | h
      · cases h
        exact absurd hlt (Nat.lt_irrefl _)
      · have := ((List.pairwise_cons.mp (List.pairwise_append.mp hord).2.1).1 _ h).1
        simp only at this
        omega
  obtain ⟨pre₁, pre₂, rfl⟩ := List.append_of_mem hpre
  have hruns' : c.sortedRuns = pre₁ ++ (s, a) :: (pre₂ ++ (t, b) :: post) := by
    rw [hruns, List.append_assoc]
    rfl
  rw [hc.packedStart_eq (r := (s, a)) hruns',
    hc.packedStart_eq (r := (t, b)) hruns, capSum_append, capSum_cons]
  simp only
  omega

/-- Packed runs end below the sum of all capacities. -/
theorem Movable.packedStart_add_cap_le (hc : c.Movable)
    {s : SeqId} {slot : SeqSlot} (hslot : c.seqs[s]? = some slot) :
    c.packedStart slot + slot.cap ≤ c.reservedCells := by
  have hsum : c.reservedCells = capSum c.sortedRuns :=
    (hc.perm_sortedRuns.symm.map _).sum_nat
  obtain ⟨pre, post, hruns⟩ :=
    List.append_of_mem ((hc.mem_sortedRuns (r := (s, slot))).mpr hslot)
  rw [hc.packedStart_eq (r := (s, slot)) hruns, hsum, hruns, capSum_append,
    capSum_cons]
  simp only
  omega

/-- The plan, without the packing loop. -/
theorem mem_compactionPlan (hc : c.Movable) {need : Option Nat} {m : KvMove} :
    m ∈ c.compactionPlan need ↔ ∃ slot, c.seqs[m.seq]? = some slot
      ∧ m = moveOf (m.seq, slot) (c.packedStart slot) ∧ c.Displaced need slot := by
  unfold compactionPlan
  rw [mem_packRuns]
  constructor
  · rintro ⟨pre, r, post, hruns, rfl, hne, hopen⟩
    have hpacked := hc.packedStart_eq hruns
    rw [Nat.zero_add] at hne ⊢
    refine ⟨r.2, ?_, by rw [hpacked]; rfl, by rw [hpacked]; exact hne, ?_⟩
    · exact hc.mem_sortedRuns.mp (by rw [hruns]; simp)
    · intro n hn t ht hlt
      -- `t` was sorted before `r`; the run after it is the witness
      have hmem : t ∈ pre := by
        have htm := hc.perm_sortedRuns.mem_iff.mpr ht
        have hord := hc.inOrder
        rw [hruns] at htm hord
        rcases List.mem_append.mp htm with h | h
        · exact h
        · rcases List.mem_cons.mp h with h | h
          · cases h
            exact absurd hlt (Nat.lt_irrefl _)
          · have := ((List.pairwise_cons.mp
              (List.pairwise_append.mp hord).2.1).1 _ h).1
            omega
      obtain ⟨a, b, rfl⟩ := List.append_of_mem hmem
      have hsplit : c.sortedRuns = a ++ t :: (b ++ r :: post) := by
        rw [hruns, List.append_assoc]
        rfl
      have hgap := hopen a t b rfl n hn
      have hord := hc.inOrder
      rw [hsplit] at hord
      have hnext := (List.pairwise_cons.mp (List.pairwise_append.mp hord).2.1).1
      rw [hc.packedStart_eq hsplit]
      obtain ⟨u, urest, hu⟩ : ∃ u urest, b ++ r :: post = u :: urest := by
        rcases b with _ | ⟨y, b⟩
        · exact ⟨r, post, rfl⟩
        · exact ⟨y, b ++ r :: post, rfl⟩
      rw [hu] at hgap hnext hsplit
      refine ⟨u, hc.perm_sortedRuns.mem_iff.mp (by rw [hsplit]; simp), ?_, ?_⟩
      · exact (hnext u (List.mem_cons_self ..)).1
      · simpa [gapEnd] using hgap
  · rintro ⟨slot, hslot, hm, hne, hopen⟩
    obtain ⟨pre, post, hruns⟩ :=
      List.append_of_mem ((hc.mem_sortedRuns (r := (m.seq, slot))).mpr hslot)
    have hpacked := hc.packedStart_eq hruns
    simp only at hpacked
    refine ⟨pre, (m.seq, slot), post, hruns, ?_, ?_, ?_⟩
    · rw [Nat.zero_add, ← hpacked]
      exact hm
    · rw [Nat.zero_add, ← hpacked]
      exact hne
    · rintro a t b rfl n hn
      have hsplit : c.sortedRuns = a ++ t :: (b ++ (m.seq, slot) :: post) := by
        rw [hruns, List.append_assoc]
        rfl
      have hord := hc.inOrder
      rw [hsplit] at hord
      obtain ⟨-, htail, hbelow⟩ := List.pairwise_append.mp hord
      obtain ⟨hnext, htail⟩ := List.pairwise_cons.mp htail
      have htr : t.2.start < slot.start := (hnext (m.seq, slot) (by simp)).1
      have htmem : t ∈ c.seqs.toList :=
        hc.perm_sortedRuns.mem_iff.mp (by rw [hsplit]; simp)
      obtain ⟨u, hu, htu, hlt⟩ := hopen n hn t htmem htr
      rw [hc.packedStart_eq hsplit] at hlt
      -- the next run starts no later than any run above `t`
      have hle : gapEnd c.nCtx (b ++ (m.seq, slot) :: post) ≤ u.2.start := by
        have humem := hc.perm_sortedRuns.mem_iff.mpr hu
        rw [hsplit] at humem
        have hin : u ∈ b ++ (m.seq, slot) :: post := by
          rcases List.mem_append.mp humem with h | h
          · have := (hbelow _ h t (List.mem_cons_self ..)).1
            omega
          · rcases List.mem_cons.mp h with h | h
            · rw [← h] at htu
              exact absurd htu (Nat.lt_irrefl _)
            · exact h
        generalize b ++ (m.seq, slot) :: post = rest at hin htail
        rcases rest with _ | ⟨y, rest⟩
        · cases hin
        · rcases List.mem_cons.mp hin with h | h
          · rw [← h]
            exact Nat.le_refl _
          · exact Nat.le_of_lt ((List.pairwise_cons.mp htail).1 _ h).1
      omega

end KvCache
end Minfer.Graph
