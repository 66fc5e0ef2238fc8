/-
Which rows one forward touches, and who else reads them.

A forward touches rows in two ways. It stores one row per query, and
before that the copy-on-write pass of `fill_batch_inputs` may move rows: a
sequence that stores into its shared prefix first shifts the private rows
of its run up, to make room for the prefix positions it takes over. Both
land in the run of the sequence that the batch names, so they can meet a
row of another sequence only through that one's shared prefix, because two
runs never overlap.

# The two ways to reach another sequence

Nothing tells a donor that its rows are shared, so a donor that stores to
a position it already gave away writes a row its sharer reads. `StoresClear`
says that no query of the batch does this, and the cells that are resolved
are isolated exactly then.

Nothing protects the rows of a donor that was released either. Its cells
stay occupied while a sharer lives, but a chain of sharers can leave a
prefix inside the run of a third sequence, ahead of the rows that this one
has written; when copy-on-write shifts those rows up they land on the
prefix. `CopiesClear` says that no shift of the batch does this.

# The frame

`Framed` compares the state before the fill with the one after the stores:
whatever a live sequence reads, and its own queries leave alone, it still
reads. For a sequence outside the batch that is everything it had written
(`leftAlone_of_not_mem`). The shifts are followed row by row: the fill
leaves at cell `x` what was at cell `f x`, where `f` is the identity except
on the destinations of the shifts, and goes down there (`Moved`).
-/
import Minfer.Graph.Proofs.Keeps

namespace Minfer.Graph

open Lib (InRun memmove)

variable {ρ : Type}

-- ============================== shifts

/-- The positions copy-on-write is asked to make private for `s`: the
lowest of each of its groups, in order. -/
def Batch.lowsIn (b : Batch) (s : SeqId) (gs : List (SeqId × Nat × Nat)) : List Nat :=
  (gs.filter (·.1 = s)).filterMap fun g => (b.groupPositions g).min?

/-- Where the shifts of a run land, as cells and lengths: the run starts
at `start`, its sequence has written `written` rows and shares `rows` of
them, and is asked to make `lows` private one after the other. -/
def copyTargets (start written : Nat) : Nat → List Nat → List (Nat × Nat)
  | _, [] => []
  | rows, t :: ts =>
      (if t < rows then [(start + (rows - t), written - rows)] else [])
        ++ copyTargets start written (min rows t) ts

theorem copyTargets_append (start written : Nat) {us : List Nat} :
    ∀ {ts : List Nat} {rows : Nat}, copyTargets start written rows (ts ++ us)
      = copyTargets start written rows ts
        ++ copyTargets start written (ts.foldl min rows) us := by
  intro ts
  induction ts with
  | nil => intro rows; rfl
  | cons t ts ih =>
      intro rows
      simp only [List.cons_append, copyTargets, ih, List.append_assoc,
        List.foldl_cons]

theorem lowsIn_cons (b : Batch) (s : SeqId) (g : SeqId × Nat × Nat)
    (gs : List (SeqId × Nat × Nat)) :
    b.lowsIn s (g :: gs) = b.lowsIn s [g] ++ b.lowsIn s gs := by
  unfold Batch.lowsIn
  rw [← List.filterMap_append, ← List.filter_append]
  rfl

/-- Where a shifted cell's row came from: `rows` rows at `start` went up by
`d` cells. -/
def shiftedFrom (start d rows x : Nat) : Nat :=
  if InRun (start + d) rows x then x - d else x

theorem getElem?_memmove_shift {α : Type} {m : List α} {start d rows : Nat}
    (hfit : 0 < rows → start + d + rows ≤ m.length) (x : Nat) :
    (memmove m (start + d) start rows)[x]? = m[shiftedFrom start d rows x]? := by
  unfold shiftedFrom
  split
  next hin =>
    unfold InRun at hin
    have := hfit (by omega)
    rw [show x = start + d + (x - (start + d)) by omega,
      Lib.getElem?_memmove_dst (by omega) (by omega) (by omega)]
    congr 1
    omega
  next hout => exact Lib.getElem?_memmove_out hout

/-- A K and a V row, stored at one cell. -/
def KvLayer.store (l : KvLayer ρ) (x : Nat) (row : ρ × ρ) : KvLayer ρ :=
  { l with k := l.k.set x row.1, v := l.v.set x row.2 }

/-- Stores to other cells leave a cell as it is. -/
theorem KvLayer.foldl_store {x : Nat} (row : Nat → ρ × ρ)
    {qs : List (Nat × Nat)} (l : KvLayer ρ) (hne : ∀ q ∈ qs, q.1 ≠ x) :
    (qs.foldl (fun l q => l.store q.1 (row q.2)) l).k[x]? = l.k[x]?
      ∧ (qs.foldl (fun l q => l.store q.1 (row q.2)) l).v[x]? = l.v[x]? := by
  induction qs generalizing l with
  | nil => exact ⟨rfl, rfl⟩
  | cons q qs ih =>
      obtain ⟨hq, hqs⟩ := List.forall_mem_cons.mp hne
      obtain ⟨hk, hv⟩ := ih (l.store q.1 (row q.2)) hqs
      rw [List.foldl_cons, hk, hv]
      exact ⟨List.getElem?_set_ne hq, List.getElem?_set_ne hq⟩

namespace KvCache

-- ================================ rows

/-- The K and the V row at a cell, in one layer. -/
def rowIn (c : KvCache ρ) (i x : Nat) : Option (ρ × ρ) :=
  (c.layers[i]?.map fun l => (l.k, l.v)).bind fun l =>
    (l.1[x]?).bind fun k => (l.2[x]?).map (k, ·)

theorem rowAt_eq (c : KvCache ρ) (i : Nat) (s : SeqId) (p : Nat) :
    c.rowAt i s p = (c.cellOf s p).bind (c.rowIn i) := by
  unfold rowAt rowIn
  cases c.cellOf s p <;> cases c.layers[i]? <;> rfl

variable {c c' : KvCache ρ} {env : KvEnv} {b : Batch}
  {gs : List (SeqId × Nat × Nat)} {cells : List Nat} {t : SeqId}

/-- Equal regions hold equal rows. -/
theorem rowIn_congr {i : Nat}
    (h : c'.layers[i]?.map (fun l => (l.k, l.v)) = c.layers[i]?.map fun l =>
      (l.k, l.v)) (x : Nat) : c'.rowIn i x = c.rowIn i x := by
  unfold rowIn
  rw [h]

/-- What one copy-on-write did: nothing, when the position is private
already; else a shift of the written private rows, inside the run. -/
theorem kvPrivateRowFor_rows {seq t : Nat}
    {o : Option KvShift} (h : c.kvPrivateRowFor env seq t = (.ok o, c')) :
    (c' = c ∧ ∀ slot, c.seqs[seq]? = some slot → slot.shared.rows ≤ t)
      ∨ ∃ slot, c.seqs[seq]? = some slot ∧ t < slot.shared.rows
        ∧ slot.privateWritten + (slot.shared.rows - t) ≤ slot.cap
        ∧ ∀ i x, c'.rowIn i x = c.rowIn i
            (shiftedFrom slot.start (slot.shared.rows - t) slot.privateWritten
              x) := by
  unfold kvPrivateRowFor at h
  split at h
  · cases h
  next hnone =>
    cases h
    rcases privateRowFor_cases hnone with ⟨-, hle⟩ | ⟨slot, -, -, -, hcon⟩
    · exact .inl ⟨rfl, hle⟩
    · cases hcon
  next shift hshift =>
    rcases privateRowFor_cases hshift with ⟨hcon, -⟩ | ⟨slot, hslot, hlt, hroom, heq⟩
    · cases hcon
    cases heq
    simp only at h
    split at h
    · cases h
    next c₁ hcopy =>
      obtain ⟨hlayers, hfits⟩ := copyPlan_ok hcopy
      split at h
      · cases h
      next c₂ happly =>
        cases h
        obtain ⟨-, -, -, -, -, -, -, -, hregions⟩ := applyPrivateRow_cases happly
        refine .inr ⟨slot, hslot, hlt, hroom, fun i x => ?_⟩
        -- the bookkeeping half leaves the regions as the copy left them
        have hkept : c'.rowIn i x = c₁.rowIn i x := by
          refine rowIn_congr ?_ x
          rw [hregions, getElem?_map_nat, Option.map_map]
          rfl
        rw [hkept]
        unfold rowIn
        rw [hlayers]
        cases hl : c.layers[i]? with
        | none => rfl
        | some l =>
            have hfit := hfits i l hl _ (List.mem_singleton_self _)
            simp only [KvMove.toMove, Lib.Move.Fits] at hfit
            simp only [Option.map_some, Option.bind_some, KvLayer.copied,
              List.map_cons,
              List.map_nil, Lib.runMoves_cons, Lib.runMoves_nil, KvMove.toMove]
            rw [getElem?_memmove_shift fun hpos => by have := hfit hpos; omega,
              getElem?_memmove_shift fun hpos => by have := hfit hpos; omega]

/-- The rows of a whole run of shifts: cell `x` holds what was at `f x`,
which is `x` itself but on the destinations; those lie in the runs; and a
sequence reads its private rows where they went. -/
structure Moved (b : Batch) (gs : List (SeqId × Nat × Nat)) (c c' : KvCache ρ)
    (f : Nat → Nat) : Prop where
  rows : ∀ i x, c'.rowIn i x = c.rowIn i (f x)
  le : ∀ x, f x ≤ x
  fixed : ∀ x, f x = x ↔ ∀ (s : SeqId) slot, c.seqs[s]? = some slot →
    ∀ m ∈ copyTargets slot.start slot.written slot.shared.rows (b.lowsIn s gs),
      ¬ InRun m.1 m.2 x
  inside : ∀ (s : SeqId) slot, c.seqs[s]? = some slot →
    ∀ m ∈ copyTargets slot.start slot.written slot.shared.rows (b.lowsIn s gs),
      slot.start ≤ m.1 ∧ m.1 + m.2 ≤ slot.start + slot.cap
  own : ∀ (s : SeqId) slot slot', c.seqs[s]? = some slot → c'.seqs[s]? = some slot' →
    ∀ p, slot.shared.rows ≤ p → p < slot.written →
      f (slot'.start + (p - slot'.shared.rows)) = slot.start + (p - slot.shared.rows)
  written : ∀ s, c.writtenRows s ≤ c'.writtenRows s

/-- The table after the shifts: every prefix ends at the lowest of the
positions made private. -/
def Cut (b : Batch) (gs : List (SeqId × Nat × Nat)) (c c' : KvCache ρ) : Prop :=
  ∀ s : SeqId, c'.seqs[s]? = (c.seqs[s]?).map fun slot =>
    { slot with
      shared := ⟨slot.shared.cell, (b.lowsIn s gs).foldl min slot.shared.rows⟩ }

theorem Cut.slot (h : Cut b gs c c') {s : SeqId} {slot : SeqSlot}
    (hs : c.seqs[s]? = some slot) :
    c'.seqs[s]? = some { slot with
      shared := ⟨slot.shared.cell, (b.lowsIn s gs).foldl min slot.shared.rows⟩ } := by
  rw [h s, hs]
  rfl

/-- No group, or none that shifts anything. -/
theorem Moved.refl (hnone : ∀ (s : SeqId) slot, c.seqs[s]? = some slot →
      ∀ t ∈ b.lowsIn s gs, slot.shared.rows ≤ t) : Moved b gs c c id
        ∧ Cut b gs c c := by
  have hlows : ∀ (rows : Nat) (ts : List Nat), (∀ t ∈ ts, rows ≤ t) → ∀ start written,
      copyTargets start written rows ts = [] ∧ ts.foldl min rows = rows := by
    intro rows ts
    induction ts with
    | nil => exact fun _ _ _ => ⟨rfl, rfl⟩
    | cons t ts ih =>
        intro h start written
        obtain ⟨ht, hts⟩ := List.forall_mem_cons.mp h
        rw [copyTargets, List.foldl_cons, if_neg (by omega),
          Nat.min_eq_left ht, List.nil_append]
        exact ih hts start written
  have hnil (s : SeqId) (slot) (hs : c.seqs[s]? = some slot) :=
    hlows slot.shared.rows _ (hnone s slot hs) slot.start slot.written
  refine ⟨⟨fun _ _ => rfl, fun _ => Nat.le_refl _, fun x => ?_,
    fun s slot hs m hm => ?_,
    fun s slot slot' hs hs' p _ _ => ?_, fun _ => Nat.le_refl _⟩, fun s => ?_⟩
  · refine ⟨fun _ s slot hs m hm => ?_, fun _ => rfl⟩
    rw [(hnil s slot hs).1] at hm
    cases hm
  · rw [(hnil s slot hs).1] at hm
    cases hm
  · rw [hs] at hs'
    cases hs'
    rfl
  · cases hs : c.seqs[s]? with
    | none => rfl
    | some slot => rw [Option.map_some, (hnil s slot hs).2]

/-- Two runs of shifts, one after the other. -/
theorem Moved.trans {g : SeqId × Nat × Nat} {c₁ : KvCache ρ} {f f' : Nat → Nat}
    (h₁ : Moved b [g] c c₁ f) (ht₁ : Cut b [g] c c₁) (h₂ : Moved b gs c₁ c' f')
    (ht₂ : Cut b gs c₁ c') :
    Moved b (g :: gs) c c' (f ∘ f') ∧ Cut b (g :: gs) c c' := by
  have htargets (s : SeqId) (slot : SeqSlot) :
      copyTargets slot.start slot.written slot.shared.rows (b.lowsIn s (g :: gs))
        = copyTargets slot.start slot.written slot.shared.rows (b.lowsIn s [g])
          ++ copyTargets slot.start slot.written
              ((b.lowsIn s [g]).foldl min slot.shared.rows) (b.lowsIn s gs) := by
    rw [lowsIn_cons, copyTargets_append]
  refine ⟨⟨fun i x => ?_, fun x => ?_, fun x => ?_, fun s slot hs m hm => ?_,
    fun s slot slot' hs hs' p hlo hhi => ?_, fun s => ?_⟩, fun s => ?_⟩
  · rw [h₂.rows, h₁.rows]
    rfl
  · exact Nat.le_trans (h₁.le _) (h₂.le x)
  · -- a cell keeps its row when neither run of shifts lands on it
    have hboth : (f ∘ f') x = x ↔ f x = x ∧ f' x = x := by
      constructor
      · intro hx
        have hle₁ := h₁.le (f' x)
        have hle₂ := h₂.le x
        rw [Function.comp_apply] at hx
        have hx' : f' x = x := by omega
        rw [hx'] at hx
        exact ⟨hx, hx'⟩
      · rintro ⟨hx, hx'⟩
        rw [Function.comp_apply, hx', hx]
    rw [hboth, h₁.fixed, h₂.fixed]
    constructor
    · rintro ⟨hone, hrest⟩ s slot hs m hm
      rw [htargets] at hm
      rcases List.mem_append.mp hm with hm | hm
      · exact hone s slot hs m hm
      · exact hrest s _ (ht₁.slot hs) m hm
    · intro hall
      refine ⟨fun s slot hs m hm => hall s slot hs m ?_, fun s slot₁ hs₁ m hm => ?_⟩
      · rw [htargets]
        exact List.mem_append_left _ hm
      · cases hs : c.seqs[s]? with
        | none =>
            rw [ht₁ s, hs] at hs₁
            cases hs₁
        | some slot =>
            rw [ht₁.slot hs] at hs₁
            cases hs₁
            refine hall s slot hs m ?_
            rw [htargets]
            exact List.mem_append_right _ hm
  · rw [htargets] at hm
    rcases List.mem_append.mp hm with hm | hm
    · exact h₁.inside s slot hs m hm
    · exact h₂.inside s _ (ht₁.slot hs) m hm
  · have hs₁ := ht₁.slot hs
    have hle : (b.lowsIn s [g]).foldl min slot.shared.rows ≤ slot.shared.rows := by
      have hfold : ∀ (ts : List Nat) (r : Nat), ts.foldl min r ≤ r := by
        intro ts
        induction ts with
        | nil => exact fun r => Nat.le_refl r
        | cons t ts ih => exact fun r => Nat.le_trans (ih _) (Nat.min_le_left r t)
      exact hfold _ _
    rw [Function.comp_apply, h₂.own s _ slot' hs₁ hs' p (Nat.le_trans hle hlo) hhi]
    exact h₁.own s slot _ hs hs₁ p hlo hhi
  · exact Nat.le_trans (h₁.written s) (h₂.written s)
  · rw [ht₂ s, ht₁ s, Option.map_map, lowsIn_cons b s g gs]
    simp only [List.foldl_append]
    rfl

/-- One group of the copy-on-write pass. -/
theorem Inv.moved_group {g : SeqId × Nat × Nat} {t : Nat} {o : Option KvShift}
    (hc : c.Inv) (hmin : (b.groupPositions g).min? = some t)
    (h : c.kvPrivateRowFor env g.1 t = (.ok o, c')) :
    ∃ f, Moved b [g] c c' f ∧ Cut b [g] c c' := by
  have hlows (s : SeqId) : b.lowsIn s [g] = if g.1 = s then [t] else [] := by
    unfold Batch.lowsIn
    by_cases hs : g.1 = s <;> simp [hs, hmin]
  rcases kvPrivateRowFor_rows h with ⟨rfl, hle⟩ | ⟨slot₀, hslot₀, hlt, hroom, hrows⟩
  · refine ⟨id, Moved.refl fun s slot hs t' ht' => ?_⟩
    rw [hlows] at ht'
    split at ht'
    next heq =>
      rw [List.mem_singleton.mp ht']
      exact hle slot (heq ▸ hs)
    next => cases ht'
  have hcut : Cut b [g] c c' := by
    intro s
    rw [kvPrivateRowFor_table h s, hlows]
    by_cases hs : g.1 = s <;> simp [hs]
  -- the shift's destination, as the plan of one sequence
  have htargets (s : SeqId) (slot : SeqSlot) (hs : c.seqs[s]? = some slot) :
      copyTargets slot.start slot.written slot.shared.rows (b.lowsIn s [g])
        = if g.1 = s then
            [(slot₀.start + (slot₀.shared.rows - t), slot₀.privateWritten)]
          else [] := by
    rw [hlows]
    split
    next heq =>
      rw [← heq, hslot₀] at hs
      cases hs
      rw [copyTargets, copyTargets, if_pos hlt, List.append_nil]
      rfl
    next => rfl
  have hshift {x : Nat} :
      shiftedFrom slot₀.start (slot₀.shared.rows - t) slot₀.privateWritten x
      = x
      ↔ ¬ InRun (slot₀.start + (slot₀.shared.rows - t)) slot₀.privateWritten x := by
    unfold shiftedFrom
    split
    next hin =>
      unfold InRun at hin ⊢
      omega
    next hout => exact iff_of_true rfl hout
  refine ⟨_, ⟨hrows, fun x => ?_, fun x => ?_, fun s slot hs m hm => ?_,
    fun s slot slot' hs hs' p hlo hhi => ?_, fun s => ?_⟩, hcut⟩
  · unfold shiftedFrom
    split <;> omega
  · rw [hshift]
    constructor
    · intro hout s slot hs m hm
      rw [htargets s slot hs] at hm
      split at hm
      · rw [List.mem_singleton.mp hm]
        exact hout
      · cases hm
    · intro hall
      refine hall g.1 slot₀ hslot₀ (_, _) ?_
      rw [htargets g.1 slot₀ hslot₀, if_pos rfl]
      exact List.mem_singleton_self _
  · rw [htargets s slot hs] at hm
    split at hm
    next heq =>
      rw [← heq, hslot₀] at hs
      cases hs
      rw [List.mem_singleton.mp hm]
      simp only
      omega
    next => cases hm
  · rw [hcut.slot hs, hlows] at hs'
    cases hs'
    by_cases hs₀ : g.1 = s
    · -- its own private rows went up with the shift
      rw [← hs₀, hslot₀] at hs
      cases hs
      simp only [if_pos hs₀, List.foldl_cons, List.foldl_nil,
        Nat.min_eq_right (Nat.le_of_lt hlt)]
      unfold shiftedFrom
      have hpw : slot₀.privateWritten = slot₀.written - slot₀.shared.rows := rfl
      rw [if_pos (by unfold InRun; omega)]
      omega
    · -- another sequence's lie in another run
      simp only [if_neg hs₀, List.foldl_nil]
      rw [hshift]
      have hapart := hc.table.apart g.1 s slot₀ slot hs₀ hslot₀ hs
      have hwritten := (hc.table.ok s slot hs).written_le
      unfold InRun
      omega
  · unfold writtenRows
    rw [hcut s]
    cases c.seqs[s]? <;> exact Nat.le_refl _

/-- The copy-on-write pass, row by row. -/
theorem cowPass_rows :
    ∀ {c c' : KvCache ρ}, c.Inv → cowPass env b c gs = (.ok (), c') →
      ∃ f, Moved b gs c c' f ∧ Cut b gs c c' := by
  induction gs with
  | nil =>
      intro c c' _ h
      cases h
      exact ⟨id, Moved.refl fun _ _ _ t ht => nomatch ht⟩
  | cons g gs ih =>
      intro c c' hc h
      simp only [cowPass] at h
      split at h
      next hmin =>
        obtain ⟨f, hmoved, hcut⟩ := ih hc h
        have hnone : Moved b [g] c c id ∧ Cut b [g] c c := by
          refine Moved.refl fun s _ _ t ht => ?_
          unfold Batch.lowsIn at ht
          by_cases hs : g.1 = s <;> simp [hs, hmin] at ht
        exact ⟨_, hnone.1.trans hnone.2 hmoved hcut⟩
      next t hmin =>
        split at h
        · cases h
        next o c₁ h₁ =>
          obtain ⟨f, hmoved, hcut⟩ := hc.moved_group hmin h₁
          obtain ⟨f', hmoved', hcut'⟩ := ih (hc.kvPrivateRowFor h₁) h
          exact ⟨_, hmoved.trans hcut hmoved' hcut'⟩

-- =========================== ownership

/-- Owning positions changes no row and forgets none. -/
theorem ownPositions_rows {seq : SeqId} {positions : List Nat} :
    ∀ {c c' : KvCache ρ} {r : Except String Unit},
      c.ownPositions seq positions = (r, c') →
      (∀ i x, c'.rowIn i x = c.rowIn i x)
        ∧ ∀ s, c.writtenRows s ≤ c'.writtenRows s := by
  induction positions with
  | nil =>
      intro c c' r h
      cases h
      exact ⟨fun _ _ => rfl, fun _ => Nat.le_refl _⟩
  | cons pos rest ih =>
      intro c c' r h
      simp only [KvCache.ownPositions] at h
      split at h
      · cases h
        exact ⟨fun _ _ => rfl, fun _ => Nat.le_refl _⟩
      next cell _ =>
        obtain ⟨hrows, hwritten⟩ := ih h
        refine ⟨fun i x => ?_, fun s => Nat.le_trans ?_ (hwritten s)⟩
        · rw [hrows]
          exact rowIn_congr (ownRange_regions ..) x
        · have htable : (c.ownRange seq cell (cell + 1)).seqs[s]? = _ :=
            ownRange_table c seq cell (cell + 1) s
          unfold writtenRows
          rw [htable]
          unfold KvCache.table
          cases c.seqs[s]? with
          | none => exact Nat.le_refl _
          | some slot =>
              simp only [Option.map_some]
              split
              · exact le_raiseWritten ..
              · exact Nat.le_refl _

/-- So does the whole ownership pass. -/
theorem ownPass_rows :
    ∀ {c c' : KvCache ρ} {r : Except String Unit}, ownPass b c gs = (r, c') →
      (∀ i x, c'.rowIn i x = c.rowIn i x)
        ∧ ∀ s, c.writtenRows s ≤ c'.writtenRows s := by
  induction gs with
  | nil =>
      intro c c' r h
      cases h
      exact ⟨fun _ _ => rfl, fun _ => Nat.le_refl _⟩
  | cons g gs ih =>
      intro c c' r h
      rcases ownPass_cons h with ⟨rfl, -⟩ | ⟨c₁, hres, hown⟩
      · exact ⟨fun _ _ => rfl, fun _ => Nat.le_refl _⟩
      -- a reservation only adds a run that has written nothing
      have hfirst : (∀ i x, c₁.rowIn i x = c.rowIn i x)
          ∧ ∀ s, c.writtenRows s ≤ c₁.writtenRows s := by
        rcases hres with ⟨rfl, -⟩ | ⟨hnone, -, slot, hreserve⟩
        · exact ⟨fun _ _ => rfl, fun _ => Nat.le_refl _⟩
        rcases reserveSeq_cases hreserve with ⟨hsome, -, -⟩ | ⟨-, -, -, -, -, rfl⟩
        · rw [hnone] at hsome
          cases hsome
        refine ⟨fun i x => rowIn_congr (by rw [putSlot_layers]) x, fun s => ?_⟩
        unfold writtenRows
        rw [putSlot_seqs]
        by_cases heq : g.1 = s
        · rw [← heq, hnone]
          exact Nat.zero_le _
        · rw [if_neg heq]
      have hrest : (∀ i x, c'.rowIn i x = c₁.rowIn i x)
          ∧ ∀ s, c₁.writtenRows s ≤ c'.writtenRows s := by
        rcases hown with ⟨e, hown, -⟩ | ⟨c₂, hown, hpass⟩
        · exact ownPositions_rows hown
        · obtain ⟨hrows, hwritten⟩ := ownPositions_rows hown
          obtain ⟨hrows', hwritten'⟩ := ih hpass
          exact ⟨fun i x => (hrows' i x).trans (hrows i x),
            fun s => Nat.le_trans (hwritten s) (hwritten' s)⟩
      exact ⟨fun i x => (hrest.1 i x).trans (hfirst.1 i x),
        fun s => Nat.le_trans (hfirst.2 s) (hrest.2 s)⟩

/-- Filling a batch moves rows as its copy-on-write pass does, and nothing
else. -/
theorem fillBatchInputs_rows (hc : c.Inv)
    (h : c.fillBatchInputs env b = (.ok cells, c')) :
    ∃ f, Moved b b.groups c c' f := by
  unfold fillBatchInputs at h
  split at h
  · cases h
  next c₁ hcow =>
    split at h
    · cases h
    next c₂ hown =>
      simp only [Prod.mk.injEq] at h
      obtain ⟨-, rfl⟩ := h
      obtain ⟨f, hmoved, hcut⟩ := cowPass_rows hc hcow
      obtain ⟨hrows, hwritten⟩ := ownPass_rows hown
      obtain ⟨hc₁, -⟩ := cowPass_ok hc hcow
      obtain ⟨-, hkeep, -⟩ := ownPass_ok hc₁ hown
      refine ⟨f, fun i x => (hrows i x).trans (hmoved.rows i x), hmoved.le,
        hmoved.fixed, hmoved.inside, fun s slot slot' hs hs' p hlo hhi => ?_,
        fun s => Nat.le_trans (hmoved.written s) (hwritten s)⟩
      obtain ⟨slot'', hs'', hstart, -, hsh⟩ := hkeep s _ (hcut.slot hs)
      rw [hs'] at hs''
      cases hs''
      rw [hstart, hsh]
      exact hmoved.own s slot _ hs (hcut.slot hs) p hlo hhi

-- =========================== isolation

/-- No cell the batch stores to is one another live sequence reads. -/
def Isolated (c : KvCache ρ) (b : Batch) (cells : List Nat) : Prop :=
  ∀ (k : Nat) (s : SeqId) cell, b.seqIds[k]? = some s → cells[k]? = some cell →
    ∀ (t : SeqId) slot, t ≠ s → c.seqs[t]? = some slot →
      ∀ p < c.writtenRows t, c.cellOf t p ≠ some cell

/-- No query of the batch rewrites a row another live sequence reads in
place: the cell of its own run that the position falls on lies outside
what the batch leaves of every other sequence's shared prefix. -/
def StoresClear (c : KvCache ρ) (b : Batch) : Prop :=
  ∀ q ∈ b.seqIds.zip b.positions, ∀ slot ∈ c.seqSlot q.1, ∀ t ∈ c.seqs.toList,
    t.1 ≠ q.1 →
    ¬ InRun t.2.shared.cell (b.base t.1 t.2.shared.rows)
        (slot.start + (q.2 - b.base q.1 slot.shared.rows))

instance (c : KvCache ρ) (b : Batch) : Decidable (c.StoresClear b) :=
  inferInstanceAs (Decidable (∀ _ ∈ _, _))

/-- The cells of a filled batch are isolated exactly when no query rewrites
a row that another live sequence shares. -/
theorem Inv.isolated_iff (hc : c.Inv)
    (h : c.fillBatchInputs env b = (.ok cells, c')) :
    c'.Isolated b cells ↔ c.StoresClear b := by
  obtain ⟨hc', hlen, hcell, hold, hnew⟩ := fillBatchInputs_ok hc h
  constructor
  · rintro hiso ⟨s, pos⟩ hq slot hslot ⟨t, tslot⟩ ht hts hin
    rw [seqSlot, Option.mem_def] at hslot
    rw [mem_seqs_toList] at ht
    simp only at hslot hts hin
    obtain ⟨k, hk⟩ := List.mem_iff_getElem?.mp hq
    rw [List.getElem?_zip_eq_some] at hk
    obtain ⟨cell, hcellk, hat⟩ := hcell hk.1 hk.2
    obtain ⟨slot', hslot', -, heq, -⟩ := kvCellAt_ok hc'.spans hat
    obtain ⟨slot'', hs'', hstart, -, hsh⟩ := hold s slot hslot
    rw [hslot'] at hs''
    cases hs''
    obtain ⟨tslot', ht', -, -, htsh⟩ := hold t tslot ht
    have hcelleq : cell = slot.start + (pos - b.base s slot.shared.rows) := by
      rw [heq, hstart, hsh]
    rw [← hcelleq] at hin
    -- the stored cell is one of `t`'s prefix positions
    have hle := (hc'.table.ok t tslot' ht').shared_le
    rw [htsh] at hle
    simp only at hle
    refine hiso k s cell hk.1 hcellk t tslot' hts ht' (cell - tslot.shared.cell) ?_ ?_
    · rw [writtenRows_eq ht']
      unfold InRun at hin
      omega
    · rw [cellOf_eq hc'.spans, ht', Option.bind_some, SeqSlot.cellAt, htsh]
      unfold InRun at hin
      rw [if_pos (by simp only; omega)]
      simp only [Option.some_inj]
      omega
  · intro hclear k s cell hks hkc t tslot' hts ht' p hp hread
    obtain ⟨hklt, -⟩ := List.getElem?_eq_some_iff.mp hks
    obtain ⟨pos, hkp⟩ : ∃ pos, b.positions[k]? = some pos :=
      ⟨_, List.getElem?_eq_getElem (by omega)⟩
    obtain ⟨cell', hcell', hat⟩ := hcell hks hkp
    rw [hkc] at hcell'
    cases hcell'
    obtain ⟨slot', hslot', -, heq, hrun⟩ := kvCellAt_ok hc'.spans hat
    rw [cellOf_eq hc'.spans, ht', Option.bind_some, SeqSlot.cellAt] at hread
    split at hread
    next hshared =>
      -- read through the prefix: both sequences were there before
      cases htold : c.seqs[t]? with
      | none =>
          exact absurd hshared
            (by rw [(hnew t tslot' ht' htold).1]; exact Nat.not_lt_zero p)
      | some tslot =>
          obtain ⟨tslot'', ht'', -, -, htsh⟩ := hold t tslot htold
          rw [ht'] at ht''
          cases ht''
          have hin : InRun tslot.shared.cell (b.base t tslot.shared.rows) cell := by
            rw [htsh] at hread hshared
            simp only [Option.some_inj] at hread hshared
            unfold InRun
            omega
          cases hsold : c.seqs[s]? with
          | none => exact (hnew s slot' hslot' hsold).2 t tslot htold cell hrun hin
          | some slot =>
              obtain ⟨slot'', hs'', hstart, -, hsh⟩ := hold s slot hsold
              rw [hslot'] at hs''
              cases hs''
              have hmem : (s, pos) ∈ b.seqIds.zip b.positions :=
                List.mem_iff_getElem?.mpr
                  ⟨k, List.getElem?_zip_eq_some.mpr ⟨hks, hkp⟩⟩
              refine hclear (s, pos) hmem slot hsold (t, tslot)
                (mem_seqs_toList.mpr htold) hts ?_
              rw [heq, hstart, hsh] at hin
              exact hin
    next =>
      -- read through the private run: runs do not overlap
      split at hread
      next hin =>
        cases hread
        have := hc'.table.apart s t slot' tslot' (Ne.symm hts) hslot' ht'
        unfold InRun at hrun
        omega
      next => cases hread

-- =============================== frame

/-- The stores of one forward: in every layer the `k`-th query's K and V
row go to the `k`-th resolved cell. -/
def storeCells (c : KvCache ρ) (rows : Stores ρ) (cells : List Nat) : KvCache ρ :=
  { c with layers := c.layers.map fun i l =>
      cells.zipIdx.foldl (fun l q => l.store q.1 (rows i q.2)) l }

/-- A store changes no other cell. -/
theorem storeCells_rowIn (c : KvCache ρ) (rows : Stores ρ)
    (i : Nat) {x : Nat} (hx : x ∉ cells) :
    (c.storeCells rows cells).rowIn i x = c.rowIn i x := by
  unfold rowIn storeCells
  rw [getElem?_map_nat]
  cases c.layers[i]? with
  | none => rfl
  | some l =>
      have hne : ∀ q ∈ cells.zipIdx, q.1 ≠ x := fun q hq hqx =>
        hx (hqx ▸ List.fst_mem_of_mem_zipIdx hq)
      obtain ⟨hk, hv⟩ := KvLayer.foldl_store (rows i) l hne
      simp only [Option.map_some, Option.bind_some, hk, hv]

/-- No row that copy-on-write shifts lands on what the batch leaves of
another live sequence's shared prefix. -/
def CopiesClear (c : KvCache ρ) (b : Batch) : Prop :=
  ∀ r ∈ c.seqs.toList,
    ∀ m ∈ copyTargets r.2.start r.2.written r.2.shared.rows (b.lowsIn r.1 b.groups),
      ∀ t ∈ c.seqs.toList, t.1 ≠ r.1 → ∀ x ∈ List.range' m.1 m.2,
        ¬ InRun t.2.shared.cell (b.base t.1 t.2.shared.rows) x

instance (c : KvCache ρ) (b : Batch) : Decidable (c.CopiesClear b) :=
  inferInstanceAs (Decidable (∀ _ ∈ _, _))

/-- Neither a store nor a shift of the batch meets another sequence's
prefix. -/
def ForwardClear (c : KvCache ρ) (b : Batch) : Prop :=
  c.StoresClear b ∧ c.CopiesClear b

instance (c : KvCache ρ) (b : Batch) : Decidable (c.ForwardClear b) :=
  inferInstanceAs (Decidable (_ ∧ _))

/-- Position `p` of `t` is one that the queries of `t` itself leave alone:
a row of what is left of its prefix, when its own run does not lie there,
or a private row that is not queried. The positions in between are the
ones that copy-on-write makes private for it. -/
def LeftAlone (b : Batch) (t : SeqId) (slot : SeqSlot) (p : Nat) : Prop :=
  if p < b.base t slot.shared.rows then
    t ∈ b.seqIds → ¬ InRun slot.start slot.cap (slot.shared.cell + p)
  else slot.shared.rows ≤ p ∧ (t, p) ∉ b.seqIds.zip b.positions

/-- Every live sequence still reads, in every layer, each row it had
written and its own queries left alone. -/
def Framed (b : Batch) (c c' : KvCache ρ) : Prop :=
  ∀ (t : SeqId) slot, c.seqs[t]? = some slot →
    ∀ p < c.writtenRows t, LeftAlone b t slot p →
    p < c'.writtenRows t ∧ ∀ i, c'.rowAt i t p = c.rowAt i t p

/-- A sequence outside the batch leaves all its positions alone. -/
theorem leftAlone_of_not_mem (ht : t ∉ b.seqIds)
    (slot : SeqSlot) (p : Nat) : LeftAlone b t slot p := by
  have hnone (pos : Nat) : (t, pos) ∉ b.seqIds.zip b.positions := fun hmem =>
    ht (List.of_mem_zip hmem).1
  unfold LeftAlone
  split
  · exact fun hmem => absurd hmem ht
  next hp =>
    refine ⟨Nat.le_of_not_lt fun hlt =>
      hp (Batch.le_base_iff.mpr ⟨hlt, fun pos hq => ?_⟩),
      hnone p⟩
    exact absurd hq (hnone pos)

/-- A sequence that nothing is asked of shifts nothing. -/
theorem mem_of_lowsIn {s : SeqId} {t : Nat} (h : t ∈ b.lowsIn s b.groups) :
    s ∈ b.seqIds := by
  unfold Batch.lowsIn at h
  obtain ⟨g, hg, hmin⟩ := List.mem_filterMap.mp h
  obtain ⟨hmem, hs⟩ := List.mem_filter.mp hg
  have hs : g.1 = s := by simpa using hs
  have hpos := List.min?_mem hmin
  exact (List.of_mem_zip (Batch.mem_groupPositions.mp ⟨g, hmem, hs, hpos⟩)).1

/-- A position of the prefix is read where the donor wrote it. -/
theorem Inv.cellOf_prefix (hc : c.Inv) {slot : SeqSlot} {p : Nat}
    (hs : c.seqs[t]? = some slot) (hp : p < slot.shared.rows) :
    c.cellOf t p = some (slot.shared.cell + p) := by
  rw [cellOf_eq hc.spans, hs, Option.bind_some, SeqSlot.cellAt, if_pos hp]

/-- A private position that was written is read in the run. -/
theorem Inv.cellOf_private (hc : c.Inv)
    {slot : SeqSlot} {p : Nat} (hs : c.seqs[t]? = some slot)
    (hlo : slot.shared.rows ≤ p) (hp : p < c.writtenRows t) :
    c.cellOf t p = some (slot.start + (p - slot.shared.rows)) := by
  rw [writtenRows_eq hs] at hp
  have := (hc.table.ok t slot hs).written_le
  rw [cellOf_eq hc.spans, hs, Option.bind_some, SeqSlot.cellAt, if_neg (by omega),
    if_pos (by omega)]

/-- Every resolved cell is the cell of a query. -/
theorem stored_cell
    (hc : c.Inv) (h : c.fillBatchInputs env b = (.ok cells, c')) {x : Nat}
    (hx : x ∈ cells) :
    ∃ k s pos, b.seqIds[k]? = some s ∧ b.positions[k]? = some pos ∧ cells[k]? = some x
      ∧ c'.kvCellAt k s pos = .ok x := by
  obtain ⟨-, hlen, hcell, -, -⟩ := fillBatchInputs_ok hc h
  have hcells : cells.length = b.seqIds.length := by
    unfold fillBatchInputs at h
    split at h
    · cases h
    split at h
    · cases h
    simp only [Prod.mk.injEq] at h
    obtain ⟨hcells, -⟩ := h
    unfold kvCellsForSeq at hcells
    split at hcells
    · cases hcells
    · rw [forQueries_length hcells]
      omega
  obtain ⟨k, hk⟩ := List.mem_iff_getElem?.mp hx
  obtain ⟨hklt, -⟩ := List.getElem?_eq_some_iff.mp hk
  have hs : b.seqIds[k]? = some b.seqIds[k] := List.getElem?_eq_getElem (by omega)
  have hpos : b.positions[k]? = some b.positions[k] :=
    List.getElem?_eq_getElem (by omega)
  obtain ⟨x', hx', hat⟩ := hcell hs hpos
  rw [hk] at hx'
  cases hx'
  exact ⟨k, _, _, hs, hpos, hk, hat⟩

/-- A cell that a live sequence reads is stored to by nobody, when the
cells are isolated and its own queries do not resolve there. -/
theorem Isolated.not_stored (hiso : c'.Isolated b cells) (hc : c.Inv)
    (h : c.fillBatchInputs env b = (.ok cells, c'))
    {slot : SeqSlot} {p x : Nat} (hs : c'.seqs[t]? = some slot)
    (hp : p < c'.writtenRows t) (hx : c'.cellOf t p = some x)
    (hself : ∀ k pos, b.seqIds[k]? = some t → b.positions[k]? = some pos →
      c'.kvCellAt k t pos ≠ .ok x) : x ∉ cells := by
  intro hmem
  obtain ⟨k, s, pos, hk, hkp, hkc, hat⟩ := stored_cell hc h hmem
  by_cases hst : s = t
  · subst hst
    exact hself k pos hk hkp hat
  · exact hiso k s x hk hkc t slot (Ne.symm hst) hs p hp hx

/-- With neither a store nor a shift on a prefix, the forward changes no
row that it does not own. -/
theorem Inv.framed (hc : c.Inv)
    (h : c.fillBatchInputs env b = (.ok cells, c')) (hclear : c.ForwardClear b)
    (rows : Stores ρ) : Framed b c (c'.storeCells rows cells) := by
  obtain ⟨hc', -, -, hold, -⟩ := fillBatchInputs_ok hc h
  obtain ⟨f, hmoved⟩ := fillBatchInputs_rows hc h
  have hiso : c'.Isolated b cells := (hc.isolated_iff h).mpr hclear.1
  intro t slot hs p hp hleft
  obtain ⟨slot', hs', hstart, hcap, hsh⟩ := hold t slot hs
  have hp' : p < c'.writtenRows t := Nat.lt_of_lt_of_le hp (hmoved.written t)
  have hbase : b.base t slot.shared.rows ≤ slot.shared.rows :=
    (Batch.le_base_iff.mp (Nat.le_refl _)).1
  refine ⟨hp', fun i => ?_⟩
  -- the cell it reads now is stored to by nobody, and holds the old row
  obtain ⟨x, x', hx, hx', hself, hfrom⟩ : ∃ x x', c.cellOf t p = some x
      ∧ c'.cellOf t p = some x' ∧ (∀ k pos, b.seqIds[k]? = some t →
        b.positions[k]? = some pos → c'.kvCellAt k t pos ≠ .ok x') ∧ f x' = x := by
    unfold LeftAlone at hleft
    split at hleft
    next hlo =>
      have hcell := hc.cellOf_prefix hs (Nat.lt_of_lt_of_le hlo hbase)
      have hcell' := hc'.cellOf_prefix hs' (by rw [hsh]; exact hlo)
      rw [hsh] at hcell'
      simp only at hcell'
      refine ⟨_, _, hcell, hcell', fun k pos hk _ hat => ?_,
        (hmoved.fixed _).mpr fun s sslot hss m hm hin => ?_⟩
      · obtain ⟨slot'', hs'', -, -, hrun⟩ := kvCellAt_ok hc'.spans hat
        rw [hs'] at hs''
        cases hs''
        rw [hstart, hcap] at hrun
        exact hleft (List.mem_of_getElem? hk) hrun
      · by_cases hst : s = t
        · subst hst
          rw [hs] at hss
          cases hss
          obtain ⟨hmlo, hmhi⟩ := hmoved.inside s slot hs m hm
          obtain ⟨low, hlow⟩ : ∃ low, low ∈ b.lowsIn s b.groups := by
            cases hl : b.lowsIn s b.groups with
            | nil =>
                rw [hl] at hm
                cases hm
            | cons low _ => exact ⟨low, List.mem_cons_self ..⟩
          refine hleft (mem_of_lowsIn hlow) ?_
          unfold InRun at hin ⊢
          omega
        · refine hclear.2 (s, sslot) (mem_seqs_toList.mpr hss) m hm (t, slot)
            (mem_seqs_toList.mpr hs) (Ne.symm hst) _ (List.mem_range'_1.mpr hin) ?_
          unfold InRun
          simp only
          omega
    next hlo =>
      obtain ⟨hrows, hquery⟩ := hleft
      have hcell := hc.cellOf_private hs hrows hp
      have hcell' :=
        hc'.cellOf_private hs' (by rw [hsh]; exact Nat.le_of_not_lt hlo) hp'
      rw [writtenRows_eq hs] at hp
      refine ⟨_, _, hcell, hcell', fun k pos hk hpos hat => hquery ?_,
        hmoved.own t slot slot' hs hs' p hrows hp⟩
      obtain ⟨slot'', hs'', hle, heq, -⟩ := kvCellAt_ok hc'.spans hat
      rw [hs'] at hs''
      cases hs''
      rw [hsh] at heq hle
      simp only at heq hle
      have : pos = p := by omega
      rw [← this]
      exact List.mem_iff_getElem?.mpr ⟨k, List.getElem?_zip_eq_some.mpr ⟨hk, hpos⟩⟩
  have hstored := hiso.not_stored hc h hs' hp' hx' hself
  rw [rowAt_eq, rowAt_eq, hx, Option.bind_some,
    show (c'.storeCells rows cells).cellOf t p = some x' from hx',
    Option.bind_some, storeCells_rowIn c' rows i hstored, hmoved.rows, hfrom]

/-- Where rows can be told apart, a shift onto another sequence's prefix is
a row that this sequence no longer reads. -/
theorem Inv.copiesClear (hc : c.Inv)
    (h : c.fillBatchInputs env b = (.ok cells, c'))
    (hdistinct : c.DistinctRows) (hiso : c'.Isolated b cells)
    (hframed : ∀ rows : Stores ρ, Framed b c (c'.storeCells rows cells)) :
    c.CopiesClear b := by
  obtain ⟨hc', -, -, hold, -⟩ := fillBatchInputs_ok hc h
  obtain ⟨f, hmoved⟩ := fillBatchInputs_rows hc h
  rintro ⟨s, sslot⟩ hss m hm ⟨t, slot⟩ hts hne x hx hin
  rw [mem_seqs_toList] at hss hts
  simp only at hne hin hm
  have hx := List.mem_range'_1.mp hx
  have hbase : b.base t slot.shared.rows ≤ slot.shared.rows :=
    (Batch.le_base_iff.mp (Nat.le_refl _)).1
  obtain ⟨slot', hs', hstart, hcap, hsh⟩ := hold t slot hts
  have hok := hc.table.ok t slot hts
  -- the cell lies in the run of `s`, hence outside the run of `t`
  have hout : ¬ InRun slot.start slot.cap x := by
    have hapart := hc.table.apart s t sslot slot (Ne.symm hne) hss hts
    obtain ⟨hmlo, hmhi⟩ := hmoved.inside s sslot hss m hm
    unfold InRun
    omega
  obtain ⟨p, rfl⟩ : ∃ p, x = slot.shared.cell + p := ⟨x - slot.shared.cell, by
    unfold InRun at hin
    omega⟩
  have hp : p < b.base t slot.shared.rows := by
    unfold InRun at hin
    omega
  have hcell := hc.cellOf_prefix hts (Nat.lt_of_lt_of_le hp hbase)
  have hcell' := hc'.cellOf_prefix hs' (by rw [hsh]; exact hp)
  rw [hsh] at hcell'
  simp only at hcell'
  have hpw : p < c.writtenRows t := by
    rw [writtenRows_eq hts]
    have := hok.shared_le
    omega
  have hstored :=
    hiso.not_stored hc h hs' (Nat.lt_of_lt_of_le hpw (hmoved.written t)) hcell'
    fun k pos _ _ hat => by
      obtain ⟨slot'', hs'', -, -, hrun⟩ := kvCellAt_ok hc'.spans hat
      rw [hs'] at hs''
      cases hs''
      rw [hstart, hcap] at hrun
      exact hout hrun
  have hleft : LeftAlone b t slot p := by
    unfold LeftAlone
    rw [if_pos hp]
    exact fun _ => hout
  -- in the layer whose rows differ, the row read is the row that was there
  obtain ⟨i, l, hl, hnodup⟩ := hdistinct
  have hlen := hc.layers i l hl
  have hlt : slot.shared.cell + p < c.nCtx := by
    have := hok.shared_in
    omega
  have hfle := hmoved.le (slot.shared.cell + p)
  have hrow (y : Nat) (hy : y < c.nCtx) :
      ∃ row, c.rowIn i y = some row ∧ l.k[y]? = some row.1 := by
    obtain ⟨k, hk⟩ : ∃ k, l.k[y]? = some k :=
      ⟨_, List.getElem?_eq_getElem (by rwa [hlen.k_len])⟩
    obtain ⟨v, hv⟩ : ∃ v, l.v[y]? = some v :=
      ⟨_, List.getElem?_eq_getElem (by rwa [hlen.v_len])⟩
    refine ⟨(k, v), ?_, hk⟩
    unfold rowIn
    rw [hl, Option.map_some, Option.bind_some, hk, Option.bind_some, hv,
      Option.map_some]
  obtain ⟨row, hread, hk⟩ := hrow _ hlt
  obtain ⟨row', hread', hk'⟩ := hrow _ (Nat.lt_of_le_of_lt hfle hlt)
  have hsame := (hframed (fun _ _ => row) t slot hts p hpw hleft).2 i
  rw [rowAt_eq, rowAt_eq, hcell, Option.bind_some,
    show (c'.storeCells _ cells).cellOf t p = _ from hcell', Option.bind_some,
    storeCells_rowIn c' _ i hstored, hmoved.rows, hread, hread',
    Option.some_inj] at hsame
  have hfixed : f (slot.shared.cell + p) = slot.shared.cell + p :=
    (List.getElem?_inj (by rw [hlen.k_len]; omega) hnodup).mp (by rw [hk, hk', hsame])
  exact (hmoved.fixed _).mp hfixed s sslot hss m hm hx

/-- Sequence 2 reads the three rows of sequence 1 in place. -/
def sharedRows : KvCache Nat := after
  [.reserve 1 4, .own 1 [0, 1, 2] (rowsFrom 100), .reserve 2 4, .share 1 2 3]

/-- Sequence 2 reads two rows of a donor that was released, and the
compaction put the run of sequence 3, a sharer of sequence 4, before them. -/
def chainedSharers : KvCache Nat := after
  [.reserve 5 1, .reserve 4 1, .reserve 1 2, .reserve 3 2, .reserve 2 1,
    .own 4 [0] (rowsFrom 400), .own 1 [0, 1] (rowsFrom 100), .share 4 3 1,
    .own 3 [1] (rowsFrom 300), .share 1 2 2, .release 5, .release 1, .defrag none]

set_option maxRecDepth 8000 in
/-- When sequence 3 goes back to position 0 its store is isolated, but the
row it had written moves up from cell 1 to cell 2, where sequence 2 reads
its own position 0: row 301 for row 100. -/
theorem copy_reaches_orphaned_prefix :
    Reachable .plain chainedSharers ∧ ∃ c',
      chainedSharers.fillBatchInputs .plain ⟨[7], [0], [3]⟩ = (.ok [1], c')
        ∧ c'.Isolated ⟨[7], [0], [3]⟩ [1]
        ∧ chainedSharers.rowAt 0 2 0 = some (100, 100)
        ∧ c'.rowAt 0 2 0 = some (301, 301)
        ∧ ¬ ∀ rows, Framed ⟨[7], [0], [3]⟩ chainedSharers
          (c'.storeCells rows [1]) := by
  have hreach : Reachable .plain chainedSharers := reachable_after _
  have hok : (chainedSharers.fillBatchInputs .plain ⟨[7], [0], [3]⟩).1
    = .ok [1] := by decide
  have hread : chainedSharers.rowAt 0 2 0 = some (100, 100) := by decide
  have hread' : (chainedSharers.fillBatchInputs .plain ⟨[7], [0], [3]⟩).2.rowAt 0 2 0
      = some (301, 301) := by decide
  have hstored : ((chainedSharers.fillBatchInputs .plain ⟨[7], [0], [3]⟩).2.storeCells
      (fun _ _ => (0, 0)) [1]).rowAt 0 2 0 = some (301, 301) := by decide
  have hslot : chainedSharers.seqs[2]? = some ⟨3, 1, ⟨2, 2⟩, 2⟩ := by decide
  have hwritten : 0 < chainedSharers.writtenRows 2 := by decide
  have hclear : chainedSharers.StoresClear ⟨[7], [0], [3]⟩ := by decide
  generalize hc : chainedSharers = c at *
  generalize hout : c.fillBatchInputs .plain ⟨[7], [0], [3]⟩ = out at *
  obtain ⟨r, c'⟩ := out
  simp only at hok hread' hstored
  subst hok
  refine ⟨hreach, c', rfl, (hreach.inv.isolated_iff hout).mpr hclear, hread,
    hread', fun hframed => ?_⟩
  have hrow := (hframed (fun _ _ => (0, 0)) 2 _ hslot 0 hwritten
    (leftAlone_of_not_mem (by decide) _ _)).2 0
  rw [hstored, hread] at hrow
  exact absurd hrow (by decide)

end KvCache
end Minfer.Graph
