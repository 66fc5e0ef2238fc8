/-
Resizes that fail (`kv_set_cap_with_defrag`).

`set_cap` changes the run table before anything has moved, so a failure
after it has to be undone. A refusal and a disabled defragmentation are:
the second puts the old capacity back. A copy that fails, or a plan whose
bookkeeping is refused, leaves the new capacity in the table with the
runs where they were. `Recovers` is the absence of these, and
`failed_resize_undone_iff` says that nothing else is lost.

The arenas are those of a whole life (`Lived`), failed calls included. A
compaction that stops half-way has moved some runs down and left the
others: `Lands` is why that table is still well formed.
-/
import Minfer.Lib.Except
import Minfer.Graph.Proofs.Keeps
import Minfer.Graph.Proofs.Windows

namespace Minfer.Graph

open Lib (InRun)

variable {ρ : Type}

namespace KvCache

-- ============= a plan that stops early

/-- The runs of a table: where each starts, and its capacity. -/
def runs (c : KvCache ρ) (s : SeqId) : Option (Nat × Nat) :=
  (c.seqs[s]?).map fun a => (a.start, a.cap)

/-- The runs after one move. -/
def movedRuns (m : KvMove) (runs : SeqId → Option (Nat × Nat)) (s : SeqId) :
    Option (Nat × Nat) :=
  (runs s).map fun r => (if m.seq = s then m.toCell else r.1, r.2)

/-- The move puts its run on cells of the arena that no other run has. -/
def Lands (n : Nat) (runs : SeqId → Option (Nat × Nat)) (m : KvMove) : Prop :=
  m.toCell + m.rows ≤ n ∧ ∀ r, runs m.seq = some r → m.toCell + r.2 ≤ n
    ∧ ∀ t q, t ≠ m.seq → runs t = some q → m.toCell + r.2 ≤ q.1 ∨ q.1 + q.2 ≤ m.toCell

/-- Every move of the plan lands, after the moves before it. -/
def LandsAll (n : Nat) : (SeqId → Option (Nat × Nat)) → List KvMove → Prop
  | _, [] => True
  | runs, m :: rest => Lands n runs m ∧ LandsAll n (movedRuns m runs) rest

variable {c c' : KvCache ρ} {m : KvMove} {r : Except String Unit} {n : Nat}
  {env : KvEnv}

/-- Following a move either happens or is refused before anything is
written. -/
theorem followSharers_error {e : String}
    (h : c.followSharers m = (.error e, c')) : c' = c := by
  unfold followSharers at h
  split at h
  · split at h
    · cases h
      rfl
    · cases h
  · cases h

/-- One move, whatever its outcome: the run is at the move's destination,
and a prefix stayed or followed the rows. -/
theorem applyMove_slots (h : c.applyMove m = (r, c')) :
    c'.layers = c.layers.map (fun _ l => moveOwner m l) ∧ c'.nCtx = c.nCtx
      ∧ (c.SpansOk → c'.SpansOk)
      ∧ ((∀ s : SeqId, c'.seqs[s]? = (c.seqs[s]?).map fun a =>
            { a with start := if m.seq = s then m.toCell else a.start })
          ∨ (∀ s : SeqId, c'.seqs[s]? = (c.seqs[s]?).map (relocate s · m))
            ∧ ∀ (s : SeqId) a, c.seqs[s]? = some a → Carries s m a.shared) := by
  cases r with
  | ok u =>
      obtain ⟨hseqs, hcarry, hlayers, hn, hsp⟩ := applyMove_ok h
      exact ⟨hlayers, hn, hsp, .inr ⟨hseqs, hcarry⟩⟩
  | error e =>
      have hstay := followSharers_error h
      obtain ⟨hlayers, hn, hsp⟩ :=
        moveRun_frame { c with layers := c.layers.map fun _ l => moveOwner m l } m
      rw [hstay]
      exact ⟨hlayers, hn, fun hc => hsp (SpansOk.of_eq rfl rfl hc),
        .inl (moveRun_seqs
            { c with layers := c.layers.map fun _ l => moveOwner m l } m)⟩

theorem applyMove_runs
    (h : c.applyMove m = (r, c')) : c'.runs = movedRuns m c.runs := by
  obtain ⟨-, -, -, hseqs | ⟨hseqs, -⟩⟩ := applyMove_slots h
  all_goals
    funext s
    simp only [runs, movedRuns, hseqs s]
    cases c.seqs[s]? <;> rfl

/-- A move that lands keeps the arena well formed, whatever its outcome. -/
theorem Inv.applyMove (hc : c.Inv) (hland : Lands c.nCtx c.runs m)
    (h : c.applyMove m = (r, c')) :
    c'.Inv := by
  obtain ⟨hlayers, hn, hsp, hseqs⟩ := applyMove_slots h
  obtain ⟨hrows, hrun⟩ := hland
  -- a slot of the moved table, and the one it was
  have hold : ∀ (s : SeqId) a', c'.seqs[s]? = some a' → ∃ a, c.seqs[s]? = some a
      ∧ a'.start = (if m.seq = s then m.toCell else a.start) ∧ a'.cap = a.cap
      ∧ a'.written = a.written ∧ a'.shared.rows = a.shared.rows
      ∧ (a'.shared.rows = 0 ∨ a'.shared.cell + a'.shared.rows ≤ c.nCtx) := by
    intro s a' ha'
    rcases hseqs with hstay | ⟨hmoved, hcarry⟩
    · rw [hstay s] at ha'
      obtain ⟨a, ha, rfl⟩ := Option.map_eq_some_iff.mp ha'
      exact ⟨a, ha, rfl, rfl, rfl, rfl, (hc.table.ok s a ha).shared_in⟩
    · rw [hmoved s] at ha'
      obtain ⟨a, ha, rfl⟩ := Option.map_eq_some_iff.mp ha'
      refine ⟨a, ha, rfl, rfl, rfl, follow_rows .., ?_⟩
      have hone : CarriesAll s a.shared [m] := ⟨hcarry s a ha, trivial⟩
      refine followAll_le (hc.table.ok s a ha).shared_in hone ?_
      intro m' hm'
      rw [List.mem_singleton.mp hm']
      exact hrows
  refine ⟨⟨fun s a' ha' => ?_, fun s t a' b' hst ha' hb' => ?_⟩, hsp hc.spans,
    fun i l' hl' => ?_⟩
  · obtain ⟨a, ha, hstart, hcap, hw, hsh, hin⟩ := hold s a' ha'
    have hok := hc.table.ok s a ha
    rw [hn]
    refine ⟨hcap ▸ hok.cap_pos, ?_, by rw [hsh, hw]; exact hok.shared_le,
      by rw [hsh, hw, hcap]; exact hok.written_le, hin⟩
    rw [hstart, hcap]
    split
    next hs =>
      refine (hrun (a.start, a.cap) ?_).1
      rw [hs, runs, ha]
      rfl
    next => exact hok.in_arena
  · obtain ⟨a, ha, hstart, hcap, -⟩ := hold s a' ha'
    obtain ⟨b, hb, hstart', hcap', -⟩ := hold t b' hb'
    have hra : c.runs s = some (a.start, a.cap) := by rw [runs, ha]; rfl
    have hrb : c.runs t = some (b.start, b.cap) := by rw [runs, hb]; rfl
    rw [hstart, hcap, hstart', hcap']
    by_cases hs : m.seq = s
    · subst hs
      rw [if_pos rfl, if_neg hst]
      exact (hrun _ hra).2 t _ (Ne.symm hst) hrb
    · rw [if_neg hs]
      by_cases ht : m.seq = t
      · subst ht
        rw [if_pos rfl]
        exact ((hrun _ hrb).2 s _ hst hra).symm
      · rw [if_neg ht]
        exact hc.table.apart s t a b hst ha hb
  · rw [hlayers, getElem?_map_nat] at hl'
    obtain ⟨l, hl, rfl⟩ := Option.map_eq_some_iff.mp hl'
    obtain ⟨hk, hv, ho⟩ := moveOwner_frame m l
    have hok := hc.layers i l hl
    rw [hn]
    exact ⟨ho.trans hok.owner_len, (congrArg List.length hk).trans hok.k_len,
      (congrArg List.length hv).trans hok.v_len⟩

/-- So does a plan whose moves land in turn, however far it gets. -/
theorem Inv.applyMovesLoop {ms : List KvMove} (hc : c.Inv)
    (hland : LandsAll c.nCtx c.runs ms) (h : c.applyMovesLoop ms = (r, c')) :
    c'.Inv := by
  induction ms generalizing c with
  | nil =>
      cases h
      exact hc
  | cons m rest ih =>
      obtain ⟨hm, hrest⟩ := hland
      simp only [KvCache.applyMovesLoop] at h
      split at h
      next c₁ h₁ =>
        have hn : c₁.nCtx = c.nCtx := (applyMove_slots h₁).2.1
        refine ih (hc.applyMove hm h₁) ?_ h
        rw [hn, applyMove_runs h₁]
        exact hrest
      next e c₁ h₁ =>
        cases h
        exact hc.applyMove hm h₁

variable {need : Option Nat} {cap seq : Nat} {slot : SeqSlot}

/-- Packing runs that are in order and above the cursor: each lands below
itself, above everything already packed. -/
theorem landsAll_packRuns {rs : List (SeqId × SeqSlot)} :
    ∀ {cursor : Nat} {runs : SeqId → Option (Nat × Nat)},
      (∀ r ∈ rs, runs r.1 = some (r.2.start, r.2.cap) ∧ r.2.privateWritten ≤ r.2.cap
        ∧ cursor ≤ r.2.start ∧ r.2.start + r.2.cap ≤ n) →
      (∀ t q, t ∉ rs.map Prod.fst → runs t = some q → q.1 + q.2 ≤ cursor) →
      rs.Pairwise (fun a b => a.1 ≠ b.1 ∧ a.2.start + a.2.cap ≤ b.2.start) →
      LandsAll n runs (packRuns n need cursor rs) := by
  induction rs with
  | nil => intro _ _ _ _ _; trivial
  | cons x rest ih =>
      intro cursor runs hin hout hord
      obtain ⟨hx, hrest⟩ := List.pairwise_cons.mp hord
      obtain ⟨hrun, hfit, hcursor, hend⟩ := hin x List.mem_cons_self
      -- what the rest is packed onto, in a table in which `x` starts at the
      -- cursor
      have htail : ∀ {runs' : SeqId → Option (Nat × Nat)},
          runs' x.1 = some (cursor, x.2.cap) →
          (∀ t, t ≠ x.1 → runs' t = runs t) →
          LandsAll n runs'
            (if need.any fun k => gapEnd n rest - (cursor + x.2.cap) ≥ k
              then []
            else packRuns n need (cursor + x.2.cap) rest) := by
        intro runs' hself hothers
        split
        · trivial
        · refine ih (fun r hr => ?_) (fun t q ht hq => ?_) hrest
          · obtain ⟨hr₁, hr₂, -, hr₄⟩ := hin r (List.mem_cons_of_mem _ hr)
            have hxr := hx r hr
            rw [hothers r.1 (Ne.symm hxr.1)]
            exact ⟨hr₁, hr₂, by omega, hr₄⟩
          · by_cases htx : t = x.1
            · rw [htx, hself] at hq
              cases hq
              exact Nat.le_refl _
            · rw [hothers t htx] at hq
              have := hout t q (by simpa [htx] using ht) hq
              omega
      rw [packRuns_cons]
      by_cases hplace : x.2.start = cursor
      · rw [if_neg (not_not.mpr hplace), List.nil_append]
        exact htail (hplace ▸ hrun) fun _ _ => rfl
      · rw [if_pos hplace, List.singleton_append]
        refine ⟨⟨?_, fun r hr => ?_⟩, htail ?_ fun t ht => ?_⟩
        · simp only [moveOf]
          omega
        · simp only [moveOf] at hr ⊢
          rw [hrun] at hr
          cases hr
          refine ⟨by omega, fun t q ht hq => ?_⟩
          by_cases htr : t ∈ rest.map Prod.fst
          · obtain ⟨r, hr, rfl⟩ := List.mem_map.mp htr
            obtain ⟨hr₁, -⟩ := hin r (List.mem_cons_of_mem _ hr)
            have hxr := hx r hr
            rw [hr₁] at hq
            cases hq
            simp only
            omega
          · exact .inr (hout t q (by simp [ht, htr]) hq)
        · simp only [movedRuns, moveOf, hrun, Option.map_some, if_true]
        · cases hq : runs t <;> simp [movedRuns, moveOf, hq, Ne.symm ht]

/-- The plan of a well-formed table lands, run by run. -/
theorem Inv.landsAll (hc : c.Inv) (need : Option Nat) :
    LandsAll c.nCtx c.runs (c.compactionPlan need) := by
  have hm := hc.movable
  have hmem : ∀ r ∈ c.sortedRuns, c.seqs[r.1]? = some r.2 :=
    fun r hr => hm.mem_sortedRuns.mp hr
  have hnd : (c.sortedRuns.map Prod.fst).Nodup :=
    (hm.perm_sortedRuns.map Prod.fst).nodup_iff.mpr (nodup_keys_toList c.seqs)
  refine landsAll_packRuns (fun r hr => ?_) (fun t q ht hq => ?_) ?_
  · have hslot := hmem r hr
    refine ⟨?_, hm.fits r.1 r.2 hslot, Nat.zero_le _,
      (hc.table.ok _ _ hslot).in_arena⟩
    rw [runs, hslot]
    rfl
  · obtain ⟨a, ha, rfl⟩ := Option.map_eq_some_iff.mp hq
    exact absurd (List.mem_map.mpr ⟨(t, a), hm.mem_sortedRuns.mpr ha, rfl⟩) ht
  · refine ((List.pairwise_map.mp hnd).and hm.inOrder).imp_of_mem ?_
    rintro a b ha hb ⟨hne, hlt, -⟩
    have hcap := hm.cap_pos b.1 b.2 (hmem b hb)
    rcases hc.table.apart a.1 b.1 a.2 b.2 hne (hmem a ha) (hmem b hb) with h | h
    · exact ⟨hne, h⟩
    · omega

theorem Inv.applyMoves {r : Except String Nat} (hc : c.Inv)
    (h : c.applyMoves (c.compactionPlan need) = (r, c')) :
    c'.Inv := by
  unfold KvCache.applyMoves at h
  split at h
  · cases h
    exact hc
  · simp only [hc.orderMoves_plan need] at h
    split at h
    · cases h
      exact hc
    · split at h
      next e c₁ h₁ =>
        cases h
        exact hc.applyMovesLoop (hc.landsAll need) h₁
      next c₁ h₁ =>
        cases h
        have hc₁ := hc.applyMovesLoop (hc.landsAll need) h₁
        exact ⟨hc₁.table, SpansOk.of_eq rfl rfl hc₁.spans, hc₁.layers⟩

/-- `kv_defrag` keeps the arena well formed, wherever it stops. -/
theorem Inv.kvDefrag_left (hc : c.Inv)
    {r : Except String DefragReport} (h : c.kvDefrag env need = (r, c')) :
    c'.Inv := by
  simp only [KvCache.kvDefrag] at h
  split at h
  · cases h
    exact hc
  · split at h
    next e c₁ h₁ =>
      cases h
      exact hc.copyPlan h₁
    next c₁ h₁ =>
      have hc₁ := hc.copyPlan h₁
      obtain ⟨hseqs, -, hn⟩ := copyPlan_frame h₁
      have hplan : c.compactionPlan need = c₁.compactionPlan need := by
        unfold compactionPlan sortedRuns
        rw [hseqs, hn]
      rw [hplan] at h
      split at h
      next e c₂ h₂ =>
        cases h
        exact hc₁.applyMoves h₂
      next n c₂ h₂ =>
        cases h
        exact hc₁.applyMoves h₂

-- ============================ the undo

/-- The run table, the span lists and the owner tables are what they
were. -/
structure SameTables (c c' : KvCache ρ) : Prop where
  seqs : ∀ s : SeqId, c'.seqs[s]? = c.seqs[s]?
  spans : ∀ s : SeqId, c'.spans[s]? = c.spans[s]?
  owner : ∀ i : Nat, (c'.layers[i]?).map (·.owner) = (c.layers[i]?).map (·.owner)

/-- A resize that returns an error leaves the tables as they were, and the
runs apart and inside the arena. -/
def ResizeUndone (env : KvEnv) (c : KvCache ρ) (seq cap : Nat) : Prop :=
  ∀ e c', c.kvSetCapWithDefrag env seq cap = (.error e, c') →
    SameTables c c' ∧ TableInv c'.nCtx c'.table

/-- `set_cap` accepts the new capacity of a run: it holds what was written,
and it fits the arena together with the other runs. -/
def Admits (c : KvCache ρ) (seq cap : Nat) (slot : SeqSlot) : Prop :=
  (cap < slot.cap → slot.privateWritten ≤ cap)
    ∧ (slot.cap < cap → (c.resized seq cap slot).reservedCells ≤ c.nCtx)

/-- The moves a resize asks for, in the order they are carried out. -/
def resizePlan (c : KvCache ρ) (seq cap : Nat) (slot : SeqSlot) : List KvMove :=
  orderMoves ((c.resized seq cap slot).compactionPlan none)

/-- The resize does not release the run, and where it needs moves and may
make them, no copy is refused and no prefix straddles moved rows. -/
def Recovers (env : KvEnv) (c : KvCache ρ) (seq cap : Nat) : Prop :=
  ∀ slot, c.seqs[seq]? = some slot → cap ≠ slot.cap → cap ≠ 0
    ∧ (c.Admits seq cap slot → c.resizePlan seq cap slot ≠ [] →
      env.defragEnabled = true →
      env.GrantsAll c (c.resizePlan seq cap slot)
        ∧ ∀ (s : SeqId) a, c.seqs[s]? = some a →
          CarriesAll s a.shared (c.resizePlan seq cap slot))

theorem setCap_of_admits (hslot : c.seqs[seq]? = some slot)
    (hne : cap ≠ slot.cap) (hpos : cap ≠ 0) (hadm : c.Admits seq cap slot) :
    c.setCap seq cap
      = .ok ((c.resized seq cap slot).compactionPlan none,
        c.resized seq cap slot) := by
  obtain ⟨hshrink, hgrow⟩ := hadm
  rw [reservedCells_resized] at hgrow
  simp only [setCap, hslot]
  rw [if_neg hne, if_neg hpos, if_neg (by omega), if_neg (by omega)]
  rfl

/-- A plan's bookkeeping never changes a capacity, nor which sequences
hold a run. -/
theorem applyMoves_cap {moves : List KvMove}
    {r : Except String Nat} (h : c.applyMoves moves = (r, c')) (s : SeqId) :
    (c'.seqs[s]?).map (·.cap) = (c.seqs[s]?).map (·.cap) := by
  have hloop : ∀ (ms : List KvMove) (c : KvCache ρ) {c' : KvCache ρ}
      {r : Except String Unit},
      c.applyMovesLoop ms = (r, c') →
      (c'.seqs[s]?).map (·.cap) = (c.seqs[s]?).map (·.cap) := by
    intro ms
    induction ms with
    | nil =>
        intro c c' r h
        cases h
        rfl
    | cons m rest ih =>
        intro c c' r h
        have hstep : ∀ {c₁ : KvCache ρ} {r₁ : Except String Unit},
            c.applyMove m = (r₁, c₁) →
            (c₁.seqs[s]?).map (·.cap) = (c.seqs[s]?).map (·.cap) := by
          intro c₁ r₁ h₁
          obtain ⟨-, -, -, hseqs | ⟨hseqs, -⟩⟩ := applyMove_slots h₁
          all_goals
            rw [hseqs s]
            cases c.seqs[s]? <;> rfl
        simp only [KvCache.applyMovesLoop] at h
        split at h
        next c₁ h₁ => exact (ih c₁ h).trans (hstep h₁)
        next e c₁ h₁ =>
          cases h
          exact hstep h₁
  unfold KvCache.applyMoves at h
  split at h
  · cases h
    rfl
  · simp only at h
    split at h
    · cases h
      rfl
    · split at h
      next e c₁ h₁ =>
        cases h
        exact hloop _ c h₁
      next c₁ h₁ =>
        cases h
        have hkeep := hloop _ c h₁
        exact hkeep

/-- Once the capacity was changed, an error leaves it changed, unless
defragmentation is off. -/
theorem kvSetCap_error_cap {c₁ : KvCache ρ}
    {moves : List KvMove} {e : String} (hslot : c.seqs[seq]? = some slot)
    (hset : c.setCap seq cap = .ok (moves, c₁))
    (hdef : env.defragEnabled = true ∨ c₁.seqs[seq]? = none)
    (h : c.kvSetCapWithDefrag env seq cap = (.error e, c')) :
    (c'.seqs[seq]?).map (·.cap) = (c₁.seqs[seq]?).map (·.cap) := by
  simp only [kvSetCapWithDefrag, seqSlot, hslot, hset] at h
  split at h
  · split at h
    · cases h
      rfl
    · cases h
  · split at h
    next hoff =>
      rcases hdef with hon | hnone
      · simp [hon] at hoff
      · simp only [setCap, hnone] at h
        cases h
        rfl
    next =>
      split at h
      next e₂ c₂ h₂ =>
        cases h
        rw [(copyPlan_frame h₂).1]
      next c₂ h₂ =>
        have hcopied : (c₂.seqs[seq]?).map (·.cap) = (c₁.seqs[seq]?).map (·.cap) := by
          rw [(copyPlan_frame h₂).1]
        split at h
        next e₃ c₃ h₃ =>
          cases h
          exact (applyMoves_cap h₃ seq).trans hcopied
        next n c₃ h₃ =>
          split at h
          · cases h
            exact (applyMoves_cap h₃ seq).trans hcopied
          · cases h

/-- The copies and the bookkeeping of a resize that went through were not
refused. -/
theorem Inv.granted_of_kvSetCap (hc : c.Inv) {out : SeqSlot × List KvMove}
    (hslot : c.seqs[seq]? = some slot) (hset : c.setCap seq cap
      = .ok ((c.resized seq cap slot).compactionPlan none,
        c.resized seq cap slot)) (hplan : c.resizePlan seq cap slot ≠ [])
    (hon : env.defragEnabled = true)
    (h : c.kvSetCapWithDefrag env seq cap = (.ok out, c')) :
    env.GrantsAll (c.resized seq cap slot) (c.resizePlan seq cap slot)
      ∧ ∀ (s : SeqId) a, (c.resized seq cap slot).seqs[s]? = some a →
        CarriesAll s a.shared (c.resizePlan seq cap slot) := by
  have hne : (c.resized seq cap slot).compactionPlan none ≠ [] :=
    fun hnil => hplan (orderMoves_eq_nil.2 hnil)
  simp only [kvSetCapWithDefrag, seqSlot, hslot, hset, List.isEmpty_iff, hne,
    if_false, hon, Bool.not_true, Bool.false_eq_true] at h
  split at h
  · cases h
  next c₂ h₂ =>
    split at h
    · cases h
    next n c₃ h₃ =>
      have hrel :=
        relocated_of_ok (hc.spans.putSlot seq _) hplan
        (orderMoves_orderMoves _) h₂ h₃
      exact ⟨grantsAll_of_copyPlan h₂, hrel.carries⟩

section

variable {env : KvEnv} {c c' : KvCache ρ} {seq cap : Nat} {slot : SeqSlot}

/-- The copies and prefixes of the resized table are those of the table. -/
theorem grantsAll_resized {moves : List KvMove} :
    env.GrantsAll (c.resized seq cap slot) moves ↔ env.GrantsAll c moves := by
  unfold KvEnv.GrantsAll
  rw [show (c.resized seq cap slot).layers = c.layers from putSlot_layers ..]

theorem carriesAll_resized (hslot : c.seqs[seq]? = some slot) {moves : List KvMove} :
    (∀ (s : SeqId) a, (c.resized seq cap slot).seqs[s]? = some a →
      CarriesAll s a.shared moves)
      ↔ ∀ (s : SeqId) a, c.seqs[s]? = some a → CarriesAll s a.shared moves := by
  constructor
  · intro h s a ha
    by_cases hs : seq = s
    · subst hs
      rw [hslot] at ha
      cases ha
      exact h seq { slot with cap } (by rw [resized_seqs, if_pos rfl])
    · exact h s a (by rw [resized_seqs, if_neg hs, ha])
  · intro h s a ha
    obtain ⟨b, hb, -, hsh, -⟩ := resized_old hslot ha
    rw [hsh]
    exact h s b hb

/-- A resize whose copies are granted and whose plan carries every prefix
goes through. -/
theorem Inv.kvSetCap_total (hc : c.Inv) (hslot : c.seqs[seq]? = some slot)
    (hne : cap ≠ slot.cap) (hpos : cap ≠ 0) (hadm : c.Admits seq cap slot)
    (hon : env.defragEnabled = true)
    (hgrant : env.GrantsAll c (c.resizePlan seq cap slot))
    (hcarry : ∀ (s : SeqId) a, c.seqs[s]? = some a →
      CarriesAll s a.shared (c.resizePlan seq cap slot)) :
    ∃ out c', c.kvSetCapWithDefrag env seq cap = (.ok out, c') := by
  have hset := setCap_of_admits hslot hne hpos hadm
  have hfits := hc.movable.fits seq slot hslot
  have hm := hc.movable_resized hslot (Nat.pos_of_ne_zero hpos)
    (show slot.privateWritten ≤ cap by have := hadm.1; omega)
  have hnew : (c.resized seq cap slot).seqs[seq]? = some { slot with cap } := by
    rw [resized_seqs, if_pos rfl]
  by_cases hnil : (c.resized seq cap slot).compactionPlan none = []
  · simp only [kvSetCapWithDefrag, seqSlot, hslot, hset, hnil,
      List.isEmpty_nil, if_true, hnew]
    exact ⟨_, _, rfl⟩
  have hlayers : ∀ (i : Nat) (l : KvLayer ρ),
      (c.resized seq cap slot).layers[i]? = some l →
      LayerOk (c.resized seq cap slot).nCtx l := by
    rw [show (c.resized seq cap slot).layers = c.layers from putSlot_layers ..,
      show (c.resized seq cap slot).nCtx = c.nCtx from putSlot_nCtx ..]
    exact hc.layers
  have hplan : orderMoves ((c.resized seq cap slot).compactionPlan none) ≠ [] :=
    fun hempty => hnil (orderMoves_eq_nil.1 hempty)
  obtain ⟨c₂, n, c₃, hcopy, happly, hrel⟩ := @Movable.relocated _ _ _ env
    (fun (m : KvMove) e =>
      (s!"kv_set_cap: moving sequence {m.seq} rows " ++
        s!"{m.fromCell}..{m.fromCell + m.rows} -> {m.toCell} " ++
        s!"failed: {e}"))
    hm (hc.spans.putSlot seq _) hlayers (hc.resized_rows hslot)
    (hm.laidOut (hc.resized_fits hslot hadm.2)) hplan (grantsAll_resized.2 hgrant)
    ((carriesAll_resized hslot).2 hcarry)
  have hafter := hrel.slot (hm.nodup_seq none) hnew
  simp only [kvSetCapWithDefrag, seqSlot, hslot, hset, List.isEmpty_iff, hnil,
    if_false, hon, Bool.not_true, Bool.false_eq_true, hcopy, happly, hafter]
  exact ⟨_, _, rfl⟩

/-- Where a resize recovers, an error leaves everything as it was. -/
theorem Inv.kvSetCap_error (hc : c.Inv) (hrec : c.Recovers env seq cap)
    {e : String} (h : c.kvSetCapWithDefrag env seq cap = (.error e, c')) :
    (∀ s : SeqId, c'.seqs[s]? = c.seqs[s]?) ∧ c'.SpansOk ∧ c'.layers = c.layers
      ∧ c'.nCtx = c.nCtx := by
  have hsame : (∀ s : SeqId, c.seqs[s]? = c.seqs[s]?) ∧ c.SpansOk
      ∧ c.layers = c.layers
      ∧ c.nCtx = c.nCtx := ⟨fun _ => rfl, hc.spans, rfl, rfl⟩
  cases hslot : c.seqs[seq]? with
  | none =>
      simp only [kvSetCapWithDefrag, seqSlot, hslot] at h
      cases h
      exact hsame
  | some slot =>
  cases hset : c.setCap seq cap with
  | error e' =>
      simp only [kvSetCapWithDefrag, seqSlot, hslot, hset] at h
      cases h
      exact hsame
  | ok out =>
  obtain ⟨moves, c₁⟩ := out
  rcases setCap_cases hslot hset with ⟨-, rfl, rfl⟩ | ⟨hzero, -⟩
    | ⟨hne, hpos, hsh, hgr, rfl, rfl⟩
  · simp only [kvSetCapWithDefrag, seqSlot, hslot, hset, List.isEmpty_nil,
      if_true] at h
    cases h
  · have hcap := (hc.table.ok seq slot hslot).cap_pos
    exact absurd hzero (hrec slot hslot (by omega)).1
  obtain ⟨hzero, hmoves⟩ := hrec slot hslot hne
  have hnew : (c.resized seq cap slot).seqs[seq]? = some { slot with cap } := by
    rw [resized_seqs, if_pos rfl]
  by_cases hnil : (c.resized seq cap slot).compactionPlan none = []
  · simp only [kvSetCapWithDefrag, seqSlot, hslot, hset, hnil,
      List.isEmpty_nil, if_true, hnew] at h
    cases h
  cases hdef : env.defragEnabled with
  | false =>
      obtain ⟨ms, hback⟩ := hc.setCap_back hslot hne
      simp only [kvSetCapWithDefrag, seqSlot, hslot, hset, List.isEmpty_iff,
        hnil, if_false, hdef, Bool.not_false, if_true, hback] at h
      cases h
      refine ⟨putBack_seqs hslot, (hc.spans.putSlot _ _).putSlot _ _, ?_, ?_⟩
      · rw [putSlot_layers, KvCache.resized, putSlot_layers]
      · rw [putSlot_nCtx, KvCache.resized, putSlot_nCtx]
  | true =>
      have hplan : c.resizePlan seq cap slot ≠ [] :=
        fun hempty => hnil (orderMoves_eq_nil.1 hempty)
      obtain ⟨hgrant, hcarry⟩ := hmoves ⟨hsh, hgr⟩ hplan hdef
      obtain ⟨out, c₂, hok⟩ :=
        hc.kvSetCap_total hslot hne hzero ⟨hsh, hgr⟩ hdef hgrant hcarry
      rw [hok] at h
      cases h

/-- A failed resize is undone exactly where it recovers. -/
theorem Inv.resizeUndone_iff (hc : c.Inv) : c.ResizeUndone env seq cap
    ↔ c.Recovers env seq cap := by
  constructor
  · intro hundo slot hslot hne
    -- an error that leaves another capacity is not an undone one
    have hchanged : ∀ {e : String} {c' : KvCache ρ} {o : Option Nat},
        c.kvSetCapWithDefrag env seq cap = (.error e, c') →
        (c'.seqs[seq]?).map (·.cap) = o → o ≠ some slot.cap → False := by
      intro e c' o herr ho hother
      refine hother ?_
      rw [← ho, (hundo e c' herr).1.seqs seq, hslot]
      rfl
    cases hres : c.kvSetCapWithDefrag env seq cap with
    | mk r c' =>
    have hzero : cap ≠ 0 := by
      rintro rfl
      cases r with
      | ok out =>
          obtain ⟨slot', hslot', ⟨heq, -⟩ | ⟨-, hpos, -⟩⟩ := hc.kvSetCap_cases hres
          · rw [hslot] at hslot'
            cases hslot'
            exact hne heq
          · exact Nat.lt_irrefl 0 hpos
      | error e =>
          have hset : c.setCap seq 0
              = .ok ((c.releaseSeq seq).2.compactionPlan none,
                (c.releaseSeq seq).2) := by
            simp only [setCap, hslot]
            rw [if_neg hne, if_pos trivial]
          have hgone : (c.releaseSeq seq).2.seqs[seq]? = none := by
            have := releaseSeq_table c seq seq
            rwa [if_pos rfl] at this
          refine hchanged hres (kvSetCap_error_cap hslot hset (.inr hgone) hres) ?_
          rw [hgone]
          simp
    refine ⟨hzero, fun hadm hplan hon => ?_⟩
    have hset := setCap_of_admits hslot hne hzero hadm
    cases r with
    | ok out =>
        obtain ⟨hgrant, hcarry⟩ := hc.granted_of_kvSetCap hslot hset hplan hon hres
        exact ⟨grantsAll_resized.1 hgrant, (carriesAll_resized hslot).1 hcarry⟩
    | error e =>
        refine (hchanged hres (kvSetCap_error_cap hslot hset (.inl hon) hres) ?_).elim
        rw [resized_seqs, if_pos rfl]
        exact fun heq => hne (Option.some.inj heq)
  · intro hrec e c' herr
    obtain ⟨hseqs, hsp, hlayers, hn⟩ := hc.kvSetCap_error hrec herr
    refine ⟨⟨hseqs, fun s => ?_, fun i => by rw [hlayers]⟩, ?_⟩
    · rw [hsp s, hc.spans s, hseqs s]
    · rw [hn, show c'.table = c.table from funext hseqs]
      exact hc.table

end

-- ========================= whole lives

/-- What any sequence of calls leaves of an arena, removals and restored
sessions included, whether they succeed or not; a resize that failed is
one that recovered. -/
inductive Lived : KvCache ρ → Prop
  | empty {c : KvCache ρ} : c.IsEmpty → Lived c
  | call {c : KvCache ρ} (env : KvEnv) (op : ArenaOp ρ) : Lived c →
      (∀ seq cap e c', op = .setCap seq cap →
        c.kvSetCapWithDefrag env seq cap = (.error e, c') → c.Recovers env seq cap) →
      Lived (c.left env op)
  | remove {c : KvCache ρ} (env : RmEnv) (rope : KvRope ρ) (start len : Nat) :
      Lived c → Lived (c.kvRm env rope start len).2
  | restore {c saved c' : KvCache ρ} : Lived saved → Lived c →
      c.restoreSession saved.sessionState = .ok c' → Lived c'

theorem Inv.left (hc : c.Inv) (env : KvEnv) (op : ArenaOp ρ)
    (hrec : ∀ seq cap e c', op = .setCap seq cap →
      c.kvSetCapWithDefrag env seq cap = (.error e, c') → c.Recovers env seq cap) :
    (c.left env op).Inv := by
  cases op with
  | reserve seq cap =>
      rw [KvCache.left]
      split
      next h => exact hc.reserveSeq h
      · exact hc
  | release seq => exact hc.releaseSeq seq
  | own seq positions rows =>
      rw [KvCache.left]
      split
      next h => exact (hc.ownPositions h).storeRows ..
      next h => exact hc.ownPositions h
  | share src dst rows =>
      rw [KvCache.left, kvSharePrefix]
      split
      · exact hc
      next h => exact hc.sharePrefix h
  | copyPrefix src dst rows => exact hc.kvCopyPrefix rfl
  | privateRow seq t => exact hc.kvPrivateRowFor rfl
  | defrag need => exact hc.kvDefrag_left rfl
  | setCap seq cap =>
      rw [KvCache.left]
      cases hres : c.kvSetCapWithDefrag env seq cap with
      | mk r c' =>
      cases r with
      | ok out => exact hc.kvSetCap hres
      | error e =>
          obtain ⟨hseqs, hsp, hlayers, hn⟩ :=
            hc.kvSetCap_error (hrec seq cap e c' rfl hres) hres
          refine hc.of_lookups hseqs hsp ?_ hn
          rw [hlayers]
          exact hc.layers

theorem layersOk_insert {k : Nat} {layers : Std.TreeMap Nat (KvLayer ρ)}
    {l : KvLayer ρ}
    (hlayers : ∀ (i : Nat) (l : KvLayer ρ), layers[i]? = some l → LayerOk n l)
    (hl : LayerOk n l)
    (i : Nat) (l' : KvLayer ρ) (hl' : (layers.insert k l)[i]? = some l') :
    LayerOk n l' := by
  rw [getElem?_insert_nat] at hl'
  split at hl'
  · cases hl'
    exact hl
  · exact hlayers i l' hl'

theorem rmLayers_layerOk {env : RmEnv} {rope : KvRope ρ} {packed : Bool}
    {start len : Nat} {ls : List (Nat × KvLayer ρ)} :
    ∀ {c c' : KvCache ρ} {r : Except RmError Unit},
      rmLayers env rope packed start len c ls = (r, c') →
      (∀ e ∈ ls, LayerOk n e.2) →
      (∀ (i : Nat) (l : KvLayer ρ), c.layers[i]? = some l → LayerOk n l) →
      ∀ (i : Nat) (l : KvLayer ρ), c'.layers[i]? = some l → LayerOk n l := by
  induction ls with
  | nil =>
      intro c c' r h _ hc
      cases h
      exact hc
  | cons e rest ih =>
      obtain ⟨layer, l⟩ := e
      intro c c' r h hls hc
      obtain ⟨ho, hk, hv⟩ := hls (layer, l) List.mem_cons_self
      have hrest := fun e he => hls e (List.mem_cons_of_mem _ he)
      simp only [rmLayers] at h
      split at h
      · cases h
        exact hc
      · split at h
        · cases h
          exact hc
        · split at h
          · cases h
            exact layersOk_insert hc ⟨ho, by simpa [reRope, slideRows] using hk, hv⟩
          · exact ih h hrest
              (layersOk_insert hc ⟨ho, by simpa [reRope, slideRows] using hk,
              by simpa [slideRows] using hv⟩)

theorem renumberLayers_layerOk {start len : Nat}
    {ls : List (Nat × KvLayer ρ)} :
    ∀ {c c' : KvCache ρ} {newUsed : Nat} {r : Except RmError Nat},
      renumberLayers start len c newUsed ls = (r, c') → (∀ e ∈ ls, LayerOk n e.2) →
      (∀ (i : Nat) (l : KvLayer ρ), c.layers[i]? = some l → LayerOk n l) →
      ∀ (i : Nat) (l : KvLayer ρ), c'.layers[i]? = some l → LayerOk n l := by
  induction ls with
  | nil =>
      intro c c' newUsed r h _ hc
      cases h
      exact hc
  | cons e rest ih =>
      obtain ⟨layer, l⟩ := e
      intro c c' newUsed r h hls hc
      obtain ⟨ho, hk, hv⟩ := hls (layer, l) List.mem_cons_self
      simp only [renumberLayers] at h
      split at h
      · cases h
        exact hc
      · refine ih h (fun e he => hls e (List.mem_cons_of_mem _ he))
          (layersOk_insert hc ?_)
        exact ⟨(renumber_owner_length start len l).trans ho, hk, hv⟩

/-- A removal keeps the arena well formed, wherever it stops. -/
theorem Inv.kvRm (hc : c.Inv) (env : RmEnv) (rope : KvRope ρ)
    (start len : Nat) :
    (c.kvRm env rope start len).2.Inv := by
  have hls : ∀ {c : KvCache ρ} {n : Nat},
      (∀ (i : Nat) (l : KvLayer ρ), c.layers[i]? = some l → LayerOk n l) →
      ∀ e ∈ c.layers.toList, LayerOk n e.2 := fun hc e he =>
    hc e.1 e.2 (Std.TreeMap.mem_toList_iff_getElem?_eq_some.1 he)
  have hlayers : ∀ (i : Nat) (l : KvLayer ρ),
      (c.kvRm env rope start len).2.layers[i]? = some l → LayerOk c.nCtx l := by
    cases hres : c.kvRm env rope start len with
    | mk r c' =>
    unfold KvCache.kvRm at hres
    split at hres
    · cases hres
      exact hc.layers
    · split at hres
      · cases hres
        exact hc.layers
      · split at hres
        · cases hres
          exact hc.layers
        · split at hres
          next c₁ h₁ =>
            cases hres
            exact rmLayers_layerOk h₁ (hls hc.layers) hc.layers
          next c₁ h₁ =>
            have hc₁ := rmLayers_layerOk h₁ (hls hc.layers) hc.layers
            unfold afterRm at hres
            split at hres
            · cases hres
              exact hc₁
            · split at hres
              · split at hres
                · cases hres
                  exact hc₁
                · exact renumberLayers_layerOk hres (hls hc₁) hc₁
              · exact renumberLayers_layerOk hres (hls hc₁) hc₁
  have hframe : (c.kvRm env rope start len).2 = _ := kvRm_frame rfl
  rw [hframe]
  exact ⟨hc.table, SpansOk.of_eq rfl rfl hc.spans, hlayers⟩

theorem checkLayer_ok {ls : KvLayerSession} (h : c.checkLayer ls = .ok ()) :
    ls.owner.length = c.nCtx := by
  unfold checkLayer at h
  split at h
  · cases h
  · split at h
    · cases h
    next hlen => exact not_not.1 hlen

theorem foldl_putLayer_layerOk {saved : List KvLayerSession}
    (hsaved : ∀ ls ∈ saved, ls.owner.length = n)
    {layers : Std.TreeMap Nat (KvLayer ρ)}
    (hlayers : ∀ (i : Nat) (l : KvLayer ρ), layers[i]? = some l → LayerOk n l) :
    ∀ (i : Nat) (l : KvLayer ρ), (saved.foldl putLayer layers)[i]? = some l →
      LayerOk n l := by
  induction saved generalizing layers with
  | nil => exact hlayers
  | cons ls rest ih =>
      refine ih (fun ls' h => hsaved ls' (List.mem_cons_of_mem _ h)) ?_
      unfold putLayer
      split
      next l hl =>
        have hok := hlayers ls.layer l hl
        exact layersOk_insert hlayers
          ⟨hsaved ls List.mem_cons_self, hok.k_len, hok.v_len⟩
      next => exact hlayers

/-- A session of a well-formed arena restores one. -/
theorem Inv.restoreSession {saved : KvCache ρ} (hsaved : saved.Inv)
    (hc : c.Inv)
    (h : c.restoreSession saved.sessionState = .ok c') : c'.Inv := by
  unfold KvCache.restoreSession at h
  split at h
  · cases h
  next hn =>
    split at h
    · cases h
    next hlayers =>
      split at h
      · cases h
      · cases h
        have hn : saved.nCtx = c.nCtx := not_not.1 hn
        have htable : ∀ s : SeqId, (Std.TreeMap.ofList saved.seqs.toList)[s]?
            = saved.seqs[s]? :=
          getElem?_ofList_toList _
        refine ⟨?_, fun s => ?_, ?_⟩
        · unfold KvCache.table
          simp only [sessionState, htable]
          rw [← hn]
          exact hsaved.table
        · show (Std.TreeMap.ofList saved.spans.toList)[s]? = _
          rw [getElem?_ofList_toList, hsaved.spans s]
          simp only [sessionState, htable]
        · exact foldl_putLayer_layerOk
            (fun ls hls => checkLayer_ok (Lib.forM_eq_ok hlayers ls hls)) hc.layers

theorem Lived.inv (hc : c.Lived) : c.Inv := by
  induction hc with
  | empty h => exact h.inv
  | call env op _ hrec ih => exact ih.left env op hrec
  | remove env rope start len _ ih => exact ih.kvRm env rope start len
  | restore _ _ h ihsaved ih => exact ihsaved.restoreSession ih h

theorem Reachable.lived (hc : Reachable env c) :
    c.Lived := by
  induction hc with
  | empty h => exact .empty h
  | @step c c' op _ h ih =>
      refine left_of_step h ▸ .call env op ih fun seq cap e c₁ hop hres => ?_
      -- a call that went through did not fail
      rw [hop, KvCache.step, hres] at h
      cases h

/-- A resize that fails, at any point of an arena's life, leaves the
tables as they were exactly when it recovers: the capacity is the one the
run has, or it is positive and either `set_cap` refuses it, or nothing has
to move, or nothing may, or every copy of the plan is granted and every
shared prefix is carried whole. -/
theorem failed_resize_undone_iff (hc : c.Lived) (env : KvEnv) (seq cap : Nat) :
    c.ResizeUndone env seq cap ↔ c.Recovers env seq cap :=
  hc.inv.resizeUndone_iff

/-- Two runs of two cells each, both written. -/
def twoRuns : KvCache Nat := after
  [.reserve 1 2, .own 1 [0, 1] (rowsFrom 100), .reserve 2 2,
    .own 2 [0, 1] (rowsFrom 200)]

/-- A backend that refuses copies of V rows. -/
def refusesV : KvEnv where
  defragEnabled := true
  copyErr _ isV _ _ _ := if isV then some "out of memory" else none

set_option maxRecDepth 8000 in
/-- Growing the first run needs the second to move up. The copy is refused,
and the table keeps the new capacity: the two runs overlap. -/
theorem refused_copy_keeps_resize : twoRuns.Lived ∧ ∃ e c',
    twoRuns.kvSetCapWithDefrag refusesV 1 4 = (.error e, c')
      ∧ twoRuns.seqs[1]? = some ⟨0, 2, ⟨0, 0⟩, 2⟩
      ∧ c'.seqs[1]? = some ⟨0, 4, ⟨0, 0⟩, 2⟩
      ∧ c'.seqs[2]? = some ⟨2, 2, ⟨0, 0⟩, 2⟩
      ∧ ¬ twoRuns.ResizeUndone refusesV 1 4 := by
  have hfailed : (twoRuns.kvSetCapWithDefrag refusesV 1 4).1.isOk = false := by decide
  have hold : twoRuns.seqs[1]? = some ⟨0, 2, ⟨0, 0⟩, 2⟩ := by decide
  have hnew : (twoRuns.kvSetCapWithDefrag refusesV 1 4).2.seqs[1]?
      = some ⟨0, 4, ⟨0, 0⟩, 2⟩ := by
    decide
  have hother : (twoRuns.kvSetCapWithDefrag refusesV 1 4).2.seqs[2]?
      = some ⟨2, 2, ⟨0, 0⟩, 2⟩ := by
    decide
  cases hres : twoRuns.kvSetCapWithDefrag refusesV 1 4 with
  | mk r c' =>
  rw [hres] at hfailed hnew hother
  cases r with
  | ok out => cases hfailed
  | error e =>
      refine ⟨(reachable_after _).lived, e, c', rfl, hold, hnew, hother,
        fun hundo => ?_⟩
      have hsame := (hundo e c' hres).1.seqs 1
      rw [hnew, hold] at hsame
      cases hsame

set_option maxRecDepth 8000 in
/-- With defragmentation off the same resize is refused and undone. -/
theorem disabled_resize_undone :
    twoRuns.ResizeUndone { refusesV with defragEnabled := false } 1 4 := by
  refine (@failed_resize_undone_iff Nat twoRuns (reachable_after _).lived _ 1 4).2 ?_
  exact fun slot _ _ => ⟨by decide, fun _ _ hon => nomatch hon⟩

end KvCache
end Minfer.Graph
