/-
What the arena's operations do to the run table, as a mirror of it sees
them: where each sequence's run starts, and its capacity (`runs`).

Most calls keep every run that is there, whether they succeed or not
(`RunsKept`). A reservation and a resize may move the other runs to make
room; a success reports the moves, and following them is enough
(`Reported`). A failure reports nothing, so it has to leave the runs
where they were. A resize does so where it `Recovers`; a reservation
where it `Settles`: it is the retry after a compaction that can fail with
the runs already moved.
-/
import Minfer.Graph.Proofs.Fill
import Minfer.Graph.Proofs.Undo

namespace Minfer.Graph

variable {ρ : Type}

/-- Where a run that starts at `start` is after the moves. -/
def landing (s : SeqId) (start : Nat) (moves : List KvMove) : Nat :=
  moves.foldl (fun start m => if m.seq = s then m.toCell else start) start

theorem relocateAll_start (s : SeqId) (slot : SeqSlot) (moves : List KvMove) :
    (relocateAll s slot moves).start = landing s slot.start moves := by
  unfold relocateAll landing
  induction moves generalizing slot with
  | nil => rfl
  | cons m moves ih => exact ih (relocate s slot m)

namespace KvCache

/-- Every run that was there is where it was. -/
def RunsKept (c c' : KvCache ρ) : Prop := ∀ s r, c.runs s = some r →
    c'.runs s = some r

theorem RunsKept.refl (c : KvCache ρ) : RunsKept c c := fun _ _ h => h

variable {c : KvCache ρ}

theorem RunsKept.trans {c₁ c₂ : KvCache ρ} (h : RunsKept c c₁)
    (h' : RunsKept c₁ c₂) :
    RunsKept c c₂ := fun s r hr => h' s r (h s r hr)

theorem runs_eq_some {s : SeqId} {r : Nat × Nat} :
    c.runs s = some r ↔ ∃ a, c.seqs[s]? = some a ∧ (a.start, a.cap) = r :=
  Option.map_eq_some_iff

theorem RunsKept.of_lookups {c' : KvCache ρ}
    (h : ∀ s : SeqId, c'.seqs[s]? = c.seqs[s]?) :
    RunsKept c c' := by
  intro s r hr
  rw [runs, h s]
  exact hr

theorem RunsKept.of_seqs {c' : KvCache ρ} (h : c'.seqs = c.seqs) :
    RunsKept c c' :=
  .of_lookups fun s => by rw [h]

-- ===================== calls that keep

section

variable {env : KvEnv} {c c' : KvCache ρ}
variable {slot : SeqSlot} {cap seq : Nat} {r : Except String Unit} {b : Batch}
  {moves : List KvMove}

/-- A slot rewritten where its run is. -/
theorem runsKept_putSlot {seq : SeqId} {old : SeqSlot}
    (hold : c.seqs[seq]? = some old)
    (hstart : slot.start = old.start) (hcap : slot.cap = old.cap) :
    RunsKept c (c.putSlot seq slot) := by
  intro s r hr
  obtain ⟨a, ha, rfl⟩ := runs_eq_some.mp hr
  by_cases hs : seq = s
  · subst hs
    rw [hold] at ha
    cases ha
    exact runs_eq_some.mpr ⟨slot, by rw [putSlot_seqs, if_pos rfl],
      by rw [hstart, hcap]⟩
  · exact runs_eq_some.mpr ⟨a, by rw [putSlot_seqs, if_neg hs]; exact ha, rfl⟩

/-- A reservation on free cells: the answer is the run, the others stay. -/
theorem reserveSeq_runs (h : c.reserveSeq seq cap = .ok (slot, c')) :
    c'.runs seq = some (slot.start, slot.cap) ∧ ∀ s, s ≠ seq →
      c'.runs s = c.runs s := by
  rcases reserveSeq_cases h with ⟨hold, -, rfl⟩ | ⟨-, -, -, -, -, rfl⟩
  · exact ⟨runs_eq_some.mpr ⟨slot, hold, rfl⟩, fun s _ => rfl⟩
  · refine ⟨runs_eq_some.mpr ⟨slot, by rw [putSlot_seqs, if_pos rfl], rfl⟩,
      fun s hs => ?_⟩
    rw [runs, putSlot_seqs, if_neg (Ne.symm hs), runs]

theorem reserveSeq_runsKept
    (h : c.reserveSeq seq cap = .ok (slot, c')) : RunsKept c c' := by
  intro s r hr
  by_cases hs : s = seq
  · subst hs
    rcases reserveSeq_cases h with ⟨-, -, rfl⟩ | ⟨hnone, -⟩
    · exact hr
    · rw [runs, hnone] at hr
      cases hr
  · rw [(reserveSeq_runs h).2 s hs]
    exact hr

theorem releaseSeq_runs (c : KvCache ρ) {seq s : SeqId} (hs : s ≠ seq) :
    (c.releaseSeq seq).2.runs s = c.runs s := by
  have htable : (c.releaseSeq seq).2.seqs[s]? = c.seqs[s]? := by
    have h := releaseSeq_table c seq s
    rw [if_neg (Ne.symm hs)] at h
    exact h
  rw [runs, runs, htable]

theorem releaseSeq_runs_self (c : KvCache ρ) (seq : SeqId) :
    (c.releaseSeq seq).2.runs seq = none := by
  have h := releaseSeq_table c seq seq
  rw [if_pos rfl] at h
  exact Option.map_eq_none_iff.mpr h

theorem ownRange_runs (c : KvCache ρ) (seq lo hi : Nat) :
    (c.ownRange seq lo hi).runs = c.runs := by
  funext s
  have h : (c.ownRange seq lo hi).seqs[s]? = _ := ownRange_table c seq lo hi s
  rw [runs, h, runs, table]
  cases c.seqs[s]? with
  | none => rfl
  | some a => by_cases hs : seq = s <;> simp [hs]

theorem ownPositions_runs {seq : SeqId} {positions : List Nat}
    (h : c.ownPositions seq positions = (r, c')) : c'.runs = c.runs := by
  induction positions generalizing c with
  | nil =>
      cases h
      rfl
  | cons pos rest ih =>
      simp only [ownPositions] at h
      split at h
      · cases h
        rfl
      next cell _ => exact (ih h).trans (ownRange_runs c seq cell (cell + 1))

/-- A copy-on-write shortens a prefix. -/
theorem kvPrivateRowFor_runs {t : Nat} {r : Except String (Option KvShift)}
    (h : c.kvPrivateRowFor env seq t = (r, c')) : RunsKept c c' := by
  unfold kvPrivateRowFor at h
  split at h
  · cases h
    exact .refl _
  · cases h
    exact .refl _
  next shift hshift =>
    simp only at h
    split at h
    next hcopy =>
      cases h
      exact .of_seqs (copyPlan_frame hcopy).1
    next c₁ hcopy =>
      have hseqs := (copyPlan_frame hcopy).1
      split at h
      · cases h
        exact .of_seqs hseqs
      next c₂ happly =>
        cases h
        obtain ⟨slot, hslot, -, -, -, htbl, -⟩ := applyPrivateRow_cases happly
        refine (RunsKept.of_seqs hseqs).trans fun s r hr => ?_
        obtain ⟨a, ha, rfl⟩ := runs_eq_some.mp hr
        rw [runs, htbl s]
        by_cases hs : shift.seq = s
        · subst hs
          rw [hslot] at ha
          cases ha
          simp
        · simp [hs, ha]

theorem cowPass_runs {gs : List (SeqId × Nat × Nat)}
    (h : cowPass env b c gs = (r, c')) : RunsKept c c' := by
  induction gs generalizing c with
  | nil =>
      cases h
      exact .refl _
  | cons g gs ih =>
      simp only [cowPass] at h
      split at h
      · exact ih h
      · split at h
        next h₁ =>
          cases h
          exact kvPrivateRowFor_runs h₁
        next h₁ => exact (kvPrivateRowFor_runs h₁).trans (ih h)

/-- The sequence the ownership pass works on, reserved if it was not. -/
theorem ownPass_runs {gs : List (SeqId × Nat × Nat)}
    (h : ownPass b c gs = (r, c')) : RunsKept c c' := by
  induction gs generalizing c with
  | nil =>
      cases h
      exact .refl _
  | cons g gs ih =>
      rcases ownPass_cons h with ⟨rfl, -⟩ | ⟨c₁, hres, hown⟩
      · exact .refl _
      have hfirst : RunsKept c c₁ := by
        rcases hres with ⟨rfl, -⟩ | ⟨-, -, slot, hreserve⟩
        · exact .refl _
        · exact reserveSeq_runsKept hreserve
      have hkept {res : Except String Unit} {c₂ : KvCache ρ}
          (hown : c₁.ownPositions g.1 (b.groupPositions g) = (res, c₂)) :
              RunsKept c₁ c₂ :=
        fun s r hr => by rw [ownPositions_runs hown]; exact hr
      rcases hown with ⟨e, hown, -⟩ | ⟨c₂, hown, h⟩
      · exact hfirst.trans (hkept hown)
      · exact (hfirst.trans (hkept hown)).trans (ih h)

theorem fillBatchInputs_runs {r : Except String (List Nat)}
    (h : c.fillBatchInputs env b = (r, c')) : RunsKept c c' := by
  unfold fillBatchInputs at h
  split at h
  next hcow =>
    cases h
    exact cowPass_runs hcow
  next hcow =>
    split at h
    next hown =>
      cases h
      exact (cowPass_runs hcow).trans (ownPass_runs hown)
    next hown =>
      cases h
      exact (cowPass_runs hcow).trans (ownPass_runs hown)

theorem kvSharePrefix_runs {src dst rows : Nat} {r : Except String Nat}
    (h : c.kvSharePrefix src dst rows = (r, c')) : RunsKept c c' := by
  unfold kvSharePrefix at h
  split at h
  · cases h
    exact .refl _
  next hshare =>
    cases h
    obtain ⟨donor, slot, cell, -, -, -, -, hslot, -, -, -, -, rfl⟩ :=
      sharePrefix_cases hshare
    exact runsKept_putSlot hslot rfl rfl

theorem kvCopyPrefix_runs {src dst rows : Nat}
    (h : c.kvCopyPrefix env src dst rows = (r, c')) : RunsKept c c' := by
  unfold kvCopyPrefix at h
  repeat' split at h
  all_goals first
    | (cases h; exact RunsKept.refl _)
    | skip
  simp only at h
  split at h
  next hcopy =>
    cases h
    exact .of_seqs (copyPlan_frame hcopy).1
  next c₁ hcopy =>
    cases h
    refine (RunsKept.of_seqs (copyPlan_frame hcopy).1).trans fun s r hr => ?_
    rw [ownRange_runs]
    exact hr

theorem Inv.fillBatchInputs (hc : c.Inv) {r : Except String (List Nat)}
    (h : c.fillBatchInputs env b = (r, c')) : c'.Inv := by
  have hcow : ∀ (gs : List (SeqId × Nat × Nat)) {c c' : KvCache ρ}
      {r : Except String Unit},
      c.Inv → cowPass env b c gs = (r, c') → c'.Inv := by
    intro gs
    induction gs with
    | nil =>
        intro c c' r hc h
        cases h
        exact hc
    | cons g gs ih =>
        intro c c' r hc h
        simp only [cowPass] at h
        split at h
        · exact ih hc h
        · split at h
          next h₁ =>
            cases h
            exact hc.kvPrivateRowFor h₁
          next h₁ => exact ih (hc.kvPrivateRowFor h₁) h
  have hown : ∀ (gs : List (SeqId × Nat × Nat)) {c c' : KvCache ρ}
      {r : Except String Unit},
      c.Inv → ownPass b c gs = (r, c') → c'.Inv := by
    intro gs
    induction gs with
    | nil =>
        intro c c' r hc h
        cases h
        exact hc
    | cons g gs ih =>
        intro c c' r hc h
        rcases ownPass_cons h with ⟨rfl, -⟩ | ⟨c₁, hres, hown⟩
        · exact hc
        have hc₁ : c₁.Inv := by
          rcases hres with ⟨rfl, -⟩ | ⟨-, -, slot, hreserve⟩
          · exact hc
          · exact hc.reserveSeq hreserve
        rcases hown with ⟨e, hown, -⟩ | ⟨c₂, hown, h⟩
        · exact hc₁.ownPositions hown
        · exact ih (hc₁.ownPositions hown) h
  simp only [KvCache.fillBatchInputs] at h
  split at h
  next h₁ =>
    cases h
    exact hcow _ hc h₁
  next h₁ =>
    split at h
    next h₂ =>
      cases h
      exact hown _ (hcow _ hc h₁) h₂
    next h₂ =>
      cases h
      exact hown _ (hcow _ hc h₁) h₂

-- =================== calls that report

/-- A run that was granted: it is where the answer says, and every other
run is where the reported moves put it. -/
structure Reported (seq : SeqId) (slot : SeqSlot) (moves : List KvMove)
    (c c' : KvCache ρ) : Prop where
  own : c'.runs seq = some (slot.start, slot.cap)
  others : ∀ s, s ≠ seq → c'.runs s = (c.runs s).map fun r =>
    (landing s r.1 moves, r.2)

theorem Relocated.runs (h : Relocated moves c c') (s : SeqId) :
    c'.runs s = (c.runs s).map fun r => (landing s r.1 moves, r.2) := by
  rw [KvCache.runs, h.seqs s, KvCache.runs, Option.map_map, Option.map_map]
  cases c.seqs[s]? with
  | none => rfl
  | some a =>
      simp only [Option.map_some, Function.comp_apply, Option.some.injEq]
      rw [relocateAll_start, relocateAll_eq]

/-- No moves move nothing. -/
theorem map_landing_nil (r : Option (Nat × Nat)) (s : SeqId) :
    r.map (fun r => (landing s r.1 [], r.2)) = r := by
  cases r <;> rfl

/-- Where a compaction ends: there was nothing to move, a backend refused
a copy, or every row was copied and the bookkeeping decides. -/
theorem Inv.kvDefrag_outcome (hc : c.Inv) {need : Option Nat}
    {r : Except String DefragReport} (h : c.kvDefrag env need = (r, c')) :
    (c.compactionPlan need = [] ∧ r = .ok ⟨[], 0⟩ ∧ c' = c)
      ∨ ((∃ e, r = .error e) ∧ c'.seqs = c.seqs)
      ∨ (c.compactionPlan need ≠ [] ∧ env.GrantsAll c (c.compactionPlan need)
        ∧ ((∃ e, r = .error e) ∨ ∃ n, r = .ok ⟨c.compactionPlan need, n⟩
          ∧ Relocated (c.compactionPlan need) c c')) := by
  simp only [KvCache.kvDefrag] at h
  split at h
  next hempty =>
    cases h
    have hnil := List.isEmpty_iff.mp hempty
    exact .inl ⟨hnil, by rw [hnil], rfl⟩
  next hempty =>
    have hne : c.compactionPlan need ≠ [] :=
      fun hnil => hempty (List.isEmpty_iff.mpr hnil)
    split at h
    next hcopy =>
      cases h
      exact .inr (.inl ⟨⟨_, rfl⟩, (copyPlan_frame hcopy).1⟩)
    next c₁ hcopy =>
      have hgrant := grantsAll_of_copyPlan hcopy
      split at h
      · cases h
        exact .inr (.inr ⟨hne, hgrant, .inl ⟨_, rfl⟩⟩)
      next n c₂ happly =>
        cases h
        exact .inr (.inr ⟨hne, hgrant, .inr ⟨n, rfl,
          relocated_of_ok hc.spans hne (hc.orderMoves_plan need) hcopy happly⟩⟩)

/-- A granted compaction that straddles no prefix goes through. -/
theorem Inv.kvDefrag_total (hc : c.Inv) {need : Option Nat}
    (hne : c.compactionPlan need ≠ [])
    (hgrant : env.GrantsAll c (c.compactionPlan need))
    (hcarry : ∀ (s : SeqId) a, c.seqs[s]? = some a →
      CarriesAll s a.shared (c.compactionPlan need)) :
    ∃ report c', c.kvDefrag env need = (.ok report, c') := by
  have hm := hc.movable
  have hord := hc.orderMoves_plan need
  have hsrc : ∀ (s : SeqId) slot, c.seqs[s]? = some slot →
      slot.start + slot.privateWritten ≤ c.nCtx := by
    intro s slot hs
    have hfit := hm.fits s slot hs
    have hin := (hc.table.ok s slot hs).in_arena
    omega
  obtain ⟨c₁, n, c₂, hcopy, happly, -⟩ := hm.relocated
    (fun (m : KvMove) e =>
      (s!"kv_defrag: moving sequence {m.seq} rows " ++
        s!"{m.fromCell}..{m.fromCell + m.rows} -> {m.toCell} " ++
        s!"failed: {e}"))
    hc.spans hc.layers hsrc (hc.laidOut need) (by rwa [hord]) (by rwa [hord])
      (by rwa [hord])
  rw [hord] at hcopy happly
  simp only [KvCache.kvDefrag, List.isEmpty_iff, hne, if_false, hcopy, happly]
  exact ⟨_, _, rfl⟩

/-- A reservation that has to compact gets its run: no prefix straddles the
rows that move, and first fit finds room behind them. -/
def Settles (env : KvEnv) (c : KvCache ρ) (seq cap : Nat) : Prop :=
  ∀ first, c.reserveSeq seq cap = .error first → env.defragEnabled = true →
    c.compactionPlan (some cap) ≠ [] → env.GrantsAll c (c.compactionPlan (some cap)) →
      (∀ (s : SeqId) a, c.seqs[s]? = some a →
        CarriesAll s a.shared (c.compactionPlan (some cap)))
        ∧ ∃ out, (c.kvDefrag env (some cap)).2.reserveSeq seq cap = .ok out

theorem Inv.kvReserveSeq_ok (hc : c.Inv)
    (h : c.kvReserveSeqWithDefrag env seq cap = (.ok (slot, moves), c')) :
    Reported seq slot moves c c' := by
  simp only [kvReserveSeqWithDefrag] at h
  split at h
  next slot' c₁ h₁ =>
    cases h
    obtain ⟨hown, hothers⟩ := reserveSeq_runs h₁
    exact ⟨hown, fun s hs => (hothers s hs).trans (map_landing_nil _ s).symm⟩
  next first h₁ =>
    split at h
    · cases h
    · split at h
      · cases h
      next report c₁ hdefrag =>
        split at h
        · cases h
        next hmoves =>
          split at h
          · cases h
          next slot' c₂ h₂ =>
            cases h
            obtain ⟨hown, hothers⟩ := reserveSeq_runs h₂
            refine ⟨hown, fun s hs => (hothers s hs).trans ?_⟩
            rcases hc.kvDefrag_outcome hdefrag with ⟨-, hr', -⟩ | ⟨⟨e, hr'⟩, -⟩
              | ⟨-, -, ⟨e, hr'⟩ | ⟨n, hr', hrel⟩⟩
            · cases hr'
              exact absurd rfl hmoves
            · cases hr'
            · cases hr'
            · cases hr'
              exact hrel.runs s

/-- A sequence that held nothing gets what it asked for. -/
theorem kvReserveSeq_cap (hc : c.Inv) (hnone : c.runs seq = none)
    (h : c.kvReserveSeqWithDefrag env seq cap = (.ok (slot, moves), c')) :
    slot.cap = cap := by
  have hfirst : ∀ {c₁ c₂ : KvCache ρ}, c₁.runs seq = none →
      c₁.reserveSeq seq cap = .ok (slot, c₂) →
      slot.cap = cap := by
    intro c₁ c₂ hnone h
    rcases reserveSeq_cases h with ⟨hold, -⟩ | ⟨-, hnew, -⟩
    · rw [runs, hold] at hnone
      cases hnone
    · rw [hnew]
      rfl
  simp only [kvReserveSeqWithDefrag] at h
  split at h
  next h₁ =>
    cases h
    exact hfirst hnone h₁
  next =>
    split at h
    · cases h
    · split at h
      · cases h
      next report c₁ hdefrag =>
        split at h
        · cases h
        · split at h
          · cases h
          next h₂ =>
            cases h
            refine hfirst ?_ h₂
            rcases hc.kvDefrag_cases hdefrag with ⟨-, rfl⟩ | hrel
            · exact hnone
            · rw [hrel.runs seq, hnone]
              rfl

/-- A reservation that is refused leaves the runs where they were, if it
settles. -/
theorem Inv.kvReserveSeq_error (hc : c.Inv) (hs : c.Settles env seq cap)
    {e : String} (h : c.kvReserveSeqWithDefrag env seq cap = (.error e, c')) :
    RunsKept c c' := by
  simp only [kvReserveSeqWithDefrag] at h
  split at h
  · cases h
  next first h₁ =>
    split at h
    · cases h
      exact .refl _
    next hoff =>
      have hon : env.defragEnabled = true := by simpa using hoff
      have hsettle := hs first h₁ hon
      split at h
      next e₁ c₁ hdefrag =>
        cases h
        rcases hc.kvDefrag_outcome hdefrag with ⟨-, hr, -⟩ | ⟨-, hseqs⟩
          | ⟨hne, hgrant, -⟩
        · cases hr
        · exact .of_seqs hseqs
        · obtain ⟨report, c₂, hok⟩ :=
            hc.kvDefrag_total hne hgrant (hsettle hne hgrant).1
          rw [hok] at hdefrag
          cases hdefrag
      next report c₁ hdefrag =>
        rcases hc.kvDefrag_outcome hdefrag with ⟨-, hr, rfl⟩ | ⟨⟨e', hr⟩, -⟩
          | ⟨hne, hgrant, ⟨e', hr⟩ | ⟨n, hr, -⟩⟩
        · cases hr
          cases h
          exact .refl _
        · cases hr
        · cases hr
        · cases hr
          simp only [List.isEmpty_iff, hne, if_false] at h
          obtain ⟨out, hretry⟩ := (hsettle hne hgrant).2
          rw [hdefrag] at hretry
          simp only [hretry] at h
          cases h

theorem Inv.kvReserveSeq (hc : c.Inv)
    {r : Except String (SeqSlot × List KvMove)}
    (h : c.kvReserveSeqWithDefrag env seq cap = (r, c')) : c'.Inv := by
  simp only [kvReserveSeqWithDefrag] at h
  split at h
  next h₁ =>
    cases h
    exact hc.reserveSeq h₁
  next =>
    split at h
    · cases h
      exact hc
    · split at h
      next hdefrag =>
        cases h
        exact hc.kvDefrag_left hdefrag
      next hdefrag =>
        have hc₁ := hc.kvDefrag_left hdefrag
        split at h
        · cases h
          exact hc₁
        · split at h
          · cases h
            exact hc₁
          next h₂ =>
            cases h
            exact hc₁.reserveSeq h₂

theorem Inv.kvSetCap_reported (hc : c.Inv)
    (h : c.kvSetCapWithDefrag env seq cap = (.ok (slot, moves), c')) :
    Reported seq slot moves c c' := by
  simp only [kvSetCapWithDefrag] at h
  split at h
  · cases h
  next old hold =>
    split at h
    · cases h
    next plan c₁ hset =>
      have hothers : ∀ s, s ≠ seq → c₁.runs s = c.runs s := by
        intro s hs
        rcases setCap_cases hold hset with ⟨-, -, rfl⟩ | ⟨-, rfl, -⟩
          | ⟨-, -, -, -, rfl, -⟩
        · rfl
        · exact releaseSeq_runs c hs
        · rw [runs, resized_seqs, if_neg (Ne.symm hs), runs]
      have hspans : c₁.SpansOk := by
        rcases setCap_cases hold hset with ⟨-, -, rfl⟩ | ⟨-, rfl, -⟩
          | ⟨-, -, -, -, rfl, -⟩
        · exact hc.spans
        · exact (hc.releaseSeq seq).spans
        · exact hc.spans.putSlot _ _
      split at h
      next hempty =>
        split at h
        · cases h
        next slot' hslot =>
          cases h
          rw [List.isEmpty_iff.mp hempty]
          exact ⟨runs_eq_some.mpr ⟨slot, hslot, rfl⟩,
            fun s hs => (hothers s hs).trans (map_landing_nil _ s).symm⟩
      next hne =>
        split at h
        · split at h
          · cases h
          · cases h
        · split at h
          · cases h
          next c₂ hcopy =>
            split at h
            · cases h
            next n c₃ happly =>
              split at h
              · cases h
              next slot' hslot =>
                cases h
                have hmoves : orderMoves plan ≠ [] := by
                  rw [Ne, orderMoves_eq_nil]
                  simpa using hne
                have hrel :=
                  relocated_of_ok hspans hmoves
                  (orderMoves_orderMoves plan) hcopy happly
                refine ⟨runs_eq_some.mpr ⟨slot, hslot, rfl⟩, fun s hs => ?_⟩
                rw [hrel.runs s, hothers s hs]

theorem Inv.kvSetCap_left (hc : c.Inv)
    (hrec : c.Recovers env seq cap) {r : Except String (SeqSlot × List KvMove)}
    (h : c.kvSetCapWithDefrag env seq cap = (r, c')) : c'.Inv := by
  have hleft := hc.left env (.setCap seq cap) fun _ _ _ _ heq _ => by
    cases heq
    exact hrec
  rw [KvCache.left, h] at hleft
  exact hleft

end
end KvCache
end Minfer.Graph
