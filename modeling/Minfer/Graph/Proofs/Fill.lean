/-
What filling a batch leaves of the run table.

`fill_batch_inputs` is three passes over one batch. The copy-on-write pass
asks, once per group of neighbouring queries of one sequence, that the
group's lowest position be private: afterwards every batched sequence's
shared prefix ends at its lowest batched position (`Batch.base`), whatever
the groups were and in whatever order they came. The ownership pass then
gives a lone unreserved sequence a run on free cells and raises written
extents; it never moves a run. Only then does `kv_cells_for_seq` resolve
the queries, so each of them stores into the run of its own sequence.

`fillBatchInputs_ok` is the one statement of all this, and what isolation
starts from. The facts about a single pass (`ownPass_cons`, `forQueries_ok`,
`kvCellAt_ok`) are also what the modules on run tables, on the main
sequence's extent and on arenas without sharing are built on.
-/
import Minfer.Graph.Proofs.Resize

namespace Minfer.Graph

open Lib (InRun)

variable {ρ : Type}

-- ============================== groups

namespace Batch

/-- The groups read so far, over the first `t` entries of `ids`. -/
structure GroupsOk (ids : List SeqId) (t : Nat) (out : List (SeqId × Nat × Nat)) :
    Prop where
  sound : ∀ g ∈ out, g.2.1 < g.2.2 ∧ g.2.2 ≤ t
    ∧ ∀ k, g.2.1 ≤ k → k < g.2.2 → ids[k]? = some g.1
  cover : ∀ k < t, ∃ g ∈ out, g.2.1 ≤ k ∧ k < g.2.2
  last : ∀ g, out.getLast? = some g → g.2.2 = t

theorem groupsOk_groupsFrom {ids : List SeqId} :
    ∀ {rest : List SeqId} {t : Nat} {out : List (SeqId × Nat × Nat)},
      ids.drop t = rest → t + rest.length = ids.length → GroupsOk ids t out →
      GroupsOk ids ids.length (groupsFrom rest t out) := by
  intro rest
  induction rest with
  | nil =>
      intro t out _ hlen hok
      rw [List.length_nil, Nat.add_zero] at hlen
      rw [groupsFrom, ← hlen]
      exact hok
  | cons s rest ih =>
      intro t out hdrop hlen hok
      have hs : ids[t]? = some s := by
        rw [← List.head?_drop, hdrop]
        rfl
      have hdrop' : ids.drop (t + 1) = rest := by
        rw [← List.tail_drop, hdrop]
        rfl
      have hlen' : t + 1 + rest.length = ids.length := by
        rw [← hlen, List.length_cons]
        omega
      -- opening a new group, as at the start and at a change of sequence
      have hopen : GroupsOk ids (t + 1) (out ++ [(s, t, t + 1)]) := by
        refine ⟨fun g hg => ?_, fun k hk => ?_, fun g hg => ?_⟩
        · rcases List.mem_append.mp hg with hg | hg
          · obtain ⟨hlt, hle, hids⟩ := hok.sound g hg
            exact ⟨hlt, Nat.le_succ_of_le hle, hids⟩
          · rw [List.mem_singleton.mp hg]
            refine ⟨Nat.lt_succ_self _, Nat.le_refl _, fun k h₁ h₂ => ?_⟩
            have : k = t := by simp only at h₁ h₂; omega
            rw [this, hs]
        · by_cases hkt : k = t
          · exact ⟨(s, t, t + 1), by simp, by simp [hkt]⟩
          · obtain ⟨g, hg, hin⟩ := hok.cover k (by omega)
            exact ⟨g, List.mem_append_left _ hg, hin⟩
        · rw [List.getLast?_concat] at hg
          cases hg
          rfl
      unfold groupsFrom
      split
      next last lo hi hlast =>
        split
        next heq =>
          -- the last group grows by one
          subst heq
          have hout := List.dropLast_append_getLast? _ hlast
          have hhi : hi = t := hok.last _ hlast
          obtain ⟨hlt, -, hids⟩ := hok.sound _ (List.mem_of_getLast? hlast)
          simp only at hlt hids
          refine ih hdrop' hlen' ⟨fun g hg => ?_, fun k hk => ?_, fun g hg => ?_⟩
          · rcases List.mem_append.mp hg with hg | hg
            · obtain ⟨hlt', hle', hids'⟩ := hok.sound g (List.dropLast_subset _ hg)
              exact ⟨hlt', Nat.le_succ_of_le hle', hids'⟩
            · rw [List.mem_singleton.mp hg]
              refine ⟨by simp only; omega, Nat.le_refl _, fun k h₁ h₂ => ?_⟩
              simp only at h₁ h₂
              by_cases hkt : k = t
              · rw [hkt, hs]
              · exact hids k h₁ (by omega)
          · by_cases hkt : k = t
            · exact ⟨(last, lo, t + 1), by simp, by simp only; omega⟩
            · obtain ⟨g, hg, hin⟩ := hok.cover k (by omega)
              rw [← hout] at hg
              rcases List.mem_append.mp hg with hg | hg
              · exact ⟨g, List.mem_append_left _ hg, hin⟩
              · rw [List.mem_singleton.mp hg] at hin
                refine ⟨(last, lo, t + 1), by simp, ?_⟩
                simp only at hin ⊢
                omega
          · rw [List.getLast?_concat] at hg
            cases hg
            rfl
        next => exact ih hdrop' hlen' hopen
      next => exact ih hdrop' hlen' hopen

/-- A position is in a group of `s` exactly when it is queried for `s`. -/
theorem mem_groupPositions {b : Batch} {s : SeqId} {pos : Nat} :
    (∃ g ∈ b.groups, g.1 = s ∧ pos ∈ b.groupPositions g)
      ↔ (s, pos) ∈ b.seqIds.zip b.positions := by
  have hok : GroupsOk b.seqIds b.seqIds.length b.groups :=
    groupsOk_groupsFrom (t := 0) rfl (by simp)
      ⟨fun g hg => (nomatch hg), fun k hk => absurd hk (Nat.not_lt_zero k),
        fun g hg => (nomatch hg)⟩
  constructor
  · rintro ⟨g, hg, rfl, hpos⟩
    obtain ⟨-, hle, hids⟩ := hok.sound g hg
    obtain ⟨j, hj⟩ := List.mem_iff_getElem?.mp hpos
    rw [groupPositions, List.getElem?_take] at hj
    split at hj
    next hlt =>
      rw [List.getElem?_drop] at hj
      refine List.mem_iff_getElem?.mpr ⟨g.2.1 + j, ?_⟩
      rw [List.getElem?_zip_eq_some]
      exact ⟨hids _ (by omega) (by omega), hj⟩
    next => cases hj
  · intro hmem
    obtain ⟨k, hk⟩ := List.mem_iff_getElem?.mp hmem
    rw [List.getElem?_zip_eq_some] at hk
    obtain ⟨hklt, -⟩ := List.getElem?_eq_some_iff.mp hk.1
    obtain ⟨g, hg, hlo, hhi⟩ := hok.cover k hklt
    have hgs := (hok.sound g hg).2.2 k hlo hhi
    rw [hk.1] at hgs
    refine ⟨g, hg, (Option.some.inj hgs).symm, ?_⟩
    refine List.mem_iff_getElem?.mpr ⟨k - g.2.1, ?_⟩
    rw [groupPositions, List.getElem?_take, if_pos (by omega), List.getElem?_drop,
      show g.2.1 + (k - g.2.1) = k by omega]
    exact hk.2

/-- What is left of a `rows`-row shared prefix of `s` once the batch has
made its positions private: it ends at the lowest of them. -/
def base (b : Batch) (s : SeqId) (rows : Nat) : Nat :=
  ((b.seqIds.zip b.positions).filter (·.1 = s)).foldl (fun m q => min m q.2) rows

/-- `base` is the least of the prefix length and the queried positions. -/
theorem le_base_iff {b : Batch} {s : SeqId} {rows x : Nat} :
    x ≤ b.base s rows
      ↔ x ≤ rows ∧ ∀ pos, (s, pos) ∈ b.seqIds.zip b.positions → x ≤ pos := by
  have hfold : ∀ (qs : List (SeqId × Nat)) (m : Nat),
      x ≤ qs.foldl (fun m q => min m q.2) m ↔ x ≤ m ∧ ∀ q ∈ qs, x ≤ q.2 := by
    intro qs
    induction qs with
    | nil => simp
    | cons q qs ih =>
        intro m
        rw [List.foldl_cons, ih, Nat.le_min, List.forall_mem_cons, and_assoc]
  rw [base, hfold]
  refine and_congr_right fun _ => ⟨fun h pos hq => ?_, fun h q hq => ?_⟩
  · exact h (s, pos) (List.mem_filter.mpr ⟨hq, by simp⟩)
  · obtain ⟨hmem, hs⟩ := List.mem_filter.mp hq
    have : q.1 = s := by simpa using hs
    exact h q.2 (by rw [← this]; exact hmem)

end Batch

namespace KvCache

-- ======================= copy-on-write

variable {c c' : KvCache ρ} {env : KvEnv} {b : Batch}
  {gs : List (SeqId × Nat × Nat)}

/-- The table after one copy-on-write: the prefix ends at `t`. -/
theorem kvPrivateRowFor_table {seq t : Nat} {o : Option KvShift}
    (h : c.kvPrivateRowFor env seq t = (.ok o, c')) (s : SeqId) :
    c'.seqs[s]? = (c.seqs[s]?).map fun slot =>
      if seq = s then { slot with shared :=
        ⟨slot.shared.cell, min slot.shared.rows t⟩ }
      else slot := by
  unfold kvPrivateRowFor at h
  split at h
  · cases h
  next hnone =>
    cases h
    rcases privateRowFor_cases hnone with ⟨-, hle⟩ | ⟨slot, -, -, -, hcon⟩
    · by_cases hs : seq = s
      · subst hs
        cases hslot : c.seqs[seq]? with
        | none => rfl
        | some slot => simp [Nat.min_eq_left (hle slot hslot)]
      · simp [hs]
    · cases hcon
  next shift hshift =>
    rcases privateRowFor_cases hshift with ⟨hcon, -⟩ | ⟨slot, hslot, hlt, -, heq⟩
    · cases hcon
    cases heq
    simp only at h
    split at h
    · cases h
    next c₁ hcopy =>
      obtain ⟨hseqs, -, -⟩ := copyPlan_frame hcopy
      split at h
      · cases h
      next c₂ happly =>
        cases h
        obtain ⟨slot', hslot', -, -, -, htbl, -⟩ := applyPrivateRow_cases happly
        simp only at hslot' htbl
        rw [hseqs, hslot] at hslot'
        cases hslot'
        rw [htbl s, hseqs]
        by_cases hs : seq = s
        · subst hs
          rw [if_pos rfl, hslot, Option.map_some, if_pos rfl,
            Nat.min_eq_right (by omega)]
        · simp [hs]

/-- The copy-on-write pass: every batched sequence's prefix ends at its
lowest batched position. -/
theorem cowPass_ok :
    ∀ {c c' : KvCache ρ}, c.Inv → cowPass env b c gs = (.ok (), c') →
      c'.Inv ∧ ∀ s : SeqId, ∃ cut : Nat → Nat,
        c'.seqs[s]? = (c.seqs[s]?).map (fun slot =>
          { slot with shared := ⟨slot.shared.cell, cut slot.shared.rows⟩ })
        ∧ ∀ rows x, x ≤ cut rows
          ↔ x ≤ rows ∧ ∀ g ∈ gs, g.1 = s → ∀ pos ∈ b.groupPositions g, x ≤ pos := by
  induction gs with
  | nil =>
      intro c c' hc h
      cases h
      refine ⟨hc, fun s => ⟨id, ?_, by simp⟩⟩
      cases c.seqs[s]? <;> rfl
  | cons g gs ih =>
      intro c c' hc h
      simp only [cowPass] at h
      split at h
      next hmin =>
        obtain ⟨hc', hcut⟩ := ih hc h
        refine ⟨hc', fun s => ?_⟩
        obtain ⟨cut, htbl, hle⟩ := hcut s
        refine ⟨cut, htbl, fun rows x => ?_⟩
        rw [hle, List.forall_mem_cons, List.min?_eq_none_iff.mp hmin]
        simp
      next t hmin =>
        split at h
        · cases h
        next o c₁ h₁ =>
          obtain ⟨hc', hcut⟩ := ih (hc.kvPrivateRowFor h₁) h
          have htbl₁ := kvPrivateRowFor_table h₁
          refine ⟨hc', fun s => ?_⟩
          obtain ⟨cut, htbl, hle⟩ := hcut s
          refine ⟨fun rows => cut (if g.1 = s then min rows t else rows), ?_, ?_⟩
          · rw [htbl, htbl₁ s, Option.map_map]
            cases c.seqs[s]? with
            | none => rfl
            | some slot =>
                by_cases hs : g.1 = s <;> simp [hs]
          · intro rows x
            rw [hle, List.forall_mem_cons]
            by_cases hs : g.1 = s
            · rw [if_pos hs, Nat.le_min, List.le_min?_iff hmin, and_assoc]
              simp [hs]
            · simp [hs]

-- =========================== ownership

/-- Owning positions keeps every slot but for its written extent. -/
theorem ownPositions_table {seq : SeqId} {positions : List Nat} :
    ∀ {c c' : KvCache ρ} {r : Except String Unit}, c.Inv →
      c.ownPositions seq positions = (r, c') → ∀ s : SeqId, ∃ raise : Nat → Nat,
        c'.seqs[s]? = (c.seqs[s]?).map fun slot =>
          { slot with written := raise slot.written } := by
  induction positions with
  | nil =>
      intro c c' r _ h s
      cases h
      exact ⟨id, by cases c.seqs[s]? <;> rfl⟩
  | cons pos rest ih =>
      intro c c' r hc h s
      simp only [ownPositions] at h
      split at h
      · cases h
        exact ⟨id, by cases c.seqs[s]? <;> rfl⟩
      next cell _ =>
        obtain ⟨raise, htbl⟩ := ih (hc.ownRange seq cell (cell + 1)) h s
        have hown : (c.ownRange seq cell (cell + 1)).seqs[s]? = _ :=
          ownRange_table c seq cell (cell + 1) s
        refine ⟨fun w => raise (if seq = s then
          c.raiseWritten seq w (List.range' cell (cell + 1 - cell)) else w), ?_⟩
        rw [htbl, hown, Option.map_map]
        unfold KvCache.table
        cases c.seqs[s]? with
        | none => rfl
        | some slot => by_cases hs : seq = s <;> simp [hs]

/-- A slot that differs from another in its written extent only. -/
def SameRun (a b : SeqSlot) : Prop :=
  a.start = b.start ∧ a.cap = b.cap ∧ a.shared = b.shared

/-- A group of the ownership pass: its sequence holds a run, or a lone one is
given one; then its positions are owned, and the pass goes on. -/
theorem ownPass_cons {g : SeqId × Nat × Nat} {r : Except String Unit}
    (h : ownPass b c (g :: gs) = (r, c')) :
    (c' = c ∧ ∃ e, r = .error e)
      ∨ ∃ c₁, (c₁ = c ∧ (∃ slot, c.seqs[g.1]? = some slot)
          ∨ c.seqs[g.1]? = none ∧ ¬ 1 < b.nSeqs
            ∧ ∃ slot, c.reserveSeq g.1 c.nCtx = .ok (slot, c₁))
        ∧ ((∃ e, c₁.ownPositions g.1 (b.groupPositions g) = (.error e, c')
          ∧ r = .error e)
          ∨ ∃ c₂, c₁.ownPositions g.1 (b.groupPositions g) = (.ok (), c₂)
              ∧ ownPass b c₂ gs = (r, c')) := by
  simp only [ownPass] at h
  split at h
  next e hres =>
    cases h
    exact .inl ⟨rfl, e, rfl⟩
  next c₁ hres =>
    refine .inr ⟨c₁, ?_, ?_⟩
    · split at hres
      next slot hslot =>
        cases hres
        exact .inl ⟨rfl, slot, hslot⟩
      next hslot =>
        split at hres
        · cases hres
        next hlone =>
          split at hres
          · cases hres
          next slot c₂ hreserve =>
            cases hres
            exact .inr ⟨hslot, hlone, slot, hreserve⟩
    · split at h
      next e c₂ hown =>
        cases h
        exact .inl ⟨e, hown, rfl⟩
      next c₂ hown => exact .inr ⟨c₂, hown, h⟩

/-- The ownership pass: reserved sequences keep their runs, and a sequence
reserved on the way has no prefix and lies clear of every prefix. -/
theorem ownPass_ok :
    ∀ {c c' : KvCache ρ}, c.Inv → ownPass b c gs = (.ok (), c') →
      c'.Inv
        ∧ (∀ (s : SeqId) slot, c.seqs[s]? = some slot →
            ∃ slot', c'.seqs[s]? = some slot' ∧ SameRun slot' slot)
        ∧ ∀ (s : SeqId) slot', c'.seqs[s]? = some slot' → c.seqs[s]? = none →
          slot'.shared.rows = 0 ∧ ∀ (t : SeqId) tslot, c.seqs[t]? = some tslot →
            ∀ cell, InRun slot'.start slot'.cap cell →
              ¬ InRun tslot.shared.cell tslot.shared.rows cell := by
  induction gs with
  | nil =>
      intro c c' hc h
      cases h
      refine ⟨hc, fun s slot hs => ⟨slot, hs, rfl, rfl, rfl⟩,
        fun s slot' hs hnone => ?_⟩
      rw [hnone] at hs
      cases hs
  | cons g gs ih =>
      intro c c' hc h
      rcases ownPass_cons h with ⟨-, e, he⟩ | ⟨c₁, hres, hown⟩
      · cases he
      -- the reservation, when there was none, is first fit on free cells
      have hfirst : c₁.Inv ∧ (∀ (s : SeqId) slot, c.seqs[s]? = some slot →
            c₁.seqs[s]? = some slot)
          ∧ ∀ (s : SeqId) slot', c₁.seqs[s]? = some slot' → c.seqs[s]? = none →
            slot'.shared.rows = 0 ∧ ∀ (t : SeqId) tslot, c.seqs[t]? = some tslot →
              ∀ cell, InRun slot'.start slot'.cap cell →
                ¬ InRun tslot.shared.cell tslot.shared.rows cell := by
        rcases hres with ⟨rfl, -⟩ | ⟨hnone, -, slot, hreserve⟩
        · refine ⟨hc, fun _ _ hs => hs, fun s slot' hs hnone => ?_⟩
          rw [hnone] at hs
          cases hs
        · refine ⟨hc.reserveSeq hreserve, ?_⟩
          rcases reserveSeq_cases hreserve with ⟨hsome, -, -⟩ |
            ⟨-, hslot, -, -, hfree, rfl⟩
          · rw [hnone] at hsome
            cases hsome
          refine ⟨fun s slot₀ hs => ?_, fun s slot' hs hn => ?_⟩
          · rw [putSlot_seqs, if_neg]
            · exact hs
            · rintro rfl
              rw [hnone] at hs
              cases hs
          · rw [putSlot_seqs] at hs
            split at hs
            next =>
              cases hs
              refine ⟨by rw [hslot]; rfl, fun t tslot ht cell hin => ?_⟩
              have hcap : slot.cap = c.nCtx := by rw [hslot]; rfl
              rw [hcap] at hin
              exact (not_occupied hc.spans (hfree cell hin) ht).2
            next =>
              rw [hn] at hs
              cases hs
      obtain ⟨hc₁, hkeep₁, hnew₁⟩ := hfirst
      rcases hown with ⟨e, -, he⟩ | ⟨c₂, hown, h⟩
      · cases he
      have htbl := ownPositions_table hc₁ hown
      obtain ⟨hc', hkeep, hnew⟩ := ih (hc₁.ownPositions hown) h
      -- one round changed nothing but written extents
      have hround : ∀ (s : SeqId) slot, c₁.seqs[s]? = some slot →
          ∃ slot', c'.seqs[s]? = some slot' ∧ SameRun slot' slot := by
        intro s slot hs
        obtain ⟨raise, hraise⟩ := htbl s
        rw [hs, Option.map_some] at hraise
        obtain ⟨slot', hs', hsame⟩ := hkeep s _ hraise
        exact ⟨slot', hs', hsame⟩
      refine ⟨hc', fun s slot hs => hround s slot (hkeep₁ s slot hs),
        fun s slot' hs hnone => ?_⟩
      cases hs₁ : c₁.seqs[s]? with
      | some slot₁ =>
          obtain ⟨slot'', hs'', hstart, hcap, hsh⟩ := hround s slot₁ hs₁
          rw [hs] at hs''
          cases hs''
          rw [hstart, hcap, hsh]
          exact hnew₁ s slot₁ hs₁ hnone
      | none =>
          have hs₂ : c₂.seqs[s]? = none := by
            obtain ⟨raise, hraise⟩ := htbl s
            rw [hraise, hs₁]
            rfl
          obtain ⟨hzero, hclear⟩ := hnew s slot' hs hs₂
          refine ⟨hzero, fun t tslot ht => ?_⟩
          obtain ⟨raise, hraise⟩ := htbl t
          rw [hkeep₁ t tslot ht, Option.map_some] at hraise
          have hprefix := hclear t _ hraise
          exact hprefix

-- ============================== stores

/-- A traversal of the queries that was not refused resolved each one. -/
theorem forQueries_ok {α : Type} {f : Nat → SeqId → Nat → Except String α} :
    ∀ {ids : List SeqId} {ps : List Nat} {t : Nat} {xs : List α},
      forQueries f t ids ps = .ok xs → ∀ {k s p : Nat}, ids[k]? = some s →
        ps[k]? = some p →
        ∃ x, xs[k]? = some x ∧ f (t + k) s p = .ok x := by
  intro ids
  induction ids with
  | nil =>
      intro ps t xs _ k s p hs
      simp at hs
  | cons id ids ih =>
      intro ps t xs h k s p hs hp
      rcases ps with _ | ⟨q, ps⟩
      · simp at hp
      simp only [forQueries] at h
      split at h
      · cases h
      next x hx =>
        split at h
        · cases h
        next rest hrest =>
          cases h
          rcases k with _ | k
          · simp only [List.getElem?_cons_zero, Option.some_inj] at hs hp
            subst hs hp
            exact ⟨x, rfl, hx⟩
          · rw [List.getElem?_cons_succ] at hs hp
            obtain ⟨y, hy, hf⟩ := ih hrest hs hp
            refine ⟨y, by rwa [List.getElem?_cons_succ], ?_⟩
            rw [show t + (k + 1) = t + 1 + k by omega]
            exact hf

/-- A pass that was not refused answers every query. -/
theorem forQueries_length {α : Type} {f : Nat → SeqId → Nat → Except String α} :
    ∀ {ids : List SeqId} {ps : List Nat} {t : Nat} {xs : List α},
      forQueries f t ids ps = .ok xs → xs.length = min ids.length ps.length := by
  intro ids
  induction ids with
  | nil =>
      intro ps t xs h
      cases h
      simp
  | cons id ids ih =>
      intro ps t xs h
      rcases ps with _ | ⟨q, ps⟩
      · cases h
        simp
      · simp only [forQueries] at h
        split at h
        · cases h
        · split at h
          · cases h
          next ys hys =>
            cases h
            rw [List.length_cons, ih hys, List.length_cons, List.length_cons]
            omega

/-- The cell a query stores to lies in its sequence's own run. -/
theorem kvCellAt_ok (hc : c.SpansOk) {t seq rel cell : Nat}
    (h : c.kvCellAt t seq rel = .ok cell) :
    ∃ slot, c.seqs[seq]? = some slot ∧ slot.shared.rows ≤ rel
      ∧ cell = slot.start + (rel - slot.shared.rows)
      ∧ InRun slot.start slot.cap cell := by
  unfold kvCellAt at h
  split at h
  · cases h
  next slot hslot =>
    split at h
    · cases h
    next hlo =>
      split at h
      · cases h
      next hhi =>
        split at h
        · cases h
        next cell' hcell =>
          cases h
          rw [seqSlot] at hslot
          rw [cellOf_eq hc, hslot, Option.bind_some, SeqSlot.cellAt, if_neg hlo,
            if_pos (by omega)] at hcell
          cases hcell
          exact ⟨slot, hslot, by omega, rfl, by unfold InRun; omega⟩

/-- What a successful `fill_batch_inputs` leaves in the table: batched
prefixes cut at their lowest position, and sequences reserved on the way
clear of everybody's prefix. -/
theorem fillBatchInputs_ok {cells : List Nat} (hc : c.Inv)
    (h : c.fillBatchInputs env b = (.ok cells, c')) :
    c'.Inv ∧ b.seqIds.length = b.positions.length
      ∧ (∀ {k s p : Nat}, b.seqIds[k]? = some s → b.positions[k]? = some p →
          ∃ cell, cells[k]? = some cell ∧ c'.kvCellAt k s p = .ok cell)
      ∧ (∀ (s : SeqId) slot, c.seqs[s]? = some slot →
          ∃ slot', c'.seqs[s]? = some slot'
          ∧ slot'.start = slot.start ∧ slot'.cap = slot.cap
          ∧ slot'.shared = ⟨slot.shared.cell, b.base s slot.shared.rows⟩)
      ∧ ∀ (s : SeqId) slot', c'.seqs[s]? = some slot' → c.seqs[s]? = none →
        slot'.shared.rows = 0 ∧ ∀ (t : SeqId) tslot, c.seqs[t]? = some tslot →
          ∀ cell, InRun slot'.start slot'.cap cell →
            ¬ InRun tslot.shared.cell (b.base t tslot.shared.rows) cell := by
  unfold fillBatchInputs at h
  split at h
  · cases h
  next c₁ hcow =>
    split at h
    · cases h
    next c₂ hown =>
      simp only [Prod.mk.injEq] at h
      obtain ⟨hcells, rfl⟩ := h
      obtain ⟨hc₁, hcut⟩ := cowPass_ok hc hcow
      obtain ⟨hc₂, hkeep, hnew⟩ := ownPass_ok hc₁ hown
      unfold kvCellsForSeq at hcells
      split at hcells
      · cases hcells
      next hlen =>
        -- the groups' positions are the queried ones
        have hbase : ∀ (s : SeqId) slot, c.seqs[s]? = some slot → c₁.seqs[s]?
            = some { slot with shared :=
              ⟨slot.shared.cell, b.base s slot.shared.rows⟩ } := by
          intro s slot hs
          obtain ⟨cut, htbl, hle⟩ := hcut s
          rw [htbl, hs, Option.map_some]
          have : cut slot.shared.rows = b.base s slot.shared.rows := by
            refine eq_of_forall_le_iff fun x => ?_
            rw [hle, Batch.le_base_iff]
            refine and_congr_right fun _ =>
              ⟨fun hg pos hq => ?_, fun hq g hg hs pos hp => ?_⟩
            · obtain ⟨g, hmem, hgs, hp⟩ := Batch.mem_groupPositions.mpr hq
              exact hg g hmem hgs pos hp
            · exact hq pos (Batch.mem_groupPositions.mp ⟨g, hg, hs, hp⟩)
          rw [this]
        refine ⟨hc₂, by omega, fun {k s p} hs hp => ?_, fun s slot hs => ?_,
          fun s slot' hs hnone => ?_⟩
        · obtain ⟨x, hx, hf⟩ := forQueries_ok hcells hs hp
          exact ⟨x, hx, by rwa [Nat.zero_add] at hf⟩
        · obtain ⟨slot', hs', hstart, hcap, hsh⟩ := hkeep s _ (hbase s slot hs)
          exact ⟨slot', hs', hstart, hcap, hsh⟩
        · have hnone₁ : c₁.seqs[s]? = none := by
            obtain ⟨cut, htbl, -⟩ := hcut s
            rw [htbl, hnone]
            rfl
          obtain ⟨hzero, hclear⟩ := hnew s slot' hs hnone₁
          exact ⟨hzero, fun t tslot ht => hclear t _ (hbase t tslot ht)⟩

end KvCache
end Minfer.Graph
