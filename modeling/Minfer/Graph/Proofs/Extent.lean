/-
A single-sequence arena: forwards at consecutive positions, and removals.

The written extent is kept twice, as the slot's `written` and as each layer's
`n_used`. A forward raises both; a removal lowers the second alone. So the two
agree in every state of a run exactly when the run removes nothing.
-/
import Minfer.Lib.Except
import Minfer.Graph.Proofs.Removal
import Minfer.Graph.Proofs.Fill

namespace Minfer.Graph

open Lib (toOption_eq_some)

variable {ρ : Type}

-- =============================== calls

/-- `Batch::single`: one forward of the main sequence. -/
def Batch.single (tokens positions : List Nat) : Batch :=
  ⟨tokens, positions, List.replicate tokens.length seqMain⟩

/-- A call against a single-sequence arena. -/
inductive MainOp (ρ : Type) where
  | forward (tokens : List Nat) (rows : KvCache.Stores ρ)
  | remove (start len : Nat)

/-- The rows a call takes out. -/
def MainOp.removed : MainOp ρ → Nat
  | .forward _ _ => 0
  | .remove _ len => len

namespace KvCache

/-- The rows in the arena: the used extent of its first layer. -/
def used (c : KvCache ρ) : Nat :=
  match c.layers.toList with
  | (_, l) :: _ => l.nUsed
  | [] => 0

/-- A call that succeeds. A forward runs at the positions behind the rows in
the arena. -/
def mainStep (env : KvEnv) (rm : RmEnv) (rope : KvRope ρ) (c : KvCache ρ) :
    MainOp ρ → Option (KvCache ρ)
  | .forward tokens rows =>
      let positions := List.range' c.used tokens.length
      match c.fillBatchInputs env (Batch.single tokens positions) with
      | (.ok _, c) => some (c.storeRows seqMain positions rows)
      | (.error _, _) => none
  | .remove start len =>
      match c.kvRm rm rope start len with
      | (.ok _, c) => some c
      | (.error _, _) => none

/-- Calls one after another. -/
def mainRun (env : KvEnv) (rm : RmEnv) (rope : KvRope ρ) :
    KvCache ρ → List (MainOp ρ) → Option (KvCache ρ)
  | c, [] => some c
  | c, op :: rest =>
      match c.mainStep env rm rope op with
      | some c => mainRun env rm rope c rest
      | none => none

/-- An arena nothing was written to. -/
structure Fresh (c : KvCache ρ) : Prop where
  empty : c.IsEmpty
  layer : ∃ (i : Nat) (l : KvLayer ρ), c.layers[i]? = some l
  unused : ∀ (i : Nat) (l : KvLayer ρ), c.layers[i]? = some l → l.nUsed = 0

/-- The two extents agree; so a query past the rows is refused, and a session
resumes behind them. -/
structure InStep (c : KvCache ρ) : Prop where
  extents : ∀ (i : Nat) (l : KvLayer ρ), c.layers[i]? = some l →
    l.nUsed = c.writtenRows seqMain
  window : ∀ t rel w, c.attnSpanAt t seqMain rel = .ok w → rel < c.used
  resume : c.sessionState.written = c.used

-- ======================= the invariant

/-- An arena of the main sequence alone: `u` rows in every layer, and an
extent of `w`. -/
structure MainOnly (u w : Nat) (c : KvCache ρ) : Prop where
  spans : c.SpansOk
  alone : ∀ s : SeqId, s ≠ seqMain → c.seqs[s]? = none
  run : c.seqs[seqMain]? = none ∧ w = 0
    ∨ c.seqs[seqMain]? = some ⟨0, c.nCtx, ⟨0, 0⟩, w⟩
  layer : ∃ (i : Nat) (l : KvLayer ρ), c.layers[i]? = some l
  layers : ∀ (i : Nat) (l : KvLayer ρ), c.layers[i]? = some l →
    l.owner.length = c.nCtx ∧ l.nUsed = u

variable {c c' : KvCache ρ} {u w : Nat} {tokens : List Nat} {env : KvEnv}
  {rm : RmEnv} {rope : KvRope ρ}

theorem Fresh.mainOnly (hc : c.Fresh) : c.MainOnly 0 0 where
  spans s := by rw [hc.empty.spans s, hc.empty.seqs s]; rfl
  alone s _ := hc.empty.seqs s
  run := Or.inl ⟨hc.empty.seqs seqMain, rfl⟩
  layer := hc.layer
  layers i l hl := ⟨hc.empty.owner_len i l hl, hc.unused i l hl⟩

theorem MainOnly.used (hc : c.MainOnly u w) :
    c.used = u := by
  obtain ⟨i, l, hl⟩ := hc.layer
  have hmem := Std.TreeMap.mem_toList_iff_getElem?_eq_some.2 hl
  rw [KvCache.used]
  match h : c.layers.toList with
  | [] =>
      rw [h] at hmem
      cases hmem
  | (j, k) :: rest =>
      have hk : (j, k) ∈ c.layers.toList := by
        rw [h]
        exact List.mem_cons_self
      exact (hc.layers j k (Std.TreeMap.mem_toList_iff_getElem?_eq_some.1 hk)).2

theorem MainOnly.writtenRows (hc : c.MainOnly u w) :
    c.writtenRows seqMain = w := by
  rcases hc.run with ⟨hnone, rfl⟩ | hrun
  · rw [KvCache.writtenRows, hnone]
  · rw [writtenRows_eq hrun]

/-- The run table has one entry at most. -/
theorem MainOnly.seqs_toList (hc : c.MainOnly u w) :
    c.seqs.toList = [] ∧ w = 0
      ∨ c.seqs.toList = [(seqMain, ⟨0, c.nCtx, ⟨0, 0⟩, w⟩)] := by
  have hmain {e : SeqId × SeqSlot} (he : e ∈ c.seqs.toList) : e.1 = seqMain := by
    by_contra hne
    have hnone := hc.alone e.1 hne
    rw [mem_seqs_toList.1 he] at hnone
    cases hnone
  have hslot {e : SeqId × SeqSlot} (he : e ∈ c.seqs.toList) : c.seqs[seqMain]?
      = some e.2 := by
    rw [← hmain he]
    exact mem_seqs_toList.1 he
  have hnd := nodup_keys_toList c.seqs
  match h : c.seqs.toList with
  | [] =>
      rcases hc.run with ⟨-, hw⟩ | hrun
      · exact Or.inl ⟨rfl, hw⟩
      · have hmem := mem_seqs_toList.2 hrun
        rw [h] at hmem
        cases hmem
  | [e] =>
      have he : e ∈ c.seqs.toList := by
        rw [h]
        exact List.mem_singleton_self e
      rcases hc.run with ⟨hnone, -⟩ | hrun
      · rw [hslot he] at hnone
        cases hnone
      · refine Or.inr ?_
        rw [hslot he] at hrun
        rw [← Option.some.inj hrun, ← hmain he]
  | e :: e' :: rest =>
      rw [h] at hnd hmain
      refine absurd (List.nodup_cons.1 hnd).1 (not_not.2 ?_)
      rw [hmain List.mem_cons_self,
        ← hmain (List.mem_cons_of_mem e List.mem_cons_self)]
      exact List.mem_cons_self

theorem MainOnly.session_written (hc : c.MainOnly u w) :
    c.sessionState.written = w := by
  rw [KvSessionState.written, sessionState]
  rcases hc.seqs_toList with ⟨hlist, rfl⟩ | hlist
  · rw [hlist]
    rfl
  · rw [hlist]
    exact Nat.zero_max w

/-- The extents of such an arena agree exactly when the two numbers do. -/
theorem MainOnly.inStep_iff (hc : c.MainOnly u w) :
    c.InStep ↔ u = w := by
  constructor
  · intro h
    obtain ⟨i, l, hl⟩ := hc.layer
    rw [← (hc.layers i l hl).2, h.extents i l hl, hc.writtenRows]
  · rintro rfl
    refine ⟨fun i l hl => ?_, fun t rel w h => ?_, ?_⟩
    · rw [hc.writtenRows, (hc.layers i l hl).2]
    · rw [hc.used, ← hc.writtenRows]
      unfold attnSpanAt at h
      split at h
      · cases h
      · split at h
        · cases h
        · split at h
          · cases h
          next hlt => exact Nat.lt_of_not_le hlt
      · cases h
    · rw [hc.session_written, hc.used]

-- ============================ forwards

theorem MainOnly.cellOf (hc : c.MainOnly u w) {pos cell : Nat}
    (h : c.cellOf seqMain pos = some cell) : cell = pos ∧ pos < c.nCtx := by
  rw [cellOf_eq hc.spans] at h
  rcases hc.run with ⟨hnone, -⟩ | hrun
  · rw [hnone] at h
    cases h
  · rw [hrun, Option.bind_some, SeqSlot.cellAt, if_neg (Nat.not_lt_zero _)] at h
    split at h
    next hlt =>
      cases h
      simp only at hlt ⊢
      omega
    · cases h

theorem ownRange_layer (c : KvCache ρ) (seq lo hi i : Nat) :
    (c.ownRange seq lo hi).layers[i]? = (c.layers[i]?).map fun l =>
      { l with
        owner := setOwnerIf l.owner (min lo (min hi l.owner.length))
          (min hi l.owner.length)
          (fun _ => true) seq
        nUsed := max l.nUsed (min hi l.owner.length) } := by
  simp only [KvCache.ownRange]
  split <;> rw [getElem?_map_nat]

/-- Owning the cell behind the rows: one row more. -/
theorem MainOnly.ownRange (hc : c.MainOnly u w)
    (hrun : c.seqs[seqMain]? = some ⟨0, c.nCtx, ⟨0, 0⟩, w⟩) (hlt : u < c.nCtx) :
    (c.ownRange seqMain u (u + 1)).MainOnly (u + 1) (max w (u + 1)) := by
  have htable := ownRange_table c seqMain u (u + 1)
  unfold table at htable
  have hraise : c.raiseWritten seqMain w (List.range' u (u + 1 - u))
      = max w (u + 1) := by
    have hpos : c.posOfCell seqMain u = some u := by
      have hspan : (⟨0, c.nCtx, ⟨0, 0⟩, w⟩ : SeqSlot).spanEntry
          = some [⟨0, 0, c.nCtx⟩] := by
        have hcap : c.nCtx > 0 := by omega
        simp [SeqSlot.spanEntry, SeqSlot.spanList, hcap]
      rw [posOfCell, hc.spans seqMain, hrun, Option.bind_some, hspan]
      simp [hlt]
    rw [Nat.add_sub_cancel_left]
    simp [raiseWritten, hpos]
  refine ⟨hc.spans.ownRange _ _ _, fun s hs => ?_, Or.inr ?_, ?_, fun i l hl => ?_⟩
  · rw [htable, hc.alone s hs]
    rfl
  · rw [htable, hrun, ownRange_nCtx, Option.map_some, if_pos rfl, hraise]
  · obtain ⟨i, l, hl⟩ := hc.layer
    exact ⟨i, _,
      (ownRange_layer c seqMain u (u + 1) i).trans
        (congrArg (Option.map _) hl)⟩
  · rw [ownRange_layer] at hl
    obtain ⟨l₀, h₀, rfl⟩ := Option.map_eq_some_iff.1 hl
    obtain ⟨hlen, hused⟩ := hc.layers i l₀ h₀
    rw [ownRange_nCtx]
    simp only [length_setOwnerIf]
    omega

theorem MainOnly.ownPositions (hc : c.MainOnly u w)
    (hrun : c.seqs[seqMain]? = some ⟨0, c.nCtx, ⟨0, 0⟩, w⟩) {n : Nat}
    (h : c.ownPositions seqMain (List.range' u n) = (.ok (), c')) :
    c'.MainOnly (u + n) (if n = 0 then w else max w (u + n)) := by
  induction n generalizing u w c with
  | zero =>
      cases h
      exact hc
  | succ n ih =>
      rw [List.range'_succ, KvCache.ownPositions] at h
      split at h
      · cases h
      next cell hcell =>
        obtain ⟨rfl, hlt⟩ := hc.cellOf hcell
        have hstep := hc.ownRange hrun hlt
        have hrun' : (c.ownRange seqMain cell (cell + 1)).seqs[seqMain]?
            = some ⟨0, (c.ownRange seqMain cell (cell + 1)).nCtx, ⟨0, 0⟩,
              max w (cell + 1)⟩ := by
          rcases hstep.run with ⟨-, hzero⟩ | hrun'
          · omega
          · exact hrun'
        have hrest := ih hstep hrun' h
        rw [if_neg (Nat.succ_ne_zero n)]
        have hmax : (if n = 0 then max w (cell + 1)
            else max (max w (cell + 1)) (cell + 1 + n))
            = max w (cell + (n + 1)) := by
          split <;> omega
        rw [hmax, show cell + 1 + n = cell + (n + 1) by omega] at hrest
        exact hrest

variable {positions : List Nat} {ops : List (MainOp ρ)}

/-- One sequence makes one group. -/
theorem groups_single (hne : tokens ≠ []) :
    (Batch.single tokens positions).groups = [(seqMain, 0, tokens.length)] := by
  have hrun (n lo t : Nat) : Batch.groupsFrom (List.replicate n seqMain) t
      [(seqMain, lo, t)]
      = [(seqMain, lo, t + n)] := by
    induction n generalizing t with
    | zero => rfl
    | succ n ih =>
        rw [List.replicate_succ, Batch.groupsFrom]
        simp only [List.getLast?_singleton, if_true, List.dropLast_singleton,
          List.nil_append]
        rw [ih, show t + 1 + n = t + (n + 1) by omega]
  obtain ⟨tok, rest, rfl⟩ := List.exists_cons_of_ne_nil hne
  rw [Batch.groups, Batch.single, List.length_cons, List.replicate_succ,
    Batch.groupsFrom]
  simp only [List.getLast?_nil, List.nil_append]
  rw [hrun, Nat.add_comm]

theorem nSeqs_single (hne : tokens ≠ []) :
    (Batch.single tokens positions).nSeqs = 1 := by
  have hrest (n : Nat) : (List.replicate n seqMain).foldl
      (fun out s => if out.contains s then out else out ++ [s]) [seqMain]
          = [seqMain] := by
    induction n with
    | zero => rfl
    | succ n ih =>
        rw [List.replicate_succ, List.foldl_cons]
        exact ih
  obtain ⟨tok, rest, rfl⟩ := List.exists_cons_of_ne_nil hne
  rw [Batch.nSeqs, Batch.seqs, Batch.single, List.length_cons,
    List.replicate_succ, List.foldl_cons]
  exact congrArg List.length (hrest rest.length)

/-- The implicit reservation of a classic forward takes the whole arena. -/
theorem MainOnly.reserve {slot : SeqSlot}
    (hc : c.MainOnly u w) (hnone : c.seqs[seqMain]? = none)
    (h : c.reserveSeq seqMain c.nCtx = .ok (slot, c')) :
    c'.MainOnly u w ∧ c'.seqs[seqMain]? = some ⟨0, c'.nCtx, ⟨0, 0⟩, w⟩ := by
  obtain ⟨-, hw⟩ | hrun := hc.run
  · unfold reserveSeq at h
    split at h
    · cases h
    next hpos =>
      rw [hnone] at h
      simp only at h
      split at h
      next start hfit =>
        obtain ⟨-, hend, -⟩ :=
          firstFit_spec (Nat.le_refl 0) (by omega) (by omega) hfit
        rw [length_occupied] at hend
        obtain rfl : start = 0 := by omega
        cases h
        have hslot : (c.putSlot seqMain (SeqSlot.new 0 c.nCtx)).seqs[seqMain]?
            = some ⟨0, (c.putSlot seqMain (SeqSlot.new 0 c.nCtx)).nCtx, ⟨0, 0⟩,
              w⟩ := by
          rw [putSlot_seqs, if_pos rfl, putSlot_nCtx, hw]
          rfl
        refine ⟨⟨hc.spans.putSlot _ _, fun s hs => ?_, Or.inr hslot, ?_,
          fun i l hl => ?_⟩, hslot⟩
        · rw [putSlot_seqs, if_neg (Ne.symm hs)]
          exact hc.alone s hs
        · rw [putSlot_layers]
          exact hc.layer
        · rw [putSlot_layers] at hl
          rw [putSlot_nCtx]
          exact hc.layers i l hl
      · cases h
  · rw [hnone] at hrun
    cases hrun

theorem groupPositions_single (hlen : positions.length = tokens.length) :
    (Batch.single tokens positions).groupPositions (seqMain, 0, tokens.length)
      = positions := by
  rw [Batch.groupPositions, Batch.single, List.drop_zero, Nat.sub_zero, ← hlen,
    List.take_length]

/-- The one group of a forward is owned. -/
theorem MainOnly.ownPass (hc : c.MainOnly u w) (hne : tokens ≠ [])
    (h : KvCache.ownPass (Batch.single tokens (List.range' u tokens.length)) c
      [(seqMain, 0, tokens.length)] = (.ok (), c')) :
    c'.MainOnly (u + tokens.length)
      (if tokens.length = 0 then w else max w (u + tokens.length)) := by
  simp only [KvCache.ownPass, groupPositions_single List.length_range',
    nSeqs_single hne] at h
  split at h
  · cases h
  next c₁ hres =>
    have hc₁ : c₁.MainOnly u w
        ∧ c₁.seqs[seqMain]? = some ⟨0, c₁.nCtx, ⟨0, 0⟩, w⟩ := by
      rcases hc.run with ⟨hnone, -⟩ | hrun
      · simp only [seqSlot, hnone, Nat.lt_irrefl, if_false, gt_iff_lt] at hres
        split at hres
        · cases hres
        next hreserve =>
          cases hres
          exact hc.reserve hnone hreserve
      · simp only [seqSlot, hrun] at hres
        cases hres
        exact ⟨hc, hrun⟩
    split at h
    · cases h
    next hown =>
      cases h
      exact hc₁.1.ownPositions hc₁.2 hown

/-- A forward that succeeds: its rows more. -/
theorem MainOnly.forward (hc : c.MainOnly u w) {cells : List Nat}
    (h : c.fillBatchInputs env (Batch.single tokens (List.range' u tokens.length))
      = (.ok cells, c')) :
    c'.MainOnly (u + tokens.length)
      (if tokens.length = 0 then w else max w (u + tokens.length)) := by
  by_cases hne : tokens = []
  · subst hne
    cases h
    exact hc
  · have hcow (t : Nat) : c.kvPrivateRowFor env seqMain t = (.ok none, c) := by
      have hplan : c.privateRowFor seqMain t = .ok none := by
        unfold privateRowFor
        rcases hc.run with ⟨hnone, -⟩ | hrun
        · rw [hnone]
        · rw [hrun]
          simp
      rw [kvPrivateRowFor, hplan]
    have hpass : cowPass env (Batch.single tokens (List.range' u tokens.length)) c
        [(seqMain, 0, tokens.length)] = (.ok (), c) := by
      rw [cowPass, groupPositions_single List.length_range']
      split
      · rfl
      · rw [hcow]
        rfl
    rw [fillBatchInputs, groups_single hne, hpass] at h
    simp only at h
    split at h
    · cases h
    next hown =>
      obtain ⟨-, rfl⟩ := Prod.mk.inj h
      exact hc.ownPass hne hown

/-- Storing rows leaves a layer's bookkeeping alone. -/
theorem storeRows_book (c : KvCache ρ) (seq : SeqId) (positions : List Nat)
    (rows : Stores ρ) (i : Nat) (l : KvLayer ρ) :
    ∃ k v, positions.foldl (fun l pos => match c.cellOf seq pos with
      | some cell => { l with k := l.k.set cell (rows i pos).1
                              v := l.v.set cell (rows i pos).2 }
      | none => l) l = { l with k, v } := by
  induction positions generalizing l with
  | nil => exact ⟨l.k, l.v, rfl⟩
  | cons pos rest ih =>
      rw [List.foldl_cons]
      split
      · obtain ⟨k, v, h⟩ := ih { l with k := l.k.set _ (rows i pos).1
                                        v := l.v.set _ (rows i pos).2 }
        exact ⟨k, v, h⟩
      · exact ih l

theorem MainOnly.storeRows (hc : c.MainOnly u w)
    (seq : SeqId) (positions : List Nat) (rows : Stores ρ) :
    (c.storeRows seq positions rows).MainOnly u w := by
  refine ⟨hc.spans.of_eq rfl rfl, hc.alone, hc.run, ?_, fun i l hl => ?_⟩
  · obtain ⟨i, l, hl⟩ := hc.layer
    exact ⟨i, _, (getElem?_map_nat ..).trans (congrArg (Option.map _) hl)⟩
  · rw [KvCache.storeRows, getElem?_map_nat] at hl
    obtain ⟨l₀, h₀, heq⟩ := Option.map_eq_some_iff.1 hl
    obtain ⟨k, v, hbook⟩ := storeRows_book c seq positions rows i l₀
    obtain rfl : l = { l₀ with k, v } := heq.symm.trans hbook
    exact hc.layers i l₀ h₀

-- ============================ removals

/-- A removal that succeeds: its rows fewer, and the extent as before. -/
theorem MainOnly.remove (hc : c.MainOnly u w) {start len n : Nat}
    (h : c.kvRm rm rope start len = (.ok n, c')) :
    start + len ≤ u ∧ c'.MainOnly (u - len) w := by
  obtain ⟨hrows, hlayers⟩ := kvRm_ok h
  have hframe := kvRm_frame h
  have hold (i : Nat) (l : KvLayer ρ) (hl : c'.layers[i]? = some l) :
      l.owner.length = c.nCtx ∧ l.nUsed = u - len := by
    rw [hlayers i] at hl
    obtain ⟨l₀, h₀, rfl⟩ := Option.map_eq_some_iff.1 hl
    obtain ⟨hlen, hused⟩ := hc.layers i l₀ h₀
    rw [renumber_owner_length, renumber, ← hused]
    exact ⟨hlen, rfl⟩
  obtain ⟨i, l, hl⟩ := hc.layer
  have hle := hrows i l hl
  rw [(hc.layers i l hl).2] at hle
  have hnew := hlayers i
  rw [hl] at hnew
  refine ⟨hle, ?_⟩
  rw [hframe]
  exact ⟨hc.spans.of_eq rfl rfl, hc.alone, hc.run, ⟨i, _, hnew⟩, hold⟩

-- ================================ runs

theorem MainOnly.step (hc : c.MainOnly u w) {op : MainOp ρ}
    (h : c.mainStep env rm rope op = some c') :
    ∃ u' w', c'.MainOnly u' w' ∧ (u = w → (u' = w' ↔ op.removed = 0)) := by
  cases op with
  | forward tokens rows =>
      simp only [mainStep, hc.used] at h
      split at h
      next cells c₁ hfill =>
        cases h
        refine ⟨_, _, (hc.forward hfill).storeRows _ _ _, ?_⟩
        rintro rfl
        simp only [MainOp.removed, iff_true]
        split <;> omega
      · cases h
  | remove start len =>
      simp only [mainStep] at h
      split at h
      next n c₁ hrm =>
        cases h
        obtain ⟨hle, hc'⟩ := hc.remove hrm
        refine ⟨_, _, hc', ?_⟩
        rintro rfl
        simp only [MainOp.removed]
        omega
      · cases h

/-- A run that removes nothing keeps the extents in step. -/
theorem MainOnly.run_inStep (hc : c.MainOnly u u)
    (hops : ∀ op ∈ ops, op.removed = 0)
    (h : mainRun env rm rope c ops = some c') : ∃ u', c'.MainOnly u' u' := by
  induction ops generalizing u c with
  | nil =>
      cases h
      exact ⟨u, hc⟩
  | cons op rest ih =>
      rw [mainRun] at h
      split at h
      next c₁ h₁ =>
        obtain ⟨u', w', hc₁, hiff⟩ := hc.step h₁
        obtain rfl := (hiff rfl).2 (hops op List.mem_cons_self)
        exact ih hc₁ (fun op hop => hops op (List.mem_cons_of_mem _ hop)) h
      · cases h

/-- A run whose states are all in step removes nothing. -/
theorem MainOnly.removes_nothing (hc : c.MainOnly u u)
    (hrun : mainRun env rm rope c ops = some c')
    (hstep : ∀ part c', part <+: ops → mainRun env rm rope c part = some c' →
      c'.InStep) :
    ∀ op ∈ ops, op.removed = 0 := by
  induction ops generalizing u c with
  | nil => exact fun op hop => nomatch hop
  | cons op rest ih =>
      rw [mainRun] at hrun
      split at hrun
      next c₁ h₁ =>
        obtain ⟨u', w', hc₁, hiff⟩ := hc.step h₁
        have hfirst : c₁.InStep := by
          apply hstep [op] c₁
          · exact (List.prefix_cons_inj op).2 (List.nil_prefix)
          · rw [mainRun, h₁]
            rfl
        obtain rfl := hc₁.inStep_iff.1 hfirst
        refine List.forall_mem_cons.2
          ⟨(hiff rfl).1 rfl, ih hc₁ hrun fun part c' hpart hc' => ?_⟩
        apply hstep (op :: part) c'
        · exact (List.prefix_cons_inj op).2 hpart
        · rw [mainRun, h₁]
          exact hc'
      · cases hrun

/-- In a run of forwards and removals from a fresh arena, the two extents agree
in every state that is reached exactly when no removal takes a row out. -/
theorem extents_agree_iff {c₀ : KvCache ρ} (hfresh : c₀.Fresh)
    (hrun : mainRun env rm rope c₀ ops = some c) :
    (∀ part c', part <+: ops → mainRun env rm rope c₀ part = some c' → c'.InStep)
      ↔ ∀ op ∈ ops, op.removed = 0 := by
  constructor
  · exact hfresh.mainOnly.removes_nothing hrun
  · intro hops part c' hpart hc'
    obtain ⟨u, hu⟩ := hfresh.mainOnly.run_inStep
      (fun op hop => hops op (hpart.subset hop)) hc'
    exact hu.inStep_iff.2 rfl

/-- A fresh arena of eight cells. -/
theorem fresh_eightCells : eightCells.Fresh where
  empty := isEmpty_insert_new rfl rfl
  layer := ⟨0, (eightCells.layers[0]?).get (by decide), (Option.some_get _).symm⟩
  unused i l hl := by
    rw [eightCells, insert, new, Std.TreeMap.getElem?_insert] at hl
    split at hl
    · cases hl
      rfl
    · simp at hl

/-- Three rows, of which the second is removed. -/
def secondRemoved : List (MainOp Nat) :=
  [.forward [7, 8, 9] (rowsFrom 100), .remove 1 1]

set_option maxRecDepth 8000 in
/-- The arena holds two rows and the extent says three: a query at the removed
position is accepted, and a session would resume one position late. -/
theorem removal_keeps_extent :
    ∃ c, mainRun .plain plainRm plainRope eightCells secondRemoved = some c
    ∧ c.used = 2 ∧ c.writtenRows seqMain = 3 ∧ c.attnSpanAt 0 seqMain 2 = .ok (0, 3)
    ∧ (c.layers[0]?.map (·.k.take 3)) = some [100, 102, 0]
    ∧ c.sessionState.written = 3
    ∧ ¬ c.InStep := by
  have hused :
      ((mainRun .plain plainRm plainRope eightCells secondRemoved).map used)
      = some 2 := by
    decide
  obtain ⟨c, hc, hu⟩ := Option.map_eq_some_iff.1 hused
  have hw : ((mainRun .plain plainRm plainRope eightCells secondRemoved).map
      fun c => (c.writtenRows seqMain, c.sessionState.written,
        c.layers[0]?.map (·.k.take 3), (c.attnSpanAt 0 seqMain 2).toOption))
      = some (3, 3, some [100, 102, 0], some (0, 3)) := by
    decide
  rw [hc, Option.map_some, Option.some_inj] at hw
  simp only [Prod.mk.injEq] at hw
  obtain ⟨hwritten, hsession, hrows, hspan⟩ := hw
  refine ⟨c, hc, hu, hwritten, toOption_eq_some hspan, hrows, hsession, fun h => ?_⟩
  rw [h.resume, hu] at hsession
  cases hsession

set_option maxRecDepth 8000 in
/-- Two forwards and a removal of no row: every state is in step. -/
theorem forwards_keep_extent : ∃ c,
    mainRun .plain plainRm plainRope eightCells [.forward [7, 8] (rowsFrom 100),
        .forward [9] (rowsFrom 200), .remove 1 0] = some c ∧ c.used = 3
          ∧ c.InStep := by
  have hused :
      ((mainRun .plain plainRm plainRope eightCells
        [.forward [7, 8] (rowsFrom 100),
      .forward [9] (rowsFrom 200), .remove 1 0]).map used) = some 3 := by
    decide
  obtain ⟨c, hc, hu⟩ := Option.map_eq_some_iff.1 hused
  refine ⟨c, hc, hu,
    (extents_agree_iff fresh_eightCells hc).2 ?_ _ c (List.prefix_refl _) hc⟩
  simp [MainOp.removed]

end KvCache
end Minfer.Graph
