/-
Arenas in which no sequence reads another one's rows.

Without shared prefixes a cell belongs to one sequence and one position,
every relocation keeps every row, and a plan the packing loop made is
never refused: the runs it lays out are apart and inside the arena, every
move agrees with the table, and no prefix has to follow.
-/
import Minfer.Graph.Proofs.Fill

namespace Minfer.Graph

open Lib (InRun)

variable {ρ : Type}

/-- Copies that fit their buffers succeed. -/
def KvEnv.Obliging (env : KvEnv) : Prop :=
  ∀ layer isV dst src rows, env.copyErr layer isV dst src rows = none

/-- The backend grants both copies of one move in one layer. -/
def KvEnv.Grants (env : KvEnv) (layer : Nat) (m : KvMove) : Prop :=
  ∀ isV, env.copyErr layer isV m.toCell m.fromCell m.rows = none

variable {env : KvEnv} {layer : Nat} {moves : List KvMove}

theorem KvEnv.Obliging.grants (henv : env.Obliging) (layer : Nat)
    (m : KvMove) :
    env.Grants layer m := fun _ => henv ..

/-- The backend grants every copy of a plan, in every layer. -/
def KvEnv.GrantsAll (env : KvEnv) (c : KvCache ρ) (moves : List KvMove) : Prop :=
  ∀ (i : Nat) (l : KvLayer ρ), c.layers[i]? = some l →
    ∀ m ∈ moves, 0 < m.rows → env.Grants i m

theorem KvEnv.Obliging.grantsAll (henv : env.Obliging)
    (c : KvCache ρ) (moves : List KvMove) : env.GrantsAll c moves :=
  fun i _ _ m _ _ => henv.grants i m

-- ====================== copies succeed

theorem copyCells_total {isV : Bool} {dst src rows : Nat}
    (hgrant : env.copyErr layer isV dst src rows = none) (region : List ρ)
    (hsrc : src + rows ≤ region.length) (hdst : dst + rows ≤ region.length) :
    copyCells env layer isV dst src rows region
      = .ok (Lib.memmove region dst src rows) := by
  rw [copyCells, hgrant]
  simp only
  rw [if_neg (by omega)]

theorem copyMove_total (wrap : KvMove → String → String) {n : Nat}
    {l : KvLayer ρ} {m : KvMove} (hgrant : env.Grants layer m)
    (hl : LayerOk n l) (hfit : m.toMove.Fits n) :
    ∃ l', copyMove env wrap layer l m = (.ok (), l') := by
  obtain ⟨hsrc, hdst⟩ := hfit
  have hk := copyCells_total (hgrant false) l.k (hl.k_len ▸ hsrc) (hl.k_len ▸ hdst)
  have hv := copyCells_total (hgrant true) l.v (hl.v_len ▸ hsrc) (hl.v_len ▸ hdst)
  simp only [copyMove, hk, hv]
  exact ⟨_, rfl⟩

theorem copyMoves_total (wrap : KvMove → String → String) {n : Nat}
    (hgrant : ∀ m ∈ moves, 0 < m.rows → env.Grants layer m)
    (hfit : ∀ m ∈ moves, m.toMove.Fits n) :
    ∀ l : KvLayer ρ, LayerOk n l →
      ∃ l', copyMoves env wrap layer l moves = (.ok (), l') := by
  induction moves with
  | nil => exact fun l _ => ⟨l, rfl⟩
  | cons m rest ih =>
      intro l hl
      have hrest := ih (fun m' hm' => hgrant m' (List.mem_cons_of_mem m hm'))
        fun m' hm' => hfit m' (List.mem_cons_of_mem m hm')
      unfold copyMoves
      by_cases hm : m.rows = 0
      · rw [if_pos hm]
        exact hrest l hl
      · obtain ⟨l', hl'⟩ :=
          copyMove_total wrap (hgrant m List.mem_cons_self (by omega)) hl
          (hfit m List.mem_cons_self)
        rw [if_neg hm, hl']
        exact hrest l' (copyMove_layerOk hl hl')

/-- A plan that stays inside the arena, and that no backend refuses, is
copied in every layer. -/
theorem copyPlan_total (wrap : KvMove → String → String) {c : KvCache ρ}
    {n : Nat} (hgrant : env.GrantsAll c moves)
    (hc : ∀ (i : Nat) (l : KvLayer ρ), c.layers[i]? = some l → LayerOk n l)
    (hfit : ∀ m ∈ moves, m.toMove.Fits n) :
    ∃ c', copyPlan env wrap moves c = (.ok (), c') := by
  have hwalk : ∀ (ls : List (Nat × KvLayer ρ)) (c : KvCache ρ),
      (∀ e ∈ ls, LayerOk n e.2 ∧ ∀ m ∈ moves, 0 < m.rows → env.Grants e.1 m) →
      ∃ c', copyLayers env wrap moves c ls = (.ok (), c') := by
    intro ls
    induction ls with
    | nil => exact fun c _ => ⟨c, rfl⟩
    | cons e rest ih =>
        intro c hls
        obtain ⟨hl, hgrants⟩ := hls e List.mem_cons_self
        obtain ⟨l', hl'⟩ := copyMoves_total wrap hgrants hfit e.2 hl
        simp only [copyLayers, hl']
        exact ih _ fun e' he' => hls e' (List.mem_cons_of_mem e he')
  refine hwalk c.layers.toList c fun e he => ?_
  have hlayer := Std.TreeMap.mem_toList_iff_getElem?_eq_some.mp he
  exact ⟨hc e.1 e.2 hlayer, hgrant e.1 e.2 hlayer⟩

/-- A copy that was done was granted. -/
theorem granted_of_copyCells {isV : Bool}
    {dst src rows : Nat} {region region' : List ρ}
    (h : copyCells env layer isV dst src rows region = .ok region') :
    env.copyErr layer isV dst src rows = none := by
  unfold copyCells at h
  split at h
  · cases h
  next hnone => exact hnone

theorem grants_of_copyMoves {wrap : KvMove → String → String}
    {l l' : KvLayer ρ} (h : copyMoves env wrap layer l moves = (.ok (), l')) :
    ∀ m ∈ moves, 0 < m.rows → env.Grants layer m := by
  induction moves generalizing l with
  | nil => exact fun m hm => nomatch hm
  | cons m rest ih =>
      simp only [copyMoves] at h
      intro m' hm' hpos
      split at h
      next hzero =>
        rcases List.mem_cons.mp hm' with rfl | hm'
        · omega
        · exact ih h m' hm' hpos
      next =>
        split at h
        next l₁ h₁ =>
          rcases List.mem_cons.mp hm' with rfl | hm'
          · unfold copyMove at h₁
            split at h₁
            · cases h₁
            next k hk =>
              split at h₁
              · cases h₁
              next v hv =>
                intro isV
                cases isV with
                | false => exact granted_of_copyCells hk
                | true => exact granted_of_copyCells hv
          · exact ih h m' hm' hpos
        next => cases h

/-- A plan that was copied was granted everywhere. -/
theorem grantsAll_of_copyPlan {wrap : KvMove → String → String}
    {c c' : KvCache ρ} (h : copyPlan env wrap moves c = (.ok (), c')) :
    env.GrantsAll c moves := by
  have hwalk : ∀ (ls : List (Nat × KvLayer ρ)) (c : KvCache ρ),
      copyLayers env wrap moves c ls = (.ok (), c') →
      ∀ e ∈ ls, ∀ m ∈ moves, 0 < m.rows → env.Grants e.1 m := by
    intro ls
    induction ls with
    | nil => exact fun _ _ e he => nomatch he
    | cons e rest ih =>
        intro c h e' he'
        simp only [copyLayers] at h
        split at h
        next l₁ h₁ =>
          rcases List.mem_cons.mp he' with rfl | he'
          · exact grants_of_copyMoves h₁
          · exact ih _ h e' he'
        next => cases h
  intro i l hl
  exact hwalk _ c h (i, l) (Std.TreeMap.mem_toList_iff_getElem?_eq_some.mpr hl)

-- ========================== plans pass

namespace KvCache

/-- Sorted runs that are apart and inside the arena pass the walk. -/
theorem checkPlanned_total {n : Nat} {l : List (Nat × Nat)}
    (hsort : l.Pairwise pairLe)
    (hapart : l.Pairwise fun a b => a.1 + a.2 ≤ b.1 ∨ b.1 + b.2 ≤ a.1)
    (hpos : ∀ r ∈ l, 0 < r.2) (hin : ∀ r ∈ l, r.1 + r.2 ≤ n) :
    checkPlanned n l = .ok () := by
  induction l with
  | nil => rfl
  | cons a rest ih =>
      cases rest with
      | nil =>
          have := hin a List.mem_cons_self
          rw [checkPlanned, if_neg (by omega)]
      | cons b rest =>
          have hab := (List.pairwise_cons.mp hsort).1 b List.mem_cons_self
          have hor := (List.pairwise_cons.mp hapart).1 b List.mem_cons_self
          have hb := hpos b (List.mem_cons_of_mem a List.mem_cons_self)
          unfold pairLe at hab
          rw [checkPlanned, if_neg (by omega)]
          exact ih (List.pairwise_cons.mp hsort).2 (List.pairwise_cons.mp hapart).2
            (fun r hr => hpos r (List.mem_cons_of_mem a hr))
            (fun r hr => hin r (List.mem_cons_of_mem a hr))

theorem mapM_total {α β : Type} {f : α → Except String β} {g : α → β} {l : List α}
    (hf : ∀ a ∈ l, f a = .ok (g a)) : l.mapM f = .ok (l.map g) := by
  induction l with
  | nil => rfl
  | cons a l ih =>
      rw [List.mapM_cons, hf a List.mem_cons_self,
        ih fun a' ha' => hf a' (List.mem_cons_of_mem a ha')]
      rfl

instance : Std.Total pairLe := ⟨fun a b => by unfold pairLe; omega⟩

instance : IsTrans (Nat × Nat) pairLe := ⟨fun a b c hab hbc => by
  unfold pairLe at *
  omega⟩

variable {c : KvCache ρ} {need : Option Nat}

/-- A plan that agrees with the table and lays the runs out apart and
inside the arena is accepted. -/
theorem checkPlan_total {ms : List KvMove}
    (hagree : ∀ m ∈ ms, ∀ slot, c.seqs[m.seq]? = some slot →
      m.fromCell = slot.start ∧ m.rows ≤ slot.cap)
    (hpos : ∀ (s : SeqId) slot, c.seqs[s]? = some slot → 0 < slot.cap)
    (hin : ∀ (s : SeqId) slot, c.seqs[s]? = some slot →
      plannedStart ms s slot + slot.cap ≤ c.nCtx)
    (hapart : ∀ (s t : SeqId) a b, s ≠ t → c.seqs[s]? = some a → c.seqs[t]? = some b →
      plannedStart ms s a + a.cap ≤ plannedStart ms t b
        ∨ plannedStart ms t b + b.cap ≤ plannedStart ms s a) :
    c.checkPlan ms = .ok () := by
  have hruns : c.seqs.toList.mapM (plannedRun ms)
      = .ok (c.seqs.toList.map fun r => (plannedStart ms r.1 r.2, r.2.cap)) := by
    refine mapM_total fun r hr => ?_
    unfold plannedRun plannedStart
    cases hm : ms.find? (fun m => m.seq == r.1) with
    | none => rfl
    | some m =>
        have hseq : m.seq = r.1 := by simpa using List.find?_some hm
        obtain ⟨hfrom, hrows⟩ := hagree m (List.mem_of_find?_eq_some hm) r.2
          (hseq ▸ mem_seqs_toList.mp hr)
        simp only
        rw [if_neg (by omega), if_neg (by omega)]
  rw [checkPlan, hruns]
  simp only
  obtain ⟨planned, hplanned⟩ :
      ∃ l, l = c.seqs.toList.map fun r => (plannedStart ms r.1 r.2, r.2.cap) :=
        ⟨_, rfl⟩
  rw [← hplanned]
  have hperm := List.perm_insertionSort pairLe planned
  have hmem : ∀ r ∈ planned.insertionSort pairLe, ∃ s slot, c.seqs[s]? = some slot
      ∧ r = (plannedStart ms s slot, slot.cap) := by
    intro r hr
    rw [hperm.mem_iff, hplanned, List.mem_map] at hr
    obtain ⟨x, hx, rfl⟩ := hr
    exact ⟨x.1, x.2, mem_seqs_toList.mp hx, rfl⟩
  refine checkPlanned_total (List.pairwise_insertionSort pairLe planned) ?_ ?_ ?_
  · refine (hperm.pairwise_iff fun {a b} hab => hab.symm).mpr ?_
    rw [hplanned, List.pairwise_map]
    have hne : c.seqs.toList.Pairwise fun x y => x.1 ≠ y.1 :=
      List.pairwise_map.mp (nodup_keys_toList c.seqs)
    refine hne.imp_of_mem fun {x y} hx hy hxy => ?_
    exact hapart x.1 y.1 x.2 y.2 hxy (mem_seqs_toList.mp hx) (mem_seqs_toList.mp hy)
  · intro r hr
    obtain ⟨s, slot, hslot, rfl⟩ := hmem r hr
    exact hpos s slot hslot
  · intro r hr
    obtain ⟨s, slot, hslot, rfl⟩ := hmem r hr
    exact hin s slot hslot

-- =================== the packed layout

/-- Where the plan puts a run. -/
theorem Movable.plannedStart_plan (hc : c.Movable)
    {s : SeqId} {slot : SeqSlot} (hslot : c.seqs[s]? = some slot) :
    plannedStart (orderMoves (c.compactionPlan need)) s slot
      = if c.Displaced need slot then c.packedStart slot else slot.start := by
  unfold plannedStart
  cases hm : (orderMoves (c.compactionPlan need)).find? (fun m => m.seq == s) with
  | some m =>
      have hseq : m.seq = s := by simpa using List.find?_some hm
      obtain ⟨slot', hslot', hmeq, hdisp⟩ :=
        (mem_orderedPlan hc).mp (List.mem_of_find?_eq_some hm)
      rw [hseq, hslot] at hslot'
      cases hslot'
      rw [if_pos hdisp, hmeq]
      rfl
  | none =>
      rw [if_neg]
      intro hdisp
      have hmem : moveOf (s, slot) (c.packedStart slot)
          ∈ orderMoves (c.compactionPlan need) :=
        (mem_orderedPlan hc).mpr ⟨slot, hslot, rfl, hdisp⟩
      have := List.find?_eq_none.mp hm _ hmem
      simp [moveOf] at this

/-- Every move of the plan agrees with the table. -/
theorem Movable.plan_agrees (hc : c.Movable) {m : KvMove}
    (hm : m ∈ orderMoves (c.compactionPlan need)) {slot : SeqSlot}
    (hslot : c.seqs[m.seq]? = some slot) : m.fromCell = slot.start
    ∧ m.rows ≤ slot.cap := by
  obtain ⟨slot', hslot', hmeq, -⟩ := (mem_orderedPlan hc).mp hm
  rw [hslot] at hslot'
  cases hslot'
  rw [hmeq]
  exact ⟨rfl, hc.fits m.seq slot hslot⟩

/-- The plan's layout is inside the arena, and its runs are apart. -/
def LaidOut (c : KvCache ρ) (need : Option Nat) : Prop :=
  (∀ (s : SeqId) slot, c.seqs[s]? = some slot →
      plannedStart (orderMoves (c.compactionPlan need)) s slot + slot.cap ≤ c.nCtx)
    ∧ ∀ (s t : SeqId) a b, s ≠ t → c.seqs[s]? = some a → c.seqs[t]? = some b →
      plannedStart (orderMoves (c.compactionPlan need)) s a + a.cap
          ≤ plannedStart (orderMoves (c.compactionPlan need)) t b
        ∨ plannedStart (orderMoves (c.compactionPlan need)) t b + b.cap
          ≤ plannedStart (orderMoves (c.compactionPlan need)) s a

/-- Packing a well-formed table moves every run down or not at all. -/
theorem Inv.laidOut (hc : c.Inv) (need : Option Nat) :
    c.LaidOut need := by
  have hm := hc.movable
  have hdown : ∀ (s : SeqId) slot, c.seqs[s]? = some slot →
      plannedStart (orderMoves (c.compactionPlan need)) s slot ≤ slot.start := by
    intro s slot hslot
    rw [hm.plannedStart_plan hslot]
    split
    · exact hc.packedStart_le hslot
    · exact Nat.le_refl _
  refine ⟨fun s slot hslot => ?_, fun s t a b hst ha hb => ?_⟩
  · have := hdown s slot hslot
    have := (hc.table.ok s slot hslot).in_arena
    omega
  · -- a lower run stays below a higher one
    have hbelow : ∀ (s t : SeqId) a b, c.seqs[s]? = some a → c.seqs[t]? = some b →
        a.start + a.cap ≤ b.start →
        plannedStart (orderMoves (c.compactionPlan need)) s a + a.cap
          ≤ plannedStart (orderMoves (c.compactionPlan need)) t b := by
      intro s t a b ha hb hab
      have hlt : a.start < b.start := by
        have := hm.cap_pos s a ha
        omega
      rw [hm.plannedStart_plan hb]
      by_cases hdisp : c.Displaced need b
      · -- nothing stopped the packing below `b`, so `a` is packed as well
        have hpacked : plannedStart (orderMoves (c.compactionPlan need)) s a
            = c.packedStart a := by
          rw [hm.plannedStart_plan ha]
          split
          next => rfl
          next hnot =>
            by_contra hne
            refine hnot ⟨hne, fun n hn t ht hta => ?_⟩
            exact hdisp.2 n hn t ht (Nat.lt_trans hta hlt)
        rw [if_pos hdisp, hpacked]
        exact hm.packedStart_add_le ha hb hlt
      · rw [if_neg hdisp]
        have := hdown s a ha
        omega
    rcases hc.table.apart s t a b hst ha hb with h | h
    · exact .inl (hbelow s t a b ha hb h)
    · exact .inr (hbelow t s b a hb ha h)

/-- Packing everything fits when the capacities together do. -/
theorem Movable.laidOut (hc : c.Movable) (hsum : c.reservedCells ≤ c.nCtx) :
    c.LaidOut none := by
  have hpacked : ∀ (s : SeqId) slot, c.seqs[s]? = some slot →
      plannedStart (orderMoves (c.compactionPlan none)) s slot
          = c.packedStart slot := by
    intro s slot hslot
    rw [hc.plannedStart_plan hslot]
    split
    next => rfl
    next hnot =>
      by_contra hne
      exact hnot ⟨hne, fun n hn => nomatch hn⟩
  refine ⟨fun s slot hslot => ?_, fun s t a b hst ha hb => ?_⟩
  · rw [hpacked s slot hslot]
    exact Nat.le_trans (hc.packedStart_add_cap_le hslot) hsum
  · rw [hpacked s a ha, hpacked t b hb]
    rcases hc.order s t a b hst ha hb with h | h
    · exact .inl (hc.packedStart_add_le ha hb h.1)
    · exact .inr (hc.packedStart_add_le hb ha h.1)

/-- A well-formed table reserves no more than the arena holds. -/
theorem Inv.reservedCells_le (hc : c.Inv) :
    c.reservedCells ≤ c.nCtx := by
  have hm := hc.movable
  have hsum : c.reservedCells = capSum c.sortedRuns :=
    (hm.perm_sortedRuns.symm.map _).sum_nat
  rcases List.eq_nil_or_concat c.sortedRuns with hnil | ⟨pre, last, hruns⟩
  · rw [hsum, hnil]
    exact Nat.zero_le _
  · rw [List.concat_eq_append] at hruns
    have hlast : c.seqs[last.1]? = some last.2 :=
      hm.mem_sortedRuns.mp (by rw [hruns]; simp)
    have hpacked := hm.packedStart_eq hruns
    have := hc.packedStart_le hlast
    have := (hc.table.ok _ _ hlast).in_arena
    rw [hsum, hruns, capSum_append, capSum_cons, capSum_nil]
    omega

-- =================== plans are applied

/-- No sequence reads another one's rows. -/
def Private (c : KvCache ρ) : Prop :=
  ∀ (s : SeqId) slot, c.seqs[s]? = some slot → slot.shared.rows = 0

theorem Private.of_seqs {c' : KvCache ρ} (hc : c.Private)
    (h : ∀ (s : SeqId) slot', c'.seqs[s]? = some slot' →
      ∃ slot, c.seqs[s]? = some slot ∧ slot'.shared.rows = slot.shared.rows) :
        c'.Private := by
  intro s slot' hs
  obtain ⟨slot, hslot, heq⟩ := h s slot' hs
  rw [heq]
  exact hc s slot hslot

/-- Sharers whose prefixes are carried whole follow the move. -/
theorem followSharers_total {m : KvMove}
    (hcarry : ∀ (s : SeqId) slot, c.seqs[s]? = some slot → Carries s m slot.shared) :
    ∃ c', c.followSharers m = (.ok (), c') := by
  unfold KvCache.followSharers
  split
  next hrows =>
    split
    next r hr =>
      exfalso
      obtain ⟨hslot, hne, ht⟩ :=
        (mem_sharersOf hrows).mp (List.mem_of_find?_eq_some hr)
      obtain ⟨hlo, hhi⟩ := hcarry r.1 r.2 hslot hne ht
      have hover := List.find?_some hr
      simp only [straddles, decide_eq_true_eq] at hover
      omega
    next => exact ⟨_, rfl⟩
  next => exact ⟨c, rfl⟩

/-- A plan that carries every prefix it touches is applied. -/
theorem applyMovesLoop_total {ms : List KvMove}
    (hcarry : ∀ (s : SeqId) slot, c.seqs[s]? = some slot →
      CarriesAll s slot.shared ms) :
    ∃ c', c.applyMovesLoop ms = (.ok (), c') := by
  induction ms generalizing c with
  | nil => exact ⟨c, rfl⟩
  | cons m rest ih =>
      obtain ⟨c₁, h₁⟩ : ∃ c₁, c.applyMove m = (.ok (), c₁) := by
        refine followSharers_total fun s slot hslot => ?_
        rw [moveRun_seqs] at hslot
        obtain ⟨old, hold, rfl⟩ := Option.map_eq_some_iff.mp hslot
        exact (hcarry s old hold).1
      obtain ⟨hseqs, -⟩ := applyMove_ok h₁
      simp only [KvCache.applyMovesLoop, h₁]
      refine ih fun s slot hslot => ?_
      rw [hseqs s] at hslot
      obtain ⟨old, hold, rfl⟩ := Option.map_eq_some_iff.mp hslot
      exact (hcarry s old hold).2

/-- A plan that no backend refuses and no prefix straddles is carried
out. -/
theorem Movable.relocated {env : KvEnv} (wrap : KvMove → String → String)
    (hc : c.Movable) (hsp : c.SpansOk)
    (hlayers : ∀ (i : Nat) (l : KvLayer ρ), c.layers[i]? = some l →
      LayerOk c.nCtx l) (hsrc : ∀ (s : SeqId) slot, c.seqs[s]? = some slot →
      slot.start + slot.privateWritten ≤ c.nCtx) (hlaid : c.LaidOut need)
    (hne : orderMoves (c.compactionPlan need) ≠ [])
    (hgrant : env.GrantsAll c (orderMoves (c.compactionPlan need)))
    (hcarry : ∀ (s : SeqId) slot, c.seqs[s]? = some slot →
      CarriesAll s slot.shared (orderMoves (c.compactionPlan need))) :
    ∃ c₁ n c₂, copyPlan env wrap (orderMoves (c.compactionPlan need)) c = (.ok (), c₁)
      ∧ c₁.applyMoves (orderMoves (c.compactionPlan need)) = (.ok n, c₂)
      ∧ Relocated (orderMoves (c.compactionPlan need)) c c₂ := by
  obtain ⟨hinside, hapart⟩ := hlaid
  have hfit : ∀ m ∈ orderMoves (c.compactionPlan need), m.toMove.Fits c.nCtx := by
    intro m hm
    obtain ⟨slot, hslot, hmeq, hdisp⟩ := (mem_orderedPlan hc).mp hm
    have hdst := hinside m.seq slot hslot
    rw [hc.plannedStart_plan hslot, if_pos hdisp] at hdst
    have hfits := hc.fits m.seq slot hslot
    rw [hmeq]
    exact ⟨hsrc m.seq slot hslot, by simp only [moveOf, KvMove.toMove]; omega⟩
  obtain ⟨c₁, hcopy⟩ := copyPlan_total wrap hgrant hlayers hfit
  obtain ⟨hseqs, hspans, hn⟩ := copyPlan_frame hcopy
  have hcheck : c₁.checkPlan (orderMoves (c.compactionPlan need)) = .ok () := by
    refine checkPlan_total ?_ ?_ ?_ ?_
    · intro m hm slot hslot
      rw [hseqs] at hslot
      exact hc.plan_agrees hm hslot
    · rw [hseqs]
      exact hc.cap_pos
    · rw [hseqs, hn]
      exact hinside
    · rw [hseqs]
      exact hapart
  rw [← hseqs] at hcarry
  obtain ⟨c₂, hloop⟩ := applyMovesLoop_total hcarry
  have hord := orderMoves_orderMoves (c.compactionPlan need)
  have happly : ∃ n c₃, c₁.applyMoves (orderMoves (c.compactionPlan need))
      = (.ok n, c₃) := by
    unfold KvCache.applyMoves
    rw [if_neg (by simpa using hne)]
    simp only [hord, hcheck, hloop]
    exact ⟨_, _, rfl⟩
  obtain ⟨n, c₃, happly⟩ := happly
  exact ⟨c₁, n, c₃, hcopy, happly, relocated_of_ok hsp hne hord hcopy happly⟩

/-- An empty prefix is carried by every plan. -/
theorem carriesAll_of_rows_zero {s : SeqId} {sh : SharedPrefix}
    (hsh : sh.rows = 0) (ms : List KvMove) : CarriesAll s sh ms := by
  induction ms generalizing sh with
  | nil => trivial
  | cons m rest ih => exact ⟨fun _ ht => absurd hsh ht.2.1, ih (by simpa using hsh)⟩

/-- A plan of an arena without shared prefixes is carried out. -/
theorem Private.relocated {env : KvEnv} (henv : env.Obliging)
    (wrap : KvMove → String → String)
    (hp : c.Private) (hc : c.Movable) (hsp : c.SpansOk)
    (hlayers : ∀ (i : Nat) (l : KvLayer ρ), c.layers[i]? = some l →
      LayerOk c.nCtx l) (hsrc : ∀ (s : SeqId) slot, c.seqs[s]? = some slot →
      slot.start + slot.privateWritten ≤ c.nCtx) (hlaid : c.LaidOut need)
    (hne : orderMoves (c.compactionPlan need) ≠ []) :
    ∃ c₁ n c₂, copyPlan env wrap (orderMoves (c.compactionPlan need)) c = (.ok (), c₁)
      ∧ c₁.applyMoves (orderMoves (c.compactionPlan need)) = (.ok n, c₂)
      ∧ Relocated (orderMoves (c.compactionPlan need)) c c₂ :=
  hc.relocated wrap hsp hlayers hsrc hlaid hne (henv.grantsAll c _)
    fun s slot hslot => carriesAll_of_rows_zero (hp s slot hslot) _

theorem Relocated.private {ms : List KvMove} {c' : KvCache ρ}
    (h : Relocated ms c c')
    (hnd : (ms.map (·.seq)).Nodup) (hp : c.Private) : c'.Private := by
  refine hp.of_seqs fun s slot' hs => ?_
  cases hslot : c.seqs[s]? with
  | none =>
      rw [h.seqs s, hslot] at hs
      cases hs
  | some slot =>
      rw [h.slot hnd hslot] at hs
      cases hs
      exact ⟨slot, rfl, followAll_rows ..⟩

end KvCache
end Minfer.Graph
