/-
The slot table and the arena's run table (`ensure_slot_capacity`).

A slot remembers where its run starts and how many cells it has. The
arena moves runs when a reservation or a resize compacts it, and the
table follows the moves that a successful call reports. A call that fails
reports nothing. That is harmless as long as a refusal comes before
anything moved; it is not when a reservation compacts the arena and first
fit refuses the run again, and when a resize has changed the capacity and
is then refused its copies.

`Growth.Settles` is the absence of these two, and `slot_table_in_arena`
says that over runs in which every growth settles the table is right in
every state. `crowded_slots_lose_runs` is a run in which one does not.
-/
import Minfer.Server.Proofs.Growths

namespace Minfer.Server

open Minfer.Graph (KvCache KvMove SeqId SeqSlot landing)
open Minfer.Graph.KvCache (RunsKept Reported runs_eq_some reserveSeq_runs)

variable {Λ σ : Type}

/-- Where the moves put the slots: each where they put its run. -/
theorem applyRunMoves_landing (moves : List KvMove) (slots : List (SlotState Λ σ)) :
    applyRunMoves slots moves = slots.map fun s =>
      { s with start := landing s.seq s.start moves } := by
  induction moves generalizing slots with
  | nil => exact (List.map_id slots).symm
  | cons m moves ih =>
      show applyRunMoves (slots.map _) moves = _
      rw [ih, List.map_map]
      refine List.map_congr_left fun s _ => ?_
      by_cases hs : s.seq = m.seq
      · simp [landing, hs]
      · simp [landing, hs, Ne.symm hs]

/-- A grant moves slots and resizes one. -/
theorem map_granted {β : Type} {f : SlotState Λ σ → β}
    {slots : List (SlotState Λ σ)} {idx : Nat}
    {slot : SlotState Λ σ} (hs : slots[idx]? = some slot)
    (hf : ∀ s start cap, f { s with start, cap } = f s) (moves : List KvMove)
    (start cap : Nat) :
    ((applyRunMoves slots moves).set idx { slot with start, cap }).map f
      = slots.map f := by
  have hlt : idx < slots.length := (List.getElem?_eq_some_iff.1 hs).1
  rw [applyRunMoves_landing]
  refine List.ext_getElem? fun i => ?_
  rw [List.getElem?_map, List.getElem?_map]
  by_cases hi : idx = i
  · subst hi
    rw [List.getElem?_set_self (by simpa using hlt), hs, Option.map_some,
      Option.map_some, hf]
  · rw [List.getElem?_set_ne hi, List.getElem?_map, Option.map_map]
    refine congrFun (congrArg Option.map (funext fun s => ?_)) _
    exact hf s _ s.cap

namespace BatchEngine

/-- Every slot with a reserved run says where the arena has the run of its
sequence, and its capacity. -/
def InSeats (e : BatchEngine Λ σ) : Prop :=
  ∀ slot ∈ e.slots, 0 < slot.cap → ∃ run, e.cache.seqSlot slot.seq = some run
    ∧ slot.start = run.start ∧ slot.cap = run.cap

/-- What is carried from call to call: the slots have sequences of their
own, and the arena is well formed. -/
structure Seated (e : BatchEngine Λ σ) : Prop where
  distinct : (e.slots.map (·.seq)).Nodup
  arena : e.cache.Inv
  seats : ∀ (i : Nat) slot, e.slots[i]? = some slot → 0 < slot.cap →
    e.cache.runs slot.seq = some (slot.start, slot.cap)

variable {w : World Λ σ} {e e' : BatchEngine Λ σ}

theorem Seated.inSeats (he : Seated e) : InSeats e := by
  intro slot hmem hcap
  obtain ⟨i, hi⟩ := List.mem_iff_getElem?.1 hmem
  obtain ⟨run, hrun, heq⟩ := runs_eq_some.1 (he.seats i slot hi hcap)
  obtain ⟨hstart, hsize⟩ := Prod.mk.inj heq
  exact ⟨run, hrun, hstart.symm, hsize.symm⟩

/-- A quiet step. -/
theorem Seated.quiet (hq : Quiet e e') (he : Seated e) : Seated e' := by
  refine ⟨hq.seqs ▸ he.distinct, hq.inv he.arena, fun i slot' hs' hcap => ?_⟩
  have hmap : (e'.slots.map seat)[i]? = (e.slots.map seat)[i]? := by rw [hq.seats]
  rw [List.getElem?_map, List.getElem?_map, hs', Option.map_some] at hmap
  obtain ⟨slot, hs, hsame⟩ := Option.map_eq_some_iff.1 hmap.symm
  obtain ⟨hseq, hstart, hsize⟩ : slot.seq = slot'.seq ∧ slot.start = slot'.start
      ∧ slot.cap = slot'.cap := by simpa [seat] using hsame
  have hrun := he.seats i slot hs (hsize ▸ hcap)
  rw [hseq, hstart, hsize] at hrun
  exact hq.runs _ _ hrun

-- ========================== one growth

/-- A refusal that moved nothing. -/
theorem Seated.refused {c : KvCache Row} (he : Seated e) (hkept : RunsKept e.cache c)
    (hinv : c.Inv) : Seated { e with cache := c } := by
  refine Seated.quiet (e := e) ⟨rfl, hkept, fun _ => hinv⟩ he

/-- A grant: the slot takes the new run, the others follow the moves. -/
theorem Seated.granted {c : KvCache Row} {idx : Nat} {slot : SlotState Λ σ}
    {kvSlot : SeqSlot} {moves : List KvMove} (he : Seated e)
    (hs : e.slots[idx]? = some slot) (hinv : c.Inv)
    (hrep : Reported slot.seq kvSlot moves e.cache c) :
    Seated ({ e with cache := c, slots := applyRunMoves e.slots moves }.setSlot idx
      { slot with start := kvSlot.start, cap := kvSlot.cap }) := by
  have hlt : idx < e.slots.length := (List.getElem?_eq_some_iff.1 hs).1
  refine ⟨?_, hinv, fun i slot' hs' hcap => ?_⟩
  · show (((applyRunMoves e.slots moves).set idx _).map (·.seq)).Nodup
    rw [map_granted hs fun _ _ _ => rfl]
    exact he.distinct
  · have hs' : ((applyRunMoves e.slots moves).set idx
        { slot with start := kvSlot.start, cap := kvSlot.cap })[i]?
          = some slot' := hs'
    rw [applyRunMoves_landing] at hs'
    by_cases hi : idx = i
    · subst hi
      rw [List.getElem?_set_self (by simpa using hlt)] at hs'
      cases hs'
      exact hrep.own
    · rw [List.getElem?_set_ne hi, List.getElem?_map] at hs'
      obtain ⟨a, ha, rfl⟩ := Option.map_eq_some_iff.1 hs'
      show c.runs a.seq = _
      rw [hrep.others a.seq (seq_ne_of_nodup he.distinct (Ne.symm hi) ha hs),
        he.seats i a ha hcap]
      rfl

/-- Reclaiming takes idle runs back, slot and arena together. -/
theorem Seated.reclaim (idx need : Nat) (js : List Nat) :
    ∀ {e : BatchEngine Λ σ}, Seated e → Seated (e.reclaim idx need js)
      ∧ (e.reclaim idx need js).slots[idx]? = e.slots[idx]? := by
  induction js with
  | nil => exact fun he => ⟨he, rfl⟩
  | cons j rest ih =>
      intro e he
      rw [BatchEngine.reclaim]
      split
      · exact ih he
      next other ho =>
        split
        · exact ih he
        next hidle =>
          split
          · exact ⟨he, rfl⟩
          · have hne : j ≠ idx := fun h => hidle (.inl h)
            have hlt : j < e.slots.length := (List.getElem?_eq_some_iff.1 ho).1
            have hreleased :
                Seated ({ e with cache :=
                  (e.cache.releaseSeq other.seq).2 }.setSlot j
                { other with cachedTokens := [], cap := 0 }) := by
              refine ⟨?_, he.arena.releaseSeq other.seq, fun i slot' hs' hcap => ?_⟩
              · show ((e.slots.set j _).map (·.seq)).Nodup
                rw [map_set_same ho (by rfl)]
                exact he.distinct
              · have hs' :
                    (e.slots.set j { other with cachedTokens := [], cap :=
                      0 })[i]?
                    = some slot' := hs'
                by_cases hi : j = i
                · subst hi
                  rw [List.getElem?_set_self hlt] at hs'
                  cases hs'
                  exact absurd hcap (Nat.lt_irrefl 0)
                · rw [List.getElem?_set_ne hi] at hs'
                  show (e.cache.releaseSeq other.seq).2.runs slot'.seq = _
                  rw [KvCache.releaseSeq_runs _
                    (seq_ne_of_nodup he.distinct (Ne.symm hi) hs' ho)]
                  exact he.seats i slot' hs' hcap
            obtain ⟨hdone, hown⟩ := ih hreleased
            exact ⟨hdone, hown.trans (List.getElem?_set_ne hne)⟩

end BatchEngine

/-- The growth is granted, or refused before anything has moved: a slot
without a run gets one once the arena was compacted for it, and a resize
that changed the capacity is not refused its copies. -/
def Growth.Settles (w : World Λ σ) (g : Growth Λ σ) : Prop :=
  ∀ slot, g.engine.slots[g.slot]? = some slot →
    slot.cap < min g.want g.engine.nCtxTotal →
    (slot.cap = 0 →
        g.engine.cache.Settles w.kvEnv slot.seq (min g.want g.engine.nCtxTotal))
      ∧ (slot.cap ≠ 0 →
        (g.engine.reclaim g.slot (min g.want g.engine.nCtxTotal - slot.cap)
            (List.range g.engine.slots.length)).cache.Recovers w.kvEnv slot.seq
          (min g.want g.engine.nCtxTotal))

namespace BatchEngine

variable {w : World Λ σ} {e e' : BatchEngine Λ σ}

/-- A growth that settles keeps the slots in their seats. -/
theorem Seated.grown (g : Growth Λ σ) (hg : g.Settles w) (he : Seated g.engine) :
    Seated (g.grown w) := by
  obtain ⟨e, idx, want, waiting⟩ := g
  simp only [Growth.grown, BatchEngine.ensureSlotCapacity]
  split
  · exact he
  next slot hs =>
    have hsettles := hg slot hs
    simp only at hsettles he
    split
    · exact he
    next hroom =>
      obtain ⟨hreserve, hresize⟩ := hsettles (by omega)
      split
      next hzero =>
        split
        next err c hres =>
          exact he.refused (he.arena.kvReserveSeq_error (hreserve hzero) hres)
            (he.arena.kvReserveSeq hres)
        next kvSlot moves c hres =>
          exact he.granted hs (he.arena.kvReserveSeq hres)
            (he.arena.kvReserveSeq_ok hres)
      next hpos =>
        obtain ⟨hre, hown⟩ := Seated.reclaim idx (min want e.nCtxTotal - slot.cap)
          (List.range e.slots.length) he
        have hrec := hresize hpos
        have htotal := reclaim_nCtxTotal idx (min want e.nCtxTotal - slot.cap)
          (List.range e.slots.length) e
        revert hre hown hrec htotal
        generalize e.reclaim idx (min want e.nCtxTotal - slot.cap)
          (List.range e.slots.length) = e₁
        intro hre hown hrec htotal
        rw [hs] at hown
        rw [← htotal] at hrec
        split
        next err c hres =>
          refine hre.refused (.of_lookups (hre.arena.kvSetCap_error hrec hres).1) ?_
          exact hre.arena.kvSetCap_left hrec hres
        next kvSlot moves c hres =>
          exact hre.granted hown (hre.arena.kvSetCap_left hrec hres)
            (hre.arena.kvSetCap_reported hres)

-- ================================ runs

/-- The reservations of `new`: one run a slot, where the slot says. -/
theorem reserveSlots_seated {cap : Nat} :
    ∀ {seqs : List SeqId} {c c' : KvCache Row}
      {slots slots' : List (SlotState Λ σ)}, c.Inv →
      (slots.map (·.seq) ++ seqs).Nodup → (∀ s ∈ seqs, c.runs s = none) →
      (∀ s ∈ slots, c.runs s.seq = some (s.start, s.cap)) →
      reserveSlots w cap c slots seqs = .ok (c', slots') →
      c'.Inv ∧ (slots'.map (·.seq)).Nodup
        ∧ ∀ s ∈ slots', c'.runs s.seq = some (s.start, s.cap) := by
  intro seqs
  induction seqs with
  | nil =>
      intro c c' slots slots' hc hnd _ hslots h
      cases h
      exact ⟨hc, by simpa using hnd, hslots⟩
  | cons seq rest ih =>
      intro c c' slots slots' hc hnd hnone hslots h
      unfold reserveSlots at h
      split at h
      · cases h
      next kvSlot moves c₁ hres =>
        have hrep := hc.kvReserveSeq_ok hres
        have hcap :=
          KvCache.kvReserveSeq_cap hc (hnone seq (List.mem_cons_self ..)) hres
        have hnd' : ∀ s ∈ slots.map (·.seq) ++ rest, s ≠ seq := by
          have hperm := List.nodup_middle.1 hnd
          rintro s hs rfl
          exact (List.nodup_cons.1 hperm).1 hs
        rw [applyRunMoves_landing] at h
        refine ih (hc.kvReserveSeq hres) ?_ (fun s hs => ?_) (fun s hs => ?_) h
        · rw [List.map_append, List.map_map]
          show (slots.map (·.seq) ++ [seq] ++ rest).Nodup
          rwa [List.append_assoc]
        · rw [hrep.others s (hnd' s (List.mem_append_right _ hs)),
            hnone s (List.mem_cons_of_mem _ hs)]
          rfl
        · rcases List.mem_append.mp hs with hs | hs
          · obtain ⟨a, ha, rfl⟩ := List.mem_map.mp hs
            have hne := hnd' a.seq
              (List.mem_append_left _ (List.mem_map.mpr ⟨a, ha, rfl⟩))
            show c₁.runs a.seq = _
            rw [hrep.others a.seq hne, hslots a ha]
            rfl
          · rw [List.mem_singleton.mp hs, ← hcap]
            exact hrep.own

theorem seated_new {arena : KvCache Row} {nSlots nCtxTotal nBatch : Nat}
    (hempty : (arena.setNCtx nCtxTotal).IsEmpty)
    (h : BatchEngine.new w arena nSlots nCtxTotal nBatch = .ok e) : Seated e := by
  unfold BatchEngine.new at h
  simp only at h
  split at h
  · cases h
  next =>
  split at h
  · cases h
  next c slots hres =>
    cases h
    obtain ⟨hinv, hnd, hslots⟩ := reserveSlots_seated hempty.inv
      (by simpa using List.nodup_range')
        (fun s _ => by rw [KvCache.runs, hempty.seqs s]; rfl)
      (fun s hs => absurd hs List.not_mem_nil) hres
    exact ⟨hnd, hinv, fun i a ha _ => hslots a (List.mem_of_getElem? ha)⟩

/-- A call on the engine. -/
inductive EngineCall (σ : Type) where
  | admitGroup (seam : TickSeam) (jobs : List (Job σ))
  | submitOn (seam : TickSeam) (idx : Nat) (job : Job σ)
  | tick (seam : TickSeam)
  | grow (idx want : Nat)

/-- The engine a call leaves, whatever it answers. -/
def called (w : World Λ σ) (e : BatchEngine Λ σ) : EngineCall σ → BatchEngine Λ σ
  | .admitGroup seam jobs => (e.admitJobs w seam jobs).2
  | .submitOn seam idx job => (e.submitOn w seam idx job).2
  | .tick seam => (e.tick w seam).2
  | .grow idx want => e.ensureSlotCapacity w idx want

/-- The growths of a call. -/
def growths (w : World Λ σ) (e : BatchEngine Λ σ) : EngineCall σ → List (Growth Λ σ)
  | .admitGroup seam jobs => e.admitGrowths w seam jobs
  | .submitOn _ idx job => e.submitGrowths idx job []
  | .tick _ => []
  | .grow idx want => [⟨e, idx, want, []⟩]

/-- Every growth of a run settles. -/
def Settling (w : World Λ σ) : BatchEngine Λ σ → List (EngineCall σ) → Prop
  | _, [] => True
  | e, c :: cs => (∀ g ∈ e.growths w c, g.Settles w) ∧ Settling w (e.called w c) cs

theorem Seated.step (he : Seated e) (c : EngineCall σ)
    (hc : ∀ g ∈ e.growths w c, g.Settles w) :
    Seated (e.called w c) := by
  cases c with
  | admitGroup seam jobs =>
      exact (admitJobs_holds Seated.quiet Seated.grown he seam jobs hc).1
  | submitOn seam idx job =>
      exact (submitOn_holds Seated.quiet Seated.grown he seam idx job [] hc).1
  | tick seam => exact he.quiet (quiet_tick seam)
  | grow idx want => exact Seated.grown _ (hc _ (List.mem_singleton_self _)) he

theorem Seated.run (he : Seated e) (cs : List (EngineCall σ))
    (hcs : Settling w e cs) :
    Seated (cs.foldl (called w) e) := by
  induction cs generalizing e with
  | nil => exact he
  | cons c cs ih =>
      obtain ⟨hc, hrest⟩ := hcs
      exact ih (he.step c hc) hrest

/-- Over every run of a new engine whose growths settle, the slot table is
the arena's. -/
theorem slot_table_in_arena {arena : KvCache Row} {nSlots nCtxTotal nBatch : Nat}
    (hempty : (arena.setNCtx nCtxTotal).IsEmpty) {e₀ : BatchEngine Λ σ}
    (hnew : BatchEngine.new w arena nSlots nCtxTotal nBatch = .ok e₀)
    (cs : List (EngineCall σ))
    (hcs : Settling w e₀ cs) : InSeats (cs.foldl (called w) e₀) :=
  ((seated_new hempty hnew).run cs hcs).inSeats

/-- Three slots of two cells in an arena of eight. -/
def trio : BatchEngine (List Token) Unit :=
  match BatchEngine.new counting (blankArena 8) 3 8 0 with
  | .ok e => e
  | .error _ => ⟨blankArena 8, 8, [], 0, 0, 0, 0, []⟩

theorem trio_eq : BatchEngine.new counting (blankArena 8) 3 8 0 = .ok trio := by
  have hok : (BatchEngine.new counting (blankArena 8) 3 8 0).isOk = true := by
    decide +kernel
  unfold trio
  split
  next e he => exact he
  next err herr =>
    rw [herr] at hok
    cases hok

/-- The last slot serves a request; a prompt of eight tokens takes the
first slot's run back and is refused; the first slot asks again. -/
def pressed (want : Nat) : List (EngineCall Unit) :=
  [.submitOn .off 2 (asks 0 [1, 2]), .grow 1 8, .grow 0 want]

set_option maxRecDepth 8000 in
/-- Five cells are not free: the arena is compacted for them, the run is
refused, and two slots are left where their runs were. -/
theorem crowded_slots_lose_runs :
    BatchEngine.new counting (blankArena 8) 3 8 0 = .ok trio
      ∧ ((pressed 5).foldl (called counting) trio).slots.map seat
        = [(1, 0, 0), (2, 2, 2), (3, 4, 2)]
      ∧ (((pressed 5).foldl (called counting) trio).cache.seqs.toList.map
          fun r => (r.1, r.2.start, r.2.cap)) = [(2, 0, 2), (3, 2, 2)]
      ∧ ¬ InSeats ((pressed 5).foldl (called counting) trio) := by
  refine ⟨trio_eq, by decide +kernel, by decide +kernel, fun hseats => ?_⟩
  have hslot : (((pressed 5).foldl (called counting) trio).slots[1]?.map seat)
      = some (2, 2, 2) := by
    decide +kernel
  obtain ⟨slot, hs, heq⟩ := Option.map_eq_some_iff.1 hslot
  obtain ⟨hseq, hstart, hcap⟩ : slot.seq = 2 ∧ slot.start = 2 ∧ slot.cap = 2 := by
    simpa [seat] using heq
  obtain ⟨run, hrun, hsame, -⟩ := hseats slot (List.mem_of_getElem? hs) (by omega)
  have hmoved :
      ((((pressed 5).foldl (called counting) trio).cache.seqSlot 2).map
        (·.start))
      = some 0 := by decide +kernel
  rw [hseq] at hrun
  rw [hrun, Option.map_some, Option.some.injEq] at hmoved
  omega

set_option maxRecDepth 8000 in
/-- Four are: the compaction's moves are followed. -/
theorem compacted_slots_in_arena : InSeats
    ((pressed 4).foldl (called counting) trio) := by
  have hempty : ((blankArena 8).setNCtx 8).IsEmpty :=
    KvCache.isEmpty_insert_new List.length_replicate List.length_replicate
  refine slot_table_in_arena hempty trio_eq (pressed 4)
    ⟨fun g hg => ?_, fun g hg => ?_, fun g hg => ?_, trivial⟩
  · -- the prompt fits the slot
    obtain rfl : g = ⟨trio, 2, 2, []⟩ := by
      have hone : trio.growths counting (.submitOn .off 2 (asks 0 [1, 2]))
        = [⟨trio, 2, 2, []⟩] := rfl
      rw [hone] at hg
      exact List.mem_singleton.1 hg
    intro slot hs hroom
    have hcap : (trio.slots[2]?.map (·.cap)) = some 2 := by decide +kernel
    rw [hs, Option.map_some, Option.some.injEq] at hcap
    have hroom : slot.cap < 2 := hroom
    omega
  · -- eight cells are more than a busy slot leaves
    obtain rfl := List.mem_singleton.1 hg
    intro slot hs hroom
    obtain ⟨busy, hbusy⟩ : ∃ e,
      e = trio.called counting (.submitOn .off 2 (asks 0 [1, 2])) := ⟨_, rfl⟩
    rw [← hbusy] at hs hroom ⊢
    have htotal : busy.nCtxTotal = 8 := by
      rw [hbusy]
      decide +kernel
    have hslot : (busy.slots[1]?.map seat) = some (2, 2, 2) := by
      rw [hbusy]
      decide +kernel
    rw [hs, Option.map_some, Option.some.injEq] at hslot
    obtain ⟨hseq, -, hcap⟩ : slot.seq = 2 ∧ slot.start = 2 ∧ slot.cap = 2 := by
      simpa [seat] using hslot
    simp only [htotal, hseq, hcap]
    refine ⟨fun hzero => absurd hzero (by decide),
      fun _ run hrun _ => ⟨by decide, fun hadm => ?_⟩⟩
    have hrun' :
        (busy.reclaim 1 (min 8 8 - 2)
          (List.range busy.slots.length)).cache.seqs[2]?
        = some (SeqSlot.new 2 2) := by
      rw [hbusy]
      decide +kernel
    rw [hrun', Option.some.injEq] at hrun
    subst hrun
    have hfull := hadm.2 (by decide)
    rw [hbusy] at hfull
    exact absurd hfull (by decide +kernel)
  · -- the arena is compacted, and no run has a prefix
    obtain rfl := List.mem_singleton.1 hg
    intro slot hs hroom
    obtain ⟨holed, hholed⟩ : ∃ e,
        e = (trio.called counting (.submitOn .off 2 (asks 0 [1, 2]))).called
        counting (.grow 1 8) := ⟨_, rfl⟩
    rw [← hholed] at hs hroom ⊢
    have htotal : holed.nCtxTotal = 8 := by
      rw [hholed]
      decide +kernel
    have hslot : (holed.slots[0]?.map seat) = some (1, 0, 0) := by
      rw [hholed]
      decide +kernel
    rw [hs, Option.map_some, Option.some.injEq] at hslot
    obtain ⟨hseq, -, hcap⟩ : slot.seq = 1 ∧ slot.start = 0 ∧ slot.cap = 0 := by
      simpa [seat] using hslot
    simp only [htotal, hseq, hcap]
    refine ⟨fun _ first _ _ _ _ => ⟨fun s a ha => ?_, ?_⟩,
      fun hpos => absurd rfl hpos⟩
    · have hall : holed.cache.seqs.toList.all (fun r => r.2.shared.rows == 0)
          = true := by
        rw [hholed]
        decide +kernel
      have hzero := List.all_eq_true.1 hall (s, a) (KvCache.mem_seqs_toList.2 ha)
      exact KvCache.carriesAll_of_rows_zero (by simpa using hzero) _
    · have hok :
          ((holed.cache.kvDefrag counting.kvEnv (some (min 4 8))).2.reserveSeq
            1 (min 4 8)).isOk
          = true := by
        rw [hholed]
        decide +kernel
      cases hres :
          (holed.cache.kvDefrag counting.kvEnv (some (min 4 8))).2.reserveSeq 1
          (min 4 8) with
      | ok out => exact ⟨out, rfl⟩
      | error err =>
          rw [hres] at hok
          cases hok

end BatchEngine
end Minfer.Server
