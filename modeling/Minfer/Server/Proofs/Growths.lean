/-
The calls that resize slots, and the steps that do not.

A slot's run moves only inside `ensure_slot_capacity`: every other step
of the engine leaves all the slots where they say they are and all the
runs where the arena has them (`Quiet`). The traces below list the calls
a step makes, each with the engine it finds, so that a property of the
engine that quiet steps keep is one of every state of a run as soon as
the listed calls keep it too (`admitJobs_holds`).
-/
import Minfer.Graph.Proofs.RunTable
import Minfer.Server.Proofs.Forwards

namespace Minfer.Server

open Minfer.Graph (KvCache KvMove SeqId Batch LayerOk)
open Minfer.Graph.KvCache (RunsKept)

variable {Λ σ : Type}

/-- What a slot says of its run. -/
def seat (slot : SlotState Λ σ) : SeqId × Nat × Nat :=
  (slot.seq, slot.start, slot.cap)

/-- One call of `ensure_slot_capacity`: the engine it finds, the slot, the
cells it asks for, and the slots whose own requests of the same group wait
meanwhile. -/
structure Growth (Λ σ : Type) where
  engine : BatchEngine Λ σ
  slot : Nat
  want : Nat
  waiting : List Nat

/-- The engine it leaves. -/
def Growth.grown (w : World Λ σ) (g : Growth Λ σ) : BatchEngine Λ σ :=
  g.engine.ensureSlotCapacity w g.slot g.want

namespace BatchEngine

-- ============================== traces

/-- The call of a `submit_on`. -/
def submitGrowths (e : BatchEngine Λ σ) (idx : Nat) (job : Job σ)
    (waiting : List Nat) :
    List (Growth Λ σ) :=
  match e.slots[idx]? with
  | none => []
  | some slot =>
      if slot.run.isSome then []
      else [⟨e, idx,
        e.wantedCells idx job.inputIds.length job.params.maxTokens, waiting⟩]

/-- The calls of requests prefilled one at a time: those behind wait. -/
def submitAllGrowths (w : World Λ σ) (seam : TickSeam) :
    BatchEngine Λ σ → List (Nat × Job σ × Nat) → List (Growth Λ σ)
  | _, [] => []
  | e, (_, job, slot) :: rest =>
      e.submitGrowths slot job ((rest.map (·.2.2)).filter (· ≠ slot))
        ++ submitAllGrowths w seam (e.submitOn w seam slot job).2 rest

/-- The calls of a group's preparation: the whole group waits. -/
def groupGrowths (w : World Λ σ) (group : List Nat) :
    BatchEngine Λ σ → List (Nat × Job σ × Nat) → List (Growth Λ σ)
  | _, [] => []
  | e, (_, job, idx) :: rest =>
      let e := (e.startFrom w idx job.inputIds).2
      let g : Growth Λ σ :=
        ⟨e, idx, e.wantedCells idx job.inputIds.length job.params.maxTokens,
        group.filter (· ≠ idx)⟩
      let cap := ((g.grown w).slots[idx]?.map (·.cap)).getD 0
      g :: if job.inputIds.length > cap then []
        else groupGrowths w group (g.grown w) rest

instance (w : World Λ σ) (e : BatchEngine Λ σ) (placed : List (Nat × Job σ × Nat)) :
    Decidable (Grouped w e placed) := inferInstanceAs (Decidable (_ ∧ _ ∧ _))

/-- The calls of an admission. -/
def admitGrowths (w : World Λ σ) (seam : TickSeam) (e : BatchEngine Λ σ)
    (jobs : List (Job σ)) :
    List (Growth Λ σ) :=
  let placed := e.placedJobs w jobs
  if Grouped w (e.placedOn w jobs) placed then
    (e.placedOn w jobs).groupGrowths w (placed.map (·.2.2)) placed
  else (e.placedOn w jobs).submitAllGrowths w seam placed

-- ========================= quiet steps

/-- A step that resizes nothing: the slots stay where they say they are,
and the runs where they are. -/
structure Quiet (e e' : BatchEngine Λ σ) : Prop where
  seats : e'.slots.map seat = e.slots.map seat
  runs : RunsKept e.cache e'.cache
  inv : e.cache.Inv → e'.cache.Inv

variable {w : World Λ σ} {e e' : BatchEngine Λ σ}

/-- The same seats and the same cache. -/
theorem Quiet.of_eq (hseats : e'.slots.map seat = e.slots.map seat)
    (hcache : e'.cache = e.cache) :
    Quiet e e' := by
  refine ⟨hseats, ?_, ?_⟩
  · rw [hcache]
    exact .refl _
  · rw [hcache]
    exact id

/-- Doing nothing is quiet. -/
theorem Quiet.refl (e : BatchEngine Λ σ) : Quiet e e := .of_eq rfl rfl

/-- Two quiet steps make one. -/
theorem Quiet.trans {e₁ : BatchEngine Λ σ} (h : Quiet e e₁)
    (h' : Quiet e₁ e') : Quiet e e' :=
  ⟨h'.seats.trans h.seats, h.runs.trans h'.runs, fun hinv => h'.inv (h.inv hinv)⟩

/-- Rewriting an entry without changing what is read off it. -/
theorem map_set_same {α β : Type} {f : α → β} {l : List α} {i : Nat} {a a' : α}
    (ha : l[i]? = some a) (hf : f a' = f a) : (l.set i a').map f = l.map f := by
  have hlt : i < l.length := (List.getElem?_eq_some_iff.1 ha).1
  refine List.ext_getElem? fun j => ?_
  by_cases hj : i = j
  · subst hj
    rw [List.getElem?_map, List.getElem?_set_self hlt, List.getElem?_map, ha,
      Option.map_some, Option.map_some, hf]
  · rw [List.getElem?_map, List.getElem?_set_ne hj, List.getElem?_map]

/-- A quiet step moves no sequence to another slot. -/
theorem Quiet.seqs (h : Quiet e e') : e'.slots.map (·.seq) = e.slots.map (·.seq) := by
  have hmap := congrArg (List.map Prod.fst) h.seats
  rw [List.map_map, List.map_map] at hmap
  exact hmap

/-- Slots of their own sequences differ in them. -/
theorem seq_ne_of_nodup (hnd : (e.slots.map (·.seq)).Nodup) {i j : Nat}
    {a b : SlotState Λ σ}
    (hij : i ≠ j) (ha : e.slots[i]? = some a) (hb : e.slots[j]? = some b) :
    a.seq ≠ b.seq := by
  intro heq
  obtain ⟨hi, -⟩ := List.getElem?_eq_some_iff.1 ha
  refine hij ((List.getElem?_inj (by simpa using hi) hnd).1 ?_)
  rw [List.getElem?_map, List.getElem?_map, ha, hb, Option.map_some,
    Option.map_some, heq]

/-- Replacing what a slot holds, in the same seat. -/
theorem quiet_turned {idx : Nat} {slot slot' : SlotState Λ σ}
    (hs : e.slots[idx]? = some slot)
    (hseat : seat slot' = seat slot) (work sends : Nat) (D : List LogEntry) :
    Quiet e (e.turned idx slot' work sends D) := .of_eq (map_set_same hs hseat) rfl

/-- Answering a job that was not taken. -/
theorem quiet_reject (job : Nat) (err : ApiError) : Quiet e
    (e.reject w job err) := .of_eq rfl rfl

/-- Answering the run of a slot with an error. -/
theorem quiet_fail (idx : Nat) (err : ApiError) : Quiet e (e.fail w idx err) := by
  unfold fail
  split
  · exact .refl e
  next slot hs =>
    cases slot.run with
    | none => exact .of_eq (map_set_same hs (by rfl)) rfl
    | some run => exact .of_eq (map_set_same hs (by rfl)) rfl

/-- A fold of quiet steps. -/
theorem quiet_foldl {α : Type} {f : BatchEngine Λ σ → α → BatchEngine Λ σ}
    (hf : ∀ e a, Quiet e (f e a)) (as : List α) : Quiet e (as.foldl f e) := by
  induction as generalizing e with
  | nil => exact .refl e
  | cons a as ih => exact (hf e a).trans ih

/-- Noting that a row was written. -/
theorem quiet_rowWritten (logits : List Token → Λ) (idx : Nat) :
    Quiet e (e.rowWritten logits idx) := by
  rcases rowWritten_cases logits e idx with ⟨-, h⟩ | ⟨slot, run, tok, hs, -, -, h⟩
  · rw [h]
    exact .refl e
  · rw [h]
    exact quiet_turned hs (by rfl) ..

/-- Noting that several were. -/
theorem quiet_rowsWritten (logits : List Token → Λ) (rows : List Nat) :
    Quiet e (e.rowsWritten logits rows) :=
  quiet_foldl (fun _ idx => quiet_rowWritten logits idx) rows

/-- One step of one slot. -/
theorem quiet_stepSlot (idx : Nat) : Quiet e (e.stepSlot w idx).2 := by
  cases hrun : e.runAt idx with
  | none =>
      rw [stepSlot_idle hrun]
      exact .refl e
  | some run =>
      obtain ⟨slot, hs, hr⟩ := runAt_eq_some.mp hrun
      have hturn : Turn e idx slot run (e.stepSlot w idx) := stepSlot_cases hs hr
      revert hturn
      generalize e.stepSlot w idx = out
      intro hturn
      cases hturn with
      | moved => exact quiet_turned hs (by rfl) ..
      | left => exact quiet_turned hs (by rfl) ..

/-- One step of each slot. -/
theorem quiet_stepSlots (rows : List Nat) : Quiet e (e.stepSlots w rows).2 := by
  induction rows generalizing e with
  | nil => exact .refl e
  | cons idx rest ih => exact (quiet_stepSlot idx).trans ih

/-- Sampling every row. -/
theorem quiet_sampleAll (rows : List Nat) : Quiet e (e.sampleAll w rows) := by
  refine (quiet_stepSlots (w := w) (List.range e.slots.length)).trans (.of_eq ?_ rfl)
  refine List.ext_getElem? fun i => ?_
  simp only [sampleAll, stampProgress, List.getElem?_map, List.getElem?_mapIdx]
  cases (e.stepSlots w (List.range e.slots.length)).2.slots[i]? with
  | none => rfl
  | some slot =>
      simp only [Option.map_some, Option.some.injEq]
      split <;> rfl

-- ============================ forwards

/-- A store to a cell keeps the arena's invariant. -/
theorem inv_writeCell {c : KvCache Row} (hc : c.Inv) (cell : Nat)
    (row : Graph.KvLayer Row → Row) : (writeCell c cell row).Inv := by
  refine ⟨hc.table, hc.spans, fun i l hl => ?_⟩
  rw [writeCell_layers] at hl
  obtain ⟨l₀, h₀, rfl⟩ := Option.map_eq_some_iff.1 hl
  have hok := hc.layers i l₀ h₀
  exact ⟨hok.owner_len, List.length_set.trans hok.k_len,
    List.length_set.trans hok.v_len⟩

/-- The stores of a forward keep the runs and the invariant. -/
theorem storeBatch_runs (entries : List ((SeqId × Nat) × Token × Nat))
    (c : KvCache Row) :
    RunsKept c (storeBatch c entries) ∧ (c.Inv → (storeBatch c entries).Inv) := by
  induction entries generalizing c with
  | nil => exact ⟨.refl c, id⟩
  | cons entry rest ih =>
      obtain ⟨⟨seq, pos⟩, tok, cell⟩ := entry
      obtain ⟨hruns, hinv⟩ :=
        ih (writeCell c cell fun l => computeRow c l seq pos tok)
      exact ⟨hruns, fun hc => hinv (inv_writeCell hc cell _)⟩

/-- So does whatever a failed forward left behind. -/
theorem scribble_runs (wrote : Nat → Option Row) (cells : List Nat) (k : Nat)
    (c : KvCache Row) :
    RunsKept c (scribble wrote c k cells)
      ∧ (c.Inv → (scribble wrote c k cells).Inv) := by
  induction cells generalizing k c with
  | nil => exact ⟨.refl c, id⟩
  | cons cell rest ih =>
      unfold scribble
      cases wrote k with
      | none => exact ih (k + 1) c
      | some row =>
          obtain ⟨hruns, hinv⟩ := ih (k + 1) (writeCell c cell fun _ => row)
          exact ⟨hruns, fun hc => hinv (inv_writeCell hc cell _)⟩

/-- A forward keeps the runs, whatever it answers. -/
theorem forwardOn_runs {n : Nat} {c c' : KvCache Row} {b : Batch}
    {r : Except String (List Token → Λ)} (h : forwardOn w n c b = (r, c')) :
    RunsKept c c' ∧ (c.Inv → c'.Inv) := by
  unfold forwardOn at h
  split at h
  next f _ =>
    split at h
    · cases h
      exact ⟨.refl _, id⟩
    · split at h
      next hfill =>
        cases h
        exact ⟨KvCache.fillBatchInputs_runs hfill, fun hc => hc.fillBatchInputs hfill⟩
      next cells c₁ hfill =>
        cases h
        obtain ⟨hruns, hinv⟩ := scribble_runs f.wrote cells 0 c₁
        exact ⟨(KvCache.fillBatchInputs_runs hfill).trans hruns,
          fun hc => hinv (hc.fillBatchInputs hfill)⟩
  next =>
    split at h
    next hfill =>
      cases h
      exact ⟨KvCache.fillBatchInputs_runs hfill, fun hc => hc.fillBatchInputs hfill⟩
    next cells c₁ hfill =>
      cases h
      obtain ⟨hruns, hinv⟩ := storeBatch_runs (batchEntries b cells) c₁
      exact ⟨(KvCache.fillBatchInputs_runs hfill).trans hruns,
        fun hc => hinv (hc.fillBatchInputs hfill)⟩

/-- A forward of the engine is quiet. -/
theorem quiet_forwardBatch (b : Batch) : Quiet e (e.forwardBatch w b).2 := by
  unfold forwardBatch
  split
  next hf =>
    obtain ⟨hruns, hinv⟩ := forwardOn_runs hf
    exact ⟨rfl, hruns, hinv⟩
  next hf =>
    obtain ⟨hruns, hinv⟩ := forwardOn_runs hf
    exact ⟨rfl, hruns, hinv⟩

/-- A tick grows nothing. -/
theorem quiet_tick (seam : TickSeam) : Quiet e (e.tick w seam).2 := by
  have hticked := tick_cases w seam e
  revert hticked
  generalize e.tick w seam = out
  intro hticked
  cases hticked with
  | seam work => exact .of_eq rfl rfl
  | sampled => exact quiet_sampleAll _
  | failed err e₁ _ hf =>
      have hone := quiet_forwardBatch (w := w) (e := e) (stepBatch e.stepRows)
      rw [hf] at hone
      exact hone.trans (quiet_foldl (fun e idx => quiet_fail idx err) _)
  | stepped logits e₁ _ hf =>
      have hone := quiet_forwardBatch (w := w) (e := e) (stepBatch e.stepRows)
      rw [hf] at hone
      have hcounted : Quiet e { e₁ with workUnits :=
          e₁.workUnits + e.stepRows.length } :=
        Quiet.trans hone (.of_eq rfl rfl)
      exact (hcounted.trans (quiet_rowsWritten logits _)).trans (quiet_sampleAll _)

-- =========================== admission

/-- Copying a prefix moves no run. -/
theorem quiet_copyPrefixFrom (src idx rows own : Nat) :
    Quiet e (e.copyPrefixFrom w src idx rows own).2 := by
  unfold copyPrefixFrom
  split
  next srcSlot slot hsrc hs =>
    extract_lets done
    have hcache : RunsKept e.cache done.2 ∧ (e.cache.Inv → done.2.Inv) := by
      by_cases hg : w.gathers = true
      · rw [show done = _ from if_pos hg]
        cases hshare : e.cache.kvSharePrefix srcSlot.seq slot.seq rows with
        | mk r c =>
        have hinv : e.cache.Inv → c.Inv := fun hc => by
          have hleft :=
            hc.left w.kvEnv (.share srcSlot.seq slot.seq rows) fun _ _ _ _ heq
            _ => nomatch heq
          rw [KvCache.left, hshare] at hleft
          exact hleft
        cases r <;> exact ⟨KvCache.kvSharePrefix_runs hshare, hinv⟩
      · rw [show done = _ from if_neg hg]
        cases hcopy : e.cache.kvCopyPrefix w.kvEnv srcSlot.seq slot.seq rows with
        | mk r c =>
        cases r <;> exact ⟨KvCache.kvCopyPrefix_runs hcopy,
          fun hc => hc.kvCopyPrefix hcopy⟩
    by_cases hdone : done.1 = true
    · rw [if_pos hdone]
      exact ⟨map_set_same hs (by rfl), hcache.1, hcache.2⟩
    · rw [if_neg hdone]
      exact ⟨rfl, hcache.1, hcache.2⟩
  · exact .refl e

/-- Neither does deciding where to start. -/
theorem quiet_startFrom (idx : Nat) (inputIds : List Token) :
    Quiet e (e.startFrom w idx inputIds).2 := by
  unfold startFrom
  simp only
  split
  · exact quiet_copyPrefixFrom ..
  · exact .refl e

/-- Installing a run fills a seat that was there. -/
theorem quiet_installRun (idx : Nat) (job : Job σ) (logits : Λ) :
    Quiet e (e.installRun w idx job logits) := by
  unfold installRun
  split
  · exact .refl e
  next slot hs => exact .of_eq (map_set_same hs (by rfl)) rfl

/-- Giving jobs their slots moves none of them. -/
theorem quiet_place (w : World Λ σ) (jobs : List (Job σ)) :
    ∀ (e : BatchEngine Λ σ) (taken : List Bool) (i : Nat),
      Quiet e (e.place w taken i jobs).2.2 := by
  induction jobs with
  | nil => exact fun e taken i => .refl e
  | cons job rest ih =>
      intro e taken i
      rw [place]
      split
      · exact ih ..
      · exact (quiet_reject ..).trans (ih ..)

/-- A prefill grows nothing: the capacity was ensured before. -/
theorem quiet_prefillLoop (w : World Λ σ) (seam : TickSeam) (seq : SeqId)
    (input : List Token) (spans : List (Nat × Nat)) {e : BatchEngine Λ σ} :
    Quiet e (e.prefillLoop w seam seq input spans).2 := by
  induction spans generalizing e with
  | nil => exact .refl e
  | cons span rest ih =>
      have hone := quiet_forwardBatch (w := w) (e := e) (spanBatch seq input span)
      rw [prefillLoop]
      cases hf : e.forwardBatch w (spanBatch seq input span) with
      | mk res e₁ =>
      rw [hf] at hone
      cases res with
      | error err => exact hone
      | ok logits =>
          by_cases hrest : rest.isEmpty = true
          · simp only [hrest, if_true]
            exact hone
          · simp only [hrest, Bool.false_eq_true, if_false]
            by_cases hpending : e₁.hasPendingDecode = true
            · simp only [hpending, if_true]
              exact (hone.trans (quiet_tick seam)).trans ih
            · simp only [hpending, Bool.false_eq_true, if_false]
              exact hone.trans ih

/-- A `submit_on` is quiet but for the call it makes. -/
theorem submitOn_quiet (seam : TickSeam) (idx : Nat) (job : Job σ)
    (waiting : List Nat) :
    (e.submitGrowths idx job waiting = [] ∧ Quiet e (e.submitOn w seam idx job).2)
      ∨ ∃ g : Growth Λ σ, e.submitGrowths idx job waiting = [g] ∧ g.engine = e
        ∧ Quiet (g.grown w) (e.submitOn w seam idx job).2 := by
  unfold submitOn submitGrowths
  cases hs : e.slots[idx]? with
  | none => exact .inl ⟨rfl, quiet_reject ..⟩
  | some slot =>
  by_cases hrun : slot.run.isSome = true
  · simp only [hrun, if_true]
    exact .inl ⟨trivial, quiet_reject ..⟩
  simp only [hrun, Bool.false_eq_true, if_false]
  refine .inr ⟨_, rfl, rfl, ?_⟩
  rw [Growth.grown]
  generalize e.ensureSlotCapacity w idx
    (e.wantedCells idx job.inputIds.length job.params.maxTokens) = e₁
  by_cases hfit : job.inputIds.length > (e₁.slots[idx]?.map (·.cap)).getD 0
  · simp only [hfit, if_true]
    exact quiet_reject ..
  simp only [hfit, if_false]
  have hloop := (quiet_startFrom (w := w) (e := e₁) idx job.inputIds).trans
    (quiet_prefillLoop w seam slot.seq job.inputIds
      (prefillChunks (e₁.startFrom w idx job.inputIds).1 job.inputIds.length
        e₁.nBatch))
  split
  next heq =>
    rw [heq] at hloop
    exact hloop.trans (quiet_reject ..)
  next heq =>
    rw [heq] at hloop
    exact hloop.trans (quiet_installRun ..)

-- ==================== along the traces

section

variable {P : BatchEngine Λ σ → Prop} {ok : Growth Λ σ → Prop}

/-- What quiet steps keep and the calls keep is kept by a `submit_on`, and
its call finds it. -/
theorem submitOn_holds (hquiet : ∀ {e e'}, Quiet e e' → P e → P e')
    (hgrow : ∀ g, ok g → P g.engine → P (g.grown w)) (he : P e)
    (seam : TickSeam) (idx : Nat) (job : Job σ) (waiting : List Nat)
    (hok : ∀ g ∈ e.submitGrowths idx job waiting, ok g) :
    P (e.submitOn w seam idx job).2 ∧ ∀ g ∈ e.submitGrowths idx job waiting,
      P g.engine := by
  rcases submitOn_quiet (w := w) (e := e) seam idx job waiting with ⟨hnil, hq⟩
    | ⟨g, hone, rfl, hq⟩
  · refine ⟨hquiet hq he, fun g hg => ?_⟩
    rw [hnil] at hg
    cases hg
  · rw [hone] at hok ⊢
    refine ⟨hquiet hq (hgrow g (hok g (List.mem_singleton_self g)) he),
      fun g' hg' => ?_⟩
    rw [List.mem_singleton.1 hg']
    exact he

/-- What quiet steps keep and good growths keep holds after the jobs of a batch
were submitted one by one. -/
theorem submitAll_holds (hquiet : ∀ {e e'}, Quiet e e' → P e → P e')
    (hgrow : ∀ g, ok g → P g.engine → P (g.grown w)) (seam : TickSeam)
    (placed : List (Nat × Job σ × Nat)) {e : BatchEngine Λ σ} (he : P e)
    (hok : ∀ g ∈ e.submitAllGrowths w seam placed, ok g) :
    P (e.submitAll w seam placed).2 ∧ ∀ g ∈ e.submitAllGrowths w seam placed,
      P g.engine := by
  induction placed generalizing e with
  | nil => exact ⟨he, fun g hg => absurd hg List.not_mem_nil⟩
  | cons p rest ih =>
      obtain ⟨i, job, slot⟩ := p
      rw [submitAllGrowths] at hok ⊢
      obtain ⟨hfirst, hrest⟩ := List.forall_mem_append.1 hok
      obtain ⟨hone, hcalls⟩ := submitOn_holds hquiet hgrow he seam slot job _ hfirst
      obtain ⟨hdone, hcalls'⟩ := ih hone hrest
      exact ⟨hdone, List.forall_mem_append.2 ⟨hcalls, hcalls'⟩⟩

/-- And after they were gathered for one forward. -/
theorem groupBatch_holds (hquiet : ∀ {e e'}, Quiet e e' → P e → P e')
    (hgrow : ∀ g, ok g → P g.engine → P (g.grown w)) (group : List Nat)
    (placed : List (Nat × Job σ × Nat)) {e : BatchEngine Λ σ} {b : Batch}
    (he : P e) (hok : ∀ g ∈ e.groupGrowths w group placed, ok g) :
    P (e.groupBatch w placed b).2 ∧ ∀ g ∈ e.groupGrowths w group placed,
      P g.engine := by
  induction placed generalizing e b with
  | nil => exact ⟨he, fun g hg => absurd hg List.not_mem_nil⟩
  | cons p rest ih =>
      obtain ⟨i, job, idx⟩ := p
      have hstart := hquiet (quiet_startFrom (w := w) idx job.inputIds) he
      rw [groupGrowths] at hok ⊢
      rw [groupBatch]
      simp only [List.forall_mem_cons] at hok ⊢
      obtain ⟨hfirst, hrest⟩ := hok
      have hgrown := hgrow _ hfirst hstart
      rw [Growth.grown] at hgrown hrest ⊢
      by_cases hfit : job.inputIds.length
          > ((((e.startFrom w idx job.inputIds).2.ensureSlotCapacity
          w idx ((e.startFrom w idx job.inputIds).2.wantedCells idx
            job.inputIds.length
            job.params.maxTokens)).slots[idx]?.map (·.cap)).getD 0)
      · simp only [hfit, if_true]
        exact ⟨hgrown, hstart, by simp⟩
      · simp only [hfit, if_false] at hrest ⊢
        obtain ⟨hdone, hcalls⟩ := ih hgrown hrest
        exact ⟨hdone, hstart, hcalls⟩

/-- So it is by an admission. -/
theorem admitJobs_holds (hquiet : ∀ {e e'}, Quiet e e' → P e → P e')
    (hgrow : ∀ g, ok g → P g.engine → P (g.grown w)) (he : P e) (seam : TickSeam)
    (jobs : List (Job σ)) (hok : ∀ g ∈ e.admitGrowths w seam jobs, ok g) :
    P (e.admitJobs w seam jobs).2 ∧ ∀ g ∈ e.admitGrowths w seam jobs, P g.engine := by
  have hplaced : P (e.placedOn w jobs) := hquiet (quiet_place w jobs e _ 0) he
  by_cases hgroup : Grouped w (e.placedOn w jobs) (e.placedJobs w jobs)
  · have htrace : e.admitGrowths w seam jobs = (e.placedOn w jobs).groupGrowths w
        ((e.placedJobs w jobs).map (·.2.2)) (e.placedJobs w jobs) := if_pos hgroup
    rw [htrace] at hok ⊢
    obtain ⟨hdone, hcalls⟩ :=
      groupBatch_holds hquiet hgrow _ _ (b := ⟨[], [], []⟩) hplaced hok
    refine ⟨?_, hcalls⟩
    have hprefill :
        P ((e.placedOn w jobs).prefillGroup w (e.placedJobs w jobs)).2 := by
      unfold prefillGroup
      cases hg : (e.placedOn w jobs).groupBatch w (e.placedJobs w jobs)
          ⟨[], [], []⟩ with
      | mk res e₁ =>
      rw [hg] at hdone
      cases res with
      | error msg => exact hdone
      | ok b =>
          have hone := hquiet (quiet_forwardBatch (w := w) b) hdone
          simp only
          cases hf : e₁.forwardBatch w b with
          | mk res e₂ =>
          rw [hf] at hone
          cases res with
          | error err => exact hone
          | ok logits =>
              exact hquiet
                (quiet_foldl (fun e p => quiet_installRun ..) _) hone
    refine (congrArg (fun out : List Answer × BatchEngine Λ σ => P out.2)
      (if_pos hgroup)).mpr ?_
    rw [← placedOn, ← placedJobs]
    revert hprefill
    cases (e.placedOn w jobs).prefillGroup w (e.placedJobs w jobs) with
    | mk res e₁ =>
    intro hprefill
    cases res with
    | ok _ => exact hprefill
    | error msg => exact hquiet (quiet_foldl (fun e p => quiet_reject ..) _) hprefill
  · have htrace : e.admitGrowths w seam jobs
        = (e.placedOn w jobs).submitAllGrowths w seam (e.placedJobs w jobs) :=
          if_neg hgroup
    rw [htrace] at hok ⊢
    obtain ⟨hdone, hcalls⟩ := submitAll_holds hquiet hgrow seam _ hplaced hok
    have halone : (e.admitJobs w seam jobs).2
        = ((e.placedOn w jobs).submitAll w seam (e.placedJobs w jobs)).2 :=
      (congrArg Prod.snd (if_neg hgroup)).trans rfl
    rw [halone]
    exact ⟨hdone, hcalls⟩

end
end BatchEngine
end Minfer.Server
