/-
The forwards an admission issues (`server/batch.rs`), and how much each of
them carries.

`admitForwards` lists them in order: the combined forward of a group, the
spans of a request prefilled alone, and the decode steps that run between
two spans. It is `admit` with the batches kept, and `forwards_admitJobs`
counts them against the engine's own counter.

A span never exceeds the chunk. A group can, because the sum the decision
reads is not what its members are left to feed: it adds up where feeding
starts (`feed_span(..).0`), not how much is fed, and it is read before
prefixes are taken over and slots grow.

# The condition

What a group feeds is decided as it is prepared, member by member, by which
rows the arena lets a slot take over and which idle slots a growth takes
back. The condition is on what the admission finds instead, the prompts, the
records and the cells of the slots, and bounds the rest from both sides:

* a member starts no earlier than its own record says (`feed_span`), unless
  a growth before it took that record back: `mostFed`
* a member starts no later than the longest prefix of its prompt in any
  record, for records are only ever copied from one another: `leastFed`

# Main results

* `prefill_forwards_bounded`: every forward is within its bound unless the
  group is combined and `mostFed` exceeds the cap; one is not where even
  `leastFed` does and every member is housed
* `overfull_iff_overfed`: the two conditions are one where no slot has more
  of a prompt than its own
* `forwards_admitJobs`: the trace is what the engine's counter counts
-/
import Minfer.Server.Proofs.Admission

namespace Minfer.Server

open Minfer.Graph (KvCache SeqId Batch)

variable {Λ σ : Type}

-- ============================== traces

/-- One forward of an admission. -/
inductive Forward where
  /-- Several requests' suffixes at once. -/
  | group (b : Batch)
  /-- A span of one request's suffix. -/
  | span (b : Batch)
  /-- A decode step of the other slots. -/
  | step (b : Batch)
deriving Repr, DecidableEq

/-- The bound on a combined prefill. -/
def groupCap (nBatch : Nat) : Nat :=
  if nBatch = 0 then maxPrefillBatch else min nBatch maxPrefillBatch

/-- A prefill forward within the configured bound. -/
def Forward.Within (nBatch : Nat) : Forward → Prop
  | .group b => b.tokens.length ≤ groupCap nBatch
  | .span b => nBatch = 0 ∨ b.tokens.length ≤ nBatch
  | .step _ => True

namespace BatchEngine

/-- The forward of `tick`. -/
def tickForwards (seam : TickSeam) (e : BatchEngine Λ σ) : List Forward :=
  match seam with
  | .off => if e.stepRows.isEmpty then [] else [.step (stepBatch e.stepRows)]
  | .wedge | .spin => []

/-- The forwards of `submit_on`'s chunk loop. -/
def loopForwards (w : World Λ σ) (seam : TickSeam) (seq : SeqId)
    (inputIds : List Token) :
    BatchEngine Λ σ → List (Nat × Nat) → List Forward
  | _, [] => []
  | e, span :: rest =>
      .span (spanBatch seq inputIds span) ::
        match e.forwardBatch w (spanBatch seq inputIds span) with
        | (.error _, _) => []
        | (.ok _, e) =>
            if rest.isEmpty then []
            else if e.hasPendingDecode then
              e.tickForwards seam ++ loopForwards w seam seq inputIds
                (e.tick w seam).2 rest
            else loopForwards w seam seq inputIds e rest

/-- The forwards of `submit_on`. -/
def submitForwards (w : World Λ σ) (seam : TickSeam) (e : BatchEngine Λ σ)
    (idx : Nat) (job : Job σ) : List Forward :=
  match e.slots[idx]? with
  | none => []
  | some slot =>
      if slot.run.isSome then []
      else
        let nt := job.inputIds.length
        let e := e.ensureSlotCapacity w idx
          (e.wantedCells idx nt job.params.maxTokens)
        if nt > (e.slots[idx]?.map (·.cap)).getD 0 then []
        else
          let started := e.startFrom w idx job.inputIds
          started.2.loopForwards w seam slot.seq job.inputIds
            (prefillChunks started.1 nt e.nBatch)

/-- The forwards of the requests prefilled one at a time. -/
def submitAllForwards (w : World Λ σ) (seam : TickSeam) :
    BatchEngine Λ σ → List (Nat × Job σ × Nat) → List Forward
  | _, [] => []
  | e, (_, job, slot) :: rest =>
      e.submitForwards w seam slot job
        ++ submitAllForwards w seam (e.submitOn w seam slot job).2 rest

/-- The forward of `prefill_group`. -/
def groupForwards (w : World Λ σ) (e : BatchEngine Λ σ)
    (placed : List (Nat × Job σ × Nat)) :
    List Forward :=
  match e.groupBatch w placed ⟨[], [], []⟩ with
  | (.error _, _) => []
  | (.ok b, _) => [.group b]

/-- The forwards of `admit`. -/
def admitForwards (w : World Λ σ) (seam : TickSeam) (e : BatchEngine Λ σ)
    (jobs : List (Job σ)) :
    List Forward :=
  let (placed, _, e) := e.place w (e.slots.map (·.run.isSome)) 0 jobs
  let total := (placed.map fun p => (e.feedSpan w p.2.2 p.2.1.inputIds).1).sum
  if placed.length > 1 ∧ total ≤ groupCap e.nBatch
    ∧ w.prefillBatchOk then e.groupForwards w placed
  else e.submitAllForwards w seam placed

-- ============================ counters

/-- The chunk size and the number of forwards so far. -/
def counters (e : BatchEngine Λ σ) : Nat × Nat := (e.nBatch, e.forwards)

variable {w : World Λ σ} {e e' : BatchEngine Λ σ}

@[simp] theorem counters_setSlot (i : Nat) (s : SlotState Λ σ) :
    (e.setSlot i s).counters = e.counters := rfl

@[simp] theorem counters_reject (job : Nat) (err : ApiError) :
    (e.reject w job err).counters = e.counters := rfl

@[simp] theorem counters_turned (idx : Nat) (slot : SlotState Λ σ)
    (work sends : Nat) (D : List LogEntry) :
    (e.turned idx slot work sends D).counters = e.counters := rfl

@[simp] theorem counters_fail (idx : Nat) (err : ApiError) :
    (e.fail w idx err).counters = e.counters := by
  unfold fail
  split
  · rfl
  next slot _ => cases slot.run <;> rfl

/-- A loop of steps that count nothing counts nothing. -/
theorem counters_foldl {α : Type} {f : BatchEngine Λ σ → α → BatchEngine Λ σ}
    (hf : ∀ e a, (f e a).counters = e.counters) (as : List α) (e : BatchEngine Λ σ) :
    (as.foldl f e).counters = e.counters := by
  induction as generalizing e with
  | nil => rfl
  | cons a as ih => rw [List.foldl_cons, ih, hf]

theorem counters_rowWritten (logits : List Token → Λ) (e : BatchEngine Λ σ)
    (idx : Nat) :
    (e.rowWritten logits idx).counters = e.counters := by
  rcases rowWritten_cases logits e idx with ⟨-, h⟩ | ⟨slot, run, tok, -, -, -, h⟩
  · rw [h]
  · rw [h, counters_turned]

/-- Sampling a slot counts no forward. -/
theorem counters_stepSlot (w : World Λ σ) (e : BatchEngine Λ σ) (idx : Nat) :
    (e.stepSlot w idx).2.counters = e.counters := by
  cases hrun : e.runAt idx with
  | none => rw [stepSlot_idle hrun]
  | some run =>
      obtain ⟨slot, hs, hr⟩ := runAt_eq_some.mp hrun
      obtain ⟨out, hout⟩ : ∃ out, out = e.stepSlot w idx := ⟨_, rfl⟩
      have hturn : Turn e idx slot run (e.stepSlot w idx) := stepSlot_cases hs hr
      rw [← hout] at hturn ⊢
      cases hturn <;> rfl

theorem counters_stepSlots (w : World Λ σ) (rows : List Nat) :
    ∀ e : BatchEngine Λ σ, (e.stepSlots w rows).2.counters = e.counters := by
  induction rows with
  | nil => exact fun e => rfl
  | cons idx rest ih => exact fun e => (ih _).trans (counters_stepSlot w e idx)

/-- A forward counts itself. -/
theorem counters_forwardBatch (w : World Λ σ) (e : BatchEngine Λ σ) (b : Batch) :
    (e.forwardBatch w b).2.counters = (e.nBatch, e.forwards + 1) := by
  unfold forwardBatch
  split <;> rfl

/-- A step keeps the chunk size and issues the forward the trace shows. -/
theorem counters_tick (w : World Λ σ) (seam : TickSeam) (e : BatchEngine Λ σ) :
    (e.tick w seam).2.counters
      = (e.nBatch, e.forwards + (e.tickForwards seam).length) := by
  cases seam with
  | wedge => rfl
  | spin => rfl
  | off =>
      have hsample (e : BatchEngine Λ σ) (rows : List Nat) :
          ((e.stepSlots w (List.range e.slots.length)).2.stampProgress
              rows).counters = e.counters :=
        counters_stepSlots w _ e
      by_cases hrows : e.stepRows = []
      · simp only [tick, tickForwards, hrows, List.isEmpty_nil, if_true]
        exact hsample e _
      · have hone := counters_forwardBatch w e (stepBatch e.stepRows)
        simp only [tick, tickForwards, List.isEmpty_iff, hrows, if_false,
          List.length_singleton]
        cases hf : e.forwardBatch w (stepBatch e.stepRows) with
        | mk res e₁ =>
        rw [hf] at hone
        cases res with
        | error err =>
            exact (counters_foldl (fun e a => counters_fail a err) _ e₁).trans
              hone
        | ok logits =>
            refine (hsample _ _).trans
              ((counters_foldl (counters_rowWritten logits) _ _).trans ?_)
            exact hone

@[simp] theorem counters_reclaim {idx need : Nat} :
    ∀ {rows : List Nat} {e : BatchEngine Λ σ},
      (e.reclaim idx need rows).counters = e.counters := by
  intro rows
  induction rows with
  | nil => exact rfl
  | cons j rest ih =>
      intro e
      rw [reclaim]
      split
      · exact ih
      · split
        · exact ih
        · split
          · rfl
          · exact ih

@[simp] theorem counters_ensureSlotCapacity (idx want : Nat) :
    (e.ensureSlotCapacity w idx want).counters = e.counters := by
  unfold ensureSlotCapacity
  split
  · rfl
  next slot _ =>
    split
    · rfl
    · split
      · split <;> rfl
      · have hrec := @counters_reclaim Λ σ idx (min want e.nCtxTotal - slot.cap)
          (List.range e.slots.length) e
        simp only
        split
        · exact hrec
        · exact hrec

@[simp] theorem counters_copyPrefixFrom (src idx rows own : Nat) :
    (e.copyPrefixFrom w src idx rows own).2.counters = e.counters := by
  unfold copyPrefixFrom
  split
  · extract_lets done
    by_cases hdone : done.1 = true
    · rw [if_pos hdone]
      rfl
    · rw [if_neg hdone]
      rfl
  · rfl

/-- Finding where to start counts no forward. -/
@[simp] theorem counters_startFrom (idx : Nat) (inputIds : List Token) :
    (e.startFrom w idx inputIds).2.counters = e.counters := by
  unfold startFrom
  simp only
  split
  · exact counters_copyPrefixFrom ..
  · rfl

/-- Nor does a run that starts. -/
@[simp] theorem counters_installRun (idx : Nat) (job : Job σ) (logits : Λ) :
    (e.installRun w idx job logits).counters = e.counters := by
  unfold installRun
  split <;> rfl

theorem place_nCtxTotal (w : World Λ σ) (jobs : List (Job σ)) :
    ∀ (e : BatchEngine Λ σ) (taken : List Bool) (i : Nat),
      (e.place w taken i jobs).2.2.nCtxTotal = e.nCtxTotal := by
  induction jobs with
  | nil => exact fun e taken i => rfl
  | cons job rest ih =>
      intro e taken i
      rw [place]
      split
      · exact ih ..
      · exact ih ..

/-- Nor does the placing of jobs. -/
theorem counters_place (w : World Λ σ) (jobs : List (Job σ)) :
    ∀ (e : BatchEngine Λ σ) (taken : List Bool) (i : Nat),
      (e.place w taken i jobs).2.2.counters = e.counters := by
  induction jobs with
  | nil => exact fun e taken i => rfl
  | cons job rest ih =>
      intro e taken i
      rw [place]
      split
      · exact ih ..
      · exact ih ..

-- ================ the trace is the run

variable {seam : TickSeam}

/-- A prefill counts its chunks. -/
theorem counters_prefillLoop {seq : SeqId} {input : List Token} :
    ∀ {spans : List (Nat × Nat)} {e : BatchEngine Λ σ},
      (e.prefillLoop w seam seq input spans).2.counters
        = (e.nBatch,
          e.forwards + (e.loopForwards w seam seq input spans).length) := by
  intro spans
  induction spans with
  | nil => exact rfl
  | cons span rest ih =>
      intro e
      have hone := counters_forwardBatch w e (spanBatch seq input span)
      rw [prefillLoop, loopForwards]
      cases hf : e.forwardBatch w (spanBatch seq input span) with
      | mk res e₁ =>
      rw [hf] at hone
      cases res with
      | error err => exact hone
      | ok logits =>
          obtain ⟨hbatch, hcount⟩ := Prod.mk.inj hone
          by_cases hrest : rest.isEmpty = true
          · simp only [hrest, if_true]
            exact hone
          · simp only [hrest, Bool.false_eq_true, if_false, List.length_cons]
            by_cases hpending : e₁.hasPendingDecode = true
            · obtain ⟨hbatch₂, hcount₂⟩ := Prod.mk.inj (counters_tick w seam e₁)
              simp only [hpending, if_true, List.length_append]
              rw [ih, hbatch₂, hcount₂, hbatch, hcount]
              exact Prod.ext rfl (by simp only; omega)
            · simp only [hpending, Bool.false_eq_true, if_false]
              rw [ih, hbatch, hcount]
              exact Prod.ext rfl (by simp only; omega)

/-- A request admitted alone counts its own prefill. -/
theorem counters_submitOn (w : World Λ σ) (seam : TickSeam)
    (e : BatchEngine Λ σ) (idx : Nat)
    (job : Job σ) : (e.submitOn w seam idx job).2.counters
      = (e.nBatch, e.forwards + (e.submitForwards w seam idx job).length) := by
  unfold submitOn submitForwards
  cases hs : e.slots[idx]? with
  | none => rfl
  | some slot =>
  by_cases hrun : slot.run.isSome = true
  · simp only [hrun, if_true]
    rfl
  simp only [hrun, Bool.false_eq_true, if_false]
  obtain ⟨e₁, he₁⟩ : ∃ e₁, e₁ = e.ensureSlotCapacity w idx
    (e.wantedCells idx job.inputIds.length job.params.maxTokens) := ⟨_, rfl⟩
  have hroom : e₁.counters = e.counters := by rw [he₁, counters_ensureSlotCapacity]
  rw [← he₁]
  by_cases hfit : job.inputIds.length > (e₁.slots[idx]?.map (·.cap)).getD 0
  · simp only [hfit, if_true]
    exact hroom
  simp only [hfit, if_false]
  have hstart : (e₁.startFrom w idx job.inputIds).2.counters = e.counters :=
    (counters_startFrom ..).trans hroom
  obtain ⟨hbatch, hcount⟩ := Prod.mk.inj hstart
  have hloop := @counters_prefillLoop Λ σ w seam slot.seq job.inputIds
    (prefillChunks (e₁.startFrom w idx job.inputIds).1 job.inputIds.length e₁.nBatch)
    (e₁.startFrom w idx job.inputIds).2
  rw [hbatch, hcount] at hloop
  split
  next err e₂ heq =>
    rw [heq] at hloop
    exact hloop
  next logits e₂ heq =>
    rw [heq] at hloop
    exact (counters_installRun ..).trans hloop

/-- Requests admitted one by one count theirs. -/
theorem counters_submitAll :
    ∀ {placed : List (Nat × Job σ × Nat)} {e : BatchEngine Λ σ},
      (e.submitAll w seam placed).2.counters
        = (e.nBatch, e.forwards + (e.submitAllForwards w seam placed).length) := by
  intro placed
  induction placed with
  | nil => exact rfl
  | cons p rest ih =>
      intro e
      obtain ⟨i, job, slot⟩ := p
      obtain ⟨hbatch, hcount⟩ := Prod.mk.inj (counters_submitOn w seam e slot job)
      rw [submitAll, submitAllForwards]
      simp only
      rw [ih, hbatch, hcount, List.length_append, Nat.add_assoc]

/-- Gathering the group counts nothing. -/
theorem counters_groupBatch :
    ∀ {placed : List (Nat × Job σ × Nat)} {e : BatchEngine Λ σ} {b : Batch},
      (e.groupBatch w placed b).2.counters = e.counters := by
  intro placed
  induction placed with
  | nil => exact rfl
  | cons p rest ih =>
      intro e b
      obtain ⟨i, job, idx⟩ := p
      rw [groupBatch]
      simp only
      split
      · rw [counters_ensureSlotCapacity, counters_startFrom]
      · rw [ih, counters_ensureSlotCapacity, counters_startFrom]

/-- A group counts its one forward. -/
theorem counters_prefillGroup (w : World Λ σ) (e : BatchEngine Λ σ)
    (placed : List (Nat × Job σ × Nat)) : (e.prefillGroup w placed).2.counters
      = (e.nBatch, e.forwards + (e.groupForwards w placed).length) := by
  have hprep := @counters_groupBatch Λ σ w placed e ⟨[], [], []⟩
  unfold prefillGroup groupForwards
  cases hg : e.groupBatch w placed ⟨[], [], []⟩ with
  | mk res e₁ =>
  rw [hg] at hprep
  cases res with
  | error msg => exact hprep
  | ok b =>
      obtain ⟨hbatch, hcount⟩ := Prod.mk.inj hprep
      have hone := counters_forwardBatch w e₁ b
      rw [hbatch, hcount] at hone
      simp only
      cases hf : e₁.forwardBatch w b with
      | mk res e₂ =>
      rw [hf] at hone
      cases res with
      | error err => exact hone
      | ok logits =>
          exact (counters_foldl (fun e p => counters_installRun ..) _ e₂).trans
            hone

/-- The requests an admission places. -/
def placedJobs (w : World Λ σ) (e : BatchEngine Λ σ) (jobs : List (Job σ)) :
    List (Nat × Job σ × Nat) := (e.place w (e.slots.map (·.run.isSome)) 0 jobs).1

/-- The engine that prefills them: the rest was refused. -/
def placedOn (w : World Λ σ) (e : BatchEngine Λ σ) (jobs : List (Job σ)) :
    BatchEngine Λ σ :=
  (e.place w (e.slots.map (·.run.isSome)) 0 jobs).2.2

/-- The forwards of a group. -/
theorem admitForwards_grouped {jobs : List (Job σ)}
    (h : Grouped w (e.placedOn w jobs) (e.placedJobs w jobs)) :
    e.admitForwards w seam jobs
      = (e.placedOn w jobs).groupForwards w (e.placedJobs w jobs) :=
  if_pos h

/-- The forwards of requests admitted one by one. -/
theorem admitForwards_alone {jobs : List (Job σ)}
    (h : ¬ Grouped w (e.placedOn w jobs) (e.placedJobs w jobs)) :
    e.admitForwards w seam jobs
      = (e.placedOn w jobs).submitAllForwards w seam (e.placedJobs w jobs) :=
  if_neg h

/-- The trace has one entry for every forward of an admission. -/
theorem forwards_admitJobs (w : World Λ σ) (seam : TickSeam) (e : BatchEngine Λ σ)
    (jobs : List (Job σ)) : (e.admitJobs w seam jobs).2.forwards
      = e.forwards + (e.admitForwards w seam jobs).length := by
  obtain ⟨-, hcount⟩ :=
    Prod.mk.inj (counters_place w jobs e (e.slots.map (·.run.isSome)) 0)
  rw [← placedOn] at hcount
  by_cases hgroup : Grouped w (e.placedOn w jobs) (e.placedJobs w jobs)
  · have hdone :=
      (Prod.mk.inj
        (counters_prefillGroup w (e.placedOn w jobs) (e.placedJobs w jobs))).2
    rw [hcount] at hdone
    rw [admitForwards_grouped hgroup, ← hdone]
    refine (congrArg (fun out : List Answer × BatchEngine Λ σ =>
      out.2.forwards) (if_pos hgroup)).trans ?_
    rw [← placedOn, ← placedJobs]
    cases (e.placedOn w jobs).prefillGroup w (e.placedJobs w jobs) with
    | mk res e₁ =>
    cases res with
    | ok _ => rfl
    | error msg =>
        refine congrArg Prod.snd (counters_foldl ?_ (e.placedJobs w jobs) e₁)
        exact fun e p => counters_reject ..
  · have hdone :=
      (Prod.mk.inj
        (@counters_submitAll Λ σ w seam (e.placedJobs w jobs)
          (e.placedOn w jobs))).2
    rw [hcount] at hdone
    have halone : (e.admitJobs w seam jobs).2
        = ((e.placedOn w jobs).submitAll w seam (e.placedJobs w jobs)).2 :=
      (congrArg Prod.snd (if_neg hgroup)).trans rfl
    rw [admitForwards_alone hgroup, ← hdone, halone]

-- =============================== spans

/-- No chunk is longer than the bound. -/
theorem chunkSpans_le {total chunk : Nat} :
    ∀ {fuel at_ : Nat}, ∀ span ∈ chunkSpans total chunk fuel at_,
      span.2 - span.1 ≤ chunk := by
  intro fuel
  induction fuel with
  | zero => exact fun span h => absurd h List.not_mem_nil
  | succ fuel ih =>
      intro at_ span h
      rw [chunkSpans] at h
      split at h
      · rcases List.mem_cons.mp h with rfl | h
        · simp only
          omega
        · exact ih span h
      · exact absurd h List.not_mem_nil

/-- No span is longer than the chunk. -/
theorem prefillChunks_le {start total chunk : Nat} :
    ∀ span ∈ prefillChunks start total chunk, chunk = 0
      ∨ span.2 - span.1 ≤ chunk := by
  intro span h
  unfold prefillChunks at h
  split at h
  · exact absurd h List.not_mem_nil
  · split at h
    next hone =>
      obtain rfl := List.mem_singleton.mp h
      exact hone
    next => exact .inr (chunkSpans_le span h)

/-- A batch has the tokens of its span. -/
theorem spanBatch_tokens_le (seq : SeqId) (input : List Token) (span : Nat × Nat) :
    (spanBatch seq input span).tokens.length ≤ span.2 - span.1 := by
  show ((input.drop span.1).take (span.2 - span.1)).length ≤ span.2 - span.1
  rw [List.length_take]
  exact Nat.min_le_left ..

/-- A decode step is no prefill. -/
theorem within_tickForwards {nBatch : Nat} :
    ∀ f ∈ e.tickForwards seam, f.Within nBatch := by
  intro f hf
  unfold tickForwards at hf
  split at hf
  · split at hf
    · cases hf
    · obtain rfl := List.mem_singleton.mp hf
      exact trivial
  · cases hf
  · cases hf

/-- Every chunk of a prefill is within the bound. -/
theorem within_loopForwards {nBatch : Nat} {seq : SeqId} {input : List Token} :
    ∀ {spans : List (Nat × Nat)} {e : BatchEngine Λ σ},
      (∀ span ∈ spans, nBatch = 0 ∨ span.2 - span.1 ≤ nBatch) →
      ∀ f ∈ e.loopForwards w seam seq input spans, f.Within nBatch := by
  intro spans
  induction spans with
  | nil => exact fun _ f hf => absurd hf List.not_mem_nil
  | cons span rest ih =>
      intro e hle f hf
      have hrest (e : BatchEngine Λ σ) : ∀ f
          ∈ e.loopForwards w seam seq input rest, f.Within nBatch :=
        ih fun s hs => hle s (List.mem_cons_of_mem _ hs)
      rw [loopForwards] at hf
      rcases List.mem_cons.mp hf with rfl | hf
      · refine (hle span List.mem_cons_self).imp_right fun hspan => ?_
        exact Nat.le_trans (spanBatch_tokens_le seq input span) hspan
      · split at hf
        · cases hf
        · split at hf
          · cases hf
          · split at hf
            · rcases List.mem_append.mp hf with hf | hf
              · exact within_tickForwards f hf
              · exact hrest _ f hf
            · exact hrest _ f hf

/-- A request prefilled alone stays within the chunk. -/
theorem within_submitForwards {idx : Nat} {job : Job σ} :
    ∀ f ∈ e.submitForwards w seam idx job, f.Within e.nBatch := by
  intro f hf
  unfold submitForwards at hf
  split at hf
  · cases hf
  · split at hf
    · cases hf
    · simp only at hf
      split at hf
      · cases hf
      · refine within_loopForwards (fun span hspan => ?_) f hf
        rw [(Prod.mk.inj (counters_ensureSlotCapacity ..)).1] at hspan
        exact prefillChunks_le span hspan

/-- Requests admitted one by one keep to the bound. -/
theorem within_submitAllForwards :
    ∀ {placed : List (Nat × Job σ × Nat)} {e : BatchEngine Λ σ},
      ∀ f ∈ e.submitAllForwards w seam placed, f.Within e.nBatch := by
  intro placed
  induction placed with
  | nil => exact fun f hf => absurd hf List.not_mem_nil
  | cons p rest ih =>
      intro e f hf
      rw [submitAllForwards] at hf
      rcases List.mem_append.mp hf with hf | hf
      · exact within_submitForwards f hf
      · rw [← (Prod.mk.inj (counters_submitOn w seam e p.2.2 p.2.1)).1]
        exact ih f hf

-- ============================= records

/-- The cells a slot has. -/
def capOf (e : BatchEngine Λ σ) (idx : Nat) : Nat :=
  (e.slots[idx]?.map (·.cap)).getD 0

/-- A request wants more cells than its slot has. -/
def Wants (e : BatchEngine Λ σ) (idx : Nat) (job : Job σ) : Prop :=
  e.capOf idx
    < min (e.wantedCells idx job.inputIds.length job.params.maxTokens) e.nCtxTotal

instance (e : BatchEngine Λ σ) (idx : Nat) (job : Job σ) :
    Decidable (e.Wants idx job) :=
  inferInstanceAs (Decidable (_ < _))

/-- A request whose slot has cells, but not all it wants: to grow it, idle
slots may be taken back, and their records are lost. -/
def TakesBack (e : BatchEngine Λ σ) (idx : Nat) (job : Job σ) : Prop :=
  e.capOf idx ≠ 0 ∧ e.Wants idx job

instance (e : BatchEngine Λ σ) (idx : Nat) (job : Job σ) :
    Decidable (e.TakesBack idx job) :=
  inferInstanceAs (Decidable (_ ∧ _))

/-- The most a group is left to feed, by the records it finds: each member what
`feed_span` says, and the whole prompt once a member before it has taken slots
back, for its own may be among them. -/
def mostFed (w : World Λ σ) (e : BatchEngine Λ σ) :
    Bool → List (Nat × Job σ × Nat) → Nat
  | _, [] => 0
  | lost, (_, job, idx) :: rest =>
      (if lost then job.inputIds.length else (e.feedSpan w idx job.inputIds).2)
        + mostFed w e (lost || decide (e.TakesBack idx job)) rest

/-- The longest prefix of a prompt that any slot's record has. -/
def longestPrefix (w : World Λ σ) (e : BatchEngine Λ σ) (prompt : List Token) : Nat :=
  if w.track then
    (e.slots.map fun s => commonPrefixLen s.cachedTokens prompt).foldr max 0
  else 0

/-- The least a group is left to feed: each prompt less what any record has of
it. -/
def leastFed (w : World Λ σ) (e : BatchEngine Λ σ)
    (placed : List (Nat × Job σ × Nat)) : Nat :=
  (placed.map fun p =>
    (prefillSpan p.2.1.inputIds.length (e.longestPrefix w p.2.1.inputIds)).2).sum

/-- Every member of a group has the cells it wants, and room for its prompt. -/
def Housed (e : BatchEngine Λ σ) (placed : List (Nat × Job σ × Nat)) : Prop :=
  ∀ p ∈ placed, ¬ e.Wants p.2.2 p.2.1 ∧ p.2.1.inputIds.length ≤ e.capOf p.2.2

/-- What the records decide of a slot: its tokens, and its cells. -/
def record (slot : SlotState Λ σ) : List Token × Nat := (slot.cachedTokens, slot.cap)

/-- A slot's record is as it was. -/
def Recorded (idx : Nat) (e e' : BatchEngine Λ σ) : Prop :=
  (e'.slots[idx]?).map record = (e.slots[idx]?).map record

theorem Recorded.cachedOf {idx : Nat} (h : Recorded idx e e') :
    e'.cachedOf idx = e.cachedOf idx := by
  have htoks := congrArg (Option.map Prod.fst) h
  rw [Option.map_map, Option.map_map] at htoks
  exact congrArg (Option.getD · []) htoks

theorem Recorded.capOf {idx : Nat} (h : Recorded idx e e') :
    e'.capOf idx = e.capOf idx := by
  have hcap := congrArg (Option.map Prod.snd) h
  rw [Option.map_map, Option.map_map] at hcap
  exact congrArg (Option.getD · 0) hcap

theorem Recorded.feedSpan {idx : Nat} (h : Recorded idx e e') (input : List Token) :
    e'.feedSpan w idx input = e.feedSpan w idx input := by
  rw [BatchEngine.feedSpan, BatchEngine.feedSpan, h.cachedOf]

theorem Recorded.wants {idx : Nat} (h : Recorded idx e e')
    (htotal : e'.nCtxTotal = e.nCtxTotal)
    (job : Job σ) : e'.Wants idx job ↔ e.Wants idx job := by
  have hcap := h.capOf
  unfold Wants wantedCells
  rw [htotal, hcap]
  unfold BatchEngine.capOf at hcap
  rw [hcap]

-- ============================ starting

/-- A longer record has no shorter prefix in common. -/
theorem commonPrefixLen_append_le (as bs cs : List Token) :
    commonPrefixLen as cs ≤ commonPrefixLen (as ++ bs) cs := by
  induction as generalizing cs with
  | nil => exact Nat.zero_le _
  | cons a as ih =>
      cases cs with
      | nil => exact Nat.le_refl _
      | cons c cs =>
          rw [List.cons_append, commonPrefixLen, commonPrefixLen]
          split
          · exact Nat.succ_le_succ (ih cs)
          · exact Nat.le_refl _

theorem le_foldr_max {ns : List Nat} {n : Nat} (h : n ∈ ns) : n ≤ ns.foldr max 0 := by
  induction ns with
  | nil => cases h
  | cons m ns ih =>
      rcases List.mem_cons.mp h with rfl | h
      · exact Nat.le_max_left ..
      · exact Nat.le_trans (ih h) (Nat.le_max_right ..)

theorem foldr_max_le {ns : List Nat} {n : Nat} (h : ∀ m ∈ ns, m ≤ n) :
    ns.foldr max 0 ≤ n := by
  induction ns with
  | nil => exact Nat.zero_le n
  | cons m ns ih =>
      exact Nat.max_le.mpr ⟨h m List.mem_cons_self,
        ih fun k hk => h k (List.mem_cons_of_mem m hk)⟩

/-- The more is reused, the later feeding starts. -/
theorem prefillSpan_mono {nt reuse reuse' : Nat} (h : reuse ≤ reuse') :
    (prefillSpan nt reuse).1 ≤ (prefillSpan nt reuse').1 := by
  simp only [prefillSpan]
  omega

/-- A slot's own record is one of them. -/
theorem feedSpan_le_longestPrefix (idx : Nat) (input : List Token) :
    (e.feedSpan w idx input).1
      ≤ (prefillSpan input.length (e.longestPrefix w input)).1 := by
  have hown : (if w.track then commonPrefixLen (e.cachedOf idx) input else 0)
      ≤ e.longestPrefix w input := by
    unfold longestPrefix
    split
    · cases hs : e.slots[idx]? with
      | none =>
          rw [BatchEngine.cachedOf, hs]
          exact Nat.zero_le _
      | some slot =>
          rw [cachedOf_eq hs]
          exact le_foldr_max (List.mem_map_of_mem (List.mem_of_getElem? hs))
    · exact Nat.le_refl 0
  exact prefillSpan_mono hown

/-- The search for a prefix finds no less than the slot's own rows, and no more
than the longest. -/
theorem sharedPrefix_bounds (idx : Nat) (input : List Token) :
    (e.feedSpan w idx input).1
      ≤ (e.sharedPrefix w idx input (e.feedSpan w idx input).1).1
      ∧ (e.sharedPrefix w idx input (e.feedSpan w idx input).1).1
        ≤ (prefillSpan input.length (e.longestPrefix w input)).1 := by
  have hown := feedSpan_le_longestPrefix (e := e) (w := w) idx input
  have husable : (e.feedSpan w idx input).1 ≤ input.length - 1 := Nat.min_le_right ..
  generalize (e.feedSpan w idx input).1 = own at hown husable
  unfold sharedPrefix
  split
  next hoff => exact ⟨Nat.le_of_eq hoff.1, Nat.zero_le _⟩
  next hon =>
    -- without tracking there is nothing of its own to start from
    have htrack : w.track = true := by
      by_contra hoff
      simp only [longestPrefix, hoff, if_false] at hown
      have hzero : own ≤ min 0 (input.length - 1) := hown
      exact hon ⟨by omega, by simpa using hoff⟩
    simp only
    refine List.foldlRecOn
      (motive := fun best : Nat × Option Nat => own ≤ best.1
        ∧ best.1 ≤ (prefillSpan input.length (e.longestPrefix w input)).1) _ _ ?_ ?_
    · exact ⟨Nat.le_min.mpr ⟨Nat.le_refl own, husable⟩,
        Nat.le_trans (Nat.min_le_left ..) hown⟩
    · rintro best hbest ⟨slot, j⟩ hmem
      have hslot : slot ∈ e.slots :=
        List.mem_of_getElem? (List.mem_zipIdx_iff_getElem?.mp hmem)
      simp only
      split
      · exact hbest
      · split
        next hmore =>
          refine ⟨Nat.le_trans hbest.1 (Nat.le_of_lt hmore), prefillSpan_mono ?_⟩
          unfold longestPrefix
          rw [if_pos htrack]
          exact le_foldr_max (List.mem_map_of_mem hslot)
        · exact hbest

/-- A copied prefix starts where it was asked to or at the slot's own rows; it
changes the one slot's record, into the start of another's. -/
theorem copyPrefixFrom_cases (src idx rows own : Nat) :
    ((e.copyPrefixFrom w src idx rows own).1 = rows
        ∨ (e.copyPrefixFrom w src idx rows own).1 = own)
      ∧ (e.copyPrefixFrom w src idx rows own).2.nCtxTotal = e.nCtxTotal
      ∧ ((e.copyPrefixFrom w src idx rows own).2.slots = e.slots
        ∨ ∃ slot other, e.slots[idx]? = some slot ∧ other ∈ e.slots
          ∧ (e.copyPrefixFrom w src idx rows own).2.slots
            = e.slots.set idx
              { slot with cachedTokens := other.cachedTokens.take rows }) := by
  unfold copyPrefixFrom
  split
  next other slot hsrc hs =>
    extract_lets done
    by_cases hdone : done.1 = true
    · rw [if_pos hdone]
      exact ⟨.inl rfl, rfl, .inr ⟨slot, other, hs, List.mem_of_getElem? hsrc, rfl⟩⟩
    · rw [if_neg hdone]
      exact ⟨.inr rfl, rfl, .inl rfl⟩
  · exact ⟨.inr rfl, rfl, .inl rfl⟩

/-- What looking for a start does: it lies between the slot's own rows and the
longest prefix, and the one slot's record may become the start of another's. -/
structure Begun (w : World Λ σ) (idx : Nat) (input : List Token)
    (e : BatchEngine Λ σ) (out : Nat × BatchEngine Λ σ) : Prop where
  own : (e.feedSpan w idx input).1 ≤ out.1
  longest : out.1 ≤ (prefillSpan input.length (e.longestPrefix w input)).1
  total : out.2.nCtxTotal = e.nCtxTotal
  slots : out.2.slots = e.slots
    ∨ ∃ slot other rows, e.slots[idx]? = some slot ∧ other ∈ e.slots
      ∧ out.2.slots
        = e.slots.set idx
        { slot with cachedTokens := other.cachedTokens.take rows }

theorem begun_startFrom (idx : Nat) (input : List Token) :
    Begun w idx input e (e.startFrom w idx input) := by
  obtain ⟨hown, hlongest⟩ := sharedPrefix_bounds (e := e) (w := w) idx input
  unfold startFrom
  simp only
  split
  next wantRows src hshared =>
    rw [hshared] at hown hlongest
    obtain ⟨hrows, htotal, hslots⟩ :=
      copyPrefixFrom_cases (e := e) (w := w) src idx wantRows
        (e.feedSpan w idx input).1
    refine ⟨?_, ?_, htotal, hslots.imp_right ?_⟩
    · rcases hrows with h | h
      · rw [h]
        exact hown
      · exact Nat.le_of_eq h.symm
    · rcases hrows with h | h
      · rw [h]
        exact hlongest
      · rw [h]
        exact feedSpan_le_longestPrefix idx input
    · rintro ⟨slot, other, hs, hother, hset⟩
      exact ⟨slot, other, wantRows, hs, hother, hset⟩
  next wantRows hshared =>
    rw [hshared] at hown hlongest
    exact ⟨hown, hlongest, rfl, .inl rfl⟩

variable {idx : Nat} {input : List Token} {out : Nat × BatchEngine Λ σ}

/-- Another slot's record stays. -/
theorem Begun.recorded (h : Begun w idx input e out) {j : Nat} (hne : idx ≠ j) :
    Recorded j e out.2 := by
  unfold Recorded
  rcases h.slots with hslots | ⟨slot, other, rows, -, -, hslots⟩
  · rw [hslots]
  · rw [hslots, List.getElem?_set_ne hne]

/-- Every slot keeps its cells. -/
theorem Begun.capOf (h : Begun w idx input e out) (j : Nat) :
    out.2.capOf j = e.capOf j := by
  unfold BatchEngine.capOf
  rcases h.slots with hslots | ⟨slot, other, rows, hs, -, hslots⟩
  · rw [hslots]
  · by_cases hj : idx = j
    · subst hj
      rw [hslots, List.getElem?_set_self (List.getElem?_eq_some_iff.mp hs).1, hs]
      rfl
    · rw [hslots, List.getElem?_set_ne hj]

/-- What a request wants is not affected. -/
theorem Begun.wants (h : Begun w idx input e out) (j : Nat) (job : Job σ) :
    out.2.Wants j job ↔ e.Wants j job := by
  have hcap := h.capOf j
  unfold Wants wantedCells
  rw [h.total, hcap]
  unfold BatchEngine.capOf at hcap
  rw [hcap]

/-- No record comes to hold more of a prompt than one of them did. -/
theorem Begun.longestPrefix_le (h : Begun w idx input e out) (prompt : List Token) :
    out.2.longestPrefix w prompt ≤ e.longestPrefix w prompt := by
  unfold longestPrefix
  split
  · refine foldr_max_le fun n hn => ?_
    obtain ⟨slot, hslot, rfl⟩ := List.mem_map.mp hn
    have hkept (slot : SlotState Λ σ) (hslot : slot ∈ e.slots) :
        commonPrefixLen slot.cachedTokens prompt
          ≤ (e.slots.map fun s => commonPrefixLen s.cachedTokens prompt).foldr
            max 0 :=
      le_foldr_max (List.mem_map_of_mem hslot)
    rcases h.slots with hslots | ⟨own, other, rows, -, hother, hslots⟩
    · rw [hslots] at hslot
      exact hkept slot hslot
    · rw [hslots] at hslot
      rcases List.mem_or_eq_of_mem_set hslot with hslot | rfl
      · exact hkept slot hslot
      · have hle := commonPrefixLen_append_le (other.cachedTokens.take rows)
          (other.cachedTokens.drop rows) prompt
        rw [List.take_append_drop] at hle
        exact Nat.le_trans hle (hkept other hother)
  · exact Nat.le_refl 0

-- ============================ capacity

/-- A slot with the cells it wants is left alone. -/
theorem ensureSlotCapacity_still {want : Nat}
    (h : ¬ e.capOf idx < min want e.nCtxTotal) :
    e.ensureSlotCapacity w idx want = e := by
  unfold ensureSlotCapacity
  unfold BatchEngine.capOf at h
  cases hs : e.slots[idx]? with
  | none => rfl
  | some slot =>
      rw [hs] at h
      exact if_pos (.inr (Nat.le_of_not_lt h))

/-- A slot without cells gets its first ones from the arena: the other slots
keep theirs, and their records. -/
theorem ensureSlotCapacity_scratch {want : Nat} (h : e.capOf idx = 0) :
    (e.ensureSlotCapacity w idx want).nCtxTotal = e.nCtxTotal
      ∧ ∀ j, idx ≠ j → Recorded j e (e.ensureSlotCapacity w idx want) := by
  unfold ensureSlotCapacity
  unfold BatchEngine.capOf at h
  cases hs : e.slots[idx]? with
  | none => exact ⟨rfl, fun j _ => rfl⟩
  | some slot =>
      rw [hs] at h
      have hzero : slot.cap = 0 := h
      simp only [hzero, if_true]
      split
      · exact ⟨rfl, fun j _ => rfl⟩
      · cases e.cache.kvReserveSeqWithDefrag w.kvEnv slot.seq
            (min want e.nCtxTotal) with
        | mk r c =>
        cases r with
        | error err => exact ⟨rfl, fun j _ => rfl⟩
        | ok granted =>
            refine ⟨rfl, fun j hne => ?_⟩
            obtain ⟨f, hf⟩ := applyRunMoves_eq (Λ := Λ) (σ := σ) granted.2
            show ((applyRunMoves e.slots granted.2).set idx _)[j]?.map record = _
            rw [hf, List.getElem?_set_ne hne, List.getElem?_map, Option.map_map]
            rfl

-- ============================== groups

/-- The suffixes of a group that is combined may exceed the cap: the sum the
decision reads is within it, and what the records leave to feed is not. -/
def Overfull (w : World Λ σ) (e : BatchEngine Λ σ) (jobs : List (Job σ)) : Prop :=
  Grouped w e (e.placedJobs w jobs)
    ∧ groupCap e.nBatch < e.mostFed w false (e.placedJobs w jobs)

/-- They do exceed it: no record leaves less to feed, and nothing stands in the
way of the forward. -/
def Overfed (w : World Λ σ) (e : BatchEngine Λ σ) (jobs : List (Job σ)) : Prop :=
  Grouped w e (e.placedJobs w jobs) ∧ e.Housed (e.placedJobs w jobs)
    ∧ groupCap e.nBatch < e.leastFed w (e.placedJobs w jobs)

/-- The entries of one member. -/
theorem length_member (b : Batch) (seq : SeqId) (job : Job σ) (start : Nat) :
    (b.tokens ++ (spanBatch seq job.inputIds
      (start, job.inputIds.length)).tokens).length
      = b.tokens.length + (job.inputIds.length - start) := by
  rw [List.length_append, spanBatch_tokens_length (Nat.le_refl _)]

/-- The combined batch carries at most what the records leave to feed. The
induction is on the members: until one of them takes slots back, the members to
come have the records they had. -/
theorem groupBatch_le {e₀ : BatchEngine Λ σ} :
    ∀ {placed : List (Nat × Job σ × Nat)} {lost : Bool} {e : BatchEngine Λ σ}
      {b b' : Batch},
      (placed.map (·.2.2)).Nodup →
      (lost = false → e.nCtxTotal = e₀.nCtxTotal
        ∧ ∀ p ∈ placed, Recorded p.2.2 e₀ e) →
      e.groupBatch w placed b = (.ok b', e') →
      b'.tokens.length ≤ b.tokens.length + e₀.mostFed w lost placed := by
  intro placed
  induction placed with
  | nil =>
      intro lost e b b' _ _ h
      cases h
      exact Nat.le_refl _
  | cons p rest ih =>
      intro lost e b b' hnd hsame h
      obtain ⟨i, job, idx⟩ := p
      obtain ⟨hout, hnd'⟩ := List.nodup_cons.mp hnd
      have hne (q : Nat × Job σ × Nat) (hq : q ∈ rest) : idx ≠ q.2.2 := fun heq =>
        hout (List.mem_map.mpr ⟨q, hq, heq.symm⟩)
      have hbegun := begun_startFrom (e := e) (w := w) idx job.inputIds
      rw [groupBatch] at h
      rw [mostFed]
      simp only at h
      generalize e.startFrom w idx job.inputIds = started at h hbegun
      obtain ⟨e₁, he₁⟩ : ∃ e₁, e₁ = started.2.ensureSlotCapacity w idx
        (started.2.wantedCells idx job.inputIds.length job.params.maxTokens) :=
          ⟨_, rfl⟩
      rw [← he₁] at h
      split at h
      · cases h
      -- the member feeds no more than its record leaves
      have hfed : job.inputIds.length - started.1
          ≤ if lost then job.inputIds.length
            else (e₀.feedSpan w idx job.inputIds).2 := by
        split
        · exact Nat.sub_le ..
        next hlost =>
          obtain ⟨-, hrec⟩ := hsame (by simpa using hlost)
          rw [← (hrec _ List.mem_cons_self).feedSpan]
          exact Nat.sub_le_sub_left hbegun.own _
      -- and the records of those to come stay, unless it takes slots back
      have hnext : (lost || decide (e₀.TakesBack idx job)) = false →
          e₁.nCtxTotal = e₀.nCtxTotal ∧ ∀ q ∈ rest, Recorded q.2.2 e₀ e₁ := by
        intro hkept
        obtain ⟨hlost, hback⟩ := Bool.or_eq_false_iff.mp hkept
        obtain ⟨htotal, hrec⟩ := hsame hlost
        have hown : Recorded idx e₀ e := hrec _ List.mem_cons_self
        have hrest (q : Nat × Job σ × Nat) (hq : q ∈ rest) :
            Recorded q.2.2 e₀ started.2 :=
          (hbegun.recorded (hne q hq)).trans (hrec q (List.mem_cons_of_mem _ hq))
        have hnot := of_decide_eq_false hback
        by_cases hwants : e₀.Wants idx job
        · have hzero : started.2.capOf idx = 0 := by
            rw [hbegun.capOf, hown.capOf]
            exact Nat.eq_zero_of_not_pos fun hpos => hnot ⟨Nat.ne_of_gt hpos, hwants⟩
          obtain ⟨htotal₁, hrec₁⟩ := ensureSlotCapacity_scratch (w := w) hzero
          rw [he₁]
          exact ⟨htotal₁.trans (hbegun.total.trans htotal), fun q hq =>
            (hrec₁ _ (hne q hq)).trans (hrest q hq)⟩
        · have hstill : ¬ started.2.Wants idx job := fun h =>
            hwants ((hown.wants htotal job).mp ((hbegun.wants idx job).mp h))
          rw [he₁, ensureSlotCapacity_still hstill]
          exact ⟨hbegun.total.trans htotal, hrest⟩
      have hle := ih hnd' hnext h
      rw [length_member] at hle
      omega

/-- Where every member is housed, the batch is made and carries at least what
no record has. -/
theorem le_groupBatch {e₀ : BatchEngine Λ σ} :
    ∀ {placed : List (Nat × Job σ × Nat)} {e : BatchEngine Λ σ} {b : Batch},
      e.Housed placed →
        (∀ prompt, e.longestPrefix w prompt ≤ e₀.longestPrefix w prompt) →
      ∃ b' e', e.groupBatch w placed b = (.ok b', e')
        ∧ b.tokens.length + e₀.leastFed w placed ≤ b'.tokens.length := by
  intro placed
  induction placed with
  | nil => exact fun {e b} _ _ => ⟨b, e, rfl, Nat.le_refl _⟩
  | cons p rest ih =>
      intro e b hhoused hlongest
      obtain ⟨i, job, idx⟩ := p
      have hbegun := begun_startFrom (e := e) (w := w) idx job.inputIds
      rw [groupBatch, leastFed, List.map_cons, List.sum_cons, ← leastFed]
      simp only
      generalize e.startFrom w idx job.inputIds = started at hbegun ⊢
      obtain ⟨hwants, hroom⟩ := hhoused _ List.mem_cons_self
      have hstill : started.2.ensureSlotCapacity w idx
          (started.2.wantedCells idx job.inputIds.length job.params.maxTokens)
              = started.2 :=
        ensureSlotCapacity_still fun h => hwants ((hbegun.wants idx job).mp h)
      have hfits : ¬ job.inputIds.length
          > (started.2.slots[idx]?.map (·.cap)).getD 0 := by
        have hcap := hbegun.capOf idx
        unfold BatchEngine.capOf at hcap hroom
        rw [hcap]
        exact Nat.not_lt.mpr hroom
      rw [hstill, if_neg hfits]
      have hhoused' : started.2.Housed rest := fun q hq => by
        obtain ⟨hw, hr⟩ := hhoused q (List.mem_cons_of_mem _ hq)
        exact ⟨fun h => hw ((hbegun.wants _ _).mp h), by rwa [hbegun.capOf]⟩
      obtain ⟨b', e', hb', hlen⟩ := ih hhoused' fun prompt =>
        Nat.le_trans (hbegun.longestPrefix_le prompt) (hlongest prompt)
      refine ⟨b', e', hb', ?_⟩
      rw [length_member] at hlen
      have hstart : started.1
          ≤ (prefillSpan job.inputIds.length (e₀.longestPrefix w job.inputIds)).1 :=
        Nat.le_trans hbegun.longest (prefillSpan_mono (hlongest job.inputIds))
      have hfed : (prefillSpan job.inputIds.length
          (e₀.longestPrefix w job.inputIds)).2
          ≤ job.inputIds.length - started.1 := Nat.sub_le_sub_left hstart _
      omega

/-- Placement only answers the jobs it has no slot for. -/
theorem placedOn_slots (w : World Λ σ) (e : BatchEngine Λ σ) (jobs : List (Job σ)) :
    (e.placedOn w jobs).slots = e.slots :=
  (place_spec w jobs e _ 0).1

theorem placedOn_nBatch (w : World Λ σ) (e : BatchEngine Λ σ) (jobs : List (Job σ)) :
    (e.placedOn w jobs).nBatch = e.nBatch :=
  (Prod.mk.inj (counters_place w jobs e _ 0)).1

theorem placedOn_nCtxTotal (w : World Λ σ) (e : BatchEngine Λ σ)
    (jobs : List (Job σ)) :
    (e.placedOn w jobs).nCtxTotal = e.nCtxTotal :=
  place_nCtxTotal w jobs e _ 0

/-- The decision is the same before the refusals and after them. -/
theorem grouped_placedOn (w : World Λ σ) (e : BatchEngine Λ σ) (jobs : List (Job σ)) :
    Grouped w (e.placedOn w jobs) (e.placedJobs w jobs)
      ↔ Grouped w e (e.placedJobs w jobs) := by
  have hspan (p : Nat × Job σ × Nat) :
      (e.placedOn w jobs).feedSpan w p.2.2 p.2.1.inputIds
          = e.feedSpan w p.2.2 p.2.1.inputIds := by
    rw [feedSpan, feedSpan, cachedOf, cachedOf, placedOn_slots]
  unfold Grouped
  simp only [hspan, placedOn_nBatch]

/-- **A prefill forward carries at most what is configured**, unless the
admission combines a group whose records leave it more to feed; and where they
leave it more whichever of them it uses, one forward carries more. -/
theorem prefill_forwards_bounded (w : World Λ σ) (seam : TickSeam)
    (e : BatchEngine Λ σ) (jobs : List (Job σ)) :
    (¬ e.Overfull w jobs → ∀ f ∈ e.admitForwards w seam jobs, f.Within e.nBatch)
      ∧ (e.Overfed w jobs → ¬ ∀ f ∈ e.admitForwards w seam jobs,
        f.Within e.nBatch) := by
  have hslots := placedOn_slots w e jobs
  have htotal := placedOn_nCtxTotal w e jobs
  constructor
  · intro hfull
    by_cases hgroup : Grouped w e (e.placedJobs w jobs)
    · rw [admitForwards_grouped ((grouped_placedOn w e jobs).mpr hgroup)]
      intro f hf
      unfold groupForwards at hf
      split at hf
      · cases hf
      next b e' hb =>
        obtain rfl := List.mem_singleton.mp hf
        have hnd := (place_spec w jobs e (e.slots.map (·.run.isSome)) 0).2.2.2
        have hle : b.tokens.length ≤ 0 + e.mostFed w false (e.placedJobs w jobs) :=
          groupBatch_le hnd
            (fun _ => ⟨htotal, fun p _ => by rw [Recorded, hslots]⟩) hb
        rw [Nat.zero_add] at hle
        exact Nat.le_trans hle (Nat.le_of_not_lt fun hlt => hfull ⟨hgroup, hlt⟩)
    · rw [admitForwards_alone (mt (grouped_placedOn w e jobs).mp hgroup),
        ← placedOn_nBatch w e jobs]
      exact within_submitAllForwards
  · rintro ⟨hgroup, hhoused, hlt⟩ hall
    have hhoused' : (e.placedOn w jobs).Housed (e.placedJobs w jobs) := by
      intro p hp
      have hrec : Recorded p.2.2 e (e.placedOn w jobs) := by rw [Recorded, hslots]
      obtain ⟨hwants, hroom⟩ := hhoused p hp
      exact ⟨fun h => hwants ((hrec.wants htotal p.2.1).mp h), by rwa [hrec.capOf]⟩
    obtain ⟨b, e', hb, hlen⟩ :
        ∃ b e', (e.placedOn w jobs).groupBatch w (e.placedJobs w jobs)
          ⟨[], [], []⟩ = (.ok b, e')
          ∧ 0 + e.leastFed w (e.placedJobs w jobs) ≤ b.tokens.length :=
      le_groupBatch hhoused'
        fun prompt => Nat.le_of_eq (by rw [longestPrefix, hslots, longestPrefix])
    rw [Nat.zero_add] at hlen
    rw [admitForwards_grouped ((grouped_placedOn w e jobs).mpr hgroup),
      groupForwards, hb] at hall
    have hle : b.tokens.length ≤ groupCap e.nBatch :=
      hall (.group b) (List.mem_singleton_self _)
    omega

/-- Where every member is housed and no slot has more of a prompt than its own,
the two conditions are one. -/
theorem overfull_iff_overfed {jobs : List (Job σ)}
    (hhoused : e.Housed (e.placedJobs w jobs))
    (hown : ∀ p ∈ e.placedJobs w jobs, (e.feedSpan w p.2.2 p.2.1.inputIds).1
      = (prefillSpan p.2.1.inputIds.length (e.longestPrefix w p.2.1.inputIds)).1) :
    e.Overfull w jobs ↔ e.Overfed w jobs := by
  have hsum : ∀ placed : List (Nat × Job σ × Nat), e.Housed placed →
      (∀ p ∈ placed, (e.feedSpan w p.2.2 p.2.1.inputIds).1
        = (prefillSpan p.2.1.inputIds.length (e.longestPrefix w p.2.1.inputIds)).1) →
      e.mostFed w false placed = e.leastFed w placed := by
    intro placed
    induction placed with
    | nil => exact fun _ _ => rfl
    | cons p rest ih =>
        intro hhoused hown
        have hback : ¬ e.TakesBack p.2.2 p.2.1 :=
          fun h => (hhoused p List.mem_cons_self).1 h.2
        have hlen : (e.feedSpan w p.2.2 p.2.1.inputIds).2
            = (prefillSpan p.2.1.inputIds.length
              (e.longestPrefix w p.2.1.inputIds)).2 :=
          congrArg (p.2.1.inputIds.length - ·) (hown p List.mem_cons_self)
        rw [leastFed, List.map_cons, List.sum_cons, ← leastFed, ← hlen,
          ← ih (fun q hq => hhoused q (List.mem_cons_of_mem p hq))
            fun q hq => hown q (List.mem_cons_of_mem p hq)]
        rw [mostFed, decide_eq_false hback]
        rfl
  unfold Overfull Overfed
  rw [hsum _ hhoused hown]
  exact and_congr_right fun _ => (and_iff_right hhoused).symm

/-- Two slots of four cells, fed three tokens at a time. -/
def chunked : BatchEngine (List Token) Unit :=
  match BatchEngine.new counting (blankArena 8) 2 8 3 with
  | .ok e => e
  | .error _ => ⟨blankArena 8, 8, [], 3, 0, 0, 0, []⟩

set_option maxRecDepth 8000 in
/-- Two fresh prompts of three tokens: feeding starts at 0 for both, and the
combined forward carries six. -/
theorem fresh_prompts_exceed_chunk :
    BatchEngine.new counting (blankArena 8) 2 8 3 = .ok chunked
      ∧ chunked.admitForwards counting .off [asks 0 [1, 2, 3], asks 1 [4, 5, 6]]
        = [.group ⟨[1, 2, 3, 4, 5, 6], [0, 1, 2, 0, 1, 2], [1, 1, 1, 2, 2, 2]⟩]
      ∧ ¬ ∀ f ∈ chunked.admitForwards counting .off
          [asks 0 [1, 2, 3], asks 1 [4, 5, 6]],
          f.Within chunked.nBatch := by
  have hnew : BatchEngine.new counting (blankArena 8) 2 8 3 = .ok chunked := by
    have hok : (BatchEngine.new counting (blankArena 8) 2 8 3).isOk
      = true := by decide +kernel
    unfold chunked
    cases h : BatchEngine.new counting (blankArena 8) 2 8 3 with
    | ok e => rfl
    | error err =>
        rw [h] at hok
        cases hok
  have htrace : chunked.admitForwards counting .off
      [asks 0 [1, 2, 3], asks 1 [4, 5, 6]]
      = [.group ⟨[1, 2, 3, 4, 5, 6], [0, 1, 2, 0, 1, 2],
        [1, 1, 1, 2, 2, 2]⟩] := by decide +kernel
  have hchunk : chunked.nBatch = 3 := by decide +kernel
  refine ⟨hnew, htrace, fun hall => ?_⟩
  rw [htrace, hchunk] at hall
  have hle : 6 ≤ groupCap 3 := hall _ List.mem_cons_self
  exact absurd hle (by decide)

end BatchEngine
end Minfer.Server
