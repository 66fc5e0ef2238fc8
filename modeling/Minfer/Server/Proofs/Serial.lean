/-
The serial worker's record of its KV rows (`server/chat.rs`).

`generate_seq` writes rows in two places. A decode step writes the row
right after the record and records the token once the row is there, so
every way out of the loop leaves a true record. The prefill overwrites
rows the record still names; the record is replaced only when the forward
succeeded, and an error return keeps the old one.
-/
import Minfer.Server.Chat
import Minfer.Server.Proofs.Admission

namespace Minfer.Server

open Minfer.Graph (KvCache KvEnv SeqId Batch)
open Minfer.Graph.KvCache (Keeps Solo Steady)

variable {Λ σ : Type}

-- ============================= batches

theorem square_single {tokens : List Token} {positions : List Nat}
    (h : positions.length = tokens.length) : Square (Batch.single tokens positions) :=
  ⟨List.length_replicate.symm, h.trans List.length_replicate.symm⟩

/-- A single-sequence batch feeds its one sequence. -/
theorem fed_single (tokens : List Token) (positions : List Nat) :
    fed (Batch.single tokens positions) seqMain = positions.zip tokens := by
  have hfed :=
      filterMap_replicate_zip seqMain seqMain
      (positions.zip tokens) tokens.length (by
    rw [List.length_zip]
    exact Nat.min_le_right ..)
  rw [if_pos rfl] at hfed
  exact hfed

namespace Serial

variable {w : SerialWorld Λ σ} {st st' : Serial}

-- ============================ forwards

/-- The slot's record describes its rows. -/
structure Tracked (st : Serial) : Prop where
  solo : st.cache.Solo
  rows : Described st.cache seqMain st.cachedTokens

/-- A forward that succeeded continues what the rows before it hold. -/
theorem guardedForward_ok (hsolo : st.cache.Solo) {h tokens : List Token}
    (hd : Described st.cache seqMain h) {logits : List Token → Λ}
    (hf : st.guardedForward w tokens (List.range' h.length tokens.length)
      = (.ok logits, st')) :
    st'.cache.Solo ∧ Described st'.cache seqMain (h ++ tokens)
      ∧ st'.cachedTokens = st.cachedTokens := by
  unfold guardedForward at hf
  split at hf
  · cases hf
  next logits' c hfwd =>
    cases hf
    have hlen : (List.range' h.length tokens.length).length = tokens.length :=
      List.length_range'
    obtain ⟨-, hsolo', hdesc, -⟩ :=
      forwardOn_ok hsolo (square_single hlen).tokens hfwd
    have hzip : ((List.range' h.length tokens.length).zip tokens).length
        = tokens.length := by
      rw [List.length_zip, hlen, Nat.min_self]
    have hext := hdesc seqMain h hd
    rw [fed_single, hzip, List.map_fst_zip (Nat.le_of_eq hlen),
      List.map_snd_zip (Nat.le_of_eq hlen.symm)] at hext
    exact ⟨hsolo', hext rfl, rfl⟩

/-- A forward that failed keeps what its stores agree with. -/
theorem guardedForward_error (hsolo : st.cache.Solo) {tokens : List Token}
    {positions : List Nat} {e : ApiError}
    (hf : st.guardedForward w tokens positions = (.error e, st')) :
    st'.cache.Solo ∧ st'.cachedTokens = st.cachedTokens
      ∧ ∀ h, Described st.cache seqMain h →
        Harmless w.toWorld st.forwards st.cache
          (Batch.single tokens positions) seqMain h →
        Described st'.cache seqMain h := by
  unfold guardedForward at hf
  split at hf
  next msg c hfwd =>
    cases hf
    obtain ⟨hsolo', hdesc⟩ := forwardOn_error hsolo hfwd
    exact ⟨hsolo', rfl, hdesc seqMain⟩
  · cases hf

/-- An event changes neither the arena nor the record. -/
theorem emit_frame (st : Serial) (job : Nat) (bytes : List UInt8) :
    (st.emit w job bytes).2.cache = st.cache
      ∧ (st.emit w job bytes).2.cachedTokens = st.cachedTokens := by
  unfold emit
  split
  · exact ⟨rfl, rfl⟩
  · unfold send
    cases w.sendOk st.sends
    · exact ⟨rfl, rfl⟩
    · exact ⟨rfl, rfl⟩

theorem Tracked.emit (ht : st.Tracked) {job : Nat} {bytes : List UInt8}
    {r : Except ApiError Unit} (h : st.emit w job bytes = (r, st')) :
    st'.Tracked ∧ st'.cachedTokens = st.cachedTokens := by
  obtain ⟨hcache, hcached⟩ := emit_frame (w := w) st job bytes
  rw [h] at hcache hcached
  simp only at hcache hcached
  refine ⟨⟨?_, ?_⟩, hcached⟩
  · rw [hcache]
    exact ht.solo
  · rw [hcache, hcached]
    exact ht.rows

-- ============================ the loop

/-- While a request decodes, its position is the end of the record; without
prefix reuse there is no record. -/
structure Decoding (w : SerialWorld Λ σ) (st : Serial) (run : Run Λ σ) : Prop where
  tracked : st.Tracked
  pos : w.track = true → run.currentPos = st.cachedTokens.length
  off : w.track = false → st.cachedTokens = []

/-- A true record, or none at all when records are not kept. -/
structure Kept (w : SerialWorld Λ σ) (st : Serial) : Prop where
  tracked : st.Tracked
  off : w.track = false → st.cachedTokens = []

theorem Decoding.kept {run : Run Λ σ} (h : Decoding w st run) : Kept w st :=
  ⟨h.tracked, h.off⟩

/-- A decode step's forward: on success the token is recorded, on failure the
row it may have written lies past the record. -/
theorem Decoding.forward {run : Run Λ σ} (hdec : Decoding w st run)
    {tok : Token} {r : Except ApiError (List Token → Λ)}
    (hf : st.guardedForward w [tok] [run.currentPos] = (r, st')) :
    (∀ e, r = .error e → Kept w st') ∧ ∀ logits, r = .ok logits → ∀ run' : Run Λ σ,
      run'.currentPos = run.currentPos + 1 →
      Decoding w (if w.track
        then { st' with cachedTokens := st'.cachedTokens ++ [tok] } else st')
        run' := by
  constructor
  · rintro e rfl
    obtain ⟨hsolo, hcached, hdesc⟩ := guardedForward_error hdec.tracked.solo hf
    refine ⟨⟨hsolo, ?_⟩, fun hoff => hcached.trans (hdec.off hoff)⟩
    rw [hcached]
    refine hdesc _ hdec.tracked.rows fun k row p _ _ hk hlt => ?_
    -- the one position of the batch is not below the record's end
    have hpos : p = run.currentPos := List.mem_singleton.mp (List.mem_of_getElem? hk)
    cases htrack : w.track with
    | true =>
        rw [hpos, hdec.pos htrack] at hlt
        exact absurd hlt (Nat.lt_irrefl _)
    | false =>
        rw [hdec.off htrack] at hlt
        exact absurd hlt (Nat.not_lt_zero p)
  · rintro logits rfl run' hrun'
    cases htrack : w.track with
    | true =>
        rw [hdec.pos htrack] at hf hrun'
        obtain ⟨hsolo, hrows, hcached⟩ :=
          guardedForward_ok hdec.tracked.solo hdec.tracked.rows hf
        refine ⟨⟨hsolo, ?_⟩, fun _ => ?_, fun hoff => ?_⟩
        · show Described st'.cache seqMain (st'.cachedTokens ++ [tok])
          rw [hcached]
          exact hrows
        · show run'.currentPos = (st'.cachedTokens ++ [tok]).length
          rw [hrun', hcached, List.length_append]
          rfl
        · rw [htrack] at hoff
          cases hoff
    | false =>
        -- no record: the arena alone has to stay sound
        unfold guardedForward at hf
        split at hf
        · cases hf
        next logits' c hfwd =>
          cases hf
          obtain ⟨-, hsolo, -⟩ :=
            forwardOn_ok hdec.tracked.solo (square_single (by rfl)).tokens hfwd
          have hnil := hdec.off htrack
          refine ⟨⟨hsolo, ?_⟩, fun hon => ?_, fun _ => hnil⟩
          · show Described c seqMain st.cachedTokens
            rw [hnil]
            exact .nil _ _
          · rw [htrack] at hon
            cases hon

/-- However the loop is left, the record is true. -/
theorem Decoding.generateLoop {nCtxSlot : Nat} :
    ∀ {room : Nat} {st st' : Serial} {run : Run Λ σ} {r : Except Halt (Left Λ σ)},
      Decoding w st run →
        Serial.generateLoop w nCtxSlot room st run = (r, st') →
        Kept w st' := by
  intro room
  induction room with
  | zero =>
      intro st st' run r hdec h
      cases h
      exact hdec.kept
  | succ room ih =>
      intro st st' run r hdec h
      unfold Serial.generateLoop at h
      split at h
      · cases h
        exact hdec.kept
      split at h
      · cases h
        exact hdec.kept
      split at h
      · cases h
        exact ⟨⟨hdec.tracked.solo, hdec.tracked.rows⟩, hdec.off⟩
      simp only at h
      have htracked : Tracked { st with samples := st.samples + 1 } :=
        ⟨hdec.tracked.solo, hdec.tracked.rows⟩
      split at h
      · cases h
        exact ⟨htracked, hdec.off⟩
      split at h
      · cases h
        exact ⟨htracked, hdec.off⟩
      split at h
      next cut _ =>
        -- ended by a stop string
        split at h
        next e st₁ hemit =>
          cases h
          obtain ⟨ht, hcached⟩ := htracked.emit hemit
          exact ⟨ht, fun hoff => hcached.trans (hdec.off hoff)⟩
        next st₁ hemit =>
          cases h
          obtain ⟨ht, hcached⟩ := htracked.emit hemit
          exact ⟨ht, fun hoff => hcached.trans (hdec.off hoff)⟩
      next =>
        split at h
        next e st₁ hemit =>
          cases h
          obtain ⟨ht, hcached⟩ := htracked.emit hemit
          exact ⟨ht, fun hoff => hcached.trans (hdec.off hoff)⟩
        next st₁ hemit =>
          obtain ⟨ht, hcached⟩ := htracked.emit hemit
          have hdec₁ : Decoding w st₁ run :=
            ⟨ht, fun hon => (hdec.pos hon).trans (by rw [hcached]),
              fun hoff => hcached.trans (hdec.off hoff)⟩
          split at h
          next e st₂ hf =>
            cases h
            exact (hdec₁.forward hf).1 e rfl
          next logits st₂ hf =>
            exact ih ((hdec₁.forward hf).2 logits rfl _ rfl) h

-- ============================ the jobs

/-- A prefill that fails writes no row of the slot's record otherwise. -/
def PrefillHarmless (w : SerialWorld Λ σ) (st : Serial) (job : Job σ) : Prop :=
  Harmless w.toWorld st.forwards st.cache (st.prefillBatch w job.inputIds) seqMain
    st.cachedTokens

theorem feedFrom_le (st : Serial) (inputIds : List Token) :
    st.feedFrom w inputIds ≤ inputIds.length - 1
      ∧ st.feedFrom w inputIds ≤ st.cachedTokens.length
      ∧ st.cachedTokens.take (st.feedFrom w inputIds)
        = inputIds.take (st.feedFrom w inputIds) := by
  have hle := commonPrefixLen_le_left st.cachedTokens inputIds
  unfold feedFrom prefillSpan
  cases w.track with
  | true =>
      rw [if_pos rfl]
      simp only
      exact ⟨Nat.min_le_right .., Nat.le_trans (Nat.min_le_left ..) hle,
        take_of_le_commonPrefixLen (Nat.min_le_left ..)⟩
  | false => simp

/-- One request: whatever happens after its prefill, the record is true. -/
theorem Kept.generateSeq {nCtxSlot : Nat} (hk : Kept w st) {job : Job σ}
    (hsafe : PrefillHarmless w st job) {r : Except Halt Unit}
    (h : st.generateSeq w nCtxSlot job = (r, st')) : Kept w st' := by
  unfold Serial.generateSeq at h
  split at h
  · cases h
    exact hk
  split at h
  · cases h
    exact hk
  simp only at h
  obtain ⟨hlt, hlen, hpre⟩ := feedFrom_le (w := w) st job.inputIds
  split at h
  next e st₁ hf =>
    cases h
    obtain ⟨hsolo, hcached, hdesc⟩ := guardedForward_error hk.tracked.solo hf
    refine ⟨⟨hsolo, ?_⟩, fun hoff => hcached.trans (hk.off hoff)⟩
    rw [hcached]
    exact hdesc _ hk.tracked.rows hsafe
  next logits st₁ hf =>
    have hreused := hk.tracked.rows.take (st.feedFrom w job.inputIds)
    rw [hpre] at hreused
    have hcount : (job.inputIds.take (st.feedFrom w job.inputIds)).length
        = st.feedFrom w job.inputIds := by
      rw [List.length_take]
      omega
    have hfed : (job.inputIds.drop (st.feedFrom w job.inputIds)).length
        = job.inputIds.length - st.feedFrom w job.inputIds := List.length_drop ..
    have hf' : st.guardedForward w (job.inputIds.drop (st.feedFrom w job.inputIds))
        (List.range' (job.inputIds.take (st.feedFrom w job.inputIds)).length
          (job.inputIds.drop (st.feedFrom w job.inputIds)).length)
              = (.ok logits, st₁) := by
      rw [hcount, hfed]
      exact hf
    obtain ⟨hsolo, hrows, -⟩ := guardedForward_ok hk.tracked.solo hreused hf'
    rw [List.take_append_drop] at hrows
    -- the prompt is in the rows: the record is replaced
    have hdec : Decoding w
        { st₁ with cachedTokens := if w.track then job.inputIds else [] }
        (startRun job (logits job.inputIds)) := by
      refine ⟨⟨hsolo, ?_⟩, fun hon => ?_, fun hoff => ?_⟩
      · show Described st₁.cache seqMain (if w.track then job.inputIds else [])
        split
        · exact hrows
        · exact .nil _ _
      · show job.inputIds.length = _
        rw [if_pos hon]
      · show (if w.track then job.inputIds else []) = []
        rw [hoff]
        rfl
    split at h
    next halt st₂ hloop =>
      cases h
      exact hdec.generateLoop hloop
    next left st₂ hloop =>
      have hkept := hdec.generateLoop hloop
      unfold endTurn at h
      split at h
      next e st₃ hemit =>
        cases h
        obtain ⟨ht, hcached⟩ := hkept.tracked.emit hemit
        exact ⟨ht, fun hoff => hcached.trans (hkept.off hoff)⟩
      next st₃ hemit =>
        cases h
        obtain ⟨ht, hcached⟩ := hkept.tracked.emit hemit
        exact ⟨⟨ht.solo, ht.rows⟩, fun hoff => hcached.trans (hkept.off hoff)⟩

theorem Kept.runJob (nCtxSlot : Nat) (hk : Kept w st) {job : Job σ}
    (hsafe : PrefillHarmless w st job) : Kept w (st.runJob w nCtxSlot job) := by
  unfold Serial.runJob
  split
  next st₁ h => exact hk.generateSeq hsafe h
  next e st₁ h =>
    have hkept := hk.generateSeq hsafe h
    exact ⟨⟨hkept.tracked.solo, hkept.tracked.rows⟩, hkept.off⟩
  next msg st₁ h =>
    have hkept := hk.generateSeq hsafe h
    exact ⟨⟨hkept.tracked.solo, .nil _ _⟩, fun _ => rfl⟩

-- ================================ runs

/-- Jobs handled one after the other, each finding the state the one before
it left. A prefill that fails spoils no row of the record. -/
inductive Worked (w : SerialWorld Λ σ) (nCtxSlot : Nat) : Serial → Serial → Prop
  | refl (st : Serial) : Worked w nCtxSlot st st
  | job {st st' : Serial} (h : Worked w nCtxSlot st st') (job : Job σ)
      (hsafe : PrefillHarmless w st' job) :
        Worked w nCtxSlot st (st'.runJob w nCtxSlot job)

/-- A slot nothing has run on. -/
structure Unused (st : Serial) : Prop where
  empty : st.cache.IsEmpty
  record : st.cachedTokens = []

/-- After every job the record describes the slot's rows. -/
theorem worked_record_true {w : SerialWorld Λ σ} {nCtxSlot : Nat}
    {st₀ st : Serial} (hfresh : st₀.Unused) (hrun : Worked w nCtxSlot st₀ st) :
    Described st.cache seqMain st.cachedTokens := by
  have hkept : Kept w st := by
    induction hrun with
    | refl =>
        refine ⟨⟨⟨hfresh.empty.inv, fun s slot hs => ?_⟩, ?_⟩, fun _ => hfresh.record⟩
        · rw [hfresh.empty.seqs s] at hs
          cases hs
        · rw [hfresh.record]
          exact .nil _ _
    | job _ job hsafe ih => exact ih.runJob nCtxSlot hsafe
  exact hkept.tracked.rows

/-- `stumbling`, for a worker that never panics elsewhere. -/
def serialStumbling (n : Nat) : SerialWorld (List Token) Unit :=
  { BatchEngine.stumbling n with panics := fun _ => none }

/-- A slot of eight cells nothing has run on. -/
def blankSlot : Serial := ⟨BatchEngine.blankArena 8, [], 0, 0, 0, []⟩

theorem unused_blankSlot : blankSlot.Unused :=
  ⟨KvCache.isEmpty_insert_new List.length_replicate List.length_replicate, rfl⟩

set_option maxRecDepth 8000 in
/-- The first prefill fails on an empty record, the second one succeeds. -/
theorem second_job_record_true :
    (workerLoop (serialStumbling 0) 8 blankSlot
        [BatchEngine.asks 0 [1, 2, 3], BatchEngine.asks 1 [4, 5]]).cachedTokens
          = [4, 5]
      ∧ Described (workerLoop (serialStumbling 0) 8 blankSlot
          [BatchEngine.asks 0 [1, 2, 3], BatchEngine.asks 1 [4, 5]]).cache seqMain
        (workerLoop (serialStumbling 0) 8 blankSlot
          [BatchEngine.asks 0 [1, 2, 3],
            BatchEngine.asks 1 [4, 5]]).cachedTokens := by
  refine ⟨by decide +kernel, ?_⟩
  refine @worked_record_true _ _ (serialStumbling 0) 8 _ _ unused_blankSlot ?_
  refine .job (.job (.refl _) (BatchEngine.asks 0 [1, 2, 3]) ?_)
    (BatchEngine.asks 1 [4, 5]) ?_
  · exact fun _ _ p _ _ _ hp => absurd hp (Nat.not_lt_zero p)
  · intro k row p hrow
    have hcalls : (blankSlot.runJob (serialStumbling 0) 8
        (BatchEngine.asks 0 [1, 2, 3])).forwards = 1 := by decide +kernel
    unfold failedWrites at hrow
    rw [hcalls] at hrow
    cases hrow

set_option maxRecDepth 8000 in
/-- A request ends; the prefill of the next one fails after it overwrote the
second row, and the record still names the first request's tokens. -/
theorem failed_prefill_keeps_record :
    blankSlot.Unused
      ∧ (workerLoop (serialStumbling 1) 8 blankSlot
          [BatchEngine.asks 0 [1, 2, 3],
            BatchEngine.asks 1 [1, 9, 9]]).cachedTokens = [1, 2, 3]
      ∧ ¬ Described (workerLoop (serialStumbling 1) 8 blankSlot
          [BatchEngine.asks 0 [1, 2, 3], BatchEngine.asks 1 [1, 9, 9]]).cache seqMain
        (workerLoop (serialStumbling 1) 8 blankSlot
          [BatchEngine.asks 0 [1, 2, 3],
            BatchEngine.asks 1 [1, 9, 9]]).cachedTokens := by
  have hrecord : (workerLoop (serialStumbling 1) 8 blankSlot
      [BatchEngine.asks 0 [1, 2, 3],
          BatchEngine.asks 1 [1, 9, 9]]).cachedTokens = [1, 2, 3] := by
    decide +kernel
  refine ⟨unused_blankSlot, hrecord, fun hd => ?_⟩
  rw [hrecord] at hd
  have hlayer : (workerLoop (serialStumbling 1) 8 blankSlot
      [BatchEngine.asks 0 [1, 2, 3],
        BatchEngine.asks 1 [1, 9, 9]]).cache.layers[0]?.isSome
        = true := by decide +kernel
  have hrow :=
    hd.rows 0 (by simpa [Option.isSome_iff_ne_none] using hlayer) 1 (by decide)
  rw [show (workerLoop (serialStumbling 1) 8 blankSlot
      [BatchEngine.asks 0 [1, 2, 3], BatchEngine.asks 1 [1, 9, 9]]).cache.rowAt
        0 seqMain 1
        = some (some [1, 9], some [1, 9]) by decide +kernel] at hrow
  exact absurd hrow (by decide)

end Serial
end Minfer.Server
