/-
Slot records and KV rows (`server/batch.rs`): prefills.

A prompt is fed in spans, and between two of them the other slots decode.
While that goes on the slot's rows are the prompt's, span by span, and its
record still names what they were before. `install_run` writes the new
record; a prefill that fails leaves the old one, whatever became of the
rows it names (`PrefillSafe` says when that does no harm).
-/
import Minfer.Server.Proofs.Prefix

namespace Minfer.Server

open Minfer.Graph (KvCache KvEnv SeqId Batch)
open Minfer.Graph.KvCache (Keeps Solo Steady)

variable {Λ σ : Type}

-- =============================== spans

/-- Consecutive spans from `a` to `b`. -/
def Chained : Nat → Nat → List (Nat × Nat) → Prop
  | a, b, [] => a = b
  | a, b, (x, y) :: rest => x = a ∧ a < y ∧ y ≤ b ∧ Chained y b rest

theorem chained_chunkSpans {total chunk : Nat} (hchunk : 0 < chunk) :
    ∀ {fuel at_ : Nat}, at_ ≤ total → total - at_ ≤ fuel →
      Chained at_ total (chunkSpans total chunk fuel at_) := by
  intro fuel
  induction fuel with
  | zero =>
      intro at_ hle hfuel
      show at_ = total
      omega
  | succ fuel ih =>
      intro at_ hle hfuel
      unfold chunkSpans
      split
      next hlt =>
        refine ⟨rfl, by omega, Nat.min_le_right ..,
          ih (Nat.min_le_right ..) (by omega)⟩
      next hge =>
        show at_ = total
        omega

/-- The spans of a prefill cover what is to be fed. -/
theorem chained_prefillChunks {start total : Nat} (hlt : start < total)
    (chunk : Nat) :
    Chained start total (prefillChunks start total chunk) := by
  unfold prefillChunks
  rw [if_neg (by omega)]
  split
  next => exact ⟨rfl, hlt, Nat.le_refl _, rfl⟩
  next h =>
    refine chained_chunkSpans ?_ (Nat.le_of_lt hlt) (Nat.le_refl _)
    by_contra hzero
    exact h (.inl (by omega))

theorem filterMap_replicate_zip (seq s : SeqId) (xs : List (Nat × Token)) :
    ∀ n, xs.length ≤ n →
      ((List.replicate n seq).zip xs).filterMap
        (fun e => if e.1 = s then some e.2 else none)
        = if seq = s then xs else [] := by
  induction xs with
  | nil => intro n _; simp
  | cons x xs ih =>
      intro n hn
      rcases n with _ | n
      · simp at hn
      · rw [List.replicate_succ, List.zip_cons_cons, List.filterMap_cons,
          ih n (by simpa using hn)]
        by_cases hseq : seq = s
        · simp [hseq]
        · simp [hseq]

namespace BatchEngine

theorem spanBatch_tokens_length {input : List Token} {a b : Nat}
    (hb : b ≤ input.length)
    (seq : SeqId) : (spanBatch seq input (a, b)).tokens.length = b - a := by
  show ((input.drop a).take (b - a)).length = b - a
  rw [List.length_take, List.length_drop]
  omega

/-- What a span carries. -/
theorem fed_spanBatch {input : List Token} {a b : Nat} (hb : b ≤ input.length)
    (seq s : SeqId) :
    (seq ≠ s → fed (spanBatch seq input (a, b)) s = [])
      ∧ (fed (spanBatch seq input (a, b)) seq).map (·.1) = List.range' a (b - a)
      ∧ (fed (spanBatch seq input (a, b)) seq).map (·.2) = (input.drop a).take (b - a)
      ∧ (fed (spanBatch seq input (a, b)) seq).length = b - a := by
  have hlen : ((input.drop a).take (b - a)).length = b - a :=
    spanBatch_tokens_length hb seq
  have hfed (t : SeqId) : fed (spanBatch seq input (a, b)) t
      = if seq = t
        then (List.range' a (b - a)).zip ((input.drop a).take (b - a))
        else [] :=
    filterMap_replicate_zip seq t _ _ (by
      show ((List.range' a (b - a)).zip ((input.drop a).take (b - a))).length ≤ b - a
      rw [List.length_zip, List.length_range', hlen, Nat.min_self])
  refine ⟨fun hne => by rw [hfed, if_neg hne], ?_, ?_, ?_⟩
  · rw [hfed, if_pos rfl]
    exact List.map_fst_zip (by rw [List.length_range', hlen])
  · rw [hfed, if_pos rfl]
    exact List.map_snd_zip (by rw [List.length_range', hlen])
  · rw [hfed, if_pos rfl, List.length_zip, List.length_range', hlen, Nat.min_self]

theorem take_append_span {input : List Token} {a b : Nat} (hab : a ≤ b) :
    input.take a ++ (input.drop a).take (b - a) = input.take b := by
  rw [← List.take_add, Nat.add_sub_cancel' hab]

-- ========================= one prefill

variable {w : World Λ σ} {e e' : BatchEngine Λ σ}

/-- In the middle of a prefill: the slot's rows up to `at_` are the
prompt's, and its record is not looked at. -/
structure Prefilling (idx : Nat) (slot : SlotState Λ σ) (input : List Token)
    (at_ : Nat) (e : BatchEngine Λ σ) : Prop where
  mirror : Mirror (· = idx) e
  here : e.slots[idx]? = some slot
  idle : slot.run = none
  rows : Described e.cache slot.seq (input.take at_)

variable {idx : Nat} {slot : SlotState Λ σ} {input : List Token} {at_ : Nat}

/-- Between two spans the other slots decode. -/
theorem Prefilling.tick (hp : Prefilling idx slot input at_ e) (seam : TickSeam) :
    Prefilling idx slot input at_ (e.tick w seam).2 := by
  have hrun : e.runAt idx = none := by
    rw [runAt, hp.here, Option.bind_some, hp.idle]
  obtain ⟨hm, hkept, hothers⟩ := hp.mirror.tick (w := w) (fun i hi => hi ▸ hrun) seam
  refine ⟨hm, hkept idx slot hp.here hp.idle, hp.idle, ?_⟩
  refine hothers slot.seq _ (fun a ha hbusy hseq => hbusy ?_) hp.rows
  obtain ⟨i, hi⟩ := List.mem_iff_getElem?.mp ha
  have hsame : i = idx := hp.mirror.seq_inj hi hp.here hseq
  rw [hsame, hp.here] at hi
  cases hi
  exact hp.idle

/-- A span that was fed. -/
theorem Prefilling.forward_ok (hp : Prefilling idx slot input at_ e) {y : Nat}
    (hlt : at_ < y) (hy : y ≤ input.length) {logits : List Token → Λ}
    (h : e.forwardBatch w (spanBatch slot.seq input (at_, y)) = (.ok logits, e')) :
    Prefilling idx slot input y e' := by
  obtain ⟨c, hfwd, rfl⟩ := forwardBatch_ok h
  have htok : (spanBatch slot.seq input (at_, y)).tokens.length
      = (spanBatch slot.seq input (at_, y)).seqIds.length := by
    rw [spanBatch_tokens_length hy]
    exact List.length_replicate.symm
  obtain ⟨-, hsolo, hdesc, -⟩ := forwardOn_ok hp.mirror.solo htok hfwd
  have hat : (input.take at_).length = at_ := by
    rw [List.length_take]
    omega
  refine ⟨⟨hsolo, hp.mirror.distinct, fun i a ha hi => ?_, hp.mirror.inStep⟩,
    hp.here, hp.idle, ?_⟩
  · have hne : slot.seq ≠ a.seq :=
      fun hseq => hi (hp.mirror.seq_inj ha hp.here hseq.symm)
    have hkeep := hdesc a.seq a.cachedTokens (hp.mirror.faithful i a ha hi)
    rw [(fed_spanBatch hy slot.seq a.seq).1 hne] at hkeep
    show Described c a.seq a.cachedTokens
    simpa using hkeep rfl
  · obtain ⟨-, hpos, htoks, hcount⟩ := fed_spanBatch (a := at_) hy slot.seq slot.seq
    have hext := hdesc slot.seq (input.take at_) hp.rows (by rw [hpos, hat, hcount])
    rw [htoks, take_append_span (Nat.le_of_lt hlt)] at hext
    exact hext

/-- A span that failed: the rows before it stand, and so does every other
slot's record. -/
theorem Prefilling.forward_error (hp : Prefilling idx slot input at_ e)
    {y : Nat} {err : ApiError}
    (h : e.forwardBatch w (spanBatch slot.seq input (at_, y)) = (.error err, e')) :
    Prefilling idx slot input at_ e' := by
  obtain ⟨msg, c, hfwd, -, rfl⟩ := forwardBatch_error h
  obtain ⟨hsolo, hdesc⟩ := forwardOn_error hp.mirror.solo hfwd
  refine ⟨⟨hsolo, hp.mirror.distinct, fun i a ha hi => ?_, hp.mirror.inStep⟩,
    hp.here, hp.idle, ?_⟩
  · refine hdesc a.seq _ (hp.mirror.faithful i a ha hi) fun k row p _ hk => ?_
    have hseq := List.eq_of_mem_replicate (List.mem_of_getElem? hk)
    exact absurd (hp.mirror.seq_inj ha hp.here hseq) hi
  · refine hdesc slot.seq _ hp.rows fun k row p _ _ hk hlt => ?_
    -- a span's positions start at its start
    have hmem := List.mem_range'_1.mp (List.mem_of_getElem? hk)
    rw [List.length_take] at hlt
    simp only at hmem
    omega

/-- The chunk loop: on success the whole prompt is in the slot's rows, on
failure at least what was there when it began. -/
theorem Prefilling.prefillLoop {seam : TickSeam} :
    ∀ {spans : List (Nat × Nat)} {e e' : BatchEngine Λ σ} {at_ : Nat}
      {r : Except ApiError Λ},
      Prefilling idx slot input at_ e → Chained at_ input.length spans →
      e.prefillLoop w seam slot.seq input spans = (r, e') →
      ∃ end_, at_ ≤ end_ ∧ Prefilling idx slot input end_ e'
        ∧ (∀ l, r = .ok l → input.length ≤ end_) := by
  intro spans
  induction spans with
  | nil =>
      intro e e' at_ r hp hch h
      cases h
      exact ⟨at_, Nat.le_refl _, hp, fun _ _ => Nat.le_of_eq (Eq.symm hch)⟩
  | cons span rest ih =>
      intro e e' at_ r hp hch h
      obtain ⟨x, y⟩ := span
      obtain ⟨rfl, hlt, hy, hrest⟩ := hch
      unfold BatchEngine.prefillLoop at h
      split at h
      next err e₁ hf =>
        cases h
        exact ⟨x, Nat.le_refl _, hp.forward_error hf, fun l hl => nomatch hl⟩
      next logits e₁ hf =>
        have hnext := hp.forward_ok hlt hy hf
        split at h
        next hnil =>
          cases h
          rw [List.isEmpty_iff.mp hnil] at hrest
          exact ⟨y, Nat.le_of_lt hlt, hnext, fun _ _ => Nat.le_of_eq (Eq.symm hrest)⟩
        next =>
          have hmore : ∃ e₂, Prefilling idx slot input y e₂
              ∧ e₂.prefillLoop w seam slot.seq input rest = (r, e') := by
            split at h
            · exact ⟨_, hnext.tick seam, h⟩
            · exact ⟨_, hnext, h⟩
          obtain ⟨e₂, hp₂, h₂⟩ := hmore
          obtain ⟨end_, hle, hend, hok⟩ := ih hp₂ hrest h₂
          exact ⟨end_, by omega, hend, hok⟩

-- ========================== submission

theorem Mirror.mono {skip skip' : Nat → Prop} (hm : Mirror skip e)
    (h : ∀ i, skip i → skip' i) : Mirror skip' e :=
  ⟨hm.solo, hm.distinct, fun i a ha hi => hm.faithful i a ha fun hs =>
    hi (h i hs), hm.inStep⟩

theorem Mirror.reject {skip : Nat → Prop} (hm : Mirror skip e) (job : Nat)
    (err : ApiError) :
    Mirror skip (e.reject w job err) :=
  ⟨hm.solo, hm.distinct, hm.faithful, hm.inStep⟩

/-- Installing a request on rows that are its prompt's. -/
theorem Mirror.installRun (htrack : w.track = true) {rows : List Nat}
    (hm : Mirror (· ∈ idx :: rows) e) (hs : e.slots[idx]? = some slot)
    {job : Job σ} (hd : Described e.cache slot.seq job.inputIds) (logits : Λ) :
    Mirror (· ∈ rows) (e.installRun w idx job logits) := by
  unfold BatchEngine.installRun
  rw [hs]
  simp only [htrack, if_true]
  have hm' : Mirror (fun i => False ∨ i ∈ idx :: rows) e := hm.mono fun i => .inr
  obtain ⟨slot', hslot'⟩ : ∃ slot' : SlotState Λ σ, slot' = { slot with
      cachedTokens := job.inputIds
      run := some {
        id := job.id, params := job.params, sampler := job.sampler
        prevTokens := recentWindow job.inputIds repeatLastN
        full := [], emitted := 0, completionTokens := 0
        currentPos := job.inputIds.length
        lastLogits := logits, needsForward := none
        lastProgressWork := e.workUnits
        context := job.inputIds } } := ⟨_, rfl⟩
  rw [← hslot']
  have hset : Mirror (fun i => False ∨ i ∈ rows)
      (e.turned idx slot' e.workUnits e.sends []) := by
    refine hm'.settle hs ?_ ?_ ?_ ..
    · rw [hslot']
    · rw [hslot']
      exact hd
    · intro run hr
      rw [hslot'] at hr ⊢
      cases hr
      rfl
  rw [BatchEngine.turned, List.append_nil] at hset
  exact hset.mono fun i hi => hi.resolve_left not_false

/-- The slot's old record still describes its rows. -/
theorem Prefilling.recorded (hp : Prefilling idx slot input at_ e)
    (hd : Described e.cache slot.seq slot.cachedTokens) : Mirrored e :=
  ⟨hp.mirror.solo, hp.mirror.distinct, fun i a ha _ => by
    by_cases hi : i = idx
    · subst hi
      have hsame := hp.here
      rw [ha] at hsame
      cases hsame
      exact hd
    · exact hp.mirror.faithful i a ha hi, hp.mirror.inStep⟩

/-- The record a prefill leaves behind stays true: the prefill does not fail,
or feeds only past the record's end, or fails in its first forward without
having written a row of the record otherwise. -/
def PrefillSafe (w : World Λ σ) (seam : TickSeam) (e : BatchEngine Λ σ) (seq : SeqId)
    (record input : List Token) (start : Nat) (spans : List (Nat × Nat)) : Prop :=
  (e.prefillLoop w seam seq input spans).1.isOk = true
  ∨ record.length ≤ start
  ∨ ∃ span rest msg c, spans = span :: rest
    ∧ forwardOn w e.forwards e.cache (spanBatch seq input span) = (.error msg, c)
    ∧ Harmless w e.forwards e.cache (spanBatch seq input span) seq record

/-- A prefill of a slot whose record may stay, from rows that are there. -/
theorem Mirrored.prefillLoop {seam : TickSeam} (hm : Mirrored e)
    (hs : e.slots[idx]? = some slot) (hidle : slot.run = none) {start : Nat}
    (hlen : start ≤ slot.cachedTokens.length)
    (hpre : slot.cachedTokens.take start = input.take start)
    {spans : List (Nat × Nat)} (hch : Chained start input.length spans)
    (hsafe : PrefillSafe w seam e slot.seq slot.cachedTokens input start spans)
    {r : Except ApiError Λ}
    (h : e.prefillLoop w seam slot.seq input spans = (r, e')) :
    ∃ end_, Prefilling idx slot input end_ e' ∧ (∀ l, r = .ok l → input.length ≤ end_)
      ∧ (∀ err, r = .error err → Mirrored e') := by
  have hp : Prefilling idx slot input start e :=
    ⟨hm.mono fun _ => False.elim, hs, hidle, hpre ▸ (hm.described hs).take start⟩
  obtain ⟨end_, hle, hend, hok⟩ := hp.prefillLoop hch h
  refine ⟨end_, hend, hok, fun err herr => ?_⟩
  rcases hsafe with hsafe | hsafe | ⟨span, rest, msg, c, rfl, hfwd, hharm⟩
  · rw [h, herr] at hsafe
    cases hsafe
  · -- the record is a prefix of what the slot's rows hold
    refine hend.recorded ?_
    have hrec : slot.cachedTokens
        = (input.take end_).take slot.cachedTokens.length := by
      have hall : start = slot.cachedTokens.length := by omega
      rw [List.take_take, Nat.min_eq_left (by omega), ← hall, ← hpre, hall,
        List.take_length]
    rw [hrec]
    exact hend.rows.take _
  · -- the first forward failed: nothing else ran
    obtain ⟨-, hdesc⟩ := forwardOn_error hm.solo hfwd
    unfold BatchEngine.prefillLoop at h
    rw [forwardBatch, hfwd] at h
    cases h
    exact hend.recorded (hdesc _ _ (hm.described hs) hharm)

/-- When submitting a request leaves every record true. -/
def SubmitSafe (w : World Λ σ) (seam : TickSeam) (e : BatchEngine Λ σ)
    (idx : Nat) (job : Job σ) : Prop :=
  ∀ slot, e.slots[idx]? = some slot → slot.run = none →
    let room := e.ensureSlotCapacity w idx
      (e.wantedCells idx job.inputIds.length job.params.maxTokens)
    let started := room.startFrom w idx job.inputIds
    PrefillSafe w seam started.2 slot.seq
      (started.2.cachedOf idx) job.inputIds started.1
      (prefillChunks started.1 job.inputIds.length room.nBatch)

/-- `submit_on` keeps the mirror. -/
theorem Mirrored.submitOn (henv : w.kvEnv.Obliging) (hgathers : w.gathers = false)
    (htrack : w.track = true) {seam : TickSeam} (hm : Mirrored e) {job : Job σ}
    (hne : job.inputIds ≠ []) (hsafe : SubmitSafe w seam e idx job) :
    Mirrored (e.submitOn w seam idx job).2 := by
  unfold BatchEngine.submitOn
  split
  · exact hm.reject _ _
  next slot hs =>
  split
  · exact hm.reject _ _
  next hrun =>
  have hidle : slot.run = none := by simpa using hrun
  have hroom := hm.ensureSlotCapacity henv hs
    (e.wantedCells idx job.inputIds.length job.params.maxTokens)
  have hsafe := hsafe slot hs hidle
  simp only at hsafe ⊢
  split
  · exact hroom.mirror.reject _ _
  next =>
  obtain ⟨slot₁, hs₁, hseq₁, hrun₁, -⟩ := hroom.own
  have hstart :=
    Mirrored.startFrom henv hgathers htrack hroom.mirror hs₁
    (hrun₁.trans hidle)
    job.inputIds
  obtain ⟨slot₂, hs₂, hseq₂, hidle₂, hlen, hpre⟩ := hstart.own
  have hseq : slot₂.seq = slot.seq := hseq₂.trans hseq₁
  have hpos : 0 < job.inputIds.length := List.length_pos_iff.mpr hne
  have hlt := hstart.start_le
  rw [cachedOf_eq hs₂, ← hseq] at hsafe
  rw [← hseq]
  split
  next err e₃ hloop =>
    obtain ⟨-, -, -, herr⟩ := hstart.mirror.prefillLoop hs₂ hidle₂ hlen hpre
      (chained_prefillChunks (by omega) _) hsafe hloop
    exact (herr err rfl).reject _ _
  next logits e₃ hloop =>
    obtain ⟨end_, hend, hok, -⟩ := hstart.mirror.prefillLoop hs₂ hidle₂ hlen hpre
      (chained_prefillChunks (by omega) _) hsafe hloop
    have hrows := hend.rows
    rw [List.take_of_length_le (hok logits rfl)] at hrows
    have hm₃ : Mirror (· ∈ [idx]) e₃ :=
      hend.mirror.mono fun i hi => List.mem_singleton.mpr hi
    exact (hm₃.installRun htrack hend.here hrows logits).mono fun i hi => nomatch hi

end BatchEngine
end Minfer.Server
