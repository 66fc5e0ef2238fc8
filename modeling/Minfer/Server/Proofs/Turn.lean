/-
What a decode step can do (`server/batch.rs`, `tick`), slot by slot.

`stepSlot_cases` says once what a slot's turn does: the slot keeps its run
with one more committed token, or the run leaves with its farewell.
`rowWritten_cases` and `tick_cases` do the same for the forward's
bookkeeping and for the step as a whole. Every argument about decode steps
goes through them; none unfolds `advance`.
-/
import Minfer.Server.Batch

namespace Minfer.Server

open Minfer.Graph (KvCache Batch)
open Minfer.Lib (fromUtf8Lossy)

variable {Λ σ : Type}

/-- The events with which a request leaves its slot: at most one of them
is terminal, and there is one unless a send found no receiver. -/
inductive Farewell (id : Nat) : List LogEntry → Prop
  | plain (ev : StreamEvent) (d : Bool) (h : ev.terminal) :
    Farewell id [.sent id ev d]
  | flushed (t : List Char) (ev : StreamEvent) (d : Bool) (h : ev.terminal) :
      Farewell id [.sent id (.text t) true, .sent id ev d]
  | dropped (t : List Char) : Farewell id [.sent id (.text t) false]
  | hungUp (t : List Char) (ev : StreamEvent) (d : Bool) (h : ev.terminal) :
      Farewell id [.sent id (.text t) false, .sent id ev d]

/-- The text a committed token lets through, if any. -/
def Shown (id : Nat) (T : List LogEntry) : Prop :=
  T = [] ∨ ∃ t, T = [.sent id (.text t) true]

/-- What a turn logs before its outcome: nothing, or the sampling and the
text it let through. -/
def Opening (idx id : Nat) (S : List LogEntry) : Prop :=
  S = [] ∨ ∃ T, Shown id T ∧ S = .sampled idx :: T

namespace BatchEngine

/-- The engine after one slot's turn: that slot replaced, events logged,
and nothing else but the counters moved. -/
def turned (e : BatchEngine Λ σ) (idx : Nat) (slot : SlotState Λ σ)
    (work sends : Nat) (D : List LogEntry) : BatchEngine Λ σ :=
  { e with slots := e.slots.set idx slot, workUnits := work, sends :=
    sends, log := e.log ++ D }

theorem turned_turned (e : BatchEngine Λ σ) (idx : Nat) (s s' : SlotState Λ σ)
    (work work' sends sends' : Nat) (D D' : List LogEntry) :
    (e.turned idx s work sends D).turned idx s' work' sends' D'
      = e.turned idx s' work' sends' (D ++ D') := by
  simp [turned]

variable {e : BatchEngine Λ σ} {idx : Nat} {slot : SlotState Λ σ}
  {run : Run Λ σ} {w : World Λ σ}

theorem getElem?_turned_self (hs : e.slots[idx]? = some slot)
    (s : SlotState Λ σ) (work sends : Nat) (D : List LogEntry) :
    (e.turned idx s work sends D).slots[idx]? = some s := by
  have hlt : idx < e.slots.length := (List.getElem?_eq_some_iff.1 hs).1
  simp [turned, hlt]

theorem getElem?_turned_ne {i : Nat} (hne : idx ≠ i)
    (s : SlotState Λ σ) (work sends : Nat) (D : List LogEntry) :
    (e.turned idx s work sends D).slots[i]? = e.slots[i]? := by
  simp [turned, List.getElem?_set_ne hne]

/-- `fail` on a slot with a run. -/
theorem fail_eq {err : ApiError}
    (hs : e.slots[idx]? = some slot) (hr : slot.run = some run) :
    e.fail w idx err
      = e.turned idx { slot with run := none, cachedTokens := [] } e.workUnits
          (e.sends + 1)
          [.sent run.id (.err err) (w.sendOk e.sends)] := by
  simp [fail, hs, hr, reject, send, setSlot, turned]

/-- `finish` on a slot with a run: the farewell, and the record kept unless
the client was gone. -/
theorem finish_eq (reason : FinishReason)
    (hs : e.slots[idx]? = some slot) (hr : slot.run = some run) :
    ∃ cached sends T, (cached = slot.cachedTokens ∨ cached = [])
      ∧ Farewell run.id T
      ∧ e.finish w idx reason
          = e.turned idx { slot with run := none, cachedTokens :=
            cached } e.workUnits sends T := by
  by_cases ht : (Run.tail run).isEmpty = true
  · refine ⟨slot.cachedTokens, e.sends + 1, _, .inl rfl,
      .plain (.finish reason run.completionTokens) (w.sendOk e.sends) rfl, ?_⟩
    simp [finish, hs, hr, ht, send, setSlot, turned]
  · cases hd : w.sendOk e.sends with
    | true =>
        refine ⟨slot.cachedTokens, e.sends + 2, _, .inl rfl,
          .flushed (fromUtf8Lossy (Run.tail run))
            (.finish reason run.completionTokens)
            (w.sendOk (e.sends + 1)) rfl, ?_⟩
        simp [finish, hs, hr, ht, hd, send, setSlot, turned]
    | false =>
        refine ⟨[], e.sends + 1, _, .inr rfl,
          .dropped (fromUtf8Lossy (Run.tail run)), ?_⟩
        simp [finish, hs, hr, ht, hd, send, setSlot, turned]

-- ============================= advance

/-- The run has no token left to sample. -/
def Spent (slot : SlotState Λ σ) (run : Run Λ σ) : Prop :=
  Run.budgetDone run = true ∨ run.currentPos ≥ slot.cap

/-- The token just taken in was the last one. -/
def Last (slot : SlotState Λ σ) (run : Run Λ σ) : Prop :=
  Run.budgetDone run = true ∨ run.currentPos + 1 ≥ slot.cap

/-- The run once its complete text was sent. -/
def Run.shown (run : Run Λ σ) : Run Λ σ :=
  { run with emitted := run.emitted + (Run.pendingText run).length }

/-- The text event of a run's pending text. -/
def showEntries (run : Run Λ σ) (d : Bool) : List LogEntry :=
  if (Run.pendingText run).isEmpty then []
  else [.sent run.id (.text (fromUtf8Lossy (Run.pendingText run))) d]

/-- Sends made for the pending text. -/
def showSends (run : Run Λ σ) : Nat := if (Run.pendingText run).isEmpty then 0 else 1

theorem shown_showEntries (run : Run Λ σ) : Shown run.id (showEntries run true) := by
  unfold showEntries
  split
  · exact .inl rfl
  · exact .inr ⟨_, rfl⟩

/-- The engine with a slot's run replaced and events logged. -/
def kept (e : BatchEngine Λ σ) (idx : Nat) (slot : SlotState Λ σ)
    (run : Run Λ σ) (sends : Nat) (D : List LogEntry) : BatchEngine Λ σ :=
  e.turned idx { slot with run := some run } e.workUnits sends D

/-- The ways one token can go, with what each leaves. -/
inductive Advanced (w : World Λ σ) (e : BatchEngine Λ σ) (idx : Nat)
    (slot : SlotState Λ σ)
    (run : Run Λ σ) : Except ApiError StepOutcome × BatchEngine Λ σ → Prop
  /-- Nothing is sampled. -/
  | spent (h : Spent slot run) : Advanced w e idx slot run (.ok (.finish .length), e)
  /-- The grammar allows no token. -/
  | refused (msg : String) (s : σ) (h : ¬ Spent slot run)
      (hsample : w.sample run.sampler run.lastLogits run.prevTokens
        = (.error msg, s)) :
      Advanced w e idx slot run
        (.ok (.finish .stop),
          e.kept idx slot { run with sampler := s } e.sends [.sampled idx])
  /-- The token ends the turn. -/
  | eog (tok : Token) (s : σ) (h : ¬ Spent slot run)
      (hsample : w.sample run.sampler run.lastLogits run.prevTokens = (.ok tok, s))
      (hstop : w.isStopToken tok = true) :
      Advanced w e idx slot run
        (.ok (.finish .stop),
          e.kept idx slot { run with sampler := s } e.sends [.sampled idx])
  /-- The bytes end with a stop string. -/
  | stopString (tok : Token) (s : σ) (run' : Run Λ σ) (h : ¬ Spent slot run)
      (hsample : w.sample run.sampler run.lastLogits run.prevTokens = (.ok tok, s))
      (hstop : w.isStopToken tok = false)
      (hrun : run' = Run.commit w { run with sampler := s } tok)
      (hmatch : (matchStopSuffix run'.full run'.params.stopStrings).isSome = true) :
      Advanced w e idx slot run
        (.ok (.finish .stop), e.kept idx slot run' e.sends [.sampled idx])
  /-- The client is gone. -/
  | hungUp (tok : Token) (s : σ) (run' : Run Λ σ) (h : ¬ Spent slot run)
      (hsample : w.sample run.sampler run.lastLogits run.prevTokens = (.ok tok, s))
      (hstop : w.isStopToken tok = false)
      (hrun : run' = Run.commit w { run with sampler := s } tok)
      (hmatch : (matchStopSuffix run'.full run'.params.stopStrings).isSome = false)
      (htext : (Run.pendingText run').isEmpty = false)
        (hsend : w.sendOk e.sends = false) :
      Advanced w e idx slot run (.error (.server "client disconnected"),
        e.kept idx slot run' (e.sends + 1) (.sampled idx :: showEntries run' false))
  /-- The token was the last one. -/
  | last (tok : Token) (s : σ) (run' : Run Λ σ) (h : ¬ Spent slot run)
      (hsample : w.sample run.sampler run.lastLogits run.prevTokens = (.ok tok, s))
      (hstop : w.isStopToken tok = false)
      (hrun : run' = Run.commit w { run with sampler := s } tok)
      (hmatch : (matchStopSuffix run'.full run'.params.stopStrings).isSome = false)
      (hlast : Last slot (Run.shown run')) :
      Advanced w e idx slot run (.ok (.finish .length),
        e.kept idx slot (Run.shown run') (e.sends + showSends run')
          (.sampled idx :: showEntries run' true))
  /-- The token waits for its row. -/
  | committed (tok : Token) (s : σ) (run' : Run Λ σ) (h : ¬ Spent slot run)
      (hsample : w.sample run.sampler run.lastLogits run.prevTokens = (.ok tok, s))
      (hstop : w.isStopToken tok = false)
      (hrun : run' = Run.commit w { run with sampler := s } tok)
      (hmatch : (matchStopSuffix run'.full run'.params.stopStrings).isSome = false)
      (hlast : ¬ Last slot (Run.shown run')) :
      Advanced w e idx slot run (.ok .continue,
        e.kept idx slot { Run.shown run' with needsForward := some tok }
          (e.sends + showSends run')
          (.sampled idx :: (showEntries run' true ++ [.committed idx tok])))

/-- `advance`, in one statement. -/
theorem advance_cases (w : World Λ σ) (e : BatchEngine Λ σ) (idx : Nat)
    (slot : SlotState Λ σ) (run : Run Λ σ) : Advanced w e idx slot run
    (e.advance w idx slot run) := by
  by_cases hspent : Spent slot run
  · have heq : e.advance w idx slot run = (.ok (.finish .length), e) := by
      rcases hspent with hb | hcap
      · simp [advance, hb]
      · simp [advance, hcap]
    rw [heq]
    exact .spent hspent
  obtain ⟨hb, hcap⟩ : Run.budgetDone run = false ∧ ¬ run.currentPos ≥ slot.cap := by
    simpa [Spent] using hspent
  cases hsample : w.sample run.sampler run.lastLogits run.prevTokens with
  | mk res s =>
  cases res with
  | error msg =>
      have heq : e.advance w idx slot run
          = (.ok (.finish .stop),
            e.kept idx slot { run with sampler := s } e.sends
              [.sampled idx]) := by
        simp [advance, hb, hcap, hsample, kept, turned, setSlot]
      rw [heq]
      exact .refused msg s hspent hsample
  | ok tok =>
  cases hstop : w.isStopToken tok with
  | true =>
      have heq : e.advance w idx slot run
          = (.ok (.finish .stop),
            e.kept idx slot { run with sampler := s } e.sends
              [.sampled idx]) := by
        simp [advance, hb, hcap, hsample, hstop, kept, turned, setSlot]
      rw [heq]
      exact .eog tok s hspent hsample hstop
  | false =>
  obtain ⟨run', hrun⟩ : ∃ run',
    run' = Run.commit w { run with sampler := s } tok := ⟨_, rfl⟩
  cases hmatch : (matchStopSuffix run'.full run'.params.stopStrings).isSome with
  | true =>
      have heq : e.advance w idx slot run
          = (.ok (.finish .stop), e.kept idx slot run' e.sends [.sampled idx]) := by
        simp [advance, hb, hcap, hsample, hstop, ← hrun, hmatch, kept, turned,
          setSlot]
      rw [heq]
      exact .stopString tok s run' hspent hsample hstop hrun hmatch
  | false =>
  have hpos : run'.currentPos = run.currentPos := by rw [hrun, Run.commit]
  by_cases hsent : (Run.pendingText run').isEmpty = false ∧ w.sendOk e.sends = false
  · obtain ⟨htext, hsend⟩ := hsent
    have heq : e.advance w idx slot run
        = (.error (.server "client disconnected"),
            e.kept idx slot run' (e.sends + 1)
                (.sampled idx :: showEntries run' false)) := by
      simp [advance, hb, hcap, hsample, hstop, ← hrun, hmatch, htext, hsend,
        send, showEntries, kept, turned, setSlot]
    rw [heq]
    exact .hungUp tok s run' hspent hsample hstop hrun hmatch htext hsend
  -- the pending text, if there was any, got through
  have hshow : (if (Run.pendingText run').isEmpty = true then
          (true, { e with log := e.log ++ [LogEntry.sampled idx] })
        else send w { e with log := e.log ++ [LogEntry.sampled idx] } run'.id
          (.text (fromUtf8Lossy (Run.pendingText run'))))
      = (true, { e with sends := e.sends + showSends run'
                        log := e.log
                            ++ (LogEntry.sampled idx :: showEntries run' true)
                            }) := by
    cases htext : (Run.pendingText run').isEmpty with
    | true => simp [showSends, showEntries, htext]
    | false =>
        have hsend : w.sendOk e.sends = true := by simpa [htext] using hsent
        simp [showSends, showEntries, htext, send, hsend]
  by_cases hlast : Last slot (Run.shown run')
  · have heq : e.advance w idx slot run = (.ok (.finish .length),
        e.kept idx slot (Run.shown run') (e.sends + showSends run')
          (.sampled idx :: showEntries run' true)) := by
      have hlast' := hlast
      unfold Last Run.shown at hlast'
      simp [-List.isEmpty_iff, advance, hb, hcap, hsample, hstop, ← hrun,
        hmatch, hshow, Run.shown, hlast', kept, turned, setSlot]
    rw [heq]
    exact .last tok s run' hspent hsample hstop hrun hmatch hlast
  · have heq : e.advance w idx slot run = (.ok .continue,
        e.kept idx slot { Run.shown run' with needsForward := some tok }
          (e.sends + showSends run')
          (.sampled idx :: (showEntries run' true ++ [.committed idx tok]))) := by
      have hlast' := hlast
      unfold Last Run.shown at hlast'
      simp [-List.isEmpty_iff, advance, hb, hcap, hsample, hstop, ← hrun,
        hmatch, hshow, Run.shown, hlast', kept, turned, setSlot]
    rw [heq]
    exact .committed tok s run' hspent hsample hstop hrun hmatch hlast

-- ============================ one turn

/-- What a slot with a run does in its turn. -/
inductive Turn (e : BatchEngine Λ σ) (idx : Nat) (slot : SlotState Λ σ)
    (run : Run Λ σ) :
    Bool × BatchEngine Λ σ → Prop
  /-- One more token is committed and waits for its row. -/
  | moved (run' : Run Λ σ) (tok : Token) (sends : Nat) (T : List LogEntry)
      (hT : Shown run.id T)
      (hroom : run.currentPos + 1 < slot.cap)
      (hpending : run'.needsForward = some tok)
      (hpos : run'.currentPos = run.currentPos)
      (hid : run'.id = run.id)
      (hcontext : run'.context = run.context)
      (hstamp : run'.lastProgressWork = run.lastProgressWork) :
      Turn e idx slot run
        (true, e.turned idx { slot with run := some run' } (e.workUnits + 1)
        sends (.sampled idx :: (T ++ [.committed idx tok])))
  /-- The run leaves. -/
  | left (cached : List Token) (sends : Nat) (S T : List LogEntry)
      (hc : cached = slot.cachedTokens ∨ cached = [])
      (hS : Opening idx run.id S)
      (hT : Farewell run.id T) :
      Turn e idx slot run (false, e.turned idx
        { slot with run := none, cachedTokens := cached } e.workUnits sends (S ++ T))

/-- Finishing a run whose record was touched on the way. -/
theorem Turn.finished {run' : Run Λ σ} {n : Nat} {S : List LogEntry}
    (reason : FinishReason) (hs : e.slots[idx]? = some slot)
    (hid : run'.id = run.id) (hS : Opening idx run.id S) :
    Turn e idx slot run (false,
      (e.turned idx { slot with run := some run' } e.workUnits n S).finish w
      idx reason) := by
  have hs' := getElem?_turned_self hs { slot with run := some run' } e.workUnits n S
  obtain ⟨cached, sends', T, hc, hT, heq⟩ := finish_eq (w := w) reason hs' rfl
  rw [heq, turned_turned]
  exact .left cached sends' S T hc hS (hid ▸ hT)

/-- Failing a run whose client hung up. -/
theorem Turn.failed
    {run' : Run Λ σ} {sends : Nat} {t : List Char} {err : ApiError}
    (hs : e.slots[idx]? = some slot) (hid : run'.id = run.id) :
    Turn e idx slot run (false,
      (e.turned idx { slot with run := some run' } e.workUnits sends
        [.sampled idx, .sent run.id (.text t) false]).fail w idx err) := by
  have hs' := getElem?_turned_self hs { slot with run := some run' } e.workUnits sends
    [.sampled idx, .sent run.id (.text t) false]
  rw [fail_eq hs' rfl, turned_turned, hid]
  exact .left [] (sends + 1) [.sampled idx] _ (.inr rfl) (.inr ⟨[], .inl rfl, rfl⟩)
    (.hungUp t (.err err) (w.sendOk sends) rfl)

/-- A slot that is put back as it was. -/
theorem turned_same
    (hs : e.slots[idx]? = some slot) (hr : slot.run = some run) :
    e.turned idx { slot with run := some run } e.workUnits e.sends [] = e := by
  have hslot : { slot with run := some run } = slot := by rw [← hr]
  obtain ⟨hlt, hget⟩ := List.getElem?_eq_some_iff.1 hs
  have hset : e.slots.set idx slot = e.slots := by rw [← hget, List.set_getElem_self]
  rw [hslot, turned, hset, List.append_nil]

/-- A slot's turn, in one statement. -/
theorem stepSlot_cases (hs : e.slots[idx]? = some slot)
    (hr : slot.run = some run) :
    Turn e idx slot run (e.stepSlot w idx) := by
  have hsampled : Opening idx run.id [.sampled idx] := .inr ⟨[], .inl rfl, rfl⟩
  simp only [stepSlot, hs, hr]
  obtain ⟨out, hout⟩ : ∃ out, out = e.advance w idx slot run := ⟨_, rfl⟩
  have hcases := advance_cases w e idx slot run
  rw [← hout] at hcases ⊢
  cases hcases with
  | spent h =>
      have hturn :=
        Turn.finished (w := w) (n := e.sends) .length hs (Eq.refl run.id)
        (.inl rfl)
      rwa [turned_same hs hr] at hturn
  | refused msg s h hsample => exact Turn.finished .stop hs rfl hsampled
  | eog tok s h hsample hstop => exact Turn.finished .stop hs rfl hsampled
  | stopString tok s run' h hsample hstop hrun hmatch =>
      exact Turn.finished .stop hs (by rw [hrun, Run.commit]) hsampled
  | hungUp tok s run' h hsample hstop hrun hmatch htext hsend =>
      have hid : run'.id = run.id := by rw [hrun, Run.commit]
      have hentries : showEntries run' false
          = [.sent run.id (.text (fromUtf8Lossy (Run.pendingText run'))) false] := by
        simp only [showEntries, htext, Bool.false_eq_true, if_false, hid]
      rw [kept, hentries]
      exact Turn.failed hs hid
  | last tok s run' h hsample hstop hrun hmatch hlast =>
      have hid : run'.id = run.id := by rw [hrun, Run.commit]
      exact Turn.finished .length hs hid (.inr ⟨_, hid ▸ shown_showEntries run', rfl⟩)
  | committed tok s run' h hsample hstop hrun hmatch hlast =>
      have hid : run'.id = run.id := by rw [hrun, Run.commit]
      have hpos : run'.currentPos = run.currentPos := by rw [hrun, Run.commit]
      have hroom : run.currentPos + 1 < slot.cap := by
        simp only [Last, Run.shown, hpos, not_or] at hlast
        omega
      exact .moved { Run.shown run' with needsForward := some tok } tok _ _
        (hid ▸ shown_showEntries run') hroom rfl hpos hid
        (by simp only [Run.shown, hrun, Run.commit])
          (by simp only [Run.shown, hrun, Run.commit])

-- ============================ the step

/-- The run of a slot. -/
def runAt (e : BatchEngine Λ σ) (i : Nat) : Option (Run Λ σ) :=
  e.slots[i]?.bind (·.run)

theorem runAt_eq_some {i : Nat} :
    e.runAt i = some run ↔ ∃ slot, e.slots[i]? = some slot ∧ slot.run = some run := by
  simp [runAt, Option.bind_eq_some_iff]

theorem runAt_turned_self
    (hs : e.slots[idx]? = some slot) (s : SlotState Λ σ) (work sends : Nat)
    (D : List LogEntry) : (e.turned idx s work sends D).runAt idx = s.run := by
  rw [runAt, getElem?_turned_self hs]
  rfl

theorem runAt_turned_ne {i : Nat} (hne : idx ≠ i)
    (s : SlotState Λ σ) (work sends : Nat) (D : List LogEntry) :
    (e.turned idx s work sends D).runAt i = e.runAt i := by
  rw [runAt, runAt, getElem?_turned_ne hne]

/-- A slot without a run has no turn. -/
theorem stepSlot_idle
    (h : e.runAt idx = none) : e.stepSlot w idx = (false, e) := by
  unfold runAt at h
  unfold stepSlot
  cases hs : e.slots[idx]? with
  | none => rfl
  | some slot =>
      have hr : slot.run = none := by simpa [hs] using h
      simp only [hr]

/-- The run once its waiting token's row is written. -/
def Run.written (logits : List Token → Λ) (run : Run Λ σ) (tok : Token) : Run Λ σ :=
  { run with lastLogits := logits (run.context ++ [tok]), needsForward := none
             currentPos := run.currentPos + 1, context := run.context ++ [tok] }

/-- The bookkeeping of one forwarded row, in one statement. -/
theorem rowWritten_cases (logits : List Token → Λ) (e : BatchEngine Λ σ) (idx : Nat) :
    ((∀ run, e.runAt idx = some run → run.needsForward = none)
        ∧ e.rowWritten logits idx = e)
    ∨ ∃ slot run tok, e.slots[idx]? = some slot ∧ slot.run = some run
        ∧ run.needsForward = some tok
        ∧ e.rowWritten logits idx
            = e.turned idx { slot with cachedTokens := slot.cachedTokens ++ [tok]
                                       run := some (Run.written logits run tok) }
                e.workUnits e.sends [.forwarded idx tok run.currentPos] := by
  unfold rowWritten
  cases hs : e.slots[idx]? with
  | none => exact .inl ⟨by simp [runAt, hs], rfl⟩
  | some slot =>
  cases hr : slot.run with
  | none => exact .inl ⟨by simp [runAt, hs, hr], by simp only [hr]⟩
  | some run =>
  cases hn : run.needsForward with
  | none => exact .inl ⟨by simp [runAt, hs, hr, hn], by simp only [hr, hn]⟩
  | some tok => exact .inr ⟨slot, run, tok, rfl, hr, hn, by simp only [hr, hn]; rfl⟩

/-- The engine after a forward that left the arena `c`. -/
def forwarded (e : BatchEngine Λ σ) (c : KvCache Row) : BatchEngine Λ σ :=
  { e with cache := c, forwards := e.forwards + 1 }

/-- A forward of the engine is one on its arena. -/
theorem forwardBatch_ok {e' : BatchEngine Λ σ} {b : Batch}
    {logits : List Token → Λ} (h : e.forwardBatch w b = (.ok logits, e')) :
    ∃ c, forwardOn w e.forwards e.cache b = (.ok logits, c) ∧ e' = e.forwarded c := by
  unfold forwardBatch at h
  split at h
  next => cases h
  next l c hf =>
    cases h
    exact ⟨c, hf, rfl⟩

theorem forwardBatch_error {e' : BatchEngine Λ σ} {b : Batch}
    {err : ApiError} (h : e.forwardBatch w b = (.error err, e')) :
    ∃ msg c, forwardOn w e.forwards e.cache b = (.error msg, c)
      ∧ err = .server s!"inference panicked: {msg}" ∧ e' = e.forwarded c := by
  unfold forwardBatch at h
  split at h
  next msg c hf =>
    cases h
    exact ⟨msg, c, hf, rfl, rfl⟩
  next => cases h

/-- The bookkeeping of a step's forward. -/
def rowsWritten (e : BatchEngine Λ σ) (logits : List Token → Λ) (rows : List Nat) :
    BatchEngine Λ σ :=
  rows.foldl (rowWritten logits) e

/-- The second half of a step. -/
def sampleAll (w : World Λ σ) (e : BatchEngine Λ σ) (rows : List Nat) :
    BatchEngine Λ σ :=
  (e.stepSlots w (List.range e.slots.length)).2.stampProgress
    (rows ++ (e.stepSlots w (List.range e.slots.length)).1)

/-- The slots in a step's batch. -/
def stepSlotsOf (e : BatchEngine Λ σ) : List Nat := e.stepRows.map (·.1)

/-- The ways a step can go. -/
inductive Ticked (w : World Λ σ) (e : BatchEngine Λ σ) :
    Except ApiError Unit × BatchEngine Λ σ → Prop
  /-- A test seam: nothing but the work counter moves. -/
  | seam (work : Nat) : Ticked w e (.ok (), { e with workUnits := work })
  /-- No token waits. -/
  | sampled (h : e.stepRows = []) : Ticked w e (.ok (), e.sampleAll w [])
  /-- The forward failed, and every run in it is answered. -/
  | failed (err : ApiError) (e' : BatchEngine Λ σ) (h : e.stepRows ≠ [])
      (hf : e.forwardBatch w (stepBatch e.stepRows) = (.error err, e')) :
      Ticked w e (.error err, e'.failBatch w e.stepSlotsOf err)
  /-- The forward wrote every waiting token it carried. -/
  | stepped (logits : List Token → Λ) (e' : BatchEngine Λ σ) (h : e.stepRows ≠ [])
      (hf : e.forwardBatch w (stepBatch e.stepRows) = (.ok logits, e')) :
      Ticked w e (.ok (), sampleAll w
        (rowsWritten { e' with workUnits :=
          e'.workUnits + e.stepRows.length } logits e.stepSlotsOf)
        e.stepSlotsOf)

/-- `tick`, in one statement. -/
theorem tick_cases (w : World Λ σ) (seam : TickSeam) (e : BatchEngine Λ σ) :
    Ticked w e (e.tick w seam) := by
  cases seam with
  | wedge => exact .seam e.workUnits
  | spin => exact .seam (e.workUnits + 1)
  | off =>
      by_cases hrows : e.stepRows = []
      · have heq : e.tick w .off = (.ok (), e.sampleAll w []) := by
          simp [tick, hrows, sampleAll]
        rw [heq]
        exact .sampled hrows
      cases hf : e.forwardBatch w (stepBatch e.stepRows) with
      | mk res e' =>
      cases res with
      | error err =>
          have heq : e.tick w .off
              = (.error err, e'.failBatch w e.stepSlotsOf err) := by
            simp [tick, hrows, hf, stepSlotsOf]
          rw [heq]
          exact .failed err e' hrows hf
      | ok logits =>
          have heq : e.tick w .off = (.ok (), sampleAll w
              (rowsWritten { e' with workUnits :=
                e'.workUnits + e.stepRows.length } logits
                e.stepSlotsOf) e.stepSlotsOf) := by
            simp [tick, hrows, hf, stepSlotsOf, sampleAll, rowsWritten]
          rw [heq]
          exact .stepped logits e' hrows hf

end BatchEngine
end Minfer.Server
