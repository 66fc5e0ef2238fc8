/-
Committed tokens and forwarded tokens, over runs of decode steps.

A slot commits a token in one step and its row is written by a later one.
The ledger below reads a slot's log and says that the two sequences agree:
what was committed is what was forwarded, in order, at consecutive
positions, plus the token still waiting; and the slot was never sampled
with a token waiting.

A step forwards at most `maxBatch` tokens. The ledger is kept by every
step that starts with no more tokens waiting than that.
-/
import Minfer.Server.Proofs.Turn

namespace Minfer.Server

open Minfer.Graph (KvCache)

variable {Λ σ : Type}

-- ========================== the ledger

/-- The tokens slot `i` committed, in order. -/
def committedBy (i : Nat) (L : List LogEntry) : List Token :=
  L.filterMap fun
    | .committed s tok => if s = i then some tok else none
    | _ => none

/-- The tokens forwarded for slot `i`, in order, with their positions. -/
def forwardedBy (i : Nat) (L : List LogEntry) : List (Token × Nat) :=
  L.filterMap fun
    | .forwarded s tok pos => if s = i then some (tok, pos) else none
    | _ => none

/-- A log entry says nothing about slot `i`'s tokens. -/
def Foreign (i : Nat) : LogEntry → Prop
  | .sent _ _ _ => True
  | .sampled s => s ≠ i
  | .committed s _ => s ≠ i
  | .forwarded s _ _ => s ≠ i

/-- The log `L` of slot `i` since it held the waiting tokens `p` at
position `q`, with `P` waiting now. -/
structure Ledger (p : List Token) (q i : Nat) (L : List LogEntry)
    (P : List Token) : Prop where
  /-- What was committed is what was forwarded, and what waits. -/
  tokens : p ++ committedBy i L = (forwardedBy i L).map (·.1) ++ P
  /-- Rows are written at consecutive positions. -/
  positions : (forwardedBy i L).map (·.2) = List.range' q (forwardedBy i L).length
  /-- Whenever the slot was sampled, nothing waited. -/
  sampled : ∀ A, A ++ [.sampled i] <+: L →
    p ++ committedBy i A = (forwardedBy i A).map (·.1)

theorem committedBy_append (i : Nat) (A B : List LogEntry) :
    committedBy i (A ++ B) = committedBy i A ++ committedBy i B :=
  List.filterMap_append

theorem forwardedBy_append (i : Nat) (A B : List LogEntry) :
    forwardedBy i (A ++ B) = forwardedBy i A ++ forwardedBy i B :=
  List.filterMap_append

variable {i : Nat}

theorem Foreign.committedBy_eq {d : LogEntry} (h : Foreign i d) :
    committedBy i [d] = [] := by
  cases d <;> simp_all [committedBy, Foreign]

theorem Foreign.forwardedBy_eq {d : LogEntry} (h : Foreign i d) :
    forwardedBy i [d] = [] := by
  cases d <;> simp_all [forwardedBy, Foreign]

theorem forwardedBy_foreigns {D : List LogEntry} (hD : ∀ d ∈ D, Foreign i d) :
    forwardedBy i D = [] := by
  induction D with
  | nil => rfl
  | cons d D ih =>
      rw [← List.singleton_append, forwardedBy_append,
        (hD d List.mem_cons_self).forwardedBy_eq, List.nil_append]
      exact ih fun d' hd' => hD d' (List.mem_cons_of_mem d hd')

theorem Shown.foreign {id : Nat} {T : List LogEntry} (h : Shown id T) :
    ∀ d ∈ T, Foreign i d := by
  rcases h with rfl | ⟨t, rfl⟩ <;> simp [Foreign]

theorem Farewell.foreign {id : Nat} {T : List LogEntry} (h : Farewell id T) :
    ∀ d ∈ T, Foreign i d := by
  cases h <;> simp [Foreign]

theorem Opening.foreign {idx id : Nat} {S : List LogEntry}
    (h : Opening idx id S) (hne : idx ≠ i) : ∀ d ∈ S, Foreign i d := by
  rcases h with rfl | ⟨T, hT, rfl⟩
  · simp
  · intro d hd
    rcases List.mem_cons.1 hd with rfl | hd
    · exact hne
    · exact hT.foreign d hd

/-- One more entry that is not a sampling of slot `i` adds no sampling. -/
theorem sampled_concat {p : List Token} {L : List LogEntry}
    {d : LogEntry} (hd : d ≠ .sampled i) (h : ∀ A, A ++ [.sampled i] <+: L →
      p ++ committedBy i A = (forwardedBy i A).map (·.1)) :
    ∀ A, A ++ [.sampled i] <+: L ++ [d] →
      p ++ committedBy i A = (forwardedBy i A).map (·.1) := by
  intro A hA
  rcases List.prefix_concat_iff.1 hA with heq | hpre
  · have hlast : LogEntry.sampled i = d := by
      have := congrArg List.getLast? heq
      simpa using this
    exact absurd hlast.symm hd
  · exact h A hpre

namespace Ledger

variable {p P : List Token} {q i : Nat} {L : List LogEntry}

theorem start (p : List Token) (q i : Nat) : Ledger p q i [] p where
  tokens := by simp [committedBy, forwardedBy]
  positions := by simp [forwardedBy]
  sampled := by
    intro A hA
    simp at hA

theorem foreign {d : LogEntry} (h : Ledger p q i L P) (hd : Foreign i d) :
    Ledger p q i (L ++ [d]) P where
  tokens := by
    rw [committedBy_append, forwardedBy_append, hd.committedBy_eq,
      hd.forwardedBy_eq, List.append_nil, List.append_nil]
    exact h.tokens
  positions := by
    rw [forwardedBy_append, hd.forwardedBy_eq, List.append_nil]
    exact h.positions
  sampled := sampled_concat (by rintro rfl; exact hd rfl) h.sampled

theorem foreigns {D : List LogEntry} (hD : ∀ d ∈ D, Foreign i d) :
    ∀ {L : List LogEntry}, Ledger p q i L P → Ledger p q i (L ++ D) P := by
  induction D with
  | nil => intro L h; simpa using h
  | cons d D ih =>
      intro L h
      rw [List.append_cons]
      exact ih (fun d' hd' => hD d' (List.mem_cons_of_mem d hd'))
        (h.foreign (hD d List.mem_cons_self))

theorem sample (h : Ledger p q i L []) : Ledger p q i (L ++ [.sampled i]) [] where
  tokens := by
    rw [committedBy_append, forwardedBy_append]
    simpa [committedBy, forwardedBy] using h.tokens
  positions := by
    rw [forwardedBy_append]
    simpa [forwardedBy] using h.positions
  sampled := by
    intro A hA
    rcases List.prefix_concat_iff.1 hA with heq | hpre
    · have hAL : A = L := (List.append_inj_left' heq rfl)
      rw [hAL, h.tokens, List.append_nil]
    · exact h.sampled A hpre

/-- A turn's opening, with nothing waiting. -/
theorem opening {id : Nat} {S : List LogEntry} (h : Ledger p q i L [])
    (hS : Opening i id S) :
    Ledger p q i (L ++ S) [] := by
  rcases hS with rfl | ⟨T, hT, rfl⟩
  · simpa using h
  · rw [List.append_cons]
    exact foreigns hT.foreign h.sample

theorem commit (h : Ledger p q i L []) (tok : Token) :
    Ledger p q i (L ++ [.committed i tok]) [tok] where
  tokens := by
    rw [committedBy_append, forwardedBy_append, ← List.append_assoc, h.tokens]
    simp [committedBy, forwardedBy]
  positions := by
    rw [forwardedBy_append]
    simpa [forwardedBy] using h.positions
  sampled := sampled_concat (by simp) h.sampled

theorem forward {tok : Token} {pos : Nat} (h : Ledger p q i L [tok])
    (hpos : pos = q + (forwardedBy i L).length) :
    Ledger p q i (L ++ [.forwarded i tok pos]) [] where
  tokens := by
    rw [committedBy_append, forwardedBy_append, ← List.append_assoc, h.tokens]
    simp [committedBy, forwardedBy]
  positions := by
    have hone : forwardedBy i [.forwarded i tok pos] = [(tok, pos)] := by
      simp [forwardedBy]
    rw [forwardedBy_append, hone, List.map_append, h.positions, List.length_append,
      List.length_singleton, List.range'_concat, hpos, Nat.one_mul]
    rfl
  sampled := sampled_concat (by simp) h.sampled

end Ledger

-- ================== one step, one slot

namespace BatchEngine

/-- What the ledger reads of a slot: the token that waits and the position
its row will have. -/
def handOf (e : BatchEngine Λ σ) (i : Nat) : Option (Option Token × Nat) :=
  (e.runAt i).map fun run => (run.needsForward, run.currentPos)

/-- The tokens of slot `i` that wait for their row. -/
def waiting (e : BatchEngine Λ σ) (i : Nat) : List Token :=
  ((e.handOf i).bind (·.1)).toList

/-- Slot `i`'s ledger since the log was `base`, on an engine. -/
def Handshake (base : List LogEntry) (p : List Token) (q i : Nat)
    (e : BatchEngine Λ σ) : Prop :=
  ∃ L, e.log = base ++ L ∧ Ledger p q i L (e.waiting i)
    ∧ ∀ hand, e.handOf i = some hand → hand.2 = q + (forwardedBy i L).length

variable {w : World Λ σ} {base : List LogEntry} {p : List Token} {q i : Nat}
variable {e : BatchEngine Λ σ}

theorem handOf_turned_self {slot : SlotState Λ σ}
    (hs : e.slots[i]? = some slot) (s : SlotState Λ σ) (work sends : Nat)
    (D : List LogEntry) :
    (e.turned i s work sends D).handOf i
      = s.run.map fun run => (run.needsForward, run.currentPos) := by
  rw [handOf, runAt_turned_self hs]

theorem handOf_turned_ne {idx : Nat} (hne : idx ≠ i)
    (s : SlotState Λ σ) (work sends : Nat) (D : List LogEntry) :
    (e.turned idx s work sends D).handOf i = e.handOf i := by
  rw [handOf, handOf, runAt_turned_ne hne]

theorem handOf_of_run {slot : SlotState Λ σ}
    {run : Run Λ σ} (hs : e.slots[i]? = some slot) (hr : slot.run = some run) :
    e.handOf i = some (run.needsForward, run.currentPos) := by
  simp [handOf, runAt, hs, hr]

/-- Entries about other slots leave the ledger of this one. -/
theorem Handshake.frame {e' : BatchEngine Λ σ} {D : List LogEntry}
    (h : Handshake base p q i e) (hlog : e'.log = e.log ++ D)
    (hD : ∀ d ∈ D, Foreign i d)
    (hhand : e'.handOf i = e.handOf i) : Handshake base p q i e' := by
  obtain ⟨L, hL, hled, hpos⟩ := h
  have hfwd : forwardedBy i (L ++ D) = forwardedBy i L := by
    rw [forwardedBy_append, forwardedBy_foreigns hD, List.append_nil]
  refine ⟨L ++ D, by rw [hlog, hL, List.append_assoc], ?_, ?_⟩
  · rw [waiting, hhand]
    exact Ledger.foreigns hD hled
  · intro hand hh
    rw [hfwd]
    exact hpos hand (hhand ▸ hh)

/-- Forwarding a row keeps every ledger. -/
theorem Handshake.rowWritten (logits : List Token → Λ)
    (idx : Nat) (h : Handshake base p q i e) : Handshake base p q i
    (e.rowWritten logits idx) := by
  rcases rowWritten_cases logits e idx with ⟨-, heq⟩
    | ⟨slot, run, tok, hs, hr, hn, heq⟩
  · rwa [heq]
  rw [heq]
  by_cases hidx : idx = i
  · subst hidx
    obtain ⟨L, hL, hled, hpos⟩ := h
    have hhand := handOf_of_run hs hr
    have hwait : e.waiting idx = [tok] := by simp [waiting, hhand, hn]
    have hrow : run.currentPos = q + (forwardedBy idx L).length := hpos _ hhand
    rw [hwait] at hled
    refine ⟨L ++ [.forwarded idx tok run.currentPos], by simp [turned, hL], ?_, ?_⟩
    · simpa [waiting, handOf_turned_self hs, Run.written] using hled.forward hrow
    · intro hand hh
      have hone : forwardedBy idx [.forwarded idx tok run.currentPos]
          = [(tok, run.currentPos)] := by simp [forwardedBy]
      simp only [handOf_turned_self hs, Option.map_some, Option.some.injEq,
        Run.written] at hh
      rw [← hh, forwardedBy_append, hone, List.length_append, List.length_singleton]
      omega
  · refine h.frame rfl ?_ (handOf_turned_ne hidx _ _ _ _)
    simpa [Foreign] using hidx

/-- A row written leaves nothing waiting in its slot, and adds nothing to
another. -/
theorem waiting_rowWritten (logits : List Token → Λ)
    {idx : Nat} (h : idx = i ∨ e.waiting i = []) :
    (e.rowWritten logits idx).waiting i = [] := by
  rcases rowWritten_cases logits e idx with ⟨hnone, heq⟩
    | ⟨slot, run, tok, hs, hr, hn, heq⟩
  · rw [heq]
    rcases h with rfl | h
    · cases hrun : e.runAt idx with
      | none => simp [waiting, handOf, hrun]
      | some run => simp [waiting, handOf, hrun, hnone run hrun]
    · exact h
  · rw [heq]
    by_cases hidx : idx = i
    · subst hidx
      simp [waiting, handOf_turned_self hs, Run.written]
    · rw [waiting, handOf_turned_ne hidx]
      exact h.resolve_left hidx

/-- The bookkeeping of a forward keeps every ledger, and leaves every slot
it carried with nothing waiting. -/
theorem Handshake.rowsWritten
    (h : Handshake base p q i e) (logits : List Token → Λ) (rows : List Nat)
    (hwait : i ∈ rows ∨ e.waiting i = []) :
    Handshake base p q i (e.rowsWritten logits rows)
      ∧ (e.rowsWritten logits rows).waiting i = [] := by
  induction rows generalizing e with
  | nil => exact ⟨h, hwait.resolve_left (by simp)⟩
  | cons idx rows ih =>
      refine ih (h.rowWritten logits idx) ?_
      rcases hwait with hmem | hwait
      · rcases List.mem_cons.1 hmem with rfl | hmem
        · exact .inr (waiting_rowWritten logits (.inl rfl))
        · exact .inl hmem
      · exact .inr (waiting_rowWritten logits (.inr hwait))

/-- A slot's turn keeps its ledger when nothing waits there. -/
theorem Handshake.stepSlot (idx : Nat) (h : Handshake base p q i e)
    (hwait : idx = i → e.waiting i = []) : Handshake base p q i
    (e.stepSlot w idx).2 := by
  cases hrun : e.runAt idx with
  | none =>
      rw [stepSlot_idle hrun]
      exact h
  | some run =>
  obtain ⟨slot, hs, hr⟩ := runAt_eq_some.1 hrun
  obtain ⟨out, hout⟩ : ∃ out, out = e.stepSlot w idx := ⟨_, rfl⟩
  have hturn : Turn e idx slot run out := hout ▸ stepSlot_cases hs hr
  rw [← hout]
  by_cases hidx : idx = i
  · subst hidx
    obtain ⟨L, hL, hled, hpos⟩ := h
    rw [hwait rfl] at hled
    have hrow : run.currentPos = q + (forwardedBy idx L).length :=
      hpos _ (handOf_of_run hs hr)
    cases hturn with
    | moved run' tok sends T hT hroom hpending hcur hid hcontext hstamp =>
        have hopen := hled.opening (.inr ⟨T, hT, rfl⟩)
        refine ⟨L ++ (.sampled idx :: T) ++ [.committed idx tok],
          by simp [turned, hL], ?_, ?_⟩
        · simpa [waiting, handOf_turned_self hs, hpending] using hopen.commit tok
        · intro hand hh
          have hnone :
              forwardedBy idx ((.sampled idx :: T) ++ [.committed idx tok])
              = [] := by
            have hT' := forwardedBy_foreigns (i := idx) hT.foreign
            simpa [forwardedBy] using hT'
          simp only [handOf_turned_self hs, Option.map_some, Option.some.injEq] at hh
          rw [← hh, List.append_assoc, forwardedBy_append, hnone, List.append_nil]
          exact hcur.trans hrow
    | left cached sends S T hc hS hT =>
        refine ⟨L ++ S ++ T, by simp [turned, hL], ?_, ?_⟩
        · simpa [waiting, handOf_turned_self hs] using
            Ledger.foreigns hT.foreign (hled.opening hS)
        · simp [handOf_turned_self hs]
  · cases hturn with
    | moved run' tok sends T hT hroom hpending hcur hid hcontext hstamp =>
        refine h.frame rfl ?_ (handOf_turned_ne hidx _ _ _ _)
        intro d hd
        rcases List.mem_cons.1 hd with rfl | hd
        · exact hidx
        rcases List.mem_append.1 hd with hd | hd
        · exact hT.foreign d hd
        · rw [List.mem_singleton.1 hd]
          exact hidx
    | left cached sends S T hc hS hT =>
        refine h.frame rfl ?_ (handOf_turned_ne hidx _ _ _ _)
        intro d hd
        exact (List.mem_append.1 hd).elim (hS.foreign hidx d) (hT.foreign d)

/-- A turn of another slot leaves what waits here. -/
theorem waiting_stepSlot {idx : Nat} (hne : idx ≠ i) :
    (e.stepSlot w idx).2.waiting i = e.waiting i := by
  cases hrun : e.runAt idx with
  | none => rw [stepSlot_idle hrun]
  | some run =>
      obtain ⟨slot, hs, hr⟩ := runAt_eq_some.1 hrun
      have hturn := stepSlot_cases (w := w) hs hr
      revert hturn
      generalize e.stepSlot w idx = out
      rintro (_ | _) <;> simp only [waiting, handOf_turned_ne hne]

/-- Sampling every slot once keeps a ledger with nothing waiting. -/
theorem Handshake.stepSlots : ∀ (is : List Nat) {e : BatchEngine Λ σ}, is.Nodup →
    Handshake base p q i e → (i ∈ is → e.waiting i = []) →
      Handshake base p q i (e.stepSlots w is).2
  | [], _, _, h, _ => h
  | idx :: is, e, hnd, h, hwait => by
      obtain ⟨hnot, hnd⟩ := List.nodup_cons.1 hnd
      refine Handshake.stepSlots is hnd
        (h.stepSlot idx fun hidx => hwait (hidx ▸ List.mem_cons_self)) ?_
      intro hmem
      have hne : idx ≠ i := by
        rintro rfl
        exact hnot hmem
      rw [waiting_stepSlot hne]
      exact hwait (List.mem_cons_of_mem idx hmem)

theorem handOf_stampProgress (e : BatchEngine Λ σ) (moved : List Nat) :
    (e.stampProgress moved).handOf i = e.handOf i := by
  simp only [handOf, runAt, stampProgress, List.getElem?_mapIdx]
  cases e.slots[i]? with
  | none => rfl
  | some slot =>
      simp only [Option.map_some, Option.bind_some]
      split
      · cases slot.run <;> rfl
      · rfl

/-- The second half of a step keeps a ledger with nothing waiting. -/
theorem Handshake.sampleAll (rows : List Nat)
    (h : Handshake base p q i e) (hwait : e.waiting i = []) :
    Handshake base p q i (e.sampleAll w rows) := by
  have hsteps :=
    h.stepSlots (w := w) (List.range e.slots.length) List.nodup_range fun _ =>
    hwait
  refine hsteps.frame (D := []) ?_ (by simp) (handOf_stampProgress _ _)
  rw [BatchEngine.sampleAll, stampProgress, List.append_nil]

/-- No more tokens wait than one step forwards. -/
def Fits (e : BatchEngine Λ σ) : Prop := e.pendingRows.length ≤ maxBatch

/-- A waiting token of an engine that fits is in the step's batch. -/
theorem Fits.mem_stepSlotsOf (h : e.Fits) (hwait : e.waiting i ≠ []) :
    i ∈ e.stepSlotsOf := by
  have hall : e.stepRows = e.pendingRows := List.take_of_length_le h
  cases hs : e.slots[i]? with
  | none => simp [waiting, handOf, runAt, hs] at hwait
  | some slot =>
  cases hr : slot.run with
  | none => simp [waiting, handOf, runAt, hs, hr] at hwait
  | some run =>
  cases hn : run.needsForward with
  | none => simp [waiting, handOf, runAt, hs, hr, hn] at hwait
  | some tok =>
      rw [stepSlotsOf, hall, pendingRows]
      refine List.mem_map.2 ⟨(i, slot.seq, tok, run.currentPos), ?_, rfl⟩
      refine List.mem_filterMap.2 ⟨(slot, i), List.mem_zipIdx_iff_getElem?.2 hs, ?_⟩
      simp [hr, hn]

/-- A step keeps every ledger. -/
theorem Handshake.tick (seam : TickSeam) (h : Handshake base p q i e)
    (hfits : e.Fits) (hok : (e.tick w seam).1 = .ok ()) :
    Handshake base p q i (e.tick w seam).2 := by
  have hwait : i ∈ e.stepSlotsOf ∨ e.waiting i = [] := by
    by_cases hw : e.waiting i = []
    · exact .inr hw
    · exact .inl (hfits.mem_stepSlotsOf hw)
  obtain ⟨out, hout⟩ : ∃ out, out = e.tick w seam := ⟨_, rfl⟩
  have hcases : Ticked w e out := hout ▸ tick_cases w seam e
  rw [← hout] at hok ⊢
  cases hcases with
  | seam work => exact h
  | sampled hrows =>
      refine h.sampleAll [] (hwait.resolve_left ?_)
      simp [stepSlotsOf, hrows]
  | failed err e' hrows hf => cases hok
  | stepped logits e' hrows hf =>
      obtain ⟨c, -, rfl⟩ := forwardBatch_ok hf
      have hfwd : Handshake base p q i
          { e.forwarded c with workUnits :=
            (e.forwarded c).workUnits + e.stepRows.length } := h
      obtain ⟨hkept, hnone⟩ := hfwd.rowsWritten logits e.stepSlotsOf hwait
      exact hkept.sampleAll _ hnone

-- ======================= runs of steps

/-- A run of steps whose forwards succeed, each from a state that meets
`C`. -/
inductive Ticks (w : World Λ σ) (C : BatchEngine Λ σ → Prop) (e : BatchEngine Λ σ) :
    BatchEngine Λ σ → Prop
  | refl : Ticks w C e e
  | step {e' : BatchEngine Λ σ} (h : Ticks w C e e') (seam : TickSeam) (hc : C e')
      (hok : (e'.tick w seam).1 = .ok ()) : Ticks w C e (e'.tick w seam).2

/-- Between `e` and `e'`, the request in slot `i` lost no token: what it
committed was forwarded, in order, once each, at consecutive positions from
where it stood, but for the token that waits at the end; and it was sampled
only when nothing waited. -/
def NoTokenLost (e e' : BatchEngine Λ σ) (i : Nat) (run : Run Λ σ) : Prop :=
  ∃ L, e'.log = e.log ++ L
    ∧ Ledger run.needsForward.toList run.currentPos i L (e'.waiting i)

/-- In every run of steps each of which starts with at most `maxBatch`
waiting tokens, no request loses a token. -/
theorem ticks_lose_no_token {e' : BatchEngine Λ σ} (h : Ticks w Fits e e')
    {run : Run Λ σ}
    (hrun : e.runAt i = some run) : NoTokenLost e e' i run := by
  have hkept : Handshake e.log run.needsForward.toList run.currentPos i e' := by
    induction h with
    | refl =>
        have hhand : e.handOf i = some (run.needsForward, run.currentPos) := by
          rw [handOf, hrun, Option.map_some]
        refine ⟨[], by simp, ?_, ?_⟩
        · simpa [waiting, hhand] using Ledger.start run.needsForward.toList
            run.currentPos i
        · intro hand hh
          rw [hhand, Option.some.injEq] at hh
          simp [← hh, forwardedBy]
    | step _ seam hc hok ih => exact ih.tick seam hc hok
  obtain ⟨L, hlog, hled, -⟩ := hkept
  exact ⟨L, hlog, hled⟩

-- =================== two small engines

/-- A world in which everything goes through: the logits are the prefix,
and the sampled token is its length. -/
def counting : World (List Token) Unit where
  sample _ logits _ := (.ok logits.length, ())
  decodeBytes _ := [97]
  isStopToken _ := false
  logits _ context := context
  noLogits := []
  track := true
  gathers := false
  prefillBatchOk := true
  kvEnv := .plain
  failure _ := none
  sendOk _ := true

/-- An arena of `n` cells and one layer. -/
def blankArena (n : Nat) : KvCache Row :=
  KvCache.new.insert 0 .cpu (List.replicate n none)
    (List.replicate n none) 1 1 n false

/-- An engine of `n` slots of four cells, with a request of one prompt token
and three completion tokens admitted on each. -/
def crowd (n : Nat) : BatchEngine (List Token) Unit :=
  match BatchEngine.new counting (blankArena (4 * n)) n (4 * n) 0 with
  | .ok e => (e.admitJobs counting .off
      ((List.range n).map fun i => ⟨i, [5], ⟨3, []⟩, ()⟩)).2
  | .error _ => ⟨blankArena (4 * n), 4 * n, [], 0, 0, 0, 0, []⟩

/-- Two steps later. -/
def crowdLater (n : Nat) : BatchEngine (List Token) Unit :=
  (((crowd n).tick counting .off).2.tick counting .off).2

set_option maxRecDepth 8000 in
/-- Two requests, two steps: nothing is lost. -/
theorem two_slots_lose_no_token :
    ∃ run, (crowd 2).runAt 1 = some run ∧ run.needsForward = none
      ∧ NoTokenLost (crowd 2) (crowdLater 2) 1 run := by
  have hsome : ((crowd 2).runAt 1).isSome = true := by decide +kernel
  obtain ⟨run, hrun⟩ := Option.isSome_iff_exists.1 hsome
  have hfresh : ((crowd 2).runAt 1).bind (·.needsForward) = none := by decide +kernel
  have hticks : Ticks counting Fits (crowd 2) (crowdLater 2) :=
    .step (.step .refl .off (by unfold Fits; decide +kernel) (by decide +kernel)) .off
      (by unfold Fits; decide +kernel) (by decide +kernel)
  exact ⟨run, hrun, by simpa [hrun] using hfresh, ticks_lose_no_token hticks hrun⟩

set_option maxRecDepth 8000 in
/-- With 17 slots the last one is not in the second step's batch: its
waiting token is sampled over and never forwarded. -/
theorem seventeenth_slot_loses_token :
    ∃ run, Ticks counting (fun _ => True) (crowd 17) (crowdLater 17)
      ∧ (crowd 17).runAt 16 = some run
      ∧ ¬ NoTokenLost (crowd 17) (crowdLater 17) 16 run := by
  have hsome : ((crowd 17).runAt 16).isSome = true := by decide +kernel
  obtain ⟨run, hrun⟩ := Option.isSome_iff_exists.1 hsome
  have hfresh : ((crowd 17).runAt 16).bind (·.needsForward) = none := by
    decide +kernel
  have hticks : Ticks counting (fun _ => True) (crowd 17) (crowdLater 17) :=
    .step (.step .refl .off trivial (by decide +kernel)) .off trivial
      (by decide +kernel)
  refine ⟨run, hticks, hrun, ?_⟩
  rintro ⟨L, hlog, hled⟩
  have hbefore : (crowd 17).log = [] := by decide +kernel
  have hafter : committedBy 16 (crowdLater 17).log = [1, 1]
      ∧ forwardedBy 16 (crowdLater 17).log = []
      ∧ (crowdLater 17).waiting 16 = [1] := by
    decide +kernel
  have hnone : run.needsForward = none := by simpa [hrun] using hfresh
  have htokens := hled.tokens
  rw [hbefore, List.nil_append] at hlog
  rw [← hlog, hafter.1, hafter.2.1, hafter.2.2, hnone] at htokens
  exact absurd htokens (by decide)

end BatchEngine
end Minfer.Server
