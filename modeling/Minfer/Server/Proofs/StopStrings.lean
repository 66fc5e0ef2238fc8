/-
Stop strings (`server/batch.rs`, `server/chat.rs`): what a client is sent,
and when a request ends.

A stop string is looked for at the end of the bytes, after every token.
While a request goes on, the bytes it has accumulated hold no stop string
and the client has the decoded start of them (`Told`); the last turn sends
at most what lies before the earliest stop string the bytes end with. All
of it rests on tokens that complete no stop string and go on (`Clean`): one
that does is not noticed.
-/
import Mathlib.Data.List.Infix
import Minfer.Lib.Lossy
import Minfer.Server.Chat
import Minfer.Server.Proofs.Handshake

namespace Minfer.Server

open Minfer.Graph (KvCache SeqId Batch)
open Minfer.Lib (fromUtf8Lossy utf8Encode replacement)

variable {Λ σ : Type}

-- ========================== the suffix

-- ================================ text

/-- The text a client has been sent, in order. -/
def heard (id : Nat) (D : List LogEntry) : List Char :=
  D.flatMap fun
    | .sent job (.text chunk) true => if job = id then chunk else []
    | _ => []

theorem heard_append (id : Nat) (A B : List LogEntry) :
    heard id (A ++ B) = heard id A ++ heard id B :=
  List.flatMap_append

theorem heard_text (id : Nat) (chunk : List Char) :
    heard id [.sent id (.text chunk) true] = chunk := by
  simp [heard]

/-- Stop strings are texts: not empty, and without U+FFFD, which a decoding
may show where the bytes have something else. -/
def StopTexts (stops : List (List UInt8)) : Prop :=
  ∀ s ∈ stops, ∃ t, s = utf8Encode t ∧ t ≠ [] ∧ replacement ∉ t

/-- No stop string shows up in a text. -/
def NoStop (stops : List (List UInt8)) (text : List Char) : Prop :=
  ∀ t, utf8Encode t ∈ stops → ¬ t <:+: text

/-- No stop string is in the bytes. -/
def Clear (stops : List (List UInt8)) (bytes : List UInt8) : Prop :=
  ∀ s ∈ stops, ¬ s <:+: bytes

variable {stops : List (List UInt8)}

theorem Clear.of_infix {sub bytes : List UInt8}
    (h : Clear stops bytes) (hsub : sub <:+: bytes) : Clear stops sub :=
  fun s hs hin => h s hs (hin.trans hsub)

theorem StopTexts.ne_nil (h : StopTexts stops)
    {s : List UInt8} (hs : s ∈ stops) : s ≠ [] := by
  obtain ⟨t, rfl, hne, -⟩ := h s hs
  rcases t with _ | ⟨c, t⟩
  · exact absurd rfl hne
  · have hpos := c.utf8Size_pos
    intro hnil
    have hlen := congrArg List.length hnil
    rw [Lib.utf8Encode_cons, List.length_append, String.length_utf8EncodeChar,
      List.length_nil] at hlen
    omega

/-- Decoding bytes without a stop string shows none. -/
theorem Clear.noStop (hstops : StopTexts stops)
    {parts : List (List UInt8)} (h : Clear stops parts.flatten) :
    NoStop stops (parts.flatMap fromUtf8Lossy) := by
  intro t ht hin
  obtain ⟨t', heq, -, hrep⟩ := hstops _ ht
  have hsame : t = t' := by
    have hback := congrArg fromUtf8Lossy heq
    rwa [Lib.fromUtf8Lossy_utf8Encode, Lib.fromUtf8Lossy_utf8Encode] at hback
  exact h _ ht (Lib.infix_of_lossy_infix (hsame ▸ hrep) hin)

/-- Bytes that come to hold a stop string end with one, and hold none before
the earliest of those. -/
def StopsAtEnd (stops : List (List UInt8)) (bytes : List UInt8) : Prop :=
  ¬ Clear stops bytes → ∃ cut, matchStopSuffix bytes stops = some cut
    ∧ Clear stops (bytes.take cut)

/-- The bytes of a request hold no stop string, and its client has the
decoded start of them. -/
structure Told (stops : List (List UInt8)) (full : List UInt8) (emitted : Nat)
    (text : List Char) :
    Prop where
  parts : ∃ parts : List (List UInt8), parts.flatten = full.take emitted
    ∧ text = parts.flatMap fromUtf8Lossy
  le : emitted ≤ full.length
  clear : Clear stops full

section

variable {stops : List (List UInt8)} {full bytes piece : List UInt8}
  {emitted : Nat} {text : List Char}

theorem Told.noStop (h : Told stops full emitted text) (hstops : StopTexts stops) :
    NoStop stops text := by
  obtain ⟨parts, hparts, rfl⟩ := h.parts
  refine Clear.noStop hstops (h.clear.of_infix ?_)
  rw [hparts]
  exact (List.take_prefix ..).isInfix

/-- Before anything was generated. -/
theorem Told.start (hstops : StopTexts stops) : Told stops [] 0 [] :=
  ⟨⟨[], rfl, rfl⟩, Nat.le_refl _, fun _ hs hin =>
    hstops.ne_nil hs (List.infix_nil.mp hin)⟩

/-- More of the bytes is sent. -/
theorem Told.send (h : Told stops full emitted text)
    (hpiece : piece <+: full.drop emitted) :
    Told stops full (emitted + piece.length) (text ++ fromUtf8Lossy piece) := by
  obtain ⟨parts, hparts, rfl⟩ := h.parts
  have hle := h.le
  have hlen := hpiece.length_le
  rw [List.length_drop] at hlen
  refine ⟨⟨parts ++ [piece], ?_, ?_⟩, by omega, h.clear⟩
  · rw [List.flatten_append, hparts, List.take_add, List.flatten_singleton,
      ← List.prefix_iff_eq_take.mp hpiece]
  · rw [List.flatMap_append, List.flatMap_singleton]

/-- A token that completes no stop string. -/
theorem Told.commit (h : Told stops full emitted text)
    (hclean : StopsAtEnd stops (full ++ bytes))
    (hnone : (matchStopSuffix (full ++ bytes) stops).isSome = false) :
    Told stops (full ++ bytes) emitted text := by
  obtain ⟨parts, hparts, htext⟩ := h.parts
  have hle := h.le
  refine ⟨⟨parts, ?_, htext⟩, by rw [List.length_append]; omega, ?_⟩
  · rw [hparts, List.take_append_of_le_length hle]
  · by_contra hnot
    obtain ⟨cut, hcut, -⟩ := hclean hnot
    rw [hcut] at hnone
    cases hnone

/-- What the last turn sends after a stop string was found. -/
theorem Told.stop (h : Told stops full emitted text) (hstops : StopTexts stops)
    (hclean : StopsAtEnd stops (full ++ bytes)) {cut : Nat}
    (hcut : matchStopSuffix (full ++ bytes) stops = some cut)
    (hpiece : piece <+: ((full ++ bytes).take cut).drop emitted) :
    NoStop stops (text ++ fromUtf8Lossy piece) := by
  obtain ⟨parts, hparts, rfl⟩ := h.parts
  have hle := h.le
  have hclear : Clear stops ((full ++ bytes).take cut) := by
    by_cases hfull : Clear stops (full ++ bytes)
    · exact hfull.of_infix (List.take_prefix ..).isInfix
    · obtain ⟨cut', hcut', hbefore⟩ := hclean hfull
      rw [hcut] at hcut'
      cases hcut'
      exact hbefore
  rw [← List.flatMap_singleton fromUtf8Lossy piece, ← List.flatMap_append]
  refine Clear.noStop hstops ?_
  rw [List.flatten_append, hparts, List.flatten_singleton]
  by_cases hbehind : cut ≤ emitted
  · -- the stop string starts before the end of what was sent
    have hnil : piece = [] := by
      refine List.prefix_nil.mp (hpiece.trans ?_)
      rw [List.drop_eq_nil_of_le (by rw [List.length_take]; omega)]
    rw [hnil, List.append_nil]
    exact h.clear.of_infix (List.take_prefix ..).isInfix
  · refine hclear.of_infix (List.IsPrefix.isInfix ?_)
    have htake : full.take emitted = ((full ++ bytes).take cut).take emitted := by
      rw [List.take_take, Nat.min_eq_left (by omega),
        List.take_append_of_le_length hle]
    rw [htake]
    conv => rhs; rw [← List.take_append_drop emitted ((full ++ bytes).take cut)]
    exact (List.prefix_append_right_inj _).mpr hpiece

end

-- ========================== the engine

/-- The token a request samples next completes no stop string and goes on. -/
def Clean (w : World Λ σ) (run : Run Λ σ) : Prop :=
  ∀ tok, (w.sample run.sampler run.lastLogits run.prevTokens).1 = .ok tok →
    w.isStopToken tok = false →
    StopsAtEnd run.params.stopStrings (run.full ++ w.decodeBytes tok)

open BatchEngine

variable {w : World Λ σ} {e e' : BatchEngine Λ σ} {idx : Nat}
  {slot : SlotState Λ σ} {run run' : Run Λ σ} {text : List Char}

/-- What `finish` sends: the tail, if it gets through, and the end. -/
theorem heard_finish (reason : FinishReason) (hs : e.slots[idx]? = some slot)
    (hr : slot.run = some run) : ∃ T, (e.finish w idx reason).log = e.log ++ T
      ∧ (heard run.id T = [] ∨ heard run.id T = fromUtf8Lossy (Run.tail run)) := by
  by_cases ht : (Run.tail run).isEmpty = true
  · refine ⟨[.sent run.id (.finish reason run.completionTokens)
      (w.sendOk e.sends)], ?_, .inl rfl⟩
    simp [finish, hs, hr, ht, send, setSlot]
  · cases hd : w.sendOk e.sends with
    | true =>
        refine ⟨[.sent run.id (.text (fromUtf8Lossy (Run.tail run))) true,
          .sent run.id (.finish reason run.completionTokens)
            (w.sendOk (e.sends + 1))], ?_, .inr ?_⟩
        · simp [finish, hs, hr, ht, hd, send, setSlot]
        · simp [heard]
    | false =>
        refine ⟨[.sent run.id (.text (fromUtf8Lossy (Run.tail run))) false],
          ?_, .inl rfl⟩
        simp [finish, hs, hr, ht, hd, send, setSlot]

theorem heard_fail (err : ApiError) (hs : e.slots[idx]? = some slot)
    (hr : slot.run = some run) :
    ∃ T, (e.fail w idx err).log = e.log ++ T ∧ heard run.id T = [] := by
  rw [fail_eq hs hr]
  exact ⟨_, rfl, rfl⟩

theorem heard_showEntries (run : Run Λ σ) :
    heard run.id (showEntries run true) = fromUtf8Lossy (Run.pendingText run) := by
  unfold showEntries
  split
  next h =>
    rw [List.isEmpty_iff.mp h]
    rfl
  next => exact heard_text ..

theorem pendingText_prefix (run : Run Λ σ) :
    Run.pendingText run <+: run.full.drop run.emitted :=
  List.take_prefix ..

/-- The flush of a request whose bytes hold no stop string. -/
theorem Told.tail (h : Told run.params.stopStrings run.full run.emitted text)
    (hstops : StopTexts run.params.stopStrings) :
    NoStop run.params.stopStrings (text ++ fromUtf8Lossy (Run.tail run)) := by
  have hpiece : Run.tail run <+: run.full.drop run.emitted := by
    refine (List.take_prefix ..).trans ?_
    split
    next cut hcut =>
      exact List.IsPrefix.drop (List.take_prefix cut run.full) run.emitted
    next => exact List.prefix_rfl
  exact (h.send hpiece).noStop hstops

/-- A request that leaves: what its client heard in its last turn. -/
theorem heard_left {reason : FinishReason} {D : List LogEntry} {sends : Nat}
    (hs : e.slots[idx]? = some slot) (hid : run'.id = run.id)
    {chunk : List Char} (hD : heard run.id D = chunk) :
    heard run.id
      (((e.kept idx slot run' sends D).finish w idx reason).log.drop
        e.log.length) = chunk
      ∨ heard run.id
        (((e.kept idx slot run' sends D).finish w idx reason).log.drop
          e.log.length)
        = chunk ++ fromUtf8Lossy (Run.tail run') := by
  have hs' :=
      getElem?_turned_self hs { slot with run := some run' } e.workUnits
      sends D
  obtain ⟨T, hlog, hT⟩ :=
    @heard_finish Λ σ w (e.kept idx slot run' sends D) idx _ run' reason
    hs' rfl
  have hall : ((e.kept idx slot run' sends D).finish w idx reason).log
      = e.log ++ (D ++ T) := by
    rw [hlog, ← List.append_assoc]
    rfl
  rw [hall, List.drop_left, heard_append, hD, ← hid]
  rcases hT with hT | hT
  · left
    rw [hT, List.append_nil]
  · right
    rw [hT]

theorem NoStop.of_append {text more : List Char}
    (h : NoStop stops (text ++ more)) :
    NoStop stops text :=
  fun t ht hin => h t ht (hin.trans (List.prefix_append ..).isInfix)

/-- A token taken in, and the complete text sent. -/
theorem Told.take (h : Told run.params.stopStrings run.full run.emitted text)
    {tok : Token} {s : σ}
    (hat : StopsAtEnd run.params.stopStrings (run.full ++ w.decodeBytes tok))
    (hrun : run' = Run.commit w { run with sampler := s } tok)
    (hmatch : (matchStopSuffix run'.full run'.params.stopStrings).isSome = false) :
    Told run.params.stopStrings run'.full (Run.shown run').emitted
      (text ++ fromUtf8Lossy (Run.pendingText run')) := by
  have hfull : run'.full = run.full ++ w.decodeBytes tok := by rw [hrun, Run.commit]
  have hparams : run'.params = run.params := by rw [hrun, Run.commit]
  have hemitted : run'.emitted = run.emitted := by rw [hrun, Run.commit]
  rw [hfull, hparams] at hmatch
  have hpiece := pendingText_prefix run'
  have htold := h.commit hat hmatch
  rw [← hfull, ← hemitted] at htold
  exact htold.send hpiece

/-- A turn that goes on took in a token, and sent the complete text. -/
theorem stepSlot_goes_on (hs : e.slots[idx]? = some slot)
    (hr : slot.run = some run) (hstep : e.stepSlot w idx = (true, e')) :
    ∃ tok s run',
      w.sample run.sampler run.lastLogits run.prevTokens = (.ok tok, s)
        ∧ w.isStopToken tok = false
        ∧ run' = Run.commit w { run with sampler := s } tok
        ∧ (matchStopSuffix run'.full run'.params.stopStrings).isSome = false
        ∧ e'.runAt idx = some { Run.shown run' with needsForward := some tok }
        ∧ heard run.id (e'.log.drop e.log.length)
          = fromUtf8Lossy (Run.pendingText run') := by
  simp only [stepSlot, hs, hr] at hstep
  obtain ⟨out, hout⟩ : ∃ out, out = e.advance w idx slot run := ⟨_, rfl⟩
  have hcases := advance_cases w e idx slot run
  rw [← hout] at hcases hstep
  cases hcases with
  | spent _ => cases hstep
  | refused msg s _ _ => cases hstep
  | eog tok s _ _ _ => cases hstep
  | stopString tok s run' _ _ _ _ _ => cases hstep
  | hungUp tok s run' _ _ _ _ _ _ _ => cases hstep
  | last tok s run' _ _ _ _ _ _ => cases hstep
  | committed tok s run' _ hsample hstop hrun hmatch hlast =>
      cases hstep
      have hid : run'.id = run.id := by rw [hrun, Run.commit]
      refine ⟨tok, s, run', hsample, hstop, hrun, hmatch, ?_, ?_⟩
      · have hget := getElem?_turned_self hs
          { slot with run := some { Run.shown run' with needsForward := some tok } } e.workUnits
          (e.sends + showSends run')
            (.sampled idx :: (showEntries run' true ++ [.committed idx tok]))
        exact runAt_eq_some.mpr ⟨_, hget, rfl⟩
      · show heard run.id ((e.log ++ (LogEntry.sampled idx :: (showEntries run' true
          ++ [LogEntry.committed idx tok]))).drop e.log.length) = _
        rw [List.drop_left, ← hid]
        refine Eq.trans ?_ (heard_showEntries run')
        refine (heard_append _ (.sampled idx :: showEntries run' true)
          [.committed idx tok]).trans ?_
        exact List.append_nil _

/-- One turn of a request: it goes on with what its client was sent, or it
leaves and its client has read no stop string. -/
theorem Told.turn (h : Told run.params.stopStrings run.full run.emitted text)
    (hstops : StopTexts run.params.stopStrings) (hclean : Clean w run)
    (hs : e.slots[idx]? = some slot) (hr : slot.run = some run) {moved : Bool}
    (hstep : e.stepSlot w idx = (moved, e')) :
    if moved then ∃ run' tok, e'.runAt idx = some run' ∧ run'.needsForward = some tok
        ∧ run'.id = run.id ∧ run'.params = run.params
        ∧ run'.full = run.full ++ w.decodeBytes tok
        ∧ Told run.params.stopStrings run'.full run'.emitted
          (text ++ heard run.id (e'.log.drop e.log.length))
      else NoStop run.params.stopStrings
        (text ++ heard run.id (e'.log.drop e.log.length)) := by
  have hends : ∀ {full' : List Char} {chunk rest : List Char},
      NoStop run.params.stopStrings (text ++ (chunk ++ rest)) →
      full' = chunk ∨ full' = chunk ++ rest →
          NoStop run.params.stopStrings (text ++ full') := by
    rintro full' chunk rest hall (rfl | rfl)
    · rw [← List.append_assoc] at hall
      exact hall.of_append
    · exact hall
  have hsampled : heard run.id [.sampled idx] = [] := rfl
  cases moved with
  | true =>
      obtain ⟨tok, s, run', hsample, hstop, hrun, hmatch, hrun', hheard⟩ :=
        stepSlot_goes_on hs hr hstep
      rw [if_pos rfl]
      refine ⟨_, tok, hrun', rfl, ?_, ?_, ?_, ?_⟩
      · rw [hrun]
        rfl
      · rw [hrun]
        rfl
      · rw [hrun]
        rfl
      · rw [hheard]
        exact h.take (hclean tok (by rw [hsample]) hstop) hrun hmatch
  | false =>
  -- a request that leaves with nothing new
  have hquiet : ∀ {reason : FinishReason} (s : σ),
      NoStop run.params.stopStrings (text ++ heard run.id
        (((e.kept idx slot { run with sampler := s } e.sends
          [.sampled idx]).finish w idx reason).log.drop
          e.log.length)) :=
    fun {reason} s => hends (h.tail hstops)
      (@heard_left Λ σ w e idx slot run { run with sampler :=
        s } reason _ e.sends hs rfl [] hsampled)
  simp only [stepSlot, hs, hr] at hstep
  obtain ⟨out, hout⟩ : ∃ out, out = e.advance w idx slot run := ⟨_, rfl⟩
  have hcases := advance_cases w e idx slot run
  rw [← hout] at hcases hstep
  cases hcases with
  | spent _ =>
      cases hstep
      obtain ⟨T, hlog, hT⟩ := @heard_finish Λ σ w e idx slot run .length hs hr
      rw [if_neg Bool.false_ne_true, hlog, List.drop_left]
      exact hends (h.tail hstops) hT
  | refused msg s _ _ =>
      cases hstep
      exact hquiet s
  | eog tok s _ _ _ =>
      cases hstep
      exact hquiet s
  | stopString tok s run' _ hsample hstop hrun hmatch =>
      cases hstep
      obtain ⟨cut, hcut⟩ := Option.isSome_iff_exists.mp hmatch
      have hat := hclean tok (by rw [hsample]) hstop
      have hfull : run'.full = run.full ++ w.decodeBytes tok := by
        rw [hrun, Run.commit]
      have hparams : run'.params = run.params := by rw [hrun, Run.commit]
      have hemitted : run'.emitted = run.emitted := by rw [hrun, Run.commit]
      have htail : Run.tail run'
          <+: ((run.full ++ w.decodeBytes tok).take cut).drop run.emitted := by
        unfold Run.tail
        rw [hcut]
        simp only [hfull, hemitted]
        exact List.take_prefix ..
      rw [hfull, hparams] at hcut
      refine hends (h.stop hstops hat hcut htail) (heard_left hs ?_ hsampled)
      rw [hrun, Run.commit]
  | hungUp tok s run' _ hsample hstop hrun hmatch htext hsend =>
      cases hstep
      have hid : run'.id = run.id := by rw [hrun, Run.commit]
      have hs' :=
        getElem?_turned_self hs { slot with run := some run' } e.workUnits
        (e.sends + 1)
        (.sampled idx :: showEntries run' false)
      obtain ⟨T, hlog, hT⟩ :=
        @heard_fail Λ σ w _ idx _ run' (.server "client disconnected") hs' rfl
      have hshow : heard run.id (showEntries run' false) = [] := by
        unfold showEntries
        split <;> rfl
      have hall : ((e.kept idx slot run' (e.sends + 1)
          (.sampled idx :: showEntries run' false)).fail w idx
          (.server "client disconnected")).log
              = e.log ++ ([.sampled idx] ++ showEntries run' false ++ T) := by
        refine hlog.trans ?_
        rw [← List.append_assoc]
        rfl
      rw [if_neg Bool.false_ne_true, hall, List.drop_left, heard_append,
        heard_append, hshow, hsampled,
        ← hid, hT, List.append_nil, List.append_nil, List.append_nil]
      exact h.noStop hstops
  | last tok s run' _ hsample hstop hrun hmatch hlast =>
      cases hstep
      have hid : run'.id = run.id := by rw [hrun, Run.commit]
      have hparams : run'.params = run.params := by rw [hrun, Run.commit]
      have htold := h.take (hclean tok (by rw [hsample]) hstop) hrun hmatch
      have hflush : NoStop run.params.stopStrings
          (text ++ fromUtf8Lossy (Run.pendingText run')
          ++ fromUtf8Lossy (Run.tail (Run.shown run'))) := by
        have hp : (Run.shown run').params = run.params := hparams
        have htail : Told (Run.shown run').params.stopStrings (Run.shown run').full
            (Run.shown run').emitted
                (text ++ fromUtf8Lossy (Run.pendingText run')) := by
          rw [hp]
          exact htold
        have hflush := htail.tail (by rw [hp]; exact hstops)
        rwa [hp] at hflush
      rw [List.append_assoc] at hflush
      have hD : heard run.id (.sampled idx :: showEntries run' true)
          = fromUtf8Lossy (Run.pendingText run') := by
        rw [← hid]
        exact heard_showEntries run'
      have hid' : (Run.shown run').id = run.id := hid
      exact hends hflush (heard_left hs hid' hD)
  | committed tok s run' _ _ _ _ _ _ => cases hstep

-- ================================ runs

/-- A request on a slot, from its admission on: the tokens it took in, its
record, and the text its client has. Between its turns the record's other
fields move (`idle`): its row is written, other slots are served. `meets`
holds of every record a turn starts from. -/
inductive Decoding (w : World Λ σ) (meets : Run Λ σ → Prop) (idx : Nat)
    (job : Job σ) :
    List Token → Run Λ σ → List Char → Prop
  | admitted {run : Run Λ σ} (hid : run.id = job.id)
      (hparams : run.params = job.params)
      (hfull : run.full = []) (hemitted : run.emitted = 0) :
        Decoding w meets idx job [] run []
  | idle {toks : List Token} {run run' : Run Λ σ} {text : List Char}
      (hd : Decoding w meets idx job toks run text) (hid : run'.id = run.id)
      (hparams : run'.params = run.params) (hfull : run'.full = run.full)
      (hemitted : run'.emitted = run.emitted) :
        Decoding w meets idx job toks run' text
  | turn {toks : List Token} {run run' : Run Λ σ} {text : List Char}
      {e e' : BatchEngine Λ σ}
      {slot : SlotState Λ σ} {tok : Token}
        (hd : Decoding w meets idx job toks run text)
      (hmeets : meets run) (hs : e.slots[idx]? = some slot) (hr : slot.run = some run)
      (hstep : e.stepSlot w idx = (true, e')) (hrun : e'.runAt idx = some run')
      (htok : run'.needsForward = some tok) :
      Decoding w meets idx job (toks ++ [tok]) run'
        (text ++ heard job.id (e'.log.drop e.log.length))

/-- What holds of a request that goes on. -/
theorem Decoding.told {job : Job σ} {toks : List Token}
    (hstops : StopTexts job.params.stopStrings)
    (h : Decoding w (Clean w) idx job toks run text) :
    run.id = job.id ∧ run.params = job.params ∧ run.full = toks.flatMap w.decodeBytes
      ∧ Told job.params.stopStrings run.full run.emitted text := by
  induction h with
  | admitted hid hparams hfull hemitted =>
      refine ⟨hid, hparams, hfull, ?_⟩
      rw [hfull, hemitted]
      exact .start hstops
  | idle _ hid hparams hfull hemitted ih =>
      obtain ⟨hid₀, hparams₀, hfull₀, htold⟩ := ih
      refine ⟨hid.trans hid₀, hparams.trans hparams₀, hfull.trans hfull₀, ?_⟩
      rw [hfull, hemitted]
      exact htold
  | turn _ hmeets hs hr hstep hrun htok ih =>
      obtain ⟨hid, hparams, hfull, htold⟩ := ih
      rw [← hparams] at htold hstops
      have hturn := htold.turn hstops hmeets hs hr hstep
      rw [if_pos rfl] at hturn
      obtain ⟨run', tok, hrun', htok', hid', hparams', hfull', htold'⟩ := hturn
      rw [hrun] at hrun'
      cases hrun'
      rw [htok] at htok'
      cases htok'
      refine ⟨hid'.trans hid, hparams'.trans hparams, ?_, ?_⟩
      · rw [hfull', hfull, List.flatMap_append, List.flatMap_singleton]
      · rw [← hid, ← hparams]
        exact htold'

/-- The record on a slot is that of a request since its admission. -/
def Served (w : World Λ σ) (meets : Run Λ σ → Prop) (idx : Nat) (job : Job σ)
    (e : BatchEngine Λ σ) : Prop :=
  ∀ run, e.runAt idx = some run → ∃ toks text, Decoding w meets idx job toks run text

section

variable {meets : Run Λ σ → Prop} {job : Job σ}

theorem Served.of_runAt (h : Served w meets idx job e)
    (hrun : e'.runAt idx = e.runAt idx) :
    Served w meets idx job e' := fun run hr => h run (hrun ▸ hr)

theorem Served.stepSlot (h : Served w meets idx job e)
    (hmeets : ∀ run, meets run) (j : Nat) :
    Served w meets idx job (e.stepSlot w j).2 := by
  cases hj : e.runAt j with
  | none =>
      rw [stepSlot_idle hj]
      exact h
  | some runj =>
      obtain ⟨slot, hs, hr⟩ := runAt_eq_some.mp hj
      have hcases : Turn e j slot runj (e.stepSlot w j) := stepSlot_cases hs hr
      obtain ⟨out, hout⟩ : ∃ out, out = e.stepSlot w j := ⟨_, rfl⟩
      by_cases hne : j = idx
      · subst hne
        rw [← hout] at hcases ⊢
        intro run' hrun'
        cases hcases with
        | moved run₁ tok sends T hT hroom hpending hpos hid hcontext hstamp =>
            obtain ⟨toks, text, hd⟩ := h runj hj
            have htok : run'.needsForward = some tok := by
              rw [runAt_turned_self hs] at hrun'
              cases hrun'
              exact hpending
            exact ⟨_, _, .turn hd (hmeets runj) hs hr hout.symm hrun' htok⟩
        | left cached sends S T hc hS hT =>
            rw [runAt_turned_self hs] at hrun'
            cases hrun'
      · refine h.of_runAt ?_
        rw [← hout] at hcases ⊢
        cases hcases with
        | moved => exact runAt_turned_ne hne ..
        | left => exact runAt_turned_ne hne ..

theorem Served.rowWritten (h : Served w meets idx job e)
    (logits : List Token → Λ) (j : Nat) :
    Served w meets idx job (e.rowWritten logits j) := by
  rcases rowWritten_cases logits e j with ⟨-, heq⟩ | ⟨slot, run, tok, hs, hr, -, heq⟩
  · rw [heq]
    exact h
  · rw [heq]
    by_cases hne : j = idx
    · subst hne
      intro run' hrun'
      rw [runAt_turned_self hs] at hrun'
      cases hrun'
      obtain ⟨toks, text, hd⟩ := h run (runAt_eq_some.mpr ⟨slot, hs, hr⟩)
      exact ⟨toks, text, hd.idle rfl rfl rfl rfl⟩
    · exact h.of_runAt (runAt_turned_ne hne ..)

theorem Served.fail (h : Served w meets idx job e) (j : Nat) (err : ApiError) :
    Served w meets idx job (e.fail w j err) := by
  cases hs : e.slots[j]? with
  | none =>
      rw [BatchEngine.fail, hs]
      exact h
  | some slot =>
      have hslots : (e.fail w j err).slots
          = e.slots.set j { slot with run := none, cachedTokens := [] } := by
        unfold BatchEngine.fail
        simp only [hs]
        cases hr : slot.run with
        | none => rfl
        | some run => rfl
      have hlt : j < e.slots.length := (List.getElem?_eq_some_iff.mp hs).1
      intro run hrun
      rw [runAt, hslots] at hrun
      by_cases hne : j = idx
      · rw [← hne, List.getElem?_set_self hlt] at hrun
        cases hrun
      · rw [List.getElem?_set_ne hne] at hrun
        exact h run hrun

theorem Served.foldl {α : Type} {f : BatchEngine Λ σ → α → BatchEngine Λ σ}
    (hf : ∀ e a, Served w meets idx job e → Served w meets idx job (f e a))
    (as : List α) (h : Served w meets idx job e) : Served w meets idx job
    (as.foldl f e) := by
  induction as generalizing e with
  | nil => exact h
  | cons a as ih => exact ih (hf e a h)

theorem Served.sampleAll (h : Served w meets idx job e) (hmeets : ∀ run, meets run)
    (rows : List Nat) : Served w meets idx job (e.sampleAll w rows) := by
  have hsteps : ∀ (js : List Nat) {e : BatchEngine Λ σ}, Served w meets idx job e →
      Served w meets idx job (e.stepSlots w js).2 := by
    intro js
    induction js with
    | nil => exact fun h => h
    | cons j js ih => exact fun h => ih (h.stepSlot hmeets j)
  intro run hrun
  have hall := hsteps (List.range e.slots.length) h
  obtain ⟨e₁, he₁⟩ : ∃ e₁,
    e₁ = (e.stepSlots w (List.range e.slots.length)).2 := ⟨_, rfl⟩
  -- the stamp leaves everything else of a record alone
  have hstamp : ∃ run₀, e₁.runAt idx = some run₀ ∧ run.id = run₀.id
      ∧ run.params = run₀.params
      ∧ run.full = run₀.full ∧ run.emitted = run₀.emitted := by
    rw [BatchEngine.sampleAll, ← he₁, runAt, stampProgress,
      List.getElem?_mapIdx] at hrun
    cases hs : e₁.slots[idx]? with
    | none =>
        rw [hs] at hrun
        cases hrun
    | some slot =>
        rw [hs, Option.map_some, Option.bind_some] at hrun
        split at hrun
        · obtain ⟨run₀, hrun₀, rfl⟩ := Option.map_eq_some_iff.mp hrun
          exact ⟨run₀, runAt_eq_some.mpr ⟨slot, hs, hrun₀⟩, rfl, rfl, rfl, rfl⟩
        · exact ⟨run, runAt_eq_some.mpr ⟨slot, hs, hrun⟩, rfl, rfl, rfl, rfl⟩
  obtain ⟨run₀, hrun₀, hid, hparams, hfull, hemitted⟩ := hstamp
  obtain ⟨toks, text, hd⟩ := hall run₀ (he₁ ▸ hrun₀)
  exact ⟨toks, text, hd.idle hid hparams hfull hemitted⟩

/-- A decode step moves a request by turns. -/
theorem Served.tick (h : Served w meets idx job e) (hmeets : ∀ run, meets run)
    (seam : TickSeam) :
    Served w meets idx job (e.tick w seam).2 := by
  have hforward : ∀ {res : Except ApiError (List Token → Λ)} {e₁ : BatchEngine Λ σ},
      e.forwardBatch w (stepBatch e.stepRows) = (res, e₁) →
          Served w meets idx job e₁ := by
    intro res e₁ hf
    refine h.of_runAt ?_
    unfold BatchEngine.forwardBatch at hf
    split at hf <;> (cases hf; rfl)
  have hcases := tick_cases w seam e
  obtain ⟨out, hout⟩ : ∃ out, out = e.tick w seam := ⟨_, rfl⟩
  rw [← hout] at hcases ⊢
  cases hcases with
  | seam work => exact h
  | sampled _ => exact h.sampleAll hmeets []
  | failed err e₁ _ hf =>
      exact Served.foldl (fun e j hj => hj.fail j err) _ (hforward hf)
  | stepped logits e₁ _ hf =>
      refine Served.sampleAll ?_ hmeets _
      exact Served.foldl (fun e j hj => hj.rowWritten logits j) _
        ((hforward hf).of_runAt rfl)

end

-- =================== the serial worker

namespace Serial

variable {w : SerialWorld Λ σ}

/-- The records the turns of `generate_seq`'s loop start from. -/
def loopRuns (w : SerialWorld Λ σ) (nCtxSlot : Nat) : Nat → Serial → Run Λ σ →
    List (Run Λ σ)
  | 0, _, _ => []
  | room + 1, st, run =>
      if BatchEngine.Run.budgetDone run then []
      else if run.currentPos ≥ nCtxSlot then []
      else match w.panics st.samples with
      | some _ => []
      | none =>
        run ::
          let st := { st with samples := st.samples + 1 }
          let sampled := w.sample run.sampler run.lastLogits run.prevTokens
          let run := { run with sampler := sampled.2 }
          match sampled.1 with
          | .error _ => []
          | .ok tok =>
            if w.isStopToken tok then []
            else
              let run := BatchEngine.Run.commit w.toWorld run tok
              match matchStopSuffix run.full run.params.stopStrings with
              | some _ => []
              | none =>
                  let text := BatchEngine.Run.pendingText run
                  match st.emit w run.id text with
                  | (.error _, _) => []
                  | (.ok (), st) =>
                      let run := { run with emitted := run.emitted + text.length }
                      match st.guardedForward w [tok] [run.currentPos] with
                      | (.error _, _) => []
                      | (.ok logits, st) =>
                          loopRuns w nCtxSlot room
                            (if w.track then { st with cachedTokens :=
                              st.cachedTokens ++ [tok] }
                              else st)
                            { run with lastLogits := logits (run.context ++ [tok])
                                       currentPos := run.currentPos + 1
                                       context := run.context ++ [tok] }

/-- The records the turns of `generate_seq` start from. -/
def turnRuns (w : SerialWorld Λ σ) (nCtxSlot : Nat) (st : Serial)
    (job : Job σ) : List (Run Λ σ) :=
  if job.inputIds.isEmpty then []
  else if job.inputIds.length > nCtxSlot then []
  else
    let batch := st.prefillBatch w job.inputIds
    match st.guardedForward w batch.tokens batch.positions with
    | (.error _, _) => []
    | (.ok logits, st) =>
        loopRuns w nCtxSlot (nCtxSlot - job.inputIds.length + 1)
          { st with cachedTokens := if w.track then job.inputIds else [] }
          (startRun job (logits job.inputIds))

/-- What one `emit` adds to what the client heard. -/
theorem heard_emit {st st' : Serial} {id : Nat} {bytes : List UInt8}
    {res : Except ApiError Unit}
    (h : st.emit w id bytes = (res, st')) : ∃ D, st'.log = st.log ++ D
      ∧ (res = .ok () → heard id D = fromUtf8Lossy bytes)
      ∧ (∀ err, res = .error err → heard id D = []) := by
  unfold emit at h
  split at h
  next hnil =>
    cases h
    rw [List.isEmpty_iff.mp hnil]
    exact ⟨[], (List.append_nil _).symm, fun _ => rfl, fun _ _ => rfl⟩
  next =>
    cases hok : w.sendOk st.sends with
    | true =>
        simp only [send, hok] at h
        cases h
        exact ⟨_, rfl, fun _ => heard_text .., nofun⟩
    | false =>
        simp only [send, hok] at h
        cases h
        exact ⟨_, rfl, nofun, fun _ _ => rfl⟩

theorem log_guardedForward {st st' : Serial} {tokens : List Token}
    {positions : List Nat} {res : Except ApiError (List Token → Λ)}
    (h : st.guardedForward w tokens positions = (res, st')) :
    st'.log = st.log := by
  unfold guardedForward at h
  split at h <;> (cases h; rfl)

variable {st st' : Serial} {run run' : Run Λ σ} {text : List Char} {nCtxSlot : Nat}

/-- What the loop leaves to the flush: bytes that hold no stop string, or
nothing but what lies before one. -/
def Ready (stops : List (List UInt8)) (left : Left Λ σ) (text : List Char) : Prop :=
  if left.2.1 then NoStop stops text ∧ flushBytes true left.2.2 = []
  else Told stops left.2.2.full left.2.2.emitted text

/-- What holds after the loop. -/
def Ends (stops : List (List UInt8)) (text : List Char) :
    Except Halt (Left Λ σ) → Prop
  | .error _ => NoStop stops text
  | .ok left => Ready stops left text

/-- A part of the loop as its client sees it: the turns in it start from bytes
without a stop string, and what the client hears holds none. -/
structure Leaves (log : List LogEntry) (run : Run Λ σ) (text : List Char)
    (runs : List (Run Λ σ)) (r : Except Halt (Left Λ σ))
    (log' : List LogEntry) : Prop where
  clear : ∀ run' ∈ runs, Clear run.params.stopStrings run'.full
  told : ∃ D, log' = log ++ D
    ∧ Ends run.params.stopStrings (text ++ heard run.id D) r
  same : ∀ left, r = .ok left →
    left.2.2.id = run.id ∧ left.2.2.params = run.params

section

variable {runs : List (Run Λ σ)} {r : Except Halt (Left Λ σ)}
  {log log' D : List LogEntry} {tok : Token} {s : σ}

/-- The loop is left before a token is taken in. -/
theorem Leaves.quiet
    (htold : Told run.params.stopStrings run.full run.emitted text)
    (hclear : ∀ run' ∈ runs, Clear run.params.stopStrings run'.full)
    (reason : FinishReason) (s : σ) :
    Leaves log run text runs (.ok (reason, false, { run with sampler := s }))
      log where
  clear := hclear
  told := by
    refine ⟨[], (List.append_nil _).symm, ?_⟩
    rw [show heard run.id [] = [] from rfl, List.append_nil]
    exact htold
  same := by
    rintro left ⟨⟩
    exact ⟨rfl, rfl⟩

/-- The loop fails after the client heard no stop string. -/
theorem Leaves.halt
    (hclear : ∀ run' ∈ runs, Clear run.params.stopStrings run'.full)
    (hlog : log' = log ++ D)
    (hno : NoStop run.params.stopStrings (text ++ heard run.id D))
    (halt : Halt) : Leaves log run text runs (.error halt) log' where
  clear := hclear
  told := ⟨D, hlog, hno⟩
  same := nofun

/-- A token that completes a stop string: what lies before it was sent, and
the flush starts behind it. -/
theorem Leaves.stop (hstops : StopTexts run.params.stopStrings)
    (htold : Told run.params.stopStrings run.full run.emitted text)
    (hat : StopsAtEnd run.params.stopStrings (run.full ++ w.decodeBytes tok))
    (hrun : run' = BatchEngine.Run.commit w.toWorld
      { run with sampler := s } tok)
    {cut : Nat}
    (hmatch : matchStopSuffix run'.full run'.params.stopStrings = some cut)
    (hclear : ∀ run' ∈ runs, Clear run.params.stopStrings run'.full)
    (hlog : log' = log ++ D)
    (hD : heard run.id D
      = fromUtf8Lossy ((run'.full.take cut).drop run'.emitted)) :
    Leaves log run text runs
      (.ok (.stop, true, { run' with emitted := max run'.emitted cut }))
      log' where
  clear := hclear
  told := by
    have hparams : run'.params = run.params := by
      rw [hrun, BatchEngine.Run.commit]
    have hemitted : run'.emitted = run.emitted := by
      rw [hrun, BatchEngine.Run.commit]
    have hfull : run'.full = run.full ++ w.decodeBytes tok := by
      rw [hrun, BatchEngine.Run.commit]
    have hcut : matchStopSuffix (run.full ++ w.decodeBytes tok)
        run.params.stopStrings = some cut := by
      rw [← hfull, ← hparams, hmatch]
    have hsent := htold.stop hstops hat hcut List.prefix_rfl
    rw [← hfull, ← hemitted, ← hD] at hsent
    refine ⟨D, hlog, hsent, ?_⟩
    simp only [flushBytes, if_true, hmatch]
    refine List.drop_eq_nil_of_le ?_
    rw [List.length_take]
    omega
  same := by
    rintro left ⟨⟩
    rw [hrun, BatchEngine.Run.commit]
    exact ⟨rfl, rfl⟩

/-- A turn that goes on, and the rest of the loop. -/
theorem Leaves.turn {log₁ : List LogEntry} (hlog : log₁ = log ++ D)
    (h : Leaves log₁ run' (text ++ heard run.id D) runs r log')
    (hclear : Clear run.params.stopStrings run.full)
    (hid : run'.id = run.id) (hparams : run'.params = run.params) :
    Leaves log run text (run :: runs) r log' where
  clear := by
    have hruns := h.clear
    rw [hparams] at hruns
    exact List.forall_mem_cons.2 ⟨hclear, hruns⟩
  told := by
    obtain ⟨D', hlog', hends⟩ := h.told
    refine ⟨D ++ D', by rw [hlog', hlog, List.append_assoc], ?_⟩
    rw [heard_append, ← List.append_assoc, ← hid, ← hparams]
    rw [← hid] at hends
    exact hends
  same := fun left hleft => by
    obtain ⟨hid', hparams'⟩ := h.same left hleft
    exact ⟨hid'.trans hid, hparams'.trans hparams⟩

end

/-- The generation loop: no turn starts with a stop string in the bytes, and
the client reads none. -/
theorem told_generateLoop :
    ∀ {room : Nat} {st st' : Serial} {run : Run Λ σ} {text : List Char}
      {r : Except Halt (Left Λ σ)},
      StopTexts run.params.stopStrings →
        Told run.params.stopStrings run.full run.emitted text →
      (∀ run' ∈ loopRuns w nCtxSlot room st run, Clean w.toWorld run') →
      generateLoop w nCtxSlot room st run = (r, st') →
      Leaves st.log run text (loopRuns w nCtxSlot room st run) r st'.log := by
  intro room
  induction room with
  | zero =>
      intro st st' run text r _ htold _ h
      cases h
      exact .quiet htold (fun _ hin => absurd hin List.not_mem_nil) .length
        run.sampler
  | succ room ih =>
      intro st st' run text r hstops htold hclean h
      rw [generateLoop] at h
      rw [loopRuns] at hclean ⊢
      have hnone : ∀ run' ∈ ([] : List (Run Λ σ)),
          Clear run.params.stopStrings run'.full := by simp
      by_cases hbudget : BatchEngine.Run.budgetDone run = true
      · simp only [hbudget, if_true] at h ⊢
        cases h
        exact .quiet htold hnone .length run.sampler
      by_cases hroom : run.currentPos ≥ nCtxSlot
      · simp only [hbudget, Bool.false_eq_true, if_false, hroom, if_true] at h ⊢
        cases h
        exact .quiet htold hnone .length run.sampler
      have hunheard := htold.noStop hstops
      cases hpanic : w.panics st.samples with
      | some msg =>
          simp only [hbudget, Bool.false_eq_true, if_false, hroom, hpanic] at h ⊢
          cases h
          refine .halt hnone (List.append_nil _).symm ?_ _
          rwa [show heard run.id [] = [] from rfl, List.append_nil]
      | none =>
      simp only [hbudget, Bool.false_eq_true, if_false, hroom, hpanic] at h hclean ⊢
      have hone : ∀ run' ∈ [run], Clear run.params.stopStrings run'.full :=
        List.forall_mem_cons.2 ⟨htold.clear, hnone⟩
      have hhere : Clean w.toWorld run := hclean run List.mem_cons_self
      cases hsample : w.sample run.sampler run.lastLogits run.prevTokens with
      | mk res s =>
      simp only [hsample] at h hclean ⊢
      cases res with
      | error msg =>
          simp only at h ⊢
          cases h
          exact .quiet htold hone .stop s
      | ok tok =>
      cases hstop : w.isStopToken tok with
      | true =>
          simp only [hstop, if_true] at h ⊢
          cases h
          exact .quiet htold hone .stop s
      | false =>
      simp only [hstop, Bool.false_eq_true, if_false] at h hclean ⊢
      have hat := hhere tok (by rw [hsample]) hstop
      obtain ⟨run₁, hrun₁⟩ : ∃ run₁, run₁ =
          BatchEngine.Run.commit w.toWorld { run with sampler := s } tok :=
        ⟨_, rfl⟩
      have hid : run₁.id = run.id := by rw [hrun₁, BatchEngine.Run.commit]
      have hparams : run₁.params = run.params := by rw [hrun₁, BatchEngine.Run.commit]
      rw [← hrun₁] at h hclean ⊢
      cases hmatch : matchStopSuffix run₁.full run₁.params.stopStrings with
      | some cut =>
          simp only [hmatch] at h ⊢
          cases hemit : { st with samples := st.samples + 1 }.emit w run₁.id
              ((run₁.full.take cut).drop run₁.emitted) with
          | mk res st₁ =>
          obtain ⟨D, hlog, hok, herr⟩ := heard_emit hemit
          rw [hid] at hok herr
          simp only [hemit] at h
          cases res with
          | error err =>
              cases h
              refine .halt hone hlog ?_ _
              rwa [herr err rfl, List.append_nil]
          | ok _ =>
              cases h
              exact .stop hstops htold hat hrun₁ hmatch hone hlog (hok rfl)
      | none =>
          simp only [hmatch] at h hclean ⊢
          have htold₁ :=
            Told.take (w := w.toWorld) htold hat hrun₁ (by rw [hmatch]; rfl)
          cases hemit : { st with samples := st.samples + 1 }.emit w run₁.id
              (BatchEngine.Run.pendingText run₁) with
          | mk res st₁ =>
          obtain ⟨D, hlog, hok, herr⟩ := heard_emit hemit
          rw [hid] at hok herr
          simp only [hemit] at h hclean ⊢
          cases res with
          | error err =>
              simp only at h ⊢
              cases h
              refine .halt hone hlog ?_ _
              rwa [herr err rfl, List.append_nil]
          | ok _ =>
          simp only at h hclean ⊢
          rw [← hok rfl] at htold₁
          cases hf : st₁.guardedForward w [tok] [run₁.currentPos] with
          | mk res st₂ =>
          have hlog₂ := (log_guardedForward hf).trans hlog
          simp only [hf] at h hclean ⊢
          cases res with
          | error err =>
              simp only at h ⊢
              cases h
              exact .halt hone hlog₂ (htold₁.noStop hstops) _
          | ok logits =>
              simp only at h hclean ⊢
              have hlog₃ : (if w.track then
                  { st₂ with cachedTokens := st₂.cachedTokens ++ [tok] }
                  else st₂).log = st.log ++ D := by
                split <;> exact hlog₂
              refine .turn hlog₃ (ih ?_ ?_ ?_ h) htold.clear hid hparams
              · show StopTexts run₁.params.stopStrings
                rwa [hparams]
              · show Told run₁.params.stopStrings run₁.full
                  (Run.shown run₁).emitted _
                rwa [hparams]
              · exact fun run' hin => hclean run' (List.mem_cons_of_mem _ hin)

/-- The flush and the end of a turn. -/
theorem heard_endTurn {stops : List (List UInt8)} (hstops : StopTexts stops)
    {left : Left Λ σ} (hready : Ready stops left text)
    (hparams : left.2.2.params.stopStrings = stops) :
    ∃ D, (st.endTurn w left).2.log = st.log ++ D
      ∧ NoStop stops (text ++ heard left.2.2.id D) := by
  obtain ⟨reason, stopped, run⟩ := left
  have hflush : NoStop stops text
      ∧ NoStop stops (text ++ fromUtf8Lossy (flushBytes stopped run)) := by
    cases stopped with
    | true =>
        obtain ⟨hno, hnil⟩ := hready
        have hnil : flushBytes true run = [] := hnil
        rw [hnil, show fromUtf8Lossy [] = [] from rfl, List.append_nil]
        exact ⟨hno, hno⟩
    | false =>
        have htold : Told stops run.full run.emitted text := hready
        exact ⟨htold.noStop hstops, (htold.send (List.take_prefix ..)).noStop hstops⟩
  unfold endTurn
  cases hemit : st.emit w run.id (flushBytes stopped run) with
  | mk res st₁ =>
  obtain ⟨D, hlog, hok, herr⟩ := heard_emit hemit
  simp only
  cases res with
  | error err =>
      refine ⟨D, hlog, ?_⟩
      rw [herr err rfl, List.append_nil]
      exact hflush.1
  | ok _ =>
      refine ⟨D ++ [.sent run.id (.finish reason run.completionTokens)
        (w.sendOk st₁.sends)], ?_, ?_⟩
      · rw [← List.append_assoc, ← hlog]
        rfl
      · rw [heard_append, hok rfl, ← List.append_assoc]
        show NoStop stops (_ ++ [])
        rw [List.append_nil]
        exact hflush.2

/-- `generate_seq`: every turn starts from bytes without a stop string, and
the client reads none. -/
theorem noStop_generateSeq (nCtxSlot : Nat) (st : Serial) {job : Job σ}
    (hstops : StopTexts job.params.stopStrings)
    (hclean : ∀ run ∈ turnRuns w nCtxSlot st job, Clean w.toWorld run) :
    (∀ run ∈ turnRuns w nCtxSlot st job, Clear job.params.stopStrings run.full)
      ∧ NoStop job.params.stopStrings
        (heard job.id
          ((st.generateSeq w nCtxSlot job).2.log.drop st.log.length)) := by
  have hnothing : NoStop job.params.stopStrings
      (heard job.id (st.log.drop st.log.length)) := by
    rw [List.drop_length]
    exact (Told.start hstops).noStop hstops
  unfold turnRuns at hclean ⊢
  unfold generateSeq
  by_cases hempty : job.inputIds.isEmpty = true
  · simp only [hempty, if_true]
    exact ⟨by simp, hnothing⟩
  by_cases hlong : job.inputIds.length > nCtxSlot
  · simp only [hempty, Bool.false_eq_true, if_false, hlong, if_true]
    exact ⟨by simp, hnothing⟩
  simp only [hempty, Bool.false_eq_true, if_false, hlong] at hclean ⊢
  cases hf : st.guardedForward w (st.prefillBatch w job.inputIds).tokens
      (st.prefillBatch w job.inputIds).positions with
  | mk res st₁ =>
  have hlog₁ := log_guardedForward hf
  simp only [hf] at hclean ⊢
  cases res with
  | error err =>
      refine ⟨by simp, ?_⟩
      rw [hlog₁]
      exact hnothing
  | ok logits =>
      simp only at hclean ⊢
      cases hloop : generateLoop w nCtxSlot (nCtxSlot - job.inputIds.length + 1)
          { st₁ with cachedTokens := if w.track then job.inputIds else [] }
          (startRun job (logits job.inputIds)) with
      | mk r st₂ =>
      obtain ⟨hruns, ⟨D, hlog, hends⟩, hsame⟩ :=
        @told_generateLoop Λ σ w nCtxSlot _ _ _
        (startRun job (logits job.inputIds)) [] _ hstops
          (Told.start hstops) hclean hloop
      have hlog : st₂.log = st.log ++ D := hlog.trans (congrArg (· ++ D) hlog₁)
      refine ⟨hruns, ?_⟩
      cases r with
      | error halt =>
          rw [hlog, List.drop_left]
          exact hends
      | ok left =>
          obtain ⟨hid, hparams⟩ := hsame left rfl
          obtain ⟨D', hlog', hno⟩ :=
            @heard_endTurn Λ σ w st₂ _ _ hstops left hends
            (by rw [hparams]; rfl)
          rw [hlog', hlog, List.append_assoc, List.drop_left, heard_append]
          rw [hid] at hno
          exact hno

end Serial

-- ========================== both loops

/-- A request whose tokens complete no stop string and go on: while it runs,
its bytes hold no stop string, so it ends with the first token that
completes one; and its client never reads one. -/
theorem stop_strings_respected {w : SerialWorld Λ σ} {job : Job σ}
    (hstops : StopTexts job.params.stopStrings) :
    (∀ (idx : Nat) (toks : List Token) (run : Run Λ σ) (text : List Char),
      Decoding w.toWorld (Clean w.toWorld) idx job toks run text →
      run.full = toks.flatMap w.decodeBytes ∧ Clear job.params.stopStrings run.full
        ∧ NoStop job.params.stopStrings text
        ∧ ∀ (e e' : BatchEngine Λ σ) slot, e.slots[idx]? = some slot →
          slot.run = some run →
          Clean w.toWorld run → e.stepSlot w.toWorld idx = (false, e') →
          NoStop job.params.stopStrings
            (text ++ heard job.id (e'.log.drop e.log.length)))
    ∧ ∀ (nCtxSlot : Nat) (st : Serial),
      (∀ run ∈ Serial.turnRuns w nCtxSlot st job, Clean w.toWorld run) →
      (∀ run ∈ Serial.turnRuns w nCtxSlot st job,
        Clear job.params.stopStrings run.full)
        ∧ NoStop job.params.stopStrings
          (heard job.id
            ((st.generateSeq w nCtxSlot job).2.log.drop st.log.length)) := by
  refine ⟨fun idx toks run text hd => ?_, fun nCtxSlot st hclean =>
    Serial.noStop_generateSeq nCtxSlot st hstops hclean⟩
  obtain ⟨hid, hparams, hfull, htold⟩ := hd.told hstops
  refine ⟨hfull, htold.clear, htold.noStop hstops,
    fun e e' slot hs hr hclean hstep => ?_⟩
  rw [← hparams] at htold hstops ⊢
  have hturn := htold.turn hstops hclean hs hr hstep
  rwa [if_neg Bool.false_ne_true, hid] at hturn

/-- A world in which every token is `a`. -/
def spellsA : SerialWorld (List Token) Unit where
  toWorld := counting
  panics _ := none

/-- A world in which every token is `abc`. -/
def spellsAbc : SerialWorld (List Token) Unit where
  toWorld := { counting with decodeBytes := fun _ => [97, 98, 99] }
  panics _ := none

/-- A request for three tokens that stops at one string. -/
def stopping (stop : List UInt8) : Job Unit := ⟨0, [1], ⟨3, [stop]⟩, ()⟩

/-- One slot of eight cells, with the request admitted. -/
def admitted (w : World (List Token) Unit) (stop : List UInt8) :
    BatchEngine (List Token) Unit :=
  match BatchEngine.new w (blankArena 8) 1 8 0 with
  | .ok e => (e.submitOn w .off 0 (stopping stop)).2
  | .error _ => ⟨blankArena 8, 8, [], 0, 0, 0, 0, []⟩

/-- The serial worker's slot. -/
def idleSlot : Serial := ⟨blankArena 8, [], 0, 0, 0, []⟩

theorem infix_bytes {s full : List UInt8} (k : Nat)
    (h : (full.drop k).take s.length = s) : s <:+: full := by
  rw [← h]
  exact (List.take_prefix ..).isInfix.trans (List.drop_suffix ..).isInfix

set_option maxRecDepth 8000 in
/-- The token `abc` completes the stop string `b` and goes on: the request
runs on, and its client reads `abc`. -/
theorem stop_string_inside_token :
    (∃ run, ((admitted spellsAbc.toWorld [98]).tick spellsAbc.toWorld
        .off).2.runAt 0 = some run
        ∧ ¬ Clear [[98]] run.full)
      ∧ ¬ NoStop [[98]]
        (heard 0 ((admitted spellsAbc.toWorld [98]).tick spellsAbc.toWorld
          .off).2.log)
      ∧ ¬ NoStop [[98]]
        (heard 0 (idleSlot.generateSeq spellsAbc 8
          (stopping [98])).2.log) := by
  have hfull :
      ((((admitted spellsAbc.toWorld [98]).tick spellsAbc.toWorld .off).2.runAt
        0).map (·.full))
      = some [97, 98, 99] := by decide +kernel
  have hheard :
      heard 0 ((admitted spellsAbc.toWorld [98]).tick spellsAbc.toWorld
        .off).2.log
      = ['a', 'b', 'c'] := by decide +kernel
  have hserial : heard 0 (idleSlot.generateSeq spellsAbc 8 (stopping [98])).2.log
      = ['a', 'b', 'c', 'a', 'b', 'c', 'a', 'b', 'c'] := by decide +kernel
  refine ⟨?_, fun hno => ?_, fun hno => ?_⟩
  · obtain ⟨run, hrun, hbytes⟩ := Option.map_eq_some_iff.mp hfull
    refine ⟨run, hrun, fun hclear => hclear [98] List.mem_cons_self ?_⟩
    rw [hbytes]
    exact infix_bytes 1 rfl
  · refine hno ['b'] (by decide) ?_
    rw [hheard]
    exact ⟨['a'], ['c'], rfl⟩
  · refine hno ['b'] (by decide) ?_
    rw [hserial]
    exact ⟨['a'], ['c', 'a', 'b', 'c', 'a', 'b', 'c'], rfl⟩

/-- Two tokens `a` end a request that stops at `aa`. -/
theorem clean_spellsA {run : Run (List Token) Unit}
    (hstops : run.params.stopStrings = [[97, 97]])
    (hfull : run.full = [] ∨ run.full = [97]) : Clean counting run := by
  intro tok _ _
  rw [hstops, show counting.decodeBytes tok = [97] from rfl]
  rcases hfull with hfull | hfull
  · rw [hfull]
    intro hnot
    refine absurd (fun s hs hin => ?_) hnot
    obtain rfl := List.mem_singleton.mp hs
    exact absurd hin.length_le (by decide)
  · rw [hfull]
    intro _
    refine ⟨0, by decide, fun s hs hin => ?_⟩
    obtain rfl := List.mem_singleton.mp hs
    exact absurd hin.length_le (by decide)

set_option maxRecDepth 8000 in
theorem stop_strings_respected_aa :
    (∃ toks run text,
        Decoding counting (Clean counting) 0 (stopping [97, 97]) toks run text
        ∧ toks = [1] ∧ text = ['a'] ∧ Clear [[97, 97]] run.full
        ∧ NoStop [[97, 97]] text)
      ∧ (idleSlot.generateSeq spellsA 8 (stopping [97, 97])).2.log
        = [.sent 0 (.text ['a']) true, .sent 0 (.finish .stop 2) true]
      ∧ NoStop [[97, 97]]
        (heard 0 (idleSlot.generateSeq spellsA 8
          (stopping [97, 97])).2.log) := by
  have hstops : StopTexts (stopping [97, 97]).params.stopStrings := by
    intro s hs
    obtain rfl := List.mem_singleton.mp hs
    exact ⟨['a', 'a'], by decide, by decide, by decide⟩
  obtain ⟨hbatch, hserial⟩ :=
    @stop_strings_respected _ _ spellsA (stopping [97, 97]) hstops
  refine ⟨?_, by decide +kernel, ?_⟩
  · have hfirst : ((admitted counting [97, 97]).runAt 0).map
        (fun run => (run.id, run.params, run.full, run.emitted))
        = some (0, ⟨3, [[97, 97]]⟩, [], 0) := by decide +kernel
    have hsecond : (((admitted counting [97, 97]).stepSlot counting 0).2.runAt 0).map
        (fun run => (run.full, run.needsForward)) = some ([97], some 1) := by
          decide +kernel
    have hmoved : ((admitted counting [97, 97]).stepSlot counting 0).1
      = true := by decide +kernel
    have htext :
        heard 0 (((admitted counting [97, 97]).stepSlot counting 0).2.log.drop
        (admitted counting [97, 97]).log.length) = ['a'] := by decide +kernel
    obtain ⟨run, hrun, heq⟩ := Option.map_eq_some_iff.mp hfirst
    obtain ⟨run', hrun', heq'⟩ := Option.map_eq_some_iff.mp hsecond
    obtain ⟨hid, heq⟩ := Prod.mk.inj heq
    obtain ⟨hparams, heq⟩ := Prod.mk.inj heq
    obtain ⟨hfull, hemitted⟩ := Prod.mk.inj heq
    obtain ⟨hfull', htok⟩ := Prod.mk.inj heq'
    obtain ⟨slot, hs, hr⟩ := BatchEngine.runAt_eq_some.mp hrun
    have hclean : Clean counting run := clean_spellsA (by rw [hparams]) (.inl hfull)
    have hd : Decoding counting (Clean counting) 0 (stopping [97, 97]) [1] run'
        ['a'] := by
      rw [← htext]
      exact .turn (.admitted hid hparams hfull hemitted) hclean hs hr
        (Prod.ext hmoved rfl) hrun' htok
    obtain ⟨-, hclear, hno, -⟩ := hbatch 0 _ _ _ hd
    exact ⟨_, _, _, hd, rfl, rfl, hclear, hno⟩
  · refine (hserial 8 idleSlot fun run hrun => ?_).2
    have hall : (Serial.turnRuns spellsA 8 idleSlot (stopping [97, 97])).map
        (fun run => (run.params.stopStrings, run.full))
            = [([[97, 97]], []), ([[97, 97]], [97])] := by
      decide +kernel
    have hmem :=
      List.mem_map_of_mem (f :=
        fun run : Run (List Token) Unit =>
        (run.params.stopStrings, run.full)) hrun
    rw [hall, List.mem_cons, List.mem_singleton] at hmem
    rcases hmem with heq | heq
    · exact clean_spellsA (congrArg Prod.fst heq) (.inl (congrArg Prod.snd heq))
    · exact clean_spellsA (congrArg Prod.fst heq) (.inr (congrArg Prod.snd heq))

end Minfer.Server
