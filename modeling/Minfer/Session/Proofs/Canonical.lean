/-
The stream of a conversation is the render of its messages
(`conversation.rs`, with the ChatML fallback of `template.rs`).

A turn appends three things: the EOT the previous turn owes, the delta of
the new message, and the tokens sampled for the reply. The delta is made so
that a trimmed render and the delta of a message are the render of both
(`trimmed_append_delta`); the reply closes it again, since its tokens
decode to the text that is recorded and the EOG or the owed EOT closes the
message. What can go wrong is in `Call.Clean`: a stop string that does not
start where a token starts, a turn that follows one the sampler refused,
and a reloaded history, which is rendered with its last newline.
-/
import Mathlib.Data.List.Induction
import Minfer.Session.Proofs.Prompt

namespace Minfer.Session

open Minfer.Lib (utf8Encode utf8Encode_append fromUtf8Lossy fromUtf8Lossy_utf8Encode)
open Minfer.Server (Token matchStopSuffix)

variable {S F M G R : Type}

-- ================================ runs

section Runs

variable {env : Setup S F M G R}

/-- A prompt's reply: the tokens it samples. -/
def sampledAfter (env : Setup S F M G R) (cfg : TurnParams F M G R) :
    Except Exit (List F × Nat) × World S M G R → List Token
  | (.ok (logits, _), s) => replySampled env cfg logits s
  | (.error _, _) => []

namespace Call

/-- The tokens a call samples. -/
def sampled (env : Setup S F M G R) (s : World S M G R) : Call F M G R → List Token
  | .userTurn cfg input => sampledAfter env cfg (userPrompt env input s)
  | .regenTurn cfg => sampledAfter env cfg (regenPrompt env s)
  | .loadHistory _ | .clear => []

/-- The stop strings of a call. -/
def stops : Call F M G R → List (List UInt8)
  | .userTurn cfg _ | .regenTurn cfg => cfg.stopStrings
  | .loadHistory _ | .clear => []

/-- The call returned, with no error. -/
def Succeeds (env : Setup S F M G R) (s : World S M G R) : Call F M G R → Prop
  | .userTurn cfg input => ∃ out, (Session.userTurn env cfg input s).1 = .ok out
  | .regenTurn cfg => ∃ out, (Session.regenTurn env cfg s).1 = .ok out
  | .loadHistory messages => ∃ out, (Session.loadHistory env messages s).1 = .ok out
  | .clear => True

/-- The call's prompt fits in the context. -/
def Fits (env : Setup S F M G R) (s : World S M G R) : Call F M G R → Prop
  | .userTurn _ input => s.conv.currentPos + (if s.conv.needInsertEot then 1 else 0)
      + (env.codec.encode (chatmlDelta s.conv.messages ⟨"user", some input⟩)).length
        ≤ s.conv.nCtx
  | .regenTurn _ => ∀ past lastUser answer,
      s.conv.messages = past ++ [⟨"user", some lastUser⟩, ⟨"assistant", answer⟩] →
      s.conv.turnPos
        + (env.codec.encode (regenText past lastUser s.conv.turnPos)).length
        ≤ s.conv.nCtx
  | .loadHistory _ | .clear => True

/-- The sampled tokens form a text, and the stop strings are texts. -/
def Texts (env : Setup S F M G R) (s : World S M G R) (call : Call F M G R) : Prop :=
  (∃ text, tokenBytes env.codec (call.sampled env s) = utf8Encode text)
    ∧ ∀ stop ∈ call.stops, ∃ text, stop = utf8Encode text

/-- No history is reloaded, no turn follows one the sampler refused, and a
stop string starts where a sampled token does. -/
def Clean (env : Setup S F M G R) (s : World S M G R) (call : Call F M G R) : Prop :=
  StopsAtToken env.codec call.stops (call.sampled env s)
    ∧ match call with
      | .userTurn _ _ => s.conv.messages.getLast?.map (·.role) ≠ some "user"
      | .loadHistory messages => messages = []
      | .regenTurn _ | .clear => True

end Call

/-- What is known between calls: nothing but system messages and an empty
stream, an answered message whose stream is the render and which can be
rolled back to the render before it, or a message the sampler left without
an answer. -/
inductive Known (codec : TokenCodec) (c : Conversation M G R) : Prop where
  | fresh : c.streamTokens = [] → c.turnPos = 0 → c.needInsertEot = false →
      (∀ m ∈ c.messages, m.role = "system") → Known codec c
  | answered {past : List Message} {lastUser : Text} {answer : Option Text} :
      c.messages = past ++ [⟨"user", some lastUser⟩, ⟨"assistant", answer⟩] →
      Canonical codec c → c.turnPos ≤ c.streamTokens.length →
      (c.turnPos = 0 ∨ codec.decodeBytes (c.streamTokens.take c.turnPos)
        = utf8Encode (trimNewline (fallbackChatmlMessages past false))) →
          Known codec c
  | refused {past : List Message} {lastUser : Text} :
      c.messages = past ++ [⟨"user", some lastUser⟩] → Known codec c

/-- The invariant of a session. -/
structure Rendered (codec : TokenCodec) (eot : Token)
    (c : Conversation M G R) : Prop where
  pos : c.currentPos = c.streamTokens.length
  eog : c.eog = [eot]
  eot : c.eot = eot
  known : Known codec c

/-- A state that is ready for a reply: the stream is the render with its
generation prompt. -/
structure Prompted (codec : TokenCodec) (eot : Token)
    (c : Conversation M G R) : Prop where
  pos : c.currentPos = c.streamTokens.length
  eog : c.eog = [eot]
  eot : c.eot = eot
  render : codec.decodeBytes c.streamTokens
    = utf8Encode (fallbackChatmlMessages c.messages true)
  turnPos : c.turnPos ≤ c.streamTokens.length
  rollback : ∃ past lastUser, c.messages = past ++ [⟨"user", some lastUser⟩]
    ∧ (c.turnPos = 0 ∨ codec.decodeBytes (c.streamTokens.take c.turnPos)
      = utf8Encode (trimNewline (fallbackChatmlMessages past false)))

/-- The loop only appends. -/
theorem LoopEnd.grows {codec : TokenCodec} {stops : List (List UInt8)}
    {eot : Token} {ts : List Token} {full : List UInt8}
    {stream stream' : List Token} {g : Gen}
    (h : LoopEnd codec stops eot ts full stream g stream') : stream <+: stream' := by
  cases h with
  | eog =>
      rw [List.append_assoc]
      exact List.prefix_append ..
  | cap => exact List.prefix_append ..
  | stop => exact List.prefix_append ..

/-- A reply to a prompt keeps the invariant, and closes the render when it
is made. -/
theorem Prompted.reply {eot : Token} (hspec : env.engine.hasSpec = false)
    (hcodec : Faithful env.codec eot) (cfg : TurnParams F M G R)
    (logits : List F) (n d : Nat)
    {s : World S M G R} (h : Prompted env.codec eot s.conv)
    (htext : ∃ text, tokenBytes env.codec (replySampled env cfg logits s)
      = utf8Encode text)
    (hstops : ∀ stop ∈ cfg.stopStrings, ∃ text, stop = utf8Encode text)
    (hclean : StopsAtToken env.codec cfg.stopStrings
      (replySampled env cfg logits s)) :
    Rendered env.codec eot (reply env cfg logits n d s).2.conv
      ∧ ((∃ out, (Session.reply env cfg logits n d s).1 = .ok out) →
        Canonical env.codec (Session.reply env cfg logits n d s).2.conv) := by
  obtain ⟨past, lastUser, hmessages, hrollback⟩ := h.rollback
  rcases reply_ends hspec cfg logits n d h.eog h.pos with
    ⟨⟨e, herr⟩, hkept⟩ | ⟨g, c, -, hkept, hend, hconv⟩
  · refine ⟨⟨hkept.pos, hkept.eog.trans h.eog, hkept.eot.trans h.eot,
      .refused (hkept.messages.trans hmessages)⟩, fun ⟨out, hout⟩ => ?_⟩
    rw [herr] at hout
    cases hout
  · have hcanonical :
        Canonical env.codec (Session.reply env cfg logits n d s).2.conv := by
      rw [hconv]
      exact LoopEnd.canonical hend hcodec h.render
        (by rw [hkept.messages]) rfl htext hstops hclean
    refine ⟨?_, fun _ => hcanonical⟩
    have hgrows := hend.grows
    refine ⟨?_, ?_, ?_,
      @Known.answered _ _ _ _ _ past lastUser (some (fromUtf8Lossy g.full)) ?_
      hcanonical ?_ ?_⟩
    · rw [hconv]
      exact hkept.pos
    · rw [hconv]
      exact hkept.eog.trans h.eog
    · rw [hconv]
      exact hkept.eot.trans h.eot
    · rw [hconv]
      show c.messages ++ _ = _
      rw [hkept.messages, hmessages, List.append_assoc]
      rfl
    · rw [hconv]
      show c.turnPos ≤ c.streamTokens.length
      rw [hkept.turnPos]
      exact Nat.le_trans h.turnPos hgrows.length_le
    · rw [hconv]
      show c.turnPos = 0 ∨ env.codec.decodeBytes (c.streamTokens.take c.turnPos) = _
      obtain ⟨more, hmore⟩ := hgrows
      rw [hkept.turnPos, ← hmore, List.take_append_of_le_length h.turnPos]
      exact hrollback

/-- The stream before a user's message, with the EOT it owed. -/
theorem Canonical.owed {codec : TokenCodec} {eot : Token}
    (hcodec : Faithful codec eot)
    {c : Conversation M G R} (heot : c.eot = eot) (h : Canonical codec c) :
    codec.decodeBytes (c.streamTokens ++ if c.needInsertEot then [c.eot] else [])
      = utf8Encode (trimNewline (fallbackChatmlMessages c.messages false)) := by
  unfold Canonical at h
  rw [← h, hcodec.decode_append, heot]
  by_cases hneed : c.needInsertEot = true
  · rw [if_pos hneed, if_pos hneed, hcodec.decode_eot]
  · rw [if_neg hneed, if_neg hneed, hcodec.decode_nil]

/-- A user's message makes a prompt of a session that waits for one. -/
theorem Rendered.userPrompted {eot : Token} (hcodec : Faithful env.codec eot)
    {input : Text} {c c' : Conversation M G R} (h : Rendered env.codec eot c)
    (hwaits : c.messages.getLast?.map (·.role) ≠ some "user")
    (hprompt : UserPrompted env.codec input c.messages
      (c.streamTokens ++ if c.needInsertEot then [c.eot] else []) c c') :
    Prompted env.codec eot c' := by
  have hlast : c'.messages = c.messages ++ [⟨"user", some input⟩] := hprompt.messages
  have hbase : c'.eog = [eot] ∧ c'.eot = eot :=
    ⟨hprompt.eog.trans h.eog, hprompt.eot.trans h.eot⟩
  rcases hprompt.stream with ⟨-, hturn, hstream⟩ | ⟨hne, hturn, hstream⟩
  · refine ⟨hprompt.pos, hbase.1, hbase.2, ?_, ?_, c.messages, input, hlast,
      .inl hturn⟩
    · rw [hstream, hcodec.decode_encode, hlast]
    · rw [hturn]
      exact Nat.zero_le _
  · have hpast : env.codec.decodeBytes
        (c.streamTokens ++ if c.needInsertEot then [c.eot] else [])
        = utf8Encode (trimNewline (fallbackChatmlMessages c.messages false)) := by
      cases h.known with
      | fresh hnil _ hneed _ =>
          rw [hnil, hneed] at hne
          exact absurd rfl hne
      | answered hmessages hcanonical _ _ => exact hcanonical.owed hcodec h.eot
      | refused hmessages =>
          rw [hmessages] at hwaits
          exact absurd (by simp) hwaits
    refine ⟨hprompt.pos, hbase.1, hbase.2, ?_, ?_, c.messages, input, hlast, .inr ?_⟩
    · rw [hstream, hcodec.decode_append, hpast, hcodec.decode_encode, hlast,
        ← utf8Encode_append, trimmed_append_delta]
    · rw [hstream, hturn]
      exact (List.prefix_append ..).length_le
    · rw [hstream, hturn, List.take_left, hpast]

/-- One call keeps the invariant, and leaves the render when it returns. -/
theorem Rendered.call {eot : Token} (htemplate : env.template = chatml)
    (hspec : env.engine.hasSpec = false) (hcodec : Faithful env.codec eot)
    {s : World S M G R} (h : Rendered env.codec eot s.conv)
    (call : Call F M G R) (hfits : call.Fits env s) (htexts : call.Texts env s)
    (hclean : call.Clean env s) :
    Rendered env.codec eot (call.run env s).conv
      ∧ (call ≠ .clear → call.Succeeds env s →
        Canonical env.codec (call.run env s).conv) := by
  obtain ⟨htext, hstops⟩ := htexts
  obtain ⟨hstop, hclean⟩ := hclean
  have hcodec' : Faithful env.codec s.conv.eot := by
    rw [h.eot]
    exact hcodec
  cases call with
  | userTurn cfg input =>
      obtain ⟨logits, n, s₁, hrun, hturn, hprompt⟩ :=
        userTurn_reply htemplate cfg input hcodec' h.pos hfits
      rw [Call.sampled, hrun] at htext hstop
      have hreply :=
        (h.userPrompted hcodec hclean hprompt).reply hspec hcodec cfg logits n
        0 htext
        hstops hstop
      simp only [Call.run, Call.Succeeds, hturn]
      exact ⟨hreply.1, fun _ => hreply.2⟩
  | regenTurn cfg =>
      by_cases hlast : s.conv.messages.getLast?.map (·.role) = some "assistant"
      · cases h.known with
        | fresh _ _ _ hsystem =>
            obtain ⟨m, hm, hrole⟩ := Option.map_eq_some_iff.1 hlast
            rw [hsystem m (List.mem_of_getLast? hm)] at hrole
            exact absurd hrole (by decide)
        | refused hmessages =>
            rw [hmessages, List.getLast?_concat] at hlast
            exact absurd hlast (by simp)
        | answered hmessages hcanonical hle hrollback =>
            next past lastUser answer =>
            obtain ⟨logits, n, s₁, hrun, hturn, hmessages₁, heog, heot, hturn₁,
                hpos, hstream⟩ :=
              regenTurn_reply htemplate cfg hcodec' hmessages hle
                (hfits past lastUser answer hmessages)
            rw [Call.sampled, hrun] at htext hstop
            have htake : (s.conv.streamTokens.take s.conv.turnPos
                ++ env.codec.encode
                  (regenText past lastUser s.conv.turnPos)).take s.conv.turnPos
                = s.conv.streamTokens.take s.conv.turnPos := by
              rw [List.take_left']
              rw [List.length_take, Nat.min_eq_left hle]
            have hprompt : Prompted env.codec eot s₁.conv := by
              refine ⟨hpos, heog.trans h.eog, heot.trans h.eot, ?_, ?_, past,
                lastUser, hmessages₁, ?_⟩
              · rw [hstream, hcodec.decode_append, hcodec.decode_encode, hmessages₁]
                by_cases hzero : s.conv.turnPos = 0
                · rw [hzero, List.take_zero, hcodec.decode_nil,
                    List.nil_append, regenText, if_pos rfl]
                · rw [hrollback.resolve_left hzero, regenText, if_neg hzero,
                    ← utf8Encode_append, trimmed_append_delta]
              · rw [hstream, hturn₁, List.length_append, List.length_take,
                  Nat.min_eq_left hle]
                exact Nat.le_add_right ..
              · rw [hstream, hturn₁, htake]
                exact hrollback
            have hreply :=
              hprompt.reply hspec hcodec cfg logits n 0 htext hstops hstop
            simp only [Call.run, Call.Succeeds, hturn]
            exact ⟨hreply.1, fun _ => hreply.2⟩
      · simp only [Call.run, Call.Succeeds, regenTurn_refused cfg hlast]
        exact ⟨h, by simp⟩
  | loadHistory messages =>
      have hnil : messages = [] := hclean
      subst hnil
      obtain ⟨k, hk⟩ :=
          renderFull_chatml htemplate false ({ s with conv := { s.conv with
        messages := [], needInsertEot := false, turnPos := 0 } } : World S M G R)
      have hempty : env.codec.encode (fallbackChatmlMessages [] false) = [] :=
        hcodec.encode_nil
      have hrun : Session.loadHistory env [] s = (.ok (), { s with
          engine := env.engine.resetCache s.engine
          conv := { s.conv with
            messages := [], needInsertEot := false, turnPos := 0, renders := k
            streamTokens := [], currentPos := 0 } }) := by
        unfold Session.loadHistory
        rw [Turn.run_bind, Turn.run_modifyConv]
        dsimp only
        rw [Turn.bind_ok hk, hempty]
        rfl
      simp only [Call.run, hrun]
      refine ⟨⟨rfl, h.eog, h.eot, .fresh rfl rfl rfl (by simp)⟩, fun _ _ => ?_⟩
      show env.codec.decodeBytes [] ++ [] = _
      rw [hcodec.decode_nil]
      rfl
  | clear =>
      refine ⟨⟨rfl, h.eog, h.eot, .fresh rfl rfl rfl fun m hm => ?_⟩,
        fun hne => absurd rfl hne⟩
      have hfind := Option.mem_toList.1 hm
      simpa using List.find?_some hfind

theorem Rendered.new {spec : ConversationSpec M R} (heog : spec.eog = [spec.eot]) :
    Rendered env.codec spec.eot (Conversation.new spec : Conversation M G R) := by
  refine ⟨rfl, heog, rfl, .fresh rfl rfl rfl fun m hm => ?_⟩
  obtain ⟨text, -, rfl⟩ := Option.map_eq_some_iff.1 (Option.mem_toList.1 hm)
  rfl

/-- The session after some calls. -/
def after (env : Setup S F M G R) (spec : ConversationSpec M R) (engine : S)
    (calls : List (Call F M G R)) : World S M G R :=
  calls.foldl (fun s call => call.run env s) ⟨Conversation.new spec, engine, []⟩

/-- In every sequence of calls that fit, sample text and are clean, each call
that returns leaves a stream that is the render of the messages. -/
theorem stream_is_render (env : Setup S F M G R)
    (htemplate : env.template = chatml) (hspec : env.engine.hasSpec = false)
    (spec : ConversationSpec M R) (engine : S) (heog : spec.eog = [spec.eot])
    (hcodec : Faithful env.codec spec.eot) (calls : List (Call F M G R))
    (hfits : ∀ part call, part ++ [call] <+: calls →
      call.Fits env (after env spec engine part))
    (htexts : ∀ part call, part ++ [call] <+: calls →
      call.Texts env (after env spec engine part))
    (hclean : ∀ part call, part ++ [call] <+: calls →
      call.Clean env (after env spec engine part)) :
    ∀ part call, part ++ [call] <+: calls → call ≠ .clear →
      call.Succeeds env (after env spec engine part) →
      Canonical env.codec (after env spec engine (part ++ [call])).conv := by
  have hstep : ∀ part call, after env spec engine (part ++ [call])
      = call.run env (after env spec engine part) := by
    intro part call
    unfold after
    rw [List.foldl_append, List.foldl_cons, List.foldl_nil]
  have hinv : ∀ part, part <+: calls →
      Rendered env.codec spec.eot (after env spec engine part).conv := by
    intro part
    induction part using List.reverseRecOn with
    | nil => exact fun _ => Rendered.new heog
    | append_singleton part call ih =>
        intro hpart
        have h := ih ((List.prefix_append ..).trans hpart)
        rw [hstep]
        exact (h.call htemplate hspec hcodec call (hfits part call hpart)
          (htexts part call hpart)
          (hclean part call hpart)).1
  intro part call hpart hne hsucceeds
  have h := hinv part ((List.prefix_append ..).trans hpart)
  rw [hstep]
  exact (h.call htemplate hspec hcodec call (hfits part call hpart)
    (htexts part call hpart)
    (hclean part call hpart)).2 hne hsucceeds

end Runs

-- ============================= samples

/-- A codec over bytes, with one token for the end of a turn. -/
def markerCodec : TokenCodec where
  encode text := (utf8Encode text).map UInt8.toNat
  decodeBytes ts := ts.flatMap fun t => if t = 256 then utf8Encode imEnd
    else [UInt8.ofNat t]

theorem markerCodec_faithful : Faithful markerCodec 256 where
  encode_append a b := by simp [markerCodec, utf8Encode_append]
  decode_append _ _ := List.flatMap_append
  decode_eot := by simp [markerCodec]
  decode_encode text := by
    have hbyte : ∀ bytes : List UInt8, (bytes.map UInt8.toNat).flatMap
        (fun t => if t = 256 then utf8Encode imEnd else [UInt8.ofNat t]) = bytes := by
      intro bytes
      induction bytes with
      | nil => rfl
      | cons b bytes ih =>
          have hb := b.toNat_lt
          rw [List.map_cons, List.flatMap_cons, ih, if_neg (by omega),
            UInt8.ofNat_toNat]
          rfl
    exact hbyte (utf8Encode text)

/-- The random stream is the list of tokens that will be sampled. -/
def scripted : SamplerConfig Unit Unit Unit (List Token) where
  applyDeterministicFilters row _ := row
  greedy := false
  applyStochasticFilters row rng := (row, rng)
  sampleTemperature _ rng := (rng.headD 256, rng.tail)
  mirostat := .off
  sampleMirostatV1 _ m rng := (0, m, rng)
  sampleMirostatV2 _ m rng := (0, m, rng)
  newMirostat := ()
  grammar := none
  gt _ _ := false
  negInfinity := ()

/-- A plain engine without rows. -/
def scriptedSetup : Setup Unit Unit Unit Unit (List Token) where
  engine := {
    forward := fun _ _ _ _ => ([], ())
    resetCache := fun _ => ()
    kvRm := fun _ _ _ => (.error "unsupported", ())
    hasSpec := false
    specRound := fun _ _ _ _ _ _ => none }
  codec := markerCodec
  template := chatml
  contextShiftEnabled := true

def scriptedSpec (script : List Token) : ConversationSpec Unit (List Token) :=
  ⟨[256], 256, script, 4096, (), none⟩

/-- A turn of at most eight tokens that stops at a string. -/
def stoppingAt (stop : Text) : TurnParams Unit Unit Unit (List Token) :=
  ⟨8, scripted, [utf8Encode stop]⟩

/-- A stop string that two tokens complete stays in the stream by its first
one. A reloaded history keeps its last newline, and the next turn adds it
again: the session and its reload go apart. -/
theorem stop_and_reload_break_render :
    (Call.Fits scriptedSetup (after scriptedSetup (scriptedSpec [97, 98]) () [])
        (.userTurn (stoppingAt ['a', 'b']) ['q'])
      ∧ Call.Texts scriptedSetup (after scriptedSetup (scriptedSpec [97, 98]) () [])
        (.userTurn (stoppingAt ['a', 'b']) ['q'])
      ∧ Call.Succeeds scriptedSetup
        (after scriptedSetup (scriptedSpec [97, 98]) () [])
        (.userTurn (stoppingAt ['a', 'b']) ['q'])
      ∧ ¬ Canonical markerCodec (after scriptedSetup (scriptedSpec [97, 98]) ()
        [.userTurn (stoppingAt ['a', 'b']) ['q']]).conv)
    ∧ ¬ Canonical markerCodec (after scriptedSetup (scriptedSpec []) ()
        [.loadHistory [⟨"user", some ['q']⟩, ⟨"assistant", some ['a']⟩]]).conv
    ∧ (after scriptedSetup (scriptedSpec [97, 256, 98, 256]) ()
        [.userTurn (stoppingAt ['!']) ['q'],
          .loadHistory [⟨"user", some ['q']⟩, ⟨"assistant", some ['a']⟩],
          .userTurn (stoppingAt ['!']) ['r']]).conv.streamTokens
      ≠ (after scriptedSetup (scriptedSpec [97, 256, 98, 256]) ()
        [.userTurn (stoppingAt ['!']) ['q'],
          .userTurn (stoppingAt ['!']) ['r']]).conv.streamTokens := by
  refine ⟨⟨by unfold Call.Fits; decide +kernel,
    ⟨⟨['a', 'b'], by decide +kernel⟩, fun stop hstop => ?_⟩,
    ⟨_, rfl⟩, by unfold Canonical; decide +kernel⟩,
      by unfold Canonical; decide +kernel, by decide +kernel⟩
  exact ⟨['a', 'b'], List.mem_singleton.1 hstop⟩

theorem stopsAtToken_concat {codec : TokenCodec} {stops : List (List UInt8)}
    {pre : List Token}
    {t : Token} (h : matchStopSuffix (tokenBytes codec (pre ++ [t])) stops = none
      ∨ matchStopSuffix (tokenBytes codec (pre ++ [t])) stops
        = some (tokenBytes codec pre).length) :
    StopsAtToken codec stops (pre ++ [t]) := by
  intro pre' t' cut heq hmatch
  obtain ⟨rfl, -⟩ := List.append_inj' heq rfl
  rcases h with h | h
  · rw [h] at hmatch
    cases hmatch
  · rw [h] at hmatch
    cases hmatch
    rfl

/-- A turn that stops at a token, regenerated to its end-of-turn token. -/
theorem regenerated_turn_is_render : Canonical markerCodec
    (after scriptedSetup (scriptedSpec [104, 33, 111, 256]) ()
      [.userTurn (stoppingAt ['!']) ['q'], .regenTurn (stoppingAt ['!'])]).conv := by
  have hprefix : ∀ {part : List (Call Unit Unit Unit (List Token))}
      {call : Call Unit Unit Unit (List Token)},
      part ++ [call]
        <+: [.userTurn (stoppingAt ['!']) ['q'],
          .regenTurn (stoppingAt ['!'])] →
      (part = [] ∧ call = .userTurn (stoppingAt ['!']) ['q'])
        ∨ (part = [.userTurn (stoppingAt ['!']) ['q']]
          ∧ call = .regenTurn (stoppingAt ['!'])) := by
    intro part call h
    rcases part with _ | ⟨x, _ | ⟨y, rest⟩⟩
    · exact .inl ⟨rfl, (List.cons_prefix_cons.1 h).1⟩
    · obtain ⟨rfl, hrest⟩ := List.cons_prefix_cons.1 h
      exact .inr ⟨rfl, (List.cons_prefix_cons.1 hrest).1⟩
    · have hlen := h.length_le
      simp at hlen
  have hstop : ∀ stop ∈ [utf8Encode ['!']], ∃ text, stop = utf8Encode text :=
    fun stop hmem => ⟨['!'], List.mem_singleton.1 hmem⟩
  refine stream_is_render scriptedSetup
    rfl rfl (scriptedSpec [104, 33, 111, 256]) () rfl
    markerCodec_faithful _ ?_ ?_ ?_ [.userTurn (stoppingAt ['!']) ['q']]
    (.regenTurn (stoppingAt ['!'])) List.prefix_rfl nofun ⟨_, rfl⟩
  · intro part call hpart
    rcases hprefix hpart with ⟨rfl, rfl⟩ | ⟨rfl, rfl⟩
    · unfold Call.Fits
      decide +kernel
    · intro past lastUser answer hmessages
      have hmessages : [⟨"user", some ['q']⟩, ⟨"assistant", some ['h']⟩]
          = past ++ [⟨"user", some lastUser⟩, ⟨"assistant", answer⟩] := hmessages
      obtain ⟨rfl, hlast⟩ := List.append_inj' (show [] ++ _ = _ from hmessages) rfl
      cases hlast
      decide +kernel
  · intro part call hpart
    rcases hprefix hpart with ⟨rfl, rfl⟩ | ⟨rfl, rfl⟩
    · exact ⟨⟨['h', '!'], by decide +kernel⟩, hstop⟩
    · exact ⟨⟨['o'], by decide +kernel⟩, hstop⟩
  · intro part call hpart
    rcases hprefix hpart with ⟨rfl, rfl⟩ | ⟨rfl, rfl⟩
    · exact ⟨@stopsAtToken_concat markerCodec _ [104] 33 (by decide +kernel),
        by decide +kernel⟩
    · exact ⟨@stopsAtToken_concat markerCodec _ [] 111 (by decide +kernel), trivial⟩

end Minfer.Session
