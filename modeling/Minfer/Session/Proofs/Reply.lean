/-
The reply of a turn (`conversation.rs`, the decode loop): what it commits to
the stream and what it records, against the tokens it samples.

A sampled token is committed unless it completes a stop string; the EOG is
committed and not recorded. `LoopEnd` is the three ways the loop ends, and
`LoopEnd.canonical` says when the reply closes the render its prompt
opened: the recorded text has to be what was committed, so a stop string
may not start before the token that completes it.
-/
import Minfer.Session.Template
import Minfer.Session.Proofs.Stream

namespace Minfer.Session

open Minfer.Lib (utf8Encode utf8Encode_append fromUtf8Lossy fromUtf8Lossy_utf8Encode
  text_before_suffix)
open Minfer.Server (Token matchStopSuffix recentWindow repeatLastN)

variable {S F M G R α : Type}

-- ============================== tokens

/-- What a turn's text gains token by token. -/
def tokenBytes (codec : TokenCodec) (ts : List Token) : List UInt8 :=
  ts.flatMap fun t => codec.decodeBytes [t]

theorem tokenBytes_cons (codec : TokenCodec) (t : Token) (ts : List Token) :
    tokenBytes codec (t :: ts) = codec.decodeBytes [t] ++ tokenBytes codec ts :=
  List.flatMap_cons

theorem tokenBytes_append (codec : TokenCodec) (ts us : List Token) :
    tokenBytes codec (ts ++ us) = tokenBytes codec ts ++ tokenBytes codec us :=
  List.flatMap_append

theorem tokenBytes_singleton (codec : TokenCodec) (t : Token) :
    tokenBytes codec [t] = codec.decodeBytes [t] := List.flatMap_singleton ..

/-- The codec: both ways go piece by piece, decoding undoes encoding, and
the end-of-turn token is the marker. -/
structure Faithful (codec : TokenCodec) (eot : Token) : Prop where
  encode_append : ∀ a b, codec.encode (a ++ b) = codec.encode a ++ codec.encode b
  decode_append : ∀ ts us, codec.decodeBytes (ts ++ us)
    = codec.decodeBytes ts ++ codec.decodeBytes us
  decode_encode : ∀ text, codec.decodeBytes (codec.encode text) = utf8Encode text
  decode_eot : codec.decodeBytes [eot] = utf8Encode imEnd

namespace Faithful

variable {codec : TokenCodec} {eot : Token}

theorem decode_nil (h : Faithful codec eot) : codec.decodeBytes [] = [] :=
  List.append_right_eq_self.1 (h.decode_append [] []).symm

theorem encode_nil (h : Faithful codec eot) : codec.encode [] = [] :=
  List.append_right_eq_self.1 (h.encode_append [] []).symm

theorem tokenBytes (h : Faithful codec eot) (ts : List Token) :
    tokenBytes codec ts = codec.decodeBytes ts := by
  induction ts with
  | nil => exact h.decode_nil.symm
  | cons t ts ih => rw [tokenBytes_cons, ih, ← h.decode_append, List.singleton_append]

theorem encode_ne_nil (h : Faithful codec eot) {text : Text} (hne : text ≠ []) :
    codec.encode text ≠ [] := by
  intro hnil
  have hbytes := h.decode_encode text
  rw [hnil, h.decode_nil] at hbytes
  have htext := fromUtf8Lossy_utf8Encode text
  rw [← hbytes] at htext
  exact hne htext.symm

end Faithful

/-- The tokens the decode loop samples, up to the end-of-generation token. -/
def sampledLoop (eng : Engine S F M G R) (codec : TokenCodec)
    (cfg : TurnParams F M G R) :
    Nat → List F → Gen → World S M G R → List Token
  | 0, _, _, _ => []
  | budget + 1, logits, g, s =>
      if s.conv.currentPos ≥ s.conv.nCtx then []
      else
        match cfg.sampler.sampleWithConfigGrammar logits s.conv.prevTokens
            s.samplerState with
        | (.error _, _) => []
        | (.ok t, st) =>
            let s := s.setSampler st
            if t ∈ s.conv.eog then []
            else
              let g := g.take codec t
              match matchStopSuffix g.full cfg.stopStrings with
              | some _ => [t]
              | none =>
                  let s := (s.pushWindow t).pushStream t
                  let (g, s) := holdBack g s
                  let (logits, engine) :=
                    eng.forward s.engine [t] [s.conv.currentPos] 1
                  let s := ({ s with engine := engine } : World S M G R).advance 1
                  t :: sampledLoop eng codec cfg budget logits g s

/-- What a loop may not touch, and the position at the stream's end. -/
structure Kept (c c' : Conversation M G R) : Prop where
  messages : c'.messages = c.messages
  turnPos : c'.turnPos = c.turnPos
  eog : c'.eog = c.eog
  eot : c'.eot = c.eot
  pos : c'.currentPos = c'.streamTokens.length
  grows : c.currentPos ≤ c'.currentPos

theorem Kept.trans {c c' c'' : Conversation M G R} (h : Kept c c')
    (h' : Kept c' c'') :
    Kept c c'' :=
  ⟨h'.messages.trans h.messages, h'.turnPos.trans h.turnPos, h'.eog.trans h.eog,
    h'.eot.trans h.eot, h'.pos, Nat.le_trans h.grows h'.grows⟩

/-- How the decode loop ends: the text of the turn and the stream, against
the tokens it sampled. -/
inductive LoopEnd (codec : TokenCodec) (stops : List (List UInt8)) (eot : Token)
    (ts : List Token) (full : List UInt8) (stream : List Token) : Gen →
    List Token → Prop where
  | eog {g : Gen} : g.stoppedByEog = true →
      g.full = full ++ tokenBytes codec ts →
      LoopEnd codec stops eot ts full stream g (stream ++ ts ++ [eot])
  | cap {g : Gen} : g.stoppedByEog = false →
      g.full = full ++ tokenBytes codec ts →
      LoopEnd codec stops eot ts full stream g (stream ++ ts)
  | stop {g : Gen} {pre : List Token} {t : Token} {cut : Nat} : ts = pre ++ [t] →
      g.stoppedByEog = false →
      matchStopSuffix (full ++ tokenBytes codec ts) stops = some cut →
      g.full = (full ++ tokenBytes codec ts).take cut →
      LoopEnd codec stops eot ts full stream g (stream ++ pre)

variable {eot : Token} {stops : List (List UInt8)}

/-- One committed token more in front. -/
theorem LoopEnd.cons {codec : TokenCodec} {t : Token} {ts : List Token}
    {full : List UInt8} {stream stream' : List Token} {g : Gen}
    (h : LoopEnd codec stops eot ts (full ++ codec.decodeBytes [t])
      (stream ++ [t]) g stream') :
    LoopEnd codec stops eot (t :: ts) full stream g stream' := by
  cases h with
  | eog hstop hfull =>
      rw [List.append_assoc stream, List.singleton_append]
      refine .eog hstop ?_
      rw [hfull, tokenBytes_cons, List.append_assoc]
  | cap hstop hfull =>
      rw [List.append_assoc, List.singleton_append]
      refine .cap hstop ?_
      rw [hfull, tokenBytes_cons, List.append_assoc]
  | stop hts hstop hmatch hfull =>
      rw [List.append_assoc, List.singleton_append]
      rw [List.append_assoc, ← tokenBytes_cons] at hmatch hfull
      exact .stop (by rw [hts, List.cons_append]) hstop hmatch hfull

theorem decodeLoop_ends (eng : Engine S F M G R) (codec : TokenCodec)
    (cfg : TurnParams F M G R) : ∀ (budget : Nat)
    (logits : List F) (g : Gen)
    (s : World S M G R), s.conv.eog = [eot] →
    s.conv.currentPos = s.conv.streamTokens.length →
    g.stoppedByEog = false →
    Kept s.conv (decodeLoop eng codec cfg budget logits g s).2.conv
      ∧ ∀ g', (decodeLoop eng codec cfg budget logits g s).1 = .ok g' →
        LoopEnd codec cfg.stopStrings eot
          (sampledLoop eng codec cfg budget logits g s) g.full
          s.conv.streamTokens g'
            (decodeLoop eng codec cfg budget logits g
              s).2.conv.streamTokens := by
  intro budget
  induction budget with
  | zero =>
      intro logits g s heog hpos hg
      refine ⟨⟨rfl, rfl, rfl, rfl, hpos, Nat.le_refl _⟩, fun g' hg' => ?_⟩
      cases hg'
      have := @LoopEnd.cap codec cfg.stopStrings eot [] g.full s.conv.streamTokens
        { g with hitNPredict := true } hg (List.append_nil _).symm
      rwa [List.append_nil] at this
  | succ budget ih =>
      intro logits g s heog hpos hg
      unfold decodeLoop
      split
      next hroom =>
        refine ⟨⟨rfl, rfl, rfl, rfl, hpos, Nat.le_refl _⟩, fun g' hg' => ?_⟩
        cases hg'
        have := @LoopEnd.cap codec cfg.stopStrings eot [] g.full s.conv.streamTokens
          { g with hitNPredict := true } hg (List.append_nil _).symm
        rw [sampledLoop, if_pos hroom]
        rwa [List.append_nil] at this
      next hroom =>
      split
      · exact ⟨⟨rfl, rfl, rfl, rfl, hpos, Nat.le_refl _⟩, fun g' hg' => nomatch hg'⟩
      next t st hsample =>
      have hsampled := sampledLoop.eq_2 eng codec cfg logits g s budget
      rw [if_neg hroom, hsample] at hsampled
      dsimp only at hsampled ⊢
      split
      next hmem =>
        rw [if_pos hmem] at hsampled
        rw [hsampled]
        -- the sampled token ends the turn: it is written
        have ht : t = eot := by
          have hmem : t ∈ s.conv.eog := hmem
          rw [heog] at hmem
          exact List.mem_singleton.1 hmem
        subst ht
        refine ⟨⟨rfl, rfl, rfl, rfl, ?_, Nat.le_succ _⟩, fun g' hg' => ?_⟩
        · show s.conv.currentPos + 1 = (s.conv.streamTokens ++ [t]).length
          rw [hpos, List.length_append, List.length_singleton]
        · cases hg'
          have := @LoopEnd.eog codec cfg.stopStrings t [] g.full s.conv.streamTokens
            { g with stoppedByEog := true } rfl (List.append_nil _).symm
          rwa [List.append_nil] at this
      next hmem =>
      rw [if_neg hmem] at hsampled
      split
      next cut hcut =>
        rw [hcut] at hsampled
        rw [hsampled]
        refine ⟨⟨rfl, rfl, rfl, rfl, hpos, Nat.le_refl _⟩, fun g' hg' => ?_⟩
        cases hg'
        have hfull : g.full ++ tokenBytes codec [t] = (g.take codec t).full := by
          rw [tokenBytes_singleton]
          rfl
        have := @LoopEnd.stop codec cfg.stopStrings eot [t] g.full s.conv.streamTokens
          { g.take codec t with stoppedByString := true, full :=
            (g.take codec t).full.take cut }
          [] t cut rfl hg (by rw [hfull]; exact hcut) (by rw [hfull])
        rwa [List.append_nil] at this
      next hcut =>
        rw [hcut] at hsampled
        rw [hsampled]
        obtain ⟨hconv, -⟩ := holdBack_conv (g.take codec t)
          (((s.setSampler st).pushWindow t).pushStream t)
        have hheld : (holdBack (g.take codec t)
            (((s.setSampler st).pushWindow t).pushStream t)).1.full
              = (g.take codec t).full
            ∧ (holdBack (g.take codec t)
              (((s.setSampler st).pushWindow t).pushStream t)).1.stoppedByEog
                  = false := by
          unfold holdBack
          split
          · exact ⟨rfl, hg⟩
          · exact ⟨rfl, hg⟩
        generalize hgs : holdBack (g.take codec t)
          (((s.setSampler st).pushWindow t).pushStream t) = held at hconv hheld ⊢
        obtain ⟨g₁, s₁⟩ := held
        dsimp only at hconv hheld ⊢
        have hnext : Kept s.conv { s₁.conv with currentPos :=
            s₁.conv.currentPos + 1 } := by
          rw [hconv]
          refine ⟨rfl, rfl, rfl, rfl, ?_, Nat.le_succ _⟩
          show s.conv.currentPos + 1 = (s.conv.streamTokens ++ [t]).length
          rw [hpos, List.length_append, List.length_singleton]
        obtain ⟨hkept, hend⟩ :=
          ih (eng.forward s₁.engine [t] [s₁.conv.currentPos] 1).1 g₁
          (({ s₁ with engine :=
            (eng.forward s₁.engine [t] [s₁.conv.currentPos] 1).2 } :
            World S M G R).advance 1) (hnext.eog.trans heog) hnext.pos hheld.2
        refine ⟨hnext.trans hkept, fun g' hg' => ?_⟩
        refine LoopEnd.cons ?_
        have hstream :
            ((({ s₁ with engine :=
              (eng.forward s₁.engine [t] [s₁.conv.currentPos] 1).2 } :
            World S M G R).advance 1).conv.streamTokens)
                = s.conv.streamTokens ++ [t] := by
          show s₁.conv.streamTokens = _
          rw [hconv]
          rfl
        have := hend g' hg'
        rw [hheld.1, hstream] at this
        exact this

-- ============================= replies

theorem Turn.bind_error {β : Type} {x : Turn S M G R α} {f : α → Turn S M G R β}
    {s s' : World S M G R} {e : Exit} (h : x s = (.error e, s')) :
    (x >>= f) s = (.error e, s') := by
  show ExceptT.bindCont f (x s).1 (x s).2 = (.error e, s')
  rw [h]
  rfl

/-- A stop match is the end of the buffer. -/
theorem matchStopSuffix_suffix {buf : List UInt8}
    {cut : Nat} (h : matchStopSuffix buf stops = some cut) : cut ≤ buf.length
    ∧ buf.drop cut ∈ stops := by
  unfold matchStopSuffix at h
  refine List.foldlRecOn (motive := fun best => ∀ b, best = some b →
    b ≤ buf.length ∧ buf.drop b ∈ stops) _ _ (by simp) ?_ cut h
  intro best hbest s hs b hb
  split at hb
  · exact hbest b hb
  split at hb
  next hmatch =>
    have hnew : buf.length - s.length ≤ buf.length
        ∧ buf.drop (buf.length - s.length) ∈ stops :=
      ⟨Nat.sub_le .., by rw [hmatch]; exact hs⟩
    cases best with
    | none =>
        cases hb
        exact hnew
    | some b₀ =>
        cases hb
        rcases Nat.le_total b₀ (buf.length - s.length) with hle | hle
        · rw [Nat.min_eq_left hle]
          exact hbest b₀ rfl
        · rw [Nat.min_eq_right hle]
          exact hnew
  next => exact hbest b hb

/-- A stop string the tokens complete starts where the last of them does. -/
def StopsAtToken (codec : TokenCodec) (stops : List (List UInt8))
    (ts : List Token) : Prop :=
  ∀ pre t cut, ts = pre ++ [t] →
    matchStopSuffix (tokenBytes codec ts) stops = some cut →
    cut = (tokenBytes codec pre).length

/-- The stream, and the EOT it still owes, is the render of the messages
without its last newline. -/
def Canonical (codec : TokenCodec) (c : Conversation M G R) : Prop :=
  codec.decodeBytes c.streamTokens
    ++ (if c.needInsertEot then utf8Encode imEnd else [])
    = utf8Encode (trimNewline (fallbackChatmlMessages c.messages false))

/-- A reply closes the render its prompt opened. -/
theorem LoopEnd.canonical {codec : TokenCodec} {ts : List Token} {g : Gen}
    {c : Conversation M G R} {stream : List Token} {messages : List Message}
    (hend : LoopEnd codec stops eot ts [] stream g c.streamTokens)
    (hcodec : Faithful codec eot) (hprompt : codec.decodeBytes stream
      = utf8Encode (fallbackChatmlMessages messages true))
    (hmessages : c.messages
      = messages ++ [⟨"assistant", some (fromUtf8Lossy g.full)⟩])
    (hneed : c.needInsertEot = !g.stoppedByEog)
    (htext : ∃ text, tokenBytes codec ts = utf8Encode text)
    (hstops : ∀ s ∈ stops, ∃ text, s = utf8Encode text)
    (hclean : StopsAtToken codec stops ts) : Canonical codec c := by
  -- what was committed decodes to the recorded text
  have hclose : ∀ (committed : List Token) (text : Text),
      codec.decodeBytes committed = utf8Encode text → g.full = utf8Encode text →
      codec.decodeBytes (stream ++ committed) ++ utf8Encode imEnd
        = utf8Encode (trimNewline (fallbackChatmlMessages c.messages false)) := by
    intro committed text hcommitted hfull
    rw [hmessages, trimNewline_chatml, hfull, fromUtf8Lossy_utf8Encode,
      hcodec.decode_append,
      hprompt, hcommitted, ← utf8Encode_append, ← utf8Encode_append]
    refine congrArg utf8Encode ?_
    simp [fallbackChatmlMessages, assistantHeader]
  obtain ⟨text, htext⟩ := htext
  unfold Canonical
  rw [hneed]
  generalize hstream : c.streamTokens = stream' at hend ⊢
  cases hend with
  | eog hstop hfull =>
      rw [List.nil_append] at hfull
      rw [hstop, Bool.not_true, if_neg (by decide), List.append_nil,
        hcodec.decode_append,
        hcodec.decode_eot]
      refine hclose ts text ?_ (hfull.trans htext)
      rw [← hcodec.tokenBytes, htext]
  | cap hstop hfull =>
      rw [List.nil_append] at hfull
      rw [hstop, Bool.not_false, if_pos rfl]
      refine hclose ts text ?_ (hfull.trans htext)
      rw [← hcodec.tokenBytes, htext]
  | stop hts hstop hmatch hfull =>
      next pre t cut =>
      rw [List.nil_append] at hmatch hfull
      rw [hstop, Bool.not_false, if_pos rfl]
      obtain ⟨stop, hstopText⟩ := hstops _ (matchStopSuffix_suffix hmatch).2
      have hsplit : utf8Encode text = (tokenBytes codec ts).take cut
          ++ utf8Encode stop := by
        rw [← hstopText, List.take_append_drop, htext]
      obtain ⟨p, hp⟩ := text_before_suffix hsplit
      have hpre : (tokenBytes codec ts).take cut = tokenBytes codec pre := by
        rw [hclean pre t cut hts hmatch, hts, tokenBytes_append, List.take_left]
      refine hclose pre p ?_ (hfull.trans hp)
      rw [← hcodec.tokenBytes, ← hpre, hp]

section Replies

variable {env : Setup S F M G R}

/-- The tokens sampled for a reply. -/
def replySampled (env : Setup S F M G R) (cfg : TurnParams F M G R)
    (logits : List F) (s : World S M G R) : List Token :=
  sampledLoop env.engine env.codec cfg cfg.nPredict logits Gen.start
    (resetGrammar cfg { s with conv := { s.conv with
      prevTokens := recentWindow s.conv.streamTokens repeatLastN } })

/-- A reply that is made ends the loop and records its text; one the
sampler refuses leaves the messages. -/
theorem reply_ends (hspec : env.engine.hasSpec = false)
    (cfg : TurnParams F M G R) (logits : List F) (n d : Nat) {eot : Token}
    {s : World S M G R} (heog : s.conv.eog = [eot])
    (hpos : s.conv.currentPos = s.conv.streamTokens.length) :
    ((∃ e, (reply env cfg logits n d s).1 = .error e)
        ∧ Kept s.conv (reply env cfg logits n d s).2.conv)
      ∨ ∃ (g : Gen) (c : Conversation M G R),
        (∃ out, (reply env cfg logits n d s).1 = .ok out)
        ∧ Kept s.conv c
        ∧ LoopEnd env.codec cfg.stopStrings eot (replySampled env cfg logits s) []
            s.conv.streamTokens g c.streamTokens
        ∧ (reply env cfg logits n d s).2.conv = { c with
            messages := c.messages ++ [⟨"assistant", some (fromUtf8Lossy g.full)⟩]
            needInsertEot := !g.stoppedByEog } := by
  have hloop := decodeLoop_ends env.engine env.codec cfg cfg.nPredict logits Gen.start
    (resetGrammar cfg { s with conv := { s.conv with
      prevTokens := recentWindow s.conv.streamTokens repeatLastN } }) heog hpos rfl
  have hrun : reply env cfg logits n d s
      = ((fun s =>
        generateAssistantWithLogits env.engine env.codec cfg logits s)
        >>= fun out =>
          pure { out with prefillTokens := n, droppedTurns := d } :
            Turn S M G R TurnOutcome)
        { s with conv := { s.conv with
          prevTokens := recentWindow s.conv.streamTokens repeatLastN } } := rfl
  rw [hrun]
  generalize hr : decodeLoop env.engine env.codec cfg cfg.nPredict logits Gen.start
    (resetGrammar cfg { s with conv := { s.conv with
      prevTokens := recentWindow s.conv.streamTokens repeatLastN } }) = r at hloop
  obtain ⟨out, s'⟩ := r
  obtain ⟨hloop, hend⟩ := hloop
  have hkept : Kept s.conv s'.conv :=
    ⟨hloop.messages, hloop.turnPos, hloop.eog, hloop.eot, hloop.pos, hloop.grows⟩
  cases out with
  | error e =>
      have hgen : generateAssistantWithLogits env.engine env.codec cfg logits
          { s with conv := { s.conv with
            prevTokens := recentWindow s.conv.streamTokens repeatLastN } }
                = (.error e, s') := by
        simp only [generateAssistantWithLogits, hspec, generateAssistantPlain, hr]
        rfl
      rw [Turn.bind_error hgen]
      exact .inl ⟨⟨e, rfl⟩, hkept⟩
  | ok g =>
      have hgen : generateAssistantWithLogits env.engine env.codec cfg logits
          { s with conv := { s.conv with
            prevTokens := recentWindow s.conv.streamTokens repeatLastN } }
          = (.ok (finishTurn g s').1, (finishTurn g s').2) := by
        simp only [generateAssistantWithLogits, hspec, generateAssistantPlain, hr]
        rfl
      rw [Turn.bind_ok hgen]
      refine .inr ⟨g, s'.conv, ⟨_, rfl⟩, hkept, hend g rfl, ?_⟩
      show (finishTurn g s').2.conv = _
      unfold finishTurn
      dsimp only
      split
      · rfl
      · rfl

end Replies

end Minfer.Session
