/-
Streamed text against the bytes it comes from (`server/batch.rs`,
`tokenizer.rs`).

After every token the engine sends the units its buffer holds, a unit being
the bytes a lead byte announces, whatever they are (`streamed`). The decoder
reads the same bytes differently: a sequence that breaks off is replaced and
the byte that broke it starts the next character. So the text depends on
where the tokens end, unless no character goes on past the end of a unit and
only an unfinished character is held back at the end (`Aligned`).
-/
import Minfer.Lib.Cut
import Minfer.Server.Proofs.StopStrings

namespace Minfer.Server

open Minfer.Lib (fromUtf8Lossy Incomplete Splits isCont)

-- =============================== units

/-- The bytes a lead byte announces. -/
def IsUnit (u : List UInt8) : Prop := ∃ b cs, u = b :: cs ∧ u.length = unitLen b

/-- Fewer bytes than the first of them announces. -/
def Held (t : List UInt8) : Prop := ∀ b cs, t = b :: cs → t.length < unitLen b

theorem unitLen_spec (b : UInt8) : unitLen b =
    if b.toNat < 192 then 1 else if b.toNat < 224 then 2 else if b.toNat < 240 then 3
    else if b.toNat < 248 then 4 else 1 := by
  have hall : ∀ n : Fin 256, unitLen (UInt8.ofNat n) =
      if n.val < 192 then 1 else if n.val < 224 then 2 else if n.val < 240 then 3
      else if n.val < 248 then 4 else 1 := by decide +kernel
  have hb := hall ⟨b.toNat, b.toNat_lt⟩
  rwa [UInt8.ofNat_toNat] at hb

theorem unitLen_pos (b : UInt8) : 0 < unitLen b := by
  rw [unitLen_spec]
  repeat' split
  all_goals omega

/-- A character's first byte announces its length. -/
theorem unitLen_encodeChar {c : Char} {b : UInt8} {tail : List UInt8}
    (h : String.utf8EncodeChar c = b :: tail) : unitLen b = tail.length + 1 := by
  rw [unitLen_spec]
  rcases Lib.encode_cases c with ⟨hc, henc⟩ | ⟨hc, henc⟩ | ⟨hc, henc⟩ | ⟨hc, henc⟩
  all_goals
    rw [h, List.cons.injEq] at henc
    obtain ⟨rfl, rfl⟩ := henc
    rw [Lib.toNat_byte (by omega)]
    simp only [List.length_cons, List.length_nil]
    repeat' split
    all_goals omega

variable {u t bytes : List UInt8} {us : List (List UInt8)} {text : List Char}

theorem IsUnit.ne_nil (h : IsUnit u) : u ≠ [] := by
  obtain ⟨b, cs, rfl, -⟩ := h
  exact List.cons_ne_nil _ _

theorem Held.lead {b : UInt8} {cs : List UInt8} (h : Held (b :: cs)) :
    isCont b = false := by
  have hlt := h b cs rfl
  rw [unitLen_spec, List.length_cons] at hlt
  apply Bool.eq_false_iff.mpr
  rw [Ne, Lib.isCont_iff]
  intro hcont
  rw [if_pos (by omega)] at hlt
  omega

theorem Held.of_incomplete (h : Incomplete t) : Held t := by
  intro b cs ht
  obtain ⟨-, c, more, hmore, henc⟩ := h
  rw [ht, List.cons_append] at henc
  rw [unitLen_encodeChar henc, ht, List.length_cons, List.length_append]
  have hpos := List.length_pos_iff.mpr hmore
  omega

/-- Bytes that complete a unit are not held back. -/
theorem IsUnit.not_held (h : IsUnit u) (rest : List UInt8) : ¬ Held (u ++ rest) := by
  obtain ⟨b, cs, rfl, hlen⟩ := h
  intro hheld
  have hlt := hheld b (cs ++ rest) rfl
  rw [List.length_append] at hlt
  omega

theorem completeFrom_skip : ∀ (rest : List UInt8) (skip : Nat),
    completeFrom rest skip = completeFrom (rest.drop skip) 0
  | [], 0 => rfl
  | [], _ + 1 => rfl
  | _ :: _, 0 => rfl
  | _ :: rest, skip + 1 => completeFrom_skip rest skip

theorem complete_unit (hu : IsUnit u) (rest : List UInt8) :
    completeUtf8PrefixLen (u ++ rest) = u.length + completeUtf8PrefixLen rest := by
  obtain ⟨b, cs, rfl, hlen⟩ := hu
  have hcs : unitLen b - 1 = cs.length := by
    rw [List.length_cons] at hlen
    omega
  rw [completeUtf8PrefixLen, List.cons_append, completeFrom, if_neg,
    completeFrom_skip, hcs, List.drop_left, hlen]
  · rfl
  · rw [List.length_append]
    omega

theorem complete_held (h : Held t) : completeUtf8PrefixLen t = 0 := by
  rcases t with _ | ⟨b, cs⟩
  · rfl
  · have hlt := h b cs rfl
    rw [List.length_cons] at hlt
    rw [completeUtf8PrefixLen, completeFrom, if_pos hlt]

theorem complete_walk (hus : ∀ u ∈ us, IsUnit u) (ht : Held t) :
    completeUtf8PrefixLen (us.flatten ++ t) = us.flatten.length := by
  induction us with
  | nil => exact complete_held ht
  | cons u us ih =>
      have hrest := ih fun v hv => hus v (List.mem_cons_of_mem _ hv)
      rw [List.flatten_cons, List.append_assoc,
        complete_unit (hus u List.mem_cons_self), hrest, List.length_append]

/-- Every byte string is units, and bytes held back. -/
theorem exists_units (bytes : List UInt8) :
    ∃ (us : List (List UInt8)) (t : List UInt8), bytes = us.flatten ++ t
      ∧ (∀ u ∈ us, IsUnit u) ∧ Held t := by
  induction hn : bytes.length using Nat.strongRecOn generalizing bytes with
  | ind n ih =>
      rcases bytes with _ | ⟨b, rest⟩
      · exact ⟨[], [], rfl, nofun, nofun⟩
      · by_cases hfit : (b :: rest).length < unitLen b
        · refine ⟨[], b :: rest, rfl, nofun, fun b' cs heq => ?_⟩
          cases heq
          exact hfit
        · have hpos := unitLen_pos b
          have hshort : ((b :: rest).drop (unitLen b)).length < n := by
            rw [List.length_drop, hn]
            rw [List.length_cons] at hn
            omega
          obtain ⟨us, t, heq, hus, ht⟩ := ih _ hshort _ rfl
          have hunit : IsUnit ((b :: rest).take (unitLen b)) := by
            refine ⟨b, rest.take (unitLen b - 1), ?_, ?_⟩
            · conv_lhs => rw [← Nat.sub_add_cancel hpos, List.take_succ_cons]
            · rw [List.length_take]
              omega
          refine ⟨(b :: rest).take (unitLen b) :: us, t, ?_, ?_, ht⟩
          · rw [List.flatten_cons, List.append_assoc, ← heq, List.take_append_drop]
          · intro u hu
            rcases List.mem_cons.mp hu with rfl | hu
            · exact hunit
            · exact hus u hu

-- ========================== the stream

/-- The text sent for tokens taken in one after the other: after each, the
units the buffer holds. -/
def streamed : List UInt8 → List (List UInt8) → List Char
  | _, [] => []
  | held, piece :: rest =>
      fromUtf8Lossy ((held ++ piece).take (completeUtf8PrefixLen (held ++ piece)))
        ++ streamed ((held ++ piece).drop
          (completeUtf8PrefixLen (held ++ piece))) rest

theorem streamed_cons {piece : List UInt8} {rest : List (List UInt8)}
    {held : List UInt8} (hbuf : held ++ piece = us.flatten ++ t)
    (hus : ∀ u ∈ us, IsUnit u) (ht : Held t) :
    streamed held (piece :: rest) = fromUtf8Lossy us.flatten ++ streamed t rest := by
  rw [streamed, hbuf, complete_walk hus ht, List.take_left, List.drop_left]

/-- The text of the bytes: their decoding, without the character the end
breaks off. -/
def Delivers (bytes : List UInt8) (text : List Char) : Prop :=
  ∃ whole, text = fromUtf8Lossy whole
    ∧ (whole = bytes ∧ (∀ part, part <:+ bytes → ¬ Incomplete part)
      ∨ ∃ part, Incomplete part ∧ bytes = whole ++ part)

/-- The units are whole characters' bytes: none splits a character, neither
against what follows nor against the end, and what is held back at the end is
the start of one character. -/
inductive Aligned : List UInt8 → Prop
  | nil : Aligned []
  | held {t : List UInt8} (h : Incomplete t) : Aligned t
  | unit {u rest : List UInt8} (hu : IsUnit u) (hsplit : ¬ Splits u rest)
      (hend : rest = [] → ∀ part, part <:+ u → ¬ Incomplete part) (h : Aligned rest) :
      Aligned (u ++ rest)

-- ======================= aligned bytes

/-- A unit in front of aligned bytes. -/
theorem Aligned.unit_inv {rest : List UInt8} (h : Aligned (u ++ rest))
    (hu : IsUnit u) :
    ¬ Splits u rest ∧ (rest = [] → ∀ part, part <:+ u → ¬ Incomplete part)
      ∧ Aligned rest := by
  generalize hall : u ++ rest = all at h
  cases h with
  | nil => exact absurd (List.append_eq_nil_iff.mp hall).1 hu.ne_nil
  | held hpart =>
      rw [← hall] at hpart
      exact absurd (Held.of_incomplete hpart) (hu.not_held rest)
  | @unit v rest' hv hsplit hend htail =>
      -- both units start with the same byte
      have hlen : u.length = v.length := by
        obtain ⟨b, cs, rfl, hlen⟩ := hu
        obtain ⟨b', cs', rfl, hlen'⟩ := hv
        rw [List.cons_append, List.cons_append, List.cons.injEq] at hall
        rw [hlen, hlen', hall.1]
      obtain ⟨rfl, rfl⟩ := List.append_inj hall hlen
      exact ⟨hsplit, hend, htail⟩

theorem Delivers.unit {rest : List UInt8} (h : Delivers rest text)
    (hsplit : ¬ Splits u rest)
    (hend : rest = [] → ∀ part, part <:+ u → ¬ Incomplete part) :
    Delivers (u ++ rest) (fromUtf8Lossy u ++ text) := by
  obtain ⟨whole, rfl, hwhole⟩ := h
  have hpre : whole <+: rest := by
    rcases hwhole with ⟨rfl, -⟩ | ⟨part, -, rfl⟩
    · exact List.prefix_rfl
    · exact List.prefix_append ..
  refine ⟨u ++ whole,
    (Lib.lossy_append_iff.mpr fun h => hsplit (h.of_prefix hpre)).symm, ?_⟩
  rcases hwhole with ⟨rfl, hnone⟩ | ⟨part, hpart, rfl⟩
  · refine .inl ⟨rfl, fun part hsuf hpart => ?_⟩
    obtain ⟨before, heq⟩ := hsuf
    rcases List.append_eq_append_iff.mp heq with ⟨front, rfl, rfl⟩
      | ⟨inside, rfl, rfl⟩
    · rcases whole with _ | ⟨b, cs⟩
      · rw [List.append_nil] at hpart
        exact hend rfl front (List.suffix_append ..) hpart
      · rcases front with _ | ⟨x, front⟩
        · exact hnone _ List.suffix_rfl hpart
        · obtain ⟨-, c, more, -, henc⟩ := hpart
          exact hsplit ⟨x :: front, b :: cs, more, c, List.cons_ne_nil _ _,
            List.cons_ne_nil _ _, List.suffix_append .., List.prefix_rfl, henc⟩
    · exact hnone part (List.suffix_append ..) hpart
  · exact .inr ⟨part, hpart, (List.append_assoc ..).symm⟩

variable {pieces : List (List UInt8)}

/-- Aligned bytes are delivered, however they were cut into tokens. -/
theorem streamed_of_aligned :
    ∀ {t : List UInt8}, Held t → Aligned (t ++ pieces.flatten) →
      Delivers (t ++ pieces.flatten) (streamed t pieces) := by
  induction pieces with
  | nil =>
      intro t ht h
      rw [List.flatten_nil, List.append_nil] at h ⊢
      cases h with
      | nil => exact ⟨[], rfl,
          .inl ⟨rfl, fun part hsuf hpart => hpart.1 (List.suffix_nil.mp hsuf)⟩⟩
      | held hpart => exact ⟨[], rfl, .inr ⟨t, hpart, rfl⟩⟩
      | unit hu => exact absurd ht (hu.not_held _)
  | cons piece pieces ih =>
      intro t ht h
      obtain ⟨us, t', hbuf, hus, ht'⟩ := exists_units (t ++ piece)
      rw [streamed_cons hbuf hus ht']
      rw [List.flatten_cons, ← List.append_assoc, hbuf, List.append_assoc] at h ⊢
      clear hbuf
      induction us with
      | nil => exact ih ht' h
      | cons u us ihus =>
          rw [List.flatten_cons, List.append_assoc] at h ⊢
          obtain ⟨hsplit, hend, hrest⟩ := h.unit_inv (hus u List.mem_cons_self)
          have hdel :=
            (ihus hrest fun v hv => hus v (List.mem_cons_of_mem _ hv)).unit
            hsplit hend
          have hcut : ¬ Splits u us.flatten :=
            fun h => hsplit (h.of_prefix (List.prefix_append ..))
          rwa [Lib.lossy_append_iff.mpr hcut, List.append_assoc]

-- =========================== both cuts

theorem Delivers.unique {text' : List Char} (h : Delivers bytes text)
    (h' : Delivers bytes text') :
    text = text' := by
  obtain ⟨w, rfl, hw⟩ := h
  obtain ⟨w', rfl, hw'⟩ := h'
  rcases hw with ⟨rfl, hnone⟩ | ⟨part, hpart, heq⟩
  · rcases hw' with ⟨rfl, -⟩ | ⟨part', hpart', heq'⟩
    · rfl
    · exact absurd hpart' (hnone part' (heq' ▸ List.suffix_append ..))
  · rcases hw' with ⟨rfl, hnone⟩ | ⟨part', hpart', heq'⟩
    · exact absurd hpart (hnone part (heq ▸ List.suffix_append ..))
    · rw [Lib.incomplete_suffix_unique hpart hpart' (heq.symm.trans heq')]

/-- A token a unit. -/
theorem streamed_units (hus : ∀ u ∈ us, IsUnit u) (ht : Held t) :
    streamed [] (us ++ [t]) = us.flatMap fromUtf8Lossy := by
  induction us with
  | nil =>
      rw [List.nil_append, @streamed_cons t [] t [] [] rfl nofun ht]
      rfl
  | cons u us ih =>
      have hone : [] ++ u = [u].flatten ++ [] := by simp
      have hunit : ∀ v ∈ [u], IsUnit v := by
        intro v hv
        rw [List.mem_singleton.mp hv]
        exact hus u List.mem_cons_self
      rw [List.cons_append, streamed_cons hone hunit nofun,
        ih fun v hv => hus v (List.mem_cons_of_mem _ hv),
        List.flatten_singleton, List.flatMap_cons]

/-- All bytes in one token. -/
theorem streamed_whole (hus : ∀ u ∈ us, IsUnit u) (ht : Held t) :
    streamed [] [us.flatten ++ t] = fromUtf8Lossy us.flatten := by
  rw [@streamed_cons t us (us.flatten ++ t) [] [] rfl hus ht, streamed,
    List.append_nil]

theorem length_lossy_flatten_le (us : List (List UInt8)) :
    (fromUtf8Lossy us.flatten).length ≤ (us.flatMap fromUtf8Lossy).length := by
  induction us with
  | nil => exact Nat.le_refl _
  | cons u us ih =>
      have hle := Lib.length_lossy_append_le u us.flatten
      rw [List.flatten_cons, List.flatMap_cons, List.length_append]
      omega

theorem aligned_of_lossy (hus : ∀ u ∈ us, IsUnit u) (ht : Held t)
    (hsame : us.flatMap fromUtf8Lossy = fromUtf8Lossy us.flatten)
    (hheld : t ≠ [] → Incomplete t)
    (hend : t = [] → ∀ part, part <:+ us.flatten → ¬ Incomplete part) :
    Aligned (us.flatten ++ t) := by
  induction us with
  | nil =>
      rcases List.eq_nil_or_concat t with rfl | ⟨l, b, rfl⟩
      · exact .nil
      · exact .held (hheld (by simp))
  | cons u us ih =>
      rw [List.flatMap_cons, List.flatten_cons] at hsame
      have hle := length_lossy_flatten_le us
      have hlen := congrArg List.length hsame
      rw [List.length_append] at hlen
      have hcut : ¬ Splits u us.flatten := by
        intro hsplit
        have hlt := (Lib.lossy_append u us.flatten).2 hsplit
        omega
      rw [Lib.lossy_append_iff.mpr hcut] at hsame
      rw [List.flatten_cons, List.append_assoc]
      refine .unit (hus u List.mem_cons_self)
        (fun hsplit => hcut (hsplit.of_lead ?_)) ?_
        (ih (fun v hv => hus v (List.mem_cons_of_mem _ hv))
            (List.append_cancel_left hsame) fun hnil part hsuf =>
          hend hnil part
              (hsuf.trans
                (by rw [List.flatten_cons]; exact List.suffix_append ..)))
      · rintro b cs rfl
        exact ht.lead
      · intro hrest part hsuf
        obtain ⟨hflat, hnil⟩ := List.append_eq_nil_iff.mp hrest
        apply hend hnil part
        rwa [List.flatten_cons, hflat, List.append_nil]

/-- What is held back when everything else was decoded is the start of one
character. -/
theorem Delivers.held
    (h : Delivers (us.flatten ++ t) (fromUtf8Lossy us.flatten)) (ht : Held t) :
    (t ≠ [] → Incomplete t)
      ∧ (t = [] → ∀ part, part <:+ us.flatten → ¬ Incomplete part) := by
  have hlead : ∀ b cs, t = b :: cs → isCont b = false := by
    rintro b cs rfl
    exact ht.lead
  obtain ⟨whole, hlossy, ⟨rfl, hnone⟩ | ⟨part, hpart, heq⟩⟩ := h
  · rw [Lib.lossy_append_iff.mpr (Lib.not_splits_lead hlead)] at hlossy
    have hnil : t = [] := Lib.lossy_eq_nil (List.self_eq_append_right.mp hlossy)
    rw [hnil, List.append_nil] at hnone
    exact ⟨fun hne => absurd hnil hne, fun _ => hnone⟩
  · rcases List.append_eq_append_iff.mp heq with ⟨front, hfront, rfl⟩
      | ⟨front, hfront, rfl⟩
    · -- nothing of what is held back was left to decode
      have hb : ∀ b cs, front = b :: cs → isCont b = false :=
        fun b cs hcs => hlead b (cs ++ part) (by rw [hcs, List.cons_append])
      rw [hfront, Lib.lossy_append_iff.mpr (Lib.not_splits_lead hb)] at hlossy
      rw [Lib.lossy_eq_nil (List.self_eq_append_right.mp hlossy), List.nil_append]
      exact ⟨fun _ => hpart, fun hnil => absurd hnil hpart.1⟩
    · rcases front with _ | ⟨x, front⟩
      · exact ⟨fun _ => hpart, fun hnil => absurd hnil hpart.1⟩
      · -- a character that started in a unit would have been decoded
        have hb : ∀ b cs, x :: front = b :: cs → isCont b = false := by
          rintro b cs ⟨⟩
          exact hpart.lead
        rw [hfront, Lib.lossy_append_iff.mpr (Lib.not_splits_lead hb)] at hlossy
        cases Lib.lossy_eq_nil (List.append_right_eq_self.mp hlossy)

/-- The text is that of the bytes for every cut into tokens exactly when they
are aligned: the tokens that show it are the units one by one, and all the
bytes at once. -/
theorem streamed_delivers_iff :
    (∀ pieces : List (List UInt8), pieces.flatten = bytes →
    Delivers bytes (streamed [] pieces)) ↔ Aligned bytes := by
  constructor
  · intro h
    obtain ⟨us, t, rfl, hus, ht⟩ := exists_units bytes
    have hunits := h (us ++ [t]) (by rw [List.flatten_append, List.flatten_singleton])
    have hwhole := h [us.flatten ++ t] List.flatten_singleton
    rw [streamed_units hus ht] at hunits
    rw [streamed_whole hus ht] at hwhole
    obtain ⟨hheld, hend⟩ := hwhole.held ht
    exact aligned_of_lossy hus ht (hunits.unique hwhole) hheld hend
  · rintro h pieces rfl
    exact streamed_of_aligned (t := []) nofun h

-- ========================== the engine

/-- The text events of a request, delivered or not. -/
def said (id : Nat) (D : List LogEntry) : List Char :=
  D.flatMap fun
    | .sent job (.text chunk) _ => if job = id then chunk else []
    | _ => []

theorem said_append (id : Nat) (A B : List LogEntry) :
    said id (A ++ B) = said id A ++ said id B :=
  List.flatMap_append

open BatchEngine

variable {Λ σ : Type} {w : World Λ σ} {e e' : BatchEngine Λ σ} {idx : Nat}
  {slot : SlotState Λ σ} {run run' : Run Λ σ} {job : Job σ} {toks : List Token}

/-- The token a turn takes in, if it gets to one. -/
def taken (w : World Λ σ) (slot : SlotState Λ σ) (run : Run Λ σ) : List Token :=
  if Run.budgetDone run ∨ run.currentPos ≥ slot.cap then []
  else match (w.sample run.sampler run.lastLogits run.prevTokens).1 with
    | .error _ => []
    | .ok tok => if w.isStopToken tok then [] else [tok]

theorem taken_spent (h : Spent slot run) : taken w slot run = [] := if_pos h

theorem taken_sampled (h : ¬ Spent slot run) : taken w slot run =
    match (w.sample run.sampler run.lastLogits run.prevTokens).1 with
    | .error _ => []
    | .ok tok => if w.isStopToken tok then [] else [tok] := if_neg h

/-- A request from its admission to the end `finish` announces, no stop
string found: the tokens it took in, and the text it was sent. -/
inductive Finished (w : World Λ σ) (idx : Nat) (job : Job σ) : List Token →
    List Char → Prop
  | finished {toks : List Token} {run run' : Run Λ σ} {text : List Char}
      {e e' : BatchEngine Λ σ}
      {slot : SlotState Λ σ} {reason : FinishReason}
      (hd : Decoding w (fun _ => True) idx job toks run text)
      (hs : e.slots[idx]? = some slot) (hr : slot.run = some run)
      (hadvance : e.advance w idx slot run = (.ok (.finish reason), e'))
      (hrun : e'.runAt idx = some run')
      (hnone : matchStopSuffix run'.full run'.params.stopStrings = none) :
      Finished w idx job (toks ++ taken w slot run)
        (text ++ said job.id ((e'.finish w idx reason).log.drop e.log.length))

/-- What was sent, and what is held back: the rest is sent as it would be
for the bytes alone. -/
structure Sent (run : Run Λ σ) (pieces : List (List UInt8))
    (text : List Char) : Prop where
  held : Held (run.full.drop run.emitted)
  le : run.emitted ≤ run.full.length
  more : ∀ rest, streamed [] (pieces ++ rest)
    = text ++ streamed (run.full.drop run.emitted) rest

theorem held_rest (buf : List UInt8) : Held
    (buf.drop (completeUtf8PrefixLen buf)) := by
  obtain ⟨us, t, rfl, hus, ht⟩ := exists_units buf
  rwa [complete_walk hus ht, List.drop_left]

theorem complete_le (buf : List UInt8) : completeUtf8PrefixLen buf ≤ buf.length := by
  obtain ⟨us, t, rfl, hus, ht⟩ := exists_units buf
  rw [complete_walk hus ht, List.length_append]
  exact Nat.le_add_right _ _

theorem Sent.start (hfull : run.full = []) (hemitted : run.emitted = 0) :
    Sent run [] [] := by
  refine ⟨?_, ?_, fun rest => ?_⟩
  · rw [hfull, List.drop_nil]
    exact nofun
  · rw [hemitted]
    exact Nat.zero_le _
  · rw [hfull, List.drop_nil]
    rfl

/-- A token taken in. -/
theorem Sent.take (h : Sent run pieces text) {tok : Token} {s : σ}
    (hrun : run' = Run.commit w { run with sampler := s } tok) :
    Sent (Run.shown run') (pieces ++ [w.decodeBytes tok])
      (text ++ fromUtf8Lossy (Run.pendingText run')) := by
  have hle := h.le
  have hbuf : run'.full.drop run'.emitted
      = run.full.drop run.emitted ++ w.decodeBytes tok := by
    rw [hrun]
    exact List.drop_append_of_le_length hle
  have hlen := complete_le (run'.full.drop run'.emitted)
  have hpending : (Run.pendingText run').length
      = completeUtf8PrefixLen (run'.full.drop run'.emitted) := by
    rw [Run.pendingText, List.length_take]
    exact Nat.min_eq_left hlen
  have hdrop : (Run.shown run').full.drop (Run.shown run').emitted
      = (run'.full.drop run'.emitted).drop
        (completeUtf8PrefixLen (run'.full.drop run'.emitted)) := by
    rw [List.drop_drop, ← hpending]
    rfl
  have hin : run'.emitted ≤ run'.full.length := by
    rw [hrun]
    show run.emitted ≤ (run.full ++ w.decodeBytes tok).length
    rw [List.length_append]
    omega
  refine ⟨?_, ?_, fun rest => ?_⟩
  · rw [hdrop]
    exact held_rest _
  · show run'.emitted + (Run.pendingText run').length ≤ run'.full.length
    rw [List.length_drop] at hlen
    omega
  · rw [List.append_assoc, h.more, List.singleton_append, streamed, ← hbuf,
      hdrop, ← Run.pendingText, List.append_assoc]

theorem Sent.idle (h : Sent run pieces text) (hfull : run'.full = run.full)
    (hemitted : run'.emitted = run.emitted) : Sent run' pieces text := by
  refine ⟨?_, ?_, fun rest => ?_⟩
  · rw [hfull, hemitted]
    exact h.held
  · rw [hfull, hemitted]
    exact h.le
  · rw [hfull, hemitted]
    exact h.more rest

/-- A request that goes on. -/
theorem Decoding.sent (h : Decoding w (fun _ => True) idx job toks run text) :
    run.id = job.id ∧ Sent run (toks.map w.decodeBytes) text := by
  induction h with
  | admitted hid hparams hfull hemitted => exact ⟨hid, .start hfull hemitted⟩
  | idle _ hid hparams hfull hemitted ih =>
      exact ⟨hid.trans ih.1, ih.2.idle hfull hemitted⟩
  | turn _ _ hs hr hstep hrun htok ih =>
      obtain ⟨hid, hsent⟩ := ih
      obtain ⟨tok, s, run₁, -, -, hrun₁, -, hrun', hheard⟩ :=
        stepSlot_goes_on hs hr hstep
      rw [hrun] at hrun'
      cases hrun'
      cases htok
      refine ⟨?_, ?_⟩
      · rw [← hid, hrun₁]
        rfl
      · rw [List.map_append, ← hid, hheard]
        exact (hsent.take hrun₁).idle rfl rfl

/-- Nothing but the end is left to send when everything complete was sent. -/
theorem said_finish (w : World Λ σ) (reason : FinishReason)
    (hrun : e.runAt idx = some run)
    (hnone : matchStopSuffix run.full run.params.stopStrings = none)
    (h : Sent run pieces text) (id : Nat) :
    ∃ T, (e.finish w idx reason).log = e.log ++ T
    ∧ said id T = [] := by
  obtain ⟨slot, hs, hr⟩ := runAt_eq_some.mp hrun
  have ht : (Run.tail run).isEmpty = true := by
    have hzero := complete_held h.held
    simp only [Run.tail, hnone, hzero, List.take_zero, List.isEmpty_nil]
  refine ⟨[.sent run.id (.finish reason run.completionTokens)
    (w.sendOk e.sends)], ?_, rfl⟩
  simp [finish, hs, hr, ht, send, setSlot]

theorem said_showEntries (run : Run Λ σ) :
    said run.id (showEntries run true) = fromUtf8Lossy (Run.pendingText run) := by
  unfold showEntries
  split
  next h =>
    rw [List.isEmpty_iff.mp h]
    rfl
  next => simp [said]

/-- A finished request's text is the stream of its tokens' bytes. -/
theorem Finished.streamed (h : Finished w idx job toks text) :
    text = streamed [] (toks.map w.decodeBytes) := by
  cases h with
  | @finished toks run run' text e e' slot reason hd hs hr hadvance hrun hnone =>
      obtain ⟨hid, hsent⟩ := hd.sent
      -- what is left to show once the log of the last turn is known
      have hends : ∀ {pieces : List (List UInt8)} {text' : List Char}
          {D : List LogEntry},
          Sent run' pieces text' → e'.log = e.log ++ D →
            text ++ said job.id D = text' →
          text ++ said job.id ((e'.finish w idx reason).log.drop e.log.length)
              = Server.streamed [] pieces := by
        intro pieces text' D hsent' hlog htext
        obtain ⟨T, hT, hquiet⟩ := said_finish w reason hrun hnone hsent' job.id
        have hmore := hsent'.more []
        rw [List.append_nil] at hmore
        rw [hT, hlog, List.append_assoc, List.drop_left, said_append, hquiet,
          List.append_nil, htext, hmore]
        exact (List.append_nil _).symm
      have hcases := advance_cases w e idx slot run
      rw [hadvance] at hcases
      have hkept : ∀ {run₁ : Run Λ σ} {sends : Nat} {D : List LogEntry},
          e' = e.kept idx slot run₁ sends D →
          run' = run₁ := by
        intro run₁ sends D heq
        rw [heq, kept, runAt_turned_self hs] at hrun
        exact (Option.some.inj hrun).symm
      cases hcases with
      | spent hspent =>
          have hsame : run' = run :=
            Option.some.inj
            (hrun.symm.trans (runAt_eq_some.mpr ⟨slot, hs, hr⟩))
          rw [taken_spent hspent, List.append_nil]
          rw [← hsame] at hsent
          exact hends hsent (List.append_nil _).symm (List.append_nil _)
      | refused msg s hspent hsample =>
          rw [taken_sampled hspent, hsample]
          simp only [List.append_nil]
          have hsame := hkept rfl
          exact hends (hsent.idle (by rw [hsame]) (by rw [hsame]))
            rfl (List.append_nil _)
      | eog tok s hspent hsample hstop =>
          rw [taken_sampled hspent, hsample]
          simp only [hstop, if_true, List.append_nil]
          have hsame := hkept rfl
          exact hends (hsent.idle (by rw [hsame]) (by rw [hsame]))
            rfl (List.append_nil _)
      | stopString tok s run₁ _ _ _ _ hmatch =>
          rw [← hkept rfl, hnone] at hmatch
          cases hmatch
      | last tok s run₁ hspent hsample hstop hrun₁ _ _ =>
          rw [taken_sampled hspent, hsample]
          simp only [hstop, Bool.false_eq_true, if_false]
          rw [List.map_append, List.map_singleton]
          have hid₁ : run₁.id = job.id := by
            rw [← hid, hrun₁]
            rfl
          have hsame := hkept rfl
          refine hends (hsame ▸ hsent.take hrun₁) rfl ?_
          rw [← hid₁]
          exact congrArg (text ++ ·) (said_showEntries run₁)

-- ============================ spelling

/-- A world whose tokens spell given pieces: the sampler is the token to
give. -/
def spelling (pieces : List (List UInt8)) : World Unit Token where
  sample tok _ _ := (.ok tok, tok)
  decodeBytes tok := pieces.getD tok []
  isStopToken _ := false
  logits _ _ := ()
  noLogits := ()
  track := true
  gathers := false
  prefillBatchOk := true
  kvEnv := .plain
  failure _ := none
  sendOk _ := true

/-- A request without stop strings and without a token limit. -/
def speller : Job Token := ⟨0, [5], ⟨-1, []⟩, 0⟩

/-- The record of a request about to take in `tok`. -/
def spells (run : Run Unit Token) (tok : Token) (pos : Nat) : Run Unit Token :=
  { run with sampler := tok, currentPos := pos }

/-- An engine with one slot of two cells and a record on it. -/
def spellingEngine (run : Run Unit Token) : BatchEngine Unit Token :=
  ⟨blankArena 2, 2, [⟨1, 0, 2, [], some run⟩], 0, 0, 0, 0, []⟩

theorem map_spelling (pieces : List (List UInt8)) :
    (List.range pieces.length).map (spelling pieces).decodeBytes = pieces := by
  apply List.ext_getElem
  · simp
  · intro i _ hi
    simp [spelling, hi]

theorem stepSlot_spelling (pieces : List (List UInt8)) {run : Run Unit Token}
    (hparams : run.params = speller.params) (hpos : run.currentPos = 0) : ∃ e' run',
      (spellingEngine run).stepSlot (spelling pieces) 0 = (true, e')
        ∧ e'.runAt 0 = some run'
        ∧ run'.needsForward = some run.sampler ∧ run'.params = run.params := by
  have hs : (spellingEngine run).slots[0]? = some ⟨1, 0, 2, [], some run⟩ := rfl
  have hbudget : ∀ {r : Run Unit Token}, r.params = run.params →
      Run.budgetDone r = false := by
    intro r hr
    rw [Run.budgetDone, hr, hparams]
    rfl
  obtain ⟨out, hout⟩ : ∃ out,
      out = (spellingEngine run).advance (spelling pieces) 0
      ⟨1, 0, 2, [], some run⟩ run :=
    ⟨_, rfl⟩
  have hcases :=
    advance_cases (spelling pieces) (spellingEngine run) 0
    ⟨1, 0, 2, [], some run⟩ run
  simp only [stepSlot, hs]
  rw [← hout] at hcases ⊢
  cases hcases with
  | spent h =>
      rcases h with h | h
      · rw [hbudget rfl] at h
        cases h
      · rw [hpos] at h
        exact absurd h (Nat.not_succ_le_zero 1)
  | refused msg s _ hsample => cases hsample
  | eog tok s _ _ hstop => cases hstop
  | stopString tok s run' _ _ _ hrun hmatch =>
      rw [hrun] at hmatch
      simp only [Run.commit, hparams, speller] at hmatch
      cases hmatch
  | hungUp tok s run' _ _ _ _ _ _ hsend => cases hsend
  | last tok s run' _ _ _ hrun _ hlast =>
      rcases hlast with h | h
      · rw [hbudget (by rw [hrun]; rfl)] at h
        cases h
      · have hzero : (Run.shown run').currentPos = 0 := by
          rw [hrun]
          exact hpos
        rw [hzero] at h
        exact absurd h (Nat.not_succ_le_self 1)
  | committed tok s run' _ hsample _ hrun _ _ =>
      cases hsample
      refine ⟨_, _, rfl, runAt_turned_self hs .., rfl, ?_⟩
      rw [hrun]
      rfl

theorem decoding_spelling (pieces : List (List UInt8)) (n : Nat) : ∃ run text,
    Decoding (spelling pieces) (fun _ => True) 0 speller (List.range n) run text
      ∧ run.params = speller.params := by
  induction n with
  | zero =>
      exact ⟨⟨0, speller.params, 0, [], [], 0, 0, 0, (), none, 0, []⟩, [],
        .admitted rfl rfl rfl rfl, rfl⟩
  | succ n ih =>
      obtain ⟨run, text, hd, hparams⟩ := ih
      have hidle : Decoding (spelling pieces) (fun _ => True) 0 speller
          (List.range n) (spells run n 0) text :=
        hd.idle rfl rfl rfl rfl
      have hparams₀ : (spells run n 0).params = speller.params := hparams
      obtain ⟨e', run', hstep, hrun, htok, hparams'⟩ :=
        stepSlot_spelling pieces hparams₀ rfl
      rw [List.range_succ]
      exact ⟨run', _, .turn hidle trivial rfl rfl hstep hrun htok,
        hparams'.trans hparams⟩

/-- Any pieces are the tokens of some request. -/
theorem finished_spelling (pieces : List (List UInt8)) :
    Finished (spelling pieces) 0 speller (List.range pieces.length)
      (streamed [] pieces) := by
  obtain ⟨run, text, hd, hparams⟩ := decoding_spelling pieces pieces.length
  have hidle : Decoding (spelling pieces) (fun _ => True) 0 speller
      (List.range pieces.length)
      (spells run 0 2) text := hd.idle rfl rfl rfl rfl
  have hspent :
      Spent (⟨1, 0, 2, [], some (spells run 0 2)⟩ : SlotState Unit Token)
      (spells run 0 2) :=
    .inr (Nat.le_refl _)
  have hadvance : (spellingEngine (spells run 0 2)).advance (spelling pieces) 0
      ⟨1, 0, 2, [], some (spells run 0 2)⟩ (spells run 0 2)
      = (.ok (.finish .length), spellingEngine (spells run 0 2)) := by
    have hb : Run.budgetDone (spells run 0 2) = false := by
      rw [Run.budgetDone, show (spells run 0 2).params = speller.params from hparams]
      rfl
    unfold advance
    rw [hb, if_neg Bool.false_ne_true,
      if_pos (show (spells run 0 2).currentPos ≥ 2 from Nat.le_refl 2)]
  have hdone := Finished.finished hidle rfl rfl hadvance rfl (by
    rw [show (spells run 0 2).params = speller.params from hparams]
    rfl)
  rw [taken_spent hspent, List.append_nil] at hdone
  have htext := hdone.streamed
  rw [map_spelling] at htext
  rwa [htext] at hdone

-- =================== the engine's text

/-- The client reads the text of the bytes, however they come in tokens,
exactly when no unit cuts a character. -/
theorem streamed_text_exact_iff (bytes : List UInt8) :
    (∀ (Λ σ : Type) (w : World Λ σ) (idx : Nat) (job : Job σ)
      (toks : List Token) (text : List Char),
      Finished w idx job toks text → toks.flatMap w.decodeBytes = bytes →
        Delivers bytes text)
      ↔ Aligned bytes := by
  rw [← streamed_delivers_iff]
  constructor
  · rintro h pieces rfl
    exact h _ _ _ _ _ _ _ (finished_spelling pieces)
      (by rw [List.flatMap_def, map_spelling])
  · rintro h Λ σ w idx job toks text hdone rfl
    rw [hdone.streamed]
    exact h _ List.flatMap_def.symm

/-- The euro sign after a sequence that broke off is cut by the units: as two
tokens its bytes are replaced, as one they are read. -/
theorem euro_cut_by_units :
    Finished (spelling [[0xE2, 0x41, 0xE2], [0x82, 0xAC]]) 0 speller [0, 1]
        [Lib.replacement, 'A', Lib.replacement, Lib.replacement, Lib.replacement]
      ∧ Finished (spelling [[0xE2, 0x41, 0xE2, 0x82, 0xAC]]) 0 speller [0]
        [Lib.replacement, 'A', '€']
      ∧ ¬ Delivers [0xE2, 0x41, 0xE2, 0x82, 0xAC]
        [Lib.replacement, 'A', Lib.replacement, Lib.replacement,
          Lib.replacement] := by
  have htwo : streamed [] [[0xE2, 0x41, 0xE2], [0x82, 0xAC]]
      = [Lib.replacement, 'A', Lib.replacement, Lib.replacement,
        Lib.replacement] := by decide +kernel
  have hone : streamed [] [[0xE2, 0x41, 0xE2, 0x82, 0xAC]]
      = [Lib.replacement, 'A', '€'] := by
    decide +kernel
  refine ⟨htwo ▸ finished_spelling _, hone ▸ finished_spelling _, ?_⟩
  rintro ⟨whole, htext, hwhole⟩
  have hpre : whole <+: [0xE2, 0x41, 0xE2, 0x82, 0xAC] := by
    rcases hwhole with ⟨rfl, -⟩ | ⟨part, -, heq⟩
    · exact List.prefix_rfl
    · exact ⟨part, heq.symm⟩
  have hnone : ∀ n ≤ 5, fromUtf8Lossy ([0xE2, 0x41, 0xE2, 0x82, 0xAC].take n)
      ≠ [Lib.replacement, 'A', Lib.replacement, Lib.replacement,
        Lib.replacement] := by decide +kernel
  rw [List.prefix_iff_eq_take.mp hpre] at htext
  exact hnone _ hpre.length_le htext.symm

end Minfer.Server
