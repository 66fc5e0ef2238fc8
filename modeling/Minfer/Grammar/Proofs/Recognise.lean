/-
The automaton over bytes.

The decoder says of the bytes from a place on that they start with a
character's encoding, that they are a part of one, or that they are neither
(`decodeAt_cases`); the three exclude each other and what they say goes over to
longer byte strings. So consuming a byte string is stepping through the text it
encodes, cutting it anywhere changes nothing (`consumeLoop_append`), and the
engine recognises the grammar's texts (`recognises`).
-/
import Minfer.Grammar.Proofs.Depth
import Minfer.Grammar.Proofs.Partial

namespace Minfer.Gbnf

open Minfer.Lib
open Minfer.Tokenize (Text)

-- ============================ decoding

/-- The bytes start with a character's encoding. -/
def Starts (bytes : List UInt8) (c : Char) : Prop := String.utf8EncodeChar c <+: bytes

variable {c : Char} {bytes : List UInt8}

/-- No encoding starts another. -/
theorem eq_of_startsWith {c' : Char}
    (h : String.utf8EncodeChar c <+: String.utf8EncodeChar c') :
    c = c' := by
  have hlist : utf8Encode [c] <+: utf8Encode [c'] := by
    simpa [utf8Encode] using h
  have hstart := prefix_of_utf8Encode_prefix hlist
  exact (List.cons_prefix_cons.1 hstart).1

theorem Starts.not_begins {c' : Char} (h : Starts bytes c) :
    ¬ Begins bytes c' := by
  rintro ⟨hstart, hne⟩
  have hc := eq_of_startsWith (h.trans hstart)
  rw [← hc] at hstart hne
  exact hne (hstart.eq_of_length_le h.length_le)

/-- Bytes that start with a character, cut somewhere. -/
theorem Starts.cut {more : List UInt8} (h : Starts (bytes ++ more) c) :
    Starts bytes c ∨ Begins bytes c := by
  rcases Nat.lt_or_ge bytes.length (String.utf8EncodeChar c).length with hlt | hge
  · refine .inr
      ⟨List.prefix_of_prefix_length_le
        (List.prefix_append bytes more) h hlt.le, ?_⟩
    rintro rfl
    exact Nat.lt_irrefl _ hlt
  · exact .inl (List.prefix_of_prefix_length_le h (List.prefix_append bytes more) hge)

theorem Begins.cut {more : List UInt8} (h : Begins (bytes ++ more) c) :
    Begins bytes c := by
  obtain ⟨hstart, hne⟩ := h
  have hbytes := (List.prefix_append bytes more).trans hstart
  refine ⟨hbytes, fun heq => hne (hstart.eq_of_length_le ?_)⟩
  rw [← heq, List.length_append]
  omega

/-- The bytes of a character, as numbers. -/
theorem encode_bytes (c : Char) :
    (c.toNat ≤ 0x7F ∧ ∃ b, String.utf8EncodeChar c = [b] ∧ b.toNat = c.toNat)
    ∨ ((0x7F < c.toNat ∧ c.toNat ≤ 0x7FF) ∧ ∃ b d, String.utf8EncodeChar c = [b, d]
      ∧ b.toNat = c.toNat / 64 + 192 ∧ d.toNat = c.toNat % 64 + 128)
    ∨ ((0x7FF < c.toNat ∧ c.toNat ≤ 0xFFFF)
      ∧ ∃ b d e, String.utf8EncodeChar c = [b, d, e]
      ∧ b.toNat = c.toNat / 4096 + 224 ∧ d.toNat = c.toNat / 64 % 64 + 128
      ∧ e.toNat = c.toNat % 64 + 128)
    ∨ ((0xFFFF < c.toNat ∧ c.toNat < 0x110000)
      ∧ ∃ b d e f, String.utf8EncodeChar c = [b, d, e, f]
      ∧ b.toNat = c.toNat / 262144 + 240 ∧ d.toNat = c.toNat / 4096 % 64 + 128
      ∧ e.toNat = c.toNat / 64 % 64 + 128 ∧ f.toNat = c.toNat % 64 + 128) := by
  rcases encode_cases c with ⟨h, henc⟩ | ⟨h, henc⟩ | ⟨h, henc⟩ | ⟨h, henc⟩
  · refine .inl ⟨h, _, henc, ?_⟩
    rw [toNat_byte (by omega)]
  · refine .inr (.inl ⟨h, _, _, henc, ?_, ?_⟩)
    all_goals
      rw [toNat_byte (by omega)]
    omega
  · refine .inr (.inr (.inl ⟨h, _, _, _, henc, ?_, ?_, ?_⟩))
    all_goals
      rw [toNat_byte (by omega)]
    omega
  · refine .inr (.inr (.inr ⟨h, _, _, _, _, henc, ?_, ?_, ?_, ?_⟩))
    all_goals
      rw [toNat_byte (by omega)]
    omega

/-- The decoder, by the numbers of the bytes. -/
theorem decodeAt_eq (b : UInt8) (rest : List UInt8) : decodeAt (b :: rest) =
    if b.toNat < 128 then .cp b.toNat 1
    else if 194 ≤ b.toNat ∧ b.toNat ≤ 223 then
      match rest with
      | [] => .incomplete
      | c :: _ =>
          if 128 ≤ c.toNat ∧ c.toNat ≤ 191
            then .cp (b.toNat % 32 * 64 + c.toNat % 64) 2
          else .invalid
    else if 224 ≤ b.toNat ∧ b.toNat ≤ 239 then
      match rest with
      | [] => .incomplete
      | [c] => if second3 b c then .incomplete else .invalid
      | c :: d :: _ =>
          if second3 b c && isCont d then
            .cp (b.toNat % 16 * 4096 + c.toNat % 64 * 64 + d.toNat % 64) 3
          else .invalid
    else if 240 ≤ b.toNat ∧ b.toNat ≤ 244 then
      match rest with
      | [] => .incomplete
      | [c] => if second4 b c then .incomplete else .invalid
      | [c, d] => if second4 b c && isCont d then .incomplete else .invalid
      | c :: d :: e :: _ =>
          if second4 b c && isCont d && isCont e then
            .cp (b.toNat % 8 * 262144 + c.toNat % 64 * 4096 + d.toNat % 64 * 64
              + e.toNat % 64) 4
          else .invalid
    else .invalid := by
  unfold decodeAt
  simp only [byteIn, UInt8.lt_iff_toNat_lt, UInt8.le_iff_toNat_le,
    UInt8.reduceToNat, Bool.and_eq_true, decide_eq_true_eq, isCont_iff]
  rfl

theorem decodeAt_encode (c : Char) (rest : List UInt8) :
    decodeAt (String.utf8EncodeChar c ++ rest)
      = .cp c.toNat (String.utf8EncodeChar c).length := by
  have hvalid := toNat_valid c
  rcases encode_bytes c with ⟨h, b, henc, hb⟩ | ⟨h, b, d, henc, hb, hd⟩
    | ⟨h, b, d, e, henc, hb, hd, he⟩ |
    ⟨h, b, d, e, f, henc, hb, hd, he, hf⟩
  · rw [henc, List.cons_append, decodeAt_eq, if_pos (by omega), hb]
    rfl
  · rw [henc, List.cons_append, decodeAt_eq, if_neg (by omega), if_pos (by omega)]
    simp only [List.cons_append]
    rw [if_pos (by omega)]
    exact congrArg₂ Utf8Step.cp (by omega) rfl
  · have hcond : (second3 b d && isCont e) = true := by
      simp only [Bool.and_eq_true, second3_iff, isCont_iff]
      omega
    rw [henc, List.cons_append, decodeAt_eq, if_neg (by omega),
      if_neg (by omega), if_pos (by omega)]
    simp only [List.cons_append]
    rw [if_pos hcond]
    exact congrArg₂ Utf8Step.cp (by omega) rfl
  · have hcond : (second4 b d && isCont e && isCont f) = true := by
      simp only [Bool.and_eq_true, second4_iff, isCont_iff]
      omega
    rw [henc, List.cons_append, decodeAt_eq, if_neg (by omega),
      if_neg (by omega), if_neg (by omega),
      if_pos (by omega)]
    simp only [List.cons_append]
    rw [if_pos hcond]
    exact congrArg₂ Utf8Step.cp (by omega) rfl

theorem decodeAt_begins (hne : bytes ≠ []) (h : Begins bytes c) :
    decodeAt bytes = .incomplete := by
  have hvalid := toNat_valid c
  match bytes with
  | [b] =>
      rw [begins_one] at h
      rw [decodeAt_eq, if_neg (by split_ifs at h <;> omega)]
      split_ifs at h
      · rw [if_pos (by omega)]
      · rw [if_neg (by omega), if_pos (by omega)]
      · rw [if_neg (by omega), if_neg (by omega), if_pos (by omega)]
  | [b, d] =>
      rw [begins_two] at h
      rw [decodeAt_eq, if_neg (by omega), if_neg (by omega)]
      rcases h with h | h
      · rw [if_pos (by omega)]
        simp only
        rw [if_pos (second3_iff.2 (by omega))]
      · rw [if_neg (by omega), if_pos (by omega)]
        simp only
        rw [if_pos (second4_iff.2 (by omega))]
  | [b, d, e] =>
      rw [begins_three] at h
      have hcond : (second4 b d && isCont e) = true := by
        simp only [Bool.and_eq_true, second4_iff, isCont_iff]
        omega
      rw [decodeAt_eq, if_neg (by omega), if_neg (by omega), if_neg (by omega),
        if_pos (by omega)]
      simp only
      rw [if_pos hcond]
  | b :: d :: e :: f :: rest => exact absurd h not_begins_four

theorem decodeAt_cp {v len : Nat} (h : decodeAt bytes = .cp v len) :
    ∃ c : Char, c.toNat = v ∧ (String.utf8EncodeChar c).length = len
      ∧ Starts bytes c := by
  -- the bytes of the character with that number are the bytes that were read
  have hread {b : UInt8} (read : List UInt8) {rest : List UInt8} {v : Nat}
      (hv : v < 0xD800 ∨ 0xDFFF < v ∧ v < 0x110000)
      (henc : String.utf8EncodeChar (Char.ofNat v) = b :: read) :
      ∃ c : Char, c.toNat = v ∧ (String.utf8EncodeChar c).length = (b :: read).length
        ∧ Starts (b :: (read ++ rest)) c :=
    ⟨Char.ofNat v, val_ofNat hv, by rw [henc], by
      rw [Starts, henc]
      exact ⟨rest, rfl⟩⟩
  match bytes with
  | [] => cases h
  | b :: rest =>
      have hb := b.toNat_lt
      rw [decodeAt_eq] at h
      split at h
      next h1 =>
        cases h
        refine hread [] (by omega) ?_
        rw [encodeChar_ofNat (by omega), if_pos (by omega), byte_eq rfl]
      next h1 =>
      split at h
      next h2 =>
        split at h
        · cases h
        next d tail =>
          split at h
          next hd =>
            cases h
            refine hread [d] (by omega) ?_
            rw [encodeChar_ofNat (by omega), if_neg (by omega), if_pos (by omega),
              byte_eq (b := b) (by omega), byte_eq (b := d) (by omega)]
          · cases h
      next h2 =>
      split at h
      next h3 =>
        split at h
        · cases h
        · split at h <;> cases h
        next d e tail =>
          split at h
          next hcond =>
            simp only [Bool.and_eq_true, second3_iff, isCont_iff] at hcond
            cases h
            refine hread [d, e] (by omega) ?_
            rw [encodeChar_ofNat (by omega), if_neg (by omega),
              if_neg (by omega), if_pos (by omega),
              byte_eq (b := b) (by omega), byte_eq (b := d) (by omega),
                byte_eq (b := e) (by omega)]
          · cases h
      next h3 =>
      split at h
      next h4 =>
        split at h
        · cases h
        · split at h <;> cases h
        · split at h <;> cases h
        next d e f tail =>
          split at h
          next hcond =>
            simp only [Bool.and_eq_true, second4_iff, isCont_iff] at hcond
            cases h
            refine hread [d, e, f] (by omega) ?_
            rw [encodeChar_ofNat (by omega), if_neg (by omega),
              if_neg (by omega), if_neg (by omega),
              byte_eq (b := b) (by omega), byte_eq (b := d) (by omega),
                byte_eq (b := e) (by omega),
              byte_eq (b := f) (by omega)]
          · cases h
      · cases h

theorem decodeAt_incomplete (h : decodeAt bytes = .incomplete) :
    ∃ c : Char, Begins bytes c := by
  have hsome : ∃ lo hi, completionRange bytes = some (lo, hi) := by
    match bytes with
    | [] => cases h
    | b :: rest =>
        rw [decodeAt_eq] at h
        split at h
        · cases h
        next h1 =>
        split at h
        next h2 =>
          split at h
          · rw [completion_one, if_pos h2]
            exact ⟨_, _, rfl⟩
          · split at h <;> cases h
        next h2 =>
        split at h
        next h3 =>
          split at h
          · rw [completion_one, if_neg h2, if_pos h3]
            exact ⟨_, _, rfl⟩
          next d =>
            split at h
            next hd =>
              rw [second3_iff] at hd
              rw [completion_two, if_pos h3, if_pos (by split_ifs <;> omega)]
              exact ⟨_, _, rfl⟩
            · cases h
          · split at h <;> cases h
        next h3 =>
        split at h
        next h4 =>
          split at h
          · rw [completion_one, if_neg h2, if_neg h3, if_pos h4]
            exact ⟨_, _, rfl⟩
          next d =>
            split at h
            next hd =>
              rw [second4_iff] at hd
              rw [completion_two, if_neg h3, if_pos h4,
                if_pos (by split_ifs <;> omega)]
              exact ⟨_, _, rfl⟩
            · cases h
          next d e =>
            split at h
            next hcond =>
              simp only [Bool.and_eq_true, second4_iff, isCont_iff] at hcond
              rw [completion_three, if_pos h4, if_pos (by split_ifs <;> omega),
                if_pos hcond.2]
              exact ⟨_, _, rfl⟩
            · cases h
          · split at h <;> cases h
        · cases h
  obtain ⟨lo, hi, hrange⟩ := hsome
  have henc := encoded_completion hrange
  have hval : (Char.ofNat lo).toNat = lo :=
    val_ofNat (by have := henc.le; have := henc.lt; have := henc.apart; omega)
  have hne : bytes ≠ [] := by
    rintro rfl
    cases h
  refine ⟨Char.ofNat lo, (within_iff hne).1 ?_⟩
  rw [hrange, hval]
  exact ⟨Nat.le_refl lo, henc.le⟩

/-- What the decoder says of bytes, and when. -/
inductive Decoded (bytes : List UInt8) : Utf8Step → Prop where
  | cp (c : Char) (h : Starts bytes c) :
      Decoded bytes (.cp c.toNat (String.utf8EncodeChar c).length)
  | incomplete (c : Char) (h : Begins bytes c) : Decoded bytes .incomplete
  | invalid (h : ∀ c, ¬ Starts bytes c ∧ ¬ Begins bytes c) : Decoded bytes .invalid

theorem decodeAt_of_starts (h : Starts bytes c) :
    decodeAt bytes = .cp c.toNat (String.utf8EncodeChar c).length := by
  obtain ⟨rest, rfl⟩ := h
  exact decodeAt_encode c rest

theorem decodeAt_cases (hne : bytes ≠ []) :
    Decoded bytes (decodeAt bytes) := by
  cases hdecode : decodeAt bytes with
  | cp v len =>
      obtain ⟨c, rfl, rfl, hstarts⟩ := decodeAt_cp hdecode
      exact .cp c hstarts
  | incomplete =>
      obtain ⟨c, hc⟩ := decodeAt_incomplete hdecode
      exact .incomplete c hc
  | invalid =>
      refine .invalid fun c => ⟨fun hc => ?_, fun hc => ?_⟩
      · rw [decodeAt_of_starts hc] at hdecode
        cases hdecode
      · rw [decodeAt_begins hne hc] at hdecode
        cases hdecode

-- =========================== consuming

section Consume

variable {rules : Rules}

theorem notSurrogate (c : Char) : isSurrogate c.toNat = false := by
  have hvalid := toNat_valid c
  simp only [isSurrogate, Bool.and_eq_false_iff, decide_eq_false_iff_not]
  omega

theorem encode_pos (c : Char) : 0 < (String.utf8EncodeChar c).length := by
  simp [c.utf8Size_pos]

/-- The loop, with as much fuel as there are bytes. -/
def consumeBytes (rules : Rules) (live : List Stack) (i : Nat) (bytes : List UInt8) :
    Except (Nat × Reason) (List Stack × List UInt8) :=
  consumeLoop rules bytes.length live i bytes

variable {bytes : List UInt8} {i : Nat} {live : List Stack}
  {out : List Stack × List UInt8}

theorem consumeLoop_fuel {fuel : Nat}
    (hfuel : bytes.length ≤ fuel) (live : List Stack) (i : Nat) :
    consumeLoop rules fuel live i bytes = consumeBytes rules live i bytes := by
  unfold consumeBytes
  induction hn :
      bytes.length using Nat.strongRecOn generalizing bytes fuel live i with
  | ind n ih =>
      match bytes, fuel with
      | [], _ =>
          subst hn
          simp [consumeLoop]
      | b :: rest, fuel + 1 =>
          subst hn
          rw [List.length_cons, consumeLoop, consumeLoop]
          cases hdecode : decodeAt (b :: rest) with
          | invalid => rfl
          | incomplete => rfl
          | cp c len =>
              have hlen := pos_decodeAt hdecode
              have hlt : ((b :: rest).drop len).length < (b :: rest).length := by
                simp only [List.length_drop, List.length_cons]
                omega
              simp only
              split
              · rfl
              · cases step rules live c with
                | error e => rfl
                | ok next =>
                    simp only
                    have hle : ((b :: rest).drop len).length ≤ rest.length := by
                      simp only [List.length_cons] at hlt
                      omega
                    rw [ih _ hlt (Nat.le_trans hle (by simpa using hfuel))
                      next (i + len) rfl,
                      ih _ hlt hle next (i + len) rfl]

/-- One round of the loop. -/
theorem consumeBytes_cons (live : List Stack) (i : Nat) (b : UInt8)
    (rest : List UInt8) :
    consumeBytes rules live i (b :: rest) =
      match decodeAt (b :: rest) with
      | .cp c len =>
          if isSurrogate c then .error (i, .surrogate c)
          else
            match step rules live c with
            | .error e => .error (i, .step e)
            | .ok live => consumeBytes rules live (i + len) ((b :: rest).drop len)
      | .incomplete =>
          if partialCanComplete rules live (b :: rest) then .ok (live, b :: rest)
          else .error (i, .cannotComplete (b :: rest))
      | .invalid => .error (i, .invalid b) := by
  rw [consumeBytes, List.length_cons, consumeLoop]
  cases hdecode : decodeAt (b :: rest) with
  | invalid => rfl
  | incomplete => rfl
  | cp c len =>
      have hlen := pos_decodeAt hdecode
      simp only
      split
      · rfl
      · cases step rules live c with
        | error e => rfl
        | ok next =>
            apply consumeLoop_fuel
            simp only [List.length_drop, List.length_cons]
            omega

/-- A character's encoding is read by one step. -/
theorem consumeBytes_char (live : List Stack) (i : Nat) (c : Char)
    (rest : List UInt8) :
    consumeBytes rules live i (String.utf8EncodeChar c ++ rest) =
      match step rules live c.toNat with
      | .error e => .error (i, .step e)
      | .ok live =>
          consumeBytes rules live (i + (String.utf8EncodeChar c).length)
            rest := by
  obtain ⟨b, tail, hcons⟩ : ∃ b tail, String.utf8EncodeChar c = b :: tail :=
    List.exists_cons_of_length_pos (encode_pos c)
  have hdecode := decodeAt_encode c rest
  have hdrop : (String.utf8EncodeChar c ++ rest).drop
      (String.utf8EncodeChar c).length = rest :=
    List.drop_left
  rw [hcons] at hdecode hdrop ⊢
  rw [List.cons_append] at hdecode hdrop ⊢
  rw [consumeBytes_cons, hdecode]
  simp only [notSurrogate, Bool.false_eq_true, if_false, hdrop]

/-- The text that is consumed is stepped through. -/
theorem consumeBytes_text {live' : List Stack}
    {text : List Char} (h : run rules live (text.map Char.toNat) = .ok live') :
    consumeBytes rules live i (utf8Encode text) = .ok (live', []) := by
  induction text generalizing live i with
  | nil =>
      cases h
      rfl
  | cons c text ih =>
      rw [List.map_cons, run, List.foldlM_cons] at h
      obtain ⟨next, hstep, hrun⟩ := bind_eq_ok.1 h
      rw [utf8Encode_cons, consumeBytes_char, hstep]
      exact ih hrun

theorem consumeBytes_text_error {text : List Char} {e : StepError}
    (h : run rules live (text.map Char.toNat) = .error e) :
    ∃ j, consumeBytes rules live i (utf8Encode text) = .error (j, .step e) := by
  induction text generalizing live i with
  | nil => cases h
  | cons c text ih =>
      rw [List.map_cons, run, List.foldlM_cons] at h
      rw [utf8Encode_cons, consumeBytes_char]
      cases hstep : step rules live c.toNat with
      | error e' =>
          rw [hstep] at h
          cases h
          exact ⟨i, rfl⟩
      | ok next =>
          rw [hstep] at h
          exact ih h

/-- Bytes that are consumed with nothing left are a text's. -/
theorem text_of_consumeBytes {live' : List Stack}
    (h : consumeBytes rules live i bytes = .ok (live', [])) :
    ∃ text, bytes = utf8Encode text
      ∧ run rules live (text.map Char.toNat) = .ok live' := by
  induction hn : bytes.length using Nat.strongRecOn generalizing bytes live i with
  | ind n ih =>
      match bytes with
      | [] =>
          cases h
          exact ⟨[], rfl, rfl⟩
      | b :: rest =>
          cases hdecode : decodeAt (b :: rest) with
          | invalid =>
              rw [consumeBytes_cons, hdecode] at h
              cases h
          | incomplete =>
              rw [consumeBytes_cons, hdecode] at h
              simp only at h
              split at h <;> cases h
          | cp v len =>
              obtain ⟨c, -, -, tail, htail⟩ := decodeAt_cp hdecode
              rw [← htail, consumeBytes_char] at h
              cases hstep : step rules live c.toNat with
              | error e =>
                  rw [hstep] at h
                  cases h
              | ok next =>
                  rw [hstep] at h
                  have hlt : tail.length < n := by
                    rw [← hn, ← htail, List.length_append]
                    have := encode_pos c
                    omega
                  obtain ⟨text, rfl, hrun⟩ := ih _ hlt h rfl
                  refine ⟨c :: text, htail.symm, ?_⟩
                  rw [List.map_cons, run, List.foldlM_cons, hstep]
                  exact hrun

-- ============================= cutting

/-- A step that is taken was for a stack that reads the codepoint. -/
theorem consumes_of_step {live' : List Stack} {c : Nat}
    (h : step rules live c = .ok live') :
    ∃ st ∈ live, (instAt rules st.top).consumes c = true := by
  by_cases hnone : live.filter (fun st => (instAt rules st.top).consumes c) = []
  · rw [step, hnone] at h
    cases h
  · obtain ⟨st, hst⟩ := List.exists_mem_of_ne_nil _ hnone
    exact ⟨st, (List.mem_filter.1 hst).1, (List.mem_filter.1 hst).2⟩

/-- Where the bytes stand does not matter while they are accepted. -/
theorem consumeBytes_index {j : Nat}
    (h : consumeBytes rules live i bytes = .ok out) :
    consumeBytes rules live j bytes = .ok out := by
  induction hn : bytes.length using Nat.strongRecOn generalizing bytes live i j with
  | ind n ih =>
      match bytes with
      | [] => exact h
      | b :: rest =>
          rw [consumeBytes_cons] at h ⊢
          cases hdecode : decodeAt (b :: rest) with
          | invalid =>
              rw [hdecode] at h
              cases h
          | incomplete =>
              rw [hdecode] at h
              simp only at h ⊢
              split at h
              next hcan =>
                rw [if_pos hcan]
                exact h
              · cases h
          | cp c len =>
              have hlen := pos_decodeAt hdecode
              rw [hdecode] at h
              simp only at h ⊢
              split at h
              · cases h
              next hsurrogate =>
                rw [if_neg hsurrogate]
                cases hstep : step rules live c with
                | error e =>
                    rw [hstep] at h
                    cases h
                | ok next =>
                    rw [hstep] at h
                    refine ih _ ?_ h rfl
                    rw [← hn, List.length_drop, List.length_cons]
                    omega

theorem consumeBytes_incomplete (hne : bytes ≠ [])
    (h : decodeAt bytes = .incomplete) : consumeBytes rules live i bytes =
      if partialCanComplete rules live bytes then .ok (live, bytes)
      else .error (i, .cannotComplete bytes) := by
  match bytes with
  | [] => exact absurd rfl hne
  | b :: rest => rw [consumeBytes_cons, h]

theorem consumeBytes_invalid (hne : bytes ≠ [])
    (h : decodeAt bytes = .invalid) :
    consumeBytes rules live i bytes ≠ .ok out := by
  match bytes with
  | [] => exact absurd rfl hne
  | b :: rest =>
      rw [consumeBytes_cons, h]
      simp

/-- A cut inside a character is no obstacle: the part can be completed, as the
rest of the bytes shows. -/
theorem completable_of_consumed (hordered : ∀ f, (instAt rules f).Ordered)
    {a b : List UInt8} (ha : a ≠ []) (hpart : decodeAt a = .incomplete)
    (h : consumeBytes rules live i (a ++ b) = .ok out) :
    partialCanComplete rules live a = true := by
  rw [partialCanComplete_iff hordered live ha]
  obtain ⟨c₀, hc₀⟩ := decodeAt_incomplete hpart
  have hne : a ++ b ≠ [] := by simp [ha]
  cases hdecode : decodeAt (a ++ b) with
  | invalid => exact absurd h (consumeBytes_invalid hne hdecode)
  | incomplete =>
      rw [consumeBytes_incomplete hne hdecode] at h
      split at h
      next hcan =>
        obtain ⟨c, hc, hst⟩ := (partialCanComplete_iff hordered live hne).1 hcan
        exact ⟨c, hc.cut, hst⟩
      · cases h
  | cp v len =>
      obtain ⟨c, -, -, hc⟩ := decodeAt_cp hdecode
      have hbegins : Begins a c :=
        hc.cut.resolve_left fun hstarts => hstarts.not_begins hc₀
      obtain ⟨tail, htail⟩ := hc
      rw [← htail, consumeBytes_char] at h
      cases hstep : step rules live c.toNat with
      | error e =>
          rw [hstep] at h
          cases h
      | ok next => exact ⟨c, hbegins, consumes_of_step hstep⟩

/-- Bytes that are consumed, cut in two. -/
theorem consumeBytes_append (hordered : ∀ f, (instAt rules f).Ordered)
    {j : Nat} {a b : List UInt8} :
    consumeBytes rules live i (a ++ b) = .ok out ↔ ∃ mid pending,
      consumeBytes rules live i a = .ok (mid, pending)
      ∧ consumeBytes rules mid j (pending ++ b) = .ok out := by
  induction hn : a.length using Nat.strongRecOn generalizing a live i with
  | ind n ih =>
      by_cases ha : a = []
      · subst ha
        constructor
        · exact fun h => ⟨live, [], rfl, consumeBytes_index h⟩
        · rintro ⟨mid, pending, h, h'⟩
          cases h
          exact consumeBytes_index h'
      cases hdecode : decodeAt a with
      | cp v len =>
          obtain ⟨c, -, -, tail, rfl⟩ := decodeAt_cp hdecode
          rw [List.append_assoc, consumeBytes_char, consumeBytes_char]
          cases step rules live c.toNat with
          | error e => simp
          | ok next =>
              refine ih _ ?_ rfl
              rw [← hn, List.length_append]
              have := encode_pos c
              omega
      | incomplete =>
          rw [consumeBytes_incomplete ha hdecode]
          constructor
          · intro h
            rw [if_pos (completable_of_consumed hordered ha hdecode h)]
            exact ⟨live, a, rfl, consumeBytes_index h⟩
          · rintro ⟨mid, pending, h, h'⟩
            split at h
            · cases h
              exact consumeBytes_index h'
            · cases h
      | invalid =>
          have hcases := decodeAt_cases ha
          rw [hdecode] at hcases
          cases hcases with
          | invalid hnone =>
              have hne : a ++ b ≠ [] := by simp [ha]
              constructor
              · intro h
                cases hdecode' : decodeAt (a ++ b) with
                | invalid => exact absurd h (consumeBytes_invalid hne hdecode')
                | incomplete =>
                    obtain ⟨c, hc⟩ := decodeAt_incomplete hdecode'
                    exact absurd hc.cut (hnone c).2
                | cp v len =>
                    obtain ⟨c, -, -, hc⟩ := decodeAt_cp hdecode'
                    rcases hc.cut with hc | hc
                    · exact absurd hc (hnone c).1
                    · exact absurd hc (hnone c).2
              · rintro ⟨mid, pending, h, -⟩
                exact absurd h (consumeBytes_invalid ha hdecode)

-- ============================== pieces

theorem consume_eq_ok {key key' : StateKey} :
    consume rules key bytes = .ok key' ↔ key'.done = key.done
      ∧ consumeBytes rules key.liveStacks 0 (key.part ++ bytes)
        = .ok (key'.liveStacks, key'.part) := by
  unfold consume
  simp only
  rw [← consumeBytes]
  cases hloop : consumeBytes rules key.liveStacks 0 (key.part ++ bytes) with
  | error e => simp
  | ok out =>
      obtain ⟨live, left⟩ := out
      obtain ⟨live', left', done'⟩ := key'
      simp only [Except.ok.injEq, StateKey.mk.injEq, Prod.mk.injEq]
      constructor
      · rintro ⟨rfl, rfl, rfl⟩
        exact ⟨rfl, rfl, rfl⟩
      · rintro ⟨rfl, rfl, rfl⟩
        exact ⟨rfl, rfl, rfl⟩

/-- Piece after piece. -/
def consumeAll (rules : Rules) (key : StateKey) (pieces : List (List UInt8)) :
    Except (Nat × Reason) StateKey :=
  pieces.foldlM (consume rules) key

/-- Pieces are consumed as the bytes they make up. -/
theorem consumeAll_iff (hordered : ∀ f, (instAt rules f).Ordered)
    {key key' : StateKey} {pieces : List (List UInt8)} (hne : pieces ≠ []) :
    consumeAll rules key pieces = .ok key'
      ↔ consume rules key pieces.flatten = .ok key' := by
  induction pieces generalizing key with
  | nil => exact absurd rfl hne
  | cons piece pieces ih =>
      rw [consumeAll, List.foldlM_cons, bind_eq_ok, List.flatten_cons]
      by_cases hpieces : pieces = []
      · subst hpieces
        simp only [List.flatten_nil, List.append_nil, List.foldlM_nil]
        constructor
        · rintro ⟨mid, h, h'⟩
          cases h'
          exact h
        · exact fun h => ⟨key', h, rfl⟩
      · simp only [consumeAll] at ih
        simp only [ih hpieces, consume_eq_ok]
        rw [← List.append_assoc, consumeBytes_append hordered]
        constructor
        · rintro ⟨mid, ⟨hdone, h⟩, hdone', h'⟩
          exact ⟨hdone'.trans hdone, mid.liveStacks, mid.part, h, h'⟩
        · rintro ⟨hdone, live, pending, h, h'⟩
          exact ⟨⟨live, pending, key.done⟩, ⟨rfl, h⟩, hdone, h'⟩

end Consume

-- ========================= recognition

/-- A grammar that is accepted has an initial state. -/
theorem initialKey_of_compileGbnf {fuel : Nat} {source : Text}
    {program : Program} (h : compileGbnf fuel source = .ok program) :
    ∃ live, close program.rules [⟨⟨program.root, 0⟩, []⟩] = .ok live
      ∧ initialKey program.rules program.root = .ok ⟨live, [], false⟩ := by
  have hclosed {names : List Text} {r i : Nat}
      (hcheck : checkClosures program.rules r names = .ok ())
        (hi : i < names.length) :
      ∃ live, close program.rules [⟨⟨r + i, 0⟩, []⟩] = .ok live := by
    induction names generalizing r i with
    | nil => exact absurd hi (Nat.not_lt_zero i)
    | cons name names ih =>
        rw [checkClosures] at hcheck
        cases hclose : close program.rules [⟨⟨r, 0⟩, []⟩] with
        | error e =>
            rw [hclose] at hcheck
            cases hcheck
        | ok live =>
            rw [hclose] at hcheck
            match i with
            | 0 => exact ⟨live, hclose⟩
            | i + 1 =>
                have hrest := ih hcheck (Nat.lt_of_succ_lt_succ hi)
                rwa [Nat.add_assoc, Nat.add_comm 1] at hrest
  obtain ⟨parsed, -, h⟩ := bind_eq_ok.1 h
  simp only at h
  split at h
  · cases h
  next root hroot =>
    obtain ⟨rules, -, h⟩ := bind_eq_ok.1 h
    obtain ⟨⟨⟩, hcheck, h⟩ := bind_eq_ok.1 h
    cases h
    obtain ⟨hlt, -⟩ := List.findIdx?_eq_some_iff_getElem.1 hroot
    obtain ⟨live, hlive⟩ := hclosed hcheck hlt
    rw [Nat.zero_add] at hlive
    refine ⟨live, hlive, ?_⟩
    rw [initialKey, hlive]
    rfl

theorem stateKeyAccepting_iff {rules : Rules} {key : StateKey} :
    stateKeyAccepting rules key = true ↔ key.done = false ∧ key.part = []
      ∧ ∃ st ∈ key.liveStacks, st.Final rules := by
  simp [stateKeyAccepting, Stack.Final, and_assoc]

/-- The engine recognises exactly the grammar's language, in whatever pieces
the bytes come. -/
theorem recognises {fuel : Nat} {source : Text} {program : Program}
    (h : compileGbnf fuel source = .ok program) :
    ∃ grammar key₀, parse fuel source = .ok grammar
      ∧ initialKey program.rules program.root = .ok key₀ ∧ ∀ bytes,
        ((∀ i e, consume program.rules key₀ bytes ≠ .error (i, .step (.close e))) →
          ((∃ key, consume program.rules key₀ bytes = .ok key
              ∧ stateKeyAccepting program.rules key = true)
            ↔ ∃ text ∈ language grammar, bytes = utf8Encode text))
        ∧ ∀ pieces : List (List UInt8), pieces.flatten = bytes → ∀ key,
          consumeAll program.rules key₀ pieces = .ok key
            ↔ consume program.rules key₀ bytes = .ok key := by
  obtain ⟨grammar, hparse, hcompiled, hroot⟩ := compiled_of_compileGbnf h
  obtain ⟨live₀, hclose, hinitial⟩ := initialKey_of_compileGbnf h
  refine ⟨grammar, _, hparse, hinitial, fun bytes => ⟨fun hlimits => ?_, ?_⟩⟩
  · have hlive := live_initial hclose
    constructor
    · rintro ⟨key, hconsume, haccepting⟩
      obtain ⟨-, hconsume⟩ := consume_eq_ok.1 hconsume
      obtain ⟨-, hpart, st, hst, hfinal⟩ := stateKeyAccepting_iff.1 haccepting
      rw [hpart] at hconsume
      obtain ⟨text, rfl, hrun⟩ := text_of_consumeBytes hconsume
      have hword := live_run hlive hrun
      rw [List.nil_append] at hword
      have haccept :=
        (hword.accepts_iff fun _ => flow_of_final program.rules).2
        ⟨st, hst, hfinal⟩
      exact ⟨text, (accepts_iff hcompiled hroot).1 haccept, rfl⟩
    · rintro ⟨text, htext, rfl⟩
      have htext := (accepts_iff hcompiled hroot).2 htext
      cases hrun : run program.rules live₀ (text.map Char.toNat) with
      | ok live =>
          have hword := live_run hlive hrun
          rw [List.nil_append] at hword
          obtain ⟨st, hst, hfinal⟩ :=
            (hword.accepts_iff fun _ => flow_of_final program.rules).1 htext
          refine ⟨⟨live, [], false⟩,
            consume_eq_ok.2 ⟨rfl, consumeBytes_text hrun⟩, ?_⟩
          exact stateKeyAccepting_iff.2 ⟨rfl, rfl, st, hst, hfinal⟩
      | error e =>
          match e with
          | .deadEnd c =>
              have hnot := notMem_of_deadEnd hlive hrun
              rw [List.nil_append] at hnot
              exact absurd htext hnot
          | .close e =>
              -- a limit was hit after all
              obtain ⟨j, hj⟩ := consumeBytes_text_error (i := 0) hrun
              refine absurd ?_ (hlimits j e)
              unfold consume
              simp only [List.nil_append]
              rw [← consumeBytes, hj]
              rfl
  · rintro pieces rfl key
    by_cases hne : pieces = []
    · subst hne
      exact Iff.rfl
    · exact consumeAll_iff (ordered_instAt h) hne

/-- `é` is the text of its grammar: its two bytes are accepted. -/
theorem recognises_accented : ['é'] ∈ language [("root".toList, .str [0xE9])] := by
  obtain ⟨grammar, key₀, hparse, hkey, hall⟩ := recognises accented_compiles
  rw [show parse 20 "root ::= \"é\"".toList = .ok [("root".toList, .str [0xE9])] by
    decide +kernel] at hparse
  rw [show initialKey accented.rules accented.root
      = .ok ⟨[⟨⟨0, 0⟩, []⟩], [], false⟩ by
    decide +kernel] at hkey
  cases hparse
  cases hkey
  have hconsume : consume accented.rules ⟨[⟨⟨0, 0⟩, []⟩], [], false⟩ [0xC3, 0xA9]
      = .ok ⟨[⟨⟨0, 1⟩, []⟩], [], false⟩ := by decide +kernel
  have hlimits : ∀ i e,
      consume accented.rules ⟨[⟨⟨0, 0⟩, []⟩], [], false⟩ [0xC3, 0xA9]
      ≠ .error (i, .step (.close e)) := by simp [hconsume]
  obtain ⟨text, htext, hbytes⟩ :=
    ((hall [0xC3, 0xA9]).1 hlimits).1 ⟨_, hconsume, by decide⟩
  have hdecoded := congrArg fromUtf8Lossy hbytes
  rw [fromUtf8Lossy_utf8Encode, show fromUtf8Lossy [0xC3, 0xA9]
    = ['é'] by decide +kernel] at hdecoded
  rwa [hdecoded]

end Minfer.Gbnf
