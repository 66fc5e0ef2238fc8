/-
A pending partial character (`partial_can_complete`): the bytes it can still
become, as a range of codepoints, and what the stacks make of the range.

The range is right for every lead byte and every number of continuation bytes
(`within_iff`): it holds the characters whose encoding goes on from the bytes,
and no others. It has no surrogate, so it is not cut, and testing an
instruction against it is asking for a codepoint of it (`meets_iff`); for a
negated class that needs the class in order, which the parser sees to.
-/
import Minfer.Grammar.Proofs.Legal
import Minfer.Lib.Lossy

namespace Minfer.Gbnf

open Minfer.Lib
open Minfer.Tokenize (Text)

-- =========================== encodings

/-- A character's encoding starts with these bytes and goes on. -/
def Begins (part : List UInt8) (c : Char) : Prop :=
  part <+: String.utf8EncodeChar c ∧ part ≠ String.utf8EncodeChar c

variable {b : UInt8} {c : Char} {rest : List UInt8} {hi lo len : Nat}

/-- The characters that start with one byte and go on. -/
theorem begins_one : Begins [b] c
    ↔ 0x7F < c.toNat ∧ b.toNat =
    if c.toNat ≤ 0x7FF then c.toNat / 64 + 192
    else if c.toNat ≤ 0xFFFF then c.toNat / 4096 + 224
    else c.toNat / 262144 + 240 := by
  unfold Begins
  rcases encode_cases c with ⟨h, henc⟩ | ⟨h, henc⟩ | ⟨h, henc⟩ | ⟨h, henc⟩
  all_goals
    rw [henc]
    simp (disch := omega) only [ne_eq, List.cons_prefix_cons, List.nil_prefix,
      and_true, List.cons.injEq, eq_ofNat_iff, reduceCtorEq, and_false,
      not_false_eq_true]
    split_ifs
  all_goals omega

variable {d : UInt8} {lead : Nat} {part bytes : List UInt8} {rules : Rules}

/-- The characters that start with two bytes and go on. -/
theorem begins_two : Begins [b, d] c ↔
    (0x7FF < c.toNat ∧ c.toNat ≤ 0xFFFF) ∧ b.toNat = c.toNat / 4096 + 224
      ∧ d.toNat = c.toNat / 64 % 64 + 128
    ∨ 0xFFFF < c.toNat ∧ b.toNat = c.toNat / 262144 + 240
      ∧ d.toNat = c.toNat / 4096 % 64 + 128 := by
  unfold Begins
  rcases encode_cases c with ⟨h, henc⟩ | ⟨h, henc⟩ | ⟨h, henc⟩ | ⟨h, henc⟩
  all_goals
    rw [henc]
    simp (disch := omega) only [ne_eq, List.cons_prefix_cons, List.nil_prefix,
      and_true, List.cons.injEq, eq_ofNat_iff, List.prefix_nil, reduceCtorEq,
      and_false, not_false_eq_true, false_iff]
  all_goals omega

/-- The characters that start with three bytes and go on. -/
theorem begins_three {e : UInt8} : Begins [b, d, e] c ↔
    0xFFFF < c.toNat ∧ b.toNat = c.toNat / 262144 + 240
      ∧ d.toNat = c.toNat / 4096 % 64 + 128
      ∧ e.toNat = c.toNat / 64 % 64 + 128 := by
  unfold Begins
  rcases encode_cases c with ⟨h, henc⟩ | ⟨h, henc⟩ | ⟨h, henc⟩ | ⟨h, henc⟩
  all_goals
    rw [henc]
    simp (disch := omega) only [ne_eq, List.cons_prefix_cons, List.nil_prefix,
      and_true, List.cons.injEq, eq_ofNat_iff, List.prefix_nil, reduceCtorEq,
      and_false, not_false_eq_true, false_iff]
  all_goals omega

/-- No encoding goes on after four bytes. -/
theorem not_begins_four {e f : UInt8} :
    ¬ Begins (b :: d :: e :: f :: rest) c := by
  unfold Begins
  rcases encode_cases c with ⟨h, henc⟩ | ⟨h, henc⟩ | ⟨h, henc⟩ | ⟨h, henc⟩
  all_goals
    rw [henc]
    simp [List.cons_prefix_cons]

-- ========================= completions

/-- What a lead byte says: the length, its own bits, and the bounds of the next
byte. -/
theorem leadInfo_spec (b : UInt8) : leadInfo b =
    if 194 ≤ b.toNat ∧ b.toNat ≤ 223 then some (2, b.toNat - 192, 128, 191)
    else if 224 ≤ b.toNat ∧ b.toNat ≤ 239 then
      some (3, b.toNat - 224, if b.toNat = 224 then 160 else 128,
        if b.toNat = 237 then 159 else 191)
    else if 240 ≤ b.toNat ∧ b.toNat ≤ 244 then
      some (4, b.toNat - 240, if b.toNat = 240 then 144 else 128,
        if b.toNat = 244 then 143 else 191)
    else none := by
  simp only [leadInfo, byteIn, low, ← UInt8.toNat_inj, UInt8.le_iff_toNat_le,
    UInt8.reduceToNat, Bool.and_eq_true, decide_eq_true_eq]
  repeat' split
  all_goals first
    | omega
    | simp only [Option.some.injEq, Prod.mk.injEq, true_and, and_true] <;> omega

/-- The first continuation byte has bounds of its own. -/
theorem continuations_first {value : Nat} {c : UInt8} :
    continuations lo hi true value (c :: rest) =
      if (128 ≤ c.toNat ∧ c.toNat ≤ 191) ∧ lo ≤ c.toNat ∧ c.toNat ≤ hi then
        continuations lo hi false (value * 64 + c.toNat % 64) rest
      else none := by
  rw [continuations]
  simp only [isCont_iff, low, true_and]
  repeat' split
  all_goals first | rfl | omega

/-- The later ones have the common bounds. -/
theorem continuations_next {value : Nat} {c : UInt8} :
    continuations lo hi false value (c :: rest) =
      if 128 ≤ c.toNat ∧ c.toNat ≤ 191 then
        continuations lo hi false (value * 64 + c.toNat % 64) rest
      else none := by
  rw [continuations]
  simp only [isCont_iff, low, Bool.false_eq_true, false_and, if_false]
  repeat' split
  all_goals first | rfl | omega

/-- Bytes that start no encoding have no range. -/
theorem completionRange_none (h : leadInfo b = none) (rest : List UInt8) :
    completionRange (b :: rest) = none := by
  rw [completionRange, h]

/-- Nor has a complete encoding. -/
theorem completionRange_full (h : leadInfo b = some (len, lead, lo, hi))
    (hlen : len ≤ rest.length + 1) :
    completionRange (b :: rest) = none := by
  rw [completionRange, h]
  exact if_pos hlen

/-- The range of a lead byte alone. -/
theorem completionRange_lead
    (h : leadInfo b = some (len, lead, lo, hi)) (hlen : 1 < len) :
    completionRange [b] = some ((lead * 64 + (lo - 128)) * 64 ^ (len - 2),
      (lead * 64 + (hi - 128)) * 64 ^ (len - 2) + (64 ^ (len - 2) - 1)) := by
  rw [completionRange, h]
  exact if_neg (by simpa using hlen)

/-- The range of a lead byte and some of its continuation bytes. -/
theorem completionRange_more {c : UInt8}
    (h : leadInfo b = some (len, lead, lo, hi)) (hlen : rest.length + 2 < len) :
    completionRange (b :: c :: rest)
      = (continuations lo hi true lead (c :: rest)).map fun value =>
      (value * 64 ^ (len - (rest.length + 2)),
        value * 64 ^ (len - (rest.length + 2))
          + (64 ^ (len - (rest.length + 2)) - 1)) := by
  rw [completionRange, h]
  refine (if_neg (by simpa using hlen)).trans ?_
  cases continuations lo hi true lead (c :: rest) with
  | none => rfl
  | some value => exact if_neg (List.cons_ne_nil c rest)

/-- The range of one byte, by its value. -/
theorem completion_one (b : UInt8) : completionRange [b] =
    if 194 ≤ b.toNat ∧ b.toNat ≤ 223
      then some ((b.toNat - 192) * 64, (b.toNat - 192) * 64 + 63)
    else if 224 ≤ b.toNat ∧ b.toNat ≤ 239 then
      some (((b.toNat - 224) * 64 + if b.toNat = 224 then 32 else 0) * 64,
        ((b.toNat - 224) * 64 + if b.toNat = 237 then 31 else 63) * 64 + 63)
    else if 240 ≤ b.toNat ∧ b.toNat ≤ 244 then
      some (((b.toNat - 240) * 64 + if b.toNat = 240 then 16 else 0) * 4096,
        ((b.toNat - 240) * 64 + if b.toNat = 244 then 15 else 63) * 4096 + 4095)
    else none := by
  have hlead := leadInfo_spec b
  split at hlead
  next h2 =>
    rw [completionRange_lead hlead (by omega), if_pos h2]
    simp
  next h2 =>
  split at hlead
  next h3 =>
    rw [completionRange_lead hlead (by omega), if_neg h2, if_pos h3]
    split_ifs <;> rfl
  next h3 =>
  split at hlead
  next h4 =>
    rw [completionRange_lead hlead (by omega), if_neg h2, if_neg h3, if_pos h4]
    split_ifs <;> rfl
  next h4 => rw [completionRange_none hlead, if_neg h2, if_neg h3, if_neg h4]

/-- The range of two bytes, by their values. -/
theorem completion_two (b d : UInt8) : completionRange [b, d] =
    if 224 ≤ b.toNat ∧ b.toNat ≤ 239 then
      if (128 ≤ d.toNat ∧ d.toNat ≤ 191)
          ∧ (if b.toNat = 224 then 160 else 128) ≤ d.toNat
          ∧ d.toNat ≤ if b.toNat = 237 then 159 else 191 then
        some (((b.toNat - 224) * 64 + d.toNat % 64) * 64,
          ((b.toNat - 224) * 64 + d.toNat % 64) * 64 + 63)
      else none
    else if 240 ≤ b.toNat ∧ b.toNat ≤ 244 then
      if (128 ≤ d.toNat ∧ d.toNat ≤ 191)
          ∧ (if b.toNat = 240 then 144 else 128) ≤ d.toNat
          ∧ d.toNat ≤ if b.toNat = 244 then 143 else 191 then
        some (((b.toNat - 240) * 64 + d.toNat % 64) * 4096,
          ((b.toNat - 240) * 64 + d.toNat % 64) * 4096 + 4095)
      else none
    else none := by
  have hlead := leadInfo_spec b
  split at hlead
  next h2 => rw [completionRange_full hlead (by simp), if_neg (by omega),
    if_neg (by omega)]
  next h2 =>
  split at hlead
  next h3 =>
    rw [completionRange_more hlead (by simp), continuations_first, if_pos h3]
    generalize (if b.toNat = 224 then 160 else 128) = lo
    generalize (if b.toNat = 237 then 159 else 191) = hi
    split <;> rfl
  next h3 =>
  split at hlead
  next h4 =>
    rw [completionRange_more hlead (by simp), continuations_first, if_neg h3,
      if_pos h4]
    generalize (if b.toNat = 240 then 144 else 128) = lo
    generalize (if b.toNat = 244 then 143 else 191) = hi
    split <;> rfl
  next h4 => rw [completionRange_none hlead, if_neg h3, if_neg h4]

/-- The range of three bytes, by their values. -/
theorem completion_three (b d e : UInt8) : completionRange [b, d, e] =
    if 240 ≤ b.toNat ∧ b.toNat ≤ 244 then
      if (128 ≤ d.toNat ∧ d.toNat ≤ 191)
          ∧ (if b.toNat = 240 then 144 else 128) ≤ d.toNat
          ∧ d.toNat ≤ if b.toNat = 244 then 143 else 191 then
        if 128 ≤ e.toNat ∧ e.toNat ≤ 191 then
          some ((((b.toNat - 240) * 64 + d.toNat % 64) * 64 + e.toNat % 64) * 64,
            (((b.toNat - 240) * 64 + d.toNat % 64) * 64 + e.toNat % 64) * 64 + 63)
        else none
      else none
    else none := by
  have hlead := leadInfo_spec b
  split at hlead
  next h2 => rw [completionRange_full hlead (by simp), if_neg (by omega)]
  next h2 =>
  split at hlead
  next h3 => rw [completionRange_full hlead (by simp), if_neg (by omega)]
  next h3 =>
  split at hlead
  next h4 =>
    rw [completionRange_more hlead (by simp), continuations_first,
      continuations_next, if_pos h4]
    generalize (if b.toNat = 240 then 144 else 128) = lo
    generalize (if b.toNat = 244 then 143 else 191) = hi
    split
    · split <;> rfl
    · rfl
  next h4 => rw [completionRange_none hlead, if_neg h4]

/-- Four bytes are never a proper part. -/
theorem completion_four (b d e f : UInt8) (rest : List UInt8) :
    completionRange (b :: d :: e :: f :: rest) = none := by
  have hlead := leadInfo_spec b
  split_ifs at hlead
  all_goals first
    | exact completionRange_none hlead _
    | exact completionRange_full hlead (by simp only [List.length_cons]; omega)

/-- A range holds a codepoint. -/
def Within : Option (Nat × Nat) → Nat → Prop
  | none, _ => False
  | some (lo, hi), v => lo ≤ v ∧ v ≤ hi

/-- The range is that of the characters the bytes can become. -/
theorem within_iff (hne : part ≠ []) :
    Within (completionRange part) c.toNat ↔ Begins part c := by
  have hvalid := toNat_valid c
  match part with
  | [b] =>
      rw [completion_one, begins_one]
      split_ifs
      all_goals simp only [Within, false_iff]
      all_goals omega
  | [b, d] =>
      rw [completion_two, begins_two]
      split_ifs
      all_goals simp only [Within, false_iff]
      all_goals omega
  | [b, d, e] =>
      rw [completion_three, begins_three]
      split_ifs
      all_goals simp only [Within, false_iff]
      all_goals omega
  | b :: d :: e :: f :: rest =>
      rw [completion_four]
      exact iff_of_false id not_begins_four

/-- The range has a codepoint, each of them is a character, and the surrogates
are on one side of it. -/
structure Encoded (lo hi : Nat) : Prop where
  le : lo ≤ hi
  lt : hi < 0x110000
  apart : hi < 0xD800 ∨ 0xDFFF < lo

/-- A range holds codepoints of characters only. -/
theorem encoded_completion
    (h : completionRange part = some (lo, hi)) : Encoded lo hi := by
  match part with
  | [] => cases h
  | [b] =>
      rw [completion_one] at h
      split_ifs at h
      all_goals
        simp only [Option.some.injEq, Prod.mk.injEq] at h
        constructor
      all_goals omega
  | [b, d] =>
      rw [completion_two] at h
      split_ifs at h
      all_goals
        simp only [Option.some.injEq, Prod.mk.injEq] at h
        constructor
      all_goals omega
  | [b, d, e] =>
      rw [completion_three] at h
      split_ifs at h
      all_goals
        simp only [Option.some.injEq, Prod.mk.injEq] at h
        constructor
      all_goals omega
  | b :: d :: e :: f :: rest =>
      rw [completion_four] at h
      cases h

-- ============================= classes

/-- Sorted ranges cover an interval when each of its codepoints is in one. -/
theorem covers_iff {ranges : Ranges} {next : Nat}
    (h : ranges.Pairwise (·.1 ≤ ·.1)) (hle : next ≤ hi) :
    covers ranges next hi = true ↔ ∀ v, next ≤ v → v ≤ hi →
      inRanges ranges v = true := by
  induction ranges generalizing next with
  | nil =>
      simp only [covers, inRanges, List.any_nil, Bool.false_eq_true, imp_false,
        false_iff]
      exact fun h => h next (Nat.le_refl next) hle
  | cons r rest ih =>
      obtain ⟨a, b⟩ := r
      obtain ⟨hfirst, hrest⟩ := List.pairwise_cons.1 h
      have hmem (v : Nat) : inRanges ((a, b) :: rest) v = true
          ↔ (a ≤ v ∧ v ≤ b) ∨ inRanges rest v = true := by
        simp [inRanges]
      simp only [hmem, covers]
      split
      next hskip =>
        rw [ih hrest hle]
        refine forall_congr' fun v => forall_congr' fun hv =>
          forall_congr' fun _ => ?_
        exact ⟨.inr, fun h => h.resolve_left (by omega)⟩
      split
      next hgap =>
        -- no later range starts before the gap ends
        refine iff_of_false (by simp) fun h => ?_
        rcases h next (Nat.le_refl next) hle with h | h
        · omega
        · obtain ⟨r, hr, h⟩ := List.any_eq_true.1 h
          have := hfirst r hr
          simp only [Bool.and_eq_true, decide_eq_true_eq] at h
          omega
      split
      next hall =>
        refine iff_of_true rfl fun v hv hv' => .inl ?_
        omega
      next hmore =>
        rw [ih hrest (by omega)]
        constructor
        · intro h v hv hv'
          by_cases hb : v ≤ b
          · exact .inl (by omega)
          · exact .inr (h v (by omega) hv')
        · intro h v hv hv'
          exact (h v (by omega) hv').resolve_left (by omega)

/-- A range is tested by asking for a codepoint of it. -/
theorem meets_iff {inst : Inst} (h : inst.Ordered) (hle : lo ≤ hi) :
    inst.meets lo hi = true ↔ ∃ v, lo ≤ v ∧ v ≤ hi ∧ inst.consumes v = true := by
  match inst with
  | .any => exact iff_of_true rfl ⟨lo, Nat.le_refl lo, hle, rfl⟩
  | .cp c =>
      simp only [Inst.meets, Inst.consumes, Bool.and_eq_true, decide_eq_true_eq]
      constructor
      · exact fun hc => ⟨c, hc.1, hc.2, rfl⟩
      · rintro ⟨v, hlo, hhi, rfl⟩
        exact ⟨hlo, hhi⟩
  | .cls false ranges =>
      simp only [Inst.meets, Inst.consumes, inRanges, List.any_eq_true,
        Bool.and_eq_true,
        decide_eq_true_eq, bne_iff_ne, ne_eq, Bool.not_eq_false]
      constructor
      · rintro ⟨r, hr, hhi, hlo⟩
        have := h.filled r hr
        exact ⟨max r.1 lo, by omega, by omega, r, hr, by omega, by omega⟩
      · rintro ⟨v, hlo, hhi, r, hr, hv⟩
        exact ⟨r, hr, by omega, by omega⟩
  | .cls true ranges =>
      simp only [Inst.meets, Inst.consumes, Bool.not_eq_true', bne_iff_ne,
        ne_eq, Bool.not_eq_true]
      rw [← Bool.not_eq_true, covers_iff h.sorted hle]
      simp
  | .split _ _ | .jump _ | .call _ | .ret => simp [Inst.meets, Inst.consumes]

-- ============================= pending

/-- Some character that goes on from the bytes is read by a stack. -/
def Completable (rules : Rules) (live : List Stack) (part : List UInt8) : Prop :=
  ∃ c : Char, Begins part c ∧ ∃ st ∈ live,
    (instAt rules st.top).consumes c.toNat = true

/-- The test finds exactly the characters a stack reads. -/
theorem partialCanComplete_iff (h : ∀ f, (instAt rules f).Ordered)
    (live : List Stack) (hne : part ≠ []) :
    partialCanComplete rules live part = true ↔ Completable rules live part := by
  unfold partialCanComplete Completable
  simp only [← within_iff hne]
  match hrange : completionRange part with
  | none => simp [Within]
  | some (lo, hi) =>
      have henc := encoded_completion hrange
      simp only [anyStackAcceptsRange, nonSurrogateParts, if_pos henc.apart,
        List.any_cons, List.any_nil, Bool.or_false, anyStackAcceptsPlainRange,
        List.any_eq_true, meets_iff (h _) henc.le, Within]
      constructor
      · rintro ⟨st, hst, v, hlo, hhi, hv⟩
        have hval : (Char.ofNat v).toNat = v :=
          val_ofNat (by have := henc.lt; have := henc.apart; omega)
        refine ⟨Char.ofNat v, ?_, st, hst, ?_⟩
        · rw [hval]
          exact ⟨hlo, hhi⟩
        · rwa [hval]
      · rintro ⟨c, ⟨hlo, hhi⟩, st, hst, hc⟩
        exact ⟨st, hst, c.toNat, hlo, hhi, hc⟩

theorem pos_decodeAt {c : Nat} (h : decodeAt bytes = .cp c len) :
    0 < len := by
  unfold decodeAt at h
  repeat' split at h
  all_goals
    cases h
    try exact Nat.succ_pos _

/-- What the loop leaves was tested. -/
theorem consumeLoop_left {fuel i : Nat} {live live' : List Stack}
    {left : List UInt8} (hfuel : bytes.length ≤ fuel) (hne : left ≠ [])
    (h : consumeLoop rules fuel live i bytes = .ok (live', left)) :
    partialCanComplete rules live' left = true := by
  induction fuel generalizing live i bytes with
  | zero =>
      rw [List.length_eq_zero_iff.1 (Nat.le_zero.1 hfuel), consumeLoop] at h
      cases h
      exact absurd rfl hne
  | succ fuel ih =>
      match bytes with
      | [] =>
          rw [consumeLoop] at h
          cases h
          exact absurd rfl hne
      | b :: rest =>
          rw [consumeLoop] at h
          cases hdecode : decodeAt (b :: rest) with
          | cp c len =>
              have hlen := pos_decodeAt hdecode
              simp only [hdecode] at h
              split at h
              · cases h
              · cases hstep : step rules live c with
                | error e =>
                    simp only [hstep] at h
                    cases h
                | ok next =>
                    simp only [hstep] at h
                    refine ih ?_ h
                    simp only [List.length_drop]
                    omega
          | incomplete =>
              simp only [hdecode] at h
              split at h
              next hpart =>
                cases h
                exact hpart
              · cases h
          | invalid =>
              simp only [hdecode] at h
              cases h

/-- A state that waits for bytes can be completed. -/
theorem consume_part {key key' : StateKey}
    (h : consume rules key bytes = .ok key') (hne : key'.part ≠ []) :
    partialCanComplete rules key'.liveStacks key'.part = true := by
  unfold consume at h
  simp only at h
  split at h
  · cases h
  next live left hloop =>
    cases h
    exact consumeLoop_left (Nat.le_refl _) hne hloop

/-- A pending partial character is accepted exactly when it can be finished,
and `consume` leaves no other. -/
theorem pending_completes {fuel : Nat} {source : Text} {program : Program}
    (h : compileGbnf fuel source = .ok program) :
    (∀ live part, partialCanComplete program.rules live part = true
      ↔ part ≠ [] ∧ ∃ c : Char, Begins part c
        ∧ ∃ st ∈ live, (instAt program.rules st.top).consumes c.toNat = true)
    ∧ ∀ key bytes key', consume program.rules key bytes = .ok key' → key'.part ≠ [] →
      ∃ more, more ≠ [] ∧ ∃ c : Char, key'.part ++ more = String.utf8EncodeChar c
        ∧ ∃ st ∈ key'.liveStacks,
          (instAt program.rules st.top).consumes c.toNat = true := by
  have hordered := ordered_instAt h
  constructor
  · intro live part
    by_cases hne : part = []
    · subst hne
      simp [partialCanComplete, completionRange]
    · rw [partialCanComplete_iff hordered live hne]
      exact (and_iff_right hne).symm
  · intro key bytes key' hconsume hne
    have hpart := consume_part hconsume hne
    obtain ⟨c, ⟨⟨more, hmore⟩, hproper⟩, hst⟩ :=
      (partialCanComplete_iff hordered _ hne).1 hpart
    refine ⟨more, ?_, c, hmore, hst⟩
    rintro rfl
    rw [List.append_nil] at hmore
    exact hproper hmore

/-- `root ::= "é"`. -/
def accented : Program := ⟨[[.cp 0xE9, .ret]], ["root".toList], 0⟩

theorem accented_compiles :
    compileGbnf 20 "root ::= \"é\"".toList = .ok accented := by
  decide +kernel

theorem pending_completes_accented :
    partialCanComplete accented.rules [⟨⟨0, 0⟩, []⟩] [0xC3] = true := by
  apply ((pending_completes accented_compiles).1 [⟨⟨0, 0⟩, []⟩] [0xC3]).2
  refine ⟨by decide, 'é', ?_, _, List.mem_singleton_self _, by decide⟩
  constructor
  · exact ⟨[0xA9], by decide⟩
  · decide

/-- With nothing pending the answer is no, whatever the stacks read. -/
theorem nothing_pending :
    ∃ program live, compileGbnf 20 "root ::= \"é\"".toList = .ok program
    ∧ close program.rules [⟨⟨program.root, 0⟩, []⟩] = .ok live
    ∧ (∃ c : Char, Begins [] c ∧ ∃ st ∈ live,
      (instAt program.rules st.top).consumes c.toNat = true)
    ∧ partialCanComplete program.rules live [] = false := by
  refine ⟨accented, [⟨⟨0, 0⟩, []⟩], accented_compiles, by decide +kernel, ?_, rfl⟩
  refine ⟨'é', ⟨⟨_, List.nil_append _⟩, by decide⟩, _,
    List.mem_singleton_self _, by decide⟩

end Minfer.Gbnf
