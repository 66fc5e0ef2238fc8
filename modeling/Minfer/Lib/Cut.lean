/-
Cutting a byte string before it is decoded.

Decoding two parts apart gives the decoding of the whole exactly when no
character begins in one and goes on in the other (`lossy_append_iff`). A cut
through a character costs: the bytes on both sides are replaced one by one,
so the parts together have more characters than the whole.
-/
import Minfer.Lib.Lossy

namespace Minfer.Lib

/-- The start of a character's bytes, and not all of them. -/
def Incomplete (part : List UInt8) : Prop :=
  part ≠ [] ∧ ∃ c more, more ≠ [] ∧ String.utf8EncodeChar c = part ++ more

/-- A character begins with the last bytes of `a` and goes on with the first
of `s`. -/
def Splits (a s : List UInt8) : Prop :=
  ∃ part next more c, part ≠ [] ∧ next ≠ [] ∧ part <:+ a ∧ next <+: s
    ∧ String.utf8EncodeChar c = part ++ next ++ more

-- ======================= one character

/-- What a character is decoded from does not reach past the bytes there
are. -/
theorem decodeFirst_append (b : UInt8) (r s : List UInt8) :
    (decodeFirst b (r ++ s)).2 ≤ r.length + 1
      ∧ decodeFirst b (r ++ s) = decodeFirst b r
    ∨ r.length + 1 < (decodeFirst b (r ++ s)).2
      ∧ decodeFirst b r = (replacement, r.length + 1) := by
  rcases r with _ | ⟨c, _ | ⟨d, _ | ⟨e, r⟩⟩⟩
  · rcases s with _ | ⟨c, _ | ⟨d, _ | ⟨e, s⟩⟩⟩
    all_goals
      simp only [decodeFirst, List.nil_append, List.length_nil]
      split_ifs <;> simp
  · rcases s with _ | ⟨d, _ | ⟨e, s⟩⟩
    all_goals
      simp only [decodeFirst, List.cons_append, List.nil_append,
        List.length_cons, List.length_nil]
      split_ifs <;> simp
  · rcases s with _ | ⟨e, s⟩
    all_goals
      simp only [decodeFirst, List.cons_append, List.nil_append,
        List.length_cons, List.length_nil]
      split_ifs <;> simp
  · simp only [decodeFirst, List.cons_append, List.length_cons]
    split_ifs <;> simp

variable {b : UInt8} {a s : List UInt8}

/-- More than one byte was read: they start a character, or are one. -/
theorem take_starts {rest : List UInt8} (h : 1 < (decodeFirst b rest).2) :
    ∃ c more, String.utf8EncodeChar c
      = (b :: rest).take (decodeFirst b rest).2 ++ more := by
  have hcont : isCont 0x80 = true := by decide
  revert h
  unfold decodeFirst
  split
  next h1 => exact fun h => absurd h (Nat.lt_irrefl 1)
  split
  next h2 =>
    split
    next c tail =>
      split
      next hc => exact fun _ => ⟨_, [], encode_two h2 hc⟩
      · exact fun h => absurd h (Nat.lt_irrefl 1)
    · exact fun h => absurd h (Nat.lt_irrefl 1)
  split
  next h3 =>
    split
    next c d tail =>
      split
      next hc =>
        split
        next hd => exact fun _ => ⟨_, [], encode_three h3 hc hd⟩
        · exact fun _ => ⟨_, [0x80], encode_three h3 hc hcont⟩
      · exact fun h => absurd h (Nat.lt_irrefl 1)
    next c =>
      split
      next hc => exact fun _ => ⟨_, [0x80], encode_three h3 hc hcont⟩
      · exact fun h => absurd h (Nat.lt_irrefl 1)
    · exact fun h => absurd h (Nat.lt_irrefl 1)
  split
  next h4 =>
    split
    next c d e tail =>
      split
      next hc =>
        split
        next hd =>
          split
          next he => exact fun _ => ⟨_, [], encode_four h4 hc hd he⟩
          · exact fun _ => ⟨_, [0x80], encode_four h4 hc hd hcont⟩
        · exact fun _ => ⟨_, [0x80, 0x80], encode_four h4 hc hcont hcont⟩
      · exact fun h => absurd h (Nat.lt_irrefl 1)
    next c d =>
      split
      next hc =>
        split
        next hd => exact fun _ => ⟨_, [0x80], encode_four h4 hc hd hcont⟩
        · exact fun _ => ⟨_, [0x80, 0x80], encode_four h4 hc hcont hcont⟩
      · exact fun h => absurd h (Nat.lt_irrefl 1)
    next c =>
      split
      next hc => exact fun _ => ⟨_, [0x80, 0x80], encode_four h4 hc hcont hcont⟩
      · exact fun h => absurd h (Nat.lt_irrefl 1)
    · exact fun h => absurd h (Nat.lt_irrefl 1)
  · exact fun h => absurd h (Nat.lt_irrefl 1)

theorem decodeFirst_le (b : UInt8) (r : List UInt8) :
    (decodeFirst b r).2 ≤ r.length + 1 := by
  have happ := decodeFirst_append b r []
  rw [List.append_nil] at happ
  rcases happ with ⟨hle, -⟩ | ⟨hlt, heq⟩
  · exact hle
  · rw [heq] at hlt
    exact absurd hlt (Nat.lt_irrefl _)

/-- The bytes of a character after the first are continuations, the first is
not. -/
theorem encodeChar_conts {c : Char} {tail : List UInt8}
    (h : String.utf8EncodeChar c = b :: tail) : isCont b = false
    ∧ ∀ x ∈ tail, isCont x = true := by
  have hlead : ∀ {n : Nat}, n < 256 → n < 128 ∨ 191 < n →
      isCont (UInt8.ofNat n) = false := by
    intro n hn hout
    apply Bool.eq_false_iff.mpr
    rw [Ne, isCont_iff, toNat_byte hn]
    omega
  rcases encode_cases c with ⟨hc, henc⟩ | ⟨hc, henc⟩ | ⟨hc, henc⟩ | ⟨hc, henc⟩
  all_goals
    rw [h, List.cons.injEq] at henc
    obtain ⟨rfl, rfl⟩ := henc
    refine ⟨hlead (by omega) (by omega), fun x hx => ?_⟩
    simp only [List.mem_cons, List.not_mem_nil, or_false] at hx
  · rw [hx]
    exact isCont_byte (by omega)
  · rcases hx with rfl | rfl <;> exact isCont_byte (by omega)
  · rcases hx with rfl | rfl | rfl <;> exact isCont_byte (by omega)

/-- The bytes read after the first one are continuations. -/
theorem take_conts (b : UInt8) (rest : List UInt8) :
    ∀ x ∈ rest.take ((decodeFirst b rest).2 - 1), isCont x = true := by
  rcases Nat.lt_or_ge 1 (decodeFirst b rest).2 with hlt | hge
  · obtain ⟨c, more, henc⟩ := take_starts hlt
    rw [← Nat.sub_add_cancel (Nat.le_of_lt hlt), List.take_succ_cons,
      List.cons_append] at henc
    exact fun x hx => (encodeChar_conts henc).2 x (List.mem_append_left _ hx)
  · rw [Nat.sub_eq_zero_of_le hge]
    exact fun x hx => absurd hx List.not_mem_nil

/-- Bytes that start a character are read together. -/
theorem le_decodeFirst {q more : List UInt8} {c : Char}
    (h : String.utf8EncodeChar c = b :: (q ++ more)) (s : List UInt8) :
    q.length + 1 ≤ (decodeFirst b (q ++ s)).2 := by
  have hall := decodeFirst_encodeChar h []
  rw [List.append_nil] at hall
  rcases decodeFirst_append b q more with ⟨hle, heq⟩ | ⟨-, heq⟩
  · rw [hall, List.length_append] at hle
    have hmore : more = [] :=
      List.eq_nil_of_length_eq_zero (by simp only at hle; omega)
    rw [hmore, List.append_nil] at h
    exact Nat.le_of_eq (congrArg Prod.snd (decodeFirst_encodeChar h s)).symm
  · rcases decodeFirst_append b q s with ⟨-, heq'⟩ | ⟨hlt, -⟩
    · exact Nat.le_of_eq (congrArg Prod.snd (heq'.trans heq)).symm
    · exact Nat.le_of_lt hlt

theorem decodeFirst_cont (h : isCont b = true) (rest : List UInt8) :
    decodeFirst b rest = (replacement, 1) := by
  have hb := isCont_iff.mp h
  unfold decodeFirst
  simp only [UInt8.lt_iff_toNat_lt, UInt8.le_iff_toNat_le, UInt8.reduceToNat]
  rw [if_neg (by omega), if_neg (by omega), if_neg (by omega), if_neg (by omega)]

-- ============================== splits

/-- A cut splits a character: the decoder, begun before the cut, reads past
it. -/
theorem splits_iff : Splits a s ↔
    ∃ front b cs, a = front ++ b :: cs
      ∧ cs.length + 1 < (decodeFirst b (cs ++ s)).2 := by
  constructor
  · rintro ⟨part, next, more, c, hpart, hnext, ⟨front, rfl⟩, ⟨tail, rfl⟩, henc⟩
    obtain ⟨b, cs, rfl⟩ := List.exists_cons_of_ne_nil hpart
    refine ⟨front, b, cs, rfl, ?_⟩
    have hpos := List.length_pos_iff.mpr hnext
    have hle := le_decodeFirst (q := cs ++ next) henc tail
    rw [List.append_assoc, List.length_append] at hle
    omega
  · rintro ⟨front, b, cs, rfl, hlt⟩
    obtain ⟨k, hk⟩ := Nat.exists_eq_add_of_le (Nat.le_of_lt hlt)
    have hle := decodeFirst_le b (cs ++ s)
    obtain ⟨c, more, henc⟩ :=
      take_starts (Nat.lt_of_le_of_lt (Nat.le_add_left 1 _) hlt)
    rw [hk, Nat.add_right_comm, List.take_succ_cons,
      List.take_length_add_append] at henc
    rw [hk, List.length_append] at hle
    rw [hk] at hlt
    refine ⟨b :: cs, s.take k, more, c, List.cons_ne_nil _ _, ?_,
      List.suffix_append .., List.take_prefix .., henc⟩
    apply List.ne_nil_of_length_pos
    rw [List.length_take]
    omega

theorem Incomplete.lead {cs : List UInt8}
    (h : Incomplete (b :: cs)) : isCont b = false := by
  obtain ⟨-, c, more, -, henc⟩ := h
  exact (Lib.encodeChar_conts henc).1

/-- No character goes on with the bytes of a suffix that starts with a lead
byte. -/
theorem not_mem_tail {c : Char} {part next more : List UInt8}
    (hpart : part ≠ [])
    (henc : String.utf8EncodeChar c = part ++ next ++ more) (hb : b ∈ next) :
    isCont b = true := by
  obtain ⟨x, cs, rfl⟩ := List.exists_cons_of_ne_nil hpart
  rw [List.append_assoc, List.cons_append] at henc
  exact (Lib.encodeChar_conts henc).2 b (by simp [hb])

/-- Nothing is split before a lead byte. -/
theorem Splits.of_lead {t : List UInt8} (h : Splits a (s ++ t))
    (ht : ∀ b cs, t = b :: cs → isCont b = false) : Splits a s := by
  obtain ⟨part, next, more, c, hpart, hnext, hin, ⟨tail, hstart⟩, henc⟩ := h
  rcases List.append_eq_append_iff.mp hstart with ⟨more', rfl, -⟩ | ⟨past, rfl, htail⟩
  · exact ⟨part, next, more, c, hpart, hnext, hin, List.prefix_append .., henc⟩
  · rcases past with _ | ⟨b, cs⟩
    · rw [List.append_nil] at hnext henc
      exact ⟨part, s, more, c, hpart, hnext, hin, List.prefix_rfl, henc⟩
    · have hcont := not_mem_tail hpart henc (b := b) (by simp)
      rw [ht b (cs ++ tail) htail] at hcont
      cases hcont

theorem not_splits_lead {t : List UInt8}
    (ht : ∀ b cs, t = b :: cs → isCont b = false) :
    ¬ Splits a t := by
  intro h
  obtain ⟨part, next, -, -, -, hnext, -, hstart, -⟩ := Splits.of_lead (s := []) h ht
  exact hnext (List.prefix_nil.mp hstart)

theorem Splits.of_prefix {s' : List UInt8} (h : Splits a s)
    (hpre : s <+: s') : Splits a s' := by
  obtain ⟨part, next, more, c, hpart, hnext, hin, hstart, henc⟩ := h
  exact ⟨part, next, more, c, hpart, hnext, hin, hstart.trans hpre, henc⟩

/-- No unfinished character ends inside another's. -/
theorem incomplete_suffix_unique {w w' part part' : List UInt8}
    (hpart : Incomplete part)
    (hpart' : Incomplete part') (heq : w ++ part = w' ++ part') : w = w' := by
  have hinside : ∀ {front p p' : List UInt8}, Incomplete p → Incomplete p' →
      p = front ++ p' → front = [] := by
    intro front p p' hp hp' heq
    obtain ⟨b, cs, rfl⟩ := List.exists_cons_of_ne_nil hp'.1
    obtain ⟨-, c, more, -, henc⟩ := hp
    by_contra hfront
    have hcont := not_mem_tail hfront (heq ▸ henc) (b := b) (by simp)
    rw [hp'.lead] at hcont
    cases hcont
  rcases List.append_eq_append_iff.mp heq with ⟨front, rfl, hp⟩ | ⟨front, rfl, hp⟩
  · rw [hinside hpart hpart' hp, List.append_nil]
  · rw [hinside hpart' hpart hp, List.append_nil]

-- ======================= two decodings

theorem lossy_cons (b : UInt8) (rest : List UInt8) : fromUtf8Lossy (b :: rest)
    = (decodeFirst b rest).1 :: fromUtf8Lossy
      (rest.drop ((decodeFirst b rest).2 - 1)) := by
  rw [fromUtf8Lossy, lossyFrom, lossyFrom_skip]
  rfl

theorem lossy_eq_nil {bytes : List UInt8} (h : fromUtf8Lossy bytes = []) :
    bytes = [] := by
  rcases bytes with _ | ⟨b, rest⟩
  · rfl
  · rw [lossy_cons] at h
    cases h

/-- Bytes no character starts with are replaced one by one. -/
theorem length_lossy_conts {cs : List UInt8} (h : ∀ x ∈ cs, isCont x = true)
    (s : List UInt8) :
    (fromUtf8Lossy (cs ++ s)).length = cs.length + (fromUtf8Lossy s).length := by
  induction cs with
  | nil => simp
  | cons c cs ih =>
      have hc := decodeFirst_cont (h c List.mem_cons_self) (cs ++ s)
      rw [List.cons_append, lossy_cons, hc, List.length_cons, List.length_cons,
        Nat.sub_self, List.drop_zero,
        ih fun x hx => h x (List.mem_cons_of_mem _ hx)]
      omega

/-- A character that goes on past the cut starts in what is left of the first
part. -/
theorem Splits.drop {r : List UInt8} (h : Splits (b :: r) s)
    (hle : (decodeFirst b (r ++ s)).2 ≤ r.length + 1) :
    Splits (r.drop ((decodeFirst b (r ++ s)).2 - 1)) s := by
  obtain ⟨front, lead, cs, ha, hlt⟩ := splits_iff.mp h
  rcases front with _ | ⟨x, front⟩
  · -- the character is the one read first
    cases ha
    exact absurd hlt (Nat.not_lt_of_le hle)
  · have hr : r = front ++ lead :: cs := (List.cons.inj ha).2
    have hconts := take_conts b (r ++ s)
    obtain ⟨k, hk⟩ : ∃ k, k = (decodeFirst b (r ++ s)).2 - 1 := ⟨_, rfl⟩
    rw [← hk] at hconts ⊢
    rcases Nat.lt_or_ge front.length k with hin | hout
    · -- its lead byte is not a continuation
      have hmem : lead ∈ (r ++ s).take k := by
        rw [hr, List.append_assoc, List.cons_append]
        obtain ⟨j, rfl⟩ := Nat.exists_eq_add_of_lt hin
        rw [Nat.add_assoc, List.take_length_add_append, List.take_succ_cons]
        simp
      rw [decodeFirst_cont (hconts lead hmem)] at hlt
      simp at hlt
    · refine splits_iff.mpr ⟨front.drop k, lead, cs, ?_, hlt⟩
      rw [hr, List.drop_append_of_le_length hout]

theorem Splits.of_suffix {a' : List UInt8} (h : Splits a' s)
    (hsuf : a' <:+ a) : Splits a s := by
  obtain ⟨part, next, more, c, hpart, hnext, hin, hstart, henc⟩ := h
  exact ⟨part, next, more, c, hpart, hnext, hin.trans hsuf, hstart, henc⟩

/-- Two parts decoded apart: the same text where no character is split, and
more characters where one is. -/
theorem lossy_append (a s : List UInt8) :
    (¬ Splits a s → fromUtf8Lossy (a ++ s) = fromUtf8Lossy a ++ fromUtf8Lossy s)
      ∧ (Splits a s → (fromUtf8Lossy (a ++ s)).length
          < (fromUtf8Lossy a).length + (fromUtf8Lossy s).length) := by
  induction hn : a.length using Nat.strongRecOn generalizing a with
  | ind n ih =>
      rcases a with _ | ⟨b, r⟩
      · refine ⟨fun _ => rfl, fun ⟨part, _, _, _, hpart, _, hin, _⟩ => ?_⟩
        exact absurd (List.suffix_nil.mp hin) hpart
      · have hshort : (r.drop ((decodeFirst b (r ++ s)).2 - 1)).length < n := by
          rw [List.length_drop, ← hn, List.length_cons]
          omega
        rcases decodeFirst_append b r s with ⟨hle, heq⟩ | ⟨hlt, heq⟩
        · -- the first character is read before the cut
          obtain ⟨hsame, hmore⟩ := ih _ hshort _ rfl
          have hdrop : (r ++ s).drop ((decodeFirst b (r ++ s)).2 - 1)
              = r.drop ((decodeFirst b (r ++ s)).2 - 1) ++ s :=
                List.drop_append_of_le_length (by omega)
          rw [List.cons_append, lossy_cons b (r ++ s), hdrop, lossy_cons b r, ← heq]
          refine ⟨fun hno => ?_, fun hsplit => ?_⟩
          · rw [hsame fun h =>
              hno (h.of_suffix
                ((List.drop_suffix ..).trans (List.suffix_cons ..))),
              List.cons_append]
          · have hless := hmore (hsplit.drop hle)
            simp only [List.length_cons]
            omega
        · -- it is read past the cut: what it takes from there is replaced byte by byte
          have hsplit : Splits (b :: r) s := splits_iff.mpr ⟨[], b, r, rfl, hlt⟩
          refine ⟨fun hno => absurd hsplit hno, fun _ => ?_⟩
          obtain ⟨k, hk⟩ := Nat.exists_eq_add_of_le (Nat.le_of_lt hlt)
          have hle := decodeFirst_le b (r ++ s)
          have hconts := take_conts b (r ++ s)
          rw [hk, Nat.add_right_comm, Nat.add_sub_cancel,
            List.take_length_add_append] at hconts
          have hrest :=
            length_lossy_conts
            (fun x hx => hconts x (List.mem_append_right _ hx)) (s.drop k)
          rw [List.take_append_drop, List.length_take] at hrest
          rw [hk, List.length_append] at hle
          rw [List.cons_append, lossy_cons b (r ++ s), hk, Nat.add_right_comm,
            Nat.add_sub_cancel, List.drop_length_add_append, lossy_cons b r,
            heq, Nat.add_sub_cancel, List.drop_length]
          simp only [List.length_cons]
          rw [hrest]
          omega

theorem lossy_append_iff :
    fromUtf8Lossy (a ++ s) = fromUtf8Lossy a ++ fromUtf8Lossy s ↔ ¬ Splits a s := by
  refine ⟨fun heq hsplit => ?_, (lossy_append a s).1⟩
  have hlt := (lossy_append a s).2 hsplit
  rw [heq, List.length_append] at hlt
  exact absurd hlt (Nat.lt_irrefl _)

theorem length_lossy_append_le (a s : List UInt8) : (fromUtf8Lossy (a ++ s)).length
    ≤ (fromUtf8Lossy a).length + (fromUtf8Lossy s).length := by
  by_cases hsplit : Splits a s
  · exact Nat.le_of_lt ((lossy_append a s).2 hsplit)
  · exact Nat.le_of_eq (by rw [(lossy_append a s).1 hsplit, List.length_append])

end Minfer.Lib
