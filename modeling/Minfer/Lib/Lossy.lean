/-
What a lossily decoded text says about the bytes it came from.

Every character stands for a piece of the bytes, in order and without
gaps (`lossy_pieces`); one that was not replaced stands for its own bytes.
So a text without replacements that shows up in the decoding shows up in
the bytes, however the bytes were cut before they were decoded
(`infix_of_lossy_infix`).
-/
import Minfer.Lib.Utf8

namespace Minfer.Lib

theorem val_ofNat {v : Nat} (h : v < 0xD800 ∨ 0xDFFF < v ∧ v < 0x110000) :
    (Char.ofNat v).val.toNat = v := by
  have hvalid : v.isValidChar := h
  unfold Char.ofNat
  rw [dif_pos hvalid]
  rfl

/-- The bytes of the character with a given code. -/
theorem encodeChar_ofNat {v : Nat} (h : v < 0xD800 ∨ 0xDFFF < v ∧ v < 0x110000) :
    String.utf8EncodeChar (Char.ofNat v)
      = if v ≤ 0x7F then [UInt8.ofNat v]
        else if v ≤ 0x7FF
          then [UInt8.ofNat (v / 64 % 32 + 192), UInt8.ofNat (v % 64 + 128)]
        else if v ≤ 0xFFFF then
          [UInt8.ofNat (v / 4096 % 16 + 224), UInt8.ofNat (v / 64 % 64 + 128),
            UInt8.ofNat (v % 64 + 128)]
        else
          [UInt8.ofNat (v / 262144 % 8 + 240), UInt8.ofNat (v / 4096 % 64 + 128),
            UInt8.ofNat (v / 64 % 64 + 128), UInt8.ofNat (v % 64 + 128)] := by
  unfold String.utf8EncodeChar
  simp only [val_ofNat h]

/-- The bytes of a character, by their number. -/
theorem encode_cases (c : Char) :
    c.toNat ≤ 0x7F ∧ String.utf8EncodeChar c = [UInt8.ofNat c.toNat]
    ∨ (0x7F < c.toNat ∧ c.toNat ≤ 0x7FF) ∧ String.utf8EncodeChar c
      = [UInt8.ofNat (c.toNat / 64 % 32 + 192), UInt8.ofNat (c.toNat % 64 + 128)]
    ∨ (0x7FF < c.toNat ∧ c.toNat ≤ 0xFFFF) ∧ String.utf8EncodeChar c
      = [UInt8.ofNat (c.toNat / 4096 % 16 + 224),
          UInt8.ofNat (c.toNat / 64 % 64 + 128),
          UInt8.ofNat (c.toNat % 64 + 128)]
    ∨ (0xFFFF < c.toNat ∧ c.toNat < 0x110000) ∧ String.utf8EncodeChar c
      = [UInt8.ofNat (c.toNat / 262144 % 8 + 240),
          UInt8.ofNat (c.toNat / 4096 % 64 + 128),
          UInt8.ofNat (c.toNat / 64 % 64 + 128),
          UInt8.ofNat (c.toNat % 64 + 128)] := by
  have hvalid := toNat_valid c
  have henc := encodeChar_ofNat hvalid
  rw [Char.ofNat_toNat] at henc
  rw [henc]
  split
  next h1 => exact .inl ⟨h1, rfl⟩
  next h1 =>
  split
  next h2 => exact .inr (.inl ⟨by omega, rfl⟩)
  next h2 =>
  split
  next h3 => exact .inr (.inr (.inl ⟨by omega, rfl⟩))
  next h3 => exact .inr (.inr (.inr ⟨by omega, rfl⟩))

variable {b c : UInt8}

theorem eq_ofNat_iff {n : Nat} (h : n < 256) : b = UInt8.ofNat n
    ↔ b.toNat = n := by
  rw [← UInt8.toNat_inj, toNat_byte h]

theorem isCont_iff : isCont b = true
    ↔ 128 ≤ b.toNat ∧ b.toNat ≤ 191 := by
  simp only [isCont, Bool.and_eq_true, decide_eq_true_eq,
    UInt8.le_iff_toNat_le, UInt8.reduceToNat]

theorem byte_eq {n : Nat} (h : n = b.toNat) :
    UInt8.ofNat n = b := by
  rw [h, UInt8.ofNat_toNat]

/-- The second byte of a three-byte character: a continuation, and neither
overlong nor a surrogate. -/
theorem second3_iff : second3 b c = true
    ↔ (128 ≤ c.toNat ∧ c.toNat ≤ 191)
    ∧ (b.toNat = 224 → 160 ≤ c.toNat) ∧ (b.toNat = 237 → c.toNat ≤ 159) := by
  unfold second3
  simp only [isCont, ← UInt8.toNat_inj, UInt8.le_iff_toNat_le, UInt8.reduceToNat]
  split
  next h => simp only [Bool.and_eq_true, decide_eq_true_eq]; omega
  · split
    next h => simp only [Bool.and_eq_true, decide_eq_true_eq]; omega
    next h => simp only [Bool.and_eq_true, decide_eq_true_eq]; omega

theorem second4_iff : second4 b c = true
    ↔ (128 ≤ c.toNat ∧ c.toNat ≤ 191)
    ∧ (b.toNat = 240 → 144 ≤ c.toNat) ∧ (b.toNat = 244 → c.toNat ≤ 143) := by
  unfold second4
  simp only [isCont, ← UInt8.toNat_inj, UInt8.le_iff_toNat_le, UInt8.reduceToNat]
  split
  next h => simp only [Bool.and_eq_true, decide_eq_true_eq]; omega
  · split
    next h => simp only [Bool.and_eq_true, decide_eq_true_eq]; omega
    next h => simp only [Bool.and_eq_true, decide_eq_true_eq]; omega

/-- The character two bytes spell. -/
theorem encode_two (hb : 0xC2 ≤ b ∧ b ≤ 0xDF) (hc : isCont c = true) :
    String.utf8EncodeChar (Char.ofNat (low b 5 * 64 + low c 6)) = [b, c] := by
  have hlt := b.toNat_lt
  simp only [UInt8.le_iff_toNat_le, UInt8.reduceToNat] at hb
  have hc := isCont_iff.mp hc
  simp only [low]
  rw [encodeChar_ofNat (by omega), if_neg (by omega), if_pos (by omega),
    byte_eq (b := b) (by omega),
    byte_eq (b := c) (by omega)]

theorem encode_three {d : UInt8} (hb : 0xE0 ≤ b ∧ b ≤ 0xEF)
    (hc : second3 b c = true) (hd : isCont d = true) :
    String.utf8EncodeChar
      (Char.ofNat (low b 4 * 4096 + low c 6 * 64 + low d 6)) = [b, c, d] := by
  have hlt := b.toNat_lt
  simp only [UInt8.le_iff_toNat_le, UInt8.reduceToNat] at hb
  have hc := second3_iff.mp hc
  have hd := isCont_iff.mp hd
  simp only [low]
  rw [encodeChar_ofNat (by omega), if_neg (by omega), if_neg (by omega),
    if_pos (by omega),
    byte_eq (b := b) (by omega), byte_eq (b := c) (by omega),
      byte_eq (b := d) (by omega)]

theorem encode_four {d e : UInt8} (hb : 0xF0 ≤ b ∧ b ≤ 0xF4)
    (hc : second4 b c = true) (hd : isCont d = true) (he : isCont e = true) :
    String.utf8EncodeChar
      (Char.ofNat (low b 3 * 262144 + low c 6 * 4096 + low d 6 * 64 + low e 6))
      = [b, c, d, e] := by
  have hlt := b.toNat_lt
  simp only [UInt8.le_iff_toNat_le, UInt8.reduceToNat] at hb
  have hc := second4_iff.mp hc
  have hd := isCont_iff.mp hd
  have he := isCont_iff.mp he
  simp only [low]
  rw [encodeChar_ofNat (by omega), if_neg (by omega), if_neg (by omega),
    if_neg (by omega),
    byte_eq (b := b) (by omega), byte_eq (b := c) (by omega),
      byte_eq (b := d) (by omega),
    byte_eq (b := e) (by omega)]

/-- A character that was not replaced is read from its own bytes. -/
theorem take_decodeFirst {rest : List UInt8}
    (h : (decodeFirst b rest).1 ≠ replacement) :
    (b :: rest).take (decodeFirst b rest).2 = String.utf8EncodeChar
    (decodeFirst b rest).1 := by
  have hb := b.toNat_lt
  revert h
  unfold decodeFirst
  split
  next h1 =>
    rw [UInt8.lt_iff_toNat_lt] at h1
    simp only [UInt8.reduceToNat] at h1
    intro _
    rw [encodeChar_ofNat (by omega), if_pos (by omega), byte_eq rfl]
    rfl
  split
  next h2 =>
    split
    next c tail =>
      split
      next hc => exact fun _ => (encode_two h2 hc).symm
      · exact fun h => absurd rfl h
    · exact fun h => absurd rfl h
  split
  next h3 =>
    split
    next c d tail =>
      split
      next hc =>
        split
        next hd => exact fun _ => (encode_three h3 hc hd).symm
        · exact fun h => absurd rfl h
      · exact fun h => absurd rfl h
    · split <;> exact fun h => absurd rfl h
    · exact fun h => absurd rfl h
  split
  next h4 =>
    split
    next c d e tail =>
      split
      next hc =>
        split
        next hd =>
          split
          next he => exact fun _ => (encode_four h4 hc hd he).symm
          · exact fun h => absurd rfl h
        · exact fun h => absurd rfl h
      · exact fun h => absurd rfl h
    · split
      · split <;> exact fun h => absurd rfl h
      · exact fun h => absurd rfl h
    · split <;> exact fun h => absurd rfl h
    · exact fun h => absurd rfl h
  · exact fun h => absurd rfl h

theorem decodeFirst_pos (b : UInt8) (rest : List UInt8) :
    0 < (decodeFirst b rest).2 := by
  unfold decodeFirst
  repeat' split
  all_goals exact Nat.succ_pos _

-- ============================== pieces

/-- A character and the bytes it was decoded from. -/
def Exact (s : Char × List UInt8) : Prop := s.1 ≠ replacement →
    s.2 = String.utf8EncodeChar s.1

/-- The decoding, piece by piece. -/
theorem lossy_pieces (bytes : List UInt8) : ∃ segs : List (Char × List UInt8),
    segs.map (·.1) = fromUtf8Lossy bytes ∧ segs.flatMap (·.2) = bytes
      ∧ ∀ s ∈ segs, Exact s := by
  induction hn : bytes.length using Nat.strongRecOn generalizing bytes with
  | ind n ih =>
      rcases bytes with _ | ⟨b, rest⟩
      · exact ⟨[], rfl, rfl, fun s hs => absurd hs List.not_mem_nil⟩
      · have hpos := decodeFirst_pos b rest
        have hlt : (rest.drop ((decodeFirst b rest).2 - 1)).length < n := by
          rw [List.length_drop, ← hn, List.length_cons]
          omega
        obtain ⟨segs, htext, hbytes, hexact⟩ := ih _ hlt _ rfl
        refine ⟨((decodeFirst b rest).1,
          (b :: rest).take (decodeFirst b rest).2) :: segs, ?_, ?_, ?_⟩
        · rw [List.map_cons, htext, fromUtf8Lossy, fromUtf8Lossy, ← lossyFrom_skip]
          rfl
        · rw [List.flatMap_cons, hbytes]
          obtain ⟨k, hk⟩ : ∃ k, (decodeFirst b rest).2 = k + 1 :=
            ⟨_, (Nat.sub_add_cancel hpos).symm⟩
          rw [hk, List.take_succ_cons, Nat.add_sub_cancel, List.cons_append,
            List.take_append_drop]
        · intro s hs
          rcases List.mem_cons.mp hs with rfl | hs
          · exact take_decodeFirst
          · exact hexact s hs

/-- The same for bytes decoded part by part. -/
theorem lossy_pieces_flatten (parts : List (List UInt8)) : ∃ segs :
    List (Char × List UInt8),
    segs.map (·.1) = parts.flatMap fromUtf8Lossy ∧ segs.flatMap (·.2) = parts.flatten
      ∧ ∀ s ∈ segs, Exact s := by
  induction parts with
  | nil => exact ⟨[], rfl, rfl, fun s hs => absurd hs List.not_mem_nil⟩
  | cons part parts ih =>
      obtain ⟨rest, hrest, hbytes', hexact'⟩ := ih
      obtain ⟨segs, htext, hbytes, hexact⟩ := lossy_pieces part
      refine ⟨segs ++ rest, ?_, ?_, fun s hs => ?_⟩
      · rw [List.map_append, htext, hrest, List.flatMap_cons]
      · rw [List.flatMap_append, hbytes, hbytes', List.flatten_cons]
      · rcases List.mem_append.mp hs with hs | hs
        · exact hexact s hs
        · exact hexact' s hs

/-- A text without replacements that the decoding contains is in the
bytes. -/
theorem infix_of_lossy_infix {parts : List (List UInt8)} {t : List Char}
    (ht : replacement ∉ t) (h : t <:+: parts.flatMap fromUtf8Lossy) :
    utf8Encode t <:+: parts.flatten := by
  obtain ⟨segs, htext, hbytes, hexact⟩ := lossy_pieces_flatten parts
  rw [← htext] at h
  obtain ⟨sub, ⟨before, after, rfl⟩, rfl⟩ := List.infix_map_iff.mp h
  have hsub : sub.flatMap (·.2) = utf8Encode (sub.map (·.1)) := by
    rw [utf8Encode, List.flatMap_map]
    refine List.flatMap_congr fun s hs => hexact s (by simp [hs]) fun hrep => ht ?_
    rw [← hrep]
    exact List.mem_map_of_mem hs
  rw [← hbytes, ← hsub]
  exact ⟨before.flatMap (·.2), after.flatMap (·.2),
    by rw [List.flatMap_append, List.flatMap_append]⟩

end Minfer.Lib
