/-
UTF-8: what a byte string decodes to, and what characters encode to.

Decoding is lossy, as the standard library's is: a valid sequence gives
its character, and every maximal part of an invalid one gives one U+FFFD.
-/
import Mathlib.Algebra.GroupWithZero.Nat
import Mathlib.Data.List.Basic

namespace Minfer.Lib

-- ============================ decoding

/-- A UTF-8 continuation byte. -/
def isCont (b : UInt8) : Bool := 0x80 ≤ b && b ≤ 0xBF

/-- The character a replaced sequence decodes to. -/
def replacement : Char := Char.ofNat 0xFFFD

/-- The second byte a three-byte lead accepts. -/
def second3 (b c : UInt8) : Bool :=
  if b = 0xE0 then 0xA0 ≤ c && c ≤ 0xBF
  else if b = 0xED then 0x80 ≤ c && c ≤ 0x9F
  else isCont c

/-- The second byte a four-byte lead accepts. -/
def second4 (b c : UInt8) : Bool :=
  if b = 0xF0 then 0x90 ≤ c && c ≤ 0xBF
  else if b = 0xF4 then 0x80 ≤ c && c ≤ 0x8F
  else isCont c

/-- The low bits of a byte, as a number. -/
def low (b : UInt8) (bits : Nat) : Nat := b.toNat % 2 ^ bits

/-- The first character of `b :: rest` and the bytes it takes: a valid
sequence, or the longest part of one that can be read, replaced. -/
def decodeFirst (b : UInt8) (rest : List UInt8) : Char × Nat :=
  if b < 0x80 then (Char.ofNat b.toNat, 1)
  else if 0xC2 ≤ b ∧ b ≤ 0xDF then
    match rest with
    | c :: _ =>
        if isCont c then (Char.ofNat (low b 5 * 64 + low c 6), 2)
          else (replacement, 1)
    | [] => (replacement, 1)
  else if 0xE0 ≤ b ∧ b ≤ 0xEF then
    match rest with
    | c :: d :: _ =>
        if second3 b c then
          if isCont d then
            (Char.ofNat (low b 4 * 4096 + low c 6 * 64 + low d 6), 3)
          else (replacement, 2)
        else (replacement, 1)
    | [c] => if second3 b c then (replacement, 2) else (replacement, 1)
    | [] => (replacement, 1)
  else if 0xF0 ≤ b ∧ b ≤ 0xF4 then
    match rest with
    | c :: d :: e :: _ =>
        if second4 b c then
          if isCont d then
            if isCont e then
              (Char.ofNat (low b 3 * 262144 + low c 6 * 4096 + low d 6 * 64
                + low e 6), 4)
            else (replacement, 3)
          else (replacement, 2)
        else (replacement, 1)
    | [c, d] =>
        if second4 b c then
          if isCont d then (replacement, 3) else (replacement, 2)
        else (replacement, 1)
    | [c] => if second4 b c then (replacement, 2) else (replacement, 1)
    | [] => (replacement, 1)
  else (replacement, 1)

/-- The decoding loop: the next `skip` bytes belong to a character already
decoded. -/
def lossyFrom : List UInt8 → Nat → List Char
  | [], _ => []
  | _ :: rest, skip + 1 => lossyFrom rest skip
  | b :: rest, 0 =>
      (decodeFirst b rest).1 :: lossyFrom rest ((decodeFirst b rest).2 - 1)

/-- `String::from_utf8_lossy`: valid sequences decode, and every maximal
part of an invalid one becomes one U+FFFD. -/
def fromUtf8Lossy (bytes : List UInt8) : List Char := lossyFrom bytes 0

-- ============================ encoding

/-- The bytes of a text. -/
def utf8Encode (text : List Char) : List UInt8 := text.flatMap String.utf8EncodeChar

@[simp] theorem utf8Encode_nil : utf8Encode [] = [] := rfl

theorem utf8Encode_cons (c : Char) (text : List Char) :
    utf8Encode (c :: text) = String.utf8EncodeChar c ++ utf8Encode text := rfl

theorem utf8Encode_append (a b : List Char) : utf8Encode
    (a ++ b) = utf8Encode a ++ utf8Encode b :=
  List.flatMap_append

-- ========================== round trip

variable {n v : Nat} {b : UInt8}

theorem toNat_byte (h : n < 256) : (UInt8.ofNat n).toNat = n := by
  rw [UInt8.toNat_ofNat']
  exact Nat.mod_eq_of_lt h

theorem byte_lt (h : n < 256) : UInt8.ofNat n < b
    ↔ n < b.toNat := by
  rw [UInt8.lt_iff_toNat_lt, toNat_byte h]

theorem byte_le (h : n < 256) : UInt8.ofNat n ≤ b
    ↔ n ≤ b.toNat := by
  rw [UInt8.le_iff_toNat_le, toNat_byte h]

theorem le_byte (h : n < 256) : b ≤ UInt8.ofNat n
    ↔ b.toNat ≤ n := by
  rw [UInt8.le_iff_toNat_le, toNat_byte h]

theorem low_byte (h : n < 256) (bits : Nat) :
    low (UInt8.ofNat n) bits = n % 2 ^ bits := by
  rw [low, toNat_byte h]

theorem isCont_byte (h : n < 64) : isCont
    (UInt8.ofNat (n + 128)) = true := by
  simp only [isCont, Bool.and_eq_true, decide_eq_true_eq]
  rw [byte_le (by omega), le_byte (by omega)]
  show 128 ≤ n + 128 ∧ n + 128 ≤ 191
  omega

theorem toNat_valid (c : Char) : c.toNat < 0xD800 ∨ 0xDFFF < c.toNat
    ∧ c.toNat < 0x110000 :=
  c.valid

theorem decodeFirst_one (h : v ≤ 0x7F) (rest : List UInt8) :
    decodeFirst (UInt8.ofNat v) rest = (Char.ofNat v, 1) := by
  have hb : UInt8.ofNat v < 0x80 := by
    rw [byte_lt (by omega)]
    show v < 128
    omega
  simp only [decodeFirst, hb, if_true]
  rw [toNat_byte (by omega)]

theorem decodeFirst_two (hlo : 0x7F < v) (hhi : v ≤ 0x7FF)
    (rest : List UInt8) :
    decodeFirst (UInt8.ofNat (v / 64 % 32 + 192)) (UInt8.ofNat (v % 64 + 128) :: rest)
      = (Char.ofNat v, 2) := by
  have hlead : v / 64 % 32 + 192 < 256 := by omega
  have hb1 : ¬ UInt8.ofNat (v / 64 % 32 + 192) < 0x80 := by
    rw [byte_lt hlead]
    show ¬ _ < 128
    omega
  have hb2 : 0xC2 ≤ UInt8.ofNat (v / 64 % 32 + 192)
      ∧ UInt8.ofNat (v / 64 % 32 + 192) ≤ 0xDF := by
    rw [byte_le hlead, le_byte hlead]
    show 194 ≤ _ ∧ _ ≤ 223
    omega
  have hc1 := isCont_byte (show v % 64 < 64 by omega)
  simp only [decodeFirst, hb1, hb2, hc1, if_false, if_true, and_self]
  rw [low_byte hlead, low_byte (by omega),
    show (v / 64 % 32 + 192) % 2 ^ 5 * 64 + (v % 64 + 128) % 2 ^ 6 = v by omega]

theorem decodeFirst_three (hlo : 0x7FF < v) (hhi : v ≤ 0xFFFF)
    (hsur : v < 0xD800 ∨ 0xDFFF < v) (rest : List UInt8) :
    decodeFirst (UInt8.ofNat (v / 4096 % 16 + 224))
        (UInt8.ofNat (v / 64 % 64 + 128) :: UInt8.ofNat (v % 64 + 128) :: rest)
      = (Char.ofNat v, 3) := by
  have hlead : v / 4096 % 16 + 224 < 256 := by omega
  have hnext : v / 64 % 64 + 128 < 256 := by omega
  have hb1 : ¬ UInt8.ofNat (v / 4096 % 16 + 224) < 0x80 := by
    rw [byte_lt hlead]
    show ¬ _ < 128
    omega
  have hb2 : ¬ (0xC2 ≤ UInt8.ofNat (v / 4096 % 16 + 224)
      ∧ UInt8.ofNat (v / 4096 % 16 + 224) ≤ 0xDF) := by
    rw [byte_le hlead, le_byte hlead]
    show ¬ (194 ≤ _ ∧ _ ≤ 223)
    omega
  have hb3 : 0xE0 ≤ UInt8.ofNat (v / 4096 % 16 + 224)
      ∧ UInt8.ofNat (v / 4096 % 16 + 224) ≤ 0xEF := by
    rw [byte_le hlead, le_byte hlead]
    show 224 ≤ _ ∧ _ ≤ 239
    omega
  -- neither overlong nor a surrogate
  have hc1 : second3 (UInt8.ofNat (v / 4096 % 16 + 224))
      (UInt8.ofNat (v / 64 % 64 + 128))
      = true := by
    simp only [second3, isCont, ← UInt8.toNat_inj, UInt8.le_iff_toNat_le,
      toNat_byte hlead, toNat_byte hnext, UInt8.reduceToNat]
    split
    · simp; omega
    · split
      · simp; omega
      · simp; omega
  have hc2 := isCont_byte (show v % 64 < 64 by omega)
  simp only [decodeFirst, hb1, hb2, hb3, hc1, hc2, if_false, if_true, and_self]
  rw [low_byte hlead, low_byte hnext, low_byte (by omega),
    show (v / 4096 % 16 + 224) % 2 ^ 4 * 4096 + (v / 64 % 64 + 128) % 2 ^ 6 * 64
      + (v % 64 + 128) % 2 ^ 6 = v by omega]

theorem decodeFirst_four (hlo : 0xFFFF < v) (hhi : v < 0x110000)
    (rest : List UInt8) :
    decodeFirst (UInt8.ofNat (v / 262144 % 8 + 240))
        (UInt8.ofNat (v / 4096 % 64 + 128) :: UInt8.ofNat (v / 64 % 64 + 128)
          :: UInt8.ofNat (v % 64 + 128) :: rest)
      = (Char.ofNat v, 4) := by
  have hlead : v / 262144 % 8 + 240 < 256 := by omega
  have hnext : v / 4096 % 64 + 128 < 256 := by omega
  have hb1 : ¬ UInt8.ofNat (v / 262144 % 8 + 240) < 0x80 := by
    rw [byte_lt hlead]
    show ¬ _ < 128
    omega
  have hb2 : ¬ (0xC2 ≤ UInt8.ofNat (v / 262144 % 8 + 240)
      ∧ UInt8.ofNat (v / 262144 % 8 + 240) ≤ 0xDF) := by
    rw [byte_le hlead, le_byte hlead]
    show ¬ (194 ≤ _ ∧ _ ≤ 223)
    omega
  have hb3 : ¬ (0xE0 ≤ UInt8.ofNat (v / 262144 % 8 + 240)
      ∧ UInt8.ofNat (v / 262144 % 8 + 240) ≤ 0xEF) := by
    rw [byte_le hlead, le_byte hlead]
    show ¬ (224 ≤ _ ∧ _ ≤ 239)
    omega
  have hb4 : 0xF0 ≤ UInt8.ofNat (v / 262144 % 8 + 240)
      ∧ UInt8.ofNat (v / 262144 % 8 + 240) ≤ 0xF4 := by
    rw [byte_le hlead, le_byte hlead]
    show 240 ≤ _ ∧ _ ≤ 244
    omega
  have hc1 : second4 (UInt8.ofNat (v / 262144 % 8 + 240))
      (UInt8.ofNat (v / 4096 % 64 + 128))
      = true := by
    simp only [second4, isCont, ← UInt8.toNat_inj, UInt8.le_iff_toNat_le,
      toNat_byte hlead, toNat_byte hnext, UInt8.reduceToNat]
    split
    · simp; omega
    · split
      · simp; omega
      · simp; omega
  have hc2 := isCont_byte (show v / 64 % 64 < 64 by omega)
  have hc3 := isCont_byte (show v % 64 < 64 by omega)
  simp only [decodeFirst, hb1, hb2, hb3, hb4, hc1, hc2, hc3, if_false, if_true,
    and_self]
  rw [low_byte hlead, low_byte hnext, low_byte (by omega), low_byte (by omega),
    show (v / 262144 % 8 + 240) % 2 ^ 3 * 262144
      + (v / 4096 % 64 + 128) % 2 ^ 6 * 4096
      + (v / 64 % 64 + 128) % 2 ^ 6 * 64 + (v % 64 + 128) % 2 ^ 6 = v by omega]

/-- A character's bytes decode to it, whatever follows. -/
theorem decodeFirst_encodeChar {c : Char} {tail : List UInt8}
    (h : String.utf8EncodeChar c = b :: tail) (rest : List UInt8) :
    decodeFirst b (tail ++ rest) = (c, tail.length + 1) := by
  have hvalid := toNat_valid c
  have hc : Char.ofNat c.val.toNat = c := Char.ofNat_toNat c
  rw [show c.toNat = c.val.toNat from rfl] at hvalid
  unfold String.utf8EncodeChar at h
  simp only at h
  split at h
  next h1 =>
    cases h
    rw [decodeFirst_one h1, hc]
    rfl
  next h1 =>
  split at h
  next h2 =>
    cases h
    rw [List.singleton_append, decodeFirst_two (Nat.lt_of_not_le h1) h2, hc]
    rfl
  next h2 =>
  split at h
  next h3 =>
    cases h
    rw [List.cons_append, List.singleton_append,
      decodeFirst_three (Nat.lt_of_not_le h2) h3 (by omega), hc]
    rfl
  next h3 =>
    cases h
    rw [List.cons_append, List.cons_append, List.singleton_append,
      decodeFirst_four (Nat.lt_of_not_le h3) (by omega), hc]
    rfl

theorem lossyFrom_skip : ∀ (rest : List UInt8) (skip : Nat),
    lossyFrom rest skip = lossyFrom (rest.drop skip) 0
  | [], 0 => rfl
  | [], _ + 1 => rfl
  | _ :: _, 0 => rfl
  | _ :: rest, skip + 1 => lossyFrom_skip rest skip

theorem lossyFrom_encodeChar (c : Char) (rest : List UInt8) :
    lossyFrom (String.utf8EncodeChar c ++ rest) 0 = c :: lossyFrom rest 0 := by
  cases henc : String.utf8EncodeChar c with
  | nil => exact absurd henc (by simp)
  | cons b tail =>
      rw [List.cons_append, lossyFrom, decodeFirst_encodeChar henc,
        Nat.add_sub_cancel, lossyFrom_skip, List.drop_left]

/-- Decoding what was encoded. -/
theorem fromUtf8Lossy_utf8Encode (text : List Char) :
    fromUtf8Lossy (utf8Encode text) = text := by
  induction text with
  | nil => rfl
  | cons c text ih =>
      rw [fromUtf8Lossy, utf8Encode_cons, lossyFrom_encodeChar]
      rw [fromUtf8Lossy] at ih
      rw [ih]

/-- A text whose bytes start another's starts the other. -/
theorem prefix_of_utf8Encode_prefix {t text : List Char}
    (h : utf8Encode t <+: utf8Encode text) :
    t <+: text := by
  induction t generalizing text with
  | nil => exact List.nil_prefix
  | cons c t ih =>
      obtain ⟨tail, htail⟩ := h
      rw [utf8Encode_cons, List.append_assoc] at htail
      -- decoding both sides, the other text starts with `c` too
      have hdec := lossyFrom_encodeChar c (utf8Encode t ++ tail)
      rw [htail] at hdec
      obtain ⟨rest, rfl⟩ : ∃ rest, text = c :: rest :=
        ⟨_, (fromUtf8Lossy_utf8Encode text).symm.trans hdec⟩
      rw [utf8Encode_cons] at htail
      exact List.cons_prefix_cons.2 ⟨rfl, ih ⟨tail, List.append_cancel_left htail⟩⟩

/-- Bytes before a text that ends another are a text's: no character starts
inside another one's bytes. -/
theorem text_before_suffix {pre : List UInt8} {s text : List Char}
    (h : utf8Encode text = pre ++ utf8Encode s) : ∃ p, pre = utf8Encode p := by
  induction text generalizing pre with
  | nil =>
      obtain ⟨rfl, -⟩ := List.append_eq_nil_iff.1 h.symm
      exact ⟨[], rfl⟩
  | cons c rest ih =>
      rw [utf8Encode_cons] at h
      rcases Nat.lt_or_ge pre.length (String.utf8EncodeChar c).length with hlt | hle
      · cases s with
        | nil =>
            rw [utf8Encode_nil, List.append_nil] at h
            exact ⟨c :: rest, h.symm⟩
        | cons d s =>
            -- the byte at the cut starts `d`, so it starts `c` too
            have hd : 0 < (String.utf8EncodeChar d).length := by simp [d.utf8Size_pos]
            have hbyte : (String.utf8EncodeChar c)[pre.length]
                = (String.utf8EncodeChar d)[0] := by
              have hat := congrArg (·[pre.length]?) h
              simp only [utf8Encode_cons] at hat
              rw [List.getElem?_append_left hlt,
                List.getElem?_append_right (Nat.le_refl _), Nat.sub_self,
                List.getElem?_append_left hd, List.getElem?_eq_getElem hlt,
                List.getElem?_eq_getElem hd] at hat
              exact Option.some.inj hat
            have hfirst := UInt8.isUTF8FirstByte_getElem_zero_utf8EncodeChar (c := d)
            rw [← hbyte, UInt8.isUTF8FirstByte_getElem_utf8EncodeChar] at hfirst
            exact ⟨[], List.eq_nil_of_length_eq_zero hfirst⟩
      · obtain ⟨more, rfl⟩ : ∃ more, pre = String.utf8EncodeChar c ++ more :=
          (List.prefix_of_prefix_length_le ⟨_, h⟩
            (List.prefix_append ..) hle).imp fun _ => Eq.symm
        rw [List.append_assoc] at h
        obtain ⟨p, rfl⟩ := ih (List.append_cancel_left h)
        exact ⟨c :: p, rfl⟩

end Minfer.Lib
