/-
`decode_bytes` after `encode` for the byte-level engine.

Between special tokens nothing is lost: the splitters tile the text, merging
keeps the characters, and the byte map is inverted. A special token is
written in plain text, and the decoder reads it through the inverse of the
byte map all the same, so a character the map uses for a byte comes out as
that byte.
-/
import Minfer.Tokenizer.Proofs.Pieces
import Minfer.Tokenizer.Proofs.Scan

namespace Minfer.Tokenize

open Minfer.Gguf (GgufKv)
open Minfer.Lib (utf8Encode utf8Encode_append bind_eq_ok toOption_eq_some)

-- ============================ byte map

variable {n : Nat} {env : Env} {text : Text}

theorem mem_printableBytes :
    n ∈ printableBytes ↔
      (0x21 ≤ n ∧ n ≤ 0x7e) ∨ (0xa1 ≤ n ∧ n ≤ 0xac) ∨ (0xae ≤ n ∧ n ≤ 0xff) := by
  simp only [printableBytes, List.mem_append, List.mem_range'_1]
  omega

/-- The bytes that do not stand for themselves. -/
def otherBytes : List Nat := (List.range 256).filter (· ∉ printableBytes)

theorem length_otherBytes : otherBytes.length = 68 := by
  have heq : otherBytes =
      (List.range 256).filter fun n => n < 0x21 ∨ (0x7e < n ∧ n < 0xa1)
          ∨ n = 0xad := by
    apply List.filter_congr
    intro n hn
    rw [decide_eq_decide, mem_printableBytes]
    have := List.mem_range.1 hn
    omega
  rw [heq]
  decide +kernel

theorem mem_otherBytes : n ∈ otherBytes
    ↔ n < 256 ∧ n ∉ printableBytes := by
  rw [otherBytes, List.mem_filter, List.mem_range, decide_eq_true_eq]

theorem find?_diagonal (l : List Nat) (p : Nat × Nat → Nat)
    (hp : ∀ b, p (b, b) = b) (n : Nat) :
    (l.map fun b => (b, b)).find? (fun e => p e = n) = if n ∈ l
      then some (n, n) else none := by
  induction l with
  | nil => rfl
  | cons b l ih =>
      rw [List.map_cons, List.find?_cons, ih, hp]
      by_cases hb : b = n
      · simp [hb]
      · simp [hb, Ne.symm hb]

/-- The code point of a shifted byte is 256 and its place. -/
theorem find?_shiftBytes_fst {b : Nat} {l : List Nat} (h : b ∈ l) (k : Nat) :
    ∃ i, l[i]? = some b ∧ (shiftBytes k l).find? (fun e => e.1 = b)
      = some (b, 256 + k + i) := by
  induction l generalizing k with
  | nil => cases h
  | cons a l ih =>
      rw [shiftBytes, List.find?_cons]
      by_cases ha : a = b
      · exact ⟨0, by rw [ha]; rfl, by simp [ha]⟩
      · obtain ⟨i, hi, hfind⟩ :=
          ih ((List.mem_cons.1 h).resolve_left (Ne.symm ha)) (k + 1)
        refine ⟨i + 1, hi, ?_⟩
        simp only [ha, decide_false, hfind]
        rw [show 256 + (k + 1) + i = 256 + k + (i + 1) by omega]

theorem find?_shiftBytes_snd (k n : Nat) (l : List Nat) :
    (shiftBytes k l).find? (fun e => e.2 = n)
      = if 256 + k ≤ n then l[n - (256 + k)]?.map (·, n) else none := by
  induction l generalizing k with
  | nil => simp [shiftBytes]
  | cons a l ih =>
      rw [shiftBytes, List.find?_cons, ih]
      rcases Nat.lt_trichotomy (256 + k) n with hlt | rfl | hgt
      · simp only [Nat.ne_of_lt hlt, decide_false]
        rw [if_pos (show 256 + (k + 1) ≤ n by omega), if_pos (Nat.le_of_lt hlt),
          show n - (256 + k) = n - (256 + (k + 1)) + 1 by
            omega, List.getElem?_cons_succ]
      · simp
      · simp only [Ne.symm (Nat.ne_of_lt hgt), decide_false]
        rw [if_neg (by omega), if_neg (by omega)]

/-- The inverse of the byte map: a byte that stands for itself, or the place of
a shifted one. -/
theorem unicodeToByte_eq (c : Char) :
    unicodeToByte c =
      if c.toNat ∈ printableBytes then some (UInt8.ofNat c.toNat)
      else if 256 ≤ c.toNat then otherBytes[c.toNat - 256]?.map UInt8.ofNat
      else none := by
  rw [unicodeToByte, buildByteToUnicode, List.find?_append,
    find?_diagonal _ _ (fun _ => rfl), ← otherBytes, find?_shiftBytes_snd]
  by_cases hp : c.toNat ∈ printableBytes
  · rw [if_pos hp, if_pos hp]
    rfl
  · rw [if_neg hp, if_neg hp, Option.none_or]
    split
    · rw [Option.map_map]
      rfl
    · rfl

theorem toNat_ofNat_of_lt (h : n < 0xD800) :
    (Char.ofNat n).toNat = n := by
  have hv : n.isValidChar := Or.inl h
  rw [Char.ofNat, dif_pos hv]
  rfl

theorem unicodeToByte_byteToUnicode (b : UInt8) : unicodeToByte
    (byteToUnicode b) = some b := by
  have hb := b.toNat_lt
  rw [byteToUnicode, buildByteToUnicode, List.find?_append,
    find?_diagonal _ _ (fun _ => rfl), ← otherBytes]
  by_cases hp : b.toNat ∈ printableBytes
  · rw [if_pos hp, Option.some_or]
    simp only [unicodeToByte_eq]
    rw [toNat_ofNat_of_lt (by omega), if_pos hp, UInt8.ofNat_toNat]
  · obtain ⟨i, hi, hfind⟩ := find?_shiftBytes_fst (mem_otherBytes.2 ⟨hb, hp⟩) 0
    have hlt := (List.getElem?_eq_some_iff.1 hi).1
    rw [length_otherBytes] at hlt
    have hn : ¬ 256 + 0 + i ∈ printableBytes := by
      rw [mem_printableBytes]
      omega
    rw [if_neg hp, Option.none_or, hfind]
    simp only [unicodeToByte_eq]
    rw [toNat_ofNat_of_lt (by omega), if_neg hn, if_pos (by omega),
      show 256 + 0 + i - 256 = i by omega, hi, Option.map_some, UInt8.ofNat_toNat]

/-- The characters outside ASCII that stand for a byte. -/
def Shifted (c : Char) : Prop := 0xA1 ≤ c.toNat ∧ c.toNat ≤ 0x143 ∧ c.toNat ≠ 0xAD

instance (c : Char) : Decidable (Shifted c) := inferInstanceAs (Decidable (_ ∧ _ ∧ _))

variable {c : Char} {ids : List Nat}

theorem unicodeToByte_of_shifted (h : Shifted c) :
    ∃ b, unicodeToByte c = some b := by
  obtain ⟨hlo, hhi, hne⟩ := h
  rw [unicodeToByte_eq]
  by_cases hp : c.toNat ∈ printableBytes
  · exact ⟨_, if_pos hp⟩
  · have hge : 256 ≤ c.toNat := by
      rw [mem_printableBytes] at hp
      omega
    have hlt : c.toNat - 256 < otherBytes.length := by
      rw [length_otherBytes]
      omega
    rw [if_neg hp, if_pos hge, List.getElem?_eq_getElem hlt]
    exact ⟨_, rfl⟩

theorem utf8EncodeChar_ascii (h : c.toNat ≤ 0x7f) :
    String.utf8EncodeChar c = [UInt8.ofNat c.toNat] := by
  unfold String.utf8EncodeChar
  exact if_pos h

/-- The other characters decode to themselves. -/
theorem decodeChar_of_not_shifted (h : ¬ Shifted c) :
    Tokenizer.decodeChar c = String.utf8EncodeChar c := by
  rw [Tokenizer.decodeChar, unicodeToByte_eq]
  unfold Shifted at h
  by_cases hp : c.toNat ∈ printableBytes
  · have hascii : c.toNat ≤ 0x7f := by
      rw [mem_printableBytes] at hp
      omega
    rw [if_pos hp, utf8EncodeChar_ascii hascii]
  · have hnone :
        (if 256 ≤ c.toNat then otherBytes[c.toNat - 256]?.map UInt8.ofNat
          else none)
        = none := by
      split
      · have hge : otherBytes.length ≤ c.toNat - 256 := by
          rw [length_otherBytes]
          omega
        rw [List.getElem?_eq_none hge]
        rfl
      · rfl
    rw [if_neg hp, hnone]

/-- A shifted character takes more than the byte it decodes to. -/
theorem decodeChar_of_shifted (h : Shifted c) :
    (Tokenizer.decodeChar c).length < (String.utf8EncodeChar c).length := by
  obtain ⟨b, hb⟩ := unicodeToByte_of_shifted h
  rw [Tokenizer.decodeChar, hb, List.length_singleton]
  unfold String.utf8EncodeChar
  have hlo : ¬ c.val.toNat ≤ 0x7f := by
    have : 0xA1 ≤ c.val.toNat := h.1
    omega
  simp only [if_neg hlo]
  repeat' split
  all_goals simp only [List.length_cons, List.length_nil]; omega

/-- What was decoded is what was encoded, or it is shorter; it is shorter just
when something was shifted. -/
def Decodes (out bytes : List UInt8) (shifted : Prop) : Prop :=
  (out = bytes ∧ ¬ shifted) ∨ (out.length < bytes.length ∧ shifted)

theorem Decodes.append {o₁ o₂ b₁ b₂ : List UInt8} {s₁ s₂ : Prop}
    (h₁ : Decodes o₁ b₁ s₁)
    (h₂ : Decodes o₂ b₂ s₂) : Decodes (o₁ ++ o₂) (b₁ ++ b₂) (s₁ ∨ s₂) := by
  rcases h₁ with ⟨rfl, hs₁⟩ | ⟨hlt₁, hs₁⟩
  · rcases h₂ with ⟨rfl, hs₂⟩ | ⟨hlt₂, hs₂⟩
    · exact Or.inl ⟨rfl, not_or.2 ⟨hs₁, hs₂⟩⟩
    · refine Or.inr ⟨?_, Or.inr hs₂⟩
      rw [List.length_append, List.length_append]
      omega
  · have hle : o₂.length ≤ b₂.length := by
      rcases h₂ with ⟨rfl, -⟩ | ⟨hlt, -⟩
      · exact Nat.le_refl _
      · exact Nat.le_of_lt hlt
    refine Or.inr ⟨?_, Or.inl hs₁⟩
    rw [List.length_append, List.length_append]
    omega

theorem Decodes.iff {out bytes : List UInt8} {shifted : Prop}
    (h : Decodes out bytes shifted) :
    out = bytes ↔ ¬ shifted := by
  rcases h with ⟨heq, hs⟩ | ⟨hlt, hs⟩
  · exact ⟨fun _ => hs, fun _ => heq⟩
  · refine ⟨fun heq => ?_, fun hn => absurd hs hn⟩
    rw [heq] at hlt
    exact absurd hlt (Nat.lt_irrefl _)

theorem decodes_char (c : Char) :
    Decodes (Tokenizer.decodeChar c) (String.utf8EncodeChar c) (Shifted c) := by
  by_cases hc : Shifted c
  · exact Or.inr ⟨decodeChar_of_shifted hc, hc⟩
  · exact Or.inl ⟨decodeChar_of_not_shifted hc, hc⟩

/-- A text read through the inverse byte map. -/
theorem decodes_text (text : Text) :
    Decodes (text.flatMap Tokenizer.decodeChar) (utf8Encode text)
      (∃ c ∈ text, Shifted c) := by
  induction text with
  | nil => exact Or.inl ⟨rfl, by simp⟩
  | cons c text ih =>
      rw [List.flatMap_cons, Minfer.Lib.utf8Encode_cons, List.exists_mem_cons_iff]
      exact (decodes_char c).append ih

theorem byteEncode_decode (text : Text) :
    (byteEncode text).flatMap Tokenizer.decodeChar = utf8Encode text := by
  rw [byteEncode]
  generalize utf8Encode text = bytes
  induction bytes with
  | nil => rfl
  | cons b bytes ih =>
      rw [List.map_cons, List.flatMap_cons, ih, Tokenizer.decodeChar,
        unicodeToByte_byteToUnicode, List.singleton_append]

-- ============================ segments

theorem flatMap_flatten {α β : Type} (f : α → List β) (l : List (List α)) :
    l.flatten.flatMap f = l.flatMap fun x => x.flatMap f := by
  rw [List.flatMap_def, List.map_flatten, List.flatten_flatten, List.map_map]
  rfl

/-- A loaded byte-level tokenizer: what the engine and the decoder read. -/
structure ByteLevel (tok : Tokenizer) : Prop where
  model : tok.model = .gpt2
  vocab : Spells tok.idToToken tok.vocab
  specials : Spells tok.idToToken tok.specialTokens

theorem byteLevel_of_load {kvs : List GgufKv} {tok : Tokenizer}
    (h : load kvs = .ok tok) (hmodel : tok.model = .gpt2) : ByteLevel tok := by
  obtain ⟨base, hbase, hfin⟩ := load_finish h
  have hbm : base.model = .gpt2 := (finish_model hfin).symm.trans hmodel
  have hvocab : Spells base.idToToken base.vocab := hbase.vocab ▸ vocabOf_spells _
  rw [finish, hbm] at hfin
  obtain ⟨pre, -, rfl | ⟨hdna, -⟩⟩ := loadBpe_ok hfin
  · exact ⟨hbm, hvocab, hbase.specials⟩
  · rw [hbm] at hdna
    cases hdna

variable {tok : Tokenizer}

theorem ByteLevel.tokenBytes (hb : ByteLevel tok) {id : Nat} {t : Text}
    (h : tok.idToToken[id]? = some t) :
    tok.tokenBytes id = t.flatMap Tokenizer.decodeChar := by
  unfold Tokenizer.tokenBytes
  rw [h]
  simp only [hb.model]

theorem ByteLevel.lookup (hb : ByteLevel tok) {t : Text} {id : Nat}
    (h : tok.vocab.get t = some id) :
    [id].flatMap tok.tokenBytes = t.flatMap Tokenizer.decodeChar := by
  rw [List.flatMap_singleton, hb.tokenBytes (hb.vocab.get h)]

theorem ByteLevel.byteFallback (hb : ByteLevel tok) {word : Text}
    (h : tok.byteFallback word = .ok ids) :
    ids.flatMap tok.tokenBytes = word.flatMap Tokenizer.decodeChar := by
  refine extendAll_flatMap (fun c ids h => ?_) h
  split at h
  next id hget =>
    obtain rfl := Except.ok.inj h
    rw [hb.lookup hget, List.flatMap_singleton]
  · cases h

theorem ByteLevel.wordTokens (hb : ByteLevel tok) {word : Text}
    (h : tok.wordTokens word = .ok ids) :
    ids.flatMap tok.tokenBytes = word.flatMap Tokenizer.decodeChar := by
  unfold Tokenizer.wordTokens at h
  split at h
  next id hget =>
    obtain rfl := Except.ok.inj h
    exact hb.lookup hget
  · exact hb.byteFallback h

theorem ByteLevel.bpeEncode (hb : ByteLevel tok) {token : Text}
    (h : tok.bpeEncode token = .ok ids) :
    ids.flatMap tok.tokenBytes = token.flatMap Tokenizer.decodeChar := by
  have hwords := extendAll_flatMap (fun word ids => hb.wordTokens) h
  rw [hwords, ← flatMap_flatten, mergedWords_flatten]

theorem ByteLevel.encodePiece (hb : ByteLevel tok) {piece : Text}
    (h : tok.encodePiece piece = .ok ids) :
    ids.flatMap tok.tokenBytes = utf8Encode piece := by
  unfold Tokenizer.encodePiece at h
  simp only at h
  rw [← byteEncode_decode piece]
  split at h
  next id hget =>
    obtain rfl := Except.ok.inj h
    split at hget
    · exact hb.lookup hget
    · cases hget
  · exact hb.bpeEncode h

/-- A segment between special tokens decodes to its bytes. -/
theorem ByteLevel.encodeText (hb : ByteLevel tok)
    (hpre : tok.pre ≠ some .whitespace)
    (h : tok.encodeText env text true = .ok ids) :
    ids.flatMap tok.tokenBytes = utf8Encode text := by
  unfold Tokenizer.encodeText at h
  split at h
  next h0 =>
    obtain rfl := Except.ok.inj h
    rw [h0]
    rfl
  · simp only [hb.model, Tokenizer.encodeBpe] at h
    split at h
    · cases h
    next pre hsome =>
      have hp : pre ≠ .whitespace := fun hp => hpre (by rw [hsome, hp])
      have hpieces := extendAll_flatMap (fun piece ids => hb.encodePiece) h
      have hflat :=
        flatMap_flatten String.utf8EncodeChar
        (pre.split env.unicode.classes text)
      rw [split_flatten _ hp] at hflat
      exact hpieces.trans hflat.symm

-- ================================ runs

/-- A run of `encode` loses something just when a special token with a shifted
character occurs. -/
theorem ByteLevel.encodeLoop (hb : ByteLevel tok)
    (hpre : tok.pre ≠ some .whitespace) {fuel : Nat}
    (h : tok.encodeLoop env fuel text = .ok ids) :
    Decodes (tok.decodeBytes ids) (utf8Encode text)
      (∃ pat, Occurs tok.specialTokens text pat ∧ ∃ c ∈ pat, Shifted c) := by
  induction fuel generalizing text ids with
  | zero => cases h
  | succ fuel ih =>
      match hfind : tok.findSpecial text with
      | none =>
          rw [Tokenizer.encodeLoop, hfind] at h
          refine Or.inl ⟨hb.encodeText hpre h, ?_⟩
          rintro ⟨pat, hocc, -⟩
          exact not_occurs_of_findSpecial_none hfind hocc
      | some (before, pat, id) =>
          have hne := pat_ne_nil_of_ok h hfind
          rw [Tokenizer.encodeLoop, hfind] at h
          obtain ⟨head, hhead, h⟩ := bind_eq_ok.1 h
          obtain ⟨rest, hrest, h⟩ := bind_eq_ok.1 h
          obtain rfl := Except.ok.inj h
          obtain ⟨hmem, ⟨tail, rfl⟩, -, -⟩ := findSpecial_some hfind
          have hdrop : (before ++ (pat ++ tail)).drop
              (before.length + pat.length) = tail := by
            rw [← List.append_assoc, ← List.length_append, List.drop_left]
          have hocc : (∃ p, Occurs tok.specialTokens (before ++ (pat ++ tail)) p
                ∧ ∃ c ∈ p, Shifted c) ↔
              (∃ c ∈ pat, Shifted c)
                ∨ ∃ p, Occurs tok.specialTokens tail p ∧ ∃ c ∈ p, Shifted c := by
            simp only [occurs_iff hfind hne, hdrop, or_and_right, exists_or,
              exists_eq_left]
          have hdec : tok.decodeBytes (head ++ id :: rest) =
              utf8Encode before
                  ++ (pat.flatMap Tokenizer.decodeChar
                    ++ tok.decodeBytes rest) := by
            rw [Tokenizer.decodeBytes, List.flatMap_append, List.flatMap_cons,
              hb.encodeText hpre hhead, hb.tokenBytes (hb.specials _ hmem)]
            rfl
          rw [hdrop] at hrest
          rw [hdec, utf8Encode_append, utf8Encode_append, hocc]
          -- what stands before the token is exact; the token and the rest may
          -- lose
          have hbefore : Decodes (utf8Encode before) (utf8Encode before) False :=
            Or.inl ⟨rfl, not_false⟩
          have hall := hbefore.append ((decodes_text pat).append (ih hrest))
          rwa [false_or] at hall

/-- Decoding what was encoded gives the normalized text back just when no
special token of the text holds a character of the byte map outside ASCII. -/
theorem decode_encode_iff {kvs : List GgufKv} (hload : load kvs = .ok tok)
    (hmodel : tok.model = .gpt2) (hpre : tok.pre ≠ some .whitespace)
    (henc : tok.Encodes env text ids) :
    tok.decodeBytes ids = utf8Encode (tok.normalized env text) ↔
      ∀ pat, Occurs tok.specialTokens (tok.normalized env text) pat →
        ∀ c ∈ pat, ¬ Shifted c := by
  obtain ⟨fuel, hrun⟩ := henc
  rw [((byteLevel_of_load hload hmodel).encodeLoop hpre hrun).iff]
  constructor
  · exact fun h pat hocc c hc hs => h ⟨pat, hocc, c, hc, hs⟩
  · rintro h ⟨pat, hocc, c, hc, hs⟩
    exact h pat hocc c hc hs

-- ============================ examples

/-- The Unicode tables as they are on ASCII. -/
def asciiUnicode : Unicode where
  classes := ⟨Char.isAlpha, Char.isDigit, fun _ => false⟩
  isControl c := c.toNat < 32 || c.toNat = 127
  isPunctuation c := "!\"#%&'()*,-./:;?@[\\]_\x7b\x7d".toList.contains c
  isNonspacingMark _ := false
  toLowercase c := [c.toLower]
  nfc text := text
  nfd text := text

def asciiEnv : Env := ⟨asciiUnicode, fun _ => 0⟩

/-- A string under a key. -/
def stringKv (key value : String) : GgufKv :=
  ⟨key.toList, false, .string, [], [value.toList]⟩

/-- Strings under a key. -/
def stringsKv (key : String) (values : List String) : GgufKv :=
  ⟨key.toList, true, .string, [], values.map String.toList⟩

/-- Token types. -/
def typesKv (types : List UInt8) : GgufKv :=
  ⟨"tokenizer.ggml.token_type".toList, true, .int32,
    types.flatMap fun t => [t, 0, 0, 0], []⟩

def accentTokens : List String := ["é", "©", "a", "<s>", "s", ">"]

/-- A byte-level vocabulary with the special tokens `é` and `<s>`. -/
def accentKvs : List GgufKv :=
  [stringKv "tokenizer.ggml.model" "gpt2",
   stringKv "tokenizer.ggml.pre" "llama-bpe",
   stringsKv "tokenizer.ggml.tokens" accentTokens, typesKv [3, 1, 1, 3, 1, 1],
   stringsKv "tokenizer.ggml.merges" ["a b"]]

def accentBase : Tokenizer where
  idToToken := accentTokens.map String.toList
  idToScore := List.replicate accentTokens.length 0
  idToType := [3, 1, 1, 3, 1, 1]
  vocab := vocabOf (accentTokens.map String.toList)
  merges := mergesOf ["a b".toList]
  specialTokens := [("<s>".toList, 3), ("é".toList, 0)]
  model := .gpt2

def accentTokenizer : Tokenizer :=
  { accentBase with pre := some .llamaBpe, ignoreMerges :=
    PreTokenizer.llamaBpe.ignoresMerges }

theorem accent_load : load accentKvs = .ok accentTokenizer := by
  have htokens : arrayVals accentKvs "tokenizer.ggml.tokens" .string valStr
      = .ok (accentTokens.map String.toList) := by rfl
  have hscores : arrayVals accentKvs "tokenizer.ggml.scores" .float32 valF32
    = .ok [] := by rfl
  have htypes : arrayVals accentKvs "tokenizer.ggml.token_type" .int32 valI32
      = .ok [3, 1, 1, 3, 1, 1] := by rfl
  have hmerges : arrayVals accentKvs "tokenizer.ggml.merges" .string valStr
      = .ok ["a b".toList] := by rfl
  have hspecials : addRoles accentKvs (accentTokens.map String.toList) specialRoleKeys
      (declaredSpecials (accentTokens.map String.toList) [3, 1, 1, 3, 1, 1])
      = .ok accentBase.specialTokens := toOption_eq_some (by decide +kernel)
  have hmodel : getGgufStr accentKvs "tokenizer.ggml.model"
    = .ok (some "gpt2") := by rfl
  have hpre : getGgufStr accentKvs "tokenizer.ggml.pre"
    = .ok (some "llama-bpe") := by rfl
  have hreach : reachableBytes accentBase.idToToken accentBase.vocab = [] :=
    reachableBytes_eq_nil.2 (by decide +kernel)
  have hbase : load accentKvs = finish accentKvs accentBase :=
    load_eq_finish htokens hscores htypes nofun hmerges hspecials hmodel rfl
  have hmergesNe : accentBase.merges ≠ [] := by decide +kernel
  have hbpe : loadBpe accentKvs accentBase = .ok accentTokenizer :=
    loadBpe_eq hpre rfl hmergesNe hreach nofun
  exact hbase.trans hbpe

theorem accent_encodes : accentTokenizer.Encodes asciiEnv "é".toList [0] :=
  ⟨2, toOption_eq_some (by decide +kernel)⟩

theorem start_encodes : accentTokenizer.Encodes asciiEnv "<s>a".toList [3, 2] :=
  ⟨2, toOption_eq_some (by decide +kernel)⟩

/-- The special token `é` decodes to one byte, which is not UTF-8. -/
theorem accent_lost :
    ¬ ∀ (kvs : List GgufKv) (tok : Tokenizer) (env : Env) (text : Text)
      (ids : List Nat),
      load kvs = .ok tok → tok.model = .gpt2 → tok.pre ≠ some .whitespace →
      tok.Encodes env text ids →
      tok.decodeBytes ids = utf8Encode (tok.normalized env text) := by
  intro h
  have heq := h accentKvs accentTokenizer asciiEnv _ _ accent_load rfl nofun
    accent_encodes
  exact absurd heq (by decide +kernel)

/-- The special token `<s>` is kept. -/
theorem start_kept :
    accentTokenizer.decodeBytes [3, 2] = utf8Encode "<s>a".toList
      ∧ ∀ pat, Occurs accentTokenizer.specialTokens "<s>a".toList pat →
        ∀ c ∈ pat, ¬ Shifted c := by
  have hkept : accentTokenizer.decodeBytes [3, 2]
    = utf8Encode "<s>a".toList := by decide +kernel
  exact ⟨hkept, (decode_encode_iff accent_load rfl nofun start_encodes).1 hkept⟩

end Minfer.Tokenize
