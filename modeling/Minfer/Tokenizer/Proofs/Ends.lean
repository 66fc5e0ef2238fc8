/-
When a segment is encoded: the byte-level engines, Gemma-4, HybridDNA and
WordPiece.

A byte-level word that is no entry is emitted character by character, and a
character without a token ends the call. The other three have a token for
whatever is left.
-/
import Minfer.Tokenizer.Proofs.Vocab

namespace Minfer.Tokenize

open Minfer.Lib (utf8Encode)

-- =========================== returning

/-- A call returns, with ids below a size. -/
def Ends (size : Nat) (r : Except Stop (List Nat)) : Prop :=
  ∃ ids, r = .ok ids ∧ ∀ id ∈ ids, id < size

variable {size : Nat}

theorem ends_ok {ids : List Nat} : Ends size (.ok ids)
    ↔ ∀ id ∈ ids, id < size := by
  constructor
  · rintro ⟨ids', h, hids⟩
    cases h
    exact hids
  · exact fun h => ⟨ids, rfl, h⟩

theorem not_ends_error {stop : Stop} : ¬ Ends size
    (.error stop) := by
  rintro ⟨ids, h, -⟩
  cases h

theorem ends_singleton {id : Nat} (h : id < size) :
    Ends size (.ok [id]) := by
  rw [ends_ok]
  intro k hk
  rwa [List.mem_singleton.1 hk]

theorem ends_nil (size : Nat) : Ends size (.ok []) :=
  ends_ok.2 fun _ h => absurd h List.not_mem_nil

/-- A call whose continuation keeps its ids. -/
theorem ends_bind {x : Except Stop (List Nat)}
    {f : List Nat → Except Stop (List Nat)} {P : Prop}
    (hf : ∀ a, Ends size (f a) ↔ (∀ id ∈ a, id < size) ∧ P) :
    Ends size (x >>= f) ↔ Ends size x ∧ P := by
  match x with
  | .error e =>
      exact ⟨fun h => absurd h not_ends_error, fun h =>
        absurd h.1 not_ends_error⟩
  | .ok a => exact (hf a).trans (and_congr_left' ends_ok.symm)

/-- Two calls in a row return when both do. -/
theorem ends_append {x y : Except Stop (List Nat)} :
    Ends size (do let a ← x; return a ++ (← y)) ↔ Ends size x ∧ Ends size y := by
  refine ends_bind fun a => ?_
  match y with
  | .error e =>
      exact ⟨fun h => absurd h not_ends_error, fun h =>
        absurd h.2 not_ends_error⟩
  | .ok b =>
      rw [ends_ok]
      exact ends_ok.trans List.forall_mem_append

/-- A loop returns when every call in it does. -/
theorem ends_extendAll {α : Type} {f : α → Except Stop (List Nat)}
    {xs : List α} :
    Ends size (extendAll f xs) ↔ ∀ x ∈ xs, Ends size (f x) := by
  induction xs with
  | nil => exact ⟨fun _ _ h => absurd h List.not_mem_nil, fun _ => ends_nil size⟩
  | cons x xs ih =>
      rw [extendAll, ends_append, ih, List.forall_mem_cons]

-- ============================== tables

/-- The ids of a table are below a size. -/
def Within {κ : Type} [DecidableEq κ] (size : Nat) (m : Map κ Nat) : Prop :=
  ∀ k id, m.get k = some id → id < size

/-- A lookup that must succeed returns where the table has the key. -/
theorem ends_get {κ : Type} [DecidableEq κ] {m : Map κ Nat}
    (hm : Within size m) {k : κ} {stop : Stop} :
    Ends size (match m.get k with
      | some id => .ok [id]
      | none => .error stop) ↔ m.containsKey k = true := by
  rw [Map.containsKey]
  cases hget : m.get k with
  | some id => exact ⟨fun _ => rfl, fun _ => ends_singleton (hm k id hget)⟩
  | none => exact ⟨fun h => absurd h not_ends_error, fun h => by cases h⟩

theorem Spells.within {tokens : List Text} {m : Map Text Nat} (h : Spells tokens m) :
    Within tokens.length m := fun _ _ hget => h.lt hget

/-- A table whose entries are below a size. -/
theorem within_of_mem {κ : Type} [DecidableEq κ] {m : Map κ Nat}
    (h : ∀ p ∈ m, p.2 < size) : Within size m :=
  fun _ _ hget => h _ (Map.mem_of_get hget)

/-- The byte table has ids of the vocabulary. -/
theorem spmBytes_within (tokens : List Text) (types : List Int) :
    Within tokens.length (spmBytes tokens types) := by
  apply within_of_mem
  refine foldl_enumerate (P := fun m : Map UInt8 Nat => ∀ p ∈ m, p.2 < tokens.length)
    (fun _ hp => absurd hp List.not_mem_nil) fun m p hp hm => ?_
  have hlt := (List.getElem?_eq_some_iff.1 hp).1
  split
  · exact hm
  · split
    · intro q hq
      rcases Map.mem_insert hq with rfl | hq
      · exact hlt
      · exact hm q hq
    · exact hm

namespace Tokenizer

variable {tok : Tokenizer} {size : Nat}

/-- A full byte table gives every byte a token. -/
theorem ends_spmByteTokens (hbytes : Within size tok.spmByteToId)
    (hall : ∀ b, tok.spmByteToId.containsKey b = true) (bytes : List UInt8) :
    Ends size (tok.spmByteTokens bytes) :=
  ends_extendAll.2 fun b _ => (ends_get hbytes).2 (hall b)

-- ========================== byte level

variable (tok) in
/-- A word the byte-level engine has tokens for: an entry, or characters that
each are one. -/
def WordCovered (word : Text) : Prop :=
  tok.vocab.containsKey word = true ∨ ∀ c ∈ word, tok.vocab.containsKey [c] = true

variable (tok) in
/-- A piece the byte-level engine has tokens for: an entry that skips the
merges, or words that are covered once the merges are done. -/
def PieceCovered (piece : Text) : Prop :=
  (tok.ignoreMerges = true ∧ tok.vocab.containsKey (byteEncode piece) = true)
    ∨ ∀ word ∈ mergedWords tok.merges (byteEncode piece), tok.WordCovered word

variable (tok) in
/-- A text the byte-level engine has tokens for. -/
def TextCovered (cls : Classes) (text : Text) : Prop :=
  ∀ pre, tok.pre = some pre → ∀ piece ∈ pre.split cls text, tok.PieceCovered piece

/-- A word returns exactly where it is covered. -/
theorem ends_wordTokens (hvocab : Within size tok.vocab) {word : Text} :
    Ends size (tok.wordTokens word) ↔ tok.WordCovered word := by
  unfold wordTokens WordCovered
  cases hget : tok.vocab.get word with
  | some id =>
      have hkey : tok.vocab.containsKey word = true :=
        Map.containsKey_iff.2 ⟨id, hget⟩
      exact ⟨fun _ => Or.inl hkey, fun _ => ends_singleton (hvocab word id hget)⟩
  | none =>
      have hkey : ¬ tok.vocab.containsKey word = true := by
        simp [Map.containsKey, hget]
      rw [or_iff_right hkey]
      exact ends_extendAll.trans (forall₂_congr fun c _ => ends_get hvocab)

/-- So does a token, where its merged words are. -/
theorem ends_bpeEncode (hvocab : Within size tok.vocab) {token : Text} :
    Ends size (tok.bpeEncode token)
      ↔ ∀ word ∈ mergedWords tok.merges token, tok.WordCovered word :=
  ends_extendAll.trans (forall₂_congr fun _ _ => ends_wordTokens hvocab)

/-- So does a piece. -/
theorem ends_encodePiece (hvocab : Within size tok.vocab) {piece : Text} :
    Ends size (tok.encodePiece piece) ↔ tok.PieceCovered piece := by
  unfold encodePiece PieceCovered
  simp only
  by_cases hig : tok.ignoreMerges = true
  · rw [if_pos hig]
    cases hget : tok.vocab.get (byteEncode piece) with
    | some id =>
        have hkey : tok.vocab.containsKey (byteEncode piece) = true :=
          Map.containsKey_iff.2 ⟨id, hget⟩
        exact ⟨fun _ => Or.inl ⟨hig, hkey⟩, fun _ =>
          ends_singleton (hvocab _ id hget)⟩
    | none =>
        have hkey : ¬ tok.vocab.containsKey (byteEncode piece) = true := by
          simp [Map.containsKey, hget]
        rw [or_iff_right fun h => hkey h.2]
        exact ends_bpeEncode hvocab
  · rw [if_neg hig, or_iff_right fun h => hig h.1]
    exact ends_bpeEncode hvocab

variable {cls : Classes} {text : Text}

/-- So does a text. -/
theorem ends_encodeBpe (hvocab : Within size tok.vocab) (hpre : tok.pre ≠ none) :
    Ends size (tok.encodeBpe cls text)
      ↔ tok.TextCovered cls text := by
  unfold encodeBpe TextCovered
  match tok.pre, hpre with
  | some pre, _ =>
      simp only [Option.some.injEq, forall_eq']
      exact ends_extendAll.trans (forall₂_congr fun _ _ => ends_encodePiece hvocab)

-- ============================= Gemma-4

/-- With all byte tokens every piece returns. -/
theorem ends_bpeEncodeRaw (hvocab : Within size tok.vocab)
    (hbytes : Within size tok.spmByteToId)
    (hall : ∀ b, tok.spmByteToId.containsKey b = true) (piece : Text) :
    Ends size (tok.bpeEncodeRaw piece) := by
  refine ends_extendAll.2 fun word _ => ?_
  unfold rawWordTokens
  cases hget : tok.vocab.get word with
  | some id => exact ends_singleton (hvocab word id hget)
  | none => exact ends_spmByteTokens hbytes hall _

/-- And so does every text. -/
theorem ends_gemma4Encode (hvocab : Within size tok.vocab)
    (hbytes : Within size tok.spmByteToId)
    (hall : ∀ b, tok.spmByteToId.containsKey b = true) (hpre : tok.pre ≠ none)
    (cls : Classes) (text : Text) : Ends size (tok.gemma4Encode cls text) := by
  unfold gemma4Encode
  match tok.pre, hpre with
  | some pre, _ =>
      refine ends_extendAll.2 fun piece _ => ?_
      unfold gemma4Piece
      split
      next id hget =>
        split at hget
        · exact ends_singleton (hvocab _ id hget)
        · cases hget
      · exact ends_bpeEncodeRaw hvocab hbytes hall piece

-- =========================== HybridDNA

/-- The k-mer ids of a table are below a size. -/
structure DnaData.Within (size : Nat) (dna : DnaData) : Prop where
  start : dna.start < size
  end_ : dna.end_ < size
  oov : dna.oov < size
  kmers : Minfer.Tokenize.Within size dna.kmers

/-- A k-mer's id is below the size. -/
theorem kmerId_lt {dna : DnaData} (h : DnaData.Within size dna) (kmer : Text) :
    kmerId dna kmer < size := by
  unfold kmerId
  match hget : dna.kmers.get kmer with
  | some id => exact h.kmers kmer id hget
  | none => exact h.oov

/-- So are the ids of a block. -/
theorem kmerLoop_lt {dna : DnaData} (h : DnaData.Within size dna) {fuel : Nat}
    {seq : List UInt8} :
    ∀ id ∈ kmerLoop dna fuel seq, id < size := by
  induction fuel generalizing seq with
  | zero => exact fun _ hid => absurd hid List.not_mem_nil
  | succ fuel ih =>
      rw [kmerLoop]
      split
      · exact List.forall_mem_cons.2 ⟨kmerId_lt h _, ih⟩
      · split
        · exact fun _ hid => absurd hid List.not_mem_nil
        · exact List.forall_mem_singleton.2 (kmerId_lt h _)

/-- The parts of a text outside its `<dna>` blocks. -/
def plainParts : Nat → Text → List Text
  | 0, _ => []
  | fuel + 1, text =>
      match splitFirst "<dna>".toList text with
      | none => [text]
      | some (before, inside) =>
          match splitFirst "</dna>".toList inside with
          | some (_, after) => before :: plainParts fuel after
          | none => [before]

/-- A split loses nothing but the separator. -/
theorem splitFirst_length {pat before after : Text}
    (h : splitFirst pat text = some (before, after)) :
    before.length + pat.length + after.length = text.length := by
  induction text generalizing before with
  | nil =>
      rw [splitFirst] at h
      split at h
      next hpat =>
        cases h
        rw [hpat]
        rfl
      · cases h
  | cons c rest ih =>
      rw [splitFirst] at h
      split at h
      next hpre =>
        cases h
        have := (List.isPrefixOf_iff_prefix.1 hpre).length_le
        rw [List.length_drop, List.length_nil]
        omega
      · obtain ⟨⟨before', after'⟩, hrest, heq⟩ := Option.map_eq_some_iff.1 h
        cases heq
        have hlen := ih hrest
        simp only [List.length_cons] at hlen ⊢
        omega

theorem textCovered_nil (cls : Classes) : tok.TextCovered cls [] := by
  intro pre _ piece hpiece
  have hsplit : pre.split cls [] = [] := by cases pre <;> rfl
  rw [hsplit] at hpiece
  cases hpiece

/-- The text before a block returns where it is covered. -/
theorem ends_encodeBefore (hvocab : Within size tok.vocab)
    (hpre : tok.pre ≠ none) :
    Ends size (tok.encodeBefore cls text) ↔ tok.TextCovered cls text := by
  unfold encodeBefore
  split
  next h0 => exact ⟨fun _ => h0 ▸ textCovered_nil cls, fun _ => ends_nil size⟩
  · exact ends_encodeBpe hvocab hpre

/-- HybridDNA: only what stands outside the blocks can fail. -/
theorem ends_hybriddnaLoop (hvocab : Within size tok.vocab)
    (hpre : tok.pre ≠ none) {dna : DnaData} (hdna : DnaData.Within size dna)
    {fuel : Nat} (hfuel : text.length < fuel) :
    Ends size (tok.hybriddnaLoop cls dna fuel text) ↔
      ∀ part ∈ plainParts fuel text, tok.TextCovered cls part := by
  induction fuel generalizing text with
  | zero => omega
  | succ fuel ih =>
      rw [hybriddnaLoop, plainParts]
      by_cases h0 : text = []
      · rw [if_pos h0, h0]
        exact ⟨fun _ => List.forall_mem_singleton.2 (textCovered_nil cls),
          fun _ => ends_nil size⟩
      · rw [if_neg h0]
        match hsplit : splitFirst "<dna>".toList text with
        | none =>
            exact (ends_encodeBpe hvocab hpre).trans
              List.forall_mem_singleton.symm
        | some (before, inside) =>
            have hlen := splitFirst_length hsplit
            have hblock (raw : Text) : ∀ id
                ∈ dna.start :: hybriddnaKmers dna raw, id < size :=
              List.forall_mem_cons.2 ⟨hdna.start, kmerLoop_lt hdna⟩
            simp only
            match hend : splitFirst "</dna>".toList inside with
            | none =>
                rw [List.forall_mem_singleton, ← ends_encodeBefore hvocab hpre]
                refine Iff.trans (ends_bind fun head => ?_)
                  (and_iff_left (hblock inside))
                exact ends_ok.trans List.forall_mem_append
            | some (block, after) =>
                have hlen' := splitFirst_length hend
                have hpos : 0 < "<dna>".toList.length := by decide
                have hafter := ih (show after.length < fuel by omega)
                rw [List.forall_mem_cons, ← ends_encodeBefore hvocab hpre, ← hafter]
                refine ends_bind fun head => ?_
                simp only
                match tok.hybriddnaLoop cls dna fuel after with
                | .error e =>
                    exact ⟨fun h => absurd h not_ends_error,
                      fun h => absurd h.2 not_ends_error⟩
                | .ok rest =>
                    rw [ends_ok]
                    refine ends_ok.trans (List.forall_mem_append.trans ?_)
                    rw [List.forall_mem_append, and_iff_left (hblock block),
                      List.forall_mem_cons, and_iff_right hdna.end_]

/-- The parts `hybriddna_encode` hands to the byte-level engine. -/
def dnaParts (tok : Tokenizer) (text : Text) : List Text :=
  match tok.dna with
  | none => [text]
  | some _ => plainParts (text.length + 1) text

/-- A text returns where its parts outside the blocks are covered. -/
theorem ends_hybriddnaEncode (hvocab : Within size tok.vocab) (hpre : tok.pre ≠ none)
    (hdna : ∀ dna, tok.dna = some dna → DnaData.Within size dna) :
    Ends size (tok.hybriddnaEncode cls text) ↔
      ∀ part ∈ tok.dnaParts text, tok.TextCovered cls part := by
  unfold hybriddnaEncode dnaParts
  match tok.dna, hdna with
  | none, _ => exact (ends_encodeBpe hvocab hpre).trans List.forall_mem_singleton.symm
  | some dna, hdna =>
      exact ends_hybriddnaLoop hvocab hpre (hdna dna rfl) (Nat.lt_succ_self _)

-- =========================== WordPiece

/-- A word piece's id is below the size. -/
theorem wpmMatch_lt (hvocab : Within size tok.vocab) {k : Nat}
    {p : Nat × Nat} (h : tok.wpmMatch text k = some p) : p.1 < size := by
  induction k with
  | zero => cases h
  | succ k ih =>
      rw [wpmMatch] at h
      split at h
      next id hget =>
        obtain rfl := Option.some.inj h
        split at hget
        · exact hvocab _ _ hget
        · cases hget
      · exact ih h

/-- So are those of a word. -/
theorem wpmWord_lt (hvocab : Within size tok.vocab) {fuel : Nat} {word : Text}
    {ids : List Nat}
    (h : tok.wpmWord fuel word = some ids) : ∀ id ∈ ids, id < size := by
  induction fuel generalizing word ids with
  | zero =>
      match word with
      | [] =>
          obtain rfl := Option.some.inj h
          exact fun _ hid => absurd hid List.not_mem_nil
      | c :: rest => cases h
  | succ fuel ih =>
      match word with
      | [] =>
          obtain rfl := Option.some.inj h
          exact fun _ hid => absurd hid List.not_mem_nil
      | c :: rest =>
          rw [wpmWord] at h
          split at h
          · cases h
          next id k hmatch =>
            obtain ⟨ids', hrest, rfl⟩ := Option.map_eq_some_iff.1 h
            exact List.forall_mem_cons.2 ⟨wpmMatch_lt hvocab hmatch, ih hrest⟩

/-- So are those of a text. -/
theorem wpmEncode_lt (hvocab : Within size tok.vocab)
    (hunk : tok.unkToken < size) (u : Unicode)
    (text : Text) : ∀ id ∈ tok.wpmEncode u text, id < size := by
  intro id hid
  obtain ⟨word, -, hid⟩ := List.mem_flatMap.1 hid
  split at hid
  · cases hid
  · split at hid
    next ids hword => exact wpmWord_lt hvocab hword id hid
    · rwa [List.mem_singleton.1 hid]

end Tokenizer

end Minfer.Tokenize
