/-
When `encode` returns on a vocabulary `load` accepted.

The scan cuts the text at its special tokens and the engine encodes what is
left between them. Three things can stop a call: the empty text declared a
special token, which the scan finds at a NUL and never gets past; a
byte-level word without tokens, which the byte check let through; and a
charsmap match that ends inside a character.
-/
import Minfer.Tokenizer.Proofs.Decode
import Minfer.Tokenizer.Proofs.Spm
import Minfer.Tokenizer.Proofs.Trie

namespace Minfer.Tokenize

open Minfer.Lib (utf8Encode bind_eq_ok)
open Minfer.Gguf (GgufKv)

def nul : Char := Char.ofNat 0

-- ============================ segments

/-- The segments of a text between its special tokens. -/
inductive Segment (specials : Map Text Nat) : Text → Text → Prop
  | last {text : Text} : (∀ i, ¬ Starts specials (text.drop i)) →
    Segment specials text text
  | before {text : Text} {at_ : Nat} {pat : Text} :
      First specials text at_ pat → Segment specials text (text.take at_)
  | after {text : Text} {at_ : Nat} {pat seg : Text} :
      First specials text at_ pat →
        Segment specials (text.drop (at_ + pat.length)) seg →
      Segment specials text seg

variable {tok : Tokenizer}
variable {text before : Text} {id : Nat}

theorem not_first_of_findSpecial_none (h : tok.findSpecial text = none)
    {at_ : Nat} {pat : Text} : ¬ First tok.specialTokens text at_ pat := by
  intro hf
  obtain ⟨id, hmem⟩ := hf.mem
  exact findSpecial_none h at_ ⟨_, hmem, hf.ne, hf.starts⟩

theorem segment_of_none {seg : Text} (h : tok.findSpecial text = none) :
    Segment tok.specialTokens text seg ↔ seg = text := by
  constructor
  · intro hseg
    cases hseg with
    | last => rfl
    | before hf => exact absurd hf (not_first_of_findSpecial_none h)
    | after hf => exact absurd hf (not_first_of_findSpecial_none h)
  · rintro rfl
    exact .last (findSpecial_none h)

theorem segment_of_some {pat seg : Text}
    (h : tok.findSpecial text = some (before, pat, id)) (hne : pat ≠ []) :
    Segment tok.specialTokens text seg ↔
      seg = before
        ∨ Segment tok.specialTokens (text.drop (before.length + pat.length))
        seg := by
  have hfirst := findSpecial_first h hne
  obtain ⟨-, ⟨rest, hrest⟩, -, -⟩ := findSpecial_some h
  have htake : text.take before.length = before := by rw [hrest, List.take_left]
  constructor
  · intro hseg
    cases hseg with
    | last hnone =>
        obtain ⟨k, hmem⟩ := hfirst.mem
        exact absurd ⟨_, hmem, hfirst.ne, hfirst.starts⟩ (hnone before.length)
    | before hf =>
        obtain ⟨rfl, rfl⟩ := hf.unique hfirst
        exact Or.inl htake
    | after hf hseg =>
        obtain ⟨rfl, rfl⟩ := hf.unique hfirst
        exact Or.inr hseg
  · rintro (rfl | hseg)
    · have hb := Segment.before hfirst
      rwa [htake] at hb
    · exact .after hfirst hseg

-- ===================== the empty token

/-- The empty token is filed under NUL. -/
theorem specialAt_nul (hempty : tok.specialTokens.containsKey [] = true)
    (rest : Text) :
    ∃ p, tok.specialAt (nul :: rest) = some p := by
  obtain ⟨id, hget⟩ := Map.containsKey_iff.1 hempty
  rw [← Option.isSome_iff_exists, Tokenizer.specialAt, List.find?_isSome]
  exact ⟨([], id), mem_specialGroup.2 ⟨Map.mem_of_get hget, rfl⟩, rfl⟩

/-- A text the scan walks over has no NUL when the empty token is declared. -/
theorem nul_not_mem_of_none (h : tok.findSpecial text = none)
    (hempty : tok.specialTokens.containsKey [] = true) : nul ∉ text := by
  induction text with
  | nil => exact List.not_mem_nil
  | cons c rest ih =>
      rw [Tokenizer.findSpecial] at h
      cases hat : tok.specialAt (c :: rest) with
      | some p =>
          rw [hat] at h
          cases h
      | none =>
          rw [hat] at h
          rw [List.mem_cons, not_or]
          refine ⟨?_, ih (Option.map_eq_none_iff.1 h)⟩
          rintro rfl
          obtain ⟨p, hp⟩ := specialAt_nul hempty rest
          rw [hp] at hat
          cases hat

theorem nul_not_mem_before {pat : Text}
    (h : tok.findSpecial text = some (before, pat, id))
    (hempty : tok.specialTokens.containsKey [] = true) : nul ∉ before := by
  induction text generalizing before with
  | nil => cases h
  | cons c rest ih =>
      rw [Tokenizer.findSpecial] at h
      cases hat : tok.specialAt (c :: rest) with
      | some found =>
          rw [hat] at h
          cases h
          exact List.not_mem_nil
      | none =>
          rw [hat] at h
          obtain ⟨⟨before', found⟩, hrest, h⟩ := Option.map_eq_some_iff.1 h
          obtain ⟨rfl, rfl⟩ := Prod.mk.inj h
          rw [List.mem_cons, not_or]
          refine ⟨?_, ih hrest⟩
          rintro rfl
          obtain ⟨p, hp⟩ := specialAt_nul hempty rest
          rw [hp] at hat
          cases hat

/-- The tokenizer without the empty special token. -/
def withoutEmpty (tok : Tokenizer) : Tokenizer :=
  { tok with specialTokens := tok.specialTokens.filter (·.1 ≠ []) }

theorem starts_withoutEmpty :
    Starts (withoutEmpty tok).specialTokens text ↔ Starts tok.specialTokens text := by
  constructor
  · rintro ⟨q, hq, hne, hpre⟩
    exact ⟨q, (List.mem_filter.1 hq).1, hne, hpre⟩
  · rintro ⟨q, hq, hne, hpre⟩
    exact ⟨q, List.mem_filter.2 ⟨hq, decide_eq_true hne⟩, hne, hpre⟩

/-- A text has a first special token, or none starts anywhere in it. -/
theorem first_or_none (tok : Tokenizer) (text : Text) :
    (∃ at_ pat, First tok.specialTokens text at_ pat)
      ∨ ∀ i, ¬ Starts tok.specialTokens (text.drop i) := by
  match h : (withoutEmpty tok).findSpecial text with
  | none => exact Or.inr fun i hs => findSpecial_none h i (starts_withoutEmpty.2 hs)
  | some (before, pat, id) =>
      obtain ⟨hmem, -, -, -⟩ := findSpecial_some h
      have hne : pat ≠ [] := by simpa using (List.mem_filter.1 hmem).2
      have hf := findSpecial_first h hne
      refine Or.inl ⟨before.length, pat, ⟨id, (List.mem_filter.1 hmem).1⟩, hne,
        hf.starts, ?_, ?_⟩
      · exact fun i hi hs => hf.earliest i hi (starts_withoutEmpty.2 hs)
      · intro q hq hpre
        by_cases hq0 : q.1 = []
        · rw [hq0]
          exact Nat.zero_le _
        · exact hf.longest q (List.mem_filter.2 ⟨hq, decide_eq_true hq0⟩) hpre

/-- The scan that stops at the empty token stands at a NUL. -/
theorem nul_of_empty (h : tok.findSpecial text = some (before, [], id)) :
    text[before.length]? = some nul := by
  have hdrop := findSpecial_drop h
  cases htext : text.drop before.length with
  | nil =>
      rw [htext] at hdrop
      cases hdrop
  | cons c rest =>
      rw [htext, Tokenizer.findSpecial] at hdrop
      cases hat : tok.specialAt (c :: rest) with
      | none =>
          rw [hat] at hdrop
          obtain ⟨_, -, hdrop⟩ := Option.map_eq_some_iff.1 hdrop
          cases hdrop
      | some found =>
          obtain ⟨p, k⟩ := found
          rw [hat] at hdrop
          cases hdrop
          have hfirst := (mem_specialGroup.1 (List.mem_of_find?_eq_some hat)).2
          rw [← List.head?_drop, htext, List.head?_cons, ← hfirst]
          rfl

/-- Where the scan stops at the empty token, a segment holds a NUL. -/
theorem nul_mem_segment (h : tok.findSpecial text = some (before, [], id)) :
    ∃ seg, Segment tok.specialTokens text seg ∧ nul ∈ seg := by
  obtain ⟨-, -, hearly, hlong⟩ := findSpecial_some h
  have hnul := nul_of_empty h
  have hnone (i : Nat) (hi : i ≤ before.length) :
      ¬ Starts tok.specialTokens (text.drop i) := by
    rcases Nat.lt_or_eq_of_le hi with hlt | rfl
    · exact hearly i hlt
    · rintro ⟨q, hq, hne, hpre⟩
      exact hne (List.length_eq_zero_iff.1 (Nat.le_zero.1 (hlong q hq hpre)))
  rcases first_or_none tok text with ⟨at_, pat, hf⟩ | hall
  · have hlt : before.length < at_ := by
      by_contra hge
      obtain ⟨k, hmem⟩ := hf.mem
      exact hnone at_ (by omega) ⟨_, hmem, hf.ne, hf.starts⟩
    refine ⟨_, .before hf, List.mem_of_getElem? (i := before.length) ?_⟩
    rw [List.getElem?_take_of_lt hlt, hnul]
  · exact ⟨text, .last hall, List.mem_of_getElem? hnul⟩

-- ================================ scan

/-- A segment that can be encoded: the scan walks over it, and the engine
returns on it. -/
def SegmentOk (tok : Tokenizer) (env : Env) (size : Nat) (seg : Text) : Prop :=
  (tok.specialTokens.containsKey [] = true → nul ∉ seg)
    ∧ Ends size (tok.encodeText env seg true)

variable {env : Env} {size : Nat}

theorem segments_of_encodeLoop {fuel : Nat}
    (h : Ends size (tok.encodeLoop env fuel text)) (seg : Text)
    (hseg : Segment tok.specialTokens text seg) : SegmentOk tok env size seg := by
  induction fuel generalizing text with
  | zero => exact absurd h not_ends_error
  | succ fuel ih =>
      match hfind : tok.findSpecial text with
      | none =>
          obtain rfl := (segment_of_none hfind).1 hseg
          rw [Tokenizer.encodeLoop, hfind] at h
          exact ⟨nul_not_mem_of_none hfind, h⟩
      | some (before, pat, id) =>
          obtain ⟨ids, hrun, hids⟩ := h
          have hne := pat_ne_nil_of_ok hrun hfind
          rw [Tokenizer.encodeLoop, hfind] at hrun
          obtain ⟨head, hhead, hrun⟩ := bind_eq_ok.1 hrun
          obtain ⟨rest, hrest, hrun⟩ := bind_eq_ok.1 hrun
          cases hrun
          obtain ⟨hlt, hrestLt⟩ := List.forall_mem_append.1 hids
          rcases (segment_of_some hfind hne).1 hseg with rfl | hseg
          · exact ⟨nul_not_mem_before hfind, head, hhead, hlt⟩
          · exact ih ⟨rest, hrest, (List.forall_mem_cons.1 hrestLt).2⟩ hseg

theorem encodeLoop_of_segments
    (hspecials : ∀ p ∈ tok.specialTokens, p.2 < size) {n : Nat}
    (hn : text.length ≤ n) (h : ∀ seg, Segment tok.specialTokens text seg →
      SegmentOk tok env size seg) :
    Ends size (tok.encodeLoop env (n + 1) text) := by
  induction n generalizing text with
  | zero =>
      obtain rfl := List.length_eq_zero_iff.1 (Nat.le_zero.1 hn)
      exact (h [] ((segment_of_none rfl).2 rfl)).2
  | succ n ih =>
      rw [Tokenizer.encodeLoop]
      cases hfind : tok.findSpecial text with
      | none => exact (h text ((segment_of_none hfind).2 rfl)).2
      | some found =>
          obtain ⟨before, pat, id⟩ := found
          obtain ⟨hmem, ⟨rest, hrest⟩, -, -⟩ := findSpecial_some hfind
          have hne : pat ≠ [] := by
            rintro rfl
            obtain ⟨seg, hseg, hnul⟩ := nul_mem_segment hfind
            exact (h seg hseg).1 (Map.containsKey_of_mem hmem) hnul
          have hpos := List.length_pos_of_ne_nil hne
          have hlen : (text.drop (before.length + pat.length)).length ≤ n := by
            have : text.length = before.length + (pat.length + rest.length) := by
              rw [hrest, List.length_append, List.length_append]
            rw [List.length_drop]
            omega
          obtain ⟨head, hhead, hlt⟩ :=
            (h before ((segment_of_some hfind hne).2 (Or.inl rfl))).2
          obtain ⟨ids, hids, hidsLt⟩ := ih hlen fun seg hseg =>
            h seg ((segment_of_some hfind hne).2 (Or.inr hseg))
          refine ⟨head ++ id :: ids, ?_, ?_⟩
          · simp only [bind, Except.bind, hhead, hids]
            rfl
          · exact List.forall_mem_append.2
              ⟨hlt, List.forall_mem_cons.2 ⟨hspecials _ hmem, hidsLt⟩⟩

-- ============================= engines

/-- What the engine of a vocabulary needs of a segment. -/
def Covers (tok : Tokenizer) (env : Env) (text : Text) : Prop :=
  match tok.model with
  | .gpt2 | .whitespace => tok.TextCovered env.unicode.classes text
  | .hybridDna => ∀ part ∈ tok.dnaParts text, tok.TextCovered env.unicode.classes part
  | .ugm => tok.UgmAligned text
  | .none | .spm | .rwkv | .plamo2 | .gemma4 | .bert => True

theorem covers_nil (tok : Tokenizer) (env : Env) : Covers tok env [] := by
  have hparts : tok.dnaParts [] = [[]] := by
    unfold Tokenizer.dnaParts
    split <;> rfl
  unfold Covers
  split
  · exact Tokenizer.textCovered_nil _
  · exact Tokenizer.textCovered_nil _
  · rw [hparts]
    exact List.forall_mem_singleton.2 (Tokenizer.textCovered_nil _)
  · exact Tokenizer.ugmAligned_nil
  all_goals trivial

theorem kmersOf_within (tokens : List Text) :
    Within tokens.length (kmersOf tokens).1
      ∧ (kmersOf tokens).2.length = tokens.length := by
  refine ⟨within_of_mem ?_, List.length_map _⟩
  refine foldl_enumerate (P := fun m : Map Text Nat => ∀ p ∈ m, p.2 < tokens.length)
    (fun _ hp => absurd hp List.not_mem_nil) fun m p hp hm => ?_
  split
  · intro q hq
    rcases Map.mem_insert hq with rfl | hq
    · exact (List.getElem?_eq_some_iff.1 hp).1
    · exact hm q hq
  · exact hm

variable {kvs : List GgufKv} {base : Tokenizer}

/-- The special tokens of a loaded tokenizer are in its vocabulary. -/
theorem specials_lt (hbase : Common base) (h : finish kvs base = .ok tok)
    (hmodel : tok.model ≠ .none) : ∀ p ∈ tok.specialTokens,
    p.2 < tok.idToToken.length := by
  have hall : ∀ p ∈ base.specialTokens, p.2 < base.idToToken.length := fun p hp =>
    (List.getElem?_eq_some_iff.1 (hbase.specials p hp)).1
  have hbm := finish_model h
  unfold finish at h
  split at h
  next hnone => exact absurd (hbm.trans hnone) hmodel
  iterate 3
    obtain ⟨_, -, rfl | ⟨-, _, _, _, -, -, -, rfl⟩⟩ := loadBpe_ok h
    · exact hall
    · simp only [(kmersOf_within base.idToToken).2]
      exact hall
  · obtain ⟨_, -, rfl⟩ := loadSpm_ok h
    exact hall
  · obtain ⟨_, -, rfl⟩ := loadRwkv_ok h
    exact hall
  · obtain rfl := loadPlamo2_ok h
    exact hall
  · obtain ⟨-, rfl⟩ := loadGemma4_ok h
    exact hall
  · obtain ⟨_, _, _, _, _, _, -, rfl⟩ := loadUgm_ok h
    exact hall
  · obtain ⟨_, _, _, -, rfl⟩ := loadBert_ok h
    exact hall

/-- The byte-level loader's tokenizer: a rule, ids in range, and on HybridDNA
k-mer ids in range. -/
theorem loadBpe_within (hbase : Common base) (h : loadBpe kvs base = .ok tok) :
    tok.pre ≠ none ∧ Within tok.idToToken.length tok.vocab
      ∧ ∀ dna, tok.dna = some dna →
        Tokenizer.DnaData.Within tok.idToToken.length dna := by
  have hvocab : Within base.idToToken.length base.vocab := by
    rw [hbase.vocab]
    exact (vocabOf_spells _).within
  obtain ⟨pre, -, rfl | ⟨-, start, end_, oov, hstart, hend, hoov, rfl⟩⟩ :=
    loadBpe_ok h
  · refine ⟨nofun, hvocab, fun dna hdna => ?_⟩
    rw [hbase.dna] at hdna
    cases hdna
  · obtain ⟨hkmers, hlen⟩ := kmersOf_within base.idToToken
    rw [← hlen] at hvocab hkmers
    refine ⟨nofun, hvocab, fun dna hdna => ?_⟩
    cases hdna
    exact ⟨hvocab _ _ hstart, hvocab _ _ hend, hvocab _ _ hoov, hkmers⟩

theorem encodeText_of_ne_nil (htext : text ≠ []) :
    tok.encodeText env text true =
      match tok.model with
      | .none => .ok []
      | .gpt2 | .whitespace => tok.encodeBpe env.unicode.classes text
      | .hybridDna => tok.hybriddnaEncode env.unicode.classes text
      | .bert => .ok (tok.wpmEncode env.unicode text)
      | .ugm => tok.ugmEncode text
      | .gemma4 => tok.gemma4Encode env.unicode.classes text
      | .rwkv => tok.rwkvEncode text
      | .plamo2 => tok.plamo2Encode text
      | .spm => tok.spmEncode env.pick (tok.spmEscape true text) :=
  if_neg htext

/-- The unknown token of a loaded RWKV vocabulary is in it: a vocabulary that
starts every byte has a token. -/
theorem rwkv_unk_lt {unk : Nat} {tokens : List Text}
    (h : unk < tokens.length ∨ unk = 0
      ∧ ∀ b, (rwkvTrie tokens).startsWithByte b = true) :
    unk < tokens.length := by
  rcases h with h | ⟨rfl, h⟩
  · exact h
  · by_contra hle
    obtain rfl := List.length_eq_zero_iff.1 (Nat.le_zero.1 (Nat.not_lt.1 hle))
    exact absurd (h 0) (by decide)

/-- On a loaded tokenizer a segment is encoded just when the engine covers
it. -/
theorem ends_encodeText (hbase : Common base) (h : finish kvs base = .ok tok)
    (hmodel : tok.model ≠ .none) (text : Text) :
    Ends tok.idToToken.length (tok.encodeText env text true)
      ↔ Covers tok env text := by
  by_cases htext : text = []
  · rw [htext]
    exact ⟨fun _ => covers_nil tok env, fun _ => ends_nil _⟩
  rw [encodeText_of_ne_nil htext, Covers]
  have hvocab : Within base.idToToken.length base.vocab := by
    rw [hbase.vocab]
    exact (vocabOf_spells _).within
  have hbytes := spmBytes_within base.idToToken base.idToType
  have hbm := finish_model h
  unfold finish at h
  match hb : base.model, h with
  | .none, _ => exact absurd (hbm.trans hb) hmodel
  | .gpt2, h =>
      obtain ⟨hpre, hv, -⟩ := loadBpe_within hbase h
      simp only [hbm, hb]
      exact Tokenizer.ends_encodeBpe hv hpre
  | .whitespace, h =>
      obtain ⟨hpre, hv, -⟩ := loadBpe_within hbase h
      simp only [hbm, hb]
      exact Tokenizer.ends_encodeBpe hv hpre
  | .hybridDna, h =>
      obtain ⟨hpre, hv, hdna⟩ := loadBpe_within hbase h
      simp only [hbm, hb]
      exact Tokenizer.ends_hybriddnaEncode hv hpre hdna
  | .spm, h =>
      obtain ⟨space, hall, htok⟩ := loadSpm_ok h
      have hesc : tok.spmEscape true text ≠ [] := by
        simp only [Tokenizer.spmEscape, ne_eq, List.append_eq_nil_iff,
          List.map_eq_nil_iff, not_and]
        exact fun _ => htext
      simp only [hbm, hb, iff_true]
      subst htok
      apply Tokenizer.ends_spmEncode
      · exact hvocab
      · exact hbytes
      · exact hall
      · exact hesc
  | .rwkv, h =>
      obtain ⟨unk, hunk, rfl⟩ := loadRwkv_ok h
      simp only [hb, iff_true]
      exact Tokenizer.ends_rwkvLoop (within_of_mem (rwkvTrie_within _))
        (rwkv_unk_lt hunk)
        (Nat.le_refl _)
  | .plamo2, h =>
      obtain rfl := loadPlamo2_ok h
      obtain ⟨htrie, htxt⟩ := plamo2Trie_within base.idToToken base.idToType
      simp only [hb, iff_true]
      exact Tokenizer.ends_plamo2Encode (within_of_mem htrie) htxt hbytes text
  | .gemma4, h =>
      obtain ⟨hall, rfl⟩ := loadGemma4_ok h
      simp only [hb, iff_true]
      apply Tokenizer.ends_gemma4Encode
      · exact hvocab
      · exact hbytes
      · exact hall
      · exact nofun
  | .ugm, h =>
      obtain ⟨unk, score, xcda, replacements, space, extra, hunk, rfl⟩ := loadUgm_ok h
      obtain ⟨htrie, htxt⟩ := ugmTries_within base.idToToken base.idToType
      simp only [hb]
      exact Tokenizer.ends_ugmEncode (within_of_mem htrie) htxt hunk text
  | .bert, h =>
      obtain ⟨opts, unk, maxLen, hunk, rfl⟩ := loadBert_ok h
      simp only [hb, iff_true]
      apply ends_ok.2
      apply Tokenizer.wpmEncode_lt
      · exact hvocab
      · exact hunk

/-- On a vocabulary `load` accepts, `encode` returns ids of the vocabulary just
when, in every segment between special tokens, no NUL stands if the empty
text is a special token, and the engine has what it needs. -/
theorem encode_returns_iff (hload : load kvs = .ok tok)
    (hmodel : tok.model ≠ .none) (text : Text) :
    (∃ ids, tok.Encodes env text ids ∧ ∀ id ∈ ids, id < tok.idToToken.length) ↔
      ∀ seg, Segment tok.specialTokens (tok.normalized env text) seg →
        (tok.specialTokens.containsKey [] = true → nul ∉ seg)
          ∧ Covers tok env seg := by
  obtain ⟨base, hbase, hfin⟩ := load_finish hload
  constructor
  · rintro ⟨ids, ⟨fuel, hrun⟩, hlt⟩ seg hseg
    obtain ⟨hnul, hends⟩ := segments_of_encodeLoop ⟨ids, hrun, hlt⟩ seg hseg
    exact ⟨hnul, (ends_encodeText hbase hfin hmodel seg).1 hends⟩
  · intro h
    obtain ⟨ids, hrun, hlt⟩ := encodeLoop_of_segments (specials_lt hbase hfin hmodel)
      (Nat.le_refl _) fun seg hseg =>
        ⟨(h seg hseg).1, (ends_encodeText hbase hfin hmodel seg).2 (h seg hseg).2⟩
    exact ⟨ids, ⟨_, hrun⟩, hlt⟩

/-- The vocabulary of `é` and `<s>` has no token for `b`, and `load` accepts
it: the byte does not occur in it. -/
theorem missing_byte_panics :
    ¬ ∀ (kvs : List GgufKv) (tok : Tokenizer) (env : Env) (text : Text),
      load kvs = .ok tok → tok.model ≠ .none →
      ∃ ids, tok.Encodes env text ids ∧ ∀ id ∈ ids, id < tok.idToToken.length := by
  intro h
  obtain ⟨ids, ⟨fuel, hrun⟩, -⟩ :=
    h accentKvs accentTokenizer asciiEnv ['b'] accent_load nofun
  have hfind : accentTokenizer.findSpecial ['b'] = none := by decide +kernel
  have hpanic : (accentTokenizer.encodeText asciiEnv ['b'] true).toOption = none := by
    decide +kernel
  match fuel with
  | 0 => cases hrun
  | fuel + 1 =>
      have hnorm : accentTokenizer.normalized asciiEnv ['b'] = ['b'] := rfl
      rw [hnorm, Tokenizer.encodeLoop, hfind] at hrun
      simp only at hrun
      rw [hrun] at hpanic
      cases hpanic

/-- The text `<s>a` meets the condition. -/
theorem start_covered :
    load accentKvs = .ok accentTokenizer
      ∧ ∀ seg, Segment accentTokenizer.specialTokens "<s>a".toList seg →
        (accentTokenizer.specialTokens.containsKey [] = true → nul ∉ seg)
          ∧ Covers accentTokenizer asciiEnv seg :=
  ⟨accent_load, (encode_returns_iff accent_load nofun "<s>a".toList).1
    ⟨[3, 2], start_encodes, by decide⟩⟩

end Minfer.Tokenize
