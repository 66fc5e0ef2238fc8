/-
What `load` establishes for every engine: the vocabulary and the special
tokens name places of the token list that hold their text.
-/
import Minfer.Lib.Except
import Minfer.Tokenizer.Encode

namespace Minfer.Tokenize

open Minfer.Lib (utf8Encode bind_eq_ok)
open Minfer.Gguf (GgufKv)

-- ================================ maps

namespace Map

variable {κ ν : Type} [DecidableEq κ]
variable {m : Map κ ν}

theorem mem_of_get {k : κ} {v : ν} (h : m.get k = some v) :
    (k, v) ∈ m := by
  obtain ⟨⟨k', v'⟩, hfind, rfl⟩ := Option.map_eq_some_iff.1 h
  obtain rfl : k' = k := by simpa using List.find?_some hfind
  exact List.mem_of_find?_eq_some hfind

theorem mem_insert {k : κ} {v : ν} {p : κ × ν} (h : p ∈ m.insert k v) :
    p = (k, v) ∨ p ∈ m := by
  rcases List.mem_cons.1 h with h | h
  · exact Or.inl h
  · exact Or.inr (List.mem_filter.1 h).1

/-- A key with an entry has a value. -/
theorem containsKey_of_mem {p : κ × ν} (h : p ∈ m) :
    m.containsKey p.1 = true := by
  rw [containsKey, get, Option.isSome_map, List.find?_isSome]
  exact ⟨p, h, decide_eq_true rfl⟩

theorem containsKey_iff {k : κ} : m.containsKey k = true
    ↔ ∃ v, m.get k = some v :=
  Option.isSome_iff_exists

end Map

-- ========================== vocabulary

/-- Every entry of a table names a token by its own text. -/
def Spells (tokens : List Text) (m : Map Text Nat) : Prop :=
  ∀ p ∈ m, tokens[p.2]? = some p.1

variable {id : Nat} {m : Map Text Nat} {tokens : List Text}

theorem Spells.get
    (h : Spells tokens m) {t : Text} (hget : m.get t = some id) :
    tokens[id]? = some t :=
  h _ (Map.mem_of_get hget)

theorem Spells.lt (h : Spells tokens m)
    {t : Text} (hget : m.get t = some id) : id < tokens.length :=
  (List.getElem?_eq_some_iff.1 (h.get hget)).1

theorem Spells.insert (h : Spells tokens m) {t : Text}
    (ht : tokens[id]? = some t) : Spells tokens
    (m.insert t id) := by
  intro p hp
  rcases Map.mem_insert hp with rfl | hp
  · exact ht
  · exact h p hp

theorem mem_enumerate {p : Nat × Text} (h : p ∈ enumerate tokens) :
    tokens[p.1]? = some p.2 := by
  obtain ⟨i, hi, rfl⟩ := List.getElem_of_mem h
  simp only [enumerate, List.getElem_zip, List.getElem_range]
  exact List.getElem?_eq_getElem _

/-- What a loop over the tokens keeps, it holds of what the loop builds. -/
theorem foldl_enumerate {σ : Type} {P : σ → Prop} {f : σ → Nat × Text → σ}
    {s : σ} (hs : P s) (hf : ∀ s p, tokens[p.1]? = some p.2 → P s → P (f s p)) :
    P ((enumerate tokens).foldl f s) :=
  List.foldlRecOn _ _ hs fun s hs p hp => hf s p (mem_enumerate hp) hs

theorem spells_nil (tokens : List Text) : Spells tokens [] :=
  fun _ hp => absurd hp List.not_mem_nil

theorem vocabOf_spells (tokens : List Text) : Spells tokens (vocabOf tokens) :=
  foldl_enumerate (spells_nil tokens) fun _ _ hp hm => hm.insert hp

theorem declaredSpecials_spells (tokens : List Text) (types : List Int) :
    Spells tokens (declaredSpecials tokens types) := by
  refine foldl_enumerate (spells_nil tokens) fun m p hp hm => ?_
  split
  · exact hm.insert hp
  · exact hm

theorem addRoles_spells {kvs : List GgufKv}
    {keys : List String} {m' : Map Text Nat} (hm : Spells tokens m)
    (h : addRoles kvs tokens keys m = .ok m') :
    Spells tokens m' := by
  induction keys generalizing m with
  | nil =>
      obtain rfl := Except.ok.inj h
      exact hm
  | cons key rest ih =>
      rw [addRoles] at h
      obtain ⟨role, -, h⟩ := bind_eq_ok.1 h
      match role, h with
      | none, h => exact ih hm h
      | some id, h =>
          match ht : tokens[id]?, h with
          | none, h => exact ih hm (by simpa only [ht] using h)
          | some text, h =>
              simp only [ht] at h
              refine ih ?_ h
              split
              · exact hm
              · exact hm.insert ht

-- ================================ load

/-- The part of `load` after the common tables. -/
def finish (kvs : List GgufKv) (base : Tokenizer) : Except LoadError Tokenizer :=
  match base.model with
  | .none => loadNone kvs base
  | .gpt2 | .hybridDna | .whitespace => loadBpe kvs base
  | .spm => loadSpm kvs base
  | .rwkv => loadRwkv kvs base
  | .plamo2 => loadPlamo2 base
  | .gemma4 => loadGemma4 base
  | .ugm => loadUgm kvs base
  | .bert => loadBert kvs base

/-- The common tables, as every engine's loader is given them. -/
structure Common (base : Tokenizer) : Prop where
  vocab : base.vocab = vocabOf base.idToToken
  specials : Spells base.idToToken base.specialTokens
  dna : base.dna = none

/-- `load` builds the common tables and hands them to the engine's loader. -/
theorem load_finish {kvs : List GgufKv} {tok : Tokenizer} (h : load kvs = .ok tok) :
    ∃ base, Common base ∧ finish kvs base = .ok tok := by
  unfold load at h
  obtain ⟨tokens, -, h⟩ := bind_eq_ok.1 h
  obtain ⟨scores, -, h⟩ := bind_eq_ok.1 h
  obtain ⟨types, -, h⟩ := bind_eq_ok.1 h
  obtain ⟨merges, -, h⟩ := bind_eq_ok.1 h
  obtain ⟨specials, hspecials, h⟩ := bind_eq_ok.1 h
  obtain ⟨value, -, h⟩ := bind_eq_ok.1 h
  obtain ⟨model, -, h⟩ := bind_eq_ok.1 h
  have hspells := addRoles_spells (declaredSpecials_spells _ _) hspecials
  extract_lets base at h
  refine ⟨base, ⟨rfl, hspells, rfl⟩, ?_⟩
  cases model <;> exact h

/-- The arrays and the engine settle what `load` does. -/
theorem load_eq_finish {kvs : List GgufKv} {merges : List Text}
    {types : List Int} {specials : Map Text Nat} {value : Option String}
    {model : TokenizerModel}
    (htokens : arrayVals kvs "tokenizer.ggml.tokens" .string valStr = .ok tokens)
    (hscores : arrayVals kvs "tokenizer.ggml.scores" .float32 valF32 = .ok [])
    (htypes : arrayVals kvs "tokenizer.ggml.token_type" .int32 valI32
      = .ok types) (htyped : types ≠ [])
    (hmerges : arrayVals kvs "tokenizer.ggml.merges" .string valStr
      = .ok merges) (hspecials : addRoles kvs tokens specialRoleKeys
      (declaredSpecials tokens types)
      = .ok specials)
    (hvalue : getGgufStr kvs "tokenizer.ggml.model" = .ok value)
    (hmodel : TokenizerModel.fromGguf value = .ok model) :
    load kvs = finish kvs {
      idToToken := tokens
      idToScore := List.replicate tokens.length 0
      idToType := types
      vocab := vocabOf tokens
      merges := mergesOf merges
      specialTokens := specials
      model := model } := by
  unfold load
  rw [htokens, hscores, htypes, hmerges]
  simp only [bind, Except.bind, if_neg htyped, hspecials, hvalue, hmodel]
  cases model <;> rfl

-- ============================= engines

theorem mem_allBytes (b : UInt8) : b ∈ allBytes :=
  List.mem_map.2 ⟨b.toNat, List.mem_range.2 b.toNat_lt, UInt8.ofNat_toNat⟩

/-- What the byte check lets through: a byte that occurs in the vocabulary has
a token, or starts one. -/
theorem reachableBytes_eq_nil {vocab : Map Text Nat} :
    reachableBytes tokens vocab = [] ↔
      ∀ t ∈ tokens, ∀ b ∈ utf8Encode t, vocab.containsKey [byteToUnicode b] = true
        ∨ ∃ t' ∈ tokens, (utf8Encode t').head? = some b := by
  simp only [reachableBytes, List.filter_eq_nil_iff, List.mem_filter,
    mem_allBytes, true_and, Bool.not_eq_true', Bool.and_eq_true,
    List.any_eq_true, List.any_eq_false, decide_eq_true_eq]
  constructor
  · intro h t ht b hb
    by_contra hn
    simp only [not_or, Bool.not_eq_true, not_exists, not_and] at hn
    exact h b hn.1 ⟨⟨t, ht, hb⟩, hn.2⟩
  · rintro h b hkey ⟨⟨t, ht, hb⟩, hnone⟩
    rcases h t ht b hb with hk | ⟨t', ht', hhead⟩
    · rw [hkey] at hk
      cases hk
    · exact hnone t' ht' hhead

variable {kvs : List GgufKv} {base tok : Tokenizer}

/-- A byte table that is not refused has every byte. -/
theorem requireSpmBytes_ok {table : Map UInt8 Nat}
    (h : requireSpmBytes table = .ok ())
    (b : UInt8) : table.containsKey b = true := by
  have hmissing : missingSpmBytes table = [] := by
    unfold requireSpmBytes at h
    split at h
    next hnil => exact hnil
    · cases h
  by_contra hn
  have hmem : b ∈ missingSpmBytes table :=
    List.mem_filter.2 ⟨mem_allBytes b, by simpa using hn⟩
  rw [hmissing] at hmem
  cases hmem

theorem unknownToken_ok (h : unknownToken kvs tokens = .ok id) :
    id < tokens.length := by
  unfold unknownToken at h
  obtain ⟨role, -, h⟩ := bind_eq_ok.1 h
  match role, h with
  | none, h => cases h
  | some k, h =>
      simp only at h
      split at h
      · cases h
      next hk =>
        obtain rfl := Except.ok.inj h
        omega

theorem loadNone_ok (h : loadNone kvs base = .ok tok) : tok.model = base.model := by
  unfold loadNone at h
  obtain ⟨n, -, h⟩ := bind_eq_ok.1 h
  obtain rfl := Except.ok.inj h
  rfl

/-- The byte-level loader: a rule, and on HybridDNA the k-mer table with the
markers erased. -/
theorem loadBpe_ok (h : loadBpe kvs base = .ok tok) :
    ∃ pre, reachableBytes base.idToToken base.vocab = []
      ∧ (tok = { base with pre := some pre, ignoreMerges := pre.ignoresMerges }
        ∨ base.model = .hybridDna ∧ ∃ start end_ oov,
          base.vocab.get "<dna>".toList = some start
            ∧ base.vocab.get "</dna>".toList = some end_
            ∧ base.vocab.get "<oov>".toList = some oov
            ∧ tok = { base with
                pre := some pre
                ignoreMerges := pre.ignoresMerges
                idToToken := (kmersOf base.idToToken).2
                dna := some ⟨start, end_, oov, (kmersOf base.idToToken).1⟩ }) := by
  unfold loadBpe at h
  obtain ⟨value, -, h⟩ := bind_eq_ok.1 h
  obtain ⟨pre, -, h⟩ := bind_eq_ok.1 h
  refine ⟨pre, ?_⟩
  split at h
  · cases h
  · split at h
    · cases h
    next hreach =>
      refine ⟨hreach, ?_⟩
      simp only at h
      split at h
      · exact Or.inl (Except.ok.inj h).symm
      next hdna =>
        split at h
        next start end_ oov h1 h2 h3 =>
          exact Or.inr ⟨not_not.1 hdna, start, end_, oov, h1, h2, h3,
            (Except.ok.inj h).symm⟩
        · exact Or.inl (Except.ok.inj h).symm

/-- A vocabulary with a rule, merges and its bytes is accepted. -/
theorem loadBpe_eq {value : Option String} {pre : PreTokenizer}
    (hvalue : getGgufStr kvs "tokenizer.ggml.pre" = .ok value)
    (hpre : PreTokenizer.fromGguf value = .ok pre) (hmerges : base.merges ≠ [])
    (hreach : reachableBytes base.idToToken base.vocab = [])
    (hdna : base.model ≠ .hybridDna) :
    loadBpe kvs base
      = .ok { base with pre := some pre, ignoreMerges :=
        pre.ignoresMerges } := by
  unfold loadBpe
  simp only [hvalue, hpre, bind, Except.bind, if_neg hmerges, hreach, if_pos hdna]
  rfl

theorem loadSpm_ok (h : loadSpm kvs base = .ok tok) :
    ∃ space, (∀ b, (spmBytes base.idToToken base.idToType).containsKey b = true)
      ∧ tok = { base with
          spmByteToId := spmBytes base.idToToken base.idToType
          addSpacePrefix := space } := by
  unfold loadSpm at h
  split at h
  · cases h
  · obtain ⟨_, hbytes, h⟩ := bind_eq_ok.1 h
    obtain ⟨space, -, h⟩ := bind_eq_ok.1 h
    exact ⟨_, requireSpmBytes_ok hbytes, (Except.ok.inj h).symm⟩

/-- The unknown token of RWKV is an entry, or every byte starts one. -/
theorem loadRwkv_ok (h : loadRwkv kvs base = .ok tok) :
    ∃ unk, (unk < base.idToToken.length
        ∨ unk = 0 ∧ ∀ b, (rwkvTrie base.idToToken).startsWithByte b = true)
      ∧ tok = { base with
          ugm := { base.ugm with trie := rwkvTrie base.idToToken }
          unkToken := unk } := by
  unfold loadRwkv at h
  obtain ⟨role, -, h⟩ := bind_eq_ok.1 h
  match role, h with
  | some id, h =>
      simp only at h
      split at h
      · cases h
      next hid => exact ⟨id, Or.inl (by omega), (Except.ok.inj h).symm⟩
  | none, h =>
      simp only at h
      split at h
      next hall =>
        refine ⟨0, Or.inr ⟨rfl, fun b => ?_⟩, (Except.ok.inj h).symm⟩
        have := List.filter_eq_nil_iff.1 hall b (mem_allBytes b)
        simpa using this
      · cases h

theorem loadPlamo2_ok (h : loadPlamo2 base = .ok tok) :
    tok = { base with
      spmByteToId := spmBytes base.idToToken base.idToType
      ugm := { base.ugm with trie := plamo2Trie base.idToToken base.idToType } } := by
  unfold loadPlamo2 at h
  split at h
  · cases h
  · obtain ⟨_, -, h⟩ := bind_eq_ok.1 h
    exact (Except.ok.inj h).symm

theorem loadGemma4_ok (h : loadGemma4 base = .ok tok) :
    (∀ b, (spmBytes base.idToToken base.idToType).containsKey b = true)
      ∧ tok = { base with
          spmByteToId := spmBytes base.idToToken base.idToType
          pre := some .gemma4 } := by
  unfold loadGemma4 at h
  split at h
  · cases h
  · obtain ⟨_, hbytes, h⟩ := bind_eq_ok.1 h
    exact ⟨requireSpmBytes_ok hbytes, (Except.ok.inj h).symm⟩

theorem loadUgm_ok (h : loadUgm kvs base = .ok tok) :
    ∃ unk score xcda replacements space extra, unk < base.idToToken.length
      ∧ tok = { base with
          unkToken := unk
          ugm := ⟨(ugmTries base.idToToken base.idToType).1,
            (ugmTries base.idToToken base.idToType).2, score, xcda, replacements⟩
          addSpacePrefix := space
          removeExtraWhitespaces := extra } := by
  unfold loadUgm at h
  split at h
  · cases h
  · obtain ⟨unk, hunk, h⟩ := bind_eq_ok.1 h
    obtain ⟨⟨xcda, replacements⟩, -, h⟩ := bind_eq_ok.1 h
    obtain ⟨space, -, h⟩ := bind_eq_ok.1 h
    obtain ⟨extra, -, h⟩ := bind_eq_ok.1 h
    exact ⟨unk, _, xcda, replacements, _, _, unknownToken_ok hunk,
      (Except.ok.inj h).symm⟩

theorem loadBert_ok (h : loadBert kvs base = .ok tok) :
    ∃ opts unk maxLen, unk < base.idToToken.length
      ∧ tok = { base with normalizer := opts, unkToken := unk, maxTokenLen :=
        maxLen } := by
  unfold loadBert at h
  obtain ⟨lower, -, h⟩ := bind_eq_ok.1 h
  obtain ⟨strip, -, h⟩ := bind_eq_ok.1 h
  obtain ⟨unk, hunk, h⟩ := bind_eq_ok.1 h
  exact ⟨_, unk, _, unknownToken_ok hunk, (Except.ok.inj h).symm⟩

/-- No loader changes the engine. -/
theorem finish_model (h : finish kvs base = .ok tok) : tok.model = base.model := by
  unfold finish at h
  split at h
  · exact loadNone_ok h
  · obtain ⟨_, -, rfl | ⟨-, _, _, _, -, -, -, rfl⟩⟩ := loadBpe_ok h <;> rfl
  · obtain ⟨_, -, rfl | ⟨-, _, _, _, -, -, -, rfl⟩⟩ := loadBpe_ok h <;> rfl
  · obtain ⟨_, -, rfl | ⟨-, _, _, _, -, -, -, rfl⟩⟩ := loadBpe_ok h <;> rfl
  · obtain ⟨_, -, rfl⟩ := loadSpm_ok h
    rfl
  · obtain ⟨_, -, rfl⟩ := loadRwkv_ok h
    rfl
  · obtain rfl := loadPlamo2_ok h
    rfl
  · obtain ⟨-, rfl⟩ := loadGemma4_ok h
    rfl
  · obtain ⟨_, _, _, _, _, _, -, rfl⟩ := loadUgm_ok h
    rfl
  · obtain ⟨_, _, _, -, rfl⟩ := loadBert_ok h
    rfl

end Minfer.Tokenize
