/-
The engines that walk the byte trie: RWKV, PLaMo-2 and unigram.

A match takes at least one byte, so every loop moves on. The entries of the
PLaMo-2 trie and of the user-defined one are texts, so their matches end on
character boundaries; a match of the precompiled charsmap need not, and the
unigram engine returns just when each one it meets does.
-/
import Minfer.Tokenizer.Proofs.Ends

namespace Minfer.Tokenize

open Minfer.Lib (utf8Encode prefix_of_utf8Encode_prefix bind_eq_ok)

-- ================================ trie

namespace VocabTrie

variable {bytes : List UInt8} {p : Nat × Nat} {t : VocabTrie}

theorem mem_walk {node : List UInt8} (h : p ∈ t.walk node bytes) :
    ∃ k, 1 ≤ k ∧ k ≤ bytes.length ∧ p.2 = node.length + k
      ∧ Map.get t (node ++ bytes.take k) = some p.1 := by
  induction bytes generalizing node with
  | nil => cases h
  | cons b rest ih =>
      rw [walk] at h
      match hstep : t.step node b with
      | none =>
          rw [hstep] at h
          cases h
      | some next =>
          obtain rfl : node ++ [b] = next := by
            unfold step at hstep
            split at hstep
            · exact Option.some.inj hstep
            · cases hstep
          -- what is deeper in the walk took one byte more
          have hdeep (hmem : p ∈ t.walk (node ++ [b]) rest) :
              ∃ k, 1 ≤ k ∧ k ≤ (b :: rest).length ∧ p.2 = node.length + k
                ∧ Map.get t (node ++ (b :: rest).take k) = some p.1 := by
            obtain ⟨k, hk, hle, hlen, hget⟩ := ih hmem
            rw [List.length_append, List.length_singleton] at hlen
            refine ⟨k + 1, Nat.le_add_left 1 k, Nat.succ_le_succ hle, by omega, ?_⟩
            rwa [List.append_assoc, List.singleton_append] at hget
          rw [hstep] at h
          simp only at h
          match hterm : t.terminal (node ++ [b]) with
          | none =>
              rw [hterm] at h
              exact hdeep h
          | some id =>
              rw [hterm] at h
              rcases List.mem_cons.1 h with rfl | h
              · exact ⟨1, Nat.le_refl 1, Nat.succ_le_succ (Nat.zero_le _),
                  List.length_append, hterm⟩
              · exact hdeep h

/-- A match: at least one byte, and the bytes are an entry. -/
theorem mem_matchesAt (h : p ∈ t.matchesAt bytes) :
    1 ≤ p.2 ∧ p.2 ≤ bytes.length ∧ Map.get t (bytes.take p.2) = some p.1 := by
  obtain ⟨k, hk, hle, hlen, hget⟩ := mem_walk h
  rw [List.length_nil, Nat.zero_add] at hlen
  rw [hlen]
  exact ⟨hk, hle, hget⟩

theorem longestPrefixBytes_some (h : t.longestPrefixBytes bytes = some p) :
    1 ≤ p.2 ∧ p.2 ≤ bytes.length ∧ Map.get t (bytes.take p.2) = some p.1 :=
  mem_matchesAt (List.mem_of_getLast? h)

end VocabTrie

/-- The entries of a trie: ids below a size. -/
theorem insertBytes_within {size : Nat} {t : VocabTrie} (h : ∀ p ∈ t, p.2 < size)
    {bytes : List UInt8} {id : Nat} (hid : id < size) :
    ∀ p ∈ t.insertBytes bytes id, p.2 < size := by
  intro p hp
  rcases Map.mem_insert hp with rfl | hp
  · exact hid
  · exact h p hp

/-- Every entry of a trie is a text's bytes. -/
def IsText (t : VocabTrie) : Prop := ∀ p ∈ t, ∃ text, p.1 = utf8Encode text

theorem IsText.insertBytes {t : VocabTrie} (h : IsText t) (text : Text) (id : Nat) :
    IsText (t.insertBytes (utf8Encode text) id) := by
  intro p hp
  rcases Map.mem_insert hp with rfl | hp
  · exact ⟨text, rfl⟩
  · exact h p hp

theorem rwkvTrie_within (tokens : List Text) :
    ∀ p ∈ rwkvTrie tokens, p.2 < tokens.length :=
  foldl_enumerate (P := fun t : VocabTrie => ∀ p ∈ t, p.2 < tokens.length)
    (fun _ hp => absurd hp List.not_mem_nil)
    fun _ _ hp ht => insertBytes_within ht (List.getElem?_eq_some_iff.1 hp).1

theorem plamo2Trie_within (tokens : List Text) (types : List Int) :
    (∀ p ∈ plamo2Trie tokens types, p.2 < tokens.length)
      ∧ IsText (plamo2Trie tokens types) := by
  refine foldl_enumerate
    (P := fun t : VocabTrie => (∀ p ∈ t, p.2 < tokens.length) ∧ IsText t)
    ⟨fun _ hp => absurd hp List.not_mem_nil, fun _ hp => absurd hp List.not_mem_nil⟩
    fun t p hp ht => ?_
  split
  · exact ht
  · exact ⟨insertBytes_within ht.1 (List.getElem?_eq_some_iff.1 hp).1,
      ht.2.insertBytes _ _⟩

theorem ugmTries_within (tokens : List Text) (types : List Int) :
    (∀ p ∈ (ugmTries tokens types).1, p.2 < tokens.length)
      ∧ IsText (ugmTries tokens types).2 := by
  refine foldl_enumerate
    (P := fun ts : VocabTrie × VocabTrie => (∀ p ∈ ts.1, p.2 < tokens.length)
      ∧ IsText ts.2)
    ⟨fun _ hp => absurd hp List.not_mem_nil, fun _ hp => absurd hp List.not_mem_nil⟩
    fun ts p hp hts => ⟨?_, ?_⟩
  · simp only
    split
    · exact insertBytes_within hts.1 (List.getElem?_eq_some_iff.1 hp).1
    · exact hts.1
  · simp only
    split
    · exact hts.2.insertBytes _ _
    · exact hts.2

namespace Tokenizer

variable {tok : Tokenizer} {size : Nat}

-- ========================== boundaries

theorem dropBytes_cons {k : Nat} (hk : 1 ≤ k) (c : Char) (rest : Text) :
    dropBytes k (c :: rest) = if c.utf8Size ≤ k
      then dropBytes (k - c.utf8Size) rest else none := by
  match k, hk with
  | k + 1, _ => rw [dropBytes]

theorem dropBytes_append (t rest : Text) :
    dropBytes (utf8Encode t).length (t ++ rest) = some rest := by
  induction t with
  | nil => rw [Minfer.Lib.utf8Encode_nil, List.length_nil, List.nil_append, dropBytes]
  | cons c t ih =>
      have hpos := c.utf8Size_pos
      rw [Minfer.Lib.utf8Encode_cons, List.length_append,
        String.length_utf8EncodeChar,
        List.cons_append, dropBytes_cons (by omega), if_pos (Nat.le_add_right _ _),
        Nat.add_sub_cancel_left, ih]

variable {text : Text} {fuel n : Nat} {best : List UgmBest}

theorem dropBytes_length {k : Nat} (hk : 1 ≤ k) {rest : Text}
    (h : dropBytes k text = some rest) : rest.length < text.length := by
  induction text generalizing k with
  | nil =>
      match k, hk with
      | k + 1, _ => cases h
  | cons c text ih =>
      rw [dropBytes_cons hk] at h
      split at h
      next hle =>
        by_cases h0 : k - c.utf8Size = 0
        · rw [h0, dropBytes] at h
          obtain rfl := Option.some.inj h
          exact Nat.lt_succ_self _
        · exact Nat.lt_succ_of_lt (ih (by omega) h)
      · cases h

variable {len offset : Nat}

/-- A match whose bytes are a text's ends on a character boundary. -/
theorem dropBytes_of_isText {t : VocabTrie} (ht : IsText t)
    {id : Nat} (hlen : len ≤ (utf8Encode text).length)
    (hget : Map.get t ((utf8Encode text).take len) = some id) :
    ∃ piece rest, text = piece ++ rest ∧ dropBytes len text = some rest
      ∧ (utf8Encode piece).length = len := by
  obtain ⟨piece, hpiece⟩ := ht _ (Map.mem_of_get hget)
  simp only at hpiece
  have hpre : utf8Encode piece <+: utf8Encode text := hpiece ▸ List.take_prefix _ _
  obtain ⟨rest, rfl⟩ := prefix_of_utf8Encode_prefix hpre
  have hk : (utf8Encode piece).length = len := by
    rw [← hpiece, List.length_take]
    omega
  exact ⟨piece, rest, rfl, hk ▸ dropBytes_append piece rest, hk⟩

theorem takeBytes_of_dropBytes {piece rest : Text}
    (h : dropBytes len (piece ++ rest) = some rest) :
    takeBytes len (piece ++ rest) = some piece := by
  rw [takeBytes, h, Option.map_some, List.length_append, Nat.add_sub_cancel,
    List.take_left]

-- ================================ RWKV

/-- `rwkv_encode` returns: an unknown byte has the unknown token. -/
theorem ends_rwkvLoop (htrie : Within size tok.ugm.trie)
    (hunk : tok.unkToken < size)
    {bytes : List UInt8} (hfuel : bytes.length ≤ fuel) :
    Ends size (tok.rwkvLoop fuel bytes) := by
  induction fuel generalizing bytes with
  | zero =>
      obtain rfl := List.length_eq_zero_iff.1 (Nat.le_zero.1 hfuel)
      exact ends_nil size
  | succ fuel ih =>
      match bytes with
      | [] => exact ends_nil size
      | b :: rest =>
          rw [rwkvLoop]
          rw [List.length_cons] at hfuel
          match hlong : tok.ugm.trie.longestPrefixBytes (b :: rest) with
          | some (id, len) =>
              obtain ⟨hlen, -, hget⟩ := VocabTrie.longestPrefixBytes_some hlong
              have hdrop : ((b :: rest).drop len).length ≤ fuel := by
                rw [List.length_drop, List.length_cons]
                omega
              obtain ⟨ids, hids, hlt⟩ := ih hdrop
              refine ⟨id :: ids, ?_, List.forall_mem_cons.2 ⟨htrie _ _ hget, hlt⟩⟩
              simp only [hids]
              rfl
          | none =>
              obtain ⟨ids, hids, hlt⟩ := ih (Nat.le_of_succ_le_succ hfuel)
              refine ⟨tok.unkToken :: ids, ?_, List.forall_mem_cons.2 ⟨hunk, hlt⟩⟩
              simp only [hids]
              rfl

-- ============================= PLaMo-2

theorem mapM_ok {ε α β : Type} {f : α → Except ε β} {P : β → Prop} {l : List α}
    (h : ∀ x ∈ l, ∃ y, f x = .ok y ∧ P y) : ∃ ys, l.mapM f = .ok ys
    ∧ ∀ y ∈ ys, P y := by
  induction l with
  | nil => exact ⟨[], rfl, fun _ hy => absurd hy List.not_mem_nil⟩
  | cons x l ih =>
      obtain ⟨⟨y, hy, hPy⟩, hrest⟩ := List.forall_mem_cons.1 h
      obtain ⟨ys, hys, hPys⟩ := ih hrest
      refine ⟨y :: ys, ?_, List.forall_mem_cons.2 ⟨hPy, hPys⟩⟩
      rw [List.mapM_cons, hy]
      simp only [bind, Except.bind, hys]
      rfl

/-- A row moves on, with an id below the size. -/
structure PlamoRow.Ok (size : Nat) (row : PlamoRow) : Prop where
  moves : 1 ≤ row.take.1
  within : ∀ id, row.take.2 = some id → id < size

theorem plamo2Candidates_ok (htrie : Within size tok.ugm.trie)
    (htext : IsText tok.ugm.trie) (text : Text) :
    ∃ cands, tok.plamo2Candidates text = .ok cands ∧ ∀ c ∈ cands, 1 ≤ c.1
      ∧ c.2 < size := by
  refine mapM_ok fun p hp => ?_
  obtain ⟨hpos, hle, hget⟩ := VocabTrie.mem_matchesAt hp
  obtain ⟨piece, rest, rfl, hdrop, hlen⟩ := dropBytes_of_isText htext hle hget
  have hpiece : piece ≠ [] := by
    rintro rfl
    rw [Minfer.Lib.utf8Encode_nil, List.length_nil] at hlen
    omega
  exact ⟨(piece.length, p.1), by simp only [takeBytes_of_dropBytes hdrop],
    List.length_pos_of_ne_nil hpiece, htrie _ _ hget⟩

theorem plamo2Try_ok {rows : List PlamoRow} {row : PlamoRow} (h : row.Ok size)
    {cand : Nat × Nat} (hcand : 1 ≤ cand.1 ∧ cand.2 < size) :
    (tok.plamo2Try rows row cand).Ok size := by
  unfold plamo2Try
  split
  · exact h
  · simp only
    split
    · refine ⟨hcand.1, fun id hid => ?_⟩
      obtain rfl := Option.some.inj hid
      exact hcand.2
    · exact h

theorem plamo2Rows_ok (htrie : Within size tok.ugm.trie)
    (htext : IsText tok.ugm.trie) (text : Text) :
    ∃ rows, tok.plamo2Rows text = .ok rows ∧ rows.length = text.length + 1
      ∧ ∀ row ∈ rows, row.Ok size := by
  have hskip (score : Int) : PlamoRow.Ok size ⟨score, (1, none)⟩ :=
    ⟨Nat.le_refl 1, fun _ h => by cases h⟩
  induction text with
  | nil => exact ⟨_, rfl, rfl, List.forall_mem_singleton.2 (hskip 0)⟩
  | cons c text ih =>
      obtain ⟨rows, hrows, hlen, hok⟩ := ih
      obtain ⟨cands, hcands, hcok⟩ := plamo2Candidates_ok htrie htext (c :: text)
      have hfold :
          (cands.reverse.foldl (tok.plamo2Try rows) ⟨2 ^ 60, (1, none)⟩).Ok
          size :=
        List.foldlRecOn _ _ (hskip _) fun row hrow cand hcand =>
          plamo2Try_ok hrow (hcok cand (List.mem_reverse.1 hcand))
      rw [plamo2Rows, hrows]
      simp only [bind, Except.bind, hcands]
      refine ⟨_, rfl, by rw [List.length_cons, List.length_cons, hlen], ?_⟩
      refine List.forall_mem_cons.2 ⟨?_, hok⟩
      split
      · exact hskip _
      · exact hfold

theorem ends_plamo2Walk (hbytes : Within size tok.spmByteToId)
    {rows : List PlamoRow} (hfuel : text.length ≤ fuel)
    (hlen : text.length ≤ rows.length) (hrows : ∀ row ∈ rows, row.Ok size) :
    Ends size
    (tok.plamo2Walk fuel text rows) := by
  induction fuel generalizing text rows with
  | zero =>
      obtain rfl := List.length_eq_zero_iff.1 (Nat.le_zero.1 hfuel)
      exact ends_nil size
  | succ fuel ih =>
      match text, rows with
      | [], _ => exact ends_nil size
      | c :: rest, [] => exact absurd hlen (Nat.not_succ_le_zero _)
      | c :: rest, row :: rows =>
          have hrow := hrows row List.mem_cons_self
          have hmoves := hrow.moves
          rw [List.length_cons] at hfuel
          have hfuel' : ((c :: rest).drop row.take.1).length ≤ fuel := by
            rw [List.length_drop, List.length_cons]
            omega
          have hlen' : ((c :: rest).drop row.take.1).length
              ≤ ((row :: rows).drop row.take.1).length := by
            rw [List.length_drop, List.length_drop]
            omega
          obtain ⟨ids, hids, hlt⟩ :=
            ih hfuel' hlen' fun r hr => hrows r (List.mem_of_mem_drop hr)
          rw [plamo2Walk]
          simp only [hids]
          refine ⟨_, rfl, List.forall_mem_append.2 ⟨?_, hlt⟩⟩
          split
          next id hid => exact List.forall_mem_singleton.2 (hrow.within id hid)
          · intro id hid
            obtain ⟨b, -, hb⟩ := List.mem_filterMap.1 hid
            exact hbytes b id hb

/-- `plamo2_encode` returns: a character has its row, and a byte without a
token is skipped. -/
theorem ends_plamo2Encode (htrie : Within size tok.ugm.trie)
    (htext : IsText tok.ugm.trie)
    (hbytes : Within size tok.spmByteToId) (text : Text) :
    Ends size (tok.plamo2Encode text) := by
  unfold plamo2Encode
  simp only
  generalize (if text.head? = some (Char.ofNat 0xfeff) then text.drop 1
    else text) = text
  obtain ⟨rows, hrows, hlen, hok⟩ := plamo2Rows_ok htrie htext text
  rw [hrows]
  exact ends_plamo2Walk hbytes (Nat.le_refl _) (by omega) hok

-- =============== unigram normalization

variable (tok) in
/-- The charsmap match at a place, when it decides, ends on a character
boundary. -/
def CharsmapAligned (text : Text) : Prop :=
  tok.ugm.userDefined.longestPrefixBytes (utf8Encode text) = none →
    ∀ len off, tok.charsmapMatch text = some (len, off) →
      (dropBytes len text).isSome = true

/-- The places the normalization of a text comes to. -/
inductive UgmReaches (tok : Tokenizer) : Text → Text → Prop
  | here (text : Text) : UgmReaches tok text text
  | step {text left rest replacement : Text} {consumed : Nat} : text ≠ [] →
      tok.ugmNormalizePrefix text = .ok (replacement, consumed) →
      dropBytes consumed text = some left → UgmReaches tok left rest →
        UgmReaches tok text rest

variable (tok) in
/-- Every charsmap match the normalization meets is aligned. -/
def UgmAligned (text : Text) : Prop := ∀ rest, UgmReaches tok text rest →
    tok.CharsmapAligned rest

theorem charsmapMatch_pos {off : Nat}
    (h : tok.charsmapMatch text = some (len, off)) : 1 ≤ len := by
  unfold charsmapMatch at h
  split at h
  · cases h
  · simp only at h
    split at h
    next hpos =>
      rw [Option.some.inj h] at hpos
      exact hpos
    · cases h

theorem charsmapMatch_nil : tok.charsmapMatch [] = none := by
  unfold charsmapMatch
  split
  · rfl
  · exact if_neg (Nat.lt_irrefl 0)

theorem ugmAligned_nil : tok.UgmAligned [] := by
  intro rest hreach
  cases hreach with
  | here => exact fun _ len off h => absurd (charsmapMatch_nil.symm.trans h) nofun
  | step hne => exact absurd rfl hne

/-- An aligned step takes something and stays on a boundary. -/
theorem ugmNormalizePrefix_ok (huser : IsText tok.ugm.userDefined)
    (htext : text ≠ []) (h : tok.CharsmapAligned text) :
    ∃ replacement consumed left, tok.ugmNormalizePrefix text
      = .ok (replacement, consumed)
      ∧ 1 ≤ consumed ∧ dropBytes consumed text = some left := by
  unfold ugmNormalizePrefix
  match hlong : tok.ugm.userDefined.longestPrefixBytes (utf8Encode text) with
  | some (id, len) =>
      obtain ⟨hpos, hle, hget⟩ := VocabTrie.longestPrefixBytes_some hlong
      obtain ⟨piece, rest, rfl, hdrop, -⟩ := dropBytes_of_isText huser hle hget
      simp only [takeBytes_of_dropBytes hdrop]
      exact ⟨_, _, rest, rfl, hpos, hdrop⟩
  | none =>
      simp only
      match hmatch : tok.charsmapMatch text with
      | some (len, off) =>
          obtain ⟨left, hdrop⟩ := Option.isSome_iff_exists.1 (h hlong len off hmatch)
          simp only [takeBytes, hdrop, Option.map_some]
          split
          · exact ⟨_, _, left, rfl, charsmapMatch_pos hmatch, hdrop⟩
          · exact ⟨_, _, left, rfl, charsmapMatch_pos hmatch, hdrop⟩
      | none =>
          match text, htext with
          | c :: rest, _ =>
              refine ⟨_, _, rest, rfl, c.utf8Size_pos, ?_⟩
              rw [dropBytes_cons c.utf8Size_pos, if_pos (Nat.le_refl _),
                Nat.sub_self, dropBytes]

theorem ugmNormalizePrefix_pos {replacement : Text} {consumed : Nat}
    (htext : text ≠ [])
    (h : tok.ugmNormalizePrefix text = .ok (replacement, consumed)) :
    1 ≤ consumed := by
  unfold ugmNormalizePrefix at h
  split at h
  next id len hlong =>
    split at h
    · cases h
      exact (VocabTrie.longestPrefixBytes_some hlong).1
    · cases h
  · split at h
    next len off hmatch =>
      split at h
      · cases h
        exact charsmapMatch_pos hmatch
      · split at h
        · cases h
          exact charsmapMatch_pos hmatch
        · cases h
    · match text, htext with
      | c :: rest, _ =>
          cases h
          exact c.utf8Size_pos

/-- A step that ends inside a character is the end of the call. -/
theorem charsmapAligned_of_ok {replacement left : Text} {consumed : Nat}
    (h : tok.ugmNormalizePrefix text = .ok (replacement, consumed))
    (hdrop : dropBytes consumed text = some left) : tok.CharsmapAligned text := by
  intro hlong len off hmatch
  unfold ugmNormalizePrefix at h
  rw [hlong, hmatch] at h
  simp only at h
  split at h
  · cases h
    rw [hdrop]
    rfl
  · split at h
    · cases h
      rw [hdrop]
      rfl
    · cases h

/-- The normalization returns just when every match it meets is aligned. -/
theorem ugmNormalizeLoop_ok (huser : IsText tok.ugm.userDefined)
    (hfuel : text.length ≤ fuel) (s : UgmSpaces) :
    (∃ out, tok.ugmNormalizeLoop fuel text s = .ok out) ↔ tok.UgmAligned text := by
  have hnil (fuel : Nat) (s : UgmSpaces) :
      (∃ out, tok.ugmNormalizeLoop fuel [] s = .ok out) ↔ tok.UgmAligned [] :=
    ⟨fun _ => ugmAligned_nil, fun _ => ⟨s.out, by rw [ugmNormalizeLoop]⟩⟩
  induction fuel generalizing text s with
  | zero =>
      obtain rfl := List.length_eq_zero_iff.1 (Nat.le_zero.1 hfuel)
      exact hnil 0 s
  | succ fuel ih =>
      match text with
      | [] => exact hnil _ s
      | c :: rest =>
          have hne : c :: rest ≠ [] := List.cons_ne_nil c rest
          constructor
          · rintro ⟨out, hout⟩ place hreach
            rw [ugmNormalizeLoop] at hout
            obtain ⟨⟨replacement, consumed⟩, hprefix, hout⟩ := bind_eq_ok.1 hout
            have hpos := ugmNormalizePrefix_pos hne hprefix
            simp only [if_neg (show ¬ consumed = 0 by omega)] at hout
            match hdrop : dropBytes consumed (c :: rest) with
            | none =>
                rw [hdrop] at hout
                cases hout
            | some left =>
                rw [hdrop] at hout
                have hlt := dropBytes_length hpos hdrop
                cases hreach with
                | here => exact charsmapAligned_of_ok hprefix hdrop
                | step _ hprefix' hdrop' hrest =>
                    cases hprefix.symm.trans hprefix'
                    cases hdrop.symm.trans hdrop'
                    rw [List.length_cons] at hfuel hlt
                    exact (ih (by omega) _).1 ⟨out, hout⟩ place hrest
          · intro haligned
            obtain ⟨replacement, consumed, left, hprefix, hpos, hdrop⟩ :=
              ugmNormalizePrefix_ok huser hne (haligned _ (.here _))
            have hlt := dropBytes_length hpos hdrop
            have hleft : tok.UgmAligned left := fun place hreach =>
              haligned place (.step hne hprefix hdrop hreach)
            have hle : left.length ≤ fuel := by
              rw [List.length_cons] at hfuel hlt
              omega
            obtain ⟨out, hout⟩ := (ih hle (replacement.foldl tok.ugmPush s)).2 hleft
            refine ⟨out, ?_⟩
            rw [ugmNormalizeLoop, hprefix]
            simp only [bind, Except.bind,
              if_neg (show ¬ consumed = 0 by omega), hdrop]
            exact hout

-- ===================== unigram Viterbi

/-- The table over `n` bytes: every place but the first is reached from an
earlier one, by an id below the size. -/
structure BestOk (size n : Nat) (best : List UgmBest) : Prop where
  length : best.length = n + 1
  entry : ∀ (e : Nat) (entry : UgmBest), best[e]? = some entry →
    entry.id < size ∧ (e = 0 ∨ entry.start < e)

theorem ugmChallenge_ok (h : BestOk size n best) {end_ : Nat} {entry : UgmBest}
    (hend : end_ ≤ n) (hid : entry.id < size) (hstart : entry.start < end_) :
    ∃ best', ugmChallenge best end_ entry = .ok best' ∧ BestOk size n best' := by
  have hlt : end_ < best.length := by rw [h.length]; omega
  unfold ugmChallenge
  rw [List.getElem?_eq_getElem hlt]
  refine ⟨_, rfl, ?_⟩
  split
  · refine ⟨by rw [List.length_set, h.length], fun e old he => ?_⟩
    rw [List.getElem?_set] at he
    split at he
    next heq =>
      obtain rfl := Option.some.inj he
      exact ⟨hid, Or.inr (heq ▸ hstart)⟩
    · exact h.entry e old he
  · exact h

theorem BestOk.get (h : BestOk size n best)
    {e : Nat} (he : e ≤ n) : ∃ entry, best[e]? = some entry :=
  ⟨_, List.getElem?_eq_getElem (show e < best.length by rw [h.length]; omega)⟩

theorem ugmMatches_ok {found : List (Nat × Nat)}
    (h : BestOk size n best) (current : Float)
    (hfound : ∀ p ∈ found, p.1 < size ∧ 1 ≤ p.2 ∧ offset + p.2 ≤ n) :
    ∃ best', tok.ugmMatches offset current found best = .ok best'
      ∧ BestOk size n best' := by
  induction found generalizing best with
  | nil => exact ⟨best, rfl, h⟩
  | cons p found ih =>
      obtain ⟨⟨hid, hpos, hle⟩, hrest⟩ := List.forall_mem_cons.1 hfound
      have hstart : offset < offset + p.2 := by omega
      let entry : UgmBest := ⟨p.1, offset, current + tok.ugmScore p.1⟩
      obtain ⟨best₁, hch, hok₁⟩ := @ugmChallenge_ok _ _ _ h _ entry hle hid hstart
      obtain ⟨best₂, hm, hok₂⟩ := ih hok₁ hrest
      refine ⟨best₂, ?_, hok₂⟩
      rw [ugmMatches, hch]
      exact hm

theorem ugmUnknown_ok (hunk : tok.unkToken < size) (h : BestOk size n best)
    {cpLen : Nat} (current : Float) (found : List (Nat × Nat))
    (hpos : 1 ≤ cpLen) (hle : offset + cpLen ≤ n) :
    ∃ best', tok.ugmUnknown offset cpLen current found best = .ok best'
      ∧ BestOk size n best' := by
  unfold ugmUnknown
  split
  · exact ⟨best, rfl, h⟩
  · exact ugmChallenge_ok h hle hunk (by simp only; omega)

theorem utf8Len_pos (b : UInt8) : 1 ≤ utf8Len b := by
  unfold utf8Len
  repeat' split
  all_goals decide

theorem ugmViterbi_ok (htrie : Within size tok.ugm.trie)
    (hunk : tok.unkToken < size) {bytes : List UInt8} (h : BestOk size n best)
    (hn : offset + bytes.length = n) (hfuel : bytes.length ≤ fuel) :
    ∃ best', tok.ugmViterbi fuel offset bytes best = .ok best'
      ∧ BestOk size n best' := by
  induction fuel generalizing offset bytes best with
  | zero =>
      obtain rfl := List.length_eq_zero_iff.1 (Nat.le_zero.1 hfuel)
      exact ⟨best, by rw [ugmViterbi], h⟩
  | succ fuel ih =>
      match bytes with
      | [] => exact ⟨best, by rw [ugmViterbi], h⟩
      | b :: rest =>
          rw [List.length_cons] at hn hfuel
          obtain ⟨entry, hget⟩ := h.get (show offset ≤ n by omega)
          have hcp : 1 ≤ min (utf8Len b) (rest.length + 1) :=
            Nat.le_min.2 ⟨utf8Len_pos b, Nat.le_add_left 1 _⟩
          have hcp' : min (utf8Len b) (rest.length + 1) ≤ rest.length + 1 :=
            Nat.min_le_right _ _
          generalize hk : min (utf8Len b) (rest.length + 1) = cpLen at hcp hcp'
          have hfound : ∀ p ∈ tok.ugm.trie.matchesAt (b :: rest),
              p.1 < size ∧ 1 ≤ p.2 ∧ offset + p.2 ≤ n := by
            intro p hp
            obtain ⟨hpos, hle, hg⟩ := VocabTrie.mem_matchesAt hp
            rw [List.length_cons] at hle
            exact ⟨htrie _ _ hg, hpos, by omega⟩
          obtain ⟨best₁, hm, hok₁⟩ :=
            @ugmMatches_ok tok _ _ _ _ _ h entry.score hfound
          obtain ⟨best₂, hu, hok₂⟩ := ugmUnknown_ok hunk hok₁ entry.score
            (tok.ugm.trie.matchesAt (b :: rest)) hcp
              (show offset + cpLen ≤ n by omega)
          have hlen : ((b :: rest).drop cpLen).length
            = rest.length + 1 - cpLen := List.length_drop
          have hn' : offset + cpLen + ((b :: rest).drop cpLen).length = n := by omega
          obtain ⟨best₃, hv, hok₃⟩ := ih hok₂ hn' (by omega)
          refine ⟨best₃, ?_, hok₃⟩
          rw [ugmViterbi, hget]
          simp only [bind, Except.bind, hm, hk, hu]
          exact hv

theorem ends_ugmBack (h : BestOk size n best) {at_ : Nat} (hpos : 1 ≤ at_)
    (hle : at_ ≤ n) (hfuel : at_ ≤ fuel) (prevUnknown : Bool) :
    Ends size (tok.ugmBack best fuel at_ prevUnknown) := by
  induction fuel generalizing at_ prevUnknown with
  | zero => omega
  | succ fuel ih =>
      obtain ⟨entry, hget⟩ := h.get hle
      obtain ⟨hid, hstart⟩ := h.entry at_ _ hget
      rw [ugmBack, hget]
      simp only
      have hids : ∀ id
          ∈ (if (prevUnknown && decide (entry.id = tok.unkToken)) = true
            then []
          else [entry.id]), id < size := by
        split
        · exact fun _ h => absurd h List.not_mem_nil
        · exact List.forall_mem_singleton.2 hid
      split
      · exact ends_ok.2 hids
      next h0 =>
        have hpos' : 1 ≤ entry.start := by omega
        obtain ⟨rest, hrest, hlt⟩ := ih hpos' (by omega) (by omega)
          (decide (entry.id = tok.unkToken))
        refine ⟨_, ?_, List.forall_mem_append.2 ⟨hids, hlt⟩⟩
        rw [hrest]
        rfl

/-- `ugm_encode` returns just when its normalization does. -/
theorem ends_ugmEncode (htrie : Within size tok.ugm.trie)
    (huser : IsText tok.ugm.userDefined)
    (hunk : tok.unkToken < size) (text : Text) :
    Ends size (tok.ugmEncode text) ↔ tok.UgmAligned text := by
  rw [← ugmNormalizeLoop_ok huser (Nat.le_refl _) ⟨[], false, false⟩]
  unfold ugmEncode ugmNormalize
  match tok.ugmNormalizeLoop text.length text ⟨[], false, false⟩ with
  | .error e => exact ⟨fun h => absurd h not_ends_error, fun ⟨_, h⟩ => by cases h⟩
  | .ok out =>
      refine ⟨fun _ => ⟨out, rfl⟩, fun _ => ?_⟩
      simp only [bind, Except.bind]
      split
      · exact ends_nil size
      next hne =>
        have hpos := List.length_pos_of_ne_nil hne
        have hinit : BestOk size (utf8Encode out).length (⟨tok.unkToken, 0, 0⟩
            :: List.replicate (utf8Encode out).length ⟨tok.unkToken, 0, f64Min⟩) := by
          refine ⟨by rw [List.length_cons, List.length_replicate],
            fun e entry he => ?_⟩
          match e with
          | 0 =>
              obtain rfl := Option.some.inj he
              exact ⟨hunk, Or.inl rfl⟩
          | e + 1 =>
              rw [List.getElem?_cons_succ, List.getElem?_replicate] at he
              split at he
              · obtain rfl := Option.some.inj he
                exact ⟨hunk, Or.inr (Nat.succ_pos e)⟩
              · cases he
        obtain ⟨best, hbest, hok⟩ :=
          ugmViterbi_ok htrie hunk hinit (Nat.zero_add _) (Nat.le_refl _)
        obtain ⟨ids, hids, hlt⟩ :=
          @ends_ugmBack tok _ _ _ _ hok _ hpos (Nat.le_refl _)
          (Nat.le_succ _) false
        rw [hbest]
        simp only [hids]
        exact ⟨ids.reverse, rfl, fun id hid => hlt id (List.mem_reverse.1 hid)⟩

end Tokenizer

end Minfer.Tokenize
