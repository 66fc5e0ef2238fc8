/-
NFC is canonical (`tokenizer/nfc.rs`).

`compose` moves a mark next to the starter it composes with. It may do so only
past marks of lower classes, and these it may pass without a change of the
canonical order: `Composed` says that what is written so far, decomposed again,
is the same up to runs as what was read. From it the round trips between the
two forms follow, and from them that NFC is stable. What the tables must leave
out for the two short cuts is `Absent`.
-/
import Mathlib.Data.List.TakeWhile
import Minfer.Lib.RunSort
import Minfer.Tokenizer.Nfc

namespace Minfer.Tokenize.Nfc

open Minfer.Lib.Runs

/-- The conditions on the tables: a composition undoes a decomposition into a
starter and a second character, and the seconds are those of the table. -/
structure Tables.Consistent (t : Tables) : Prop where
  inverts : ∀ a b c, ((a, b), c) ∈ t.composition →
    (c, [a, b]) ∈ t.decomposition ∧ t.combiningClassOf a = 0
      ∧ t.combiningClassOf c = 0
  seconds : ∀ b, b ∈ t.compositionSecond ↔ ∃ a c, ((a, b), c) ∈ t.composition

/-- ASCII and Hangul are not in the tables: such a character does not
decompose, is a starter, and is no second. -/
def Tables.Absent (t : Tables) : Prop :=
  ∀ cp, cp < 0x80 ∨ isHangulJamo cp = true ∨ isHangulSyllable cp = true →
    t.decompositionOf cp = none ∧ t.combiningClassOf cp = 0
      ∧ t.isCompositionSecond cp = false

variable {t : Tables}

-- ============================== tables

variable {cp a b c : Nat} {s : Tables.Composing} {seen cps done : List Nat}
  {x : Text}

theorem decompositionOf_of_mem {parts : List Nat}
    (h : (cp, parts) ∈ t.decomposition) :
    t.decompositionOf cp = some parts := by
  have hkeys : ∀ l : List (Nat × List Nat), l.Pairwise (·.1 < ·.1) → (cp, parts) ∈ l →
      l.find? (·.1 = cp) = some (cp, parts) := by
    intro l hsorted hmem
    induction l with
    | nil => cases hmem
    | cons e l ih =>
        obtain ⟨hhead, htail⟩ := List.pairwise_cons.mp hsorted
        rcases List.mem_cons.mp hmem with rfl | hrest
        · simp
        · rw [List.find?_cons_of_neg (by simpa using (hhead _ hrest).ne),
            ih htail hrest]
  rw [Tables.decompositionOf, hkeys _ t.decomposition_sorted h]
  rfl

theorem composePair_table (hc : t.Consistent)
    (h : (t.composition.find? (·.1 = (a, b))).map (·.2) = some c) :
    t.decompositionOf c = some [a, b] ∧ t.isCompositionSecond b = true := by
  rw [Option.map_eq_some_iff] at h
  obtain ⟨⟨key, c'⟩, hfind, rfl⟩ := h
  have hkey := List.find?_some hfind
  obtain rfl : key = (a, b) := by simpa using hkey
  have hmem := List.mem_of_find?_eq_some hfind
  refine ⟨decompositionOf_of_mem (hc.inverts a b c' hmem).1, ?_⟩
  rw [Tables.isCompositionSecond, List.contains_iff_mem]
  exact (hc.seconds b).mpr ⟨a, c', hmem⟩

/-- `push_decomposed` without the bookkeeping of its recursion. -/
theorem pushDecomposed_eq (cp : Nat) : t.pushDecomposed cp =
    if isHangulSyllable cp then
      [lBase + (cp - sBase) / nCount, vBase + (cp - sBase) % nCount / tCount]
        ++ if (cp - sBase) % tCount ≠ 0 then [tBase + (cp - sBase) % tCount] else []
    else
      match t.decompositionOf cp with
      | some parts => parts.flatMap t.pushDecomposed
      | none => [cp] := by
  rw [Tables.pushDecomposed]
  split
  · rfl
  · split
    next parts h =>
      rw [h]
      simp only [List.flatMap_subtype, List.unattach_attach]
    next h => rw [h]

-- ============================== primes

/-- A code point that is left alone. -/
def Prime (t : Tables) (cp : Nat) : Prop := t.pushDecomposed cp = [cp]

theorem inRange_iff {base count : Nat} : inRange base count cp = true
    ↔ base ≤ cp ∧ cp < base + count :=
  decide_eq_true_iff

theorem isHangulSyllable_iff : isHangulSyllable cp = true
    ↔ sBase ≤ cp ∧ cp < sBase + sCount := inRange_iff

theorem isHangulJamo_iff : isHangulJamo cp = true ↔
    (lBase ≤ cp ∧ cp < lBase + lCount) ∨ (vBase ≤ cp ∧ cp < vBase + vCount)
      ∨ (tBase < cp ∧ cp < tBase + tCount) := by
  rw [isHangulJamo, Bool.or_eq_true, Bool.or_eq_true, inRange_iff, inRange_iff,
    inRange_iff, or_assoc]
  rfl

theorem prime_of_none (hsyllable : isHangulSyllable cp = false)
    (h : t.decompositionOf cp = none) :
    Prime t cp := by
  rw [Prime, pushDecomposed_eq, hsyllable, h]
  rfl

theorem not_syllable_of_jamo (h : isHangulJamo cp = true) :
    isHangulSyllable cp = false := by
  rw [Bool.eq_false_iff, ne_eq, isHangulSyllable_iff]
  rw [isHangulJamo_iff] at h
  simp only [lBase, lCount, vBase, vCount, tBase, tCount, sBase] at h ⊢
  omega

theorem prime_of_jamo (ha : t.Absent) (h : isHangulJamo cp = true) :
    Prime t cp :=
  prime_of_none (not_syllable_of_jamo h) (ha cp (.inr (.inl h))).1

theorem prime_of_ascii (ha : t.Absent) (h : cp < 0x80) :
    Prime t cp := by
  apply prime_of_none _ (ha cp (.inl h)).1
  rw [Bool.eq_false_iff, ne_eq, isHangulSyllable_iff, sBase]
  omega

/-- The three jamo of a syllable. -/
theorem syllable_jamo (h : isHangulSyllable cp = true) :
    inRange lBase lCount (lBase + (cp - sBase) / nCount) = true
    ∧ inRange vBase vCount (vBase + (cp - sBase) % nCount / tCount) = true
    ∧ ((cp - sBase) % tCount ≠ 0 →
      inRange (tBase + 1) (tCount - 1) (tBase + (cp - sBase) % tCount)
      = true) := by
  rw [isHangulSyllable_iff] at h
  rw [inRange_iff, inRange_iff, inRange_iff]
  simp only [lBase, lCount, vBase, vCount, tBase, tCount, sBase, sCount,
    nCount] at h ⊢
  omega

theorem jamo_of_lead (h : inRange lBase lCount cp = true) :
    isHangulJamo cp = true := by
  rw [isHangulJamo, h]
  rfl

theorem jamo_of_vowel (h : inRange vBase vCount cp = true) :
    isHangulJamo cp = true := by
  rw [isHangulJamo, h, Bool.or_true]
  rfl

theorem jamo_of_tail (h : inRange (tBase + 1) (tCount - 1) cp = true) :
    isHangulJamo cp = true := by
  rw [isHangulJamo, h, Bool.or_true]

/-- What a syllable decomposes into is jamo. -/
theorem jamo_of_mem {part : Nat} (h : isHangulSyllable cp = true)
    (hmem : part ∈ t.pushDecomposed cp) :
    isHangulJamo part = true := by
  obtain ⟨hlead, hvowel, htail⟩ := syllable_jamo h
  rw [pushDecomposed_eq, if_pos h, List.mem_append, List.mem_cons,
    List.mem_singleton] at hmem
  rcases hmem with (rfl | rfl) | hmem
  · exact jamo_of_lead hlead
  · exact jamo_of_vowel hvowel
  · by_cases hzero : (cp - sBase) % tCount ≠ 0
    · rw [if_pos hzero, List.mem_singleton] at hmem
      exact hmem ▸ jamo_of_tail (htail hzero)
    · rw [if_neg hzero] at hmem
      cases hmem

/-- What a character decomposes into is left alone. -/
theorem prime_of_mem (ha : t.Absent) {part : Nat}
    (hmem : part ∈ t.pushDecomposed cp) : Prime t part := by
  induction cp using t.decomposition_founded.induction with
  | _ cp ih =>
      by_cases hsyllable : isHangulSyllable cp = true
      · exact prime_of_jamo ha (jamo_of_mem hsyllable hmem)
      · rw [pushDecomposed_eq, if_neg hsyllable] at hmem
        cases hparts : t.decompositionOf cp with
        | none =>
            rw [hparts, List.mem_singleton] at hmem
            exact hmem ▸ prime_of_none (Bool.eq_false_iff.mpr hsyllable) hparts
        | some parts =>
            rw [hparts] at hmem
            obtain ⟨p, hp, hpart⟩ := List.mem_flatMap.mp hmem
            exact ih p ⟨parts, t.mem_of_decompositionOf hparts, hp⟩ hpart

theorem flatMap_prime {l : List Nat} (h : ∀ cp ∈ l, Prime t cp) :
    l.flatMap t.pushDecomposed = l := by
  induction l with
  | nil => rfl
  | cons cp l ih =>
      have hcp : t.pushDecomposed cp = [cp] := h cp List.mem_cons_self
      rw [List.flatMap_cons, hcp, ih fun b hb =>
        h b (List.mem_cons_of_mem cp hb), List.singleton_append]

-- =============================== pairs

/-- What `compose_pair` finds: a Hangul pair, or an entry of the table. -/
theorem composePair_cases (hc : t.Consistent)
    (h : t.composePair a b = some c) :
    (inRange lBase lCount a = true ∧ inRange vBase vCount b = true
      ∧ c = sBase + ((a - lBase) * vCount + (b - vBase)) * tCount)
    ∨ (isHangulSyllable a = true ∧ (a - sBase) % tCount = 0
      ∧ inRange (tBase + 1) (tCount - 1) b = true
      ∧ c = a + (b - tBase))
    ∨ (t.decompositionOf c = some [a, b] ∧ t.isCompositionSecond b = true) := by
  rw [Tables.composePair] at h
  split at h
  next hpair => exact .inl ⟨hpair.1, hpair.2, (Option.some.inj h).symm⟩
  next =>
    split at h
    next hpair =>
      exact .inr (.inl ⟨hpair.1, hpair.2.1, hpair.2.2,
        (Option.some.inj h).symm⟩)
    next => exact .inr (.inr (composePair_table hc h))

/-- The jamo of a syllable that a lead and a vowel compose to. -/
theorem lead_vowel (ha : inRange lBase lCount a = true)
    (hb : inRange vBase vCount b = true)
    (hc : c = sBase + ((a - lBase) * vCount + (b - vBase)) * tCount) :
    t.pushDecomposed c = [a, b] := by
  rw [inRange_iff] at ha hb
  simp only [lBase, lCount, vBase, vCount, tCount, sBase] at ha hb hc
  have hsyllable : isHangulSyllable c = true := by
    rw [isHangulSyllable_iff]
    simp only [lCount, vCount, tCount, sBase, sCount, nCount]
    omega
  have hlead : lBase + (c - sBase) / nCount = a := by
    simp only [lBase, sBase, nCount, vCount, tCount]
    omega
  have hvowel : vBase + (c - sBase) % nCount / tCount = b := by
    simp only [vBase, sBase, nCount, vCount, tCount]
    omega
  have htail : ¬ (c - sBase) % tCount ≠ 0 := by
    simp only [sBase, tCount]
    omega
  rw [pushDecomposed_eq, if_pos hsyllable, hlead, hvowel, if_neg htail,
    List.append_nil]

/-- A tail composes with a syllable that has none. -/
theorem syllable_tail (ha : isHangulSyllable a = true)
    (hnone : (a - sBase) % tCount = 0)
    (hb : inRange (tBase + 1) (tCount - 1) b = true) (hc : c = a + (b - tBase)) :
    t.pushDecomposed c = t.pushDecomposed a ++ [b] := by
  have hin := isHangulSyllable_iff.mp ha
  rw [inRange_iff] at hb
  simp only [tBase, tCount, sBase, sCount, nCount, lCount, vCount] at hin hb hc hnone
  have hsyllable : isHangulSyllable c = true := by
    rw [isHangulSyllable_iff]
    simp only [lCount, vCount, tCount, sBase, sCount, nCount]
    omega
  have hlead : (c - sBase) / nCount = (a - sBase) / nCount := by
    simp only [sBase, nCount, vCount, tCount]
    omega
  have hvowel : (c - sBase) % nCount / tCount = (a - sBase) % nCount / tCount := by
    simp only [sBase, nCount, vCount, tCount]
    omega
  have htail : tBase + (c - sBase) % tCount = b := by
    simp only [tBase, sBase, tCount]
    omega
  have hsome : (c - sBase) % tCount ≠ 0 := by
    simp only [sBase, tCount]
    omega
  have hbare : ¬ (a - sBase) % tCount ≠ 0 := by
    simp only [sBase, tCount]
    omega
  rw [pushDecomposed_eq c, pushDecomposed_eq a, if_pos hsyllable, if_pos ha,
    hlead, hvowel, if_pos hsome, htail, if_neg hbare, List.append_nil]

/-- A composition undoes a decomposition. -/
theorem pushDecomposed_composed (hc : t.Consistent) (ha : t.Absent)
    (h : t.composePair a b = some c) (hb : Prime t b) :
    t.pushDecomposed c = t.pushDecomposed a ++ [b] := by
  obtain ⟨hlead, hvowel, hval⟩ | ⟨hsyllable, hnone, htail, hval⟩
    | ⟨hparts, -⟩ := composePair_cases hc h
  · have hprime : t.pushDecomposed a = [a] := prime_of_jamo ha (jamo_of_lead hlead)
    rw [lead_vowel hlead hvowel hval, hprime]
    rfl
  · exact syllable_tail hsyllable hnone htail hval
  · have hnot : ¬ isHangulSyllable c = true := by
      intro hsyllable
      rw [(ha c (.inr (.inr hsyllable))).1] at hparts
      cases hparts
    rw [Prime] at hb
    rw [pushDecomposed_eq c, if_neg hnot, hparts]
    simp [hb]

-- ============================= compose

/-- What has been composed of the code points read so far: decomposed again it
is the same up to runs. The code points after the last starter are left alone,
and none of them is of a higher class than the last one read. -/
structure Composed (t : Tables) (s : Tables.Composing) (seen : List Nat) : Prop where
  same : Same t.combiningClassOf (s.out.flatMap t.pushDecomposed) seen
  last : ∀ si, s.starter = some si →
    ∃ before c rest, s.out = before ++ c :: rest ∧ before.length = si
    ∧ (∀ r ∈ rest, Prime t r ∧ t.combiningClassOf r ≠ 0
      ∧ t.combiningClassOf r ≤ s.lastClass)
    ∧ (rest ≠ [] → ∃ p, seen.getLast? = some p ∧ s.lastClass ≤ t.combiningClassOf p)

theorem composed_nil : Composed t ⟨[], none, 0⟩ [] := ⟨Same.refl _, nofun⟩

/-- A code point that is pushed. -/
theorem Composed.push (h : Composed t s seen) (hprime : Prime t cp)
    (hnext : ∀ p ∈ seen.getLast?, Before t.combiningClassOf p cp) :
    Composed t (t.push s cp) (seen ++ [cp]) where
  same := by
    have hcp : t.pushDecomposed cp = [cp] := hprime
    rw [Tables.push, List.flatMap_append, List.flatMap_singleton, hcp]
    exact h.same.append_right [cp]
  last := by
    intro si hsi
    rw [Tables.push] at hsi ⊢
    by_cases hclass : t.combiningClassOf cp = 0
    · simp only [if_pos hclass, Option.some.injEq] at hsi
      exact ⟨s.out, cp, [], rfl, hsi, nofun, nofun⟩
    · simp only [if_neg hclass] at hsi
      obtain ⟨before, c, rest, hout, hlen, hrest, hlast⟩ := h.last si hsi
      refine ⟨before, c, rest ++ [cp], by rw [hout, List.append_assoc]; rfl,
        hlen, ?_, ?_⟩
      · intro r hr
        rcases List.mem_append.mp hr with hr | hr
        · obtain ⟨hrp, hrc, hle⟩ := hrest r hr
          obtain ⟨p, hp, hlow⟩ := hlast (List.ne_nil_of_mem hr)
          have hup : t.combiningClassOf p ≤ t.combiningClassOf cp :=
            (hnext p hp).resolve_left hclass
          exact ⟨hrp, hrc, hle.trans (hlow.trans hup)⟩
        · obtain rfl := List.mem_singleton.mp hr
          exact ⟨hprime, hclass, le_rfl⟩
      · exact fun _ => ⟨cp, List.getLast?_concat .., le_rfl⟩

/-- A code point that composes with the last starter. -/
theorem Composed.join {before rest : List Nat} {composed : Nat}
    (h : Composed t s seen) (hout : s.out = before ++ c :: rest)
    (hstarter : s.starter = some before.length)
    (hrest : ∀ r ∈ rest, Prime t r ∧ t.combiningClassOf r ≠ 0
      ∧ t.combiningClassOf r ≤ s.lastClass)
    (hfree : rest ≠ [] → s.lastClass < t.combiningClassOf cp)
    (hcomposed : t.pushDecomposed composed = t.pushDecomposed c ++ [cp]) :
    Composed t { s with out := s.out.set before.length composed } (seen ++ [cp]) := by
  have hset : s.out.set before.length composed
    = before ++ composed :: rest := by rw [hout]; simp
  have hplain : rest.flatMap t.pushDecomposed = rest :=
    flatMap_prime fun r hr => (hrest r hr).1
  -- what stands between is of a lower class
  have hlower : ∀ r ∈ rest, t.combiningClassOf r ≠ 0
      ∧ t.combiningClassOf r < t.combiningClassOf cp := by
    intro r hr
    obtain ⟨-, hclass, hle⟩ := hrest r hr
    exact ⟨hclass, lt_of_le_of_lt hle (hfree (List.ne_nil_of_mem hr))⟩
  constructor
  · have hsame := h.same.append_right [cp]
    have hpast :=
      (Same.past hlower).symm.append_left
      (before.flatMap t.pushDecomposed ++ t.pushDecomposed c)
    rw [hout, List.flatMap_append, List.flatMap_cons, hplain] at hsame
    simp only [hset, List.flatMap_append, List.flatMap_cons, hplain, hcomposed]
    simp only [List.append_assoc, List.singleton_append] at hsame hpast ⊢
    exact hpast.trans hsame
  · intro si hsi
    obtain rfl : before.length = si := Option.some.inj (hstarter.symm.trans hsi)
    exact ⟨before, composed, rest, hset, rfl, hrest,
      fun hne => ⟨cp, List.getLast?_concat .., (hfree hne).le⟩⟩

/-- One turn of the loop. -/
theorem Composed.step (hc : t.Consistent) (ha : t.Absent)
    (h : Composed t s seen) (hprime : Prime t cp)
    (hnext : ∀ p ∈ seen.getLast?, Before t.combiningClassOf p cp) :
    Composed t (t.composeStep s cp) (seen ++ [cp]) := by
  rw [Tables.composeStep]
  cases hstarter : s.starter with
  | none => exact h.push hprime hnext
  | some si =>
      dsimp only
      obtain ⟨before, c, rest, hout, rfl, hrest, -⟩ := h.last si hstarter
      split
      next => exact h.push hprime hnext
      next hblocked =>
        have hget : s.out[before.length]? = some c := by rw [hout]; simp
        have hfree : rest ≠ [] → s.lastClass < t.combiningClassOf cp := by
          intro hne
          refine lt_of_not_ge fun hge => hblocked ⟨?_, hge⟩
          have hpos := List.length_pos_iff.mpr hne
          rw [hout, List.length_append, List.length_cons]
          omega
        rw [hget, Option.bind_some]
        cases hpair : t.composePair c cp with
        | none => exact h.push hprime hnext
        | some composed =>
            exact hstarter ▸ h.join hout hstarter hrest hfree
              (pushDecomposed_composed hc ha hpair hprime)

/-- The whole loop, over a sequence whose runs are sorted. -/
theorem Composed.run (hc : t.Consistent) (ha : t.Absent) {todo : List Nat}
    (h : Composed t s seen) (hprime : ∀ cp ∈ todo, Prime t cp)
    (hsorted : Sorted t.combiningClassOf (seen ++ todo)) :
    Composed t (todo.foldl t.composeStep s) (seen ++ todo) := by
  induction todo generalizing s seen with
  | nil => rwa [List.append_nil]
  | cons cp todo ih =>
      have hnext : ∀ p ∈ seen.getLast?, Before t.combiningClassOf p cp := fun p hp =>
        (List.isChain_append.mp hsorted).2.2 p hp cp rfl
      rw [List.append_cons] at hsorted ⊢
      exact ih (h.step hc ha (hprime cp List.mem_cons_self) hnext)
        (fun b hb => hprime b (List.mem_cons_of_mem cp hb)) hsorted

/-- Composing and decomposing again gives the sequence back. -/
theorem decomposed_compose (hc : t.Consistent) (ha : t.Absent)
    (hprime : ∀ cp ∈ cps, Prime t cp)
    (hsorted : Sorted t.combiningClassOf cps) :
    runSort t.combiningClassOf ((t.compose cps).flatMap t.pushDecomposed) = cps := by
  have hrun := (composed_nil (t := t)).run hc ha hprime hsorted
  exact hrun.same.runSort_eq.trans (runSort_of_sorted hsorted)

-- =============================== order

/-- `canonical_order` sorts the runs. -/
theorem canonicalOrder_eq (cps : List Nat) :
    t.canonicalOrder cps = runSort t.combiningClassOf cps := by
  induction cps using Tables.canonicalOrder.induct t with
  | case1 => rw [Tables.canonicalOrder]; rfl
  | case2 cp rest hclass ih =>
      rw [Tables.canonicalOrder, if_pos hclass, ih, runSort_cons, place,
        if_pos hclass]
  | case3 cp rest hclass ih =>
      have hrun : ∀ b ∈ cp :: rest.takeWhile (t.combiningClassOf · ≠ 0),
          t.combiningClassOf b ≠ 0 := by
        intro b hb
        rcases List.mem_cons.mp hb with rfl | hb
        · exact hclass
        · simpa using List.mem_takeWhile_imp hb
      have hrest : ∀ b ∈ (rest.dropWhile (t.combiningClassOf · ≠ 0)).head?,
          t.combiningClassOf b = 0 := by
        intro b hb
        have hnot := List.head?_dropWhile_not (t.combiningClassOf · ≠ 0) rest
        rw [hb] at hnot
        simpa using hnot
      have hsplit := runSort_run hrun (head_runSort hrest)
      rw [List.cons_append, List.takeWhile_append_dropWhile] at hsplit
      rw [Tables.canonicalOrder, if_neg hclass, ih, hsplit]
      rfl

/-- The decomposition of a text, in canonical order. -/
theorem ordered_spec (ha : t.Absent) (x : Text) :
    (∀ cp ∈ t.canonicalOrder (t.decompose x), Prime t cp)
    ∧ Sorted t.combiningClassOf (t.canonicalOrder (t.decompose x)) := by
  rw [canonicalOrder_eq]
  refine ⟨fun cp hcp => ?_, sorted_runSort _⟩
  obtain ⟨c, -, hmem⟩ := List.mem_flatMap.mp ((perm_runSort _).mem_iff.mp hcp)
  exact prime_of_mem ha hmem

-- ========================== characters

theorem toNat_ofNat_of_valid {n : Nat} (h : n.isValidChar) :
    (Char.ofNat n).toNat = n := by
  rw [Char.ofNat, dif_pos h]
  rfl

theorem valid_of_lt {n : Nat} (h : n < 0xD800) : n.isValidChar := .inl h

theorem toText_ok (h : ∀ cp ∈ cps, cp.isValidChar) :
    Tables.toText cps = .ok (cps.map Char.ofNat)
      ∧ (cps.map Char.ofNat).map Char.toNat = cps := by
  induction cps with
  | nil => exact ⟨rfl, rfl⟩
  | cons cp cps ih =>
      obtain ⟨hrun, hback⟩ := ih fun b hb => h b (List.mem_cons_of_mem cp hb)
      have hcp := h cp List.mem_cons_self
      rw [Tables.toText, if_pos hcp, hrun]
      refine ⟨rfl, ?_⟩
      rw [List.map_cons, List.map_cons, hback, toNat_ofNat_of_valid hcp]

theorem valid_of_mem {part : Nat} (h : cp.isValidChar)
    (hmem : part ∈ t.pushDecomposed cp) : part.isValidChar := by
  induction cp using t.decomposition_founded.induction with
  | _ cp ih =>
      by_cases hsyllable : isHangulSyllable cp = true
      · have hjamo := isHangulJamo_iff.mp (jamo_of_mem hsyllable hmem)
        simp only [lBase, lCount, vBase, vCount, tBase, tCount] at hjamo
        apply valid_of_lt
        omega
      · rw [pushDecomposed_eq, if_neg hsyllable] at hmem
        cases hparts : t.decompositionOf cp with
        | none =>
            rw [hparts, List.mem_singleton] at hmem
            exact hmem ▸ h
        | some parts =>
            rw [hparts] at hmem
            obtain ⟨p, hp, hpart⟩ := List.mem_flatMap.mp hmem
            have hentry := t.mem_of_decompositionOf hparts
            exact ih p ⟨parts, hentry, hp⟩
              ((t.decomposition_characters _ hentry).2 p hp) hpart

/-- A composition is a character. -/
theorem valid_composed (hc : t.Consistent)
    (h : t.composePair a b = some c) : c.isValidChar := by
  obtain ⟨hlead, hvowel, hval⟩ | ⟨hsyllable, hnone, htail, hval⟩
    | ⟨hparts, -⟩ := composePair_cases hc h
  · rw [inRange_iff] at hlead hvowel
    simp only [lBase, lCount, vBase, vCount] at hlead hvowel
    apply valid_of_lt
    rw [hval]
    simp only [lBase, vBase, vCount, tCount, sBase]
    omega
  · rw [isHangulSyllable_iff] at hsyllable
    rw [inRange_iff] at htail
    simp only [sBase, sCount, nCount, lCount, vCount, tCount, tBase]
      at hsyllable hnone htail
    apply valid_of_lt
    rw [hval]
    simp only [tBase]
    omega
  · exact (t.decomposition_characters _ (t.mem_of_decompositionOf hparts)).1

theorem valid_step (hc : t.Consistent) (h : ∀ c ∈ s.out, c.isValidChar)
    (hcp : cp.isValidChar) : ∀ c ∈ (t.composeStep s cp).out, c.isValidChar := by
  have hpush : ∀ c ∈ (t.push s cp).out, c.isValidChar := by
    intro c hc
    rcases List.mem_append.mp hc with hc | hc
    · exact h c hc
    · exact List.mem_singleton.mp hc ▸ hcp
  rw [Tables.composeStep]
  split
  · exact hpush
  · split
    · exact hpush
    · split
      next composed hpair =>
        intro c hmem
        obtain ⟨a, -, ha⟩ := Option.bind_eq_some_iff.mp hpair
        rcases List.mem_or_eq_of_mem_set hmem with hmem | rfl
        · exact h c hmem
        · exact valid_composed hc ha
      · exact hpush

theorem valid_compose (hc : t.Consistent) (h : ∀ cp ∈ cps, cp.isValidChar) :
    ∀ cp ∈ t.compose cps, cp.isValidChar := by
  have hrun : ∀ s : Tables.Composing, (∀ c ∈ s.out, c.isValidChar) →
      ∀ c ∈ (cps.foldl t.composeStep s).out, c.isValidChar := by
    induction cps with
    | nil => exact fun s hs => hs
    | cons cp cps ih =>
        exact fun s hs => ih (fun b hb => h b (List.mem_cons_of_mem cp hb)) _
          (valid_step hc hs (h cp List.mem_cons_self))
  exact hrun _ (by simp)

-- ========================== short cuts

/-- A code point that `needs_normalization` passes over. -/
def Inert (t : Tables) (cp : Nat) : Prop :=
  t.decompositionOf cp = none ∧ t.combiningClassOf cp = 0 ∧ isHangulJamo cp = false
    ∧ t.isCompositionSecond cp = false

theorem inert_of_not_needed (h : t.needsNormalization x = false) :
    ∀ cp ∈ x.map Char.toNat, Inert t cp := by
  intro cp hcp
  obtain ⟨c, hc, rfl⟩ := List.mem_map.mp hcp
  have hno := List.any_eq_false.mp h c hc
  simp only [Bool.or_eq_true, not_or, Bool.not_eq_true,
    decide_eq_false_iff_not, ne_eq, not_not,
    Option.isSome_eq_false_iff, Option.isNone_iff_eq_none] at hno
  exact ⟨hno.1.1.1, hno.1.1.2, hno.1.2, hno.2⟩

theorem inert_of_ascii (ha : t.Absent) (h : Tables.isAscii x = true) :
    ∀ cp ∈ x.map Char.toNat, Inert t cp ∧ Prime t cp := by
  intro cp hcp
  obtain ⟨c, hc, rfl⟩ := List.mem_map.mp hcp
  have hlt : c.toNat < 0x80 := of_decide_eq_true (List.all_eq_true.mp h c hc)
  obtain ⟨hparts, hclass, hsecond⟩ := ha _ (.inl hlt)
  have hjamo : isHangulJamo c.toNat = false := by
    rw [Bool.eq_false_iff, ne_eq, isHangulJamo_iff]
    simp only [lBase, vBase, tBase]
    omega
  exact ⟨⟨hparts, hclass, hjamo, hsecond⟩, prime_of_ascii ha hlt⟩

/-- The code points of an inert text are starters when decomposed. -/
theorem starters_of_inert (ha : t.Absent) (h : ∀ cp ∈ cps, Inert t cp) :
    ∀ part ∈ cps.flatMap t.pushDecomposed, t.combiningClassOf part = 0 := by
  intro part hpart
  obtain ⟨cp, hcp, hmem⟩ := List.mem_flatMap.mp hpart
  by_cases hsyllable : isHangulSyllable cp = true
  · exact (ha part (.inr (.inl (jamo_of_mem hsyllable hmem)))).2.1
  · rw [pushDecomposed_eq, if_neg hsyllable, (h cp hcp).1, List.mem_singleton] at hmem
    exact hmem ▸ (h cp hcp).2.1

/-- The state of the loop after starters that did not compose. -/
def plainState (done : List Nat) : Tables.Composing :=
  ⟨done, if done = [] then none else some (done.length - 1), 0⟩

/-- A code point that begins no tail of a pair is pushed. -/
theorem step_plain (hc : t.Consistent) (hclass : t.combiningClassOf cp = 0)
    (hvowel : inRange vBase vCount cp = false)
    (htail : inRange (tBase + 1) (tCount - 1) cp = false)
    (hsecond : t.isCompositionSecond cp = false) :
    t.composeStep (plainState done) cp = plainState (done ++ [cp]) := by
  have hpush : t.push (plainState done) cp = plainState (done ++ [cp]) := by
    rw [Tables.push, hclass]
    simp [plainState]
  have hpair : ∀ a, t.composePair a cp = none := by
    intro a
    cases h : t.composePair a cp with
    | none => rfl
    | some c =>
        obtain ⟨-, hv, -⟩ | ⟨-, -, ht, -⟩ | ⟨-, hs⟩ := composePair_cases hc h
        · rw [hvowel] at hv
          cases hv
        · rw [htail] at ht
          cases ht
        · rw [hsecond] at hs
          cases hs
  rw [Tables.composeStep]
  split
  · exact hpush
  · simp only [hpair, Option.bind_fun_none, hpush, ite_self]

/-- A code point that composes with the one before it. -/
theorem step_join (h : t.composePair a cp = some c) :
    t.composeStep (plainState (done ++ [a])) cp = plainState (done ++ [c]) := by
  have hstart : plainState (done ++ [a])
    = ⟨done ++ [a], some done.length, 0⟩ := by simp [plainState]
  have hget : (done ++ [a])[done.length]? = some a := List.getElem?_concat_length
  rw [hstart, Tables.composeStep]
  dsimp only
  rw [if_neg (by simp), hget, Option.bind_some, h]
  simp [plainState]

/-- A lead that follows anything is pushed. -/
theorem step_lead (hc : t.Consistent) (ha : t.Absent)
    (h : inRange lBase lCount cp = true) : t.composeStep
    (plainState done) cp = plainState (done ++ [cp]) := by
  obtain ⟨-, hclass, hsecond⟩ := ha cp (.inr (.inl (jamo_of_lead h)))
  rw [inRange_iff] at h
  apply step_plain hc hclass _ _ hsecond
  · rw [Bool.eq_false_iff, ne_eq, inRange_iff]
    simp only [lBase, lCount, vBase] at h ⊢
    omega
  · rw [Bool.eq_false_iff, ne_eq, inRange_iff]
    simp only [lBase, lCount, tBase] at h ⊢
    omega

/-- A syllable without its tail, and the tail. -/
theorem composePair_tail (h : isHangulSyllable cp = true)
    (hsome : (cp - sBase) % tCount ≠ 0) :
    t.composePair (cp - (cp - sBase) % tCount) (tBase + (cp - sBase) % tCount)
      = some cp := by
  have hin := isHangulSyllable_iff.mp h
  have htail := (syllable_jamo h).2.2 hsome
  have hbare : isHangulSyllable (cp - (cp - sBase) % tCount) = true := by
    rw [isHangulSyllable_iff]
    simp only [sBase, sCount, nCount, lCount, vCount, tCount] at hin ⊢
    omega
  have hwhole : (cp - (cp - sBase) % tCount - sBase) % tCount = 0 := by
    simp only [sBase, tCount] at hin ⊢
    omega
  have hnotLead : ¬ (inRange lBase lCount (cp - (cp - sBase) % tCount) = true
      ∧ inRange vBase vCount (tBase + (cp - sBase) % tCount) = true) := by
    rw [inRange_iff, inRange_iff]
    simp only [sBase, tCount, lBase, lCount] at hin ⊢
    omega
  have hsum : cp - (cp - sBase) % tCount
      + (tBase + (cp - sBase) % tCount - tBase) = cp := by
    simp only [sBase, tCount, tBase] at hin ⊢
    omega
  rw [Tables.composePair, if_neg hnotLead, if_pos ⟨hbare, hwhole, htail⟩, hsum]

/-- The jamo of a syllable compose to it again. -/
theorem run_syllable (hc : t.Consistent) (ha : t.Absent)
    (h : isHangulSyllable cp = true) :
    (t.pushDecomposed cp).foldl t.composeStep (plainState done)
      = plainState (done ++ [cp]) := by
  obtain ⟨hlead, hvowel, -⟩ := syllable_jamo h
  have hin := isHangulSyllable_iff.mp h
  have hval : sBase + ((lBase + (cp - sBase) / nCount - lBase) * vCount
      + (vBase + (cp - sBase) % nCount / tCount - vBase)) * tCount
          = cp - (cp - sBase) % tCount := by
    simp only [sBase, sCount, nCount, lCount, vCount, tCount, lBase, vBase] at hin ⊢
    omega
  have hpair : t.composePair (lBase + (cp - sBase) / nCount)
      (vBase + (cp - sBase) % nCount / tCount)
      = some (cp - (cp - sBase) % tCount) := by
    rw [Tables.composePair, if_pos ⟨hlead, hvowel⟩, hval]
  rw [pushDecomposed_eq, if_pos h, List.foldl_append, List.foldl_cons,
    List.foldl_cons, List.foldl_nil, step_lead hc ha hlead, step_join hpair]
  by_cases hsome : (cp - sBase) % tCount ≠ 0
  · rw [if_pos hsome, List.foldl_cons, List.foldl_nil,
      step_join (composePair_tail h hsome)]
  · rw [if_neg hsome, not_not.mp hsome]
    rfl

/-- An inert text is composed of itself. -/
theorem run_inert (hc : t.Consistent) (ha : t.Absent)
    (h : ∀ cp ∈ cps, Inert t cp) :
    (cps.flatMap t.pushDecomposed).foldl t.composeStep (plainState done)
      = plainState (done ++ cps) := by
  induction cps generalizing done with
  | nil => rw [List.append_nil]; rfl
  | cons cp cps ih =>
      obtain ⟨hparts, hclass, hjamo, hsecond⟩ := h cp List.mem_cons_self
      have hone : (t.pushDecomposed cp).foldl t.composeStep (plainState done)
          = plainState (done ++ [cp]) := by
        by_cases hsyllable : isHangulSyllable cp = true
        · exact run_syllable hc ha hsyllable
        · have hprime : t.pushDecomposed cp = [cp] :=
            prime_of_none (Bool.eq_false_iff.mpr hsyllable) hparts
          rw [isHangulJamo, Bool.or_eq_false_iff, Bool.or_eq_false_iff] at hjamo
          rw [hprime]
          exact step_plain hc hclass hjamo.1.2 hjamo.2 hsecond
      rw [List.flatMap_cons, List.foldl_append, hone,
        ih fun b hb => h b (List.mem_cons_of_mem cp hb),
        List.append_assoc, List.singleton_append]

/-- The short cut of `nfc` skips a pipeline that changes nothing. -/
theorem compose_inert (hc : t.Consistent) (ha : t.Absent)
    (h : ∀ cp ∈ cps, Inert t cp) :
    t.compose (t.canonicalOrder (cps.flatMap t.pushDecomposed)) = cps := by
  have hsorted := sorted_of_fixed (starters_of_inert ha h)
  have hrun := @run_inert t cps [] hc ha h
  rw [canonicalOrder_eq, runSort_of_sorted hsorted, Tables.compose]
  exact congrArg Tables.Composing.out hrun

-- =============================== forms

/-- The code points of the two forms. -/
def nfdCodes (t : Tables) (x : Text) : List Nat := t.canonicalOrder (t.decompose x)

def nfcCodes (t : Tables) (x : Text) : List Nat := t.compose (nfdCodes t x)

theorem valid_toNat (c : Char) : c.toNat.isValidChar := c.valid

theorem valid_nfdCodes (x : Text) : ∀ cp ∈ nfdCodes t x, cp.isValidChar := by
  intro cp hcp
  rw [nfdCodes, canonicalOrder_eq] at hcp
  obtain ⟨c, hc, hmem⟩ := List.mem_flatMap.mp ((perm_runSort _).mem_iff.mp hcp)
  obtain ⟨d, -, rfl⟩ := List.mem_map.mp hc
  exact valid_of_mem (valid_toNat d) hmem

theorem map_ofNat_toNat (x : Text) : (x.map Char.toNat).map Char.ofNat = x := by
  rw [List.map_map, show Char.ofNat ∘ Char.toNat
    = id from funext Char.ofNat_toNat, List.map_id]

/-- `nfc` is the pipeline, short cut or not. -/
theorem nfc_eq (hc : t.Consistent) (ha : t.Absent) (x : Text) :
    t.nfc x = .ok ((nfcCodes t x).map Char.ofNat)
      ∧ ((nfcCodes t x).map Char.ofNat).map Char.toNat = nfcCodes t x := by
  obtain ⟨htext, hback⟩ := toText_ok (valid_compose hc (valid_nfdCodes (t := t) x))
  refine ⟨?_, hback⟩
  rw [Tables.nfc]
  split
  next hcut =>
    have hinert : ∀ cp ∈ x.map Char.toNat, Inert t cp := by
      rw [Bool.or_eq_true, Bool.not_eq_true'] at hcut
      rcases hcut with hascii | hneed
      · exact fun cp hcp => (inert_of_ascii ha hascii cp hcp).1
      · exact inert_of_not_needed hneed
    have hsame : nfcCodes t x = x.map Char.toNat := compose_inert hc ha hinert
    rw [hsame, map_ofNat_toNat]
  next => exact htext

/-- `nfd` is the pipeline, short cut or not. -/
theorem nfd_eq (ha : t.Absent) (x : Text) :
    t.nfd x = .ok ((nfdCodes t x).map Char.ofNat)
      ∧ ((nfdCodes t x).map Char.ofNat).map Char.toNat = nfdCodes t x := by
  obtain ⟨htext, hback⟩ := toText_ok (valid_nfdCodes (t := t) x)
  refine ⟨?_, hback⟩
  rw [Tables.nfd]
  split
  next hascii =>
    have hinert := inert_of_ascii ha hascii
    have hplain : t.decompose x = x.map Char.toNat :=
      flatMap_prime fun cp hcp => (hinert cp hcp).2
    have hsorted : Sorted t.combiningClassOf (x.map Char.toNat) :=
      sorted_of_fixed fun cp hcp => (hinert cp hcp).1.2.1
    rw [nfdCodes, hplain, canonicalOrder_eq, runSort_of_sorted hsorted,
      map_ofNat_toNat]
  next => exact htext

/-- Decomposing a composed text gives back what was composed. -/
theorem nfdCodes_nfc (hc : t.Consistent) (ha : t.Absent) {y : Text}
    (h : y.map Char.toNat = nfcCodes t x) :
    nfdCodes t y = nfdCodes t x := by
  obtain ⟨hprime, hsorted⟩ := ordered_spec ha x
  rw [nfdCodes, Tables.decompose, h, canonicalOrder_eq]
  exact decomposed_compose hc ha hprime hsorted

/-- Decomposing again changes nothing. -/
theorem nfdCodes_nfd (ha : t.Absent) {z : Text}
    (h : z.map Char.toNat = nfdCodes t x) :
    nfdCodes t z = nfdCodes t x := by
  obtain ⟨hprime, hsorted⟩ := ordered_spec ha x
  rw [nfdCodes, Tables.decompose, h, nfdCodes, flatMap_prime hprime,
    canonicalOrder_eq, runSort_of_sorted hsorted]

/-- **NFC is canonical.** With ASCII and Hangul out of the tables, `nfc` is the
whole pipeline on every text, the two forms agree, and both are stable. -/
theorem nfc_canonical (hc : t.Consistent) (ha : t.Absent) (x : Text) : ∃ y z,
    t.nfc x = .ok y ∧ y.map Char.toNat = t.compose (t.canonicalOrder (t.decompose x))
    ∧ t.nfd x = .ok z ∧ t.nfd y = .ok z ∧ t.nfc z = .ok y ∧ t.nfc y = .ok y := by
  obtain ⟨hy, hycodes⟩ := nfc_eq hc ha x
  obtain ⟨hz, hzcodes⟩ := nfd_eq ha x
  refine ⟨_, _, hy, hycodes, hz, ?_, ?_, ?_⟩
  · rw [(nfd_eq ha _).1, nfdCodes_nfc hc ha hycodes]
  · rw [(nfc_eq hc ha _).1, nfcCodes, nfdCodes_nfd ha hzcodes, nfcCodes]
  · rw [(nfc_eq hc ha _).1, nfcCodes, nfdCodes_nfc hc ha hycodes, nfcCodes]

/-- The tables of `Á` alone. -/
def acuteTables : Tables where
  decomposition := [(0xC1, [0x41, 0x301])]
  combiningClass := [(0x301, 230)]
  composition := [((0x41, 0x301), 0xC1)]
  compositionSecond := [0x301]
  decomposition_sorted := List.pairwise_singleton ..
  combiningClass_sorted := List.pairwise_singleton ..
  composition_sorted := List.pairwise_singleton ..
  compositionSecond_sorted := List.pairwise_singleton ..
  decomposition_characters := by simp [Nat.isValidChar]
  decomposition_founded := by
    refine Subrelation.wf (r := InvImage (· < ·) fun cp => if cp = 0xC1 then 1
      else 0) ?_ (InvImage.wf _ Nat.lt_wfRel.wf)
    rintro part cp ⟨parts, hentry, hpart⟩
    simp only [List.mem_singleton, Prod.mk.injEq] at hentry
    obtain ⟨rfl, rfl⟩ := hentry
    simp only [List.mem_cons, List.not_mem_nil, or_false] at hpart
    rcases hpart with rfl | rfl <;> simp [InvImage]

theorem acute_consistent : acuteTables.Consistent where
  inverts := by
    intro a b c h
    obtain ⟨⟨rfl, rfl⟩, rfl⟩ : (a = 0x41 ∧ b = 0x301) ∧ c = 0xC1 := by
      simpa [acuteTables] using h
    exact ⟨List.mem_singleton.mpr rfl, rfl, rfl⟩
  seconds := by
    intro b
    simp [acuteTables]

theorem acute_absent : acuteTables.Absent := by
  intro cp hcp
  have hne : cp ≠ 0xC1 ∧ cp ≠ 0x301 := by
    rw [isHangulJamo_iff, isHangulSyllable_iff] at hcp
    simp only [lBase, vBase, tBase, sBase] at hcp
    omega
  simp [Tables.decompositionOf, Tables.combiningClassOf,
    Tables.isCompositionSecond, acuteTables, hne.2,
    Ne.symm hne.1, Ne.symm hne.2]

theorem nfc_canonical_acute : ∃ y z,
    acuteTables.nfc ['A', Char.ofNat 0x301] = .ok y
    ∧ y.map Char.toNat
      = acuteTables.compose
      (acuteTables.canonicalOrder
        (acuteTables.decompose ['A', Char.ofNat 0x301]))
    ∧ acuteTables.nfd ['A', Char.ofNat 0x301] = .ok z
    ∧ acuteTables.nfd y = .ok z ∧ acuteTables.nfc z = .ok y
    ∧ acuteTables.nfc y = .ok y :=
  nfc_canonical acute_consistent acute_absent ['A', Char.ofNat 0x301]

theorem ascending_nil : ([] : List Nat).Pairwise (· < ·) := .nil

/-- Tables in which one character decomposes into another one. -/
def aliasTables (a b : Nat) (hne : a ≠ b) (ha : a.isValidChar)
    (hb : b.isValidChar) : Tables where
  decomposition := [(a, [b])]
  combiningClass := []
  composition := []
  compositionSecond := []
  decomposition_sorted := List.pairwise_singleton ..
  combiningClass_sorted := .nil
  composition_sorted := .nil
  compositionSecond_sorted := ascending_nil
  decomposition_characters := by simp [ha, hb]
  decomposition_founded := by
    refine Subrelation.wf (r := InvImage (· < ·) fun cp => if cp = a then 1
      else 0) ?_ (InvImage.wf _ Nat.lt_wfRel.wf)
    rintro part cp ⟨parts, hentry, hpart⟩
    simp only [List.mem_singleton, Prod.mk.injEq] at hentry
    obtain ⟨rfl, rfl⟩ := hentry
    obtain rfl := List.mem_singleton.mp hpart
    simp [InvImage, Ne.symm hne]

def asciiTables : Tables := aliasTables 0x41 0x42 (by decide) (by decide) (by decide)

def jamoTables : Tables := aliasTables 0x1100 0x1101 (by decide) (by decide)
    (by decide)

theorem ascii_decomposed : asciiTables.canonicalOrder
    (asciiTables.decompose ['A']) = [0x42] := by
  have hleaf : asciiTables.pushDecomposed 0x42 = [0x42] := by
    rw [pushDecomposed_eq]; rfl
  have hpush : asciiTables.pushDecomposed 0x41 = [0x42] := by
    rw [pushDecomposed_eq]
    exact (List.flatMap_singleton ..).trans hleaf
  have htext : asciiTables.decompose ['A'] = [0x42] :=
    (List.flatMap_singleton ..).trans hpush
  rw [htext, canonicalOrder_eq]
  rfl

theorem jamo_decomposed : jamoTables.canonicalOrder
    (jamoTables.decompose [Char.ofNat 0xAC00]) = [0x1100, 0x1161] := by
  have hpush : jamoTables.pushDecomposed 0xAC00 = [0x1100, 0x1161] := by
    rw [pushDecomposed_eq]; rfl
  have htext : jamoTables.decompose [Char.ofNat 0xAC00] = [0x1100, 0x1161] :=
    (List.flatMap_singleton ..).trans hpush
  rw [htext, canonicalOrder_eq]
  rfl

theorem jamo_decomposed_twice :
    jamoTables.canonicalOrder
      (jamoTables.decompose [Char.ofNat 0x1100, Char.ofNat 0x1161])
      = [0x1101, 0x1161] := by
  have hleaf : jamoTables.pushDecomposed 0x1101 = [0x1101] := by
    rw [pushDecomposed_eq]; rfl
  have hlead : jamoTables.pushDecomposed 0x1100 = [0x1101] := by
    rw [pushDecomposed_eq]
    exact (List.flatMap_singleton ..).trans hleaf
  have hvowel : jamoTables.pushDecomposed 0x1161 = [0x1161] := by
    rw [pushDecomposed_eq]; rfl
  have htext : jamoTables.decompose [Char.ofNat 0x1100, Char.ofNat 0x1161]
      = [0x1101, 0x1161] := by
    show jamoTables.pushDecomposed 0x1100
      ++ (jamoTables.pushDecomposed 0x1161 ++ []) = _
    rw [hlead, hvowel]
    rfl
  rw [htext, canonicalOrder_eq]
  rfl

theorem alias_consistent (hne : a ≠ b) (ha : a.isValidChar)
    (hb : b.isValidChar) :
    (aliasTables a b hne ha hb).Consistent := ⟨nofun, fun _ => ⟨nofun, nofun⟩⟩

/-- The short cuts rely on more than the conditions of `Consistent`: ASCII
that decomposes is missed by `nfc`, a jamo that decomposes is not decomposed
inside a syllable. -/
theorem tables_with_ascii_or_hangul :
    (asciiTables.Consistent ∧ ¬ ∃ y, asciiTables.nfc ['A'] = .ok y
      ∧ y.map Char.toNat
        = asciiTables.compose
        (asciiTables.canonicalOrder (asciiTables.decompose ['A'])))
    ∧ (jamoTables.Consistent ∧ ¬ ∃ y z, jamoTables.nfc [Char.ofNat 0xAC00] = .ok y
      ∧ jamoTables.nfd [Char.ofNat 0xAC00] = .ok z ∧ jamoTables.nfc z = .ok y) := by
  refine ⟨⟨alias_consistent .., ?_⟩, alias_consistent .., ?_⟩
  · rintro ⟨y, hy, hcodes⟩
    obtain rfl : ['A'] = y := Except.ok.inj hy
    rw [ascii_decomposed] at hcodes
    revert hcodes
    decide
  · rintro ⟨y, z, hy, hz, hback⟩
    have hnfc : jamoTables.nfc [Char.ofNat 0xAC00] = .ok [Char.ofNat 0xAC00] := rfl
    have hnfd : jamoTables.nfd [Char.ofNat 0xAC00]
        = Tables.toText [0x1100, 0x1161] := by
      rw [← jamo_decomposed]
      rfl
    have hagain : jamoTables.nfc [Char.ofNat 0x1100, Char.ofNat 0x1161]
        = Tables.toText (jamoTables.compose [0x1101, 0x1161]) := by
      rw [← jamo_decomposed_twice]
      rfl
    rw [hnfc] at hy
    rw [hnfd] at hz
    obtain rfl := Except.ok.inj hy
    obtain rfl : [Char.ofNat 0x1100, Char.ofNat 0x1161] = z := Except.ok.inj hz
    rw [hagain] at hback
    revert hback
    decide

end Minfer.Tokenize.Nfc
