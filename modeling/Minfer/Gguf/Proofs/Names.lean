/-
Part file names: what `write_split` prints, `split_file_info` parses.
-/
import Minfer.Gguf.Load

namespace Minfer.Gguf

open Minfer.Lib

-- ============================== digits

/-- Every character is a decimal digit. -/
def Decimal (text : Text) : Prop := ∀ c ∈ text, c.isDigit = true

variable {c : Char} {text after before stem : Text} {total : Nat}

theorem isDigit_range (h : c.isDigit = true) :
    48 ≤ c.toNat ∧ c.toNat ≤ 57 := by
  simp only [Char.isDigit, Bool.and_eq_true, decide_eq_true_eq] at h
  exact h

theorem Decimal.not_mem (h : Decimal text) (hc : c.isDigit = false) :
    c ∉ text := by
  intro hmem
  rw [h c hmem] at hc
  cases hc

/-- Digits take one byte each. -/
theorem Decimal.length_utf8Encode (h : Decimal text) :
    (utf8Encode text).length = text.length := by
  induction text with
  | nil => rfl
  | cons c text ih =>
      have hrange := isDigit_range (h c List.mem_cons_self)
      have hsize : c.utf8Size = 1 := by
        rw [Char.utf8Size_eq_one_iff]
        show c.val.toNat ≤ 127
        have : c.val.toNat = c.toNat := rfl
        omega
      rw [utf8Encode_cons, List.length_append, String.length_utf8EncodeChar,
        hsize, ih fun d hd => h d (List.mem_cons_of_mem _ hd),
        List.length_cons, Nat.add_comm]

theorem fiveDigits_decimal (n : Nat) : Decimal (fiveDigits n) := by
  intro c hc
  rcases List.mem_append.1 hc with hc | hc
  · rw [List.eq_of_mem_replicate hc]
    rfl
  · exact Nat.isDigit_of_mem_toDigits (by decide) (by decide) hc

theorem length_fiveDigits {n : Nat} (h : n < 100000) : (fiveDigits n).length = 5 := by
  have hle : (Nat.toDigits 10 n).length ≤ 5 :=
    (Nat.length_toDigits_le_iff (by decide) (by decide)).2 h
  rw [fiveDigits, List.length_append, List.length_replicate]
  omega

/-- Five digits parse back. -/
theorem parseUsize_fiveDigits {n : Nat} (h : n < 100000) :
    parseUsize (fiveDigits n) = some n := by
  have hdec := fiveDigits_decimal n
  have hlen := length_fiveDigits h
  have hvalue : Nat.ofDigitChars 10 (fiveDigits n) 0 = n := by
    rw [fiveDigits, Nat.ofDigitChars_append, Nat.ofDigitChars_replicate_zero,
      Nat.mul_zero]
    exact Nat.ofDigitChars_toDigits (by decide) (by decide)
  have hplus : ∀ rest, fiveDigits n ≠ '+' :: rest := by
    intro rest heq
    apply hdec.not_mem (c := '+') rfl
    rw [heq]
    exact List.mem_cons_self
  have hne : fiveDigits n ≠ [] := by
    intro heq
    rw [heq] at hlen
    cases hlen
  have hall : (fiveDigits n).all Char.isDigit = true := List.all_eq_true.2 hdec
  unfold parseUsize
  split
  next rest heq => exact absurd heq (hplus rest)
  next =>
    simp only
    rw [if_pos ⟨hne, hall, by omega⟩, hvalue]

-- =========================== splitting

theorem rsplitOnce_none {pat : Text} (h : c ∉ text) :
    rsplitOnce (c :: pat) text = none := by
  induction text with
  | nil => rfl
  | cons d text ih =>
      rw [List.mem_cons, not_or] at h
      have hne : ((c :: pat).isPrefixOf (d :: text)) = false := by
        simp [List.isPrefixOf, h.1]
      rw [rsplitOnce, ih h.2]
      simp [hne]

/-- A text is split at a pattern that does not occur later. -/
theorem rsplitOnce_append {pat : Text}
    (h : rsplitOnce (c :: pat) (pat ++ after) = none) :
    rsplitOnce (c :: pat) (before ++ (c :: pat ++ after)) = some (before, after) := by
  induction before with
  | nil =>
      have hpre : (c :: pat).isPrefixOf (c :: (pat ++ after)) = true :=
        List.isPrefixOf_iff_prefix.2 ⟨after, rfl⟩
      rw [List.nil_append, List.cons_append, rsplitOnce, h]
      simp only [hpre, if_true, List.length_cons, List.drop_succ_cons, List.drop_left]
  | cons d before ih => rw [List.cons_append, rsplitOnce, ih]

theorem rsplitOnce_of (h : '-' ∉ after) :
    rsplitOnce "-of-".toList (before ++ ("-of-".toList ++ after))
      = some (before, after) := by
  apply rsplitOnce_append (c := '-')
  -- no dash but the pattern's own last one, and no `o` after that
  have hnone : rsplitOnce ['-', 'o', 'f', '-'] after = none := rsplitOnce_none h
  have hdash : rsplitOnce ['-', 'o', 'f', '-'] ('-' :: after) = none := by
    rw [rsplitOnce, hnone]
    cases after with
    | nil => rfl
    | cons d after =>
        by_cases ho : 'o' = d
        · subst ho
          cases after with
          | nil => rfl
          | cons f after =>
              by_cases hf : 'f' = f
              · subst hf
                cases after with
                | nil => rfl
                | cons e after =>
                    have he : '-' ≠ e := by
                      rintro rfl
                      simp at h
                    simp [List.isPrefixOf, he]
              · simp [List.isPrefixOf, hf]
        · simp [List.isPrefixOf, ho]
  show rsplitOnce ['-', 'o', 'f', '-'] ('o' :: 'f' :: '-' :: after) = none
  rw [rsplitOnce, rsplitOnce, hdash]
  rfl

theorem rsplitOnce_dash (h : '-' ∉ after) :
    rsplitOnce "-".toList (before ++ ("-".toList ++ after))
      = some (before, after) := by
  apply rsplitOnce_append (c := '-')
  exact rsplitOnce_none h

theorem stripSuffix_append (text suffix : Text) :
    stripSuffix suffix (text ++ suffix) = some text := by
  have hsuf : suffix.isSuffixOf (text ++ suffix) = true :=
    List.isSuffixOf_iff_suffix.2 ⟨text, rfl⟩
  rw [stripSuffix, if_pos hsuf, List.length_append, Nat.add_sub_cancel,
    List.take_left]

/-- A part's name says which part it is. -/
theorem splitFileInfo_partName {p : Nat} (hp : p < total)
    (htotal : total < 100000) : splitFileInfo
    (partName stem p total) = some (stem, p, total) := by
  have hdash (n : Nat) : '-' ∉ fiveDigits n := (fiveDigits_decimal n).not_mem rfl
  have hname : partName stem p total = ((stem ++ ("-".toList ++ fiveDigits (p + 1)))
      ++ ("-of-".toList ++ fiveDigits total)) ++ ".gguf".toList := by
    rw [partName, List.append_assoc stem, List.append_assoc _ "-of-".toList]
  have hlen1 := (fiveDigits_decimal (p + 1)).length_utf8Encode
  have hlen2 := (fiveDigits_decimal total).length_utf8Encode
  rw [length_fiveDigits (by omega)] at hlen1
  rw [length_fiveDigits htotal] at hlen2
  rw [hname, splitFileInfo, stripSuffix_append]
  simp only [Option.bind_eq_bind, Option.bind_some]
  rw [rsplitOnce_of (hdash total)]
  simp only [Option.bind_some]
  rw [rsplitOnce_dash (hdash (p + 1))]
  simp only [Option.bind_some, hlen1, hlen2,
    parseUsize_fiveDigits (show p + 1 < 100000 by omega),
    parseUsize_fiveDigits htotal]
  have hguard : p + 1 ≠ 0 ∧ total ≠ 0 ∧ p + 1 ≤ total := by omega
  simp [hguard, guard]

theorem resolveSplits_partName (h0 : 0 < total) (htotal : total < 100000) :
    resolveSplits (partName stem 0 total)
      = some ((List.range total).map fun p => partName stem p total) := by
  rw [resolveSplits, splitFileInfo_partName h0 htotal]
  rfl

/-- Two parts of a split have two names. -/
theorem partName_inj {p q : Nat} (hp : p < total)
    (hq : q < total) (htotal : total < 100000)
    (h : partName stem p total = partName stem q total) : p = q := by
  have hinfo := congrArg splitFileInfo h
  rw [splitFileInfo_partName hp htotal, splitFileInfo_partName hq htotal] at hinfo
  simpa using hinfo

end Minfer.Gguf
