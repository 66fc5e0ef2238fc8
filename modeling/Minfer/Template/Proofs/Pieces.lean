/-
What the engine's searches and splits find is what CPython's do.

The engine passes over the text once and cuts at the places found; CPython
searches again behind each place. In whitespace mode the engine's loop is the
split into words.
-/
import Minfer.Template.CPython

namespace Minfer.Template

open Minfer.Lib

variable {t : CaseTables}

-- ============================ searches

theorem find_eq (recv sub : Text) : find recv sub = lowest sub recv :=
  head?_scan sub recv

theorem rfind_eq (recv sub : Text) : rfind recv sub = highest sub recv := by
  rw [rfind, find_eq, highest_eq]

theorem slice_all (recv : Text) : CPython.slice recv 0 recv.length = recv := by
  rw [CPython.slice, List.take_length, List.drop_zero]

/-- `find` and `rfind` without bounds. -/
theorem pyIndex_eq (fromRight : Bool) (recv sub : Text) :
    (pyIndex recv sub fromRight).getD (-1)
      = CPython.placeIn fromRight recv sub 0 recv.length := by
  rw [pyIndex, find_eq, rfind_eq, CPython.placeIn, if_neg (Nat.not_lt_zero _),
    slice_all]
  cases hplace : if fromRight then highest sub recv else lowest sub recv with
  | none => rfl
  | some i => simp

/-- `count` without bounds. -/
theorem countIn_eq {sub : Text} (hsub : sub ≠ []) (recv : Text) :
    CPython.countIn recv sub 0 recv.length = (scan sub 0 0 recv).length := by
  rw [CPython.countIn, if_neg (Nat.not_lt_zero _), slice_all,
    if_neg (by simpa using hsub), ← cutAt_scan_all hsub,
    length_cutAt]
  simp

theorem countIn_nil (recv : Text) : CPython.countIn recv
    [] 0 recv.length = recv.length + 1 := by
  rw [CPython.countIn, if_neg (Nat.not_lt_zero _), slice_all]
  rfl

-- ============================== splits

variable {sep recv text : Text}

theorem split_eq (hsep : sep ≠ []) (recv : Text) :
    split recv sep = splits sep (recv.length + 1) recv :=
  cutAt_scan_all hsep recv

theorem splitn_eq (hsep : sep ≠ []) (recv : Text) (k : Nat) :
    splitn recv (k + 1) sep = splits sep k recv :=
  cutAt_scan hsep recv k 0

theorem rsplitn_eq (hsep : sep ≠ []) (recv : Text) (k : Nat) :
    (rsplitn recv (k + 1) sep).reverse = rsplits sep k recv := by
  rw [rsplitn, splitn_eq (by simpa using hsep), rsplits_eq]

theorem limit_of_nonneg {k : Int} (h : 0 ≤ k) :
    CPython.limit recv k = k.toNat := if_neg (by omega)

theorem limit_of_neg {k : Int} (h : k < 0) :
    CPython.limit recv k = recv.length + 1 := if_pos h

/-- A split with a separator is CPython's, except one from the right without a
limit. -/
theorem splitAt_eq (hsep : sep ≠ []) (recv : Text) {k : Int}
    {fromRight : Bool} (h : fromRight = true → 0 ≤ k) :
    splitAt recv sep k fromRight
      = if fromRight then rsplits sep (CPython.limit recv k) recv
        else splits sep (CPython.limit recv k) recv := by
  rw [splitAt]
  by_cases hneg : k < 0
  · cases fromRight with
    | false => rw [if_pos hneg, split_eq hsep, limit_of_neg hneg]; rfl
    | true => exact absurd (h rfl) (by omega)
  · rw [if_neg hneg, limit_of_nonneg (by omega)]
    by_cases hzero : k = 0
    · subst hzero
      cases fromRight <;> rfl
    · rw [if_neg hzero]
      dsimp only
      rw [splitn_eq hsep, rsplitn_eq hsep]

-- ======================== replacements

theorem intercalate_cons {x : Text} {xs : List Text} (h : xs ≠ []) :
    sep.intercalate (x :: xs) = x ++ (sep ++ sep.intercalate xs) := by
  obtain ⟨y, ys, rfl⟩ := List.exists_cons_of_ne_nil h
  simp [List.intercalate, List.intersperse]

/-- The first piece of a text without its first character. -/
theorem intercalate_cutAt_cons {new rest : Text} {c : Char} {s : Nat}
    {is : List Nat}
    (hrest : recv.drop s = c :: rest) (his : ∀ i ∈ is.head?, s + 1 ≤ i) :
    new.intercalate (cutAt recv 0 s is)
      = c :: new.intercalate (cutAt recv 0 (s + 1) is) := by
  have hnext : recv.drop (s + 1) = rest := by
    rw [← List.drop_drop, hrest, List.drop_succ_cons, List.drop_zero]
  cases is with
  | nil => rw [cutAt, cutAt, hrest, hnext]; simp [List.intercalate]
  | cons i is =>
      have hi : s + 1 ≤ i := his i rfl
      rw [cutAt, cutAt, hrest, hnext, show i - s = i - (s + 1) + 1 by omega,
        List.take_succ_cons,
        intercalate_cons (cutAt_ne_nil _ _ _ _),
          intercalate_cons (cutAt_ne_nil _ _ _ _), List.cons_append]

/-- An empty text is found in front of every character and at the end. -/
theorem interleave_eq {new : Text} (k : Nat) {s : Nat} {rest : Text}
    (hrest : recv.drop s = rest) :
    new.intercalate (cutAt recv 0 s ((scan [] 0 s rest).take k))
      = CPython.interleave new k rest := by
  induction rest generalizing k s with
  | nil =>
      cases k with
      | zero => rw [List.take_zero, cutAt, hrest]; rfl
      | succ k =>
          rw [scan, if_pos List.nil_prefix, List.take_succ_cons, List.take_nil,
            cutAt, cutAt, Nat.add_zero, hrest]
          simp [List.intercalate, CPython.interleave]
  | cons c rest ih =>
      cases k with
      | zero =>
          rw [List.take_zero, cutAt, hrest]
          simp [List.intercalate, CPython.interleave]
      | succ k =>
          have hnext : recv.drop (s + 1) = rest := by
            rw [← List.drop_drop, hrest, List.drop_succ_cons, List.drop_zero]
          have hplaced := placed_scan ([] : Text) 0 (s + 1) rest (Nat.le_refl (s + 1))
          have hhead : ∀ i ∈ ((scan [] 0 (s + 1) rest).take k).head?, s + 1 ≤ i := by
            intro i hi
            cases hscan : scan ([] : Text) 0 (s + 1) rest with
            | nil => simp [hscan] at hi
            | cons j js =>
                rw [hscan] at hi hplaced
                cases k with
                | zero => simp at hi
                | succ k =>
                    obtain rfl : j = i := by simpa using hi
                    exact hplaced.1
          rw [scan, if_pos List.nil_prefix, List.take_succ_cons, cutAt,
            Nat.sub_self, List.take_zero,
            intercalate_cons (cutAt_ne_nil _ _ _ _), Nat.add_zero,
            List.length_nil, Nat.zero_sub, intercalate_cutAt_cons hrest hhead,
            ih k hnext]
          rfl

theorem replacen_eq (recv old new : Text) (k : Nat) :
    replacen recv old new k
      = if old.isEmpty then CPython.interleave new k recv
        else new.intercalate (splits old k recv) := by
  cases hold : old.isEmpty with
  | true =>
      rw [List.isEmpty_iff.1 hold]
      exact interleave_eq k rfl
  | false =>
      have hne : old ≠ [] := by simpa using hold
      exact congrArg new.intercalate (cutAt_scan hne recv k 0)

theorem replace_eq (recv old new : Text) :
    replace recv old new = replacen recv old new (recv.length + 1) := by
  rw [replace, replacen, List.take_of_length_le (length_scan_le _ _ _ _)]

theorem replaced_eq (recv old new : Text) (count : Int) :
    .str (if count < 0 then replace recv old new
      else replacen recv old new count.toNat)
      = CPython.replaced recv old new count := by
  rw [CPython.replaced]
  by_cases hneg : count < 0
  · rw [if_pos hneg, replace_eq, replacen_eq, limit_of_neg hneg]
  · rw [if_neg hneg, replacen_eq, limit_of_nonneg (by omega)]

-- =============================== words

/-- One turn of the loop in whitespace mode. -/
theorem splitWhitespace_first {lead word rest : Text}
    (h : First t.isWhitespace text lead word rest)
    (maxsplit : Int) (fuel : Nat) (n : Int) :
    splitWhitespace t maxsplit (fuel + 1) n text
      = if maxsplit ≥ 0 && n == maxsplit then [word ++ rest]
        else word :: splitWhitespace t maxsplit fuel (n + 1) rest := by
  rw [splitWhitespace, h.dropWhile, h.append_ne_nil, if_neg (by simp)]
  congr 1
  cases hrest : rest with
  | nil =>
      have hnone : word.findIdx? t.isWhitespace = none :=
        List.findIdx?_eq_none_iff.2 h.word
      have hend : splitWhitespace t maxsplit fuel (n + 1) [] = [] := by
        cases fuel with
        | zero => rfl
        | succ fuel => rfl
      rw [List.append_nil, hnone, hend]
  | cons a rest' =>
      have ha : t.isWhitespace a = true := h.rest a (by simp [hrest])
      have hword : word.findIdx? t.isWhitespace = none :=
        List.findIdx?_eq_none_iff.2 h.word
      have hfound : (word ++ a :: rest').findIdx? t.isWhitespace
          = some word.length := by
        simp [List.findIdx?_append, hword, List.findIdx?_cons, ha]
      rw [hfound]
      dsimp only
      rw [List.take_left, List.drop_left]

theorem splitWhitespace_of_all
    (h : ∀ a ∈ text, t.isWhitespace a = true) (maxsplit : Int) (fuel : Nat)
    (n : Int) : splitWhitespace t maxsplit fuel n text = [] := by
  cases fuel with
  | zero => rfl
  | succ fuel =>
      rw [splitWhitespace, List.dropWhile_eq_nil_iff.2 h]
      rfl

/-- With a limit, the loop is the split into so many words. -/
theorem splitWhitespace_limited {fuel : Nat} (hfuel : text.length < fuel)
    {maxsplit n : Int} (hn : 0 ≤ n) {k : Nat} (hk : maxsplit = n + k) :
    splitWhitespace t maxsplit fuel n text = fields t.isWhitespace k text := by
  induction fuel generalizing text n k with
  | zero => omega
  | succ fuel ih =>
      rcases all_or_first t.isWhitespace text with hall | hfirst
      · rw [splitWhitespace_of_all hall, fields_of_all hall]
      · obtain ⟨lead, word, rest, hfirst⟩ := hfirst
        have hlt := hfirst.length_lt
        rw [splitWhitespace_first hfirst]
        cases k with
        | zero => rw [if_pos (by simp; omega), hfirst.fields_zero]
        | succ k =>
            have hnext : splitWhitespace t maxsplit fuel (n + 1) rest
                = fields t.isWhitespace k rest :=
              ih (by omega) (by omega) (by omega)
            rw [if_neg (by simp; omega), hfirst.fields_succ, hnext]

/-- Without a limit, it is all the words. -/
theorem splitWhitespace_unlimited {fuel : Nat} (hfuel : text.length < fuel)
    {maxsplit : Int} (hneg : maxsplit < 0) (n : Int) :
    splitWhitespace t maxsplit fuel n text = words t.isWhitespace text := by
  induction fuel generalizing text n with
  | zero => omega
  | succ fuel ih =>
      rcases all_or_first t.isWhitespace text with hall | hfirst
      · rw [splitWhitespace_of_all hall, words_of_all hall]
      · obtain ⟨lead, word, rest, hfirst⟩ := hfirst
        have hlt := hfirst.length_lt
        rw [splitWhitespace_first hfirst, if_neg (by simp; omega),
          hfirst.words, ih (by omega)]

-- =============================== lines

theorem isBoundary_eq (c : Char) : isBoundary c = CPython.isLineBreak c := by
  simp [isBoundary, CPython.isLineBreak, CPython.lineBreaks, Bool.or_assoc]

/-- The loop over characters gives the lines, one after another. -/
theorem splitlinesFrom_eq (keepends : Bool) {n : Nat} {line : Text}
    (hn : text.length < n)
    (hline : ∀ c ∈ line, CPython.isLineBreak c = false) :
    splitlinesFrom keepends line text = CPython.lines keepends n (line ++ text) := by
  induction hlen :
      text.length using Nat.strong_induction_on generalizing line text n with
  | _ m ih =>
      obtain ⟨n, rfl⟩ := Nat.exists_eq_add_of_le' (show 1 ≤ n by omega)
      have hnot : ∀ c ∈ line, (! CPython.isLineBreak c) = true := by simpa using hline
      cases text with
      | nil =>
          have htake : line.takeWhile (! CPython.isLineBreak ·) = line :=
            List.takeWhile_eq_self_iff.2 hnot
          have hdrop : line.dropWhile (! CPython.isLineBreak ·) = [] :=
            List.dropWhile_eq_nil_iff.2 hnot
          rw [splitlinesFrom, List.append_nil, CPython.lines, htake, hdrop]
      | cons c rest =>
          rw [List.length_cons] at hlen hn
          cases hbreak : CPython.isLineBreak c with
          | false =>
              have hline' : ∀ b ∈ line ++ [c], CPython.isLineBreak b = false := by
                simpa [or_imp, forall_and, hbreak] using hline
              have hloop : splitlinesFrom keepends line (c :: rest)
                  = splitlinesFrom keepends (line ++ [c]) rest := by
                rw [splitlinesFrom, isBoundary_eq, hbreak]
                · rfl
                · intro rest' hc _
                  subst hc
                  exact absurd hbreak (by decide)
              rw [hloop, ih rest.length (by omega)
                (show rest.length < n + 1 by omega) hline' rfl,
                List.append_assoc]
              rfl
          | true =>
              have htake : (line ++ c :: rest).takeWhile
                  (! CPython.isLineBreak ·) = line := by
                rw [List.takeWhile_append_of_pos hnot,
                  List.takeWhile_cons_of_neg (by simp [hbreak]),
                  List.append_nil]
              have hdrop : (line ++ c :: rest).dropWhile
                  (! CPython.isLineBreak ·) = c :: rest := by
                rw [List.dropWhile_append_of_pos hnot,
                  List.dropWhile_cons_of_neg (by simp [hbreak])]
              have hnext : ∀ rest', rest'.length ≤ rest.length →
                  splitlinesFrom keepends [] rest' = CPython.lines keepends n rest' :=
                fun rest' hle => ih rest'.length (by omega) (by omega) (by simp) rfl
              rw [CPython.lines, htake, hdrop]
              by_cases hcrlf : c = '\r' ∧ ∃ rest', rest = '\n' :: rest'
              · obtain ⟨rfl, rest', rfl⟩ := hcrlf
                rw [splitlinesFrom, hnext rest' (Nat.le_succ _)]
                rfl
              · have hpair : ∀ rest', c = '\r' → rest = '\n' :: rest' → False :=
                  fun rest' hc hrest => hcrlf ⟨hc, rest', hrest⟩
                rw [splitlinesFrom, isBoundary_eq, hbreak, hnext rest le_rfl]
                · simp only [Bool.not_true, Bool.false_eq_true, if_false]
                · exact hpair

end Minfer.Template
