/-
What the splitters and the merge loop keep: the pieces of a text are the
text, and so are the words the merges leave.
-/
import Mathlib.Data.List.SplitBy
import Minfer.Tokenizer.Bpe

namespace Minfer.Tokenize

-- =========================== splitting

theorem whitespaceLen_pos (text : Text) : 1 ≤ whitespaceLen text := by
  unfold whitespaceLen
  simp only
  split
  next h => exact h
  · split
    next h => omega
    · split
      next h => exact h
      · exact Nat.le_refl _

theorem runLen_pos {p : Char → Bool} {c : Char} (h : p c = true) (rest : Text) :
    1 ≤ runLen p (c :: rest) := by
  rw [runLen, List.takeWhile_cons, if_pos h, List.length_cons]
  exact Nat.le_add_left 1 _

theorem symbolLen_pos {cls : Classes} {marks : Bool} {c : Char} {rest : Text}
    {k : Nat} (h : symbolLen cls marks c rest = some k) : 1 ≤ k := by
  unfold symbolLen at h
  by_cases hc : c = ' '
  · simp only [if_pos hc] at h
    split at h
    · obtain rfl := Option.some.inj h
      omega
    · cases h
  · -- the symbol run starts with `c` itself
    simp only [if_neg hc, List.head?_cons, Option.map_some, Option.getD_some] at h
    split at h
    next hsym =>
      obtain rfl := Option.some.inj h
      have := runLen_pos hsym rest
      omega
    · cases h

theorem numberRun_pos (pre : PreTokenizer) : 1 ≤ pre.numberRun := by
  cases pre <;> decide

theorem nextLen_pos (cls : Classes) (pre : PreTokenizer) (c : Char) (rest : Text) :
    1 ≤ nextLen cls pre c rest := by
  unfold nextLen
  split
  next k _ => exact Nat.le_add_left 1 k
  · split
    · exact Nat.le_add_right 1 _
    · split
      next hn => exact Nat.le_min.2 ⟨numberRun_pos pre, runLen_pos hn rest⟩
      · split
        next k hk => exact symbolLen_pos hk
        · exact whitespaceLen_pos _

theorem jinaWhitespaceLen_pos {c : Char} (h : isWhitespace c = true) (rest : Text) :
    1 ≤ jinaWhitespaceLen (c :: rest) := by
  have hrun := runLen_pos h rest
  unfold jinaWhitespaceLen
  simp only
  split <;> omega

theorem jinaRun_pos (p : Char → Bool) (rest : Text) : 1 ≤ jinaRun p rest :=
  Nat.le_add_right 1 _

theorem jinaNextLen_pos (cls : Classes) (c : Char) (rest : Text) :
    1 ≤ jinaNextLen cls c rest := by
  unfold jinaNextLen
  simp only
  split
  · split
    next k _ => exact Nat.le_add_left 1 k
    · exact jinaRun_pos _ _
  · repeat' split
    any_goals exact jinaRun_pos _ _
    next hw => exact jinaWhitespaceLen_pos hw rest
    · exact Nat.le_refl _

/-- A scan that always takes something tiles the text. -/
theorem splitLoop_flatten {len : Char → Text → Nat} (hlen : ∀ c rest, 1 ≤ len c rest)
    {fuel : Nat} {text : Text} (hfuel : text.length ≤ fuel) :
    (splitLoop len fuel text).flatten = text := by
  induction fuel generalizing text with
  | zero => rw [List.length_eq_zero_iff.1 (Nat.le_zero.1 hfuel)]; rfl
  | succ fuel ih =>
      match text with
      | [] => rfl
      | c :: rest =>
          have hpos := hlen c rest
          rw [splitLoop, List.flatten_cons, ih, List.take_append_drop]
          rw [List.length_drop, List.length_cons] at *
          omega

/-- Every rule but `whitespace` tiles the text. -/
theorem split_flatten (cls : Classes) {pre : PreTokenizer} (hpre : pre ≠ .whitespace)
    (text : Text) : (pre.split cls text).flatten = text := by
  have hmain (p : PreTokenizer) :
      (splitLoop (nextLen cls p) text.length text).flatten = text :=
    splitLoop_flatten (nextLen_pos cls p) (Nat.le_refl _)
  cases pre with
  | jinaV1En => exact splitLoop_flatten (jinaNextLen_pos cls) (Nat.le_refl _)
  | whitespace => exact absurd rfl hpre
  | gemma4 => exact List.flatten_splitBy _ _
  | qwen2 => exact hmain .qwen2
  | qwen35 => exact hmain .qwen35
  | llamaBpe => exact hmain .llamaBpe
  | lfm2 => exact hmain .lfm2
  | smaugDbrx => exact hmain .smaugDbrx

-- ============================= merging

theorem mergeAt_flatten (i : Nat) (word : List Text) :
    (mergeAt i word).flatten = word.flatten := by
  induction i generalizing word with
  | zero =>
      match word with
      | [] => rfl
      | [_] => rfl
      | a :: b :: rest =>
          rw [mergeAt, List.flatten_cons, List.flatten_cons, List.flatten_cons,
            List.append_assoc]
  | succ i ih =>
      match word with
      | [] => rfl
      | a :: rest => rw [mergeAt, List.flatten_cons, List.flatten_cons, ih]

theorem mergeLoop_flatten (merges : Map (Text × Text) Nat) (fuel : Nat)
    (word : List Text) :
    (mergeLoop merges fuel word).flatten = word.flatten := by
  induction fuel generalizing word with
  | zero => rfl
  | succ fuel ih =>
      rw [mergeLoop]
      split
      · rfl
      · rw [ih, mergeAt_flatten]

/-- Merging loses nothing. -/
theorem mergedWords_flatten (merges : Map (Text × Text) Nat) (piece : Text) :
    (mergedWords merges piece).flatten = piece := by
  rw [mergedWords, mergeLoop_flatten]
  induction piece with
  | nil => rfl
  | cons c piece ih =>
      rw [List.map_cons, List.flatten_cons, ih, List.singleton_append]

-- =============================== loops

theorem extendAll_cons {α : Type} {f : α → Except Stop (List Nat)} {x : α}
    {xs : List α} {ids : List Nat} (h : extendAll f (x :: xs) = .ok ids) :
    ∃ a b, f x = .ok a ∧ extendAll f xs = .ok b ∧ ids = a ++ b := by
  rw [extendAll] at h
  match hx : f x with
  | .error e =>
      rw [hx] at h
      cases h
  | .ok a =>
      rw [hx] at h
      match hxs : extendAll f xs with
      | .error e =>
          simp only [hxs] at h
          cases h
      | .ok b =>
          simp only [hxs] at h
          exact ⟨a, b, rfl, rfl, (Except.ok.inj h).symm⟩

/-- What holds of every element's tokens holds of the loop's. -/
theorem extendAll_flatMap {α β : Type} {f : α → Except Stop (List Nat)}
    {dec : Nat → List β} {enc : α → List β}
    (hf : ∀ x ids, f x = .ok ids → ids.flatMap dec = enc x) {xs : List α}
    {ids : List Nat} (h : extendAll f xs = .ok ids) :
    ids.flatMap dec = xs.flatMap enc := by
  induction xs generalizing ids with
  | nil =>
      obtain rfl := Except.ok.inj h
      rfl
  | cons x xs ih =>
      obtain ⟨a, b, ha, hb, rfl⟩ := extendAll_cons h
      rw [List.flatMap_append, List.flatMap_cons, hf x a ha, ih hb]

end Minfer.Tokenize
