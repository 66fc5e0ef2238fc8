/-
The special-token scan: `find_special` finds the declared token that starts
first, and of those that start there the longest.

The index files a token under its first character, the empty token under
NUL. Only a token that takes something can be said to occur, so the
statements leave the empty one out and ask that the scan did not stop at it.
-/
import Minfer.Tokenizer.Proofs.Vocab

namespace Minfer.Tokenize

open Minfer.Lib (utf8Encode utf8Encode_append bind_eq_ok)

-- ========================== vocabulary

/-- A special token starts a text. -/
def Starts (specials : Map Text Nat) (text : Text) : Prop :=
  ∃ q ∈ specials, q.1 ≠ [] ∧ q.1 <+: text

/-- The first special token of a text: nothing starts before it, and nothing
longer starts with it. -/
structure First (specials : Map Text Nat) (text : Text) (at_ : Nat)
    (pat : Text) : Prop where
  mem : ∃ id, (pat, id) ∈ specials
  ne : pat ≠ []
  starts : pat <+: text.drop at_
  earliest : ∀ i < at_, ¬ Starts specials (text.drop i)
  longest : ∀ q ∈ specials, q.1 <+: text.drop at_ → q.1.length ≤ pat.length

/-- The special tokens of a text: the first one, and those of what follows
it. -/
inductive Occurs (specials : Map Text Nat) : Text → Text → Prop
  | first {text : Text} {at_ : Nat} {pat : Text} :
      First specials text at_ pat → Occurs specials text pat
  | later {text : Text} {at_ : Nat} {pat p : Text} :
      First specials text at_ pat → Occurs specials (text.drop (at_ + pat.length)) p →
      Occurs specials text p

variable {specials : Map Text Nat}
variable {text pat before : Text} {id : Nat}

theorem eq_of_prefix_of_length {a b : Text} (ha : a <+: text)
    (hb : b <+: text) (hlen : a.length = b.length) : a = b := by
  rw [List.prefix_iff_eq_take.1 ha, List.prefix_iff_eq_take.1 hb, hlen]

/-- A text has one first special token. -/
theorem First.unique {i j : Nat} {p q : Text} (hp : First specials text i p)
    (hq : First specials text j q) : i = j ∧ p = q := by
  obtain ⟨idp, hpmem⟩ := hp.mem
  obtain ⟨idq, hqmem⟩ := hq.mem
  have hi : ¬ i < j := fun h => hq.earliest i h ⟨_, hpmem, hp.ne, hp.starts⟩
  have hj : ¬ j < i := fun h => hp.earliest j h ⟨_, hqmem, hq.ne, hq.starts⟩
  obtain rfl : i = j := by omega
  have hpq := hq.longest _ hpmem hp.starts
  have hqp := hp.longest _ hqmem hq.starts
  exact ⟨rfl, eq_of_prefix_of_length hp.starts hq.starts (Nat.le_antisymm hpq hqp)⟩

-- =============================== group

theorem mem_specialGroup {c : Char} {p : Text × Nat} :
    p ∈ specialGroup specials c ↔ p ∈ specials ∧ firstChar p.1 = c := by
  rw [specialGroup, List.mem_insertionSort, List.mem_filter, decide_eq_true_eq]

/-- A group is sorted by length in bytes, the longest first. -/
theorem specialGroup_sorted (c : Char) :
    (specialGroup specials c).Pairwise
      fun a b => (utf8Encode b.1).length ≤ (utf8Encode a.1).length := by
  let r : Text × Nat → Text × Nat → Prop :=
    fun a b => (utf8Encode b.1).length ≤ (utf8Encode a.1).length
  have _ : Std.Total r := ⟨fun a b => Nat.le_total _ _⟩
  have _ : IsTrans (Text × Nat) r := ⟨fun a b c hab hbc => Nat.le_trans hbc hab⟩
  exact List.pairwise_insertionSort r _

theorem utf8Encode_length_pos (h : text ≠ []) :
    0 < (utf8Encode text).length := by
  match text, h with
  | c :: rest, _ =>
      rw [Minfer.Lib.utf8Encode_cons, List.length_append,
        String.length_utf8EncodeChar]
      have := c.utf8Size_pos
      omega

/-- Of two prefixes of one text, the one with no fewer bytes has no fewer
characters. -/
theorem length_le_of_bytes {a b : Text} (ha : a <+: text)
    (hb : b <+: text) (h : (utf8Encode a).length ≤ (utf8Encode b).length) :
    a.length ≤ b.length := by
  by_contra hlt
  obtain ⟨d, hd⟩ := List.prefix_of_prefix_length_le hb ha (by omega)
  have hd0 : d ≠ [] := by
    rintro rfl
    rw [← hd, List.append_nil] at hlt
    exact hlt (Nat.le_refl _)
  have := utf8Encode_length_pos hd0
  rw [← hd, utf8Encode_append, List.length_append] at h
  omega

-- ================================ scan

variable {tok : Tokenizer}

theorem specialAt_some (h : tok.specialAt text = some (pat, id)) :
    (pat, id) ∈ tok.specialTokens ∧ pat <+: text
      ∧ ∀ q ∈ tok.specialTokens, q.1 <+: text → q.1.length ≤ pat.length := by
  match text with
  | [] => cases h
  | c :: rest =>
      rw [Tokenizer.specialAt] at h
      have hfound := List.find?_some h
      have hpre : pat <+: c :: rest := List.isPrefixOf_iff_prefix.1 hfound
      have hmem := mem_specialGroup.1 (List.mem_of_find?_eq_some h)
      obtain ⟨-, as, bs, hgroup, has⟩ := List.find?_eq_some_iff_append.1 h
      refine ⟨hmem.1, hpre, fun q hq hqpre => ?_⟩
      by_cases hq0 : q.1 = []
      · rw [hq0]
        exact Nat.zero_le _
      · -- a token that starts here is in the group, at `pat` or after it
        have hfirst : firstChar q.1 = c := by
          match hq1 : q.1, hq0 with
          | d :: _, _ =>
              rw [hq1] at hqpre
              exact (List.cons_prefix_cons.1 hqpre).1
        have hqg : q ∈ as ++ (pat, id) :: bs :=
          hgroup ▸ mem_specialGroup.2 ⟨hq, hfirst⟩
        have hsorted := @specialGroup_sorted tok.specialTokens c
        rw [hgroup] at hsorted
        rcases List.mem_append.1 hqg with hqa | hqb
        · have := has q hqa
          rw [List.isPrefixOf_iff_prefix.2 hqpre] at this
          cases this
        · rcases List.mem_cons.1 hqb with rfl | hqb
          · exact Nat.le_refl _
          · have hle :=
              List.rel_of_pairwise_cons
              (List.pairwise_append.1 hsorted).2.1 hqb
            exact length_le_of_bytes hqpre hpre hle

theorem specialAt_none (h : tok.specialAt text = none) :
    ¬ Starts tok.specialTokens text := by
  rintro ⟨q, hq, hq0, hpre⟩
  match text with
  | [] => exact hq0 (List.prefix_nil.1 hpre)
  | c :: rest =>
      rw [Tokenizer.specialAt] at h
      have hfirst : firstChar q.1 = c := by
        match hq1 : q.1, hq0 with
        | d :: _, _ =>
            rw [hq1] at hpre
            exact (List.cons_prefix_cons.1 hpre).1
      have := List.find?_eq_none.1 h q (mem_specialGroup.2 ⟨hq, hfirst⟩)
      exact this (List.isPrefixOf_iff_prefix.2 hpre)

/-- What the scan stops at. -/
theorem findSpecial_some (h : tok.findSpecial text = some (before, pat, id)) :
    (pat, id) ∈ tok.specialTokens ∧ (∃ rest, text = before ++ (pat ++ rest))
      ∧ (∀ i < before.length, ¬ Starts tok.specialTokens (text.drop i))
      ∧ ∀ q ∈ tok.specialTokens, q.1 <+: text.drop before.length →
        q.1.length ≤ pat.length := by
  induction text generalizing before with
  | nil => cases h
  | cons c rest ih =>
      rw [Tokenizer.findSpecial] at h
      match hat : tok.specialAt (c :: rest), h with
      | some (p, k), h =>
          simp only [Option.some.injEq, Prod.mk.injEq] at h
          obtain ⟨rfl, rfl, rfl⟩ := h
          obtain ⟨hmem, ⟨tail, htail⟩, hlong⟩ := specialAt_some hat
          exact ⟨hmem, ⟨tail, htail.symm⟩, fun i hi =>
            absurd hi (Nat.not_lt_zero i), hlong⟩
      | none, h =>
          obtain ⟨⟨before', found⟩, hrest, h⟩ := Option.map_eq_some_iff.1 h
          obtain ⟨rfl, rfl⟩ := Prod.mk.inj h
          obtain ⟨hmem, ⟨tail, htail⟩, hearly, hlong⟩ := ih hrest
          refine ⟨hmem, ⟨tail, by rw [htail, List.cons_append]⟩,
            fun i hi => ?_, hlong⟩
          match i with
          | 0 => exact specialAt_none hat
          | i + 1 => exact hearly i (Nat.lt_of_succ_lt_succ hi)

/-- The scan finds the first special token, unless it stops at the empty
one. -/
theorem findSpecial_first
    (h : tok.findSpecial text = some (before, pat, id)) (hne : pat ≠ []) :
    First tok.specialTokens text before.length pat := by
  obtain ⟨hmem, ⟨rest, rfl⟩, hearly, hlong⟩ := findSpecial_some h
  exact ⟨⟨id, hmem⟩, hne, by rw [List.drop_left]; exact List.prefix_append _ _,
    hearly, hlong⟩

theorem findSpecial_none (h : tok.findSpecial text = none) (i : Nat) :
    ¬ Starts tok.specialTokens (text.drop i) := by
  induction text generalizing i with
  | nil =>
      rw [List.drop_nil]
      exact specialAt_none rfl
  | cons c rest ih =>
      rw [Tokenizer.findSpecial] at h
      match hat : tok.specialAt (c :: rest), h with
      | none, h =>
          match i with
          | 0 => exact specialAt_none hat
          | i + 1 => exact ih (Option.map_eq_none_iff.1 h) i

/-- A text the scan finds nothing in holds no special token. -/
theorem not_occurs_of_findSpecial_none {p : Text}
    (h : tok.findSpecial text = none) :
    ¬ Occurs tok.specialTokens text p := by
  have hnone {at_ : Nat} {pat : Text} : ¬ First tok.specialTokens text at_ pat := by
    intro hf
    obtain ⟨id, hmem⟩ := hf.mem
    exact findSpecial_none h at_ ⟨_, hmem, hf.ne, hf.starts⟩
  intro hocc
  cases hocc with
  | first hf => exact hnone hf
  | later hf _ => exact hnone hf

/-- The special tokens of a text are the one the scan finds and those of the
rest. -/
theorem occurs_iff {p : Text}
    (h : tok.findSpecial text = some (before, pat, id)) (hne : pat ≠ []) :
    Occurs tok.specialTokens text p ↔
      p = pat ∨ Occurs tok.specialTokens
        (text.drop (before.length + pat.length)) p := by
  have hfirst := findSpecial_first h hne
  constructor
  · intro hocc
    cases hocc with
    | first hf => exact Or.inl (hf.unique hfirst).2
    | later hf hrest =>
        obtain ⟨rfl, rfl⟩ := hf.unique hfirst
        exact Or.inr hrest
  · rintro (rfl | hrest)
    · exact .first hfirst
    · exact .later hfirst hrest

-- ===================== the empty token

theorem findSpecial_drop (h : tok.findSpecial text = some (before, pat, id)) :
    tok.findSpecial (text.drop before.length) = some ([], pat, id) := by
  induction text generalizing before with
  | nil => cases h
  | cons c rest ih =>
      rw [Tokenizer.findSpecial] at h
      match hat : tok.specialAt (c :: rest), h with
      | some (p, k), h =>
          simp only [Option.some.injEq, Prod.mk.injEq] at h
          obtain ⟨rfl, rfl, rfl⟩ := h
          rw [List.length_nil, List.drop_zero, Tokenizer.findSpecial, hat]
      | none, h =>
          obtain ⟨⟨before', found⟩, hrest, h⟩ := Option.map_eq_some_iff.1 h
          obtain ⟨rfl, rfl⟩ := Prod.mk.inj h
          exact ih hrest

/-- The scan that stops at the empty token stays there. -/
theorem encodeLoop_stuck {env : Env}
    (h : tok.findSpecial text = some ([], [], id)) (fuel : Nat) (ids : List Nat) :
    tok.encodeLoop env fuel text ≠ .ok ids := by
  induction fuel generalizing ids with
  | zero => exact nofun
  | succ fuel ih =>
      intro hok
      rw [Tokenizer.encodeLoop, h] at hok
      obtain ⟨head, -, hok⟩ := bind_eq_ok.1 hok
      obtain ⟨rest, hrest, -⟩ := bind_eq_ok.1 hok
      exact ih rest hrest

/-- A run that returns never stops at the empty token. -/
theorem pat_ne_nil_of_ok {env : Env} {fuel : Nat} {ids : List Nat}
    (h : tok.encodeLoop env fuel text = .ok ids)
    (hfind : tok.findSpecial text = some (before, pat, id)) : pat ≠ [] := by
  rintro rfl
  match fuel with
  | 0 => cases h
  | fuel + 1 =>
      rw [Tokenizer.encodeLoop, hfind] at h
      obtain ⟨head, -, h⟩ := bind_eq_ok.1 h
      obtain ⟨rest, hrest, -⟩ := bind_eq_ok.1 h
      exact encodeLoop_stuck (findSpecial_drop hfind) fuel rest hrest

end Minfer.Tokenize
