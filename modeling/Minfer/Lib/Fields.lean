/-
The words of a text, between separators that are told by a predicate.

A split into words stops after a number of them and keeps the rest of the text
as its last piece. From the right it stops at the first words. Both are all
the words exactly when they did not have to stop, or stopped at a single word
with nothing beside it (`fields_eq_words_iff`).
-/
import Mathlib.Data.List.DropRight

namespace Minfer.Lib

variable {α : Type} (p : α → Bool)

/-- The words of a text, at most so many of them, and what is left. -/
def fields : Nat → List α → List (List α)
  | 0, text =>
      let rest := text.dropWhile p
      if rest.isEmpty then [] else [rest]
  | k + 1, text =>
      let rest := text.dropWhile p
      if rest.isEmpty then []
        else rest.takeWhile (! p ·) :: fields k (rest.dropWhile (! p ·))

/-- The last words of a text, at most so many of them, behind what is left. -/
def rfields : Nat → List α → List (List α)
  | 0, text =>
      let rest := text.rdropWhile p
      if rest.isEmpty then [] else [rest]
  | k + 1, text =>
      let rest := text.rdropWhile p
      if rest.isEmpty then []
        else rfields k (rest.rdropWhile (! p ·)) ++ [rest.rtakeWhile (! p ·)]

/-- All the words of a text. -/
def words (text : List α) : List (List α) := fields p text.length text

variable {p}

/-- A text from the right is its mirror from the left. -/
theorem rfields_eq (k : Nat) (text : List α) :
    rfields p k text
    = ((fields p k text.reverse).map List.reverse).reverse := by
  induction k generalizing text with
  | zero =>
      rw [rfields, fields, List.rdropWhile, List.isEmpty_reverse]
      split <;> rfl
  | succ k ih =>
      rw [rfields, fields, List.rdropWhile, List.isEmpty_reverse]
      split
      · rfl
      · rw [ih, List.rdropWhile_reverse, List.rtakeWhile_reverse,
          List.reverse_reverse, List.map_cons, List.reverse_cons]

-- ========================= first words

/-- A text that has a word: separators, the word, and a rest that is empty or
starts with a separator. -/
structure First (p : α → Bool) (text lead word rest : List α) : Prop where
  eq : text = lead ++ (word ++ rest)
  lead : ∀ a ∈ lead, p a = true
  word_ne : word ≠ []
  word : ∀ a ∈ word, p a = false
  rest : ∀ a ∈ rest.head?, p a = true

theorem all_or_first (p : α → Bool) (text : List α) :
    (∀ a ∈ text, p a = true) ∨ ∃ lead word rest, First p text lead word rest := by
  induction text with
  | nil => exact Or.inl (by simp)
  | cons a text ih =>
      cases hp : p a with
      | true =>
          rcases ih with hall | hfirst
          · exact Or.inl (List.forall_mem_cons.2 ⟨hp, hall⟩)
          · obtain ⟨lead, word, rest, hfirst⟩ := hfirst
            refine Or.inr ⟨a :: lead, word, rest, ?_⟩
            exact { hfirst with
              eq := by rw [hfirst.eq, List.cons_append]
              lead := List.forall_mem_cons.2 ⟨hp, hfirst.lead⟩ }
      | false =>
          refine Or.inr ⟨[], a :: text.takeWhile (! p ·),
            text.dropWhile (! p ·), ?_, by simp, by simp, ?_, ?_⟩
          · rw [List.nil_append, List.cons_append, List.takeWhile_append_dropWhile]
          · intro b hb
            rcases List.mem_cons.1 hb with rfl | htake
            · exact hp
            · simpa using List.mem_takeWhile_imp htake
          · intro b hb
            have hnot := List.head?_dropWhile_not (! p ·) text
            rw [Option.mem_def] at hb
            rw [hb] at hnot
            simpa using hnot

namespace First

variable {text lead word rest : List α}

theorem dropWhile (h : First p text lead word rest) :
    text.dropWhile p = word ++ rest := by
  obtain ⟨a, word', hword⟩ := List.exists_cons_of_ne_nil h.word_ne
  have ha : p a = false := h.word a (by simp [hword])
  rw [h.eq, List.dropWhile_append_of_pos h.lead, hword, List.cons_append,
    List.dropWhile_cons_of_neg (by simp [ha])]

theorem takeWhile (h : First p text lead word rest) :
    (word ++ rest).takeWhile (! p ·) = word := by
  rw [List.takeWhile_append_of_pos (by simpa using h.word)]
  cases hrest : rest with
  | nil => simp
  | cons a rest' =>
      have ha := h.rest a (by simp [hrest])
      simp [ha]

theorem dropWhile_word (h : First p text lead word rest) :
    (word ++ rest).dropWhile (! p ·) = rest := by
  rw [List.dropWhile_append_of_pos (by simpa using h.word)]
  cases hrest : rest with
  | nil => rfl
  | cons a rest' =>
      have ha := h.rest a (by simp [hrest])
      simp [ha]

theorem append_ne_nil (h : First p text lead word rest) :
    (word ++ rest).isEmpty = false := by
  simp [h.word_ne]

theorem length_lt (h : First p text lead word rest) : rest.length < text.length := by
  have hpos := List.length_pos_iff.2 h.word_ne
  rw [h.eq, List.length_append, List.length_append]
  omega

theorem fields_zero (h : First p text lead word rest) :
    fields p 0 text = [word ++ rest] := by
  rw [fields, h.dropWhile, h.append_ne_nil]
  rfl

theorem fields_succ (h : First p text lead word rest) (k : Nat) :
    fields p (k + 1) text = word :: fields p k rest := by
  rw [fields, h.dropWhile, h.append_ne_nil, h.takeWhile, h.dropWhile_word]
  rfl

end First

variable {text : List α} {k : Nat}

theorem fields_of_all (h : ∀ a ∈ text, p a = true) (k : Nat) :
    fields p k text = [] := by
  have hdrop : text.dropWhile p = [] := List.dropWhile_eq_nil_iff.2 h
  cases k with
  | zero => rw [fields, hdrop]; rfl
  | succ k => rw [fields, hdrop]; rfl

/-- A limit that no text of this length reaches makes no difference. -/
theorem fields_congr {k' : Nat} (hk : text.length ≤ k)
    (hk' : text.length ≤ k') :
    fields p k text = fields p k' text := by
  induction k generalizing k' text with
  | zero =>
      obtain rfl : text = [] := List.length_eq_zero_iff.1 (Nat.le_zero.1 hk)
      rw [fields_of_all (by simp), fields_of_all (by simp)]
  | succ k ih =>
      rcases all_or_first p text with hall | hfirst
      · rw [fields_of_all hall, fields_of_all hall]
      · obtain ⟨lead, word, rest, hfirst⟩ := hfirst
        have hlt := hfirst.length_lt
        cases k' with
        | zero => omega
        | succ k' =>
            have hrest : fields p k rest = fields p k' rest :=
              ih (by omega) (by omega)
            rw [hfirst.fields_succ, hfirst.fields_succ, hrest]

theorem words_of_all (h : ∀ a ∈ text, p a = true) :
    words p text = [] := fields_of_all h _

theorem First.words {lead word rest : List α}
    (h : First p text lead word rest) :
    words p text = word :: words p rest := by
  have hlt := h.length_lt
  rw [Minfer.Lib.words, fields_congr le_rfl (Nat.le_succ text.length),
    h.fields_succ, Minfer.Lib.words, fields_congr (Nat.le_of_lt hlt) le_rfl]

-- ============================== limits

theorem length_fields_le (k : Nat) (text : List α) :
    (fields p k text).length ≤ k + 1 := by
  induction k generalizing text with
  | zero =>
      rcases all_or_first p text with hall | hfirst
      · rw [fields_of_all hall]
        exact Nat.zero_le _
      · obtain ⟨lead, word, rest, hfirst⟩ := hfirst
        rw [hfirst.fields_zero]
        exact le_rfl
  | succ k ih =>
      rcases all_or_first p text with hall | hfirst
      · rw [fields_of_all hall]
        exact Nat.zero_le _
      · obtain ⟨lead, word, rest, hfirst⟩ := hfirst
        rw [hfirst.fields_succ]
        exact Nat.succ_le_succ (ih rest)

theorem length_words_le (text : List α) :
    (words p text).length ≤ text.length + 1 := length_fields_le _ _

theorem ne_nil_of_words (h : words p text ≠ []) :
    text ≠ [] := by
  intro hnil
  exact h (by rw [hnil]; rfl)

/-- The pieces are all the words exactly when the limit was not reached, or was
reached before the last word with nothing behind it. -/
theorem fields_eq_words_iff :
    fields p k text = words p text
      ↔ (words p text).length ≤ k ∨ (words p text).length = k + 1
        ∧ ∀ a ∈ text.getLast?, p a = false := by
  induction k generalizing text with
  | zero =>
      rcases all_or_first p text with hall | hfirst
      · rw [fields_of_all hall, words_of_all hall]
        exact iff_of_true rfl (Or.inl le_rfl)
      · obtain ⟨lead, word, rest, hfirst⟩ := hfirst
        rw [hfirst.fields_zero, hfirst.words, List.cons.injEq,
          List.append_right_eq_self, List.length_cons]
        constructor
        · intro h
          obtain ⟨rfl, -⟩ := h
          refine Or.inr ⟨rfl, ?_⟩
          intro a ha
          rw [hfirst.eq, List.append_nil,
            List.getLast?_append_of_ne_nil _ hfirst.word_ne] at ha
          exact hfirst.word a (List.mem_of_getLast? ha)
        · intro h
          rcases h with hnone | hone
          · omega
          · obtain ⟨hlen, hlast⟩ := hone
            have hnone : words p rest = [] := List.length_eq_zero_iff.1 (by omega)
            refine ⟨?_, hnone.symm⟩
            by_contra hne
            rcases all_or_first p rest with hall | hsecond
            · have hmem := List.getLast_mem hne
              have hp := hlast (rest.getLast hne) (by
                rw [hfirst.eq, ← List.append_assoc,
                  List.getLast?_append_of_ne_nil _ hne,
                  List.getLast?_eq_getLast_of_ne_nil hne]
                rfl)
              rw [hall _ hmem] at hp
              exact Bool.noConfusion hp
            · obtain ⟨lead', word', rest', hsecond⟩ := hsecond
              rw [hsecond.words] at hnone
              exact List.cons_ne_nil _ _ hnone
  | succ k ih =>
      rcases all_or_first p text with hall | hfirst
      · rw [fields_of_all hall, words_of_all hall]
        exact iff_of_true rfl (Or.inl (Nat.zero_le _))
      · obtain ⟨lead, word, rest, hfirst⟩ := hfirst
        have hlast : words p rest ≠ [] → text.getLast? = rest.getLast? := by
          intro hne
          rw [hfirst.eq, ← List.append_assoc,
            List.getLast?_append_of_ne_nil _ (ne_nil_of_words hne)]
        rw [hfirst.fields_succ, hfirst.words, List.cons.injEq,
          and_iff_right rfl, ih, List.length_cons,
          Nat.add_le_add_iff_right, Nat.add_right_cancel_iff]
        apply or_congr_right
        apply and_congr_right
        intro hlen
        rw [hlast (fun hnil => by simp [hnil] at hlen)]

/-- Pieces without a separator are all the words. -/
theorem fields_eq_words_of (h : ∀ w ∈ fields p k text, ∀ a ∈ w, p a = false) :
    fields p k text = words p text := by
  induction k generalizing text with
  | zero =>
      rcases all_or_first p text with hall | hfirst
      · rw [fields_of_all hall, words_of_all hall]
      · obtain ⟨lead, word, rest, hfirst⟩ := hfirst
        rw [hfirst.fields_zero] at h
        have hrest : rest = [] := by
          cases hrest : rest with
          | nil => rfl
          | cons a rest' =>
              have hp := h _ (List.mem_singleton.2 rfl) a (by simp [hrest])
              rw [hfirst.rest a (by simp [hrest])] at hp
              exact Bool.noConfusion hp
        rw [hfirst.fields_zero, hfirst.words, hrest, List.append_nil]
        rfl
  | succ k ih =>
      rcases all_or_first p text with hall | hfirst
      · rw [fields_of_all hall, words_of_all hall]
      · obtain ⟨lead, word, rest, hfirst⟩ := hfirst
        rw [hfirst.fields_succ, List.forall_mem_cons] at h
        rw [hfirst.fields_succ, hfirst.words, ih h.2]

/-- Only the last piece can have a separator. -/
theorem fields_dropLast :
    ∀ w ∈ (fields p k text).dropLast, ∀ a ∈ w, p a = false := by
  induction k generalizing text with
  | zero =>
      rcases all_or_first p text with hall | hfirst
      · simp [fields_of_all hall]
      · obtain ⟨lead, word, rest, hfirst⟩ := hfirst
        simp [hfirst.fields_zero]
  | succ k ih =>
      rcases all_or_first p text with hall | hfirst
      · simp [fields_of_all hall]
      · obtain ⟨lead, word, rest, hfirst⟩ := hfirst
        rw [hfirst.fields_succ]
        intro w hw
        cases hnext : fields p k rest with
        | nil => simp [hnext] at hw
        | cons x xs =>
            rw [hnext, List.dropLast_cons_cons, ← hnext] at hw
            rcases List.mem_cons.1 hw with rfl | hmem
            · exact hfirst.word
            · exact ih w hmem

-- ============================== mirror

theorem words_append_of_all {lead : List α} (h : ∀ a ∈ lead, p a = true)
    (v : List α) :
    words p (lead ++ v) = words p v := by
  rcases all_or_first p v with hall | hfirst
  · rw [words_of_all hall, words_of_all (List.forall_mem_append.2 ⟨h, hall⟩)]
  · obtain ⟨lead', word, rest, hfirst⟩ := hfirst
    have hboth : First p (lead ++ v) (lead ++ lead') word rest :=
      { hfirst with
        eq := by rw [hfirst.eq, List.append_assoc]
        lead := List.forall_mem_append.2 ⟨h, hfirst.lead⟩ }
    rw [hboth.words, hfirst.words]

/-- Words on two sides of a separator. -/
theorem words_append {u : List α} (hu : ∀ a ∈ u.getLast?, p a = true) (v : List α) :
    words p (u ++ v) = words p u ++ words p v := by
  induction hlen : u.length using Nat.strong_induction_on generalizing u with
  | _ n ih =>
      rcases all_or_first p u with hall | hfirst
      · rw [words_append_of_all hall, words_of_all hall, List.nil_append]
      · obtain ⟨lead, word, rest, hfirst⟩ := hfirst
        have hrest : rest ≠ [] := by
          intro hnil
          have hend : u.getLast? = word.getLast? := by
            rw [hfirst.eq, hnil, List.append_nil,
              List.getLast?_append_of_ne_nil _ hfirst.word_ne]
          have hlast := hu (word.getLast hfirst.word_ne) (by
            rw [hend]
            exact List.getLast?_eq_getLast_of_ne_nil _)
          rw [hfirst.word _ (List.getLast_mem _)] at hlast
          exact Bool.noConfusion hlast
        have hboth : First p (u ++ v) lead word (rest ++ v) :=
          { hfirst with
            eq := by rw [hfirst.eq, List.append_assoc, List.append_assoc]
            rest := by
              rw [List.head?_append_of_ne_nil _ hrest]
              exact hfirst.rest }
        have hlast : rest.getLast? = u.getLast? := by
          rw [hfirst.eq, ← List.append_assoc, List.getLast?_append_of_ne_nil _ hrest]
        have hlt := hfirst.length_lt
        rw [hboth.words, hfirst.words,
          ih rest.length (by omega) (by rw [hlast]; exact hu) rfl,
          List.cons_append]

/-- The words of the mirror are the mirrors of the words, from the last on. -/
theorem words_reverse (text : List α) :
    words p text.reverse = ((words p text).map List.reverse).reverse := by
  induction hlen : text.length using Nat.strong_induction_on generalizing text with
  | _ n ih =>
      rcases all_or_first p text with hall | hfirst
      · rw [words_of_all hall, words_of_all (by simpa using hall)]
        rfl
      · obtain ⟨lead, word, rest, hfirst⟩ := hfirst
        have hlt := hfirst.length_lt
        have hlast :
            First p (word.reverse ++ lead.reverse) [] word.reverse
            lead.reverse :=
          { eq := rfl
            lead := by simp
            word_ne := by simpa using hfirst.word_ne
            word := by simpa using hfirst.word
            rest := by
              intro a ha
              exact hfirst.lead a (List.mem_reverse.1 (List.mem_of_mem_head? ha)) }
        have hlead : words p lead.reverse = [] :=
          words_of_all (by simpa using hfirst.lead)
        rw [hfirst.words, hfirst.eq, List.reverse_append, List.reverse_append,
          List.append_assoc,
          words_append (by rw [List.getLast?_reverse]; exact hfirst.rest),
            ih rest.length (by omega) rest rfl, hlast.words,
          hlead, List.map_cons, List.reverse_cons]

/-- The last words are all the words exactly when the limit was not reached, or
was reached before the first word with nothing in front of it. -/
theorem rfields_eq_words_iff :
    rfields p k text = words p text
      ↔ (words p text).length ≤ k ∨ (words p text).length = k + 1
        ∧ ∀ a ∈ text.head?, p a = false := by
  have hmirror : rfields p k text = words p text
      ↔ fields p k text.reverse = words p text.reverse := by
    rw [rfields_eq, words_reverse, ← List.reverse_inj, List.reverse_reverse,
      ← (List.map_injective_iff.2 List.reverse_injective).eq_iff
        (b := (words p text).map List.reverse |>.reverse)]
    simp [List.map_reverse]
  rw [hmirror, fields_eq_words_iff, words_reverse, List.length_reverse,
    List.length_map, List.getLast?_reverse]

/-- Only the first piece from the right can have a separator. -/
theorem rfields_tail :
    ∀ w ∈ (rfields p k text).tail, ∀ a ∈ w, p a = false := by
  intro w hw a ha
  rw [rfields_eq, ← List.map_reverse, ← List.map_tail, List.tail_reverse,
    List.map_reverse] at hw
  obtain ⟨x, hx, rfl⟩ := List.mem_map.1 (List.mem_reverse.1 hw)
  exact fields_dropLast x hx a (List.mem_reverse.1 ha)

/-- With room for a word, the pieces from the left are those from the right
when both are all the words, and only then. -/
theorem fields_eq_rfields_iff :
    fields p (k + 1) text = rfields p (k + 1) text
      ↔ fields p (k + 1) text = words p text
        ∧ rfields p (k + 1) text = words p text := by
  constructor
  · intro h
    have hwords : fields p (k + 1) text = words p text := by
      rcases all_or_first p text with hall | hfirst
      · rw [fields_of_all hall, words_of_all hall]
      · obtain ⟨lead, word, rest, hfirst⟩ := hfirst
        apply fields_eq_words_of
        have htail : ∀ w ∈ (rfields p (k + 1) text).tail, ∀ a ∈ w,
          p a = false := rfields_tail
        rw [← h, hfirst.fields_succ, List.tail_cons] at htail
        rw [hfirst.fields_succ, List.forall_mem_cons]
        exact ⟨hfirst.word, htail⟩
    exact ⟨hwords, h ▸ hwords⟩
  · intro h
    rw [h.1, h.2]

end Minfer.Lib
