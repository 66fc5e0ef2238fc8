/-
The places at which one list stands in another.

A search finds the lowest or the highest place. A scan passes over the text
once and collects places that do not overlap: it finds what repeated search
finds (`cutAt_scan`), and what the scan cuts out says where it cut
(`cutAt_inj`). A search from the right is one from the left in the mirror
(`rsplits_eq`).
-/
import Mathlib.Data.List.Infix

namespace Minfer.Lib

variable {α : Type}

/-- `sub` stands at a place of the text. -/
def OccursAt (sub text : List α) (i : Nat) : Prop :=
  ∃ before after, text = before ++ sub ++ after ∧ before.length = i

variable {i : Nat} {sub text : List α}

theorem occursAt_iff : OccursAt sub text i
    ↔ i ≤ text.length ∧ sub <+: text.drop i := by
  constructor
  · intro h
    obtain ⟨before, after, rfl, rfl⟩ := h
    rw [List.append_assoc, List.drop_left, List.length_append]
    exact ⟨Nat.le_add_right _ _, List.prefix_append _ _⟩
  · intro h
    obtain ⟨hle, after, hafter⟩ := h
    refine ⟨text.take i, after, ?_, List.length_take_of_le hle⟩
    rw [List.append_assoc, hafter, List.take_append_drop]

theorem OccursAt.add_le
    (h : OccursAt sub text i) : i + sub.length ≤ text.length := by
  obtain ⟨before, after, rfl, rfl⟩ := h
  simp

/-- What stands at a place stands at the mirrored place of the mirror. -/
theorem OccursAt.reverse (h : OccursAt sub text i) :
    OccursAt sub.reverse text.reverse (text.length - sub.length - i) := by
  obtain ⟨before, after, rfl, rfl⟩ := h
  refine ⟨after.reverse, before.reverse, ?_, ?_⟩
  · simp
  · simp only [List.length_append, List.length_reverse]
    omega

theorem occursAt_zero : OccursAt sub text 0
    ↔ sub <+: text := by
  rw [occursAt_iff, List.drop_zero]
  exact and_iff_right (Nat.zero_le _)

theorem occursAt_cons {rest : List α} {a : α} :
    OccursAt sub (a :: rest) (i + 1) ↔ OccursAt sub rest i := by
  rw [occursAt_iff, occursAt_iff, List.drop_succ_cons, List.length_cons,
    Nat.add_le_add_iff_right]

-- ================================ cuts

/-- The pieces of the text between places at which a list of some length
stands. -/
def cutAt (text : List α) (len : Nat) : Nat → List Nat → List (List α)
  | start, [] => [text.drop start]
  | start, i :: is =>
      (text.drop start).take (i - start) :: cutAt text len (i + len) is

theorem cutAt_concat {len start : Nat} {is : List Nat}
    (h : ∀ j ∈ is, j + len ≤ i) (hstart : start ≤ i) :
    cutAt text len start (is ++ [i]) = cutAt (text.take i) len start is
      ++ [text.drop (i + len)] := by
  induction is generalizing start with
  | nil => rw [List.nil_append, cutAt, cutAt, cutAt, List.drop_take]; rfl
  | cons j is ih =>
      rw [List.forall_mem_cons] at h
      rw [List.cons_append, cutAt, cutAt, ih h.2 h.1, List.drop_take,
        List.take_take, Nat.min_eq_left (by omega)]
      rfl

theorem length_cutAt (text : List α) (len start : Nat) (is : List Nat) :
    (cutAt text len start is).length = is.length + 1 := by
  induction is generalizing start with
  | nil => rfl
  | cons i is ih => rw [cutAt, List.length_cons, ih, List.length_cons]

theorem cutAt_ne_nil (text : List α) (len start : Nat) (is : List Nat) :
    cutAt text len start is ≠ [] := by
  cases is with
  | nil => simp [cutAt]
  | cons i is => simp [cutAt]

/-- Places from `start` on, each behind what stands at the one before. -/
def Placed (n len : Nat) : Nat → List Nat → Prop
  | _, [] => True
  | start, i :: is => start ≤ i ∧ i + len ≤ n ∧ Placed n len (i + len) is

theorem Placed.concat {m n len start : Nat} {is : List Nat}
    (h : Placed m len start is) (hm : m ≤ i)
    (hstart : start ≤ i) (hi : i + len ≤ n) : Placed n len start (is ++ [i]) := by
  induction is generalizing start with
  | nil => exact ⟨hstart, hi, trivial⟩
  | cons j is ih =>
      obtain ⟨hj, hlen, hrest⟩ := h
      exact ⟨hj, by omega, ih hrest (by omega)⟩

/-- The pieces say where the text was cut. -/
theorem cutAt_inj {len start : Nat} {is js : List Nat}
    (his : Placed text.length len start is)
    (hjs : Placed text.length len start js)
    (h : cutAt text len start is = cutAt text len start js) : is = js := by
  induction is generalizing start js with
  | nil =>
      cases js with
      | nil => rfl
      | cons j js => exact absurd (List.cons.inj h).2.symm (cutAt_ne_nil _ _ _ _)
  | cons i is ih =>
      cases js with
      | nil => exact absurd (List.cons.inj h).2 (cutAt_ne_nil _ _ _ _)
      | cons j js =>
          obtain ⟨hi, hilen, hisrest⟩ := his
          obtain ⟨hj, hjlen, hjsrest⟩ := hjs
          obtain ⟨hhead, htail⟩ := List.cons.inj h
          have hlen := congrArg List.length hhead
          rw [List.length_take, List.length_take, List.length_drop] at hlen
          obtain rfl : i = j := by omega
          rw [ih hisrest hjsrest htail]

-- ============================ searches

section Search

variable [DecidableEq α]

/-- The lowest place at which `sub` stands. -/
def lowest (sub : List α) : List α → Option Nat
  | [] => if sub <+: [] then some 0 else none
  | a :: rest => if sub <+: a :: rest then some 0 else (lowest sub rest).map (· + 1)

/-- The highest of the places up to a bound at which `sub` stands. -/
def highestUpTo (sub text : List α) : Nat → Option Nat
  | 0 => if sub <+: text then some 0 else none
  | n + 1 => if sub <+: text.drop (n + 1) then some (n + 1)
      else highestUpTo sub text n

/-- The highest place at which `sub` stands. -/
def highest (sub text : List α) : Option Nat := highestUpTo sub text text.length

variable {sub text : List α} {i : Nat}

theorem lowest_eq_zero (h : sub <+: text) :
    lowest sub text = some 0 := by
  cases text with
  | nil => exact if_pos h
  | cons a rest => exact if_pos h

theorem lowest_eq_some (h : lowest sub text = some i) :
    OccursAt sub text i ∧ ∀ j < i, ¬ OccursAt sub text j := by
  induction text generalizing i with
  | nil =>
      rw [lowest] at h
      split at h
      · obtain rfl : 0 = i := Option.some.inj h
        exact ⟨occursAt_zero.2 ‹_›, fun j hj => absurd hj (Nat.not_lt_zero j)⟩
      · exact absurd h (by simp)
  | cons a rest ih =>
      rw [lowest] at h
      split at h
      · obtain rfl : 0 = i := Option.some.inj h
        exact ⟨occursAt_zero.2 ‹_›, fun j hj => absurd hj (Nat.not_lt_zero j)⟩
      · obtain ⟨i, hi, rfl⟩ := Option.map_eq_some_iff.1 h
        obtain ⟨hat, hbelow⟩ := ih hi
        refine ⟨occursAt_cons.2 hat, ?_⟩
        intro j hj
        cases j with
        | zero => exact fun hzero => absurd (occursAt_zero.1 hzero) ‹_›
        | succ j => exact fun hsucc => hbelow j (by omega) (occursAt_cons.1 hsucc)

theorem lowest_eq_none (h : lowest sub text = none)
    (i : Nat) : ¬ OccursAt sub text i := by
  induction text generalizing i with
  | nil =>
      rw [lowest] at h
      split at h
      · exact absurd h (by simp)
      · intro hat
        have hle := hat.add_le
        obtain rfl : i = 0 := by
          simp at hle
          omega
        exact absurd (occursAt_zero.1 hat) ‹_›
  | cons a rest ih =>
      rw [lowest] at h
      split at h
      · exact absurd h (by simp)
      · cases i with
        | zero => exact fun hzero => absurd (occursAt_zero.1 hzero) ‹_›
        | succ i =>
            exact fun hsucc =>
              ih (Option.map_eq_none_iff.1 h) i (occursAt_cons.1 hsucc)

theorem highestUpTo_eq_some {n : Nat}
    (hn : n ≤ text.length) (h : highestUpTo sub text n = some i) :
    OccursAt sub text i ∧ i ≤ n ∧ ∀ j, i < j → j ≤ n → ¬ OccursAt sub text j := by
  induction n with
  | zero =>
      rw [highestUpTo] at h
      split at h
      · obtain rfl : 0 = i := Option.some.inj h
        exact ⟨occursAt_zero.2 ‹_›, le_rfl, fun j hlow hhigh =>
          absurd (hlow.trans_le hhigh) (Nat.lt_irrefl 0)⟩
      · exact absurd h (by simp)
  | succ n ih =>
      rw [highestUpTo] at h
      split at h
      · obtain rfl : n + 1 = i := Option.some.inj h
        exact ⟨occursAt_iff.2 ⟨hn, ‹_›⟩, le_rfl, fun j hlow hhigh =>
          absurd (hlow.trans_le hhigh) (Nat.lt_irrefl _)⟩
      · obtain ⟨hat, hle, habove⟩ := ih (by omega) h
        refine ⟨hat, by omega, ?_⟩
        intro j hlow hhigh
        by_cases hj : j = n + 1
        · subst hj
          exact fun hlast => absurd (occursAt_iff.1 hlast).2 ‹_›
        · exact habove j hlow (by omega)

theorem highestUpTo_eq_none {n : Nat}
    (h : highestUpTo sub text n = none) (hi : i ≤ n) :
    ¬ OccursAt sub text i := by
  induction n with
  | zero =>
      rw [highestUpTo] at h
      split at h
      · exact absurd h (by simp)
      · obtain rfl : i = 0 := Nat.le_zero.1 hi
        exact fun hat => absurd (occursAt_zero.1 hat) ‹_›
  | succ n ih =>
      rw [highestUpTo] at h
      split at h
      · exact absurd h (by simp)
      · by_cases hlast : i = n + 1
        · subst hlast
          exact fun hat => absurd (occursAt_iff.1 hat).2 ‹_›
        · exact ih h (by omega)

/-- The highest place is the lowest one of the mirror. -/
theorem highest_eq (sub text : List α) :
    highest sub text = (lowest sub.reverse text.reverse).map fun i =>
      text.length - sub.length - i := by
  cases hlow : lowest sub.reverse text.reverse with
  | none =>
      cases hhigh : highest sub text with
      | none => rfl
      | some i =>
          obtain ⟨hat, -⟩ := highestUpTo_eq_some le_rfl hhigh
          exact absurd hat.reverse (lowest_eq_none hlow _)
  | some i =>
      obtain ⟨hat, hbelow⟩ := lowest_eq_some hlow
      have hmirror := hat.reverse
      rw [List.reverse_reverse, List.reverse_reverse, List.length_reverse,
        List.length_reverse] at hmirror
      have hlen := hat.add_le
      rw [List.length_reverse, List.length_reverse] at hlen
      cases hhigh : highest sub text with
      | none =>
          have hle := hmirror.add_le
          exact absurd hmirror (highestUpTo_eq_none hhigh (by omega))
      | some k =>
          obtain ⟨hk, -, habove⟩ := highestUpTo_eq_some le_rfl hhigh
          have hklen := hk.add_le
          have hnotabove : ¬ k < text.length - sub.length - i :=
            fun hlt => habove _ hlt (by omega) hmirror
          have hnotbelow : ¬ text.length - sub.length - k < i :=
            fun hlt => hbelow _ hlt hk.reverse
          rw [Option.map_some, show k = text.length - sub.length - i by omega]

-- ============================== splits

/-- The text split at `sub`, at most so many times: the lowest place is looked
for behind the one before. -/
def splits (sub : List α) : Nat → List α → List (List α)
  | 0, text => [text]
  | k + 1, text =>
      match lowest sub text with
      | none => [text]
      | some i => text.take i :: splits sub k (text.drop (i + sub.length))

/-- The text split at `sub` from the right. -/
def rsplits (sub : List α) : Nat → List α → List (List α)
  | 0, text => [text]
  | k + 1, text =>
      match highest sub text with
      | none => [text]
      | some i => rsplits sub k (text.take i) ++ [text.drop (i + sub.length)]

/-- The places at which `rsplits` splits. -/
def highestPlaces (sub : List α) : Nat → List α → List Nat
  | 0, _ => []
  | k + 1, text =>
      match highest sub text with
      | none => []
      | some i => highestPlaces sub k (text.take i) ++ [i]

/-- A split from the right is one from the left in the mirror. -/
theorem rsplits_eq (sub : List α) (k : Nat) (text : List α) :
    rsplits sub k text
      = ((splits sub.reverse k text.reverse).map List.reverse).reverse := by
  induction k generalizing text with
  | zero => simp [rsplits, splits]
  | succ k ih =>
      rw [rsplits, splits, highest_eq]
      cases hlow : lowest sub.reverse text.reverse with
      | none => simp
      | some i =>
          have hlen := (lowest_eq_some hlow).1.add_le
          rw [List.length_reverse, List.length_reverse] at hlen
          dsimp only [Option.map_some]
          have htake : text.length - (i + sub.length)
            = text.length - sub.length - i := by omega
          have hdrop : text.length - i
            = text.length - sub.length - i + sub.length := by omega
          rw [ih, List.map_cons, List.reverse_cons, List.length_reverse,
            List.drop_reverse, List.take_reverse,
            List.reverse_reverse, htake, hdrop]

-- =============================== scans

/-- One pass over the text from place `i`: after a place is found, what stands
there is passed over. -/
def scan (sub : List α) : Nat → Nat → List α → List Nat
  | 0, i, [] => if sub <+: [] then [i] else []
  | _ + 1, _, [] => []
  | 0, i, a :: rest => if sub <+: a :: rest
      then i :: scan sub (sub.length - 1) (i + 1) rest
      else scan sub 0 (i + 1) rest
  | skip + 1, i, _ :: rest => scan sub skip (i + 1) rest

theorem scan_skip {skip : Nat} (h : skip ≤ text.length) :
    scan sub skip i text = scan sub 0 (i + skip) (text.drop skip) := by
  induction skip generalizing i text with
  | zero => rfl
  | succ skip ih =>
      cases text with
      | nil => exact absurd h (by simp)
      | cons a rest =>
          rw [scan, ih (by simpa using h), List.drop_succ_cons]
          congr 1
          omega

/-- The scan finds what the search finds. -/
theorem scan_eq (hsub : sub ≠ []) (i : Nat) (text : List α) :
    (lowest sub text = none → scan sub 0 i text = [])
      ∧ ∀ p, lowest sub text = some p
        → scan sub 0 i text
          = (i + p) :: scan sub 0 (i + (p + sub.length))
          (text.drop (p + sub.length)) := by
  have hpos := List.length_pos_iff.2 hsub
  induction text generalizing i with
  | nil =>
      have hnot : ¬ sub <+: [] := fun h => hsub (List.prefix_nil.1 h)
      rw [scan, if_neg hnot, lowest, if_neg hnot]
      exact ⟨fun _ => rfl, fun p hp => absurd hp (by simp)⟩
  | cons a rest ih =>
      rw [scan, lowest]
      by_cases hat : sub <+: a :: rest
      · have hlen := hat.length_le
        rw [List.length_cons] at hlen
        rw [if_pos hat, if_pos hat, scan_skip (by omega)]
        refine ⟨fun h => absurd h (by simp), ?_⟩
        intro p hp
        obtain rfl : 0 = p := Option.some.inj hp
        rw [Nat.zero_add, Nat.add_zero, show i + sub.length
          = i + 1 + (sub.length - 1) by omega]
        congr 2
        rw [← List.drop_succ_cons (a := a), Nat.sub_add_cancel hpos]
      · rw [if_neg hat, if_neg hat]
        obtain ⟨hnone, hsome⟩ := ih (i + 1)
        constructor
        · exact fun h => hnone (Option.map_eq_none_iff.1 h)
        · intro p hp
          obtain ⟨p, hlow, rfl⟩ := Option.map_eq_some_iff.1 hp
          rw [hsome p hlow, show p + 1 + sub.length
            = p + sub.length + 1 by omega, List.drop_succ_cons,
            show i + 1 + p = i + (p + 1) by omega,
              show i + 1 + (p + sub.length) = i + (p + sub.length + 1) by
              omega]

/-- What a scan finds is where repeated search splits. -/
theorem cutAt_scan (hsub : sub ≠ []) (text : List α) (k start : Nat) :
    cutAt text sub.length start ((scan sub 0 start (text.drop start)).take k)
      = splits sub k (text.drop start) := by
  induction k generalizing start with
  | zero => rfl
  | succ k ih =>
      obtain ⟨hnone, hsome⟩ := scan_eq hsub start (text.drop start)
      rw [splits]
      cases hlow : lowest sub (text.drop start) with
      | none =>
          rw [hnone hlow]
          rfl
      | some p =>
          have hnext := ih (start + (p + sub.length))
          rw [← List.drop_drop] at hnext
          rw [hsome p hlow, List.take_succ_cons, cutAt,
            Nat.add_sub_cancel_left, Nat.add_assoc, hnext]

/-- The first place that a scan finds is the lowest one. -/
theorem head?_scan (sub text : List α) :
    (scan sub 0 0 text).head? = lowest sub text := by
  by_cases hsub : sub = []
  · subst hsub
    rw [lowest_eq_zero List.nil_prefix]
    cases text with
    | nil => rw [scan, if_pos List.nil_prefix]; rfl
    | cons a rest => rw [scan, if_pos List.nil_prefix]; rfl
  · obtain ⟨hnone, hsome⟩ := scan_eq hsub 0 text
    cases hlow : lowest sub text with
    | none => rw [hnone hlow]; rfl
    | some p => rw [hsome p hlow, Nat.zero_add]; rfl

theorem length_scan_le (sub : List α) (skip i : Nat) (text : List α) :
    (scan sub skip i text).length ≤ text.length + 1 := by
  induction text generalizing skip i with
  | nil =>
      cases skip with
      | zero =>
          rw [scan]
          split <;> simp
      | succ skip => exact Nat.zero_le _
  | cons a rest ih =>
      cases skip with
      | zero =>
          rw [scan]
          split
          · exact Nat.succ_le_succ (ih _ _)
          · exact (ih _ _).trans (Nat.le_succ _)
      | succ skip => exact (ih _ _).trans (Nat.le_succ _)

/-- All that a scan finds. -/
theorem cutAt_scan_all (hsub : sub ≠ []) (text : List α) :
    cutAt text sub.length 0 (scan sub 0 0 text)
      = splits sub (text.length + 1) text := by
  have hall := cutAt_scan hsub text (text.length + 1) 0
  rw [List.drop_zero, List.take_of_length_le (length_scan_le _ _ _ _)] at hall
  exact hall

theorem highestPlaces_add_le (sub : List α) (k : Nat) (text : List α) :
    ∀ i ∈ highestPlaces sub k text, i + sub.length ≤ text.length := by
  induction k generalizing text with
  | zero => simp [highestPlaces]
  | succ k ih =>
      rw [highestPlaces]
      cases hhigh : highest sub text with
      | none => simp
      | some p =>
          have hp := (highestUpTo_eq_some le_rfl hhigh).1.add_le
          intro i hi
          rcases List.mem_append.1 hi with hprev | hlast
          · have hle := ih _ i hprev
            rw [List.length_take] at hle
            omega
          · rw [List.mem_singleton.1 hlast]
            exact hp

/-- The places found from the right are where `rsplits` splits. -/
theorem cutAt_highestPlaces (sub : List α) (k : Nat) (text : List α) :
    cutAt text sub.length 0 (highestPlaces sub k text) = rsplits sub k text := by
  induction k generalizing text with
  | zero => rfl
  | succ k ih =>
      rw [highestPlaces, rsplits]
      cases hhigh : highest sub text with
      | none => rfl
      | some p =>
          have hp := (highestUpTo_eq_some le_rfl hhigh).1.add_le
          dsimp only
          rw [cutAt_concat _ (Nat.zero_le _), ih]
          intro j hj
          have hle := highestPlaces_add_le sub k _ j hj
          rw [List.length_take_of_le (by omega)] at hle
          exact hle

theorem placed_scan (sub : List α) (skip i : Nat) {start : Nat} (text : List α)
    (h : start ≤ i + skip) :
    Placed (i + text.length) sub.length start (scan sub skip i text) := by
  induction text generalizing skip i start with
  | nil =>
      cases skip with
      | zero =>
          rw [scan]
          split
          · obtain rfl : sub = [] := List.prefix_nil.1 ‹sub <+: []›
            exact ⟨h, le_rfl, trivial⟩
          · exact trivial
      | succ skip => exact trivial
  | cons a rest ih =>
      rw [List.length_cons, show i + (rest.length + 1) = i + 1 + rest.length by omega]
      cases skip with
      | zero =>
          rw [scan]
          split
          · have hlen := List.IsPrefix.length_le ‹sub <+: a :: rest›
            rw [List.length_cons] at hlen
            exact ⟨h, by omega, ih _ _ (by omega)⟩
          · exact ih _ _ (by omega)
      | succ skip => exact ih _ _ (by omega)

theorem placed_highestPlaces (sub : List α) (k : Nat) (text : List α) :
    Placed text.length sub.length 0 (highestPlaces sub k text) := by
  induction k generalizing text with
  | zero => exact trivial
  | succ k ih =>
      rw [highestPlaces]
      cases hhigh : highest sub text with
      | none => exact trivial
      | some p =>
          have hp := (highestUpTo_eq_some le_rfl hhigh).1.add_le
          have hprev := ih (text.take p)
          rw [List.length_take_of_le (by omega)] at hprev
          exact hprev.concat le_rfl (Nat.zero_le _) hp

/-- Splits from the left and from the right agree when they split at the same
places, and only then. -/
theorem splits_eq_rsplits_iff (hsub : sub ≠ []) (text : List α) :
    splits sub (text.length + 1) text = rsplits sub (text.length + 1) text
      ↔ scan sub 0 0 text = highestPlaces sub (text.length + 1) text := by
  rw [← cutAt_scan_all hsub, ← cutAt_highestPlaces]
  constructor
  · have hscan : Placed (0 + text.length) sub.length 0 (scan sub 0 0 text) :=
      placed_scan sub 0 0 text le_rfl
    rw [Nat.zero_add] at hscan
    exact cutAt_inj hscan (placed_highestPlaces sub _ text)
  · intro h
    rw [h]

end Search

end Minfer.Lib
