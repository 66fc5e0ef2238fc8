/-
When `py_str_method` does what CPython's method does.

An argument list is accepted or refused; an accepted one is compared with
CPython's method, and none of its arguments may be ignored. A method meets
CPython exactly on the argument lists it reads to their end, and where its own
reading of the text is CPython's: `split` and `rsplit` by their separators,
`title` and `capitalize` by the case of what they find.
-/
import Minfer.Template.Proofs.Pieces

namespace Minfer.Template

open Minfer.Lib

-- =================== ignored arguments

/-- An argument is ignored: with any other in its place the answer is the same. -/

def Ignored (f : List PyArg → Answer PyValue) (args : List PyArg) (k : Nat) :
    Prop := ∀ a, f (args.set k a) = f args

variable {args : List PyArg} {f : List PyArg → Answer PyValue} {v : PyValue}

theorem not_ignored_of_error {k : Nat}
    (hok : f args = .ok v) (a : PyArg) {e : Text}
    (herror : f (args.set k a) = .error e) : ¬ Ignored f args k := by
  intro h
  have hsame := h a
  rw [hok, herror] at hsame
  cases hsame

/-- What a method does not read, it ignores. -/
theorem ignored_of_take {n : Nat} (h : ∀ args, f (args.take n) = f args)
    (args : List PyArg) : Ignored f args n := by
  intro a
  rw [← h, ← h args, List.take_set_of_le (Nat.le_refl n)]

variable {g : List PyArg → Option PyValue}

/-- A method that reads so many arguments, compared on them. -/
theorem meets_iff {n : Nat} {c : Prop}
    (hreads : n < args.length → Ignored f args n)
    (hused : args.length ≤ n → (g args = some v ↔ c)
      ∧ ∀ k < args.length, ¬ Ignored f args k) :
    (g args = some v ∧ ∀ k < args.length, ¬ Ignored f args k)
      ↔ args.length ≤ n ∧ c := by
  constructor
  · intro h
    have hlen : args.length ≤ n := not_lt.1 fun hlt => h.2 n hlt (hreads hlt)
    exact ⟨hlen, (hused hlen).1.1 h.1⟩
  · intro h
    obtain ⟨hiff, hread⟩ := hused h.1
    exact ⟨hiff.2 h.2, hread⟩

/-- A method that reads one argument. -/
theorem meets_one (h : f args = .ok v)
    (hreads : 1 < args.length → Ignored f args 1)
    (hnil : ∀ v, f [] = .ok v → g [] = some v)
    (hone : ∀ a v, f [a] = .ok v → g [a] = some v) (bad : PyArg) {e : Text}
    (hbad : f [bad] = .error e) :
    (g args = some v ∧ ∀ k < args.length, ¬ Ignored f args k)
      ↔ args.length ≤ 1 ∧ True := by
  apply meets_iff hreads
  intro hlen
  rcases args with _ | ⟨a, _ | ⟨b, rest⟩⟩
  · exact ⟨iff_of_true (hnil v h) trivial, fun k hk => absurd hk (Nat.not_lt_zero k)⟩
  · refine ⟨iff_of_true (hone a v h) trivial, ?_⟩
    intro k hk
    obtain rfl : k = 0 := Nat.lt_one_iff.1 hk
    exact not_ignored_of_error h bad hbad
  · exact absurd hlen (by simp)

/-- A method that reads two arguments. -/
theorem meets_two {c : Prop}
    (h : f args = .ok v) (hreads : ∀ args, f (args.take 2) = f args)
    (hvalue : args.length ≤ 2 → (g args = some v ↔ c)) (bad bad' : PyArg)
    (hbad : ∀ rest, ∃ e, f (bad :: rest) = .error e)
    (hbad' : ∀ a b, f [a, b] = .ok v → ∃ e, f [a, bad'] = .error e) :
    (g args = some v ∧ ∀ k < args.length, ¬ Ignored f args k)
      ↔ args.length ≤ 2 ∧ c := by
  apply meets_iff fun _ => ignored_of_take hreads args
  intro hlen
  refine ⟨hvalue hlen, ?_⟩
  intro k hk
  rcases args with _ | ⟨a, _ | ⟨b, _ | ⟨c, rest⟩⟩⟩
  · exact absurd hk (Nat.not_lt_zero k)
  · obtain rfl : k = 0 := Nat.lt_one_iff.1 hk
    obtain ⟨e, he⟩ := hbad []
    exact not_ignored_of_error h bad he
  · cases k with
    | zero =>
        obtain ⟨e, he⟩ := hbad [b]
        exact not_ignored_of_error h bad he
    | succ k =>
        obtain rfl : k = 0 := Nat.lt_one_iff.1 (Nat.lt_of_succ_lt_succ hk)
        obtain ⟨e, he⟩ := hbad' a b h
        exact not_ignored_of_error h bad' he
  · exact absurd hlen (by simp)

-- ========================= the methods

section Methods

variable {t : CaseTables} {debug : PyArg → Text} {recv : Text}
  {args : List PyArg} {v : PyValue}

theorem implStrip_meets {left right : Bool}
    (h : implStrip t debug left right recv args = .ok v) :
    (CPython.strip t left right recv args = some v ∧ ∀ k < args.length,
        ¬ Ignored (implStrip t debug left right recv) args k)
          ↔ args.length ≤ 1 ∧ True := by
  apply meets_one h _ _ _ (.int 0) rfl
  · intro _
    apply ignored_of_take
    intro args
    cases args <;> rfl
  · intro v hnil
    cases hnil
    rfl
  · intro a v hone
    cases a with
    | str s => cases hone; rfl
    | int i => cases hone
    | none => cases hone; rfl
    | strList l => cases hone

theorem implJoin_meets (h : implJoin debug recv args = .ok v) :
    (CPython.join recv args = some v ∧ ∀ k < args.length,
      ¬ Ignored (implJoin debug recv) args k)
      ↔ args.length ≤ 1 ∧ True := by
  apply meets_one h _ _ _ (.int 0) rfl
  · intro _
    apply ignored_of_take
    intro args
    cases args <;> rfl
  · intro v hnil
    cases hnil
  · intro a v hone
    cases a with
    | str s => cases hone; rfl
    | int i => cases hone
    | none => cases hone
    | strList l => cases hone; rfl

theorem affix_eq (atStart : Bool) (recv : Text) (affixes : List Text) :
    CPython.affix atStart recv affixes 0 recv.length
      = .bool (affixes.any fun p => if atStart then p.isPrefixOf recv
        else p.isSuffixOf recv) := by
  rw [CPython.affix, slice_all]
  congr 2
  funext p
  cases atStart with
  | true =>
      cases hp : p.isPrefixOf recv with
      | true => simpa [hp] using (List.isPrefixOf_iff_prefix.1 hp).length_le
      | false => simp
  | false =>
      cases hp : p.isSuffixOf recv with
      | true => simpa [hp] using (List.isSuffixOf_iff_suffix.1 hp).length_le
      | false => simp

variable {m : StrMethod}

theorem hasAffix_meets {atStart : Bool}
    (h : hasAffix debug m atStart recv args = .ok v) :
    (CPython.hasAffix atStart recv args = some v
      ∧ ∀ k < args.length, ¬ Ignored (hasAffix debug m atStart recv) args k)
      ↔ args.length ≤ 1 ∧ True := by
  apply meets_one h _ _ _ (.int 0) rfl
  · intro hlen
    rcases args with _ | ⟨a, _ | ⟨b, rest⟩⟩
    · exact absurd hlen (by decide)
    · exact absurd hlen (by simp)
    · cases a with
      | str s => exact absurd h (by simp [hasAffix, bind, Except.bind])
      | int i => cases h
      | none => cases h
      | strList l => exact absurd h (by simp [hasAffix, bind, Except.bind])
  · intro v hnil
    cases hnil
  · intro a v hone
    cases a with
    | str s =>
        cases hone
        exact congrArg some (affix_eq atStart recv [s])
    | int i => cases hone
    | none => cases hone
    | strList l =>
        cases hone
        exact congrArg some (affix_eq atStart recv l)

theorem implFind_meets {fromRight : Bool}
    (h : implFind debug m fromRight recv args = .ok v) :
    (CPython.find fromRight recv args = some v
      ∧ ∀ k < args.length, ¬ Ignored (implFind debug m fromRight recv) args k)
      ↔ args.length ≤ 1 ∧ True := by
  apply meets_one h _ _ _ (.int 0) rfl
  · intro hlen
    rcases args with _ | ⟨a, _ | ⟨b, rest⟩⟩
    · exact absurd hlen (by decide)
    · exact absurd hlen (by simp)
    · cases a with
      | str s => exact absurd h (by simp [implFind, subArg, bind, Except.bind])
      | int i => cases h
      | none => cases h
      | strList l => cases h
  · intro v hnil
    cases hnil
  · intro a v hone
    cases a with
    | str s =>
        cases hone
        exact congrArg (fun i => some (PyValue.int i))
          (pyIndex_eq fromRight recv s).symm
    | int i => cases hone
    | none => cases hone
    | strList l => cases hone

theorem implCount_meets (h : implCount debug recv args = .ok v) :
    (CPython.count recv args = some v ∧ ∀ k < args.length,
      ¬ Ignored (implCount debug recv) args k)
      ↔ args.length ≤ 1 ∧ True := by
  apply meets_one h _ _ _ (.int 0) rfl
  · intro _
    apply ignored_of_take
    intro args
    cases args <;> rfl
  · intro v hnil
    cases hnil
  · intro a v hone
    cases a with
    | str s =>
        cases s with
        | nil =>
            cases hone
            exact congrArg (fun i => some (PyValue.int i)) (countIn_nil recv)
        | cons c s =>
            cases hone
            exact congrArg (fun i => some (PyValue.int i))
              (countIn_eq (List.cons_ne_nil c s) recv)
    | int i => cases hone
    | none => cases hone
    | strList l => cases hone

theorem pySplitlines_eq (recv : Text) (keepends : Bool) :
    pySplitlines recv keepends = CPython.lines keepends (recv.length + 1) recv :=
  splitlinesFrom_eq keepends (Nat.lt_succ_self _) (by simp)

theorem implSplitlines_meets (h : implSplitlines debug recv args = .ok v) :
    (CPython.splitlines recv args = some v ∧ ∀ k < args.length,
      ¬ Ignored (implSplitlines debug recv) args k)
      ↔ args.length ≤ 1 ∧ True := by
  have hvalue : ∀ keepends,
      some (PyValue.list (CPython.lines keepends (recv.length + 1) recv))
      = some (.list (pySplitlines recv keepends)) := by
    intro keepends
    rw [pySplitlines_eq]
  apply meets_one h _ _ _ (.str []) rfl
  · intro hlen
    rcases args with _ | ⟨a, _ | ⟨b, rest⟩⟩
    · exact absurd hlen (by decide)
    · exact absurd hlen (by simp)
    · cases a with
      | str s => cases h
      | int i => exact absurd h (by simp [implSplitlines, bind, Except.bind])
      | none => exact absurd h (by simp [implSplitlines, bind, Except.bind])
      | strList l => cases h
  · intro v hnil
    cases hnil
    exact hvalue false
  · intro a v hone
    cases a with
    | str s => cases hone
    | int i =>
        cases hone
        exact hvalue (i != 0)
    | none =>
        cases hone
        exact hvalue false
    | strList l => cases hone

/-- A method that takes no arguments. -/
theorem implNoArgs_meets {f g : Text → Text} {c : Prop}
    (hvalue : f recv = g recv ↔ c) (h : implNoArgs m f recv args = .ok v) :
    (CPython.plain g recv args = some v ∧ ∀ k < args.length,
      ¬ Ignored (implNoArgs m f recv) args k)
      ↔ args.length ≤ 0 ∧ c := by
  cases args with
  | cons a rest => cases h
  | nil =>
      cases h
      have hplain : CPython.plain g recv [] = some (.str (f recv)) ↔ c := by
        rw [← hvalue, CPython.plain, Option.some_inj, PyValue.str.injEq]
        exact eq_comm
      rw [hplain]
      exact ⟨fun h => ⟨Nat.le_refl 0, h.1⟩, fun h =>
        ⟨h.2, fun k hk => absurd hk (Nat.not_lt_zero k)⟩⟩

/-- A text that is wide enough is filled with nothing. -/
theorem justified_eq (padRight : Bool) (recv : Text) (width : Int) (fill : Char) :
    (if width ≤ recv.length then PyValue.str recv
      else .str (if padRight
        then recv ++ List.replicate (width - recv.length).toNat fill
        else List.replicate (width - recv.length).toNat fill ++ recv))
      = CPython.justified padRight recv width fill := by
  rw [CPython.justified]
  split
  · rw [Int.toNat_of_nonpos (by omega), List.replicate_zero, List.append_nil,
      List.nil_append, ite_self]
  · rfl

theorem pyJustify_of {width : Int} {fill : PyValue} {rest : List PyArg}
    {padRight : Bool} {c : Char}
    (hrest : rest = [] ∧ c = ' ' ∨ rest = [.str [c]])
    (h : pyJustify debug recv (.int width :: rest) padRight = .ok fill) :
    CPython.justified padRight recv width c = fill := by
  have hvalue : pyJustify debug recv (.int width :: rest) padRight
      = .ok (if width ≤ recv.length then PyValue.str recv
        else .str (if padRight
          then recv ++ List.replicate (width - recv.length).toNat c
          else List.replicate (width - recv.length).toNat c ++ recv)) := by
    rcases hrest with ⟨rfl, rfl⟩ | rfl
    · rw [apply_ite Except.ok]
      rfl
    · rw [apply_ite Except.ok]
      rfl
  rw [hvalue, justified_eq] at h
  cases h
  rfl

theorem pyJustify_meets {padRight : Bool}
    (h : pyJustify debug recv args padRight = .ok v) :
    (CPython.justify padRight recv args = some v
      ∧ ∀ k < args.length, ¬ Ignored (pyJustify debug recv · padRight) args k)
      ↔ args.length ≤ 2 ∧ True := by
  apply meets_two (f := (pyJustify debug recv · padRight)) h _ _ (.str []) (.int 0)
  · intro rest
    exact ⟨_, rfl⟩
  · intro a b hab
    cases a with
    | int i => exact ⟨_, rfl⟩
    | str s => cases hab
    | none => cases hab
    | strList l => cases hab
  · intro args
    rcases args with _ | ⟨a, _ | ⟨b, rest⟩⟩ <;> rfl
  · intro hlen
    rcases args with _ | ⟨a, _ | ⟨b, _ | ⟨c, rest⟩⟩⟩
    · cases h
    · cases a with
      | int i =>
          exact iff_of_true
            (congrArg some (pyJustify_of (Or.inl ⟨rfl, rfl⟩) h)) trivial
      | str s => cases h
      | none => cases h
      | strList l => cases h
    · cases a with
      | int i =>
          cases b with
          | int j => cases h
          | none => cases h
          | strList l => cases h
          | str s =>
              rcases s with _ | ⟨c, _ | ⟨c', s⟩⟩
              · cases h
              · exact iff_of_true (congrArg some (pyJustify_of (Or.inr rfl) h))
                  trivial
              · cases h
      | str s => cases h
      | none => cases h
      | strList l => cases h
    · exact absurd hlen (by simp)

theorem implReplace_meets (h : implReplace debug recv args = .ok v) :
    (CPython.replace recv args = some v ∧ ∀ k < args.length,
      ¬ Ignored (implReplace debug recv) args k)
      ↔ args.length ≤ 3 ∧ True := by
  apply meets_iff
  · intro _
    apply ignored_of_take
    intro args
    rcases args with _ | ⟨a, _ | ⟨b, _ | ⟨c, rest⟩⟩⟩ <;> rfl
  · intro hlen
    rcases args with _ | ⟨a, _ | ⟨b, rest⟩⟩
    · cases h
    · cases h
    · have hold : ∃ old, a = .str old := by
        cases a with
        | str s => exact ⟨s, rfl⟩
        | int i => cases h
        | none => cases h
        | strList l => cases h
      obtain ⟨old, rfl⟩ := hold
      have hnew : ∃ new, b = .str new := by
        cases b with
        | str s => exact ⟨s, rfl⟩
        | int i => cases h
        | none => cases h
        | strList l => cases h
      obtain ⟨new, rfl⟩ := hnew
      rcases rest with _ | ⟨c, _ | ⟨d, rest⟩⟩
      · cases h
        refine ⟨iff_of_true
          (congrArg some (replaced_eq recv old new (-1)).symm) trivial, ?_⟩
        intro k hk
        rcases k with _ | _ | k
        · exact not_ignored_of_error rfl (.int 0) rfl
        · exact not_ignored_of_error rfl (.int 0) rfl
        · exact absurd hk (by simp)
      · cases c with
        | int count =>
            cases h
            refine ⟨iff_of_true
              (congrArg some (replaced_eq recv old new count).symm) trivial,
              ?_⟩
            intro k hk
            rcases k with _ | _ | _ | k
            · exact not_ignored_of_error rfl (.int 0) rfl
            · exact not_ignored_of_error rfl (.int 0) rfl
            · exact not_ignored_of_error rfl (.str []) rfl
            · exact absurd hk (by simp)
        | str s => cases h
        | none => cases h
        | strList l => cases h
      · exact absurd hlen (by simp)

end Methods

-- ============================== splits

section Splits

variable {t : CaseTables} {debug : PyArg → Text} {recv : Text}
  {args : List PyArg} {v : PyValue}

/-- The engine's pieces in whitespace mode. -/
def wordPieces (t : CaseTables) (recv : Text) (maxsplit : Int) : List Text :=
  if maxsplit = 0 then [pyTrim t recv none true true]
    else splitWhitespace t maxsplit (recv.length + 1) 0 recv

/-- When the engine's words are CPython's. Without splits the engine strips the
end that CPython keeps. From the right it splits from the left, which is the
same when the limit is not reached, or leaves one word with nothing beside it.
-/
def WordsAlike (t : CaseTables) (fromRight : Bool) (recv : Text)
    (maxsplit : Int) : Prop :=
  if maxsplit = 0 then ∃ c ∈ if fromRight then recv.head? else recv.getLast?,
    t.isWhitespace c = false
  else
    fromRight = true → 0 < maxsplit →
      (words t.isWhitespace recv).length ≤ maxsplit.toNat
      ∨ (words t.isWhitespace recv).length = maxsplit.toNat + 1
        ∧ (∀ c ∈ recv.head?, t.isWhitespace c = false)
        ∧ ∀ c ∈ recv.getLast?, t.isWhitespace c = false

variable {p : Char → Bool} {fromRight : Bool}

theorem rdropWhile_append (u : Text) {x : Text} (hx : ∃ c ∈ x, p c = false) :
    (u ++ x).rdropWhile p = u ++ x.rdropWhile p := by
  obtain ⟨c, hc, hp⟩ := hx
  have hne : x.reverse.dropWhile p ≠ [] := by
    intro hnil
    have hall := List.dropWhile_eq_nil_iff.1 hnil c (List.mem_reverse.2 hc)
    rw [hp] at hall
    exact Bool.noConfusion hall
  rw [List.rdropWhile, List.reverse_append, List.dropWhile_append,
    if_neg (by simpa using hne), List.reverse_append,
    List.reverse_reverse, List.rdropWhile]

theorem getLast?_notMem {text : Text} (h : ∀ c ∈ text, p c = true) :
    ¬ ∃ c ∈ text.getLast?, p c = false := by
  intro hlast
  obtain ⟨c, hc, hp⟩ := hlast
  rw [h c (List.mem_of_getLast? hc)] at hp
  exact Bool.noConfusion hp

theorem head?_notMem {text : Text} (h : ∀ c ∈ text, p c = true) :
    ¬ ∃ c ∈ text.head?, p c = false := by
  intro hhead
  obtain ⟨c, hc, hp⟩ := hhead
  rw [h c (List.mem_of_mem_head? hc)] at hp
  exact Bool.noConfusion hp

/-- No splits from the left. -/
theorem fields_zero_eq_trim (recv : Text) :
    fields t.isWhitespace 0 recv = [pyTrim t recv none true true]
      ↔ ∃ c ∈ recv.getLast?, t.isWhitespace c = false := by
  rcases all_or_first t.isWhitespace recv with hall | hfirst
  · rw [fields_of_all hall]
    exact iff_of_false (List.cons_ne_nil _ _).symm (getLast?_notMem hall)
  · obtain ⟨lead, word, rest, hfirst⟩ := hfirst
    have hne : word ++ rest ≠ [] := by simp [hfirst.word_ne]
    have hlast : recv.getLast? = some ((word ++ rest).getLast hne) := by
      rw [hfirst.eq, List.getLast?_append_of_ne_nil _ hne,
        List.getLast?_eq_getLast_of_ne_nil hne]
    have htrim : pyTrim t recv none true true
        = (word ++ rest).rdropWhile t.isWhitespace := by
      rw [← hfirst.dropWhile]
      rfl
    rw [hfirst.fields_zero, htrim, List.cons.injEq, and_iff_left rfl, eq_comm,
      List.rdropWhile_eq_self_iff, hlast]
    constructor
    · intro h
      exact ⟨_, rfl, by simpa using h hne⟩
    · intro h hne
      obtain ⟨c, hc, hp⟩ := h
      obtain rfl : _ = c := Option.some.inj hc
      simp [hp]

/-- No splits from the right. -/
theorem rfields_zero_eq_trim (recv : Text) :
    rfields t.isWhitespace 0 recv = [pyTrim t recv none true true]
      ↔ ∃ c ∈ recv.head?, t.isWhitespace c = false := by
  rcases all_or_first t.isWhitespace recv with hall | hfirst
  · rw [rfields_eq, fields_of_all (by simpa using hall)]
    exact iff_of_false (List.cons_ne_nil _ _).symm (head?_notMem hall)
  · obtain ⟨lead, word, rest, hfirst⟩ := hfirst
    obtain ⟨a, word', hword⟩ := List.exists_cons_of_ne_nil hfirst.word_ne
    have ha : t.isWhitespace a = false := hfirst.word a (by simp [hword])
    have htrim : pyTrim t recv none true true
        = (word ++ rest).rdropWhile t.isWhitespace := by
      rw [← hfirst.dropWhile]
      rfl
    have hright : recv.rdropWhile t.isWhitespace
        = lead ++ (word ++ rest).rdropWhile t.isWhitespace := by
      rw [hfirst.eq]
      exact rdropWhile_append lead ⟨a, by simp [hword], ha⟩
    have hnonempty : (recv.rdropWhile t.isWhitespace).isEmpty = false := by
      rw [List.isEmpty_eq_false_iff, Ne, List.rdropWhile_eq_nil_iff]
      intro hall
      have hp := hall a (by simp [hfirst.eq, hword])
      rw [ha] at hp
      exact Bool.noConfusion hp
    rw [rfields, hnonempty, if_neg (by simp), List.cons.injEq,
      and_iff_left rfl, htrim, hright, List.append_left_eq_self]
    constructor
    · intro hlead
      exact ⟨a, by simp [hfirst.eq, hlead, hword], ha⟩
    · intro hhead
      obtain ⟨c, hc, hp⟩ := hhead
      cases hlead : lead with
      | nil => rfl
      | cons b lead' =>
          rw [hfirst.eq, hlead, List.cons_append, List.head?_cons,
            Option.mem_some_iff] at hc
          rw [← hc, hfirst.lead b (by simp [hlead])] at hp
          exact Bool.noConfusion hp

/-- The engine's words are CPython's. -/
theorem wordPieces_eq_iff (fromRight : Bool) (recv : Text) (maxsplit : Int) :
    (if fromRight then rfields t.isWhitespace (CPython.limit recv maxsplit) recv
        else fields t.isWhitespace (CPython.limit recv maxsplit) recv)
          = wordPieces t recv maxsplit
      ↔ WordsAlike t fromRight recv maxsplit := by
  by_cases hzero : maxsplit = 0
  · subst hzero
    rw [wordPieces, WordsAlike, if_pos rfl, if_pos rfl,
      limit_of_nonneg (Int.le_refl 0)]
    cases fromRight with
    | false => exact fields_zero_eq_trim recv
    | true => exact rfields_zero_eq_trim recv
  · rw [wordPieces, WordsAlike, if_neg hzero, if_neg hzero]
    by_cases hneg : maxsplit < 0
    · have hleft : fields t.isWhitespace (recv.length + 1) recv
          = words t.isWhitespace recv :=
        fields_congr (Nat.le_succ _) le_rfl
      have hright : rfields t.isWhitespace (recv.length + 1) recv
          = words t.isWhitespace recv :=
        rfields_eq_words_iff.2 (Or.inl (length_words_le recv))
      rw [limit_of_neg hneg,
        splitWhitespace_unlimited (Nat.lt_succ_self _) hneg, hleft, hright,
        ite_self]
      exact iff_of_true rfl fun _ hpos => absurd hpos (by omega)
    · obtain ⟨k, hk⟩ := Int.eq_succ_of_zero_lt (show 0 < maxsplit by omega)
      have hnat : maxsplit.toNat = k + 1 := by omega
      have hleft : splitWhitespace t maxsplit (recv.length + 1) 0 recv
          = fields t.isWhitespace (k + 1) recv :=
        splitWhitespace_limited (Nat.lt_succ_self _) (Int.le_refl 0) (by omega)
      rw [limit_of_nonneg (by omega), hnat, hleft]
      cases fromRight with
      | false => exact iff_of_true rfl fun h => Bool.noConfusion h
      | true =>
          have hboth : rfields t.isWhitespace (k + 1) recv
              = fields t.isWhitespace (k + 1) recv
              ↔ fields t.isWhitespace (k + 1) recv = words t.isWhitespace recv
                ∧ rfields t.isWhitespace (k + 1) recv = words t.isWhitespace recv :=
            eq_comm.trans fields_eq_rfields_iff
          rw [if_pos rfl, hboth, fields_eq_words_iff, rfields_eq_words_iff]
          constructor
          · intro h _ _
            rcases h.1 with hle | hone
            · exact Or.inl hle
            · rcases h.2 with hle | hone'
              · exact Or.inl hle
              · exact Or.inr ⟨hone.1, hone'.2, hone.2⟩
          · intro h
            rcases h rfl (by omega) with hle | hone
            · exact ⟨Or.inl hle, Or.inl hle⟩
            · exact ⟨Or.inr ⟨hone.1, hone.2.2⟩, Or.inr ⟨hone.1, hone.2.1⟩⟩

/-- The separator argument. -/
def sepOf (args : List PyArg) : Option Text :=
  match args.head? with
  | some (.str sep) => some sep
  | _ => none

/-- The limit argument. -/
def maxsplitOf (args : List PyArg) : Int :=
  match (args[1]? : Option PyArg) with
  | some (.int maxsplit) => maxsplit
  | _ => -1

/-- When `split` and `rsplit` are CPython's. With a separator, from the right
and without a limit, the engine splits from the left: the places found have to
be the same. -/
def SplitsAlike (t : CaseTables) (fromRight : Bool) (recv : Text)
    (args : List PyArg) : Prop :=
  match sepOf args with
  | none => WordsAlike t fromRight recv (maxsplitOf args)
  | some sep => fromRight = true → maxsplitOf args < 0 →
      scan sep 0 0 recv = highestPlaces sep (recv.length + 1) recv

theorem splitAt_eq_iff {sep : Text} (hsep : sep ≠ []) (fromRight : Bool)
    (recv : Text) (maxsplit : Int) :
    (if fromRight then rsplits sep (CPython.limit recv maxsplit) recv
        else splits sep (CPython.limit recv maxsplit) recv)
        = splitAt recv sep maxsplit fromRight
      ↔ (fromRight = true → maxsplit < 0 →
        scan sep 0 0 recv = highestPlaces sep (recv.length + 1) recv) := by
  by_cases hbad : fromRight = true ∧ maxsplit < 0
  · obtain ⟨rfl, hneg⟩ := hbad
    rw [splitAt, if_pos hneg, split_eq hsep, if_pos rfl, limit_of_neg hneg,
      eq_comm, splits_eq_rsplits_iff hsep]
    exact ⟨fun h _ _ => h, fun h => h rfl hneg⟩
  · have hlimit : fromRight = true → 0 ≤ maxsplit :=
      fun h => Int.not_lt.1 fun hneg => hbad ⟨h, hneg⟩
    rw [splitAt_eq hsep recv hlimit]
    exact iff_of_true rfl fun h hneg => absurd ⟨h, hneg⟩ hbad

/-- Words, once they are accepted. -/
theorem words_meets {maxsplit : Int}
    (h : (if maxsplit = 0 then .ok (.list [pyTrim t recv none true true])
      else .ok (.list (splitWhitespace t maxsplit (recv.length + 1) 0 recv)) :
        Answer PyValue) = .ok v) :
    CPython.pieces t fromRight recv none maxsplit = some v
      ↔ WordsAlike t fromRight recv maxsplit := by
  have hvalue : .list (wordPieces t recv maxsplit) = v := by
    rw [wordPieces]
    split at h
    · cases h
      rw [if_pos ‹_›]
    · cases h
      rw [if_neg ‹_›]
  rw [← hvalue, CPython.pieces, Option.some_inj, PyValue.list.injEq,
    wordPieces_eq_iff]

/-- Pieces at a separator, once they are accepted. -/
theorem splitAt_meets {sep : Text} {maxsplit : Int}
    (h : (if sep.isEmpty then .error "empty separator".toList
      else .ok (.list (splitAt recv sep maxsplit fromRight)) : Answer PyValue)
        = .ok v) :
    CPython.pieces t fromRight recv (some sep) maxsplit = some v
      ↔ (fromRight = true → maxsplit < 0 →
        scan sep 0 0 recv = highestPlaces sep (recv.length + 1) recv) := by
  cases hsep : sep.isEmpty with
  | true =>
      rw [hsep, if_pos rfl] at h
      cases h
  | false =>
      rw [hsep, if_neg (by simp)] at h
      cases h
      rw [CPython.pieces, hsep, if_neg (by simp), Option.some_inj, PyValue.list.injEq,
        splitAt_eq_iff (by simpa using hsep)]

theorem pySplit_meets (h : pySplit t debug recv args fromRight = .ok v) :
    (CPython.split t fromRight recv args = some v ∧ ∀ k < args.length,
        ¬ Ignored (pySplit t debug recv · fromRight) args k)
      ↔ args.length ≤ 2 ∧ SplitsAlike t fromRight recv args := by
  apply meets_two (f := (pySplit t debug recv · fromRight)) h _ _ (.int 0) (.str [])
  · intro rest
    exact ⟨_, rfl⟩
  · intro a b hab
    cases a with
    | none => exact ⟨_, rfl⟩
    | str s => exact ⟨_, rfl⟩
    | int i => cases hab
    | strList l => cases hab
  · intro args
    rcases args with _ | ⟨a, _ | ⟨b, rest⟩⟩ <;> rfl
  · intro hlen
    rcases args with _ | ⟨a, _ | ⟨b, _ | ⟨c, rest⟩⟩⟩
    · exact words_meets h
    · cases a with
      | none => exact words_meets h
      | str s => exact splitAt_meets (t := t) h
      | int i => cases h
      | strList l => cases h
    · cases a with
      | none =>
          cases b with
          | int i => exact words_meets h
          | none => cases h
          | str s => cases h
          | strList l => cases h
      | str s =>
          cases b with
          | int i => exact splitAt_meets (t := t) h
          | none => cases h
          | str s => cases h
          | strList l => cases h
      | int i => cases h
      | strList l => cases h
    · exact absurd hlen (by simp)

end Splits

-- ================================ case

section Case

variable {t : CaseTables}

/-- Texts that start with mappings of one character are equal piece by piece. -/

theorem append_eq_append_iff {a b x y : Text} (hab : a <+: b → a = b)
    (hba : b <+: a → b = a) :
    a ++ x = b ++ y ↔ a = b ∧ x = y := by
  constructor
  · intro h
    have hb : b <+: a ++ x := h ▸ List.prefix_append b y
    have heq : a = b := by
      rcases List.prefix_or_prefix_of_prefix
        (List.prefix_append a x) hb with hle | hle
      · exact hab hle
      · exact (hba hle).symm
    subst heq
    exact ⟨rfl, List.append_cancel_left h⟩
  · intro h
    rw [h.1, h.2]

theorem toLower_eq_lowerAt_iff {before rest : Text} {c : Char} :
    t.toLower c = lowerAt t before c rest
      ↔ ¬ (c = 'Σ' ∧ finalSigma t before rest = true) := by
  rw [lowerAt]
  by_cases hc : c = 'Σ'
  · subst hc
    rw [if_pos rfl, t.lower_sigma]
    cases finalSigma t before rest <;> simp
  · rw [if_neg hc]
    exact iff_of_true rfl fun h => hc h.1

/-- The lower case of a letter in its place, in front of a text. -/
theorem lower_append_iff {before rest x y : Text} {c : Char} :
    t.toLower c ++ x = lowerAt t before c rest ++ y
      ↔ ¬ (c = 'Σ' ∧ finalSigma t before rest = true) ∧ x = y := by
  rw [← toLower_eq_lowerAt_iff]
  apply append_eq_append_iff
  · rw [lowerAt]
    by_cases hc : c = 'Σ'
    · subst hc
      rw [if_pos rfl, t.lower_sigma]
      cases finalSigma t before rest <;> simp
    · rw [if_neg hc]
      exact fun _ => rfl
  · rw [lowerAt]
    by_cases hc : c = 'Σ'
    · subst hc
      rw [if_pos rfl, t.lower_sigma]
      cases finalSigma t before rest <;> simp
    · rw [if_neg hc]
      exact fun _ => rfl

/-- When the title case is CPython's: behind a cased letter no final sigma,
behind any other letter or digit only what title case leaves in lower case, and
anywhere else nothing whose title case is not its upper case. -/
def TitleAlike (t : CaseTables) : Bool → Bool → Text → Text → Prop
  | _, _, _, [] => True
  | alphanumeric, cased, before, c :: rest =>
      (if cased then ¬ (c = 'Σ' ∧ finalSigma t before rest = true)
        else if alphanumeric then t.toLower c = t.toTitle c
          else t.toUpper c = t.toTitle c)
        ∧ TitleAlike t (t.isAlphanumeric c) (t.isCased c) (c :: before) rest

theorem pyTitle_eq_iff {alphanumeric cased : Bool}
    (hcased : cased = true → alphanumeric = true) (before text : Text) :
    pyTitle t alphanumeric text = CPython.titleFrom t cased before text
      ↔ TitleAlike t alphanumeric cased before text := by
  induction text generalizing alphanumeric cased before with
  | nil => exact iff_of_true rfl trivial
  | cons c rest ih =>
      have hnext := ih (t.alphanumeric_of_cased c) (c :: before)
      have hlaw := t.eq_of_start c
      rw [pyTitle, CPython.titleFrom, TitleAlike, ← hnext]
      cases cased with
      | true =>
          rw [hcased rfl, if_pos rfl, if_pos rfl, if_pos rfl]
          exact lower_append_iff
      | false =>
          rw [if_neg (by simp : ¬ false = true), if_neg (by simp : ¬ false = true)]
          cases alphanumeric with
          | true =>
              rw [if_pos rfl, if_pos rfl]
              exact append_eq_append_iff (hlaw _ (by simp) _ (by simp))
                (hlaw _ (by simp) _ (by simp))
          | false =>
              rw [if_neg (by simp), if_neg (by simp)]
              exact append_eq_append_iff (hlaw _ (by simp) _ (by simp))
                (hlaw _ (by simp) _ (by simp))

/-- No sigma of the text is a final one. -/
def NoFinalSigma (t : CaseTables) : Text → Text → Prop
  | _, [] => True
  | before, c :: rest => ¬ (c = 'Σ' ∧ finalSigma t before rest = true)
      ∧ NoFinalSigma t (c :: before) rest

theorem flatMap_toLower_eq_iff (before text : Text) :
    text.flatMap t.toLower = lowerFrom t before text
      ↔ NoFinalSigma t before text := by
  induction text generalizing before with
  | nil => exact iff_of_true rfl trivial
  | cons c rest ih =>
      rw [List.flatMap_cons, lowerFrom, NoFinalSigma, lower_append_iff, ih]

/-- When `capitalize` is CPython's. -/
def CapitalizeAlike (t : CaseTables) : Text → Prop
  | [] => True
  | first :: rest => t.toUpper first = t.toTitle first ∧ NoFinalSigma t [first] rest

theorem capitalize_eq_iff (recv : Text) :
    capitalize t recv = CPython.capitalize t recv
    ↔ CapitalizeAlike t recv := by
  cases recv with
  | nil => exact iff_of_true rfl trivial
  | cons first rest =>
      have hlaw := t.eq_of_start first
      rw [capitalize, CPython.capitalize, CapitalizeAlike, ← flatMap_toLower_eq_iff]
      exact append_eq_append_iff (hlaw _ (by simp) _ (by simp))
        (hlaw _ (by simp) _ (by simp))

end Case

-- ====================== the comparison

/-- How many arguments the engine reads. -/
def StrMethod.arity : StrMethod → Nat
  | .lower => 0
  | .upper => 0
  | .title => 0
  | .capitalize => 0
  | .split => 2
  | .rsplit => 2
  | .ljust => 2
  | .rjust => 2
  | .replace => 3
  | _ => 1

/-- When a method does what CPython's does. -/
def AsCPython (t : CaseTables) (m : StrMethod) (recv : Text)
    (args : List PyArg) : Prop :=
  args.length ≤ m.arity ∧ match m with
    | .split => SplitsAlike t false recv args
    | .rsplit => SplitsAlike t true recv args
    | .title => TitleAlike t false false [] recv
    | .capitalize => CapitalizeAlike t recv
    | _ => True

theorem pyStrMethod_name (t : CaseTables) (debug : PyArg → Text)
    (m : StrMethod) (recv : Text) (args : List PyArg) :
    pyStrMethod t debug m.name recv args
      = some (implStrMethod t debug m recv args) := by
  cases m <;> rfl

/-- An accepted call gives what CPython gives, and ignores no argument, exactly
where `AsCPython` holds. -/
theorem pyStrMethod_meets_iff {t : CaseTables} {debug : PyArg → Text}
    {m : StrMethod} {recv : Text}
    (h : pyStrMethod t debug m.name recv args = some (.ok v)) :
    (CPython.strMethod t m recv args = some v
      ∧ ∀ k < args.length, ¬ Ignored (implStrMethod t debug m recv) args k)
      ↔ AsCPython t m recv args := by
  rw [pyStrMethod_name, Option.some_inj] at h
  cases m with
  | strip => exact implStrip_meets h
  | lstrip => exact implStrip_meets h
  | rstrip => exact implStrip_meets h
  | split => exact pySplit_meets h
  | rsplit => exact pySplit_meets h
  | startswith => exact hasAffix_meets h
  | endswith => exact hasAffix_meets h
  | replace => exact implReplace_meets h
  | lower => exact implNoArgs_meets (iff_of_true rfl trivial) h
  | upper => exact implNoArgs_meets (iff_of_true rfl trivial) h
  | title =>
      exact implNoArgs_meets (pyTitle_eq_iff (fun h =>
        Bool.noConfusion h) [] recv) h
  | capitalize => exact implNoArgs_meets (capitalize_eq_iff recv) h
  | join => exact implJoin_meets h
  | find => exact implFind_meets h
  | rfind => exact implFind_meets h
  | count => exact implCount_meets h
  | splitlines => exact implSplitlines_meets h
  | ljust => exact pyJustify_meets h
  | rjust => exact pyJustify_meets h

/-- The tables on ASCII text, with the two lower-case sigmas. -/
def asciiTables : CaseTables where
  isWhitespace c := c = ' ' || c = '\t' || c = '\n' || c = '\x0b' || c = '\x0c'
    || c = '\r'
  isAlphanumeric c := c.isAlpha || c.isDigit
  isCased c := c.isAlpha
  isCaseIgnorable c := c.toNat = 39 || c = '.' || c = ':' || c = '^' || c.toNat = 96
  toUpper c := [c.toUpper]
  toLower c := if c = 'Σ' then ['σ'] else [c.toLower]
  toTitle c := [c.toUpper]
  lower_sigma := rfl
  alphanumeric_of_cased c h := by rw [h, Bool.true_or]
  eq_of_start := by
    intro c a ha b hb h
    have hone : ∀ x
        ∈ [[c.toUpper], if c = 'Σ' then ['σ'] else [c.toLower], [c.toUpper]],
        x.length = 1 := by
      simp only [List.forall_mem_cons]
      refine ⟨rfl, ?_, rfl, by simp⟩
      split <;> rfl
    exact h.eq_of_length ((hone a ha).trans (hone b hb).symm)

theorem pyStrMethod_meets_iff_split :
    pyStrMethod asciiTables (fun _ => []) StrMethod.split.name "a, b, c".toList
        [.str [',', ' '], .int 1]
        = some (.ok (.list [['a'], "b, c".toList]))
      ∧ ((CPython.strMethod asciiTables .split "a, b, c".toList
        [.str [',', ' '], .int 1]
            = some (.list [['a'], "b, c".toList])
          ∧ ∀ k < 2, ¬ Ignored
              (implStrMethod asciiTables (fun _ => []) .split "a, b, c".toList)
              [.str [',', ' '], .int 1] k)
        ↔ AsCPython asciiTables .split "a, b, c".toList [.str [',', ' '], .int 1]) :=
  ⟨by decide, pyStrMethod_meets_iff (by decide)⟩

/-- From the right, the engine splits from the left. -/
theorem rsplit_fromLeft :
    ¬ ∀ (t : CaseTables) (debug : PyArg → Text) (m : StrMethod) (recv : Text)
      (args : List PyArg) (v : PyValue),
      pyStrMethod t debug m.name recv args = some (.ok v) →
        CPython.strMethod t m recv args = some v
          ∧ ∀ k < args.length,
          ¬ Ignored (implStrMethod t debug m recv) args k := by
  intro h
  have hmeets :=
    h asciiTables (fun _ => []) .rsplit "a b c".toList [.none, .int 1]
    (.list [['a'], "b c".toList]) (by decide)
  have hcpython : CPython.strMethod asciiTables .rsplit "a b c".toList [.none, .int 1]
      = some (.list ["a b".toList, ['c']]) := by decide
  rw [hcpython] at hmeets
  exact absurd hmeets.1 (by decide)

end Minfer.Template
