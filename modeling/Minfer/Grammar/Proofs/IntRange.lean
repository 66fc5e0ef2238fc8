/-
Integer bounds (`grammar.rs`): the expression for a range accepts the decimal
numerals of its integers, and no other text.

Texts of one length are compared by value (`between`). Cut after what the two
bounds have in common, a range is its middle, where the next digit lies
strictly between the bounds' and the rest is free, and two branches that fix
the next digit and bound the rest on one side (`between_split`); the recursion
of `fixed_len_range` follows. Ranges of different lengths join end to end.
-/
import Minfer.Grammar.Schema
import Minfer.Grammar.Proofs.Expression

namespace Minfer.Schema

open Minfer.Gbnf
open Minfer.Lib.Json (toString_ofNat toString_neg)
open Minfer.Tokenize (Text)

-- ============================== digits

/-- The number a text of digits spells. -/
def value (t : Text) : Nat := Nat.ofDigitChars 10 t 0

/-- A text of decimal digits. -/
def Digits (t : Text) : Prop := ∀ c ∈ t, c.isDigit = true

variable {c : Char} {t : Text} {n a b : Nat} {L : Language Char}

theorem isDigit_iff : c.isDigit = true
    ↔ 48 ≤ c.toNat ∧ c.toNat ≤ 57 := by
  simp only [Char.isDigit, Bool.and_eq_true, decide_eq_true_eq, ge_iff_le,
    UInt32.le_iff_toNat_le]
  exact Iff.rfl

theorem digits_cons : Digits (c :: t)
    ↔ c.isDigit = true ∧ Digits t :=
  List.forall_mem_cons

theorem digits_append {s : Text} : Digits (s ++ t) ↔ Digits s ∧ Digits t :=
  List.forall_mem_append

theorem value_append (s t : Text) : value
    (s ++ t) = 10 ^ t.length * value s + value t := by
  rw [value, Nat.ofDigitChars_append, Nat.ofDigitChars_eq_ofDigitChars_zero]
  rfl

theorem value_cons (c : Char) (t : Text) : value
    (c :: t) = 10 ^ t.length * (c.toNat - 48) + value t := by
  have happ := value_append [c] t
  rw [List.singleton_append] at happ
  rw [happ, show value [c] = c.toNat - 48 by simp [value, Nat.ofDigitChars_cons]]

theorem value_lt (h : Digits t) : value t < 10 ^ t.length := by
  induction t with
  | nil => decide
  | cons c t ih =>
      obtain ⟨hc, ht⟩ := digits_cons.mp h
      have hdigit := isDigit_iff.mp hc
      have htail := ih ht
      have hle : 10 ^ t.length * (c.toNat - 48) ≤ 10 ^ t.length * 9 :=
        Nat.mul_le_mul_left _ (by omega)
      rw [value_cons, List.length_cons, Nat.pow_succ]
      omega

/-- Leading parts of two sums in base `B` are in order. -/
theorem lead_le {B l d x v : Nat} (hv : v < B) (h : B * l + x ≤ B * d + v) :
    l ≤ d := by
  by_contra hlt
  have hle : B * (d + 1) ≤ B * l := Nat.mul_le_mul_left _ (by omega)
  rw [Nat.mul_succ] at hle
  omega

theorem digits_ext {s : Text} (hs : Digits s) (ht : Digits t)
    (hlen : s.length = t.length) (hval : value s = value t) : s = t := by
  induction s generalizing t with
  | nil => exact (List.eq_nil_of_length_eq_zero hlen.symm).symm
  | cons c s ih =>
      rcases t with _ | ⟨d, t⟩
      · cases hlen
      · obtain ⟨hc, hs⟩ := digits_cons.mp hs
        obtain ⟨hd, ht⟩ := digits_cons.mp ht
        have hlen' : s.length = t.length := Nat.succ.inj hlen
        have hlt := value_lt hs
        have hlt' := value_lt ht
        rw [value_cons, value_cons, hlen'] at hval
        rw [hlen'] at hlt
        have heq : c.toNat - 48 = d.toNat - 48 :=
          Nat.le_antisymm (lead_le hlt' (Nat.le_of_eq hval))
            (lead_le hlt (Nat.le_of_eq hval.symm))
        rw [heq] at hval
        have hcd : c = d := by
          have hc := isDigit_iff.mp hc
          have hd := isDigit_iff.mp hd
          exact Char.toNat_inj.mp (by omega)
        rw [hcd, ih hs ht hlen' (by omega)]

theorem digits_toDigits (n : Nat) : Digits (Nat.toDigits 10 n) :=
  fun c hc => Nat.isDigit_of_mem_toDigits (by decide) (by decide) hc

theorem value_toDigits (n : Nat) : value (Nat.toDigits 10 n) = n :=
  Nat.ofDigitChars_ten_toDigits

theorem digits_replicate (h : c.isDigit = true) (n : Nat) :
    Digits (List.replicate n c) := by
  intro x hx
  rw [List.eq_of_mem_replicate hx]
  exact h

theorem value_zeros (n : Nat) : value (List.replicate n '0') = 0 := by
  rw [value, Nat.ofDigitChars_replicate_zero, Nat.mul_zero]

theorem value_nines (n : Nat) : value (List.replicate n '9') = 10 ^ n - 1 := by
  induction n with
  | zero => rfl
  | succ n ih =>
      have hpos : 0 < 10 ^ n := Nat.pow_pos (by decide)
      rw [List.replicate_succ, value_cons, ih, List.length_replicate, Nat.pow_succ]
      show 10 ^ n * 9 + _ = _
      omega

theorem value_one_zeros (n : Nat) : value ('1' :: List.replicate n '0') = 10 ^ n := by
  rw [value_cons, value_zeros, List.length_replicate]
  show 10 ^ n * 1 + 0 = _
  omega

-- =========================== languages

/-- The digit strings of a length whose values lie between two. -/
def between (n a b : Nat) : Language Char :=
  {t | t.length = n ∧ Digits t ∧ a ≤ value t ∧ value t ≤ b}

/-- One digit, between two. -/
def digit (a b : Nat) : Language Char :=
  {t | ∃ c : Char, t = [c] ∧ 48 + a ≤ c.toNat ∧ c.toNat ≤ 48 + b}

/-- Every digit string of a length. -/
def free (n : Nat) : Language Char := between n 0 (10 ^ n - 1)

theorem mem_free : t ∈ free n
    ↔ t.length = n ∧ Digits t := by
  constructor
  · exact fun h => ⟨h.1, h.2.1⟩
  · rintro ⟨rfl, h⟩
    have hlt := value_lt h
    exact ⟨rfl, h, Nat.zero_le _, by omega⟩

theorem mem_digit_mul :
    t ∈ digit a b * L
    ↔ ∃ c s, t = c :: s ∧ 48 + a ≤ c.toNat ∧ c.toNat ≤ 48 + b ∧ s ∈ L := by
  rw [Language.mem_mul]
  constructor
  · rintro ⟨-, ⟨c, rfl, hlo, hhi⟩, s, hs, rfl⟩
    exact ⟨c, s, rfl, hlo, hhi, hs⟩
  · rintro ⟨c, s, rfl, hlo, hhi, hs⟩
    exact ⟨[c], ⟨c, rfl, hlo, hhi⟩, s, hs, rfl⟩

theorem mem_singleton_mul {p : Text} :
    t ∈ ({p} : Language Char) * L
    ↔ ∃ s, t = p ++ s ∧ s ∈ L := by
  rw [Language.mem_mul]
  constructor
  · rintro ⟨-, rfl, s, hs, rfl⟩
    exact ⟨s, rfl, hs⟩
  · rintro ⟨s, rfl, hs⟩
    exact ⟨p, rfl, s, hs, rfl⟩

/-- So many digits. -/
theorem digit_pow (n : Nat) : digit 0 9 ^ n = free n := by
  induction n with
  | zero =>
      ext t
      rw [pow_zero, Language.mem_one, mem_free]
      exact ⟨fun h => h ▸ ⟨rfl, nofun⟩, fun h => List.eq_nil_of_length_eq_zero h.1⟩
  | succ n ih =>
      ext t
      rw [pow_succ', ih, mem_digit_mul, mem_free]
      constructor
      · rintro ⟨c, s, rfl, hlo, hhi, hs⟩
        obtain ⟨hlen, hdig⟩ := mem_free.mp hs
        exact ⟨by rw [List.length_cons, hlen],
          digits_cons.mpr ⟨isDigit_iff.mpr ⟨hlo, hhi⟩, hdig⟩⟩
      · rintro ⟨hlen, hdig⟩
        rcases t with _ | ⟨c, s⟩
        · cases hlen
        · obtain ⟨hc, hs⟩ := digits_cons.mp hdig
          obtain ⟨hlo, hhi⟩ := isDigit_iff.mp hc
          exact ⟨c, s, rfl, hlo, hhi, mem_free.mpr ⟨Nat.succ.inj hlen, hs⟩⟩

-- ======================= common digits

/-- Two texts of one length that differ: what they have in common, and the
characters that differ. -/
theorem commonDigits_spec {lo hi : Text} (hlen : lo.length = hi.length)
    (hne : lo ≠ hi) :
    ∃ pre a subLo b subHi, lo = pre ++ a :: subLo ∧ hi = pre ++ b :: subHi ∧ a ≠ b
      ∧ commonDigits lo hi = pre.length := by
  induction lo generalizing hi with
  | nil => exact absurd (List.eq_nil_of_length_eq_zero hlen.symm).symm hne
  | cons a lo ih =>
      rcases hi with _ | ⟨b, hi⟩
      · cases hlen
      · by_cases hab : a = b
        · rw [hab] at hne ⊢
          obtain ⟨pre, a', subLo, b', subHi, rfl, rfl, hne', hcommon⟩ :=
            ih (Nat.succ.inj hlen) fun heq => hne (by rw [heq])
          refine ⟨b :: pre, a', subLo, b', subHi, rfl, rfl, hne', ?_⟩
          rw [commonDigits, if_pos rfl, hcommon, List.length_cons]
        · exact ⟨[], a, lo, b, hi, rfl, rfl, hab,
            by rw [commonDigits, if_neg hab, List.length_nil]⟩

section

variable {pre subLo subHi : Text} {a b : Char}

/-- Between two texts with common digits, every text has them too. -/
theorem mem_between_common (hlen : subLo.length = subHi.length) (hpre : Digits pre)
    (hb : b.isDigit = true) (hhi : Digits subHi) {t : Text} :
    t ∈ between (pre ++ a :: subLo).length (value (pre ++ a :: subLo))
      (value (pre ++ b :: subHi))
      ↔ ∃ c s, t = pre ++ c :: s ∧ c.isDigit = true ∧ s.length = subLo.length
        ∧ Digits s
        ∧ 10 ^ subLo.length * (a.toNat - 48) + value subLo
          ≤ 10 ^ subLo.length * (c.toNat - 48) + value s
        ∧ 10 ^ subLo.length * (c.toNat - 48) + value s
          ≤ 10 ^ subLo.length * (b.toNat - 48) + value subHi := by
  have hvalue : ∀ {p s : Text} {c : Char}, s.length = subLo.length →
      value (p ++ c :: s)
      = 10 ^ (subLo.length + 1) * value p
        + (10 ^ subLo.length * (c.toNat - 48) + value s) := by
    intro p s c hs
    rw [value_append, value_cons, List.length_cons, hs]
  constructor
  · rintro ⟨hlength, hdigits, hmin, hmax⟩
    -- cut where the bounds are cut
    have hcut : pre.length < t.length := by
      rw [hlength, List.length_append, List.length_cons]
      omega
    obtain ⟨p, rest, rfl, hp⟩ : ∃ p rest, t = p ++ rest ∧ p.length = pre.length :=
      ⟨t.take pre.length, t.drop pre.length, (List.take_append_drop ..).symm,
        List.length_take_of_le (Nat.le_of_lt hcut)⟩
    rcases rest with _ | ⟨c, s⟩
    · rw [List.append_nil] at hcut
      omega
    · have hs : s.length = subLo.length := by
        simp only [List.length_append, List.length_cons, hp] at hlength
        omega
      obtain ⟨hpdig, hrest⟩ := digits_append.mp hdigits
      obtain ⟨hc, hsdig⟩ := digits_cons.mp hrest
      rw [hvalue hs, hvalue rfl] at hmin
      rw [hvalue hs, hvalue hlen.symm] at hmax
      have hfit : ∀ {c : Char} {s : Text}, c.isDigit = true → Digits s →
          s.length = subLo.length →
          10 ^ subLo.length * (c.toNat - 48) + value s < 10 ^ (subLo.length + 1) := by
        intro c s hc hs hlen
        have hlt := value_lt (digits_cons.mpr ⟨hc, hs⟩)
        rwa [value_cons, List.length_cons, hlen] at hlt
      have hsame : p = pre := digits_ext hpdig hpre hp
        (Nat.le_antisymm (lead_le (hfit hb hhi hlen.symm) hmax)
          (lead_le (hfit hc hsdig hs) hmin))
      subst hsame
      exact ⟨c, s, rfl, hc, hs, hsdig, by omega, by omega⟩
  · rintro ⟨c, s, rfl, hc, hs, hsdig, hmin, hmax⟩
    refine ⟨?_, digits_append.mpr ⟨hpre, digits_cons.mpr ⟨hc, hsdig⟩⟩, ?_, ?_⟩
    · rw [List.length_append, List.length_cons, hs, List.length_append,
        List.length_cons]
    · rw [hvalue rfl, hvalue hs]
      omega
    · rw [hvalue hs, hvalue hlen.symm]
      omega

/-- The three branches of a range past the common digits. -/
theorem between_split (hlen : subLo.length = subHi.length) (hpre : Digits pre)
    (ha : a.isDigit = true) (hb : b.isDigit = true) (hlo : Digits subLo)
    (hhi : Digits subHi) (hab : a.toNat < b.toNat) :
    between (pre ++ a :: subLo).length (value (pre ++ a :: subLo))
      (value (pre ++ b :: subHi))
      = {pre} * (digit (a.toNat - 48 + 1) (b.toNat - 48 - 1) * free subLo.length)
        + ({pre ++ [a]} * between subLo.length (value subLo) (10 ^ subLo.length - 1)
          + {pre ++ [b]} * between subLo.length 0 (value subHi)) := by
  have ha' := isDigit_iff.mp ha
  have hb' := isDigit_iff.mp hb
  have hltLo := value_lt hlo
  have hltHi := value_lt hhi
  rw [← hlen] at hltHi
  ext t
  rw [mem_between_common hlen hpre hb hhi, Language.mem_add, Language.mem_add,
    mem_singleton_mul, mem_singleton_mul, mem_singleton_mul]
  constructor
  · rintro ⟨c, s, rfl, hc, hs, hsdig, hmin, hmax⟩
    have hc' := isDigit_iff.mp hc
    have hlt := value_lt hsdig
    rw [hs] at hlt
    have hge := lead_le hlt hmin
    have hle := lead_le hltHi hmax
    rcases Nat.lt_or_ge a.toNat c.toNat with hlow | hlow
    · rcases Nat.lt_or_ge c.toNat b.toNat with hhigh | hhigh
      · exact .inl
          ⟨c :: s, rfl,
            mem_digit_mul.mpr ⟨c, s, rfl, by omega, by omega,
              mem_free.mpr ⟨hs, hsdig⟩⟩⟩
      · have heq : c = b := Char.toNat_inj.mp (by omega)
        subst heq
        exact .inr (.inr ⟨s, by rw [List.append_assoc]; rfl, hs, hsdig,
          Nat.zero_le _, by omega⟩)
    · have heq : c = a := Char.toNat_inj.mp (by omega)
      subst heq
      exact .inr (.inl ⟨s, by rw [List.append_assoc]; rfl, hs, hsdig, by omega,
        by omega⟩)
  · have hstep : ∀ {l d : Nat}, l + 1 ≤ d →
        10 ^ subLo.length * l + 10 ^ subLo.length ≤ 10 ^ subLo.length * d := by
      intro l d hle
      rw [← Nat.mul_succ]
      exact Nat.mul_le_mul_left _ hle
    have hfar := hstep (show a.toNat - 48 + 1 ≤ b.toNat - 48 by omega)
    rintro (⟨s, rfl, hs⟩ | ⟨s, rfl, hlength, hsdig, hmin, hmax⟩
      | ⟨s, rfl, hlength, hsdig, hmin, hmax⟩)
    · obtain ⟨c, s, rfl, hmin, hmax, hs⟩ := mem_digit_mul.mp hs
      obtain ⟨hlength, hsdig⟩ := mem_free.mp hs
      have hlt := value_lt hsdig
      rw [hlength] at hlt
      have hnear := hstep (show a.toNat - 48 + 1 ≤ c.toNat - 48 by omega)
      have hnear' := hstep (show c.toNat - 48 + 1 ≤ b.toNat - 48 by omega)
      exact ⟨c, s, rfl, isDigit_iff.mpr ⟨by omega, by omega⟩, hlength, hsdig,
        by omega, by omega⟩
    · have hlt := value_lt hsdig
      rw [hlength] at hlt
      exact ⟨a, s, by rw [List.append_assoc]; rfl, ha, hlength, hsdig,
        by omega, by omega⟩
    · exact ⟨b, s, by rw [List.append_assoc]; rfl, hb, hlength, hsdig,
        by omega, by omega⟩

end

-- ========================= expressions

variable {names : List Text}

theorem spelled_digits (h : Digits t) : Spelled t
    (t.map Char.toNat) := by
  refine Spelled.word fun c hc hmem => ?_
  simp only [List.mem_cons, List.not_mem_nil, or_false] at hmem
  rcases hmem with rfl | rfl <;> exact absurd (h _ hc) (by decide)

theorem quoted_expr (h : Digits t) : Expr names (quoted t)
    (always {t}) :=
  .literal (spelled_digits h)

theorem toNat_digit (h : n ≤ 9) :
    (Char.ofNat (48 + n)).toNat = 48 + n := by
  have hall : ∀ n : Fin 10, (Char.ofNat (48 + n.val)).toNat = 48 + n.val := by decide
  exact hall ⟨n, by omega⟩

theorem ofNat_digit (h : c.isDigit = true) :
    Char.ofNat (48 + (c.toNat - 48)) = c := by
  have hc := isDigit_iff.mp h
  rw [Nat.add_sub_cancel' hc.1, Char.ofNat_toNat]

theorem digitClass_atom (hab : a ≤ b) (hb : b ≤ 9) :
    AtomText (digitClass a b) (.cls false [(48 + a, 48 + b)]) := by
  have hlo := toNat_digit (show a ≤ 9 by omega)
  have hhi := toNat_digit hb
  have hno : ∀ {n : Nat}, n ≤ 9 → Char.ofNat (48 + n) ∉ [']', '\\', '^'] := by
    intro n hn hmem
    have hval := toNat_digit hn
    simp only [List.mem_cons, List.not_mem_nil, or_false] at hmem
    rcases hmem with heq | heq | heq
    all_goals
      rw [heq] at hval
      have h93 : ']'.toNat = 93 := rfl
      have h92 : '\\'.toNat = 92 := rfl
      have h94 : '^'.toNat = 94 := rfl
      omega
  have hrange : Listed [Char.ofNat (48 + a), '-', Char.ofNat (48 + b)]
      [((Char.ofNat (48 + a)).toNat, (Char.ofNat (48 + b)).toNat)] := by
    refine Listed.range (t := []) (.char fun h => hno (show a ≤ 9 by omega) ?_)
      (.char fun h => hno hb ?_) ?_
      Listed.nil
    · exact (List.prefix_append [']', '\\'] ['^']).subset h
    · exact (List.prefix_append [']', '\\'] ['^']).subset h
    · rw [hlo, hhi]
      omega
  rw [hlo, hhi] at hrange
  have hsort : sortRanges [(48 + a, 48 + b)] = [(48 + a, 48 + b)] := rfl
  rw [← hsort]
  exact .cls (fun h => hno (show a ≤ 9 by omega) (by simp [h])) hrange (by simp)

theorem texts_digit (a b : Nat) (g : List (Text × Node)) :
    texts g (.cls false [(48 + a, 48 + b)]) = digit a b := by
  rw [texts_cls]
  ext t
  constructor
  · rintro ⟨c, rfl, hin⟩
    have hin : inRanges [(48 + a, 48 + b)] c.toNat = true := by simpa using hin
    simp only [inRanges, List.any_cons, List.any_nil, Bool.or_false,
      Bool.and_eq_true, decide_eq_true_eq] at hin
    exact ⟨c, rfl, hin.1, hin.2⟩
  · rintro ⟨c, rfl, hlo, hhi⟩
    refine ⟨c, rfl, ?_⟩
    simp [inRanges, hlo, hhi]

theorem digitClass_expr (hab : a ≤ b) (hb : b ≤ 9) :
    Expr names (digitClass a b) (always (digit a b)) := by
  rw [← List.append_nil (digitClass a b)]
  exact .of_atom (digitClass_atom hab hb) (.none _) rfl (texts_digit a b)

/-- So many free digits. -/
theorem counted_expr (hn : n ≤ maxRepeat) :
    Expr names ("[0-9]".toList ++ counted n) (always (free n)) := by
  have hatom : AtomText "[0-9]".toList (.cls false [(48, 57)]) :=
    digitClass_atom (Nat.zero_le 9) (Nat.le_refl 9)
  refine .of_atom hatom (.exactly (t := []) hn (.none _)) rfl fun g => ?_
  rw [texts_rep_exactly, texts_digit 0 9, digit_pow]
  rfl

theorem clear_class (t rest : Text) : Clear ('[' :: t ++ rest) :=
  .of_start (by decide) (by decide) (by decide) _

theorem clear_group (t rest : Text) : Clear (grouped t ++ rest) :=
  .of_start (by decide) (by decide) (by decide) _

theorem join_pair (sep : String) (t t' : Text) : join sep
    [t, t'] = t ++ sep.toList ++ t' := by
  rw [join_cons]
  simp [join]

/-- Branches put side by side. -/
theorem alt_join (branches : List (Text × Language Char)) (hne : branches ≠ [])
    (h : ∀ b ∈ branches, Alt names b.1 (always b.2)) :
    Alt names (join " | " (branches.map Prod.fst))
      (always (branches.map Prod.snd).sum) := by
  induction branches with
  | nil => exact absurd rfl hne
  | cons b branches ih =>
      obtain ⟨hb, hrest⟩ := List.forall_mem_cons.mp h
      rcases branches with _ | ⟨b', branches⟩
      · simpa [join] using hb
      · rw [List.map_cons, List.map_cons, join_cons, List.map_cons, List.sum_cons]
        exact hb.append (ih (List.cons_ne_nil b' branches) hrest)

-- ======================= equal lengths

theorem between_zero : between 0 0 0 = 1 := by
  ext t
  rw [Language.mem_one]
  constructor
  · exact fun h => List.eq_nil_of_length_eq_zero h.1
  · rintro rfl
    exact ⟨rfl, nofun, Nat.le_refl 0, Nat.le_refl 0⟩

theorem between_value (h : Digits t) : between t.length (value t)
    (value t) = {t} := by
  ext s
  constructor
  · exact fun ⟨hlen, hs, hmin, hmax⟩ =>
      digits_ext hs h hlen (Nat.le_antisymm hmax hmin)
  · rintro rfl
    exact ⟨rfl, h, Nat.le_refl _, Nat.le_refl _⟩

/-- The branch between the bounds' digits. -/
theorem middle_expr {pre : Text} (hpre : Digits pre)
    (hab : a ≤ b) (hb : b ≤ 9) (hn : n ≤ maxRepeat) :
    Expr names ((if pre.isEmpty then [] else quoted pre) ++ digitClass a b
      ++ (if n > 0 then "[0-9]".toList ++ counted n else []))
        (always ({pre} * (digit a b * free n))) := by
  have hrest :
      Expr names (digitClass a b
        ++ (if n > 0 then "[0-9]".toList ++ counted n else []))
      (always (digit a b * free n)) := by
    by_cases hpos : n > 0
    · rw [if_pos hpos]
      exact (digitClass_expr hab hb).append (counted_expr hn) (clear_class _)
    · have hzero : n = 0 := by omega
      have hfree : free 0 = 1 := between_zero
      rw [if_neg hpos, List.append_nil, hzero, hfree, mul_one]
      exact digitClass_expr hab hb
  rw [List.append_assoc]
  rcases pre with _ | ⟨c, pre⟩
  · have hone : ({[]} : Language Char) = 1 := rfl
    rw [hone, one_mul]
    exact hrest
  · exact (quoted_expr hpre).append hrest (clear_class _)

/-- The branch at one of the bounds' digits. -/
theorem edge_expr {p sub : Text} (hp : Digits p)
    (h : Alt names sub (always L)) :
    Expr names (quoted p ++ grouped sub) (always ({p} * L)) :=
  (quoted_expr hp).append (.group h) (clear_group _)

/-- What `fixed_len_range` writes past the common digits. -/
theorem fixedLenRange_cut {pre subLo subHi : Text} {a b : Char}
    (hlen : subLo.length = subHi.length)
    (hcommon : commonDigits (pre ++ a :: subLo) (pre ++ b :: subHi)
      = pre.length) (hab : a ≠ b)
    (ha : a.isDigit = true) (hb : b.isDigit = true) :
    fixedLenRange (pre ++ a :: subLo) (pre ++ b :: subHi) = join " | "
      ((if b.toNat - 48 > a.toNat - 48 + 1 then
        [(if pre.isEmpty then [] else quoted pre)
          ++ digitClass (a.toNat - 48 + 1) (b.toNat - 48 - 1)
          ++ (if subLo.length > 0 then "[0-9]".toList ++ counted subLo.length
            else [])]
        else [])
      ++ (if subLo.length = 0 then [quoted (pre ++ [a]), quoted (pre ++ [b])]
        else
          [quoted (pre ++ [a])
            ++ grouped (fixedLenRange subLo (List.replicate subLo.length '9')),
            quoted (pre ++ [b])
              ++ grouped (fixedLenRange
                (List.replicate subLo.length '0') subHi)])) := by
  have hne : pre ++ a :: subLo ≠ pre ++ b :: subHi :=
    fun heq => hab (List.cons.inj (List.append_cancel_left heq)).1
  have hlength : (pre ++ a :: subLo).length - pre.length - 1 = subLo.length := by
    rw [List.length_append, List.length_cons]
    omega
  rw [fixedLenRange, if_neg hne]
  dsimp only
  rw [hcommon]
  split
  next a' subLo' b' subHi' hlo hhi =>
    rw [List.drop_left] at hlo hhi
    obtain ⟨rfl, rfl⟩ := List.cons.inj hlo
    obtain ⟨rfl, rfl⟩ := List.cons.inj hhi
    rw [hlength, List.take_left, ofNat_digit ha, ofNat_digit hb]
    by_cases hzero : subLo.length = 0
    · rw [if_pos hzero, if_pos hzero]
    · rw [if_neg hzero, if_neg hzero]
  next hno =>
    rw [List.drop_left, List.drop_left] at hno
    exact absurd rfl (hno _ _ _ _ rfl)

/-- The branch in the middle, where a digit lies strictly between. -/
theorem alt_with_middle {pre : Text} {edges : List Text}
    {E : Language Char} (hpre : Digits pre) (hb : b ≤ 9) (hn : n ≤ maxRepeat)
    (hne : edges ≠ []) (h : Alt names (join " | " edges) (always E)) :
    Alt names (join " | " ((if b > a + 1 then
        [(if pre.isEmpty then [] else quoted pre) ++ digitClass (a + 1) (b - 1)
          ++ (if n > 0 then "[0-9]".toList ++ counted n else [])]
        else []) ++ edges))
          (always ({pre} * (digit (a + 1) (b - 1) * free n) + E)) := by
  by_cases hbetween : b > a + 1
  · obtain ⟨edge, edges, rfl⟩ := List.exists_cons_of_ne_nil hne
    rw [if_pos hbetween, List.singleton_append, join_cons]
    exact (middle_expr hpre (by omega) (by omega) hn).alt.append h
  · have hempty : digit (a + 1) (b - 1) = 0 := by
      ext t
      refine ⟨fun ⟨c, _, hmin, hmax⟩ => ?_, fun h => h.elim⟩
      omega
    rw [if_neg hbetween, List.nil_append, hempty, zero_mul, mul_zero, zero_add]
    exact h

/-- A range of one length. -/
theorem fixedLenRange_alt : ∀ (n : Nat) {lo hi : Text}, lo.length = n →
    hi.length = n → n ≤ maxRepeat →
    Digits lo → Digits hi → value lo ≤ value hi →
    Alt names (fixedLenRange lo hi) (always (between n (value lo) (value hi))) := by
  intro n
  -- on the length: the branches' own ranges are shorter
  induction n using Nat.strong_induction_on with
  | h n ih =>
      intro lo hi hlo hhi hmax hdlo hdhi hle
      by_cases heq : lo = hi
      · rw [fixedLenRange, if_pos heq, ← heq, ← hlo, between_value hdlo]
        exact (quoted_expr hdlo).alt
      · obtain ⟨pre, a, subLo, b, subHi, rfl, rfl, hab, hcommon⟩ :=
          commonDigits_spec (hlo.trans hhi.symm) heq
        obtain ⟨hpre, hrest⟩ := digits_append.mp hdlo
        obtain ⟨ha, hsubLo⟩ := digits_cons.mp hrest
        obtain ⟨hb, hsubHi⟩ := digits_cons.mp (digits_append.mp hdhi).2
        rw [List.length_append, List.length_cons] at hlo hhi
        have hlen : subLo.length = subHi.length := by omega
        have ha' := isDigit_iff.mp ha
        have hb' := isDigit_iff.mp hb
        have hlt : a.toNat < b.toNat := by
          rw [value_append, value_append, value_cons, value_cons,
            List.length_cons, List.length_cons, ← hlen]
            at hle
          have hltHi := value_lt hsubHi
          rw [← hlen] at hltHi
          have hlead := lead_le hltHi (Nat.le_of_add_le_add_left hle)
          have hne : a.toNat ≠ b.toNat := fun h => hab (Char.toNat_inj.mp h)
          omega
        have hdedge : ∀ {c : Char}, c.isDigit = true → Digits (pre ++ [c]) :=
          fun hc => digits_append.mpr ⟨hpre, digits_cons.mpr ⟨hc, nofun⟩⟩
        have hsplit := between_split hlen hpre ha hb hsubLo hsubHi hlt
        rw [List.length_append, List.length_cons, hlo] at hsplit
        rw [fixedLenRange_cut hlen hcommon hab ha hb, hsplit]
        refine alt_with_middle hpre (by omega) (by omega)
          (by split <;> exact List.cons_ne_nil _ _) ?_
        rcases Nat.eq_zero_or_pos subLo.length with hzero | hpos
        · -- no digit is left
          have hsubLo0 : value subLo = 0 := by
            rw [List.eq_nil_of_length_eq_zero hzero]
            rfl
          have hsubHi0 : value subHi = 0 := by
            rw [List.eq_nil_of_length_eq_zero (hlen.symm.trans hzero)]
            rfl
          have hnone : between 0 0 (10 ^ 0 - 1) = 1 := between_zero
          rw [if_pos hzero, hzero, hsubLo0, hsubHi0, hnone, between_zero,
            mul_one, mul_one, join_pair]
          exact (quoted_expr (hdedge ha)).alt.append (quoted_expr (hdedge hb)).alt
        · have hnines := value_nines subLo.length
          have hltLo := value_lt hsubLo
          have hlow :=
            ih subLo.length (by omega) rfl List.length_replicate
            (by omega) hsubLo
            (digits_replicate (c := '9') rfl _) (by omega)
          have hhigh :=
            ih subLo.length (by omega) List.length_replicate hlen.symm
            (by omega)
            (digits_replicate (c := '0') rfl _) hsubHi
              (by rw [value_zeros]; exact Nat.zero_le _)
          rw [hnines] at hlow
          rw [value_zeros] at hhigh
          rw [if_neg (by omega), join_pair]
          exact (edge_expr (hdedge ha) hlow).alt.append
            (edge_expr (hdedge hb) hhigh).alt

-- ============================ numerals

/-- The decimal numerals of the numbers between two. -/
def numerals (a b : Nat) : Language Char :=
  {t | ∃ v, a ≤ v ∧ v ≤ b ∧ t = Nat.toDigits 10 v}

/-- A number's own length. -/
theorem length_toDigits {d : Nat} (hd : 0 < d)
    (hlo : 10 ^ (d - 1) ≤ n ∨ d = 1) (hhi : n < 10 ^ d) :
    (Nat.toDigits 10 n).length = d := by
  have hle : (Nat.toDigits 10 n).length ≤ d :=
    (Nat.length_toDigits_le_iff (by decide) hd).mpr hhi
  have hpos : 0 < (Nat.toDigits 10 n).length := Nat.length_toDigits_pos
  rcases hlo with hlo | rfl
  · by_contra hne
    have hshort :=
      (Nat.length_toDigits_le_iff (b := 10) (k := d - 1) (n := n) (by decide)
        (by omega)).mp (by omega)
    omega
  · omega

/-- Among the digit strings of one length, those without a leading zero are
the numerals. -/
theorem between_numerals {d : Nat} (hd : 0 < d)
    (hlo : 10 ^ (d - 1) ≤ a ∨ d = 1) (hhi : b < 10 ^ d) :
    between d a b = numerals a b := by
  have hlength : ∀ {v : Nat}, a ≤ v → v ≤ b → (Nat.toDigits 10 v).length = d := by
    intro v hmin hmax
    apply length_toDigits hd
    · rcases hlo with hlo | hlo
      · exact .inl (by omega)
      · exact .inr hlo
    · omega
  ext t
  constructor
  · rintro ⟨hlen, hdig, hmin, hmax⟩
    refine ⟨value t, hmin, hmax,
      digits_ext hdig (digits_toDigits _) ?_ (value_toDigits _).symm⟩
    rw [hlen, hlength hmin hmax]
  · rintro ⟨v, hmin, hmax, rfl⟩
    refine ⟨hlength hmin hmax, digits_toDigits v, ?_, ?_⟩
    · rwa [value_toDigits]
    · rwa [value_toDigits]

/-- Ranges that meet end to end. -/
theorem numerals_add {c : Nat} (hpos : 0 < b) (hab : a ≤ b) (hbc : b ≤ c + 1) :
    numerals a (b - 1) + numerals b c = numerals a c := by
  ext t
  rw [Language.mem_add]
  constructor
  · rintro (⟨v, hmin, hmax, rfl⟩ | ⟨v, hmin, hmax, rfl⟩)
    · exact ⟨v, hmin, by omega, rfl⟩
    · exact ⟨v, by omega, hmax, rfl⟩
  · rintro ⟨v, hmin, hmax, rfl⟩
    by_cases hlt : v < b
    · exact .inl ⟨v, hmin, by omega, rfl⟩
    · exact .inr ⟨v, by omega, hmax, rfl⟩

theorem digit_numerals (hb : b ≤ 9) :
    digit a b = numerals a b := by
  rw [← between_numerals Nat.one_pos (.inr rfl) (show b < 10 ^ 1 by omega)]
  ext t
  constructor
  · rintro ⟨c, rfl, hmin, hmax⟩
    have hc : c.isDigit = true := isDigit_iff.mpr ⟨by omega, by omega⟩
    have hvalue : value [c] = c.toNat - 48 := by simp [value, Nat.ofDigitChars_cons]
    exact ⟨rfl, digits_cons.mpr ⟨hc, nofun⟩, by omega, by omega⟩
  · rintro ⟨hlen, hdig, hmin, hmax⟩
    obtain ⟨c, rfl⟩ := List.length_eq_one_iff.mp hlen
    have hc := isDigit_iff.mp (digits_cons.mp hdig).1
    have hvalue : value [c] = c.toNat - 48 := by simp [value, Nat.ofDigitChars_cons]
    exact ⟨c, rfl, by omega, by omega⟩

/-- Every number of one length. -/
theorem allOfLength_alt {len : Nat} (hlen : 2 ≤ len) (hmax : len ≤ maxRepeat) :
    Alt names (allOfLength len)
      (always (numerals (10 ^ (len - 1)) (10 ^ len - 1))) := by
  have hnumerals : digit 1 9 * free (len - 1)
      = numerals (10 ^ (len - 1)) (10 ^ len - 1) := by
    have hpos : 0 < 10 ^ len := Nat.pow_pos (by decide)
    rw [← between_numerals (show 0 < len by omega) (.inl (Nat.le_refl _)) (by omega)]
    ext t
    rw [mem_digit_mul]
    constructor
    · rintro ⟨c, s, rfl, hlo, hhi, hs⟩
      obtain ⟨hslen, hs⟩ := mem_free.mp hs
      have hdig : Digits (c :: s) :=
        digits_cons.mpr ⟨isDigit_iff.mpr ⟨by omega, hhi⟩, hs⟩
      have hlt := value_lt hdig
      have hlead : 10 ^ s.length * 1 ≤ 10 ^ s.length * (c.toNat - 48) :=
        Nat.mul_le_mul_left _ (by omega)
      have hlength : s.length + 1 = len := by omega
      rw [List.length_cons, hlength] at hlt
      refine ⟨hlength, hdig, ?_, by omega⟩
      rw [value_cons, ← hslen]
      omega
    · rintro ⟨hslen, hdig, hmin, -⟩
      rcases t with _ | ⟨c, s⟩
      · rw [List.length_nil] at hslen
        omega
      · obtain ⟨hc, hs⟩ := digits_cons.mp hdig
        have hc := isDigit_iff.mp hc
        have hlt := value_lt hs
        rw [List.length_cons] at hslen
        have hslen : s.length = len - 1 := by omega
        rw [value_cons, hslen] at hmin
        rw [hslen] at hlt
        -- a leading zero would leave too little
        have hlead : c.toNat - 48 ≠ 0 := by
          intro hzero
          rw [hzero] at hmin
          omega
        exact ⟨c, s, rfl, by omega, hc.2, mem_free.mpr ⟨hslen, hs⟩⟩
  have htext : allOfLength len
    = digitClass 1 9 ++ ("[0-9]".toList ++ counted (len - 1)) := rfl
  rw [htext, ← hnumerals]
  exact ((digitClass_expr (by decide) (by decide)).append
    (counted_expr (by omega)) (clear_class _)).alt

/-- The lengths in between, and the rest. -/
theorem sum_lengths {s hi : Nat} (hs : 0 < s) (hle : 10 ^ (s + n - 1) ≤ hi) :
    ((List.range' s n).map fun len => numerals (10 ^ (len - 1)) (10 ^ len - 1)).sum
      + numerals (10 ^ (s + n - 1)) hi = numerals (10 ^ (s - 1)) hi := by
  induction n generalizing s with
  | zero => simp
  | succ n ih =>
      have hsucc : s + (n + 1) - 1 = s + 1 + n - 1 := by omega
      have hfull : 10 ^ s ≤ 10 ^ (s + 1 + n - 1) :=
        Nat.pow_le_pow_right (by decide) (by omega)
      have hpow : 10 ^ (s - 1) ≤ 10 ^ s := Nat.pow_le_pow_right (by decide) (by omega)
      rw [hsucc] at hle ⊢
      rw [List.range'_succ, List.map_cons, List.sum_cons, add_assoc,
        ih (s := s + 1) (by omega) hle, Nat.add_sub_cancel]
      exact numerals_add (Nat.pow_pos (by decide)) hpow (by omega)

/-- A number of a digit string's length, and the string. -/
theorem digits_pow_le (h : 0 < n) :
    10 ^ ((Nat.toDigits 10 n).length - 1) ≤ n := by
  by_contra hlt
  have hpos : 0 < (Nat.toDigits 10 n).length := Nat.length_toDigits_pos
  rcases Nat.eq_zero_or_pos ((Nat.toDigits 10 n).length - 1) with hzero | hlong
  · rw [hzero] at hlt
    omega
  · have hle :=
      (Nat.length_toDigits_le_iff (b := 10) (n := n) (by decide) hlong).mpr
      (by omega)
    omega

theorem lt_digits_pow (n : Nat) : n < 10 ^ (Nat.toDigits 10 n).length :=
  (Nat.length_toDigits_le_iff (by decide) Nat.length_toDigits_pos).mp (Nat.le_refl _)

/-- From the least number of a length on. -/
theorem fixedLenRange_top (hn : 0 < n)
    (hmax : (Nat.toDigits 10 n).length ≤ maxRepeat) :
    Alt names (fixedLenRange
      ('1' :: List.replicate ((Nat.toDigits 10 n).length - 1) '0')
      (Nat.toDigits 10 n))
      (always (numerals (10 ^ ((Nat.toDigits 10 n).length - 1)) n)) := by
  have hpos : 0 < (Nat.toDigits 10 n).length := Nat.length_toDigits_pos
  have hlength : ('1' :: List.replicate ((Nat.toDigits 10 n).length - 1) '0').length
      = (Nat.toDigits 10 n).length := by
    rw [List.length_cons, List.length_replicate]
    omega
  have halt : Alt names _ _ := fixedLenRange_alt _ hlength rfl hmax
    (digits_cons.mpr ⟨rfl, digits_replicate rfl _⟩) (digits_toDigits n)
    (by rw [value_one_zeros, value_toDigits]; exact digits_pow_le hn)
  rwa [value_one_zeros, value_toDigits,
    between_numerals hpos (.inl (Nat.le_refl _)) (lt_digits_pow n)] at halt

/-- The numbers of the lengths in between, as branches. -/
theorem lengths_alt {s : Nat} (hs : 2 ≤ s) (hmax : s + n ≤ maxRepeat + 1) :
    ∀ b ∈ (List.range' s n).map fun len =>
      (allOfLength len, numerals (10 ^ (len - 1)) (10 ^ len - 1)),
      Alt names b.1 (always b.2) := by
  intro b hb
  obtain ⟨len, hlen, rfl⟩ := List.mem_map.mp hb
  have hlen := List.mem_range'_1.mp hlen
  exact allOfLength_alt (by omega) (by omega)

/-- Branches for the shortest length, for those in between and for the
longest. -/
theorem alt_lengths {first last : Text} {s hi : Nat}
    (hs : 2 ≤ s) (hmax : s + n ≤ maxRepeat + 1) (hle : 10 ^ (s + n - 1) ≤ hi)
    (ha : a ≤ 10 ^ (s - 1)) (hL : L = numerals a (10 ^ (s - 1) - 1))
    (hfirst : Alt names first (always L))
    (hlast : Alt names last (always (numerals (10 ^ (s + n - 1)) hi))) :
    Alt names (join " | "
      ([first] ++ (List.range' s n).map allOfLength ++ [last]))
      (always (numerals a hi)) := by
  have halt : Alt names _ _ := alt_join ((first, L)
      :: ((List.range' s n).map fun len =>
        (allOfLength len, numerals (10 ^ (len - 1)) (10 ^ len - 1)))
      ++ [(last, numerals (10 ^ (s + n - 1)) hi)]) (List.cons_ne_nil _ _) (by
    intro b hb
    rcases List.mem_append.mp hb with hb | hb
    · rcases List.mem_cons.mp hb with rfl | hb
      · exact hfirst
      · exact lengths_alt hs hmax b hb
    · rw [List.mem_singleton.mp hb]
      exact hlast)
  have hsum := sum_lengths (show 0 < s by omega) hle
  have hpow : 10 ^ (s - 1) ≤ 10 ^ (s + n - 1) :=
    Nat.pow_le_pow_right (by decide) (by omega)
  have hall : L + numerals (10 ^ (s - 1)) hi = numerals a hi := by
    rw [hL]
    exact numerals_add (Nat.pow_pos (by decide)) ha (by omega)
  simp only [List.cons_append, List.map_cons, List.map_append, List.map_map,
    List.map_nil, List.sum_cons,
    List.sum_append, List.sum_nil, add_zero] at halt
  rw [← hall, ← hsum]
  exact halt

theorem two_le_length (h : 10 ≤ n) :
    2 ≤ (Nat.toDigits 10 n).length := by
  by_contra hshort
  have hle := (Nat.length_toDigits_le_iff (b := 10) (k := 1) (n := n)
    (by decide) (by decide)).mp (by omega)
  omega

theorem zero_alt : Alt names (quoted ['0']) (always (numerals 0 0)) := by
  have hset : numerals 0 0 = {['0']} := by
    ext t
    constructor
    · rintro ⟨v, -, hmax, rfl⟩
      rw [Nat.le_zero.mp hmax]
      rfl
    · rintro rfl
      exact ⟨0, Nat.le_refl _, Nat.le_refl _, rfl⟩
  rw [hset]
  exact (quoted_expr (t := ['0']) (digits_cons.mpr ⟨rfl, nofun⟩)).alt

theorem uintUpTo_alt (hmax : (Nat.toDigits 10 n).length ≤ maxRepeat) :
    Alt names (uintUpTo n) (always (numerals 0 n)) := by
  by_cases hsmall : n < 10
  · rw [uintUpTo, if_pos hsmall, ← digit_numerals (by omega)]
    exact (digitClass_expr (Nat.zero_le n) (by omega)).alt
  · have hlong := two_le_length (show 10 ≤ n by omega)
    have htop : Alt names _ _ := fixedLenRange_top (show 0 < n by omega) hmax
    have hlength : 2 + ((Nat.toDigits 10 n).length - 2)
      = (Nat.toDigits 10 n).length := by omega
    have hpositive : Alt names (digitClass 1 9) (always (numerals 1 9)) := by
      rw [← digit_numerals (Nat.le_refl 9)]
      exact (digitClass_expr (by decide) (by decide)).alt
    have hrest : ∀ last,
        Alt names last
        (always (numerals (10 ^ ((Nat.toDigits 10 n).length - 1)) n)) →
        Alt names (join " | "
          ([digitClass 1 9]
            ++ (List.range' 2 ((Nat.toDigits 10 n).length - 2)).map allOfLength
            ++ [last]))
          (always (numerals 1 n)) := by
      intro last hlast
      refine alt_lengths (Nat.le_refl 2) (by omega) ?_ (by decide) rfl hpositive ?_
      · rw [hlength]
        exact digits_pow_le (by omega)
      · rw [hlength]
        exact hlast
    have hall : numerals 0 0 + numerals 1 n = numerals 0 n :=
      numerals_add (b := 1) Nat.one_pos (by decide) (by omega)
    rw [uintUpTo, if_neg hsmall, ← hall]
    exact zero_alt.append (hrest _ htop)

theorem uintRange_alt {lo hi : Nat} (hle : lo ≤ hi)
    (hmax : (Nat.toDigits 10 hi).length ≤ maxRepeat) :
    Alt names (uintRange lo hi) (always (numerals lo hi)) := by
  by_cases hzero : lo = 0
  · rw [uintRange, if_pos hzero, hzero]
    exact uintUpTo_alt hmax
  · have hpos : 0 < (Nat.toDigits 10 lo).length := Nat.length_toDigits_pos
    have hlow := digits_pow_le (show 0 < lo by omega)
    have hhigh := lt_digits_pow hi
    have hlowlt := lt_digits_pow lo
    have hlengths : (Nat.toDigits 10 lo).length ≤ (Nat.toDigits 10 hi).length :=
      (Nat.length_toDigits_le_iff (by decide) Nat.length_toDigits_pos).mpr (by omega)
    rw [uintRange, if_neg hzero]
    dsimp only
    by_cases heq : (Nat.toDigits 10 lo).length = (Nat.toDigits 10 hi).length
    · have halt : Alt names _ _ :=
        fixedLenRange_alt _ rfl heq.symm (by omega) (digits_toDigits lo)
        (digits_toDigits hi) (by rwa [value_toDigits, value_toDigits])
      rw [value_toDigits, value_toDigits,
        between_numerals hpos (.inl hlow) (by rwa [heq])] at halt
      rwa [if_pos heq]
    · have hlength : (Nat.toDigits 10 lo).length + 1
          + ((Nat.toDigits 10 hi).length - ((Nat.toDigits 10 lo).length + 1))
              = (Nat.toDigits 10 hi).length := by
        omega
      have hfirst :
          Alt names (fixedLenRange _
            (List.replicate (Nat.toDigits 10 lo).length '9')) _ :=
        fixedLenRange_alt _ rfl List.length_replicate (by omega)
          (digits_toDigits lo) (digits_replicate rfl _)
          (by rw [value_nines, value_toDigits]; omega)
      rw [value_nines, value_toDigits,
        between_numerals hpos (.inl hlow) (by omega)] at hfirst
      rw [if_neg heq]
      refine alt_lengths (by omega) (by omega) ?_ ?_ rfl hfirst ?_
      · rw [hlength]
        exact digits_pow_le (by omega)
      · rw [Nat.add_sub_cancel]
        omega
      · rw [hlength]
        exact fixedLenRange_top (by omega) hmax

-- =============================== signs

theorem quoted_minus : Expr names (quoted ['-']) (always {['-']}) := by
  have hspelled : Spelled ['-'] (['-'].map Char.toNat) :=
    Spelled.char (by decide) Spelled.nil
  exact .literal hspelled

/-- The minus sign before the numerals of some numbers. -/
theorem negative_expr (h : Alt names t (always L)) :
    Expr names (quoted ['-'] ++ ' ' :: grouped t) (always ({['-']} * L)) :=
  quoted_minus.space (.group h)

/-- The texts of the integers between two. -/
def integers (a b : Int) : Language Char :=
  {t | ∃ v : Int, a ≤ v ∧ v ≤ b ∧ t = (toString v).toList}

theorem integers_nonneg : integers a b = numerals a b := by
  ext t
  constructor
  · rintro ⟨v, hmin, hmax, rfl⟩
    obtain ⟨n, rfl⟩ := Int.eq_ofNat_of_zero_le (show 0 ≤ v by omega)
    exact ⟨n, by omega, by omega, toString_ofNat n⟩
  · rintro ⟨v, hmin, hmax, rfl⟩
    exact ⟨v, by omega, by omega, (toString_ofNat v).symm⟩

theorem integers_neg (ha : 0 < a) : integers (-b)
    (-a) = {['-']} * numerals a b := by
  ext t
  rw [mem_singleton_mul]
  constructor
  · rintro ⟨v, hmin, hmax, rfl⟩
    obtain ⟨n, hn⟩ := Int.eq_ofNat_of_zero_le (show 0 ≤ -v by omega)
    have hv : v = -(n : Int) := by omega
    subst hv
    exact ⟨Nat.toDigits 10 n, toString_neg (by omega), n, by omega, by omega, rfl⟩
  · rintro ⟨-, rfl, v, hmin, hmax, rfl⟩
    exact ⟨-(v : Int), by omega, by omega, (toString_neg (by omega)).symm⟩

theorem integers_add {a b c : Int} (hab : a ≤ b) (hbc : b ≤ c + 1) :
    integers a (b - 1) + integers b c = integers a c := by
  ext t
  rw [Language.mem_add]
  constructor
  · rintro (⟨v, hmin, hmax, rfl⟩ | ⟨v, hmin, hmax, rfl⟩)
    · exact ⟨v, hmin, by omega, rfl⟩
    · exact ⟨v, by omega, hmax, rfl⟩
  · rintro ⟨v, hmin, hmax, rfl⟩
    by_cases hlt : v < b
    · exact .inl ⟨v, hmin, by omega, rfl⟩
    · exact .inr ⟨v, by omega, hmax, rfl⟩

theorem always_add (L M : Language Char) : always L + always M = always (L + M) := rfl

/-- The negative numbers and zero, or the negative numbers only. -/
theorem intRangeExpr_nonpos (hle : b ≤ a) (hneg : 0 < a)
    (hmax : (Nat.toDigits 10 a).length ≤ maxRepeat) :
    ∃ expr, intRangeExpr (-(a : Int)) (-(b : Int)) = .ok expr
      ∧ Alt names expr (always (integers (-(a : Int)) (-(b : Int)))) := by
  rw [intRangeExpr, if_neg (by omega), if_neg (by omega), if_pos (by omega),
    Int.neg_neg, Int.neg_neg,
    Int.toNat_natCast, Int.toNat_natCast]
  dsimp only
  by_cases hzero : b = 0
  · have hsplit : integers (-(a : Int)) (-((1 : Nat) : Int)) + integers
        ((0 : Nat) : Int) ((0 : Nat) : Int)
        = integers (-(a : Int)) (-((0 : Nat) : Int)) :=
          integers_add (b := 0) (by omega) (by omega)
    rw [integers_neg Nat.one_pos, integers_nonneg] at hsplit
    rw [if_pos hzero, hzero, ← hsplit]
    have halt : Alt names _ _ :=
      (negative_expr (uintRange_alt hneg hmax)).alt.append zero_alt
    refine ⟨_, rfl, ?_⟩
    simpa [quoted, grouped, always_add] using halt
  · rw [if_neg hzero, integers_neg (by omega)]
    have halt : Alt names _ _ := (negative_expr (uintRange_alt hle hmax)).alt
    refine ⟨_, rfl, ?_⟩
    simpa [quoted, grouped] using halt

/-- Numbers of both signs. -/
theorem intRangeExpr_mixed (ha : 0 < a) (hb : 0 < b)
    (hmaxa : (Nat.toDigits 10 a).length ≤ maxRepeat)
    (hmaxb : (Nat.toDigits 10 b).length ≤ maxRepeat) :
    ∃ expr, intRangeExpr (-(a : Int)) b = .ok expr
      ∧ Alt names expr (always (integers (-(a : Int)) b)) := by
  rw [intRangeExpr, if_neg (by omega), if_neg (by omega), if_neg (by omega),
    Int.neg_neg, Int.toNat_natCast,
    Int.toNat_natCast]
  have hsplit : integers (-(a : Int)) (-((1 : Nat) : Int)) + integers
      ((0 : Nat) : Int) (b : Int)
      = integers (-(a : Int)) (b : Int) := integers_add (b := 0) (by omega) (by omega)
  rw [integers_neg Nat.one_pos, integers_nonneg] at hsplit
  rw [← hsplit]
  have halt : Alt names _ _ :=
    (Expr.group ((negative_expr (uintRange_alt ha hmaxa)).alt.append
    (uintRange_alt (Nat.zero_le b) hmaxb))).alt
  refine ⟨_, rfl, ?_⟩
  simpa [quoted, grouped, always_add] using halt

theorem intRangeExpr_alt {lo hi : Int} (hlo : -2 ^ 127 ≤ lo)
    (hhi : hi < 2 ^ 127) (h : lo ≤ hi) :
    ∃ expr, intRangeExpr lo hi = .ok expr
      ∧ Alt names expr (always (integers lo hi)) := by
  have hlength : ∀ {n : Nat}, n ≤ 2 ^ 127 →
      (Nat.toDigits 10 n).length ≤ maxRepeat := by
    intro n hn
    have hshort :=
      (Nat.length_toDigits_le_iff (b := 10) (k := 39) (n := n) (by decide)
        (by decide)).mpr (by omega)
    exact Nat.le_trans hshort (by decide)
  by_cases hpos : 0 ≤ lo
  · obtain ⟨a, rfl⟩ := Int.eq_ofNat_of_zero_le hpos
    obtain ⟨b, rfl⟩ := Int.eq_ofNat_of_zero_le (show 0 ≤ hi by omega)
    rw [intRangeExpr, if_neg (by omega), if_pos hpos, integers_nonneg]
    exact ⟨_, rfl, uintRange_alt (by omega) (hlength (by omega))⟩
  · obtain ⟨a, ha⟩ := Int.eq_ofNat_of_zero_le (show 0 ≤ -lo by omega)
    have hlo' : lo = -(a : Int) := by omega
    subst hlo'
    by_cases hneg : hi ≤ 0
    · obtain ⟨b, hb⟩ := Int.eq_ofNat_of_zero_le (show 0 ≤ -hi by omega)
      have hhi' : hi = -(b : Int) := by omega
      subst hhi'
      exact intRangeExpr_nonpos (by omega) (by omega) (hlength (by omega))
    · obtain ⟨b, rfl⟩ := Int.eq_ofNat_of_zero_le (show 0 ≤ hi by omega)
      exact intRangeExpr_mixed (by omega) (by omega) (hlength (by omega))
        (hlength (by omega))

theorem isName_root : IsName "root".toList := IsName.of_check rfl

/-- The expression for a range accepts the decimal numerals of its integers,
and no other text. -/
theorem int_range_expr_exact {lo hi : Int} (hlo : -2 ^ 127 ≤ lo)
    (hhi : hi < 2 ^ 127) (h : lo ≤ hi) :
    ∃ expr node, intRangeExpr lo hi = .ok expr
      ∧ Settles (fun fuel => parse fuel ("root ::= ".toList ++ expr))
        (.ok [("root".toList, node)])
      ∧ texts [("root".toList, node)] (.ref "root".toList)
        = {text | ∃ v : Int, lo ≤ v ∧ v ≤ hi ∧ text = (toString v).toList} := by
  obtain ⟨expr, hok, halt⟩ := intRangeExpr_alt hlo hhi h
  obtain ⟨node, hparse, htexts⟩ := halt.parse isName_root
  exact ⟨expr, node, hok, hparse, htexts⟩

theorem int_range_expr_exact_sign : ∃ expr node, intRangeExpr (-12) 5 = .ok expr
    ∧ Settles (fun fuel => parse fuel ("root ::= ".toList ++ expr))
      (.ok [("root".toList, node)])
    ∧ texts [("root".toList, node)] (.ref "root".toList)
      = {text | ∃ v : Int, -12 ≤ v ∧ v ≤ 5 ∧ text = (toString v).toList} :=
  int_range_expr_exact (by decide) (by decide) (by decide)

end Minfer.Schema
