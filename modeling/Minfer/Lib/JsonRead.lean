/-
A JSON text is read one way.

No text of a value is the beginning of another one, but for a number, which
goes on as far as its characters do. So where two texts stand before the same
rest, they are one text and stand for one value (`Reads.unique`): an opening
character says which of the rules of a value was used, and every rule fixes in
turn where each of its parts ends.
-/
import Minfer.Lib.JsonText

namespace Minfer.Lib.Json

variable {canon : List Char → List Char}

-- ================================ runs

variable {x y t t' w w' r r' : List Char} {c : Char} {v : Json}

/-- A run of characters of a kind ends where the kind does. -/
theorem run_unique {p : Char → Prop} {a b : List Char}
    (ha : ∀ c ∈ a, p c) (hb : ∀ c ∈ b, p c) (hx : ∀ c ∈ x.head?, ¬ p c)
    (hy : ∀ c ∈ y.head?, ¬ p c) (h : a ++ x = b ++ y) : a = b ∧ x = y := by
  induction a generalizing b with
  | nil =>
      cases b with
      | nil => exact ⟨rfl, h⟩
      | cons c b =>
          have hhead : c ∈ x.head? := by
            rw [show x = c :: (b ++ y) from h]
            rfl
          exact absurd (hb c List.mem_cons_self) (hx c hhead)
  | cons c a ih =>
      cases b with
      | nil =>
          have hhead : c ∈ y.head? := by
            rw [show y = c :: (a ++ x) from h.symm]
            rfl
          exact absurd (ha c List.mem_cons_self) (hy c hhead)
      | cons d b =>
          simp only [List.cons_append, List.cons.injEq] at h
          obtain ⟨rfl, h⟩ := h
          rw [List.forall_mem_cons] at ha hb
          obtain ⟨hab, hxy⟩ := ih ha.2 hb.2 h
          exact ⟨congrArg (c :: ·) hab, hxy⟩

-- ============================= strings

/-- Four digits are as many as four others. -/
theorem hexUnit_cut {n n' : Nat} (h : hexUnit t = some n)
    (h' : hexUnit t' = some n') (heq : t ++ x = t' ++ y) : t = t' ∧ x = y := by
  have hlen : ∀ {t : List Char} {n : Nat}, hexUnit t = some n →
      t.length = 4 := by
    intro t n h
    unfold hexUnit at h
    split at h
    · rfl
    · cases h
  exact List.append_inj heq ((hlen h).trans (hlen h').symm)

/-- A spelling stands for one character, and begins no other one. -/
theorem Spells.unique {c' : Char}
    (h : Spells t c) (h' : Spells t' c') (heq : t ++ x = t' ++ y) :
    t = t' ∧ c = c' ∧ x = y := by
  cases h with
  | plain hc hq hb =>
      cases h' with
      | plain hc' hq' hb' =>
          obtain ⟨rfl, hxy⟩ := List.cons.inj heq
          exact ⟨rfl, rfl, hxy⟩
      | _ => exact absurd (List.cons.inj heq).1 hb
  | short h =>
      cases h' with
      | plain hc' hq' hb' => exact absurd (List.cons.inj heq).1.symm hb'
      | short h' =>
          simp only [List.cons_append, List.nil_append, List.cons.injEq,
            true_and] at heq
          obtain ⟨rfl, hxy⟩ := heq
          exact ⟨rfl, Option.some.inj (h.symm.trans h'), hxy⟩
      | _ =>
          simp only [List.cons_append, List.cons.injEq, true_and] at heq
          obtain ⟨rfl, -⟩ := heq
          cases h
  | @unit t n h hn =>
      cases h' with
      | plain hc' hq' hb' => exact absurd (List.cons.inj heq).1.symm hb'
      | short h' =>
          simp only [List.cons_append, List.cons.injEq, true_and] at heq
          obtain ⟨rfl, -⟩ := heq
          cases h'
      | @unit t' n' h' hn' =>
          simp only [List.cons_append, List.cons.injEq, true_and] at heq
          obtain ⟨rfl, hxy⟩ := hexUnit_cut h h' heq
          rw [h] at h'
          cases h'
          exact ⟨rfl, rfl, hxy⟩
      | @pair t' t'' n' m' h' h'' hn' hm' =>
          simp only [List.cons_append, List.append_assoc, List.cons.injEq,
            true_and] at heq
          obtain ⟨rfl, -⟩ := hexUnit_cut h h' heq
          rw [h] at h'
          cases h'
          omega
  | @pair t u n m h hu hn hm =>
      cases h' with
      | plain hc' hq' hb' => exact absurd (List.cons.inj heq).1.symm hb'
      | short h' =>
          simp only [List.cons_append, List.cons.injEq, true_and] at heq
          obtain ⟨rfl, -⟩ := heq
          cases h'
      | @unit t' n' h' hn' =>
          simp only [List.cons_append, List.append_assoc, List.cons.injEq,
            true_and] at heq
          obtain ⟨rfl, -⟩ := hexUnit_cut h h' heq
          rw [h] at h'
          cases h'
          omega
      | @pair t' u' n' m' h' hu' hn' hm' =>
          simp only [List.cons_append, List.append_assoc, List.cons.injEq,
            true_and] at heq
          obtain ⟨rfl, htail⟩ := hexUnit_cut h h' heq
          simp only [List.cons.injEq, true_and] at htail
          obtain ⟨rfl, hxy⟩ := hexUnit_cut hu hu' htail
          rw [h] at h'
          rw [hu] at hu'
          cases h'
          cases hu'
          exact ⟨rfl, rfl, hxy⟩

/-- No spelling begins with a quote. -/
theorem Spells.head_ne (h : Spells t c) :
    t ++ x ≠ '"' :: y := by
  intro heq
  cases h with
  | plain hc hq hb => exact hq (List.cons.inj heq).1
  | short h => exact absurd (List.cons.inj heq).1 (by decide)
  | unit h hn => exact absurd (List.cons.inj heq).1 (by decide)
  | pair h h' hn hm => exact absurd (List.cons.inj heq).1 (by decide)

/-- The inside of a string ends at its first quote that is not spelled. -/
theorem Body.unique {k k' s s' : List Char} (h : Body k s)
    (h' : Body k' s') (heq : k ++ '"' :: x = k' ++ '"' :: y) :
    k = k' ∧ s = s' ∧ x = y := by
  induction h generalizing k' s' with
  | nil =>
      cases h' with
      | nil => exact ⟨rfl, rfl, (List.cons.inj heq).2⟩
      | cons hc hrest =>
          rw [List.append_assoc] at heq
          exact absurd heq.symm hc.head_ne
  | cons hc _ ih =>
      cases h' with
      | nil =>
          rw [List.append_assoc] at heq
          exact absurd heq hc.head_ne
      | cons hc' hrest' =>
          rw [List.append_assoc, List.append_assoc] at heq
          obtain ⟨rfl, rfl, heq⟩ := hc.unique hc' heq
          obtain ⟨rfl, rfl, hxy⟩ := ih hrest' heq
          exact ⟨rfl, rfl, hxy⟩

-- ============================= numbers

/-- A number's text has a character, and all of them are a number's. -/
theorem Numeral.chars {n : JsonNumber} (h : Numeral canon t n) :
    t ≠ [] ∧ ∀ c ∈ t, NumberChar c := by
  cases h with
  | @posInt n h =>
      exact ⟨Nat.toDigits_ne_nil, numberText_chars (n := .posInt n) h⟩
  | @negInt n h h' =>
      refine ⟨?_, numberText_chars (n := .negInt n) ⟨h, h'⟩⟩
      obtain ⟨m, hm⟩ := Int.eq_ofNat_of_zero_le (show 0 ≤ -n by omega)
      rw [show n = -(m : Int) by omega, numberText, toString_neg (by omega)]
      exact List.cons_ne_nil _ _
  | float h hpos hneg =>
      refine ⟨?_, numberTexts_chars t h⟩
      rintro rfl
      obtain ⟨a, ha, b, -, hab⟩ := Language.mem_mul.mp h
      obtain ⟨rfl, -⟩ := List.append_eq_nil_iff.mp hab
      obtain ⟨a, ha, b, -, hab⟩ := Language.mem_mul.mp ha
      obtain ⟨rfl, -⟩ := List.append_eq_nil_iff.mp hab
      obtain ⟨a, -, u, hu, hab⟩ := Language.mem_mul.mp ha
      obtain ⟨-, rfl⟩ := List.append_eq_nil_iff.mp hab
      rcases (Language.mem_add _ _ _).mp hu with hzero | hnz
      · cases hzero
      · obtain ⟨_, ⟨c, rfl, -⟩, _, -, hcons⟩ := Language.mem_mul.mp hnz
        cases hcons

theorem toDigits_inj {n m : Nat} (h : Nat.toDigits 10 n = Nat.toDigits 10 m) :
    n = m := by
  have hn := Nat.ofDigitChars_toDigits (b := 10) (n := n) (by decide) (by decide)
  rw [h, Nat.ofDigitChars_toDigits (by decide) (by decide)] at hn
  exact hn.symm

theorem negText {n : Int} (h : n < 0) :
    numberText (.negInt n) = '-' :: Nat.toDigits 10 n.natAbs := by
  obtain ⟨m, hm⟩ := Int.eq_ofNat_of_zero_le (show 0 ≤ -n by omega)
  have hn : n = -(m : Int) := by omega
  rw [hn, numberText, toString_neg (by omega), Int.natAbs_neg, Int.natAbs_natCast]

/-- A text is that of one number. -/
theorem Numeral.unique {n n' : JsonNumber}
    (h : Numeral canon t n) (h' : Numeral canon t n') : n = n' := by
  have hsign : ∀ {n : Nat} {m : Int}, m < 0 →
      numberText (.posInt n) ≠ numberText (.negInt m) := by
    intro n m hm heq
    rw [negText hm, numberText] at heq
    have hdigit := Nat.isDigit_of_mem_toDigits (b := 10) (n := n) (c := '-')
      (by decide) (by decide) (heq ▸ List.mem_cons_self)
    exact absurd hdigit (by decide)
  generalize ht : t = t' at h'
  cases h with
  | @posInt n h =>
      cases h' with
      | posInt h' => exact congrArg _ (toDigits_inj ht)
      | negInt h' hneg => exact absurd ht (hsign hneg)
      | float htext hpos hneg => exact absurd ht.symm (hpos n h)
  | @negInt n h hn =>
      cases h' with
      | posInt h' => exact absurd ht.symm (hsign hn)
      | @negInt n' h' hn' =>
          rw [negText hn, negText hn', List.cons.injEq] at ht
          have habs := toDigits_inj ht.2
          exact congrArg _ (by omega)
      | float htext hpos hneg => exact absurd ht.symm (hneg n h hn)
  | float htext hpos hneg =>
      cases h' with
      | posInt h' => exact absurd ht (hpos _ h')
      | negInt h' hn' => exact absurd ht (hneg _ h' hn')
      | float _ _ _ => rw [ht]

-- ============================== values

/-- What a character begins: a value of one kind, a blank, or nothing. -/
def kindOf (c : Char) : Nat :=
  if c = 'n' then 1 else if c = 't' then 2 else if c = 'f' then 3
  else if c = '"' then 4 else if c = '[' then 5 else if c = '{' then 6
  else if c = ' ' ∨ c = '\t' ∨ c = '\n' ∨ c = '\r' then 7
  else if c = ',' ∨ c = ':' ∨ c = ']' ∨ c = '}' then 8
  else 0

/-- The kind of a value. -/
def kind : Json → Nat
  | .null => 1
  | .bool true => 2
  | .bool false => 3
  | .string _ => 4
  | .array _ => 5
  | .object _ => 6
  | .number _ => 0

theorem kindOf_number (h : NumberChar c) : kindOf c = 0 := by
  have hne : ∀ d, ¬ (d.isDigit = true ∨ d ∈ ['-', '.', 'e', 'E', '+']) → c ≠ d :=
    fun d hd heq => hd (heq ▸ h)
  have hblank : ¬ (c = ' ' ∨ c = '\t' ∨ c = '\n' ∨ c = '\r') := by
    rintro (h | h | h | h) <;> exact hne _ (by decide) h
  have hmark : ¬ (c = ',' ∨ c = ':' ∨ c = ']' ∨ c = '}') := by
    rintro (h | h | h | h) <;> exact hne _ (by decide) h
  rw [kindOf, if_neg (hne _ (by decide)), if_neg (hne _ (by decide)),
    if_neg (hne _ (by decide)), if_neg (hne _ (by decide)),
    if_neg (hne _ (by decide)), if_neg (hne _ (by decide)), if_neg hblank,
    if_neg hmark]

theorem kind_lt (v : Json) : kind v < 7 := by
  cases v with
  | bool b => cases b <;> decide
  | _ => simp only [kind]; omega

/-- A text begins with its value's kind. -/
theorem Reads.head (h : Reads canon t v) :
    ∃ c rest, t = c :: rest ∧ kindOf c = kind v := by
  cases h with
  | number h =>
      obtain ⟨hne, hchars⟩ := h.chars
      obtain ⟨c, rest, rfl⟩ := List.exists_cons_of_ne_nil hne
      exact ⟨c, rest, rfl, kindOf_number (hchars c List.mem_cons_self)⟩
  | _ => exact ⟨_, _, rfl, rfl⟩

theorem Reads.head_lt (h : Reads canon t v) :
    ∃ c rest, t = c :: rest ∧ kindOf c < 7 := by
  obtain ⟨c, rest, rfl, hc⟩ := h.head
  exact ⟨c, rest, rfl, hc ▸ kind_lt v⟩

/-- So do the items of an array. -/
theorem ReadsItems.head {xs : List Json}
    (h : ReadsItems canon t xs) : ∃ c rest, t = c :: rest ∧ kindOf c < 7 := by
  cases h with
  | last h => exact h.head_lt
  | cons h hw hw' h' =>
      obtain ⟨c, rest, rfl, hc⟩ := h.head_lt
      exact ⟨c, _, rfl, hc⟩

/-- And the members of an object. -/
theorem ReadsMembers.head {members : List (List Char × Json)}
    (h : ReadsMembers canon t members) :
    ∃ c rest, t = c :: rest ∧ kindOf c < 7 := by
  cases h with
  | last hk hw hw' h => exact ⟨'"', _, rfl, by decide⟩
  | cons hk hw hw' h hv hv' h' => exact ⟨'"', _, rfl, by decide⟩

/-- What may stand behind a value: no more of a number. -/
def Ends (r : List Char) : Prop := ∀ c ∈ r.head?, kindOf c ≠ 0

/-- Blanks end at what is none. -/
theorem blanks_cut {c' : Char} (hw : w ∈ blanks)
    (hw' : w' ∈ blanks) (hc : kindOf c ≠ 7) (hc' : kindOf c' ≠ 7)
    (heq : w ++ c :: x = w' ++ c' :: y) : w = w' ∧ c = c' ∧ x = y := by
  have hnot : ∀ {d : Char}, kindOf d ≠ 7 →
      ¬ (d = ' ' ∨ d = '\t' ∨ d = '\n' ∨ d = '\r') := by
    rintro d hd (rfl | rfl | rfl | rfl) <;> exact hd (by decide)
  obtain ⟨rfl, hcons⟩ := run_unique hw hw'
    (fun d hd => by cases hd; exact hnot hc)
    (fun d hd => by cases hd; exact hnot hc') heq
  obtain ⟨rfl, rfl⟩ := List.cons.inj hcons
  exact ⟨rfl, rfl, rfl⟩

/-- Behind blanks a mark ends a value. -/
theorem ends_mark (hw : w ∈ blanks)
    (hc : kindOf c ≠ 0) : Ends (w ++ c :: x) := by
  intro d hd
  cases w with
  | nil =>
      cases hd
      exact hc
  | cons b w =>
      cases hd
      rcases hw _ List.mem_cons_self with rfl | rfl | rfl | rfl <;> decide

/-- Behind a list stands its closing bracket. -/
def Closes (r : List Char) : Prop :=
  ∃ w c x, r = w ++ c :: x ∧ w ∈ blanks ∧ (c = ']' ∨ c = '}')

theorem Closes.ends (h : Closes r) : Ends r := by
  obtain ⟨w, c, x, rfl, hw, rfl | rfl⟩ := h
  · exact ends_mark hw (by decide)
  · exact ends_mark hw (by decide)

/-- A list that is closed does not go on. -/
theorem Closes.not_comma (h : Closes r) (hw : w ∈ blanks) :
    r ≠ w ++ ',' :: x := by
  intro heq
  obtain ⟨w', c, x', rfl, hw', hc⟩ := h
  have hkind : kindOf c ≠ 7 := by
    rcases hc with rfl | rfl <;> decide
  obtain ⟨-, rfl, -⟩ := blanks_cut hw' hw hkind (by decide) heq
  rcases hc with h | h <;> exact absurd h (by decide)

/-- Values whose texts begin alike are of one kind. -/
theorem Reads.kind_eq {v' : Json}
    (h : Reads canon t v) (h' : Reads canon t' v') (heq : t ++ r = t' ++ r') :
    kind v = kind v' := by
  obtain ⟨c, rest, rfl, hc⟩ := h.head
  obtain ⟨c', rest', rfl, hc'⟩ := h'.head
  obtain ⟨rfl, -⟩ := List.cons.inj heq
  exact hc.symm.trans hc'

/-- A list in brackets: what is between them, and the blanks around it. -/
theorem bracket_cut {o e : Char} {z z' : List Char} (hw : w ∈ blanks)
    (hw' : w' ∈ blanks) (ht : ∃ c rest, t = c :: rest ∧ kindOf c < 7)
    (ht' : ∃ c rest, t' = c :: rest ∧ kindOf c < 7)
    (heq : o :: w ++ t ++ z ++ [e] ++ r = o :: w' ++ t' ++ z' ++ [e] ++ r') :
    w = w' ∧ t ++ (z ++ e :: r) = t' ++ (z' ++ e :: r') := by
  obtain ⟨c, rest, rfl, hc⟩ := ht
  obtain ⟨c', rest', rfl, hc'⟩ := ht'
  simp only [List.cons_append, List.append_assoc, List.cons.injEq, true_and,
    List.nil_append] at heq
  obtain ⟨rfl, rfl, hrest⟩ := blanks_cut hw hw' (by omega) (by omega) heq
  exact ⟨rfl, congrArg (c :: ·) hrest⟩

/-- An empty list in brackets: the blanks in it. -/
theorem nil_cut {o e : Char} (hw : w ∈ blanks)
    (hw' : w' ∈ blanks) (he : kindOf e = 8)
    (heq : o :: w ++ [e] ++ r = o :: w' ++ [e] ++ r') : w = w' ∧ r = r' := by
  simp only [List.cons_append, List.append_assoc, List.cons.injEq, true_and,
    List.nil_append] at heq
  obtain ⟨rfl, -, hrest⟩ := blanks_cut hw hw' (by omega) (by omega) heq
  exact ⟨rfl, hrest⟩

/-- An empty list is not one with a text between its brackets. -/
theorem bracket_nil {o e : Char} {z : List Char}
    (he : kindOf e = 8) (hw : w ∈ blanks) (hw' : w' ∈ blanks)
    (ht : ∃ c rest, t = c :: rest ∧ kindOf c < 7) :
    o :: w ++ [e] ++ r ≠ o :: w' ++ t ++ z ++ [e] ++ r' := by
  intro heq
  obtain ⟨c, rest, rfl, hc⟩ := ht
  simp only [List.cons_append, List.append_assoc, List.cons.injEq, true_and,
    List.nil_append] at heq
  obtain ⟨-, rfl, -⟩ := blanks_cut hw hw' (by omega) (by omega) heq
  omega

theorem comma_assoc :
    t ++ w ++ ',' :: w' ++ t' ++ r = t ++ (w ++ ',' :: (w' ++ (t' ++ r))) := by
  simp

/-- A comma: the blanks around it, and what is behind. -/
theorem comma_cut {v v' : List Char} (hw : w ∈ blanks)
    (hv : v ∈ blanks) (hw' : w' ∈ blanks) (hv' : v' ∈ blanks)
    (ht : ∃ c rest, t = c :: rest ∧ kindOf c < 7)
    (ht' : ∃ c rest, t' = c :: rest ∧ kindOf c < 7)
    (heq : w ++ ',' :: (w' ++ (t ++ r)) = v ++ ',' :: (v' ++ (t' ++ r'))) :
    w = v ∧ w' = v' ∧ t ++ r = t' ++ r' := by
  obtain ⟨c, rest, rfl, hc⟩ := ht
  obtain ⟨c', rest', rfl, hc'⟩ := ht'
  obtain ⟨rfl, -, hbehind⟩ := blanks_cut hw hv (by decide) (by decide) heq
  obtain ⟨rfl, rfl, hrest⟩ := blanks_cut hw' hv' (by omega) (by omega) hbehind
  exact ⟨rfl, rfl, congrArg (c :: ·) hrest⟩

/-- A member: its key, the blanks around the colon, and its value. -/
theorem key_cut {k k' s s' v v' : List Char} (hk : Body k s)
    (hk' : Body k' s') (hw : w ∈ blanks) (hv : v ∈ blanks) (hw' : w' ∈ blanks)
    (hv' : v' ∈ blanks) (ht : ∃ c rest, t = c :: rest ∧ kindOf c < 7)
    (ht' : ∃ c rest, t' = c :: rest ∧ kindOf c < 7)
    (heq : '"' :: k ++ '"' :: w ++ ':' :: w' ++ t ++ r
      = '"' :: k' ++ '"' :: v ++ ':' :: v' ++ t' ++ r') :
    k = k' ∧ s = s' ∧ w = v ∧ w' = v' ∧ t ++ r = t' ++ r' := by
  obtain ⟨c, rest, rfl, hc⟩ := ht
  obtain ⟨c', rest', rfl, hc'⟩ := ht'
  simp only [List.cons_append, List.append_assoc, List.cons.injEq, true_and]
    at heq
  obtain ⟨rfl, rfl, hcolon⟩ := hk.unique hk' heq
  obtain ⟨rfl, -, hbehind⟩ := blanks_cut hw hv (by decide) (by decide) hcolon
  obtain ⟨rfl, rfl, hrest⟩ := blanks_cut hw' hv' (by omega) (by omega) hbehind
  exact ⟨rfl, rfl, rfl, rfl, congrArg (c :: ·) hrest⟩

mutual

/-- Of two texts of values before the same rest, both are one text, and it
stands for one value. -/
theorem Reads.unique : ∀ {t t' r r' : List Char} {v v' : Json},
    Reads canon t v → Reads canon t' v' → t ++ r = t' ++ r' → Ends r → Ends r' →
    t = t' ∧ v = v' ∧ r = r'
  | _, _, _, _, _, _, .null, h', heq, _, _ => by
      have hkind := Reads.null.kind_eq h' heq
      cases h' with
      | null => exact ⟨rfl, rfl, List.append_cancel_left heq⟩
      | _ => simp [kind] at hkind
  | _, _, _, _, _, _, .true, h', heq, _, _ => by
      have hkind := Reads.true.kind_eq h' heq
      cases h' with
      | true => exact ⟨rfl, rfl, List.append_cancel_left heq⟩
      | _ => simp [kind] at hkind
  | _, _, _, _, _, _, .false, h', heq, _, _ => by
      have hkind := Reads.false.kind_eq h' heq
      cases h' with
      | false => exact ⟨rfl, rfl, List.append_cancel_left heq⟩
      | _ => simp [kind] at hkind
  | _, _, _, _, _, _, .number h, h', heq, hr, hr' => by
      have hkind := (Reads.number h).kind_eq h' heq
      cases h' with
      | number h' =>
          obtain ⟨rfl, hrest⟩ := run_unique h.chars.2 h'.chars.2
            (fun c hc hnum => hr c hc (kindOf_number hnum))
            (fun c hc hnum => hr' c hc (kindOf_number hnum)) heq
          exact ⟨rfl, congrArg _ (h.unique h'), hrest⟩
      | _ => simp [kind] at hkind
  | _, _, _, _, _, _, .string h, h', heq, _, _ => by
      have hkind := (Reads.string h).kind_eq h' heq
      cases h' with
      | string h' =>
          simp only [List.cons_append, List.append_assoc, List.cons.injEq,
            true_and, List.nil_append] at heq
          obtain ⟨rfl, rfl, hrest⟩ := h.unique h' heq
          exact ⟨rfl, rfl, hrest⟩
      | _ => simp [kind] at hkind
  | _, _, _, _, _, _, .arrayNil hw, h', heq, _, _ => by
      have hread : Reads canon _ (array []) := .arrayNil hw
      have hkind := hread.kind_eq h' heq
      cases h' with
      | arrayNil hw' =>
          obtain ⟨rfl, hrest⟩ := nil_cut hw hw' rfl heq
          exact ⟨rfl, rfl, hrest⟩
      | array hv h' hv' => exact absurd heq (bracket_nil rfl hw hv h'.head)
      | _ => simp [kind] at hkind
  | _, _, _, _, _, _, .array hw h hw', h', heq, _, _ => by
      have hkind := (Reads.array hw h hw').kind_eq h' heq
      cases h' with
      | arrayNil hv => exact absurd heq.symm (bracket_nil rfl hv hw h.head)
      | array hv h' hv' =>
          obtain ⟨rfl, htext⟩ := bracket_cut hw hv h.head h'.head heq
          obtain ⟨rfl, rfl, hrest⟩ := ReadsItems.unique h h' htext
            ⟨_, _, _, rfl, hw', .inl rfl⟩ ⟨_, _, _, rfl, hv', .inl rfl⟩
          obtain ⟨rfl, -, hrest⟩ := blanks_cut hw' hv' (by decide) (by decide) hrest
          exact ⟨rfl, rfl, hrest⟩
      | _ => simp [kind] at hkind
  | _, _, _, _, _, _, .objectNil hw, h', heq, _, _ => by
      have hread : Reads canon _ (object []) := .objectNil hw
      have hkind := hread.kind_eq h' heq
      cases h' with
      | objectNil hw' =>
          obtain ⟨rfl, hrest⟩ := nil_cut hw hw' rfl heq
          exact ⟨rfl, rfl, hrest⟩
      | object hv h' hv' => exact absurd heq (bracket_nil rfl hw hv h'.head)
      | _ => simp [kind] at hkind
  | _, _, _, _, _, _, .object hw h hw', h', heq, _, _ => by
      have hkind := (Reads.object hw h hw').kind_eq h' heq
      cases h' with
      | objectNil hv => exact absurd heq.symm (bracket_nil rfl hv hw h.head)
      | object hv h' hv' =>
          obtain ⟨rfl, htext⟩ := bracket_cut hw hv h.head h'.head heq
          obtain ⟨rfl, rfl, hrest⟩ := ReadsMembers.unique h h' htext
            ⟨_, _, _, rfl, hw', .inr rfl⟩ ⟨_, _, _, rfl, hv', .inr rfl⟩
          obtain ⟨rfl, -, hrest⟩ := blanks_cut hw' hv' (by decide) (by decide) hrest
          exact ⟨rfl, rfl, hrest⟩
      | _ => simp [kind] at hkind

theorem ReadsItems.unique : ∀ {t t' r r' : List Char} {xs xs' : List Json},
    ReadsItems canon t xs → ReadsItems canon t' xs' → t ++ r = t' ++ r' →
    Closes r → Closes r' → t = t' ∧ xs = xs' ∧ r = r'
  | _, _, _, _, _, _, .last h, h', heq, hr, hr' => by
      cases h' with
      | last h' =>
          obtain ⟨rfl, rfl, hrest⟩ := Reads.unique h h' heq hr.ends hr'.ends
          exact ⟨rfl, rfl, hrest⟩
      | cons h' hw hw' _ =>
          rw [comma_assoc] at heq
          obtain ⟨-, -, hrest⟩ :=
            Reads.unique h h' heq hr.ends (ends_mark hw (by decide))
          exact absurd hrest (hr.not_comma hw)
  | _, _, _, _, _, _, .cons h hw hw' hs, h', heq, hr, hr' => by
      rw [comma_assoc] at heq
      cases h' with
      | last h' =>
          obtain ⟨-, -, hrest⟩ :=
            Reads.unique h h' heq (ends_mark hw (by decide)) hr'.ends
          exact absurd hrest.symm (hr'.not_comma hw)
      | cons h' hv hv' hs' =>
          rw [comma_assoc] at heq
          obtain ⟨rfl, rfl, hcomma⟩ := Reads.unique h h' heq
            (ends_mark hw (by decide)) (ends_mark hv (by decide))
          obtain ⟨rfl, rfl, hitems⟩ := comma_cut hw hv hw' hv' hs.head hs'.head hcomma
          obtain ⟨rfl, rfl, hrest⟩ := ReadsItems.unique hs hs' hitems hr hr'
          exact ⟨rfl, rfl, hrest⟩

theorem ReadsMembers.unique : ∀ {t t' r r' : List Char}
    {members members' : List (List Char × Json)},
    ReadsMembers canon t members → ReadsMembers canon t' members' →
    t ++ r = t' ++ r' → Closes r → Closes r' →
    t = t' ∧ members = members' ∧ r = r'
  | _, _, _, _, _, _, .last hk hw hw' h, h', heq, hr, hr' => by
      cases h' with
      | last hk' hv hv' h' =>
          obtain ⟨rfl, rfl, rfl, rfl, hvalue⟩ :=
            key_cut hk hk' hw hv hw' hv' h.head_lt h'.head_lt heq
          obtain ⟨rfl, rfl, hrest⟩ := Reads.unique h h' hvalue hr.ends hr'.ends
          exact ⟨rfl, rfl, hrest⟩
      | cons hk' hv hv' h' hz hz' _ =>
          rw [comma_assoc] at heq
          obtain ⟨rfl, rfl, rfl, rfl, hvalue⟩ :=
            key_cut hk hk' hw hv hw' hv' h.head_lt h'.head_lt heq
          obtain ⟨-, -, hrest⟩ :=
            Reads.unique h h' hvalue hr.ends (ends_mark hz (by decide))
          exact absurd hrest (hr.not_comma hz)
  | _, _, _, _, _, _, .cons hk hw hw' h hy hy' hs, h', heq, hr, hr' => by
      rw [comma_assoc] at heq
      cases h' with
      | last hk' hv hv' h' =>
          obtain ⟨rfl, rfl, rfl, rfl, hvalue⟩ :=
            key_cut hk hk' hw hv hw' hv' h.head_lt h'.head_lt heq
          obtain ⟨-, -, hrest⟩ :=
            Reads.unique h h' hvalue (ends_mark hy (by decide)) hr'.ends
          exact absurd hrest.symm (hr'.not_comma hy)
      | cons hk' hv hv' h' hz hz' hs' =>
          rw [comma_assoc] at heq
          obtain ⟨rfl, rfl, rfl, rfl, hvalue⟩ :=
            key_cut hk hk' hw hv hw' hv' h.head_lt h'.head_lt heq
          obtain ⟨rfl, rfl, hcomma⟩ := Reads.unique h h' hvalue
            (ends_mark hy (by decide)) (ends_mark hz (by decide))
          obtain ⟨rfl, rfl, hmembers⟩ :=
            comma_cut hy hz hy' hz' hs.head hs'.head hcomma
          obtain ⟨rfl, rfl, hrest⟩ := ReadsMembers.unique hs hs' hmembers hr hr'
          exact ⟨rfl, rfl, hrest⟩

end

/-- A text is that of one value. -/
theorem Reads.value_unique {v' : Json}
    (h : Reads canon t v) (h' : Reads canon t v') : v = v' :=
  (h.unique (r := []) h' rfl (fun _ hc => nomatch hc)
    fun _ hc => nomatch hc).2.1

end Minfer.Lib.Json
