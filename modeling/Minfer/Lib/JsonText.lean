/-
The texts of JSON values (RFC 8259): what a text stands for, and the compact
text `serde_json` writes.

The value of a number text outside the 64-bit integers is a float, which is
kept as its shortest text; `canon` is what a float text is normalised to.
-/
import Mathlib.Algebra.Group.Int.Defs
import Mathlib.Computability.Language
import Minfer.Lib.Json

namespace Minfer.Lib.Json

-- ============================= strings

/-- The escapes of one letter. -/
def shortEscape : Char → Option Char
  | '"' => some '"'
  | '\\' => some '\\'
  | '/' => some '/'
  | 'b' => some (Char.ofNat 0x08)
  | 'f' => some (Char.ofNat 0x0C)
  | 'n' => some '\n'
  | 'r' => some '\r'
  | 't' => some '\t'
  | _ => none

/-- The value of a hexadecimal digit. -/
def hexDigit (c : Char) : Option Nat :=
  if '0' ≤ c ∧ c ≤ '9' then some (c.toNat - 48)
  else if 'a' ≤ c ∧ c ≤ 'f' then some (c.toNat - 87)
  else if 'A' ≤ c ∧ c ≤ 'F' then some (c.toNat - 55)
  else none

/-- The value of four hexadecimal digits. -/
def hexUnit : List Char → Option Nat
  | [a, b, c, d] => do
      return 0x1000 * (← hexDigit a) + 0x100 * (← hexDigit b)
        + 0x10 * (← hexDigit c) + (← hexDigit d)
  | _ => none

/-- The spellings of a character inside a string. -/
inductive Spells : List Char → Char → Prop where
  | plain {c : Char} (hc : 0x20 ≤ c.toNat) (hq : c ≠ '"') (hb : c ≠ '\\') :
      Spells [c] c
  | short {e c : Char} (h : shortEscape e = some c) : Spells ['\\', e] c
  | unit {t : List Char} {n : Nat} (h : hexUnit t = some n)
      (hn : n < 0xD800 ∨ 0xDFFF < n) :
      Spells ('\\' :: 'u' :: t) (Char.ofNat n)
  | pair {t t' : List Char} {n m : Nat} (h : hexUnit t = some n)
      (h' : hexUnit t' = some m)
      (hn : 0xD800 ≤ n ∧ n < 0xDC00) (hm : 0xDC00 ≤ m ∧ m < 0xE000) :
      Spells ('\\' :: 'u' :: t ++ '\\' :: 'u' :: t')
        (Char.ofNat (0x10000 + (n - 0xD800) * 0x400 + (m - 0xDC00)))

/-- The inside of a string text. -/
inductive Body : List Char → List Char → Prop where
  | nil : Body [] []
  | cons {t rest : List Char} {c : Char} {s : List Char} (h : Spells t c)
      (h' : Body rest s) :
      Body (t ++ rest) (c :: s)

-- ============================= numbers

/-- One character of a kind. -/
def one (p : Char → Bool) : Language Char := {t | ∃ c : Char, t = [c] ∧ p c = true}

def digits : Language Char := one Char.isDigit * KStar.kstar (one Char.isDigit)

/-- The texts of numbers. -/
def numberTexts : Language Char :=
  (1 + {['-']})
    * ({['0']} + one (fun c => c.isDigit && c ≠ '0') * KStar.kstar
      (one Char.isDigit))
    * (1 + {['.']} * digits)
      * (1 + one (fun c => c = 'e' || c = 'E')
        * (1 + one (fun c => c = '+' || c = '-')) * digits)

/-- The text of a number. -/
def numberText : JsonNumber → List Char
  | .posInt n => Nat.toDigits 10 n
  | .negInt n => (toString n).toList
  | .float text => text

/-- A natural number is printed as its decimal digits. -/
theorem toString_ofNat (n : Nat) :
    (toString (n : Int)).toList = Nat.toDigits 10 n := by
  show (Nat.repr n).toList = _
  simp [Nat.repr]

/-- A negative number is a minus sign and the digits of its amount. -/
theorem toString_neg {n : Nat} (h : 0 < n) :
    (toString (-(n : Int))).toList = '-' :: Nat.toDigits 10 n := by
  obtain ⟨m, rfl⟩ := Nat.exists_eq_add_of_le' h
  show ("-" ++ Nat.repr (m + 1)).toList = _
  simp [Nat.repr]

/-- A number that is what it says: an integer in its range, or the text of a
number that is not an integer in range. -/
def NumberWf : JsonNumber → Prop
  | .posInt n => n < 2 ^ 64
  | .negInt n => -2 ^ 63 ≤ n ∧ n < 0
  | .float text => text ∈ numberTexts
      ∧ (∀ n < 2 ^ 64, text ≠ numberText (.posInt n))
      ∧ ∀ n : Int, -2 ^ 63 ≤ n → n < 0 → text ≠ numberText (.negInt n)

section

variable {p : Char → Prop} {L M : Language Char}

/-- All characters of the texts are of a kind. -/
def Chars (p : Char → Prop) (L : Language Char) : Prop := ∀ t ∈ L, ∀ c ∈ t, p c

/-- The empty text has no character to object to. -/
theorem Chars.empty : Chars p 1 := by
  intro t ht c hc
  rw [(Language.mem_one t).mp ht] at hc
  exact absurd hc List.not_mem_nil

/-- Either of two languages over the same characters. -/
theorem Chars.add (h : Chars p L) (h' : Chars p M) : Chars p (L + M) := by
  intro t ht
  exact ((Language.mem_add _ _ _).mp ht).elim (h t) (h' t)

/-- One text after another. -/
theorem Chars.mul (h : Chars p L) (h' : Chars p M) : Chars p (L * M) := by
  intro t ht c hc
  obtain ⟨a, ha, b, hb, rfl⟩ := Language.mem_mul.mp ht
  exact (List.mem_append.mp hc).elim (h a ha c) (h' b hb c)

/-- Any number of texts, one after another. -/
theorem Chars.star (h : Chars p L) : Chars p (KStar.kstar L) := by
  intro t ht c hc
  obtain ⟨S, rfl, hS⟩ := Language.mem_kstar.mp ht
  obtain ⟨a, ha, hc⟩ := List.mem_flatten.mp hc
  exact h a (hS a ha) c hc

/-- A single character of a kind. -/
theorem Chars.one {q : Char → Bool} (h : ∀ c, q c = true → p c) :
    Chars p (one q) := by
  intro t ht c hc
  obtain ⟨d, rfl, hd⟩ := ht
  rw [List.mem_singleton.mp hc]
  exact h d hd

/-- One given character. -/
theorem Chars.single {c : Char} (h : p c) : Chars p {[c]} := by
  intro t ht d hd
  rw [show t = [c] from ht] at hd
  rw [List.mem_singleton.mp hd]
  exact h

end

/-- A character of a number's text. -/
def NumberChar (c : Char) : Prop := c.isDigit = true ∨ c ∈ ['-', '.', 'e', 'E', '+']

/-- A number is written with digits, signs, a point and an exponent mark. -/
theorem numberTexts_chars : Chars NumberChar numberTexts := by
  have hdigit : Chars NumberChar (one Char.isDigit) := .one fun c hc => .inl hc
  have hsign : Chars NumberChar (1 + {['-']}) :=
    .add .empty (.single (.inr (by decide)))
  have hdigits : Chars NumberChar digits := .mul hdigit (.star hdigit)
  refine .mul (.mul
    (.mul hsign (.add (.single (.inl rfl))
      (.mul (.one fun c hc => .inl ?_) (.star hdigit))))
    (.add .empty (.mul (.single (.inr (by decide))) hdigits)))
    (.add .empty
      (.mul (.mul (.one fun c hc => .inr ?_)
        (.add .empty (.one fun c hc => .inr ?_))) hdigits))
  · exact (Bool.and_eq_true_iff.mp hc).1
  · simp only [Bool.or_eq_true, decide_eq_true_eq] at hc
    rcases hc with rfl | rfl <;> decide
  · simp only [Bool.or_eq_true, decide_eq_true_eq] at hc
    rcases hc with rfl | rfl <;> decide

/-- A number's text is made of a number's characters. -/
theorem numberText_chars {n : JsonNumber} (h : NumberWf n) :
    ∀ c ∈ numberText n, NumberChar c := by
  intro c hc
  cases n with
  | posInt n => exact .inl (Nat.isDigit_of_mem_toDigits (by decide) (by decide) hc)
  | negInt n =>
      obtain ⟨m, hm⟩ := Int.eq_ofNat_of_zero_le (show 0 ≤ -n by have := h.2; omega)
      have hn : n = -(m : Int) := by omega
      rw [hn, numberText, toString_neg (by have := h.2; omega)] at hc
      rcases List.mem_cons.mp hc with rfl | hc
      · exact .inr (by decide)
      · exact .inl (Nat.isDigit_of_mem_toDigits (by decide) (by decide) hc)
  | float text => exact numberTexts_chars text h.1 c hc

variable (canon : List Char → List Char)

/-- The number of a text. -/
inductive Numeral : List Char → JsonNumber → Prop where
  | posInt {n : Nat} (h : n < 2 ^ 64) : Numeral (numberText (.posInt n)) (.posInt n)
  | negInt {n : Int} (h : -2 ^ 63 ≤ n) (h' : n < 0) :
      Numeral (numberText (.negInt n)) (.negInt n)
  | float {text : List Char} (h : text ∈ numberTexts)
      (hpos : ∀ n < 2 ^ 64, text ≠ numberText (.posInt n))
      (hneg : ∀ n : Int, -2 ^ 63 ≤ n → n < 0 → text ≠ numberText (.negInt n)) :
      Numeral text (.float (canon text))

/-- A number read again from its text: a float may come out as another one. -/
def rereadNumber : JsonNumber → JsonNumber
  | .float text => .float (canon text)
  | n => n

variable {canon} in
/-- What a number's text is read as. -/
theorem numeral_numberText {n : JsonNumber} (h : NumberWf n) :
    Numeral canon (numberText n) (rereadNumber canon n) := by
  cases n with
  | posInt n => exact .posInt h
  | negInt n => exact .negInt h.1 h.2
  | float text => exact .float h.1 h.2.1 h.2.2

-- ============================== values

/-- Whitespace between tokens. -/
def blanks : Language Char := {t | ∀ c ∈ t, c = ' ' ∨ c = '\t' ∨ c = '\n' ∨ c = '\r'}

/-- `BTreeMap::insert`. -/
def insertMember (key : List Char) (v : Json) : List (List Char × Json) →
    List (List Char × Json)
  | [] => [(key, v)]
  | (key', v') :: rest =>
      if key = key' then (key, v) :: rest
      else if key < key' then (key, v) :: (key', v') :: rest
      else (key', v') :: insertMember key v rest

/-- The map of the members of a text, first to last. -/
def collect (members : List (List Char × Json)) : List (List Char × Json) :=
  members.foldl (fun map m => insertMember m.1 m.2 map) []

/-- A key above all the others goes to the end of the map. -/
theorem insertMember_last {key : List Char} {v : Json}
    {map : List (List Char × Json)} (h : ∀ m ∈ map, m.1 < key) :
    insertMember key v map = map ++ [(key, v)] := by
  induction map with
  | nil => rfl
  | cons m map ih =>
      obtain ⟨hm, hrest⟩ := List.forall_mem_cons.mp h
      have hne : key ≠ m.1 := fun heq => List.lt_irrefl _ (heq ▸ hm)
      rw [insertMember, if_neg hne, if_neg (List.lt_asymm hm), ih hrest]
      rfl

variable {members : List (List Char × Json)}

/-- Members in key order are the map they make. -/
theorem collect_sorted (h : members.Pairwise (·.1 < ·.1)) :
    collect members = members := by
  have hall : ∀ rest acc : List (List Char × Json),
      (acc ++ rest).Pairwise (·.1 < ·.1) →
      rest.foldl (fun map m => insertMember m.1 m.2 map) acc = acc ++ rest := by
    intro rest
    induction rest with
    | nil => simp
    | cons m rest ih =>
        intro acc hsorted
        have hlast : ∀ m' ∈ acc, m'.1 < m.1 := by
          intro m' hm'
          exact (List.pairwise_append.mp hsorted).2.2 m' hm' m List.mem_cons_self
        rw [List.foldl_cons, insertMember_last hlast, ih, List.append_assoc]
        · rfl
        · rwa [List.append_assoc]
  exact hall members [] h

mutual

/-- A text is that of a value. -/
inductive Reads : List Char → Json → Prop where
  | null : Reads "null".toList null
  | true : Reads "true".toList (bool Bool.true)
  | false : Reads "false".toList (bool Bool.false)
  | number {t : List Char} {n : JsonNumber} (h : Numeral canon t n) :
      Reads t (number n)
  | string {t s : List Char} (h : Body t s) : Reads ('"' :: t ++ ['"']) (string s)
  | arrayNil {w : List Char} (hw : w ∈ blanks) : Reads ('[' :: w ++ [']']) (array [])
  | array {w t w' : List Char} {xs : List Json} (hw : w ∈ blanks)
      (h : ReadsItems t xs) (hw' : w' ∈ blanks) :
      Reads ('[' :: w ++ t ++ w' ++ [']']) (array xs)
  | objectNil {w : List Char} (hw : w ∈ blanks) :
      Reads ('{' :: w ++ ['}']) (object [])
  | object {w t w' : List Char} {members : List (List Char × Json)} (hw : w ∈ blanks)
      (h : ReadsMembers t members) (hw' : w' ∈ blanks) :
      Reads ('{' :: w ++ t ++ w' ++ ['}']) (object (collect members))

/-- The items of an array, of which there is one at least. -/
inductive ReadsItems : List Char → List Json → Prop where
  | last {t : List Char} {x : Json} (h : Reads t x) : ReadsItems t [x]
  | cons {t w w' t' : List Char} {x : Json} {xs : List Json} (h : Reads t x)
      (hw : w ∈ blanks)
      (hw' : w' ∈ blanks) (h' : ReadsItems t' xs) :
        ReadsItems (t ++ w ++ ',' :: w' ++ t') (x :: xs)

/-- The members of an object, of which there is one at least. -/
inductive ReadsMembers : List Char → List (List Char × Json) → Prop where
  | last {k w w' t s : List Char} {x : Json} (hk : Body k s) (hw : w ∈ blanks)
      (hw' : w' ∈ blanks)
      (h : Reads t x) : ReadsMembers ('"' :: k ++ '"' :: w ++ ':' :: w' ++ t) [(s, x)]
  | cons {k w w' t v v' t' s : List Char} {x : Json}
      {members : List (List Char × Json)} (hk : Body k s)
      (hw : w ∈ blanks) (hw' : w' ∈ blanks) (h : Reads t x) (hv : v ∈ blanks)
        (hv' : v' ∈ blanks)
      (h' : ReadsMembers t' members) :
      ReadsMembers
        (('"' :: k ++ '"' :: w ++ ':' :: w' ++ t) ++ v ++ ',' :: v' ++ t')
        ((s, x) :: members)

end

mutual

/-- A value as the parser builds it: numbers in their ranges, members in key
order. -/
def Wf : Json → Prop
  | .number n => NumberWf n
  | .array xs => WfItems xs
  | .object members => members.Pairwise (·.1 < ·.1) ∧ WfMembers members
  | _ => True

def WfItems : List Json → Prop
  | [] => True
  | x :: xs => Wf x ∧ WfItems xs

def WfMembers : List (List Char × Json) → Prop
  | [] => True
  | (_, x) :: members => Wf x ∧ WfMembers members

end

mutual

/-- A value with its numbers read again from their texts. -/
def reread : Json → Json
  | .null => .null
  | .bool b => .bool b
  | .number n => .number (rereadNumber canon n)
  | .string s => .string s
  | .array xs => .array (rereadItems xs)
  | .object members => .object (rereadMembers members)

def rereadItems : List Json → List Json
  | [] => []
  | x :: xs => reread x :: rereadItems xs

def rereadMembers : List (List Char × Json) → List (List Char × Json)
  | [] => []
  | (k, x) :: members => (k, reread x) :: rereadMembers members

end

mutual

/-- Every float of a value is the one that its text is read as. -/
def ReadsBack : Json → Prop
  | .number (.float text) => canon text = text
  | .array xs => ReadsBackItems xs
  | .object members => ReadsBackMembers members
  | _ => True

def ReadsBackItems : List Json → Prop
  | [] => True
  | x :: xs => ReadsBack x ∧ ReadsBackItems xs

def ReadsBackMembers : List (List Char × Json) → Prop
  | [] => True
  | (_, x) :: members => ReadsBack x ∧ ReadsBackMembers members

end

variable {canon}

mutual

/-- Reading again changes nothing exactly where the floats are read back. -/
theorem reread_eq_iff : ∀ {v : Json}, reread canon v = v ↔ ReadsBack canon v
  | .null | .bool _ | .string _ => by simp only [reread, ReadsBack]
  | .number (.posInt _) | .number (.negInt _) => by
      simp only [reread, rereadNumber, ReadsBack]
  | .number (.float text) => by
      simp only [reread, rereadNumber, ReadsBack, number.injEq,
        JsonNumber.float.injEq]
  | .array xs => by
      simp only [reread, ReadsBack, array.injEq]
      exact rereadItems_eq_iff
  | .object members => by
      simp only [reread, ReadsBack, object.injEq]
      exact rereadMembers_eq_iff

/-- An array is read back as it was exactly when each item is. -/
theorem rereadItems_eq_iff : ∀ {xs : List Json},
    rereadItems canon xs = xs ↔ ReadsBackItems canon xs
  | [] => by simp only [rereadItems, ReadsBackItems]
  | x :: xs => by
      rw [rereadItems, ReadsBackItems, List.cons.injEq]
      exact and_congr reread_eq_iff rereadItems_eq_iff

/-- An object is read back as it was exactly when each value is and the keys
are in order. -/
theorem rereadMembers_eq_iff : ∀ {members : List (List Char × Json)},
    rereadMembers canon members = members ↔ ReadsBackMembers canon members
  | [] => by simp only [rereadMembers, ReadsBackMembers]
  | (k, x) :: members => by
      rw [rereadMembers, ReadsBackMembers, List.cons.injEq, Prod.mk.injEq]
      exact and_congr ((and_iff_right rfl).trans reread_eq_iff)
        rereadMembers_eq_iff

end

/-- The keys stay. -/
theorem keys_rereadMembers :
    (rereadMembers canon members).map (·.1) = members.map (·.1) := by
  induction members with
  | nil => rfl
  | cons m members ih =>
      obtain ⟨k, x⟩ := m
      rw [rereadMembers, List.map_cons, List.map_cons, ih]

/-- So does their order. -/
theorem sorted_rereadMembers (h : members.Pairwise (·.1 < ·.1)) :
    (rereadMembers canon members).Pairwise (·.1 < ·.1) := by
  rw [← List.pairwise_map (f := Prod.fst) (R := (· < ·))] at h ⊢
  rwa [keys_rereadMembers]

-- ======================= compact texts

/-- A character of a compact string. -/
def compactChar (c : Char) : List Char :=
  if c = '"' then ['\\', '"']
  else if c = '\\' then ['\\', '\\']
  else if c = Char.ofNat 0x08 then ['\\', 'b']
  else if c = Char.ofNat 0x0C then ['\\', 'f']
  else if c = '\n' then ['\\', 'n']
  else if c = '\r' then ['\\', 'r']
  else if c = '\t' then ['\\', 't']
  else if c.toNat < 0x20
    then "\\u00".toList
    ++ [Nat.digitChar (c.toNat / 16), Nat.digitChar (c.toNat % 16)]
  else [c]

def compactString (s : List Char) : List Char := '"' :: s.flatMap compactChar ++ ['"']

mutual

/-- `serde_json::to_string`. -/
def compact : Json → List Char
  | .null => "null".toList
  | .bool Bool.true => "true".toList
  | .bool Bool.false => "false".toList
  | .number n => numberText n
  | .string s => compactString s
  | .array xs => '[' :: compactItems xs ++ [']']
  | .object members => '{' :: compactMembers members ++ ['}']

def compactItems : List Json → List Char
  | [] => []
  | [x] => compact x
  | x :: xs => compact x ++ ',' :: compactItems xs

def compactMembers : List (List Char × Json) → List Char
  | [] => []
  | [(k, x)] => compactString k ++ ':' :: compact x
  | (k, x) :: members =>
      (compactString k ++ ':' :: compact x) ++ ',' :: compactMembers members

end

end Minfer.Lib.Json
