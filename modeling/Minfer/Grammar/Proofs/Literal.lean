/-
`const` and `enum` (`grammar.rs`): the texts of a literal's expression are
JSON texts of the value, its compact text among them, unless the value holds
an empty object, a character the compact text has a short escape for, or a
float that is not read back from its text as itself.

`sentences` is the set of texts the expression is read as. Outside strings it
differs from the compact text by whitespace and by the doubled braces of an
empty object, and inside them by the spelling of two characters; counting one
character of each shows that the difference cannot be made up elsewhere. A
text of the literal is read as the value with its floats read again, and as no
other one (`Reads.unique`), so a float that changes is a value that changes.
-/
import Minfer.Grammar.Proofs.Generic
import Minfer.Lib.JsonRead

namespace Minfer.Schema

open Minfer.Gbnf
open Minfer.Lib (Json)
open Minfer.Lib.Json
    (Reads ReadsItems ReadsMembers Body Spells blanks compact compactItems
      compactMembers
  compactString compactChar numberText)
open Minfer.Tokenize (Text)

-- =========================== sentences

/-- A character of a literal string. -/
def literalChar (c : Char) : Text :=
  if c = '"' then ['\\', '"']
  else if c = '\\' then ['\\', '\\']
  else if c = '\n' then ['\\', 'n']
  else if c = '\r' then ['\\', 'r']
  else if c = '\t' then ['\\', 't']
  else if c.toNat < 0x20 then ['\\', 'u'] ++ hexPadded c.toNat
  else [c]

/-- The text of a literal string. -/
def literalString (s : Text) : Text := '"' :: s.flatMap literalChar ++ ['"']

section

variable (ws : Language Char)

mutual

/-- The texts of a literal. -/
def sentences : Json → Language Char
  | .null => {"null".toList}
  | .bool true => {"true".toList}
  | .bool false => {"false".toList}
  | .number n => {numberText n}
  | .string s => {literalString s}
  | .array [] => {['[']} * ws * {[']']}
  | .array (x :: xs) => {['[']} * ws * sentencesItems (x :: xs) * ws * {[']']}
  | .object [] => {['{', '{']} * ws * {['}', '}']}
  | .object (m :: members) =>
      {['{']} * ws * sentencesMembers (m :: members) * ws * {['}']}

def sentencesItems : List Json → Language Char
  | [] => 1
  | [x] => sentences x
  | x :: xs => sentences x * ws * {[',']} * ws * sentencesItems xs

def sentencesMembers : List (Text × Json) → Language Char
  | [] => 1
  | [(k, x)] => {literalString k} * ws * {[':']} * ws * sentences x
  | (k, x) :: members =>
      ({literalString k} * ws * {[':']} * ws * sentences x) * ws * {[',']} * ws
        * sentencesMembers members

end

end

-- ========================= expressions

variable {cps : List Nat} {t : Text}

theorem spelled_backslash (h : Spelled t cps) :
    Spelled ('\\' :: '\\' :: t) (0x5C :: cps) :=
  Spelled.escaped (e := ['\\']) (fun _ => rfl) h

theorem spelled_quote (h : Spelled t cps) :
    Spelled ('\\' :: '"' :: t) (0x22 :: cps) :=
  Spelled.escaped (e := ['"']) (fun _ => rfl) h

/-- Escaped digits need no escape of their own. -/
theorem hexPadded_plain {n : Nat} (h : n < 0x20) :
    ∀ c ∈ hexPadded n, c ∉ ['"', '\\'] := by
  have hall : ∀ n : Fin 0x20,
    (hexPadded n.val).all (fun c => c != '"' && c != '\\') = true := by decide
  intro c hc
  have hplain := List.all_eq_true.mp (hall ⟨n, h⟩) c hc
  simpa using hplain

/-- A character of a literal is read back. -/
theorem spelled_literalChar (c : Char) (h : Spelled t cps) :
    Spelled (jsonStringChar c ++ t) ((literalChar c).map Char.toNat ++ cps) := by
  rw [jsonStringChar, literalChar]
  by_cases hquote : c = '"'
  · rw [if_pos hquote, if_pos hquote]
    exact spelled_backslash (spelled_quote h)
  by_cases hbackslash : c = '\\'
  · rw [if_neg hquote, if_neg hquote, if_pos hbackslash, if_pos hbackslash]
    exact spelled_backslash (spelled_backslash h)
  rw [if_neg hquote, if_neg hquote, if_neg hbackslash, if_neg hbackslash]
  by_cases hn : c = '\n'
  · rw [if_pos hn, if_pos hn]
    exact spelled_backslash (Spelled.char (by decide) h)
  by_cases hr : c = '\r'
  · rw [if_neg hn, if_neg hn, if_pos hr, if_pos hr]
    exact spelled_backslash (Spelled.char (by decide) h)
  by_cases ht : c = '\t'
  · rw [if_neg hn, if_neg hn, if_neg hr, if_neg hr, if_pos ht, if_pos ht]
    exact spelled_backslash (Spelled.char (by decide) h)
  rw [if_neg hn, if_neg hn, if_neg hr, if_neg hr, if_neg ht, if_neg ht]
  by_cases hcontrol : c.toNat < 0x20
  · rw [if_pos hcontrol, if_pos hcontrol, List.append_assoc, List.map_append,
      List.append_assoc]
    exact spelled_backslash
      (Spelled.char (by decide)
        (Spelled.plain (p := hexPadded c.toNat) (hexPadded_plain hcontrol) h))
  · rw [if_neg hcontrol, if_neg hcontrol]
    exact Spelled.char (by simp [hquote, hbackslash]) h

theorem spelled_literal (s : Text) (h : Spelled t cps) :
    Spelled (s.flatMap jsonStringChar ++ t)
      ((s.flatMap literalChar).map Char.toNat ++ cps) := by
  induction s with
  | nil => exact h
  | cons c s ih =>
      rw [List.flatMap_cons, List.flatMap_cons, List.append_assoc,
        List.map_append, List.append_assoc]
      exact spelled_literalChar c ih

variable {names : List Text}

/-- A string literal derives the JSON string. -/
theorem string_expr (s : Text) : Expr names (jsonStringLiteral s)
    (always {literalString s}) := by
  have hinside : Spelled ('\\' :: '"' :: (s.flatMap jsonStringChar ++ ['\\', '"']))
      ((literalString s).map Char.toNat) := by
    have hend : Spelled ['\\', '"'] [0x22] := spelled_quote Spelled.nil
    have hall := spelled_quote (spelled_literal s hend)
    rwa [show ((literalString s).map Char.toNat)
        = 0x22 :: ((s.flatMap literalChar).map Char.toNat ++ [0x22]) by
      simp [literalString]]
  have htext : jsonStringLiteral s
      = '"' :: ('\\' :: '"' :: (s.flatMap jsonStringChar ++ ['\\', '"']))
      ++ ['"'] := by
    simp [jsonStringLiteral]
  rw [htext]
  exact .literal hinside

/-- A number's text needs no escapes. -/
theorem numberText_plain {n : Lib.JsonNumber} (h : Json.NumberWf n) :
    ∀ c ∈ numberText n, c ∉ ['"', '\\'] := by
  have hclear : ∀ c : Char, c.isDigit = true ∨ c ∈ ['-', '.', 'e', 'E', '+'] →
      c ∉ ['"', '\\'] := by
    rintro c hc hmem
    simp only [List.mem_cons, List.not_mem_nil, or_false] at hmem
    rcases hmem with rfl | rfl <;> exact absurd hc (by decide)
  intro c hc
  apply hclear
  exact Json.numberText_chars h c hc

/-- A number derives its text. -/
theorem number_expr {n : Lib.JsonNumber} (h : Json.NumberWf n) :
    Expr names (quoted (numberText n)) (always {numberText n}) :=
  .literal (Spelled.word (numberText_plain h))

/-- A word derives itself. -/
theorem word_expr {s : String}
    (h : s.toList.all (fun c => c ≠ '"' && c ≠ '\\') = true) :
    Expr names (quoted s.toList) (always {s.toList}) := (quoted_atom h).expr

theorem literalItems_ne {x : Json} {xs : List Json} :
    literalItems (x :: xs) ≠ [] := by
  rw [literalItems]
  exact List.cons_ne_nil _ _

theorem literalMembers_ne {m : Text × Json} {members : List (Text × Json)} :
    literalMembers (m :: members) ≠ [] := by
  rw [literalMembers]
  exact List.cons_ne_nil _ _

section

variable (hws : Expr names "j-ws".toList (rule "j-ws"))

include hws

/-- A comma, with whitespace around it. -/
theorem comma_expr {t t' : Text} {L L' : Meaning} (h : Expr names t L)
    (h' : Expr names t' L') :
    Expr names (t ++ " j-ws \",\" j-ws ".toList ++ t')
      (L * rule "j-ws" * only "," * rule "j-ws" * L') := by
  have htext : t ++ " j-ws \",\" j-ws ".toList ++ t'
      = (((t ++ ' ' :: "j-ws".toList) ++ ' ' :: quoted ",".toList)
        ++ ' ' :: "j-ws".toList) ++ ' ' :: t' := by
    simp [quoted]
  rw [htext]
  exact (((h.space hws).space (word_expr rfl)).space hws).space h'

/-- A member of an object. -/
theorem member_expr {k : Text} {t : Text} {L : Meaning} (h : Expr names t L) :
    Expr names (jsonStringLiteral k ++ " j-ws \":\" j-ws ".toList ++ t)
      (always {literalString k} * rule "j-ws" * only ":" * rule "j-ws" * L) := by
  have htext : jsonStringLiteral k ++ " j-ws \":\" j-ws ".toList ++ t
      = (((jsonStringLiteral k ++ ' ' :: "j-ws".toList)
        ++ ' ' :: quoted ":".toList) ++ ' ' :: "j-ws".toList)
        ++ ' ' :: t := by
    simp [quoted]
  rw [htext]
  exact ((((string_expr k).space hws).space (word_expr rfl)).space hws).space h

/-- Brackets around a text. -/
theorem bracket_expr {a b : String}
    (ha : a.toList.all (fun c => c ≠ '"' && c ≠ '\\') = true)
    (hb : b.toList.all (fun c => c ≠ '"' && c ≠ '\\') = true) {t : Text}
    {L : Meaning} (h : Expr names t L) :
    Expr names ((quoted a.toList ++ " j-ws ".toList) ++ t
      ++ (" j-ws ".toList ++ quoted b.toList))
      (only a * rule "j-ws" * L * rule "j-ws" * only b) := by
  have htext : (quoted a.toList ++ " j-ws ".toList) ++ t
      ++ (" j-ws ".toList ++ quoted b.toList)
      = (((quoted a.toList ++ ' ' :: "j-ws".toList) ++ ' ' :: t)
        ++ ' ' :: "j-ws".toList)
        ++ ' ' :: quoted b.toList := by
    simp
  rw [htext]
  exact ((((word_expr ha).space hws).space h).space hws).space (word_expr hb)

mutual

/-- The expression of a value is read as its sentences. -/
theorem literal_expr : ∀ {v : Json}, Json.Wf v →
    Expr names (literalExpr v) fun g => sentences (rule "j-ws" g) v
  | .null, _ => by
      simp only [literalExpr, sentences]
      exact word_expr (s := "null") rfl
  | .bool true, _ => by
      simp only [literalExpr, sentences]
      exact word_expr (s := "true") rfl
  | .bool false, _ => by
      simp only [literalExpr, sentences]
      exact word_expr (s := "false") rfl
  | .number n, h => by
      rw [Json.Wf] at h
      simp only [literalExpr, sentences]
      exact number_expr h
  | .string s, _ => by
      simp only [literalExpr, sentences]
      exact string_expr s
  | .array [], _ => by
      simp only [literalExpr, sentences, literalItems, if_pos]
      exact ((word_expr (s := "[") rfl).space hws).space (word_expr (s := "]") rfl)
  | .array (x :: xs), h => by
      rw [Json.Wf] at h
      simp only [literalExpr, sentences]
      rw [if_neg literalItems_ne]
      exact bracket_expr hws (a := "[") (b :=
        "]") rfl rfl (literal_items (List.cons_ne_nil _ _) h)
  | .object [], _ => by
      simp only [literalExpr, sentences, literalMembers, if_pos]
      exact ((word_expr (s := "\x7b\x7b") rfl).space hws).space
        (word_expr (s := "\x7d\x7d") rfl)
  | .object (m :: members), h => by
      rw [Json.Wf] at h
      simp only [literalExpr, sentences]
      rw [if_neg literalMembers_ne]
      exact bracket_expr hws (a := "\x7b") (b :=
        "\x7d") rfl rfl (literal_members (List.cons_ne_nil _ _) h.2)

/-- An array's items, with blanks around the commas. -/
theorem literal_items : ∀ {xs : List Json}, xs ≠ [] → Json.WfItems xs →
    Expr names (join " j-ws \",\" j-ws " (literalItems xs)) fun g =>
      sentencesItems (rule "j-ws" g) xs
  | [], hne, _ => absurd rfl hne
  | [x], _, h => by
      rw [Json.WfItems] at h
      simp only [literalItems, sentencesItems, join, List.intercalate_singleton]
      exact literal_expr h.1
  | x :: y :: xs, _, h => by
      rw [Json.WfItems] at h
      simp only [sentencesItems]
      rw [literalItems, literalItems, join_cons, ← literalItems]
      exact comma_expr hws (literal_expr h.1)
        (literal_items (List.cons_ne_nil _ _) h.2)

/-- An object's members, with blanks around the commas. -/
theorem literal_members : ∀ {members : List (Text × Json)}, members ≠ [] →
    Json.WfMembers members →
    Expr names (join " j-ws \",\" j-ws " (literalMembers members))
      fun g => sentencesMembers (rule "j-ws" g) members
  | [], hne, _ => absurd rfl hne
  | [(k, x)], _, h => by
      rw [Json.WfMembers] at h
      simp only [literalMembers, sentencesMembers, join, List.intercalate_singleton]
      exact member_expr hws (literal_expr h.1)
  | (k, x) :: m' :: members, _, h => by
      rw [Json.WfMembers] at h
      simp only [sentencesMembers]
      have htext : join " j-ws \",\" j-ws " (literalMembers ((k, x) :: m' :: members))
          = jsonStringLiteral k ++ " j-ws \":\" j-ws ".toList ++ literalExpr x
            ++ " j-ws \",\" j-ws ".toList
            ++ join " j-ws \",\" j-ws " (literalMembers (m' :: members)) := by
        obtain ⟨k', x'⟩ := m'
        rw [literalMembers, literalMembers, join_cons]
      rw [htext]
      exact comma_expr hws (member_expr hws (literal_expr h.1))
        (literal_members (List.cons_ne_nil _ _) h.2)

end

end

-- ============================= reading

section

variable {p q t : Text} {ws L M : Language Char}

/-- A text between brackets, with blanks inside them. -/
theorem mem_bracket : t ∈ {p} * ws * L * ws * {q}
    ↔ ∃ w s w', w ∈ ws ∧ s ∈ L ∧ w' ∈ ws ∧ t = p ++ w ++ s ++ w' ++ q := by
  simp only [Language.mem_mul]
  constructor
  · rintro ⟨_, ⟨_, ⟨_, ⟨_, rfl, w, hw, rfl⟩, s, hs, rfl⟩, w', hw', rfl⟩, _, rfl, rfl⟩
    exact ⟨w, s, w', hw, hs, hw', rfl⟩
  · rintro ⟨w, s, w', hw, hs, hw', rfl⟩
    exact ⟨_, ⟨_, ⟨_, ⟨p, rfl, w, hw, rfl⟩, s, hs, rfl⟩, w', hw', rfl⟩, q, rfl, rfl⟩

/-- Brackets with nothing but blanks between them. -/
theorem mem_nothing : t ∈ {p} * ws * {q} ↔ ∃ w ∈ ws, t = p ++ w ++ q := by
  simp only [Language.mem_mul]
  constructor
  · rintro ⟨_, ⟨_, rfl, w, hw, rfl⟩, _, rfl, rfl⟩
    exact ⟨w, hw, rfl⟩
  · rintro ⟨w, hw, rfl⟩
    exact ⟨_, ⟨p, rfl, w, hw, rfl⟩, q, rfl, rfl⟩

/-- Two texts with a separator between them, and blanks around it. -/
theorem mem_between : t ∈ L * ws * {q} * ws * M
    ↔ ∃ a w w' b, a ∈ L ∧ w ∈ ws ∧ w' ∈ ws ∧ b ∈ M ∧ t = a ++ w ++ q ++ w' ++ b := by
  simp only [Language.mem_mul]
  constructor
  · rintro ⟨_, ⟨_, ⟨_, ⟨a, ha, w, hw, rfl⟩, _, rfl, rfl⟩, w', hw', rfl⟩, b, hb, rfl⟩
    exact ⟨a, w, w', b, ha, hw, hw', hb, rfl⟩
  · rintro ⟨a, w, w', b, ha, hw, hw', hb, rfl⟩
    exact ⟨_, ⟨_, ⟨_, ⟨a, ha, w, hw, rfl⟩, q, rfl, rfl⟩, w', hw', rfl⟩, b, hb, rfl⟩

end

/-- Padded digits are read back. -/
theorem hexUnit_hexPadded {n : Nat} (h : n < 0x20) :
    Json.hexUnit (hexPadded n) = some n := by
  have hall : ∀ n : Fin 0x20, Json.hexUnit (hexPadded n.val) = some n.val := by decide
  exact hall ⟨n, h⟩

/-- A written character is read as that character. -/
theorem spells_literalChar (c : Char) : Spells (literalChar c) c := by
  rw [literalChar]
  by_cases hquote : c = '"'
  · rw [if_pos hquote, hquote]
    exact .short rfl
  by_cases hbackslash : c = '\\'
  · rw [if_neg hquote, if_pos hbackslash, hbackslash]
    exact .short rfl
  rw [if_neg hquote, if_neg hbackslash]
  by_cases hn : c = '\n'
  · rw [if_pos hn, hn]
    exact .short rfl
  by_cases hr : c = '\r'
  · rw [if_neg hn, if_pos hr, hr]
    exact .short rfl
  by_cases ht : c = '\t'
  · rw [if_neg hn, if_neg hr, if_pos ht, ht]
    exact .short rfl
  rw [if_neg hn, if_neg hr, if_neg ht]
  by_cases hcontrol : c.toNat < 0x20
  · rw [if_pos hcontrol]
    have hunit := Spells.unit (hexUnit_hexPadded hcontrol) (.inl (by omega))
    rwa [Char.ofNat_toNat] at hunit
  · rw [if_neg hcontrol]
    exact .plain (by omega) hquote hbackslash

/-- A written string is read as that string. -/
theorem body_literal (s : Text) : Body (s.flatMap literalChar) s := by
  induction s with
  | nil => exact .nil
  | cons c s ih => exact .cons (spells_literalChar c) ih

mutual

/-- How many empty objects a value holds. -/
def emptyObjects : Json → Nat
  | .array xs => emptyObjectsItems xs
  | .object [] => 1
  | .object (m :: members) => emptyObjectsMembers (m :: members)
  | _ => 0

def emptyObjectsItems : List Json → Nat
  | [] => 0
  | x :: xs => emptyObjects x + emptyObjectsItems xs

def emptyObjectsMembers : List (Text × Json) → Nat
  | [] => 0
  | (_, x) :: members => emptyObjects x + emptyObjectsMembers members

end

section

variable {canon : Text → Text}

mutual

/-- A literal's texts are texts of the value with its floats read again. -/
theorem sentences_reads : ∀ {v : Json}, Json.Wf v → emptyObjects v = 0 →
    ∀ t ∈ sentences blanks v, Reads canon t (Json.reread canon v)
  | .null, _, _, t, ht => by
      rw [sentences] at ht
      rw [show t = _ from ht, Json.reread]
      exact .null
  | .bool true, _, _, t, ht => by
      rw [sentences] at ht
      rw [show t = _ from ht, Json.reread]
      exact .true
  | .bool false, _, _, t, ht => by
      rw [sentences] at ht
      rw [show t = _ from ht, Json.reread]
      exact .false
  | .number n, h, _, t, ht => by
      rw [sentences] at ht
      rw [Json.Wf] at h
      rw [show t = _ from ht, Json.reread]
      exact .number (Json.numeral_numberText h)
  | .string s, _, _, t, ht => by
      rw [sentences] at ht
      rw [show t = _ from ht, Json.reread]
      exact .string (body_literal s)
  | .array [], _, _, t, ht => by
      rw [sentences] at ht
      obtain ⟨w, hw, rfl⟩ := mem_nothing.mp ht
      rw [Json.reread, Json.rereadItems]
      exact .arrayNil hw
  | .array (x :: xs), h, hgood, t, ht => by
      rw [sentences] at ht
      rw [Json.Wf] at h
      rw [emptyObjects] at hgood
      obtain ⟨w, s, w', hw, hs, hw', rfl⟩ := mem_bracket.mp ht
      rw [Json.reread]
      exact .array hw (sentences_items (List.cons_ne_nil _ _) h hgood s hs) hw'
  | .object [], _, hgood, _, _ => by
      rw [emptyObjects] at hgood
      cases hgood
  | .object (m :: members), h, hgood, t, ht => by
      rw [sentences] at ht
      rw [Json.Wf] at h
      rw [emptyObjects] at hgood
      obtain ⟨w, s, w', hw, hs, hw', rfl⟩ := mem_bracket.mp ht
      have hread :=
        Reads.object hw
        (sentences_members (List.cons_ne_nil _ _) h.2 hgood s hs) hw'
      rw [Json.reread]
      rwa [Json.collect_sorted (Json.sorted_rereadMembers h.1)] at hread

/-- What is derived for items is read as the items. -/
theorem sentences_items : ∀ {xs : List Json}, xs ≠ [] → Json.WfItems xs →
    emptyObjectsItems xs = 0 →
    ∀ t ∈ sentencesItems blanks xs, ReadsItems canon t (Json.rereadItems canon xs)
  | [], hne, _, _, _, _ => absurd rfl hne
  | [x], _, h, hgood, t, ht => by
      rw [sentencesItems] at ht
      rw [Json.WfItems] at h
      rw [emptyObjectsItems, emptyObjectsItems] at hgood
      exact .last (sentences_reads h.1 hgood t ht)
  | x :: y :: xs, _, h, hgood, t, ht => by
      rw [sentencesItems] at ht
      · rw [Json.WfItems] at h
        rw [emptyObjectsItems] at hgood
        obtain ⟨a, w, w', b, ha, hw, hw', hb, rfl⟩ := mem_between.mp ht
        have hitem :=
          sentences_reads h.1 (Nat.eq_zero_of_add_eq_zero_right hgood) a ha
        have hrest :=
          sentences_items (List.cons_ne_nil _ _) h.2
          (Nat.eq_zero_of_add_eq_zero_left hgood) b hb
        have hall := ReadsItems.cons hitem hw hw' hrest
        rw [Json.rereadItems]
        simpa using hall
      · exact List.cons_ne_nil _ _

/-- What is derived for members is read as the members. -/
theorem sentences_members : ∀ {members : List (Text × Json)}, members ≠ [] →
    Json.WfMembers members →
    emptyObjectsMembers members = 0 →
    ∀ t ∈ sentencesMembers blanks members,
      ReadsMembers canon t (Json.rereadMembers canon members)
  | [], hne, _, _, _, _ => absurd rfl hne
  | [(k, x)], _, h, hgood, t, ht => by
      rw [sentencesMembers] at ht
      rw [Json.WfMembers] at h
      rw [emptyObjectsMembers, emptyObjectsMembers] at hgood
      obtain ⟨a, w, w', b, rfl, hw, hw', hb, rfl⟩ := mem_between.mp ht
      have hall :=
        ReadsMembers.last (body_literal k) hw hw'
        (sentences_reads h.1 hgood b hb)
      rw [Json.rereadMembers, Json.rereadMembers]
      simpa [literalString] using hall
  | (k, x) :: m' :: members, _, h, hgood, t, ht => by
      rw [sentencesMembers] at ht
      · rw [Json.WfMembers] at h
        rw [emptyObjectsMembers] at hgood
        obtain ⟨a, v, v', b, ha, hv, hv', hb, rfl⟩ := mem_between.mp ht
        obtain ⟨_, w, w', s, rfl, hw, hw', hs, rfl⟩ := mem_between.mp ha
        have hitem :=
          sentences_reads h.1 (Nat.eq_zero_of_add_eq_zero_right hgood) s hs
        have hrest :=
          sentences_members (List.cons_ne_nil _ _) h.2
          (Nat.eq_zero_of_add_eq_zero_left hgood) b hb
        have hall := ReadsMembers.cons (body_literal k) hw hw' hitem hv hv' hrest
        rw [Json.rereadMembers]
        simpa [literalString] using hall
      · exact List.cons_ne_nil _ _

end

end

-- ======================= compact texts

/-- How many characters of a text have a short escape in compact texts only. -/
def controls (s : Text) : Nat := s.countP fun c => c = Char.ofNat 0x08
    || c = Char.ofNat 0x0C

mutual

/-- How many such characters the strings of a value hold. -/
def shortControls : Json → Nat
  | .string s => controls s
  | .array xs => shortControlsItems xs
  | .object members => shortControlsMembers members
  | _ => 0

def shortControlsItems : List Json → Nat
  | [] => 0
  | x :: xs => shortControls x + shortControlsItems xs

def shortControlsMembers : List (Text × Json) → Nat
  | [] => 0
  | (k, x) :: members => controls k + shortControls x + shortControlsMembers members

end

/-- Both spellings of a character are the same but for the two controls. -/
theorem literalChar_compact {c : Char} (h8 : c ≠ Char.ofNat 0x08)
    (hC : c ≠ Char.ofNat 0x0C) :
    literalChar c = compactChar c := by
  have hhex : ∀ n : Fin 0x20, ['\\', 'u'] ++ hexPadded n.val
      = "\\u00".toList
        ++ [Nat.digitChar (n.val / 16), Nat.digitChar (n.val % 16)] := by
        decide
  rw [literalChar, compactChar, if_neg h8, if_neg hC]
  by_cases hcontrol : c.toNat < 0x20
  · rw [if_pos hcontrol, if_pos hcontrol, hhex ⟨c.toNat, hcontrol⟩]
  · rw [if_neg hcontrol, if_neg hcontrol]

/-- Strings without the short controls are written compactly. -/
theorem literalString_compact {s : Text} (h : controls s = 0) :
    literalString s = compactString s := by
  have hchars : s.flatMap literalChar = s.flatMap compactChar := by
    apply List.flatMap_congr
    intro c hc
    have hno := List.countP_eq_zero.mp h c hc
    simp only [Bool.or_eq_true, decide_eq_true_eq, not_or] at hno
    exact literalChar_compact hno.1 hno.2
  rw [literalString, compactString, hchars]

theorem nil_blanks : [] ∈ blanks := fun _ h => absurd h List.not_mem_nil

mutual

/-- The compact text is a text of the literal. -/
theorem compact_sentence : ∀ {v : Json}, emptyObjects v = 0 → shortControls v = 0 →
    compact v ∈ sentences blanks v
  | .null, _, _ => by simp only [compact, sentences]; rfl
  | .bool true, _, _ => by simp only [compact, sentences]; rfl
  | .bool false, _, _ => by simp only [compact, sentences]; rfl
  | .number n, _, _ => by simp only [compact, sentences]; rfl
  | .string s, _, h => by
      rw [shortControls] at h
      simp only [compact, sentences, literalString_compact h]
      rfl
  | .array [], _, _ => by
      simp only [compact, compactItems, sentences]
      exact mem_nothing.mpr ⟨[], nil_blanks, rfl⟩
  | .array (x :: xs), hempty, h => by
      rw [emptyObjects] at hempty
      rw [shortControls] at h
      simp only [compact, sentences]
      have hitems := compact_items (List.cons_ne_nil _ _) hempty h
      exact mem_bracket.mpr ⟨[], _, [], nil_blanks, hitems, nil_blanks, by simp⟩
  | .object [], hempty, _ => by
      rw [emptyObjects] at hempty
      cases hempty
  | .object (m :: members), hempty, h => by
      rw [emptyObjects] at hempty
      rw [shortControls] at h
      simp only [compact, sentences]
      have hmembers := compact_members (List.cons_ne_nil _ _) hempty h
      exact mem_bracket.mpr ⟨[], _, [], nil_blanks, hmembers, nil_blanks, by simp⟩

/-- The compact text is among those derived. -/
theorem compact_items : ∀ {xs : List Json}, xs ≠ [] →
    emptyObjectsItems xs = 0 → shortControlsItems xs = 0 →
    compactItems xs ∈ sentencesItems blanks xs
  | [], hne, _, _ => absurd rfl hne
  | [x], _, hempty, h => by
      rw [emptyObjectsItems, emptyObjectsItems] at hempty
      rw [shortControlsItems, shortControlsItems] at h
      rw [compactItems, sentencesItems]
      exact compact_sentence hempty h
  | x :: y :: xs, _, hempty, h => by
      rw [emptyObjectsItems] at hempty
      rw [shortControlsItems] at h
      rw [compactItems, sentencesItems]
      · have hitem := compact_sentence (Nat.eq_zero_of_add_eq_zero_right hempty)
          (Nat.eq_zero_of_add_eq_zero_right h)
        have hrest :=
          compact_items (List.cons_ne_nil _ _)
          (Nat.eq_zero_of_add_eq_zero_left hempty)
          (Nat.eq_zero_of_add_eq_zero_left h)
        exact mem_between.mpr ⟨_, [], [], _, hitem, nil_blanks, nil_blanks,
          hrest, by simp⟩
      · exact List.cons_ne_nil _ _
      · exact List.cons_ne_nil _ _

/-- The compact text is among those derived. -/
theorem compact_members : ∀ {members : List (Text × Json)}, members ≠ [] →
    emptyObjectsMembers members = 0 →
    shortControlsMembers members = 0 →
      compactMembers members ∈ sentencesMembers blanks members
  | [], hne, _, _ => absurd rfl hne
  | [(k, x)], _, hempty, h => by
      rw [emptyObjectsMembers, emptyObjectsMembers] at hempty
      rw [shortControlsMembers, shortControlsMembers] at h
      rw [compactMembers, sentencesMembers, ← literalString_compact (by omega)]
      exact mem_between.mpr ⟨_, [], [], _, rfl, nil_blanks, nil_blanks,
        compact_sentence hempty (by omega), by simp⟩
  | (k, x) :: m' :: members, _, hempty, h => by
      rw [emptyObjectsMembers] at hempty
      rw [shortControlsMembers] at h
      rw [compactMembers, sentencesMembers, ← literalString_compact (by omega)]
      · have hmember : literalString k ++ ':' :: compact x
            ∈ {literalString k} * blanks * {[':']} * blanks * sentences blanks x :=
          mem_between.mpr ⟨_, [], [], _, rfl, nil_blanks, nil_blanks,
            compact_sentence (by omega) (by omega),
            by simp⟩
        have hrest :=
          compact_members (List.cons_ne_nil _ _)
          (Nat.eq_zero_of_add_eq_zero_left hempty)
          (Nat.eq_zero_of_add_eq_zero_left h)
        exact mem_between.mpr ⟨_, [], [], _, hmember, nil_blanks, nil_blanks,
          hrest, by simp⟩
      · exact List.cons_ne_nil _ _
      · exact List.cons_ne_nil _ _

end

-- ============================ counting

/-- All texts of a language have a character so many times. -/
def Counts (c : Char) (n : Nat) (L : Language Char) : Prop := ∀ t ∈ L, t.count c = n

section

variable {c : Char} {n m : Nat} {L M : Language Char}

/-- Counts add up along a concatenation. -/
theorem Counts.mul (h : Counts c n L) (h' : Counts c m M) :
    Counts c (n + m) (L * M) := by
  intro t ht
  obtain ⟨a, ha, b, hb, rfl⟩ := Language.mem_mul.mp ht
  rw [List.count_append, h a ha, h' b hb]

/-- One text, and its own count. -/
theorem Counts.text (t : Text) : Counts c (t.count c) {t} := by
  intro s hs
  rw [show s = t from hs]

/-- Blanks have none of it. -/
theorem Counts.blank (h : c ∉ [' ', '\t', '\n', '\r']) : Counts c 0 blanks := by
  intro t ht
  refine List.count_eq_zero.mpr fun hmem => h ?_
  simpa using ht c hmem

theorem Counts.of_eq (h : Counts c n L) (heq : n = m) : Counts c m L := heq ▸ h

end

theorem count_lead (c d : Char) (t : Text) :
    (d :: t).count c = ([d] : Text).count c + t.count c := by
  rw [← List.singleton_append, List.count_append]

/-- By how much the literal's spelling exceeds the compact one in a character:
in an empty object, and in one of the two controls. -/
structure Exceeds (c : Char) (brace control : Nat) : Prop where
  blank : c ∉ [' ', '\t', '\n', '\r']
  object : List.count c ['{', '{'] + List.count c ['}', '}']
    = List.count c ['{', '}'] + brace
  char : ∀ d, (literalChar d).count c
    = (compactChar d).count c + if d = Char.ofNat 0x08
      || d = Char.ofNat 0x0C then control else 0

section

variable {c : Char} {brace control : Nat}

/-- The long escapes have one more for every short control. -/
theorem count_literalString (h : Exceeds c brace control) (s : Text) :
    (literalString s).count c = (compactString s).count c + control * controls s := by
  have hchars : (s.flatMap literalChar).count c
      = (s.flatMap compactChar).count c + control * controls s := by
    induction s with
    | nil => rfl
    | cons d s ih =>
        rw [List.flatMap_cons, List.flatMap_cons, List.count_append,
          List.count_append, ih, h.char d, controls,
          controls, List.countP_cons, Nat.mul_add]
        split <;> omega
  have hquotes : ∀ t : Text, ('"' :: t ++ ['"']).count c
      = (['"'] : Text).count c + t.count c
      + (['"'] : Text).count c := by
    intro t
    rw [List.count_append, count_lead c '"' t]
  rw [literalString, compactString, hquotes, hquotes, hchars]
  omega

mutual

/-- By how much a text of the literal exceeds the compact one, in one
character. -/
theorem counts_sentences (h : Exceeds c brace control) : ∀ v : Json, Counts c
    ((compact v).count c
      + (brace * emptyObjects v + control * shortControls v))
      (sentences blanks v)
  | .null => by
      simp only [compact, sentences, emptyObjects, shortControls]
      exact .text _
  | .bool true => by
      simp only [compact, sentences, emptyObjects, shortControls]
      exact .text _
  | .bool false => by
      simp only [compact, sentences, emptyObjects, shortControls]
      exact .text _
  | .number n => by
      simp only [compact, sentences, emptyObjects, shortControls]
      exact .text _
  | .string s => by
      simp only [compact, sentences, emptyObjects, shortControls]
      refine (Counts.text _).of_eq ?_
      rw [count_literalString h]
      omega
  | .array [] => by
      simp only [compact, compactItems, sentences, emptyObjects,
        emptyObjectsItems, shortControls, shortControlsItems]
      refine (((Counts.text _).mul (.blank h.blank)).mul (.text _)).of_eq ?_
      have htext : '[' :: [] ++ [']'] = ['['] ++ [']'] := rfl
      rw [htext, List.count_append]
      omega
  | .array (x :: xs) => by
      simp only [compact, sentences, emptyObjects, shortControls]
      have hitems := counts_items h (List.cons_ne_nil x xs)
      refine (((((Counts.text _).mul (.blank h.blank)).mul hitems).mul
        (.blank h.blank)).mul (.text _)).of_eq ?_
      rw [List.count_append, count_lead c '[' (compactItems (x :: xs))]
      omega
  | .object [] => by
      simp only [compact, compactMembers, sentences, emptyObjects,
        shortControls, shortControlsMembers]
      refine (((Counts.text _).mul (.blank h.blank)).mul (.text _)).of_eq ?_
      have htext : '{' :: [] ++ ['}'] = ['{', '}'] := rfl
      have hobject := h.object
      rw [htext]
      omega
  | .object (m :: members) => by
      simp only [compact, sentences, emptyObjects, shortControls]
      have hmembers := counts_members h (List.cons_ne_nil m members)
      refine (((((Counts.text _).mul (.blank h.blank)).mul hmembers).mul
        (.blank h.blank)).mul (.text _)).of_eq ?_
      rw [List.count_append, count_lead c '{' (compactMembers (m :: members))]
      omega

/-- Every derived text of items has as many more than the compact one. -/
theorem counts_items (h : Exceeds c brace control) :
    ∀ {xs : List Json}, xs ≠ [] → Counts c
    ((compactItems xs).count c
      + (brace * emptyObjectsItems xs + control * shortControlsItems xs))
    (sentencesItems blanks xs)
  | [], hne => absurd rfl hne
  | [x], _ => by
      simp only [compactItems, sentencesItems, emptyObjectsItems, shortControlsItems]
      exact counts_sentences h x
  | x :: y :: xs, _ => by
      rw [compactItems, sentencesItems, emptyObjectsItems, shortControlsItems]
      · have hrest := counts_items h (List.cons_ne_nil y xs)
        refine (((((counts_sentences h x).mul (.blank h.blank)).mul
          (.text _)).mul (.blank h.blank)).mul
          hrest).of_eq ?_
        rw [List.count_append, count_lead c ',' (compactItems (y :: xs)),
          Nat.mul_add, Nat.mul_add]
        omega
      · exact List.cons_ne_nil _ _
      · exact List.cons_ne_nil _ _

/-- So has every derived text of members. -/
theorem counts_members (h : Exceeds c brace control) :
    ∀ {members : List (Text × Json)}, members ≠ [] → Counts c
    ((compactMembers members).count c
      + (brace * emptyObjectsMembers members
        + control * shortControlsMembers members))
    (sentencesMembers blanks members)
  | [], hne => absurd rfl hne
  | [(k, x)], _ => by
      simp only [compactMembers, sentencesMembers, emptyObjectsMembers,
        shortControlsMembers]
      refine (((((Counts.text _).mul (.blank h.blank)).mul (.text _)).mul
        (.blank h.blank)).mul
        (counts_sentences h x)).of_eq ?_
      rw [count_literalString h, List.count_append,
        count_lead c ':' (compact x), Nat.mul_add, Nat.mul_add, Nat.mul_add]
      omega
  | (k, x) :: m' :: members, _ => by
      rw [compactMembers, sentencesMembers, emptyObjectsMembers, shortControlsMembers]
      · have hrest := counts_members h (List.cons_ne_nil m' members)
        have hmember :=
          ((((Counts.text (literalString k)).mul (.blank h.blank)).mul
            (.text [':'])).mul
          (.blank h.blank)).mul (counts_sentences h x)
        refine ((((hmember.mul (.blank h.blank)).mul (.text _)).mul
          (.blank h.blank)).mul hrest).of_eq ?_
        rw [count_literalString h, List.count_append, List.count_append,
          count_lead c ':' (compact x),
          count_lead c ',' (compactMembers (m' :: members)), Nat.mul_add,
          Nat.mul_add, Nat.mul_add]
        omega
      · exact List.cons_ne_nil _ _
      · exact List.cons_ne_nil _ _

end

end

-- =============================== rules

theorem mem_kstar_inside {ranges : Ranges} :
    t ∈ KStar.kstar (inside ranges) ↔ ∀ c ∈ t, inRanges ranges c.toNat = true := by
  rw [Language.mem_kstar]
  constructor
  · rintro ⟨S, rfl, hS⟩ c hc
    obtain ⟨s, hs, hc⟩ := List.mem_flatten.mp hc
    obtain ⟨d, rfl, hd⟩ := hS s hs
    rwa [List.mem_singleton.mp hc]
  · intro h
    refine ⟨t.map fun c => [c], ?_, fun s hs => ?_⟩
    · clear h
      induction t with
      | nil => rfl
      | cons c t ih =>
          rw [List.map_cons, List.flatten_cons, ← ih]
          rfl
    · obtain ⟨c, hc, rfl⟩ := List.mem_map.mp hs
      exact ⟨c, rfl, h c hc⟩

/-- The whitespace rule. -/
theorem ws_texts {g : List (Text × Node)}
    (h : ∀ m ∈ genericMeaning, rule m.1 g = m.2 g) :
    rule "j-ws" g = blanks := by
  have hws := h ("j-ws", _) List.mem_cons_self
  have hkind : ∀ c : Char,
      inRanges [(0x20, 0x20), (0x09, 0x09), (0x0A, 0x0A), (0x0D, 0x0D)] c.toNat
      = true
      ↔ c = ' ' ∨ c = '\t' ∨ c = '\n' ∨ c = '\r' := by
    intro c
    have heq : ∀ d : Char, (d.toNat ≤ c.toNat && c.toNat ≤ d.toNat) = true
        ↔ c = d := by
      intro d
      rw [Bool.and_eq_true, decide_eq_true_eq, decide_eq_true_eq, ← Char.toNat_inj]
      omega
    simp only [inRanges, List.any_cons, List.any_nil, Bool.or_false, Bool.or_eq_true]
    exact or_congr (heq ' ') (or_congr (heq '\t') (or_congr (heq '\n') (heq '\r')))
  ext t
  rw [hws]
  show t ∈ KStar.kstar (inside _) ↔ _
  simp only [mem_kstar_inside, hkind]
  rfl

/-- The grammar of a literal. -/
theorem literal_root {v : Json} (h : Json.Wf v) :
    ∃ rules, Settles
        (fun fuel =>
          parse fuel (written
            (genericRules ++ [("root".toList, literalExpr v)])))
        (.ok rules)
      ∧ texts rules (.ref "root".toList) = sentences blanks v := by
  have hroot : ∀ part
      ∈ [("root".toList, literalExpr v, fun g => sentences (rule "j-ws" g) v)],
      IsName part.1 ∧ Alt ((genericParts ++ [("root".toList, literalExpr v,
        fun g => sentences (rule "j-ws" g) v)]).map (·.1)) part.2.1 part.2.2 := by
    intro part hpart
    rw [List.mem_singleton.mp hpart]
    refine ⟨.of_check rfl, (literal_expr ?_ h).alt⟩
    exact (Atom.name (IsName.of_check rfl) List.mem_cons_self).expr
  have hnodup : ∀ t : Text × Meaning,
      ((genericParts ++ [("root".toList, t)]).map (·.1)).Nodup := by
    intro t
    show ((genericRules.map (·.1)) ++ ["root".toList]).Nodup
    decide
  obtain ⟨rules, hparse, hgeneric, htexts⟩ := parse_generic hroot (hnodup _)
  refine ⟨rules, hparse, ?_⟩
  rw [← ws_texts hgeneric]
  exact htexts _ (List.mem_singleton.mpr rfl)

theorem exceeds_brace : Exceeds '{' 1 0 := by
  refine ⟨by decide, by decide, fun d => ?_⟩
  by_cases h8 : d = Char.ofNat 0x08
  · rw [h8]
    decide
  by_cases hC : d = Char.ofNat 0x0C
  · rw [hC]
    decide
  · simp [literalChar_compact h8 hC]

theorem exceeds_u : Exceeds 'u' 0 1 := by
  refine ⟨by decide, by decide, fun d => ?_⟩
  by_cases h8 : d = Char.ofNat 0x08
  · rw [h8]
    decide
  by_cases hC : d = Char.ofNat 0x0C
  · rw [hC]
    decide
  · simp [literalChar_compact h8 hC, h8, hC]

/-- When the texts of a literal are as they should be. -/
theorem sentences_exact {canon : Text → Text} {v : Json} (h : Json.Wf v) :
    ((∀ t ∈ sentences blanks v, Reads canon t v) ∧ compact v ∈ sentences blanks v)
      ↔ emptyObjects v = 0 ∧ shortControls v = 0 ∧ Json.ReadsBack canon v := by
  constructor
  · intro hexact
    have hbrace := counts_sentences exceeds_brace v _ hexact.2
    have hu := counts_sentences exceeds_u v _ hexact.2
    have hempty : emptyObjects v = 0 := by omega
    have hread : Reads canon _ (Json.reread canon v) :=
      sentences_reads h hempty _ hexact.2
    have hsame := hread.value_unique (hexact.1 _ hexact.2)
    exact ⟨hempty, by omega, Json.reread_eq_iff.mp hsame⟩
  · rintro ⟨hempty, hcontrols, hback⟩
    refine ⟨fun t ht => ?_, compact_sentence hempty hcontrols⟩
    have hread : Reads canon t (Json.reread canon v) :=
      sentences_reads h hempty t ht
    rwa [Json.reread_eq_iff.mpr hback] at hread

/-- The texts of a literal are texts of the value, and the compact text is one
of them, if and only if the value holds no empty object, no character with a
short escape in compact texts only, and no float that its text is not read
back as. -/
theorem literal_exact_iff {canon : Text → Text} {v : Json} (h : Json.Wf v) :
    ∃ rules, Settles
        (fun fuel =>
          parse fuel (written
            (genericRules ++ [("root".toList, literalExpr v)])))
        (.ok rules)
      ∧ (((∀ t ∈ texts rules (.ref "root".toList), Reads canon t v)
        ∧ compact v ∈ texts rules (.ref "root".toList))
        ↔ emptyObjects v = 0 ∧ shortControls v = 0 ∧ Json.ReadsBack canon v) := by
  obtain ⟨rules, hparse, htexts⟩ := literal_root h
  refine ⟨rules, hparse, ?_⟩
  rw [htexts]
  exact sentences_exact h

theorem literal_exact_iff_array :
    ∃ rules, Settles (fun fuel => parse fuel (written (genericRules
        ++ [("root".toList,
          literalExpr (.array [.null, .string "\"a".toList]))]))) (.ok rules)
      ∧ (((∀ t ∈ texts rules (.ref "root".toList),
          Reads id t (.array [.null, .string "\"a".toList]))
          ∧ compact (.array [.null, .string "\"a".toList])
            ∈ texts rules (.ref "root".toList))
        ↔ emptyObjects (.array [.null, .string "\"a".toList]) = 0
          ∧ shortControls (.array [.null, .string "\"a".toList]) = 0
          ∧ Json.ReadsBack id (.array [.null, .string "\"a".toList])) :=
  literal_exact_iff (by simp [Json.Wf, Json.WfItems])

/-- The braces of an empty object stay doubled. -/
theorem empty_object_literal :
    ∃ rules, Settles
        (fun fuel =>
          parse fuel (written
            (genericRules ++ [("root".toList, literalExpr (.object []))])))
        (.ok rules)
      ∧ ¬ ((∀ t ∈ texts rules (.ref "root".toList), Reads id t (.object []))
        ∧ compact (.object []) ∈ texts rules (.ref "root".toList)) := by
  have hwf : Json.Wf (.object []) := by simp [Json.Wf, Json.WfMembers]
  obtain ⟨rules, hparse, htexts⟩ := literal_root hwf
  refine ⟨rules, hparse, fun hexact => ?_⟩
  rw [htexts] at hexact
  exact absurd ((sentences_exact hwf).mp hexact).1 (by simp [emptyObjects])

end Minfer.Schema
