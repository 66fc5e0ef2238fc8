/-
The generic JSON rules (`grammar.rs`): what the parser makes of their texts.

Each body is read as an expression over the rules of whatever grammar it
stands in, so that the schema compiler's rules may be added to them.
-/
import Minfer.Grammar.Schema
import Minfer.Grammar.Proofs.Expression

namespace Minfer.Schema

open Minfer.Gbnf
open Minfer.Tokenize (Text)

/-- The texts of a rule. -/
def rule (name : String) : Meaning := fun g => texts g (.ref name.toList)

/-- One character, in the ranges or not. -/
def inside (ranges : Ranges) : Language Char :=
  {s | ∃ c : Char, s = [c] ∧ inRanges ranges c.toNat = true}

def outside (ranges : Ranges) : Language Char :=
  {s | ∃ c : Char, s = [c] ∧ inRanges ranges c.toNat = false}

/-- One text. -/
def only (s : String) : Meaning := always {s.toList}

def hexRanges : Ranges := [(0x30, 0x39), (0x61, 0x66), (0x41, 0x46)]

/-- What the generic rules mean. -/
def genericMeaning : List (String × Meaning) :=
  [("j-ws", always
    (KStar.kstar
      (inside [(0x20, 0x20), (0x09, 0x09), (0x0A, 0x0A), (0x0D, 0x0D)]))),
    ("j-char", always (outside [(0x22, 0x22), (0x5C, 0x5C), (0, 0x1F)])
      + only "\\" * rule "j-esc"),
    ("j-esc", always
        (inside [(0x22, 0x22), (0x5C, 0x5C), (0x2F, 0x2F), (0x62, 0x62),
          (0x66, 0x66), (0x6E, 0x6E), (0x72, 0x72), (0x74, 0x74)])
      + only "u" * always (inside hexRanges) * always
        (inside hexRanges) * always (inside hexRanges)
        * always (inside hexRanges)),
    ("j-string", only "\"" * (fun g => KStar.kstar (rule "j-char" g)) * only "\""),
    ("j-int", only "0" + always (inside [(0x31, 0x39)]) * always
      (KStar.kstar (inside [(0x30, 0x39)]))),
    ("j-frac", only "." * always
      (inside [(0x30, 0x39)] * KStar.kstar (inside [(0x30, 0x39)]))),
    ("j-exp", always (inside [(0x65, 0x65), (0x45, 0x45)]) * always
      (1 + inside [(0x2B, 0x2B), (0x2D, 0x2D)])
      * always (inside [(0x30, 0x39)] * KStar.kstar (inside [(0x30, 0x39)]))),
    ("j-number",
      (fun _ => 1 + {"-".toList}) * rule "j-int"
        * (fun g => 1 + rule "j-frac" g)
      * (fun g => 1 + rule "j-exp" g)),
    ("j-integer", (fun _ => 1 + {"-".toList}) * rule "j-int"),
    ("j-value", rule "j-object" + rule "j-array" + rule "j-string"
      + rule "j-number" + only "true"
      + only "false" + only "null"),
    ("j-object", only "\x7b" * rule "j-ws" * only "\x7d"
      + only "\x7b" * rule "j-ws" * rule "j-pair"
        * (fun g => KStar.kstar
          ((rule "j-ws" * only "," * rule "j-ws" * rule "j-pair") g))
        * rule "j-ws" * only "\x7d"),
    ("j-pair", rule "j-string" * rule "j-ws" * only ":" * rule "j-ws"
      * rule "j-value"),
    ("j-array", only "[" * rule "j-ws" * only "]"
      + only "[" * rule "j-ws" * rule "j-value"
        * (fun g => KStar.kstar
          ((rule "j-ws" * only "," * rule "j-ws" * rule "j-value") g))
        * rule "j-ws" * only "]")]

-- =============================== parts

variable {names : List Text}

/-- A plain character stands for itself in a class. -/
theorem endpoint_char {c : Char} (h : c ∉ [']', '\\']) :
    Endpoint [c] c.toNat := .char h

/-- The escape of the line feed. -/
theorem endpoint_n : Endpoint "\\n".toList 0x0A :=
  .escaped (e := ['n']) (fun _ => rfl) fun _ => rfl

/-- The escape of the carriage return. -/
theorem endpoint_r : Endpoint "\\r".toList 0x0D :=
  .escaped (e := ['r']) (fun _ => rfl) fun _ => rfl

/-- The escape of the tab. -/
theorem endpoint_t : Endpoint "\\t".toList 0x09 :=
  .escaped (e := ['t']) (fun _ => rfl) fun _ => rfl

/-- The escape of the backslash. -/
theorem endpoint_backslash : Endpoint "\\\\".toList 0x5C :=
  .escaped (e := ['\\']) (fun _ => rfl) fun _ => rfl

/-- The lower end of the control characters. -/
theorem endpoint_nul : Endpoint "\\u0000".toList 0x00 :=
  .escaped (e := "u0000".toList) (fun _ => rfl) fun _ => rfl

/-- The upper end of the control characters. -/
theorem endpoint_control : Endpoint "\\u001f".toList 0x1F :=
  .escaped (e := "u001f".toList) (fun _ => rfl) fun _ => rfl

/-- A plain text in quotes. -/
theorem quoted_atom {t : Text} (h : t.all (fun c => c ≠ '"' && c ≠ '\\') = true) :
    Atom names (quoted t) fun _ => {t} := by
  refine .literal (Spelled.word fun c hc hmem => ?_)
  have hplain := List.all_eq_true.mp h c hc
  simp only [List.mem_cons, List.not_mem_nil, or_false] at hmem
  rcases hmem with rfl | rfl <;> exact absurd hplain (by decide)

/-- The four characters that JSON calls white space. -/
theorem ws_atom : Atom names "[ \\t\\n\\r]".toList
    (always (inside [(0x20, 0x20), (0x09, 0x09), (0x0A, 0x0A), (0x0D, 0x0D)])) := by
  refine .cls (c := ' ') (t := "\\t\\n\\r".toList) (by decide) ?_ (by decide)
  refine Listed.single (endpoint_char (c := ' ') (by decide)) (by decide) ?_
  refine Listed.single endpoint_t (by decide) ?_
  refine Listed.single endpoint_n (by decide) ?_
  exact Listed.single endpoint_r (by decide) Listed.nil

/-- What a string holds unescaped: anything but a quote, a backslash and the
control characters. -/
theorem plain_atom : Atom names "[^\"\\\\\\u0000-\\u001f]".toList
    (always (outside [(0x22, 0x22), (0x5C, 0x5C), (0, 0x1F)])) := by
  refine .notCls (t := "\"\\\\\\u0000-\\u001f".toList) ?_ (by decide)
  refine Listed.single (endpoint_char (c := '"') (by decide)) (by decide) ?_
  refine Listed.single endpoint_backslash (by decide) ?_
  exact Listed.range endpoint_nul endpoint_control (by decide) Listed.nil

/-- The characters of the two-character escapes. -/
theorem escapes_atom : Atom names "[\"\\\\/bfnrt]".toList
    (always (inside [(0x22, 0x22), (0x5C, 0x5C), (0x2F, 0x2F), (0x62, 0x62),
      (0x66, 0x66), (0x6E, 0x6E), (0x72, 0x72), (0x74, 0x74)])) := by
  refine .cls (c := '"') (t := "\\\\/bfnrt".toList) (by decide) ?_ (by decide)
  refine Listed.single (endpoint_char (c := '"') (by decide)) (by decide) ?_
  refine Listed.single endpoint_backslash (by decide) ?_
  refine Listed.single (endpoint_char (c := '/') (by decide)) (by decide) ?_
  refine Listed.single (endpoint_char (c := 'b') (by decide)) (by decide) ?_
  refine Listed.single (endpoint_char (c := 'f') (by decide)) (by decide) ?_
  refine Listed.single (endpoint_char (c := 'n') (by decide)) (by decide) ?_
  refine Listed.single (endpoint_char (c := 'r') (by decide)) (by decide) ?_
  exact Listed.single (endpoint_char (c := 't') (by decide)) (by decide) Listed.nil

/-- A hexadecimal digit. -/
theorem hex_atom : Atom names "[0-9a-fA-F]".toList (always (inside hexRanges)) := by
  refine .cls (c := '0') (t := "-9a-fA-F".toList) (by decide) ?_ (by decide)
  refine Listed.range (endpoint_char (c := '0') (by decide))
    (endpoint_char (c := '9') (by decide)) (by decide) ?_
  refine Listed.range (endpoint_char (c := 'a') (by decide))
    (endpoint_char (c := 'f') (by decide)) (by decide) ?_
  exact Listed.range (endpoint_char (c := 'A') (by decide))
    (endpoint_char (c := 'F') (by decide)) (by decide)
    Listed.nil

/-- A decimal digit. -/
theorem digit_atom : Atom names "[0-9]".toList (always (inside [(0x30, 0x39)])) :=
  .cls (c := '0') (t := "-9".toList) (by decide)
    (Listed.range (endpoint_char (c := '0') (by decide))
      (endpoint_char (c := '9') (by decide)) (by decide)
      Listed.nil) (by decide)

/-- The first digit of a number above zero. -/
theorem lead_atom : Atom names "[1-9]".toList (always (inside [(0x31, 0x39)])) :=
  .cls (c := '1') (t := "-9".toList) (by decide)
    (Listed.range (endpoint_char (c := '1') (by decide))
      (endpoint_char (c := '9') (by decide)) (by decide)
      Listed.nil) (by decide)

/-- The mark of an exponent. -/
theorem exponent_atom : Atom names "[eE]".toList
    (always (inside [(0x65, 0x65), (0x45, 0x45)])) := by
  refine .cls (c := 'e') (t := "E".toList) (by decide) ?_ (by decide)
  refine Listed.single (endpoint_char (c := 'e') (by decide)) (by decide) ?_
  exact Listed.single (endpoint_char (c := 'E') (by decide)) (by decide) Listed.nil

/-- The sign of an exponent. -/
theorem sign_atom : Atom names "[+-]".toList
    (always (inside [(0x2B, 0x2B), (0x2D, 0x2D)])) :=
  .cls (c := '+') (t := "-".toList) (by decide)
    (Listed.dash (endpoint_char (c := '+') (by decide))) (by decide)

theorem backslash_expr : Expr names "\"\\\\\"".toList (only "\\") :=
  .literal (t := "\\\\".toList) (show Spelled _ (['\\'].map Char.toNat) from
    Spelled.escaped (e := ['\\']) (fun _ => rfl) Spelled.nil)

theorem quote_expr : Expr names "\"\\\"\"".toList (only "\"") :=
  .literal (t := "\\\"".toList) (show Spelled _ (['"'].map Char.toNat) from
    Spelled.escaped (e := ['"']) (fun _ => rfl) Spelled.nil)

-- =============================== rules

section

variable (hnames : ∀ m ∈ genericMeaning, m.1.toList ∈ names)

include hnames

/-- The name of a generic rule. -/
theorem generic_atom (name : String) (h : isName name.toList = true)
    (hmem : name ∈ genericMeaning.map (·.1)) :
    Atom names name.toList (rule name) := by
  obtain ⟨m, hm, rfl⟩ := List.mem_map.mp hmem
  exact .name (IsName.of_check h) (hnames m hm)

theorem ws_expr : Expr names "j-ws".toList (rule "j-ws") :=
  (generic_atom hnames _ rfl (by decide)).expr

/-- The body of `j-char`. -/
theorem char_alt : Alt names "[^\"\\\\\\u0000-\\u001f] | \"\\\\\" j-esc".toList
    (always (outside [(0x22, 0x22), (0x5C, 0x5C), (0, 0x1F)])
      + only "\\" * rule "j-esc") := by
  have htext : "[^\"\\\\\\u0000-\\u001f] | \"\\\\\" j-esc".toList
      = "[^\"\\\\\\u0000-\\u001f]".toList ++ " | ".toList
        ++ ("\"\\\\\"".toList ++ ' ' :: "j-esc".toList) := rfl
  rw [htext]
  exact plain_atom.expr.alt.append
    (backslash_expr.space (generic_atom hnames _ rfl (by decide)).expr).alt

omit hnames in
/-- The body of `j-esc`: a letter, or `u` and four hexadecimal digits. -/
theorem esc_alt : Alt names
    ("[\"\\\\/bfnrt] | \"u\" [0-9a-fA-F] [0-9a-fA-F] " ++
      "[0-9a-fA-F] [0-9a-fA-F]").toList
    (always (inside [(0x22, 0x22), (0x5C, 0x5C), (0x2F, 0x2F), (0x62, 0x62),
        (0x66, 0x66), (0x6E, 0x6E), (0x72, 0x72), (0x74, 0x74)])
      + only "u" * always (inside hexRanges) * always
        (inside hexRanges) * always (inside hexRanges)
        * always (inside hexRanges)) := by
  have htext :
      ("[\"\\\\/bfnrt] | \"u\" [0-9a-fA-F] [0-9a-fA-F] " ++
        "[0-9a-fA-F] [0-9a-fA-F]").toList
      = "[\"\\\\/bfnrt]".toList ++ " | ".toList
        ++ ((((quoted ['u'] ++ ' ' :: "[0-9a-fA-F]".toList)
        ++ ' ' :: "[0-9a-fA-F]".toList) ++ ' ' :: "[0-9a-fA-F]".toList)
          ++ ' ' :: "[0-9a-fA-F]".toList) := rfl
  rw [htext]
  have hu : Expr names (quoted ['u']) (only "u") := (quoted_atom rfl).expr
  exact escapes_atom.expr.alt.append
    ((((hu.space hex_atom.expr).space hex_atom.expr).space hex_atom.expr).space
      hex_atom.expr).alt

/-- The body of `j-string`: characters between two quotes. -/
theorem string_alt : Alt names "\"\\\"\" j-char* \"\\\"\"".toList
    (only "\"" * (fun g => KStar.kstar (rule "j-char" g)) * only "\"") := by
  have htext : "\"\\\"\" j-char* \"\\\"\"".toList
      = ("\"\\\"\"".toList ++ ' ' :: ("j-char".toList ++ ['*']))
        ++ ' ' :: "\"\\\"\"".toList := rfl
  rw [htext]
  exact ((quote_expr.space (generic_atom hnames _ rfl (by decide)).star).space
    quote_expr).alt

omit hnames in
/-- The body of `j-int`: zero, or digits that do not start with one. -/
theorem int_alt : Alt names "\"0\" | [1-9] [0-9]*".toList
    (only "0" + always (inside [(0x31, 0x39)]) * always
      (KStar.kstar (inside [(0x30, 0x39)]))) := by
  have htext : "\"0\" | [1-9] [0-9]*".toList
      = quoted ['0'] ++ " | ".toList
        ++ ("[1-9]".toList ++ ' ' :: ("[0-9]".toList ++ ['*'])) := rfl
  rw [htext]
  have hzero : Expr names (quoted ['0']) (only "0") := (quoted_atom rfl).expr
  exact hzero.alt.append (lead_atom.expr.space digit_atom.star).alt

omit hnames in
/-- The body of `j-frac`: a point and at least one digit. -/
theorem frac_alt : Alt names "\".\" [0-9]+".toList
    (only "." * always
      (inside [(0x30, 0x39)] * KStar.kstar (inside [(0x30, 0x39)]))) := by
  have htext : "\".\" [0-9]+".toList
    = quoted ['.'] ++ ' ' :: ("[0-9]".toList ++ ['+']) := rfl
  rw [htext]
  have hpoint : Expr names (quoted ['.']) (only ".") := (quoted_atom rfl).expr
  exact (hpoint.space digit_atom.plus).alt

omit hnames in
/-- The body of `j-exp`: a mark, perhaps a sign, at least one digit. -/
theorem exp_alt : Alt names "[eE] [+-]? [0-9]+".toList
    (always (inside [(0x65, 0x65), (0x45, 0x45)]) * always
      (1 + inside [(0x2B, 0x2B), (0x2D, 0x2D)])
      * always (inside [(0x30, 0x39)] * KStar.kstar (inside [(0x30, 0x39)]))) := by
  have htext : "[eE] [+-]? [0-9]+".toList
      = ("[eE]".toList ++ ' ' :: ("[+-]".toList ++ ['?']))
        ++ ' ' :: ("[0-9]".toList ++ ['+']) := rfl
  rw [htext]
  exact ((exponent_atom.expr.space sign_atom.opt).space digit_atom.plus).alt

omit hnames in
/-- The sign a number may have. -/
theorem minus_expr : Expr names (quoted ['-'] ++ ['?']) (fun _ => 1 + {"-".toList}) :=
  (quoted_atom (t := ['-']) rfl).opt

/-- The body of `j-number`: sign, integer part, fraction, exponent. -/
theorem number_alt : Alt names "\"-\"? j-int j-frac? j-exp?".toList
    ((fun _ => 1 + {"-".toList}) * rule "j-int" * (fun g => 1 + rule "j-frac" g)
      * (fun g => 1 + rule "j-exp" g)) := by
  have htext : "\"-\"? j-int j-frac? j-exp?".toList
      = (((quoted ['-'] ++ ['?']) ++ ' ' :: "j-int".toList)
        ++ ' ' :: ("j-frac".toList ++ ['?']))
        ++ ' ' :: ("j-exp".toList ++ ['?']) := rfl
  rw [htext]
  have hint := (generic_atom hnames "j-int" rfl (by decide)).expr
  have hfrac := (generic_atom hnames "j-frac" rfl (by decide)).opt
  exact (((minus_expr.space hint).space hfrac).space
    (generic_atom hnames _ rfl (by decide)).opt).alt

/-- The body of `j-integer`. -/
theorem integer_alt : Alt names "\"-\"? j-int".toList
    ((fun _ => 1 + {"-".toList}) * rule "j-int") := by
  have htext : "\"-\"? j-int".toList = (quoted ['-'] ++ ['?'])
    ++ ' ' :: "j-int".toList := rfl
  rw [htext]
  exact (minus_expr.space (generic_atom hnames _ rfl (by decide)).expr).alt

/-- The body of `j-value`: one alternative for each kind of value. -/
theorem value_alt : Alt names
    ("j-object | j-array | j-string | j-number | \"true\" " ++
      "| \"false\" | \"null\"").toList
    (rule "j-object" + rule "j-array" + rule "j-string" + rule "j-number"
      + only "true" + only "false"
      + only "null") := by
  have htext :
      ("j-object | j-array | j-string | j-number | \"true\" " ++
        "| \"false\" | \"null\"").toList
      = (((((("j-object".toList ++ " | ".toList ++ "j-array".toList)
        ++ " | ".toList ++ "j-string".toList)
        ++ " | ".toList ++ "j-number".toList) ++ " | ".toList
          ++ quoted "true".toList) ++ " | ".toList
        ++ quoted "false".toList) ++ " | ".toList ++ quoted "null".toList) := rfl
  rw [htext]
  have hobject := (generic_atom hnames "j-object" rfl (by decide)).expr.alt
  have harray := (generic_atom hnames "j-array" rfl (by decide)).expr.alt
  have hstring := (generic_atom hnames "j-string" rfl (by decide)).expr.alt
  have hnumber := (generic_atom hnames "j-number" rfl (by decide)).expr.alt
  have hword : ∀ {s : String}, s.toList.all (fun c => c ≠ '"' && c ≠ '\\') = true →
      Alt names (quoted s.toList) (only s) := fun h => (quoted_atom h).expr.alt
  exact (((((hobject.append harray).append hstring).append hnumber).append
    (hword rfl)).append
    (hword rfl)).append (hword rfl)

/-- The body of `j-pair`: a key, a colon, a value. -/
theorem pair_alt : Alt names "j-string j-ws \":\" j-ws j-value".toList
    (rule "j-string" * rule "j-ws" * only ":" * rule "j-ws" * rule "j-value") := by
  have htext : "j-string j-ws \":\" j-ws j-value".toList
      = ((("j-string".toList ++ ' ' :: "j-ws".toList) ++ ' ' :: quoted [':'])
        ++ ' ' :: "j-ws".toList)
        ++ ' ' :: "j-value".toList := rfl
  rw [htext]
  have hstring := (generic_atom hnames "j-string" rfl (by decide)).expr
  have hcolon : Expr names (quoted [':']) (only ":") := (quoted_atom rfl).expr
  have hws := ws_expr hnames
  exact ((((hstring.space hws).space hcolon).space hws).space
    (generic_atom hnames _ rfl (by decide)).expr).alt

/-- Brackets around nothing, or around members with commas between. -/
theorem members_alt {a b item : String}
    (ha : a.toList.all (fun c => c ≠ '"' && c ≠ '\\') = true)
    (hb : b.toList.all (fun c => c ≠ '"' && c ≠ '\\') = true)
    (hitem : isName item.toList = true)
    (hmem : item ∈ genericMeaning.map (·.1)) :
    Alt names (((quoted a.toList ++ ' ' :: "j-ws".toList)
        ++ ' ' :: quoted b.toList) ++ " | ".toList
        ++ (((((quoted a.toList ++ ' ' :: "j-ws".toList) ++ ' ' :: item.toList)
          ++ ' ' :: (('('
            :: ((("j-ws".toList ++ ' ' :: quoted [','])
              ++ ' ' :: "j-ws".toList)
            ++ ' ' :: item.toList) ++ [')']) ++ ['*']))
              ++ ' ' :: "j-ws".toList) ++ ' ' :: quoted b.toList))
      (only a * rule "j-ws" * only b
        + only a * rule "j-ws" * rule item
          * (fun g => KStar.kstar
            ((rule "j-ws" * only "," * rule "j-ws" * rule item) g))
          * rule "j-ws" * only b) := by
  have hopen : Expr names (quoted a.toList) (only a) := (quoted_atom ha).expr
  have hclose : Expr names (quoted b.toList) (only b) := (quoted_atom hb).expr
  have hcomma : Expr names (quoted [',']) (only ",") := (quoted_atom rfl).expr
  have hws := ws_expr hnames
  have hone := (generic_atom hnames item hitem hmem).expr
  have hmore := Atom.group (((hws.space hcomma).space hws).space hone).alt
  exact ((hopen.space hws).space hclose).alt.append
    (((((hopen.space hws).space hone).space hmore.star).space hws).space hclose).alt

/-- The body of `j-object`: no pairs, or pairs between commas. -/
theorem object_alt : Alt names
    ("\"\x7b\" j-ws \"\x7d\" | \"\x7b\" j-ws j-pair (j-ws " ++
      "\",\" j-ws j-pair)* j-ws \"\x7d\"").toList
    (only "\x7b" * rule "j-ws" * only "\x7d"
      + only "\x7b" * rule "j-ws" * rule "j-pair"
        * (fun g => KStar.kstar
          ((rule "j-ws" * only "," * rule "j-ws" * rule "j-pair") g))
        * rule "j-ws" * only "\x7d") := by
  have htext :
      ("\"\x7b\" j-ws \"\x7d\" | \"\x7b\" j-ws j-pair (j-ws " ++
        "\",\" j-ws j-pair)* j-ws \"\x7d\"").toList
      = ((quoted "\x7b".toList ++ ' ' :: "j-ws".toList)
        ++ ' ' :: quoted "\x7d".toList) ++ " | ".toList
        ++ (((((quoted "\x7b".toList ++ ' ' :: "j-ws".toList)
          ++ ' ' :: "j-pair".toList)
          ++ ' ' :: (('('
            :: ((("j-ws".toList ++ ' ' :: quoted [','])
              ++ ' ' :: "j-ws".toList)
            ++ ' ' :: "j-pair".toList) ++ [')']) ++ ['*']))
              ++ ' ' :: "j-ws".toList) ++ ' ' :: quoted "\x7d".toList) := rfl
  rw [htext]
  exact members_alt hnames rfl rfl rfl (by decide)

/-- The body of `j-array`: no values, or values between commas. -/
theorem array_alt : Alt names
    ("\"[\" j-ws \"]\" | \"[\" j-ws j-value (j-ws \",\" " ++
      "j-ws j-value)* j-ws \"]\"").toList
    (only "[" * rule "j-ws" * only "]"
      + only "[" * rule "j-ws" * rule "j-value"
        * (fun g => KStar.kstar
          ((rule "j-ws" * only "," * rule "j-ws" * rule "j-value") g))
        * rule "j-ws" * only "]") := by
  have htext :
      ("\"[\" j-ws \"]\" | \"[\" j-ws j-value (j-ws \",\" " ++
        "j-ws j-value)* j-ws \"]\"").toList
      = ((quoted "[".toList ++ ' ' :: "j-ws".toList)
        ++ ' ' :: quoted "]".toList) ++ " | ".toList
        ++ (((((quoted "[".toList ++ ' ' :: "j-ws".toList) ++ ' ' :: "j-value".toList)
          ++ ' ' :: (('('
            :: ((("j-ws".toList ++ ' ' :: quoted [','])
              ++ ' ' :: "j-ws".toList)
            ++ ' ' :: "j-value".toList) ++ [')']) ++ ['*']))
              ++ ' ' :: "j-ws".toList) ++ ' ' :: quoted "]".toList) := rfl
  rw [htext]
  exact members_alt hnames rfl rfl rfl (by decide)

end

-- ============================ grammars

/-- The generic rules, with what they mean. -/
def genericParts : List (Text × Text × Meaning) :=
  List.zipWith (fun r m => (r.1, r.2, m.2)) genericRules genericMeaning

/-- Every generic rule has a name, and a text that means what it should. -/
theorem genericParts_alt (hnames : ∀ m ∈ genericMeaning, m.1.toList ∈ names) :
    ∀ part ∈ genericParts, IsName part.1 ∧ Alt names part.2.1 part.2.2 := by
  refine List.forall_mem_cons.mpr ⟨⟨.of_check rfl, ws_atom.star.alt⟩, ?_⟩
  refine List.forall_mem_cons.mpr ⟨⟨.of_check rfl, char_alt hnames⟩, ?_⟩
  refine List.forall_mem_cons.mpr ⟨⟨.of_check rfl, esc_alt⟩, ?_⟩
  refine List.forall_mem_cons.mpr ⟨⟨.of_check rfl, string_alt hnames⟩, ?_⟩
  refine List.forall_mem_cons.mpr ⟨⟨.of_check rfl, int_alt⟩, ?_⟩
  refine List.forall_mem_cons.mpr ⟨⟨.of_check rfl, frac_alt⟩, ?_⟩
  refine List.forall_mem_cons.mpr ⟨⟨.of_check rfl, exp_alt⟩, ?_⟩
  refine List.forall_mem_cons.mpr ⟨⟨.of_check rfl, number_alt hnames⟩, ?_⟩
  refine List.forall_mem_cons.mpr ⟨⟨.of_check rfl, integer_alt hnames⟩, ?_⟩
  refine List.forall_mem_cons.mpr ⟨⟨.of_check rfl, value_alt hnames⟩, ?_⟩
  refine List.forall_mem_cons.mpr ⟨⟨.of_check rfl, object_alt hnames⟩, ?_⟩
  refine List.forall_mem_cons.mpr ⟨⟨.of_check rfl, pair_alt hnames⟩, ?_⟩
  refine List.forall_mem_cons.mpr ⟨⟨.of_check rfl, array_alt hnames⟩, ?_⟩
  exact nofun

/-- The texts are those that the converter emits. -/
theorem genericParts_rules : genericParts.map
    (fun part => (part.1, part.2.1)) = genericRules := rfl

/-- The meanings are those that the language of JSON is made of. -/
theorem genericParts_meaning :
    genericParts.map (fun part => (part.1, part.2.2))
      = genericMeaning.map fun m => (m.1.toList, m.2) := rfl

/-- The generic rules and others: the parser reads them, and each has its
meaning. -/
theorem parse_generic {extra : List (Text × Text × Meaning)}
    (h : ∀ part ∈ extra, IsName part.1
      ∧ Alt ((genericParts ++ extra).map (·.1)) part.2.1 part.2.2)
    (hnodup : ((genericParts ++ extra).map (·.1)).Nodup) :
    ∃ parsed, Settles
        (fun fuel =>
          parse fuel (written
            (genericRules ++ extra.map fun part => (part.1, part.2.1))))
        (.ok parsed)
      ∧ (∀ m ∈ genericMeaning, rule m.1 parsed = m.2 parsed)
      ∧ ∀ part ∈ extra, texts parsed (.ref part.1) = part.2.2 parsed := by
  have hpart : ∀ m ∈ genericMeaning, ∃ part ∈ genericParts, part.1 = m.1.toList
      ∧ part.2.2 = m.2 := by
    intro m hm
    have hmem : (m.1.toList, m.2) ∈ genericParts.map fun part =>
        (part.1, part.2.2) := by
      rw [genericParts_meaning]
      exact List.mem_map_of_mem hm
    obtain ⟨part, hpart, heq⟩ := List.mem_map.mp hmem
    exact ⟨part, hpart, congrArg Prod.fst heq, congrArg Prod.snd heq⟩
  have hnames : ∀ m ∈ genericMeaning,
      m.1.toList ∈ (genericParts ++ extra).map (·.1) := by
    intro m hm
    obtain ⟨part, hmem, heq, -⟩ := hpart m hm
    exact List.mem_map.mpr ⟨part, List.mem_append_left _ hmem, heq⟩
  have hall : ∀ part ∈ genericParts ++ extra,
      IsName part.1 ∧ Alt ((genericParts ++ extra).map (·.1)) part.2.1 part.2.2 := by
    intro part hmem
    rcases List.mem_append.mp hmem with hmem | hmem
    · exact genericParts_alt hnames part hmem
    · exact h part hmem
  obtain ⟨parsed, hparse, htexts⟩ := parse_written hall hnodup (List.cons_ne_nil _ _)
  rw [List.map_append, genericParts_rules] at hparse
  refine ⟨parsed, hparse, fun m hm => ?_, fun part hmem =>
    htexts part (List.mem_append_right _ hmem)⟩
  obtain ⟨part, hmem, hname, hmeaning⟩ := hpart m hm
  have heq := htexts part (List.mem_append_left _ hmem)
  rwa [hname, hmeaning] at heq

end Minfer.Schema
