/-
The Python `str` methods of the template engine (`template.rs`).

Text is a list of characters, so a place in it is a character index. The
Unicode tables are parameters, with what is known of them.
-/
import Mathlib.Data.List.DropRight
import Minfer.Lib.Substring

namespace Minfer.Template

open Minfer.Lib (scan cutAt)

abbrev Text := List Char

-- ============================== tables

/-- The Unicode tables that the methods read. -/
structure CaseTables where
  isWhitespace : Char → Bool
  isAlphanumeric : Char → Bool
  isCased : Char → Bool
  isCaseIgnorable : Char → Bool
  toUpper : Char → Text
  toLower : Char → Text
  toTitle : Char → Text
  lower_sigma : toLower 'Σ' = ['σ']
  alphanumeric_of_cased : ∀ c, isCased c = true → isAlphanumeric c = true
  /-- No mapping of a character is the start of another mapping of it. -/
  eq_of_start : ∀ c, ∀ a ∈ [toUpper c, toLower c, toTitle c],
    ∀ b ∈ [toUpper c, toLower c, toTitle c], a <+: b → a = b

variable (t : CaseTables)

/-- A cased letter, behind any case-ignorable characters. -/
def casedNext (text : Text) : Bool :=
  (text.dropWhile t.isCaseIgnorable).head?.any t.isCased

/-- `Final_Sigma`, by what stands before the letter, from it on backwards, and
what stands after it. -/
def finalSigma (before after : Text) : Bool :=
  casedNext t before && ! casedNext t after

/-- The lower case of a letter in its place. -/
def lowerAt (before : Text) (c : Char) (after : Text) : Text :=
  if c = 'Σ' then (if finalSigma t before after then ['ς'] else ['σ'])
    else t.toLower c

/-- The lower case of a text, behind another. -/
def lowerFrom : Text → Text → Text
  | _, [] => []
  | before, c :: rest => lowerAt t before c rest ++ lowerFrom (c :: before) rest

-- ========================= std's `str`

/-- `str::find`. -/
def find (recv sub : Text) : Option Nat := (scan sub 0 0 recv).head?

/-- `str::rfind`: the mirror of `find`. -/
def rfind (recv sub : Text) : Option Nat :=
  (find recv.reverse sub.reverse).map fun i => recv.length - sub.length - i

/-- `str::split`. -/
def split (recv sep : Text) : List Text := cutAt recv sep.length 0 (scan sep 0 0 recv)

/-- `str::splitn`. -/
def splitn (recv : Text) (n : Nat) (sep : Text) : List Text :=
  cutAt recv sep.length 0 ((scan sep 0 0 recv).take (n - 1))

/-- `str::rsplitn`: the mirror of `splitn`. -/
def rsplitn (recv : Text) (n : Nat) (sep : Text) : List Text :=
  (splitn recv.reverse n sep.reverse).map List.reverse

/-- `str::replacen`. -/
def replacen (recv old new : Text) (count : Nat) : Text :=
  new.intercalate (cutAt recv old.length 0 ((scan old 0 0 recv).take count))

/-- `str::replace`. -/
def replace (recv old new : Text) : Text :=
  new.intercalate (cutAt recv old.length 0 (scan old 0 0 recv))

/-- `str::to_lowercase`. -/
def toLowercase (recv : Text) : Text := lowerFrom t [] recv

/-- `str::to_uppercase`. -/
def toUppercase (recv : Text) : Text := recv.flatMap t.toUpper

-- ======================= the arguments

/-- `PyArg`. -/
inductive PyArg where
  | str (s : Text)
  | int (i : Int)
  | none
  | strList (v : List Text)
deriving Repr, DecidableEq

/-- `PyValue`. -/
inductive PyValue where
  | str (s : Text)
  | int (i : Int)
  | bool (b : Bool)
  | list (v : List Text)
deriving Repr, DecidableEq

/-- `SUPPORTED_STR_METHODS`. -/
inductive StrMethod where
  | capitalize
  | count
  | endswith
  | find
  | join
  | lower
  | ljust
  | lstrip
  | replace
  | rfind
  | rjust
  | rsplit
  | rstrip
  | split
  | splitlines
  | startswith
  | strip
  | title
  | upper
deriving Repr, DecidableEq

namespace StrMethod

def name : StrMethod → String
  | capitalize => "capitalize"
  | count => "count"
  | endswith => "endswith"
  | find => "find"
  | join => "join"
  | lower => "lower"
  | ljust => "ljust"
  | lstrip => "lstrip"
  | replace => "replace"
  | rfind => "rfind"
  | rjust => "rjust"
  | rsplit => "rsplit"
  | rstrip => "rstrip"
  | split => "split"
  | splitlines => "splitlines"
  | startswith => "startswith"
  | strip => "strip"
  | title => "title"
  | upper => "upper"

def supported : List StrMethod :=
  [capitalize, count, endswith, find, join, lower, ljust, lstrip, replace,
    rfind, rjust, rsplit, rstrip, split,
    splitlines, startswith, strip, title, upper]

end StrMethod

/-- What a method gives, or the text it refuses its arguments with. -/
abbrev Answer (α : Type) := Except Text α

section Methods

-- The debug text of a `PyArg`.
variable (debug : PyArg → Text)

/-- A refusal that shows an argument. -/
def got (message : String) (arg : PyArg) : Text := message.toList ++ debug arg

/-- `no_args`. -/
def noArgs (m : StrMethod) (args : List PyArg) : Answer Unit :=
  if args.isEmpty then .ok () else .error (m.name ++ "() takes no arguments").toList

/-- `sub_arg`. -/
def subArg (m : StrMethod) (args : List PyArg) : Answer Text :=
  match args.head? with
  | some (.str s) => .ok s
  | some other => .error (got debug "expected a string argument, got " other)
  | none => .error (m.name ++ "() needs an argument").toList

/-- `py_char_set`. -/
def pyCharSet (args : List PyArg) : Answer (Option Text) :=
  match args.head? with
  | none => .ok none
  | some .none => .ok none
  | some (.str s) => .ok (some s)
  | some other => .error (got debug "expected a string, got " other)

/-- `py_trim`. -/
def pyTrim (recv : Text) (set : Option Text) (left right : Bool) : Text :=
  let isStripped (c : Char) := match set with
    | some set => set.contains c
    | none => t.isWhitespace c
  let out := if left then recv.dropWhile isStripped else recv
  if right then out.rdropWhile isStripped else out

/-- The loop of `py_split` in whitespace mode; it trims the rest at every turn,
so it ends within the text's length. -/
def splitWhitespace (maxsplit : Int) : Nat → Int → Text → List Text
  | 0, _, _ => []
  | fuel + 1, splits, rest =>
      let rest := rest.dropWhile t.isWhitespace
      if rest.isEmpty then []
      else if maxsplit ≥ 0 && splits == maxsplit then [rest]
      else
        match rest.findIdx? t.isWhitespace with
        | some i => rest.take i :: splitWhitespace maxsplit fuel (splits + 1)
            (rest.drop i)
        | none => [rest]

/-- `py_split` with a separator. -/
def splitAt (recv sep : Text) (maxsplit : Int) (fromRight : Bool) : List Text :=
  if maxsplit < 0 then split recv sep
  else if maxsplit = 0 then [recv]
  else
    let n := maxsplit.toNat + 1
    if fromRight then (rsplitn recv n sep).reverse else splitn recv n sep

/-- `py_split`. -/
def pySplit (recv : Text) (args : List PyArg) (fromRight : Bool) :
    Answer PyValue := do
  let sep ← match args.head? with
    | none => .ok none
    | some .none => .ok none
    | some (.str s) => .ok (some s)
    | some other => .error (got debug "separator must be a string, got " other)
  let maxsplit ← match (args[1]? : Option PyArg) with
    | none => .ok (-1)
    | some (.int i) => .ok i
    | some other => .error (got debug "maxsplit must be an integer, got " other)
  match sep with
  | none =>
      if maxsplit = 0 then return .list [pyTrim t recv none true true]
      else return .list (splitWhitespace t maxsplit (recv.length + 1) 0 recv)
  | some sep =>
      if sep.isEmpty then .error "empty separator".toList
      else return .list (splitAt recv sep maxsplit fromRight)

/-- `py_title`. -/
def pyTitle : Bool → Text → Text
  | _, [] => []
  | prevCased, c :: rest => (if prevCased then t.toLower c else t.toUpper c)
      ++ pyTitle (t.isAlphanumeric c) rest

/-- `is_boundary`. -/
def isBoundary (c : Char) : Bool :=
  c = '\n' || c = '\r' || c = '\x0b' || c = '\x0c' || c = '\x1c' || c = '\x1d'
    || c = '\x1e' || c = '\u0085'
    || c = '\u2028' || c = '\u2029'

/-- The loop of `py_splitlines`, with the line so far; `\r\n` is one boundary. -/

def splitlinesFrom (keepends : Bool) : Text → Text → List Text
  | line, [] => if line.isEmpty then [] else [line]
  | line, '\r' :: '\n' :: rest =>
      (if keepends then line ++ ['\r', '\n'] else line)
        :: splitlinesFrom keepends [] rest
  | line, c :: rest =>
      if ! isBoundary c then splitlinesFrom keepends (line ++ [c]) rest
      else (if keepends then line ++ [c] else line) :: splitlinesFrom keepends [] rest

/-- `py_splitlines`. -/
def pySplitlines (recv : Text) (keepends : Bool) : List Text :=
  splitlinesFrom keepends [] recv

/-- `py_justify`. -/
def pyJustify (recv : Text) (args : List PyArg) (padRight : Bool) :
    Answer PyValue := do
  let width ← match args.head? with
    | some (.int i) => .ok i
    | some other => .error (got debug "width must be an integer, got " other)
    | none => .error "a width is required".toList
  let fill ← match (args[1]? : Option PyArg) with
    | none => .ok ' '
    | some (.str [c]) => .ok c
    | some (.str _) =>
        .error ("the fill character must be a string of exactly one " ++
            "character").toList
    | some other =>
        .error (got debug "the fill character must be a string, got " other)
  let len : Int := recv.length
  if width ≤ len then return .str recv
  else
    let pad := List.replicate (width - len).toNat fill
    return .str (if padRight then recv ++ pad else pad ++ recv)

/-- `py_index`. -/
def pyIndex (recv sub : Text) (fromRight : Bool) : Option Int :=
  (if fromRight then rfind recv sub else find recv sub).map fun i => (i : Int)

/-- The `startswith` and `endswith` of `impl_str_method`. -/
def hasAffix (m : StrMethod) (atStart : Bool) (recv : Text)
    (args : List PyArg) : Answer PyValue := do
  let prefixes ← match args.head? with
    | some (.str s) => .ok [s]
    | some (.strList v) => .ok v
    | some other => .error (got debug "expected a string or a tuple, got " other)
    | none => .error (m.name ++ "() needs an argument").toList
  if args.length > 1 then
    .error (m.name
      ++ "(start[, end]) is not implemented; only the prefix form is").toList
  else
    return .bool (prefixes.any fun p => if atStart then p.isPrefixOf recv
      else p.isSuffixOf recv)

/-- The `replace` of `impl_str_method`. -/
def implReplace (recv : Text) (args : List PyArg) : Answer PyValue := do
  if args.length < 2 then .error "replace() needs old and new".toList
  else
    let old ← subArg debug .replace args
    let new ← subArg debug .replace (args.drop 1)
    let count ← match (args[2]? : Option PyArg) with
      | none => .ok (-1)
      | some (.int i) => .ok i
      | some other => .error (got debug "count must be an integer, got " other)
    return .str (if count < 0 then replace recv old new
      else replacen recv old new count.toNat)

/-- The `capitalize` of `impl_str_method`. -/
def capitalize : Text → Text
  | [] => []
  | first :: rest => t.toUpper first ++ rest.flatMap t.toLower

/-- The `join` of `impl_str_method`. -/
def implJoin (recv : Text) (args : List PyArg) : Answer PyValue := do
  let items ← match args.head? with
    | some (.strList v) => .ok v
    | some (.str s) => .ok (s.map fun c => [c])
    | some other => .error (got debug "join() expects a sequence, got " other)
    | none => .error "join() needs an argument".toList
  return .str (recv.intercalate items)

/-- The `find` and `rfind` of `impl_str_method`. -/
def implFind (m : StrMethod) (fromRight : Bool) (recv : Text)
    (args : List PyArg) : Answer PyValue := do
  let sub ← subArg debug m args
  if args.length > 1
    then .error (m.name ++ "(sub, start[, end]) is not implemented").toList
  else return .int ((pyIndex recv sub fromRight).getD (-1))

/-- The `count` of `impl_str_method`. -/
def implCount (recv : Text) (args : List PyArg) : Answer PyValue := do
  let sub ← subArg debug .count args
  if sub.isEmpty then return .int (recv.length + 1)
  else return .int (scan sub 0 0 recv).length

/-- The `splitlines` of `impl_str_method`. -/
def implSplitlines (recv : Text) (args : List PyArg) : Answer PyValue := do
  let keepends ← match args.head? with
    | none => .ok false
    | some .none => .ok false
    | some (.int i) => .ok (i != 0)
    | some other => .error (got debug "keepends must be a boolean, got " other)
  if args.length > 1 then .error "splitlines() takes at most one argument".toList
  else return .list (pySplitlines recv keepends)

/-- `strip`, `lstrip` and `rstrip` of `impl_str_method`. -/
def implStrip (left right : Bool) (recv : Text) (args : List PyArg) :
    Answer PyValue := do
  let set ← pyCharSet debug args
  return .str (pyTrim t recv set left right)

/-- A method of `impl_str_method` that takes no arguments. -/
def implNoArgs (m : StrMethod) (f : Text → Text) (recv : Text)
    (args : List PyArg) : Answer PyValue := do
  noArgs m args
  return .str (f recv)

/-- `impl_str_method`. -/
def implStrMethod (m : StrMethod) (recv : Text) (args : List PyArg) :
    Answer PyValue :=
  match m with
  | .strip => implStrip t debug true true recv args
  | .lstrip => implStrip t debug true false recv args
  | .rstrip => implStrip t debug false true recv args
  | .split => pySplit t debug recv args false
  | .rsplit => pySplit t debug recv args true
  | .startswith => hasAffix debug .startswith true recv args
  | .endswith => hasAffix debug .endswith false recv args
  | .replace => implReplace debug recv args
  | .lower => implNoArgs .lower (toLowercase t) recv args
  | .upper => implNoArgs .upper (toUppercase t) recv args
  | .title => implNoArgs .title (pyTitle t false) recv args
  | .capitalize => implNoArgs .capitalize (capitalize t) recv args
  | .join => implJoin debug recv args
  | .find => implFind debug .find false recv args
  | .rfind => implFind debug .rfind true recv args
  | .count => implCount debug recv args
  | .splitlines => implSplitlines debug recv args
  | .ljust => pyJustify debug recv args true
  | .rjust => pyJustify debug recv args false

/-- `py_str_method`: nothing for a name that is not supported. -/
def pyStrMethod (name : String) (recv : Text) (args : List PyArg) :
    Option (Answer PyValue) :=
  (StrMethod.supported.find? fun m => m.name = name).map fun m =>
    implStrMethod t debug m recv args

end Methods

end Minfer.Template
