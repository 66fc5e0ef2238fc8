/-
What CPython's `str` methods do: the statement that `py_str_method` is compared
with, and no part of the engine.

A search is by lowest or highest place, a split repeats the search, and a
method that raises gives nothing. Lists stand for the sequences that a method
takes.
-/
import Minfer.Lib.Fields
import Minfer.Template.StrMethod

namespace Minfer.Template.CPython

open Minfer.Lib (lowest highest splits rsplits fields rfields)
open Minfer.Template (CaseTables PyArg PyValue StrMethod Text lowerAt lowerFrom)

variable (t : CaseTables)

-- ============================== slices

/-- An index argument, with its default. -/
def index (default : Int) : PyArg → Option Int
  | .int i => some i
  | .none => some default
  | _ => none

/-- A start index; a negative one counts from the end. -/
def startAt (len : Nat) (i : Int) : Nat := if i < 0 then (i + len).toNat else i.toNat

/-- An end index, that is also held to the length. -/
def stopAt (len : Nat) (i : Int) : Nat :=
  if i < 0 then (i + len).toNat else min i.toNat len

/-- The bounds of a slice. -/
def bounds (len : Nat) : List PyArg → Option (Nat × Nat)
  | [] => some (0, len)
  | [start] => do return (startAt len (← index 0 start), len)
  | [start, stop] =>
      do return (startAt len (← index 0 start), stopAt len (← index len stop))
  | _ => none

/-- A slice. -/
def slice (recv : Text) (start stop : Nat) : Text := (recv.take stop).drop start

/-- A count, with no limit for a negative one. -/
def limit (recv : Text) (count : Int) : Nat :=
  if count < 0 then recv.length + 1 else count.toNat

-- ============================= methods

/-- What is left between characters that are stripped off. -/
def stripped (isStripped : Char → Bool) (left right : Bool) (recv : Text) : Text :=
  let out := if left then recv.dropWhile isStripped else recv
  if right then out.rdropWhile isStripped else out

def strip (left right : Bool) (recv : Text) : List PyArg → Option PyValue
  | [] => some (.str (stripped t.isWhitespace left right recv))
  | [.none] => some (.str (stripped t.isWhitespace left right recv))
  | [.str chars] => some (.str (stripped (fun c => chars.contains c) left right recv))
  | _ => none

/-- The pieces at a separator, or the words. -/
def pieces (fromRight : Bool) (recv : Text) (sep : Option Text)
    (maxsplit : Int) : Option PyValue :=
  match sep with
  | none =>
      some (.list (if fromRight then rfields t.isWhitespace (limit recv maxsplit) recv
        else fields t.isWhitespace (limit recv maxsplit) recv))
  | some sep =>
      if sep.isEmpty then none
      else
        some (.list (if fromRight then rsplits sep (limit recv maxsplit) recv
          else splits sep (limit recv maxsplit) recv))

def split (fromRight : Bool) (recv : Text) : List PyArg → Option PyValue
  | [] => pieces t fromRight recv none (-1)
  | [.none] => pieces t fromRight recv none (-1)
  | [.none, .int maxsplit] => pieces t fromRight recv none maxsplit
  | [.str sep] => pieces t fromRight recv (some sep) (-1)
  | [.str sep, .int maxsplit] => pieces t fromRight recv (some sep) maxsplit
  | _ => none

/-- Whether a slice starts or ends with one of the texts. -/
def affix (atStart : Bool) (recv : Text) (affixes : List Text)
    (start stop : Nat) : PyValue :=
  .bool (affixes.any fun p => decide (start + p.length ≤ stop)
    && if atStart then p.isPrefixOf (slice recv start stop)
      else p.isSuffixOf (slice recv start stop))

def hasAffix (atStart : Bool) (recv : Text) : List PyArg → Option PyValue
  | .str s :: rest => (bounds recv.length rest).map fun b =>
    affix atStart recv [s] b.1 b.2
  | .strList v :: rest => (bounds recv.length rest).map fun b =>
      affix atStart recv v b.1 b.2
  | _ => none

/-- A text put in front of so many characters, and at the end. -/
def interleave (new : Text) : Nat → Text → Text
  | 0, recv => recv
  | _ + 1, [] => new
  | k + 1, c :: rest => new ++ c :: interleave new k rest

/-- The first so many occurrences replaced. -/
def replaced (recv old new : Text) (count : Int) : PyValue :=
  .str (if old.isEmpty then interleave new (limit recv count) recv
    else new.intercalate (splits old (limit recv count) recv))

def replace (recv : Text) : List PyArg → Option PyValue
  | [.str old, .str new] => some (replaced recv old new (-1))
  | [.str old, .str new, .int count] => some (replaced recv old new count)
  | _ => none

/-- A method that takes no arguments. -/
def plain (f : Text → Text) (recv : Text) : List PyArg → Option PyValue
  | [] => some (.str (f recv))
  | _ => none

/-- A letter behind no cased one is in title case, any other in lower case. -/
def titleFrom : Bool → Text → Text → Text
  | _, _, [] => []
  | prevCased, before, c :: rest =>
      (if prevCased then lowerAt t before c rest else t.toTitle c)
        ++ titleFrom (t.isCased c) (c :: before) rest

def capitalize : Text → Text
  | [] => []
  | first :: rest => t.toTitle first ++ lowerFrom t [first] rest

def join (recv : Text) : List PyArg → Option PyValue
  | [.strList v] => some (.str (recv.intercalate v))
  | [.str s] => some (.str (recv.intercalate (s.map fun c => [c])))
  | _ => none

/-- The place of a text in a slice, or -1. -/
def placeIn (fromRight : Bool) (recv sub : Text) (start stop : Nat) : Int :=
  if stop < start then -1
  else
    match if fromRight then highest sub (slice recv start stop)
        else lowest sub (slice recv start stop) with
    | some i => start + i
    | none => -1

def find (fromRight : Bool) (recv : Text) : List PyArg → Option PyValue
  | .str sub :: rest => (bounds recv.length rest).map fun b =>
    .int (placeIn fromRight recv sub b.1 b.2)
  | _ => none

/-- The number of occurrences in a slice, none of which overlap. -/
def countIn (recv sub : Text) (start stop : Nat) : Int :=
  if stop < start then 0
  else
    let within := slice recv start stop
    if sub.isEmpty then within.length + 1
      else (splits sub (within.length + 1) within).length - 1

def count (recv : Text) : List PyArg → Option PyValue
  | .str sub :: rest => (bounds recv.length rest).map fun b =>
    .int (countIn recv sub b.1 b.2)
  | _ => none

/-- The line boundaries. -/
def lineBreaks :
    Text := ['\n', '\r', '\x0b', '\x0c', '\x1c', '\x1d', '\x1e', '\u0085',
      '\u2028', '\u2029']

def isLineBreak (c : Char) : Bool := lineBreaks.contains c

/-- The lines of a text, one after another. -/
def lines (keepends : Bool) : Nat → Text → List Text
  | 0, _ => []
  | n + 1, recv =>
      let line := recv.takeWhile (! isLineBreak ·)
      match recv.dropWhile (! isLineBreak ·) with
      | [] => if line.isEmpty then [] else [line]
      | '\r' :: '\n' :: rest =>
          (if keepends then line ++ ['\r', '\n'] else line)
            :: lines keepends n rest
      | c :: rest => (if keepends then line ++ [c] else line) :: lines keepends n rest

/-- The truth of an argument. -/
def truth : PyArg → Bool
  | .str s => ! s.isEmpty
  | .int i => i != 0
  | .none => false
  | .strList v => ! v.isEmpty

def splitlines (recv : Text) : List PyArg → Option PyValue
  | [] => some (.list (lines false (recv.length + 1) recv))
  | [keepends] => some (.list (lines (truth keepends) (recv.length + 1) recv))
  | _ => none

/-- A text filled up to a width. -/
def justified (padRight : Bool) (recv : Text) (width : Int) (fill : Char) : PyValue :=
  let pad := List.replicate (width - recv.length).toNat fill
  .str (if padRight then recv ++ pad else pad ++ recv)

def justify (padRight : Bool) (recv : Text) : List PyArg → Option PyValue
  | [.int width] => some (justified padRight recv width ' ')
  | [.int width, .str [fill]] => some (justified padRight recv width fill)
  | _ => none

/-- CPython's method, on arguments that it does not raise for. -/
def strMethod (m : StrMethod) (recv : Text) (args : List PyArg) : Option PyValue :=
  match m with
  | .strip => strip t true true recv args
  | .lstrip => strip t true false recv args
  | .rstrip => strip t false true recv args
  | .split => split t false recv args
  | .rsplit => split t true recv args
  | .startswith => hasAffix true recv args
  | .endswith => hasAffix false recv args
  | .replace => replace recv args
  | .lower => plain (lowerFrom t []) recv args
  | .upper => plain (fun recv => recv.flatMap t.toUpper) recv args
  | .title => plain (titleFrom t false []) recv args
  | .capitalize => plain (capitalize t) recv args
  | .join => join recv args
  | .find => find false recv args
  | .rfind => find true recv args
  | .count => count recv args
  | .splitlines => splitlines recv args
  | .ljust => justify true recv args
  | .rjust => justify false recv args

end Minfer.Template.CPython
