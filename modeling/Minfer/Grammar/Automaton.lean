/-
The grammar automaton (`grammar.rs`): rule programs, call stacks, the
epsilon closure, and the byte-level `consume`.

A codepoint is a `Nat`. A stack keeps its current frame apart, so that it is
never empty; the frames below are innermost first.
-/
import Mathlib.Data.List.Sort
import Minfer.Lib.Utf8
import Minfer.Lib.Worklist

namespace Minfer.Gbnf

open Minfer.Lib (explore Overrun isCont second3 second4 low)

-- ============================== limits

/-- `MAX_STACK_DEPTH`. -/
def maxStackDepth : Nat := 256

/-- `MAX_STACKS`. -/
def maxStacks : Nat := 64

/-- `MAX_CLOSURE_STEPS`. -/
def maxClosureSteps : Nat := 65536

/-- `MAX_MASK_CACHE`. -/
def maxMaskCache : Nat := 64

/-- `MAX_REPEAT`. -/
def maxRepeat : Nat := 1024

-- ============================ programs

/-- Ranges of codepoints, both ends included. -/
abbrev Ranges := List (Nat × Nat)

/-- `Inst`. -/
inductive Inst where
  | cp (c : Nat)
  | cls (negated : Bool) (ranges : Ranges)
  | any
  | split (a b : Nat)
  | jump (a : Nat)
  | call (rule : Nat)
  | ret
deriving Repr, DecidableEq

/-- The program of every rule. -/
abbrev Rules := List (List Inst)

/-- `[rule, pc]`. -/
structure Frame where
  rule : Nat
  pc : Nat
deriving Repr, DecidableEq

/-- A call stack. -/
structure Stack where
  top : Frame
  below : List Frame
deriving Repr, DecidableEq

namespace Stack

def depth (st : Stack) : Nat := st.below.length + 1

/-- The frames, outermost first. -/
def frames (st : Stack) : List Frame := (st.top :: st.below).reverse

/-- The current frame at another place of its rule. -/
def goto (st : Stack) (pc : Nat) : Stack :=
  { st with top := { st.top with pc := pc } }

/-- The current frame past its instruction. -/
def advance (st : Stack) : Stack := st.goto (st.top.pc + 1)

/-- Enter a rule. -/
def push (st : Stack) (rule : Nat) : Stack := ⟨⟨rule, 0⟩, st.top :: st.below⟩

end Stack

/-- The order of arrays `[rule, pc]`, and of vectors of them. -/
def framesLe : List Frame → List Frame → Bool
  | [], _ => true
  | _ :: _, [] => false
  | f :: fs, g :: gs =>
      if f.rule < g.rule then true
      else if g.rule < f.rule then false
      else if f.pc < g.pc then true
      else if g.pc < f.pc then false
      else framesLe fs gs

/-- `out.sort()`. -/
def sortStacks (live : List Stack) : List Stack :=
  live.insertionSort fun s t => framesLe s.frames t.frames = true

/-- `out.dedup()`: of a run of equal stacks the first is kept. -/
def dedup : List Stack → List Stack
  | [] => []
  | [s] => [s]
  | s :: t :: rest => if s = t then dedup (t :: rest) else s :: dedup (t :: rest)

section Automaton

variable (rules : Rules)

/-- The instruction of a frame. Every program ends with `ret` and every target
is inside one, so the default is never read. -/
def instAt (f : Frame) : Inst := ((rules.getD f.rule []).getD f.pc .ret)

-- ============================= closure

/-- Why a closure is refused. -/
inductive CloseError where
  | overrun (e : Overrun)
  | liveStacks (live : Nat)
deriving Repr, DecidableEq

/-- `flow`, on a stack: what it becomes without input; none when it waits for
input or the root rule has finished. -/
def flow (st : Stack) : Option (List Stack) :=
  match instAt rules st.top with
  | .split a b => some [st.goto b, st.goto a]
  | .jump a => some [st.goto a]
  | .call rule => some [st.advance.push rule]
  | .ret =>
      match st.below with
      | [] => none
      | f :: below => some [⟨f, below⟩]
  | .cp _ | .cls _ _ | .any => none

/-- `close`. The last stack of the input is visited first. -/
def close (input : List Stack) : Except CloseError (List Stack) :=
  match explore (flow rules) (fun st => st.depth ≤ maxStackDepth)
      maxClosureSteps input.reverse
      [] [] with
  | .error e => .error (.overrun e)
  | .ok out =>
      let out := dedup (sortStacks out)
      if out.length > maxStacks then .error (.liveStacks out.length) else .ok out

-- ================================ step

/-- A class holds a codepoint. -/
def inRanges (ranges : Ranges) (c : Nat) : Bool :=
  ranges.any fun r => r.1 ≤ c && c ≤ r.2

/-- An instruction consumes a codepoint. -/
def Inst.consumes (inst : Inst) (c : Nat) : Bool :=
  match inst with
  | .cp d => d = c
  | .any => true
  | .cls negated ranges => inRanges ranges c != negated
  | .split _ _ | .jump _ | .call _ | .ret => false

/-- Why a step fails. -/
inductive StepError where
  | deadEnd (c : Nat)
  | close (e : CloseError)
deriving Repr, DecidableEq

/-- `step`. -/
def step (live : List Stack) (c : Nat) : Except StepError (List Stack) :=
  match (live.filter fun st => (instAt rules st.top).consumes c).map
      Stack.advance with
  | [] => .error (.deadEnd c)
  | next =>
      match close rules next with
      | .ok out => .ok out
      | .error e => .error (.close e)

end Automaton

-- ============================ decoding

/-- `Utf8Step`. -/
inductive Utf8Step where
  | cp (c len : Nat)
  | incomplete
  | invalid
deriving Repr, DecidableEq

/-- A range of bytes, both ends included. -/
def byteIn (lo hi b : UInt8) : Bool := lo ≤ b && b ≤ hi

/-- `decode_at`, on the bytes from `i` on, of which there is one: the standard
library's decoder. -/
def decodeAt : List UInt8 → Utf8Step
  | [] => .invalid
  | b :: rest =>
      if b < 0x80 then .cp b.toNat 1
      else if byteIn 0xC2 0xDF b then
        match rest with
        | [] => .incomplete
        | c :: _ => if isCont c then .cp (low b 5 * 64 + low c 6) 2 else .invalid
      else if byteIn 0xE0 0xEF b then
        match rest with
        | [] => .incomplete
        | [c] => if second3 b c then .incomplete else .invalid
        | c :: d :: _ =>
            if second3 b c && isCont d
              then .cp (low b 4 * 4096 + low c 6 * 64 + low d 6) 3
            else .invalid
      else if byteIn 0xF0 0xF4 b then
        match rest with
        | [] => .incomplete
        | [c] => if second4 b c then .incomplete else .invalid
        | [c, d] => if second4 b c && isCont d then .incomplete else .invalid
        | c :: d :: e :: _ =>
            if second4 b c && isCont d && isCont e then
              .cp (low b 3 * 262144 + low c 6 * 4096 + low d 6 * 64 + low e 6) 4
            else .invalid
      else .invalid

/-- A surrogate. -/
def isSurrogate (c : Nat) : Bool := 0xD800 ≤ c && c ≤ 0xDFFF

-- ========================== completion

/-- The length of a sequence, the value of its lead, and the range of its first
continuation byte. -/
def leadInfo (b : UInt8) : Option (Nat × Nat × Nat × Nat) :=
  if byteIn 0xC2 0xDF b then some (2, low b 5, 0x80, 0xBF)
  else if b = 0xE0 then some (3, low b 4, 0xA0, 0xBF)
  else if b = 0xED then some (3, low b 4, 0x80, 0x9F)
  else if byteIn 0xE1 0xEF b then some (3, low b 4, 0x80, 0xBF)
  else if b = 0xF0 then some (4, low b 3, 0x90, 0xBF)
  else if byteIn 0xF1 0xF3 b then some (4, low b 3, 0x80, 0xBF)
  else if b = 0xF4 then some (4, low b 3, 0x80, 0x8F)
  else none

/-- The loop over the continuation bytes; the first of them is checked against
its range. -/
def continuations (lo hi : Nat) : Bool → Nat → List UInt8 → Option Nat
  | _, value, [] => some value
  | first, value, b :: rest =>
      if ¬ isCont b then none
      else if first ∧ ¬ (lo ≤ b.toNat ∧ b.toNat ≤ hi) then none
      else continuations lo hi false (value * 64 + low b 6) rest

/-- `completion_range`. -/
def completionRange : List UInt8 → Option (Nat × Nat)
  | [] => none
  | b :: rest =>
      match leadInfo b with
      | none => none
      | some (len, lead, lo, hi) =>
          if rest.length + 1 ≥ len then none
          else
            match continuations lo hi true lead rest with
            | none => none
            | some value =>
                if rest = [] then
                  some ((value * 64 + (lo - 0x80)) * 64 ^ (len - 2),
                    (value * 64 + (hi - 0x80)) * 64 ^ (len - 2)
                      + (64 ^ (len - 2) - 1))
                else
                  some (value * 64 ^ (len - (rest.length + 1)),
                    value * 64 ^ (len - (rest.length + 1))
                      + (64 ^ (len - (rest.length + 1)) - 1))

/-- `non_surrogate_parts`. -/
def nonSurrogateParts (lo hi : Nat) : Ranges :=
  if hi < 0xD800 ∨ lo > 0xDFFF then [(lo, hi)]
  else (if lo < 0xD800 then [(lo, 0xD800 - 1)] else [])
    ++ (if hi > 0xDFFF then [(0xDFFF + 1, hi)] else [])

/-- `covers`: `next` is the first codepoint not covered yet. -/
def covers : Ranges → Nat → Nat → Bool
  | [], _, _ => false
  | (a, b) :: rest, next, hi =>
      if b < next then covers rest next hi
      else if a > next then false
      else if b ≥ hi then true
      else covers rest (b + 1) hi

section Consume

variable (rules : Rules)

/-- An instruction accepts a codepoint of a range. -/
def Inst.meets (inst : Inst) (lo hi : Nat) : Bool :=
  match inst with
  | .any => true
  | .cp c => lo ≤ c && c ≤ hi
  | .cls false ranges => ranges.any fun r => r.1 ≤ hi && lo ≤ r.2
  | .cls true ranges => !covers ranges lo hi
  | .ret | .split _ _ | .jump _ | .call _ => false

/-- `any_stack_accepts_plain_range`. -/
def anyStackAcceptsPlainRange (live : List Stack) (lo hi : Nat) : Bool :=
  live.any fun st => (instAt rules st.top).meets lo hi

/-- `any_stack_accepts_range`. -/
def anyStackAcceptsRange (live : List Stack) (lo hi : Nat) : Bool :=
  (nonSurrogateParts lo hi).any fun r => anyStackAcceptsPlainRange rules live r.1 r.2

/-- `partial_can_complete`. -/
def partialCanComplete (live : List Stack) (part : List UInt8) : Bool :=
  match completionRange part with
  | some (lo, hi) => anyStackAcceptsRange rules live lo hi
  | none => false

-- ============================= consume

/-- `StateKey`. -/
structure StateKey where
  liveStacks : List Stack
  part : List UInt8
  done : Bool
deriving Repr, DecidableEq

/-- Why `consume` rejects its input. -/
inductive Reason where
  | surrogate (c : Nat)
  | step (e : StepError)
  | cannotComplete (bytes : List UInt8)
  | invalid (byte : UInt8)
deriving Repr, DecidableEq

/-- The loop of `consume` from the bytes at `i`: the stacks and the bytes left,
or where it stopped and why. -/
def consumeLoop : Nat → List Stack → Nat → List UInt8 →
    Except (Nat × Reason) (List Stack × List UInt8)
  | _, live, _, [] => .ok (live, [])
  | 0, live, _, bytes => .ok (live, bytes)
  | fuel + 1, live, i, b :: rest =>
      match decodeAt (b :: rest) with
      | .cp c len =>
          if isSurrogate c then .error (i, .surrogate c)
          else
            match step rules live c with
            | .error e => .error (i, .step e)
            | .ok live => consumeLoop fuel live (i + len) ((b :: rest).drop len)
      | .incomplete =>
          if partialCanComplete rules live (b :: rest) then .ok (live, b :: rest)
          else .error (i, .cannotComplete (b :: rest))
      | .invalid => .error (i, .invalid b)

/-- `consume`; every round takes a byte, so the input's length bounds them. -/
def consume (key : StateKey) (bytes : List UInt8) : Except (Nat × Reason) StateKey :=
  let buf := key.part ++ bytes
  match consumeLoop rules buf.length key.liveStacks 0 buf with
  | .error (i, why) => .error (i - key.part.length, why)
  | .ok (live, left) => .ok ⟨live, left, key.done⟩

/-- `state_key_accepting`. -/
def stateKeyAccepting (key : StateKey) : Bool :=
  !key.done && key.part.isEmpty
    && key.liveStacks.any fun st => st.below.isEmpty && instAt rules st.top = .ret

/-- The state before any input. -/
def initialKey (root : Nat) : Except CloseError StateKey := do
  let live ← close rules [⟨⟨root, 0⟩, []⟩]
  return ⟨live, [], false⟩

end Consume

end Minfer.Gbnf
