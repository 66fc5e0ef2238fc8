/-
The token mask (`grammar.rs`): the first-codepoint index, the memoized walk
over the pieces of the vocabulary, the cache of a run, and `accept_token`.

A hash map is an association list, and `buckets`, which the source collects
from one and sorts, is kept sorted. What only the tests read (`walked`) is
left out.
-/
import Minfer.Grammar.Gbnf

namespace Minfer.Gbnf

open Minfer.Tokenize (Text)

-- ============================== bitset

/-- A packed bitset over token ids. -/
abbrev Bits := List (BitVec 64)

/-- `set_bit`; the ids that are set are inside the bitset. -/
def setBit (bits : Bits) (id : Nat) : Bits :=
  bits.modify (id / 64) fun word => word ||| (1#64 <<< (id % 64))

/-- The bit of an id, as the sampler reads it: an id past the end has none. -/
def hasBit (bits : Bits) (id : Nat) : Bool :=
  match bits[id / 64]? with
  | some word => word &&& (1#64 <<< (id % 64)) != 0#64
  | none => false

-- =============================== index

/-- The bytes of a token. A token without any has no piece. -/
structure Piece where
  bytes : List UInt8
  nonempty : bytes ≠ []
deriving Repr, DecidableEq

/-- A vocabulary as a grammar is compiled against it: the pieces, and which of
the tokens end a generation. -/
structure Vocab where
  pieces : List (Option Piece)
  eog : List Bool
  sameLength : eog.length = pieces.length
deriving Repr, DecidableEq

/-- `TokenIndex`. -/
structure TokenIndex where
  /-- Ascending by first codepoint, one entry per distinct codepoint. -/
  buckets : List (Nat × List Nat)
  headless : List Nat
deriving Repr, DecidableEq

/-- `by_cp.entry(cp).or_default().push(id)`. -/
def pushBucket (cp id : Nat) : List (Nat × List Nat) → List (Nat × List Nat)
  | [] => [(cp, [id])]
  | (c, ids) :: rest =>
      if cp < c then (cp, [id]) :: (c, ids) :: rest
      else if cp = c then (c, ids ++ [id]) :: rest
      else (c, ids) :: pushBucket cp id rest

namespace TokenIndex

/-- A token enters the index. -/
def add (eogIds : List Nat) (index : TokenIndex) (id : Nat) : Option Piece →
    TokenIndex
  | none => index
  | some piece =>
      if id ∈ eogIds then index
      else
        match decodeAt piece.bytes with
        | .cp c _ => { index with buckets := pushBucket c id index.buckets }
        | .incomplete => { index with headless := index.headless ++ [id] }
        | .invalid => index

/-- The loop of `TokenIndex::build` from token `id` on. -/
def addAll (eogIds : List Nat) (index : TokenIndex) (id : Nat) :
    List (Option Piece) → TokenIndex
  | [] => index
  | piece :: rest => addAll eogIds (index.add eogIds id piece) (id + 1) rest

/-- `TokenIndex::build`. -/
def build (pieces : List (Option Piece)) (eogIds : List Nat) : TokenIndex :=
  addAll eogIds ⟨[], []⟩ 0 pieces

end TokenIndex

-- ============================ accepted

/-- The merge loop of `merge_ranges`, on sorted ranges. -/
def mergeSorted : Ranges → Ranges
  | [] => []
  | [r] => [r]
  | r :: s :: rest =>
      if s.1 ≤ r.2 + 1 then mergeSorted ((r.1, max r.2 s.2) :: rest)
      else r :: mergeSorted (s :: rest)
termination_by ranges => ranges.length

/-- `merge_ranges`. -/
def mergeRanges (ranges : Ranges) : Ranges := mergeSorted (sortRanges ranges)

/-- `Accepted`. -/
structure Accepted where
  wide : Bool
  ranges : Ranges
deriving Repr, DecidableEq

namespace Accepted

/-- The number of codepoints. -/
def width (accepted : Accepted) : Nat :=
  (accepted.ranges.map fun r => r.2 - r.1 + 1).sum

/-- The last range that starts at or before the codepoint reaches it. -/
def contains (accepted : Accepted) (cp : Nat) : Bool :=
  match (accepted.ranges.takeWhile fun r => r.1 ≤ cp).getLast? with
  | some r => cp ≤ r.2
  | none => false

/-- Every codepoint, in order. -/
def codepoints (accepted : Accepted) : List Nat :=
  accepted.ranges.flatMap fun r => List.range' r.1 (r.2 + 1 - r.1)

end Accepted

/-- What an instruction adds to the ranges; none when it accepts nearly every
codepoint. -/
def Inst.firstRanges : Inst → Option Ranges
  | .any => none
  | .cp c => some (if isSurrogate c then [] else [(c, c)])
  | .cls false ranges => some (ranges.flatMap fun r => nonSurrogateParts r.1 r.2)
  | .cls true _ => none
  | .ret | .split _ _ | .jump _ | .call _ => some []

/-- The loop of `first_codepoints`. -/
def rangesOf (rules : Rules) : List Stack → Option Ranges
  | [] => some []
  | st :: rest => do
      let ranges ← (instAt rules st.top).firstRanges
      return ranges ++ (← rangesOf rules rest)

/-- `first_codepoints`. -/
def firstCodepoints (rules : Rules) (live : List Stack) : Accepted :=
  match rangesOf rules live with
  | none => ⟨true, []⟩
  | some ranges => ⟨false, mergeRanges ranges⟩

-- ================================ walk

/-- `MaskWalk`: the states met so far, their numbers, and the transitions
taken so far. -/
structure MaskWalk where
  states : List (List Stack)
  intern : List (List Stack × Nat)
  memo : List ((Nat × Nat) × Option Nat)

namespace MaskWalk

/-- `MaskWalk::new`. -/
def new (seed : List Stack) : MaskWalk := ⟨[seed], [(seed, 0)], []⟩

def stateAt (walk : MaskWalk) (cur : Nat) : List Stack := walk.states.getD cur []

/-- The number of a state, which may be new. -/
def number (walk : MaskWalk) (live : List Stack) : Nat × MaskWalk :=
  match walk.intern.lookup live with
  | some idx => (idx, walk)
  | none => (walk.states.length, { walk with
      states := walk.states ++ [live]
      intern := (live, walk.states.length) :: walk.intern })

/-- `memo_step`. -/
def memoStep (rules : Rules) (walk : MaskWalk) (cur cp : Nat) :
    Option Nat × MaskWalk :=
  match walk.memo.lookup (cur, cp) with
  | some cached => (cached, walk)
  | none =>
      match step rules (walk.stateAt cur) cp with
      | .error _ => (none, { walk with memo := ((cur, cp), none) :: walk.memo })
      | .ok live =>
          let (next, walk) := walk.number live
          (some next, { walk with memo := ((cur, cp), some next) :: walk.memo })

/-- The loop of `allows`; every round takes a byte. -/
def allowsLoop (rules : Rules) : Nat → MaskWalk → Nat → List UInt8 → Bool × MaskWalk
  | _, walk, _, [] => (true, walk)
  | 0, walk, _, _ :: _ => (true, walk)
  | fuel + 1, walk, cur, b :: rest =>
      match decodeAt (b :: rest) with
      | .cp c len =>
          if isSurrogate c then (false, walk)
          else
            match walk.memoStep rules cur c with
            | (some next, walk) =>
                allowsLoop rules fuel walk next ((b :: rest).drop len)
            | (none, walk) => (false, walk)
      | .incomplete => (partialCanComplete rules (walk.stateAt cur) (b :: rest), walk)
      | .invalid => (false, walk)

/-- `allows`. -/
def allows (rules : Rules) (walk : MaskWalk) (piece : List UInt8) : Bool × MaskWalk :=
  allowsLoop rules piece.length walk 0 piece

end MaskWalk

-- ============================= grammar

/-- `Grammar`. -/
structure Grammar extends Program where
  nVocab : Nat
  pieces : List (Option Piece)
  eogIds : List Nat
  source : Text
  index : TokenIndex

/-- `from_gbnf`. -/
def fromGbnf (fuel : Nat) (source : Text) (vocab : Vocab) :
    Except GrammarError Grammar := do
  let program ← compileGbnf fuel source
  let eogIds := (List.range vocab.eog.length).filter fun id => vocab.eog.getD id false
  return {
    toProgram := program
    nVocab := vocab.pieces.length
    pieces := vocab.pieces
    eogIds := eogIds
    source := source
    index := TokenIndex.build vocab.pieces eogIds }

/-- `GrammarState`. -/
structure GrammarState where
  inner : StateKey
  accepting : Bool
  cache : List (StateKey × Bits)
deriving Repr, DecidableEq

/-- How a mask is computed. -/
inductive Walk where
  | whole
  | buckets (accepted : Accepted)
deriving Repr, DecidableEq

/-- Why `accept_token` refuses a token. -/
inductive AcceptError where
  | outside (id : Nat)
  | ended
  | notAccepting (id : Nat)
  | emptyPiece (id : Nat)
  | rejected (id accepted : Nat) (why : Reason)
deriving Repr, DecidableEq

/-- `{:02X}` and `{:04X}`: capital digits, at least so many. -/
def hexDigits (width n : Nat) : String :=
  let digits := (Nat.toDigits 16 n).map Char.toUpper
  String.ofList (List.replicate (width - digits.length) '0' ++ digits)

/-- Why a closure is refused, in words. -/
def CloseError.text : CloseError → String
  | .overrun .steps =>
      "grammar: epsilon closure exceeded " ++ toString maxClosureSteps
      ++ " steps (the grammar is too ambiguous or epsilon-heavy)"
  | .overrun .size => "grammar: parse stack exceeded depth " ++ toString maxStackDepth
      ++ (" — a rule recurses without consuming input (left " ++
          "recursion is not supported)")
  | .liveStacks live => "grammar: " ++ toString live
      ++ " live parse stacks exceeds the limit of "
      ++ toString maxStacks

/-- Why bytes are rejected, in words. -/
def Reason.text : Reason → String
  | .surrogate c => "surrogate U+" ++ hexDigits 4 c
  | .step (.deadEnd c) => "no live stack can consume U+" ++ hexDigits 4 c
  | .step (.close e) => e.text
  | .cannotComplete bytes =>
      ("no live stack can consume any character starting " ++
        "with the incomplete UTF-8 sequence [")
        ++ ", ".intercalate (bytes.map fun b => hexDigits 2 b.toNat) ++ "]"
  | .invalid byte => "invalid UTF-8 byte 0x" ++ hexDigits 2 byte.toNat

namespace Grammar

/-- `state`. A grammar that was compiled has one. -/
def state (g : Grammar) : Except CloseError GrammarState := do
  let inner ← initialKey g.rules g.root
  return ⟨inner, stateKeyAccepting g.rules inner, []⟩

/-- The piece of a token. -/
def pieceAt (g : Grammar) (id : Nat) : Option Piece := (g.pieces[id]?).join

/-- `piece`; an indexed token has one. -/
def piece (g : Grammar) (id : Nat) : List UInt8 :=
  match g.pieceAt id with
  | some piece => piece.bytes
  | none => []

/-- `eog_bits`. -/
def eogBits (g : Grammar) (key : StateKey) (accepting : Bool) : Bits :=
  let bits := List.replicate ((g.nVocab + 63) / 64) 0#64
  if key.done || accepting then g.eogIds.foldl setBit bits else bits

/-- One token of `mask_whole`. -/
def visit (g : Grammar) (key : StateKey) (acc : Bits × MaskWalk) (id : Nat) :
    Bits × MaskWalk :=
  if id ∈ g.eogIds then acc
  else
    match g.pieceAt id with
    | none => acc
    | some piece =>
        if key.part = [] then
          let (allowed, walk) := acc.2.allows g.rules piece.bytes
          (if allowed then setBit acc.1 id else acc.1, walk)
        else (if (consume g.rules key piece.bytes).isOk then setBit acc.1 id
          else acc.1, acc.2)

/-- `mask_whole`. -/
def maskWhole (g : Grammar) (key : StateKey) (accepting : Bool) : Bits :=
  if key.done then g.eogBits key accepting
  else ((List.range g.nVocab).foldl (g.visit key)
    (g.eogBits key accepting, MaskWalk.new key.liveStacks)).1

/-- One token of a bucket. -/
def visitIndexed (g : Grammar) (acc : Bits × MaskWalk) (id : Nat) : Bits × MaskWalk :=
  let (allowed, walk) := acc.2.allows g.rules (g.piece id)
  (if allowed then setBit acc.1 id else acc.1, walk)

/-- `MaskWalk::bucket`. -/
def bucket (g : Grammar) (acc : Bits × MaskWalk) (ids : List Nat) : Bits × MaskWalk :=
  ids.foldl g.visitIndexed acc

/-- The tokens `mask_buckets` looks at, list by list: the headless ones, then
the buckets of the accepted codepoints, found by codepoint or by a scan. -/
def scanned (g : Grammar) (accepted : Accepted) : List (List Nat) :=
  if accepted.width ≤ g.index.buckets.length then
    accepted.codepoints.filterMap fun c => g.index.buckets.lookup c
  else (g.index.buckets.filter fun entry => accepted.contains entry.1).map (·.2)

/-- `mask_buckets`. -/
def maskBuckets (g : Grammar) (key : StateKey) (accepting : Bool)
    (accepted : Accepted) : Bits :=
  ((g.scanned accepted).foldl g.bucket
    (g.bucket (g.eogBits key accepting, MaskWalk.new key.liveStacks)
      g.index.headless)).1

/-- `plan`. -/
def plan (g : Grammar) (key : StateKey) : Walk :=
  if key.part ≠ [] ∨ key.done then .whole
  else
    let accepted := firstCodepoints g.rules key.liveStacks
    if accepted.wide ∨ accepted.width ≥ g.nVocab then .whole else .buckets accepted

/-- The mask of a state that is not cached. -/
def walkMask (g : Grammar) (key : StateKey) (accepting : Bool) : Bits :=
  match g.plan key with
  | .whole => g.maskWhole key accepting
  | .buckets accepted => g.maskBuckets key accepting accepted

/-- `mask`, which never fails. -/
def mask (g : Grammar) (st : GrammarState) : Bits × GrammarState :=
  match st.cache.lookup st.inner with
  | some cached => (cached, st)
  | none =>
      let mask := g.walkMask st.inner st.accepting
      let cache := if st.cache.length ≥ maxMaskCache then [] else st.cache
      (mask, { st with cache := (st.inner, mask) :: cache })

/-- `accept_token`: the answer, and the state it leaves. -/
def acceptToken (g : Grammar) (st : GrammarState) (id : Nat) :
    Except AcceptError Unit × GrammarState :=
  if id ≥ g.nVocab then (.error (.outside id), st)
  else if st.inner.done then (.error .ended, st)
  else if id ∈ g.eogIds then
    if !st.accepting then (.error (.notAccepting id), st)
    else (.ok (),
      { inner := { st.inner with done := true }, accepting :=
        false, cache := [] })
  else
    match g.pieceAt id with
    | none => (.error (.emptyPiece id), st)
    | some piece =>
        match consume g.rules st.inner piece.bytes with
        | .ok next =>
            (.ok (), { st with inner := next, accepting :=
              stateKeyAccepting g.rules next })
        | .error (accepted, why) => (.error (.rejected id accepted why), st)

/-- `describe`: where a run stands. -/
def describe (g : Grammar) (st : GrammarState) : String :=
  let rules := st.inner.liveStacks.map fun s =>
    String.ofList (g.names.getD s.top.rule [])
  toString st.inner.liveStacks.length ++ " live stack(s) in rule(s) ["
    ++ ", ".intercalate rules ++ "], " ++ toString st.inner.part.length
    ++ " pending UTF-8 byte(s), accepting=" ++ toString st.accepting

/-- The text of a refusal in a state. -/
def refusal (g : Grammar) (st : GrammarState) : AcceptError → String
  | .outside id =>
      "grammar: token id " ++ toString id ++ " is outside the vocabulary (0.."
      ++ toString g.nVocab ++ ")"
  | .ended => "grammar: a token was sampled after the end of generation"
  | .notAccepting id => "grammar: end-of-generation token " ++ toString id
      ++ " accepted in a non-accepting state (" ++ g.describe st ++ ")"
  | .emptyPiece id => "grammar: token " ++ toString id
      ++ " has an empty piece and cannot be matched"
  | .rejected id accepted why =>
      "grammar: token " ++ toString id ++ " rejected: " ++ why.text
      ++ " (longest accepted prefix: " ++ toString accepted ++ " byte(s) of its "
      ++ toString (g.piece id).length ++ " byte piece)"

/-- The states a run reaches, whatever tokens it tries and whenever it asks for
a mask. -/
inductive Reachable (g : Grammar) : GrammarState → Prop where
  | start {st : GrammarState} (h : g.state = .ok st) : Reachable g st
  | mask {st : GrammarState} (h : Reachable g st) : Reachable g (g.mask st).2
  | accept {st : GrammarState} (h : Reachable g st) (id : Nat) :
      Reachable g (g.acceptToken st id).2

end Grammar

end Minfer.Gbnf
