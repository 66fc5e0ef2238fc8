/-
The other engines (`tokenizer.rs`): SentencePiece, RWKV, PLaMo-2, unigram
and WordPiece.

Byte offsets into a text are the characters that are left: an offset inside
a character is where the source's slicing panics.
-/
import Minfer.Tokenizer.Bpe

namespace Minfer.Tokenize

open Minfer.Lib (utf8Encode fromUtf8Lossy)

namespace Tokenizer

-- ====================== byte positions

/-- `&text[k..]`; none inside a character or past the end. -/
def dropBytes : Nat → Text → Option Text
  | 0, text => some text
  | _ + 1, [] => none
  | k + 1, c :: rest => if c.utf8Size ≤ k + 1
      then dropBytes (k + 1 - c.utf8Size) rest else none

/-- `&text[..k]`; none inside a character or past the end. -/
def takeBytes (k : Nat) (text : Text) : Option Text :=
  (dropBytes k text).map fun rest => text.take (text.length - rest.length)

variable (tok : Tokenizer)

-- ======================= SentencePiece

/-- `SpmSymbol`; `n` is 0 once it is merged into its left neighbour. -/
structure SpmSymbol where
  text : Text
  n : Nat
  prev : Option Nat
  next : Option Nat

/-- `SpmBigram`. -/
structure SpmBigram where
  score : Float32
  left : Nat
  right : Nat
  size : Nat

/-- The session's state. -/
structure SpmSession where
  symbols : List SpmSymbol
  revMerge : Map Text (Text × Text)
  queue : List SpmBigram

/-- The symbols of a text, one per character. -/
def spmSymbols (text : Text) : List SpmSymbol :=
  (List.range text.length).zip text |>.map fun p =>
    ⟨[p.2], p.2.utf8Size, if p.1 = 0 then none else some (p.1 - 1),
      if p.1 + 1 = text.length then none else some (p.1 + 1)⟩

/-- `try_add`: queue two neighbours whose concatenation is an entry. -/
def tryAdd (left right : Nat) (s : SpmSession) : Except Stop SpmSession :=
  match s.symbols[left]?, s.symbols[right]? with
  | some l, some r =>
      let joined := l.text ++ r.text
      match tok.vocab.get joined with
      | some id =>
          match tok.idToScore[id]? with
          | some score =>
              .ok { s with
                queue := ⟨score, left, right, (utf8Encode joined).length⟩ :: s.queue
                revMerge := s.revMerge.insert joined (l.text, r.text) }
          | none => .ok s
      | none => .ok s
  | _, _ => .error .panic

/-- The first bigrams, from index `i` on. -/
def spmSeed : Nat → Nat → SpmSession → Except Stop SpmSession
  | 0, _, s => .ok s
  | fuel + 1, i, s => do
      let s ← tok.tryAdd (i - 1) i s
      spmSeed fuel (i + 1) s

/-- `try_add` with a neighbour, when there is one. -/
def tryAddPrev (neighbour : Option Nat) (left : Nat) (s : SpmSession) :
    Except Stop SpmSession :=
  match neighbour with
  | some prev => tok.tryAdd prev left s
  | none => .ok s

def tryAddNext (neighbour : Option Nat) (left : Nat) (s : SpmSession) :
    Except Stop SpmSession :=
  match neighbour with
  | some next => tok.tryAdd left next s
  | none => .ok s

/-- The back link of the symbol after a merge. -/
def spmRelink (left : Nat) (next : Option Nat) (symbols : List SpmSymbol) :
    Except Stop (List SpmSymbol) :=
  match next with
  | none => .ok symbols
  | some nx =>
      match symbols[nx]? with
      | some sym => .ok (symbols.set nx { sym with prev := some left })
      | none => .error .panic

/-- The left symbol once the right one joined it. -/
def SpmSymbol.join (l r : SpmSymbol) : SpmSymbol :=
  { l with text := l.text ++ r.text, n := l.n + r.n, next := r.next }

/-- One bigram: skipped when a side changed since it was queued, else the right
symbol joins the left one. -/
def spmPop (bigram : SpmBigram) (s : SpmSession) : Except Stop SpmSession :=
  match s.symbols[bigram.left]?, s.symbols[bigram.right]? with
  | some l, some r =>
      if l.n = 0 ∨ r.n = 0 ∨ l.n + r.n ≠ bigram.size then .ok s
      else do
        let symbols := (s.symbols.set bigram.left (l.join r)).set bigram.right
          { r with text := [], n := 0 }
        let symbols ← spmRelink bigram.left r.next symbols
        let s ← tok.tryAddPrev l.prev bigram.left { s with symbols := symbols }
        tok.tryAddNext r.next bigram.left s
  | _, _ => .error .panic

/-- The merge loop. `pick` is the heap's choice: the place of a greatest bigram
in the queue. -/
def spmLoop (pick : List SpmBigram → Nat) : Nat → SpmSession → Except Stop SpmSession
  | 0, s => if s.queue = [] then .ok s else .error .fuel
  | fuel + 1, s =>
      match s.queue[pick s.queue % s.queue.length]? with
      | none => .ok s
      | some bigram => do
          let s ← tok.spmPop bigram
            { s with queue := s.queue.eraseIdx (pick s.queue % s.queue.length) }
          spmLoop pick fuel s

/-- `resegment`. -/
def resegment (revMerge : Map Text (Text × Text)) : Nat → Text →
    Except Stop (List Nat)
  | 0, _ => .error .fuel
  | fuel + 1, text =>
      match tok.vocab.get text with
      | some id => .ok [id]
      | none =>
          if text = [] then .ok []
          else
            match revMerge.get text with
            | some (left, right) => do
                let ids ← resegment revMerge fuel left
                return ids ++ (← resegment revMerge fuel right)
            | none => tok.spmByteTokens (utf8Encode text)

/-- The walk over the symbols that are left. -/
def spmWalk (s : SpmSession) : Nat → Option Nat → Except Stop (List Nat)
  | _, none => .ok []
  | 0, some _ => .error .fuel
  | fuel + 1, some idx =>
      match s.symbols[idx]? with
      | none => .error .panic
      | some sym => do
          let ids ← tok.resegment s.revMerge (sym.text.length + 1) sym.text
          return ids ++ (← spmWalk s fuel sym.next)

/-- `spm_encode`; every bigram in the queue stands for one of at most `4 n`
steps. -/
def spmEncode (pick : List SpmBigram → Nat) (text : Text) :
    Except Stop (List Nat) := do
  let s ← tok.spmSeed (text.length - 1) 1 ⟨spmSymbols text, [], []⟩
  let s ← tok.spmLoop pick (4 * text.length) s
  tok.spmWalk s text.length (some 0)

/-- The `▁`-escaped segment. -/
def spmEscape (prevSpecial : Bool) (text : Text) : Text :=
  (if tok.addSpacePrefix && prevSpecial then [spmSpace] else [])
    ++ text.map fun c => if c = ' ' then spmSpace else c

-- ================================ RWKV

/-- The loop of `rwkv_encode`. -/
def rwkvLoop : Nat → List UInt8 → Except Stop (List Nat)
  | _, [] => .ok []
  | 0, _ :: _ => .error .fuel
  | fuel + 1, b :: rest =>
      match tok.ugm.trie.longestPrefixBytes (b :: rest) with
      | some (id, len) => do return id :: (← rwkvLoop fuel ((b :: rest).drop len))
      | none => do return tok.unkToken :: (← rwkvLoop fuel rest)

/-- `rwkv_encode`. -/
def rwkvEncode (text : Text) : Except Stop (List Nat) :=
  tok.rwkvLoop (utf8Encode text).length (utf8Encode text)

-- ============================= PLaMo-2

def invalidScore : Int := -20000000

def unknownScoreInt : Int := -10000000

/-- `plamo2_score_int`; the cast saturates. -/
def plamo2ScoreInt (id : Nat) : Int :=
  match tok.idToScore[id]? with
  | some score => if score.isFinite then ((score * 10000).round.toInt64).toInt
      else invalidScore
  | none => invalidScore

/-- A row of the table: the best score from here, and the piece it takes. -/
structure PlamoRow where
  score : Int
  take : Nat × Option Nat

/-- The candidates at the start of a text, shortest first: characters and
id. -/
def plamo2Candidates (text : Text) : Except Stop (List (Nat × Nat)) :=
  (tok.ugm.trie.matchesAt (utf8Encode text)).mapM fun (id, len) =>
    match takeBytes len text with
    | some piece => .ok (piece.length, id)
    | none => .error .panic

/-- One candidate, against the rows after this position. -/
def plamo2Try (rows : List PlamoRow) (row : PlamoRow) (cand : Nat × Nat) : PlamoRow :=
  if tok.plamo2ScoreInt cand.2 ≤ invalidScore then row
  else
    let s := Gguf.wrapI64 ((rows.getD (cand.1 - 1) ⟨0, (1, none)⟩).score
      - tok.plamo2ScoreInt cand.2)
    if s < row.score then ⟨s, (cand.1, some cand.2)⟩ else row

/-- The backward DP: the row of every position, and the one past the end. -/
def plamo2Rows : Text → Except Stop (List PlamoRow)
  | [] => .ok [⟨0, (1, none)⟩]
  | c :: rest => do
      let rows ← plamo2Rows rest
      let candidates ← tok.plamo2Candidates (c :: rest)
      let row := candidates.reverse.foldl (tok.plamo2Try rows) ⟨2 ^ 60, (1, none)⟩
      let s := Gguf.wrapI64 ((rows.getD 0 ⟨0, (1, none)⟩).score - unknownScoreInt)
      return (if s < row.score then ⟨s, (1, none)⟩ else row) :: rows

/-- The bytes of a character that have a byte token. -/
def plamo2Fallback (c : Char) : List Nat :=
  (String.utf8EncodeChar c).filterMap tok.spmByteToId.get

/-- The walk over the chosen pieces. -/
def plamo2Walk : Nat → Text → List PlamoRow → Except Stop (List Nat)
  | _, [], _ => .ok []
  | 0, _ :: _, _ => .error .fuel
  | fuel + 1, c :: rest, rows =>
      match rows with
      | [] => .error .panic
      | row :: _ => do
          let ids := match row.take.2 with
            | some id => [id]
            | none => tok.plamo2Fallback c
          return ids ++ (← plamo2Walk fuel ((c :: rest).drop row.take.1)
            (rows.drop row.take.1))

/-- `plamo2_encode`; a leading byte-order mark is stripped. -/
def plamo2Encode (text : Text) : Except Stop (List Nat) := do
  let text := if text.head? = some (Char.ofNat 0xfeff) then text.drop 1 else text
  let rows ← tok.plamo2Rows text
  tok.plamo2Walk text.length text rows

-- ============================= unigram

/-- The `BASE` of a packed node. -/
def xcdaBase (packed : UInt32) : UInt32 :=
  (packed >>> 10) <<< ((packed &&& 0x200) >>> 6)

/-- The charsmap walk: the longest match so far and where its replacement
starts. `i` bytes were read. -/
def xcdaWalk (xcda : List UInt32) :
    UInt32 → Nat → Nat × Nat → List UInt8 → Nat × Nat
  | _, _, best, [] => best
  | node, i, best, c :: rest =>
      if c = 0 then best
      else
        let node := node ^^^ c.toUInt32
        match xcda[node.toNat]? with
        | none => best
        | some packed =>
            if packed &&& 0x800000ff ≠ c.toUInt32 then best
            else
              let next := node ^^^ xcdaBase packed
              let best :=
                if (packed >>> 8) &&& 1 = 1 then
                  (i + 1, ((xcda.getD next.toNat 0) &&& 0x7fffffff).toNat)
                else best
              xcdaWalk xcda next (i + 1) best rest

/-- The longest charsmap match at the start of a text: its length and the
offset of its replacement. -/
def charsmapMatch (text : Text) : Option (Nat × Nat) :=
  match tok.ugm.xcda with
  | [] => none
  | root :: _ =>
      let best := xcdaWalk tok.ugm.xcda (xcdaBase root) 0 (0, 0) (utf8Encode text)
      if best.1 > 0 then some best else none

/-- `ugm_normalize_prefix` of the characters left: the replacement and the
bytes it stands for. -/
def ugmNormalizePrefix (text : Text) : Except Stop (Text × Nat) :=
  match tok.ugm.userDefined.longestPrefixBytes (utf8Encode text) with
  | some (_, len) =>
      match takeBytes len text with
      | some piece => .ok (piece, len)
      | none => .error .panic
  | none =>
      match tok.charsmapMatch text with
      | some (len, off) =>
          if off ≤ tok.ugm.prefixReplacements.length then
            .ok (fromUtf8Lossy
              ((tok.ugm.prefixReplacements.drop off).takeWhile (· ≠ 0)), len)
          else
            -- an offset outside the table leaves the input alone
            match takeBytes len text with
            | some piece => .ok (piece, len)
            | none => .error .panic
      | none =>
          match text with
          | [] => .ok ([], 0)
          | c :: _ => .ok ([c], c.utf8Size)

/-- What the whitespace rules remember: the output, whether a space was put in
front, and whether a word is open. -/
structure UgmSpaces where
  out : Text
  isSpacePrepended : Bool
  processingNonWs : Bool

/-- One character of a replacement. -/
def ugmPush (s : UgmSpaces) (c : Char) : UgmSpaces :=
  if c ≠ ' ' then
    if s.processingNonWs then { s with out := s.out ++ [c] }
    else if (tok.addSpacePrefix && !s.isSpacePrepended)
        || tok.removeExtraWhitespaces then
      ⟨s.out ++ [spmSpace, c], true, true⟩
    else ⟨s.out ++ [c], s.isSpacePrepended, true⟩
  else
    ⟨if tok.removeExtraWhitespaces then s.out else s.out ++ [spmSpace],
      s.isSpacePrepended, false⟩

/-- The loop of `ugm_normalize`. -/
def ugmNormalizeLoop : Nat → Text → UgmSpaces → Except Stop Text
  | _, [], s => .ok s.out
  | 0, _ :: _, _ => .error .fuel
  | fuel + 1, c :: rest, s => do
      let (replacement, consumed) ← tok.ugmNormalizePrefix (c :: rest)
      if consumed = 0 then return s.out
      else
        match dropBytes consumed (c :: rest) with
        | some left => ugmNormalizeLoop fuel left (replacement.foldl tok.ugmPush s)
        | none => .error .panic

/-- `ugm_normalize`. -/
def ugmNormalize (text : Text) : Except Stop Text :=
  tok.ugmNormalizeLoop text.length text ⟨[], false, false⟩

/-- `utf8_len`. -/
def utf8Len (b : UInt8) : Nat :=
  if b < 0x80 then 1
  else if b >>> 5 = 0b110 then 2
  else if b >>> 4 = 0b1110 then 3
  else if b >>> 3 = 0b11110 then 4
  else 1

/-- An entry of the Viterbi table: token, where it starts, and the score. -/
structure UgmBest where
  id : Nat
  start : Nat
  score : Float

/-- Keep the better way to reach an offset. -/
def ugmChallenge (best : List UgmBest) (end_ : Nat) (entry : UgmBest) :
    Except Stop (List UgmBest) :=
  match best[end_]? with
  | none => .error .panic
  | some old => .ok (if entry.score > old.score then best.set end_ entry else best)

/-- The score of a token: 0 for a user-defined one. -/
def ugmScore (id : Nat) : Float :=
  if tok.idToType[id]? = some 4 then 0 else (tok.idToScore.getD id 0).toFloat

/-- The tokens that start at an offset. -/
def ugmMatches (offset : Nat) (current : Float) :
    List (Nat × Nat) → List UgmBest → Except Stop (List UgmBest)
  | [], best => .ok best
  | (id, len) :: rest, best => do
      let best ← ugmChallenge best (offset + len)
        ⟨id, offset, current + tok.ugmScore id⟩
      ugmMatches offset current rest best

/-- The unknown transition, unless a token covers exactly the code point. -/
def ugmUnknown (offset cpLen : Nat) (current : Float) (found : List (Nat × Nat))
    (best : List UgmBest) : Except Stop (List UgmBest) :=
  if found.any (·.2 = cpLen) then .ok best
  else
    ugmChallenge best (offset + cpLen)
      ⟨tok.unkToken, offset, current + tok.ugm.unknownTokenScore.toFloat⟩

/-- The Viterbi walk over code points. -/
def ugmViterbi : Nat → Nat → List UInt8 → List UgmBest → Except Stop (List UgmBest)
  | _, _, [], best => .ok best
  | 0, _, _ :: _, _ => .error .fuel
  | fuel + 1, offset, b :: rest, best =>
      match best[offset]? with
      | none => .error .panic
      | some cur => do
          let cpLen := min (utf8Len b) (rest.length + 1)
          let found := tok.ugm.trie.matchesAt (b :: rest)
          let best ← tok.ugmMatches offset cur.score found best
          let best ← tok.ugmUnknown offset cpLen cur.score found best
          ugmViterbi fuel (offset + cpLen) ((b :: rest).drop cpLen) best

/-- The walk back, merging runs of unknowns; last token first. -/
def ugmBack (best : List UgmBest) : Nat → Nat → Bool → Except Stop (List Nat)
  | 0, _, _ => .error .fuel
  | fuel + 1, at_, prevUnknown =>
      match best[at_]? with
      | none => .error .panic
      | some entry =>
          let unknown := entry.id = tok.unkToken
          let ids := if prevUnknown && unknown then [] else [entry.id]
          if entry.start = 0 then .ok ids
          else do return ids ++ (← ugmBack best fuel entry.start unknown)

/-- `f64::MIN`. -/
def f64Min : Float := Float.ofBits 0xFFEFFFFFFFFFFFFF

/-- `ugm_encode`. -/
def ugmEncode (text : Text) : Except Stop (List Nat) := do
  let bytes := utf8Encode (← tok.ugmNormalize text)
  if bytes = [] then return []
  else
    let best : List UgmBest :=
      ⟨tok.unkToken, 0, 0⟩ :: List.replicate bytes.length ⟨tok.unkToken, 0, f64Min⟩
    let best ← tok.ugmViterbi bytes.length 0 bytes best
    return (← tok.ugmBack best (bytes.length + 1) bytes.length false).reverse

-- =========================== WordPiece

/-- `is_chinese_char`. -/
def isChineseChar (c : Char) : Bool :=
  let cp := c.toNat
  (0x4E00 ≤ cp && cp ≤ 0x9FFF) || (0x3400 ≤ cp && cp ≤ 0x4DBF)
    || (0x20000 ≤ cp && cp ≤ 0x2A6DF)
    || (0x2A700 ≤ cp && cp ≤ 0x2B73F) || (0x2B740 ≤ cp && cp ≤ 0x2B81F)
    || (0x2B920 ≤ cp && cp ≤ 0x2CEAF) || (0xF900 ≤ cp && cp ≤ 0xFAFF)
    || (0x2F800 ≤ cp && cp ≤ 0x2FA1F)

/-- An ASCII letter or digit. -/
def isAsciiAlphanumeric (c : Char) : Bool :=
  ('0' ≤ c && c ≤ '9') || ('a' ≤ c && c ≤ 'z') || ('A' ≤ c && c ≤ 'Z')

/-- The words so far, the open one last; there is always one. -/
structure WpmWords where
  closed : List Text
  word : Text

/-- Open a new word unless the open one is empty. -/
def WpmWords.close (w : WpmWords) : WpmWords :=
  if w.word = [] then w else ⟨w.closed ++ [w.word], []⟩

/-- One character of `wpm_preprocess`. -/
def wpmChar (u : Unicode) (opts : NormalizerOptions) (w : WpmWords)
    (c : Char) : WpmWords :=
  if isWhitespace c then w.close
  else if c = Char.ofNat 0 ∨ c = Char.ofNat 0xFFFD ∨ u.isControl c then w
  else if opts.stripAccents ∧ u.isNonspacingMark c then w
  else
    let piece : Char :=
      if opts.lowercase then
        match u.toLowercase c with
        | [lower] => lower
        | _ => c
      else c
    if u.isPunctuation c ∨ (c.toNat < 0x7F ∧ ¬ isAsciiAlphanumeric c ∧ c ≠ '_')
        ∨ isChineseChar c then
      ⟨w.close.closed ++ [[piece]], []⟩
    else ⟨w.closed, w.word ++ [piece]⟩

/-- `wpm_preprocess`. -/
def wpmPreprocess (u : Unicode) (opts : NormalizerOptions) (text : Text) :
    List Text :=
  let decomposed := if opts.stripAccents then u.nfd text else text
  let w := decomposed.foldl (wpmChar u opts) ⟨[], []⟩
  if w.word = [] then w.closed else w.closed ++ [w.word]

/-- The longest entry among the prefixes of at most `k` characters. -/
def wpmMatch (text : Text) : Nat → Option (Nat × Nat)
  | 0 => none
  | k + 1 =>
      let piece := text.take (k + 1)
      match (if (utf8Encode piece).length ≤ tok.maxTokenLen + 1
          then tok.vocab.get piece else none) with
      | some id => some (id, k + 1)
      | none => wpmMatch text k

/-- The greedy match over one word; none when it stops part way. -/
def wpmWord : Nat → Text → Option (List Nat)
  | _, [] => some []
  | 0, _ :: _ => none
  | fuel + 1, c :: rest =>
      match tok.wpmMatch (c :: rest) (rest.length + 1) with
      | none => none
      | some (id, k) => (wpmWord fuel ((c :: rest).drop k)).map (id :: ·)

/-- `wpm_encode`. -/
def wpmEncode (u : Unicode) (text : Text) : List Nat :=
  (wpmPreprocess u tok.normalizer text).flatMap fun word =>
    if word = [] then []
    else
      match tok.wpmWord (word.length + 1) (spmSpace :: word) with
      | some ids => ids
      | none => [tok.unkToken]

end Tokenizer

end Minfer.Tokenize
