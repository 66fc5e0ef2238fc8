/-
The SentencePiece merge is the plain scan: `spm_encode` ends with the
symbols that are left when the pair of neighbours with the highest score,
the leftmost one, is merged over and over.

The linked list of the session is read as its live symbols in order, each
under its index (`Reads`), and the heap as a queue of candidates for them.
One bigram that leaves the heap is then one step of the merge queue, and the
queue's run lemma says what the loop ends with.
-/
import Mathlib.Data.List.Perm.Basic
import Minfer.Lib.MergeQueue
import Minfer.Tokenizer.Proofs.Pieces
import Minfer.Tokenizer.Proofs.Scan
import Minfer.Tokenizer.Proofs.Spm

namespace Minfer.Tokenize

open Minfer.Lib (utf8Encode utf8Encode_append)
open Minfer.Lib.MergeQueue

namespace Tokenizer

variable (tok : Tokenizer)

-- ============================ the scan

/-- The score of two symbols: their concatenation's, when it is an entry that
has one. -/
def pairScore (x y : Text) : Option Float32 :=
  (tok.vocab.get (x ++ y)).bind fun id => tok.idToScore[id]?

/-- `partial_cmp(..).unwrap_or(Equal)`. -/
def scoreCmp (partialCmp : Float32 → Float32 → Option Ordering)
    (a b : Float32) : Ordering :=
  (partialCmp a b).getD .eq

/-- `SpmBigram::cmp`. -/
def SpmBigram.cmp (partialCmp : Float32 → Float32 → Option Ordering)
    (a b : SpmBigram) : Ordering :=
  (scoreCmp partialCmp a.score b.score).then (compare b.left a.left)

/-- The symbols that are left when the leftmost pair of the highest score is
looked for and merged until no pair has a score. -/
def scannedSymbols (partialCmp : Float32 → Float32 → Option Ordering)
    (text : Text) : List Text :=
  exhaust (· ++ ·) tok.pairScore (scoreCmp partialCmp) text.length
    (text.map fun c => [c])

-- ============================ the list

/-- Bytes of a symbol. -/
def byteLen (text : Text) : Nat := (utf8Encode text).length

/-- The bigram as a candidate for its two symbols. -/
def SpmBigram.candidate (b : SpmBigram) : Candidate Float32 :=
  ⟨b.score, b.left, b.right, b.size⟩

/-- The index of the first of the symbols, else `next`. -/
def headOr (cells : List (Nat × Text)) (next : Option Nat) : Option Nat :=
  (cells.head?.map Prod.fst).or next

/-- The index of the last of the symbols, else `prev`. -/
def lastOr (prev : Option Nat) (cells : List (Nat × Text)) : Option Nat :=
  (cells.getLast?.map Prod.fst).or prev

/-- A stretch of the linked list, between the indices before and after it. -/
def Linked (symbols : List SpmSymbol) : Option Nat → List (Nat × Text) →
    Option Nat → Prop
  | _, [], _ => True
  | prev, (i, x) :: rest, next =>
      symbols[i]? = some ⟨x, byteLen x, prev, headOr rest next⟩
        ∧ Linked symbols (some i) rest next

/-- The live symbols of a session, in order. -/
structure SpmSession.Reads (s : SpmSession) (cells : List (Nat × Text)) : Prop where
  linked : Linked s.symbols none cells none
  dead : ∀ (i : Nat) sym, s.symbols[i]? = some sym → i ∉ cells.map Prod.fst →
    sym.n = 0

variable {tok} {symbols symbols' : List SpmSymbol} {prev next : Option Nat}
  {cells pre post : List (Nat × Text)} {n : Nat} {s : SpmSession}

theorem linked_append :
    Linked symbols prev (pre ++ post) next ↔
      Linked symbols prev pre (headOr post next)
        ∧ Linked symbols (lastOr prev pre) post next := by
  induction pre generalizing prev with
  | nil => rw [List.nil_append, Linked, true_and]; rfl
  | cons c pre ih =>
      obtain ⟨i, x⟩ := c
      have hhead : headOr (pre ++ post) next = headOr pre (headOr post next) := by
        cases pre <;> rfl
      have hlast : lastOr prev ((i, x) :: pre) = lastOr (some i) pre := by
        cases pre with
        | nil => rfl
        | cons c pre =>
            rw [lastOr, lastOr, List.getLast?_cons_cons, List.getLast?_cons]
            rfl
      rw [List.cons_append, Linked, Linked, ih, hhead, hlast, and_assoc]

/-- The list reads its own symbols only. -/
theorem Linked.congr (h : Linked symbols prev cells next)
    (hsame : ∀ c ∈ cells, symbols'[c.1]? = symbols[c.1]?) :
    Linked symbols' prev cells next := by
  induction cells generalizing prev with
  | nil => trivial
  | cons c rest ih =>
      obtain ⟨i, x⟩ := c
      exact ⟨(hsame (i, x) List.mem_cons_self).trans h.1,
        ih h.2 fun c hc => hsame c (List.mem_cons_of_mem _ hc)⟩

variable {i j : Nat} {x y text : Text} {c : Nat × Text}
  {queue : List SpmBigram}

/-- A symbol of the list, with its links. -/
theorem SpmSession.Reads.at (h : s.Reads (pre ++ (i, x) :: post)) :
    s.symbols[i]? = some ⟨x, byteLen x, lastOr none pre, headOr post none⟩ :=
  (linked_append.1 h.linked).2.1

theorem SpmSession.Reads.get (h : s.Reads cells) (hx : (i, x) ∈ cells) :
    ∃ sym, s.symbols[i]? = some sym ∧ sym.text = x ∧ sym.n = byteLen x := by
  obtain ⟨pre, post, rfl⟩ := List.append_of_mem hx
  exact ⟨_, h.at, rfl, rfl⟩

variable {sym : SpmSymbol} {b : SpmBigram} {fuel : Nat}

/-- A live symbol is in the list. -/
theorem SpmSession.Reads.mem (h : s.Reads cells)
    (hsym : s.symbols[i]? = some sym) (hn : sym.n ≠ 0) :
    (i, sym.text) ∈ cells ∧ sym.n = byteLen sym.text := by
  by_cases hi : i ∈ cells.map Prod.fst
  · obtain ⟨⟨k, x⟩, hc, rfl⟩ := List.mem_map.1 hi
    obtain ⟨sym', hsym', rfl, hlen⟩ := h.get hc
    obtain rfl := Option.some.inj (hsym.symm.trans hsym')
    exact ⟨hc, hlen⟩
  · exact absurd (h.dead i sym hsym hi) hn

theorem byteLen_append (x y : Text) : byteLen (x ++ y) = byteLen x + byteLen y := by
  rw [byteLen, utf8Encode_append, List.length_append]
  rfl

-- =========================== one merge

/-- What `try_add` queues for two symbols. -/
def queuedFor (tok : Tokenizer) (c d : Nat × Text) : List SpmBigram :=
  (tok.pairScore c.2 d.2).toList.map fun score =>
    ⟨score, c.1, d.1, byteLen (c.2 ++ d.2)⟩

theorem mem_queuedFor {d : Nat × Text} :
    b ∈ queuedFor tok c d ↔ tok.pairScore c.2 d.2 = some b.score ∧ b.left = c.1
      ∧ b.right = d.1
      ∧ b.size = byteLen c.2 + byteLen d.2 := by
  rw [queuedFor, List.mem_map]
  constructor
  · intro ⟨score, hscore, hb⟩
    rw [← hb]
    exact ⟨Option.mem_toList.1 hscore, rfl, rfl, byteLen_append _ _⟩
  · intro ⟨hscore, hl, hr, hsize⟩
    refine ⟨b.score, Option.mem_toList.2 hscore, ?_⟩
    rw [byteLen_append, ← hl, ← hr, ← hsize]

variable (tok) in
theorem tryAdd_queued {left right : Nat} {l r : SpmSymbol}
    (hl : s.symbols[left]? = some l) (hr : s.symbols[right]? = some r) :
    ∃ s', tok.tryAdd left right s = .ok s' ∧ s'.symbols = s.symbols
      ∧ s'.queue = queuedFor tok (left, l.text) (right, r.text) ++ s.queue := by
  simp only [tryAdd, hl, hr, queuedFor, pairScore]
  cases tok.vocab.get (l.text ++ r.text) with
  | none => exact ⟨s, rfl, rfl, rfl⟩
  | some id =>
      simp only [Option.bind_some]
      cases tok.idToScore[id]? with
      | none => exact ⟨s, rfl, rfl, rfl⟩
      | some score => exact ⟨_, rfl, rfl, rfl⟩

/-- The table once `j` joined `i`, before the link back. -/
def joined (symbols : List SpmSymbol) (i j : Nat) (x y : Text)
    (prev next : Option Nat) :
    List SpmSymbol :=
  (symbols.set i ⟨x ++ y, byteLen x + byteLen y, prev, next⟩).set j
    ⟨[], 0, some i, next⟩

theorem getElem?_joined {k : Nat} (hi : k ≠ i) (hj : k ≠ j) :
    (joined symbols i j x y prev next)[k]? = symbols[k]? := by
  rw [joined, List.getElem?_set_ne (Ne.symm hj), List.getElem?_set_ne (Ne.symm hi)]

theorem getElem?_joined_left (hi : i < symbols.length) (hij : i < j) :
    (joined symbols i j x y prev next)[i]?
      = some ⟨x ++ y, byteLen (x ++ y), prev, next⟩ := by
  rw [joined, List.getElem?_set_ne (Nat.ne_of_gt hij),
    List.getElem?_set_self hi, byteLen_append]

theorem getElem?_joined_right
    (h : (joined symbols i j x y prev next)[j]? = some sym) : sym.n = 0 := by
  rw [joined, List.getElem?_set] at h
  simp only [if_true] at h
  split at h
  · obtain rfl := Option.some.inj h
    rfl
  · cases h

/-- The list and the dead symbols of a table that is the joined one but for the
symbol after the pair, which links back to `i`. -/
theorem SpmSession.Reads.of_joined
    {symbols : List SpmSymbol} (h : s.Reads (pre ++ (i, x) :: (j, y) :: post))
    (hasc : ((pre ++ (i, x) :: (j, y) :: post).map Prod.fst).Pairwise (· < ·))
    (hpost : Linked symbols (some i) post none)
    (hsame : ∀ k, some k ≠ headOr post none → symbols[k]?
      = (joined s.symbols i j x y (lastOr none pre) (headOr post none))[k]?) :
    SpmSession.Reads { s with symbols := symbols } (pre ++ (i, x ++ y) :: post) := by
  obtain ⟨hpre, hij, hafter⟩ := Tracks.names hasc
  have hhead {k : Nat} (hk : k ≤ j) : some k ≠ headOr post none := by
    cases post with
    | nil => exact Option.some_ne_none k
    | cons c rest =>
        intro heq
        have := hafter c List.mem_cons_self
        obtain rfl := Option.some.inj heq
        omega
  obtain ⟨hi, -⟩ := List.getElem?_eq_some_iff.1 h.at
  constructor
  · refine linked_append.2 ⟨?_, ?_, hpost⟩
    · refine (linked_append.1 h.linked).1.congr fun c hc => ?_
      have := hpre c hc
      rw [hsame _ (hhead (by omega)), getElem?_joined (by omega) (by omega)]
    · rw [hsame _ (hhead (Nat.le_of_lt hij))]
      exact getElem?_joined_left hi hij
  · intro k sym hsym hk
    rw [List.map_append, List.map_cons, List.mem_append, List.mem_cons] at hk
    obtain ⟨hkpre, hk⟩ := not_or.1 hk
    obtain ⟨hki, hkpost⟩ := not_or.1 hk
    have hkhead : some k ≠ headOr post none := by
      cases post with
      | nil => exact Option.some_ne_none k
      | cons c rest =>
          intro heq
          obtain rfl := Option.some.inj heq
          exact hkpost List.mem_cons_self
    change symbols[k]? = some sym at hsym
    rw [hsame k hkhead] at hsym
    by_cases hkj : k = j
    · exact getElem?_joined_right (hkj ▸ hsym)
    · rw [getElem?_joined hki hkj] at hsym
      refine h.dead k sym hsym ?_
      rw [List.map_append, List.map_cons, List.map_cons, List.mem_append,
        List.mem_cons, List.mem_cons]
      exact not_or.2 ⟨hkpre, not_or.2 ⟨hki, not_or.2 ⟨hkj, hkpost⟩⟩⟩

theorem spmRelink_some {k : Nat} (h : symbols[k]? = some sym) :
    spmRelink i (some k) symbols
      = .ok (symbols.set k { sym with prev := some i }) := by
  simp only [spmRelink, h]

/-- The symbols of a list whose two neighbours were joined. -/
theorem SpmSession.Reads.join (h : s.Reads (pre ++ (i, x) :: (j, y) :: post))
    (hasc : ((pre ++ (i, x) :: (j, y) :: post).map Prod.fst).Pairwise (· < ·)) :
    ∃ symbols, spmRelink i (headOr post none)
        (joined s.symbols i j x y (lastOr none pre) (headOr post none)) = .ok symbols
      ∧ SpmSession.Reads { s with symbols := symbols }
        (pre ++ (i, x ++ y) :: post) := by
  obtain ⟨-, hij, hafter⟩ := Tracks.names hasc
  cases post with
  | nil => exact ⟨_, rfl, h.of_joined hasc trivial fun k _ => rfl⟩
  | cons c rest =>
      obtain ⟨k, z⟩ := c
      have hk : j < k := hafter (k, z) List.mem_cons_self
      have hrest : ∀ c ∈ rest, k < c.1 := by
        have h' : (((pre ++ [(i, x), (j, y)]) ++ (k, z) :: rest).map
            Prod.fst).Pairwise (· < ·) := by
          rwa [List.append_assoc]
        exact (names_around h').2
      have hlinked := (linked_append.1 h.linked).2.2.2
      have hget : (joined s.symbols i j x y (lastOr none pre) (some k))[k]?
          = some ⟨z, byteLen z, some j, headOr rest none⟩ := by
        rw [getElem?_joined (by omega) (by omega)]
        exact hlinked.1
      obtain ⟨hlen, -⟩ := List.getElem?_eq_some_iff.1 hget
      refine ⟨_, spmRelink_some hget,
        h.of_joined hasc ⟨List.getElem?_set_self hlen, ?_⟩ ?_⟩
      · refine hlinked.2.congr fun c hc => ?_
        have := hrest c hc
        rw [List.getElem?_set_ne (by omega), getElem?_joined (by omega) (by omega)]
      · intro m hm
        exact List.getElem?_set_ne fun heq => hm (congrArg some heq.symm)

/-- What a merge queues for the merged symbol and its two neighbours. -/
def requeued (tok : Tokenizer) (pre post : List (Nat × Text))
    (c : Nat × Text) : List SpmBigram :=
  post.head?.toList.flatMap (queuedFor tok c)
    ++ pre.getLast?.toList.flatMap (queuedFor tok · c)

theorem mem_requeued
    (hasc : ((pre ++ c :: post).map Prod.fst).Pairwise (· < ·)) :
    b ∈ requeued tok pre post c ↔
      Current tok.pairScore byteLen (pre ++ c :: post) b.candidate
        ∧ (b.left = c.1 ∨ b.right = c.1) := by
  have hc : c ∈ pre ++ c :: post := List.mem_append_right _ List.mem_cons_self
  rw [requeued, List.mem_append, List.mem_flatMap, List.mem_flatMap]
  constructor
  · rintro (⟨q, hq, hb⟩ | ⟨p, hp, hb⟩)
    · obtain ⟨hscore, hl, hr, hsize⟩ := mem_queuedFor.1 hb
      refine ⟨⟨c, q, ?_, hscore, hl, hr, hsize⟩, Or.inl hl⟩
      exact neighbours_append.2
        (Or.inr (Or.inr (neighbours_cons.2 (Or.inl ⟨rfl, Option.mem_toList.1 hq⟩))))
    · obtain ⟨hscore, hl, hr, hsize⟩ := mem_queuedFor.1 hb
      refine ⟨⟨p, c, ?_, hscore, hl, hr, hsize⟩, Or.inr hr⟩
      exact neighbours_append.2 (Or.inr (Or.inl ⟨Option.mem_toList.1 hp, rfl⟩))
  · intro ⟨⟨p, q, hpq, hscore, hl, hr, hsize⟩, hat⟩
    have hmem := mem_queuedFor.2 ⟨hscore, hl, hr, hsize⟩
    have hname {d : Nat × Text} (hd : d ∈ pre ++ c :: post) (heq : d.1 = c.1) :
        d = c :=
      Prod.ext heq (eq_of_ascending hasc (heq ▸ hd) hc)
    rcases hat with hat | hat
    · obtain rfl : p = c := hname hpq.mem_left (hl.symm.trans hat)
      exact Or.inl ⟨q, Option.mem_toList.2 (neighbours_right hasc hpq), hmem⟩
    · obtain rfl : q = c := hname hpq.mem_right (hr.symm.trans hat)
      exact Or.inr ⟨p, Option.mem_toList.2 (neighbours_left hasc hpq), hmem⟩

variable (tok) in
theorem SpmSession.Reads.tryAddPrev (h : s.Reads (pre ++ c :: post)) :
    ∃ s', tok.tryAddPrev (lastOr none pre) c.1 s = .ok s' ∧ s'.symbols = s.symbols
      ∧ s'.queue = pre.getLast?.toList.flatMap (queuedFor tok · c) ++ s.queue := by
  match hlast : pre.getLast? with
  | none => exact ⟨s, by rw [lastOr, hlast]; rfl, rfl, rfl⟩
  | some p =>
      have hp : (p.1, p.2) ∈ pre ++ c :: post :=
        List.mem_append_left _ (List.mem_of_getLast? hlast)
      obtain ⟨l, hl, hltext, -⟩ := h.get hp
      obtain ⟨s', hadd, hsym, hqueue⟩ := tryAdd_queued tok hl h.at
      refine ⟨s', by rw [lastOr, hlast]; exact hadd, hsym, ?_⟩
      rw [hqueue, hltext, Option.toList_some, List.flatMap_singleton]

variable (tok) in
theorem SpmSession.Reads.tryAddNext (h : s.Reads (pre ++ c :: post)) :
    ∃ s', tok.tryAddNext (headOr post none) c.1 s = .ok s' ∧ s'.symbols = s.symbols
      ∧ s'.queue = post.head?.toList.flatMap (queuedFor tok c) ++ s.queue := by
  match hhead : post.head? with
  | none => exact ⟨s, by rw [headOr, hhead]; rfl, rfl, rfl⟩
  | some q =>
      have hq : (q.1, q.2) ∈ pre ++ c :: post :=
        List.mem_append_right _ (List.mem_cons_of_mem _ (List.mem_of_head? hhead))
      obtain ⟨r, hr, hrtext, -⟩ := h.get hq
      obtain ⟨s', hadd, hsym, hqueue⟩ := tryAdd_queued tok h.at hr
      refine ⟨s', by rw [headOr, hhead]; exact hadd, hsym, ?_⟩
      rw [hqueue, hrtext, Option.toList_some, List.flatMap_singleton]

/-- The session reads the same list when only its queue changed. -/
theorem SpmSession.Reads.of_symbols {s' : SpmSession} (h : s.Reads cells)
    (hsym : s'.symbols = s.symbols) : s'.Reads cells :=
  ⟨hsym ▸ h.linked, hsym ▸ h.dead⟩

/-- One bigram that left the heap, as a step of the merge queue. -/
theorem spmPop_step {partialCmp : Float32 → Float32 → Option Ordering}
    (hinv : s.Inv tok n) (h : s.Reads cells)
    (ht : Tracks tok.pairScore byteLen cells (queue.map SpmBigram.candidate))
    (htaken : queue.Perm (b :: s.queue)) (hb : b.left < b.right ∧ b.right < n)
    (hgreatest : ∀ c ∈ queue, c.cmp partialCmp b ≠ .gt) :
    ∃ s' cells', tok.spmPop b s = .ok s' ∧ s'.Reads cells'
      ∧ Step (· ++ ·) tok.pairScore (scoreCmp partialCmp) byteLen
        (cells, queue.map SpmBigram.candidate)
          (cells', s'.queue.map SpmBigram.candidate) := by
  have hleft : b.left < s.symbols.length := by rw [hinv.length]; omega
  have hright : b.right < s.symbols.length := by rw [hinv.length]; omega
  obtain ⟨l, hl⟩ : ∃ l, s.symbols[b.left]? = some l :=
    ⟨_, List.getElem?_eq_getElem hleft⟩
  obtain ⟨r, hr⟩ : ∃ r, s.symbols[b.right]? = some r :=
    ⟨_, List.getElem?_eq_getElem hright⟩
  have htaken' : (queue.map SpmBigram.candidate).Perm
      (b.candidate :: s.queue.map SpmBigram.candidate) := htaken.map _
  by_cases hlive : l.n = 0 ∨ r.n = 0 ∨ l.n + r.n ≠ b.size
  · -- one side is dead or grew
    refine ⟨s, cells, by simp only [spmPop, hl, hr, if_pos hlive], h,
      .drop htaken' ?_⟩
    intro x y hx hy hsize
    obtain ⟨l', hl', -, hln⟩ := h.get hx
    obtain ⟨r', hr', -, hrn⟩ := h.get hy
    obtain rfl := Option.some.inj (hl.symm.trans hl')
    obtain rfl := Option.some.inj (hr.symm.trans hr')
    have hposl := ht.filled _ hx
    have hposr := ht.filled _ hy
    simp only at hposl hposr
    have : b.candidate.size = b.size := rfl
    omega
  · -- two neighbours, as they were when they were queued
    obtain ⟨hln, hrest⟩ := not_or.1 hlive
    obtain ⟨hrn, hsize⟩ := not_or.1 hrest
    obtain ⟨hlmem, hllen⟩ := h.mem hl hln
    obtain ⟨hrmem, hrlen⟩ := h.mem hr hrn
    have hmem : b.candidate ∈ queue.map SpmBigram.candidate :=
      htaken'.mem_iff.2 List.mem_cons_self
    obtain ⟨pre, post, rfl⟩ := (ht.sound _ hmem _ _ hlmem hrmem).1
    have hlat := Option.some.inj (hl.symm.trans h.at)
    have hrat := Option.some.inj (hr.symm.trans (linked_append.1 h.linked).2.2.1)
    have hasc' := Tracks.ascending_merged (· ++ ·) ht.ascending
    obtain ⟨symbols, hrelink, hreads⟩ := h.join ht.ascending
    obtain ⟨s₁, hprev, hsym₁, hqueue₁⟩ := hreads.tryAddPrev tok
    obtain ⟨s₂, hnext, hsym₂, hqueue₂⟩ := (hreads.of_symbols hsym₁).tryAddNext tok
    refine ⟨s₂, _, ?_, (hreads.of_symbols hsym₁).of_symbols hsym₂, ?_⟩
    · have hlprev : l.prev = lastOr none pre := congrArg SpmSymbol.prev hlat
      have hrprev : r.prev = some b.left := congrArg SpmSymbol.prev hrat
      have hrnext : r.next = headOr post none := congrArg SpmSymbol.next hrat
      have htable : (s.symbols.set b.left (l.join r)).set b.right
          { r with text := [], n := 0 }
          = joined s.symbols b.left b.right l.text r.text (lastOr none pre)
            (headOr post none) := by
        rw [SpmSymbol.join, joined, hlprev, hrprev, hrnext, hllen, hrlen]
      simp only [spmPop, hl, hr, if_neg hlive]
      rw [htable, hlprev, hrnext]
      simp only [SpmBigram.candidate] at hrelink hprev hnext
      simp only [bind, Except.bind, hrelink, hprev, hnext]
    · have hqueue : s₂.queue.map SpmBigram.candidate
          = (requeued tok pre post (b.left, l.text ++ r.text)).map SpmBigram.candidate
            ++ s.queue.map SpmBigram.candidate := by
        rw [hqueue₂, hqueue₁, ← List.map_append, requeued, List.append_assoc]
        rfl
      rw [hqueue]
      refine .merge htaken' ?_ rfl rfl ?_ ?_ ?_
      · intro c hc
        obtain ⟨d, hd, rfl⟩ := List.mem_map.1 hc
        exact hgreatest d hd
      · have : l.n + r.n = b.size := by omega
        rw [← hllen, ← hrlen, this]
        rfl
      · intro c hc
        obtain ⟨d, hd, rfl⟩ := List.mem_map.1 hc
        exact ((mem_requeued hasc').1 hd).1
      · intro c hc hat
        exact List.mem_map.2 ⟨⟨c.score, c.left, c.right, c.size⟩,
          (mem_requeued hasc').2 ⟨hc, hat⟩, rfl⟩

-- ================================ seed

/-- The characters of a text as symbols, each under its index. -/
def charCells (i : Nat) : Text → List (Nat × Text)
  | [] => []
  | c :: rest => (i, [c]) :: charCells (i + 1) rest

theorem length_charCells (i : Nat) (text : Text) :
    (charCells i text).length = text.length := by
  induction text generalizing i with
  | nil => rfl
  | cons c rest ih => rw [charCells, List.length_cons, List.length_cons, ih]

theorem charCells_values (i : Nat) (text : Text) :
    (charCells i text).map Prod.snd = text.map fun c => [c] := by
  induction text generalizing i with
  | nil => rfl
  | cons c rest ih => rw [charCells, List.map_cons, List.map_cons, ih]

theorem getElem?_charCells (i k : Nat) (text : Text) :
    (charCells i text)[k]? = (text[k]?).map fun c => (i + k, [c]) := by
  induction text generalizing i k with
  | nil => rfl
  | cons c rest ih =>
      cases k with
      | zero => rfl
      | succ k =>
          rw [charCells, List.getElem?_cons_succ, List.getElem?_cons_succ, ih,
            Nat.add_assoc, Nat.add_comm 1 k]

theorem mem_charCells (h : c ∈ charCells i text) :
    i ≤ c.1 ∧ ∃ ch, c.2 = [ch] := by
  obtain ⟨k, hk⟩ := List.mem_iff_getElem?.1 h
  rw [getElem?_charCells, Option.map_eq_some_iff] at hk
  obtain ⟨ch, -, rfl⟩ := hk
  exact ⟨Nat.le_add_right i k, ch, rfl⟩

theorem ascending_charCells (i : Nat) (text : Text) :
    ((charCells i text).map Prod.fst).Pairwise (· < ·) := by
  induction text generalizing i with
  | nil => exact List.Pairwise.nil
  | cons c rest ih =>
      refine List.pairwise_cons.2 ⟨fun j hj => ?_, ih (i + 1)⟩
      obtain ⟨d, hd, rfl⟩ := List.mem_map.1 hj
      exact (mem_charCells hd).1

/-- Neighbours of the characters are one index apart. -/
theorem neighbours_charCells {d : Nat × Text} :
    Neighbours (charCells 0 text) c d ↔
      (charCells 0 text)[c.1]? = some c ∧ (charCells 0 text)[c.1 + 1]? = some d := by
  constructor
  · intro ⟨pre, post, h⟩
    have hc : (charCells 0 text)[pre.length]? = some c := by rw [h, getElem?_here]
    have hname : c.1 = pre.length := by
      rw [getElem?_charCells, Option.map_eq_some_iff] at hc
      obtain ⟨ch, -, rfl⟩ := hc
      exact Nat.zero_add _
    rw [hname]
    exact ⟨hc, by rw [h, getElem?_next]⟩
  · intro ⟨hc, hd⟩
    exact neighbours_of_getElem? hc hd

theorem byteLen_singleton (c : Char) : byteLen [c] = c.utf8Size := by
  rw [byteLen, Minfer.Lib.utf8Encode_cons, List.length_append,
    String.length_utf8EncodeChar]
  rfl

theorem getElem?_spmSymbols (text : Text) (i : Nat) :
    (spmSymbols text)[i]? = (text[i]?).map fun c =>
      ⟨[c], c.utf8Size, if i = 0 then none else some (i - 1),
        if i + 1 = text.length then none else some (i + 1)⟩ := by
  rw [spmSymbols, List.getElem?_map]
  by_cases hi : i < text.length
  · have hzip : ((List.range text.length).zip text)[i]? = some (i, text[i]) := by
      rw [List.getElem?_eq_getElem (by simpa using hi), List.getElem_zip,
        List.getElem_range]
    rw [hzip, List.getElem?_eq_getElem hi]
    rfl
  · rw [List.getElem?_eq_none (by simpa using hi), List.getElem?_eq_none (by omega)]
    rfl

theorem linked_spmSymbols {rest : Text} (h : text.drop i = rest) :
    Linked (spmSymbols text) (if i = 0 then none else some (i - 1))
      (charCells i rest) none := by
  induction rest generalizing i with
  | nil => trivial
  | cons c rest ih =>
      have hc : text[i]? = some c := by
        rw [← List.head?_drop, h]
        rfl
      have hrest : text.drop (i + 1) = rest := by
        rw [← List.tail_drop, h, List.tail_cons]
      constructor
      · rw [getElem?_spmSymbols, hc, Option.map_some, byteLen_singleton]
        have hlen : text.length - (i + 1) = rest.length := by
          rw [← List.length_drop, hrest]
        obtain ⟨hi, -⟩ := List.getElem?_eq_some_iff.1 hc
        congr 2
        cases rest with
        | nil => exact if_pos (by simp only [List.length_nil] at hlen; omega)
        | cons d rest => exact if_neg (by simp only [List.length_cons] at hlen; omega)
      · have := ih hrest
        rwa [if_neg (Nat.succ_ne_zero i), Nat.add_sub_cancel] at this

theorem reads_spmSymbols (text : Text) :
    SpmSession.Reads ⟨spmSymbols text, [], []⟩ (charCells 0 text) where
  linked := linked_spmSymbols (i := 0) rfl
  dead i sym hsym hi := by
    refine absurd ?_ hi
    change (spmSymbols text)[i]? = some sym at hsym
    rw [getElem?_spmSymbols, Option.map_eq_some_iff] at hsym
    obtain ⟨c, hc, -⟩ := hsym
    refine List.mem_map.2 ⟨(0 + i, [c]), List.mem_iff_getElem?.2 ⟨i, ?_⟩,
      Nat.zero_add i⟩
    rw [getElem?_charCells, hc, Option.map_some]

variable (tok) in
/-- The seed queues the pairs of the characters from index `i` on. -/
theorem spmSeed_queue (h : s.Reads (charCells 0 text)) (hi : 1 ≤ i)
    (hfuel : i + fuel = text.length) :
    ∃ s', tok.spmSeed fuel i s = .ok s' ∧ s'.symbols = s.symbols
      ∧ ∀ b, b ∈ s'.queue ↔ b ∈ s.queue
        ∨ (Current tok.pairScore byteLen (charCells 0 text) b.candidate
          ∧ i ≤ b.right) := by
  induction fuel generalizing i s with
  | zero =>
      refine ⟨s, rfl, rfl, fun b => ⟨Or.inl, fun hb => hb.resolve_right ?_⟩⟩
      intro h
      obtain ⟨⟨c, d, hcd, _, _, hr, _⟩, hright⟩ := h
      obtain ⟨hc, hd⟩ := neighbours_charCells.1 hcd
      obtain ⟨hlt, -⟩ := List.getElem?_eq_some_iff.1 hd
      rw [getElem?_charCells, Option.map_eq_some_iff] at hd
      obtain ⟨ch, -, rfl⟩ := hd
      rw [length_charCells] at hlt
      have : b.right = 0 + (c.1 + 1) := hr
      omega
  | succ fuel ih =>
      have hprev : i - 1 < text.length := by omega
      have hhere : i < text.length := by omega
      have hcell {k : Nat} (hk : k < text.length) :
          (charCells 0 text)[k]? = some (k, [text[k]]) := by
        rw [getElem?_charCells, List.getElem?_eq_getElem hk, Option.map_some,
          Nat.zero_add]
      obtain ⟨l, hl, hltext, -⟩ := h.get (List.mem_iff_getElem?.2 ⟨_, hcell hprev⟩)
      obtain ⟨r, hr, hrtext, -⟩ := h.get (List.mem_iff_getElem?.2 ⟨_, hcell hhere⟩)
      obtain ⟨s₁, hadd, hsym₁, hqueue₁⟩ := tryAdd_queued tok hl hr
      obtain ⟨s₂, hseed, hsym₂, hqueue₂⟩ :=
        ih (h.of_symbols hsym₁) (Nat.le_succ_of_le hi) (by omega)
      refine ⟨s₂, ?_, hsym₂.trans hsym₁, fun b => ?_⟩
      · rw [spmSeed, hadd]
        exact hseed
      · have hpair : b ∈ queuedFor tok (i - 1, l.text) (i, r.text) ↔
            Current tok.pairScore byteLen (charCells 0 text) b.candidate
                ∧ b.right = i := by
          rw [hltext, hrtext, mem_queuedFor]
          constructor
          · intro h
            obtain ⟨hscore, hl, hr, hsize⟩ := h
            refine ⟨⟨_, _, neighbours_charCells.2 ⟨hcell hprev, ?_⟩, hscore,
              hl, hr, hsize⟩, hr⟩
            rw [Nat.sub_add_cancel hi]
            exact hcell hhere
          · intro h
            obtain ⟨⟨c, d, hcd, hscore, hl, hr, hsize⟩, hright⟩ := h
            obtain ⟨hc, hd⟩ := neighbours_charCells.1 hcd
            have hnames : d.1 = c.1 + 1 := by
              rw [getElem?_charCells, Option.map_eq_some_iff] at hd
              obtain ⟨ch, -, rfl⟩ := hd
              exact Nat.zero_add _
            have hdi : d.1 = i := hr.symm.trans hright
            rw [← hnames, hdi, hcell hhere] at hd
            rw [show c.1 = i - 1 by omega, hcell hprev] at hc
            obtain rfl := Option.some.inj hc
            obtain rfl := Option.some.inj hd
            exact ⟨hscore, hl, hr, hsize⟩
        rw [hqueue₂, hqueue₁, List.mem_append, hpair]
        constructor
        · rintro ((⟨hcur, hat⟩ | hb) | ⟨hcur, hat⟩)
          · exact Or.inr ⟨hcur, Nat.le_of_eq hat.symm⟩
          · exact Or.inl hb
          · exact Or.inr ⟨hcur, Nat.le_of_succ_le hat⟩
        · rintro (hb | ⟨hcur, hat⟩)
          · exact Or.inl (Or.inr hb)
          · rcases Nat.eq_or_lt_of_le hat with hat | hat
            · exact Or.inl (Or.inl ⟨hcur, hat.symm⟩)
            · exact Or.inr ⟨hcur, hat⟩

/-- The queue after the seed is that of the characters. -/
theorem tracks_seed (h : ∀ b, b ∈ queue
      ↔ Current tok.pairScore byteLen (charCells 0 text) b.candidate) :
    Tracks tok.pairScore byteLen (charCells 0 text)
      (queue.map SpmBigram.candidate) := by
  refine .of_current (ascending_charCells 0 text) (fun c hc => ?_) fun b => ?_
  · obtain ⟨-, ch, hch⟩ := mem_charCells hc
    rw [hch, byteLen_singleton]
    exact ch.utf8Size_pos
  · rw [List.mem_map]
    constructor
    · rintro ⟨b, hb, rfl⟩
      exact (h b).1 hb
    · intro hb
      exact ⟨⟨b.score, b.left, b.right, b.size⟩, (h _).2 hb, rfl⟩

-- ================================ loop

/-- The heap's promise: what `pick` chooses is in the queue, and nothing comes
before it. -/
def Picks (tok : Tokenizer) (partialCmp : Float32 → Float32 → Option Ordering)
    (pick : List SpmBigram → Nat) : Prop :=
  ∀ queue, queue ≠ [] → (∀ b ∈ queue, b.score ∈ tok.idToScore) →
    ∃ b, queue[pick queue % queue.length]? = some b
      ∧ ∀ c ∈ queue, c.cmp partialCmp b ≠ .gt

variable {partialCmp : Float32 → Float32 → Option Ordering}
  {pick : List SpmBigram → Nat}

theorem mem_scores_of_current {b : Candidate Float32}
    (h : Current tok.pairScore byteLen cells b) : b.score ∈ tok.idToScore := by
  obtain ⟨c, d, -, hscore, -⟩ := h
  rw [pairScore, Option.bind_eq_some_iff] at hscore
  obtain ⟨id, -, hid⟩ := hscore
  exact List.mem_of_getElem? hid

/-- A step queues scores of the table only. -/
theorem scores_of_step {queue' : List SpmBigram} {cells' : List (Nat × Text)}
    (hstep : Step (· ++ ·) tok.pairScore (scoreCmp partialCmp) byteLen
      (cells, queue.map SpmBigram.candidate) (cells', queue'.map SpmBigram.candidate))
    (h : ∀ b ∈ queue, b.score ∈ tok.idToScore) (b : SpmBigram) (hb : b ∈ queue') :
    b.score ∈ tok.idToScore := by
  rcases hstep.mem (List.mem_map_of_mem hb) with hold | hcur
  · obtain ⟨c, hc, hcb⟩ := List.mem_map.1 hold
    have hscore : c.score = b.score := congrArg Candidate.score hcb
    exact hscore ▸ h c hc
  · exact mem_scores_of_current hcur

/-- The merge loop is a run of the merge queue that empties it. -/
theorem spmLoop_run (hpick : Picks tok partialCmp pick) (hinv : s.Inv tok n)
    (h : s.Reads cells)
    (ht : Tracks tok.pairScore byteLen cells (s.queue.map SpmBigram.candidate))
    (hscores : ∀ b ∈ s.queue, b.score ∈ tok.idToScore)
    (hfuel : s.measure ≤ fuel) :
    ∃ s' cells', tok.spmLoop pick fuel s = .ok s' ∧ s'.Inv tok n ∧ s'.Reads cells'
      ∧ Relation.ReflTransGen
        (Step (· ++ ·) tok.pairScore (scoreCmp partialCmp) byteLen)
        (cells, s.queue.map SpmBigram.candidate) (cells', []) := by
  induction fuel generalizing s cells with
  | zero =>
      have hq : s.queue = [] := by
        rw [← List.length_eq_zero_iff]
        unfold SpmSession.measure at hfuel
        omega
      refine ⟨s, cells, by rw [spmLoop, if_pos hq], hinv, h, ?_⟩
      rw [hq]
      exact .refl
  | succ fuel ih =>
      by_cases hq : s.queue = []
      · refine ⟨s, cells, by rw [spmLoop, hq]; rfl, hinv, h, ?_⟩
        rw [hq]
        exact .refl
      · obtain ⟨b, hget, hgreatest⟩ := hpick s.queue hq hscores
        obtain ⟨hlt, hb⟩ := List.getElem?_eq_some_iff.1 hget
        have htaken := (List.getElem_cons_eraseIdx_perm hlt).symm
        rw [hb] at htaken
        have hinv₀ : SpmSession.Inv tok n
            { s with queue := s.queue.eraseIdx (pick s.queue % s.queue.length) } :=
          ⟨hinv.length, hinv.linked, fun c hc =>
            hinv.queued c (List.mem_of_mem_eraseIdx hc),
            hinv.merged⟩
        have hbounds := hinv.queued b (hb ▸ List.getElem_mem hlt)
        obtain ⟨s₁, hpop, hinv₁, hmeasure⟩ := spmPop_ok hinv₀ hbounds
        obtain ⟨s₁', cells₁, hpop', hreads₁, hstep⟩ :=
          spmPop_step hinv₀ (h.of_symbols rfl) ht htaken hbounds hgreatest
        obtain rfl := Except.ok.inj (hpop.symm.trans hpop')
        have hlen := List.length_eraseIdx_of_lt hlt
        have hle : s₁.measure ≤ fuel := by
          refine Nat.le_trans hmeasure ?_
          unfold SpmSession.measure at hfuel ⊢
          simp only [hlen]
          omega
        obtain ⟨s₂, cells₂, hloop, hinv₂, hreads₂, hrun⟩ := ih hinv₁ hreads₁
          (hstep.tracks byteLen_append ht) (scores_of_step hstep hscores) hle
        refine ⟨s₂, cells₂, ?_, hinv₂, hreads₂, hrun.head hstep⟩
        rw [spmLoop, hget]
        simp only [bind, Except.bind, hpop]
        exact hloop

-- ================================ walk

/-- A symbol is an entry, or falls back to its bytes. -/
theorem resegment_eq {revMerge : Map Text (Text × Text)}
    (hmerged : ∀ p ∈ revMerge, tok.vocab.containsKey p.1 = true) (fuel : Nat)
    (text : Text) :
    tok.resegment revMerge (fuel + 1) text = tok.rawWordTokens text := by
  rw [resegment, rawWordTokens]
  cases hget : tok.vocab.get text with
  | some id => rfl
  | none =>
      simp only
      split
      next htext =>
        rw [htext]
        rfl
      · split
        next left right hrev =>
          -- a key of the table is an entry
          have hkey := hmerged _ (Map.mem_of_get hrev)
          rw [Map.containsKey, hget] at hkey
          cases hkey
        · rfl

theorem spmWalk_eq (hinv : s.Inv tok n) (h : Linked s.symbols prev cells none)
    (hfuel : cells.length ≤ fuel) :
    tok.spmWalk s fuel (headOr cells none)
      = extendAll tok.rawWordTokens (cells.map Prod.snd) := by
  induction cells generalizing prev fuel with
  | nil =>
      cases fuel <;> rfl
  | cons c rest ih =>
      obtain ⟨i, x⟩ := c
      match fuel, hfuel with
      | fuel + 1, hfuel =>
          have hrest := ih h.2 (Nat.le_of_succ_le_succ hfuel)
          change tok.spmWalk s (fuel + 1) (some i) = _
          rw [spmWalk, h.1]
          simp only [resegment_eq hinv.merged, hrest]
          rfl

/-- `spm_encode` is the plain scan: for any heap that takes a greatest bigram,
and scores that are totally ordered, the tokens are those of the symbols the
scan ends with. -/
theorem spmEncode_eq_scan {κ : Type} [LinearOrder κ] (rank : Float32 → κ)
    (hrank : ∀ a ∈ tok.idToScore, ∀ b ∈ tok.idToScore,
      partialCmp a b = some (compare (rank a) (rank b)))
    (hpick : Picks tok partialCmp pick) (text : Text) (htext : text ≠ []) :
    tok.spmEncode pick text
      = extendAll tok.rawWordTokens (tok.scannedSymbols partialCmp text) := by
  have hpos := List.length_pos_of_ne_nil htext
  have hcmp : Ranked tok.pairScore (scoreCmp partialCmp) rank := by
    intro x y a ha x' y' b hb
    have hmem {x y : Text} {a : Float32} (h : tok.pairScore x y = some a) :
        a ∈ tok.idToScore := by
      obtain ⟨id, -, hid⟩ := Option.bind_eq_some_iff.1 h
      exact List.mem_of_getElem? hid
    rw [scoreCmp, hrank a (hmem ha) b (hmem hb), Option.getD_some]
  obtain ⟨s₁, hseed, hinv₁, hq₁⟩ :=
    spmSeed_ok (spmSymbols_inv tok text) (Nat.le_refl 1)
      (show 1 + (text.length - 1) ≤ text.length by omega)
  obtain ⟨s₁', hseed', hsym₁, hqueue₁⟩ :=
    spmSeed_queue tok (reads_spmSymbols text) (Nat.le_refl 1)
      (show 1 + (text.length - 1) = text.length by omega)
  obtain rfl := Except.ok.inj (hseed.symm.trans hseed')
  have hqueue (b : SpmBigram) : b ∈ s₁.queue ↔
      Current tok.pairScore byteLen (charCells 0 text) b.candidate := by
    rw [hqueue₁]
    constructor
    · intro hb
      exact (hb.resolve_left List.not_mem_nil).1
    · intro hb
      obtain ⟨c, d, hcd, -, -, hr, -⟩ := id hb
      have hlt := hcd.lt (ascending_charCells 0 text)
      have hright : b.right = d.1 := hr
      exact Or.inr ⟨hb, by omega⟩
  have hmeasure : s₁.measure ≤ 4 * text.length := by
    have hcount := List.countP_le_length (p := SpmSymbol.alive) (l := s₁.symbols)
    rw [hinv₁.length] at hcount
    rw [List.length_nil] at hq₁
    unfold SpmSession.measure
    omega
  have ht := tracks_seed hqueue
  obtain ⟨s₂, cells, hloop, hinv₂, hreads, hrun⟩ :=
    spmLoop_run hpick hinv₁ ((reads_spmSymbols text).of_symbols hsym₁) ht
      (fun b hb => mem_scores_of_current ((hqueue b).1 hb)) hmeasure
  have hend := run_exhaust byteLen_append hcmp ht hrun rfl
  obtain ⟨hfirst, hlen⟩ := run_first hrun
  simp only [length_charCells, charCells_values] at hend hlen
  have hhead : headOr cells none = some 0 := by
    rw [headOr, hfirst]
    cases text with
    | nil => exact absurd rfl htext
    | cons c rest => rfl
  have hwalk := spmWalk_eq hinv₂ hreads.linked hlen
  rw [hhead, hend] at hwalk
  unfold spmEncode
  simp only [bind, Except.bind, hseed, hloop]
  exact hwalk

-- =========================== one score

/-- The entries `a` and `aa`, both of score zero. -/
def letters : Tokenizer where
  idToToken := [['a'], ['a', 'a']]
  idToScore := [0, 0]
  idToType := [1, 1]
  vocab := [(['a'], 0), (['a', 'a'], 1)]
  merges := []
  specialTokens := []
  model := .spm

/-- Among bigrams of one score the leftmost is the greatest. -/
def leftmost (queue : List SpmBigram) : Nat :=
  queue.findIdx fun b => queue.all fun c => b.left ≤ c.left

theorem exists_leftmost (h : queue ≠ []) :
    ∃ b ∈ queue, ∀ c ∈ queue, b.left ≤ c.left := by
  induction queue with
  | nil => exact absurd rfl h
  | cons b rest ih =>
      cases rest with
      | nil =>
          refine ⟨b, List.mem_cons_self, fun c hc => ?_⟩
          rw [List.mem_singleton.1 hc]
      | cons c rest =>
          obtain ⟨d, hd, hmin⟩ := ih (List.cons_ne_nil c rest)
          by_cases hbd : b.left ≤ d.left
          · refine ⟨b, List.mem_cons_self, fun e he => ?_⟩
            rcases List.mem_cons.1 he with rfl | he
            · exact Nat.le_refl _
            · exact Nat.le_trans hbd (hmin e he)
          · refine ⟨d, List.mem_cons_of_mem b hd, fun e he => ?_⟩
            rcases List.mem_cons.1 he with rfl | he
            · exact Nat.le_of_lt (Nat.lt_of_not_le hbd)
            · exact hmin e he

theorem picks_leftmost : Picks letters (fun _ _ => some .eq) leftmost := by
  intro queue hne _
  obtain ⟨b, hb, hmin⟩ := exists_leftmost hne
  have hlt : leftmost queue < queue.length :=
    List.findIdx_lt_length_of_exists ⟨b, hb, by simpa using hmin⟩
  refine ⟨queue[leftmost queue], ?_, fun c hc => ?_⟩
  · rw [Nat.mod_eq_of_lt hlt, List.getElem?_eq_getElem hlt]
  · have hall := List.findIdx_getElem (w := hlt)
    rw [List.all_eq_true] at hall
    have hle := of_decide_eq_true (hall c hc)
    exact Nat.compare_ne_gt.2 hle

example : letters.scannedSymbols (fun _ _ => some .eq)
    ['a', 'a', 'a'] = [['a', 'a'], ['a']] := rfl

theorem spmEncode_eq_scan_letters :
    letters.spmEncode leftmost ['a', 'a', 'a']
      = extendAll letters.rawWordTokens
        (letters.scannedSymbols (fun _ _ => some .eq) ['a', 'a', 'a']) := by
  refine spmEncode_eq_scan (fun _ => (0 : Nat)) (fun a ha b hb => ?_) picks_leftmost _
    (List.cons_ne_nil _ _)
  rw [compare_eq_iff_eq.2 rfl]

end Tokenizer

end Minfer.Tokenize
