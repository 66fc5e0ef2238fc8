/-
The SentencePiece engine returns on every text.

# The measure

`|queue| + 3·alive`, where a symbol is alive until it is merged into its
left neighbour. A bigram that went stale leaves the queue: minus one. A
merge takes one bigram and one live symbol and queues at most two bigrams:
minus two or more. A text of `n` characters starts with at most `n - 1`
bigrams and `n` live symbols, so `4 n` rounds are enough.

The links only ever point forward, so the walk over them ends too. A key of
the merge table was an entry when it was queued, so re-segmenting a symbol
never recurses.
-/
import Minfer.Tokenizer.Proofs.Ends

namespace Minfer.Tokenize

namespace Tokenizer

variable {tok : Tokenizer} {size : Nat}

-- =========================== invariant

/-- A symbol's links: back to an earlier symbol, on to a later one. -/
structure SpmSymbol.Linked (n i : Nat) (sym : SpmSymbol) : Prop where
  prev : ∀ j, sym.prev = some j → j < i
  next : ∀ j, sym.next = some j → i < j ∧ j < n

/-- The session on `n` symbols. -/
structure SpmSession.Inv (tok : Tokenizer) (n : Nat) (s : SpmSession) : Prop where
  length : s.symbols.length = n
  linked : ∀ (i : Nat) (sym : SpmSymbol), s.symbols[i]? = some sym → sym.Linked n i
  queued : ∀ b ∈ s.queue, b.left < b.right ∧ b.right < n
  merged : ∀ p ∈ s.revMerge, tok.vocab.containsKey p.1 = true

/-- A symbol is alive until it is merged into its left neighbour. -/
def SpmSymbol.alive (sym : SpmSymbol) : Bool := sym.n ≠ 0

def SpmSession.measure (s : SpmSession) : Nat :=
  s.queue.length + 3 * s.symbols.countP SpmSymbol.alive

variable {n : Nat} {s : SpmSession}

/-- One `try_add` of two places queues at most one bigram. -/
theorem tryAdd_ok (h : s.Inv tok n) {left right : Nat} (hlr : left < right)
    (hr : right < n) :
    ∃ s', tok.tryAdd left right s = .ok s' ∧ s'.Inv tok n ∧ s'.symbols = s.symbols
      ∧ s'.queue.length ≤ s.queue.length + 1 := by
  have hl : left < s.symbols.length := by rw [h.length]; omega
  have hr' : right < s.symbols.length := by rwa [h.length]
  unfold tryAdd
  rw [List.getElem?_eq_getElem hl, List.getElem?_eq_getElem hr']
  simp only
  split
  next id hget =>
    split
    next score _ =>
      refine ⟨_, rfl, ⟨h.length, h.linked, ?_, ?_⟩, rfl, Nat.le_refl _⟩
      · intro b hb
        rcases List.mem_cons.1 hb with rfl | hb
        · exact ⟨hlr, hr⟩
        · exact h.queued b hb
      · intro p hp
        rcases Map.mem_insert hp with rfl | hp
        · exact Map.containsKey_iff.2 ⟨id, hget⟩
        · exact h.merged p hp
    · exact ⟨s, rfl, h, rfl, Nat.le_succ _⟩
  · exact ⟨s, rfl, h, rfl, Nat.le_succ _⟩

theorem tryAddPrev_ok (h : s.Inv tok n) {prev : Option Nat} {left : Nat}
    (hprev : ∀ j, prev = some j → j < left) (hl : left < n) :
    ∃ s', tok.tryAddPrev prev left s = .ok s' ∧ s'.Inv tok n ∧ s'.symbols = s.symbols
      ∧ s'.queue.length ≤ s.queue.length + 1 := by
  match prev with
  | none => exact ⟨s, rfl, h, rfl, Nat.le_succ _⟩
  | some j => exact tryAdd_ok h (hprev j rfl) hl

theorem tryAddNext_ok (h : s.Inv tok n) {next : Option Nat} {left : Nat}
    (hnext : ∀ j, next = some j → left < j ∧ j < n) :
    ∃ s', tok.tryAddNext next left s = .ok s' ∧ s'.Inv tok n ∧ s'.symbols = s.symbols
      ∧ s'.queue.length ≤ s.queue.length + 1 := by
  match next with
  | none => exact ⟨s, rfl, h, rfl, Nat.le_succ _⟩
  | some j => exact tryAdd_ok h (hnext j rfl).1 (hnext j rfl).2

-- ================================ seed

variable {i : Nat} {symbols : List SpmSymbol}

theorem spmSeed_ok (h : s.Inv tok n) {fuel : Nat} (hi : 1 ≤ i)
    (hfuel : i + fuel ≤ n) :
    ∃ s', tok.spmSeed fuel i s = .ok s' ∧ s'.Inv tok n
      ∧ s'.queue.length ≤ s.queue.length + fuel := by
  induction fuel generalizing i s with
  | zero => exact ⟨s, rfl, h, Nat.le_refl _⟩
  | succ fuel ih =>
      obtain ⟨s₁, hadd, hinv, -, hlen⟩ :=
        tryAdd_ok h (show i - 1 < i by omega) (show i < n by omega)
      obtain ⟨s₂, hseed, hinv₂, hlen₂⟩ := ih hinv (Nat.le_succ_of_le hi) (by omega)
      refine ⟨s₂, ?_, hinv₂, by omega⟩
      rw [spmSeed, hadd]
      exact hseed

/-- The first symbols are linked in the order of the text. -/
theorem spmSymbols_inv (tok : Tokenizer) (text : Text) :
    SpmSession.Inv tok text.length ⟨spmSymbols text, [], []⟩ where
  length := by
    rw [spmSymbols, List.length_map, List.length_zip, List.length_range, Nat.min_self]
  linked i sym hsym := by
    rw [spmSymbols, List.getElem?_map, Option.map_eq_some_iff] at hsym
    obtain ⟨p, hp, rfl⟩ := hsym
    obtain ⟨hlt, hp⟩ := List.getElem?_eq_some_iff.1 hp
    rw [List.length_zip, List.length_range, Nat.min_self] at hlt
    have hi : p.1 = i := by
      rw [← hp, List.getElem_zip, List.getElem_range]
    constructor
    · intro j hj
      simp only [hi] at hj
      split at hj
      · cases hj
      · have := Option.some.inj hj
        omega
    · intro j hj
      simp only [hi] at hj
      split at hj
      · cases hj
      · have := Option.some.inj hj
        omega
  queued _ h := absurd h List.not_mem_nil
  merged _ h := absurd h List.not_mem_nil

-- ============================== merges

theorem SpmSymbol.Linked.of_set {x : SpmSymbol}
    (h : ∀ (j : Nat) (sym : SpmSymbol), symbols[j]? = some sym →
      sym.Linked n j) (hx : x.Linked n i) (j : Nat) (sym : SpmSymbol)
    (hj : (symbols.set i x)[j]? = some sym) :
    sym.Linked n j := by
  rw [List.getElem?_set] at hj
  split at hj
  next hij =>
    split at hj
    · obtain rfl := Option.some.inj hj
      exact hij ▸ hx
    · cases hj
  · exact h j sym hj

/-- Joining two live symbols leaves one of them. -/
theorem countP_alive_merge {j : Nat}
    {l r x y : SpmSymbol} (hij : i < j) (hl : symbols[i]? = some l)
    (hr : symbols[j]? = some r) (hla : l.alive = true) (hra : r.alive = true)
    (hxa : x.alive = true) (hya : y.alive = false) :
    ((symbols.set i x).set j y).countP SpmSymbol.alive + 1
      = symbols.countP SpmSymbol.alive := by
  obtain ⟨hi, hl⟩ := List.getElem?_eq_some_iff.1 hl
  obtain ⟨hj, hr⟩ := List.getElem?_eq_some_iff.1 hr
  have hj' : j < (symbols.set i x).length := by rwa [List.length_set]
  have hpos : 0 < symbols.countP SpmSymbol.alive :=
    List.countP_pos_iff.2 ⟨r, hr ▸ List.getElem_mem hj, hra⟩
  have hget : (symbols.set i x)[j] = r := by
    rw [List.getElem_set_ne (Nat.ne_of_lt hij), hr]
  rw [List.countP_set hj', hget, List.countP_set hi, hl]
  simp only [hla, hra, hxa, hya, if_true, Bool.false_eq_true, if_false]
  omega

theorem countP_alive_set {old x : SpmSymbol} (hold : symbols[i]? = some old)
    (hx : x.alive = old.alive) :
    (symbols.set i x).countP SpmSymbol.alive = symbols.countP SpmSymbol.alive := by
  obtain ⟨hi, hold⟩ := List.getElem?_eq_some_iff.1 hold
  rw [List.countP_set hi, hold, hx]
  by_cases h0 : old.alive = true
  · have hpos : 0 < symbols.countP SpmSymbol.alive :=
      List.countP_pos_iff.2 ⟨old, hold ▸ List.getElem_mem hi, h0⟩
    simp only [h0, if_true]
    omega
  · simp [h0]

/-- Relinking moves no symbol. -/
theorem spmRelink_ok {next : Option Nat} (hlen : symbols.length = n)
    (hlinked : ∀ (j : Nat) (sym : SpmSymbol), symbols[j]? = some sym →
      sym.Linked n j) (hnext : ∀ j, next = some j → i < j ∧ j < n) :
    ∃ symbols', spmRelink i next symbols = .ok symbols' ∧ symbols'.length = n
      ∧ (∀ (j : Nat) (sym : SpmSymbol), symbols'[j]? = some sym → sym.Linked n j)
      ∧ symbols'.countP SpmSymbol.alive = symbols.countP SpmSymbol.alive := by
  match next with
  | none => exact ⟨symbols, rfl, hlen, hlinked, rfl⟩
  | some nx =>
      obtain ⟨hinx, hnx⟩ := hnext nx rfl
      have hget := List.getElem?_eq_getElem (hlen.symm ▸ hnx : nx < symbols.length)
      simp only [spmRelink, hget]
      refine ⟨_, rfl, by rw [List.length_set, hlen], ?_, countP_alive_set hget rfl⟩
      refine SpmSymbol.Linked.of_set hlinked
        ⟨fun j hj => ?_, (hlinked nx _ hget).next⟩
      obtain rfl := Option.some.inj hj
      exact hinx

/-- One bigram that left the queue: what it queues is paid for by the symbol it
takes. -/
theorem spmPop_ok (h : s.Inv tok n) {b : SpmBigram}
    (hb : b.left < b.right ∧ b.right < n) :
    ∃ s', tok.spmPop b s = .ok s' ∧ s'.Inv tok n ∧ s'.measure ≤ s.measure := by
  have hleft : b.left < s.symbols.length := by rw [h.length]; omega
  have hright : b.right < s.symbols.length := by rw [h.length]; omega
  obtain ⟨l, hl⟩ : ∃ l, s.symbols[b.left]? = some l :=
    ⟨_, List.getElem?_eq_getElem hleft⟩
  obtain ⟨r, hr⟩ : ∃ r, s.symbols[b.right]? = some r :=
    ⟨_, List.getElem?_eq_getElem hright⟩
  unfold spmPop
  rw [hl, hr]
  simp only
  split
  · exact ⟨s, rfl, h, Nat.le_refl _⟩
  next hlive =>
    obtain ⟨hln, hrn, -⟩ : l.n ≠ 0 ∧ r.n ≠ 0 ∧ _ := by simpa only [not_or] using hlive
    have hll := h.linked _ _ hl
    have hrl := h.linked _ _ hr
    have hnext (j : Nat) (hj : r.next = some j) : b.left < j ∧ j < n :=
      ⟨Nat.lt_trans hb.1 (hrl.next j hj).1, (hrl.next j hj).2⟩
    have hjoin : (l.join r).alive = true :=
      decide_eq_true (show l.n + r.n ≠ 0 by omega)
    have halive :=
      countP_alive_merge hb.1 hl hr (decide_eq_true hln)
      (decide_eq_true hrn) hjoin
      (y := { r with text := [], n := 0 }) rfl
    have hlinked := SpmSymbol.Linked.of_set (SpmSymbol.Linked.of_set h.linked
      (x := l.join r) ⟨hll.prev, hnext⟩) (x :=
        { r with text := [], n := 0 }) ⟨hrl.prev, hrl.next⟩
    obtain ⟨symbols, hrelink, hlen, hlinked', halive'⟩ :=
      spmRelink_ok (by rw [List.length_set, List.length_set, h.length]) hlinked hnext
    have hinv : SpmSession.Inv tok n { s with symbols := symbols } :=
      ⟨hlen, hlinked', h.queued, h.merged⟩
    obtain ⟨s₁, hadd₁, hinv₁, hsym₁, hq₁⟩ := tryAddPrev_ok hinv hll.prev (by omega)
    obtain ⟨s₂, hadd₂, hinv₂, hsym₂, hq₂⟩ := tryAddNext_ok hinv₁ hnext
    refine ⟨s₂, ?_, hinv₂, ?_⟩
    · rw [hrelink]
      simp only [bind, Except.bind, hadd₁, hadd₂]
    · simp only [SpmSession.measure, hsym₂, hsym₁] at *
      omega

-- ================================ loop

/-- The merge loop empties the queue in as many rounds as the measure says. -/
theorem spmLoop_ok (pick : List SpmBigram → Nat) (h : s.Inv tok n) {fuel : Nat}
    (hfuel : s.measure ≤ fuel) : ∃ s', tok.spmLoop pick fuel s = .ok s'
    ∧ s'.Inv tok n := by
  induction fuel generalizing s with
  | zero =>
      have hq : s.queue = [] := by
        rw [← List.length_eq_zero_iff]
        unfold SpmSession.measure at hfuel
        omega
      exact ⟨s, by rw [spmLoop, if_pos hq], h⟩
  | succ fuel ih =>
      rw [spmLoop]
      match hget : s.queue[pick s.queue % s.queue.length]? with
      | none => exact ⟨s, rfl, h⟩
      | some b =>
          obtain ⟨hlt, hb⟩ := List.getElem?_eq_some_iff.1 hget
          have hinv : SpmSession.Inv tok n
              { s with queue := s.queue.eraseIdx (pick s.queue % s.queue.length) } :=
            ⟨h.length, h.linked, fun c hc =>
              h.queued c (List.mem_of_mem_eraseIdx hc), h.merged⟩
          obtain ⟨s₁, hpop, hinv₁, hmeasure⟩ :=
            spmPop_ok hinv (h.queued b (hb ▸ List.getElem_mem hlt))
          have hlen := List.length_eraseIdx_of_lt hlt
          have hle : s₁.measure ≤ fuel := by
            refine Nat.le_trans hmeasure ?_
            unfold SpmSession.measure at hfuel ⊢
            simp only [hlen]
            omega
          obtain ⟨s₂, hloop, hinv₂⟩ := ih hinv₁ hle
          refine ⟨s₂, ?_, hinv₂⟩
          simp only [bind, Except.bind, hpop]
          exact hloop

-- ================================ walk

/-- Re-segmenting a symbol: an entry, or its bytes. -/
theorem ends_resegment (hvocab : Within size tok.vocab)
    (hbytes : Within size tok.spmByteToId)
    (hall : ∀ b, tok.spmByteToId.containsKey b = true)
    {revMerge : Map Text (Text × Text)}
    (hmerged : ∀ p ∈ revMerge, tok.vocab.containsKey p.1 = true) (fuel : Nat)
    (text : Text) :
    Ends size (tok.resegment revMerge (fuel + 1) text) := by
  rw [resegment]
  match hget : tok.vocab.get text with
  | some id => exact ends_singleton (hvocab text id hget)
  | none =>
      simp only
      split
      · exact ends_nil size
      · split
        next left right hrev =>
          -- a key of the table is an entry
          have hkey := hmerged _ (Map.mem_of_get hrev)
          rw [Map.containsKey, hget] at hkey
          cases hkey
        · exact ends_spmByteTokens hbytes hall _

theorem ends_spmWalk (hvocab : Within size tok.vocab)
    (hbytes : Within size tok.spmByteToId)
    (hall : ∀ b, tok.spmByteToId.containsKey b = true) (h : s.Inv tok n) {fuel : Nat}
    {at_ : Option Nat} (hat : ∀ i, at_ = some i → i < n ∧ n ≤ i + fuel) :
    Ends size (tok.spmWalk s fuel at_) := by
  induction fuel generalizing at_ with
  | zero =>
      match at_ with
      | none => exact ends_nil size
      | some i =>
          have := hat i rfl
          omega
  | succ fuel ih =>
      match at_ with
      | none => exact ends_nil size
      | some i =>
          obtain ⟨hi, hfuel⟩ := hat i rfl
          have hget :=
            List.getElem?_eq_getElem
            (show i < s.symbols.length by rwa [h.length])
          rw [spmWalk, hget]
          refine ends_append.2 ⟨ends_resegment hvocab hbytes hall h.merged _ _, ih ?_⟩
          intro j hj
          have := (h.linked i _ hget).next j hj
          omega

/-- `spm_encode` returns on every text that is not empty. -/
theorem ends_spmEncode (hvocab : Within size tok.vocab)
    (hbytes : Within size tok.spmByteToId)
    (hall : ∀ b, tok.spmByteToId.containsKey b = true)
    (pick : List SpmBigram → Nat) {text : Text}
    (htext : text ≠ []) : Ends size (tok.spmEncode pick text) := by
  have hpos := List.length_pos_of_ne_nil htext
  obtain ⟨s₁, hseed, hinv₁, hq₁⟩ :=
    spmSeed_ok (spmSymbols_inv tok text) (Nat.le_refl 1)
      (show 1 + (text.length - 1) ≤ text.length by omega)
  have hmeasure : s₁.measure ≤ 4 * text.length := by
    have hcount := List.countP_le_length (p := SpmSymbol.alive) (l := s₁.symbols)
    rw [hinv₁.length] at hcount
    rw [List.length_nil] at hq₁
    unfold SpmSession.measure
    omega
  obtain ⟨s₂, hloop, hinv₂⟩ := spmLoop_ok pick hinv₁ hmeasure
  unfold spmEncode
  simp only [bind, Except.bind, hseed, hloop]
  apply ends_spmWalk hvocab hbytes hall hinv₂
  intro i hi
  obtain rfl := Option.some.inj hi
  omega

end Tokenizer

end Minfer.Tokenize
