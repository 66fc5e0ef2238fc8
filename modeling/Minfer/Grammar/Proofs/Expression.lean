/-
GBNF expressions put together from texts (`grammar.rs`).

The schema compiler writes its rules as strings. Here is what the parser makes
of such a string, part by part: an item is read whole whatever follows it
(`Reads`), an alternation up to its end (`Reading`), both for every text that
may follow. Beside the node stands the set of texts it derives, and the two
go together in `Expr` and `Alt`: the rules of concatenation, grouping and
alternation are about the strings the compiler writes.
-/
import Mathlib.Computability.Language
import Minfer.Grammar.Language

namespace Minfer.Gbnf

open Minfer.Tokenize (Text isWhitespace)

-- =============================== texts

/-- The texts of a node. -/
def texts (grammar : List (Text × Node)) (node : Node) : Language Char :=
  {text | Derives grammar node (text.map Char.toNat)}

section

variable {grammar : List (Text × Node)}
variable {text : Text}

theorem mem_texts {node : Node} :
    text ∈ texts grammar node ↔ Derives grammar node (text.map Char.toNat) := Iff.rfl

theorem map_toNat_inj {s t : Text} : s.map Char.toNat = t.map Char.toNat ↔ s = t :=
  (List.map_injective_iff.mpr fun _ _ => Char.toNat_inj.mp).eq_iff

theorem texts_str (t : Text) : texts grammar (.str (t.map Char.toNat)) = {t} := by
  ext text
  rw [mem_texts]
  constructor
  · generalize hs : text.map Char.toNat = s
    rintro ⟨⟩
    exact map_toNat_inj.mp hs
  · rintro rfl
    exact .str _

theorem texts_cls (negated : Bool) (ranges : Ranges) :
    texts grammar (.cls negated ranges)
    = {text | ∃ c : Char, text = [c] ∧ inRanges ranges c.toNat ≠ negated} := by
  ext text
  rw [mem_texts]
  constructor
  · generalize hs : text.map Char.toNat = s
    intro h
    cases h with
    | cls h =>
        obtain ⟨c, rfl, rfl⟩ := List.map_eq_singleton_iff.mp hs
        exact ⟨c, rfl, h⟩
  · rintro ⟨c, rfl, h⟩
    exact .cls h

theorem texts_seq_nil : texts grammar (.seq []) = 1 := by
  ext text
  rw [mem_texts, Language.mem_one]
  constructor
  · generalize hs : text.map Char.toNat = s
    rintro ⟨⟩
    exact List.map_eq_nil_iff.mp hs
  · rintro rfl
    exact .seqNil

theorem texts_seq_cons (item : Node) (items : List Node) :
    texts grammar (.seq (item :: items))
    = texts grammar item * texts grammar (.seq items) := by
  ext text
  rw [mem_texts, Language.mem_mul]
  constructor
  · generalize hs : text.map Char.toNat = s
    intro h
    cases h with
    | seqCons head tail =>
        obtain ⟨a, b, rfl, rfl, rfl⟩ := List.map_eq_append_iff.mp hs
        exact ⟨a, head, b, tail, rfl⟩
  · rintro ⟨a, ha, b, hb, rfl⟩
    rw [List.map_append]
    exact .seqCons ha hb

theorem texts_seq_append (items items' : List Node) :
    texts grammar (.seq (items ++ items'))
    = texts grammar (.seq items) * texts grammar (.seq items') := by
  induction items with
  | nil => rw [texts_seq_nil, List.nil_append, one_mul]
  | cons item items ih =>
      rw [List.cons_append, texts_seq_cons, texts_seq_cons, ih, mul_assoc]

theorem mem_texts_alt {branches : List Node} :
    text ∈ texts grammar (.alt branches)
    ↔ ∃ branch ∈ branches, text ∈ texts grammar branch := by
  rw [mem_texts]
  constructor
  · intro h
    cases h with
    | alt mem h => exact ⟨_, mem, h⟩
  · rintro ⟨branch, mem, h⟩
    exact .alt mem h

theorem texts_alt_cons (branch : Node) (branches : List Node) :
    texts grammar (.alt (branch :: branches))
      = texts grammar branch + texts grammar (.alt branches) := by
  ext text
  rw [Language.mem_add, mem_texts_alt, mem_texts_alt, List.exists_mem_cons_iff]

theorem texts_alt_nil : texts grammar (.alt []) = 0 := by
  ext text
  rw [mem_texts_alt]
  simp

/-- One element is the same wrapped or not. -/
theorem texts_unwrap_seq (items : List Node) :
    texts grammar (unwrap .seq items) = texts grammar (.seq items) := by
  match items with
  | [] => rfl
  | [item] => rw [unwrap, texts_seq_cons, texts_seq_nil, mul_one]
  | _ :: _ :: _ => rfl

theorem texts_unwrap_alt (branches : List Node) :
    texts grammar (unwrap .alt branches) = texts grammar (.alt branches) := by
  match branches with
  | [] => rfl
  | [branch] => rw [unwrap, texts_alt_cons, texts_alt_nil, add_zero]
  | _ :: _ :: _ => rfl

theorem mem_texts_rep {inner : Node} {m : Nat} {n : Option Nat} :
    text ∈ texts grammar (.rep inner m n)
      ↔ ∃ k, m ≤ k ∧ (∀ total, n = some total → k ≤ total)
        ∧ text ∈ texts grammar inner ^ k := by
  rw [mem_texts]
  constructor
  · generalize hs : text.map Char.toNat = s
    intro h
    cases h with
    | @rep _ _ _ words each least most =>
        refine ⟨words.length, least, most, Language.mem_pow.mpr ?_⟩
        clear least most
        induction words generalizing text with
        | nil => exact ⟨[], List.map_eq_nil_iff.mp hs, rfl, nofun⟩
        | cons w words ih =>
            obtain ⟨a, b, rfl, rfl, hb⟩ := List.map_eq_append_iff.mp hs
            obtain ⟨S, rfl, hlen, hS⟩ :=
              ih (fun w hw => each w (List.mem_cons_of_mem _ hw)) hb
            refine ⟨a :: S, rfl, by rw [List.length_cons, hlen, List.length_cons], ?_⟩
            exact List.forall_mem_cons.mpr ⟨each _ List.mem_cons_self, hS⟩
  · rintro ⟨k, least, most, h⟩
    obtain ⟨S, rfl, rfl, hS⟩ := Language.mem_pow.mp h
    rw [List.map_flatten]
    refine .rep ?_ (by rwa [List.length_map]) (by rwa [List.length_map])
    intro w hw
    obtain ⟨y, hy, rfl⟩ := List.mem_map.mp hw
    exact hS y hy

theorem texts_rep_exactly (inner : Node) (n : Nat) :
    texts grammar (.rep inner n (some n)) = texts grammar inner ^ n := by
  ext text
  rw [mem_texts_rep]
  constructor
  · rintro ⟨k, least, most, h⟩
    rwa [Nat.le_antisymm least (most n rfl)]
  · exact fun h =>
      ⟨n, Nat.le_refl _, fun total ht => Option.some.inj ht ▸ Nat.le_refl _, h⟩

theorem texts_rep_star (inner : Node) :
    texts grammar (.rep inner 0 none) = KStar.kstar (texts grammar inner) := by
  ext text
  rw [mem_texts_rep, Language.kstar_eq_iSup_pow, Language.mem_iSup]
  exact ⟨fun ⟨k, _, _, h⟩ => ⟨k, h⟩, fun ⟨k, h⟩ => ⟨k, Nat.zero_le _, nofun, h⟩⟩

theorem texts_rep_plus (inner : Node) :
    texts grammar (.rep inner 1 none)
      = texts grammar inner * KStar.kstar (texts grammar inner) := by
  ext text
  rw [mem_texts_rep, Language.kstar_eq_iSup_pow, Language.mul_iSup, Language.mem_iSup]
  constructor
  · rintro ⟨k, least, -, h⟩
    obtain ⟨n, rfl⟩ := Nat.exists_eq_add_of_le' least
    exact ⟨n, by rwa [← pow_succ']⟩
  · rintro ⟨n, h⟩
    exact ⟨n + 1, Nat.le_add_left .., nofun, by rwa [pow_succ']⟩

theorem texts_rep_opt (inner : Node) :
    texts grammar (.rep inner 0 (some 1)) = 1 + texts grammar inner := by
  ext text
  rw [mem_texts_rep, Language.mem_add]
  constructor
  · rintro ⟨k, -, most, h⟩
    rcases Nat.le_one_iff_eq_zero_or_eq_one.mp (most 1 rfl) with rfl | rfl
    · exact .inl h
    · exact .inr (by rwa [pow_one] at h)
  · rintro (h | h)
    · exact ⟨0, Nat.le_refl 0, by rintro _ ⟨⟩; exact Nat.zero_le 1, h⟩
    · exact ⟨1, Nat.zero_le 1, by rintro _ ⟨⟩; exact Nat.le_refl 1, by rwa [pow_one]⟩

theorem texts_ref {name : Text} {body : Node}
    (hbody : bodyOf grammar name = some body) :
    texts grammar (.ref name) = texts grammar body := by
  ext text
  rw [mem_texts, mem_texts]
  constructor
  · intro h
    cases h with
    | ref hbody' h =>
        rw [hbody] at hbody'
        cases hbody'
        exact h
  · exact .ref hbody

end

-- ================================ fuel

/-- With enough fuel this is the result. -/
def Settles {α : Type} (f : Nat → α) (r : α) : Prop :=
  ∃ n, ∀ fuel, n ≤ fuel → f fuel = r

section

variable {α β : Type} {f g : Nat → α} {h : Nat → β} {r : α} {q : β}

theorem Settles.const (r : α) : Settles (fun _ => r) r := ⟨0, fun _ _ => rfl⟩

/-- A call takes one unit. -/
theorem Settles.call (hf : Settles f r) (heq : ∀ fuel, g (fuel + 1) = f fuel) :
    Settles g r := by
  obtain ⟨n, hn⟩ := hf
  refine ⟨n + 1, fun fuel hle => ?_⟩
  obtain ⟨k, rfl⟩ := Nat.exists_eq_add_of_le' hle
  rw [← Nat.add_assoc, heq]
  exact hn _ (Nat.le_add_left ..)

/-- Two calls with the same fuel, one after the other. -/
theorem Settles.bind {p : Nat → Except GrammarError α} {a : α}
    {k : Nat → α → Except GrammarError β} {r : Except GrammarError β}
    (hp : Settles p (.ok a)) (hk : Settles (fun fuel => k fuel a) r) :
    Settles (fun fuel => p fuel >>= k fuel) r := by
  obtain ⟨n, hn⟩ := hp
  obtain ⟨m, hm⟩ := hk
  refine ⟨max n m, fun fuel hle => ?_⟩
  show (p fuel >>= k fuel) = r
  rw [hn fuel (by omega)]
  exact hm fuel (by omega)

end

-- ============================== trivia

/-- A character an item starts with. -/
def isItemStart (c : Char) : Bool :=
  c = '"' || c = '[' || c = '(' || c = '.' || isNameStart c

variable {c : Char} {node : Node} {t rest e : Text} {items nodes : List Node}
  {cps : List Nat} {cp : Nat} {ranges : Ranges}

theorem skipTrivia_of_solid (h : isWhitespace c = false)
    (hc : c ≠ '#') (cs : Text) :
    skipTrivia (c :: cs) = c :: cs := by
  rw [skipTrivia, skipFrom, h, if_neg Bool.false_ne_true, if_neg hc]

theorem skipTrivia_space (h : isWhitespace c = true) (t : Text) :
    skipTrivia (c :: t) = skipTrivia t := by
  rw [skipTrivia, skipFrom, h, if_pos rfl, skipTrivia]

theorem skipTrivia_idem (t : Text) : skipTrivia (skipTrivia t) = skipTrivia t := by
  have hall : ∀ (b : Bool) (t : Text), skipTrivia (skipFrom isWhitespace b t)
      = skipFrom isWhitespace b t := by
    intro b t
    induction t generalizing b with
    | nil => cases b <;> rfl
    | cons c t ih =>
        cases b with
        | true => exact ih _
        | false =>
            rw [skipFrom]
            split
            · exact ih _
            next hspace =>
              split
              · exact ih _
              next hhash =>
                exact skipTrivia_of_solid
                  (Bool.eq_false_iff.mpr hspace) hhash t
  exact hall false t

/-- A rule boundary's own trivia stops at a colon only where all trivia
does. -/
theorem skipFrom_colon {space : Char → Bool}
    (hsub : ∀ c, space c = true → isWhitespace c = true) :
    ∀ (t : Text) (b : Bool) {cs : Text}, skipFrom space b t = ':' :: cs →
      skipFrom isWhitespace b t = ':' :: cs
  | [], true, cs, h => nomatch h
  | [], false, cs, h => nomatch h
  | c :: t, true, cs, h => skipFrom_colon hsub t _ h
  | c :: t, false, cs, h => by
      rw [skipFrom] at h ⊢
      by_cases hspace : space c = true
      · rw [if_pos hspace] at h
        rw [if_pos (hsub c hspace)]
        exact skipFrom_colon hsub t _ h
      · rw [if_neg hspace] at h
        by_cases hhash : c = '#'
        · rw [if_pos hhash] at h
          rw [hhash, if_neg (by decide), if_pos rfl]
          exact skipFrom_colon hsub t _ h
        · rw [if_neg hhash] at h
          obtain ⟨rfl, rfl⟩ := List.cons.inj h
          rw [if_neg (by decide), if_neg (by decide)]

/-- What follows neither goes on with a name nor turns it into a rule. -/
structure Plain (rest : Text) : Prop where
  name : ∀ c cs, rest = c :: cs → isNameChar c = false
  colon : ∀ cs, skipTrivia rest ≠ ':' :: cs

/-- What follows does not repeat the item before it either. -/
structure Clear (rest : Text) : Prop extends Plain rest where
  mark : ∀ c cs, skipTrivia rest = c :: cs → c ∉ ['*', '+', '?', '{']

theorem nameStart_range (h : isNameStart c = true) :
    65 ≤ c.toNat ∧ c.toNat ≤ 90 ∨ 97 ≤ c.toNat ∧ c.toNat ≤ 122 ∨ c.toNat = 95 := by
  simp only [isNameStart] at h
  delta Char.isAlpha Char.isUpper Char.isLower at h
  simp only [Bool.or_eq_true, Bool.and_eq_true,
    decide_eq_true_eq, UInt32.le_iff_toNat_le, ge_iff_le] at h
  rcases h with (h | h) | rfl
  · exact .inl h
  · exact .inr (.inl h)
  · exact .inr (.inr rfl)

theorem not_isWhitespace (h : 33 ≤ c.toNat) (h' : c.toNat ≤ 126) :
    isWhitespace c = false := by
  simp only [isWhitespace, Bool.or_eq_false_iff, Bool.and_eq_false_iff,
    decide_eq_false_iff_not]
  omega

theorem itemStart_solid (h : isItemStart c = true) :
    isWhitespace c = false ∧ c ≠ '#'
    ∧ c ≠ '|' ∧ c ≠ ')' := by
  simp only [isItemStart, Bool.or_eq_true, decide_eq_true_eq] at h
  rcases h with (((rfl | rfl) | rfl) | rfl) | h
  · decide
  · decide
  · decide
  · decide
  · have hrange := nameStart_range h
    refine ⟨not_isWhitespace (by omega) (by omega), ?_, ?_, ?_⟩
    all_goals
      rintro rfl
      revert hrange
      decide

theorem skipTrivia_itemStart (h : isItemStart c = true) (cs : Text) :
    skipTrivia (c :: cs) = c :: cs :=
  skipTrivia_of_solid (itemStart_solid h).1 (itemStart_solid h).2.1 cs

-- =============================== items

/-- The parser reads the text as an atom, whatever follows. -/
structure AtomText (t : Text) (node : Node) : Prop where
  starts : ∃ c cs, t = c :: cs ∧ isItemStart c = true
  boundary : ∀ {rest : Text}, Plain rest → atRuleBoundary (t ++ rest) = false
  run : ∀ {rest : Text}, Plain rest →
    Settles (fun fuel => atom fuel (t ++ rest)) (.ok (node, rest))

/-- The repetitions that may stand after an atom. -/
structure Suffix (t : Text) (node node' : Node) : Prop where
  plain : ∀ {rest : Text}, Clear rest → Plain (t ++ rest)
  run : ∀ {rest : Text} {fuel : Nat}, Clear rest → (t ++ rest).length < fuel →
    repetitions fuel node (t ++ rest) = .ok (node', skipTrivia rest)

/-- The parser reads the text as these items of a sequence, whatever
follows. -/
structure Reads (t : Text) (items : List Node) : Prop where
  starts : ∃ c cs, t = c :: cs ∧ isItemStart c = true
  run : ∀ {rest : Text} {acc : List Node}
    {r : Except GrammarError (List Node × Text)}, Clear rest →
    Settles (fun fuel => moreItems fuel (acc ++ items) rest) r →
    Settles (fun fuel => moreItems fuel acc (t ++ rest)) r

theorem Suffix.none (node : Node) : Suffix [] node node := by
  refine ⟨fun h => h.toPlain, fun {rest fuel} h hfuel => ?_⟩
  obtain ⟨k, rfl⟩ := Nat.exists_eq_add_of_lt hfuel
  rw [List.nil_append, repetitions]
  dsimp only
  have hmark := h.mark
  split
  next cs heq => exact absurd (by simp) (hmark _ _ heq)
  next cs heq => exact absurd (by simp) (hmark _ _ heq)
  next cs heq => exact absurd (by simp) (hmark _ _ heq)
  next cs heq => exact absurd (by simp) (hmark _ _ heq)
  next => rfl

theorem moreItems_skip (fuel : Nat) (acc : List Node) (t : Text) :
    moreItems fuel acc (skipTrivia t) = moreItems fuel acc t := by
  cases fuel with
  | zero => rfl
  | succ fuel =>
      rw [moreItems]
      dsimp only
      rw [skipTrivia_idem]

variable {node' : Node} {t' : Text}

theorem Reads.of_atom {a : Text} (ha : AtomText a node)
    (ht : Suffix t node node') :
    Reads (a ++ t) [node'] := by
  obtain ⟨c, cs, rfl, hc⟩ := ha.starts
  refine ⟨⟨c, cs ++ t, rfl, hc⟩, fun {rest acc r} hrest hmore => ?_⟩
  have hplain := ht.plain hrest
  have hitem : Settles (fun fuel => item fuel (c :: cs ++ (t ++ rest)))
      (.ok (node', skipTrivia rest)) := by
    have hrep : Settles
        (fun _ : Nat => repetitions ((t ++ rest).length + 1) node (t ++ rest))
        (.ok (node', skipTrivia rest)) := by
      rw [ht.run hrest (Nat.lt_succ_self _)]
      exact .const _
    refine ((ha.run hplain).bind (k :=
      fun _ x => repetitions (x.2.length + 1) x.1 x.2) hrep).call
      fun fuel => ?_
    rw [item]
  have hnext :
      Settles (fun fuel => moreItems fuel (acc ++ [node']) (skipTrivia rest))
      r := by
    simp only [moreItems_skip]
    exact hmore
  refine (hitem.bind (k := fun fuel x => moreItems fuel (acc ++ [x.1]) x.2)
    hnext).call fun fuel => ?_
  rw [List.append_assoc, List.cons_append, moreItems]
  dsimp only
  rw [skipTrivia_itemStart hc]
  have hboundary := ha.boundary hplain
  rw [List.cons_append] at hboundary
  simp only [hboundary, Bool.false_eq_true, if_false]
  obtain ⟨-, -, hbar, hparen⟩ := itemStart_solid hc
  split
  next heq => cases heq
  next heq => exact absurd (List.cons.inj heq).1 hbar
  next heq => exact absurd (List.cons.inj heq).1 hparen
  next => rfl

theorem Plain.of_start (h : isWhitespace c = false) (hc : c ∉ ['#', ':'])
    (hname : isNameChar c = false) (cs : Text) : Plain (c :: cs) := by
  simp only [List.mem_cons, List.not_mem_nil, or_false, not_or] at hc
  refine ⟨fun c' cs' heq => (List.cons.inj heq).1 ▸ hname, fun cs' heq => ?_⟩
  rw [skipTrivia_of_solid h hc.1] at heq
  exact hc.2 (List.cons.inj heq).1

theorem Clear.of_start (h : isWhitespace c = false)
    (hc : c ∉ ['#', ':', '*', '+', '?', '{']) (hname : isNameChar c = false)
    (cs : Text) :
    Clear (c :: cs) := by
  simp only [List.mem_cons, List.not_mem_nil, or_false, not_or] at hc
  refine ⟨.of_start h (by simp [hc]) hname cs, fun c' cs' heq => ?_⟩
  rw [skipTrivia_of_solid h hc.1] at heq
  rw [← (List.cons.inj heq).1]
  simp [hc]

/-- A blank in between takes nothing away. -/
theorem Clear.space {cs : Text}
    (hc : isItemStart c = true ∨ c = '|' ∨ c = ')') :
    Clear (' ' :: c :: cs) := by
  have hblank : skipTrivia (' ' :: c :: cs) = c :: cs := by
    rw [skipTrivia_space (by decide)]
    rcases hc with hc | rfl | rfl
    · exact skipTrivia_itemStart hc cs
    · exact skipTrivia_of_solid (by decide) (by decide) cs
    · exact skipTrivia_of_solid (by decide) (by decide) cs
  have hno : c ∉ [':', '*', '+', '?', '{'] := by
    rcases hc with hc | rfl | rfl
    · simp only [isItemStart, Bool.or_eq_true, decide_eq_true_eq] at hc
      rcases hc with (((rfl | rfl) | rfl) | rfl) | hc
      · decide
      · decide
      · decide
      · decide
      · intro hmem
        simp only [List.mem_cons, List.not_mem_nil, or_false] at hmem
        rcases hmem with rfl | rfl | rfl | rfl | rfl <;> exact absurd hc (by decide)
    · decide
    · decide
  simp only [List.mem_cons, List.not_mem_nil, or_false, not_or] at hno
  refine ⟨⟨fun c' cs' heq => (List.cons.inj heq).1 ▸ (by decide),
    fun cs' heq => ?_⟩, fun c' cs' heq => ?_⟩
  · rw [hblank] at heq
    exact hno.1 (List.cons.inj heq).1
  · rw [hblank] at heq
    rw [← (List.cons.inj heq).1]
    simp [hno]

/-- Two texts of items, one right after the other. -/
theorem Reads.append {items' : List Node}
    (h : Reads t items) (h' : Reads t' items')
    (hstart : ∀ rest, Clear (t' ++ rest)) : Reads (t ++ t') (items ++ items') := by
  obtain ⟨c, cs, rfl, hc⟩ := h.starts
  refine ⟨⟨c, cs ++ t', rfl, hc⟩, fun {rest acc r} hrest hmore => ?_⟩
  rw [List.append_assoc]
  apply h.run (hstart rest)
  apply h'.run hrest
  rwa [List.append_assoc]

/-- Two texts of items with a blank between them. -/
theorem Reads.space {items' : List Node}
    (h : Reads t items) (h' : Reads t' items') :
    Reads (t ++ ' ' :: t') (items ++ items') := by
  obtain ⟨c, cs, rfl, hc⟩ := h.starts
  obtain ⟨c', cs', rfl, hc'⟩ := h'.starts
  refine ⟨⟨c, cs ++ ' ' :: c' :: cs', rfl, hc⟩, fun {rest acc r} hrest hmore => ?_⟩
  rw [List.append_assoc]
  apply h.run (.space (.inl hc'))
  have hrun : Settles
      (fun fuel => moreItems fuel (acc ++ items) (c' :: cs' ++ rest)) r :=
    h'.run hrest (by rwa [List.append_assoc])
  refine Eq.mp (congrArg (Settles · r) ?_) hrun
  funext fuel
  rw [← moreItems_skip,
    ← skipTrivia_space (show isWhitespace ' ' = true by decide),
    moreItems_skip]
  rfl

-- ========================= repetitions

/-- What a repetition mark makes of a node. -/
def marked : Char → Node → Node
  | '*', node => .rep node 0 none
  | '+', node => .rep node 1 none
  | _, node => .rep node 0 (some 1)

/-- A repetition mark, and the marks after it. -/
theorem Suffix.mark (hc : c ∈ ['*', '+', '?'])
    (h : Suffix t (marked c node) node') : Suffix (c :: t) node node' := by
  simp only [List.mem_cons, List.not_mem_nil, or_false] at hc
  refine ⟨fun _ => ?_, fun {rest fuel} hrest hfuel => ?_⟩
  · rcases hc with rfl | rfl | rfl
      <;> exact .of_start (by decide) (by decide) (by decide) _
  · rw [List.cons_append, List.length_cons] at hfuel
    obtain ⟨k, rfl⟩ := Nat.exists_eq_add_of_lt hfuel
    rw [List.cons_append, repetitions]
    dsimp only
    rcases hc with rfl | rfl | rfl
    all_goals
      rw [skipTrivia_of_solid (by decide) (by decide)]
      apply h.run hrest
      omega

theorem number_toDigits (what : String) {n : Nat} (hn : n < 2 ^ 64)
    (rest : Text) (hrest : ∀ c cs, rest = c :: cs → c.isDigit = false) :
    number what (Nat.toDigits 10 n ++ rest) = .ok (n, rest) := by
  have hdigits : ∀ c ∈ Nat.toDigits 10 n, c.isDigit = true :=
    fun c hc => Nat.isDigit_of_mem_toDigits (by decide) (by decide) hc
  have htake : (Nat.toDigits 10 n ++ rest).takeWhile Char.isDigit
      = Nat.toDigits 10 n := by
    rw [List.takeWhile_append_of_pos hdigits]
    rcases rest with _ | ⟨c, cs⟩
    · simp
    · rw [List.takeWhile_cons, hrest c cs rfl]
      simp
  have hdrop : (Nat.toDigits 10 n ++ rest).dropWhile Char.isDigit = rest := by
    rw [List.dropWhile_append_of_pos hdigits]
    rcases rest with _ | ⟨c, cs⟩
    · rfl
    · rw [List.dropWhile_cons, hrest c cs rfl]
      rfl
  have hvalue : decimal (Nat.toDigits 10 n) = n := Nat.ofDigitChars_ten_toDigits
  rw [number, htake, hdrop, if_neg Nat.toDigits_ne_nil, hvalue, if_neg (by omega)]

/-- A count in braces. -/
theorem Suffix.exactly {n : Nat}
    (hn : n ≤ maxRepeat) (h : Suffix t (.rep node n (some n)) node') :
    Suffix ('{' :: Nat.toDigits 10 n ++ '}' :: t) node node' := by
  refine ⟨fun _ => .of_start (by decide) (by decide) (by decide) _,
    fun {rest fuel} hrest hfuel => ?_⟩
  have hbrace : ∀ cs : Text, skipTrivia ('}' :: cs) = '}' :: cs :=
    skipTrivia_of_solid (by decide) (by decide)
  have hnumber :=
    number_toDigits "repetition lower bound"
    (Nat.lt_of_le_of_lt hn (by decide))
    ('}' :: (t ++ rest)) (by
      intro c cs heq
      rw [← (List.cons.inj heq).1]
      decide)
  simp only [List.cons_append, List.append_assoc, List.length_cons,
    List.length_append] at hfuel ⊢
  obtain ⟨k, rfl⟩ := Nat.exists_eq_add_of_lt hfuel
  have hupper : upperBound n ('}' :: (t ++ rest))
      = .ok (some n, '}' :: (t ++ rest)) := by
    rw [upperBound, hbrace]
    rfl
  have hcheck : checkBounds n (some n) = .ok () := by
    rw [checkBounds, if_neg (Nat.lt_irrefl n), if_neg (Nat.not_lt.mpr hn)]
  have hexplicit : explicitRepetition node (Nat.toDigits 10 n ++ '}' :: (t ++ rest))
      = .ok (.rep node n (some n), t ++ rest) := by
    simp only [explicitRepetition, hnumber, hupper, hbrace, hcheck, bind, Except.bind]
    rfl
  rw [repetitions]
  dsimp only
  rw [skipTrivia_of_solid (by decide) (by decide)]
  show (explicitRepetition node (Nat.toDigits 10 n ++ '}' :: (t ++ rest)) >>= _) = _
  rw [hexplicit]
  apply h.run hrest
  rw [List.length_append]
  omega

-- =============================== names

/-- What a rule may be called. -/
def IsName (name : Text) : Prop :=
  ∃ c cs, name = c :: cs ∧ isNameStart c = true ∧ ∀ x ∈ cs, isNameChar x = true

/-- The same, checked. -/
def isName : Text → Bool
  | [] => false
  | c :: cs => isNameStart c && cs.all isNameChar

theorem IsName.of_check {name : Text} (h : isName name = true) : IsName name := by
  rcases name with _ | ⟨c, cs⟩
  · cases h
  · obtain ⟨hc, hcs⟩ := Bool.and_eq_true_iff.mp h
    exact ⟨c, cs, rfl, hc, List.all_eq_true.mp hcs⟩

theorem nameChar_of_start (h : isNameStart c = true) :
    isNameChar c = true := by
  simp only [isNameStart, isNameChar, Char.isAlphanum, Bool.or_eq_true,
    decide_eq_true_eq] at h ⊢
  rcases h with h | h
  · exact .inl (.inl (.inl h))
  · exact .inl (.inr h)

/-- The characters of a name end where the name does. -/
theorem dropWhile_name {name : Text} (h : ∀ x ∈ name, isNameChar x = true)
    (hrest : ∀ c cs, rest = c :: cs → isNameChar c = false) :
    (name ++ rest).dropWhile isNameChar = rest := by
  rw [List.dropWhile_append_of_pos h]
  rcases rest with _ | ⟨d, ds⟩
  · rfl
  · rw [List.dropWhile_cons, hrest d ds rfl]
    rfl

theorem ident_name {name : Text} (h : IsName name)
    (hrest : ∀ c cs, rest = c :: cs → isNameChar c = false) :
    ident (name ++ rest) = .ok (name, rest) := by
  obtain ⟨c, cs, rfl, hc, hcs⟩ := h
  have htake : (cs ++ rest).takeWhile isNameChar = cs := by
    rw [List.takeWhile_append_of_pos hcs]
    rcases rest with _ | ⟨d, ds⟩
    · simp
    · rw [List.takeWhile_cons, hrest d ds rfl]
      simp
  rw [List.cons_append, ident, if_pos hc, htake, dropWhile_name hcs hrest]

-- =============================== atoms

/-- Anything but a name is no rule's start. -/
theorem AtomText.of_run
    (hc : c ∈ ['"', '[', '(', '.']) (h : ∀ {rest : Text}, Plain rest →
      Settles (fun fuel => atom fuel (c :: (t ++ rest))) (.ok (node, rest))) :
    AtomText (c :: t) node := by
  simp only [List.mem_cons, List.not_mem_nil, or_false] at hc
  refine ⟨⟨c, t, rfl, ?_⟩, fun _ => ?_, h⟩
  · rcases hc with rfl | rfl | rfl | rfl <;> decide
  · rcases hc with rfl | rfl | rfl | rfl <;> rfl

/-- The inside of a string literal. -/
def Spelled (t : Text) (cps : List Nat) : Prop :=
  ∀ (rest : Text) (acc : List Nat) (fuel : Nat), t.length < fuel →
    stringLoop fuel acc (t ++ '"' :: rest) = .ok (acc ++ cps, rest)

theorem Spelled.nil : Spelled [] [] := by
  intro rest acc fuel hfuel
  obtain ⟨k, rfl⟩ := Nat.exists_eq_add_of_lt hfuel
  rw [List.nil_append, stringLoop, List.append_nil]
  rfl

theorem Spelled.char (hc : c ∉ ['"', '\\']) (h : Spelled t cps) :
    Spelled (c :: t) (c.toNat :: cps) := by
  intro rest acc fuel hfuel
  simp only [List.mem_cons, List.not_mem_nil, or_false, not_or] at hc
  rw [List.length_cons] at hfuel
  obtain ⟨k, rfl⟩ := Nat.exists_eq_add_of_lt hfuel
  rw [List.cons_append, stringLoop]
  dsimp only
  split
  next heq => cases heq
  next heq => exact absurd (List.cons.inj heq).1 hc.1
  next heq => exact absurd (List.cons.inj heq).1 hc.2
  next heq =>
    obtain ⟨rfl, rfl⟩ := List.cons.inj heq
    rw [h _ _ _ (by omega), List.append_assoc]
    rfl

/-- Characters that stand for themselves. -/
theorem Spelled.plain {p : Text}
    (hp : ∀ c ∈ p, c ∉ ['"', '\\']) (h : Spelled t cps) :
    Spelled (p ++ t) (p.map Char.toNat ++ cps) := by
  induction p with
  | nil => exact h
  | cons c p ih =>
      obtain ⟨hc, hp⟩ := List.forall_mem_cons.mp hp
      exact Spelled.char hc (ih hp)

theorem Spelled.word (h : ∀ c ∈ t, c ∉ ['"', '\\']) :
    Spelled t (t.map Char.toNat) := by
  have hword := Spelled.plain h Spelled.nil
  rwa [List.append_nil, List.append_nil] at hword

/-- An escape, of which the parser reads no more than the text. -/
theorem Spelled.escaped
    (he : ∀ rest, escape (e ++ rest) = .ok (cp, rest)) (h : Spelled t cps) :
    Spelled ('\\' :: e ++ t) (cp :: cps) := by
  intro rest acc fuel hfuel
  rw [List.length_append, List.length_cons] at hfuel
  obtain ⟨k, rfl⟩ := Nat.exists_eq_add_of_lt hfuel
  rw [List.cons_append, List.cons_append, List.append_assoc, stringLoop]
  show (escape (e ++ (t ++ '"' :: rest)) >>= _) = _
  rw [he]
  show stringLoop _ (acc ++ [cp]) _ = _
  rw [h _ _ _ (by omega), List.append_assoc]
  rfl

theorem AtomText.literal (h : Spelled t cps) :
    AtomText ('"' :: t ++ ['"']) (.str cps) := by
  refine .of_run (t := t ++ ['"']) (by decide) fun {rest} _ =>
    Settles.call (.const _) fun fuel => ?_
  rw [List.append_assoc, List.singleton_append, atom]
  dsimp only
  rw [skipTrivia_of_solid (by decide) (by decide)]
  show (stringLoop _ _ (t ++ '"' :: rest) >>= _) = _
  rw [h _ _ _ (by rw [List.length_append]; omega)]
  rfl

/-- The name of a rule. -/
theorem AtomText.name {name : Text} (h : IsName name) :
    AtomText name (.ref name) := by
  obtain ⟨c, cs, rfl, hc, hcs⟩ := h
  have hall : ∀ x ∈ c :: cs, isNameChar x = true :=
    List.forall_mem_cons.mpr ⟨nameChar_of_start hc, hcs⟩
  have hstart : isItemStart c = true := by simp [isItemStart, hc]
  refine ⟨⟨c, cs, rfl, hstart⟩, fun {rest} hrest => ?_,
    fun {rest} hrest => Settles.call (.const _) fun fuel => ?_⟩
  · have hcs' : (cs ++ rest).dropWhile isNameChar = rest :=
      dropWhile_name hcs hrest.name
    rw [List.cons_append, atRuleBoundary, hcs', Bool.and_eq_false_iff]
    right
    apply Bool.eq_false_iff.mpr
    intro hdef
    -- the definition sign would follow the name
    obtain ⟨cs', heq⟩ := List.isPrefixOf_iff_prefix.mp hdef
    refine hrest.colon (':' :: '=' :: cs') (skipFrom_colon ?_ rest false heq.symm)
    intro c hspace
    simp only [Bool.and_eq_true] at hspace
    exact hspace.2
  · have hident := ident_name ⟨c, cs, rfl, hc, hcs⟩ hrest.name
    rw [List.cons_append] at hident ⊢
    rw [atom]
    dsimp only
    rw [skipTrivia_itemStart hstart]
    have hno : c ∉ ['(', '"', '[', '.'] := by
      intro hmem
      simp only [List.mem_cons, List.not_mem_nil, or_false] at hmem
      rcases hmem with rfl | rfl | rfl | rfl <;> exact absurd hc (by decide)
    simp only [List.mem_cons, List.not_mem_nil, or_false, not_or] at hno
    split
    next heq => exact absurd (List.cons.inj heq).1 hno.1
    next heq => exact absurd (List.cons.inj heq).1 hno.2.1
    next heq => exact absurd (List.cons.inj heq).1 hno.2.2.1
    next heq => exact absurd (List.cons.inj heq).1 hno.2.2.2
    next heq => cases heq
    next heq =>
      obtain ⟨rfl, rfl⟩ := List.cons.inj heq
      rw [if_pos hc, hident]
      rfl

/-- The inside of a character class. -/
def Listed (t : Text) (ranges : Ranges) : Prop :=
  ∀ (rest : Text) (acc : Ranges) (fuel : Nat), t.length < fuel →
    classLoop fuel acc (t ++ ']' :: rest) = .ok (acc ++ ranges, rest)

theorem Listed.nil : Listed [] [] := by
  intro rest acc fuel hfuel
  obtain ⟨k, rfl⟩ := Nat.exists_eq_add_of_lt hfuel
  rw [List.nil_append, classLoop, List.append_nil]
  rfl

/-- A character of a class, on its own or escaped. -/
inductive Endpoint : Text → Nat → Prop where
  | char {c : Char} (h : c ∉ [']', '\\']) : Endpoint [c] c.toNat
  | escaped {e : Text} {cp : Nat}
      (hset : ∀ rest, classShorthand (e ++ rest) = .ok none)
      (he : ∀ rest, escape (e ++ rest) = .ok (cp, rest)) : Endpoint ('\\' :: e) cp

/-- One turn of the loop over a class. -/
theorem Endpoint.turn (h : Endpoint e cp) (fuel : Nat)
    (acc : Ranges) (rest : Text) :
    classLoop (fuel + 1) acc (e ++ rest)
      = (pushClassItem acc cp rest >>= fun x => classLoop fuel x.1 x.2) := by
  cases h with
  | @char c h =>
      simp only [List.mem_cons, List.not_mem_nil, or_false, not_or] at h
      rw [List.singleton_append, classLoop]
      dsimp only
      split
      next heq => cases heq
      next heq => exact absurd (List.cons.inj heq).1 h.1
      next heq => exact absurd (List.cons.inj heq).1 h.2
      next heq =>
        obtain ⟨rfl, rfl⟩ := List.cons.inj heq
        rfl
  | escaped hset he =>
      rw [List.cons_append, classLoop]
      simp only [hset, he, bind, Except.bind]

/-- A range. -/
theorem Listed.range {e' : Text} {lo hi : Nat}
    (he : Endpoint e lo) (he' : Endpoint e' hi)
    (hle : lo ≤ hi) (h : Listed t ranges) : Listed (e ++ '-' :: e' ++ t)
    ((lo, hi) :: ranges) := by
  intro rest acc fuel hfuel
  have hpush : pushClassItem acc lo ('-' :: (e' ++ (t ++ ']' :: rest)))
      = .ok (acc ++ [(lo, hi)], t ++ ']' :: rest) := by
    cases he' with
    | @char c hc =>
        simp only [List.mem_cons, List.not_mem_nil, or_false, not_or] at hc
        rw [List.singleton_append, pushClassItem, pushRange,
          if_neg (Nat.not_lt.mpr hle)]
        · rfl
        · exact hc.1
        · exact hc.2
    | escaped _ hesc =>
        rw [List.cons_append, pushClassItem, hesc]
        show (pushRange acc lo hi >>= _) = _
        rw [pushRange, if_neg (Nat.not_lt.mpr hle)]
        rfl
  simp only [List.length_append, List.length_cons] at hfuel
  obtain ⟨k, rfl⟩ := Nat.exists_eq_add_of_lt hfuel
  rw [List.append_assoc, List.append_assoc, he.turn, List.cons_append, hpush]
  show classLoop _ (acc ++ [(lo, hi)]) _ = _
  rw [h _ _ _ (by omega), List.append_assoc]
  rfl

/-- One character. -/
theorem Listed.single
    (he : Endpoint e cp) (hnext : t.head? ≠ some '-') (h : Listed t ranges) :
    Listed (e ++ t) ((cp, cp) :: ranges) := by
  intro rest acc fuel hfuel
  have hpush : pushClassItem acc cp (t ++ ']' :: rest)
      = .ok (acc ++ [(cp, cp)], t ++ ']' :: rest) := by
    rcases t with _ | ⟨c, t⟩
    · rfl
    · rw [List.cons_append, pushClassItem]
      rintro cs heq
      exact hnext (congrArg some (List.cons.inj heq).1)
  rw [List.length_append] at hfuel
  obtain ⟨k, rfl⟩ := Nat.exists_eq_add_of_lt hfuel
  rw [List.append_assoc, he.turn, hpush]
  show classLoop _ (acc ++ [(cp, cp)]) _ = _
  rw [h _ _ _ (by cases he <;> simp at hfuel ⊢ <;> omega), List.append_assoc]
  rfl

/-- One character and, last, a dash. -/
theorem Listed.dash (he : Endpoint e cp) :
    Listed (e ++ ['-']) [(cp, cp), (0x2D, 0x2D)] := by
  intro rest acc fuel hfuel
  rw [List.length_append, List.length_singleton] at hfuel
  obtain ⟨k, rfl⟩ := Nat.exists_eq_add_of_lt hfuel
  rw [List.append_assoc, he.turn]
  show classLoop _ (acc ++ [(cp, cp), (0x2D, 0x2D)]) (']' :: rest) = _
  have hend := Listed.nil rest (acc ++ [(cp, cp), (0x2D, 0x2D)]) (e.length + 1 + k)
    (by rw [List.length_nil]; omega)
  rwa [List.append_nil, List.nil_append] at hend

theorem AtomText.cls (hc : c ≠ '^') (h : Listed (c :: t) ranges)
    (hne : ranges ≠ []) : AtomText ('[' :: c :: t ++ [']'])
    (.cls false (sortRanges ranges)) := by
  refine .of_run (t := c :: t ++ [']']) (by decide) fun {rest} _ =>
    Settles.call (.const _) fun fuel => ?_
  rw [List.append_assoc, List.singleton_append, atom]
  dsimp only
  rw [skipTrivia_of_solid (by decide) (by decide)]
  show charClass (c :: (t ++ ']' :: rest)) = _
  have hhead : (c :: (t ++ ']' :: rest)).head? = some '^' ↔ False := by simp [hc]
  have hloop := h rest [] ((c :: (t ++ ']' :: rest)).length + 1)
    (by simp only [List.length_cons, List.length_append]; omega)
  rw [List.cons_append] at hloop
  simp only [charClass, hhead, decide_false, if_false, hloop, List.nil_append,
    bind, Except.bind, hne]
  rfl

/-- A negated class. -/
theorem AtomText.notCls (h : Listed t ranges) (hne : ranges ≠ []) :
    AtomText ('[' :: '^' :: t ++ [']']) (.cls true (sortRanges ranges)) := by
  refine .of_run (t := '^' :: t ++ [']']) (by decide) fun {rest} _ =>
    Settles.call (.const _) fun fuel => ?_
  rw [List.append_assoc, List.singleton_append, atom]
  dsimp only
  rw [skipTrivia_of_solid (by decide) (by decide)]
  show charClass ('^' :: (t ++ ']' :: rest)) = _
  have hloop :=
    h rest [] ((t ++ ']' :: rest).length + 1)
    (by simp only [List.length_append]; omega)
  simp only [charClass, List.head?_cons, decide_true, if_true,
    List.drop_succ_cons, List.drop_zero, hloop,
    List.nil_append, bind, Except.bind, hne, if_false]
  rfl

-- ======================== alternations

/-- A branch ends where this starts. -/
structure Ends (rest : Text) : Prop extends Clear rest where
  stop : skipTrivia rest = [] ∨ (∃ cs, skipTrivia rest = '|' :: cs)
    ∨ (∃ cs, skipTrivia rest = ')' :: cs)
    ∨ atRuleBoundary (skipTrivia rest) = true

/-- An alternation ends where this starts. -/
structure Closes (rest : Text) : Prop extends Ends rest where
  last : ∀ cs, skipTrivia rest ≠ '|' :: cs

/-- The parser reads the text as the branch of these items. -/
def BranchText (t : Text) (items : List Node) : Prop := ∀ {rest : Text}, Ends rest →
  Settles (fun fuel => sequence fuel (t ++ rest))
    (.ok (unwrap .seq items, skipTrivia rest))

/-- The parser reads the text as these branches of an alternation. -/
def Branches (t : Text) (nodes : List Node) : Prop :=
  ∀ {rest : Text} {acc : List Node}
    {r : Except GrammarError (List Node × Text)}, Ends rest →
    Settles (fun fuel => moreBranches fuel (acc ++ nodes) (skipTrivia rest)) r →
    Settles (fun fuel => sequence fuel (t ++ rest) >>= fun x =>
      moreBranches fuel (acc ++ [x.1]) x.2) r

theorem moreItems_ends (h : Ends rest) (acc : List Node) :
    Settles (fun fuel => moreItems fuel acc rest) (.ok (acc, skipTrivia rest)) := by
  refine Settles.call (.const _) fun fuel => ?_
  rw [moreItems]
  dsimp only
  by_cases hb : atRuleBoundary (skipTrivia rest) = true
  · rw [if_pos hb]
  · rw [if_neg hb]
    rcases h.stop with heq | ⟨cs, heq⟩ | ⟨cs, heq⟩ | heq
    · rw [heq]
    · rw [heq]
      rfl
    · rw [heq]
      rfl
    · exact absurd heq hb

theorem Reads.branch (h : Reads t items) :
    BranchText t items := by
  intro rest hrest
  have hitems := h.run hrest.toClear (moreItems_ends hrest ([] ++ items))
  refine (hitems.bind (k := fun _ x => .ok (unwrap .seq x.1, x.2))
    (.const _)).call fun fuel => ?_
  rw [sequence]
  rfl

theorem BranchText.branches (h : BranchText t items) :
    Branches t [unwrap .seq items] := by
  intro rest acc r hrest hmore
  exact (h hrest).bind (k := fun fuel x => moreBranches fuel (acc ++ [x.1]) x.2) hmore

theorem Ends.bar : Ends (' ' :: '|' :: c :: t) := by
  refine ⟨.space (.inr (.inl rfl)), .inr (.inl ⟨c :: t, ?_⟩)⟩
  rw [skipTrivia_space (by decide), skipTrivia_of_solid (by decide) (by decide)]

/-- A blank before a branch is no part of it. -/
theorem sequence_space (fuel : Nat) (t : Text) : sequence fuel
    (' ' :: t) = sequence fuel t := by
  cases fuel with
  | zero => rfl
  | succ fuel =>
      rw [sequence]
      dsimp only
      rw [← moreItems_skip, skipTrivia_space (by decide), moreItems_skip]

theorem alternation_space (fuel : Nat) (t : Text) : alternation fuel
    (' ' :: t) = alternation fuel t := by
  cases fuel with
  | zero => rfl
  | succ fuel =>
      rw [alternation]
      dsimp only
      rw [sequence_space]

theorem Branches.append {nodes' : List Node} (h : Branches t nodes)
    (h' : Branches t' nodes') : Branches (t ++ " | ".toList ++ t')
    (nodes ++ nodes') := by
  intro rest acc r hrest hmore
  rw [List.append_assoc, List.append_assoc]
  have hbar : skipTrivia (" | ".toList ++ (t' ++ rest))
      = '|' :: ' ' :: (t' ++ rest) := by
    show skipTrivia (' ' :: '|' :: ' ' :: (t' ++ rest)) = _
    rw [skipTrivia_space (by decide), skipTrivia_of_solid (by decide) (by decide)]
  refine @h (" | ".toList ++ (t' ++ rest)) _ _ .bar ?_
  rw [hbar]
  rw [← List.append_assoc] at hmore
  refine (h' hrest hmore).call fun fuel => ?_
  rw [moreBranches]
  dsimp only
  rw [skipTrivia_of_solid (by decide) (by decide)]
  show (sequence fuel (' ' :: (t' ++ rest)) >>= _) = _
  rw [sequence_space]

theorem Branches.read (h : Branches t nodes) (hrest : Closes rest) :
    Settles (fun fuel => alternation fuel (t ++ rest))
      (.ok (unwrap .alt nodes, skipTrivia rest)) := by
  have hlast : Settles (fun fuel => moreBranches fuel ([] ++ nodes) (skipTrivia rest))
      (.ok (nodes, skipTrivia rest)) := by
    refine Settles.call (.const _) fun fuel => ?_
    rw [moreBranches]
    dsimp only
    rw [skipTrivia_idem]
    split
    next heq => exact absurd heq (hrest.last _)
    next => rfl
  have hall := h hrest.toEnds hlast
  refine (hall.bind (k := fun _ x => .ok (unwrap .alt x.1, x.2))
    (.const _)).call fun fuel => ?_
  rw [alternation]
  dsimp only
  cases sequence fuel (t ++ rest) with
  | error e => rfl
  | ok x => rfl

/-- The parenthesis behind a group. -/
def closing (x : Node × Text) : Except GrammarError (Node × Text) :=
  match skipTrivia x.2 with
  | ')' :: rest => .ok (x.1, rest)
  | rest => .error (.missingParen rest)

/-- A group. -/
theorem AtomText.group (h : Branches t nodes) :
    AtomText ('(' :: t ++ [')']) (unwrap .alt nodes) := by
  refine .of_run (t := t ++ [')']) (by decide) fun {rest} _ => ?_
  have hparen : skipTrivia (')' :: rest) = ')' :: rest :=
    skipTrivia_of_solid (by decide) (by decide) rest
  have hcloses : Closes (')' :: rest) := by
    refine ⟨⟨.of_start (by decide) (by decide) (by decide) _,
      .inr (.inr (.inl ⟨rest, hparen⟩))⟩, fun cs heq => ?_⟩
    rw [hparen] at heq
    cases heq
  have hin := h.read hcloses
  rw [hparen] at hin
  refine (hin.bind (k := fun _ => closing) ?_).call fun fuel => ?_
  · rw [closing, hparen]
    exact .const _
  · rw [List.append_assoc, List.singleton_append, atom]
    dsimp only
    rw [skipTrivia_of_solid (by decide) (by decide)]
    rfl

-- ========================= expressions

/-- A set of texts, given what the rules of a grammar are. -/
abbrev Meaning := List (Text × Node) → Language Char

/-- A meaning without rules. -/
def always (L : Language Char) : Meaning := fun _ => L

/-- A text of one atom, all of whose rules have the names, and its texts. -/
def Atom (names : List Text) (t : Text) (L : Meaning) : Prop :=
  ∃ node, AtomText t node ∧ unresolved names node = none ∧ ∀ g, texts g node = L g

/-- A text of items, all of whose rules have the names, and its texts. -/
def Expr (names : List Text) (t : Text) (L : Meaning) : Prop :=
  ∃ items, Reads t items ∧ unresolvedIn names items = none
    ∧ ∀ g, texts g (.seq items) = L g

/-- A text of branches. -/
def Alt (names : List Text) (t : Text) (L : Meaning) : Prop :=
  ∃ nodes, Branches t nodes ∧ unresolvedIn names nodes = none
    ∧ ∀ g, texts g (.alt nodes) = L g

theorem unresolvedIn_append (names : List Text) (items items' : List Node) :
    unresolvedIn names (items ++ items')
      = (unresolvedIn names items).or (unresolvedIn names items') := by
  induction items with
  | nil => rfl
  | cons item items ih =>
      rw [List.cons_append, unresolvedIn, unresolvedIn, ih, Option.or_assoc]

theorem unresolved_unwrap_seq (names : List Text) (items : List Node) :
    unresolved names (unwrap .seq items) = unresolvedIn names items := by
  match items with
  | [] => rfl
  | [item] => rw [unwrap, unresolvedIn, unresolvedIn, Option.or_none]
  | _ :: _ :: _ => rfl

theorem unresolved_unwrap_alt (names : List Text) (nodes : List Node) :
    unresolved names (unwrap .alt nodes) = unresolvedIn names nodes := by
  match nodes with
  | [] => rfl
  | [node] => rw [unwrap, unresolvedIn, unresolvedIn, Option.or_none]
  | _ :: _ :: _ => rfl

section

variable {names : List Text} {t t' : Text} {L L' : Meaning}

theorem Expr.of_atom {a : Text} {node node' : Node} (ha : AtomText a node)
    (ht : Suffix t node node')
    (hnames : unresolved names node' = none) (hL : ∀ g, texts g node' = L g) :
    Expr names (a ++ t) L := by
  refine ⟨[node'], .of_atom ha ht, ?_, fun g => ?_⟩
  · rw [unresolvedIn, hnames]
    rfl
  · rw [texts_seq_cons, texts_seq_nil, mul_one, hL]

theorem Atom.expr (h : Atom names t L) : Expr names t L := by
  obtain ⟨node, hatom, hnames, hL⟩ := h
  rw [← List.append_nil t]
  exact .of_atom hatom (.none node) hnames hL

theorem Atom.star (h : Atom names t L) : Expr names
    (t ++ ['*']) fun g => KStar.kstar (L g) := by
  obtain ⟨node, hatom, hnames, hL⟩ := h
  have hmark : Suffix ['*'] node (.rep node 0 none) := .mark (by decide) (.none _)
  refine .of_atom hatom hmark hnames fun g => ?_
  rw [texts_rep_star, hL]

theorem Atom.plus (h : Atom names t L) : Expr names
    (t ++ ['+']) fun g => L g * KStar.kstar (L g) := by
  obtain ⟨node, hatom, hnames, hL⟩ := h
  have hmark : Suffix ['+'] node (.rep node 1 none) := .mark (by decide) (.none _)
  refine .of_atom hatom hmark hnames fun g => ?_
  rw [texts_rep_plus, hL]

theorem Atom.opt (h : Atom names t L) : Expr names (t ++ ['?']) fun g => 1 + L g := by
  obtain ⟨node, hatom, hnames, hL⟩ := h
  have hmark : Suffix ['?'] node (.rep node 0 (some 1)) := .mark (by decide) (.none _)
  refine .of_atom hatom hmark hnames fun g => ?_
  rw [texts_rep_opt, hL]

/-- A reference. -/
theorem Atom.name {name : Text} (h : IsName name) (hmem : name ∈ names) :
    Atom names name fun g => texts g (.ref name) :=
  ⟨.ref name, .name h, if_pos hmem, fun _ => rfl⟩

theorem inRanges_sort (ranges : Ranges) (n : Nat) : inRanges
    (sortRanges ranges) n = inRanges ranges n :=
  (List.perm_insertionSort _ ranges).any_eq

/-- A character class. -/
theorem Atom.cls {c : Char} {ranges : Ranges} (hc : c ≠ '^')
    (h : Listed (c :: t) ranges) (hne : ranges ≠ []) :
    Atom names ('[' :: c :: t ++ [']']) fun _ =>
      {s | ∃ c : Char, s = [c] ∧ inRanges ranges c.toNat = true} := by
  refine ⟨_, .cls hc h hne, rfl, fun g => ?_⟩
  simp only [texts_cls, inRanges_sort, ne_eq, Bool.not_eq_false]
  rfl

theorem Atom.notCls {ranges : Ranges} (h : Listed t ranges) (hne : ranges ≠ []) :
    Atom names ('[' :: '^' :: t ++ [']']) fun _ =>
      {s | ∃ c : Char, s = [c] ∧ inRanges ranges c.toNat = false} := by
  refine ⟨_, .notCls h hne, rfl, fun g => ?_⟩
  simp only [texts_cls, inRanges_sort, ne_eq, Bool.not_eq_true]
  rfl

theorem Expr.append (h : Expr names t L) (h' : Expr names t' L')
    (hstart : ∀ rest, Clear (t' ++ rest)) :
    Expr names (t ++ t') (L * L') := by
  obtain ⟨items, hreads, hnames, hL⟩ := h
  obtain ⟨items', hreads', hnames', hL'⟩ := h'
  refine ⟨items ++ items', hreads.append hreads' hstart, ?_, fun g => ?_⟩
  · rw [unresolvedIn_append, hnames, hnames']
    rfl
  · rw [texts_seq_append, hL, hL']
    rfl

theorem Expr.space (h : Expr names t L) (h' : Expr names t' L') :
    Expr names (t ++ ' ' :: t') (L * L') := by
  obtain ⟨items, hreads, hnames, hL⟩ := h
  obtain ⟨items', hreads', hnames', hL'⟩ := h'
  refine ⟨items ++ items', hreads.space hreads', ?_, fun g => ?_⟩
  · rw [unresolvedIn_append, hnames, hnames']
    rfl
  · rw [texts_seq_append, hL, hL']
    rfl

theorem Expr.alt (h : Expr names t L) : Alt names t L := by
  obtain ⟨items, hreads, hnames, hL⟩ := h
  refine ⟨_, BranchText.branches hreads.branch, ?_, fun g => ?_⟩
  · rw [unresolvedIn, unresolvedIn, Option.or_none, unresolved_unwrap_seq, hnames]
  · rw [texts_alt_cons, texts_alt_nil, add_zero, texts_unwrap_seq, hL]

theorem Alt.append (h : Alt names t L) (h' : Alt names t' L') :
    Alt names (t ++ " | ".toList ++ t') (L + L') := by
  obtain ⟨nodes, hreads, hnames, hL⟩ := h
  obtain ⟨nodes', hreads', hnames', hL'⟩ := h'
  refine ⟨nodes ++ nodes', hreads.append hreads', ?_, fun g => ?_⟩
  · rw [unresolvedIn_append, hnames, hnames']
    rfl
  · have hplus : ∀ branches, texts g (.alt (branches ++ nodes'))
        = texts g (.alt branches) + texts g (.alt nodes') := by
      intro branches
      induction branches with
      | nil => rw [texts_alt_nil, zero_add, List.nil_append]
      | cons branch branches ih =>
          rw [List.cons_append, texts_alt_cons, texts_alt_cons, ih, add_assoc]
    rw [hplus, hL, hL']
    rfl

theorem Atom.group (h : Alt names t L) : Atom names ('(' :: t ++ [')']) L := by
  obtain ⟨nodes, hreads, hnames, hL⟩ := h
  refine ⟨_, .group hreads, ?_, fun g => ?_⟩
  · rw [unresolved_unwrap_alt, hnames]
  · rw [texts_unwrap_alt, hL]

theorem Atom.literal {text : Text} (h : Spelled t (text.map Char.toNat)) :
    Atom names ('"' :: t ++ ['"']) fun _ => {text} :=
  ⟨_, .literal h, rfl, fun _ => texts_str text⟩

theorem Expr.group (h : Alt names t L) : Expr names ('(' :: t ++ [')']) L :=
  (Atom.group h).expr

theorem Expr.literal {text : Text} (h : Spelled t (text.map Char.toNat)) :
    Expr names ('"' :: t ++ ['"']) fun _ => {text} := (Atom.literal h).expr

end

-- ============================ grammars

theorem rulesLoop_skip (fuel : Nat) (rules : List (Text × Node)) (t : Text) :
    rulesLoop fuel rules (skipTrivia t) = rulesLoop fuel rules t := by
  cases fuel with
  | zero => rfl
  | succ fuel => rw [rulesLoop, rulesLoop, skipTrivia_idem]

/-- A rule and what follows it. -/
theorem rulesLoop_rule {name : Text}
    {rules : List (Text × Node)} {r : Except GrammarError (List (Text × Node))}
    (hname : IsName name) (h : Branches t nodes) (hrest : Closes rest)
    (hnew : ∀ rule ∈ rules, rule.1 ≠ name) (hmore : Settles
      (fun fuel => rulesLoop fuel (rules ++ [(name, unwrap .alt nodes)]) rest)
      r) :
    Settles (fun fuel =>
      rulesLoop fuel rules (name ++ " ::= ".toList ++ t ++ rest)) r := by
  have hident : ident (name ++ (" ::= ".toList ++ (t ++ rest)))
      = .ok (name, " ::= ".toList ++ (t ++ rest)) := by
    apply ident_name hname
    intro c cs heq
    rw [← (List.cons.inj heq).1]
    decide
  have hspace : skipTrivia (" ::= ".toList ++ (t ++ rest))
      = ':' :: ':' :: '=' :: ' ' :: (t ++ rest) := by
    show skipTrivia (' ' :: ':' :: ':' :: '=' :: ' ' :: (t ++ rest)) = _
    rw [skipTrivia_space (by decide), skipTrivia_of_solid (by decide) (by decide)]
  have hexpect : expectStr "::=" (':' :: ':' :: '=' :: ' ' :: (t ++ rest))
    = .ok (' ' :: (t ++ rest)) := rfl
  have hbody : Settles (fun fuel => alternation fuel (' ' :: (t ++ rest)))
      (.ok (unwrap .alt nodes, skipTrivia rest)) := by
    simp only [alternation_space]
    exact h.read hrest
  have hfresh : (rules.any fun r => r.1 = name) = false := by
    simp only [List.any_eq_false, decide_eq_true_eq]
    exact hnew
  have hnext :
      Settles (fun fuel =>
        rulesLoop fuel (rules ++ [(name, unwrap .alt nodes)])
        (skipTrivia rest)) r := by
    simp only [rulesLoop_skip]
    exact hmore
  refine (hbody.bind (k :=
    fun fuel x => rulesLoop fuel (rules ++ [(name, x.1)]) x.2)
    hnext).call fun fuel => ?_
  obtain ⟨c, cs, rfl, hc, -⟩ := hname
  have hstart : isItemStart c = true := by simp [isItemStart, hc]
  rw [List.append_assoc, List.append_assoc, List.cons_append, rulesLoop,
    skipTrivia_itemStart hstart]
  rw [List.cons_append] at hident
  simp only [hident, hspace, hexpect, hfresh, bind, Except.bind,
    Bool.false_eq_true, if_false]

/-- The end of the text. -/
theorem rulesLoop_end {rules : List (Text × Node)} (h : skipTrivia rest = []) :
    Settles (fun fuel => rulesLoop fuel rules rest) (.ok rules) := by
  refine Settles.call (.const _) fun fuel => ?_
  rw [rulesLoop, h]

theorem Closes.nil : Closes [] :=
  ⟨⟨⟨⟨nofun, nofun⟩, nofun⟩, .inl rfl⟩, nofun⟩

/-- The end of a line before a rule. -/
theorem Closes.rule {name : Text} (h : IsName name) (t : Text) :
    Closes ('\n' :: (name ++ " ::= ".toList ++ t)) := by
  obtain ⟨c, cs, rfl, hc, hcs⟩ := h
  have hstart : isItemStart c = true := by simp [isItemStart, hc]
  have hskip : skipTrivia ('\n' :: (c :: cs ++ " ::= ".toList ++ t))
      = c :: cs ++ " ::= ".toList ++ t := by
    rw [skipTrivia_space (by decide)]
    exact skipTrivia_itemStart hstart _
  have hboundary : atRuleBoundary (c :: cs ++ " ::= ".toList ++ t) = true := by
    have hdrop : (cs ++ (" ::= ".toList ++ t)).dropWhile isNameChar
        = " ::= ".toList ++ t := by
      apply dropWhile_name hcs
      intro c cs heq
      rw [← (List.cons.inj heq).1]
      decide
    rw [List.append_assoc, List.cons_append, atRuleBoundary, hc, hdrop]
    rfl
  have hno : ∀ c' cs', skipTrivia ('\n' :: (c :: cs ++ " ::= ".toList ++ t))
      = c' :: cs' → isNameStart c' = true := by
    intro c' cs' heq
    rw [hskip] at heq
    rw [← (List.cons.inj heq).1]
    exact hc
  refine ⟨⟨⟨⟨fun c' cs' heq => ?_, fun cs' heq => ?_⟩,
    fun c' cs' heq hmem => ?_⟩, ?_⟩, fun cs' heq => ?_⟩
  · rw [← (List.cons.inj heq).1]
    decide
  · exact absurd (hno _ _ heq) (by decide)
  · have hstart := hno _ _ heq
    simp only [List.mem_cons, List.not_mem_nil, or_false] at hmem
    rcases hmem with rfl | rfl | rfl | rfl <;> exact absurd hstart (by decide)
  · rw [hskip]
    exact .inr (.inr (.inr hboundary))
  · exact absurd (hno _ _ heq) (by decide)

theorem Closes.line : Closes ['\n'] := by
  have hskip : skipTrivia ['\n'] = [] := rfl
  refine ⟨⟨⟨⟨fun c cs heq => ?_, fun cs heq => ?_⟩, fun c cs heq => ?_⟩,
    .inl hskip⟩, fun cs heq => ?_⟩
  · rw [← (List.cons.inj heq).1]
    decide
  · rw [hskip] at heq
    cases heq
  · rw [hskip] at heq
    cases heq
  · rw [hskip] at heq
    cases heq

/-- A grammar of one rule. -/
theorem Alt.parse {L : Meaning} {name : Text} (hname : IsName name)
    (h : Alt [name] t L) :
    ∃ node, Settles (fun fuel => parse fuel (name ++ " ::= ".toList ++ t))
      (.ok [(name, node)])
      ∧ texts [(name, node)] (.ref name) = L [(name, node)] := by
  obtain ⟨nodes, hreads, hnames, hL⟩ := h
  refine ⟨unwrap .alt nodes, ?_, ?_⟩
  · have hloop :
        Settles (fun fuel =>
          rulesLoop fuel [] (name ++ " ::= ".toList ++ t ++ []))
        (.ok [(name, unwrap .alt nodes)]) :=
          rulesLoop_rule hname hreads .nil nofun (rulesLoop_end rfl)
    rw [List.append_nil] at hloop
    refine ⟨hloop.choose, fun fuel hfuel => ?_⟩
    have hcheck : checkRefs [name] [(name, unwrap .alt nodes)] = .ok () := by
      rw [checkRefs, unresolved_unwrap_alt, hnames]
      rfl
    simp only [Gbnf.parse, hloop.choose_spec fuel hfuel, bind, Except.bind,
      List.map_cons, List.map_nil, hcheck, reduceCtorEq, if_false]
    rfl
  · rw [texts_ref
      (show bodyOf _ name = some (unwrap .alt nodes) by simp [bodyOf]),
      texts_unwrap_alt, hL]

/-- The text of a grammar: a rule on each line. -/
def written (rules : List (Text × Text)) : Text :=
  rules.flatMap fun rule => rule.1 ++ " ::= ".toList ++ rule.2 ++ ['\n']

/-- A rule's node: its references are to the names, and its texts are the
meaning. -/
structure Means (names : List Text) (L : Meaning) (node : Node) : Prop where
  resolved : unresolved names node = none
  texts : ∀ g, texts g node = L g

section

variable {names : List Text} {rules : List (Text × Text × Meaning)}

/-- Rules and what the parser makes of them. -/
def Parsed (names : List Text) (rules : List (Text × Text × Meaning))
    (parsed : List (Text × Node)) : Prop :=
  List.Forall₂ (fun rule p => p.1 = rule.1 ∧ Means names rule.2.2 p.2) rules parsed

variable {parsed : List (Text × Node)}

theorem parsed_names (h : Parsed names rules parsed) :
    parsed.map (·.1) = rules.map (·.1) := by
  induction h with
  | nil => rfl
  | cons h _ ih => rw [List.map_cons, List.map_cons, ih, h.1]

theorem Alt.means {t : Text} {L : Meaning} (h : Alt names t L) :
    ∃ nodes, Branches t nodes ∧ Means names L (unwrap .alt nodes) := by
  obtain ⟨nodes, hreads, hnames, hL⟩ := h
  refine ⟨nodes, hreads, ?_, fun g => ?_⟩
  · rw [unresolved_unwrap_alt, hnames]
  · rw [texts_unwrap_alt, hL]

/-- The lines of a grammar, after the rules read already. -/
theorem rulesLoop_written
    (h : ∀ rule ∈ rules, IsName rule.1 ∧ Alt names rule.2.1 rule.2.2)
    (hnodup : (rules.map (·.1)).Nodup) (acc : List (Text × Node))
    (hnew : ∀ rule ∈ rules, ∀ r ∈ acc, r.1 ≠ rule.1) :
    ∃ parsed, Parsed names rules parsed
      ∧ Settles (fun fuel =>
        rulesLoop fuel acc
        (written (rules.map fun rule => (rule.1, rule.2.1))))
        (.ok (acc ++ parsed)) := by
  induction rules generalizing acc with
  | nil =>
      refine ⟨[], .nil, ?_⟩
      rw [List.append_nil]
      exact rulesLoop_end rfl
  | cons rule rules ih =>
      obtain ⟨⟨hname, halt⟩, hrest⟩ := List.forall_mem_cons.mp h
      obtain ⟨hfresh, hnodup⟩ := List.nodup_cons.mp hnodup
      obtain ⟨hnewRule, hnewRest⟩ := List.forall_mem_cons.mp hnew
      obtain ⟨nodes, hreads, hmeans⟩ := halt.means
      obtain ⟨parsed, hparsed, hloop⟩ :=
          ih hrest hnodup (acc ++ [(rule.1, unwrap .alt nodes)]) (by
        intro r hr p hp
        rcases List.mem_append.mp hp with hp | hp
        · exact hnewRest r hr p hp
        · rw [List.mem_singleton.mp hp]
          exact fun heq => hfresh (List.mem_map.mpr ⟨r, hr, heq.symm⟩))
      refine ⟨(rule.1, unwrap .alt nodes) :: parsed, .cons ⟨rfl, hmeans⟩ hparsed, ?_⟩
      have hclose :
          Closes ('\n'
            :: written (rules.map fun rule => (rule.1, rule.2.1))) := by
        rcases rules with _ | ⟨next, rules⟩
        · exact .line
        · obtain ⟨⟨hnext, -⟩, -⟩ := List.forall_mem_cons.mp hrest
          have htext :
              written ((next :: rules).map fun rule => (rule.1, rule.2.1))
              = next.1 ++ " ::= ".toList
              ++ (next.2.1 ++ ['\n']
                ++ written (rules.map fun rule => (rule.1, rule.2.1))) := by
            simp [written]
          rw [htext]
          exact .rule hnext _
      have htext : written ((rule :: rules).map fun rule => (rule.1, rule.2.1))
          = rule.1 ++ " ::= ".toList
          ++ rule.2.1 ++ '\n'
            :: written (rules.map fun rule => (rule.1, rule.2.1)) := by
        simp [written]
      rw [htext]
      apply rulesLoop_rule hname hreads hclose hnewRule
      have hskip : ∀ fuel, rulesLoop fuel (acc ++ [(rule.1, unwrap .alt nodes)])
          ('\n' :: written (rules.map fun rule => (rule.1, rule.2.1)))
          = rulesLoop fuel (acc ++ [(rule.1, unwrap .alt nodes)])
            (written (rules.map fun rule => (rule.1, rule.2.1))) := by
        intro fuel
        rw [← rulesLoop_skip, skipTrivia_space (by decide), rulesLoop_skip]
      simp only [hskip]
      rwa [List.append_assoc] at hloop

theorem bodyOf_parsed
    (h : Parsed names rules parsed) (hnodup : (rules.map (·.1)).Nodup)
    {rule : Text × Text × Meaning} (hrule : rule ∈ rules) :
    ∃ node, bodyOf parsed rule.1 = some node ∧ Means names rule.2.2 node := by
  induction h with
  | nil => cases hrule
  | @cons r p rules parsed h htail ih =>
      obtain ⟨hfresh, hnodup⟩ := List.nodup_cons.mp hnodup
      rcases List.mem_cons.mp hrule with rfl | hrule
      · exact ⟨p.2, by simp [bodyOf, h.1], h.2⟩
      · obtain ⟨node, hbody, hmeans⟩ := ih hnodup hrule
        have hne : p.1 ≠ rule.1 := by
          rw [h.1]
          exact fun heq => hfresh (List.mem_map.mpr ⟨rule, hrule, heq.symm⟩)
        refine ⟨node, ?_, hmeans⟩
        rw [← hbody]
        simp [bodyOf, hne]

theorem checkRefs_parsed (h : Parsed names rules parsed) :
    checkRefs names parsed = .ok () := by
  induction h with
  | nil => rfl
  | cons h _ ih => rw [checkRefs, h.2.resolved, ih]

/-- A grammar of expressions, each over its rules: the parser reads it, and a
rule's texts are its expression's. -/
theorem parse_written (h : ∀ rule ∈ rules, IsName rule.1
      ∧ Alt (rules.map (·.1)) rule.2.1 rule.2.2)
    (hnodup : (rules.map (·.1)).Nodup) (hne : rules ≠ []) :
    ∃ parsed, Settles
      (fun fuel =>
        parse fuel (written (rules.map fun rule => (rule.1, rule.2.1))))
      (.ok parsed)
      ∧ ∀ rule ∈ rules, texts parsed (.ref rule.1) = rule.2.2 parsed := by
  obtain ⟨parsed, hparsed, n, hn⟩ := rulesLoop_written h hnodup [] (fun _ _ => nofun)
  refine ⟨parsed, ⟨n, fun fuel hfuel => ?_⟩, fun rule hrule => ?_⟩
  · have hsome : parsed ≠ [] := by
      rintro rfl
      have hlen := List.Forall₂.length_eq hparsed
      exact hne (List.eq_nil_of_length_eq_zero hlen)
    simp only [Gbnf.parse, hn fuel hfuel, List.nil_append, bind, Except.bind,
      hsome, if_false, parsed_names hparsed, checkRefs_parsed hparsed]
    rfl
  · obtain ⟨node, hbody, hmeans⟩ := bodyOf_parsed hparsed hnodup hrule
    rw [texts_ref hbody, hmeans.texts]

end

end Minfer.Gbnf
