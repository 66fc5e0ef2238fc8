/-
The compiler is sound: a run that enters the code of a node is still inside,
having read what a parse of the node can have read there, or it has left the
code at its end, having read a string of the node.

`Block` says this of a stretch of code, for runs up to a length. Blocks are put
together as the compiler puts code together; a call goes on with a shorter run
of the callee, so the whole is an induction on the length (`block_emitNode`).
-/
import Minfer.Grammar.Proofs.Compile
import Minfer.Grammar.Proofs.Legal

namespace Minfer.Gbnf

open Minfer.Lib (Succ bind_eq_ok)
open Minfer.Tokenize (Text)

-- ============================== blocks

section Blocks

variable {rules : Rules} {root : Nat}

/-- A run that started over the frames `below` is inside: `inside` holds of
what it read and of the number of frames it added. -/
def Inside (rules : Rules) (below : List Frame)
    (inside : List Nat → Nat → Prop) (st : Stack) (s : List Nat) : Prop :=
  ∃ k, st.depth = below.length + 1 + k ∧ inside s k
    ∧ (k = 0 → instAt rules st.top ≠ .ret)

/-- A run is inside, or it has read what leads `through` and then passed `stop`. -/

def Outcome (rules : Rules) (root r stop : Nat) (below : List Frame)
    (through : List Nat → Prop)
    (inside : List Nat → Nat → Prop) (st : Stack) (x : List (Option Nat)) : Prop :=
  Inside rules below inside st x.reduceOption
  ∨ ∃ y z, x = y ++ z ∧ through y.reduceOption
    ∧ (stackMachine rules root).IsPath ⟨⟨r, stop⟩, below⟩ st z

/-- The runs of at most `bound` moves from the start of a stretch of code. -/
def Block (rules : Rules) (root bound r base len : Nat)
    (through : List Nat → Prop) (inside : List Nat → Nat → Prop) : Prop :=
  ∀ below st x, (stackMachine rules root).IsPath ⟨⟨r, base⟩, below⟩ st x →
    x.length ≤ bound →
    Outcome rules root r (base + len) below through inside st x

variable {bound r base len stop : Nat} {below : List Frame} {st : Stack}
  {x : List (Option Nat)} {through through' : List Nat → Prop}
  {inside inside' : List Nat → Nat → Prop}

theorem Outcome.mono (h : Outcome rules root r stop below through inside st x)
    (hthrough : ∀ s, through s → through' s)
    (hinside : ∀ s k, inside s k → inside' s k) :
    Outcome rules root r stop below through' inside' st x := by
  rcases h with ⟨k, hdepth, hk, hret⟩ | ⟨y, z, hx, hy, hz⟩
  · exact .inl ⟨k, hdepth, hinside _ _ hk, hret⟩
  · exact .inr ⟨y, z, hx, hthrough _ hy, hz⟩

theorem Outcome.move (h : Outcome rules root r stop below through inside st x) :
    Outcome rules root r stop below through inside st (none :: x) := by
  rcases h with hin | ⟨y, z, rfl, hy, hz⟩
  · exact .inl hin
  · exact .inr ⟨none :: y, z, rfl, hy, hz⟩

/-- Going on from a place that was passed, with what was read so far in front. -/

theorem Outcome.after {y z : List (Option Nat)}
    (h : Outcome rules root r stop below through' inside' st z) (hx : x = y ++ z)
    (hthrough : ∀ t, through' t → through (y.reduceOption ++ t))
    (hinside : ∀ t k, inside' t k → inside (y.reduceOption ++ t) k) :
    Outcome rules root r stop below through inside st x := by
  subst hx
  rcases h with ⟨k, hdepth, hk, hret⟩ | ⟨y', z', rfl, hy, hz⟩
  · refine .inl ⟨k, hdepth, ?_, hret⟩
    rw [List.reduceOption_append]
    exact hinside _ _ hk
  · refine .inr ⟨y ++ y', z', (List.append_assoc y y' z').symm, ?_, hz⟩
    rw [List.reduceOption_append]
    exact hthrough _ hy

theorem Block.mono (h : Block rules root bound r base len through inside)
    (hthrough : ∀ s, through s → through' s)
    (hinside : ∀ s k, inside s k → inside' s k) :
    Block rules root bound r base len through' inside' :=
  fun below st x hpath hlen => (h below st x hpath hlen).mono hthrough hinside

/-- No code. -/
theorem Block.nil (h : through []) : Block rules root bound r base 0 through inside :=
  fun _ _ x hpath _ => .inr ⟨[], x, rfl, h, hpath⟩

/-- Code after code. -/
theorem Block.append {len' : Nat}
    (h : Block rules root bound r base len through inside)
    (h' : Block rules root bound r (base + len) len' through' inside') :
    Block rules root bound r base (len + len')
      (fun w => ∃ s t, through s ∧ through' t ∧ w = s ++ t)
      (fun w k => inside w k ∨ ∃ s t, through s ∧ inside' t k ∧ w = s ++ t) := by
  intro below st x hpath hlen
  rcases h below st x hpath hlen with ⟨k, hdepth, hk, hret⟩ | ⟨y, z, rfl, hy, hz⟩
  · exact .inl ⟨k, hdepth, .inl hk, hret⟩
  · have hlen' : z.length ≤ bound := by
      rw [List.length_append] at hlen
      omega
    have hout := h' below st z hz hlen'
    rw [Nat.add_assoc] at hout
    apply hout.after rfl
    · exact fun t ht => ⟨_, t, hy, ht, rfl⟩
    · exact fun t k ht => .inr ⟨_, t, hy, ht, rfl⟩

/-- A run ends where it starts, or makes a move there without input. -/
theorem path_move {st st' : Stack} {succs : List Stack}
    (hflow : flow rules st = some succs)
    (h : (stackMachine rules root).IsPath st st' x) :
    (x = [] ∧ st' = st)
    ∨ ∃ t ∈ succs, ∃ y, x = none :: y ∧ (stackMachine rules root).IsPath t st' y := by
  cases h with
  | nil => exact .inl ⟨rfl, rfl⟩
  | cons t _ _ a y hstep hy =>
      match a with
      | none =>
          obtain ⟨succs', hsuccs, hmem⟩ := hstep
          cases hflow.symm.trans hsuccs
          exact .inr ⟨t, hmem, y, rfl, hy⟩
      | some c =>
          rw [hstep.1] at hflow
          cases hflow

/-- An instruction that reads. -/
theorem Block.read (hflow : ∀ below, flow rules ⟨⟨r, base⟩, below⟩ = none)
    (hret : instAt rules ⟨r, base⟩ ≠ .ret) :
    Block rules root bound r base 1
      (fun s => ∃ c, (instAt rules ⟨r, base⟩).consumes c = true ∧ s = [c])
      (fun s k => s = [] ∧ k = 0) := by
  intro below st x hpath hlen
  cases hpath with
  | nil => exact .inl ⟨0, rfl, ⟨rfl, rfl⟩, fun _ => hret⟩
  | cons t _ _ a y hstep hy =>
      match a with
      | none =>
          obtain ⟨succs, hsuccs, -⟩ := hstep
          rw [hflow below] at hsuccs
          cases hsuccs
      | some c =>
          have hread : Stack.read rules ⟨⟨r, base⟩, below⟩ c = some t := hstep.2
          unfold Stack.read at hread
          split at hread
          next hc =>
            cases hread
            exact .inr ⟨[some c], y, rfl, ⟨c, hc, rfl⟩, hy⟩
          · cases hread

/-- A split ends a run inside, or goes on from one of its targets. -/
theorem path_split {a b : Nat} (hinst : instAt rules ⟨r, base⟩ = .split a b)
    (h : (stackMachine rules root).IsPath ⟨⟨r, base⟩, below⟩ st x) :
    (x = [] ∧ Inside rules below (fun s k => s = [] ∧ k = 0) st [])
    ∨ ∃ y, x = none :: y ∧ ((stackMachine rules root).IsPath ⟨⟨r, a⟩, below⟩ st y
      ∨ (stackMachine rules root).IsPath ⟨⟨r, b⟩, below⟩ st y) := by
  have hflow : flow rules ⟨⟨r, base⟩, below⟩
      = some [⟨⟨r, b⟩, below⟩, ⟨⟨r, a⟩, below⟩] := by
    rw [flow, hinst]
    rfl
  rcases path_move hflow h with ⟨rfl, rfl⟩ | ⟨t, ht, y, rfl, hy⟩
  · refine .inl ⟨rfl, 0, rfl, ⟨rfl, rfl⟩, fun _ => ?_⟩
    simp [hinst]
  · simp only [List.mem_cons, List.not_mem_nil, or_false] at ht
    rcases ht with rfl | rfl
    · exact .inr ⟨y, rfl, .inr hy⟩
    · exact .inr ⟨y, rfl, .inl hy⟩

/-- A jump ends a run inside, or goes on from its target. -/
theorem path_jump {a : Nat} (hinst : instAt rules ⟨r, base⟩ = .jump a)
    (h : (stackMachine rules root).IsPath ⟨⟨r, base⟩, below⟩ st x) :
    (x = [] ∧ Inside rules below (fun s k => s = [] ∧ k = 0) st [])
    ∨ ∃ y, x = none :: y ∧ (stackMachine rules root).IsPath ⟨⟨r, a⟩, below⟩ st y := by
  have hflow : flow rules ⟨⟨r, base⟩, below⟩ = some [⟨⟨r, a⟩, below⟩] := by
    rw [flow, hinst]
    rfl
  rcases path_move hflow h with ⟨rfl, rfl⟩ | ⟨t, ht, y, rfl, hy⟩
  · refine .inl ⟨rfl, 0, rfl, ⟨rfl, rfl⟩, fun _ => ?_⟩
    simp [hinst]
  · rw [List.mem_singleton.1 ht] at hy
    exact .inr ⟨y, rfl, hy⟩

/-- One branch or the other. -/
theorem Block.alt {len' : Nat}
    (hsplit : instAt rules ⟨r, base⟩ = .split (base + 1) (base + 1 + len + 1))
    (hjump : instAt rules ⟨r, base + 1 + len⟩ = .jump (base + 1 + len + 1 + len'))
    (h : Block rules root bound r (base + 1) len through inside)
    (h' : Block rules root bound r (base + 1 + len + 1) len' through' inside') :
    Block rules root bound r base (1 + len + 1 + len')
      (fun s => through s ∨ through' s)
      (fun s k => (s = [] ∨ through s) ∧ k = 0 ∨ inside s k ∨ inside' s k) := by
  intro below st x hpath hlen
  have hstop : base + (1 + len + 1 + len') = base + 1 + len + 1 + len' := by omega
  rw [hstop]
  rcases path_split hsplit hpath with ⟨rfl, hin⟩ | ⟨y, rfl, hy | hy⟩
  · exact .inl (hin.imp fun k hk => ⟨hk.1, .inl ⟨.inl hk.2.1.1, hk.2.1.2⟩, hk.2.2⟩)
  · rw [List.length_cons] at hlen
    apply Outcome.move
    rcases h below st y hy (by omega) with ⟨k, hdepth, hk, hret⟩
      | ⟨y', z, rfl, hy', hz⟩
    · exact .inl ⟨k, hdepth, .inr (.inl hk), hret⟩
    -- the branch has ended, and its jump leads to the end of all of them
    · rcases path_jump hjump hz with ⟨rfl, k, hdepth, ⟨-, rfl⟩, hret⟩ | ⟨z', rfl, hz'⟩
      · rw [List.append_nil]
        exact .inl ⟨0, hdepth, .inl ⟨.inr hy', rfl⟩, hret⟩
      · refine .inr ⟨y' ++ [none], z', by simp, .inl ?_, hz'⟩
        simpa [List.reduceOption_append] using hy'
  · rw [List.length_cons] at hlen
    apply Outcome.move
    exact (h' below st y hy (by omega)).mono (fun s => .inr) fun s k hk =>
      .inr (.inr hk)

/-- Code that may be skipped. -/
theorem Block.optional
    (hsplit : instAt rules ⟨r, base⟩ = .split (base + 1) (base + 1 + len))
    (h : Block rules root bound r (base + 1) len through inside) :
    Block rules root bound r base (1 + len) (fun s => s = [] ∨ through s)
      (fun s k => s = [] ∧ k = 0 ∨ inside s k) := by
  intro below st x hpath hlen
  rw [← Nat.add_assoc]
  rcases path_split hsplit hpath with ⟨rfl, hin⟩ | ⟨y, rfl, hy | hy⟩
  · exact .inl (hin.imp fun k hk => ⟨hk.1, .inl hk.2.1, hk.2.2⟩)
  · rw [List.length_cons] at hlen
    apply Outcome.move
    exact (h below st y hy (by omega)).mono (fun s => .inr) fun s k => .inr
  · exact .inr ⟨[none], y, rfl, .inl rfl, hy⟩

/-- Code that is gone through any number of times. -/
theorem Block.star
    (hsplit : instAt rules ⟨r, base⟩ = .split (base + 1) (base + 1 + len + 1))
    (hjump : instAt rules ⟨r, base + 1 + len⟩ = .jump base)
    (h : Block rules root bound r (base + 1) len through inside) :
    Block rules root bound r base (1 + len + 1)
      (fun s => ∃ words : List (List Nat), (∀ w ∈ words, through w)
        ∧ s = words.flatten)
      (fun s k => ∃ (words : List (List Nat)) (t : List Nat),
        (∀ w ∈ words, through w) ∧ (t = [] ∧ k = 0 ∨ inside t k)
        ∧ s = words.flatten ++ t) := by
  intro below st x
  have hstop : base + (1 + len + 1) = base + 1 + len + 1 := by omega
  rw [hstop]
  -- every round makes a move, so the rest of the run is shorter
  induction hn : x.length using Nat.strongRecOn generalizing x with
  | ind n ih =>
      intro hpath hlen
      rcases path_split hsplit hpath with ⟨rfl, hin⟩ | ⟨y, rfl, hy | hy⟩
      · refine .inl
          (hin.imp fun k hk =>
            ⟨hk.1, ⟨[], [], by simp, .inl ⟨rfl, hk.2.1.2⟩, rfl⟩, hk.2.2⟩)
      · rw [List.length_cons] at hn
        apply Outcome.move
        rcases h below st y hy (by omega) with ⟨k, hdepth, hk, hret⟩
          | ⟨y', z, rfl, hy', hz⟩
        · exact .inl ⟨k, hdepth, ⟨[], _, by simp, .inr hk, rfl⟩, hret⟩
        · rcases path_jump hjump hz with ⟨rfl, k, hdepth, ⟨-, rfl⟩, hret⟩
            | ⟨z', rfl, hz'⟩
          · rw [List.append_nil]
            exact .inl ⟨0, hdepth,
              ⟨[_], [], by simpa using hy', .inl ⟨rfl, rfl⟩, by simp⟩, hret⟩
          · simp only [List.length_append, List.length_cons] at hn
            have hout := ih z'.length (by omega) z' rfl hz' (by omega)
            apply (hout.after (y := y' ++ [none]) (by simp))
            · rintro t ⟨words, hwords, rfl⟩
              refine ⟨y'.reduceOption :: words,
                List.forall_mem_cons.2 ⟨hy', hwords⟩, ?_⟩
              simp [List.reduceOption_append]
            · rintro t k ⟨words, u, hwords, hu, rfl⟩
              refine ⟨y'.reduceOption :: words, u,
                List.forall_mem_cons.2 ⟨hy', hwords⟩, hu, ?_⟩
              simp [List.reduceOption_append]
      · exact .inr ⟨[none], y, rfl, ⟨[], by simp, rfl⟩, hy⟩

end Blocks

-- ============================ programs

/-- The rules are the compiled grammar, as the parser returned it. -/
structure Compiled (grammar : List (Text × Node)) (rules : Rules) : Prop where
  compiled : compileRules (grammar.map (·.1)) grammar = .ok rules
  legal : ∀ rule ∈ grammar, rule.2.Legal

theorem getElem?_compileRules {names : List Text} {parsed : List (Text × Node)}
    {rules : Rules} (h : compileRules names parsed = .ok rules) {i : Nat}
    {rule : Text × Node} (hi : parsed[i]? = some rule) :
    ∃ prog, rules[i]? = some prog ∧ compileRule names rule.2 = .ok prog := by
  induction parsed generalizing rules i with
  | nil => simp at hi
  | cons first parsed ih =>
      obtain ⟨prog, hprog, h⟩ := bind_eq_ok.1 h
      obtain ⟨others, hothers, h⟩ := bind_eq_ok.1 h
      cases h
      match i with
      | 0 =>
          cases hi
          exact ⟨prog, rfl, hprog⟩
      | i + 1 => exact ih hothers hi

variable {grammar : List (Text × Node)} {rules : Rules} {root : Nat}

/-- What the id of a rule stands for. -/
theorem Compiled.rule (h : Compiled grammar rules) {name : Text} {id : Nat}
    (hid : idOf (grammar.map (·.1)) name = some id) :
    ∃ body code, bodyOf grammar name = some body ∧ body.Legal
      ∧ emitNode (grammar.map (·.1)) body 0 = .ok code
      ∧ rules.getD id [] = code ++ [.ret] := by
  unfold idOf at hid
  rw [List.findIdx?_map] at hid
  obtain ⟨hlt, hname, hfirst⟩ := List.findIdx?_eq_some_iff_getElem.1 hid
  have hbody : bodyOf grammar name = some grammar[id].2 := by
    have hfind : grammar.find? (·.1 = name) = some grammar[id] := by
      refine List.find?_eq_some_iff_getElem.2 ⟨by simpa using hname, id, hlt, rfl, ?_⟩
      exact fun j hj => by simpa using hfirst j hj
    rw [bodyOf, hfind]
    rfl
  obtain ⟨prog, hprog, hcompile⟩ :=
    getElem?_compileRules h.compiled (List.getElem?_eq_getElem hlt)
  obtain ⟨code, hcode, hret⟩ := bind_eq_ok.1 hcompile
  split at hret
  · cases hret
    refine ⟨_, code, hbody, h.legal _ (List.getElem_mem hlt), hcode, ?_⟩
    rw [List.getD_eq_getElem?_getD, hprog]
    rfl
  · cases hret

/-- The code of a rule's body is where the rule starts, and returns at its end. -/

theorem placed_body {id : Nat} {code : List Inst}
    (h : rules.getD id [] = code ++ [.ret]) :
    Placed rules id 0 code ∧ instAt rules ⟨id, code.length⟩ = .ret := by
  have hall : Placed rules id 0 (code ++ [.ret]) := by
    rw [Placed, List.drop_zero, h]
  obtain ⟨hcode, hret⟩ := placed_append.1 hall
  rw [Nat.zero_add] at hret
  exact ⟨hcode, hret.inst⟩

-- ============================== copies

/-- So many strings one after another. -/
def Words (through : List Nat → Prop) (k : Nat) (s : List Nat) : Prop :=
  ∃ words : List (List Nat), (∀ w ∈ words, through w) ∧ words.length = k
    ∧ s = words.flatten

theorem Words.zero {through : List Nat → Prop} : Words through 0 [] :=
  ⟨[], by simp, rfl, rfl⟩

variable {k : Nat} {s : List Nat}

theorem Words.cons {through : List Nat → Prop} {w : List Nat} (hw : through w)
    (h : Words through k s) : Words through (k + 1) (w ++ s) := by
  obtain ⟨words, hwords, rfl, rfl⟩ := h
  exact ⟨w :: words, List.forall_mem_cons.2 ⟨hw, hwords⟩, rfl, rfl⟩

theorem Words.append {through : List Nat → Prop} {k' : Nat} {t : List Nat}
    (h : Words through k s) (h' : Words through k' t) :
    Words through (k + k') (s ++ t) := by
  obtain ⟨words, hwords, rfl, rfl⟩ := h
  obtain ⟨words', hwords', rfl, rfl⟩ := h'
  refine ⟨words ++ words', ?_, List.length_append, List.flatten_append.symm⟩
  simp only [List.mem_append]
  rintro w (hw | hw)
  · exact hwords w hw
  · exact hwords' w hw

/-- Inside a copy, with fewer than `k` of them before it. -/
def InCopy (through : List Nat → Prop) (inside : List Nat → Nat → Prop)
    (k : Nat) (s : List Nat) (j : Nat) : Prop :=
  ∃ i u t, i < k ∧ Words through i u ∧ inside t j ∧ s = u ++ t

theorem InCopy.first {through : List Nat → Prop}
    {inside : List Nat → Nat → Prop} {j : Nat} (hk : 0 < k) (h : inside s j) :
    InCopy through inside k s j :=
  ⟨0, [], s, hk, .zero, h, rfl⟩

theorem InCopy.cons {through : List Nat → Prop}
    {inside : List Nat → Nat → Prop} {j : Nat}
    {w : List Nat} (hw : through w) (h : InCopy through inside k s j) :
    InCopy through inside (k + 1) (w ++ s) j := by
  obtain ⟨i, u, t, hi, hu, ht, rfl⟩ := h
  exact ⟨i + 1, w ++ u, t, by omega, hu.cons hw, ht, (List.append_assoc w u t).symm⟩

section Emitted

variable {bound r : Nat} {through : List Nat → Prop} {inside : List Nat → Nat → Prop}

/-- All the code an emitter returns is such a block where it is placed. -/
def Emits (rules : Rules) (root bound r : Nat)
    (emit : Nat → Except GrammarError (List Inst))
    (through : List Nat → Prop) (inside : List Nat → Nat → Prop) : Prop :=
  ∀ base code, emit base = .ok code → Placed rules r base code →
    Block rules root bound r base code.length through inside

variable {emit : Nat → Except GrammarError (List Inst)}

theorem emits_times (h : Emits rules root bound r emit through inside) (k : Nat) :
    Emits rules root bound r (emitTimes emit k) (Words through k)
      (InCopy through inside k) := by
  induction k with
  | zero =>
      intro base code hcode hplaced
      cases hcode
      exact .nil .zero
  | succ k ih =>
      intro base code hcode hplaced
      obtain ⟨first, hfirst, hcode⟩ := bind_eq_ok.1 hcode
      obtain ⟨others, hothers, hcode⟩ := bind_eq_ok.1 hcode
      cases hcode
      obtain ⟨hplaced, hplaced'⟩ := placed_append.1 hplaced
      rw [List.length_append]
      apply ((h _ _ hfirst hplaced).append (ih _ _ hothers hplaced')).mono
      · rintro s ⟨w, t, hw, ht, rfl⟩
        exact ht.cons hw
      · rintro s j (hj | ⟨w, t, hw, ht, rfl⟩)
        · exact .first (Nat.succ_pos k) hj
        · exact ht.cons hw

theorem emits_optional (hstart : inside [] 0)
    (h : Emits rules root bound r emit through inside)
    (k : Nat) : Emits rules root bound r (emitOptional emit k)
    (fun s => ∃ i ≤ k, Words through i s)
      (InCopy through inside k) := by
  induction k with
  | zero =>
      intro base code hcode hplaced
      cases hcode
      exact .nil ⟨0, Nat.le_refl 0, .zero⟩
  | succ k ih =>
      intro base code hcode hplaced
      obtain ⟨first, hfirst, hcode⟩ := bind_eq_ok.1 hcode
      obtain ⟨others, hothers, hcode⟩ := bind_eq_ok.1 hcode
      cases hcode
      obtain ⟨hsplit, hplaced⟩ := placed_cons.1 hplaced
      obtain ⟨hplaced, hplaced'⟩ := placed_append.1 hplaced
      have hone := (h _ _ hfirst hplaced).optional hsplit.inst
      have hlen : (Inst.split (base + 1) (base + 1 + first.length) :: first
          ++ others).length
          = 1 + first.length + others.length := by
        simp only [List.cons_append, List.length_cons, List.length_append]
        omega
      rw [hlen]
      have hrest := ih _ _ hothers hplaced'
      rw [Nat.add_assoc base] at hrest
      apply (hone.append hrest).mono
      · rintro s ⟨w, t, rfl | hw, ⟨i, hi, ht⟩, rfl⟩
        · exact ⟨i, by omega, ht⟩
        · exact ⟨i + 1, by omega, ht.cons hw⟩
      · rintro s j ((⟨rfl, rfl⟩ | hj) | ⟨w, t, rfl | hw, ht, rfl⟩)
        · exact .first (Nat.succ_pos k) hstart
        · exact .first (Nat.succ_pos k) hj
        · obtain ⟨i, u, t, hi, hu, ht, rfl⟩ := ht
          exact ⟨i, u, t, by omega, hu, ht, rfl⟩
        · exact ht.cons hw

variable {names : List Text}

theorem emits_str (cps : List Nat) : Emits rules root bound r
    (emitNode names (.str cps))
    (Derives grammar (.str cps)) (Opens grammar (.str cps)) := by
  intro base code hcode hplaced
  cases hcode
  have hblock : Block rules root bound r base (cps.map Inst.cp).length (· = cps)
      (fun s k => (∃ i, s = cps.take i) ∧ k = 0) := by
    induction cps generalizing base with
    | nil => exact .nil rfl
    | cons c cps ih =>
        obtain ⟨hinst, hplaced⟩ := placed_cons.1 hplaced
        have hone : Block rules root bound r base 1 (· = [c])
            (fun s k => s = [] ∧ k = 0) := by
          apply (Block.read _ _).mono
          · rintro s ⟨d, hd, rfl⟩
            rw [hinst.inst] at hd
            simp only [Inst.consumes, decide_eq_true_eq] at hd
            rw [hd]
          · exact fun s k hk => hk
          · intro below
            rw [flow, hinst.inst]
          · simp [hinst.inst]
        rw [List.map_cons, List.length_cons, Nat.add_comm]
        apply (hone.append (ih _ hplaced)).mono
        · rintro s ⟨w, t, rfl, rfl, rfl⟩
          rfl
        · rintro s k (⟨rfl, rfl⟩ | ⟨w, t, rfl, ⟨⟨i, rfl⟩, rfl⟩, rfl⟩)
          · exact ⟨⟨0, rfl⟩, rfl⟩
          · exact ⟨⟨i + 1, rfl⟩, rfl⟩
  apply hblock.mono
  · rintro s rfl
    exact .str s
  · rintro s k ⟨⟨i, rfl⟩, rfl⟩
    exact .str cps i

/-- A node of one instruction that reads. -/
theorem emits_read {node : Node} {inst : Inst}
    (hemit : ∀ base, emitNode names node base = .ok [inst])
    (hflow : ∀ st, instAt rules st.top = inst → flow rules st = none)
    (hret : inst ≠ .ret)
    (hderives : ∀ c, inst.consumes c = true → Derives grammar node [c]) :
    Emits rules root bound r (emitNode names node) (Derives grammar node)
      (Opens grammar node) := by
  intro base code hcode hplaced
  rw [hemit base] at hcode
  cases hcode
  have hinst := hplaced.inst
  apply (Block.read (fun below => hflow _ hinst) (by rwa [hinst])).mono
  · rintro s ⟨c, hc, rfl⟩
    rw [hinst] at hc
    exact hderives c hc
  · rintro s k ⟨rfl, rfl⟩
    exact .start node

theorem emits_seq {items : List Node} (h : ∀ node ∈ items,
      Emits rules root bound r (emitNode names node) (Derives grammar node)
        (Opens grammar node)) :
    Emits rules root bound r (emitSeq names items) (Derives grammar (.seq items))
      (Opens grammar (.seq items)) := by
  induction items with
  | nil =>
      intro base code hcode hplaced
      cases hcode
      exact .nil .seqNil
  | cons node rest ih =>
      intro base code hcode hplaced
      obtain ⟨first, hfirst, hcode⟩ := bind_eq_ok.1 hcode
      obtain ⟨others, hothers, hcode⟩ := bind_eq_ok.1 hcode
      cases hcode
      obtain ⟨hnode, hrest⟩ := List.forall_mem_cons.1 h
      obtain ⟨hplaced, hplaced'⟩ := placed_append.1 hplaced
      rw [List.length_append]
      apply ((hnode _ _ hfirst hplaced).append (ih hrest _ _ hothers hplaced')).mono
      · rintro s ⟨w, t, hw, ht, rfl⟩
        exact .seqCons hw ht
      · rintro s j (hj | ⟨w, t, hw, ht, rfl⟩)
        · exact .seqHead hj
        · exact .seqTail hw ht

variable {s : List Nat} {inner : Node} {m : Nat} {n : Option Nat}

theorem Opens.alt_cons {node : Node} {rest : List Node}
    {k : Nat} (h : Opens grammar (.alt rest) s k) : Opens grammar
    (.alt (node :: rest)) s k := by
  cases h with
  | start => exact .start _
  | done h =>
      cases h with
      | alt hmem h => exact .done (.alt (List.mem_cons_of_mem node hmem) h)
  | alt hmem h => exact .alt (List.mem_cons_of_mem node hmem) h

theorem emits_alt {branches : List Node} (hne : branches ≠ []) (h : ∀ node ∈ branches,
      Emits rules root bound r (emitNode names node) (Derives grammar node)
        (Opens grammar node)) :
    Emits rules root bound r (emitAlt names branches)
      (fun s => ∃ branch ∈ branches, Derives grammar branch s)
        (Opens grammar (.alt branches)) := by
  induction branches with
  | nil => exact absurd rfl hne
  | cons node rest ih =>
      obtain ⟨hnode, hrest⟩ := List.forall_mem_cons.1 h
      match rest with
      | [] =>
          intro base code hcode hplaced
          apply (hnode base code hcode hplaced).mono
          · exact fun s hs => ⟨node, List.mem_singleton_self node, hs⟩
          · exact fun s k hk => .alt (List.mem_singleton_self node) hk
      | second :: more =>
          intro base code hcode hplaced
          obtain ⟨first, hfirst, hcode⟩ := bind_eq_ok.1 hcode
          obtain ⟨others, hothers, hcode⟩ := bind_eq_ok.1 hcode
          cases hcode
          obtain ⟨hhead, htail⟩ := placed_append.1 hplaced
          obtain ⟨hsplit, hhead⟩ := placed_cons.1 hhead
          rw [List.length_cons, Nat.add_comm first.length, ← Nat.add_assoc] at htail
          obtain ⟨hjump, htail⟩ := placed_cons.1 htail
          have hblock := Block.alt hsplit.inst hjump.inst (hnode _ _ hfirst hhead)
            (ih (List.cons_ne_nil _ _) hrest _ _ hothers htail)
          rw [show ∀ a b : Inst, (a :: first ++ b :: others).length
              = 1 + first.length + 1 + others.length by
            simp; omega]
          apply hblock.mono
          · rintro s (hs | ⟨branch, hmem, hs⟩)
            · exact ⟨node, List.mem_cons_self, hs⟩
            · exact ⟨branch, List.mem_cons_of_mem node hmem, hs⟩
          · rintro s k (⟨rfl | hs, rfl⟩ | hk | hk)
            · exact .start _
            · exact .done (.alt List.mem_cons_self hs)
            · exact .alt List.mem_cons_self hk
            · exact hk.alt_cons

/-- A node repeated, by the words of its copies. -/
theorem derives_rep {i : Nat} (h : Words (Derives grammar inner) i s)
    (hm : m ≤ i) (hn : ∀ total, n = some total → i ≤ total) :
    Derives grammar (.rep inner m n) s := by
  obtain ⟨words, hwords, rfl, rfl⟩ := h
  exact .rep hwords hm hn

theorem opens_rep {i k : Nat}
    {t : List Nat} (h : Words (Derives grammar inner) i s)
    (hn : ∀ total, n = some total → i < total) (ht : Opens grammar inner t k) :
    Opens grammar (.rep inner m n)
    (s ++ t) k := by
  obtain ⟨words, hwords, rfl, rfl⟩ := h
  exact .rep hwords hn ht

theorem emits_rep (hn : ∀ total, n = some total → m ≤ total)
    (h : Emits rules root bound r (emitNode names inner) (Derives grammar inner)
      (Opens grammar inner)) :
    Emits rules root bound r (emitNode names (.rep inner m n))
      (Derives grammar (.rep inner m n))
      (Opens grammar (.rep inner m n)) := by
  intro base code hcode hplaced
  unfold emitNode at hcode
  obtain ⟨head, hhead, hcode⟩ := bind_eq_ok.1 hcode
  have htimes := emits_times h m base head hhead
  cases n with
  | none =>
      obtain ⟨body, hbody, hcode⟩ := bind_eq_ok.1 hcode
      cases hcode
      rw [List.append_assoc] at hplaced ⊢
      obtain ⟨hplaced, hloop⟩ := placed_append.1 hplaced
      obtain ⟨hsplit, hjump⟩ := placed_append.1 hloop
      obtain ⟨hsplit, hbody'⟩ := placed_cons.1 hsplit
      rw [List.length_cons, Nat.add_comm body.length, ← Nat.add_assoc] at hjump
      have hstar := Block.star hsplit.inst hjump.inst (h _ _ hbody hbody')
      rw [show ∀ a b : Inst, (head ++ (a :: body ++ [b])).length
          = head.length + (1 + body.length + 1) by
        simp; omega]
      apply ((htimes hplaced).append hstar).mono
      · rintro s ⟨w, t, hw, ⟨words, hwords, rfl⟩, rfl⟩
        have hall := hw.append ⟨words, hwords, rfl, rfl⟩
        exact derives_rep hall (by omega) (fun total htotal => by cases htotal)
      · rintro s k
          (⟨i, u, t, hi, hu, ht, rfl⟩
            | ⟨w, t, hw, ⟨words, t, hwords, ht, rfl⟩, rfl⟩)
        · exact opens_rep hu (fun total htotal => by cases htotal) ht
        · rw [← List.append_assoc]
          have hall := hw.append ⟨words, hwords, rfl, rfl⟩
          refine opens_rep hall (fun total htotal => by cases htotal) ?_
          rcases ht with ⟨rfl, rfl⟩ | ht
          · exact .start inner
          · exact ht
  | some total =>
      obtain ⟨others, hothers, hcode⟩ := bind_eq_ok.1 hcode
      cases hcode
      have hle := hn total rfl
      obtain ⟨hplaced, hplaced'⟩ := placed_append.1 hplaced
      have hoptional :=
        emits_optional (.start inner) h (total - m) _ _ hothers hplaced'
      rw [List.length_append]
      apply ((htimes hplaced).append hoptional).mono
      · rintro s ⟨w, t, hw, ⟨i, hi, ht⟩, rfl⟩
        refine derives_rep (hw.append ht) (by omega) fun total' htotal => ?_
        cases htotal
        omega
      · rintro s k
          (⟨i, u, t, hi, hu, ht, rfl⟩
            | ⟨w, t, hw, ⟨i, u, t, hi, hu, ht, rfl⟩, rfl⟩)
        · refine opens_rep hu (fun total' htotal => ?_) ht
          cases htotal
          omega
        · rw [← List.append_assoc]
          refine opens_rep (hw.append hu) (fun total' htotal => ?_) ht
          cases htotal
          omega

/-- A call: the callee's run is shorter, and returns behind the call. -/
theorem emits_ref (h : Compiled grammar rules) (name : Text)
    (ih : ∀ bound' < bound, ∀ body : Node, body.Legal → ∀ r,
      Emits rules root bound' r (emitNode (grammar.map (·.1)) body)
        (Derives grammar body)
        (Opens grammar body)) :
    Emits rules root bound r (emitNode (grammar.map (·.1)) (.ref name))
      (Derives grammar (.ref name))
      (Opens grammar (.ref name)) := by
  intro base code hcode hplaced below st x hpath hlen
  unfold emitNode at hcode
  split at hcode
  next id hid =>
    cases hcode
    obtain ⟨body, code, hbody, hlegal, hcode, hprog⟩ := h.rule hid
    obtain ⟨hplaced', hret⟩ := placed_body hprog
    have hinst := hplaced.inst
    have hflow : flow rules ⟨⟨r, base⟩, below⟩
        = some [⟨⟨id, 0⟩, ⟨r, base + 1⟩ :: below⟩] := by
      rw [flow, hinst]
      rfl
    rcases path_move hflow hpath with ⟨rfl, rfl⟩ | ⟨t, ht, y, rfl, hy⟩
    · refine .inl ⟨0, rfl, .start _, fun _ => ?_⟩
      simp [hinst]
    · rw [List.mem_singleton.1 ht] at hy
      rw [List.length_cons] at hlen
      apply Outcome.move
      rcases ih y.length (by omega) body hlegal id 0 code hcode hplaced' _ st y
          hy (Nat.le_refl _) with
        ⟨k, hdepth, hk, -⟩ | ⟨y', z, rfl, hy', hz⟩
      · refine .inl ⟨k + 1, ?_, .ref hbody hk, fun hk =>
          absurd hk (Nat.succ_ne_zero k)⟩
        rw [hdepth, List.length_cons]
        omega
      · have hflow' : flow rules ⟨⟨id, code.length⟩, ⟨r, base + 1⟩ :: below⟩
            = some [⟨⟨r, base + 1⟩, below⟩] := by
          rw [flow, hret]
        rw [Nat.zero_add] at hz
        rcases path_move hflow' hz with ⟨rfl, rfl⟩ | ⟨t, ht, z', rfl, hz'⟩
        · rw [List.append_nil]
          refine .inl ⟨1, ?_, .ref hbody (.done hy'),
            fun hk => absurd hk Nat.one_ne_zero⟩
          rw [Stack.depth, List.length_cons]
        · rw [List.mem_singleton.1 ht] at hz'
          refine .inr ⟨y' ++ [none], z', by simp, ?_, hz'⟩
          have hy' : Derives grammar (.ref name) y'.reduceOption := .ref hbody hy'
          simpa [List.reduceOption_append] using hy'
  · cases hcode

/-- The code of every node. -/
theorem emits_node (h : Compiled grammar rules) : ∀ bound
    (node : Node), node.Legal → ∀ r,
    Emits rules root bound r (emitNode (grammar.map (·.1)) node)
      (Derives grammar node)
      (Opens grammar node) := by
  intro bound
  induction bound using Nat.strongRecOn with
  | ind bound ih =>
      intro node hlegal r
      induction hlegal with
      | str cps => exact emits_str cps
      | cls negated _ =>
          apply emits_read (fun base => rfl)
          · intro st hst
            rw [flow, hst]
          · simp
          · intro c hc
            exact .cls (by simpa [Inst.consumes] using hc)
      | any =>
          apply emits_read (fun base => rfl)
          · intro st hst
            rw [flow, hst]
          · simp
          · exact fun c _ => .any c
      | seq _ ihitems => exact emits_seq ihitems
      | alt hne _ ihbranches =>
          intro base code hcode hplaced
          apply (emits_alt hne ihbranches base code hcode hplaced).mono
          · rintro s ⟨branch, hmem, hs⟩
            exact .alt hmem hs
          · exact fun s k hk => hk
      | rep _ hn ihinner => exact emits_rep hn ihinner
      | ref name => exact emits_ref h name ih

end Emitted

-- ========================== whole runs

/-- A run that starts with the root rule: what its parses can have open, and
what it has read when the root rule has finished. -/
theorem path_root (h : Compiled grammar rules)
    (hroot : idOf (grammar.map (·.1)) "root".toList = some root) {st : Stack}
    {x : List (Option Nat)}
    (hpath : (stackMachine rules root).IsPath ⟨⟨root, 0⟩, []⟩ st x) :
    Opens grammar (.ref "root".toList) x.reduceOption st.depth
      ∧ (st.Final rules → Derives grammar (.ref "root".toList) x.reduceOption) := by
  obtain ⟨body, code, hbody, hlegal, hcode, hprog⟩ := h.rule hroot
  obtain ⟨hplaced, hret⟩ := placed_body hprog
  rcases emits_node h x.length body hlegal root 0 code hcode hplaced [] st x
    hpath (Nat.le_refl _)
    with ⟨k, hdepth, hk, hnret⟩ | ⟨y, z, rfl, hy, hz⟩
  · rw [List.length_nil, Nat.zero_add, Nat.add_comm] at hdepth
    rw [hdepth]
    refine ⟨.ref hbody hk, fun hfin => ?_⟩
    have hk0 : k = 0 := by
      rw [Stack.depth, hfin.1, List.length_nil] at hdepth
      omega
    exact absurd hfin.2 (hnret hk0)
  · rw [Nat.zero_add] at hz
    have hfin : Stack.Final rules ⟨⟨root, code.length⟩, []⟩ := ⟨rfl, hret⟩
    cases hz with
    | nil =>
        rw [List.append_nil]
        exact ⟨.ref hbody (.done hy), fun _ => .ref hbody hy⟩
    | cons t _ _ a z hstep _ =>
        -- the root rule has finished, so nothing moves
        match a with
        | none =>
            obtain ⟨succs, hsuccs, -⟩ := hstep
            rw [flow_of_final rules hfin] at hsuccs
            cases hsuccs
        | some c =>
            have hread : Stack.read rules ⟨⟨root, code.length⟩, []⟩ c
              = some t := hstep.2
            simp [Stack.read, hret, Inst.consumes] at hread

end Minfer.Gbnf
