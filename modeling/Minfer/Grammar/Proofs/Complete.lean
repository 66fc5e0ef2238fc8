/-
The compiler is complete: the machine can run through the code of a node on any
string of the node, and into it as far as any parse of the node can stand, with
a frame for every rule that parse has open.

Together with the other direction: the stacks the machine can reach are the
places of the parses (`reach_iff`), and it accepts what the grammar derives
(`accepts_iff`).
-/
import Minfer.Grammar.Proofs.Blocks

namespace Minfer.Gbnf

open Minfer.Lib (bind_eq_ok)
open Minfer.Tokenize (Text)

section Complete

variable {rules : Rules} {root : Nat}

-- =============================== moves

variable {base r k : Nat} {s : List Nat} {words : List (List Nat)}
variable {a b j m : Nat} {t : List Nat} {code : List Inst} {inner : Node}

theorem runs_left (hinst : instAt rules ⟨r, base⟩ = .split a b)
    (below : List Frame) : Runs rules root ⟨⟨r, base⟩, below⟩ [] ⟨⟨r, a⟩, below⟩ := by
  have hflow : flow rules ⟨⟨r, base⟩, below⟩
      = some [⟨⟨r, b⟩, below⟩, ⟨⟨r, a⟩, below⟩] := by
    rw [flow, hinst]
    rfl
  exact .move hflow (by simp) (.refl _)

theorem runs_right (hinst : instAt rules ⟨r, base⟩ = .split a b)
    (below : List Frame) : Runs rules root ⟨⟨r, base⟩, below⟩ [] ⟨⟨r, b⟩, below⟩ := by
  have hflow : flow rules ⟨⟨r, base⟩, below⟩
      = some [⟨⟨r, b⟩, below⟩, ⟨⟨r, a⟩, below⟩] := by
    rw [flow, hinst]
    rfl
  exact .move hflow (by simp) (.refl _)

theorem runs_jump (hinst : instAt rules ⟨r, base⟩ = .jump a)
    (below : List Frame) : Runs rules root ⟨⟨r, base⟩, below⟩ [] ⟨⟨r, a⟩, below⟩ := by
  have hflow : flow rules ⟨⟨r, base⟩, below⟩ = some [⟨⟨r, a⟩, below⟩] := by
    rw [flow, hinst]
    rfl
  exact .move hflow (by simp) (.refl _)

/-- The machine runs through all the code an emitter returns. -/
def Through (rules : Rules) (root : Nat)
    (emit : Nat → Except GrammarError (List Inst)) (s : List Nat) : Prop :=
  ∀ r base code, emit base = .ok code → Placed rules r base code → ∀ below,
    Runs rules root ⟨⟨r, base⟩, below⟩ s ⟨⟨r, base + code.length⟩, below⟩

/-- The machine runs into the code, to a stack with `k` frames more. -/
def Into (rules : Rules) (root : Nat)
    (emit : Nat → Except GrammarError (List Inst)) (s : List Nat)
    (k : Nat) : Prop :=
  ∀ r base code, emit base = .ok code → Placed rules r base code → ∀ below,
    ∃ st, st.depth = below.length + 1 + k ∧ Runs rules root ⟨⟨r, base⟩, below⟩ s st

variable {emit : Nat → Except GrammarError (List Inst)}

theorem into_start (emit : Nat → Except GrammarError (List Inst)) :
    Into rules root emit [] 0 :=
  fun _ _ _ _ _ _ => ⟨_, rfl, .refl _⟩

theorem Through.into (h : Through rules root emit s) :
    Into rules root emit s 0 :=
  fun r base code hcode hplaced below => ⟨_, rfl, h r base code hcode hplaced below⟩

-- ============================== copies

theorem through_times (h : ∀ w ∈ words, Through rules root emit w) :
    Through rules root (emitTimes emit words.length) words.flatten := by
  induction words with
  | nil =>
      intro r base code hcode hplaced below
      cases hcode
      exact .refl _
  | cons w words ih =>
      intro r base code hcode hplaced below
      obtain ⟨first, hfirst, hcode⟩ := bind_eq_ok.1 hcode
      obtain ⟨others, hothers, hcode⟩ := bind_eq_ok.1 hcode
      cases hcode
      obtain ⟨hw, hwords⟩ := List.forall_mem_cons.1 h
      obtain ⟨hplaced, hplaced'⟩ := placed_append.1 hplaced
      rw [List.flatten_cons, List.length_append, ← Nat.add_assoc]
      exact (hw r _ _ hfirst hplaced below).trans
        (ih hwords r _ _ hothers hplaced' below)

theorem into_times (h : ∀ w ∈ words, Through rules root emit w)
    (ht : Into rules root emit t j) (hk : words.length < k) :
    Into rules root (emitTimes emit k)
    (words.flatten ++ t) j := by
  induction words generalizing k with
  | nil =>
      obtain ⟨k, rfl⟩ : ∃ k', k = k' + 1 := ⟨k - 1, by simp at hk; omega⟩
      intro r base code hcode hplaced below
      obtain ⟨first, hfirst, hcode⟩ := bind_eq_ok.1 hcode
      obtain ⟨others, hothers, hcode⟩ := bind_eq_ok.1 hcode
      cases hcode
      exact ht r _ _ hfirst (placed_append.1 hplaced).1 below
  | cons w words ih =>
      obtain ⟨k, rfl⟩ : ∃ k', k = k' + 1 := ⟨k - 1, by simp at hk; omega⟩
      intro r base code hcode hplaced below
      obtain ⟨first, hfirst, hcode⟩ := bind_eq_ok.1 hcode
      obtain ⟨others, hothers, hcode⟩ := bind_eq_ok.1 hcode
      cases hcode
      obtain ⟨hw, hwords⟩ := List.forall_mem_cons.1 h
      obtain ⟨hplaced, hplaced'⟩ := placed_append.1 hplaced
      obtain ⟨st, hdepth, hrun⟩ :=
        ih hwords (Nat.lt_of_succ_lt_succ hk) r _ _ hothers hplaced' below
      rw [List.flatten_cons, List.append_assoc]
      exact ⟨st, hdepth, (hw r _ _ hfirst hplaced below).trans hrun⟩

theorem through_optional
    (h : ∀ w ∈ words, Through rules root emit w) (hk : words.length ≤ k) :
    Through rules root (emitOptional emit k) words.flatten := by
  induction k generalizing words with
  | zero =>
      intro r base code hcode hplaced below
      cases hcode
      rw [List.length_eq_zero_iff.1 (Nat.le_zero.1 hk)]
      exact .refl _
  | succ k ih =>
      intro r base code hcode hplaced below
      obtain ⟨first, hfirst, hcode⟩ := bind_eq_ok.1 hcode
      obtain ⟨others, hothers, hcode⟩ := bind_eq_ok.1 hcode
      cases hcode
      obtain ⟨hsplit, hplaced⟩ := placed_cons.1 hplaced
      obtain ⟨hplaced, hplaced'⟩ := placed_append.1 hplaced
      rw [List.cons_append, List.length_cons, List.length_append,
        Nat.add_comm _ 1, ← Nat.add_assoc, ← Nat.add_assoc]
      match words with
      | [] =>
          have hrest := ih h (Nat.zero_le k) r _ _ hothers hplaced' below
          exact (runs_right hsplit.inst below).trans hrest
      | w :: words =>
          obtain ⟨hw, hwords⟩ := List.forall_mem_cons.1 h
          have hrest :=
            ih hwords (Nat.le_of_succ_le_succ hk) r _ _ hothers hplaced' below
          have hfirst := hw r _ _ hfirst hplaced below
          exact ((runs_left hsplit.inst below).trans hfirst).trans hrest

theorem into_optional (h : ∀ w ∈ words, Through rules root emit w)
    (ht : Into rules root emit t j) (hk : words.length < k) :
    Into rules root (emitOptional emit k)
    (words.flatten ++ t) j := by
  induction words generalizing k with
  | nil =>
      obtain ⟨k, rfl⟩ : ∃ k', k = k' + 1 := ⟨k - 1, by simp at hk; omega⟩
      intro r base code hcode hplaced below
      obtain ⟨first, hfirst, hcode⟩ := bind_eq_ok.1 hcode
      obtain ⟨others, hothers, hcode⟩ := bind_eq_ok.1 hcode
      cases hcode
      obtain ⟨hsplit, hplaced⟩ := placed_cons.1 hplaced
      obtain ⟨st, hdepth, hrun⟩ := ht r _ _ hfirst (placed_append.1 hplaced).1 below
      exact ⟨st, hdepth, (runs_left hsplit.inst below).trans hrun⟩
  | cons w words ih =>
      obtain ⟨k, rfl⟩ : ∃ k', k = k' + 1 := ⟨k - 1, by simp at hk; omega⟩
      intro r base code hcode hplaced below
      obtain ⟨first, hfirst, hcode⟩ := bind_eq_ok.1 hcode
      obtain ⟨others, hothers, hcode⟩ := bind_eq_ok.1 hcode
      cases hcode
      obtain ⟨hw, hwords⟩ := List.forall_mem_cons.1 h
      obtain ⟨hsplit, hplaced⟩ := placed_cons.1 hplaced
      obtain ⟨hplaced, hplaced'⟩ := placed_append.1 hplaced
      obtain ⟨st, hdepth, hrun⟩ :=
        ih hwords (Nat.lt_of_succ_lt_succ hk) r _ _ hothers hplaced' below
      have hfirst := hw r _ _ hfirst hplaced below
      rw [List.flatten_cons, List.append_assoc]
      exact ⟨st, hdepth, ((runs_left hsplit.inst below).trans hfirst).trans hrun⟩

/-- Any number of rounds of a loop. -/
theorem runs_rounds {body : List Inst}
    (hsplit : instAt rules ⟨r, base⟩ = .split (base + 1) b)
    (hjump : instAt rules ⟨r, base + 1 + body.length⟩ = .jump base)
    (h : ∀ w ∈ words, ∀ below,
      Runs rules root ⟨⟨r, base + 1⟩, below⟩ w
        ⟨⟨r, base + 1 + body.length⟩, below⟩) (below : List Frame) :
    Runs rules root ⟨⟨r, base⟩, below⟩ words.flatten ⟨⟨r, base⟩, below⟩ := by
  induction words with
  | nil => exact .refl _
  | cons w words ih =>
      obtain ⟨hw, hwords⟩ := List.forall_mem_cons.1 h
      have hleft : Runs rules root ⟨⟨r, base⟩, below⟩ [] ⟨⟨r, base + 1⟩, below⟩ :=
        runs_left hsplit below
      have hround := (hleft.trans (hw below)).trans (runs_jump hjump below)
      rw [List.flatten_cons]
      simpa using hround.trans (ih hwords)

-- =============================== nodes

variable {names : List Text}

/-- Where the code of a branch is, and how the machine gets there and away. -/
theorem emitted_branch {branches : List Node} {branch : Node}
    (hmem : branch ∈ branches) (h : emitAlt names branches base = .ok code)
    (hplaced : Placed rules r base code) :
    ∃ place part, emitNode names branch place = .ok part
      ∧ Placed rules r place part ∧ ∀ below,
      Runs rules root ⟨⟨r, base⟩, below⟩ [] ⟨⟨r, place⟩, below⟩
      ∧ Runs rules root ⟨⟨r, place + part.length⟩, below⟩ []
        ⟨⟨r, base + code.length⟩, below⟩ := by
  induction branches generalizing base code with
  | nil => exact absurd hmem List.not_mem_nil
  | cons node rest ih =>
      match rest with
      | [] =>
          rw [List.mem_singleton.1 hmem]
          exact ⟨base, code, h, hplaced, fun below => ⟨.refl _, .refl _⟩⟩
      | second :: more =>
          obtain ⟨first, hfirst, h⟩ := bind_eq_ok.1 h
          obtain ⟨others, hothers, h⟩ := bind_eq_ok.1 h
          cases h
          obtain ⟨hhead, htail⟩ := placed_append.1 hplaced
          obtain ⟨hsplit, hhead⟩ := placed_cons.1 hhead
          rw [List.length_cons, Nat.add_comm first.length, ← Nat.add_assoc] at htail
          obtain ⟨hjump, htail⟩ := placed_cons.1 htail
          rw [show ∀ a b : Inst, base + (a :: first ++ b :: others).length
            = base + 1 + first.length + 1 + others.length by simp; omega]
          rcases List.mem_cons.1 hmem with rfl | hmem
          · exact ⟨base + 1, first, hfirst, hhead, fun below =>
              ⟨runs_left hsplit.inst below, runs_jump hjump.inst below⟩⟩
          · obtain ⟨place, part, hpart, hplaced', hruns⟩ := ih hmem hothers htail
            refine ⟨place, part, hpart, hplaced', fun below => ⟨?_, (hruns below).2⟩⟩
            exact (runs_right hsplit.inst below).trans (hruns below).1

/-- The parts of a repetition's code. -/
theorem emitted_rep (h : emitNode names (.rep inner m none) base = .ok code)
    (hplaced : Placed rules r base code) :
    ∃ head body, emitTimes (emitNode names inner) m base = .ok head
      ∧ Placed rules r base head
      ∧ emitNode names inner (base + head.length + 1) = .ok body
      ∧ Placed rules r (base + head.length + 1) body
      ∧ instAt rules ⟨r, base + head.length⟩
        = .split (base + head.length + 1) (base + head.length + 1 + body.length + 1)
      ∧ instAt rules ⟨r, base + head.length + 1 + body.length⟩
        = .jump (base + head.length)
      ∧ base + code.length = base + head.length + 1 + body.length + 1 := by
  unfold emitNode at h
  obtain ⟨head, hhead, h⟩ := bind_eq_ok.1 h
  obtain ⟨body, hbody, h⟩ := bind_eq_ok.1 h
  cases h
  rw [List.append_assoc] at hplaced ⊢
  obtain ⟨hplaced, hloop⟩ := placed_append.1 hplaced
  obtain ⟨hsplit, hjump⟩ := placed_append.1 hloop
  obtain ⟨hsplit, hbody'⟩ := placed_cons.1 hsplit
  rw [List.length_cons, Nat.add_comm body.length, ← Nat.add_assoc] at hjump
  refine ⟨head, body, hhead, hplaced, hbody, hbody', hsplit.inst, hjump.inst, ?_⟩
  simp
  omega

theorem through_rep {n : Option Nat}
    (h : ∀ w ∈ words, Through rules root (emitNode names inner) w)
    (least : m ≤ words.length)
    (most : ∀ total, n = some total → words.length ≤ total) :
    Through rules root (emitNode names (.rep inner m n)) words.flatten := by
  intro r base code hcode hplaced below
  obtain ⟨before, after, rfl, hlen⟩ : ∃ before after, words = before ++ after
      ∧ before.length = m :=
    ⟨words.take m, words.drop m, (List.take_append_drop m words).symm,
      by simpa using least⟩
  have hbefore : ∀ w ∈ before, Through rules root (emitNode names inner) w :=
    fun w hw => h w (List.mem_append_left after hw)
  have hafter : ∀ w ∈ after, Through rules root (emitNode names inner) w :=
    fun w hw => h w (List.mem_append_right before hw)
  have htimes := through_times hbefore
  rw [hlen] at htimes
  rw [List.flatten_append]
  match n with
  | none =>
      obtain ⟨head, body, hhead, hplaced, hbody, hbody', hsplit, hjump, hend⟩ :=
        emitted_rep hcode hplaced
      have hrounds : Runs rules root ⟨⟨r, base + head.length⟩, below⟩ after.flatten
          ⟨⟨r, base + head.length⟩, below⟩ := runs_rounds hsplit hjump
        (fun w hw below => hafter w hw r _ _ hbody hbody' below) below
      rw [hend]
      apply (htimes r _ _ hhead hplaced below).trans
      simpa using hrounds.trans (runs_right hsplit below)
  | some total =>
      unfold emitNode at hcode
      obtain ⟨head, hhead, hcode⟩ := bind_eq_ok.1 hcode
      obtain ⟨others, hothers, hcode⟩ := bind_eq_ok.1 hcode
      cases hcode
      obtain ⟨hplaced, hplaced'⟩ := placed_append.1 hplaced
      have hmost := most total rfl
      rw [List.length_append] at hmost
      have hoptional := through_optional hafter (k := total - m) (by omega)
      rw [List.length_append, ← Nat.add_assoc]
      exact (htimes r _ _ hhead hplaced below).trans
        (hoptional r _ _ hothers hplaced' below)

theorem into_rep {n : Option Nat}
    (h : ∀ w ∈ words, Through rules root (emitNode names inner) w)
    (most : ∀ total, n = some total → words.length < total)
    (ht : Into rules root (emitNode names inner) t j) :
    Into rules root (emitNode names (.rep inner m n)) (words.flatten ++ t) j := by
  intro r base code hcode hplaced below
  by_cases hlt : words.length < m
  · -- among the copies there must be
    have hinto := into_times h ht hlt
    unfold emitNode at hcode
    obtain ⟨head, hhead, hcode⟩ := bind_eq_ok.1 hcode
    cases n with
    | none =>
        obtain ⟨body, -, hcode⟩ := bind_eq_ok.1 hcode
        cases hcode
        rw [List.append_assoc] at hplaced
        exact hinto r _ _ hhead (placed_append.1 hplaced).1 below
    | some total =>
        obtain ⟨others, -, hcode⟩ := bind_eq_ok.1 hcode
        cases hcode
        exact hinto r _ _ hhead (placed_append.1 hplaced).1 below
  · obtain ⟨before, after, rfl, hlen⟩ : ∃ before after, words = before ++ after
        ∧ before.length = m :=
      ⟨words.take m, words.drop m, (List.take_append_drop m words).symm, by
        simpa using Nat.le_of_not_lt hlt⟩
    have hbefore : ∀ w ∈ before, Through rules root (emitNode names inner) w :=
      fun w hw => h w (List.mem_append_left after hw)
    have hafter : ∀ w ∈ after, Through rules root (emitNode names inner) w :=
      fun w hw => h w (List.mem_append_right before hw)
    have htimes := through_times hbefore
    rw [hlen] at htimes
    rw [List.flatten_append, List.append_assoc]
    cases n with
    | none =>
        obtain ⟨head, body, hhead, hplaced, hbody, hbody', hsplit, hjump, -⟩ :=
          emitted_rep hcode hplaced
        have hrounds : Runs rules root ⟨⟨r, base + head.length⟩, below⟩ after.flatten
          ⟨⟨r, base + head.length⟩, below⟩ := runs_rounds hsplit hjump
          (fun w hw below => hafter w hw r _ _ hbody hbody' below) below
        obtain ⟨st, hdepth, hrun⟩ := ht r _ _ hbody hbody' below
        refine ⟨st, hdepth,
          (htimes r _ _ hhead hplaced below).trans (hrounds.trans ?_)⟩
        exact (runs_left hsplit below).trans hrun
    | some total =>
        unfold emitNode at hcode
        obtain ⟨head, hhead, hcode⟩ := bind_eq_ok.1 hcode
        obtain ⟨others, hothers, hcode⟩ := bind_eq_ok.1 hcode
        cases hcode
        obtain ⟨hplaced, hplaced'⟩ := placed_append.1 hplaced
        have hmost := most total rfl
        rw [List.length_append] at hmost
        have hoptional := into_optional hafter ht (k := total - m) (by omega)
        obtain ⟨st, hdepth, hrun⟩ := hoptional r _ _ hothers hplaced' below
        exact ⟨st, hdepth, (htimes r _ _ hhead hplaced below).trans hrun⟩

variable {grammar : List (Text × Node)}

/-- A call and the callee's code. -/
theorem emitted_ref (h : Compiled grammar rules) {name : Text} {body : Node}
    (hbody : bodyOf grammar name = some body)
    (hcode : emitNode (grammar.map (·.1)) (.ref name) base = .ok code)
    (hplaced : Placed rules r base code) : code.length = 1 ∧ ∃ id part,
      emitNode (grammar.map (·.1)) body 0 = .ok part ∧ Placed rules id 0 part
      ∧ instAt rules ⟨id, part.length⟩ = .ret
      ∧ ∀ below, Runs rules root ⟨⟨r, base⟩, below⟩ []
        ⟨⟨id, 0⟩, ⟨r, base + 1⟩ :: below⟩ := by
  unfold emitNode at hcode
  split at hcode
  next id hid =>
    cases hcode
    obtain ⟨body', part, hbody', -, hpart, hprog⟩ := h.rule hid
    cases hbody.symm.trans hbody'
    obtain ⟨hplaced', hret⟩ := placed_body hprog
    refine ⟨rfl, id, part, hpart, hplaced', hret, fun below => ?_⟩
    have hflow : flow rules ⟨⟨r, base⟩, below⟩
        = some [⟨⟨id, 0⟩, ⟨r, base + 1⟩ :: below⟩] := by
      rw [flow, hplaced.inst]
      rfl
    exact .move hflow (List.mem_singleton_self _) (.refl _)
  · cases hcode

/-- The machine runs through a node on each of its strings. -/
theorem through_node (h : Compiled grammar rules) {node : Node}
    (hs : Derives grammar node s) : Through rules root
    (emitNode (grammar.map (·.1)) node) s := by
  induction hs with
  | str cps =>
      intro r base code hcode hplaced below
      cases hcode
      induction cps generalizing base with
      | nil => exact .refl _
      | cons c cps ih =>
          obtain ⟨hinst, hplaced⟩ := placed_cons.1 hplaced
          have hread : Runs rules root ⟨⟨r, base⟩, below⟩ [c]
              ⟨⟨r, base + 1⟩, below⟩ :=
            .read (by simp [hinst.inst, Inst.consumes])
          rw [List.map_cons, List.length_cons, Nat.add_comm _ 1, ← Nat.add_assoc]
          exact hread.trans (ih _ hplaced)
  | cls hc =>
      intro r base code hcode hplaced below
      cases hcode
      exact .read (by simpa [hplaced.inst, Inst.consumes] using hc)
  | any c =>
      intro r base code hcode hplaced below
      cases hcode
      exact .read (by simp [hplaced.inst, Inst.consumes])
  | seqNil =>
      intro r base code hcode hplaced below
      cases hcode
      exact .refl _
  | seqCons _ _ ihhead ihtail =>
      intro r base code hcode hplaced below
      obtain ⟨first, hfirst, hcode⟩ := bind_eq_ok.1 hcode
      obtain ⟨others, hothers, hcode⟩ := bind_eq_ok.1 hcode
      cases hcode
      obtain ⟨hplaced, hplaced'⟩ := placed_append.1 hplaced
      rw [List.length_append, ← Nat.add_assoc]
      exact (ihhead r _ _ hfirst hplaced below).trans
        (ihtail r _ _ hothers hplaced' below)
  | alt hmem _ ih =>
      intro r base code hcode hplaced below
      obtain ⟨place, part, hpart, hplaced', hruns⟩ :=
        emitted_branch hmem hcode hplaced
      have hthrough := (hruns below).1.trans (ih r _ _ hpart hplaced' below)
      simpa using hthrough.trans (hruns below).2
  | rep _ least most ih => exact through_rep ih least most
  | ref hbody _ ih =>
      intro r base code hcode hplaced below
      obtain ⟨hlen, id, part, hpart, hplaced', hret, hcall⟩ :=
        emitted_ref h hbody hcode hplaced
      have hrun :=
        (hcall below).trans
        (ih id 0 part hpart hplaced' (⟨r, base + 1⟩ :: below))
      rw [Nat.zero_add] at hrun
      have hflow : flow rules ⟨⟨id, part.length⟩, ⟨r, base + 1⟩ :: below⟩
          = some [⟨⟨r, base + 1⟩, below⟩] := by
        rw [flow, hret]
      have hreturn : Runs rules root ⟨⟨id, part.length⟩, ⟨r, base + 1⟩ :: below⟩ []
          ⟨⟨r, base + 1⟩, below⟩ := .move hflow (List.mem_singleton_self _) (.refl _)
      rw [hlen]
      simpa using hrun.trans hreturn

/-- The machine runs as far into a node as a parse of it. -/
theorem into_node (h : Compiled grammar rules) {node : Node}
    (hs : Opens grammar node s k) : Into rules root
    (emitNode (grammar.map (·.1)) node) s k := by
  induction hs with
  | start node => exact into_start _
  | done hs => exact (through_node h hs).into
  | str cps i =>
      intro r base code hcode hplaced below
      cases hcode
      rw [← List.take_append_drop i cps, List.map_append] at hplaced
      have hthrough :
          Through rules root (emitNode (grammar.map (·.1)) (.str (cps.take i)))
          (cps.take i) := through_node h (.str (cps.take i))
      exact ⟨_, rfl, hthrough r base _ rfl (placed_append.1 hplaced).1 below⟩
  | seqHead _ ih =>
      intro r base code hcode hplaced below
      obtain ⟨first, hfirst, hcode⟩ := bind_eq_ok.1 hcode
      obtain ⟨others, hothers, hcode⟩ := bind_eq_ok.1 hcode
      cases hcode
      exact ih r _ _ hfirst (placed_append.1 hplaced).1 below
  | seqTail head _ ih =>
      intro r base code hcode hplaced below
      obtain ⟨first, hfirst, hcode⟩ := bind_eq_ok.1 hcode
      obtain ⟨others, hothers, hcode⟩ := bind_eq_ok.1 hcode
      cases hcode
      obtain ⟨hplaced, hplaced'⟩ := placed_append.1 hplaced
      obtain ⟨st, hdepth, hrun⟩ := ih r _ _ hothers hplaced' below
      exact ⟨st, hdepth, (through_node h head r _ _ hfirst hplaced below).trans hrun⟩
  | alt hmem _ ih =>
      intro r base code hcode hplaced below
      obtain ⟨place, part, hpart, hplaced', hruns⟩ :=
        emitted_branch hmem hcode hplaced
      obtain ⟨st, hdepth, hrun⟩ := ih r _ _ hpart hplaced' below
      exact ⟨st, hdepth, (hruns below).1.trans hrun⟩
  | rep each most _ ih =>
      exact into_rep (fun w hw => through_node h (each w hw)) most ih
  | ref hbody _ ih =>
      intro r base code hcode hplaced below
      obtain ⟨-, id, part, hpart, hplaced', -, hcall⟩ :=
        emitted_ref h hbody hcode hplaced
      obtain ⟨st, hdepth, hrun⟩ :=
        ih id 0 part hpart hplaced' (⟨r, base + 1⟩ :: below)
      refine ⟨st, ?_, (hcall below).trans hrun⟩
      rw [hdepth, List.length_cons]
      omega

-- ========================== whole runs

/-- The depths the machine can reach are those of the parses. -/
theorem reach_iff (h : Compiled grammar rules)
    (hroot : idOf (grammar.map (·.1)) "root".toList = some root) :
    (∃ st, st.depth = k + 1 ∧ Runs rules root ⟨⟨root, 0⟩, []⟩ s st)
      ↔ Opens grammar (.ref "root".toList) s (k + 1) := by
  constructor
  · rintro ⟨st, hdepth, x, hpath, rfl⟩
    rw [← hdepth]
    exact (path_root h hroot hpath).1
  · intro hs
    cases hs with
    | ref hbody hs =>
        obtain ⟨body, code, hbody', -, hcode, hprog⟩ := h.rule hroot
        cases hbody.symm.trans hbody'
        obtain ⟨st, hdepth, hrun⟩ :=
          into_node h hs root 0 code hcode (placed_body hprog).1 []
        exact ⟨st, by simpa [Nat.add_comm] using hdepth, hrun⟩

/-- The machine accepts what the grammar derives. -/
theorem accepts_iff (h : Compiled grammar rules)
    (hroot : idOf (grammar.map (·.1)) "root".toList = some root) :
    s ∈ (stackMachine rules root).accepts
      ↔ Derives grammar (.ref "root".toList) s := by
  rw [εNFA.mem_accepts_iff_exists_path]
  constructor
  · rintro ⟨init, fin, x, rfl, hfin, rfl, hpath⟩
    exact (path_root h hroot hpath).2 hfin
  · intro hs
    cases hs with
    | ref hbody hs =>
        obtain ⟨body, code, hbody', -, hcode, hprog⟩ := h.rule hroot
        cases hbody.symm.trans hbody'
        obtain ⟨hplaced, hret⟩ := placed_body hprog
        obtain ⟨x, hpath, hx⟩ :=
          through_node h hs root 0 code hcode hplaced []
        rw [Nat.zero_add] at hpath
        exact ⟨_, _, x, rfl, ⟨rfl, hret⟩, hx, hpath⟩

end Complete

end Minfer.Gbnf
