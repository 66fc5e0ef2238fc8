/-
Joining neighbours of a list, best pair first: the plain scan and a priority
queue with lazy deletion, which end with the same list.

The scan looks for the leftmost of the pairs with the highest score, joins
it, and starts over. The queue holds a candidate for every scored pair of
neighbours, under the names of its two cells; joining two cells leaves the
candidates of both behind, and one is known to be out of date by its size
when it is taken.

What carries the argument is `Tracks`: every scored pair of neighbours is
queued, and a queued candidate whose cells both stand and whose size is
still theirs is such a pair. So the greatest candidate is out of date, or
the pair that the scan takes.
-/
import Mathlib.Data.List.Basic
import Mathlib.Order.Compare
import Mathlib.Order.Lattice
import Mathlib.Logic.Relation

namespace Minfer.Lib.MergeQueue

-- ============================ the scan

section Scan

variable {α σ : Type} (join : α → α → α) (score : α → α → Option σ)
  (cmp : σ → σ → Ordering)

/-- The leftmost of the pairs with the highest score. -/
def best : List α → Option (Nat × σ)
  | x :: y :: rest =>
      match score x y, best (y :: rest) with
      | none, later => later.map fun p => (p.1 + 1, p.2)
      | some s, none => some (0, s)
      | some s, some (i, t) => if cmp t s = .gt then some (i + 1, t) else some (0, s)
  | _ => none

/-- Join the elements at `i` and after it. -/
def joinAt : Nat → List α → List α
  | 0, x :: y :: rest => join x y :: rest
  | i + 1, x :: rest => x :: joinAt i rest
  | _, l => l

/-- Scan and join until no pair has a score. -/
def exhaust : Nat → List α → List α
  | 0, l => l
  | fuel + 1, l =>
      match best score cmp l with
      | some (i, _) => exhaust fuel (joinAt join i l)
      | none => l

end Scan

-- =========================== the queue

/-- A queued pair: its score when it was queued, its cells' names, and their
sizes together. -/
structure Candidate (σ : Type) where
  score : σ
  left : Nat
  right : Nat
  size : Nat

/-- By score, then the smaller left name is the greater. -/
def Candidate.cmp {σ : Type} (cmp : σ → σ → Ordering) (b c : Candidate σ) :
    Ordering :=
  (cmp b.score c.score).then (compare c.left b.left)

section Queue

variable {α σ : Type} (join : α → α → α) (score : α → α → Option σ)
  (cmp : σ → σ → Ordering) (size : α → Nat)

/-- Two cells stand next to each other. -/
def Neighbours (cells : List (Nat × α)) (c d : Nat × α) : Prop :=
  ∃ pre post, cells = pre ++ c :: d :: post

/-- The candidate is what the cells would queue now. -/
def Current (cells : List (Nat × α)) (b : Candidate σ) : Prop :=
  ∃ c d, Neighbours cells c d ∧ score c.2 d.2 = some b.score ∧ b.left = c.1
    ∧ b.right = d.1
    ∧ b.size = size c.2 + size d.2

/-- One of the two cells was joined into its neighbour, or grew. -/
def Stale (cells : List (Nat × α)) (b : Candidate σ) : Prop :=
  ∀ x y, (b.left, x) ∈ cells → (b.right, y) ∈ cells → size x + size y ≠ b.size

/-- No candidate of the queue comes before this one. -/
def Greatest (queue : List (Candidate σ)) (b : Candidate σ) : Prop :=
  ∀ c ∈ queue, Candidate.cmp cmp c b ≠ .gt

/-- One candidate leaves the queue: it is dropped, or its cells are joined and
the new pairs are queued. -/
inductive Step : List (Nat × α) × List (Candidate σ) →
    List (Nat × α) × List (Candidate σ) → Prop
  | drop {cells : List (Nat × α)} {queue rest : List (Candidate σ)} {b : Candidate σ}
      (taken : queue.Perm (b :: rest)) (stale : Stale size cells b) :
      Step (cells, queue) (cells, rest)
  | merge {pre post : List (Nat × α)} {i j : Nat} {x y : α}
      {queue rest added : List (Candidate σ)} {b : Candidate σ}
      (taken : queue.Perm (b :: rest)) (greatest : Greatest cmp queue b)
        (left : b.left = i)
      (right : b.right = j) (fits : b.size = size x + size y)
      (new : ∀ c ∈ added, Current score size (pre ++ (i, join x y) :: post) c)
      (all : ∀ c, Current score size (pre ++ (i, join x y) :: post) c →
        c.left = i ∨ c.right = i → c ∈ added) :
      Step (pre ++ (i, x) :: (j, y) :: post, queue)
        (pre ++ (i, join x y) :: post, added ++ rest)

/-- The queue is that of these cells. -/
structure Tracks (cells : List (Nat × α)) (queue : List (Candidate σ)) : Prop where
  ascending : (cells.map Prod.fst).Pairwise (· < ·)
  filled : ∀ c ∈ cells, 0 < size c.2
  complete : ∀ b, Current score size cells b → b ∈ queue
  sound : ∀ b ∈ queue, ∀ x y, (b.left, x) ∈ cells → (b.right, y) ∈ cells →
    Neighbours cells (b.left, x) (b.right, y) ∧ b.size ≤ size x + size y
      ∧ (b.size = size x + size y → score x y = some b.score)

end Queue

-- =================== the scan's choice

section ScanProofs

variable {α σ κ : Type} [LinearOrder κ] {join : α → α → α}
  {score : α → α → Option σ} {cmp : σ → σ → Ordering} {rank : σ → κ}
  {l : List α} {i : Nat} {s : σ}

/-- The elements at `i` and after it have a score. -/
def Scored (score : α → α → Option σ) (l : List α) (i : Nat) (s : σ) : Prop :=
  ∃ x y, l[i]? = some x ∧ l[i + 1]? = some y ∧ score x y = some s

/-- On the scores in play, `cmp` is the order of a rank. -/
def Ranked (score : α → α → Option σ) (cmp : σ → σ → Ordering) (rank : σ → κ) :
    Prop :=
  ∀ x y s, score x y = some s → ∀ x' y' t, score x' y' = some t →
    cmp s t = compare (rank s) (rank t)

theorem scored_zero {x y : α} {rest : List α} :
    Scored score (x :: y :: rest) 0 s ↔ score x y = some s := by
  constructor
  · intro ⟨x', y', hx, hy, hs⟩
    obtain rfl := Option.some.inj hx
    obtain rfl := Option.some.inj hy
    exact hs
  · intro hs
    exact ⟨x, y, rfl, rfl, hs⟩

theorem scored_succ {x : α} {rest : List α} :
    Scored score (x :: rest) (i + 1) s ↔ Scored score rest i s := Iff.rfl

theorem Scored.unique {t : σ} (h : Scored score l i s)
    (h' : Scored score l i t) : s = t := by
  obtain ⟨x, y, hx, hy, hs⟩ := h
  obtain ⟨x', y', hx', hy', ht⟩ := h'
  obtain rfl := Option.some.inj (hx.symm.trans hx')
  obtain rfl := Option.some.inj (hy.symm.trans hy')
  exact Option.some.inj (hs.symm.trans ht)

/-- Nothing before `i` is as high, and nothing after it is higher. -/
def Leads (score : α → α → Option σ) (rank : σ → κ) (l : List α) (i : Nat)
    (s : σ) : Prop :=
  Scored score l i s ∧
    ∀ j t, Scored score l j t → rank t ≤ rank s ∧ (rank t = rank s → i ≤ j)

theorem Leads.unique {j : Nat} {t : σ} (h : Leads score rank l i s)
    (h' : Leads score rank l j t) :
    (i, s) = (j, t) := by
  have hle := h.2 j t h'.1
  have hle' := h'.2 i s h.1
  have hrank : rank t = rank s := le_antisymm hle.1 hle'.1
  obtain rfl : i = j := Nat.le_antisymm (hle.2 hrank) (hle'.2 hrank.symm)
  rw [h.1.unique h'.1]

/-- What the scan returns. -/
theorem best_spec (hcmp : Ranked score cmp rank) (l : List α) :
    (best score cmp l = none ∧ ∀ i s, ¬ Scored score l i s)
      ∨ ∃ i s, best score cmp l = some (i, s) ∧ Leads score rank l i s := by
  induction l with
  | nil =>
      refine Or.inl ⟨rfl, fun i s h => ?_⟩
      obtain ⟨x, y, hx, -⟩ := h
      cases hx
  | cons x l ih =>
      cases l with
      | nil =>
          refine Or.inl ⟨rfl, fun i s h => ?_⟩
          obtain ⟨x', y', -, hy, -⟩ := h
          cases hy
      | cons y rest =>
          cases hxy : score x y with
          | none =>
              -- the first pair has no score: what the rest has, one place on
              have hfirst (t : σ) : ¬ Scored score (x :: y :: rest) 0 t := by
                rw [scored_zero, hxy]
                intro h
                cases h
              rcases ih with ⟨hnone, hall⟩ | ⟨i, s, hsome, hs, hlead⟩
              · refine Or.inl ⟨by rw [best, hxy, hnone]; rfl, fun j t h => ?_⟩
                cases j with
                | zero => exact hfirst t h
                | succ j => exact hall j t (scored_succ.1 h)
              · refine Or.inr ⟨i + 1, s, by rw [best, hxy, hsome]; rfl,
                  scored_succ.2 hs, ?_⟩
                intro j t h
                cases j with
                | zero => exact absurd h (hfirst t)
                | succ j =>
                    obtain ⟨hle, hat⟩ := hlead j t (scored_succ.1 h)
                    exact ⟨hle, fun heq => Nat.succ_le_succ (hat heq)⟩
          | some s =>
              have hfirst : Scored score (x :: y :: rest) 0 s := scored_zero.2 hxy
              rcases ih with ⟨hnone, hall⟩ | ⟨i, t, hsome, ht, hlead⟩
              · refine Or.inr ⟨0, s, by rw [best, hxy, hnone], hfirst,
                  fun j u h => ?_⟩
                cases j with
                | zero => exact ⟨le_of_eq (congrArg rank (h.unique hfirst)),
                    fun _ => Nat.le_refl 0⟩
                | succ j => exact absurd (scored_succ.1 h) (hall j u)
              · obtain ⟨x', y', -, -, hx'y'⟩ := id ht
                have hts := hcmp _ _ _ hx'y' _ _ _ hxy
                by_cases hgt : cmp t s = .gt
                · -- the rest has a higher one
                  have hlt : rank s < rank t := compare_gt_iff_gt.1 (hts ▸ hgt)
                  refine Or.inr ⟨i + 1, t, by rw [best, hxy, hsome]; exact if_pos hgt,
                    scored_succ.2 ht, fun j u h => ?_⟩
                  cases j with
                  | zero =>
                      rw [h.unique hfirst]
                      exact ⟨le_of_lt hlt, fun heq => absurd heq (ne_of_lt hlt)⟩
                  | succ j =>
                      obtain ⟨hle, hat⟩ := hlead j u (scored_succ.1 h)
                      exact ⟨hle, fun heq => Nat.succ_le_succ (hat heq)⟩
                · have hle : rank t ≤ rank s := compare_le_iff_le.1 (hts ▸ hgt)
                  refine Or.inr
                    ⟨0, s, by rw [best, hxy, hsome]; exact if_neg hgt, hfirst,
                    fun j u h => ?_⟩
                  cases j with
                  | zero =>
                      rw [h.unique hfirst]
                      exact ⟨le_refl _, fun _ => Nat.le_refl 0⟩
                  | succ j =>
                      exact ⟨le_trans (hlead j u (scored_succ.1 h)).1 hle,
                        fun _ => Nat.zero_le _⟩

theorem best_of_leads (hcmp : Ranked score cmp rank) (h : Leads score rank l i s) :
    best score cmp l = some (i, s) := by
  rcases best_spec hcmp l with ⟨-, hnone⟩ | ⟨j, t, hsome, ht⟩
  · exact absurd h.1 (hnone i s)
  · rw [hsome, ht.unique h]

theorem best_of_unscored (hcmp : Ranked score cmp rank)
    (h : ∀ i s, ¬ Scored score l i s) :
    best score cmp l = none := by
  rcases best_spec hcmp l with ⟨hnone, -⟩ | ⟨j, t, -, ht⟩
  · exact hnone
  · exact absurd ht.1 (h j t)

variable (join) in
theorem joinAt_append (pre : List α) (x y : α) (post : List α) :
    joinAt join pre.length (pre ++ x :: y :: post) = pre ++ join x y :: post := by
  induction pre with
  | nil => rfl
  | cons p pre ih => exact congrArg (p :: ·) ih

theorem exhaust_of_none (h : best score cmp l = none) (fuel : Nat) :
    exhaust join score cmp fuel l = l := by
  cases fuel with
  | zero => rfl
  | succ fuel => rw [exhaust, h]

theorem exhaust_of_some (h : best score cmp l = some (i, s)) (fuel : Nat) :
    exhaust join score cmp (fuel + 1) l
      = exhaust join score cmp fuel (joinAt join i l) := by
  rw [exhaust, h]

end ScanProofs

-- ========================== neighbours

section NeighbourProofs

variable {α : Type} {l l' : List (Nat × α)} {c d : Nat × α}

theorem not_neighbours_nil : ¬ Neighbours ([] : List (Nat × α)) c d := by
  intro ⟨pre, post, h⟩
  cases pre <;> cases h

theorem neighbours_cons {b : Nat × α} :
    Neighbours (b :: l) c d ↔ (b = c ∧ l.head? = some d) ∨ Neighbours l c d := by
  constructor
  · intro ⟨pre, post, h⟩
    cases pre with
    | nil =>
        obtain ⟨hb, hl⟩ := List.cons.inj h
        exact Or.inl ⟨hb, by rw [hl]; rfl⟩
    | cons p pre => exact Or.inr ⟨pre, post, (List.cons.inj h).2⟩
  · intro h
    rcases h with ⟨rfl, hd⟩ | ⟨pre, post, rfl⟩
    · obtain ⟨post, rfl⟩ := List.head?_eq_some_iff.1 hd
      exact ⟨[], post, rfl⟩
    · exact ⟨b :: pre, post, rfl⟩

theorem neighbours_append :
    Neighbours (l ++ l') c d ↔
      Neighbours l c d ∨ (l.getLast? = some c ∧ l'.head? = some d)
        ∨ Neighbours l' c d := by
  induction l with
  | nil =>
      rw [List.nil_append]
      constructor
      · exact fun h => Or.inr (Or.inr h)
      · intro h
        rcases h with h | ⟨h, -⟩ | h
        · exact absurd h not_neighbours_nil
        · cases h
        · exact h
  | cons b l ih =>
      rw [List.cons_append, neighbours_cons, neighbours_cons, ih]
      cases l with
      | nil =>
          have h : ¬ Neighbours ([] : List (Nat × α)) c d := not_neighbours_nil
          simp [h]
      | cons b' l =>
          rw [List.getLast?_cons_cons]
          exact or_assoc.symm

theorem Neighbours.mem_left (h : Neighbours l c d) : c ∈ l := by
  obtain ⟨pre, post, rfl⟩ := h
  exact List.mem_append_right _ List.mem_cons_self

theorem Neighbours.mem_right (h : Neighbours l c d) : d ∈ l := by
  obtain ⟨pre, post, rfl⟩ := h
  exact List.mem_append_right _ (List.mem_cons_of_mem _ List.mem_cons_self)

theorem getElem?_here (pre post : List (Nat × α)) :
    (pre ++ c :: post)[pre.length]? = some c := by
  rw [List.getElem?_append_right (Nat.le_refl _), Nat.sub_self,
    List.getElem?_cons_zero]

theorem getElem?_next (pre post : List (Nat × α)) :
    (pre ++ c :: d :: post)[pre.length + 1]? = some d := by
  rw [List.getElem?_append_right (Nat.le_add_right _ _),
    Nat.add_sub_cancel_left, List.getElem?_cons_succ, List.getElem?_cons_zero]

theorem neighbours_of_getElem? {k : Nat} (hc : l[k]? = some c)
    (hd : l[k + 1]? = some d) :
    Neighbours l c d := by
  obtain ⟨hk, hc⟩ := List.getElem?_eq_some_iff.1 hc
  obtain ⟨hk', hd⟩ := List.getElem?_eq_some_iff.1 hd
  refine ⟨l.take k, l.drop (k + 2), ?_⟩
  rw [← hc, ← hd, ← List.drop_eq_getElem_cons hk',
    ← List.drop_eq_getElem_cons hk, List.take_append_drop]

/-- Cells of one name are one cell. -/
theorem eq_of_ascending (h : (l.map Prod.fst).Pairwise (· < ·)) {i : Nat}
    {x y : α} (hx : (i, x) ∈ l) (hy : (i, y) ∈ l) : x = y := by
  induction l with
  | nil => cases hx
  | cons c l ih =>
      obtain ⟨hc, hl⟩ := List.pairwise_cons.1 h
      have hlt {z : α} (hz : (i, z) ∈ l) : c.1 < i :=
        hc i (List.mem_map_of_mem (f := Prod.fst) hz)
      rcases List.mem_cons.1 hx with rfl | hx
      · rcases List.mem_cons.1 hy with hy | hy
        · exact (Prod.mk.inj hy).2.symm
        · exact absurd (hlt hy) (Nat.lt_irrefl _)
      · rcases List.mem_cons.1 hy with hy | hy
        · exact absurd (hy ▸ hlt hx) (Nat.lt_irrefl _)
        · exact ih hl hx hy

/-- Names grow along the list. -/
theorem lt_of_ascending (h : (l.map Prod.fst).Pairwise (· < ·)) {i j : Nat}
    (hij : i < j) (hc : l[i]? = some c) (hd : l[j]? = some d) : c.1 < d.1 := by
  obtain ⟨hi, hc⟩ := List.getElem?_eq_some_iff.1 hc
  obtain ⟨hj, hd⟩ := List.getElem?_eq_some_iff.1 hd
  have := List.pairwise_iff_getElem.1 h i j (by rwa [List.length_map])
    (by rwa [List.length_map]) hij
  rwa [List.getElem_map, List.getElem_map, hc, hd] at this

theorem Neighbours.lt (h : (l.map Prod.fst).Pairwise (· < ·))
    (hcd : Neighbours l c d) :
    c.1 < d.1 := by
  obtain ⟨pre, post, rfl⟩ := hcd
  exact lt_of_ascending h (Nat.lt_succ_self _) (getElem?_here pre _)
    (getElem?_next pre post)

/-- The names before and after a cell's. -/
theorem names_around (h : ((l ++ c :: l').map Prod.fst).Pairwise (· < ·)) :
    (∀ d ∈ l, d.1 < c.1) ∧ ∀ d ∈ l', c.1 < d.1 := by
  rw [List.map_append, List.pairwise_append, List.map_cons, List.pairwise_cons] at h
  obtain ⟨-, ⟨hright, -⟩, hleft⟩ := h
  exact ⟨fun d hd => hleft d.1 (List.mem_map_of_mem hd) c.1 List.mem_cons_self,
    fun d hd => hright d.1 (List.mem_map_of_mem hd)⟩

theorem name_alone (h : ((l ++ c :: l').map Prod.fst).Pairwise (· < ·)) :
    c ∉ l ∧ c ∉ l' :=
  ⟨fun hc => Nat.lt_irrefl _ ((names_around h).1 c hc),
    fun hc => Nat.lt_irrefl _ ((names_around h).2 c hc)⟩

/-- The right neighbour of a cell is the one after it. -/
theorem neighbours_right (h : ((l ++ c :: l').map Prod.fst).Pairwise (· < ·))
    (hcd : Neighbours (l ++ c :: l') c d) : l'.head? = some d := by
  obtain ⟨hl, hl'⟩ := name_alone h
  rw [neighbours_append, neighbours_cons] at hcd
  rcases hcd with hcd | ⟨hcd, -⟩ | ⟨-, hcd⟩ | hcd
  · exact absurd hcd.mem_left hl
  · exact absurd (List.mem_of_getLast? hcd) hl
  · exact hcd
  · exact absurd hcd.mem_left hl'

/-- The left neighbour of a cell is the one before it. -/
theorem neighbours_left (h : ((l ++ d :: l').map Prod.fst).Pairwise (· < ·))
    (hcd : Neighbours (l ++ d :: l') c d) : l.getLast? = some c := by
  obtain ⟨hl, hl'⟩ := name_alone h
  rw [neighbours_append, neighbours_cons] at hcd
  rcases hcd with hcd | ⟨hcd, -⟩ | ⟨-, hcd⟩ | hcd
  · exact absurd hcd.mem_right hl
  · exact hcd
  · exact absurd (List.mem_of_head? hcd) hl'
  · exact absurd hcd.mem_right hl'

end NeighbourProofs

-- =========================== the queue

section QueueProofs

variable {α σ κ : Type} [LinearOrder κ] {join : α → α → α}
  {score : α → α → Option σ} {cmp : σ → σ → Ordering} {size : α → Nat}
  {rank : σ → κ} {cells pre post : List (Nat × α)}
  {queue rest added : List (Candidate σ)} {b : Candidate σ} {i j : Nat}
  {x y : α}

variable (size) in
theorem current_of_scored {k : Nat} {s : σ}
    (h : Scored score (cells.map Prod.snd) k s) :
    ∃ b, Current score size cells b ∧ b.score = s
      ∧ (cells[k]?).map Prod.fst = some b.left := by
  obtain ⟨x, y, hx, hy, hs⟩ := h
  rw [List.getElem?_map, Option.map_eq_some_iff] at hx hy
  obtain ⟨c, hc, rfl⟩ := hx
  obtain ⟨d, hd, rfl⟩ := hy
  exact ⟨⟨s, c.1, d.1, size c.2 + size d.2⟩,
    ⟨c, d, neighbours_of_getElem? hc hd, hs, rfl, rfl, rfl⟩, rfl, by
      rw [hc, Option.map_some]⟩

namespace Tracks

/-- A queue of what the cells would queue now. -/
theorem of_current (hasc : (cells.map Prod.fst).Pairwise (· < ·))
    (hpos : ∀ c ∈ cells, 0 < size c.2)
    (hall : ∀ b, b ∈ queue ↔ Current score size cells b) :
    Tracks score size cells queue where
  ascending := hasc
  filled := hpos
  complete b := (hall b).2
  sound b hb x y hx hy := by
    obtain ⟨c, d, hcd, hs, hl, hr, hsize⟩ := (hall b).1 hb
    obtain rfl : x = c.2 := eq_of_ascending hasc hx (hl ▸ hcd.mem_left)
    obtain rfl : y = d.2 := eq_of_ascending hasc hy (hr ▸ hcd.mem_right)
    rw [hl, hr]
    exact ⟨hcd, Nat.le_of_eq hsize, fun _ => hs⟩

/-- The greatest candidate, when its cells are as they were, is the pair the
scan takes. -/
theorem leads (h : Tracks score size (pre ++ (i, x) :: (j, y) :: post) queue)
    (hcmp : Ranked score cmp rank) (hb : b ∈ queue) (hgreatest : Greatest cmp queue b)
    (hl : b.left = i) (hr : b.right = j) (hfits : b.size = size x + size y) :
    Leads score rank ((pre ++ (i, x) :: (j, y) :: post).map Prod.snd)
      pre.length b.score := by
  have hx : (b.left, x) ∈ pre ++ (i, x) :: (j, y) :: post :=
    List.mem_append_right _ (hl ▸ List.mem_cons_self)
  have hy : (b.right, y) ∈ pre ++ (i, x) :: (j, y) :: post :=
    List.mem_append_right _ (hr ▸ List.mem_cons_of_mem _ List.mem_cons_self)
  obtain ⟨-, -, hscore⟩ := h.sound b hb x y hx hy
  have hxy := hscore hfits
  have hat := getElem?_here (c := (i, x)) pre ((j, y) :: post)
  refine ⟨⟨x, y, ?_, ?_, hxy⟩, fun k t hk => ?_⟩
  · rw [List.getElem?_map, hat, Option.map_some]
  · rw [List.getElem?_map, getElem?_next, Option.map_some]
  · obtain ⟨c, hcur, rfl, hleft⟩ := current_of_scored size hk
    obtain ⟨x', y', -, -, hx'y'⟩ := hk
    have hnot := hgreatest c (h.complete c hcur)
    rw [Candidate.cmp, hcmp _ _ _ hx'y' _ _ _ hxy] at hnot
    have hle : rank c.score ≤ rank b.score := by
      refine compare_le_iff_le.1 fun hgt => hnot ?_
      rw [hgt]
      rfl
    refine ⟨hle, fun heq => ?_⟩
    -- of one score: the smaller name is not further on
    have hname : b.left ≤ c.left := by
      refine Nat.le_of_not_lt fun hgt => hnot ?_
      rw [compare_eq_iff_eq.2 heq]
      exact Nat.compare_eq_gt.2 hgt
    refine Nat.le_of_not_lt fun hlt => ?_
    rw [Option.map_eq_some_iff] at hleft
    obtain ⟨d, hd, hdc⟩ := hleft
    have := lt_of_ascending h.ascending hlt hd hat
    rw [hdc, ← hl] at this
    exact absurd hname (Nat.not_le_of_lt this)

/-- With an empty queue no pair has a score. -/
theorem unscored (h : Tracks score size cells []) (k : Nat) (s : σ) :
    ¬ Scored score (cells.map Prod.snd) k s := by
  intro hk
  obtain ⟨b, hcur, -, -⟩ := current_of_scored size hk
  exact absurd (h.complete b hcur) List.not_mem_nil

theorem drop (h : Tracks score size cells queue) (htaken : queue.Perm (b :: rest))
    (hstale : Stale size cells b) : Tracks score size cells rest where
  ascending := h.ascending
  filled := h.filled
  complete c hc := by
    rcases List.mem_cons.1 (htaken.mem_iff.1 (h.complete c hc)) with rfl | hc'
    · -- what is current is not stale
      obtain ⟨p, q, hpq, -, hl, hr, hsize⟩ := hc
      exact absurd hsize.symm
        (hstale p.2 q.2 (hl ▸ hpq.mem_left) (hr ▸ hpq.mem_right))
    · exact hc'
  sound c hc := h.sound c (htaken.mem_iff.2 (List.mem_cons_of_mem _ hc))

/-- A cell that is not at `i` stands on both sides of a merge. -/
theorem mem_of_merged {k : Nat} {z : α} (hk : k ≠ i)
    (hz : (k, z) ∈ pre ++ (i, join x y) :: post) :
    (k, z) ∈ pre ++ (i, x) :: (j, y) :: post := by
  rcases List.mem_append.1 hz with hz | hz
  · exact List.mem_append_left _ hz
  · rcases List.mem_cons.1 hz with hz | hz
    · exact absurd (Prod.mk.inj hz).1 hk
    · exact List.mem_append_right _
        (List.mem_cons_of_mem _ (List.mem_cons_of_mem _ hz))

variable (join) in
theorem ascending_merged
    (h : ((pre ++ (i, x) :: (j, y) :: post).map Prod.fst).Pairwise (· < ·)) :
    ((pre ++ (i, join x y) :: post).map Prod.fst).Pairwise (· < ·) := by
  refine h.sublist ?_
  rw [List.map_append, List.map_append]
  exact (List.Sublist.refl _).append (((List.Sublist.refl _).cons _).cons_cons _)

/-- The names around two neighbours. -/
theorem names
    (h : ((pre ++ (i, x) :: (j, y) :: post).map Prod.fst).Pairwise (· < ·)) :
    (∀ c ∈ pre, c.1 < i) ∧ i < j ∧ ∀ c ∈ post, j < c.1 := by
  obtain ⟨hpre, hafter⟩ := names_around h
  have h' : (((pre ++ [(i, x)]) ++ (j, y) :: post).map Prod.fst).Pairwise
      (· < ·) := by
    rwa [List.append_assoc]
  exact ⟨hpre, hafter (j, y) List.mem_cons_self, (names_around h').2⟩

/-- The right cell's name is gone. -/
theorem right_gone
    (h : ((pre ++ (i, x) :: (j, y) :: post).map Prod.fst).Pairwise (· < ·))
    {z : α} : (j, z) ∉ pre ++ (i, join x y) :: post := by
  obtain ⟨hpre, hij, hpost⟩ := names h
  intro hz
  rcases List.mem_append.1 hz with hz | hz
  · exact Nat.lt_asymm hij (hpre _ hz)
  · rcases List.mem_cons.1 hz with hz | hz
    · exact absurd (Prod.mk.inj hz).1.symm (Nat.ne_of_lt hij)
    · exact Nat.lt_irrefl _ (hpost _ hz)

/-- Two other cells stand next to each other on both sides of a merge. -/
theorem neighbours_merged {p q : Nat × α} (hp : p.1 ≠ i) (hq : q.1 ≠ i)
    (hpj : p.1 ≠ j) (hqj : q.1 ≠ j) :
    Neighbours (pre ++ (i, x) :: (j, y) :: post) p q
      ↔ Neighbours (pre ++ (i, join x y) :: post) p q := by
  have hne {k : Nat} {z : α} {r : Nat × α} (hr : r.1 ≠ k) : (k, z) ≠ r := by
    intro h
    exact hr (h ▸ rfl)
  rw [neighbours_append, neighbours_append, neighbours_cons, neighbours_cons,
    neighbours_cons]
  simp [hne hp, hne hq, hne hpj, hne hqj]

theorem merge (hjoin : ∀ x y, size (join x y) = size x + size y)
    (h : Tracks score size (pre ++ (i, x) :: (j, y) :: post) queue)
    (htaken : queue.Perm (b :: rest)) (hl : b.left = i)
    (hnew : ∀ c ∈ added, Current score size (pre ++ (i, join x y) :: post) c)
    (hall : ∀ c, Current score size (pre ++ (i, join x y) :: post) c →
      c.left = i ∨ c.right = i → c ∈ added) :
    Tracks score size (pre ++ (i, join x y) :: post) (added ++ rest) := by
  have hasc := ascending_merged join h.ascending
  have hx : (i, x) ∈ pre ++ (i, x) :: (j, y) :: post :=
    List.mem_append_right _ List.mem_cons_self
  have hy : (j, y) ∈ pre ++ (i, x) :: (j, y) :: post :=
    List.mem_append_right _ (List.mem_cons_of_mem _ List.mem_cons_self)
  have hjoined : (i, join x y) ∈ pre ++ (i, join x y) :: post :=
    List.mem_append_right _ List.mem_cons_self
  refine ⟨hasc, fun c hc => ?_, fun c hc => ?_, fun c hc u v hu hv => ?_⟩
  · by_cases hci : c.1 = i
    · obtain ⟨k, z⟩ := c
      obtain rfl : k = i := hci
      rw [eq_of_ascending hasc hc hjoined, hjoin]
      exact Nat.add_pos_left (h.filled _ hx) _
    · exact h.filled c (mem_of_merged hci hc)
  · by_cases hat : c.left = i ∨ c.right = i
    · exact List.mem_append_left _ (hall c hc hat)
    · -- a pair the merge did not touch was queued before
      obtain ⟨hli, hri⟩ := not_or.1 hat
      refine List.mem_append_right _ ?_
      obtain ⟨p, q, hpq, hs, hcl, hcr, hsize⟩ := hc
      have hpj : p.1 ≠ j := by
        rintro rfl
        exact right_gone h.ascending hpq.mem_left
      have hqj : q.1 ≠ j := by
        rintro rfl
        exact right_gone h.ascending hpq.mem_right
      have hold := (neighbours_merged (hcl ▸ hli) (hcr ▸ hri) hpj hqj).2 hpq
      have hmem := h.complete c ⟨p, q, hold, hs, hcl, hcr, hsize⟩
      rcases List.mem_cons.1 (htaken.mem_iff.1 hmem) with rfl | hmem
      · exact absurd hl hli
      · exact hmem
  · rcases List.mem_append.1 hc with hc | hc
    · -- a new candidate is current
      obtain ⟨p, q, hpq, hs, hcl, hcr, hsize⟩ := hnew c hc
      obtain rfl : u = p.2 := eq_of_ascending hasc hu (hcl ▸ hpq.mem_left)
      obtain rfl : v = q.2 := eq_of_ascending hasc hv (hcr ▸ hpq.mem_right)
      rw [hcl, hcr]
      exact ⟨hpq, Nat.le_of_eq hsize, fun _ => hs⟩
    · have hold := h.sound c (htaken.mem_iff.2 (List.mem_cons_of_mem _ hc))
      by_cases hli : c.left = i
      · -- the left cell's only neighbour on the right was joined into it
        exfalso
        obtain rfl := hli
        by_cases hri : c.right = c.left
        · have := (hold x x hx (hri ▸ hx)).1.lt h.ascending
          exact Nat.ne_of_lt this hri.symm
        · have hnb :=
            neighbours_right h.ascending (hold x v hx (mem_of_merged hri hv)).1
          obtain ⟨rfl, rfl⟩ := Prod.mk.inj (Option.some.inj hnb)
          exact right_gone h.ascending hv
      · have hu' := mem_of_merged (j := j) (x := x) hli hu
        by_cases hri : c.right = i
        · -- the right cell grew
          obtain rfl := hri
          obtain rfl := eq_of_ascending hasc hv hjoined
          obtain ⟨hnb, hsize, -⟩ := hold u x hu' hx
          have hpos := h.filled _ hy
          rw [hjoin]
          refine ⟨neighbours_append.2
            (Or.inr (Or.inl ⟨neighbours_left h.ascending hnb, rfl⟩)),
            by omega, fun heq => ?_⟩
          simp only at hpos
          omega
        · obtain ⟨hnb, hrest⟩ := hold u v hu' (mem_of_merged hri hv)
          have hlj : c.left ≠ j := fun hp => right_gone h.ascending (hp ▸ hu)
          have hrj : c.right ≠ j := fun hp => right_gone h.ascending (hp ▸ hv)
          exact ⟨(neighbours_merged hli hri hlj hrj).1 hnb, hrest⟩

end Tracks

-- ================================ runs

variable (hjoin : ∀ x y, size (join x y) = size x + size y)
  {t t' : List (Nat × α) × List (Candidate σ)}

include hjoin in
theorem Step.tracks (hstep : Step join score cmp size t t')
    (h : Tracks score size t.1 t.2) :
    Tracks score size t'.1 t'.2 := by
  cases hstep with
  | drop taken stale => exact h.drop taken stale
  | merge taken _ left _ _ new all => exact h.merge hjoin taken left new all

/-- A step queues what is current after it. -/
theorem Step.mem (hstep : Step join score cmp size t t') (hb : b ∈ t'.2) :
    b ∈ t.2 ∨ Current score size t'.1 b := by
  cases hstep with
  | drop taken _ => exact Or.inl (taken.mem_iff.2 (List.mem_cons_of_mem _ hb))
  | merge taken _ _ _ _ new _ =>
      rcases List.mem_append.1 hb with hb | hb
      · exact Or.inr (new b hb)
      · exact Or.inl (taken.mem_iff.2 (List.mem_cons_of_mem _ hb))

/-- The first cell keeps its name, and no cell is new. -/
theorem Step.first (hstep : Step join score cmp size t t') :
    t'.1.head?.map Prod.fst = t.1.head?.map Prod.fst ∧ t'.1.length ≤ t.1.length := by
  cases hstep with
  | drop _ _ => exact ⟨rfl, Nat.le_refl _⟩
  | @merge pre post i j x y _ _ _ _ _ _ _ _ _ _ _ =>
      constructor
      · cases pre <;> rfl
      · simp only [List.length_append, List.length_cons]
        omega

theorem run_first (hrun : Relation.ReflTransGen (Step join score cmp size) t t') :
    t'.1.head?.map Prod.fst = t.1.head?.map Prod.fst ∧ t'.1.length ≤ t.1.length := by
  induction hrun with
  | refl => exact ⟨rfl, Nat.le_refl _⟩
  | tail _ hstep ih =>
      obtain ⟨hfirst, hlen⟩ := hstep.first
      exact ⟨hfirst.trans ih.1, Nat.le_trans hlen ih.2⟩

/-- A step leaves what the scan ends with. -/
theorem Step.exhaust (hcmp : Ranked score cmp rank)
    (hstep : Step join score cmp size t t') (h : Tracks score size t.1 t.2) :
    exhaust join score cmp t'.1.length (t'.1.map Prod.snd)
      = exhaust join score cmp t.1.length (t.1.map Prod.snd) := by
  cases hstep with
  | drop _ _ => rfl
  | @merge pre post i j x y _ _ _ _ taken greatest left right fits _ _ =>
      have hbest := best_of_leads hcmp
        (h.leads hcmp (taken.mem_iff.2 List.mem_cons_self) greatest left right fits)
      have hlen : (pre ++ (i, x) :: (j, y) :: post).length
          = (pre ++ (i, join x y) :: post).length + 1 := by
        simp only [List.length_append, List.length_cons, Nat.add_assoc]
      have hjoined :
          joinAt join pre.length
          ((pre ++ (i, x) :: (j, y) :: post).map Prod.snd)
          = (pre ++ (i, join x y) :: post).map Prod.snd := by
        have hat := joinAt_append join (pre.map Prod.snd) x y (post.map Prod.snd)
        rw [List.length_map] at hat
        rw [List.map_append, List.map_append]
        exact hat
      simp only [hlen]
      rw [exhaust_of_some hbest, hjoined]

include hjoin in
/-- A run that empties the queue ends with what the scan ends with. -/
theorem run_exhaust (hcmp : Ranked score cmp rank) (h : Tracks score size t.1 t.2)
    (hrun : Relation.ReflTransGen (Step join score cmp size) t t')
    (hend : t'.2 = []) :
    t'.1.map Prod.snd = exhaust join score cmp t.1.length (t.1.map Prod.snd) := by
  induction hrun using Relation.ReflTransGen.head_induction_on with
  | refl =>
      rw [hend] at h
      exact (exhaust_of_none (best_of_unscored hcmp h.unscored) _).symm
  | head hstep _ ih => rw [ih (hstep.tracks hjoin h), hstep.exhaust hcmp h]

end QueueProofs

end Minfer.Lib.MergeQueue
