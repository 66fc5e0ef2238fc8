/-
Exploring a successor function from a list of starts: a stack of nodes to
visit, the nodes seen, and the leaves found so far.

What a run that ends has found is every leaf that can be reached, and no
other. The invariant is the usual one: a node that was seen is a leaf that
was collected, or each of its successors is seen or waiting.
-/
import Mathlib.Data.List.Basic
import Mathlib.Logic.Relation

namespace Minfer.Lib

/-- Why an exploration is given up. -/
inductive Overrun where
  /-- More nodes were taken from the stack than the bound. -/
  | steps
  /-- A node is larger than the bound. -/
  | size
deriving Repr, DecidableEq

section Explore

variable {σ : Type} [DecidableEq σ]

/-- The nodes of `next s` are visited first, the last one pushed at the front;
`none` is a leaf. -/
def explore (next : σ → Option (List σ)) (fits : σ → Bool) :
    Nat → List σ → List σ → List σ → Except Overrun (List σ)
  | _, [], _, out => .ok out
  | 0, _ :: _, _, _ => .error .steps
  | fuel + 1, s :: work, seen, out =>
      if s ∈ seen then explore next fits fuel work seen out
      else if fits s then
        match next s with
        | none => explore next fits fuel work (s :: seen) (out ++ [s])
        | some succs => explore next fits fuel (succs ++ work) (s :: seen) out
      else .error .size

end Explore

/-- One step to a successor. -/
def Succ {σ : Type} (next : σ → Option (List σ)) (s t : σ) : Prop :=
  ∃ succs, next s = some succs ∧ t ∈ succs

/-- A leaf that can be reached from one of the starts. -/
def Found {σ : Type} (next : σ → Option (List σ)) (starts : List σ) (s : σ) : Prop :=
  (∃ s₀ ∈ starts, Relation.ReflTransGen (Succ next) s₀ s) ∧ next s = none

-- =========================== invariant

section Proofs

variable {σ : Type} {next : σ → Option (List σ)}

/-- The state of an exploration from `starts`. -/
structure Explored (next : σ → Option (List σ))
    (starts work seen out : List σ) : Prop where
  covered : ∀ s ∈ starts, s ∈ seen ∨ s ∈ work
  reached : ∀ s, s ∈ seen ∨ s ∈ work →
    ∃ s₀ ∈ starts, Relation.ReflTransGen (Succ next) s₀ s
  closed : ∀ s ∈ seen, ∀ t, Succ next s t → t ∈ seen ∨ t ∈ work
  leaves : ∀ s, s ∈ out ↔ s ∈ seen ∧ next s = none

theorem Explored.start (starts : List σ) : Explored next starts starts [] [] where
  covered _ hs := Or.inr hs
  reached s hs := ⟨s, hs.resolve_left List.not_mem_nil, .refl⟩
  closed _ hs := absurd hs List.not_mem_nil
  leaves _ := by simp

variable {out seen starts work : List σ} {fits : σ → Bool} {fuel : Nat}

/-- A node that was seen is dropped. -/
theorem Explored.skip {s : σ}
    (h : Explored next starts (s :: work) seen out) (hs : s ∈ seen) :
    Explored next starts work seen out := by
  have hdrop {t : σ} (ht : t ∈ seen ∨ t ∈ s :: work) : t ∈ seen ∨ t ∈ work := by
    rcases ht with ht | ht
    · exact Or.inl ht
    · rcases List.mem_cons.1 ht with rfl | ht
      · exact Or.inl hs
      · exact Or.inr ht
  exact ⟨fun t ht => hdrop (h.covered t ht),
    fun t ht => h.reached t (ht.imp_right (List.mem_cons_of_mem s)),
    fun t ht u hu => hdrop (h.closed t ht u hu), h.leaves⟩

/-- A leaf is collected. -/
theorem Explored.leaf {s : σ}
    (h : Explored next starts (s :: work) seen out) (hs : next s = none) :
    Explored next starts work (s :: seen) (out ++ [s]) := by
  have hmove {t : σ} : t ∈ s :: seen ∨ t ∈ work ↔ t ∈ seen ∨ t ∈ s :: work := by
    rw [List.mem_cons, List.mem_cons]
    tauto
  refine ⟨fun t ht => hmove.2 (h.covered t ht), fun t ht =>
    h.reached t (hmove.1 ht), ?_, ?_⟩
  · intro t ht u hu
    rcases List.mem_cons.1 ht with rfl | ht
    · obtain ⟨succs, hsuccs, -⟩ := hu
      rw [hs] at hsuccs
      cases hsuccs
    · exact hmove.2 (h.closed t ht u hu)
  · intro t
    rw [List.mem_append, List.mem_singleton, List.mem_cons, h.leaves]
    constructor
    · rintro (⟨ht, hn⟩ | rfl)
      · exact ⟨Or.inr ht, hn⟩
      · exact ⟨Or.inl rfl, hs⟩
    · rintro ⟨rfl | ht, hn⟩
      · exact Or.inr rfl
      · exact Or.inl ⟨ht, hn⟩

/-- The successors of a node are put in front. -/
theorem Explored.expand {succs : List σ} {s : σ}
    (h : Explored next starts (s :: work) seen out) (hs : next s = some succs) :
    Explored next starts (succs ++ work) (s :: seen) out := by
  have hmove {t : σ} (ht : t ∈ seen ∨ t ∈ s :: work) : t ∈ s :: seen
      ∨ t ∈ succs ++ work := by
    rw [List.mem_cons] at ht ⊢
    rw [List.mem_append]
    tauto
  refine ⟨fun t ht => hmove (h.covered t ht), ?_, ?_, ?_⟩
  · intro t ht
    rw [List.mem_cons, List.mem_append] at ht
    rcases ht with (rfl | ht) | ht | ht
    · exact h.reached t (Or.inr List.mem_cons_self)
    · exact h.reached t (Or.inl ht)
    · obtain ⟨s₀, hs₀, hpath⟩ := h.reached s (Or.inr List.mem_cons_self)
      exact ⟨s₀, hs₀, hpath.tail ⟨succs, hs, ht⟩⟩
    · exact h.reached t (Or.inr (List.mem_cons_of_mem s ht))
  · intro t ht u hu
    rcases List.mem_cons.1 ht with rfl | ht
    · obtain ⟨succs', hsuccs, hu⟩ := hu
      cases hs.symm.trans hsuccs
      exact Or.inr (List.mem_append_left _ hu)
    · exact hmove (h.closed t ht u hu)
  · intro t
    rw [h.leaves, List.mem_cons]
    constructor
    · exact fun ⟨ht, hn⟩ => ⟨Or.inr ht, hn⟩
    · rintro ⟨rfl | ht, hn⟩
      · rw [hs] at hn
        cases hn
      · exact ⟨ht, hn⟩

/-- An exploration that ends has seen everything that can be reached. -/
theorem Explored.seen_of_reach
    (h : Explored next starts [] seen out) {s₀ t : σ} (hs₀ : s₀ ∈ starts)
    (hpath : Relation.ReflTransGen (Succ next) s₀ t) : t ∈ seen := by
  have hseen {t : σ} (ht : t ∈ seen ∨ t ∈ []) : t ∈ seen :=
    ht.resolve_right List.not_mem_nil
  induction hpath with
  | refl => exact hseen (h.covered s₀ hs₀)
  | tail _ hstep ih => exact hseen (h.closed _ ih _ hstep)

theorem Explored.found (h : Explored next starts [] seen out) (s : σ) :
    s ∈ out ↔ Found next starts s := by
  rw [h.leaves]
  refine and_congr_left fun _ => ⟨fun hs => h.reached s (Or.inl hs), ?_⟩
  rintro ⟨s₀, hs₀, hpath⟩
  exact h.seen_of_reach hs₀ hpath

variable [DecidableEq σ]

theorem explore_inv {found : List σ}
    (hinv : Explored next starts work seen out)
    (h : explore next fits fuel work seen out = .ok found) (s : σ) :
    s ∈ found ↔ Found next starts s := by
  induction fuel generalizing work seen out with
  | zero =>
      match work with
      | [] =>
          cases h
          exact hinv.found s
      | _ :: _ => cases h
  | succ fuel ih =>
      match work with
      | [] =>
          rw [explore] at h
          cases h
          exact hinv.found s
      | t :: work =>
          rw [explore] at h
          split at h
          next hseen => exact ih (hinv.skip hseen) h
          · split at h
            · split at h
              next hleaf => exact ih (hinv.leaf hleaf) h
              next succs hsuccs => exact ih (hinv.expand hsuccs) h
            · cases h

/-- What an exploration finds. -/
theorem mem_explore {found : List σ}
    (h : explore next fits fuel starts [] [] = .ok found) (s : σ) :
    s ∈ found ↔ Found next starts s :=
  explore_inv (Explored.start starts) h s

/-- Every node an exploration that ends can reach is small enough. -/
theorem fits_of_explore {found : List σ}
    (hinv : Explored next starts work seen out) (hseen : ∀ s ∈ seen, fits s = true)
    (h : explore next fits fuel work seen out = .ok found) {s₀ s : σ}
    (hs₀ : s₀ ∈ starts) (hpath : Relation.ReflTransGen (Succ next) s₀ s) :
    fits s = true := by
  induction fuel generalizing work seen out with
  | zero =>
      match work with
      | [] => exact hseen s (hinv.seen_of_reach hs₀ hpath)
      | _ :: _ => cases h
  | succ fuel ih =>
      match work with
      | [] => exact hseen s (hinv.seen_of_reach hs₀ hpath)
      | t :: work =>
          rw [explore] at h
          split at h
          next ht => exact ih (hinv.skip ht) hseen h
          · split at h
            next hfits =>
              have hseen' : ∀ s ∈ t :: seen, fits s = true :=
                List.forall_mem_cons.2 ⟨hfits, hseen⟩
              split at h
              next hleaf => exact ih (hinv.leaf hleaf) hseen' h
              next succs hsuccs => exact ih (hinv.expand hsuccs) hseen' h
            · cases h

/-- A node that is too large can be reached. -/
theorem reach_of_size (hinv : Explored next starts work seen out)
    (h : explore next fits fuel work seen out = .error .size) :
    ∃ s₀ ∈ starts, ∃ s, Relation.ReflTransGen (Succ next) s₀ s ∧ fits s = false := by
  induction fuel generalizing work seen out with
  | zero =>
      match work with
      | [] => cases h
      | _ :: _ => cases h
  | succ fuel ih =>
      match work with
      | [] => cases h
      | t :: work =>
          rw [explore] at h
          split at h
          next ht => exact ih (hinv.skip ht) h
          · split at h
            · split at h
              next hleaf => exact ih (hinv.leaf hleaf) h
              next succs hsuccs => exact ih (hinv.expand hsuccs) h
            next hfits =>
              obtain ⟨s₀, hs₀, hpath⟩ := hinv.reached t (.inr List.mem_cons_self)
              exact ⟨s₀, hs₀, t, hpath, Bool.eq_false_iff.2 hfits⟩

end Proofs

end Minfer.Lib
