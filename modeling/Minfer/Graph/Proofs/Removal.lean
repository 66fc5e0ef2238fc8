/-
Context removal: what `kv_rm` leaves behind when it refuses, and the extent
it forgets to lower when it does not.

A removal rewrites the regions of every layer and only then asks `after_rm`,
which refuses two kinds of stores the first checks let through.
-/
import Minfer.Graph.Session
import Minfer.Graph.Proofs.Resize

namespace Minfer.Graph

open Lib (InRun memmove)

variable {ρ : Type}

namespace KvCache

-- ============================== frames

variable {c c' : KvCache ρ} {env : RmEnv} {layers : List (Nat × KvLayer ρ)}
  {len start : Nat} {packed : Bool} {rope : KvRope ρ} {r : Except RmError Nat}

/-- Rewriting rows touches nothing but the layers. -/
theorem rmLayers_frame {r : Except RmError Unit}
    (h : rmLayers env rope packed start len c layers = (r, c')) :
    c' = { c with layers := c'.layers } := by
  induction layers generalizing c with
  | nil =>
      cases h
      rfl
  | cons e rest ih =>
      rw [rmLayers] at h
      split at h
      · cases h
        rfl
      · simp only at h
        split at h
        · cases h
          rfl
        · split at h
          · cases h
            rfl
          · have hrest := ih h
            exact hrest

theorem renumberLayers_frame {newUsed : Nat}
    (h : renumberLayers start len c newUsed layers = (r, c')) :
    c' = { c with layers := c'.layers } := by
  induction layers generalizing c newUsed with
  | nil =>
      cases h
      rfl
  | cons e rest ih =>
      rw [renumberLayers] at h
      split at h
      · cases h
        rfl
      · have hrest := ih h
        exact hrest

theorem afterRm_frame (h : c.afterRm start len = (r, c')) :
    c' = { c with layers := c'.layers } := by
  unfold afterRm at h
  split at h
  · cases h
    rfl
  · split at h
    · split at h
      · cases h
        rfl
      · exact renumberLayers_frame h
    · exact renumberLayers_frame h

/-- A removal never touches the run table or the span lists. -/
theorem kvRm_frame (h : c.kvRm env rope start len = (r, c')) :
    c' = { c with layers := c'.layers } := by
  unfold kvRm at h
  split at h
  · cases h
    rfl
  · split at h
    · cases h
      rfl
    · split at h
      · cases h
        rfl
      · split at h
        next c₁ h₁ =>
          cases h
          exact rmLayers_frame h₁
        next c₁ h₁ =>
          have hframe := rmLayers_frame h₁
          have hafter := afterRm_frame h
          rw [hafter, hframe]

-- ====================== rewritten rows

/-- What a removal makes of a layer's regions. -/
def rewriteLayer (rope : KvRope ρ) (packed : Bool) (start len : Nat) (l : KvLayer ρ) :
    KvLayer ρ :=
  { l with
    k := reRope (rope.shift packed len) start len l.nUsed
      (slideRows rope.zero start len l.nUsed l.k)
    v := slideRows rope.zero start len l.nUsed l.v }

/-- The backends read and write a layer. -/
def Works (env : RmEnv) (layer : Nat) : Prop :=
  env.readFails layer = false ∧ env.writeErr layer false = none
    ∧ env.writeErr layer true = none

theorem rmLayers_of_works
    (hworks : ∀ e ∈ layers, Works env e.1) (c : KvCache ρ) :
    rmLayers env rope packed start len c layers
      = (.ok (), { c with
          layers := layers.foldl
            (fun t e => t.insert e.1 (rewriteLayer rope packed start len e.2))
            c.layers }) := by
  induction layers generalizing c with
  | nil => rfl
  | cons e rest ih =>
      obtain ⟨hread, hk, hv⟩ := hworks e List.mem_cons_self
      rw [rmLayers, hread]
      simp only [Bool.false_eq_true, if_false, hk, hv]
      exact ih (fun e he => hworks e (List.mem_cons_of_mem _ he)) _

theorem works_of_rmLayers_ok
    (h : rmLayers env rope packed start len c layers = (.ok (), c')) :
    ∀ e ∈ layers, Works env e.1 := by
  induction layers generalizing c with
  | nil => exact fun e he => nomatch he
  | cons e rest ih =>
      rw [rmLayers] at h
      split at h
      · cases h
      next hread =>
        simp only at h
        split at h
        · cases h
        next hk =>
          split at h
          · cases h
          next hv =>
            have hfirst : Works env e.1 := ⟨by simpa using hread, hk, hv⟩
            exact List.forall_mem_cons.2 ⟨hfirst, ih h⟩

/-- An error of the rewriting is a backend's. -/
theorem rmLayers_error {e : RmError}
    (h : rmLayers env rope packed start len c layers = (.error e, c')) :
    ¬ e.IsRefusal := by
  induction layers generalizing c with
  | nil => cases h
  | cons entry rest ih =>
      rw [rmLayers] at h
      split at h
      · cases h
        exact id
      · simp only at h
        split at h
        · cases h
          exact id
        · split at h
          · cases h
            exact id
          · exact ih h

/-- A slid region, cell by cell. -/
theorem getElem?_slideRows {zero : ρ} {nUsed : Nat}
    (hrows : start + len ≤ nUsed) (region : List ρ) (cell : Nat) :
    (slideRows zero start len nUsed region)[cell]? = (region[cell]?).map fun x =>
      if nUsed - len ≤ cell then zero
      else if start ≤ cell then (region[cell + len]?).getD x else x := by
  rw [slideRows, List.getElem?_mapIdx, memmove, List.getElem?_mapIdx, Option.map_map]
  congr 1
  funext x
  simp only [Function.comp_apply]
  by_cases htail : nUsed - len ≤ cell
  · rw [if_pos htail, if_pos htail]
  · rw [if_neg htail, if_neg htail]
    by_cases hstart : start ≤ cell
    · have hin : InRun start (nUsed - (start + len)) cell := ⟨hstart, by omega⟩
      rw [if_pos hstart, if_pos hin, show start + len + (cell - start)
        = cell + len by omega]
    · rw [if_neg hstart, if_neg fun hin => hstart hin.1]

/-- A slid and re-roped region, cell by cell. -/
theorem getElem?_reRope_slideRows {shift : ρ → ρ} {zero : ρ} {nUsed : Nat}
    (hrows : start + len ≤ nUsed) (region : List ρ) (cell : Nat) :
    (reRope shift start len nUsed (slideRows zero start len nUsed region))[cell]?
      = (region[cell]?).map fun x =>
        if nUsed - len ≤ cell then zero
        else if start ≤ cell then shift ((region[cell + len]?).getD x) else x := by
  rw [reRope, List.getElem?_mapIdx, getElem?_slideRows hrows, Option.map_map]
  congr 1
  funext x
  simp only [Function.comp_apply]
  by_cases htail : nUsed - len ≤ cell
  · rw [if_pos htail, if_pos htail, if_neg (by omega)]
  · rw [if_neg htail, if_neg htail]
    by_cases hstart : start ≤ cell
    · rw [if_pos hstart, if_pos hstart, if_pos (by omega)]
    · rw [if_neg hstart, if_neg hstart, if_neg (by omega)]

/-- The layer already is what the removal would make of it: every surviving
row is the re-roped row `len` cells above it, and the tail is clear. -/
def Settled (rope : KvRope ρ) (packed : Bool) (start len : Nat)
    (l : KvLayer ρ) : Prop :=
  (∀ cell x, l.k[cell]? = some x →
      (start ≤ cell → cell < l.nUsed - len →
        rope.shift packed len ((l.k[cell + len]?).getD x) = x)
        ∧ (l.nUsed - len ≤ cell → x = rope.zero))
    ∧ ∀ cell x, l.v[cell]? = some x →
      (start ≤ cell → cell < l.nUsed - len → (l.v[cell + len]?).getD x = x)
        ∧ (l.nUsed - len ≤ cell → x = rope.zero)

/-- A region is kept when every cell is. -/
theorem region_eq_iff {region new : List ρ} {f : Nat → ρ → ρ}
    (hnew : ∀ cell, new[cell]? = (region[cell]?).map (f cell)) :
    new = region ↔ ∀ cell x, region[cell]? = some x → f cell x = x := by
  constructor
  · intro h cell x hx
    have hcell := hnew cell
    rw [h, hx] at hcell
    exact (Option.some.inj hcell).symm
  · intro h
    refine List.ext_getElem? fun cell => ?_
    rw [hnew]
    match hx : region[cell]? with
    | none => rfl
    | some x => rw [Option.map_some, h cell x hx]

/-- A cell of a removal, kept: what moves in is what was there. -/
theorem kept_iff {cell bound : Nat} {zero moved x : ρ} :
    (if bound ≤ cell then zero else if start ≤ cell then moved else x) = x
      ↔ (start ≤ cell → cell < bound → moved = x) ∧ (bound ≤ cell → x = zero) := by
  by_cases htail : bound ≤ cell
  · rw [if_pos htail]
    exact ⟨fun h => ⟨fun _ hlt => absurd htail (Nat.not_le.2 hlt), fun _ => h.symm⟩,
      fun h => (h.2 htail).symm⟩
  · rw [if_neg htail]
    by_cases hstart : start ≤ cell
    · rw [if_pos hstart]
      exact ⟨fun h => ⟨fun _ _ => h, fun hle => absurd hle htail⟩,
        fun h => h.1 hstart (Nat.not_le.1 htail)⟩
    · rw [if_neg hstart]
      exact ⟨fun _ =>
        ⟨fun hle => absurd hle hstart, fun hle => absurd hle htail⟩,
        fun _ => rfl⟩

theorem rewriteLayer_eq_iff {l : KvLayer ρ} (hrows : start + len ≤ l.nUsed) :
    rewriteLayer rope packed start len l = l ↔ Settled rope packed start len l := by
  have hregions : rewriteLayer rope packed start len l = l
      ↔ (rewriteLayer rope packed start len l).k = l.k
        ∧ (rewriteLayer rope packed start len l).v = l.v := by
    have hput {k v : List ρ} (hk : k = l.k) (hv : v = l.v) : { l with k, v } = l := by
      subst hk hv
      rfl
    constructor
    · intro h
      rw [h]
      exact ⟨rfl, rfl⟩
    · exact fun ⟨hk, hv⟩ => hput hk hv
  rw [hregions, Settled]
  refine and_congr ?_ ?_
  · refine (region_eq_iff (getElem?_reRope_slideRows hrows l.k)).trans ?_
    exact forall_congr' fun cell => forall_congr' fun x =>
      imp_congr_right fun _ => kept_iff
  · refine (region_eq_iff (getElem?_slideRows hrows l.v)).trans ?_
    exact forall_congr' fun cell => forall_congr' fun x =>
      imp_congr_right fun _ => kept_iff

theorem renumber_owner_length (start len : Nat) (l : KvLayer ρ) :
    (renumber start len l).owner.length = l.owner.length := by
  rw [renumber, length_setOwnerIf, Lib.length_memmove]

-- ======================== the refusals

/-- The arena is the one before: every layer's regions, owner table and used
extent, and the run table. -/
def Unchanged (c c' : KvCache ρ) : Prop :=
  c'.seqs = c.seqs ∧ ∀ i : Nat, c'.layers[i]? = c.layers[i]?

/-- A refused removal is a no-op. -/
def RmAtomic (env : RmEnv) (rope : KvRope ρ) (c : KvCache ρ)
    (start len : Nat) : Prop :=
  ∀ e c', c.kvRm env rope start len = (.error e, c') → e.IsRefusal → Unchanged c c'

/-- The checks `kv_rm` makes before it moves a byte. -/
def PassesChecks (env : RmEnv) (c : KvCache ρ) (start len : Nat) : Prop :=
  c.layers.isEmpty = false ∧ env.f16 = false
    ∧ ∀ (i : Nat) (l : KvLayer ρ), c.layers[i]? = some l → start + len ≤ l.nUsed

/-- What only `after_rm` refuses: another sequence holds a run, or the main
one reads a shared prefix. -/
def RefusedLate (c : KvCache ρ) : Prop :=
  (∃ s : SeqId, s ≠ seqMain ∧ c.seqs[s]? ≠ none)
    ∨ ∃ slot, c.seqs[seqMain]? = some slot ∧ 0 < slot.shared.rows

/-- Where nothing is refused, the renumbering goes through. -/
theorem renumberLayers_ok {newUsed : Nat}
    (hrows : ∀ e ∈ layers, start + len ≤ e.2.nUsed) (c : KvCache ρ) :
    ∃ n, renumberLayers start len c newUsed layers = (.ok n, { c with
      layers := layers.foldl (fun t e => t.insert e.1 (renumber start len e.2))
        c.layers }) := by
  induction layers generalizing c newUsed with
  | nil => exact ⟨newUsed, rfl⟩
  | cons e rest ih =>
      have hle := hrows e List.mem_cons_self
      rw [renumberLayers, if_neg (by omega)]
      exact ih (fun e he => hrows e (List.mem_cons_of_mem _ he)) _

/-- `after_rm` on layers that have the rows: it refuses just the late ones. -/
theorem afterRm_cases
    (hrows : ∀ (i : Nat) (l : KvLayer ρ), c.layers[i]? = some l →
      start + len ≤ l.nUsed) :
    (RefusedLate c ∧ ∃ e, e.IsRefusal ∧ c.afterRm start len = (.error e, c))
      ∨ (¬ RefusedLate c ∧ ∃ n, c.afterRm start len = (.ok n, { c with
          layers := c.layers.toList.foldl
            (fun t e => t.insert e.1 (renumber start len e.2))
            c.layers })) := by
  have hok := @renumberLayers_ok ρ c.layers.toList len start 0
    (fun e he => hrows e.1 e.2 (Std.TreeMap.mem_toList_iff_getElem?_eq_some.1 he)) c
  unfold afterRm
  by_cases hothers : c.seqs.toList.any fun r => r.1 ≠ seqMain
  · rw [if_pos hothers]
    obtain ⟨r, hr, hne⟩ := List.any_eq_true.1 hothers
    refine Or.inl ⟨Or.inl ⟨r.1, by simpa using hne, ?_⟩, .otherSequences,
      trivial, rfl⟩
    rw [mem_seqs_toList.1 hr]
    simp
  · rw [if_neg hothers]
    have hnone {s : SeqId} (hs : s ≠ seqMain) : c.seqs[s]? = none := by
      match h : c.seqs[s]? with
      | none => rfl
      | some slot =>
          refine absurd
            (List.any_eq_true.2 ⟨(s, slot), mem_seqs_toList.2 h, ?_⟩) hothers
          simpa using hs
    match hmain : c.seqs[seqMain]? with
    | none =>
        refine Or.inr ⟨?_, hok⟩
        rintro (⟨s, hs, h⟩ | ⟨slot, h, -⟩)
        · exact h (hnone hs)
        · rw [hmain] at h
          cases h
    | some slot =>
        simp only
        by_cases hshared : slot.shared.rows > 0
        · rw [if_pos hshared]
          exact Or.inl ⟨Or.inr ⟨slot, hmain, hshared⟩, .sharedPrefix _, trivial, rfl⟩
        · rw [if_neg hshared]
          refine Or.inr ⟨?_, hok⟩
          rintro (⟨s, hs, h⟩ | ⟨slot', h, hpos⟩)
          · exact h (hnone hs)
          · rw [hmain] at h
            cases h
            exact hshared hpos

/-- What `kv_rm` does once its checks pass and the backends work: the rows of
every layer are rewritten, and then `after_rm` is asked. -/
theorem kvRm_of_checks (rope : KvRope ρ)
    (hchecks : PassesChecks env c start len)
    (hworks : ∀ (i : Nat) (l : KvLayer ρ), c.layers[i]? = some l → Works env i) :
    ∃ c₁ : KvCache ρ, c.kvRm env rope start len = c₁.afterRm start len
      ∧ c₁.seqs = c.seqs
      ∧ ∀ i : Nat, c₁.layers[i]?
        = (c.layers[i]?).map (rewriteLayer rope c.anyPacked start len) := by
  obtain ⟨hlayers, hf16, hrows⟩ := hchecks
  have hfind : c.layers.toList.find? (fun l => start + len > l.2.nUsed) = none := by
    refine List.find?_eq_none.2 fun e he => ?_
    have := hrows e.1 e.2 (Std.TreeMap.mem_toList_iff_getElem?_eq_some.1 he)
    simpa using this
  have hrm := @rmLayers_of_works ρ env c.layers.toList len start
    c.anyPacked rope
    (fun e he => hworks e.1 e.2 (Std.TreeMap.mem_toList_iff_getElem?_eq_some.1 he)) c
  refine ⟨{ c with
    layers := c.layers.toList.foldl
      (fun t e => t.insert e.1 (rewriteLayer rope c.anyPacked start len e.2))
        c.layers },
    ?_, ?_, fun i =>
      getElem?_rewrite (rewriteLayer rope c.anyPacked start len) c.layers i⟩
  · rw [kvRm, hlayers, hf16, hfind, hrm]
    rfl
  · rfl

/-- A removal ends before the checks are through, or in a backend's error, or
the checks pass and the backends work. -/
theorem kvRm_cases (h : c.kvRm env rope start len = (r, c')) :
    (∃ e, r = .error e ∧ (c' = c ∨ ¬ e.IsRefusal))
      ∨ PassesChecks env c start len
        ∧ ∀ (i : Nat) (l : KvLayer ρ), c.layers[i]? = some l → Works env i := by
  unfold kvRm at h
  split at h
  · cases h
    exact Or.inl ⟨_, rfl, Or.inl rfl⟩
  next hlayers =>
    split at h
    · cases h
      exact Or.inl ⟨_, rfl, Or.inl rfl⟩
    next hf16 =>
      split at h
      · cases h
        exact Or.inl ⟨_, rfl, Or.inl rfl⟩
      next hfind =>
        split at h
        next e c₁ herr =>
          cases h
          exact Or.inl ⟨e, rfl, Or.inr (rmLayers_error herr)⟩
        next c₁ hok =>
          refine Or.inr
            ⟨⟨by simpa using hlayers, by simpa using hf16, fun i l hl => ?_⟩,
            fun i l hl => ?_⟩
          · have := List.find?_eq_none.1 hfind (i, l)
              (Std.TreeMap.mem_toList_iff_getElem?_eq_some.2 hl)
            simpa using this
          · exact works_of_rmLayers_ok hok (i, l)
              (Std.TreeMap.mem_toList_iff_getElem?_eq_some.2 hl)

/-- The rewritten layers have the rows the old ones have. -/
theorem rows_of_rewritten {c₁ : KvCache ρ}
    (hrows : ∀ (i : Nat) (l : KvLayer ρ), c.layers[i]? = some l →
      start + len ≤ l.nUsed) (hlayers : ∀ i : Nat,
      c₁.layers[i]? = (c.layers[i]?).map (rewriteLayer rope c.anyPacked start len)) :
    ∀ (i : Nat) (l : KvLayer ρ), c₁.layers[i]? = some l → start + len ≤ l.nUsed := by
  intro i l hl
  rw [hlayers i] at hl
  obtain ⟨l₀, h₀, rfl⟩ := Option.map_eq_some_iff.1 hl
  exact hrows i l₀ h₀

/-- What a removal that succeeds leaves of a layer. -/
theorem kvRm_ok {n : Nat} (h : c.kvRm env rope start len = (.ok n, c')) :
    (∀ (i : Nat) (l : KvLayer ρ), c.layers[i]? = some l → start + len ≤ l.nUsed)
      ∧ ∀ i : Nat, c'.layers[i]? = (c.layers[i]?).map fun l =>
        renumber start len (rewriteLayer rope c.anyPacked start len l) := by
  rcases kvRm_cases h with ⟨e, he, -⟩ | ⟨hchecks, hworks⟩
  · cases he
  · refine ⟨hchecks.2.2, fun i => ?_⟩
    obtain ⟨c₁, hrm, -, hlayers⟩ := kvRm_of_checks rope hchecks hworks
    rw [hrm] at h
    rcases afterRm_cases (rows_of_rewritten hchecks.2.2 hlayers) with
      ⟨-, e, -, hafter⟩ | ⟨-, n, hafter⟩
    · rw [hafter] at h
      cases h
    · rw [hafter] at h
      cases h
      rw [getElem?_rewrite, hlayers i, Option.map_map]
      rfl

/-- A refused removal is a no-op just when it is refused before a byte moves,
or what it would have written was there already. -/
theorem kv_rm_atomic_iff (env : RmEnv) (rope : KvRope ρ) (c : KvCache ρ)
    (start len : Nat) :
    RmAtomic env rope c start len
      ↔ (PassesChecks env c start len → RefusedLate c →
        (∀ (i : Nat) (l : KvLayer ρ), c.layers[i]? = some l → Works env i) →
        ∀ (i : Nat) (l : KvLayer ρ), c.layers[i]? = some l →
          Settled rope c.anyPacked start len l) := by
  constructor
  · intro hatomic hchecks hlate hworks i l hl
    obtain ⟨c₁, hrm, hseqs, hlayers⟩ := kvRm_of_checks rope hchecks hworks
    have hlate₁ : RefusedLate c₁ := by
      unfold RefusedLate
      rw [hseqs]
      exact hlate
    rcases afterRm_cases (rows_of_rewritten hchecks.2.2 hlayers)
      with ⟨-, e, href, hafter⟩ | ⟨hnot, -⟩
    · obtain ⟨-, hsame⟩ := hatomic e c₁ (hrm.trans hafter) href
      have hl₁ := hlayers i
      rw [hsame i, hl] at hl₁
      exact (rewriteLayer_eq_iff (hchecks.2.2 i l hl)).1 (Option.some.inj hl₁).symm
    · exact absurd hlate₁ hnot
  · intro hsettled e c' h href
    rcases kvRm_cases h with ⟨e', he', rfl | hnot⟩ | ⟨hchecks, hworks⟩
    · exact ⟨rfl, fun _ => rfl⟩
    · cases he'
      exact absurd href hnot
    · obtain ⟨c₁, hrm, hseqs, hlayers⟩ := kvRm_of_checks rope hchecks hworks
      rw [hrm] at h
      rcases afterRm_cases (rows_of_rewritten hchecks.2.2 hlayers) with
        ⟨hlate, e₁, -, hafter⟩ | ⟨-, n, hafter⟩
      · rw [hafter] at h
        cases h
        unfold RefusedLate at hlate
        rw [hseqs] at hlate
        refine ⟨hseqs, fun i => ?_⟩
        rw [hlayers i]
        match hl : c.layers[i]? with
        | none => rfl
        | some l =>
            rw [Option.map_some, (rewriteLayer_eq_iff (hchecks.2.2 i l hl)).2
              (hsettled hchecks hlate hworks i l hl)]
      · rw [hafter] at h
        cases h

/-- Two rows of the main sequence, and a run of another. -/
def twoSequences : KvCache Nat := after
  [.reserve 0 4, .own 0 [0, 1] (rowsFrom 100), .reserve 1 2]

/-- A removal with working backends, whose re-rope leaves a row as it is. -/
def plainRm : RmEnv := ⟨false, fun _ => false, fun _ _ => none⟩

def plainRope : KvRope Nat := ⟨fun _ _ row => row, 0⟩

set_option maxRecDepth 8000 in
/-- Removing the first row is refused for the other sequence, and the first
row is gone all the same. -/
theorem refused_removal_moves_rows :
    Reachable .plain twoSequences ∧ ∃ c', twoSequences.kvRm plainRm plainRope 0 1
        = (.error .otherSequences, c')
      ∧ (twoSequences.layers[0]?.map (·.k.take 3)) = some [100, 101, 2]
      ∧ (c'.layers[0]?.map (·.k.take 3)) = some [101, 0, 0]
      ∧ ¬ RmAtomic plainRm plainRope twoSequences 0 1 := by
  have herr : (twoSequences.kvRm plainRm plainRope 0 1).1
    = .error .otherSequences := by decide
  have hold : (twoSequences.layers[0]?.map (·.k.take 3))
    = some [100, 101, 2] := by decide
  have hnew : ((twoSequences.kvRm plainRm plainRope 0 1).2.layers[0]?.map
      (·.k.take 3))
      = some [101, 0, 0] := by decide
  have hrun : twoSequences.kvRm plainRm plainRope 0 1
      = (.error .otherSequences,
        (twoSequences.kvRm plainRm plainRope 0 1).2) := Prod.ext herr rfl
  refine ⟨reachable_after _, _, hrun, hold, hnew, fun hatomic => ?_⟩
  obtain ⟨-, hsame⟩ := hatomic _ _ hrun trivial
  rw [hsame 0, hold] at hnew
  cases hnew

end KvCache
end Minfer.Graph
