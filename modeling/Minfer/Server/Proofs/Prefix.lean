/-
Slot records and KV rows (`server/batch.rs`): making room for a request
and starting it from rows that are already there.

Room is made by releasing idle runs and by resizing the request's own. A
released run's record goes with it, and a resize moves rows together with
the run table, so the mirror holds throughout. A request then starts from
the longest prefix any record shares with its prompt: its own rows, or a
copy of another slot's.
-/
import Minfer.Server.Proofs.Mirror

namespace Minfer.Server

open Minfer.Graph (KvCache KvMove KvEnv SeqId Batch)
open Minfer.Graph.KvCache (Keeps Solo Steady NoBirth)

variable {Λ σ : Type}

-- ============================ prefixes

theorem commonPrefixLen_le_left (as bs : List Token) :
    commonPrefixLen as bs ≤ as.length := by
  fun_induction commonPrefixLen as bs with
  | case1 as b bs ih => exact Nat.succ_le_succ ih
  | case2 => exact Nat.zero_le _
  | case3 => exact Nat.zero_le _

/-- Two lists agree on their common prefix. -/
theorem take_commonPrefixLen (as bs : List Token) :
    as.take (commonPrefixLen as bs) = bs.take (commonPrefixLen as bs) := by
  fun_induction commonPrefixLen as bs with
  | case1 as b bs ih => simp [ih]
  | case2 => rfl
  | case3 => rfl

theorem take_of_le_commonPrefixLen {as bs : List Token} {n : Nat}
    (hn : n ≤ commonPrefixLen as bs) : as.take n = bs.take n := by
  have h := congrArg (List.take n) (take_commonPrefixLen as bs)
  rwa [List.take_take, List.take_take, Nat.min_eq_left hn] at h

namespace BatchEngine

variable {w : World Λ σ} {skip : Nat → Prop} {e e' : BatchEngine Λ σ}

-- ============================= framing

/-- What preparing the sequences of `own` leaves alone: who runs where, and
the rows of every other sequence that keeps its reservation. -/
structure Beside (own : SeqId → Prop) (e e' : BatchEngine Λ σ) : Prop where
  length : e'.slots.length = e.slots.length
  slots : ∀ (i : Nat) slot, e.slots[i]? = some slot →
    ∃ slot', e'.slots[i]? = some slot'
    ∧ slot'.seq = slot.seq ∧ slot'.run = slot.run
  rows : ∀ s h, ¬ own s → Described e.cache s h → e'.cache.seqs[s]? ≠ none →
    Described e'.cache s h
  dead : ∀ s, ¬ own s → e.cache.seqs[s]? = none → e'.cache.seqs[s]? = none

theorem Beside.refl (own : SeqId → Prop) (e : BatchEngine Λ σ) : Beside own e e :=
  ⟨rfl, fun _ slot hs => ⟨slot, hs, rfl, rfl⟩, fun _ _ _ hd _ => hd, fun _ _ hs => hs⟩

theorem Beside.trans {own : SeqId → Prop} {e₁ : BatchEngine Λ σ}
    (h₁ : Beside own e e₁) (h₂ : Beside own e₁ e') : Beside own e e' where
  length := h₂.length.trans h₁.length
  slots i slot hs := by
    obtain ⟨slot₁, hs₁, hseq₁, hrun₁⟩ := h₁.slots i slot hs
    obtain ⟨slot₂, hs₂, hseq₂, hrun₂⟩ := h₂.slots i slot₁ hs₁
    exact ⟨slot₂, hs₂, hseq₂.trans hseq₁, hrun₂.trans hrun₁⟩
  rows s h hown hd hlive :=
    h₂.rows s h hown (h₁.rows s h hown hd fun hdead =>
      hlive (h₂.dead s hown hdead)) hlive
  dead s hown hs := h₂.dead s hown (h₁.dead s hown hs)

theorem Beside.weaken {own own' : SeqId → Prop} (h : Beside own e e')
    (himp : ∀ s, own s → own' s) : Beside own' e e' :=
  ⟨h.length, h.slots, fun s hist hown => h.rows s hist fun ho => hown (himp s ho),
    fun s hown => h.dead s fun ho => hown (himp s ho)⟩

/-- Slots rebuilt one by one, over an arena that keeps what they need. -/
theorem Mirror.rebuilt (hm : Mirror skip e) (hsolo : e'.cache.Solo)
    (hlen : e'.slots.length = e.slots.length)
    (hslots : ∀ (i : Nat) slot, e.slots[i]? = some slot →
      ∃ slot', e'.slots[i]? = some slot'
      ∧ slot'.seq = slot.seq ∧ (¬ skip i → Faithful e'.cache slot') ∧ InStep slot') :
    Mirror skip e' := by
  have hback : ∀ (i : Nat) slot', e'.slots[i]? = some slot' →
      ∃ slot, e.slots[i]? = some slot
      ∧ slot'.seq = slot.seq ∧ (¬ skip i → Faithful e'.cache slot')
      ∧ InStep slot' := by
    intro i slot' hs'
    have hlt : i < e.slots.length := hlen ▸ (List.getElem?_eq_some_iff.mp hs').1
    have hs : e.slots[i]? = some e.slots[i] := List.getElem?_eq_getElem hlt
    obtain ⟨slot₁, hs₁, hkeep⟩ := hslots i _ hs
    rw [hs'] at hs₁
    cases hs₁
    exact ⟨_, hs, hkeep⟩
  refine ⟨hsolo, ?_, fun i slot' hs' => ?_, fun i slot' hs' => ?_⟩
  · have hmap : e'.slots.map (·.seq) = e.slots.map (·.seq) := by
      refine List.ext_getElem? fun i => ?_
      rw [List.getElem?_map, List.getElem?_map]
      cases hs' : e'.slots[i]? with
      | none =>
          have hge := List.getElem?_eq_none_iff.mp hs'
          rw [hlen] at hge
          rw [List.getElem?_eq_none_iff.mpr hge]
      | some slot' =>
          obtain ⟨slot, hs, hseq, -⟩ := hback i slot' hs'
          rw [hs, Option.map_some, Option.map_some, hseq]
    rw [hmap]
    exact hm.distinct
  · obtain ⟨-, -, -, hf, -⟩ := hback i slot' hs'
    exact hf
  · obtain ⟨-, -, -, -, hin⟩ := hback i slot' hs'
    exact hin

-- ============================ capacity

/-- Run moves change where slots start and nothing else. -/
theorem applyRunMoves_eq (moves : List KvMove) : ∃ f : SlotState Λ σ → Nat, ∀ slots,
    applyRunMoves slots moves = slots.map fun s => { s with start := f s } := by
  induction moves with
  | nil => exact ⟨fun s => s.start, fun slots => (List.map_id slots).symm⟩
  | cons m moves ih =>
      obtain ⟨f, hf⟩ := ih
      refine ⟨fun s => f (if s.seq = m.seq then { s with start := m.toCell } else s),
        fun slots => ?_⟩
      show applyRunMoves (slots.map _) moves = _
      rw [hf, List.map_map]
      refine List.map_congr_left fun s _ => ?_
      by_cases h : s.seq = m.seq
      · simp [h]
      · simp [h]

/-- What making room for one slot keeps. -/
structure Roomier (skip : Nat → Prop) (idx : Nat) (slot : SlotState Λ σ)
    (e e' : BatchEngine Λ σ) : Prop where
  mirror : Mirror skip e'
  beside : Beside (· = slot.seq) e e'
  /-- The slot itself keeps its record, its rows and its request. -/
  own : ∃ slot', e'.slots[idx]? = some slot' ∧ slot'.seq = slot.seq
    ∧ slot'.run = slot.run
    ∧ slot'.cachedTokens = slot.cachedTokens
  rows : ∀ h, Described e.cache slot.seq h → Described e'.cache slot.seq h

variable {idx : Nat} {slot : SlotState Λ σ}

/-- A run was resized or reserved, and the slots follow the moves. -/
theorem Mirror.regrown (hm : Mirror skip e) (hs : e.slots[idx]? = some slot)
    {c : KvCache Row} (hsteady : Steady e.cache c)
    (hdead : ∀ s, s ≠ slot.seq → e.cache.seqs[s]? = none → c.seqs[s]? = none)
    (moves : List KvMove) (start cap : Nat) :
    Roomier skip idx slot e
      ({ e with cache := c, slots := applyRunMoves e.slots moves }.setSlot idx
        { slot with start, cap }) := by
  obtain ⟨f, hf⟩ := applyRunMoves_eq (Λ := Λ) (σ := σ) moves
  have hlt : idx < e.slots.length := (List.getElem?_eq_some_iff.mp hs).1
  have hlen : ((applyRunMoves e.slots moves).set idx { slot with start, cap }).length
      = e.slots.length := by
    rw [List.length_set, hf, List.length_map]
  have hslots : ∀ (i : Nat) a, e.slots[i]? = some a → ∃ a',
      ((applyRunMoves e.slots moves).set idx { slot with start, cap })[i]? = some a'
      ∧ a'.seq = a.seq ∧ a'.run = a.run ∧ a'.cachedTokens = a.cachedTokens := by
    intro i a ha
    rw [hf]
    by_cases hi : idx = i
    · subst hi
      rw [hs] at ha
      cases ha
      exact ⟨_, List.getElem?_set_self (by rwa [List.length_map]), rfl, rfl, rfl⟩
    · rw [List.getElem?_set_ne hi, List.getElem?_map, ha]
      exact ⟨_, rfl, rfl, rfl, rfl⟩
  refine ⟨hm.rebuilt hsteady.solo hlen fun i a ha => ?_, ⟨hlen, fun i a ha => ?_,
    fun s h _ hd _ => hd.keeps (hsteady.keeps s), hdead⟩, hslots idx slot hs,
    fun h hd => hd.keeps (hsteady.keeps _)⟩
  · obtain ⟨a', ha', hseq, hrun, hcached⟩ := hslots i a ha
    refine ⟨a', ha', hseq, fun hskip => ?_, fun run hr => ?_⟩
    · show Described c a'.seq a'.cachedTokens
      rw [hseq, hcached]
      exact (hm.faithful i a ha hskip).keeps (hsteady.keeps _)
    · rw [hcached]
      exact hm.inStep i a ha run (hrun ▸ hr)
  · obtain ⟨a', ha', hseq, hrun, -⟩ := hslots i a ha
    exact ⟨a', ha', hseq, hrun⟩

/-- An arena operation that was refused. -/
theorem Mirror.refused (hm : Mirror skip e) (hs : e.slots[idx]? = some slot)
    {c : KvCache Row} (hsteady : Steady e.cache c)
    (hdead : ∀ s, s ≠ slot.seq → e.cache.seqs[s]? = none → c.seqs[s]? = none) :
    Roomier skip idx slot e { e with cache := c } where
  mirror := ⟨hsteady.solo, hm.distinct,
    fun i a ha hskip => (hm.faithful i a ha hskip).keeps (hsteady.keeps _), hm.inStep⟩
  beside := ⟨rfl, fun _ a ha => ⟨a, ha, rfl, rfl⟩,
    fun s _ _ hd _ => hd.keeps (hsteady.keeps s), hdead⟩
  own := ⟨slot, hs, rfl, rfl, rfl⟩
  rows _ hd := hd.keeps (hsteady.keeps _)

/-- Releasing an idle slot's run drops its record with its rows. -/
theorem Mirror.released (hm : Mirror skip e) {j : Nat} {other : SlotState Λ σ}
    (hs : e.slots[idx]? = some slot) (ho : e.slots[j]? = some other)
    (hne : j ≠ idx) (hidle : other.run = none) :
    Roomier skip idx slot e
        ({ e with cache := (e.cache.releaseSeq other.seq).2 }.setSlot j
          { other with cachedTokens := [], cap := 0 })
      ∧ ({ e with cache := (e.cache.releaseSeq other.seq).2 }.setSlot j
          { other with cachedTokens := [], cap := 0 }).slots[idx]? = some slot := by
  obtain ⟨hsolo, hkeeps, hbirth, hgone⟩ := hm.solo.releaseSeq other.seq
  have hlt : j < e.slots.length := (List.getElem?_eq_some_iff.mp ho).1
  have hrest (i : Nat) (hi : j ≠ i) :
      (e.slots.set j { other with cachedTokens := [], cap := 0 })[i]? = e.slots[i]? :=
    List.getElem?_set_ne hi
  have hsame := (hrest idx hne).trans hs
  have hseq : slot.seq ≠ other.seq := fun h => hne (hm.seq_inj hs ho h).symm
  refine ⟨⟨hm.rebuilt hsolo (List.length_set ..) fun i a ha => ?_,
    ⟨List.length_set .., fun i a ha => ?_,
    fun s h _ hd hlive => ?_, fun s _ hdead => hbirth s hdead⟩,
      ⟨slot, hsame, rfl, rfl, rfl⟩,
    fun h hd => hd.keeps (hkeeps _ hseq)⟩, hsame⟩
  · by_cases hi : j = i
    · subst hi
      rw [ho] at ha
      cases ha
      refine ⟨_, List.getElem?_set_self hlt, rfl, fun _ => .nil _ _, fun run hr => ?_⟩
      rw [show other.run = some run from hr] at hidle
      cases hidle
    · refine ⟨a, (hrest i hi).trans ha, rfl, fun hskip => ?_, hm.inStep i a ha⟩
      have hne' : a.seq ≠ other.seq := fun h => hi (hm.seq_inj ha ho h).symm
      exact (hm.faithful i a ha hskip).keeps (hkeeps _ hne')
  · by_cases hi : j = i
    · subst hi
      rw [ho] at ha
      cases ha
      exact ⟨_, List.getElem?_set_self hlt, rfl, rfl⟩
    · exact ⟨a, (hrest i hi).trans ha, rfl, rfl⟩
  · refine hd.keeps (hkeeps s fun h => hlive ?_)
    rw [h]
    exact hgone

theorem Roomier.refl (hm : Mirror skip e)
    (hs : e.slots[idx]? = some slot) : Roomier skip idx slot e e :=
  ⟨hm, .refl _ e, ⟨slot, hs, rfl, rfl, rfl⟩, fun _ hd => hd⟩

theorem Roomier.trans {e₁ : BatchEngine Λ σ}
    (h₁ : Roomier skip idx slot e e₁) (h₂ : Roomier skip idx slot e₁ e') :
    Roomier skip idx slot e e' :=
  ⟨h₂.mirror, h₁.beside.trans h₂.beside, h₂.own, fun h hd => h₂.rows h (h₁.rows h hd)⟩

/-- The reclaim loop. -/
theorem Mirror.reclaim {need : Nat} (js : List Nat) :
    ∀ {e : BatchEngine Λ σ}, Mirror skip e → e.slots[idx]? = some slot →
      Roomier skip idx slot e (e.reclaim idx need js)
        ∧ (e.reclaim idx need js).slots[idx]? = some slot := by
  induction js with
  | nil => exact fun hm hs => ⟨.refl hm hs, hs⟩
  | cons j js ih =>
      intro e hm hs
      unfold BatchEngine.reclaim
      split
      · exact ih hm hs
      next other ho =>
        split
        · exact ih hm hs
        next hbusy =>
          simp only [not_or, Option.isSome_iff_ne_none, ne_eq, not_not] at hbusy
          split
          · exact ⟨.refl hm hs, hs⟩
          · obtain ⟨hroom, hs₁⟩ := hm.released hs ho hbusy.1 hbusy.2.1
            obtain ⟨hrest, hs₂⟩ := ih hroom.mirror hs₁
            exact ⟨hroom.trans hrest, hs₂⟩

@[simp] theorem reclaim_nCtxTotal (idx need : Nat) (js : List Nat)
    (e : BatchEngine Λ σ) :
    (e.reclaim idx need js).nCtxTotal = e.nCtxTotal := by
  induction js generalizing e with
  | nil => rfl
  | cons j js ih =>
      unfold BatchEngine.reclaim
      split
      · exact ih e
      · split
        · exact ih e
        · split
          · rfl
          · exact ih _

/-- `ensure_slot_capacity`. -/
theorem Mirror.ensureSlotCapacity (henv : w.kvEnv.Obliging)
    (hm : Mirror skip e) (hs : e.slots[idx]? = some slot) (want : Nat) :
    Roomier skip idx slot e (e.ensureSlotCapacity w idx want) := by
  unfold BatchEngine.ensureSlotCapacity
  rw [hs]
  simp only
  split
  · exact .refl hm hs
  next hwant =>
  have hpos : 0 < min want e.nCtxTotal := by omega
  split
  next =>
    split
    next c hres =>
      obtain ⟨hsteady, hdead⟩ := hm.solo.kvReserveSeq henv hres
      exact hm.refused hs hsteady hdead
    next kvSlot moves c hres =>
      obtain ⟨hsteady, hdead⟩ := hm.solo.kvReserveSeq henv hres
      exact hm.regrown hs hsteady hdead moves kvSlot.start kvSlot.cap
  next =>
    obtain ⟨hroom, hs₁⟩ := Mirror.reclaim (List.range e.slots.length) hm hs
    have hpos₁ : 0 < min want (e.reclaim idx (min want e.nCtxTotal - slot.cap)
        (List.range e.slots.length)).nCtxTotal := by
      rw [reclaim_nCtxTotal]
      exact hpos
    split
    next c hset =>
      obtain ⟨hsteady, hbirth⟩ := hroom.mirror.solo.kvSetCap henv hpos₁ hset
      exact hroom.trans (hroom.mirror.refused hs₁ hsteady fun s _ => hbirth s)
    next kvSlot moves c hset =>
      obtain ⟨hsteady, hbirth⟩ := hroom.mirror.solo.kvSetCap henv hpos₁ hset
      exact hroom.trans
        (hroom.mirror.regrown hs₁ hsteady
          (fun s _ => hbirth s) moves kvSlot.start kvSlot.cap)

-- ============================ starting

/-- Every slot's record describes its rows. -/
abbrev Mirrored (e : BatchEngine Λ σ) : Prop := Mirror (fun _ => False) e

theorem Mirrored.described (hm : Mirrored e) {i : Nat}
    (hs : e.slots[i]? = some slot) : Described e.cache slot.seq slot.cachedTokens :=
  hm.faithful i slot hs not_false

theorem cachedOf_eq (hs : e.slots[idx]? = some slot) :
    e.cachedOf idx = slot.cachedTokens := by
  rw [cachedOf, hs]
  rfl

/-- What the search for a prefix returns: rows of another slot's record, or
the slot's own. -/
theorem sharedPrefix_cases (htrack : w.track = true) (e : BatchEngine Λ σ)
    (idx : Nat) (prompt : List Token) (own : Nat) :
    e.sharedPrefix w idx prompt own = (min own (prompt.length - 1), none)
      ∨ ∃ n j slot, e.sharedPrefix w idx prompt own = (n, some j) ∧ j ≠ idx
        ∧ e.slots[j]? = some slot ∧ n ≤ commonPrefixLen slot.cachedTokens prompt
        ∧ n ≤ prompt.length - 1 := by
  have hwalk : ∀ (l : List (SlotState Λ σ × Nat)) (best : Nat × Option Nat),
      (∀ x ∈ l, e.slots[x.2]? = some x.1) →
      (best = (min own (prompt.length - 1), none)
        ∨ ∃ n j slot, best = (n, some j) ∧ j ≠ idx ∧ e.slots[j]? = some slot
          ∧ n ≤ commonPrefixLen slot.cachedTokens prompt ∧ n ≤ prompt.length - 1) →
      (l.foldl (fun best x =>
          if x.2 = idx ∨ x.1.cachedTokens.isEmpty then best
          else
            let n := min (commonPrefixLen x.1.cachedTokens prompt) (prompt.length - 1)
            if n > best.1 then (n, some x.2) else best) best
          = (min own (prompt.length - 1), none)
        ∨ ∃ n j slot, l.foldl (fun best x =>
            if x.2 = idx ∨ x.1.cachedTokens.isEmpty then best
            else
              let n := min (commonPrefixLen x.1.cachedTokens prompt)
                (prompt.length - 1)
              if n > best.1 then (n, some x.2) else best) best = (n, some j)
          ∧ j ≠ idx ∧ e.slots[j]? = some slot
          ∧ n ≤ commonPrefixLen slot.cachedTokens prompt
          ∧ n ≤ prompt.length - 1) := by
    intro l
    induction l with
    | nil => exact fun best _ hbest => hbest
    | cons x l ih =>
        intro best hl hbest
        rw [List.foldl_cons]
        refine ih _ (fun y hy => hl y (List.mem_cons_of_mem x hy)) ?_
        split
        · exact hbest
        next hx =>
          simp only
          split
          · refine .inr ⟨_, x.2, x.1, rfl, fun h => hx (.inl h),
              hl x List.mem_cons_self, Nat.min_le_left .., Nat.min_le_right ..⟩
          · exact hbest
  unfold sharedPrefix
  rw [if_neg (by simp [htrack])]
  refine hwalk _ _ (fun x hx => ?_) (.inl rfl)
  exact List.mem_zipIdx_iff_getElem?.mp hx

/-- Where a request starts: the rows before it are rows of its prompt. -/
structure Started (idx : Nat) (seq : SeqId) (input : List Token)
    (e : BatchEngine Λ σ) (out : Nat × BatchEngine Λ σ) : Prop where
  mirror : Mirrored out.2
  beside : Beside (· = seq) e out.2
  start_le : out.1 ≤ input.length - 1
  own : ∃ slot, out.2.slots[idx]? = some slot ∧ slot.seq = seq ∧ slot.run = none
    ∧ out.1 ≤ slot.cachedTokens.length
    ∧ slot.cachedTokens.take out.1 = input.take out.1

/-- Nothing is copied. -/
theorem Started.here (hm : Mirrored e) (hs : e.slots[idx]? = some slot)
    (hidle : slot.run = none) {input : List Token} {n : Nat}
    (hn : n ≤ commonPrefixLen slot.cachedTokens input) (hle : n ≤ input.length - 1) :
    Started idx slot.seq input e (n, e) :=
  ⟨hm, .refl _ e, hle, slot, hs, rfl, hidle,
    Nat.le_trans hn (commonPrefixLen_le_left _ _), take_of_le_commonPrefixLen hn⟩

/-- Another slot's rows are copied. -/
theorem Mirrored.copyPrefixFrom (henv : w.kvEnv.Obliging)
    (hgathers : w.gathers = false) (hm : Mirrored e) {src : Nat}
    {from_ : SlotState Λ σ} (hs : e.slots[idx]? = some slot)
    (hsrc : e.slots[src]? = some from_) (hne : src ≠ idx)
    (hidle : slot.run = none) {input : List Token} {rows own : Nat}
    (hrows : rows ≤ commonPrefixLen from_.cachedTokens input)
    (hle : rows ≤ input.length - 1)
    (hown : own ≤ commonPrefixLen slot.cachedTokens input)
    (hownle : own ≤ input.length - 1) :
    Started idx slot.seq input e (e.copyPrefixFrom w src idx rows own) := by
  have hseq : from_.seq ≠ slot.seq := fun h => hne (hm.seq_inj hsrc hs h)
  unfold BatchEngine.copyPrefixFrom
  rw [hs, hsrc]
  simp only [hgathers, Bool.false_eq_true, if_false]
  cases hcopy : e.cache.kvCopyPrefix w.kvEnv from_.seq slot.seq rows with
  | mk r c =>
  obtain ⟨hsolo, hkeeps, hbirth, hrefused, hdone⟩ :=
    hm.solo.kvCopyPrefix henv hseq hcopy
  cases r with
  | error msg =>
      simp only [Bool.false_eq_true, if_false]
      rw [hrefused nofun]
      exact .here hm hs hidle hown hownle
  | ok u =>
      obtain ⟨hsrcw, hdstw, hlayers, hread⟩ := hdone rfl
      simp only [if_true]
      have hlen : rows ≤ from_.cachedTokens.length :=
        Nat.le_trans hrows (commonPrefixLen_le_left _ _)
      have hlt : idx < e.slots.length := (List.getElem?_eq_some_iff.mp hs).1
      have hrest (i : Nat) (hi : idx ≠ i) :
          (e.slots.set idx
            { slot with cachedTokens := from_.cachedTokens.take rows })[i]?
            = e.slots[i]? := List.getElem?_set_ne hi
      -- the copied rows read as the source's
      have hcopied : Described c slot.seq (from_.cachedTokens.take rows) := by
        have hd := (hm.described hsrc).take rows
        refine ⟨by rw [List.length_take]; omega, fun i hi p hp => ?_⟩
        rw [hread i p (by rw [List.length_take] at hp; omega)]
        exact hd.rows i (fun hnone => hi ((hlayers i).mpr hnone)) p hp
      refine ⟨?_, ⟨List.length_set .., fun i a ha => ?_,
        fun s h hs' hd _ => hd.keeps (hkeeps s hs'),
        fun s _ hdead => hbirth s hdead⟩, hle, _, List.getElem?_set_self hlt,
          rfl, hidle, ?_, ?_⟩
      · refine hm.rebuilt hsolo (List.length_set ..) fun i a ha => ?_
        by_cases hi : idx = i
        · subst hi
          rw [hs] at ha
          cases ha
          refine ⟨_, List.getElem?_set_self hlt, rfl, fun _ => hcopied,
            fun run hr => ?_⟩
          rw [show slot.run = some run from hr] at hidle
          cases hidle
        · refine ⟨a, (hrest i hi).trans ha, rfl, fun _ => ?_, hm.inStep i a ha⟩
          exact (hm.described ha).keeps
            (hkeeps _ fun h => hi (hm.seq_inj ha hs h).symm)
      · by_cases hi : idx = i
        · subst hi
          rw [hs] at ha
          cases ha
          exact ⟨_, List.getElem?_set_self hlt, rfl, rfl⟩
        · exact ⟨a, (hrest i hi).trans ha, rfl, rfl⟩
      · rw [List.length_take]
        omega
      · rw [List.take_take, Nat.min_self]
        exact take_of_le_commonPrefixLen hrows

/-- The longest prefix on offer, as rows of the slot. -/
theorem Mirrored.startFrom (henv : w.kvEnv.Obliging)
    (hgathers : w.gathers = false) (htrack : w.track = true) (hm : Mirrored e)
    (hs : e.slots[idx]? = some slot) (hidle : slot.run = none) (input : List Token) :
    Started idx slot.seq input e (e.startFrom w idx input) := by
  obtain ⟨own, hown⟩ : ∃ own, own = (e.feedSpan w idx input).1 := ⟨_, rfl⟩
  have hspan : own
      = min (commonPrefixLen slot.cachedTokens input) (input.length - 1) := by
    rw [hown, feedSpan, htrack, if_pos rfl, cachedOf_eq hs]
    rfl
  unfold BatchEngine.startFrom
  simp only [← hown]
  rcases sharedPrefix_cases htrack e idx input own with heq
    | ⟨n, j, other, heq, hj, ho, hn, hle⟩
  · rw [heq]
    exact .here hm hs hidle (by omega) (by omega)
  · rw [heq]
    exact hm.copyPrefixFrom henv hgathers hs ho hj hidle hn hle (by omega) (by omega)

end BatchEngine
end Minfer.Server
