/-
The mask is what `accept_token` accepts.

The memoized walk over a piece succeeds exactly when `consume` does
(`allows_eq`); a token the first-codepoint index leaves out cannot be
consumed (`contains_of_step`); so a bit is set exactly when the token's piece
can be consumed, whichever walk runs, and a cached mask is the mask of its
state.
-/
import Minfer.Grammar.Mask
import Minfer.Grammar.Proofs.Recognise

namespace Minfer.Gbnf

open Minfer.Tokenize (Text)
open Minfer.Lib (bind_eq_ok)

variable {rules : Rules}

-- ============================== bitset

@[simp] theorem length_setBit (bits : Bits) (id : Nat) :
    (setBit bits id).length = bits.length := by
  simp [setBit]

variable {n id c : Nat} {ranges : Ranges} {buckets : List (Nat × List Nat)}

/-- The bits of a one that was shifted. -/
theorem getLsbD_one_shiftLeft {k : Nat} (hk : k < 64) :
    (1#64 <<< n).getLsbD k = decide (k = n) := by
  rw [BitVec.getLsbD_shiftLeft]
  by_cases hkn : k = n
  · subst hkn
    simp [hk]
  · have hoff : ¬ k < n → k - n ≠ 0 := by omega
    by_cases hlt : k < n
    · simp [hlt, hkn]
    · simp [hlt, hkn, BitVec.getLsbD_one, hoff hlt]

/-- A bit of a word, as the mask test finds it. -/
theorem and_one_shiftLeft (word : BitVec 64) (h : n < 64) :
    (word &&& (1#64 <<< n) != 0#64) = word.getLsbD n := by
  have hbits : ∀ k, k < 64 →
      (word &&& (1#64 <<< n)).getLsbD k
      = (word.getLsbD k && decide (k = n)) := by
    intro k hk
    rw [BitVec.getLsbD_and, getLsbD_one_shiftLeft hk]
  cases hbit : word.getLsbD n with
  | true =>
      rw [bne_iff_ne]
      intro hz
      have hn := hbits n h
      rw [hz, hbit] at hn
      simp at hn
  | false =>
      rw [bne_eq_false_iff_eq]
      apply BitVec.eq_of_getLsbD_eq
      intro k hk
      rw [hbits k hk]
      by_cases hkn : k = n
      · subst hkn
        simp [hbit]
      · simp [hkn]

theorem hasBit_eq (bits : Bits) (id : Nat) :
    hasBit bits id = (bits[id / 64]?.getD 0#64).getLsbD (id % 64) := by
  unfold hasBit
  cases bits[id / 64]? with
  | none => simp
  | some word => exact and_one_shiftLeft word (Nat.mod_lt _ (by omega))

/-- Setting a bit sets it, and no other. -/
theorem hasBit_setBit {bits : Bits} (h : id / 64 < bits.length) (j : Nat) :
    hasBit (setBit bits id) j = true ↔ j = id ∨ hasBit bits j = true := by
  rw [hasBit_eq, hasBit_eq, setBit, List.getElem?_modify]
  have hmod : j % 64 < 64 := Nat.mod_lt _ (by omega)
  by_cases hword : id / 64 = j / 64
  · have hj : bits[j / 64]? = some bits[j / 64] :=
      List.getElem?_eq_getElem (hword ▸ h)
    simp only [if_pos hword, hj]
    change ((bits[j / 64] ||| 1#64 <<< (id % 64)).getLsbD (j % 64) = true) ↔ _
    rw [BitVec.getLsbD_or, getLsbD_one_shiftLeft hmod]
    have hid : j % 64 = id % 64 ↔ j = id := by omega
    simp only [Bool.or_eq_true, decide_eq_true_eq, hid, Option.getD_some]
    exact or_comm
  · have hid : j ≠ id := by
      intro hid
      exact hword (by rw [hid])
    simp [hword, hid]

/-- No bit of an empty bitset is set. -/
theorem hasBit_replicate (n j : Nat) : hasBit (List.replicate n 0#64) j = false := by
  rw [hasBit_eq, List.getElem?_replicate]
  split <;> simp

-- ================================ walk

theorem prefix_get {α : Type} {l l' : List α} (h : l <+: l') {i : Nat} {a : α}
    (hi : l[i]? = some a) : l'[i]? = some a := by
  obtain ⟨t, rfl⟩ := h
  rw [List.getElem?_append_left (List.getElem?_eq_some_iff.1 hi).1]
  exact hi

/-- What a transition taken from a state says of it. -/
def Moves (rules : Rules) (states : List (List Stack)) (live : List Stack)
    (cp : Nat) :
    Option Nat → Prop
  | none => ∃ e, step rules live cp = .error e
  | some next => ∃ after, step rules live cp = .ok after ∧ states[next]? = some after

theorem Moves.mono {states states' : List (List Stack)}
    (h : states <+: states') {live : List Stack} {cp : Nat} {next : Option Nat}
    (hmove : Moves rules states live cp next) :
    Moves rules states' live cp next := by
  cases next with
  | none => exact hmove
  | some next =>
      obtain ⟨after, hstep, hnext⟩ := hmove
      exact ⟨after, hstep, prefix_get h hnext⟩

namespace MaskWalk

/-- The numbers name the states they were given for, and the transitions taken
are those of the automaton. -/
structure Consistent (rules : Rules) (walk : MaskWalk) : Prop where
  interned : ∀ live idx, (live, idx) ∈ walk.intern → walk.states[idx]? = some live
  taken : ∀ cur cp next, ((cur, cp), next) ∈ walk.memo →
    ∃ live, walk.states[cur]? = some live ∧ Moves rules walk.states live cp next

theorem consistent_new (seed : List Stack) : Consistent rules (new seed) := by
  constructor
  · intro live idx h
    obtain ⟨rfl, rfl⟩ : live = seed ∧ idx = 0 := by simpa [new] using h
    rfl
  · intro cur cp next h
    simp [new] at h

variable {walk : MaskWalk}

/-- A state gets a number, and the states before it keep theirs. -/
theorem number_spec (hwalk : walk.Consistent rules) (live : List Stack) :
    (walk.number live).2.Consistent rules
      ∧ walk.states <+: (walk.number live).2.states
      ∧ (walk.number live).2.states[(walk.number live).1]? = some live := by
  unfold number
  split
  · next idx hlookup =>
      obtain ⟨l, r, hintern, -⟩ := List.lookup_eq_some_iff.1 hlookup
      refine ⟨hwalk, List.prefix_rfl, hwalk.interned live idx ?_⟩
      simp [hintern]
  · have hprefix : walk.states <+: walk.states ++ [live] := List.prefix_append _ _
    refine ⟨⟨?_, ?_⟩, hprefix, by simp⟩
    · intro live' idx h
      rcases List.mem_cons.1 h with h | h
      · cases h
        simp
      · exact prefix_get hprefix (hwalk.interned live' idx h)
    · intro cur cp next h
      obtain ⟨live', hlive, hmove⟩ := hwalk.taken cur cp next h
      exact ⟨live', prefix_get hprefix hlive, hmove.mono hprefix⟩

/-- A memoized step is the step. -/
theorem memoStep_spec (hwalk : walk.Consistent rules) {cur : Nat}
    {live : List Stack} (hcur : walk.states[cur]? = some live) (cp : Nat) :
    (walk.memoStep rules cur cp).2.Consistent rules
      ∧ walk.states <+: (walk.memoStep rules cur cp).2.states
      ∧ Moves rules (walk.memoStep rules cur cp).2.states live cp
        (walk.memoStep rules cur cp).1 := by
  unfold memoStep
  split
  · next cached hlookup =>
      obtain ⟨l, r, hmemo, -⟩ := List.lookup_eq_some_iff.1 hlookup
      obtain ⟨live', hlive, hmove⟩ := hwalk.taken cur cp cached (by simp [hmemo])
      rw [hcur] at hlive
      cases hlive
      exact ⟨hwalk, List.prefix_rfl, hmove⟩
  · have hstate : walk.stateAt cur = live := by
      simp [stateAt, List.getD_eq_getElem?_getD, hcur]
    rw [hstate]
    cases hstep : step rules live cp with
    | error e =>
        refine ⟨⟨hwalk.interned, ?_⟩, List.prefix_rfl, e, hstep⟩
        intro cur' cp' next h
        rcases List.mem_cons.1 h with h | h
        · cases h
          exact ⟨live, hcur, e, hstep⟩
        · exact hwalk.taken cur' cp' next h
    | ok after =>
        obtain ⟨hnumber, hprefix, hnext⟩ := number_spec hwalk after
        refine ⟨⟨hnumber.interned, ?_⟩, hprefix, after, hstep, hnext⟩
        intro cur' cp' next h
        rcases List.mem_cons.1 h with h | h
        · cases h
          exact ⟨live, prefix_get hprefix hcur, after, hstep, hnext⟩
        · exact hnumber.taken cur' cp' next h

/-- The walk over a piece succeeds exactly when the bytes can be consumed. -/
theorem allowsLoop_spec (fuel : Nat) (hwalk : walk.Consistent rules)
    {cur : Nat} {live : List Stack}
    (hcur : walk.states[cur]? = some live) (i : Nat) (bytes : List UInt8) :
    (walk.allowsLoop rules fuel cur bytes).2.Consistent rules
      ∧ walk.states <+: (walk.allowsLoop rules fuel cur bytes).2.states
      ∧ (walk.allowsLoop rules fuel cur bytes).1
        = (consumeLoop rules fuel live i bytes).isOk := by
  induction fuel generalizing walk cur live i bytes with
  | zero => cases bytes <;> exact ⟨hwalk, List.prefix_rfl, rfl⟩
  | succ fuel ih =>
      cases bytes with
      | nil => exact ⟨hwalk, List.prefix_rfl, rfl⟩
      | cons b rest =>
          rw [allowsLoop, consumeLoop]
          cases hdecode : decodeAt (b :: rest) with
          | invalid => exact ⟨hwalk, List.prefix_rfl, rfl⟩
          | incomplete =>
              have hstate : walk.stateAt cur = live := by
                simp [stateAt, List.getD_eq_getElem?_getD, hcur]
              refine ⟨hwalk, List.prefix_rfl, ?_⟩
              simp only [hstate]
              split
              next hcomplete => exact hcomplete
              next hcomplete => rw [Bool.not_eq_true _ |>.mp hcomplete]; rfl
          | cp c len =>
              simp only
              split
              · exact ⟨hwalk, List.prefix_rfl, rfl⟩
              · obtain ⟨hwalk', hprefix, hmove⟩ := memoStep_spec hwalk hcur c
                generalize walk.memoStep rules cur c = stepped at hwalk' hprefix hmove
                obtain ⟨next, walk'⟩ := stepped
                cases next with
                | none =>
                    obtain ⟨e, hstep⟩ := hmove
                    rw [hstep]
                    exact ⟨hwalk', hprefix, rfl⟩
                | some next =>
                    obtain ⟨after, hstep, hnext⟩ := hmove
                    rw [hstep]
                    obtain ⟨hwalk'', hprefix', hallows⟩ := ih hwalk' hnext (i + len)
                      ((b :: rest).drop len)
                    exact ⟨hwalk'', hprefix.trans hprefix', hallows⟩

/-- `allows` from the seed. -/
theorem allows_spec (hwalk : walk.Consistent rules) {seed : List Stack}
    (hseed : walk.states[0]? = some seed) (piece : List UInt8) :
    (walk.allows rules piece).2.Consistent rules
      ∧ (walk.allows rules piece).2.states[0]? = some seed
      ∧ (walk.allows rules piece).1 = (consumeBytes rules seed 0 piece).isOk := by
  obtain ⟨hwalk', hprefix, hallows⟩ :=
    allowsLoop_spec piece.length hwalk hseed 0 piece
  exact ⟨hwalk', prefix_get hprefix hseed, hallows⟩

end MaskWalk

-- ============================ accepted

/-- A codepoint of a range. -/
def InRange (c : Nat) (ranges : Ranges) : Prop := ∃ r ∈ ranges, r.1 ≤ c ∧ c ≤ r.2

theorem inRange_cons {r : Nat × Nat} :
    InRange c (r :: ranges) ↔ (r.1 ≤ c ∧ c ≤ r.2) ∨ InRange c ranges := by
  simp [InRange]

/-- Every range holds a codepoint. -/
def Filled (ranges : Ranges) : Prop := ∀ r ∈ ranges, r.1 ≤ r.2

/-- Ascending, disjoint, and not adjacent. -/
def Separated (ranges : Ranges) : Prop := ranges.Pairwise fun r s => r.2 + 1 < s.1

theorem start_mergeSorted (h : ranges.Pairwise (·.1 ≤ ·.1)) :
    ∀ r ∈ ranges.head?, ∀ s ∈ mergeSorted ranges, r.1 ≤ s.1 := by
  induction ranges using mergeSorted.induct with
  | case1 => simp
  | case2 r =>
      intro t ht s hs
      simp only [List.head?_cons, Option.mem_some_iff] at ht
      simp only [mergeSorted, List.mem_singleton] at hs
      subst ht hs
      exact Nat.le_refl _
  | case3 r s rest hle ih =>
      intro t ht u hu
      simp only [List.head?_cons, Option.mem_some_iff] at ht
      subst ht
      rw [mergeSorted, if_pos hle] at hu
      obtain ⟨hhead, hrest⟩ := List.pairwise_cons.1 h
      have hmerged : ((r.1, max r.2 s.2) :: rest).Pairwise (·.1 ≤ ·.1) :=
        List.pairwise_cons.2 ⟨fun v hv => hhead v (List.mem_cons_of_mem _ hv),
          hrest.of_cons⟩
      exact ih hmerged (r.1, max r.2 s.2) rfl u hu
  | case4 r s rest hle ih =>
      intro t ht u hu
      simp only [List.head?_cons, Option.mem_some_iff] at ht
      subst ht
      rw [mergeSorted, if_neg hle] at hu
      obtain ⟨hhead, hrest⟩ := List.pairwise_cons.1 h
      rcases List.mem_cons.1 hu with rfl | hu
      · exact Nat.le_refl _
      · exact Nat.le_trans (hhead s List.mem_cons_self) (ih hrest s rfl u hu)

/-- Merging sorted ranges keeps their codepoints and separates them. -/
theorem mergeSorted_spec (h : ranges.Pairwise (·.1 ≤ ·.1))
    (hfull : Filled ranges) :
    Filled (mergeSorted ranges) ∧ Separated (mergeSorted ranges)
      ∧ ∀ c, InRange c ranges → InRange c (mergeSorted ranges) := by
  induction ranges using mergeSorted.induct with
  | case1 => simp [mergeSorted, Filled, Separated]
  | case2 r =>
      rw [mergeSorted]
      exact ⟨hfull, List.pairwise_singleton _ _, fun _ hc => hc⟩
  | case3 r s rest hle ih =>
      obtain ⟨hhead, hrest⟩ := List.pairwise_cons.1 h
      have hr := hfull r List.mem_cons_self
      have hs := hfull s (List.mem_cons_of_mem _ List.mem_cons_self)
      have hrs := hhead s List.mem_cons_self
      have hmerged : ((r.1, max r.2 s.2) :: rest).Pairwise (·.1 ≤ ·.1) :=
        List.pairwise_cons.2 ⟨fun v hv => hhead v (List.mem_cons_of_mem _ hv),
          hrest.of_cons⟩
      have hfull' : Filled ((r.1, max r.2 s.2) :: rest) := by
        intro v hv
        rcases List.mem_cons.1 hv with rfl | hv
        · exact Nat.le_trans hr (Nat.le_max_left _ _)
        · exact hfull v (List.mem_cons_of_mem _ (List.mem_cons_of_mem _ hv))
      rw [mergeSorted, if_pos hle]
      obtain ⟨hfilled, hseparated, hin⟩ := ih hmerged hfull'
      refine ⟨hfilled, hseparated, fun c hc => hin c ?_⟩
      rw [inRange_cons] at hc ⊢
      rcases hc with hc | hc
      · left
        simp only
        omega
      · rw [inRange_cons] at hc
        rcases hc with hc | hc
        · left
          simp only
          omega
        · exact Or.inr hc
  | case4 r s rest hle ih =>
      obtain ⟨hhead, hrest⟩ := List.pairwise_cons.1 h
      have hfull' : Filled (s :: rest) :=
        fun v hv => hfull v (List.mem_cons_of_mem _ hv)
      obtain ⟨hfilled, hseparated, hin⟩ := ih hrest hfull'
      rw [mergeSorted, if_neg hle]
      refine ⟨?_, ?_, ?_⟩
      · intro v hv
        rcases List.mem_cons.1 hv with rfl | hv
        · exact hfull v List.mem_cons_self
        · exact hfilled v hv
      · apply List.pairwise_cons.2
        refine ⟨fun u hu => ?_, hseparated⟩
        have hstart := start_mergeSorted hrest s rfl u hu
        omega
      · intro c hc
        rw [inRange_cons] at hc ⊢
        exact hc.imp_right (hin c)

/-- Of separated ranges, the last that starts at or before a codepoint is the
one that holds it, if one does. -/
theorem last_takeWhile (hfull : Filled ranges)
    (hsep : Separated ranges) (h : InRange c ranges) :
    ∃ r, (ranges.takeWhile fun r => decide (r.1 ≤ c)).getLast? = some r
      ∧ c ≤ r.2 := by
  induction ranges with
  | nil => obtain ⟨r, hr, -⟩ := h; exact absurd hr List.not_mem_nil
  | cons r rest ih =>
      obtain ⟨hhead, hrest⟩ := List.pairwise_cons.1 hsep
      have hfull' : Filled rest := fun v hv => hfull v (List.mem_cons_of_mem _ hv)
      rcases inRange_cons.1 h with hc | hc
      · have hstop : rest.takeWhile (fun r => decide (r.1 ≤ c)) = [] := by
          cases rest with
          | nil => rfl
          | cons s rest =>
              have hs := hhead s List.mem_cons_self
              rw [List.takeWhile_cons_of_neg]
              simp
              omega
        refine ⟨r, ?_, hc.2⟩
        rw [List.takeWhile_cons_of_pos (by simpa using hc.1), hstop]
        rfl
      · obtain ⟨s, hs, hcs⟩ := hc
        have hstart : r.1 ≤ c := by
          have := hhead s hs
          have := hfull r List.mem_cons_self
          omega
        obtain ⟨t, ht, hct⟩ := ih hfull' hrest ⟨s, hs, hcs⟩
        refine ⟨t, ?_, hct⟩
        rw [List.takeWhile_cons_of_pos (by simpa using hstart),
          List.getLast?_cons, ht]
        rfl

theorem mem_codepoints {accepted : Accepted} (h : InRange c accepted.ranges) :
    c ∈ accepted.codepoints := by
  obtain ⟨r, hr, hle, hge⟩ := h
  refine List.mem_flatMap.2 ⟨r, hr, List.mem_range'_1.2 ⟨hle, ?_⟩⟩
  omega

theorem contains_of_inRange {accepted : Accepted}
    (hfull : Filled accepted.ranges) (hsep : Separated accepted.ranges)
    (h : InRange c accepted.ranges) :
    accepted.contains c = true := by
  obtain ⟨r, hr, hc⟩ := last_takeWhile hfull hsep h
  rw [Accepted.contains, hr]
  exact decide_eq_true hc

theorem inRange_nonSurrogateParts {lo hi : Nat} (hc : isSurrogate c = false)
    (h : lo ≤ c ∧ c ≤ hi) :
    InRange c (nonSurrogateParts lo hi) := by
  have hout : c < 0xD800 ∨ 0xDFFF < c := by
    simp only [isSurrogate, Bool.and_eq_false_iff, decide_eq_false_iff_not] at hc
    omega
  unfold nonSurrogateParts
  split
  · exact ⟨_, List.mem_singleton_self _, h⟩
  · rcases hout with hout | hout
    · refine ⟨(lo, 0xD800 - 1), ?_, h.1, by simp only; omega⟩
      rw [if_pos (by omega)]
      exact List.mem_append_left _ (List.mem_singleton_self _)
    · refine ⟨(0xDFFF + 1, hi), ?_, by simp only; omega, h.2⟩
      rw [if_pos (show hi > 0xDFFF by omega)]
      exact List.mem_append_right _ (List.mem_singleton_self _)

theorem filled_nonSurrogateParts {lo hi : Nat} (h : lo ≤ hi) :
    Filled (nonSurrogateParts lo hi) := by
  intro r hr
  unfold nonSurrogateParts at hr
  split at hr
  · cases List.mem_singleton.1 hr
    exact h
  · rcases List.mem_append.1 hr with hr | hr
    · split at hr
      · cases List.mem_singleton.1 hr
        simp only
        omega
      · exact absurd hr List.not_mem_nil
    · split at hr
      · cases List.mem_singleton.1 hr
        simp only
        omega
      · exact absurd hr List.not_mem_nil

/-- What an instruction consumes is in its ranges. -/
theorem inRange_firstRanges {inst : Inst}
    (h : inst.firstRanges = some ranges) (hc : isSurrogate c = false)
    (hconsumes : inst.consumes c = true) : InRange c ranges := by
  cases inst with
  | cp d =>
      obtain rfl : d = c := by simpa [Inst.consumes] using hconsumes
      simp only [Inst.firstRanges, hc, Option.some.injEq] at h
      subst h
      exact ⟨(d, d), List.mem_singleton_self _, Nat.le_refl _, Nat.le_refl _⟩
  | cls negated rs =>
      cases negated with
      | true => simp [Inst.firstRanges] at h
      | false =>
          simp only [Inst.firstRanges, Option.some.injEq] at h
          subst h
          obtain ⟨r, hr, hin⟩ : ∃ r ∈ rs, r.1 ≤ c ∧ c ≤ r.2 := by
            simpa [Inst.consumes, inRanges] using hconsumes
          obtain ⟨part, hpart, hcpart⟩ := inRange_nonSurrogateParts hc hin
          exact ⟨part, List.mem_flatMap.2 ⟨r, hr, hpart⟩, hcpart⟩
  | any => simp [Inst.firstRanges] at h
  | ret | split _ _ | jump _ | call _ => simp [Inst.consumes] at hconsumes

theorem filled_firstRanges {inst : Inst} (hinst : inst.Ordered)
    (h : inst.firstRanges = some ranges) : Filled ranges := by
  cases inst with
  | cp d =>
      simp only [Inst.firstRanges, Option.some.injEq] at h
      subst h
      intro r hr
      split at hr
      · exact absurd hr List.not_mem_nil
      · cases List.mem_singleton.1 hr
        exact Nat.le_refl _
  | cls negated rs =>
      cases negated with
      | true => simp [Inst.firstRanges] at h
      | false =>
          simp only [Inst.firstRanges, Option.some.injEq] at h
          subst h
          intro part hpart
          obtain ⟨r, hr, hpart⟩ := List.mem_flatMap.1 hpart
          exact filled_nonSurrogateParts (hinst.2 r hr) part hpart
  | any => simp [Inst.firstRanges] at h
  | ret | split _ _ | jump _ | call _ =>
      simp only [Inst.firstRanges, Option.some.injEq] at h
      subst h
      exact fun r hr => absurd hr List.not_mem_nil

theorem rangesOf_spec {live : List Stack}
    (h : rangesOf rules live = some ranges) :
    (∀ st ∈ live, ∃ rs, (instAt rules st.top).firstRanges = some rs
      ∧ ∀ r ∈ rs, r ∈ ranges)
      ∧ ∀ r ∈ ranges, ∃ st ∈ live, ∃ rs, (instAt rules st.top).firstRanges
        = some rs ∧ r ∈ rs := by
  induction live generalizing ranges with
  | nil =>
      cases h
      simp
  | cons st live ih =>
      rw [rangesOf] at h
      obtain ⟨rs, hrs, h⟩ := Option.bind_eq_some_iff.1 h
      obtain ⟨others, hothers, h⟩ := Option.bind_eq_some_iff.1 h
      cases h
      obtain ⟨hall, hfrom⟩ := ih hothers
      constructor
      · intro st' hst'
        rcases List.mem_cons.1 hst' with rfl | hst'
        · exact ⟨rs, hrs, fun r hr => List.mem_append_left _ hr⟩
        · obtain ⟨rs', hrs', hsub⟩ := hall st' hst'
          exact ⟨rs', hrs', fun r hr => List.mem_append_right _ (hsub r hr)⟩
      · intro r hr
        rcases List.mem_append.1 hr with hr | hr
        · exact ⟨st, List.mem_cons_self, rs, hrs, hr⟩
        · obtain ⟨st', hst', rs', hrs', hr'⟩ := hfrom r hr
          exact ⟨st', List.mem_cons_of_mem _ hst', rs', hrs', hr'⟩

/-- The codepoints a frontier can consume are accepted. -/
theorem accepted_spec (hrules : ∀ f, (instAt rules f).Ordered)
    {live : List Stack} (hwide : (firstCodepoints rules live).wide = false) :
    Filled (firstCodepoints rules live).ranges
      ∧ Separated (firstCodepoints rules live).ranges
      ∧ ∀ c, isSurrogate c = false →
        ∀ st ∈ live, (instAt rules st.top).consumes c = true →
        InRange c (firstCodepoints rules live).ranges := by
  unfold firstCodepoints at hwide ⊢
  cases hranges : rangesOf rules live with
  | none => simp [hranges] at hwide
  | some ranges =>
      obtain ⟨hall, hfrom⟩ := rangesOf_spec hranges
      have hfull : Filled (sortRanges ranges) := by
        intro r hr
        obtain ⟨st, -, rs, hrs, hr⟩ := hfrom r (mem_sortRanges.1 hr)
        exact filled_firstRanges (hrules _) hrs r hr
      obtain ⟨hfilled, hseparated, hin⟩ :=
        mergeSorted_spec (sorted_sortRanges ranges) hfull
      refine ⟨hfilled, hseparated, fun c hc st hst hconsumes => hin c ?_⟩
      obtain ⟨rs, hrs, hsub⟩ := hall st hst
      obtain ⟨r, hr, hcr⟩ := inRange_firstRanges hrs hc hconsumes
      exact ⟨r, mem_sortRanges.2 (hsub r hr), hcr⟩

-- =============================== index

/-- A token is indexed under what its piece begins with. -/
def Indexed (pieces : List (Option Piece)) (eogIds : List Nat) (id : Nat)
    (begins : Utf8Step) : Prop :=
  id ∉ eogIds ∧ ∃ piece, pieces[id]? = some (some piece)
    ∧ decodeAt piece.bytes = begins

/-- A token is in the bucket of a codepoint. -/
def InBucket (buckets : List (Nat × List Nat)) (c id : Nat) : Prop :=
  ∃ ids, (c, ids) ∈ buckets ∧ id ∈ ids

theorem inBucket_cons {entry : Nat × List Nat} :
    InBucket (entry :: buckets) c id ↔ (c = entry.1 ∧ id ∈ entry.2)
      ∨ InBucket buckets c id := by
  obtain ⟨c', ids⟩ := entry
  simp only [InBucket, List.mem_cons, Prod.mk.injEq]
  constructor
  · rintro ⟨ids', ⟨rfl, rfl⟩ | h, hid⟩
    · exact Or.inl ⟨rfl, hid⟩
    · exact Or.inr ⟨ids', h, hid⟩
  · rintro (⟨rfl, hid⟩ | ⟨ids', h, hid⟩)
    · exact ⟨ids, Or.inl ⟨rfl, rfl⟩, hid⟩
    · exact ⟨ids', Or.inr h, hid⟩

theorem inBucket_pushBucket {cp j : Nat} :
    InBucket (pushBucket cp id buckets) c j ↔ InBucket buckets c j
      ∨ (c = cp ∧ j = id) := by
  induction buckets with
  | nil => simp [pushBucket, InBucket]
  | cons entry rest ih =>
      obtain ⟨c', ids⟩ := entry
      rw [pushBucket]
      split
      · rw [inBucket_cons]
        simp only [List.mem_singleton]
        exact or_comm
      · split
        · next heq =>
            subst heq
            rw [inBucket_cons, inBucket_cons]
            simp only [List.mem_append, List.mem_singleton]
            grind
        · rw [inBucket_cons, inBucket_cons, ih, or_assoc]

/-- A key of the buckets after a push. -/
theorem key_pushBucket {cp : Nat} {entry : Nat × List Nat}
    (h : entry ∈ pushBucket cp id buckets) : entry.1 = cp
    ∨ ∃ entry' ∈ buckets, entry'.1 = entry.1 := by
  induction buckets with
  | nil =>
      cases List.mem_singleton.1 h
      exact Or.inl rfl
  | cons first rest ih =>
      rw [pushBucket] at h
      split at h
      · rcases List.mem_cons.1 h with h | h
        · exact Or.inl (by rw [h])
        · exact Or.inr ⟨entry, h, rfl⟩
      · split at h
        · rcases List.mem_cons.1 h with h | h
          · exact Or.inr ⟨first, List.mem_cons_self, by rw [h]⟩
          · exact Or.inr ⟨entry, List.mem_cons_of_mem _ h, rfl⟩
        · rcases List.mem_cons.1 h with h | h
          · exact Or.inr ⟨first, List.mem_cons_self, by rw [h]⟩
          · apply (ih h).imp_right
            intro hrest
            obtain ⟨entry', hentry', hkey⟩ := hrest
            exact ⟨entry', List.mem_cons_of_mem _ hentry', hkey⟩

theorem sorted_pushBucket (h : buckets.Pairwise (·.1 < ·.1)) (cp id : Nat) :
    (pushBucket cp id buckets).Pairwise (·.1 < ·.1) := by
  induction buckets with
  | nil => exact List.pairwise_singleton _ _
  | cons first rest ih =>
      obtain ⟨hhead, hrest⟩ := List.pairwise_cons.1 h
      rw [pushBucket]
      split
      next hlt =>
        apply List.pairwise_cons.2
        refine ⟨fun entry hentry => ?_, h⟩
        rcases List.mem_cons.1 hentry with rfl | hentry
        · exact hlt
        · exact Nat.lt_trans hlt (hhead entry hentry)
      next hlt =>
        split
        next heq => exact List.pairwise_cons.2 ⟨hhead, hrest⟩
        next hne =>
          apply List.pairwise_cons.2
          refine ⟨fun entry hentry => ?_, ih hrest⟩
          rcases key_pushBucket hentry with hcp | ⟨entry', hentry', hkey⟩
          · simp only
            omega
          · rw [← hkey]
            exact hhead entry' hentry'

/-- What the index holds of the tokens before `n`. -/
structure IndexedBelow (pieces : List (Option Piece)) (eogIds : List Nat)
    (n : Nat) (index : TokenIndex) : Prop where
  headless : ∀ id, id ∈ index.headless ↔ id < n ∧ Indexed pieces eogIds id .incomplete
  buckets : ∀ c id, InBucket index.buckets c id
    ↔ id < n ∧ ∃ len, Indexed pieces eogIds id (.cp c len)
  sorted : index.buckets.Pairwise (·.1 < ·.1)

theorem IndexedBelow.add {pieces : List (Option Piece)} {eogIds : List Nat}
    {index : TokenIndex} (h : IndexedBelow pieces eogIds n index)
    {piece : Option Piece} (hn : pieces[n]? = some piece) :
    IndexedBelow pieces eogIds (n + 1) (index.add eogIds n piece) := by
  -- token `n` is the only new one
  have hstep : ∀ begins id, (id < n + 1 ∧ Indexed pieces eogIds id begins)
      ↔ (id < n ∧ Indexed pieces eogIds id begins)
        ∨ (id = n ∧ Indexed pieces eogIds n begins) := by
    intro begins id
    constructor
    · rintro ⟨hlt, hid⟩
      rcases Nat.lt_succ_iff_lt_or_eq.1 hlt with hlt | rfl
      · exact Or.inl ⟨hlt, hid⟩
      · exact Or.inr ⟨rfl, hid⟩
    · rintro (⟨hlt, hid⟩ | ⟨rfl, hid⟩)
      · exact ⟨by omega, hid⟩
      · exact ⟨by omega, hid⟩
  have hnew : ∀ begins, Indexed pieces eogIds n begins
      ↔ n ∉ eogIds ∧ ∃ p, piece = some p ∧ decodeAt p.bytes = begins := by
    intro begins
    simp [Indexed, hn]
  have hbuckets : ∀ c id, (id < n + 1 ∧ ∃ len, Indexed pieces eogIds id (.cp c len))
      ↔ InBucket index.buckets c id
        ∨ (id = n ∧ ∃ len, Indexed pieces eogIds n (.cp c len)) := by
    intro c id
    rw [h.buckets]
    constructor
    · rintro ⟨hlt, len, hid⟩
      rcases (hstep _ id).1 ⟨hlt, hid⟩ with ⟨hlt, hid⟩ | ⟨rfl, hid⟩
      · exact Or.inl ⟨hlt, len, hid⟩
      · exact Or.inr ⟨rfl, len, hid⟩
    · rintro (⟨hlt, len, hid⟩ | ⟨rfl, len, hid⟩)
      · exact ⟨by omega, len, hid⟩
      · exact ⟨by omega, len, hid⟩
  have hkeep (hnone : ∀ begins, begins ≠ .invalid →
      ¬ Indexed pieces eogIds n begins) :
      IndexedBelow pieces eogIds (n + 1) index := by
    refine ⟨fun id => ?_, fun c id => ?_, h.sorted⟩
    · rw [hstep, h.headless]
      have := hnone .incomplete (by simp)
      simp [this]
    · rw [hbuckets]
      have : ¬ ∃ len, Indexed pieces eogIds n (.cp c len) := by
        rintro ⟨len, hid⟩
        exact hnone _ (by simp) hid
      simp [this]
  unfold TokenIndex.add
  split
  · apply hkeep
    intro begins _ hid
    obtain ⟨-, p, hp, -⟩ := (hnew begins).1 hid
    cases hp
  · next p =>
    split
    next heog =>
      apply hkeep
      intro begins _ hid
      exact ((hnew begins).1 hid).1 heog
    next heog =>
      split
      next c len hdecode =>
        have hid : ∀ begins, Indexed pieces eogIds n begins ↔ begins = .cp c len := by
          intro begins
          rw [hnew]
          simp [heog, hdecode, eq_comm]
        refine ⟨fun id => ?_, fun c' id => ?_, sorted_pushBucket h.sorted c n⟩
        · rw [hstep, h.headless]
          simp [hid]
        · rw [hbuckets]
          simp only [hid, inBucket_pushBucket]
          grind
      next hdecode =>
        have hid : ∀ begins, Indexed pieces eogIds n begins
            ↔ begins = .incomplete := by
          intro begins
          rw [hnew]
          simp [heog, hdecode, eq_comm]
        refine ⟨fun id => ?_, fun c' id => ?_, h.sorted⟩
        · rw [hstep, ← h.headless]
          simp [hid]
        · rw [hbuckets]
          simp [hid]
      next hdecode =>
        apply hkeep
        intro begins hne hid
        obtain ⟨-, p', hp', hbegins⟩ := (hnew begins).1 hid
        cases hp'
        exact hne (hbegins.symm.trans hdecode)

theorem IndexedBelow.addAll {pieces : List (Option Piece)} {eogIds : List Nat}
    {rest : List (Option Piece)} {index : TokenIndex}
    (h : IndexedBelow pieces eogIds n index) (hrest : pieces.drop n = rest) :
    IndexedBelow pieces eogIds (n + rest.length) (index.addAll eogIds n rest) := by
  induction rest generalizing n index with
  | nil => exact h
  | cons piece rest ih =>
      have hn : pieces[n]? = some piece := by
        rw [← List.head?_drop, hrest]
        rfl
      have hdrop : pieces.drop (n + 1) = rest := by
        rw [← List.drop_drop, hrest]
        rfl
      have hadd := ih (h.add hn) hdrop
      rwa [List.length_cons, Nat.add_comm rest.length 1, ← Nat.add_assoc]

/-- Every token is indexed under what its piece begins with. -/
theorem indexed_build (pieces : List (Option Piece)) (eogIds : List Nat) :
    IndexedBelow pieces eogIds pieces.length (TokenIndex.build pieces eogIds) := by
  have hempty : IndexedBelow pieces eogIds 0 ⟨[], []⟩ :=
    ⟨fun id => by simp, fun c id => by simp [InBucket], List.Pairwise.nil⟩
  have hall : IndexedBelow pieces eogIds (0 + pieces.length) _ := hempty.addAll rfl
  rwa [Nat.zero_add] at hall

-- ============================= marking

/-- A walk in progress: the bits set so far. -/
structure Marking (rules : Rules) (seed : List Stack) (words : Nat)
    (acc : Bits × MaskWalk) (marked : Nat → Prop) : Prop where
  consistent : acc.2.Consistent rules
  seed : acc.2.states[0]? = some seed
  length : acc.1.length = words
  marks : ∀ j, hasBit acc.1 j = true ↔ marked j

namespace Marking

variable {seed : List Stack} {words : Nat} {acc : Bits × MaskWalk}
  {marked : Nat → Prop}

theorem congr (h : Marking rules seed words acc marked) {marked' : Nat → Prop}
    (heq : ∀ j, marked j ↔ marked' j) : Marking rules seed words acc marked' :=
  ⟨h.consistent, h.seed, h.length, fun j => (h.marks j).trans (heq j)⟩

/-- A piece is walked, and its bit set if it is allowed. -/
theorem walk (h : Marking rules seed words acc marked) {id : Nat}
    (hid : id / 64 < words) (piece : List UInt8) :
    Marking rules seed words
      (if (acc.2.allows rules piece).1 then setBit acc.1 id else acc.1,
        (acc.2.allows rules piece).2)
      (fun j => marked j
        ∨ (j = id ∧ (consumeBytes rules seed 0 piece).isOk = true)) := by
  obtain ⟨hconsistent, hseed, hallows⟩ :=
    MaskWalk.allows_spec h.consistent h.seed piece
  rw [hallows]
  refine ⟨hconsistent, hseed, ?_, fun j => ?_⟩
  · split
    · rw [length_setBit]
      exact h.length
    · exact h.length
  · split
    next hok =>
      have hword : id / 64 < acc.1.length := by rw [h.length]; exact hid
      rw [hasBit_setBit hword, h.marks, hok]
      simp [or_comm]
    next hok =>
      rw [h.marks]
      simp [hok]

/-- A loop over tokens marks those that pass. -/
theorem foldl {step : Bits × MaskWalk → Nat → Bits × MaskWalk}
    {pass : Nat → Prop} {ids : List Nat}
    (hstep : ∀ acc marked, Marking rules seed words acc marked → ∀ id ∈ ids,
      Marking rules seed words (step acc id) fun j => marked j
        ∨ (j = id ∧ pass j)) (h : Marking rules seed words acc marked) :
    Marking rules seed words (ids.foldl step acc) fun j => marked j
      ∨ (j ∈ ids ∧ pass j) := by
  induction ids generalizing acc marked with
  | nil => exact h.congr fun j => by simp
  | cons id ids ih =>
      have hfirst := hstep acc marked h id List.mem_cons_self
      have hrest :=
        ih (fun acc marked h id hid =>
          hstep acc marked h id (List.mem_cons_of_mem _ hid))
        hfirst
      refine hrest.congr fun j => ?_
      rw [List.mem_cons, or_assoc, or_and_right]

end Marking

-- =============================== masks

namespace Grammar

/-- What compilation promises of a grammar. -/
structure Compiled (g : Grammar) : Prop where
  ordered : ∀ f, (instAt g.rules f).Ordered
  pieces : g.pieces.length = g.nVocab
  eog : ∀ id ∈ g.eogIds, id < g.nVocab
  index : g.index = TokenIndex.build g.pieces g.eogIds

theorem compiled_of_fromGbnf {fuel : Nat} {source : Text} {vocab : Vocab}
    {g : Grammar} (h : fromGbnf fuel source vocab = .ok g) : g.Compiled := by
  obtain ⟨program, hprogram, h⟩ := bind_eq_ok.1 h
  cases h
  refine ⟨ordered_instAt hprogram, rfl, fun id hid => ?_, rfl⟩
  have hlt := List.mem_range.1 (List.mem_filter.1 hid).1
  rwa [vocab.sameLength] at hlt

variable {g : Grammar} {key : StateKey}

/-- The piece of a token can be consumed. -/
def Admits (g : Grammar) (key : StateKey) (id : Nat) : Prop :=
  id ∉ g.eogIds ∧ ∃ piece, g.pieceAt id = some piece
    ∧ (consume g.rules key piece.bytes).isOk = true

theorem lt_of_pieceAt (hg : g.Compiled) {id : Nat} {piece : Piece}
    (h : g.pieceAt id = some piece) :
    id < g.nVocab := by
  rw [← hg.pieces]
  by_contra hge
  rw [pieceAt, List.getElem?_eq_none (by omega)] at h
  cases h

theorem pieceAt_eq_some {id : Nat} {piece : Piece} :
    g.pieceAt id = some piece ↔ g.pieces[id]? = some (some piece) := by
  simp [pieceAt, Option.join_eq_some_iff]

/-- Without a carried sequence the bytes are those of the piece. -/
theorem isOk_consume (hpart : key.part = []) (bytes : List UInt8) :
    (consume g.rules key bytes).isOk
      = (consumeBytes g.rules key.liveStacks 0 bytes).isOk := by
  rw [consume, hpart, List.nil_append, ← consumeBytes]
  cases consumeBytes g.rules key.liveStacks 0 bytes with
  | error e => rfl
  | ok r => rfl

theorem marking_eogBits (key : StateKey) (hg : g.Compiled) (accepting : Bool) :
    Marking g.rules key.liveStacks ((g.nVocab + 63) / 64)
      (g.eogBits key accepting, MaskWalk.new key.liveStacks)
      fun j => (key.done = true ∨ accepting = true) ∧ j ∈ g.eogIds := by
  have hset : ∀ ids : List Nat, (∀ id ∈ ids, id < g.nVocab) → ∀ bits : Bits,
      bits.length = (g.nVocab + 63) / 64 →
        (ids.foldl setBit bits).length = (g.nVocab + 63) / 64
        ∧ ∀ j, hasBit (ids.foldl setBit bits) j = true
          ↔ hasBit bits j = true ∨ j ∈ ids := by
    intro ids
    induction ids with
    | nil => exact fun _ bits hbits => ⟨hbits, fun j => by simp⟩
    | cons id ids ih =>
        intro hids bits hbits
        have hid := hids id List.mem_cons_self
        obtain ⟨hlength, hmarks⟩ :=
          ih (fun id hid => hids id (List.mem_cons_of_mem _ hid))
          (setBit bits id) (by rw [length_setBit, hbits])
        refine ⟨hlength, fun j => ?_⟩
        rw [List.foldl_cons, hmarks, hasBit_setBit (by omega), List.mem_cons,
          or_assoc, or_left_comm]
  obtain ⟨hlength, hmarks⟩ :=
    hset g.eogIds hg.eog (List.replicate ((g.nVocab + 63) / 64) 0#64) (by simp)
  refine ⟨MaskWalk.consistent_new _, rfl, ?_, fun j => ?_⟩
  · simp only [eogBits]
    split
    · exact hlength
    · simp
  · simp only [eogBits]
    split
    next hlegal =>
      rw [hmarks, hasBit_replicate]
      simp only [Bool.or_eq_true] at hlegal
      simp [hlegal]
    next hlegal =>
      rw [hasBit_replicate]
      simp only [Bool.or_eq_true, not_or] at hlegal
      simp [hlegal]

/-- A token of the whole-vocabulary walk. -/
theorem marking_visit {words : Nat} (hwords : words = (g.nVocab + 63) / 64)
    {acc : Bits × MaskWalk} {marked : Nat → Prop}
    (h : Marking g.rules key.liveStacks words acc marked) {id : Nat}
    (hid : id < g.nVocab) :
    Marking g.rules key.liveStacks words (g.visit key acc id)
      fun j => marked j ∨ (j = id ∧ g.Admits key j) := by
  have hword : id / 64 < words := by omega
  unfold visit
  split
  next heog =>
    refine h.congr fun j => ?_
    have : ¬ (j = id ∧ g.Admits key j) := by
      intro hj
      obtain ⟨rfl, hj, -⟩ := hj
      exact hj heog
    simp [this]
  next heog =>
    split
    next hnone =>
      refine h.congr fun j => ?_
      have : ¬ (j = id ∧ g.Admits key j) := by
        intro hj
        obtain ⟨rfl, -, piece, hpiece, -⟩ := hj
        rw [hnone] at hpiece
        cases hpiece
      simp [this]
    next piece hpiece =>
      have hadmits : g.Admits key id
          ↔ (consume g.rules key piece.bytes).isOk = true := by
        simp [Admits, heog, hpiece]
      split
      next hpart =>
        refine (h.walk hword piece.bytes).congr fun j => ?_
        rw [← isOk_consume hpart, ← hadmits]
        exact or_congr_right (and_congr_right fun hj => by rw [hj])
      next hpart =>
        refine ⟨h.consistent, h.seed, ?_, fun j => ?_⟩
        · split
          · rw [length_setBit]
            exact h.length
          · exact h.length
        · split
          next hok =>
            have hin := hadmits.2 hok
            have hlength : id / 64 < acc.1.length := by
              rw [h.length]
              exact hword
            rw [hasBit_setBit hlength, h.marks, or_comm]
            exact or_congr_right ⟨fun hj => ⟨hj, by rwa [hj]⟩, And.left⟩
          next hok =>
            have hout := mt hadmits.1 hok
            rw [h.marks]
            exact ⟨Or.inl, fun hj => hj.resolve_right fun hj =>
              hout (by rw [← hj.1]; exact hj.2)⟩

/-- The whole-vocabulary walk. -/
theorem hasBit_maskWhole (hg : g.Compiled) (hdone : key.done = false)
    (accepting : Bool) (j : Nat) :
    hasBit (g.maskWhole key accepting) j = true
      ↔ (accepting = true ∧ j ∈ g.eogIds) ∨ g.Admits key j := by
  rw [maskWhole, if_neg (by simp [hdone])]
  have hmarks := (Marking.foldl (fun acc marked h id hid =>
    marking_visit rfl h (List.mem_range.1 hid))
      (marking_eogBits key hg accepting)).marks j
  rw [hmarks]
  have hrange : g.Admits key j → j ∈ List.range g.nVocab := by
    intro hj
    obtain ⟨-, piece, hpiece, -⟩ := hj
    exact List.mem_range.2 (lt_of_pieceAt hg hpiece)
  rw [and_iff_right_of_imp hrange]
  simp [hdone]

/-- In sorted buckets a codepoint is found where it stands. -/
theorem lookup_of_sorted {buckets : List (Nat × List Nat)}
    (h : buckets.Pairwise (·.1 < ·.1)) {c : Nat}
    {ids : List Nat} : buckets.lookup c = some ids ↔ (c, ids) ∈ buckets := by
  induction buckets with
  | nil => simp
  | cons entry rest ih =>
      obtain ⟨c', ids'⟩ := entry
      obtain ⟨hhead, hrest⟩ := List.pairwise_cons.1 h
      rw [List.lookup_cons, List.mem_cons, Prod.mk.injEq]
      by_cases hc : c = c'
      · subst hc
        have hout : (c, ids) ∉ rest :=
          fun hmem => absurd (hhead _ hmem) (Nat.lt_irrefl _)
        simp [hout, eq_comm]
      · have hbeq : (c == c') = false := by simpa using hc
        simp [hbeq, hc, ih hrest]

/-- The tokens the indexed walk looks at. -/
theorem mem_scanned (hg : g.Compiled) {accepted : Accepted} {j : Nat} :
    (j ∈ (g.scanned accepted).flatten →
      ∃ c len, Indexed g.pieces g.eogIds j (.cp c len))
      ∧ (Filled accepted.ranges → Separated accepted.ranges → ∀ c len,
        InRange c accepted.ranges → Indexed g.pieces g.eogIds j (.cp c len) →
          j ∈ (g.scanned accepted).flatten) := by
  have hindex := indexed_build g.pieces g.eogIds
  rw [← hg.index] at hindex
  have hlookup : ∀ c ids, g.index.buckets.lookup c = some ids
      ↔ (c, ids) ∈ g.index.buckets := by
    intro c ids
    exact lookup_of_sorted hindex.sorted
  constructor
  · intro hj
    obtain ⟨ids, hids, hj⟩ := List.mem_flatten.1 hj
    have hentry : ∃ c, (c, ids) ∈ g.index.buckets := by
      unfold scanned at hids
      split at hids
      · obtain ⟨c, -, hc⟩ := List.mem_filterMap.1 hids
        exact ⟨c, (hlookup c ids).1 hc⟩
      · obtain ⟨entry, hentry, rfl⟩ := List.mem_map.1 hids
        exact ⟨entry.1, (List.mem_filter.1 hentry).1⟩
    obtain ⟨c, hc⟩ := hentry
    obtain ⟨-, len, hid⟩ := (hindex.buckets c j).1 ⟨ids, hc, hj⟩
    exact ⟨c, len, hid⟩
  · intro hfull hsep c len hc hid
    have hlt : j < g.pieces.length := by
      obtain ⟨-, piece, hpiece, -⟩ := hid
      exact (List.getElem?_eq_some_iff.1 hpiece).1
    obtain ⟨ids, hids, hj⟩ := (hindex.buckets c j).2 ⟨hlt, len, hid⟩
    refine List.mem_flatten.2 ⟨ids, ?_, hj⟩
    unfold scanned
    split
    · exact List.mem_filterMap.2 ⟨c, mem_codepoints hc, (hlookup c ids).2 hids⟩
    · refine List.mem_map.2 ⟨(c, ids), List.mem_filter.2 ⟨hids, ?_⟩, rfl⟩
      exact contains_of_inRange hfull hsep hc

/-- The indexed walk. -/
theorem hasBit_maskBuckets (hg : g.Compiled) (hpart : key.part = [])
    (hdone : key.done = false)
    (hwide : (firstCodepoints g.rules key.liveStacks).wide = false)
    (accepting : Bool) (j : Nat) :
    hasBit (g.maskBuckets key accepting
      (firstCodepoints g.rules key.liveStacks)) j = true
      ↔ (accepting = true ∧ j ∈ g.eogIds) ∨ g.Admits key j := by
  obtain ⟨hfull, hsep, haccepted⟩ := accepted_spec hg.ordered hwide
  have hindex := indexed_build g.pieces g.eogIds
  rw [← hg.index] at hindex
  have hpiece : ∀ {id : Nat} {begins : Utf8Step},
      Indexed g.pieces g.eogIds id begins →
      id / 64 < (g.nVocab + 63) / 64
        ∧ (g.Admits key id
          ↔ (consumeBytes g.rules key.liveStacks 0 (g.piece id)).isOk
          = true) := by
    intro id begins hid
    obtain ⟨heog, piece, hp, -⟩ := hid
    rw [← pieceAt_eq_some] at hp
    have hlt := lt_of_pieceAt hg hp
    refine ⟨by omega, ?_⟩
    simp [Admits, heog, hp, Grammar.piece, isOk_consume hpart]
  have hvisit : ∀ ids : List Nat,
      (∀ id ∈ ids, ∃ begins, Indexed g.pieces g.eogIds id begins) →
      ∀ acc marked,
        Marking g.rules key.liveStacks ((g.nVocab + 63) / 64) acc marked →
        ∀ id ∈ ids,
        Marking g.rules key.liveStacks ((g.nVocab + 63) / 64) (g.visitIndexed acc id)
          fun j => marked j ∨ (j = id ∧ g.Admits key j) := by
    intro ids hids acc marked h id hid
    obtain ⟨begins, hindexed⟩ := hids id hid
    obtain ⟨hword, hadmits⟩ := hpiece hindexed
    refine (h.walk hword (g.piece id)).congr fun j => ?_
    rw [← hadmits]
    exact or_congr_right (and_congr_right fun hj => by rw [hj])
  have hheadless : ∀ id ∈ g.index.headless, ∃ begins,
      Indexed g.pieces g.eogIds id begins :=
    fun id hid => ⟨_, ((hindex.headless id).1 hid).2⟩
  have hscanned : ∀ id ∈ (g.scanned (firstCodepoints g.rules key.liveStacks)).flatten,
      ∃ begins, Indexed g.pieces g.eogIds id begins := by
    intro id hid
    obtain ⟨c, len, hid⟩ := (mem_scanned hg).1 hid
    exact ⟨_, hid⟩
  have hfirst := Marking.foldl (hvisit _ hheadless) (marking_eogBits key hg accepting)
  have hmarks := (Marking.foldl (hvisit _ hscanned) hfirst).marks j
  -- a piece that can be consumed is in one of the lists
  have hseen : g.Admits key j → j ∈ g.index.headless
      ∨ j ∈ (g.scanned (firstCodepoints g.rules key.liveStacks)).flatten := by
    intro hj
    obtain ⟨heog, piece, hp, hok⟩ := hj
    have hlt : j < g.pieces.length := by
      rw [hg.pieces]
      exact lt_of_pieceAt hg hp
    rw [isOk_consume hpart] at hok
    rw [pieceAt_eq_some] at hp
    cases hdecode : decodeAt piece.bytes with
    | incomplete =>
        exact Or.inl ((hindex.headless j).2 ⟨hlt, heog, piece, hp, hdecode⟩)
    | invalid =>
        cases hbytes : piece.bytes with
        | nil => exact absurd hbytes piece.nonempty
        | cons b rest =>
            rw [hbytes] at hdecode hok
            rw [consumeBytes_cons, hdecode] at hok
            cases hok
    | cp c len =>
        refine Or.inr
          ((mem_scanned hg).2 hfull hsep c len ?_ ⟨heog, piece, hp, hdecode⟩)
        cases hbytes : piece.bytes with
        | nil => exact absurd hbytes piece.nonempty
        | cons b rest =>
            rw [hbytes] at hdecode hok
            rw [consumeBytes_cons, hdecode] at hok
            simp only at hok
            split at hok
            · cases hok
            · next hsurrogate =>
                split at hok
                · cases hok
                · next live hstep =>
                    obtain ⟨st, hst, hconsumes⟩ := consumes_of_step hstep
                    exact haccepted c (by simpa using hsurrogate) st hst hconsumes
  rw [List.foldl_flatten] at hmarks
  refine hmarks.trans ?_
  rw [or_assoc, ← or_and_right, and_iff_right_of_imp hseen]
  simp [hdone]

/-- A mask that is not cached. -/
theorem hasBit_walkMask (hg : g.Compiled) (hdone : key.done = false)
    (accepting : Bool) (j : Nat) :
    hasBit (g.walkMask key accepting) j = true
      ↔ (accepting = true ∧ j ∈ g.eogIds) ∨ g.Admits key j := by
  unfold walkMask
  split
  · exact hasBit_maskWhole hg hdone accepting j
  · next accepted hplan =>
      unfold plan at hplan
      split at hplan
      · cases hplan
      · next hcarried =>
          simp only at hplan
          split at hplan
          · cases hplan
          · next hwide =>
              cases hplan
              simp only [not_or, ne_eq, not_not, Bool.not_eq_true] at hcarried hwide
              exact hasBit_maskBuckets hg hcarried.1 hdone hwide.1 accepting j

-- ================================ runs

/-- What a run keeps: the flag is that of the state, and what is cached is the
mask of its key. -/
structure Faithful (g : Grammar) (st : GrammarState) : Prop where
  accepting : st.accepting = stateKeyAccepting g.rules st.inner
  cached : ∀ key bits, (key, bits) ∈ st.cache →
    bits = g.walkMask key (stateKeyAccepting g.rules key)

variable {st : GrammarState}

theorem faithful_mask (h : g.Faithful st) :
    g.Faithful (g.mask st).2 ∧ (g.mask st).2.inner = st.inner
      ∧ (g.mask st).1 = g.walkMask st.inner st.accepting := by
  unfold mask
  split
  · next bits hlookup =>
      obtain ⟨l, r, hcache, -⟩ := List.lookup_eq_some_iff.1 hlookup
      have hbits := h.cached st.inner bits (by simp [hcache])
      rw [← h.accepting] at hbits
      exact ⟨h, rfl, hbits⟩
  · refine ⟨⟨h.accepting, fun key bits hmem => ?_⟩, rfl, rfl⟩
    rcases List.mem_cons.1 hmem with hmem | hmem
    · cases hmem
      rw [h.accepting]
    · split at hmem
      · exact absurd hmem List.not_mem_nil
      · exact h.cached key bits hmem

/-- Every answer of `accept_token`: a refusal leaves the state as it was. -/
theorem acceptToken_cases (st : GrammarState) (id : Nat) :
    ((∃ e, (g.acceptToken st id).1 = .error e) ∧ (g.acceptToken st id).2 = st)
      ∨ ((g.acceptToken st id).1 = .ok () ∧ st.inner.done = false ∧ id < g.nVocab
        ∧ ((id ∈ g.eogIds ∧ st.accepting = true
            ∧ (g.acceptToken st id).2 = ⟨{ st.inner with done := true }, false, []⟩)
          ∨ (id ∉ g.eogIds ∧ ∃ piece next, g.pieceAt id = some piece
            ∧ consume g.rules st.inner piece.bytes = .ok next
            ∧ (g.acceptToken st id).2
              = { st with inner := next, accepting :=
                stateKeyAccepting g.rules next }))) := by
  unfold acceptToken
  split
  · exact Or.inl ⟨⟨_, rfl⟩, rfl⟩
  next hlt =>
    split
    · exact Or.inl ⟨⟨_, rfl⟩, rfl⟩
    next hdone =>
      have hdone : st.inner.done = false := by simpa using hdone
      split
      next heog =>
        split
        · exact Or.inl ⟨⟨_, rfl⟩, rfl⟩
        next haccepting =>
          exact Or.inr
            ⟨rfl, hdone, by omega,
              Or.inl ⟨heog, by simpa using haccepting, rfl⟩⟩
      next heog =>
        split
        · exact Or.inl ⟨⟨_, rfl⟩, rfl⟩
        next piece hpiece =>
          split
          next next hconsume =>
            exact Or.inr
              ⟨rfl, hdone, by omega,
                Or.inr ⟨heog, piece, next, hpiece, hconsume, rfl⟩⟩
          next => exact Or.inl ⟨⟨_, rfl⟩, rfl⟩

theorem faithful_acceptToken (h : g.Faithful st) (id : Nat) :
    g.Faithful (g.acceptToken st id).2 := by
  rcases acceptToken_cases (g := g) st id with
    ⟨-, hst⟩ | ⟨-, -, -, ⟨-, -, hst⟩ | ⟨-, piece, next, -, -, hst⟩⟩
  · rw [hst]
    exact h
  · rw [hst]
    refine ⟨by simp [stateKeyAccepting], fun key bits hmem =>
      absurd hmem List.not_mem_nil⟩
  · rw [hst]
    exact ⟨rfl, h.cached⟩

theorem Reachable.faithful (h : g.Reachable st) :
    g.Faithful st := by
  induction h with
  | start h =>
      obtain ⟨inner, -, h⟩ := bind_eq_ok.1 h
      cases h
      exact ⟨rfl, fun key bits hmem => absurd hmem List.not_mem_nil⟩
  | mask _ ih => exact (faithful_mask ih).1
  | accept _ id ih => exact faithful_acceptToken ih id

/-- The tokens `accept_token` takes. -/
theorem acceptToken_ok_iff (hg : g.Compiled) (hdone : st.inner.done = false)
    (id : Nat) : (g.acceptToken st id).1 = .ok ()
      ↔ (st.accepting = true ∧ id ∈ g.eogIds) ∨ g.Admits st.inner id := by
  rcases acceptToken_cases (g := g) st id with
    ⟨⟨e, he⟩, hst⟩
      | ⟨hok, -, hlt,
        ⟨heog, haccepting, -⟩ | ⟨heog, piece, next, hpiece, hconsume, -⟩⟩
  · rw [he]
    constructor
    · intro h
      cases h
    · intro h
      exfalso
      revert he
      unfold acceptToken
      rcases h with ⟨haccepting, heog⟩ | ⟨heog, piece, hpiece, hok⟩
      · have hlt := hg.eog id heog
        rw [if_neg (by omega), if_neg (by simp [hdone]), if_pos heog,
          if_neg (by simp [haccepting])]
        intro h
        cases h
      · have hlt := lt_of_pieceAt hg hpiece
        rw [if_neg (by omega), if_neg (by simp [hdone]), if_neg heog, hpiece]
        simp only
        cases hconsume : consume g.rules st.inner piece.bytes with
        | ok next =>
            intro h
            cases h
        | error e =>
            rw [hconsume] at hok
            cases hok
  · simp [hok, haccepting, heog]
  · have hadmits : g.Admits st.inner id :=
      ⟨heog, piece, hpiece, by rw [hconsume]; rfl⟩
    simp [hok, hadmits]

/-- The mask of a state is the set of the tokens `accept_token` takes there,
whichever way it is found, and a token it refuses leaves the state as it was. -/

theorem mask_exact {fuel : Nat} {source : Text} {vocab : Vocab} {g : Grammar}
    (hg : fromGbnf fuel source vocab = .ok g)
    (hst : g.Reachable st) (hdone : st.inner.done = false) (id : Nat) :
    (hasBit (g.mask st).1 id = true ↔ (g.acceptToken st id).1 = .ok ())
      ∧ (hasBit (g.maskWhole st.inner st.accepting) id = true
        ↔ (g.acceptToken st id).1 = .ok ())
      ∧ (∀ accepted, g.plan st.inner = .buckets accepted →
        (hasBit (g.maskBuckets st.inner st.accepting accepted) id = true
          ↔ (g.acceptToken st id).1 = .ok ()))
      ∧ ∀ e, (g.acceptToken st id).1 = .error e → (g.acceptToken st id).2 = st := by
  have hg := compiled_of_fromGbnf hg
  have hok := acceptToken_ok_iff hg hdone id
  have hwalk := hasBit_walkMask hg hdone st.accepting id
  refine ⟨?_, ?_, ?_, ?_⟩
  · rw [(faithful_mask hst.faithful).2.2, hwalk, hok]
  · rw [hasBit_maskWhole hg hdone, hok]
  · intro accepted hplan
    rw [walkMask, hplan] at hwalk
    rw [hwalk, hok]
  · intro e he
    rcases acceptToken_cases (g := g) st id with ⟨-, hst⟩ | ⟨hok, -⟩
    · exact hst
    · rw [he] at hok
      cases hok

/-- The first byte of `é`, the letter, and a token that ends a generation. -/
def accentedTokens : Vocab where
  pieces := [some ⟨[0xC3], by decide⟩, some ⟨[0xC3, 0xA9], by decide⟩, none]
  eog := [false, false, true]
  sameLength := rfl

def accentedGrammar : Grammar where
  toProgram := accented
  nVocab := 3
  pieces := accentedTokens.pieces
  eogIds := [2]
  source := "root ::= \"é\"".toList
  index := ⟨[(0xE9, [1])], [0]⟩

def accentedStart : GrammarState := ⟨⟨[⟨⟨0, 0⟩, []⟩], [], false⟩, false, []⟩

theorem accentedGrammar_compiles :
    fromGbnf 20 "root ::= \"é\"".toList accentedTokens = .ok accentedGrammar := by
  rw [fromGbnf, accented_compiles]
  rfl

theorem accentedGrammar_state : accentedGrammar.state = .ok accentedStart := by
  decide +kernel

/-- The letter and its first byte are allowed; the end of the generation is
not. -/
theorem mask_exact_accented : hasBit (accentedGrammar.mask accentedStart).1 0 = true
    ∧ hasBit (accentedGrammar.mask accentedStart).1 1 = true
    ∧ ¬ hasBit (accentedGrammar.mask accentedStart).1 2 = true := by
  have hexact :=
    mask_exact accentedGrammar_compiles (.start accentedGrammar_state) rfl
  refine ⟨(hexact 0).1.2 ?_, (hexact 1).1.2 ?_, fun h => absurd ((hexact 2).1.1 h) ?_⟩
  · decide +kernel
  · decide +kernel
  · decide +kernel

end Grammar

end Minfer.Gbnf
