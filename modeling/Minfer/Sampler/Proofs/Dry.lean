/-
DRY's repeat lengths are the true ones (`apply_dry`).

The invariant of the reverse Z-algorithm is a box: the window agrees with
itself, `lt` further on, up to `rt`. The counts it has stored are capped, so a
count that falls short of the box may be the cap and not the length; the
length is then past the cap as well.

With the counts known the penalties follow: a token is penalised for the
longest repeat that it would continue, back to a sequence breaker. The
checked loops, which fail where the code would read out of range or wrap,
are shown to be the plain ones (`Boxed.stepChecked`).
-/
import Mathlib.Order.WithBot
import Minfer.Sampler.Dry

namespace Minfer.Sampler

open Minfer.Lib
open Minfer.Server (Token)

variable {recent : List Token} {window limit : Nat}

theorem length_latest (hwindow : window ≤ recent.length) :
    (latest recent window).length = window := by
  simp [latest, hwindow]

variable {i k n allowed : Nat} {st : ZState}

theorem latest_rat (hwindow : window ≤ recent.length) (hi : i < window) :
    (latest recent window)[i]? = some (rat recent i) := by
  have hlt : i < recent.reverse.length := by
    rw [List.length_reverse]
    omega
  rw [latest, List.getElem?_take_of_lt hi, rat, List.getD_eq_getElem?_getD,
    List.getElem?_eq_getElem hlt, Option.getD_some]

/-- The loop that extends a repeat ends where the window stops agreeing. -/
theorem extend_eq (hwindow : window ≤ recent.length) (fuel : Nat)
    (h : Agrees (latest recent window) k n) (hfuel : window ≤ fuel + n + k) :
    extend recent window k fuel n = zLength (latest recent window) k := by
  induction fuel generalizing n with
  | zero =>
      refine (zLength_eq h fun hin => ?_).symm
      rw [length_latest hwindow] at hin
      omega
  | succ fuel ih =>
      rw [extend]
      by_cases hgoes : n + k < window ∧ rat recent n = rat recent (n + k)
      · rw [if_pos hgoes]
        apply ih _ (by omega)
        apply h.succ
        · rw [length_latest hwindow]
          exact hgoes.1
        · rw [latest_rat hwindow (by omega), latest_rat hwindow hgoes.1, hgoes.2]
      · rw [if_neg hgoes]
        refine (zLength_eq h fun hin heq => hgoes ?_).symm
        rw [length_latest hwindow] at hin
        rw [latest_rat hwindow (by omega), latest_rat hwindow hin] at heq
        exact ⟨hin, Option.some.inj heq⟩

-- ============================= the box

variable (recent window limit) in
/-- The count of a shift: how far the window agrees with itself, capped. -/
def capped (k : Nat) : Nat := min limit (zLength (latest recent window) k)

variable (recent window limit) in
/-- Before the round of shift `k`: the counts of the shifts before it, and the
box. -/
structure Boxed (k : Nat) (st : ZState) : Prop where
  length : st.repeatCount.length = window
  counts : ∀ j, 1 ≤ j → j < k →
    st.repeatCount[window - 1 - j]? = some (capped recent window limit j : Int)
  box : (k : Int) ≤ st.rt → ∃ lt m : Nat, st.lt = lt ∧ st.rt + 1 = lt + m
    ∧ 1 ≤ lt ∧ lt < k
    ∧ Agrees (latest recent window) lt m

variable (recent window limit) in
theorem boxed_start :
    Boxed recent window limit 1 ⟨List.replicate window 0, 0, 0⟩ where
  length := List.length_replicate
  counts := by
    intro j hj hlt
    omega
  box := by
    intro hrt
    simp at hrt

/-- The count of a round is entered, with the old box or a new one. -/
theorem Boxed.record
    (h : Boxed recent window limit k st) (hk : k < window) {lt rt : Int}
    (hbox : (k : Int) < rt → ∃ l m : Nat, lt = l ∧ rt + 1 = l + m ∧ 1 ≤ l ∧ l ≤ k
      ∧ Agrees (latest recent window) l m) :
    Boxed recent window limit (k + 1)
      ⟨st.repeatCount.set (window - 1 - k) (capped recent window limit k), lt,
        rt⟩ where
  length := by rw [List.length_set, h.length]
  counts := by
    intro j hj hlt
    by_cases hjk : j = k
    · subst hjk
      rw [List.getElem?_set_self]
      rw [h.length]
      omega
    · rw [List.getElem?_set_ne (by omega)]
      exact h.counts j hj (by omega)
  box := by
    intro hrt
    obtain ⟨l, m, hl, hm, hpos, hlt, hagree⟩ := hbox (by push_cast at hrt; omega)
    exact ⟨l, m, hl, hm, hpos, by omega, hagree⟩

theorem capped_eq (h : n = zLength (latest recent window) k) :
    min (n : Int) limit = capped recent window limit k := by
  rw [capped, ← h]
  omega

/-- What a round of the last two cases finds: the count of the shift less the
box's, which may be capped. -/
theorem Boxed.stored {lt : Nat}
    (h : Boxed recent window limit k st) (hpos : 1 ≤ lt) (hlt : lt < k) :
    st.repeatCount.getD (window - 1 - (k - lt)) 0
      = capped recent window limit (k - lt) := by
  rw [List.getD_eq_getElem?_getD, h.counts (k - lt) (by omega) (by omega),
    Option.getD_some]

/-- A count that falls short of the box is copied: the length is the same, or
past the cap both times. -/
theorem capped_copy (limit : Nat) {lt m : Nat}
    (hbox : Agrees (latest recent window) lt m) (hlt : lt ≤ k)
    (hshort : capped recent window limit (k - lt) + (k - lt) < m) :
    capped recent window limit k = capped recent window limit (k - lt) := by
  unfold capped at hshort ⊢
  by_cases hcap : limit ≤ zLength (latest recent window) (k - lt)
  · have hpast := (le_zLength_box hbox hlt (n := limit) (by omega)).2 hcap
    omega
  · rw [zLength_copy hbox hlt (by omega)]

/-- A count that reaches the end of the box: the window agrees up to there. -/
theorem agrees_of_reaches (limit : Nat) {lt m : Nat}
    (hbox : Agrees (latest recent window) lt m) (hlt : lt ≤ k)
    (hin : k - lt ≤ m)
    (hreaches : m ≤ capped recent window limit (k - lt) + (k - lt)) :
    Agrees (latest recent window) k (m - (k - lt)) := by
  unfold capped at hreaches
  rw [agrees_box hbox hlt (by omega), ← le_zLength_iff]
  omega

/-- A round of the reverse Z-algorithm. -/
theorem Boxed.step (hwindow : window ≤ recent.length)
    (h : Boxed recent window limit k st) (hpos : 1 ≤ k) (hk : k < window) :
    Boxed recent window limit (k + 1) (zStep recent window limit st k) := by
  unfold zStep
  by_cases hout : (k : Int) > st.rt
  · -- outside the box: extended from nothing
    have hz := extend_eq hwindow window (agrees_zero (latest recent window) k)
      (by omega)
    simp only [hout, if_true]
    rw [capped_eq hz]
    by_cases hn : extend recent window k window 0 > 0
    · rw [if_pos hn]
      apply h.record hk
      intro _
      refine ⟨k, zLength (latest recent window) k, rfl, ?_, hpos, le_rfl,
        zLength_agrees _ _⟩
      rw [hz]
      omega
    · rw [if_neg hn]
      apply h.record hk
      intro hrt
      omega
  · obtain ⟨lt, m, hlt, hrt, hltpos, hltk, hbox⟩ := h.box (by omega)
    have hp : ((k : Int) - st.lt).toNat = k - lt := by omega
    have hcount := h.stored hltpos hltk
    simp only [hout, if_false, hp, hcount]
    by_cases hshort : (capped recent window limit (k - lt) : Int) < st.rt - k + 1
    · rw [if_pos hshort]
      have hcopy := capped_copy limit hbox hltk.le (by omega)
      have hmin : min (capped recent window limit (k - lt) : Int) limit
          = capped recent window limit k := by
        rw [hcopy]
        unfold capped
        omega
      rw [hmin]
      apply h.record hk
      intro _
      exact ⟨lt, m, hlt, hrt, hltpos, hltk.le, hbox⟩
    · rw [if_neg hshort]
      have hstart : (st.rt + 1).toNat - k = m - (k - lt) := by omega
      have hagree := agrees_of_reaches limit hbox hltk.le (by omega) (by omega)
      have hz := extend_eq hwindow window hagree (by omega)
      rw [hstart, capped_eq hz]
      apply h.record hk
      intro _
      refine ⟨k, zLength (latest recent window) k, rfl, ?_, hpos, le_rfl,
        zLength_agrees _ _⟩
      rw [hz]
      omega

theorem Boxed.rounds (hwindow : window ≤ recent.length)
    (h : Boxed recent window limit k st) (hpos : 1 ≤ k) (hn : k + n ≤ window) :
    Boxed recent window limit (k + n)
      ((List.range' k n).foldl (zStep recent window limit) st) := by
  induction n generalizing k st with
  | zero => exact h
  | succ n ih =>
      rw [List.range'_succ, List.foldl_cons, ← Nat.add_assoc, Nat.add_right_comm]
      exact ih (h.step hwindow hpos (by omega)) (by omega) (by omega)

/-- The table of the second step. -/
theorem repeatCounts_eq (limit : Nat) (hwindow : window ≤ recent.length)
    (hpos : 1 ≤ k) (hk : k < window) :
    (repeatCounts recent window limit)[window - 1 - k]?
      = some ((min limit (zLength (latest recent window) k) : Nat) : Int) := by
  have hend :=
    (boxed_start recent window limit).rounds hwindow le_rfl (n := window - 1)
    (by omega)
  exact hend.counts k hpos (by omega)

-- ============================ accesses

theorem ratChecked_eq (hi : i < recent.length) :
    ratChecked recent i = some (rat recent i) := by
  have hplace : recent.length - 1 - i < recent.length := by omega
  simp only [ratChecked, usizeSub_of_le (show 1 ≤ recent.length by omega),
    usizeSub_of_le (show i ≤ recent.length - 1 by omega), Option.bind_eq_bind,
      Option.bind_some]
  rw [rat, List.getD_eq_getElem?_getD, List.getElem?_reverse hi,
    List.getElem?_eq_getElem hplace, Option.getD_some]

theorem tailChecked_eq (hi : i < recent.length) {tail : List Token}
    (htail : tail.length ≤ i) :
    tailChecked recent i tail
      = some (tail.zipIdx.all fun (t, offset) =>
        t = rat recent (i - offset - 1)) := by
  apply allM_of_forall
  intro p hp
  obtain ⟨-, hoffset, -⟩ := List.mem_zipIdx hp
  have hbefore : p.2 ≤ i := by omega
  have hplace : 1 ≤ i - p.2 := by omega
  simp only [usizeSub_of_le hbefore, usizeSub_of_le hplace,
    Option.bind_eq_bind, Option.bind_some,
    ratChecked_eq (show i - p.2 - 1 < recent.length by omega), pure]

theorem restartChecked_eq (hi : i < recent.length)
    (breakers : List (List Token)) :
    restartChecked recent breakers i = some (restartAt recent breakers i) := by
  rw [restartChecked, ratChecked_eq hi, Option.bind_eq_bind, Option.bind_some,
    restartAt]
  apply findSomeM?_of_forall
  intro breaker _
  cases breaker with
  | nil => rfl
  | cons head tail =>
      by_cases hhead : head = rat recent i
      · by_cases hlong : tail.length ≤ i
        · simp only [hhead, hlong, tailChecked_eq hi hlong,
            usizeSub_of_le hlong, ne_eq, not_true_eq_false, Nat.not_lt.2 hlong,
            or_self, if_false, Option.bind_eq_bind, Option.bind_some, true_and,
            Option.map_eq_map, Option.map_some]
          split <;> rfl
        · simp [hlong, Nat.lt_of_not_le hlong]
      · simp [hhead]

theorem repLimitChecked_eq (hwindow : window ≤ recent.length)
    (breakers : List (List Token)) :
    repLimitChecked recent window breakers
      = some (repLimit recent window breakers) := by
  have hrestart : (List.range window).findSomeM? (restartChecked recent breakers)
      = some ((List.range window).findSome? (restartAt recent breakers)) := by
    apply findSomeM?_of_forall
    intro i hi
    apply restartChecked_eq
    have := List.mem_range.1 hi
    omega
  rw [repLimitChecked, hrestart]
  rfl

/-- A restart sequence caps the lengths below the window. -/
theorem repLimit_le (breakers : List (List Token)) :
    repLimit recent window breakers ≤ window := by
  rw [repLimit]
  cases hfound : (List.range window).findSome? (restartAt recent breakers) with
  | none => exact le_rfl
  | some n =>
      obtain ⟨i, hi, hrestart⟩ := List.exists_of_findSome?_eq_some hfound
      obtain ⟨breaker, -, hbreaker⟩ := List.exists_of_findSome?_eq_some hrestart
      have hin := List.mem_range.1 hi
      cases breaker with
      | nil => cases hbreaker
      | cons head tail =>
          simp only [Option.ite_none_right_eq_some, Option.some.injEq] at hbreaker
          rw [Option.getD_some]
          omega

theorem extendChecked_eq (hwindow : window ≤ recent.length) (k fuel n : Nat) :
    extendChecked recent window k fuel n = some (extend recent window k fuel n) := by
  induction fuel generalizing n with
  | zero => rfl
  | succ fuel ih =>
      rw [extendChecked, extend]
      by_cases hin : n + k < window
      · rw [if_pos hin, ratChecked_eq (by omega), ratChecked_eq (by omega),
          Option.bind_eq_bind, Option.bind_some,
          Option.bind_some]
        by_cases heq : rat recent n = rat recent (n + k)
        · rw [if_pos heq, if_pos ⟨hin, heq⟩, ih]
        · rw [if_neg heq, if_neg (fun h => heq h.2)]
      · rw [if_neg hin, if_neg (fun h => hin h.1)]

/-- The two loops go the same way, one from `n` and one from `n + k`. -/
theorem extendFromChecked_eq (hwindow : window ≤ recent.length) (k fuel n : Nat) :
    extendFromChecked recent window k fuel (n + k)
      = some (extend recent window k fuel n + k) := by
  induction fuel generalizing n with
  | zero => rfl
  | succ fuel ih =>
      rw [extendFromChecked, extend]
      by_cases hin : n + k < window
      · have hback : n < recent.length := by omega
        rw [if_pos hin, ratChecked_eq (by omega), usizeSub_of_le (by omega),
          Nat.add_sub_cancel]
        simp only [Option.bind_eq_bind, Option.bind_some, ratChecked_eq hback]
        by_cases heq : rat recent n = rat recent (n + k)
        · rw [if_pos heq.symm, if_pos ⟨hin, heq⟩, Nat.add_right_comm, ih]
        · rw [if_neg (Ne.symm heq), if_neg (fun h => heq h.2)]
      · rw [if_neg hin, if_neg (fun h => hin h.1)]

/-- A round in which nothing wraps. -/
theorem Boxed.stepChecked (hwindow : window ≤ recent.length)
    (hint : window ≤ 2147483647) (hlimit : limit ≤ window)
    (h : Boxed recent window limit k st) (hpos : 1 ≤ k) (hk : k < window) :
    zStepChecked recent window limit st k
      = some (zStep recent window limit st k) := by
  have hslot : window - 1 - k < st.repeatCount.length := by
    rw [h.length]
    omega
  unfold zStepChecked zStep
  simp only [usizeSub_of_le (show 1 ≤ window by omega),
    usizeSub_of_le (show k ≤ window - 1 by omega),
    asI32_of_mem (show -2147483648 ≤ (limit : Int)
      ∧ (limit : Int) ≤ 2147483647 by omega),
    asI32_of_mem (show -2147483648 ≤ (k : Int) ∧ (k : Int) ≤ 2147483647 by omega),
    Option.bind_eq_bind, Option.bind_some]
  have hz := zLength_le (latest recent window) k
  rw [length_latest hwindow] at hz
  by_cases hout : (k : Int) > st.rt
  · obtain ⟨n, hn⟩ : ∃ n, n = extend recent window k window 0 := ⟨_, rfl⟩
    have hnz := extend_eq hwindow window (agrees_zero (latest recent window) k)
      (by omega)
    rw [← hn] at hnz
    simp only [hout, if_true, extendChecked_eq hwindow, ← hn,
      asI32_of_mem (show -2147483648 ≤ (n : Int) ∧ (n : Int) ≤ 2147483647 by omega),
      writeAt_of_lt hslot, Option.bind_some]
    by_cases hn0 : n > 0
    · rw [if_pos hn0, if_pos hn0, usizeSub_of_le (by omega), Option.bind_some,
        asI32_of_mem (by omega),
        Option.bind_some, show ((k + n - 1 : Nat) : Int) = k + n - 1 by omega]
      rfl
    · rw [if_neg hn0, if_neg hn0]
      rfl
  · obtain ⟨lt, m, hlt, hrt, hltpos, hltk, hbox⟩ := h.box (by omega)
    have hend := hbox.le (by omega)
    rw [length_latest hwindow] at hend
    have hp : ((k : Int) - st.lt).toNat = k - lt := by omega
    have hread : st.repeatCount[window - 1 - (k - lt)]?
        = some (capped recent window limit (k - lt) : Int) :=
      h.counts (k - lt) (by omega) (by omega)
    have hcount := h.stored hltpos hltk
    simp only [hout, if_false,
      asI32_of_mem (show -2147483648 ≤ (k : Int) - st.lt
        ∧ (k : Int) - st.lt ≤ 2147483647 by omega),
      asI32_of_mem (show -2147483648 ≤ st.rt - k ∧ st.rt - k ≤ 2147483647 by omega),
      asI32_of_mem (show -2147483648 ≤ st.rt - k + 1
        ∧ st.rt - k + 1 ≤ 2147483647 by omega),
      asUsize_of_nonneg (show 0 ≤ (k : Int) - st.lt by omega), hp,
      usizeSub_of_le (show k - lt ≤ window - 1 by omega), hread, hcount,
        Option.bind_some]
    by_cases hshort : (capped recent window limit (k - lt) : Int) < st.rt - k + 1
    · rw [if_pos hshort, if_pos hshort, writeAt_of_lt hslot]
      rfl
    · have hstart : (st.rt + 1).toNat = m - (k - lt) + k := by omega
      have hagree := agrees_of_reaches limit hbox hltk.le (by omega) (by omega)
      have hnz := extend_eq hwindow window hagree (by omega)
      obtain ⟨n, hn⟩ : ∃ n, n = extend recent window k window (m - (k - lt)) :=
        ⟨_, rfl⟩
      rw [← hn] at hnz
      rw [if_neg hshort, if_neg hshort, asI32_of_mem (by omega),
        Option.bind_some, asUsize_of_nonneg (by omega),
        Option.bind_some, hstart, extendFromChecked_eq hwindow,
          Nat.add_sub_cancel, ← hn]
      simp only [Option.bind_some, usizeSub_of_le (show k ≤ n + k by omega),
        Nat.add_sub_cancel,
        asI32_of_mem (show -2147483648 ≤ (n : Int)
          ∧ (n : Int) ≤ 2147483647 by omega), writeAt_of_lt hslot,
        usizeSub_of_le (show 1 ≤ n + k by omega),
        asI32_of_mem (show -2147483648 ≤ ((n + k - 1 : Nat) : Int)
          ∧ ((n + k - 1 : Nat) : Int) ≤ 2147483647 by omega)]
      rw [show ((n + k - 1 : Nat) : Int) = k + n - 1 by omega]
      rfl

theorem Boxed.roundsChecked (hwindow : window ≤ recent.length)
    (hint : window ≤ 2147483647) (hlimit : limit ≤ window)
    (h : Boxed recent window limit k st) (hpos : 1 ≤ k) (hn : k + n ≤ window) :
    (List.range' k n).foldlM (zStepChecked recent window limit) st
      = some ((List.range' k n).foldl (zStep recent window limit) st) := by
  induction n generalizing k st with
  | zero => rfl
  | succ n ih =>
      rw [List.range'_succ, List.foldlM_cons, List.foldl_cons,
        h.stepChecked hwindow hint hlimit hpos (by omega),
        Option.bind_eq_bind, Option.bind_some]
      exact ih (h.step hwindow hpos (by omega)) (by omega) (by omega)

theorem repeatCountsChecked_eq (hwindow : window ≤ recent.length)
    (hint : window ≤ 2147483647)
    (hlimit : limit ≤ window) (hpos : 1 ≤ window) :
    repeatCountsChecked recent window limit
      = some (repeatCounts recent window limit) := by
  rw [repeatCountsChecked,
    (boxed_start recent window limit).roundsChecked hwindow hint hlimit le_rfl
      (by omega)]
  rfl

-- =========================== penalties

/-- The running maximum from `start` on: an entry or the start, and above both. -/

theorem foldl_max_spec (l : List Int) (start : Int) :
    (l.foldl max start = start ∨ l.foldl max start ∈ l) ∧ start ≤ l.foldl max start
      ∧ ∀ x ∈ l, x ≤ l.foldl max start := by
  induction l generalizing start with
  | nil => simp
  | cons y l ih =>
      obtain ⟨hwhich, hstart, hall⟩ := ih (max start y)
      rw [List.foldl_cons]
      refine ⟨?_, by omega, ?_⟩
      · rcases hwhich with hstart | hmem
        · rw [hstart]
          rcases le_total start y with hle | hle
          · exact .inr (by simp [max_eq_right hle])
          · exact .inl (max_eq_left hle)
        · exact .inr (List.mem_cons_of_mem _ hmem)
      · intro x hx
        rcases List.mem_cons.1 hx with rfl | hx
        · omega
        · exact hall x hx

/-- The counts that step 3 goes through for a token. -/
def countsOf (recent : List Token) (window : Nat) (counts : List Int)
    (allowed : Nat) (t : Token) : List Int :=
  (List.range (window - 1)).filterMap fun i =>
    if counts.getD i 0 ≥ allowed ∧ rat recent (window - 2 - i) = t
      then some (counts.getD i 0) else none

/-- Step 3 goes through the lengths of the repeats the token would extend. -/
theorem mem_countsOf (hwindow : window ≤ recent.length) {t : Token} {x : Int} :
    x ∈ countsOf recent window (repeatCounts recent window limit) allowed t
      ↔ ∃ n ∈ extended recent window limit allowed t, x = n := by
  have hcount : ∀ i < window - 1, (repeatCounts recent window limit).getD i 0
      = ((min limit (zLength (latest recent window) (window - 1 - i)) : Nat) :
        Int) := by
    intro i hi
    have hentry :=
      repeatCounts_eq limit hwindow (show 1 ≤ window - 1 - i by omega)
      (by omega)
    rw [show window - 1 - (window - 1 - i) = i by omega] at hentry
    rw [List.getD_eq_getElem?_getD, hentry, Option.getD_some]
  rw [countsOf, List.mem_filterMap]
  constructor
  · rintro ⟨i, hi, hx⟩
    rw [List.mem_range] at hi
    rw [Option.ite_none_right_eq_some, hcount i hi] at hx
    obtain ⟨⟨hallowed, htoken⟩, hx⟩ := hx
    refine ⟨_, ⟨window - 1 - i, by omega, by omega, ?_, rfl, by omega⟩,
      (Option.some.inj hx).symm⟩
    rw [latest_rat hwindow (by omega), ← htoken,
      show window - 1 - i - 1 = window - 2 - i by omega]
  · rintro ⟨n, ⟨k, hpos, hk, htoken, rfl, hallowed⟩, rfl⟩
    rw [latest_rat hwindow (by omega)] at htoken
    refine ⟨window - 1 - k, List.mem_range.2 (by omega), ?_⟩
    rw [hcount _ (by omega), show window - 1 - (window - 1 - k) = k by omega,
      show window - 2 - (window - 1 - k) = k - 1 by
        omega, if_pos ⟨by omega, Option.some.inj htoken⟩]

theorem maxTokenRepeat_none (hwindow : window ≤ recent.length) {t : Token} :
    maxTokenRepeat recent window (repeatCounts recent window limit) allowed t = none
      ↔ extended recent window limit allowed t = ∅ := by
  change (if countsOf recent window (repeatCounts recent window limit) allowed
    t = [] then none else _) = none ↔ _
  rw [Set.eq_empty_iff_forall_notMem]
  by_cases hnil :
    countsOf recent window (repeatCounts recent window limit) allowed t = []
  · rw [if_pos hnil]
    refine iff_of_true rfl fun n hn => ?_
    have := (mem_countsOf hwindow).2 ⟨n, hn, rfl⟩
    rw [hnil] at this
    cases this
  · rw [if_neg hnil]
    obtain ⟨x, hx⟩ := List.exists_mem_of_ne_nil _ hnil
    obtain ⟨n, hn, -⟩ := (mem_countsOf hwindow).1 hx
    exact iff_of_false (by simp) fun hall => hall n hn

theorem maxTokenRepeat_some (hwindow : window ≤ recent.length)
    {t : Token} {r : Int} (h : maxTokenRepeat recent window
      (repeatCounts recent window limit) allowed t = some r) :
    ∃ n : Nat, r = n ∧ IsGreatest (extended recent window limit allowed t) n := by
  change (if countsOf recent window (repeatCounts recent window limit) allowed
    t = [] then none
    else some ((countsOf recent window
      (repeatCounts recent window limit) allowed t).foldl max 0)) = some r at h
  rw [Option.ite_none_left_eq_some, Option.some.injEq] at h
  obtain ⟨hne, rfl⟩ := h
  obtain ⟨hwhich, hzero, hall⟩ := foldl_max_spec
    (countsOf recent window (repeatCounts recent window limit) allowed t) 0
  obtain ⟨x, hx⟩ := List.exists_mem_of_ne_nil _ hne
  have hmem : (countsOf recent window
      (repeatCounts recent window limit) allowed t).foldl max 0
      ∈ countsOf recent window (repeatCounts recent window limit) allowed t := by
    rcases hwhich with hstart | hmem
    · have hle := hall x hx
      obtain ⟨n, -, rfl⟩ := (mem_countsOf hwindow).1 hx
      have : (n : Int) = 0 := by omega
      rw [hstart, ← this]
      exact hx
    · exact hmem
  obtain ⟨n, hn, heq⟩ := (mem_countsOf hwindow).1 hmem
  refine ⟨n, heq, hn, fun n' hn' => ?_⟩
  have := hall n' ((mem_countsOf hwindow).2 ⟨n', hn', rfl⟩)
  omega

/-- A slot of step 3. -/
def repeatAt (recent : List Token) (window : Nat) (counts : List Int)
    (allowed i : Nat) : Option (Token × Int) :=
  if counts.getD i 0 ≥ allowed
    then some (rat recent (window - 2 - i), counts.getD i 0) else none

theorem repeatAtChecked_eq (hwindow : window ≤ recent.length)
    {counts : List Int} (hlength : counts.length = window)
    (hint : allowed ≤ 2147483647) (hi : i < window - 1) :
    repeatAtChecked recent window counts allowed i
      = some (repeatAt recent window counts allowed i) := by
  have hread : counts[i]? = some (counts.getD i 0) := by
    rw [List.getD_eq_getElem?_getD, List.getElem?_eq_getElem (by omega),
      Option.getD_some]
  simp only [repeatAtChecked, repeatAt, hread, Option.bind_eq_bind, Option.bind_some,
    asI32_of_mem (show -2147483648 ≤ (allowed : Int)
      ∧ (allowed : Int) ≤ 2147483647 by omega),
    usizeSub_of_le (show 2 ≤ window by omega),
      usizeSub_of_le (show i ≤ window - 2 by omega),
    ratChecked_eq (show window - 2 - i < recent.length by omega)]
  split <;> rfl

theorem reduceOption_eq {α : Type} (l : List (Option α)) :
    l.reduceOption = l.filterMap id := rfl

/-- Step 3 finds the longest repeat of every token. -/
theorem longestOf_eq (counts : List Int) (allowed : Nat) (t : Token) :
    longestOf ((List.range (window - 1)).map
      (repeatAt recent window counts allowed)).reduceOption t
      = maxTokenRepeat recent window counts allowed t := by
  have hlengths :
      (((List.range (window - 1)).map
        (repeatAt recent window counts allowed)).reduceOption.filterMap
      fun e => if e.1 = t then some e.2 else none)
          = countsOf recent window counts allowed t := by
    rw [reduceOption_eq, List.filterMap_filterMap, List.filterMap_map, countsOf]
    congr 1
    funext i
    simp only [Function.comp_apply, id, repeatAt]
    by_cases hallowed : counts.getD i 0 ≥ allowed
    · rw [if_pos hallowed, Option.bind_some]
      simp only [hallowed, true_and]
    · rw [if_neg hallowed, Option.bind_none, if_neg (fun h => hallowed h.1)]
  rw [longestOf, hlengths]
  rfl

-- =========================== apply_dry

section Apply

variable {F D R : Type} [LinearOrder F] [OrderBot F] {fl : Floats F D R}

/-- Step 4 for a token, without the checks. -/
def penalised (fl : Floats F D R) (breakers : List (List Token))
    (longest : Option Int) (multiplier base : F)
    (allowed : Nat) (v : F) (t : Token) : F :=
  if v = ⊥ then v
  else
    match longest with
    | none => v
    | some repeatLen =>
        if breakers.any (· = [t]) then v
          else fl.sub v (penaltyOf fl multiplier base allowed repeatLen)

variable {multiplier base : F} {allowed lastN : Nat} {breakers : List (List Token)}

omit [OrderBot F] in
theorem dryPenalty_eq (counts : List Int) (t : Token) :
    dryPenalty fl recent window breakers counts multiplier base allowed t
      = (maxTokenRepeat recent window counts allowed t).bind fun r =>
        if breakers.any (· = [t]) then none
          else some (penaltyOf fl multiplier base allowed r) := by
  unfold dryPenalty
  cases maxTokenRepeat recent window counts allowed t <;> rfl

omit [OrderBot F] in
/-- What is in the way of the second step is not there. -/
theorem Runs.enters (h : Runs fl recent multiplier base allowed lastN breakers) :
    ¬(multiplier = fl.lit 0 ∨ base < fl.lit 1 ∨ lastN = 0) := by
  have hwindow := h.window
  rintro (hzero | hbase | hlast)
  · exact h.multiplier hzero
  · exact h.base hbase
  · omega

theorem applyDry_eq (h : Runs fl recent multiplier base allowed lastN breakers)
    (row : List F) :
    applyDry fl row recent multiplier base allowed lastN breakers
      = row.zipIdx.map fun (v, t) => penalised fl breakers
          (maxTokenRepeat recent (min recent.length lastN)
            (repeatCounts recent (min recent.length lastN)
              (repLimit recent (min recent.length lastN) breakers)) allowed t)
          multiplier base allowed v t := by
  unfold applyDry
  simp only [h.enters, if_false, Nat.not_le.2 h.window, Nat.not_lt.2 h.limit,
    dryPenalty_eq]
  congr 1
  funext p
  unfold penalised
  by_cases hbot : p.1 = ⊥
  · simp only [hbot, if_true]
  · simp only [hbot, if_false]
    cases maxTokenRepeat recent (min recent.length lastN)
      (repeatCounts recent (min recent.length lastN)
      (repLimit recent (min recent.length lastN) breakers)) allowed p.2 with
    | none => rfl
    | some r => by_cases hbreaker : breakers.any (· = [p.2]) = true
        <;> simp [hbreaker]

/-- Step 4 in which nothing wraps. -/
theorem penaliseChecked_eq {longest : Token → Option Int} {t : Token}
    (hint : allowed ≤ 2147483647)
    (hlongest : ∀ r, longest t = some r → allowed ≤ r ∧ r ≤ 2147483647) (v : F) :
    penaliseChecked fl breakers longest multiplier base allowed v t
      = some (penalised fl breakers (longest t) multiplier base allowed v t) := by
  unfold penaliseChecked penalised
  by_cases hbot : v = ⊥
  · rw [if_pos hbot, if_pos hbot]
  · rw [if_neg hbot, if_neg hbot]
    cases hr : longest t with
    | none => rfl
    | some r =>
        obtain ⟨hlow, hhigh⟩ := hlongest r hr
        simp only
        by_cases hbreaker : breakers.any (· = [t]) = true
        · rw [if_pos hbreaker, if_pos hbreaker]
        · rw [if_neg hbreaker, if_neg hbreaker, asI32_of_mem (by omega),
            Option.bind_eq_bind, Option.bind_some,
            asI32_of_mem (by omega), Option.bind_some]

theorem length_repeatCounts (limit : Nat) (hwindow : window ≤ recent.length)
    (hpos : 1 ≤ window) :
    (repeatCounts recent window limit).length = window :=
  ((boxed_start recent window limit).rounds hwindow le_rfl (n := window - 1)
    (by omega)).length

theorem applyDryChecked_eq (h : Runs fl recent multiplier base allowed lastN breakers)
    (hint : min recent.length lastN ≤ 2147483647) (row : List F) :
    applyDryChecked fl row recent multiplier base allowed lastN breakers
      = some (applyDry fl row recent multiplier base allowed lastN breakers) := by
  have hrecent : min recent.length lastN ≤ recent.length := Nat.min_le_left ..
  have henters := h.enters
  have hallowed := h.window
  have hlimited := h.limit
  rw [applyDry_eq h]
  unfold applyDryChecked
  generalize min recent.length lastN = window at *
  have hlimit : repLimit recent window breakers ≤ window := repLimit_le breakers
  have hlength :=
    length_repeatCounts (repLimit recent window breakers) hrecent (by omega)
  have hcounts := repeatCountsChecked_eq hrecent hint hlimit (by omega)
  have hfound : (List.range (window - 1)).mapM (repeatAtChecked recent window
      (repeatCounts recent window (repLimit recent window breakers)) allowed)
      = some ((List.range (window - 1)).map (repeatAt recent window
        (repeatCounts recent window (repLimit recent window breakers)) allowed)) := by
    apply mapM_of_forall
    intro i hi
    exact repeatAtChecked_eq hrecent hlength (by omega) (List.mem_range.1 hi)
  simp only [henters, if_false, Nat.not_le.2 hallowed,
    repLimitChecked_eq hrecent, Nat.not_lt.2 hlimited, hcounts,
    usizeSub_of_le (show 1 ≤ window by omega), hfound, Option.bind_eq_bind,
      Option.bind_some]
  apply mapM_of_forall
  intro p _
  rw [← longestOf_eq]
  apply penaliseChecked_eq (by omega)
  intro r hr
  rw [longestOf_eq] at hr
  obtain ⟨n, rfl, ⟨k, -, -, -, rfl, hleast⟩, -⟩ := maxTokenRepeat_some hrecent hr
  omega

/-- The table of the second step holds, for each shift, how far the window
agrees with itself, capped; each token is penalised for the longest repeat it
would extend, unless it is a breaker of its own; and no index is out of range
and nothing wraps. Every caller hands over a window of at most 64 tokens. -/
theorem applyDry_exact (h : Runs fl recent multiplier base allowed lastN breakers)
    (hint : min recent.length lastN ≤ 2147483647) (row : List F) :
    (∀ k, 1 ≤ k → k < min recent.length lastN →
      (repeatCounts recent (min recent.length lastN)
          (repLimit recent (min recent.length lastN) breakers))[
          min recent.length lastN - 1 - k]?
        = some ((min (repLimit recent (min recent.length lastN) breakers)
            (zLength (latest recent (min recent.length lastN)) k) : Nat) : Int))
      ∧ (∀ (t : Token) v, row[t]? = some v →
        ∃ v', (applyDry fl row recent multiplier base allowed lastN
          breakers)[t]? = some v'
          ∧ (v ≠ ⊥ ∧ [t] ∉ breakers
              ∧ (∃ n, IsGreatest (extended recent (min recent.length lastN)
                    (repLimit recent (min recent.length lastN) breakers) allowed t) n
                  ∧ v' = fl.sub v (penaltyOf fl multiplier base allowed n))
            ∨ (v = ⊥ ∨ [t] ∈ breakers ∨ extended recent (min recent.length lastN)
                (repLimit recent (min recent.length lastN) breakers) allowed t
                  = ∅) ∧ v' = v))
      ∧ applyDryChecked fl row recent multiplier base allowed lastN breakers
        = some (applyDry fl row recent multiplier base allowed lastN breakers) := by
  have hrecent : min recent.length lastN ≤ recent.length := Nat.min_le_left ..
  refine ⟨fun k hpos hk => repeatCounts_eq _ hrecent hpos hk, fun t v hv => ?_,
    applyDryChecked_eq h hint row⟩
  rw [applyDry_eq h, List.getElem?_map, List.getElem?_zipIdx, hv]
  refine ⟨_, rfl, ?_⟩
  simp only [Nat.zero_add]
  unfold penalised
  by_cases hbot : v = ⊥
  · exact .inr ⟨.inl hbot, if_pos hbot⟩
  rw [if_neg hbot]
  by_cases hbreaker : [t] ∈ breakers
  · refine .inr ⟨.inr (.inl hbreaker), ?_⟩
    have hany : breakers.any (· = [t]) = true := by simpa using hbreaker
    cases maxTokenRepeat recent (min recent.length lastN)
      (repeatCounts recent (min recent.length lastN)
      (repLimit recent (min recent.length lastN) breakers)) allowed t with
    | none => rfl
    | some r => exact if_pos hany
  · have hany : ¬breakers.any (· = [t]) = true := by simpa using hbreaker
    cases hr : maxTokenRepeat recent (min recent.length lastN)
      (repeatCounts recent (min recent.length lastN)
      (repLimit recent (min recent.length lastN) breakers)) allowed t with
    | none => exact .inr ⟨.inr (.inr ((maxTokenRepeat_none hrecent).1 hr)), rfl⟩
    | some r =>
        obtain ⟨n, rfl, hgreatest⟩ := maxTokenRepeat_some hrecent hr
        exact .inl ⟨hbot, hbreaker, n, hgreatest, if_neg hany⟩

end Apply

-- ========================= an instance

/-- An operation on whole numbers; −∞ is absorbing. -/
def onWhole (f : Int → Int → Int) : WithBot Int → WithBot Int → WithBot Int
  | some a, some b => ((f a b : Int) : WithBot Int)
  | _, _ => ⊥

/-- Whole numbers: a literal and a quotient are rounded down. -/
def wholes : Floats (WithBot Int) Int Unit where
  lit q := (q.floor : WithBot Int)
  litD q := q.floor
  ofNat n := ((n : Int) : WithBot Int)
  ofNatD n := n
  add := onWhole (· + ·)
  sub := onWhole (· - ·)
  mul := onWhole (· * ·)
  div := onWhole (· / ·)
  abs v := v
  exp v := v
  ln v := v
  powi
    | some a, n =>
        (((List.replicate n.toNat a).foldl (fun p a => p * a) 1 : Int) :
          WithBot Int)
    | none, _ => ⊥
  addD := (· + ·)
  subD := (· - ·)
  mulD := (· * ·)
  divD := (· / ·)
  negD a := -a
  absD a := a
  expD a := a
  lnD a := a
  log2D a := a
  powfD a _ := a
  isFiniteD _ := true
  toInt
    | some a => a
    | none => 0
  toNat a := a.toNat
  widen
    | some a => a
    | none => 0
  narrow a := (a : WithBot Int)
  gen r := (((0 : Int) : WithBot Int), r)

/-- The history `0 1 2 0 1`: the token 2 would extend a repeat of two. -/
theorem applyDry_exact_repeat :
    (repeatCounts [0, 1, 2, 0, 1] 5 5)[5 - 1 - 3]? = some 2
      ∧ applyDry wholes [((7 : Int) : WithBot Int), ((7 : Int) : WithBot Int),
          ((7 : Int) : WithBot Int)] [0, 1, 2, 0, 1]
          ((2 : Int) : WithBot Int) ((2 : Int) : WithBot Int) 2 64 []
        = [((7 : Int) : WithBot Int), ((7 : Int) : WithBot Int),
          ((5 : Int) : WithBot Int)]
      ∧ applyDryChecked wholes [((7 : Int) : WithBot Int),
          ((7 : Int) : WithBot Int), ((7 : Int) : WithBot Int)]
          [0, 1, 2, 0, 1] ((2 : Int) : WithBot Int) ((2 : Int) : WithBot Int) 2 64 []
        = some [((7 : Int) : WithBot Int), ((7 : Int) : WithBot Int),
          ((5 : Int) : WithBot Int)] := by
  have hruns : Runs wholes [0, 1, 2, 0, 1] ((2 : Int) : WithBot Int)
      ((2 : Int) : WithBot Int) 2 64 [] :=
    ⟨by decide, by decide, by decide, by decide⟩
  have hrow : applyDry wholes [((7 : Int) : WithBot Int),
      ((7 : Int) : WithBot Int), ((7 : Int) : WithBot Int)]
      [0, 1, 2, 0, 1] ((2 : Int) : WithBot Int) ((2 : Int) : WithBot Int) 2 64 []
      = [((7 : Int) : WithBot Int), ((7 : Int) : WithBot Int),
        ((5 : Int) : WithBot Int)] := by decide +kernel
  obtain ⟨htable, -, hchecked⟩ := applyDry_exact hruns (by decide)
    [((7 : Int) : WithBot Int), ((7 : Int) : WithBot Int), ((7 : Int) : WithBot Int)]
  refine ⟨?_, hrow, ?_⟩
  · exact htable 3 (by decide) (by decide)
  · rw [hchecked, hrow]

end Minfer.Sampler
