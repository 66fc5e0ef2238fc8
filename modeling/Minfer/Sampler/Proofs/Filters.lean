/-
No filter empties a row, and what a filter leaves is what it was given.

`Narrows` is what every filter does: an entry is kept or set to −∞. With
`Live` (some entry is above −∞) kept by each of them, a draw among what is
left is a draw among what the mask allowed; only `sample_temperature` may
answer with a token that is not among them.
-/
import Minfer.Sampler.Filters

namespace Minfer.Sampler

open Minfer.Server (Token)

variable {F D R : Type} [LinearOrder F] [OrderBot F] {fl : Floats F D R}
  {row row' row'' : List F}

-- ================================ rows

/-- The logit of a token is above −∞. -/
def Allowed (row : List F) (t : Token) : Prop := ∃ v, row[t]? = some v ∧ v ≠ ⊥

/-- Some token is left. -/
def Live (row : List F) : Prop := ∃ t, Allowed row t

/-- Every entry of `row'` is that of `row`, or −∞. -/
def Narrows (row row' : List F) : Prop :=
  row'.length = row.length ∧ ∀ (i : Nat) (v : F), row'[i]? = some v → v ≠ ⊥ →
    row[i]? = some v

theorem live_iff : Live row ↔ ∃ v ∈ row, v ≠ ⊥ := by
  constructor
  · intro h
    obtain ⟨t, v, hv, hne⟩ := h
    exact ⟨v, List.mem_of_getElem? hv, hne⟩
  · intro h
    obtain ⟨v, hv, hne⟩ := h
    obtain ⟨t, ht⟩ := List.getElem?_of_mem hv
    exact ⟨t, v, ht, hne⟩

theorem Narrows.refl (row : List F) : Narrows row row := ⟨rfl, fun _ _ h _ => h⟩

theorem Narrows.trans (h : Narrows row row') (h' : Narrows row' row'') :
    Narrows row row'' :=
  ⟨h'.1.trans h.1, fun i v hv hne => h.2 i v (h'.2 i v hv hne) hne⟩

theorem Narrows.allowed (h : Narrows row row') {t : Token}
    (ht : Allowed row' t) : Allowed row t := by
  obtain ⟨v, hv, hne⟩ := ht
  exact ⟨v, h.2 t v hv hne, hne⟩

theorem narrows_map {f : F → F} (h : ∀ v, f v = v ∨ f v = ⊥) (row : List F) :
    Narrows row (row.map f) := by
  refine ⟨List.length_map _, fun i v hv hne => ?_⟩
  rw [List.getElem?_map] at hv
  obtain ⟨w, hw, rfl⟩ := Option.map_eq_some_iff.1 hv
  rcases h w with hkept | hmasked
  · rw [hkept, hw]
  · exact absurd hmasked hne

theorem getElem?_maskOut (row : List F) (ids : List Nat) (i : Nat) :
    (maskOut row ids)[i]? = if i ∈ ids then row[i]?.map fun _ => ⊥ else row[i]? := by
  unfold maskOut
  induction ids generalizing row with
  | nil => simp
  | cons id ids ih =>
      rw [List.foldl_cons, ih, List.getElem?_set]
      by_cases hid : id = i
      · subst hid
        by_cases hlt : id < row.length
        · by_cases hin : id ∈ ids <;> simp [hin, hlt]
        · by_cases hin : id ∈ ids <;> simp [hin, hlt]
      · have hne : ¬ i = id := fun h => hid h.symm
        simp [hid, hne]

theorem length_maskOut (row : List F) (ids : List Nat) :
    (maskOut row ids).length = row.length := by
  unfold maskOut
  induction ids generalizing row with
  | nil => rfl
  | cons id ids ih => rw [List.foldl_cons, ih, List.length_set]

theorem narrows_maskOut (row : List F) (ids : List Nat) :
    Narrows row (maskOut row ids) := by
  refine ⟨length_maskOut row ids, fun i v hv hne => ?_⟩
  rw [getElem?_maskOut] at hv
  split at hv
  · obtain ⟨w, -, rfl⟩ := Option.map_eq_some_iff.1 hv
    exact absurd rfl hne
  · exact hv

theorem live_maskOut {ids : List Nat} {t : Token} (ht : Allowed row t)
    (hout : t ∉ ids) :
    Live (maskOut row ids) := by
  obtain ⟨v, hv, hne⟩ := ht
  exact ⟨t, v, by rw [getElem?_maskOut, if_neg hout, hv], hne⟩

omit [OrderBot F] in
/-- A row that is not empty has a largest entry. -/
theorem exists_max {row : List F} (h : row ≠ []) : ∃ m ∈ row, ∀ v ∈ row, v ≤ m := by
  induction row with
  | nil => exact absurd rfl h
  | cons v row ih =>
      by_cases hrow : row = []
      · subst hrow
        exact ⟨v, List.mem_cons_self, fun w hw => le_of_eq (List.mem_singleton.1 hw)⟩
      · obtain ⟨m, hm, hmax⟩ := ih hrow
        by_cases hle : m ≤ v
        · refine ⟨v, List.mem_cons_self, fun w hw => ?_⟩
          rcases List.mem_cons.1 hw with rfl | hw
          · exact le_refl _
          · exact (hmax w hw).trans hle
        · refine ⟨m, List.mem_cons_of_mem _ hm, fun w hw => ?_⟩
          rcases List.mem_cons.1 hw with rfl | hw
          · exact le_of_not_ge hle
          · exact hmax w hw

-- ========================== candidates

theorem mem_survivors {i : Token} {v : F} : (i, v) ∈ survivors row
    ↔ row[i]? = some v ∧ v ≠ ⊥ := by
  unfold survivors
  rw [List.mem_map]
  constructor
  · intro h
    obtain ⟨⟨w, j⟩, hmem, heq⟩ := h
    obtain ⟨rfl, rfl⟩ := Prod.mk.inj heq
    obtain ⟨hzip, hlive⟩ := List.mem_filter.1 hmem
    exact ⟨List.mem_zipIdx_iff_getElem?.1 hzip,
      bot_lt_iff_ne_bot.1 (by simpa using hlive)⟩
  · intro h
    obtain ⟨hv, hne⟩ := h
    exact ⟨(v, i), List.mem_filter.2 ⟨List.mem_zipIdx_iff_getElem?.2 hv,
      by simpa using bot_lt_iff_ne_bot.2 hne⟩, rfl⟩

theorem survivors_ne_nil (h : Live row) : survivors row ≠ [] := by
  obtain ⟨t, v, hv, hne⟩ := h
  exact List.ne_nil_of_mem (mem_survivors.2 ⟨hv, hne⟩)

theorem nodup_survivors (row : List F) : ((survivors row).map (·.1)).Nodup := by
  have hids : ((survivors row).map (·.1)).Sublist (List.range' 0 row.length) := by
    unfold survivors
    rw [List.map_map, ← List.zipIdx_map_snd 0 row]
    exact List.Sublist.map _ List.filter_sublist
  exact hids.nodup List.nodup_range'

omit [OrderBot F] in
theorem perm_sortDesc (cand : List (Token × F)) : (sortDesc cand).Perm cand := by
  unfold sortDesc
  exact List.perm_insertionSort _ _

variable {cand : List (Token × F)}

omit [OrderBot F] in
/-- The first of the sorted candidates weighs as much as any. -/
theorem head_sortDesc (h : cand ≠ []) :
    ∃ c, (sortDesc cand).head? = some c ∧ c ∈ cand ∧ ∀ d ∈ cand, d.2 ≤ c.2 := by
  have hperm := perm_sortDesc cand
  have hsorted : (sortDesc cand).Pairwise fun a b => b.2 ≤ a.2 := by
    have : Std.Total fun a b : Token × F => b.2 ≤ a.2 := ⟨fun a b => le_total b.2 a.2⟩
    have : IsTrans (Token × F) fun a b => b.2 ≤ a.2 :=
      ⟨fun a b c hab hbc => hbc.trans hab⟩
    exact List.pairwise_insertionSort _ _
  cases hcand : sortDesc cand with
  | nil =>
      rw [hcand] at hperm
      exact absurd hperm.symm.eq_nil h
  | cons c rest =>
      rw [hcand] at hperm hsorted
      refine ⟨c, rfl, hperm.mem_iff.1 List.mem_cons_self, fun d hd => ?_⟩
      rcases List.mem_cons.1 (hperm.mem_iff.2 hd) with rfl | hd
      · exact le_refl _
      · exact (List.pairwise_cons.1 hsorted).1 d hd

/-- Candidates that stand for allowed tokens, each once. -/
structure Candidates (row : List F) (cand : List (Token × F)) : Prop where
  allowed : ∀ c ∈ cand, Allowed row c.1
  nodup : (cand.map (·.1)).Nodup

theorem Candidates.sortDesc (h : Candidates row cand) :
    Candidates row (sortDesc cand) :=
  ⟨fun c hc => h.allowed c ((perm_sortDesc cand).mem_iff.1 hc),
    ((perm_sortDesc cand).map _).nodup_iff.2 h.nodup⟩

variable (fl) in
theorem candidates_softmaxDesc (row : List F) : Candidates row
    (softmaxDesc fl row) := by
  unfold softmaxDesc
  apply Candidates.sortDesc
  constructor
  · intro c hc
    obtain ⟨⟨i, v⟩, hmem, rfl⟩ := List.mem_map.1 hc
    obtain ⟨hv, hne⟩ := mem_survivors.1 hmem
    exact ⟨v, hv, hne⟩
  · rw [List.map_map]
    exact nodup_survivors row

variable (fl) in
theorem softmaxDesc_ne_nil (h : Live row) : softmaxDesc fl row ≠ [] := by
  unfold softmaxDesc
  intro hnil
  have hperm := perm_sortDesc ((survivors row).map fun c => (c.1,
    fl.narrow (fl.divD
      (fl.expD (fl.widen (fl.sub c.2 (maxOf ((survivors row).map (·.2))))))
      (expSum fl ((survivors row).map (·.2)) (maxOf ((survivors row).map (·.2)))))))
  rw [show Sampler.sortDesc _ = [] from hnil] at hperm
  have hempty := hperm.symm.eq_nil
  exact survivors_ne_nil h (List.map_eq_nil_iff.1 hempty)

/-- Of candidates that are cut in two, one of the first part is not in the
second. -/
theorem notMem_drop {β : Type} {cand : List (Token × β)}
    (h : (cand.map (·.1)).Nodup) {i k : Nat}
    {c : Token × β} (hc : cand[i]? = some c) (hik : i < k) :
    c.1 ∉ (cand.drop k).map (·.1) := by
  intro hmem
  obtain ⟨d, hd, hdc⟩ := List.mem_map.1 hmem
  obtain ⟨j, hj⟩ := List.getElem?_of_mem hd
  rw [List.getElem?_drop] at hj
  have hi' : (cand.map (·.1))[i]? = some c.1 := by simp [hc]
  have hj' : (cand.map (·.1))[k + j]? = some c.1 := by simp [hj, hdc]
  have := (List.getElem?_inj (List.getElem?_eq_some_iff.1 hi').1 h).1
    (hi'.trans hj'.symm)
  omega

theorem notMem_take {β : Type} {cand : List (Token × β)}
    (h : (cand.map (·.1)).Nodup) {i k : Nat}
    {c : Token × β} (hc : cand[i]? = some c) (hik : k ≤ i) :
    c.1 ∉ (cand.take k).map (·.1) := by
  intro hmem
  obtain ⟨d, hd, hdc⟩ := List.mem_map.1 hmem
  obtain ⟨j, hj⟩ := List.getElem?_of_mem hd
  have hjk : j < k := by
    have hlt := (List.getElem?_eq_some_iff.1 hj).1
    rw [List.length_take] at hlt
    omega
  rw [List.getElem?_take_of_lt hjk] at hj
  have hi' : (cand.map (·.1))[i]? = some c.1 := by simp [hc]
  have hj' : (cand.map (·.1))[j]? = some c.1 := by simp [hj, hdc]
  have := (List.getElem?_inj (List.getElem?_eq_some_iff.1 hi').1 h).1
    (hi'.trans hj'.symm)
  omega

/-- At least one weight is kept. -/
theorem pos_keepAbove {W : Type} [LinearOrder W] (add : W → W → W) (p sum : W)
    {weights : List W}
    (h : weights ≠ []) : 0 < keepAbove add p sum weights := by
  cases weights with
  | nil => exact absurd rfl h
  | cons w rest =>
      rw [keepAbove]
      split <;> omega

-- ============================= filters

/-- A filter narrows a live row to a live row. -/
structure Filters (row row' : List F) : Prop where
  narrows : Narrows row row'
  live : Live row'

theorem Filters.refl (h : Live row) : Filters row row := ⟨.refl row, h⟩

theorem Filters.trans (h : Filters row row') (h' : Filters row' row'') :
    Filters row row'' :=
  ⟨h.narrows.trans h'.narrows, h'.live⟩

theorem filters_maskOut {ids : List Nat} {t : Token} (ht : Allowed row t)
    (hout : t ∉ ids) :
    Filters row (maskOut row ids) :=
  ⟨narrows_maskOut row ids, live_maskOut ht hout⟩

/-- The largest entry is not below the threshold. -/
theorem filters_applyTopK (h : Live row) (k : Nat) :
    Filters row (applyTopK row k) := by
  unfold applyTopK
  split
  · exact .refl h
  next hk =>
    refine ⟨narrows_map (fun v => ?_) row, ?_⟩
    · split
      · exact Or.inr rfl
      · exact Or.inl rfl
    · obtain ⟨v, hv, hne⟩ := live_iff.1 h
      obtain ⟨m, hm, hmax⟩ := exists_max (List.ne_nil_of_mem hv)
      have hm' : m ≠ ⊥ := ne_bot_of_le_ne_bot hne (hmax v hv)
      have hsorted := List.perm_insertionSort (· ≥ ·) row
      have hthreshold : (row.insertionSort (· ≥ ·)).getD (k - 1) ⊥ ≤ m := by
        rw [List.getD_eq_getElem?_getD]
        cases hget : (row.insertionSort (· ≥ ·))[k - 1]? with
        | none => exact bot_le
        | some w => exact hmax w (hsorted.mem_iff.1 (List.mem_of_getElem? hget))
      refine live_iff.2 ⟨m, List.mem_map.2 ⟨m, hm, ?_⟩, hm'⟩
      rw [if_neg (not_lt_of_ge hthreshold)]

/-- The likeliest candidate is kept. -/
theorem filters_maskTail {p : F}
    (hnodup : (cand.map (·.1)).Nodup) {c : Token × F}
    (hhead : (sortDesc cand).head? = some c) (hc : Allowed row c.1) :
    Filters row (maskTail fl row p cand) := by
  unfold maskTail
  simp only
  have hsorted : ((sortDesc cand).map (·.1)).Nodup :=
    ((perm_sortDesc cand).map _).nodup_iff.2 hnodup
  rw [List.head?_eq_getElem?] at hhead
  have hne : (sortDesc cand).map (·.2) ≠ [] := by
    intro hnil
    rw [List.map_eq_nil_iff] at hnil
    rw [hnil] at hhead
    cases hhead
  exact filters_maskOut hc (notMem_drop hsorted hhead (pos_keepAbove fl.add p _ hne))

/-- What the weights of a row promise: a masked entry weighs nothing, another
is not negative, and not all of them are nothing. -/
structure Weighs (fl : Floats F D R) (row weights : List F) : Prop where
  length : weights.length = row.length
  masked : ∀ i : Nat, row[i]? = some ⊥ → weights[i]? = some (fl.lit 0)
  nonneg : ∀ (i : Nat) (v : F), row[i]? = some v → v ≠ ⊥ →
    ∀ w ∈ weights[i]?, fl.lit 0 ≤ w
  some_pos : Live row → ∃ w ∈ weights, fl.lit 0 < w

/-- With every entry a candidate, the likeliest is not masked. -/
theorem filters_applyTopPFull (h : Live row)
    (hweighs : Weighs fl row (topPWeights fl row)) (p : F) :
    Filters row (applyTopPFull fl row p) := by
  unfold applyTopPFull
  generalize topPWeights fl row = weights at hweighs
  have hlength : (List.range row.length).length = weights.length := by
    rw [List.length_range, hweighs.length]
  have hids : ((List.range row.length).zip weights).map (·.1)
      = List.range row.length :=
    List.map_fst_zip (le_of_eq hlength)
  obtain ⟨w, hw, hpos⟩ := hweighs.some_pos h
  obtain ⟨i, hi⟩ := List.getElem?_of_mem hw
  have hmem : (i, w) ∈ (List.range row.length).zip weights := by
    apply List.mem_of_getElem? (i := i)
    have hlt := (List.getElem?_eq_some_iff.1 hi).1
    rw [List.getElem?_zip_eq_some]
    refine ⟨?_, hi⟩
    rw [List.getElem?_range (by rw [← hweighs.length]; exact hlt)]
  obtain ⟨c, hc, hcmem, hmax⟩ := head_sortDesc (List.ne_nil_of_mem hmem)
  refine filters_maskTail (by rw [hids]; exact List.nodup_range) hc ?_
  -- it weighs something, so it is not masked
  have hcpos : fl.lit 0 < c.2 := lt_of_lt_of_le hpos (hmax _ hmem)
  obtain ⟨j, hj⟩ := List.getElem?_of_mem hcmem
  rw [List.getElem?_zip_eq_some] at hj
  have hjlt : j < row.length := by
    have := (List.getElem?_eq_some_iff.1 hj.1).1
    rwa [List.length_range] at this
  have hcj : c.1 = j := by
    have := hj.1
    rw [List.getElem?_range hjlt] at this
    exact (Option.some.inj this).symm
  rw [hcj]
  refine ⟨row[j], List.getElem?_eq_getElem hjlt, fun hbot => ?_⟩
  have hzero := hweighs.masked j (by rw [List.getElem?_eq_getElem hjlt, hbot])
  rw [hj.2] at hzero
  rw [Option.some.inj hzero] at hcpos
  exact lt_irrefl _ hcpos

theorem filters_applyTopP (h : Live row)
    (hweighs : Weighs fl row (topPWeights fl row)) (p : F) :
    Filters row (applyTopP fl row p) := by
  unfold applyTopP
  split
  · exact .refl h
  · simp only
    split
    · exact .refl h
    · split
      · exact filters_applyTopPFull h hweighs p
      next hnil hsmall =>
        have hlength : (topPWeights fl ((survivors row).map (·.2))).length
            = (survivors row).length := by
          simp [topPWeights]
        have hids : (((survivors row).map (·.1)).zip
            (topPWeights fl ((survivors row).map (·.2)))).map (·.1)
                = (survivors row).map (·.1) := by
          apply List.map_fst_zip
          rw [List.length_map, hlength]
        generalize hcand : ((survivors row).map (·.1)).zip
          (topPWeights fl ((survivors row).map (·.2))) = cand at hids
        have hnodup : (cand.map (·.1)).Nodup := by
          rw [hids]
          exact nodup_survivors row
        have hne : cand ≠ [] := by
          intro hempty
          rw [hempty] at hids
          exact hnil (List.map_eq_nil_iff.1 hids.symm)
        obtain ⟨c, hhead, hcmem, -⟩ := head_sortDesc hne
        refine filters_maskTail hnodup hhead ?_
        have hc : c.1 ∈ (survivors row).map (·.1) := by
          rw [← hids]
          exact List.mem_map_of_mem hcmem
        obtain ⟨⟨i, v⟩, hmem, hi⟩ := List.mem_map.1 hc
        obtain ⟨hv, hne⟩ := mem_survivors.1 hmem
        exact ⟨v, by rw [← hi]; exact hv, hne⟩

theorem bestOf_spec {best : Nat × F} (h : bestOf row = some best) :
    row[best.1]? = some best.2 ∧ best.2 ≠ ⊥ := by
  unfold bestOf at h
  refine List.foldlRecOn (motive := fun start => ∀ b, start = some b →
    row[b.1]? = some b.2 ∧ b.2 ≠ ⊥) _ _ (by simp) ?_ best h
  intro start hstart e he b hb
  obtain ⟨v, i⟩ := e
  simp only at hb
  split at hb
  next hbetter =>
    cases hb
    exact ⟨List.mem_zipIdx_iff_getElem?.1 he, hbetter.1⟩
  next => exact hstart b hb

variable (fl) in
/-- When nothing is likely enough the best entry is put back. -/
theorem filters_applyMinP (h : Live row) (p : F) : Filters row
    (applyMinP fl row p) := by
  unfold applyMinP
  split
  · exact .refl h
  · split
    · exact .refl h
    next best top hbest =>
      obtain ⟨hget, hne⟩ := bestOf_spec hbest
      simp only at hget hne ⊢
      generalize fl.add top (fl.ln p) = least
      have hkept : Narrows row (row.map fun v => if least ≤ v then v else ⊥) := by
        refine narrows_map (fun v => ?_) row
        split
        · exact Or.inl rfl
        · exact Or.inr rfl
      split
      next hnone =>
        have hlt : best < row.length := (List.getElem?_eq_some_iff.1 hget).1
        refine ⟨⟨by rw [List.length_set, hkept.1], fun i v hv hv' => ?_⟩, best,
          top, ?_, hne⟩
        · rw [List.getElem?_set] at hv
          split at hv
          next hi =>
            split at hv
            · cases hv
              rw [← hi, hget]
            · cases hv
          next hi => exact hkept.2 i v hv hv'
        · rw [List.getElem?_set_self (by rw [List.length_map]; exact hlt)]
      next hsome =>
        refine ⟨hkept, live_iff.2 ?_⟩
        obtain ⟨v, hv⟩ := List.exists_mem_of_ne_nil _ hsome
        obtain ⟨hv, hle⟩ := List.mem_filter.1 hv
        have hle : least ≤ v := by simpa using hle
        by_cases hbot : v = ⊥
        · -- then nothing is masked at all
          have hall : least ≤ top := by
            rw [hbot] at hle
            exact hle.trans bot_le
          exact ⟨top, List.mem_map.2
            ⟨top, List.mem_of_getElem? hget, if_pos hall⟩, hne⟩
        · exact ⟨v, List.mem_map.2 ⟨v, hv, if_pos hle⟩, hbot⟩

variable (fl) in
/-- The candidate at `posLast` stays. -/
theorem filters_applyXtc (h : Live row) (probability threshold : F) (rng : R) :
    Filters row (applyXtc fl row probability threshold rng).1 := by
  unfold applyXtc
  split
  · exact .refl h
  · simp only
    split
    · exact .refl h
    next hmany =>
      generalize fl.gen rng = drawn
      obtain ⟨chance, rng'⟩ := drawn
      split
      · exact .refl h
      · have hcand := candidates_softmaxDesc fl row
        generalize softmaxDesc fl row = cand at hcand hmany
        have hle := (List.takeWhile_sublist (l := cand) fun c =>
          decide (threshold ≤ c.2)).length_le
        have hlt : (cand.takeWhile fun c => decide (threshold ≤ c.2)).length
          - 1 < cand.length := by omega
        refine filters_maskOut (hcand.allowed _ (List.getElem_mem hlt)) ?_
        exact notMem_take hcand.nodup (List.getElem?_eq_getElem hlt) (le_refl _)

/-- What is kept of the candidates, at least the first of them. -/
theorem filters_kept {order : List (Token × F)}
    (hcand : Candidates row cand) (hne : cand ≠ [])
    (hperm : order.Perm cand) {keep : Nat} (hkeep : 0 < keep) :
    Filters row (row.zipIdx.map fun (v, i) =>
      if i ∈ (order.take keep).map (·.1) then v else ⊥) := by
  have horder : order ≠ [] := by
    intro hnil
    rw [hnil] at hperm
    exact hne hperm.symm.eq_nil
  obtain ⟨c, rest, rfl⟩ := List.exists_cons_of_ne_nil horder
  have hc : Allowed row c.1 := hcand.allowed c (hperm.mem_iff.1 List.mem_cons_self)
  obtain ⟨k, rfl⟩ := Nat.exists_eq_succ_of_ne_zero (Nat.pos_iff_ne_zero.1 hkeep)
  have hfirst : c.1 ∈ ((c :: rest).take (k + 1)).map (·.1) := by simp
  generalize ((c :: rest).take (k + 1)).map (·.1) = kept at hfirst
  have hentry : ∀ i : Nat,
      (row.zipIdx.map fun (v, i) => if i ∈ kept then v else ⊥)[i]?
      = row[i]?.map fun v => if i ∈ kept then v else ⊥ := by
    intro i
    simp [List.getElem?_map, List.getElem?_zipIdx, Function.comp_def]
  refine ⟨⟨by simp, fun i v hv hv' => ?_⟩, c.1, ?_⟩
  · rw [hentry] at hv
    obtain ⟨w, hw, hwv⟩ := Option.map_eq_some_iff.1 hv
    split at hwv
    · rw [hw, hwv]
    · exact absurd hwv.symm hv'
  · obtain ⟨v, hv, hv'⟩ := hc
    refine ⟨v, ?_, hv'⟩
    rw [hentry, hv, Option.map_some, if_pos hfirst]

section Wide

variable [LinearOrder D]

variable (fl) in
/-- The most typical candidate is kept. -/
theorem filters_applyTypical (h : Live row) (p : F) :
    Filters row (applyTypical fl row p) := by
  unfold applyTypical
  split
  · exact .refl h
  · simp only
    split
    · exact .refl h
    · have hne := softmaxDesc_ne_nil fl h
      refine filters_kept (candidates_softmaxDesc fl row) hne
        (List.perm_insertionSort _ _) ?_
      apply pos_keepAbove
      intro hnil
      have hlength := congrArg List.length (List.map_eq_nil_iff.1 hnil)
      rw [List.length_insertionSort] at hlength
      exact hne (List.eq_nil_of_length_eq_zero hlength)

end Wide

-- =============================== draws

omit [OrderBot F] in
theorem firstReached_mem {r sum : F} {c : Token × F}
    (h : firstReached fl r sum cand = some c) : c ∈ cand ∧ fl.lit 0 < c.2 := by
  induction cand generalizing sum with
  | nil => cases h
  | cons d cand ih =>
      obtain ⟨i, p⟩ := d
      rw [firstReached] at h
      split at h
      · exact ⟨List.mem_cons_of_mem _ (ih h).1, (ih h).2⟩
      next hpos =>
        split at h
        · cases h
          exact ⟨List.mem_cons_self, lt_of_not_ge hpos⟩
        · exact ⟨List.mem_cons_of_mem _ (ih h).1, (ih h).2⟩

variable (fl) in
/-- A draw is one of the candidates. -/
theorem sampleCategorical_mem (h : cand ≠ []) (rng : R) :
    (sampleCategorical fl cand rng).1 ∈ cand := by
  unfold sampleCategorical
  generalize fl.gen rng = drawn
  obtain ⟨r, rng'⟩ := drawn
  simp only
  cases hreached : firstReached fl r (fl.lit 0) cand with
  | some c => exact (firstReached_mem hreached).1
  | none =>
      obtain ⟨c, rest, rfl⟩ := List.exists_cons_of_ne_nil h
      rw [List.getLastD_cons]
      exact List.getLastD_mem_cons ..

theorem allowed_scanMax {rest : List F} {i best : Nat} {top : F}
    (hrest : row.drop i = rest) (hbest : row[best]? = some top)
    (h : top ≠ ⊥ ∨ ∃ v ∈ rest, v ≠ ⊥) : Allowed row (scanMax rest i best top) := by
  induction rest generalizing i best top with
  | nil =>
      rcases h with h | h
      · exact ⟨top, hbest, h⟩
      · obtain ⟨v, hv, -⟩ := h
        exact absurd hv List.not_mem_nil
  | cons v rest ih =>
      have hdrop : row.drop (i + 1) = rest := by
        rw [← List.drop_drop, hrest]
        rfl
      have hv : row[i]? = some v := by
        rw [← List.head?_drop, hrest]
        rfl
      rw [scanMax]
      split
      next hlt =>
        apply ih hdrop hv
        left
        exact ne_bot_of_gt hlt
      next hge =>
        apply ih hdrop hbest
        by_cases htop : top = ⊥
        · right
          have hvbot : v = ⊥ := by
            rw [htop, bot_lt_iff_ne_bot, not_not] at hge
            exact hge
          rcases h with h | h
          · exact absurd htop h
          · obtain ⟨w, hw, hne⟩ := h
            rcases List.mem_cons.1 hw with rfl | hw
            · exact absurd hvbot hne
            · exact ⟨w, hw, hne⟩
        · exact Or.inl htop

/-- A greedy pick is allowed. -/
theorem allowed_sampleGreedy (h : Live row) : Allowed row (sampleGreedy row) := by
  obtain ⟨v, hv, hne⟩ := live_iff.1 h
  cases hrow : row with
  | nil =>
      rw [hrow] at hv
      exact absurd hv List.not_mem_nil
  | cons first rest =>
      unfold sampleGreedy
      apply allowed_scanMax (i := 0) rfl rfl
      right
      rw [← hrow]
      exact ⟨v, hv, hne⟩

-- ------------------------------------------------------------ temperature

/-- The running sum of the weights that count, up to a token. -/
def runningSum (fl : Floats F D R) (weights : List F) (n : Nat) : F :=
  ((weights.take n).filter fun w => decide (fl.lit 0 < w)).foldl fl.add (fl.lit 0)

/-- The running sum reaches the draw at some token that weighs something. -/
def Reaches (fl : Floats F D R) (r : F) (weights : List F) : Prop :=
  ∃ n, ∃ w ∈ weights[n]?, fl.lit 0 < w ∧ r ≤ runningSum fl weights (n + 1)

omit [OrderBot F] in
theorem firstReached_eq_none {r sum : F} :
    firstReached fl r sum cand = none ↔ ∀ n, ∀ c ∈ cand[n]?, fl.lit 0 < c.2 →
      ((((cand.map (·.2)).take (n + 1)).filter fun w =>
        decide (fl.lit 0 < w)).foldl fl.add sum) < r := by
  induction cand generalizing sum with
  | nil => simp [firstReached]
  | cons d cand ih =>
      obtain ⟨i, p⟩ := d
      rw [firstReached]
      split
      next hle =>
        have hout : decide (fl.lit 0 < p) = false :=
          decide_eq_false (not_lt_of_ge hle)
        rw [ih]
        constructor
        · intro h n c hc hpos
          cases n with
          | zero =>
              cases hc
              exact absurd hpos (not_lt_of_ge hle)
          | succ n =>
              simpa [List.filter_cons, hout] using h n c (by simpa using hc) hpos
        · intro h n c hc hpos
          simpa [List.filter_cons, hout] using h (n + 1) c (by simpa using hc) hpos
      next hpos =>
        have hpos : fl.lit 0 < p := lt_of_not_ge hpos
        have hin : decide (fl.lit 0 < p) = true := decide_eq_true hpos
        split
        next hreach =>
          constructor
          · intro h
            cases h
          · intro h
            have hfirst := h 0 (i, p) rfl hpos
            simp [hpos] at hfirst
            exact absurd hreach (not_le_of_gt hfirst)
        next hreach =>
          rw [ih]
          constructor
          · intro h n c hc hcpos
            cases n with
            | zero => simpa [List.filter_cons, hpos] using hreach
            | succ n =>
                simpa [List.filter_cons, hin] using h n c (by simpa using hc) hcpos
          · intro h n c hc hcpos
            simpa [List.filter_cons, hin] using h (n + 1) c (by simpa using hc) hcpos

/-- Where the running sum reaches the draw the token is allowed; where it does
not, the token is the last of the vocabulary. -/
theorem sampleTemperature_cases {temp : F} (htemp : ¬ temp < fl.lit (1 / 1000000))
    (hweighs : Weighs fl row (temperatureWeights fl row temp)) (rng : R) :
    (Reaches fl (fl.gen rng).1 (temperatureWeights fl row temp)
        ∧ Allowed row (sampleTemperature fl row temp rng).1)
      ∨ (¬ Reaches fl (fl.gen rng).1 (temperatureWeights fl row temp)
        ∧ (sampleTemperature fl row temp rng).1 = row.length - 1) := by
  unfold sampleTemperature
  rw [if_neg htemp]
  generalize fl.gen rng = drawn
  obtain ⟨r, rng'⟩ := drawn
  generalize temperatureWeights fl row temp = weights at hweighs
  simp only
  have hfst : ((List.range weights.length).zip weights).map (·.2) = weights :=
    List.map_snd_zip (by rw [List.length_range])
  have hget : ∀ (n : Nat) (c : Token × F),
      ((List.range weights.length).zip weights)[n]? = some c
      ↔ c.1 = n ∧ weights[n]? = some c.2 := by
    intro n c
    rw [List.getElem?_zip_eq_some]
    constructor
    · intro h
      obtain ⟨hn, hw⟩ := h
      have hlt := (List.getElem?_eq_some_iff.1 hw).1
      rw [List.getElem?_range hlt] at hn
      exact ⟨(Option.some.inj hn).symm, hw⟩
    · intro h
      obtain ⟨hn, hw⟩ := h
      have hlt := (List.getElem?_eq_some_iff.1 hw).1
      rw [List.getElem?_range hlt, hn]
      exact ⟨rfl, hw⟩
  cases hreached : firstReached fl r (fl.lit 0)
      ((List.range weights.length).zip weights) with
  | some c =>
      left
      obtain ⟨hmem, hpos⟩ := firstReached_mem hreached
      obtain ⟨n, hn⟩ := List.getElem?_of_mem hmem
      obtain ⟨hcn, hw⟩ := (hget n c).1 hn
      constructor
      · by_contra hnot
        have hnone : firstReached fl r (fl.lit 0)
            ((List.range weights.length).zip weights) = none := by
          rw [firstReached_eq_none, hfst]
          intro m d hd hdpos
          apply lt_of_not_ge
          intro hge
          exact hnot ⟨m, d.2, ((hget m d).1 hd).2, hdpos, hge⟩
        rw [hreached] at hnone
        cases hnone
      · simp only [hcn]
        have hlt : n < row.length := by
          rw [← hweighs.length]
          exact (List.getElem?_eq_some_iff.1 hw).1
        refine ⟨row[n], List.getElem?_eq_getElem hlt, fun hbot => ?_⟩
        have hzero := hweighs.masked n (by rw [List.getElem?_eq_getElem hlt, hbot])
        rw [hw] at hzero
        rw [Option.some.inj hzero] at hpos
        exact lt_irrefl _ hpos
  | none =>
      right
      refine ⟨fun hreaches => ?_, rfl⟩
      obtain ⟨n, w, hw, hpos, hle⟩ := hreaches
      rw [firstReached_eq_none, hfst] at hreached
      exact absurd hle
        (not_le_of_gt (hreached n (n, w) ((hget n (n, w)).2 ⟨rfl, hw⟩) hpos))

-- --------------------------------------------------------------- mirostat

/-- The token of `sample_mirostat_v2` is allowed. -/
theorem allowed_sampleMirostatV2 [LinearOrder D] (h : Live row)
    (mu tau eta : F) (rng : R) :
    Allowed row (sampleMirostatV2 fl row mu tau eta rng).1 := by
  unfold sampleMirostatV2
  have hcand := candidates_softmaxDesc fl row
  have hne := softmaxDesc_ne_nil fl h
  generalize softmaxDesc fl row = cand at hcand hne
  simp only
  rw [if_neg hne]
  generalize (cand.takeWhile _).length = keep
  generalize (cand.take (max keep 1)).foldl _ _ = sum
  have hlive : (cand.take (max keep 1)).map
      (fun x => (x.1, fl.narrow (fl.divD (fl.widen x.2) sum))) ≠ [] := by
    rw [ne_eq, List.map_eq_nil_iff, List.take_eq_nil_iff]
    intro hnil
    rcases hnil with hzero | hnil
    · omega
    · exact hne hnil
  have hmem := sampleCategorical_mem fl hlive rng
  obtain ⟨c, hc, heq⟩ := List.mem_map.1 hmem
  have hallowed := hcand.allowed c (List.mem_of_mem_take hc)
  rw [congrArg Prod.fst heq] at hallowed
  exact hallowed

/-- The token of `sample_mirostat_v1` is allowed. -/
theorem allowed_sampleMirostatV1 [LinearOrder D] (h : Live row)
    (mu tau eta : F) (m : Nat) (rng : R) :
    Allowed row (sampleMirostatV1 fl row mu tau eta m rng).1 := by
  unfold sampleMirostatV1
  simp only
  rw [if_neg (softmaxDesc_ne_nil fl h)]
  have hfilters :=
    filters_applyTopK h (mirostatK fl row.length m mu (softmaxDesc fl row))
  generalize applyTopK row (mirostatK fl row.length m mu (softmaxDesc fl row))
    = left at hfilters
  have hmem := sampleCategorical_mem fl (softmaxDesc_ne_nil fl hfilters.live) rng
  exact hfilters.narrows.allowed ((candidates_softmaxDesc fl left).allowed _ hmem)

end Minfer.Sampler
