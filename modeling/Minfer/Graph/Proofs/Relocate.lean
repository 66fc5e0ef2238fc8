/-
The bookkeeping half of a compaction: what `apply_moves` leaves in the
run table, and why a tracked prefix still reads the same rows.

One move does two things to a slot (`relocate`): it moves the run of its
own sequence, and it makes every other sequence's prefix follow when the
prefix lies in the copied rows. `applyMovesLoop_ok` says that a whole plan
is that function folded over its moves. `prefix_tracked` is the data side:
a prefix keeps its rows as long as no move writes over it without also
carrying it along.
-/
import Mathlib.Data.List.Pairwise
import Minfer.Graph.Proofs.Copy

namespace Minfer.Graph

open Lib (InRun Apart memmove runMoves Move Clear)

variable {ρ : Type}

-- ============================ one slot

/-- The move copies rows the prefix reads. -/
def Touches (m : KvMove) (sh : SharedPrefix) : Prop :=
  0 < m.rows ∧ sh.rows ≠ 0 ∧ sh.cell < m.fromCell + m.rows
    ∧ m.fromCell < sh.cell + sh.rows

instance (m : KvMove) (sh : SharedPrefix) : Decidable (Touches m sh) :=
  inferInstanceAs (Decidable (_ ∧ _))

/-- Where `s`'s prefix lies after one move. -/
def follow (s : SeqId) (sh : SharedPrefix) (m : KvMove) : SharedPrefix :=
  if s ≠ m.seq ∧ Touches m sh then
    ⟨m.toCell + (sh.cell - m.fromCell), sh.rows⟩
  else sh

/-- `s`'s slot after one move. -/
def relocate (s : SeqId) (slot : SeqSlot) (m : KvMove) : SeqSlot :=
  { slot with start := if m.seq = s then m.toCell else slot.start
              shared := follow s slot.shared m }

/-- The move carries the whole prefix when it touches it at all. -/
def Carries (s : SeqId) (m : KvMove) (sh : SharedPrefix) : Prop :=
  s ≠ m.seq → Touches m sh →
    m.fromCell ≤ sh.cell ∧ sh.cell + sh.rows ≤ m.fromCell + m.rows

@[simp] theorem follow_rows (s : SeqId) (sh : SharedPrefix) (m : KvMove) :
    (follow s sh m).rows = sh.rows := by
  unfold follow
  split <;> rfl

/-- A plan's effect on `s`'s prefix. -/
def followAll (s : SeqId) (sh : SharedPrefix) (ms : List KvMove) : SharedPrefix :=
  ms.foldl (follow s) sh

/-- A plan's effect on `s`'s slot. -/
def relocateAll (s : SeqId) (slot : SeqSlot) (ms : List KvMove) : SeqSlot :=
  ms.foldl (relocate s) slot

@[simp] theorem followAll_rows (s : SeqId) (sh : SharedPrefix) (ms : List KvMove) :
    (followAll s sh ms).rows = sh.rows := by
  unfold followAll
  induction ms generalizing sh with
  | nil => rfl
  | cons m ms ih => rw [List.foldl_cons, ih, follow_rows]

/-- Every move of the plan carries the prefix it finds. -/
def CarriesAll (s : SeqId) : SharedPrefix → List KvMove → Prop
  | _, [] => True
  | sh, m :: ms => Carries s m sh ∧ CarriesAll s (follow s sh m) ms

/-- A plan's effect on a slot, field by field. -/
theorem relocateAll_eq (s : SeqId) (slot : SeqSlot) (ms : List KvMove) :
    relocateAll s slot ms
      = { slot with start := (relocateAll s slot ms).start
                    shared := followAll s slot.shared ms } := by
  unfold relocateAll followAll
  induction ms generalizing slot with
  | nil => rfl
  | cons m ms ih =>
      rw [List.foldl_cons, List.foldl_cons]
      have hm := ih (relocate s slot m)
      exact hm

variable {ms : List KvMove}

/-- A run no move names stays where it is. -/
theorem relocateAll_start_of_not_mem {s : SeqId}
    (h : ∀ m ∈ ms, m.seq ≠ s) (slot : SeqSlot) :
    (relocateAll s slot ms).start = slot.start := by
  unfold relocateAll
  induction ms generalizing slot with
  | nil => rfl
  | cons m ms ih =>
      rw [List.foldl_cons, ih fun w hw => h w (List.mem_cons_of_mem _ hw)]
      exact if_neg (h m (List.mem_cons_self ..))

/-- A run the plan names once ends up at that move's destination. -/
theorem relocateAll_start_of_mem (hnd : (ms.map (·.seq)).Nodup) {m : KvMove}
    (hm : m ∈ ms) (slot : SeqSlot) :
    (relocateAll m.seq slot ms).start = m.toCell := by
  unfold relocateAll
  induction ms generalizing slot with
  | nil => cases hm
  | cons w ms ih =>
      rw [List.map_cons, List.nodup_cons] at hnd
      rw [List.foldl_cons]
      rcases List.mem_cons.mp hm with rfl | hm'
      · have hrest : ∀ v ∈ ms, v.seq ≠ m.seq := by
          intro v hv heq
          exact hnd.1 (heq ▸ List.mem_map.mpr ⟨v, hv, rfl⟩)
        have := relocateAll_start_of_not_mem hrest (relocate m.seq slot m)
        unfold relocateAll at this
        rw [this]
        exact if_pos rfl
      · exact ih hnd.2 hm' _

namespace KvCache

-- ============================ one move

/-- Storing a list of slots under distinct sequences. -/
theorem foldl_putSlot_seqs {f : SeqId × SeqSlot → SeqSlot}
    {rs : List (SeqId × SeqSlot)} (hnd : (rs.map Prod.fst).Nodup) (c : KvCache ρ) :
    (∀ s : SeqId, s ∉ rs.map Prod.fst →
        (rs.foldl (fun c r => c.putSlot r.1 (f r)) c).seqs[s]? = c.seqs[s]?)
      ∧ ∀ r ∈ rs, (rs.foldl (fun c r => c.putSlot r.1 (f r)) c).seqs[r.1]?
        = some (f r) := by
  induction rs generalizing c with
  | nil => exact ⟨fun _ _ => rfl, fun r hr => nomatch hr⟩
  | cons e rs ih =>
      obtain ⟨hnotin, hnd⟩ := List.nodup_cons.mp hnd
      obtain ⟨hout, hin⟩ := ih hnd (c.putSlot e.1 (f e))
      simp only [List.foldl_cons]
      constructor
      · intro s hs
        rw [List.map_cons, List.mem_cons, not_or] at hs
        rw [hout s hs.2, putSlot_seqs, if_neg (Ne.symm hs.1)]
      · intro r hr
        rcases List.mem_cons.mp hr with rfl | hr
        · rw [hout _ hnotin, putSlot_seqs, if_pos rfl]
        · exact hin r hr

/-- Storing slots keeps the layers, the arena size and the span lists in
step. -/
theorem foldl_putSlot_frame {f : SeqId × SeqSlot → SeqSlot}
    (rs : List (SeqId × SeqSlot)) (c : KvCache ρ) :
    (rs.foldl (fun c r => c.putSlot r.1 (f r)) c).layers = c.layers
      ∧ (rs.foldl (fun c r => c.putSlot r.1 (f r)) c).nCtx = c.nCtx
      ∧ (c.SpansOk → (rs.foldl (fun c r => c.putSlot r.1 (f r)) c).SpansOk) := by
  induction rs generalizing c with
  | nil => exact ⟨rfl, rfl, id⟩
  | cons e rs ih =>
      obtain ⟨hl, hn, hs⟩ := ih (c.putSlot e.1 (f e))
      exact ⟨by simpa using hl, by simpa using hn, fun hc => hs (hc.putSlot _ _)⟩

variable {c c' : KvCache ρ} {m : KvMove} {ms : List KvMove}

/-- The table entries a move's sharers are drawn from. -/
theorem mem_sharersOf {r : SeqId × SeqSlot} (hm : 0 < m.rows) :
    r ∈ c.sharersOf m ↔ c.seqs[r.1]? = some r.2 ∧ r.1 ≠ m.seq
      ∧ Touches m r.2.shared := by
  obtain ⟨s, slot⟩ := r
  simp only [sharersOf, List.mem_filter, mem_seqs_toList, decide_eq_true_eq,
    Touches, hm, true_and]

theorem moveRun_seqs (c : KvCache ρ) (m : KvMove) (s : SeqId) :
    (c.moveRun m).seqs[s]? = (c.seqs[s]?).map fun slot =>
      { slot with start := if m.seq = s then m.toCell else slot.start } := by
  unfold moveRun
  by_cases hs : m.seq = s
  · subst hs
    cases hslot : c.seqs[m.seq]? with
    | none => simp [hslot]
    | some slot => simp [putSlot_seqs]
  · cases hslot : c.seqs[m.seq]? with
    | none => cases h : c.seqs[s]? <;> simp [h, hs]
    | some slot => cases h : c.seqs[s]? <;> simp [putSlot_seqs, h, hs]

theorem moveRun_frame (c : KvCache ρ) (m : KvMove) :
    (c.moveRun m).layers = c.layers ∧ (c.moveRun m).nCtx = c.nCtx
      ∧ (c.SpansOk → (c.moveRun m).SpansOk) := by
  unfold moveRun
  split
  · exact ⟨by simp, by simp, fun hc => hc.putSlot _ _⟩
  · refine ⟨by simp, by simp, fun hc => ?_⟩
    exact spansOk_refresh (t := c.seqs) hc fun _ _ => rfl

/-- What the sharers did when the plan was not refused. -/
theorem followSharers_ok (h : c.followSharers m = (.ok (), c')) :
    (∀ s : SeqId, c'.seqs[s]? = (c.seqs[s]?).map fun slot =>
        { slot with shared := follow s slot.shared m })
      ∧ (∀ (s : SeqId) slot, c.seqs[s]? = some slot → Carries s m slot.shared)
      ∧ c'.layers = c.layers ∧ c'.nCtx = c.nCtx ∧ (c.SpansOk → c'.SpansOk) := by
  unfold followSharers at h
  split at h
  next hrows =>
    split at h
    · cases h
    next hfind =>
      cases h
      have hnd : ((c.sharersOf m).map Prod.fst).Nodup :=
        (nodup_keys_toList c.seqs).sublist (List.filter_sublist.map _)
      obtain ⟨hout, hin⟩ := foldl_putSlot_seqs (f := fun r =>
        { r.2 with shared :=
          ⟨m.toCell + (r.2.shared.cell - m.fromCell), r.2.shared.rows⟩ }) hnd c
      refine ⟨fun s => ?_, fun s slot hslot hne ht => ?_, foldl_putSlot_frame ..⟩
      · -- the sharers are exactly the slots `follow` changes
        by_cases hmem : s ∈ (c.sharersOf m).map Prod.fst
        · obtain ⟨r, hr, rfl⟩ := List.mem_map.mp hmem
          obtain ⟨hslot, hne, ht⟩ := (mem_sharersOf hrows).mp hr
          refine (hin r hr).trans ?_
          rw [hslot, Option.map_some, follow, if_pos ⟨hne, ht⟩]
        · refine (hout s hmem).trans ?_
          cases hslot : c.seqs[s]? with
          | none => rfl
          | some slot =>
              rw [Option.map_some, follow, if_neg]
              rintro ⟨hne, ht⟩
              exact hmem (List.mem_map.mpr ⟨(s, slot),
                (mem_sharersOf hrows).mpr ⟨hslot, hne, ht⟩, rfl⟩)
      · have hno := List.find?_eq_none.mp hfind (s, slot)
          ((mem_sharersOf hrows).mpr ⟨hslot, hne, ht⟩)
        simp only [straddles, decide_eq_true_eq] at hno
        omega
  next hrows =>
    cases h
    have hnot : ∀ sh, ¬ Touches m sh := fun sh ht => hrows ht.1
    refine ⟨fun s => ?_, fun s slot _ _ ht => absurd ht (hnot _), rfl, rfl, id⟩
    cases c.seqs[s]? with
    | none => rfl
    | some slot => simp [follow, hnot]

/-- What one applied move did. -/
theorem applyMove_ok (h : c.applyMove m = (.ok (), c')) :
    (∀ s : SeqId, c'.seqs[s]? = (c.seqs[s]?).map (relocate s · m))
      ∧ (∀ (s : SeqId) slot, c.seqs[s]? = some slot → Carries s m slot.shared)
      ∧ c'.layers = c.layers.map (fun _ l => moveOwner m l)
      ∧ c'.nCtx = c.nCtx ∧ (c.SpansOk → c'.SpansOk) := by
  obtain ⟨hseqs', hcarry, hlay', hn', hsp'⟩ := followSharers_ok h
  obtain ⟨hlay, hn, hsp⟩ :=
    moveRun_frame { c with layers := c.layers.map fun _ l => moveOwner m l } m
  have hseqs :=
    moveRun_seqs { c with layers := c.layers.map fun _ l => moveOwner m l } m
  refine ⟨fun s => ?_, fun s slot hslot => ?_, hlay'.trans hlay, hn'.trans hn,
    fun hc => hsp' (hsp (SpansOk.of_eq rfl rfl hc))⟩
  · rw [hseqs' s, hseqs s, Option.map_map]
    rfl
  · refine hcarry s { slot with start :=
      if m.seq = s then m.toCell else slot.start } ?_
    rw [hseqs s]
    simp only [hslot, Option.map_some]

-- ======================== a whole plan

/-- Owner tables are rewritten in place: a plan keeps every layer's shape
and both regions. -/
theorem moveOwner_frame (m : KvMove) (l : KvLayer ρ) :
    (moveOwner m l).k = l.k ∧ (moveOwner m l).v = l.v
      ∧ (moveOwner m l).owner.length = l.owner.length := by
  refine ⟨rfl, rfl, ?_⟩
  simp only [moveOwner]
  split <;> simp

/-- What an applied plan did: every slot relocated by every move in turn,
and nothing but owner tables touched in the layers. -/
theorem applyMovesLoop_ok (h : c.applyMovesLoop ms = (.ok (), c')) :
    (∀ s : SeqId, c'.seqs[s]? = (c.seqs[s]?).map (relocateAll s · ms))
      ∧ (∀ (s : SeqId) slot, c.seqs[s]? = some slot → CarriesAll s slot.shared ms)
      ∧ (∀ (i : Nat) (l' : KvLayer ρ), c'.layers[i]? = some l' →
          ∃ l : KvLayer ρ, c.layers[i]? = some l ∧ l'.k = l.k ∧ l'.v = l.v
            ∧ l'.owner.length = l.owner.length)
      ∧ (∀ i : Nat, c'.layers[i]? = none → c.layers[i]? = none)
      ∧ c'.nCtx = c.nCtx ∧ (c.SpansOk → c'.SpansOk) := by
  induction ms generalizing c with
  | nil =>
      cases h
      exact ⟨fun s => by cases c'.seqs[s]? <;> rfl, fun _ _ _ => trivial,
        fun _ l hl => ⟨l, hl, rfl, rfl, rfl⟩, fun _ h => h, rfl, id⟩
  | cons m ms ih =>
      simp only [applyMovesLoop] at h
      split at h
      next c₁ h₁ =>
        obtain ⟨hseqs₁, hcarry₁, hlay₁, hn₁, hsp₁⟩ := applyMove_ok h₁
        obtain ⟨hseqs, hcarry, hlay, hnone, hn, hsp⟩ := ih h
        refine ⟨fun s => ?_, fun s slot hslot => ⟨hcarry₁ s slot hslot, ?_⟩,
          fun i l' hl' => ?_, fun i hi => ?_, hn.trans hn₁, fun hc => hsp (hsp₁ hc)⟩
        · rw [hseqs s, hseqs₁ s, Option.map_map]
          rfl
        · exact hcarry s (relocate s slot m) (by rw [hseqs₁ s, hslot]; rfl)
        · obtain ⟨l₁, hl₁, hk, hv, ho⟩ := hlay i l' hl'
          rw [hlay₁, getElem?_map_nat] at hl₁
          obtain ⟨l, hl, rfl⟩ := Option.map_eq_some_iff.mp hl₁
          obtain ⟨hk', hv', ho'⟩ := moveOwner_frame m l
          exact ⟨l, hl, hk.trans hk', hv.trans hv', ho.trans ho'⟩
        · have := hnone i hi
          rw [hlay₁, getElem?_map_nat, Option.map_eq_none_iff] at this
          exact this
      next => cases h

-- ========================== validation

/-- A walk over planned runs that was not refused: the runs are in order
and end inside the arena. -/
theorem checkPlanned_ok {n : Nat} {runs : List (Nat × Nat)}
    (h : checkPlanned n runs = .ok ()) :
    runs.Pairwise (fun a b => a.1 + a.2 ≤ b.1) ∧ ∀ a ∈ runs, a.1 + a.2 ≤ n := by
  induction runs with
  | nil => exact ⟨.nil, fun a ha => nomatch ha⟩
  | cons a rest ih =>
      match rest, ih, h with
      | [], _, h =>
          simp only [checkPlanned] at h
          split at h
          · cases h
          · refine ⟨List.pairwise_singleton .., fun x hx => ?_⟩
            rw [List.mem_singleton.mp hx]
            omega
      | b :: rest, ih, h =>
          simp only [checkPlanned] at h
          split at h
          · cases h
          next hle =>
            obtain ⟨hpw, hend⟩ := ih h
            have hb := hend b (List.mem_cons_self ..)
            -- every later run starts at or after `b`
            have hstart : ∀ x ∈ b :: rest, b.1 ≤ x.1 := by
              intro x hx
              rcases List.mem_cons.mp hx with rfl | hx
              · exact Nat.le_refl _
              · have := (List.pairwise_cons.mp hpw).1 x hx
                omega
            refine ⟨List.pairwise_cons.mpr ⟨fun x hx => ?_, hpw⟩, fun x hx => ?_⟩
            · have := hstart x hx
              omega
            · rcases List.mem_cons.mp hx with rfl | hx
              · omega
              · exact hend x hx

/-- Where a run starts after the plan. -/
def plannedStart (ms : List KvMove) (s : SeqId) (slot : SeqSlot) : Nat :=
  match ms.find? (·.seq == s) with
  | some m => m.toCell
  | none => slot.start

/-- A run whose move agrees with the table. -/
theorem plannedRun_ok {r : SeqId × SeqSlot} {p : Nat × Nat}
    (h : plannedRun ms r = .ok p) : p = (plannedStart ms r.1 r.2, r.2.cap) := by
  unfold plannedRun at h
  unfold plannedStart
  cases hm : ms.find? (fun m => m.seq == r.1) with
  | some m =>
      simp only [hm] at h
      split at h
      · cases h
      · split at h
        · cases h
        · cases h
          rfl
  | none =>
      simp only [hm] at h
      cases h
      rfl

/-- A traversal that was not refused mapped every element. -/
theorem mapM_ok {α β : Type} {f : α → Except String β} {g : α → β}
    (hf : ∀ a b, f a = .ok b → b = g a) {l : List α} {out : List β}
    (h : l.mapM f = .ok out) : out = l.map g := by
  induction l generalizing out with
  | nil =>
      cases h
      rfl
  | cons a l ih =>
      rw [List.mapM_cons] at h
      cases hb : f a with
      | error e =>
          rw [hb] at h
          cases h
      | ok b =>
          cases hbs : l.mapM f with
          | error e =>
              rw [hb, hbs] at h
              cases h
          | ok bs =>
              rw [hb, hbs] at h
              cases h
              rw [List.map_cons, ← ih hbs, ← hf a b hb]

/-- A validated plan lays the runs out disjointly inside the arena. -/
theorem checkPlan_ok (h : c.checkPlan ms = .ok ()) :
    (∀ (s : SeqId) slot, c.seqs[s]? = some slot →
        plannedStart ms s slot + slot.cap ≤ c.nCtx)
      ∧ ∀ (s t : SeqId) a b, s ≠ t → c.seqs[s]? = some a → c.seqs[t]? = some b →
        plannedStart ms s a + a.cap ≤ plannedStart ms t b
          ∨ plannedStart ms t b + b.cap ≤ plannedStart ms s a := by
  unfold checkPlan at h
  split at h
  · cases h
  next planned hplanned =>
    have hmap := mapM_ok (g := fun r => (plannedStart ms r.1 r.2, r.2.cap))
      (fun r p hp => plannedRun_ok hp) hplanned
    obtain ⟨hpw, hend⟩ := checkPlanned_ok h
    have hperm := List.perm_insertionSort pairLe planned
    constructor
    · intro s slot hslot
      refine hend (plannedStart ms s slot, slot.cap) (hperm.mem_iff.mpr ?_)
      rw [hmap]
      exact List.mem_map.mpr ⟨(s, slot), mem_seqs_toList.mpr hslot, rfl⟩
    · -- forget the sorted order: either way round is enough
      have hsym : planned.Pairwise fun a b => a.1 + a.2 ≤ b.1 ∨ b.1 + b.2 ≤ a.1 := by
        refine (hperm.pairwise_iff fun {a b} hab => hab.symm).mp ?_
        exact hpw.imp .inl
      rw [hmap, List.pairwise_map] at hsym
      have : Std.Symm fun x y : SeqId × SeqSlot =>
          plannedStart ms x.1 x.2 + x.2.cap ≤ plannedStart ms y.1 y.2
            ∨ plannedStart ms y.1 y.2 + y.2.cap ≤ plannedStart ms x.1 x.2 :=
        ⟨fun x y hxy => hxy.symm⟩
      intro s t a b hst ha hb
      refine hsym.forall (mem_seqs_toList.mpr ha)
        (mem_seqs_toList.mpr hb) fun heq => ?_
      exact hst (congrArg Prod.fst heq)

end KvCache

-- =================== tracking a prefix

/-- The prefix is where a move that does not carry it writes nothing. -/
def Spared (s : SeqId) (m : KvMove) (sh : SharedPrefix) : Prop :=
  ¬ (s ≠ m.seq ∧ Touches m sh) → Apart m.toCell m.rows sh.cell sh.rows

/-- Every move of the plan spares the prefix it finds. -/
def SparedAll (s : SeqId) : SharedPrefix → List KvMove → Prop
  | _, [] => True
  | sh, m :: ms => Spared s m sh ∧ SparedAll s (follow s sh m) ms

/-- A prefix that every move carries or spares reads the same rows after
the plan. -/
theorem prefix_tracked {s : SeqId} {sh : SharedPrefix}
    {rows : List ρ} (hcarry : CarriesAll s sh ms) (hspare : SparedAll s sh ms)
    (hfit : ∀ m ∈ ms, 0 < m.rows → m.toMove.Fits rows.length) {p : Nat}
    (hp : p < sh.rows) :
    (runMoves rows (ms.map KvMove.toMove))[(followAll s sh ms).cell + p]?
      = rows[sh.cell + p]? := by
  induction ms generalizing sh rows with
  | nil => rfl
  | cons m ms ih =>
      obtain ⟨hcarry₁, hcarry⟩ := hcarry
      obtain ⟨hspare₁, hspare⟩ := hspare
      have hfit' : ∀ w ∈ ms, 0 < w.rows →
          w.toMove.Fits (memmove rows m.toCell m.fromCell m.rows).length := by
        intro w hw hpos
        rw [Lib.length_memmove]
        exact hfit w (List.mem_cons_of_mem _ hw) hpos
      have hrest := ih hcarry hspare hfit' (by rwa [follow_rows])
      refine hrest.trans ?_
      by_cases hf : s ≠ m.seq ∧ Touches m sh
      · -- carried: the row is in the copied range
        obtain ⟨hlo, hhi⟩ := hcarry₁ hf.1 hf.2
        obtain ⟨hsrc, hdst⟩ := hfit m (List.mem_cons_self ..) hf.2.1
        simp only [KvMove.toMove] at hsrc hdst
        have hmoved := Lib.getElem?_memmove_dst (m := rows)
          (i := sh.cell - m.fromCell + p) (by omega) hsrc hdst
        rw [follow, if_pos hf]
        rw [show m.toCell + (sh.cell - m.fromCell) + p
            = m.toCell + (sh.cell - m.fromCell + p) by omega, hmoved]
        congr 1
        omega
      · -- spared: the move writes elsewhere
        rw [follow, if_neg hf]
        refine Lib.getElem?_memmove_out fun hin => ?_
        exact hspare₁ hf _ hin ⟨by omega, by omega⟩

end Minfer.Graph
