/-
Slot records and KV rows (`server/batch.rs`): admission, and the mirror
over whole runs of the engine.

A group of requests is prefilled in one forward. Its preparation loop may
take a run from a slot that is already in the batch; the forward then
finds that sequence without a reservation and refuses the batch, so a
forward that succeeds carries only sequences whose first rows are still
their prompts'.
-/
import Minfer.Server.Proofs.Handshake
import Minfer.Server.Proofs.Prefill

namespace Minfer.Graph

theorem Batch.mem_seqs {b : Batch} {s : SeqId} : s ∈ b.seqs ↔ s ∈ b.seqIds := by
  have hwalk : ∀ (ids out : List SeqId),
      s ∈ ids.foldl (fun out s => if out.contains s then out else out ++ [s]) out
        ↔ s ∈ out ∨ s ∈ ids := by
    intro ids
    induction ids with
    | nil => intro out; simp
    | cons x ids ih =>
        intro out
        rw [List.foldl_cons, ih]
        split
        next hmem =>
          have hin : x ∈ out := by simpa using hmem
          constructor
          · exact fun h => h.imp_right fun h => List.mem_cons_of_mem _ h
          · rintro (h | h)
            · exact .inl h
            · rcases List.mem_cons.mp h with rfl | h
              · exact .inl hin
              · exact .inr h
        next => simp [or_assoc]
  simpa [seqs] using hwalk b.seqIds []

/-- A batch with two sequences counts more than one. -/
theorem Batch.one_lt_nSeqs {b : Batch} {s t : SeqId} (hs : s ∈ b.seqIds)
    (ht : t ∈ b.seqIds) (hne : s ≠ t) : 1 < b.nSeqs := by
  rw [← mem_seqs] at hs ht
  unfold nSeqs
  rcases hb : b.seqs with _ | ⟨a, _ | ⟨a', rest⟩⟩
  · rw [hb] at hs
    cases hs
  · rw [hb, List.mem_singleton] at hs ht
    exact absurd (hs.trans ht.symm) hne
  · simp

end Minfer.Graph

namespace Minfer.Server

open Minfer.Graph (KvCache KvEnv SeqId Batch)
open Minfer.Graph.KvCache (Keeps Solo Steady)

variable {Λ σ : Type}

-- ============================= batches

/-- A batch with as many tokens and positions as sequence ids. -/
structure Square (b : Batch) : Prop where
  tokens : b.tokens.length = b.seqIds.length
  positions : b.positions.length = b.seqIds.length

/-- One batch after the other. -/
def appended (b mine : Batch) : Batch where
  tokens := b.tokens ++ mine.tokens
  positions := b.positions ++ mine.positions
  seqIds := b.seqIds ++ mine.seqIds

theorem Square.appended {b mine : Batch} (hb : Square b) (hm : Square mine) :
    Square (appended b mine) where
  tokens := by
    show (b.tokens ++ mine.tokens).length = (b.seqIds ++ mine.seqIds).length
    rw [List.length_append, List.length_append, hb.tokens, hm.tokens]
  positions := by
    show (b.positions ++ mine.positions).length = (b.seqIds ++ mine.seqIds).length
    rw [List.length_append, List.length_append, hb.positions, hm.positions]

theorem fed_appended {b : Batch} (hb : Square b) (mine : Batch) (s : SeqId) :
    fed (appended b mine) s = fed b s ++ fed mine s := by
  have hzip : b.seqIds.length = (b.positions.zip b.tokens).length := by
    rw [List.length_zip, hb.positions, hb.tokens, Nat.min_self]
  unfold fed Server.appended
  rw [List.zip_append (hb.positions.trans hb.tokens.symm),
    List.zip_append hzip, List.filterMap_append]

/-- A sequence the batch feeds is one of its sequences, and the other way
round. -/
theorem fed_eq_nil {b : Batch} (hb : Square b) {s : SeqId} : fed b s = []
    ↔ s ∉ b.seqIds := by
  have hlen : (b.positions.zip b.tokens).length = b.seqIds.length := by
    rw [List.length_zip, hb.positions, hb.tokens, Nat.min_self]
  constructor
  · intro hnil hmem
    obtain ⟨k, hk⟩ := List.mem_iff_getElem?.mp hmem
    have hlt : k < (b.positions.zip b.tokens).length :=
      hlen ▸ (List.getElem?_eq_some_iff.mp hk).1
    have hin : (s, (b.positions.zip b.tokens)[k])
        ∈ b.seqIds.zip (b.positions.zip b.tokens) :=
      List.mem_iff_getElem?.mpr ⟨k, List.getElem?_zip_eq_some.mpr
        ⟨hk, List.getElem?_eq_getElem hlt⟩⟩
    have := List.filterMap_eq_nil_iff.mp hnil _ hin
    simp at this
  · intro hmem
    refine List.filterMap_eq_nil_iff.mpr fun x hx => if_neg fun hs => hmem ?_
    have hids := (List.of_mem_zip hx).1
    exact hs ▸ hids

/-- Stores of sequences a record does not belong to do not harm it. -/
theorem Harmless.of_absent {w : World Λ σ} {n : Nat} {c : KvCache Row}
    {b : Batch} {s : SeqId}
    (h : s ∉ b.seqIds) (record : List Token) : Harmless w n c b s record :=
  fun _ _ _ _ hk => absurd (List.mem_of_getElem? hk) h

namespace BatchEngine

variable {w : World Λ σ} {e e' : BatchEngine Λ σ}

theorem square_spanBatch {input : List Token} {a b : Nat} (hb : b ≤ input.length)
    (seq : SeqId) : Square (spanBatch seq input (a, b)) where
  tokens := by
    rw [spanBatch_tokens_length hb]
    exact List.length_replicate.symm
  positions := List.length_range'.trans List.length_replicate.symm

-- ============================== groups

/-- The sequences of the slots a group was placed on. -/
def OwnOf (e : BatchEngine Λ σ) (placed : List (Nat × Job σ × Nat))
    (s : SeqId) : Prop :=
  ∃ p ∈ placed, ∃ slot, e.slots[p.2.2]? = some slot ∧ slot.seq = s

/-- Requests placed on distinct idle slots. -/
structure Placed (e : BatchEngine Λ σ) (placed : List (Nat × Job σ × Nat)) :
    Prop where
  distinct : (placed.map (·.2.2)).Nodup
  idle : ∀ p ∈ placed, ∃ slot, e.slots[p.2.2]? = some slot ∧ slot.run = none
  prompts : ∀ p ∈ placed, p.2.1.inputIds ≠ []

/-- A request of the group as the batch carries it: its entries continue the
rows its sequence has, if it still has them. -/
structure Pledged (e : BatchEngine Λ σ) (b : Batch) (p : Nat × Job σ × Nat)
    (slot : SlotState Λ σ) (start : Nat) : Prop where
  here : e.slots[p.2.2]? = some slot
  lt : start < p.2.1.inputIds.length
  fed : fed b slot.seq
    = fed (spanBatch slot.seq p.2.1.inputIds (start, p.2.1.inputIds.length)) slot.seq
  rows : e.cache.seqs[slot.seq]? ≠ none →
    Described e.cache slot.seq (p.2.1.inputIds.take start)

/-- Another slot's preparation does not break a pledge. -/
theorem Pledged.beside {own : SeqId → Prop} {b b' : Batch}
    {p : Nat × Job σ × Nat} {slot : SlotState Λ σ} {start : Nat}
    (hp : Pledged e b p slot start) (hb : Beside own e e')
    (hown : ¬ own slot.seq) (hfed : Server.fed b' slot.seq = Server.fed b slot.seq) :
    ∃ slot', Pledged e' b' p slot' start := by
  obtain ⟨slot', hs', hseq, -⟩ := hb.slots _ slot hp.here
  refine ⟨slot', hs', hp.lt, ?_, fun hlive => ?_⟩
  · rw [hseq, hfed]
    exact hp.fed
  · rw [hseq] at hlive ⊢
    exact hb.rows _ _ hown (hp.rows fun hdead => hlive (hb.dead _ hown hdead)) hlive

/-- The first request of a group, prepared. -/
theorem Mirrored.prepare (henv : w.kvEnv.Obliging)
    (hgathers : w.gathers = false) (htrack : w.track = true) (hm : Mirrored e)
    {idx : Nat} {slot : SlotState Λ σ} (hs : e.slots[idx]? = some slot)
    (hidle : slot.run = none) (input : List Token) (want : Nat) {start : Nat}
    {e₁ : BatchEngine Λ σ} (hstarted : e.startFrom w idx input = (start, e₁)) :
    Mirrored (e₁.ensureSlotCapacity w idx want)
      ∧ Beside (· = slot.seq) e (e₁.ensureSlotCapacity w idx want)
      ∧ start ≤ input.length - 1
      ∧ Described (e₁.ensureSlotCapacity w idx want).cache slot.seq
        (input.take start) := by
  have hstart := Mirrored.startFrom henv hgathers htrack hm hs hidle input
  rw [hstarted] at hstart
  obtain ⟨slot₁, hs₁, hseq₁, hidle₁, hlen, hpre⟩ := hstart.own
  simp only at hs₁ hlen hpre
  have hroom := hstart.mirror.ensureSlotCapacity henv hs₁ want
  refine ⟨hroom.mirror, hstart.beside.trans ?_, hstart.start_le, ?_⟩
  · rw [← hseq₁]
    exact hroom.beside
  · have hrows := hroom.rows _ ((hstart.mirror.described hs₁).take start)
    rw [hpre, hseq₁] at hrows
    exact hrows

theorem Placed.tail {p : Nat × Job σ × Nat} {rest : List (Nat × Job σ × Nat)}
    (hp : Placed e (p :: rest)) (hb : Beside (fun _ => True) e e') :
    Placed e' rest where
  distinct := (List.nodup_cons.mp hp.distinct).2
  idle q hq := by
    obtain ⟨slot, hs, hrun⟩ := hp.idle q (List.mem_cons_of_mem p hq)
    obtain ⟨slot', hs', -, hrun'⟩ := hb.slots _ slot hs
    exact ⟨slot', hs', hrun'.trans hrun⟩
  prompts q hq := hp.prompts q (List.mem_cons_of_mem p hq)

theorem ownOf_beside {own : SeqId → Prop} (hb : Beside own e e')
    {placed : List (Nat × Job σ × Nat)}
    (hp : ∀ p ∈ placed, ∃ slot, e.slots[p.2.2]? = some slot)
    {s : SeqId} : OwnOf e' placed s → OwnOf e placed s := by
  rintro ⟨p, hmem, slot', hs', hseq'⟩
  obtain ⟨slot, hs⟩ := hp p hmem
  obtain ⟨slot₁, hs₁, hseq₁, -⟩ := hb.slots _ slot hs
  rw [hs'] at hs₁
  cases hs₁
  exact ⟨p, hmem, slot, hs, hseq₁.symm.trans hseq'⟩

/-- The preparation loop of a group: records stay true, and the batch
carries every request from where its rows end. -/
theorem Mirrored.groupBatch (henv : w.kvEnv.Obliging)
    (hgathers : w.gathers = false) (htrack : w.track = true) :
    ∀ {placed : List (Nat × Job σ × Nat)} {e e' : BatchEngine Λ σ} {b : Batch}
      {r : Except String Batch}, Mirrored e → Square b → Placed e placed →
      (∀ s, OwnOf e placed s → fed b s = []) → e.groupBatch w placed b = (r, e') →
      Mirrored e' ∧ Beside (OwnOf e placed) e e' ∧ ∀ b', r = .ok b' →
        Square b' ∧ (∀ p ∈ placed, ∃ slot start, Pledged e' b' p slot start)
          ∧ ∀ s, ¬ OwnOf e placed s → fed b' s = fed b s := by
  intro placed
  induction placed with
  | nil =>
      intro e e' b r hm hb _ _ h
      cases h
      refine ⟨hm, .refl _ e, fun b' hb' => ?_⟩
      cases hb'
      exact ⟨hb, (fun p hp => nomatch hp), fun s _ => rfl⟩
  | cons p rest ih =>
      intro e e' b r hm hb hpl hfree h
      obtain ⟨k, job, idx⟩ := p
      obtain ⟨slot, hs, hidle⟩ := hpl.idle _ List.mem_cons_self
      simp only at hs
      have hpos : 0 < job.inputIds.length :=
        List.length_pos_iff.mpr (hpl.prompts _ List.mem_cons_self)
      obtain ⟨start, e₁, hstarted⟩ : ∃ start e₁,
          e.startFrom w idx job.inputIds = (start, e₁) :=
        ⟨_, _, rfl⟩
      unfold BatchEngine.groupBatch at h
      simp only [hstarted] at h
      obtain ⟨hm₂, hbeside, hle, hrows⟩ :=
        hm.prepare henv hgathers htrack hs hidle job.inputIds
        (e₁.wantedCells idx job.inputIds.length job.params.maxTokens) hstarted
      revert h hm₂ hbeside hrows
      generalize e₁.ensureSlotCapacity w idx
        (e₁.wantedCells idx job.inputIds.length job.params.maxTokens) = e₂
      intro h hm₂ hbeside hrows
      obtain ⟨slot₂, hs₂, hseq₂, -⟩ := hbeside.slots idx slot hs
      have hown : OwnOf e ((k, job, idx) :: rest) slot.seq :=
        ⟨_, List.mem_cons_self, slot, hs, rfl⟩
      have hbeside' : Beside (OwnOf e ((k, job, idx) :: rest)) e e₂ :=
        hbeside.weaken fun s hsame => hsame ▸ hown
      split at h
      · cases h
        exact ⟨hm₂, hbeside', fun b' hb' => nomatch hb'⟩
      next =>
        simp only [hs₂, Option.map_some, Option.getD_some, hseq₂] at h
        have hsq := square_spanBatch (a := start)
          (Nat.le_refl job.inputIds.length) slot.seq
        have hpl₂ : Placed e₂ rest := hpl.tail (hbeside.weaken fun _ _ => trivial)
        have hback {s : SeqId} : OwnOf e₂ rest s → OwnOf e rest s :=
          ownOf_beside hbeside fun q hq => by
            obtain ⟨a, ha, -⟩ := hpl.idle q (List.mem_cons_of_mem _ hq)
            exact ⟨a, ha⟩
        -- the other slots of the group hold other sequences
        have hother : ¬ OwnOf e rest slot.seq := by
          rintro ⟨q, hq, a, ha, hseq⟩
          have hmem : q.2.2 ∈ rest.map (·.2.2) := List.mem_map_of_mem hq
          rw [hm.seq_inj ha hs hseq] at hmem
          exact (List.nodup_cons.mp hpl.distinct).1 hmem
        have hfed (s : SeqId) (hne : slot.seq ≠ s) : fed (appended b
            (spanBatch slot.seq job.inputIds (start, job.inputIds.length))) s
                = fed b s := by
          rw [fed_appended hb,
            (fed_spanBatch (Nat.le_refl _) slot.seq s).1 hne, List.append_nil]
        obtain ⟨hm', hbeside₂, hok⟩ := ih hm₂ (hb.appended hsq) hpl₂ (fun s hs' => by
          have hne : slot.seq ≠ s := fun heq => hother (heq ▸ hback hs')
          obtain ⟨q, hq, rest'⟩ := hback hs'
          rw [hfed s hne]
          exact hfree s ⟨q, List.mem_cons_of_mem _ hq, rest'⟩) h
        refine ⟨hm', hbeside'.trans (hbeside₂.weaken fun s hs' => ?_),
          fun b' hb' => ?_⟩
        · obtain ⟨q, hq, rest'⟩ := hback hs'
          exact ⟨q, List.mem_cons_of_mem _ hq, rest'⟩
        obtain ⟨hsq', hpledged, hkeep⟩ := hok b' hb'
        refine ⟨hsq', fun q hq => ?_, fun s hs' => ?_⟩
        · rcases List.mem_cons.mp hq with rfl | hq
          · have hmine : Pledged e₂ (appended b
                (spanBatch slot.seq job.inputIds (start, job.inputIds.length)))
                (k, job, idx) slot₂ start := by
              refine ⟨hs₂, by simp only; omega, ?_, fun _ => hseq₂ ▸ hrows⟩
              rw [hseq₂, fed_appended hb, hfree _ hown, List.nil_append]
            have hnot : ¬ OwnOf e₂ rest slot₂.seq :=
              fun ho => hother (hseq₂ ▸ hback ho)
            obtain ⟨slot', hpl'⟩ := hmine.beside hbeside₂ hnot (hkeep _ hnot)
            exact ⟨slot', start, hpl'⟩
          · exact hpledged q hq
        · have hne : slot.seq ≠ s := fun heq => hs' (heq ▸ hown)
          have hnot : ¬ OwnOf e₂ rest s := fun ho => by
            obtain ⟨q, hq, rest'⟩ := hback ho
            exact hs' ⟨q, List.mem_cons_of_mem _ hq, rest'⟩
          rw [hkeep s hnot, hfed s hne]

/-- Installing the requests of a group, one after the other. -/
theorem Mirror.installAll (htrack : w.track = true) (logits : List Token → Λ) :
    ∀ {placed : List (Nat × Job σ × Nat)} {e : BatchEngine Λ σ},
      Mirror (· ∈ placed.map (·.2.2)) e → (placed.map (·.2.2)).Nodup →
      (∀ p ∈ placed, ∃ slot, e.slots[p.2.2]? = some slot
        ∧ Described e.cache slot.seq p.2.1.inputIds) →
      Mirrored (placed.foldl
        (fun e p => e.installRun w p.2.2 p.2.1 (logits p.2.1.inputIds)) e) := by
  intro placed
  induction placed with
  | nil => exact fun hm _ _ => hm.mono fun i hi => nomatch hi
  | cons p rest ih =>
      intro e hm hnd hrows
      obtain ⟨slot, hs, hd⟩ := hrows p List.mem_cons_self
      obtain ⟨hfresh, hnd⟩ := List.nodup_cons.mp hnd
      rw [List.foldl_cons]
      refine ih (hm.installRun htrack hs hd _) hnd fun q hq => ?_
      obtain ⟨a, ha, hda⟩ := hrows q (List.mem_cons_of_mem p hq)
      have hne : p.2.2 ≠ q.2.2 := fun heq =>
        hfresh (List.mem_map.mpr ⟨q, hq, heq.symm⟩)
      refine ⟨a, ?_, ?_⟩
      · unfold BatchEngine.installRun
        rw [hs]
        exact (List.getElem?_set_ne hne).trans ha
      · unfold BatchEngine.installRun
        rw [hs]
        exact hda

/-- The records of a group stay true if its forward fails: it wrote no row
of a record otherwise. -/
def GroupSafe (w : World Λ σ) (e : BatchEngine Λ σ)
    (placed : List (Nat × Job σ × Nat)) : Prop :=
  ∀ b e₁, e.groupBatch w placed ⟨[], [], []⟩ = (.ok b, e₁) →
    ∀ p ∈ placed, ∀ slot, e₁.slots[p.2.2]? = some slot →
      Harmless w e₁.forwards e₁.cache b slot.seq slot.cachedTokens

/-- `prefill_group` keeps the mirror. -/
theorem Mirrored.prefillGroup (henv : w.kvEnv.Obliging)
    (hgathers : w.gathers = false) (htrack : w.track = true) (hm : Mirrored e)
    {placed : List (Nat × Job σ × Nat)} (hpl : Placed e placed)
    (hmany : 1 < placed.length) (hsafe : GroupSafe w e placed) :
    Mirrored (e.prefillGroup w placed).2 := by
  have hempty : Square ⟨[], [], []⟩ := ⟨rfl, rfl⟩
  unfold BatchEngine.prefillGroup
  split
  next msg e₁ hgroup =>
    exact (hm.groupBatch henv hgathers htrack hempty hpl (fun _ _ => rfl) hgroup).1
  next b e₁ hgroup =>
  obtain ⟨hm₁, hbeside, hok⟩ :=
    hm.groupBatch henv hgathers htrack hempty hpl (fun _ _ => rfl) hgroup
  obtain ⟨hsq, hpledged, hothers⟩ := hok b rfl
  -- a slot outside the group has no entry in the batch
  have habsent {i : Nat} {a : SlotState Λ σ} (ha : e₁.slots[i]? = some a)
      (hi : i ∉ placed.map (·.2.2)) : a.seq ∉ b.seqIds := by
    rw [← fed_eq_nil hsq, hothers]
    · rfl
    · rintro ⟨p, hp, slot, hs, hseq⟩
      obtain ⟨slot', hs', hseq', -⟩ := hbeside.slots _ slot hs
      have hsame : i = p.2.2 := hm₁.seq_inj ha hs' (hseq.symm.trans hseq'.symm)
      exact hi (hsame ▸ List.mem_map_of_mem hp)
  split
  next err e₂ hf =>
    obtain ⟨msg, c, hfwd, -, rfl⟩ := forwardBatch_error hf
    obtain ⟨hsolo, hdesc⟩ := forwardOn_error hm₁.solo hfwd
    refine ⟨hsolo, hm₁.distinct, fun i a ha _ => ?_, hm₁.inStep⟩
    refine hdesc _ _ (hm₁.described ha) ?_
    by_cases hi : i ∈ placed.map (·.2.2)
    · obtain ⟨p, hp, rfl⟩ := List.mem_map.mp hi
      exact hsafe b e₁ hgroup p hp a ha
    · exact .of_absent (habsent ha hi) _
  next logits e₂ hf =>
    obtain ⟨c, hfwd, rfl⟩ := forwardBatch_ok hf
    obtain ⟨-, hsolo, hdesc, hlive⟩ := forwardOn_ok hm₁.solo hsq.tokens hfwd
    -- two requests with something to feed are two sequences
    have hfedIn {p : Nat × Job σ × Nat} {slot : SlotState Λ σ} {start : Nat}
        (hp : Pledged e₁ b p slot start) : slot.seq ∈ b.seqIds := by
      by_contra habs
      have hlen := (fed_spanBatch (a := start) (Nat.le_refl p.2.1.inputIds.length)
        slot.seq slot.seq).2.2.2
      rw [← hp.fed, (fed_eq_nil hsq).mpr habs] at hlen
      have := hp.lt
      simp at hlen
      omega
    have hseqs : 1 < b.nSeqs := by
      rcases placed with _ | ⟨p, _ | ⟨q, rest⟩⟩
      · simp at hmany
      · simp at hmany
      · obtain ⟨a, _, hpa⟩ := hpledged p List.mem_cons_self
        obtain ⟨a', _, hpa'⟩ := hpledged q (List.mem_cons_of_mem p List.mem_cons_self)
        refine Batch.one_lt_nSeqs (hfedIn hpa) (hfedIn hpa') fun heq => ?_
        have hsame : p.2.2 = q.2.2 := hm₁.seq_inj hpa.here hpa'.here heq
        have hnd := hpl.distinct
        simp [hsame] at hnd
    refine Mirror.installAll htrack logits ?_ hpl.distinct fun p hp => ?_
    · refine ⟨hsolo, hm₁.distinct, fun i a ha hi => ?_, hm₁.inStep⟩
      have hkeep := hdesc _ _ (hm₁.described ha)
      rw [(fed_eq_nil hsq).mpr (habsent ha hi)] at hkeep
      show Described c a.seq a.cachedTokens
      simpa using hkeep
    · obtain ⟨slot, start, hpl'⟩ := hpledged p hp
      have hrows := hpl'.rows (hlive hseqs _ (hfedIn hpl'))
      have hlt := hpl'.lt
      obtain ⟨-, hpos, htoks, hcount⟩ :=
        fed_spanBatch (a := start) (Nat.le_refl p.2.1.inputIds.length) slot.seq
          slot.seq
      have hext := hdesc _ _ hrows (by
        rw [hpl'.fed, hpos, hcount, List.length_take,
          Nat.min_eq_left (Nat.le_of_lt hlt)])
      rw [hpl'.fed, htoks, take_append_span (Nat.le_of_lt hlt),
        List.take_length] at hext
      exact ⟨slot, hpl'.here, hext⟩

-- =========================== placement

theorem bestSlot_free {taken : List Bool} {prompt : List Token} {n slot : Nat}
    (h : e.bestSlot taken prompt = some (n, slot)) :
    slot < e.slots.length ∧ taken.getD slot true = false := by
  unfold bestSlot at h
  refine List.foldlRecOn (motive := fun best => ∀ n i, best = some (n, i) →
    i < e.slots.length ∧ taken.getD i true = false) _ _ (by simp) ?_ n slot h
  intro best hbest x hx n i hi
  split at hi
  · exact hbest n i hi
  next hfree =>
    have hgood : x < e.slots.length ∧ taken.getD x true = false :=
      ⟨List.mem_range.mp hx, by simpa using hfree⟩
    simp only at hi
    split at hi
    · split at hi
      · cases hi
        exact hgood
      · exact hbest n i hi
    · cases hi
      exact hgood

/-- Placement answers the jobs it has no slot for and picks distinct free
slots for the others. -/
theorem place_spec (w : World Λ σ) : ∀ (jobs : List (Job σ)) (e : BatchEngine Λ σ)
    (taken : List Bool) (i : Nat),
    (e.place w taken i jobs).2.2.slots = e.slots
      ∧ (e.place w taken i jobs).2.2.cache = e.cache
      ∧ (∀ p ∈ (e.place w taken i jobs).1,
        p.2.1 ∈ jobs ∧ p.2.2 < e.slots.length ∧ taken.getD p.2.2 true = false)
      ∧ ((e.place w taken i jobs).1.map (·.2.2)).Nodup := by
  intro jobs
  induction jobs with
  | nil => exact fun e taken i => ⟨rfl, rfl, (fun p hp => nomatch hp), List.nodup_nil⟩
  | cons job jobs ih =>
      intro e taken i
      unfold BatchEngine.place
      split
      next n slot hbest =>
        obtain ⟨hlt, hfree⟩ := bestSlot_free hbest
        obtain ⟨hslots, hcache, hmem, hnd⟩ := ih e (taken.set slot true) (i + 1)
        -- a slot placed later was still free here
        have hlater : ∀ j, (taken.set slot true).getD j true = false →
            j ≠ slot ∧ taken.getD j true = false := by
          intro j hj
          rw [List.getD_eq_getElem?_getD, List.getElem?_set] at hj
          split at hj
          next => split at hj <;> simp at hj
          next hne =>
            rw [List.getD_eq_getElem?_getD]
            exact ⟨Ne.symm hne, hj⟩
        refine ⟨hslots, hcache, fun p hp => ?_, ?_⟩
        · rcases List.mem_cons.mp hp with rfl | hp
          · exact ⟨List.mem_cons_self, hlt, hfree⟩
          · obtain ⟨hjob, hplt, htaken⟩ := hmem p hp
            exact ⟨List.mem_cons_of_mem _ hjob, hplt, (hlater _ htaken).2⟩
        · rw [List.map_cons]
          refine List.nodup_cons.mpr ⟨fun hin => ?_, hnd⟩
          obtain ⟨p, hp, heq⟩ := List.mem_map.mp hin
          exact (hlater _ (hmem p hp).2.2).1 heq
      next =>
        obtain ⟨hslots, hcache, hmem, hnd⟩ :=
          ih (e.reject w job.id (.unavailable "no idle slot")) taken (i + 1)
        exact ⟨hslots, hcache, fun p hp =>
          ⟨List.mem_cons_of_mem _ (hmem p hp).1, (hmem p hp).2⟩,
          hnd⟩

/-- The requests a group was placed for, on the engine it was placed in. -/
theorem placed_place (w : World Λ σ) {jobs : List (Job σ)}
    (e : BatchEngine Λ σ) (hjobs : ∀ job ∈ jobs, job.inputIds ≠ []) :
    Placed (e.place w (e.slots.map (·.run.isSome)) 0 jobs).2.2
      (e.place w (e.slots.map (·.run.isSome)) 0 jobs).1 := by
  obtain ⟨hslots, -, hmem, hnd⟩ := place_spec w jobs e (e.slots.map (·.run.isSome)) 0
  refine ⟨hnd, fun p hp => ?_, fun p hp => hjobs _ (hmem p hp).1⟩
  obtain ⟨-, hlt, hfree⟩ := hmem p hp
  refine ⟨e.slots[p.2.2], ?_, ?_⟩
  · rw [hslots]
    exact List.getElem?_eq_getElem hlt
  · rw [List.getD_eq_getElem?_getD, List.getElem?_map,
      List.getElem?_eq_getElem hlt] at hfree
    simpa using hfree

-- =========================== admission

/-- Every submission of a list leaves the records true. -/
def SubmitAllSafe (w : World Λ σ) (seam : TickSeam) : BatchEngine Λ σ →
    List (Nat × Job σ × Nat) → Prop
  | _, [] => True
  | e, (_, job, slot) :: rest =>
      SubmitSafe w seam e slot job
        ∧ SubmitAllSafe w seam (e.submitOn w seam slot job).2 rest

theorem Mirrored.submitAll (henv : w.kvEnv.Obliging) (hgathers : w.gathers = false)
    (htrack : w.track = true) {seam : TickSeam} :
    ∀ {placed : List (Nat × Job σ × Nat)} {e : BatchEngine Λ σ}, Mirrored e →
      (∀ p ∈ placed, p.2.1.inputIds ≠ []) → SubmitAllSafe w seam e placed →
      Mirrored (e.submitAll w seam placed).2 := by
  intro placed
  induction placed with
  | nil => exact fun hm _ _ => hm
  | cons p rest ih =>
      intro e hm hne hsafe
      obtain ⟨k, job, slot⟩ := p
      obtain ⟨hfirst, hrest⟩ := hsafe
      exact ih (hm.submitOn henv hgathers htrack (hne _ List.mem_cons_self) hfirst)
        (fun q hq => hne q (List.mem_cons_of_mem _ hq)) hrest

/-- The requests that were placed go into one forward. -/
def Grouped (w : World Λ σ) (e : BatchEngine Λ σ)
    (placed : List (Nat × Job σ × Nat)) : Prop :=
  placed.length > 1
    ∧ (placed.map fun p => (e.feedSpan w p.2.2 p.2.1.inputIds).1).sum
      ≤ (if e.nBatch = 0 then maxPrefillBatch else min e.nBatch maxPrefillBatch)
    ∧ w.prefillBatchOk

/-- When admitting a group leaves every record true. -/
def AdmitSafe (w : World Λ σ) (seam : TickSeam) (e : BatchEngine Λ σ)
    (jobs : List (Job σ)) :
    Prop :=
  let placed := (e.place w (e.slots.map (·.run.isSome)) 0 jobs).1
  let e := (e.place w (e.slots.map (·.run.isSome)) 0 jobs).2.2
  (Grouped w e placed → GroupSafe w e placed)
    ∧ (¬ Grouped w e placed → SubmitAllSafe w seam e placed)

theorem Mirror.rejectAll {skip : Nat → Prop}
    (placed : List (Nat × Job σ × Nat)) (err : ApiError)
    (hm : Mirror skip e) : Mirror skip (e.rejectAll w placed err) := by
  unfold BatchEngine.rejectAll
  induction placed generalizing e with
  | nil => exact hm
  | cons p rest ih => exact ih (hm.reject _ _)

/-- `admit` keeps the mirror. -/
theorem Mirrored.admitJobs (henv : w.kvEnv.Obliging)
    (hgathers : w.gathers = false) (htrack : w.track = true) {seam : TickSeam}
    (hm : Mirrored e) {jobs : List (Job σ)}
    (hjobs : ∀ job ∈ jobs, job.inputIds ≠ []) (hsafe : AdmitSafe w seam e jobs) :
    Mirrored (e.admitJobs w seam jobs).2 := by
  obtain ⟨hslots, hcache, -, -⟩ := place_spec w jobs e (e.slots.map (·.run.isSome)) 0
  have hpl := placed_place w e hjobs
  unfold AdmitSafe at hsafe
  unfold BatchEngine.admitJobs
  revert hsafe hpl hslots hcache
  generalize e.place w (e.slots.map (·.run.isSome)) 0 jobs = out
  obtain ⟨placed, refused, e₁⟩ := out
  intro hsafe hslots hcache hpl
  simp only at hslots hcache hpl hsafe ⊢
  have hm₁ : Mirrored e₁ := by
    refine ⟨hcache ▸ hm.solo, hslots ▸ hm.distinct, fun i a ha hi => ?_,
      fun i a ha => ?_⟩
    · rw [hcache]
      exact hm.faithful i a (hslots ▸ ha) hi
    · exact hm.inStep i a (hslots ▸ ha)
  by_cases hgroup : Grouped w e₁ placed
  · have hdone := hm₁.prefillGroup henv hgathers htrack hpl hgroup.1 (hsafe.1 hgroup)
    unfold Grouped at hgroup
    rw [if_pos hgroup]
    split
    next e₂ h₂ =>
      rw [h₂] at hdone
      exact hdone
    next msg e₂ h₂ =>
      rw [h₂] at hdone
      exact hdone.rejectAll _ _
  · have hdone := hm₁.submitAll henv hgathers htrack hpl.prompts (hsafe.2 hgroup)
    unfold Grouped at hgroup
    rw [if_neg hgroup]
    exact hdone

-- ================================ runs

/-- Calls on an engine. Prompts are not empty (the HTTP layer answers those
itself), and a prefill that fails leaves its slot's record true. -/
inductive Serves (w : World Λ σ) : BatchEngine Λ σ → BatchEngine Λ σ → Prop
  | refl (e : BatchEngine Λ σ) : Serves w e e
  | tick {e e' : BatchEngine Λ σ} (h : Serves w e e') (seam : TickSeam) :
      Serves w e (e'.tick w seam).2
  | submitOn {e e' : BatchEngine Λ σ} (h : Serves w e e') (seam : TickSeam)
      (idx : Nat)
      (job : Job σ) (hne : job.inputIds ≠ []) (hsafe : SubmitSafe w seam e' idx job) :
      Serves w e (e'.submitOn w seam idx job).2
  | admitJobs {e e' : BatchEngine Λ σ} (h : Serves w e e') (seam : TickSeam)
      (jobs : List (Job σ)) (hne : ∀ job ∈ jobs, job.inputIds ≠ [])
      (hsafe : AdmitSafe w seam e' jobs) : Serves w e (e'.admitJobs w seam jobs).2

theorem Mirrored.serves (henv : w.kvEnv.Obliging) (hgathers : w.gathers = false)
    (htrack : w.track = true) (hm : Mirrored e) (h : Serves w e e') :
    Mirrored e' := by
  induction h with
  | refl => exact hm
  | tick _ seam ih => exact (ih.tick (fun i hi => hi.elim) seam).1
  | submitOn _ seam idx job hne hsafe ih =>
      exact ih.submitOn henv hgathers htrack hne hsafe
  | admitJobs _ seam jobs hne hsafe ih =>
      exact ih.admitJobs henv hgathers htrack hne hsafe

/-- The reservations of `new`: distinct sequences, empty records. -/
theorem reserveSlots_fresh (henv : w.kvEnv.Obliging) {cap : Nat} :
    ∀ {seqs : List SeqId} {c c' : KvCache Row}
      {slots slots' : List (SlotState Λ σ)}, c.Solo →
      (slots.map (·.seq) ++ seqs).Nodup →
        (∀ s ∈ slots, s.cachedTokens = [] ∧ s.run = none) →
      reserveSlots w cap c slots seqs = .ok (c', slots') →
      c'.Solo ∧ (slots'.map (·.seq)).Nodup
        ∧ ∀ s ∈ slots', s.cachedTokens = [] ∧ s.run = none := by
  intro seqs
  induction seqs with
  | nil =>
      intro c c' slots slots' hc hnd hfresh h
      cases h
      exact ⟨hc, by simpa using hnd, hfresh⟩
  | cons seq rest ih =>
      intro c c' slots slots' hc hnd hfresh h
      unfold reserveSlots at h
      split at h
      · cases h
      next kvSlot moves c₁ hres =>
        obtain ⟨hsteady, -⟩ := hc.kvReserveSeq henv hres
        obtain ⟨f, hf⟩ := applyRunMoves_eq (Λ := Λ) (σ := σ) moves
        refine ih hsteady.solo ?_ ?_ h
        · rw [hf, List.map_append, List.map_map]
          show (slots.map (·.seq) ++ [seq] ++ rest).Nodup
          rwa [List.append_assoc]
        · intro s hs
          rcases List.mem_append.mp hs with hs | hs
          · rw [hf] at hs
            obtain ⟨a, ha, rfl⟩ := List.mem_map.mp hs
            exact hfresh a ha
          · rw [List.mem_singleton.mp hs]
            exact ⟨rfl, rfl⟩

/-- A new engine has nothing recorded. -/
theorem mirrored_new (henv : w.kvEnv.Obliging) {arena : KvCache Row}
    {nSlots nCtxTotal nBatch : Nat} (hempty : (arena.setNCtx nCtxTotal).IsEmpty)
    (h : BatchEngine.new w arena nSlots nCtxTotal nBatch = .ok e) : Mirrored e := by
  unfold BatchEngine.new at h
  simp only at h
  split at h
  · cases h
  next =>
  split at h
  · cases h
  next c slots hres =>
    cases h
    have hsolo : (arena.setNCtx nCtxTotal).Solo := by
      refine ⟨hempty.inv, fun s slot hs => ?_⟩
      rw [hempty.seqs s] at hs
      cases hs
    obtain ⟨hsolo', hnd, hfresh⟩ := reserveSlots_fresh henv hsolo
      (by simpa using List.nodup_range') (fun s hs => absurd hs List.not_mem_nil) hres
    refine ⟨hsolo', hnd, fun i a ha _ => ?_, fun i a ha run hr => ?_⟩
    · show Described c a.seq a.cachedTokens
      rw [(hfresh a (List.mem_of_getElem? ha)).1]
      exact .nil _ _
    · rw [(hfresh a (List.mem_of_getElem? ha)).2] at hr
      cases hr

/-- Every slot's record describes its rows, and a request that reuses what
its prompt shares with a record reads rows of its own prompt. -/
def RecordsTrue (e : BatchEngine Λ σ) : Prop :=
  ∀ (i : Nat) (slot : SlotState Λ σ), e.slots[i]? = some slot →
    Described e.cache slot.seq slot.cachedTokens
      ∧ ∀ (prompt : List Token) (layer : Nat) l, e.cache.layers[layer]? = some l →
        readContext e.cache l slot.seq (commonPrefixLen slot.cachedTokens prompt)
          = some (prompt.take (commonPrefixLen slot.cachedTokens prompt))

/-- The prefix-reuse mirror over whole runs. -/
theorem serves_records_true {w : World Λ σ} (henv : w.kvEnv.Obliging)
    (hgathers : w.gathers = false) (htrack : w.track = true)
    {arena : KvCache Row} {nSlots nCtxTotal nBatch : Nat}
    (hempty : (arena.setNCtx nCtxTotal).IsEmpty) {e₀ e : BatchEngine Λ σ}
    (hnew : BatchEngine.new w arena nSlots nCtxTotal nBatch = .ok e₀)
    (hrun : Serves w e₀ e) : RecordsTrue e := by
  have hm : Mirrored e :=
    (mirrored_new henv hempty hnew).serves henv hgathers htrack hrun
  intro i slot hs
  have hd := hm.described hs
  refine ⟨hd, fun prompt layer l hl => ?_⟩
  rw [hd.readContext hl (commonPrefixLen_le_left _ _), take_commonPrefixLen]

/-- A world whose forward number `n` fails after it wrote its first row. -/
def stumbling (n : Nat) : World (List Token) Unit :=
  { counting with failure := fun k =>
      if k = n then some ⟨"device lost", false, fun j => if j = 0
        then some (some [1, 9]) else none⟩
      else none }

/-- One slot of eight cells. -/
def lone (n : Nat) : BatchEngine (List Token) Unit :=
  match BatchEngine.new (stumbling n) (blankArena 8) 1 8 0 with
  | .ok e => e
  | .error _ => ⟨blankArena 8, 8, [], 0, 0, 0, 0, []⟩

/-- A request for no completion tokens. -/
def asks (id : Nat) (prompt : List Token) : Job Unit := ⟨id, prompt, ⟨0, []⟩, ()⟩

set_option maxRecDepth 8000 in
theorem lone_eq (n : Nat)
    (h : (BatchEngine.new (stumbling n) (blankArena 8) 1 8 0).isOk = true) :
    BatchEngine.new (stumbling n) (blankArena 8) 1 8 0 = .ok (lone n) := by
  unfold lone
  split
  next e he => exact he
  next err herr =>
    rw [herr] at h
    cases h

/-- The first prefill of an engine fails, the second one succeeds and its
request ends. -/
def recovered : BatchEngine (List Token) Unit :=
  ((((lone 0).submitOn (stumbling 0) .off 0 (asks 0 [1, 2, 3])).2.submitOn
    (stumbling 0) .off 0
    (asks 1 [4, 5])).2.tick (stumbling 0) .off).2

set_option maxRecDepth 8000 in
/-- A failed prefill of an empty slot does no harm, and the next request's
rows are recorded. -/
theorem recovered_records_true :
    recovered.slots.map (·.cachedTokens) = [[4, 5]] ∧ RecordsTrue recovered := by
  refine ⟨by decide +kernel, ?_⟩
  have hempty : ((blankArena 8).setNCtx 8).IsEmpty :=
    KvCache.isEmpty_insert_new List.length_replicate List.length_replicate
  refine serves_records_true (w := stumbling 0) (fun _ _ _ _ _ => rfl) rfl rfl hempty
    (lone_eq 0 (by decide +kernel)) ?_
  refine .tick
    (.submitOn (.submitOn (.refl _) .off 0 (asks 0 [1, 2, 3]) (by decide) ?_)
      .off 0
    (asks 1 [4, 5]) (by decide) ?_) .off
  · intro slot hs _
    have hseq : slot.seq = 1 := by
      have hall : ((lone 0).slots.map (·.seq))[0]? = some 1 := by decide +kernel
      rw [List.getElem?_map, hs] at hall
      simpa using hall
    rw [hseq]
    refine .inr (.inl ?_)
    decide +kernel
  · intro slot hs _
    have hseq : slot.seq = 1 := by
      have hall : (((lone 0).submitOn (stumbling 0) .off 0
          (asks 0 [1, 2, 3])).2.slots.map
          (·.seq))[0]? = some 1 := by decide +kernel
      rw [List.getElem?_map, hs] at hall
      simpa using hall
    rw [hseq]
    refine .inl ?_
    decide +kernel

/-- A request runs and ends; the prefill of the next one shares its first
token and fails after its first row. -/
def stale : BatchEngine (List Token) Unit :=
  ((((lone 1).submitOn (stumbling 1) .off 0 (asks 0 [1, 2, 3])).2.tick
    (stumbling 1) .off).2.submitOn
    (stumbling 1) .off 0 (asks 1 [1, 9, 9])).2

set_option maxRecDepth 8000 in
/-- The slot still claims rows the failed prefill overwrote, and a request
that reuses them reads a row of somebody else's prompt. -/
theorem failed_prefill_leaves_stale_record :
    BatchEngine.new (stumbling 1) (blankArena 8) 1 8 0 = .ok (lone 1)
      ∧ (stumbling 1).gathers = false ∧ (stumbling 1).track = true
      ∧ stale.slots.map (·.cachedTokens) = [[1, 2, 3]]
      ∧ stale.cache.rowAt 0 1 1 = some (some [1, 9], some [1, 9])
      ∧ (stale.feedSpan (stumbling 1) 0 [1, 2, 3, 4]).1 = 3
      ∧ ¬ RecordsTrue stale := by
  refine ⟨lone_eq 1 (by decide +kernel), rfl, rfl, by decide +kernel,
    by decide +kernel,
    by decide +kernel, fun htrue => ?_⟩
  have hslot : (stale.slots[0]?.map fun s => (s.seq, s.cachedTokens))
      = some (1, [1, 2, 3]) := by
    decide +kernel
  obtain ⟨slot, hs, heq⟩ := Option.map_eq_some_iff.mp hslot
  obtain ⟨hd, -⟩ := htrue 0 slot hs
  rw [show slot.seq = 1 from congrArg (·.1) heq,
    show slot.cachedTokens = [1, 2, 3] from congrArg (·.2) heq] at hd
  have hlayer : stale.cache.layers[0]?.isSome = true := by decide +kernel
  have hrow :=
    hd.rows 0 (by simpa [Option.isSome_iff_ne_none] using hlayer) 1 (by decide)
  rw [show stale.cache.rowAt 0 1 1
    = some (some [1, 9], some [1, 9]) by decide +kernel] at hrow
  exact absurd hrow (by decide)

end BatchEngine
end Minfer.Server
