/-
What a slot snapshot that is refused leaves in the server.

The container is refused whole (`kvLoad_spec`), and then the run table is
the old one. But once the container is taken, the run table is the file's,
and every refusal after that leaves it so: the slot table is the one the
arena no longer has, apart from the rows that were applied before a later
row was refused. And a table with more rows than the server has slots runs
past its end.

`restoreRows_spec` follows the loop to the row it stops at; what it wrote
by then is compared with the slots, and with the runs, in
`refused_snapshot_kept_iff`.
-/
import Minfer.Graph.Proofs.SessionLoad
import Minfer.Server.Slots

namespace Minfer.Server

open Minfer.Graph Minfer.Lib
open Minfer.Graph.KvCache (accepted Applicable)

variable {Λ σ : Type}

namespace BatchEngine

-- ================================ rows

/-- What a slot's row of the table is. -/
def slotTable (slot : SlotState Λ σ) : Nat × Nat × List Token :=
  (slot.start, slot.cap, slot.cachedTokens)

/-- What a snapshot's row makes of its slot, given the runs. -/
def restored (runs : SeqId → Option SeqSlot) (row : SlotRow) :
    Option (Nat × Nat × List Token) :=
  (runs row.seq).map fun run => (run.start, run.cap, row.cachedTokens)

/-- The snapshot's row `i` names the sequence of slot `i`, and no more tokens
than its run has rows. -/
def RowFits (slots : List (SlotState Λ σ)) (runs : SeqId → Option SeqSlot)
    (i : Nat) (row : SlotRow) : Prop :=
  ∃ slot run, slots[i]? = some slot ∧ row.seq = slot.seq ∧ runs row.seq = some run
    ∧ row.cachedTokens.length ≤ run.written ∧ row.cachedTokens.length ≤ run.cap

/-- A row that fits does not depend on what other rows made of the slots. -/
theorem rowFits_congr {slots slots' : List (SlotState Λ σ)}
    (hseq : slots'.map (·.seq) = slots.map (·.seq))
    (runs : SeqId → Option SeqSlot) (i : Nat)
    (row : SlotRow) : RowFits slots' runs i row ↔ RowFits slots runs i row := by
  have hi : (slots'[i]?).map (·.seq) = (slots[i]?).map (·.seq) := by
    rw [← List.getElem?_map, ← List.getElem?_map, hseq]
  unfold RowFits
  constructor
  · intro ⟨slot, run, hslot, hrow, hrest⟩
    rw [hslot, Option.map_some] at hi
    obtain ⟨slot', hslot', hseq'⟩ := Option.map_eq_some_iff.1 hi.symm
    exact ⟨slot', run, hslot', hrow.trans hseq'.symm, hrest⟩
  · intro ⟨slot, run, hslot, hrow, hrest⟩
    rw [hslot, Option.map_some] at hi
    obtain ⟨slot', hslot', hseq'⟩ := Option.map_eq_some_iff.1 hi
    exact ⟨slot', run, hslot', hrow.trans hseq'.symm, hrest⟩

variable {e : BatchEngine Λ σ}
variable {row : SlotRow} {e' : BatchEngine Λ σ} {msg : String}
  {cache : KvCache Row}

/-- A row that fits is applied to its slot. -/
theorem restoreRows_fits {path : String} {i : Nat} {rest : List SlotRow}
    {slot : SlotState Λ σ} {run : SeqSlot} (hslot : e.slots[i]? = some slot)
    (hseq : row.seq = slot.seq) (hrun : e.cache.seqSlot row.seq = some run)
    (hwritten : row.cachedTokens.length ≤ run.written)
    (hcap : row.cachedTokens.length ≤ run.cap) :
    e.restoreRows path i (row :: rest)
      = (e.setSlot i { slot with start := run.start, cap := run.cap
                                 cachedTokens := row.cachedTokens
                                   }).restoreRows path (i + 1) rest := by
  rw [restoreRows, hslot]
  simp only
  rw [if_neg (not_not.2 hseq), hrun]
  simp only
  rw [if_neg (Nat.not_lt.2 hwritten), if_neg (Nat.not_lt.2 hcap)]

/-- A row that does not fit is refused, or has no slot. -/
theorem restoreRows_unfit {path : String} {i : Nat}
    {rest : List SlotRow} (hno : ¬ RowFits e.slots e.cache.seqSlot i row) :
    ∃ exit, e.restoreRows path i (row :: rest) = (.error exit, e)
      ∧ ((∃ msg, exit = .err msg) ↔ i < e.slots.length) := by
  rw [restoreRows]
  cases hslot : e.slots[i]? with
  | none =>
      have hlen := List.getElem?_eq_none_iff.1 hslot
      exact ⟨_, rfl,
        iff_of_false (fun ⟨msg, hmsg⟩ => nomatch hmsg) (Nat.not_lt.2 hlen)⟩
  | some slot =>
  have hlen := (List.getElem?_eq_some_iff.1 hslot).1
  simp only
  by_cases hseq : row.seq = slot.seq
  · rw [if_neg (not_not.2 hseq)]
    cases hrun : e.cache.seqSlot row.seq with
    | none => exact ⟨_, rfl, iff_of_true ⟨_, rfl⟩ hlen⟩
    | some run =>
    simp only
    by_cases hwritten : row.cachedTokens.length > run.written
    · rw [if_pos hwritten]
      exact ⟨_, rfl, iff_of_true ⟨_, rfl⟩ hlen⟩
    rw [if_neg hwritten]
    by_cases hcap : row.cachedTokens.length > run.cap
    · rw [if_pos hcap]
      exact ⟨_, rfl, iff_of_true ⟨_, rfl⟩ hlen⟩
    · exact absurd ⟨slot, run, hslot, hseq, hrun, Nat.not_lt.1 hwritten,
        Nat.not_lt.1 hcap⟩ hno
  · rw [if_pos hseq]
    exact ⟨_, rfl, iff_of_true ⟨_, rfl⟩ hlen⟩

/-- The loop up to its first row that does not fit, or to its end. -/
theorem restoreRows_spec (path : String) (rows : List SlotRow) (i : Nat)
    (e : BatchEngine Λ σ) :
    ((∀ j row, rows[j]? = some row → RowFits e.slots e.cache.seqSlot (i + j) row) →
      ∃ e', e.restoreRows path i rows = (.ok (), e'))
    ∧ ∀ k row, rows[k]? = some row → ¬ RowFits e.slots e.cache.seqSlot (i + k) row →
      (∀ j < k, ∀ row, rows[j]? = some row →
        RowFits e.slots e.cache.seqSlot (i + j) row) →
      ∃ exit e', e.restoreRows path i rows = (.error exit, e')
        ∧ ((∃ msg, exit = .err msg) ↔ i + k < e.slots.length)
        ∧ e'.cache = e.cache ∧ e'.slots.map (·.seq) = e.slots.map (·.seq)
        ∧ ∀ m, (e'.slots[m]?).map slotTable
            = if i ≤ m ∧ m < i + k then (rows[m - i]?).bind (restored e.cache.seqSlot)
              else (e.slots[m]?).map slotTable := by
  induction rows generalizing i e with
  | nil => exact ⟨fun _ => ⟨e, rfl⟩, fun k row hrow => nomatch hrow⟩
  | cons r rest ih =>
      by_cases hfits : RowFits e.slots e.cache.seqSlot i r
      · obtain ⟨slot, run, hslot, hseq, hrun, hwritten, hcap⟩ := hfits
        rw [restoreRows_fits hslot hseq hrun hwritten hcap]
        set e₁ := e.setSlot i { slot with start := run.start, cap := run.cap
                                          cachedTokens := r.cachedTokens } with he₁
        have hseqs : e₁.slots.map (·.seq) = e.slots.map (·.seq) := by
          apply List.ext_getElem?
          intro m
          simp only [he₁, setSlot, List.getElem?_map, List.getElem?_set]
          split
          · next hm =>
            subst hm
            simp only [hslot, Option.map_some,
              (List.getElem?_eq_some_iff.1 hslot).1, if_true]
          · rfl
        have hlen : e₁.slots.length = e.slots.length := List.length_set
        obtain ⟨hall, hstop⟩ := ih (i + 1) e₁
        constructor
        · intro hrows
          apply hall
          intro j row hrow
          have hj := hrows (j + 1) row hrow
          rw [rowFits_congr hseqs, Nat.add_assoc, Nat.add_comm 1]
          exact hj
        · intro k row hrow hno hbefore
          cases k with
          | zero =>
              cases hrow
              exact absurd ⟨slot, run, hslot, hseq, hrun, hwritten, hcap⟩ hno
          | succ k =>
              have hfits' : ∀ j < k, ∀ row, rest[j]? = some row →
                  RowFits e₁.slots e₁.cache.seqSlot (i + 1 + j) row := by
                intro j hj row hrow
                rw [rowFits_congr hseqs, Nat.add_assoc, Nat.add_comm 1]
                exact hbefore (j + 1) (Nat.succ_lt_succ hj) row hrow
              obtain ⟨exit, e', hres, hexit, hcache, hseq', hslots⟩ :=
                hstop k row hrow
                (by rw [rowFits_congr hseqs, Nat.add_assoc, Nat.add_comm 1];
                    exact hno) hfits'
              refine ⟨exit, e', hres, ?_, hcache, hseq'.trans hseqs, fun m => ?_⟩
              · rw [hexit, hlen, Nat.add_assoc, Nat.add_comm 1]
              · rw [hslots m]
                by_cases hm : m = i
                · -- the slot of this row
                  subst hm
                  have hset : e₁.slots[m]? = some { slot with
                      start := run.start, cap := run.cap, cachedTokens :=
                          r.cachedTokens } := by
                    simp only [he₁, setSlot, List.getElem?_set,
                      (List.getElem?_eq_some_iff.1 hslot).1, if_true]
                  rw [if_neg (by omega), if_pos (by omega), hset, Nat.sub_self]
                  simp only [List.getElem?_cons_zero, Option.bind_some,
                    restored, hrun, Option.map_some, slotTable]
                · have hother : e₁.slots[m]? = e.slots[m]? := by
                    simp only [he₁, setSlot, List.getElem?_set, Ne.symm hm, if_false]
                  rw [hother]
                  by_cases hin : i + 1 ≤ m ∧ m < i + 1 + k
                  · obtain ⟨n, rfl⟩ := Nat.exists_eq_add_of_le hin.1
                    rw [if_pos hin, if_pos (by omega),
                      show i + 1 + n - (i + 1) = n by omega,
                      show i + 1 + n - i = n + 1 by omega, List.getElem?_cons_succ]
                    rfl
                  · rw [if_neg hin, if_neg (by omega)]
      · obtain ⟨exit, hres, hexit⟩ :=
          @restoreRows_unfit _ _ _ _ path _ rest hfits
        constructor
        · intro hrows
          exact absurd (hrows 0 r rfl) hfits
        · intro k row hrow hno hbefore
          cases k with
          | succ k => exact absurd (hbefore 0 (Nat.succ_pos k) r rfl) hfits
          | zero =>
              refine ⟨exit, e, hres, hexit, rfl, rfl, fun m => ?_⟩
              rw [if_neg (by omega)]

-- ============================ refusals

/-- The run table and the slot table are what they were. -/
structure Kept (e e' : BatchEngine Λ σ) : Prop where
  runs : ∀ s, e'.cache.seqSlot s = e.cache.seqSlot s
  slots : e'.slots.map slotTable = e.slots.map slotTable

/-- Every slot is where its run is, and mirrors no more tokens than it has
rows. -/
def Agree (e : BatchEngine Λ σ) : Prop :=
  ∀ slot ∈ e.slots, ∃ run, e.cache.seqSlot slot.seq = some run
    ∧ slot.start = run.start
    ∧ slot.cap = run.cap ∧ slot.cachedTokens.length ≤ run.written

/-- A load that does not panic, and that leaves the tables alone if it is
refused. -/
def LeavesTables (e : BatchEngine Λ σ)
    (r : Except SlotsExit (Nat × Nat) × BatchEngine Λ σ) :
    Prop :=
  (∀ msg, r.1 ≠ .error (.panic msg))
    ∧ ∀ msg, r.1 = .error (.err msg) → Kept e r.2 ∧ (Agree e → Agree r.2)

/-- A table of this server's shape, all of whose rows fit. -/
def Whole (e : BatchEngine Λ σ) (runs : SeqId → Option SeqSlot)
    (snap : Option SlotsSnapshot) :
    Prop :=
  ∃ s, snap = some s ∧ s.nSlots = e.slots.length ∧ s.nCtxTotal = e.nCtxTotal
    ∧ ∀ i row, s.slots[i]? = some row → RowFits e.slots runs i row

/-- Runs that are the arena's, and a table that is refused for its shape or
for a row, with every row before it saying what its slot says. -/
def Restated (e : BatchEngine Λ σ) (runs : SeqId → Option SeqSlot)
    (snap : Option SlotsSnapshot) :
    Prop :=
  (∀ s, runs s = e.cache.seqSlot s)
    ∧ ∀ s, snap = some s → s.nSlots = e.slots.length → s.nCtxTotal = e.nCtxTotal →
      ∃ k row, s.slots[k]? = some row ∧ k < e.slots.length
        ∧ ¬ RowFits e.slots runs k row
        ∧ ∀ j < k, ∀ row, s.slots[j]? = some row → RowFits e.slots runs j row
          ∧ restored runs row = (e.slots[j]?).map slotTable

/-- Tables that were kept, with the sequences of the slots, agree as they
did. -/
theorem Kept.agree (hk : Kept e e')
    (hseq : e'.slots.map (·.seq) = e.slots.map (·.seq)) (ha : Agree e) :
    Agree e' := by
  intro slot' hmem
  obtain ⟨i, hi⟩ := List.mem_iff_getElem?.1 hmem
  have htable : (e'.slots[i]?).map slotTable = (e.slots[i]?).map slotTable := by
    rw [← List.getElem?_map, ← List.getElem?_map, hk.slots]
  have hseq' : (e'.slots[i]?).map (·.seq) = (e.slots[i]?).map (·.seq) := by
    rw [← List.getElem?_map, ← List.getElem?_map, hseq]
  rw [hi, Option.map_some] at htable hseq'
  obtain ⟨slot, hslot, hsame⟩ := Option.map_eq_some_iff.1 hseq'.symm
  rw [hslot, Option.map_some, Option.some.injEq, slotTable, slotTable,
    Prod.mk.injEq, Prod.mk.injEq] at htable
  obtain ⟨hstart, hcap, htokens⟩ := htable
  obtain ⟨run, hrun, hrest⟩ := ha slot (List.mem_of_getElem? hslot)
  refine ⟨run, ?_, ?_⟩
  · rw [hk.runs, ← hsame, hrun]
  · rw [hstart, hcap, htokens]
    exact hrest

/-- Some row is the first that does not fit, or all fit. -/
theorem all_or_first (P : Nat → SlotRow → Prop) (rows : List SlotRow) :
    (∀ j row, rows[j]? = some row → P j row)
      ∨ ∃ k row, rows[k]? = some row ∧ ¬ P k row
        ∧ ∀ j < k, ∀ row, rows[j]? = some row → P j row := by
  induction rows generalizing P with
  | nil => exact Or.inl fun j row hrow => nomatch hrow
  | cons r rest ih =>
      by_cases hr : P 0 r
      · rcases ih fun j row => P (j + 1) row with hall | ⟨k, row, hrow, hno, hbefore⟩
        · left
          intro j row hrow
          cases j with
          | zero =>
              cases hrow
              exact hr
          | succ j => exact hall j row hrow
        · right
          refine ⟨k + 1, row, hrow, hno, fun j hj row' hrow' => ?_⟩
          cases j with
          | zero =>
              cases hrow'
              exact hr
          | succ j => exact hbefore j (Nat.lt_of_succ_lt_succ hj) row' hrow'
      · exact Or.inr ⟨0, r, rfl, hr, fun j hj => absurd hj (Nat.not_lt_zero j)⟩

theorem leavesTables_err (hseq : e'.slots.map (·.seq) = e.slots.map (·.seq)) :
    LeavesTables e (.error (.err msg), e') ↔ Kept e e' := by
  constructor
  · exact fun hl => (hl.2 msg rfl).1
  · exact fun hk => ⟨fun msg' hmsg => (nomatch hmsg), fun _ _ => ⟨hk, hk.agree hseq⟩⟩

/-- A refusal that has only been through the arena. -/
theorem leavesTables_cache :
    LeavesTables e (.error (.err msg), { e with cache })
      ↔ ∀ s, cache.seqSlot s = e.cache.seqSlot s := by
  have hseq : ({ e with cache } : BatchEngine Λ σ).slots.map (·.seq)
    = e.slots.map (·.seq) := rfl
  rw [leavesTables_err hseq]
  exact ⟨fun hk => hk.runs, fun hruns => ⟨hruns, rfl⟩⟩

/-- A table that is refused before any of its rows. -/
theorem leavesTables_shape {snap : Option SlotsSnapshot}
    (hshape : ∀ s, snap = some s → s.nSlots = e.slots.length →
      s.nCtxTotal ≠ e.nCtxTotal) :
    LeavesTables e (.error (.err msg), { e with cache })
      ↔ Whole e cache.seqSlot snap ∨ Restated e cache.seqSlot snap := by
  rw [leavesTables_cache]
  constructor
  · intro hruns
    exact Or.inr ⟨hruns, fun s hs hn hctx => absurd hctx (hshape s hs hn)⟩
  · rintro (⟨s, hs, hn, hctx, -⟩ | hr)
    · exact absurd hctx (hshape s hs hn)
    · exact hr.1

/-- A table that is refused for a row, or runs past the slots. -/
theorem leavesTables_row {exit : SlotsExit} {s : SlotsSnapshot} {k : Nat}
    (hn : s.nSlots = e.slots.length) (hctx : s.nCtxTotal = e.nCtxTotal)
    (hrow : s.slots[k]? = some row)
    (hno : ¬ RowFits e.slots cache.seqSlot k row)
    (hbefore : ∀ j < k, ∀ row, s.slots[j]? = some row →
      RowFits e.slots cache.seqSlot j row)
    (hexit : (∃ msg, exit = .err msg) ↔ k < e.slots.length)
    (hcache : e'.cache = cache) (hseq : e'.slots.map (·.seq) = e.slots.map (·.seq))
    (hslots : ∀ m, (e'.slots[m]?).map slotTable
      = if m < k then (s.slots[m]?).bind (restored cache.seqSlot)
        else (e.slots[m]?).map slotTable) :
    LeavesTables e (.error exit, e')
      ↔ Whole e cache.seqSlot (some s) ∨ Restated e cache.seqSlot (some s) := by
  have hwhole : ¬ Whole e cache.seqSlot (some s) := by
    rintro ⟨s', hs', -, -, hall⟩
    cases hs'
    exact hno (hall k row hrow)
  cases exit with
  | panic msg =>
      have hlen : ¬ k < e.slots.length := fun hlt => nomatch hexit.2 hlt
      refine iff_of_false (fun hl => hl.1 msg rfl) ?_
      rintro (hw | ⟨-, hr⟩)
      · exact hwhole hw
      -- the row it would be refused for comes before the first that does not
      -- fit
      · obtain ⟨k', row', hrow', hlt, hno', -⟩ := hr s rfl hn hctx
        exact hno' (hbefore k' (by omega) row' hrow')
  | err msg =>
      have hlt := hexit.1 ⟨msg, rfl⟩
      rw [leavesTables_err hseq]
      constructor
      · intro hk
        right
        refine ⟨fun q => ?_, fun s' hs' _ _ => ?_⟩
        · rw [← hcache]
          exact hk.runs q
        · cases hs'
          refine ⟨k, row, hrow, hlt, hno, fun j hj row' hrow' =>
            ⟨hbefore j hj row' hrow', ?_⟩⟩
          have hj' := hslots j
          rw [if_pos hj, hrow', Option.bind_some, ← List.getElem?_map,
            hk.slots, List.getElem?_map] at hj'
          exact hj'.symm
      · rintro (hw | ⟨hruns, hr⟩)
        · exact absurd hw hwhole
        obtain ⟨k', row', hrow', -, hno', hrest⟩ := hr s rfl hn hctx
        have hle : k ≤ k' :=
          Nat.not_lt.1 fun hlt' => hno' (hbefore k' hlt' row' hrow')
        refine ⟨fun q => by rw [hcache, hruns], ?_⟩
        apply List.ext_getElem?
        intro m
        rw [List.getElem?_map, List.getElem?_map, hslots m]
        split
        next hm =>
          have hmem : m < s.slots.length :=
            Nat.lt_of_lt_of_le hm (Nat.le_of_lt (List.getElem?_eq_some_iff.1 hrow).1)
          rw [List.getElem?_eq_getElem hmem, Option.bind_some]
          exact (hrest m (by omega) _ (List.getElem?_eq_getElem hmem)).2
        · rfl

/-- A refused snapshot leaves the run table and the slot table as they were,
and agreeing as they did, and no table makes the load panic, exactly when
every container that is taken carries a table that is taken too, or that
restates what is here up to the row it is refused for. -/
theorem refused_snapshot_kept_iff (env : LoadEnv Row)
    (fromStr : List Char → Option Json) (backend : Backend) (nEmbd : Nat)
    (e : BatchEngine Λ σ) (path : String) (file : List UInt8) :
    LeavesTables e (e.loadSlots env fromStr backend nEmbd path file)
      ↔ ∀ h ls body, accepted env path file ⟨backend, e.nCtxTotal, nEmbd⟩
          = some (h, ls, body) →
          Applicable env backend h e.cache ls body.state →
          let runs := fun s => (Std.TreeMap.ofList body.state.seqs)[s]?
          let snap := slotsFromJson fromStr (fromUtf8Lossy body.host)
          Whole e runs snap ∨ Restated e runs snap := by
  unfold loadSlots
  cases hacc : accepted env path file ⟨backend, e.nCtxTotal, nEmbd⟩ with
  | none =>
      obtain ⟨msg, hload⟩ := KvCache.kvLoad_refused e.cache hacc
      rw [hload]
      exact iff_of_true (leavesTables_cache.2 fun _ => rfl) fun h ls body
        hyes => nomatch hyes
  | some r =>
  obtain ⟨h, ls, body⟩ := r
  obtain ⟨htaken, hrefused⟩ := KvCache.kvLoad_spec e.cache hacc
  by_cases happ : Applicable env backend h e.cache ls body.state
  · obtain ⟨cache, hload, hseqs⟩ := htaken happ
    have hruns : cache.seqSlot = fun s =>
        (Std.TreeMap.ofList body.state.seqs)[s]? := by
      funext s
      rw [KvCache.seqSlot, hseqs]
    rw [hload]
    simp only [Option.some.injEq, Prod.mk.injEq, and_imp]
    have hone : (∀ h' ls' body', h = h' → ls = ls' → body = body' →
          Applicable env backend h' e.cache ls' body'.state →
          Whole e (fun s => (Std.TreeMap.ofList body'.state.seqs)[s]?)
              (slotsFromJson fromStr (fromUtf8Lossy body'.host))
            ∨ Restated e (fun s => (Std.TreeMap.ofList body'.state.seqs)[s]?)
              (slotsFromJson fromStr (fromUtf8Lossy body'.host)))
        ↔ Whole e cache.seqSlot (slotsFromJson fromStr (fromUtf8Lossy body.host))
          ∨ Restated e cache.seqSlot
            (slotsFromJson fromStr (fromUtf8Lossy body.host)) := by
      rw [hruns]
      constructor
      · exact fun hall => hall h ls body rfl rfl rfl happ
      · rintro hall h' ls' body' rfl rfl rfl -
        exact hall
    rw [hone]
    cases hsnap : slotsFromJson fromStr (fromUtf8Lossy body.host) with
    | none => exact leavesTables_shape fun s hs => nomatch hs
    | some s =>
    simp only
    by_cases hn : s.nSlots = e.slots.length
    · rw [if_neg (not_not.2 hn)]
      by_cases hctx : s.nCtxTotal = e.nCtxTotal
      · rw [if_neg (not_not.2 hctx)]
        obtain ⟨hall, hstop⟩ := restoreRows_spec path s.slots 0 { e with cache }
        rcases all_or_first (RowFits e.slots cache.seqSlot) s.slots with hfits |
          ⟨k, row, hrow, hno, hbefore⟩
        · obtain ⟨e', he'⟩ := hall fun j row hrow => by
            rw [Nat.zero_add]; exact hfits j row hrow
          rw [he']
          refine iff_of_true ⟨fun msg hmsg => (nomatch hmsg),
            fun msg hmsg => (nomatch hmsg)⟩ ?_
          exact Or.inl ⟨s, rfl, hn, hctx, hfits⟩
        · simp only [Nat.zero_add, Nat.zero_le, true_and, Nat.sub_zero] at hstop
          obtain ⟨exit, e', he', hexit, hcache, hseq, hslots⟩ :=
            hstop k row hrow hno hbefore
          rw [he']
          exact leavesTables_row hn hctx hrow hno hbefore hexit hcache hseq hslots
      · rw [if_pos hctx]
        apply leavesTables_shape
        intro s' hs' _
        cases hs'
        exact hctx
    · rw [if_pos hn]
      apply leavesTables_shape
      intro s' hs' hn'
      cases hs'
      exact absurd hn' hn
  · obtain ⟨msg, hload⟩ := hrefused happ
    rw [hload]
    refine iff_of_true (leavesTables_cache.2 fun s => ?_) ?_
    · exact congrArg (fun seqs : Std.TreeMap SeqId SeqSlot => seqs[s]?)
        (KvCache.foldl_touch_frame _ _ _ _ e.cache).1
    · intro h' ls' body' hsame happ'
      cases hsame
      exact absurd happ' happ

/-- A server of one slot over a two-cell arena. -/
def oneSlot : BatchEngine Unit Unit where
  cache := (KvCache.new.setNCtx 2).putSlot 1 (SeqSlot.new 0 2)
  nCtxTotal := 2
  slots := [{ seq := 1, start := 0, cap := 2, cachedTokens := [], run := none }]
  nBatch := 0
  workUnits := 0
  forwards := 0
  sends := 0
  log := []

/-- An arena whose run for the same sequence has one cell. -/
def narrowState : KvSessionState :=
  ⟨true, 2, [(1, ⟨0, 1, ⟨0, 0⟩, 1⟩)], [(1, [⟨0, 0, 1⟩])], [⟨0, 1, [1, free]⟩],
    0, 0, 0, 0⟩

/-- Its session file, without a slot table. -/
def narrowFile : List UInt8 :=
  let body := KvSession.bodyBytes
    (KvSession.pairHeader, [⟨0, [1, 2], [3, 4]⟩], narrowState, [])
  body ++ KvSession.checksum body

theorem narrowFile_accepted : ∃ body, body.state = narrowState ∧ body.host = []
    ∧ accepted (KvCache.plainLoad fun _ => (none : Row)) "s" narrowFile ⟨.cpu, 2, 1⟩
      = some (KvSession.pairHeader, [⟨0, [1, 2], [3, 4]⟩], body) := by
  have hfits : KvSession.Fits KvSession.pairHeader
      [⟨0, [1, 2], [3, 4]⟩] narrowState [] :=
    { KvSession.pairState_fits [] (by decide) with
      state := by
        constructor <;> simp [narrowState, KvSession.FitsRun,
          KvSession.FitsSpans, KvSession.FitsLayer, free]
      cells := rfl
      owner := by simp [narrowState, KvSession.pairHeader] }
  have hread := KvSession.readFile_written KvSession.pairHeader_sound hfits "s"
  exact ⟨_, rfl, rfl, KvCache.accepted_of_read hread rfl rfl rfl⟩

/-- That file is refused, and the arena's run is the file's. -/
theorem refused_snapshot_moves_run : ¬ LeavesTables oneSlot
    (oneSlot.loadSlots (KvCache.plainLoad fun _ => none)
      (fun _ => none) .cpu 1 "s" narrowFile) := by
  obtain ⟨body, hstate, hhost, hacc⟩ := narrowFile_accepted
  have happ : Applicable (KvCache.plainLoad fun _ => (none : Row)) .cpu
      KvSession.pairHeader
      oneSlot.cache [⟨0, [1, 2], [3, 4]⟩] body.state := by
    rw [hstate]
    refine ⟨?_, rfl, rfl, ?_, ?_⟩
    · intro l hl
      rcases List.mem_singleton.1 hl with rfl
      exact ⟨rfl, rfl, rfl⟩
    · intro ls hls
      rcases List.mem_singleton.1 hls with rfl
      rfl
    · intro r hr
      rcases List.mem_singleton.1 hr with rfl
      rfl
  obtain ⟨cache, hload, hseqs⟩ := (KvCache.kvLoad_spec oneSlot.cache hacc).1 happ
  unfold loadSlots
  rw [show oneSlot.nCtxTotal = 2 from rfl, hload, hhost]
  intro hleaves
  have hrun := leavesTables_cache.1 hleaves 1
  rw [KvCache.seqSlot, hseqs, hstate] at hrun
  revert hrun
  decide

end BatchEngine
end Minfer.Server
