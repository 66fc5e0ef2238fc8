/-
A session file is read back as it was written, and no other file of its
kind is accepted.

Each field is a step that reads exactly the bytes the writer puts there
(`Reads`), and no step of the reader succeeds in any other way (`Exact`).
So the reader stands at the same place as the writer field after field,
and a file that ends anywhere before its checksum does is cut inside some
step. The checksum itself is read by hand: it is the one step that looks
at what was read before.
-/
import Minfer.Graph.SessionFile

namespace Minfer.Graph

open Lib Lib.Reader
open KvSession Source

namespace KvSession

-- ============================== fields

/-- `Reads`, over the account of a source. -/
abbrev Takes {α : Type} (m : Read α) (bs : List UInt8) (a : α) : Prop :=
  Reads account m bs a

variable {what : String}
variable {n : Nat} {h : KvSessionHeader} {st : KvSessionState}
  {host : List UInt8} {layers : List SessionLayer}

theorem takes_bytes {bs : List UInt8} (h : bs.length = n) :
    Takes (Source.bytes n what) bs bs := reads_take h _

theorem takes_u32 {v : Nat} (h : v < 2 ^ 32) : Takes (Source.u32 what) (u32 v) v := by
  have hread : Takes (Source.u32 what) (u32 v) (leNat (u32 v)) :=
    (takes_bytes (length_leBytes 4 v)).map leNat
  rwa [u32, leNat_leBytes (by omega)] at hread

theorem takes_u64 {v : Nat} (h : v < 2 ^ 64) : Takes (Source.u64 what) (u64 v) v := by
  have hread : Takes (Source.u64 what) (u64 v) (leNat (u64 v)) :=
    (takes_bytes (length_leBytes 8 v)).map leNat
  rwa [u64, leNat_leBytes (by omega)] at hread

theorem exact_u32 (what : String) : Exact account (Source.u32 what) :=
  (exact_take 4 _).bind fun bs => exact_pure (leNat bs)

theorem exact_u64 (what : String) : Exact account (Source.u64 what) :=
  (exact_take 8 _).bind fun bs => exact_pure (leNat bs)

-- =============================== words

/-- The buffers of a run of words are that run. -/
theorem flatten_chunks (fuel : Nat) (ws : List Word) (h : ws.length ≤ fuel) :
    (chunks fuel ws).flatten = ws := by
  induction fuel generalizing ws with
  | zero =>
      obtain rfl := List.eq_nil_of_length_eq_zero (Nat.le_zero.1 h)
      rfl
  | succ fuel ih =>
      cases ws with
      | nil => rfl
      | cons w rest =>
          have hdrop : ((w :: rest).drop chunk).length ≤ fuel := by
            rw [List.length_drop]
            unfold chunk
            simp only [List.length_cons] at h ⊢
            omega
          rw [chunks, List.flatten_cons, ih _ hdrop, List.take_append_drop]
          exact List.cons_ne_nil w rest

/-- However the words are buffered, they are written one after the other. -/
theorem words_eq (ws : List Word) : words ws = ws.flatMap fun w => u32 w.toNat := by
  conv_rhs => rw [← flatten_chunks ws.length ws le_rfl]
  rw [words, List.flatten_eq_flatMap, List.flatMap_assoc]
  rfl

theorem length_words (ws : List Word) :
    (ws.flatMap fun w => u32 w.toNat).length = ws.length * 4 := by
  induction ws with
  | nil => rfl
  | cons w ws ih =>
      rw [List.flatMap_cons, List.length_append, ih, u32, length_leBytes,
        List.length_cons]
      omega

theorem wordsOf_words (ws : List Word) : wordsOf
    (ws.flatMap fun w => u32 w.toNat) = ws := by
  induction ws with
  | nil => rfl
  | cons w ws ih =>
      have hw : leNat (u32 w.toNat) = w.toNat :=
        leNat_leBytes (by have := w.toNat_lt; omega)
      rw [List.flatMap_cons]
      show UInt32.ofNat (leNat (u32 w.toNat))
        :: wordsOf (ws.flatMap fun w => u32 w.toNat) = w :: ws
      rw [hw, ih, UInt32.ofNat_toNat]

theorem takes_wordsLoop {fuel : Nat} {ws : List Word} (h : ws.length ≤ fuel) :
    Takes (wordsLoop what fuel ws.length) (ws.flatMap fun w => u32 w.toNat) ws := by
  induction fuel generalizing ws with
  | zero =>
      obtain rfl := List.eq_nil_of_length_eq_zero (Nat.le_zero.1 h)
      exact reads_pure []
  | succ fuel ih =>
      rw [wordsLoop]
      by_cases hnil : ws.length = 0
      · obtain rfl := List.eq_nil_of_length_eq_zero hnil
        exact reads_pure []
      · rw [if_neg hnil]
        -- one buffer, and the loop on the words that are left
        have htake : (ws.take (min ws.length chunk)).length
            = min ws.length chunk := by
          rw [List.length_take]
          omega
        have hdrop : (ws.drop (min ws.length chunk)).length
            = ws.length - min ws.length chunk :=
          List.length_drop
        have hpos : 0 < chunk := by decide
        have hfuel : (ws.drop (min ws.length chunk)).length ≤ fuel := by
          rw [hdrop]
          omega
        have hrest := ih hfuel
        rw [hdrop] at hrest
        have hbuf : Takes (Source.bytes (min ws.length chunk * 4) what) _ _ :=
          takes_bytes ((length_words _).trans (congrArg (· * 4) htake))
        have hall := hbuf.bind (f := fun b => wordsLoop what fuel _ >>= fun rest =>
          pure (wordsOf b ++ rest)) (hrest.map (wordsOf _ ++ ·))
        rw [wordsOf_words, List.take_append_drop, ← List.flatMap_append,
          List.take_append_drop] at hall
        exact hall

/-- Written words are taken back. -/
theorem takes_words {ws : List Word} (h : ws.length = n) :
    Takes (Source.words n what) (words ws) ws := by
  subst h
  rw [words_eq]
  exact takes_wordsLoop le_rfl

theorem exact_wordsLoop (fuel left : Nat) : Exact account
    (wordsLoop what fuel left) := by
  induction fuel generalizing left with
  | zero => exact exact_pure []
  | succ fuel ih =>
      rw [wordsLoop]
      split
      · exact exact_pure []
      · exact (exact_take _ _).bind fun b => (ih _).bind fun ws => exact_pure _

theorem exact_words (n : Nat) : Exact account (Source.words n what) :=
  exact_wordsLoop n n

-- ========================= bookkeeping

/-- A run that fits the file's fields. -/
def FitsRun (r : SeqId × SeqSlot) : Prop :=
  r.1 < 2 ^ 32 ∧ r.2.start < 2 ^ 32 ∧ r.2.cap < 2 ^ 32 ∧ r.2.shared.cell < 2 ^ 32
    ∧ r.2.shared.rows < 2 ^ 32 ∧ r.2.written < 2 ^ 32

/-- A span list that fits. -/
def FitsSpans (r : SeqId × List Span) : Prop :=
  r.1 < 2 ^ 32 ∧ r.2.length < 2 ^ 32
    ∧ ∀ s ∈ r.2, s.base < 2 ^ 32 ∧ s.cell < 2 ^ 32 ∧ s.len < 2 ^ 32

/-- A layer's bookkeeping that fits. -/
def FitsLayer (ls : KvLayerSession) : Prop :=
  ls.layer < 2 ^ 32 ∧ ls.nUsed < 2 ^ 32 ∧ ∀ o ∈ ls.owner, o < 2 ^ 32

/-- A bookkeeping whose counts all fit. -/
structure FitsState (st : KvSessionState) : Prop where
  seqs : st.seqs.length < 2 ^ 32
  runs : ∀ r ∈ st.seqs, FitsRun r
  spanLists : st.spans.length < 2 ^ 32
  spans : ∀ r ∈ st.spans, FitsSpans r
  layers : st.layers.length < 2 ^ 32
  layer : ∀ ls ∈ st.layers, FitsLayer ls
  defrags : st.defrags < 2 ^ 64
  cellsMoved : st.cellsMoved < 2 ^ 64
  cows : st.cows < 2 ^ 64
  cowCells : st.cowCells < 2 ^ 64

/-- A written run is taken back. -/
theorem takes_run {r : SeqId × SeqSlot} (h : FitsRun r) (i : Nat) :
    Takes (readRun i) (writeRun r) r := by
  obtain ⟨hseq, hstart, hcap, hcell, hrows, hwritten⟩ := h
  unfold writeRun readRun
  simp only [List.append_assoc]
  apply (takes_u32 hseq).bind
  apply (takes_u32 hstart).bind
  apply (takes_u32 hcap).bind
  apply (takes_u32 hcell).bind
  apply (takes_u32 hrows).bind
  exact (takes_u32 hwritten).map _

/-- A written span is taken back. -/
theorem takes_span {s : Span}
    (h : s.base < 2 ^ 32 ∧ s.cell < 2 ^ 32 ∧ s.len < 2 ^ 32) (i : Nat) :
    Takes (readSpan what i) (writeSpan s) s := by
  obtain ⟨hbase, hcell, hlen⟩ := h
  unfold writeSpan readSpan
  simp only [List.append_assoc]
  apply (takes_u32 hbase).bind
  apply (takes_u32 hcell).bind
  exact (takes_u32 hlen).map _

/-- A written span list is taken back. -/
theorem takes_spans {r : SeqId × List Span} (h : FitsSpans r) (i : Nat) :
    Takes (readSpans i) (writeSpans r) r := by
  obtain ⟨hseq, hlen, hspans⟩ := h
  unfold writeSpans readSpans
  simp only [List.append_assoc]
  apply (takes_u32 hseq).bind
  apply (takes_u32 hlen).bind
  exact (reads_times (fun s hs j => takes_span (hspans s hs) j) 0).map _

/-- A written layer's bookkeeping is taken back. -/
theorem takes_layerState {ls : KvLayerSession} (hfits : FitsLayer ls)
    (hctx : h.nCtx < 2 ^ 32) (howner : ls.owner.length = h.nCtx) (i : Nat) :
    Takes (readLayerState h i) (writeLayerState ls) ls := by
  obtain ⟨hlayer, hused, howners⟩ := hfits
  unfold writeLayerState readLayerState
  simp only [List.append_assoc]
  apply (takes_u32 hlayer).bind
  apply (takes_u32 hused).bind
  apply (takes_u32 (by omega)).bind
  apply (reads_ensure howner _).bind_nil
  exact (reads_times (fun o ho j => takes_u32 (howners o ho)) 0).map _

/-- The written state is taken back. -/
theorem takes_state
    (hfits : FitsState st) (hctx : h.nCtx < 2 ^ 32) (hst : st.nCtx = h.nCtx)
    (howner : ∀ ls ∈ st.layers, ls.owner.length = h.nCtx) :
    Takes (readState h) (writeState st) st := by
  have hflag : decide (st.identity.toNat ≠ 0) = st.identity := by
    cases st.identity <;> rfl
  have hlt := Bool.toNat_lt st.identity
  unfold writeState readState
  simp only [List.append_assoc]
  apply (takes_u32 (by omega)).bind
  apply (takes_u32 (by omega)).bind
  apply (reads_ensure hst _).bind_nil
  apply (takes_u32 hfits.seqs).bind
  apply (reads_times (fun r hr j => takes_run (hfits.runs r hr) j) 0).bind
  apply (takes_u32 hfits.spanLists).bind
  apply (reads_times (fun r hr j => takes_spans (hfits.spans r hr) j) 0).bind
  apply (takes_u32 hfits.layers).bind
  apply (reads_times
    (fun ls hls j =>
      takes_layerState (hfits.layer ls hls) hctx (howner ls hls) j) 0).bind
  apply (takes_u64 hfits.defrags).bind
  apply (takes_u64 hfits.cellsMoved).bind
  apply (takes_u64 hfits.cows).bind
  rw [hflag]
  exact (takes_u64 hfits.cowCells).map _

theorem exact_run (i : Nat) : Exact account (readRun i) := by
  unfold readRun
  exact (exact_u32 _).bind fun _ => (exact_u32 _).bind fun _ =>
      (exact_u32 _).bind fun _ =>
    (exact_u32 _).bind fun _ => (exact_u32 _).bind fun _ =>
      (exact_u32 _).bind fun _ => exact_pure _

theorem exact_span (i : Nat) : Exact account (readSpan what i) := by
  unfold readSpan
  exact (exact_u32 _).bind fun _ => (exact_u32 _).bind fun _ =>
      (exact_u32 _).bind fun _ =>
    exact_pure _

theorem exact_spans (i : Nat) : Exact account (readSpans i) := by
  unfold readSpans
  exact (exact_u32 _).bind fun _ => (exact_u32 _).bind fun _ =>
    (exact_times exact_span _ _).bind fun _ => exact_pure _

theorem exact_layerState (h : KvSessionHeader) (i : Nat) :
    Exact account (readLayerState h i) := by
  unfold readLayerState
  exact (exact_u32 _).bind fun _ => (exact_u32 _).bind fun _ =>
      (exact_u32 _).bind fun _ =>
    (exact_ensure _ _).bind fun _ =>
        (exact_times (fun _ => exact_u32 _) _ _).bind fun _ =>
      exact_pure _

theorem exact_state (h : KvSessionHeader) : Exact account (readState h) := by
  unfold readState
  exact (exact_u32 _).bind fun _ => (exact_u32 _).bind fun _ =>
      (exact_ensure _ _).bind fun _ =>
    (exact_u32 _).bind fun _ => (exact_times exact_run _ _).bind fun _ =>
    (exact_u32 _).bind fun _ => (exact_times exact_spans _ _).bind fun _ =>
    (exact_u32 _).bind fun _ => (exact_times (exact_layerState h) _ _).bind fun _ =>
    (exact_u64 _).bind fun _ => (exact_u64 _).bind fun _ =>
        (exact_u64 _).bind fun _ =>
    (exact_u64 _).bind fun _ => exact_pure _

-- =================== header and layers

/-- The shape rules a header is read under. -/
structure Sound (h : KvSessionHeader) : Prop where
  version : h.version = version
  nLayer : h.nLayer ≠ 0
  nCtx : h.nCtx ≠ 0
  nEmbd : h.nEmbd ≠ 0
  rowElems : h.rowElems ≠ 0
  width : h.rowElems = h.format.rowElems h.nEmbd

/-- A session whose counts all fit the file's fields, and whose parts have
the sizes the header gives them. -/
structure Fits (h : KvSessionHeader) (layers : List SessionLayer)
    (st : KvSessionState) (host : List UInt8) : Prop where
  nLayer : h.nLayer < 2 ^ 32
  nCtx : h.nCtx < 2 ^ 32
  nEmbd : h.nEmbd < 2 ^ 32
  rowElems : h.rowElems < 2 ^ 32
  layerWords : h.layerWords < 2 ^ 32
  host : host.length < 2 ^ 32
  state : FitsState st
  count : layers.length = h.nLayer
  layer : ∀ l ∈ layers,
    l.layer < 2 ^ 32 ∧ l.k.length = h.layerWords ∧ l.v.length = h.layerWords
  cells : st.nCtx = h.nCtx
  owner : ∀ ls ∈ st.layers, ls.owner.length = h.nCtx

/-- One layer, as `layer` writes it. -/
def layerBytes (l : SessionLayer) : List UInt8 :=
  u32 l.layer ++ u32 l.k.length ++ u32 l.v.length ++ words l.k ++ words l.v

theorem backendOfTag_index (b : Backend) : backendOfTag b.index = pure b := by
  cases b <;> rfl

/-- The flags name the format they were written for, and no other bit. -/
theorem flagsOf_spec (format : KvFormat) :
    flagsOf format < 2 ^ 32 ∧ flagsOf format &&& 0xfffffffc = 0
      ∧ ¬ ((flagsOf format).testBit 0 = true ∧ (flagsOf format).testBit 1 = true)
      ∧ formatOfFlags (flagsOf format) = format := by
  cases format <;> decide

/-- The written header is taken back. -/
theorem takes_header (hs : Sound h)
    (hl : h.nLayer < 2 ^ 32) (hc : h.nCtx < 2 ^ 32) (he : h.nEmbd < 2 ^ 32)
    (hr : h.rowElems < 2 ^ 32) (path : String) :
    Takes (openFile path) (KvSessionWriter.create h).sink h := by
  obtain ⟨hflags, hknown, hone, hformat⟩ := flagsOf_spec h.format
  have hversion : h.version < 2 ^ 32 := by
    rw [hs.version]
    decide
  have htag : h.backend.index < 2 ^ 32 := by cases h.backend <;> decide
  have hzero : ¬ (h.nLayer = 0 ∨ h.nCtx = 0 ∨ h.nEmbd = 0 ∨ h.rowElems = 0) := by
    simp only [hs.nLayer, hs.nCtx, hs.nEmbd, hs.rowElems, or_self, not_false_eq_true]
  have hwidth : h.rowElems = (formatOfFlags (flagsOf h.format)).rowElems h.nEmbd := by
    rw [hformat]
    exact hs.width
  unfold KvSessionWriter.create openFile
  simp only [List.append_assoc]
  have hmagic : Takes (Source.bytes 8 "the magic") magic magic := takes_bytes rfl
  apply hmagic.bind
  apply (reads_ensure rfl _).bind_nil
  apply (takes_u32 hversion).bind
  apply (reads_ensure hs.version _).bind_nil
  apply (takes_u32 hflags).bind
  apply (reads_ensure hknown _).bind_nil
  apply (reads_ensure hone _).bind_nil
  apply (takes_u32 htag).bind
  rw [backendOfTag_index]
  apply (reads_pure h.backend).bind_nil
  apply (takes_u32 hl).bind
  apply (takes_u32 hc).bind
  apply (takes_u32 he).bind
  simp only [hformat]
  apply (takes_u32 hr).bind_end
  apply (reads_ensure hzero _).bind_nil
  apply (reads_ensure hwidth _).bind_nil
  exact reads_pure h

theorem exact_header (path : String) : Exact account (openFile path) := by
  have htag : ∀ tag, Exact account (backendOfTag tag) := by
    intro tag
    unfold backendOfTag
    split
    · exact exact_pure _
    · exact exact_refuse _
  unfold openFile
  exact (exact_take _ _).bind fun _ => (exact_ensure _ _).bind fun _ =>
      (exact_u32 _).bind fun _ =>
    (exact_ensure _ _).bind fun _ => (exact_u32 _).bind fun _ =>
        (exact_ensure _ _).bind fun _ =>
    (exact_ensure _ _).bind fun _ => (exact_u32 _).bind fun _ =>
        (htag _).bind fun _ =>
    (exact_u32 _).bind fun _ => (exact_u32 _).bind fun _ =>
        (exact_u32 _).bind fun _ =>
    (exact_u32 _).bind fun _ => (exact_ensure _ _).bind fun _ =>
        (exact_ensure _ _).bind fun _ =>
    exact_pure _

/-- A written layer is taken back. -/
theorem takes_layer {l : SessionLayer}
    (hn : n ≠ h.nLayer) (hw : h.layerWords < 2 ^ 32)
    (hl : l.layer < 2 ^ 32 ∧ l.k.length = h.layerWords ∧ l.v.length = h.layerWords) :
    Takes (nextLayer h n) (layerBytes l) (some l) := by
  obtain ⟨hlayer, hk, hv⟩ := hl
  have hsizes : ¬ (l.k.length ≠ h.layerWords ∨ l.v.length ≠ h.layerWords) := by
    rw [hk, hv]
    simp
  unfold nextLayer layerBytes
  rw [if_neg hn]
  simp only [List.append_assoc]
  apply (takes_u32 hlayer).bind
  apply (takes_u32 (by omega)).bind
  apply (takes_u32 (by omega)).bind
  apply (reads_ensure hsizes _).bind_nil
  apply (takes_words rfl).bind
  exact (takes_words rfl).map _

theorem exact_layer (h : KvSessionHeader) (n : Nat) :
    Exact account (nextLayer h n) := by
  unfold nextLayer
  split
  · exact exact_pure _
  · exact (exact_u32 _).bind fun _ => (exact_u32 _).bind fun _ =>
        (exact_u32 _).bind fun _ =>
      (exact_ensure _ _).bind fun _ => (exact_words _).bind fun _ =>
          (exact_words _).bind fun _ =>
      exact_pure _

/-- The layers from the `n`-th on, to the last. -/
theorem takes_layers (hw : h.layerWords < 2 ^ 32) {ls : List SessionLayer}
    (hls : ∀ l ∈ ls, l.layer < 2 ^ 32 ∧ l.k.length = h.layerWords
      ∧ l.v.length = h.layerWords) {fuel : Nat} (hn : n + ls.length = h.nLayer)
    (hfuel : ls.length < fuel) :
    Takes (restLayers h fuel n) (ls.flatMap layerBytes) (ls, h.nLayer) := by
  induction ls generalizing n fuel with
  | nil =>
      obtain ⟨fuel, rfl⟩ := Nat.exists_eq_succ_of_ne_zero (Nat.ne_of_gt hfuel)
      have hend : n = h.nLayer := hn
      subst hend
      rw [restLayers, nextLayer, if_pos rfl]
      exact (reads_pure _).bind_nil (reads_pure _)
  | cons l ls ih =>
      obtain ⟨fuel, rfl⟩ :=
        Nat.exists_eq_succ_of_ne_zero (Nat.ne_of_gt (Nat.zero_lt_of_lt hfuel))
      rw [List.length_cons] at hn hfuel
      rw [restLayers, List.flatMap_cons]
      apply (takes_layer (by omega) hw (hls l List.mem_cons_self)).bind
      exact (ih (fun m hm => hls m (List.mem_cons_of_mem _ hm)) (by omega)
        (by omega)).map
        fun r => (l :: r.1, r.2)

theorem exact_layers (h : KvSessionHeader) (fuel n : Nat) :
    Exact account (restLayers h fuel n) := by
  induction fuel generalizing n with
  | zero => exact exact_pure _
  | succ fuel ih =>
      rw [restLayers]
      refine (exact_layer h n).bind fun l => ?_
      cases l with
      | none => exact exact_pure _
      | some l => exact (ih (n + 1)).bind fun r => exact_pure _

-- ============================ the file

/-- What is read before the checksum. -/
abbrev Content := KvSessionHeader × List SessionLayer × KvSessionState × List UInt8

/-- The reader, up to the checksum. -/
def body (path : String) : Read Content := do
  let h ← openFile path
  let (ls, n) ← restLayers h (h.nLayer + 1) 0
  Reader.ensure (n = h.nLayer)
    (s!"KV session: the header declares {h.nLayer} layers, " ++
      s!"the file holds {n}")
  let st ← readState h
  let len ← Source.u32 "the host-state length"
  let host ← Source.bytes len "the host state"
  return (h, ls, st, host)

/-- What a content and its size in bytes are, reported. -/
def Content.report (c : Content) (bytes : Nat) : KvSessionReport where
  layers := c.1.nLayer
  cells := c.1.nCtx
  bytes := bytes
  written := c.2.2.1.written

/-- The bytes of a session, up to the checksum. -/
def bodyBytes (c : Content) : List UInt8 :=
  (KvSessionWriter.create c.1).sink ++ (c.2.1.flatMap layerBytes
    ++ (writeState c.2.2.1 ++ (u32 c.2.2.2.length ++ c.2.2.2)))

/-- A file is its body and its checksum. -/
theorem readFile_eq (path : String) (file : List UInt8) : readFile path file
    = match body path (Source.new file) with
      | .error e => .error e
      | .ok (c, s) =>
        match Source.finish s "the bookkeeping" with
        | .error e => .error e
        | .ok n => .ok (c.1, c.2.1, ⟨c.2.2.1, c.2.2.2, c.report n⟩) := by
  unfold readFile body
  simp only [bind_apply]
  cases openFile path (Source.new file) with
  | error e => rfl
  | ok r =>
  obtain ⟨h, s⟩ := r
  simp only [bind, Except.bind]
  cases restLayers h (h.nLayer + 1) 0 s with
  | error e => rfl
  | ok r =>
  obtain ⟨⟨ls, n⟩, s⟩ := r
  simp only [pure_apply, finish, StateT.bind, bind, Except.bind]
  by_cases hn : n = h.nLayer
  · subst hn
    simp only [ne_eq, not_true_eq_false, if_false, ensure, if_true, pure_apply]
    cases readState h s with
    | error e => rfl
    | ok r =>
    obtain ⟨st, s⟩ := r
    simp only
    cases Source.u32 "the host-state length" s with
    | error e => rfl
    | ok r =>
    obtain ⟨len, s⟩ := r
    simp only
    cases Source.bytes len "the host state" s with
    | error e => rfl
    | ok r =>
    obtain ⟨host, s⟩ := r
    simp only
    cases Source.finish s "the bookkeeping" with
    | error e => rfl
    | ok n => rfl
  · simp only [ne_eq, hn, not_false_eq_true, if_true, ensure, if_false, refuse]

/-- The written file is taken back, all but its check sum. -/
theorem takes_body (hs : Sound h)
    (hf : Fits h layers st host) (path : String) :
    Takes (body path) (bodyBytes (h, layers, st, host)) (h, layers, st, host) := by
  unfold body bodyBytes
  apply (takes_header hs hf.nLayer hf.nCtx hf.nEmbd hf.rowElems path).bind
  have hlen : 0 + layers.length = h.nLayer := by rw [hf.count, Nat.zero_add]
  apply (takes_layers hf.layerWords hf.layer hlen (by have := hf.count; omega)).bind
  apply (reads_ensure rfl _).bind_nil
  apply (takes_state hf.state hf.nCtx hf.cells hf.owner).bind
  apply (takes_u32 hf.host).bind
  exact (takes_bytes rfl).map _

/-- What the body returns is read off the bytes it takes. -/
theorem exact_body (path : String) : Exact account (body path) := by
  unfold body
  exact (exact_header path).bind fun h => (exact_layers h _ _).bind fun r =>
    (exact_ensure _ _).bind fun _ => (exact_state h).bind fun _ =>
        (exact_u32 _).bind fun _ =>
    (exact_take _ _).bind fun _ => exact_pure _

/-- What a source knows after a run of bytes. -/
theorem foldl_account (bs : List UInt8) (acc : UInt64 × Nat) :
    bs.foldl account acc = (hashBytes acc.1 bs, acc.2 + bs.length) := by
  induction bs generalizing acc with
  | nil => rfl
  | cons b bs ih =>
      rw [List.foldl_cons, ih, account, hashBytes, hashBytes, List.foldl_cons,
        List.length_cons]
      simp only [Nat.add_assoc, Nat.add_comm 1]

/-- The checksum of a body. -/
def checksum (bs : List UInt8) : List UInt8 := u64 (hashBytes fnvOffset bs).toNat

/-- What follows a body that was read decides about the file. -/
theorem finish_spec (bs rest : List UInt8) (what : String) :
    (rest = checksum bs →
      Source.finish ⟨rest, bs.foldl account (fnvOffset, 0)⟩ what
        = .ok (bs.length + 8))
    ∧ (rest ≠ checksum bs →
      ∃ e, Source.finish ⟨rest, bs.foldl account (fnvOffset, 0)⟩ what
        = .error e) := by
  have hacc : bs.foldl account (fnvOffset, 0)
      = (hashBytes fnvOffset bs, bs.length) := by
    rw [foldl_account, Nat.zero_add]
  have hsum : leNat (checksum bs) = (hashBytes fnvOffset bs).toNat :=
    leNat_leBytes (by have := (hashBytes fnvOffset bs).toNat_lt; omega)
  have hlen : (checksum bs).length = 8 := length_leBytes 8 _
  unfold Source.finish
  simp only [hacc]
  constructor
  · intro hrest
    subst hrest
    rw [if_neg (by omega), List.take_of_length_le (by omega), if_neg (by simp [hsum]),
      if_pos hlen]
  · intro hrest
    by_cases hshort : rest.length < 8
    · exact ⟨_, if_pos hshort⟩
    rw [if_neg hshort]
    by_cases hgot : leNat (rest.take 8) ≠ (hashBytes fnvOffset bs).toNat
    · exact ⟨_, if_pos hgot⟩
    rw [if_neg hgot]
    by_cases hend : rest.length = 8
    · -- eight bytes that stand for the checksum are the checksum
      rw [List.take_of_length_le (by omega), not_not] at hgot
      have hbytes := leBytes_leNat rest
      rw [hend, hgot] at hbytes
      exact absurd hbytes.symm hrest
    · exact ⟨_, if_neg hend⟩

/-- The layers are appended one after another. -/
theorem foldlM_layer
    (hls : ∀ l ∈ layers, l.k.length = h.layerWords ∧ l.v.length = h.layerWords)
    (w : KvSessionWriter) (hw : w.header = h)
    (hn : w.layers + layers.length ≤ h.nLayer) :
    layers.foldlM KvSessionWriter.layer w
      = .ok { w with sink := w.sink ++ layers.flatMap layerBytes
                     layers := w.layers + layers.length } := by
  subst hw
  induction layers generalizing w with
  | nil => simp only [List.foldlM_nil, List.flatMap_nil, List.append_nil,
      List.length_nil]; rfl
  | cons l layers ih =>
      obtain ⟨hk, hv⟩ := hls l List.mem_cons_self
      rw [List.length_cons] at hn
      have hstep : w.layer l
          = .ok { w with sink := w.sink ++ layerBytes l, layers :=
            w.layers + 1 } := by
        unfold KvSessionWriter.layer
        rw [if_neg (by simp [hk, hv]), if_neg (by omega)]
        rfl
      have hrest :=
        ih { w with sink := w.sink ++ layerBytes l, layers := w.layers + 1 }
        (fun m hm => hls m (List.mem_cons_of_mem _ hm))
        (by show w.layers + 1 + layers.length ≤ w.header.nLayer; omega)
      rw [List.foldlM_cons, hstep]
      simp only [List.append_assoc, Nat.add_assoc, Nat.add_comm 1] at hrest
      simp only [List.flatMap_cons, List.length_cons]
      exact hrest

/-- What is written. -/
theorem writeSession_eq (hf : Fits h layers st host) :
    writeSession h layers st host
      = .ok (bodyBytes (h, layers, st, host)
          ++ checksum (bodyBytes (h, layers, st, host)),
          Content.report (h, layers, st, host)
            ((bodyBytes (h, layers, st, host)).length + 8)) := by
  have hls : ∀ l ∈ layers, l.k.length = h.layerWords ∧ l.v.length = h.layerWords :=
    fun l hl => (hf.layer l hl).2
  have hw := foldlM_layer hls ((KvSessionWriter.create h).setHost host) rfl
    (by show 0 + layers.length ≤ _; have := hf.count; omega)
  unfold writeSession
  rw [hw]
  show KvSessionWriter.finish _ st = _
  unfold KvSessionWriter.finish
  have hcount : (KvSessionWriter.create h).layers + layers.length
      = (KvSessionWriter.create h).header.nLayer := (Nat.zero_add _).trans hf.count
  have hcells : st.nCtx = (KvSessionWriter.create h).header.nCtx := hf.cells
  simp only [KvSessionWriter.setHost, hcount, hcells, ne_eq, not_true_eq_false,
    if_false, bodyBytes, checksum, List.append_assoc]
  rfl

/-- A file that starts with a body is a verdict on what follows it. -/
theorem verify_body (hs : Sound h)
    (hf : Fits h layers st host) (path : String) (rest : List UInt8)
    (hrest : rest ≠ checksum (bodyBytes (h, layers, st, host))) :
    ∃ e, verify path (bodyBytes (h, layers, st, host) ++ rest) = .error e := by
  have hbody := takes_body hs hf path rest (fnvOffset, 0)
  obtain ⟨e, he⟩ :=
    (finish_spec (bodyBytes (h, layers, st, host)) rest "the bookkeeping").2
    hrest
  refine ⟨e, ?_⟩
  rw [verify, readFile_eq, Source.new, hbody]
  simp only [he]
  rfl

/-- What is written is read back. -/
theorem readFile_written (hs : Sound h)
    (hf : Fits h layers st host) (path : String) :
    readFile path
      (bodyBytes (h, layers, st, host)
        ++ checksum (bodyBytes (h, layers, st, host)))
      = .ok (h, layers, ⟨st, host, Content.report (h, layers, st, host)
          ((bodyBytes (h, layers, st, host)).length + 8)⟩) := by
  have hbody :=
    takes_body hs hf path (checksum (bodyBytes (h, layers, st, host)))
    (fnvOffset, 0)
  rw [readFile_eq, Source.new, hbody]
  simp only [(finish_spec (bodyBytes (h, layers, st, host)) _
    "the bookkeeping").1 rfl]

/-- A session file is read back as the header, layers, bookkeeping and host
state it was written from, with the writer's own report; `verify` accepts
it, no file that stops earlier, and none that goes on. -/
theorem session_file_exact (hs : Sound h)
    (hf : Fits h layers st host) (path : String) :
    ∃ file report, writeSession h layers st host = .ok (file, report)
      ∧ readFile path file = .ok (h, layers, ⟨st, host, report⟩)
      ∧ verify path file = .ok h
      ∧ (∀ front back, file = front ++ back → back ≠ [] →
        ∃ e, verify path front = .error e)
      ∧ ∀ extra, extra ≠ [] → ∃ e, verify path (file ++ extra) = .error e := by
  have hread := readFile_written hs hf path
  have hrefused := verify_body hs hf path
  refine ⟨_, _, writeSession_eq hf, hread, by rw [verify, hread]; rfl, ?_, ?_⟩
  · intro front back hcut hback
    -- the file is cut inside the body, or inside the checksum
    rcases List.append_eq_append_iff.1 hcut with ⟨rest, hfront, hsum⟩
      | ⟨rest, hbody, -⟩
    · rw [hfront]
      apply hrefused
      intro hrest
      rw [← hrest] at hsum
      exact hback (List.self_eq_append_right.1 hsum)
    · by_cases hne : rest = []
      · subst hne
        rw [List.append_nil] at hbody
        have hnil : ([] : List UInt8) ≠ checksum front := fun h =>
          absurd (congrArg List.length h)
            (by rw [checksum, u64, length_leBytes]; decide)
        rw [← hbody] at hnil ⊢
        have hnone := hrefused [] hnil
        rwa [List.append_nil] at hnone
      have hall : Takes (body path) (front ++ rest) (h, layers, st, host) := by
        rw [← hbody]
        exact takes_body hs hf path
      obtain ⟨e, he⟩ := hall.short (exact_body path) hne (fnvOffset, 0)
      exact ⟨e, by rw [verify, readFile_eq, Source.new, he]; rfl⟩
  · intro extra hextra
    rw [List.append_assoc]
    apply hrefused
    intro hrest
    exact hextra (List.append_right_eq_self.1 hrest)

/-- An arena of one layer and two cells, on the CPU. -/
def pairHeader : KvSessionHeader := ⟨2, .f32, .cpu, 1, 2, 1, 1⟩

/-- One run over both cells, one of them written. -/
def pairState : KvSessionState :=
  ⟨true, 2, [(1, ⟨0, 2, ⟨0, 0⟩, 1⟩)], [(1, [⟨0, 0, 2⟩])], [⟨0, 1, [1, free]⟩],
    0, 0, 0, 0⟩

theorem pairHeader_sound : Sound pairHeader := by constructor <;> decide

theorem pairState_fits (host : List UInt8) (hhost : host.length < 2 ^ 32) :
    Fits pairHeader [⟨0, [1, 2], [3, 4]⟩] pairState host where
  nLayer := by decide
  nCtx := by decide
  nEmbd := by decide
  rowElems := by decide
  layerWords := by decide
  host := hhost
  state := by constructor <;> simp [pairState, FitsRun, FitsSpans, FitsLayer, free]
  count := rfl
  layer := by simp [pairHeader, KvSessionHeader.layerWords]
  cells := rfl
  owner := by simp [pairState, pairHeader]

/-- A file with a written cell and three bytes of host state. -/
theorem session_file_exact_pair :
    ∃ file report,
      writeSession pairHeader [⟨0, [1, 2], [3, 4]⟩] pairState [7, 8, 9]
      = .ok (file, report)
      ∧ readFile "s" file
        = .ok (pairHeader, [⟨0, [1, 2], [3, 4]⟩],
          ⟨pairState, [7, 8, 9], report⟩)
      ∧ verify "s" file = .ok pairHeader
      ∧ (∀ front back, file = front ++ back → back ≠ [] →
        ∃ e, verify "s" front = .error e)
      ∧ ∀ extra, extra ≠ [] → ∃ e, verify "s" (file ++ extra) = .error e :=
  session_file_exact pairHeader_sound (pairState_fits [7, 8, 9] (by decide)) "s"

end KvSession
end Minfer.Graph
