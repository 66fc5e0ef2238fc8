/-
What a load that is refused leaves in the arena.

The file is read twice, and the second reading finds what the first found:
so a load is a verdict on the file alone (`accepted`), then the pass over
its layers (`applyAll`), then the bookkeeping (`kvLoad_eq`). Up to the pass
nothing has changed, and the bookkeeping is put back whole or not at all.

The pass is a run of writes (`writes`) that ends at the first layer the
arena or its backend refuses, or at the end of the file; and it comes to
nothing only if every region it reached was there and holds what was last
written into it. `session_load_refused_iff` puts the three together.
-/
import Minfer.Graph.SessionLoad
import Minfer.Graph.Proofs.SessionFile

namespace Minfer.Graph

open Lib (bind_eq_ok forM_eq_ok forM_of_ok)
open KvSession (Source openFile nextLayer restLayers readFile verify)

variable {ρ : Type}

namespace KvCache

variable {env : LoadEnv ρ} {backend : Backend} {h : KvSessionHeader} {c : KvCache ρ}

-- ==================== the two readings

/-- The applying pass, over layers that are there. -/
def applyAll (env : LoadEnv ρ) (backend : Backend) (h : KvSessionHeader) :
    KvCache ρ → List SessionLayer → Except String Unit × KvCache ρ
  | c, [] => (.ok (), c)
  | c, l :: ls =>
      match c.applyLayer env backend h l with
      | (.error e, c) => (.error e, c)
      | (.ok (), c) => applyAll env backend h c ls

/-- What a load checks before it applies anything. -/
def accepted (env : LoadEnv ρ) (path : String) (file : List UInt8)
    (expect : KvSessionExpect) :
    Option (KvSessionHeader × List SessionLayer × KvSessionBody) :=
  if (env.offload.filter OffloadPlan.isMixed).isSome then none
  else
    match readFile path file with
    | .error _ => none
    | .ok (h, ls, body) =>
        match checkHeader env expect h, enablePool env expect.backend with
        | .ok (), .ok () => some (h, ls, body)
        | _, _ => none

variable {body : KvSessionBody} {expect : KvSessionExpect} {file : List UInt8}
  {ls : List SessionLayer} {path : String} {c' : KvCache ρ} {i : Nat}

theorem accepted_of_read (hread : readFile path file = .ok (h, ls, body))
    (hmix : env.offload.filter OffloadPlan.isMixed = none)
    (hcheck : checkHeader env expect h = .ok ())
    (hpool : enablePool env expect.backend = .ok ()) :
    accepted env path file expect = some (h, ls, body) := by
  simp only [accepted, hmix, hread, hcheck, hpool, Option.isSome_none,
    Bool.false_eq_true, if_false]

/-- The layers a reader yields are those it counts. -/
theorem length_restLayers {fuel n m : Nat} {s s' : Source}
    (hrest : restLayers h fuel n s = .ok ((ls, m), s')) : m = n + ls.length := by
  induction fuel generalizing n s ls with
  | zero =>
      cases hrest
      rfl
  | succ fuel ih =>
      rw [restLayers, Lib.Reader.bind_apply] at hrest
      obtain ⟨⟨l, s₁⟩, -, hrest⟩ := bind_eq_ok.1 hrest
      cases l with
      | none =>
          cases hrest
          rfl
      | some l =>
          obtain ⟨⟨⟨ls', m'⟩, s₂⟩, hls, hend⟩ := bind_eq_ok.1 hrest
          cases hend
          rw [ih hls, List.length_cons, Nat.add_assoc, Nat.add_comm 1]

/-- The layers are applied as they are read. -/
theorem applyLayers_eq {fuel n m : Nat} {s s' : Source}
    (hrest : restLayers h fuel n s = .ok ((ls, m), s')) (c : KvCache ρ) :
    c.applyLayers env backend h fuel n s
      = match c.applyAll env backend h ls with
        | (.error e, c) => (.error e, c)
        | (.ok (), c) => (.ok (m, s'), c) := by
  induction fuel generalizing n s ls c with
  | zero =>
      cases hrest
      rfl
  | succ fuel ih =>
      rw [restLayers, Lib.Reader.bind_apply] at hrest
      obtain ⟨⟨l, s₁⟩, hl, hrest⟩ := bind_eq_ok.1 hrest
      rw [applyLayers, hl]
      cases l with
      | none =>
          cases hrest
          rfl
      | some l =>
          obtain ⟨⟨⟨ls', m'⟩, s₂⟩, hls, hend⟩ := bind_eq_ok.1 hrest
          cases hend
          simp only [applyAll]
          cases hres : c.applyLayer env backend h l with
          | mk r c₁ =>
              cases r with
              | error e => rfl
              | ok u => exact ih hls c₁

/-- What the two readings have in common. -/
theorem readFile_steps (hread : readFile path file = .ok (h, ls, body)) :
    ∃ s s', openFile path (Source.new file) = .ok (h, s)
      ∧ restLayers h (h.nLayer + 1) 0 s = .ok ((ls, ls.length), s')
      ∧ KvSession.finish h ls.length s' = .ok body := by
  unfold readFile at hread
  simp only [Lib.Reader.bind_apply] at hread
  cases hopen : openFile path (Source.new file) with
  | error e =>
      rw [hopen] at hread
      cases hread
  | ok r =>
  obtain ⟨h', s⟩ := r
  rw [hopen] at hread
  simp only [bind, Except.bind] at hread
  cases hrest : restLayers h' (h'.nLayer + 1) 0 s with
  | error e =>
      rw [hrest] at hread
      cases hread
  | ok r =>
  obtain ⟨⟨ls', n⟩, s'⟩ := r
  rw [hrest] at hread
  simp only [Lib.Reader.pure_apply] at hread
  cases hfinish : KvSession.finish h' n s' with
  | error e =>
      rw [hfinish] at hread
      cases hread
  | ok body' =>
  rw [hfinish] at hread
  cases hread
  have hn := length_restLayers hrest
  rw [Nat.zero_add] at hn
  subst hn
  exact ⟨s, s', rfl, hrest, hfinish⟩

/-- A file that is not accepted is refused before anything is applied. -/
theorem kvLoad_refused (c : KvCache ρ)
    (hno : accepted env path file expect = none) :
    ∃ e, c.kvLoadWithHost env path file expect = (.error e, c) := by
  unfold accepted at hno
  unfold kvLoadWithHost
  cases hmix : env.offload.filter OffloadPlan.isMixed with
  | some p => exact ⟨_, rfl⟩
  | none =>
  rw [hmix] at hno
  simp only [Option.isSome_none, Bool.false_eq_true, if_false] at hno
  cases hread : readFile path file with
  | error e =>
      simp only [verify, hread, Except.map]
      exact ⟨e, rfl⟩
  | ok r =>
  obtain ⟨h, ls, body⟩ := r
  obtain ⟨s, s', hopen, -, -⟩ := readFile_steps hread
  rw [hread] at hno
  simp only [verify, hread, Except.map, hopen]
  cases hcheck : checkHeader env expect h with
  | error e => exact ⟨e, rfl⟩
  | ok u =>
  cases hpool : enablePool env expect.backend with
  | error e => exact ⟨e, rfl⟩
  | ok u =>
      simp only [hcheck, hpool] at hno
      cases hno

/-- A file that is accepted goes through the pass, and the bookkeeping is
put back. -/
theorem kvLoad_accepted (c : KvCache ρ)
    (hyes : accepted env path file expect = some (h, ls, body)) :
    c.kvLoadWithHost env path file expect
      = match c.applyAll env expect.backend h ls with
        | (.error e, c) => (.error e, c)
        | (.ok (), c) =>
            if body.state.layers.length ≠ ls.length then
              (.error (s!"KV session: {ls.length} layers were read but the " ++
                  s!"bookkeeping describes {body.state.layers.length}"), c)
            else
              match c.restoreSession body.state with
              | .error e => (.error e, c)
              | .ok c => (.ok (body.host, body.report), c) := by
  unfold accepted at hyes
  unfold kvLoadWithHost
  cases hmix : env.offload.filter OffloadPlan.isMixed with
  | some p =>
      rw [hmix] at hyes
      cases hyes
  | none =>
  rw [hmix] at hyes
  simp only [Option.isSome_none, Bool.false_eq_true, if_false] at hyes
  cases hread : readFile path file with
  | error e =>
      rw [hread] at hyes
      cases hyes
  | ok r =>
  obtain ⟨h', ls', body'⟩ := r
  obtain ⟨s, s', hopen, hrest, hfinish⟩ := readFile_steps hread
  rw [hread] at hyes
  cases hcheck : checkHeader env expect h' with
  | error e =>
      simp only [hcheck] at hyes
      cases hyes
  | ok u =>
  cases hpool : enablePool env expect.backend with
  | error e =>
      simp only [hcheck, hpool] at hyes
      cases hyes
  | ok u =>
      simp only [hcheck, hpool] at hyes
      cases hyes
      simp only [verify, hread, Except.map, hcheck, hopen, applyLayers_eq hrest]
      cases hres : c.applyAll env expect.backend h ls with
      | mk r c₁ =>
          cases r with
          | error e => rfl
          | ok u =>
              cases hrestore : c₁.restoreSession body.state with
              | error e => simp only [hfinish, hrestore]
              | ok c => simp only [hfinish, hrestore]

-- ============================ the pass

/-- The arena has, or can have, a layer's regions as the file describes them. -/

def Fits (env : LoadEnv ρ) (backend : Backend) (h : KvSessionHeader)
    (c : KvCache ρ) (l : SessionLayer) : Prop :=
  c.checkKv env l.layer backend h.nEmbd h.rowElems h.nCtx = .ok ()

/-- The backend takes both of a layer's writes. -/
def Writable (env : LoadEnv ρ) (l : SessionLayer) : Prop :=
  env.writeErr l.layer false = none ∧ env.writeErr l.layer true = none

/-- One thing the pass does to a layer: its regions are made sure of, or one
of them is written. -/
abbrev Touch := Nat × Option (Bool × List Word)

/-- What one touch does to the layers. -/
def touch (env : LoadEnv ρ) (backend : Backend) (h : KvSessionHeader)
    (c : KvCache ρ) :
    Touch → KvCache ρ
  | (layer, none) => c.addKv env layer backend h.nEmbd h.rowElems h.nCtx
  | (layer, some (isV, words)) =>
      match c.layers[layer]? with
      | some l => { c with
          layers := c.layers.insert layer (l.withRows isV (l.rowsOf env.row words)) }
      | none => c

/-- The touches of the pass, up to the first refusal. -/
def touches (env : LoadEnv ρ) (backend : Backend) (h : KvSessionHeader)
    (c : KvCache ρ) :
    List SessionLayer → List Touch
  | [] => []
  | l :: ls =>
      match c.checkKv env l.layer backend h.nEmbd h.rowElems h.nCtx,
        env.writeErr l.layer false,
        env.writeErr l.layer true with
      | .error _, _, _ => []
      | .ok (), some _, _ => [(l.layer, none)]
      | .ok (), none, some _ => [(l.layer, none), (l.layer, some (false, l.k))]
      | .ok (), none, none =>
          (l.layer, none) :: (l.layer, some (false, l.k))
            :: (l.layer, some (true, l.v))
            :: touches env backend h c ls

theorem region_withRows (l : KvLayer ρ) (isV : Bool) (rows : List ρ) :
    (l.withRows isV rows).region = l.region := by cases isV <;> rfl

theorem checkKv_congr {nEmbd rowElems nCtx : Nat}
    (hsame : (c'.layers[i]?).map KvLayer.region = (c.layers[i]?).map KvLayer.region) :
    c'.checkKv env i backend nEmbd rowElems nCtx
      = c.checkKv env i backend nEmbd rowElems nCtx := by
  unfold checkKv
  cases h₁ : c'.layers[i]? with
  | none =>
      cases h₂ : c.layers[i]? with
      | none => rfl
      | some l => simp [h₁, h₂] at hsame
  | some l' =>
      cases h₂ : c.layers[i]? with
      | none => simp [h₁, h₂] at hsame
      | some l =>
          have hregion : l'.region = l.region := by simpa [h₁, h₂] using hsame
          simp only [hregion]

/-- Regions the arena had or was given fit the layers that fit before. -/
theorem checkKv_addKv {layer nEmbd rowElems nCtx : Nat} :
    (c.addKv env layer backend nEmbd rowElems nCtx).checkKv env i backend nEmbd
      rowElems nCtx
      = c.checkKv env i backend nEmbd rowElems nCtx := by
  unfold addKv
  by_cases hhas : c.layers.contains layer = true
  · rw [if_pos hhas]
  rw [if_neg hhas]
  by_cases hi : layer = i
  · subst hi
    have hnone : c.layers[layer]? = none := by
      rw [Std.TreeMap.contains_eq_isSome_getElem?] at hhas
      exact Option.not_isSome_iff_eq_none.1 hhas
    unfold checkKv
    rw [hnone]
    have hnew : (c.insert layer backend (env.fresh nCtx)
        (env.fresh nCtx) nEmbd rowElems nCtx
        (decide (rowElems ≠ nEmbd))).layers[layer]?
        = some ⟨backend, env.fresh nCtx, env.fresh nCtx, rowElems * nCtx, nCtx,
          nEmbd, decide (rowElems ≠ nEmbd), List.replicate nCtx free, 0⟩ :=
      Std.TreeMap.getElem?_insert_self
    rw [hnew]
    simp only [GraphAllocator.checkRegion, KvLayer.region, BufRef.own, ne_eq,
      not_true_eq_false, if_false]
  · apply checkKv_congr
    simp only [insert, Std.TreeMap.getElem?_insert, compare_eq_iff_eq, hi, if_false]

theorem checkKv_touch (t : Touch) (i : Nat) :
    (c.touch env backend h t).checkKv env i backend h.nEmbd h.rowElems h.nCtx
      = c.checkKv env i backend h.nEmbd h.rowElems h.nCtx := by
  obtain ⟨layer, t⟩ := t
  cases t with
  | none => exact checkKv_addKv
  | some w =>
      obtain ⟨isV, words⟩ := w
      simp only [touch]
      cases hl : c.layers[layer]? with
      | none => rfl
      | some l =>
          apply checkKv_congr
          simp only [Std.TreeMap.getElem?_insert, compare_eq_iff_eq]
          by_cases hi : layer = i
          · subst hi
            simp [hl, region_withRows]
          · simp [hi]

theorem touches_touch (t : Touch) (ls : List SessionLayer) :
    touches env backend h (c.touch env backend h t) ls
      = touches env backend h c ls := by
  induction ls with
  | nil => rfl
  | cons l ls ih => simp only [touches, checkKv_touch, ih]

theorem ensureKv_eq (layer : Nat) :
    c.ensureKv env layer backend h.nEmbd h.rowElems h.nCtx
    = match c.checkKv env layer backend h.nEmbd h.rowElems h.nCtx with
      | .error e => .error e
      | .ok () => .ok (c.touch env backend h (layer, none)) := rfl

variable (backend h) in
theorem writePool_eq (layer : Nat) (isV : Bool) (words : List Word) :
    c.writePool env layer isV words
      = match env.writeErr layer isV with
        | some e => (.error e, c)
        | none => (.ok (), c.touch env backend h (layer, some (isV, words))) := by
  unfold writePool
  simp only [touch]
  cases env.writeErr layer isV with
  | some e => rfl
  | none =>
      cases c.layers[layer]? with
      | none => rfl
      | some l => rfl

variable (env backend h) in
/-- The pass makes its touches, and no other; it ends well if the arena and
its backend take every layer. -/
theorem applyAll_spec (ls : List SessionLayer) (c : KvCache ρ) :
    (c.applyAll env backend h ls).2
        = (touches env backend h c ls).foldl (touch env backend h) c
      ∧ ((c.applyAll env backend h ls).1 = .ok ()
          ↔ ∀ l ∈ ls, Fits env backend h c l ∧ Writable env l) := by
  induction ls generalizing c with
  | nil => exact ⟨rfl, iff_of_true rfl (by simp)⟩
  | cons l ls ih =>
      unfold applyAll applyLayer touches
      rw [ensureKv_eq]
      cases hcheck : c.checkKv env l.layer backend h.nEmbd h.rowElems h.nCtx with
      | error e =>
          refine ⟨rfl, iff_of_false (by simp) fun hall => ?_⟩
          have hfits := (hall l List.mem_cons_self).1
          rw [Fits, hcheck] at hfits
          cases hfits
      | ok u =>
      simp only [writePool_eq backend h]
      cases hk : env.writeErr l.layer false with
      | some e =>
          refine ⟨rfl, iff_of_false (by simp) fun hall => ?_⟩
          have hwrite := (hall l List.mem_cons_self).2.1
          rw [hk] at hwrite
          cases hwrite
      | none =>
      cases hv : env.writeErr l.layer true with
      | some e =>
          refine ⟨rfl, iff_of_false (by simp) fun hall => ?_⟩
          have hwrite := (hall l List.mem_cons_self).2.2
          rw [hv] at hwrite
          cases hwrite
      | none =>
          obtain ⟨hleft, hok⟩ :=
            ih (((c.touch env backend h (l.layer, none)).touch env backend h
            (l.layer, some (false, l.k))).touch env backend h
              (l.layer, some (true, l.v)))
          simp only [touches_touch, Fits, checkKv_touch] at hleft hok
          refine ⟨hleft, hok.trans ?_⟩
          simp only [List.forall_mem_cons]
          exact ⟨fun hall => ⟨⟨hcheck, hk, hv⟩, hall⟩, fun hall => hall.2⟩

variable (env backend h) in
/-- What a pass over the regions leaves of everything else. -/
theorem touch_frame (t : Touch) : (c.touch env backend h t).seqs = c.seqs
    ∧ (c.touch env backend h t).spans = c.spans := by
  obtain ⟨layer, t⟩ := t
  cases t with
  | none =>
      simp only [touch, addKv]
      constructor <;> split <;> rfl
  | some w =>
      simp only [touch]
      constructor <;> split <;> rfl

variable (env backend h) in
theorem foldl_touch_frame (ts : List Touch) (c : KvCache ρ) :
    (ts.foldl (touch env backend h) c).seqs = c.seqs
      ∧ (ts.foldl (touch env backend h) c).spans = c.spans := by
  induction ts generalizing c with
  | nil => exact ⟨rfl, rfl⟩
  | cons t ts ih =>
      obtain ⟨hseqs, hspans⟩ := ih (c.touch env backend h t)
      obtain ⟨hseqs', hspans'⟩ := touch_frame env backend h t
      exact ⟨hseqs.trans hseqs', hspans.trans hspans'⟩

-- ===================== what it came to

/-- The words last written into a region. -/
def lastWrite : List Touch → Nat → Bool → Option (List Word)
  | [], _, _ => none
  | (_, none) :: ts, i, isV => lastWrite ts i isV
  | (layer, some (isV', words)) :: ts, i, isV =>
      (lastWrite ts i isV).or (if layer = i ∧ isV' = isV then some words else none)

/-- One of a layer's regions. -/
def rows (l : KvLayer ρ) (isV : Bool) : List ρ := if isV then l.v else l.k

/-- A layer after a run of touches. -/
def layerAfter (row : List Word → ρ) (ts : List Touch) (i : Nat)
    (l : KvLayer ρ) : KvLayer ρ :=
  { l with
    k := ((lastWrite ts i false).map (l.rowsOf row)).getD l.k
    v := ((lastWrite ts i true).map (l.rowsOf row)).getD l.v }

theorem layerAfter_nil (row : List Word → ρ) (i : Nat) (l : KvLayer ρ) :
    layerAfter row [] i l = l := rfl

/-- A write, and what comes after it. -/
theorem layerAfter_cons (row : List Word → ρ) (ts : List Touch) (i : Nat)
    (isV : Bool) (words : List Word) (l : KvLayer ρ) :
    layerAfter row ((i, some (isV, words)) :: ts) i l
      = layerAfter row ts i (l.withRows isV (l.rowsOf row words)) := by
  cases isV with
  | false =>
      simp only [layerAfter, lastWrite, KvLayer.withRows, Bool.false_eq_true,
        and_false, and_true,
        if_false, if_true, Option.or_none, KvLayer.mk.injEq, true_and]
      cases lastWrite ts i false <;> cases lastWrite ts i true <;> exact ⟨rfl, rfl⟩
  | true =>
      simp only [layerAfter, lastWrite, KvLayer.withRows, Bool.true_eq_false,
        and_false, and_true,
        if_false, if_true, Option.or_none, KvLayer.mk.injEq, true_and]
      cases lastWrite ts i false <;> cases lastWrite ts i true <;> exact ⟨rfl, rfl⟩

variable {ts : List Touch}

/-- Another layer's touch. -/
theorem layerAfter_other (row : List Word → ρ) {t : Touch} (hi : t.1 ≠ i)
    (l : KvLayer ρ) : layerAfter row
    (t :: ts) i l = layerAfter row ts i l := by
  obtain ⟨layer, t⟩ := t
  cases t with
  | none => rfl
  | some w =>
      have hno : ∀ isV, ¬ (layer = i ∧ w.1 = isV) := fun isV hboth => hi hboth.1
      simp only [layerAfter, lastWrite, hno, if_false, Option.or_none]

/-- The layers after one write into a region that is there. -/
theorem getElem?_touch_some {layer : Nat} {l : KvLayer ρ}
    (hl : c.layers[layer]? = some l)
    (isV : Bool) (words : List Word) (i : Nat) :
    (c.touch env backend h (layer, some (isV, words))).layers[i]?
      = if layer = i then some (l.withRows isV (l.rowsOf env.row words))
        else c.layers[i]? := by
  simp only [touch, hl, Std.TreeMap.getElem?_insert, compare_eq_iff_eq]

theorem contains_iff : c.layers.contains i = true
    ↔ ∃ l, c.layers[i]? = some l := by
  rw [Std.TreeMap.contains_eq_isSome_getElem?, Option.isSome_iff_exists]

/-- Once a layer has regions, it keeps them. -/
theorem contains_touch (hi : c.layers.contains i = true) (t : Touch) :
    (c.touch env backend h t).layers.contains i = true := by
  obtain ⟨layer, t⟩ := t
  cases t with
  | none =>
      simp only [touch, addKv]
      split
      · exact hi
      · simp only [insert, Std.TreeMap.contains_insert, hi, Bool.or_true]
  | some w =>
      simp only [touch]
      split
      · simp only [Std.TreeMap.contains_insert, hi, Bool.or_true]
      · exact hi

/-- Where every region is there already, the touches replace rows. -/
theorem layers_foldl_touch (hthere : ∀ t ∈ ts, c.layers.contains t.1 = true)
    (i : Nat) : (ts.foldl (touch env backend h) c).layers[i]?
      = (c.layers[i]?).map (layerAfter env.row ts i) := by
  induction ts generalizing c with
  | nil => cases hc : c.layers[i]? <;> simp only [List.foldl_nil, hc, Option.map_none,
      Option.map_some, layerAfter_nil]
  | cons t ts ih =>
      obtain ⟨layer, t⟩ := t
      have hhere : c.layers.contains layer = true := hthere _ List.mem_cons_self
      obtain ⟨l, hl⟩ := contains_iff.1 hhere
      have hrest := ih (c := c.touch env backend h (layer, t)) fun t' ht' =>
        contains_touch (hthere t' (List.mem_cons_of_mem _ ht')) _
      rw [List.foldl_cons, hrest]
      cases t with
      | none =>
          rw [touch, addKv, if_pos hhere]
          rfl
      | some w =>
          obtain ⟨isV, words⟩ := w
          rw [getElem?_touch_some hl]
          by_cases hi : layer = i
          · subst hi
            rw [if_pos rfl, hl, Option.map_some, Option.map_some, layerAfter_cons]
          · rw [if_neg hi]
            exact Option.map_congr fun l' _ => (layerAfter_other env.row hi l').symm

-- ===================== the bookkeeping

/-- What `restore_session` checks. -/
def Restorable (c : KvCache ρ) (st : KvSessionState) : Prop :=
  st.nCtx = c.nCtx ∧ (∀ ls ∈ st.layers, c.checkLayer ls = .ok ())
    ∧ ∀ r ∈ st.seqs, c.checkRun st.spans r = .ok ()

/-- A bookkeeping that passes the checks replaces the run table. -/
theorem restoreSession_spec (c : KvCache ρ) (st : KvSessionState) :
    (Restorable c st → ∃ c', c.restoreSession st = .ok c'
      ∧ c'.seqs = Std.TreeMap.ofList st.seqs)
    ∧ (¬ Restorable c st → ∃ e, c.restoreSession st = .error e) := by
  unfold restoreSession
  by_cases hctx : st.nCtx = c.nCtx
  · rw [if_neg (not_not.2 hctx)]
    cases hlayers : st.layers.forM c.checkLayer with
    | error e =>
        refine ⟨fun hr => ?_, fun _ => ⟨e, rfl⟩⟩
        rw [forM_of_ok hr.2.1] at hlayers
        cases hlayers
    | ok u =>
    cases hruns : st.seqs.forM (c.checkRun st.spans) with
    | error e =>
        refine ⟨fun hr => ?_, fun _ => ⟨e, rfl⟩⟩
        rw [forM_of_ok hr.2.2] at hruns
        cases hruns
    | ok u' =>
        refine ⟨fun _ => ⟨_, rfl, rfl⟩, fun hno => ?_⟩
        exact absurd ⟨hctx, forM_eq_ok hlayers, forM_eq_ok hruns⟩ hno
  · rw [if_pos hctx]
    exact ⟨fun hr => absurd hr.1 hctx, fun _ => ⟨_, rfl⟩⟩

/-- The arena with the regions a file needs. -/
def grown (env : LoadEnv ρ) (backend : Backend) (h : KvSessionHeader)
    (c : KvCache ρ) (ls : List SessionLayer) : KvCache ρ :=
  ls.foldl (fun c l => c.addKv env l.layer backend h.nEmbd h.rowElems h.nCtx) c

/-- Arenas of the same size with the same layers. -/
def Alike (c c' : KvCache ρ) : Prop :=
  c.nCtx = c'.nCtx ∧ ∀ i, c.layers.contains i = c'.layers.contains i

theorem Alike.addKv (ha : Alike c c') (i : Nat) :
    Alike (c.addKv env i backend h.nEmbd h.rowElems h.nCtx)
      (c'.addKv env i backend h.nEmbd h.rowElems h.nCtx) := by
  obtain ⟨hctx, hlayers⟩ := ha
  unfold KvCache.addKv
  rw [hlayers i]
  split
  · exact ⟨hctx, hlayers⟩
  · refine ⟨?_, fun j => ?_⟩
    · show max c.nCtx h.nCtx = max c'.nCtx h.nCtx
      rw [hctx]
    · simp only [insert, Std.TreeMap.contains_insert, hlayers j]

theorem Alike.write (ha : Alike c c') (i : Nat) (w : Bool × List Word) :
    Alike (c.touch env backend h (i, some w)) c' := by
  obtain ⟨hctx, hlayers⟩ := ha
  simp only [touch]
  split
  next l hl =>
    refine ⟨hctx, fun j => ?_⟩
    simp only [Std.TreeMap.contains_insert, ← hlayers j]
    by_cases hj : i = j
    · subst hj
      rw [contains_iff.2 ⟨l, hl⟩, Bool.or_true]
    · simp [hj]
  · exact ⟨hctx, hlayers⟩

/-- The pass leaves the arena with the regions the file needs. -/
theorem alike_touches
    (hall : ∀ l ∈ ls, Fits env backend h c l ∧ Writable env l)
    {c₁ c₂ : KvCache ρ} (ha : Alike c₁ c₂) :
    Alike ((touches env backend h c ls).foldl (touch env backend h) c₁)
      (grown env backend h c₂ ls) := by
  induction ls generalizing c₁ c₂ with
  | nil => exact ha
  | cons l ls ih =>
      obtain ⟨hfits, hk, hv⟩ := hall l List.mem_cons_self
      unfold touches
      rw [show c.checkKv env l.layer backend h.nEmbd h.rowElems h.nCtx
        = .ok () from hfits, hk, hv]
      exact ih (fun m hm => hall m (List.mem_cons_of_mem _ hm))
        (((ha.addKv l.layer).write l.layer _).write l.layer _)

theorem Alike.restorable (ha : Alike c c') (st : KvSessionState) :
    Restorable c st ↔ Restorable c' st := by
  obtain ⟨hctx, hlayers⟩ := ha
  unfold Restorable checkLayer checkRun
  simp only [hctx, hlayers]

-- ============================ the load

/-- The regions, the run table, the span lists and the owner tables are what
they were. -/
structure Untouched (c c' : KvCache ρ) : Prop where
  layers : ∀ i : Nat, c'.layers[i]? = c.layers[i]?
  seqs : c'.seqs = c.seqs
  spans : c'.spans = c.spans

/-- The arena and its backend take every layer, and the bookkeeping is one of
that many layers which the arena, with its new regions, can be put back to. -/
structure Applicable (env : LoadEnv ρ) (backend : Backend)
    (h : KvSessionHeader) (c : KvCache ρ)
    (ls : List SessionLayer) (st : KvSessionState) : Prop where
  layers : ∀ l ∈ ls, Fits env backend h c l ∧ Writable env l
  count : st.layers.length = ls.length
  state : Restorable (grown env backend h c ls) st

/-- Every region the pass reaches is there, and holds what is last written
into it. -/
def Redundant (env : LoadEnv ρ) (backend : Backend) (h : KvSessionHeader)
    (c : KvCache ρ) (ls : List SessionLayer) : Prop :=
  ∀ t ∈ touches env backend h c ls, ∃ l, c.layers[t.1]? = some l
    ∧ ∀ isV words, lastWrite (touches env backend h c ls) t.1 isV = some words →
        rows l isV = l.rowsOf env.row words

/-- A load ends well exactly when its file is accepted and applicable. -/
theorem kvLoad_spec (c : KvCache ρ)
    (hyes : accepted env path file expect = some (h, ls, body)) :
    (Applicable env expect.backend h c ls body.state →
      ∃ c', c.kvLoadWithHost env path file expect = (.ok (body.host, body.report), c')
        ∧ c'.seqs = Std.TreeMap.ofList body.state.seqs)
    ∧ (¬ Applicable env expect.backend h c ls body.state →
      ∃ e, c.kvLoadWithHost env path file expect
        = (.error e,
          (touches env expect.backend h c ls).foldl
            (touch env expect.backend h) c)) := by
  rw [kvLoad_accepted c hyes]
  obtain ⟨hleft, hok⟩ := applyAll_spec env expect.backend h ls c
  cases hres : c.applyAll env expect.backend h ls with
  | mk r c₁ =>
  rw [hres] at hleft hok
  cases r with
  | error e =>
      refine ⟨fun ha => ?_, fun _ => ⟨e, by rw [← hleft]⟩⟩
      exact nomatch hok.2 ha.layers
  | ok u =>
      have hall := hok.1 rfl
      have halike : Alike c₁ (grown env expect.backend h c ls) := by
        rw [show c₁ = _ from hleft]
        exact alike_touches hall ⟨rfl, fun _ => rfl⟩
      have hst := restoreSession_spec c₁ body.state
      rw [halike.restorable] at hst
      simp only
      by_cases hcount : body.state.layers.length = ls.length
      · rw [if_neg (not_not.2 hcount)]
        constructor
        · intro ha
          obtain ⟨c₂, hc₂, hseqs⟩ := hst.1 ha.state
          exact ⟨c₂, by rw [hc₂], hseqs⟩
        · intro hno
          obtain ⟨e, he⟩ := hst.2 fun hr => hno ⟨hall, hcount, hr⟩
          exact ⟨e, by rw [he, ← hleft]⟩
      · rw [if_pos hcount]
        exact ⟨fun ha => absurd ha.count hcount, fun _ => ⟨_, by rw [← hleft]⟩⟩

theorem contains_foldl_touch (ts : List Touch) {c : KvCache ρ}
    (hi : c.layers.contains i = true) :
    (ts.foldl (touch env backend h) c).layers.contains i = true := by
  induction ts generalizing c with
  | nil => exact hi
  | cons t ts ih => exact ih (contains_touch hi t)

variable (env backend h) in
/-- A layer the pass makes sure of has regions at its end. -/
theorem contains_of_mem (hmem : (i, none) ∈ ts) (c : KvCache ρ) :
    (ts.foldl (touch env backend h) c).layers.contains i = true := by
  induction ts generalizing c with
  | nil => cases hmem
  | cons t ts ih =>
      rcases List.mem_cons.1 hmem with rfl | hmem
      · apply contains_foldl_touch ts
        show (c.addKv env i backend h.nEmbd h.rowElems h.nCtx).layers.contains
          i = true
        unfold addKv
        split
        · assumption
        · exact Std.TreeMap.contains_insert_self
      · exact ih hmem _

/-- A region is made sure of before it is written. -/
theorem mem_touches {t : Touch} (ht : t ∈ touches env backend h c ls) :
    (t.1, none) ∈ touches env backend h c ls := by
  induction ls with
  | nil => cases ht
  | cons l ls ih =>
      unfold touches at ht ⊢
      split at ht
      · cases ht
      · rcases List.mem_singleton.1 ht with rfl
        exact List.mem_cons_self
      · rcases List.mem_cons.1 ht with rfl | ht
        · exact List.mem_cons_self
        · rcases List.mem_singleton.1 ht with rfl
          exact List.mem_cons_self
      · rcases List.mem_cons.1 ht with rfl | ht
        · exact List.mem_cons_self
        rcases List.mem_cons.1 ht with rfl | ht
        · exact List.mem_cons_self
        rcases List.mem_cons.1 ht with rfl | ht
        · exact List.mem_cons_self
        · exact List.mem_cons_of_mem _
            (List.mem_cons_of_mem _ (List.mem_cons_of_mem _ (ih ht)))

theorem mem_of_lastWrite {isV : Bool} {words : List Word}
    (hlast : lastWrite ts i isV = some words) : ∃ t ∈ ts, t.1 = i := by
  induction ts with
  | nil => cases hlast
  | cons t ts ih =>
      obtain ⟨layer, t⟩ := t
      by_cases hi : layer = i
      · exact ⟨_, List.mem_cons_self, hi⟩
      have hrest : lastWrite ts i isV = some words := by
        cases t with
        | none => exact hlast
        | some w =>
            have hno : ¬ (layer = i ∧ w.1 = isV) := fun hboth => hi hboth.1
            rwa [lastWrite, if_neg hno, Option.or_none] at hlast
      obtain ⟨t', ht', hi'⟩ := ih hrest
      exact ⟨t', List.mem_cons_of_mem _ ht', hi'⟩

/-- What the pass leaves is the arena as it was exactly when it was
redundant. -/
theorem untouched_iff (ls : List SessionLayer) :
    Untouched c ((touches env backend h c ls).foldl (touch env backend h) c)
      ↔ Redundant env backend h c ls := by
  obtain ⟨hseqs, hspans⟩ :=
    foldl_touch_frame env backend h (touches env backend h c ls) c
  constructor
  · intro hsame
    have hthere : ∀ t ∈ touches env backend h c ls, c.layers.contains t.1 = true := by
      intro t ht
      have hafter := contains_of_mem env backend h (mem_touches ht) c
      rwa [Std.TreeMap.contains_eq_isSome_getElem?, hsame.layers,
        ← Std.TreeMap.contains_eq_isSome_getElem?] at hafter
    intro t ht
    obtain ⟨l, hl⟩ := contains_iff.1 (hthere t ht)
    refine ⟨l, hl, fun isV words hlast => ?_⟩
    have hlayer := hsame.layers t.1
    rw [layers_foldl_touch hthere, hl, Option.map_some, Option.some.injEq] at hlayer
    cases isV with
    | false =>
        have hk := congrArg KvLayer.k hlayer
        simp only [layerAfter, hlast, Option.map_some, Option.getD_some] at hk
        exact hk.symm
    | true =>
        have hv := congrArg KvLayer.v hlayer
        simp only [layerAfter, hlast, Option.map_some, Option.getD_some] at hv
        exact hv.symm
  · intro hred
    have hthere : ∀ t ∈ touches env backend h c ls,
        c.layers.contains t.1 = true := fun t ht =>
      contains_iff.2 ((hred t ht).imp fun l hl => hl.1)
    refine ⟨fun i => ?_, hseqs, hspans⟩
    rw [layers_foldl_touch hthere]
    cases hl : c.layers[i]? with
    | none => rfl
    | some l =>
    -- the last write into either region wrote what it held
    have hkeep : ∀ isV, ((lastWrite (touches env backend h c ls) i isV).map
        (l.rowsOf env.row)).getD (rows l isV) = rows l isV := by
      intro isV
      cases hlast : lastWrite (touches env backend h c ls) i isV with
      | none => rfl
      | some words =>
          obtain ⟨t, ht, hi⟩ := mem_of_lastWrite hlast
          subst hi
          obtain ⟨l', hl', hrows⟩ := hred t ht
          rw [hl] at hl'
          cases hl'
          exact (hrows isV words hlast).symm
    have hk := hkeep false
    have hv := hkeep true
    simp only [rows, Bool.false_eq_true, if_false, if_true] at hk hv
    simp only [Option.map_some, layerAfter, hk, hv]

/-- A load that is refused leaves the regions, the run table, the span lists
and the owner tables as they were exactly when its file is not accepted, or
nothing refuses it after that, or what the pass wrote until then was there
already. -/
theorem session_load_refused_iff (env : LoadEnv ρ) (c : KvCache ρ)
    (path : String) (file : List UInt8) (expect : KvSessionExpect) :
    (∀ e, (c.kvLoadWithHost env path file expect).1 = .error e →
        Untouched c (c.kvLoadWithHost env path file expect).2)
      ↔ ∀ h ls body, accepted env path file expect = some (h, ls, body) →
          Applicable env expect.backend h c ls body.state
            ∨ Redundant env expect.backend h c ls := by
  constructor
  · intro hclean h ls body hyes
    by_cases happ : Applicable env expect.backend h c ls body.state
    · exact Or.inl happ
    right
    obtain ⟨e, he⟩ := (kvLoad_spec c hyes).2 happ
    have hsame := hclean e (by rw [he])
    rw [he] at hsame
    exact (untouched_iff ls).1 hsame
  · intro hcond e herr
    cases hacc : accepted env path file expect with
    | none =>
        obtain ⟨e', he'⟩ := kvLoad_refused c hacc
        rw [he']
        exact ⟨fun _ => rfl, rfl, rfl⟩
    | some r =>
    obtain ⟨h, ls, body⟩ := r
    by_cases happ : Applicable env expect.backend h c ls body.state
    · obtain ⟨c', hc', -⟩ := (kvLoad_spec c hacc).1 happ
      rw [hc'] at herr
      cases herr
    · obtain ⟨e', he'⟩ := (kvLoad_spec c hacc).2 happ
      rw [he']
      exact (untouched_iff ls).2 ((hcond h ls body hacc).resolve_left happ)

/-- A CPU that takes every write. -/
def plainLoad (row : List Word → ρ) : LoadEnv ρ where
  alloc :=
    { guard := fun _ _ => none, memoryBudget := fun _ => none, weightsBytes :=
      fun _ => 0,
      readsPackedKv := fun _ => true, isRegistered := fun b => b = .cpu }
  offload := none
  kvFormat := fun _ => .f32
  unavailableReason := fun _ => none
  enable := fun _ => true
  writeErr := fun _ _ => none
  row := row
  fresh := fun nCtx => List.replicate nCtx (row [])

/-- One layer, whose two cells hold something. -/
def livePair : KvCache (List Word) :=
  KvCache.new.insert 0 .cpu [[9], [9]] [[9], [9]] 1 1 2 false

/-- A bookkeeping without the layer the file has. -/
def bareState : KvSessionState := { KvSession.pairState with layers := [] }

/-- A whole file of one layer whose bookkeeping lists none. -/
def bareFile : List UInt8 :=
  let body := KvSession.bodyBytes
    (KvSession.pairHeader, [⟨0, [1, 2], [3, 4]⟩], bareState, [])
  body ++ KvSession.checksum body

theorem bareFile_accepted : ∃ body, body.state = bareState
    ∧ accepted (plainLoad (id : List Word → List Word)) "s" bareFile ⟨.cpu, 2, 1⟩
      = some (KvSession.pairHeader, [⟨0, [1, 2], [3, 4]⟩], body) := by
  have hfits : KvSession.Fits KvSession.pairHeader
      [⟨0, [1, 2], [3, 4]⟩] bareState [] :=
    { KvSession.pairState_fits [] (by decide) with
      state := by
        constructor <;> simp [bareState, KvSession.pairState,
          KvSession.FitsRun, KvSession.FitsSpans]
      cells := rfl
      owner := by simp [bareState] }
  have hread := KvSession.readFile_written KvSession.pairHeader_sound hfits "s"
  exact ⟨_, rfl, accepted_of_read hread rfl rfl rfl⟩

/-- That file is refused, and its rows stay in the region. -/
theorem refused_load_writes_rows : ¬ ∀ e,
    (livePair.kvLoadWithHost (plainLoad id) "s" bareFile ⟨.cpu, 2, 1⟩).1 = .error e →
      Untouched livePair
        (livePair.kvLoadWithHost (plainLoad id) "s" bareFile
          ⟨.cpu, 2, 1⟩).2 := by
  obtain ⟨body, hbody, hacc⟩ := bareFile_accepted
  have hno : ¬ Applicable (plainLoad id) .cpu KvSession.pairHeader livePair
      [⟨0, [1, 2], [3, 4]⟩]
      body.state := by
    intro happ
    have hcount := happ.count
    rw [hbody] at hcount
    exact absurd hcount (by decide)
  obtain ⟨e, he⟩ := (kvLoad_spec livePair hacc).2 hno
  intro hclean
  have hsame := hclean e (by rw [he])
  rw [he] at hsame
  have hlayer : ((touches (plainLoad id) .cpu KvSession.pairHeader livePair
      [⟨0, [1, 2], [3, 4]⟩]).foldl
        (touch (plainLoad id) .cpu KvSession.pairHeader) livePair).layers[0]?
        = livePair.layers[0]? := hsame.layers 0
  revert hlayer
  decide +kernel

end KvCache
end Minfer.Graph
