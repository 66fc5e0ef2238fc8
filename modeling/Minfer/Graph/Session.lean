/-
Context removal and the session state of the KV arena (`kv_rm` of
`graph/alloc.rs`; `after_rm`, `session_state` and `restore_session` of
`graph/kvcache.rs`).

A removal rewrites rows, and what it does to a K row is floating-point
arithmetic: `KvRope` takes that row map, and the cleared row, as given.
-/
import Minfer.Graph.Arena

namespace Minfer.Graph

open Lib (memmove)

variable {ρ : Type}

-- ============================= removal

/-- What a removal does to rows: the re-rope of one K row by a number of
positions, in a packed arena (through its dequantized form) or not, and the
row a cleared cell holds. -/
structure KvRope (ρ : Type) where
  shift : Bool → Nat → ρ → ρ
  zero : ρ

/-- What the environment decides about a removal. -/
structure RmEnv where
  /-- `kv_format()` is the f16 storage format. -/
  f16 : Bool
  /-- `copy_kv_to_cpu` returns nothing for a layer. -/
  readFails : Nat → Bool
  /-- A backend's refusal of one `write_pool` call, by layer and region (`true`
  for V). -/
  writeErr : Nat → Bool → Option String

/-- Why a removal fails. -/
inductive RmError where
  | noArena
  | f16
  | tooFewRows (layer len start nUsed : Nat)
  | hostRead (layer : Nat)
  | write (e : String)
  | otherSequences
  | sharedPrefix (rows : Nat)
deriving Repr, DecidableEq

/-- The request is refused, as against a backend that fails. -/
def RmError.IsRefusal : RmError → Prop
  | .noArena | .hostRead _ | .write _ => False
  | .f16 | .tooFewRows .. | .otherSequences | .sharedPrefix _ => True

/-- The survivors slid down over the removed rows, and the tail cleared. -/
def slideRows (zero : ρ) (start len nUsed : Nat) (region : List ρ) : List ρ :=
  (memmove region start (start + len) (nUsed - (start + len))).mapIdx fun cell x =>
    if nUsed - len ≤ cell then zero else x

/-- The slid K rows of the survivors, re-roped. -/
def reRope (shift : ρ → ρ) (start len nUsed : Nat) (region : List ρ) : List ρ :=
  region.mapIdx fun cell x => if start ≤ cell ∧ cell < nUsed - len then shift x else x

namespace KvCache

/-- The loop of `kv_rm` over the layers it has validated. -/
def rmLayers (env : RmEnv) (rope : KvRope ρ) (packed : Bool) (start len : Nat)
    (c : KvCache ρ) :
    List (Nat × KvLayer ρ) → Except RmError Unit × KvCache ρ
  | [] => (.ok (), c)
  | (layer, l) :: rest =>
      if env.readFails layer then (.error (.hostRead layer), c)
      else
        let k := reRope (rope.shift packed len) start len l.nUsed
          (slideRows rope.zero start len l.nUsed l.k)
        let v := slideRows rope.zero start len l.nUsed l.v
        match env.writeErr layer false with
        | some e => (.error (.write e), c)
        | none =>
          match env.writeErr layer true with
          | some e => (.error (.write e),
              { c with layers := c.layers.insert layer { l with k } })
          | none =>
            rmLayers env rope packed start len
              { c with layers := c.layers.insert layer { l with k, v } } rest

/-- One layer's bookkeeping after a removal. -/
def renumber (start len : Nat) (l : KvLayer ρ) : KvLayer ρ :=
  let slid := memmove l.owner start (start + len) (l.nUsed - (start + len))
  { l with owner := setOwnerIf slid (l.nUsed - len) l.nUsed (fun _ => true) free
           nUsed := l.nUsed - len }

/-- The loop of `after_rm`. -/
def renumberLayers (start len : Nat) (c : KvCache ρ) (newUsed : Nat) :
    List (Nat × KvLayer ρ) → Except RmError Nat × KvCache ρ
  | [] => (.ok newUsed, c)
  | (layer, l) :: rest =>
      if start + len > l.nUsed then (.error (.tooFewRows layer len start l.nUsed), c)
      else
        renumberLayers start len
          { c with layers := c.layers.insert layer (renumber start len l) }
          (l.nUsed - len) rest

/-- `after_rm`: the bookkeeping of a physical removal. -/
def afterRm (c : KvCache ρ) (start len : Nat) : Except RmError Nat × KvCache ρ :=
  if c.seqs.toList.any fun r => r.1 ≠ seqMain then (.error .otherSequences, c)
  else
    match c.seqs[seqMain]? with
    | some slot =>
        if slot.shared.rows > 0 then (.error (.sharedPrefix slot.shared.rows), c)
        else renumberLayers start len c 0 c.layers.toList
    | none => renumberLayers start len c 0 c.layers.toList

/-- `kv_rm`: remove rows `[start, start + len)` from every layer. -/
def kvRm (env : RmEnv) (rope : KvRope ρ) (c : KvCache ρ) (start len : Nat) :
    Except RmError Nat × KvCache ρ :=
  if c.layers.isEmpty then (.error .noArena, c)
  else if env.f16 then (.error .f16, c)
  else
    match c.layers.toList.find? fun l => start + len > l.2.nUsed with
    | some (layer, l) => (.error (.tooFewRows layer len start l.nUsed), c)
    | none =>
      match rmLayers env rope c.anyPacked start len c c.layers.toList with
      | (.error e, c) => (.error e, c)
      | (.ok (), c) => c.afterRm start len

end KvCache

-- ============================ sessions

/-- `KvLayerSession`. -/
structure KvLayerSession where
  layer : Nat
  nUsed : Nat
  owner : List SeqId
deriving Repr, DecidableEq

/-- `KvSessionState`: the bookkeeping of an arena. -/
structure KvSessionState where
  identity : Bool
  nCtx : Nat
  seqs : List (SeqId × SeqSlot)
  spans : List (SeqId × List Span)
  layers : List KvLayerSession
  defrags : Nat
  cellsMoved : Nat
  cows : Nat
  cowCells : Nat
deriving Repr, DecidableEq

/-- `written`: where a resumed session continues from. -/
def KvSessionState.written (st : KvSessionState) : Nat :=
  (st.seqs.map (·.2.written)).foldl max 0

namespace KvCache

/-- `session_state`. -/
def sessionState (c : KvCache ρ) : KvSessionState where
  identity := c.identity
  nCtx := c.nCtx
  seqs := c.seqs.toList
  spans := c.spans.toList
  layers := c.layers.toList.map fun e => ⟨e.1, e.2.nUsed, e.2.owner⟩
  defrags := c.defrags
  cellsMoved := c.cellsMoved
  cows := c.cows
  cowCells := c.cowCells

/-- What `restore_session` checks of a saved layer. -/
def checkLayer (c : KvCache ρ) (ls : KvLayerSession) : Except String Unit :=
  if ¬ c.layers.contains ls.layer then
    .error
      (s!"KV session: layer {ls.layer} has no arena here (the " ++
        s!"file and the model disagree on the layer count)")
  else if ls.owner.length ≠ c.nCtx then
    .error
      (s!"KV session: layer {ls.layer} carries a " ++
        s!"{ls.owner.length}-entry owner table for a " ++
        s!"{c.nCtx}-cell arena")
  else if ls.nUsed > c.nCtx then
    .error
      (s!"KV session: layer {ls.layer} claims {ls.nUsed} " ++
        s!"written rows of {c.nCtx}")
  else .ok ()

/-- What `restore_session` checks of one saved run. -/
def checkRun (c : KvCache ρ) (spans : List (SeqId × List Span))
    (r : SeqId × SeqSlot) :
    Except String Unit :=
  if r.2.start + r.2.cap > c.nCtx then
    .error
      (s!"KV session: sequence {r.1} reserves cells " ++
        s!"{r.2.start}..{r.2.start + r.2.cap} of {c.nCtx}")
  else if r.2.written > r.2.shared.rows + r.2.cap then
    .error
      (s!"KV session: sequence {r.1} claims {r.2.written} " ++
        s!"written positions of {r.2.cap} reserved " ++
        s!"(+{r.2.shared.rows} shared)")
  else
    match spans.find? (·.1 == r.1) with
    | none => .error
        (s!"KV session: sequence {r.1} has a reserved run but " ++
          s!"no span list — the resolver reads it, so the state " ++
          s!"is not restorable")
    | some (_, spans) =>
      match spans.find? fun s =>
          decide (s.base + s.len > r.2.shared.rows + r.2.cap
              ∨ s.cell + s.len > c.nCtx) with
      | some s => .error
          (s!"KV session: sequence {r.1} span ({s.base}, " ++
            s!"{s.cell}, {s.len}) is outside its reservation or " ++
            s!"the arena")
      | none => .ok ()

/-- Put one saved layer back. -/
def putLayer (layers : Std.TreeMap Nat (KvLayer ρ)) (ls : KvLayerSession) :
    Std.TreeMap Nat (KvLayer ρ) :=
  match layers[ls.layer]? with
  | some l => layers.insert ls.layer { l with owner := ls.owner, nUsed := ls.nUsed }
  | none => layers

/-- `restore_session`: put a saved state back after validating it. -/
def restoreSession (c : KvCache ρ) (st : KvSessionState) :
    Except String (KvCache ρ) :=
  if st.nCtx ≠ c.nCtx then
    .error
      (s!"KV session: the file holds {st.nCtx}-row runs but " ++
        s!"this arena has {c.nCtx} (n_ctx differs; the regions " ++
        s!"are persistent and cannot be resized)")
  else
    match st.layers.forM c.checkLayer with
    | .error e => .error e
    | .ok () =>
      match st.seqs.forM (c.checkRun st.spans) with
      | .error e => .error e
      | .ok () =>
        .ok { c with
          layers := st.layers.foldl putLayer c.layers
          identity := st.identity
          seqs := Std.TreeMap.ofList st.seqs
          spans := Std.TreeMap.ofList st.spans
          defrags := st.defrags
          cellsMoved := st.cellsMoved
          cows := st.cows
          cowCells := st.cowCells }

-- ============= everything that happens

/-- The state a call leaves behind, whether it succeeds or fails half-way. -/
def left (env : KvEnv) (c : KvCache ρ) : ArenaOp ρ → KvCache ρ
  | .reserve seq cap => match c.reserveSeq seq cap with
      | .ok (_, c) => c
      | .error _ => c
  | .release seq => (c.releaseSeq seq).2
  | .own seq positions rows => match c.ownPositions seq positions with
      | (.ok (), c) => c.storeRows seq positions rows
      | (.error _, c) => c
  | .share src dst rows => (c.kvSharePrefix src dst rows).2
  | .copyPrefix src dst rows => (c.kvCopyPrefix env src dst rows).2
  | .privateRow seq t => (c.kvPrivateRowFor env seq t).2
  | .defrag need => (c.kvDefrag env need).2
  | .setCap seq cap => (c.kvSetCapWithDefrag env seq cap).2

/-- Every state of a store: whatever was called, and whatever became of the
call. A session is one that some store saved. -/
inductive Touched : KvCache ρ → Prop
  | new : Touched .new
  | capacity {c : KvCache ρ} (nCtx : Nat) : Touched c → Touched (c.setNCtx nCtx)
  | insert {c : KvCache ρ} (layer : Nat) (backend : Backend) (k v : List ρ)
      (nEmbd rowElems nCtx : Nat) (packed : Bool) :
      Touched c → Touched (c.insert layer backend k v nEmbd rowElems nCtx packed)
  | call {c : KvCache ρ} (env : KvEnv) (op : ArenaOp ρ) : Touched c →
      Touched (c.left env op)
  | remove {c : KvCache ρ} (env : RmEnv) (rope : KvRope ρ) (start len : Nat) :
      Touched c → Touched (c.kvRm env rope start len).2
  | restore {c saved c' : KvCache ρ} : Touched saved → Touched c →
      c.restoreSession saved.sessionState = .ok c' → Touched c'

end KvCache
end Minfer.Graph
