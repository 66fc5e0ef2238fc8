/-
Loading a session file into an arena (`kv_load_with_host` of
`graph/alloc.rs`).

The file is walked from end to end before anything is applied; then it is
read again, and each layer is written into its region as it arrives, which
is created if there is none. The bookkeeping comes last.

The store keeps a region's rows in the layer's record, so a write replaces
them: what row a cell's words make is the environment's, like everything
the backends answer.
-/
import Minfer.Graph.SessionFile

namespace Minfer.Graph

open GraphAllocator (checkPacked checkRegion)
open KvSession (Source openFile nextLayer verify)

variable {ρ : Type}

/-- `OffloadPlan`. -/
structure OffloadPlan where
  nLayers : Nat
  gpuLayers : Nat
deriving Repr, DecidableEq

namespace OffloadPlan

/-- `is_mixed`. -/
def isMixed (p : OffloadPlan) : Bool :=
  decide (p.gpuLayers > 0 ∧ p.gpuLayers < p.nLayers)

/-- `cpu_layers`. -/
def cpuLayers (p : OffloadPlan) : Nat := p.nLayers - p.gpuLayers

end OffloadPlan

/-- What the environment decides about a load. -/
structure LoadEnv (ρ : Type) where
  alloc : AllocEnv
  offload : Option OffloadPlan
  /-- `kv_element_format`. -/
  kvFormat : Backend → KvFormat
  /-- `registry::unavailable_reason`. -/
  unavailableReason : Backend → Option String
  /-- The backend's `enable` hook. -/
  enable : Backend → Bool
  /-- A backend's refusal of one `write_pool` call, by layer and region (`true`
  for V). -/
  writeErr : Nat → Bool → Option String
  /-- The row a cell's words make. -/
  row : List Word → ρ
  /-- What a new region holds before it is written. -/
  fresh : Nat → List ρ

/-- The region record the checks of `ensure_kv` look at. -/
def KvLayer.region (l : KvLayer ρ) : KvRegion :=
  ⟨.own l.backend 0 l.elems, .own l.backend 0 l.elems, l.elems, l.packed⟩

/-- The rows of a region that holds these words. -/
def KvLayer.rowsOf (row : List Word → ρ) (l : KvLayer ρ) (words : List Word) :
    List ρ :=
  let rowElems := l.elems / l.nCtx
  (List.range l.nCtx).map fun cell =>
    row ((words.drop (cell * rowElems)).take rowElems)

/-- A region's rows, replaced: K, or V for `true`. -/
def KvLayer.withRows (l : KvLayer ρ) (isV : Bool) (rows : List ρ) : KvLayer ρ :=
  if isV then { l with v := rows } else { l with k := rows }

namespace KvCache

/-- The checks of `ensure_kv`: on a packed width, and on the region that is
there. -/
def checkKv (env : LoadEnv ρ) (c : KvCache ρ) (layer : Nat) (backend : Backend)
    (nEmbd rowElems nCtx : Nat) : Except String Unit :=
  let packed := decide (rowElems ≠ nEmbd)
  match (if packed then checkPacked env.alloc layer backend nEmbd rowElems
      else .ok ()) with
  | .error e => .error e
  | .ok () =>
      match c.layers[layer]? with
      | some l => checkRegion l.region layer backend (rowElems * nCtx) packed
      | none => .ok ()

/-- The layer's regions, created where there are none. -/
def addKv (env : LoadEnv ρ) (c : KvCache ρ) (layer : Nat) (backend : Backend)
    (nEmbd rowElems nCtx : Nat) : KvCache ρ :=
  if c.layers.contains layer then c
  else c.insert layer backend (env.fresh nCtx) (env.fresh nCtx) nEmbd rowElems nCtx
    (decide (rowElems ≠ nEmbd))

/-- `ensure_kv`. -/
def ensureKv (env : LoadEnv ρ) (c : KvCache ρ) (layer : Nat) (backend : Backend)
    (nEmbd rowElems nCtx : Nat) : Except String (KvCache ρ) :=
  match c.checkKv env layer backend nEmbd rowElems nCtx with
  | .error e => .error e
  | .ok () => .ok (c.addKv env layer backend nEmbd rowElems nCtx)

/-- `write_pool` of one of a layer's regions. -/
def writePool (env : LoadEnv ρ) (c : KvCache ρ) (layer : Nat) (isV : Bool)
    (words : List Word) :
    Except String Unit × KvCache ρ :=
  match env.writeErr layer isV with
  | some e => (.error e, c)
  | none =>
      match c.layers[layer]? with
      | some l =>
          (.ok (), { c with
            layers := c.layers.insert layer
              (l.withRows isV (l.rowsOf env.row words)) })
      | none => (.ok (), c)

/-- One layer of the applying pass. -/
def applyLayer (env : LoadEnv ρ) (backend : Backend) (h : KvSessionHeader)
    (c : KvCache ρ) (l : SessionLayer) : Except String Unit × KvCache ρ :=
  match c.ensureKv env l.layer backend h.nEmbd h.rowElems h.nCtx with
  | .error e => (.error e, c)
  | .ok c =>
      match c.writePool env l.layer false l.k with
      | (.error e, c) => (.error e, c)
      | (.ok (), c) => c.writePool env l.layer true l.v

/-- The loop of the applying pass, with `seen` layers read. -/
def applyLayers (env : LoadEnv ρ) (backend : Backend) (h : KvSessionHeader) :
    Nat → Nat → Source → KvCache ρ → Except String (Nat × Source) × KvCache ρ
  | 0, seen, s, c => (.ok (seen, s), c)
  | fuel + 1, seen, s, c =>
      match nextLayer h seen s with
      | .error e => (.error e, c)
      | .ok (none, s) => (.ok (seen, s), c)
      | .ok (some l, s) =>
          match c.applyLayer env backend h l with
          | (.error e, c) => (.error e, c)
          | (.ok (), c) => applyLayers env backend h fuel (seen + 1) s c

/-- What a load checks of the file's header. -/
def checkHeader (env : LoadEnv ρ) (expect : KvSessionExpect) (h : KvSessionHeader) :
    Except String Unit :=
  let live := env.kvFormat expect.backend
  if h.backend ≠ expect.backend then
    .error (s!"KV session: the file holds a {h.backend.debugName} " ++
        s!"session, this run uses {expect.backend.debugName}")
  else if h.nCtx ≠ expect.nCtx then
    .error (s!"KV session: the file describes a {h.nCtx}-cell " ++
        s!"arena, this run has {expect.nCtx} (--n-ctx)")
  else if h.nEmbd ≠ expect.nEmbd then
    .error (s!"KV session: the file holds {h.nEmbd}-element KV " ++
        s!"rows, this model has {expect.nEmbd} (a session " ++
        s!"belongs to the model that wrote it)")
  else if h.format ≠ live then
    .error (s!"KV session: the file was written with the " ++
        s!"{h.format.name} KV element type, this run uses " ++
        s!"{live.name} (MINFER_CACHE_TYPE)")
  else .ok ()

/-- The pool the file names is there, or is made. -/
def enablePool (env : LoadEnv ρ) (backend : Backend) : Except String Unit :=
  let why := env.unavailableReason backend
  if ¬ env.alloc.isRegistered backend then
    let why := why.getD "not compiled into this build"
    .error (s!"KV session: the file holds a {backend.name} session " ++
        s!"and this build has no {backend.name} backend ({why})")
  else if ¬ env.enable backend then
    let why := why.getD "the backend's pool could not be enabled"
    .error (s!"KV session: the file holds a {backend.name} session " ++
        s!"but {backend.name} is not available here: {why}")
  else .ok ()

/-- `kv_load_with_host`: the host state and the report. -/
def kvLoadWithHost (env : LoadEnv ρ) (c : KvCache ρ) (path : String)
    (file : List UInt8) (expect : KvSessionExpect) : Except String
    (List UInt8 × KvSessionReport) × KvCache ρ :=
  match env.offload.filter OffloadPlan.isMixed with
  | some p =>
      (.error (s!"KV session: this model's {p.nLayers} blocks are " ++
          s!"split across backends (E5 offload plan: " ++
          s!"{p.gpuLayers} on the device, {p.cpuLayers} on the " ++
          s!"CPU); a session is one arena, so it cannot be " ++
          s!"resumed — offload every block or none"), c)
  | none =>
  match verify path file with
  | .error e => (.error e, c)
  | .ok header =>
  match checkHeader env expect header with
  | .error e => (.error e, c)
  | .ok () =>
  match openFile path (Source.new file) with
  | .error e => (.error e, c)
  | .ok (h, s) =>
  match enablePool env expect.backend with
  | .error e => (.error e, c)
  | .ok () =>
  match c.applyLayers env expect.backend h (h.nLayer + 1) 0 s with
  | (.error e, c) => (.error e, c)
  | (.ok (seen, s), c) =>
  match KvSession.finish h seen s with
  | .error e => (.error e, c)
  | .ok body =>
      if body.state.layers.length ≠ seen then
        (.error (s!"KV session: {seen} layers were read but the " ++
            s!"bookkeeping describes {body.state.layers.length}"), c)
      else
        match c.restoreSession body.state with
        | .error e => (.error e, c)
        | .ok c => (.ok (body.host, body.report), c)

end KvCache
end Minfer.Graph
