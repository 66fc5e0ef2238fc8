/-
The allocator's pools (`graph/alloc.rs`): the buffers of each backend, the
reservation table of idle ones, the persistent KV regions and the staging
buffers of the split boundaries.

An activation buffer is allocated at its size class. Released, it goes to
the table and not back to its backend, so the next request of the class
takes it again; what the backend's own free list gets is staging buffers
only. The byte counts that nothing but the memory report reads are left
out.
-/
import Mathlib.Data.List.AList
import Minfer.Graph.Ir
import Minfer.Lib.IdSet

namespace Minfer.Graph

open Lib (IdSet)

-- ============================== tables

/-- A `HashMap`. -/
abbrev Table (α β : Type) := AList fun _ : α => β

/-- `CLASS_MIN`. -/
def classMin : Nat := 256

/-- `CLASS_GRAIN`. -/
def classGrain : Nat := 4096

/-- `next_power_of_two`, from a power on. -/
def nextPowerOfTwo (n : Nat) : Nat → Nat → Nat
  | 0, p => p
  | fuel + 1, p => if n ≤ p then p else nextPowerOfTwo n fuel (2 * p)

/-- `class_size`. -/
def classSize (elems : Nat) : Nat :=
  let elems := max elems 1
  if elems ≤ classMin then classMin
  else if elems ≤ classGrain then nextPowerOfTwo elems elems 1
  else (elems + classGrain - 1) / classGrain * classGrain

/-- `class_bytes`. -/
def classBytes (elems : Nat) : Nat := elems * 4

/-- One backend's pool: the length of each buffer and the ids on the free
list. The CPU and Metal fill the gap of a taken id with the last one. -/
structure Pool where
  lens : List Nat
  free : List Nat
  swapRemoves : Bool
deriving Repr, DecidableEq

namespace Pool

/-- `pool_len`. -/
def len (p : Pool) : Nat := p.lens.length

/-- Take an id off the free list. -/
def takeFree (p : Pool) (id : Nat) : List Nat :=
  if p.swapRemoves then
    match p.free.getLast? with
    | some last => (p.free.map fun x => if x = id then last else x).dropLast
    | none => []
  else p.free.erase id

/-- `alloc_fresh`: never off the free list. -/
def allocFresh (p : Pool) (size : Nat) : Nat × Pool :=
  (p.len, { p with lens := p.lens ++ [size] })

/-- `alloc_buffer`: the first free buffer of exactly this length, or a new
one. -/
def allocBuffer (p : Pool) (size : Nat) : Nat × Pool :=
  match p.free.find? fun id => p.lens[id]? = some size with
  | some id => (id, { p with free := p.takeFree id })
  | none => p.allocFresh size

/-- `free_buffer`. -/
def freeBuffer (p : Pool) (id : Nat) : Pool :=
  if id ∈ p.free then p else { p with free := p.free ++ [id] }

end Pool

-- =============================== state

/-- `PersistentBuf`. -/
structure PersistentBuf where
  name : String
  backend : Backend
  id : Nat
deriving Repr, DecidableEq

/-- A layer's KV regions, as the allocator sees them. -/
structure KvRegion where
  k : BufRef
  v : BufRef
  elems : Nat
  packed : Bool
deriving Repr, DecidableEq

/-- A staging buffer's name: the graph's uid, the node, the destination. -/
abbrev CrossKey := Nat × NodeId × Backend

/-- `GraphAllocator`. -/
structure GraphAllocator where
  /-- The enabled backends' pools. -/
  pools : Table Backend Pool
  nodeToBuf : Table NodeId BufRef
  cross : Table CrossKey BufRef
  crossPending : List CrossKey
  /-- Until which step a buffer stays alive. -/
  bufAlive : Table BufKey Nat
  /-- Idle buffers by backend and size class. -/
  slots : Table (Backend × Nat) IdSet
  /-- The size class of an activation buffer. -/
  bufClass : Table BufKey Nat
  poolBytes : Table Backend Nat
  kv : Table Nat KvRegion
  persistent : List PersistentBuf
  /-- Not in the source: what `alloc_in_pool` gave out since the last
  `alloc_graph` started, and to which node. -/
  handed : List (NodeId × BufKey)
deriving DecidableEq

/-- What the environment decides about an allocation. -/
structure AllocEnv where
  /-- `testfail::guard("alloc_in_pool")`. -/
  guard : Backend → Nat → Option String
  /-- `memory_budget`. -/
  memoryBudget : Backend → Option Nat
  /-- `weights_bytes`. -/
  weightsBytes : Backend → Nat
  /-- `registry::reads_packed_kv`. -/
  readsPackedKv : Backend → Bool
  /-- `backend.entry().is_some()`. -/
  isRegistered : Backend → Bool

/-- Why an allocation has no result. -/
inductive AllocExit where
  | err (e : String)
  | panic (e : String)
deriving Repr, DecidableEq

namespace GraphAllocator

/-- `GraphAllocator::new`: the CPU has its pool. -/
def new : GraphAllocator where
  pools := AList.singleton .cpu ⟨[], [], true⟩
  nodeToBuf := ∅
  cross := ∅
  crossPending := []
  bufAlive := ∅
  slots := ∅
  bufClass := ∅
  poolBytes := ∅
  kv := ∅
  persistent := []
  handed := []

/-- `enable_metal` and `enable_cuda`: an empty pool, where there is none. -/
def enable (a : GraphAllocator) (backend : Backend) (swapRemoves : Bool) :
    GraphAllocator :=
  match a.pools.lookup backend with
  | some _ => a
  | none => { a with pools := a.pools.insert backend ⟨[], [], swapRemoves⟩ }

-- =============================== pools

/-- `require_pool_mut`, and a request to the pool. -/
def inPool (env : AllocEnv) (a : GraphAllocator) (backend : Backend)
    (f : Pool → Nat × Pool) : Except AllocExit Nat × GraphAllocator :=
  match a.pools.lookup backend with
  | some p => (.ok (f p).1, { a with pools := a.pools.insert backend (f p).2 })
  | none =>
      let why := if env.isRegistered backend then "pool not enabled"
        else "not compiled into this build"
      (.error (.panic s!"{backend.name} backend {why}"), a)

/-- `alloc_exact_in_pool`. -/
def allocExactInPool (env : AllocEnv) (a : GraphAllocator) (backend : Backend)
    (size : Nat) :
    Except AllocExit Nat × GraphAllocator :=
  a.inPool env backend (·.allocBuffer size)

/-- `alloc_fresh_in`. -/
def allocFreshIn (env : AllocEnv) (a : GraphAllocator) (backend : Backend)
    (size : Nat) :
    Except AllocExit Nat × GraphAllocator :=
  a.inPool env backend (·.allocFresh size)

/-- `pool_len_of`. -/
def poolLenOf (a : GraphAllocator) (backend : Backend) : Nat :=
  ((a.pools.lookup backend).map Pool.len).getD 0

/-- `alloc_class_in_pool`: an idle buffer of the class, or a new one. -/
def allocClassInPool (env : AllocEnv) (a : GraphAllocator) (backend : Backend)
    (size : Nat) :
    Except AllocExit Nat × GraphAllocator :=
  let cls := classSize size
  match (a.slots.lookup (backend, cls)).bind IdSet.popFirst with
  | some (id, idle) =>
      (.ok id, { a with slots := a.slots.insert (backend, cls) idle })
  | none => a.allocExactInPool env backend cls

/-- The budget refusal of `alloc_in_pool`. -/
def outOfMemory (backend : Backend) (weights pool want budget : Nat) : String :=
  let mib := 1024 * 1024
  (s!"out of {backend.debugName} memory: {weights / mib} " ++
    s!"MiB of weights + {pool / mib} MiB of pooled buffers " ++
    s!"+                      {want / mib} MiB for this " ++
    s!"activation exceeds the {budget} byte budget " ++
    s!"({budget / mib} MiB);                      reduce " ++
    s!"--n-ctx/--n-batch, use a smaller quant, or free a " ++
    s!"session")

/-- `alloc_in_pool`. -/
def allocInPool (env : AllocEnv) (a : GraphAllocator) (backend : Backend)
    (size : Nat) :
    Except AllocExit Nat × GraphAllocator :=
  match env.guard backend size with
  | some e => (.error (.err e), a)
  | none =>
      let want := classBytes (classSize size)
      let pool := (a.poolBytes.lookup backend).getD 0
      let weights := env.weightsBytes backend
      match env.memoryBudget backend with
      | some budget =>
          if pool + weights + want > budget then
            (.error (.err (outOfMemory backend weights pool want budget)), a)
          else allocated a backend want
      | none => allocated a backend want
where
  /-- The request itself, and its accounting. -/
  allocated (a : GraphAllocator) (backend : Backend) (want : Nat) :
      Except AllocExit Nat × GraphAllocator :=
    match a.allocClassInPool env backend size with
    | (.error e, a) => (.error e, a)
    | (.ok id, a') =>
        let a'' :=
            { a' with bufClass :=
              a'.bufClass.insert (backend, id) (classSize size) }
        (.ok id, if a'.poolLenOf backend > a.poolLenOf backend then
            { a'' with poolBytes :=
                a''.poolBytes.insert backend ((a''.poolBytes.lookup backend).getD 0 + want) }
          else a'')

/-- `free_in_pool`: an activation buffer becomes idle, any other goes back to
its backend. -/
def freeInPool (a : GraphAllocator) (key : BufKey) : GraphAllocator :=
  match a.bufClass.lookup key with
  | some cls =>
      { a with
        bufClass := a.bufClass.erase key
        slots := a.slots.insert (key.1, cls)
          (((a.slots.lookup (key.1, cls)).getD ∅).insert key.2) }
  | none =>
      match a.pools.lookup key.1 with
      | some p => { a with pools := a.pools.insert key.1 (p.freeBuffer key.2) }
      | none => a

/-- Release buffers one after the other. -/
def freeAll (a : GraphAllocator) (keys : List BufKey) : GraphAllocator :=
  keys.foldl freeInPool a

/-- `sweep`: release what no step from `i` on needs. -/
def sweep (a : GraphAllocator) (i : Nat) : GraphAllocator :=
  (a.bufAlive.keys.filter fun key => (a.bufAlive.lookup key).any (· < i)).foldl
    (fun a key => { a with bufAlive := a.bufAlive.erase key }.freeInPool key) a

-- ========================== KV regions

/-- `KvFormat::Q8_0.check_width`. -/
def checkWidthQ8 (nkt : Nat) : Except String Unit :=
  if nkt = 0 ∨ nkt % 32 ≠ 0 then
    .error
      (s!"KV cache type q8_0 needs n_kv_embd to be a non-zero " ++
        s!"multiple of 32 (got {nkt}): a Q8_0 cell is a whole " ++
        s!"number of 32-element blocks")
  else .ok ()

/-- `KvFormat::Q8_0.row_elems`. -/
def rowElemsQ8 (nkt : Nat) : Nat := (nkt / 32 * 34 + 3) / 4

/-- `alloc_persistent`. -/
def allocPersistent (env : AllocEnv) (a : GraphAllocator) (name : String)
    (backend : Backend)
    (size : Nat) : Except AllocExit BufRef × GraphAllocator :=
  match a.allocExactInPool env backend size with
  | (.error e, a) => (.error e, a)
  | (.ok id, a) =>
      (.ok (.own backend id size),
        { a with persistent := a.persistent ++ [⟨name, backend, id⟩] })

/-- The checks of `ensure_kv` on a packed region. -/
def checkPacked (env : AllocEnv) (layer : Nat) (backend : Backend)
    (nEmbd rowElems : Nat) :
    Except String Unit :=
  match checkWidthQ8 nEmbd with
  | .error e => .error e
  | .ok () =>
      if !env.readsPackedKv backend then
        .error
          (s!"KV region for layer {layer} would live on " ++
            s!"{backend.debugName}, which has no kernel that reads " ++
            s!"a packed q8_0 region; refusing rather than sizing a " ++
            s!"region whose kernels would address it as f32 rows, " ++
            s!"which would corrupt the cache silently")
      else if rowElems ≠ rowElemsQ8 nEmbd then
        .error
          (s!"KV region for layer {layer}: the node declares " ++
            s!"{rowElems} words per cell but the q8_0 layout packs " ++
            s!"one cell of {nEmbd} elements into " ++
            s!"{rowElemsQ8 nEmbd}; only a node that carries " ++
            s!"`KvcacheMeta::row_elems` may size a packed region " ++
            s!"(the decode QKV fusion is GPU-only and never runs " ++
            s!"packed)")
      else .ok ()

/-- The checks of `ensure_kv` on a region that exists. -/
def checkRegion (region : KvRegion) (layer : Nat) (backend : Backend)
    (elems : Nat) (packed : Bool) : Except String Unit :=
  if region.elems ≠ elems then
    .error
      (s!"KV region for layer {layer} was allocated with " ++
        s!"{region.elems} elements but {elems} are requested " ++
        s!"(n_ctx changed on a live GraphCache; the regions " ++
        s!"are persistent)")
  else if region.k.backend ≠ backend then
    .error
      (s!"KV region for layer {layer} lives on " ++
        s!"{region.k.backend.debugName} but this graph assigns " ++
        s!"it to {backend.debugName}")
  else if region.packed ≠ packed then
    let had := if region.packed then "packed" else "unpacked"
    let asked := if packed then "packed Q8_0" else "unpacked f32"
    .error
      (s!"KV region for layer {layer} was allocated {had} but " ++
        s!"this graph asks for {asked} (the KV format changed " ++
        s!"on a live GraphCache; the regions are persistent)")
  else .ok ()

/-- `ensure_kv`: the layer's K and V regions. -/
def ensureKv (env : AllocEnv) (a : GraphAllocator) (layer : Nat)
    (backend : Backend) (nEmbd rowElems nCtx : Nat) : Except AllocExit
    (BufRef × BufRef) × GraphAllocator :=
  let packed := decide (rowElems ≠ nEmbd)
  match (if packed then checkPacked env layer backend nEmbd rowElems else .ok ()) with
  | .error e => (.error (.err e), a)
  | .ok () =>
      let elems := rowElems * nCtx
      match a.kv.lookup layer with
      | some region =>
          match checkRegion region layer backend elems packed with
          | .error e => (.error (.err e), a)
          | .ok () => (.ok (region.k, region.v), a)
      | none =>
          match a.allocPersistent env s!"kv.{layer}.k" backend elems with
          | (.error e, a) => (.error e, a)
          | (.ok k, a) =>
              match a.allocPersistent env s!"kv.{layer}.v" backend elems with
              | (.error e, a) => (.error e, a)
              | (.ok v, a) =>
                  (.ok (k, v),
                    { a with kv := a.kv.insert layer ⟨k, v, elems, packed⟩ })

-- ============================= staging

/-- `cross_staging`: the staging buffer of a node for a destination. -/
def crossStaging (env : AllocEnv) (a : GraphAllocator) (uid : Nat) (node : NodeId)
    (dst : Backend) : Except AllocExit BufRef × GraphAllocator :=
  match a.nodeToBuf.lookup node with
  | none => (.error (.err s!"node {node} has no buffer"), a)
  | some br =>
      match a.cross.lookup (uid, node, dst) with
      | some cb =>
          if cb.len = br.len then (.ok cb, a)
          else
            staged
                (freeInPool { a with cross := a.cross.erase (uid, node, dst) }
                  cb.key) br.len
      | none => staged a br.len
where
  /-- A fresh staging buffer. -/
  staged (a : GraphAllocator) (len : Nat) :
      Except AllocExit BufRef × GraphAllocator :=
    match a.allocFreshIn env dst len with
    | (.error e, a) => (.error e, a)
    | (.ok id, a) =>
        let cb := BufRef.own dst id len
        (.ok cb, { a with
          poolBytes :=
            a.poolBytes.insert dst ((a.poolBytes.lookup dst).getD 0 + len * 4)
          cross := a.cross.insert (uid, node, dst) cb })

end GraphAllocator
end Minfer.Graph
