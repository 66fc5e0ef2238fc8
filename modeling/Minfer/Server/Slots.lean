/-
The slot snapshot (`load_slots` of `server/batch.rs`): a session file
whose host state is the slot table as JSON.

The arena is restored first; the table is parsed after that, and its rows
are applied one by one as they pass their checks. Parsing JSON is a
library's, and so a parameter.
-/
import Minfer.Graph.SessionLoad
import Minfer.Lib.Json
import Minfer.Lib.Utf8
import Minfer.Server.Engine

namespace Minfer.Server

open Minfer.Graph Minfer.Lib

variable {Λ σ : Type}

/-- `SLOTS_SNAPSHOT_VERSION`. -/
def slotsSnapshotVersion : Nat := 1

/-- `SlotRow`. -/
structure SlotRow where
  seq : SeqId
  start : Nat
  cap : Nat
  cachedTokens : List Token
deriving Repr, DecidableEq

/-- `SlotsSnapshot`. -/
structure SlotsSnapshot where
  nSlots : Nat
  nCtxTotal : Nat
  slots : List SlotRow
deriving Repr, DecidableEq

/-- One row of the table; an id and a token are cut to 32 bits. -/
def slotRowFromJson (s : Json) : Option SlotRow := do
  let seq ← (← s.get "seq").asU64
  let start ← (← s.get "start").asU64
  let cap ← (← s.get "cap").asU64
  let cachedTokens ← (← (← s.get "cached_tokens").asArray).mapM fun t =>
    t.asU64.map (· % 2 ^ 32)
  return { seq := seq % 2 ^ 32, start, cap, cachedTokens }

/-- `slots_from_json`, over what the text parses to. -/
def slotsFromJson (fromStr : List Char → Option Json) (json : List Char) :
    Option SlotsSnapshot := do
  let v ← fromStr json
  if (← (← v.get "version").asU64) ≠ slotsSnapshotVersion then none
  let slots ← (← (← v.get "slots").asArray).mapM slotRowFromJson
  return { nSlots := ← (← v.get "n_slots").asU64
           nCtxTotal := ← (← v.get "n_ctx_total").asU64
           slots }

/-- Why a snapshot is not loaded. -/
inductive SlotsExit where
  | err (e : String)
  | panic (e : String)
deriving Repr, DecidableEq

namespace BatchEngine

/-- The loop of `load_slots` over the table's rows, from row `i` on. -/
def restoreRows (path : String) : Nat → List SlotRow → BatchEngine Λ σ →
    Except SlotsExit Unit × BatchEngine Λ σ
  | _, [], e => (.ok (), e)
  | i, row :: rest, e =>
      match e.slots[i]? with
      | none =>
          (.error (.panic
            (s!"index out of bounds: the len is {e.slots.length} " ++
              s!"but the index is {i}")), e)
      | some slot =>
          if row.seq ≠ slot.seq then
            (.error (.err
              (s!"{path}: slot {i} names sequence {row.seq}, this " ++
                s!"server reserved {slot.seq}")), e)
          else
            match e.cache.seqSlot row.seq with
            | none =>
                (.error (.err
                  (s!"{path}: slot {i} names sequence {row.seq} and the " ++
                    s!"arena has no such run")), e)
            | some restored =>
                if row.cachedTokens.length > restored.written then
                  (.error (.err
                    (s!"{path}: slot {i}'s slot table claims " ++
                      s!"{row.cachedTokens.length} token(s) but its rows " ++
                      s!"hold only {restored.written} written row(s) — the " ++
                      s!"two halves of the file disagree")), e)
                else if row.cachedTokens.length > restored.cap then
                  (.error (.err
                    (s!"{path}: slot {i} claims {row.cachedTokens.length} " ++
                      s!"token(s) in a {restored.cap}-cell reservation")), e)
                else
                  restoreRows path (i + 1) rest
                    (e.setSlot i { slot with start := restored.start
                                             cap := restored.cap
                                             cachedTokens := row.cachedTokens })

/-- `load_slots`, for a model on `backend` with `nEmbd` elements a row: the
slots and the bytes restored. -/
def loadSlots (env : LoadEnv Row) (fromStr : List Char → Option Json)
    (backend : Backend)
    (nEmbd : Nat) (e : BatchEngine Λ σ) (path : String) (file : List UInt8) :
    Except SlotsExit (Nat × Nat) × BatchEngine Λ σ :=
  match e.cache.kvLoadWithHost env path file ⟨backend, e.nCtxTotal, nEmbd⟩ with
  | (.error msg, cache) => (.error (.err msg), { e with cache })
  | (.ok (host, report), cache) =>
      let e := { e with cache }
      match slotsFromJson fromStr (fromUtf8Lossy host) with
      | none =>
          (.error (.err
            (s!"{path} carries no slot table this build understands " ++
              s!"(version {slotsSnapshotVersion} expected)")), e)
      | some snap =>
          if snap.nSlots ≠ e.slots.length then
            (.error (.err
              (s!"{path} was written by a {snap.nSlots}-slot server, " ++
                s!"this one has {e.slots.length} (--n-slots)")), e)
          else if snap.nCtxTotal ≠ e.nCtxTotal then
            (.error (.err
              (s!"{path} was written with n_ctx {snap.nCtxTotal}, " ++
                s!"this server has {e.nCtxTotal} (--n-ctx)")), e)
          else
            match restoreRows path 0 snap.slots e with
            | (.error exit, e) => (.error exit, e)
            | (.ok (), e) => (.ok (snap.slots.length, report.bytes), e)

end BatchEngine
end Minfer.Server
