/-
Runs of the KV arena: the operations a server issues against one
allocator, as steps of a transition system.

A step is a call, together with whatever it leaves behind when it is
refused. `own` is `own_positions` together with the stores that make it
true: the forward writes one K and one V row per layer at the cell each
position resolves to, and nothing constrains the rows. A compaction is a
step only when it succeeds: one that fails half-way leaves rows and
bookkeeping apart, and its caller stops.
-/
import Minfer.Graph.Alloc

namespace Minfer.Graph

variable {ρ : Type}

namespace KvCache

/-- The arena before the first reservation: every layer's regions and
owner table have `nCtx` cells, and no sequence holds anything. -/
structure IsEmpty (c : KvCache ρ) : Prop where
  seqs : ∀ s : SeqId, c.seqs[s]? = none
  spans : ∀ s : SeqId, c.spans[s]? = none
  owner_len : ∀ (i : Nat) (l : KvLayer ρ), c.layers[i]? = some l →
    l.owner.length = c.nCtx
  k_len : ∀ (i : Nat) (l : KvLayer ρ), c.layers[i]? = some l → l.k.length = c.nCtx
  v_len : ∀ (i : Nat) (l : KvLayer ρ), c.layers[i]? = some l → l.v.length = c.nCtx

/-- The row stores of one forward: for every layer and position, the K and
V row it writes. -/
abbrev Stores (ρ : Type) := Nat → Nat → ρ × ρ

/-- Store the rows of `positions` at the cells they resolve to. -/
def storeRows (c : KvCache ρ) (seq : SeqId) (positions : List Nat)
    (rows : Stores ρ) : KvCache ρ :=
  { c with layers := c.layers.map fun i l =>
      positions.foldl (fun l pos => match c.cellOf seq pos with
        | some cell => { l with k := l.k.set cell (rows i pos).1
                                v := l.v.set cell (rows i pos).2 }
        | none => l) l }

end KvCache

/-- A call against the arena. -/
inductive ArenaOp (ρ : Type) where
  | reserve (seq : SeqId) (cap : Nat)
  | release (seq : SeqId)
  | own (seq : SeqId) (positions : List Nat) (rows : KvCache.Stores ρ)
  | share (src dst : SeqId) (rows : Nat)
  | copyPrefix (src dst : SeqId) (rows : Nat)
  | privateRow (seq : SeqId) (t : Nat)
  | defrag (need : Option Nat)
  | setCap (seq : SeqId) (cap : Nat)

namespace KvCache

/-- The state a call that returned `Ok` leaves behind. -/
def okState {α : Type} : Except String α × KvCache ρ → Option (KvCache ρ)
  | (.ok _, c) => some c
  | (.error _, _) => none

/-- One call. -/
def step (env : KvEnv) (c : KvCache ρ) : ArenaOp ρ → Option (KvCache ρ)
  | .reserve seq cap => match c.reserveSeq seq cap with
      | .ok (_, c) => some c
      | .error _ => some c
  | .release seq => some (c.releaseSeq seq).2
  | .own seq positions rows => match c.ownPositions seq positions with
      | (.ok (), c) => some (c.storeRows seq positions rows)
      | (.error _, c) => some c
  | .share src dst rows => some (c.kvSharePrefix src dst rows).2
  | .copyPrefix src dst rows => some (c.kvCopyPrefix env src dst rows).2
  | .privateRow seq t => some (c.kvPrivateRowFor env seq t).2
  | .defrag need => okState (c.kvDefrag env need)
  | .setCap seq cap => okState (c.kvSetCapWithDefrag env seq cap)

/-- A whole run of calls. -/
def runOps (env : KvEnv) : KvCache ρ → List (ArenaOp ρ) → Option (KvCache ρ)
  | c, [] => some c
  | c, op :: rest => match c.step env op with
      | some c => runOps env c rest
      | none => none

/-- Reachable from an empty arena. -/
inductive Reachable (env : KvEnv) : KvCache ρ → Prop
  | empty {c : KvCache ρ} : c.IsEmpty → Reachable env c
  | step {c c' : KvCache ρ} (op : ArenaOp ρ) :
      Reachable env c → c.step env op = some c' → Reachable env c'

/-- A computed run from an empty arena ends in a reachable state. -/
theorem reachable_of_runOps {env : KvEnv} {c c' : KvCache ρ}
    (hc : Reachable env c) {ops : List (ArenaOp ρ)}
    (hrun : runOps env c ops = some c') : Reachable env c' := by
  induction ops generalizing c with
  | nil =>
      cases hrun
      exact hc
  | cons op rest ih =>
      simp only [runOps] at hrun
      split at hrun
      next c₁ h₁ => exact ih (.step op hc h₁) hrun
      next => cases hrun

/-- A new cache with one layer registered is an empty arena. -/
theorem isEmpty_insert_new {layer nEmbd rowElems nCtx : Nat}
    {backend : Backend} {k v : List ρ} {packed : Bool} (hk : k.length = nCtx)
    (hv : v.length = nCtx) :
    (KvCache.new.insert layer backend k v nEmbd rowElems nCtx packed).IsEmpty := by
  have hlayer : ∀ (i : Nat) (l : KvLayer ρ),
      (KvCache.new.insert layer backend k v nEmbd rowElems nCtx
        packed).layers[i]? = some l →
      l.owner.length = nCtx ∧ l.k.length = nCtx ∧ l.v.length = nCtx := by
    intro i l hl
    simp only [insert, new, Std.TreeMap.getElem?_insert] at hl
    split at hl
    · cases hl
      exact ⟨List.length_replicate, hk, hv⟩
    · simp at hl
  have hn : (KvCache.new.insert layer backend k v nEmbd rowElems nCtx
      packed).nCtx = nCtx :=
    Nat.zero_max nCtx
  refine ⟨fun s => Std.TreeMap.getElem?_emptyc, fun s => Std.TreeMap.getElem?_emptyc,
    fun i l hl => ?_, fun i l hl => ?_, fun i l hl => ?_⟩
  · rw [hn, (hlayer i l hl).1]
  · rw [hn, (hlayer i l hl).2.1]
  · rw [hn, (hlayer i l hl).2.2]

end KvCache
end Minfer.Graph
