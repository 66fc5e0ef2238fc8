/-
A forward computes what the graph means: what was filled in is what the
inputs have, the execution makes of it what the evaluation does, and what is
read back are the outputs' values.
-/
import Minfer.Graph.Proofs.Execute

namespace Minfer.Graph

open GraphAllocator

namespace ComputeGraph

/-- The fills name every input. -/
def Filled {ε : Type} (g : ComputeGraph) (fills : List (String × List ε)) : Prop :=
  ∀ n, g.InputNode n → ∃ fill ∈ fills, g.inputNamed fill.1 = some n

theorem inputNamed_mem {g : ComputeGraph} {name : String} {n : NodeId}
    (h : g.inputNamed name = some n) : n ∈ g.inputs :=
  List.mem_of_find?_eq_some h

end ComputeGraph

namespace Machine

variable {ε σ : Type} {env : AllocEnv} {k : Kernels ε σ}
  {homes : Nat → NodeId → Option Backend} {g : ComputeGraph}
  {a : GraphAllocator} {m : Machine ε σ}

/-- An input's buffer is its own. -/
theorem Setup.input (hs : Setup env homes g a) {n : NodeId} (hn : g.InputNode n) :
    ∃ node r, g.nodes[n]? = some node ∧ a.nodeToBuf.lookup n = some r
      ∧ r.len = node.nElements ∧
      (n, r.key) ∈ a.handed := by
  obtain ⟨node, hnode, hinput⟩ := hn
  cases hs.mapped.laid n node hnode with
  | input pid _ buf handed => exact ⟨node, _, hnode, buf, rfl, handed⟩
  | view _ _ computed _ _ _ _ _ => rw [hinput] at computed; cases computed
  | region _ computed _ _ _ _ _ => rw [hinput] at computed; cases computed
  | own _ computed _ _ _ _ _ => rw [hinput] at computed; cases computed
  | inPlace _ _ computed _ _ _ _ _ => rw [hinput] at computed; cases computed
  | dead computed _ _ _ _ => rw [hinput] at computed; cases computed

/-- The fills: both refuse alike, or what was filled is there. -/
theorem fillInputs_agrees (hs : Setup env homes g a)
    {fills : List (String × List ε)} {vals : NodeId → List ε}
    (halloc : m.alloc = a) {F : NodeId → Prop} (hF : ∀ n, F n → g.InputNode n)
    (hread : ∀ n, F n → ∀ r, a.nodeToBuf.lookup n = some r → m.read r = vals n) :
    ∃ m', m'.alloc = a ∧ m'.inFlight = m.inFlight ∧ m'.kv = m.kv ∧
      ((∃ e, g.fillValues fills vals = .error e
        ∧ m.fillInputs g fills = (.error (.err e), m')) ∨
        ∃ vals', g.fillValues fills vals = .ok vals'
          ∧ m.fillInputs g fills = (.ok (), m') ∧
          ∀ n, (F n ∨ ∃ fill ∈ fills, g.inputNamed fill.1 = some n) →
            ∀ r, a.nodeToBuf.lookup n = some r → m'.read r = vals' n) := by
  induction fills generalizing m vals F with
  | nil =>
      refine ⟨m, halloc, rfl, rfl,
        .inr ⟨vals, rfl, rfl, fun n hn => hread n (hn.resolve_right ?_)⟩⟩
      exact fun ⟨fill, hmem, _⟩ => List.not_mem_nil hmem
  | cons fill rest ih =>
      obtain ⟨name, data⟩ := fill
      rw [ComputeGraph.fillValues, Machine.fillInputs, Machine.fillInput]
      cases hname : g.inputNamed name with
      | none => exact ⟨m, halloc, rfl, rfl, .inl ⟨_, rfl, rfl⟩⟩
      | some n =>
          have hn := hs.executable.entries n (ComputeGraph.inputNamed_mem hname)
          obtain ⟨node, r, hnode, hr, hlen, hhanded⟩ := hs.input hn
          dsimp only
          rw [halloc, hr, hnode, Option.map_some, Option.getD_some, ← hlen]
          dsimp only
          by_cases hwrong : data.length ≠ r.len
          · rw [if_pos hwrong, if_pos hwrong]
            exact ⟨m, halloc, rfl, rfl, .inl ⟨_, rfl, rfl⟩⟩
          · rw [if_neg hwrong, if_neg hwrong]
            have hpool : m.hasPool r.backend = true := by
              rw [Machine.hasPool, halloc]
              exact (hs.backend hr).2.2
            rw [hpool, Bool.not_true, if_neg Bool.false_ne_true]
            dsimp only
            have hwritten : ∀ x, F x ∨ x = n → ∀ r', a.nodeToBuf.lookup x = some r' →
                (m.write r data).read r' = Function.update vals n data x := by
              intro x hx r' hr'
              by_cases heq : x = n
              · subst heq
                rw [hr] at hr'
                cases hr'
                rw [Function.update_self]
                exact read_write (not_not.1 hwrong)
              · have hx := hx.resolve_right heq
                rw [Function.update_of_ne heq, ← hread x hx r' hr']
                obtain ⟨-, rx, -, hrx, -, hhandedx⟩ := hs.input (hF x hx)
                cases hr'.symm.trans hrx
                refine read_write_apart (.inl fun hkey => heq ?_)
                exact hs.mapped.inputsOnce hhanded hn (hkey ▸ hhandedx)
            obtain ⟨m', halloc', hflight', hkv', hend⟩ :=
              @ih (m.write r data) (Function.update vals n data) halloc
              (fun x => F x ∨ x = n)
                (fun x hx => hx.elim (hF x) fun heq => heq ▸ hn) hwritten
            refine ⟨m', halloc', hflight', hkv',
                hend.imp_right fun ⟨vals', hvals, hfill, hreads⟩ =>
              ⟨vals', hvals, hfill, fun x hx => hreads x ?_⟩⟩
            rcases hx with hx | ⟨fill, hmem, hx⟩
            · exact .inl (.inl hx)
            · rcases List.mem_cons.1 hmem with rfl | hmem
              · rw [hname] at hx
                exact .inl (.inr (Option.some.inj hx).symm)
              · exact .inr ⟨fill, hmem, hx⟩

/-- What an execution starts from. -/
theorem Running.start {vals : NodeId → List ε} (hrest : Resting k homes a m)
    (halloc : m.alloc = a) (hpending : a.crossPending = [])
    (hread : ∀ n, g.InputNode n → ∀ r, a.nodeToBuf.lookup n = some r →
      m.read r = vals n) :
    Running k homes g a 0 vals .cpu [] m where
  bufs := by rw [halloc]
  sound := hrest.sound
  active := halloc ▸ id
  pools := hrest.pools
  tidy := hrest.tidy
  values hn := hread _ (hn.present.resolve_left (Nat.not_lt_zero _)) _ hn.buf
  regions hlt := absurd hlt (Nat.not_lt_zero _)
  once := by rw [halloc, hpending]; exact List.nodup_nil
  own hmem := by
    rw [halloc, hpending] at hmem
    exact absurd hmem List.not_mem_nil
  inputs n hmem := absurd hmem List.not_mem_nil

/-- What is read back of an output is its value. -/
theorem Running.output {vals : NodeId → List ε} {b : Backend} {S : List NodeId}
    (hs : Setup env homes g a) (h : Running k homes g a g.nNodes vals b S m)
    {n : Nat} (hout : n ∈ g.outputs) (hn : n < g.nNodes) :
    m.copyToCpu env n = some (vals n) := by
  have hnode : g.nodes[n]? = some g.nodes[n] := List.getElem?_eq_getElem hn
  have hend : g.need n = g.nNodes := ComputeGraph.need_end hn (.inl hout)
  have hop := hs.executable.results n hout
  obtain ⟨r, hr⟩ : ∃ r, a.nodeToBuf.lookup n = some r := by
    cases hs.mapped.laid n _ hnode with
    | input _ _ buf _ => exact ⟨_, buf⟩
    | view _ _ _ _ _ buf _ _ => exact ⟨_, buf⟩
    | region _ _ _ _ buf _ _ => exact ⟨_, buf⟩
    | own _ _ _ _ _ buf _ => exact ⟨_, buf⟩
    | inPlace _ _ _ _ _ _ buf _ => exact ⟨_, buf⟩
    | dead _ _ _ unread _ => exact absurd (hend ▸ hn) (Nat.not_lt_of_le unread)
  obtain ⟨-, hreg, hpool⟩ := hs.backend hr
  have hhas : m.hasPool r.backend = true := h.pools _ hpool
  rw [Machine.copyToCpu, h.bufs, hr, Option.bind_some, hreg, hhas,
    Bool.and_self, if_pos rfl]
  exact congrArg some (h.values ⟨.inl hn, Nat.le_of_eq hend.symm, hr, hop⟩)

/-- A forward on an allocator that has just been mapped onto the graph. -/
theorem forward_agrees (hs : Setup env homes g a) (hk : k.Sized)
    (hrest : Resting k homes a m) (halloc : m.alloc = a)
    (hpending : a.crossPending = []) (hout : ∀ n ∈ g.outputs, n < g.nNodes)
    {fills : List (String × List ε)} (hfilled : g.Filled fills) :
    (m.forward env k g fills).1 = (g.forwardValues k fills m.kv).1 ∧
      (m.forward env k g fills).2.kv = (g.forwardValues k fills m.kv).2
        ∧ Resting k homes a (m.forward env k g fills).2 := by
  obtain ⟨m₁, halloc₁, hflight₁, hkv₁, hfill⟩ :=
    @fillInputs_agrees _ _ _ _ _ _ _ hs fills (fun _ => []) halloc
      (fun _ => False) (fun _ => False.elim) fun _ => False.elim
  have hrest₁ : Resting k homes a m₁ := by
    have hsame : m₁.alloc = m.alloc := halloc₁.trans halloc.symm
    exact ⟨hsame ▸ hrest.sound, hsame ▸ hrest.pools,
      ⟨fun hcb => hrest.tidy.away (hsame ▸ hcb), fun hfl =>
        hrest.tidy.flights (hflight₁ ▸ hfl)⟩⟩
  rw [Machine.forward, ComputeGraph.forwardValues]
  rcases hfill with ⟨e, hvals, hrun⟩ | ⟨vals, hvals, hrun, hread⟩
  · rw [hvals, hrun]
    exact ⟨rfl, hkv₁, hrest₁⟩
  · rw [hvals, hrun]
    dsimp only
    have hstart : Running k homes g a 0 vals .cpu [] m₁ :=
      .start hrest₁ halloc₁ hpending fun n hn => hread n (.inr (hfilled n hn))
    have hexec := hstart.execute hs hk
    rw [hkv₁] at hexec
    generalize m₁.execute env k true g = r at hexec
    generalize g.eval k vals m.kv = v at hexec
    cases hexec with
    | failed run regions rest =>
        rw [run]
        exact ⟨rfl, regions, rest⟩
    | ok run regions at_ =>
        obtain ⟨b, S, hend⟩ := at_
        rw [run]
        refine ⟨?_, regions, hend.resting⟩
        dsimp only
        congr 1
        exact List.map_congr_left fun n hmem => hend.output hs hmem (hout n hmem)

end Machine
end Minfer.Graph
