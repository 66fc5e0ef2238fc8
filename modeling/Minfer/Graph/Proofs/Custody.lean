/-
In whose hands a pool buffer is.

A buffer the pools have made is alive for some node, idle in the reservation
table, on its backend's free list, pinned under a persistent region, or
staged for a split boundary: never two of these at once. Everything the
allocator does moves one buffer from one hand to another, and in between
the buffer is *owed*: no table holds it (`Custody.take`, `Custody.give`).
Between two calls nothing is owed (`Sound`).
-/
import Minfer.Graph.Assign

namespace Minfer.Graph

open Lib (IdSet)

-- =============================== pools

namespace Pool

/-- The free list lists made buffers, each once. -/
structure Ok (p : Pool) : Prop where
  once : p.free.Nodup
  made : ∀ id ∈ p.free, id < p.len

/-- What a request to the pool does: a free buffer or a new one is gone from
the free list. -/
structure Gave (p : Pool) (id : Nat) (p' : Pool) : Prop where
  origin : id ∈ p.free ∨ id = p.len
  made : id < p'.len
  grows : p.len ≤ p'.len
  once : p'.free.Nodup
  left : ∀ x ∈ p'.free, x ∈ p.free ∧ x ≠ id

variable {p : Pool} {id : Nat}

/-- Filling the gap with the last id leaves the others. -/
theorem swap_spec {init : List Nat} {last : Nat} (hnd : (init ++ [last]).Nodup) :
    (((init ++ [last]).map fun x => if x = id then last else x).dropLast).Nodup ∧
      ∀ x ∈ ((init ++ [last]).map fun x => if x = id then last else x).dropLast,
        x ∈ init ++ [last] ∧ x ≠ id := by
  rw [List.map_append, List.map_singleton, List.dropLast_concat]
  obtain ⟨hinit, -, hlast⟩ := List.nodup_append.1 hnd
  have hnot : ∀ x ∈ init, x ≠ last := fun x hx => hlast x hx last List.mem_cons_self
  constructor
  · refine hinit.map_on fun x hx y hy hxy => ?_
    split at hxy <;> split at hxy
    · simp_all
    · exact absurd hxy.symm (hnot y hy)
    · exact absurd hxy (hnot x hx)
    · exact hxy
  · intro z hz
    obtain ⟨x, hx, rfl⟩ := List.mem_map.1 hz
    split
    next heq =>
      subst heq
      exact ⟨List.mem_append_right _ List.mem_cons_self, fun h => hnot x hx h.symm⟩
    next hne => exact ⟨List.mem_append_left _ hx, hne⟩

/-- A buffer that is taken leaves the free list, and only it. -/
theorem takeFree_spec (hnd : p.free.Nodup) (hid : id ∈ p.free) :
    (p.takeFree id).Nodup ∧ ∀ x ∈ p.takeFree id, x ∈ p.free ∧ x ≠ id := by
  rw [takeFree]
  by_cases hswap : p.swapRemoves = true
  · rw [if_pos hswap]
    rcases List.eq_nil_or_concat p.free with hnil | ⟨init, last, hfree⟩
    · exact absurd (hnil ▸ hid) List.not_mem_nil
    · rw [List.concat_eq_append] at hfree
      rw [hfree, List.getLast?_concat]
      exact swap_spec (hfree ▸ hnd)
  · rw [if_neg hswap]
    exact ⟨hnd.erase id, fun x hx =>
      ⟨List.mem_of_mem_erase hx, fun heq => hnd.not_mem_erase (heq ▸ hx)⟩⟩

/-- What a request for a fresh buffer gives. -/
theorem allocFresh_gave (hp : p.Ok) (size : Nat) :
    p.Gave (p.allocFresh size).1 (p.allocFresh size).2 where
  origin := .inr rfl
  made := by
    rw [allocFresh, len, len, List.length_append]
    exact Nat.lt_succ_self _
  grows := by
    rw [allocFresh, len, len, List.length_append]
    exact Nat.le_add_right ..
  once := hp.once
  left := fun x hx => ⟨hx, fun heq => Nat.lt_irrefl _ (heq ▸ hp.made x hx)⟩

/-- A buffer of the pool was free or is fresh. -/
theorem allocBuffer_gave (hp : p.Ok) (size : Nat) :
    p.Gave (p.allocBuffer size).1 (p.allocBuffer size).2 := by
  rw [allocBuffer]
  split
  next id hfind =>
    have hid := List.mem_of_find?_eq_some hfind
    obtain ⟨honce, hleft⟩ := takeFree_spec hp.once hid
    exact ⟨.inl hid, hp.made id hid, Nat.le_refl _, honce, hleft⟩
  next => exact allocFresh_gave hp size

/-- A return lists no buffer twice. -/
theorem freeBuffer_once (h : p.free.Nodup) (id : Nat) :
    (p.freeBuffer id).free.Nodup := by
  rw [freeBuffer]
  split
  · exact h
  next hnot =>
    refine List.nodup_append.2 ⟨h, List.nodup_singleton _,
      fun x hx y hy heq => hnot ?_⟩
    rw [← List.mem_singleton.1 hy, ← heq]
    exact hx

/-- What is free after a return was free, or was returned. -/
theorem mem_freeBuffer {x : Nat} (h : x ∈ (p.freeBuffer id).free) :
    x ∈ p.free ∨ x = id := by
  rw [freeBuffer] at h
  split at h
  · exact .inl h
  · exact (List.mem_append.1 h).imp_right List.mem_singleton.1

@[simp] theorem len_freeBuffer : (p.freeBuffer id).len = p.len := by
  rw [freeBuffer]
  split <;> rfl

end Pool

-- =============================== hands

/-- The hands a buffer can be in. -/
inductive Hand where
  | live
  | idle (cls : Nat)
  | free
  | pinned
  | staged (entry : CrossKey)

namespace GraphAllocator

/-- The buffer is in that hand. -/
def Holds (a : GraphAllocator) (key : BufKey) : Hand → Prop
  | .live => ∃ al, a.bufAlive.lookup key = some al
  | .idle cls => ∃ s, a.slots.lookup (key.1, cls) = some s ∧ key.2 ∈ s
  | .free => ∃ p, a.pools.lookup key.1 = some p ∧ key.2 ∈ p.free
  | .pinned => ∃ p ∈ a.persistent, (p.backend, p.id) = key
  | .staged entry => ∃ cb, a.cross.lookup entry = some cb ∧ cb.key = key

/-- Every made buffer is in one hand at most, the owed ones in none. -/
structure Custody (a : GraphAllocator) (owed : List BufKey) : Prop where
  exclusive : ∀ {key h₁ h₂}, a.Holds key h₁ → a.Holds key h₂ → h₁ = h₂
  owes : ∀ {key}, key ∈ owed → ∀ hand, ¬a.Holds key hand
  once : owed.Nodup
  made : ∀ {key hand}, a.Holds key hand → key.2 < a.poolLenOf key.1
  owedMade : ∀ {key}, key ∈ owed → key.2 < a.poolLenOf key.1
  freeOnce : ∀ {b p}, a.pools.lookup b = some p → p.free.Nodup

namespace Custody

variable {a a' : GraphAllocator} {key : BufKey} {owed : List BufKey}

/-- A buffer leaves every hand. -/
theorem take (h : a.Custody owed) (hnot : key ∉ owed)
    (hto : ∀ key' hand, a'.Holds key' hand → a.Holds key' hand ∧ key' ≠ key)
    (hmade : key.2 < a'.poolLenOf key.1) (hlen : ∀ b, a.poolLenOf b ≤ a'.poolLenOf b)
    (hfree : ∀ {b p}, a'.pools.lookup b = some p → p.free.Nodup) :
    a'.Custody (key :: owed) where
  exclusive h₁ h₂ := h.exclusive (hto _ _ h₁).1 (hto _ _ h₂).1
  owes := fun {key'} hmem hand hholds => by
    rcases List.mem_cons.1 hmem with rfl | hmem
    · exact (hto _ _ hholds).2 rfl
    · exact h.owes hmem hand (hto _ _ hholds).1
  once := List.nodup_cons.2 ⟨hnot, h.once⟩
  made hholds := Nat.lt_of_lt_of_le (h.made (hto _ _ hholds).1) (hlen _)
  owedMade := fun {key'} hmem => by
    rcases List.mem_cons.1 hmem with rfl | hmem
    · exact hmade
    · exact Nat.lt_of_lt_of_le (h.owedMade hmem) (hlen _)
  freeOnce := hfree

/-- An owed buffer goes into one hand. -/
theorem give (h : a.Custody (key :: owed)) (hand : Hand)
    (hto : ∀ key' hand', a'.Holds key' hand' → a.Holds key' hand'
      ∨ key' = key ∧ hand' = hand) (hlen : ∀ b, a.poolLenOf b ≤ a'.poolLenOf b)
    (hfree : ∀ {b p}, a'.pools.lookup b = some p → p.free.Nodup) :
    a'.Custody owed where
  exclusive := fun {key' h₁ h₂} hh₁ hh₂ => by
    rcases hto _ _ hh₁ with hold₁ | ⟨rfl, rfl⟩
    · rcases hto _ _ hh₂ with hold₂ | ⟨rfl, rfl⟩
      · exact h.exclusive hold₁ hold₂
      · exact absurd hold₁ (h.owes List.mem_cons_self _)
    · rcases hto _ _ hh₂ with hold₂ | ⟨-, rfl⟩
      · exact absurd hold₂ (h.owes List.mem_cons_self _)
      · rfl
  owes := fun {key'} hmem hand' hholds => by
    rcases hto _ _ hholds with hold | ⟨rfl, -⟩
    · exact h.owes (List.mem_cons_of_mem _ hmem) _ hold
    · exact (List.nodup_cons.1 h.once).1 hmem
  once := (List.nodup_cons.1 h.once).2
  made := fun {key' hand'} hholds => by
    refine Nat.lt_of_lt_of_le ?_ (hlen _)
    rcases hto _ _ hholds with hold | ⟨rfl, -⟩
    · exact h.made hold
    · exact h.owedMade List.mem_cons_self
  owedMade hmem :=
    Nat.lt_of_lt_of_le (h.owedMade (List.mem_cons_of_mem _ hmem)) (hlen _)
  freeOnce := hfree

/-- Custody reads the tables of the buffers only. -/
theorem congr (h : a.Custody owed) (hpools : a'.pools = a.pools)
    (hslots : a'.slots = a.slots)
    (hpersistent : a'.persistent = a.persistent) (hcross : a'.cross = a.cross)
    (halive : ∀ key, (∃ al, a'.bufAlive.lookup key = some al) →
      ∃ al, a.bufAlive.lookup key = some al) :
    a'.Custody owed := by
  have hto : ∀ {key hand}, a'.Holds key hand → a.Holds key hand := by
    intro key hand hholds
    cases hand with
    | live => exact halive key hholds
    | idle cls =>
        obtain ⟨s, hs, hin⟩ := hholds
        exact ⟨s, hslots ▸ hs, hin⟩
    | free =>
        obtain ⟨p, hp, hin⟩ := hholds
        exact ⟨p, hpools ▸ hp, hin⟩
    | pinned =>
        obtain ⟨p, hp, hkey⟩ := hholds
        exact ⟨p, hpersistent ▸ hp, hkey⟩
    | staged entry =>
        obtain ⟨cb, hcb, hkey⟩ := hholds
        exact ⟨cb, hcross ▸ hcb, hkey⟩
  have hlen : ∀ b, a'.poolLenOf b = a.poolLenOf b :=
    fun b => by rw [poolLenOf, poolLenOf, hpools]
  exact
    { exclusive := fun h₁ h₂ => h.exclusive (hto h₁) (hto h₂)
      owes := fun hmem hand hholds => h.owes hmem hand (hto hholds)
      once := h.once
      made := fun hholds => hlen _ ▸ h.made (hto hholds)
      owedMade := fun hmem => hlen _ ▸ h.owedMade hmem
      freeOnce := fun hp => h.freeOnce (hpools ▸ hp) }

/-- A buffer leaves the hand it is in, if any. -/
theorem takeFrom (h : a.Custody []) {hand₀ : Hand}
    (horigin : a.Holds key hand₀ ∨ ∀ hand, ¬a.Holds key hand)
    (hto : ∀ key' hand, a'.Holds key' hand →
      a.Holds key' hand ∧ (hand = hand₀ → key' ≠ key))
    (hmade : key.2 < a'.poolLenOf key.1) (hlen : ∀ b, a.poolLenOf b ≤ a'.poolLenOf b)
    (hfree : ∀ {b p}, a'.pools.lookup b = some p → p.free.Nodup) :
    a'.Custody [key] := by
  refine h.take List.not_mem_nil (fun key' hand hholds => ?_) hmade hlen hfree
  obtain ⟨hold, hne⟩ := hto key' hand hholds
  refine ⟨hold, fun heq => ?_⟩
  subst heq
  rcases horigin with hhas | hnone
  · exact hne (h.exclusive hold hhas) rfl
  · exact hnone hand hold

/-- A pool's free list is in order. -/
theorem poolOk (h : a.Custody owed) {b : Backend} {p : Pool}
    (hp : a.pools.lookup b = some p) :
    p.Ok where
  once := h.freeOnce hp
  made := fun id hid => by
    have hheld : a.Holds (b, id) .free := ⟨p, hp, hid⟩
    have hmade := h.made hheld
    rwa [poolLenOf, hp] at hmade

end Custody

/-- Nobody uses another buffer than before: the tables that say which node,
region or boundary has which buffer are the same. -/
structure SameUse (a a' : GraphAllocator) : Prop where
  nodeToBuf : a'.nodeToBuf = a.nodeToBuf
  bufAlive : a'.bufAlive = a.bufAlive
  cross : a'.cross = a.cross
  kv : a'.kv = a.kv
  persistent : a'.persistent = a.persistent
  handed : a'.handed = a.handed

theorem SameUse.rfl {a : GraphAllocator} : SameUse a a :=
  ⟨.refl _, .refl _, .refl _, .refl _, .refl _, .refl _⟩

-- ============================= release

section

variable {a a' : GraphAllocator} {key : BufKey} {owed : List BufKey}

theorem freeInPool_sameUse : SameUse a (a.freeInPool key) := by
  rw [freeInPool]
  split
  · exact ⟨rfl, rfl, rfl, rfl, rfl, rfl⟩
  · split
    · exact ⟨rfl, rfl, rfl, rfl, rfl, rfl⟩
    · exact .rfl

/-- Where a released buffer goes: an activation to the reservation table. -/
def freedTo (a : GraphAllocator) (key : BufKey) : Hand :=
  match a.bufClass.lookup key with
  | some cls => .idle cls
  | none => .free

theorem lookup_insert_eq {α β : Type} [DecidableEq α] (t : Table α β) (k x : α)
    (v : β) :
    (t.insert k v).lookup x = if x = k then some v else t.lookup x := by
  split
  next h => exact h ▸ AList.lookup_insert t
  next h => exact AList.lookup_insert_ne h

variable {b : Backend} {env : AllocEnv} {out : Except AllocExit Nat}
  {size : Nat}

theorem poolLenOf_insert {b' : Backend} {p : Pool} :
    ({ a with pools := a.pools.insert b p } : GraphAllocator).poolLenOf b' =
      if b' = b then p.len else a.poolLenOf b' := by
  rw [poolLenOf, lookup_insert_eq]
  split <;> rfl

/-- A return changes the hand of the returned buffer only. -/
theorem freeInPool_holds {key' : BufKey} {hand : Hand}
    (h : (a.freeInPool key).Holds key' hand) :
    a.Holds key' hand ∨ key' = key ∧ hand = a.freedTo key := by
  rw [freedTo]
  rw [freeInPool] at h
  cases hcls : a.bufClass.lookup key with
  | some cls =>
      rw [hcls] at h
      cases hand with
      | idle c =>
          obtain ⟨s, hs, hin⟩ := h
          rw [lookup_insert_eq] at hs
          split at hs
          next heq =>
            cases hs
            obtain ⟨hb, rfl⟩ := Prod.mk.inj heq
            rcases IdSet.mem_insert.1 hin with hid | hin
            · exact .inr ⟨Prod.ext hb hid, rfl⟩
            · left
              rw [← hb] at hin
              cases hslot : a.slots.lookup (key'.1, c) with
              | none =>
                  rw [hslot] at hin
                  exact absurd hin (IdSet.not_mem_empty _)
              | some s =>
                  rw [hslot] at hin
                  exact ⟨s, hslot, hin⟩
          next => exact .inl ⟨s, hs, hin⟩
      | _ => exact .inl h
  | none =>
      rw [hcls] at h
      cases hp : a.pools.lookup key.1 with
      | some p =>
          rw [hp] at h
          cases hand with
          | free =>
              obtain ⟨q, hq, hin⟩ := h
              rw [lookup_insert_eq] at hq
              split at hq
              next heq =>
                cases hq
                rcases Pool.mem_freeBuffer hin with hin | hid
                · exact .inl ⟨p, heq ▸ hp, hin⟩
                · exact .inr ⟨Prod.ext heq hid, rfl⟩
              next => exact .inl ⟨q, hq, hin⟩
          | _ => exact .inl h
      | none =>
          rw [hp] at h
          exact .inl h

@[simp] theorem freeInPool_poolLenOf (b : Backend) :
    (a.freeInPool key).poolLenOf b = a.poolLenOf b := by
  rw [freeInPool]
  split
  · rfl
  split
  next p hp =>
    rw [poolLenOf_insert]
    split
    next heq =>
      subst heq
      rw [poolLenOf, hp]
      exact Pool.len_freeBuffer
    next => rfl
  next => rfl

/-- An owed buffer is released. -/
theorem Custody.freeInPool (h : a.Custody (key :: owed)) :
    (a.freeInPool key).Custody owed := by
  refine h.give (a.freedTo key) (fun key' hand' => freeInPool_holds)
    (fun b => (freeInPool_poolLenOf b).ge) ?_
  intro b p hp
  rw [GraphAllocator.freeInPool] at hp
  split at hp
  · exact h.freeOnce hp
  split at hp
  next q hq =>
    rw [lookup_insert_eq] at hp
    split at hp
    · cases hp
      exact Pool.freeBuffer_once (h.freeOnce hq) _
    · exact h.freeOnce hp
  next => exact h.freeOnce hp

/-- Owed buffers that are returned are owed no more. -/
theorem Custody.freeAll {keys : List BufKey} (h : a.Custody keys) :
    (a.freeAll keys).Custody [] := by
  induction keys generalizing a with
  | nil => exact h
  | cons key rest ih => exact ih h.freeInPool

-- ============================ requests

/-- A buffer that nobody used was taken. -/
structure Took (a a' : GraphAllocator) (key : BufKey) :
    Prop extends SameUse a a' where
  spare : ∀ {hand}, a.Holds key hand → hand = .free ∨ ∃ cls, hand = .idle cls
  idle : ∀ {key' cls}, key' ≠ key → a.Holds key' (.idle cls) →
    a'.Holds key' (.idle cls)
  classes : ∀ {key'}, key' ≠ key → a'.bufClass.lookup key' = a.bufClass.lookup key'

/-- A buffer that was taken was no live one. -/
theorem Took.not_live (h : Took a a' key) {key' : BufKey}
    (hlive : a.Holds key' .live) :
    key' ≠ key := by
  rintro rfl
  rcases h.spare hlive with heq | ⟨cls, heq⟩ <;> cases heq

/-- A buffer that was taken was no pinned one. -/
theorem Took.not_pinned (h : Took a a' key) : ¬a.Holds key .pinned := by
  intro hpinned
  rcases h.spare hpinned with heq | ⟨cls, heq⟩ <;> cases heq

/-- A pool gives one buffer, or fails and changes nothing. -/
theorem inPool_spec {f : Pool → Nat × Pool}
    (hf : ∀ p : Pool, p.Ok → p.Gave (f p).1 (f p).2) (h : a.Custody [])
    (hreq : a.inPool env b f = (out, a')) :
    (∃ e, out = .error e ∧ a' = a) ∨
      ∃ id, out = .ok id ∧ Took a a' (b, id) ∧ a'.Custody [(b, id)]
        ∧ a'.slots = a.slots := by
  rw [inPool] at hreq
  split at hreq
  next p hp =>
    cases hreq
    obtain ⟨horigin, hmade, hgrows, honce, hleft⟩ := hf p (h.poolOk hp)
    have hlen : a.poolLenOf b = p.len := by rw [poolLenOf, hp]; rfl
    refine .inr ⟨_, rfl,
      ⟨⟨rfl, rfl, rfl, rfl, rfl, rfl⟩, fun {hand} hholds => ?_,
        fun _ hidle => hidle, fun _ => rfl⟩, ?_, rfl⟩
    · rcases horigin with hfree | hnew
      · exact .inl (h.exclusive hholds ⟨p, hp, hfree⟩)
      · exact absurd (h.made hholds) (by rw [hlen, hnew]; exact Nat.lt_irrefl _)
    · have hfrom : a.Holds (b, (f p).1) .free
          ∨ ∀ hand, ¬a.Holds (b, (f p).1) hand := by
        refine horigin.imp (fun hfree => ⟨p, hp, hfree⟩) fun hnew hand hhas => ?_
        have := h.made hhas
        rw [hlen, hnew] at this
        exact Nat.lt_irrefl _ this
      refine h.takeFrom hfrom (fun key' hand hholds => ?_) ?_ (fun b' => ?_)
        (fun {b' q} hq => ?_)
      · cases hand with
        | free =>
            obtain ⟨q, hq, hin⟩ := hholds
            rw [lookup_insert_eq] at hq
            split at hq
            next heq =>
              cases hq
              obtain ⟨hin, hne⟩ := hleft _ hin
              exact ⟨⟨p, heq ▸ hp, hin⟩, fun _ hkey => hne (congrArg Prod.snd hkey)⟩
            next hne => exact ⟨⟨q, hq, hin⟩, fun _ hkey =>
              hne (congrArg Prod.fst hkey)⟩
        | _ => exact ⟨hholds, nofun⟩
      · rw [poolLenOf_insert, if_pos rfl]
        exact hmade
      · rw [poolLenOf_insert]
        split
        next heq =>
          rw [heq, hlen]
          exact hgrows
        next => exact Nat.le_refl _
      · rw [lookup_insert_eq] at hq
        split at hq
        · cases hq
          exact honce
        · exact h.freeOnce hq
  next =>
    cases hreq
    exact .inl ⟨_, rfl, rfl⟩

/-- So does a request for an exact size. -/
theorem allocExactInPool_spec (h : a.Custody [])
    (hreq : a.allocExactInPool env b size = (out, a')) :
    (∃ e, out = .error e ∧ a' = a) ∨
      ∃ id, out = .ok id ∧ Took a a' (b, id) ∧ a'.Custody [(b, id)]
        ∧ a'.slots = a.slots :=
  inPool_spec (fun _ hp => Pool.allocBuffer_gave hp size) h hreq

/-- So does a request for a fresh buffer. -/
theorem allocFreshIn_spec (h : a.Custody [])
    (hreq : a.allocFreshIn env b size = (out, a')) :
    (∃ e, out = .error e ∧ a' = a) ∨
      ∃ id, out = .ok id ∧ Took a a' (b, id) ∧ a'.Custody [(b, id)]
        ∧ a'.slots = a.slots :=
  inPool_spec (fun _ hp => Pool.allocFresh_gave hp size) h hreq

/-- So does a request by size class. -/
theorem allocClassInPool_spec (h : a.Custody [])
    (hreq : a.allocClassInPool env b size = (out, a')) :
    (∃ e, out = .error e ∧ a' = a) ∨
      ∃ id, out = .ok id ∧ Took a a' (b, id) ∧ a'.Custody [(b, id)] := by
  rw [allocClassInPool] at hreq
  split at hreq
  next id idle hpop =>
    cases hreq
    obtain ⟨s, hs, hpop⟩ := Option.bind_eq_some_iff.1 hpop
    obtain ⟨hin, hleft⟩ := IdSet.popFirst_spec hpop
    have hidle : a.Holds (b, id) (.idle (classSize size)) := ⟨s, hs, hin⟩
    refine .inr ⟨id, rfl,
      ⟨⟨rfl, rfl, rfl, rfl, rfl, rfl⟩, fun hholds =>
        .inr ⟨_, h.exclusive hholds hidle⟩,
      fun {key' cls} hne hholds => ?_, fun _ => rfl⟩,
        h.takeFrom (.inl hidle) (fun key' hand hholds => ?_) ?_
        (fun _ => Nat.le_refl _) h.freeOnce⟩
    · obtain ⟨t, ht, hin'⟩ := hholds
      by_cases heq : (key'.1, cls) = (b, classSize size)
      · obtain ⟨hb, hcls⟩ := Prod.mk.inj heq
        rw [heq, hs] at ht
        cases ht
        refine ⟨idle, ?_, (hleft _).2 ⟨hin', fun hid => hne (Prod.ext hb hid)⟩⟩
        rw [heq]
        exact AList.lookup_insert _
      · exact ⟨t, (AList.lookup_insert_ne heq).trans ht, hin'⟩
    · cases hand with
      | idle cls =>
          obtain ⟨t, ht, hin'⟩ := hholds
          rw [lookup_insert_eq] at ht
          split at ht
          next heq =>
            cases ht
            obtain ⟨hin', hne⟩ := (hleft _).1 hin'
            exact ⟨⟨s, heq ▸ hs, hin'⟩, fun _ hkey => hne (congrArg Prod.snd hkey)⟩
          next hne =>
            refine ⟨⟨t, ht, hin'⟩, fun hcls hkey => hne ?_⟩
            rw [hkey, Hand.idle.inj hcls]
      | _ => exact ⟨hholds, nofun⟩
    · exact h.made hidle
  next =>
    rcases allocExactInPool_spec h hreq with herr | ⟨id, hout, htook, hcus, -⟩
    · exact .inl herr
    · exact .inr ⟨id, hout, htook, hcus⟩

/-- A request by size class records the class. -/
theorem allocInPool_spec (h : a.Custody [])
    (hreq : a.allocInPool env b size = (out, a')) :
    (∃ e, out = .error e ∧ a' = a) ∨
      ∃ id, out = .ok id ∧ Took a a' (b, id) ∧ a'.Custody [(b, id)] ∧
        a'.bufClass.lookup (b, id) = some (classSize size) := by
  have hallocated : ∀ want, allocInPool.allocated env size a b want = (out, a') →
      (∃ e, out = .error e ∧ a' = a) ∨
        ∃ id, out = .ok id ∧ Took a a' (b, id) ∧ a'.Custody [(b, id)] ∧
          a'.bufClass.lookup (b, id) = some (classSize size) := by
    intro want hgot
    rw [allocInPool.allocated] at hgot
    split at hgot
    next e a₁ hcls =>
      cases hgot
      rcases allocClassInPool_spec h hcls with ⟨e', he', rfl⟩ | ⟨id, hid, -⟩
      · exact .inl ⟨e, rfl, rfl⟩
      · cases hid
    next id a₁ hcls =>
      rcases allocClassInPool_spec h hcls with ⟨e', he', -⟩ | ⟨id', hid, htook, hcus⟩
      · cases he'
      · cases hid
        obtain ⟨rfl, rfl⟩ := Prod.mk.inj hgot
        refine .inr ⟨id, rfl, ?_, ?_, ?_⟩
        · split
          all_goals
            exact ⟨⟨htook.nodeToBuf, htook.bufAlive, htook.cross, htook.kv,
              htook.persistent,
              htook.handed⟩, htook.spare, htook.idle, fun hne =>
                (AList.lookup_insert_ne hne).trans (htook.classes hne)⟩
        · split
          all_goals exact hcus.congr rfl rfl rfl rfl fun _ hal => hal
        · split
          all_goals exact AList.lookup_insert _
  rw [allocInPool] at hreq
  split at hreq
  · cases hreq
    exact .inl ⟨_, rfl, rfl⟩
  · dsimp only at hreq
    split at hreq
    · split at hreq
      · cases hreq
        exact .inl ⟨_, rfl, rfl⟩
      · exact hallocated _ hreq
    · exact hallocated _ hreq

end

-- ========================= every state

/-- What holds of the allocator between calls. -/
structure Sound (a : GraphAllocator) : Prop where
  custody : a.Custody []
  classed : ∀ {key al}, a.bufAlive.lookup key = some al →
    (a.bufClass.lookup key).isSome
  regions : ∀ {layer region}, a.kv.lookup layer = some region →
    a.Holds region.k.key .pinned ∧ a.Holds region.v.key .pinned

/-- Every live buffer has a class. -/
theorem Took.classed {a a' : GraphAllocator} {key : BufKey} (h : Took a a' key)
    (ha : a.Sound)
    {key' : BufKey} {al : Nat} (hal : a'.bufAlive.lookup key' = some al) :
    (a'.bufClass.lookup key').isSome := by
  rw [h.bufAlive] at hal
  rw [h.classes (h.not_live ⟨al, hal⟩)]
  exact ha.classed hal

/-- The buffer is somebody's activation, or was: it never leaves the
activations. -/
def Active (a : GraphAllocator) (key : BufKey) : Prop :=
  a.Holds key .live ∨ ∃ cls, a.Holds key (.idle cls)

section

variable {a a' : GraphAllocator} {key : BufKey}

/-- No buffer is both active and pinned. -/
theorem Sound.active_not_pinned (h : a.Sound) (hactive : a.Active key) :
    ¬a.Holds key .pinned := by
  intro hpinned
  rcases hactive with hlive | ⟨cls, hidle⟩
  · exact nomatch h.custody.exclusive hlive hpinned
  · exact nomatch h.custody.exclusive hidle hpinned

/-- Regions may have been added; the nodes' buffers are as they were. -/
structure Keeps (a a' : GraphAllocator) : Prop where
  nodeToBuf : a'.nodeToBuf = a.nodeToBuf
  bufAlive : a'.bufAlive = a.bufAlive
  handed : a'.handed = a.handed
  slots : a'.slots = a.slots
  pinned : ∀ {key}, a.Holds key .pinned → a'.Holds key .pinned

theorem Keeps.rfl : Keeps a a := ⟨.refl _, .refl _, .refl _, .refl _, id⟩

theorem Keeps.trans {b : GraphAllocator} (h : Keeps a a') (h' : Keeps a' b) :
    Keeps a b where
  nodeToBuf := h'.nodeToBuf.trans h.nodeToBuf
  bufAlive := h'.bufAlive.trans h.bufAlive
  handed := h'.handed.trans h.handed
  slots := h'.slots.trans h.slots
  pinned hp := h'.pinned (h.pinned hp)

/-- What was active stays active. -/
theorem Keeps.active (h : Keeps a a') (hactive : a.Active key) : a'.Active key := by
  rcases hactive with ⟨al, hal⟩ | ⟨cls, s, hs, hin⟩
  · exact .inl ⟨al, h.bufAlive ▸ hal⟩
  · exact .inr ⟨cls, s, h.slots ▸ hs, hin⟩

variable {env : AllocEnv} {key' : BufKey} {n : NodeId} {upto : Nat}

/-- A persistent slot is pinned, and nothing else changes hands. -/
theorem allocPersistent_spec {name : String} {b : Backend}
    {size : Nat} {out : Except AllocExit BufRef} (h : a.Sound)
    (hreq : a.allocPersistent env name b size = (out, a')) :
    a'.Sound ∧ Keeps a a' ∧ ∀ r, out = .ok r → a'.Holds r.key .pinned := by
  rw [allocPersistent] at hreq
  split at hreq
  next e a₁ hexact =>
    cases hreq
    rcases allocExactInPool_spec h.custody hexact with ⟨e', he', rfl⟩ | ⟨id, hid, -⟩
    · exact ⟨h, .rfl, fun r hr => nomatch hr⟩
    · cases hid
  next id a₁ hexact =>
    cases hreq
    rcases allocExactInPool_spec h.custody hexact with ⟨e', he', -⟩
      | ⟨id', hid, htook, hcus, hslots⟩
    · cases he'
    cases hid
    have hpin : ∀ {key}, a.Holds key .pinned →
        ({ a₁ with persistent := a₁.persistent ++ [⟨name, b, id⟩] } :
            GraphAllocator).Holds key .pinned := by
      rintro key ⟨p, hp, hkey⟩
      exact ⟨p, List.mem_append_left _ (htook.persistent ▸ hp), hkey⟩
    refine ⟨⟨?_, fun hal => ?_, fun hr => ?_⟩,
      ⟨htook.nodeToBuf, htook.bufAlive, htook.handed, hslots, hpin⟩, ?_⟩
    · refine hcus.give .pinned (fun key' hand hholds => ?_)
        (fun _ => Nat.le_refl _) hcus.freeOnce
      cases hand with
      | pinned =>
          obtain ⟨p, hp, hkey⟩ := hholds
          rcases List.mem_append.1 hp with hp | hp
          · exact .inl ⟨p, hp, hkey⟩
          · rw [List.mem_singleton.1 hp] at hkey
            exact .inr ⟨hkey.symm, rfl⟩
      | _ => exact .inl hholds
    · exact htook.classed h hal
    · obtain ⟨hk, hv⟩ := h.regions (htook.kv ▸ hr)
      exact ⟨hpin hk, hpin hv⟩
    · rintro r ⟨⟩
      exact ⟨_, List.mem_append_right _ List.mem_cons_self, rfl⟩

/-- A layer's regions are pinned, and nothing else changes hands. -/
theorem ensureKv_spec {layer nEmbd rowElems nCtx : Nat}
    {b : Backend} {out : Except AllocExit (BufRef × BufRef)} (h : a.Sound)
    (hreq : a.ensureKv env layer b nEmbd rowElems nCtx = (out, a')) :
    a'.Sound ∧ Keeps a a' ∧ ∀ pair, out = .ok pair → a'.Holds pair.1.key .pinned := by
  rw [ensureKv] at hreq
  dsimp only at hreq
  split at hreq
  · cases hreq
    exact ⟨h, .rfl, fun pair hpair => nomatch hpair⟩
  split at hreq
  next region hregion =>
    split at hreq
    · cases hreq
      exact ⟨h, .rfl, fun pair hpair => nomatch hpair⟩
    · cases hreq
      refine ⟨h, .rfl, fun pair hpair => ?_⟩
      cases hpair
      exact (h.regions hregion).1
  split at hreq
  next e a₁ hk =>
    cases hreq
    obtain ⟨hsound, hkeeps, -⟩ := allocPersistent_spec h hk
    exact ⟨hsound, hkeeps, fun pair hpair => nomatch hpair⟩
  next k a₁ hk =>
    obtain ⟨hsound₁, hkeeps₁, hkpin⟩ := allocPersistent_spec h hk
    split at hreq
    next e a₂ hv =>
      cases hreq
      obtain ⟨hsound₂, hkeeps₂, -⟩ := allocPersistent_spec hsound₁ hv
      exact ⟨hsound₂, hkeeps₁.trans hkeeps₂, fun pair hpair => nomatch hpair⟩
    next v a₂ hv =>
      cases hreq
      obtain ⟨hsound₂, hkeeps₂, hvpin⟩ := allocPersistent_spec hsound₁ hv
      have hkpin := hkeeps₂.pinned (hkpin k rfl)
      have hkeeps := hkeeps₁.trans hkeeps₂
      refine ⟨⟨hsound₂.custody.congr rfl rfl rfl rfl fun _ hal => hal,
        hsound₂.classed, fun hr => ?_⟩,
        ⟨hkeeps.nodeToBuf, hkeeps.bufAlive, hkeeps.handed, hkeeps.slots,
          hkeeps.pinned⟩, ?_⟩
      · rw [lookup_insert_eq] at hr
        split at hr
        · cases hr
          exact ⟨hkpin, hvpin v rfl⟩
        · exact hsound₂.regions hr
      · rintro pair ⟨⟩
        exact hkpin

/-- What `alloc_in_pool` gave a node: a buffer that was no live one and no
region. -/
structure Handed (a a' : GraphAllocator) (n : NodeId) (key : BufKey)
    (deadline : Nat) : Prop where
  nodeToBuf : ∃ len, a'.nodeToBuf = a.nodeToBuf.insert n (.own key.1 key.2 len)
  bufAlive : a'.bufAlive = a.bufAlive.insert key deadline
  handed : a'.handed = a.handed ++ [(n, key)]
  persistent : a'.persistent = a.persistent
  spare : ¬a.Holds key .live ∧ ¬a.Holds key .pinned
  idle : ∀ {key' cls}, key' ≠ key → a.Holds key' (.idle cls) →
    a'.Holds key' (.idle cls)

/-- What was active stays active. -/
theorem Handed.active {deadline : Nat} (h : Handed a a' n key deadline)
    (hactive : a.Active key') : a'.Active key' := by
  by_cases heq : key' = key
  · subst heq
    exact .inl ⟨deadline, h.bufAlive ▸ AList.lookup_insert _⟩
  · rcases hactive with ⟨al, hal⟩ | ⟨cls, hidle⟩
    · exact .inl ⟨al, by rw [h.bufAlive, AList.lookup_insert_ne heq, hal]⟩
    · exact .inr ⟨cls, h.idle heq hidle⟩

/-- A node is handed a buffer, or nothing changes. -/
theorem handBuffer_spec {node : CNode}
    {deadline : Nat} {out : Except AllocExit Unit} (h : a.Sound)
    (hreq : a.handBuffer env node n deadline = (out, a')) :
    (∃ e, out = .error e ∧ a' = a) ∨
      out = .ok () ∧ a'.Sound ∧ ∃ pid, Handed a a' n (node.home, pid) deadline := by
  rw [handBuffer] at hreq
  split at hreq
  next e a₁ hpool =>
    cases hreq
    rcases allocInPool_spec h.custody hpool with ⟨e', he', rfl⟩ | ⟨id, hid, -⟩
    · exact .inl ⟨e, rfl, rfl⟩
    · cases hid
  next pid a₁ hpool =>
    cases hreq
    rcases allocInPool_spec h.custody hpool with ⟨e', he', -⟩
      | ⟨id, hid, htook, hcus, hcls⟩
    · cases he'
    cases hid
    refine .inr ⟨rfl, ⟨?_, fun {key al} hal => ?_, fun hr => ?_⟩, pid,
      ⟨⟨node.nElements, ?_⟩, ?_, ?_, htook.persistent,
      ⟨fun hlive => htook.not_live hlive rfl, htook.not_pinned⟩, htook.idle⟩⟩
    · refine hcus.give .live (fun key' hand hholds => ?_)
        (fun _ => Nat.le_refl _) hcus.freeOnce
      cases hand with
      | live =>
          obtain ⟨al, hal⟩ := hholds
          rw [lookup_insert_eq] at hal
          split at hal
          next heq => exact .inr ⟨heq, rfl⟩
          next => exact .inl ⟨al, hal⟩
      | _ => exact .inl hholds
    · rw [lookup_insert_eq] at hal
      split at hal
      next heq =>
        rw [heq, hcls]
        rfl
      next => exact htook.classed h hal
    · obtain ⟨⟨pk, hk, hkkey⟩, pv, hv, hvkey⟩ := h.regions (htook.kv ▸ hr)
      exact ⟨⟨pk, htook.persistent ▸ hk, hkkey⟩, pv, htook.persistent ▸ hv, hvkey⟩
    · rw [htook.nodeToBuf]
    · rw [htook.bufAlive]
    · rw [htook.handed]

-- ============================== sweeps

/-- Buffers were released. -/
structure Swept (a a' : GraphAllocator) (gone : BufKey → Prop) : Prop where
  nodeToBuf : a'.nodeToBuf = a.nodeToBuf
  handed : a'.handed = a.handed
  persistent : a'.persistent = a.persistent
  expired : ∀ {key}, gone key → a'.bufAlive.lookup key = none
  stays : ∀ {key}, ¬gone key → a'.bufAlive.lookup key = a.bufAlive.lookup key
  active : ∀ {key}, a.Active key → a'.Active key

/-- An activation that is released goes to the reservation table. -/
theorem freeInPool_idle {cls : Nat} (hcls : a.bufClass.lookup key = some cls) :
    (a.freeInPool key).Holds key (.idle cls) := by
  rw [freeInPool, hcls]
  exact ⟨_, AList.lookup_insert _, IdSet.mem_insert.2 (.inl rfl)⟩

/-- A buffer that is idle stays idle. -/
theorem freeInPool_keeps_idle {cls : Nat} (h : a.Holds key' (.idle cls)) :
    (a.freeInPool key).Holds key' (.idle cls) := by
  obtain ⟨s, hs, hin⟩ := h
  rw [freeInPool]
  split
  next c hc =>
    by_cases heq : (key'.1, cls) = (key.1, c)
    · refine ⟨((a.slots.lookup (key.1, c)).getD ∅).insert key.2, ?_,
        IdSet.mem_insert.2 (.inr ?_)⟩
      · rw [heq]
        exact AList.lookup_insert _
      · rw [← heq, hs]
        exact hin
    · exact ⟨s, (AList.lookup_insert_ne heq).trans hs, hin⟩
  next =>
    split
    · exact ⟨s, hs, hin⟩
    · exact ⟨s, hs, hin⟩

/-- A return changes the class of no other buffer. -/
theorem freeInPool_classes (hne : key' ≠ key) :
    (a.freeInPool key).bufClass.lookup key' = a.bufClass.lookup key' := by
  rw [freeInPool]
  split
  · exact AList.lookup_erase_ne hne
  · split
    · rfl
    · rfl

/-- One live buffer is released. -/
theorem release_spec (h : a.Sound) {al : Nat}
    (hal : a.bufAlive.lookup key = some al) :
    (({ a with bufAlive := a.bufAlive.erase key } : GraphAllocator).freeInPool
      key).Sound ∧
      Swept a (({ a with bufAlive := a.bufAlive.erase key } :
        GraphAllocator).freeInPool key)
        (· = key) := by
  set b : GraphAllocator := { a with bufAlive := a.bufAlive.erase key } with hb
  have huse : SameUse b (b.freeInPool key) := freeInPool_sameUse
  obtain ⟨cls, hcls⟩ := Option.isSome_iff_exists.1 (h.classed hal)
  have hlive : a.Holds key .live := ⟨al, hal⟩
  have halive : ∀ {key'}, key' ≠ key →
      (b.freeInPool key).bufAlive.lookup key' = a.bufAlive.lookup key' := by
    intro key' hne
    rw [huse.bufAlive]
    exact AList.lookup_erase_ne hne
  have hexpired : (b.freeInPool key).bufAlive.lookup key = none := by
    rw [huse.bufAlive]
    exact AList.lookup_erase ..
  refine ⟨⟨?_, fun {key' al'} hal' => ?_, fun hr => ?_⟩, huse.nodeToBuf,
    huse.handed, huse.persistent, ?_, halive, fun {key'} hactive => ?_⟩
  · refine Custody.freeInPool
      (h.custody.takeFrom (.inl hlive) (fun key' hand hholds => ?_)
      (h.custody.made hlive) (fun _ => Nat.le_refl _) h.custody.freeOnce)
    cases hand with
    | live =>
        obtain ⟨al', hal'⟩ := hholds
        by_cases hne : key' = key
        · rw [hne] at hal'
          exact absurd hal' (by rw [AList.lookup_erase]; exact nofun)
        · exact ⟨⟨al', (AList.lookup_erase_ne hne).symm.trans hal'⟩, fun _ => hne⟩
    | _ => exact ⟨hholds, nofun⟩
  · by_cases hne : key' = key
    · rw [hne, hexpired] at hal'
      cases hal'
    · rw [freeInPool_classes hne]
      exact h.classed ((halive hne).symm.trans hal')
  · obtain ⟨⟨pk, hk, hkkey⟩, pv, hv, hvkey⟩ := h.regions (huse.kv ▸ hr)
    exact ⟨⟨pk, huse.persistent ▸ hk, hkkey⟩, pv, huse.persistent ▸ hv, hvkey⟩
  · rintro key' rfl
    exact hexpired
  · by_cases hne : key' = key
    · rw [hne]
      exact .inr ⟨cls, freeInPool_idle hcls⟩
    · rcases hactive with ⟨al', hal'⟩ | ⟨c, hidle⟩
      · exact .inl ⟨al', (halive hne).trans hal'⟩
      · exact .inr ⟨c, freeInPool_keeps_idle hidle⟩

/-- The buffers of a list are released. -/
theorem releaseAll_spec {keys : List BufKey} (h : a.Sound) (hnd : keys.Nodup)
    (hlive : ∀ key ∈ keys, ∃ al, a.bufAlive.lookup key = some al) :
    (keys.foldl (fun a key =>
      ({ a with bufAlive := a.bufAlive.erase key } : GraphAllocator).freeInPool
      key) a).Sound ∧
      Swept a (keys.foldl (fun a key =>
        ({ a with bufAlive := a.bufAlive.erase key } :
          GraphAllocator).freeInPool key) a) (· ∈ keys) := by
  induction keys generalizing a with
  | nil => exact ⟨h, rfl, rfl, rfl, fun hmem => absurd hmem List.not_mem_nil,
      fun _ => rfl, id⟩
  | cons key rest ih =>
      obtain ⟨hnot, hnd⟩ := List.nodup_cons.1 hnd
      obtain ⟨al, hal⟩ := hlive key List.mem_cons_self
      obtain ⟨hsound, hone⟩ := release_spec h hal
      have hrest : ∀ key' ∈ rest, ∃ al,
          ((({ a with bufAlive := a.bufAlive.erase key } :
            GraphAllocator).freeInPool
          key).bufAlive.lookup key') = some al := by
        intro key' hmem
        have hne : key' ≠ key := fun heq => hnot (heq ▸ hmem)
        obtain ⟨al', hal'⟩ := hlive key' (List.mem_cons_of_mem _ hmem)
        exact ⟨al', (hone.stays hne).trans hal'⟩
      obtain ⟨hsound', hall⟩ := ih hsound hnd hrest
      refine ⟨hsound', hall.nodeToBuf.trans hone.nodeToBuf,
        hall.handed.trans hone.handed,
        hall.persistent.trans hone.persistent, fun {key'} hmem =>
          ?_, fun {key'} hnot' => ?_,
        fun hactive => hall.active (hone.active hactive)⟩
      · by_cases hin : key' ∈ rest
        · exact hall.expired hin
        · rw [List.foldl_cons, hall.stays hin]
          exact hone.expired ((List.mem_cons.1 hmem).resolve_right hin)
      · obtain ⟨hne, hnot'⟩ := not_or.1 (mt List.mem_cons.2 hnot')
        rw [List.foldl_cons, hall.stays hnot', hone.stays hne]

/-- A sweep releases the buffers whose deadline has passed. -/
theorem sweep_spec (h : a.Sound) (i : Nat) :
    (a.sweep i).Sound ∧ Swept a (a.sweep i) fun key =>
      ∃ al, a.bufAlive.lookup key = some al ∧ al < i := by
  have hmem : ∀ key,
      key ∈ (a.bufAlive.keys.filter fun key =>
        (a.bufAlive.lookup key).any (· < i)) ↔
      ∃ al, a.bufAlive.lookup key = some al ∧ al < i := by
    intro key
    rw [List.mem_filter, ← AList.mem_keys, ← AList.lookup_isSome]
    cases a.bufAlive.lookup key with
    | none => simp
    | some al => simp
  obtain ⟨hsound, hswept⟩ := releaseAll_spec h (a.bufAlive.keys_nodup.filter _)
    fun key hin => (((hmem key).1 hin).imp fun _ hal => hal.1)
  refine ⟨hsound, hswept.nodeToBuf, hswept.handed, hswept.persistent,
    fun hgone => hswept.expired ((hmem _).2 hgone),
    fun hnot => hswept.stays (mt (hmem _).1 hnot), hswept.active⟩

-- ========================== extensions

/-- Some deadlines moved back; the buffers of the grown nodes last until
`upto`. -/
structure Extended (a a' : GraphAllocator) (grown : List NodeId) (upto : Nat) :
    Prop where
  same : a' = { a with bufAlive := a'.bufAlive }
  grows : ∀ {key al}, a.bufAlive.lookup key = some al →
    ∃ al', a'.bufAlive.lookup key = some al' ∧ al ≤ al'
  only : ∀ {key al'}, a'.bufAlive.lookup key = some al' →
    ∃ al, a.bufAlive.lookup key = some al
  covers : ∀ {n r al'}, n ∈ grown → a.nodeToBuf.lookup n = some r →
    a'.bufAlive.lookup r.key = some al' → upto ≤ al'

/-- One deadline is moved back. -/
theorem extendOne_spec : Extended a
    (a.extendOne upto n) [n] upto := by
  rw [extendOne]
  split
  next hnone =>
    refine ⟨rfl, fun hal => ⟨_, hal, Nat.le_refl _⟩, fun hal => ⟨_, hal⟩,
      fun hmem hr => ?_⟩
    rw [List.mem_singleton.1 hmem, hnone] at hr
    cases hr
  next br hbr =>
    split
    next hdead =>
      refine ⟨rfl, fun hal => ⟨_, hal, Nat.le_refl _⟩, fun hal => ⟨_, hal⟩,
        fun hmem hr hal' => ?_⟩
      rw [List.mem_singleton.1 hmem, hbr] at hr
      cases hr
      rw [hdead] at hal'
      cases hal'
    next al hal =>
      refine ⟨rfl, fun {key al₀} hal₀ => ?_, fun {key al'} hal' => ?_,
        fun {m r al'} hmem hr hal' => ?_⟩
      · by_cases heq : key = br.key
        · rw [heq] at hal₀ ⊢
          rw [hal] at hal₀
          cases hal₀
          exact ⟨_, AList.lookup_insert _, Nat.le_max_left ..⟩
        · exact ⟨al₀, (AList.lookup_insert_ne heq).trans hal₀, Nat.le_refl _⟩
      · by_cases heq : key = br.key
        · exact ⟨al, heq ▸ hal⟩
        · exact ⟨al', (AList.lookup_insert_ne heq).symm.trans hal'⟩
      · rw [List.mem_singleton.1 hmem, hbr] at hr
        cases hr
        rw [AList.lookup_insert] at hal'
        cases hal'
        exact Nat.le_max_right ..

/-- So are the deadlines of a list. -/
theorem extendBufferAlive_spec {grown : List NodeId} :
    Extended a (a.extendBufferAlive grown upto) grown upto := by
  rw [extendBufferAlive]
  induction grown generalizing a with
  | nil =>
      exact ⟨rfl, fun hal => ⟨_, hal, Nat.le_refl _⟩, fun hal => ⟨_, hal⟩,
        fun hmem => absurd hmem List.not_mem_nil⟩
  | cons n rest ih =>
      have hone : Extended a (a.extendOne upto n) [n] upto := extendOne_spec
      have hrest : Extended (a.extendOne upto n)
        (rest.foldl (extendOne upto) (a.extendOne upto n)) rest upto := ih
      have hnodes : (a.extendOne upto n).nodeToBuf = a.nodeToBuf := by rw [hone.same]
      rw [List.foldl_cons]
      refine ⟨?_, fun hal => ?_, fun hal => ?_, fun {m r al'} hmem hr hal' => ?_⟩
      · rw [hrest.same, hone.same]
      · obtain ⟨al₁, hal₁, hle₁⟩ := hone.grows hal
        obtain ⟨al₂, hal₂, hle₂⟩ := hrest.grows hal₁
        exact ⟨al₂, hal₂, Nat.le_trans hle₁ hle₂⟩
      · obtain ⟨al₁, hal₁⟩ := hrest.only hal
        exact hone.only hal₁
      · rcases List.mem_cons.1 hmem with rfl | hmem
        · obtain ⟨al₁, hal₁⟩ := hrest.only hal'
          obtain ⟨al₂, hal₂, hle⟩ := hrest.grows hal₁
          rw [hal'] at hal₂
          cases hal₂
          exact Nat.le_trans (hone.covers List.mem_cons_self hr hal₁) hle
        · exact hrest.covers hmem (hnodes ▸ hr) hal'

/-- Later deadlines keep the allocator sound. -/
theorem Extended.sound {grown : List NodeId}
    (h : Extended a a' grown upto) (hsound : a.Sound) : a'.Sound := by
  have hsame := h.same
  have honly : ∀ key, (∃ al, a'.bufAlive.lookup key = some al) →
      ∃ al, a.bufAlive.lookup key = some al :=
    fun key hal => h.only hal.choose_spec
  generalize a'.bufAlive = alive at hsame honly
  subst hsame
  exact ⟨hsound.custody.congr rfl rfl rfl rfl honly, fun {key al} hal =>
    hsound.classed (honly key ⟨al, hal⟩).choose_spec, hsound.regions⟩

-- ============================= restart

theorem freeInPool_bufAlive (alive : Table BufKey Nat) :
    ({ a with bufAlive := alive } : GraphAllocator).freeInPool key =
      { a.freeInPool key with bufAlive := alive } := by
  rw [freeInPool, freeInPool]
  dsimp only
  split
  · rfl
  · split
    · rfl
    · rfl

theorem freeAll_bufAlive (keys : List BufKey) (alive : Table BufKey Nat) :
    ({ a with bufAlive := alive } : GraphAllocator).freeAll keys =
      { a.freeAll keys with bufAlive := alive } := by
  induction keys generalizing a with
  | nil => rfl
  | cons key rest ih =>
      rw [freeAll, List.foldl_cons, freeInPool_bufAlive]
      exact ih

theorem freeAll_sameUse {keys : List BufKey} : SameUse a (a.freeAll keys) := by
  induction keys generalizing a with
  | nil => exact .rfl
  | cons key rest ih =>
      have hone : SameUse a (a.freeInPool key) := freeInPool_sameUse
      have hrest : SameUse (a.freeInPool key) ((a.freeInPool key).freeAll rest) := ih
      exact ⟨hrest.nodeToBuf.trans hone.nodeToBuf,
        hrest.bufAlive.trans hone.bufAlive, hrest.cross.trans hone.cross,
        hrest.kv.trans hone.kv, hrest.persistent.trans hone.persistent,
        hrest.handed.trans hone.handed⟩

/-- Forgetting the deadlines of all live buffers owes them all. -/
theorem Custody.oweAll (h : a.Custody []) :
    ({ a with bufAlive := ∅ } : GraphAllocator).Custody a.bufAlive.keys := by
  have hto : ∀ {key hand},
      ({ a with bufAlive := ∅ } : GraphAllocator).Holds key hand →
      a.Holds key hand ∧ hand ≠ .live := by
    intro key hand hholds
    cases hand with
    | live =>
        obtain ⟨al, hal⟩ := hholds
        exact absurd hal (by rw [AList.lookup_empty]; exact nofun)
    | _ => exact ⟨hholds, nofun⟩
  have hlive : ∀ {key}, key ∈ a.bufAlive.keys → a.Holds key .live := fun hmem =>
    Option.isSome_iff_exists.1 (AList.lookup_isSome.2 (AList.mem_keys.2 hmem))
  exact
    { exclusive := fun h₁ h₂ => h.exclusive (hto h₁).1 (hto h₂).1
      owes := fun hmem hand hholds =>
        (hto hholds).2 (h.exclusive (hto hholds).1 (hlive hmem))
      once := a.bufAlive.keys_nodup
      made := fun hholds => h.made (hto hholds).1
      owedMade := fun hmem => h.made (hlive hmem)
      freeOnce := h.freeOnce }

/-- A restart keeps the allocator sound. -/
theorem restart_sound (h : a.Sound) : a.restart.Sound := by
  have huse : SameUse a (a.freeAll a.bufAlive.keys) := freeAll_sameUse
  refine ⟨?_, fun hal => ?_, fun hr => ?_⟩
  · have hcus :
        (({ a with bufAlive := ∅ } : GraphAllocator).freeAll
          a.bufAlive.keys).Custody [] :=
      h.custody.oweAll.freeAll
    rw [freeAll_bufAlive] at hcus
    exact hcus.congr rfl rfl rfl rfl fun _ hal => hal
  · rw [restart, AList.lookup_empty] at hal
    cases hal
  · obtain ⟨⟨pk, hk, hkkey⟩, pv, hv, hvkey⟩ := h.regions (huse.kv ▸ hr)
    exact ⟨⟨pk, huse.persistent ▸ hk, hkkey⟩, pv, huse.persistent ▸ hv, hvkey⟩

/-- The nodes' buffers are no part of it. -/
theorem Sound.named (h : a.Sound) (nodeToBuf : Table NodeId BufRef) :
    ({ a with nodeToBuf := nodeToBuf } : GraphAllocator).Sound :=
  ⟨h.custody.congr rfl rfl rfl rfl fun _ hal => hal, h.classed, h.regions⟩

end

end GraphAllocator
end Minfer.Graph
