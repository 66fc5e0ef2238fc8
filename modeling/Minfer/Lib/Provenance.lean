/-
Position-addressed rows that remember what they were computed from.

Every write of a row is a new identity (a stamp), and a row keeps the
identities of the rows below it at the time it was written. Removing a
span moves the later rows down; their memory still names the removed
rows, which is why a row's memory is compared up to the removed ones.
-/
import Mathlib.Data.List.Basic
import Mathlib.Data.List.Nodup
import Mathlib.Logic.Function.Basic
import Mathlib.Tactic.Common

namespace Minfer.Lib

/-- A row: its input, its identity and the rows that were below it. -/
structure Slot (T : Type) where
  input : T
  stamp : Nat
  seen : List (Option (Nat × T))
deriving Repr, DecidableEq

/-- Rows by position, the next stamp, and the stamps of removed rows. -/
structure Store (T : Type) where
  rows : Nat → Option (Slot T)
  clock : Nat
  removed : List Nat

namespace Store

variable {T : Type}

/-- The identity of a row. -/
def ident (s : Slot T) : Nat × T := (s.stamp, s.input)

/-- The identities of the rows below a position. -/
def view (st : Store T) (p : Nat) : List (Option (Nat × T)) :=
  (List.range p).map fun i => (st.rows i).map ident

/-- No rows. -/
def reset (st : Store T) : Store T := { st with rows := fun _ => none }

/-- Write a row. -/
def write (st : Store T) (p : Nat) (t : T) : Store T :=
  { st with
    rows := Function.update st.rows p (some ⟨t, st.clock, st.view p⟩)
    clock := st.clock + 1 }

/-- Write inputs at their positions, in order. -/
def writes (st : Store T) (us : List (T × Nat)) : Store T :=
  us.foldl (fun st u => st.write u.2 u.1) st

/-- Remove the rows of a span; later rows move down. -/
def remove (st : Store T) (start len : Nat) : Store T :=
  { st with
    rows := fun i => if i < start then st.rows i else st.rows (i + len)
    removed := st.removed
      ++ (List.range' start len).filterMap fun i => (st.rows i).map Slot.stamp }

/-- An identity is not that of a removed row. -/
def survives (removed : List Nat) (o : Option (Nat × T)) : Bool :=
  match o with
  | none => true
  | some (k, _) => !removed.contains k

/-- A list of rows is what the first positions hold, each one computed from
the ones before it, up to removed rows. -/
structure Live (st : Store T) (live : List (Slot T)) : Prop where
  rows : ∀ i < live.length, st.rows i = live[i]?
  fresh : ∀ s ∈ live, s.stamp < st.clock ∧ s.stamp ∉ st.removed
  past : ∀ k ∈ st.removed, k < st.clock
  nodup : (live.map Slot.stamp).Nodup
  seen : ∀ i s, live[i]? = some s →
    s.seen.filter (survives st.removed) = (live.take i).map fun s => some (ident s)

/-- The first positions hold a sequence of inputs, each row computed from the
ones before it, up to removed rows. -/
def Mirrors (st : Store T) (ts : List T) : Prop :=
  ∃ live, Live st live ∧ live.map Slot.input = ts

namespace Live

variable {st : Store T} {live : List (Slot T)}

theorem view_eq (h : Live st live) : st.view live.length = live.map fun s =>
    some (ident s) := by
  apply List.ext_getElem?
  intro i
  by_cases hi : i < live.length
  · rw [view, List.getElem?_map, List.getElem?_range hi, List.getElem?_map,
      Option.map_some, h.rows i hi, List.getElem?_eq_getElem hi]
    rfl
  · rw [List.getElem?_eq_none (by simp [view]; omega),
      List.getElem?_eq_none (by simp; omega)]

/-- Nothing live was removed. -/
theorem filter_survives (h : Live st live) :
    (live.map fun s => some (ident s)).filter (survives st.removed)
      = live.map fun s => some (ident s) := by
  apply List.filter_eq_self.mpr
  intro o ho
  obtain ⟨s, hs, rfl⟩ := List.mem_map.mp ho
  simp only [survives, ident, Bool.not_eq_true', List.contains_eq_mem,
    decide_eq_false_iff_not]
  exact (h.fresh s hs).2

theorem take (h : Live st live) (n : Nat) : Live st (live.take n) where
  rows i hi := by
    have hlen : (live.take n).length ≤ live.length := List.length_take_le' ..
    have hin : i < n := by
      rw [List.length_take] at hi
      omega
    rw [h.rows i (by omega), List.getElem?_take_of_lt hin]
  fresh s hs := h.fresh s (List.mem_of_mem_take hs)
  past := h.past
  nodup := h.nodup.sublist ((List.take_sublist n live).map _)
  seen i s hs := by
    have hin : i < n := by
      by_contra hge
      rw [List.getElem?_eq_none (by simp; omega)] at hs
      cases hs
    rw [List.getElem?_take_of_lt hin] at hs
    rw [h.seen i s hs, List.take_take, Nat.min_eq_left (Nat.le_of_lt hin)]

/-- A row written after the live ones joins them. -/
theorem write (h : Live st live) (t : T) :
    Live (st.write live.length t)
      (live ++ [⟨t, st.clock, live.map fun s => some (ident s)⟩]) where
  rows i hi := by
    rw [List.length_append, List.length_singleton] at hi
    show Function.update st.rows live.length _ i = _
    rw [h.view_eq]
    by_cases hlt : i < live.length
    · rw [Function.update_of_ne (by omega), h.rows i hlt,
        List.getElem?_append_left hlt]
    · obtain rfl : i = live.length := by omega
      rw [Function.update_self, List.getElem?_concat_length]
  fresh s hs := by
    rcases List.mem_append.mp hs with hs | hs
    · have := h.fresh s hs
      exact ⟨Nat.lt_succ_of_lt this.1, this.2⟩
    · rw [List.mem_singleton.mp hs]
      exact ⟨Nat.lt_succ_self _, fun hmem => Nat.lt_irrefl _ (h.past _ hmem)⟩
  past k hk := Nat.lt_succ_of_lt (h.past k hk)
  nodup := by
    rw [List.map_append, List.map_singleton]
    apply List.Nodup.append h.nodup (List.nodup_singleton _)
    intro k hk hk'
    obtain ⟨s, hs, rfl⟩ := List.mem_map.mp hk
    have hlt := (h.fresh s hs).1
    rw [List.mem_singleton.mp hk'] at hlt
    exact Nat.lt_irrefl _ hlt
  seen i s hs := by
    by_cases hlt : i < live.length
    · rw [List.getElem?_append_left hlt] at hs
      rw [List.take_append_of_le_length (Nat.le_of_lt hlt)]
      exact h.seen i s hs
    · have hlen := (List.getElem?_eq_some_iff.mp hs).1
      rw [List.length_append, List.length_singleton] at hlen
      obtain rfl : i = live.length := by omega
      rw [List.getElem?_concat_length] at hs
      cases hs
      rw [List.take_left]
      exact h.filter_survives

theorem reset (past : ∀ k ∈ st.removed, k < st.clock) : Live st.reset [] where
  rows i hi := absurd hi (Nat.not_lt_zero i)
  fresh s hs := absurd hs List.not_mem_nil
  past := past
  nodup := List.nodup_nil
  seen i s hs := by simp at hs

/-- The stamps a removal records are those of the live rows in the span. -/
theorem removed_stamps (h : Live st live) {start len : Nat}
    (hle : start + len ≤ live.length) :
    ((List.range' start len).filterMap fun i => (st.rows i).map Slot.stamp)
      = ((live.drop start).take len).map Slot.stamp := by
  induction len with
  | zero => simp
  | succ len ih =>
      have hlt : start + len < live.length := by omega
      rw [List.range'_1_concat, List.filterMap_append, ih (by omega),
        List.take_add_one,
        List.map_append, List.getElem?_drop, List.getElem?_eq_getElem hlt]
      simp [h.rows _ hlt, List.getElem?_eq_getElem hlt]

section Middle

variable {front cut back before : List (Slot T)} {removed : List Nat}
  {s : Slot T} {i : Nat}

theorem mem_of_kept (hs : s ∈ front ++ back) : s ∈ front ++ (cut ++ back) := by
  simp only [List.mem_append] at hs ⊢
  tauto

theorem not_mem_cut (h : Live st (front ++ (cut ++ back)))
    (hs : s ∈ front ++ back) : s.stamp ∉ cut.map Slot.stamp := by
  have hnodup := h.nodup
  rw [List.map_append, List.map_append, List.nodup_append'] at hnodup
  obtain ⟨-, hrest, hfront⟩ := hnodup
  intro hmem
  rcases List.mem_append.mp hs with hs | hs
  · exact hfront (List.mem_map_of_mem hs) (List.mem_append_left _ hmem)
  · exact (List.nodup_append'.mp hrest).2.2 hmem (List.mem_map_of_mem hs)

/-- Identities outside the cut survive its removal. -/
theorem filter_kept (h : Live st (front ++ (cut ++ back)))
    (hcut : ∀ k, k ∈ removed ↔ k ∈ st.removed ∨ k ∈ cut.map Slot.stamp)
    (hsub : ∀ s ∈ before, s ∈ front ++ back) :
    (before.map fun s => some (ident s)).filter (survives removed)
      = before.map fun s => some (ident s) := by
  apply List.filter_eq_self.mpr
  intro o ho
  obtain ⟨s, hs, rfl⟩ := List.mem_map.mp ho
  simp only [survives, ident, Bool.not_eq_true', List.contains_eq_mem,
    decide_eq_false_iff_not]
  rw [hcut]
  rintro (hmem | hmem)
  · exact (h.fresh s (mem_of_kept (hsub s hs))).2 hmem
  · exact h.not_mem_cut (hsub s hs) hmem

/-- Those of the cut do not. -/
theorem filter_cut (hcut : ∀ s ∈ cut, s.stamp ∈ removed) :
    (cut.map fun s => some (ident s)).filter (survives removed) = [] := by
  apply List.filter_eq_nil_iff.mpr
  intro o ho
  obtain ⟨s, hs, rfl⟩ := List.mem_map.mp ho
  simp [survives, ident, hcut s hs]

/-- Later removals leave what survives them of the earlier ones. -/
theorem filter_twice {old : List Nat} (hsub : ∀ k ∈ old, k ∈ removed)
    (l : List (Option (Nat × T))) :
    l.filter (survives removed)
      = (l.filter (survives old)).filter (survives removed) := by
  rw [List.filter_filter]
  apply List.filter_congr
  intro o _
  cases o with
  | none => rfl
  | some x =>
      simp only [survives, List.contains_eq_mem]
      by_cases hk : x.1 ∈ old
      · have := hsub x.1 hk
        simp [this]
      · simp [hk]

/-- The rows before a cut stay, those after it move down. -/
theorem rows_cut (h : Live st (front ++ (cut ++ back)))
    (hi : i < (front ++ back).length) :
    (st.remove front.length cut.length).rows i = (front ++ back)[i]? := by
  show (if i < front.length then st.rows i else st.rows (i + cut.length)) = _
  have hlen : (front ++ (cut ++ back)).length
      = front.length + (cut.length + back.length) := by
    rw [List.length_append, List.length_append]
  rw [List.length_append] at hi
  split
  · next hlt =>
    rw [h.rows i (by omega), List.getElem?_append_left hlt,
      List.getElem?_append_left hlt]
  · next hge =>
    rw [h.rows (i + cut.length) (by omega),
      List.getElem?_append_right (by omega),
      List.getElem?_append_right (by omega),
      List.getElem?_append_right (by omega)]
    congr 1
    omega

/-- What a kept row remembers, old removals first. -/
theorem seen_cut (h : Live st (front ++ (cut ++ back)))
    (hcut : ∀ k, k ∈ removed ↔ k ∈ st.removed ∨ k ∈ cut.map Slot.stamp)
    (hs : (front ++ back)[i]? = some s) :
    s.seen.filter (survives removed)
      = ((front ++ back).take i).map fun s => some (ident s) := by
  rw [filter_twice fun k hk => (hcut k).mpr (Or.inl hk)]
  by_cases hlt : i < front.length
  · rw [List.getElem?_append_left hlt] at hs
    have hs' : (front ++ (cut ++ back))[i]? = some s := by
      rw [List.getElem?_append_left hlt]
      exact hs
    rw [h.seen i s hs', List.take_append_of_le_length (by omega),
      List.take_append_of_le_length (by omega)]
    exact h.filter_kept hcut fun s hs =>
      List.mem_append_left _ (List.mem_of_mem_take hs)
  · rw [List.getElem?_append_right (by omega)] at hs
    have hs' : (front ++ (cut ++ back))[i + cut.length]? = some s := by
      rw [List.getElem?_append_right (by omega),
        List.getElem?_append_right (by omega), ← hs]
      congr 1
      omega
    have htake : (front ++ (cut ++ back)).take (i + cut.length)
        = front ++ (cut ++ back.take (i - front.length)) := by
      rw [List.take_append, List.take_of_length_le (by omega),
        List.take_append, List.take_of_length_le (by omega)]
      congr 3
      omega
    have hkept : (front ++ back).take i
        = front ++ back.take (i - front.length) := by
      rw [List.take_append, List.take_of_length_le (by omega)]
    rw [h.seen _ s hs', htake, hkept, List.map_append, List.map_append,
      List.filter_append, List.filter_append,
      filter_cut fun s hs => (hcut _).mpr (Or.inr (List.mem_map_of_mem hs)),
      List.nil_append, List.map_append]
    congr 1
    · exact h.filter_kept hcut fun s hs => List.mem_append_left _ hs
    · exact h.filter_kept hcut fun s hs =>
        List.mem_append_right _ (List.mem_of_mem_take hs)

/-- A removal between live rows leaves the others live. -/
theorem remove_cut (h : Live st (front ++ (cut ++ back))) :
    Live (st.remove front.length cut.length) (front ++ back) := by
  have hcut : ∀ k, k ∈ (st.remove front.length cut.length).removed
      ↔ k ∈ st.removed ∨ k ∈ cut.map Slot.stamp := by
    intro k
    have hstamps := @removed_stamps T st _ h front.length cut.length
      (by simp only [List.length_append]; omega)
    rw [List.drop_left, List.take_left] at hstamps
    show k ∈ st.removed ++ _ ↔ _
    rw [hstamps, List.mem_append]
  have hnodup := h.nodup
  rw [List.map_append, List.map_append, List.nodup_append'] at hnodup
  obtain ⟨hnfront, hnrest, hdfront⟩ := hnodup
  constructor
  · exact fun i hi => h.rows_cut hi
  · intro s hs
    have hlive := h.fresh s (mem_of_kept hs)
    refine ⟨hlive.1, fun hk => ?_⟩
    rcases (hcut _).mp hk with hk | hk
    · exact hlive.2 hk
    · exact h.not_mem_cut hs hk
  · intro k hk
    rcases (hcut k).mp hk with hk | hk
    · exact h.past k hk
    · obtain ⟨s, hs, rfl⟩ := List.mem_map.mp hk
      exact (h.fresh s
        (List.mem_append_right _ (List.mem_append_left _ hs))).1
  · rw [List.map_append]
    apply List.Nodup.append hnfront (List.nodup_append'.mp hnrest).2.1
    intro k hk hk'
    exact hdfront hk (List.mem_append_right _ hk')
  · exact fun i s hs => h.seen_cut hcut hs

end Middle

/-- A removal inside the live rows leaves the others live. -/
theorem remove (h : Live st live) {start len : Nat}
    (hle : start + len ≤ live.length) :
    Live (st.remove start len) (live.take start ++ live.drop (start + len)) := by
  have hsplit : live
      = live.take start
      ++ ((live.drop start).take len ++ live.drop (start + len)) := by
    rw [← List.drop_drop, List.take_append_drop, List.take_append_drop]
  have hfront : (live.take start).length = start := by
    rw [List.length_take]
    omega
  have hcut : ((live.drop start).take len).length = len := by
    rw [List.length_take, List.length_drop]
    omega
  rw [hsplit] at h
  have hremoved := h.remove_cut
  rwa [hfront, hcut] at hremoved

end Live

namespace Mirrors

variable {st : Store T} {ts : List T}

theorem take (h : Mirrors st ts) (n : Nat) : Mirrors st (ts.take n) := by
  obtain ⟨live, hlive, rfl⟩ := h
  exact ⟨live.take n, hlive.take n, List.map_take ..⟩

theorem past (h : Mirrors st ts) : ∀ k ∈ st.removed, k < st.clock := by
  obtain ⟨live, hlive, -⟩ := h
  exact hlive.past

theorem reset (past : ∀ k ∈ st.removed, k < st.clock) : Mirrors st.reset [] :=
  ⟨[], Live.reset past, rfl⟩

theorem write (h : Mirrors st ts) (t : T) : Mirrors (st.write ts.length t)
    (ts ++ [t]) := by
  obtain ⟨live, hlive, rfl⟩ := h
  rw [List.length_map]
  refine ⟨_, hlive.write t, ?_⟩
  rw [List.map_append]
  rfl

/-- Inputs written after a sequence extend it. -/
theorem writes {us : List T} : ∀ {st : Store T} {ts : List T}, Mirrors st ts →
    Mirrors (st.writes (us.zip (List.range' ts.length us.length))) (ts ++ us) := by
  induction us with
  | nil =>
      intro st ts h
      rw [List.append_nil]
      exact h
  | cons u us ih =>
      intro st ts h
      have hstep := ih (h.write u)
      rw [List.length_append, List.length_singleton, List.append_assoc] at hstep
      rw [List.length_cons, List.range'_succ, List.zip_cons_cons]
      exact hstep

theorem remove (h : Mirrors st ts) {start len : Nat} (hle : start + len ≤ ts.length) :
    Mirrors (st.remove start len) (ts.take start ++ ts.drop (start + len)) := by
  obtain ⟨live, hlive, rfl⟩ := h
  rw [List.length_map] at hle
  refine ⟨_, hlive.remove hle, ?_⟩
  rw [List.map_append, List.map_take, List.map_drop]

/-- What the rows hold and what they were computed from. -/
theorem row (h : Mirrors st ts) {i : Nat} (hi : i < ts.length) :
    ∃ s, st.rows i = some s ∧ ts[i]? = some s.input
      ∧ (s.seen.filter (survives st.removed)).map (Option.map Prod.snd)
        = (ts.take i).map some := by
  obtain ⟨live, hlive, rfl⟩ := h
  rw [List.length_map] at hi
  obtain ⟨s, hs⟩ : ∃ s, live[i]? = some s := ⟨_, List.getElem?_eq_getElem hi⟩
  refine ⟨s, (hlive.rows i hi).trans hs, by rw [List.getElem?_map, hs]; rfl, ?_⟩
  rw [hlive.seen i s hs, List.map_map, ← List.map_take, List.map_map]
  rfl

end Mirrors

end Store

end Minfer.Lib
