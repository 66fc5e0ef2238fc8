/-
Tensor sizes of an accepted file (`gguf.rs`).

The parser's tests bound the number of elements and the number of bytes,
so the strides and `nbytes` are exact. `ggml_nbytes`, which the range test
reads, multiplies the row length by the block's bytes before it divides by
the block's elements; for a blocked type that product may wrap.
-/
import Minfer.Gguf.Parse
import Mathlib.Tactic.Ring
import Mathlib.Tactic.Linarith

namespace Minfer.Gguf

open Minfer.Lib (leNat leBytes signed)

-- =========================== inversion

namespace Parse

variable {α β : Type}
variable {r s : GgufReader}

theorem bind_eq_ok {x : Parse α} {f : α → Parse β} {b : β} :
    (x >>= f) r = .ok (b, s) ↔ ∃ a t, x r = .ok (a, t) ∧ f a t = .ok (b, s) := by
  show StateT.bind x f r = _ ↔ _
  unfold StateT.bind
  cases h : x r with
  | error e =>
      constructor
      · intro h'
        cases h'
      · rintro ⟨a, t, h', -⟩
        cases h'
  | ok out =>
      obtain ⟨a, t⟩ := out
      constructor
      · exact fun h' => ⟨a, t, rfl, h'⟩
      · rintro ⟨a', t', h', hf⟩
        cases h'
        exact hf

theorem pure_eq_ok {a b : α} :
    (pure a : Parse α) r = .ok (b, s) ↔ a = b ∧ r = s := by
  show Except.ok (a, r) = Except.ok (b, s) ↔ _
  simp

theorem stop_eq_ok {st : Stop} {b : α} :
    (stop st : Parse α) r = .ok (b, s) ↔ False := by
  constructor
  · intro h
    cases h
  · exact False.elim

theorem ensure_eq_ok {st : Stop} {p : Prop} [Decidable p] {u : Unit} :
    ensure st p r = .ok (u, s) ↔ p ∧ r = s := by
  unfold ensure
  by_cases hp : p
  · rw [if_pos hp, pure_eq_ok]
    simp [hp]
  · rw [if_neg hp, stop_eq_ok]
    simp [hp]

theorem lift_eq_ok {x : Except Stop α} {b : α} :
    (StateT.lift x : Parse α) r = .ok (b, s) ↔ x = .ok b ∧ r = s := by
  cases x with
  | error e =>
      constructor
      · intro h
        cases h
      · rintro ⟨h, -⟩
        cases h
  | ok a =>
      show Except.ok (a, r) = Except.ok (b, s) ↔ _
      simp

end Parse

-- ========================== arithmetic

theorem wrapI64_of_lt {x : Int} (h0 : 0 ≤ x) (h : x < 2 ^ 63) : wrapI64 x = x := by
  unfold wrapI64
  omega

theorem asU64_of_lt {n : Nat} (h : n < 2 ^ 64) : asU64 (n : Int) = n := by
  unfold asU64
  omega

theorem wrap64_of_lt {n : Nat} (h : n < 2 ^ 64) : wrap64 n = n := Nat.mod_eq_of_lt h

/-- A quotient test keeps a product, and the divisor, below the limit. -/
theorem mul_lt_of_lt_div {a b : Nat} (h : (a : Int) < i64Max / (b : Int)) :
    a * b < 2 ^ 63 ∧ b < 2 ^ 63 := by
  have hdiv : i64Max / (b : Int) = (((2 ^ 63 - 1) / b : Nat) : Int) := by
    rw [Int.natCast_ediv]
    rfl
  rw [hdiv] at h
  have hlt : a < (2 ^ 63 - 1) / b := by exact_mod_cast h
  have hle : a * b ≤ 2 ^ 63 - 1 := by
    calc a * b ≤ (2 ^ 63 - 1) / b * b := Nat.mul_le_mul_right b (Nat.le_of_lt hlt)
      _ ≤ 2 ^ 63 - 1 := Nat.div_mul_le_self ..
  refine ⟨by omega, ?_⟩
  by_contra hge
  rw [Nat.div_eq_of_lt (by omega)] at hlt
  omega

variable {n0 n1 n2 n3 : Nat} {info : GgufTensorInfo} {type : GgmlType}

/-- The product of a shape whose partial products are representable. -/
theorem neProduct_natCast (hrows : n0 * n1 < 2 ^ 63)
    (hplanes : n0 * n1 * n2 < 2 ^ 63) (helements : n0 * n1 * n2 * n3 < 2 ^ 63) :
    neProduct ((n0 : Int), (n1 : Int), (n2 : Int), (n3 : Int))
      = ((n0 * n1 * n2 * n3 : Nat) : Int) := by
  have h1 : wrapI64 ((n0 : Int) * n1) = ((n0 * n1 : Nat) : Int) := by
    rw [← Int.natCast_mul]
    exact wrapI64_of_lt (Int.natCast_nonneg _) (by exact_mod_cast hrows)
  have h2 : wrapI64 (((n0 * n1 : Nat) : Int) * n2)
      = ((n0 * n1 * n2 : Nat) : Int) := by
    rw [← Int.natCast_mul]
    exact wrapI64_of_lt (Int.natCast_nonneg _) (by exact_mod_cast hplanes)
  have h3 : wrapI64 (((n0 * n1 * n2 : Nat) : Int) * n3)
      = ((n0 * n1 * n2 * n3 : Nat) : Int) := by
    rw [← Int.natCast_mul]
    exact wrapI64_of_lt (Int.natCast_nonneg _) (by exact_mod_cast helements)
  show wrapI64 (wrapI64 (wrapI64 ((n0 : Int) * n1) * n2) * n3) = _
  rw [h1, h2, h3]

theorem le_u64Max_div {a b : Nat} (h : a ≤ u64Max / b) : a * b < 2 ^ 64 := by
  have hle : a * b ≤ u64Max := by
    calc a * b ≤ u64Max / b * b := Nat.mul_le_mul_right b h
      _ ≤ u64Max := Nat.div_mul_le_self u64Max b
  exact Nat.lt_of_le_of_lt hle (by unfold u64Max; norm_num)

-- ============================== shapes

/-- A shape, as natural numbers, that passed the parser's tests: whole
blocks in a row, and a representable size. -/
structure Sized (type : GgmlType) (n0 n1 n2 n3 : Nat) : Prop where
  pos1 : 0 < n1
  pos2 : 0 < n2
  pos3 : 0 < n3
  lt1 : n1 < 2 ^ 63
  lt2 : n2 < 2 ^ 63
  lt3 : n3 < 2 ^ 63
  rows : n0 * n1 < 2 ^ 63
  planes : n0 * n1 * n2 < 2 ^ 63
  elements : n0 * n1 * n2 * n3 < 2 ^ 63
  blocks : type.blckSize ∣ n0
  bytes : n0 * n1 * n2 * n3 / type.blckSize * type.typeSize < 2 ^ 64

namespace Sized

variable {type : GgmlType} {n0 n1 n2 n3 : Nat}

theorem neProduct_eq (h : Sized type n0 n1 n2 n3) :
    neProduct ((n0 : Int), (n1 : Int), (n2 : Int), (n3 : Int))
      = ((n0 * n1 * n2 * n3 : Nat) : Int) :=
  neProduct_natCast h.rows h.planes h.elements

/-- The bytes of one row. -/
def rowBytes (type : GgmlType) (n0 : Nat) : Nat :=
  type.typeSize * (n0 / type.blckSize)

theorem total_eq (h : Sized type n0 n1 n2 n3) :
    n0 * n1 * n2 * n3 / type.blckSize * type.typeSize
      = rowBytes type n0 * n1 * n2 * n3 := by
  obtain ⟨k, hk⟩ := h.blocks
  have hb := type.blckSize_pos
  unfold rowBytes
  rw [hk, Nat.mul_div_cancel_left k hb, Nat.mul_assoc, Nat.mul_assoc,
    Nat.mul_assoc, Nat.mul_div_cancel_left _ hb]
  ring

/-- The partial products of the strides stay below the tensor's size. -/
theorem total_lt (h : Sized type n0 n1 n2 n3) :
    rowBytes type n0 < 2 ^ 64 ∧ rowBytes type n0 * n1 < 2 ^ 64
      ∧ rowBytes type n0 * n1 * n2 < 2 ^ 64
      ∧ rowBytes type n0 * n1 * n2 * n3 < 2 ^ 64 := by
  have htotal := h.bytes
  rw [h.total_eq] at htotal
  have h3 : rowBytes type n0 * n1 * n2 ≤ rowBytes type n0 * n1 * n2 * n3 :=
    Nat.le_mul_of_pos_right _ h.pos3
  have h2 : rowBytes type n0 * n1 ≤ rowBytes type n0 * n1 * n2 :=
    Nat.le_mul_of_pos_right _ h.pos2
  have h1 : rowBytes type n0 ≤ rowBytes type n0 * n1 :=
    Nat.le_mul_of_pos_right _ h.pos1
  omega

end Sized

/-- A tensor record that passed the parser's tests. -/
def Measured (info : GgufTensorInfo) : Prop :=
  ∃ n0 n1 n2 n3 : Nat, info.ne = ((n0 : Int), (n1 : Int), (n2 : Int), (n3 : Int))
    ∧ Sized info.type n0 n1 n2 n3 ∧ info.nb = Parse.strides info.type info.ne

/-- The byte size of a tensor, in unbounded integers. -/
def trueBytes (info : GgufTensorInfo) : Int :=
  info.ne.1 * info.ne.2.1 * info.ne.2.2.1 * info.ne.2.2.2 / info.type.blckSize
    * info.type.typeSize

theorem trueBytes_eq
    (hne : info.ne = ((n0 : Int), (n1 : Int), (n2 : Int), (n3 : Int))) :
    trueBytes info
      = ((n0 * n1 * n2 * n3 / info.type.blckSize * info.type.typeSize : Nat) :
        Int) := by
  unfold trueBytes
  rw [hne]
  push_cast
  rfl

/-- `nbytes` is exact. -/
theorem nbytes_eq
    (hne : info.ne = ((n0 : Int), (n1 : Int), (n2 : Int), (n3 : Int)))
    (h : Sized info.type n0 n1 n2 n3) :
    info.nbytes = n0 * n1 * n2 * n3 / info.type.blckSize * info.type.typeSize := by
  unfold GgufTensorInfo.nbytes
  have hdiv : ((n0 * n1 * n2 * n3 : Nat) : Int).tdiv (info.type.blckSize : Int)
      = ((n0 * n1 * n2 * n3 / info.type.blckSize : Nat) : Int) := by
    rw [Int.tdiv_eq_ediv_of_nonneg (Int.natCast_nonneg _), Int.natCast_ediv]
  have hlt : n0 * n1 * n2 * n3 / info.type.blckSize < 2 ^ 64 := by
    have := h.elements
    have := Nat.div_le_self (n0 * n1 * n2 * n3) info.type.blckSize
    omega
  rw [hne, h.neProduct_eq, hdiv, asU64_of_lt hlt]
  exact wrap64_of_lt h.bytes

/-- The strides are exact. -/
theorem strides_eq (h : Sized type n0 n1 n2 n3) :
    Parse.strides type ((n0 : Int), (n1 : Int), (n2 : Int), (n3 : Int))
      = (type.typeSize, Sized.rowBytes type n0, Sized.rowBytes type n0 * n1,
        Sized.rowBytes type n0 * n1 * n2) := by
  obtain ⟨hr, h1, h2, -⟩ := h.total_lt
  have h0 : n0 / type.blckSize < 2 ^ 64 := by
    have := h.rows
    have := Nat.le_mul_of_pos_right n0 h.pos1
    have := Nat.div_le_self n0 type.blckSize
    omega
  have hdiv : (n0 : Int).tdiv (type.blckSize : Int)
      = ((n0 / type.blckSize : Nat) : Int) := by
    rw [Int.tdiv_eq_ediv_of_nonneg (Int.natCast_nonneg _), Int.natCast_ediv]
  have hlt1 := h.lt1
  have hlt2 := h.lt2
  have hnb1 : wrap64 (type.typeSize * asU64 ((n0 : Int).tdiv (type.blckSize : Int)))
      = Sized.rowBytes type n0 := by
    rw [hdiv, asU64_of_lt h0]
    exact wrap64_of_lt hr
  simp only [Parse.strides, hnb1]
  rw [asU64_of_lt (show n1 < 2 ^ 64 by omega),
    asU64_of_lt (show n2 < 2 ^ 64 by omega),
    wrap64_of_lt h1, wrap64_of_lt h2]

/-- What the strides add to the size of the first row: the rest of the
tensor, with no wrap on the way. -/
theorem tail_eq {R start : Nat} (h1 : 0 < n1) (h2 : 0 < n2) (h3 : 0 < n3)
    (hlt1 : n1 < 2 ^ 63) (hlt2 : n2 < 2 ^ 63) (hlt3 : n3 < 2 ^ 63)
    (htotal : R * n1 * n2 * n3 < 2 ^ 64) (hstart : start ≤ R) :
    wrap64 (wrap64 (wrap64 (start + wrap64 (asU64 ((n1 : Int) - 1) * R))
        + wrap64 (asU64 ((n2 : Int) - 1) * (R * n1)))
        + wrap64 (asU64 ((n3 : Int) - 1) * (R * n1 * n2)))
      = start + (R * n1 * n2 * n3 - R) := by
  obtain ⟨m1, rfl⟩ : ∃ m, n1 = m + 1 := ⟨n1 - 1, by omega⟩
  obtain ⟨m2, rfl⟩ : ∃ m, n2 = m + 1 := ⟨n2 - 1, by omega⟩
  obtain ⟨m3, rfl⟩ : ∃ m, n3 = m + 1 := ⟨n3 - 1, by omega⟩
  have hpred (m : Nat) (h : m + 1 < 2 ^ 63) : asU64 (((m + 1 : Nat) : Int) - 1)
      = m := by
    rw [show ((m + 1 : Nat) : Int) - 1 = (m : Int) by push_cast; ring]
    exact asU64_of_lt (by omega)
  rw [hpred m1 hlt1, hpred m2 hlt2, hpred m3 hlt3]
  -- the three sums of the walk
  have e1 : R * (m1 + 1) = R + m1 * R := by ring
  have e2 : R * (m1 + 1) * (m2 + 1) = R * (m1 + 1) + m2 * (R * (m1 + 1)) := by ring
  have e3 : R * (m1 + 1) * (m2 + 1) * (m3 + 1)
      = R * (m1 + 1) * (m2 + 1) + m3 * (R * (m1 + 1) * (m2 + 1)) := by ring
  rw [wrap64_of_lt (show m1 * R < 2 ^ 64 by omega),
    wrap64_of_lt (show m2 * (R * (m1 + 1)) < 2 ^ 64 by omega),
    wrap64_of_lt (show m3 * (R * (m1 + 1) * (m2 + 1)) < 2 ^ 64 by omega),
    wrap64_of_lt (show start + m1 * R < 2 ^ 64 by omega),
    wrap64_of_lt (show start + m1 * R + m2 * (R * (m1 + 1)) < 2 ^ 64 by omega),
    wrap64_of_lt (show start + m1 * R + m2 * (R * (m1 + 1))
      + m3 * (R * (m1 + 1) * (m2 + 1)) < 2 ^ 64 by omega)]
  omega

/-- The row length times the block's bytes does not wrap, or the type has no
blocks. -/
def RowFits (info : GgufTensorInfo) : Prop :=
  info.type.blckSize = 1 ∨ info.ne.1 * info.type.typeSize < 2 ^ 64

/-- A row is part of the tensor. -/
theorem Sized.rowBytes_le_total (hs : Sized type n0 n1 n2 n3) :
    Sized.rowBytes type n0 ≤ Sized.rowBytes type n0 * n1 * n2 * n3 := by
  calc Sized.rowBytes type n0 ≤ Sized.rowBytes type n0 * n1 :=
    Nat.le_mul_of_pos_right _ hs.pos1
    _ ≤ Sized.rowBytes type n0 * n1 * n2 := Nat.le_mul_of_pos_right _ hs.pos2
    _ ≤ Sized.rowBytes type n0 * n1 * n2 * n3 := Nat.le_mul_of_pos_right _ hs.pos3

/-- A type without blocks: the walk starts at the end of the first row. -/
theorem start_unblocked (hblck : type.blckSize = 1) (h0 : n0 ≠ 0)
    (hn0 : n0 < 2 ^ 63) (hr : Sized.rowBytes type n0 < 2 ^ 64) :
    wrap64 (type.typeSize + wrap64 (asU64 ((n0 : Int) - 1) * type.typeSize))
      = Sized.rowBytes type n0 := by
  have hrow : Sized.rowBytes type n0 = n0 * type.typeSize := by
    rw [Sized.rowBytes, hblck, Nat.div_one, Nat.mul_comm]
  obtain ⟨m, rfl⟩ : ∃ m, n0 = m + 1 := ⟨n0 - 1, by omega⟩
  rw [show ((m + 1 : Nat) : Int) - 1 = (m : Int) by push_cast; ring,
    asU64_of_lt (by omega)]
  have e : (m + 1) * type.typeSize = type.typeSize + m * type.typeSize := by ring
  rw [wrap64_of_lt (show m * type.typeSize < 2 ^ 64 by omega),
    wrap64_of_lt (by omega)]
  omega

/-- A blocked type: the walk starts at or before the end of the first row,
and there exactly when the row product does not wrap. -/
theorem start_blocked (hblocks : type.blckSize ∣ n0) :
    wrap64 (n0 * type.typeSize) / type.blckSize ≤ Sized.rowBytes type n0
      ∧ (wrap64 (n0 * type.typeSize) / type.blckSize = Sized.rowBytes type n0
        ↔ n0 * type.typeSize < 2 ^ 64) := by
  have hb := type.blckSize_pos
  have hrow : n0 * type.typeSize / type.blckSize = Sized.rowBytes type n0 := by
    obtain ⟨k, hk⟩ := hblocks
    rw [Sized.rowBytes, hk, Nat.mul_div_cancel_left k hb, Nat.mul_assoc,
      Nat.mul_div_cancel_left _ hb, Nat.mul_comm]
  rw [← hrow]
  refine ⟨Nat.div_le_div_right (Nat.mod_le ..), ?_, fun h => by rw [wrap64_of_lt h]⟩
  intro heq
  by_contra hge
  -- the wrapped product loses at least one block
  have hblk : type.blckSize ≤ 2 ^ 64 := by
    cases type <;> decide
  have hsub : wrap64 (n0 * type.typeSize) + type.blckSize ≤ n0 * type.typeSize := by
    unfold wrap64
    omega
  have hlost : wrap64 (n0 * type.typeSize) / type.blckSize
      < n0 * type.typeSize / type.blckSize := by
    calc wrap64 (n0 * type.typeSize) / type.blckSize
        < (wrap64 (n0 * type.typeSize) + type.blckSize) / type.blckSize := by
          rw [Nat.add_div_right _ hb]
          exact Nat.lt_succ_self _
      _ ≤ n0 * type.typeSize / type.blckSize := Nat.div_le_div_right hsub
  omega

/-- The walk of `ggml_nbytes` over a tensor with elements: from a start in
the first row, over all the rest. -/
theorem ggmlNbytes_walk
    (hne : info.ne = ((n0 : Int), (n1 : Int), (n2 : Int), (n3 : Int)))
    (hs : Sized info.type n0 n1 n2 n3)
    (hnb : info.nb = Parse.strides info.type info.ne) (h0 : n0 ≠ 0) :
    ∃ start, start ≤ Sized.rowBytes info.type n0
      ∧ info.ggmlNbytes = start + (Sized.rowBytes info.type n0 * n1 * n2 * n3
        - Sized.rowBytes info.type n0)
      ∧ (start = Sized.rowBytes info.type n0 ↔ RowFits info) := by
  obtain ⟨hr, -, -, htotal⟩ := hs.total_lt
  rw [hne, strides_eq hs] at hnb
  unfold GgufTensorInfo.ggmlNbytes RowFits
  rw [hne, hnb]
  simp only
  have hpos : ¬ ((n0 : Int) ≤ 0 ∨ (n1 : Int) ≤ 0 ∨ (n2 : Int) ≤ 0
      ∨ (n3 : Int) ≤ 0) := by
    have := hs.pos1
    have := hs.pos2
    have := hs.pos3
    omega
  have hn0 : n0 < 2 ^ 63 := by
    have := hs.rows
    have := Nat.le_mul_of_pos_right n0 hs.pos1
    omega
  rw [if_neg hpos]
  -- the walk from any start below the row's size
  have htail (start : Nat) (hstart : start ≤ Sized.rowBytes info.type n0) :=
    tail_eq hs.pos1 hs.pos2 hs.pos3 hs.lt1 hs.lt2 hs.lt3 htotal hstart
  by_cases hblck : info.type.blckSize = 1
  · rw [if_pos hblck, start_unblocked hblck h0 hn0 hr]
    exact ⟨_, Nat.le_refl _, htail _ (Nat.le_refl _), fun _ => .inl hblck,
      fun _ => rfl⟩
  · rw [if_neg hblck, asU64_of_lt (show n0 < 2 ^ 64 by omega)]
    obtain ⟨hstart, hiff⟩ := start_blocked hs.blocks
    refine ⟨_, hstart, htail _ hstart, ?_⟩
    have hcast : ((n0 : Int) * (info.type.typeSize : Int) < 2 ^ 64)
        ↔ n0 * info.type.typeSize < 2 ^ 64 := by
      rw [← Int.natCast_mul]
      exact_mod_cast Iff.rfl
    rw [hiff, hcast]
    exact ⟨.inr, fun h => h.resolve_left hblck⟩

/-- An empty tensor has no bytes. -/
theorem ggmlNbytes_empty (h : info.ne.1 = 0) :
    info.ggmlNbytes = 0 := by
  unfold GgufTensorInfo.ggmlNbytes
  rw [if_pos (.inl (by omega))]

/-- `ggml_nbytes` is exact exactly when the row product does not wrap. -/
theorem ggmlNbytes_eq_iff (hm : Measured info) :
    (info.ggmlNbytes : Int) = trueBytes info ↔ RowFits info := by
  obtain ⟨n0, n1, n2, n3, hne, hs, hnb⟩ := hm
  rw [trueBytes_eq hne, hs.total_eq]
  by_cases h0 : n0 = 0
  · subst h0
    have hrow : Sized.rowBytes info.type 0 = 0 := by simp [Sized.rowBytes]
    rw [ggmlNbytes_empty (by rw [hne]; rfl), hrow]
    simp [RowFits, hne]
  · have hle := hs.rowBytes_le_total
    obtain ⟨start, hstart, hwalk, hiff⟩ := ggmlNbytes_walk hne hs hnb h0
    rw [hwalk, ← hiff]
    constructor
    · intro heq
      have heq' : start + (Sized.rowBytes info.type n0 * n1 * n2 * n3
          - Sized.rowBytes info.type n0)
              = Sized.rowBytes info.type n0 * n1 * n2 * n3 := by
        exact_mod_cast heq
      omega
    · intro heq
      exact_mod_cast (by omega : start + (Sized.rowBytes info.type n0 * n1 * n2 * n3
        - Sized.rowBytes info.type n0) = Sized.rowBytes info.type n0 * n1 * n2 * n3)

/-- `ggml_nbytes` never exceeds the tensor. -/
theorem ggmlNbytes_le_nbytes (hm : Measured info) :
    info.ggmlNbytes ≤ info.nbytes := by
  obtain ⟨n0, n1, n2, n3, hne, hs, hnb⟩ := hm
  rw [nbytes_eq hne hs, hs.total_eq]
  by_cases h0 : n0 = 0
  · rw [ggmlNbytes_empty (by rw [hne, h0]; rfl)]
    exact Nat.zero_le _
  · have hle := hs.rowBytes_le_total
    obtain ⟨start, hstart, hwalk, -⟩ := ggmlNbytes_walk hne hs hnb h0
    omega

-- ========================== the parser

namespace Parse

variable {α β : Type}

/-- A step that leaves the file alone. -/
def KeepsData (x : Parse α) : Prop := ∀ r a s, x r = .ok (a, s) → s.data = r.data

theorem KeepsData.bind {x : Parse α} {f : α → Parse β} (hx : KeepsData x)
    (hf : ∀ a, KeepsData (f a)) : KeepsData (x >>= f) := by
  intro r b s h
  obtain ⟨a, t, ha, hb⟩ := bind_eq_ok.mp h
  exact (hf a t b s hb).trans (hx r a t ha)

theorem keepsData_pure (a : α) : KeepsData (pure a : Parse α) := by
  intro r b s h
  rw [← (pure_eq_ok.mp h).2]

theorem keepsData_stop (st : Stop) : KeepsData (stop st : Parse α) :=
  fun _ _ _ h => (stop_eq_ok.mp h).elim

theorem keepsData_ensure {st : Stop} {p : Prop} [Decidable p] :
    KeepsData (ensure st p) := by
  intro r u s h
  rw [← (ensure_eq_ok.mp h).2]

theorem keepsData_readRaw (size : Nat) : KeepsData (readRaw size) := by
  intro r a s h
  unfold readRaw at h
  split at h
  · cases h
  · cases h
    rfl

theorem keepsData_remaining : KeepsData remaining := by
  intro r a s h
  cases h
  rfl

theorem keepsData_readNat (size : Nat) : KeepsData (readNat size) :=
  (keepsData_readRaw size).bind fun _ => keepsData_pure _

theorem keepsData_readInt (size : Nat) : KeepsData (readInt size) :=
  (keepsData_readNat size).bind fun _ => keepsData_pure _

theorem keepsData_readString : KeepsData readString :=
  (keepsData_readNat 8).bind fun _ => keepsData_ensure.bind fun _ =>
    keepsData_remaining.bind fun _ => keepsData_ensure.bind fun _ =>
      (keepsData_readRaw _).bind fun _ => keepsData_pure _

theorem keepsData_readMany (size : Nat) : ∀ n, KeepsData (readMany size n)
  | 0 => keepsData_pure _
  | n + 1 => (keepsData_readRaw size).bind fun _ =>
      (keepsData_readMany size n).bind fun _ => keepsData_pure _

theorem keepsData_readVec (size n : Nat) : KeepsData (readVec size n) :=
  keepsData_ensure.bind fun _ => keepsData_remaining.bind fun _ =>
    keepsData_ensure.bind fun _ => keepsData_readMany size n

theorem keepsData_readStrings : ∀ n, KeepsData (readStrings n)
  | 0 => keepsData_pure _
  | n + 1 => keepsData_readString.bind fun _ =>
      (keepsData_readStrings n).bind fun _ => keepsData_pure _

theorem keepsData_readBool : KeepsData readBool :=
  (keepsData_readNat 1).bind fun _ => keepsData_pure _

theorem keepsData_readBools : ∀ n, KeepsData (readBools n)
  | 0 => keepsData_pure _
  | n + 1 => keepsData_readBool.bind fun _ =>
      (keepsData_readBools n).bind fun _ => keepsData_pure _

theorem keepsData_readGgufType : KeepsData readGgufType := by
  refine (keepsData_readInt 4).bind fun v => ?_
  split
  · exact keepsData_pure _
  · exact keepsData_stop _

theorem keepsData_readGgmlType : KeepsData readGgmlType := by
  refine (keepsData_readInt 4).bind fun v => ?_
  split
  · exact keepsData_pure _
  · exact keepsData_stop _

theorem keepsData_readArray (grant : Nat) (key : Text) (type : GgufType) (n : Nat) :
    KeepsData (readArray grant key type n) := by
  unfold readArray
  split
  · exact keepsData_stop _
  · exact KeepsData.bind
        (keepsData_ensure.bind fun _ => keepsData_remaining.bind fun _ =>
      keepsData_ensure.bind fun _ => keepsData_readStrings n) fun _ =>
        keepsData_pure _
  · exact KeepsData.bind
        (keepsData_remaining.bind fun _ => keepsData_ensure.bind fun _ =>
      keepsData_readBools n) fun _ => keepsData_pure _
  · exact (keepsData_readVec _ _).bind fun _ => keepsData_pure _

theorem keepsData_readScalar (key : Text) (type : GgufType) :
    KeepsData (readScalar key type) := by
  unfold readScalar
  split
  · exact keepsData_stop _
  · exact keepsData_readString.bind fun _ => keepsData_pure _
  · exact keepsData_readBool.bind fun _ => keepsData_pure _
  · exact (keepsData_readRaw _).bind fun _ => keepsData_pure _

theorem keepsData_readKv (grant : Nat) (seen : List GgufKv) :
    KeepsData (readKv grant seen) := by
  refine keepsData_readString.bind fun key => keepsData_ensure.bind fun _ =>
    keepsData_readGgufType.bind fun type => ?_
  split
  · exact keepsData_readGgufType.bind fun elem => (keepsData_readNat 8).bind fun n =>
      keepsData_readArray grant key elem n
  · exact keepsData_readScalar key type

theorem keepsData_readKvs (grant : Nat) : ∀ n seen, KeepsData (readKvs grant n seen)
  | 0, _ => keepsData_pure _
  | n + 1, seen => (keepsData_readKv grant seen).bind fun _ =>
      keepsData_readKvs grant n _

theorem keepsData_readDims : ∀ n, KeepsData (readDims n)
  | 0 => keepsData_pure _
  | n + 1 => (keepsData_readInt 8).bind fun _ => keepsData_ensure.bind fun _ =>
      (keepsData_readDims n).bind fun _ => keepsData_pure _

theorem keepsData_checkElements (ne : Int × Int × Int × Int) :
    KeepsData (checkElements ne) :=
  keepsData_ensure.bind fun _ => keepsData_ensure.bind fun _ =>
    keepsData_ensure.bind fun _ => keepsData_ensure.bind fun _ =>
      keepsData_ensure.bind fun _ => keepsData_ensure

theorem keepsData_readInfo (seen : List GgufTensorInfo) : KeepsData (readInfo seen) :=
  keepsData_readString.bind fun _ => keepsData_ensure.bind fun _ =>
    keepsData_ensure.bind fun _ => (keepsData_readNat 4).bind fun _ =>
      keepsData_ensure.bind fun _ => (keepsData_readDims _).bind fun _ =>
        (keepsData_checkElements _).bind fun _ => keepsData_readGgmlType.bind fun _ =>
          keepsData_ensure.bind fun _ => keepsData_ensure.bind fun _ =>
            (keepsData_readNat 8).bind fun _ => keepsData_pure _

theorem keepsData_readInfos : ∀ n seen, KeepsData (readInfos n seen)
  | 0, _ => keepsData_pure _
  | n + 1, seen => (keepsData_readInfo seen).bind fun _ => keepsData_readInfos n _

/-- Dimensions that were read are not negative. -/
theorem readDims_nonneg : ∀ {n : Nat} {dims : List Int} {r s : GgufReader},
    readDims n r = .ok (dims, s) → ∀ d ∈ dims, 0 ≤ d
  | 0, dims, r, s, h => by
      rw [← (pure_eq_ok.mp h).1]
      exact fun d hd => absurd hd List.not_mem_nil
  | n + 1, dims, r, s, h => by
      obtain ⟨v, t, -, h⟩ := bind_eq_ok.mp h
      obtain ⟨_, t', hpos, h⟩ := bind_eq_ok.mp h
      obtain ⟨rest, t'', hrest, h⟩ := bind_eq_ok.mp h
      rw [← (pure_eq_ok.mp h).1]
      intro d hd
      rcases List.mem_cons.mp hd with rfl | hd
      · exact (ensure_eq_ok.mp hpos).1
      · exact readDims_nonneg hrest d hd

theorem getD_nonneg {dims : List Int} (h : ∀ d ∈ dims, 0 ≤ d) (i : Nat) :
    0 ≤ dims.getD i 1 := by
  rw [List.getD_eq_getElem?_getD]
  cases hd : dims[i]? with
  | none => exact Int.one_nonneg
  | some d => exact h d (List.mem_of_getElem? hd)

/-- A tensor record that was read passed its tests. -/
theorem readInfo_measured {seen : List GgufTensorInfo} {info : GgufTensorInfo}
    {r s : GgufReader} (h : readInfo seen r = .ok (info, s)) : Measured info := by
  simp only [readInfo, bind_eq_ok, ensure_eq_ok] at h
  obtain ⟨name, _, -, _, _, -, _, _, -, nDims, _, -, _, _, -, dims, _, hdims,
    _, _, hcheck, type,
    _, -, _, _, ⟨hmod, -⟩, _, _, ⟨hsize, -⟩, offset, _, -, hinfo⟩ := h
  rw [← (pure_eq_ok.mp hinfo).1]
  simp only [checkElements, bind_eq_ok, ensure_eq_ok] at hcheck
  obtain ⟨_, _, ⟨hz1, -⟩, _, _, ⟨hq1, -⟩, _, _, ⟨hz2, -⟩, _, _, ⟨hq2, -⟩, _, _,
    ⟨hz3, -⟩, hq3, -⟩ := hcheck
  have hnonneg := getD_nonneg (readDims_nonneg hdims)
  obtain ⟨n0, hn0⟩ := Int.eq_ofNat_of_zero_le (hnonneg 0)
  obtain ⟨n1, hn1⟩ := Int.eq_ofNat_of_zero_le (hnonneg 1)
  obtain ⟨n2, hn2⟩ := Int.eq_ofNat_of_zero_le (hnonneg 2)
  obtain ⟨n3, hn3⟩ := Int.eq_ofNat_of_zero_le (hnonneg 3)
  have hne : shapeOf dims = ((n0 : Int), (n1 : Int), (n2 : Int), (n3 : Int)) := by
    simp only [shapeOf, hn0, hn1, hn2, hn3]
  rw [hne] at hz1 hq1 hz2 hq2 hz3 hq3 hmod hsize
  simp only at hz1 hq1 hz2 hq2 hz3 hq3 hmod
  obtain ⟨hrows, hlt1⟩ := mul_lt_of_lt_div hq1
  rw [← Int.natCast_mul,
    wrapI64_of_lt (Int.natCast_nonneg _) (by exact_mod_cast hrows)] at hq2 hq3
  obtain ⟨hplanes, hlt2⟩ := mul_lt_of_lt_div hq2
  rw [← Int.natCast_mul,
    wrapI64_of_lt (Int.natCast_nonneg _) (by exact_mod_cast hplanes)] at hq3
  obtain ⟨helements, hlt3⟩ := mul_lt_of_lt_div hq3
  refine ⟨n0, n1, n2, n3, hne, ?_, rfl⟩
  have hblocks : type.blckSize ∣ n0 := by
    have := Int.dvd_of_tmod_eq_zero hmod
    exact_mod_cast this
  refine ⟨by omega, by omega, by omega, hlt1, hlt2, hlt3, hrows, hplanes,
    helements, hblocks, ?_⟩
  have hlt : n0 * n1 * n2 * n3 / type.blckSize < 2 ^ 64 :=
    Nat.lt_of_le_of_lt (Nat.div_le_self ..) (Nat.lt_trans helements (by norm_num))
  rw [neProduct_natCast hrows hplanes helements,
    Int.tdiv_eq_ediv_of_nonneg (Int.natCast_nonneg _), ← Int.natCast_ediv,
    asU64_of_lt hlt] at hsize
  exact le_u64Max_div hsize

theorem readInfos_measured : ∀ {n : Nat} {seen infos : List GgufTensorInfo}
    {r s : GgufReader},
    readInfos n seen r = .ok (infos, s) → (∀ info ∈ seen, Measured info) →
    ∀ info ∈ infos, Measured info
  | 0, seen, infos, r, s, h, hseen => by
      rw [← (pure_eq_ok.mp h).1]
      exact hseen
  | n + 1, seen, infos, r, s, h, hseen => by
      obtain ⟨info, t, hinfo, h⟩ := bind_eq_ok.mp h
      refine readInfos_measured h fun i hi => ?_
      rcases List.mem_append.mp hi with hi | hi
      · exact hseen i hi
      · rw [List.mem_singleton.mp hi]
        exact readInfo_measured hinfo

end Parse

/-- Every range of a data section that was measured lies inside it. -/
theorem dataSectionSize_ok {limit : Nat} : ∀ {infos : List GgufTensorInfo}
    {size out : Nat},
    dataSectionSize limit infos size = .ok out →
    ∀ info ∈ infos, info.offset + info.ggmlNbytes ≤ limit
  | [], _, _, _ => fun info hi => absurd hi List.not_mem_nil
  | ti :: rest, size, out, h => by
      unfold dataSectionSize at h
      split at h
      · cases h
      split at h
      · cases h
      next hle =>
        intro info hi
        rcases List.mem_cons.mp hi with rfl | hi
        · omega
        · exact dataSectionSize_ok h info hi

/-- What an accepted file says about its tensors: their records passed the
tests and their ranges, by strides, lie inside the file. -/
theorem initFromData_ok {grant : Nat} {data : List UInt8} {ctx : GgufContext}
    (h : initFromData grant data = .ok ctx) :
    ∀ info ∈ ctx.info, Measured info ∧ ctx.offset + (info.offset + info.ggmlNbytes)
      ≤ data.length := by
  unfold initFromData at h
  cases hrun : initFromReader grant data.length ⟨data, 0⟩ with
  | error e =>
      rw [hrun] at h
      cases h
  | ok out =>
  obtain ⟨ctx', s⟩ := out
  rw [hrun] at h
  cases h
  simp only [initFromReader, Parse.bind_eq_ok, Parse.lift_eq_ok,
    Parse.ensure_eq_ok] at hrun
  obtain ⟨⟨version, nTensors, nKv⟩, r₁, hheader, kv, r₂, hkv, alignment, r₃,
    ⟨-, rfl⟩, _, r₄, ⟨-, rfl⟩, infos, r₅, hinfos, offset, r₆, hseek, size, r₇,
    ⟨hsize, -⟩, hctx⟩ := hrun
  rw [← (Parse.pure_eq_ok.mp hctx).1]
  intro info hi
  simp only at hi ⊢
  refine ⟨Parse.readInfos_measured hinfos
    (fun i hi => absurd hi List.not_mem_nil) info hi, ?_⟩
  have hrange := dataSectionSize_ok hsize info hi
  -- the reader still reads the same file
  have hheaderKeeps : Parse.KeepsData readHeader := by
    exact (Parse.keepsData_readVec 1 4).bind fun _ =>
        Parse.keepsData_ensure.bind fun _ =>
      (Parse.keepsData_readNat 4).bind fun _ => Parse.keepsData_ensure.bind fun _ =>
        Parse.keepsData_ensure.bind fun _ => Parse.keepsData_ensure.bind fun _ =>
          Parse.keepsData_ensure.bind fun _ =>
              (Parse.keepsData_readInt 8).bind fun _ =>
            Parse.keepsData_ensure.bind fun _ =>
                (Parse.keepsData_readInt 8).bind fun _ =>
              Parse.keepsData_ensure.bind fun _ => Parse.keepsData_pure _
  have hdata : r₅.data = data := by
    rw [Parse.keepsData_readInfos _ _ _ _ _ hinfos,
      Parse.keepsData_readKvs _ _ _ _ _ _ hkv, hheaderKeeps _ _ _ hheader]
  have hoffset : offset ≤ data.length := by
    unfold seekData at hseek
    split at hseek
    next =>
      split at hseek
      · cases hseek
      next hle =>
        cases hseek
        rw [hdata] at hle
        omega
    next hzero =>
      -- there are no tensors
      simp only at hinfos hzero
      rw [show nTensors = 0 by omega] at hinfos
      rw [← (Parse.pure_eq_ok.mp hinfos).1] at hi
      exact absurd hi List.not_mem_nil
  omega

-- ============================ the file

/-- A tensor's size is what both formulas compute, and its bytes are in the
file. -/
structure InFile (data : List UInt8) (ctx : GgufContext)
    (info : GgufTensorInfo) : Prop where
  nbytes : (info.nbytes : Int) = trueBytes info
  ggmlNbytes : (info.ggmlNbytes : Int) = trueBytes info
  inside : ctx.offset + info.offset + info.nbytes ≤ data.length

/-- Every tensor of an accepted file lies inside it, with its true size,
exactly when no row product wraps. -/
theorem accepted_tensors_inside_iff {grant : Nat} {data : List UInt8}
    {ctx : GgufContext} (h : initFromData grant data = .ok ctx) :
    (∀ info ∈ ctx.info, InFile data ctx info) ↔ ∀ info ∈ ctx.info, RowFits info := by
  constructor
  · intro hall info hi
    exact (ggmlNbytes_eq_iff (initFromData_ok h info hi).1).mp
      (hall info hi).ggmlNbytes
  · intro hfits info hi
    obtain ⟨hm, hrange⟩ := initFromData_ok h info hi
    have hggml := (ggmlNbytes_eq_iff hm).mpr (hfits info hi)
    have hnbytes : (info.nbytes : Int) = trueBytes info := by
      obtain ⟨n0, n1, n2, n3, hne, hs, -⟩ := hm
      rw [nbytes_eq hne hs, trueBytes_eq hne]
    refine ⟨hnbytes, hggml, ?_⟩
    have hsame : info.nbytes = info.ggmlNbytes := by
      exact_mod_cast hnbytes.trans hggml.symm
    omega

/-- A file without metadata and with one tensor of one dimension; the data
section starts at byte 64. -/
def oneTensorFile (type : GgmlType) (n0 : Nat) (payload : List UInt8) : List UInt8 :=
  ggufMagic ++ leBytes 4 3 ++ leBytes 8 1 ++ leBytes 8 0
    ++ (leBytes 8 1 ++ [0x74] ++ leBytes 4 1 ++ leBytes 8 n0
      ++ leBytes 4 type.code ++ leBytes 8 0)
    ++ List.replicate 7 0 ++ payload

/-- Its tensor. -/
def oneTensor (type : GgmlType) (n0 : Nat) : GgufTensorInfo :=
  ⟨['t'], (n0, 1, 1, 1), Parse.strides type (n0, 1, 1, 1), type, 0⟩

/-- Two blocks of 32 quantised elements. -/
def twoBlocks : List UInt8 := List.replicate 68 7

set_option maxRecDepth 8000 in
/-- A file with one row of two blocks. -/
theorem two_blocks_inside : initFromData 0 (oneTensorFile .q8_0 64 twoBlocks)
      = .ok ⟨3, [], [oneTensor .q8_0 64], 32, 64, 68⟩
    ∧ InFile (oneTensorFile .q8_0 64 twoBlocks)
        ⟨3, [], [oneTensor .q8_0 64], 32, 64, 68⟩
        (oneTensor .q8_0 64) := by
  have h : initFromData 0 (oneTensorFile .q8_0 64 twoBlocks)
      = .ok ⟨3, [], [oneTensor .q8_0 64], 32, 64, 68⟩ := by decide +kernel
  refine ⟨h, (accepted_tensors_inside_iff h).mpr
    (fun info hi => ?_) _ List.mem_cons_self⟩
  -- a block has 32 elements, so the row product is what counts
  rw [List.mem_singleton.mp hi]
  exact Or.inr (by decide)

set_option maxRecDepth 8000 in
/-- A header of 64 bytes is accepted with a tensor of `2^52` blocks: its row
product is a multiple of `2^64`. -/
theorem wrapped_row_accepted : initFromData 0 (oneTensorFile .q4_k (2 ^ 60) [])
      = .ok ⟨3, [], [oneTensor .q4_k (2 ^ 60)], 32, 64, 0⟩
    ∧ (oneTensorFile .q4_k (2 ^ 60) []).length = 64
    ∧ (oneTensor .q4_k (2 ^ 60)).ggmlNbytes = 0
    ∧ (oneTensor .q4_k (2 ^ 60)).nbytes = 2 ^ 52 * 144
    ∧ ¬ InFile (oneTensorFile .q4_k (2 ^ 60) [])
        ⟨3, [], [oneTensor .q4_k (2 ^ 60)], 32, 64, 0⟩
        (oneTensor .q4_k (2 ^ 60)) := by
  have hlen : (oneTensorFile .q4_k (2 ^ 60) []).length = 64 := by decide +kernel
  have hnbytes : (oneTensor .q4_k (2 ^ 60)).nbytes = 2 ^ 52 * 144 := by decide +kernel
  refine ⟨by decide +kernel, hlen, by decide +kernel, hnbytes, fun h => ?_⟩
  have hle := h.inside
  rw [hlen, hnbytes, show (oneTensor .q4_k (2 ^ 60)).offset = 0 from rfl] at hle
  norm_num at hle

end Minfer.Gguf
