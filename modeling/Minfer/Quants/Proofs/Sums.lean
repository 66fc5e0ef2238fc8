/-
Sums of scale by quant by activation, as the kernels form them.

The scalar kernels add up 32 products and then scale; the vector kernels add
up pairs, scale them into lanes of four products, and add the lanes at the
end. Quants without a sign bit and scales of eight bits keep every step of
either in range, and both are `subSums`.
-/
import Minfer.Quants.Avx512

namespace Minfer.Quants

open Minfer.Lib

-- ============================ the sums

/-- The sum of four products that a 32-bit lane has. -/
def quad (u : Nat → Int) (y : Nat → Int) (i : Nat) : Int :=
  ∑ e ∈ Finset.range 4, u (4 * i + e) * y (4 * i + e)

/-- The scaled sums of four sub-blocks. -/
def subSums (s : Nat → Int) (u : Nat → Nat → Int) (y : Nat → Nat → Int) : Int :=
  ∑ j ∈ Finset.range 4, s j * ∑ l ∈ Finset.range 32, u j l * y j l

/-- A sum over runs of one length is the sum over all places. -/
theorem sum_runs (f : Nat → Int) (m n : Nat) :
    ∑ i ∈ Finset.range n, ∑ e ∈ Finset.range m,
      f (m * i + e) = ∑ l ∈ Finset.range (m * n), f l := by
  induction n with
  | zero => rfl
  | succ n ih => rw [Finset.sum_range_succ, ih, Nat.mul_succ, Finset.sum_range_add]

theorem abs_mul_le {a b m n : Int} (ha : |a| ≤ m) (hb : |b| ≤ n) :
    |a * b| ≤ m * n := by
  rw [abs_mul]
  exact mul_le_mul ha hb (abs_nonneg _) ((abs_nonneg _).trans ha)

theorem abs_quad_le {u y : Nat → Int} (hu : ∀ l, |u l| ≤ 127)
    (hy : ∀ l, |y l| ≤ 128) (i : Nat) :
    |quad u y i| ≤ 65024 :=
  abs_sum_range_le (127 * 128) fun _ _ => abs_mul_le (hu _) (hy _)

variable {s : Nat → Int}
variable {u y : Nat → Nat → Int} {n i : Nat}

/-- The loops of the scalar kernels. -/
theorem scalarSums_eq (hs : ∀ j < 4, |s j| ≤ 128)
    (hu : ∀ j l, |u j l| ≤ 127) (hy : ∀ j l, |y j l| ≤ 128) :
    sumI32 4 (fun j => do
        let sum ← sumI32 32 fun l => trackI32 (u j l * y j l)
        trackI32 (sum * s j)) = pure (subSums s u y) := by
  have hsum : ∀ j, |∑ l ∈ Finset.range 32, u j l * y j l| ≤ 32 * (127 * 128) :=
      fun j =>
    abs_sum_range_le (127 * 128) fun _ _ => abs_mul_le (hu j _) (hy j _)
  have hterm : ∀ j < 4, |s j * ∑ l ∈ Finset.range 32,
      u j l * y j l| ≤ 128 * (32 * (127 * 128)) := fun j hj =>
    abs_mul_le (hs j hj) (hsum j)
  apply sumI32_eq (128 * (32 * (127 * 128)))
  · intro j hj
    have hinner : sumI32 32 (fun l => trackI32 (u j l * y j l))
        = pure (∑ l ∈ Finset.range 32, u j l * y j l) := by
      apply sumI32_eq (127 * 128)
      · intro l _
        have hprod := abs_mul_le (hu j l) (hy j l)
        exact trackI32_of_abs_le (by omega)
      · exact fun l _ => abs_mul_le (hu j l) (hy j l)
      · decide
    rw [hinner, pure_bind, mul_comm]
    exact trackI32_of_abs_le ((hterm j hj).trans (by decide))
  · exact hterm
  · decide

theorem abs_subSums_le (hs : ∀ j < 4, |s j| ≤ 128)
    (hu : ∀ j < 4, ∀ l, |u j l| ≤ 127) (hy : ∀ j l, |y j l| ≤ 128) :
    |subSums s u y| ≤ 266338304 := by
  have hsum : ∀ j < 4, |∑ l ∈ Finset.range 32,
      u j l * y j l| ≤ 32 * (127 * 128) := fun j hj =>
    abs_sum_range_le (127 * 128) fun _ _ => abs_mul_le (hu j hj _) (hy j _)
  exact abs_sum_range_le (128 * (32 * (127 * 128))) fun j hj =>
    abs_mul_le (hs j hj) (hsum j hj)

-- =========================== the lanes

/-- `i8` of the bytes of a register. -/
def signed (y : Reg) (i : Nat) : Int := i8 (y i)

/-- The bytes of a register. -/
def unsigned (u : Reg) (i : Nat) : Int := (u i).toNat

/-- A register whose bytes have no sign bit. -/
def Small (u : Reg) : Prop := ∀ i, (u i).toNat ≤ 127

theorem Small.abs_le {u : Reg} (h : Small u) (i : Nat) : |unsigned u i| ≤ 127 := by
  rw [unsigned, Nat.abs_cast]
  exact_mod_cast h i

theorem quad_eq (u y : Nat → Int) (i : Nat) :
    quad u y i = (u (2 * (2 * i)) * y (2 * (2 * i)) + u (2 * (2 * i) + 1) * y
      (2 * (2 * i) + 1))
      + (u (2 * (2 * i + 1)) * y (2 * (2 * i + 1)) + u
        (2 * (2 * i + 1) + 1) * y (2 * (2 * i + 1) + 1)) := by
  rw [quad, Finset.sum_range_succ, Finset.sum_range_succ,
    Finset.sum_range_succ, Finset.sum_range_one,
    show 2 * (2 * i) = 4 * i by omega, show 2 * (2 * i + 1) = 4 * i + 2 by
      omega, add_assoc (4 * i) 2 1]
  simp only [add_zero, add_assoc]

/-- Pair sums under a scale: no pair saturates, and each lane is its four
products scaled. -/
theorem holds_scaled {u y sv : Reg} (hu : Small u) (hs : ∀ i < n, |s i| ≤ 128)
    (hsv : ∀ i < n, i16 sv (2 * i) = s i ∧ i16 sv (2 * i + 1) = s i) :
    Holds i32 n (maddubsEpi16 (2 * n) u y >>= fun p => maddEpi16 n p sv)
      fun i => s i * quad (unsigned u) (signed y) i := by
  apply (holds_maddubs le_rfl hu).bind
  intro p hp
  have hlanes : ∀ i < n,
      i16 p (2 * i) * i16 sv (2 * i) + i16 p (2 * i + 1) * i16 sv (2 * i + 1)
      = s i * quad (unsigned u) (signed y) i := by
    intro i hi
    rw [hp (2 * i) (by omega), hp (2 * i + 1) (by omega), (hsv i hi).1,
      (hsv i hi).2, ← add_mul, quad_eq,
      mul_comm (s i)]
    rfl
  apply (holds_lanesI32 _).congr hlanes
  intro i hi
  rw [hlanes i hi]
  have hquad :=
    abs_mul_le (hs i hi) (abs_quad_le hu.abs_le (fun l => abs_i8_le (y l)) i)
  exact hquad.trans (by decide)

theorem maddEpi16_comm (n : Nat) (x y : Reg) : maddEpi16 n x y = maddEpi16 n y x := by
  rw [maddEpi16, maddEpi16]
  congr 1
  funext i
  rw [mul_comm, mul_comm (i16 x (2 * i + 1))]

theorem i16_set1Epi16 {v : Int} (h : |v| ≤ 128) (i : Nat) :
    i16 (set1Epi16 v) i = v := by
  rw [set1Epi16, i16_ofI16]
  exact wrapI16_of_mem (.of_abs_le (by omega))

theorem i32_zero (i : Nat) : i32 (set1Epi8 0) i = 0 := rfl

theorem i32_shuffleEpi32 (x : Reg) (imm i : Nat) : i32
    (shuffleEpi32 x imm) i = i32 x (imm / 4 ^ i % 4) := by
  apply i32_congr
  intro r hr
  rw [shuffleEpi32, Nat.mul_add_div (by decide), Nat.div_eq_of_lt hr,
    Nat.mul_add_mod, Nat.mod_eq_of_lt hr,
    Nat.add_zero]

theorem i32_extractAt (n : Nat) (x : Reg) (i : Nat) :
    i32 (extractAt (4 * n) x) i = i32 x (n + i) := by
  apply i32_congr
  intro r _
  rw [extractAt, Nat.mul_add, Nat.add_assoc]

/-- Four lanes, each added to the one a shuffle puts beside it. -/
theorem holds_add_shuffle {x : Reg} {f : Nat → Int} {bound : Int}
    (hx : ∀ i < 4, i32 x i = f i) (hf : ∀ i < 4, |f i| ≤ bound)
    (hbound : 2 * bound ≤ 2147483647) (imm : Nat) :
    Holds i32 4 (addEpi32 4 x (shuffleEpi32 x imm))
      (fun i => f i + f (imm / 4 ^ i % 4))
      ∧ ∀ i < 4, |f i + f (imm / 4 ^ i % 4)| ≤ 2 * bound := by
  have hpairs : ∀ i < 4, |f i + f (imm / 4 ^ i % 4)| ≤ 2 * bound := by
    intro i hi
    have hadd :=
      (abs_add_le _ _).trans
      (add_le_add (hf i hi) (hf (imm / 4 ^ i % 4) (Nat.mod_lt _ (by decide))))
    omega
  have hlanes : ∀ i < 4, i32 x i + i32 (shuffleEpi32 x imm) i
      = f i + f (imm / 4 ^ i % 4) := by
    intro i hi
    rw [i32_shuffleEpi32, hx i hi, hx _ (Nat.mod_lt _ (by decide))]
  refine ⟨(holds_lanesI32 ?_).congr hlanes, hpairs⟩
  intro i hi
  rw [hlanes i hi]
  exact (hpairs i hi).trans hbound

/-- The sum of eight lanes. -/
theorem hsumEpi32_eq {v : Reg} {f : Nat → Int} (hv : ∀ i < 8, i32 v i = f i)
    (hf : ∀ i < 8, |f i| ≤ 268000000) :
    Avx2.hsumEpi32 v = pure (∑ i ∈ Finset.range 8, f i) := by
  have hpairs : ∀ i < 4, |f i + f (4 + i)| ≤ 536000000 := by
    intro i hi
    exact (abs_add_le _ _).trans
      (add_le_add (hf i (by omega)) (hf (4 + i) (by omega)))
  have hlanes : ∀ i < 4, i32 v i + i32 (extractAt 16 v) i = f i + f (4 + i) := by
    intro i hi
    rw [show 16 = 4 * 4 from rfl, i32_extractAt, hv i (by omega),
      hv (4 + i) (by omega)]
  have hhalves : Holds i32 4 (addEpi32 4 v (extractAt 16 v)) fun i =>
      f i + f (4 + i) := by
    apply (holds_lanesI32 _).congr hlanes
    intro i hi
    rw [hlanes i hi]
    exact (hpairs i hi).trans (by decide)
  rw [Avx2.hsumEpi32]
  apply hhalves.bind_pure
  intro x hx
  obtain ⟨hswap, hswapped⟩ := holds_add_shuffle hx hpairs (by decide) 0x4E
  apply hswap.bind_pure
  intro x' hx'
  obtain ⟨hlast, -⟩ := holds_add_shuffle hx' hswapped (by decide) 0xB1
  apply hlast.bind_pure
  intro x'' hx''
  rw [hx'' 0 (by decide)]
  congr 1
  simp only [Finset.sum_range_succ, Finset.sum_range_zero]
  norm_num
  omega

/-- A lane of the sums of four sub-blocks. -/
theorem abs_lane_le (hs : ∀ j < 4, |s j| ≤ 128)
    (hu : ∀ j < 4, ∀ l, |u j l| ≤ 127) (hy : ∀ j l, |y j l| ≤ 128) (i : Nat) :
    |∑ j ∈ Finset.range 4, s j * quad (u j) (y j) i| ≤ 33292288 :=
  abs_sum_range_le (128 * 65024) fun j hj =>
    abs_mul_le (hs j hj) (abs_quad_le (hu j hj) (hy j) i)

/-- The lanes of four sub-blocks add up to their sums. -/
theorem sum_lanes (s : Nat → Int) (u y : Nat → Nat → Int) :
    ∑ i ∈ Finset.range 8, ∑ j ∈ Finset.range 4,
      s j * quad (u j) (y j) i = subSums s u y := by
  rw [Finset.sum_comm, subSums]
  apply Finset.sum_congr rfl
  intro j _
  rw [← Finset.mul_sum]
  congr 1
  exact sum_runs (fun l => u j l * y j l) 4 8

/-- The two accumulators of the AVX2 kernels. -/
theorem avx2_scaledSums_eq {lo hi : Nat → Reg} (q8b : Reg)
    (hs : ∀ j < 8, |s j| ≤ 128)
    (hlo : ∀ j < 4, Small (lo j)) (hhi : ∀ j < 4, Small (hi j)) :
    Avx2.scaledSums s lo hi q8b
      = pure (subSums (fun j => s (2 * j)) (fun j => unsigned (lo j))
        (fun j => signed (loadAt q8b (2 + 64 * j)))
        + subSums (fun j => s (2 * j + 1)) (fun j => unsigned (hi j))
          (fun j => signed (loadAt q8b (2 + 64 * j + 32)))) := by
  have hacc : ∀ (s : Nat → Int) (u y : Nat → Reg), (∀ j < 4, |s j| ≤ 128) →
      (∀ j < 4, Small (u j)) →
      Holds i32 8 (accumulateEpi32 8 4 (set1Epi8 0) fun j => do
          let p ← maddubsEpi16 16 (u j) (y j)
          maddEpi16 8 p (set1Epi16 (s j)))
        fun i => ∑ j ∈ Finset.range 4,
            s j * quad (unsigned (u j)) (signed (y j)) i := by
    intro s u y hs hu
    have hsum :=
      holds_accumulate (n := 8) (m := 4) (a := fun _ => 0)
      (f := fun j i => s j * quad (unsigned (u j)) (signed (y j)) i)
      0 (128 * 65024) (fun i _ => i32_zero i) (by simp)
      (fun j hj => holds_scaled (y := y j) (hu j hj) (fun _ _ => hs j hj)
        fun i _ => ⟨i16_set1Epi16 (hs j hj) _, i16_set1Epi16 (hs j hj) _⟩)
      (fun j hj i _ =>
        abs_mul_le (hs j hj)
        (abs_quad_le (hu j hj).abs_le (fun l => abs_i8_le (y j l)) i))
      (by decide) (by decide)
    exact hsum.congr fun i _ => zero_add _
  have hbound : ∀ (s : Nat → Int) (u y : Nat → Reg), (∀ j < 4, |s j| ≤ 128) →
      (∀ j < 4, Small (u j)) →
      ∀ i < 8, |∑ j ∈ Finset.range 4,
          s j * quad (unsigned (u j)) (signed (y j)) i| ≤ 268000000 := by
    intro s u y hs hu i _
    exact (abs_lane_le hs (fun j hj => (hu j hj).abs_le)
      (fun j l => abs_i8_le (y j l)) i).trans (by decide)
  have hs1 : ∀ j < 4, |s (2 * j)| ≤ 128 := fun j hj => hs _ (by omega)
  have hs2 : ∀ j < 4, |s (2 * j + 1)| ≤ 128 := fun j hj => hs _ (by omega)
  rw [Avx2.scaledSums]
  apply (hacc (fun j => s (2 * j)) lo
    (fun j => loadAt q8b (2 + 64 * j)) hs1 hlo).bind_pure
  intro acc1 hacc1
  apply (hacc (fun j => s (2 * j + 1)) hi
    (fun j => loadAt q8b (2 + 64 * j + 32)) hs2 hhi).bind_pure
  intro acc2 hacc2
  rw [hsumEpi32_eq hacc1 (hbound _ _ _ hs1 hlo),
    hsumEpi32_eq hacc2 (hbound _ _ _ hs2 hhi),
    pure_bind, pure_bind, sum_lanes, sum_lanes]
  apply trackI32_of_abs_le
  have h1 := abs_subSums_le hs1 (fun j hj => (hlo j hj).abs_le)
    fun j l => abs_i8_le (loadAt q8b (2 + 64 * j) l)
  have h2 := abs_subSums_le hs2 (fun j hj => (hhi j hj).abs_le)
    fun j l => abs_i8_le (loadAt q8b (2 + 64 * j + 32) l)
  have hadd := (abs_add_le _ _).trans (add_le_add h1 h2)
  exact hadd.trans (by decide)

-- ======================= AVX-512 lanes

theorem insertAt_of_lt (h : i < n) (x y : Reg) :
    insertAt n x y i = x i := if_pos h

theorem insertAt_add (n : Nat) (x y : Reg) (i : Nat) :
    insertAt n x y (n + i) = y i := by
  rw [insertAt, if_neg (by omega), Nat.add_sub_cancel_left]

theorem Small.insertAt {x y : Reg} (hx : Small x) (hy : Small y) :
    Small (insertAt n x y) := by
  intro i
  rw [Minfer.Lib.insertAt]
  split
  · exact hx i
  · exact hy _

/-- `vpermw` spreads scale `2j` over the low half and scale `2j + 1` over the
high one. -/
theorem i16_permuted {s16 : Reg} {j : Nat} (hj : j < 4) (hi : i < 32) :
    i16 (permutexvarEpi16 (Avx512.scaleIdx j) (zext128 s16)) i
      = i16 s16 (2 * j + i / 16) := by
  have hbase : i16 (Avx512.combine256 (set1Epi8 0) (set1Epi16 1)) i
      = (i / 16 : Nat) := by
    by_cases hlow : i < 16
    · rw [Nat.div_eq_of_lt hlow]
      have hzero : i16 (Avx512.combine256 (set1Epi8 0) (set1Epi16 1)) i
          = i16 (set1Epi8 0) i := by
        apply i16_congr
        intro r hr
        exact insertAt_of_lt (by omega) _ _
      rw [hzero]
      rfl
    · obtain ⟨i', rfl⟩ := Nat.exists_eq_add_of_le (not_lt.1 hlow)
      have hone : i16 (Avx512.combine256 (set1Epi8 0) (set1Epi16 1)) (16 + i')
          = i16 (set1Epi16 1) i' := by
        apply i16_congr
        intro r hr
        rw [Avx512.combine256, show 2 * (16 + i') + r
          = 32 + (2 * i' + r) by omega, insertAt_add]
      rw [hone, i16_set1Epi16 (by decide), Nat.add_div_left _ (by decide),
        Nat.div_eq_of_lt (by omega)]
      rfl
  have hidx : u16 (Avx512.scaleIdx j) i = 2 * j + i / 16 := by
    have hsigned : i16 (Avx512.scaleIdx j) i = ((2 * j + i / 16 : Nat) : Int) := by
      rw [Avx512.scaleIdx, addEpi16, i16_ofI16, hbase,
        i16_set1Epi16 (by rw [abs_le]; omega)]
      rw [wrapI16]
      omega
    rw [i16] at hsigned
    have hlt := u16_lt (Avx512.scaleIdx j) i
    split at hsigned <;> omega
  apply i16_congr
  intro r hr
  rw [permutexvarEpi16, show (2 * i + r) / 2 = i by omega, hidx, zext128,
    show (2 * i + r) % 2 = r by omega,
    Nat.mod_eq_of_lt (by omega), if_pos (by omega)]

theorem quad_congr {u u' y y' : Nat → Int} {j : Nat}
    (hu : ∀ e < 4, u (4 * i + e) = u' (4 * j + e))
    (hy : ∀ e < 4, y (4 * i + e) = y' (4 * j + e)) : quad u y i = quad u' y' j := by
  apply Finset.sum_congr rfl
  intro e he
  rw [hu e (Finset.mem_range.1 he), hy e (Finset.mem_range.1 he)]

/-- The accumulator of the AVX-512 kernels. -/
theorem avx512_scaledSums_eq {s16 : Reg} {lo hi : Nat → Reg} (q8b : Reg)
    (hs : ∀ j < 8, |i16 s16 j| ≤ 128)
    (hlo : ∀ j < 4, Small (lo j)) (hhi : ∀ j < 4, Small (hi j)) :
    Avx512.scaledSums s16 lo hi q8b
      = pure (subSums (fun j => i16 s16 (2 * j)) (fun j => unsigned (lo j))
          (fun j => signed (loadAt q8b (2 + 64 * j)))
        + subSums (fun j => i16 s16 (2 * j + 1)) (fun j => unsigned (hi j))
          (fun j => signed (loadAt q8b (2 + 64 * j + 32)))) := by
  have hsmall : ∀ j < 4, Small (Avx512.combine256 (lo j) (hi j)) :=
    fun j hj => (hlo j hj).insertAt (hhi j hj)
  have hscale : ∀ j < 4, ∀ i < 16,
      i16 (permutexvarEpi16 (Avx512.scaleIdx j) (zext128 s16)) (2 * i)
        = i16 s16 (2 * j + i / 8)
        ∧ i16 (permutexvarEpi16 (Avx512.scaleIdx j) (zext128 s16)) (2 * i + 1)
          = i16 s16 (2 * j + i / 8) := by
    intro j hj i hi
    rw [i16_permuted hj (by omega), i16_permuted hj (by omega),
      show 2 * i / 16 = i / 8 by omega,
      show (2 * i + 1) / 16 = i / 8 by omega]
    exact ⟨rfl, rfl⟩
  have hlane : ∀ j < 4, ∀ i < 16,
      |i16 s16 (2 * j + i / 8) * quad
      (unsigned (Avx512.combine256 (lo j) (hi j)))
      (signed (loadAt q8b (2 + 64 * j))) i| ≤ 128 * 65024 := fun j hj i _ =>
    abs_mul_le (hs _ (by omega))
      (abs_quad_le (hsmall j hj).abs_le
        (fun l => abs_i8_le (loadAt q8b (2 + 64 * j) l)) i)
  have hacc := holds_accumulate (n := 16) (m := 4) (a := fun _ => 0)
    (f := fun j i =>
      i16 s16 (2 * j + i / 8) * quad
      (unsigned (Avx512.combine256 (lo j) (hi j)))
      (signed (loadAt q8b (2 + 64 * j))) i)
    0 (128 * 65024) (fun i _ => i32_zero i) (by simp)
    (fun j hj =>
      holds_scaled (y := loadAt q8b (2 + 64 * j)) (hsmall j hj)
      (fun _ _ => hs _ (by omega)) (hscale j hj))
    hlane (by decide) (by decide)
  rw [Avx512.scaledSums]
  apply hacc.bind_pure
  intro acc hr
  rw [reduceAddEpi32_eq (k := 4) (4 * (128 * 65024)) hr]
  · congr 1
    rw [show 2 ^ 4 = 8 + 8 from rfl, Finset.sum_range_add, ← sum_lanes, ← sum_lanes]
    congr 1
    · apply Finset.sum_congr rfl
      intro i hi
      have hi := Finset.mem_range.1 hi
      rw [zero_add]
      apply Finset.sum_congr rfl
      intro j _
      rw [Nat.div_eq_of_lt hi]
      congr 1
      apply quad_congr
      · intro e he
        rw [unsigned, Avx512.combine256, insertAt_of_lt (by omega)]
        rfl
      · intro e _
        rfl
    · apply Finset.sum_congr rfl
      intro i hi
      have hi := Finset.mem_range.1 hi
      rw [zero_add]
      apply Finset.sum_congr rfl
      intro j _
      rw [show (8 + i) / 8 = 1 by omega]
      congr 1
      apply quad_congr
      · intro e _
        rw [unsigned, Avx512.combine256, show 4 * (8 + i) + e
          = 32 + (4 * i + e) by omega, insertAt_add]
        rfl
      · intro e _
        rw [signed, signed, loadAt, loadAt,
          show 2 + 64 * j + (4 * (8 + i) + e)
            = 2 + 64 * j + 32 + (4 * i + e) by omega]
  · intro i hi
    rw [zero_add]
    exact abs_sum_range_le _ fun j hj => hlane j hj i hi
  · decide

end Minfer.Quants
