/-
The packed fields of a superblock with scales and mins: what the vector kernels
decode into lanes (`q4k_scales_raw`) is what the scalar kernels unpack, and the
min terms of both are one sum.
-/
import Minfer.Quants.Proofs.Sums

namespace Minfer.Quants

open Minfer.Lib

-- ============================== scales

theorem ofU16_even (f : Nat → Nat) (i : Nat) : ofU16 f (2 * i) = UInt8.ofNat
    (f i) := by
  rw [ofU16, Nat.mul_div_cancel_left _ (by decide), Nat.mul_mod_right,
    pow_zero, Nat.div_one]

theorem ofU16_odd (f : Nat → Nat) (i : Nat) : ofU16 f (2 * i + 1) = UInt8.ofNat
    (f i / 256) := by
  rw [ofU16, show (2 * i + 1) / 2 = i by omega,
    show (2 * i + 1) % 2 = 1 by omega, pow_one]

/-- A mask of eight bits in 16-bit lanes. -/
theorem set1Epi16_byte {v : Nat} (hv : v < 256) (i : Nat) :
    set1Epi16 v (2 * i) = UInt8.ofNat v ∧ set1Epi16 v (2 * i + 1) = 0 := by
  rw [set1Epi16, ofI16, ofU16_even, ofU16_odd]
  constructor
  · congr 1
    omega
  · rw [show ((v : Int) % 65536).toNat / 256 = 0 by omega]
    rfl

/-- The two bits at the top of a lane's low byte, moved under a nibble. -/
theorem topBits (lo hi : UInt8) :
    UInt8.ofNat ((lo.toNat + 256 * hi.toNat) / 2 ^ 2) &&& (0x30 : UInt8)
      = lo >>> 6 <<< 4 := by
  have hmask : ∀ n < 256, n &&& 48 = n / 16 % 4 * 16 := by decide +kernel
  have hlo := lo.toNat_lt
  apply UInt8.toNat_inj.1
  have hleft :
      (UInt8.ofNat ((lo.toNat + 256 * hi.toNat) / 2 ^ 2)
        &&& (0x30 : UInt8)).toNat
      = (lo.toNat + 256 * hi.toNat) / 2 ^ 2 % 256 &&& 48 := by
    rw [UInt8.toNat_and, UInt8.toNat_ofNat']
    rfl
  have hright : (lo >>> 6 <<< 4).toNat = lo.toNat / 64 * 16 := by
    rw [UInt8.toNat_shiftLeft, UInt8.toNat_shiftRight, Nat.shiftLeft_eq]
    change lo.toNat >>> 6 * 2 ^ 4 % 2 ^ 8 = _
    rw [Nat.shiftRight_eq_div_pow]
    omega
  rw [hleft, hright, hmask _ (Nat.mod_lt _ (by decide))]
  omega

theorem u16_unpacklo_low {x y : Reg} {j : Nat} (hj : j < 4) :
    u16 (unpackloEpi64 x y) j = u16 x j :=
  u16_congr fun r hr => if_pos (show 2 * j + r < 8 by omega)

theorem u16_unpacklo_high (x y : Reg) (j : Nat) : u16 (unpackloEpi64 x y)
    (4 + j) = u16 y j := by
  apply u16_congr
  intro r hr
  rw [unpackloEpi64, if_neg (by omega), show 2 * (4 + j) + r - 8 = 2 * j + r by omega]

/-- A lane under a mask of eight bits is its low byte under it. -/
theorem u16_masked {x : Reg} {v : Nat} (hv : v < 256) (j : Nat) :
    u16 (andSi x (set1Epi16 v)) j = (x (2 * j) &&& UInt8.ofNat v).toNat := by
  rw [u16, andSi, andSi, (set1Epi16_byte hv j).1, (set1Epi16_byte hv j).2]
  simp

/-- The upper half of a decoded field: a nibble of the lane's high byte with
the top bits of its low one. -/
theorem u16_field {w : Reg} (k j : Nat) :
    u16 (orSi (andSi (srliEpi16 w k) (set1Epi16 0x000F))
      (andSi (srliEpi16 w 2) (set1Epi16 0x0030))) j
      = (UInt8.ofNat (u16 w j / 2 ^ k) &&& (0xF : UInt8)
        ||| (w (2 * j) >>> 6 <<< 4)).toNat := by
  have h0F := set1Epi16_byte (v := 0x0F) (by decide) j
  have h30 := set1Epi16_byte (v := 0x30) (by decide) j
  have heven : ∀ k, srliEpi16 w k (2 * j) = UInt8.ofNat (u16 w j / 2 ^ k) :=
    fun k => ofU16_even _ j
  have htop := topBits (w (2 * j)) (w (2 * j + 1))
  rw [u16, orSi, orSi, andSi, andSi, andSi, andSi, heven, heven]
  rw [show (0x000F : Int) = ((0x0F : Nat) : Int) from rfl,
    show (0x0030 : Int) = ((0x30 : Nat) : Int) from rfl, h0F.1,
    h0F.2, h30.1, h30.2, ← htop]
  simp [u16]

/-- The words that pair the bytes of the scales. -/
def scaleWords (u : Reg) : Reg :=
  shuffleEpi8 u [4, 12, 5, 13, 6, 14, 7, 15, -128, -128, -128, -128, -128,
    -128, -128, -128]

/-- The words that pair the bytes of the mins. -/
def minWords (u : Reg) : Reg :=
  shuffleEpi8 u [8, 12, 9, 13, 10, 14, 11, 15, -128, -128, -128, -128, -128,
    -128, -128, -128]

theorem scaleWords_byte (u : Reg) {j : Nat} (hj : j < 4) :
    scaleWords u (2 * j) = u (4 + j) ∧ scaleWords u (2 * j + 1) = u (12 + j) := by
  interval_cases j <;> exact ⟨rfl, rfl⟩

theorem minWords_byte (u : Reg) {j : Nat} (hj : j < 4) :
    minWords u (2 * j) = u (8 + j) ∧ minWords u (2 * j + 1) = u (12 + j) := by
  interval_cases j <;> exact ⟨rfl, rfl⟩

/-- The decoded scales are the ones the scalar kernel unpacks. -/
theorem u16_scales (u : Reg) {j : Nat} (hj : j < 8) :
    u16 (Avx2.q4kScalesRaw u).1 j = (unpackScale (loadAt u 4) j).toNat := by
  by_cases hlow : j < 4
  · have hword := scaleWords_byte u hlow
    rw [Avx2.q4kScalesRaw, u16_unpacklo_low hlow, unpackScale, if_pos hlow]
    exact (u16_masked (v := 0x3F) (by decide) j).trans
      (by rw [← scaleWords, hword.1]; rfl)
  · obtain ⟨i, rfl⟩ := Nat.exists_eq_add_of_le (not_lt.1 hlow)
    have hword := scaleWords_byte u (show i < 4 by omega)
    have hhigh : UInt8.ofNat (u16 (scaleWords u) i / 2 ^ 8) = u (12 + i) := by
      have hlo := (u (4 + i)).toNat_lt
      have hhi := (u (12 + i)).toNat_lt
      apply UInt8.toNat_inj.1
      rw [u16, hword.1, hword.2, UInt8.toNat_ofNat']
      omega
    rw [Avx2.q4kScalesRaw, u16_unpacklo_high, unpackScale, if_neg hlow]
    refine (u16_field (w := scaleWords u) 8 i).trans ?_
    rw [hhigh, hword.1, loadAt, loadAt, show 4 + (4 + i + 4) = 12 + i by omega,
      show 4 + (4 + i - 4) = 4 + i by omega]

/-- The decoded mins are the ones the scalar kernel unpacks. -/
theorem u16_mins (u : Reg) {j : Nat} (hj : j < 8) :
    u16 (Avx2.q4kScalesRaw u).2 j = (unpackMin (loadAt u 4) j).toNat := by
  by_cases hlow : j < 4
  · have hword := minWords_byte u hlow
    rw [Avx2.q4kScalesRaw, u16_unpacklo_low hlow, unpackMin, if_pos hlow]
    refine (u16_masked (x := minWords u) (v := 0x3F) (by decide) j).trans ?_
    rw [hword.1, loadAt, show 4 + (j + 4) = 8 + j by omega]
    rfl
  · obtain ⟨i, rfl⟩ := Nat.exists_eq_add_of_le (not_lt.1 hlow)
    have hword := minWords_byte u (show i < 4 by omega)
    have hhigh : UInt8.ofNat (u16 (minWords u) i / 2 ^ 12) &&& (0xF : UInt8)
        = u (12 + i) >>> 4 := by
      have hlo := (u (8 + i)).toNat_lt
      have hhi := (u (12 + i)).toNat_lt
      apply UInt8.toNat_inj.1
      rw [show (0xF : UInt8) = UInt8.ofNat (2 ^ 4 - 1) from rfl,
        toNat_and_ones _ (by decide), u16, hword.1, hword.2,
        UInt8.toNat_ofNat', UInt8.toNat_shiftRight]
      change _ = (u (12 + i)).toNat >>> 4
      rw [Nat.shiftRight_eq_div_pow]
      omega
    rw [Avx2.q4kScalesRaw, u16_unpacklo_high, unpackMin, if_neg hlow]
    refine (u16_field (w := minWords u) 12 i).trans ?_
    rw [hhigh, hword.1, loadAt, loadAt, show 4 + (4 + i + 4) = 12 + i by omega,
      show 4 + (4 + i) = 8 + i by omega]

theorem toNat_or_lt {a b : UInt8} {k : Nat} (ha : a.toNat < 2 ^ k)
    (hb : b.toNat < 2 ^ k) :
    (a ||| b).toNat < 2 ^ k := by
  rw [UInt8.toNat_or]
  exact Nat.or_lt_two_pow ha hb

theorem toNat_and_15_lt (b : UInt8) : (b &&& 0x0F).toNat < 16 := by
  rw [show (0x0F : UInt8) = UInt8.ofNat (2 ^ 4 - 1) from rfl,
    toNat_and_ones _ (by decide)]
  exact Nat.mod_lt _ (by decide)

theorem toNat_and_63_lt (b : UInt8) : (b &&& 0x3F).toNat < 64 := by
  rw [show (0x3F : UInt8) = UInt8.ofNat (2 ^ 6 - 1) from rfl,
    toNat_and_ones _ (by decide)]
  exact Nat.mod_lt _ (by decide)

theorem toNat_shr_lt (b : UInt8) {k w : Nat} (hk : k < 8) (hw : k + w = 8) :
    (b >>> UInt8.ofNat k).toNat < 2 ^ w := by
  have hb := b.toNat_lt
  rw [UInt8.toNat_shiftRight, UInt8.toNat_ofNat',
    Nat.mod_eq_of_lt (show k < 2 ^ 8 by omega), Nat.mod_eq_of_lt hk,
    Nat.shiftRight_eq_div_pow, Nat.div_lt_iff_lt_mul (Nat.two_pow_pos k),
      ← pow_add, Nat.add_comm w, hw]
  exact hb

theorem toNat_shl_four {b : UInt8} (hb : b.toNat < 16) :
    (b <<< 4).toNat = b.toNat * 16 := by
  rw [UInt8.toNat_shiftLeft, Nat.shiftLeft_eq]
  exact Nat.mod_eq_of_lt (show b.toNat * 2 ^ 4 < 2 ^ 8 by omega)

theorem unpackScale_lt (sc : Reg) (j : Nat) : (unpackScale sc j).toNat < 64 := by
  have htop := toNat_shr_lt (sc (j - 4)) (k := 6) (w := 2) (by decide) rfl
  rw [unpackScale]
  split
  · exact toNat_and_63_lt _
  · apply toNat_or_lt (k := 6) (by have hnib := toNat_and_15_lt (sc (j + 4)); omega)
    rw [show sc (j - 4) >>> 6 = sc (j - 4) >>> UInt8.ofNat 6 from rfl,
      toNat_shl_four (by omega)]
    omega

theorem unpackMin_lt (sc : Reg) (j : Nat) : (unpackMin sc j).toNat < 64 := by
  have htop := toNat_shr_lt (sc j) (k := 6) (w := 2) (by decide) rfl
  rw [unpackMin]
  split
  · exact toNat_and_63_lt _
  · have hnib := toNat_shr_lt (sc (j + 4)) (k := 4) (w := 4) (by decide) rfl
    apply toNat_or_lt (k := 6) (lt_trans hnib (by decide))
    rw [show sc j >>> 6 = sc j >>> UInt8.ofNat 6 from rfl, toNat_shl_four (by omega)]
    omega

theorem i16_eq_of_lt {x : Reg} {j n : Nat} (h : u16 x j = n) (hn : n < 32768) :
    i16 x j = n := by
  rw [i16, h, if_pos hn]

-- =========================== min terms

theorem i16_loadAt (b : Reg) (off s : Nat) : i16 (loadAt b off) s = i16At b
    (off + 2 * s) := by
  apply i16_congr
  intro r _
  rw [loadAt, loadAt, Nat.mul_zero, Nat.zero_add, Nat.add_assoc]

/-- The sum of mins by pairs of activation sums. -/
def minSum (w q8b : Reg) : Int :=
  ∑ s ∈ Finset.range 8, (unpackMin (loadAt w 4) s).toNat
    * (i16At q8b (274 + 2 * (2 * s)) + i16At q8b (274 + 2 * (2 * s + 1)))

theorem abs_pair_le (q8b : Reg) (s : Nat) :
    |i16At q8b (274 + 2 * (2 * s)) + i16At q8b (274 + 2 * (2 * s + 1))| ≤ 65536 :=
  (abs_add_le _ _).trans (add_le_add (abs_i16_le _ _) (abs_i16_le _ _))

theorem abs_min_le (w : Reg) (s : Nat) :
    |((unpackMin (loadAt w 4) s).toNat : Int)| ≤ 63 := by
  have hlt := unpackMin_lt (loadAt w 4) s
  rw [Nat.abs_cast]
  exact_mod_cast (show _ ≤ 63 by omega)

theorem minTerm_eq (w q8b : Reg) : minTerm w q8b = pure (minSum w q8b) := by
  apply sumI32_eq (63 * 65536)
  · intro s _
    have hpair := abs_pair_le q8b s
    have hprod := abs_mul_le (abs_min_le w s) hpair
    dsimp only
    rw [trackI32_of_abs_le (hpair.trans (by decide)), pure_bind,
      trackI32_of_abs_le (hprod.trans (by decide))]
  · exact fun s _ => abs_mul_le (abs_min_le w s) (abs_pair_le q8b s)
  · decide

theorem avx2_minTerm_eq (w q8b : Reg) : Avx2.minTerm w q8b = pure (minSum w q8b) := by
  have hpairs : Holds i32 8 (maddEpi16 8 (loadAt q8b 274) (set1Epi16 1))
      fun s => i16At q8b (274 + 2 * (2 * s)) + i16At q8b (274 + 2 * (2 * s + 1)) := by
    have hlanes : ∀ s < 8, i16 (loadAt q8b 274) (2 * s) * i16 (set1Epi16 1) (2 * s)
        + i16 (loadAt q8b 274) (2 * s + 1) * i16 (set1Epi16 1) (2 * s + 1)
          = i16At q8b (274 + 2 * (2 * s)) + i16At q8b (274 + 2 * (2 * s + 1)) := by
      intro s _
      rw [i16_set1Epi16 (by decide), i16_set1Epi16 (by decide), mul_one,
        mul_one, i16_loadAt, i16_loadAt]
    apply (holds_lanesI32 _).congr hlanes
    intro s hs
    rw [hlanes s hs]
    exact (abs_pair_le q8b s).trans (by decide)
  rw [Avx2.minTerm]
  apply hpairs.bind_pure
  intro pairs hr
  have hterms :
      Holds i32 8 (mulloEpi32 8
        (cvtepu16Epi32 (Avx2.q4kScalesRaw (loadAt w 0)).2) pairs)
      fun s => (unpackMin (loadAt w 4) s).toNat
        * (i16At q8b (274 + 2 * (2 * s)) + i16At q8b (274 + 2 * (2 * s + 1))) := by
    have hlanes : ∀ s < 8,
        i32 (cvtepu16Epi32 (Avx2.q4kScalesRaw (loadAt w 0)).2) s * i32 pairs s
        = (unpackMin (loadAt w 4) s).toNat
          * (i16At q8b (274 + 2 * (2 * s)) + i16At q8b (274 + 2 * (2 * s + 1))) := by
      intro s hs
      have hmin := abs_min_le w s
      have hload : loadAt (loadAt w 0) 4 = loadAt w 4 := by
        funext i
        rw [loadAt, loadAt, Nat.zero_add, loadAt]
      rw [hr s hs, cvtepu16Epi32, i32_ofI32, u16_mins _ hs, hload,
        wrapI32_of_mem (.of_abs_le (by omega))]
    apply (holds_lanesI32 _).congr hlanes
    intro s hs
    rw [hlanes s hs]
    exact (abs_mul_le (abs_min_le w s) (abs_pair_le q8b s)).trans (by decide)
  apply hterms.bind_pure
  intro terms hterm
  apply hsumEpi32_eq hterm
  intro s _
  exact (abs_mul_le (abs_min_le w s) (abs_pair_le q8b s)).trans (by decide)

end Minfer.Quants
