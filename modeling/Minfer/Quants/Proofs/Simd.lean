/-
The vector kernels give what the scalar kernels give (`quants/avx2.rs`,
`quants/avx512.rs`), and no step of them leaves its range.

The bytes of a register are the quants of the scalar kernel, and the lanes of
the decoded scales are its scales. So the same integers reach the floats, in
the same order.

The instructions are those of `Lib.Lanes`, saturation and all. That nothing
saturates is proved, not assumed: five-bit and six-bit quants are small
(`small_quants`), and so are the offsets that the Q6_K kernels correct for
(`q6kCorrection_eq`). Once what each half's loop adds is known, the lanes of a
superblock are the sums of its chunks (`holds_laneSum`).
-/
import Mathlib.Data.List.GetD
import Minfer.Quants.Proofs.Fields

namespace Minfer.Quants

open Minfer.Lib

-- ======================= Q4_K and Q5_K

theorem subSums_congr {s s' : Nat → Int} {u u' y y' : Nat → Nat → Int}
    (hs : ∀ j < 4, s j = s' j) (hu : ∀ j < 4, ∀ l < 32, u j l = u' j l)
    (hy : ∀ j < 4, ∀ l < 32, y j l = y' j l) :
    subSums s u y = subSums s' u' y' := by
  apply Finset.sum_congr rfl
  intro j hj
  have hj := Finset.mem_range.1 hj
  rw [hs j hj]
  congr 1
  apply Finset.sum_congr rfl
  intro l hl
  have hl := Finset.mem_range.1 hl
  rw [hu j hj l hl, hy j hj l hl]

theorem nibblesLo_apply (bits : Reg) (i : Nat) :
    Avx2.nibblesLo bits i = bits i &&& 0x0F := rfl

theorem nibblesHi_apply (bits : Reg) (i : Nat) :
    Avx2.nibblesHi bits i = bits i >>> 4 := by
  have hmask := srliEpi16_and (k := 4) (w := 4) (by decide) (by decide) bits i
  refine hmask.trans (UInt8.toNat_inj.1 ?_)
  rw [toNat_and_ones _ (by decide)]
  exact Nat.mod_eq_of_lt (toNat_shr_lt _ (by decide) rfl)

theorem toNat_nibblesHi_lt (bits : Reg) (i : Nat) :
    (Avx2.nibblesHi bits i).toNat < 16 := by
  rw [nibblesHi_apply]
  exact toNat_shr_lt _ (k := 4) (w := 4) (by decide) rfl

/-- The sums of a superblock with scales and mins, by the quants of its pairs
of sub-blocks. -/
def superSum (w q8b : Reg) (lo hi : Nat → Nat → Int) : Int :=
  subSums (fun j => (unpackScale (loadAt w 4) (2 * j)).toNat) lo
    (fun j => signed (loadAt q8b (2 + 64 * j)))
    + subSums (fun j => (unpackScale (loadAt w 4) (2 * j + 1)).toNat) hi
      (fun j => signed (loadAt q8b (2 + 64 * j + 32)))

theorem abs_scale_le (w : Reg) (j : Nat) :
    |((unpackScale (loadAt w 4) j).toNat : Int)| ≤ 128 := by
  have hlt := unpackScale_lt (loadAt w 4) j
  rw [Nat.abs_cast]
  exact_mod_cast (show _ ≤ 128 by omega)

/-- The two loops of a scalar kernel, with what is added at the end. -/
theorem scalarTotal_eq (w q8b : Reg) (lo hi : Nat → Nat → Int)
    (hlo : ∀ j l, |lo j l| ≤ 127) (hhi : ∀ j l, |hi j l| ≤ 127) :
    (do
      let sumi1 ← sumI32 4 fun j => do
        let sLo ← sumI32 32 fun l => trackI32 (lo j l * i8 (q8b (2 + 64 * j + l)))
        trackI32 (sLo * (unpackScale (loadAt w 4) (2 * j)).toNat)
      let sumi2 ← sumI32 4 fun j => do
        let sHi ← sumI32 32 fun l =>
          trackI32 (hi j l * i8 (q8b (2 + 64 * j + 32 + l)))
        trackI32 (sHi * (unpackScale (loadAt w 4) (2 * j + 1)).toNat)
      trackI32 (sumi1 + sumi2)) = pure (superSum w q8b lo hi) := by
  have h1 := scalarSums_eq (s :=
    fun j => ((unpackScale (loadAt w 4) (2 * j)).toNat : Int))
    (y := fun j => signed (loadAt q8b (2 + 64 * j)))
      (fun j _ => abs_scale_le w _) hlo (fun _ _ => abs_i8_le _)
  have h2 := scalarSums_eq (s :=
    fun j => ((unpackScale (loadAt w 4) (2 * j + 1)).toNat : Int))
    (y := fun j => signed (loadAt q8b (2 + 64 * j + 32)))
      (fun j _ => abs_scale_le w _) hhi (fun _ _ => abs_i8_le _)
  have hadd := (abs_add_le _ _).trans (add_le_add
    (abs_subSums_le (s := fun j => ((unpackScale (loadAt w 4) (2 * j)).toNat : Int))
      (y := fun j => signed (loadAt q8b (2 + 64 * j)))
        (fun j _ => abs_scale_le w _) (fun j _ => hlo j)
        (fun _ _ => abs_i8_le _))
    (abs_subSums_le (s :=
      fun j => ((unpackScale (loadAt w 4) (2 * j + 1)).toNat : Int))
      (y := fun j => signed (loadAt q8b (2 + 64 * j + 32)))
        (fun j _ => abs_scale_le w _) (fun j _ => hhi j)
        (fun _ _ => abs_i8_le _)))
  refine (congrArg₂ (fun a b => a >>= fun sumi1 => b >>= fun sumi2 =>
    trackI32 (sumi1 + sumi2)) h1 h2).trans ?_
  rw [pure_bind, pure_bind]
  exact trackI32_of_abs_le (hadd.trans (by decide))

/-- A vector kernel's sums, once its bytes are the scalar kernel's quants. -/
theorem vectorTotal_eq (w q8b : Reg) (lo hi : Nat → Reg)
    (lo' hi' : Nat → Nat → Int) (hlo : ∀ j < 4, Small (lo j))
    (hhi : ∀ j < 4, Small (hi j))
    (hlo' : ∀ j < 4, ∀ l < 32, unsigned (lo j) l = lo' j l)
    (hhi' : ∀ j < 4, ∀ l < 32, unsigned (hi j) l = hi' j l) :
    Avx2.scaledSums (i16 (Avx2.q4kScalesRaw (loadAt w 0)).1) lo hi q8b
      = pure (superSum w q8b lo' hi')
      ∧ Avx512.scaledSums (Avx2.q4kScalesRaw (loadAt w 0)).1 lo hi q8b
        = pure (superSum w q8b lo' hi') := by
  have hload : loadAt (loadAt w 0) 4 = loadAt w 4 := by
    funext i
    rw [loadAt, loadAt, Nat.zero_add, loadAt]
  have hscale : ∀ j < 8, i16 (Avx2.q4kScalesRaw (loadAt w 0)).1 j
      = (unpackScale (loadAt w 4) j).toNat := by
    intro j hj
    have hlt := unpackScale_lt (loadAt w 4) j
    rw [← hload] at hlt ⊢
    exact i16_eq_of_lt (u16_scales _ hj) (by omega)
  have hbound : ∀ j < 8, |i16 (Avx2.q4kScalesRaw (loadAt w 0)).1 j| ≤ 128 := by
    intro j hj
    rw [hscale j hj]
    exact abs_scale_le w j
  rw [avx2_scaledSums_eq q8b hbound hlo hhi,
    avx512_scaledSums_eq q8b hbound hlo hhi, superSum,
    subSums_congr (fun j hj => hscale (2 * j) (by omega)) hlo' (fun _ _ _ _ => rfl),
    subSums_congr (fun j hj => hscale (2 * j + 1) (by omega)) hhi'
      (fun _ _ _ _ => rfl)]
  exact ⟨rfl, rfl⟩

theorem small_nibblesLo (bits : Reg) : Small (Avx2.nibblesLo bits) := by
  intro i
  have hlt := toNat_and_15_lt (bits i)
  rw [nibblesLo_apply]
  omega

theorem small_nibblesHi (bits : Reg) : Small (Avx2.nibblesHi bits) := by
  intro i
  have hlt := toNat_nibblesHi_lt bits i
  omega

theorem abs_toNat_le {b : UInt8} {n : Int} (h : (b.toNat : Int) ≤ n) :
    |(b.toNat : Int)| ≤ n := by
  rwa [Nat.abs_cast]

/-- The sums of a `Q4_K` superblock. -/
theorem q4KTotal_sum (w q8b : Reg) : q4KTotal w q8b = pure (superSum w q8b
    (fun j l => (w (16 + 32 * j + l) &&& 0x0F).toNat) fun j l =>
      (w (16 + 32 * j + l) >>> 4).toNat) := by
  apply scalarTotal_eq
  · intro j l
    have hlt := toNat_and_15_lt (w (16 + 32 * j + l))
    exact abs_toNat_le (by omega)
  · intro j l
    have hlt : (w (16 + 32 * j + l) >>> 4).toNat < 16 :=
      toNat_shr_lt _ (k := 4) (w := 4) (by decide) rfl
    exact abs_toNat_le (by omega)

theorem q4KTotal_eq (w q8b : Reg) : ∃ total, q4KTotal w q8b = pure total
    ∧ Avx2.q4KTotal w q8b = pure total
    ∧ Avx512.q4KTotal w q8b = pure total := by
  have hvector :=
    vectorTotal_eq w q8b (fun j => Avx2.nibblesLo (loadAt w (16 + 32 * j)))
    (fun j => Avx2.nibblesHi (loadAt w (16 + 32 * j)))
      (fun j l => (w (16 + 32 * j + l) &&& 0x0F).toNat)
    (fun j l => (w (16 + 32 * j + l) >>> 4).toNat)
    (fun j _ => small_nibblesLo _) (fun j _ => small_nibblesHi _) (fun _ _ _ _ => rfl)
    (fun j _ l _ => by rw [unsigned, nibblesHi_apply, loadAt])
  exact ⟨_, q4KTotal_sum w q8b, hvector.1, hvector.2⟩

theorem toNat_and_one_lt (b : UInt8) : (b &&& 1).toNat < 2 := by
  rw [show (1 : UInt8) = UInt8.ofNat (2 ^ 1 - 1) from rfl,
    toNat_and_ones _ (by decide)]
  exact Nat.mod_lt _ (by decide)

theorem toNat_and_three_lt (b : UInt8) : (b &&& 3).toNat < 4 := by
  rw [show (3 : UInt8) = UInt8.ofNat (2 ^ 2 - 1) from rfl,
    toNat_and_ones _ (by decide)]
  exact Nat.mod_lt _ (by decide)

theorem withHighBit_apply (nibbles qhv : Reg) {sh : Nat} (hsh : sh < 8) (i : Nat) :
    Avx2.withHighBit nibbles qhv sh i
      = nibbles i ||| ((qhv i >>> UInt8.ofNat sh &&& 1) <<< 4) := by
  have hbit : andSi (srlvEpi32 qhv (set1Epi32 sh)) (set1Epi8 1) = fun i =>
      qhv i >>> UInt8.ofNat sh &&& 1 := by
    funext i
    exact srlvEpi32_and (k := sh) (w := 1) (by omega) (by decide) qhv i
  rw [Avx2.withHighBit, hbit, orSi, slliEpi16_four]
  intro i
  have hlt := toNat_and_one_lt (qhv i >>> UInt8.ofNat sh)
  omega

/-- A nibble under a fifth bit. -/
theorem toNat_five_lt {nibble bit : UInt8} (hn : nibble.toNat < 16)
    (hb : bit.toNat < 2) :
    (nibble ||| (bit <<< 4)).toNat < 2 ^ 5 := by
  apply toNat_or_lt (k := 5) (by omega)
  rw [toNat_shl_four (by omega)]
  omega

theorem q5KNibble_lt (w : Reg) (i : Nat) : (q5KNibble w i).toNat < 16 := by
  rw [q5KNibble]
  split
  · exact toNat_and_15_lt _
  · exact toNat_shr_lt _ (k := 4) (w := 4) (by decide) rfl

theorem q5KQuant_lt (w : Reg) (s k : Nat) : (q5KQuant w s k).toNat < 2 ^ 5 :=
  toNat_five_lt (q5KNibble_lt w _) (toNat_and_one_lt _)

variable {j k i n : Nat} {w : Reg}

theorem quantsLo_apply (w : Reg) {l : Nat} (hj : j < 4) (hl : l < 32) :
    Avx2.quantsLo w j l = q5KQuant w (2 * j) l := by
  rw [Avx2.quantsLo, withHighBit_apply _ _ (by omega), q5KQuant, q5KNibble,
    if_pos (by omega),
    show (2 * j * 32 + l) / 64 * 32 = 32 * j by
      omega, show (2 * j * 32 + l) % 32 = l by omega]
  rfl

theorem quantsHi_apply (w : Reg) {l : Nat} (hj : j < 4) (hl : l < 32) :
    Avx2.quantsHi w j l = q5KQuant w (2 * j + 1) l := by
  rw [Avx2.quantsHi, withHighBit_apply _ _ (by omega), nibblesHi_apply,
    q5KQuant, q5KNibble, if_neg (by omega),
    show ((2 * j + 1) * 32 + l) / 64 * 32 = 32 * j by
      omega, show ((2 * j + 1) * 32 + l) % 32 = l by omega]

/-- The quants of a `Q5_K` superblock have no sign bit, at any place. -/
theorem small_quants (w : Reg) (hj : j < 4) :
    Small (Avx2.quantsLo w j) ∧ Small (Avx2.quantsHi w j) := by
  constructor
  · intro i
    rw [Avx2.quantsLo, withHighBit_apply _ _ (by omega)]
    have hlt := toNat_five_lt (toNat_and_15_lt (loadAt w (48 + 32 * j) i))
      (toNat_and_one_lt (loadAt w 16 i >>> UInt8.ofNat (2 * j)))
    rw [nibblesLo_apply]
    omega
  · intro i
    rw [Avx2.quantsHi, withHighBit_apply _ _ (by omega)]
    have hlt := toNat_five_lt (toNat_nibblesHi_lt (loadAt w (48 + 32 * j)) i)
      (toNat_and_one_lt (loadAt w 16 i >>> UInt8.ofNat (2 * j + 1)))
    omega

/-- The sums of a `Q5_K` superblock. -/
theorem q5KTotal_sum (w q8b : Reg) : q5KTotal w q8b = pure (superSum w q8b
    (fun j l => (q5KQuant w (2 * j) l).toNat) fun j l =>
      (q5KQuant w (2 * j + 1) l).toNat) := by
  have hquant : ∀ s k, |((q5KQuant w s k).toNat : Int)| ≤ 127 := by
    intro s k
    have hlt := q5KQuant_lt w s k
    exact abs_toNat_le (by omega)
  have hscalar := scalarTotal_eq w q8b (fun j l => (q5KQuant w (2 * j) l).toNat)
    (fun j l => (q5KQuant w (2 * j + 1) l).toNat) (fun j l => hquant _ l)
      (fun j l => hquant _ l)
  have hlow : ∀ j k, 2 + 2 * j * 32 + k = 2 + 64 * j + k := by
    intro j k
    omega
  have hhigh : ∀ j k, 2 + (2 * j + 1) * 32 + k = 2 + 64 * j + 32 + k := by
    intro j k
    omega
  rw [← hscalar, q5KTotal]
  simp only [hlow, hhigh]

theorem q5KTotal_eq (w q8b : Reg) : ∃ total, q5KTotal w q8b = pure total
    ∧ Avx2.q5KTotal w q8b = pure total
    ∧ Avx512.q5KTotal w q8b = pure total := by
  have hvector := vectorTotal_eq w q8b (Avx2.quantsLo w) (Avx2.quantsHi w)
    (fun j l => (q5KQuant w (2 * j) l).toNat)
      (fun j l => (q5KQuant w (2 * j + 1) l).toNat)
      (fun j hj => (small_quants w hj).1)
    (fun j hj => (small_quants w hj).2)
      (fun j hj l hl => by rw [unsigned, quantsLo_apply w hj hl])
    (fun j hj l hl => by rw [unsigned, quantsHi_apply w hj hl])
  exact ⟨_, q5KTotal_sum w q8b, hvector.1, hvector.2⟩

-- ================================ Q6_K

theorem sixBits_apply (nibbles highs : Reg) (i : Nat) :
    Avx2.sixBits nibbles highs i = nibbles i ||| ((highs i &&& 3) <<< 4) := by
  rw [Avx2.sixBits, orSi, slliEpi16_four]
  · rfl
  · intro i
    have hlt := toNat_and_three_lt (highs i)
    rw [andSi, set1Epi8]
    omega

theorem srliEpi16_and_three (x : Reg) (hk : k ≤ 6) (i : Nat) :
    srliEpi16 x k i &&& 3 = x i >>> UInt8.ofNat k &&& 3 :=
  srliEpi16_and (k := k) (w := 2) (by omega) (by decide) x i

/-- A code of a `Q6_K` superblock, by half, run and place. -/
def codeAt (w : Reg) (n run l : Nat) : UInt8 :=
  let ql := loadAt w (n * 64)
  let qh := loadAt w (128 + n * 32)
  match run with
  | 0 => (ql l &&& (0x0F : UInt8)) ||| ((qh l &&& 3) <<< 4)
  | 1 => (ql (l + 32) &&& (0x0F : UInt8)) ||| ((qh l >>> 2 &&& 3) <<< 4)
  | 2 => (ql l >>> 4) ||| ((qh l >>> 4 &&& 3) <<< 4)
  | _ => (ql (l + 32) >>> 4) ||| ((qh l >>> 6 &&& 3) <<< 4)

theorem q6KCode_eq {run l : Nat} (hn : i / 128 = n)
    (hrun : i % 128 / 32 = run) (hl : i % 32 = l) :
    q6KCode w i = codeAt w n run l := by
  subst hn hrun hl
  rfl

/-- The groups of the vector kernels are the scalar kernel's codes. -/
theorem q6kGroup_apply (w : Reg) (n : Nat) {g : Nat} (hg : g < 8)
    (hi : i < 16) :
    Avx2.q6kGroup w n g i = q6KCode w (128 * n + 16 * g + i) := by
  have hload0 : ∀ b, loadAt (loadAt w b) 0 i = loadAt w b i := fun b => by
    rw [loadAt, Nat.zero_add]
  have hload16 : ∀ b, loadAt (loadAt w b) 16 i = loadAt w b (i + 16) := fun b => by
    rw [loadAt, Nat.add_comm]
  have hload32 : ∀ b, loadAt (loadAt w b) 32 i = loadAt w b (i + 32) := fun b => by
    rw [loadAt, Nat.add_comm]
  have hload48 : ∀ b, loadAt (loadAt w b) 48 i = loadAt w b (i + 16 + 32) :=
      fun b => by
    rw [loadAt, Nat.add_comm, Nat.add_assoc]
  have hcode : q6KCode w (128 * n + 16 * g + i)
      = codeAt w n (g / 2) (i + 16 * (g % 2)) :=
    q6KCode_eq (by omega) (by omega) (by omega)
  rw [hcode]
  interval_cases g <;> refine (sixBits_apply _ _ i).trans ?_
  all_goals
    simp only [nibblesLo_apply, nibblesHi_apply,
      srliEpi16_and_three _ (show 2 ≤ 6 by decide),
      srliEpi16_and_three _ (show 4 ≤ 6 by decide),
        srliEpi16_and_three _ (show 6 ≤ 6 by decide), hload0, hload16,
      hload32, hload48]
    rfl

theorem toNat_sixBits_le {nibbles highs : Reg}
    (hn : ∀ i, (nibbles i).toNat < 16) (i : Nat) :
    (Avx2.sixBits nibbles highs i).toNat < 2 ^ 6 := by
  rw [sixBits_apply]
  have hlt := toNat_and_three_lt (highs i)
  have hnib := hn i
  apply toNat_or_lt (k := 6) (by omega)
  rw [toNat_shl_four (by omega)]
  omega

theorem small_q6kGroup (w : Reg) (n g : Nat) : Small (Avx2.q6kGroup w n g) := by
  intro i
  have hlo : ∀ bits i, (Avx2.nibblesLo bits i).toNat < 16 :=
    fun bits i => toNat_and_15_lt (bits i)
  have hsix : ∀ r ∈ Avx2.q6kUnsignedGroups w n, (r i).toNat < 2 ^ 6 := by
    simp only [Avx2.q6kUnsignedGroups, List.forall_mem_cons]
    exact ⟨toNat_sixBits_le (hlo _) i, toNat_sixBits_le (hlo _) i,
      toNat_sixBits_le (hlo _) i,
      toNat_sixBits_le (hlo _) i, toNat_sixBits_le (toNat_nibblesHi_lt _) i,
        toNat_sixBits_le (toNat_nibblesHi_lt _) i,
      toNat_sixBits_le (toNat_nibblesHi_lt _) i,
        toNat_sixBits_le (toNat_nibblesHi_lt _) i, by simp⟩
  by_cases hg : g < (Avx2.q6kUnsignedGroups w n).length
  · rw [Avx2.q6kGroup, List.getD_eq_getElem _ _ hg]
    have hlt := hsix _ (List.getElem_mem hg)
    omega
  · rw [Avx2.q6kGroup, List.getD_eq_default _ _ (by omega)]
    exact Nat.zero_le _

theorem q6KCode_lt (w : Reg) (i : Nat) : (q6KCode w i).toNat ≤ 127 := by
  have hgroup :=
    q6kGroup_apply w (i / 128) (g := i % 128 / 16) (i := i % 16) (by omega)
    (by omega)
  rw [show 128 * (i / 128) + 16 * (i % 128 / 16) + i % 16 = i by omega] at hgroup
  rw [← hgroup]
  exact small_q6kGroup w _ _ _

/-- The codes of a superblock, as integers. -/
def codes (w : Reg) (i : Nat) : Int := (q6KCode w i).toNat

theorem abs_codes_le (w : Reg) (i : Nat) : |codes w i| ≤ 127 := by
  have hle := q6KCode_lt w i
  exact abs_toNat_le (by omega)

theorem i8_q6KCode (w : Reg) (i : Nat) : i8 (q6KCode w i) = codes w i := by
  have hle := q6KCode_lt w i
  rw [i8, if_pos (by omega), codes]

/-- What chunk `c` gives a lane: four products under the scale of their group. -/

def chunk (w q8b : Reg) (c k : Nat) : Int :=
  q6KScale w (2 * c + k / 4) * quad (codes w) (signed (loadAt q8b 2)) (8 * c + k)

/-- The offset of 32 that a lane takes off. -/
def offset (w q8b : Reg) (k : Nat) : Int :=
  32 * (q6KScale w (2 * k) * i16At q8b (274 + 4 * k) + q6KScale w
    (2 * k + 1) * i16At q8b (274 + 4 * k + 2))

/-- A lane of a `Q6_K` superblock. -/
def laneSum (w q8b : Reg) (k : Nat) : Int :=
  ∑ c ∈ Finset.range 8, chunk w q8b c k - offset w q8b k

theorem abs_chunk_le (w q8b : Reg) (c k : Nat) : |chunk w q8b c k| ≤ 128 * 65024 :=
  abs_mul_le (abs_i8_le _)
    (abs_quad_le (abs_codes_le w) (fun l => abs_i8_le (loadAt q8b 2 l)) _)

theorem abs_pairs_le (w q8b : Reg) (k : Nat) :
    |q6KScale w (2 * k) * i16At q8b (274 + 4 * k) + q6KScale w
      (2 * k + 1) * i16At q8b (274 + 4 * k + 2)|
      ≤ 8388608 :=
  (abs_add_le _ _).trans (add_le_add (abs_mul_le (abs_i8_le _) (abs_i16_le _ _))
    (abs_mul_le (abs_i8_le _) (abs_i16_le _ _)))

theorem abs_offset_le (w q8b : Reg) (k : Nat) : |offset w q8b k| ≤ 268435456 :=
  abs_mul_le (m := 32) (by decide) (abs_pairs_le w q8b k)

theorem abs_chunks_le (w q8b : Reg) (k : Nat) :
    |∑ c ∈ Finset.range 8, chunk w q8b c k| ≤ 66584576 :=
  abs_sum_range_le _ fun c _ => abs_chunk_le w q8b c k

theorem abs_laneSum_le (w q8b : Reg) (k : Nat) : |laneSum w q8b k| ≤ 335020032 :=
  (abs_sub _ _).trans (add_le_add (abs_chunks_le w q8b k) (abs_offset_le w q8b k))

/-- The scalar kernel's lanes. -/
theorem q6KLane_eq (w q8b : Reg) (hk : k < 8) :
    q6KLane w q8b k = pure (laneSum w q8b k) := by
  have hplace : ∀ c,
      (if k < 4 then 32 * c + 4 * k else 32 * c + 4 * (k - 4) + 16)
      = 4 * (8 * c + k) := by
    intro c
    split <;> omega
  have hscale : ∀ c,
      (if k < 4 then q6KScale w (2 * c) else q6KScale w (2 * c + 1))
      = q6KScale w (2 * c + k / 4) := by
    intro c
    split
    · rw [Nat.div_eq_of_lt ‹_›, Nat.add_zero]
    · rw [show k / 4 = 1 by omega]
  have hprod : ∀ i, |i8 (q6KCode w i) * i8 (q8b (2 + i))| ≤ 127 * 128 := by
    intro i
    rw [i8_q6KCode]
    exact abs_mul_le (abs_codes_le w i) (abs_i8_le _)
  have hquad : ∀ c, sumI32 4 (fun e => trackI32
        (i8 (q6KCode w (4 * (8 * c + k) + e)) * i8 (q8b (2 + (4 * (8 * c + k) + e)))))
      = pure (quad (codes w) (signed (loadAt q8b 2)) (8 * c + k)) := by
    intro c
    apply sumI32_eq (127 * 128)
    · intro e _
      rw [trackI32_of_abs_le ((hprod _).trans (by decide)), i8_q6KCode]
      rfl
    · intro e _
      rw [← i8_q6KCode]
      exact hprod _
    · decide
  have hchunks : sumI32 8 (fun c => do
        let i := if k < 4 then 32 * c + 4 * k else 32 * c + 4 * (k - 4) + 16
        let p ← sumI32 4 fun e =>
          trackI32 (i8 (q6KCode w (i + e)) * i8 (q8b (2 + (i + e))))
        trackI32 ((if k < 4 then q6KScale w (2 * c) else q6KScale w (2 * c + 1)) * p))
      = pure (∑ c ∈ Finset.range 8, chunk w q8b c k) := by
    apply sumI32_eq (128 * 65024)
    · intro c _
      simp only [hplace, hscale]
      rw [hquad, pure_bind]
      exact trackI32_of_abs_le ((abs_chunk_le w q8b c k).trans (by decide))
    · exact fun c _ => abs_chunk_le w q8b c k
    · decide
  have hmul : ∀ g off, |q6KScale w g * i16At q8b off| ≤ 2147483647 := fun g off =>
    (abs_mul_le (abs_i8_le _) (abs_i16_le _ _)).trans (by decide)
  rw [q6KLane, hchunks, pure_bind]
  rw [trackI32_of_abs_le (hmul _ _), pure_bind, trackI32_of_abs_le (hmul _ _),
    pure_bind,
    trackI32_of_abs_le ((abs_pairs_le w q8b k).trans (by decide)), pure_bind,
    trackI32_of_abs_le
      (show |32 * _| ≤ 2147483647 from (abs_offset_le w q8b k).trans
        (by decide)), pure_bind]
  exact trackI32_of_abs_le ((abs_laneSum_le w q8b k).trans (by decide))

/-- The offset of the vector kernels. -/
theorem q6kCorrection_eq (w q8b : Reg) : Holds i32 8 (Avx2.q6kCorrection w q8b)
    (offset w q8b) := by
  have hsums :
      Holds i32 8 (maddEpi16 8 (loadAt q8b 274)
        (cvtepi8Epi16 (loadAt w 192))) fun k =>
      q6KScale w (2 * k) * i16At q8b (274 + 4 * k) + q6KScale w
          (2 * k + 1) * i16At q8b (274 + 4 * k + 2) := by
    have hscale : ∀ g, i16 (cvtepi8Epi16 (loadAt w 192)) g = q6KScale w g := by
      intro g
      have hle := abs_i8_le (loadAt w 192 g)
      rw [cvtepi8Epi16, i16_ofI16, wrapI16_of_mem (.of_abs_le (by omega))]
      rfl
    have hlanes : ∀ k < 8,
        i16 (loadAt q8b 274) (2 * k) * i16 (cvtepi8Epi16 (loadAt w 192))
        (2 * k)
        + i16 (loadAt q8b 274) (2 * k + 1) * i16 (cvtepi8Epi16 (loadAt w 192))
          (2 * k + 1)
          = q6KScale w (2 * k) * i16At q8b (274 + 4 * k) + q6KScale w
            (2 * k + 1) * i16At q8b (274 + 4 * k + 2) := by
      intro k _
      rw [hscale, hscale, i16_loadAt, i16_loadAt, mul_comm,
        mul_comm (i16At q8b (274 + 2 * (2 * k + 1))),
        show 274 + 2 * (2 * k) = 274 + 4 * k by
          omega, show 274 + 2 * (2 * k + 1) = 274 + 4 * k + 2 by omega]
    apply (holds_lanesI32 _).congr hlanes
    intro k hk
    rw [hlanes k hk]
    exact (abs_pairs_le w q8b k).trans (by decide)
  rw [Avx2.q6kCorrection]
  apply hsums.bind
  intro sums hr
  have hlanes : ∀ k < 8, i32 sums k * 2 ^ 5 = offset w q8b k := by
    intro k hk
    rw [hr k hk, offset, mul_comm]
    rfl
  apply (holds_lanesI32 _).congr hlanes
  intro k hk
  rw [hlanes k hk]
  exact (abs_offset_le w q8b k).trans (by decide)

/-- The lanes of a superblock, once what each half's loop adds makes up the
chunks. -/
theorem holds_laneSum {q8b : Reg} {m : Nat} {term : Nat → Nat → Tracked Reg}
    {f : Nat → Nat → Nat → Int}
    (bound : Int) (hterm : ∀ n < 2, ∀ t < m, Holds i32 8 (term n t) (f n t))
    (hbound : ∀ n t i, |f n t i| ≤ bound) (hm : m * bound + m * bound ≤ 2147483647)
    (hchunks : ∀ i, ∑ t ∈ Finset.range m, f 0 t i + ∑ t ∈ Finset.range m,
      f 1 t i = ∑ c ∈ Finset.range 8, chunk w q8b c i) :
    Holds i32 8 (do
        let corr ← Avx2.q6kCorrection w q8b
        let sumi ← (List.range 2).foldlM
          (fun sumi n => accumulateEpi32 8 m sumi (term n)) (set1Epi8 0)
        subEpi32 8 sumi corr) (laneSum w q8b) := by
  have hpos : 0 ≤ bound := (abs_nonneg _).trans (hbound 0 0 0)
  have hmpos : 0 ≤ (m : Int) * bound := mul_nonneg (Int.natCast_nonneg m) hpos
  have hfirst := holds_accumulate (n := 8) (a := fun _ => 0) 0 bound
    (fun i _ => i32_zero i) (by simp) (hterm 0 (by decide))
      (fun t _ i _ => hbound 0 t i) hpos (by omega)
  have hhalf : ∀ i < 8, |0 + ∑ t ∈ Finset.range m, f 0 t i| ≤ m * bound := by
    intro i _
    rw [zero_add]
    exact abs_sum_range_le _ fun t _ => hbound 0 t i
  have hsumi :
      Holds i32 8 ((List.range 2).foldlM
        (fun sumi n => accumulateEpi32 8 m sumi (term n)) (set1Epi8 0))
      fun i => ∑ c ∈ Finset.range 8, chunk w q8b c i := by
    apply hfirst.bind
    intro r hr
    have hsecond :=
      holds_accumulate (n := 8) (m * bound) bound hr hhalf
      (hterm 1 (by decide))
      (fun t _ i _ => hbound 1 t i) hpos hm
    apply hsecond.bind
    intro r' hr'
    refine ⟨r', rfl, ?_⟩
    intro i hi
    rw [hr' i hi, zero_add, hchunks]
  apply (q6kCorrection_eq w q8b).bind
  intro corr hcorr
  apply hsumi.bind
  intro sumi hr
  have hlanes : ∀ i < 8, i32 sumi i - i32 corr i = laneSum w q8b i := by
    intro i hi
    rw [hr i hi, hcorr i hi, laneSum]
  apply (holds_lanesI32 _).congr hlanes
  intro i hi
  rw [hlanes i hi]
  exact (abs_laneSum_le w q8b i).trans (by decide)

/-- Four products of a group against the activations at its place. -/
theorem quad_codes {q8b u y : Reg} {c : Nat}
    (hu : ∀ e < 4, u (4 * i + e) = q6KCode w (32 * c + 4 * j + e))
    (hy : ∀ e < 4, y (4 * i + e) = q8b (2 + (32 * c + 4 * j + e))) :
    quad (unsigned u) (signed y) i
      = quad (codes w) (signed (loadAt q8b 2)) (8 * c + j) := by
  apply quad_congr
  · intro e he
    rw [unsigned, hu e he, codes, show 4 * (8 * c + j) + e
      = 32 * c + 4 * j + e by omega]
  · intro e he
    rw [signed, hy e he, signed, loadAt, show 4 * (8 * c + j) + e
      = 32 * c + 4 * j + e by omega]

/-- A lane of 16-bit scales, one for each half of the register. -/
theorem i16_halves {a b : Int} (ha : |a| ≤ 128) (hb : |b| ≤ 128) (i : Nat) :
    i16 (insertAt 16 (set1Epi16 a) (set1Epi16 b)) i = if i < 8 then a else b := by
  by_cases hi : i < 8
  · have hlow : i16 (insertAt 16 (set1Epi16 a) (set1Epi16 b)) i
        = i16 (set1Epi16 a) i :=
      i16_congr fun r hr => insertAt_of_lt (by omega) _ _
    rw [if_pos hi, hlow, i16_set1Epi16 ha]
  · obtain ⟨i', rfl⟩ := Nat.exists_eq_add_of_le (not_lt.1 hi)
    have hhigh : i16 (insertAt 16 (set1Epi16 a) (set1Epi16 b)) (8 + i')
        = i16 (set1Epi16 b) i' := by
      apply i16_congr
      intro r _
      rw [show 2 * (8 + i') + r = 16 + (2 * i' + r) by omega, insertAt_add]
    rw [if_neg hi, hhigh, i16_set1Epi16 hb]

theorem holds_scaled_left {u y sv : Reg} {s : Nat → Int}
    (hu : Small u) (hs : ∀ i < n, |s i| ≤ 128)
    (hsv : ∀ i < n, i16 sv (2 * i) = s i ∧ i16 sv (2 * i + 1) = s i) :
    Holds i32 n (maddubsEpi16 (2 * n) u y >>= fun p => maddEpi16 n sv p)
      fun i => s i * quad (unsigned u) (signed y) i := by
  simp only [maddEpi16_comm n sv]
  exact holds_scaled hu hs hsv

/-- Two groups of a half, one in each half of a register. -/
theorem group_pair {t : Nat} (ht : t < 4) (hk : k < 32) :
    insertAt 16 (Avx2.q6kGroup w n (2 * t)) (Avx2.q6kGroup w n (2 * t + 1)) k
      = q6KCode w (32 * (4 * n + t) + k) := by
  by_cases hlow : k < 16
  · rw [insertAt_of_lt hlow, q6kGroup_apply w n (by omega) hlow]
    congr 1
    omega
  · obtain ⟨k', rfl⟩ := Nat.exists_eq_add_of_le (not_lt.1 hlow)
    rw [insertAt_add, q6kGroup_apply w n (by omega) (by omega)]
    congr 1
    omega

/-- The scales of two groups of a half, each over its lanes. -/
theorem scale_pair (n t : Nat) (hi : i < 16) :
    i16 (insertAt 16 (set1Epi16 (i8 (w (192 + (n * 8 + 2 * t)))))
        (set1Epi16 (i8 (w (192 + (n * 8 + 2 * t) + 1))))) i
          = q6KScale w (2 * (4 * n + t) + i / 2 / 4) := by
  rw [i16_halves (abs_i8_le _) (abs_i8_le _), q6KScale]
  split
  · rw [show i / 2 / 4 = 0 by omega, show 2 * (4 * n + t) + 0
      = n * 8 + 2 * t by omega]
  · rw [show i / 2 / 4 = 1 by omega, show 192 + (2 * (4 * n + t) + 1)
      = 192 + (n * 8 + 2 * t) + 1 by omega]

/-- The lanes of the AVX2 kernel: a chunk is two groups. -/
theorem avx2_q6KLanes_eq (w q8b : Reg) : Holds i32 8 (Avx2.q6KLanes w q8b)
    (laneSum w q8b) := by
  apply holds_laneSum (m := 4) (f := fun n t => chunk w q8b (4 * n + t)) (128 * 65024)
  · intro n _ t ht
    have hlanes : ∀ i < 8,
          i16 (insertAt 16 (set1Epi16 (i8 (w (192 + (n * 8 + 2 * t)))))
          (set1Epi16 (i8 (w (192 + (n * 8 + 2 * t) + 1))))) (2 * i)
            = q6KScale w (2 * (4 * n + t) + i / 4)
        ∧ i16 (insertAt 16 (set1Epi16 (i8 (w (192 + (n * 8 + 2 * t)))))
          (set1Epi16 (i8 (w (192 + (n * 8 + 2 * t) + 1))))) (2 * i + 1)
              = q6KScale w (2 * (4 * n + t) + i / 4) := by
      intro i hi
      rw [scale_pair n t (by omega), scale_pair n t (by omega),
        show 2 * i / 2 / 4 = i / 4 by omega,
        show (2 * i + 1) / 2 / 4 = i / 4 by omega]
      exact ⟨rfl, rfl⟩
    have hsmall :=
      (small_q6kGroup w n (2 * t)).insertAt (n := 16)
      (small_q6kGroup w n (2 * t + 1))
    have hscaled :=
      holds_scaled_left (y := loadAt q8b (2 + (n * 8 + 2 * t) * 16)) hsmall
      (fun _ _ => abs_i8_le _) hlanes
    apply hscaled.congr
    intro i hi
    rw [chunk]
    congr 1
    apply quad_codes
    · intro e he
      rw [group_pair ht (by omega), Nat.add_assoc]
    · intro e _
      rw [loadAt, show 2 + (n * 8 + 2 * t) * 16 + (4 * i + e)
        = 2 + (32 * (4 * n + t) + 4 * i + e) by omega]
  · exact fun n t i => abs_chunk_le w q8b _ i
  · decide
  · intro i
    rw [show 8 = 4 + 4 from rfl, Finset.sum_range_add]
    simp

/-- Four groups of a half in one register. -/
theorem group_four {p : Nat} (hp : p < 2) (hk : k < 64) :
    Avx512.combine128 (Avx2.q6kGroup w n (p * 4))
        (Avx2.q6kGroup w n (p * 4 + 1)) (Avx2.q6kGroup w n (p * 4 + 2))
        (Avx2.q6kGroup w n (p * 4 + 3)) k = q6KCode w (64 * (2 * n + p) + k) := by
  have hpair : ∀ t < 4, ∀ i < 32,
      insertAt 16 (Avx2.q6kGroup w n (2 * t)) (Avx2.q6kGroup w n (2 * t + 1)) i
      = q6KCode w (32 * (4 * n + t) + i) := fun t ht i hi => group_pair ht hi
  rw [Avx512.combine128]
  by_cases h48 : k < 48
  · rw [insertAt_of_lt h48]
    by_cases h32 : k < 32
    · rw [insertAt_of_lt h32, show p * 4 = 2 * (2 * p) by omega,
        hpair (2 * p) (by omega) k h32]
      congr 1
      omega
    · obtain ⟨k', rfl⟩ := Nat.exists_eq_add_of_le (not_lt.1 h32)
      rw [insertAt_add, q6kGroup_apply w n (by omega) (by omega)]
      congr 1
      omega
  · obtain ⟨k', rfl⟩ := Nat.exists_eq_add_of_le (not_lt.1 h48)
    rw [insertAt_add, q6kGroup_apply w n (by omega) (by omega)]
    congr 1
    omega

theorem small_four (w : Reg) (n p : Nat) :
    Small (Avx512.combine128 (Avx2.q6kGroup w n (p * 4))
      (Avx2.q6kGroup w n (p * 4 + 1))
      (Avx2.q6kGroup w n (p * 4 + 2)) (Avx2.q6kGroup w n (p * 4 + 3))) :=
  (((small_q6kGroup w n _).insertAt (small_q6kGroup w n _)).insertAt
    (small_q6kGroup w n _)).insertAt
    (small_q6kGroup w n _)

/-- `vpdpbusd` from nothing: the sums of four products. -/
theorem holds_dpbusd {u y : Reg} (hu : Small u) :
    Holds i32 n (dpbusdEpi32 n (set1Epi8 0) u y) (quad (unsigned u) (signed y)) := by
  have hlanes : ∀ i < n, i32 (set1Epi8 0) i + ((u (4 * i)).toNat * i8 (y (4 * i))
      + (u (4 * i + 1)).toNat * i8 (y (4 * i + 1)) + (u (4 * i + 2)).toNat * i8
        (y (4 * i + 2))
      + (u (4 * i + 3)).toNat * i8 (y (4 * i + 3)))
          = quad (unsigned u) (signed y) i := by
    intro i _
    rw [i32_zero, zero_add, quad, Finset.sum_range_succ, Finset.sum_range_succ,
      Finset.sum_range_succ, Finset.sum_range_one]
    rfl
  apply (holds_lanesI32 _).congr hlanes
  intro i hi
  rw [hlanes i hi]
  exact (abs_quad_le hu.abs_le (fun l => abs_i8_le (y l)) i).trans (by decide)

/-- The lanes of the AVX-512 kernel: two chunks are four groups. -/
theorem avx512_q6KLanes_eq (w q8b : Reg) : Holds i32 8 (Avx512.q6KLanes w q8b)
    (laneSum w q8b) := by
  apply holds_laneSum (m := 2)
    (f := fun n p i =>
      chunk w q8b (2 * (2 * n + p)) i + chunk w q8b (2 * (2 * n + p) + 1) i)
    (2 * (128 * 65024))
  · intro n _ p hp
    apply (holds_dpbusd (small_four w n p)).bind
    intro dot hdot
    have hcodes : ∀ r < 2, ∀ i < 8, i32 dot (8 * r + i)
        = quad (codes w) (signed (loadAt q8b 2)) (8 * (2 * (2 * n + p) + r) + i) := by
      intro r hr i hi
      rw [hdot (8 * r + i) (by omega)]
      apply quad_codes
      · intro e he
        rw [group_four hp (by omega)]
        congr 1
        omega
      · intro e _
        rw [loadAt]
        congr 1
        omega
    have hscales : ∀ r < 2, ∀ i < 8,
        i32 (Avx512.scalesBy4 fun r => i8 (w (192 + (n * 8 + p * 4) + r)))
        (8 * r + i)
        = q6KScale w (2 * (2 * (2 * n + p) + r) + i / 4) := by
      intro r hr i hi
      rw [Avx512.scalesBy4, i32_ofI32]
      rw [wrapI32_of_mem (.of_abs_le ((abs_i8_le _).trans (by decide))), q6KScale]
      congr 2
      omega
    have hlanes : ∀ r < 2, ∀ i < 8,
        i32 dot (8 * r + i) * i32
          (Avx512.scalesBy4 fun r => i8 (w (192 + (n * 8 + p * 4) + r)))
          (8 * r + i)
          = chunk w q8b (2 * (2 * n + p) + r) i := by
      intro r hr i hi
      rw [hcodes r hr i hi, hscales r hr i hi, chunk, mul_comm]
    have hscaled : Holds i32 16
        (mulloEpi32 16 dot
          (Avx512.scalesBy4 fun r => i8 (w (192 + (n * 8 + p * 4) + r))))
        fun i => chunk w q8b (2 * (2 * n + p) + i / 8) (i % 8) := by
      have hall : ∀ i < 16,
          i32 dot i * i32
          (Avx512.scalesBy4 fun r => i8 (w (192 + (n * 8 + p * 4) + r))) i
          = chunk w q8b (2 * (2 * n + p) + i / 8) (i % 8) := by
        intro i hi
        rw [← hlanes (i / 8) (by omega) (i % 8) (Nat.mod_lt _ (by decide)),
          Nat.div_add_mod]
      apply (holds_lanesI32 _).congr hall
      intro i hi
      rw [hall i hi]
      exact (abs_chunk_le w q8b _ _).trans (by decide)
    apply hscaled.bind
    intro scaled hr
    have hfold : ∀ i < 8, i32 scaled i + i32 (extractAt 32 scaled) i
        = chunk w q8b (2 * (2 * n + p)) i + chunk w q8b (2 * (2 * n + p) + 1) i := by
      intro i hi
      rw [show 32 = 4 * 8 from rfl, i32_extractAt, hr i (by omega),
        hr (8 + i) (by omega), Nat.div_eq_of_lt hi,
        Nat.mod_eq_of_lt hi, show (8 + i) / 8 = 1 by
          omega, show (8 + i) % 8 = i by omega, Nat.add_zero]
    apply (holds_lanesI32 _).congr hfold
    intro i hi
    rw [hfold i hi]
    have hadd :=
      (abs_add_le _ _).trans
      (add_le_add (abs_chunk_le w q8b (2 * (2 * n + p)) i)
      (abs_chunk_le w q8b (2 * (2 * n + p) + 1) i))
    exact hadd.trans (by decide)
  · intro n p i
    have hadd :=
      (abs_add_le _ _).trans
      (add_le_add (abs_chunk_le w q8b (2 * (2 * n + p)) i)
      (abs_chunk_le w q8b (2 * (2 * n + p) + 1) i))
    exact hadd.trans (by decide)
  · decide
  · intro i
    simp only [Finset.sum_range_succ, Finset.sum_range_zero, Nat.reduceMul,
      Nat.reduceAdd]
    omega

-- ============================ the rows

section Rows

variable {F : Type} (fo : FloatOps F)

/-- A row whose superblocks stay in range does. -/
theorem dotWithMins_pure (blockLen : Nat) {mterm total : Reg → Reg → Tracked Int}
    (hmterm : ∀ w q8b, ∃ m, mterm w q8b = pure m)
    (htotal : ∀ w q8b, ∃ t, total w q8b = pure t) (w q8k : List UInt8) :
    ∃ v, dotWithMins fo blockLen mterm total w q8k = pure v := by
  apply Tracked.foldlM_pure
  intro sumf i
  obtain ⟨m, hm⟩ := hmterm (load w (i * blockLen)) (load q8k (i * q8KB))
  obtain ⟨t, ht⟩ := htotal (load w (i * blockLen)) (load q8k (i * q8KB))
  dsimp only
  rw [hm, pure_bind, ht, pure_bind]
  exact ⟨_, rfl⟩

/-- One value of all three kernels, and no step of them out of range. -/
def Agree (scalar avx2 avx512 : Tracked F) : Prop :=
  ∃ v, scalar = pure v ∧ avx2 = pure v ∧ avx512 = pure v

theorem agree_withMins (blockLen : Nat)
    {total total2 total512 : Reg → Reg → Tracked Int}
    (h : ∀ w q8b, ∃ t, total w q8b = pure t ∧ total2 w q8b = pure t
      ∧ total512 w q8b = pure t) (w q8k : List UInt8) :
    Agree (dotWithMins fo blockLen minTerm total w q8k)
      (dotWithMins fo blockLen Avx2.minTerm total2 w q8k)
      (dotWithMins fo blockLen Avx2.minTerm total512 w q8k) := by
  have hmins : Avx2.minTerm = minTerm := by
    funext w q8b
    rw [avx2_minTerm_eq, minTerm_eq]
  have h2 : total2 = total := by
    funext w q8b
    obtain ⟨t, ht, ht2, -⟩ := h w q8b
    rw [ht2, ht]
  have h512 : total512 = total := by
    funext w q8b
    obtain ⟨t, ht, -, ht512⟩ := h w q8b
    rw [ht512, ht]
  obtain ⟨v, hv⟩ := dotWithMins_pure fo blockLen (fun w q8b => ⟨_, minTerm_eq w q8b⟩)
    (fun w q8b => (h w q8b).imp fun _ ht => ht.1) w q8k
  rw [hmins, h2, h512]
  exact ⟨v, hv, hv, hv⟩

theorem tabulate_lanes (w q8b : Reg) :
    ∃ lane, tabulate 8 (q6KLane w q8b) = pure lane
      ∧ ∀ k < 8, lane k = laneSum w q8b k := by
  refine ⟨fun k => (q6KLane w q8b k).value, ?_, ?_⟩
  · have hall : (List.range 8).all (fun k => (q6KLane w q8b k).inRange) = true := by
      rw [List.all_eq_true]
      intro k hk
      rw [q6KLane_eq w q8b (List.mem_range.1 hk)]
      rfl
    rw [tabulate, hall]
    rfl
  · intro k hk
    exact congrArg Tracked.value (q6KLane_eq w q8b hk)

/-- A kernel by lanes adds the same floats to each lane. -/
theorem dotByLanes_eq {lanes : Reg → Reg → Tracked Reg}
    (h : ∀ w q8b, Holds i32 8 (lanes w q8b) (laneSum w q8b))
    (q6 q8k : List UInt8) :
    ∃ v, dotQ6KQ8KScalar fo q6 q8k = pure v
      ∧ Avx2.dotByLanes fo lanes q6 q8k = pure v := by
  have hloop :=
    Tracked.foldlM_related (fun (acc acc' : Nat → F) => ∀ k < 8,
      acc k = acc' k)
    (f := fun acc i => do
      let lane ← tabulate 8 (q6KLane (load q6 (i * q6KB)) (load q8k (i * q8KB)))
      return fun k =>
        fo.add (acc k) (fo.mul (fo.mul (f16At fo (load q6 (i * q6KB)) 208)
        (f16At fo (load q8k (i * q8KB)) 0)) (fo.ofI32 (lane k))))
    (g := fun acc i => do
      let sub ← lanes (load q6 (i * q6KB)) (load q8k (i * q8KB))
      return Avx2.addPs fo acc
        (Avx2.mulPs fo (Avx2.set1Ps (fo.mul (f16At fo (load q6 (i * q6KB)) 208)
        (f16At fo (load q8k (i * q8KB)) 0))) (Avx2.cvtepi32Ps fo sub)))
    (by
      intro acc acc' i hacc
      obtain ⟨lane, hlane, hsums⟩ :=
        tabulate_lanes (load q6 (i * q6KB)) (load q8k (i * q8KB))
      obtain ⟨r, hr, hlanes⟩ := h (load q6 (i * q6KB)) (load q8k (i * q8KB))
      rw [hlane, hr, pure_bind, pure_bind]
      refine ⟨_, _, rfl, rfl, ?_⟩
      intro k hk
      have hlane := (hsums k hk).trans (hlanes k hk).symm
      exact congrArg₂ fo.add (hacc k hk)
        (congrArg (fun z => fo.mul _ (fo.ofI32 z)) hlane))
    (List.range (q6.length / q6KB)) (s := fun _ => fo.zero)
      (t := Avx2.set1Ps fo.zero) (fun _ _ => rfl)
  obtain ⟨acc, acc', hscalar, hvector, hacc⟩ := hloop
  have htree : reduceTree fo acc = reduceTree fo acc' := by
    rw [reduceTree, reduceTree, hacc 0 (by decide), hacc 1 (by decide),
      hacc 2 (by decide), hacc 3 (by decide),
      hacc 4 (by decide), hacc 5 (by decide), hacc 6 (by decide), hacc 7 (by decide)]
  refine ⟨reduceTree fo acc, ?_, ?_⟩
  · exact congrArg (· >>= fun acc => pure (reduceTree fo acc)) hscalar
  · rw [htree]
    exact congrArg (· >>= fun acc => pure (reduceTree fo acc)) hvector

theorem agree_kernels (w q8k : List UInt8) :
    Agree (dotQ4KQ8KScalar fo w q8k) (Avx2.dotQ4KQ8K fo w q8k)
      (Avx512.dotQ4KQ8K fo w q8k)
      ∧ Agree (dotQ5KQ8KScalar fo w q8k) (Avx2.dotQ5KQ8K fo w q8k)
        (Avx512.dotQ5KQ8K fo w q8k)
      ∧ Agree (dotQ6KQ8KScalar fo w q8k) (Avx2.dotQ6KQ8K fo w q8k)
        (Avx512.dotQ6KQ8K fo w q8k) := by
  refine ⟨agree_withMins fo q4KB q4KTotal_eq w q8k,
    agree_withMins fo q5KB q5KTotal_eq w q8k, ?_⟩
  obtain ⟨v, hscalar, havx2⟩ := dotByLanes_eq fo avx2_q6KLanes_eq w q8k
  obtain ⟨v', hscalar', havx512⟩ := dotByLanes_eq fo avx512_q6KLanes_eq w q8k
  have hv : v' = v := congrArg Tracked.value (hscalar'.symm.trans hscalar)
  rw [hv] at havx512
  exact ⟨v, hscalar, havx2, havx512⟩

/-- Whatever the machine has, a dot product is the scalar one. -/
theorem dispatch_eq_scalar (cpu : Cpu) (w q8k : List UInt8) :
    dotQ4KQ8K fo cpu w q8k = dotQ4KQ8KScalar fo w q8k
      ∧ dotQ5KQ8K fo cpu w q8k = dotQ5KQ8KScalar fo w q8k
      ∧ dotQ6KQ8K fo cpu w q8k = dotQ6KQ8KScalar fo w q8k := by
  have hpick : ∀ avx512 avx2 scalar : List UInt8 → List UInt8 → Tracked F,
      Agree (scalar w q8k) (avx2 w q8k) (avx512 w q8k) →
        dispatch cpu avx512 avx2 scalar w q8k = scalar w q8k := by
    intro avx512 avx2 scalar hagree
    obtain ⟨v, hscalar, havx2, havx512⟩ := hagree
    rw [dispatch]
    split
    · rw [havx512, hscalar]
    · split
      · rw [havx2, hscalar]
      · rfl
  obtain ⟨h4, h5, h6⟩ := agree_kernels fo w q8k
  exact ⟨hpick _ _ _ h4, hpick _ _ _ h5, hpick _ _ _ h6⟩

/-- The AVX2 and the AVX-512 kernels give what the scalar kernels give, for any
bytes of the two rows and any float operations; no pair sum saturates and no
lane wraps. So a dot product does not depend on the machine. -/
theorem simd_eq_scalar (w q8k : List UInt8) :
    (Agree (dotQ4KQ8KScalar fo w q8k) (Avx2.dotQ4KQ8K fo w q8k)
      (Avx512.dotQ4KQ8K fo w q8k)
      ∧ Agree (dotQ5KQ8KScalar fo w q8k) (Avx2.dotQ5KQ8K fo w q8k)
        (Avx512.dotQ5KQ8K fo w q8k)
      ∧ Agree (dotQ6KQ8KScalar fo w q8k) (Avx2.dotQ6KQ8K fo w q8k)
        (Avx512.dotQ6KQ8K fo w q8k))
    ∧ ∀ cpu, dotQ4KQ8K fo cpu w q8k = dotQ4KQ8KScalar fo w q8k
      ∧ dotQ5KQ8K fo cpu w q8k = dotQ5KQ8KScalar fo w q8k
      ∧ dotQ6KQ8K fo cpu w q8k = dotQ6KQ8KScalar fo w q8k :=
  ⟨agree_kernels fo w q8k, fun cpu => dispatch_eq_scalar fo cpu w q8k⟩

end Rows

end Minfer.Quants
