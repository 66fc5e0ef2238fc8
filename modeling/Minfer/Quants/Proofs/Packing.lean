/-
What the encoders pack into the bytes of a superblock, and where.

Fields that share a byte stand side by side in it, so an OR is a sum; each
field is read off again by a division and a remainder. A block's bytes stand
where the kernels look for them.
-/
import Mathlib.Data.List.GetD
import Minfer.Quants.Encode
import Minfer.Quants.Proofs.Simd

namespace Minfer.Quants

open Minfer.Lib

-- =============================== bytes

variable {k : Nat} {a b : UInt8} {w : Reg}

theorem toNat_shr (b : UInt8) (hk : k < 8) :
    (b >>> UInt8.ofNat k).toNat = b.toNat / 2 ^ k := by
  rw [UInt8.toNat_shiftRight, UInt8.toNat_ofNat',
    Nat.mod_eq_of_lt (show k < 2 ^ 8 by omega), Nat.mod_eq_of_lt hk,
    Nat.shiftRight_eq_div_pow]

/-- Two fields of a byte: the upper one starts above the lower one. -/
theorem toNat_or_shl (hk : k < 8)
    (ha : a.toNat < 2 ^ k) (hb : b.toNat * 2 ^ k < 256) :
    (a ||| (b <<< UInt8.ofNat k)).toNat = a.toNat + b.toNat * 2 ^ k := by
  rw [UInt8.toNat_or, UInt8.toNat_shiftLeft, UInt8.toNat_ofNat',
    Nat.mod_eq_of_lt (show k < 2 ^ 8 by omega),
    Nat.mod_eq_of_lt hk, Nat.shiftLeft_eq, Nat.mod_eq_of_lt hb, Nat.or_comm,
      Nat.mul_comm,
    ← Nat.two_pow_add_eq_or_of_lt ha, Nat.add_comm]

/-- A field of a byte, under its mask. -/
theorem toNat_field {w : Nat} (hk : k < 8) (hw : w ≤ 8) :
    (b >>> UInt8.ofNat k &&& UInt8.ofNat (2 ^ w - 1)).toNat
      = b.toNat / 2 ^ k % 2 ^ w := by
  rw [toNat_and_ones _ hw, toNat_shr _ hk]

theorem toNat_and_15 (b : UInt8) : (b &&& 0x0F).toNat = b.toNat % 16 :=
  toNat_and_ones b (w := 4) (by decide)

theorem toNat_and_63 (b : UInt8) : (b &&& 0x3F).toNat = b.toNat % 64 :=
  toNat_and_ones b (w := 6) (by decide)

-- ===================== scales and mins

/-- The twelve bytes, written out. -/
theorem packScales_eq (ls lm : Nat → UInt8) :
    packScales ls lm
      = [ls 0 ||| (ls 4 >>> 4 <<< 6), ls 1 ||| (ls 5 >>> 4 <<< 6),
        ls 2 ||| (ls 6 >>> 4 <<< 6), ls 3 ||| (ls 7 >>> 4 <<< 6),
        lm 0 ||| (lm 4 >>> 4 <<< 6), lm 1 ||| (lm 5 >>> 4 <<< 6),
        lm 2 ||| (lm 6 >>> 4 <<< 6), lm 3 ||| (lm 7 >>> 4 <<< 6),
        (ls 4 &&& (0xF : UInt8)) ||| ((lm 4 &&& 0xF) <<< 4),
        (ls 5 &&& (0xF : UInt8)) ||| ((lm 5 &&& 0xF) <<< 4),
        (ls 6 &&& (0xF : UInt8)) ||| ((lm 6 &&& 0xF) <<< 4),
        (ls 7 &&& (0xF : UInt8)) ||| ((lm 7 &&& 0xF) <<< 4)] := by
  simp [packScales, List.range_succ, List.replicate]

/-- A byte of the first eight: six bits of one field under the top bits of another. -/
theorem packScales_low (ls lm : Nat → UInt8) {j : Nat} (hj : j < 4) :
    (packScales ls lm).getD j 0 = ls j ||| (ls (j + 4) >>> 4 <<< 6)
      ∧ (packScales ls lm).getD (j + 4) 0 = lm j ||| (lm (j + 4) >>> 4 <<< 6)
      ∧ (packScales ls lm).getD (j + 8) 0
        = (ls (j + 4) &&& (0xF : UInt8)) ||| ((lm (j + 4) &&& 0xF) <<< 4) := by
  rw [packScales_eq]
  interval_cases j <;> exact ⟨rfl, rfl, rfl⟩

/-- Six bits under two. -/
theorem toNat_six_two (ha : a.toNat < 64) (hb : b.toNat < 64) :
    (a ||| (b >>> 4 <<< 6)).toNat = a.toNat + b.toNat / 16 * 64 := by
  have hshift : (b >>> 4).toNat = b.toNat / 16 := toNat_shr b (k := 4) (by decide)
  have hor := toNat_or_shl (a := a) (b := b >>> 4) (k := 6) (by decide) ha
    (by rw [hshift]; omega)
  rw [hshift] at hor
  exact hor

/-- Four bits under four. -/
theorem toNat_four_four (a b : UInt8) :
    ((a &&& (0xF : UInt8)) ||| ((b &&& 0xF) <<< 4)).toNat
      = a.toNat % 16 + b.toNat % 16 * 16 := by
  have ha := toNat_and_15 a
  have hb := toNat_and_15 b
  have hor := toNat_or_shl (a := a &&& 0xF) (b := b &&& 0xF) (k := 4)
    (by decide) (by omega) (by omega)
  rw [ha, hb] at hor
  exact hor

/-- A field that is put together again. -/
theorem toNat_rejoin {n t : UInt8} {v : Nat} (hn : n.toNat = v % 16)
    (ht : t.toNat / 64 = v / 16) (hv : v < 64) :
    (n ||| (t >>> 6 <<< 4)).toNat = v := by
  have hshift : (t >>> 6).toNat = t.toNat / 64 := toNat_shr t (k := 6) (by decide)
  have hor := toNat_or_shl (a := n) (b := t >>> 6) (k := 4) (by decide)
    (by omega) (by rw [hshift]; omega)
  refine hor.trans ?_
  rw [hshift]
  omega

/-- What is unpacked is what was packed. -/
theorem unpack_packScales {ls lm : Nat → UInt8} (hls : ∀ j, (ls j).toNat < 64)
    (hlm : ∀ j, (lm j).toNat < 64)
    {sc : Reg} (hsc : ∀ i < 12, sc i = (packScales ls lm).getD i 0) {j : Nat}
    (hj : j < 8) :
    unpackScale sc j = ls j ∧ unpackMin sc j = lm j := by
  by_cases hlow : j < 4
  · obtain ⟨h0, h4, -⟩ := packScales_low ls lm hlow
    have hs := toNat_six_two (hls j) (hls (j + 4))
    have hm := toNat_six_two (hlm j) (hlm (j + 4))
    have hj0 := hls j
    have hm0 := hlm j
    rw [unpackScale, unpackMin, if_pos hlow, if_pos hlow, hsc j (by omega),
      hsc (j + 4) (by omega), h0, h4]
    constructor
    · apply UInt8.toNat_inj.1
      rw [toNat_and_63, hs]
      omega
    · apply UInt8.toNat_inj.1
      rw [toNat_and_63, hm]
      omega
  · obtain ⟨i, rfl⟩ := Nat.exists_eq_add_of_le' (not_lt.1 hlow)
    obtain ⟨h0, h4, h8⟩ := packScales_low ls lm (show i < 4 by omega)
    have hs := toNat_six_two (hls i) (hls (i + 4))
    have hm := toNat_six_two (hlm i) (hlm (i + 4))
    have hn := toNat_four_four (ls (i + 4)) (lm (i + 4))
    have hs0 := hls i
    have hm0 := hlm i
    rw [unpackScale, unpackMin, if_neg hlow, if_neg hlow, Nat.add_sub_cancel,
      hsc i (by omega),
      hsc (i + 4) (by omega), hsc (i + 4 + 4) (by omega), h0, h4,
        show i + 4 + 4 = i + 8 by omega, h8]
    constructor
    · apply UInt8.toNat_inj.1
      apply toNat_rejoin
      · rw [toNat_and_15, hn]
        omega
      · rw [hs]
        omega
      · exact hls _
    · apply UInt8.toNat_inj.1
      apply toNat_rejoin
      · have hshift : ∀ b : UInt8, (b >>> 4).toNat = b.toNat / 16 :=
          fun b => toNat_shr b (k := 4) (by decide)
        rw [hshift, hn]
        omega
      · rw [hm]
        omega
      · exact hlm _

-- ============================== blocks

theorem length_flatMap_range {g : Nat → List UInt8} {m n : Nat}
    (hlen : ∀ j, (g j).length = n) :
    ((List.range m).flatMap g).length = m * n := by
  induction m with
  | zero => rw [List.range_zero, List.flatMap_nil, List.length_nil, Nat.zero_mul]
  | succ m ih =>
      rw [List.range_succ, List.flatMap_append, List.length_append, ih,
        List.flatMap_singleton, hlen, Nat.succ_mul]

/-- Blocks of one length, one after another: a byte is found by its block and
its place in it. -/
theorem getD_flatMap_range {g : Nat → List UInt8} {m n j : Nat}
    (hlen : ∀ j, (g j).length = n) (hj : j < m)
    (hk : k < n) : ((List.range m).flatMap g).getD
    (j * n + k) 0 = (g j).getD k 0 := by
  induction m with
  | zero => omega
  | succ m ih =>
      have hprev := length_flatMap_range (m := m) hlen
      rw [List.range_succ, List.flatMap_append, List.flatMap_singleton]
      by_cases hlast : j < m
      · have hplace : j * n + k < m * n := by
          have hmul := Nat.mul_le_mul_right n (show j + 1 ≤ m from hlast)
          rw [Nat.succ_mul] at hmul
          omega
        rw [List.getD_append _ _ _ _ (by omega), ih hlast]
      · obtain rfl : j = m := by omega
        rw [List.getD_append_right _ _ _ _ (by omega), hprev, Nat.add_sub_cancel_left]

theorem getD_map_range (f : Nat → UInt8) {n : Nat} (hk : k < n) :
    ((List.range n).map f).getD k 0 = f k := by
  rw [List.getD_eq_getElem _ _ (by simpa using hk), List.getElem_map,
    List.getElem_range]

theorem length_packScales (ls lm : Nat → UInt8) : (packScales ls lm).length = 12 := by
  rw [packScales_eq]
  rfl

theorem length_minsHead (c : Chosen) : (minsHead c).length = 16 := by
  rw [minsHead, List.length_append, List.length_append, length_packScales]
  rfl

/-- The first bytes of a superblock with scales and mins. -/
theorem getD_minsHead (c : Chosen) {rest : List UInt8} (hk : k < 12) :
    (minsHead c ++ rest).getD (4 + k) 0 = (packScales c.ls c.lm).getD k 0 := by
  have hlen := length_minsHead c
  rw [List.getD_append _ _ _ _ (by omega), minsHead, List.append_assoc,
    List.getD_append_right _ _ _ _ (by simp [leBytes16]; omega),
    List.getD_append_right _ _ _ _ (by simp [leBytes16]; omega)]
  congr 1
  simp [leBytes16]
  omega

theorem getD_after_minsHead (c : Chosen) (rest : List UInt8) (k : Nat) :
    (minsHead c ++ rest).getD (16 + k) 0 = rest.getD k 0 := by
  have hlen := length_minsHead c
  rw [List.getD_append_right _ _ _ _ (by omega), hlen, Nat.add_sub_cancel_left]

/-- 16 bits at a place, as they were written. -/
theorem u16_leBytes16 {b : Reg} {off : Nat} {v : UInt16}
    (h0 : b off = UInt8.ofNat v.toNat)
    (h1 : b (off + 1) = UInt8.ofNat (v.toNat / 256)) :
    u16 (loadAt b off) 0 = v.toNat := by
  have hv := v.toNat_lt
  rw [u16, loadAt, loadAt, Nat.mul_zero, Nat.zero_add, Nat.add_zero, h0, h1,
    UInt8.toNat_ofNat', UInt8.toNat_ofNat']
  omega

-- ============================== quants

/-- The quant of an element that the `Q4_K` kernel reads. -/
def q4KQuant (w : Reg) (e : Nat) : UInt8 :=
  let b := w (16 + 32 * (e / 64) + e % 32)
  if e / 32 % 2 = 0 then b &&& 0x0F else b >>> 4

/-- Two nibbles in a byte. -/
theorem nibbles_of_or (ha : a.toNat < 16) (hb : b.toNat < 16) :
    (a ||| (b <<< 4)) &&& 0x0F = a ∧ (a ||| (b <<< 4)) >>> 4 = b := by
  have hor : (a ||| (b <<< 4)).toNat = a.toNat + b.toNat * 16 :=
    toNat_or_shl (k := 4) (by decide) ha (by omega)
  constructor
  · apply UInt8.toNat_inj.1
    rw [toNat_and_15, hor]
    omega
  · apply UInt8.toNat_inj.1
    refine (toNat_shr _ (k := 4) (by decide)).trans ?_
    rw [hor]
    omega

theorem length_q4KBlock (c : Chosen) : (q4KBlock c).length = 144 := by
  rw [q4KBlock, List.length_append, length_minsHead,
    length_flatMap_range (n := 32) fun _ => by simp]

/-- The quants of a `Q4_K` superblock are read where they were written. -/
theorem q4KQuant_block {c : Chosen} (hl : ∀ i, (c.l i).toNat < 16)
    (hw : ∀ k < 144, w k = (q4KBlock c).getD k 0) {e : Nat} (he : e < 256) :
    q4KQuant w e = c.l e := by
  have hbyte : w (16 + 32 * (e / 64) + e % 32)
      = c.l (64 * (e / 64) + e % 32)
        ||| (c.l (64 * (e / 64) + e % 32 + 32) <<< 4) := by
    rw [hw _ (by omega), q4KBlock, Nat.add_assoc, getD_after_minsHead, Nat.mul_comm,
      getD_flatMap_range (n := 32) (fun _ => by simp) (by omega)
        (Nat.mod_lt _ (by decide)),
      getD_map_range _ (Nat.mod_lt _ (by decide))]
  obtain ⟨hlow, hhigh⟩ :=
    nibbles_of_or (hl (64 * (e / 64) + e % 32))
    (hl (64 * (e / 64) + e % 32 + 32))
  rw [q4KQuant, hbyte]
  split
  · rw [hlow]
    congr 1
    omega
  · rw [hhigh]
    congr 1
    omega

/-- The fifth bit of sub-block `s` set at its place. -/
def setFifth (l : Nat → UInt8) (k : Nat) (qh : UInt8) (s : Nat) : UInt8 :=
  if l (32 * s + k) > 15 then qh ||| (1 <<< UInt8.ofNat s) else qh

/-- The loop over groups of 64 sets the bits one after another. -/
theorem q5KHigh_eq (l : Nat → UInt8) (k : Nat) :
    q5KHigh l k = (List.range 8).foldl (setFifth l k) 0 := by
  have hgroup : ∀ qh g, g < 4 →
      (if l (64 * g + k + 32) > 15
          then (if l (64 * g + k) > 15 then qh ||| (1 <<< UInt8.ofNat (2 * g))
            else qh)
          ||| (2 <<< UInt8.ofNat (2 * g))
            else (if l (64 * g + k) > 15
              then qh ||| (1 <<< UInt8.ofNat (2 * g)) else qh))
        = setFifth l k (setFifth l k qh (2 * g)) (2 * g + 1) := by
    intro qh g hg
    have htwo : (2 : UInt8) <<< UInt8.ofNat (2 * g)
        = 1 <<< UInt8.ofNat (2 * g + 1) := by
      interval_cases g <;> rfl
    rw [setFifth, setFifth, htwo, show 32 * (2 * g) + k = 64 * g + k by omega,
      show 32 * (2 * g + 1) + k = 64 * g + k + 32 by omega]
  have h0 := hgroup 0 0 (by decide)
  have h1 := hgroup (setFifth l k (setFifth l k 0 0) 1) 1 (by decide)
  have h2 := hgroup
    (setFifth l k (setFifth l k (setFifth l k (setFifth l k 0 0) 1) 2) 3) 2
    (by decide)
  have h3 := hgroup
    (setFifth l k
      (setFifth l k
        (setFifth l k (setFifth l k (setFifth l k (setFifth l k 0 0) 1) 2) 3)
        4) 5)
    3 (by decide)
  change (List.range 4).foldl _ 0 = (List.range 8).foldl _ 0
  simp only [List.range_succ, List.range_zero, List.nil_append,
    List.foldl_append, List.foldl_cons, List.foldl_nil]
  rw [h0, h1, h2, h3]

theorem testBit_setFifths (l : Nat → UInt8) (k : Nat) {m : Nat} (hm : m ≤ 8)
    (s : Nat) :
    ((List.range m).foldl (setFifth l k) 0).toNat.testBit s
      = decide (s < m ∧ l (32 * s + k) > 15) := by
  induction m with
  | zero => simp
  | succ m ih =>
      rw [List.range_succ, List.foldl_append, List.foldl_cons, List.foldl_nil,
        setFifth]
      have hbit : ((1 : UInt8) <<< UInt8.ofNat m).toNat = 2 ^ m := by
        have hone :=
          toNat_or_shl (a := 0) (b := 1) (k := m) (by omega)
          (Nat.two_pow_pos m)
          (by rw [show (1 : UInt8).toNat = 1 from rfl, Nat.one_mul];
              exact Nat.pow_lt_pow_right (n := 8) (by decide) hm)
        simpa using hone
      by_cases hset : l (32 * m + k) > 15
      · rw [if_pos hset, UInt8.toNat_or, Nat.testBit_or, ih (by omega), hbit,
          Nat.testBit_two_pow]
        by_cases hs : m = s
        · subst hs
          simp [hset]
        · have hlt : s < m + 1 ↔ s < m := by omega
          simp [hs, hlt]
      · rw [if_neg hset, ih (by omega)]
        by_cases hs : m = s
        · subst hs
          simp [hset]
        · have hlt : s < m + 1 ↔ s < m := by omega
          simp [hlt]

/-- Bit `s` of the plane is the fifth bit of sub-block `s`. -/
theorem q5KHigh_bit (l : Nat → UInt8) (k : Nat) {s : Nat} (hs : s < 8) :
    (q5KHigh l k >>> UInt8.ofNat s &&& 1).toNat = if l (32 * s + k) > 15 then 1
      else 0 := by
  have hbit := testBit_setFifths l k (m := 8) le_rfl s
  rw [← q5KHigh_eq] at hbit
  refine (toNat_field (w := 1) hs (by decide)).trans ?_
  rw [pow_one, ← Nat.toNat_testBit, hbit]
  by_cases hset : l (32 * s + k) > 15 <;> simp [hs, hset]

theorem toNat_lowFour {l : UInt8} (hl : l.toNat < 32) :
    (lowFour l).toNat = l.toNat % 16 := by
  rw [lowFour]
  split
  · have hgt : 15 < l.toNat := ‹l > 15›
    rw [UInt8.toNat_sub_of_le _ _ (show (16 : UInt8) ≤ l from hgt)]
    rw [show (16 : UInt8).toNat = 16 from rfl]
    omega
  · have hle : l.toNat ≤ 15 := not_lt.1 ‹¬ l > 15›
    omega

theorem length_q5KBlock (c : Chosen) : (q5KBlock c).length = 176 := by
  rw [q5KBlock, List.length_append, List.length_append, length_minsHead,
    length_flatMap_range (n := 32) fun _ => by
      simp, List.length_map, List.length_range]

/-- The quants of a `Q5_K` superblock are read where they were written. -/
theorem q5KQuant_block {c : Chosen} (hl : ∀ i, (c.l i).toNat < 32)
    (hw : ∀ k < 176, w k = (q5KBlock c).getD k 0) {s : Nat} (hs : s < 8)
    (hk : k < 32) :
    q5KQuant w s k = c.l (32 * s + k) := by
  have hhigh : w (16 + k) = q5KHigh c.l k := by
    rw [hw _ (by omega), q5KBlock, List.append_assoc, getD_after_minsHead,
      List.getD_append _ _ _ _ (by simpa using hk), getD_map_range _ hk]
  have hbyte : w (48 + s / 2 * 32 + k)
      = lowFour (c.l (64 * (s / 2) + k))
        ||| (lowFour (c.l (64 * (s / 2) + k + 32)) <<< 4) := by
    rw [hw _ (by omega), q5KBlock, List.append_assoc,
      show 48 + s / 2 * 32 + k = 16 + (32 + (s / 2 * 32 + k)) by omega,
      getD_after_minsHead, List.getD_append_right _ _ _ _ (by simp),
        List.length_map, List.length_range,
      Nat.add_sub_cancel_left,
        getD_flatMap_range (n := 32) (fun _ => by simp) (by omega) hk,
        getD_map_range _ hk]
  have hlo := toNat_lowFour (hl (64 * (s / 2) + k))
  have hhi := toNat_lowFour (hl (64 * (s / 2) + k + 32))
  obtain ⟨hlow, htop⟩ := nibbles_of_or (a := lowFour (c.l (64 * (s / 2) + k)))
    (b := lowFour (c.l (64 * (s / 2) + k + 32))) (by omega) (by omega)
  have hnib : q5KNibble w (s * 32 + k) = lowFour (c.l (32 * s + k)) := by
    rw [q5KNibble, loadAt, show (s * 32 + k) / 64 = s / 2 by omega,
      show (s * 32 + k) % 32 = k by omega, hbyte]
    split
    · rw [hlow, show 64 * (s / 2) + k = 32 * s + k by omega]
    · rw [htop, show 64 * (s / 2) + k + 32 = 32 * s + k by omega]
  have hfive := toNat_lowFour (hl (32 * s + k))
  have hbit := q5KHigh_bit c.l k hs
  have hlt := hl (32 * s + k)
  have hif : (if c.l (32 * s + k) > 15 then 1 else 0)
      = (c.l (32 * s + k)).toNat / 16 := by
    split
    · have hgt : 15 < (c.l (32 * s + k)).toNat := ‹_›
      omega
    · have hle : (c.l (32 * s + k)).toNat ≤ 15 := not_lt.1 ‹¬ c.l (32 * s + k) > 15›
      omega
  rw [hif] at hbit
  apply UInt8.toNat_inj.1
  rw [q5KQuant, hnib, loadAt, hhigh]
  have hor := toNat_or_shl (a := lowFour (c.l (32 * s + k)))
    (b := q5KHigh c.l k >>> UInt8.ofNat s &&& 1) (k := 4)
    (by decide) (by omega) (by omega)
  refine hor.trans ?_
  rw [hfive, hbit]
  omega

-- ================================ Q6_K

theorem length_q6KBlock (c : Chosen6) : (q6KBlock c).length = 210 := by
  rw [q6KBlock, List.length_append, List.length_append, List.length_append,
    length_flatMap_range (n := 64) fun _ => by simp,
    length_flatMap_range (n := 32) fun _ => by
      simp, List.length_map, List.length_range]
  rfl

/-- The three planes of a `Q6_K` superblock: nibbles, upper bits, scales. -/
theorem getD_q6KBlock (c : Chosen6) :
    (∀ h < 2, ∀ l < 32, (q6KBlock c).getD (64 * h + l) 0
        = (c.l (128 * h + l) &&& (0xF : UInt8))
          ||| ((c.l (128 * h + l + 64) &&& 0xF) <<< 4))
      ∧ (∀ h < 2, ∀ l < 32, (q6KBlock c).getD (64 * h + l + 32) 0
        = (c.l (128 * h + l + 32) &&& (0xF : UInt8))
          ||| ((c.l (128 * h + l + 96) &&& 0xF) <<< 4))
      ∧ (∀ h < 2, ∀ l < 32, (q6KBlock c).getD (128 + (32 * h + l)) 0
        = c.l (128 * h + l) >>> 4 ||| (c.l (128 * h + l + 32) >>> 4 <<< 2)
          ||| (c.l (128 * h + l + 64) >>> 4 <<< 4)
          ||| (c.l (128 * h + l + 96) >>> 4 <<< 6))
      ∧ ∀ g < 16, (q6KBlock c).getD (192 + g) 0 = c.sc g := by
  have hql : ∀ g : Nat → List UInt8, (∀ j, (g j).length = 64) →
      ((List.range 2).flatMap g).length = 128 :=
    fun g hg => length_flatMap_range hg
  have hqh : ∀ g : Nat → List UInt8, (∀ j, (g j).length = 32) →
      ((List.range 2).flatMap g).length = 64 :=
    fun g hg => length_flatMap_range hg
  refine ⟨?_, ?_, ?_, ?_⟩
  · intro h hh l hl
    rw [q6KBlock, List.append_assoc, List.append_assoc,
      List.getD_append _ _ _ _ (by rw [hql _ fun _ => by simp]; omega),
      Nat.mul_comm, getD_flatMap_range (n := 64) (fun _ => by simp) hh (by omega),
      List.getD_append _ _ _ _ (by simpa using hl), getD_map_range _ hl]
  · intro h hh l hl
    rw [q6KBlock, List.append_assoc, List.append_assoc,
      List.getD_append _ _ _ _ (by rw [hql _ fun _ => by simp]; omega),
      Nat.mul_comm, Nat.add_assoc,
        getD_flatMap_range (n := 64) (fun _ => by simp) hh (by omega),
      List.getD_append_right _ _ _ _ (by simp), List.length_map,
        List.length_range, Nat.add_sub_cancel,
      getD_map_range _ hl]
  · intro h hh l hl
    rw [q6KBlock, List.append_assoc, List.append_assoc,
      List.getD_append_right _ _ _ _ (by rw [hql _ fun _ => by simp]; omega),
      hql _ fun _ => by simp, Nat.add_sub_cancel_left,
        List.getD_append _ _ _ _ (by rw [hqh _ fun _ => by simp]; omega),
      Nat.mul_comm, getD_flatMap_range (n := 32) (fun _ => by simp) hh hl,
        getD_map_range _ hl]
  · intro g hg
    rw [q6KBlock, List.append_assoc, List.append_assoc,
      List.getD_append_right _ _ _ _ (by rw [hql _ fun _ => by simp]; omega),
      hql _ fun _ => by simp,
        List.getD_append_right _ _ _ _ (by rw [hqh _ fun _ => by simp]; omega),
      hqh _ fun _ => by simp, show 192 + g - 128 - 64 = g by
        omega, List.getD_append _ _ _ _ (by simpa using hg),
      getD_map_range _ hg]

/-- The scale of a `Q6_K` superblock stands last. -/
theorem getD_q6KBlock_d (c : Chosen6) {r : Nat} (hr : r < 2) :
    (q6KBlock c).getD (208 + r) 0 = (leBytes16 c.d).getD r 0 := by
  obtain ⟨planes, hblock⟩ : ∃ planes, q6KBlock c = planes ++ leBytes16 c.d := ⟨_, rfl⟩
  have hlen := length_q6KBlock c
  have hd : (leBytes16 c.d).length = 2 := rfl
  rw [hblock, List.length_append, hd] at hlen
  rw [hblock, List.getD_append_right _ _ _ _ (by omega),
    show 208 + r - planes.length = r by omega]

/-- Four fields of two bits. -/
theorem toNat_four_twos {c d : UInt8} (ha : a.toNat < 4) (hb : b.toNat < 4)
    (hc : c.toNat < 4) (hd : d.toNat < 4) :
    (a ||| (b <<< 2) ||| (c <<< 4) ||| (d <<< 6)).toNat
      = a.toNat + b.toNat * 4 + c.toNat * 16 + d.toNat * 64 := by
  have h2 : (a ||| (b <<< 2)).toNat = a.toNat + b.toNat * 4 :=
    toNat_or_shl (k := 2) (by decide) ha (by omega)
  have h4 : (a ||| (b <<< 2) ||| (c <<< 4)).toNat
      = (a ||| (b <<< 2)).toNat + c.toNat * 16 :=
    toNat_or_shl (k := 4) (by decide) (by omega) (by omega)
  have h6 : (a ||| (b <<< 2) ||| (c <<< 4) ||| (d <<< 6)).toNat
      = (a ||| (b <<< 2) ||| (c <<< 4)).toNat + d.toNat * 64 :=
    toNat_or_shl (k := 6) (by decide) (by omega) (by omega)
  omega

/-- A code from its nibble and its two upper bits. -/
theorem toNat_code {v nib high : UInt8} (hv : v.toNat < 64)
    (hn : nib.toNat = v.toNat % 16)
    (hh : high.toNat = v.toNat / 16) : nib ||| (high <<< 4) = v := by
  apply UInt8.toNat_inj.1
  have hor : (nib ||| (high <<< 4)).toNat = nib.toNat + high.toNat * 16 :=
    toNat_or_shl (k := 4) (by decide) (by omega) (by omega)
  omega

/-- The codes of a `Q6_K` superblock are read where they were written. -/
theorem q6KCode_block {c : Chosen6} (hl : ∀ i, (c.l i).toNat < 64)
    (hw : ∀ k < 210, w k = (q6KBlock c).getD k 0) {e : Nat} (he : e < 256) :
    q6KCode w e = c.l e := by
  obtain ⟨h, l, r, hh, hl32, hr, rfl⟩ : ∃ h l r, h < 2 ∧ l < 32 ∧ r < 4
      ∧ e = 128 * h + 32 * r + l :=
    ⟨e / 128, e % 32, e % 128 / 32, by omega, by omega, by omega, by omega⟩
  obtain ⟨hlow, hmid, hhigh, -⟩ := getD_q6KBlock c
  have hql0 : w (h * 64 + l)
      = (c.l (128 * h + l) &&& (0xF : UInt8))
      ||| ((c.l (128 * h + l + 64) &&& 0xF) <<< 4) := by
    rw [hw _ (by omega), Nat.mul_comm h 64, hlow h hh l hl32]
  have hql1 : w (h * 64 + (l + 32))
      = (c.l (128 * h + l + 32) &&& (0xF : UInt8))
        ||| ((c.l (128 * h + l + 96) &&& 0xF) <<< 4) := by
    rw [hw _ (by omega), Nat.mul_comm h 64, ← Nat.add_assoc, hmid h hh l hl32]
  have hqh : w (128 + h * 32 + l)
      = c.l (128 * h + l) >>> 4 ||| (c.l (128 * h + l + 32) >>> 4 <<< 2)
      ||| (c.l (128 * h + l + 64) >>> 4 <<< 4)
          ||| (c.l (128 * h + l + 96) >>> 4 <<< 6) := by
    rw [hw _ (by omega), Nat.add_assoc, Nat.mul_comm h 32, hhigh h hh l hl32]
  have hshr : ∀ b : UInt8, (b >>> 4).toNat = b.toNat / 16 :=
    fun b => toNat_shr b (k := 4) (by decide)
  have htop : ∀ i, (c.l i >>> 4).toNat < 4 := by
    intro i
    have hi := hl i
    rw [hshr]
    omega
  have hfields :=
    toNat_four_twos (htop (128 * h + l)) (htop (128 * h + l + 32))
    (htop (128 * h + l + 64))
    (htop (128 * h + l + 96))
  have hnib0 := toNat_four_four (c.l (128 * h + l)) (c.l (128 * h + l + 64))
  have hnib1 := toNat_four_four (c.l (128 * h + l + 32)) (c.l (128 * h + l + 96))
  rw [hshr, hshr, hshr, hshr, ← hqh] at hfields
  rw [← hql0] at hnib0
  rw [← hql1] at hnib1
  have h0 := hl (128 * h + l)
  have h1 := hl (128 * h + l + 32)
  have h2 := hl (128 * h + l + 64)
  have h3 := hl (128 * h + l + 96)
  have hcode : q6KCode w (128 * h + 32 * r + l) = codeAt w h r l :=
    q6KCode_eq (by omega) (by omega) (by omega)
  have hfield : ∀ k < 8, ∀ b : UInt8, (b >>> UInt8.ofNat k &&& 3).toNat
      = b.toNat / 2 ^ k % 4 := fun k hk b =>
    toNat_field (w := 2) hk (by decide)
  have hand : ∀ b : UInt8, (b &&& 3).toNat = b.toNat % 4 :=
    fun b => toNat_and_ones b (w := 2) (by decide)
  rw [hcode]
  interval_cases r
  · apply toNat_code h0
    · rw [toNat_and_15]
      change (w (h * 64 + l)).toNat % 16 = _
      omega
    · rw [hand]
      change (w (128 + h * 32 + l)).toNat % 4 = _
      omega
  · rw [show 128 * h + 32 * 1 + l = 128 * h + l + 32 by omega]
    apply toNat_code h1
    · rw [toNat_and_15]
      change (w (h * 64 + (l + 32))).toNat % 16 = _
      omega
    · refine (hfield 2 (by decide) _).trans ?_
      change (w (128 + h * 32 + l)).toNat / 2 ^ 2 % 4 = _
      omega
  · rw [show 128 * h + 32 * 2 + l = 128 * h + l + 64 by omega]
    apply toNat_code h2
    · rw [hshr]
      change (w (h * 64 + l)).toNat / 16 = _
      omega
    · refine (hfield 4 (by decide) _).trans ?_
      change (w (128 + h * 32 + l)).toNat / 2 ^ 4 % 4 = _
      omega
  · rw [show 128 * h + 32 * 3 + l = 128 * h + l + 96 by omega]
    apply toNat_code h3
    · rw [hshr]
      change (w (h * 64 + (l + 32))).toNat / 16 = _
      omega
    · refine (hfield 6 (by decide) _).trans ?_
      change (w (128 + h * 32 + l)).toNat / 2 ^ 6 % 4 = _
      omega

/-- The scales of a `Q6_K` superblock. -/
theorem q6KScale_block {c : Chosen6}
    (hw : ∀ k < 210, w k = (q6KBlock c).getD k 0) {g : Nat} (hg : g < 16) :
    q6KScale w g = i8 (c.sc g) := by
  rw [q6KScale, hw _ (by omega), (getD_q6KBlock c).2.2.2 g hg]

end Minfer.Quants
