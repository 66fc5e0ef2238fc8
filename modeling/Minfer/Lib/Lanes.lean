/-
Vector registers and the instructions on them.

A register is its bytes by place; an instruction reads the places its width
has, and lanes of 16 or 32 bits are read off the bytes, the low one first. An
instruction that multiplies or adds says whether a lane of its result left its
range, and `n` is the number of those lanes.
-/
import Mathlib.Algebra.Order.Ring.Abs
import Mathlib.Tactic.IntervalCases
import Minfer.Lib.Tracked

namespace Minfer.Lib

/-- A register; the places beyond its width are not part of it. -/
abbrev Reg := Nat → UInt8

-- =============================== lanes

/-- A byte read as `i8`. -/
def i8 (b : UInt8) : Int := if b.toNat < 128 then b.toNat else b.toNat - 256

/-- A 16-bit lane. -/
def u16 (x : Reg) (i : Nat) : Nat := (x (2 * i)).toNat + 256 * (x (2 * i + 1)).toNat

/-- A signed 16-bit lane. -/
def i16 (x : Reg) (i : Nat) : Int :=
  if u16 x i < 32768 then u16 x i else u16 x i - 65536

/-- A 32-bit lane. -/
def u32 (x : Reg) (i : Nat) : Nat := u16 x (2 * i) + 65536 * u16 x (2 * i + 1)

/-- A signed 32-bit lane. -/
def i32 (x : Reg) (i : Nat) : Int :=
  if u32 x i < 2147483648 then u32 x i else u32 x i - 4294967296

/-- The register of 16-bit lanes. -/
def ofU16 (f : Nat → Nat) : Reg := fun i => UInt8.ofNat (f (i / 2) / 256 ^ (i % 2))

def ofI16 (f : Nat → Int) : Reg := ofU16 fun i => (f i % 65536).toNat

/-- The register of 32-bit lanes. -/
def ofU32 (f : Nat → Nat) : Reg := fun i => UInt8.ofNat (f (i / 4) / 256 ^ (i % 4))

def ofI32 (f : Nat → Int) : Reg := ofU32 fun i => (f i % 4294967296).toNat

theorem abs_i8_le (b : UInt8) : |i8 b| ≤ 128 := by
  have hb := b.toNat_lt
  rw [abs_le, i8]
  split <;> omega

theorem u16_lt (x : Reg) (i : Nat) : u16 x i < 65536 := by
  have hlow := (x (2 * i)).toNat_lt
  have hhigh := (x (2 * i + 1)).toNat_lt
  rw [u16]
  omega

theorem abs_i16_le (x : Reg) (i : Nat) : |i16 x i| ≤ 32768 := by
  have hx := u16_lt x i
  rw [abs_le, i16]
  split <;> omega

theorem u16_ofU16 (f : Nat → Nat) (i : Nat) : u16 (ofU16 f) i = f i % 65536 := by
  have heven : 2 * i / 2 = i ∧ 2 * i % 2 = 0 := by omega
  have hodd : (2 * i + 1) / 2 = i ∧ (2 * i + 1) % 2 = 1 := by omega
  rw [u16, ofU16, ofU16, heven.1, heven.2, hodd.1, hodd.2, UInt8.toNat_ofNat',
    UInt8.toNat_ofNat']
  omega

theorem i16_ofI16 (f : Nat → Int) (i : Nat) : i16 (ofI16 f) i = wrapI16 (f i) := by
  rw [i16, ofI16, u16_ofU16, wrapI16]
  split <;> omega

theorem u32_ofU32 (f : Nat → Nat) (i : Nat) : u32 (ofU32 f) i = f i % 4294967296 := by
  have hplace : ∀ r < 4, (ofU32 f (4 * i + r)).toNat = f i / 256 ^ r % 256 := by
    intro r hr
    rw [ofU32, Nat.mul_add_div (by decide), Nat.div_eq_of_lt hr,
      Nat.mul_add_mod, Nat.mod_eq_of_lt hr,
      UInt8.toNat_ofNat', Nat.add_zero]
  have h0 := hplace 0 (by decide)
  have h1 := hplace 1 (by decide)
  have h2 := hplace 2 (by decide)
  have h3 := hplace 3 (by decide)
  rw [u32, u16, u16, show 2 * (2 * i) = 4 * i + 0 by omega,
    show 2 * (2 * i + 1) = 4 * i + 2 by omega,
    h0, h1, h2, h3]
  omega

theorem i32_ofI32 (f : Nat → Int) (i : Nat) : i32 (ofI32 f) i = wrapI32 (f i) := by
  rw [i32, ofI32, u32_ofU32, wrapI32]
  split <;> omega

-- ======================== instructions

/-- A load of bytes from a row. -/
def load (row : List UInt8) (offset : Nat) : Reg := fun i => row.getD (offset + i) 0

/-- A load from within a register's worth of memory. -/
def loadAt (mem : Reg) (offset : Nat) : Reg := fun i => mem (offset + i)

/-- `set1_epi8`. -/
def set1Epi8 (b : UInt8) : Reg := fun _ => b

/-- `set1_epi16`. -/
def set1Epi16 (v : Int) : Reg := ofI16 fun _ => v

/-- `set1_epi32`. -/
def set1Epi32 (v : Int) : Reg := ofI32 fun _ => v

/-- `and_si*`. -/
def andSi (x y : Reg) : Reg := fun i => x i &&& y i

/-- `or_si*`. -/
def orSi (x y : Reg) : Reg := fun i => x i ||| y i

/-- `srli_epi16`. -/
def srliEpi16 (x : Reg) (k : Nat) : Reg := ofU16 fun i => u16 x i / 2 ^ k

/-- `slli_epi16`. -/
def slliEpi16 (x : Reg) (k : Nat) : Reg := ofU16 fun i => u16 x i * 2 ^ k

/-- `srlv_epi32`. -/
def srlvEpi32 (x counts : Reg) : Reg := ofU32 fun i => u32 x i / 2 ^ u32 counts i

/-- `shuffle_epi8`, by a list of places; a negative one gives zero. -/
def shuffleEpi8 (x : Reg) (places : List Int) : Reg := fun i =>
  let place := places.getD i (-128)
  if place < 0 then 0 else x (place.toNat % 16)

/-- `unpacklo_epi64`. -/
def unpackloEpi64 (x y : Reg) : Reg := fun i => if i < 8 then x i else y (i - 8)

/-- `inserti*`: what stands from byte `n` on is another register. -/
def insertAt (n : Nat) (x y : Reg) : Reg := fun i => if i < n then x i else y (i - n)

/-- `extracti*`: what stands from byte `n` on. -/
def extractAt (n : Nat) (x : Reg) : Reg := fun i => x (n + i)

/-- `shuffle_epi32`. -/
def shuffleEpi32 (x : Reg) (imm : Nat) : Reg :=
  fun i => x (4 * (imm / 4 ^ (i / 4) % 4) + i % 4)

/-- `permutexvar_epi16`, over 32 lanes. -/
def permutexvarEpi16 (idx x : Reg) : Reg :=
  fun i => x (2 * (u16 idx (i / 2) % 32) + i % 2)

/-- `zextsi128_si512`. -/
def zext128 (x : Reg) : Reg := fun i => if i < 16 then x i else 0

/-- `add_epi16`. -/
def addEpi16 (x y : Reg) : Reg := ofI16 fun i => i16 x i + i16 y i

/-- `cvtepu16_epi32`. -/
def cvtepu16Epi32 (x : Reg) : Reg := ofI32 fun i => u16 x i

/-- `cvtepi8_epi16`. -/
def cvtepi8Epi16 (x : Reg) : Reg := ofI16 fun i => i8 (x i)

/-- Sums that go to `n` lanes of 16 bits, saturating. -/
def lanesI16 (n : Nat) (f : Nat → Int) : Tracked Reg :=
  ⟨ofI16 fun i => satI16 (f i), decide (∀ i < n, InI16 (f i))⟩

/-- Results that go to `n` lanes of 32 bits. -/
def lanesI32 (n : Nat) (f : Nat → Int) : Tracked Reg :=
  ⟨ofI32 f, decide (∀ i < n, InI32 (f i))⟩

/-- `maddubs_epi16`: unsigned bytes by signed ones, added in pairs. -/
def maddubsEpi16 (n : Nat) (x y : Reg) : Tracked Reg :=
  lanesI16 n fun i =>
    (x (2 * i)).toNat * i8 (y (2 * i)) + (x (2 * i + 1)).toNat * i8
    (y (2 * i + 1))

/-- `madd_epi16`: 16-bit lanes by 16-bit lanes, added in pairs. -/
def maddEpi16 (n : Nat) (x y : Reg) : Tracked Reg :=
  lanesI32 n fun i =>
    i16 x (2 * i) * i16 y (2 * i) + i16 x (2 * i + 1) * i16 y (2 * i + 1)

/-- `dpbusd_epi32`: unsigned bytes by signed ones, added in fours. -/
def dpbusdEpi32 (n : Nat) (src x y : Reg) : Tracked Reg :=
  lanesI32 n fun i =>
    i32 src i + ((x (4 * i)).toNat * i8 (y (4 * i))
      + (x (4 * i + 1)).toNat * i8 (y (4 * i + 1))
    + (x (4 * i + 2)).toNat * i8 (y (4 * i + 2)) + (x (4 * i + 3)).toNat * i8
      (y (4 * i + 3)))

/-- `add_epi32`. -/
def addEpi32 (n : Nat) (x y : Reg) : Tracked Reg :=
  lanesI32 n fun i => i32 x i + i32 y i

/-- `sub_epi32`. -/
def subEpi32 (n : Nat) (x y : Reg) : Tracked Reg :=
  lanesI32 n fun i => i32 x i - i32 y i

/-- `mullo_epi32`. -/
def mulloEpi32 (n : Nat) (x y : Reg) : Tracked Reg :=
  lanesI32 n fun i => i32 x i * i32 y i

/-- `slli_epi32`. -/
def slliEpi32 (n : Nat) (x : Reg) (k : Nat) : Tracked Reg :=
  lanesI32 n fun i => i32 x i * 2 ^ k

/-- A loop that adds `m` registers to an accumulator, lane by lane. -/
def accumulateEpi32 (n m : Nat) (acc : Reg) (term : Nat → Tracked Reg) :
    Tracked Reg :=
  (List.range m).foldlM (fun acc j => do addEpi32 n acc (← term j)) acc

/-- `reduce_add_epi32` of `2 ^ k` lanes: the halves are added until one lane is
left. -/
def reduceAddEpi32 : Nat → Reg → Tracked Int
  | 0, x => pure (i32 x 0)
  | k + 1, x => do
      let x ← addEpi32 (2 ^ k) x (extractAt (4 * 2 ^ k) x)
      reduceAddEpi32 k x

-- =============================== bytes

theorem u32_eq (x : Reg) (i : Nat) :
    u32 x i = (x (4 * i)).toNat + 256 * (x (4 * i + 1)).toNat
      + 65536 * (x (4 * i + 2)).toNat
      + 16777216 * (x (4 * i + 3)).toNat := by
  rw [u32, u16, u16, show 2 * (2 * i) = 4 * i by omega,
    show 2 * (2 * i + 1) = 4 * i + 2 by omega,
    Nat.add_assoc (4 * i) 2 1]
  omega

variable {x y : Reg} {k w n : Nat} {f : Nat → Int}
variable {i j : Nat} {c : Tracked Reg} {lane : Reg → Nat → Int}

theorem i32_congr
    (h : ∀ r < 4, x (4 * i + r) = y (4 * j + r)) : i32 x i = i32 y j := by
  have h0 := h 0 (by decide)
  have h1 := h 1 (by decide)
  have h2 := h 2 (by decide)
  have h3 := h 3 (by decide)
  rw [Nat.add_zero, Nat.add_zero] at h0
  rw [i32, i32, u32_eq, u32_eq, h0, h1, h2, h3]

theorem u16_congr
    (h : ∀ r < 2, x (2 * i + r) = y (2 * j + r)) : u16 x i = u16 y j := by
  have h0 := h 0 (by decide)
  have h1 := h 1 (by decide)
  rw [Nat.add_zero, Nat.add_zero] at h0
  rw [u16, u16, h0, h1]

theorem i16_congr
    (h : ∀ r < 2, x (2 * i + r) = y (2 * j + r)) : i16 x i = i16 y j := by
  rw [i16, i16, u16_congr h]

/-- What a shift to the right leaves of a byte's own bits. -/
theorem shifted_mod (h : k + w ≤ 8) (b r : Nat) :
    (b + 256 * r) / 2 ^ k % 256 % 2 ^ w = b / 2 ^ k % 2 ^ w := by
  obtain ⟨v, hv⟩ := Nat.exists_eq_add_of_le h
  have hsplit : 256 * r = 2 ^ k * (2 ^ w * (2 ^ v * r)) := by
    rw [← mul_assoc, ← mul_assoc, ← pow_add, ← pow_add, ← hv]
    rfl
  have hdvd : 2 ^ w ∣ 256 := pow_dvd_pow 2 (show w ≤ 8 by omega)
  rw [hsplit, Nat.add_mul_div_left _ _ (Nat.two_pow_pos k),
    Nat.mod_mod_of_dvd _ hdvd, Nat.add_mul_mod_self_left]

theorem toNat_srliEpi16 (x : Reg) (k i : Nat) :
    ∃ r, (srliEpi16 x k i).toNat = ((x i).toNat + 256 * r) / 2 ^ k % 256 := by
  rcases Nat.even_or_odd' i with ⟨j, rfl | rfl⟩
  · refine ⟨(x (2 * j + 1)).toNat, ?_⟩
    rw [srliEpi16, ofU16, Nat.mul_div_cancel_left _ (by decide),
      Nat.mul_mod_right, pow_zero, Nat.div_one,
      UInt8.toNat_ofNat', u16]
  · refine ⟨0, ?_⟩
    have hhalf : (2 * j + 1) / 2 = j ∧ (2 * j + 1) % 2 = 1 := by omega
    have hhigh : ((x (2 * j)).toNat + 256 * (x (2 * j + 1)).toNat) / 256
        = (x (2 * j + 1)).toNat := by
      have hlow := (x (2 * j)).toNat_lt
      omega
    rw [srliEpi16, ofU16, hhalf.1, hhalf.2, pow_one, UInt8.toNat_ofNat', u16,
      Nat.div_div_eq_div_mul,
      Nat.mul_comm (2 ^ k), ← Nat.div_div_eq_div_mul, hhigh]
    rfl

theorem toNat_srlvEpi32 (x counts : Reg) (i : Nat) :
    ∃ r, (srlvEpi32 x counts i).toNat
      = ((x i).toNat + 256 * r) / 2 ^ u32 counts (i / 4) % 256 := by
  have hplace : u32 x (i / 4) / 256 ^ (i % 4) % 256 = (x i).toNat := by
    have hr : i % 4 < 4 := Nat.mod_lt _ (by decide)
    have h0 := (x (4 * (i / 4))).toNat_lt
    have h1 := (x (4 * (i / 4) + 1)).toNat_lt
    have h2 := (x (4 * (i / 4) + 2)).toNat_lt
    have h3 := (x (4 * (i / 4) + 3)).toNat_lt
    rw [u32_eq]
    conv_rhs => rw [← Nat.div_add_mod i 4]
    generalize i / 4 = j at *
    generalize i % 4 = r at *
    interval_cases r
    · simp only [pow_zero, Nat.div_one, add_zero]
      omega
    · omega
    · omega
    · omega
  refine ⟨u32 x (i / 4) / 256 ^ (i % 4) / 256, ?_⟩
  rw [srlvEpi32, ofU32, UInt8.toNat_ofNat', Nat.div_div_eq_div_mul,
    Nat.mul_comm (2 ^ _), ← Nat.div_div_eq_div_mul]
  congr 2
  omega

theorem toNat_and_ones (b : UInt8) (hw : w ≤ 8) :
    (b &&& UInt8.ofNat (2 ^ w - 1)).toNat = b.toNat % 2 ^ w := by
  have hone : 1 ≤ 2 ^ w := Nat.one_le_two_pow
  have hlt : 2 ^ w - 1 < 2 ^ 8 := by
    have hle := Nat.pow_le_pow_right (show 0 < 2 by decide) hw
    omega
  rw [UInt8.toNat_and, UInt8.toNat_ofNat', Nat.mod_eq_of_lt hlt,
    Nat.and_two_pow_sub_one_eq_mod]

/-- A byte of 16-bit lanes shifted to the right, under a mask that leaves no
bits of its neighbour. -/
theorem srliEpi16_and (h : k + w ≤ 8) (hw : 0 < w) (x : Reg) (i : Nat) :
    srliEpi16 x k i &&& UInt8.ofNat (2 ^ w - 1)
      = x i >>> UInt8.ofNat k &&& UInt8.ofNat (2 ^ w - 1) := by
  obtain ⟨r, hr⟩ := toNat_srliEpi16 x k i
  apply UInt8.toNat_inj.1
  rw [toNat_and_ones _ (by omega), toNat_and_ones _ (by omega), hr,
    shifted_mod h, UInt8.toNat_shiftRight,
    UInt8.toNat_ofNat', Nat.mod_eq_of_lt (show k < 2 ^ 8 by omega),
      Nat.mod_eq_of_lt (show k < 8 by omega),
    Nat.shiftRight_eq_div_pow]

theorem srlvEpi32_and (h : k + w ≤ 8) (hw : 0 < w) (x : Reg) (i : Nat) :
    srlvEpi32 x (set1Epi32 k) i &&& UInt8.ofNat (2 ^ w - 1)
      = x i >>> UInt8.ofNat k &&& UInt8.ofNat (2 ^ w - 1) := by
  have hcount : u32 (set1Epi32 k) (i / 4) = k := by
    rw [set1Epi32, ofI32, u32_ofU32]
    omega
  obtain ⟨r, hr⟩ := toNat_srlvEpi32 x (set1Epi32 k) i
  rw [hcount] at hr
  apply UInt8.toNat_inj.1
  rw [toNat_and_ones _ (by omega), toNat_and_ones _ (by omega), hr,
    shifted_mod h, UInt8.toNat_shiftRight,
    UInt8.toNat_ofNat', Nat.mod_eq_of_lt (show k < 2 ^ 8 by omega),
      Nat.mod_eq_of_lt (show k < 8 by omega),
    Nat.shiftRight_eq_div_pow]

/-- 16-bit lanes shifted to the left by four, where no byte has more than four
bits. -/
theorem slliEpi16_four (h : ∀ i, (x i).toNat < 16) (i : Nat) :
    slliEpi16 x 4 i = x i <<< 4 := by
  apply UInt8.toNat_inj.1
  have hi := h i
  have hshift : (x i <<< 4).toNat = (x i).toNat * 16 := by
    rw [UInt8.toNat_shiftLeft, Nat.shiftLeft_eq]
    exact Nat.mod_eq_of_lt (show (x i).toNat * 2 ^ 4 < 2 ^ 8 by omega)
  rw [hshift, slliEpi16, ofU16, UInt8.toNat_ofNat', u16]
  rcases Nat.even_or_odd' i with ⟨j, rfl | rfl⟩
  · have hhalf : 2 * j / 2 = j ∧ 2 * j % 2 = 0 := by omega
    rw [hhalf.1, hhalf.2]
    omega
  · have hhalf : (2 * j + 1) / 2 = j ∧ (2 * j + 1) % 2 = 1 := by omega
    have hlow := h (2 * j)
    rw [hhalf.1, hhalf.2]
    omega

-- =============================== rules

/-- A computation that stays in range and ends in a register with these `n`
lanes. -/
def Holds (lane : Reg → Nat → Int) (n : Nat) (c : Tracked Reg)
    (f : Nat → Int) : Prop :=
  ∃ r, c = pure r ∧ ∀ i < n, lane r i = f i

theorem Holds.bind {lane' : Reg → Nat → Int} {n' : Nat}
    {k : Reg → Tracked Reg} {g : Nat → Int} (h : Holds lane n c f)
    (hk : ∀ r, (∀ i < n, lane r i = f i) → Holds lane' n' (k r) g) :
    Holds lane' n' (c >>= k) g := by
  obtain ⟨r, rfl, hr⟩ := h
  rw [pure_bind]
  exact hk r hr

theorem Holds.bind_pure {α : Type} {k : Reg → Tracked α} {v : α}
    (h : Holds lane n c f) (hk : ∀ r, (∀ i < n, lane r i = f i) → k r = pure v)
    :
    (c >>= k) = pure v := by
  obtain ⟨r, rfl, hr⟩ := h
  rw [pure_bind]
  exact hk r hr

theorem Holds.congr {g : Nat → Int}
    (h : Holds lane n c f) (hfg : ∀ i < n, f i = g i) : Holds lane n c g := by
  obtain ⟨r, rfl, hr⟩ := h
  exact ⟨r, rfl, fun i hi => (hr i hi).trans (hfg i hi)⟩

theorem holds_lanesI16 (h : ∀ i < n, |f i| ≤ 32767) :
    Holds i16 n (lanesI16 n f) f := by
  refine ⟨ofI16 fun i => satI16 (f i), ?_, ?_⟩
  · rw [lanesI16, decide_eq_true fun i hi => InI16.of_abs_le (h i hi)]
    rfl
  · intro i hi
    rw [i16_ofI16, satI16_of_mem (.of_abs_le (h i hi)),
      wrapI16_of_mem (.of_abs_le (h i hi))]

theorem holds_lanesI32 (h : ∀ i < n, |f i| ≤ 2147483647) :
    Holds i32 n (lanesI32 n f) f := by
  refine ⟨ofI32 f, ?_, ?_⟩
  · rw [lanesI32, decide_eq_true fun i hi => InI32.of_abs_le (h i hi)]
    rfl
  · intro i hi
    rw [i32_ofI32, wrapI32_of_mem (.of_abs_le (h i hi))]

/-- Pairs of a small unsigned byte by a signed one do not saturate. -/
theorem holds_maddubs {top : Nat} (htop : top ≤ 127)
    (hx : ∀ i, (x i).toNat ≤ top) :
    Holds i16 n (maddubsEpi16 n x y)
      fun i => (x (2 * i)).toNat * i8 (y (2 * i)) + (x (2 * i + 1)).toNat * i8
        (y (2 * i + 1)) := by
  apply holds_lanesI16
  intro i _
  have hprod : ∀ j, |((x j).toNat : Int) * i8 (y j)| ≤ 127 * 128 := by
    intro j
    rw [abs_mul]
    apply mul_le_mul _ (abs_i8_le _) (abs_nonneg _) (by decide)
    rw [Nat.abs_cast]
    exact_mod_cast (hx j).trans htop
  have hsum := (abs_add_le _ _).trans (add_le_add (hprod (2 * i)) (hprod (2 * i + 1)))
  omega

/-- The loop of sums: each lane is the sum of its terms. -/
theorem holds_accumulate {m : Nat} {acc : Reg} {term : Nat → Tracked Reg}
    {a : Nat → Int} {f : Nat → Nat → Int} (start bound : Int)
    (hacc : ∀ i < n, i32 acc i = a i) (ha : ∀ i < n, |a i| ≤ start)
    (hterm : ∀ j < m, Holds i32 n (term j) (f j))
    (hbound : ∀ j < m, ∀ i < n, |f j i| ≤ bound) (hpos : 0 ≤ bound)
    (hm : start + m * bound ≤ 2147483647) :
    Holds i32 n (accumulateEpi32 n m acc term) fun i =>
      a i + ∑ j ∈ Finset.range m, f j i := by
  suffices h : ∀ m' ≤ m, Holds i32 n (accumulateEpi32 n m' acc term) fun i =>
    a i + ∑ j ∈ Finset.range m', f j i from
    h m le_rfl
  intro m' hm'
  induction m' with
  | zero => exact ⟨acc, rfl, fun i hi => by simpa using hacc i hi⟩
  | succ m' ih =>
      rw [accumulateEpi32, List.range_succ, List.foldlM_append, ← accumulateEpi32]
      apply (ih (by omega)).bind
      intro r hr
      simp only [List.foldlM_cons, List.foldlM_nil, bind_pure]
      apply (hterm m' hm').bind
      intro t ht
      have hlanes : ∀ i < n, i32 r i + i32 t i
          = a i + ∑ j ∈ Finset.range (m' + 1), f j i := by
        intro i hi
        rw [hr i hi, ht i hi, Finset.sum_range_succ, add_assoc]
      apply (holds_lanesI32 _).congr hlanes
      intro i hi
      rw [hlanes i hi]
      have hsum := abs_sum_range_le (n := m' + 1) bound fun j hj =>
        hbound j (by omega) i hi
      have hcount : ((m' + 1 : Nat) : Int) * bound ≤ m * bound :=
        mul_le_mul_of_nonneg_right (by exact_mod_cast hm') hpos
      have hadd := (abs_add_le _ _).trans (add_le_add (ha i hi) hsum)
      omega

theorem reduceAddEpi32_eq (bound : Int) (hx : ∀ i < 2 ^ k, i32 x i = f i)
    (hbound : ∀ i < 2 ^ k, |f i| ≤ bound) (hk : 2 ^ k * bound ≤ 2147483647) :
    reduceAddEpi32 k x = pure (∑ i ∈ Finset.range (2 ^ k), f i) := by
  induction k generalizing x f bound with
  | zero =>
      rw [reduceAddEpi32, hx 0 (by decide), pow_zero, Finset.sum_range_one]
  | succ k ih =>
      have hpow : 2 ^ (k + 1) = 2 ^ k + 2 ^ k := by rw [pow_succ, mul_two]
      have hhigh : ∀ i, i32 (extractAt (4 * 2 ^ k) x) i = i32 x (2 ^ k + i) := by
        intro i
        apply i32_congr
        intro r _
        rw [extractAt, Nat.mul_add, Nat.add_assoc]
      have hlanes : ∀ i < 2 ^ k, i32 x i + i32 (extractAt (4 * 2 ^ k) x) i
          = f i + f (2 ^ k + i) := by
        intro i hi
        rw [hhigh, hx i (by omega), hx (2 ^ k + i) (by omega)]
      have hpairs : ∀ i < 2 ^ k, |f i + f (2 ^ k + i)| ≤ 2 * bound := by
        intro i hi
        have hadd := (abs_add_le _ _).trans
          (add_le_add (hbound i (by omega)) (hbound (2 ^ k + i) (by omega)))
        omega
      have hnext : 2 ^ k * (2 * bound) ≤ 2147483647 := by
        rw [← mul_assoc, ← pow_succ]
        exact hk
      have hadd : Holds i32 (2 ^ k)
          (addEpi32 (2 ^ k) x (extractAt (4 * 2 ^ k) x)) fun i =>
          f i + f (2 ^ k + i) := by
        apply (holds_lanesI32 _).congr hlanes
        intro i hi
        rw [hlanes i hi]
        have hpos : 0 ≤ 2 * bound := (abs_nonneg _).trans (hpairs i hi)
        have hone : (1 : Int) * (2 * bound) ≤ 2 ^ k * (2 * bound) :=
          mul_le_mul_of_nonneg_right (one_le_pow₀ (by decide)) hpos
        have hlane := hpairs i hi
        omega
      rw [reduceAddEpi32, hpow, Finset.sum_range_add, ← Finset.sum_add_distrib]
      apply hadd.bind_pure
      intro r hr
      exact ih (2 * bound) hr hpairs hnext

end Minfer.Lib
