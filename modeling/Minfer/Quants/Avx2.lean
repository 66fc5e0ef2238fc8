/-
The AVX2 dot products of a K-quant row with a `Q8_K` row (`quants/avx2.rs`).
-/
import Minfer.Quants.Kquant

namespace Minfer.Quants.Avx2

open Minfer.Lib

variable {F : Type} (fo : FloatOps F)

/-- `q4k_scales_raw`: eight scales and eight mins, in 16-bit lanes. -/
def q4kScalesRaw (u : Reg) : Reg × Reg :=
  let m3f := set1Epi16 0x003F
  let m0f := set1Epi16 0x000F
  let m30 := set1Epi16 0x0030
  let sw := shuffleEpi8 u
    [4, 12, 5, 13, 6, 14, 7, 15, -128, -128, -128, -128, -128, -128, -128, -128]
  let sLo := andSi sw m3f
  let sHi := orSi (andSi (srliEpi16 sw 8) m0f) (andSi (srliEpi16 sw 2) m30)
  let mw := shuffleEpi8 u
    [8, 12, 9, 13, 10, 14, 11, 15, -128, -128, -128, -128, -128, -128, -128, -128]
  let mLo := andSi mw m3f
  let mHi := orSi (andSi (srliEpi16 mw 12) m0f) (andSi (srliEpi16 mw 2) m30)
  (unpackloEpi64 sLo sHi, unpackloEpi64 mLo mHi)

/-- `hsum_epi32_8`. -/
def hsumEpi32 (v : Reg) : Tracked Int := do
  let x ← addEpi32 4 v (extractAt 16 v)
  let x ← addEpi32 4 x (shuffleEpi32 x 0x4E)
  let x ← addEpi32 4 x (shuffleEpi32 x 0xB1)
  return i32 x 0

/-- The min term, vectorised. -/
def minTerm (w q8b : Reg) : Tracked Int := do
  let m16 := (q4kScalesRaw (loadAt w 0)).2
  let bsums := loadAt q8b 274
  let pairs ← maddEpi16 8 bsums (set1Epi16 1)
  let terms ← mulloEpi32 8 (cvtepu16Epi32 m16) pairs
  hsumEpi32 terms

/-- The scaled sums of four pairs of sub-blocks: unsigned quants by signed
activations, each sub-block under its scale. -/
def scaledSums (sbuf : Nat → Int) (lo hi : Nat → Reg) (q8b : Reg) : Tracked Int := do
  let acc1 ← accumulateEpi32 8 4 (set1Epi8 0) fun j => do
    let plo ← maddubsEpi16 16 (lo j) (loadAt q8b (2 + 64 * j))
    maddEpi16 8 plo (set1Epi16 (sbuf (2 * j)))
  let acc2 ← accumulateEpi32 8 4 (set1Epi8 0) fun j => do
    let phi ← maddubsEpi16 16 (hi j) (loadAt q8b (2 + 64 * j + 32))
    maddEpi16 8 phi (set1Epi16 (sbuf (2 * j + 1)))
  let sum1 ← hsumEpi32 acc1
  let sum2 ← hsumEpi32 acc2
  trackI32 (sum1 + sum2)

-- ================================ Q4_K

/-- The low nibbles of 32 bytes. -/
def nibblesLo (bits : Reg) : Reg := andSi bits (set1Epi8 0x0F)

/-- The high nibbles of 32 bytes. -/
def nibblesHi (bits : Reg) : Reg := andSi (srliEpi16 bits 4) (set1Epi8 0x0F)

/-- The scaled sums of a `Q4_K` superblock. -/
def q4KTotal (q4b q8b : Reg) : Tracked Int :=
  let bits j := loadAt q4b (16 + 32 * j)
  scaledSums (i16 (q4kScalesRaw (loadAt q4b 0)).1)
    (fun j => nibblesLo (bits j)) (fun j => nibblesHi (bits j)) q8b

/-- `dot_q4_k_q8_k`. -/
def dotQ4KQ8K : List UInt8 → List UInt8 → Tracked F :=
  dotWithMins fo q4KB minTerm q4KTotal

-- ================================ Q5_K

/-- The quants of 32 elements: the nibbles under bit `sh` of the plane. -/
def withHighBit (nibbles qhv : Reg) (sh : Nat) : Reg :=
  let bit := andSi (srlvEpi32 qhv (set1Epi32 sh)) (set1Epi8 1)
  orSi nibbles (slliEpi16 bit 4)

def quantsLo (q5b : Reg) (j : Nat) : Reg :=
  withHighBit (nibblesLo (loadAt q5b (48 + 32 * j))) (loadAt q5b 16) (2 * j)

def quantsHi (q5b : Reg) (j : Nat) : Reg :=
  withHighBit (nibblesHi (loadAt q5b (48 + 32 * j))) (loadAt q5b 16) (2 * j + 1)

/-- The scaled sums of a `Q5_K` superblock. -/
def q5KTotal (q5b q8b : Reg) : Tracked Int :=
  scaledSums (i16 (q4kScalesRaw (loadAt q5b 0)).1) (quantsLo q5b) (quantsHi q5b) q8b

/-- `dot_q5_k_q8_k`. -/
def dotQ5KQ8K : List UInt8 → List UInt8 → Tracked F :=
  dotWithMins fo q5KB minTerm q5KTotal

-- ================================ Q6_K

/-- Six-bit codes: the nibbles under two bits of the plane. -/
def sixBits (nibbles highs : Reg) : Reg :=
  orSi nibbles (slliEpi16 (andSi highs (set1Epi8 3)) 4)

/-- `q6k_unsigned_groups`: the eight groups of a half. -/
def q6kUnsignedGroups (q6b : Reg) (n : Nat) : List Reg :=
  let qlp := loadAt q6b (n * 64)
  let qhp := loadAt q6b (128 + n * 32)
  let ql0 := loadAt qlp 0
  let ql1 := loadAt qlp 16
  let ql2 := loadAt qlp 32
  let ql3 := loadAt qlp 48
  let qh0 := loadAt qhp 0
  let qh1 := loadAt qhp 16
  [sixBits (nibblesLo ql0) qh0, sixBits (nibblesLo ql1) qh1,
    sixBits (nibblesLo ql2) (srliEpi16 qh0 2),
    sixBits (nibblesLo ql3) (srliEpi16 qh1 2),
    sixBits (nibblesHi ql0) (srliEpi16 qh0 4),
    sixBits (nibblesHi ql1) (srliEpi16 qh1 4),
    sixBits (nibblesHi ql2) (srliEpi16 qh0 6),
    sixBits (nibblesHi ql3) (srliEpi16 qh1 6)]

/-- Group `g` of a half. -/
def q6kGroup (q6b : Reg) (n g : Nat) : Reg :=
  (q6kUnsignedGroups q6b n).getD g (set1Epi8 0)

/-- The offset of 32, eight lanes of it. -/
def q6kCorrection (q6b q8b : Reg) : Tracked Reg := do
  let bsums := loadAt q8b 274
  let scales := cvtepi8Epi16 (loadAt q6b 192)
  let sums ← maddEpi16 8 bsums scales
  slliEpi32 8 sums 5

/-- The lanes of a `Q6_K` superblock. -/
def q6KLanes (q6b q8b : Reg) : Tracked Reg := do
  let corr ← q6kCorrection q6b q8b
  let sumi ← (List.range 2).foldlM
    (fun sumi n => accumulateEpi32 8 4 sumi fun t => do
      let g := n * 8 + 2 * t
      let u := insertAt 16 (q6kGroup q6b n (2 * t)) (q6kGroup q6b n (2 * t + 1))
      let y := loadAt q8b (2 + (n * 8 + 2 * t) * 16)
      let p16 ← maddubsEpi16 16 u y
      let sv := insertAt 16 (set1Epi16 (i8 (q6b (192 + g))))
        (set1Epi16 (i8 (q6b (192 + g + 1))))
      maddEpi16 8 sv p16)
    (set1Epi8 0)
  subEpi32 8 sumi corr

/-- A register of float lanes. -/
abbrev RegF (F : Type) := Nat → F

def set1Ps (v : F) : RegF F := fun _ => v

def addPs (x y : RegF F) : RegF F := fun k => fo.add (x k) (y k)

def mulPs (x y : RegF F) : RegF F := fun k => fo.mul (x k) (y k)

def cvtepi32Ps (x : Reg) : RegF F := fun k => fo.ofI32 (i32 x k)

/-- The loop over the superblocks of a `Q6_K` row, by the lanes of each. -/
def dotByLanes (lanes : Reg → Reg → Tracked Reg) (q6 q8k : List UInt8) :
    Tracked F := do
  let acc ← (List.range (q6.length / q6KB)).foldlM
    (fun acc i => do
      let q6b := load q6 (i * q6KB)
      let q8b := load q8k (i * q8KB)
      let d := fo.mul (f16At fo q6b 208) (f16At fo q8b 0)
      let sub ← lanes q6b q8b
      return addPs fo acc (mulPs fo (set1Ps d) (cvtepi32Ps fo sub)))
    (set1Ps fo.zero)
  return reduceTree fo acc

/-- `dot_q6_k_q8_k`. -/
def dotQ6KQ8K : List UInt8 → List UInt8 → Tracked F := dotByLanes fo q6KLanes

end Minfer.Quants.Avx2
