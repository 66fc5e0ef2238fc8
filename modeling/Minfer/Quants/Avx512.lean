/-
The AVX-512/VNNI dot products of a K-quant row with a `Q8_K` row
(`quants/avx512.rs`), and the choice among the kernels.
-/
import Minfer.Quants.Avx2

namespace Minfer.Quants.Avx512

open Minfer.Lib
open Minfer.Quants.Avx2
    (q4kScalesRaw nibblesLo nibblesHi quantsLo quantsHi q6kGroup q6kCorrection
      dotByLanes)

variable {F : Type} (fo : FloatOps F)

/-- `combine_256`. -/
def combine256 (lo hi : Reg) : Reg := insertAt 32 lo hi

/-- `combine_128`. -/
def combine128 (a b c d : Reg) : Reg :=
  let v := insertAt 16 a b
  let v := insertAt 32 v c
  insertAt 48 v d

/-- `idx`: lanes 0 to 15 select scale `2j`, lanes 16 to 31 scale `2j + 1`. -/
def scaleIdx (j : Nat) : Reg :=
  let base := combine256 (set1Epi8 0) (set1Epi16 1)
  addEpi16 base (set1Epi16 (2 * j))

/-- The scaled sums of four pairs of sub-blocks. -/
def scaledSums (s16 : Reg) (lo hi : Nat → Reg) (q8b : Reg) : Tracked Int := do
  let sv16 := zext128 s16
  let acc ← accumulateEpi32 16 4 (set1Epi8 0) fun j => do
    let u := combine256 (lo j) (hi j)
    let y := loadAt q8b (2 + 64 * j)
    let ps ← maddubsEpi16 32 u y
    maddEpi16 16 ps (permutexvarEpi16 (scaleIdx j) sv16)
  reduceAddEpi32 4 acc

/-- The scaled sums of a `Q4_K` superblock. -/
def q4KTotal (q4b q8b : Reg) : Tracked Int :=
  let bits j := loadAt q4b (16 + 32 * j)
  scaledSums (q4kScalesRaw (loadAt q4b 0)).1 (fun j => nibblesLo (bits j))
    (fun j => nibblesHi (bits j)) q8b

/-- `dot_q4_k_q8_k`. -/
def dotQ4KQ8K : List UInt8 → List UInt8 → Tracked F :=
  dotWithMins fo q4KB Avx2.minTerm q4KTotal

/-- The scaled sums of a `Q5_K` superblock. -/
def q5KTotal (q5b q8b : Reg) : Tracked Int :=
  scaledSums (q4kScalesRaw (loadAt q5b 0)).1 (quantsLo q5b) (quantsHi q5b) q8b

/-- `dot_q5_k_q8_k`. -/
def dotQ5KQ8K : List UInt8 → List UInt8 → Tracked F :=
  dotWithMins fo q5KB Avx2.minTerm q5KTotal

/-- `set_epi32` of four scales, each in four lanes. -/
def scalesBy4 (s : Nat → Int) : Reg := ofI32 fun i => s (i / 4)

/-- The lanes of a `Q6_K` superblock: four groups at a time, and the two halves
of the result are added. -/
def q6KLanes (q6b q8b : Reg) : Tracked Reg := do
  let corr ← q6kCorrection q6b q8b
  let sumi ← (List.range 2).foldlM
    (fun sumi n => accumulateEpi32 8 2 sumi fun pair => do
      let g := n * 8 + pair * 4
      let u := combine128 (q6kGroup q6b n (pair * 4)) (q6kGroup q6b n (pair * 4 + 1))
        (q6kGroup q6b n (pair * 4 + 2)) (q6kGroup q6b n (pair * 4 + 3))
      let y := loadAt q8b (2 + g * 16)
      let dot ← dpbusdEpi32 16 (set1Epi8 0) u y
      let sv := scalesBy4 fun r => i8 (q6b (192 + g + r))
      let scaled ← mulloEpi32 16 dot sv
      addEpi32 8 scaled (extractAt 32 scaled))
    (set1Epi8 0)
  subEpi32 8 sumi corr

/-- `dot_q6_k_q8_k`. -/
def dotQ6KQ8K : List UInt8 → List UInt8 → Tracked F := dotByLanes fo q6KLanes

end Minfer.Quants.Avx512

namespace Minfer.Quants

open Minfer.Lib

variable {F : Type} (fo : FloatOps F)

/-- `avx512_enabled`, `avx2_enabled`. -/
structure Cpu where
  avx512 : Bool
  avx2 : Bool

/-- A dot product dispatched to the widest kernel there is. -/
def dispatch (cpu : Cpu) (avx512 avx2 scalar : List UInt8 → List UInt8 → Tracked F) :
    List UInt8 → List UInt8 → Tracked F :=
  if cpu.avx512 then avx512 else if cpu.avx2 then avx2 else scalar

/-- `dot_q4_k_q8_k`. -/
def dotQ4KQ8K (cpu : Cpu) : List UInt8 → List UInt8 → Tracked F :=
  dispatch cpu (Avx512.dotQ4KQ8K fo) (Avx2.dotQ4KQ8K fo) (dotQ4KQ8KScalar fo)

/-- `dot_q5_k_q8_k`. -/
def dotQ5KQ8K (cpu : Cpu) : List UInt8 → List UInt8 → Tracked F :=
  dispatch cpu (Avx512.dotQ5KQ8K fo) (Avx2.dotQ5KQ8K fo) (dotQ5KQ8KScalar fo)

/-- `dot_q6_k_q8_k`. -/
def dotQ6KQ8K (cpu : Cpu) : List UInt8 → List UInt8 → Tracked F :=
  dispatch cpu (Avx512.dotQ6KQ8K fo) (Avx2.dotQ6KQ8K fo) (dotQ6KQ8KScalar fo)

end Minfer.Quants
