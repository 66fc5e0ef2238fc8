/-
The scalar dot products of a K-quant row with a `Q8_K` row
(`quants/kquant.rs`, `unpack_q4k_scales` in `block.rs`).

Integers are exact, and each step of them says whether `i32` holds it. The
float operations are parameters: what reaches them, and in which order, is
what there is to say about a kernel.
-/
import Minfer.Lib.Lanes

namespace Minfer.Quants

open Minfer.Lib (Reg Tracked load loadAt i8 i16 u16 trackI32 sumI32)

/-- The float operations of the kernels. -/
structure FloatOps (F : Type) where
  zero : F
  /-- `fp16_to_f32`. -/
  fp16ToF32 : Nat → F
  /-- `as f32` of an `i32`. -/
  ofI32 : Int → F
  add : F → F → F
  sub : F → F → F
  mul : F → F → F

/-- `Q4KB`. -/
def q4KB : Nat := 144

/-- `Q5KB`. -/
def q5KB : Nat := 176

/-- `Q6KB`. -/
def q6KB : Nat := 210

/-- `Q8KB`. -/
def q8KB : Nat := 306

/-- `i16::from_le_bytes` at a place. -/
def i16At (b : Reg) (off : Nat) : Int := i16 (loadAt b off) 0

/-- `unpack_q4k_scales`, the scales. -/
def unpackScale (sc : Reg) (j : Nat) : UInt8 :=
  if j < 4 then sc j &&& 0x3F
    else (sc (j + 4) &&& (0xF : UInt8)) ||| (sc (j - 4) >>> 6 <<< 4)

/-- `unpack_q4k_scales`, the mins. -/
def unpackMin (sc : Reg) (j : Nat) : UInt8 :=
  if j < 4 then sc (j + 4) &&& 0x3F else (sc (j + 4) >>> 4) ||| (sc j >>> 6 <<< 4)

/-- The min term of a superblock: `Σ mins[s] * (bsums[2s] + bsums[2s+1])`. -/
def minTerm (w q8b : Reg) : Tracked Int :=
  sumI32 8 fun s => do
    let b0 := i16At q8b (274 + 2 * (2 * s))
    let b1 := i16At q8b (274 + 2 * (2 * s + 1))
    let pair ← trackI32 (b0 + b1)
    trackI32 ((unpackMin (loadAt w 4) s).toNat * pair)

section Kernels

variable {F : Type} (fo : FloatOps F)

/-- The `f16` at a place. -/
def f16At (b : Reg) (off : Nat) : F := fo.fp16ToF32 (u16 (loadAt b off) 0)

/-- The loop over the superblocks of a format with scales and mins: the min
term is subtracted first. -/
def dotWithMins (blockLen : Nat) (mterm total : Reg → Reg → Tracked Int)
    (w q8k : List UInt8) : Tracked F :=
  (List.range (w.length / blockLen)).foldlM
    (fun sumf i => do
      let wb := load w (i * blockLen)
      let q8b := load q8k (i * q8KB)
      let d := fo.mul (f16At fo wb 0) (f16At fo q8b 0)
      let dmin := fo.mul (f16At fo wb 2) (f16At fo q8b 0)
      let mterm ← mterm wb q8b
      let sumf := fo.sub sumf (fo.mul dmin (fo.ofI32 mterm))
      let total ← total wb q8b
      return fo.add sumf (fo.mul d (fo.ofI32 total)))
    fo.zero

-- ================================ Q4_K

/-- The scaled sums of a `Q4_K` superblock. -/
def q4KTotal (q4b q8b : Reg) : Tracked Int := do
  let scales := unpackScale (loadAt q4b 4)
  let sumi1 ← sumI32 4 fun j => do
    let sLo ← sumI32 32 fun l =>
      trackI32 ((q4b (16 + 32 * j + l) &&& 0x0F).toNat * i8
        (q8b (2 + 64 * j + l)))
    trackI32 (sLo * (scales (2 * j)).toNat)
  let sumi2 ← sumI32 4 fun j => do
    let sHi ← sumI32 32 fun l =>
      trackI32 ((q4b (16 + 32 * j + l) >>> 4).toNat * i8
        (q8b (2 + 64 * j + 32 + l)))
    trackI32 (sHi * (scales (2 * j + 1)).toNat)
  trackI32 (sumi1 + sumi2)

/-- `dot_q4_k_q8_k_scalar`. -/
def dotQ4KQ8KScalar : List UInt8 → List UInt8 → Tracked F :=
  dotWithMins fo q4KB minTerm q4KTotal

-- ================================ Q5_K

/-- The nibbles of a `Q5_K` superblock, in the order of its elements. -/
def q5KNibble (q5b : Reg) (i : Nat) : UInt8 :=
  let chunk := loadAt q5b (48 + i / 64 * 32)
  if i / 32 % 2 = 0 then chunk (i % 32) &&& 0x0F else chunk (i % 32) >>> 4

/-- A quant of a `Q5_K` superblock: the nibble under its high bit. -/
def q5KQuant (q5b : Reg) (s k : Nat) : UInt8 :=
  let qh := loadAt q5b 16
  let hbit := (qh k >>> UInt8.ofNat s) &&& 1
  q5KNibble q5b (s * 32 + k) ||| (hbit <<< 4)

/-- The scaled sums of a `Q5_K` superblock. -/
def q5KTotal (q5b q8b : Reg) : Tracked Int := do
  let scales := unpackScale (loadAt q5b 4)
  let sumi1 ← sumI32 4 fun j => do
    let sLo ← sumI32 32 fun k =>
      trackI32 ((q5KQuant q5b (2 * j) k).toNat * i8 (q8b (2 + 2 * j * 32 + k)))
    trackI32 (sLo * (scales (2 * j)).toNat)
  let sumi2 ← sumI32 4 fun j => do
    let sHi ← sumI32 32 fun k =>
      trackI32 ((q5KQuant q5b (2 * j + 1) k).toNat * i8
        (q8b (2 + (2 * j + 1) * 32 + k)))
    trackI32 (sHi * (scales (2 * j + 1)).toNat)
  trackI32 (sumi1 + sumi2)

/-- `dot_q5_k_q8_k_scalar`. -/
def dotQ5KQ8KScalar : List UInt8 → List UInt8 → Tracked F :=
  dotWithMins fo q5KB minTerm q5KTotal

-- ================================ Q6_K

/-- `a`: the codes of a `Q6_K` superblock, in the order of its elements. Each
half has four runs of 32. -/
def q6KCode (q6b : Reg) (i : Nat) : UInt8 :=
  let ql := loadAt q6b (i / 128 * 64)
  let qh := loadAt q6b (128 + i / 128 * 32)
  let l := i % 32
  match i % 128 / 32 with
  | 0 => (ql l &&& (0x0F : UInt8)) ||| ((qh l &&& 3) <<< 4)
  | 1 => (ql (l + 32) &&& (0x0F : UInt8)) ||| ((qh l >>> 2 &&& 3) <<< 4)
  | 2 => (ql l >>> 4) ||| ((qh l >>> 4 &&& 3) <<< 4)
  | _ => (ql (l + 32) >>> 4) ||| ((qh l >>> 6 &&& 3) <<< 4)

/-- `sc`. -/
def q6KScale (q6b : Reg) (g : Nat) : Int := i8 (q6b (192 + g))

/-- A lane of a `Q6_K` superblock: lanes 0 to 3 add up the even groups, lanes 4
to 7 the odd ones, and the offset of 32 is taken off once a lane. -/
def q6KLane (q6b q8b : Reg) (k : Nat) : Tracked Int := do
  let lane ← sumI32 8 fun c => do
    let i := if k < 4 then 32 * c + 4 * k else 32 * c + 4 * (k - 4) + 16
    let p ← sumI32 4 fun e =>
      trackI32 (i8 (q6KCode q6b (i + e)) * i8 (q8b (2 + (i + e))))
    trackI32 ((if k < 4 then q6KScale q6b (2 * c) else q6KScale q6b (2 * c + 1)) * p)
  let p0 ← trackI32 (q6KScale q6b (2 * k) * i16At q8b (274 + 4 * k))
  let p1 ← trackI32 (q6KScale q6b (2 * k + 1) * i16At q8b (274 + 4 * k + 2))
  let sum ← trackI32 (p0 + p1)
  let offset ← trackI32 (32 * sum)
  trackI32 (lane - offset)

/-- `n` values, each computed by itself. -/
def tabulate {α : Type} (n : Nat) (f : Nat → Tracked α) : Tracked (Nat → α) :=
  ⟨fun k => (f k).value, (List.range n).all fun k => (f k).inRange⟩

/-- The fixed reduction tree. -/
def reduceTree (acc : Nat → F) : F :=
  fo.add (fo.add (fo.add (acc 0) (acc 1)) (fo.add (acc 2) (acc 3)))
    (fo.add (fo.add (acc 4) (acc 5)) (fo.add (acc 6) (acc 7)))

/-- `dot_q6_k_q8_k_scalar`. -/
def dotQ6KQ8KScalar (q6 q8k : List UInt8) : Tracked F := do
  let acc ← (List.range (q6.length / q6KB)).foldlM
    (fun acc i => do
      let q6b := load q6 (i * q6KB)
      let q8b := load q8k (i * q8KB)
      let d := fo.mul (f16At fo q6b 208) (f16At fo q8b 0)
      let lane ← tabulate 8 (q6KLane q6b q8b)
      return fun k => fo.add (acc k) (fo.mul d (fo.ofI32 (lane k))))
    fun _ => fo.zero
  return reduceTree fo acc

end Kernels

end Minfer.Quants
