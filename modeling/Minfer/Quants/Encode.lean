/-
The K-quant encoders (`quantize.rs`) and the `Q8_K` activation quantizer
(`quants/quantize_q8_k.rs`).

The float arithmetic is a parameter, with nothing known about it; so the
integers that are stored are any the clamps let through. A slice of floats or
of quants is a function of the place.
-/
import Minfer.Quants.Kquant

namespace Minfer.Quants

open Minfer.Lib (Reg i8)

/-- The float arithmetic of the encoders. -/
structure FloatArith (F : Type) extends FloatOps F where
  /-- A literal: `lit m e` is `m · 10⁻ᵉ`. -/
  lit : Nat → Nat → F
  div : F → F → F
  neg : F → F
  abs : F → F
  sqrt : F → F
  /-- `mul_add`. -/
  mulAdd : F → F → F → F
  lt : F → F → Bool
  eq : F → F → Bool
  max : F → F → F
  clamp : F → F → F → F
  roundTiesEven : F → F
  toBits : F → Nat
  /-- `half::f16::from_f32`, the bits. -/
  toF16 : F → UInt16
  /-- `as i8`, the byte. -/
  asI8 : F → UInt8

/-- `FmaContract`. -/
inductive FmaContract where
  | fast
  | off
deriving Repr, DecidableEq

/-- `i32::clamp`. -/
def clampI32 (z low high : Int) : Int := max low (min z high)

/-- `as u8` and `as i8` of an `i32`, the byte. -/
def asU8 (z : Int) : UInt8 := UInt8.ofNat (z % 256).toNat

/-- `to_le_bytes` of a `u16`. -/
def leBytes16 (v : UInt16) : List UInt8 :=
  [UInt8.ofNat v.toNat, UInt8.ofNat (v.toNat / 256)]

section Encode

variable {F : Type} (fa : FloatArith F) (contract : FmaContract)

/-- `fma`. -/
def fma (a b c : F) : F :=
  match contract with
  | .fast => fa.mulAdd a b c
  | .off => fa.add (fa.mul a b) c

/-- The integer in the mantissa of a float moved by `1.5 · 2²³`. -/
def mantissaInt (val : F) : Int :=
  ((fa.toBits val &&& 0x007fffff : Nat) : Int) - 0x00400000

/-- `nearest_int`. -/
def nearestInt (fval : F) : Int := mantissaInt fa (fa.add fval (fa.lit 12582912 0))

/-- `nearest_int_mul`. -/
def nearestIntMul (a b : F) : Int :=
  mantissaInt fa (fma fa contract a b (fa.lit 12582912 0))

/-- `GROUP_MAX_EPS`. -/
def groupMaxEps : F := fa.lit 1 15

-- ==================== make_qkx2_quants

/-- What the first pass over a sub-block finds. -/
structure Extent (F : Type) where
  min : F
  max : F
  sumW : F
  sumX : F

/-- The first pass over a sub-block. -/
def extent (n : Nat) (x weights : Nat → F) : Extent F :=
  (List.range' 1 (n - 1)).foldl
    (fun s i =>
      { min := if fa.lt (x i) s.min then x i else s.min
        max := if fa.lt s.max (x i) then x i else s.max
        sumW := fa.add s.sumW (weights i)
        sumX := fma fa contract (weights i) (x i) s.sumX })
    ⟨x 0, x 0, weights 0, fa.mul (weights 0) (x 0)⟩

/-- A scale and a min with the quants they give, and their error. -/
structure Fit (F : Type) where
  scale : F
  min : F
  bestError : F
  l : Nat → UInt8

/-- The weighted squared error of quants under a scale and a min. -/
def weightedError (n : Nat) (x weights : Nat → F) (scale min : F)
    (l : Nat → UInt8) : F :=
  (List.range n).foldl
    (fun error i =>
      let diff := fa.sub (fma fa contract scale (fa.ofI32 (l i).toNat) min) (x i)
      fma fa contract (weights i) (fa.mul diff diff) error)
    fa.zero

/-- The sums a candidate is fitted from. -/
structure FitSums (F : Type) where
  l : F
  l2 : F
  xl : F

/-- One candidate of the search: it replaces a worse fit. -/
def qkx2Candidate (n : Nat) (nmax : Int) (x weights : Nat → F) (ext : Extent F)
    (rmin rdelta : F) (fit : Fit F) (is : Nat) : Fit F :=
  let iscale :=
    fa.div (fa.add (fma fa contract rdelta (fa.ofI32 is) rmin) (fa.ofI32 nmax))
    (fa.sub ext.max fit.min)
  let li i := clampI32
    (nearestIntMul fa contract iscale (fa.sub (x i) fit.min)) 0 nmax
  let laux i := asU8 (li i)
  let sums := (List.range n).foldl
    (fun (s : FitSums F) i =>
      let lf := fa.ofI32 (li i)
      let wl := fa.mul (weights i) lf
      ⟨fa.add s.l wl, fma fa contract wl lf s.l2, fma fa contract wl (x i) s.xl⟩)
    ⟨fa.zero, fa.zero, fa.zero⟩
  let d := fma fa contract ext.sumW sums.l2 (fa.neg (fa.mul sums.l sums.l))
  if fa.lt fa.zero d then
    let thisScale :=
      fa.div (fma fa contract ext.sumX (fa.neg sums.l)
        (fa.mul ext.sumW sums.xl)) d
    let thisMin :=
      fa.div (fma fa contract sums.l2 ext.sumX
        (fa.neg (fa.mul sums.l sums.xl))) d
    let positive := fa.lt fa.zero thisMin
    let thisScale := if positive then fa.div sums.xl sums.l2 else thisScale
    let thisMin := if positive then fa.zero else thisMin
    let curError := weightedError fa contract n x weights thisScale thisMin laux
    if fa.lt curError fit.bestError then ⟨thisScale, thisMin, curError, laux⟩ else fit
  else fit

/-- `make_qkx2_quants`: the scale, `the_min` and the quants. -/
def makeQkx2Quants (n : Nat) (nmax : Int) (x weights : Nat → F)
    (rmin rdelta : F) (nstep : Int) :
    F × F × (Nat → UInt8) :=
  let ext := extent fa contract n x weights
  let min := if fa.lt fa.zero ext.min then fa.zero else ext.min
  if fa.eq ext.max min then (fa.zero, fa.neg min, fun _ => 0)
  else
    let iscale := fa.div (fa.ofI32 nmax) (fa.sub ext.max min)
    let scale := fa.div (fa.lit 1 0) iscale
    let l i := asU8
      (clampI32 (nearestIntMul fa contract iscale (fa.sub (x i) min)) 0 nmax)
    let fit : Fit F :=
      ⟨scale, min, weightedError fa contract n x weights scale min l, l⟩
    if nstep < 1 then (fit.scale, fa.neg fit.min, fit.l)
    else
      let fit := (List.range (nstep + 1).toNat).foldl
        (qkx2Candidate fa contract n nmax x weights ext rmin rdelta) fit
      (fit.scale, fa.neg fit.min, fit.l)

-- ====================== make_qx_quants

/-- `rmse_weight`. -/
def rmseWeight (rmseType : Int) (x : F) : F :=
  if rmseType = 1 then fa.mul x x
  else if rmseType = 2 then fa.lit 1 0
  else if rmseType = 3 then fa.abs x
  else fa.sqrt (fa.abs x)

/-- The largest magnitude of a sub-block, with its sign: `(max, amax)`. -/
def signedMax (n : Nat) (x : Nat → F) : F × F :=
  (List.range n).foldl (fun s i => if fa.lt s.2 (fa.abs (x i))
    then (x i, fa.abs (x i)) else s) (fa.zero, fa.zero)

/-- A scale with the quants it gives. -/
structure ScaleFit (F : Type) where
  scale : F
  best : F
  l : Nat → UInt8

/-- `make_qx_quants`: the scale and the quants, moved by `nmax`. -/
def makeQxQuants (n : Nat) (nmax : Int) (x : Nat → F) (rmseType : Int)
    (qw : Option (Nat → F)) :
    F × (Nat → UInt8) :=
  let found := signedMax fa n x
  let max := found.1
  if fa.lt found.2 (groupMaxEps fa) then (fa.zero, fun _ => 0)
  else
    let iscale := fa.div (fa.neg (fa.ofI32 nmax)) max
    let li (iscale : F) (i : Nat) :=
      clampI32 (nearestIntMul fa contract iscale (x i)) (-nmax) (nmax - 1)
    if rmseType = 0
      then (fa.div (fa.lit 1 0) iscale, fun i => asU8 (nmax + li iscale i))
    else
      let returnEarly := rmseType < 0
      let rmseType := if rmseType < 0 then -rmseType else rmseType
      let w (i : Nat) := match qw with
        | some q => q i
        | none => rmseWeight fa rmseType (x i)
      let first := (List.range n).foldl
        (fun (s : F × F) i =>
          let lf := fa.ofI32 (li iscale i)
          (fma fa contract (fa.mul (w i) (x i)) lf s.1,
            fma fa contract (fa.mul (w i) lf) lf s.2))
        (fa.zero, fa.zero)
      let l i := asU8 (li iscale i + nmax)
      let scale := if fa.eq first.2 fa.zero then fa.zero else fa.div first.1 first.2
      if returnEarly then
        (if fa.lt fa.zero first.2
          then fa.mul (fa.lit 5 1) (fa.add scale (fa.div (fa.lit 1 0) iscale))
          else fa.div (fa.lit 1 0) iscale, l)
      else
        let fit := ((List.range 19).map fun i => (i : Int) - 9).foldl
          (fun (fit : ScaleFit F) is =>
            if is = 0 then fit
            else
              let iscale :=
                fa.div (fa.neg
                  (fma fa contract (fa.lit 1 1) (fa.ofI32 is) (fa.ofI32 nmax)))
                max
              let sums := (List.range n).foldl
                (fun (s : F × F) i =>
                  let lf := fa.ofI32 (li iscale i)
                  (fa.add s.1 (fa.mul (fa.mul (w i) (x i)) lf),
                    fa.add s.2 (fa.mul (fa.mul (w i) lf) lf)))
                (fa.zero, fa.zero)
              if fa.lt fa.zero sums.2
                  && fa.lt (fa.mul fit.best sums.2) (fa.mul sums.1 sums.1) then
                let scale := fa.div sums.1 sums.2
                ⟨scale, fa.mul scale sums.1, fun i => asU8 (li iscale i + nmax)⟩
              else fit)
          ⟨scale, fa.mul scale first.1, l⟩
        (fit.scale, fit.l)

-- ======================= Q4_K and Q5_K

/-- `get_scale_min_k4`. -/
def getScaleMinK4 (j : Nat) (q : Nat → UInt8) : UInt8 × UInt8 :=
  if j < 4 then (q j &&& 63, q (j + 4) &&& 63)
  else
    ((q (j + 4) &&& (0xF : UInt8)) ||| (q (j - 4) >>> 6 <<< 4),
      (q (j + 4) >>> 4) ||| (q j >>> 6 <<< 4))

/-- The packing of eight scales and eight mins of six bits into twelve bytes. -/

def packScales (ls lm : Nat → UInt8) : List UInt8 :=
  (List.range 8).foldl
    (fun packed j =>
      if j < 4 then (packed.set j (ls j)).set (j + 4) (lm j)
      else
        let packed :=
          packed.set (j + 4)
          ((ls j &&& (0xF : UInt8)) ||| ((lm j &&& 0xF) <<< 4))
        let packed :=
          packed.set (j - 4) (packed.getD (j - 4) 0 ||| (ls j >>> 4 <<< 6))
        packed.set j (packed.getD j 0 ||| (lm j >>> 4 <<< 6)))
    (List.replicate 12 0)

/-- What a superblock with scales and mins is stored from. -/
structure Chosen where
  ls : Nat → UInt8
  lm : Nat → UInt8
  d : UInt16
  dmin : UInt16
  l : Nat → UInt8

/-- `q4k_q5k_common`; its packed scales are `packScales` of what it chooses. -/
def q4kQ5kCommon (x : Nat → F) (nmax : Int) (rmin : F) (nstep : Int) : Chosen :=
  let fit (j : Nat) :=
    let xb l := x (32 * j + l)
    let sumX2 :=
      (List.range 32).foldl (fun s l => fma fa contract (xb l) (xb l) s)
      fa.zero
    let avX := fa.sqrt (fa.div sumX2 (fa.lit 32 0))
    let weights l := fa.add avX (fa.abs (xb l))
    makeQkx2Quants fa contract 32 nmax xb weights rmin (fa.lit 1 1) nstep
  let scales j := (fit j).1
  let mins j := (fit j).2.1
  let top (v : Nat → F) :=
    (List.range 8).foldl (fun m j => if fa.lt m (v j) then v j else m) fa.zero
  let maxScale := top scales
  let maxMin := top mins
  let invScale := if fa.lt fa.zero maxScale then fa.div (fa.lit 63 0) maxScale
    else fa.zero
  let invMin := if fa.lt fa.zero maxMin then fa.div (fa.lit 63 0) maxMin else fa.zero
  let ls j := min (asU8 (nearestIntMul fa contract invScale (scales j))) 63
  let lm j := min (asU8 (nearestIntMul fa contract invMin (mins j))) 63
  let d := fa.toF16 (fa.div maxScale (fa.lit 63 0))
  let dmin := fa.toF16 (fa.div maxMin (fa.lit 63 0))
  let dF32 := fa.fp16ToF32 d.toNat
  let dminF32 := fa.fp16ToF32 dmin.toNat
  let l i :=
    let j := i / 32
    let scm := getScaleMinK4 j fun k => (packScales ls lm).getD k 0
    let dq := fa.mul dF32 (fa.ofI32 scm.1.toNat)
    if fa.eq dq fa.zero then (fit j).2.2 (i % 32)
    else
      let dm := fa.mul dminF32 (fa.ofI32 scm.2.toNat)
      asU8 (clampI32 (nearestInt fa (fa.div (fa.add (x i) dm) dq)) 0 nmax)
  ⟨ls, lm, d, dmin, l⟩

/-- The superblock that starts at a place of a row. -/
def superblock (x : List F) (b : Nat) : Nat → F :=
  fun i => x.getD (b * 256 + i) fa.zero

/-- The head of a superblock with scales and mins. -/
def minsHead (c : Chosen) : List UInt8 :=
  leBytes16 c.d ++ leBytes16 c.dmin ++ packScales c.ls c.lm

/-- What `quantize_q4_k` chooses for a superblock. -/
def q4KChosen (x : Nat → F) : Chosen :=
  q4kQ5kCommon fa contract x 15 (fa.neg (fa.lit 1 0)) 20

/-- What `quantize_q4_k` writes of a superblock. -/
def q4KBlock (c : Chosen) : List UInt8 :=
  minsHead c ++ (List.range 4).flatMap fun g => (List.range 32).map fun l2 =>
    c.l (64 * g + l2) ||| (c.l (64 * g + l2 + 32) <<< 4)

/-- `quantize_q4_k`. -/
def quantizeQ4K (x : List F) : List UInt8 :=
  (List.range (x.length / 256)).flatMap fun b =>
    q4KBlock (q4KChosen fa contract (superblock fa x b))

/-- What `quantize_q5_k` chooses for a superblock. -/
def q5KChosen (x : Nat → F) : Chosen :=
  q4kQ5kCommon fa contract x 31 (fa.neg (fa.lit 5 1)) 15

/-- `qh`: the fifth bits, two of them for each group of 64. -/
def q5KHigh (l : Nat → UInt8) (j : Nat) : UInt8 :=
  (List.range 4).foldl
    (fun qh g =>
      let m1 : UInt8 := 1 <<< UInt8.ofNat (2 * g)
      let m2 : UInt8 := 2 <<< UInt8.ofNat (2 * g)
      let qh := if l (64 * g + j) > 15 then qh ||| m1 else qh
      if l (64 * g + j + 32) > 15 then qh ||| m2 else qh)
    0

/-- What is left of a quant without its fifth bit. -/
def lowFour (l : UInt8) : UInt8 := if l > 15 then l - 16 else l

/-- What `quantize_q5_k` writes of a superblock. -/
def q5KBlock (c : Chosen) : List UInt8 :=
  minsHead c ++ (List.range 32).map (q5KHigh c.l)
    ++ (List.range 4).flatMap fun g => (List.range 32).map fun j =>
      lowFour (c.l (64 * g + j)) ||| (lowFour (c.l (64 * g + j + 32)) <<< 4)

/-- `quantize_q5_k`. -/
def quantizeQ5K (x : List F) : List UInt8 :=
  (List.range (x.length / 256)).flatMap fun b =>
    q5KBlock (q5KChosen fa contract (superblock fa x b))

-- ================================ Q6_K

/-- What a `Q6_K` superblock is stored from. -/
structure Chosen6 where
  sc : Nat → UInt8
  d : UInt16
  l : Nat → UInt8

/-- What `quantize_q6_k` chooses for a superblock; for one without a scale,
zeros. -/
def q6KChosen (x : Nat → F) : Chosen6 :=
  let fit (ib : Nat) :=
    makeQxQuants fa contract 16 32 (fun l => x (16 * ib + l)) 1 none
  let scales ib := (fit ib).1
  let found := (List.range 16).foldl
    (fun (s : F × F) ib => if fa.lt s.2 (fa.abs (scales ib))
      then (scales ib, fa.abs (scales ib)) else s)
    (fa.zero, fa.zero)
  if fa.lt found.2 (groupMaxEps fa) then ⟨fun _ => 0, 0, fun _ => 0⟩
  else
    let iscale := fa.div (fa.neg (fa.lit 128 0)) found.1
    let d := fa.toF16 (fa.div (fa.lit 1 0) iscale)
    let sc ib := asU8 (min (nearestIntMul fa contract iscale (scales ib)) 127)
    let dF32 := fa.fp16ToF32 d.toNat
    let l i :=
      let dq := fa.mul dF32 (fa.ofI32 (i8 (sc (i / 16))))
      if fa.eq dq fa.zero then (fit (i / 16)).2 (i % 16)
      else asU8 (clampI32 (nearestInt fa (fa.div (x i) dq)) (-32) 31 + 32)
    ⟨sc, d, l⟩

/-- What `quantize_q6_k` writes of a superblock. -/
def q6KBlock (c : Chosen6) : List UInt8 :=
  let nib i := c.l i &&& (0xF : UInt8)
  let high i := c.l i >>> 4
  let ql := (List.range 2).flatMap fun h =>
    (List.range 32).map
      (fun l => nib (128 * h + l) ||| (nib (128 * h + l + 64) <<< 4))
      ++ (List.range 32).map fun l =>
        nib (128 * h + l + 32) ||| (nib (128 * h + l + 96) <<< 4)
  let qh := (List.range 2).flatMap fun h => (List.range 32).map fun l =>
    high (128 * h + l) ||| (high (128 * h + l + 32) <<< 2)
      ||| (high (128 * h + l + 64) <<< 4)
      ||| (high (128 * h + l + 96) <<< 6)
  ql ++ qh ++ (List.range 16).map c.sc ++ leBytes16 c.d

/-- `quantize_q6_k`. -/
def quantizeQ6K (x : List F) : List UInt8 :=
  (List.range (x.length / 256)).flatMap fun b =>
    q6KBlock (q6KChosen fa contract (superblock fa x b))

-- ================================ Q8_K

/-- `to_le_bytes` of an `i16`. -/
def leBytesI16 (z : Int) : List UInt8 :=
  [UInt8.ofNat (z % 65536).toNat, UInt8.ofNat ((z % 65536).toNat / 256)]

/-- What `quantize_row_q8_k_buf` writes of a superblock. -/
def q8KBlock (blk : Nat → F) : List UInt8 :=
  let amax := (List.range 256).foldl (fun m j => fa.max m (fa.abs (blk j))) fa.zero
  let d := fa.div amax (fa.lit 127 0)
  let id := if fa.eq d fa.zero then fa.zero else fa.div (fa.lit 1 0) d
  let q j := fa.asI8
    (fa.clamp (fa.roundTiesEven (fa.mul (blk j) id)) (fa.neg (fa.lit 128 0))
      (fa.lit 127 0))
  let bsum g := (List.range 16).foldl (fun sum e => sum + i8 (q (16 * g + e))) 0
  leBytes16 (fa.toF16 d) ++ (List.range 256).map q ++ List.replicate 16 0
    ++ (List.range 16).flatMap fun g => leBytesI16 (bsum g)

/-- `quantize_row_q8_k_buf`: `nt` rows of `dim` elements. -/
def quantizeRowQ8KBuf (x : List F) (nt dim : Nat) : List UInt8 :=
  (List.range nt).flatMap fun t => (List.range (dim / 256)).flatMap fun s =>
    q8KBlock fa fun j => x.getD (t * dim + s * 256 + j) fa.zero

end Encode

end Minfer.Quants
