/-
What the K-quant encoders store is what the kernels read (`quantize.rs`,
`quants/kquant.rs`, `quants/quantize_q8_k.rs`).

Nothing is known of the float arithmetic: the integers are what the clamps let
through, and that is enough for each field to fit its bits. The kernels' sums
are then sums over the elements, and the sums of activations they rely on are
the ones the activation quantizer stores.
-/
import Minfer.Quants.Proofs.Packing

namespace Minfer.Quants

open Minfer.Lib

-- ============================== ranges

variable {z : Int} {q8b w : Reg}

theorem toNat_asU8 (hz : 0 ≤ z) (hlt : z < 256) :
    ((asU8 z).toNat : Int) = z := by
  rw [asU8, UInt8.toNat_ofNat']
  omega

theorem clampI32_mem {low high : Int} (h : low ≤ high) :
    low ≤ clampI32 z low high ∧ clampI32 z low high ≤ high := by
  rw [clampI32]
  omega

theorem toNat_clamped {nmax : Int} (h : 0 ≤ nmax) (hlt : nmax < 256) :
    ((asU8 (clampI32 z 0 nmax)).toNat : Int) ≤ nmax := by
  obtain ⟨hlow, hhigh⟩ := clampI32_mem (z := z) h
  rw [toNat_asU8 hlow (by omega)]
  exact hhigh

section Ranges

variable {F : Type} {fa : FloatArith F} {contract : FmaContract}
variable {n : Nat} {nmax : Int} {rmin : F} {x : Nat → F}

/-- A candidate that replaces a fit has clamped quants of its own. -/
theorem qkx2Candidate_le {weights : Nat → F}
    {ext : Extent F} {rdelta : F} {fit : Fit F} {is i : Nat}
    (h : 0 ≤ nmax) (hlt : nmax < 256) (hfit : ((fit.l i).toNat : Int) ≤ nmax) :
    (((qkx2Candidate fa contract n nmax x weights ext rmin rdelta fit is).l
      i).toNat : Int) ≤ nmax := by
  unfold qkx2Candidate
  apply iteInduction (motive := fun fit : Fit F => ((fit.l i).toNat : Int) ≤ nmax)
  · intro _
    apply iteInduction (motive := fun fit : Fit F => ((fit.l i).toNat : Int) ≤ nmax)
    · exact fun _ => toNat_clamped h hlt
    · exact fun _ => hfit
  · exact fun _ => hfit

/-- The search keeps its quants clamped. -/
theorem makeQkx2Quants_le {weights : Nat → F} {rdelta : F} {nstep : Int}
    (h : 0 ≤ nmax) (hlt : nmax < 256) (i : Nat) :
    (((makeQkx2Quants fa contract n nmax x weights rmin rdelta nstep).2.2
      i).toNat : Int) ≤ nmax := by
  unfold makeQkx2Quants
  apply iteInduction (motive :=
    fun fit : F × F × (Nat → UInt8) => ((fit.2.2 i).toNat : Int) ≤ nmax)
  · exact fun _ => h
  · intro _
    dsimp only
    split
    · exact toNat_clamped h hlt
    · apply List.foldlRecOn (motive :=
        fun fit : Fit F => ((fit.l i).toNat : Int) ≤ nmax)
      · exact toNat_clamped h hlt
      · intro fit hfit is _
        exact qkx2Candidate_le h hlt hfit

/-- A code of `make_qx_quants`: a clamped quant, moved above zero. -/
theorem toNat_moved {z : Int} :
    (asU8 (clampI32 z (-32) (32 - 1) + 32)).toNat < 64 := by
  have hclamped : -32 ≤ clampI32 z (-32) (32 - 1)
    ∧ clampI32 z (-32) (32 - 1) ≤ 32 - 1 := clampI32_mem (by decide)
  have hmoved :=
    toNat_asU8 (z := clampI32 z (-32) (32 - 1) + 32) (by omega) (by omega)
  omega

theorem makeQxQuants_lt {rmseType : Int} {qw : Option (Nat → F)} (i : Nat) :
    ((makeQxQuants fa contract n 32 x rmseType qw).2 i).toNat < 64 := by
  unfold makeQxQuants
  dsimp only
  split
  · exact Nat.zero_lt_succ _
  · split
    · dsimp only
      rw [Int.add_comm]
      exact toNat_moved
    · split
      · exact toNat_moved
      · apply List.foldlRecOn (motive := fun fit : ScaleFit F => (fit.l i).toNat < 64)
        · exact toNat_moved
        · intro fit hfit is _
          apply iteInduction (motive := fun fit : ScaleFit F => (fit.l i).toNat < 64)
          · exact fun _ => hfit
          · intro _
            apply iteInduction (motive :=
              fun fit : ScaleFit F => (fit.l i).toNat < 64)
            · exact fun _ => toNat_moved
            · exact fun _ => hfit

theorem toNat_min_63 (b : UInt8) : (min b 63).toNat < 64 := by
  change (if b ≤ 63 then b else 63).toNat < 64
  split
  · exact Nat.lt_succ_of_le (UInt8.le_iff_toNat_le.1 ‹b ≤ 63›)
  · decide

/-- The scales and the mins of a superblock have six bits. -/
theorem q4kQ5kCommon_six (x : Nat → F) (nmax : Int) (rmin : F) (nstep : Int)
    (j : Nat) :
    ((q4kQ5kCommon fa contract x nmax rmin nstep).ls j).toNat < 64
      ∧ ((q4kQ5kCommon fa contract x nmax rmin nstep).lm j).toNat < 64 :=
  ⟨toNat_min_63 _, toNat_min_63 _⟩

/-- The quants of a superblock with scales and mins are what the clamps let
through. -/
theorem q4kQ5kCommon_le {nstep : Int} (h : 0 ≤ nmax) (hlt : nmax < 256)
    (i : Nat) : (((q4kQ5kCommon fa contract x nmax rmin nstep).l i).toNat :
      Int) ≤ nmax := by
  unfold q4kQ5kCommon
  apply iteInduction (motive := fun l : UInt8 => (l.toNat : Int) ≤ nmax)
  · exact fun _ => makeQkx2Quants_le h hlt _
  · exact fun _ => toNat_clamped h hlt

theorem q4KChosen_lt (x : Nat → F) (i : Nat) :
    ((q4KChosen fa contract x).l i).toNat < 16 := by
  have hle : (((q4KChosen fa contract x).l i).toNat : Int) ≤ 15 :=
    q4kQ5kCommon_le (by decide) (by decide) i
  omega

theorem q5KChosen_lt (x : Nat → F) (i : Nat) :
    ((q5KChosen fa contract x).l i).toNat < 32 := by
  have hle : (((q5KChosen fa contract x).l i).toNat : Int) ≤ 31 :=
    q4kQ5kCommon_le (by decide) (by decide) i
  omega

/-- The codes of a `Q6_K` superblock have six bits. -/
theorem q6KChosen_lt (x : Nat → F) (i : Nat) :
    ((q6KChosen fa contract x).l i).toNat < 64 := by
  unfold q6KChosen
  dsimp only
  split
  · exact Nat.zero_lt_succ _
  · dsimp only
    split
    · exact makeQxQuants_lt _
    · exact toNat_moved

end Ranges

-- ================================ sums

theorem sum_two (f : Nat → Int) (k : Nat) : ∑ r ∈ Finset.range 2, f
    (2 * k + r) = f (2 * k) + f (2 * k + 1) := by
  rw [Finset.sum_range_succ, Finset.sum_range_one, Nat.add_zero]

/-- The sums of a superblock with scales and mins, over its elements. -/
theorem superSum_eq {lo hi : Nat → Nat → Int} (scale quant : Nat → Int)
    (hscale : ∀ j < 8, ((unpackScale (loadAt w 4) j).toNat : Int) = scale j)
    (hlo : ∀ j < 4, ∀ l < 32, lo j l = quant (64 * j + l))
    (hhi : ∀ j < 4, ∀ l < 32, hi j l = quant (64 * j + 32 + l)) :
    superSum w q8b lo hi = ∑ e ∈ Finset.range 256,
      scale (e / 32) * quant e * i8 (q8b (2 + e)) := by
  have hsub : ∀ j, ∑ l ∈ Finset.range 32,
      scale ((32 * j + l) / 32) * quant (32 * j + l) * i8
      (q8b (2 + (32 * j + l)))
      = scale j * ∑ l ∈ Finset.range 32,
        quant (32 * j + l) * i8 (q8b (2 + (32 * j + l))) := by
    intro j
    rw [Finset.mul_sum]
    apply Finset.sum_congr rfl
    intro l hl
    have hl := Finset.mem_range.1 hl
    rw [show (32 * j + l) / 32 = j by omega, mul_assoc]
  rw [← sum_runs _ 32 8, Finset.sum_congr rfl fun j _ => hsub j,
    ← sum_runs _ 2 4, superSum, subSums, subSums, ← Finset.sum_add_distrib]
  apply Finset.sum_congr rfl
  intro j hj
  have hj := Finset.mem_range.1 hj
  rw [sum_two fun j => scale j * ∑ l ∈ Finset.range 32,
    quant (32 * j + l) * i8 (q8b (2 + (32 * j + l))),
    hscale _ (by omega), hscale _ (by omega)]
  congr 2
  · apply Finset.sum_congr rfl
    intro l hl
    rw [hlo j hj l (Finset.mem_range.1 hl), signed, loadAt,
      show 32 * (2 * j) + l = 64 * j + l by omega, Nat.add_assoc]
  · apply Finset.sum_congr rfl
    intro l hl
    rw [hhi j hj l (Finset.mem_range.1 hl), signed, loadAt,
      show 32 * (2 * j + 1) + l = 64 * j + 32 + l by omega,
      show 2 + 64 * j + 32 + l = 2 + (64 * j + 32 + l) by omega]

/-- The sums of activations that a `Q8_K` superblock stores, by groups of 16. -/

def Stored (q8b : Reg) : Prop :=
  ∀ g < 16, i16At q8b (274 + 2 * g) = ∑ e ∈ Finset.range 16,
    i8 (q8b (2 + (16 * g + e)))

/-- The min term, over the elements. -/
theorem minSum_eq {mins : Nat → Int}
    (hmins : ∀ j < 8, ((unpackMin (loadAt w 4) j).toNat : Int) = mins j)
    (h : Stored q8b) : minSum w q8b = ∑ e ∈ Finset.range 256, mins
    (e / 32) * i8 (q8b (2 + e)) := by
  rw [← sum_runs _ 32 8, minSum]
  apply Finset.sum_congr rfl
  intro s hs
  have hs := Finset.mem_range.1 hs
  have hsub : ∑ l ∈ Finset.range 32,
      mins ((32 * s + l) / 32) * i8 (q8b (2 + (32 * s + l)))
      = mins s * ∑ l ∈ Finset.range 32, i8 (q8b (2 + (32 * s + l))) := by
    rw [Finset.mul_sum]
    apply Finset.sum_congr rfl
    intro l hl
    have hl := Finset.mem_range.1 hl
    rw [show (32 * s + l) / 32 = s by omega]
  have hhalves : ∑ l ∈ Finset.range 32, i8 (q8b (2 + (32 * s + l)))
      = ∑ e ∈ Finset.range 16, i8 (q8b (2 + (16 * (2 * s) + e)))
        + ∑ e ∈ Finset.range 16, i8 (q8b (2 + (16 * (2 * s + 1) + e))) := by
    rw [← sum_runs _ 16 2, Finset.sum_range_succ, Finset.sum_range_one]
    congr 1
    · apply Finset.sum_congr rfl
      intro e _
      rw [show 32 * s + (16 * 0 + e) = 16 * (2 * s) + e by omega]
    · apply Finset.sum_congr rfl
      intro e _
      rw [show 32 * s + (16 * 1 + e) = 16 * (2 * s + 1) + e by omega]
  rw [hsub, hhalves, hmins s hs, h (2 * s) (by omega), h (2 * s + 1) (by omega)]

/-- The lanes of a `Q6_K` superblock, over its elements: the offset of 32 that
they take off by groups is each code's own. -/
theorem sum_laneSum (h : Stored q8b) :
    ∑ k ∈ Finset.range 8, laneSum w q8b k
      = ∑ e ∈ Finset.range 256,
        q6KScale w (e / 16) * (codes w e - 32) * i8 (q8b (2 + e)) := by
  have hchunks : ∑ k ∈ Finset.range 8, ∑ c ∈ Finset.range 8, chunk w q8b c k
      = ∑ e ∈ Finset.range 256,
        q6KScale w (e / 16) * (codes w e * i8 (q8b (2 + e))) := by
    rw [Finset.sum_comm, ← sum_runs _ 4 64, ← sum_runs _ 8 8]
    apply Finset.sum_congr rfl
    intro c _
    apply Finset.sum_congr rfl
    intro k _
    rw [chunk, quad, Finset.mul_sum]
    apply Finset.sum_congr rfl
    intro e he
    have he := Finset.mem_range.1 he
    rw [show (4 * (8 * c + k) + e) / 16 = 2 * c + k / 4 by omega]
    rfl
  have hoffsets : ∑ k ∈ Finset.range 8, offset w q8b k
      = ∑ e ∈ Finset.range 256, q6KScale w (e / 16) * (32 * i8 (q8b (2 + e))) := by
    rw [← sum_runs _ 16 16, ← sum_runs _ 2 8]
    apply Finset.sum_congr rfl
    intro k hk
    have hk := Finset.mem_range.1 hk
    have hgroup : ∀ g < 16, ∑ e ∈ Finset.range 16,
        q6KScale w ((16 * g + e) / 16) * (32 * i8 (q8b (2 + (16 * g + e))))
        = 32 * (q6KScale w g * i16At q8b (274 + 2 * g)) := by
      intro g hg
      rw [h g hg, Finset.mul_sum, Finset.mul_sum]
      apply Finset.sum_congr rfl
      intro e he
      have he := Finset.mem_range.1 he
      rw [show (16 * g + e) / 16 = g by omega, mul_left_comm]
    rw [sum_two fun g => ∑ e ∈ Finset.range 16,
      q6KScale w ((16 * g + e) / 16) * (32 * i8 (q8b (2 + (16 * g + e)))),
      hgroup _ (by omega), hgroup _ (by omega), ← mul_add, offset,
        show 274 + 2 * (2 * k) = 274 + 4 * k by omega,
      show 274 + 2 * (2 * k + 1) = 274 + 4 * k + 2 by omega]
  have hlanes : ∑ k ∈ Finset.range 8, laneSum w q8b k
      = ∑ k ∈ Finset.range 8, ∑ c ∈ Finset.range 8,
        chunk w q8b c k - ∑ k ∈ Finset.range 8, offset w q8b k :=
    Finset.sum_sub_distrib _ _
  rw [hlanes, hchunks, hoffsets, ← Finset.sum_sub_distrib]
  apply Finset.sum_congr rfl
  intro e _
  rw [← mul_sub, ← sub_mul, mul_assoc]

-- ========================= activations

theorem foldl_add_range (f : Nat → Int) (n : Nat) :
    (List.range n).foldl (fun sum e => sum + f e) 0 = ∑ e ∈ Finset.range n, f e := by
  induction n with
  | zero => rfl
  | succ n ih =>
      rw [List.range_succ, List.foldl_append, List.foldl_cons, List.foldl_nil,
        ih, Finset.sum_range_succ]

/-- An `i16` at a place, as it was written. -/
theorem i16At_leBytes {b : Reg} {off : Nat}
    (h0 : b off = (leBytesI16 z).getD 0 0)
    (h1 : b (off + 1) = (leBytesI16 z).getD 1 0) (hz : |z| ≤ 32767) :
    i16At b off = z := by
  have hread : u16 (loadAt b off) 0 = (z % 65536).toNat := by
    have hlow : (b off).toNat = (z % 65536).toNat % 256 := by
      rw [h0]
      exact UInt8.toNat_ofNat'
    have hhigh : (b (off + 1)).toNat = (z % 65536).toNat / 256 % 256 := by
      rw [h1]
      exact UInt8.toNat_ofNat'
    rw [u16, loadAt, loadAt, Nat.mul_zero, Nat.zero_add, Nat.add_zero, hlow, hhigh]
    omega
  rw [abs_le] at hz
  rw [i16At, i16, hread]
  split <;> omega

section Blocks

variable {F : Type} {fa : FloatArith F} {contract : FmaContract}

theorem length_q8KBlock (blk : Nat → F) : (q8KBlock fa blk).length = 306 := by
  rw [q8KBlock, List.length_append, List.length_append, List.length_append,
    List.length_map, List.length_range,
    List.length_replicate, length_flatMap_range (n := 2) fun _ => rfl]
  rfl

/-- What `quantize_row_q8_k_buf` writes of a superblock: quants, and their sums. -/

theorem q8KBlock_eq (fa : FloatArith F) (blk : Nat → F) : ∃ d q, q8KBlock fa blk
    = leBytes16 d ++ ((List.range 256).map q ++ (List.replicate 16 0
      ++ (List.range 16).flatMap fun g =>
        leBytesI16 (∑ e ∈ Finset.range 16, i8 (q (16 * g + e))))) := by
  have hsums : ∀ d q, leBytes16 d ++ (List.range 256).map q
      ++ List.replicate 16 0 ++ (List.range 16).flatMap (fun g =>
        leBytesI16 ((List.range 16).foldl (fun sum e => sum + i8 (q (16 * g + e))) 0))
      = leBytes16 d ++ ((List.range 256).map q ++ (List.replicate 16 0
        ++ (List.range 16).flatMap fun g =>
          leBytesI16 (∑ e ∈ Finset.range 16, i8 (q (16 * g + e))))) := by
    intro d q
    simp only [List.append_assoc, foldl_add_range]
  exact ⟨_, _, hsums _ _⟩

/-- The activation quantizer stores the sums of what it stores. -/
theorem stored_q8KBlock {blk : Nat → F} {q8b : Reg}
    (h : ∀ k < 306, q8b k = (q8KBlock fa blk).getD k 0) :
    Stored q8b := by
  intro g hg
  obtain ⟨d, q, hblock⟩ := q8KBlock_eq fa blk
  have hd : (leBytes16 d).length = 2 := rfl
  have hquant : ∀ j < 256, q8b (2 + j) = q j := by
    intro j hj
    rw [h _ (by omega), hblock, List.getD_append_right _ _ _ _ (by omega), hd,
      Nat.add_sub_cancel_left,
      List.getD_append _ _ _ _ (by simpa using hj), getD_map_range _ hj]
  have hsum : ∀ r < 2, q8b (274 + 2 * g + r)
      = (leBytesI16 (∑ e ∈ Finset.range 16, i8 (q (16 * g + e)))).getD r 0 := by
    intro r hr
    rw [h _ (by omega), hblock, List.getD_append_right _ _ _ _ (by omega),
      List.getD_append_right _ _ _ _ (by simp; omega),
        List.getD_append_right _ _ _ _ (by simp; omega), hd,
      List.length_map, List.length_range, List.length_replicate,
        show 274 + 2 * g + r - 2 - 256 - 16 = g * 2 + r by omega,
      getD_flatMap_range (n := 2) (fun _ => rfl) hg hr]
  have hbound : |∑ e ∈ Finset.range 16, i8 (q (16 * g + e))| ≤ 16 * 128 :=
    abs_sum_range_le 128 fun _ _ => abs_i8_le _
  refine (i16At_leBytes (hsum 0 (by decide)) (hsum 1 (by decide))
    (hbound.trans (by decide))).trans ?_
  apply Finset.sum_congr rfl
  intro e he
  have he := Finset.mem_range.1 he
  rw [hquant _ (by omega)]

/-- The superblocks of the activations, in their rows. -/
theorem stored_quantizeRowQ8KBuf (y : List F) (nt dim : Nat) {t s : Nat}
    (ht : t < nt) (hs : s < dim / 256) :
    Stored (load (quantizeRowQ8KBuf fa y nt dim) ((t * (dim / 256) + s) * q8KB)) := by
  have hrow : ∀ t, ((List.range (dim / 256)).flatMap fun s => q8KBlock fa fun j =>
      y.getD (t * dim + s * 256 + j) fa.zero).length = dim / 256 * 306 :=
    fun t => length_flatMap_range fun s => length_q8KBlock _
  have hblock : ∀ k < 306,
      load (quantizeRowQ8KBuf fa y nt dim) ((t * (dim / 256) + s) * q8KB) k
      = (q8KBlock fa fun j => y.getD (t * dim + s * 256 + j) fa.zero).getD k 0 := by
    intro k hk
    have hplace : s * 306 + k < dim / 256 * 306 := by
      have hmul := Nat.mul_le_mul_right 306 (show s + 1 ≤ dim / 256 from hs)
      rw [Nat.succ_mul] at hmul
      omega
    rw [load, q8KB, Nat.add_mul, Nat.mul_assoc, Nat.add_assoc, quantizeRowQ8KBuf,
      getD_flatMap_range (n := dim / 256 * 306) hrow ht hplace,
      getD_flatMap_range (n := 306) (fun _ => length_q8KBlock _) hs hk]
  exact stored_q8KBlock hblock

-- ============================= formats

/-- What a kernel reads of a superblock with scales and mins is what was chosen
for it. -/
structure ReadsMins (quant : Reg → Nat → UInt8)
    (total : Reg → Reg → Tracked Int) (w : Reg) (c : Chosen) : Prop where
  d : u16 (loadAt w 0) 0 = c.d.toNat
  dmin : u16 (loadAt w 2) 0 = c.dmin.toNat
  scale : ∀ j < 8, unpackScale (loadAt w 4) j = c.ls j
  min : ∀ j < 8, unpackMin (loadAt w 4) j = c.lm j
  quant : ∀ e < 256, quant w e = c.l e
  total : ∀ q8b, total w q8b
    = pure (∑ e ∈ Finset.range 256,
      ((c.ls (e / 32)).toNat : Int) * (c.l e).toNat * i8 (q8b (2 + e)))
  minTerm : ∀ q8b, Stored q8b → minTerm w q8b
    = pure (∑ e ∈ Finset.range 256, ((c.lm (e / 32)).toNat : Int) * i8 (q8b (2 + e)))

/-- What the kernel reads of a `Q6_K` superblock is what was chosen for it. -/
structure ReadsCodes (w : Reg) (c : Chosen6) : Prop where
  d : u16 (loadAt w 208) 0 = c.d.toNat
  scale : ∀ g < 16, q6KScale w g = i8 (c.sc g)
  code : ∀ e < 256, q6KCode w e = c.l e
  lanes : ∀ q8b, Stored q8b → ∃ lane, tabulate 8 (q6KLane w q8b) = pure lane
    ∧ ∑ k ∈ Finset.range 8, lane k
      = ∑ e ∈ Finset.range 256,
        i8 (c.sc (e / 16)) * ((c.l e).toNat - 32) * i8 (q8b (2 + e))

variable {c : Chosen} {w : Reg}

/-- A superblock with scales and mins is read back once its quants are, and its
total is over them. -/
theorem readsMins_of {quant : Reg → Nat → UInt8}
    {total : Reg → Reg → Tracked Int}
    {rest : List UInt8} (hw : ∀ k < 16, w k = (minsHead c ++ rest).getD k 0)
    (hsix : ∀ j, (c.ls j).toNat < 64 ∧ (c.lm j).toNat < 64)
    (hquant : ∀ e < 256, quant w e = c.l e)
    (htotal : ∀ q8b, ∃ lo hi, total w q8b = pure (superSum w q8b lo hi)
      ∧ (∀ j < 4, ∀ l < 32, lo j l = (quant w (64 * j + l)).toNat)
      ∧ ∀ j < 4, ∀ l < 32, hi j l = (quant w (64 * j + 32 + l)).toNat) :
        ReadsMins quant total w c := by
  have hpacked : ∀ k < 12, loadAt w 4 k = (packScales c.ls c.lm).getD k 0 := by
    intro k hk
    rw [loadAt, hw _ (by omega), getD_minsHead c hk]
  have hunpack : ∀ j < 8, unpackScale (loadAt w 4) j = c.ls j
      ∧ unpackMin (loadAt w 4) j = c.lm j := fun j hj =>
    unpack_packScales (fun j => (hsix j).1) (fun j => (hsix j).2) hpacked hj
  refine ⟨?_, ?_, fun j hj => (hunpack j hj).1, fun j hj => (hunpack j hj).2,
    hquant, ?_, ?_⟩
  · exact u16_leBytes16 (hw 0 (by decide)) (hw 1 (by decide))
  · exact u16_leBytes16 (hw 2 (by decide)) (hw 3 (by decide))
  · intro q8b
    obtain ⟨lo, hi, hsum, hlo, hhi⟩ := htotal q8b
    rw [hsum, superSum_eq (fun j => (c.ls j).toNat) (fun e => (c.l e).toNat)
      (fun j hj => by rw [(hunpack j hj).1])
        (fun j hj l hl => by rw [hlo j hj l hl, hquant _ (by omega)])
      fun j hj l hl => by rw [hhi j hj l hl, hquant _ (by omega)]]
  · intro q8b hstored
    rw [minTerm_eq, minSum_eq (fun j hj => by rw [(hunpack j hj).2]) hstored]

theorem reads_q4KBlock (hsix : ∀ j, (c.ls j).toNat < 64 ∧ (c.lm j).toNat < 64)
    (hl : ∀ i, (c.l i).toNat < 16)
    (hw : ∀ k < 144, w k = (q4KBlock c).getD k 0) :
    ReadsMins q4KQuant q4KTotal w c := by
  apply readsMins_of (fun k hk => hw k (by omega)) hsix fun e he =>
    q4KQuant_block hl hw he
  intro q8b
  refine ⟨_, _, q4KTotal_sum w q8b, ?_, ?_⟩
  · intro j hj l hl
    rw [q4KQuant, if_pos (by omega),
      show 16 + 32 * ((64 * j + l) / 64) + (64 * j + l) % 32
        = 16 + 32 * j + l by omega]
  · intro j hj l hl
    rw [q4KQuant, if_neg (by omega),
      show 16 + 32 * ((64 * j + 32 + l) / 64) + (64 * j + 32 + l) % 32
        = 16 + 32 * j + l by omega]

theorem reads_q5KBlock (hsix : ∀ j, (c.ls j).toNat < 64 ∧ (c.lm j).toNat < 64)
    (hl : ∀ i, (c.l i).toNat < 32) (hw : ∀ k < 176, w k = (q5KBlock c).getD k 0) :
    ReadsMins (fun w e => q5KQuant w (e / 32) (e % 32)) q5KTotal w c := by
  have hw16 : ∀ k < 16,
      w k = (minsHead c
        ++ ((List.range 32).map (q5KHigh c.l)
          ++ (List.range 4).flatMap fun g =>
      (List.range 32).map fun j =>
          lowFour (c.l (64 * g + j))
          ||| (lowFour (c.l (64 * g + j + 32)) <<< 4))).getD k 0 := by
    intro k hk
    rw [hw k (by omega), q5KBlock, List.append_assoc]
  apply readsMins_of hw16 hsix
  · intro e he
    rw [q5KQuant_block hl hw (by omega) (Nat.mod_lt _ (by decide)), Nat.div_add_mod]
  · intro q8b
    refine ⟨_, _, q5KTotal_sum w q8b, ?_, ?_⟩
    · intro j hj l hl
      rw [show (64 * j + l) / 32 = 2 * j by omega,
        show (64 * j + l) % 32 = l by omega]
    · intro j hj l hl
      rw [show (64 * j + 32 + l) / 32 = 2 * j + 1 by omega,
        show (64 * j + 32 + l) % 32 = l by omega]

theorem reads_q6KBlock {c : Chosen6} (hl : ∀ i, (c.l i).toNat < 64)
    (hw : ∀ k < 210, w k = (q6KBlock c).getD k 0) : ReadsCodes w c := by
  have hscale : ∀ g < 16, q6KScale w g = i8 (c.sc g) :=
    fun g hg => q6KScale_block hw hg
  have hcode : ∀ e < 256, q6KCode w e = c.l e := fun e he => q6KCode_block hl hw he
  have hd : ∀ r < 2, w (208 + r) = (leBytes16 c.d).getD r 0 := by
    intro r hr
    rw [hw _ (by omega), getD_q6KBlock_d c hr]
  refine ⟨u16_leBytes16 (hd 0 (by decide)) (hd 1 (by decide)), hscale, hcode, ?_⟩
  intro q8b hstored
  obtain ⟨lane, hlane, hsums⟩ := tabulate_lanes w q8b
  refine ⟨lane, hlane, ?_⟩
  rw [Finset.sum_congr rfl fun k hk => hsums k (Finset.mem_range.1 hk),
    sum_laneSum hstored]
  apply Finset.sum_congr rfl
  intro e he
  have he := Finset.mem_range.1 he
  rw [hscale _ (by omega), codes, hcode e he]

/-- What the encoders store, the kernels read: the integers chosen for each
sub-block and each element, and over activations with the sums the activation
quantizer stores, the sums of their products. -/
theorem encoders_read_back (fa : FloatArith F) (contract : FmaContract)
    (x y : List F) (nt dim : Nat) :
    (∀ b < x.length / 256,
        ReadsMins q4KQuant q4KTotal
          (load (quantizeQ4K fa contract x) (b * q4KB))
        (q4KChosen fa contract (superblock fa x b)))
      ∧ (∀ b < x.length / 256,
        ReadsMins (fun w e => q5KQuant w (e / 32) (e % 32)) q5KTotal
        (load (quantizeQ5K fa contract x) (b * q5KB))
          (q5KChosen fa contract (superblock fa x b)))
      ∧ (∀ b < x.length / 256,
        ReadsCodes (load (quantizeQ6K fa contract x) (b * q6KB))
        (q6KChosen fa contract (superblock fa x b)))
      ∧ ∀ t < nt, ∀ s < dim / 256,
        Stored (load (quantizeRowQ8KBuf fa y nt dim)
          ((t * (dim / 256) + s) * q8KB)) := by
  refine ⟨?_, ?_, ?_, fun t ht s hs => stored_quantizeRowQ8KBuf y nt dim ht hs⟩
  · intro b hb
    apply reads_q4KBlock (q4kQ5kCommon_six _ _ _ _) (q4KChosen_lt _)
    exact fun k hk => getD_flatMap_range (n := 144) (fun _ => length_q4KBlock _) hb hk
  · intro b hb
    apply reads_q5KBlock (q4kQ5kCommon_six _ _ _ _) (q5KChosen_lt _)
    exact fun k hk => getD_flatMap_range (n := 176) (fun _ => length_q5KBlock _) hb hk
  · intro b hb
    apply reads_q6KBlock (q6KChosen_lt _)
    exact fun k hk => getD_flatMap_range (n := 210) (fun _ => length_q6KBlock _) hb hk

end Blocks

end Minfer.Quants
