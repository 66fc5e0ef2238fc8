/-
A file the writer produced, read back: the header, the padding, and each
payload at the offset its record names (`gguf.rs`).

The writer lays the payloads out one after another, each padded to the
alignment, and gives every record the sum of those before it. The parser
checks nothing of that sum but that it fits; that it is where the bytes are
is the invariant of the writing loop (`Provided`, `payload_at`). The header is
read piece by piece, each reader leaving the rest of the bytes to the next
(`Reads.continue`).
-/
import Minfer.Gguf.Proofs.Encode

namespace Minfer.Gguf

open Minfer.Lib

-- ============================= padding

variable {e alignment : Nat} {data : Nat → List UInt8} {kv : List GgufKv}
  {specs : List TensorSpec}

/-- Clearing the low bits rounds down. -/
theorem and_high_mask {a : Nat} (ha : a < 2 ^ 64) (he : e ≤ 64) :
    a &&& (2 ^ 64 - 1 - (2 ^ e - 1)) = a / 2 ^ e * 2 ^ e := by
  have hle : 2 ^ e ≤ 2 ^ 64 := Nat.pow_le_pow_right (by decide) he
  have hpos : 0 < 2 ^ e := Nat.two_pow_pos e
  have hmask : 2 ^ 64 - 1 - (2 ^ e - 1) = 2 ^ 64 - (2 ^ e - 1 + 1) := by omega
  apply Nat.eq_of_testBit_eq
  intro i
  rw [hmask, Nat.testBit_and, Nat.testBit_two_pow_sub_succ (by omega),
    Nat.testBit_two_pow_sub_one,
    Nat.testBit_mul_two_pow, Nat.testBit_div_two_pow]
  by_cases hi : i < e
  · simp [hi]
  · have hi' : e ≤ i := Nat.le_of_not_lt hi
    by_cases h64 : i < 64
    · simp [hi, hi', h64]
    · have hbit : a.testBit i = false := by
        apply Nat.testBit_lt_two_pow
        exact Nat.lt_of_lt_of_le ha (Nat.pow_le_pow_right (by decide) (by omega))
      simp [hi', hbit]

/-- `ggml_pad` rounds up. -/
theorem ggmlPad_eq {x : Nat} (he : e ≤ 63) (hx : x < 2 ^ 63) :
    ggmlPad x (2 ^ e) = (x + 2 ^ e - 1) / 2 ^ e * 2 ^ e := by
  have hle : 2 ^ e ≤ 2 ^ 63 := Nat.pow_le_pow_right (by decide) he
  have hlt : x + 2 ^ e - 1 < 2 ^ 64 := by omega
  rw [ggmlPad, wrap64_of_lt hlt]
  exact and_high_mask hlt (by omega)

theorem le_ggmlPad {x : Nat} (he : e ≤ 63) (hx : x < 2 ^ 63) :
    x ≤ ggmlPad x (2 ^ e) := by
  have hpos : 0 < 2 ^ e := Nat.two_pow_pos e
  have hdiv := Nat.div_add_mod (x + 2 ^ e - 1) (2 ^ e)
  have hmod := Nat.mod_lt (x + 2 ^ e - 1) hpos
  rw [ggmlPad_eq he hx, Nat.mul_comm]
  omega

theorem ggmlPad_lt {x : Nat} (he : e ≤ 63) (hx : x < 2 ^ 63) :
    ggmlPad x (2 ^ e) < x + 2 ^ e := by
  have hpos : 0 < 2 ^ e := Nat.two_pow_pos e
  have hle := Nat.div_mul_le_self (x + 2 ^ e - 1) (2 ^ e)
  rw [ggmlPad_eq he hx]
  omega

theorem power_and_pred (e : Nat) : 2 ^ e &&& (2 ^ e - 1) = 0 := by
  rw [Nat.and_two_pow_sub_one_eq_mod, Nat.mod_self]

-- ======================== data section

/-- The padded size of a tensor. -/
def paddedBytes (alignment : Nat) (s : TensorSpec) : Nat := ggmlPad s.nbytes alignment

/-- The data section: each payload and its padding. -/
def dataSection (alignment : Nat) (data : Nat → List UInt8)
    (l : List (Nat × TensorSpec)) :
    List UInt8 :=
  l.flatMap fun p =>
    data p.1 ++ List.replicate (paddedBytes alignment p.2 - p.2.nbytes) 0

/-- The providers have the declared sizes, and padding does not shrink
them. -/
structure Provided (alignment : Nat) (data : Nat → List UInt8)
    (l : List (Nat × TensorSpec)) :
    Prop where
  length : ∀ p ∈ l, (data p.1).length = p.2.nbytes
  padded : ∀ p ∈ l, p.2.nbytes ≤ paddedBytes alignment p.2

namespace Provided

variable {alignment : Nat} {data : Nat → List UInt8} {p : Nat × TensorSpec}
  {l : List (Nat × TensorSpec)}

theorem tail (h : Provided alignment data (p :: l)) : Provided alignment data l :=
  ⟨fun q hq => h.length q (List.mem_cons_of_mem _ hq),
    fun q hq => h.padded q (List.mem_cons_of_mem _ hq)⟩

/-- One tensor takes its padded size. -/
theorem length_head (h : Provided alignment data (p :: l)) :
    (data p.1 ++ List.replicate (paddedBytes alignment p.2 - p.2.nbytes)
      (0 : UInt8)).length
      = paddedBytes alignment p.2 := by
  have hpad := h.padded p List.mem_cons_self
  rw [List.length_append, List.length_replicate, h.length p List.mem_cons_self]
  omega

theorem length_dataSection (h : Provided alignment data l) :
    (dataSection alignment data l).length
      = (l.map fun p => paddedBytes alignment p.2).sum := by
  induction l with
  | nil => rfl
  | cons p l ih =>
      rw [dataSection, List.flatMap_cons, List.length_append, h.length_head,
        List.map_cons, List.sum_cons, ← ih h.tail]
      rfl

/-- The payload loop appends the data section. -/
theorem writeTensors_eq (h : Provided alignment data l) {w : GgufWriter}
    (hw : w.alignment = alignment) :
    GgufWriter.writeTensors data w l = .ok { w with
      out := w.out ++ dataSection alignment data l
      next := w.next + l.length } := by
  induction l generalizing w with
  | nil =>
      rw [GgufWriter.writeTensors, dataSection, List.flatMap_nil, List.append_nil]
      rfl
  | cons p l ih =>
      have hlen := h.length p List.mem_cons_self
      obtain ⟨i, spec⟩ := p
      rw [GgufWriter.writeTensors, GgufWriter.writeTensorData,
        if_neg (by simpa using hlen)]
      show GgufWriter.writeTensors data _ l = _
      rw [ih h.tail (by exact hw)]
      subst hw
      simp only [dataSection, paddedBytes, List.flatMap_cons,
        List.append_assoc, List.length_cons,
        Except.ok.injEq, GgufWriter.mk.injEq, true_and]
      omega

end Provided

/-- The tensor at each offset of the index, and its payload there. -/
theorem payload_at {l : List (Nat × TensorSpec)}
    (h : Provided alignment data l) {cursor : Nat}
    (hsum : cursor + (l.map fun p => paddedBytes alignment p.2).sum < 2 ^ 64)
    {i : Nat} {p : Nat × TensorSpec} (hp : l[i]? = some p) :
    ∃ off, (offsetsFrom alignment cursor (l.map (·.2)))[i]? = some off ∧ cursor ≤ off
      ∧ off + paddedBytes alignment p.2
        ≤ cursor + (l.map fun p => paddedBytes alignment p.2).sum
      ∧ ((dataSection alignment data l).drop (off - cursor)).take p.2.nbytes
        = data p.1 := by
  induction l generalizing cursor i with
  | nil => cases hp
  | cons q l ih =>
      rw [List.map_cons, List.sum_cons] at hsum
      have hhead := h.length_head
      simp only [List.map_cons, offsetsFrom, List.sum_cons]
      rw [show dataSection alignment data (q :: l) = (data q.1
        ++ List.replicate (paddedBytes alignment q.2 - q.2.nbytes) 0)
          ++ dataSection alignment data l from List.flatMap_cons]
      cases i with
      | zero =>
          obtain rfl := Option.some.inj hp
          refine ⟨cursor, rfl, Nat.le_refl _, by omega, ?_⟩
          rw [Nat.sub_self, List.drop_zero, List.append_assoc]
          exact List.take_left' (h.length q List.mem_cons_self)
      | succ i =>
          have hwrap : wrap64 (cursor + ggmlPad q.2.nbytes alignment)
              = cursor + paddedBytes alignment q.2 :=
            wrap64_of_lt (show cursor + paddedBytes alignment q.2 < 2 ^ 64 by omega)
          rw [hwrap]
          obtain ⟨off, hoff, hle, hend, hdata⟩ := @ih h.tail
            (cursor + paddedBytes alignment q.2) (by omega) i hp
          refine ⟨off, hoff, by omega, by omega, ?_⟩
          have hdrop : off - cursor = paddedBytes alignment q.2
              + (off - (cursor + paddedBytes alignment q.2)) := by omega
          rw [hdrop, ← List.drop_drop, List.drop_left' hhead]
          exact hdata

theorem length_offsetsFrom (alignment cursor : Nat) (specs : List TensorSpec) :
    (offsetsFrom alignment cursor specs).length = specs.length := by
  induction specs generalizing cursor with
  | nil => rfl
  | cons s specs ih => rw [offsetsFrom, List.length_cons, ih, List.length_cons]

theorem dataSectionSize_of_le {limit : Nat} (hlimit : limit < 2 ^ 64)
    {infos : List GgufTensorInfo}
    (h : ∀ ti ∈ infos, ti.offset + ti.ggmlNbytes ≤ limit)
    (size : Nat) : ∃ out, dataSectionSize limit infos size = .ok out := by
  induction infos generalizing size with
  | nil => exact ⟨size, rfl⟩
  | cons ti infos ih =>
      have hti := h ti List.mem_cons_self
      rw [dataSectionSize, if_neg (by unfold u64Max; omega), if_neg (by omega)]
      exact ih (fun t ht => h t (List.mem_cons_of_mem _ ht)) _

-- ============================== header

namespace Parse

variable {α β : Type}

/-- A reader over given bytes leaves the rest of a parse at their end. -/
theorem Reads.continue {x : Parse α} {f : α → Parse β} {bs : List UInt8}
    {a : α} (hx : Reads x bs a) (before after : List UInt8) :
    (x >>= f) ⟨before ++ (bs ++ after), before.length⟩
      = f a ⟨(before ++ bs) ++ after, (before ++ bs).length⟩ := by
  rw [bind_of_ok (hx.run before after), List.append_assoc, List.length_append]

/-- A reader that takes no bytes. -/
theorem Reads.continue_nil {x : Parse α} {f : α → Parse β} {a : α}
    (hx : Reads x [] a) (before after : List UInt8) :
    (x >>= f) ⟨before ++ after, before.length⟩
      = f a ⟨before ++ after, before.length⟩ :=
  bind_of_ok (hx.run before after)

theorem reads_lift {x : Except Stop α} {a : α} (h : x = .ok a) :
    Reads (StateT.lift x : Parse α) [] a := by
  subst h
  exact ⟨fun _ _ => rfl⟩

/-- The index is read back, in order. -/
theorem reads_readInfos {specs : List TensorSpec} {offs : List Nat}
    (hlen : offs.length = specs.length) (hv : ∀ s ∈ specs, s.Valid)
    (hs : ∀ s ∈ specs, ∃ n0 n1 n2 n3, s.Shaped n0 n1 n2 n3)
    (hoff : ∀ off ∈ offs, off < 2 ^ 64) {seen : List GgufTensorInfo}
    (hnodup : (seen.map GgufTensorInfo.name ++ specs.map TensorSpec.name).Nodup) :
    Reads (readInfos specs.length seen) (encodeInfos specs offs)
      (seen ++ (specs.zip offs).map fun p => infoOf p.1 p.2) := by
  induction specs generalizing offs seen with
  | nil =>
      simp only [List.zip_nil_left, List.map_nil, List.append_nil]
      exact Reads.pure seen
  | cons s specs ih =>
      match offs, hlen with
      | off :: offs, hlen =>
          obtain ⟨n0, n1, n2, n3, hshape⟩ := hs s List.mem_cons_self
          have hfresh : ∀ info ∈ seen, info.name ≠ s.name := by
            rw [List.nodup_append] at hnodup
            intro info hi
            exact hnodup.2.2 _ (List.mem_map_of_mem hi) _
              (List.mem_map_of_mem List.mem_cons_self)
          have hnodup' : ((seen ++ [infoOf s off]).map GgufTensorInfo.name
              ++ specs.map TensorSpec.name).Nodup := by
            rw [List.map_append, List.append_assoc]
            exact hnodup
          have hrest := @ih offs (by simpa using hlen)
            (fun t ht => hv t (List.mem_cons_of_mem _ ht))
            (fun t ht => hs t (List.mem_cons_of_mem _ ht))
            (fun o ho => hoff o (List.mem_cons_of_mem _ ho))
              (seen ++ [infoOf s off]) hnodup'
          rw [List.append_assoc] at hrest
          rw [encodeInfos, List.zip_cons_cons, List.flatMap_cons, List.map_cons]
          exact (reads_readInfo (hv s List.mem_cons_self) hshape
            (hoff off List.mem_cons_self)
            hfresh).bind hrest

/-- Magic, version and counts. -/
theorem reads_readHeader {nTensors nKv : Nat}
    (ht : nTensors ≤ u64Max / sizeOfTensorInfo)
    (hk : nKv ≤ u64Max / sizeOfKv) :
    Reads readHeader (ggufMagic ++ (leBytes 4 ggufVersion ++ (leBytes 8 nTensors
      ++ leBytes 8 nKv))) (ggufVersion, nTensors, nKv) := by
  have ht' : nTensors < 2 ^ 63 := Nat.lt_of_le_of_lt ht (by decide)
  have hk' : nKv < 2 ^ 63 := Nat.lt_of_le_of_lt hk (by decide)
  have hmagic : Reads (readVec 1 4) ggufMagic ggufMagic :=
    reads_readVec (by decide) (by decide) rfl
  refine hmagic.bind (Reads.ensure rfl ?_)
  refine (reads_readNat 4 (by decide)).bind ?_
  refine Reads.ensure (by decide) (Reads.ensure (by decide) (Reads.ensure (by decide)
    (Reads.ensure (by decide) ?_)))
  refine (reads_readInt8_count ht').bind (Reads.ensure ⟨by omega, by omega⟩ ?_)
  have hr := (reads_readInt8_count hk').bind (f := fun nKv : Int => do
    ensure .refused (0 ≤ nKv ∧ nKv ≤ (u64Max / sizeOfKv : Nat))
    return (ggufVersion, Int.toNat nTensors, nKv.toNat))
    (Reads.ensure ⟨by omega, by omega⟩ (Reads.pure _))
  rwa [List.append_nil] at hr

end Parse

-- =========================== alignment

/-- The metadata declares the alignment: by default 32, or as a `u32`. -/
def DeclaresAlignment (kv : List GgufKv) (alignment : Nat) : Prop :=
  (∀ p ∈ kv, p.key ≠ keyGeneralAlignment) ∧ alignment = ggufDefaultAlignment
    ∨ alignment < 2 ^ 32 ∧ GgufKv.newU32 keyGeneralAlignment alignment ∈ kv

theorem getValU32_newU32 {key : Text} {v : Nat} (hv : v < 2 ^ 32) :
    (GgufKv.newU32 key v).getValU32 = .ok v := by
  have hread : leNat ((leBytes 4 v).take 4) = v := by
    rw [List.take_of_length_le (Nat.le_of_eq (length_leBytes 4 v))]
    exact leNat_leBytes hv
  have hne : (GgufKv.newU32 key v).getNe = .ok 1 := by
    simp [GgufKv.getNe, GgufKv.newU32, GgufType.typeSize]
  rw [GgufKv.getValU32, hne]
  show (if _ then Except.ok (leNat ((leBytes 4 v).take 4)) else _) = _
  rw [if_pos ⟨rfl, rfl⟩, hread]

/-- A key that is there once is the one that is found. -/
theorem find_of_nodup (h : (kv.map GgufKv.key).Nodup)
    {p : GgufKv} (hp : p ∈ kv) : kv.find? (·.key = p.key) = some p := by
  induction kv with
  | nil => cases hp
  | cons q kv ih =>
      rw [List.map_cons, List.nodup_cons] at h
      rcases List.mem_cons.1 hp with rfl | hp
      · exact List.find?_cons_of_pos (by simp)
      · have hne : q.key ≠ p.key := fun heq => h.1 (heq ▸ List.mem_map_of_mem hp)
        rw [List.find?_cons_of_neg (by simpa using hne)]
        exact ih h.2 hp

theorem DeclaresAlignment.alignmentOf_eq
    (h : DeclaresAlignment kv alignment) (hnodup : (kv.map GgufKv.key).Nodup) :
    alignmentOf kv = .ok alignment := by
  unfold alignmentOf
  rcases h with ⟨hnone, rfl⟩ | ⟨hlt, hmem⟩
  · have hfind : kv.find? (·.key = keyGeneralAlignment) = none :=
      List.find?_eq_none.2 fun p hp => by simpa using hnone p hp
    rw [hfind]
  · have hfind : kv.find? (·.key = keyGeneralAlignment)
        = some (.newU32 keyGeneralAlignment alignment) := find_of_nodup hnodup hmem
    rw [hfind]
    exact getValU32_newU32 hlt

theorem DeclaresAlignment.lt
    (h : DeclaresAlignment kv alignment) : alignment < 2 ^ 32 := by
  rcases h with ⟨-, rfl⟩ | ⟨hlt, -⟩
  · decide
  · exact hlt

-- ============================ the file

/-- `size_of::<TensorSpec>()` on a 64-bit target. -/
def sizeOfTensorSpec : Nat := 64

/-- Every size of a file is below `2^63`: its lists in memory, its header, and
all of it. -/
structure FileFits (kv : List GgufKv) (specs : List TensorSpec)
    (alignment : Nat) : Prop where
  kvCount : kv.length * sizeOfKv < 2 ^ 63
  specCount : specs.length * sizeOfTensorSpec < 2 ^ 63
  header : ∀ h, encodeHeader kv specs alignment = .ok h → h.length < 2 ^ 63
  file : ∀ h, encodeHeader kv specs alignment = .ok h →
    ggmlPad h.length alignment + (specs.map (paddedBytes alignment)).sum < 2 ^ 63

/-- The metadata of a file: distinct well-formed pairs that declare the
alignment. -/
structure Metadata (kv : List GgufKv) (alignment : Nat) : Prop where
  distinct : (kv.map GgufKv.key).Nodup
  wellFormed : ∀ p ∈ kv, p.WellFormed
  declared : DeclaresAlignment kv alignment
  power : ∃ e, alignment = 2 ^ e

/-- Specs the writer accepts, with sizes below `2^63`. -/
structure Specs (specs : List TensorSpec) : Prop where
  valid : validateSpecs specs = .ok ()
  nonneg : ∀ s ∈ specs, 0 ≤ s.ne.1
  bytes : ∀ s ∈ specs, s.trueBytes < 2 ^ 63

/-- A spec as its record has it. -/
def specOf (info : GgufTensorInfo) : TensorSpec := ⟨info.name, info.ne, info.type⟩

/-- The bytes a file has for a tensor. -/
def tensorBytes (bytes : List UInt8) (ctx : GgufContext)
    (info : GgufTensorInfo) : List UInt8 :=
  (bytes.drop (ctx.offset + info.offset)).take info.nbytes

/-- A file, read back: its metadata, its specs, and at each tensor's place the
payload that belongs to it. -/
structure ReadsBack (grant : Nat) (bytes : List UInt8) (ctx : GgufContext)
    (kv : List GgufKv)
    (specs : List TensorSpec) (payloads : List (List UInt8)) : Prop where
  parsed : initFromData grant bytes = .ok ctx
  metadata : ctx.kv = kv
  tensors : ctx.info.map specOf = specs
  payloads : ctx.info.map (tensorBytes bytes ctx) = payloads

/-- The records of the index. -/
def infosOf (alignment : Nat) (specs : List TensorSpec) : List GgufTensorInfo :=
  (specs.zip (offsetsFrom alignment 0 specs)).map fun p => infoOf p.1 p.2

theorem infosOf_map_specOf (alignment : Nat) (specs : List TensorSpec) :
    (infosOf alignment specs).map specOf = specs := by
  have hlen := length_offsetsFrom alignment 0 specs
  have hcomp : (infosOf alignment specs).map specOf
      = (specs.zip (offsetsFrom alignment 0 specs)).map Prod.fst := by
    rw [infosOf, List.map_map]
    exact List.map_congr_left fun p _ => rfl
  rw [hcomp, List.map_fst_zip (Nat.le_of_eq hlen.symm)]

theorem infosOf_getElem {i : Nat}
    {info : GgufTensorInfo} (h : (infosOf alignment specs)[i]? = some info) :
    ∃ s off, specs[i]? = some s ∧ (offsetsFrom alignment 0 specs)[i]? = some off
      ∧ info = infoOf s off := by
  rw [infosOf, List.getElem?_map, Option.map_eq_some_iff] at h
  obtain ⟨⟨s, off⟩, hzip, rfl⟩ := h
  rw [List.getElem?_zip_eq_some] at hzip
  exact ⟨s, off, hzip.1, hzip.2, rfl⟩

/-- Where the data section starts: after the padding, when there are
tensors. -/
def dataStart (nTensors alignment headerLen : Nat) : Nat :=
  if nTensors > 0 then ggmlPad headerLen alignment else headerLen

theorem seekData_eq {nTensors : Nat} {r : GgufReader}
    (h : ggmlPad r.offset alignment ≤ r.data.length) :
    ∃ s, seekData nTensors alignment r
      = .ok (dataStart nTensors alignment r.offset, s) := by
  unfold seekData dataStart
  split
  · rw [if_neg (Nat.not_lt.2 h)]
    exact ⟨_, rfl⟩
  · exact ⟨_, rfl⟩

theorem resizeZero_of_le {bytes : List UInt8} {n : Nat} (h : bytes.length ≤ n) :
    resizeZero bytes n = bytes ++ List.replicate (n - bytes.length) 0 := by
  rw [resizeZero, List.take_of_length_le h]

theorem encodeHeader_eq
    {metadata : List UInt8} (h : encodeKvs kv = .ok metadata) :
    encodeHeader kv specs alignment = .ok ((ggufMagic ++ (leBytes 4 ggufVersion
      ++ (leBytes 8 specs.length ++ leBytes 8 kv.length))) ++ metadata
      ++ encodeInfos specs (offsetsFrom alignment 0 specs)) := by
  rw [encodeHeader, h]
  show Except.ok _ = Except.ok _
  rw [List.append_assoc ggufMagic, List.append_assoc ggufMagic,
    List.append_assoc (leBytes 4 _)]

/-- What the parser makes of a header and what follows it. -/
theorem initFromData_header (hm : Metadata kv alignment)
    (hkv : ∀ p ∈ kv, p.InLimits) (hv : validateSpecs specs = .ok ())
    (hs : ∀ s ∈ specs, ∃ n0 n1 n2 n3, s.Shaped n0 n1 n2 n3)
    (hfits : FileFits kv specs alignment)
    (hoff : ∀ off ∈ offsetsFrom alignment 0 specs, off < 2 ^ 64)
    {header rest : List UInt8} (hh : encodeHeader kv specs alignment = .ok header)
    (hrest : ggmlPad header.length alignment ≤ (header ++ rest).length)
    {size : Nat} (hsize : dataSectionSize ((header ++ rest).length
      - dataStart specs.length alignment header.length)
        (infosOf alignment specs) 0 = .ok size) (grant : Nat) :
    initFromData grant
    (header ++ rest)
    = .ok ⟨ggufVersion, kv, infosOf alignment specs, alignment,
      dataStart specs.length alignment header.length, size⟩ := by
  obtain ⟨metadata, hmeta⟩ := encodeKvs_ok hm.wellFormed
  obtain ⟨e, rfl⟩ := hm.power
  obtain ⟨hvalid, hnames⟩ := validateSpecs_ok hv
  have hlen := hfits.header header hh
  rw [encodeHeader_eq hmeta] at hh
  have hheader := Except.ok.inj hh
  have hkvCount : kv.length ≤ u64Max / sizeOfKv := by
    have := hfits.kvCount
    rw [Nat.le_div_iff_mul_le (by decide)]
    unfold u64Max
    omega
  have hspecCount : specs.length ≤ u64Max / sizeOfTensorInfo := by
    have := hfits.specCount
    rw [Nat.le_div_iff_mul_le (by decide)]
    unfold u64Max sizeOfTensorInfo sizeOfTensorSpec at *
    omega
  have hmetaLen : metadata.length < 2 ^ 63 := by
    rw [← hheader, List.length_append, List.length_append] at hlen
    omega
  have hread1 := Parse.reads_readHeader hspecCount hkvCount
  have hread2 := Parse.reads_readKvs hm.wellFormed hkv hmeta hmetaLen
    (by simpa using hm.distinct : (([] ++ kv).map GgufKv.key).Nodup) grant
  have hread3 := Parse.reads_lift (hm.declared.alignmentOf_eq hm.distinct)
  have hread4 := @Parse.reads_readInfos specs (offsetsFrom (2 ^ e) 0 specs)
    (length_offsetsFrom _ _ _) hvalid hs hoff [] hnames
  have hpower : 2 ^ e ≠ 0 ∧ 2 ^ e &&& (2 ^ e - 1) = 0 :=
    ⟨Nat.ne_of_gt (Nat.two_pow_pos e), power_and_pred e⟩
  generalize encodeInfos specs (offsetsFrom (2 ^ e) 0 specs) = index at hheader hread4
  have hfile : header ++ rest = [] ++ ((ggufMagic ++ (leBytes 4 ggufVersion
      ++ (leBytes 8 specs.length ++ leBytes 8 kv.length)))
        ++ (metadata ++ (index ++ rest))) := by
    rw [← hheader, List.nil_append, List.append_assoc, List.append_assoc]
  obtain ⟨s, hseek⟩ :=
    @seekData_eq (2 ^ e) specs.length ⟨header ++ rest, header.length⟩ hrest
  -- the header is taken piece by piece, and the data section starts after it
  have hrun : initFromReader grant (header ++ rest).length ⟨header ++ rest, 0⟩
      = .ok (⟨ggufVersion, kv, infosOf (2 ^ e) specs, 2 ^ e,
        dataStart specs.length (2 ^ e) header.length, size⟩, s) := by
    generalize (header ++ rest).length = len at hsize
    rw [hfile]
    refine (hread1.continue [] _).trans ?_
    refine (hread2.continue _ _).trans ?_
    refine (hread3.continue_nil _ _).trans ?_
    refine ((Parse.reads_ensure hpower).continue_nil _ _).trans ?_
    refine (hread4.continue _ _).trans ?_
    simp only [List.nil_append]
    rw [hheader]
    refine (Parse.bind_of_ok hseek).trans ?_
    exact (Parse.bind_of_ok (Parse.lift_eq_ok.2 ⟨hsize, rfl⟩))
  rw [initFromData, hrun]
  rfl

/-- The bytes of a written file. -/
theorem writeFile_eq {ids : List Nat} {header : List UInt8}
    (hv : validateSpecs specs = .ok ()) (ha : ∃ e, alignment = 2 ^ e)
    (hh : encodeHeader kv specs alignment = .ok header)
    (hids : ids.length = specs.length)
    (hp : Provided alignment data (ids.zip specs)) :
    writeFile kv specs alignment ids data
      = .ok (resizeZero header (ggmlPad header.length alignment)
        ++ dataSection alignment data (ids.zip specs)) := by
  obtain ⟨e, rfl⟩ := ha
  have hpower : ¬ (2 ^ e = 0 ∨ 2 ^ e &&& (2 ^ e - 1) ≠ 0) := by
    rw [power_and_pred]
    have := Nat.two_pow_pos e
    omega
  have hcreate : GgufWriter.create kv specs (2 ^ e)
      = .ok ⟨resizeZero header (ggmlPad header.length (2 ^ e)), specs, 2 ^ e, 0⟩ := by
    rw [GgufWriter.create, hv]
    show (if _ then _ else _) = _
    rw [if_neg hpower, hh]
    rfl
  have hcount : (ids.zip specs).length = specs.length := by
    rw [List.length_zip, hids, Nat.min_self]
  rw [writeFile, hcreate]
  show (GgufWriter.writeTensors data _ (ids.zip specs) >>= _) = _
  rw [hp.writeTensors_eq rfl]
  show GgufWriter.finish _ = _
  rw [GgufWriter.finish, if_neg]
  simp only [hcount]
  omega

/-- The size a spec computes is its true one. -/
theorem TensorSpec.Shaped.nbytes_eq {s : TensorSpec} {n0 n1 n2 n3 : Nat}
    (h : s.Shaped n0 n1 n2 n3) : (s.nbytes : Int) = s.trueBytes := by
  have hn : s.nbytes = n0 * n1 * n2 * n3 / s.type.blckSize * s.type.typeSize :=
    @Minfer.Gguf.nbytes_eq n0 n1 n2 n3 (infoOf s 0) h.ne h.sized
  rw [hn]
  unfold TensorSpec.trueBytes
  rw [h.ne]
  push_cast
  rfl

/-- The specs of a file and the providers that write their declared sizes. -/
theorem Specs.provided (h : Specs specs)
    (hl : ∀ s ∈ specs, s.InLimits) (he : e ≤ 63) {ids : List Nat}
    (hdata : (ids.map data).map List.length = specs.map TensorSpec.nbytes) :
    Provided (2 ^ e) data (ids.zip specs) := by
  obtain ⟨hvalid, -⟩ := validateSpecs_ok h.valid
  constructor
  · intro p hp
    obtain ⟨i, hi⟩ := List.mem_iff_getElem?.1 hp
    obtain ⟨hid, hs⟩ := List.getElem?_zip_eq_some.1 hi
    have hlen := congrArg (·[i]?) hdata
    simp only [List.getElem?_map, hid, hs, Option.map_some, Option.some.injEq] at hlen
    exact hlen
  · intro p hp
    have hs : p.2 ∈ specs := (List.of_mem_zip hp).2
    have hb := h.bytes p.2 hs
    obtain ⟨n0, n1, n2, n3, hshape⟩ :=
      (hvalid p.2 hs).shaped (h.nonneg p.2 hs) (hl p.2 hs)
      (by omega)
    have hn := hshape.nbytes_eq
    exact le_ggmlPad he (by omega)

section Layout

variable {specs : List TensorSpec} {alignment : Nat} {ids : List Nat}
  {data : Nat → List UInt8}

theorem zip_map_snd (hids : ids.length = specs.length) :
    (ids.zip specs).map (·.2) = specs :=
  List.map_snd_zip (Nat.le_of_eq hids.symm)

theorem sum_padded (hids : ids.length = specs.length) :
    ((ids.zip specs).map fun p => paddedBytes alignment p.2).sum
      = (specs.map (paddedBytes alignment)).sum := by
  conv_rhs => rw [← zip_map_snd hids]
  rw [List.map_map]
  rfl

/-- The tensor at each index: its provider, its offset, and its payload in the
data section. -/
theorem tensor_at (hp : Provided alignment data (ids.zip specs))
    (hids : ids.length = specs.length)
    (hsum : (specs.map (paddedBytes alignment)).sum < 2 ^ 64) {i : Nat}
    {s : TensorSpec} (hs : specs[i]? = some s) :
    ∃ id off, ids[i]? = some id ∧ (offsetsFrom alignment 0 specs)[i]? = some off
      ∧ off + paddedBytes alignment s ≤ (specs.map (paddedBytes alignment)).sum
      ∧ ((dataSection alignment data (ids.zip specs)).drop off).take s.nbytes
        = data id := by
  obtain ⟨id, hid⟩ : ∃ id, ids[i]? = some id := by
    have hi := (List.getElem?_eq_some_iff.1 hs).1
    exact ⟨ids[i], List.getElem?_eq_getElem (by omega)⟩
  have hzip : (ids.zip specs)[i]? = some (id, s) :=
    List.getElem?_zip_eq_some.2 ⟨hid, hs⟩
  rw [← sum_padded hids] at hsum
  obtain ⟨off, hoff, -, hend, hbytes⟩ := @payload_at _ _ _ hp 0 (by omega) _ _ hzip
  rw [zip_map_snd hids] at hoff
  rw [sum_padded hids, Nat.zero_add] at hend
  exact ⟨id, off, hid, hoff, hend, hbytes⟩

theorem offsets_lt (hp : Provided alignment data (ids.zip specs))
    (hids : ids.length = specs.length)
    (hsum : (specs.map (paddedBytes alignment)).sum < 2 ^ 64) :
    ∀ off ∈ offsetsFrom alignment 0 specs, off < 2 ^ 64 := by
  intro off hmem
  obtain ⟨i, hi⟩ := List.mem_iff_getElem?.1 hmem
  have hilt := (List.getElem?_eq_some_iff.1 hi).1
  rw [length_offsetsFrom] at hilt
  obtain ⟨-, off', -, hoff', hend, -⟩ :=
    tensor_at hp hids hsum (List.getElem?_eq_getElem hilt)
  rw [hi] at hoff'
  obtain rfl := Option.some.inj hoff'
  omega

/-- Every range of the index lies in the data section. -/
theorem infos_inside (hp : Provided alignment data (ids.zip specs))
    (hids : ids.length = specs.length)
    (hsum : (specs.map (paddedBytes alignment)).sum < 2 ^ 64)
    (hshaped : ∀ s ∈ specs, ∃ n0 n1 n2 n3, s.Shaped n0 n1 n2 n3) :
    ∀ info ∈ infosOf alignment specs,
      info.offset + info.ggmlNbytes ≤ (specs.map (paddedBytes alignment)).sum := by
  intro info hmem
  obtain ⟨i, hi⟩ := List.mem_iff_getElem?.1 hmem
  obtain ⟨s, off, hs, hoff, rfl⟩ := infosOf_getElem hi
  obtain ⟨id, off', hid, hoff', hend, -⟩ := tensor_at hp hids hsum hs
  rw [hoff] at hoff'
  obtain rfl := Option.some.inj hoff'
  obtain ⟨n0, n1, n2, n3, hshape⟩ := hshaped s (List.mem_of_getElem? hs)
  have hle := ggmlNbytes_le_nbytes (hshape.measured off)
  rw [infoOf_nbytes] at hle
  have hpad :=
    hp.padded (id, s)
    (List.mem_of_getElem? (List.getElem?_zip_eq_some.2 ⟨hid, hs⟩))
  calc (infoOf s off).offset + (infoOf s off).ggmlNbytes
      ≤ off + paddedBytes alignment s :=
        Nat.add_le_add_left (Nat.le_trans hle hpad) off
    _ ≤ (specs.map (paddedBytes alignment)).sum := hend

end Layout

/-- A written file is read back. -/
theorem writeFile_readsBack (hm : Metadata kv alignment)
    (hkv : ∀ p ∈ kv, p.InLimits) (hspecs : Specs specs)
    (hl : ∀ s ∈ specs, s.InLimits) (hfits : FileFits kv specs alignment)
    {ids : List Nat} (hids : ids.length = specs.length)
    (hdata : (ids.map data).map List.length = specs.map TensorSpec.nbytes)
    (grant : Nat) :
    ∃ bytes ctx, writeFile kv specs alignment ids data = .ok bytes
      ∧ ReadsBack grant bytes ctx kv specs (ids.map data) := by
  obtain ⟨e, rfl⟩ := hm.power
  have he : e ≤ 63 := by
    have hlt := hm.declared.lt
    have := (Nat.pow_lt_pow_iff_right (a := 2) (by decide)).1 hlt
    omega
  obtain ⟨hvalid, -⟩ := validateSpecs_ok hspecs.valid
  have hshaped : ∀ s ∈ specs, ∃ n0 n1 n2 n3, s.Shaped n0 n1 n2 n3 := fun s hs =>
    (hvalid s hs).shaped (hspecs.nonneg s hs) (hl s hs)
      (by have := hspecs.bytes s hs; omega)
  have hp := hspecs.provided hl he hdata
  obtain ⟨metadata, hmeta⟩ := encodeKvs_ok hm.wellFormed
  obtain ⟨header, hh⟩ : ∃ header, encodeHeader kv specs (2 ^ e) = .ok header :=
    ⟨_, encodeHeader_eq hmeta⟩
  have hfile := hfits.file header hh
  have hpad := le_ggmlPad he (hfits.header header hh)
  have hsum : (specs.map (paddedBytes (2 ^ e))).sum < 2 ^ 64 := by omega
  -- the file: header, padding, data section
  have hwritten := writeFile_eq hspecs.valid ⟨e, rfl⟩ hh hids hp
  rw [resizeZero_of_le hpad, List.append_assoc] at hwritten
  have hdlen := hp.length_dataSection
  rw [sum_padded hids] at hdlen
  have htensor := @tensor_at specs (2 ^ e) ids data hp hids hsum
  generalize dataSection (2 ^ e) data (ids.zip specs) = dsec at hwritten hdlen htensor
  generalize hzero :
    List.replicate (ggmlPad header.length (2 ^ e) - header.length) (0 : UInt8)
    = zeros at hwritten
  have hzlen : header.length + zeros.length = ggmlPad header.length (2 ^ e) := by
    rw [← hzero, List.length_replicate]
    omega
  have htotal : (header ++ (zeros ++ dsec)).length
      = ggmlPad header.length (2 ^ e) + (specs.map (paddedBytes (2 ^ e))).sum := by
    rw [List.length_append, List.length_append, hdlen]
    omega
  have hinside := infos_inside hp hids hsum hshaped
  obtain ⟨size, hsize⟩ := @dataSectionSize_of_le ((header ++ (zeros ++ dsec)).length
    - dataStart specs.length (2 ^ e) header.length) (by omega)
        (infosOf (2 ^ e) specs) (by
      intro info hi
      have hin := hinside info hi
      have hstart : dataStart specs.length (2 ^ e) header.length
          ≤ ggmlPad header.length (2 ^ e) := by
        unfold dataStart
        split
        · exact Nat.le_refl _
        · exact hpad
      omega) 0
  have hparsed := initFromData_header hm hkv hspecs.valid hshaped hfits
    (offsets_lt hp hids hsum) hh (by omega) hsize grant
  refine ⟨_, _, hwritten, hparsed, rfl, infosOf_map_specOf _ _, ?_⟩
  -- both lists have the payload of the same provider at each index
  apply List.ext_getElem?
  intro i
  rw [List.getElem?_map, List.getElem?_map]
  match hinfo : (infosOf (2 ^ e) specs)[i]? with
  | none =>
      have hnone : ids[i]? = none := by
        have hlen := congrArg List.length (infosOf_map_specOf (2 ^ e) specs)
        rw [List.length_map] at hlen
        rw [List.getElem?_eq_none_iff] at hinfo ⊢
        omega
      rw [hnone]
      rfl
  | some info =>
      obtain ⟨s, off, hs, hoff, rfl⟩ := infosOf_getElem hinfo
      obtain ⟨id, off', hid, hoff', -, hbytes⟩ := htensor hs
      rw [hoff] at hoff'
      obtain rfl := Option.some.inj hoff'
      have hpos : specs.length > 0 := Nat.lt_of_le_of_lt (Nat.zero_le i)
        (List.getElem?_eq_some_iff.1 hs).1
      rw [hid, Option.map_some, Option.map_some, ← hbytes]
      show some (((header ++ (zeros ++ dsec)).drop
        (dataStart specs.length (2 ^ e) header.length
        + off)).take s.nbytes) = _
      rw [dataStart, if_pos hpos, ← List.append_assoc, ← List.drop_drop,
        List.drop_left' (by rw [List.length_append]; exact hzlen)]

end Minfer.Gguf
