/-
The header the writer encodes is the header the parser reads: metadata,
then the tensor index.
-/
import Minfer.Gguf.Proofs.Reads

namespace Minfer.Gguf

open Minfer.Lib

-- ============================ metadata

/-- A key/value pair as the format has them: one element for a scalar, whole
elements for an array, and booleans stored as 0 or 1. -/
structure GgufKv.WellFormed (kv : GgufKv) : Prop where
  type : kv.type ≠ .array
  text : kv.type = .string → kv.data = []
    ∧ (kv.isArray = true ∨ kv.dataString.length = 1)
  raw : kv.type ≠ .string → kv.dataString = [] ∧ kv.data.length % kv.type.typeSize = 0
    ∧ (kv.isArray = true ∨ kv.data.length = kv.type.typeSize)
  bools : kv.type = .bool → ∀ b ∈ kv.data, Parse.IsBool b

/-- The reader's limits: on strings, and on the elements of an array that is
not of booleans. -/
structure GgufKv.InLimits (kv : GgufKv) : Prop where
  key : (utf8Encode kv.key).length ≤ Parse.ggufMaxStringLength
  strings : ∀ s ∈ kv.dataString, (utf8Encode s).length ≤ Parse.ggufMaxStringLength
  elements : kv.isArray = true → kv.type ≠ .bool →
    kv.dataString.length ≤ Parse.ggufMaxArrayElements
      ∧ kv.data.length / kv.type.typeSize ≤ Parse.ggufMaxArrayElements

theorem GgufType.typeSize_pos {t : GgufType} (hs : t ≠ .string) (ha : t ≠ .array) :
    0 < t.typeSize := by
  cases t <;> first | exact absurd rfl hs | exact absurd rfl ha | decide

namespace GgufKv.WellFormed

variable {kv : GgufKv}

theorem getNe_string (h : kv.WellFormed) (hs : kv.type = .string) :
    kv.getNe = .ok kv.dataString.length := by
  rw [GgufKv.getNe, if_pos hs, if_pos (h.text hs).2]

theorem getNe_raw (h : kv.WellFormed) (hs : kv.type ≠ .string) :
    kv.getNe = .ok (kv.data.length / kv.type.typeSize) := by
  obtain ⟨-, hmod, hone⟩ := h.raw hs
  have hpos := GgufType.typeSize_pos hs h.type
  have hcond : kv.isArray = true ∨ kv.data.length / kv.type.typeSize = 1 := by
    rcases hone with hone | hone
    · exact .inl hone
    · rw [hone]
      exact .inr (Nat.div_self hpos)
  rw [GgufKv.getNe, if_neg hs, if_neg (by omega), if_pos hcond]

/-- The data of an array is its elements. -/
theorem length_data (h : kv.WellFormed) (hs : kv.type ≠ .string) :
    kv.data.length = kv.data.length / kv.type.typeSize * kv.type.typeSize :=
  (Nat.div_mul_cancel (Nat.dvd_of_mod_eq_zero (h.raw hs).2.1)).symm

/-- A well-formed pair can be encoded. -/
theorem encodeKv_ok (h : kv.WellFormed) : ∃ bytes, encodeKv kv = .ok bytes := by
  unfold encodeKv
  by_cases ha : kv.isArray = true
  · rw [if_pos ha]
    by_cases hs : kv.type = .string
    · rw [h.getNe_string hs]
      exact ⟨_, rfl⟩
    · rw [h.getNe_raw hs]
      exact ⟨_, rfl⟩
  · rw [if_neg ha]
    by_cases hs : kv.type = .string
    · have hone := (h.text hs).2.resolve_left ha
      rw [if_pos hs]
      match hd : kv.dataString, hone with
      | [s], _ => exact ⟨_, rfl⟩
    · rw [if_neg hs]
      exact ⟨_, rfl⟩

end GgufKv.WellFormed

theorem encodeKvs_ok {kvs : List GgufKv} (h : ∀ kv ∈ kvs, kv.WellFormed) :
    ∃ bytes, encodeKvs kvs = .ok bytes := by
  induction kvs with
  | nil => exact ⟨[], rfl⟩
  | cons kv kvs ih =>
      obtain ⟨b, hb⟩ := (h kv List.mem_cons_self).encodeKv_ok
      obtain ⟨c, hc⟩ := ih fun k hk => h k (List.mem_cons_of_mem _ hk)
      refine ⟨b ++ c, ?_⟩
      rw [encodeKvs, hb, hc]
      rfl

namespace Parse

/-- The array payload of any numeric type is raw bytes. -/
theorem readArray_raw {type : GgufType} (hs : type ≠ .string) (ha : type ≠ .array)
    (hb : type ≠ .bool) (grant : Nat) (key : Text) (n : Nat) :
    readArray grant key type n
      = (do return ⟨key, true, type, ← readVec type.typeSize n, []⟩) := by
  cases type <;>
    first
      | exact absurd rfl hs
      | exact absurd rfl ha
      | exact absurd rfl hb
      | rfl

theorem readScalar_raw {type : GgufType} (hs : type ≠ .string)
    (ha : type ≠ .array) (hb : type ≠ .bool) (key : Text) :
    readScalar key type
      = (do return ⟨key, false, type, ← readRaw type.typeSize, []⟩) := by
  cases type <;>
    first
      | exact absurd rfl hs
      | exact absurd rfl ha
      | exact absurd rfl hb
      | rfl

/-- The payload of an array. -/
theorem reads_readArray {kv : GgufKv} (h : kv.WellFormed) (hl : kv.InLimits)
    (ha : kv.isArray = true) (hlen : kv.data.length < 2 ^ 63) {ne : Nat}
    (hne : kv.getNe = .ok ne)
    (grant : Nat) : Reads (readArray grant kv.key kv.type ne)
      (if kv.type = .string then kv.dataString.flatMap writeString
        else kv.data) kv := by
  obtain ⟨key, isArray, type, data, dataString⟩ := kv
  subst ha
  by_cases hs : type = .string
  · subst hs
    obtain rfl : data = [] := (h.text rfl).1
    have hn : dataString.length = ne :=
      Except.ok.inj ((h.getNe_string rfl).symm.trans hne)
    have hmax := (hl.elements rfl nofun).1
    subst hn
    exact (reads_readStringVec hmax hl.strings).map (GgufKv.mk key true .string [])
  · obtain rfl : dataString = [] := (h.raw hs).1
    have hn : data.length / type.typeSize = ne :=
      Except.ok.inj ((h.getNe_raw hs).symm.trans hne)
    rw [if_neg hs]
    by_cases hb : type = .bool
    · subst hb
      have hn' : data.length = ne := by
        rw [← hn]
        exact (Nat.div_one _).symm
      subst hn'
      -- the file still has the bytes that are reserved
      have hr : Reads (readBoolVec grant data.length) data data :=
        Reads.remaining fun left hleft =>
          Reads.ensure ⟨hlen, .inl hleft⟩ (reads_readBools (h.bools rfl))
      exact hr.map (GgufKv.mk key true .bool · [])
    · have hpos := GgufType.typeSize_pos hs h.type
      have hmax := (hl.elements rfl hb).2
      have hdata := h.length_data hs
      simp only at hmax hdata
      rw [hn] at hmax hdata
      rw [readArray_raw hs h.type hb]
      exact (reads_readVec hpos hmax hdata).map (GgufKv.mk key true type · [])

/-- The payload of a scalar. -/
theorem reads_readScalar {kv : GgufKv} (h : kv.WellFormed)
    (ha : kv.isArray = false) (hs : kv.type ≠ .string) : Reads
    (readScalar kv.key kv.type) kv.data kv := by
  obtain ⟨key, isArray, type, data, dataString⟩ := kv
  subst ha
  obtain ⟨hstr, -, hone⟩ := h.raw hs
  simp only [Bool.false_eq_true, false_or] at hstr hone
  subst hstr
  by_cases hb : type = .bool
  · subst hb
    have hbool := h.bools rfl
    match data, hone with
    | [b], _ =>
        have hr := reads_readBool (hbool b List.mem_cons_self)
        exact hr.map fun b => GgufKv.mk key false .bool [b] []
  · rw [readScalar_raw hs h.type hb]
    exact (reads_readRaw_of_length hone).map (GgufKv.mk key false type · [])

/-- A pair is read back, unless its key was read before. -/
theorem reads_readKv {kv : GgufKv} (h : kv.WellFormed) (hl : kv.InLimits)
    {bytes : List UInt8} (he : encodeKv kv = .ok bytes)
    (hlen : bytes.length < 2 ^ 63) {seen : List GgufKv}
    (hfresh : ∀ k ∈ seen, k.key ≠ kv.key) (grant : Nat) :
    Reads (readKv grant seen) bytes kv := by
  unfold encodeKv at he
  by_cases ha : kv.isArray = true
  · rw [if_pos ha] at he
    obtain ⟨ne, hne⟩ : ∃ ne, kv.getNe = .ok ne := by
      by_cases hs : kv.type = .string
      · exact ⟨_, h.getNe_string hs⟩
      · exact ⟨_, h.getNe_raw hs⟩
    rw [hne] at he
    obtain rfl := Except.ok.inj he
    rw [List.append_assoc, List.append_assoc, List.append_assoc,
      List.length_append] at hlen
    rw [List.append_assoc, List.append_assoc, List.append_assoc]
    simp only [List.length_append, length_leBytes] at hlen
    have hne64 : ne < 256 ^ 8 := by
      by_cases hs : kv.type = .string
      · have hn := Except.ok.inj ((h.getNe_string hs).symm.trans hne)
        have hstr := length_writeStrings kv.dataString
        rw [if_pos hs] at hlen
        omega
      · have hn := Except.ok.inj ((h.getNe_raw hs).symm.trans hne)
        have hle := Nat.div_le_self kv.data.length kv.type.typeSize
        rw [if_neg hs] at hlen
        omega
    have hdata : kv.data.length < 2 ^ 63 := by
      by_cases hs : kv.type = .string
      · rw [(h.text hs).1]
        decide
      · rw [if_neg hs] at hlen
        omega
    refine (reads_readString hl.key).bind (Reads.ensure hfresh ?_)
    refine (reads_readGgufType .array).bind ?_
    rw [if_pos rfl]
    refine (reads_readGgufType kv.type).bind ((reads_readNat 8 hne64).bind ?_)
    exact reads_readArray h hl ha hdata hne grant
  · have ha' : kv.isArray = false := by simpa using ha
    rw [if_neg ha] at he
    by_cases hs : kv.type = .string
    · rw [if_pos hs] at he
      have hone := (h.text hs).2.resolve_left ha
      match hd : kv.dataString, hone with
      | [s], _ =>
          rw [hd] at he
          obtain rfl := Except.ok.inj he
          rw [List.append_assoc]
          refine (reads_readString hl.key).bind (Reads.ensure hfresh ?_)
          refine (reads_readGgufType kv.type).bind ?_
          rw [if_neg h.type, hs]
          have hr := (reads_readString
            (hl.strings s (by rw [hd]; exact List.mem_cons_self))).map
            fun s => GgufKv.mk kv.key false .string [] [s]
          have hkv : GgufKv.mk kv.key false .string [] [s] = kv := by
            rw [← (h.text hs).1, ← hd, ← hs, ← ha']
          rwa [hkv] at hr
    · rw [if_neg hs] at he
      obtain rfl := Except.ok.inj he
      rw [List.append_assoc]
      refine (reads_readString hl.key).bind (Reads.ensure hfresh ?_)
      refine (reads_readGgufType kv.type).bind ?_
      rw [if_neg h.type]
      exact reads_readScalar h ha' hs

/-- The metadata is read back, in order. -/
theorem reads_readKvs {kvs : List GgufKv} (h : ∀ kv ∈ kvs, kv.WellFormed)
    (hl : ∀ kv ∈ kvs, kv.InLimits) {bytes : List UInt8}
    (he : encodeKvs kvs = .ok bytes)
    (hlen : bytes.length < 2 ^ 63) {seen : List GgufKv}
    (hnodup : ((seen ++ kvs).map GgufKv.key).Nodup) (grant : Nat) :
    Reads (readKvs grant kvs.length seen) bytes (seen ++ kvs) := by
  induction kvs generalizing bytes seen with
  | nil =>
      obtain rfl := Except.ok.inj he
      rw [List.append_nil]
      exact Reads.pure seen
  | cons kv kvs ih =>
      obtain ⟨b, hb⟩ := (h kv List.mem_cons_self).encodeKv_ok
      obtain ⟨c, hc⟩ := encodeKvs_ok fun k hk => h k (List.mem_cons_of_mem _ hk)
      rw [encodeKvs, hb, hc] at he
      obtain rfl : b ++ c = bytes := Except.ok.inj he
      rw [List.length_append] at hlen
      have hfresh : ∀ k ∈ seen, k.key ≠ kv.key := by
        rw [List.map_append, List.nodup_append] at hnodup
        intro k hk
        exact hnodup.2.2 _ (List.mem_map_of_mem hk) _
          (List.mem_map_of_mem List.mem_cons_self)
      have hsplit : seen ++ kv :: kvs = (seen ++ [kv]) ++ kvs := by
        rw [List.append_assoc, List.singleton_append]
      rw [hsplit] at hnodup ⊢
      refine (reads_readKv (h kv List.mem_cons_self)
        (hl kv List.mem_cons_self) hb (by omega)
        hfresh grant).bind ?_
      exact ih (fun k hk => h k (List.mem_cons_of_mem _ hk))
        (fun k hk => hl k (List.mem_cons_of_mem _ hk)) hc (by omega) hnodup

end Parse

-- ======================== tensor index

/-- What `validate_specs` asks of one spec. -/
structure TensorSpec.Valid (s : TensorSpec) : Prop where
  name : (utf8Encode s.name).length < 64
  row : s.ne.1.tmod s.type.blckSize = 0
  pos1 : 1 ≤ s.ne.2.1
  pos2 : 1 ≤ s.ne.2.2.1
  pos3 : 1 ≤ s.ne.2.2.2

theorem validateSpec_ok {seen : List TensorSpec} {s : TensorSpec}
    (h : validateSpec seen s = .ok ()) : s.Valid ∧ ∀ t ∈ seen, t.name ≠ s.name := by
  unfold validateSpec at h
  split at h
  · cases h
  next hname =>
  split at h
  · cases h
  next hrow =>
  split at h
  · cases h
  next h1 =>
  split at h
  · cases h
  next h2 =>
  split at h
  · cases h
  next h3 =>
  split at h
  · cases h
  next hseen =>
  have hrow' : s.ne.1.tmod s.type.blckSize = 0 := by
    by_contra hne
    exact hrow (.inr hne)
  refine ⟨⟨by omega, hrow', by omega, by omega, by omega⟩, fun t ht heq => hseen ?_⟩
  exact List.any_eq_true.2 ⟨t, ht, decide_eq_true heq⟩

theorem validateFrom_ok {specs seen : List TensorSpec}
    (h : validateFrom seen specs = .ok ())
    (hseen : (seen.map TensorSpec.name).Nodup) :
    (∀ s ∈ specs, s.Valid) ∧ ((seen ++ specs).map TensorSpec.name).Nodup := by
  induction specs generalizing seen with
  | nil =>
      rw [List.append_nil]
      exact ⟨fun s hs => absurd hs List.not_mem_nil, hseen⟩
  | cons s specs ih =>
      rw [validateFrom] at h
      match hs : validateSpec seen s with
      | .error e =>
          rw [hs] at h
          cases h
      | .ok () =>
          rw [hs] at h
          obtain ⟨hvalid, hfresh⟩ := validateSpec_ok hs
          have hnodup : ((seen ++ [s]).map TensorSpec.name).Nodup := by
            rw [List.map_append, List.nodup_append]
            refine ⟨hseen, by simp, fun a ha b hb => ?_⟩
            obtain ⟨t, ht, rfl⟩ := List.mem_map.1 ha
            rw [List.mem_singleton.1 hb]
            exact hfresh t ht
          obtain ⟨hall, hnames⟩ := ih h hnodup
          rw [List.append_assoc, List.singleton_append] at hnames
          refine ⟨fun t ht => ?_, hnames⟩
          rcases List.mem_cons.1 ht with rfl | ht
          · exact hvalid
          · exact hall t ht

theorem validateSpecs_ok {specs : List TensorSpec}
    (h : validateSpecs specs = .ok ()) :
    (∀ s ∈ specs, s.Valid) ∧ (specs.map TensorSpec.name).Nodup :=
  validateFrom_ok h List.nodup_nil

/-- A spec the reader's element count admits. -/
structure TensorSpec.InLimits (s : TensorSpec) : Prop where
  rows : s.ne.1 < i64Max / s.ne.2.1
  planes : s.ne.1 * s.ne.2.1 < i64Max / s.ne.2.2.1
  elements : s.ne.1 * s.ne.2.1 * s.ne.2.2.1 < i64Max / s.ne.2.2.2

/-- The byte size of a tensor, in unbounded integers. -/
def TensorSpec.trueBytes (s : TensorSpec) : Int :=
  s.ne.1 * s.ne.2.1 * s.ne.2.2.1 * s.ne.2.2.2 / s.type.blckSize * s.type.typeSize

/-- A spec that is read back: its shape, as natural numbers, passes the
parser's tests. -/
structure TensorSpec.Shaped (s : TensorSpec) (n0 n1 n2 n3 : Nat) : Prop where
  ne : s.ne = ((n0 : Int), (n1 : Int), (n2 : Int), (n3 : Int))
  sized : Sized s.type n0 n1 n2 n3
  rows : (n0 : Int) < i64Max / n1
  planes : ((n0 * n1 : Nat) : Int) < i64Max / n2
  elements : ((n0 * n1 * n2 : Nat) : Int) < i64Max / n3

theorem TensorSpec.Valid.shaped {s : TensorSpec} (h : s.Valid)
    (h0 : 0 ≤ s.ne.1) (hl : s.InLimits) (hb : s.trueBytes < 2 ^ 64) :
    ∃ n0 n1 n2 n3, s.Shaped n0 n1 n2 n3 := by
  obtain ⟨name, ⟨x0, x1, x2, x3⟩, type⟩ := s
  obtain ⟨-, hrow, hp1, hp2, hp3⟩ := h
  obtain ⟨hrows, hplanes, helements⟩ := hl
  simp only [TensorSpec.trueBytes] at h0 hrow hp1 hp2 hp3 hrows hplanes helements hb
  obtain ⟨n0, rfl⟩ := Int.eq_ofNat_of_zero_le h0
  obtain ⟨n1, rfl⟩ := Int.eq_ofNat_of_zero_le (show 0 ≤ x1 by omega)
  obtain ⟨n2, rfl⟩ := Int.eq_ofNat_of_zero_le (show 0 ≤ x2 by omega)
  obtain ⟨n3, rfl⟩ := Int.eq_ofNat_of_zero_le (show 0 ≤ x3 by omega)
  rw [← Int.natCast_mul] at hplanes helements
  rw [← Int.natCast_mul] at helements
  obtain ⟨hlt01, hlt1⟩ := mul_lt_of_lt_div hrows
  obtain ⟨hlt02, hlt2⟩ := mul_lt_of_lt_div hplanes
  obtain ⟨hlt03, hlt3⟩ := mul_lt_of_lt_div helements
  have hblocks : type.blckSize ∣ n0 := by
    have := Int.dvd_of_tmod_eq_zero hrow
    exact_mod_cast this
  refine ⟨n0, n1, n2, n3, rfl,
    ⟨by omega, by omega, by omega, hlt1, hlt2, hlt3, hlt01, hlt02,
    hlt03, hblocks, ?_⟩, hrows, hplanes, helements⟩
  exact_mod_cast hb

/-- The record of a spec at an offset. -/
def infoOf (spec : TensorSpec) (off : Nat) : GgufTensorInfo :=
  ⟨spec.name, spec.ne, Parse.strides spec.type spec.ne, spec.type, off⟩

theorem infoOf_nbytes (spec : TensorSpec) (off : Nat) :
    (infoOf spec off).nbytes = spec.nbytes :=
  rfl

theorem TensorSpec.Shaped.measured {s : TensorSpec} {n0 n1 n2 n3 : Nat}
    (h : s.Shaped n0 n1 n2 n3) (off : Nat) : Measured (infoOf s off) :=
  ⟨n0, n1, n2, n3, h.ne, h.sized, rfl⟩

/-- The dimensions that are not stored are ones. -/
theorem shapeOf_take (ne : Int × Int × Int × Int) :
    Parse.shapeOf ((neList ne).take (ggmlNDims ne)) = ne := by
  obtain ⟨x0, x1, x2, x3⟩ := ne
  unfold ggmlNDims
  split
  · rfl
  next h3 =>
  split
  · simp only [not_not] at h3
    subst h3
    rfl
  next h2 =>
  split
  · simp only [not_not] at h2 h3
    subst h2 h3
    rfl
  next h1 =>
  simp only [not_not] at h1 h2 h3
  subst h1 h2 h3
  rfl

theorem ggmlNDims_le (ne : Int × Int × Int × Int) : ggmlNDims ne ≤ 4 := by
  unfold ggmlNDims
  repeat' split
  all_goals omega

namespace Parse

theorem reads_ensure {st : Stop} {p : Prop} [Decidable p] (hp : p) :
    Reads (ensure st p) [] () := by
  rw [Parse.ensure, if_pos hp]
  exact Reads.pure ()

theorem reads_readDims {dims : List Int} (h : ∀ d ∈ dims, 0 ≤ d ∧ d < 2 ^ 63) :
    Reads (readDims dims.length) (dims.flatMap fun x => leBytes 8 (asU64 x))
      dims := by
  induction dims with
  | nil => exact Reads.pure []
  | cons d dims ih =>
      obtain ⟨h0, h1⟩ := h d List.mem_cons_self
      rw [List.flatMap_cons]
      refine (reads_readInt8 (by omega) h1).bind (Reads.ensure h0 ?_)
      exact (ih fun e he => h e (List.mem_cons_of_mem _ he)).map _

theorem reads_checkElements {s : TensorSpec} {n0 n1 n2 n3 : Nat}
    (h : s.Shaped n0 n1 n2 n3) :
    Reads (checkElements s.ne) [] () := by
  have hs := h.sized
  have h01 : wrapI64 ((n0 : Int) * n1) = ((n0 * n1 : Nat) : Int) := by
    rw [← Int.natCast_mul]
    exact wrapI64_of_lt (Int.natCast_nonneg _) (by exact_mod_cast hs.rows)
  have h02 : wrapI64 (((n0 * n1 : Nat) : Int) * n2)
      = ((n0 * n1 * n2 : Nat) : Int) := by
    rw [← Int.natCast_mul]
    exact wrapI64_of_lt (Int.natCast_nonneg _) (by exact_mod_cast hs.planes)
  have hplanes : wrapI64 ((n0 : Int) * n1) < i64Max / n2 := by
    rw [h01]
    exact h.planes
  have helements : wrapI64 (wrapI64 ((n0 : Int) * n1) * n2) < i64Max / n3 := by
    rw [h01, h02]
    exact h.elements
  have hne (n : Nat) (hn : 0 < n) : (n : Int) ≠ 0 := by omega
  rw [h.ne]
  refine Reads.ensure (hne n1 hs.pos1) (Reads.ensure h.rows ?_)
  refine Reads.ensure (hne n2 hs.pos2) (Reads.ensure hplanes ?_)
  exact Reads.ensure (hne n3 hs.pos3) (reads_ensure helements)

/-- A record is read back, unless its name was read before. -/
theorem reads_readInfo {s : TensorSpec} {n0 n1 n2 n3 : Nat} (hv : s.Valid)
    (h : s.Shaped n0 n1 n2 n3) {off : Nat} (hoff : off < 2 ^ 64)
    {seen : List GgufTensorInfo} (hfresh : ∀ info ∈ seen, info.name ≠ s.name) :
    Reads (readInfo seen) (encodeInfo s off) (infoOf s off) := by
  have hs := h.sized
  have hlt0 : n0 < 2 ^ 63 := by
    have := hs.rows
    have := Nat.le_mul_of_pos_right n0 hs.pos1
    omega
  have hname : (utf8Encode s.name).length ≤ ggufMaxStringLength := by
    have := hv.name
    unfold ggufMaxStringLength
    omega
  have hnd := ggmlNDims_le s.ne
  have hdims : ∀ d ∈ (neList s.ne).take (ggmlNDims s.ne), 0 ≤ d ∧ d < 2 ^ 63 := by
    intro d hd
    have hmem := List.mem_of_mem_take hd
    have hlt1 := hs.lt1
    have hlt2 := hs.lt2
    have hlt3 := hs.lt3
    rw [h.ne] at hmem
    simp only [neList, List.mem_cons, List.not_mem_nil, or_false] at hmem
    rcases hmem with rfl | rfl | rfl | rfl <;> omega
  have hlen : ((neList s.ne).take (ggmlNDims s.ne)).length = ggmlNDims s.ne := by
    rw [List.length_take]
    exact Nat.min_eq_left hnd
  have hread := reads_readDims hdims
  rw [hlen] at hread
  have hbytes : asU64 ((neProduct s.ne).tdiv s.type.blckSize)
      ≤ u64Max / s.type.typeSize := by
    have hdiv : n0 * n1 * n2 * n3 / s.type.blckSize < 2 ^ 64 :=
      Nat.lt_of_le_of_lt (Nat.div_le_self ..) (Nat.lt_trans hs.elements (by norm_num))
    rw [h.ne, hs.neProduct_eq,
      Int.tdiv_eq_ediv_of_nonneg (Int.natCast_nonneg _), ← Int.natCast_ediv,
      asU64_of_lt hdiv, Nat.le_div_iff_mul_le s.type.typeSize_pos]
    have hb := hs.bytes
    unfold u64Max
    omega
  rw [encodeInfo, List.append_assoc, List.append_assoc, List.append_assoc]
  refine (reads_readString hname).bind (Reads.ensure hv.name (Reads.ensure hfresh ?_))
  refine (reads_readNat 4 (by omega)).bind (Reads.ensure hnd (hread.bind ?_))
  have hshape := shapeOf_take s.ne
  generalize shapeOf ((neList s.ne).take (ggmlNDims s.ne)) = ne at hshape
  subst hshape
  refine (List.nil_append _ ▸ (reads_checkElements h).bind ?_)
  refine (reads_readGgmlType s.type).bind
    (Reads.ensure hv.row (Reads.ensure hbytes ?_))
  exact (reads_readNat 8 hoff).map _

end Parse

end Minfer.Gguf
