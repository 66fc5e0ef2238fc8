/-
What a conversion writes of a checkpoint (`convert.rs`).

The tensors are collected in a map by name, so one of two header entries of
one name is lost; a shape is cut to its last four dimensions; and the entry
that is meant to be left out is refused like one nobody knows.

What the code writes is compared with a statement of its own, which takes the
entries one by one and knows no map (`convertOne`, `Faithful`). For the
entries that are to be left out the run is compared with that on the same
headers without them: a refusal is theirs when it goes away with them
(`RefusedForRotary`), whatever it names.
-/
import Minfer.Convert.Checkpoint
import Minfer.Gguf.Proofs.Roundtrip
import Minfer.Lib.Except

namespace Minfer.Convert

open Minfer.Gguf
    (Text GgmlType GgufKv GgufWriter TensorSpec WriteError encodeHeader ggmlPad
      neList resizeZero)
open Minfer.Lib
    (Json SortedMap leBytes leNat bind_eq_ok bind_eq_error mapError_eq_ok
      mapError_eq_error
  elim_eq_error)

variable {P : Type} {env : Env P}

-- ================================ spec

/-- A tensor of a file: its dimensions go on with ones. -/
@[ext]
structure Stored where
  name : Text
  dims : Nat → Int
  type : GgmlType
  payload : List UInt8

/-- What is written with a spec. -/
def storedAs (p : TensorSpec × List UInt8) : Stored :=
  ⟨p.1.name, fun j => (neList p.1.ne).getD j 1, p.1.type, p.2⟩

/-- A file that holds tensors one after another. -/
def Laid (kv : List GgufKv) (written : List (TensorSpec × List UInt8))
    (file : List UInt8) : Prop :=
  ∃ header, encodeHeader (Gguf.dropSplitKeys kv) (written.map (·.1)) 32 = .ok header
    ∧ file = resizeZero header (ggmlPad header.length 32)
      ++ written.flatMap fun p =>
        p.2 ++ List.replicate (ggmlPad p.1.nbytes 32 - p.1.nbytes) 0

/-- An element converted by itself. -/
def convertElement (half : Half) (dtype : HfDtype) (target : GgmlType)
    (c : List UInt8) : List UInt8 :=
  match dtype, target with
  | .f16, .f16 | .f32, .f32 => c
  | _, .f32 => leBytes 4 (decodeElement half dtype c)
  | _, .bf16 => leBytes 2 (f32ToBf16Bits (decodeElement half dtype c))
  | _, _ => leBytes 2 (half.fromF32 (decodeElement half dtype c))

/-- The bytes a header entry stands for. -/
def shardBytes (sf : SafeFile) (start stop : Nat) : List UInt8 :=
  (sf.bytes.drop (sf.dataOffset + start)).take (stop - start)

/-- A tensor entry of a header, and its shard. -/
structure Entry where
  file : Nat
  name : Text
  json : Json

/-- A tensor that is not meant to be left out. -/
def isTensor (e : Text × Json) : Bool :=
  decide (e.1 ≠ "__metadata__".toList) && !isRotary e.1

/-- The tensor entries of the headers, but for those meant to be left out. -/
def entriesFrom (env : Env P) : Nat → List SafeFile → List Entry
  | _, [] => []
  | file, sf :: rest =>
      (((headerMembers env file sf).toOption.getD []).filter isTensor).map
        (fun e => ⟨file, e.1, e.2⟩)
        ++ entriesFrom env (file + 1) rest

/-- What the file should hold of an entry: the mapped name, the reversed
shape, and the shard's bytes converted element by element. -/
def wanted (half : Half) (out : OutType) (nLayer : Int) (files : List SafeFile)
    (e : Entry) : Option Stored := do
  let found ← (readMeta e.file e.name e.json).toOption
  let name ← mapTensorName e.name nLayer
  let sf ← files[e.file]?
  let target := out.tensorType found.shape.length
  some ⟨name, fun j => found.shape.reverse.getD j 1, target,
    (chunksExact found.dtype.elemSize (shardBytes sf found.start found.stop)).flatMap
      (convertElement half found.dtype target)⟩

/-- A planned tensor with its converted bytes. -/
def convertOne (half : Half) (ckpt : HfCheckpoint)
    (x : HfTensor × GgmlType × TensorSpec) :
    Except ConvertError (TensorSpec × List UInt8) := do
  let src ← ckpt.read x.1
  return (x.2.2, convertBytesGgml half x.1.dtype x.2.1 src)

/-- What is written. -/
def Conversion.written (half : Half) (conv : Conversion) :
    Except ConvertError (List (TensorSpec × List UInt8)) :=
  (conv.ckpt.tensors.zip (conv.targets.zip conv.specs)).mapM
    (convertOne half conv.ckpt)

/-- Every tensor entry is in the file once, with its name, its shape and its
bytes. -/
def Faithful (env : Env P) (out : OutType) (nLayer : Int) (conv : Conversion)
    (file : List UInt8) : Prop :=
  ∃ written, conv.written env.half = .ok written ∧ Laid conv.kv written file
    ∧ (written.map fun p => some (storedAs p)).Perm
      ((entriesFrom env 0 conv.ckpt.files).map
        (wanted env.half out nLayer conv.ckpt.files))

-- ========================== conversion

variable {src : List UInt8} {entry : Json} {file : Nat} {nLayer : Int}
  {name : Text} {found : SortedMap Text HfTensor}
  {members : List (Text × Json)} {files : List SafeFile} {sf : SafeFile}
  {out : OutType} {half : Half} {e : ConvertError}

theorem flatten_chunksExact {n : Nat} (hn : 0 < n) (h : n ∣ src.length) :
    (chunksExact n src).flatten = src := by
  obtain ⟨k, hk⟩ := h
  have hcount : src.length / n = k := by rw [hk, Nat.mul_div_cancel_left k hn]
  rw [chunksExact, hcount]
  have hfirst : ∀ j ≤ k,
      ((List.range j).map fun i => (src.drop (i * n)).take n).flatten
      = src.take (j * n) := by
    intro j hj
    induction j with
    | zero => simp
    | succ j ih =>
        rw [List.range_succ, List.map_append, List.flatten_append,
          ih (by omega), List.map_singleton,
          List.flatten_singleton, Nat.succ_mul, List.take_add]
  rw [hfirst k le_rfl, List.take_of_length_le]
  rw [hk, Nat.mul_comm]

theorem elemSize_pos (dtype : HfDtype) : 0 < dtype.elemSize := by
  cases dtype <;> decide

/-- `convert_bytes` goes element by element. -/
theorem convertBytesGgml_eq (half : Half) (dtype : HfDtype) (out : OutType)
    (ndims : Nat) (h : dtype.elemSize ∣ src.length) :
    convertBytesGgml half dtype (out.tensorType ndims) src
      = (chunksExact dtype.elemSize src).flatMap
        (convertElement half dtype (out.tensorType ndims)) := by
  have hsame : (chunksExact dtype.elemSize src).flatMap (fun c => c) = src := by
    rw [List.flatMap_id', flatten_chunksExact (elemSize_pos dtype) h]
  have htarget : out.tensorType ndims = .f32 ∨ out.tensorType ndims = .f16
      ∨ out.tensorType ndims = .bf16 := by
    unfold OutType.tensorType
    split
    · exact .inl rfl
    · cases out <;> simp [OutType.ggmlType]
  rcases htarget with htarget | htarget | htarget <;> rw [htarget] <;> cases dtype <;>
    first | rfl | exact hsame.symm

-- ============================= entries

/-- The tensor read off an entry. -/
def ReadAs (nLayer : Int) (e : Entry) (p : Text × HfTensor) : Prop :=
  p.1 = e.name ∧ readEntry nLayer e.file e.name e.json = .ok p.2

/-- A tensor is what its entry says, under the mapped name. -/
theorem readEntry_eq_ok {t : HfTensor} :
    readEntry nLayer file name entry = .ok t
      ↔ ∃ found, readMeta file name entry = .ok found
      ∧ mapTensorName name nLayer = some t.ggufName
      ∧ t = ⟨t.ggufName, found.shape, found.dtype, file, found.start,
        found.stop⟩ := by
  rw [readEntry, bind_eq_ok]
  apply exists_congr
  intro found
  apply and_congr_right
  intro _
  cases hname : mapTensorName name nLayer with
  | none => simp
  | some ggufName =>
      constructor
      · intro h
        cases h
        exact ⟨rfl, rfl⟩
      · rintro ⟨h, ht⟩
        cases h
        exact congrArg Except.ok ht.symm

theorem mapTensorName_rotary (h : isRotary name = true) :
    mapTensorName name nLayer = none := by
  rw [mapTensorName, if_pos h]

/-- A header that is read through: its tensor entries go into the map, one
after another. -/
theorem readEntries_eq_ok {found' : SortedMap Text HfTensor}
    (h : readEntries nLayer file found members = .ok found') :
    ∃ ts, found' = found.insertAll ts ∧ List.Forall₂ (ReadAs nLayer)
      ((members.filter isTensor).map fun e => ⟨file, e.1, e.2⟩) ts := by
  induction members generalizing found with
  | nil =>
      cases h
      exact ⟨[], rfl, .nil⟩
  | cons e members ih =>
      obtain ⟨name, entry⟩ := e
      rw [readEntries] at h
      by_cases hmeta : name = "__metadata__".toList
      · rw [if_pos hmeta] at h
        obtain ⟨ts, hts, hread⟩ := ih h
        refine ⟨ts, hts, ?_⟩
        have hskip : isTensor (name, entry) = false := by
          rw [isTensor, hmeta]
          rfl
        rwa [List.filter_cons, hskip]
      · rw [if_neg hmeta] at h
        obtain ⟨t, ht, h⟩ := bind_eq_ok.1 h
        obtain ⟨ts, hts, hread⟩ := ih h
        have hrotary : isRotary name = false := by
          by_contra hrotary
          obtain ⟨-, -, hname, -⟩ := readEntry_eq_ok.1 ht
          rw [mapTensorName_rotary (by simpa using hrotary)] at hname
          cases hname
        refine ⟨(name, t) :: ts, hts, ?_⟩
        have htensor : isTensor (name, entry) = true := by
          rw [isTensor, decide_eq_true hmeta, hrotary]
          rfl
        rw [List.filter_cons, htensor]
        exact .cons ⟨rfl, ht⟩ hread

theorem readHeaders_eq_ok {found' : SortedMap Text HfTensor}
    (h : readHeaders env nLayer file found files = .ok found') :
    ∃ ts, found' = found.insertAll ts
      ∧ List.Forall₂ (ReadAs nLayer) (entriesFrom env file files) ts := by
  induction files generalizing file found with
  | nil =>
      cases h
      exact ⟨[], rfl, .nil⟩
  | cons sf files ih =>
      rw [readHeaders] at h
      obtain ⟨members, hmembers, h⟩ := bind_eq_ok.1 h
      obtain ⟨found₁, hfound₁, h⟩ := bind_eq_ok.1 h
      obtain ⟨ts, rfl, hread⟩ := readEntries_eq_ok hfound₁
      obtain ⟨ts', rfl, hread'⟩ := ih h
      refine ⟨ts ++ ts', ?_, ?_⟩
      · rw [SortedMap.insertAll, SortedMap.insertAll, SortedMap.insertAll,
          List.foldl_append]
      · rw [entriesFrom, hmembers]
        exact List.rel_append hread hread'

theorem entriesFrom_file {e : Entry} (h : e ∈ entriesFrom env file files) :
    file ≤ e.file ∧ ∃ sf, files[e.file - file]? = some sf := by
  induction files generalizing file with
  | nil => cases h
  | cons sf files ih =>
      rw [entriesFrom, List.mem_append] at h
      rcases h with h | h
      · obtain ⟨member, -, rfl⟩ := List.mem_map.1 h
        exact ⟨le_rfl, sf, by simp⟩
      · obtain ⟨hle, sf', hsf'⟩ := ih h
        refine ⟨by omega, sf', ?_⟩
        rw [show e.file - file = e.file - (file + 1) + 1 by omega,
          List.getElem?_cons_succ]
        exact hsf'

-- ============================== shards

/-- The data section of a shard is what its header leaves of the file. -/
def Opened (sf : SafeFile) : Prop := sf.dataOffset + sf.dataLen = sf.bytes.length

theorem opened_fromBytes {bytes : List UInt8}
    (h : SafeFile.fromBytes file bytes = .ok sf) : Opened sf := by
  rw [SafeFile.fromBytes] at h
  split at h
  · cases h
  · dsimp only at h
    split at h
    · cases h
    · split at h
      · cases h
      · cases h
        simp only [Opened]
        omega

theorem opened_shards {paths : List P}
    (h : openShards env file paths = .ok files) : ∀ sf ∈ files, Opened sf := by
  induction paths generalizing file files with
  | nil =>
      cases h
      simp
  | cons path paths ih =>
      rw [openShards] at h
      obtain ⟨bytes, -, h⟩ := bind_eq_ok.1 h
      obtain ⟨sf, hsf, h⟩ := bind_eq_ok.1 h
      obtain ⟨rest, hrest, h⟩ := bind_eq_ok.1 h
      cases h
      exact List.forall_mem_cons.2 ⟨opened_fromBytes hsf, ih hrest⟩

/-- A range that is read is the shard's bytes there, all of them. -/
theorem readRange_eq_ok {start stop : Nat} (hsf : Opened sf)
    (h : sf.readRange file start stop = .ok src) :
    src = shardBytes sf start stop ∧ src.length = stop - start := by
  rw [SafeFile.readRange] at h
  split at h
  · cases h
  next hrange =>
    cases h
    refine ⟨rfl, ?_⟩
    rw [List.length_take, List.length_drop]
    simp only [Opened] at hsf
    omega

theorem elemSize_dvd_neededBytes (shape : List Int) (dtype : HfDtype) :
    dtype.elemSize ∣ neededBytes shape dtype := by
  have hwrap : dtype.elemSize ∣ 2 ^ 64 := by
    cases dtype
    · exact ⟨2 ^ 63, rfl⟩
    · exact ⟨2 ^ 63, rfl⟩
    · exact ⟨2 ^ 62, rfl⟩
  rw [neededBytes, Gguf.wrap64, Nat.dvd_mod_iff hwrap]
  exact Nat.dvd_mul_left ..

theorem readMeta_span {found : Meta}
    (h : readMeta file name entry = .ok found) :
    found.dtype.elemSize ∣ found.stop - found.start := by
  rw [readMeta] at h
  obtain ⟨dtypeName, -, h⟩ := bind_eq_ok.1 h
  obtain ⟨dtype, -, h⟩ := bind_eq_ok.1 h
  obtain ⟨shape, -, h⟩ := bind_eq_ok.1 h
  obtain ⟨offs, -, h⟩ := bind_eq_ok.1 h
  split at h
  · split at h
    · cases h
    · split at h
      · cases h
      next hspan =>
        cases h
        rw [ne_eq, not_not] at hspan
        show dtype.elemSize ∣ _ - _
        rw [hspan]
        exact elemSize_dvd_neededBytes ..
  · cases h

-- ================================ plan

/-- What a plan is made of: the shards, and the tensors in the order of the map. -/

structure Planned [LinearOrder P] (env : Env P) (out : OutType)
    (conv : Conversion) (nLayer : Int)
    (ts : List (Text × HfTensor)) : Prop where
  config : env.config = .ok nLayer
  shards : shards env = .ok conv.ckpt.files
  read : List.Forall₂ (ReadAs nLayer) (entriesFrom env 0 conv.ckpt.files) ts
  tensors : conv.ckpt.tensors = (SortedMap.insertAll .empty ts).entries.map (·.2)
  specs : conv.specs = conv.ckpt.tensors.map fun t =>
    ⟨t.ggufName, neOf t.shape, out.tensorType t.shape.length⟩
  targets : conv.targets = conv.ckpt.tensors.map fun t =>
    out.tensorType t.shape.length

theorem plan_eq_ok [LinearOrder P] {conv : Conversion}
    (h : plan env out = .ok conv) :
    ∃ nLayer ts, Planned env out conv nLayer ts := by
  rw [plan] at h
  obtain ⟨nLayer, hconfig, h⟩ := bind_eq_ok.1 h
  obtain ⟨ckpt, hopen, h⟩ := bind_eq_ok.1 h
  split at h
  · cases h
  · obtain ⟨kv, -, h⟩ := bind_eq_ok.1 h
    cases h
    rw [openCheckpoint] at hopen
    obtain ⟨files, hshards, hopen⟩ := bind_eq_ok.1 hopen
    obtain ⟨found, hfound, hopen⟩ := bind_eq_ok.1 hopen
    cases hopen
    obtain ⟨ts, rfl, hread⟩ := readHeaders_eq_ok hfound
    exact ⟨nLayer, ts, mapError_eq_ok.1 hconfig, hshards, hread, rfl, rfl, rfl⟩

theorem Planned.opened [LinearOrder P] {conv : Conversion}
    {ts : List (Text × HfTensor)} (h : Planned env out conv nLayer ts) :
    ∀ sf ∈ conv.ckpt.files, Opened sf := by
  obtain ⟨paths, -, hopen⟩ := bind_eq_ok.1 h.shards
  exact opened_shards hopen

/-- The bytes of a tensor, converted element by element. -/
def payloadOf (half : Half) (out : OutType) (files : List SafeFile)
    (t : HfTensor) : List UInt8 :=
  (files[t.file]?).elim [] fun sf =>
    (chunksExact t.dtype.elemSize (shardBytes sf t.start t.stop)).flatMap
    (convertElement half t.dtype (out.tensorType t.shape.length))

/-- A tensor with the whole of its shape. -/
def wholeOf (half : Half) (out : OutType) (files : List SafeFile)
    (t : HfTensor) : Stored :=
  ⟨t.ggufName, fun j => t.shape.reverse.getD j 1,
    out.tensorType t.shape.length, payloadOf half out files t⟩

/-- A tensor as the plan has it. -/
def plannedOf (half : Half) (out : OutType) (files : List SafeFile)
    (t : HfTensor) : Stored :=
  ⟨t.ggufName, fun j => (neList (neOf t.shape)).getD j 1,
    out.tensorType t.shape.length, payloadOf half out files t⟩

/-- The shape has no more than four dimensions, but for ones. -/
def FourDims (shape : List Int) : Prop := ∀ d ∈ shape.reverse.drop 4, d = 1

theorem neList_getD (shape : List Int) {j : Nat} (hj : j < 4) :
    (neList (neOf shape)).getD j 1 = shape.reverse.getD j 1 := by
  rcases j with _ | _ | _ | _ | j
  · rfl
  · rfl
  · rfl
  · rfl
  · omega

theorem neList_getD_of_le (shape : List Int) {j : Nat} (hj : 4 ≤ j) :
    (neList (neOf shape)).getD j 1 = 1 := by
  rw [List.getD_eq_getElem?_getD,
    List.getElem?_eq_none (by simpa [neList] using hj), Option.getD_none]

theorem fourDims_of {shape : List Int}
    (h : ∀ j, 4 ≤ j → shape.reverse.getD j 1 = 1) : FourDims shape := by
  intro d hd
  obtain ⟨j, hj⟩ := List.getElem?_of_mem hd
  rw [List.getElem?_drop] at hj
  have hdim := h (4 + j) (by omega)
  rwa [List.getD_eq_getElem?_getD, hj] at hdim

/-- The plan keeps the shape exactly when nothing but ones is cut off. -/
theorem dims_eq_iff {shape : List Int} :
    ((fun j => (neList (neOf shape)).getD j 1) = fun j =>
      shape.reverse.getD j 1) ↔ FourDims shape := by
  constructor
  · intro h
    apply fourDims_of
    intro j hj
    have hdim : (neList (neOf shape)).getD j 1 = shape.reverse.getD j 1 :=
      congrFun h j
    rw [← hdim, neList_getD_of_le _ hj]
  · intro h
    funext j
    by_cases hj : j < 4
    · exact neList_getD shape hj
    · rw [neList_getD_of_le _ (by omega), List.getD_eq_getElem?_getD]
      cases hd : shape.reverse[j]? with
      | none => rfl
      | some d =>
          apply (h d _).symm
          apply List.mem_of_getElem? (i := j - 4)
          rw [List.getElem?_drop, show 4 + (j - 4) = j by omega, hd]

theorem plannedOf_eq_iff {t : HfTensor} :
    plannedOf half out files t = wholeOf half out files t ↔ FourDims t.shape := by
  rw [← dims_eq_iff, plannedOf, wholeOf, Stored.mk.injEq]
  simp only [true_and, and_true]

theorem wanted_eq {e : Entry} {p : Text × HfTensor} (hread : ReadAs nLayer e p)
    (hsf : files[e.file]? = some sf) :
    wanted half out nLayer files e = some (wholeOf half out files p.2) := by
  obtain ⟨found, hmeta, hname, ht⟩ := readEntry_eq_ok.1 hread.2
  rw [wholeOf, payloadOf, wanted, hmeta, hname, hsf, ht, hsf]
  rfl

/-- What is written for a tensor that was read. -/
theorem written_of_read {ckpt : HfCheckpoint}
    (hopened : ∀ sf ∈ ckpt.files, Opened sf) {e : Entry} {p : Text × HfTensor}
    (hread : ReadAs nLayer e p) (h : ckpt.read p.2 = .ok src) :
    convertBytesGgml half p.2.dtype (out.tensorType p.2.shape.length) src
      = payloadOf half out ckpt.files p.2 := by
  obtain ⟨found, hmeta, -, ht⟩ := readEntry_eq_ok.1 hread.2
  rw [HfCheckpoint.read] at h
  rw [payloadOf]
  cases hsf : ckpt.files[p.2.file]? with
  | none =>
      rw [hsf] at h
      cases h
  | some sf =>
      rw [hsf] at h
      obtain ⟨hsrc, hlen⟩ := readRange_eq_ok (hopened sf (List.mem_of_getElem? hsf)) h
      have hdvd : p.2.dtype.elemSize ∣ src.length := by
        rw [hlen, ht]
        exact readMeta_span hmeta
      rw [convertBytesGgml_eq half p.2.dtype out p.2.shape.length hdvd, hsrc]
      rfl

-- ============================= writing

/-- The writer's loop: every payload is read and written behind what is there. -/

theorem writeTensors_eq_ok {ckpt : HfCheckpoint}
    {l : List (HfTensor × GgmlType × TensorSpec)}
    {w w' : GgufWriter} (h : writeTensors half ckpt w l = .ok w') :
    ∃ written : List (TensorSpec × List UInt8),
      l.mapM (convertOne half ckpt) = .ok written
      ∧ written.map (·.1) = l.map (·.2.2)
      ∧ w'.out = w.out ++ written.flatMap fun p =>
        p.2 ++ List.replicate (ggmlPad p.1.nbytes w.alignment - p.1.nbytes) 0 := by
  induction l generalizing w with
  | nil =>
      cases h
      exact ⟨[], rfl, rfl, (List.append_nil _).symm⟩
  | cons x l ih =>
      obtain ⟨t, target, spec⟩ := x
      rw [writeTensors] at h
      obtain ⟨src, hsrc, h⟩ := bind_eq_ok.1 h
      obtain ⟨w₁, hw₁, h⟩ := bind_eq_ok.1 h
      rw [mapError_eq_ok, GgufWriter.writeTensorData] at hw₁
      split at hw₁
      · cases hw₁
      cases hw₁
      obtain ⟨written, hwritten, hspecs, hout⟩ := ih h
      refine ⟨(spec, convertBytesGgml half t.dtype target src) :: written, ?_, ?_, ?_⟩
      · have hone : convertOne half ckpt (t, target, spec)
            = .ok (spec, convertBytesGgml half t.dtype target src) := by
          rw [convertOne, hsrc]
          rfl
        rw [List.mapM_cons, hwritten, hone]
        rfl
      · rw [List.map_cons, hspecs, List.map_cons]
      · rw [hout, List.flatMap_cons]
        simp only [List.append_assoc]

theorem writeSingle_eq_ok {conv : Conversion} {file : List UInt8}
    (hspecs : conv.specs.length = conv.ckpt.tensors.length)
    (htargets : conv.targets.length = conv.ckpt.tensors.length)
    (h : conv.writeSingle half = .ok file) :
    ∃ written, conv.written half = .ok written ∧ Laid conv.kv written file := by
  rw [Conversion.writeSingle] at h
  obtain ⟨w, hcreate, hrun⟩ := bind_eq_ok.1 h
  obtain ⟨w', hloop, hfinish⟩ := bind_eq_ok.1 hrun
  rw [mapError_eq_ok] at hcreate hfinish
  have hfile : w'.out = file := by
    unfold GgufWriter.finish at hfinish
    split at hfinish
    · cases hfinish
    · exact Except.ok.inj hfinish
  rw [GgufWriter.create] at hcreate
  obtain ⟨-, -, hcreate⟩ := bind_eq_ok.1 hcreate
  split at hcreate
  · cases hcreate
  obtain ⟨header, hheader, hcreate⟩ := bind_eq_ok.1 hcreate
  cases hcreate
  obtain ⟨written, hwritten, hnames, hout⟩ := writeTensors_eq_ok hloop
  refine ⟨written, hwritten, header, ?_, hfile ▸ hout⟩
  rw [hnames, ← hheader]
  congr 1
  rw [show (fun x : HfTensor × GgmlType × TensorSpec => x.2.2)
    = Prod.snd ∘ Prod.snd from rfl, ← List.map_map,
    List.map_snd_zip, List.map_snd_zip]
  · omega
  · rw [List.length_zip]
    omega

theorem forall₂_mem_right {α β : Type} {R : α → β → Prop} {l : List α}
    {r : List β} (h : List.Forall₂ R l r) {b : β}
    (hb : b ∈ r) : ∃ a ∈ l, R a b := by
  induction h with
  | nil => cases hb
  | cons hab _ ih =>
      rcases List.mem_cons.1 hb with rfl | hb
      · exact ⟨_, List.mem_cons_self, hab⟩
      · obtain ⟨a, ha, hab⟩ := ih hb
        exact ⟨a, List.mem_cons_of_mem _ ha, hab⟩

theorem forall₂_map_eq {α β γ : Type} {R : α → β → Prop} {f : α → γ}
    {g : β → γ} {l : List α} {r : List β}
    (h : List.Forall₂ R l r) (heq : ∀ a ∈ l, ∀ b, R a b → g b = f a) :
    r.map g = l.map f := by
  induction h with
  | nil => rfl
  | cons hab _ ih =>
      rw [List.forall_mem_cons] at heq
      rw [List.map_cons, List.map_cons, heq.1 _ hab, ih heq.2]

section Plan

variable [LinearOrder P] {out : OutType} {conv : Conversion} {nLayer : Int}
  {ts : List (Text × HfTensor)}

theorem Planned.mem_tensors (h : Planned env out conv nLayer ts) {t : HfTensor}
    (ht : t ∈ conv.ckpt.tensors) :
    ∃ e p, ReadAs nLayer e p ∧ p.2 = t := by
  rw [h.tensors] at ht
  obtain ⟨p, hp, rfl⟩ := List.mem_map.1 ht
  rcases SortedMap.mem_of_mem_insertAll hp with hnone | hp
  · cases hnone
  · obtain ⟨e, -, hread⟩ := forall₂_mem_right h.read hp
    exact ⟨e, p, hread, rfl⟩

/-- The written tensors are the planned ones. -/
theorem Planned.written_eq (h : Planned env out conv nLayer ts) {half : Half}
    {written : List (TensorSpec × List UInt8)}
    (hwritten : conv.written half = .ok written) :
    written.map storedAs
      = conv.ckpt.tensors.map (plannedOf half out conv.ckpt.files) := by
  have hzip : conv.ckpt.tensors.zip (conv.targets.zip conv.specs)
      = conv.ckpt.tensors.map fun t =>
      (t, out.tensorType t.shape.length,
          ⟨t.ggufName, neOf t.shape, out.tensorType t.shape.length⟩) := by
    rw [h.specs, h.targets, List.zip_map']
    have hself :=
      List.zip_map' (f := id) (g :=
        fun t : HfTensor => (out.tensorType t.shape.length,
      (⟨t.ggufName, neOf t.shape, out.tensorType t.shape.length⟩ :
        TensorSpec))) (l := conv.ckpt.tensors)
    rwa [List.map_id] at hself
  rw [Conversion.written, hzip] at hwritten
  rw [forall₂_map_eq (f := fun x => plannedOf half out conv.ckpt.files x.1)
    (Lib.mapM_eq_ok hwritten), List.map_map]
  · rfl
  · intro x hx p hp
    obtain ⟨t, ht, rfl⟩ := List.mem_map.1 hx
    obtain ⟨e, q, hread, rfl⟩ := h.mem_tensors ht
    obtain ⟨src, hsrc, hp⟩ := bind_eq_ok.1 hp
    cases hp
    rw [storedAs, plannedOf, written_of_read h.opened hread hsrc]

theorem Planned.wanted_eq (h : Planned env out conv nLayer ts) (half : Half) :
    (entriesFrom env 0 conv.ckpt.files).map (wanted half out nLayer conv.ckpt.files)
      = ts.map fun p => some (wholeOf half out conv.ckpt.files p.2) := by
  symm
  apply forall₂_map_eq h.read
  intro e he p hread
  obtain ⟨-, sf, hsf⟩ := entriesFrom_file he
  exact (Convert.wanted_eq hread hsf).symm

/-- No name stands in two headers, or twice in one. -/
def Distinct (env : Env P) (files : List SafeFile) : Prop :=
  ((entriesFrom env 0 files).map Entry.name).Nodup

/-- No shape has dimensions beyond the fourth, but for ones. -/
def Shallow (env : Env P) (files : List SafeFile) : Prop :=
  ∀ e ∈ entriesFrom env 0 files, ∀ found, readMeta e.file e.name e.json
    = .ok found → FourDims found.shape

theorem Planned.names (h : Planned env out conv nLayer ts) :
    ts.map Prod.fst = (entriesFrom env 0 conv.ckpt.files).map Entry.name :=
  forall₂_map_eq h.read fun _ _ _ hread => hread.1

theorem Planned.shallow_iff (h : Planned env out conv nLayer ts) :
    Shallow env conv.ckpt.files ↔ ∀ p ∈ ts, FourDims p.2.shape := by
  constructor
  · intro hshallow p hp
    obtain ⟨e, he, hread⟩ := forall₂_mem_right h.read hp
    obtain ⟨found, hmeta, -, ht⟩ := readEntry_eq_ok.1 hread.2
    rw [ht]
    exact hshallow e he found hmeta
  · intro hall e he found hmeta
    obtain ⟨p, hp, hread⟩ := forall₂_mem_right h.read.flip he
    obtain ⟨found', hmeta', -, ht⟩ := readEntry_eq_ok.1 hread.2
    rw [hmeta] at hmeta'
    cases hmeta'
    have hdims := hall p hp
    rwa [ht] at hdims

/-- A file that was written holds every tensor once exactly when the names are
distinct and nothing but ones is cut off a shape. -/
theorem Planned.faithful_iff (h : Planned env out conv nLayer ts)
    {file : List UInt8} (hfile : conv.writeSingle env.half = .ok file) :
    Faithful env out nLayer conv file ↔ Distinct env conv.ckpt.files
      ∧ Shallow env conv.ckpt.files := by
  obtain ⟨written, hwritten, hlaid⟩ :=
    writeSingle_eq_ok (by rw [h.specs, List.length_map])
    (by rw [h.targets, List.length_map]) hfile
  have hmap : written.map (fun p => some (storedAs p))
      = conv.ckpt.tensors.map fun t =>
        some (plannedOf env.half out conv.ckpt.files t) := by
    have := congrArg (List.map some) (h.written_eq hwritten)
    rwa [List.map_map, List.map_map] at this
  rw [Distinct, ← h.names, h.shallow_iff]
  constructor
  · rintro ⟨written', hwritten', -, hperm⟩
    rw [hwritten] at hwritten'
    cases hwritten'
    rw [hmap, h.wanted_eq, h.tensors, List.map_map] at hperm
    have hlength := hperm.length_eq
    rw [List.length_map, List.length_map] at hlength
    refine ⟨SortedMap.nodup_of_length hlength, fun p hp => ?_⟩
    have hmem := hperm.mem_iff.2 (List.mem_map_of_mem hp)
    obtain ⟨q, -, hq⟩ := List.mem_map.1 hmem
    apply fourDims_of
    intro j hj
    have hdim : (neList (neOf q.2.shape)).getD j 1 = p.2.shape.reverse.getD j 1 :=
      congrFun (congrArg Stored.dims (Option.some.inj hq)) j
    rw [← hdim, neList_getD_of_le _ hj]
  · rintro ⟨hnodup, hfour⟩
    refine ⟨written, hwritten, hlaid, ?_⟩
    rw [hmap, h.wanted_eq, h.tensors, List.map_map]
    have hperm := (SortedMap.perm_of_nodup hnodup).map fun p =>
      some (plannedOf env.half out conv.ckpt.files p.2)
    refine hperm.trans (.of_eq (List.map_congr_left fun p hp => ?_))
    rw [plannedOf_eq_iff.2 (hfour p hp)]

end Plan

-- ============================ refusals

/-- An entry of a header that may stay. -/
def kept (e : Text × Json) : Bool := !isRotary e.1

/-- A header without the entries that are meant to be left out. -/
def dropRotary : Json → Json
  | .object members => .object (members.filter kept)
  | v => v

/-- The same directory with these entries gone from its headers. -/
def Env.withoutRotary (env : Env P) : Env P :=
  { env with fromSlice := fun bytes => (env.fromSlice bytes).map dropRotary }

/-- The tensor that an error names. -/
def ConvertError.tensor : ConvertError → Option Text
  | noDtype _ name | dtype name _ | noShape _ name | noOffsets _ name
  | badOffsets _ name _ | span _ name _ _ _ | unknownTensor name => some name
  | _ => none

/-- A header entry that stops nothing. -/
def EntryOk (nLayer : Int) (file : Nat) (e : Text × Json) : Prop :=
  e.1 = "__metadata__".toList ∨ ∃ t, readEntry nLayer file e.1 e.2 = .ok t

/-- In a header, an entry meant to be left out, behind entries that stop
nothing. -/
def RotaryIn (nLayer : Int) (file : Nat) (members : List (Text × Json))
    (name : Text) : Prop :=
  ∃ before entry after, members = before ++ (name, entry) :: after
    ∧ (∀ e ∈ before, EntryOk nLayer file e) ∧ isRotary name = true

/-- Such an entry in one of the shards from `file` on, behind shards that stop
nothing. -/
inductive RotaryAmong (env : Env P) (nLayer : Int) (name : Text) :
    Nat → List SafeFile → Prop where
  | here {file : Nat} {sf : SafeFile} {rest : List SafeFile}
      {members : List (Text × Json)} :
      headerMembers env file sf = .ok members →
      RotaryIn nLayer file members name →
      RotaryAmong env nLayer name file (sf :: rest)
  | later {file : Nat} {sf : SafeFile} {rest : List SafeFile}
      {members : List (Text × Json)} :
      headerMembers env file sf = .ok members →
      (∀ e ∈ members, EntryOk nLayer file e) →
      RotaryAmong env nLayer name (file + 1) rest →
      RotaryAmong env nLayer name file (sf :: rest)

/-- The first entry of the checkpoint that is not in order is one that is meant
to be left out. -/
def RotaryReached [LinearOrder P] (env : Env P) : Prop :=
  ∃ nLayer files name, env.config = .ok nLayer ∧ shards env = .ok files
    ∧ RotaryAmong env nLayer name 0 files

theorem metadata_not_rotary : isRotary "__metadata__".toList = false := by
  decide

/-- What the fields of an entry are refused with names the entry. -/
theorem readMeta_names (h : readMeta file name entry = .error e) :
    e.tensor = some name := by
  rw [readMeta] at h
  rcases bind_eq_error.1 h with h | ⟨dtypeName, -, h⟩
  · rw [← (elim_eq_error.1 h).2, ConvertError.tensor]
  rcases bind_eq_error.1 h with h | ⟨dtype, -, h⟩
  · rw [← (elim_eq_error.1 h).2, ConvertError.tensor]
  rcases bind_eq_error.1 h with h | ⟨shape, -, h⟩
  · rw [← (elim_eq_error.1 h).2, ConvertError.tensor]
  rcases bind_eq_error.1 h with h | ⟨offs, -, h⟩
  · rw [← (elim_eq_error.1 h).2, ConvertError.tensor]
  split at h
  · split at h
    · cases h
      rfl
    · split at h
      · cases h
        rfl
      · cases h
  · cases h
    rfl

/-- So does what the entry is refused with. -/
theorem readEntry_names (h : readEntry nLayer file name entry = .error e) :
    e.tensor = some name := by
  rcases bind_eq_error.1 h with h | ⟨found, -, h⟩
  · exact readMeta_names h
  · cases hname : mapTensorName name nLayer with
    | none =>
        rw [hname] at h
        cases h
        rfl
    | some ggufName =>
        rw [hname] at h
        cases h

/-- An entry that is meant to be left out is refused, whatever its fields. -/
theorem readEntry_rotary (hrotary : isRotary name = true) :
    ∃ e, readEntry nLayer file name entry = .error e := by
  cases h : readEntry nLayer file name entry with
  | error e => exact ⟨e, rfl⟩
  | ok t =>
      obtain ⟨-, -, hname, -⟩ := readEntry_eq_ok.1 h
      rw [mapTensorName_rotary hrotary] at hname
      cases hname

theorem rotaryIn_cons {e : Text × Json} :
    RotaryIn nLayer file (e :: members) name
      ↔ (e.1 = name ∧ isRotary name = true)
        ∨ EntryOk nLayer file e ∧ RotaryIn nLayer file members name := by
  constructor
  · rintro ⟨before, entry, after, hmembers, hbefore, hrotary⟩
    cases before with
    | nil =>
        cases hmembers
        exact .inl ⟨rfl, hrotary⟩
    | cons b before =>
        cases hmembers
        rw [List.forall_mem_cons] at hbefore
        exact .inr ⟨hbefore.1, before, entry, after, rfl, hbefore.2, hrotary⟩
  · rintro (⟨rfl, hrotary⟩ | ⟨hok, before, entry, after, rfl, hbefore, hrotary⟩)
    · exact ⟨[], e.2, members, rfl, by simp, hrotary⟩
    · exact ⟨e :: before, entry, after, rfl,
        List.forall_mem_cons.2 ⟨hok, hbefore⟩, hrotary⟩

/-- An entry that is meant to be left out, behind entries that stop nothing,
stops the loop. -/
theorem readEntries_rotary (h : RotaryIn nLayer file members name) :
    ∃ e, readEntries nLayer file found members = .error e
      ∧ e.tensor = some name := by
  induction members generalizing found with
  | nil =>
      obtain ⟨before, entry, after, h, -⟩ := h
      simp at h
  | cons member members ih =>
      obtain ⟨name', entry⟩ := member
      rw [readEntries]
      rcases rotaryIn_cons.1 h with ⟨heq, hrotary⟩ | ⟨hok, h⟩
      · obtain rfl : name' = name := heq
        have hmeta : name' ≠ "__metadata__".toList := by
          rintro rfl
          rw [metadata_not_rotary] at hrotary
          cases hrotary
        obtain ⟨e, he⟩ : ∃ e, readEntry nLayer file name' entry = .error e :=
          readEntry_rotary hrotary
        rw [if_neg hmeta]
        exact ⟨e, bind_eq_error.2 (.inl he), readEntry_names he⟩
      · by_cases hmeta : name' = "__metadata__".toList
        · rw [if_pos hmeta]
          exact ih h
        · obtain ⟨t, ht⟩ := hok.resolve_left hmeta
          obtain ⟨e, he, hname⟩ := ih h
          rw [if_neg hmeta]
          exact ⟨e, bind_eq_error.2 (.inr ⟨t, ht, he⟩), hname⟩

/-- Where no such entry stops it, the loop does what it does without them. -/
theorem readEntries_kept (h : ∀ name, ¬ RotaryIn nLayer file members name) :
    readEntries nLayer file found (members.filter kept)
      = readEntries nLayer file found members := by
  induction members generalizing found with
  | nil => rfl
  | cons member members ih =>
      obtain ⟨name, entry⟩ := member
      have hrotary : isRotary name ≠ true := fun hrotary =>
        h name (rotaryIn_cons.2 (.inl ⟨rfl, hrotary⟩))
      have hkept : kept (name, entry) = true := by
        rw [kept, eq_false_of_ne_true hrotary]
        rfl
      rw [List.filter_cons_of_pos hkept, readEntries, readEntries]
      by_cases hmeta : name = "__metadata__".toList
      · rw [if_pos hmeta, if_pos hmeta]
        exact ih fun name' h' => h name' (rotaryIn_cons.2 (.inr ⟨.inl hmeta, h'⟩))
      · rw [if_neg hmeta, if_neg hmeta]
        cases ht : readEntry nLayer file name entry with
        | error e => rfl
        | ok t =>
            exact ih fun name' h' =>
              h name' (rotaryIn_cons.2 (.inr ⟨.inr ⟨t, ht⟩, h'⟩))

/-- What a header's loop is refused with names one of its entries. -/
theorem readEntries_names
    (h : readEntries nLayer file found members = .error e) :
    ∃ member ∈ members, e.tensor = some member.1 := by
  induction members generalizing found with
  | nil => cases h
  | cons member members ih =>
      obtain ⟨name, entry⟩ := member
      rw [readEntries] at h
      split at h
      · obtain ⟨member, hmem, hname⟩ := ih h
        exact ⟨member, List.mem_cons_of_mem _ hmem, hname⟩
      · rcases bind_eq_error.1 h with h | ⟨t, -, h⟩
        · exact ⟨_, List.mem_cons_self, readEntry_names h⟩
        · obtain ⟨member, hmem, hname⟩ := ih h
          exact ⟨member, List.mem_cons_of_mem _ hmem, hname⟩

theorem readEntries_ok_iff :
    (∃ found', readEntries nLayer file found members = .ok found')
      ↔ ∀ e ∈ members, EntryOk nLayer file e := by
  induction members generalizing found with
  | nil => simp [readEntries]
  | cons e members ih =>
      obtain ⟨name, entry⟩ := e
      rw [readEntries, List.forall_mem_cons]
      by_cases hmeta : name = "__metadata__".toList
      · rw [if_pos hmeta, ih]
        exact (and_iff_right (.inl hmeta)).symm
      · rw [if_neg hmeta]
        constructor
        · rintro ⟨found', h⟩
          obtain ⟨t, ht, h⟩ := bind_eq_ok.1 h
          exact ⟨.inr ⟨t, ht⟩, ih.1 ⟨found', h⟩⟩
        · rintro ⟨hmeta' | ⟨t, ht⟩, hrest⟩
          · exact absurd hmeta' hmeta
          · obtain ⟨found', h⟩ := ih.2 hrest
            exact ⟨found', bind_eq_ok.2 ⟨t, ht, h⟩⟩

/-- The headers without these entries are the headers' other members. -/
theorem headerMembers_withoutRotary :
    headerMembers env.withoutRotary file sf
      = (headerMembers env file sf).map (List.filter kept) := by
  rw [headerMembers, headerMembers, Env.withoutRotary]
  dsimp only
  cases env.fromSlice sf.header with
  | none => rfl
  | some v => cases v <;> rfl

theorem headerMembers_names
    (h : headerMembers env file sf = .error e) : e.tensor = none := by
  rcases bind_eq_error.1 h with h | ⟨header, -, h⟩
  · rw [← (elim_eq_error.1 h).2]
    rfl
  · rw [← (elim_eq_error.1 h).2]
    rfl

/-- Such an entry in a shard, behind shards that stop nothing, stops the
loop over the shards. -/
theorem readHeaders_rotary (h : RotaryAmong env nLayer name file files) :
    ∃ e, readHeaders env nLayer file found files = .error e
      ∧ e.tensor = some name := by
  induction h generalizing found with
  | here hmembers hin =>
      obtain ⟨e, he, hname⟩ := readEntries_rotary hin
      refine ⟨e, ?_, hname⟩
      rw [readHeaders]
      exact bind_eq_error.2 (.inr ⟨_, hmembers, bind_eq_error.2 (.inl he)⟩)
  | later hmembers hall _ ih =>
      obtain ⟨found', hfound⟩ := readEntries_ok_iff.2 hall
      obtain ⟨e, he, hname⟩ := @ih found'
      refine ⟨e, ?_, hname⟩
      rw [readHeaders]
      exact bind_eq_error.2 (.inr ⟨_, hmembers,
        bind_eq_error.2 (.inr ⟨found', hfound, he⟩)⟩)

/-- Where none does, the loop does what it does without them. -/
theorem readHeaders_withoutRotary
    (h : ∀ name, ¬ RotaryAmong env nLayer name file files) :
    readHeaders env.withoutRotary nLayer file found files
      = readHeaders env nLayer file found files := by
  induction files generalizing file found with
  | nil => rfl
  | cons sf files ih =>
      rw [readHeaders, readHeaders, headerMembers_withoutRotary]
      cases hmembers : headerMembers env file sf with
      | error e => rfl
      | ok members =>
          have hin : ∀ name, ¬ RotaryIn nLayer file members name :=
            fun name hin => h name (.here hmembers hin)
          show readEntries nLayer file found (members.filter kept) >>= _
            = readEntries nLayer file found members >>= _
          rw [readEntries_kept hin]
          cases hfound : readEntries nLayer file found members with
          | error e => rfl
          | ok found' =>
              have hall := readEntries_ok_iff.1 ⟨found', hfound⟩
              exact ih fun name hamong => h name (.later hmembers hall hamong)

/-- Without these entries none of them is named. -/
theorem readHeaders_names
    (h : readHeaders env.withoutRotary nLayer file found files = .error e)
    (hname : e.tensor = some name) : isRotary name = false := by
  induction files generalizing file found with
  | nil => cases h
  | cons sf files ih =>
      rw [readHeaders, headerMembers_withoutRotary] at h
      cases hmembers : headerMembers env file sf with
      | error e' =>
          rw [hmembers] at h
          cases h
          rw [headerMembers_names hmembers] at hname
          cases hname
      | ok members =>
          rw [hmembers] at h
          rcases bind_eq_error.1 h with h | ⟨_, hfilter, h⟩
          · cases h
          cases hfilter
          rcases bind_eq_error.1 h with h | ⟨found', -, h⟩
          · obtain ⟨member, hmem, hname'⟩ := readEntries_names h
            obtain rfl : name = member.1 :=
              Option.some.inj (hname.symm.trans hname')
            have hkept := (List.mem_filter.1 hmem).2
            rw [kept] at hkept
            exact Bool.not_eq_true' _ ▸ hkept
          · exact ih h

theorem RotaryAmong.rotary (h : RotaryAmong env nLayer name file files) :
    isRotary name = true := by
  induction h with
  | here _ hin =>
      obtain ⟨-, -, -, -, -, hrotary⟩ := hin
      exact hrotary
  | later _ _ _ ih => exact ih

/-- A member that is not meant to be left out is looked up alike. -/
theorem get_dropRotary {v : Json} {key : String}
    (h : isRotary key.toList = false) : (dropRotary v).get key = v.get key := by
  cases v with
  | object members =>
      rw [dropRotary, Json.get, Json.get]
      induction members with
      | nil => rfl
      | cons member members ih =>
          obtain ⟨name, entry⟩ := member
          rw [List.filter_cons, List.lookup_cons]
          by_cases heq : key.toList = name
          · have hkept : kept (name, entry) = true := by
              rw [kept, ← heq, h]
              rfl
            rw [if_pos hkept, List.lookup_cons, beq_iff_eq.2 heq]
          · rw [beq_eq_false_iff_ne.2 heq, ← ih]
            split
            · rw [List.lookup_cons, beq_eq_false_iff_ne.2 heq]
            · rfl
  | _ => rfl

section Refused

variable [LinearOrder P]

/-- The shards are the same files. -/
theorem shards_withoutRotary : shards env.withoutRotary = shards env := by
  have hpaths : shardPaths env.withoutRotary = shardPaths env := by
    rw [shardPaths, shardPaths, Env.withoutRotary]
    dsimp only
    split
    · rfl
    · cases env.file (env.join "model.safetensors.index.json".toList) with
      | none => rfl
      | some text =>
          dsimp only
          cases env.fromSlice text with
          | none => rfl
          | some v =>
              have hget : (dropRotary v).get "weight_map" = v.get "weight_map" :=
                get_dropRotary (by decide)
              dsimp only [Option.map_some, Option.elim_some, bind, Except.bind]
              rw [hget]
  have hopen : ∀ file paths,
      openShards env.withoutRotary file paths = openShards env file paths := by
    intro file paths
    induction paths generalizing file with
    | nil => rfl
    | cons path paths ih =>
        rw [openShards, openShards, Env.withoutRotary]
        dsimp only
        rw [← ih]
        rfl
  rw [shards, shards, hpaths]
  simp only [hopen]

omit [LinearOrder P] in
theorem openShards_names {file : Nat} {paths : List P} {e : ConvertError}
    (h : openShards env file paths = .error e) : e.tensor = none := by
  induction paths generalizing file with
  | nil => cases h
  | cons path paths ih =>
      rw [openShards] at h
      rcases bind_eq_error.1 h with h | ⟨bytes, -, h⟩
      · rw [← (elim_eq_error.1 h).2]
        rfl
      rcases bind_eq_error.1 h with h | ⟨sf, -, h⟩
      · rw [SafeFile.fromBytes] at h
        split at h
        · cases h
          rfl
        · dsimp only at h
          split at h
          · cases h
            rfl
          · split at h
            · cases h
              rfl
            · cases h
      rcases bind_eq_error.1 h with h | ⟨rest, -, h⟩
      · exact ih h
      · cases h

theorem shards_names {e : ConvertError} (h : shards env = .error e) :
    e.tensor = none := by
  rcases bind_eq_error.1 h with h | ⟨paths, -, h⟩
  · rw [shardPaths] at h
    split at h
    · cases h
    · split at h
      · cases h
        rfl
      · rcases bind_eq_error.1 h with h | ⟨index, -, h⟩
        · rw [← (elim_eq_error.1 h).2]
          rfl
        rcases bind_eq_error.1 h with h | ⟨map, -, h⟩
        · rw [← (elim_eq_error.1 h).2]
          rfl
        · cases h
  · exact openShards_names h

variable {out : OutType}

/-- What a plan without these entries is refused with names none of them. -/
theorem plan_withoutRotary_names {e : ConvertError}
    {name : Text} (h : plan env.withoutRotary out = .error e)
    (hname : e.tensor = some name) : isRotary name = false := by
  rw [plan] at h
  rcases bind_eq_error.1 h with h | ⟨nLayer, -, h⟩
  · obtain ⟨_, -, rfl⟩ := mapError_eq_error.1 h
    cases hname
  rcases bind_eq_error.1 h with h | ⟨ckpt, -, h⟩
  · rw [openCheckpoint] at h
    rcases bind_eq_error.1 h with h | ⟨files, -, h⟩
    · rw [shards_names h] at hname
      cases hname
    rcases bind_eq_error.1 h with h | ⟨found, -, h⟩
    · exact readHeaders_names h hname
    · cases h
  · split at h
    · cases h
      cases hname
    · rcases bind_eq_error.1 h with h | ⟨kv, -, h⟩
      · obtain ⟨_, -, rfl⟩ := mapError_eq_error.1 h
        cases hname
      · cases h

/-- Where no such entry is reached, the plan is the one without them. -/
theorem plan_withoutRotary (h : ¬ RotaryReached env) :
    plan env.withoutRotary out = plan env out := by
  have hconfig' : env.withoutRotary.config = env.config := rfl
  rw [plan, plan, hconfig']
  cases hconfig : env.config with
  | error msg => rfl
  | ok nLayer =>
      have hopen : openCheckpoint env.withoutRotary nLayer
          = openCheckpoint env nLayer := by
        rw [openCheckpoint, openCheckpoint, shards_withoutRotary]
        cases hshards : shards env with
        | error e => rfl
        | ok files =>
            have hnone : ∀ name, ¬ RotaryAmong env nLayer name 0 files :=
              fun name hamong => h ⟨nLayer, files, name, hconfig, hshards, hamong⟩
            show readHeaders env.withoutRotary nLayer 0 .empty files >>= _
              = readHeaders env nLayer 0 .empty files >>= _
            rw [readHeaders_withoutRotary hnone]
      show openCheckpoint env.withoutRotary nLayer >>= _
        = openCheckpoint env nLayer >>= _
      rw [hopen]
      rfl

/-- The checkpoint is refused for an entry that is meant to be left out: with
an error that is not there when these entries are gone from the headers. -/
def RefusedForRotary (env : Env P) (out : OutType) : Prop :=
  ∃ e, plan env out = .error e ∧ plan env.withoutRotary out ≠ .error e

theorem refusedForRotary_iff :
    RefusedForRotary env out ↔ RotaryReached env := by
  constructor
  · rintro ⟨e, h, hwithout⟩
    by_contra hreached
    exact hwithout ((plan_withoutRotary hreached).trans h)
  · rintro ⟨nLayer, files, name, hconfig, hshards, hamong⟩
    obtain ⟨e, he, hname⟩ : ∃ e, readHeaders env nLayer 0 .empty files = .error e
        ∧ e.tensor = some name := readHeaders_rotary hamong
    have hplan : plan env out = .error e := by
      refine bind_eq_error.2 (.inr ⟨nLayer, mapError_eq_ok.2 hconfig, ?_⟩)
      refine bind_eq_error.2 (.inl ?_)
      exact bind_eq_error.2 (.inr ⟨files, hshards, bind_eq_error.2 (.inl he)⟩)
    refine ⟨e, hplan, fun hwithout => ?_⟩
    have hrotary := hamong.rotary
    rw [plan_withoutRotary_names hwithout hname] at hrotary
    cases hrotary

/-- What a conversion promises: a file it writes holds every tensor entry once,
and no checkpoint is refused for an entry that is meant to be left out. -/
def DropsNothing (env : Env P) (out : OutType) : Prop :=
  (∀ conv file, plan env out = .ok conv → conv.writeSingle env.half = .ok file →
      ∃ nLayer, env.config = .ok nLayer ∧ Faithful env out nLayer conv file)
    ∧ ¬ RefusedForRotary env out

/-- A conversion goes through. -/
def Converts (env : Env P) (out : OutType) : Prop :=
  ∃ conv file, plan env out = .ok conv ∧ conv.writeSingle env.half = .ok file

/-- A conversion keeps its promise exactly when no entry that is meant to be
left out is reached, no name stands in two headers, and no shape is cut. -/
theorem dropsNothing_iff :
    DropsNothing env out ↔ ¬ RotaryReached env
      ∧ ∀ files, shards env = .ok files → Converts env out →
        Distinct env files ∧ Shallow env files := by
  rw [DropsNothing, refusedForRotary_iff, and_comm]
  apply and_congr_right
  intro _
  constructor
  · rintro h files hshards ⟨conv, file, hplan, hfile⟩
    obtain ⟨nLayer, hconfig, hfaithful⟩ := h conv file hplan hfile
    obtain ⟨nLayer', ts, hplanned⟩ := plan_eq_ok hplan
    obtain rfl := Except.ok.inj (hconfig.symm.trans hplanned.config)
    obtain rfl := Except.ok.inj (hshards.symm.trans hplanned.shards)
    exact (hplanned.faithful_iff hfile).1 hfaithful
  · intro h conv file hplan hfile
    obtain ⟨nLayer, ts, hplanned⟩ := plan_eq_ok hplan
    exact ⟨nLayer, hplanned.config, (hplanned.faithful_iff hfile).2
      (h _ hplanned.shards ⟨conv, file, hplan, hfile⟩)⟩

/-- A tensor name that every block of older checkpoints has. -/
def rotaryName : Text := "model.layers.0.self_attn.rotary_emb.inv_freq".toList

/-- The header: this tensor, and a norm. -/
def rotaryText : Text :=
  ("\x7b\"model.layers.0.self_attn.rotary_emb.inv_freq\":"
    ++ "\x7b\"dtype\":\"F32\",\"shape\":[1],\"data_offsets\":[0,4]\x7d,"
    ++ "\"model.norm.weight\":"
    ++ "\x7b\"dtype\":\"F32\",\"shape\":[1],\"data_offsets\":[4,8]\x7d\x7d").toList

def rotaryHeader : List UInt8 := rotaryText.map fun c => c.toNat.toUInt8

/-- An entry of one `f32` from byte `start` on. -/
def oneFloat (start : Nat) : Json :=
  .object [("data_offsets".toList,
      .array [.number (.posInt start), .number (.posInt (start + 4))]),
    ("dtype".toList, .string "F32".toList),
    ("shape".toList, .array [.number (.posInt 1)])]

/-- A directory whose `model.safetensors` holds these two. -/
def rotaryEnv : Env Text where
  half := ⟨id, id⟩
  fromSlice bytes :=
    if bytes = rotaryHeader then
      some (.object [(rotaryName, oneFloat 0),
        ("model.norm.weight".toList, oneFloat 4)])
    else none
  join := id
  file path :=
    if path = "model.safetensors".toList then
      some (leBytes 8 rotaryHeader.length ++ rotaryHeader
        ++ [0, 0, 128, 63, 0, 0, 128, 63])
    else none
  config := .ok 1
  metadata _ := .ok []

set_option maxRecDepth 8000 in
/-- The directory is refused for the one tensor, and would not be without it. -/

theorem rotaryEnv_dropsSomething : ¬ DropsNothing rotaryEnv .f16 := by
  rintro ⟨-, hrefused⟩
  refine hrefused ⟨.unknownTensor rotaryName, rfl, fun h => ?_⟩
  have hok : (plan rotaryEnv.withoutRotary .f16).isOk = true := rfl
  rw [h] at hok
  cases hok

end Refused

end Minfer.Convert
