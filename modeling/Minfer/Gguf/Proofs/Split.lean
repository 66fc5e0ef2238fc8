/-
Writing and reading back: one file, or a split whose parts are found from
the first one (`gguf.rs`).

Each part is a file of its own: it carries the caller's metadata, with three
keys that declare the split in place of whatever the caller gave for them. So
a part is read back by what is known of one file (`part_readsBack`), and the
tensors come together because the assignment of tensors to parts, taken in
order, lists every tensor once.

What the reader refuses is asked for in the hypotheses: a file no longer than
it reads, strings and counts within its guards (`InLimits`, `SplitFits`).
-/
import Minfer.Gguf.Proofs.Names
import Minfer.Gguf.Proofs.Roundtrip

namespace Minfer.Gguf

open Minfer.Lib

-- ========================== split keys

/-- The keys a split owns. -/
def splitKeys : List Text := [keySplitNo, keySplitCount, keySplitTensorsCount]

/-- The metadata without them. -/
def withoutSplitKeys (kv : List GgufKv) : List GgufKv := kv.filter (·.key ∉ splitKeys)

theorem dropSplitKeys_eq (kv : List GgufKv) :
    dropSplitKeys kv = withoutSplitKeys kv := by
  simp only [dropSplitKeys, kvRemove, withoutSplitKeys, splitKeys, List.filter_filter]
  apply List.filter_congr
  intro p _
  rw [Bool.eq_iff_iff]
  simp
  tauto

variable {kv : List GgufKv} {alignment : Nat} {specs : List TensorSpec}

theorem mem_withoutSplitKeys {p : GgufKv} :
    p ∈ withoutSplitKeys kv ↔ p ∈ kv ∧ p.key ∉ splitKeys := by
  simp [withoutSplitKeys]

/-- A key that is not there is appended. -/
theorem kvUpsert_fresh {new : GgufKv} (h : ∀ p ∈ kv, p.key ≠ new.key) :
    kvUpsert new kv = kv ++ [new] := by
  induction kv with
  | nil => rfl
  | cons p kv ih =>
      rw [kvUpsert, if_neg (h p List.mem_cons_self),
        ih fun q hq => h q (List.mem_cons_of_mem _ hq), List.cons_append]

/-- The pairs a split adds to the metadata. -/
def splitPairs (p total nTensors : Nat) : List GgufKv :=
  [.newU32 keySplitNo p, .newU32 keySplitCount total,
    .newU32 keySplitTensorsCount nTensors]

theorem partKv_eq (kv : List GgufKv) (p total nTensors : Nat) :
    partKv kv p total nTensors = withoutSplitKeys kv
      ++ splitPairs p total nTensors := by
  have hfresh (key : Text) (hkey : key ∈ splitKeys) : ∀ q
      ∈ withoutSplitKeys kv, q.key ≠ key := by
    intro q hq heq
    exact (mem_withoutSplitKeys.1 hq).2 (heq ▸ hkey)
  have hno : kvUpsert (.newU32 keySplitNo p) (withoutSplitKeys kv)
      = withoutSplitKeys kv ++ [.newU32 keySplitNo p] :=
    kvUpsert_fresh (hfresh keySplitNo (by decide))
  have hcount : kvUpsert (.newU32 keySplitCount total)
      (withoutSplitKeys kv ++ [.newU32 keySplitNo p])
        = (withoutSplitKeys kv ++ [.newU32 keySplitNo p])
          ++ [.newU32 keySplitCount total] := by
    apply kvUpsert_fresh
    intro q hq
    rcases List.mem_append.1 hq with hq | hq
    · exact hfresh keySplitCount (by decide) q hq
    · rw [List.mem_singleton.1 hq]
      exact show keySplitNo ≠ keySplitCount by decide
  have htensors : kvUpsert (.newU32 keySplitTensorsCount nTensors)
      ((withoutSplitKeys kv ++ [.newU32 keySplitNo p])
        ++ [.newU32 keySplitCount total])
        = ((withoutSplitKeys kv ++ [.newU32 keySplitNo p])
          ++ [.newU32 keySplitCount total])
          ++ [.newU32 keySplitTensorsCount nTensors] := by
    apply kvUpsert_fresh
    intro q hq
    rcases List.mem_append.1 hq with hq | hq
    · rcases List.mem_append.1 hq with hq | hq
      · exact hfresh keySplitTensorsCount (by decide) q hq
      · rw [List.mem_singleton.1 hq]
        exact show keySplitNo ≠ keySplitTensorsCount by decide
    · rw [List.mem_singleton.1 hq]
      exact show keySplitCount ≠ keySplitTensorsCount by decide
  rw [partKv, dropSplitKeys_eq, hno, hcount, htensors, List.append_assoc,
    List.append_assoc]
  rfl

theorem newU32_wellFormed (key : Text) (v : Nat) :
    (GgufKv.newU32 key v).WellFormed where
  type := nofun
  text := nofun
  raw := fun _ => ⟨rfl, by simp [GgufKv.newU32, GgufType.typeSize],
    .inr (by simp [GgufKv.newU32, GgufType.typeSize])⟩
  bools := nofun

theorem newU32_inLimits {key : Text} (v : Nat)
    (h : (utf8Encode key).length ≤ Parse.ggufMaxStringLength) :
    (GgufKv.newU32 key v).InLimits where
  key := h
  strings := nofun
  elements := nofun

namespace Metadata

variable {kv : List GgufKv} {alignment : Nat}

theorem withoutSplitKeys (h : Metadata kv alignment) :
    Metadata (Gguf.withoutSplitKeys kv) alignment where
  distinct := h.distinct.sublist (List.filter_sublist.map _)
  wellFormed := fun p hp => h.wellFormed p (mem_withoutSplitKeys.1 hp).1
  declared := by
    rcases h.declared with ⟨hnone, ha⟩ | ⟨hlt, hmem⟩
    · exact .inl ⟨fun p hp => hnone p (mem_withoutSplitKeys.1 hp).1, ha⟩
    · exact .inr ⟨hlt, mem_withoutSplitKeys.2
        ⟨hmem, show keyGeneralAlignment ∉ splitKeys by decide⟩⟩
  power := h.power

theorem partKv (h : Metadata kv alignment) (p total nTensors : Nat) :
    Metadata (Gguf.partKv kv p total nTensors) alignment := by
  have hbase := h.withoutSplitKeys
  rw [partKv_eq]
  refine ⟨?_, ?_, ?_, h.power⟩
  · rw [List.map_append, List.nodup_append]
    refine ⟨hbase.distinct, show splitKeys.Nodup by decide, ?_⟩
    intro a ha b hb
    obtain ⟨q, hq, rfl⟩ := List.mem_map.1 ha
    rintro rfl
    exact (mem_withoutSplitKeys.1 hq).2 hb
  · intro q hq
    rcases List.mem_append.1 hq with hq | hq
    · exact hbase.wellFormed q hq
    · simp only [splitPairs, List.mem_cons, List.not_mem_nil, or_false] at hq
      rcases hq with rfl | rfl | rfl
      all_goals exact newU32_wellFormed _ _
  · rcases hbase.declared with ⟨hnone, ha⟩ | ⟨hlt, hmem⟩
    · refine .inl ⟨fun q hq => ?_, ha⟩
      rcases List.mem_append.1 hq with hq | hq
      · exact hnone q hq
      · simp only [splitPairs, List.mem_cons, List.not_mem_nil, or_false] at hq
        rcases hq with rfl | rfl | rfl
        · exact show keySplitNo ≠ keyGeneralAlignment by decide
        · exact show keySplitCount ≠ keyGeneralAlignment by decide
        · exact show keySplitTensorsCount ≠ keyGeneralAlignment by decide
    · exact .inr ⟨hlt, List.mem_append_left _ hmem⟩

end Metadata

theorem partKv_inLimits (h : ∀ p ∈ withoutSplitKeys kv, p.InLimits)
    (p total nTensors : Nat) : ∀ q ∈ partKv kv p total nTensors, q.InLimits := by
  rw [partKv_eq]
  intro q hq
  rcases List.mem_append.1 hq with hq | hq
  · exact h q hq
  · simp only [splitPairs, List.mem_cons, List.not_mem_nil, or_false] at hq
    rcases hq with rfl | rfl | rfl
    all_goals exact newU32_inLimits _ (by decide)

-- ========================== assignment

/-- The padded size of the tensor with an index. -/
def indexBytes (specs : List TensorSpec) (alignment : Nat) (i : Nat) : Nat :=
  ((specs[i]?).map (paddedBytes alignment)).getD 0

/-- The assignment keeps every index, in order, and every part below the
cap. -/
theorem assignFrom_ok {cap : Nat} {rest : List (Nat × TensorSpec)}
    {parts : List (List Nat)} {cur : List Nat} {curBytes : Nat}
    {out : List (List Nat)} (hrest : ∀ p ∈ rest, indexBytes specs alignment p.1
      = paddedBytes alignment p.2)
    (hparts : ∀ part ∈ parts, (part.map (indexBytes specs alignment)).sum
      ≤ cap) (hcur : (cur.map (indexBytes specs alignment)).sum = curBytes)
    (hcap : curBytes ≤ cap)
    (hsum : curBytes + (rest.map fun p => paddedBytes alignment p.2).sum < 2 ^ 64)
    (h : assignFrom alignment cap parts cur curBytes rest = .ok out) :
    out.flatten = parts.flatten ++ cur ++ rest.map (·.1)
      ∧ ∀ part ∈ out, (part.map (indexBytes specs alignment)).sum ≤ cap := by
  induction rest generalizing parts cur curBytes with
  | nil =>
      rw [assignFrom] at h
      obtain rfl := Except.ok.inj h
      rw [List.map_nil, List.append_nil]
      split
      next hnil =>
        subst hnil
        exact ⟨(List.append_nil _).symm, hparts⟩
      next =>
        refine ⟨by simp, fun part hp => ?_⟩
        rcases List.mem_append.1 hp with hp | hp
        · exact hparts part hp
        · rw [List.mem_singleton.1 hp, hcur]
          exact hcap
  | cons p rest ih =>
      obtain ⟨i, s⟩ := p
      have hi := hrest (i, s) List.mem_cons_self
      have hrest' : ∀ q ∈ rest, indexBytes specs alignment q.1
          = paddedBytes alignment q.2 :=
        fun q hq => hrest q (List.mem_cons_of_mem _ hq)
      simp only [List.map_cons, List.sum_cons] at hi hsum
      rw [assignFrom] at h
      rw [show ggmlPad s.nbytes alignment = paddedBytes alignment s from rfl,
        wrap64_of_lt (show curBytes + paddedBytes alignment s < 2 ^ 64 by omega)] at h
      split at h
      · cases h
      next hle =>
      split at h
      next hfull =>
        -- the open part is closed, and the tensor opens the next one
        have hclosed : ∀ part ∈ parts ++ [cur],
            (part.map (indexBytes specs alignment)).sum ≤ cap := by
          intro part hp
          rcases List.mem_append.1 hp with hp | hp
          · exact hparts part hp
          · rw [List.mem_singleton.1 hp, hcur]
            exact hcap
        obtain ⟨hflat, hall⟩ :=
          ih hrest' hclosed (by simp [hi]) (by omega) (by omega) h
        refine ⟨?_, hall⟩
        rw [hflat]
        simp
      next hroom =>
        have hfits : curBytes + paddedBytes alignment s ≤ cap := by
          by_cases hnil : cur = []
          · subst hnil
            simp only [List.map_nil, List.sum_nil] at hcur
            omega
          · exact Nat.le_of_not_lt fun hlt => hroom ⟨hnil, hlt⟩
        obtain ⟨hflat, hall⟩ :=
          ih hrest' hparts (by simp [hi, hcur]) hfits (by omega) h
        refine ⟨?_, hall⟩
        rw [hflat]
        simp

/-- `split_assignment` cuts the index range into parts below the cap. -/
theorem splitAssignment_ok {cap : Nat} {out : List (List Nat)}
    (hsum : (specs.map (paddedBytes alignment)).sum < 2 ^ 64)
    (h : splitAssignment specs alignment cap = .ok out) :
    out.flatten = List.range specs.length
      ∧ ∀ part ∈ out, (part.map (indexBytes specs alignment)).sum ≤ cap := by
  unfold splitAssignment at h
  split at h
  · cases h
  have hlen : (List.range specs.length).length = specs.length := List.length_range
  have hindex : ∀ p ∈ indexed specs, indexBytes specs alignment p.1
      = paddedBytes alignment p.2 := by
    intro p hp
    obtain ⟨k, hk⟩ := List.mem_iff_getElem?.1 hp
    obtain ⟨hi, hs⟩ := List.getElem?_zip_eq_some.1 hk
    obtain ⟨hlt, hik⟩ := List.getElem?_eq_some_iff.1 hi
    rw [List.getElem_range] at hik
    rw [indexBytes, ← hik, hs]
    rfl
  have hstart :
      0 + ((indexed specs).map fun p => paddedBytes alignment p.2).sum
      < 2 ^ 64 := by
    rw [Nat.zero_add, indexed, sum_padded hlen]
    exact hsum
  have hempty : (([] : List Nat).map (indexBytes specs alignment)).sum = 0 := rfl
  obtain ⟨hflat, hall⟩ :=
    assignFrom_ok hindex (fun part hp => absurd hp List.not_mem_nil) hempty
    (Nat.zero_le _) hstart h
  refine ⟨?_, hall⟩
  rw [hflat, indexed, List.map_fst_zip (Nat.le_of_eq hlen)]
  rfl

-- =============================== parts

section Parts

variable {specs : List TensorSpec} {alignment : Nat}

/-- Indices of tensors that exist. -/
def Indices (specs : List TensorSpec) (ids : List Nat) : Prop :=
  ∀ i ∈ ids, i < specs.length

variable {ids : List Nat}

theorem partSpecs_cons {i : Nat} (hi : i < specs.length) :
    partSpecs specs (i :: ids) = specs[i] :: partSpecs specs ids := by
  rw [partSpecs, List.filterMap_cons, List.getElem?_eq_getElem hi]
  rfl

/-- A part's specs have their own indices' payloads and sizes. -/
theorem partSpecs_map {β : Type} (f : TensorSpec → β) (g : Nat → β)
    (hids : Indices specs ids) (h : ∀ i s, specs[i]? = some s → g i = f s) :
    ids.map g = (partSpecs specs ids).map f := by
  induction ids with
  | nil => rfl
  | cons i ids ih =>
      have hi := hids i List.mem_cons_self
      rw [partSpecs_cons hi, List.map_cons, List.map_cons,
        h i specs[i] (List.getElem?_eq_getElem hi), ih fun j hj =>
          hids j (List.mem_cons_of_mem _ hj)]

theorem length_partSpecs (hids : Indices specs ids) :
    (partSpecs specs ids).length = ids.length := by
  have h := partSpecs_map (fun _ => ()) (fun _ => ()) hids fun _ _ _ => rfl
  have hlen := congrArg List.length h
  rw [List.length_map, List.length_map] at hlen
  exact hlen.symm

theorem mem_partSpecs {s : TensorSpec} (h : s ∈ partSpecs specs ids) :
    s ∈ specs := by
  obtain ⟨i, -, hi⟩ := List.mem_filterMap.1 h
  exact List.mem_of_getElem? hi

theorem partSpecs_append (a b : List Nat) :
    partSpecs specs (a ++ b) = partSpecs specs a ++ partSpecs specs b :=
  List.filterMap_append

/-- All parts together hold the specs of all indices. -/
theorem flatMap_partSpecs (parts : List (List Nat)) :
    parts.flatMap (partSpecs specs) = partSpecs specs parts.flatten := by
  induction parts with
  | nil => rfl
  | cons ids parts ih =>
      rw [List.flatMap_cons, List.flatten_cons, partSpecs_append, ih]

theorem partSpecs_range : partSpecs specs (List.range specs.length) = specs := by
  have hids : Indices specs (List.range specs.length) :=
    fun i hi => List.mem_range.1 hi
  have hpart := partSpecs_map some (fun i => specs[i]?) hids fun i s hs => hs
  have hall : (List.range specs.length).map (fun i => specs[i]?)
      = specs.map some := by
    apply List.ext_getElem?
    intro i
    rw [List.getElem?_map, List.getElem?_map]
    by_cases hlt : i < specs.length
    · rw [List.getElem?_range hlt, Option.map_some, List.getElem?_eq_getElem hlt]
      rfl
    · rw [List.getElem?_eq_none (by rw [List.length_range]; omega),
        List.getElem?_eq_none (Nat.le_of_not_lt hlt)]
      rfl
  exact (List.map_inj_right fun _ _ => Option.some.inj).1 (hpart.symm.trans hall)

end Parts

-- ============================= loading

theorem getUsize_newU32 {ctx : GgufContext} {key : Text} {v : Nat}
    (hv : v < 2 ^ 32) (hnodup : (ctx.kv.map GgufKv.key).Nodup)
    (hmem : GgufKv.newU32 key v ∈ ctx.kv) (default : Nat) :
    ctx.getUsize key default = .ok v := by
  have hfind : ctx.kv.find? (·.key = key) = some (.newU32 key v) :=
    find_of_nodup hnodup hmem
  have hfirst : (GgufKv.newU32 key v).firstBytes 4 = .ok (leBytes 4 v) := by
    simp [GgufKv.firstBytes, GgufKv.newU32, List.take_of_length_le]
  have hval : (GgufKv.newU32 key v).getI64 = .ok (some (v : Int)) := by
    show (GgufKv.newU32 key v).getUnsigned 4 = _
    rw [GgufKv.getUnsigned, hfirst]
    show Except.ok (some ((leNat (leBytes 4 v) : Nat) : Int)) = _
    rw [leNat_leBytes hv]
  rw [GgufContext.getUsize, GgufContext.getKeyValI64, hfind]
  simp only [hval]
  show Except.ok (asU64 (v : Int)) = _
  rw [asU64_of_lt (by omega)]

/-- A directory after files were created in it, one after the other. -/
def stored (files : List (Text × List UInt8)) (old : Text → Option (List UInt8)) :
    Text → Option (List UInt8) :=
  files.foldl (fun dir f name => if name = f.1 then some f.2 else dir name) old

theorem stored_of_not_mem {files : List (Text × List UInt8)}
    {old : Text → Option (List UInt8)}
    {name : Text} (h : name ∉ files.map (·.1)) :
    stored files old name = old name := by
  induction files generalizing old with
  | nil => rfl
  | cons f files ih =>
      rw [List.map_cons, List.mem_cons, not_or] at h
      rw [stored, List.foldl_cons]
      refine (ih h.2).trans ?_
      rw [if_neg h.1]

theorem stored_of_mem {files : List (Text × List UInt8)}
    {old : Text → Option (List UInt8)} (hnodup : (files.map (·.1)).Nodup)
    {f : Text × List UInt8} (hf : f ∈ files) :
    stored files old f.1 = some f.2 := by
  induction files generalizing old with
  | nil => cases hf
  | cons g files ih =>
      rw [List.map_cons, List.nodup_cons] at hnodup
      rw [stored, List.foldl_cons]
      rcases List.mem_cons.1 hf with rfl | hf
      · refine (stored_of_not_mem hnodup.1).trans ?_
        rw [if_pos rfl]
      · exact ih hnodup.2 hf

/-- A split, read back: the parts are the files in order, together they hold
every tensor once, in order and with its payload, and none has more padded
data than the cap. -/
structure SplitReadsBack (files : List (Text × List UInt8))
    (parts : List GgufPart) (specs : List TensorSpec)
    (payloads : List (List UInt8)) (alignment cap : Nat) : Prop where
  bytes : parts.map GgufPart.data = files.map (·.2)
  tensors : (parts.flatMap fun part => part.ctx.info.map specOf) = specs
  payloads : (parts.flatMap fun part =>
    part.ctx.info.map (tensorBytes part.data part.ctx))
    = payloads
  bound : ∀ part ∈ parts,
    (part.ctx.info.map fun info => paddedBytes alignment (specOf info)).sum
    ≤ cap

/-- Nothing is written unless the specs are valid. -/
theorem writeFile_valid
    {ids : List Nat} {data : Nat → List UInt8} {bytes : List UInt8}
    (h : writeFile kv specs alignment ids data = .ok bytes) :
    validateSpecs specs = .ok () := by
  match hv : validateSpecs specs with
  | .ok () => rfl
  | .error e =>
      rw [writeFile, GgufWriter.create, hv] at h
      cases h

section Load

variable {kv : List GgufKv} {specs : List TensorSpec}
  {alignment cap total : Nat} {data : Nat → List UInt8} {stem : Text}

/-- What a part needs to be read back. -/
structure PartFits (kv : List GgufKv) (specs : List TensorSpec)
    (alignment cap total p : Nat) (ids : List Nat) : Prop where
  indices : Indices specs ids
  fits : FileFits (partKv kv p total specs.length) (partSpecs specs ids) alignment
  bound : (ids.map (indexBytes specs alignment)).sum ≤ cap

variable {p : Nat}

/-- One part, read back. -/
theorem part_readsBack (hm : Metadata kv alignment)
    (hkv : ∀ p ∈ withoutSplitKeys kv, p.InLimits) (hspecs : Specs specs)
    (hl : ∀ s ∈ specs, s.InLimits)
    (hdata : ∀ i s, specs[i]? = some s → (data i).length = s.nbytes)
    {ids : List Nat} (hpart : PartFits kv specs alignment cap total p ids)
    {bytes : List UInt8} (hw : writeFile (partKv kv p total specs.length)
      (partSpecs specs ids) alignment ids data
      = .ok bytes) (grant : Nat) :
    ∃ ctx, ReadsBack grant bytes ctx (partKv kv p total specs.length)
      (partSpecs specs ids)
      (ids.map data) := by
  have hpspecs : Specs (partSpecs specs ids) :=
    ⟨writeFile_valid hw, fun s hs => hspecs.nonneg s (mem_partSpecs hs),
      fun s hs => hspecs.bytes s (mem_partSpecs hs)⟩
  have hsizes : (ids.map data).map List.length
      = (partSpecs specs ids).map TensorSpec.nbytes := by
    rw [List.map_map]
    exact partSpecs_map TensorSpec.nbytes
      (fun i => (data i).length) hpart.indices hdata
  obtain ⟨bytes', ctx, hw', hread⟩ :=
    writeFile_readsBack (hm.partKv p total specs.length)
    (partKv_inLimits hkv p total specs.length) hpspecs
      (fun s hs => hl s (mem_partSpecs hs))
    hpart.fits (length_partSpecs hpart.indices).symm hsizes grant
  rw [hw] at hw'
  obtain rfl := Except.ok.inj hw'
  exact ⟨ctx, hread⟩

/-- The numbers a part carries. -/
theorem ReadsBack.split_keys {grant : Nat} {bytes : List UInt8}
    {ctx : GgufContext} {nTensors : Nat}
    {pspecs : List TensorSpec} {payloads : List (List UInt8)}
    (h : ReadsBack grant bytes ctx (partKv kv p total nTensors) pspecs payloads)
    (hm : Metadata kv alignment) (hp : p < 2 ^ 32) (htotal : total < 2 ^ 32) :
    ctx.getUsize keySplitNo 0 = .ok p ∧ ctx.getUsize keySplitCount 1 = .ok total := by
  have hnodup := (hm.partKv p total nTensors).distinct
  have hkv := h.metadata
  rw [← hkv] at hnodup
  have hmem : ∀ q ∈ splitPairs p total nTensors, q ∈ ctx.kv := by
    intro q hq
    rw [hkv, partKv_eq]
    exact List.mem_append_right _ hq
  exact ⟨getUsize_newU32 hp hnodup (hmem _ (by simp [splitPairs])) 0,
    getUsize_newU32 htotal hnodup (hmem _ (by simp [splitPairs])) 1⟩

variable {assignment : List (List Nat)} {files : List (Text × List UInt8)}

/-- The first part of the loop is written, then the others. -/
theorem writeParts_cons {ids : List Nat}
    (hw : writeParts stem kv specs alignment total data p (ids :: assignment)
      = .ok files) :
    ∃ bytes rest,
      writeFile (partKv kv p total specs.length)
        (partSpecs specs ids) alignment ids data
        = .ok bytes
      ∧ writeParts stem kv specs alignment total data (p + 1) assignment = .ok rest
      ∧ files = (partName stem p total, bytes) :: rest := by
  rw [writeParts] at hw
  match hw1 : writeFile (partKv kv p total specs.length)
      (partSpecs specs ids) alignment ids
      data with
  | .error e =>
      rw [hw1] at hw
      cases hw
  | .ok bytes =>
      rw [hw1] at hw
      match hw2 : writeParts stem kv specs alignment total data
          (p + 1) assignment with
      | .error e =>
          simp only [hw2] at hw
          cases hw
      | .ok rest =>
          simp only [hw2] at hw
          exact ⟨bytes, rest, rfl, rfl, (Except.ok.inj hw).symm⟩

/-- The part loop of the loader undoes the part loop of the writer. -/
theorem loadParts_written (hm : Metadata kv alignment)
    (hkv : ∀ p ∈ withoutSplitKeys kv, p.InLimits) (hspecs : Specs specs)
    (hl : ∀ s ∈ specs, s.InLimits)
    (hdata : ∀ i s, specs[i]? = some s → (data i).length = s.nbytes)
    (htotal : total < 2 ^ 32) {fs : Text → Option (List UInt8)}
    (hlen : p + assignment.length ≤ total)
    (hw : writeParts stem kv specs alignment total data p assignment
      = .ok files) (hfs : ∀ f ∈ files, fs f.1 = some f.2)
    (hparts : ∀ k ids, assignment[k]? = some ids →
      PartFits kv specs alignment cap total (p + k) ids) (grant : Nat) :
    ∃ parts, loadParts grant fs p (files.map (·.1)) = .ok parts
      ∧ SplitReadsBack files parts (assignment.flatMap (partSpecs specs))
        (assignment.flatMap (·.map data)) alignment cap := by
  induction assignment generalizing p files with
  | nil =>
      obtain rfl := Except.ok.inj hw
      exact ⟨[], rfl, rfl, rfl, rfl, nofun⟩
  | cons ids assignment ih =>
      obtain ⟨bytes, rest, hw1, hw2, rfl⟩ := writeParts_cons hw
      rw [List.length_cons] at hlen
      have hpart := hparts 0 ids rfl
      obtain ⟨ctx, hread⟩ := part_readsBack hm hkv hspecs hl hdata hpart hw1 grant
      obtain ⟨parts, hload, hback⟩ := ih (p := p + 1) (by omega) hw2
        (fun f hf => hfs f (List.mem_cons_of_mem _ hf)) (fun k ids' hk => by
          have := hparts (k + 1) ids' hk
          rwa [show p + (k + 1) = p + 1 + k by omega] at this)
      obtain ⟨hno, -⟩ := hread.split_keys hm (by omega) htotal
      have hopen : openPart grant fs (partName stem p total) = .ok ⟨ctx, bytes⟩ := by
        rw [openPart, hfs _ List.mem_cons_self]
        simp only [hread.parsed]
        rfl
      refine ⟨⟨ctx, bytes⟩ :: parts, ?_, ?_⟩
      · rw [List.map_cons, loadParts, hopen]
        show (ctx.getUsize keySplitNo 0 >>= _) = _
        rw [hno]
        show (if p ≠ p then _ else _) = _
        rw [if_neg (by simp), hload]
        rfl
      · refine ⟨?_, ?_, ?_, ?_⟩
        · rw [List.map_cons, List.map_cons, hback.bytes]
        · rw [List.flatMap_cons, List.flatMap_cons, hback.tensors]
          exact congrArg (· ++ _) hread.tensors
        · rw [List.flatMap_cons, List.flatMap_cons, hback.payloads]
          exact congrArg (· ++ _) hread.payloads
        · intro part hp
          rcases List.mem_cons.1 hp with rfl | hp
          · have hsum :=
              partSpecs_map (paddedBytes alignment)
              (indexBytes specs alignment)
              hpart.indices fun i s hs => by rw [indexBytes, hs]; rfl
            have hb := hpart.bound
            rw [hsum, ← hread.tensors, List.map_map] at hb
            exact hb
          · exact hback.bound part hp

theorem writeParts_names
    (hw : writeParts stem kv specs alignment total data p assignment = .ok files) :
    files.map (·.1) = (List.range' p assignment.length).map fun q =>
      partName stem q total := by
  induction assignment generalizing p files with
  | nil =>
      obtain rfl := Except.ok.inj hw
      rfl
  | cons ids assignment ih =>
      obtain ⟨bytes, rest, hw1, hw2, rfl⟩ := writeParts_cons hw
      rw [List.map_cons, ih hw2, List.length_cons, List.range'_succ, List.map_cons]

end Load

/-- From a first part the loader goes to all of them. -/
theorem loadGgufModel_split {grant : Nat} {fs : Text → Option (List UInt8)}
    {name : Text} {part : GgufPart} {total : Nat} {names : List Text}
    {parts : List GgufPart} (h2 : 2 ≤ total)
    (hopen : openPart grant fs name = .ok part)
    (hcount : part.ctx.getUsize keySplitCount 1 = .ok total)
    (hno : part.ctx.getUsize keySplitNo 0 = .ok 0)
    (hres : resolveSplits name = some names) (hnames : names.length = total)
    (hload : loadParts grant fs 0 names = .ok parts) :
    loadGgufModel grant fs name = .ok parts := by
  rw [loadGgufModel, hopen]
  show (part.ctx.getUsize keySplitCount 1 >>= _) = _
  rw [hcount]
  show (if total ≤ 1 then _ else _) = _
  rw [if_neg (by omega)]
  show (part.ctx.getUsize keySplitNo 0 >>= _) = _
  rw [hno]
  simp [bind, Except.bind, hres, hnames, hload]

-- ========================= round trips

/-- The provider of a payload list. -/
def payloadAt (payloads : List (List UInt8)) (i : Nat) : List UInt8 :=
  payloads.getD i []

/-- What the writer is given: metadata, specs, payloads of the declared sizes,
and nothing of `2^63` bytes. -/
structure Writable (kv : List GgufKv) (specs : List TensorSpec)
    (alignment : Nat) (payloads : List (List UInt8)) : Prop where
  metadata : Metadata kv alignment
  tensors : Specs specs
  payloads : payloads.map List.length = specs.map TensorSpec.nbytes
  fits : FileFits (withoutSplitKeys kv) specs alignment

/-- The reader's limits, on what is written of the metadata and on the
shapes. -/
structure InLimits (kv : List GgufKv) (specs : List TensorSpec) : Prop where
  metadata : ∀ p ∈ withoutSplitKeys kv, p.InLimits
  tensors : ∀ s ∈ specs, s.InLimits

/-- No part of a split has `2^63` bytes. -/
def SplitFits (kv : List GgufKv) (specs : List TensorSpec)
    (alignment cap : Nat) : Prop :=
  ∀ assignment, splitAssignment specs alignment cap = .ok assignment →
    ∀ p ids, assignment[p]? = some ids →
      FileFits (partKv kv p assignment.length specs.length)
        (partSpecs specs ids) alignment

/-- One file is written and read back. -/
def SingleRoundtrip (grant : Nat) (kv : List GgufKv) (specs : List TensorSpec)
    (alignment : Nat) (payloads : List (List UInt8)) : Prop :=
  ∃ bytes ctx, writeSingle kv specs alignment (payloadAt payloads) = .ok bytes
    ∧ ReadsBack grant bytes ctx (withoutSplitKeys kv) specs payloads

/-- A split of 2 to 99999 parts is found from its first part and read back. -/
def SplitRoundtrip (grant : Nat) (kv : List GgufKv) (specs : List TensorSpec)
    (alignment : Nat) (payloads : List (List UInt8)) : Prop :=
  ∀ stem cap files old, SplitFits kv specs alignment cap →
    writeSplit stem kv specs alignment cap (payloadAt payloads) = .ok files →
    2 ≤ files.length → files.length ≤ 99999 → ∀ first, files.head? = some first →
      ∃ parts, loadGgufModel grant (stored files old) first.1 = .ok parts
        ∧ SplitReadsBack files parts specs payloads alignment cap

namespace Writable

variable {kv : List GgufKv} {specs : List TensorSpec} {alignment : Nat}
  {payloads : List (List UInt8)}

theorem length_eq (h : Writable kv specs alignment payloads) :
    payloads.length = specs.length := by
  have hlen := congrArg List.length h.payloads
  rwa [List.length_map, List.length_map] at hlen

theorem payloadAt_range (h : Writable kv specs alignment payloads) :
    (List.range specs.length).map (payloadAt payloads) = payloads := by
  rw [← h.length_eq]
  apply List.ext_getElem?
  intro i
  rw [List.getElem?_map]
  by_cases hlt : i < payloads.length
  · rw [List.getElem?_range hlt, Option.map_some, payloadAt,
      List.getD_eq_getElem?_getD, List.getElem?_eq_getElem hlt]
    rfl
  · rw [List.getElem?_eq_none (by rw [List.length_range]; omega),
      List.getElem?_eq_none (Nat.le_of_not_lt hlt)]
    rfl

theorem length_payloadAt (h : Writable kv specs alignment payloads) (i : Nat)
    (s : TensorSpec)
    (hs : specs[i]? = some s) : (payloadAt payloads i).length = s.nbytes := by
  have hlen := congrArg (·[i]?) h.payloads
  simp only [List.getElem?_map, hs, Option.map_some] at hlen
  match hp : payloads[i]? with
  | none =>
      rw [hp] at hlen
      cases hlen
  | some payload =>
      rw [hp] at hlen
      rw [payloadAt, List.getD_eq_getElem?_getD, hp]
      exact Option.some.inj hlen

theorem single (h : Writable kv specs alignment payloads) (hl : InLimits kv specs)
    (grant : Nat) : SingleRoundtrip grant kv specs alignment payloads := by
  have hrange := h.payloadAt_range
  have hdata : ((List.range specs.length).map (payloadAt payloads)).map List.length
      = specs.map TensorSpec.nbytes := by
    rw [hrange]
    exact h.payloads
  obtain ⟨bytes, ctx, hw, hread⟩ :=
    writeFile_readsBack h.metadata.withoutSplitKeys hl.metadata
    h.tensors hl.tensors h.fits List.length_range hdata grant
  rw [hrange] at hread
  refine ⟨bytes, ctx, ?_, hread⟩
  rw [writeSingle, dropSplitKeys_eq]
  exact hw

/-- The padded sizes of all tensors add up without a wrap. -/
theorem sum_lt (h : Writable kv specs alignment payloads) :
    (specs.map (paddedBytes alignment)).sum < 2 ^ 64 := by
  obtain ⟨metadata, hmeta⟩ := encodeKvs_ok h.metadata.withoutSplitKeys.wellFormed
  have hfile := h.fits.file _ (encodeHeader_eq hmeta)
  omega

theorem split (h : Writable kv specs alignment payloads) (hl : InLimits kv specs)
    (grant : Nat) : SplitRoundtrip grant kv specs alignment payloads := by
  intro stem cap files old hfits hw h2 hmax first hfirst
  unfold writeSplit at hw
  split at hw
  · cases hw
  match ha : splitAssignment specs alignment cap with
  | .error e =>
      rw [ha] at hw
      cases hw
  | .ok assignment =>
  simp only [ha] at hw
  change (if assignment.length = 1 then _ else _) = _ at hw
  split at hw
  · -- one part is a plain file
    match hs : writeSingle kv specs alignment (payloadAt payloads) with
    | .error e =>
        rw [hs] at hw
        cases hw
    | .ok bytes =>
        rw [hs] at hw
        obtain rfl := Except.ok.inj hw
        exact absurd h2 (by simp)
  obtain ⟨hflat, hbound⟩ := splitAssignment_ok h.sum_lt ha
  have hnames := writeParts_names hw
  have hlen : files.length = assignment.length := by
    have := congrArg List.length hnames
    rwa [List.length_map, List.length_map, List.length_range'] at this
  have hindices : ∀ ids ∈ assignment, Indices specs ids := by
    intro ids hids i hi
    have hmem : i ∈ assignment.flatten := List.mem_flatten.2 ⟨ids, hids, hi⟩
    rw [hflat] at hmem
    exact List.mem_range.1 hmem
  have hparts : ∀ k ids, assignment[k]? = some ids →
      PartFits kv specs alignment cap assignment.length (0 + k) ids := by
    intro k ids hk
    have hmem := List.mem_of_getElem? hk
    rw [Nat.zero_add]
    exact ⟨hindices ids hmem, hfits assignment ha k ids hk, hbound ids hmem⟩
  -- every part is found under its own name
  have hnodup : (files.map (·.1)).Nodup := by
    rw [hnames, List.Nodup, List.pairwise_map]
    refine List.Pairwise.imp_of_mem ?_
      (List.nodup_range' (s := 0) (n := assignment.length))
    intro p q hp hq hne heq
    rw [List.mem_range'_1] at hp hq
    exact hne (partName_inj (by omega) (by omega) (by omega) heq)
  have hstored : ∀ f ∈ files, stored files old f.1 = some f.2 := fun f hf =>
    stored_of_mem hnodup hf
  obtain ⟨parts, hload, hback⟩ :=
    loadParts_written h.metadata hl.metadata h.tensors hl.tensors
    h.length_payloadAt (by omega) (Nat.le_of_eq (Nat.zero_add _)) hw hstored hparts
    grant
  have hrange : assignment.flatMap (·.map (payloadAt payloads)) = payloads := by
    rw [List.flatMap_def, ← List.map_flatten, hflat]
    exact h.payloadAt_range
  rw [hrange, flatMap_partSpecs, hflat, partSpecs_range] at hback
  refine ⟨parts, ?_, hback⟩
  -- the first part sends the loader to the others
  cases assignment with
  | nil =>
      rw [List.length_nil] at hlen
      omega
  | cons ids rest =>
      have hres :=
        @resolveSplits_partName stem (ids :: rest).length (by omega) (by omega)
      rw [List.range_eq_range', ← hnames] at hres
      obtain ⟨bytes, others, hw1, -, rfl⟩ := writeParts_cons hw
      obtain rfl := Option.some.inj hfirst
      obtain ⟨ctx, hread⟩ :=
        part_readsBack h.metadata hl.metadata h.tensors hl.tensors
        h.length_payloadAt (hparts 0 ids rfl) hw1 grant
      obtain ⟨hno, hcount⟩ := hread.split_keys h.metadata (by decide)
        (show (ids :: rest).length < 2 ^ 32 by omega)
      have hopen :
          openPart grant
          (stored ((partName stem 0 (ids :: rest).length, bytes) :: others)
            old)
          (partName stem 0 (ids :: rest).length) = .ok ⟨ctx, bytes⟩ := by
        rw [openPart, hstored _ List.mem_cons_self]
        simp only [hread.parsed]
        rfl
      refine loadGgufModel_split (by omega) hopen hcount hno hres ?_ hload
      rw [List.length_map]
      exact hlen

end Writable

/-- What the writer writes within the reader's limits, the parser reads,
whatever the allocator grants: one file, and every split of 2 to 99999
parts. -/
theorem written_files_read_back
    {payloads : List (List UInt8)} (h : Writable kv specs alignment payloads)
    (hl : InLimits kv specs) (grant : Nat) :
    SingleRoundtrip grant kv specs alignment payloads
      ∧ SplitRoundtrip grant kv specs alignment payloads :=
  ⟨h.single hl grant, h.split hl grant⟩

-- =============================== cases

/-- The sizes of a file whose header is known. -/
theorem FileFits.of_header {header : List UInt8}
    (hh : encodeHeader kv specs alignment = .ok header)
    (hkv : kv.length * sizeOfKv < 2 ^ 63)
    (hspecs : specs.length * sizeOfTensorSpec < 2 ^ 63)
    (hheader : header.length < 2 ^ 63) (hfile : ggmlPad header.length alignment
      + (specs.map (paddedBytes alignment)).sum < 2 ^ 63) :
    FileFits kv specs alignment := by
  refine ⟨hkv, hspecs, fun h he => ?_, fun h he => ?_⟩
  · obtain rfl := Except.ok.inj (hh.symm.trans he)
    exact hheader
  · obtain rfl := Except.ok.inj (hh.symm.trans he)
    exact hfile

/-- A file's sizes, when its header can be computed. -/
def fileFits (kv : List GgufKv) (specs : List TensorSpec) (alignment : Nat) : Bool :=
  match encodeHeader kv specs alignment with
  | .error _ => false
  | .ok header =>
      kv.length * sizeOfKv < 2 ^ 63 && specs.length * sizeOfTensorSpec < 2 ^ 63
        && header.length < 2 ^ 63
        && ggmlPad header.length alignment
          + (specs.map (paddedBytes alignment)).sum < 2 ^ 63

theorem FileFits.of_check (h : fileFits kv specs alignment = true) :
    FileFits kv specs alignment := by
  unfold fileFits at h
  split at h
  · cases h
  next header hh =>
    simp only [Bool.and_eq_true, decide_eq_true_eq] at h
    exact FileFits.of_header hh h.1.1.1 h.1.1.2 h.1.2 h.2

/-- Two tensors of floats. -/
def twoSpecs : List TensorSpec :=
  [⟨['a'], (1, 1, 1, 1), .f32⟩, ⟨['b'], (2, 1, 1, 1), .f32⟩]

def twoPayloads : List (List UInt8) := [[1, 2, 3, 4], [5, 6, 7, 8, 9, 10, 11, 12]]

/-- Metadata with a stale split key. -/
def staleKv : List GgufKv := [.newU32 ['k'] 7, .newU32 keySplitCount 9]

theorem staleKv_metadata : Metadata staleKv 32 where
  distinct := by decide
  wellFormed := by
    intro p hp
    simp only [staleKv, List.mem_cons, List.not_mem_nil, or_false] at hp
    rcases hp with rfl | rfl
    all_goals exact newU32_wellFormed _ _
  declared := .inl ⟨by decide, rfl⟩
  power := ⟨5, rfl⟩

theorem twoSpecs_writable : Writable staleKv twoSpecs 32 twoPayloads where
  metadata := staleKv_metadata
  tensors := ⟨by decide, by decide, by decide⟩
  payloads := by decide
  fits := FileFits.of_check (by decide +kernel)

theorem twoSpecs_inLimits : InLimits staleKv twoSpecs where
  metadata := by
    intro p hp
    have hp' : p = .newU32 ['k'] 7 := by
      have hkeys : withoutSplitKeys staleKv = [.newU32 ['k'] 7] := by decide
      rw [hkeys] at hp
      exact List.mem_singleton.1 hp
    rw [hp']
    exact newU32_inLimits _ (by decide)
  tensors := by
    intro s hs
    simp only [twoSpecs, List.mem_cons, List.not_mem_nil, or_false] at hs
    rcases hs with rfl | rfl
    all_goals exact ⟨by decide, by decide, by decide⟩

set_option maxRecDepth 8000 in
/-- Two tensors with a cap of one alignment unit: two parts, found from the
first. -/
theorem two_parts_read_back : ∃ files parts,
    writeSplit ['m'] staleKv twoSpecs 32 32 (payloadAt twoPayloads) = .ok files
      ∧ files.map (·.1)
        = ["m-00001-of-00002.gguf".toList, "m-00002-of-00002.gguf".toList]
      ∧ loadGgufModel 0 (stored files fun _ => none)
        "m-00001-of-00002.gguf".toList = .ok parts
      ∧ SplitReadsBack files parts twoSpecs twoPayloads 32 32
      ∧ SingleRoundtrip 0 staleKv twoSpecs 32 twoPayloads := by
  obtain ⟨hsingle, hsplit⟩ :=
    written_files_read_back twoSpecs_writable twoSpecs_inLimits 0
  have hassign : splitAssignment twoSpecs 32 32 = .ok [[0], [1]] := by decide +kernel
  have hfits : SplitFits staleKv twoSpecs 32 32 := by
    intro assignment ha p ids hp
    rw [hassign] at ha
    obtain rfl := Except.ok.inj ha
    match p with
    | 0 =>
        obtain rfl := Option.some.inj hp
        exact FileFits.of_check (by decide +kernel)
    | 1 =>
        obtain rfl := Option.some.inj hp
        exact FileFits.of_check (by decide +kernel)
    | p + 2 => cases hp
  have hnames : (writeSplit ['m'] staleKv twoSpecs 32 32 (payloadAt twoPayloads)).map
      (fun files => files.map (·.1))
        = .ok ["m-00001-of-00002.gguf".toList, "m-00002-of-00002.gguf".toList] := by
    decide +kernel
  match hw : writeSplit ['m'] staleKv twoSpecs 32 32 (payloadAt twoPayloads) with
  | .error e =>
      rw [hw] at hnames
      cases hnames
  | .ok files =>
      rw [hw] at hnames
      have hn := Except.ok.inj hnames
      match files, hn with
      | [f, g], hn =>
          obtain ⟨parts, hload, hback⟩ :=
            hsplit ['m'] 32 [f, g] (fun _ => none) hfits hw
            (by simp) (by simp) f rfl
          have hf : f.1 = "m-00001-of-00002.gguf".toList := (List.cons.inj hn).1
          rw [hf] at hload
          exact ⟨[f, g], parts, rfl, hn, hload, hback, hsingle⟩

/-- Metadata of one string. -/
def stringKv (text : Text) : List GgufKv := [⟨['k'], false, .string, [], [text]⟩]

section LongString

variable (text : Text)

theorem stringKv_metadata : Metadata (stringKv text) 32 where
  distinct := by simp [stringKv]
  wellFormed := by
    intro p hp
    obtain rfl := List.mem_singleton.1 hp
    exact ⟨nofun, fun _ => ⟨rfl, .inr rfl⟩, fun h => absurd rfl h, nofun⟩
  declared := by
    refine .inl ⟨fun p hp => ?_, rfl⟩
    obtain rfl := List.mem_singleton.1 hp
    exact show ['k'] ≠ keyGeneralAlignment by decide
  power := ⟨5, rfl⟩

theorem withoutSplitKeys_stringKv : withoutSplitKeys
    (stringKv text) = stringKv text := by
  have hk : (['k'] : Text) ∉ splitKeys := by decide
  simp [withoutSplitKeys, stringKv, hk]

/-- The one pair of the metadata, encoded. -/
theorem encodeKvs_stringKv : encodeKvs (stringKv text)
    = .ok (writeString ['k']
      ++ (leBytes 4 GgufType.string.code ++ writeString text)) := by
  show Except.ok
    ((writeString ['k'] ++ leBytes 4 GgufType.string.code ++ writeString text)
    ++ []) = _
  rw [List.append_nil, List.append_assoc]

variable {text}

/-- The bytes before the data section. -/
theorem encodeHeader_stringKv : ∃ header, encodeHeader (stringKv text)
    [] 32 = .ok header
    ∧ header = (ggufMagic ++ (leBytes 4 ggufVersion ++ (leBytes 8 0 ++ leBytes 8 1)))
      ++ (writeString ['k'] ++ (leBytes 4 GgufType.string.code ++ writeString text))
    ∧ header.length = 45 + (utf8Encode text).length := by
  have hkey : (utf8Encode ['k']).length = 1 := by decide
  have hmagic : ggufMagic.length = 4 := rfl
  refine ⟨_, encodeHeader_eq (encodeKvs_stringKv text), List.append_nil _, ?_⟩
  simp only [List.length_append, length_leBytes, writeString, hkey, hmagic]
  show _ + ([] : List UInt8).length = _
  rw [List.length_nil]
  omega

theorem stringKv_writable (h : (utf8Encode text).length < 2 ^ 62) :
    Writable (stringKv text) [] 32 [] where
  metadata := stringKv_metadata text
  tensors := ⟨rfl, nofun, nofun⟩
  payloads := rfl
  fits := by
    rw [withoutSplitKeys_stringKv]
    obtain ⟨header, hh, -, hlen⟩ := @encodeHeader_stringKv text
    have hpad : ggmlPad header.length 32 < header.length + 32 :=
      ggmlPad_lt (show 5 ≤ 63 by decide) (by omega)
    have hone : (stringKv text).length * sizeOfKv < 2 ^ 63 :=
      show 1 * 80 < 2 ^ 63 by decide
    refine FileFits.of_header hh hone (by decide) (by omega) ?_
    rw [List.map_nil, List.sum_nil]
    omega

/-- A string above the limit is written, and the file refused. -/
theorem stringKv_refused
    (hlong : Parse.ggufMaxStringLength < (utf8Encode text).length)
    (h : (utf8Encode text).length < 2 ^ 62) (grant : Nat) :
    ¬ SingleRoundtrip grant (stringKv text) [] 32 [] := by
  rintro ⟨bytes, ctx, hw, hread⟩
  rw [writeSingle, dropSplitKeys_eq, withoutSplitKeys_stringKv] at hw
  obtain ⟨header, hh, hheader, hlen⟩ := @encodeHeader_stringKv text
  have hw' := @writeFile_eq 32 (payloadAt []) (stringKv text) []
    (List.range 0) _ rfl ⟨5, rfl⟩
    hh rfl ⟨nofun, nofun⟩
  have hbytes := Except.ok.inj (hw.symm.trans hw')
  have hpad : header.length ≤ ggmlPad header.length 32 :=
    le_ggmlPad (show 5 ≤ 63 by decide) (by omega)
  rw [resizeZero_of_le hpad, hheader, List.append_assoc, List.append_assoc] at hbytes
  have hkey : Parse.Reads Parse.readString (writeString ['k']) ['k'] :=
    Parse.reads_readString (by decide)
  have hvalue : Parse.Stops Parse.readString (writeString text) .refused :=
    Parse.stops_readString hlong (by omega)
  -- the key and the type are read, the value is not
  have hkv : Parse.Stops (Parse.readKvs grant 1 [])
      (writeString ['k']
          ++ (leBytes 4 GgufType.string.code ++ writeString text))
          .refused := by
    refine Parse.Stops.bind (hkey.stops ?_)
    have hfresh : Parse.Reads
        (Parse.ensure .refused (∀ kv ∈ ([] : List GgufKv), kv.key ≠ ['k'])) [] () :=
      Parse.reads_ensure nofun
    exact hfresh.stops ((Parse.reads_readGgufType .string).stops hvalue.bind)
  have hread1 := @Parse.reads_readHeader 0 1 (by decide) (by decide)
  have hstop : ∀ after, initFromData grant ((ggufMagic ++ (leBytes 4 ggufVersion
      ++ (leBytes 8 0 ++ leBytes 8 1))) ++ ((writeString ['k']
        ++ (leBytes 4 GgufType.string.code ++ writeString text)) ++ after))
          = .error .refused := by
    intro after
    rw [initFromData]
    generalize List.length _ = len
    have hrun : initFromReader grant len ⟨[] ++ ((ggufMagic ++ (leBytes 4 ggufVersion
        ++ (leBytes 8 0 ++ leBytes 8 1))) ++ ((writeString ['k']
          ++ (leBytes 4 GgufType.string.code ++ writeString text)) ++ after)), 0⟩
        = .error .refused := by
      refine (hread1.continue [] _).trans ?_
      exact hkv.bind.run _ after
    rw [List.nil_append] at hrun
    rw [hrun]
    rfl
  have hparsed := hread.parsed
  rw [hbytes, hstop] at hparsed
  cases hparsed

end LongString

/-- A string of one byte more than the reader takes. -/
def longString : Text := List.replicate (2 ^ 30 + 1) 'a'

theorem length_utf8Encode_replicate (n : Nat) :
    (utf8Encode (List.replicate n 'a')).length = n := by
  induction n with
  | zero => rfl
  | succ n ih =>
      have ha : (String.utf8EncodeChar 'a').length = 1 := by decide
      rw [List.replicate_succ, utf8Encode_cons, List.length_append, ih, ha,
        Nat.add_comm]

/-- The writer takes a string of `2^30 + 1` bytes, and the parser refuses the
file. -/
theorem long_string_refused : Writable (stringKv longString) [] 32 []
    ∧ ∀ grant, ¬ (SingleRoundtrip grant (stringKv longString) [] 32 []
      ∧ SplitRoundtrip grant (stringKv longString) [] 32 []) := by
  have hlen : (utf8Encode longString).length = 2 ^ 30 + 1 :=
    length_utf8Encode_replicate _
  refine ⟨stringKv_writable (by rw [hlen]; decide), fun grant h => ?_⟩
  exact stringKv_refused (by rw [hlen]; decide) (by rw [hlen]; decide) grant h.1

end Minfer.Gguf
