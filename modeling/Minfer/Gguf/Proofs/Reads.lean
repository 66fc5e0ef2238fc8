/-
What a reader makes of given bytes, wherever they stand in the file:
`Reads p bs a` says that `p` takes exactly `bs` and returns `a`. Readers
compose as their bytes do, so each encoder's result has one lemma here.
-/
import Minfer.Gguf.Proofs.Size
import Minfer.Gguf.Write

namespace Minfer.Gguf

open Minfer.Lib

namespace Parse

variable {α β : Type}

-- ============================ calculus

/-- At the bytes `bs`, the reader returns `a` and stands right after them. -/
structure Reads (p : Parse α) (bs : List UInt8) (a : α) : Prop where
  run : ∀ before after, p ⟨before ++ (bs ++ after), before.length⟩
    = .ok (a, ⟨before ++ (bs ++ after), before.length + bs.length⟩)

/-- At the bytes `bs`, the reader stops. -/
structure Stops (p : Parse α) (bs : List UInt8) (s : Stop) : Prop where
  run : ∀ before after, p ⟨before ++ (bs ++ after), before.length⟩ = .error s

variable {f : α → Parse β} {x : Parse α} {s : Stop} {bs : List UInt8} {n : Nat}

theorem bind_of_ok {r s : GgufReader} {a : α}
    (h : x r = .ok (a, s)) : (x >>= f) r = f a s := by
  show (do let (a, s) ← x r; f a s : Except Stop _) = _
  rw [h]
  rfl

theorem bind_of_error {r : GgufReader} (h : x r = .error s) :
    (x >>= f) r = .error s := by
  show (do let (a, s) ← x r; f a s : Except Stop _) = _
  rw [h]
  rfl

theorem Reads.pure (a : α) : Reads (pure a : Parse α) [] a := ⟨fun _ _ => rfl⟩

theorem Reads.bind {cs : List UInt8} {a : α}
    {b : β} (hx : Reads x bs a) (hf : Reads (f a) cs b) : Reads (x >>= f)
    (bs ++ cs) b := by
  refine ⟨fun before after => ?_⟩
  have h1 := hx.run before (cs ++ after)
  have h2 := hf.run (before ++ bs) after
  rw [List.append_assoc, List.length_append] at h2
  rw [List.append_assoc, bind_of_ok h1, h2, List.length_append, Nat.add_assoc]

theorem Reads.stops {cs : List UInt8} {a : α} (hx : Reads x bs a)
    (hf : Stops (f a) cs s) : Stops (x >>= f)
    (bs ++ cs) s := by
  refine ⟨fun before after => ?_⟩
  have h1 := hx.run before (cs ++ after)
  have h2 := hf.run (before ++ bs) after
  rw [List.append_assoc, List.length_append] at h2
  rw [List.append_assoc, bind_of_ok h1, h2]

theorem Stops.bind (hx : Stops x bs s) : Stops (x >>= f) bs s :=
  ⟨fun before after => bind_of_error (hx.run before after)⟩

/-- More bytes than a reader stopped at change nothing. -/
theorem Stops.append
    (hx : Stops x bs s) (cs : List UInt8) : Stops x (bs ++ cs) s := by
  refine ⟨fun before after => ?_⟩
  rw [List.append_assoc]
  exact hx.run before (cs ++ after)

/-- A result computed from what was read. -/
theorem Reads.map {a : α} (hx : Reads x bs a) (g : α → β) :
    Reads (do return g (← x)) bs (g a) := by
  have h := hx.bind (f := fun a => Pure.pure (g a)) (Reads.pure (g a))
  rwa [List.append_nil] at h

/-- A passed test takes no bytes. -/
theorem Reads.ensure {st : Stop} {p : Prop} [Decidable p] {f : Unit → Parse β}
    {b : β} (hp : p) (hf : Reads (f ()) bs b) : Reads (ensure st p >>= f) bs b := by
  refine ⟨fun before after => ?_⟩
  have h : Parse.ensure st p ⟨before ++ (bs ++ after), before.length⟩
      = .ok ((), ⟨before ++ (bs ++ after), before.length⟩) := by
    rw [Parse.ensure, if_pos hp]
    rfl
  rw [bind_of_ok h]
  exact hf.run before after

theorem Stops.ensure {st : Stop} {p : Prop} [Decidable p] {f : Unit → Parse β}
    (hp : ¬ p) :
    Stops (ensure st p >>= f) [] st := by
  refine ⟨fun before after => bind_of_error ?_⟩
  rw [Parse.ensure, if_neg hp]
  rfl

/-- The bytes left are at least the ones still to be read. -/
theorem Reads.remaining {f : Nat → Parse β} {b : β}
    (hf : ∀ left, bs.length ≤ left → Reads (f left) bs b) :
    Reads (remaining >>= f) bs b := by
  refine ⟨fun before after => ?_⟩
  have h : Parse.remaining ⟨before ++ (bs ++ after), before.length⟩
      = .ok (bs.length + after.length, ⟨before ++ (bs ++ after), before.length⟩) := by
    rw [Parse.remaining, GgufReader.nbytesRemain, List.length_append,
      List.length_append, Nat.add_sub_cancel_left]
  rw [bind_of_ok h]
  exact (hf _ (Nat.le_add_right _ _)).run before after

-- ============================= numbers

theorem reads_readRaw (bs : List UInt8) : Reads (readRaw bs.length) bs bs := by
  refine ⟨fun before after => ?_⟩
  have hlen : ¬ bs.length
      > (GgufReader.mk (before ++ (bs ++ after)) before.length).nbytesRemain := by
    show ¬ bs.length > (before ++ (bs ++ after)).length - before.length
    rw [List.length_append, List.length_append]
    omega
  rw [readRaw, if_neg hlen, List.drop_left, List.take_left]

theorem reads_readRaw_of_length (h : bs.length = n) :
    Reads (readRaw n) bs bs := by
  subst h
  exact reads_readRaw bs

theorem reads_readNat {v : Nat} (size : Nat) (h : v < 256 ^ size) :
    Reads (readNat size) (leBytes size v) v := by
  have hr := (reads_readRaw_of_length (length_leBytes size v)).map leNat
  rwa [leNat_leBytes h] at hr

/-- Reading back a signed number. -/
theorem signed_asU64 {x : Int} (h0 : -2 ^ 63 ≤ x) (h1 : x < 2 ^ 63) :
    signed 64 (asU64 x) = x := by
  unfold signed asU64
  split <;> omega

theorem asU64_lt (x : Int) : asU64 x < 2 ^ 64 := by
  unfold asU64
  omega

theorem reads_readInt8 {x : Int} (h0 : -2 ^ 63 ≤ x) (h1 : x < 2 ^ 63) :
    Reads (readInt 8) (leBytes 8 (asU64 x)) x := by
  have hr := (reads_readNat 8 (asU64_lt x)).map (signed (8 * 8))
  rwa [signed_asU64 h0 h1] at hr

/-- A count is a small non-negative `i64`. -/
theorem reads_readInt8_count (h : n < 2 ^ 63) :
    Reads (readInt 8) (leBytes 8 n) (n : Int) := by
  have hr := reads_readInt8 (x := n) (by omega) (by omega)
  rwa [asU64_of_lt (by omega)] at hr

/-- An enumeration's code is a small non-negative `i32`. -/
theorem reads_readInt4 (h : n < 2 ^ 31) :
    Reads (readInt 4) (leBytes 4 n) (n : Int) := by
  have hr := (reads_readNat 4 (show n < 256 ^ 4 by omega)).map (signed (8 * 4))
  rwa [show signed (8 * 4) n = (n : Int) from if_pos h] at hr

-- ============================= strings

theorem reads_readString {s : Text}
    (h : (utf8Encode s).length ≤ ggufMaxStringLength) :
    Reads readString (writeString s) s := by
  have hmax : ggufMaxStringLength < 256 ^ 8 := by decide
  refine (reads_readNat 8 (by omega)).bind ?_
  refine Reads.ensure h (Reads.remaining fun left hleft => Reads.ensure hleft ?_)
  have hr := (reads_readRaw (utf8Encode s)).map fromUtf8Lossy
  rwa [fromUtf8Lossy_utf8Encode] at hr

/-- A string above the limit is refused. -/
theorem stops_readString {s : Text} (h : ggufMaxStringLength < (utf8Encode s).length)
    (h64 : (utf8Encode s).length < 2 ^ 64) : Stops readString
    (writeString s) .refused := by
  have hs : Stops readString (leBytes 8 (utf8Encode s).length ++ []) .refused :=
    (reads_readNat 8 h64).stops (Stops.ensure (by omega))
  rw [List.append_nil] at hs
  exact hs.append _

theorem reads_readStrings {strings : List Text}
    (h : ∀ s ∈ strings, (utf8Encode s).length ≤ ggufMaxStringLength) :
    Reads (readStrings strings.length) (strings.flatMap writeString) strings := by
  induction strings with
  | nil => exact Reads.pure []
  | cons s strings ih =>
      rw [List.flatMap_cons]
      refine (reads_readString (h s List.mem_cons_self)).bind ?_
      exact (ih fun t ht => h t (List.mem_cons_of_mem _ ht)).map _

theorem length_writeString (s : Text) : 8 ≤ (writeString s).length := by
  rw [writeString, List.length_append, length_leBytes]
  exact Nat.le_add_right _ _

theorem length_writeStrings (strings : List Text) :
    strings.length * 8 ≤ (strings.flatMap writeString).length := by
  induction strings with
  | nil => exact Nat.zero_le _
  | cons s strings ih =>
      have hs := length_writeString s
      rw [List.flatMap_cons, List.length_append, List.length_cons]
      omega

theorem reads_readStringVec {strings : List Text}
    (hn : strings.length ≤ ggufMaxArrayElements)
    (h : ∀ s ∈ strings, (utf8Encode s).length ≤ ggufMaxStringLength) :
    Reads (readStringVec strings.length) (strings.flatMap writeString) strings := by
  have hlen := length_writeStrings strings
  refine Reads.ensure hn
    (Reads.remaining fun left hleft => Reads.ensure (by omega) ?_)
  exact reads_readStrings h

-- ============================== arrays

theorem reads_readMany {size : Nat} (h : bs.length = n * size) :
    Reads (readMany size n) bs bs := by
  induction n generalizing bs with
  | zero =>
      rw [Nat.zero_mul] at h
      rw [List.length_eq_zero_iff.1 h]
      exact Reads.pure []
  | succ n ih =>
      rw [Nat.succ_mul] at h
      have hhead : (bs.take size).length = size := by
        rw [List.length_take]
        omega
      have htail : (bs.drop size).length = n * size := by
        rw [List.length_drop]
        omega
      have hr := (reads_readRaw_of_length hhead).bind
        (f := fun x => do return x ++ (← readMany size n)) ((ih htail).map _)
      rwa [List.take_append_drop] at hr

theorem reads_readVec {size : Nat} (hsize : 0 < size)
    (hn : n ≤ ggufMaxArrayElements) (h : bs.length = n * size) :
    Reads (readVec size n) bs bs := by
  refine Reads.ensure hn
    (Reads.remaining fun left hleft => Reads.ensure ?_ (reads_readMany h))
  rw [Nat.le_div_iff_mul_le hsize]
  omega

/-- A stored boolean. -/
def IsBool (b : UInt8) : Prop := b = 0 ∨ b = 1

theorem reads_readBool {b : UInt8} (h : IsBool b) : Reads readBool [b] b := by
  have hr := (reads_readNat 1 b.toNat_lt).map
    (fun v => if v ≠ 0 then (1 : UInt8) else 0)
  rcases h with rfl | rfl
  · exact hr
  · exact hr

theorem reads_readBools (h : ∀ b ∈ bs, IsBool b) :
    Reads (readBools bs.length) bs bs := by
  induction bs with
  | nil => exact Reads.pure []
  | cons b bs ih =>
      have hrest := ih fun c hc => h c (List.mem_cons_of_mem _ hc)
      exact (reads_readBool (h b List.mem_cons_self)).bind (hrest.map (b :: ·))

-- =============================== types

theorem fromI32_code (t : GgufType) : GgufType.fromI32 (t.code : Int) = some t := by
  cases t <;> rfl

theorem reads_readGgufType (t : GgufType) : Reads readGgufType
    (leBytes 4 t.code) t := by
  have hcode : t.code < 2 ^ 31 := by cases t <;> decide
  rw [← List.append_nil (leBytes 4 t.code)]
  apply (reads_readInt4 hcode).bind
  rw [fromI32_code]
  exact Reads.pure t

theorem ggml_fromI32_code (t : GgmlType) : GgmlType.fromI32
    (t.code : Int) = some t := by
  cases t <;> rfl

theorem reads_readGgmlType (t : GgmlType) : Reads readGgmlType
    (leBytes 4 t.code) t := by
  have hcode : t.code < 2 ^ 31 := by cases t <;> decide
  rw [← List.append_nil (leBytes 4 t.code)]
  apply (reads_readInt4 hcode).bind
  rw [ggml_fromI32_code]
  exact Reads.pure t

end Parse

end Minfer.Gguf
