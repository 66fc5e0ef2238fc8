/-
What a parse of arbitrary bytes comes to (`gguf.rs`): which layouts end in a
panic.

The layout of a file is said by relations on its bytes, from the fields up to
the loops. `Exact p R F` ties a reader to them: it returns a value exactly at
the bytes `R` gives for it, and panics exactly at the bytes of `F`. Everything
else is refused. The relations of a sequence of readers are those of its
parts, so each reader of the parser has one lemma.

# What follows

All but one of the panics are decided by the bytes read so far. The exception
is the buffer of a boolean array: whether it can be reserved also depends on
how much of the file is left, and on what the allocator grants. So `F` relates
the bytes that are read to those that follow them; along a sequence of readers
the first grow and the second stay, which is why sequencing needs no rule of
its own for them. The grant is a parameter of everything from the arrays on,
up to `Fatal`, the files that end the parse with a panic.

# Main results

* `Parse.Fatal`: the layouts that panic, field by field, on the bytes alone
* `parse_returns_iff`: for every file and every grant the parser returns
  unless the file is one of them
-/
import Minfer.Gguf.Proofs.Reads

namespace Minfer.Gguf

open Minfer.Lib

namespace Parse

variable {α β : Type}

-- ============================ calculus

/-- The reader panics exactly at these bytes, with these after them. -/
structure Panics (p : Parse α) (F : List UInt8 → List UInt8 → Prop) : Prop where
  stops : ∀ {bs after}, F bs after → ∀ before : List UInt8,
    p ⟨before ++ (bs ++ after), before.length⟩ = .error .panic
  panic : ∀ {before rest}, p ⟨before ++ rest, before.length⟩ = .error .panic →
    ∃ bs after, rest = bs ++ after ∧ F bs after

/-- The reader also returns a value exactly at the bytes given for it. -/
structure Exact (p : Parse α) (R : List UInt8 → α → Prop)
    (F : List UInt8 → List UInt8 → Prop) : Prop extends Panics p F where
  reads : ∀ {bs a}, R bs a → Reads p bs a
  ok : ∀ {before rest a r}, p ⟨before ++ rest, before.length⟩ = .ok (a, r) →
    ∃ bs after, rest = bs ++ after ∧ R bs a
      ∧ r = ⟨before ++ rest, before.length + bs.length⟩

variable {x p : Parse α}

/-- A reader that panics, after one that returns. -/
theorem Exact.panics {f : α → Parse β}
    {R : List UInt8 → α → Prop} {F : List UInt8 → List UInt8 → Prop}
    {G : α → List UInt8 → List UInt8 → Prop} (hx : Exact x R F)
    (hf : ∀ a, Panics (f a) (G a)) :
    Panics (x >>= f) fun bs after =>
      F bs after ∨ ∃ cs ds a, bs = cs ++ ds ∧ R cs a ∧ G a ds after where
  stops := by
    rintro bs after (hF | ⟨cs, ds, a, rfl, hR, hG⟩) before
    · exact bind_of_error (hx.stops hF before)
    · have hread := (hx.reads hR).run before (ds ++ after)
      have hstop := (hf a).stops hG (before ++ cs)
      rw [List.append_assoc, List.length_append] at hstop
      rw [List.append_assoc, bind_of_ok hread, hstop]
  panic := by
    intro before rest h
    cases hrun : x ⟨before ++ rest, before.length⟩ with
    | error s =>
        rw [bind_of_error hrun] at h
        cases h
        obtain ⟨bs, after, rfl, hF⟩ := hx.panic hrun
        exact ⟨bs, after, rfl, .inl hF⟩
    | ok v =>
        obtain ⟨a, r'⟩ := v
        obtain ⟨cs, after, rfl, hR, rfl⟩ := hx.ok hrun
        rw [bind_of_ok hrun, ← List.length_append, ← List.append_assoc] at h
        obtain ⟨ds, after', rfl, hG⟩ := (hf a).panic h
        exact ⟨cs ++ ds, after', (List.append_assoc ..).symm,
          .inr ⟨cs, ds, a, rfl, hR, hG⟩⟩

/-- One reader after another. -/
theorem Exact.bind {f : α → Parse β} {R : List UInt8 → α → Prop}
    {F : List UInt8 → List UInt8 → Prop} {S : α → List UInt8 → β → Prop}
    {G : α → List UInt8 → List UInt8 → Prop} (hx : Exact x R F)
    (hf : ∀ a, Exact (f a) (S a) (G a)) :
    Exact (x >>= f) (fun bs b => ∃ cs ds a, bs = cs ++ ds ∧ R cs a ∧ S a ds b)
      (fun bs after => F bs after ∨ ∃ cs ds a, bs = cs ++ ds ∧ R cs a
        ∧ G a ds after) where
  toPanics := hx.panics fun a => (hf a).toPanics
  reads := by
    rintro bs b ⟨cs, ds, a, rfl, hR, hS⟩
    exact (hx.reads hR).bind ((hf a).reads hS)
  ok := by
    intro before rest b r h
    cases hrun : x ⟨before ++ rest, before.length⟩ with
    | error s =>
        rw [bind_of_error hrun] at h
        cases h
    | ok v =>
        obtain ⟨a, r'⟩ := v
        obtain ⟨cs, after, rfl, hR, rfl⟩ := hx.ok hrun
        rw [bind_of_ok hrun, ← List.length_append, ← List.append_assoc] at h
        obtain ⟨ds, after', rfl, hS, rfl⟩ := (hf a).ok h
        refine ⟨cs ++ ds, after', (List.append_assoc ..).symm,
          ⟨cs, ds, a, rfl, hR, hS⟩, ?_⟩
        rw [List.append_assoc, List.length_append, List.length_append, Nat.add_assoc]

/-- The same relations in other words. -/
theorem Exact.congr {R R' : List UInt8 → α → Prop}
    {F F' : List UInt8 → List UInt8 → Prop} (h : Exact p R F)
    (hR : ∀ bs a, R bs a ↔ R' bs a)
    (hF : ∀ bs after, F bs after ↔ F' bs after) : Exact p R' F' := by
  obtain rfl : R = R' := funext fun bs => funext fun a => propext (hR bs a)
  obtain rfl : F = F' := funext fun bs => funext fun after => propext (hF bs after)
  exact h

/-- The same panics in other words. -/
theorem Panics.congr {F F' : List UInt8 → List UInt8 → Prop} (h : Panics p F)
    (hF : ∀ bs after, F bs after ↔ F' bs after) : Panics p F' := by
  obtain rfl : F = F' := funext fun bs => funext fun after => propext (hF bs after)
  exact h

theorem Exact.pure (a : α) : Exact (pure a : Parse α)
    (fun bs b => bs = [] ∧ b = a) (fun _ _ => False) where
  stops := False.elim
  reads := by
    rintro bs b ⟨rfl, rfl⟩
    exact .pure b
  ok := by
    intro before rest b r h
    obtain ⟨rfl, rfl⟩ := Prod.mk.inj (Except.ok.inj h)
    exact ⟨[], rest, rfl, ⟨rfl, rfl⟩, rfl⟩
  panic := nofun

/-- A result computed from what was read. -/
theorem Exact.map {R : List UInt8 → α → Prop}
    {F : List UInt8 → List UInt8 → Prop} (hx : Exact x R F) (g : α → β) :
    Exact (do return g (← x)) (fun bs b => ∃ a, R bs a ∧ b = g a) F := by
  refine (hx.bind fun a => Exact.pure (g a)).congr (fun bs b => ?_) fun bs after => ?_
  · constructor
    · rintro ⟨cs, _, a, rfl, hR, rfl, rfl⟩
      exact ⟨a, by rwa [List.append_nil], rfl⟩
    · rintro ⟨a, hR, rfl⟩
      exact ⟨bs, [], a, (List.append_nil bs).symm, hR, rfl, rfl⟩
  · simp

variable {f : Unit → Parse β} {st : Stop}

theorem ensure_true {p : Prop} [Decidable p] (h : p) :
    (ensure st p >>= f) = f () := by
  rw [ensure, if_pos h]
  rfl

theorem ensure_false {p : Prop} [Decidable p] (h : ¬ p) (r : GgufReader) :
    (ensure st p >>= f) r = .error st := by
  rw [ensure, if_neg h]
  rfl

/-- A test before a reader that panics. -/
theorem Panics.ensure {p : Prop} [Decidable p]
    {G : List UInt8 → List UInt8 → Prop} (hf : Panics (f ()) G) :
    Panics (ensure st p >>= f) fun bs after =>
      (¬ p ∧ st = .panic ∧ bs = []) ∨ (p ∧ G bs after) := by
  by_cases hp : p
  · rw [ensure_true hp]
    exact hf.congr fun bs after => by simp [hp]
  · constructor
    · rintro bs after (⟨-, rfl, rfl⟩ | ⟨h, -⟩) before
      · exact ensure_false hp _
      · exact absurd h hp
    · intro before rest h
      rw [ensure_false hp] at h
      cases h
      exact ⟨[], rest, rfl, .inl ⟨hp, rfl, rfl⟩⟩

/-- A test before the rest. -/
theorem Exact.ensure {p : Prop} [Decidable p] {S : List UInt8 → β → Prop}
    {G : List UInt8 → List UInt8 → Prop} (hf : Exact (f ()) S G) :
    Exact (ensure st p >>= f) (fun bs b => p ∧ S bs b)
      (fun bs after => (¬ p ∧ st = .panic ∧ bs = []) ∨ (p ∧ G bs after)) where
  toPanics := hf.toPanics.ensure
  reads := by
    rintro bs b ⟨hp, hS⟩
    rw [ensure_true hp]
    exact hf.reads hS
  ok := by
    intro before rest a r h
    by_cases hp : p
    · rw [ensure_true hp] at h
      obtain ⟨bs, after, hrest, hS, hr⟩ := hf.ok h
      exact ⟨bs, after, hrest, ⟨hp, hS⟩, hr⟩
    · rw [ensure_false hp] at h
      cases h

/-- A test against the bytes left. -/
theorem ensure_remaining {C : Nat → Prop} [DecidablePred C]
    (q : Parse β) (r : GgufReader) : (do
      let left ← Parse.remaining
      Parse.ensure st (C left)
      q : Parse β) r = if C r.nbytesRemain then q r else .error st := by
  show (Parse.ensure st (C r.nbytesRemain) >>= fun _ => q) r = _
  by_cases h : C r.nbytesRemain
  · rw [if_pos h, ensure_true h]
  · rw [if_neg h, ensure_false h]

/-- What is left of the file, where its last bytes are known. -/
theorem nbytesRemain_append (before rest : List UInt8) :
    GgufReader.nbytesRemain ⟨before ++ rest, before.length⟩ = rest.length := by
  rw [GgufReader.nbytesRemain, List.length_append, Nat.add_sub_cancel_left]

/-- A test against the bytes left, which the rest needs anyway: failing it, the
reader stops before it reads. -/
theorem Exact.remaining {s : Stop} {C : Nat → Prop} [DecidablePred C]
    {q : Parse β} {S : List UInt8 → β → Prop} (hq : Exact q S fun _ _ => False)
    (hC : ∀ {bs b left}, S bs b → bs.length ≤ left → C left) :
    Exact (do
      let left ← Parse.remaining
      Parse.ensure s (C left)
      q) S fun bs after => s = .panic ∧ ¬ C after.length ∧ bs = [] := by
  refine ⟨⟨?_, ?_⟩, fun hS => ?_, ?_⟩
  · rintro bs after ⟨rfl, hleft, rfl⟩ before
    rw [ensure_remaining, nbytesRemain_append, List.nil_append, if_neg hleft]
  · intro before rest h
    rw [ensure_remaining, nbytesRemain_append] at h
    split at h
    · obtain ⟨_, _, _, hnever⟩ := hq.panic h
      exact hnever.elim
    next hleft => exact ⟨[], rest, rfl, Except.error.inj h, hleft, rfl⟩
  · refine ⟨fun before after => ?_⟩
    rw [ensure_remaining, nbytesRemain_append, if_pos, (hq.reads hS).run]
    apply hC hS
    rw [List.length_append]
    exact Nat.le_add_right _ _
  · intro before rest a r h
    rw [ensure_remaining, nbytesRemain_append] at h
    split at h
    · exact hq.ok h
    · cases h

/-- The same, where failing the test refuses the file. -/
theorem Exact.left {C : Nat → Prop} [DecidablePred C] {q : Parse β}
    {S : List UInt8 → β → Prop} (hq : Exact q S fun _ _ => False)
    (hC : ∀ {bs b left}, S bs b → bs.length ≤ left → C left) :
    Exact (do
      let left ← Parse.remaining
      Parse.ensure .refused (C left)
      q) S fun _ _ => False :=
  (Exact.remaining hq hC).congr (fun _ _ => Iff.rfl) fun _ _ => by simp

-- ============================== fields

theorem exact_readRaw (n : Nat) : Exact (readRaw n)
    (fun bs a => bs.length = n ∧ a = bs) fun _ _ => False := by
  refine ⟨⟨False.elim, ?_⟩, ?_, ?_⟩
  · intro before rest h
    rw [readRaw] at h
    split at h
    · cases h
    · cases h
  · rintro bs a ⟨hlen, rfl⟩
    exact reads_readRaw_of_length hlen
  · intro before rest a r h
    rw [readRaw] at h
    split at h
    · cases h
    next hfits =>
      obtain ⟨rfl, rfl⟩ := Prod.mk.inj (Except.ok.inj h)
      have hlen : n ≤ rest.length := by
        have hleft : ¬ n > (before ++ rest).length - before.length := hfits
        rw [List.length_append] at hleft
        omega
      rw [List.drop_left]
      refine ⟨rest.take n, rest.drop n, (List.take_append_drop ..).symm,
        ⟨List.length_take_of_le hlen, rfl⟩, ?_⟩
      rw [List.length_take_of_le hlen]

theorem exact_readNat (n : Nat) : Exact (readNat n)
    (fun bs a => bs.length = n ∧ a = leNat bs) fun _ _ => False := by
  refine ((exact_readRaw n).map leNat).congr (fun bs a => ?_) fun _ _ => Iff.rfl
  constructor
  · rintro ⟨_, ⟨hlen, rfl⟩, rfl⟩
    exact ⟨hlen, rfl⟩
  · rintro ⟨hlen, rfl⟩
    exact ⟨bs, ⟨hlen, rfl⟩, rfl⟩

theorem exact_readInt (n : Nat) :
    Exact (readInt n) (fun bs a => bs.length = n
      ∧ a = signed (8 * n) (leNat bs)) fun _ _ => False := by
  refine ((exact_readNat n).map (signed (8 * n))).congr
    (fun bs a => ?_) fun _ _ => Iff.rfl
  constructor
  · rintro ⟨_, ⟨hlen, rfl⟩, rfl⟩
    exact ⟨hlen, rfl⟩
  · rintro ⟨hlen, rfl⟩
    exact ⟨_, ⟨hlen, rfl⟩, rfl⟩

/-- A string: its length in eight bytes, and its bytes. -/
def StringAt (bs : List UInt8) (s : Text) : Prop :=
  ∃ head body, bs = head ++ body ∧ head.length = 8 ∧ body.length = leNat head
    ∧ leNat head ≤ ggufMaxStringLength ∧ s = fromUtf8Lossy body

theorem exact_readString : Exact readString StringAt fun _ _ => False := by
  have hbody : ∀ size, Exact (do
      let left ← remaining
      ensure .refused (size ≤ left)
      return fromUtf8Lossy (← readRaw size))
      (fun bs s => bs.length = size ∧ s = fromUtf8Lossy bs) fun _ _ => False := by
    intro size
    refine Exact.left (C := (size ≤ ·))
      (((exact_readRaw size).map fromUtf8Lossy).congr (fun bs s => ?_)
      fun _ _ => Iff.rfl) fun h hle => ?_
    · constructor
      · rintro ⟨_, ⟨hlen, rfl⟩, rfl⟩
        exact ⟨hlen, rfl⟩
      · rintro ⟨hlen, rfl⟩
        exact ⟨bs, ⟨hlen, rfl⟩, rfl⟩
    · exact h.1 ▸ hle
  refine ((exact_readNat 8).bind fun size => Exact.ensure (hbody size)).congr
    (fun bs s => ?_) fun bs after => ?_
  · constructor
    · rintro ⟨head, body, _, rfl, ⟨hlen, rfl⟩, hmax, hbody, rfl⟩
      exact ⟨head, body, rfl, hlen, hbody, hmax, rfl⟩
    · rintro ⟨head, body, rfl, hlen, hbody, hmax, rfl⟩
      exact ⟨head, body, _, rfl, ⟨hlen, rfl⟩, hmax, hbody, rfl⟩
  · simp

/-- The type of a value in four bytes. -/
def TypeAt (bs : List UInt8) (t : GgufType) : Prop :=
  bs.length = 4 ∧ GgufType.fromI32 (signed 32 (leNat bs)) = some t

/-- Four bytes that are no type. -/
def BadType (bs : List UInt8) : Prop :=
  bs.length = 4 ∧ GgufType.fromI32 (signed 32 (leNat bs)) = none

theorem exact_stop : Exact (stop .panic : Parse α) (fun _ _ => False)
    (fun bs _ => bs = []) := by
  refine ⟨⟨?_, ?_⟩, False.elim, ?_⟩
  · rintro bs after rfl before
    rfl
  · intro before rest _
    exact ⟨[], rest, rfl, rfl⟩
  · intro before rest a r h
    cases h

/-- An enumeration, which panics on the codes it does not have. -/
theorem exact_code {f : Int → Option α} {k : Int → Parse α}
    (hsome : ∀ v t, f v = some t → k v = pure t)
    (hnone : ∀ v, f v = none → k v = stop .panic) :
    Exact (readInt 4 >>= k) (fun bs t => bs.length = 4
      ∧ f (signed 32 (leNat bs)) = some t)
      (fun bs _ => bs.length = 4 ∧ f (signed 32 (leNat bs)) = none) := by
  have hcode : ∀ v,
      Exact (k v) (fun bs t => bs = [] ∧ f v = some t)
      (fun bs _ => bs = [] ∧ f v = none) := by
    intro v
    cases hf : f v with
    | none =>
        rw [hnone v hf]
        exact exact_stop.congr (by simp) (by simp)
    | some t =>
        rw [hsome v t hf]
        exact (Exact.pure t).congr (by simp [eq_comm]) (by simp)
  refine ((exact_readInt 4).bind hcode).congr (fun bs t => ?_) fun bs after => ?_
  · constructor
    · rintro ⟨cs, _, _, rfl, ⟨hlen, rfl⟩, rfl, h⟩
      rw [List.append_nil]
      exact ⟨hlen, h⟩
    · rintro ⟨hlen, h⟩
      exact ⟨bs, [], _, (List.append_nil bs).symm, ⟨hlen, rfl⟩, rfl, h⟩
  · constructor
    · rintro (h | ⟨cs, _, _, rfl, ⟨hlen, rfl⟩, rfl, h⟩)
      · exact h.elim
      · rw [List.append_nil]
        exact ⟨hlen, h⟩
    · rintro ⟨hlen, h⟩
      exact .inr ⟨bs, [], _, (List.append_nil bs).symm, ⟨hlen, rfl⟩, rfl, h⟩

theorem exact_readGgufType : Exact readGgufType TypeAt fun bs _ => BadType bs := by
  refine exact_code (fun v t h => ?_) fun v h => ?_
  · simp only [h]
  · simp only [h]

/-- The type of a tensor in four bytes. -/
def TensorTypeAt (bs : List UInt8) (t : GgmlType) : Prop :=
  bs.length = 4 ∧ GgmlType.fromI32 (signed 32 (leNat bs)) = some t

/-- Four bytes that are no type of a tensor. -/
def BadTensorType (bs : List UInt8) : Prop :=
  bs.length = 4 ∧ GgmlType.fromI32 (signed 32 (leNat bs)) = none

theorem exact_readGgmlType : Exact readGgmlType TensorTypeAt fun bs _ =>
    BadTensorType bs := by
  refine exact_code (fun v t h => ?_) fun v h => ?_
  · simp only [h]
  · simp only [h]

-- ============================== values

theorem exact_readMany (size n : Nat) :
    Exact (readMany size n) (fun bs a => bs.length = n * size
      ∧ a = bs) fun _ _ => False := by
  induction n with
  | zero =>
      refine (Exact.pure []).congr (fun bs a => ?_) fun _ _ => Iff.rfl
      rw [Nat.zero_mul, List.length_eq_zero_iff]
      constructor
      · rintro ⟨rfl, rfl⟩
        exact ⟨rfl, rfl⟩
      · rintro ⟨rfl, rfl⟩
        exact ⟨rfl, rfl⟩
  | succ n ih =>
      refine ((exact_readRaw size).bind fun x => ih.map (x ++ ·)).congr
        (fun bs a => ?_) fun bs after => by simp
      constructor
      · rintro ⟨cs, ds, _, rfl, ⟨hcs, rfl⟩, _, ⟨hds, rfl⟩, rfl⟩
        refine ⟨?_, rfl⟩
        rw [List.length_append, hcs, hds, Nat.succ_mul]
        omega
      · rintro ⟨hlen, rfl⟩
        rw [Nat.succ_mul] at hlen
        exact ⟨a.take size, a.drop size, _, (List.take_append_drop ..).symm,
          ⟨List.length_take_of_le (by omega), rfl⟩, _,
            ⟨by rw [List.length_drop]; omega, rfl⟩,
          (List.take_append_drop ..).symm⟩

theorem exact_readVec {size : Nat} (hsize : 0 < size) (n : Nat) :
    Exact (readVec size n)
    (fun bs a => n ≤ ggufMaxArrayElements ∧ bs.length = n * size
      ∧ a = bs) fun _ _ => False := by
  have hmany :=
      Exact.left (C := (n ≤ · / size)) (exact_readMany size n) fun h hle => by
    rw [Nat.le_div_iff_mul_le hsize]
    exact h.1 ▸ hle
  exact (Exact.ensure hmany).congr (fun bs a => Iff.rfl) (by simp)

/-- So many strings. -/
def StringsAt : Nat → List UInt8 → List Text → Prop
  | 0, bs, ss => bs = [] ∧ ss = []
  | n + 1, bs, ss => ∃ b c s t, bs = b ++ c ∧ StringAt b s ∧ StringsAt n c t
      ∧ ss = s :: t

theorem exact_readStrings (n : Nat) : Exact (readStrings n)
    (StringsAt n) fun _ _ => False := by
  induction n with
  | zero => exact Exact.pure []
  | succ n ih =>
      refine (exact_readString.bind fun s => ih.map (s :: ·)).congr
        (fun bs ss => ?_) fun bs after => by simp
      constructor
      · rintro ⟨b, c, s, rfl, hs, t, ht, rfl⟩
        exact ⟨b, c, s, t, rfl, hs, ht, rfl⟩
      · rintro ⟨b, c, s, t, rfl, hs, ht, rfl⟩
        exact ⟨b, c, s, rfl, hs, t, ht, rfl⟩

theorem length_stringsAt {n : Nat} {bs : List UInt8} {ss : List Text}
    (h : StringsAt n bs ss) :
    n * 8 ≤ bs.length := by
  induction n generalizing bs ss with
  | zero => exact Nat.zero_le _
  | succ n ih =>
      obtain ⟨b, c, s, t, rfl, ⟨head, body, rfl, hhead, -⟩, ht, -⟩ := h
      have hrest := ih ht
      rw [List.length_append, List.length_append, hhead]
      omega

theorem exact_readStringVec (n : Nat) : Exact (readStringVec n)
    (fun bs ss => n ≤ ggufMaxArrayElements ∧ StringsAt n bs ss) fun _ _ => False := by
  have hstrings := Exact.left (C := (n * 8 ≤ ·)) (exact_readStrings n) fun h hle =>
    Nat.le_trans (length_stringsAt h) hle
  exact (Exact.ensure hstrings).congr (fun bs a => Iff.rfl) (by simp)

/-- A boolean as it is kept. -/
def boolOf (b : UInt8) : UInt8 := if b ≠ 0 then 1 else 0

theorem exact_readBool : Exact readBool
    (fun bs a => ∃ b, bs = [b] ∧ a = boolOf b) fun _ _ => False := by
  refine ((exact_readNat 1).map fun v => if v ≠ 0 then (1 : UInt8)
    else 0).congr (fun bs a => ?_) fun _ _ => Iff.rfl
  have hnat : ∀ b : UInt8, (if leNat [b] ≠ 0 then (1 : UInt8) else 0) = boolOf b := by
    intro b
    have hval : leNat [b] = b.toNat := by simp [leNat]
    have hzero : b.toNat ≠ 0 ↔ b ≠ 0 := by
      rw [ne_eq, ne_eq, ← UInt8.toNat_inj]
      rfl
    simp only [hval, hzero, boolOf]
  constructor
  · rintro ⟨_, ⟨hlen, rfl⟩, rfl⟩
    obtain ⟨b, rfl⟩ := List.length_eq_one_iff.mp hlen
    exact ⟨b, rfl, hnat b⟩
  · rintro ⟨b, rfl, rfl⟩
    exact ⟨_, ⟨rfl, rfl⟩, (hnat b).symm⟩

theorem exact_readBools (n : Nat) :
    Exact (readBools n) (fun bs a => bs.length = n
      ∧ a = bs.map boolOf) fun _ _ => False := by
  induction n with
  | zero =>
      refine (Exact.pure []).congr (fun bs a => ?_) fun _ _ => Iff.rfl
      rw [List.length_eq_zero_iff]
      constructor
      · rintro ⟨rfl, rfl⟩
        exact ⟨rfl, rfl⟩
      · rintro ⟨rfl, rfl⟩
        exact ⟨rfl, rfl⟩
  | succ n ih =>
      refine (exact_readBool.bind fun b => ih.map (b :: ·)).congr
        (fun bs a => ?_) fun bs after => by simp
      constructor
      · rintro ⟨_, ds, _, rfl, ⟨b, rfl, rfl⟩, _, ⟨hds, rfl⟩, rfl⟩
        exact ⟨by rw [List.singleton_append, List.length_cons, hds], rfl⟩
      · rintro ⟨hlen, rfl⟩
        rcases bs with _ | ⟨b, bs⟩
        · cases hlen
        · exact ⟨[b], bs, _, rfl, ⟨b, rfl, rfl⟩, _, ⟨Nat.succ.inj hlen, rfl⟩, rfl⟩

/-- The buffer of a boolean array is what panics, before a byte is read; it can
be reserved wherever the bytes of the array are there. -/
theorem exact_readBoolVec (grant n : Nat) : Exact (readBoolVec grant n)
    (fun bs a => n < 2 ^ 63 ∧ bs.length = n ∧ a = bs.map boolOf)
    fun bs after => ¬ Reservable grant after.length n ∧ bs = [] := by
  by_cases hn : n < 2 ^ 63
  · have hread :=
      Exact.remaining (s := .panic) (C := (Reservable grant · n))
      (exact_readBools n)
      fun h hle => ⟨hn, .inl (h.1 ▸ hle)⟩
    exact hread.congr (fun bs a => ⟨fun h => ⟨hn, h⟩, And.right⟩) fun bs
      after => by simp
  · have hnever : ∀ left, ¬ Reservable grant left n := fun left h => hn h.1
    have hrun : ∀ r, readBoolVec grant n r = .error .panic := fun r =>
      (ensure_remaining (C := (Reservable grant · n)) (readBools n) r).trans
        (if_neg (hnever _))
    refine ⟨⟨?_, ?_⟩, fun h => absurd h.1 hn, ?_⟩
    · rintro bs after - before
      exact hrun _
    · intro before rest _
      exact ⟨[], rest, rfl, hnever _, rfl⟩
    · intro before rest a r h
      rw [hrun] at h
      cases h

/-- The bytes of one value of a type. -/
def ScalarAt (key : Text) (type : GgufType) (bs : List UInt8) (kv : GgufKv) : Prop :=
  match type with
  | .array => False
  | .string => ∃ s, StringAt bs s ∧ kv = ⟨key, false, .string, [], [s]⟩
  | .bool => ∃ b, bs = [b] ∧ kv = ⟨key, false, .bool, [boolOf b], []⟩
  | _ => bs.length = type.typeSize ∧ kv = ⟨key, false, type, bs, []⟩

/-- The bytes of `n` values of a type. -/
def ArrayAt (key : Text) (type : GgufType) (n : Nat) (bs : List UInt8)
    (kv : GgufKv) : Prop :=
  match type with
  | .array => False
  | .string => ∃ ss, n ≤ ggufMaxArrayElements ∧ StringsAt n bs ss
      ∧ kv = ⟨key, true, .string, [], ss⟩
  | .bool => n < 2 ^ 63 ∧ bs.length = n ∧ kv = ⟨key, true, .bool, bs.map boolOf, []⟩
  | _ => n ≤ ggufMaxArrayElements ∧ bs.length = n * type.typeSize
      ∧ kv = ⟨key, true, type, bs, []⟩

theorem exact_refuse : Exact (stop .refused : Parse α)
    (fun _ _ => False) fun _ _ => False :=
  ⟨⟨False.elim, nofun⟩, False.elim, nofun⟩

theorem exact_readScalar (key : Text) (type : GgufType) :
    Exact (readScalar key type) (ScalarAt key type) fun _ _ => False := by
  have hraw : Exact
      (do return (⟨key, false, type, ← readRaw type.typeSize, []⟩ : GgufKv))
      (fun bs kv => bs.length = type.typeSize
          ∧ kv = ⟨key, false, type, bs, []⟩) fun _ _ => False := by
    refine ((exact_readRaw type.typeSize).map
      (GgufKv.mk key false type · [])).congr (fun bs kv => ?_)
      fun _ _ => Iff.rfl
    constructor
    · rintro ⟨_, ⟨hlen, rfl⟩, rfl⟩
      exact ⟨hlen, rfl⟩
    · rintro ⟨hlen, rfl⟩
      exact ⟨bs, ⟨hlen, rfl⟩, rfl⟩
  cases type
  case array => exact exact_refuse
  case string => exact exact_readString.map fun s =>
    (⟨key, false, .string, [], [s]⟩ : GgufKv)
  case bool =>
    refine (exact_readBool.map fun b =>
      (⟨key, false, .bool, [b], []⟩ : GgufKv)).congr (fun bs kv => ?_)
      fun _ _ => Iff.rfl
    constructor
    · rintro ⟨_, ⟨b, rfl, rfl⟩, rfl⟩
      exact ⟨b, rfl, rfl⟩
    · rintro ⟨b, rfl, rfl⟩
      exact ⟨_, ⟨b, rfl, rfl⟩, rfl⟩
  all_goals exact hraw

theorem exact_readArray (grant : Nat) (key : Text) (type : GgufType) (n : Nat) :
    Exact (readArray grant key type n) (ArrayAt key type n)
      fun bs after => type = .bool ∧ ¬ Reservable grant after.length n ∧ bs = [] := by
  have hvec : 0 < type.typeSize → type ≠ .bool →
      Exact (do return (⟨key, true, type, ← readVec type.typeSize n, []⟩ : GgufKv))
        (fun bs kv => n ≤ ggufMaxArrayElements ∧ bs.length = n * type.typeSize
          ∧ kv = ⟨key, true, type, bs, []⟩)
        fun bs after => type = .bool ∧ ¬ Reservable grant after.length n
            ∧ bs = [] := by
    intro hsize hbool
    refine ((exact_readVec hsize n).map (GgufKv.mk key true type · [])).congr
      (fun bs kv => ?_) (by simp [hbool])
    constructor
    · rintro ⟨_, ⟨hmax, hlen, rfl⟩, rfl⟩
      exact ⟨hmax, hlen, rfl⟩
    · rintro ⟨hmax, hlen, rfl⟩
      exact ⟨bs, ⟨hmax, hlen, rfl⟩, rfl⟩
  cases type
  case array => exact exact_refuse.congr (fun _ _ => Iff.rfl) (by simp)
  case string =>
    refine ((exact_readStringVec n).map fun ss =>
      (⟨key, true, .string, [], ss⟩ : GgufKv)).congr (fun bs kv => ?_)
      (by simp)
    constructor
    · rintro ⟨ss, ⟨hmax, h⟩, rfl⟩
      exact ⟨ss, hmax, h, rfl⟩
    · rintro ⟨ss, hmax, h, rfl⟩
      exact ⟨ss, ⟨hmax, h⟩, rfl⟩
  case bool =>
    refine ((exact_readBoolVec grant n).map fun bs =>
      (⟨key, true, .bool, bs, []⟩ : GgufKv)).congr (fun bs kv => ?_)
      (by simp)
    constructor
    · rintro ⟨_, ⟨hmax, hlen, rfl⟩, rfl⟩
      exact ⟨hmax, hlen, rfl⟩
    · rintro ⟨hmax, hlen, rfl⟩
      exact ⟨_, ⟨hmax, hlen, rfl⟩, rfl⟩
  all_goals exact hvec (by decide) (by decide)

-- ========================== key values

/-- The bytes of a value after its key. -/
inductive ValueAt (key : Text) : List UInt8 → GgufKv → Prop where
  | scalar {t v : List UInt8} {type : GgufType} {kv : GgufKv}
      (ht : TypeAt t type) (hne : type ≠ .array)
      (hv : ScalarAt key type v kv) : ValueAt key (t ++ v) kv
  | array {t e c v : List UInt8} {elem : GgufType} {kv : GgufKv}
      (ht : TypeAt t .array) (he : TypeAt e elem)
      (hc : c.length = 8) (hv : ArrayAt key elem (leNat c) v kv) :
        ValueAt key (t ++ (e ++ (c ++ v))) kv

/-- The bytes after a key that panic: no type, no type of elements, and more
booleans than a buffer can be reserved for, given what follows them. -/
inductive BadValue (grant : Nat) : List UInt8 → List UInt8 → Prop where
  | type {t after : List UInt8} (ht : BadType t) : BadValue grant t after
  | elem {t e after : List UInt8} (ht : TypeAt t .array) (he : BadType e) :
      BadValue grant (t ++ e) after
  | bools {t e c after : List UInt8} (ht : TypeAt t .array) (he : TypeAt e .bool)
      (hc : c.length = 8) (hn : ¬ Reservable grant after.length (leNat c)) :
      BadValue grant (t ++ (e ++ c)) after

/-- The bytes of a key/value pair whose key is new. -/
def KvAt (seen : List GgufKv) (bs : List UInt8) (kv : GgufKv) : Prop :=
  ∃ k key v, bs = k ++ v ∧ StringAt k key ∧ (∀ kv ∈ seen, kv.key ≠ key)
    ∧ ValueAt key v kv

/-- The bytes of a pair that panics. -/
def BadKv (grant : Nat) (seen : List GgufKv) (bs after : List UInt8) : Prop :=
  ∃ k key v, bs = k ++ v ∧ StringAt k key ∧ (∀ kv ∈ seen, kv.key ≠ key)
    ∧ BadValue grant v after

/-- The array after its type, told by what it starts with. -/
theorem exact_afterType (grant : Nat) (key : Text) (type : GgufType) :
    Exact (if type = .array then do
      let elem ← readGgufType
      let n ← readNat 8
      readArray grant key elem n
    else readScalar key type)
    (fun bs kv => (type ≠ .array ∧ ScalarAt key type bs kv)
      ∨ (type = .array ∧ ∃ e elem c v, bs = e ++ (c ++ v)
      ∧ TypeAt e elem ∧ c.length = 8 ∧ ArrayAt key elem (leNat c) v kv))
    (fun bs after => type = .array ∧ (BadType bs ∨ ∃ e c, bs = e ++ c ∧ TypeAt e .bool
      ∧ c.length = 8 ∧ ¬ Reservable grant after.length (leNat c))) := by
  by_cases harray : type = .array
  · simp only [if_pos harray]
    refine (exact_readGgufType.bind fun elem => (exact_readNat 8).bind fun n =>
      exact_readArray grant key elem n).congr
      (fun bs kv => ?_) fun bs after => ?_
    · constructor
      · rintro ⟨e, _, elem, rfl, he, c, v, _, rfl, ⟨hc, rfl⟩, hv⟩
        exact .inr ⟨harray, e, elem, c, v, rfl, he, hc, hv⟩
      · rintro (⟨hne, -⟩ | ⟨-, e, elem, c, v, rfl, he, hc, hv⟩)
        · exact absurd harray hne
        · exact ⟨e, _, elem, rfl, he, c, v, _, rfl, ⟨hc, rfl⟩, hv⟩
    · constructor
      · rintro (h | ⟨e, _, _, rfl, he, h | ⟨c, _, _, rfl, ⟨hc, rfl⟩, rfl, hn, rfl⟩⟩)
        · exact ⟨harray, .inl h⟩
        · exact h.elim
        · exact ⟨harray, .inr ⟨e, c, by rw [List.append_nil], he, hc, hn⟩⟩
      · rintro ⟨-, h | ⟨e, c, rfl, he, hc, hn⟩⟩
        · exact .inl h
        · exact .inr
            ⟨e, c, _, rfl, he,
              .inr ⟨c, [], _, (List.append_nil c).symm, ⟨hc, rfl⟩, rfl,
                hn, rfl⟩⟩
  · simp only [if_neg harray]
    exact (exact_readScalar key type).congr (by simp [harray]) (by simp [harray])

/-- The part of `read_kv` after the key. -/
theorem exact_value (grant : Nat) (key : Text) : Exact (do
    let type ← readGgufType
    if type = .array then
      let elem ← readGgufType
      let n ← readNat 8
      readArray grant key elem n
    else readScalar key type) (ValueAt key) (BadValue grant) := by
  refine (exact_readGgufType.bind (exact_afterType grant key)).congr
    (fun bs kv => ?_) fun bs after => ?_
  · constructor
    · rintro ⟨t, _, type, rfl, ht, ⟨hne, hv⟩ | ⟨rfl, e, elem, c, v, rfl, he, hc, hv⟩⟩
      · exact .scalar ht hne hv
      · exact .array ht he hc hv
    · intro h
      cases h with
      | scalar ht hne hv => exact ⟨_, _, _, rfl, ht, .inl ⟨hne, hv⟩⟩
      | array ht he hc hv =>
          exact ⟨_, _, _, rfl, ht, .inr ⟨rfl, _, _, _, _, rfl, he, hc, hv⟩⟩
  · constructor
    · rintro (h | ⟨t, _, _, rfl, ht, rfl, he | ⟨e, c, rfl, he, hc, hn⟩⟩)
      · exact .type h
      · exact .elem ht he
      · exact .bools ht he hc hn
    · intro h
      cases h with
      | type ht => exact .inl ht
      | elem ht he => exact .inr ⟨_, _, _, rfl, ht, rfl, .inl he⟩
      | bools ht he hc hn =>
          exact .inr ⟨_, _, _, rfl, ht, rfl, .inr ⟨_, _, rfl, he, hc, hn⟩⟩

theorem exact_readKv (grant : Nat) (seen : List GgufKv) :
    Exact (readKv grant seen) (KvAt seen) (BadKv grant seen) := by
  refine (exact_readString.bind fun key =>
    Exact.ensure (exact_value grant key)).congr
    (fun bs kv => ?_) fun bs after => ?_
  · constructor
    · rintro ⟨k, v, key, rfl, hk, hnew, hv⟩
      exact ⟨k, key, v, rfl, hk, hnew, hv⟩
    · rintro ⟨k, key, v, rfl, hk, hnew, hv⟩
      exact ⟨k, v, key, rfl, hk, hnew, hv⟩
  · constructor
    · rintro (h | ⟨k, v, key, rfl, hk, ⟨-, h, -⟩ | ⟨hnew, hv⟩⟩)
      · exact h.elim
      · cases h
      · exact ⟨k, key, v, rfl, hk, hnew, hv⟩
    · rintro ⟨k, key, v, rfl, hk, hnew, hv⟩
      exact .inr ⟨k, v, key, rfl, hk, .inr ⟨hnew, hv⟩⟩

-- =============================== loops

/-- So many records, each read against those before it. -/
inductive RecordsAt (At : List α → List UInt8 → α → Prop) : Nat → List α →
    List UInt8 → List α → Prop where
  | nil {seen : List α} : RecordsAt At 0 seen [] seen
  | cons {n : Nat} {seen as : List α} {a : α} {b c : List UInt8} (hb : At seen b a)
      (hc : RecordsAt At n (seen ++ [a]) c as) : RecordsAt At (n + 1) seen (b ++ c) as

/-- Records of which one panics, after some that do not. -/
inductive BadRecords (At : List α → List UInt8 → α → Prop)
    (Bad : List α → List UInt8 → List UInt8 → Prop) :
    Nat → List α → List UInt8 → List UInt8 → Prop where
  | here {n : Nat} {seen : List α} {b after : List UInt8} (hb : Bad seen b after) :
      BadRecords At Bad (n + 1) seen b after
  | later {n : Nat} {seen : List α} {a : α} {b c after : List UInt8}
      (hb : At seen b a)
      (hc : BadRecords At Bad n (seen ++ [a]) c after) :
      BadRecords At Bad (n + 1) seen (b ++ c) after

/-- A loop over records. -/
theorem exact_records {At : List α → List UInt8 → α → Prop}
    {Bad : List α → List UInt8 → List UInt8 → Prop}
    {one : List α → Parse α} {loop : Nat → List α → Parse (List α)}
    (hone : ∀ seen, Exact (one seen) (At seen) (Bad seen))
    (hzero : ∀ seen, loop 0 seen = pure seen)
    (hsucc : ∀ n seen, loop (n + 1) seen = one seen >>= fun a =>
      loop n (seen ++ [a])) (n : Nat) (seen : List α) :
    Exact (loop n seen) (RecordsAt At n seen) (BadRecords At Bad n seen) := by
  induction n generalizing seen with
  | zero =>
      rw [hzero]
      refine (Exact.pure seen).congr (fun bs as => ?_) fun bs after => ?_
      · constructor
        · rintro ⟨rfl, rfl⟩
          exact .nil
        · intro h
          cases h
          exact ⟨rfl, rfl⟩
      · exact ⟨False.elim, nofun⟩
  | succ n ih =>
      rw [hsucc]
      refine ((hone seen).bind fun a => ih (seen ++ [a])).congr
        (fun bs as => ?_) fun bs after => ?_
      · constructor
        · rintro ⟨b, c, a, rfl, hb, hc⟩
          exact .cons hb hc
        · intro h
          cases h with
          | cons hb hc => exact ⟨_, _, _, rfl, hb, hc⟩
      · constructor
        · rintro (hb | ⟨b, c, a, rfl, hb, hc⟩)
          · exact .here hb
          · exact .later hb hc
        · intro h
          cases h with
          | here hb => exact .inl hb
          | later hb hc => exact .inr ⟨_, _, _, rfl, hb, hc⟩

theorem exact_readKvs (grant n : Nat) (seen : List GgufKv) :
    Exact (readKvs grant n seen) (RecordsAt KvAt n seen)
      (BadRecords KvAt (BadKv grant) n seen) :=
  exact_records (exact_readKv grant) (fun _ => rfl) (fun _ _ => rfl) n seen

-- ============================= tensors

/-- The bytes of the dimensions. -/
def DimsAt : Nat → List UInt8 → List Int → Prop
  | 0, bs, dims => bs = [] ∧ dims = []
  | n + 1, bs, dims => ∃ b c t, bs = b ++ c ∧ b.length = 8
      ∧ 0 ≤ signed 64 (leNat b) ∧ DimsAt n c t
      ∧ dims = signed 64 (leNat b) :: t

theorem exact_readDims (n : Nat) : Exact (readDims n)
    (DimsAt n) fun _ _ => False := by
  induction n with
  | zero => exact Exact.pure []
  | succ n ih =>
      refine ((exact_readInt 8).bind fun v =>
        Exact.ensure (ih.map (v :: ·))).congr (fun bs dims => ?_)
        fun bs after => by simp
      constructor
      · rintro ⟨b, c, _, rfl, ⟨hb, rfl⟩, hsign, t, ht, rfl⟩
        exact ⟨b, c, t, rfl, hb, hsign, ht, rfl⟩
      · rintro ⟨b, c, t, rfl, hb, hsign, ht, rfl⟩
        exact ⟨b, c, _, rfl, ⟨hb, rfl⟩, hsign, t, ht, rfl⟩

/-- The number of elements is representable, as the parser tests it. -/
def ElementsFit (ne : Int × Int × Int × Int) : Prop :=
  ne.2.1 ≠ 0 ∧ ne.1 < i64Max / ne.2.1 ∧ ne.2.2.1 ≠ 0
    ∧ wrapI64 (ne.1 * ne.2.1) < i64Max / ne.2.2.1
    ∧ ne.2.2.2 ≠ 0 ∧ wrapI64 (wrapI64 (ne.1 * ne.2.1) * ne.2.2.1) < i64Max / ne.2.2.2

/-- The test comes to a dimension of zero, by which it divides. -/
def DividesByZero (ne : Int × Int × Int × Int) : Prop :=
  ne.2.1 = 0 ∨ ne.1 < i64Max / ne.2.1
    ∧ (ne.2.2.1 = 0 ∨ wrapI64 (ne.1 * ne.2.1) < i64Max / ne.2.2.1
      ∧ ne.2.2.2 = 0)

theorem exact_checkElements (ne : Int × Int × Int × Int) : Exact (checkElements ne)
    (fun bs _ => bs = [] ∧ ElementsFit ne) (fun bs _ => bs = []
      ∧ DividesByZero ne) := by
  have hlast : ∀ p : Prop, ∀ _ : Decidable p,
      Exact (ensure .refused p) (fun bs _ => p ∧ bs = []) fun _ _ => False := by
    intro p _
    have hpure : (ensure .refused p >>= pure) = ensure .refused p := bind_pure _
    rw [← hpure]
    refine (Exact.ensure (Exact.pure ())).congr (fun bs u => ?_) fun bs after => ?_
    · exact ⟨fun h => ⟨h.1, h.2.1⟩, fun h => ⟨h.1, h.2, rfl⟩⟩
    · simp
  have hfourth :=
    hlast (wrapI64 (wrapI64 (ne.1 * ne.2.1) * ne.2.2.1) < i64Max / ne.2.2.2)
    inferInstance
  refine Exact.congr (Exact.ensure <| Exact.ensure <| Exact.ensure <|
    Exact.ensure <| Exact.ensure hfourth)
    (fun bs u => ?_) fun bs after => ?_
  · simp only [ElementsFit]
    tauto
  · simp only [DividesByZero]
    tauto

/-- The bytes of a tensor record whose name is new. -/
def InfoAt (seen : List GgufTensorInfo) (bs : List UInt8)
    (info : GgufTensorInfo) : Prop :=
  ∃ n name d ds dims t type o, bs = n ++ (d ++ (ds ++ (t ++ o))) ∧ StringAt n name
    ∧ (Lib.utf8Encode name).length < ggmlMaxName ∧ (∀ info ∈ seen, info.name ≠ name)
    ∧ d.length = 4 ∧ leNat d ≤ ggmlMaxDims ∧ DimsAt (leNat d) ds dims
    ∧ ElementsFit (shapeOf dims)
    ∧ TensorTypeAt t type ∧ (shapeOf dims).1.tmod type.blckSize = 0
    ∧ asU64 ((neProduct (shapeOf dims)).tdiv type.blckSize) ≤ u64Max / type.typeSize
    ∧ o.length = 8
    ∧ info = ⟨name, shapeOf dims, strides type (shapeOf dims), type, leNat o⟩

/-- The bytes of a tensor record that panics: a dimension of zero, or a type
that is none. -/
inductive BadInfo (seen : List GgufTensorInfo) : List UInt8 → Prop where
  | zero {n d ds : List UInt8} {name : Text} {dims : List Int} (hn : StringAt n name)
      (hshort : (Lib.utf8Encode name).length < ggmlMaxName)
        (hnew : ∀ info ∈ seen, info.name ≠ name)
      (hd : d.length = 4) (hmax : leNat d ≤ ggmlMaxDims)
        (hds : DimsAt (leNat d) ds dims)
      (hzero : DividesByZero (shapeOf dims)) : BadInfo seen (n ++ (d ++ ds))
  | type {n d ds t : List UInt8} {name : Text} {dims : List Int}
      (hn : StringAt n name)
      (hshort : (Lib.utf8Encode name).length < ggmlMaxName)
        (hnew : ∀ info ∈ seen, info.name ≠ name)
      (hd : d.length = 4) (hmax : leNat d ≤ ggmlMaxDims)
        (hds : DimsAt (leNat d) ds dims)
      (hfit : ElementsFit (shapeOf dims)) (ht : BadTensorType t) :
        BadInfo seen (n ++ (d ++ (ds ++ t)))

/-- The part of a record after its shape. -/
theorem exact_typed (name : Text) (ne : Int × Int × Int × Int) : Exact (do
    let type ← readGgmlType
    ensure .refused (ne.1.tmod type.blckSize = 0)
    ensure .refused
      (asU64 ((neProduct ne).tdiv type.blckSize) ≤ u64Max / type.typeSize)
    let offset ← readNat 8
    return (⟨name, ne, strides type ne, type, offset⟩ : GgufTensorInfo))
    (fun bs info => ∃ t type o, bs = t ++ o ∧ TensorTypeAt t type
      ∧ ne.1.tmod type.blckSize = 0
      ∧ asU64 ((neProduct ne).tdiv type.blckSize) ≤ u64Max / type.typeSize
      ∧ o.length = 8
      ∧ info = ⟨name, ne, strides type ne, type, leNat o⟩) fun bs _ =>
        BadTensorType bs := by
  refine (exact_readGgmlType.bind fun type => Exact.ensure <| Exact.ensure <|
    (exact_readNat 8).map fun offset =>
      (⟨name, ne, strides type ne, type, offset⟩ : GgufTensorInfo)).congr
      (fun bs info => ?_)
    fun bs after => by simp
  constructor
  · rintro ⟨t, o, type, rfl, ht, hrow, hbytes, _, ⟨ho, rfl⟩, rfl⟩
    exact ⟨t, type, o, rfl, ht, hrow, hbytes, ho, rfl⟩
  · rintro ⟨t, type, o, rfl, ht, hrow, hbytes, ho, rfl⟩
    exact ⟨t, o, type, rfl, ht, hrow, hbytes, _, ⟨ho, rfl⟩, rfl⟩

theorem exact_readInfo (seen : List GgufTensorInfo) :
    Exact (readInfo seen) (InfoAt seen) fun bs _ => BadInfo seen bs := by
  refine (exact_readString.bind fun name => Exact.ensure <| Exact.ensure <|
      (exact_readNat 4).bind fun nDims =>
    Exact.ensure <| (exact_readDims nDims).bind fun dims =>
        (exact_checkElements (shapeOf dims)).bind fun _ =>
      exact_typed name (shapeOf dims)).congr (fun bs info => ?_) fun bs after => ?_
  · constructor
    · rintro ⟨n, _, name, rfl, hn, hshort, hnew, d, _, _, rfl, ⟨hd, rfl⟩, hmax,
        ds, _, dims, rfl, hds,
        _, _, _, rfl, ⟨rfl, hfit⟩, t, type, o, rfl, ht, hrow, hbytes, ho, rfl⟩
      exact ⟨n, name, d, ds, dims, t, type, o, rfl, hn, hshort, hnew, hd, hmax,
        hds, hfit, ht, hrow, hbytes, ho, rfl⟩
    · rintro ⟨n, name, d, ds, dims, t, type, o, rfl, hn, hshort, hnew, hd,
        hmax, hds, hfit, ht, hrow, hbytes, ho, rfl⟩
      exact ⟨n, _, name, rfl, hn, hshort, hnew, d, _, _, rfl, ⟨hd, rfl⟩, hmax,
        ds, _, dims, rfl, hds, [], _, (), rfl, ⟨rfl, hfit⟩, t, type, o, rfl,
        ht, hrow, hbytes, ho, rfl⟩
  · constructor
    · rintro (h | ⟨n, _, name, rfl, hn, ⟨-, h, -⟩ | ⟨hshort, ⟨-, h, -⟩ | ⟨hnew, h |
        ⟨d, _, _, rfl, ⟨hd, rfl⟩,
          ⟨-, h, -⟩ | ⟨hmax, h | ⟨ds, _, dims, rfl, hds, ⟨rfl, hzero⟩ |
          ⟨_, t, _, rfl, ⟨rfl, hfit⟩, ht⟩⟩⟩⟩⟩⟩⟩)
      · exact h.elim
      · cases h
      · cases h
      · exact h.elim
      · cases h
      · exact h.elim
      · rw [List.append_nil]
        exact .zero hn hshort hnew hd hmax hds hzero
      · exact .type hn hshort hnew hd hmax hds hfit ht
    · intro h
      cases h with
      | zero hn hshort hnew hd hmax hds hzero =>
          exact .inr ⟨_, _, _, rfl, hn,
            .inr ⟨hshort, .inr ⟨hnew, .inr ⟨_, _, _, rfl, ⟨hd, rfl⟩,
            .inr ⟨hmax, .inr ⟨_, [], _, (List.append_nil _).symm, hds,
              .inl ⟨rfl, hzero⟩⟩⟩⟩⟩⟩⟩
      | type hn hshort hnew hd hmax hds hfit ht =>
          exact .inr ⟨_, _, _, rfl, hn,
            .inr ⟨hshort, .inr ⟨hnew, .inr ⟨_, _, _, rfl, ⟨hd, rfl⟩,
            .inr ⟨hmax, .inr
              ⟨_, _, _, rfl, hds, .inr ⟨[], _, (), rfl, ⟨rfl, hfit⟩, ht⟩⟩⟩⟩⟩⟩⟩

theorem exact_readInfos (n : Nat) (seen : List GgufTensorInfo) :
    Exact (readInfos n seen) (RecordsAt InfoAt n seen)
      (BadRecords InfoAt (fun seen bs _ => BadInfo seen bs) n seen) :=
  exact_records exact_readInfo (fun _ => rfl) (fun _ _ => rfl) n seen

-- ============================== header

/-- A count of eight bytes, at most `max`. -/
def CountAt (max : Nat) (bs : List UInt8) (n : Nat) : Prop :=
  bs.length = 8 ∧ signed 64 (leNat bs) = n ∧ n ≤ max

/-- The first bytes of a file: its version and its two counts. -/
def HeaderAt (bs : List UInt8) (header : Nat × Nat × Nat) : Prop :=
  ∃ v t k, bs = ggufMagic ++ (v ++ (t ++ k)) ∧ v.length = 4
    ∧ (leNat v = 2 ∨ leNat v = 3) ∧ header.1 = leNat v
    ∧ CountAt (u64Max / sizeOfTensorInfo) t header.2.1
    ∧ CountAt (u64Max / sizeOfKv) k header.2.2

/-- A count of the header, before what is read with it. -/
theorem Exact.count {max : Nat} {f : Nat → Parse β} {S : Nat → List UInt8 → β → Prop}
    (hf : ∀ n, Exact (f n) (S n) fun _ _ => False) : Exact (do
      let v ← readInt 8
      Parse.ensure .refused (0 ≤ v ∧ v ≤ (max : Int))
      f v.toNat)
      (fun bs b => ∃ cs ds n, bs = cs ++ ds ∧ CountAt max cs n
        ∧ S n ds b) fun _ _ => False := by
  refine ((exact_readInt 8).bind fun v => Exact.ensure (hf v.toNat)).congr
    (fun bs b => ?_) fun bs after => by simp
  constructor
  · rintro ⟨cs, ds, v, rfl, ⟨hlen, rfl⟩, ⟨hzero, hmax⟩, hS⟩
    exact ⟨cs, ds, _, rfl, ⟨hlen, (Int.toNat_of_nonneg hzero).symm, by omega⟩, hS⟩
  · rintro ⟨cs, ds, n, rfl, ⟨hlen, hsigned, hmax⟩, hS⟩
    exact ⟨cs, ds, n, rfl, ⟨hlen, hsigned.symm⟩, ⟨by omega, by omega⟩, hS⟩

theorem exact_readHeader : Exact readHeader HeaderAt fun _ _ => False := by
  refine Exact.congr ((exact_readVec Nat.one_pos 4).bind fun magic => Exact.ensure <|
    (exact_readNat 4).bind fun version => Exact.ensure <| Exact.ensure <|
      Exact.ensure <| Exact.ensure <|
      Exact.count fun nTensors => Exact.count fun nKv =>
        Exact.pure (version, nTensors, nKv))
    (fun bs header => ?_) fun bs after => by simp
  constructor
  · rintro ⟨_, _, magic, rfl, ⟨-, -, rfl⟩, rfl, v, _, _, rfl, ⟨hv, rfl⟩, hzero,
      hlow, hone, hmax, t, _, nTensors, rfl, ht, k, _, nKv, rfl, hk, rfl, rfl⟩
    rw [List.append_nil]
    refine ⟨v, t, k, rfl, hv, ?_, rfl, ht, hk⟩
    rw [ggufVersion] at hmax
    omega
  · rintro ⟨v, t, k, rfl, hv, hversion, hfirst, ht, hk⟩
    refine ⟨ggufMagic, _, ggufMagic, rfl, ⟨by decide, by decide, rfl⟩, rfl, v,
      _, _, rfl, ⟨hv, rfl⟩,
      by omega, by omega, by omega, by rw [ggufVersion]; omega, t, _, _, rfl,
        ht, k, [], _, (List.append_nil k).symm,
      hk, rfl, ?_⟩
    rw [← hfirst]

-- =========================== alignment

/-- The pair of the alignment holds no single `u32`. -/
def BadAlignment (kvs : List GgufKv) : Prop :=
  ∃ kv, kvs.find? (·.key = keyGeneralAlignment) = some kv
    ∧ ¬ (kv.type = .uint32 ∧ kv.data.length = 4)

theorem getNe_refused (kv : GgufKv) : kv.getNe ≠ .error .refused := by
  rw [GgufKv.getNe]
  repeat' split
  all_goals nofun

/-- The number of values of a pair of type `u32`. -/
theorem getNe_uint32 {kv : GgufKv} {ne : Nat} (htype : kv.type = .uint32)
    (h : kv.getNe = .ok ne) :
    kv.data.length = 4 * ne := by
  have hsize : GgufType.uint32.typeSize = 4 := rfl
  rw [GgufKv.getNe, htype, hsize, if_neg (by decide)] at h
  by_cases hwhole : kv.data.length % 4 = 0
  · rw [if_neg (by simp [hwhole])] at h
    by_cases hcount : kv.isArray = true ∨ kv.data.length / 4 = 1
    · rw [if_pos hcount] at h
      have hval : kv.data.length / 4 = ne := Except.ok.inj h
      omega
    · rw [if_neg hcount] at h
      cases h
  · rw [if_pos (.inr hwhole)] at h
    cases h

theorem getNe_one {kv : GgufKv} (htype : kv.type = .uint32)
    (hlen : kv.data.length = 4) : kv.getNe = .ok 1 := by
  rw [GgufKv.getNe, htype, hlen]
  simp [GgufType.typeSize]

/-- `get_val_u32` has a value for one `u32` alone. -/
theorem getValU32_cases (kv : GgufKv) :
    (kv.type = .uint32 ∧ kv.data.length = 4)
      ∧ kv.getValU32 = .ok (leNat (kv.data.take 4))
    ∨ ¬ (kv.type = .uint32 ∧ kv.data.length = 4) ∧ kv.getValU32 = .error .panic := by
  rw [GgufKv.getValU32]
  by_cases hone : kv.type = .uint32 ∧ kv.data.length = 4
  · rw [getNe_one hone.1 hone.2]
    exact .inl ⟨hone, if_pos ⟨rfl, hone.1⟩⟩
  refine .inr ⟨hone, ?_⟩
  cases hne : kv.getNe with
  | error s =>
      cases s with
      | refused => exact absurd hne (getNe_refused kv)
      | panic => rfl
  | ok ne =>
      apply if_neg
      rintro ⟨rfl, htype⟩
      exact hone ⟨htype, getNe_uint32 htype hne⟩

theorem alignmentOf_cases (kvs : List GgufKv) :
    ¬ BadAlignment kvs ∧ (∃ n, alignmentOf kvs = .ok n)
      ∨ BadAlignment kvs ∧ alignmentOf kvs = .error .panic := by
  rw [alignmentOf, BadAlignment]
  cases kvs.find? (·.key = keyGeneralAlignment) with
  | none => exact .inl ⟨by simp, _, rfl⟩
  | some kv =>
      obtain ⟨hone, hval⟩ | ⟨hbad, hval⟩ := getValU32_cases kv
      · exact .inl ⟨by simp [hone], _, hval⟩
      · exact .inr ⟨⟨kv, rfl, hbad⟩, hval⟩

-- ============================ the file

theorem Panics.never (h : ∀ r, p r ≠ .error .panic) :
    Panics p fun _ _ => False :=
  ⟨False.elim, fun hp => absurd hp (h _)⟩

theorem dataSectionSize_never (limit : Nat) (infos : List GgufTensorInfo)
    (size : Nat) :
    dataSectionSize limit infos size ≠ .error .panic := by
  induction infos generalizing size with
  | nil => nofun
  | cons ti rest ih =>
      rw [dataSectionSize]
      split
      · nofun
      split
      · nofun
      · exact ih _

theorem seekData_never (nTensors alignment : Nat) (r : GgufReader) :
    seekData nTensors alignment r ≠ .error .panic := by
  rw [seekData]
  repeat' split
  all_goals nofun

/-- A power of two, as the parser tests it. -/
def IsPad (n : Nat) : Prop := n ≠ 0 ∧ n &&& (n - 1) = 0

instance (n : Nat) : Decidable (IsPad n) := inferInstanceAs (Decidable (_ ∧ _))

/-- What follows the pairs panics in the tensor records alone. -/
theorem panics_tensors (len : Nat) (header : Nat × Nat × Nat)
    (kvs : List GgufKv) (alignment : Nat) :
    Panics (do
      ensure .refused (IsPad alignment)
      let info ← readInfos header.2.1 []
      let offset ← seekData header.2.1 alignment
      let size ← StateT.lift (dataSectionSize (len - offset) info 0)
      return (⟨header.1, kvs, info, alignment, offset, size⟩ : GgufContext))
      (fun bs after => IsPad alignment
        ∧ BadRecords InfoAt (fun seen bs _ => BadInfo seen bs) header.2.1 [] bs
          after) := by
  have hdata : ∀ info, Panics (do
      let offset ← seekData header.2.1 alignment
      let size ← StateT.lift (dataSectionSize (len - offset) info 0)
      return (⟨header.1, kvs, info, alignment, offset, size⟩ :
          GgufContext)) fun _ _ => False := by
    intro info
    apply Panics.never
    intro r h
    cases hseek : seekData header.2.1 alignment r with
    | error s =>
        rw [bind_of_error hseek] at h
        cases h
        exact seekData_never _ _ _ hseek
    | ok v =>
        rw [bind_of_ok hseek] at h
        cases hsize : dataSectionSize (len - v.1) info 0 with
        | error s =>
            rw [hsize] at h
            obtain rfl : s = .panic := Except.error.inj h
            exact dataSectionSize_never _ _ _ hsize
        | ok size =>
            rw [hsize] at h
            cases h
  exact (((exact_readInfos header.2.1 []).panics hdata).ensure).congr fun bs
    after => by simp

/-- What follows the pairs, from their alignment on. -/
theorem panics_afterKvs (len : Nat) (header : Nat × Nat × Nat) (kvs : List GgufKv) :
    Panics (do
      let alignment ← StateT.lift (alignmentOf kvs)
      ensure .refused (IsPad alignment)
      let info ← readInfos header.2.1 []
      let offset ← seekData header.2.1 alignment
      let size ← StateT.lift (dataSectionSize (len - offset) info 0)
      return (⟨header.1, kvs, info, alignment, offset, size⟩ : GgufContext))
      (fun bs after => BadAlignment kvs ∧ bs = []
        ∨ ∃ n, alignmentOf kvs = .ok n ∧ IsPad n
          ∧ BadRecords InfoAt (fun seen bs _ => BadInfo seen bs) header.2.1 []
            bs after) := by
  obtain ⟨hgood, n, hn⟩ | ⟨hbad, hpanic⟩ := alignmentOf_cases kvs
  · rw [hn]
    refine (panics_tensors len header kvs n).congr fun bs after => ?_
    simp [hgood]
  · rw [hpanic]
    exact (exact_stop.toPanics : Panics (stop .panic) _).congr fun bs
      after => by simp [hbad]

/-- The files that end the parse with a panic, or with an allocation of more
than is granted: in the first of their fields that is at fault. -/
inductive Fatal (grant : Nat) : List UInt8 → Prop where
  | pair {h k rest : List UInt8} {header : Nat × Nat × Nat} (hh : HeaderAt h header)
      (hk : BadRecords KvAt (BadKv grant) header.2.2 [] k rest) :
      Fatal grant (h ++ (k ++ rest))
  | alignment {h k rest : List UInt8} {header : Nat × Nat × Nat} {kvs : List GgufKv}
      (hh : HeaderAt h header) (hk : RecordsAt KvAt header.2.2 [] k kvs)
      (ha : BadAlignment kvs) : Fatal grant (h ++ (k ++ rest))
  | tensor {h k i rest : List UInt8} {header : Nat × Nat × Nat}
      {kvs : List GgufKv} {n : Nat}
      (hh : HeaderAt h header) (hk : RecordsAt KvAt header.2.2 [] k kvs)
      (ha : alignmentOf kvs = .ok n) (hn : IsPad n)
      (hi : BadRecords InfoAt (fun seen bs _ => BadInfo seen bs) header.2.1 []
        i rest) :
      Fatal grant (h ++ (k ++ (i ++ rest)))

/-- What is at fault after the header: a pair, the alignment of the pairs, or a
tensor record after them. -/
def BadBody (grant : Nat) (header : Nat × Nat × Nat) (bs after : List UInt8) : Prop :=
  BadRecords KvAt (BadKv grant) header.2.2 [] bs after
    ∨ ∃ p i kvs, bs = p ++ i ∧ RecordsAt KvAt header.2.2 [] p kvs
      ∧ (BadAlignment kvs ∧ i = [] ∨ ∃ n, alignmentOf kvs = .ok n ∧ IsPad n
        ∧ BadRecords InfoAt (fun seen bs _ => BadInfo seen bs) header.2.1 [] i after)

end Parse

open Parse

/-- What the whole parser panics at, from the first byte on. -/
theorem panics_initFromReader (grant len : Nat) : Panics (initFromReader grant len)
    fun bs after => ∃ h k header, bs = h ++ k ∧ HeaderAt h header
      ∧ BadBody grant header k after := by
  have hparser : Panics (initFromReader grant len) _ :=
      exact_readHeader.panics fun header =>
    (exact_readKvs grant header.2.2 []).panics fun kvs =>
      panics_afterKvs len header kvs
  exact hparser.congr fun bs after => ⟨fun h => h.resolve_left False.elim, .inr⟩

theorem initFromReader_panic (grant : Nat) (data : List UInt8) (len : Nat) :
    initFromReader grant len ⟨data, 0⟩ = .error .panic ↔ Fatal grant data := by
  have hparser := panics_initFromReader grant len
  constructor
  · intro hrun
    obtain ⟨_, after, rfl, h, k, header, rfl, hh,
      hk | ⟨p, i, kvs, rfl, hk, ⟨ha, rfl⟩ | ⟨n, ha, hn, hi⟩⟩⟩ :=
      @(hparser).panic [] data hrun
    · rw [List.append_assoc]
      exact .pair hh hk
    · rw [List.append_nil, List.append_assoc]
      exact .alignment hh hk ha
    · rw [List.append_assoc, List.append_assoc]
      exact .tensor hh hk ha hn hi
  · intro hfatal
    cases hfatal with
    | @pair h k rest header hh hk =>
        rw [← List.append_assoc]
        exact hparser.stops ⟨h, k, header, rfl, hh, .inl hk⟩ []
    | @alignment h k rest header kvs hh hk ha =>
        rw [← List.append_assoc, ← List.append_nil k]
        exact hparser.stops ⟨h, _, header, rfl, hh,
          .inr ⟨k, [], kvs, rfl, hk, .inl ⟨ha, rfl⟩⟩⟩ []
    | @tensor h k i rest header kvs n hh hk ha hn hi =>
        rw [← List.append_assoc k, ← List.append_assoc h]
        exact hparser.stops ⟨h, _, header, rfl, hh,
          .inr ⟨k, i, kvs, rfl, hk, .inr ⟨n, ha, hn, hi⟩⟩⟩ []

theorem initFromData_panic (grant : Nat) (data : List UInt8) :
    initFromData grant data = .error .panic ↔ Fatal grant data := by
  rw [← initFromReader_panic grant data data.length, initFromData]
  cases initFromReader grant data.length ⟨data, 0⟩ with
  | error s => exact ⟨fun h => by cases h; rfl, fun h => by cases h; rfl⟩
  | ok v => exact ⟨nofun, nofun⟩

/-- **The parser refuses a malformed file or panics in it.** Whatever the
allocator grants, it returns at exactly the files whose first field at fault,
if there is one, is not the code of a type, the count of a boolean array that
cannot be reserved, the alignment, or a dimension of zero. -/
theorem parse_returns_iff (grant : Nat) (data : List UInt8) :
    (initFromData grant data = .error .refused
      ∨ ∃ ctx, initFromData grant data = .ok ctx)
      ↔ ¬ Fatal grant data := by
  rw [← initFromData_panic]
  cases initFromData grant data with
  | error s => cases s <;> simp
  | ok ctx => simp

/-- A file of one pair, an array of `2 ^ 48` booleans, none of which it has. -/
def boolsFile : List UInt8 :=
  ggufMagic ++ [3, 0, 0, 0] ++ leBytes 8 0 ++ leBytes 8 1 ++ leBytes 8 1 ++ [0x61]
    ++ leBytes 4 GgufType.array.code ++ leBytes 4 GgufType.bool.code
      ++ leBytes 8 (2 ^ 48)

example : initFromData (2 ^ 47) boolsFile = .error .panic := by decide +kernel

example : initFromData (2 ^ 48) boolsFile = .error .refused := by decide +kernel

/-- A file of one pair whose type is none: `"a"` of type 13. -/
def unknownTypeFile : List UInt8 :=
  ggufMagic ++ [3, 0, 0, 0] ++ leBytes 8 0 ++ leBytes 8 1 ++ leBytes 8 1
    ++ [0x61] ++ [13, 0, 0, 0]

/-- No grant helps: the type is none. -/
theorem unknown_type_panics :
    ¬ (initFromData (2 ^ 63) unknownTypeFile = .error .refused
    ∨ ∃ ctx, initFromData (2 ^ 63) unknownTypeFile = .ok ctx) := by
  have h : initFromData (2 ^ 63) unknownTypeFile = .error .panic := by decide +kernel
  rw [h]
  simp

end Minfer.Gguf
