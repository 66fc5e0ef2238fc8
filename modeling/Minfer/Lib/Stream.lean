/-
Readers of a byte stream that end at a refusal, and what they read.

A reader takes units off the front of a stream and keeps an accumulated
value of everything it took (a count, a checksum). `Reads m bs a` says
that `m` reads `a` off exactly `bs`, whatever comes after; `Exact m`, that
`m` has no other success. Both go through a bind, so a reader's meaning is
found by following its steps.

The point of the pair is the end of the stream: an exact reader that reads
all of a stream succeeds on none that stops earlier (`Reads.short`).
-/
import Mathlib.Data.List.Basic
import Minfer.Lib.Except

namespace Minfer.Lib

/-- What is left to read, and what the reads so far add up to. -/
structure Stream (β γ : Type) where
  rest : List β
  acc : γ

/-- A reader. -/
abbrev Reader (β γ ε : Type) := StateT (Stream β γ) (Except ε)

namespace Reader

variable {β γ ε α δ : Type} {step : γ → β → γ}

/-- Refuse. -/
def refuse (e : ε) : Reader β γ ε α := fun _ => .error e

/-- Refuse unless a condition holds. -/
def ensure (p : Prop) [Decidable p] (e : ε) : Reader β γ ε Unit :=
  if p then pure () else refuse e

/-- The next `n` units, or a refusal of a stream that ends before. -/
def take (step : γ → β → γ) (n : Nat) (short : ε) : Reader β γ ε (List β) := fun s =>
  if s.rest.length < n then .error short
  else .ok (s.rest.take n, ⟨s.rest.drop n, (s.rest.take n).foldl step s.acc⟩)

/-- `n` values one after the other, each by its index. -/
def times (f : Nat → Reader β γ ε α) : Nat → Nat → Reader β γ ε (List α)
  | _, 0 => pure []
  | i, n + 1 => do
      let a ← f i
      return a :: (← times f (i + 1) n)

/-- `m` reads `a` off exactly `bs`. -/
def Reads (step : γ → β → γ) (m : Reader β γ ε α) (bs : List β) (a : α) : Prop :=
  ∀ rest acc, m ⟨bs ++ rest, acc⟩ = .ok (a, ⟨rest, bs.foldl step acc⟩)

/-- Whatever `m` returns, it reads off what it takes. -/
def Exact (step : γ → β → γ) (m : Reader β γ ε α) : Prop :=
  ∀ s a s', m s = .ok (a, s') → ∃ bs, s.rest = bs ++ s'.rest ∧ Reads step m bs a

-- ========================= the readers

theorem bind_apply (m : Reader β γ ε α) (f : α → Reader β γ ε δ) (s : Stream β γ) :
    (m >>= f) s = m s >>= fun r => f r.1 r.2 := rfl

theorem pure_apply (a : α) (s : Stream β γ) : (pure a : Reader β γ ε α) s = .ok
    (a, s) := rfl

theorem reads_pure (a : α) : Reads step (pure a : Reader β γ ε α) [] a :=
  fun _ _ => rfl

variable {a : α} {bs : List β} {f : α → Reader β γ ε δ} {m : Reader β γ ε α}

theorem Reads.bind {cs : List β} {d : δ} (hm : Reads step m bs a)
    (hf : Reads step (f a) cs d) :
    Reads step (m >>= f) (bs ++ cs) d := by
  intro rest acc
  rw [bind_apply, List.append_assoc, hm]
  show f a ⟨cs ++ rest, _⟩ = _
  rw [hf, List.foldl_append]

/-- A step after which nothing more is taken. -/
theorem Reads.bind_end {d : δ}
    (hm : Reads step m bs a) (hf : Reads step (f a) [] d) :
    Reads step (m >>= f) bs d := by
  have h := hm.bind hf
  rwa [List.append_nil] at h

/-- What is read, put to use. -/
theorem Reads.map (h : Reads step m bs a) (f : α → δ) :
    Reads step (m >>= fun x => pure (f x)) bs (f a) :=
  h.bind_end (reads_pure (f a))

/-- A step that takes nothing. -/
theorem Reads.bind_nil {cs : List β} {d : δ} (hm : Reads step m [] a)
    (hf : Reads step (f a) cs d) :
    Reads step (m >>= f) cs d := by
  have h := hm.bind hf
  rwa [List.nil_append] at h

theorem reads_ensure {p : Prop} [Decidable p] (h : p) (e : ε) :
    Reads step (ensure p e : Reader β γ ε Unit) [] () := by
  intro rest acc
  rw [ensure, if_pos h]
  rfl

theorem reads_take {n : Nat} (h : bs.length = n) (short : ε) :
    Reads step (take step n short) bs bs := by
  intro rest acc
  subst h
  have hlen : ¬ (bs ++ rest).length < bs.length := by
    rw [List.length_append]
    omega
  simp only [take, if_neg hlen, List.take_left, List.drop_left]

theorem exact_pure (a : α) : Exact step (pure a : Reader β γ ε α) := by
  intro s a' s' h
  cases h
  exact ⟨[], rfl, reads_pure a⟩

theorem exact_refuse (e : ε) : Exact step (refuse e : Reader β γ ε α) := by
  intro s a s' h
  cases h

theorem exact_ensure (p : Prop) [Decidable p] (e : ε) :
    Exact step (ensure p e : Reader β γ ε Unit) := by
  unfold ensure
  split
  · exact exact_pure ()
  · exact exact_refuse e

theorem exact_take (n : Nat) (short : ε) : Exact step (take step n short) := by
  intro s bs s' h
  unfold take at h
  split at h
  · cases h
  next hlen =>
    cases h
    refine ⟨s.rest.take n, (List.take_append_drop n s.rest).symm, reads_take ?_ short⟩
    rw [List.length_take]
    omega

theorem Exact.bind (hm : Exact step m) (hf : ∀ a, Exact step (f a)) :
    Exact step (m >>= f) := by
  intro s d s' h
  rw [bind_apply] at h
  obtain ⟨⟨a, s₁⟩, h₁, h₂⟩ := bind_eq_ok.1 h
  obtain ⟨bs, hbs, hreads⟩ := hm s a s₁ h₁
  obtain ⟨cs, hcs, hreads'⟩ := hf a s₁ d s' h₂
  refine ⟨bs ++ cs, ?_, hreads.bind hreads'⟩
  rw [hbs, hcs, List.append_assoc]

/-- A list of values, each written by `enc`. -/
theorem reads_times {f : Nat → Reader β γ ε α} {enc : α → List β} {xs : List α}
    (h : ∀ x ∈ xs, ∀ i, Reads step (f i) (enc x) x) (i : Nat) :
    Reads step (times f i xs.length) (xs.flatMap enc) xs := by
  induction xs generalizing i with
  | nil => exact reads_pure []
  | cons x xs ih =>
      have hx := h x List.mem_cons_self i
      have hxs := ih (fun y hy => h y (List.mem_cons_of_mem _ hy)) (i + 1)
      exact hx.bind (hxs.map (x :: ·))

theorem exact_times {f : Nat → Reader β γ ε α} (h : ∀ i, Exact step (f i))
    (i n : Nat) :
    Exact step (times f i n) := by
  induction n generalizing i with
  | zero => exact exact_pure []
  | succ n ih =>
      exact (h i).bind fun a => (ih (i + 1)).bind fun as =>
        exact_pure (a :: as)

-- ============================= the end

/-- All of a stream that is what the reader reads. -/
theorem Reads.all (h : Reads step m bs a) (acc : γ) :
    m ⟨bs, acc⟩ = .ok (a, ⟨[], bs.foldl step acc⟩) := by
  have hall := h [] acc
  rwa [List.append_nil] at hall

/-- A stream that stops inside what the reader reads is refused. -/
theorem Reads.short {cs : List β} (h : Reads step m (bs ++ cs) a)
    (he : Exact step m) (hcs : cs ≠ []) (acc : γ) : ∃ e, m ⟨bs, acc⟩ = .error e := by
  cases hres : m ⟨bs, acc⟩ with
  | error e => exact ⟨e, rfl⟩
  | ok r =>
      obtain ⟨ds, hds, hreads⟩ := he _ r.1 r.2 hres
      -- the same reads, on the whole stream, leave what it had beyond them
      have hbs : bs = ds ++ r.2.rest := hds
      have hlong := hreads (r.2.rest ++ cs) acc
      rw [← List.append_assoc, ← hbs, h.all acc, Except.ok.injEq,
        Prod.mk.injEq, Stream.mk.injEq] at hlong
      exact absurd (List.append_eq_nil_iff.1 hlong.2.1.symm).2 hcs

end Reader
end Minfer.Lib
