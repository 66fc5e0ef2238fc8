/-
Little-endian numbers in byte strings.
-/
import Mathlib.Data.List.Basic
import Mathlib.Tactic.Ring

namespace Minfer.Lib

/-- The number a little-endian byte string stands for. -/
def leNat : List UInt8 → Nat
  | [] => 0
  | b :: rest => b.toNat + 256 * leNat rest

/-- The low `n` bytes of a number, least significant first. -/
def leBytes : Nat → Nat → List UInt8
  | 0, _ => []
  | n + 1, v => UInt8.ofNat (v % 256) :: leBytes n (v / 256)

@[simp] theorem length_leBytes (n v : Nat) : (leBytes n v).length = n := by
  induction n generalizing v with
  | zero => rfl
  | succ n ih => rw [leBytes, List.length_cons, ih]

/-- Reading back a number that fits. -/
theorem leNat_leBytes {n v : Nat} (h : v < 256 ^ n) : leNat (leBytes n v) = v := by
  induction n generalizing v with
  | zero =>
      rw [Nat.pow_zero] at h
      show 0 = v
      omega
  | succ n ih =>
      have hq : v / 256 < 256 ^ n := by
        rw [Nat.pow_succ] at h
        omega
      rw [leBytes, leNat, ih hq, UInt8.toNat_ofNat', Nat.mod_mod]
      omega

/-- The bytes of the number a byte string stands for. -/
theorem leBytes_leNat (bs : List UInt8) : leBytes bs.length (leNat bs) = bs := by
  induction bs with
  | nil => rfl
  | cons b bs ih =>
      have hb := b.toNat_lt
      rw [List.length_cons, leNat, leBytes,
        show (b.toNat + 256 * leNat bs) % 256 = b.toNat by omega,
        show (b.toNat + 256 * leNat bs) / 256 = leNat bs by
          omega, ih, UInt8.ofNat_toNat]

/-- The two's complement value of a `bits`-bit number. -/
def signed (bits v : Nat) : Int := if v < 2 ^ (bits - 1) then v else v - 2 ^ bits

end Minfer.Lib
