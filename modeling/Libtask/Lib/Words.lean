/-
  Libtask.Lib.Words — numbers as bytes in memory, the least significant first.
-/

import Mathlib.Data.UInt

namespace Libtask.Lib.Words

/-- The lowest `n` bytes of `v`. -/
def bytes : Nat → Nat → List UInt8
  | 0, _ => []
  | n + 1, v => UInt8.ofNat v :: bytes n (v / 256)

def number : List UInt8 → Nat
  | [] => 0
  | b :: bs => b.toNat + 256 * number bs

@[simp] theorem bytes_length (n : Nat) : ∀ v, (bytes n v).length = n := by
  induction n with
  | zero => intro v; rfl
  | succ n ih => intro v; simp [bytes, ih]

theorem number_bytes (n : Nat) : ∀ v, number (bytes n v) = v % 256 ^ n := by
  induction n with
  | zero => intro v; simp [bytes, number, Nat.mod_one]
  | succ n ih =>
    intro v
    have hb : (UInt8.ofNat v).toNat = v % 256 := rfl
    rw [bytes, number, ih, hb, Nat.pow_succ', Nat.mod_mul]

/-- What fits is read back. -/
theorem number_bytes_of_lt {n v : Nat} (h : v < 256 ^ n) : number (bytes n v) = v := by
  rw [number_bytes, Nat.mod_eq_of_lt h]

end Libtask.Lib.Words
