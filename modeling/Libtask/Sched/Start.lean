/-
  Libtask.Sched.Start — the way of a task's address through `makecontext` (task.c: `taskalloc`, `taskstart`).

  `makecontext` passes two `uint`s, so the address is split into them and put together again. A
  pointer and an `unsigned long` have 64 bits, a `uint` 32, and a shift has the width of what it
  shifts: `x<<16` is one of a `uint`, and its upper half is gone.
-/

import Mathlib.Algebra.Group.Nat.Defs

namespace Libtask.Sched.Start

/-- The arguments `y` and `x` for the task at `t`. -/
def taskalloc (t : BitVec 64) : BitVec 32 × BitVec 32 :=
  let z := t
  let y := z.setWidth 32
  let z := z >>> 16
  let x := (z >>> 16).setWidth 32
  (y, x)

/-- The task that is started. -/
def taskstart (y x : BitVec 32) : BitVec 64 :=
  let z := (x <<< 16).setWidth 64
  let z := z <<< 16
  let z := z ||| y.setWidth 64
  z

/-- Where `taskstart` looks for the task that `taskalloc` has at `t`. -/
def started (t : BitVec 64) : BitVec 64 := taskstart (taskalloc t).1 (taskalloc t).2

section
variable {t : BitVec 64}

/-- Only the low 48 bits arrive. -/
theorem started_eq (t : BitVec 64) : started t = (t.setWidth 48).setWidth 64 := by
  refine BitVec.eq_of_getLsbD_eq fun i hi => ?_
  unfold started taskstart taskalloc
  simp only [BitVec.getLsbD_or, BitVec.getLsbD_shiftLeft, BitVec.getLsbD_setWidth, BitVec.getLsbD_ushiftRight]
  by_cases hy : i < 32
  · have hx : i - 16 < 16 := by omega
    have hlow : i < 48 := by omega
    simp [hi, hy, hx, hlow]
  · by_cases hx : i < 48
    · have h1 : ¬ i < 16 := by omega
      have h2 : ¬ i - 16 < 16 := by omega
      have h3 : i - 16 < 32 := by omega
      have h4 : 16 + (16 + (i - 16 - 16)) = i := by omega
      have h5 : i - 16 < 64 := by omega
      have h6 : i - 16 - 16 < 32 := by omega
      simp [hi, hy, hx, h1, h2, h3, h4, h5, h6]
    · have h3 : ¬ i - 16 < 32 := by omega
      simp [hy, hx, h3]

theorem started_toNat (t : BitVec 64) : (started t).toNat = t.toNat % 2 ^ 48 := by
  rw [started_eq, BitVec.toNat_setWidth, BitVec.toNat_setWidth]
  omega

/-- The task that was allocated is started if its address has 48 bits. -/
theorem started_iff (t : BitVec 64) : started t = t ↔ t.toNat < 2 ^ 48 := by
  rw [← BitVec.toNat_inj, started_toNat]
  constructor
  · intro h
    rw [← h]
    exact Nat.mod_lt _ (by decide)
  · intro h
    exact Nat.mod_eq_of_lt h

/-- The bit of 2^48 is lost. -/
theorem started_zero : started 281474976710656#64 = 0#64 ∧ started 281474976710656#64 ≠ 281474976710656#64 := by decide

end

end Libtask.Sched.Start
