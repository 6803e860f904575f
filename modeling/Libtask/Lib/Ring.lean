/-
  Libtask.Lib.Ring — fixed-size records in a flat memory, and ring buffers of them.

  A memory is a function from offsets to cells. `slice f o n` reads `n` cells from `o`
  on, `blit f o bs` stores `bs` there. A ring of `size` slots of `e` cells each, whose
  first record is in slot `off`, holds the `n` records of the slots `off`, `off + 1`, …
  modulo `size`: `ring f e size off n`.

  - `ring_push`: storing a record in the slot after the last one appends it.
  - `ring_pop`: the record in slot `off` is the first one, and dropping it leaves the
    ring that starts in the next slot.
-/

import Mathlib.Data.List.Basic
import Mathlib.Data.Nat.ModEq

namespace Libtask.Lib.Ring

variable {β : Type}

/-! ## Slices -/

def slice (f : Nat → β) (o n : Nat) : List β := (List.range n).map fun i => f (o + i)

def blit (f : Nat → β) (o : Nat) (bs : List β) : Nat → β :=
  fun i => if o ≤ i then (bs[i - o]?).getD (f i) else f i

@[simp] theorem slice_length (f : Nat → β) (o n : Nat) : (slice f o n).length = n := by simp [slice]

theorem slice_congr {f g : Nat → β} {o n : Nat} (h : ∀ i < n, f (o + i) = g (o + i)) : slice f o n = slice g o n :=
  List.map_congr_left fun i hi => h i (List.mem_range.mp hi)

theorem blit_inside (f : Nat → β) (o : Nat) (bs : List β) {i : Nat} (h : i < bs.length) :
    blit f o bs (o + i) = bs[i] := by
  simp [blit, h]

theorem blit_outside (f : Nat → β) (o : Nat) (bs : List β) {i : Nat} (h : i < o ∨ o + bs.length ≤ i) :
    blit f o bs i = f i := by
  unfold blit
  split
  · have : bs.length ≤ i - o := by omega
    simp [List.getElem?_eq_none this]
  · rfl

/-- What was stored is read back. -/
theorem slice_blit (f : Nat → β) (o : Nat) (bs : List β) : slice (blit f o bs) o bs.length = bs := by
  apply List.ext_getElem
  · simp
  · intro i h1 h2
    simp [slice, blit_inside f o bs h2]

/-- A store leaves the cells beside it alone. -/
theorem slice_blit_disjoint (f : Nat → β) {o o' n : Nat} (bs : List β) (h : o' + n ≤ o ∨ o + bs.length ≤ o') :
    slice (blit f o bs) o' n = slice f o' n :=
  slice_congr fun i hi => blit_outside f o bs (by omega)

/-! ## Rings -/

def ring (f : Nat → β) (e size off n : Nat) : List (List β) :=
  (List.range n).map fun k => slice f ((off + k) % size * e) e

@[simp] theorem ring_zero (f : Nat → β) (e size off : Nat) : ring f e size off 0 = [] := rfl

theorem slot_inj {size off j k : Nat} (hj : j < size) (hk : k < size) (h : (off + j) % size = (off + k) % size) :
    j = k := by
  have hjk : j % size = k % size := Nat.ModEq.add_left_cancel' off h
  rwa [Nat.mod_eq_of_lt hj, Nat.mod_eq_of_lt hk] at hjk

theorem slots_disjoint {a b e : Nat} (h : a ≠ b) : a * e + e ≤ b * e ∨ b * e + e ≤ a * e := by
  rcases Nat.lt_or_gt_of_ne h with h | h
  · left
    calc a * e + e = (a + 1) * e := (Nat.succ_mul a e).symm
      _ ≤ b * e := Nat.mul_le_mul_right e h
  · right
    calc b * e + e = (b + 1) * e := (Nat.succ_mul b e).symm
      _ ≤ a * e := Nat.mul_le_mul_right e h

theorem ring_push (f : Nat → β) {e size off n : Nat} {bs : List β} (hn : n < size) (hb : bs.length = e) :
    ring (blit f ((off + n) % size * e) bs) e size off (n + 1) = ring f e size off n ++ [bs] := by
  simp only [ring, List.range_succ, List.map_append, List.map_cons, List.map_nil]
  congr 1
  · apply List.map_congr_left
    intro k hk
    have hk := List.mem_range.mp hk
    have hne : (off + k) % size ≠ (off + n) % size := fun h => by
      have := slot_inj (by omega) hn h
      omega
    apply slice_blit_disjoint
    rw [hb]
    exact slots_disjoint hne
  · have := slice_blit f ((off + n) % size * e) bs
    rw [hb] at this
    rw [this]

theorem ring_pop (f : Nat → β) {e size off n : Nat} (ho : off < size) :
    ring f e size off (n + 1) =
      slice f (off * e) e :: ring f e size (if off + 1 = size then 0 else off + 1) n := by
  simp only [ring, List.range_succ_eq_map, List.map_cons, List.map_map, Nat.add_zero, Nat.mod_eq_of_lt ho]
  congr 1
  apply List.map_congr_left
  intro k _
  show slice f ((off + (k + 1)) % size * e) e = _
  have h1 : off + (k + 1) = (off + 1) + k := by omega
  rw [h1]
  split
  · rename_i hs
    rw [hs, Nat.add_mod_left, Nat.zero_add]
  · rfl

end Libtask.Lib.Ring
