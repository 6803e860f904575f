/-
  Libtask.Lib.Numerals — numbers written as digits, the greatest place first.

  The digits go on behind 9 with the letters, in either case. `numeral` is the shortest way to
  write a number, in lower case; of zero it is empty.
-/

import Mathlib.Data.Nat.Digits.Lemmas
import Mathlib.Data.UInt
import Mathlib.Data.Fintype.Basic

namespace Libtask.Lib.Numerals

/-- What `c` stands for, 36 if it is no digit. -/
def digit (c : UInt8) : Nat :=
  if '0'.toUInt8 ≤ c ∧ c ≤ '9'.toUInt8 then c.toNat - 48
  else if 'a'.toUInt8 ≤ c ∧ c ≤ 'z'.toUInt8 then c.toNat - 87
  else if 'A'.toUInt8 ≤ c ∧ c ≤ 'Z'.toUInt8 then c.toNat - 55
  else 36

def char (d : Nat) : UInt8 := if d < 10 then UInt8.ofNat (48 + d) else UInt8.ofNat (87 + d)

def value (base : Nat) (ds : List UInt8) : Nat := ds.foldl (fun v c => v * base + digit c) 0

def numeral (base n : Nat) : List UInt8 := ((Nat.digits base n).map char).reverse

/-- Only digits of the base. -/
def Digits (base : Nat) (ds : List UInt8) : Prop := ∀ c ∈ ds, digit c < base

instance (base : Nat) (ds : List UInt8) : Decidable (Digits base ds) := List.decidableBAll (digit · < base) ds

theorem digit_char {d : Nat} (h : d < 36) : digit (char d) = d :=
  (by decide : ∀ d : Fin 36, digit (char d) = d) ⟨d, h⟩

section
variable {base n : Nat} {c d : UInt8} {ds : List UInt8}

theorem digit_ne (h : digit c < n) (hd : ¬ digit d < n) : c ≠ d := by
  rintro rfl
  exact hd h

/-! ## What digits denote -/

theorem value_append_one (base : Nat) (ds : List UInt8) (c : UInt8) :
    value base (ds ++ [c]) = value base ds * base + digit c := by
  unfold value
  rw [List.foldl_append]
  rfl

/-- Leading zeros do not count. -/
theorem value_zero (base : Nat) (ds : List UInt8) : value base ('0'.toUInt8 :: ds) = value base ds := by
  have h0 : 0 * base + digit '0'.toUInt8 = 0 := by
    rw [Nat.zero_mul]
    decide
  show ds.foldl (fun v c => v * base + digit c) (0 * base + digit '0'.toUInt8) = _
  rw [h0]
  rfl

/-! ## The shortest numeral -/

theorem numeral_zero (base : Nat) : numeral base 0 = [] := by simp [numeral]

/-- The last digit is the remainder. -/
theorem numeral_step (hb : 2 ≤ base) (hn : n ≠ 0) : numeral base n = numeral base (n / base) ++ [char (n % base)] := by
  unfold numeral
  rw [Nat.digits_def' hb (Nat.pos_of_ne_zero hn), List.map_cons, List.reverse_cons]

theorem numeral_length {k : Nat} (hb : 2 ≤ base) (h : n < base ^ k) : (numeral base n).length ≤ k := by
  unfold numeral
  rw [List.length_reverse, List.length_map, Nat.digits_length_le_iff hb]
  exact h

theorem numeral_ne_nil (hb : 2 ≤ base) (hn : n ≠ 0) : numeral base n ≠ [] := by
  rw [numeral_step hb hn]
  exact List.append_ne_nil_of_right_ne_nil _ (List.cons_ne_nil _ _)

theorem value_numeral (hb : 2 ≤ base) (hb' : base ≤ 36) : ∀ n, value base (numeral base n) = n := by
  intro n
  induction n using Nat.strong_induction_on with
  | _ n ih =>
    by_cases hn : n = 0
    · rw [hn, numeral_zero]
      rfl
    · have hmod : n % base < base := Nat.mod_lt n (by omega)
      rw [numeral_step hb hn, value_append_one, ih _ (Nat.div_lt_self (by omega) hb), digit_char (by omega)]
      exact Nat.div_add_mod' n base

theorem numeral_mem (hb : 2 ≤ base) (hc : c ∈ numeral base n) : ∃ d < base, c = char d := by
  unfold numeral at hc
  obtain ⟨d, hd, rfl⟩ := List.mem_map.mp (List.mem_reverse.mp hc)
  exact ⟨d, Nat.digits_lt_base hb hd, rfl⟩

theorem digits_numeral (hb : 2 ≤ base) (hb' : base ≤ 36) (n : Nat) : Digits base (numeral base n) := by
  intro c hc
  obtain ⟨d, hd, rfl⟩ := numeral_mem hb hc
  rwa [digit_char (by omega)]

/-- No zero comes first. -/
theorem numeral_head (hb : 2 ≤ base) (hb' : base ≤ 36) : ∀ n, n ≠ 0 → ∃ d ds, numeral base n = d :: ds ∧ digit d ≠ 0 := by
  intro n
  induction n using Nat.strong_induction_on with
  | _ n ih =>
    intro hn
    rw [numeral_step hb hn]
    by_cases hdiv : n / base = 0
    · have hlt : n < base := by
        by_contra hle
        exact absurd hdiv (Nat.div_pos (by omega) (by omega)).ne'
      refine ⟨char (n % base), [], by rw [hdiv, numeral_zero, List.nil_append], ?_⟩
      rwa [Nat.mod_eq_of_lt hlt, digit_char (by omega)]
    · obtain ⟨d, ds, hds, hd⟩ := ih _ (Nat.div_lt_self (by omega) hb) hdiv
      exact ⟨d, ds ++ [char (n % base)], by rw [hds, List.cons_append], hd⟩

end

end Libtask.Lib.Numerals
