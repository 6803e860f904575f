/-
  Libtask.Lib.Strtoul — `strtoul` with base 0, and the numerals it reads.

  A string is the list of its characters. `scan` finds the sequence that is converted: blanks, a
  sign, a prefix that tells the base, digits. If there are no digits nothing is converted, and the
  rest is the whole string. The value is a 64-bit `unsigned long`: the largest one for a number that
  does not fit, whatever its sign, else negated if there is a minus.

  `Numeral` and `Signed` say what may be written; `scan_signed` and `signed_of_scan` that this is
  what `scan` takes, to the end.
-/

import Mathlib.Data.List.TakeWhile
import Libtask.Lib.Numerals

namespace Libtask.Lib.Strtoul

open Libtask.Lib.Numerals

def isspace (c : UInt8) : Bool := c = ' '.toUInt8 ∨ 9 ≤ c ∧ c ≤ 13

structure Scan where
  neg : Bool
  base : Nat
  digits : List UInt8
  rest : List UInt8
  deriving DecidableEq, Repr

/-- Is there a minus, and what is behind the sign. -/
def sign : List UInt8 → Bool × List UInt8
  | [] => (false, [])
  | c :: s => if c = '-'.toUInt8 then (true, s) else if c = '+'.toUInt8 then (false, s) else (false, c :: s)

/-- An `x`, and a digit for it to stand in front of. -/
def isx : List UInt8 → Bool
  | c :: d :: _ => (c = 'x'.toUInt8 ∨ c = 'X'.toUInt8) ∧ digit d < 16
  | _ => false

/-- The base, and where the digits are. -/
def radix : List UInt8 → Nat × List UInt8
  | [] => (10, [])
  | c :: s => if c = '0'.toUInt8 then if isx s then (16, s.tail) else (8, c :: s) else (10, c :: s)

def scan (s : List UInt8) : Scan :=
  let (neg, t) := sign (s.dropWhile isspace)
  let (base, t) := radix t
  let ds := t.takeWhile (digit · < base)
  if ds = [] then ⟨false, 10, [], s⟩ else ⟨neg, base, ds, t.dropWhile (digit · < base)⟩

/-- The number itself, of any size. -/
def Scan.denoted (r : Scan) : Int := if r.neg then -(value r.base r.digits : Int) else value r.base r.digits

/-- The number as it is returned. -/
def ulong (neg : Bool) (v : Nat) : BitVec 64 :=
  if v < 2 ^ 64 then if neg then -BitVec.ofNat 64 v else BitVec.ofNat 64 v else BitVec.allOnes 64

/-- What is returned, and where `*endptr` is. -/
def strtoul (s : List UInt8) : BitVec 64 × List UInt8 :=
  let r := scan s
  (ulong r.neg (value r.base r.digits), r.rest)

/-! ## Numerals -/

inductive Numeral : List UInt8 → Nat → Prop
  | decimal {d : UInt8} {ds : List UInt8} : d ≠ '0'.toUInt8 → Digits 10 (d :: ds) → Numeral (d :: ds) (value 10 (d :: ds))
  | octal {ds : List UInt8} : Digits 8 ds → Numeral ('0'.toUInt8 :: ds) (value 8 ds)
  | hex {x : UInt8} {ds : List UInt8} : x = 'x'.toUInt8 ∨ x = 'X'.toUInt8 → ds ≠ [] → Digits 16 ds →
      Numeral ('0'.toUInt8 :: x :: ds) (value 16 ds)

inductive Signed : List UInt8 → Int → Prop
  | plain {s : List UInt8} {v : Nat} : Numeral s v → Signed s v
  | plus {s : List UInt8} {v : Nat} : Numeral s v → Signed ('+'.toUInt8 :: s) v
  | minus {s : List UInt8} {v : Nat} : Numeral s v → Signed ('-'.toUInt8 :: s) (-v)

/-! ## What stands behind the numeral -/

/-- A character that no numeral goes on with. -/
structure Ends (c : UInt8) : Prop where
  space : isspace c = false
  minus : c ≠ '-'.toUInt8
  plus : c ≠ '+'.toUInt8
  digit : digit c = 36

section
variable {c : UInt8} {s r : List UInt8} {base : Nat}

theorem sign_append (h : Ends c) (s r : List UInt8) : sign (s ++ c :: r) = ((sign s).1, (sign s).2 ++ c :: r) := by
  cases s with
  | nil => simp [sign, h.minus, h.plus]
  | cons d s =>
    simp only [sign, List.cons_append]
    split
    · rfl
    · split <;> rfl

theorem ends_ne (h : Ends c) {d : UInt8} (hd : digit d < 36) : c ≠ d :=
  (digit_ne hd (by rw [h.digit]; exact Nat.lt_irrefl 36)).symm

theorem isx_append (h : Ends c) (s r : List UInt8) : isx (s ++ c :: r) = isx s := by
  have hc := h.digit
  have hx : c ≠ 'x'.toUInt8 := ends_ne h (by decide)
  have hX : c ≠ 'X'.toUInt8 := ends_ne h (by decide)
  rcases s with - | ⟨d, - | ⟨e, s⟩⟩
  · cases r <;> simp [isx, hx, hX]
  · simp [isx, hc]
  · rfl

theorem isx_ne_nil (h : isx s) : s ≠ [] := by
  rintro rfl
  cases h

theorem radix_append (h : Ends c) (s r : List UInt8) : radix (s ++ c :: r) = ((radix s).1, (radix s).2 ++ c :: r) := by
  cases s with
  | nil =>
    have h0 : c ≠ '0'.toUInt8 := ends_ne h (by decide)
    simp [radix, h0]
  | cons d s =>
    simp only [radix, List.cons_append, isx_append h]
    split
    · split
      · rename_i hx
        simp [List.tail_append_of_ne_nil (isx_ne_nil hx)]
      · rfl
    · rfl

theorem radix_le (s : List UInt8) : (radix s).1 ≤ 16 := by
  cases s with
  | nil => decide
  | cons d s =>
    simp only [radix]
    split
    · split
      · exact Nat.le_refl 16
      · exact (by decide : 8 ≤ 16)
    · exact (by decide : 10 ≤ 16)

/-- Before such a character the same is converted as before the end. -/
theorem scan_append (h : Ends c) (s r : List UInt8) : scan (s ++ c :: r) = { scan s with rest := (scan s).rest ++ c :: r } := by
  have hspace : (s ++ c :: r).dropWhile isspace = s.dropWhile isspace ++ c :: r := by
    rw [List.dropWhile_append]
    split
    · rename_i he
      rw [List.isEmpty_iff.mp he, List.dropWhile_cons_of_neg (by simp [h.space])]
      rfl
    · rfl
  have hle := radix_le (sign (s.dropWhile isspace)).2
  unfold scan
  simp only [hspace, sign_append h, radix_append h]
  generalize radix (sign (s.dropWhile isspace)).2 = x at hle
  obtain ⟨base, t⟩ := x
  have hdigit : ¬ digit c < base := by
    rw [h.digit]
    dsimp only at hle
    omega
  have htake : (t ++ c :: r).takeWhile (digit · < base) = t.takeWhile (digit · < base) := by
    rw [List.takeWhile_append]
    split
    · rename_i he
      rw [List.takeWhile_cons_of_neg (by simpa using hdigit), List.append_nil]
      exact ((List.takeWhile_prefix _).eq_of_length he).symm
    · rfl
  have hdrop : (t ++ c :: r).dropWhile (digit · < base) = t.dropWhile (digit · < base) ++ c :: r := by
    rw [List.dropWhile_append]
    split
    · rename_i he
      rw [List.isEmpty_iff.mp he, List.dropWhile_cons_of_neg (by simpa using hdigit)]
      rfl
    · rfl
  dsimp only
  rw [htake, hdrop]
  split <;> rfl

theorem strtoul_append (h : Ends c) (s r : List UInt8) :
    strtoul (s ++ c :: r) = ((strtoul s).1, (strtoul s).2 ++ c :: r) := by
  unfold strtoul
  rw [scan_append h]

end

/-! ## What is converted -/

section
variable {c : UInt8} {s t u b ds : List UInt8} {base v : Nat} {neg : Bool} {z : Int}

theorem isspace_digit (h : isspace c = true) : digit c = 36 := by
  unfold isspace at h
  rw [decide_eq_true_iff] at h
  rcases h with rfl | ⟨h9, h13⟩
  · decide
  · have hlt : c < '0'.toUInt8 := UInt8.lt_of_le_of_lt h13 (by decide)
    have hlt' : c < 'a'.toUInt8 := UInt8.lt_of_le_of_lt h13 (by decide)
    have hlt'' : c < 'A'.toUInt8 := UInt8.lt_of_le_of_lt h13 (by decide)
    unfold digit
    rw [if_neg fun h => UInt8.not_le.mpr hlt h.1, if_neg fun h => UInt8.not_le.mpr hlt' h.1, if_neg fun h => UInt8.not_le.mpr hlt'' h.1]

theorem not_isspace (h : digit c < 36) : isspace c = false := by
  cases hs : isspace c with
  | false => rfl
  | true => exact absurd (isspace_digit hs) (by omega)

/-- A numeral starts with a digit, and `radix` finds what it is made of. -/
theorem Numeral.radix (h : Numeral s v) :
    (∃ d t, s = d :: t ∧ digit d < 10) ∧
      ∃ base ds, radix s = (base, ds) ∧ ds ≠ [] ∧ Digits base ds ∧ value base ds = v := by
  cases h with
  | @decimal d ds hd hds =>
    refine ⟨⟨d, ds, rfl, hds d List.mem_cons_self⟩, 10, d :: ds, ?_, List.cons_ne_nil d ds, hds, rfl⟩
    simp [Strtoul.radix, hd]
  | @octal ds hds =>
    have hx : isx ds = false := by
      rcases ds with - | ⟨x, - | ⟨d, ds⟩⟩
      · rfl
      · rfl
      · have hlt := hds x List.mem_cons_self
        have hne : x ≠ 'x'.toUInt8 := digit_ne hlt (by decide)
        have hne' : x ≠ 'X'.toUInt8 := digit_ne hlt (by decide)
        simp [isx, hne, hne']
    refine ⟨⟨_, ds, rfl, by decide⟩, 8, '0'.toUInt8 :: ds, ?_, List.cons_ne_nil _ ds, ?_, value_zero 8 ds⟩
    · simp [Strtoul.radix, hx]
    · intro c hc
      rcases List.mem_cons.mp hc with rfl | hc
      · decide
      · exact hds c hc
  | @hex x ds hx hne hds =>
    refine ⟨⟨_, x :: ds, rfl, by decide⟩, 16, ds, ?_, hne, hds, rfl⟩
    cases ds with
    | nil => exact absurd rfl hne
    | cons d ds =>
      have hisx : isx (x :: d :: ds) = true := by simpa [isx, hx] using hds d List.mem_cons_self
      simp [Strtoul.radix, hisx]

theorem numeral_of_radix (h : radix s = (base, ds)) (hne : ds ≠ []) (hds : Digits base ds) : Numeral s (value base ds) := by
  cases s with
  | nil =>
    obtain ⟨-, rfl⟩ := Prod.mk.inj h
    exact absurd rfl hne
  | cons c s =>
    simp only [radix] at h
    split at h
    · rename_i hc
      subst hc
      split at h
      · rename_i hx
        obtain ⟨rfl, rfl⟩ := Prod.mk.inj h
        rcases s with - | ⟨x, - | ⟨d, s⟩⟩
        · cases hx
        · cases hx
        · simp only [isx, decide_eq_true_iff] at hx
          exact .hex hx.1 hne hds
      · obtain ⟨rfl, rfl⟩ := Prod.mk.inj h
        rw [value_zero]
        exact .octal fun d hd => hds d (List.mem_cons_of_mem _ hd)
    · rename_i hc
      obtain ⟨rfl, rfl⟩ := Prod.mk.inj h
      exact .decimal hc hds

/-- What is left is part of the string. -/
theorem scan_rest_suffix (s : List UInt8) : (scan s).rest <:+ s := by
  have hsign : ∀ t, (sign t).2 <:+ t := fun t => by
    cases t with
    | nil => exact List.suffix_refl []
    | cons c t =>
      simp only [Strtoul.sign]
      split
      · exact List.suffix_cons c t
      · split
        · exact List.suffix_cons c t
        · exact List.suffix_refl _
  have hradix : ∀ t, (Strtoul.radix t).2 <:+ t := fun t => by
    cases t with
    | nil => exact List.suffix_refl []
    | cons c t =>
      simp only [Strtoul.radix]
      split
      · split
        · exact (List.tail_suffix t).trans (List.suffix_cons c t)
        · exact List.suffix_refl _
      · exact List.suffix_refl _
  unfold scan
  dsimp only
  split
  · exact List.suffix_refl s
  · exact (List.dropWhile_suffix _).trans ((hradix _).trans ((hsign _).trans (List.dropWhile_suffix _)))

theorem digits_takeWhile (h : Digits base ds) : ds.takeWhile (digit · < base) = ds :=
  List.takeWhile_eq_self_iff.mpr fun c hc => decide_eq_true (h c hc)

theorem digits_dropWhile (h : Digits base ds) : ds.dropWhile (digit · < base) = [] :=
  List.dropWhile_eq_nil_iff.mpr fun c hc => decide_eq_true (h c hc)

theorem scan_eq (ht : s.dropWhile isspace = t) (hu : sign t = (neg, u)) (hr : radix u = (base, ds)) (hne : ds ≠ [])
    (hds : Digits base ds) : scan s = ⟨neg, base, ds, []⟩ := by
  unfold scan
  rw [ht, hu]
  dsimp only
  rw [hr]
  dsimp only
  rw [digits_takeWhile hds, digits_dropWhile hds, if_neg hne]

theorem sign_numeral (h : Numeral s v) : sign s = (false, s) := by
  obtain ⟨⟨d, t, rfl, hd⟩, -⟩ := h.radix
  have hm : d ≠ '-'.toUInt8 := digit_ne hd (by decide)
  have hp : d ≠ '+'.toUInt8 := digit_ne hd (by decide)
  simp [sign, hm, hp]

/-- What stands behind the sign of a signed numeral. -/
theorem Signed.sign (h : Signed s z) : ∃ c t u v, s = c :: t ∧ isspace c = false ∧ sign s = (decide (c = '-'.toUInt8), u) ∧
    Numeral u v ∧ z = if c = '-'.toUInt8 then -(v : Int) else v := by
  cases h with
  | @plain s v h =>
    obtain ⟨⟨d, t, rfl, hd⟩, -⟩ := h.radix
    have hm : d ≠ '-'.toUInt8 := digit_ne hd (by decide)
    refine ⟨d, t, d :: t, v, rfl, not_isspace (by omega), ?_, h, (if_neg hm).symm⟩
    rw [sign_numeral h, decide_eq_false hm]
  | @plus s v h => exact ⟨_, s, s, v, rfl, by decide, rfl, h, rfl⟩
  | @minus s v h => exact ⟨_, s, s, v, rfl, by decide, rfl, h, rfl⟩

/-- Every character of a signed numeral is a digit of some base, an `x` or a sign. -/
theorem Signed.mem (h : Signed s z) (hc : c ∈ s) : digit c < 36 ∨ c = '-'.toUInt8 ∨ c = '+'.toUInt8 := by
  have hnum : ∀ {u : List UInt8} {v : Nat}, Numeral u v → c ∈ u → digit c < 36 := fun hn hc => by
    cases hn with
    | decimal _ hds => exact Nat.lt_trans (hds c hc) (by decide)
    | octal hds =>
      rcases List.mem_cons.mp hc with rfl | hc
      · decide
      · exact Nat.lt_trans (hds c hc) (by decide)
    | hex hx _ hds =>
      rcases List.mem_cons.mp hc with rfl | hc
      · decide
      · rcases List.mem_cons.mp hc with rfl | hc
        · rcases hx with rfl | rfl <;> decide
        · exact Nat.lt_trans (hds c hc) (by decide)
  cases h with
  | plain h => exact .inl (hnum h hc)
  | plus h =>
    rcases List.mem_cons.mp hc with rfl | hc
    · exact .inr (.inr rfl)
    · exact .inl (hnum h hc)
  | minus h =>
    rcases List.mem_cons.mp hc with rfl | hc
    · exact .inr (.inl rfl)
    · exact .inl (hnum h hc)

/-- A signed numeral is converted to its end, and blanks before it are skipped. -/
theorem scan_signed (hb : ∀ c ∈ b, isspace c = true) (h : Signed s z) :
    (scan (b ++ s)).rest = [] ∧ (scan (b ++ s)).digits ≠ [] ∧ (scan (b ++ s)).denoted = z := by
  obtain ⟨c, t, u, v, rfl, hc, hu, hv, rfl⟩ := h.sign
  obtain ⟨-, base, ds, hr, hne, hds, hvalue⟩ := hv.radix
  have hspace : (b ++ c :: t).dropWhile isspace = c :: t := by
    rw [List.dropWhile_append_of_pos hb, List.dropWhile_cons_of_neg (by simp [hc])]
  rw [scan_eq hspace hu hr hne hds]
  refine ⟨rfl, hne, ?_⟩
  simp [Scan.denoted, hvalue]

theorem signed_of_sign (hu : sign s = (neg, u)) (h : Numeral u v) : Signed s (if neg then -(v : Int) else v) := by
  cases s with
  | nil =>
    obtain ⟨rfl, rfl⟩ := Prod.mk.inj hu
    exact .plain h
  | cons c s =>
    simp only [Strtoul.sign] at hu
    split at hu
    · rename_i hc
      obtain ⟨rfl, rfl⟩ := Prod.mk.inj hu
      subst hc
      exact .minus h
    · split at hu
      · rename_i hc
        obtain ⟨rfl, rfl⟩ := Prod.mk.inj hu
        subst hc
        exact .plus h
      · obtain ⟨rfl, rfl⟩ := Prod.mk.inj hu
        exact .plain h

/-- What is converted to its end is a signed numeral behind blanks. -/
theorem signed_of_scan (hr : (scan s).rest = []) (hne : s ≠ []) : Signed (s.dropWhile isspace) (scan s).denoted := by
  unfold scan at hr ⊢
  rcases hsign : sign (s.dropWhile isspace) with ⟨neg, u⟩
  rw [hsign] at hr
  dsimp only at hr ⊢
  rcases hradix : radix u with ⟨base, ds⟩
  rw [hradix] at hr
  dsimp only at hr ⊢
  split at hr
  · exact absurd hr hne
  · rename_i hds
    rw [if_neg hds]
    have hdigits : Digits base ds := fun c hc => of_decide_eq_true (List.dropWhile_eq_nil_iff.mp hr c hc)
    rw [digits_takeWhile hdigits] at hds ⊢
    exact signed_of_sign hsign (numeral_of_radix hradix hds hdigits)

end

/-! ## The value that is returned -/

theorem natAbs_denoted (r : Scan) : r.denoted.natAbs = value r.base r.digits := by
  unfold Scan.denoted
  split
  · rw [Int.natAbs_neg, Int.natAbs_natCast]
  · exact Int.natAbs_natCast _

/-- The low half of the result is that of the number, if it fits. -/
theorem low_denoted {r : Scan} (h : value r.base r.digits < 2 ^ 64) :
    ((ulong r.neg (value r.base r.digits)).toNat : Int) % 2 ^ 32 = r.denoted % 2 ^ 32 := by
  unfold ulong Scan.denoted
  rw [if_pos h]
  cases r.neg with
  | false =>
    simp only [Bool.false_eq_true, if_false, BitVec.toNat_ofNat]
    omega
  | true =>
    simp only [if_true, BitVec.toNat_neg, BitVec.toNat_ofNat]
    omega

theorem ulong_max (neg : Bool) {v : Nat} (h : ¬ v < 2 ^ 64) : (ulong neg v).toNat = 2 ^ 64 - 1 := by
  unfold ulong
  rw [if_neg h]
  rfl

end Libtask.Lib.Strtoul
