/-
  Libtask.Print.Numbers — which numbers are printed as what they are.

  `argvalue` is the value of the type that the flags select, `Printed` what one directive prints in
  a buffer with room. The digits are those of the value without its sign, and `neg` is not looked at
  again; a hexadecimal zero gets its digit in front of the prefix; a pointer is read as an `int`.
-/

import Libtask.Lib.Strtoul
import Libtask.Print.Relations

namespace Libtask.Print

open Libtask.Lib Libtask.Lib.Bytes Libtask.Lib.Numerals Libtask.Lib.Strtoul Libtask.Lib.Cells

/-! ## Values -/

def argvalue (fl : Flags) (a : BitVec 64) : Int :=
  if fl.long || fl.longlong then if fl.unsigned then a.toNat else a.toInt
  else if fl.unsigned then (a.setWidth 32).toNat else (a.setWidth 32).toInt

theorem natAbs_toInt (x : BitVec 64) : (if x.msb then -x else x).toNat = x.toInt.natAbs := by
  have hlt := x.isLt
  rw [BitVec.toInt_eq_msb_cond]
  cases hm : x.msb with
  | false =>
    simp only [Bool.false_eq_true, if_false]
    omega
  | true =>
    have hge : 2 ^ 63 ≤ x.toNat := by
      rw [BitVec.msb_eq_decide, decide_eq_true_iff] at hm
      exact hm
    simp only [if_true, BitVec.toNat_neg]
    omega

/-- What is printed is the value without its sign. -/
theorem magnitude_eq (fl : Flags) (a : BitVec 64) : magnitude fl a = (argvalue fl a).natAbs := by
  have hext : ((a.setWidth 32).signExtend 64).toInt = (a.setWidth 32).toInt := BitVec.toInt_signExtend_of_le (by decide)
  have hzext : ((a.setWidth 32).setWidth 64).toNat = (a.setWidth 32).toNat := by
    have hlt := (a.setWidth 32).isLt
    rw [BitVec.toNat_setWidth]
    omega
  unfold magnitude argvalue luvarg
  cases fl.unsigned with
  | true =>
    cases fl.longlong <;> cases fl.long <;> simp only [Bool.not_true, Bool.false_and, Bool.or_true, Bool.or_false, Bool.or_self,
      Bool.false_eq_true, if_true, if_false, hzext, Int.natAbs_natCast]
  | false =>
    cases fl.longlong <;> cases fl.long <;> simp only [Bool.not_false, Bool.true_and, Bool.or_true, Bool.or_false, Bool.or_self,
      Bool.false_eq_true, if_true, if_false, natAbs_toInt, hext]

theorem argvalue_unsigned {fl : Flags} (h : fl.unsigned = true) (a : BitVec 64) : 0 ≤ argvalue fl a := by
  unfold argvalue
  rw [h]
  split
  · exact Int.natCast_nonneg _
  · exact Int.natCast_nonneg _

/-! ## One directive -/

def Printed (err : List UInt8) (mods : List Mod) (verb : Verb) (a : BitVec 64) (t : List UInt8) : Prop :=
  ∀ n, t.length < n → Output err [.word a] [.dir mods verb] n t

section
variable {err t t' : List UInt8} {mods : List Mod} {verb : Verb} {base : Nat} {a b : BitVec 64}

theorem Printed.eq (h : Printed err mods verb a t) (h' : Printed err mods verb a t') : t = t' :=
  (h (t.length + t'.length + 1) (by omega)).eq (h' (t.length + t'.length + 1) (by omega))

/-- A number is printed, in its cell. -/
theorem printed_cell (h : verb.str err (spec mods).fl [.word a] = some (number base (spec mods).fl a, [])) :
    Printed err mods verb a (((spec mods).cell (number base (spec mods).fl a)).text blank) := by
  have hcells : cells err [.dir mods verb] [.word a] = some ([(spec mods).cell (number base (spec mods).fl a)], []) :=
    cells_cons_eq (Option.bind_eq_some_iff.mpr ⟨_, h, rfl⟩) rfl
  intro n hn
  have hout := output_text hcells (n := n)
  rw [text_cons, show text blank [] = [] from rfl, List.append_nil] at hout
  exact hout hn

theorem strip_cell (hb : 2 ≤ base) (hb' : base ≤ 16) (s : Spec) (a : BitVec 64) :
    strip blank ((s.cell (number base s.fl a)).text blank) = number base s.fl a :=
  strip_text fun _ hc => digit_ne (number_mem hb hb' hc) (by decide)

end

/-! ## Numerals -/

section
variable {s : List UInt8} {n v w : Nat}

theorem numeral_eq (h : Numeral s v) (h' : Numeral s w) : v = w := by
  obtain ⟨-, base, ds, hr, -, -, rfl⟩ := h.radix
  obtain ⟨-, base', ds', hr', -, -, rfl⟩ := h'.radix
  obtain ⟨rfl, rfl⟩ := Prod.mk.inj (hr.symm.trans hr')
  rfl

theorem numeral_decimal (hn : n ≠ 0) : Numeral (numeral 10 n) n := by
  obtain ⟨d, ds, hds, hd⟩ := numeral_head (by decide : 2 ≤ 10) (by decide) n hn
  have hdigits := digits_numeral (by decide : 2 ≤ 10) (by decide) n
  have hvalue := value_numeral (by decide : 2 ≤ 10) (by decide) n
  rw [hds] at hdigits hvalue ⊢
  rw [← hvalue]
  refine .decimal ?_ hdigits
  rintro rfl
  exact hd (by decide)

theorem numeral_octal (n : Nat) : Numeral ('0'.toUInt8 :: numeral 8 n) n := by
  have h := Numeral.octal (digits_numeral (by decide : 2 ≤ 8) (by decide) n)
  rwa [value_numeral (by decide) (by decide)] at h

theorem numeral_hex (hn : n ≠ 0) : Numeral ('0'.toUInt8 :: 'x'.toUInt8 :: numeral 16 n) n := by
  have h := Numeral.hex (.inl rfl) (numeral_ne_nil (by decide : 2 ≤ 16) hn) (digits_numeral (by decide) (by decide) n)
  rwa [value_numeral (by decide) (by decide)] at h

end

/-! ## Decimal -/

def decimal (v : Int) : List UInt8 :=
  (if v < 0 then ['-'.toUInt8] else []) ++ (if v = 0 then ['0'.toUInt8] else numeral 10 v.natAbs)

/-- The decimal numeral of the value is what is printed, and reads back, if the value is not negative. -/
theorem decimal_iff (err : List UInt8) (mods : List Mod) (a : BitVec 64) :
    (∃ t, Printed err mods .d a t ∧ strip blank t = decimal (argvalue (spec mods).fl a) ∧
      Signed (strip blank t) (argvalue (spec mods).fl a)) ↔ 0 ≤ argvalue (spec mods).fl a := by
  have hcell : Printed err mods .d a (((spec mods).cell (number 10 (spec mods).fl a)).text blank) := printed_cell rfl
  have hstrip := strip_cell (by decide : 2 ≤ 10) (by decide) (spec mods) a
  have hmag := magnitude_eq (spec mods).fl a
  constructor
  · rintro ⟨t, ht, hdec, -⟩
    by_contra hneg
    rw [ht.eq hcell, hstrip] at hdec
    have hminus : '-'.toUInt8 ∈ number 10 (spec mods).fl a := by
      rw [hdec, decimal, if_pos (by omega)]
      exact List.mem_append_left _ List.mem_cons_self
    unfold number at hminus
    rw [if_neg (by omega : ¬ ((10 : Nat) = 8 ∨ magnitude (spec mods).fl a = 0)), if_neg (by decide), List.nil_append,
      List.nil_append] at hminus
    exact absurd (digits_numeral (by decide : 2 ≤ 10) (by decide) _ _ hminus) (by decide)
  · intro hpos
    refine ⟨_, hcell, ?_⟩
    rw [hstrip]
    unfold number decimal
    rw [if_neg (by omega : ¬ argvalue (spec mods).fl a < 0), if_neg (by decide : ¬ (10 : Nat) = 16), List.nil_append,
      List.nil_append, hmag]
    by_cases hz : argvalue (spec mods).fl a = 0
    · rw [hz]
      have h0 : (if (10 : Nat) = 8 ∨ Int.natAbs 0 = 0 then ['0'.toUInt8] else []) ++ numeral 10 (Int.natAbs 0) = ['0'.toUInt8] := by
        rw [if_pos (.inr rfl), show Int.natAbs 0 = 0 from rfl, numeral_zero]
        rfl
      rw [h0]
      exact ⟨rfl, .plain (.octal fun c hc => absurd hc List.not_mem_nil)⟩
    · have hne : (argvalue (spec mods).fl a).natAbs ≠ 0 := by omega
      rw [if_neg (by omega : ¬ ((10 : Nat) = 8 ∨ (argvalue (spec mods).fl a).natAbs = 0)), if_neg hz, List.nil_append]
      refine ⟨rfl, ?_⟩
      have hs := Signed.plain (numeral_decimal hne)
      rwa [Int.natAbs_of_nonneg hpos] at hs

/-- -5 is printed as 5. -/
theorem minus_five : argvalue (spec []).fl (-5#64) = -5 ∧ Printed [0] [] .d (-5#64) (chars ['5']) ∧
    decimal (-5) = chars ['-', '5'] := by
  have h : Printed [0] [] .d (-5#64) (((spec []).cell (number 10 (spec []).fl (-5#64))).text blank) := printed_cell rfl
  have htext : ((spec []).cell (number 10 (spec []).fl (-5#64))).text blank = chars ['5'] := by decide +kernel
  exact ⟨by decide, htext ▸ h, by decide +kernel⟩

/-! ## Prefixes -/

/-- `0x` and lower-case digits, which read back. -/
def Hex (s : List UInt8) (v : Nat) : Prop :=
  ∃ ds, s = '0'.toUInt8 :: 'x'.toUInt8 :: ds ∧ ds ≠ [] ∧ (∀ c ∈ ds, c ∈ digits) ∧ Numeral s v

theorem hex_iff (fl : Flags) (a : BitVec 64) (v : Nat) : Hex (number 16 fl a) v ↔ magnitude fl a ≠ 0 ∧ magnitude fl a = v := by
  unfold number
  rw [if_pos rfl]
  constructor
  · rintro ⟨ds, hs, hne, -, hv⟩
    have hnz : magnitude fl a ≠ 0 := by
      intro hz
      rw [if_pos (.inr hz)] at hs
      exact absurd (List.cons.inj (List.cons.inj hs).2).1 (by decide)
    rw [if_neg (by omega)] at hv
    exact ⟨hnz, numeral_eq (numeral_hex hnz) hv⟩
  · rintro ⟨hnz, rfl⟩
    rw [if_neg (by omega)]
    refine ⟨numeral 16 (magnitude fl a), rfl, numeral_ne_nil (by decide) hnz, fun c hc => ?_, numeral_hex hnz⟩
    obtain ⟨d, hd, rfl⟩ := numeral_mem (by decide) hc
    rw [← digits_char hd]
    exact (by decide : ∀ d : Fin 16, digits.getD d 0 ∈ digits) ⟨d, hd⟩

theorem number_inj {fl : Flags} {a b : BitVec 64} (h : number 16 fl a = number 16 fl b) : magnitude fl a = magnitude fl b := by
  by_cases ha : magnitude fl a = 0
  · by_contra hne
    have hb := (hex_iff fl b _).mpr ⟨by omega, rfl⟩
    rw [← h, hex_iff] at hb
    exact hb.1 ha
  · have hb := (hex_iff fl a _).mpr ⟨ha, rfl⟩
    rw [h, hex_iff] at hb
    exact hb.2.symm

/-- The modifiers of a directive that only pad. -/
def Pads (mods : List Mod) : Prop := ∀ m ∈ mods, m ≠ .l ∧ m ≠ .u

theorem pads_fl {mods : List Mod} (h : Pads mods) : (spec mods).fl = ⟨false, false, false⟩ := by
  have hfold : ∀ (mods : List Mod) (s : Spec), Pads mods → (mods.foldl Spec.mod s).fl = s.fl := fun mods => by
    induction mods with
    | nil => exact fun _ _ => rfl
    | cons m mods ih =>
      intro s h
      obtain ⟨⟨hl, hu⟩, hmods⟩ := List.forall_mem_cons.mp h
      rw [List.foldl_cons, ih _ hmods]
      cases m with
      | minus => rfl
      | digit d => rfl
      | l => exact absurd rfl hl
      | u => exact absurd rfl hu
  exact hfold mods Spec.init h

/-- The low half of a pointer, as an `int`, without its sign. -/
theorem magnitude_pointer (a : BitVec 64) : magnitude ⟨false, false, false⟩ a = (a.setWidth 32).toInt.natAbs := magnitude_eq _ a

theorem natAbs_toInt_eq (x y : BitVec 32) : x.toInt.natAbs = y.toInt.natAbs ↔ x = y ∨ x = -y := by
  have hx := x.isLt
  have hy := y.isLt
  rw [BitVec.toInt_eq_toNat_cond, BitVec.toInt_eq_toNat_cond, ← BitVec.toNat_inj, ← BitVec.toNat_inj, BitVec.toNat_neg]
  split <;> split <;> omega

theorem natAbs_toInt_pointer (a : BitVec 64) : (a.setWidth 32).toInt.natAbs ≠ 0 ∧ (a.setWidth 32).toInt.natAbs = a.toNat ↔
    0 < a.toNat ∧ a.toNat ≤ 2 ^ 31 := by
  rw [BitVec.toInt_eq_toNat_cond, BitVec.toNat_setWidth]
  split <;> omega

/-- Octal numbers read back, hexadecimal ones if they are not zero, and pointers up to 2^31; two
    pointers print alike if their low halves are the same or opposite. -/
theorem prefixed_iff (err : List UInt8) (mods : List Mod) (a : BitVec 64) :
    ((spec mods).fl.unsigned = true →
      (∃ t v, Printed err mods .o a t ∧ argvalue (spec mods).fl a = (v : Nat) ∧ strip blank t = '0'.toUInt8 :: numeral 8 v ∧
        Numeral (strip blank t) v) ∧
      ((∃ t v, Printed err mods .x a t ∧ argvalue (spec mods).fl a = (v : Nat) ∧ Hex (strip blank t) v) ↔
        argvalue (spec mods).fl a ≠ 0)) ∧
    (Pads mods →
      ((∃ t, Printed err mods .p a t ∧ Hex (strip blank t) a.toNat) ↔ 0 < a.toNat ∧ a.toNat ≤ 2 ^ 31) ∧
      ∀ b, (∃ t, Printed err mods .p a t ∧ Printed err mods .p b t) ↔
        a.setWidth 32 = b.setWidth 32 ∨ a.setWidth 32 = -b.setWidth 32) := by
  have hoct : Printed err mods .o a (((spec mods).cell (number 8 (spec mods).fl a)).text blank) := printed_cell rfl
  have hhex : Printed err mods .x a (((spec mods).cell (number 16 (spec mods).fl a)).text blank) := printed_cell rfl
  have hptr : ∀ b, Printed err mods .p b (((spec mods).cell (number 16 (spec mods).fl b)).text blank) := fun b => printed_cell rfl
  have hstrip := fun b => strip_cell (by decide : 2 ≤ 16) (by decide) (spec mods) b
  have hmag := magnitude_eq (spec mods).fl a
  refine ⟨fun hu => ⟨?_, ?_⟩, fun hp => ⟨?_, fun b => ?_⟩⟩
  · have hpos := argvalue_unsigned hu a
    refine ⟨_, magnitude (spec mods).fl a, hoct, by omega, ?_⟩
    rw [strip_cell (by decide : 2 ≤ 8) (by decide)]
    unfold number
    rw [if_pos (.inl rfl), if_neg (by decide)]
    exact ⟨rfl, numeral_octal _⟩
  · have hpos := argvalue_unsigned hu a
    constructor
    · rintro ⟨t, v, ht, hv, hx⟩
      rw [ht.eq hhex, hstrip, hex_iff] at hx
      omega
    · intro hne
      refine ⟨_, magnitude (spec mods).fl a, hhex, by omega, ?_⟩
      rw [hstrip, hex_iff]
      exact ⟨by omega, rfl⟩
  · have hfl := pads_fl hp
    rw [← natAbs_toInt_pointer, ← magnitude_pointer, ← hfl, ← hex_iff, ← hstrip]
    constructor
    · rintro ⟨t, ht, hx⟩
      rwa [ht.eq (hptr a)] at hx
    · intro hx
      exact ⟨_, hptr a, hx⟩
  · have hfl := pads_fl hp
    rw [← natAbs_toInt_eq, ← magnitude_pointer, ← magnitude_pointer, ← hfl]
    constructor
    · rintro ⟨t, hta, htb⟩
      have htext := congrArg (strip blank) ((hta.eq (hptr a)).symm.trans (htb.eq (hptr b)))
      rw [hstrip, hstrip] at htext
      exact number_inj htext
    · intro h
      have heq : number 16 (spec mods).fl a = number 16 (spec mods).fl b := by
        unfold number
        rw [h]
      exact ⟨_, hptr a, heq ▸ hptr b⟩

/-- Pointers with the same low half print alike, and zero has its digit in front. -/
theorem pointers_alike : Printed [0] [] .p 1#64 (chars ['0', 'x', '1']) ∧ Printed [0] [] .p 4294967297#64 (chars ['0', 'x', '1']) ∧
    Printed [0] [.u] .x 0#64 (chars ['0', '0', 'x']) := by
  have ha : Printed [0] [] .p (1#64) (((spec []).cell (number 16 (spec []).fl (1#64))).text blank) := printed_cell rfl
  have hb : Printed [0] [] .p (4294967297#64) (((spec []).cell (number 16 (spec []).fl (4294967297#64))).text blank) := printed_cell rfl
  have hx : Printed [0] [.u] .x (0#64) (((spec [.u]).cell (number 16 (spec [.u]).fl (0#64))).text blank) := printed_cell rfl
  have hone : ((spec []).cell (number 16 (spec []).fl (1#64))).text blank = chars ['0', 'x', '1'] := by decide +kernel
  have hlow : ((spec []).cell (number 16 (spec []).fl (4294967297#64))).text blank = chars ['0', 'x', '1'] := by decide +kernel
  have hzero : ((spec [.u]).cell (number 16 (spec [.u]).fl (0#64))).text blank = chars ['0', '0', 'x'] := by decide +kernel
  exact ⟨hone ▸ ha, hlow ▸ hb, hzero ▸ hx⟩

end Libtask.Print
