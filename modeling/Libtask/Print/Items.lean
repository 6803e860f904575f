/-
  Libtask.Print.Items — what a format prints.

  A format is a list of items, characters and directives; `format` spells it. Each item is a cell:
  a directive's flags and width are read off its modifiers (`spec`), its string is what its verb
  makes of an argument. `cells` are those of a format, and the arguments that are left; there are
  none when an argument is missing or of the wrong kind.
-/

import Libtask.Lib.Numerals
import Libtask.Lib.Cells
import Libtask.Print.Print

namespace Libtask.Print

open Libtask.Lib Libtask.Lib.Bytes Libtask.Lib.Numerals Libtask.Lib.Cells

/-! ## Syntax -/

inductive Mod where
  | minus
  | digit (d : Fin 10)
  | l
  | u
  deriving DecidableEq, Repr

inductive Verb where
  | d
  | o
  | p
  | x
  | c
  | s
  | r
  deriving DecidableEq, Repr

/-- A character that is printed as it is. -/
structure Plain where
  c : UInt8
  nonul : c ≠ 0
  noverb : c ≠ '%'.toUInt8
  deriving DecidableEq, Repr

inductive Item where
  | lit (c : Plain)
  | dir (mods : List Mod) (verb : Verb)
  deriving DecidableEq, Repr

def Mod.char : Mod → UInt8
  | .minus => '-'.toUInt8
  | .digit d => UInt8.ofNat (48 + d)
  | .l => 'l'.toUInt8
  | .u => 'u'.toUInt8

def Verb.char : Verb → UInt8
  | .d => 'd'.toUInt8
  | .o => 'o'.toUInt8
  | .p => 'p'.toUInt8
  | .x => 'x'.toUInt8
  | .c => 'c'.toUInt8
  | .s => 's'.toUInt8
  | .r => 'r'.toUInt8

def Item.chars : Item → List UInt8
  | .lit c => [c.c]
  | .dir mods verb => '%'.toUInt8 :: (mods.map Mod.char ++ [verb.char])

def format (f : List Item) : List UInt8 := f.flatMap Item.chars

def blank : UInt8 := ' '.toUInt8

/-! ## Modifiers -/

structure Spec where
  fl : Flags
  size : Int
  sign : Int
  deriving DecidableEq, Repr

def Spec.mod (s : Spec) : Mod → Spec
  | .minus => { s with sign := -1 }
  | .digit d => { s with size := int (s.size * 10 + d) }
  | .l => { s with fl := if s.fl.long then { s.fl with longlong := true } else { s.fl with long := true } }
  | .u => { s with fl := { s.fl with unsigned := true } }

/-- What `'%'` starts with. -/
def Spec.init : Spec := ⟨⟨false, false, false⟩, 0, 1⟩

def spec (mods : List Mod) : Spec := mods.foldl Spec.mod Spec.init

/-- What `printstr` prints for its `size`. -/
def cell (size : Int) (str : List UInt8) : Cell UInt8 :=
  { left := size < 0, width := (if size < 0 then int (-size) else size).toNat, str }

def Spec.cell (s : Spec) (str : List UInt8) : Cell UInt8 := Print.cell (int (s.size * s.sign)) str

/-! ## Verbs -/

/-- The number without its sign. -/
def magnitude (fl : Flags) (a : BitVec 64) : Nat :=
  let luv := luvarg fl a
  (if !fl.unsigned && luv.msb then -luv else luv).toNat

def number (base : Nat) (fl : Flags) (a : BitVec 64) : List UInt8 :=
  (if base = 8 ∨ magnitude fl a = 0 then ['0'.toUInt8] else []) ++
    ((if base = 16 then ['0'.toUInt8, 'x'.toUInt8] else []) ++ numeral base (magnitude fl a))

section
variable {base luv : Nat} {fl : Flags} {a : BitVec 64} {s : List UInt8}

theorem digits_char {d : Nat} (h : d < 16) : digits.getD d 0 = Numerals.char d :=
  (by decide : ∀ d : Fin 16, digits.getD d 0 = Numerals.char d) ⟨d, h⟩

/-- The loop stores the numeral, if `buf` has room for `k` digits more. -/
theorem luvdigits_eq (hb : 2 ≤ base) (hb' : base ≤ 16) : ∀ (k fuel luv : Nat) (s : List UInt8), luv < base ^ k → k ≤ fuel →
    s.length + k ≤ 30 → luvdigits base fuel luv s = .ok (numeral base luv ++ s) := by
  intro k
  induction k with
  | zero =>
    intro fuel luv s hl _ _
    have h0 : luv = 0 := by simpa using hl
    subst h0
    rw [numeral_zero, List.nil_append]
    cases fuel <;> rfl
  | succ k ih =>
    intro fuel luv s hl hf hs
    obtain ⟨fuel, rfl⟩ : ∃ n, fuel = n + 1 := ⟨fuel - 1, by omega⟩
    unfold luvdigits
    split
    · rename_i h0
      rw [h0, numeral_zero, List.nil_append]
    · rename_i h0
      have hdiv : luv / base < base ^ k := Nat.div_lt_of_lt_mul (by rwa [← Nat.pow_succ'])
      have hmod : luv % base < base := Nat.mod_lt _ (by omega)
      rw [down, if_pos (by omega), ok_bind, ih fuel (luv / base) _ hdiv (by omega) (by simp only [List.length_cons]; omega),
        digits_char (by omega), numeral_step hb h0, List.append_assoc]
      rfl

/-- The prefixes are put in front of the digits. -/
theorem prefixes_eq {ds : List UInt8} (luv : BitVec 64) (hdigits : luvdigits base 30 luv.toNat [0] = .ok (ds ++ [0]))
    (hlen : (ds ++ [0]).length ≤ 23) :
    (do
      let p ← down [] 0
      let p ← luvdigits base 30 luv.toNat p
      let p ← if base = 16 then do down (← down p 'x'.toUInt8) '0'.toUInt8 else pure p
      if base = 8 ∨ luv = 0 then down p '0'.toUInt8 else pure p) =
    .ok ((if base = 8 ∨ luv.toNat = 0 then ['0'.toUInt8] else []) ++
      ((if base = 16 then ['0'.toUInt8, 'x'.toUInt8] else []) ++ (ds ++ [0]))) := by
  have hzero : luv = 0 ↔ luv.toNat = 0 := by
    rw [← BitVec.toNat_inj]
    rfl
  have hfirst : down [] 0 = .ok [0] := rfl
  rw [hfirst, ok_bind, hdigits, ok_bind]
  generalize ds ++ [0] = p at hlen ⊢
  have hlast : ∀ p : List UInt8, p.length ≤ 25 → (if base = 8 ∨ luv = 0 then down p '0'.toUInt8 else pure p) =
      .ok ((if base = 8 ∨ luv.toNat = 0 then ['0'.toUInt8] else []) ++ p) := fun p hp => by
    by_cases h : base = 8 ∨ luv = 0
    · rw [if_pos h, if_pos (h.imp_right hzero.mp), down, if_pos (by omega)]
      rfl
    · rw [if_neg h, if_neg fun h' => h (h'.imp_right hzero.mpr)]
      rfl
  by_cases h16 : base = 16
  · rw [if_pos h16, if_pos h16, down, if_pos (by omega), ok_bind, down, if_pos (by simp only [List.length_cons]; omega), ok_bind]
    exact hlast _ (by simp only [List.length_cons]; omega)
  · rw [if_neg h16, if_neg h16]
    exact hlast p (by omega)

theorem magnitude_lt (hb : 8 ≤ base) (fl : Flags) (a : BitVec 64) : magnitude fl a < base ^ 22 := by
  have hpow : 2 ^ 64 ≤ base ^ 22 := Nat.le_trans (by decide : 2 ^ 64 ≤ 8 ^ 22) (Nat.pow_le_pow_left hb 22)
  exact Nat.lt_of_lt_of_le (BitVec.isLt _) hpow

theorem magnitude_length (hb : 8 ≤ base) (fl : Flags) (a : BitVec 64) : (numeral base (magnitude fl a)).length ≤ 22 :=
  numeral_length (by omega) (magnitude_lt hb fl a)

/-- What `printstr` is given of a number. -/
theorem num_eq (hb : 8 ≤ base) (hb' : base ≤ 16) (fl : Flags) (a : BitVec 64) : num base fl a = .ok (number base fl a ++ [0]) := by
  have hdigits := luvdigits_eq (by omega) hb' 22 30 (magnitude fl a) [0] (magnitude_lt hb fl a) (by decide) (by decide)
  unfold number
  rw [List.append_assoc, List.append_assoc]
  refine prefixes_eq _ hdigits ?_
  rw [List.length_append, List.length_singleton]
  exact Nat.succ_le_succ (magnitude_length hb fl a)

/-- Every character of it is a digit of some base, or the `x`. -/
theorem number_mem {c : UInt8} (hb : 2 ≤ base) (hb' : base ≤ 16) (h : c ∈ number base fl a) : digit c < 36 := by
  unfold number at h
  rw [List.mem_append, List.mem_append] at h
  rcases h with h | h | h
  · split at h
    · exact List.mem_singleton.mp h ▸ (by decide)
    · exact absurd h List.not_mem_nil
  · split at h
    · rcases List.mem_cons.mp h with rfl | h
      · decide
      · exact List.mem_singleton.mp h ▸ (by decide)
    · exact absurd h List.not_mem_nil
  · exact Nat.lt_of_lt_of_le (digits_numeral hb (by omega) _ c h) (by omega)

end

/-! ## Arguments -/

/-- `strlen` gives an `int` that is not negative. -/
def Prints (s : List UInt8) : Prop := 0 ∈ s ∧ 0 ≤ int (s.idxOf 0)

instance (s : List UInt8) : Decidable (Prints s) := inferInstanceAs (Decidable (_ ∧ _))

/-- What `printstr` prints of the string. -/
def cstr (s : List UInt8) : List UInt8 := s.take (int (s.idxOf 0)).toNat

section
variable (err : List UInt8)

def Verb.str (fl : Flags) : Verb → List Arg → Option (List UInt8 × List Arg)
  | .d, .word a :: arg => some (number 10 fl a, arg)
  | .o, .word a :: arg => some (number 8 fl a, arg)
  | .p, .word a :: arg => some (number 16 fl a, arg)
  | .x, .word a :: arg => some (number 16 fl a, arg)
  | .c, .word a :: arg => some (cstr [⟨a.setWidth 8⟩, 0], arg)
  | .s, .str t :: arg => if Prints t then some (cstr t, arg) else none
  | .r, arg => if Prints err then some (cstr err, arg) else none
  | _, _ => none

def Item.cell : Item → List Arg → Option (Cell UInt8 × List Arg)
  | .lit c, arg => some (⟨true, 0, [c.c]⟩, arg)
  | .dir mods verb, arg => do
    let (str, arg) ← verb.str err (spec mods).fl arg
    some ((spec mods).cell str, arg)

def cells : List Item → List Arg → Option (List (Cell UInt8) × List Arg)
  | [], arg => some ([], arg)
  | i :: f, arg => do
    let (x, arg) ← i.cell err arg
    let (fs, arg) ← cells f arg
    some (x :: fs, arg)

variable {err}

theorem Verb.str_r (fl : Flags) (arg : List Arg) : Verb.str err fl .r arg = if Prints err then some (cstr err, arg) else none := by
  rcases arg with - | ⟨_ | _, _⟩ <;> rfl

/-- The verbs other than `%s` and `%r` take a word. -/
theorem Verb.str_word {verb : Verb} {fl : Flags} {str : List UInt8} {arg rest : List Arg} (h : verb.str err fl arg = some (str, rest))
    (hs : verb ≠ .s) (hr : verb ≠ .r) : ∃ a, arg = .word a :: rest ∧ verb.str err fl [.word a] = some (str, []) := by
  rcases arg with - | ⟨a | t, arg⟩
  · cases verb <;> first | cases h | exact absurd rfl hr
  · cases verb <;> first
      | exact absurd rfl hs
      | exact absurd rfl hr
      | (obtain ⟨rfl, rfl⟩ := Prod.mk.inj (Option.some.inj h)
         exact ⟨a, rfl, rfl⟩)
  · cases verb <;> first | exact absurd rfl hs | exact absurd rfl hr | cases h

theorem Verb.str_s {fl : Flags} {str : List UInt8} {arg rest : List Arg} (h : Verb.str err fl .s arg = some (str, rest)) :
    ∃ t, arg = .str t :: rest ∧ Prints t ∧ cstr t = str := by
  rcases arg with - | ⟨_ | t, arg⟩
  · cases h
  · cases h
  · change (if Prints t then some (cstr t, arg) else none) = some (str, rest) at h
    split at h
    · rename_i hp
      obtain ⟨hstr, rfl⟩ := Prod.mk.inj (Option.some.inj h)
      exact ⟨t, rfl, hp, hstr⟩
    · cases h

theorem cells_cons {i : Item} {f : List Item} {arg rest : List Arg} {fs : List (Cell UInt8)}
    (h : cells err (i :: f) arg = some (fs, rest)) :
    ∃ x arg' fs', i.cell err arg = some (x, arg') ∧ cells err f arg' = some (fs', rest) ∧ fs = x :: fs' := by
  unfold cells at h
  obtain ⟨⟨x, arg'⟩, hx, h⟩ := Option.bind_eq_some_iff.mp h
  obtain ⟨⟨fs', rest'⟩, hfs, h⟩ := Option.bind_eq_some_iff.mp h
  obtain ⟨rfl, rfl⟩ := Prod.mk.inj (Option.some.inj h)
  exact ⟨x, arg', fs', hx, hfs, rfl⟩

end

example : cells [0] [.lit ⟨'a'.toUInt8, by decide, by decide⟩, .dir [.minus, .digit 4] .d] [.word 42] =
    some ([⟨true, 0, chars ['a']⟩, ⟨true, 4, chars ['4', '2']⟩], []) := by decide +kernel

end Libtask.Print
