/-
  Libtask.Lib.Machine — straight-line code of a machine with registers and bytes.

  Addresses and registers have `w` bits, and addresses wrap. A word is stored with its least or its
  most significant byte first. What was stored is loaded again (`load_store`), also when other words
  were stored around it (`load_saves`), and what is apart from all that is as it was
  (`load_store_apart`, `load_saves_apart`).
-/

import Mathlib.Algebra.Group.Nat.Defs
import Mathlib.Logic.Function.Basic
import Mathlib.Data.List.Basic

namespace Libtask.Lib.Machine

open Function (update)

/-! ## Words in memory -/

abbrev Mem (w : Nat) := BitVec w → BitVec 8

/-- Where byte `i` of a word of `n` bytes is, byte 0 being the least significant. -/
def place (big : Bool) (n i : Nat) : Nat := if big then n - 1 - i else i

def byte {w : Nat} (v : BitVec w) (i : Nat) : BitVec 8 := (v >>> (8 * i)).setWidth 8

/-- The word of the bytes `f 0`, `f 1`, …. -/
def word (w : Nat) (f : Nat → BitVec 8) : Nat → BitVec w
  | 0 => 0
  | n + 1 => word w f n ||| (f n).setWidth w <<< (8 * n)

section
variable {w : Nat}

def load (big : Bool) (m : Mem w) (a : BitVec w) (n : Nat) : BitVec w :=
  word w (fun i => m (a + BitVec.ofNat w (place big n i))) n

def store (big : Bool) (m : Mem w) (a : BitVec w) (n : Nat) (v : BitVec w) : Mem w := fun x =>
  let d := (x - a).toNat
  if d < n then byte v (place big n d) else m x

/-- `n` bytes at `a` and `k` bytes at `b` share none. -/
def Apart (a : BitVec w) (n : Nat) (b : BitVec w) (k : Nat) : Prop :=
  ∀ i < n, ∀ j < k, a + BitVec.ofNat w i ≠ b + BitVec.ofNat w j

instance (a : BitVec w) (n : Nat) (b : BitVec w) (k : Nat) : Decidable (Apart a n b k) :=
  inferInstanceAs (Decidable (∀ i < n, ∀ j < k, a + BitVec.ofNat w i ≠ b + BitVec.ofNat w j))

variable {big : Bool} {m m' : Mem w} {a b v : BitVec w} {n k i : Nat} {f : Nat → BitVec 8}

theorem place_lt (h : i < n) : place big n i < n := by
  unfold place
  split <;> omega

theorem place_place (h : i < n) : place big n (place big n i) = i := by
  unfold place
  split <;> omega

theorem getLsbD_byte (j : Nat) : (byte v i).getLsbD j = (decide (j < 8) && v.getLsbD (8 * i + j)) := by
  simp [byte]

theorem getLsbD_word (j : Nat) : (word w f n).getLsbD j =
    (decide (j < w) && decide (j < 8 * n) && (f (j / 8)).getLsbD (j % 8)) := by
  induction n with
  | zero => simp [word]
  | succ n ih =>
    rw [word, BitVec.getLsbD_or, ih, BitVec.getLsbD_shiftLeft, BitVec.getLsbD_setWidth]
    by_cases hlt : j < 8 * n
    · have hlt' : j < 8 * (n + 1) := by omega
      simp [hlt, hlt']
    · by_cases hlt' : j < 8 * (n + 1)
      · -- the bits of the new byte
        have hdiv : j / 8 = n := by omega
        have hmod : j % 8 = j - 8 * n := by omega
        rw [hdiv, hmod]
        by_cases hw : j < w
        · have hw' : j - 8 * n < w := by omega
          simp [hlt, hlt', hw, hw']
        · simp [hw]
      · have hnone : (f n).getLsbD (j - 8 * n) = false := BitVec.getLsbD_of_ge _ _ (by omega)
        simp [hlt, hlt', hnone]

theorem word_congr {g : Nat → BitVec 8} (h : ∀ i < n, f i = g i) : word w f n = word w g n := by
  induction n with
  | zero => rfl
  | succ n ih => rw [word, word, ih fun i hi => h i (by omega), h n (Nat.lt_succ_self n)]

theorem load_congr (h : ∀ i < n, m (a + BitVec.ofNat w i) = m' (a + BitVec.ofNat w i)) : load big m a n = load big m' a n :=
  word_congr fun _ hi => h _ (place_lt hi)

theorem store_at (hn : n ≤ 2 ^ w) (hi : i < n) : store big m a n v (a + BitVec.ofNat w i) = byte v (place big n i) := by
  have hd : (a + BitVec.ofNat w i - a).toNat = i := by
    rw [BitVec.add_comm, BitVec.add_sub_cancel, BitVec.toNat_ofNat, Nat.mod_eq_of_lt (by omega)]
  simp only [store, hd, if_pos hi]

theorem store_apart (h : Apart a n b k) (hi : i < k) : store big m a n v (b + BitVec.ofNat w i) = m (b + BitVec.ofNat w i) := by
  have hd : ¬ (b + BitVec.ofNat w i - a).toNat < n := fun hlt => by
    refine h _ hlt i hi ?_
    rw [BitVec.ofNat_toNat, BitVec.setWidth_eq, BitVec.add_comm, BitVec.sub_add_cancel]
  simp only [store, if_neg hd]

theorem load_store (hn : n ≤ 2 ^ w) (hw : 8 * n = w) : load big (store big m a n v) a n = v := by
  apply BitVec.eq_of_getLsbD_eq
  intro j hj
  have hlt : j / 8 < n := by omega
  rw [load, getLsbD_word, store_at hn (place_lt hlt), place_place hlt, getLsbD_byte]
  have hmod : 8 * (j / 8) + j % 8 = j := Nat.div_add_mod j 8
  have hj8 : j % 8 < 8 := Nat.mod_lt _ (by decide)
  rw [hmod]
  simp [hj, hj8, hw]

theorem load_store_apart (h : Apart a n b k) : load big (store big m a n v) b k = load big m b k :=
  load_congr fun _ hi => store_apart h hi

/-! ## Several words -/

/-- A word of `n` bytes at offset `o`. -/
structure Slot (w : Nat) where
  o : Nat
  n : Nat
  v : BitVec w

/-- The slots are stored one after the other. -/
def saves (big : Bool) (a : BitVec w) : Mem w → List (Slot w) → Mem w
  | m, [] => m
  | m, x :: l => saves big a (store big m (a + BitVec.ofNat w x.o) x.n x.v) l

/-- Each range of bytes lies within `size` bytes, and no two have one in common. -/
def Spaced (size : Nat) (l : List (Nat × Nat)) : Prop :=
  (∀ x ∈ l, x.1 + x.2 ≤ size) ∧ l.Pairwise fun x y => x.1 + x.2 ≤ y.1 ∨ y.1 + y.2 ≤ x.1

instance (size : Nat) (l : List (Nat × Nat)) : Decidable (Spaced size l) := inferInstanceAs (Decidable (_ ∧ _))

def Slot.range (x : Slot w) : Nat × Nat := (x.o, x.n)

variable {l : List (Slot w)} {size : Nat}

theorem apart_ranges {o o' n' : Nat} (h1 : o + n ≤ 2 ^ w) (h2 : o' + n' ≤ 2 ^ w) (h : o + n ≤ o' ∨ o' + n' ≤ o) :
    Apart (a + BitVec.ofNat w o) n (a + BitVec.ofNat w o') n' := by
  intro i hi j hj he
  rw [BitVec.add_assoc, BitVec.add_assoc, ← BitVec.ofNat_add, ← BitVec.ofNat_add] at he
  have he := congrArg BitVec.toNat (BitVec.add_right_inj a |>.mp he)
  rw [BitVec.toNat_ofNat, BitVec.toNat_ofNat, Nat.mod_eq_of_lt (by omega), Nat.mod_eq_of_lt (by omega)] at he
  omega

/-- What is apart from a block is apart from its parts. -/
theorem Apart.part {o : Nat} (h : Apart a size b k) (ho : o + n ≤ size) : Apart (a + BitVec.ofNat w o) n b k := by
  intro i hi j hj he
  rw [BitVec.add_assoc, ← BitVec.ofNat_add] at he
  exact h (o + i) (by omega) j hj he

theorem Apart.symm (h : Apart a n b k) : Apart b k a n := fun i hi j hj he => h j hj i hi he.symm

theorem load_saves_apart (h : ∀ x ∈ l, Apart (a + BitVec.ofNat w x.o) x.n b k) :
    load big (saves big a m l) b k = load big m b k := by
  induction l generalizing m with
  | nil => rfl
  | cons x l ih =>
    rw [saves, ih fun y hy => h y (List.mem_cons_of_mem _ hy), load_store_apart (h x List.mem_cons_self)]

/-- What is apart from the block is not changed. -/
theorem load_saves_outside (hs : Spaced size (l.map Slot.range)) (h : Apart a size b k) :
    load big (saves big a m l) b k = load big m b k :=
  load_saves_apart fun _ hx => h.part (hs.1 _ (List.mem_map_of_mem hx))

/-- Each word can be loaded. -/
theorem load_saves (hs : Spaced size (l.map Slot.range)) (hsize : size ≤ 2 ^ w) {x : Slot w} (hx : x ∈ l) (hw : 8 * x.n = w) :
    load big (saves big a m l) (a + BitVec.ofNat w x.o) x.n = x.v := by
  induction l generalizing m with
  | nil => cases hx
  | cons y l ih =>
    obtain ⟨hin, hpair⟩ := hs
    obtain ⟨hy, hl⟩ := List.pairwise_cons.mp hpair
    have hle : ∀ z ∈ y :: l, z.o + z.n ≤ 2 ^ w := fun z hz => Nat.le_trans (hin _ (List.mem_map_of_mem hz)) hsize
    rw [saves]
    rcases List.mem_cons.mp hx with rfl | hx
    · rw [load_saves_apart fun z hz => ?_]
      · refine load_store ?_ hw
        have := hle x List.mem_cons_self
        omega
      · exact apart_ranges (hle z (List.mem_cons_of_mem _ hz)) (hle x List.mem_cons_self) (hy _ (List.mem_map_of_mem hz)).symm
    · exact ih ⟨fun z hz => hin z (List.mem_cons_of_mem _ hz), hl⟩ hx

theorem at_offset (h : a.toNat ≤ b.toNat) : b = a + BitVec.ofNat w (b.toNat - a.toNat) := by
  apply BitVec.eq_of_toNat_eq
  rw [BitVec.toNat_add, BitVec.toNat_ofNat, Nat.mod_eq_of_lt (a := b.toNat - a.toNat) (by omega), Nat.add_sub_cancel' h,
    Nat.mod_eq_of_lt b.isLt]

/-- A part of a block. -/
theorem Apart.within {x : BitVec w} {j : Nat} (h : Apart a n b k) (hlow : a.toNat ≤ x.toNat) (hhigh : x.toNat + j ≤ a.toNat + n) :
    Apart x j b k := by
  rw [at_offset hlow]
  exact h.part (by omega)

/-- A byte that is in no slot is not changed. -/
theorem saves_apart (h : ∀ x ∈ l, Apart (a + BitVec.ofNat w x.o) x.n b k) (hi : i < k) :
    saves big a m l (b + BitVec.ofNat w i) = m (b + BitVec.ofNat w i) := by
  induction l generalizing m with
  | nil => rfl
  | cons x l ih =>
    rw [saves, ih fun y hy => h y (List.mem_cons_of_mem _ hy), store_apart (h x List.mem_cons_self) hi]

theorem toNat_at (h : a.toNat + i < 2 ^ w) : (a + BitVec.ofNat w i).toNat = a.toNat + i := by
  rw [BitVec.toNat_add, BitVec.toNat_ofNat, Nat.mod_eq_of_lt (a := i) (by omega), Nat.mod_eq_of_lt h]

/-- One block is below the other. -/
theorem apart_below (h : a.toNat + n ≤ b.toNat) (hb : b.toNat + k ≤ 2 ^ w) : Apart a n b k := by
  intro i hi j hj he
  have he := congrArg BitVec.toNat he
  rw [toNat_at (by omega), toNat_at (by omega)] at he
  omega

end

/-! ## Code -/

section
variable {R : Type} {w : Nat}

inductive Opnd (R : Type) (w : Nat) where
  | imm (v : BitVec w)
  | reg (r : R)
  /-- The memory at offset `o` of the address in `r`. -/
  | mem (o : Nat) (r : R)

inductive Op (R : Type) (w : Nat) where
  /-- Moves `n` bytes. -/
  | mov (n : Nat) (src dst : Opnd R w)
  | lea (o : Nat) (r dst : R)
  | xor (r r' dst : R)
  | push (src : Opnd R w)
  | ret
  | jump (r : R)
  | nop

structure State (R : Type) (w : Nat) where
  reg : R → BitVec w
  mem : Mem w
  pc : BitVec w

/-- The byte order, and the stack pointer. -/
structure Arch (R : Type) where
  big : Bool
  sp : R

/-- The address of an operand in memory. -/
def State.addr (s : State R w) (o : Nat) (r : R) : BitVec w := s.reg r + BitVec.ofNat w o

def Opnd.read (A : Arch R) (n : Nat) (s : State R w) : Opnd R w → BitVec w
  | .imm v => v
  | .reg r => s.reg r
  | .mem o r => load A.big s.mem (s.addr o r) n

variable [DecidableEq R]

def State.setReg (s : State R w) (r : R) (v : BitVec w) : State R w := { s with reg := update s.reg r v }

/-- Nothing is written to an immediate operand. -/
def Opnd.write (A : Arch R) (n : Nat) (s : State R w) (v : BitVec w) : Opnd R w → State R w
  | .imm _ => s
  | .reg r => s.setReg r v
  | .mem o r => { s with mem := store A.big s.mem (s.addr o r) n v }

def Op.exec (A : Arch R) (s : State R w) : Op R w → State R w
  | .mov n src dst => dst.write A n s (src.read A n s)
  | .lea o r dst => s.setReg dst (s.addr o r)
  | .xor r r' dst => s.setReg dst (s.reg r ^^^ s.reg r')
  | .push src =>
    let v := src.read A (w / 8) s
    let s := s.setReg A.sp (s.reg A.sp - BitVec.ofNat w (w / 8))
    { s with mem := store A.big s.mem (s.reg A.sp) (w / 8) v }
  | .ret =>
    let pc := load A.big s.mem (s.reg A.sp) (w / 8)
    { s.setReg A.sp (s.reg A.sp + BitVec.ofNat w (w / 8)) with pc := pc }
  | .jump r => { s with pc := s.reg r }
  | .nop => s

/-- The instructions of a routine, its jump back among them. -/
def run (A : Arch R) (code : List (Op R w)) (s : State R w) : State R w := code.foldl (Op.exec A) s

end

end Libtask.Lib.Machine
