/-
  Libtask.Context.Risc — the context switch of the PowerPC, the ARM and the MIPS (asm.S).

  The return address is in a register, and `SET` jumps to the one that `GET` saved. On the MIPS
  nothing plants a value: `SET` returns what `$2` has when it is called (`Mips.set_value`).
-/

import Mathlib.Data.Fintype.Basic
import Mathlib.Data.List.FinRange
import Mathlib.Tactic.FinCases
import Libtask.Context.Port

namespace Libtask.Context

open Libtask.Lib.Machine

/-! ## PowerPC -/

inductive Power where
  | r (n : Fin 32)
  | lr
  | cr
  | ctr
  | xer
  deriving DecidableEq, Repr

namespace Power

def stw (s : Fin 32) (o : Nat) (a : Fin 32) : Op Power 32 := .mov 4 (.reg (.r s)) (.mem o (.r a))

def lwz (d : Fin 32) (o : Nat) (a : Fin 32) : Op Power 32 := .mov 4 (.mem o (.r a)) (.reg (.r d))

def li (d : Fin 32) (v : BitVec 32) : Op Power 32 := .mov 4 (.imm v) (.reg (.r d))

/-- `mflr`, `mfcr`, `mfctr` and `mfxer`. -/
def mf (x : Power) (d : Fin 32) : Op Power 32 := .mov 4 (.reg x) (.reg (.r d))

/-- `mtlr`, `mtcr`, `mtctr` and `mtxer`. -/
def mt (x : Power) (s : Fin 32) : Op Power 32 := .mov 4 (.reg (.r s)) (.reg x)

def blr : Op Power 32 := .jump .lr

def GET : List (Op Power 32) :=
  [ mf .lr 0,
    mf .cr 5,
    mf .ctr 6,
    mf .xer 7,
    stw 0 (0 * 4) 3,
    stw 5 (1 * 4) 3,
    stw 6 (2 * 4) 3,
    stw 7 (3 * 4) 3,
    stw 1 (4 * 4) 3,
    stw 2 (5 * 4) 3,
    li 5 1,
    stw 5 (6 * 4) 3,
    stw 13 ((0 + 7) * 4) 3,
    stw 14 ((1 + 7) * 4) 3,
    stw 15 ((2 + 7) * 4) 3,
    stw 16 ((3 + 7) * 4) 3,
    stw 17 ((4 + 7) * 4) 3,
    stw 18 ((5 + 7) * 4) 3,
    stw 19 ((6 + 7) * 4) 3,
    stw 20 ((7 + 7) * 4) 3,
    stw 21 ((8 + 7) * 4) 3,
    stw 22 ((9 + 7) * 4) 3,
    stw 23 ((10 + 7) * 4) 3,
    stw 24 ((11 + 7) * 4) 3,
    stw 25 ((12 + 7) * 4) 3,
    stw 26 ((13 + 7) * 4) 3,
    stw 27 ((14 + 7) * 4) 3,
    stw 28 ((15 + 7) * 4) 3,
    stw 29 ((16 + 7) * 4) 3,
    stw 30 ((17 + 7) * 4) 3,
    stw 31 ((18 + 7) * 4) 3,
    li 3 0,
    blr ]

def SET : List (Op Power 32) :=
  [ lwz 13 ((0 + 7) * 4) 3,
    lwz 14 ((1 + 7) * 4) 3,
    lwz 15 ((2 + 7) * 4) 3,
    lwz 16 ((3 + 7) * 4) 3,
    lwz 17 ((4 + 7) * 4) 3,
    lwz 18 ((5 + 7) * 4) 3,
    lwz 19 ((6 + 7) * 4) 3,
    lwz 20 ((7 + 7) * 4) 3,
    lwz 21 ((8 + 7) * 4) 3,
    lwz 22 ((9 + 7) * 4) 3,
    lwz 23 ((10 + 7) * 4) 3,
    lwz 24 ((11 + 7) * 4) 3,
    lwz 25 ((12 + 7) * 4) 3,
    lwz 26 ((13 + 7) * 4) 3,
    lwz 27 ((14 + 7) * 4) 3,
    lwz 28 ((15 + 7) * 4) 3,
    lwz 29 ((16 + 7) * 4) 3,
    lwz 30 ((17 + 7) * 4) 3,
    lwz 31 ((18 + 7) * 4) 3,
    lwz 1 (4 * 4) 3,
    lwz 2 (5 * 4) 3,
    lwz 0 (0 * 4) 3,
    mt .lr 0,
    lwz 0 (1 * 4) 3,
    mt .cr 0,
    lwz 0 (2 * 4) 3,
    mt .ctr 0,
    lwz 0 (3 * 4) 3,
    mt .xer 0,
    lwz 3 (6 * 4) 3,
    blr ]

/-- The registers of the field `gpr`. -/
def gpr (i : Fin 19) : Power := .r ⟨13 + i, by omega⟩

end Power

abbrev power : Port where
  Reg := Power
  dec := inferInstance
  w := 32
  arch := { big := true, sp := .r 1 }
  GET := Power.GET
  SET := Power.SET
  link := some .lr
  arg := some (.r 3)
  value := .r 3
  saved := .r 2 :: .cr :: (List.finRange 19).map Power.gpr
  size := 104
  fits := by decide

namespace Power

/-- What `GET` stores. -/
def slots (s : State Power 32) : List (Slot 32) :=
  [⟨0, 4, s.reg .lr⟩, ⟨4, 4, s.reg .cr⟩, ⟨8, 4, s.reg .ctr⟩, ⟨12, 4, s.reg .xer⟩, ⟨16, 4, s.reg (.r 1)⟩, ⟨20, 4, s.reg (.r 2)⟩,
    ⟨24, 4, 1⟩] ++ (List.finRange 19).map fun i => ⟨28 + 4 * i, 4, s.reg (gpr i)⟩

section
variable {s s' : State Power 32}

theorem spaced (s : State Power 32) : Spaced 104 ((slots s).map Slot.range) := by
  have h : Spaced 104 ([(0, 4), (4, 4), (8, 4), (12, 4), (16, 4), (20, 4), (24, 4)] ++
      (List.finRange 19).map fun i => (28 + 4 * i.val, 4)) := by decide
  exact h

/-- What `GET` saved is loaded again. -/
theorem reloads (hr : power.Resume s s') {x : Slot 32} (hx : x ∈ slots s) (hn : 8 * x.n = 32) :
    load true s'.mem (power.ucp s' + BitVec.ofNat 32 x.o) x.n = x.v :=
  hr.reloads rfl (spaced s) hx hn

theorem set_value (hr : power.Resume s s') : (power.set s').reg (.r 3) = 1 :=
  reloads hr (x := ⟨24, 4, 1⟩) (by simp [slots]) rfl

theorem get_gpr (s : State Power 32) (i : Fin 19) : (power.get s).reg (gpr i) = s.reg (gpr i) := by
  fin_cases i <;> rfl

theorem set_gpr (hr : power.Resume s s') (i : Fin 19) : (power.set s').reg (gpr i) = s.reg (gpr i) := by
  have hset : (power.set s').reg (gpr i) = load true s'.mem (power.ucp s' + BitVec.ofNat 32 (28 + 4 * i)) 4 := by
    fin_cases i <;> rfl
  rw [hset]
  exact reloads hr (x := ⟨28 + 4 * i, 4, s.reg (gpr i)⟩)
    (List.mem_append_right _ (List.mem_map.mpr ⟨i, List.mem_finRange i, rfl⟩)) rfl

theorem restores (hr : power.Resume s s') : Restores power s s' where
  get_pc := rfl
  get_sp := rfl
  get_saved := by
    simp only [List.forall_mem_cons, List.forall_mem_map]
    exact ⟨rfl, rfl, fun i _ => get_gpr s i⟩
  get_value := rfl
  set_pc := reloads hr (x := ⟨0, 4, s.reg .lr⟩) (by simp [slots]) rfl
  set_sp := reloads hr (x := ⟨16, 4, s.reg (.r 1)⟩) (by simp [slots]) rfl
  set_saved := by
    simp only [List.forall_mem_cons, List.forall_mem_map]
    refine ⟨?_, ?_, fun i _ => set_gpr hr i⟩
    · exact reloads hr (x := ⟨20, 4, s.reg (.r 2)⟩) (by simp [slots]) rfl
    · exact reloads hr (x := ⟨4, 4, s.reg .cr⟩) (by simp [slots]) rfl

end

end Power

/-! ## ARM -/

/-- `r0` to `r14`; the others are `pc` and the flags. -/
abbrev Arm := Fin 15

namespace Arm

/-- `str s, [a,#o]`. -/
def str (s a : Arm) (o : Nat) : Op Arm 32 := .mov 4 (.reg s) (.mem o a)

/-- `ldr d, [a,#o]`. -/
def ldr (d a : Arm) (o : Nat) : Op Arm 32 := .mov 4 (.mem o a) (.reg d)

def mov (d : Arm) (src : Opnd Arm 32) : Op Arm 32 := .mov 4 src (.reg d)

/-- `mov pc, s`. -/
def movpc (s : Arm) : Op Arm 32 := .jump s

def GET : List (Op Arm 32) :=
  [ str 1 0 4,
    str 2 0 8,
    str 3 0 12,
    str 4 0 16,
    str 5 0 20,
    str 6 0 24,
    str 7 0 28,
    str 8 0 32,
    str 9 0 36,
    str 10 0 40,
    str 11 0 44,
    str 12 0 48,
    str 13 0 52,
    str 14 0 56,
    mov 1 (.imm 1),
    str 1 0 0,
    mov 0 (.imm 0),
    movpc 14 ]

def SET : List (Op Arm 32) :=
  [ ldr 1 0 4,
    ldr 2 0 8,
    ldr 3 0 12,
    ldr 4 0 16,
    ldr 5 0 20,
    ldr 6 0 24,
    ldr 7 0 28,
    ldr 8 0 32,
    ldr 9 0 36,
    ldr 10 0 40,
    ldr 11 0 44,
    ldr 12 0 48,
    ldr 13 0 52,
    ldr 14 0 56,
    ldr 0 0 0,
    movpc 14 ]

end Arm

abbrev arm (big : Bool) : Port where
  Reg := Arm
  dec := inferInstance
  w := 32
  arch := { big := big, sp := 13 }
  GET := Arm.GET
  SET := Arm.SET
  link := some 14
  arg := some 0
  value := 0
  saved := [4, 5, 6, 7, 8, 9, 10, 11]
  size := 60
  fits := by decide

namespace Arm

/-- What `GET` stores. -/
def slots (s : State Arm 32) : List (Slot 32) := ((List.finRange 14).map fun i => ⟨4 + 4 * i, 4, s.reg i.succ⟩) ++ [⟨0, 4, 1⟩]

section
variable {big : Bool} {s s' : State Arm 32}

theorem spaced (s : State Arm 32) : Spaced 60 ((slots s).map Slot.range) := by
  have h : Spaced 60 (((List.finRange 14).map fun i => (4 + 4 * i.val, 4)) ++ [(0, 4)]) := by decide
  exact h

/-- What `GET` saved is loaded again. -/
theorem reloads (hr : (arm big).Resume s s') {x : Slot 32} (hx : x ∈ slots s) (hn : 8 * x.n = 32) :
    load big s'.mem ((arm big).ucp s' + BitVec.ofNat 32 x.o) x.n = x.v :=
  hr.reloads rfl (spaced s) hx hn

theorem set_value (hr : (arm big).Resume s s') : ((arm big).set s').reg 0 = 1 :=
  reloads hr (x := ⟨0, 4, 1⟩) (by simp [slots]) rfl

/-- The other registers are all loaded. -/
theorem set_succ (hr : (arm big).Resume s s') (i : Fin 14) : ((arm big).set s').reg i.succ = s.reg i.succ := by
  have hset : ((arm big).set s').reg i.succ = load big s'.mem ((arm big).ucp s' + BitVec.ofNat 32 (4 + 4 * i)) 4 := by
    fin_cases i <;> rfl
  rw [hset]
  exact reloads hr (x := ⟨4 + 4 * i, 4, s.reg i.succ⟩) (List.mem_append_left _ (List.mem_map.mpr ⟨i, List.mem_finRange i, rfl⟩)) rfl

theorem restores (hr : (arm big).Resume s s') : Restores (arm big) s s' where
  get_pc := rfl
  get_sp := rfl
  get_saved := by
    simp only [List.forall_mem_cons]
    exact ⟨rfl, rfl, rfl, rfl, rfl, rfl, rfl, rfl, nofun⟩
  get_value := rfl
  set_pc := set_succ hr 13
  set_sp := set_succ hr 12
  set_saved := by
    simp only [List.forall_mem_cons]
    exact ⟨set_succ hr 3, set_succ hr 4, set_succ hr 5, set_succ hr 6, set_succ hr 7, set_succ hr 8, set_succ hr 9,
      set_succ hr 10, nofun⟩

end

end Arm

/-! ## MIPS -/

/-- `$0` to `$31`. -/
abbrev Mips := Fin 32

namespace Mips

/-- `sw $s, o($a)`. -/
def sw (s : Mips) (o : Nat) (a : Mips) : Op Mips 32 := .mov 4 (.reg s) (.mem o a)

/-- `lw $d, o($a)`. -/
def lw (d : Mips) (o : Nat) (a : Mips) : Op Mips 32 := .mov 4 (.mem o a) (.reg d)

def xor (d s t : Mips) : Op Mips 32 := .xor s t d

def j (s : Mips) : Op Mips 32 := .jump s

def nop : Op Mips 32 := .nop

def GET : List (Op Mips 32) :=
  [ sw 4 24 4,
    sw 5 28 4,
    sw 6 32 4,
    sw 7 36 4,
    sw 16 72 4,
    sw 17 76 4,
    sw 18 80 4,
    sw 19 84 4,
    sw 20 88 4,
    sw 21 92 4,
    sw 22 96 4,
    sw 23 100 4,
    sw 28 120 4,
    sw 29 124 4,
    sw 30 128 4,
    sw 31 132 4,
    xor 2 2 2,
    j 31,
    nop ]

def SET : List (Op Mips 32) :=
  [ lw 16 72 4,
    lw 17 76 4,
    lw 18 80 4,
    lw 19 84 4,
    lw 20 88 4,
    lw 21 92 4,
    lw 22 96 4,
    lw 23 100 4,
    lw 28 120 4,
    lw 29 124 4,
    lw 30 128 4,
    lw 8 132 4,
    lw 25 132 4,
    lw 5 28 4,
    lw 6 32 4,
    lw 7 36 4,
    lw 4 24 4,
    j 8,
    nop ]

end Mips

abbrev mips (big : Bool) : Port where
  Reg := Mips
  dec := inferInstance
  w := 32
  arch := { big := big, sp := 29 }
  GET := Mips.GET
  SET := Mips.SET
  link := some 31
  arg := some 4
  value := 2
  saved := [16, 17, 18, 19, 20, 21, 22, 23, 28, 30]
  size := 136
  fits := by decide

namespace Mips

/-- What `GET` stores, each in its place of `mc_regs`. -/
def slots (s : State Mips 32) : List (Slot 32) :=
  [4, 5, 6, 7, 16, 17, 18, 19, 20, 21, 22, 23, 28, 29, 30, 31].map fun n : Mips => ⟨8 + 4 * n, 4, s.reg n⟩

section
variable {big : Bool} {s s' : State Mips 32}

theorem spaced (s : State Mips 32) : Spaced 136 ((slots s).map Slot.range) := by
  have h : Spaced 136 ([4, 5, 6, 7, 16, 17, 18, 19, 20, 21, 22, 23, 28, 29, 30, 31].map fun n : Mips => (8 + 4 * n.val, 4)) := by
    decide
  exact h

/-- `SET` leaves the register of the value. -/
theorem set_value (big : Bool) (s' : State Mips 32) : (mips big).int ((mips big).set s') = (mips big).int s' := rfl

/-- What `GET` saved is loaded again. -/
theorem reloads (hr : (mips big).Resume s s') (n : Mips)
    (hn : n ∈ [4, 5, 6, 7, 16, 17, 18, 19, 20, 21, 22, 23, 28, 29, 30, 31] := by decide) :
    load big s'.mem ((mips big).ucp s' + BitVec.ofNat 32 (8 + 4 * n)) 4 = s.reg n :=
  hr.reloads (l := slots s) rfl (spaced s) (x := ⟨8 + 4 * n, 4, s.reg n⟩) (List.mem_map.mpr ⟨n, hn, rfl⟩) rfl

theorem restores (hr : (mips big).Resume s s') : Restores (mips big) s s' where
  get_pc := rfl
  get_sp := rfl
  get_saved := by
    simp only [List.forall_mem_cons]
    exact ⟨rfl, rfl, rfl, rfl, rfl, rfl, rfl, rfl, rfl, rfl, nofun⟩
  get_value := by
    have hxor : ((mips big).get s).reg 2 = s.reg 2 ^^^ s.reg 2 := rfl
    rw [Port.int, hxor, BitVec.xor_self]
    rfl
  set_pc := reloads hr 31
  set_sp := reloads hr 29
  set_saved := by
    simp only [List.forall_mem_cons]
    exact ⟨reloads hr 16, reloads hr 17, reloads hr 18, reloads hr 19, reloads hr 20, reloads hr 21, reloads hr 22, reloads hr 23,
      reloads hr 28, reloads hr 30, nofun⟩

end

end Mips

end Libtask.Context
