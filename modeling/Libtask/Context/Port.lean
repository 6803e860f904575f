/-
  Libtask.Context.Port — what the context switch of a machine has to do (asm.S, context.c: `swapcontext`).

  `GET` saves the registers in the area that it is given and returns 0. A later `SET` on that area
  returns a second time from the call of `GET`, and `swapcontext` must see that it did.
  `Resumes` says so for any registers at the two calls. `Restores` is all of it but the value of the
  second return (`Restores.resumes`). `Resume.reloads`: `SET` loads what `GET` saved.
-/

import Libtask.Lib.Machine

namespace Libtask.Context

open Libtask.Lib.Machine

structure Port where
  Reg : Type
  dec : DecidableEq Reg
  w : Nat
  arch : Arch Reg
  GET : List (Op Reg w)
  SET : List (Op Reg w)
  /-- The register of the return address, which otherwise is on top of the stack. -/
  link : Option Reg
  /-- The register of the argument, which otherwise is above the return address. -/
  arg : Option Reg
  value : Reg
  /-- The registers, besides the stack pointer, that a call leaves as they were. -/
  saved : List Reg
  /-- The bytes of the save area. -/
  size : Nat
  fits : size ≤ 2 ^ w

instance (p : Port) : DecidableEq p.Reg := p.dec

/-! ## Calls -/

section
variable (p : Port)

abbrev Port.St := State p.Reg p.w

/-- Where the call returns to. -/
def Port.ra (s : p.St) : BitVec p.w :=
  match p.link with
  | some r => s.reg r
  | none => load p.arch.big s.mem (s.reg p.arch.sp) (p.w / 8)

/-- The stack pointer behind the call. -/
def Port.sp (s : p.St) : BitVec p.w :=
  match p.link with
  | some _ => s.reg p.arch.sp
  | none => s.reg p.arch.sp + BitVec.ofNat p.w (p.w / 8)

def Port.ucp (s : p.St) : BitVec p.w :=
  match p.arg with
  | some r => s.reg r
  | none => load p.arch.big s.mem (s.reg p.arch.sp + BitVec.ofNat p.w (p.w / 8)) (p.w / 8)

def Port.get (s : p.St) : p.St := run p.arch p.GET s

def Port.set (s : p.St) : p.St := run p.arch p.SET s

/-- The `int` that the call returns. -/
def Port.int (s : p.St) : BitVec 32 := (s.reg p.value).setWidth 32

/-- A return address on the stack is not in the save area. -/
def Port.Framed (s : p.St) : Prop := p.link = none → Apart (p.ucp s) p.size (s.reg p.arch.sp) (p.w / 8)

/-- In `s'` `SET` is called on what `GET`, called in `s`, saved. -/
structure Port.Resume (s s' : p.St) : Prop where
  ucp : p.ucp s' = p.ucp s
  area : ∀ i < p.size, s'.mem (p.ucp s + BitVec.ofNat p.w i) = (p.get s).mem (p.ucp s + BitVec.ofNat p.w i)

end

/-! ## The switch -/

/-- What `swapcontext` does behind `getcontext`. -/
inductive Next where
  | setcontext
  | ret (v : Int)
  deriving DecidableEq, Repr

def swapcontext (getcontext : BitVec 32) : Next := if getcontext = 0 then .setcontext else .ret 0

/-- The call of `GET` in `s` returns 0, and that of `SET` in `s'` returns from the call of `GET` again, with another
    value, so that `swapcontext` switches at the first return and comes back at the second. -/
structure Resumes (p : Port) (s s' : p.St) : Prop where
  get_pc : (p.get s).pc = p.ra s
  get_sp : (p.get s).reg p.arch.sp = p.sp s
  get_saved : ∀ r ∈ p.saved, (p.get s).reg r = s.reg r
  get_value : p.int (p.get s) = 0
  set_pc : (p.set s').pc = p.ra s
  set_sp : (p.set s').reg p.arch.sp = p.sp s
  set_saved : ∀ r ∈ p.saved, (p.set s').reg r = s.reg r
  set_value : p.int (p.set s') ≠ 0
  switches : swapcontext (p.int (p.get s)) = .setcontext
  returns : swapcontext (p.int (p.set s')) = .ret 0

/-- The registers and the first return are right. -/
structure Restores (p : Port) (s s' : p.St) : Prop where
  get_pc : (p.get s).pc = p.ra s
  get_sp : (p.get s).reg p.arch.sp = p.sp s
  get_saved : ∀ r ∈ p.saved, (p.get s).reg r = s.reg r
  get_value : p.int (p.get s) = 0
  set_pc : (p.set s').pc = p.ra s
  set_sp : (p.set s').reg p.arch.sp = p.sp s
  set_saved : ∀ r ∈ p.saved, (p.set s').reg r = s.reg r

section
variable {p : Port} {s s' : p.St}

theorem Port.int_one (hw : 0 < p.w) (h : s.reg p.value = 1) : p.int s = 1 := by
  apply BitVec.eq_of_toNat_eq
  rw [Port.int, h, BitVec.toNat_setWidth]
  simp [Nat.one_mod_two_pow hw]

theorem swapcontext_setcontext {v : BitVec 32} : swapcontext v = .setcontext ↔ v = 0 := by
  unfold swapcontext
  split
  · rename_i h
    exact ⟨fun _ => h, fun _ => rfl⟩
  · rename_i h
    exact ⟨nofun, fun h' => absurd h' h⟩

theorem swapcontext_ret {v : BitVec 32} : swapcontext v = .ret 0 ↔ v ≠ 0 := by
  unfold swapcontext
  split
  · rename_i h
    exact ⟨nofun, fun h' => absurd h h'⟩
  · rename_i h
    exact ⟨fun _ => h, fun _ => rfl⟩

/-- What is left to see is the value of the second return. -/
theorem Restores.resumes (h : Restores p s s') : Resumes p s s' ↔ p.int (p.set s') ≠ 0 := by
  constructor
  · exact fun hr => hr.set_value
  · intro hv
    exact ⟨h.get_pc, h.get_sp, h.get_saved, h.get_value, h.set_pc, h.set_sp, h.set_saved, hv,
      swapcontext_setcontext.mpr h.get_value, swapcontext_ret.mpr hv⟩

/-- `SET` loads the words that `GET` stored. -/
theorem Port.Resume.reloads (h : p.Resume s s') {l : List (Slot p.w)} (hm : (p.get s).mem = saves p.arch.big (p.ucp s) s.mem l)
    (hl : Spaced p.size (l.map Slot.range)) {x : Slot p.w} (hx : x ∈ l) (hw : 8 * x.n = p.w) :
    load p.arch.big s'.mem (p.ucp s' + BitVec.ofNat p.w x.o) x.n = x.v := by
  have hin : x.o + x.n ≤ p.size := hl.1 _ (List.mem_map_of_mem hx)
  have hsaved : load p.arch.big (p.get s).mem (p.ucp s + BitVec.ofNat p.w x.o) x.n = x.v := by
    rw [hm]
    exact load_saves hl p.fits hx hw
  rw [h.ucp, ← hsaved]
  refine load_congr fun i hi => ?_
  rw [BitVec.add_assoc, ← BitVec.ofNat_add]
  exact h.area _ (by omega)

end

end Libtask.Context
