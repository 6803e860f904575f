/-
  Libtask.Context.Switch — the context switch on every machine (asm.S, context.c: `swapcontext`).

  `switch_iff`: whatever the registers hold when `GET` is called, and when `SET` is called later,
  `swapcontext` goes on behind `getcontext` with its registers, and returns, except on the MIPS if
  `$2` is 0 when `SET` is called. There `GET` left a 0, in the context that switches, so unless the
  compiler used `$2` in between `swapcontext` switches again (`switches_again`).
-/

import Libtask.Context.Intel
import Libtask.Context.Risc

namespace Libtask.Context

open Libtask.Lib.Machine

/-- The machines with a context switch of their own. The ARM and the MIPS run in either byte order. -/
inductive Cpu where
  | x86
  | amd64
  | PowerPC
  | ARM (big : Bool)
  | MIPS (big : Bool)
  deriving DecidableEq, Repr

def Cpu.port : Cpu → Port
  | .x86 => Context.x86
  | .amd64 => Context.amd64
  | .PowerPC => Context.power
  | .ARM big => Context.arm big
  | .MIPS big => Context.mips big

def Cpu.isMips : Cpu → Bool
  | .MIPS _ => true
  | _ => false

section
variable {c : Cpu} {s s' : c.port.St}

theorem Cpu.restores (hf : c.port.Framed s) (hr : c.port.Resume s s') : Restores c.port s s' := by
  cases c with
  | x86 => exact X86.restores hf hr
  | amd64 => exact Amd64.restores hf hr
  | PowerPC => exact Power.restores hr
  | ARM big => exact Arm.restores hr
  | MIPS big => exact Mips.restores hr

/-- On the MIPS the value is the caller's `$2`, on the others it is 1. -/
theorem Cpu.set_value (hf : c.port.Framed s) (hr : c.port.Resume s s') :
    c.port.int (c.port.set s') = if c.isMips then c.port.int s' else 1 := by
  cases c with
  | x86 => exact Port.int_one (Nat.succ_pos 31) (X86.set_value hf hr)
  | amd64 => exact Port.int_one (Nat.succ_pos 63) (Amd64.set_value hf hr)
  | PowerPC => exact Port.int_one (Nat.succ_pos 31) (Power.set_value hr)
  | ARM big => exact Port.int_one (Nat.succ_pos 31) (Arm.set_value hr)
  | MIPS big => exact Mips.set_value big s'

end

/-- The switch is right on every machine, but on the MIPS `$2` must not be 0 when `SET` is called. -/
theorem switch_iff (c : Cpu) {s s' : c.port.St} (hf : c.port.Framed s) (hr : c.port.Resume s s') :
    Resumes c.port s s' ↔ (c.isMips = true → c.port.int s' ≠ 0) := by
  rw [(Cpu.restores hf hr).resumes, Cpu.set_value hf hr]
  cases c.isMips with
  | true => simp
  | false => simp

/-- The area is at 4096, the stack at 8192. -/
def called : amd64.St := ⟨fun r => if r = .rdi then 4096 else if r = .rsp then 8192 else 0, fun _ => 0, 0⟩

theorem switch_iff_called : Resumes amd64 called (amd64.get called) := by
  have hf : amd64.Framed called := fun _ => by
    show Apart 4096#64 192 8192#64 8
    decide +kernel
  have hr : amd64.Resume called (amd64.get called) := ⟨rfl, fun _ _ => rfl⟩
  exact (switch_iff .amd64 hf hr).mpr nofun

/-- On the MIPS a context calls `SET` as `GET` left the registers, on what it saved. -/
theorem switches_again : ∃ s s' : (mips true).St, (mips true).Framed s ∧ (mips true).Resume s s' ∧
    (mips true).int ((mips true).set s') = 0 ∧ swapcontext ((mips true).int ((mips true).set s')) = .setcontext ∧
    ¬ Resumes (mips true) s s' := by
  obtain ⟨s, hs⟩ : ∃ s : (mips true).St, s = ⟨fun r => if r = 4 then 4096 else 0, fun _ => 0, 0⟩ := ⟨_, rfl⟩
  have hzero : (mips true).int ((mips true).set ((mips true).get s)) = 0 := by
    rw [hs]
    rfl
  refine ⟨s, (mips true).get s, nofun, ⟨rfl, fun _ _ => rfl⟩, hzero, swapcontext_setcontext.mpr hzero, fun h => ?_⟩
  exact h.set_value hzero

end Libtask.Context
