/-
  Libtask.Context.Intel — the context switch of the x86 and the amd64 (asm.S).

  The return address is on the stack: `SET` pushes it where it was and returns. So nothing of the
  save area may be there (`Port.Framed`).
-/

import Libtask.Context.Port

namespace Libtask.Context

open Libtask.Lib.Machine

/-! ## x86 -/

inductive X86 where
  | eax
  | ebx
  | ecx
  | edx
  | esi
  | edi
  | ebp
  | esp
  | fs
  | es
  | ds
  | ss
  deriving DecidableEq, Repr

namespace X86

def segment : Opnd X86 32 → Bool
  | .reg .fs => true
  | .reg .es => true
  | .reg .ds => true
  | .reg .ss => true
  | _ => false

/-- A segment register has 16 bits, also in memory. -/
def movl (src dst : Opnd X86 32) : Op X86 32 := .mov (if segment src || segment dst then 2 else 4) src dst

def leal (o : Nat) (r dst : X86) : Op X86 32 := .lea o r dst

def pushl (src : Opnd X86 32) : Op X86 32 := .push src

instance : Coe X86 (Opnd X86 32) := ⟨.reg⟩

open Opnd (imm mem)
open Op (ret)

def SET : List (Op X86 32) :=
  [ movl (mem 4 esp) eax,
    movl (mem 8 eax) fs,
    movl (mem 12 eax) es,
    movl (mem 16 eax) ds,
    movl (mem 76 eax) ss,
    movl (mem 20 eax) edi,
    movl (mem 24 eax) esi,
    movl (mem 28 eax) ebp,
    movl (mem 36 eax) ebx,
    movl (mem 40 eax) edx,
    movl (mem 44 eax) ecx,
    movl (mem 72 eax) esp,
    pushl (mem 60 eax),
    movl (mem 48 eax) eax,
    ret ]

def GET : List (Op X86 32) :=
  [ movl (mem 4 esp) eax,
    movl fs (mem 8 eax),
    movl es (mem 12 eax),
    movl ds (mem 16 eax),
    movl ss (mem 76 eax),
    movl edi (mem 20 eax),
    movl esi (mem 24 eax),
    movl ebp (mem 28 eax),
    movl ebx (mem 36 eax),
    movl edx (mem 40 eax),
    movl ecx (mem 44 eax),
    movl (imm 1) (mem 48 eax),
    movl (mem 0 esp) ecx,
    movl ecx (mem 60 eax),
    leal 4 esp ecx,
    movl ecx (mem 72 eax),
    movl (mem 44 eax) ecx,
    movl (imm 0) eax,
    ret ]

end X86

abbrev x86 : Port where
  Reg := X86
  dec := inferInstance
  w := 32
  arch := { big := false, sp := .esp }
  GET := X86.GET
  SET := X86.SET
  link := none
  arg := none
  value := .eax
  saved := [.ebx, .esi, .edi, .ebp]
  size := 80
  fits := by decide

namespace X86

/-- What `GET` stores, before it reads the return address and then. -/
def slots (s : State X86 32) : List (Slot 32) :=
  [ ⟨8, 2, s.reg .fs⟩, ⟨12, 2, s.reg .es⟩, ⟨16, 2, s.reg .ds⟩, ⟨76, 2, s.reg .ss⟩, ⟨20, 4, s.reg .edi⟩, ⟨24, 4, s.reg .esi⟩,
    ⟨28, 4, s.reg .ebp⟩, ⟨36, 4, s.reg .ebx⟩, ⟨40, 4, s.reg .edx⟩, ⟨44, 4, s.reg .ecx⟩, ⟨48, 4, 1⟩ ]

def slots' (s : State X86 32) (pc : BitVec 32) : List (Slot 32) := [⟨60, 4, pc⟩, ⟨72, 4, s.reg .esp + BitVec.ofNat 32 4⟩]

section
variable {s s' : State X86 32}

theorem spaced (s : State X86 32) (pc : BitVec 32) : Spaced 80 ((slots s ++ slots' s pc).map Slot.range) := by
  have h : Spaced 80 [(8, 2), (12, 2), (16, 2), (76, 2), (20, 4), (24, 4), (28, 4), (36, 4), (40, 4), (44, 4), (48, 4), (60, 4),
    (72, 4)] := by decide
  exact h

/-- `GET` saves its caller's registers, with the return address and the stack pointer behind the return. -/
theorem mem_get (hf : x86.Framed s) : (x86.get s).mem = saves false (x86.ucp s) s.mem (slots s ++ slots' s (x86.ra s)) := by
  have hstored : (x86.get s).mem = saves false (x86.ucp s) s.mem (slots s ++ slots' s
      (load false (saves false (x86.ucp s) s.mem (slots s)) (s.reg .esp + BitVec.ofNat 32 0) 4)) := rfl
  have hra : load false (saves false (x86.ucp s) s.mem (slots s)) (s.reg .esp + BitVec.ofNat 32 0) 4 = x86.ra s := by
    rw [BitVec.add_zero]
    refine load_saves_apart fun x hx => (hf rfl).part ?_
    exact (spaced s 0).1 _ (List.mem_map_of_mem (List.mem_append_left _ hx))
  rw [hstored, hra]

theorem get_pc (hf : x86.Framed s) : (x86.get s).pc = x86.ra s := by
  have hpc : (x86.get s).pc = load false (x86.get s).mem (s.reg .esp) 4 := rfl
  rw [hpc, mem_get hf]
  exact load_saves_outside (spaced s _) (hf rfl)

/-- What `GET` saved is loaded again. -/
theorem reloads (hf : x86.Framed s) (hr : x86.Resume s s') {x : Slot 32} (hx : x ∈ slots s ++ slots' s (x86.ra s)) (hn : 8 * x.n = 32) :
    load false s'.mem (x86.ucp s' + BitVec.ofNat 32 x.o) x.n = x.v :=
  hr.reloads (mem_get hf) (spaced s _) hx hn

/-- `SET` pushes the return address where it was. -/
theorem top (hf : x86.Framed s) (hr : x86.Resume s s') :
    load false s'.mem (x86.ucp s' + BitVec.ofNat 32 72) 4 - BitVec.ofNat 32 4 = s.reg .esp := by
  have hesp := reloads hf hr (x := ⟨72, 4, s.reg .esp + BitVec.ofNat 32 4⟩) (by simp [slots, slots']) rfl
  dsimp only at hesp
  rw [hesp, BitVec.add_sub_cancel]

/-- The memory behind the push. -/
def pushed (s' : State X86 32) : Mem 32 := store false s'.mem (load false s'.mem (x86.ucp s' + BitVec.ofNat 32 72) 4 - BitVec.ofNat 32 4)
  4 (load false s'.mem (x86.ucp s' + BitVec.ofNat 32 60) 4)

theorem set_value (hf : x86.Framed s) (hr : x86.Resume s s') : (x86.set s').reg .eax = 1 := by
  have hset : (x86.set s').reg .eax = load false (pushed s') (x86.ucp s' + BitVec.ofNat 32 48) 4 := rfl
  rw [hset, pushed, top hf hr, load_store_apart]
  · exact reloads hf hr (x := ⟨48, 4, 1⟩) (by simp [slots]) rfl
  · rw [hr.ucp]
    exact ((hf rfl).part (o := 48) (by decide)).symm

theorem restores (hf : x86.Framed s) (hr : x86.Resume s s') : Restores x86 s s' where
  get_pc := get_pc hf
  get_sp := rfl
  get_saved := by
    simp only [List.forall_mem_cons]
    exact ⟨rfl, rfl, rfl, rfl, nofun⟩
  get_value := rfl
  set_pc := by
    have hset : (x86.set s').pc = load false (pushed s')
        (load false s'.mem (x86.ucp s' + BitVec.ofNat 32 72) 4 - BitVec.ofNat 32 4) 4 := rfl
    rw [hset, pushed, load_store (w := 32) (n := 4) (by decide) rfl]
    exact reloads hf hr (x := ⟨60, 4, x86.ra s⟩) (by simp [slots, slots']) rfl
  set_sp := by
    have hset : (x86.set s').reg .esp = load false s'.mem (x86.ucp s' + BitVec.ofNat 32 72) 4 - BitVec.ofNat 32 4 +
        BitVec.ofNat 32 4 := rfl
    show (x86.set s').reg .esp = _
    rw [hset, top hf hr]
    rfl
  set_saved := by
    simp only [List.forall_mem_cons]
    refine ⟨?_, ?_, ?_, ?_, nofun⟩
    · exact reloads hf hr (x := ⟨36, 4, s.reg .ebx⟩) (by simp [slots]) rfl
    · exact reloads hf hr (x := ⟨24, 4, s.reg .esi⟩) (by simp [slots]) rfl
    · exact reloads hf hr (x := ⟨20, 4, s.reg .edi⟩) (by simp [slots]) rfl
    · exact reloads hf hr (x := ⟨28, 4, s.reg .ebp⟩) (by simp [slots]) rfl

end

end X86

/-! ## amd64 -/

inductive Amd64 where
  | rax
  | rbx
  | rcx
  | rdx
  | rsi
  | rdi
  | rbp
  | rsp
  | r8
  | r9
  | r10
  | r11
  | r12
  | r13
  | r14
  | r15
  deriving DecidableEq, Repr

namespace Amd64

def movq (src dst : Opnd Amd64 64) : Op Amd64 64 := .mov 8 src dst

def leaq (o : Nat) (r dst : Amd64) : Op Amd64 64 := .lea o r dst

def pushq (src : Opnd Amd64 64) : Op Amd64 64 := .push src

instance : Coe Amd64 (Opnd Amd64 64) := ⟨.reg⟩

open Opnd (imm mem)
open Op (ret)

def SET : List (Op Amd64 64) :=
  [ movq (mem 16 rdi) rsi,
    movq (mem 24 rdi) rdx,
    movq (mem 32 rdi) rcx,
    movq (mem 40 rdi) r8,
    movq (mem 48 rdi) r9,
    movq (mem 56 rdi) rax,
    movq (mem 64 rdi) rbx,
    movq (mem 72 rdi) rbp,
    movq (mem 80 rdi) r10,
    movq (mem 88 rdi) r11,
    movq (mem 96 rdi) r12,
    movq (mem 104 rdi) r13,
    movq (mem 112 rdi) r14,
    movq (mem 120 rdi) r15,
    movq (mem 184 rdi) rsp,
    pushq (mem 160 rdi),
    movq (mem 8 rdi) rdi,
    ret ]

def GET : List (Op Amd64 64) :=
  [ movq rdi (mem 8 rdi),
    movq rsi (mem 16 rdi),
    movq rdx (mem 24 rdi),
    movq rcx (mem 32 rdi),
    movq r8 (mem 40 rdi),
    movq r9 (mem 48 rdi),
    movq (imm 1) (mem 56 rdi),
    movq rbx (mem 64 rdi),
    movq rbp (mem 72 rdi),
    movq r10 (mem 80 rdi),
    movq r11 (mem 88 rdi),
    movq r12 (mem 96 rdi),
    movq r13 (mem 104 rdi),
    movq r14 (mem 112 rdi),
    movq r15 (mem 120 rdi),
    movq (mem 0 rsp) rcx,
    movq rcx (mem 160 rdi),
    leaq 8 rsp rcx,
    movq rcx (mem 184 rdi),
    movq (mem 32 rdi) rcx,
    movq (imm 0) rax,
    ret ]

end Amd64

abbrev amd64 : Port where
  Reg := Amd64
  dec := inferInstance
  w := 64
  arch := { big := false, sp := .rsp }
  GET := Amd64.GET
  SET := Amd64.SET
  link := none
  arg := some .rdi
  value := .rax
  saved := [.rbx, .rbp, .r12, .r13, .r14, .r15]
  size := 192
  fits := by decide

namespace Amd64

/-- What `GET` stores, before it reads the return address and then. -/
def slots (s : State Amd64 64) : List (Slot 64) :=
  [ ⟨8, 8, s.reg .rdi⟩, ⟨16, 8, s.reg .rsi⟩, ⟨24, 8, s.reg .rdx⟩, ⟨32, 8, s.reg .rcx⟩, ⟨40, 8, s.reg .r8⟩, ⟨48, 8, s.reg .r9⟩,
    ⟨56, 8, 1⟩, ⟨64, 8, s.reg .rbx⟩, ⟨72, 8, s.reg .rbp⟩, ⟨80, 8, s.reg .r10⟩, ⟨88, 8, s.reg .r11⟩, ⟨96, 8, s.reg .r12⟩,
    ⟨104, 8, s.reg .r13⟩, ⟨112, 8, s.reg .r14⟩, ⟨120, 8, s.reg .r15⟩ ]

def slots' (s : State Amd64 64) (pc : BitVec 64) : List (Slot 64) := [⟨160, 8, pc⟩, ⟨184, 8, s.reg .rsp + BitVec.ofNat 64 8⟩]

section
variable {s s' : State Amd64 64}

theorem spaced (s : State Amd64 64) (pc : BitVec 64) : Spaced 192 ((slots s ++ slots' s pc).map Slot.range) := by
  have h : Spaced 192 [(8, 8), (16, 8), (24, 8), (32, 8), (40, 8), (48, 8), (56, 8), (64, 8), (72, 8), (80, 8), (88, 8), (96, 8),
    (104, 8), (112, 8), (120, 8), (160, 8), (184, 8)] := by decide
  exact h

/-- `GET` saves its caller's registers, with the return address and the stack pointer behind the return. -/
theorem mem_get (hf : amd64.Framed s) :
    (amd64.get s).mem = saves false (amd64.ucp s) s.mem (slots s ++ slots' s (amd64.ra s)) := by
  have hstored : (amd64.get s).mem = saves false (amd64.ucp s) s.mem (slots s ++ slots' s
      (load false (saves false (amd64.ucp s) s.mem (slots s)) (s.reg .rsp + BitVec.ofNat 64 0) 8)) := rfl
  have hra : load false (saves false (amd64.ucp s) s.mem (slots s)) (s.reg .rsp + BitVec.ofNat 64 0) 8 = amd64.ra s := by
    rw [BitVec.add_zero]
    refine load_saves_apart fun x hx => (hf rfl).part ?_
    exact (spaced s 0).1 _ (List.mem_map_of_mem (List.mem_append_left _ hx))
  rw [hstored, hra]

theorem get_pc (hf : amd64.Framed s) : (amd64.get s).pc = amd64.ra s := by
  have hpc : (amd64.get s).pc = load false (amd64.get s).mem (s.reg .rsp) 8 := rfl
  rw [hpc, mem_get hf]
  exact load_saves_outside (spaced s _) (hf rfl)

/-- What `GET` saved is loaded again. -/
theorem reloads (hf : amd64.Framed s) (hr : amd64.Resume s s') {x : Slot 64} (hx : x ∈ slots s ++ slots' s (amd64.ra s))
    (hn : 8 * x.n = 64) : load false s'.mem (amd64.ucp s' + BitVec.ofNat 64 x.o) x.n = x.v :=
  hr.reloads (mem_get hf) (spaced s _) hx hn

theorem set_value (hf : amd64.Framed s) (hr : amd64.Resume s s') : (amd64.set s').reg .rax = 1 :=
  reloads hf hr (x := ⟨56, 8, 1⟩) (by simp [slots]) rfl

theorem restores (hf : amd64.Framed s) (hr : amd64.Resume s s') : Restores amd64 s s' where
  get_pc := get_pc hf
  get_sp := rfl
  get_saved := by
    simp only [List.forall_mem_cons]
    exact ⟨rfl, rfl, rfl, rfl, rfl, rfl, nofun⟩
  get_value := rfl
  set_pc := by
    have hset : (amd64.set s').pc = load false (store false s'.mem
        (load false s'.mem (amd64.ucp s' + BitVec.ofNat 64 184) 8 - BitVec.ofNat 64 8) 8
        (load false s'.mem (amd64.ucp s' + BitVec.ofNat 64 160) 8))
        (load false s'.mem (amd64.ucp s' + BitVec.ofNat 64 184) 8 - BitVec.ofNat 64 8) 8 := rfl
    rw [hset, load_store (w := 64) (n := 8) (by decide) rfl]
    exact reloads hf hr (x := ⟨160, 8, amd64.ra s⟩) (by simp [slots, slots']) rfl
  set_sp := by
    have hset : (amd64.set s').reg .rsp = load false s'.mem (amd64.ucp s' + BitVec.ofNat 64 184) 8 - BitVec.ofNat 64 8 +
        BitVec.ofNat 64 8 := rfl
    show (amd64.set s').reg .rsp = _
    rw [hset, BitVec.sub_add_cancel]
    exact reloads hf hr (x := ⟨184, 8, s.reg .rsp + BitVec.ofNat 64 8⟩) (by simp [slots, slots']) rfl
  set_saved := by
    simp only [List.forall_mem_cons]
    refine ⟨?_, ?_, ?_, ?_, ?_, ?_, nofun⟩
    · exact reloads hf hr (x := ⟨64, 8, s.reg .rbx⟩) (by simp [slots]) rfl
    · exact reloads hf hr (x := ⟨72, 8, s.reg .rbp⟩) (by simp [slots]) rfl
    · exact reloads hf hr (x := ⟨96, 8, s.reg .r12⟩) (by simp [slots]) rfl
    · exact reloads hf hr (x := ⟨104, 8, s.reg .r13⟩) (by simp [slots]) rfl
    · exact reloads hf hr (x := ⟨112, 8, s.reg .r14⟩) (by simp [slots]) rfl
    · exact reloads hf hr (x := ⟨120, 8, s.reg .r15⟩) (by simp [slots]) rfl

end

end Amd64

end Libtask.Context
