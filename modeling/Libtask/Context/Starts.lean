/-
  Libtask.Context.Starts — how a new context starts (context.c: `makecontext`; task.c: `taskalloc`, `taskstart`).

  `makecontext` fills in what `SET` loads: the function as the return address, a stack pointer in the
  given stack, and the arguments where the function looks for them (`Cpu.argument`), in registers
  or on the stack. So `SET` goes to its first instruction (`Begins`). The PowerPC's passes one
  argument only.

  `task_starts`: a new task begins in `taskstart`, which finds the task by its two arguments, on each
  machine, but on the amd64 only at an address below 2^48.
-/

import Libtask.Context.Switch
import Libtask.Sched.Start

namespace Libtask.Context

open Libtask.Lib.Machine

/-! ## makecontext -/

/-- What `makecontext` is called with. `mc` is the area of the registers in `ucp`. -/
structure Setup (w : Nat) where
  mc : BitVec w
  ss_sp : BitVec w
  ss_size : BitVec w
  func : BitVec w
  args : List (BitVec 32)

section
variable {w : Nat}

/-- `(T*)ss_sp+ss_size/sizeof(T)`, where a `T` has `k` bytes. -/
def Setup.tos (u : Setup w) (k : Nat) : BitVec w := u.ss_sp + BitVec.ofNat w k * (u.ss_size / BitVec.ofNat w k)

/-- `sp -= argc` for such pointers, and then `sp -= sp%16`. -/
def Setup.aligned (u : Setup w) (k : Nat) : BitVec w :=
  let sp := u.tos k - BitVec.ofNat w (k * u.args.length)
  sp - sp % BitVec.ofNat w 16

/-- The arguments, one behind the other from `o` on. -/
def words : (o : Nat) → List (BitVec 32) → List (Slot 32)
  | _, [] => []
  | o, a :: as => ⟨o, 4, a⟩ :: words (o + 4) as

/-- `memset(a, 0, n)` -/
def zeroed (m : Mem w) (a : BitVec w) (n : Nat) : Mem w := fun x => if (x - a).toNat < n then 0 else m x

end

def X86.makecontext (u : Setup 32) (m : Mem 32) : Mem 32 :=
  let sp := u.aligned 4
  let m := saves false sp m (words 0 u.args)
  let sp := sp - BitVec.ofNat 32 4
  let m := store false m sp 4 0
  saves false u.mc m [⟨60, 4, u.func⟩, ⟨72, 4, sp⟩]

/-- It crashes if there are not two arguments. -/
def Amd64.makecontext (u : Setup 64) (m : Mem 64) : Option (Mem 64) :=
  let m := zeroed m u.mc 800
  match u.args with
  | [a, b] =>
    let m := saves false u.mc m [⟨8, 8, a.signExtend 64⟩, ⟨16, 8, b.signExtend 64⟩]
    let sp := u.aligned 8
    let sp := sp - BitVec.ofNat 64 8
    let m := store false m sp 8 0
    some (saves false u.mc m [⟨160, 8, u.func⟩, ⟨184, 8, sp⟩])
  | _ => none

/-- It reads one argument. -/
def Power.makecontext (u : Setup 32) (m : Mem 32) : Option (Mem 32) :=
  match u.args with
  | [] => none
  | a :: _ =>
    let sp := u.tos 4 - BitVec.ofNat 32 (4 * 16)
    some (saves true u.mc m [⟨0, 4, u.func⟩, ⟨16, 4, sp⟩, ⟨24, 4, a⟩])

/-- Registers for the first four arguments, from `o` on, and those of the stack pointer and the return address. -/
def Setup.registers (u : Setup 32) (o sp ra : Nat) : List (Slot 32) :=
  words o (u.args.take 4) ++ [⟨sp, 4, u.tos 4⟩, ⟨ra, 4, u.func⟩]

def Arm.makecontext (big : Bool) (u : Setup 32) (m : Mem 32) : Mem 32 := saves big u.mc m (u.registers 0 52 56)

def Mips.makecontext (big : Bool) (u : Setup 32) (m : Mem 32) : Mem 32 := saves big u.mc m (u.registers 24 124 132)

def Cpu.makecontext : (c : Cpu) → Setup c.port.w → Mem c.port.w → Option (Mem c.port.w)
  | .x86, u, m => some (X86.makecontext u m)
  | .amd64, u, m => Amd64.makecontext u m
  | .PowerPC, u, m => Power.makecontext u m
  | .ARM big, u, m => some (Arm.makecontext big u m)
  | .MIPS big, u, m => some (Mips.makecontext big u m)

/-! ## How a function begins -/

def X86.argument (s : State X86 32) (i : Nat) : BitVec 32 := load false s.mem (s.reg .esp + BitVec.ofNat 32 (4 + 4 * i)) 4

def Amd64.argument (s : State Amd64 64) (i : Nat) : BitVec 32 :=
  ((([.rdi, .rsi, .rdx, .rcx, .r8, .r9] : List Amd64)[i]?).elim 0 s.reg).setWidth 32

def Power.argument (s : State Power 32) (i : Nat) : BitVec 32 := if h : 3 + i < 32 then s.reg (.r ⟨3 + i, h⟩) else 0

def Arm.argument (s : State Arm 32) (i : Nat) : BitVec 32 := if h : i < 15 then s.reg ⟨i, h⟩ else 0

def Mips.argument (s : State Mips 32) (i : Nat) : BitVec 32 := if h : 4 + i < 32 then s.reg ⟨4 + i, h⟩ else 0

/-- Where a function finds its `int` argument `i` when it begins. -/
def Cpu.argument : (c : Cpu) → c.port.St → Nat → BitVec 32
  | .x86 => X86.argument
  | .amd64 => Amd64.argument
  | .PowerPC => Power.argument
  | .ARM _ => Arm.argument
  | .MIPS _ => Mips.argument

/-- How many of the arguments `makecontext` passes. -/
def Cpu.passed : Cpu → Nat → Nat
  | .PowerPC, n => min n 1
  | .ARM _, n => min n 4
  | .MIPS _, n => min n 4
  | _, n => n

/-- The bytes of `mc` that the functions use. -/
def Cpu.extent : Cpu → Nat
  | .amd64 => 800
  | c => c.port.size

/-- The area is below the stack, which has room. -/
structure Setup.Fits (c : Cpu) (u : Setup c.port.w) : Prop where
  below : u.mc.toNat + c.extent ≤ u.ss_sp.toNat
  room : 4 * u.args.length + 64 ≤ u.ss_size.toNat
  high : u.ss_sp.toNat + u.ss_size.toNat < 2 ^ c.port.w

/-- The machine is at the first instruction of `u.func`. -/
structure Begins (c : Cpu) (u : Setup c.port.w) (s : c.port.St) : Prop where
  pc : s.pc = u.func
  low : u.ss_sp.toNat ≤ (s.reg c.port.arch.sp).toNat
  high : (s.reg c.port.arch.sp).toNat ≤ u.ss_sp.toNat + u.ss_size.toNat
  args : ∀ i < c.passed u.args.length, u.args[i]? = some (c.argument s i)
  /-- Below the arguments on the stack there is a return address, and they are aligned. -/
  frame : c.port.link = none → c.port.ra s = 0 ∧ ((s.reg c.port.arch.sp).toNat + c.port.w / 8) % 16 = 0

/-- `m'` has what `m` has in the `n` bytes at `a`. -/
def Agree {w : Nat} (m m' : Mem w) (a : BitVec w) (n : Nat) : Prop := ∀ i < n, m' (a + BitVec.ofNat w i) = m (a + BitVec.ofNat w i)

section
variable {w : Nat} {m m' : Mem w} {a b : BitVec w} {n k o : Nat} {big : Bool} {u : Setup w}

theorem Agree.part (h : Agree m m' a n) (ho : o + k ≤ n) :
    load big m' (a + BitVec.ofNat w o) k = load big m (a + BitVec.ofNat w o) k := by
  refine load_congr fun i hi => ?_
  rw [BitVec.add_assoc, ← BitVec.ofNat_add]
  exact h _ (by omega)

/-- What was stored in the block can be loaded. -/
theorem Agree.saved {l : List (Slot w)} (h : Agree (saves big a m l) m' a n) (hs : Spaced n (l.map Slot.range)) {x : Slot w}
    (hx : x ∈ l) (hw : 8 * x.n = w) (hn : n ≤ 2 ^ w := by decide) : load big m' (a + BitVec.ofNat w x.o) x.n = x.v := by
  rw [h.part (show x.o + x.n ≤ n from hs.1 _ (List.mem_map_of_mem hx))]
  exact load_saves hs hn hx hw

theorem Agree.within (h : Agree m m' a n) (hlow : a.toNat ≤ b.toNat) (hhigh : b.toNat + k ≤ a.toNat + n) :
    load big m' b k = load big m b k := by
  rw [at_offset hlow]
  exact h.part (by omega)

theorem mem_words {x : Slot 32} :
    ∀ {o : Nat} {as : List (BitVec 32)}, x ∈ words o as → o ≤ x.o ∧ x.o + x.n ≤ o + 4 * as.length := by
  intro o as
  induction as generalizing o with
  | nil => exact nofun
  | cons a as ih =>
    intro hx
    rw [List.length_cons]
    rcases List.mem_cons.mp hx with rfl | hx
    · exact ⟨Nat.le_refl _, by show o + 4 ≤ _; omega⟩
    · obtain ⟨h1, h2⟩ := ih hx
      exact ⟨by omega, by omega⟩

theorem words_mem : ∀ {as : List (BitVec 32)} {o i : Nat} {a : BitVec 32}, as[i]? = some a → ⟨o + 4 * i, 4, a⟩ ∈ words o as := by
  intro as
  induction as with
  | nil => exact nofun
  | cons b as ih =>
    intro o i a h
    cases i with
    | zero =>
      obtain rfl : b = a := Option.some.inj h
      exact List.mem_cons_self
    | succ i =>
      refine List.mem_cons_of_mem _ ?_
      have hmem := ih (o := o + 4) (i := i) (a := a) h
      rwa [show o + 4 + 4 * i = o + 4 * (i + 1) by omega] at hmem

theorem words_spaced (o : Nat) (as : List (BitVec 32)) : Spaced (o + 4 * as.length) ((words o as).map Slot.range) := by
  constructor
  · intro r hr
    obtain ⟨x, hx, rfl⟩ := List.mem_map.mp hr
    exact (mem_words hx).2
  · induction as generalizing o with
    | nil => exact .nil
    | cons a as ih =>
      refine List.pairwise_cons.mpr ⟨fun r hr => ?_, ih (o + 4)⟩
      obtain ⟨x, hx, rfl⟩ := List.mem_map.mp hr
      exact .inl (mem_words hx).1

theorem registers_spaced (u : Setup 32) {o sp ra size : Nat} (h₁ : o + 16 ≤ sp) (h₂ : sp + 4 ≤ ra) (hs : ra + 4 ≤ size) :
    Spaced size ((u.registers o sp ra).map Slot.range) := by
  obtain ⟨hin, hpair⟩ := words_spaced o (u.args.take 4)
  have hlen : (u.args.take 4).length ≤ 4 := List.length_take_le _ _
  have hmap : (u.registers o sp ra).map Slot.range = (words o (u.args.take 4)).map Slot.range ++ [(sp, 4), (ra, 4)] := List.map_append
  rw [hmap]
  constructor
  · intro r hr
    rcases List.mem_append.mp hr with hr | hr
    · have := hin r hr
      omega
    · simp only [List.mem_cons, List.not_mem_nil, or_false] at hr
      rcases hr with rfl | rfl <;> dsimp only <;> omega
  · refine List.pairwise_append.mpr ⟨hpair, ?_, fun r hr r' hr' => ?_⟩
    · simp [h₂]
    · have := hin r hr
      simp only [List.mem_cons, List.not_mem_nil, or_false] at hr'
      rcases hr' with rfl | rfl <;> exact .inl (by dsimp only; omega)

/-- The first four are passed. -/
theorem words_passed (o : Nat) {i : Nat} (as : List (BitVec 32)) (hi : i < min as.length 4) :
    i < 4 ∧ ∃ a, as[i]? = some a ∧ ⟨o + 4 * i, 4, a⟩ ∈ words o (as.take 4) := by
  have hlt : i < as.length := by omega
  refine ⟨by omega, as[i], List.getElem?_eq_getElem hlt, words_mem ?_⟩
  rw [List.getElem?_take, if_pos (by omega)]
  exact List.getElem?_eq_getElem hlt

/-! ### The stack pointer -/

theorem tos_toNat (hkw : k < 2 ^ w) (hhigh : u.ss_sp.toNat + u.ss_size.toNat < 2 ^ w) :
    (u.tos k).toNat = u.ss_sp.toNat + k * (u.ss_size.toNat / k) := by
  have hle : k * (u.ss_size.toNat / k) ≤ u.ss_size.toNat := Nat.mul_div_le _ _
  have hmul : (BitVec.ofNat w k * (u.ss_size / BitVec.ofNat w k)).toNat = k * (u.ss_size.toNat / k) := by
    rw [BitVec.toNat_mul, BitVec.toNat_udiv, BitVec.toNat_ofNat, Nat.mod_eq_of_lt hkw, Nat.mod_eq_of_lt (by omega)]
  rw [Setup.tos, BitVec.toNat_add, hmul, Nat.mod_eq_of_lt (by omega)]

/-- It is at most 15 bytes below where it was. -/
theorem aligned_toNat (hkw : k < 2 ^ w) (h16 : 16 < 2 ^ w) (hhigh : u.ss_sp.toNat + u.ss_size.toNat < 2 ^ w)
    (hroom : k * u.args.length ≤ k * (u.ss_size.toNat / k)) :
    (u.aligned k).toNat = (u.ss_sp.toNat + k * (u.ss_size.toNat / k) - k * u.args.length) / 16 * 16 := by
  have hle : k * (u.ss_size.toNat / k) ≤ u.ss_size.toNat := Nat.mul_div_le _ _
  have htos := tos_toNat hkw hhigh
  have hargs : (BitVec.ofNat w (k * u.args.length)).toNat = k * u.args.length := by
    rw [BitVec.toNat_ofNat, Nat.mod_eq_of_lt (by omega)]
  have hsub : (u.tos k - BitVec.ofNat w (k * u.args.length)).toNat =
      u.ss_sp.toNat + k * (u.ss_size.toNat / k) - k * u.args.length := by
    rw [BitVec.toNat_sub_of_le (by rw [BitVec.le_def, htos, hargs]; omega), htos, hargs]
  have hmod : ((u.tos k - BitVec.ofNat w (k * u.args.length)) % BitVec.ofNat w 16).toNat =
      (u.ss_sp.toNat + k * (u.ss_size.toNat / k) - k * u.args.length) % 16 := by
    rw [BitVec.toNat_umod, hsub, BitVec.toNat_ofNat, Nat.mod_eq_of_lt h16]
  rw [Setup.aligned, BitVec.toNat_sub_of_le (by rw [BitVec.le_def, hsub, hmod]; exact Nat.mod_le _ _), hsub, hmod]
  omega

end

/-! ### x86 -/

namespace X86
variable {u : Setup 32} {m : Mem 32} {s' : State X86 32}

theorem aligned_bounds (hf : u.Fits .x86) : u.ss_sp.toNat + 44 ≤ (u.aligned 4).toNat ∧
    (u.aligned 4).toNat + 4 * u.args.length ≤ u.ss_sp.toNat + u.ss_size.toNat ∧ (u.aligned 4).toNat % 16 = 0 := by
  have hhigh : u.ss_sp.toNat + u.ss_size.toNat < 2 ^ 32 := hf.high
  have hroom : 4 * u.args.length + 64 ≤ u.ss_size.toNat := hf.room
  rw [aligned_toNat (by decide) (by decide) hhigh (by omega)]
  omega

theorem sp_toNat (hf : u.Fits .x86) : (u.aligned 4 - BitVec.ofNat 32 4).toNat = (u.aligned 4).toNat - 4 := by
  have h := (aligned_bounds hf).1
  have h4 : (BitVec.ofNat 32 4).toNat = 4 := rfl
  rw [BitVec.toNat_sub_of_le (by rw [BitVec.le_def, h4]; omega), h4]

/-- What `makecontext` left is loaded, if nobody changed it. -/
theorem made (ha : Agree (makecontext u m) s'.mem u.mc 80) :
    load false s'.mem (u.mc + BitVec.ofNat 32 60) 4 = u.func ∧
      load false s'.mem (u.mc + BitVec.ofNat 32 72) 4 = u.aligned 4 - BitVec.ofNat 32 4 := by
  have hs : Spaced 80 (([⟨60, 4, u.func⟩, ⟨72, 4, u.aligned 4 - BitVec.ofNat 32 4⟩] : List (Slot 32)).map Slot.range) := by
    have h : Spaced 80 [(60, 4), (72, 4)] := by decide
    exact h
  rw [ha.part (by decide), ha.part (by decide), makecontext]
  exact ⟨load_saves hs (by decide) (x := ⟨60, 4, u.func⟩) (by simp) rfl,
    load_saves hs (by decide) (x := ⟨72, 4, u.aligned 4 - BitVec.ofNat 32 4⟩) (by simp) rfl⟩

/-- On the stack are a return address of 0 and the arguments. -/
theorem stacked (hf : u.Fits .x86) (ha : Agree (makecontext u m) s'.mem u.ss_sp u.ss_size.toNat) :
    load false s'.mem (u.aligned 4 - BitVec.ofNat 32 4) 4 = 0 ∧
      ∀ i a, u.args[i]? = some a → load false s'.mem (u.aligned 4 + BitVec.ofNat 32 (4 * i)) 4 = a := by
  obtain ⟨hlow, hhigh, -⟩ := aligned_bounds hf
  have hsp := sp_toNat hf
  have htop : u.ss_sp.toNat + u.ss_size.toNat < 2 ^ 32 := hf.high
  have hbelow : u.mc.toNat + 80 ≤ u.ss_sp.toNat := hf.below
  -- the area is below the stack
  have harea : ∀ {b : BitVec 32}, u.ss_sp.toNat ≤ b.toNat → b.toNat + 4 ≤ 2 ^ 32 → ∀ (m : Mem 32) (l : List (Slot 32)),
      (∀ x ∈ l, x.o + x.n ≤ 80) → load false (saves false u.mc m l) b 4 = load false m b 4 := by
    intro b h1 h2 m l hl
    refine load_saves_apart fun x hx => ?_
    exact (apart_below (a := u.mc) (n := 80) (by omega) h2).part (hl x hx)
  have hslots : ∀ x ∈ ([⟨60, 4, u.func⟩, ⟨72, 4, u.aligned 4 - BitVec.ofNat 32 4⟩] : List (Slot 32)), x.o + x.n ≤ 80 := by
    simp
  constructor
  · rw [ha.within (by omega) (by omega), makecontext, harea (by omega) (by omega) _ _ hslots]
    exact load_store (w := 32) (n := 4) (by decide) rfl
  · intro i a hi
    have hlt : i < u.args.length := (List.getElem?_eq_some_iff.mp hi).1
    have hat : (u.aligned 4 + BitVec.ofNat 32 (4 * i)).toNat = (u.aligned 4).toNat + 4 * i := toNat_at (by omega)
    rw [ha.within (by omega) (by omega), makecontext, harea (by omega) (by omega) _ _ hslots,
      load_store_apart (apart_below (by omega) (by omega))]
    have hmem := words_mem (o := 0) hi
    have hload : ∀ x ∈ words 0 u.args, 8 * x.n = 32 →
        load false (saves false (u.aligned 4) m (words 0 u.args)) (u.aligned 4 + BitVec.ofNat 32 x.o) x.n = x.v :=
      fun x hx hn => load_saves (words_spaced 0 u.args) (by omega) hx hn
    have hval := hload _ hmem rfl
    dsimp only at hval
    rwa [Nat.zero_add] at hval

/-- `SET` pushes the function's address below the stack pointer. -/
theorem push_eq (hu : x86.ucp s' = u.mc) (ha : Agree (makecontext u m) s'.mem u.mc 80) :
    (x86.set s').mem = store false s'.mem (u.aligned 4 - BitVec.ofNat 32 4 - BitVec.ofNat 32 4) 4 u.func := by
  obtain ⟨hpc, hesp⟩ := made ha
  have hmem : (x86.set s').mem = pushed s' := rfl
  rw [hmem, pushed, hu, hesp, hpc]

theorem slot_toNat (hf : u.Fits .x86) :
    (u.aligned 4 - BitVec.ofNat 32 4 - BitVec.ofNat 32 4).toNat = (u.aligned 4).toNat - 8 := by
  have h := (aligned_bounds hf).1
  have hsp := sp_toNat hf
  have h4 : (BitVec.ofNat 32 4).toNat = 4 := rfl
  rw [BitVec.toNat_sub_of_le (by rw [BitVec.le_def, h4]; omega), h4, hsp]
  omega

theorem begins (hf : u.Fits .x86) (hu : x86.ucp s' = u.mc) (ha : Agree (makecontext u m) s'.mem u.mc 80)
    (hst : Agree (makecontext u m) s'.mem u.ss_sp u.ss_size.toNat) : Begins .x86 u (x86.set s') := by
  obtain ⟨hlow, hhigh, hmod⟩ := aligned_bounds hf
  have hsp := sp_toNat hf
  have htop : u.ss_sp.toNat + u.ss_size.toNat < 2 ^ 32 := hf.high
  obtain ⟨hpc, hesp⟩ := made ha
  obtain ⟨hra, hargs⟩ := stacked hf hst
  have hset : (x86.set s').reg .esp = u.aligned 4 - BitVec.ofNat 32 4 := by
    have h : (x86.set s').reg .esp = load false s'.mem (x86.ucp s' + BitVec.ofNat 32 72) 4 - BitVec.ofNat 32 4 + BitVec.ofNat 32 4 := rfl
    rw [h, hu, hesp, BitVec.sub_add_cancel]
  have hpush := push_eq hu ha
  have hslot := slot_toNat hf
  have hkeep : ∀ {b : BitVec 32}, (u.aligned 4).toNat - 4 ≤ b.toNat → b.toNat + 4 ≤ 2 ^ 32 →
      load false (x86.set s').mem b 4 = load false s'.mem b 4 := by
    intro b h1 h2
    rw [hpush]
    exact load_store_apart (apart_below (by omega) h2)
  refine ⟨?_, ?_, ?_, fun i hi => ?_, fun _ => ⟨?_, ?_⟩⟩
  · have h : (x86.set s').pc = load false (x86.set s').mem
        (load false s'.mem (x86.ucp s' + BitVec.ofNat 32 72) 4 - BitVec.ofNat 32 4) 4 := rfl
    rw [h, hpush, hu, hesp]
    exact load_store (w := 32) (n := 4) (by decide) rfl
  · show u.ss_sp.toNat ≤ ((x86.set s').reg .esp).toNat
    rw [hset]
    omega
  · show ((x86.set s').reg .esp).toNat ≤ u.ss_sp.toNat + u.ss_size.toNat
    rw [hset]
    omega
  · have hi : i < u.args.length := hi
    have hsome : u.args[i]? = some u.args[i] := List.getElem?_eq_getElem hi
    have hload := hargs i _ hsome
    rw [hsome]
    refine congrArg some ?_
    show _ = load false (x86.set s').mem ((x86.set s').reg .esp + BitVec.ofNat 32 (4 + 4 * i)) 4
    rw [hset, BitVec.ofNat_add, ← BitVec.add_assoc, BitVec.sub_add_cancel, hkeep, hload]
    · rw [toNat_at] <;> omega
    · rw [toNat_at] <;> omega
  · show load false (x86.set s').mem ((x86.set s').reg .esp) 4 = 0
    rw [hset, hkeep (by omega) (by omega)]
    exact hra
  · show (((x86.set s').reg .esp).toNat + 4) % 16 = 0
    rw [hset]
    omega

end X86

/-! ### amd64 -/

namespace Amd64
variable {u : Setup 64} {m m' : Mem 64} {s' : State Amd64 64}

theorem aligned_bounds (hf : u.Fits .amd64) (hn : u.args.length = 2) : u.ss_sp.toNat + 16 ≤ (u.aligned 8).toNat ∧
    (u.aligned 8).toNat ≤ u.ss_sp.toNat + u.ss_size.toNat ∧ (u.aligned 8).toNat % 16 = 0 := by
  have hhigh : u.ss_sp.toNat + u.ss_size.toNat < 2 ^ 64 := hf.high
  have hroom : 4 * u.args.length + 64 ≤ u.ss_size.toNat := hf.room
  rw [aligned_toNat (by decide) (by decide) hhigh (by omega)]
  omega

theorem sp_toNat (hf : u.Fits .amd64) (hn : u.args.length = 2) :
    (u.aligned 8 - BitVec.ofNat 64 8).toNat = (u.aligned 8).toNat - 8 := by
  have h := (aligned_bounds hf hn).1
  have h8 : (BitVec.ofNat 64 8).toNat = 8 := rfl
  rw [BitVec.toNat_sub_of_le (by rw [BitVec.le_def, h8]; omega), h8]

/-- The words of the area that `makecontext` writes. -/
def fields (u : Setup 64) (a b : BitVec 32) : List (Slot 64) :=
  [⟨8, 8, a.signExtend 64⟩, ⟨16, 8, b.signExtend 64⟩, ⟨160, 8, u.func⟩, ⟨184, 8, u.aligned 8 - BitVec.ofNat 64 8⟩]

/-- It passes two arguments, and leaves in the area what `SET` loads, and a return address of 0 on the stack. -/
theorem made (hf : u.Fits .amd64) (hm : makecontext u m = some m') : ∃ a b, u.args = [a, b] ∧
    (∀ x ∈ fields u a b, load false m' (u.mc + BitVec.ofNat 64 x.o) 8 = x.v) ∧
    load false m' (u.aligned 8 - BitVec.ofNat 64 8) 8 = 0 := by
  obtain ⟨a, b, hargs⟩ : ∃ a b, u.args = [a, b] := by
    unfold makecontext at hm
    match hu : u.args with
    | [a, b] => exact ⟨a, b, rfl⟩
    | [] => rw [hu] at hm; cases hm
    | [a] => rw [hu] at hm; cases hm
    | a :: b :: c :: as => rw [hu] at hm; cases hm
  have hn : u.args.length = 2 := by rw [hargs]; rfl
  obtain ⟨hlow, hhigh, -⟩ := aligned_bounds hf hn
  have hsp := sp_toNat hf hn
  have htop : u.ss_sp.toNat + u.ss_size.toNat < 2 ^ 64 := hf.high
  have hbelow : u.mc.toNat + 800 ≤ u.ss_sp.toNat := hf.below
  have hapart : Apart u.mc 800 (u.aligned 8 - BitVec.ofNat 64 8) 8 := apart_below (by omega) (by omega)
  obtain rfl : saves false u.mc (store false (saves false u.mc (zeroed m u.mc 800) [⟨8, 8, a.signExtend 64⟩, ⟨16, 8, b.signExtend 64⟩])
      (u.aligned 8 - BitVec.ofNat 64 8) 8 0) [⟨160, 8, u.func⟩, ⟨184, 8, u.aligned 8 - BitVec.ofNat 64 8⟩] = m' := by
    unfold makecontext at hm
    rw [hargs] at hm
    exact Option.some.inj hm
  have hlate : Spaced 800 (([⟨160, 8, u.func⟩, ⟨184, 8, u.aligned 8 - BitVec.ofNat 64 8⟩] : List (Slot 64)).map Slot.range) := by
    have h : Spaced 800 [(160, 8), (184, 8)] := by decide
    exact h
  have hearly : Spaced 800 (([⟨8, 8, a.signExtend 64⟩, ⟨16, 8, b.signExtend 64⟩] : List (Slot 64)).map Slot.range) := by
    have h : Spaced 800 [(8, 8), (16, 8)] := by decide
    exact h
  refine ⟨a, b, hargs, ?_, ?_⟩
  · have hfirst : ∀ x ∈ ([⟨8, 8, a.signExtend 64⟩, ⟨16, 8, b.signExtend 64⟩] : List (Slot 64)), x.n = 8 → x.o + x.n ≤ 24 →
        load false (saves false u.mc (store false (saves false u.mc (zeroed m u.mc 800)
          [⟨8, 8, a.signExtend 64⟩, ⟨16, 8, b.signExtend 64⟩]) (u.aligned 8 - BitVec.ofNat 64 8) 8 0)
          [⟨160, 8, u.func⟩, ⟨184, 8, u.aligned 8 - BitVec.ofNat 64 8⟩]) (u.mc + BitVec.ofNat 64 x.o) x.n = x.v := by
      intro x hx hn hle
      rw [load_saves_apart, load_store_apart]
      · exact load_saves hearly (by decide) hx (by rw [hn])
      · exact (hapart.part (by omega)).symm
      · intro y hy
        refine apart_ranges ?_ (by omega) (.inr ?_)
        · have := hlate.1 _ (List.mem_map_of_mem hy)
          simp only [Slot.range] at this
          omega
        · rcases List.mem_cons.mp hy with rfl | hy
          · show x.o + x.n ≤ 160
            omega
          · obtain rfl := List.mem_singleton.mp hy
            show x.o + x.n ≤ 184
            omega
    simp only [fields, List.forall_mem_cons]
    exact ⟨hfirst ⟨8, 8, a.signExtend 64⟩ (by simp) rfl (show 8 + 8 ≤ 24 by decide),
      hfirst ⟨16, 8, b.signExtend 64⟩ (by simp) rfl (show 16 + 8 ≤ 24 by decide),
      load_saves hlate (by decide) (x := ⟨160, 8, u.func⟩) (by simp) rfl,
      load_saves hlate (by decide) (x := ⟨184, 8, u.aligned 8 - BitVec.ofNat 64 8⟩) (by simp) rfl, nofun⟩
  · rw [load_saves_outside hlate hapart]
    exact load_store (w := 64) (n := 8) (by decide) rfl

/-- `SET` pushes the function's address below the stack pointer. -/
theorem push_eq (hf : u.Fits .amd64) (hm : makecontext u m = some m') (hu : amd64.ucp s' = u.mc) (ha : Agree m' s'.mem u.mc 800) :
    (amd64.set s').mem = store false s'.mem (u.aligned 8 - BitVec.ofNat 64 8 - BitVec.ofNat 64 8) 8 u.func := by
  obtain ⟨a, b, -, hfields, -⟩ := made hf hm
  have hload : ∀ x ∈ fields u a b, x.o + 8 ≤ 800 → load false s'.mem (amd64.ucp s' + BitVec.ofNat 64 x.o) 8 = x.v := by
    intro x hx hle
    rw [hu, ha.part hle]
    exact hfields x hx
  have hrsp := hload ⟨184, 8, u.aligned 8 - BitVec.ofNat 64 8⟩ (by simp [fields]) (show 184 + 8 ≤ 800 by decide)
  have hrip := hload ⟨160, 8, u.func⟩ (by simp [fields]) (show 160 + 8 ≤ 800 by decide)
  have h : (amd64.set s').mem = store false s'.mem (load false s'.mem (amd64.ucp s' + BitVec.ofNat 64 184) 8 - BitVec.ofNat 64 8) 8
      (load false s'.mem (amd64.ucp s' + BitVec.ofNat 64 160) 8) := rfl
  rw [h, hrsp, hrip]

theorem slot_toNat (hf : u.Fits .amd64) (hn : u.args.length = 2) :
    (u.aligned 8 - BitVec.ofNat 64 8 - BitVec.ofNat 64 8).toNat = (u.aligned 8).toNat - 16 := by
  have h := (aligned_bounds hf hn).1
  have hsp := sp_toNat hf hn
  have h8 : (BitVec.ofNat 64 8).toNat = 8 := rfl
  rw [BitVec.toNat_sub_of_le (by rw [BitVec.le_def, h8]; omega), h8, hsp]
  omega

theorem argument_signExtend (a : BitVec 32) : (a.signExtend 64).setWidth 32 = a := by
  apply BitVec.eq_of_getLsbD_eq
  intro i hi
  rw [BitVec.getLsbD_setWidth, BitVec.getLsbD_signExtend]
  simp [hi, show i < 64 by omega]

theorem begins (hf : u.Fits .amd64) (hm : makecontext u m = some m') (hu : amd64.ucp s' = u.mc) (ha : Agree m' s'.mem u.mc 800)
    (hst : Agree m' s'.mem u.ss_sp u.ss_size.toNat) : Begins .amd64 u (amd64.set s') := by
  obtain ⟨a, b, hargs, hfields, hzero⟩ := made hf hm
  have hn : u.args.length = 2 := by rw [hargs]; rfl
  obtain ⟨hlow, hhigh, hmod⟩ := aligned_bounds hf hn
  have hsp := sp_toNat hf hn
  have htop : u.ss_sp.toNat + u.ss_size.toNat < 2 ^ 64 := hf.high
  have hbelow : u.mc.toNat + 800 ≤ u.ss_sp.toNat := hf.below
  have hload : ∀ x ∈ fields u a b, x.o + 8 ≤ 800 → load false s'.mem (amd64.ucp s' + BitVec.ofNat 64 x.o) 8 = x.v := by
    intro x hx hle
    rw [hu, ha.part hle]
    exact hfields x hx
  have hrsp := hload ⟨184, 8, u.aligned 8 - BitVec.ofNat 64 8⟩ (by simp [fields]) (show 184 + 8 ≤ 800 by decide)
  have hrdi := hload ⟨8, 8, a.signExtend 64⟩ (by simp [fields]) (show 8 + 8 ≤ 800 by decide)
  have hrsi := hload ⟨16, 8, b.signExtend 64⟩ (by simp [fields]) (show 16 + 8 ≤ 800 by decide)
  dsimp only at hrsp hrdi hrsi
  have hset : (amd64.set s').reg .rsp = u.aligned 8 - BitVec.ofNat 64 8 := by
    have h : (amd64.set s').reg .rsp = load false s'.mem (amd64.ucp s' + BitVec.ofNat 64 184) 8 - BitVec.ofNat 64 8 +
        BitVec.ofNat 64 8 := rfl
    rw [h, hrsp, BitVec.sub_add_cancel]
  have hpush := push_eq hf hm hu ha
  -- below the stack pointer, and above the area
  have hslot := slot_toNat hf hn
  have hapart : Apart u.mc 800 (u.aligned 8 - BitVec.ofNat 64 8 - BitVec.ofNat 64 8) 8 := apart_below (by omega) (by omega)
  refine ⟨?_, ?_, ?_, fun i hi => ?_, fun _ => ⟨?_, ?_⟩⟩
  · have h : (amd64.set s').pc = load false (amd64.set s').mem
        (load false s'.mem (amd64.ucp s' + BitVec.ofNat 64 184) 8 - BitVec.ofNat 64 8) 8 := rfl
    rw [h, hpush, hrsp]
    exact load_store (w := 64) (n := 8) (by decide) rfl
  · show u.ss_sp.toNat ≤ ((amd64.set s').reg .rsp).toNat
    rw [hset]
    omega
  · show ((amd64.set s').reg .rsp).toNat ≤ u.ss_sp.toNat + u.ss_size.toNat
    rw [hset]
    omega
  · have hi : i < u.args.length := hi
    rw [hargs] at hi ⊢
    have hi : i < 2 := hi
    have hreg : (amd64.set s').reg .rdi = a.signExtend 64 := by
      have h : (amd64.set s').reg .rdi = load false (amd64.set s').mem (amd64.ucp s' + BitVec.ofNat 64 8) 8 := rfl
      rw [h, hpush, load_store_apart, hrdi]
      rw [hu]
      exact (hapart.part (by decide)).symm
    match i, hi with
    | 0, _ =>
      show some a = some (((amd64.set s').reg .rdi).setWidth 32)
      rw [hreg, argument_signExtend]
    | 1, _ =>
      show some b = some (((amd64.set s').reg .rsi).setWidth 32)
      have h : (amd64.set s').reg .rsi = load false s'.mem (amd64.ucp s' + BitVec.ofNat 64 16) 8 := rfl
      rw [h, hrsi, argument_signExtend]
  · show load false (amd64.set s').mem ((amd64.set s').reg .rsp) 8 = 0
    have hnear : Apart (u.aligned 8 - BitVec.ofNat 64 8 - BitVec.ofNat 64 8) 8 (u.aligned 8 - BitVec.ofNat 64 8) 8 :=
      apart_below (by omega) (by omega)
    have hold : load false s'.mem (u.aligned 8 - BitVec.ofNat 64 8) 8 = load false m' (u.aligned 8 - BitVec.ofNat 64 8) 8 :=
      hst.within (by omega) (by omega)
    rw [hset, hpush, load_store_apart hnear, hold]
    exact hzero
  · show (((amd64.set s').reg .rsp).toNat + 8) % 16 = 0
    rw [hset]
    omega

end Amd64

/-! ### PowerPC, ARM and MIPS -/

/-- The stack pointer is at the top of the stack, or `k` bytes below. -/
theorem top_bounds {u : Setup 32} {k : Nat} (hhigh : u.ss_sp.toNat + u.ss_size.toNat < 2 ^ 32) (hk : k ≤ 64)
    (hroom : k + 4 ≤ u.ss_size.toNat) : u.ss_sp.toNat ≤ (u.tos 4 - BitVec.ofNat 32 k).toNat ∧
      (u.tos 4 - BitVec.ofNat 32 k).toNat ≤ u.ss_sp.toNat + u.ss_size.toNat := by
  have htos := tos_toNat (u := u) (k := 4) (by decide) hhigh
  have hkn : (BitVec.ofNat 32 k).toNat = k := by rw [BitVec.toNat_ofNat, Nat.mod_eq_of_lt (by omega)]
  rw [BitVec.toNat_sub_of_le (by rw [BitVec.le_def, htos, hkn]; omega), htos, hkn]
  omega

namespace Power
variable {u : Setup 32} {m m' : Mem 32} {s' : State Power 32}

theorem begins (hf : u.Fits .PowerPC) (hm : makecontext u m = some m') (hu : power.ucp s' = u.mc)
    (ha : Agree m' s'.mem u.mc 104) : Begins .PowerPC u (power.set s') := by
  obtain ⟨a, as, hargs⟩ : ∃ a as, u.args = a :: as := by
    unfold makecontext at hm
    match hu : u.args with
    | a :: as => exact ⟨a, as, rfl⟩
    | [] => rw [hu] at hm; cases hm
  obtain ⟨sp, hsp⟩ : ∃ sp, sp = u.tos 4 - BitVec.ofNat 32 (4 * 16) := ⟨_, rfl⟩
  obtain rfl : saves true u.mc m [⟨0, 4, u.func⟩, ⟨16, 4, sp⟩, ⟨24, 4, a⟩] = m' := by
    unfold makecontext at hm
    rw [hargs] at hm
    rw [hsp]
    exact Option.some.inj hm
  have hs : Spaced 104 (([⟨0, 4, u.func⟩, ⟨16, 4, sp⟩, ⟨24, 4, a⟩] : List (Slot 32)).map Slot.range) := by
    have h : Spaced 104 [(0, 4), (16, 4), (24, 4)] := by decide
    exact h
  have hload : ∀ x ∈ ([⟨0, 4, u.func⟩, ⟨16, 4, sp⟩, ⟨24, 4, a⟩] : List (Slot 32)), 8 * x.n = 32 →
      load true s'.mem (power.ucp s' + BitVec.ofNat 32 x.o) x.n = x.v := by
    intro x hx hn
    rw [hu]
    exact ha.saved hs hx hn
  have htop : u.ss_sp.toNat + u.ss_size.toNat < 2 ^ 32 := hf.high
  have hroom : 4 * u.args.length + 64 ≤ u.ss_size.toNat := hf.room
  have hlen : u.args.length = as.length + 1 := by rw [hargs]; rfl
  have hb := top_bounds (k := 4 * 16) htop (by decide) (by omega)
  have hset : (power.set s').reg (.r 1) = u.tos 4 - BitVec.ofNat 32 (4 * 16) :=
    hsp ▸ hload ⟨16, 4, sp⟩ (by simp) rfl
  refine ⟨hload ⟨0, 4, u.func⟩ (by simp) rfl, ?_, ?_, fun i hi => ?_, nofun⟩
  · show u.ss_sp.toNat ≤ ((power.set s').reg (.r 1)).toNat
    rw [hset]
    exact hb.1
  · show ((power.set s').reg (.r 1)).toNat ≤ u.ss_sp.toNat + u.ss_size.toNat
    rw [hset]
    exact hb.2
  · have hi : i < min u.args.length 1 := hi
    obtain rfl : i = 0 := by omega
    have hr3 : (power.set s').reg (.r 3) = a := hload ⟨24, 4, a⟩ (by simp) rfl
    rw [hargs]
    exact congrArg some hr3.symm

end Power

namespace Arm
variable {big : Bool} {u : Setup 32} {m : Mem 32} {s' : State Arm 32}

theorem begins (hf : u.Fits (.ARM big)) (hu : (arm big).ucp s' = u.mc) (ha : Agree (makecontext big u m) s'.mem u.mc 60) :
    Begins (.ARM big) u ((arm big).set s') := by
  have hs : Spaced 60 ((u.registers 0 52 56).map Slot.range) := registers_spaced u (by decide) (by decide) (by decide)
  have hload : ∀ {x : Slot 32}, x ∈ u.registers 0 52 56 → 8 * x.n = 32 →
      load big s'.mem ((arm big).ucp s' + BitVec.ofNat 32 x.o) x.n = x.v := by
    intro x hx hn
    rw [hu]
    exact ha.saved hs hx hn
  have hset : ∀ i : Fin 15, ((arm big).set s').reg i = load big s'.mem ((arm big).ucp s' + BitVec.ofNat 32 (4 * i)) 4 := by
    intro i
    fin_cases i <;> rfl
  have htop : u.ss_sp.toNat + u.ss_size.toNat < 2 ^ 32 := hf.high
  have hroom : 4 * u.args.length + 64 ≤ u.ss_size.toNat := hf.room
  have hb := top_bounds (k := 0) htop (by decide) (by omega)
  have hsp : ((arm big).set s').reg 13 = u.tos 4 - BitVec.ofNat 32 0 := by
    rw [BitVec.sub_zero, hset]
    exact hload (x := ⟨52, 4, u.tos 4⟩) (by simp [Setup.registers]) rfl
  refine ⟨(hset 14).trans (hload (x := ⟨56, 4, u.func⟩) (by simp [Setup.registers]) rfl), ?_, ?_, fun i hi => ?_, nofun⟩
  · show u.ss_sp.toNat ≤ (((arm big).set s').reg 13).toNat
    rw [hsp]
    exact hb.1
  · show (((arm big).set s').reg 13).toNat ≤ u.ss_sp.toNat + u.ss_size.toNat
    rw [hsp]
    exact hb.2
  · obtain ⟨h4, a, hget, hmem⟩ := words_passed 0 u.args hi
    have harg : argument ((arm big).set s') i = a := by
      rw [argument, dif_pos (by omega), hset]
      have hval := hload (List.mem_append_left _ hmem) rfl
      dsimp only at hval
      rwa [Nat.zero_add] at hval
    rw [hget]
    exact congrArg some harg.symm

end Arm

namespace Mips
variable {big : Bool} {u : Setup 32} {m : Mem 32} {s' : State Mips 32}

theorem begins (hf : u.Fits (.MIPS big)) (hu : (mips big).ucp s' = u.mc) (ha : Agree (makecontext big u m) s'.mem u.mc 136) :
    Begins (.MIPS big) u ((mips big).set s') := by
  have hs : Spaced 136 ((u.registers 24 124 132).map Slot.range) := registers_spaced u (by decide) (by decide) (by decide)
  have hload : ∀ {x : Slot 32}, x ∈ u.registers 24 124 132 → 8 * x.n = 32 →
      load big s'.mem ((mips big).ucp s' + BitVec.ofNat 32 x.o) x.n = x.v := by
    intro x hx hn
    rw [hu]
    exact ha.saved hs hx hn
  have htop : u.ss_sp.toNat + u.ss_size.toNat < 2 ^ 32 := hf.high
  have hroom : 4 * u.args.length + 64 ≤ u.ss_size.toNat := hf.room
  have hb := top_bounds (k := 0) htop (by decide) (by omega)
  have hsp : ((mips big).set s').reg 29 = u.tos 4 - BitVec.ofNat 32 0 := by
    rw [BitVec.sub_zero]
    exact hload (x := ⟨124, 4, u.tos 4⟩) (by simp [Setup.registers]) rfl
  refine ⟨hload (x := ⟨132, 4, u.func⟩) (by simp [Setup.registers]) rfl, ?_, ?_, fun i hi => ?_, nofun⟩
  · show u.ss_sp.toNat ≤ (((mips big).set s').reg 29).toNat
    rw [hsp]
    exact hb.1
  · show (((mips big).set s').reg 29).toNat ≤ u.ss_sp.toNat + u.ss_size.toNat
    rw [hsp]
    exact hb.2
  · obtain ⟨h4, a, hget, hmem⟩ := words_passed 24 u.args hi
    have harg : argument ((mips big).set s') i = a := by
      rw [argument, dif_pos (by omega)]
      have hval := hload (List.mem_append_left _ hmem) rfl
      dsimp only at hval
      rw [← hval]
      match i, h4 with
      | 0, _ => rfl
      | 1, _ => rfl
      | 2, _ => rfl
      | 3, _ => rfl
    rw [hget]
    exact congrArg some harg.symm

end Mips

/-! ### Each machine -/

section
variable {c : Cpu} {u : Setup c.port.w} {m m' : Mem c.port.w} {s' : c.port.St}

/-- `SET` on what `makecontext` left begins the function. -/
theorem Cpu.begins (hf : u.Fits c) (hm : c.makecontext u m = some m') (hu : c.port.ucp s' = u.mc)
    (ha : Agree m' s'.mem u.mc c.extent) (hst : Agree m' s'.mem u.ss_sp u.ss_size.toNat) : Begins c u (c.port.set s') := by
  cases c with
  | x86 =>
    obtain rfl := Option.some.inj hm
    exact X86.begins hf hu ha hst
  | amd64 => exact Amd64.begins hf hm hu ha hst
  | PowerPC => exact Power.begins hf hm hu ha
  | ARM big =>
    obtain rfl := Option.some.inj hm
    exact Arm.begins hf hu ha
  | MIPS big =>
    obtain rfl := Option.some.inj hm
    exact Mips.begins hf hu ha

theorem Cpu.passed_two (c : Cpu) : 0 < c.passed 2 ∧ (c = .amd64 → 1 < c.passed 2) := by
  cases c with
  | amd64 => exact ⟨Nat.zero_lt_two, fun _ => Nat.one_lt_two⟩
  | x86 => exact ⟨Nat.zero_lt_two, nofun⟩
  | PowerPC => exact ⟨Nat.zero_lt_one, nofun⟩
  | ARM big => exact ⟨Nat.zero_lt_two, nofun⟩
  | MIPS big => exact ⟨Nat.zero_lt_two, nofun⟩

theorem Cpu.makecontext_two (hn : u.args.length = 2) (m : Mem c.port.w) : ∃ m', c.makecontext u m = some m' := by
  obtain ⟨a, b, hargs⟩ := List.length_eq_two.mp hn
  cases c with
  | x86 => exact ⟨_, rfl⟩
  | amd64 =>
    show ∃ m', Amd64.makecontext u m = some m'
    unfold Amd64.makecontext
    rw [hargs]
    exact ⟨_, rfl⟩
  | PowerPC =>
    show ∃ m', Power.makecontext u m = some m'
    unfold Power.makecontext
    rw [hargs]
    exact ⟨_, rfl⟩
  | ARM big => exact ⟨_, rfl⟩
  | MIPS big => exact ⟨_, rfl⟩

end

/-! ## taskalloc -/

section
variable {w : Nat}

/-- `y` and `x`, for the task at `t`, where an `unsigned long` has `w` bits. -/
def split (t : BitVec w) : BitVec 32 × BitVec 32 :=
  let z := t
  let y := z.setWidth 32
  let z := z >>> 16
  let x := (z >>> 16).setWidth 32
  (y, x)

/-- The task that `taskstart(y, x)` starts. -/
def joined (w : Nat) (y x : BitVec 32) : BitVec w :=
  let z := (x <<< 16).setWidth w
  let z := z <<< 16
  let z := z ||| y.setWidth w
  z

/-- The task at `t` has `sizeof` bytes, with the registers' area at `mc`, and then `stack` bytes for its stack. -/
def taskalloc (taskstart t : BitVec w) (mc sizeof : Nat) (stack : BitVec 32) : Setup w where
  mc := t + BitVec.ofNat w mc
  ss_sp := t + BitVec.ofNat w sizeof + 8
  ss_size := stack.setWidth w - 64
  func := taskstart
  args := [(split t).1, (split t).2]

/-- With 32 bits the second argument is shifted out. -/
theorem joined_short (y x : BitVec 32) : joined 32 y x = y := by
  apply BitVec.eq_of_getLsbD_eq
  intro i hi
  simp only [joined, BitVec.getLsbD_or, BitVec.getLsbD_shiftLeft, BitVec.getLsbD_setWidth]
  by_cases h : i < 16
  · simp [h, hi]
  · have h' : i - 16 < 16 := by omega
    simp [h, h', hi]

theorem joined_split (c : Cpu) (t : BitVec c.port.w) (x : BitVec 32) (hx : c = .amd64 → x = (split t).2) :
    joined c.port.w (split t).1 x = t ↔ (c = .amd64 → t.toNat < 2 ^ 48) := by
  have hshort : ∀ t : BitVec 32, joined 32 (split t).1 x = t := fun t => by
    rw [joined_short, split, BitVec.setWidth_eq]
  cases c with
  | amd64 =>
    rw [hx rfl]
    exact (Sched.Start.started_iff t).trans ⟨fun h _ => h, fun h => h rfl⟩
  | x86 => exact iff_of_true (hshort t) nofun
  | PowerPC => exact iff_of_true (hshort t) nofun
  | ARM big => exact iff_of_true (hshort t) nofun
  | MIPS big => exact iff_of_true (hshort t) nofun

theorem taskalloc_stack (taskstart : BitVec w) {t : BitVec w} (mc : Nat) {sizeof : Nat} {stack : BitVec 32}
    (hstack : 136 ≤ stack.toNat) (hend : t.toNat + sizeof + stack.toNat < 2 ^ w) :
    (taskalloc taskstart t mc sizeof stack).ss_sp.toNat = t.toNat + sizeof + 8 ∧
    (taskalloc taskstart t mc sizeof stack).ss_size.toNat = stack.toNat - 64 := by
  have h8 : (8 : BitVec w) = BitVec.ofNat w 8 := rfl
  have h64 : (64 : BitVec w).toNat = 64 := by
    show (BitVec.ofNat w 64).toNat = 64
    rw [BitVec.toNat_ofNat, Nat.mod_eq_of_lt (by omega)]
  have hs : (stack.setWidth w).toNat = stack.toNat := by rw [BitVec.toNat_setWidth, Nat.mod_eq_of_lt (by omega)]
  constructor
  · show (t + BitVec.ofNat w sizeof + 8).toNat = _
    have hstk : (t + BitVec.ofNat w sizeof).toNat = t.toNat + sizeof := toNat_at (by omega)
    rw [h8, toNat_at (by omega), hstk]
  · show (stack.setWidth w - 64).toNat = _
    rw [BitVec.toNat_sub_of_le (by rw [BitVec.le_def, hs, h64]; omega), hs, h64]

end

/-- A task that was allocated, of whose registers' area and stack nobody changed anything: `SET`
    begins `taskstart`, on the stack of the task, with arguments that name the task, unless it is on
    the amd64 at 2^48 or above. -/
theorem task_starts (c : Cpu) {taskstart t : BitVec c.port.w} {mc sizeof : Nat} {stack : BitVec 32} (hmc : mc + c.extent ≤ sizeof)
    (hstack : 136 ≤ stack.toNat) (hend : t.toNat + sizeof + stack.toNat < 2 ^ c.port.w) (m : Mem c.port.w) :
    ∃ m', c.makecontext (taskalloc taskstart t mc sizeof stack) m = some m' ∧ ∀ s' : c.port.St,
      c.port.ucp s' = t + BitVec.ofNat c.port.w mc → Agree m' s'.mem (t + BitVec.ofNat c.port.w mc) c.extent →
      Agree m' s'.mem (t + BitVec.ofNat c.port.w sizeof + 8) (stack.toNat - 64) →
      (c.port.set s').pc = taskstart ∧ t.toNat + sizeof + 8 ≤ ((c.port.set s').reg c.port.arch.sp).toNat ∧
      ((c.port.set s').reg c.port.arch.sp).toNat + 56 ≤ t.toNat + sizeof + stack.toNat ∧
      (joined c.port.w (c.argument (c.port.set s') 0) (c.argument (c.port.set s') 1) = t ↔ (c = .amd64 → t.toNat < 2 ^ 48)) := by
  obtain ⟨hsp, hsize⟩ := taskalloc_stack taskstart mc hstack hend
  have hf : (taskalloc taskstart t mc sizeof stack).Fits c := by
    refine ⟨?_, ?_, ?_⟩
    · rw [hsp]
      show (t + BitVec.ofNat _ mc).toNat + _ ≤ _
      rw [toNat_at] <;> omega
    · rw [hsize]
      show 4 * 2 + 64 ≤ _
      omega
    · rw [hsp, hsize]
      omega
  obtain ⟨m', hm⟩ := Cpu.makecontext_two (u := taskalloc taskstart t mc sizeof stack) rfl m
  refine ⟨m', hm, fun s' hu ha hst => ?_⟩
  obtain ⟨hpc, hlow, hhigh, hargs, -⟩ := Cpu.begins hf hm hu ha (by rw [hsize]; exact hst)
  rw [hsp] at hlow hhigh
  rw [hsize] at hhigh
  refine ⟨hpc, hlow, by omega, ?_⟩
  have h0 : (split t).1 = c.argument (c.port.set s') 0 := Option.some.inj (hargs 0 c.passed_two.1)
  rw [← h0]
  refine joined_split c t _ fun hc => ?_
  have h1 : (split t).2 = c.argument (c.port.set s') 1 := Option.some.inj (hargs 1 (c.passed_two.2 hc))
  exact h1.symm

/-- The call of `SET` on the area at 65576, where the memory is `m`. -/
def starting (m : Mem 64) : amd64.St := ⟨fun r => if r = .rdi then 65576 else 0, m, 0⟩

/-- The task is at 65536. -/
theorem task_starts_amd64 : ∃ m' : Mem 64, Amd64.makecontext (taskalloc 4096 65536 40 1024 32768) (fun _ => 0) = some m' ∧
    (amd64.set (starting m')).pc = 4096 ∧
    joined 64 (Amd64.argument (amd64.set (starting m')) 0) (Amd64.argument (amd64.set (starting m')) 1) = 65536 := by
  obtain ⟨m', hm, hstarts⟩ := @task_starts .amd64 4096#64 65536#64 40 1024 32768#32
    (by decide) (by decide) (by decide) fun _ => 0
  obtain ⟨hpc, -, -, hjoined⟩ := hstarts (starting m') rfl (fun _ _ => rfl) fun _ _ => rfl
  exact ⟨m', hm, hpc, hjoined.mpr fun _ => by decide⟩

end Libtask.Context
