/-
  Libtask.Context.Coroutines — contexts that switch to each other (context.c: `makecontext`, `swapcontext`; asm.S).

  Contexts are made and freed, and the one that runs switches to any other. In whatever order, `SET`
  goes on with the context that it is given (`continues`): at its function, with the arguments, if it
  is new, and else behind the call that it switched by, with the registers and the stack that it had.
  All that the code in between has to do for it is to write to no other context's stack or area
  (`Home.Kept`).
-/

import Mathlib.Logic.Relation
import Libtask.Context.Starts

namespace Libtask.Context

open Function (update)
open Relation (ReflTransGen)
open Libtask.Lib.Machine

/-! ## Where contexts are -/

/-- The area of the registers, and the stack. -/
structure Home (w : Nat) where
  mc : BitVec w
  ss_sp : BitVec w
  ss_size : BitVec w

def Setup.home {w : Nat} (u : Setup w) : Home w := ⟨u.mc, u.ss_sp, u.ss_size⟩

/-- Where the stack ends. -/
def Home.top {w : Nat} (h : Home w) : Nat := h.ss_sp.toNat + h.ss_size.toNat

/-- The bytes of the return address that a call leaves on the stack. -/
def Port.pushes (p : Port) : Nat := if p.link.isNone then p.w / 8 else 0

section
variable (c : Cpu) (h : Home c.port.w)

def Home.blocks : List (BitVec c.port.w × Nat) := [(h.mc, c.extent), (h.ss_sp, h.ss_size.toNat)]

/-- The area is not in the stack. -/
structure Home.Ok : Prop where
  apart : Apart h.mc c.extent h.ss_sp h.ss_size.toNat
  high : h.top < 2 ^ c.port.w

def Home.Separate (h' : Home c.port.w) : Prop := ∀ x ∈ h.blocks c, ∀ y ∈ h'.blocks c, Apart x.1 x.2 y.1 y.2

def Home.Kept (m m' : Mem c.port.w) : Prop := ∀ x ∈ h.blocks c, Agree m m' x.1 x.2

/-- Elsewhere `m'` is as `m` was. -/
def Home.Writes (m m' : Mem c.port.w) : Prop := ∀ b k, (∀ x ∈ h.blocks c, Apart x.1 x.2 b k) → Agree m m' b k

/-- `GET` is called for this area, on this stack. -/
structure Home.Calls (s : c.port.St) : Prop where
  ucp : c.port.ucp s = h.mc
  low : h.ss_sp.toNat ≤ (s.reg c.port.arch.sp).toNat
  high : (s.reg c.port.arch.sp).toNat + c.port.pushes ≤ h.top

/-- The part of the stack that the caller in `s` uses. -/
def Home.Above (s : c.port.St) (m m' : Mem c.port.w) : Prop := Agree m m' (c.port.sp s) (h.top - (c.port.sp s).toNat)

end

section
variable {w : Nat} {m m' m'' : Mem w} {a b : BitVec w} {n k : Nat}

theorem Agree.trans (h : Agree m m' a n) (h' : Agree m' m'' a n) : Agree m m'' a n := fun i hi => (h' i hi).trans (h i hi)

theorem Agree.inside (h : Agree m m' a n) (hlow : a.toNat ≤ b.toNat) (hhigh : b.toNat + k ≤ a.toNat + n) : Agree m m' b k := by
  intro i hi
  rw [at_offset hlow, BitVec.add_assoc, ← BitVec.ofNat_add]
  exact h _ (by omega)

end

section
variable {c : Cpu} {h h' : Home c.port.w} {u : Setup c.port.w} {m m' m'' : Mem c.port.w} {s s' : c.port.St} {b : BitVec c.port.w} {k : Nat}

theorem Cpu.size_le (c : Cpu) : c.port.size ≤ c.extent := by
  cases c with
  | amd64 => decide
  | x86 => exact Nat.le_refl _
  | PowerPC => exact Nat.le_refl _
  | ARM big => exact Nat.le_refl _
  | MIPS big => exact Nat.le_refl _

theorem Home.Separate.symm (hs : h.Separate c h') : h'.Separate c h := fun x hx y hy => (hs y hy x hx).symm

theorem Home.Kept.refl : h.Kept c m m := fun _ _ _ _ => rfl

theorem Home.Kept.trans (hk : h.Kept c m m') (hk' : h.Kept c m' m'') : h.Kept c m m'' := fun x hx => (hk x hx).trans (hk' x hx)

/-- Nothing is written to the others. -/
theorem Home.Writes.kept (hw : h.Writes c m m') (hs : h.Separate c h') : h'.Kept c m m' :=
  fun y hy => hw y.1 y.2 fun x hx => hs x hx y hy

theorem Home.Kept.area (hk : h.Kept c m m') : Agree m m' h.mc c.extent := hk (h.mc, c.extent) (by simp [Home.blocks])

theorem Home.Kept.stack (hk : h.Kept c m m') : Agree m m' h.ss_sp h.ss_size.toNat :=
  hk (h.ss_sp, h.ss_size.toNat) (by simp [Home.blocks])

theorem Setup.Fits.ok (hf : u.Fits c) : u.home.Ok c :=
  ⟨apart_below hf.below (Nat.le_of_lt hf.high), hf.high⟩

/-- The stack pointer behind a call. -/
theorem Home.Calls.sp_toNat (hc : h.Calls c s) (ho : h.Ok c) :
    (c.port.sp s).toNat = (s.reg c.port.arch.sp).toNat + c.port.pushes := by
  have hhigh := hc.high
  have htop := ho.high
  unfold Port.sp
  unfold Port.pushes at hhigh ⊢
  cases hl : c.port.link with
  | none =>
    rw [hl, Option.isNone_none, if_pos rfl] at hhigh
    rw [Option.isNone_none, if_pos rfl]
    exact toNat_at (by omega)
  | some r => rfl

theorem Home.Calls.slot (hc : h.Calls c s) (hl : c.port.link = none) :
    (s.reg c.port.arch.sp).toNat + c.port.w / 8 ≤ h.ss_sp.toNat + h.ss_size.toNat := by
  have hhigh := hc.high
  rw [Port.pushes, hl, Option.isNone_none, if_pos rfl] at hhigh
  exact hhigh

/-- The return address is on the stack, so it is not in the area. -/
theorem Home.Calls.framed (hc : h.Calls c s) (ho : h.Ok c) : c.port.Framed s := by
  intro hl
  have harea : Apart h.ss_sp h.ss_size.toNat (c.port.ucp s) c.extent := by
    rw [hc.ucp]
    exact ho.apart.symm
  have hret := (harea.within hc.low (hc.slot hl)).symm
  have hpart := hret.part (o := 0) (n := c.port.size) (by rw [Nat.zero_add]; exact c.size_le)
  rwa [BitVec.add_zero] at hpart

/-- The caller's part of the stack is in the stack. -/
theorem Home.Calls.above (hc : h.Calls c s) (ho : h.Ok c) (hk : Agree m m' h.ss_sp h.ss_size.toNat) : h.Above c s m m' := by
  have hlow := hc.low
  have hhigh := hc.high
  have hsp := hc.sp_toNat ho
  have htop : h.top = h.ss_sp.toNat + h.ss_size.toNat := rfl
  exact hk.inside (by omega) (by omega)

/-! ## What the routines write -/

/-- `GET` writes to the area. -/
theorem Cpu.get_agree (hf : c.port.Framed s) (hb : Apart (c.port.ucp s) c.port.size b k) :
    Agree s.mem (c.port.get s).mem b k := by
  obtain ⟨l, hmem, hs⟩ : ∃ l, (c.port.get s).mem = saves c.port.arch.big (c.port.ucp s) s.mem l ∧
      Spaced c.port.size (l.map Slot.range) := by
    cases c with
    | x86 => exact ⟨_, X86.mem_get hf, X86.spaced s _⟩
    | amd64 => exact ⟨_, Amd64.mem_get hf, Amd64.spaced s _⟩
    | PowerPC => exact ⟨Power.slots s, rfl, Power.spaced s⟩
    | ARM big => exact ⟨Arm.slots s, rfl, Arm.spaced s⟩
    | MIPS big => exact ⟨Mips.slots s, rfl, Mips.spaced s⟩
  intro i hi
  rw [hmem]
  exact saves_apart (fun x hx => hb.part (hs.1 _ (List.mem_map_of_mem hx))) hi

end

namespace X86
variable {u : Setup 32} {m : Mem 32} {s s' : State X86 32} {b : BitVec 32} {k : Nat}

theorem set_agree (hf : x86.Framed s) (hr : x86.Resume s s') (hb : Apart (s.reg .esp) 4 b k) :
    Agree s'.mem (x86.set s').mem b k := by
  intro i hi
  have hmem : (x86.set s').mem = pushed s' := rfl
  rw [hmem, pushed, top hf hr]
  exact store_apart hb hi

theorem set_made_agree (hf : u.Fits .x86) (hu : x86.ucp s' = u.mc) (ha : Agree (makecontext u m) s'.mem u.mc 80)
    (hb : Apart u.ss_sp u.ss_size.toNat b k) : Agree s'.mem (x86.set s').mem b k := by
  intro i hi
  obtain ⟨hlow, hhigh, -⟩ := aligned_bounds hf
  have hslot := slot_toNat hf
  rw [push_eq hu ha]
  exact store_apart (hb.within (by omega) (by omega)) hi

end X86

namespace Amd64
variable {u : Setup 64} {m m' : Mem 64} {s s' : State Amd64 64} {b : BitVec 64} {k : Nat}

theorem set_agree (hf : amd64.Framed s) (hr : amd64.Resume s s') (hb : Apart (s.reg .rsp) 8 b k) :
    Agree s'.mem (amd64.set s').mem b k := by
  intro i hi
  have hmem : (amd64.set s').mem = store false s'.mem (load false s'.mem (amd64.ucp s' + BitVec.ofNat 64 184) 8 - BitVec.ofNat 64 8) 8
      (load false s'.mem (amd64.ucp s' + BitVec.ofNat 64 160) 8) := rfl
  have hrsp := reloads hf hr (x := ⟨184, 8, s.reg .rsp + BitVec.ofNat 64 8⟩) (by simp [slots, slots']) rfl
  dsimp only at hrsp
  rw [hmem, hrsp, BitVec.add_sub_cancel]
  exact store_apart hb hi

theorem set_made_agree (hf : u.Fits .amd64) (hm : makecontext u m = some m') (hu : amd64.ucp s' = u.mc)
    (ha : Agree m' s'.mem u.mc 800) (hb : Apart u.ss_sp u.ss_size.toNat b k) : Agree s'.mem (amd64.set s').mem b k := by
  intro i hi
  obtain ⟨a, a', hargs, -, -⟩ := made hf hm
  have hn : u.args.length = 2 := by rw [hargs]; rfl
  obtain ⟨hlow, hhigh, -⟩ := aligned_bounds hf hn
  have hslot := slot_toNat hf hn
  rw [push_eq hf hm hu ha]
  exact store_apart (hb.within (by omega) (by omega)) hi

end Amd64

section
variable {c : Cpu} {h h' : Home c.port.w} {u : Setup c.port.w} {m m' m'' : Mem c.port.w} {s s' : c.port.St} {b : BitVec c.port.w} {k : Nat}

/-- Where a call left its return address `SET` writes it again. -/
theorem Cpu.set_agree (hf : c.port.Framed s) (hr : c.port.Resume s s')
    (hb : c.port.link = none → Apart (s.reg c.port.arch.sp) (c.port.w / 8) b k) : Agree s'.mem (c.port.set s').mem b k := by
  cases c with
  | x86 => exact X86.set_agree hf hr (hb rfl)
  | amd64 => exact Amd64.set_agree hf hr (hb rfl)
  | PowerPC => exact fun _ _ => rfl
  | ARM big => exact fun _ _ => rfl
  | MIPS big => exact fun _ _ => rfl

/-- For a new context it writes to the stack. -/
theorem Cpu.set_made_agree (hf : u.Fits c) (hm : c.makecontext u m = some m') (hu : c.port.ucp s' = u.mc)
    (ha : Agree m' s'.mem u.mc c.extent) (hb : Apart u.ss_sp u.ss_size.toNat b k) : Agree s'.mem (c.port.set s').mem b k := by
  cases c with
  | x86 =>
    obtain rfl := Option.some.inj hm
    exact X86.set_made_agree hf hu ha hb
  | amd64 => exact Amd64.set_made_agree hf hm hu ha hb
  | PowerPC => exact fun _ _ => rfl
  | ARM big => exact fun _ _ => rfl
  | MIPS big => exact fun _ _ => rfl

/-! ### makecontext -/

end

section
variable {w : Nat} {m : Mem w} {a b : BitVec w} {n k : Nat} {big : Bool}

theorem zeroed_agree (h : Apart a n b k) : Agree m (zeroed m a n) b k := by
  intro i hi
  have hd : ¬ (b + BitVec.ofNat w i - a).toNat < n := fun hlt => by
    refine h _ hlt i hi ?_
    rw [BitVec.ofNat_toNat, BitVec.setWidth_eq, BitVec.add_comm, BitVec.sub_add_cancel]
  simp only [zeroed, if_neg hd]

theorem saves_agree {l : List (Slot w)} (hl : ∀ x ∈ l, x.o + x.n ≤ n) (h : Apart a n b k) : Agree m (saves big a m l) b k :=
  fun _ hi => saves_apart (fun x hx => h.part (hl x hx)) hi

end

namespace X86
variable {u : Setup 32} {b : BitVec 32} {k : Nat}

theorem makecontext_agree (hf : u.Fits .x86) (m : Mem 32) (ha : Apart u.mc 80 b k) (hst : Apart u.ss_sp u.ss_size.toNat b k) :
    Agree m (makecontext u m) b k := by
  obtain ⟨hlow, hhigh, -⟩ := aligned_bounds hf
  have hsp := sp_toNat hf
  have hargs : Apart (u.aligned 4) (4 * u.args.length) b k := hst.within (by omega) (by omega)
  have hra : Apart (u.aligned 4 - BitVec.ofNat 32 4) 4 b k := hst.within (by omega) (by omega)
  have h₁ : Agree m (saves false (u.aligned 4) m (words 0 u.args)) b k := by
    refine saves_agree (fun x hx => ?_) hargs
    have h := (mem_words hx).2
    omega
  have h₂ : Agree m (store false (saves false (u.aligned 4) m (words 0 u.args)) (u.aligned 4 - BitVec.ofNat 32 4) 4 0) b k :=
    h₁.trans fun i hi => store_apart hra hi
  exact h₂.trans (saves_agree (by simp) ha)

end X86

namespace Amd64
variable {u : Setup 64} {m m' : Mem 64} {b : BitVec 64} {k : Nat}

theorem makecontext_agree (hf : u.Fits .amd64) (hm : makecontext u m = some m') (ha : Apart u.mc 800 b k)
    (hst : Apart u.ss_sp u.ss_size.toNat b k) : Agree m m' b k := by
  obtain ⟨x, y, hargs, -, -⟩ := made hf hm
  have hn : u.args.length = 2 := by rw [hargs]; rfl
  obtain ⟨hlow, hhigh, -⟩ := aligned_bounds hf hn
  have hsp := sp_toNat hf hn
  have hra : Apart (u.aligned 8 - BitVec.ofNat 64 8) 8 b k := hst.within (by omega) (by omega)
  unfold makecontext at hm
  rw [hargs] at hm
  obtain rfl := Option.some.inj hm
  have h₁ : Agree m (zeroed m u.mc 800) b k := zeroed_agree ha
  let m₂ := saves false u.mc (zeroed m u.mc 800) [⟨8, 8, x.signExtend 64⟩, ⟨16, 8, y.signExtend 64⟩]
  have h₂ : Agree m m₂ b k := h₁.trans (saves_agree (by simp) ha)
  have h₃ : Agree m (store false m₂ (u.aligned 8 - BitVec.ofNat 64 8) 8 0) b k := h₂.trans fun i hi => store_apart hra hi
  exact h₃.trans (saves_agree (by simp) ha)

end Amd64

namespace Power
variable {u : Setup 32} {m m' : Mem 32} {b : BitVec 32} {k : Nat}

theorem makecontext_agree (hm : makecontext u m = some m') (ha : Apart u.mc 104 b k) : Agree m m' b k := by
  unfold makecontext at hm
  split at hm
  · cases hm
  · obtain rfl := Option.some.inj hm
    exact saves_agree (by simp) ha

end Power

section
variable {c : Cpu} {h h' : Home c.port.w} {u : Setup c.port.w} {m m' m'' : Mem c.port.w} {s s' : c.port.St} {b : BitVec c.port.w} {k : Nat}

/-- It writes to the area and to the stack. -/
theorem Cpu.makecontext_writes (hf : u.Fits c) (hm : c.makecontext u m = some m') : u.home.Writes c m m' := by
  intro b k hb
  have ha : Apart u.mc c.extent b k := hb (u.mc, c.extent) (by simp [Home.blocks, Setup.home])
  have hst : Apart u.ss_sp u.ss_size.toNat b k := hb (u.ss_sp, u.ss_size.toNat) (by simp [Home.blocks, Setup.home])
  cases c with
  | x86 =>
    obtain rfl := Option.some.inj hm
    exact X86.makecontext_agree hf m ha hst
  | amd64 => exact Amd64.makecontext_agree hf hm ha hst
  | PowerPC => exact Power.makecontext_agree hm ha
  | ARM big =>
    obtain rfl := Option.some.inj hm
    have hs : Spaced 60 ((u.registers 0 52 56).map Slot.range) := registers_spaced u (by decide) (by decide) (by decide)
    exact saves_agree (fun x hx => hs.1 _ (List.mem_map_of_mem hx)) ha
  | MIPS big =>
    obtain rfl := Option.some.inj hm
    have hs : Spaced 136 ((u.registers 24 124 132).map Slot.range) := registers_spaced u (by decide) (by decide) (by decide)
    exact saves_agree (fun x hx => hs.1 _ (List.mem_map_of_mem hx)) ha

/-! ## Contexts -/

/-- What a context was doing when it last ran. -/
inductive Ctx (c : Cpu) where
  | made (u : Setup c.port.w)
  | left (s : c.port.St)

/-- What `SET` needs of the context is still in `m`. -/
def Ctx.Ok (h : Home c.port.w) (m : Mem c.port.w) : Ctx c → Prop
  | .made u => u.home = h ∧ u.Fits c ∧ ∃ m₀ m', c.makecontext u m₀ = some m' ∧ h.Kept c m' m
  | .left s => h.Calls c s ∧ Agree (c.port.get s).mem m h.mc c.extent ∧ h.Above c s s.mem m

/-- `SET`, called in `s'`, goes on with the context. -/
def Ctx.Continues (h : Home c.port.w) (s' : c.port.St) : Ctx c → Prop
  | .made u => Begins c u (c.port.set s')
  | .left s => Restores c.port s s' ∧ h.Above c s s.mem (c.port.set s').mem ∧
      ((c.isMips = true → c.port.int s' ≠ 0) → Resumes c.port s s')

theorem Ctx.Ok.kept {x : Ctx c} (hx : x.Ok h m) (ho : h.Ok c) (hk : h.Kept c m m') : x.Ok h m' := by
  cases x with
  | made u =>
    obtain ⟨hu, hf, m₀, m₁, hm, hkept⟩ := hx
    exact ⟨hu, hf, m₀, m₁, hm, hkept.trans hk⟩
  | left s =>
    obtain ⟨hc, harea, habove⟩ := hx
    exact ⟨hc, harea.trans hk.area, habove.trans (hc.above ho hk.stack)⟩

/-- Only the context's stack is written to when it goes on. -/
theorem Ctx.Ok.goes {x : Ctx c} (hx : x.Ok h s'.mem) (ho : h.Ok c) (hu : c.port.ucp s' = h.mc) :
    x.Continues h s' ∧ h.Writes c s'.mem (c.port.set s').mem := by
  cases x with
  | made u =>
    obtain ⟨rfl, hf, m₀, m₁, hm, hkept⟩ := hx
    exact ⟨Cpu.begins hf hm hu hkept.area hkept.stack, fun b k hb =>
      Cpu.set_made_agree hf hm hu hkept.area (hb (u.ss_sp, u.ss_size.toNat) (by simp [Home.blocks, Setup.home]))⟩
  | left s =>
    obtain ⟨hc, harea, habove⟩ := hx
    have hf := hc.framed ho
    have hr : c.port.Resume s s' := by
      refine ⟨hu.trans hc.ucp.symm, fun i hi => ?_⟩
      rw [hc.ucp]
      exact harea i (Nat.lt_of_lt_of_le hi c.size_le)
    have hres := Cpu.restores hf hr
    refine ⟨⟨hres, habove.trans (Cpu.set_agree hf hr fun hl => ?_), fun hv => ?_⟩, fun b k hb => Cpu.set_agree hf hr fun hl => ?_⟩
    · -- the return address is below that
      have hsp := hc.sp_toNat ho
      have hpush : c.port.pushes = c.port.w / 8 := by rw [Port.pushes, hl, Option.isNone_none, if_pos rfl]
      have htop := ho.high
      exact apart_below (by omega) (by omega)
    · rw [hres.resumes, Cpu.set_value hf hr]
      cases hmips : c.isMips with
      | true => exact hv hmips
      | false => exact (by decide : (1 : BitVec 32) ≠ 0)
    · exact (hb (h.ss_sp, h.ss_size.toNat) (by simp [Home.blocks])).within hc.low (hc.slot hl)

end

/-! ## Runs -/

structure Sys (c : Cpu) (I : Type) where
  s : c.port.St
  running : I
  home : I → Option (Home c.port.w)
  /-- Of the one that runs, what it was doing before. -/
  ctx : I → Ctx c

section
variable {c : Cpu} {I : Type}

/-- `swapcontext` calls `GET` in `y.s`, for the context that runs, and then in `s` `SET` for `j`. -/
structure Swap (y : Sys c I) (j : I) (s : c.port.St) : Prop where
  other : j ≠ y.running
  ucp : ∃ h, y.home j = some h ∧ c.port.ucp s = h.mc
  calls : ∀ h, y.home y.running = some h → h.Calls c y.s
  area : ∀ h, y.home y.running = some h → Agree (c.port.get y.s).mem s.mem h.mc c.extent
  above : ∀ h, y.home y.running = some h → h.Above c y.s (c.port.get y.s).mem s.mem
  others : ∀ i h, i ≠ y.running → y.home i = some h → h.Kept c (c.port.get y.s).mem s.mem

structure Inv (y : Sys c I) : Prop where
  running : ∃ h, y.home y.running = some h
  ok : ∀ i h, y.home i = some h → h.Ok c
  separate : ∀ i j h h', i ≠ j → y.home i = some h → y.home j = some h' → h.Separate c h'
  ctx : ∀ i h, i ≠ y.running → y.home i = some h → (y.ctx i).Ok h y.s.mem

variable {y : Sys c I} {s : c.port.St} {i j : I} {h : Home c.port.w}

theorem runs_inv (hi : Inv y) (hk : ∀ i h, i ≠ y.running → y.home i = some h → h.Kept c y.s.mem s.mem) : Inv { y with s := s } :=
  ⟨hi.running, hi.ok, hi.separate, fun i h hne hh => (hi.ctx i h hne hh).kept (hi.ok i h hh) (hk i h hne hh)⟩

/-- `GET` and the code behind it keep the other contexts. -/
theorem Swap.kept (hs : Swap y j s) (hi : Inv y) (hne : i ≠ y.running) (hh : y.home i = some h) : h.Kept c y.s.mem s.mem := by
  obtain ⟨hr, hrun⟩ := hi.running
  have hcalls := hs.calls hr hrun
  have hget : hr.Writes c y.s.mem (c.port.get y.s).mem := by
    intro b k hb
    refine Cpu.get_agree (hcalls.framed (hi.ok _ _ hrun)) ?_
    have harea : Apart hr.mc c.extent b k := hb (hr.mc, c.extent) (by simp [Home.blocks])
    have hpart := harea.part (o := 0) (n := c.port.size) (by rw [Nat.zero_add]; exact c.size_le)
    rwa [BitVec.add_zero, ← hcalls.ucp] at hpart
  exact (hget.kept (hi.separate _ _ _ _ hne.symm hrun hh)).trans (hs.others i h hne hh)

/-- What the context that is left needs is there when `SET` is called. -/
theorem Swap.left (hs : Swap y j s) (hi : Inv y) (hh : y.home y.running = some h) : (Ctx.left y.s).Ok h s.mem := by
  have hcalls := hs.calls h hh
  have ho := hi.ok _ _ hh
  have hget : h.Above c y.s y.s.mem (c.port.get y.s).mem := by
    refine hcalls.above ho (Cpu.get_agree (hcalls.framed ho) ?_)
    have hpart := ho.apart.part (o := 0) (n := c.port.size) (by rw [Nat.zero_add]; exact c.size_le)
    rwa [BitVec.add_zero, ← hcalls.ucp] at hpart
  exact ⟨hcalls, hs.area h hh, hget.trans (hs.above h hh)⟩

theorem Swap.reaches (hs : Swap y j s) (hi : Inv y) :
    ∃ h, y.home j = some h ∧ (y.ctx j).Continues h s ∧ h.Writes c s.mem (c.port.set s).mem := by
  obtain ⟨h, hh, hu⟩ := hs.ucp
  have hx := (hi.ctx j h hs.other hh).kept (hi.ok j h hh) (hs.kept hi hs.other hh)
  exact ⟨h, hh, hx.goes (hi.ok j h hh) hu⟩

variable [DecidableEq I]

/-- One context, which runs. -/
def Sys.start (c : Cpu) (s : c.port.St) (i : I) (h : Home c.port.w) : Sys c I :=
  ⟨s, i, update (fun _ => none) i (some h), fun _ => .left s⟩

inductive Step : Sys c I → Sys c I → Prop
  | runs {y : Sys c I} (s : c.port.St) (hk : ∀ i h, i ≠ y.running → y.home i = some h → h.Kept c y.s.mem s.mem) :
      Step y { y with s := s }
  | makecontext {y : Sys c I} {i : I} {u : Setup c.port.w} {m : Mem c.port.w} (hnew : y.home i = none) (hf : u.Fits c)
      (hs : ∀ j h, y.home j = some h → u.home.Separate c h) (hm : c.makecontext u y.s.mem = some m) :
      Step y { s := { y.s with mem := m }, running := y.running, home := update y.home i (some u.home), ctx := update y.ctx i (.made u) }
  | free {y : Sys c I} {i : I} (hne : i ≠ y.running) : Step y { y with home := update y.home i none }
  | swapcontext {y : Sys c I} {j : I} {s : c.port.St} (hs : Swap y j s) :
      Step y { s := c.port.set s, running := j, home := y.home, ctx := update y.ctx y.running (.left y.s) }

theorem start_inv (ho : h.Ok c) : Inv (Sys.start c s i h) := by
  have hstart : (Sys.start c s i h).home = update (fun _ => none) i (some h) := rfl
  have hrun : (Sys.start c s i h).home i = some h := by rw [hstart, Function.update_self]
  have hhome : ∀ j h', (Sys.start c s i h).home j = some h' → j = i ∧ h' = h := by
    intro j h' hj
    by_cases hji : j = i
    · rw [hji, hrun] at hj
      exact ⟨hji, (Option.some.inj hj).symm⟩
    · rw [hstart, Function.update_of_ne hji] at hj
      cases hj
  refine ⟨⟨h, hrun⟩, fun j h' hj => ?_, fun j k h' h'' hne hj hk => ?_, fun j h' hne hj => ?_⟩
  · rw [(hhome j h' hj).2]
    exact ho
  · exact absurd ((hhome j h' hj).1.trans (hhome k h'' hk).1.symm) hne
  · exact absurd (hhome j h' hj).1 hne

theorem makecontext_inv {u : Setup c.port.w} {m : Mem c.port.w} (hi : Inv y) (hnew : y.home i = none) (hf : u.Fits c)
    (hs : ∀ j h, y.home j = some h → u.home.Separate c h) (hm : c.makecontext u y.s.mem = some m) :
    Inv { s := { y.s with mem := m }, running := y.running, home := update y.home i (some u.home), ctx := update y.ctx i (.made u) } := by
  obtain ⟨hr, hrun⟩ := hi.running
  have hrunning : y.running ≠ i := fun he => by
    rw [he, hnew] at hrun
    cases hrun
  have hwrites := Cpu.makecontext_writes hf hm
  refine ⟨⟨hr, ?_⟩, fun j h hj => ?_, fun j k h h' hne hj hk => ?_, fun j h hne hj => ?_⟩
  · show update y.home i _ y.running = _
    rw [Function.update_of_ne hrunning, hrun]
  · have hj : update y.home i (some u.home) j = some h := hj
    by_cases hji : j = i
    · rw [hji, Function.update_self] at hj
      obtain rfl := Option.some.inj hj
      exact hf.ok
    · rw [Function.update_of_ne hji] at hj
      exact hi.ok j h hj
  · have hj : update y.home i (some u.home) j = some h := hj
    have hk : update y.home i (some u.home) k = some h' := hk
    by_cases hji : j = i
    · rw [hji, Function.update_self] at hj
      obtain rfl := Option.some.inj hj
      rw [Function.update_of_ne fun hki => hne (hji.trans hki.symm)] at hk
      exact hs k h' hk
    · rw [Function.update_of_ne hji] at hj
      by_cases hki : k = i
      · rw [hki, Function.update_self] at hk
        obtain rfl := Option.some.inj hk
        exact (hs j h hj).symm
      · rw [Function.update_of_ne hki] at hk
        exact hi.separate j k h h' hne hj hk
  · have hj : update y.home i (some u.home) j = some h := hj
    show (update y.ctx i (.made u) j).Ok h m
    by_cases hji : j = i
    · rw [hji, Function.update_self] at hj ⊢
      exact ⟨Option.some.inj hj, hf, y.s.mem, m, hm, .refl⟩
    · rw [Function.update_of_ne hji] at hj ⊢
      exact (hi.ctx j h hne hj).kept (hi.ok j h hj) (hwrites.kept (hs j h hj))

theorem free_inv (hi : Inv y) (hne : i ≠ y.running) : Inv { y with home := update y.home i none } := by
  have hhome : ∀ j h, update y.home i none j = some h → y.home j = some h := by
    intro j h hj
    by_cases hji : j = i
    · rw [hji, Function.update_self] at hj
      cases hj
    · rwa [Function.update_of_ne hji] at hj
  obtain ⟨hr, hrun⟩ := hi.running
  refine ⟨⟨hr, ?_⟩, fun j h hj => hi.ok j h (hhome j h hj), fun j k h h' hjk hj hk => ?_,
    fun j h hj hh => hi.ctx j h hj (hhome j h hh)⟩
  · show update y.home i none y.running = _
    rw [Function.update_of_ne hne.symm, hrun]
  · exact hi.separate j k h h' hjk (hhome j h hj) (hhome k h' hk)

theorem swapcontext_inv (hi : Inv y) (hs : Swap y j s) :
    Inv { s := c.port.set s, running := j, home := y.home, ctx := update y.ctx y.running (.left y.s) } := by
  obtain ⟨hj, hhome, -, hwrites⟩ := hs.reaches hi
  refine ⟨⟨hj, hhome⟩, hi.ok, hi.separate, fun i h hne hh => ?_⟩
  have hkept : h.Kept c s.mem (c.port.set s).mem := hwrites.kept (hi.separate _ _ _ _ (Ne.symm hne) hhome hh)
  show (update y.ctx y.running (.left y.s) i).Ok h (c.port.set s).mem
  by_cases hir : i = y.running
  · rw [hir] at hh ⊢
    rw [Function.update_self]
    exact (hs.left hi hh).kept (hi.ok _ _ hh) hkept
  · rw [Function.update_of_ne hir]
    exact (hi.ctx i h hir hh).kept (hi.ok i h hh) ((hs.kept hi hir hh).trans hkept)

theorem step_inv {y' : Sys c I} (hi : Inv y) (hstep : Step y y') : Inv y' := by
  cases hstep with
  | runs s hk => exact runs_inv hi hk
  | makecontext hnew hf hs hm => exact makecontext_inv hi hnew hf hs hm
  | free hne => exact free_inv hi hne
  | swapcontext hs => exact swapcontext_inv hi hs

theorem run_inv (ho : h.Ok c) (hrun : ReflTransGen Step (Sys.start c s i h) y) : Inv y := by
  induction hrun with
  | refl => exact start_inv ho
  | tail _ hstep ih => exact step_inv ih hstep

end

/-- In every run, the context that `swapcontext` switches to goes on. -/
theorem continues {c : Cpu} {I : Type} [DecidableEq I] {s s' : c.port.St} {i j : I} {h : Home c.port.w} {y : Sys c I}
    (ho : h.Ok c) (hrun : ReflTransGen Step (Sys.start c s i h) y) (hs : Swap y j s') :
    ∃ h, y.home j = some h ∧ (y.ctx j).Continues h s' := by
  obtain ⟨h', hh, hx, -⟩ := hs.reaches (run_inv ho hrun)
  exact ⟨h', hh, hx⟩

/-- Where `called` is called. -/
def main : Home Cpu.amd64.port.w := ⟨4096, 5000, 3200⟩

def coroutine : Setup Cpu.amd64.port.w := ⟨16384, 20480, 4096, 77, [1, 2]⟩

/-- A call with these two registers. -/
def calls (rdi rsp : BitVec 64) (m : Mem 64) : amd64.St := ⟨fun r => if r = .rdi then rdi else if r = .rsp then rsp else 0, m, 0⟩

/-- `false` made `true`, and `m` is the memory. -/
def paired (m : Mem 64) : Sys .amd64 Bool where
  s := { called with mem := m }
  running := false
  home := update (Sys.start .amd64 called false main).home true (some coroutine.home)
  ctx := update (Sys.start .amd64 called false main).ctx true (.made coroutine)

/-- It switched, and `true` calls `GET`. -/
def switched (m : Mem 64) : Sys .amd64 Bool where
  s := calls 16384 24568 (amd64.set (calls 16384 0 (amd64.get (paired m).s).mem)).mem
  running := true
  home := (paired m).home
  ctx := update (paired m).ctx false (.left (paired m).s)

/-- `false` makes `true` and switches to it, and it switches back. -/
theorem continues_two : ∃ (y : Sys .amd64 Bool) (s : amd64.St), ReflTransGen Step (Sys.start .amd64 called false main) y ∧
    y.running = true ∧ Swap y false s ∧ (y.ctx false).Continues main s := by
  have ho : main.Ok .amd64 := ⟨apart_below (by decide) (by decide), by decide⟩
  have hf : coroutine.Fits .amd64 := ⟨by decide, by decide, by decide⟩
  have hsep : coroutine.home.Separate .amd64 main := by
    have h : main.Separate .amd64 coroutine.home := by
      simp only [Home.Separate, Home.blocks, List.forall_mem_cons]
      exact ⟨⟨apart_below (by decide) (by decide), apart_below (by decide) (by decide), nofun⟩,
        ⟨apart_below (by decide) (by decide), apart_below (by decide) (by decide), nofun⟩, nofun⟩
    exact h.symm
  have hstarted : ∀ j h, (Sys.start .amd64 called false main).home j = some h → coroutine.home.Separate .amd64 h := by
    intro j h hj
    cases j with
    | false =>
      obtain rfl := Option.some.inj (show some main = some h from hj)
      exact hsep
    | true => cases hj
  obtain ⟨m, hm⟩ := Cpu.makecontext_two (c := .amd64) (u := coroutine) rfl called.mem
  have hmain : ∀ h, (paired m).home false = some h → h = main := fun h hh => (Option.some.inj hh).symm
  have hco : ∀ h, (switched m).home true = some h → h = coroutine.home := fun h hh => (Option.some.inj hh).symm
  have hs₁ : Swap (paired m) true (calls 16384 0 (amd64.get (paired m).s).mem) := by
    refine ⟨nofun, ⟨_, rfl, rfl⟩, fun h hh => ?_, fun _ _ _ _ => rfl, fun _ _ _ _ => rfl, fun _ _ _ _ _ _ _ _ => rfl⟩
    rw [hmain h hh]
    exact ⟨rfl, show 5000 ≤ 8192 by decide, show 8192 + 8 ≤ 8200 by decide⟩
  have hs₂ : Swap (switched m) false (calls 4096 0 (amd64.get (switched m).s).mem) := by
    refine ⟨nofun, ⟨_, rfl, rfl⟩, fun h hh => ?_, fun _ _ _ _ => rfl, fun _ _ _ _ => rfl, fun _ _ _ _ _ _ _ _ => rfl⟩
    rw [hco h hh]
    exact ⟨rfl, show 20480 ≤ 24568 by decide, show 24568 + 8 ≤ 24576 by decide⟩
  have hrun : ReflTransGen Step (Sys.start .amd64 called false main) (switched m) :=
    ((ReflTransGen.single (.makecontext rfl hf hstarted hm)).tail (.swapcontext hs₁)).tail
      (.runs (c := .amd64) (calls 16384 24568 (amd64.set (calls 16384 0 (amd64.get (paired m).s).mem)).mem) fun _ _ _ _ => .refl)
  obtain ⟨h, hh, hx⟩ := continues ho hrun hs₂
  obtain rfl : h = main := (Option.some.inj hh).symm
  exact ⟨switched m, _, hrun, rfl, hs₂, hx⟩

end Libtask.Context
