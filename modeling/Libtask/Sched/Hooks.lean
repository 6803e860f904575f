/-
  Libtask.Sched.Hooks — the hooked system calls and `read1` (fd.c), for one task.

  They are code that calls `taskdata`, `fdwait` and the kernel. `Seen` is what such a call has seen so
  far: the task's `udata`, how its waits ended, what the kernel answered. A wake-up leaves how the
  wait ended in `udata` (`Outcome.udata`).

  Each function has one lemma for what it returns and leaves in `udata`, and `hook_spec` is about all
  of them.

  `int` and `size_t` are `BitVec 32` and `BitVec 64`; the casts are the source's.
-/

import Mathlib.Algebra.Ring.Int.Defs
import Libtask.Lib.Calls
import Libtask.Sched.Fd

namespace Libtask.Sched.Hooks

open Libtask.Lib.Calls

set_option linter.style.nameCheck false

/-! ## What the functions call -/

/-- `r` is returned; `errno` says why if that is -1. -/
structure Reply where
  r : Int
  errno : Int
  deriving DecidableEq, Repr

inductive Syscall where
  | read (fd : Int) (n : BitVec 64)
  /-- From `buf + off`. -/
  | write (fd off : Int) (n : BitVec 64)
  | accept (fd : Int)
  | connect (fd : Int)
  | getpeername (fd : Int)
  /-- `getsockopt(fd, SOL_SOCKET, SO_ERROR, &n)`; `r` is what `n` is then. -/
  | soerror (fd : Int)
  | setsockopt (fd level name value : Int)
  | fcntl (fd cmd : Int) (arg : BitVec 32)
  deriving DecidableEq, Repr

/-- How a sleep ended. -/
inductive Outcome where
  | event
  | timeout
  | shutdown
  deriving DecidableEq, Repr

/-- What the `fdtask` stores for the task it wakes. -/
def Outcome.udata : Outcome → Int
  | .event => 0
  | .timeout => LIBTASK_TIMEOUT
  | .shutdown => EIO

inductive Op where
  /-- `taskdata()`, or `taskdata(data)`. -/
  | taskdata (data : Option Int)
  | taskdelay (ms : Nat)
  | fdwait (fd : Int) (rw : Char)
  | real (c : Syscall)
  deriving DecidableEq, Repr

abbrev Ans : Op → Type
  | .taskdata _ => Int
  | .taskdelay _ => Outcome × Nat
  | .fdwait _ _ => Outcome
  | .real _ => Reply

abbrev Io := Code Op Ans

def taskdata (data : Option Int) : Io Int := ask (Op.taskdata data)

def fdwait (fd : Int) (rw : Char) : Io Outcome := ask (Op.fdwait fd rw)

def real (c : Syscall) : Io Reply := ask (Op.real c)

/-! ## fd.c -/

/-- Who set `errno`: the kernel, or the library because of its waits. -/
inductive Errno where
  | kernel (e : Int)
  | lib (e : Int)
  deriving DecidableEq, Repr

/-- What a call returns, and `errno` if the call failed. -/
structure Ret where
  m : Int
  errno : Option Errno
  deriving DecidableEq, Repr

def EAGAIN : Int := 11

def EWOULDBLOCK : Int := 11

def EINPROGRESS : Int := 115

def ECONNREFUSED : Int := 111

/-- `(int)x`. -/
def int (x : Int) : Int := (BitVec.ofInt 32 x).toInt

def again (errno : Int) : Bool := errno = EAGAIN || errno = EWOULDBLOCK

/-- `return m`, where the kernel's answer is in `m`. -/
def Reply.ret (a : Reply) : Ret := ⟨int a.r, if int a.r < 0 then some (.kernel a.errno) else none⟩

def F_GETFL : Int := 3

def F_SETFL : Int := 4

/-- `O_NONBLOCK`, and `O_NDELAY`, which is the same. -/
def O_NONBLOCK : BitVec 32 := 2048

def fdnoblock (fd : Int) : Io Int := do
  let iFlags ← real (.fcntl fd F_GETFL 0)
  let ret ← real (.fcntl fd F_SETFL (BitVec.ofInt 32 iFlags.r ||| O_NONBLOCK ||| O_NONBLOCK))
  pure (int ret.r)

def __wrap_read (fd : Int) (n : BitVec 64) : Fn Op Ans Unit Ret where
  enter := do
    let _ ← taskdata (some 0)
    pure (.inl ())
  turn _ := do
    let a ← real (.read fd n)
    if int a.r < 0 ∧ again a.errno then do
      let _ ← fdwait fd 'r'
      let _err := int (← taskdata (some 0))
      if _err ≠ 0 then pure (.inr ⟨-1, some (.lib _err)⟩) else pure (.inl ())
    else pure (.inr a.ret)

/-- The condition of `__wrap_write`'s outer loop. -/
def writes (n : BitVec 64) (tot : BitVec 32) : Io (BitVec 32 ⊕ Ret) :=
  if (tot.signExtend 64).ult n then pure (.inl tot) else pure (.inr ⟨tot.toInt, none⟩)

/-- A turn is one of the inner loop, with what follows it in the outer one. -/
def __wrap_write (fd : Int) (n : BitVec 64) : Fn Op Ans (BitVec 32) Ret where
  enter := do
    let _ ← taskdata (some 0)
    writes n 0
  turn tot := do
    let a ← real (.write fd tot.toInt (n - tot.signExtend 64))
    if int a.r < 0 ∧ again a.errno then do
      let _ ← fdwait fd 'w'
      let _err := int (← taskdata (some 0))
      if _err ≠ 0 then pure (.inr ⟨if 0 < tot.toInt then tot.toInt else -1, some (.lib _err)⟩) else pure (.inl tot)
    else if int a.r < 0 then pure (.inr a.ret)
    else if int a.r = 0 then pure (.inr ⟨tot.toInt, none⟩)
    else writes n (tot + BitVec.ofInt 32 a.r)

/-- `IPPROTO_TCP`, and `SOL_TCP`. -/
def IPPROTO_TCP : Int := 6

def TCP_NODELAY : Int := 1

def TCP_USER_TIMEOUT : Int := 18

def __wrap_accept (sockfd : Int) : Fn Op Ans Empty Ret where
  enter := do
    let _ ← fdwait sockfd 'r'
    let a ← real (.accept sockfd)
    let cfd := int a.r
    if cfd < 0 then pure (.inr ⟨-1, some (.kernel a.errno)⟩)
    else do
      let _ ← fdnoblock cfd
      let _ ← real (.setsockopt cfd IPPROTO_TCP TCP_NODELAY 1)
      let _ ← real (.setsockopt cfd IPPROTO_TCP TCP_USER_TIMEOUT (29 * 1000))
      pure (.inr ⟨cfd, none⟩)
  turn := nofun

def __wrap_connect (fd : Int) : Fn Op Ans Empty Ret where
  enter := do
    let _ ← taskdata (some 0)
    let _ ← fdnoblock fd
    let a ← real (.connect fd)
    if int a.r < 0 ∧ a.errno ≠ EINPROGRESS then pure (.inr ⟨-1, some (.kernel a.errno)⟩)
    else do
      let _ ← fdwait fd 'w'
      let _err := int (← taskdata none)
      if _err ≠ 0 then pure (.inr ⟨-1, some (.lib _err)⟩)
      else do
        let p ← real (.getpeername fd)
        if 0 ≤ int p.r then pure (.inr ⟨0, none⟩)
        else do
          let n ← real (.soerror fd)
          pure (.inr ⟨-1, some (.kernel (if int n.r = 0 then ECONNREFUSED else int n.r))⟩)
  turn := nofun

/-- Its `EWOULDBLOCK` goes untested, which is `EAGAIN`. -/
def read1 (fd : Int) (n : BitVec 64) : Fn Op Ans Unit Ret where
  enter := pure (.inl ())
  turn _ := do
    let _err := int (← taskdata (some 0))
    if _err ≠ 0 then pure (.inr ⟨-1, some (.lib _err)⟩)
    else do
      let _ ← fdwait fd 'r'
      let a ← real (.read fd n)
      if int a.r < 0 ∧ a.errno = EAGAIN then pure (.inl ()) else pure (.inr a.ret)

/-- The calls that sleep. -/
inductive Hook where
  | taskdelay (ms : Nat)
  | fdwait (fd : Int) (rw : Char)
  | read (fd : Int) (n : BitVec 64)
  | write (fd : Int) (n : BitVec 64)
  | accept (sockfd : Int)
  | connect (fd : Int)
  | read1 (fd : Int) (n : BitVec 64)
  deriving DecidableEq, Repr

def Hook.Vars : Hook → Type
  | .read _ _ => Unit
  | .write _ _ => BitVec 32
  | .read1 _ _ => Unit
  | _ => Empty

def Hook.fn : (h : Hook) → Fn Op Ans h.Vars Ret
  | .taskdelay ms => { enter := do return .inr ⟨(← ask (Op.taskdelay ms)).2, none⟩, turn := nofun }
  | .fdwait fd rw => { enter := do let _ ← Hooks.fdwait fd rw; return .inr ⟨0, none⟩, turn := nofun }
  | .read fd n => __wrap_read fd n
  | .write fd n => __wrap_write fd n
  | .accept sockfd => __wrap_accept sockfd
  | .connect fd => __wrap_connect fd
  | .read1 fd n => Hooks.read1 fd n

/-! ## One call, alone -/

structure Seen where
  udata : Int
  /-- Newest first, as are the kernel's answers. -/
  waits : List Outcome
  replies : List (Syscall × Reply)
  deriving DecidableEq, Repr

def Seen.wait (s : Seen) (o : Outcome) : Seen := { s with udata := o.udata, waits := o :: s.waits }

def Seen.real (s : Seen) (c : Syscall) (a : Reply) : Seen := { s with replies := (c, a) :: s.replies }

/-- What the kernel answers is as `K` says. -/
def may (K : Syscall → Reply → Prop) : (o : Op) → Seen → Ans o → Seen → Prop
  | .taskdata data, s, a, s' => a = s.udata ∧ s' = { s with udata := data.getD s.udata }
  | .taskdelay _, s, a, s' => s' = s.wait a.1
  | .fdwait _ _, s, a, s' => s' = s.wait a
  | .real c, s, a, s' => K c a ∧ s' = s.real c a

def Reply.Fails (a : Reply) : Prop := a.r = -1 ∧ 0 < a.errno

/-- What Linux answers. It transfers at most 0x7ffff000 bytes, and none if asked for more than
    `SSIZE_MAX`. -/
def Syscall.Answers : Syscall → Reply → Prop
  | .read _ n, a => a.Fails ∨ 0 ≤ a.r ∧ a.r ≤ n.toNat ∧ a.r ≤ 0x7ffff000 ∧ n.toNat < 2 ^ 63
  | .write _ _ n, a => a.Fails ∨ 0 ≤ a.r ∧ a.r ≤ n.toNat ∧ a.r ≤ 0x7ffff000 ∧ n.toNat < 2 ^ 63
  | .soerror _, _ => True
  | _, a => a.Fails ∨ 0 ≤ a.r ∧ a.r < 2 ^ 31

section
variable {K : Syscall → Reply → Prop} {α : Type} {s : Seen}

theorem all_taskdata {data : Option Int} {Q : Int → Seen → Prop} :
    (taskdata data).All (may K) Q s ↔ Q s.udata { s with udata := data.getD s.udata } := by
  refine Code.all_ask.trans ⟨fun h => h s.udata _ ⟨rfl, rfl⟩, fun h a s' hw => ?_⟩
  obtain ⟨rfl, rfl⟩ := hw
  exact h

theorem all_fdwait {fd : Int} {rw : Char} {Q : Outcome → Seen → Prop} :
    (fdwait fd rw).All (may K) Q s ↔ ∀ o, Q o (s.wait o) := by
  refine Code.all_ask.trans ⟨fun h o => h o _ rfl, fun h o s' hw => ?_⟩
  obtain rfl := hw
  exact h o

theorem all_real {c : Syscall} {Q : Reply → Seen → Prop} : (real c).All (may K) Q s ↔ ∀ a, K c a → Q a (s.real c a) := by
  refine Code.all_ask.trans ⟨fun h a ha => h a _ ⟨ha, rfl⟩, fun h a s' hw => ?_⟩
  obtain ⟨ha, rfl⟩ := hw
  exact h a ha

/-- `fdnoblock` calls the kernel, and nothing else. -/
theorem all_fdnoblock {fd : Int} {Q : Int → Seen → Prop}
    (h : ∀ r x a y b, Q r ((s.real (.fcntl fd F_GETFL x) a).real (.fcntl fd F_SETFL y) b)) : (fdnoblock fd).All (may K) Q s := by
  simp only [fdnoblock, Code.all_bind, all_real]
  exact fun a _ b _ => h (int b.r) 0 a _ b

end

/-! ### What the functions return -/

theorem int_of_small {x : Int} (h : -1 ≤ x) (h' : x < 2 ^ 31) : int x = x := by
  rw [int, BitVec.toInt_ofInt, Int.bmod_eq_of_le] <;> omega

theorem int_wraps {x : Int} (h : 0 ≤ x) (h' : x < 2 ^ 32) : int x = if x < 2 ^ 31 then x else x - 2 ^ 32 := by
  rw [int, BitVec.toInt_ofInt]
  split
  · rw [Int.bmod_eq_of_le] <;> omega
  · rw [← Int.sub_bmod_right, Int.bmod_eq_of_le] <;> omega

/-- A negative `int` is a huge `size_t`. -/
theorem huge {tot : BitVec 32} {n : BitVec 64} (h : (tot.signExtend 64).ult n = true) (hn : n.toNat < 2 ^ 63) : 0 ≤ tot.toInt := by
  have hs : (tot.signExtend 64).toInt = tot.toInt := BitVec.toInt_signExtend_of_le (by decide)
  have hlt : (tot.signExtend 64).toNat < n.toNat := of_decide_eq_true h
  by_contra hneg
  have hneg' : (tot.signExtend 64).toInt < 0 := by omega
  have := BitVec.toInt_neg_iff.mp hneg'
  omega

theorem int_udata (o : Outcome) : int o.udata = o.udata := by cases o <;> rfl

theorem udata_eq_zero {o : Outcome} : o.udata = 0 ↔ o = .event := by cases o <;> decide

/-- The errno of the wait that was the last. -/
def Waited (r : Ret) (waits : List Outcome) : Prop :=
  ∃ o rest, waits = o :: rest ∧ o ≠ .event ∧ r.errno = some (.lib o.udata)

/-- `c` was called last, and what it answered is returned. -/
def Answered (c : Syscall) (r : Ret) (replies : List (Syscall × Reply)) : Prop :=
  ∃ a rest, replies = (c, a) :: rest ∧ c.Answers a ∧ (int a.r < 0 → again a.errno = false) ∧ r = a.ret

/-- The bytes that the kernel took. -/
def taken (replies : List (Syscall × Reply)) : Int := (replies.map fun x => max x.2.r 0).sum

/-- What a call, made with `u` in `udata`, returns, and what it saw. -/
def Hook.Spec (u : Int) (r : Ret) (s : Seen) : Hook → Prop
  | .taskdelay _ => r.errno = none ∧ ∃ o, s = ⟨o.udata, [o], []⟩
  | .fdwait _ _ => r.errno = none ∧ ∃ o, s = ⟨o.udata, [o], []⟩
  | .read fd n => s.udata = 0 ∧ (Answered (.read fd n) r s.replies ∨ r.m = -1 ∧ Waited r s.waits)
  | .write _ _ => s.udata = 0 ∧
      (r = ⟨int (taken s.replies), none⟩ ∧ 0 ≤ taken s.replies ∧ taken s.replies < 2 ^ 32 - 2 ∨
        taken s.replies < 2 ^ 31 ∧ ((∃ e, r = ⟨-1, some (.kernel e)⟩ ∧ again e = false) ∨
          r.m = (if 0 < taken s.replies then taken s.replies else -1) ∧ Waited r s.waits))
  | .accept sockfd => ∃ o a rest, s.udata = o.udata ∧ s.waits = [o] ∧ s.replies = rest ++ [(.accept sockfd, a)] ∧
      (Syscall.accept sockfd).Answers a ∧ r = a.ret
  | .connect _ => s.udata = 0 ∧ s.waits = [] ∧ (∀ e, r.errno ≠ some (.lib e)) ∨
      ∃ o, s.udata = o.udata ∧ s.waits = [o] ∧ if o = .event then ∀ e, r.errno ≠ some (.lib e) else r.errno = some (.lib o.udata)
  | .read1 fd n =>
      if int u ≠ 0 then r = ⟨-1, some (.lib (int u))⟩ ∧ s = ⟨0, [], []⟩
      else ∃ o rest a rest', s.waits = o :: rest ∧ s.replies = (.read fd n, a) :: rest' ∧
        if int a.r < 0 ∧ a.errno = EAGAIN then s.udata = 0 ∧ o ≠ .event ∧ r = ⟨-1, some (.lib o.udata)⟩
        else s.udata = o.udata ∧ r = a.ret

section
variable {u : Int} {s : Seen} {r : Ret} {fd : Int} {n : BitVec 64}

theorem ret_lib (a : Reply) (e : Int) : a.ret.errno ≠ some (.lib e) := by
  unfold Reply.ret
  split <;> nofun

theorem read_spec {c : Io (Unit ⊕ Ret)} (h : Path (may Syscall.Answers) (__wrap_read fd n) ⟨u, [], []⟩ c s)
    (hr : (__wrap_read fd n).next c = .pure (.inr r)) : (Hook.read fd n).Spec u r s := by
  refine h.returns (I := fun _ s => s.udata = 0) (Q := fun r s => (Hook.read fd n).Spec u r s) hr ?_ fun _ s hs => ?_
  · simp only [__wrap_read, Code.all_bind, all_taskdata]
    exact rfl
  · simp only [__wrap_read, Code.all_bind, all_real]
    intro a hans
    split
    · simp only [Code.all_bind, all_fdwait, all_taskdata]
      intro o
      split
      · rename_i ho
        refine ⟨rfl, .inr ⟨rfl, o, s.waits, rfl, fun he => ?_, ?_⟩⟩
        · exact ho (by subst he; rfl)
        · exact congrArg (some ∘ Errno.lib) (int_udata o)
      · exact rfl
    · rename_i ha
      refine ⟨hs, .inl ⟨a, s.replies, rfl, hans, fun hneg => ?_, rfl⟩⟩
      exact Bool.eq_false_iff.mpr fun hag => ha ⟨hneg, hag⟩

theorem read1_spec {c : Io (Unit ⊕ Ret)} (h : Path (may Syscall.Answers) (Hooks.read1 fd n) ⟨u, [], []⟩ c s)
    (hr : (Hooks.read1 fd n).next c = .pure (.inr r)) : (Hook.read1 fd n).Spec u r s := by
  refine h.returns (I := fun _ s => s = ⟨u, [], []⟩ ∨ int u = 0 ∧ ∃ o rest a rest', s.udata = o.udata ∧ s.waits = o :: rest ∧
    s.replies = (.read fd n, a) :: rest' ∧ int a.r < 0 ∧ a.errno = EAGAIN) (Q := fun r s => (Hook.read1 fd n).Spec u r s) hr
    (.inl rfl) fun _ s hs => ?_
  simp only [Hooks.read1, Code.all_bind, all_taskdata]
  split
  · rename_i hne
    rcases hs with rfl | ⟨hu, o, rest, a, rest', ho, hw, hrep, ha⟩
    · show if int u ≠ 0 then _ else _
      rw [if_pos hne]
      exact ⟨rfl, rfl⟩
    · show if int u ≠ 0 then _ else _
      rw [if_neg (not_not.mpr hu)]
      refine ⟨o, rest, a, rest', hw, hrep, ?_⟩
      rw [if_pos ha]
      rw [ho, int_udata] at hne
      exact ⟨rfl, fun he => hne (udata_eq_zero.mpr he), by rw [ho, int_udata]⟩
  · rename_i hz
    have hu : int u = 0 := hs.elim (fun he => by subst he; exact not_not.mp hz) And.left
    simp only [Code.all_bind, all_fdwait, all_real]
    intro o a _
    split
    · rename_i ha
      exact .inr ⟨hu, o, _, a, _, rfl, rfl, rfl, ha⟩
    · rename_i ha
      show if int u ≠ 0 then _ else _
      rw [if_neg (not_not.mpr hu)]
      refine ⟨o, _, a, _, rfl, rfl, ?_⟩
      rw [if_neg ha]
      exact ⟨rfl, rfl⟩

theorem taken_real (s : Seen) (c : Syscall) (a : Reply) : taken (s.real c a).replies = max a.r 0 + taken s.replies := rfl

/-- What the outer loop of `__wrap_write` knows at the head of the inner one. -/
structure Writing (n : BitVec 64) (tot : BitVec 32) (s : Seen) : Prop where
  udata : s.udata = 0
  total : tot.toInt = taken s.replies
  nonneg : 0 ≤ tot.toInt
  more : (tot.signExtend 64).ult n = true
  size : 0 < tot.toInt → n.toNat < 2 ^ 63

/-- The kernel took some bytes. -/
theorem writing_took {tot : BitVec 32} {a : Reply} (h : Writing n tot s) (ha : 0 < a.r) (hmax : a.r ≤ 0x7ffff000)
    (hn : (n - tot.signExtend 64).toNat < 2 ^ 63) :
    (writes n (tot + BitVec.ofInt 32 a.r)).All (may Syscall.Answers)
      (Sum.elim (Writing n) fun r s => (Hook.write fd n).Spec u r s) (s.real (.write fd tot.toInt (n - tot.signExtend 64)) a) := by
  obtain ⟨hu, htot, hnn, hmore, hsize⟩ := h
  have hlt : tot.toInt < 2 ^ 31 := by
    have := BitVec.toInt_lt (x := tot)
    omega
  have hsum : (tot + BitVec.ofInt 32 a.r).toInt = int (a.r + taken s.replies) := by
    rw [BitVec.toInt_add, show (BitVec.ofInt 32 a.r).toInt = a.r from int_of_small (by omega) (by omega), htot, Int.add_comm, int,
      BitVec.toInt_ofInt]
  have htaken : taken (s.real (.write fd tot.toInt (n - tot.signExtend 64)) a).replies = a.r + taken s.replies := by
    rw [taken_real, max_eq_left (by omega)]
  have hn' : n.toNat < 2 ^ 63 := by
    by_cases h0 : 0 < tot.toInt
    · exact hsize h0
    · have h0 : tot = 0 := BitVec.eq_of_toInt_eq (by simpa using (by omega : tot.toInt = 0))
      subst h0
      simpa using hn
  have hw := int_wraps (x := a.r + taken s.replies) (by omega) (by omega)
  unfold writes
  split
  · rename_i hm
    have hnn' := huge hm hn'
    refine ⟨hu, ?_, hnn', hm, fun _ => hn'⟩
    rw [htaken, hsum, hw]
    rw [hsum, hw] at hnn'
    split at hnn' <;> omega
  · refine ⟨hu, .inl ⟨?_, ?_, ?_⟩⟩
    · rw [hsum, htaken]
    · omega
    · omega

theorem write_spec {c : Io (BitVec 32 ⊕ Ret)} (h : Path (may Syscall.Answers) (__wrap_write fd n) ⟨u, [], []⟩ c s)
    (hr : (__wrap_write fd n).next c = .pure (.inr r)) : (Hook.write fd n).Spec u r s := by
  refine h.returns (I := Writing n) (Q := fun r s => (Hook.write fd n).Spec u r s) hr ?_ fun tot s hs => ?_
  · simp only [__wrap_write, Code.all_bind, all_taskdata, writes]
    split
    · rename_i hm
      exact ⟨rfl, rfl, Int.le_refl _, hm, fun h => absurd h (by decide)⟩
    · exact ⟨rfl, .inl ⟨rfl, Int.le_refl 0, show (0 : Int) < _ by omega⟩⟩
  · simp only [__wrap_write, Code.all_bind, all_real]
    intro a ha
    have hlt : tot.toInt < 2 ^ 31 := by
      have := BitVec.toInt_lt (x := tot)
      omega
    have htot := hs.total
    have hnn := hs.nonneg
    rcases ha with ⟨hr, -⟩ | ⟨h0, -, hmax, hn⟩
    · have hint : int a.r = -1 := by rw [hr]; rfl
      have htaken : taken (s.real (.write fd tot.toInt (n - tot.signExtend 64)) a).replies = tot.toInt := by
        rw [taken_real, hr, htot]
        exact Int.zero_add _
      rw [hint]
      split
      · simp only [Code.all_bind, all_fdwait, all_taskdata]
        intro o
        split
        · rename_i ho
          refine ⟨rfl, .inr ⟨?_, .inr ⟨?_, o, s.waits, rfl, fun he => ?_, ?_⟩⟩⟩
          · show taken (s.real _ a).replies < _
            omega
          · show (if 0 < tot.toInt then tot.toInt else -1) = if 0 < taken (s.real _ a).replies then taken (s.real _ a).replies else -1
            rw [htaken]
          · exact ho (by subst he; rfl)
          · exact congrArg (some ∘ Errno.lib) (int_udata o)
        · refine ⟨rfl, ?_, hnn, hs.more, hs.size⟩
          exact htaken.symm
      · rename_i hag
        rw [if_pos (by decide)]
        refine ⟨hs.udata, .inr ⟨by omega, .inl ⟨a.errno, ?_, ?_⟩⟩⟩
        · simp only [Reply.ret, hint]
          rfl
        · exact Bool.eq_false_iff.mpr fun h => hag ⟨by decide, h⟩
    · have hint : int a.r = a.r := int_of_small (by omega) (by omega)
      rw [hint, if_neg (by omega), if_neg (by omega)]
      split
      · rename_i hz
        have htaken : taken (s.real (.write fd tot.toInt (n - tot.signExtend 64)) a).replies = tot.toInt := by
          rw [taken_real, hz, htot]
          exact Int.zero_add _
        refine ⟨hs.udata, .inl ⟨?_, by omega, by omega⟩⟩
        rw [htaken, int_of_small (by omega) hlt]
      · exact writing_took hs (by omega) hmax hn

theorem accept_spec {c : Io (Empty ⊕ Ret)} (h : Path (may Syscall.Answers) (__wrap_accept fd) ⟨u, [], []⟩ c s)
    (hr : (__wrap_accept fd).next c = .pure (.inr r)) : (Hook.accept fd).Spec u r s := by
  refine h.returns (I := fun _ _ => False) (Q := fun r s => (Hook.accept fd).Spec u r s) hr ?_ nofun
  simp only [__wrap_accept, Code.all_bind, all_fdwait, all_real]
  intro o a ha
  have hret : int a.r < 0 → a.ret = ⟨-1, some (.kernel a.errno)⟩ := fun hneg => by
    have hm : int a.r = -1 := by
      rcases ha with ⟨hr, -⟩ | ⟨h0, hlt⟩
      · rw [hr]
        rfl
      · exact absurd hneg (by rw [int_of_small (by omega) hlt]; omega)
    simp only [Reply.ret, hm]
    rfl
  split
  · rename_i hneg
    exact ⟨o, a, [], rfl, rfl, rfl, ha, (hret hneg).symm⟩
  · rename_i hpos
    simp only [Code.all_bind, all_real]
    refine all_fdnoblock fun _ x b y d e _ f _ => ⟨o, a, [(_, f), (_, e), (_, d), (_, b)], rfl, rfl, rfl, ha, ?_⟩
    simp only [Reply.ret, if_neg hpos]

theorem connect_spec {c : Io (Empty ⊕ Ret)} (h : Path (may Syscall.Answers) (__wrap_connect fd) ⟨u, [], []⟩ c s)
    (hr : (__wrap_connect fd).next c = .pure (.inr r)) : (Hook.connect fd).Spec u r s := by
  refine h.returns (I := fun _ _ => False) (Q := fun r s => (Hook.connect fd).Spec u r s) hr ?_ nofun
  simp only [__wrap_connect, Code.all_bind, all_taskdata]
  refine all_fdnoblock fun _ x b y d => ?_
  simp only [all_real]
  intro a _
  split
  · exact .inl ⟨rfl, rfl, nofun⟩
  · simp only [Code.all_bind, all_fdwait, all_taskdata]
    intro o
    split
    · rename_i ho
      refine .inr ⟨o, rfl, rfl, ?_⟩
      rw [if_neg fun he => ho (by subst he; rfl)]
      exact congrArg (some ∘ Errno.lib) (int_udata o)
    · rename_i ho
      have ho : o = .event := udata_eq_zero.mp ((int_udata o).symm.trans (not_not.mp ho))
      simp only [Code.all_bind, all_real]
      intro p _
      split
      · refine .inr ⟨o, rfl, rfl, ?_⟩
        rw [if_pos ho]
        nofun
      · simp only [Code.all_bind, all_real]
        intro e _
        refine .inr ⟨o, rfl, rfl, ?_⟩
        rw [if_pos ho]
        nofun

/-- One lemma for each function. -/
theorem hook_spec (h : Hook) {c : Io (h.Vars ⊕ Ret)} (hp : Path (may Syscall.Answers) h.fn ⟨u, [], []⟩ c s)
    (hr : h.fn.next c = .pure (.inr r)) : h.Spec u r s := by
  cases h with
  | taskdelay ms =>
    refine hp.returns (I := fun _ _ => False) (Q := fun r s => (Hook.taskdelay ms).Spec u r s) hr (fun a s' ha => ?_) nofun
    obtain rfl := ha
    exact ⟨rfl, a.1, rfl⟩
  | fdwait fd rw =>
    refine hp.returns (I := fun _ _ => False) (Q := fun r s => (Hook.fdwait fd rw).Spec u r s) hr ?_ nofun
    exact all_fdwait.mpr fun o => ⟨rfl, o, rfl⟩
  | read fd n => exact read_spec hp hr
  | write fd n => exact write_spec hp hr
  | accept sockfd => exact accept_spec hp hr
  | connect fd => exact connect_spec hp hr
  | read1 fd n => exact read1_spec hp hr

end

end Libtask.Sched.Hooks
