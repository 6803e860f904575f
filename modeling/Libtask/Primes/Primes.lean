/-
  Libtask.Primes.Primes — the prime sieve (primes.c).

  `taskmain` sends 2, 3, 4, … on a channel. A `primetask` prints the first number it receives, makes
  a channel and a task that receives from it, and sends there what its own number does not divide.

  The library's memory is a state of Libtask.Sched. Of the program there is where each task is, with
  its variables (`Place`): at a statement with a call of chansendul or chanrecvul, or inside that
  call. A task that runs goes into its call, or from its call's return to the next one, printing
  and making channels and tasks on the way (`Sys.run`). Else it is the scheduler's turn, or a task
  is resumed in `chanalt`, or starts.

  `chancreate` makes the next of the channels, which the library's memory has from the start.
  `malloc` gives a task where the event says. A variable of type `unsigned long` that a call of task
  `t` has is at `val t`, and its `Alt` array is array `t`. An `int` is not taken modulo 2^32 where
  it would overflow. `quiet` stays 0.
-/

import Libtask.Chan.Ops
import Libtask.Chan.Slots
import Libtask.Sched.Chans

namespace Libtask.Primes

open Function (update)
open Libtask.Lib.Words
open Libtask.Sched (State Glob Heap)

/-! ## Numbers -/

def ulong (i : Int) : Nat := (i % 2 ^ 64).toNat

def int (n : Nat) : Int := Int.bmod n (2 ^ 32)

def sizeofUlong : Nat := 8

/-- A channel of `chancreate(sizeof(unsigned long), buffer)` has memory: `malloc` does not refuse its
    size, and has room for what is sent. -/
structure Permits (buffer : Int) : Prop where
  granted : (Chan.chanbytes sizeofUlong buffer).toNat < 2 ^ 63
  room : sizeofUlong * buffer ≤ Chan.room sizeofUlong buffer

/-! ## The program -/

/-- A statement with a call, and the variables there. -/
inductive At where
  | taskmain
  /-- `chansendul(c, i)` in `taskmain` -/
  | feed (c : Nat) (i : Int)
  /-- `p = chanrecvul(c)` -/
  | first (c : Nat)
  /-- `i = chanrecvul(c)` -/
  | next (c nc : Nat) (p : Int)
  /-- `chansendul(nc, i)` -/
  | pass (c nc : Nat) (p i : Int)
  deriving DecidableEq, Repr

/-- At a call, or inside it. -/
structure Place where
  stmt : At
  inside : Bool
  deriving DecidableEq, Repr

inductive Line where
  | goal (n : Int)
  | number (p : Int)
  deriving DecidableEq, Repr

structure Sys where
  s : State Glob Heap
  place : TaskPtr → Place
  /-- The channels that `chancreate` made. -/
  nchan : Nat
  /-- What was printed. -/
  out : List Line
  /-- The argument of `taskexitall`. -/
  exited : Option Int
  /-- History: what `taskmain` passed to `chansendul`. -/
  fed : List Int

def quiet : Int := 0

def val (t : TaskPtr) : Nat := sizeofUlong * t

def Sys.lib (y : Sys) (e : Sched.Ev) : Except String Sys :=
  match (Sched.code e).onHeap y.s with
  | .ok (_, s) => .ok { y with s := s }
  | .error why => .error why

def Sys.goto (y : Sys) (t : TaskPtr) (l : At) (inside : Bool) : Sys := { y with place := update y.place t ⟨l, inside⟩ }

def Sys.store (y : Sys) (x : Nat) : List UInt8 → Except String Sys
  | [] => .ok y
  | b :: bs => do
    let y ← y.lib (.poke x b)
    y.store (x + 1) bs

def Sys.chansendul (y : Sys) (t : TaskPtr) (c v r1 r2 : Nat) : Except String Sys := do
  let y ← y.store (val t) (bytes sizeofUlong v)
  y.lib (.chanalt t (Chan.chansend c (some (val t))) r1 r2)

def Sys.chanrecvul (y : Sys) (t : TaskPtr) (c r1 r2 : Nat) : Except String Sys :=
  y.lib (.chanalt t (Chan.chanrecv c (some (val t))) r1 r2)

/-- What `chanrecvul` returns, from its variable. -/
def Sys.received (y : Sys) (t : TaskPtr) : Nat := Chan.held val y.s.g.chan t

/-- `taskcreate(primetask, c, 32768)` -/
def Sys.taskcreate (y : Sys) (a : TaskPtr) (c : Nat) : Except String Sys := do
  let y ← y.lib (.taskcreate a)
  .ok (y.goto a (.first c) false)

/-- The running task `t` goes on to its next call, or into it. `malloc` returns `a`. -/
def Sys.run (goal : Int) (y : Sys) (t a r1 r2 : Nat) : Except String Sys :=
  match y.place t with
  | ⟨.taskmain, _⟩ => do
    let c := y.nchan
    let y : Sys := { y with out := y.out ++ [.goal goal], nchan := c + 1 }
    let y ← y.taskcreate a c
    .ok (y.goto t (.feed c 2) false)
  | ⟨.feed c i, false⟩ => do
    let y : Sys := { y with fed := y.fed ++ [i] }
    let y ← y.chansendul t c (ulong i) r1 r2
    .ok (y.goto t (.feed c i) true)
  | ⟨.feed c i, true⟩ => .ok (y.goto t (.feed c (i + 1)) false)
  | ⟨.first c, false⟩ => do
    let y ← y.chanrecvul t c r1 r2
    .ok (y.goto t (.first c) true)
  | ⟨.first c, true⟩ =>
    let p := int (y.received t)
    if goal < p then .ok { y with exited := some 0 }
    else do
      let nc := y.nchan
      let y : Sys := { y with out := if quiet = 0 then y.out ++ [.number p] else y.out, nchan := nc + 1 }
      let y ← y.taskcreate a nc
      .ok (y.goto t (.next c nc p) false)
  | ⟨.next c nc p, false⟩ => do
    let y ← y.chanrecvul t c r1 r2
    .ok (y.goto t (.next c nc p) true)
  | ⟨.next c nc p, true⟩ =>
    let i := int (y.received t)
    if p = 0 then .error "division by zero"
    else if i.tmod p ≠ 0 then .ok (y.goto t (.pass c nc p i) false)
    else .ok (y.goto t (.next c nc p) false)
  | ⟨.pass c nc p i, false⟩ => do
    let y ← y.chansendul t nc (ulong i) r1 r2
    .ok (y.goto t (.pass c nc p i) true)
  | ⟨.pass c nc p _, true⟩ => .ok (y.goto t (.next c nc p) false)

inductive Ev where
  | taskscheduler
  | resume
  | run (a r1 r2 : Nat)

/-- Fails where it is another's turn. -/
def Sys.step (goal : Int) (y : Sys) (e : Ev) : Except String Sys :=
  if y.exited ≠ none then .error "exited"
  else
    match e, y.s.g.taskrunning with
    | .taskscheduler, none =>
      if y.s.g.phase = .main ∨ y.s.g.phase = .loop then y.lib .taskscheduler else .error "taskscheduler returned"
    | .resume, some t =>
      if y.s.g.phase = .loop ∧ (y.s.g.task t).pc ≠ .app then y.lib (.resume 0 .eintr 0) else .error "not in a call"
    | .run a r1 r2, some t =>
      if Sched.Runs y.s.g t ∧ y.s.g.live a = false then y.run goal t a r1 r2 else .error "in a call"
    | _, _ => .error "another's turn"

/-! ## Runs -/

/-- Before `main`, with channels of `chancreate(sizeof(unsigned long), buffer)`. -/
def blank (buffer : Int) (junk : Nat → Nat → UInt8) (mem : Nat → UInt8) : State Glob Heap :=
  ⟨Sched.start (fun _ => none) (Chan.start (fun _ => (sizeofUlong, buffer)) junk mem),
    ⟨fun _ => none, fun _ => none, fun _ => ⟨none, none⟩⟩⟩

/-- `main` created `_taskmain`. -/
def main (s : State Glob Heap) : Sys :=
  { s := s, place := fun _ => ⟨.taskmain, false⟩, nchan := 0, out := [], exited := none, fed := [] }

inductive Reach (goal buffer : Int) : Sys → Prop
  | init (junk : Nat → Nat → UInt8) (mem : Nat → UInt8) (a : TaskPtr) (s : State Glob Heap) :
      (Sched.code (.taskcreate a)).onHeap (blank buffer junk mem) = .ok ((), s) → Reach goal buffer (main s)
  | step {y y' : Sys} (e : Ev) : Reach goal buffer y → y.step goal e = .ok y' → Reach goal buffer y'

end Libtask.Primes
