/-
  Libtask.Chan.Chan — channels and `chanalt` (channel.c), over any number of tasks.

  A channel is a ring of `bufsize` slots of `elemsize` bytes and two arrays of waiting
  alternatives, `asend` and `arecv`. `chanalt` is given an array of alternatives that a
  CHANEND (may block) or CHANNOBLK entry ends. It runs one executable alternative, picked
  by `rand`, or, when there is none and it may block, queues every alternative on its
  channel and leaves. Whoever later runs an operation that a queued alternative matches
  copies the data, takes all the alternatives of that task off their channels and readies
  the task, which then returns the index that `a[0].xalt` names.

  The state is what that code reads and writes: the channels, the alternatives' memory
  (arrays by address) and the tasks' memory. `wait` says in which array's `chanalt` a task
  is blocked and `woken` how often `taskready` was called for it since. The outcomes of
  `rand` come with the event. The remaining fields are history, which no code reads.

  Tasks are cooperative: a `chanalt` call up to its `taskswitch` is one step (`call`),
  what it does when it is switched to again another (`resume`). Between calls a task
  writes its own memory (`poke`).

  `unsigned int` arithmetic wraps at 32 bits (`u32`). A failed assertion, an `abort` and
  a use of the buffer of an unbuffered channel (a division by `bufsize`) are errors.
-/

import Mathlib.Logic.Function.Basic
import Libtask.Lib.Lists
import Libtask.Lib.Ring

namespace Libtask

/-- The address of a `Task`. -/
abbrev TaskPtr := Nat

def u32 (n : Nat) : Nat := n % 2 ^ 32

end Libtask

namespace Libtask.Chan

open Function (update)
open Libtask.Lib.Lists
open Libtask.Lib.Ring

inductive AltOp where
  | CHANEND
  | CHANSND
  | CHANRCV
  | CHANNOP
  | CHANNOBLK
  deriving DecidableEq, Repr

/-- An `Alt*`: the array it points into and the index there. -/
structure AltPtr where
  arr : Nat
  i : Nat
  deriving DecidableEq, Repr

def AltPtr.next (p : AltPtr) : AltPtr := ⟨p.arr, p.i + 1⟩

structure Alt where
  c : Nat
  v : Option Nat
  op : AltOp
  task : Option TaskPtr
  xalt : Option AltPtr
  deriving DecidableEq, Repr

/-- The first `n` slots of an `Altarray`'s `a`, and its capacity. -/
structure Altarray where
  a : List AltPtr
  m : Nat
  deriving DecidableEq, Repr

structure Channel where
  bufsize : Nat
  elemsize : Nat
  buf : Nat → UInt8
  nbuf : Nat
  off : Nat
  asend : Altarray
  arecv : Altarray

/-- A `void*`: into a task's memory, or into the buffer of channel `c`. -/
inductive Ptr where
  | user (a : Nat)
  | buf (c o : Nat)
  deriving DecidableEq, Repr

/-- History: the send that an alternative stands for, with the task, its how-manieth
    `chanalt` call, and the value at the call. -/
structure Sent where
  task : TaskPtr
  call : Nat
  val : List UInt8
  deriving DecidableEq, Repr

structure St where
  chan : Nat → Channel
  alt : Nat → List Alt
  mem : Nat → UInt8
  wait : TaskPtr → Option Nat
  woken : TaskPtr → Nat
  /-- History: the `chanalt` calls of each task. -/
  calls : TaskPtr → Nat
  /-- History: what each alternative of the latest call on its array sends. -/
  offer : AltPtr → Sent
  /-- History: the alternatives of an array that ran since `chanalt` was called on it. -/
  ran : Nat → List Nat
  /-- History: the sends committed on each channel, in order. -/
  sent : Nat → List Sent
  /-- History: the values delivered by receives on each channel, in order. -/
  rcvd : Nat → List (List UInt8)

def chancreate (elemsize bufsize : Int) (junk : Nat → UInt8) : Channel :=
  { bufsize := (bufsize % 2 ^ 32).toNat, elemsize := (elemsize % 2 ^ 32).toNat, buf := junk,
    nbuf := 0, off := 0, asend := ⟨[], 0⟩, arecv := ⟨[], 0⟩ }

def St.setChan (s : St) (c : Nat) (ch : Channel) : St := { s with chan := update s.chan c ch }

/-- `*p`. -/
def St.deref (s : St) (p : AltPtr) : Alt := ((s.alt p.arr)[p.i]?).getD ⟨0, none, .CHANEND, none, none⟩

/-! ## The waiting arrays -/

def addarray (ar : Altarray) (p : AltPtr) : Altarray :=
  { a := ar.a ++ [p], m := if ar.a.length = ar.m then ar.m + 16 else ar.m }

/-- `--a->n; a->a[i] = a->a[a->n]`. -/
def delarray (ar : Altarray) (i : Nat) : Altarray := { ar with a := swapRemove ar.a i }

/-- `CHANSND+CHANRCV-op`; for the ops other than these two it only matters that
    `chanarray` has no array for the result. -/
def otherop : AltOp → AltOp
  | .CHANSND => .CHANRCV
  | .CHANRCV => .CHANSND
  | .CHANEND => .CHANNOP
  | .CHANNOP => .CHANEND
  | .CHANNOBLK => .CHANNOBLK

def chanarray (ch : Channel) : AltOp → Option Altarray
  | .CHANSND => some ch.asend
  | .CHANRCV => some ch.arecv
  | _ => none

/-- A store through the pointer `chanarray` returns. -/
def setarray (ch : Channel) (op : AltOp) (ar : Altarray) : Channel :=
  match op with
  | .CHANSND => { ch with asend := ar }
  | .CHANRCV => { ch with arecv := ar }
  | _ => ch

def altcanexec (s : St) (a : Alt) : Bool :=
  if a.op = .CHANNOP then false
  else
    let ch := s.chan a.c
    if ch.bufsize = 0 then
      match chanarray ch (otherop a.op) with
      | some ar => ar.a.length != 0
      | none => false
    else
      match a.op with
      | .CHANSND => ch.nbuf < ch.bufsize
      | .CHANRCV => 0 < ch.nbuf
      | _ => false

def altqueue (s : St) (p : AltPtr) : Except String St :=
  let a := s.deref p
  match chanarray (s.chan a.c) a.op with
  | some ar => .ok (s.setChan a.c (setarray (s.chan a.c) a.op (addarray ar p)))
  | none => .error "addarray of NULL"

def altdequeue (s : St) (p : AltPtr) : Except String St :=
  let a := s.deref p
  match chanarray (s.chan a.c) a.op with
  | none => .error "bad use of altdequeue"
  | some ar =>
    match ar.a.findIdx? (· = p) with
    | some i => .ok (s.setChan a.c (setarray (s.chan a.c) a.op (delarray ar i)))
    | none => .error "cannot find self in altdq"

def isEnd (a : Alt) : Bool := a.op = .CHANEND || a.op = .CHANNOBLK

/-- The loops `for(i=0; a[i].op!=CHANEND && a[i].op!=CHANNOBLK; i++) if(a[i].op != CHANNOP)`:
    `f` on each alternative, where `xs` is what is in memory from `p` on. -/
def eachAlt (f : St → AltPtr → Except String St) (s : St) (p : AltPtr) : List Alt → Except String St
  | [] => .error "alternatives without end"
  | x :: xs =>
    if isEnd x then .ok s
    else if x.op = .CHANNOP then eachAlt f s p.next xs
    else do
      let s ← f s p
      eachAlt f s p.next xs

def altalldequeue (s : St) (a : AltPtr) : Except String St :=
  eachAlt altdequeue s a ((s.alt a.arr).drop a.i)

/-! ## Moving data -/

def St.read (s : St) (n : Nat) : Ptr → List UInt8
  | .user a => slice s.mem a n
  | .buf c o => slice (s.chan c).buf o n

def St.write (s : St) (bs : List UInt8) : Ptr → St
  | .user a => { s with mem := blit s.mem a bs }
  | .buf c o => s.setChan c { s.chan c with buf := blit (s.chan c).buf o bs }

/-- What `amove` stores: a NULL source stands for zeros. -/
def St.source (s : St) (n : Nat) : Option Ptr → List UInt8
  | none => List.replicate n 0
  | some p => s.read n p

def amove (s : St) (dst src : Option Ptr) (n : Nat) : St :=
  match dst with
  | some d => s.write (s.source n src) d
  | none => s

/-- History: `r` received `bs`, of which its memory shows what arrived there. -/
def St.noteRcvd (s : St) (c : Nat) (r : AltPtr) (bs : List UInt8) : St :=
  { s with
    rcvd := update s.rcvd c (s.rcvd c ++ [match (s.deref r).v with | some a => slice s.mem a bs.length | none => bs])
    ran := update s.ran r.arr (s.ran r.arr ++ [r.i]) }

/-- History: the send that `p` stands for is committed. -/
def St.noteSent (s : St) (c : Nat) (p : AltPtr) : St :=
  { s with sent := update s.sent c (s.sent c ++ [s.offer p]), ran := update s.ran p.arr (s.ran p.arr ++ [p.i]) }

/-- The channel is empty or unbuffered: straight from sender to receiver. -/
def copyDirect (s : St) (c : Nat) (p r : AltPtr) : St :=
  let n := (s.chan c).elemsize
  let src := (s.deref p).v.map .user
  ((amove s ((s.deref r).v.map .user) src n).noteRcvd c r (s.source n src)).noteSent c p

/-- The block `if(r)`: out of the ring's first slot. -/
def copyOut (s : St) (c : Nat) (r : AltPtr) : St :=
  let n := (s.chan c).elemsize
  let cp := Ptr.buf c (u32 ((s.chan c).off * n))
  let t := (amove s ((s.deref r).v.map .user) (some cp) n).noteRcvd c r (s.read n cp)
  let ch := t.chan c
  let off := u32 (ch.off + 1)
  t.setChan c { ch with nbuf := u32 (ch.nbuf + (2 ^ 32 - 1)), off := if off = ch.bufsize then 0 else off }

/-- The block `if(s)`: into the slot after the last one. -/
def copyIn (s : St) (c : Nat) (p : AltPtr) : St :=
  let ch := s.chan c
  let cp := Ptr.buf c (u32 (u32 (ch.off + ch.nbuf) % ch.bufsize * ch.elemsize))
  let t := (amove s (some cp) ((s.deref p).v.map .user) ch.elemsize).noteSent c p
  let ch := t.chan c
  t.setChan c { ch with nbuf := u32 (ch.nbuf + 1) }

def copyBuffered (s : St) (c : Nat) (p r : Option AltPtr) : Except String St :=
  if (s.chan c).bufsize = 0 then .error "buffer of an unbuffered channel"
  else
    let s := match r with | some r => copyOut s c r | none => s
    .ok (match p with | some p => copyIn s c p | none => s)

def altcopy (s : St) (p r : Option AltPtr) : Except String St :=
  match p, r with
  | none, none => .ok s
  | none, some _ => .error "assert: s != NULL"
  | some a, b =>
    let c := (s.deref a).c
    let pr := if (s.deref a).op = .CHANRCV then (b, some a) else (some a, b)
    if pr.1.any fun p => (s.deref p).op ≠ .CHANSND then .error "assert: s->op == CHANSND"
    else if pr.2.any fun r => (s.deref r).op ≠ .CHANRCV then .error "assert: r->op == CHANRCV"
    else
      match pr with
      | (some p, some r) =>
        if (s.chan c).nbuf = 0 then .ok (copyDirect s c p r) else copyBuffered s c (some p) (some r)
      | (p, r) => copyBuffered s c p r

/-! ## `chanalt` -/

def setXalt (s : St) (p other : AltPtr) : St :=
  { s with alt := update s.alt p.arr ((s.alt p.arr).modify p.i fun x => { x with xalt := some other }) }

/-- Run the alternative `a`; `rnd` is what `rand` returns. The task to be readied, if any,
    is the second result. -/
def altexec (s : St) (a : AltPtr) (rnd : Nat) : Except String (St × Option TaskPtr) :=
  match chanarray (s.chan (s.deref a).c) (otherop (s.deref a).op) with
  | some ar =>
    match ar.a[rnd % ar.a.length]? with
    | some other => do
      let s ← altcopy s (some a) (some other)
      match (s.deref other).xalt with
      | none => .error "NULL xalt"
      | some x =>
        let s ← altalldequeue s x
        .ok (setXalt s x other, (s.deref other).task)
    | none => do
      let s ← altcopy s (some a) none
      .ok (s, none)
  | none => do
    let s ← altcopy s (some a) none
    .ok (s, none)

/-- The number of alternatives before the end. -/
def altlen (xs : List Alt) : Nat := xs.findIdx isEnd

/-- The second pass over the alternatives: the `j`-th that can run. -/
def pick (can : Alt → Bool) (j : Nat) : List Alt → Option Nat
  | [] => none
  | x :: xs =>
    if can x then
      if j = 0 then some 0 else (pick can (j - 1) xs).map (· + 1)
    else (pick can j xs).map (· + 1)

/-- The loop that sets `task` and `xalt` of each alternative. -/
def own (t : TaskPtr) (a : Nat) (xs : List Alt) : List Alt :=
  (xs.take (altlen xs)).map (fun x => { x with task := some t, xalt := some ⟨a, 0⟩ }) ++ xs.drop (altlen xs)

/-- `chanalt(a)` in task `t` up to its return or its `taskswitch`: the new state, the task
    it readied, and the index it returns (`none` when it blocks). `r1` and `r2` are what
    `rand` returns in `chanalt` and in `altexec`. -/
def chanalt (s : St) (t : TaskPtr) (a r1 r2 : Nat) : Except String (St × Option TaskPtr × Option Int) :=
  let xs := s.alt a
  let n := altlen xs
  let canblock := (s.deref ⟨a, n⟩).op = .CHANEND
  let s := { s with alt := update s.alt a (own t a xs) }
  let alts := (s.alt a).take n
  let ncan := alts.countP (altcanexec s)
  match if ncan ≠ 0 then pick (altcanexec s) (r1 % ncan) alts else none with
  | some i => do
    let r ← altexec s ⟨a, i⟩ r2
    .ok (r.1, r.2, some i)
  | none =>
    if ¬ canblock then .ok (s, none, some (-1))
    else do
      let s ← eachAlt altqueue s ⟨a, 0⟩ (s.alt a)
      .ok (s, none, none)

/-- What a resumed `chanalt(a)` returns: `a[0].xalt - a`. -/
def chanaltResult (s : St) (a : Nat) : Option Nat :=
  match (s.deref ⟨a, 0⟩).xalt with
  | some x => if x.arr = a then some x.i else none
  | none => none

/-- The array that `_chanop` passes to `chanalt`. -/
def _chanop (c : Nat) (op : AltOp) (p : Option Nat) (canblock : Bool) : List Alt :=
  [⟨c, p, op, none, none⟩, ⟨0, none, if canblock then .CHANEND else .CHANNOBLK, none, none⟩]

def chansend (c : Nat) (v : Option Nat) : List Alt := _chanop c .CHANSND v true
def channbsend (c : Nat) (v : Option Nat) : List Alt := _chanop c .CHANSND v false
def chanrecv (c : Nat) (v : Option Nat) : List Alt := _chanop c .CHANRCV v true
def channbrecv (c : Nat) (v : Option Nat) : List Alt := _chanop c .CHANRCV v false

/-! ## Runs -/

inductive Ev where
  /-- Task `t` fills the array `a` with `xs` and calls `chanalt(a)`. -/
  | call (t : TaskPtr) (a : Nat) (xs : List Alt) (r1 r2 : Nat)
  /-- The readied task `t` goes on after its `taskswitch`. -/
  | resume (t : TaskPtr)
  /-- A task stores `b` at `x`. -/
  | poke (x : Nat) (b : UInt8)

/-- History at the start of a call: its number, and the value of each of its sends. -/
def enter (s : St) (t : TaskPtr) (a : Nat) (xs : List Alt) : St :=
  { s with
    alt := update s.alt a xs
    calls := update s.calls t (s.calls t + 1)
    offer := fun p =>
      if p.arr = a then
        let x := (xs[p.i]?).getD ⟨0, none, .CHANEND, none, none⟩
        ⟨t, s.calls t + 1, s.source (s.chan x.c).elemsize (x.v.map .user)⟩
      else s.offer p
    ran := update s.ran a [] }

/-- A task not blocked in `chanalt` calls it on an array that no blocked task waits on and
    that has an end; a task blocked in it goes on only after it was readied. -/
def Enabled (s : St) : Ev → Prop
  | .call t a xs _ _ => s.wait t = none ∧ (∀ u, s.wait u ≠ some a) ∧ altlen xs < xs.length
  | .resume t => (s.wait t).isSome ∧ s.woken t ≠ 0
  | .poke _ _ => True

/-- `taskready` of the task that `altexec` chose. -/
def wake (s : St) : Option TaskPtr → St
  | some u => { s with woken := update s.woken u (s.woken u + 1) }
  | none => s

/-- A `chanalt` call with its control effects, and what it hands to the scheduler. -/
def call (s : St) (t : TaskPtr) (a : Nat) (xs : List Alt) (r1 r2 : Nat) :
    Except String (St × Option TaskPtr × Option Int) := do
  let (s, w, ret) ← chanalt (enter s t a xs) t a r1 r2
  let s := wake s w
  match ret with
  | some _ => .ok (s, w, ret)
  | none => .ok ({ s with wait := update s.wait t (some a), woken := update s.woken t 0 }, w, ret)

def step (s : St) : Ev → Except String St
  | .call t a xs r1 r2 => (call s t a xs r1 r2).map (·.1)
  | .resume t => .ok { s with wait := update s.wait t none }
  | .poke x b => .ok { s with mem := update s.mem x b }

/-- Any channels that `chancreate` can have made, and any memory. -/
def start (size : Nat → Int × Int) (junk : Nat → Nat → UInt8) (mem : Nat → UInt8) : St :=
  { chan := fun c => chancreate (size c).1 (size c).2 (junk c)
    alt := fun _ => []
    mem := mem
    wait := fun _ => none
    woken := fun _ => 0
    calls := fun _ => 0
    offer := fun _ => ⟨0, 0, []⟩
    ran := fun _ => []
    sent := fun _ => []
    rcvd := fun _ => [] }

/-- `int` arguments of `chancreate` that are not negative. -/
def SizesOk (size : Nat → Int × Int) : Prop :=
  ∀ c, 0 ≤ (size c).1 ∧ (size c).1 < 2 ^ 31 ∧ 0 ≤ (size c).2 ∧ (size c).2 < 2 ^ 31

inductive Reach : St → Prop
  | init (size : Nat → Int × Int) (junk : Nat → Nat → UInt8) (mem : Nat → UInt8) : SizesOk size →
      Reach (start size junk mem)
  | step {s s' : St} (e : Ev) : Reach s → Enabled s e → step s e = .ok s' → Reach s'

end Libtask.Chan
