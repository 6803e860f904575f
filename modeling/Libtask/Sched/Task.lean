/-
  Libtask.Sched.Task — tasks and the scheduler (task.c).

  `Glob` is the library's memory but for the links: its globals, the `Task` records, the
  locks, the channels, and the history `log`, which no code reads. A task's stack and
  context are one thing here, where it goes on (`Pc`): in a library call, or in the code
  of the application. Of the memory of tasks and of `alltask` there is a history too: the
  calls of `malloc` and `free`, and the slots that were used.

  `taskswitch` is one step of `taskscheduler`'s loop seen from the task: it gives up the
  processor, and the scheduler frees it when it is exiting. The loop up to the context
  switch is `taskscheduler`.

  `malloc` returns an address that the event brings. `int` counters are integers, but
  `_tasknswitch` and `taskidgen`, which wrap.
-/

import Libtask.Lib.Alloc
import Libtask.Sched.Prog

namespace Libtask.Sched

open Function (update)
open Libtask.Lib

inductive TaskState where
  | zero
  | READY
  | EXITING
  deriving DecidableEq, Repr

/-- Where a task goes on: in a call, whose saved locals are given. -/
inductive Pc where
  /-- At its function's first instruction. -/
  | start
  /-- In the application's code; in the callback when the task is the `fdtask`. -/
  | app
  /-- In the application's own `taskswitch`. -/
  | parked
  | taskyield (n : BitVec 32)
  /-- In `_qlock`, called by `tasksleep(r)` in the case of `some r`. -/
  | qlock (l : Nat) (r : Option Nat)
  | rlock (l : Nat)
  | wlock (l : Nat)
  | tasksleep (r : Nat)
  | taskdelay (now : Nat)
  | fdwait (now : Nat)
  | chanalt (a : Nat)
  /-- In the `taskyield` of `fdtask(v)`'s loop. -/
  | fdtask (v : Option Nat) (n : BitVec 32)
  deriving DecidableEq, Repr

/-- `startfn`: a function of the application, or `fdtask` with its argument. -/
inductive StartFn where
  | app
  | fdtask (v : Option Nat)
  deriving DecidableEq, Repr

structure Task where
  alarmtime : Nat
  id : BitVec 64
  state : TaskState
  alltaskslot : Nat
  startfn : StartFn
  udata : Int
  pc : Pc
  deriving DecidableEq, Repr

structure RWLock where
  readers : Int
  writer : Option TaskPtr
  deriving DecidableEq, Repr

/-- History, newest first. -/
inductive Obs where
  | add (l : ListRef) (t : TaskPtr)
  | del (l : ListRef) (t : TaskPtr)
  /-- A lock that was obtained at once. -/
  | qgot (l : Nat) (t : TaskPtr)
  | rgot (l : Nat) (t : TaskPtr)
  | wgot (l : Nat) (t : TaskPtr)
  /-- A call of an unlock. -/
  | qunlock (l : Nat) (t : TaskPtr)
  | runlock (l : Nat) (t : TaskPtr)
  | wunlock (l : Nat) (t : TaskPtr)
  /-- A call of `tasksleep(r)`, and its return. -/
  | tasksleep (r : Nat) (t : TaskPtr)
  | slept (r : Nat) (t : TaskPtr)
  /-- The `fdtask` woke `t` for an event. -/
  | event (t : TaskPtr)
  /-- A reading of the clock, and a call of `epoll_wait` with its timeout. -/
  | nsec (now : Nat)
  | epoll_wait (ms : Nat)
  /-- The `fdtask` called its callback `fn(arg)`. -/
  | callback (fn arg : Nat)
  /-- A value that a library call returned to `t`. -/
  | ret (t : TaskPtr) (v : Int)
  deriving DecidableEq, Repr

inductive Phase where
  /-- Before `taskscheduler`. -/
  | main
  | loop
  /-- `taskscheduler` left its loop: nothing to wait for, or no runnable tasks. -/
  | finished
  | stalled
  /-- The process called `exit`. -/
  | exited
  deriving DecidableEq, Repr

structure Glob where
  taskcount : Int
  tasknswitch : BitVec 32
  taskrunning : Option TaskPtr
  alltask : Nat → TaskPtr
  /-- The slots `alltask` has room for. -/
  allcap : Nat
  nalltask : Nat
  taskidgen : BitVec 32
  sleepingcounted : Int
  startedfdtask : Bool
  pool_loop_fn : Option Nat
  pool_loop_arg : Nat
  task : TaskPtr → Task
  /-- Allocated and not freed. -/
  live : TaskPtr → Bool
  owner : Nat → Option TaskPtr
  rw : Nat → RWLock
  /-- The lock of each Rendez, which nothing changes. -/
  rendezl : Nat → Option Nat
  chan : Chan.St
  phase : Phase
  log : List Obs
  /-- For tasks, newest first. -/
  allocs : List (Alloc.Call TaskPtr)
  /-- The slots of `alltask` that were read or written, each with the room it had. -/
  uses : List (Nat × Nat)

abbrev Lib := Prog Glob

/-! ## Statements -/

def globals : Lib Glob := .get .pure

def modify (f : Glob → Glob) : Lib Unit := .get fun g => .put (f g) (.pure ())

def abort {α : Type} (why : String) : Lib α := .abort why

def Glob.setTask (g : Glob) (t : TaskPtr) (f : Task → Task) : Glob := { g with task := update g.task t (f (g.task t)) }

def Glob.observe (g : Glob) (o : Obs) : Glob := { g with log := o :: g.log }

def setTask (t : TaskPtr) (f : Task → Task) : Lib Unit := modify (·.setTask t f)

def observe (o : Obs) : Lib Unit := modify (·.observe o)

/-- `taskrunning`, where the code uses it. -/
def running : Lib TaskPtr := do
  match (← globals).taskrunning with
  | some t => pure t
  | none => abort "taskrunning is NULL"

def head (l : ListRef) : Lib (Option TaskPtr) := .head l .pure

def addtask (l : ListRef) (t : TaskPtr) : Lib Unit := do
  Prog.add l t (.pure ())
  observe (.add l t)

def deltask (l : ListRef) (t : TaskPtr) : Lib Unit := do
  Prog.del l t (.pure ())
  observe (.del l t)

/-- `for(i = …; (t = c(i)) != NULL; i++) body(t)`; the value is the last `i`. -/
def loop (c : Nat → Lib (Option TaskPtr)) (body : TaskPtr → Lib Unit) : (fuel i : Nat) → Lib Nat
  | 0, i => do
    match ← c i with
    | none => pure i
    | some _ => abort "out of fuel"
  | fuel + 1, i => do
    match ← c i with
    | none => pure i
    | some t => do
      body t
      loop c body fuel (i + 1)

/-! ## task.c -/

def taskready (t : TaskPtr) : Lib Unit := do
  if ((← globals).task t).state = .READY then pure ()
  else do
    setTask t fun x => { x with state := .READY }
    addtask .taskrunqueue t

def free (t : TaskPtr) : Lib Unit :=
  modify fun g => { g with live := update g.live t false, allocs := .free t :: g.allocs }

def taskswitch (pc : Pc) : Lib Unit := do
  let t ← running
  setTask t fun x => { x with pc := pc }
  -- the scheduler goes on
  modify fun g => { g with taskrunning := none }
  if ((← globals).task t).state = .EXITING then do
    let i := ((← globals).task t).alltaskslot
    modify fun g => { g with
      taskcount := g.taskcount - 1
      nalltask := g.nalltask - 1
      alltask := update g.alltask i (g.alltask (g.nalltask - 1))
      uses := (i, g.allcap) :: (g.nalltask - 1, g.allcap) :: g.uses }
    setTask ((← globals).alltask i) fun x => { x with alltaskslot := i }
    free t
  else pure ()

/-- `malloc` returned `t`. -/
def taskalloc (fn : StartFn) (t : TaskPtr) : Lib Unit := do
  Prog.clear t (.pure ())
  modify fun g => { g with live := update g.live t true, allocs := .malloc t :: g.allocs, taskidgen := g.taskidgen + 1 }
  let id := (← globals).taskidgen.signExtend 64
  setTask t fun _ =>
    { alarmtime := 0, id := id, state := .zero, alltaskslot := 0, startfn := fn, udata := 0, pc := .start }

def taskcreateraw (fn : StartFn) (t : TaskPtr) : Lib Unit := do
  taskalloc fn t
  modify fun g => { g with
    taskcount := g.taskcount + 1
    allcap := if g.nalltask % 1024 = 0 then g.nalltask + 1024 else g.allcap }
  let n := (← globals).nalltask
  setTask t fun x => { x with alltaskslot := n }
  modify fun g => { g with alltask := update g.alltask n t, nalltask := n + 1, uses := (n, g.allcap) :: g.uses }

def taskcreate (fn : StartFn) (t : TaskPtr) : Lib Unit := do
  taskcreateraw fn t
  taskready t

/-- `taskyield` up to its `taskswitch`, after which `pc` goes on. -/
def taskyield (pc : BitVec 32 → Pc) : Lib Unit := do
  let n := (← globals).tasknswitch
  taskready (← running)
  taskswitch (pc n)

/-- The value `taskyield` returns, as an `int`. -/
def yielded (g : Glob) (n : BitVec 32) : Int := (g.tasknswitch - n - 1).toInt

def taskexit : Lib Unit := do
  setTask (← running) fun x => { x with state := .EXITING }
  taskswitch .app

def taskscheduler : Lib Unit := do
  if (← globals).taskcount = 0 then modify fun g => { g with phase := .finished }
  else
    match ← head .taskrunqueue with
    | none => modify fun g => { g with phase := .stalled }
    | some t => do
      deltask .taskrunqueue t
      setTask t fun x => { x with state := .zero }
      modify fun g => { g with taskrunning := some t, tasknswitch := g.tasknswitch + 1 }

/-- `while(nalltask > 0) free(alltask[--nalltask])`. -/
def freetasks : (fuel : Nat) → Lib Unit
  | 0 => do
    if 0 < (← globals).nalltask then abort "out of fuel" else pure ()
  | fuel + 1 => do
    if 0 < (← globals).nalltask then do
      modify fun g => { g with nalltask := g.nalltask - 1, uses := (g.nalltask - 1, g.allcap) :: g.uses }
      free ((← globals).alltask (← globals).nalltask)
      freetasks fuel
    else pure ()

/-- `taskscheduler` behind its loop. -/
def taskschedulerend : Lib Unit := do
  freetasks (← globals).nalltask
  modify fun g => { g with allcap := 0 }

end Libtask.Sched
