/-
  Libtask.Sched.Fd — the sleeping list, `taskdelay`, `fdwait` and the `fdtask` (fd.c, the
  Linux part).

  The clock's readings (`nsec`) and what `epoll_wait` returns are inputs. `fdwait` is its
  `taskdelay(30000)`: the registration with epoll is in place while `pc` is `fdwait`.
  `size_t` arithmetic wraps at 64 bits (`u64`).
-/

import Libtask.Sched.Locks

namespace Libtask.Sched

def u64 (n : Nat) : Nat := n % 2 ^ 64

def LIBTASK_TIMEOUT : Int := 1989

def EIO : Int := 5

/-- `a` is what `malloc` returns if it is called. -/
def _startfdtask (a : TaskPtr) : Lib Unit := do
  if (← globals).startedfdtask then pure ()
  else do
    modify fun g => { g with startedfdtask := true }
    taskcreate (.fdtask (← globals).pool_loop_fn) a

def startfdtask (fn : Option Nat) (arg : Nat) (a : TaskPtr) : Lib Unit := do
  modify fun g => { g with pool_loop_arg := arg, pool_loop_fn := fn }
  _startfdtask a

/-- `taskdelay` up to its `taskswitch`; `pc` is where the task goes on. -/
def taskdelay (ms now : Nat) (a : TaskPtr) (pc : Pc) : Lib Unit := do
  _startfdtask a
  observe (.nsec now)
  let when := u64 (now + ms * 1000000)
  let t ← running
  let g ← globals
  Prog.insert .sleeping t (fun u => when ≤ (g.task u).alarmtime) g.nalltask (.pure ())
  observe (.add .sleeping t)
  setTask t fun x => { x with alarmtime := when }
  modify fun g => { g with
    taskcount := if g.sleepingcounted = 0 then g.taskcount + 1 else g.taskcount
    sleepingcounted := g.sleepingcounted + 1 }
  taskswitch pc

/-- `taskdelay` returns; `now` is its first reading of the clock. -/
def taskdelayresume (now now' : Nat) : Lib Unit := do
  let t ← running
  observe (.nsec now')
  observe (.ret t (u64 (now' + 2 ^ 64 - now) / 1000000))
  setTask t fun x => { x with pc := .app }

def fdwait (now : Nat) (a : TaskPtr) : Lib Unit := do
  _startfdtask a
  taskdelay 30000 now a (.fdwait now)

/-! ## `fdtask` -/

/-- What `epoll_wait` does: EINTR, another error, or these tasks have events. -/
inductive Poll where
  | eintr
  | failed
  | events (ts : List TaskPtr)
  deriving DecidableEq, Repr

/-- The timeout for `epoll_wait`, by the alarm of the first sleeping task. -/
def pollms (now alarmtime : Nat) : Nat :=
  if alarmtime ≤ now then 0
  else if 20 * 1000 * 1000 < alarmtime - now then 20
  else (alarmtime - now) / 1000000

def fdevents : List TaskPtr → Lib Unit
  | [] => pure ()
  | t :: ts => do
    setTask t fun x => { x with udata := 0 }
    deltask .sleeping t
    observe (.event t)
    taskready t
    fdevents ts

/-- The body of the loops that wake sleeping tasks for a timeout and at the shutdown. -/
def fdwake (err : Int) (t : TaskPtr) : Lib Unit := do
  deltask .sleeping t
  modify fun g => { g with
    sleepingcounted := g.sleepingcounted - 1
    taskcount := if g.sleepingcounted - 1 = 0 then g.taskcount - 1 else g.taskcount }
  setTask t fun x => { x with udata := err }
  taskready t

/-- `(t = sleeping.head) && now >= t->alarmtime`. -/
def expired (now : Nat) : Lib (Option TaskPtr) := do
  match ← head .sleeping with
  | some t => if ((← globals).task t).alarmtime ≤ now then pure (some t) else pure none
  | none => pure none

/-- One turn of `fdtask`'s loop from behind `epoll_wait` up to the callback, or up to the next
    `taskyield`. -/
def fdpolled (v : Option Nat) (poll : Poll) (now' : Nat) : Lib Unit := do
  match poll with
  | .eintr => taskyield (.fdtask v)
  | .failed => modify fun g => { g with phase := .exited }
  | .events ts => do
    fdevents ts
    observe (.nsec now')
    let _ ← loop (fun _ => expired now') (fdwake LIBTASK_TIMEOUT) (← globals).nalltask 0
    match v with
    | some fn => do
      observe (.callback fn (← globals).pool_loop_arg)
      setTask (← running) fun x => { x with pc := .app }
    | none => taskyield (.fdtask v)

/-- The same from behind the `taskyield`s. -/
def fdpoll (v : Option Nat) (now : Nat) (poll : Poll) (now' : Nat) : Lib Unit := do
  match ← head .sleeping with
  | none => observe (.epoll_wait 0)
  | some t => do
    observe (.nsec now)
    observe (.epoll_wait (pollms now ((← globals).task t).alarmtime))
  fdpolled v poll now'

/-- `fdtask(v)` goes on after the callback returned `r`. -/
def fdcallback (v : Option Nat) (r : Int) : Lib Unit := do
  if r = -1 then do
    let _ ← loop (fun _ => head .sleeping) (fdwake EIO) (← globals).nalltask 0
    modify fun g => { g with startedfdtask := false }
    taskexit
  else taskyield (.fdtask v)

end Libtask.Sched
