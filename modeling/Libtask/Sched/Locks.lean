/-
  Libtask.Sched.Locks — QLock, RWLock (qlock.c) and Rendez (rendez.c).

  A function that blocks is cut at its `taskswitch`: `_qlock`, `_rlock`, `_wlock` and
  `tasksleep` run up to it, and the functions named `…resume` run the rest. `none` is a
  call that blocks; otherwise the value is what the C function returns.
-/

import Libtask.Sched.Task

namespace Libtask.Sched

open Function (update)

def setOwner (l : Nat) (t : Option TaskPtr) : Lib Unit := modify fun g => { g with owner := update g.owner l t }

def setRw (l : Nat) (f : RWLock → RWLock) : Lib Unit := modify fun g => { g with rw := update g.rw l (f (g.rw l)) }

/-! ## QLock -/

/-- `r` is the Rendez whose `tasksleep` makes the call, if any. -/
def _qlock (l : Nat) (block : Bool) (r : Option Nat) : Lib (Option Int) := do
  let t ← running
  if (← globals).owner l = none then do
    setOwner l (some t)
    observe (.qgot l t)
    pure (some 1)
  else if !block then pure (some 0)
  else do
    addtask (.qwaiting l) t
    taskswitch (.qlock l r)
    pure none

def _qlockresume (l : Nat) : Lib Unit := do
  let t ← running
  if (← globals).owner l ≠ some t then abort "qlock: oops"
  else pure ()

def qunlock (l : Nat) : Lib Unit := do
  let t ← running
  if (← globals).owner l = none then abort "qunlock: owner=0"
  else do
    observe (.qunlock l t)
    let ready ← head (.qwaiting l)
    setOwner l ready
    match ready with
    | some u => do
      deltask (.qwaiting l) u
      taskready u
    | none => pure ()

/-! ## RWLock -/

def _rlock (l : Nat) (block : Bool) : Lib (Option Int) := do
  let t ← running
  if ((← globals).rw l).writer = none ∧ (← head (.wwaiting l)) = none then do
    setRw l fun x => { x with readers := x.readers + 1 }
    observe (.rgot l t)
    pure (some 1)
  else if !block then pure (some 0)
  else do
    addtask (.rwaiting l) t
    taskswitch (.rlock l)
    pure none

def _wlock (l : Nat) (block : Bool) : Lib (Option Int) := do
  let t ← running
  if ((← globals).rw l).writer = none ∧ ((← globals).rw l).readers = 0 then do
    setRw l fun x => { x with writer := some t }
    observe (.wgot l t)
    pure (some 1)
  else if !block then pure (some 0)
  else do
    addtask (.wwaiting l) t
    taskswitch (.wlock l)
    pure none

/-- The part that `runlock` and `wunlock` share: the first waiting writer gets the lock. -/
def wgrant (l : Nat) : Lib Unit := do
  match ← head (.wwaiting l) with
  | some u => do
    deltask (.wwaiting l) u
    setRw l fun x => { x with writer := some u }
    taskready u
  | none => pure ()

def runlock (l : Nat) : Lib Unit := do
  observe (.runlock l (← running))
  setRw l fun x => { x with readers := x.readers - 1 }
  if ((← globals).rw l).readers = 0 then wgrant l else pure ()

/-- The body of `wunlock`'s loop over the waiting readers. -/
def rgrant (l : Nat) (u : TaskPtr) : Lib Unit := do
  deltask (.rwaiting l) u
  setRw l fun x => { x with readers := x.readers + 1 }
  taskready u

def wunlock (l : Nat) : Lib Unit := do
  if ((← globals).rw l).writer = none then abort "wunlock: not locked"
  else do
    observe (.wunlock l (← running))
    setRw l fun x => { x with writer := none }
    if ((← globals).rw l).readers ≠ 0 then abort "wunlock: readers"
    else do
      let _ ← loop (fun _ => head (.rwaiting l)) (rgrant l) (← globals).nalltask 0
      if ((← globals).rw l).readers = 0 then wgrant l else pure ()

/-! ## Rendez -/

def tasksleep (r : Nat) : Lib Unit := do
  let t ← running
  observe (.tasksleep r t)
  addtask (.rendez r) t
  match (← globals).rendezl r with
  | some l => qunlock l
  | none => pure ()
  taskswitch (.tasksleep r)

/-- `tasksleep` returns. -/
def tasksleepreturn (r : Nat) : Lib Unit := do
  let t ← running
  observe (.slept r t)
  setTask t fun x => { x with pc := .app }

/-- `tasksleep` behind its `taskswitch`. -/
def tasksleepresume (r : Nat) : Lib Unit := do
  match (← globals).rendezl r with
  | some l =>
    match ← _qlock l true (some r) with
    | some _ => tasksleepreturn r
    | none => pure ()
  | none => tasksleepreturn r

/-- The conditions of `_taskwakeup`'s loop. -/
def sleeper (r : Nat) (all : Bool) (i : Nat) : Lib (Option TaskPtr) :=
  if i = 1 ∧ !all then pure none else head (.rendez r)

def wakesleeper (r : Nat) (u : TaskPtr) : Lib Unit := do
  deltask (.rendez r) u
  taskready u

def _taskwakeup (r : Nat) (all : Bool) : Lib Nat := do
  loop (sleeper r all) (wakesleeper r) (← globals).nalltask 0

end Libtask.Sched
