/-
  Libtask.Sched.Machine — the steps of a program that uses the library, in any order.

  A step runs to the next `taskswitch` or return: a call that the running task (or the
  main program, before `taskscheduler`) makes, what a resumed task still has to do in its
  call (`resume`), or a turn of the scheduler. `Enabled` says when a step can be: locks are released
  by who has them, `tasksleep` is called with the lock held, epoll has events for tasks
  whose `fdwait` nothing has ended yet, one for each, and the application readies only tasks
  of its own, that it created with `taskcreateraw` or that called `taskswitch`.

  `Reach` is the program on the links, `PReach` the one on the places.
-/

import Libtask.Lib.Mutex
import Libtask.Lib.RwLock
import Libtask.Sched.Fd

namespace Libtask.Sched

open Function (update)
open Libtask.Lib

/-! ## Channels -/

def chanalt (a : Nat) (xs : List Chan.Alt) (r1 r2 : Nat) : Lib Unit := do
  let t ← running
  match Chan.call (← globals).chan t a xs r1 r2 with
  | .error why => abort why
  | .ok (c, w, r) => do
    modify fun g => { g with chan := c }
    match w with
    | some u => taskready u
    | none => pure ()
    match r with
    | some v => observe (.ret t v)
    | none => taskswitch (.chanalt a)

def chanaltresume (a : Nat) : Lib Unit := do
  let t ← running
  match Chan.step (← globals).chan (.resume t) with
  | .error why => abort why
  | .ok c =>
    match Chan.chanaltResult c a with
    | none => abort "xalt is not in the array"
    | some i => do
      modify fun g => { g with chan := c }
      observe (.ret t i)
      setTask t fun x => { x with pc := .app }

/-! ## Steps -/

/-- What the resumed task does up to the application's code or its next `taskswitch`. -/
def resume (now : Nat) (poll : Poll) (now' : Nat) : Lib Unit := do
  let t ← running
  let g ← globals
  let x := g.task t
  let back := setTask t fun x => { x with pc := .app }
  match x.pc with
  | .app => abort "not in a call"
  | .start =>
    match x.startfn with
    | .app => back
    | .fdtask v => taskyield (.fdtask v)
  | .parked => back
  | .taskyield n => do
    observe (.ret t (yielded g n))
    back
  | .qlock l none => do
    _qlockresume l
    back
  | .qlock l (some r) => do
    _qlockresume l
    tasksleepreturn r
  | .rlock _ => back
  | .wlock _ => back
  | .tasksleep r => tasksleepresume r
  | .taskdelay n => taskdelayresume n now
  | .fdwait _ => do
    observe (.nsec now)
    back
  | .chanalt a => chanaltresume a
  | .fdtask v n => if 0 < yielded g n then taskyield (.fdtask v) else fdpoll v now poll now'

inductive Ev where
  | taskcreateraw (a : TaskPtr)
  | taskcreate (a : TaskPtr)
  | startfdtask (fn : Option Nat) (arg : Nat) (a : TaskPtr)
  | taskready (t : TaskPtr)
  | poke (x : Nat) (b : UInt8)
  | taskdata (data : Int)
  | taskyield
  | taskswitch
  | taskexit
  | taskdelay (ms now : Nat) (a : TaskPtr)
  | fdwait (now : Nat) (a : TaskPtr)
  | qlock (l : Nat)
  | canqlock (l : Nat)
  | qunlock (l : Nat)
  | rlock (l : Nat)
  | canrlock (l : Nat)
  | runlock (l : Nat)
  | wlock (l : Nat)
  | canwlock (l : Nat)
  | wunlock (l : Nat)
  | tasksleep (r : Nat)
  | taskwakeup (r : Nat)
  | taskwakeupall (r : Nat)
  | chanalt (a : Nat) (xs : List Chan.Alt) (r1 r2 : Nat)
  /-- The callback returns `r` to the `fdtask`. -/
  | callback (r : Int)
  | taskscheduler
  | resume (now : Nat) (poll : Poll) (now' : Nat)

/-- A call that may block, and the value it returns when it does not. -/
def answer (m : Lib (Option Int)) : Lib Unit := do
  let t ← running
  match ← m with
  | some v => observe (.ret t v)
  | none => pure ()

def wakeup (r : Nat) (all : Bool) : Lib Unit := do
  let t ← running
  let n ← _taskwakeup r all
  observe (.ret t n)

def code : Ev → Lib Unit
  | .taskcreateraw a => taskcreateraw .app a
  | .taskcreate a => taskcreate .app a
  | .startfdtask fn arg a => startfdtask fn arg a
  | .taskready t => taskready t
  | .poke x b => modify fun g => { g with chan := { g.chan with mem := update g.chan.mem x b } }
  | .taskdata data => do
    let t ← running
    observe (.ret t ((← globals).task t).udata)
    setTask t fun x => { x with udata := data }
  | .taskyield => taskyield .taskyield
  | .taskswitch => taskswitch .parked
  | .taskexit => taskexit
  | .taskdelay ms now a => taskdelay ms now a (.taskdelay now)
  | .fdwait now a => fdwait now a
  | .qlock l => answer (_qlock l true none)
  | .canqlock l => answer (_qlock l false none)
  | .qunlock l => qunlock l
  | .rlock l => answer (_rlock l true)
  | .canrlock l => answer (_rlock l false)
  | .runlock l => runlock l
  | .wlock l => answer (_wlock l true)
  | .canwlock l => answer (_wlock l false)
  | .wunlock l => wunlock l
  | .tasksleep r => tasksleep r
  | .taskwakeup r => wakeup r false
  | .taskwakeupall r => wakeup r true
  | .chanalt a xs r1 r2 => chanalt a xs r1 r2
  | .callback r => do
    match ((← globals).task (← running)).startfn with
    | .fdtask v => fdcallback v r
    | .app => abort "not the fdtask"
  | .taskscheduler => do
    modify fun g => { g with phase := .loop }
    taskscheduler
  | .resume now poll now' => resume now poll now'

/-! ## When a step can be -/

/-- The events of QLock `l`. -/
def qEv (l : Nat) : Obs → Option (Mutex.Ev TaskPtr)
  | .qgot l' t => if l' = l then some (.got t) else none
  | .add (.qwaiting l') t => if l' = l then some (.wait t) else none
  | .del (.qwaiting l') t => if l' = l then some (.grant t) else none
  | .qunlock l' t => if l' = l then some (.release t) else none
  | _ => none

/-- The events of RWLock `l`. -/
def rwEv (l : Nat) : Obs → Option (RwLock.Ev TaskPtr)
  | .rgot l' t => if l' = l then some (.rgot t) else none
  | .wgot l' t => if l' = l then some (.wgot t) else none
  | .add (.rwaiting l') t => if l' = l then some (.rwait t) else none
  | .add (.wwaiting l') t => if l' = l then some (.wwait t) else none
  | .del (.rwaiting l') t => if l' = l then some (.rgrant t) else none
  | .del (.wwaiting l') t => if l' = l then some (.wgrant t) else none
  | .runlock l' t => if l' = l then some (.rdone t) else none
  | .wunlock l' t => if l' = l then some (.wdone t) else none
  | _ => none

def Glob.qlog (g : Glob) (l : Nat) : List (Mutex.Ev TaskPtr) := g.log.filterMap (qEv l)

def Glob.rwlog (g : Glob) (l : Nat) : List (RwLock.Ev TaskPtr) := g.log.filterMap (rwEv l)

/-- The application runs, in task `t`. -/
def Runs (g : Glob) (t : TaskPtr) : Prop := g.phase = .loop ∧ g.taskrunning = some t ∧ (g.task t).pc = .app

instance (g : Glob) (t : TaskPtr) : Decidable (Runs g t) := inferInstanceAs (Decidable (_ ∧ _ ∧ _))

/-- The application runs, in a task or before the scheduler. -/
def Outside (g : Glob) : Prop := g.phase = .main ∨ ∃ t, Runs g t

/-- `t` is in `fdwait`, and neither an event nor the time ended it. -/
def Registered (g : Glob) (t : TaskPtr) : Prop :=
  g.live t = true ∧ (∃ n, (g.task t).pc = .fdwait n) ∧ (g.task t).state = .zero ∧ g.taskrunning ≠ some t

/-- `t` is the application's to ready: not started, or in its own `taskswitch`. -/
def Parked (g : Glob) (t : TaskPtr) : Prop :=
  ((g.task t).pc = .start ∨ (g.task t).pc = .parked) ∧ g.taskrunning ≠ some t

def Enabled (g : Glob) : Ev → Prop
  | .taskcreateraw a => Outside g ∧ g.live a = false
  | .taskcreate a => Outside g ∧ g.live a = false
  | .startfdtask _ _ a => Outside g ∧ g.live a = false
  | .taskready t => Outside g ∧ g.live t = true ∧ ((g.task t).state = .READY ∨ Parked g t)
  | .poke _ _ => Outside g
  | .taskdelay _ _ a => (∃ t, Runs g t) ∧ g.live a = false
  | .fdwait _ a => (∃ t, Runs g t) ∧ g.live a = false
  | .qunlock l => ∃ t, Runs g t ∧ t ∈ Mutex.holders (g.qlog l)
  | .runlock l => ∃ t, Runs g t ∧ t ∈ RwLock.readers (g.rwlog l)
  | .wunlock l => ∃ t, Runs g t ∧ t ∈ RwLock.writers (g.rwlog l)
  | .tasksleep r => ∃ t, Runs g t ∧ ∀ l, g.rendezl r = some l → t ∈ Mutex.holders (g.qlog l)
  | .chanalt a xs r1 r2 => ∃ t, Runs g t ∧ Chan.Enabled g.chan (.call t a xs r1 r2)
  | .callback _ => ∃ t, Runs g t ∧ ∃ fn, (g.task t).startfn = .fdtask (some fn)
  | .taskscheduler => (g.phase = .main ∨ g.phase = .loop) ∧ g.taskrunning = none
  | .resume _ poll _ => g.phase = .loop ∧ (∃ t, g.taskrunning = some t ∧ (g.task t).pc ≠ .app) ∧
      ∀ ts, poll = .events ts → ts.Nodup ∧ ∀ t ∈ ts, Registered g t
  | _ => ∃ t, Runs g t

/-- Zeroed locks and lists, and channels that `chancreate` can have made. -/
def start (rendezl : Nat → Option Nat) (chan : Chan.St) : Glob :=
  { taskcount := 0
    tasknswitch := 0
    taskrunning := none
    alltask := fun _ => 0
    allcap := 0
    nalltask := 0
    taskidgen := 0
    sleepingcounted := 0
    startedfdtask := false
    pool_loop_fn := none
    pool_loop_arg := 0
    task := fun _ =>
      { alarmtime := 0, id := 0, state := .zero, alltaskslot := 0, startfn := .app, udata := 0, pc := .start }
    live := fun _ => false
    owner := fun _ => none
    rw := fun _ => ⟨0, none⟩
    rendezl := rendezl
    chan := chan
    phase := .main
    log := []
    allocs := []
    uses := [] }

inductive Reach : State Glob Heap → Prop
  | init (rendezl : Nat → Option Nat) (size : Nat → Int × Int) (junk : Nat → Nat → UInt8) (mem : Nat → UInt8) :
      Chan.SizesOk size →
      Reach ⟨start rendezl (Chan.start size junk mem), ⟨fun _ => none, fun _ => none, fun _ => ⟨none, none⟩⟩⟩
  | step {s s' : State Glob Heap} (e : Ev) : Reach s → Enabled s.g e → (code e).onHeap s = .ok ((), s') → Reach s'

inductive PReach : State Glob Places → Prop
  | init (rendezl : Nat → Option Nat) (size : Nat → Int × Int) (junk : Nat → Nat → UInt8) (mem : Nat → UInt8) :
      Chan.SizesOk size → PReach ⟨start rendezl (Chan.start size junk mem), Places.empty⟩
  | step {s s' : State Glob Places} (e : Ev) : PReach s → Enabled s.g e → (code e).onPlaces s = .ok ((), s') → PReach s'

end Libtask.Sched
