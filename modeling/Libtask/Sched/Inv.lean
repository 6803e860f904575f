/-
  Libtask.Sched.Inv — what holds between any two steps.

  Of a task: `Good` says where it is (`Status`), by what it is doing. It is freed, running,
  ready and on the run queue, or at rest: in a blocking call, on the list of that call, or
  off all lists in `chanalt`, in its own `taskswitch`, or not started.

  Of the whole: the table `alltask`, the counters, the locks as runs of Libtask.Lib.Mutex and
  Libtask.Lib.RwLock, the channels, and what the history says of the lists (`Moves`,
  `Order`) and of `tasksleep` (`Sound`).
-/

import Libtask.Chan.Runs
import Libtask.Sched.Actions

namespace Libtask.Sched

open Function (update update_self update_of_ne)
open Libtask.Lib
open Libtask.Lib.History (Law select select_cons)

/-! ## One task -/

/-- The list that a task in a blocking call is on. -/
def home : Pc → Option ListRef
  | .qlock l _ => some (.qwaiting l)
  | .rlock l => some (.rwaiting l)
  | .wlock l => some (.wwaiting l)
  | .tasksleep r => some (.rendez r)
  | .taskdelay _ => some .sleeping
  | .fdwait _ => some .sleeping
  | _ => none

/-- A task can be here without being ready or running. -/
def Pc.rests : Pc → Bool
  | .app => false
  | .taskyield _ => false
  | .fdtask _ _ => false
  | _ => true

/-- The array on which a task is in `chanalt`. -/
def Pc.array : Pc → Option Nat
  | .chanalt a => some a
  | _ => none

structure Core where
  live : Bool
  running : Bool
  state : TaskState
  loc : Option ListRef
  pc : Pc
  wait : Option Nat
  woken : Nat

inductive Status (c : Core) : Prop
  | dead : c.live = false → c.running = false → c.loc = none → c.wait = none → Status c
  | running : c.live = true → c.running = true → c.state = .zero → c.loc = none → Status c
  | ready : c.live = true → c.running = false → c.state = .READY → c.loc = some .taskrunqueue → c.pc ≠ .app → Status c
  | resting : c.live = true → c.running = false → c.state = .zero → c.loc = home c.pc → c.pc.rests = true → Status c

structure Good (c : Core) : Prop where
  status : Status c
  wait : c.wait = c.pc.array
  /-- In `chanalt`: not chosen means at rest. -/
  chosen : ∀ a, c.pc = .chanalt a → (c.woken = 0 ↔ c.state = .zero ∧ c.running = false)

def State.core (s : St) (t : TaskPtr) : Core :=
  ⟨s.g.live t, s.g.taskrunning = some t, (s.g.task t).state, s.m.loc t, (s.g.task t).pc, s.g.chan.wait t,
    s.g.chan.woken t⟩

theorem Good.resting {c : Core} (h : Good c) {l : ListRef} (hl : c.loc = some l) (hne : l ≠ .taskrunqueue) :
    c.live = true ∧ c.running = false ∧ c.state = .zero ∧ home c.pc = some l ∧ c.pc.rests = true := by
  cases h.status with
  | dead _ _ h3 _ => rw [hl] at h3; cases h3
  | running _ _ _ h4 => rw [hl] at h4; cases h4
  | ready _ _ _ h4 _ => rw [hl] at h4; exact absurd (Option.some.inj h4) hne
  | resting h1 h2 h3 h4 h5 => exact ⟨h1, h2, h3, h4.symm.trans hl, h5⟩

theorem Good.queued {c : Core} (h : Good c) (hl : c.loc = some .taskrunqueue) :
    c.live = true ∧ c.running = false ∧ c.state = .READY ∧ c.pc ≠ .app := by
  cases h.status with
  | dead _ _ h3 _ => rw [hl] at h3; cases h3
  | running _ _ _ h4 => rw [hl] at h4; cases h4
  | ready h1 h2 h3 _ h5 => exact ⟨h1, h2, h3, h5⟩
  | resting _ _ _ h4 _ =>
    rw [hl] at h4
    cases hpc : c.pc <;> rw [hpc] at h4 <;> simp [home] at h4

theorem Good.live {c : Core} (h : Good c) {l : ListRef} (hl : c.loc = some l) : c.live = true := by
  by_cases hr : l = .taskrunqueue
  · exact (h.queued (hr ▸ hl)).1
  · exact (h.resting hl hr).1

theorem Good.here {c : Core} (h : Good c) (hr : c.running = true) : c.live = true ∧ c.state = .zero ∧ c.loc = none := by
  cases h.status with
  | dead _ h2 _ _ => rw [hr] at h2; cases h2
  | running h1 _ h3 h4 => exact ⟨h1, h3, h4⟩
  | ready _ h2 _ _ _ => rw [hr] at h2; cases h2
  | resting _ h2 _ _ _ => rw [hr] at h2; cases h2

/-! ## The history of the lists -/

/-- How often `t` was taken off list `l` since it was last put on it. -/
def delsSince (l : ListRef) (t : TaskPtr) (log : List Obs) : Nat := (log.takeWhile (· ≠ .add l t)).count (.del l t)

/-- The history says who is on which list: being put on it and being taken off alternate. -/
def Moves (loc : TaskPtr → Option ListRef) (log : List Obs) : Prop :=
  ∀ l t, (loc t = some l → .add l t ∈ log ∧ delsSince l t log = 0) ∧
    (loc t ≠ some l → .add l t ∈ log → delsSince l t log = 1)

theorem delsSince_cons {l : ListRef} {t : TaskPtr} {o : Obs} (h : o ≠ .add l t) (log : List Obs) :
    delsSince l t (o :: log) = delsSince l t log + if o = .del l t then 1 else 0 := by
  by_cases hd : o = .del l t <;> simp [delsSince, h, hd]

theorem moves_quiet {loc : TaskPtr → Option ListRef} {log : List Obs} (hm : Moves loc log) {o : Obs}
    (ha : ∀ l t, o ≠ .add l t) (hd : ∀ l t, o ≠ .del l t) : Moves loc (o :: log) := by
  intro l t
  rw [delsSince_cons (ha l t), if_neg (hd l t)]
  obtain ⟨h1, h2⟩ := hm l t
  refine ⟨fun h => ⟨List.mem_cons_of_mem _ (h1 h).1, (h1 h).2⟩, fun h hmem => h2 h ?_⟩
  exact (List.mem_cons.mp hmem).resolve_left (Ne.symm (ha l t))

theorem moves_add {loc : TaskPtr → Option ListRef} {log : List Obs} (hm : Moves loc log) {l : ListRef} {t : TaskPtr}
    (hl : loc t = none) : Moves (update loc t (some l)) (.add l t :: log) := by
  intro l' t'
  obtain ⟨h1, h2⟩ := hm l' t'
  by_cases ht : t' = t
  · subst ht
    rw [update_self]
    by_cases hll : l' = l
    · subst hll
      exact ⟨fun _ => ⟨List.mem_cons_self, by simp [delsSince]⟩, fun h => absurd rfl h⟩
    · have hne : Obs.add l t' ≠ .add l' t' := fun h => by simp [Ne.symm hll] at h
      rw [delsSince_cons hne, if_neg nofun]
      refine ⟨fun h => absurd (Option.some.inj h).symm hll, fun _ hmem => h2 (by rw [hl]; nofun) ?_⟩
      exact (List.mem_cons.mp hmem).resolve_left (Ne.symm hne)
  · have hne : Obs.add l t ≠ .add l' t' := fun h => by simp [Ne.symm ht] at h
    rw [update_of_ne ht, delsSince_cons hne, if_neg nofun]
    refine ⟨fun h => ⟨List.mem_cons_of_mem _ (h1 h).1, (h1 h).2⟩, fun h hmem => h2 h ?_⟩
    exact (List.mem_cons.mp hmem).resolve_left (Ne.symm hne)

theorem moves_del {loc : TaskPtr → Option ListRef} {log : List Obs} (hm : Moves loc log) {l : ListRef} {t : TaskPtr}
    (hl : loc t = some l) : Moves (update loc t none) (.del l t :: log) := by
  intro l' t'
  obtain ⟨h1, h2⟩ := hm l' t'
  have hmem : ∀ {P : Prop}, (.add l' t' ∈ log → P) → .add l' t' ∈ (Obs.del l t :: log) → P := fun h hm =>
    h ((List.mem_cons.mp hm).resolve_left nofun)
  by_cases ht : t' = t
  · subst ht
    rw [update_self, delsSince_cons (l := l') (t := t') (o := .del l t') nofun]
    refine ⟨nofun, fun _ => hmem ?_⟩
    intro hadd
    by_cases hll : l' = l
    · subst hll
      rw [if_pos rfl, (h1 hl).2]
    · have hne : Obs.del l t' ≠ .del l' t' := fun h => by simp [Ne.symm hll] at h
      rw [if_neg hne]
      exact h2 (fun h => hll (Option.some.inj (h.symm.trans hl))) hadd
  · have hne : Obs.del l t ≠ .del l' t' := fun h => by simp [Ne.symm ht] at h
    rw [update_of_ne ht, delsSince_cons (l := l') (t := t') (o := .del l t) nofun, if_neg hne]
    exact ⟨fun h => ⟨List.mem_cons_of_mem _ (h1 h).1, (h1 h).2⟩, fun h => hmem fun hadd => h2 h hadd⟩

/-! ## The order of the lists -/

def putOn (l : ListRef) : Obs → Option TaskPtr
  | .add l' t => if l' = l then some t else none
  | _ => none

def takenOff (l : ListRef) : Obs → Option TaskPtr
  | .del l' t => if l' = l then some t else none
  | _ => none

/-- Every list but the sleeping list is first in, first out. -/
def Order (q : ListRef → List TaskPtr) (log : List Obs) : Prop :=
  ∀ l, l ≠ .sleeping → select (putOn l) log = select (takenOff l) log ++ q l

section
variable {q : ListRef → List TaskPtr} {log : List Obs}

theorem order_quiet (h : Order q log) {o : Obs} (ha : ∀ l t, o ≠ .add l t) (hd : ∀ l t, o ≠ .del l t) :
    Order q (o :: log) := by
  intro l hl
  have h1 : putOn l o = none := by
    cases o with
    | add l' t => exact absurd rfl (ha l' t)
    | _ => rfl
  have h2 : takenOff l o = none := by
    cases o with
    | del l' t => exact absurd rfl (hd l' t)
    | _ => rfl
  rw [select_cons, select_cons, h1, h2, h l hl]
  simp

theorem order_add (h : Order q log) (l : ListRef) (t : TaskPtr) :
    Order (update q l (q l ++ [t])) (.add l t :: log) := by
  intro l' hl'
  rw [select_cons, select_cons, h l' hl']
  by_cases hl : l' = l
  · subst hl
    simp [putOn, takenOff]
  · simp [putOn, takenOff, hl, Ne.symm hl]

theorem order_del (h : Order q log) {l : ListRef} {t : TaskPtr} (ht : (q l).head? = some t) :
    Order (update q l ((q l).erase t)) (.del l t :: log) := by
  intro l' hl'
  rw [select_cons, select_cons, h l' hl']
  by_cases hl : l' = l
  · subst hl
    cases hq : q l' with
    | nil => rw [hq] at ht; cases ht
    | cons u us =>
      rw [hq] at ht
      obtain rfl : u = t := Option.some.inj ht
      simp [putOn, takenOff]
  · simp [putOn, takenOff, hl, Ne.symm hl]

theorem order_sleeping (h : Order q log) {o : Obs} {t : TaskPtr} (ho : o = .add .sleeping t ∨ o = .del .sleeping t)
    (xs : List TaskPtr) : Order (update q .sleeping xs) (o :: log) := by
  intro l hl
  rw [select_cons, select_cons, h l hl, update_of_ne hl]
  rcases ho with rfl | rfl <;> simp [putOn, takenOff, Ne.symm hl]

end

/-! ## The history of `tasksleep` -/

/-- `tasksleep` is called with the lock held, and its `addtask` comes next. At its return the
    task was woken once since, and has the lock. -/
def Entry (rendezl : Nat → Option Nat) (o : Obs) (log : List Obs) : Prop :=
  (∀ r t, log.head? = some (.tasksleep r t) → o = .add (.rendez r) t) ∧
  (∀ r t, o = .tasksleep r t → ∀ l, rendezl r = some l → Mutex.holders (log.filterMap (qEv l)) = [t]) ∧
  ∀ r t, o = .slept r t → .add (.rendez r) t ∈ log ∧ delsSince (.rendez r) t log = 1 ∧
    ∀ l, rendezl r = some l → Mutex.holders (log.filterMap (qEv l)) = [t]

structure Sound (rendezl : Nat → Option Nat) (log : List Obs) : Prop where
  law : Law (Entry rendezl) log
  done : ∀ r t, log.head? ≠ some (.tasksleep r t)

theorem sound_cons {rendezl : Nat → Option Nat} {log : List Obs} (h : Sound rendezl log) {o : Obs}
    (h1 : ∀ r t, o ≠ .tasksleep r t) (h2 : ∀ r t, o ≠ .slept r t) : Sound rendezl (o :: log) where
  law := ⟨⟨fun r t he => absurd he (h.done r t), fun r t he => absurd he (h1 r t), fun r t he => absurd he (h2 r t)⟩,
    h.law⟩
  done r t he := h1 r t (Option.some.inj he)

theorem sound_tasksleep {rendezl : Nat → Option Nat} {log : List Obs} (h : Sound rendezl log) {r : Nat} {t : TaskPtr}
    (hl : ∀ l, rendezl r = some l → Mutex.holders (log.filterMap (qEv l)) = [t]) :
    Sound rendezl (.add (.rendez r) t :: .tasksleep r t :: log) where
  law := by
    refine ⟨⟨?_, nofun, nofun⟩, ⟨fun r' t' he => absurd he (h.done r' t'), ?_, nofun⟩, h.law⟩
    · intro r' t' he
      cases he; rfl
    · intro r' t' he
      cases he; exact hl
  done r' t' he := by cases he

theorem sound_slept {rendezl : Nat → Option Nat} {log : List Obs} (h : Sound rendezl log) {r : Nat} {t : TaskPtr}
    (ha : .add (.rendez r) t ∈ log) (hd : delsSince (.rendez r) t log = 1)
    (hl : ∀ l, rendezl r = some l → Mutex.holders (log.filterMap (qEv l)) = [t]) :
    Sound rendezl (.slept r t :: log) where
  law := by
    refine ⟨⟨fun r' t' he => absurd he (h.done r' t'), nofun, ?_⟩, h.law⟩
    intro r' t' he
    cases he
    exact ⟨ha, hd, hl⟩
  done r' t' he := by cases he

/-! ## The locks -/

structure Locks where
  q : Nat → Mutex.St TaskPtr
  rw : Nat → RwLock.St TaskPtr
  readers : Nat → Int

/-- What a task that blocked on a lock has: a place in its queue, or the lock. -/
def Has (v : Locks) (t : TaskPtr) : Pc → Prop
  | .qlock l _ => t ∈ (v.q l).waiting ∨ (v.q l).owner = some t
  | .rlock l => t ∈ (v.rw l).rq ∨ t ∈ (v.rw l).held
  | .wlock l => t ∈ (v.rw l).wq ∨ (v.rw l).writer = some t
  | _ => True

/-- The locks are as some run of theirs leaves them. -/
structure LocksOk (v : Locks) (pc : TaskPtr → Pc) : Prop where
  q : ∀ l, Mutex.Reach (v.q l)
  rw : ∀ l, RwLock.Reach (v.rw l)
  readers : ∀ l, v.readers l = (v.rw l).held.length
  has : ∀ t, Has v t (pc t)

def State.locks (s : St) : Locks where
  q l := ⟨s.g.owner l, s.m.q (.qwaiting l), s.g.qlog l⟩
  rw l := ⟨RwLock.readers (s.g.rwlog l), (s.g.rw l).writer, s.m.q (.rwaiting l), s.m.q (.wwaiting l), s.g.rwlog l⟩
  readers l := (s.g.rw l).readers

def State.pc (s : St) (t : TaskPtr) : Pc := (s.g.task t).pc

/-! ## The whole -/

/-- `alltask` lists the tasks, each in the slot that it names. -/
structure Slots (g : Glob) : Prop where
  live : ∀ t, g.live t = true ↔ ∃ i < g.nalltask, g.alltask i = t
  slot : ∀ i < g.nalltask, (g.task (g.alltask i)).alltaskslot = i

/-- `alltask` has room for the tasks and had it for each use, in steps of 1024, and the tasks are what is
    allocated. -/
structure Registry (g : Glob) : Prop where
  steps : 1024 ∣ g.allcap
  room : g.nalltask ≤ g.allcap
  uses : ∀ x ∈ g.uses, x.1 < x.2
  valid : Alloc.Valid g.allocs
  allocated : ∀ t, Alloc.Allocated g.allocs t ↔ g.live t = true

theorem Registry.same {g g' : Glob} (h : Registry g) (hc : g'.allcap = g.allcap) (hn : g'.nalltask = g.nalltask)
    (hu : g'.uses = g.uses) (ha : g'.allocs = g.allocs) (hl : g'.live = g.live) : Registry g' where
  steps := hc ▸ h.steps
  room := by rw [hn, hc]; exact h.room
  uses := hu ▸ h.uses
  valid := ha ▸ h.valid
  allocated t := by rw [ha, hl]; exact h.allocated t

def Obs.isEvent : Obs → Bool
  | .event _ => true
  | _ => false

/-- Who is in a blocking call was put on the list of the call. In `tasksleep(r)`'s `_qlock`
    it was on the list of `r` before, and the lock is that of `r`. -/
def Asked (g : Glob) (t : TaskPtr) (k : Pc) : Prop :=
  (∀ l, home k = some l → .add l t ∈ g.log) ∧
  ∀ l r, k = .qlock l (some r) → g.rendezl r = some l ∧ .add (.rendez r) t ∈ g.log

structure Base (s : St) : Prop where
  slots : Slots s.g
  registry : Registry s.g
  count : s.g.taskcount = s.g.nalltask + (if s.g.sleepingcounted = 0 then 0 else 1)
  sleepers : s.g.sleepingcounted = (s.m.q .sleeping).length + s.g.log.countP Obs.isEvent
  moves : Moves s.m.loc s.g.log
  order : Order s.m.q s.g.log
  asked : ∀ t, Asked s.g t (s.pc t)
  sound : Sound s.g.rendezl s.g.log

structure Tasks (s : St) : Prop where
  base : Base s
  good : ∀ t, Good (s.core t)
  chan : Chan.Inv s.g.chan

structure Inv (s : St) : Prop extends Tasks s where
  locks : LocksOk s.locks s.pc

end Libtask.Sched
