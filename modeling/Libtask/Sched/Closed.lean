/-
  Libtask.Sched.Closed — relations between states that every statement keeps.

  A relation is `Closed` if it holds across each kind of statement: a change of globals that no
  task is in, of what is not a task's name or alarm, a move on or off a list, but for being put
  to sleep, and the end of a task. It then holds across every call but those that create tasks
  or put one to sleep (`Across`), and across every step that creates no task (`across_code`).
-/

import Libtask.Sched.Frames

namespace Libtask.Sched

open Function (update update_self update_of_ne)

/-- Tasks, and the table of them, are the same. -/
structure Same (g g' : Glob) : Prop where
  task : g'.task = g.task
  live : g'.live = g.live
  alltask : g'.alltask = g.alltask
  nalltask : g'.nalltask = g.nalltask
  taskidgen : g'.taskidgen = g.taskidgen
  allocs : g'.allocs = g.allocs

/-- A task but for its state, its `udata` and where it goes on. -/
structure Retains (x y : Task) : Prop where
  alarmtime : y.alarmtime = x.alarmtime
  id : y.id = x.id
  alltaskslot : y.alltaskslot = x.alltaskslot
  startfn : y.startfn = x.startfn

/-- `taskscheduler` frees `t`. -/
def State.free (s : St) (t : TaskPtr) : St :=
  let i := (s.g.task t).alltaskslot
  ((s.modify fun g => { g with
      taskcount := g.taskcount - 1
      nalltask := g.nalltask - 1
      alltask := update g.alltask i (g.alltask (g.nalltask - 1))
      uses := (i, g.allcap) :: (g.nalltask - 1, g.allcap) :: g.uses }).setTask
    (update s.g.alltask i (s.g.alltask (s.g.nalltask - 1)) i) fun x => { x with alltaskslot := i }).modify
    fun g => { g with live := update g.live t false, allocs := .free t :: g.allocs }

structure Closed (R : St → St → Prop) : Prop where
  refl : ∀ s, R s s
  trans : ∀ {s s' s''}, R s s' → R s' s'' → R s s''
  modify : ∀ (s : St) (f : Glob → Glob), Same s.g (f s.g) → R s (s.modify f)
  setTask : ∀ (s : St) (t : TaskPtr) (f : Task → Task), (∀ x, Retains x (f x)) → R s (s.setTask t f)
  add : ∀ (s : St) (l : ListRef) (t : TaskPtr), l ≠ .sleeping → s.m.loc t = none → R s ⟨s.g, s.m.add l t⟩
  del : ∀ (s : St) (l : ListRef) (t : TaskPtr), s.m.loc t = some l → R s ⟨s.g, s.m.del l t⟩
  free : ∀ (s : St) (t : TaskPtr), R s (s.free t)

section
variable {R : St → St → Prop} {α β : Type} {t u : TaskPtr}

/-- `R` holds between the states before and behind `m`. -/
def Across (R : St → St → Prop) (m : Lib α) : Prop := ∀ (s s' : St) (a : α), m.onPlaces s = .ok (a, s') → R s s'

variable (hR : Closed R)
include hR

theorem across_pure (a : α) : Across R (pure a) := by
  intro s s' b hs
  obtain ⟨rfl, rfl⟩ := Prod.mk.inj (Except.ok.inj hs)
  exact hR.refl s

omit hR in
theorem across_abort (why : String) : Across R (abort why : Lib α) := fun _ _ _ hs => nomatch hs

theorem across_bind {m : Lib α} {f : α → Lib β} (hm : Across R m) (hf : ∀ a, Across R (f a)) : Across R (m >>= f) := by
  intro s s' b hs
  obtain ⟨a, s₁, h₁, h₂⟩ := onPlaces_parts hs
  exact hR.trans (hm _ _ _ h₁) (hf a _ _ _ h₂)

omit hR in
theorem across_globals {f : Glob → Lib β} (hf : ∀ g, Across R (f g)) : Across R (globals >>= f) := fun s _ _ hs => hf s.g _ _ _ hs

omit hR in
theorem across_head {l : ListRef} {f : Option TaskPtr → Lib β} (hf : ∀ o, Across R (f o)) : Across R (head l >>= f) :=
  fun s _ _ hs => hf (s.m.q l).head? _ _ _ hs

theorem across_front (l : ListRef) : Across R (head l) := fun _ _ _ hs => by
  obtain ⟨-, rfl⟩ := Prod.mk.inj (Except.ok.inj hs)
  exact hR.refl _

omit hR in
theorem across_running {f : TaskPtr → Lib β} (hf : ∀ t, Across R (f t)) : Across R (running >>= f) := by
  intro s s' b hs
  have hglob : ∀ h : Glob → Lib TaskPtr, ((globals >>= h) >>= f).onPlaces s = (h s.g >>= f).onPlaces s := fun _ => rfl
  rw [running, hglob] at hs
  cases hr : s.g.taskrunning with
  | none => rw [hr] at hs; cases hs
  | some t => rw [hr] at hs; exact hf t _ _ _ hs

theorem across_modify {f : Glob → Glob} (hf : ∀ g, Same g (f g)) : Across R (modify f) := by
  intro s s' b hs
  obtain ⟨-, rfl⟩ := Prod.mk.inj (Except.ok.inj hs)
  exact hR.modify s f (hf s.g)

theorem across_observe (o : Obs) : Across R (observe o) := across_modify hR fun _ => ⟨rfl, rfl, rfl, rfl, rfl, rfl⟩

theorem across_setTask {f : Task → Task} (hf : ∀ x, Retains x (f x)) : Across R (setTask t f) := by
  intro s s' b hs
  obtain ⟨-, rfl⟩ := Prod.mk.inj (Except.ok.inj hs)
  exact hR.setTask s t f hf

theorem across_addtask {l : ListRef} (hl : l ≠ .sleeping) (t : TaskPtr) : Across R (addtask l t) := by
  refine across_bind hR (fun s s' a hs => ?_) fun _ => across_observe hR _
  simp only [Prog.onPlaces] at hs
  split at hs
  · rename_i hloc
    obtain ⟨-, rfl⟩ := Prod.mk.inj (Except.ok.inj hs)
    exact hR.add s l t hl hloc
  · cases hs

theorem across_deltask (l : ListRef) (t : TaskPtr) : Across R (deltask l t) := by
  refine across_bind hR (fun s s' a hs => ?_) fun _ => across_observe hR _
  simp only [Prog.onPlaces] at hs
  split at hs
  · rename_i hloc
    obtain ⟨-, rfl⟩ := Prod.mk.inj (Except.ok.inj hs)
    exact hR.del s l t hloc
  · cases hs

theorem across_loop {c : Nat → Lib (Option TaskPtr)} {b : TaskPtr → Lib Unit} (hc : ∀ i, Across R (c i)) (hb : ∀ u, Across R (b u)) :
    ∀ fuel i, Across R (loop c b fuel i) := by
  intro fuel
  induction fuel with
  | zero =>
    intro i
    refine across_bind hR (hc i) fun o => ?_
    cases o with
    | none => exact across_pure hR i
    | some u => exact across_abort _
  | succ fuel ih =>
    intro i
    refine across_bind hR (hc i) fun o => ?_
    cases o with
    | none => exact across_pure hR i
    | some u => exact across_bind hR (hb u) fun _ => ih (i + 1)

/-! ## task.c -/

theorem across_taskready (u : TaskPtr) : Across R (taskready u) := by
  refine across_globals fun g => ?_
  split
  · exact across_pure hR ()
  · exact across_bind hR (across_setTask hR fun _ => ⟨rfl, rfl, rfl, rfl⟩) fun _ => across_addtask hR (l := .taskrunqueue) nofun u

theorem across_taskswitch (pc : Pc) : Across R (taskswitch pc) := by
  refine across_running fun t => ?_
  refine across_bind hR (across_setTask hR fun _ => ⟨rfl, rfl, rfl, rfl⟩) fun _ => ?_
  refine across_bind hR (across_modify hR fun _ => ⟨rfl, rfl, rfl, rfl, rfl, rfl⟩) fun _ => ?_
  intro s s' b hs
  change Prog.onPlaces (if (s.g.task t).state = .EXITING then _ else pure ()) s = _ at hs
  split at hs
  · obtain ⟨-, rfl⟩ := Prod.mk.inj (Except.ok.inj hs)
    exact hR.free s t
  · exact across_pure hR () _ _ _ hs

theorem across_taskyield (pc : BitVec 32 → Pc) : Across R (taskyield pc) :=
  across_globals fun _ => across_running fun t => across_bind hR (across_taskready hR t) fun _ => across_taskswitch hR _

theorem across_taskexit : Across R taskexit :=
  across_running fun _ => across_bind hR (across_setTask hR fun _ => ⟨rfl, rfl, rfl, rfl⟩) fun _ => across_taskswitch hR _

theorem across_taskscheduler : Across R taskscheduler := by
  refine across_globals fun g => ?_
  split
  · exact across_modify hR fun _ => ⟨rfl, rfl, rfl, rfl, rfl, rfl⟩
  · refine across_head fun o => ?_
    cases o with
    | none => exact across_modify hR fun _ => ⟨rfl, rfl, rfl, rfl, rfl, rfl⟩
    | some u =>
      refine across_bind hR (across_deltask hR _ u) fun _ => ?_
      exact across_bind hR (across_setTask hR fun _ => ⟨rfl, rfl, rfl, rfl⟩) fun _ =>
        across_modify hR fun _ => ⟨rfl, rfl, rfl, rfl, rfl, rfl⟩

/-! ## qlock.c and rendez.c -/

theorem across_setOwner (l : Nat) (o : Option TaskPtr) : Across R (setOwner l o) :=
  across_modify hR fun _ => ⟨rfl, rfl, rfl, rfl, rfl, rfl⟩

theorem across_setRw (l : Nat) (f : RWLock → RWLock) : Across R (setRw l f) :=
  across_modify hR fun _ => ⟨rfl, rfl, rfl, rfl, rfl, rfl⟩

/-- The end of a call of a lock that is not free. -/
theorem across_block {l : ListRef} (hl : l ≠ .sleeping) (t : TaskPtr) (b : Bool) (pc : Pc) :
    Across R (if !b then pure (some 0) else do
      addtask l t
      taskswitch pc
      pure none : Lib (Option Int)) := by
  split
  · exact across_pure hR _
  · exact across_bind hR (across_addtask hR hl t) fun _ => across_bind hR (across_taskswitch hR pc) fun _ => across_pure hR _

theorem across_qlock (l : Nat) (b : Bool) (r : Option Nat) : Across R (_qlock l b r) := by
  refine across_running fun t => across_globals fun g => ?_
  split
  · exact across_bind hR (across_setOwner hR l _) fun _ => across_bind hR (across_observe hR _) fun _ => across_pure hR _
  · exact across_block hR (l := .qwaiting l) nofun t b _

theorem across_qlockresume (l : Nat) : Across R (_qlockresume l) := by
  refine across_running fun t => across_globals fun g => ?_
  split
  · exact across_abort _
  · exact across_pure hR ()

theorem across_qunlock (l : Nat) : Across R (qunlock l) := by
  refine across_running fun t => across_globals fun g => ?_
  split
  · exact across_abort _
  · refine across_bind hR (across_observe hR _) fun _ => across_head fun o => across_bind hR (across_setOwner hR l o) fun _ => ?_
    cases o with
    | none => exact across_pure hR ()
    | some u => exact across_bind hR (across_deltask hR _ u) fun _ => across_taskready hR u

theorem across_rlock (l : Nat) (b : Bool) : Across R (_rlock l b) := by
  refine across_running fun t => across_globals fun g => across_head fun o => ?_
  split
  · exact across_bind hR (across_setRw hR l _) fun _ => across_bind hR (across_observe hR _) fun _ => across_pure hR _
  · exact across_block hR (l := .rwaiting l) nofun t b _

theorem across_wlock (l : Nat) (b : Bool) : Across R (_wlock l b) := by
  refine across_running fun t => across_globals fun g => across_globals fun g' => ?_
  split
  · exact across_bind hR (across_setRw hR l _) fun _ => across_bind hR (across_observe hR _) fun _ => across_pure hR _
  · exact across_block hR (l := .wwaiting l) nofun t b _

theorem across_wgrant (l : Nat) : Across R (wgrant l) := by
  refine across_head fun o => ?_
  cases o with
  | none => exact across_pure hR ()
  | some u =>
    exact across_bind hR (across_deltask hR _ u) fun _ => across_bind hR (across_setRw hR l _) fun _ => across_taskready hR u

/-- A writer gets the lock when there are no readers. -/
theorem across_handover (l : Nat) : Across R (globals >>= fun g => if (g.rw l).readers = 0 then wgrant l else pure ()) := by
  refine across_globals fun g => ?_
  split
  · exact across_wgrant hR l
  · exact across_pure hR ()

theorem across_runlock (l : Nat) : Across R (runlock l) :=
  across_running fun _ => across_bind hR (across_observe hR _) fun _ => across_bind hR (across_setRw hR l _) fun _ =>
    across_handover hR l

theorem across_wunlock (l : Nat) : Across R (wunlock l) := by
  refine across_globals fun g => ?_
  split
  · exact across_abort _
  · refine across_running fun t => across_bind hR (across_observe hR _) fun _ => across_bind hR (across_setRw hR l _) fun _ => ?_
    refine across_globals fun g' => ?_
    split
    · exact across_abort _
    · refine across_globals fun g'' => across_bind hR (across_loop hR (fun _ => ?_) (fun u => ?_) _ _) fun _ => across_handover hR l
      · exact across_front hR _
      · exact across_bind hR (across_deltask hR _ u) fun _ => across_bind hR (across_setRw hR l _) fun _ => across_taskready hR u

theorem across_tasksleep (r : Nat) : Across R (tasksleep r) := by
  refine across_running fun t => across_bind hR (across_observe hR _) fun _ =>
    across_bind hR (across_addtask hR (l := .rendez r) nofun t) fun _ => ?_
  refine across_globals fun g => ?_
  cases g.rendezl r with
  | none => exact across_taskswitch hR _
  | some l => exact across_bind hR (across_qunlock hR l) fun _ => across_taskswitch hR _

theorem across_back (t : TaskPtr) : Across R (setTask t fun x => { x with pc := .app }) :=
  across_setTask hR fun _ => ⟨rfl, rfl, rfl, rfl⟩

theorem across_tasksleepreturn (r : Nat) : Across R (tasksleepreturn r) :=
  across_running fun t => across_bind hR (across_observe hR _) fun _ => across_back hR t

theorem across_tasksleepresume (r : Nat) : Across R (tasksleepresume r) := by
  refine across_globals fun g => ?_
  cases g.rendezl r with
  | none => exact across_tasksleepreturn hR r
  | some l =>
    refine across_bind hR (across_qlock hR l true (some r)) fun o => ?_
    cases o with
    | none => exact across_pure hR ()
    | some v => exact across_tasksleepreturn hR r

theorem across_taskwakeup (r : Nat) (all : Bool) : Across R (_taskwakeup r all) := by
  refine across_globals fun g => across_loop hR (fun i => ?_) (fun u => ?_) _ _
  · unfold sleeper
    split
    · exact across_pure hR none
    · exact across_front hR _
  · exact across_bind hR (across_deltask hR _ u) fun _ => across_taskready hR u

theorem across_answer {m : Lib (Option Int)} (hm : Across R m) : Across R (answer m) := by
  refine across_running fun t => across_bind hR hm fun o => ?_
  cases o with
  | none => exact across_pure hR ()
  | some v => exact across_observe hR _

theorem across_wakeup (r : Nat) (all : Bool) : Across R (wakeup r all) :=
  across_running fun _ => across_bind hR (across_taskwakeup hR r all) fun _ => across_observe hR _

/-! ## channel.c -/

theorem across_chanalt (a : Nat) (xs : List Chan.Alt) (r1 r2 : Nat) : Across R (chanalt a xs r1 r2) := by
  refine across_running fun t => across_globals fun g => ?_
  cases Chan.call g.chan t a xs r1 r2 with
  | error why => exact across_abort why
  | ok x =>
    obtain ⟨c, w, r⟩ := x
    refine across_bind hR (across_modify hR fun _ => ⟨rfl, rfl, rfl, rfl, rfl, rfl⟩) fun _ => ?_
    cases r with
    | none =>
      have hr : Across R (taskswitch (.chanalt a)) := across_taskswitch hR _
      cases w with
      | none => exact hr
      | some u => exact across_bind hR (across_taskready hR u) fun _ => hr
    | some v =>
      have hr : Across R (observe (.ret t v)) := across_observe hR _
      cases w with
      | none => exact hr
      | some u => exact across_bind hR (across_taskready hR u) fun _ => hr

theorem across_chanaltresume (a : Nat) : Across R (chanaltresume a) := by
  refine across_running fun t => across_globals fun g => ?_
  cases Chan.step g.chan (.resume t) with
  | error why => exact across_abort why
  | ok c =>
    cases hr : Chan.chanaltResult c a with
    | none =>
      simp only [hr]
      exact across_abort _
    | some i =>
      simp only [hr]
      exact across_bind hR (across_modify hR fun _ => ⟨rfl, rfl, rfl, rfl, rfl, rfl⟩) fun _ =>
        across_bind hR (across_observe hR _) fun _ => across_back hR t

/-! ## fd.c -/

theorem across_taskdelayresume (now now' : Nat) : Across R (taskdelayresume now now') :=
  across_running fun t => across_bind hR (across_observe hR _) fun _ => across_bind hR (across_observe hR _) fun _ => across_back hR t

theorem across_fdevents (ts : List TaskPtr) : Across R (fdevents ts) := by
  induction ts with
  | nil => exact across_pure hR ()
  | cons u us ih =>
    refine across_bind hR (across_setTask hR fun _ => ⟨rfl, rfl, rfl, rfl⟩) fun _ =>
      across_bind hR (across_deltask hR _ u) fun _ => ?_
    exact across_bind hR (across_observe hR _) fun _ => across_bind hR (across_taskready hR u) fun _ => ih

theorem across_fdwake (err : Int) (u : TaskPtr) : Across R (fdwake err u) := by
  refine across_bind hR (across_deltask hR _ u) fun _ =>
    across_bind hR (across_modify hR fun _ => ⟨rfl, rfl, rfl, rfl, rfl, rfl⟩) fun _ => ?_
  exact across_bind hR (across_setTask hR fun _ => ⟨rfl, rfl, rfl, rfl⟩) fun _ => across_taskready hR u

theorem across_expired (now : Nat) : Across R (expired now) := by
  refine across_head fun o => ?_
  cases o with
  | none => exact across_pure hR none
  | some u =>
    refine across_globals fun g => ?_
    split <;> exact across_pure hR _

theorem across_fdpolled (v : Option Nat) (poll : Poll) (now' : Nat) : Across R (fdpolled v poll now') := by
  cases poll with
  | eintr => exact across_taskyield hR _
  | failed => exact across_modify hR fun _ => ⟨rfl, rfl, rfl, rfl, rfl, rfl⟩
  | events ts =>
    refine across_bind hR (across_fdevents hR ts) fun _ => across_bind hR (across_observe hR _) fun _ => across_globals fun g => ?_
    refine across_bind hR (across_loop hR (fun _ => across_expired hR now') (across_fdwake hR _) _ _) fun _ => ?_
    cases v with
    | none => exact across_taskyield hR _
    | some fn => exact across_globals fun _ => across_bind hR (across_observe hR _) fun _ => across_running fun t => across_back hR t

theorem across_fdpoll (v : Option Nat) (now : Nat) (poll : Poll) (now' : Nat) : Across R (fdpoll v now poll now') := by
  refine across_head fun o => ?_
  cases o with
  | none => exact across_bind hR (across_observe hR _) fun _ => across_fdpolled hR v poll now'
  | some u =>
    refine across_bind hR (across_observe hR _) fun _ => across_globals fun _ => ?_
    exact across_bind hR (across_observe hR _) fun _ => across_fdpolled hR v poll now'

theorem across_fdcallback (v : Option Nat) (r : Int) : Across R (fdcallback v r) := by
  unfold fdcallback
  split
  · refine across_globals fun g => across_bind hR (across_loop hR (fun _ => across_front hR _) (across_fdwake hR _) _ _) fun _ => ?_
    exact across_bind hR (across_modify hR fun _ => ⟨rfl, rfl, rfl, rfl, rfl, rfl⟩) fun _ => across_taskexit hR
  · exact across_taskyield hR _

theorem across_resume (now : Nat) (poll : Poll) (now' : Nat) : Across R (resume now poll now') := by
  refine across_running fun t => across_globals fun g => ?_
  dsimp only
  cases (g.task t).pc with
  | app => exact across_abort _
  | start =>
    cases (g.task t).startfn with
    | app => exact across_back hR t
    | fdtask v => exact across_taskyield hR _
  | parked => exact across_back hR t
  | taskyield n => exact across_bind hR (across_observe hR _) fun _ => across_back hR t
  | qlock l o =>
    cases o with
    | none => exact across_bind hR (across_qlockresume hR l) fun _ => across_back hR t
    | some r => exact across_bind hR (across_qlockresume hR l) fun _ => across_tasksleepreturn hR r
  | rlock l => exact across_back hR t
  | wlock l => exact across_back hR t
  | tasksleep r => exact across_tasksleepresume hR r
  | taskdelay n => exact across_taskdelayresume hR n now
  | fdwait n => exact across_bind hR (across_observe hR _) fun _ => across_back hR t
  | chanalt a => exact across_chanaltresume hR a
  | fdtask v n =>
    show Across R (if 0 < yielded g n then taskyield (.fdtask v) else fdpoll v now poll now')
    split
    · exact across_taskyield hR _
    · exact across_fdpoll hR v now poll now'

/-! ## Steps -/

theorem across_code {e : Ev} (he : e.malloc = none) : Across R (code e) := by
  cases e with
  | taskcreateraw a => cases he
  | taskcreate a => cases he
  | startfdtask fn arg a => cases he
  | taskdelay ms now a => cases he
  | fdwait now a => cases he
  | taskready t => exact across_taskready hR t
  | poke x b => exact across_modify hR fun _ => ⟨rfl, rfl, rfl, rfl, rfl, rfl⟩
  | taskdata data =>
    refine across_running fun t => across_globals fun g => across_bind hR (across_observe hR _) fun _ => ?_
    exact across_setTask hR fun _ => ⟨rfl, rfl, rfl, rfl⟩
  | taskyield => exact across_taskyield hR _
  | taskswitch => exact across_taskswitch hR _
  | taskexit => exact across_taskexit hR
  | qlock l => exact across_answer hR (across_qlock hR l true none)
  | canqlock l => exact across_answer hR (across_qlock hR l false none)
  | qunlock l => exact across_qunlock hR l
  | rlock l => exact across_answer hR (across_rlock hR l true)
  | canrlock l => exact across_answer hR (across_rlock hR l false)
  | runlock l => exact across_runlock hR l
  | wlock l => exact across_answer hR (across_wlock hR l true)
  | canwlock l => exact across_answer hR (across_wlock hR l false)
  | wunlock l => exact across_wunlock hR l
  | tasksleep r => exact across_tasksleep hR r
  | taskwakeup r => exact across_wakeup hR r false
  | taskwakeupall r => exact across_wakeup hR r true
  | chanalt a xs r1 r2 => exact across_chanalt hR a xs r1 r2
  | callback r =>
    refine across_globals fun g => across_running fun t => ?_
    cases (g.task t).startfn with
    | app =>
      exact across_abort _
    | fdtask v =>
      exact across_fdcallback hR v r
  | taskscheduler => exact across_bind hR (across_modify hR fun _ => ⟨rfl, rfl, rfl, rfl, rfl, rfl⟩) fun _ => across_taskscheduler hR
  | resume now poll now' => exact across_resume hR now poll now'

end

end Libtask.Sched
