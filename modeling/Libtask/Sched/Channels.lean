/-
  Libtask.Sched.Channels — the channels under the scheduler.

  The channels by themselves are a machine (Libtask.Chan): tasks call `chanalt` and store to memory,
  and one that was chosen returns. Here they are a part of the library. `chan_step`: each step of the
  library is one of theirs, or leaves them as they are. A task is resumed in `chanalt` only when it was
  chosen, as nothing else readies it.

  `channels_run`: so the channels of every run are in a run of their own, of the calls, returns and
  stores in it. What holds of that machine holds of the library.
-/

import Libtask.Chan.Fifo
import Libtask.Sched.Chans

namespace Libtask.Sched

open Function (update)

/-! ## What leaves the channels -/

section
variable {α β : Type}

/-- `m` leaves the channels, and the memory of the application. -/
def Spares (m : Lib α) : Prop := ∀ g : Glob, m.All (fun _ g' => g'.chan = g.chan) g

theorem spares_bind {m : Lib α} {f : α → Lib β} (h : Spares m) (h' : ∀ a, Spares (f a)) : Spares (m >>= f) := by
  intro g
  rw [all_bind]
  exact all_mono (fun a g₁ h₁ => all_mono (fun _ g₂ h₂ => h₂.trans h₁) (h' a g₁)) (h g)

theorem spares_pure (a : α) : Spares (pure a : Lib α) := fun _ => rfl

theorem spares_abort (why : String) : Spares (abort why : Lib α) := fun _ => trivial

theorem spares_globals : Spares globals := fun _ => rfl

theorem spares_head (l : ListRef) : Spares (head l) := fun _ _ => rfl

theorem spares_modify {f : Glob → Glob} (h : ∀ g, (f g).chan = g.chan) : Spares (modify f) := h

theorem spares_observe (o : Obs) : Spares (observe o) := fun _ => rfl

theorem spares_setTask (t : TaskPtr) (f : Task → Task) : Spares (setTask t f) := fun _ => rfl

theorem spares_addtask (l : ListRef) (t : TaskPtr) : Spares (addtask l t) := fun _ => rfl

theorem spares_deltask (l : ListRef) (t : TaskPtr) : Spares (deltask l t) := fun _ => rfl

theorem spares_running : Spares running := by
  refine spares_bind spares_globals fun g => ?_
  cases g.taskrunning with
  | none => exact spares_abort _
  | some t => exact spares_pure t

theorem spares_loop {c : Nat → Lib (Option TaskPtr)} {b : TaskPtr → Lib Unit} (hc : ∀ i, Spares (c i)) (hb : ∀ u, Spares (b u)) :
    ∀ fuel i, Spares (loop c b fuel i) := by
  intro fuel
  induction fuel with
  | zero =>
    intro i
    refine spares_bind (hc i) fun o => ?_
    cases o with
    | none => exact spares_pure i
    | some u => exact spares_abort _
  | succ fuel ih =>
    intro i
    refine spares_bind (hc i) fun o => ?_
    cases o with
    | none => exact spares_pure i
    | some u => exact spares_bind (hb u) fun _ => ih (i + 1)

/-! ## task.c -/

theorem spares_taskready (u : TaskPtr) : Spares (taskready u) := by
  refine spares_bind spares_globals fun g => ?_
  split
  · exact spares_pure ()
  · exact spares_bind (spares_setTask u _) fun _ => spares_addtask _ u

theorem spares_taskswitch (pc : Pc) : Spares (taskswitch pc) := fun _ => taskswitch_chan pc

theorem spares_taskyield (pc : BitVec 32 → Pc) : Spares (taskyield pc) :=
  spares_bind spares_globals fun _ => spares_bind spares_running fun t => spares_bind (spares_taskready t) fun _ =>
    spares_taskswitch _

theorem spares_taskexit : Spares taskexit :=
  spares_bind spares_running fun t => spares_bind (spares_setTask t _) fun _ => spares_taskswitch _

theorem spares_taskcreateraw (fn : StartFn) (a : TaskPtr) : Spares (taskcreateraw fn a) := fun g =>
  all_taskcreateraw (s := ⟨g, Places.empty⟩) rfl

theorem spares_taskcreate (fn : StartFn) (a : TaskPtr) : Spares (taskcreate fn a) :=
  spares_bind (spares_taskcreateraw fn a) fun _ => spares_taskready a

theorem spares_taskscheduler : Spares taskscheduler := by
  refine spares_bind spares_globals fun g => ?_
  split
  · exact spares_modify fun _ => rfl
  · refine spares_bind (spares_head _) fun o => ?_
    cases o with
    | none => exact spares_modify fun _ => rfl
    | some t =>
      exact spares_bind (spares_deltask _ t) fun _ => spares_bind (spares_setTask t _) fun _ => spares_modify fun _ => rfl

/-! ## qlock.c and rendez.c -/

/-- The end of a call of a lock that is not free. -/
theorem spares_block (l : ListRef) (t : TaskPtr) (b : Bool) (pc : Pc) : Spares (if !b then pure (some 0) else do
      addtask l t
      taskswitch pc
      pure none : Lib (Option Int)) := by
  split
  · exact spares_pure _
  · exact spares_bind (spares_addtask l t) fun _ => spares_bind (spares_taskswitch pc) fun _ => spares_pure _

theorem spares_setRw (l : Nat) (f : RWLock → RWLock) : Spares (setRw l f) := spares_modify fun _ => rfl

theorem spares_setOwner (l : Nat) (o : Option TaskPtr) : Spares (setOwner l o) := spares_modify fun _ => rfl

theorem spares_qlock (l : Nat) (b : Bool) (r : Option Nat) : Spares (_qlock l b r) := by
  refine spares_bind spares_running fun t => spares_bind spares_globals fun g => ?_
  split
  · exact spares_bind (spares_setOwner l _) fun _ => spares_bind (spares_observe _) fun _ => spares_pure _
  · exact spares_block _ t b _

theorem spares_qlockresume (l : Nat) : Spares (_qlockresume l) := by
  refine spares_bind spares_running fun t => spares_bind spares_globals fun g => ?_
  split
  · exact spares_abort _
  · exact spares_pure ()

theorem spares_qunlock (l : Nat) : Spares (qunlock l) := by
  refine spares_bind spares_running fun t => spares_bind spares_globals fun g => ?_
  split
  · exact spares_abort _
  · refine spares_bind (spares_observe _) fun _ => spares_bind (spares_head _) fun o => spares_bind (spares_setOwner l o) fun _ => ?_
    cases o with
    | none => exact spares_pure ()
    | some u => exact spares_bind (spares_deltask _ u) fun _ => spares_taskready u

theorem spares_rlock (l : Nat) (b : Bool) : Spares (_rlock l b) := by
  refine spares_bind spares_running fun t => spares_bind spares_globals fun g => spares_bind (spares_head _) fun o => ?_
  split
  · exact spares_bind (spares_setRw l _) fun _ => spares_bind (spares_observe _) fun _ => spares_pure _
  · exact spares_block _ t b _

theorem spares_wlock (l : Nat) (b : Bool) : Spares (_wlock l b) := by
  refine spares_bind spares_running fun t => spares_bind spares_globals fun g => spares_bind spares_globals fun g' => ?_
  split
  · exact spares_bind (spares_setRw l _) fun _ => spares_bind (spares_observe _) fun _ => spares_pure _
  · exact spares_block _ t b _

theorem spares_wgrant (l : Nat) : Spares (wgrant l) := by
  refine spares_bind (spares_head _) fun o => ?_
  cases o with
  | none => exact spares_pure ()
  | some u => exact spares_bind (spares_deltask _ u) fun _ => spares_bind (spares_setRw l _) fun _ => spares_taskready u

theorem spares_handover (l : Nat) : Spares (globals >>= fun g => if (g.rw l).readers = 0 then wgrant l else pure ()) := by
  refine spares_bind spares_globals fun g => ?_
  split
  · exact spares_wgrant l
  · exact spares_pure ()

theorem spares_runlock (l : Nat) : Spares (runlock l) :=
  spares_bind spares_running fun _ => spares_bind (spares_observe _) fun _ => spares_bind (spares_setRw l _) fun _ =>
    spares_handover l

theorem spares_wunlock (l : Nat) : Spares (wunlock l) := by
  refine spares_bind spares_globals fun g => ?_
  split
  · exact spares_abort _
  · refine spares_bind spares_running fun t => spares_bind (spares_observe _) fun _ => spares_bind (spares_setRw l _) fun _ => ?_
    refine spares_bind spares_globals fun g' => ?_
    split
    · exact spares_abort _
    · refine spares_bind spares_globals fun g'' => spares_bind (spares_loop (fun _ => spares_head _) (fun u => ?_) _ _) fun _ =>
        spares_handover l
      exact spares_bind (spares_deltask _ u) fun _ => spares_bind (spares_setRw l _) fun _ => spares_taskready u

theorem spares_tasksleep (r : Nat) : Spares (tasksleep r) := by
  refine spares_bind spares_running fun t => spares_bind (spares_observe _) fun _ => spares_bind (spares_addtask _ t) fun _ => ?_
  refine spares_bind spares_globals fun g => ?_
  cases g.rendezl r with
  | none => exact spares_taskswitch _
  | some l => exact spares_bind (spares_qunlock l) fun _ => spares_taskswitch _

theorem spares_tasksleepreturn (r : Nat) : Spares (tasksleepreturn r) :=
  spares_bind spares_running fun t => spares_bind (spares_observe _) fun _ => spares_setTask t _

theorem spares_tasksleepresume (r : Nat) : Spares (tasksleepresume r) := by
  refine spares_bind spares_globals fun g => ?_
  cases g.rendezl r with
  | none => exact spares_tasksleepreturn r
  | some l =>
    refine spares_bind (spares_qlock l true (some r)) fun o => ?_
    cases o with
    | none => exact spares_pure ()
    | some v => exact spares_tasksleepreturn r

theorem spares_taskwakeup (r : Nat) (all : Bool) : Spares (_taskwakeup r all) := by
  refine spares_bind spares_globals fun g => spares_loop (fun i => ?_) (fun u => ?_) _ _
  · unfold sleeper
    split
    · exact spares_pure none
    · exact spares_head _
  · exact spares_bind (spares_deltask _ u) fun _ => spares_taskready u

theorem spares_answer {m : Lib (Option Int)} (hm : Spares m) : Spares (answer m) := by
  refine spares_bind spares_running fun t => spares_bind hm fun o => ?_
  cases o with
  | none => exact spares_pure ()
  | some v => exact spares_observe _

theorem spares_wakeup (r : Nat) (all : Bool) : Spares (wakeup r all) :=
  spares_bind spares_running fun _ => spares_bind (spares_taskwakeup r all) fun _ => spares_observe _

/-! ## fd.c -/

theorem spares_startfdtask (a : TaskPtr) : Spares (_startfdtask a) := by
  refine spares_bind spares_globals fun g => ?_
  split
  · exact spares_pure ()
  · exact spares_bind (spares_modify fun _ => rfl) fun _ => spares_bind spares_globals fun _ => spares_taskcreate _ a

theorem spares_taskdelay (ms now : Nat) (a : TaskPtr) (pc : Pc) : Spares (taskdelay ms now a pc) := by
  refine spares_bind (spares_startfdtask a) fun _ => spares_bind (spares_observe _) fun _ => spares_bind spares_running fun t => ?_
  refine spares_bind spares_globals fun g => spares_bind (fun _ => rfl) fun _ => spares_bind (spares_observe _) fun _ => ?_
  exact spares_bind (spares_setTask t _) fun _ => spares_bind (spares_modify fun _ => rfl) fun _ => spares_taskswitch pc

theorem spares_fdevents (ts : List TaskPtr) : Spares (fdevents ts) := by
  induction ts with
  | nil => exact spares_pure ()
  | cons u us ih =>
    exact spares_bind (spares_setTask u _) fun _ => spares_bind (spares_deltask _ u) fun _ => spares_bind (spares_observe _) fun _ =>
      spares_bind (spares_taskready u) fun _ => ih

theorem spares_fdwake (err : Int) (u : TaskPtr) : Spares (fdwake err u) :=
  spares_bind (spares_deltask _ u) fun _ => spares_bind (spares_modify fun _ => rfl) fun _ => spares_bind (spares_setTask u _) fun _ =>
    spares_taskready u

theorem spares_expired (now : Nat) : Spares (expired now) := by
  refine spares_bind (spares_head _) fun o => ?_
  cases o with
  | none => exact spares_pure none
  | some u =>
    refine spares_bind spares_globals fun g => ?_
    split
    · exact spares_pure _
    · exact spares_pure _

theorem spares_fdpolled (v : Option Nat) (poll : Poll) (now' : Nat) : Spares (fdpolled v poll now') := by
  cases poll with
  | eintr => exact spares_taskyield _
  | failed => exact spares_modify fun _ => rfl
  | events ts =>
    refine spares_bind (spares_fdevents ts) fun _ => spares_bind (spares_observe _) fun _ => spares_bind spares_globals fun g => ?_
    refine spares_bind (spares_loop (fun _ => spares_expired now') (spares_fdwake _) _ _) fun _ => ?_
    cases v with
    | none => exact spares_taskyield _
    | some fn =>
      exact spares_bind spares_globals fun _ => spares_bind (spares_observe _) fun _ => spares_bind spares_running fun t =>
        spares_setTask t _

theorem spares_fdpoll (v : Option Nat) (now : Nat) (poll : Poll) (now' : Nat) : Spares (fdpoll v now poll now') := by
  refine spares_bind (spares_head _) fun o => ?_
  cases o with
  | none => exact spares_bind (spares_observe _) fun _ => spares_fdpolled v poll now'
  | some u =>
    refine spares_bind (spares_observe _) fun _ => spares_bind spares_globals fun _ => ?_
    exact spares_bind (spares_observe _) fun _ => spares_fdpolled v poll now'

theorem spares_fdcallback (v : Option Nat) (r : Int) : Spares (fdcallback v r) := by
  unfold fdcallback
  split
  · refine spares_bind spares_globals fun g =>
      spares_bind (spares_loop (fun _ => spares_head _) (spares_fdwake _) _ _) fun _ => ?_
    exact spares_bind (spares_modify fun _ => rfl) fun _ => spares_taskexit
  · exact spares_taskyield _

/-- A task that is resumed elsewhere than in `chanalt`. -/
theorem spares_resume {g : Glob} {t : TaskPtr} (hr : g.taskrunning = some t) (hp : (g.task t).pc.array = none) (now : Nat) (poll : Poll)
    (now' : Nat) : (resume now poll now').All (fun _ g' => g'.chan = g.chan) g := by
  have hback : Spares (setTask t fun x => { x with pc := .app }) := spares_setTask t _
  refine (all_bind running _).mpr (all_globals ?_)
  rw [hr]
  refine all_globals ?_
  dsimp only
  cases hpc : (g.task t).pc with
  | app => exact trivial
  | start =>
    cases (g.task t).startfn with
    | app => exact hback g
    | fdtask v => exact spares_taskyield _ g
  | parked => exact hback g
  | taskyield n => exact spares_bind (spares_observe _) (fun _ => hback) g
  | qlock l o =>
    cases o with
    | none => exact spares_bind (spares_qlockresume l) (fun _ => hback) g
    | some r => exact spares_bind (spares_qlockresume l) (fun _ => spares_tasksleepreturn r) g
  | rlock l => exact hback g
  | wlock l => exact hback g
  | tasksleep r => exact spares_tasksleepresume r g
  | taskdelay n =>
    exact spares_bind spares_running (fun u => spares_bind (spares_observe _) fun _ => spares_bind (spares_observe _) fun _ =>
      spares_setTask u _) g
  | fdwait n => exact spares_bind (spares_observe _) (fun _ => hback) g
  | chanalt a =>
    rw [hpc] at hp
    cases hp
  | fdtask v n =>
    show Prog.All _ (if 0 < yielded g n then taskyield (.fdtask v) else fdpoll v now poll now') g
    split
    · exact spares_taskyield _ g
    · exact spares_fdpoll v now poll now' g

end

/-! ## The steps of the channels -/

/-- What a step with `e` is for the channels. -/
def Ev.onChan (g : Glob) : Ev → Option Chan.Ev
  | .chanalt a xs r1 r2 => g.taskrunning.map fun t => .call t a xs r1 r2
  | .resume _ _ _ => g.taskrunning.bind fun t => (g.task t).pc.array.map fun _ => .resume t
  | .poke x b => some (.poke x b)
  | _ => none

/-- The steps that can be of the channels. -/
def Ev.mayChan : Ev → Prop
  | .chanalt _ _ _ _ => True
  | .resume _ _ _ => True
  | .poke _ _ => True
  | _ => False

/-- What a step with `e` does to the channels. -/
inductive ChanStep (s : St) (e : Ev) (s' : St) : Prop
  | stays : e.onChan s.g = none → s'.g.chan = s.g.chan → ChanStep s e s'
  | moves (f : Chan.Ev) : e.onChan s.g = some f → Chan.Enabled s.g.chan f → Chan.step s.g.chan f = .ok s'.g.chan →
      ChanStep s e s'

section
variable {s s' : St} {e : Ev}

theorem spares_code (he : ¬ e.mayChan) : Spares (code e) := by
  cases e with
  | chanalt a xs r1 r2 => exact absurd trivial he
  | poke x b => exact absurd trivial he
  | resume now poll now' => exact absurd trivial he
  | taskcreateraw a => exact spares_taskcreateraw _ a
  | taskcreate a => exact spares_taskcreate _ a
  | startfdtask fn arg a => exact spares_bind (spares_modify fun _ => rfl) fun _ => spares_startfdtask a
  | taskready t => exact spares_taskready t
  | taskdata data =>
    exact spares_bind spares_running fun t => spares_bind spares_globals fun g => spares_bind (spares_observe _) fun _ =>
      spares_setTask t _
  | taskyield => exact spares_taskyield _
  | taskswitch => exact spares_taskswitch _
  | taskexit => exact spares_taskexit
  | taskdelay ms now a => exact spares_taskdelay ms now a _
  | fdwait now a => exact spares_bind (spares_startfdtask a) fun _ => spares_taskdelay _ now a _
  | qlock l => exact spares_answer (spares_qlock l true none)
  | canqlock l => exact spares_answer (spares_qlock l false none)
  | qunlock l => exact spares_qunlock l
  | rlock l => exact spares_answer (spares_rlock l true)
  | canrlock l => exact spares_answer (spares_rlock l false)
  | runlock l => exact spares_runlock l
  | wlock l => exact spares_answer (spares_wlock l true)
  | canwlock l => exact spares_answer (spares_wlock l false)
  | wunlock l => exact spares_wunlock l
  | tasksleep r => exact spares_tasksleep r
  | taskwakeup r => exact spares_wakeup r false
  | taskwakeupall r => exact spares_wakeup r true
  | callback r =>
    refine spares_bind spares_globals fun g => spares_bind spares_running fun t => ?_
    cases (g.task t).startfn with
    | app => exact spares_abort _
    | fdtask v => exact spares_fdcallback v r
  | taskscheduler => exact spares_bind (spares_modify fun _ => rfl) fun _ => spares_taskscheduler

/-- A resumed `chanalt` is over. -/
theorem resume_chan (h : Inv s) {t : TaskPtr} {a : Nat} (hr : s.g.taskrunning = some t) (hp : (s.g.task t).pc = .chanalt a)
    {now now' : Nat} {poll : Poll} (hs : (code (.resume now poll now')).onPlaces s = .ok ((), s')) :
    Chan.Enabled s.g.chan (.resume t) ∧ Chan.step s.g.chan (.resume t) = .ok s'.g.chan := by
  have hgood := h.good t
  have hwait : s.g.chan.wait t = some a := hgood.wait.trans (by show (s.g.task t).pc.array = some a; rw [hp]; rfl)
  have hwoken : s.g.chan.woken t ≠ 0 := fun h0 => by
    have hrun : s.g.taskrunning ≠ some t := of_decide_eq_false ((hgood.chosen a hp).mp h0).2
    exact hrun hr
  have hall : (code (.resume now poll now')).All (fun _ g' => g'.chan = { s.g.chan with wait := update s.g.chan.wait t none }) s.g := by
    refine all_running (at_running h hr) fun _ => all_globals ?_
    simp only [hp]
    exact chanaltresume_chan (at_running h hr) a
  have hchan : s'.g.chan = { s.g.chan with wait := update s.g.chan.wait t none } := all_onPlaces hs hall
  refine ⟨⟨by rw [hwait]; rfl, hwoken⟩, ?_⟩
  rw [hchan]
  rfl

/-- A step of the library is a step of the channels, or leaves them. -/
theorem chan_step (h : Inv s) (hen : Enabled s.g e) (hs : (code e).onPlaces s = .ok ((), s')) : ChanStep s e s' := by
  cases e with
  | chanalt a xs r1 r2 =>
    obtain ⟨t, hr, hen⟩ := hen
    obtain ⟨w, r, hcall⟩ := all_onPlaces (Q := fun _ g' => ∃ w r, Chan.call s.g.chan t a xs r1 r2 = .ok (g'.chan, w, r)) hs
      (chanalt_chan (at_running h hr.2.1) a xs r1 r2)
    refine .moves (.call t a xs r1 r2) ?_ hen ?_
    · rw [Ev.onChan, hr.2.1]
      rfl
    · rw [Chan.step, hcall]
      rfl
  | resume now poll now' =>
    obtain ⟨-, ⟨t, hr, -⟩, -⟩ := hen
    cases harr : (s.g.task t).pc.array with
    | none =>
      refine .stays ?_ (all_onPlaces (Q := fun _ g' => g'.chan = s.g.chan) hs (spares_resume hr harr now poll now'))
      simp only [Ev.onChan, hr, Option.bind_some, harr, Option.map_none]
    | some a =>
      have hpc : (s.g.task t).pc = .chanalt a := by
        cases hpc : (s.g.task t).pc with
        | chanalt b =>
          rw [hpc] at harr
          rw [Option.some.inj harr]
        | _ => rw [hpc] at harr; cases harr
      obtain ⟨hen, hstep⟩ := resume_chan h hr hpc hs
      refine .moves (.resume t) ?_ hen hstep
      simp only [Ev.onChan, hr, Option.bind_some, harr, Option.map_some]
  | poke x b =>
    obtain ⟨-, rfl⟩ := Prod.mk.inj (Except.ok.inj hs)
    exact .moves (.poke x b) rfl trivial rfl
  | _ => exact .stays rfl (all_onPlaces (Q := fun _ g' => g'.chan = s.g.chan) hs (spares_code id s.g))

end

/-! ## Runs -/

/-- The channels go from `k₀` to `k` in the steps `fs`, the newest first. -/
inductive ChanRun (k₀ : Chan.St) : List Chan.Ev → Chan.St → Prop
  | refl : ChanRun k₀ [] k₀
  | step {fs : List Chan.Ev} {k k' : Chan.St} (f : Chan.Ev) : ChanRun k₀ fs k → Chan.Enabled k f → Chan.step k f = .ok k' →
      ChanRun k₀ (f :: fs) k'

def Step.onChan (x : Step) : Option Chan.Ev := x.e.onChan x.g

/-- The channels behind the steps `tr`. -/
structure OnChans (k₀ : Chan.St) (tr : List Step) (s : St) : Prop where
  run : ChanRun k₀ (tr.filterMap Step.onChan) s.g.chan
  quiet : (∀ x ∈ tr, Chan.Untouched x.g.chan x.g'.chan) → Chan.QuietReach s.g.chan

section
variable {s₀ s : State Glob Heap} {tr : List Step} {k₀ k : Chan.St} {fs : List Chan.Ev}

theorem ChanRun.reach (h₀ : Chan.Reach k₀) (h : ChanRun k₀ fs k) : Chan.Reach k := by
  induction h with
  | refl => exact h₀
  | step f _ hen hs ih => exact .step f ih hen hs

theorem onChans_step {s s' : St} {e : Ev} (h : Inv s) (ho : OnChans k₀ tr s) (hen : Enabled s.g e)
    (hs : (code e).onPlaces s = .ok ((), s')) : OnChans k₀ (⟨s.g, e, s'.g⟩ :: tr) s' := by
  have hquiet : (∀ x ∈ ⟨s.g, e, s'.g⟩ :: tr, Chan.Untouched x.g.chan x.g'.chan) → Chan.QuietReach s.g.chan := fun hall =>
    ho.quiet fun x hx => hall x (List.mem_cons_of_mem _ hx)
  cases chan_step h hen hs with
  | stays hon hsame =>
    have hskip : (⟨s.g, e, s'.g⟩ :: tr).filterMap Step.onChan = tr.filterMap Step.onChan := List.filterMap_cons_none hon
    refine ⟨?_, fun hall => hsame ▸ hquiet hall⟩
    rw [hskip, hsame]
    exact ho.run
  | moves f hon hen' hstep =>
    have hmore : (⟨s.g, e, s'.g⟩ :: tr).filterMap Step.onChan = f :: tr.filterMap Step.onChan := List.filterMap_cons_some hon
    refine ⟨?_, fun hall => .step f (hquiet hall) hen' hstep (hall _ List.mem_cons_self)⟩
    rw [hmore]
    exact .step f ho.run hen' hstep

/-- The channels of a run are in a run of their own: its calls of `chanalt`, their returns and its stores. -/
theorem channels_run (h₀ : Starts s₀) (h : Run s₀ tr s) : ChanRun s₀.g.chan (tr.filterMap Step.onChan) s.g.chan ∧
    Chan.Reach s.g.chan ∧ ((∀ x ∈ tr, Chan.Untouched x.g.chan x.g'.chan) → Chan.QuietReach s.g.chan) := by
  obtain ⟨rendezl, size, junk, mem, hsize, hs₀⟩ := h₀
  have hstart : s₀.g.chan = Chan.start size junk mem := by rw [hs₀]; rfl
  have hnone : OnChans s₀.g.chan [] ⟨s₀.g, Places.empty⟩ := by
    refine ⟨.refl, fun _ => ?_⟩
    show Chan.QuietReach s₀.g.chan
    rw [hstart]
    exact .init size junk mem hsize
  obtain ⟨p, -, hp⟩ := h.holds (C := fun _ => True) (linked_start ⟨rendezl, size, junk, mem, hsize, hs₀⟩) hnone
    (fun h ho hen hs _ _ => onChans_step h ho hen hs) fun _ _ => trivial
  have hreach : Chan.Reach s₀.g.chan := by
    rw [hstart]
    exact .init size junk mem hsize
  exact ⟨hp.run, hp.run.reach hreach, hp.quiet⟩

end

/-- Task 1 runs, and task 2 is created. -/
def paired : List Ev := [.taskcreate 1, .taskcreate 2, .taskscheduler, .resume 0 .eintr 0]

/-- Task 1 waits to receive. -/
def receiving : State Glob Heap := (paired.foldl State.next boot).next (.chanalt 1 (Chan.chanrecv 0 (some 1)) 0 0)

/-- Task 2 sends to it and exits, and task 1 goes on. -/
theorem channels_run_paired : ∃ tr s, Run boot tr s ∧ ∃ fs, fs.length = 3 ∧ ChanRun boot.g.chan fs s.g.chan ∧
    s.g.chan.wait 1 = none ∧ (s.g.chan.rcvd 0).length = 1 := by
  have hlinked := linked_start starts_boot
  have hreceive := (run_boot paired (by decide +kernel)).next (e := .chanalt 1 (Chan.chanrecv 0 (some 1)) 0 0) hlinked
    ⟨1, by decide +kernel, rfl, nofun, by decide⟩
  have hturn := hreceive.plays hlinked [.taskscheduler, .resume 0 .eintr 0] (by decide +kernel)
  have hfree : ∀ u, ([.taskscheduler, .resume 0 .eintr 0].foldl State.next receiving).g.chan.wait u ≠ some 2 := by
    intro u
    have hwait : ([.taskscheduler, .resume 0 .eintr 0].foldl State.next receiving).g.chan.wait u =
      update (fun _ => none) 1 (some 1) u := rfl
    rw [hwait]
    by_cases hu : u = 1
    · subst hu
      rw [Function.update_self]
      nofun
    · rw [Function.update_of_ne hu]
      nofun
  have hsend := hturn.next (e := .chanalt 2 (Chan.chansend 0 (some 2)) 0 0) hlinked
    ⟨2, by decide +kernel, rfl, hfree, by decide⟩
  have hrun := hsend.plays hlinked [.taskexit, .taskscheduler, .resume 0 .eintr 0] (by decide +kernel)
  obtain ⟨hchans, -, -⟩ := channels_run starts_boot hrun
  exact ⟨_, _, hrun, _, by decide +kernel, hchans, by decide +kernel, by decide +kernel⟩

end Libtask.Sched
