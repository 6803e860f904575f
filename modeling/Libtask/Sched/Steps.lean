/-
  Libtask.Sched.Steps — every step keeps the invariant, so it holds in every run.

  `step_places`: an enabled step does not fail on the places, and keeps `Inv`. `inv` is the run
  lemma. `linked` carries it to the links: a run of the program on the links is a run on the
  places, and the links represent those. `step_ok`: no enabled step of a run fails, so a run
  goes on with any enabled step (`reach_next`).
-/

import Libtask.Sched.Sleeping

namespace Libtask.Sched

open Function (update update_self update_of_ne update_idem update_eq_self)
open Libtask.Lib
open Libtask.Lib.Dll (isDll_nil)

section
variable {s : St} {t u a : TaskPtr}

/-! ## One step -/

theorem inv_setTask (h : Inv s) {f : Task → Task} (hs : (f (s.g.task t)).alltaskslot = (s.g.task t).alltaskslot)
    (hst : (f (s.g.task t)).state = (s.g.task t).state) (hpc : (f (s.g.task t)).pc = (s.g.task t).pc) :
    Inv (s.setTask t f) := by
  have hpc' : (s.setTask t f).pc = s.pc := by
    rw [pc_setTask, hpc]
    exact update_eq_self t s.pc
  refine ⟨⟨base_setTask h.base hs (by rw [hpc]; exact h.base.asked t), ?_, h.chan⟩, ?_⟩
  · rw [core_setTask, hst, hpc]
    exact good_update h.good (h.good t)
  · rw [locks_setTask, hpc']
    exact h.locks

theorem ok_answer (hr : s.g.taskrunning = some t) {m : Lib (Option Int)} (h : Ok m s fun _ s' => Inv s') :
    Ok (answer m) s fun _ s' => Inv s' := by
  simp only [answer, ok_bind, ok_running hr]
  refine h.mono ?_
  intro o s' hs'
  cases o with
  | some v => exact ok_observe.mpr (inv_note hs' rfl)
  | none => exact ok_pure.mpr hs'

theorem qlock_ok (h : Inv s) (hr : s.g.taskrunning = some t) (hp : (s.pc t).array = none) (l : Nat) (b : Bool) :
    Ok (_qlock l b none) s fun _ s' => Inv s' :=
  ok_qlock h.toTasks hr (fun hf => inv_qacquire h hf t) (fun _ _ => h) fun hb _ => inv_qblock h hr hp hb nofun

theorem rlock_ok (h : Inv s) (hr : s.g.taskrunning = some t) (hp : (s.pc t).array = none) (l : Nat) (b : Bool) :
    Ok (_rlock l b) s fun _ s' => Inv s' :=
  ok_rlock h.toTasks hr (fun hw hq => inv_racquire h hw hq t) (fun _ => h) fun hb => inv_rblock h hr hp hb

theorem wlock_ok (h : Inv s) (hr : s.g.taskrunning = some t) (hp : (s.pc t).array = none) (l : Nat) (b : Bool) :
    Ok (_wlock l b) s fun _ s' => Inv s' :=
  ok_wlock h.toTasks hr (fun hw hn => inv_wacquire h hw hn t) (fun _ => h) fun hb => inv_wblock h hr hp hb

theorem wakeup_ok (h : Inv s) (hr : s.g.taskrunning = some t) (r : Nat) (all : Bool) :
    Ok (wakeup r all) s fun _ s' => Inv s' := by
  simp only [wakeup, ok_bind, ok_running hr]
  exact (taskwakeup_ok h all).mono fun n s' hw => ok_observe.mpr (inv_note hw.2.inv rfl)

theorem taskready_ok (h : Inv s) (hl : s.g.live u = true) (hu : (s.g.task u).state = .READY ∨ Parked s.g u) :
    Ok (taskready u) s fun _ s' => Inv s' := by
  by_cases hst : (s.g.task u).state = .READY
  · exact (ok_taskready_again hst).mpr h
  · obtain ⟨hpc, hr⟩ := hu.resolve_left hst
    have hk : s.pc u ≠ .app ∧ home (s.pc u) = none ∧ (s.pc u).array = none := by
      rcases hpc with hpc | hpc <;> rw [show s.pc u = _ from hpc] <;> exact ⟨nofun, rfl, rfl⟩
    have hloc : s.m.loc u = none := by
      cases (h.good u).status with
      | dead h1 _ _ _ => exact nomatch hl.symm.trans h1
      | running _ h2 _ _ => exact absurd (of_decide_eq_true h2) hr
      | ready _ _ h3 _ _ => exact absurd h3 hst
      | resting _ _ _ h4 _ => exact h4.trans hk.2.1
    exact (ok_taskready hloc hst).mpr (inv_ready h hloc hl hr hk.1 hk.2.2)

theorem startfdtask_ok (h : Inv s) (ha : s.g.live a = false) (fn : Option Nat) (arg : Nat) :
    Ok (startfdtask fn arg a) s fun _ s' => Inv s' := by
  simp only [startfdtask, ok_bind, ok_modify]
  have hinv : Inv (s.modify fun g => { g with pool_loop_arg := arg, pool_loop_fn := fn }) := inv_modify h fun _ => rfl
  exact (_startfdtask_ok hinv (Or.inr ha)).mono fun _ s' hs' => hs'.1

theorem poke_ok (h : Inv s) (x : Nat) (b : UInt8) :
    Inv (s.setChan { s.g.chan with mem := update s.g.chan.mem x b }) :=
  ⟨⟨base_setChan h.base _, h.good, h.chan.frame rfl rfl rfl fun _ _ _ => ⟨rfl, rfl⟩⟩, h.locks⟩

theorem holder_owner (h : Inv s) {l : Nat} (hm : t ∈ Mutex.holders (s.g.qlog l)) : s.g.owner l = some t := by
  rw [show s.g.qlog l = (s.locks.q l).log from rfl, Mutex.one_holder (h.locks.q l)] at hm
  exact Option.mem_toList.mp hm

theorem resume_ok (h : Inv s) (hr : s.g.taskrunning = some t) (hp : s.pc t ≠ .app) {poll : Poll}
    (hpoll : ∀ ts, poll = .events ts → ts.Nodup ∧ ∀ u ∈ ts, Registered s.g u) (now now' : Nat) :
    Ok (resume now poll now') s fun _ s' => Inv s' := by
  have hback : ∀ s₁ : St, Inv s₁ → s₁.g.taskrunning = some t → s₁.pc = s.pc → (s.pc t).array = none →
      Inv (s₁.setTask t fun x => { x with pc := .app }) := fun s₁ h₁ hr₁ hp₁ hk => inv_back h₁ hr₁ (by rw [hp₁]; exact hk)
  simp only [resume, ok_bind, ok_running hr, ok_globals]
  cases hk : s.pc t with
  | app => exact absurd hk hp
  | start =>
    simp only [show (s.g.task t).pc = .start from hk]
    cases (s.g.task t).startfn with
    | app => exact ok_setTask.mpr (hback s h hr rfl (by rw [hk]; rfl))
    | fdtask v => exact fdyield_ok h hr (by rw [hk]; rfl) v
  | parked =>
    simp only [show (s.g.task t).pc = .parked from hk]
    exact ok_setTask.mpr (hback s h hr rfl (by rw [hk]; rfl))
  | taskyield n =>
    simp only [show (s.g.task t).pc = .taskyield n from hk, ok_bind, ok_observe, ok_setTask]
    exact hback _ (inv_note h rfl) hr rfl (by rw [hk]; rfl)
  | qlock l o =>
    have ho := h.owner hr hk
    have hno : ¬ s.g.owner l ≠ some t := not_not.mpr ho
    cases o with
    | none =>
      simp only [show (s.g.task t).pc = .qlock l none from hk, _qlockresume, ok_bind, ok_running hr, ok_globals, if_neg hno,
        ok_pure, ok_setTask]
      exact hback s h hr rfl (by rw [hk]; rfl)
    | some r =>
      have ha : s.g.rendezl r = some l ∧ .add (.rendez r) t ∈ s.g.log := (h.base.asked t).2 l r hk
      simp only [show (s.g.task t).pc = .qlock l (some r) from hk, _qlockresume, ok_bind, ok_running hr, ok_globals,
        if_neg hno, ok_pure]
      refine ok_tasksleepreturn hr (inv_slept h hr (by rw [hk]; rfl) ha.2 fun l' hl' => ?_)
      rw [Option.some.inj (hl'.symm.trans ha.1)]
      exact ho
  | rlock l =>
    simp only [show (s.g.task t).pc = .rlock l from hk]
    exact ok_setTask.mpr (hback s h hr rfl (by rw [hk]; rfl))
  | wlock l =>
    simp only [show (s.g.task t).pc = .wlock l from hk]
    exact ok_setTask.mpr (hback s h hr rfl (by rw [hk]; rfl))
  | tasksleep r =>
    simp only [show (s.g.task t).pc = .tasksleep r from hk]
    exact tasksleepresume_ok h hr hk
  | taskdelay n =>
    have hr' : (s.obs (.nsec now)).g.taskrunning = some t := hr
    simp only [show (s.g.task t).pc = .taskdelay n from hk, taskdelayresume, ok_bind, ok_running hr, ok_observe, ok_setTask]
    exact hback _ (inv_note (inv_note h rfl) rfl) hr rfl (by rw [hk]; rfl)
  | fdwait n =>
    simp only [show (s.g.task t).pc = .fdwait n from hk, ok_bind, ok_observe, ok_setTask]
    exact hback _ (inv_note h rfl) hr rfl (by rw [hk]; rfl)
  | chanalt b =>
    simp only [show (s.g.task t).pc = .chanalt b from hk]
    exact chanaltresume_ok h hr hk
  | fdtask v n =>
    simp only [show (s.g.task t).pc = .fdtask v n from hk]
    split
    · exact fdyield_ok h hr (by rw [hk]; rfl) v
    · exact fdpoll_ok h hr (by rw [hk]; rfl) hpoll v now now'

/-- An enabled step does not fail, and keeps the invariant. -/
theorem step_places (h : Inv s) {e : Ev} (hen : Enabled s.g e) : Ok (code e) s fun _ s' => Inv s' := by
  have happ : ∀ t, Runs s.g t → s.g.taskrunning = some t ∧ s.pc t = .app ∧ (s.pc t).array = none := fun t ht =>
    ⟨ht.2.1, ht.2.2, by rw [show s.pc t = .app from ht.2.2]; rfl⟩
  cases e with
  | taskcreateraw a =>
    obtain ⟨-, h2, -⟩ := (h.good a).dead hen.2
    exact ok_taskcreateraw h2 (inv_create h hen.2 .app)
  | taskcreate a => exact (taskcreate_ok h hen.2 .app).mono fun _ s' hs' => hs'.2
  | startfdtask fn arg a => exact startfdtask_ok h hen.2 fn arg
  | taskready u => exact taskready_ok h hen.2.1 hen.2.2
  | poke x b => exact ok_modify.mpr (poke_ok h x b)
  | taskdata data =>
    obtain ⟨t, ht⟩ := hen
    obtain ⟨hr, -, -⟩ := happ t ht
    simp only [code, ok_bind, ok_running hr, ok_globals, ok_observe, ok_setTask]
    exact inv_setTask (inv_note h rfl) rfl rfl rfl
  | taskyield =>
    obtain ⟨t, ht⟩ := hen
    obtain ⟨hr, -, hk⟩ := happ t ht
    exact taskyield_ok h hr hk fun _ => ⟨nofun, rfl, fun _ => ⟨nofun, nofun⟩, fun _ => trivial⟩
  | taskswitch =>
    obtain ⟨t, ht⟩ := hen
    obtain ⟨hr, -, hk⟩ := happ t ht
    exact taskswitch_ok h hr hk
  | taskexit =>
    obtain ⟨t, ht⟩ := hen
    obtain ⟨hr, -, hk⟩ := happ t ht
    exact taskexit_ok h hr hk
  | taskdelay ms now a =>
    obtain ⟨⟨t, ht⟩, ha⟩ := hen
    obtain ⟨hr, hp, -⟩ := happ t ht
    exact (taskdelay_ok h hr hp (Or.inr ha) rfl ms now).mono fun _ _ hs => hs.1
  | fdwait now a =>
    obtain ⟨⟨t, ht⟩, ha⟩ := hen
    obtain ⟨hr, hp, -⟩ := happ t ht
    exact (fdwait_ok h hr hp ha now).mono fun _ _ hs => hs.1
  | qlock l =>
    obtain ⟨t, ht⟩ := hen
    obtain ⟨hr, -, hk⟩ := happ t ht
    exact ok_answer hr (qlock_ok h hr hk l true)
  | canqlock l =>
    obtain ⟨t, ht⟩ := hen
    obtain ⟨hr, -, hk⟩ := happ t ht
    exact ok_answer hr (qlock_ok h hr hk l false)
  | qunlock l =>
    obtain ⟨t, ht, hm⟩ := hen
    obtain ⟨hr, hp, -⟩ := happ t ht
    have ho := holder_owner h hm
    refine ok_qunlock (fun u hu => h.not_ready hu nofun) hr (by rw [ho]; nofun) (inv_qrelease h ho fun r => ?_)
    rw [hp]
    nofun
  | rlock l =>
    obtain ⟨t, ht⟩ := hen
    obtain ⟨hr, -, hk⟩ := happ t ht
    exact ok_answer hr (rlock_ok h hr hk l true)
  | canrlock l =>
    obtain ⟨t, ht⟩ := hen
    obtain ⟨hr, -, hk⟩ := happ t ht
    exact ok_answer hr (rlock_ok h hr hk l false)
  | runlock l =>
    obtain ⟨t, ht, hm⟩ := hen
    obtain ⟨hr, hp, -⟩ := happ t ht
    exact ok_runlock h.toTasks hr (inv_runlock h hm (by rw [hp]; nofun))
  | wlock l =>
    obtain ⟨t, ht⟩ := hen
    obtain ⟨hr, -, hk⟩ := happ t ht
    exact ok_answer hr (wlock_ok h hr hk l true)
  | canwlock l =>
    obtain ⟨t, ht⟩ := hen
    obtain ⟨hr, -, hk⟩ := happ t ht
    exact ok_answer hr (wlock_ok h hr hk l false)
  | wunlock l =>
    obtain ⟨t, ht, hm⟩ := hen
    obtain ⟨hr, hp, -⟩ := happ t ht
    have hw : (s.locks.rw l).writer = some t := by
      rw [show s.g.rwlog l = (s.locks.rw l).log from rfl, (RwLock.inv (h.locks.rw l)).writers] at hm
      exact Option.mem_toList.mp hm
    exact wunlock_ok h hr hw (by rw [hp]; nofun)
  | tasksleep r =>
    obtain ⟨t, ht, hm⟩ := hen
    obtain ⟨hr, hp, -⟩ := happ t ht
    exact tasksleep_ok h hr hp fun l hl => holder_owner h (hm l hl)
  | taskwakeup r =>
    obtain ⟨t, ht⟩ := hen
    exact wakeup_ok h (happ t ht).1 r false
  | taskwakeupall r =>
    obtain ⟨t, ht⟩ := hen
    exact wakeup_ok h (happ t ht).1 r true
  | chanalt a xs r1 r2 =>
    obtain ⟨t, ht, hc⟩ := hen
    obtain ⟨hr, hp, -⟩ := happ t ht
    exact chanalt_ok h hr hp (Chan.callable_of_enabled hc) r1 r2
  | callback r =>
    obtain ⟨t, ht, fn, hfn⟩ := hen
    obtain ⟨hr, -, hk⟩ := happ t ht
    simp only [code, ok_bind, ok_running hr, ok_globals, hfn]
    exact fdcallback_ok h hr hk (some fn) r
  | taskscheduler =>
    simp only [code, ok_bind, ok_modify]
    exact taskscheduler_ok (inv_modify h fun _ => rfl) hen.2
  | resume now poll now' =>
    obtain ⟨-, ⟨t, hr, hp⟩, hpoll⟩ := hen
    exact resume_ok h hr hp hpoll now now'

end

/-! ## Runs -/

theorem inv_start (rendezl : Nat → Option Nat) {size : Nat → Int × Int} (junk : Nat → Nat → UInt8) (mem : Nat → UInt8)
    (h : Chan.SizesOk size) : Inv ⟨start rendezl (Chan.start size junk mem), Places.empty⟩ := by
  have hreg : Registry (start rendezl (Chan.start size junk mem)) :=
    ⟨Nat.dvd_zero 1024, Nat.le_refl 0, nofun, trivial, fun t => ⟨False.elim, nofun⟩⟩
  refine ⟨⟨⟨⟨fun t => ⟨nofun, fun ⟨i, hi, _⟩ => nomatch hi⟩, nofun⟩, hreg, rfl, rfl, fun l t => ⟨nofun, nofun⟩, fun l _ => rfl,
    fun t => ⟨nofun, nofun⟩, trivial, nofun⟩, fun t => ⟨.dead rfl rfl rfl rfl, rfl, nofun⟩, Chan.inv_start junk mem h⟩, ?_⟩
  exact ⟨fun l => .init, fun l => .init, fun l => rfl, fun t => trivial⟩

theorem inv {s : St} (h : PReach s) : Inv s := by
  induction h with
  | init rendezl size junk mem h => exact inv_start rendezl junk mem h
  | step e _ hen hs ih =>
    exact (step_places ih hen).result hs

theorem rep_start : Rep ⟨fun _ => none, fun _ => none, fun _ => ⟨none, none⟩⟩ Places.empty := fun _ =>
  isDll_nil _ _

/-- A run on the links is one on the places. -/
theorem linked {s : State Glob Heap} (h : Reach s) : ∃ p, PReach ⟨s.g, p⟩ ∧ Rep s.m p := by
  induction h with
  | init rendezl size junk mem h => exact ⟨Places.empty, .init rendezl size junk mem h, rep_start⟩
  | @step s s' e _ hen hs ih =>
    obtain ⟨p, hp, hrep⟩ := ih
    obtain ⟨a, s₁, hr, -⟩ := step_places (inv hp) hen
    obtain ⟨h', hh, hrep'⟩ := onPlaces_refines (code e) hr hrep
    rw [show (⟨s.g, s.m⟩ : State Glob Heap) = s from rfl, hs] at hh
    obtain ⟨-, rfl⟩ := Prod.mk.inj (Except.ok.inj hh)
    exact ⟨s₁.m, .step e hp hen hr, hrep'⟩

/-- What holds of a run on the places holds of the run on the links. -/
theorem ok_onHeap {m : Lib Unit} {g : Glob} {p : Places} {x : Heap} {Q : Unit → St → Prop} (h : Ok m ⟨g, p⟩ Q)
    (hrep : Rep x p) : ∃ s' p', m.onHeap ⟨g, x⟩ = .ok ((), s') ∧ Rep s'.m p' ∧ Q () ⟨s'.g, p'⟩ := by
  obtain ⟨a, s₁, hr, hq⟩ := h
  obtain ⟨h', hh, hrep'⟩ := onPlaces_refines m hr hrep
  exact ⟨_, s₁.m, hh, hrep', hq⟩

/-- No enabled step fails: no `abort` is reached, and no loop runs out of fuel. -/
theorem step_ok {s : State Glob Heap} (h : Reach s) {e : Ev} (hen : Enabled s.g e) :
    ∃ s', (code e).onHeap s = .ok ((), s') := by
  obtain ⟨p, hp, hrep⟩ := linked h
  obtain ⟨s', -, hs, -⟩ := ok_onHeap (step_places (inv hp) hen) hrep
  exact ⟨s', hs⟩

/-! ## Single runs -/

/-- All channels are unbuffered and for bytes, and lock 0 is the lock of every Rendez. -/
def boot : State Glob Heap :=
  ⟨start (fun _ => some 0) (Chan.start (fun _ => (1, 0)) (fun _ _ => 0) fun _ => 0),
    ⟨fun _ => none, fun _ => none, fun _ => ⟨none, none⟩⟩⟩

theorem reach_boot : Reach boot := .init (fun _ => some 0) _ _ _ (by simp [Chan.SizesOk])

def State.next (s : State Glob Heap) (e : Ev) : State Glob Heap :=
  match (code e).onHeap s with
  | .ok (_, s') => s'
  | .error _ => s

theorem step_next {s : State Glob Heap} (h : Reach s) {e : Ev} (hen : Enabled s.g e) : (code e).onHeap s = .ok ((), s.next e) := by
  obtain ⟨s', hs⟩ := step_ok h hen
  rw [hs, State.next, hs]

theorem reach_next {s : State Glob Heap} (h : Reach s) {e : Ev} (hen : Enabled s.g e) : Reach (s.next e) :=
  .step e h hen (step_next h hen)

/-- Tasks 1 and 2 were created, and task 1 runs. -/
def two : State Glob Heap := [Ev.taskcreate 1, .taskcreate 2, .taskscheduler, .resume 0 .eintr 0].foldl State.next boot

theorem reach_two : Reach two := by
  have h1 := reach_next reach_boot (e := .taskcreate 1) ⟨Or.inl rfl, rfl⟩
  have h2 := reach_next h1 (e := .taskcreate 2) ⟨Or.inl rfl, rfl⟩
  have h3 := reach_next h2 (e := .taskscheduler) ⟨by decide +kernel, by decide +kernel⟩
  exact reach_next h3 (e := .resume 0 .eintr 0) ⟨by decide +kernel, ⟨1, by decide +kernel⟩, nofun⟩

end Libtask.Sched
