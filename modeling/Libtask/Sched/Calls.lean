/-
  Libtask.Sched.Calls — the calls of qlock.c and rendez.c, from a state in which the invariant
  holds.

  `ok_…` says which action a function comes down to. None of the calls fails, and each keeps
  the invariant. The `abort`s of qlock.c need a lock that is not had by who it is had by,
  which the invariant excludes.
-/

import Mathlib.Data.List.Infix
import Libtask.Sched.Locking

namespace Libtask.Sched

open Function (update update_self update_of_ne update_comm)
open Libtask.Lib

section
variable {s : St} {t u : TaskPtr} {l r : Nat}

theorem Tasks.awake (h : Tasks s) (hr : s.g.taskrunning = some t) : (s.g.task t).state ≠ .EXITING := by
  rw [(h.here hr).2.1]
  nofun

theorem ok_setOwner {o : Option TaskPtr} {Q : Unit → St → Prop} : Ok (setOwner l o) s Q ↔ Q () (s.setOwner l o) :=
  ok_modify

theorem ok_setRw {f : RWLock → RWLock} {Q : Unit → St → Prop} : Ok (setRw l f) s Q ↔ Q () (s.setRw l f) := ok_modify

/-! ## QLock -/

theorem ok_qlock (h : Tasks s) (hr : s.g.taskrunning = some t) {b : Bool} {r : Option Nat} {Q : Option Int → St → Prop}
    (hfree : s.g.owner l = none → Q (some 1) (s.qacquire l t)) (hbusy : s.g.owner l ≠ none → b = false → Q (some 0) s)
    (hblock : s.g.owner l ≠ none → b = true → Q none ((s.push (.qwaiting l) t).leave t (.qlock l r))) :
    Ok (_qlock l b r) s Q := by
  simp only [_qlock, ok_bind, ok_running hr, ok_globals]
  split
  · rename_i ho
    simp only [ok_bind, ok_setOwner, ok_observe, ok_pure]
    exact hfree ho
  · rename_i ho
    cases b with
    | false =>
      simp only [Bool.not_false, if_true, ok_pure]
      exact hbusy ho rfl
    | true =>
      simp only [Bool.not_true, Bool.false_eq_true, if_false, ok_bind, ok_addtask (h.here hr).2.2]
      rw [ok_taskswitch (s := s.push (.qwaiting l) t) hr (h.awake hr), ok_pure]
      exact hblock ho rfl

theorem ok_qunlock (hz : ∀ u, s.m.loc u = some (.qwaiting l) → (s.g.task u).state ≠ .READY)
    (hr : s.g.taskrunning = some t) (ho : s.g.owner l ≠ none) {Q : Unit → St → Prop} (hq : Q () (s.qrelease l t)) :
    Ok (qunlock l) s Q := by
  simp only [qunlock, ok_bind, ok_running hr, ok_globals, if_neg ho, ok_observe, ok_head, ok_setOwner]
  cases hh : (s.m.q (.qwaiting l)).head? with
  | none =>
    simp only [State.qrelease, hh] at hq
    have hh' : ((s.obs (.qunlock l t)).m.q (.qwaiting l)).head? = none := hh
    simp only [hh', ok_pure]
    exact hq
  | some u =>
    simp only [State.qrelease, hh] at hq
    have hu : s.m.loc u = some (.qwaiting l) := loc_of_head hh
    have hh' : ((s.obs (.qunlock l t)).m.q (.qwaiting l)).head? = some u := hh
    simp only [hh', ok_bind]
    rw [ok_deltask (by exact hu), ok_taskready]
    · exact hq
    · rw [pull_loc (by exact hu), update_self]
    · exact hz u hu

theorem Inv.owner (h : Inv s) (hr : s.g.taskrunning = some t) {o : Option Nat} (hp : s.pc t = .qlock l o) :
    s.g.owner l = some t := by
  refine (h.locks.of_pc hp).resolve_left ?_
  intro hm
  -- who runs is on no list
  have hl := (s.m.mem_iff (.qwaiting l) t).mp hm
  rw [(h.here hr).2.2] at hl
  cases hl

/-! ## RWLock -/

theorem ok_rlock (h : Tasks s) (hr : s.g.taskrunning = some t) {b : Bool} {Q : Option Int → St → Prop}
    (hfree : (s.g.rw l).writer = none → s.m.q (.wwaiting l) = [] → Q (some 1) (s.racquire l t))
    (hbusy : b = false → Q (some 0) s)
    (hblock : (s.g.rw l).writer ≠ none ∨ s.m.q (.wwaiting l) ≠ [] → Q none ((s.push (.rwaiting l) t).leave t (.rlock l))) :
    Ok (_rlock l b) s Q := by
  simp only [_rlock, ok_bind, ok_running hr, ok_globals, ok_head]
  split
  · rename_i hf
    simp only [ok_bind, ok_setRw, ok_observe, ok_pure]
    exact hfree hf.1 (List.head?_eq_none_iff.mp hf.2)
  · rename_i hf
    rw [List.head?_eq_none_iff] at hf
    cases b with
    | false =>
      simp only [Bool.not_false, if_true, ok_pure]
      exact hbusy rfl
    | true =>
      simp only [Bool.not_true, Bool.false_eq_true, if_false, ok_bind, ok_addtask (h.here hr).2.2]
      rw [ok_taskswitch (s := s.push (.rwaiting l) t) hr (h.awake hr), ok_pure]
      exact hblock (not_and_or.mp hf)

theorem ok_wlock (h : Tasks s) (hr : s.g.taskrunning = some t) {b : Bool} {Q : Option Int → St → Prop}
    (hfree : (s.g.rw l).writer = none → (s.g.rw l).readers = 0 → Q (some 1) (s.wacquire l t))
    (hbusy : b = false → Q (some 0) s)
    (hblock : ¬ ((s.g.rw l).writer = none ∧ (s.g.rw l).readers = 0) →
      Q none ((s.push (.wwaiting l) t).leave t (.wlock l))) :
    Ok (_wlock l b) s Q := by
  simp only [_wlock, ok_bind, ok_running hr, ok_globals]
  split
  · rename_i hf
    simp only [ok_bind, ok_setRw, ok_observe, ok_pure]
    exact hfree hf.1 hf.2
  · rename_i hf
    cases b with
    | false =>
      simp only [Bool.not_false, if_true, ok_pure]
      exact hbusy rfl
    | true =>
      simp only [Bool.not_true, Bool.false_eq_true, if_false, ok_bind, ok_addtask (h.here hr).2.2]
      rw [ok_taskswitch (s := s.push (.wwaiting l) t) hr (h.awake hr), ok_pure]
      exact hblock hf

theorem ok_wgrant (h : Tasks s) {Q : Unit → St → Prop} (hq : Q () (s.wgrant l)) : Ok (wgrant l) s Q := by
  have hz : ∀ u, s.m.loc u = some (.wwaiting l) → (s.g.task u).state ≠ .READY := fun u hu => h.not_ready hu nofun
  simp only [wgrant, ok_bind, ok_head]
  cases hh : (s.m.q (.wwaiting l)).head? with
  | none =>
    simp only [State.wgrant, hh] at hq
    exact ok_pure.mpr hq
  | some u =>
    simp only [State.wgrant, hh] at hq
    have hu : s.m.loc u = some (.wwaiting l) := loc_of_head hh
    simp only [ok_bind, ok_deltask hu, ok_setRw]
    rw [ok_taskready]
    · exact hq
    · show (s.pull (.wwaiting l) u).m.loc u = none
      rw [pull_loc hu, update_self]
    · exact hz u hu

theorem ok_rgrant (h : Tasks s) (hu : s.m.loc u = some (.rwaiting l)) {Q : Unit → St → Prop} (hq : Q () (s.rgrant l u)) :
    Ok (rgrant l u) s Q := by
  have hz := h.not_ready hu nofun
  simp only [rgrant, ok_bind, ok_deltask hu, ok_setRw]
  rw [ok_taskready]
  · exact hq
  · show (s.pull (.rwaiting l) u).m.loc u = none
    rw [pull_loc hu, update_self]
  · exact hz

theorem tasks_rdrop (h : Tasks s) (l : Nat) (t : TaskPtr) : Tasks (s.rdrop l t) :=
  tasks_setRw (tasks_obs h (o := .runlock l t) rfl (sound_cons h.base.sound nofun nofun)) l _

theorem tasks_wdrop (h : Tasks s) (l : Nat) (t : TaskPtr) : Tasks (s.wdrop l t) :=
  tasks_setRw (tasks_obs h (o := .wunlock l t) rfl (sound_cons h.base.sound nofun nofun)) l _

theorem ok_runlock (h : Tasks s) (hr : s.g.taskrunning = some t) {Q : Unit → St → Prop} (hq : Q () (s.runlock l t)) :
    Ok (runlock l) s Q := by
  simp only [runlock, ok_bind, ok_running hr, ok_observe, ok_setRw, ok_globals]
  show Ok (if ((s.rdrop l t).g.rw l).readers = 0 then wgrant l else pure ()) (s.rdrop l t) Q
  rw [State.runlock] at hq
  by_cases hz : ((s.rdrop l t).g.rw l).readers = 0
  · rw [if_pos hz] at hq ⊢
    exact ok_wgrant (tasks_rdrop h l t) hq
  · rw [if_neg hz] at hq ⊢
    exact ok_pure.mpr hq

theorem wunlock_ok (h : Inv s) (hr : s.g.taskrunning = some t) (hw : (s.g.rw l).writer = some t)
    (hp : s.pc t ≠ .wlock l) : Ok (wunlock l) s fun _ s' => Inv s' := by
  have hwn : (s.g.rw l).writer ≠ none := by rw [hw]; nofun
  have hzero : ((s.wdrop l t).g.rw l).readers = 0 := by
    have hn : ((s.wdrop l t).locks.readers l) = (s.locks.rw l).held.length := by
      rw [locks_wdrop, setRw_readers, h.locks.readers l]
    rw [(RwLock.inv (h.locks.rw l)).excl hwn] at hn
    exact hn
  have hstart : Granting (s.wdrop l t) l [] (s.m.q (.rwaiting l)) (s.wdrop l t) :=
    ⟨tasks_wdrop h.toTasks l t, rfl, rfl, eq_setRw rfl (by simp) (fun _ _ => ⟨rfl, rfl⟩) fun _ => rfl⟩
  have hloop := ok_loop (c := fun _ => head (.rwaiting l)) (b := rgrant l)
    (P := fun _ xs s' => ∃ done, s.m.q (.rwaiting l) = done ++ xs ∧ Granting (s.wdrop l t) l done xs s')
    (fun i xs s' ⟨done, _, hg⟩ => ok_head.mpr ⟨by rw [hg.queue], rfl⟩)
    (fun i u xs s' ⟨done, hd, hg⟩ => ok_rgrant hg.tasks (loc_of_head (by rw [hg.queue]; rfl))
      ⟨done ++ [u], by rw [hd, List.append_assoc]; rfl, granting_step hg⟩)
    (s.m.q (.rwaiting l)) (i := 0) ⟨[], rfl, hstart⟩ (h.length_le (.rwaiting l))
  simp only [wunlock, ok_bind, ok_globals, if_neg hwn, ok_running hr, ok_observe, ok_setRw]
  show Ok (if ((s.wdrop l t).g.rw l).readers ≠ 0 then _ else _) (s.wdrop l t) _
  rw [if_neg (not_not.mpr hzero)]
  refine ok_bind.mpr (ok_globals.mpr (ok_bind.mpr (hloop.mono fun n s' ⟨_, done, hd, hg⟩ => ?_)))
  rw [List.append_nil] at hd
  have hinv := inv_wunlock h hw hp (hd ▸ hg)
  simp only [ok_bind, ok_globals]
  rw [State.wunlock] at hinv
  by_cases hz : (s'.g.rw l).readers = 0
  · rw [if_pos hz] at hinv ⊢
    exact ok_wgrant hg.tasks hinv
  · rw [if_neg hz] at hinv ⊢
    exact ok_pure.mpr hinv

/-! ## Rendez -/

theorem base_tasksleep (h : Base s) (ht : s.m.loc t = none)
    (hl : ∀ l, s.g.rendezl r = some l → Mutex.holders (s.g.qlog l) = [t]) :
    Base ((s.obs (.tasksleep r t)).push (.rendez r) t) := by
  have ht' : (s.obs (.tasksleep r t)).m.loc t = none := ht
  refine ⟨⟨h.slots.live, h.slots.slot⟩, h.registry.same rfl rfl rfl rfl rfl, h.count, ?_, ?_, ?_, ?_, sound_tasksleep h.sound hl⟩
  · show s.g.sleepingcounted = _ + (Obs.add (.rendez r) t :: .tasksleep r t :: s.g.log).countP Obs.isEvent
    rw [push_q ht', List.countP_cons_of_neg (by simp [Obs.isEvent]), List.countP_cons_of_neg (by simp [Obs.isEvent])]
    exact h.sleepers
  · rw [push_loc ht']
    exact moves_add (moves_quiet (o := .tasksleep r t) h.moves nofun nofun) ht
  · rw [push_q ht']
    exact order_add (order_quiet (o := .tasksleep r t) h.order nofun nofun) (.rendez r) t
  · intro u
    exact Asked.mono (h.asked u) rfl fun _ h => List.mem_cons_of_mem _ (List.mem_cons_of_mem _ h)

/-- `tasksleep` before its `qunlock`, seen from behind its `taskswitch`. -/
theorem inv_asleep (h : Inv s) (hr : s.g.taskrunning = some t) (hp : (s.pc t).array = none)
    (ho : ∀ l, s.g.rendezl r = some l → s.g.owner l = some t) :
    Inv (((s.obs (.tasksleep r t)).push (.rendez r) t).leave t (.tasksleep r)) := by
  have ht : (s.obs (.tasksleep r t)).m.loc t = none := (h.here hr).2.2
  have hb : Base ((s.obs (.tasksleep r t)).push (.rendez r) t) := base_tasksleep h.base ht fun l hl => by
    rw [show s.g.qlog l = (s.locks.q l).log from rfl, Mutex.one_holder (h.locks.q l),
      show (s.locks.q l).owner = some t from ho l hl]
    rfl
  have hask : Asked ((s.obs (.tasksleep r t)).push (.rendez r) t).g t (.tasksleep r) := by
    refine ⟨?_, nofun⟩
    intro l hl
    obtain rfl := Option.some.inj hl
    exact List.mem_cons_self
  refine ⟨⟨base_leave hb hask, ?_, h.chan⟩, ?_⟩
  · rw [core_leave (s := (s.obs (.tasksleep r t)).push (.rendez r) t) hr, core_push ht, Function.update_idem, update_self]
    exact good_update h.good (good_block (h.good t) (decide_eq_true hr) (k := .tasksleep r) rfl rfl hp)
  · rw [locks_leave, locks_push ht rfl, locks_obs (fun _ => rfl) fun _ => rfl, pc_leave]
    exact h.locks.setPc trivial

theorem leave_wake {x : ListRef} {k : Pc} (h : u ≠ t) : (s.wake x u).leave t k = (s.leave t k).wake x u := by
  simp only [State.leave, State.wake, State.ready, State.push, State.pull, State.setTask, State.modify, Glob.setTask,
    Glob.observe, update_of_ne h, update_of_ne (Ne.symm h), update_comm h]

/-- `tasksleep` goes to sleep before or behind its `qunlock`: nothing sees the difference. -/
theorem leave_qrelease {k : Pc} (h : s.m.loc t ≠ some (.qwaiting l)) :
    (s.qrelease l u).leave t k = (s.leave t k).qrelease l u := by
  have hq : (s.leave t k).m.q = s.m.q := rfl
  simp only [State.qrelease, hq]
  cases hh : (s.m.q (.qwaiting l)).head? with
  | none => rfl
  | some v =>
    have hne : v ≠ t := fun he => h (he ▸ loc_of_head hh)
    exact leave_wake (s := (s.obs (.qunlock l u)).setOwner l (some v)) hne

theorem qrelease_running : (s.qrelease l u).g.taskrunning = s.g.taskrunning := by
  simp only [State.qrelease]
  split <;> simp only [State.wake, State.ready, State.setTask, State.modify, Glob.setTask, State.push, State.pull,
    Glob.observe, State.obs, State.setOwner]

/-- Only who waits for the lock gets ready. -/
theorem qrelease_state (h : s.m.loc t ≠ some (.qwaiting l)) : ((s.qrelease l u).g.task t).state = (s.g.task t).state := by
  simp only [State.qrelease]
  split
  · rfl
  · rename_i v hv
    have hne : t ≠ v := fun he => h (he ▸ loc_of_head hv)
    simp only [State.wake, State.ready, State.setTask, State.modify, Glob.setTask, State.push, State.pull,
      Glob.observe, State.obs, State.setOwner, update_of_ne hne]

theorem tasksleep_ok (h : Inv s) (hr : s.g.taskrunning = some t) (hp : s.pc t = .app)
    (ho : ∀ l, s.g.rendezl r = some l → s.g.owner l = some t) : Ok (tasksleep r) s fun _ s' => Inv s' := by
  have ht : (s.obs (.tasksleep r t)).m.loc t = none := (h.here hr).2.2
  have hasleep := inv_asleep h hr (by rw [hp]; rfl) ho
  obtain ⟨s₁, hs₁⟩ : ∃ s₁, s₁ = (s.obs (.tasksleep r t)).push (.rendez r) t := ⟨_, rfl⟩
  have hloc : s₁.m.loc = update s.m.loc t (some (.rendez r)) := by
    rw [hs₁]
    exact push_loc ht
  have hg : s₁.g.taskrunning = s.g.taskrunning ∧ s₁.g.task = s.g.task ∧ s₁.g.owner = s.g.owner ∧
      s₁.g.rendezl = s.g.rendezl := by
    rw [hs₁]
    exact ⟨rfl, rfl, rfl, rfl⟩
  obtain ⟨hg1, hg2, hg3, hg4⟩ := hg
  simp only [tasksleep, ok_bind, ok_running hr, ok_observe, ok_addtask ht, ok_globals]
  rw [← hs₁] at hasleep ⊢
  have hr' : s₁.g.taskrunning = some t := hg1.trans hr
  rw [hg4]
  cases hl : s.g.rendezl r with
  | none =>
    dsimp only
    rw [ok_taskswitch hr' (by rw [hg2]; exact h.awake hr)]
    exact hasleep
  | some l =>
    have hown : s₁.g.owner l = some t := by
      rw [hg3]
      exact ho l hl
    have hloct : s₁.m.loc t ≠ some (.qwaiting l) := by
      rw [hloc, update_self]
      nofun
    refine ok_bind.mpr (ok_qunlock (fun u hu => ?_) hr' (fun he => nomatch hown.symm.trans he) ?_)
    · have hut : u ≠ t := fun he => hloct (he ▸ hu)
      rw [hloc, update_of_ne hut] at hu
      rw [hg2]
      exact h.not_ready hu nofun
    · rw [ok_taskswitch (qrelease_running.trans hr') (by rw [qrelease_state hloct, hg2]; exact h.awake hr),
        leave_qrelease hloct]
      refine inv_qrelease hasleep hown ?_
      intro o
      rw [pc_leave, update_self]
      nofun

/-- Who runs behind a sleep was taken off the list once. -/
theorem Inv.woken_once (h : Inv s) (hr : s.g.taskrunning = some t) (ha : .add (.rendez r) t ∈ s.g.log) :
    delsSince (.rendez r) t s.g.log = 1 :=
  (h.base.moves (.rendez r) t).2 (by rw [(h.here hr).2.2]; nofun) ha

theorem inv_slept (h : Inv s) (hr : s.g.taskrunning = some t) (hp : (s.pc t).array = none)
    (ha : .add (.rendez r) t ∈ s.g.log) (ho : ∀ l, s.g.rendezl r = some l → s.g.owner l = some t) :
    Inv ((s.obs (.slept r t)).back t) := by
  refine inv_back (inv_obs h rfl ?_ (fun _ => rfl) fun _ => rfl) hr hp
  refine sound_slept h.base.sound ha (h.woken_once hr ha) ?_
  intro l hl
  rw [show s.g.log.filterMap (qEv l) = (s.locks.q l).log from rfl, Mutex.one_holder (h.locks.q l),
    show (s.locks.q l).owner = some t from ho l hl]
  rfl

theorem ok_tasksleepreturn (hr : s.g.taskrunning = some t) {Q : Unit → St → Prop}
    (hq : Q () ((s.obs (.slept r t)).back t)) : Ok (tasksleepreturn r) s Q := by
  simp only [tasksleepreturn, ok_bind, ok_running hr, ok_observe, ok_setTask]
  exact hq

theorem tasksleepresume_ok (h : Inv s) (hr : s.g.taskrunning = some t) (hp : s.pc t = .tasksleep r) :
    Ok (tasksleepresume r) s fun _ s' => Inv s' := by
  have hk : (s.pc t).array = none := by rw [hp]; rfl
  have ha : .add (.rendez r) t ∈ s.g.log := (h.base.asked t).1 _ (by rw [hp]; rfl)
  simp only [tasksleepresume, ok_bind, ok_globals]
  cases hl : s.g.rendezl r with
  | none =>
    refine ok_tasksleepreturn hr (inv_slept h hr hk ha ?_)
    intro l hl'
    rw [hl] at hl'
    cases hl'
  | some l =>
    refine ok_bind.mpr (ok_qlock h.toTasks hr ?_ (fun _ he => absurd he nofun) ?_)
    · intro hfree
      refine ok_tasksleepreturn (s := s.qacquire l t) hr
        (inv_slept (inv_qacquire h hfree t) hr hk (List.mem_cons_of_mem _ ha) ?_)
      intro l' hl'
      have he : l' = l := Option.some.inj (hl'.symm.trans hl)
      rw [he]
      simp [State.qacquire, State.setOwner, State.obs, State.modify, Glob.observe]
    · intro hbusy _
      exact ok_pure.mpr (inv_qblock h hr hk hbusy fun r' he => by
        obtain rfl := Option.some.inj he
        exact ⟨hl, ha⟩)

/-! ### `taskwakeup` and `taskwakeupall` -/

/-- The sleeping tasks that a wake-up is for. -/
def woken (all : Bool) (xs : List TaskPtr) : List TaskPtr := if all then xs else xs.take 1

/-- From `s`, the first `i` sleeping tasks of `r` were readied. -/
structure Waking (s : St) (r i : Nat) (s' : St) : Prop where
  inv : Inv s'
  running : s'.g.taskrunning = s.g.taskrunning
  pc : s'.pc = s.pc
  q : s'.m.q = update (update s.m.q (.rendez r) ((s.m.q (.rendez r)).drop i)) .taskrunqueue
    (s.m.q .taskrunqueue ++ (s.m.q (.rendez r)).take i)

theorem Waking.queue {i : Nat} {s' : St} (h : Waking s r i s') : s'.m.q (.rendez r) = (s.m.q (.rendez r)).drop i := by
  rw [h.q]
  simp

theorem wake_q {x : ListRef} (h : s.m.loc u = some x) : (s.wake x u).m.q =
    update (update s.m.q x ((s.m.q x).erase u)) .taskrunqueue (update s.m.q x ((s.m.q x).erase u) .taskrunqueue ++ [u]) := by
  have hpull : ((s.pull x u).setTask u fun x => { x with state := .READY }).m.loc u = none := by
    show (s.pull x u).m.loc u = none
    rw [pull_loc h, update_self]
  rw [State.wake, State.ready, push_q hpull]
  show update (s.pull x u).m.q .taskrunqueue ((s.pull x u).m.q .taskrunqueue ++ [u]) = _
  rw [pull_q h]

theorem waking_step {i : Nat} {s' : St} (h : Waking s r i s') {xs : List TaskPtr}
    (hd : (s.m.q (.rendez r)).drop i = u :: xs) : s'.m.loc u = some (.rendez r) ∧ Waking s r (i + 1) (s'.wake (.rendez r) u) := by
  have hq : s'.m.q (.rendez r) = u :: xs := h.queue.trans hd
  have hu : s'.m.loc u = some (.rendez r) := loc_of_head (by rw [hq]; rfl)
  refine ⟨hu, inv_wake h.inv (by rw [hq]; rfl) nofun nofun rfl, h.running, pc_wake.trans h.pc, ?_⟩
  have hdrop : (s.m.q (.rendez r)).drop (i + 1) = xs := by
    rw [← List.tail_drop, hd]
    rfl
  have htake : (s.m.q (.rendez r)).take (i + 1) = (s.m.q (.rendez r)).take i ++ [u] := by
    have hget : (s.m.q (.rendez r))[i]? = some u := by
      rw [← List.head?_drop, hd]
      rfl
    rw [List.take_add_one, hget]
    rfl
  rw [wake_q hu, hq, List.erase_cons_head, h.q, hdrop, htake]
  funext x
  by_cases h1 : x = .taskrunqueue
  · subst h1
    simp
  · by_cases h2 : x = .rendez r
    · subst h2
      simp
    · simp [h1, h2]

theorem woken_initial (all : Bool) (xs : List TaskPtr) : woken all xs <+: xs := by
  cases all with
  | false => exact List.take_prefix 1 xs
  | true => exact List.prefix_rfl

/-- The conditions of the loop end it behind the last one that the wake-up is for. -/
theorem sleeper_ok {all : Bool} {i : Nat} (hi : i ≤ (woken all (s.m.q (.rendez r))).length) {s' : St}
    (hw : Waking s r i s') : Ok (sleeper r all i) s' fun o s'' =>
      o = ((woken all (s.m.q (.rendez r))).drop i).head? ∧ s'' = s' := by
  have hq := hw.queue
  cases all with
  | true =>
    simp only [sleeper, Bool.not_true, Bool.false_eq_true, and_false, if_false, ok_head, hq, woken, if_true, and_self]
  | false =>
    simp only [woken, Bool.false_eq_true, if_false] at hi ⊢
    by_cases h1 : i = 1
    · subst h1
      simp [sleeper, ok_pure]
    · have h0 : i = 0 := by
        rw [List.length_take] at hi
        omega
      subst h0
      simp [sleeper, ok_head, hq, List.head?_take]

theorem taskwakeup_ok (h : Inv s) (all : Bool) : Ok (_taskwakeup r all) s fun n s' =>
    n = (woken all (s.m.q (.rendez r))).length ∧ Waking s r n s' := by
  have hlen : (woken all (s.m.q (.rendez r))).length ≤ s.g.nalltask :=
    Nat.le_trans (woken_initial all _).length_le (h.length_le (.rendez r))
  have hstart : Waking s r 0 s := ⟨h, rfl, rfl, by simp⟩
  have hloop := ok_loop (c := sleeper r all) (b := wakesleeper r)
    (P := fun i xs s' => i ≤ (woken all (s.m.q (.rendez r))).length ∧ xs = (woken all (s.m.q (.rendez r))).drop i ∧
      Waking s r i s')
    (fun i xs s' ⟨hi, hx, hw⟩ => hx ▸ sleeper_ok hi hw) (fun i u xs s' ⟨_, hx, hw⟩ => ?_)
    (woken all (s.m.q (.rendez r))) (i := 0) ⟨Nat.zero_le _, rfl, hstart⟩ hlen
  · simp only [_taskwakeup, ok_bind, ok_globals]
    exact hloop.mono fun n s' ⟨hn, _, _, hw⟩ => ⟨by omega, hw⟩
  · obtain ⟨ys, hys⟩ := List.IsPrefix.drop (woken_initial all (s.m.q (.rendez r))) i
    rw [← hx] at hys
    obtain ⟨hu, hw'⟩ := waking_step hw hys.symm
    have hlt : i < (woken all (s.m.q (.rendez r))).length := by
      refine Nat.lt_of_not_le ?_
      intro hle
      rw [List.drop_eq_nil_of_le hle] at hx
      cases hx
    have hrest : xs = (woken all (s.m.q (.rendez r))).drop (i + 1) := by
      rw [← List.tail_drop, ← hx]
      rfl
    simp only [wakesleeper, ok_bind, ok_deltask hu]
    rw [ok_taskready]
    · exact ⟨hlt, hrest, hw'⟩
    · rw [pull_loc hu, update_self]
    · exact hw.inv.not_ready hu nofun

end

end Libtask.Sched
