/-
  Libtask.Sched.Keep — the actions keep what holds between steps.

  What each action does to one task (`core_…`), to where tasks go on (`pc_…`) and to the locks
  (`locks_…`), and that it keeps `Base`.
-/

import Libtask.Sched.Inv

namespace Libtask.Sched

open Function (update update_self update_of_ne update_eq_self update_idem)
open Libtask.Lib
open Libtask.Lib.History (Law)

section
variable {s : St} {t u : TaskPtr} {l : ListRef}

/-! ## One task -/

theorem core_setTask (f : Task → Task) : (s.setTask u f).core =
    update s.core u { s.core u with state := (f (s.g.task u)).state, pc := (f (s.g.task u)).pc } := by
  funext t
  by_cases h : t = u
  · subst h
    simp only [State.core, State.setTask, State.modify, Glob.setTask, update_self]
    rfl
  · simp only [State.core, State.setTask, State.modify, Glob.setTask, update_of_ne h]
    rfl

theorem core_push (h : s.m.loc u = none) : (s.push l u).core = update s.core u { s.core u with loc := some l } := by
  funext t
  by_cases ht : t = u
  · subst ht
    simp only [State.core, push_loc h, update_self]
    rfl
  · simp only [State.core, push_loc h, update_of_ne ht]
    rfl

theorem core_pull (h : s.m.loc u = some l) : (s.pull l u).core = update s.core u { s.core u with loc := none } := by
  funext t
  by_cases ht : t = u
  · subst ht
    simp only [State.core, pull_loc h, update_self]
    rfl
  · simp only [State.core, pull_loc h, update_of_ne ht]
    rfl

theorem core_ready (h : s.m.loc u = none) : (s.ready u).core =
    update s.core u { s.core u with state := .READY, loc := some .taskrunqueue } := by
  have h' : (s.setTask u fun x => { x with state := .READY }).m.loc u = none := h
  rw [State.ready, core_push h', core_setTask, update_idem, update_self]
  rfl

theorem core_wake (h : s.m.loc u = some l) : (s.wake l u).core =
    update s.core u { s.core u with state := .READY, loc := some .taskrunqueue } := by
  have h' : (s.pull l u).m.loc u = none := by rw [pull_loc h, update_self]
  rw [State.wake, core_ready h', core_pull h, update_idem, update_self]

theorem core_leave (hr : s.g.taskrunning = some u) (pc : Pc) : (s.leave u pc).core =
    update s.core u { s.core u with pc := pc, running := false } := by
  funext t
  by_cases ht : t = u
  · subst ht
    simp [State.core, State.leave, State.setTask, State.modify, Glob.setTask]
  · simp [State.core, State.leave, State.setTask, State.modify, Glob.setTask, ht, hr, Ne.symm ht]

theorem core_back : (s.back u).core = update s.core u { s.core u with pc := .app } := core_setTask _

theorem good_update {c : TaskPtr → Core} (h : ∀ t, Good (c t)) {x : Core} (hx : Good x) (t : TaskPtr) :
    Good (update c u x t) := by
  by_cases ht : t = u
  · subst ht
    rw [update_self]
    exact hx
  · rw [update_of_ne ht]
    exact h t

/-- A task that rests, but for `chanalt`, gets ready. -/
theorem good_ready {c : Core} (h : Good c) (hl : c.live = true) (hr : c.running = false) (hp : c.pc ≠ .app)
    (ha : c.pc.array = none) : Good { c with state := .READY, loc := some .taskrunqueue } where
  status := .ready hl hr rfl rfl hp
  wait := h.wait
  chosen a he := by
    have he : c.pc = .chanalt a := he
    rw [he] at ha
    cases ha

theorem array_of_home {k : Pc} {l : ListRef} (h : home k = some l) : k.array = none := by
  cases k <;> first | rfl | cases h

theorem good_wake {c : Core} (h : Good c) (hl : c.loc = some l) (hne : l ≠ .taskrunqueue) :
    Good { c with state := .READY, loc := some .taskrunqueue } := by
  obtain ⟨h1, h2, -, h4, h5⟩ := h.resting hl hne
  exact good_ready h h1 h2 (fun he => by rw [he] at h5; cases h5) (array_of_home h4)

/-- The running task blocks at `k`, on its list. -/
theorem good_block {c : Core} (h : Good c) (hr : c.running = true) {k : Pc} (hk : k.rests = true) (ha : k.array = none)
    (hc : c.pc.array = none) : Good { c with loc := home k, pc := k, running := false } := by
  obtain ⟨h1, h2, -⟩ := h.here hr
  refine ⟨.resting h1 rfl h2 rfl hk, ?_, ?_⟩
  · show c.wait = k.array
    rw [h.wait, hc, ha]
  · intro a he
    have he : k = .chanalt a := he
    rw [he] at ha
    cases ha

/-- The running task goes on elsewhere. -/
theorem good_setPc {c : Core} (h : Good c) (hr : c.running = true) {k : Pc} (ha : k.array = none)
    (hc : c.pc.array = none) : Good { c with pc := k } := by
  obtain ⟨h1, h2, h3⟩ := h.here hr
  refine ⟨.running h1 hr h2 h3, ?_, ?_⟩
  · show c.wait = k.array
    rw [h.wait, hc, ha]
  · intro a he
    have he : k = .chanalt a := he
    rw [he] at ha
    cases ha

/-! ## Where tasks go on -/

theorem pc_setTask (f : Task → Task) : (s.setTask u f).pc = update s.pc u (f (s.g.task u)).pc := by
  funext t
  by_cases h : t = u
  · subst h
    simp only [State.pc, State.setTask, State.modify, Glob.setTask, update_self]
  · simp only [State.pc, State.setTask, State.modify, Glob.setTask, update_of_ne h]

theorem pc_ready : (s.ready u).pc = s.pc :=
  (pc_setTask fun x => { x with state := .READY }).trans (update_eq_self u s.pc)

theorem pc_wake : (s.wake l u).pc = s.pc := pc_ready

theorem pc_leave (k : Pc) : (s.leave u k).pc = update s.pc u k := pc_setTask fun x => { x with pc := k }

theorem pc_back : (s.back u).pc = update s.pc u .app := pc_setTask fun x => { x with pc := .app }

/-! ## The locks -/

/-- The lists of no lock. -/
def ListRef.plain : ListRef → Bool
  | .taskrunqueue => true
  | .sleeping => true
  | .rendez _ => true
  | _ => false

theorem locks_setTask (f : Task → Task) : (s.setTask u f).locks = s.locks := rfl

theorem locks_obs {o : Obs} (hq : ∀ l, qEv l o = none) (hrw : ∀ l, rwEv l o = none) : (s.obs o).locks = s.locks := by
  simp only [State.locks, State.obs, State.modify, Glob.observe, Glob.qlog, Glob.rwlog, List.filterMap_cons, hq, hrw]

theorem locks_push (h : s.m.loc u = none) (hl : l.plain = true) : (s.push l u).locks = s.locks := by
  have hne : ∀ l', l'.plain = false → l' ≠ l := fun l' h' he => by rw [he, hl] at h'; cases h'
  have hq : ∀ l', qEv l' (.add l u) = none := fun l' => by cases l <;> first | rfl | cases hl
  have hrw : ∀ l', rwEv l' (.add l u) = none := fun l' => by cases l <;> first | rfl | cases hl
  simp only [State.locks, push_q h, update_of_ne (hne (.qwaiting _) rfl), update_of_ne (hne (.rwaiting _) rfl),
    update_of_ne (hne (.wwaiting _) rfl)]
  exact locks_obs hq hrw

theorem locks_pull (h : s.m.loc u = some l) (hl : l.plain = true) : (s.pull l u).locks = s.locks := by
  have hne : ∀ l', l'.plain = false → l' ≠ l := fun l' h' he => by rw [he, hl] at h'; cases h'
  have hq : ∀ l', qEv l' (.del l u) = none := fun l' => by cases l <;> first | rfl | cases hl
  have hrw : ∀ l', rwEv l' (.del l u) = none := fun l' => by cases l <;> first | rfl | cases hl
  simp only [State.locks, pull_q h, update_of_ne (hne (.qwaiting _) rfl), update_of_ne (hne (.rwaiting _) rfl),
    update_of_ne (hne (.wwaiting _) rfl)]
  exact locks_obs hq hrw

theorem locks_ready (h : s.m.loc u = none) : (s.ready u).locks = s.locks := by
  have h' : (s.setTask u fun x => { x with state := .READY }).m.loc u = none := h
  rw [State.ready, locks_push h' rfl, locks_setTask]

theorem locks_wake (h : s.m.loc u = some l) (hl : l.plain = true) : (s.wake l u).locks = s.locks := by
  have h' : (s.pull l u).m.loc u = none := by rw [pull_loc h, update_self]
  rw [State.wake, locks_ready h', locks_pull h hl]

theorem locks_leave (k : Pc) : (s.leave u k).locks = s.locks := rfl

theorem LocksOk.setPc {v : Locks} {pc : TaskPtr → Pc} (h : LocksOk v pc) {k : Pc} (hk : Has v u k) :
    LocksOk v (update pc u k) := by
  refine ⟨h.q, h.rw, h.readers, ?_⟩
  intro t
  by_cases ht : t = u
  · subst ht
    rw [update_self]
    exact hk
  · rw [update_of_ne ht]
    exact h.has t

/-! ## The rest -/

theorem Asked.mono {g g' : Glob} {k : Pc} (h : Asked g t k) (hr : g'.rendezl = g.rendezl)
    (hl : ∀ o ∈ g.log, o ∈ g'.log) : Asked g' t k :=
  ⟨fun l hk => hl _ (h.1 l hk), fun l r hk => ⟨hr ▸ (h.2 l r hk).1, hl _ (h.2 l r hk).2⟩⟩

theorem loc_of_head (h : (s.m.q l).head? = some u) : s.m.loc u = some l := (s.m.mem_iff l u).mp (List.mem_of_head? h)

theorem base_setTask (h : Base s) {f : Task → Task} (hs : (f (s.g.task u)).alltaskslot = (s.g.task u).alltaskslot)
    (ha : Asked s.g u (f (s.g.task u)).pc) : Base (s.setTask u f) := by
  refine ⟨⟨h.slots.live, ?_⟩, h.registry.same rfl rfl rfl rfl rfl, h.count, h.sleepers, h.moves, h.order, ?_, h.sound⟩
  · intro i hi
    show (update s.g.task u (f (s.g.task u)) (s.g.alltask i)).alltaskslot = i
    by_cases hu : s.g.alltask i = u
    · rw [hu, update_self, hs, ← hu]
      exact h.slots.slot i hi
    · rw [update_of_ne hu]
      exact h.slots.slot i hi
  · intro t
    rw [pc_setTask]
    by_cases ht : t = u
    · subst ht
      rw [update_self]
      exact Asked.mono ha rfl fun _ h => h
    · rw [update_of_ne ht]
      exact Asked.mono (h.asked t) rfl fun _ h => h

/-- Globals that nothing here depends on. -/
theorem base_modify (h : Base s) {f : Glob → Glob} (hf : ∀ g, f g =
    { g with
      tasknswitch := (f g).tasknswitch, taskrunning := (f g).taskrunning
      taskidgen := (f g).taskidgen, startedfdtask := (f g).startedfdtask, pool_loop_fn := (f g).pool_loop_fn
      pool_loop_arg := (f g).pool_loop_arg, owner := (f g).owner, rw := (f g).rw, chan := (f g).chan
      phase := (f g).phase }) : Base (s.modify f) := by
  have hm : s.modify f = ⟨f s.g, s.m⟩ := rfl
  rw [hm, hf s.g]
  exact ⟨⟨h.slots.live, h.slots.slot⟩, h.registry.same rfl rfl rfl rfl rfl, h.count, h.sleepers, h.moves, h.order,
    fun t => Asked.mono (h.asked t) rfl fun _ h => h, h.sound⟩

/-- Entries of the history that say nothing about lists. -/
def Obs.quiet : Obs → Bool
  | .add _ _ => false
  | .del _ _ => false
  | .event _ => false
  | _ => true

theorem base_obs (h : Base s) {o : Obs} (ho : o.quiet = true) (hs : Sound s.g.rendezl (o :: s.g.log)) :
    Base (s.obs o) := by
  have ha : ∀ l t, o ≠ .add l t := fun l t he => by rw [he] at ho; cases ho
  have hd : ∀ l t, o ≠ .del l t := fun l t he => by rw [he] at ho; cases ho
  have he : ¬ o.isEvent = true := fun he => by
    cases o <;> first | (cases he; done) | cases ho
  refine ⟨⟨h.slots.live, h.slots.slot⟩, h.registry.same rfl rfl rfl rfl rfl, h.count, ?_, moves_quiet h.moves ha hd,
    order_quiet h.order ha hd,
    fun t => Asked.mono (h.asked t) rfl fun _ h => List.mem_cons_of_mem _ h, hs⟩
  show s.g.sleepingcounted = _ + (o :: s.g.log).countP Obs.isEvent
  rw [List.countP_cons_of_neg he]
  exact h.sleepers

theorem base_push (h : Base s) (hu : s.m.loc u = none) (hl : l ≠ .sleeping) : Base (s.push l u) := by
  refine ⟨⟨h.slots.live, h.slots.slot⟩, h.registry.same rfl rfl rfl rfl rfl, h.count, ?_, ?_, ?_,
    fun t => Asked.mono (h.asked t) rfl fun _ h => List.mem_cons_of_mem _ h, sound_cons h.sound nofun nofun⟩
  · rw [push_q hu, update_of_ne (Ne.symm hl)]
    exact h.sleepers
  · rw [push_loc hu]
    exact moves_add h.moves hu
  · rw [push_q hu]
    exact order_add h.order l u

theorem base_pull (h : Base s) (hq : (s.m.q l).head? = some u) (hl : l ≠ .sleeping) : Base (s.pull l u) := by
  have hu := loc_of_head hq
  refine ⟨⟨h.slots.live, h.slots.slot⟩, h.registry.same rfl rfl rfl rfl rfl, h.count, ?_, ?_, ?_,
    fun t => Asked.mono (h.asked t) rfl fun _ h => List.mem_cons_of_mem _ h, sound_cons h.sound nofun nofun⟩
  · rw [pull_q hu, update_of_ne (Ne.symm hl)]
    exact h.sleepers
  · rw [pull_loc hu]
    exact moves_del h.moves hu
  · rw [pull_q hu]
    exact order_del h.order hq

theorem base_ready (h : Base s) (hu : s.m.loc u = none) : Base (s.ready u) :=
  base_push (base_setTask h rfl (h.asked u)) hu nofun

theorem base_wake (h : Base s) (hq : (s.m.q l).head? = some u) (hl : l ≠ .sleeping) : Base (s.wake l u) :=
  base_ready (base_pull h hq hl) (by rw [pull_loc (loc_of_head hq), update_self])

theorem base_leave (h : Base s) {k : Pc} (hk : Asked s.g u k) : Base (s.leave u k) :=
  base_modify (base_setTask h rfl hk) fun _ => rfl

theorem base_back (h : Base s) : Base (s.back u) := base_setTask h rfl ⟨nofun, nofun⟩

theorem Tasks.here (h : Tasks s) (hr : s.g.taskrunning = some t) :
    s.g.live t = true ∧ (s.g.task t).state = .zero ∧ s.m.loc t = none :=
  (h.good t).here (decide_eq_true hr)

theorem Tasks.zero (h : Tasks s) (hu : s.m.loc u = some l) (hl : l ≠ .taskrunqueue) : (s.g.task u).state = .zero :=
  ((h.good u).resting hu hl).2.2.1

theorem Tasks.not_ready (h : Tasks s) (hu : s.m.loc u = some l) (hl : l ≠ .taskrunqueue) : (s.g.task u).state ≠ .READY := by
  rw [h.zero hu hl]
  nofun

/-- No list is longer than `alltask`. -/
theorem Tasks.length_le (h : Tasks s) (l : ListRef) : (s.m.q l).length ≤ s.g.nalltask := by
  have hsub : s.m.q l ⊆ (List.range s.g.nalltask).map s.g.alltask := fun t ht => by
    obtain ⟨i, hi, ha⟩ := (h.base.slots.live t).mp ((h.good t).live ((s.m.mem_iff l t).mp ht))
    exact List.mem_map.mpr ⟨i, List.mem_range.mpr hi, ha⟩
  simpa using (List.subperm_of_subset (s.m.nodup l) hsub).length_le

theorem tasks_obs (h : Tasks s) {o : Obs} (ho : o.quiet = true) (hs : Sound s.g.rendezl (o :: s.g.log)) :
    Tasks (s.obs o) :=
  ⟨base_obs h.base ho hs, h.good, h.chan⟩

theorem tasks_modify (h : Tasks s) {f : Glob → Glob} (hf : ∀ g, f g =
    { g with
      tasknswitch := (f g).tasknswitch, taskidgen := (f g).taskidgen
      startedfdtask := (f g).startedfdtask, pool_loop_fn := (f g).pool_loop_fn
      pool_loop_arg := (f g).pool_loop_arg, owner := (f g).owner, rw := (f g).rw
      phase := (f g).phase }) : Tasks (s.modify f) := by
  have hb := base_modify h.base (f := f) fun g => by rw [hf g]
  have hm : s.modify f = ⟨f s.g, s.m⟩ := rfl
  rw [hm, hf s.g] at hb ⊢
  exact ⟨hb, h.good, h.chan⟩

theorem tasks_wake (h : Tasks s) (hq : (s.m.q l).head? = some u) (hr : l ≠ .taskrunqueue) (hs : l ≠ .sleeping) :
    Tasks (s.wake l u) := by
  have hu := loc_of_head hq
  refine ⟨base_wake h.base hq hs, ?_, h.chan⟩
  rw [core_wake hu]
  exact good_update h.good (good_wake (h.good u) hu hr)

/-- The running task blocks. -/
theorem tasks_block (h : Tasks s) (hr : s.g.taskrunning = some t) (hp : (s.pc t).array = none) {k : Pc}
    (hk : home k = some l) (hl : l ≠ .sleeping)
    (ha : ∀ l r, k = .qlock l (some r) → s.g.rendezl r = some l ∧ .add (.rendez r) t ∈ s.g.log) :
    Tasks ((s.push l t).leave t k) := by
  have ht := (h.here hr).2.2
  have hask : Asked (s.push l t).g t k := by
    refine ⟨?_, fun l' r hkr => ⟨(ha l' r hkr).1, List.mem_cons_of_mem _ (ha l' r hkr).2⟩⟩
    intro l' hl'
    rw [Option.some.inj (hl'.symm.trans hk)]
    exact List.mem_cons_self
  refine ⟨base_leave (base_push h.base ht hl) hask, ?_, h.chan⟩
  rw [core_leave (s := s.push l t) hr, core_push ht, update_idem, update_self]
  refine good_update h.good ?_
  have hrests : k.rests = true := by cases k <;> first | rfl | cases hk
  have hg := good_block (h.good t) (decide_eq_true hr) hrests (array_of_home hk) hp
  rw [hk] at hg
  exact hg

theorem tasks_back (h : Tasks s) (hr : s.g.taskrunning = some t) (hp : (s.pc t).array = none) : Tasks (s.back t) := by
  refine ⟨base_back h.base, ?_, h.chan⟩
  rw [core_back]
  exact good_update h.good (good_setPc (h.good t) (decide_eq_true hr) rfl hp)

theorem inv_obs (h : Inv s) {o : Obs} (ho : o.quiet = true) (hs : Sound s.g.rendezl (o :: s.g.log))
    (hq : ∀ l, qEv l o = none) (hrw : ∀ l, rwEv l o = none) : Inv (s.obs o) where
  toTasks := tasks_obs h.toTasks ho hs
  locks := by rw [locks_obs hq hrw]; exact h.locks

/-- Entries of the history that the invariant does not depend on. -/
def Obs.note : Obs → Bool
  | .nsec _ => true
  | .epoll_wait _ => true
  | .callback _ _ => true
  | .ret _ _ => true
  | _ => false

theorem sound_note {f : Nat → Option Nat} {log : List Obs} (h : Sound f log) {o : Obs} (ho : o.note = true) :
    Sound f (o :: log) := by
  refine sound_cons h (fun r t => ?_) fun r t => ?_ <;> rintro rfl <;> cases ho

theorem inv_note (h : Inv s) {o : Obs} (ho : o.note = true) : Inv (s.obs o) := by
  refine inv_obs h ?_ (sound_note h.base.sound ho) (fun l => ?_) fun l => ?_
  all_goals cases o <;> first | rfl | cases ho

theorem inv_modify (h : Inv s) {f : Glob → Glob} (hf : ∀ g, f g =
    { g with
      tasknswitch := (f g).tasknswitch, taskidgen := (f g).taskidgen
      startedfdtask := (f g).startedfdtask, pool_loop_fn := (f g).pool_loop_fn
      pool_loop_arg := (f g).pool_loop_arg, phase := (f g).phase }) : Inv (s.modify f) := by
  have ht := tasks_modify h.toTasks (f := f) fun g => by rw [hf g]
  have hm : s.modify f = ⟨f s.g, s.m⟩ := rfl
  rw [hm, hf s.g] at ht ⊢
  exact ⟨ht, h.locks⟩

theorem inv_wake (h : Inv s) (hq : (s.m.q l).head? = some u) (hr : l ≠ .taskrunqueue) (hs : l ≠ .sleeping)
    (hl : l.plain = true) : Inv (s.wake l u) where
  toTasks := tasks_wake h.toTasks hq hr hs
  locks := by rw [locks_wake (loc_of_head hq) hl, pc_wake]; exact h.locks

theorem inv_back (h : Inv s) (hr : s.g.taskrunning = some t) (hp : (s.pc t).array = none) : Inv (s.back t) where
  toTasks := tasks_back h.toTasks hr hp
  locks := by rw [pc_back]; exact h.locks.setPc trivial

end

end Libtask.Sched
