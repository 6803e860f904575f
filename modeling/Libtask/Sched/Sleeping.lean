/-
  Libtask.Sched.Sleeping — the calls of fd.c, from a state in which the invariant holds.

  Tasks get on the sleeping list in `taskdelay` and leave it for an event, for the time or at
  the shutdown. All keep the invariant, in which `sleepingcounted` is the length of the list
  and the number of events so far: the wake-up for an event does not count down.
-/

import Libtask.Sched.Turns

namespace Libtask.Sched

open Function (update update_self update_of_ne update_idem update_eq_self)
open Libtask.Lib

section
variable {s : St} {t u a : TaskPtr}

/-! ## Going to sleep -/

/-- `taskdelay` between `_startfdtask` and `taskswitch`. -/
def State.delay (s : St) (t : TaskPtr) (when : Nat) : St :=
  { g := { s.g.observe (.add .sleeping t) with
      task := update s.g.task t { s.g.task t with alarmtime := when }
      taskcount := if s.g.sleepingcounted = 0 then s.g.taskcount + 1 else s.g.taskcount
      sleepingcounted := s.g.sleepingcounted + 1 }
    m := s.m.insert .sleeping t fun u => when ≤ (s.g.task u).alarmtime }

theorem delay_q (h : s.m.loc t = none) (when : Nat) : (s.delay t when).m.q = update s.m.q .sleeping
    ((s.m.q .sleeping).rdropWhile (fun u => when ≤ (s.g.task u).alarmtime) ++
      t :: (s.m.q .sleeping).rtakeWhile fun u => when ≤ (s.g.task u).alarmtime) := Places.insert_q h _

theorem delay_loc (h : s.m.loc t = none) (when : Nat) : (s.delay t when).m.loc = update s.m.loc t (some .sleeping) :=
  Places.insert_loc h _

theorem core_delay (h : s.m.loc t = none) (when : Nat) :
    (s.delay t when).core = update s.core t { s.core t with loc := some .sleeping } := by
  funext u
  by_cases hu : u = t
  · subst hu
    simp only [State.core, delay_loc h, update_self]
    simp only [State.delay, Glob.observe, update_self]
    rfl
  · simp only [State.core, delay_loc h, update_of_ne hu]
    simp only [State.delay, Glob.observe, update_of_ne hu]
    rfl

theorem pc_delay (when : Nat) : (s.delay t when).pc = s.pc := by
  funext u
  by_cases hu : u = t
  · subst hu
    simp only [State.pc, State.delay, update_self]
  · simp only [State.pc, State.delay, update_of_ne hu]

theorem locks_delay (h : s.m.loc t = none) (when : Nat) : (s.delay t when).locks = s.locks := by
  simp only [State.locks, delay_q h]
  simp [State.delay, Glob.observe, Glob.qlog, Glob.rwlog, qEv, rwEv, List.filterMap_cons]

theorem base_delay (h : Base s) (ht : s.m.loc t = none) (when : Nat) : Base (s.delay t when) := by
  have hs := h.sleepers
  have hlen : ((s.delay t when).m.q .sleeping).length = (s.m.q .sleeping).length + 1 := by
    rw [delay_q ht, update_self, List.length_append, List.length_cons]
    have := congrArg List.length
      (List.rdropWhile_append_rtakeWhile (p := fun u => decide (when ≤ (s.g.task u).alarmtime)) (l := s.m.q .sleeping))
    rw [List.length_append] at this
    omega
  refine ⟨⟨h.slots.live, ?_⟩, h.registry.same rfl rfl rfl rfl rfl, ?_, ?_, ?_, ?_, ?_, sound_cons h.sound nofun nofun⟩
  · intro i hi
    have hslot := h.slots.slot i hi
    show (update s.g.task t _ (s.g.alltask i)).alltaskslot = i
    by_cases hu : s.g.alltask i = t
    · rw [hu, update_self]
      rw [hu] at hslot
      exact hslot
    · rw [update_of_ne hu]
      exact hslot
  · have hc := h.count
    show (if s.g.sleepingcounted = 0 then s.g.taskcount + 1 else s.g.taskcount) =
      s.g.nalltask + (if s.g.sleepingcounted + 1 = 0 then 0 else 1)
    split <;> split <;> omega
  · show s.g.sleepingcounted + 1 = _ + ((Obs.add .sleeping t :: s.g.log).countP Obs.isEvent : Nat)
    rw [hlen, List.countP_cons_of_neg (by simp [Obs.isEvent])]
    omega
  · rw [delay_loc ht]
    exact moves_add h.moves ht
  · rw [delay_q ht]
    exact order_sleeping h.order (Or.inl rfl) _
  · intro u
    rw [pc_delay]
    exact Asked.mono (h.asked u) rfl fun _ h => List.mem_cons_of_mem _ h

theorem inv_delay (h : Inv s) (hr : s.g.taskrunning = some t) (hp : (s.pc t).array = none) {k : Pc}
    (hk : home k = some .sleeping) (when : Nat) : Inv ((s.delay t when).leave t k) := by
  have ht := (h.here hr).2.2
  have hrests : k.rests = true ∧ (∀ l r, k ≠ .qlock l r) ∧ ∀ v, Has v t k := by
    cases k <;> first | exact ⟨rfl, nofun, fun _ => trivial⟩ | cases hk
  have hask : Asked (s.delay t when).g t k := by
    refine ⟨?_, fun l r he => absurd he (hrests.2.1 l _)⟩
    intro l hl
    rw [Option.some.inj (hl.symm.trans hk)]
    exact List.mem_cons_self
  refine ⟨⟨base_leave (base_delay h.base ht when) hask, ?_, h.chan⟩, ?_⟩
  · rw [core_leave (s := s.delay t when) hr, core_delay ht, update_idem, update_self]
    have hg := good_block (h.good t) (decide_eq_true hr) hrests.1 (array_of_home hk) hp
    rw [hk] at hg
    exact good_update h.good hg
  · rw [locks_leave, locks_delay ht, pc_leave, pc_delay]
    exact h.locks.setPc (hrests.2.2 _)

theorem _startfdtask_ok (h : Inv s) (ha : s.g.startedfdtask = true ∨ s.g.live a = false) :
    Ok (_startfdtask a) s fun _ s' => Inv s' ∧ s'.g.startedfdtask = true ∧ s'.g.taskrunning = s.g.taskrunning ∧
      ∀ u, s.g.live u = true → s'.pc u = s.pc u := by
  simp only [_startfdtask, ok_bind, ok_globals]
  split
  · rename_i hst
    exact ok_pure.mpr ⟨h, hst, rfl, fun _ _ => rfl⟩
  · rename_i hst
    have ha : s.g.live a = false := ha.resolve_left hst
    obtain ⟨s₁, hs₁⟩ : ∃ s₁, s₁ = s.modify fun g => { g with startedfdtask := true } := ⟨_, rfl⟩
    have hinv : Inv s₁ := hs₁ ▸ inv_modify h fun _ => rfl
    have hg : s₁.g.startedfdtask = true ∧ s₁.g.taskrunning = s.g.taskrunning ∧ s₁.g.live = s.g.live ∧ s₁.pc = s.pc := by
      rw [hs₁]
      exact ⟨rfl, rfl, rfl, rfl⟩
    obtain ⟨hg1, hg2, hg3, hg4⟩ := hg
    simp only [ok_bind, ok_modify, ok_globals, ← hs₁]
    refine (taskcreate_ok hinv (by rw [hg3]; exact ha) _).mono fun _ s' ⟨hs', hinv'⟩ => ⟨hinv', ?_, ?_, fun u hu => ?_⟩
    · rw [hs']
      exact hg1
    · rw [hs']
      exact hg2
    · have hua : u ≠ a := fun he => by
        rw [he, ha] at hu
        cases hu
      rw [hs', pc_ready, pc_create, update_of_ne hua, hg4]

theorem ok_insert (h : s.m.loc t = none) {ge : TaskPtr → Bool} {n : Nat} (hn : (s.m.q .sleeping).length ≤ n)
    {Q : Unit → St → Prop} : Ok (Prog.insert .sleeping t ge n (.pure ()) : Lib Unit) s Q ↔
      Q () ⟨s.g, s.m.insert .sleeping t ge⟩ := by
  simp only [Ok, Prog.onPlaces, h, hn, and_self, if_true]
  constructor
  · intro h'
    obtain ⟨b, s', he, hq⟩ := h'
    obtain ⟨rfl, rfl⟩ := Prod.mk.inj (Except.ok.inj he)
    exact hq
  · exact fun hq => ⟨_, _, rfl, hq⟩

theorem taskdelay_ok (h : Inv s) (hr : s.g.taskrunning = some t) (hp : s.pc t = .app)
    (ha : s.g.startedfdtask = true ∨ s.g.live a = false) {k : Pc} (hk : home k = some .sleeping) (ms now : Nat) :
    Ok (taskdelay ms now a k) s fun _ s' => Inv s' ∧ s'.m.loc t = some .sleeping := by
  have hl := (h.here hr).1
  simp only [taskdelay, ok_bind]
  refine (_startfdtask_ok h ha).mono fun _ s₁ ⟨h₁, _, hr₁, hp₁⟩ => ?_
  rw [ok_observe]
  obtain ⟨s₂, hs₂⟩ : ∃ s₂, s₂ = s₁.obs (.nsec now) := ⟨_, rfl⟩
  have h₂ : Inv s₂ := hs₂ ▸ inv_note h₁ rfl
  have hr₂ : s₂.g.taskrunning = some t := by rw [hs₂]; exact hr₁.trans hr
  have hp₂ : (s₂.pc t).array = none := by
    rw [hs₂]
    show (s₁.pc t).array = none
    rw [hp₁ t hl, hp]
    rfl
  obtain ⟨-, hz, hloc⟩ := h₂.here hr₂
  rw [← hs₂]
  simp only [ok_running hr₂, ok_globals, ok_insert hloc (h₂.length_le .sleeping), ok_observe, ok_setTask,
    ok_modify]
  have hdelay := inv_delay h₂ hr₂ hp₂ hk (u64 (now + ms * 1000000))
  rw [ok_taskswitch (t := t)]
  · simp only [State.obs, State.setTask, State.modify, Glob.observe, Glob.setTask, State.delay] at hdelay ⊢
    refine ⟨hdelay, ?_⟩
    exact (congrFun (delay_loc hloc _) t).trans (update_self ..)
  · exact hr₂
  · simp [State.obs, State.setTask, State.modify, Glob.observe, Glob.setTask, hz]

theorem fdwait_ok (h : Inv s) (hr : s.g.taskrunning = some t) (hp : s.pc t = .app) (ha : s.g.live a = false)
    (now : Nat) : Ok (fdwait now a) s fun _ s' => Inv s' ∧ s'.m.loc t = some .sleeping := by
  simp only [fdwait, ok_bind]
  refine (_startfdtask_ok h (Or.inr ha)).mono fun _ s₁ ⟨h₁, hst, hr₁, hp₁⟩ => ?_
  exact taskdelay_ok h₁ (hr₁.trans hr) ((hp₁ t (h.here hr).1).trans hp) (Or.inl hst) rfl 30000 now

/-! ## Waking -/

/-- A task leaves the sleeping list for an event. -/
def State.event (s : St) (u : TaskPtr) : St :=
  (((s.setTask u fun x => { x with udata := 0 }).pull .sleeping u).obs (.event u)).ready u

def State.countdown (s : St) : St :=
  s.modify fun g => { g with
    sleepingcounted := g.sleepingcounted - 1
    taskcount := if g.sleepingcounted - 1 = 0 then g.taskcount - 1 else g.taskcount }

/-- A task leaves the sleeping list for the time or at the shutdown. -/
def State.fdwake (s : St) (err : Int) (u : TaskPtr) : St :=
  ((s.pull .sleeping u).countdown.setTask u fun x => { x with udata := err }).ready u

theorem erase_sleeping (h : s.m.loc u = some .sleeping) :
    ((s.m.q .sleeping).erase u).length + 1 = (s.m.q .sleeping).length := by
  have hm := (s.m.mem_iff .sleeping u).mpr h
  have := List.length_pos_of_mem hm
  rw [List.length_erase_of_mem hm]
  omega

theorem base_event (h : Base s) (hu : s.m.loc u = some .sleeping) :
    Base (((s.setTask u fun x => { x with udata := 0 }).pull .sleeping u).obs (.event u)) := by
  have hset := base_setTask (u := u) (f := fun x => { x with udata := 0 }) h rfl (h.asked u)
  have hu' : (s.setTask u fun x => { x with udata := 0 }).m.loc u = some .sleeping := hu
  have hsl := h.sleepers
  have hquiet : (∀ l t, Obs.event u ≠ .add l t) ∧ ∀ l t, Obs.event u ≠ .del l t := ⟨nofun, nofun⟩
  refine ⟨⟨hset.slots.live, hset.slots.slot⟩, h.registry.same rfl rfl rfl rfl rfl, h.count, ?_, ?_, ?_, ?_,
    sound_cons (o := .event u) (sound_cons (o := .del .sleeping u) h.sound nofun nofun) nofun nofun⟩
  · show s.g.sleepingcounted = (((s.setTask u fun x => { x with udata := 0 }).pull .sleeping u).m.q .sleeping).length +
      ((Obs.event u :: .del .sleeping u :: s.g.log).countP Obs.isEvent : Nat)
    rw [pull_q hu', update_self, List.countP_cons_of_pos (by rfl), List.countP_cons_of_neg (by simp [Obs.isEvent])]
    have hlen : ((s.m.q .sleeping).erase u).length + 1 = (s.m.q .sleeping).length := erase_sleeping hu
    show s.g.sleepingcounted = (((s.m.q .sleeping).erase u).length : Int) + _
    omega
  · refine moves_quiet ?_ hquiet.1 hquiet.2
    show Moves ((s.setTask u fun x => { x with udata := 0 }).pull .sleeping u).m.loc _
    rw [pull_loc hu']
    exact moves_del h.moves hu
  · refine order_quiet ?_ hquiet.1 hquiet.2
    show Order ((s.setTask u fun x => { x with udata := 0 }).pull .sleeping u).m.q _
    rw [pull_q hu']
    exact order_sleeping (o := .del .sleeping u) h.order (Or.inr rfl) _
  · intro t
    exact Asked.mono (hset.asked t) rfl fun _ h => List.mem_cons_of_mem _ (List.mem_cons_of_mem _ h)

theorem base_countdown (h : Base s) (hu : s.m.loc u = some .sleeping) : Base (s.pull .sleeping u).countdown := by
  have hsl := h.sleepers
  have hlen := erase_sleeping hu
  refine ⟨⟨h.slots.live, h.slots.slot⟩, h.registry.same rfl rfl rfl rfl rfl, ?_, ?_, ?_, ?_, ?_,
    sound_cons (o := .del .sleeping u) h.sound nofun nofun⟩
  · have hc := h.count
    show (if s.g.sleepingcounted - 1 = 0 then s.g.taskcount - 1 else s.g.taskcount) =
      s.g.nalltask + (if s.g.sleepingcounted - 1 = 0 then 0 else 1)
    split <;> split at hc <;> omega
  · show s.g.sleepingcounted - 1 = ((s.pull .sleeping u).m.q .sleeping).length +
      ((Obs.del .sleeping u :: s.g.log).countP Obs.isEvent : Nat)
    rw [pull_q hu, update_self, List.countP_cons_of_neg (by simp [Obs.isEvent])]
    omega
  · show Moves (s.pull .sleeping u).m.loc (.del .sleeping u :: s.g.log)
    rw [pull_loc hu]
    exact moves_del h.moves hu
  · show Order (s.pull .sleeping u).m.q (.del .sleeping u :: s.g.log)
    rw [pull_q hu]
    exact order_sleeping h.order (Or.inr rfl) _
  · intro t
    exact Asked.mono (h.asked t) rfl fun _ h => List.mem_cons_of_mem _ h

/-- `s₁` is `s` but for `u`, which left the sleeping list. -/
theorem inv_roused {s₁ : St} (h : Inv s) (hu : s.m.loc u = some .sleeping) (hb : Base s₁)
    (hcore : s₁.core = update s.core u { s.core u with loc := none }) (hpc : s₁.pc = s.pc) (hlocks : s₁.locks = s.locks)
    (hchan : s₁.g.chan = s.g.chan) : Inv (s₁.ready u) := by
  have hloc : s₁.m.loc u = none := by
    show (s₁.core u).loc = none
    rw [hcore, update_self]
  refine ⟨⟨base_ready hb hloc, ?_, ?_⟩, ?_⟩
  · rw [core_ready hloc, hcore, update_idem, update_self]
    have hg : Good { s.core u with state := .READY, loc := some .taskrunqueue } := good_wake (h.good u) hu nofun
    exact good_update h.good hg
  · show Chan.Inv s₁.g.chan
    rw [hchan]
    exact h.chan
  · rw [locks_ready hloc, pc_ready, hlocks, hpc]
    exact h.locks

theorem inv_event (h : Inv s) (hu : s.m.loc u = some .sleeping) : Inv (s.event u) := by
  have hu' : (s.setTask u fun x => { x with udata := 0 }).m.loc u = some .sleeping := hu
  have hset : (s.setTask u fun x => { x with udata := 0 }).core = s.core := (core_setTask _).trans (update_eq_self u s.core)
  refine inv_roused h hu (base_event h.base hu) ?_ ?_ ?_ rfl
  · show ((s.setTask u fun x => { x with udata := 0 }).pull .sleeping u).core = _
    rw [core_pull hu', hset]
  · exact (pc_setTask fun x => { x with udata := 0 }).trans (update_eq_self u s.pc)
  · rw [locks_obs (fun _ => rfl) fun _ => rfl, locks_pull hu' rfl, locks_setTask]

theorem inv_fdwake (h : Inv s) (hu : s.m.loc u = some .sleeping) (err : Int) : Inv (s.fdwake err u) := by
  have hb := base_countdown h.base hu
  refine inv_roused h hu (base_setTask hb rfl (hb.asked u)) ?_ ?_ ?_ rfl
  · rw [core_setTask]
    refine Eq.trans ?_ (core_pull hu)
    exact update_eq_self u (s.pull .sleeping u).core
  · exact (pc_setTask (s := s.pull .sleeping u) fun x => { x with udata := err }).trans (update_eq_self u s.pc)
  · exact locks_pull hu rfl

theorem wake_sleeping (h : s.m.loc u = some .sleeping) :
    (s.wake .sleeping u).m.q .sleeping = (s.m.q .sleeping).erase u := by
  rw [wake_q h]
  simp

theorem wake_loc {x : ListRef} (h : s.m.loc u = some x) : (s.wake x u).m.loc = update s.m.loc u (some .taskrunqueue) := by
  have hpull : ((s.pull x u).setTask u fun x => { x with state := .READY }).m.loc u = none := by
    show (s.pull x u).m.loc u = none
    rw [pull_loc h, update_self]
  rw [State.wake, State.ready, push_loc hpull]
  show update (s.pull x u).m.loc u _ = _
  rw [pull_loc h, update_idem]

theorem event_m (u : TaskPtr) : (s.event u).m = (s.wake .sleeping u).m := by
  simp only [State.event, State.wake, State.ready, State.push, State.pull, State.obs, State.setTask, State.modify]

theorem event_running (u : TaskPtr) : (s.event u).g.taskrunning = s.g.taskrunning := by
  simp only [State.event, State.ready, State.push, State.pull, State.obs, State.setTask, State.modify, Glob.setTask,
    Glob.observe]

theorem fdwake_m (err : Int) (u : TaskPtr) : (s.fdwake err u).m = (s.wake .sleeping u).m := by
  simp only [State.fdwake, State.countdown, State.wake, State.ready, State.push, State.pull, State.setTask, State.modify]

/-- `s'` is behind some wake-ups, made by the task that runs in `s`. -/
structure Steady (s s' : St) : Prop where
  inv : Inv s'
  running : s'.g.taskrunning = s.g.taskrunning
  pc : s'.pc = s.pc
  alarm : ∀ u, (s'.g.task u).alarmtime = (s.g.task u).alarmtime

/-- Those that it woke are as `P` says, and find `x` in their `udata`. The others are as they were. -/
structure Woke (P : TaskPtr → Prop) (x : Int) (s s' : St) : Prop extends Steady s s' where
  each : ∀ u, s'.m.loc u = s.m.loc u ∧ s'.g.task u = s.g.task u ∨
    P u ∧ s.m.loc u = some .sleeping ∧ s'.m.loc u = some .taskrunqueue ∧ (s'.g.task u).udata = x

section
variable {P : TaskPtr → Prop} {x : Int} {s₁ s₂ s₃ : St}

theorem Steady.trans (h : Steady s₁ s₂) (h' : Steady s₂ s₃) : Steady s₁ s₃ :=
  ⟨h'.inv, h'.running.trans h.running, h'.pc.trans h.pc, fun u => (h'.alarm u).trans (h.alarm u)⟩

theorem woke_refl (h : Inv s) : Woke P x s s := ⟨⟨h, rfl, rfl, fun _ => rfl⟩, fun _ => .inl ⟨rfl, rfl⟩⟩

theorem Woke.trans (h : Woke P x s₁ s₂) (h' : Woke P x s₂ s₃) : Woke P x s₁ s₃ where
  toSteady := h.toSteady.trans h'.toSteady
  each u := by
    rcases h.each u with ⟨hl, ht⟩ | ⟨hp, hs, hl, hu⟩
    · rw [← hl, ← ht]
      exact h'.each u
    · rcases h'.each u with ⟨hl', ht'⟩ | ⟨-, hs', -, -⟩
      · exact .inr ⟨hp, hs, hl'.trans hl, by rw [ht']; exact hu⟩
      · exact nomatch hl.symm.trans hs'

theorem Woke.mono {Q : TaskPtr → Prop} (h : Woke P x s₁ s₂) (hq : ∀ u, P u → Q u) : Woke Q x s₁ s₂ :=
  ⟨h.toSteady, fun u => (h.each u).imp id (And.imp (hq u) id)⟩

/-- `u` was woken. -/
theorem woke_of_wake {s' : St} (h : Steady s s') (hu : s.m.loc u = some .sleeping) (hp : P u)
    (hm : s'.m = (s.wake .sleeping u).m) (hx : (s'.g.task u).udata = x) (ho : ∀ w, w ≠ u → s'.g.task w = s.g.task w) :
    Woke P x s s' := by
  have hloc : s'.m.loc = update s.m.loc u (some .taskrunqueue) := by rw [hm, wake_loc hu]
  refine ⟨h, fun w => ?_⟩
  by_cases hw : w = u
  · subst hw
    exact .inr ⟨hp, hu, by rw [hloc, update_self], hx⟩
  · exact .inl ⟨by rw [hloc, update_of_ne hw], ho w hw⟩

end

theorem event_task (u w : TaskPtr) : (s.event u).g.task w =
    if w = u then { s.g.task u with udata := 0, state := .READY } else s.g.task w := by
  by_cases hw : w = u
  · subst hw
    simp [State.event, State.ready, State.push, State.pull, State.obs, State.setTask, State.modify, Glob.setTask, Glob.observe]
  · simp [State.event, State.ready, State.push, State.pull, State.obs, State.setTask, State.modify, Glob.setTask, Glob.observe, hw]

theorem fdwake_task (err : Int) (u w : TaskPtr) : (s.fdwake err u).g.task w =
    if w = u then { s.g.task u with udata := err, state := .READY } else s.g.task w := by
  by_cases hw : w = u
  · subst hw
    simp [State.fdwake, State.countdown, State.ready, State.push, State.pull, State.setTask, State.modify, Glob.setTask,
      Glob.observe]
  · simp [State.fdwake, State.countdown, State.ready, State.push, State.pull, State.setTask, State.modify, Glob.setTask,
      Glob.observe, hw]

theorem woke_event (h : Inv s) (hu : s.m.loc u = some .sleeping) {P : TaskPtr → Prop} (hp : P u) : Woke P 0 s (s.event u) := by
  refine woke_of_wake ⟨inv_event h hu, event_running u, ?_, fun w => ?_⟩ hu hp (event_m u) ?_ fun w hw => ?_
  · rw [State.event, pc_ready]
    exact (pc_setTask fun x => { x with udata := 0 }).trans (update_eq_self u s.pc)
  · rw [event_task]
    split <;> rename_i hw
    · rw [hw]
    · rfl
  · rw [event_task, if_pos rfl]
  · rw [event_task, if_neg hw]

theorem woke_fdwake (h : Inv s) (hu : s.m.loc u = some .sleeping) (err : Int) {P : TaskPtr → Prop} (hp : P u) :
    Woke P err s (s.fdwake err u) := by
  refine woke_of_wake ⟨inv_fdwake h hu err, rfl, ?_, fun w => ?_⟩ hu hp (fdwake_m err u) ?_ fun w hw => ?_
  · rw [State.fdwake, pc_ready]
    exact (pc_setTask (s := s.pull .sleeping u) fun x => { x with udata := err }).trans (update_eq_self u s.pc)
  · rw [fdwake_task]
    split <;> rename_i hw
    · rw [hw]
    · rfl
  · rw [fdwake_task, if_pos rfl]
  · rw [fdwake_task, if_neg hw]

theorem ok_fdwake (h : Inv s) (hu : s.m.loc u = some .sleeping) {err : Int} {Q : Unit → St → Prop}
    (hq : Q () (s.fdwake err u)) : Ok (fdwake err u) s Q := by
  simp only [fdwake, ok_bind, ok_deltask hu, ok_modify, ok_setTask]
  rw [ok_taskready]
  · exact hq
  · show (s.pull .sleeping u).m.loc u = none
    rw [pull_loc hu, update_self]
  · have hz := h.zero hu nofun
    simp [State.pull, State.setTask, State.modify, Glob.setTask, Glob.observe, hz]

theorem fdevents_ok : ∀ {ts : List TaskPtr} {s : St}, Inv s → ts.Nodup → (∀ t ∈ ts, s.m.loc t = some .sleeping) →
    Ok (fdevents ts) s fun _ s' => Woke (· ∈ ts) 0 s s' ∧ ∀ t ∈ ts, s'.m.loc t = some .taskrunqueue := by
  intro ts
  induction ts with
  | nil =>
    intro s h _ _
    exact ok_pure.mpr ⟨woke_refl h, fun t ht => nomatch ht⟩
  | cons u ts ih =>
    intro s h hnd hall
    obtain ⟨hut, hnd⟩ := List.nodup_cons.mp hnd
    have hu := hall u List.mem_cons_self
    have hu' : (s.setTask u fun x => { x with udata := 0 }).m.loc u = some .sleeping := hu
    simp only [fdevents, ok_bind, ok_setTask, ok_deltask hu', ok_observe]
    rw [ok_taskready]
    · have hloc : (s.event u).m.loc = update s.m.loc u (some .taskrunqueue) := by
        rw [event_m, wake_loc hu]
      refine (ih (s := s.event u) (inv_event h hu) hnd ?_).mono fun _ s' ⟨hw, hq⟩ =>
        ⟨(woke_event h hu List.mem_cons_self).trans (hw.mono fun _ => List.mem_cons_of_mem u), fun t ht => ?_⟩
      · intro t ht
        rw [hloc, update_of_ne fun he : t = u => hut (he ▸ ht)]
        exact hall t (List.mem_cons_of_mem _ ht)
      · rcases List.mem_cons.mp ht with rfl | ht
        · have hq : (s.event t).m.loc t = some .taskrunqueue := by rw [hloc, update_self]
          rcases hw.each t with ⟨he, -⟩ | ⟨-, hs, -, -⟩
          · exact he.trans hq
          · exact nomatch hq.symm.trans hs
        · exact hq t ht
    · show ((s.setTask u fun x => { x with udata := 0 }).pull .sleeping u).m.loc u = none
      rw [pull_loc hu', update_self]
    · have hz := h.zero hu nofun
      simp [State.obs, State.pull, State.setTask, State.modify, Glob.setTask, Glob.observe, hz]

/-- The loop over the sleeping tasks whose time has come. -/
theorem timers_ok (h : Inv s) (now : Nat) (err : Int) :
    Ok (loop (fun _ => expired now) (fdwake err) s.g.nalltask 0) s fun _ s' =>
      Woke (fun u => (s.g.task u).alarmtime ≤ now) err s s' := by
  have hloop := ok_loop (c := fun _ => expired now) (b := fdwake err)
    (P := fun _ xs s' => Woke (fun u => (s.g.task u).alarmtime ≤ now) err s s' ∧
      xs = (s'.m.q .sleeping).takeWhile fun u => (s.g.task u).alarmtime ≤ now)
    (fun i xs s' ⟨hs, hx⟩ => ?_) (fun i u xs s' ⟨hs, hx⟩ => ?_)
    ((s.m.q .sleeping).takeWhile fun u => (s.g.task u).alarmtime ≤ now) (i := 0)
    ⟨woke_refl h, rfl⟩ (Nat.le_trans (List.takeWhile_prefix _).length_le (h.length_le .sleeping))
  · exact hloop.mono fun _ s' hn => hn.2.1
  · simp only [expired, ok_bind, ok_head]
    cases hq : s'.m.q .sleeping with
    | nil =>
      rw [hq] at hx
      simp only [List.head?_nil, ok_pure]
      exact ⟨by rw [hx]; rfl, trivial⟩
    | cons u us =>
      rw [hq, List.takeWhile_cons] at hx
      simp only [List.head?_cons, ok_bind, ok_globals, hs.alarm u]
      by_cases hle : (s.g.task u).alarmtime ≤ now
      · rw [if_pos hle, ok_pure]
        exact ⟨by rw [hx, if_pos (decide_eq_true hle)]; rfl, rfl⟩
      · rw [if_neg hle, ok_pure]
        exact ⟨by rw [hx, if_neg (by simpa using hle)]; rfl, rfl⟩
  · cases hq : s'.m.q .sleeping with
    | nil => rw [hq] at hx; cases hx
    | cons v vs =>
      rw [hq, List.takeWhile_cons] at hx
      split at hx
      · rename_i hle
        obtain ⟨rfl, hxs⟩ := List.cons.inj hx
        have hu : s'.m.loc u = some .sleeping := loc_of_head (by rw [hq]; rfl)
        refine ok_fdwake hs.inv hu ⟨hs.trans (woke_fdwake hs.inv hu err (of_decide_eq_true hle)), ?_⟩
        have hqe : (s'.fdwake err u).m.q .sleeping = (s'.m.q .sleeping).erase u := by
          rw [fdwake_m, wake_sleeping hu]
        rw [hqe, hq, List.erase_cons_head]
        exact hxs
      · cases hx

/-- The loop over all sleeping tasks, at the shutdown. -/
theorem shutdown_ok (h : Inv s) (err : Int) :
    Ok (loop (fun _ => head .sleeping) (fdwake err) s.g.nalltask 0) s fun _ s' =>
      Woke (fun _ => True) err s s' ∧ s'.m.q .sleeping = [] := by
  have hloop := ok_loop (c := fun _ => head .sleeping) (b := fdwake err)
    (P := fun _ xs s' => Woke (fun _ => True) err s s' ∧ xs = s'.m.q .sleeping)
    (fun i xs s' ⟨hs, hx⟩ => ok_head.mpr ⟨by rw [hx], rfl⟩) (fun i u xs s' ⟨hs, hx⟩ => ?_)
    (s.m.q .sleeping) (i := 0) ⟨woke_refl h, rfl⟩ (h.length_le .sleeping)
  · exact hloop.mono fun _ s' hn => ⟨hn.2.1, hn.2.2.symm⟩
  · have hu : s'.m.loc u = some .sleeping := loc_of_head (by rw [← hx]; rfl)
    refine ok_fdwake hs.inv hu ⟨hs.trans (woke_fdwake hs.inv hu err trivial), ?_⟩
    have hqe : (s'.fdwake err u).m.q .sleeping = (s'.m.q .sleeping).erase u := by
      rw [fdwake_m, wake_sleeping hu]
    rw [hqe, ← hx, List.erase_cons_head]

/-! ## `fdtask` -/

theorem registered_loc (h : Inv s) (hu : Registered s.g u) : s.m.loc u = some .sleeping := by
  obtain ⟨hl, ⟨n, hp⟩, hz, hr⟩ := hu
  cases (h.good u).status with
  | dead h1 _ _ _ => exact nomatch hl.symm.trans h1
  | running _ h2 _ _ => exact absurd (of_decide_eq_true h2) hr
  | ready _ _ h3 _ _ => exact nomatch hz.symm.trans h3
  | resting _ _ _ h4 _ =>
    refine h4.trans ?_
    rw [show (s.core u).pc = .fdwait n from hp]
    rfl

theorem fdyield_ok (h : Inv s) (hr : s.g.taskrunning = some t) (hp : (s.pc t).array = none) (v : Option Nat) :
    Ok (taskyield (.fdtask v)) s fun _ s' => Inv s' :=
  taskyield_ok h hr hp fun _ => ⟨nofun, rfl, fun _ => ⟨nofun, nofun⟩, fun _ => trivial⟩

theorem fdpolled_ok (h : Inv s) (hr : s.g.taskrunning = some t) (hp : (s.pc t).array = none) {poll : Poll}
    (hpoll : ∀ ts, poll = .events ts → ts.Nodup ∧ ∀ u ∈ ts, Registered s.g u) (v : Option Nat) (now' : Nat) :
    Ok (fdpolled v poll now') s fun _ s' => Inv s' := by
  cases poll with
  | eintr => exact fdyield_ok h hr hp v
  | failed => exact ok_modify.mpr (inv_modify h fun _ => rfl)
  | events ts =>
    obtain ⟨hnd, hreg⟩ := hpoll ts rfl
    have hall : ∀ u ∈ ts, s.m.loc u = some .sleeping := fun u hu => registered_loc h (hreg u hu)
    simp only [fdpolled, ok_bind, ok_observe, ok_globals]
    refine (fdevents_ok h hnd hall).mono fun _ s₁ ⟨h₁, _⟩ => ?_
    refine (timers_ok (s := s₁.obs (.nsec now')) (inv_note h₁.inv rfl) now' LIBTASK_TIMEOUT).mono ?_
    intro _ s₂ h₂
    have hr₂ : s₂.g.taskrunning = some t := h₂.running.trans (h₁.running.trans hr)
    have hp₂ : (s₂.pc t).array = none := by
      rw [h₂.pc]
      show (s₁.pc t).array = none
      rw [h₁.pc]
      exact hp
    cases v with
    | none => exact fdyield_ok h₂.inv hr₂ hp₂ none
    | some fn =>
      have hr₃ : (s₂.obs (.callback fn s₂.g.pool_loop_arg)).g.taskrunning = some t := hr₂
      simp only [ok_bind, ok_globals, ok_observe, ok_running hr₃, ok_setTask]
      exact inv_back (inv_note h₂.inv rfl) hr₃ hp₂

theorem fdpoll_ok (h : Inv s) (hr : s.g.taskrunning = some t) (hp : (s.pc t).array = none) {poll : Poll}
    (hpoll : ∀ ts, poll = .events ts → ts.Nodup ∧ ∀ u ∈ ts, Registered s.g u) (v : Option Nat) (now now' : Nat) :
    Ok (fdpoll v now poll now') s fun _ s' => Inv s' := by
  simp only [fdpoll, ok_bind, ok_head]
  cases (s.m.q .sleeping).head? with
  | none =>
    simp only [ok_bind, ok_observe]
    exact fdpolled_ok (inv_note h rfl) hr hp hpoll v now'
  | some u =>
    simp only [ok_bind, ok_observe, ok_globals]
    exact fdpolled_ok (inv_note (inv_note h rfl) rfl) hr hp hpoll v now'

theorem fdcallback_ok (h : Inv s) (hr : s.g.taskrunning = some t) (hp : (s.pc t).array = none) (v : Option Nat) (r : Int) :
    Ok (fdcallback v r) s fun _ s' => Inv s' := by
  simp only [fdcallback]
  split
  · simp only [ok_bind, ok_globals]
    refine (shutdown_ok h EIO).mono ?_
    intro _ s₁ hs₁
    obtain ⟨h₁, -⟩ := hs₁
    rw [ok_modify]
    refine taskexit_ok (inv_modify h₁.inv fun _ => rfl) (h₁.running.trans hr) ?_
    show (s₁.pc t).array = none
    rw [h₁.pc]
    exact hp
  · exact fdyield_ok h hr hp v

end

end Libtask.Sched
