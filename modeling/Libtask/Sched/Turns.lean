/-
  Libtask.Sched.Turns — the calls of task.c and channel.c, from a state in which the invariant
  holds: tasks are created, get ready, take turns, wait for channels and exit.
-/

import Libtask.Sched.Calls

namespace Libtask.Sched

open Function (update update_self update_of_ne update_idem)
open Libtask.Lib

section
variable {s : St} {t u a : TaskPtr}

/-! ## Creation -/

/-- `taskcreateraw`, with the memory that `malloc` returned. -/
def State.create (s : St) (fn : StartFn) (a : TaskPtr) : St :=
  s.modify fun g => { g with
    live := update g.live a true
    allocs := .malloc a :: g.allocs
    taskidgen := g.taskidgen + 1
    taskcount := g.taskcount + 1
    allcap := if g.nalltask % 1024 = 0 then g.nalltask + 1024 else g.allcap
    alltask := update g.alltask g.nalltask a
    nalltask := g.nalltask + 1
    uses := (g.nalltask, if g.nalltask % 1024 = 0 then g.nalltask + 1024 else g.allcap) :: g.uses
    task := update g.task a
      { alarmtime := 0, id := (g.taskidgen + 1).signExtend 64, state := .zero, alltaskslot := g.nalltask, startfn := fn
        udata := 0, pc := .start } }

theorem Good.dead {c : Core} (h : Good c) (hl : c.live = false) : c.running = false ∧ c.loc = none ∧ c.wait = none := by
  cases h.status with
  | dead _ h2 h3 h4 => exact ⟨h2, h3, h4⟩
  | running h1 _ _ _ => rw [hl] at h1; cases h1
  | ready h1 _ _ _ _ => rw [hl] at h1; cases h1
  | resting h1 _ _ _ _ => rw [hl] at h1; cases h1

theorem ok_taskcreateraw {fn : StartFn} (h : s.m.loc a = none) {Q : Unit → St → Prop} (hq : Q () (s.create fn a)) :
    Ok (taskcreateraw fn a) s Q := by
  have hclear : ∀ {R : Unit → St → Prop}, R () s → Ok (Prog.clear a (.pure ()) : Lib Unit) s R := fun hr => by
    simp only [Ok, Prog.onPlaces, h, if_true]
    exact ⟨_, _, rfl, hr⟩
  simp only [taskcreateraw, taskalloc, ok_bind]
  refine hclear ?_
  simp only [ok_modify, ok_globals, ok_setTask]
  simp only [State.create, State.setTask, State.modify, Glob.setTask, update_self, update_idem] at hq ⊢
  exact hq

theorem core_create (fn : StartFn) (a : TaskPtr) : (s.create fn a).core =
    update s.core a { s.core a with live := true, state := .zero, pc := .start } := by
  funext t
  by_cases ht : t = a
  · subst ht
    simp only [State.core, State.create, State.modify, update_self]
    rfl
  · simp only [State.core, State.create, State.modify, update_of_ne ht]
    rfl

theorem pc_create (fn : StartFn) (a : TaskPtr) : (s.create fn a).pc = update s.pc a .start := by
  funext t
  by_cases ht : t = a
  · subst ht
    simp only [State.pc, State.create, State.modify, update_self]
  · simp only [State.pc, State.create, State.modify, update_of_ne ht]

theorem slots_create (h : Slots s.g) (ha : s.g.live a = false) (fn : StartFn) : Slots (s.create fn a).g := by
  have hne : ∀ i < s.g.nalltask, s.g.alltask i ≠ a := fun i hi he => by
    have := (h.live (s.g.alltask i)).mpr ⟨i, hi, rfl⟩
    rw [he, ha] at this
    cases this
  refine ⟨?_, ?_⟩
  · intro t
    show update s.g.live a true t = true ↔ ∃ i < s.g.nalltask + 1, update s.g.alltask s.g.nalltask a i = t
    by_cases ht : t = a
    · subst ht
      rw [update_self]
      exact ⟨fun _ => ⟨s.g.nalltask, by omega, update_self ..⟩, fun _ => rfl⟩
    · rw [update_of_ne ht, h.live t]
      constructor
      · intro h'
        obtain ⟨i, hi, hit⟩ := h'
        exact ⟨i, by omega, by rw [update_of_ne (by omega)]; exact hit⟩
      · intro h'
        obtain ⟨i, hi, hit⟩ := h'
        by_cases hin : i = s.g.nalltask
        · rw [hin, update_self] at hit
          exact absurd hit.symm ht
        · rw [update_of_ne hin] at hit
          exact ⟨i, by omega, hit⟩
  · intro i hi
    show (update s.g.task a _ (update s.g.alltask s.g.nalltask a i)).alltaskslot = i
    have hi : i < s.g.nalltask + 1 := hi
    by_cases hin : i = s.g.nalltask
    · rw [hin, update_self, update_self]
    · rw [update_of_ne hin, update_of_ne (hne i (by omega))]
      exact h.slot i (by omega)

theorem registry_create (h : Registry s.g) (ha : s.g.live a = false) (fn : StartFn) : Registry (s.create fn a).g := by
  obtain ⟨n, hn⟩ := h.steps
  have hroom := h.room
  have hnew : s.g.nalltask < if s.g.nalltask % 1024 = 0 then s.g.nalltask + 1024 else s.g.allcap := by
    split <;> omega
  refine ⟨?_, hnew, fun x hx => ?_, ⟨fun hal => ?_, h.valid⟩, fun t => ?_⟩
  · show 1024 ∣ if s.g.nalltask % 1024 = 0 then s.g.nalltask + 1024 else s.g.allcap
    split <;> omega
  · rcases List.mem_cons.mp hx with rfl | hx
    · exact hnew
    · exact h.uses x hx
  · exact nomatch ha.symm.trans ((h.allocated a).mp hal)
  · show t = a ∨ Alloc.Allocated s.g.allocs t ↔ update s.g.live a true t = true
    rw [h.allocated t]
    by_cases ht : t = a
    · subst ht
      rw [update_self]
      exact ⟨fun _ => rfl, fun _ => .inl rfl⟩
    · rw [update_of_ne ht]
      exact ⟨fun h => h.resolve_left ht, .inr⟩

theorem inv_create (h : Inv s) (ha : s.g.live a = false) (fn : StartFn) : Inv (s.create fn a) := by
  obtain ⟨h1, h2, h3⟩ := (h.good a).dead ha
  have hb := h.base
  refine ⟨⟨⟨slots_create hb.slots ha fn, registry_create hb.registry ha fn, ?_, hb.sleepers, hb.moves, hb.order, ?_, hb.sound⟩,
    ?_, h.chan⟩, ?_⟩
  · show s.g.taskcount + 1 = ((s.g.nalltask + 1 : Nat) : Int) + (if s.g.sleepingcounted = 0 then 0 else 1)
    rw [hb.count]
    omega
  · intro t
    rw [pc_create]
    by_cases ht : t = a
    · subst ht
      rw [update_self]
      exact ⟨nofun, nofun⟩
    · rw [update_of_ne ht]
      exact Asked.mono (hb.asked t) rfl fun _ h => h
  · rw [core_create]
    refine good_update h.good ⟨.resting rfl h1 rfl h2 rfl, h3, nofun⟩
  · rw [pc_create]
    exact h.locks.setPc trivial

/-! ## Getting ready -/

theorem inv_ready (h : Inv s) (hu : s.m.loc u = none) (hl : s.g.live u = true) (hr : s.g.taskrunning ≠ some u)
    (hp : s.pc u ≠ .app) (ha : (s.pc u).array = none) : Inv (s.ready u) where
  base := base_ready h.base hu
  good := by
    rw [core_ready hu]
    exact good_update h.good (good_ready (h.good u) hl (decide_eq_false hr) hp ha)
  chan := h.chan
  locks := by rw [locks_ready hu, pc_ready]; exact h.locks

theorem taskcreate_ok (h : Inv s) (ha : s.g.live a = false) (fn : StartFn) :
    Ok (taskcreate fn a) s fun _ s' => s' = (s.create fn a).ready a ∧ Inv s' := by
  obtain ⟨h1, h2, -⟩ := (h.good a).dead ha
  have h2' : (s.create fn a).m.loc a = none := h2
  have hr : s.g.taskrunning ≠ some a := of_decide_eq_false h1
  have hpc : (s.create fn a).pc a = .start := by rw [pc_create, update_self]
  have hne : (s.create fn a).pc a ≠ .app := by rw [hpc]; nofun
  simp only [taskcreate, ok_bind]
  refine ok_taskcreateraw h2 ?_
  rw [ok_taskready h2' (by simp [State.create, State.modify])]
  refine ⟨rfl, inv_ready (inv_create h ha fn) h2' (update_self ..) hr hne (by rw [hpc]; rfl)⟩

/-! ## Turns -/

theorem inv_yield (h : Inv s) (hr : s.g.taskrunning = some t) (hp : (s.pc t).array = none) {k : Pc} (hk : k ≠ .app)
    (ha : k.array = none) (hask : Asked s.g t k) (hhas : Has s.locks t k) : Inv ((s.ready t).leave t k) := by
  obtain ⟨hl, _, hloc⟩ := h.here hr
  refine ⟨⟨base_leave (base_ready h.base hloc) (hask.mono rfl fun _ => List.mem_cons_of_mem _), ?_, h.chan⟩, ?_⟩
  · rw [core_leave (s := s.ready t) hr, core_ready hloc, update_idem, update_self]
    refine good_update h.good ⟨.ready hl rfl rfl rfl hk, ?_, ?_⟩
    · show (s.core t).wait = k.array
      rw [(h.good t).wait, ha]
      exact hp
    · intro a he
      have he : k = .chanalt a := he
      rw [he] at ha
      cases ha
  · rw [locks_leave, locks_ready hloc, pc_leave, pc_ready]
    exact h.locks.setPc hhas

theorem taskyield_ok (h : Inv s) (hr : s.g.taskrunning = some t) (hp : (s.pc t).array = none) {k : BitVec 32 → Pc}
    (hk : ∀ n, k n ≠ .app ∧ (k n).array = none ∧ (∀ g, Asked g t (k n)) ∧ ∀ v, Has v t (k n)) :
    Ok (taskyield k) s fun _ s' => Inv s' := by
  obtain ⟨-, hz, hloc⟩ := h.here hr
  obtain ⟨h1, h2, h3, h4⟩ := hk s.g.tasknswitch
  simp only [taskyield, ok_bind, ok_globals, ok_running hr]
  rw [ok_taskready hloc (by rw [hz]; nofun), ok_taskswitch (s := s.ready t) hr]
  · exact inv_yield h hr hp h1 h2 (h3 _) (h4 _)
  · simp [State.ready, State.push, State.setTask, State.modify, Glob.setTask, Glob.observe]

theorem taskswitch_ok (h : Inv s) (hr : s.g.taskrunning = some t) (hp : (s.pc t).array = none) :
    Ok (taskswitch .parked) s fun _ s' => Inv s' := by
  obtain ⟨hl, hz, hloc⟩ := h.here hr
  rw [ok_taskswitch hr (h.awake hr)]
  refine ⟨⟨base_leave h.base ⟨nofun, nofun⟩, ?_, h.chan⟩, ?_⟩
  · rw [core_leave hr]
    refine good_update h.good ⟨.resting hl rfl hz hloc rfl, ?_, nofun⟩
    exact (h.good t).wait.trans hp
  · rw [locks_leave, pc_leave]
    exact h.locks.setPc trivial

/-- The scheduler takes the first task of the run queue. -/
def State.dispatch (s : St) (t : TaskPtr) : St :=
  ((s.pull .taskrunqueue t).setTask t fun x => { x with state := .zero }).modify fun g =>
    { g with taskrunning := some t, tasknswitch := g.tasknswitch + 1 }

theorem core_dispatch (hr : s.g.taskrunning = none) (ht : s.m.loc t = some .taskrunqueue) : (s.dispatch t).core =
    update s.core t { s.core t with running := true, state := .zero, loc := none } := by
  funext u
  have hset : ((s.pull .taskrunqueue t).setTask t fun x => { x with state := .zero }).core u =
      update s.core t { s.core t with state := .zero, loc := none } u := by
    rw [core_setTask, core_pull ht, update_idem, update_self]
    rfl
  have hcore : (s.dispatch t).core u =
      { ((s.pull .taskrunqueue t).setTask t fun x => { x with state := .zero }).core u with
        running := decide (some t = some u) } := rfl
  rw [hcore, hset]
  by_cases hu : u = t
  · subst hu
    simp only [update_self, decide_true]
  · have hne : ¬ some t = some u := fun he => hu (Option.some.inj he).symm
    simp only [update_of_ne hu, decide_eq_false hne]
    simp [State.core, hr]

theorem inv_dispatch (h : Inv s) (hr : s.g.taskrunning = none) (hq : (s.m.q .taskrunqueue).head? = some t) :
    Inv (s.dispatch t) := by
  have ht := loc_of_head hq
  obtain ⟨h1, -, h3, -⟩ := (h.good t).queued ht
  have hpull := base_pull h.base hq nofun
  refine ⟨⟨base_modify (base_setTask hpull rfl (hpull.asked t)) fun _ => rfl, ?_, h.chan⟩, ?_⟩
  · rw [core_dispatch hr ht]
    refine good_update h.good ⟨.running h1 rfl rfl rfl, (h.good t).wait, ?_⟩
    intro a he
    -- it was chosen, or it would not be in the run queue
    have hne := mt ((h.good t).chosen a he).mp fun hz => nomatch h3.symm.trans hz.1
    exact ⟨fun h0 => absurd h0 hne, fun hf => nomatch hf.2⟩
  · have hpc : (s.dispatch t).pc = s.pc :=
      (pc_setTask (s := s.pull .taskrunqueue t) fun x => { x with state := .zero }).trans (Function.update_eq_self t s.pc)
    rw [show (s.dispatch t).locks = (s.pull .taskrunqueue t).locks from rfl, locks_pull ht rfl, hpc]
    exact h.locks

theorem taskscheduler_ok (h : Inv s) (hr : s.g.taskrunning = none) : Ok taskscheduler s fun _ s' => Inv s' := by
  simp only [taskscheduler, ok_bind, ok_globals]
  split
  · exact ok_modify.mpr (inv_modify h fun _ => rfl)
  · simp only [ok_bind, ok_head]
    cases hq : (s.m.q .taskrunqueue).head? with
    | none => exact ok_modify.mpr (inv_modify h fun _ => rfl)
    | some t =>
      simp only [ok_bind, ok_deltask (loc_of_head hq), ok_setTask, ok_modify]
      exact inv_dispatch h hr hq

/-! ## Exit -/

/-- The running `t` exits and is freed: the last of `alltask` takes its slot. -/
def State.exit (s : St) (t : TaskPtr) : St :=
  s.modify fun g =>
    let i := (g.task t).alltaskslot
    let u := g.alltask (g.nalltask - 1)
    let task := update g.task t { g.task t with state := .EXITING, pc := .app }
    { g with
      taskrunning := none
      taskcount := g.taskcount - 1
      nalltask := g.nalltask - 1
      alltask := update g.alltask i u
      uses := (i, g.allcap) :: (g.nalltask - 1, g.allcap) :: g.uses
      task := update task u { task u with alltaskslot := i }
      live := update g.live t false
      allocs := .free t :: g.allocs }

theorem ok_taskexit (hr : s.g.taskrunning = some t) {Q : Unit → St → Prop} (hq : Q () (s.exit t)) : Ok taskexit s Q := by
  have hr' : (s.setTask t fun x => { x with state := .EXITING }).g.taskrunning = some t := hr
  simp only [taskexit, taskswitch, ok_bind, ok_running hr, ok_setTask, ok_running hr', ok_modify, ok_globals]
  simp only [State.exit, State.setTask, State.modify, Glob.setTask, update_self, update_idem] at hq ⊢
  simp only [if_true, ok_bind, ok_modify, ok_globals, ok_setTask, free]
  simp only [State.setTask, State.modify, Glob.setTask, update_self]
  exact hq

/-- Moving to another slot, a task stays as it is. -/
theorem exit_task (t u : TaskPtr) :
    ((s.exit t).g.task u).state = (update s.g.task t { s.g.task t with state := .EXITING, pc := .app } u).state ∧
      ((s.exit t).g.task u).pc = (update s.g.task t { s.g.task t with state := .EXITING, pc := .app } u).pc := by
  simp only [State.exit, State.modify]
  by_cases hv : u = s.g.alltask (s.g.nalltask - 1)
  · subst hv
    simp only [update_self, and_self]
  · simp only [update_of_ne hv, and_self]

theorem pc_exit : (s.exit t).pc = update s.pc t .app := by
  funext u
  rw [State.pc, (exit_task t u).2]
  by_cases hu : u = t
  · subst hu
    simp only [update_self]
  · simp only [update_of_ne hu]
    rfl

theorem core_exit (hr : s.g.taskrunning = some t) : (s.exit t).core =
    update s.core t { s.core t with live := false, running := false, state := .EXITING, pc := .app } := by
  funext u
  have hc : (s.exit t).core u = ⟨update s.g.live t false u, false, ((s.exit t).g.task u).state, s.m.loc u,
      ((s.exit t).g.task u).pc, s.g.chan.wait u, s.g.chan.woken u⟩ := by
    simp [State.core, State.exit, State.modify]
  rw [hc, (exit_task t u).1, (exit_task t u).2]
  by_cases hu : u = t
  · subst hu
    simp only [update_self]
    rfl
  · simp only [update_of_ne hu]
    simp [State.core, hr, Ne.symm hu]

/-- A task is in the slot that it knows. -/
theorem Slots.own {g : Glob} (h : Slots g) (hl : g.live t = true) :
    (g.task t).alltaskslot < g.nalltask ∧ g.alltask (g.task t).alltaskslot = t := by
  obtain ⟨i, hi, rfl⟩ := (h.live t).mp hl
  rw [h.slot i hi]
  exact ⟨hi, rfl⟩

/-- A task has one slot. -/
theorem Slots.inj {g : Glob} (h : Slots g) {i j : Nat} (hi : i < g.nalltask) (hj : j < g.nalltask)
    (he : g.alltask i = g.alltask j) : i = j := by
  rw [← h.slot i hi, he, h.slot j hj]

theorem slots_exit (h : Slots s.g) (hl : s.g.live t = true) : Slots (s.exit t).g := by
  obtain ⟨hi, hit⟩ := h.own hl
  generalize hslot : (s.g.task t).alltaskslot = i at hi hit
  refine ⟨?_, ?_⟩
  · intro u
    show update s.g.live t false u = true ↔
      ∃ j < s.g.nalltask - 1, update s.g.alltask (s.g.task t).alltaskslot (s.g.alltask (s.g.nalltask - 1)) j = u
    rw [hslot]
    by_cases hu : u = t
    · subst hu
      rw [update_self]
      refine ⟨nofun, fun ⟨j, hj, hju⟩ => ?_⟩
      by_cases hji : j = i
      · subst hji
        rw [update_self, ← hit] at hju
        have := h.inj (by omega) hi hju
        omega
      · rw [update_of_ne hji, ← hit] at hju
        exact absurd (h.inj (by omega) hi hju) hji
    · rw [update_of_ne hu, h.live u]
      constructor
      · intro h'
        obtain ⟨j, hj, hju⟩ := h'
        have hji : j ≠ i := fun he => hu (by rw [← hju, he, hit])
        by_cases hjn : j = s.g.nalltask - 1
        · exact ⟨i, by omega, by rw [update_self, ← hjn]; exact hju⟩
        · exact ⟨j, by omega, by rw [update_of_ne hji]; exact hju⟩
      · intro h'
        obtain ⟨j, hj, hju⟩ := h'
        by_cases hji : j = i
        · subst hji
          rw [update_self] at hju
          exact ⟨s.g.nalltask - 1, by omega, hju⟩
        · rw [update_of_ne hji] at hju
          exact ⟨j, by omega, hju⟩
  · intro j hj
    have hj : j < s.g.nalltask - 1 := hj
    simp only [State.exit, State.modify, hslot]
    by_cases hji : j = i
    · subst hji
      simp only [update_self]
    · have hjn : s.g.alltask j ≠ s.g.alltask (s.g.nalltask - 1) := fun he => by
        have := h.inj (by omega) (by omega) he
        omega
      have hjt : s.g.alltask j ≠ t := fun he => hji (h.inj (by omega) hi (he.trans hit.symm))
      simp only [update_of_ne hji, update_of_ne hjn, update_of_ne hjt]
      exact h.slot j (by omega)

theorem registry_exit (h : Registry s.g) (hs : Slots s.g) (hl : s.g.live t = true) : Registry (s.exit t).g := by
  obtain ⟨hi, -⟩ := hs.own hl
  have hroom := h.room
  refine ⟨h.steps, ?_, fun x hx => ?_, ⟨(h.allocated t).mpr hl, h.valid⟩, fun u => ?_⟩
  · show s.g.nalltask - 1 ≤ s.g.allcap
    omega
  · rcases List.mem_cons.mp hx with rfl | hx
    · show (s.g.task t).alltaskslot < s.g.allcap
      omega
    · rcases List.mem_cons.mp hx with rfl | hx
      · show s.g.nalltask - 1 < s.g.allcap
        omega
      · exact h.uses x hx
  · show u ≠ t ∧ Alloc.Allocated s.g.allocs u ↔ update s.g.live t false u = true
    rw [h.allocated u]
    by_cases hu : u = t
    · subst hu
      rw [update_self]
      exact ⟨fun h => absurd rfl h.1, nofun⟩
    · rw [update_of_ne hu]
      exact ⟨And.right, fun h => ⟨hu, h⟩⟩

theorem taskexit_ok (h : Inv s) (hr : s.g.taskrunning = some t) (hp : (s.pc t).array = none) :
    Ok taskexit s fun _ s' => Inv s' := by
  obtain ⟨hl, -, hloc⟩ := h.here hr
  have hb := h.base
  have hpos : 0 < s.g.nalltask := Nat.zero_lt_of_lt (hb.slots.own hl).1
  refine ok_taskexit hr ⟨⟨⟨slots_exit hb.slots hl, registry_exit hb.registry hb.slots hl, ?_, hb.sleepers, hb.moves, hb.order, ?_,
    hb.sound⟩, ?_, h.chan⟩, ?_⟩
  · show s.g.taskcount - 1 = ((s.g.nalltask - 1 : Nat) : Int) + (if s.g.sleepingcounted = 0 then 0 else 1)
    rw [hb.count]
    omega
  · intro u
    rw [pc_exit]
    by_cases hu : u = t
    · subst hu
      rw [update_self]
      exact ⟨nofun, nofun⟩
    · rw [update_of_ne hu]
      exact Asked.mono (hb.asked u) rfl fun _ h => h
  · rw [core_exit hr]
    exact good_update h.good ⟨.dead rfl rfl hloc ((h.good t).wait.trans hp), (h.good t).wait.trans hp, nofun⟩
  · rw [pc_exit]
    exact h.locks.setPc trivial

/-! ## Channels -/

def State.setChan (s : St) (c : Chan.St) : St := s.modify fun g => { g with chan := c }

theorem base_setChan (h : Base s) (c : Chan.St) : Base (s.setChan c) := base_modify h fun _ => rfl

theorem ok_ready_chosen {c : Chan.St} (h : Inv s) (hw : s.g.chan.wait u ≠ none) (h0 : s.g.chan.woken u = 0)
    (hcw : c.wait = s.g.chan.wait) (hck : c.woken = update s.g.chan.woken u 1) (hc : Chan.Inv c) :
    Ok (taskready u) (s.setChan c) fun _ s' => Inv s' := by
  obtain ⟨a, ha⟩ : ∃ a, s.pc u = .chanalt a := by
    have hwait : s.g.chan.wait u = (s.pc u).array := (h.good u).wait
    rw [hwait] at hw
    cases hk : s.pc u <;> rw [hk] at hw <;> first | exact absurd rfl hw | exact ⟨_, rfl⟩
  obtain ⟨hz, hr⟩ := ((h.good u).chosen a ha).mp h0
  have hrest : s.g.live u = true ∧ s.m.loc u = none := by
    cases (h.good u).status with
    | dead _ _ _ h4 => exact absurd h4 hw
    | running _ h2 _ _ => rw [hr] at h2; cases h2
    | ready _ _ h3 _ _ => rw [hz] at h3; cases h3
    | resting h1 _ _ h4 _ =>
      refine ⟨h1, h4.trans ?_⟩
      rw [show (s.core u).pc = .chanalt a from ha]
      rfl
  have hloc : (s.setChan c).m.loc u = none := hrest.2
  rw [ok_taskready hloc (by rw [show ((s.setChan c).g.task u).state = .zero from hz]; nofun)]
  refine ⟨⟨base_ready (base_setChan h.base c) hloc, ?_, hc⟩, ?_⟩
  · intro t
    rw [core_ready hloc]
    by_cases ht : t = u
    · subst ht
      rw [update_self]
      refine ⟨.ready hrest.1 hr rfl rfl ?_, ?_, ?_⟩
      · rw [show ((s.setChan c).core t).pc = .chanalt a from ha]
        nofun
      · show c.wait t = (s.pc t).array
        rw [hcw]
        exact (h.good t).wait
      · intro b _
        show c.woken t = 0 ↔ _
        rw [hck, update_self]
        exact ⟨nofun, fun hf => nomatch hf.1⟩
    · rw [update_of_ne ht]
      have hcore : (s.setChan c).core t = s.core t := by
        show { s.core t with wait := c.wait t, woken := c.woken t } = s.core t
        rw [hcw, hck, update_of_ne ht]
        rfl
      rw [hcore]
      exact h.good t
  · rw [locks_ready hloc, pc_ready]
    exact h.locks

theorem chanalt_ok (h : Inv s) (hr : s.g.taskrunning = some t) (hp : s.pc t = .app) {a : Nat} {xs : List Chan.Alt}
    (hc : Chan.Callable s.g.chan t a xs) (r1 r2 : Nat) : Ok (chanalt a xs r1 r2) s fun _ s' => Inv s' := by
  obtain ⟨hl, hz, hloc⟩ := h.here hr
  obtain ⟨c', w, ret, ho, hcall⟩ := Chan.call_outcome h.chan hc r1 r2
  have hinv := Chan.inv_outcome h.chan hc ho
  simp only [chanalt, ok_bind, ok_running hr, ok_globals, hcall, ok_modify]
  obtain ⟨c, hcdef⟩ : ∃ c, c = Chan.settled c' t a w ret := ⟨_, rfl⟩
  have hwaits := Chan.outcome_waits ho
  rw [← hcdef] at hinv hwaits ⊢
  have hsame : c.wait = s.g.chan.wait → c.woken = s.g.chan.woken → Inv (s.setChan c) := fun h1 h2 => by
    refine ⟨⟨base_setChan h.base c, ?_, hinv⟩, h.locks⟩
    intro u
    show Good { s.core u with wait := c.wait u, woken := c.woken u }
    rw [h1, h2]
    exact h.good u
  cases hwaits with
  | chose u v hw h0 hcw hck =>
    refine ok_bind.mpr ((ok_ready_chosen h hw h0 hcw hck hinv).mono ?_)
    intro _ s' hs'
    exact ok_observe.mpr (inv_note hs' rfl)
  | went v hcw hck =>
    exact ok_observe.mpr (inv_note (hsame hcw hck) rfl)
  | blocked hcw hck =>
    have hr' : (s.setChan c).g.taskrunning = some t := hr
    refine (ok_taskswitch hr' (h.awake hr)).mpr ⟨⟨base_leave (base_setChan h.base c) ⟨nofun, nofun⟩, ?_, hinv⟩, ?_⟩
    · rw [core_leave hr']
      intro u
      by_cases hu : u = t
      · subst hu
        rw [update_self]
        refine ⟨.resting hl rfl hz hloc rfl, ?_, ?_⟩
        · show c.wait u = some a
          rw [hcw, update_self]
        · intro b _
          show c.woken u = 0 ↔ (s.g.task u).state = .zero ∧ _
          rw [hck, update_self]
          exact ⟨fun _ => ⟨hz, rfl⟩, fun _ => rfl⟩
      · rw [update_of_ne hu]
        show Good { s.core u with wait := c.wait u, woken := c.woken u }
        rw [hcw, hck, update_of_ne hu, update_of_ne hu]
        exact h.good u
    · rw [locks_leave, pc_leave]
      exact h.locks.setPc trivial

theorem chanaltresume_ok (h : Inv s) (hr : s.g.taskrunning = some t) {a : Nat} (hp : s.pc t = .chanalt a) :
    Ok (chanaltresume a) s fun _ s' => Inv s' := by
  obtain ⟨hl, hz, hloc⟩ := h.here hr
  have hw : s.g.chan.wait t = some a := by
    have := (h.good t).wait
    rw [show (s.core t).pc = .chanalt a from hp] at this
    exact this
  have hk : s.g.chan.woken t ≠ 0 := fun h0 => by
    have := ((h.good t).chosen a hp).mp h0
    exact absurd hr (of_decide_eq_false this.2)
  obtain ⟨c, hstep, hinv⟩ := Chan.step_spec h.chan (e := .resume t) ⟨by rw [hw]; rfl, hk⟩
  obtain rfl : { s.g.chan with wait := update s.g.chan.wait t none } = c := Except.ok.inj hstep
  obtain ⟨-, i, -, -, hx⟩ := h.chan.chosen t a hw hk
  have hres : Chan.chanaltResult { s.g.chan with wait := update s.g.chan.wait t none } a = some i := by
    have hx' : (({ s.g.chan with wait := update s.g.chan.wait t none } : Chan.St).deref ⟨a, 0⟩).xalt = some ⟨a, i⟩ := hx
    simp [Chan.chanaltResult, hx']
  simp only [chanaltresume, ok_bind, ok_running hr, ok_globals, hstep, hres, ok_modify, ok_observe, ok_setTask]
  obtain ⟨c, hc⟩ : ∃ c : Chan.St, c = { s.g.chan with wait := update s.g.chan.wait t none } := ⟨_, rfl⟩
  rw [← hc] at hinv ⊢
  have hb := base_obs (base_setChan h.base c) (o := .ret t i) rfl (sound_note h.base.sound rfl)
  refine ⟨⟨base_back hb, ?_, hinv⟩, ?_⟩
  · intro u
    show Good ((((s.setChan c).obs (.ret t i)).back t).core u)
    rw [core_back]
    by_cases hu : u = t
    · subst hu
      rw [update_self]
      refine ⟨.running hl (decide_eq_true hr) hz hloc, ?_, ?_⟩
      · show c.wait u = none
        rw [hc]
        exact update_self ..
      · intro b hb
        cases hb
    · rw [update_of_ne hu]
      show Good { s.core u with wait := c.wait u, woken := c.woken u }
      rw [hc]
      simp only [update_of_ne hu]
      exact h.good u
  · show LocksOk s.locks (((s.setChan c).obs (.ret t i)).back t).pc
    rw [pc_back]
    exact h.locks.setPc trivial

end

end Libtask.Sched
