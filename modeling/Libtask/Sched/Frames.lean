/-
  Libtask.Sched.Frames — what a call leaves alone.

  `Frame t g g'`: between `g` and `g'` task `t` ran, or the main program, and no task was
  dispatched or exited. The other tasks stay where they go on, and are as they were or got
  ready; `t` went to sleep only with the `fdtask` started; new tasks start from the beginning.

  `Own t K g g'`: `t` itself stays where it is or goes on at a place in `K`. Only the `fdtask`
  wakes sleeping tasks.

  `Keeps t K m`: `m` makes such a step and no task (`Calm`), whatever the lists are. All functions
  of the library do, but those that create tasks, `taskscheduler`, `taskexit` and the end of the
  `fdtask`.
-/

import Libtask.Sched.Steps

namespace Libtask.Sched

open Function (update update_self update_of_ne update_idem)

/-- `t` runs, or nobody. -/
def At (t : TaskPtr) (g : Glob) : Prop :=
  ∀ u, g.taskrunning = some u → u = t ∧ g.live u = true ∧ (g.task u).state ≠ .EXITING

/-- `u` is new: not started, and the only `fdtask` among the new ones if it is one. -/
structure Fresh (g g' : Glob) (u : TaskPtr) : Prop where
  pc : (g'.task u).pc = .start
  state : (g'.task u).state ≠ .EXITING
  fn : (g'.task u).startfn = .app ∨ g.startedfdtask = false ∧ g'.startedfdtask = true ∧ (g'.task u).state = .READY ∧
    (g'.task u).startfn = .fdtask g'.pool_loop_fn ∧
    ∀ w, g.live w = false → g'.live w = true → (g'.task w).startfn ≠ .app → w = u

/-- How often `u` left the sleeping list. -/
def Glob.woken (g : Glob) (u : TaskPtr) : Nat := g.log.count (.del .sleeping u)

structure Frame (t : TaskPtr) (g g' : Glob) : Prop where
  log : ∃ new, g'.log = new ++ g.log ∧ ∀ u, .del .taskrunqueue u ∉ new
  switches : g'.tasknswitch = g.tasknswitch
  running : g'.taskrunning = g.taskrunning ∨ g'.taskrunning = none
  phase : g'.phase = g.phase ∨ g'.phase = .exited
  started : g.startedfdtask = true → g'.startedfdtask = true
  starts : g.startedfdtask = false → g'.startedfdtask = true →
    ∃ u, g.live u = false ∧ g'.live u = true ∧ (g'.task u).startfn ≠ .app
  counted : g'.sleepingcounted ≤ g.sleepingcounted ∨ g'.startedfdtask = true
  loopfn : g'.pool_loop_fn = g.pool_loop_fn
  live : ∀ u, g.live u = true → g'.live u = true
  dead : g.live t = false → g'.live t = false
  state : ∀ u, g.live u = true → (g'.task u).state = (g.task u).state ∨ (g'.task u).state = .READY
  startfn : ∀ u, g.live u = true → (g'.task u).startfn = (g.task u).startfn
  pc : ∀ u, g.live u = true → u ≠ t → (g'.task u).pc = (g.task u).pc
  udata : ∀ u, g.live u = true → u ≠ t → g'.woken u = g.woken u → (g'.task u).udata = (g.task u).udata
  asleep : home (g'.task t).pc = some .sleeping → (g'.task t).pc = (g.task t).pc ∨ g'.startedfdtask = true
  fresh : ∀ u, g.live u = false → g'.live u = true → Fresh g g' u

section
variable {t u : TaskPtr} {g g' g'' : Glob} {K : Pc → Prop} {α β : Type}

theorem frame_refl (t : TaskPtr) (g : Glob) : Frame t g g where
  log := ⟨[], rfl, by simp⟩
  switches := rfl
  running := .inl rfl
  phase := .inl rfl
  started := id
  starts h h' := by rw [h] at h'; cases h'
  counted := .inl (Int.le_refl _)
  loopfn := rfl
  live _ := id
  dead := id
  state _ _ := .inl rfl
  startfn _ _ := rfl
  pc _ _ _ := rfl
  udata _ _ _ _ := rfl
  asleep _ := .inl rfl
  fresh u h h' := by rw [h] at h'; cases h'

theorem Frame.at (h : Frame t g g') (hg : At t g) : At t g' := by
  intro u hu
  rcases h.running with hr | hr <;> rw [hr] at hu
  · obtain ⟨rfl, hl, hs⟩ := hg u hu
    refine ⟨rfl, h.live u hl, ?_⟩
    rcases h.state u hl with he | he <;> rw [he]
    · exact hs
    · nofun
  · cases hu

theorem Frame.ready (h : Frame t g g') (hl : g.live u = true) (hs : (g.task u).state = .READY) :
    (g'.task u).state = .READY := (h.state u hl).elim (·.trans hs) id

theorem Frame.woken_le (h : Frame t g g') (u : TaskPtr) : g.woken u ≤ g'.woken u := by
  obtain ⟨new, hnew, -⟩ := h.log
  rw [Glob.woken, Glob.woken, hnew, List.count_append]
  exact Nat.le_add_left _ _

theorem Frame.trans (h : Frame t g g') (h' : Frame t g' g'') : Frame t g g'' where
  log := by
    obtain ⟨new, h1, h2⟩ := h.log
    obtain ⟨new', h3, h4⟩ := h'.log
    exact ⟨new' ++ new, by rw [h3, h1, List.append_assoc], fun u hu => (List.mem_append.mp hu).elim (h4 u) (h2 u)⟩
  switches := h'.switches.trans h.switches
  running := by
    rcases h'.running with hr | hr
    · rw [hr]
      exact h.running
    · exact .inr hr
  phase := by
    rcases h'.phase with hp | hp
    · rw [hp]
      exact h.phase
    · exact .inr hp
  started := h'.started ∘ h.started
  starts hf ht := by
    by_cases hst : g'.startedfdtask = true
    · obtain ⟨u, h1, h2, h3⟩ := h.starts hf hst
      exact ⟨u, h1, h'.live u h2, by rw [h'.startfn u h2]; exact h3⟩
    · obtain ⟨u, h1, h2, h3⟩ := h'.starts (by simpa using hst) ht
      refine ⟨u, ?_, h2, h3⟩
      by_contra hl
      rw [h.live u (by simpa using hl)] at h1
      cases h1
  counted := by
    rcases h'.counted with hc' | hc'
    · rcases h.counted with hc | hc
      · exact .inl (Int.le_trans hc' hc)
      · exact .inr (h'.started hc)
    · exact .inr hc'
  loopfn := h'.loopfn.trans h.loopfn
  live u := h'.live u ∘ h.live u
  dead := h'.dead ∘ h.dead
  state u hl := by
    rcases h'.state u (h.live u hl) with he | he
    · rw [he]
      exact h.state u hl
    · exact .inr he
  startfn u hl := (h'.startfn u (h.live u hl)).trans (h.startfn u hl)
  pc u hl hu := (h'.pc u (h.live u hl) hu).trans (h.pc u hl hu)
  udata u hl hu hw := by
    have h1 := h.woken_le u
    have h2 := h'.woken_le u
    exact (h'.udata u (h.live u hl) hu (by omega)).trans (h.udata u hl hu (by omega))
  asleep hk := by
    rcases h'.asleep hk with he | he
    · rw [he] at hk ⊢
      exact (h.asleep hk).imp id h'.started
    · exact .inr he
  fresh u hd hl := by
    by_cases hl' : g'.live u = true
    · have hut : u ≠ t := fun he => by
        subst he
        rw [h.dead hd] at hl'
        cases hl'
      obtain ⟨h1, h2, h3⟩ := h.fresh u hd hl'
      refine ⟨(h'.pc u hl' hut).trans h1, ?_, ?_⟩
      · rcases h'.state u hl' with he | he <;> rw [he]
        · exact h2
        · nofun
      · rw [h'.startfn u hl']
        rcases h3 with h3 | ⟨h3, h4, h5, h6, h7⟩
        · exact .inl h3
        · refine .inr ⟨h3, h'.started h4, h'.ready hl' h5, by rw [h6, h'.loopfn], fun w hw hw' hne => ?_⟩
          by_cases hlw : g'.live w = true
          · exact h7 w hw hlw (by rw [← h'.startfn w hlw]; exact hne)
          · -- there is one `fdtask` already
            obtain ⟨-, -, hf⟩ := h'.fresh w (by simpa using hlw) hw'
            rcases hf with hf | hf
            · exact absurd hf hne
            · rw [h4] at hf
              exact nomatch hf.1
    · obtain ⟨h1, h2, h3⟩ := h'.fresh u (by simpa using hl') hl
      refine ⟨h1, h2, ?_⟩
      rcases h3 with h3 | ⟨h3, h4, h5, h6, h7⟩
      · exact .inl h3
      · have hst : g.startedfdtask = false := by
          by_contra hne
          rw [h.started (by simpa using hne)] at h3
          cases h3
        refine .inr ⟨hst, h4, h5, h6, fun w hw hw' hne => ?_⟩
        by_cases hlw : g'.live w = true
        · obtain ⟨-, -, hf⟩ := h.fresh w hw hlw
          rw [h'.startfn w hlw] at hne
          rcases hf with hf | hf
          · exact absurd hf hne
          · rw [h3] at hf
            exact nomatch hf.2.1
        · exact h7 w (by simpa using hlw) hw' hne

/-- Nobody is new, and the flag is as it was. -/
structure Calm (t : TaskPtr) (g g' : Glob) : Prop extends Frame t g g' where
  lives : g'.live = g.live
  flag : g'.startedfdtask = g.startedfdtask

theorem calm_refl (t : TaskPtr) (g : Glob) : Calm t g g := ⟨frame_refl t g, rfl, rfl⟩

theorem Calm.trans (h : Calm t g g') (h' : Calm t g' g'') : Calm t g g'' :=
  ⟨h.toFrame.trans h'.toFrame, h'.lives.trans h.lives, h'.flag.trans h.flag⟩

theorem calm_old (hlog : ∃ new, g'.log = new ++ g.log ∧ ∀ u, .del .taskrunqueue u ∉ new)
    (hn : g'.tasknswitch = g.tasknswitch) (hr : g'.taskrunning = g.taskrunning ∨ g'.taskrunning = none)
    (hph : g'.phase = g.phase ∨ g'.phase = .exited) (hst : g'.startedfdtask = g.startedfdtask)
    (hc : g'.sleepingcounted ≤ g.sleepingcounted) (hp : g'.pool_loop_fn = g.pool_loop_fn) (hl : g'.live = g.live)
    (htask : ∀ u, (g'.task u).startfn = (g.task u).startfn ∧
      ((g'.task u).state = (g.task u).state ∨ (g'.task u).state = .READY) ∧ (u ≠ t → (g'.task u).pc = (g.task u).pc))
    (hud : ∀ u, u ≠ t → g'.woken u = g.woken u → (g'.task u).udata = (g.task u).udata)
    (hk : home (g'.task t).pc = some .sleeping → (g'.task t).pc = (g.task t).pc ∨ g'.startedfdtask = true) :
    Calm t g g' where
  log := hlog
  switches := hn
  running := hr
  phase := hph
  started h := by rw [hst]; exact h
  starts h h' := by rw [hst, h] at h'; cases h'
  counted := .inl hc
  loopfn := hp
  live u h := by rw [hl]; exact h
  dead h := by rw [hl]; exact h
  state u _ := (htask u).2.1
  startfn u _ := (htask u).1
  pc u _ := (htask u).2.2
  udata u _ := hud u
  asleep := hk
  fresh u h h' := by rw [hl, h] at h'; cases h'
  lives := hl
  flag := hst

/-- What `t` does to itself: it goes on where it was, or at a place in `K`. -/
structure Own (t : TaskPtr) (K : Pc → Prop) (g g' : Glob) : Prop where
  goes : (g'.task t).pc = (g.task t).pc ∨ K (g'.task t).pc
  data : g'.woken t = g.woken t → (g'.task t).udata = (g.task t).udata
  wakes : (∀ u, g'.woken u = g.woken u) ∨ K .app ∧ ∃ v n, K (.fdtask v n)

theorem own_refl (t : TaskPtr) (K : Pc → Prop) (g : Glob) : Own t K g g := ⟨.inl rfl, fun _ => rfl, .inl fun _ => rfl⟩

/-- `t` ran, and goes on where it was or at a place in `K`. -/
structure Acts (t : TaskPtr) (K : Pc → Prop) (g g' : Glob) : Prop extends Frame t g g', Own t K g g'

theorem Acts.trans (h : Acts t K g g') (h' : Acts t K g' g'') : Acts t K g g'' where
  toFrame := h.toFrame.trans h'.toFrame
  goes := by
    rcases h'.goes with hp | hp
    · rw [hp]
      exact h.goes
    · exact .inr hp
  data hw := by
    have h1 := h.woken_le t
    have h2 := h'.woken_le t
    exact (h'.data (by omega)).trans (h.data (by omega))
  wakes := by
    rcases h.wakes with hw | hw
    · rcases h'.wakes with hw' | hw'
      · exact .inl fun u => (hw' u).trans (hw u)
      · exact .inr hw'
    · exact .inr hw

/-! ## Programs -/

def Keeps (t : TaskPtr) (K : Pc → Prop) (m : Lib α) : Prop := ∀ g, At t g → m.All (fun _ g' => Calm t g g' ∧ Own t K g g') g

theorem keeps_bind {m : Lib α} {f : α → Lib β} (h : Keeps t K m) (h' : ∀ a, Keeps t K (f a)) : Keeps t K (m >>= f) := by
  intro g hg
  rw [all_bind]
  refine all_mono (fun a g' hf => ?_) (h g hg)
  obtain ⟨hc, ho⟩ := hf
  refine all_mono (fun b g'' hf' => ?_) (h' a g' (hc.at hg))
  exact ⟨hc.trans hf'.1, (Acts.trans ⟨hc.toFrame, ho⟩ ⟨hf'.1.toFrame, hf'.2⟩).toOwn⟩

theorem keeps_pure (a : α) : Keeps t K (pure a : Lib α) := fun g _ => ⟨calm_refl t g, own_refl t K g⟩

theorem keeps_abort (why : String) : Keeps t K (abort why : Lib α) := fun _ _ => trivial

theorem keeps_globals : Keeps t K globals := fun g _ => ⟨calm_refl t g, own_refl t K g⟩

theorem keeps_head (l : ListRef) : Keeps t K (head l) := fun g _ _ => ⟨calm_refl t g, own_refl t K g⟩

theorem all_globals {f : Glob → Lib β} {Q : β → Glob → Prop} (h : (f g).All Q g) : (globals >>= f).All Q g := h

/-- Only `t` can run. -/
theorem all_running {f : TaskPtr → Lib β} {Q : β → Glob → Prop} (hg : At t g) (h : g.taskrunning = some t → (f t).All Q g) :
    (running >>= f).All Q g := by
  rw [all_bind]
  unfold running
  refine all_globals ?_
  cases hr : g.taskrunning with
  | none => trivial
  | some u =>
    obtain ⟨rfl, -⟩ := hg u hr
    exact h hr

theorem keeps_running {f : TaskPtr → Lib β} (h : Keeps t K (f t)) : Keeps t K (running >>= f) := fun g hg =>
  all_running hg fun _ => h g hg

/-- Globals that nothing here depends on. -/
theorem keeps_modify {f : Glob → Glob} (hf : ∀ g, f g =
    { g with
      taskcount := (f g).taskcount, alltask := (f g).alltask, allcap := (f g).allcap, nalltask := (f g).nalltask
      taskidgen := (f g).taskidgen, sleepingcounted := (f g).sleepingcounted, pool_loop_arg := (f g).pool_loop_arg
      owner := (f g).owner, rw := (f g).rw, chan := (f g).chan })
    (hc : ∀ g, (f g).sleepingcounted ≤ g.sleepingcounted) : Keeps t K (modify f) := by
  intro g _
  show Calm t g (f g) ∧ Own t K g (f g)
  have hcg := hc g
  rw [hf g] at hcg ⊢
  exact ⟨calm_old ⟨[], rfl, by simp⟩ rfl (.inl rfl) (.inl rfl) rfl hcg rfl rfl (fun _ => ⟨rfl, .inl rfl, fun _ => rfl⟩)
    (fun _ _ _ => rfl) fun _ => .inl rfl, .inl rfl, fun _ => rfl, .inl fun _ => rfl⟩

theorem keeps_exit : Keeps t K (modify fun g => { g with phase := .exited }) := fun _ _ =>
  ⟨calm_old ⟨[], rfl, by simp⟩ rfl (.inl rfl) (.inr rfl) rfl (Int.le_refl _) rfl rfl (fun _ => ⟨rfl, .inl rfl, fun _ => rfl⟩)
    (fun _ _ _ => rfl) fun _ => .inl rfl, .inl rfl, fun _ => rfl, .inl fun _ => rfl⟩

theorem keeps_note {o : Obs} (hr : ∀ u, o ≠ .del .taskrunqueue u) (hs : ∀ u, o ≠ .del .sleeping u) : Keeps t K (observe o) :=
  fun _ _ =>
    ⟨calm_old ⟨[o], rfl, fun u hu => hr u (List.mem_singleton.mp hu).symm⟩ rfl (.inl rfl) (.inl rfl) rfl (Int.le_refl _) rfl rfl
      (fun _ => ⟨rfl, .inl rfl, fun _ => rfl⟩) (fun _ _ _ => rfl) fun _ => .inl rfl, .inl rfl, fun _ => rfl,
      .inl fun u => List.count_cons_of_ne (hs u)⟩

theorem keeps_observe {o : Obs} (ho : ∀ l u, o ≠ .del l u) : Keeps t K (observe o) := keeps_note (ho _) (ho _)

theorem keeps_addtask (l : ListRef) (u : TaskPtr) : Keeps t K (addtask l u) :=
  keeps_observe (o := .add l u) nofun

theorem keeps_deltask {l : ListRef} (hr : l ≠ .taskrunqueue) (hs : l ≠ .sleeping) (u : TaskPtr) : Keeps t K (deltask l u) :=
  keeps_note (o := .del l u) (fun _ he => hr (Obs.del.inj he).1) fun _ he => hs (Obs.del.inj he).1

theorem setTask_eq (g : Glob) (u w : TaskPtr) (f : Task → Task) :
    (g.setTask u f).task w = g.task w ∨ w = u ∧ (g.setTask u f).task w = f (g.task w) := by
  by_cases hw : w = u
  · subst hw
    exact .inr ⟨rfl, update_self ..⟩
  · exact .inl (update_of_ne hw _ _)

/-- Changes of a task that leave its function, and the rest but for the running task's `pc`. -/
theorem keeps_setTask {f : Task → Task} (hfn : ∀ x, (f x).startfn = x.startfn)
    (hst : ∀ x, (f x).state = x.state ∨ (f x).state = .READY) (hpc : u = t ∨ ∀ x, (f x).pc = x.pc)
    (hud : ∀ x, (f x).udata = x.udata) (hk : ∀ x, home (f x).pc = some .sleeping → (f x).pc = x.pc)
    (hK : ∀ x, (f x).pc = x.pc ∨ K (f x).pc) : Keeps t K (setTask u f) := by
  intro g _
  have htask := setTask_eq g u
  have hsame : ∀ w, ((g.setTask u f).task w).udata = (g.task w).udata := fun w => by
    rcases htask w f with he | ⟨-, he⟩ <;> rw [he]
    exact hud _
  refine ⟨calm_old ⟨[], rfl, by simp⟩ rfl (.inl rfl) (.inl rfl) rfl (Int.le_refl _) rfl rfl (fun w => ?_)
    (fun w _ _ => hsame w) fun hs => ?_, ?_, fun _ => hsame t, .inl fun _ => rfl⟩
  · rcases htask w f with he | ⟨rfl, he⟩ <;> rw [he]
    · exact ⟨rfl, .inl rfl, fun _ => rfl⟩
    · exact ⟨hfn _, hst _, fun hw => hpc.resolve_left hw _⟩
  · rcases htask t f with he | ⟨-, he⟩ <;> rw [he] at hs ⊢
    · exact .inl rfl
    · exact .inl (hk _ hs)
  · rcases htask t f with he | ⟨-, he⟩ <;> rw [he]
    · exact .inl rfl
    · exact hK _

theorem keeps_loop {c : Nat → Lib (Option TaskPtr)} {b : TaskPtr → Lib Unit} (hc : ∀ i, Keeps t K (c i))
    (hb : ∀ u, Keeps t K (b u)) : ∀ fuel i, Keeps t K (loop c b fuel i) := by
  intro fuel
  induction fuel with
  | zero =>
    intro i
    refine keeps_bind (hc i) ?_
    intro o
    cases o with
    | none => exact keeps_pure i
    | some u => exact keeps_abort _
  | succ fuel ih =>
    intro i
    refine keeps_bind (hc i) ?_
    intro o
    cases o with
    | none => exact keeps_pure i
    | some u => exact keeps_bind (hb u) fun _ => ih (i + 1)

/-! ## task.c -/

theorem keeps_taskready (u : TaskPtr) : Keeps t K (taskready u) := by
  refine keeps_bind keeps_globals ?_
  intro g
  split
  · exact keeps_pure ()
  · refine keeps_bind (keeps_setTask (fun _ => rfl) (fun _ => .inr rfl) (.inr fun _ => rfl) (fun _ => rfl) (fun _ _ => rfl)
      fun _ => .inl rfl) ?_
    exact fun _ => keeps_addtask .taskrunqueue u

theorem all_taskready (u : TaskPtr) : (taskready u).All (fun _ g' => (g'.task u).state = .READY) g := by
  show Prog.All _ (if (g.task u).state = .READY then pure () else _) g
  split
  · assumption
  · exact congrArg Task.state (update_self u { g.task u with state := .READY } g.task)

theorem all_taskswitch {pc : Pc} (hg : At t g) (hpc : home pc = some .sleeping → g.startedfdtask = true) (hK : K pc) :
    (taskswitch pc).All (fun _ g' => Calm t g g' ∧ Own t K g g') g := by
  refine all_running hg fun hr => ?_
  have hs := (hg t hr).2.2
  have hx : ((g.setTask t fun x => { x with pc := pc }).task t) = { g.task t with pc := pc } := update_self ..
  have hw : ∀ w, w ≠ t → ((g.setTask t fun x => { x with pc := pc }).task w) = g.task w := fun w hw => update_of_ne hw _ _
  have hpc' : ((g.setTask t fun x => { x with pc := pc }).task t).pc = pc := congrArg Task.pc hx
  show Prog.All (fun _ g' => Calm t g g' ∧ Own t K g g')
    (if ((g.setTask t fun x => { x with pc := pc }).task t).state = .EXITING then _ else pure ()) _
  rw [if_neg (by rw [hx]; exact hs)]
  refine ⟨calm_old ⟨[], rfl, by simp⟩ rfl (.inr rfl) (.inl rfl) rfl (Int.le_refl _) rfl rfl (fun w => ?_)
    (fun w h _ => congrArg Task.udata (hw w h)) fun hk => ?_, .inr ?_, fun _ => ?_, .inl fun _ => rfl⟩
  · by_cases h : w = t
    · subst h
      exact ⟨(congrArg Task.startfn hx).trans rfl, .inl ((congrArg Task.state hx).trans rfl), fun h => absurd rfl h⟩
    · exact ⟨congrArg Task.startfn (hw w h), .inl (congrArg Task.state (hw w h)), fun _ => congrArg Task.pc (hw w h)⟩
  · exact .inr (hpc (by rw [← hpc']; exact hk))
  · show K ((g.setTask t fun x => { x with pc := pc }).task t).pc
    rw [hpc']
    exact hK
  · exact (congrArg Task.udata hx).trans rfl

theorem all_taskswitch_pc {pc : Pc} (hg : At t g) : (taskswitch pc).All (fun _ g' => (g'.task t).pc = pc) g := by
  refine all_running hg fun hr => ?_
  have hx : ((g.setTask t fun x => { x with pc := pc }).task t) = { g.task t with pc := pc } := update_self ..
  show Prog.All (fun _ (g' : Glob) => (g'.task t).pc = pc)
    (if ((g.setTask t fun x => { x with pc := pc }).task t).state = .EXITING then _ else pure ()) _
  rw [if_neg (by rw [hx]; exact (hg t hr).2.2)]
  exact (congrArg Task.pc hx).trans rfl

theorem keeps_taskswitch {pc : Pc} (hpc : home pc ≠ some .sleeping) (hK : K pc) : Keeps t K (taskswitch pc) := fun _ hg =>
  all_taskswitch hg (fun h => absurd h hpc) hK

theorem keeps_taskyield {pc : BitVec 32 → Pc} (hpc : ∀ n, home (pc n) ≠ some .sleeping) (hK : ∀ n, K (pc n)) :
    Keeps t K (taskyield pc) := by
  refine keeps_bind keeps_globals ?_
  intro g
  exact keeps_running (keeps_bind (keeps_taskready t) fun _ => keeps_taskswitch (hpc _) (hK _))

/-! ## qlock.c and rendez.c -/

theorem keeps_setOwner (l : Nat) (o : Option TaskPtr) : Keeps t K (setOwner l o) := keeps_modify (fun _ => rfl) fun _ => Int.le_refl _

theorem keeps_setRw (l : Nat) (f : RWLock → RWLock) : Keeps t K (setRw l f) := keeps_modify (fun _ => rfl) fun _ => Int.le_refl _

theorem keeps_qlock (l : Nat) (b : Bool) (r : Option Nat) (hK : b = true → K (.qlock l r)) : Keeps t K (_qlock l b r) := by
  refine keeps_running (keeps_bind keeps_globals fun g => ?_)
  split
  · exact keeps_bind (keeps_setOwner l _) fun _ => keeps_bind (keeps_observe nofun) fun _ => keeps_pure _
  · split
    · exact keeps_pure _
    · rename_i hb
      have hk := hK (by simpa using hb)
      exact keeps_bind (keeps_addtask _ t) fun _ => keeps_bind (keeps_taskswitch nofun hk) fun _ => keeps_pure _

theorem keeps_qlockresume (l : Nat) : Keeps t K (_qlockresume l) := by
  refine keeps_running (keeps_bind keeps_globals fun g => ?_)
  split
  · exact keeps_abort _
  · exact keeps_pure ()

theorem keeps_qunlock (l : Nat) : Keeps t K (qunlock l) := by
  refine keeps_running (keeps_bind keeps_globals fun g => ?_)
  split
  · exact keeps_abort _
  · refine keeps_bind (keeps_observe nofun) fun _ => keeps_bind (keeps_head _) fun o => ?_
    refine keeps_bind (keeps_setOwner l o) fun _ => ?_
    cases o with
    | none => exact keeps_pure ()
    | some u => exact keeps_bind (keeps_deltask (l := .qwaiting l) nofun nofun u) fun _ => keeps_taskready u

theorem keeps_rlock (l : Nat) (b : Bool) (hK : b = true → K (.rlock l)) : Keeps t K (_rlock l b) := by
  refine keeps_running (keeps_bind keeps_globals fun g => keeps_bind (keeps_head _) fun o => ?_)
  split
  · exact keeps_bind (keeps_setRw l _) fun _ => keeps_bind (keeps_observe nofun) fun _ => keeps_pure _
  · split
    · exact keeps_pure _
    · rename_i hb
      have hk := hK (by simpa using hb)
      exact keeps_bind (keeps_addtask _ t) fun _ => keeps_bind (keeps_taskswitch nofun hk) fun _ => keeps_pure _

theorem keeps_wlock (l : Nat) (b : Bool) (hK : b = true → K (.wlock l)) : Keeps t K (_wlock l b) := by
  refine keeps_running (keeps_bind keeps_globals fun g => keeps_bind keeps_globals fun g' => ?_)
  split
  · exact keeps_bind (keeps_setRw l _) fun _ => keeps_bind (keeps_observe nofun) fun _ => keeps_pure _
  · split
    · exact keeps_pure _
    · rename_i hb
      have hk := hK (by simpa using hb)
      exact keeps_bind (keeps_addtask _ t) fun _ => keeps_bind (keeps_taskswitch nofun hk) fun _ => keeps_pure _

theorem keeps_wgrant (l : Nat) : Keeps t K (wgrant l) := by
  refine keeps_bind (keeps_head _) fun o => ?_
  cases o with
  | none => exact keeps_pure ()
  | some u =>
    exact keeps_bind (keeps_deltask (l := .wwaiting l) nofun nofun u) fun _ =>
      keeps_bind (keeps_setRw l _) fun _ => keeps_taskready u

theorem keeps_runlock (l : Nat) : Keeps t K (runlock l) := by
  refine keeps_running (keeps_bind (keeps_observe nofun) fun _ => keeps_bind (keeps_setRw l _) fun _ => ?_)
  refine keeps_bind keeps_globals fun g => ?_
  split
  · exact keeps_wgrant l
  · exact keeps_pure ()

theorem keeps_wunlock (l : Nat) : Keeps t K (wunlock l) := by
  refine keeps_bind keeps_globals fun g => ?_
  split
  · exact keeps_abort _
  · refine keeps_running (keeps_bind (keeps_observe nofun) fun _ => keeps_bind (keeps_setRw l _) fun _ => ?_)
    refine keeps_bind keeps_globals fun g' => ?_
    split
    · exact keeps_abort _
    · refine keeps_bind keeps_globals fun g'' => keeps_bind (keeps_loop (fun _ => keeps_head _) (fun u => ?_) _ _) ?_
      · exact keeps_bind (keeps_deltask (l := .rwaiting l) nofun nofun u) fun _ =>
          keeps_bind (keeps_setRw l _) fun _ => keeps_taskready u
      · intro _
        refine keeps_bind keeps_globals fun g3 => ?_
        split
        · exact keeps_wgrant l
        · exact keeps_pure ()

theorem keeps_tasksleep (r : Nat) (hK : K (.tasksleep r)) : Keeps t K (tasksleep r) := by
  refine keeps_running (keeps_bind (keeps_observe nofun) fun _ => keeps_bind (keeps_addtask _ t) fun _ => ?_)
  refine keeps_bind keeps_globals fun g => ?_
  cases g.rendezl r with
  | none => exact keeps_taskswitch nofun hK
  | some l => exact keeps_bind (keeps_qunlock l) fun _ => keeps_taskswitch nofun hK

theorem keeps_back (hK : K .app) : Keeps t K (setTask t fun x => { x with pc := .app }) :=
  keeps_setTask (fun _ => rfl) (fun _ => .inl rfl) (.inl rfl) (fun _ => rfl) (fun _ h => nomatch h) fun _ => .inr hK

theorem keeps_tasksleepreturn (r : Nat) (hK : K .app) : Keeps t K (tasksleepreturn r) :=
  keeps_running (keeps_bind (keeps_observe nofun) fun _ => keeps_back hK)

theorem keeps_tasksleepresume (r : Nat) (hK : K .app) (hq : ∀ l, K (.qlock l (some r))) : Keeps t K (tasksleepresume r) := by
  refine keeps_bind keeps_globals fun g => ?_
  cases g.rendezl r with
  | none => exact keeps_tasksleepreturn r hK
  | some l =>
    refine keeps_bind (keeps_qlock l true (some r) fun _ => hq l) fun o => ?_
    cases o with
    | none => exact keeps_pure ()
    | some v => exact keeps_tasksleepreturn r hK

theorem keeps_taskwakeup (r : Nat) (all : Bool) : Keeps t K (_taskwakeup r all) := by
  refine keeps_bind keeps_globals fun g => keeps_loop (fun i => ?_) (fun u => ?_) _ _
  · unfold sleeper
    split
    · exact keeps_pure _
    · exact keeps_head _
  · exact keeps_bind (keeps_deltask (l := .rendez r) nofun nofun u) fun _ => keeps_taskready u

/-! ## channel.c -/

theorem keeps_chanalt (a : Nat) (xs : List Chan.Alt) (r1 r2 : Nat) (hK : K (.chanalt a)) : Keeps t K (chanalt a xs r1 r2) := by
  refine keeps_running (keeps_bind keeps_globals fun g => ?_)
  cases Chan.call g.chan t a xs r1 r2 with
  | error why => exact keeps_abort why
  | ok x =>
    obtain ⟨c, w, r⟩ := x
    refine keeps_bind (keeps_modify (fun _ => rfl) fun _ => Int.le_refl _) fun _ => ?_
    cases r with
    | none =>
      have hr : Keeps t K (taskswitch (.chanalt a)) := keeps_taskswitch (fun h => by cases h) hK
      cases w with
      | none => exact hr
      | some u => exact keeps_bind (keeps_taskready u) fun _ => hr
    | some v =>
      have hr : Keeps t K (observe (.ret t v)) := keeps_observe (by simp)
      cases w with
      | none => exact hr
      | some u => exact keeps_bind (keeps_taskready u) fun _ => hr

theorem keeps_chanaltresume (a : Nat) (hK : K .app) : Keeps t K (chanaltresume a) := by
  refine keeps_running (keeps_bind keeps_globals fun g => ?_)
  cases Chan.step g.chan (.resume t) with
  | error why => exact keeps_abort why
  | ok c =>
    cases hr : Chan.chanaltResult c a with
    | none =>
      simp only [hr]
      exact keeps_abort _
    | some i =>
      simp only [hr]
      exact keeps_bind (keeps_modify (fun _ => rfl) fun _ => Int.le_refl _) fun _ =>
        keeps_bind (keeps_observe nofun) fun _ => keeps_back hK

/-! ## Creation -/

/-- Task `a` is new, and is `x`. -/
theorem frame_new {a : TaskPtr} {x : Task} (hd : g.live a = false) (ha : a ≠ t) (hl : g'.live = update g.live a true)
    (hx : g'.task = update g.task a x) (hlog : ∃ new, g'.log = new ++ g.log ∧ ∀ l u, .del l u ∉ new)
    (hn : g'.tasknswitch = g.tasknswitch) (hr : g'.taskrunning = g.taskrunning) (hph : g'.phase = g.phase)
    (hc : g'.sleepingcounted = g.sleepingcounted) (hp : g'.pool_loop_fn = g.pool_loop_fn) (hpc : x.pc = .start) (hs : x.state ≠ .EXITING)
    (hfn : x.startfn = .app ∧ g'.startedfdtask = g.startedfdtask ∨ g.startedfdtask = false ∧ g'.startedfdtask = true ∧ x.state = .READY ∧
      x.startfn = .fdtask g.pool_loop_fn) : Acts t K g g' := by
  have hold : ∀ u, g.live u = true → g'.live u = true ∧ g'.task u = g.task u := fun u hu => by
    have hne : u ≠ a := fun he => by rw [he, hd] at hu; cases hu
    rw [hl, hx, update_of_ne hne, update_of_ne hne]
    exact ⟨hu, rfl⟩
  have ht : g'.task t = g.task t := by rw [hx, update_of_ne (Ne.symm ha)]
  have hnew : ∀ u, g.live u = false → g'.live u = true → u = a := fun u hu hu' => by
    by_contra hne
    rw [hl, update_of_ne hne, hu] at hu'
    cases hu'
  have hwoken : ∀ u, g'.woken u = g.woken u := fun u => by
    obtain ⟨new, hnew, hno⟩ := hlog
    rw [Glob.woken, hnew, List.count_append, List.count_eq_zero_of_not_mem (hno .sleeping u), Nat.zero_add]
    rfl
  refine ⟨⟨hlog.imp fun new hn => hn.imp id fun hno u => hno _ u, hn, .inl hr, .inl hph, ?_, ?_, .inl (Int.le_of_eq hc), hp,
    fun u hu => (hold u hu).1, ?_, fun u hu => .inl (by rw [(hold u hu).2]),
    fun u hu => by rw [(hold u hu).2], fun u hu _ => by rw [(hold u hu).2], fun u hu _ _ => by rw [(hold u hu).2],
    fun _ => .inl (by rw [ht]), ?_⟩, .inl (by rw [ht]), fun _ => by rw [ht], .inl hwoken⟩
  · intro h
    rcases hfn with ⟨-, hst⟩ | ⟨-, hst, -⟩
    · exact hst.trans h
    · exact hst
  · intro h h'
    rcases hfn with ⟨-, hst⟩ | ⟨-, -, -, hfn⟩
    · exact nomatch (h.symm.trans hst.symm).trans h'
    · exact ⟨a, hd, by rw [hl, update_self], by rw [hx, update_self, hfn]; nofun⟩
  · intro h
    rw [hl, update_of_ne (Ne.symm ha)]
    exact h
  · intro u hu hu'
    obtain rfl := hnew u hu hu'
    have hxu : g'.task u = x := by rw [hx, update_self]
    refine ⟨by rw [hxu]; exact hpc, by rw [hxu]; exact hs, ?_⟩
    rw [hxu]
    rcases hfn with ⟨hfn, -⟩ | ⟨h1, h2, h3, h4⟩
    · exact .inl hfn
    · exact .inr ⟨h1, h2, h3, by rw [hp]; exact h4, fun w hw hw' _ => hnew w hw hw'⟩

theorem all_taskcreateraw {s : St} {fn : StartFn} {a : TaskPtr} {Q : Unit → Glob → Prop} (hq : Q () (s.create fn a).g) :
    (taskcreateraw fn a).All Q s.g := by
  simp only [State.create, State.modify] at hq
  simp only [taskcreateraw, taskalloc, all_bind]
  show Q () _
  simp only [Glob.setTask, update_self, update_idem]
  exact hq

theorem all_taskcreate {s : St} {fn : StartFn} {a : TaskPtr} {Q : Unit → Glob → Prop}
    (hq : Q () ((s.create fn a).ready a).g) : (taskcreate fn a).All Q s.g := by
  rw [taskcreate, all_bind]
  refine all_taskcreateraw ?_
  have hz : ((s.create fn a).g.task a).state ≠ .READY := by simp [State.create, State.modify]
  show Prog.All Q (if ((s.create fn a).g.task a).state = .READY then pure () else _) (s.create fn a).g
  rw [if_neg hz]
  exact hq

theorem frame_taskcreateraw {a : TaskPtr} (ha : a ≠ t) (hd : g.live a = false) :
    (taskcreateraw .app a).All (fun _ g' => Acts t K g g') g :=
  all_taskcreateraw (s := ⟨g, Places.empty⟩)
    (frame_new hd ha rfl rfl ⟨[], rfl, by simp⟩ rfl rfl rfl rfl rfl rfl nofun (.inl ⟨rfl, rfl⟩))

theorem frame_taskcreate {a : TaskPtr} (ha : a ≠ t) (hd : g.live a = false) :
    (taskcreate .app a).All (fun _ g' => Acts t K g g') g := by
  refine all_taskcreate (s := ⟨g, Places.empty⟩)
    (frame_new hd ha rfl (update_idem ..) ⟨[.add .taskrunqueue a], rfl, ?_⟩ rfl rfl rfl rfl rfl ?_ ?_ (.inl ⟨?_, rfl⟩))
  all_goals simp [State.create, State.modify]

/-! ## fd.c -/

theorem all_startfdtask {a : TaskPtr} (ha : g.startedfdtask = true ∨ g.live a = false ∧ a ≠ t) (K : Pc → Prop) :
    (_startfdtask a).All (fun _ g' => Acts t K g g' ∧ g'.startedfdtask = true) g := by
  show Prog.All _ (if g.startedfdtask = true then pure () else _) g
  split
  · rename_i hst
    exact ⟨⟨frame_refl t g, own_refl t K g⟩, hst⟩
  · rename_i hst
    obtain ⟨hd, ha⟩ := ha.resolve_left hst
    rw [all_bind]
    show Prog.All _ (taskcreate (.fdtask g.pool_loop_fn) a) { g with startedfdtask := true }
    refine all_taskcreate (s := ⟨{ g with startedfdtask := true }, Places.empty⟩) ⟨?_, rfl⟩
    refine frame_new hd ha rfl (update_idem ..) ⟨[.add .taskrunqueue a], rfl, ?_⟩ rfl rfl rfl rfl rfl ?_ ?_ (.inr ?_)
    all_goals simp [State.create, State.modify]
    · exact ⟨by simpa using hst, rfl⟩

theorem keeps_insert (l : ListRef) (u : TaskPtr) (ge : TaskPtr → Bool) (n : Nat) :
    Keeps t K (Prog.insert l u ge n (.pure ()) : Lib Unit) := fun g _ => ⟨calm_refl t g, own_refl t K g⟩

theorem all_taskdelay {a : TaskPtr} {ms now : Nat} {pc : Pc} (hg : At t g)
    (ha : g.startedfdtask = true ∨ g.live a = false ∧ a ≠ t) (K : Pc → Prop) (hK : K pc) :
    (taskdelay ms now a pc).All (fun _ g' => Acts t K g g' ∧ g'.startedfdtask = true) g := by
  rw [taskdelay, all_bind]
  refine all_mono (fun _ g₁ h₁ => ?_) (all_startfdtask ha K)
  -- what is left, with the `fdtask` started
  have hrest : ∀ {β : Type} {m : Lib β} {f : β → Lib Unit}, Keeps t K m →
      (∀ b g₂, At t g₂ → g₂.startedfdtask = true → (f b).All (fun _ g' => Acts t K g₂ g') g₂) →
      ∀ g₂, At t g₂ → g₂.startedfdtask = true → (m >>= f).All (fun _ g' => Acts t K g₂ g') g₂ := by
    intro β m f hm hf g₂ hg₂ hst
    rw [all_bind]
    refine all_mono (fun b g₃ h₃ => ?_) (hm g₂ hg₂)
    obtain ⟨hc, ho⟩ := h₃
    exact all_mono (fun _ _ h₄ => Acts.trans ⟨hc.toFrame, ho⟩ h₄) (hf b g₃ (hc.at hg₂) (hc.started hst))
  have hrun : ∀ {f : TaskPtr → Lib Unit}, (∀ g₂, At t g₂ → g₂.startedfdtask = true → (f t).All (fun _ g' => Acts t K g₂ g') g₂) →
      ∀ g₂, At t g₂ → g₂.startedfdtask = true → (running >>= f).All (fun _ g' => Acts t K g₂ g') g₂ := fun hf g₂ hg₂ hst =>
    all_running hg₂ fun _ => hf g₂ hg₂ hst
  refine all_mono (fun _ g' hf => ⟨h₁.1.trans hf, hf.started h₁.2⟩) (hrest (keeps_observe (o := .nsec now) (by simp)) (fun _ =>
    hrun (hrest keeps_globals fun g => hrest (keeps_insert _ _ _ _) fun _ => ?_)) g₁ (h₁.1.at hg) h₁.2)
  refine hrest (keeps_observe (o := .add .sleeping t) (by simp)) fun _ => hrest ?_ fun _ => ?_
  · exact keeps_setTask (fun _ => rfl) (fun _ => .inl rfl) (.inr fun _ => rfl) (fun _ => rfl) (fun _ _ => rfl) fun _ => .inl rfl
  · intro g₂ hg₂ hst
    rw [all_bind]
    have hf : Acts t K g₂ { g₂ with
        taskcount := if g₂.sleepingcounted = 0 then g₂.taskcount + 1 else g₂.taskcount
        sleepingcounted := g₂.sleepingcounted + 1 } := by
      have hr := frame_refl t g₂
      refine ⟨{ hr with counted := .inr hst, fresh := fun u h h' => by cases h.symm.trans h' }, .inl rfl, fun _ => rfl,
        .inl fun _ => rfl⟩
    exact all_mono (fun _ _ h₃ => hf.trans ⟨h₃.1.toFrame, h₃.2⟩) (all_taskswitch (hf.at hg₂) (fun _ => hst) hK)

theorem all_fdwait {a : TaskPtr} {now : Nat} (hg : At t g) (ha : g.live a = false ∧ a ≠ t) (K : Pc → Prop)
    (hK : K (.fdwait now)) :
    (fdwait now a).All (fun _ g' => Acts t K g g' ∧ g'.startedfdtask = true) g := by
  rw [fdwait, all_bind]
  refine all_mono (fun _ g₁ h₁ => ?_) (all_startfdtask (.inr ha) K)
  refine all_mono (fun _ g₂ h₂ => ⟨h₁.1.trans h₂.1, h₂.2⟩) (all_taskdelay (h₁.1.at hg) (.inl h₁.2) K hK)

theorem keeps_taskdelayresume (now now' : Nat) (hK : K .app) : Keeps t K (taskdelayresume now now') :=
  keeps_running (keeps_bind (keeps_observe nofun) fun _ => keeps_bind (keeps_observe nofun) fun _ => keeps_back hK)

/-- `u` leaves the sleeping list, and finds `x` in its `udata`. -/
theorem acts_woken (x : Int) {c : Int} (n : Int) {new : List Obs} (hK : K .app ∧ ∃ v n, K (.fdtask v n)) (hc : c ≤ g.sleepingcounted)
    (hnew : ∀ w, .del .taskrunqueue w ∉ new)
    (hw : .del .sleeping u ∈ new) : Calm t g { g.setTask u (fun y => { y with udata := x }) with
      log := new ++ g.log, sleepingcounted := c, taskcount := n } ∧ Own t K g { g.setTask u (fun y => { y with udata := x }) with
      log := new ++ g.log, sleepingcounted := c, taskcount := n } := by
  have htask : ∀ w, (g.setTask u fun y => { y with udata := x }).task w = g.task w ∨
      w = u ∧ (g.setTask u fun y => { y with udata := x }).task w = { g.task w with udata := x } := fun w => setTask_eq g u w _
  have hcount : (new ++ g.log).count (Obs.del .sleeping u) ≠ g.log.count (.del .sleeping u) := by
    have := List.count_pos_iff.mpr hw
    rw [List.count_append]
    omega
  have hud : ∀ w, (new ++ g.log).count (.del .sleeping w) = g.log.count (.del .sleeping w) →
      ((g.setTask u fun y => { y with udata := x }).task w).udata = (g.task w).udata := fun w hcw => by
    rcases htask w with he | ⟨rfl, -⟩
    · rw [he]
    · exact absurd hcw hcount
  have hpc : ∀ w, ((g.setTask u fun y => { y with udata := x }).task w).pc = (g.task w).pc := fun w => by
    rcases htask w with he | ⟨-, he⟩ <;> rw [he]
  refine ⟨calm_old ⟨new, rfl, hnew⟩ rfl (.inl rfl) (.inl rfl) rfl hc rfl rfl (fun w => ⟨?_, ?_, fun _ => hpc w⟩)
    (fun w _ => hud w) fun _ => .inl (hpc t), .inl (hpc t), hud t, .inr hK⟩
  · rcases htask w with he | ⟨-, he⟩ <;> rw [he]
  · rcases htask w with he | ⟨-, he⟩ <;> rw [he] <;> exact .inl rfl

theorem keeps_fdevents (hK : K .app ∧ ∃ v n, K (.fdtask v n)) : ∀ ts : List TaskPtr, Keeps t K (fdevents ts) := by
  intro ts
  induction ts with
  | nil => exact keeps_pure ()
  | cons u us ih =>
    intro g hg
    have hrest : Keeps t K (taskready u >>= fun _ => fdevents us) := keeps_bind (keeps_taskready u) fun _ => ih
    have hnew : (∀ w, .del .taskrunqueue w ∉ [Obs.event u, .del .sleeping u]) ∧ .del .sleeping u ∈ [Obs.event u, .del .sleeping u] := by
      simp
    have hw := acts_woken (t := t) (K := K) 0 g.taskcount hK (Int.le_refl g.sleepingcounted) hnew.1 hnew.2
    refine all_mono (fun _ g' h => ?_) (hrest _ (hw.1.at hg))
    exact ⟨hw.1.trans h.1, (Acts.trans ⟨hw.1.toFrame, hw.2⟩ ⟨h.1.toFrame, h.2⟩).toOwn⟩

theorem keeps_fdwake (hK : K .app ∧ ∃ v n, K (.fdtask v n)) (err : Int) (u : TaskPtr) : Keeps t K (fdwake err u) := by
  intro g hg
  have hnew : (∀ w, .del .taskrunqueue w ∉ [Obs.del .sleeping u]) ∧ .del .sleeping u ∈ [Obs.del .sleeping u] := by simp
  have hle : g.sleepingcounted - 1 ≤ g.sleepingcounted := Int.sub_le_self _ (by decide)
  have hw := acts_woken (t := t) (K := K) err (if g.sleepingcounted - 1 = 0 then g.taskcount - 1 else g.taskcount)
    hK hle hnew.1 hnew.2
  have hready : Keeps t K (taskready u) := keeps_taskready u
  refine all_mono (fun _ g' h => ?_) (hready _ (hw.1.at hg))
  exact ⟨hw.1.trans h.1, (Acts.trans ⟨hw.1.toFrame, hw.2⟩ ⟨h.1.toFrame, h.2⟩).toOwn⟩

theorem keeps_expired (now : Nat) : Keeps t K (expired now) := by
  refine keeps_bind (keeps_head _) fun o => ?_
  cases o with
  | none => exact keeps_pure none
  | some u =>
    refine keeps_bind keeps_globals fun g => ?_
    split
    · exact keeps_pure _
    · exact keeps_pure _

theorem keeps_fdpolled (v : Option Nat) (poll : Poll) (now' : Nat) (happ : K .app) (hy : ∀ n, K (.fdtask v n)) :
    Keeps t K (fdpolled v poll now') := by
  cases poll with
  | eintr => exact keeps_taskyield nofun hy
  | failed => exact keeps_exit
  | events ts =>
    have hK : K .app ∧ ∃ v n, K (.fdtask v n) := ⟨happ, v, 0, hy 0⟩
    refine keeps_bind (keeps_fdevents hK ts) fun _ => keeps_bind (keeps_observe nofun) fun _ => keeps_bind keeps_globals fun g => ?_
    refine keeps_bind (keeps_loop (fun _ => keeps_expired now') (keeps_fdwake hK LIBTASK_TIMEOUT) _ _) fun _ => ?_
    cases v with
    | none => exact keeps_taskyield nofun hy
    | some fn =>
      exact keeps_bind keeps_globals fun _ => keeps_bind (keeps_observe nofun) fun _ => keeps_running (keeps_back happ)

theorem keeps_fdpoll (v : Option Nat) (now : Nat) (poll : Poll) (now' : Nat) (happ : K .app) (hy : ∀ n, K (.fdtask v n)) :
    Keeps t K (fdpoll v now poll now') := by
  have hpolled : Keeps t K (fdpolled v poll now') := keeps_fdpolled v poll now' happ hy
  refine keeps_bind (keeps_head _) fun o => ?_
  cases o with
  | none => exact keeps_bind (keeps_observe nofun) fun _ => hpolled
  | some u =>
    refine keeps_bind (keeps_observe nofun) fun _ => keeps_bind keeps_globals fun _ => ?_
    exact keeps_bind (keeps_observe nofun) fun _ => hpolled

theorem keeps_shutdown (hK : K .app ∧ ∃ v n, K (.fdtask v n)) (err : Int) (n : Nat) :
    Keeps t K (loop (fun _ => head .sleeping) (fdwake err) n 0) :=
  keeps_loop (fun _ => keeps_head _) (keeps_fdwake hK err) n 0

theorem keeps_resume (now : Nat) (poll : Poll) (now' : Nat) (happ : K .app) (hq : ∀ l r, K (.qlock l (some r)))
    (hy : ∀ v n, K (.fdtask v n)) : Keeps t K (resume now poll now') := by
  refine keeps_running (keeps_bind keeps_globals fun g => ?_)
  dsimp only
  cases (g.task t).pc with
  | app => exact keeps_abort _
  | start =>
    cases (g.task t).startfn with
    | app => exact keeps_back happ
    | fdtask v => exact keeps_taskyield nofun (hy v)
  | parked => exact keeps_back happ
  | taskyield n => exact keeps_bind (keeps_observe nofun) fun _ => keeps_back happ
  | qlock l o =>
    cases o with
    | none => exact keeps_bind (keeps_qlockresume l) fun _ => keeps_back happ
    | some r => exact keeps_bind (keeps_qlockresume l) fun _ => keeps_tasksleepreturn r happ
  | rlock l => exact keeps_back happ
  | wlock l => exact keeps_back happ
  | tasksleep r => exact keeps_tasksleepresume r happ fun l => hq l r
  | taskdelay n => exact keeps_taskdelayresume n now happ
  | fdwait n => exact keeps_bind (keeps_observe nofun) fun _ => keeps_back happ
  | chanalt a => exact keeps_chanaltresume a happ
  | fdtask v n =>
    show Keeps t K (if 0 < yielded g n then taskyield (.fdtask v) else fdpoll v now poll now')
    split
    · exact keeps_taskyield nofun (hy v)
    · exact keeps_fdpoll v now poll now' happ (hy v)

theorem Keeps.quiet {m : Lib α} (h : Keeps t K m) (hK : ¬ (K .app ∧ ∃ v n, K (.fdtask v n))) (hg : At t g) :
    m.All (fun _ g' => ∀ u, g'.woken u = g.woken u) g :=
  all_mono (fun _ _ hf => hf.2.wakes.resolve_right hK) (h g hg)

/-- Nobody but the `fdtask` behind its `taskyield` wakes sleeping tasks. -/
theorem resume_woken (hg : At t g) (hp : ∀ v n, (g.task t).pc ≠ .fdtask v n) (now : Nat) (poll : Poll) (now' : Nat) :
    (resume now poll now').All (fun _ g' => ∀ u, g'.woken u = g.woken u) g := by
  have happ : ¬ ((Pc.app = .app) ∧ ∃ v n, (Pc.fdtask v n) = .app) := by
    rintro ⟨-, v, n, hk⟩
    cases hk
  have hback : Keeps t (· = .app) (setTask t fun x => { x with pc := .app }) := keeps_back rfl
  refine all_running hg fun _ => all_globals ?_
  dsimp only
  cases hk : (g.task t).pc with
  | app => trivial
  | start =>
    cases (g.task t).startfn with
    | app => exact hback.quiet happ hg
    | fdtask v =>
      refine Keeps.quiet (K := fun k => ∃ n, k = .fdtask v n) (keeps_taskyield nofun fun n => ⟨n, rfl⟩) ?_ hg
      rintro ⟨⟨n, hn⟩, -⟩
      cases hn
  | parked => exact hback.quiet happ hg
  | taskyield n => exact Keeps.quiet (keeps_bind (keeps_observe nofun) fun _ => hback) happ hg
  | qlock l o =>
    cases o with
    | none => exact Keeps.quiet (keeps_bind (keeps_qlockresume l) fun _ => hback) happ hg
    | some r => exact Keeps.quiet (keeps_bind (keeps_qlockresume l) fun _ => keeps_tasksleepreturn (K := (· = .app)) r rfl) happ hg
  | rlock l => exact hback.quiet happ hg
  | wlock l => exact hback.quiet happ hg
  | tasksleep r =>
    refine Keeps.quiet (K := fun k => k = .app ∨ ∃ l, k = .qlock l (some r)) (keeps_tasksleepresume r (.inl rfl) fun l => .inr ⟨l, rfl⟩) ?_ hg
    rintro ⟨-, v, n, hn | ⟨l, hn⟩⟩ <;> cases hn
  | taskdelay n => exact Keeps.quiet (keeps_taskdelayresume (K := (· = .app)) n now rfl) happ hg
  | fdwait n => exact Keeps.quiet (keeps_bind (keeps_observe nofun) fun _ => hback) happ hg
  | chanalt a => exact Keeps.quiet (keeps_chanaltresume (K := (· = .app)) a rfl) happ hg
  | fdtask v n => exact absurd hk (hp v n)

end

/-! ## Steps -/

/-- What `malloc` returns in the step, if it is called. -/
def Ev.malloc : Ev → Option TaskPtr
  | .taskcreateraw a => some a
  | .taskcreate a => some a
  | .startfdtask _ _ a => some a
  | .taskdelay _ _ a => some a
  | .fdwait _ a => some a
  | _ => none

/-- `startfdtask` stores its arguments first. -/
def Ev.before : Ev → Glob → Glob
  | .startfdtask fn arg _, g => { g with pool_loop_arg := arg, pool_loop_fn := fn }
  | _, g => g

/-- The calls that start the `fdtask`. -/
def Ev.starts : Ev → Bool
  | .startfdtask _ _ _ => true
  | .taskdelay _ _ _ => true
  | .fdwait _ _ => true
  | _ => false

/-- Where the running task may be behind a call: where it was, or where the call blocks. -/
def Ev.stops : Ev → Pc → Prop
  | .taskyield, k => ∃ n, k = .taskyield n
  | .taskswitch, k => k = .parked
  | .taskdelay _ now _, k => k = .taskdelay now
  | .fdwait now _, k => k = .fdwait now
  | .qlock l, k => k = .qlock l none
  | .rlock l, k => k = .rlock l
  | .wlock l, k => k = .wlock l
  | .tasksleep r, k => k = .tasksleep r
  | .chanalt a _ _ _, k => k = .chanalt a
  | .callback _, k => ∃ v n, k = .fdtask v n
  | .resume _ _ _, k => k = .app ∨ (∃ l r, k = .qlock l (some r)) ∨ ∃ v n, k = .fdtask v n
  | _, _ => False

/-- A step in which nobody exits, other than a turn of the scheduler. -/
def Ev.call : Ev → Prop
  | .taskscheduler => False
  | .taskexit => False
  | .callback r => r ≠ -1
  | _ => True

section
variable {t : TaskPtr} {g g' : Glob} {K : Pc → Prop} {s s' : St} {e : Ev}

theorem keeps_answer {m : Lib (Option Int)} (h : Keeps t K m) : Keeps t K (answer m) := by
  refine keeps_running (keeps_bind h fun o => ?_)
  cases o with
  | none => exact keeps_pure ()
  | some v => exact keeps_observe nofun

theorem keeps_wakeup (r : Nat) (all : Bool) : Keeps t K (wakeup r all) :=
  keeps_running (keeps_bind (keeps_taskwakeup r all) fun _ => keeps_observe nofun)

theorem keeps_fdcallback (v : Option Nat) {r : Int} (hr : r ≠ -1) (hy : ∀ n, K (.fdtask v n)) : Keeps t K (fdcallback v r) := by
  unfold fdcallback
  rw [if_neg hr]
  exact keeps_taskyield nofun hy

/-- The application's store into its `udata`. -/
theorem all_taskdata (hg : At t g) (data : Int) :
    (code (.taskdata data)).All (fun _ g' => Calm t g g' ∧ (g'.task t).pc = (g.task t).pc ∧ ∀ u, g'.woken u = g.woken u) g := by
  refine all_running hg fun _ => ?_
  have htask : ∀ w, (g.setTask t fun y => { y with udata := data }).task w = g.task w ∨
      w = t ∧ (g.setTask t fun y => { y with udata := data }).task w = { g.task w with udata := data } := fun w => setTask_eq g t w _
  have hpc : ∀ w, ((g.setTask t fun y => { y with udata := data }).task w).pc = (g.task w).pc := fun w => by
    rcases htask w with he | ⟨-, he⟩ <;> rw [he]
  refine ⟨calm_old ⟨[_], rfl, by simp⟩ rfl (.inl rfl) (.inl rfl) rfl (Int.le_refl _) rfl rfl (fun w => ⟨?_, ?_, fun _ => hpc w⟩)
    (fun w hw _ => ?_) fun _ => .inl (hpc t), hpc t, fun u => ?_⟩
  · show ((g.setTask t fun y => { y with udata := data }).task w).startfn = _
    rcases htask w with he | ⟨-, he⟩ <;> rw [he]
  · show ((g.setTask t fun y => { y with udata := data }).task w).state = _ ∨
      ((g.setTask t fun y => { y with udata := data }).task w).state = _
    rcases htask w with he | ⟨-, he⟩ <;> rw [he] <;> exact .inl rfl
  · exact congrArg Task.udata ((htask w).resolve_right fun h => hw h.1)
  · have hne : Obs.ret t (g.task t).udata ≠ .del .sleeping u := nofun
    exact List.count_cons_of_ne hne

theorem keeps_code (hm : e.malloc = none) (he : e.call) (hd : ∀ data, e ≠ .taskdata data) : Keeps t e.stops (code e) := by
  cases e with
  | taskcreateraw a => cases hm
  | taskcreate a => cases hm
  | startfdtask fn arg a => cases hm
  | taskready u => exact keeps_taskready u
  | poke x b => exact keeps_modify (fun _ => rfl) fun _ => Int.le_refl _
  | taskdata data => exact absurd rfl (hd data)
  | taskyield => exact keeps_taskyield nofun fun n => ⟨n, rfl⟩
  | taskswitch => exact keeps_taskswitch nofun rfl
  | taskexit => exact absurd he id
  | taskdelay ms now a => cases hm
  | fdwait now a => cases hm
  | qlock l => exact keeps_answer (keeps_qlock l true none fun _ => rfl)
  | canqlock l => exact keeps_answer (keeps_qlock l false none nofun)
  | qunlock l => exact keeps_qunlock l
  | rlock l => exact keeps_answer (keeps_rlock l true fun _ => rfl)
  | canrlock l => exact keeps_answer (keeps_rlock l false nofun)
  | runlock l => exact keeps_runlock l
  | wlock l => exact keeps_answer (keeps_wlock l true fun _ => rfl)
  | canwlock l => exact keeps_answer (keeps_wlock l false nofun)
  | wunlock l => exact keeps_wunlock l
  | tasksleep r => exact keeps_tasksleep r rfl
  | taskwakeup r => exact keeps_wakeup r false
  | taskwakeupall r => exact keeps_wakeup r true
  | chanalt a xs r1 r2 => exact keeps_chanalt a xs r1 r2 rfl
  | callback r =>
    refine keeps_bind keeps_globals fun g => keeps_running ?_
    cases (g.task t).startfn with
    | app => exact keeps_abort _
    | fdtask v => exact keeps_fdcallback v he fun n => ⟨v, n, rfl⟩
  | taskscheduler => exact absurd he id
  | resume now poll now' =>
    exact keeps_resume now poll now' (.inl rfl) (fun l r => .inr (.inl ⟨l, r, rfl⟩)) fun v n => .inr (.inr ⟨v, n, rfl⟩)

theorem call_calm (hg : At t g) (hm : e.malloc = none) (he : e.call) : (code e).All (fun _ g' => Calm t g g') g := by
  by_cases hd : ∃ data, e = .taskdata data
  · obtain ⟨data, rfl⟩ := hd
    exact all_mono (fun _ _ h => h.1) (all_taskdata hg data)
  · exact all_mono (fun _ _ h => h.1) (keeps_code hm he (fun data h => hd ⟨data, h⟩) g hg)

/-- Where a call leaves the task that made it. -/
theorem call_acts (hg : At t g) (hen : Enabled g e) (ha : e.malloc ≠ some t) (he : e.call) (hd : ∀ data, e ≠ .taskdata data) :
    (code e).All (fun _ g' => Acts t e.stops (e.before g) g') g := by
  have hne : ∀ {a : TaskPtr}, some a ≠ some t → a ≠ t := fun h he => h (congrArg some he)
  have hcalm : e.malloc = none → (code e).All (fun _ g' => Acts t e.stops g g') g := fun hm =>
    all_mono (fun _ _ h => ⟨h.1.toFrame, h.2⟩) (keeps_code hm he hd g hg)
  cases e with
  | taskcreateraw a => exact frame_taskcreateraw (hne ha) hen.2
  | taskcreate a => exact frame_taskcreate (hne ha) hen.2
  | startfdtask fn arg a =>
    have h := all_startfdtask (t := t) (g := { g with pool_loop_arg := arg, pool_loop_fn := fn }) (.inr ⟨hen.2, hne ha⟩)
      (Ev.startfdtask fn arg a).stops
    exact all_mono (fun _ _ h => h.1) h
  | taskdelay ms now a => exact all_mono (fun _ _ h => h.1) (all_taskdelay hg (.inr ⟨hen.2, hne ha⟩) (Ev.taskdelay ms now a).stops rfl)
  | fdwait now a => exact all_mono (fun _ _ h => h.1) (all_fdwait hg ⟨hen.2, hne ha⟩ (Ev.fdwait now a).stops rfl)
  | _ => exact hcalm rfl

theorem call_frame (hg : At t g) (hen : Enabled g e) (ha : e.malloc ≠ some t) (he : e.call) :
    (code e).All (fun _ g' => Frame t (e.before g) g' ∧ ((g'.task t).pc = (g.task t).pc ∨ e.stops (g'.task t).pc)) g := by
  by_cases hd : ∃ data, e = .taskdata data
  · obtain ⟨data, rfl⟩ := hd
    exact all_mono (fun _ _ h => ⟨h.1.toFrame, .inl h.2.1⟩) (all_taskdata hg data)
  · refine all_mono (fun _ g' h => ⟨h.toFrame, ?_⟩) (call_acts hg hen ha he fun data h => hd ⟨data, h⟩)
    have hpc : ((e.before g).task t).pc = (g.task t).pc := by
      cases e <;> rfl
    rw [← hpc]
    exact h.goes

/-- Of the calls only the `fdtask`'s `epoll_wait` wakes sleeping tasks. -/
theorem call_woken (hg : At t g) (hen : Enabled g e) (ha : e.malloc ≠ some t) (he : e.call) :
    (code e).All (fun _ g' => (∀ u, g'.woken u = g.woken u) ∨
      ∃ now poll now' v n, e = .resume now poll now' ∧ (g.task t).pc = .fdtask v n) g := by
  by_cases hr : ∃ now poll now', e = .resume now poll now'
  · obtain ⟨now, poll, now', rfl⟩ := hr
    by_cases hp : ∃ v n, (g.task t).pc = .fdtask v n
    · obtain ⟨v, n, hp⟩ := hp
      refine all_mono (fun _ _ _ => .inr ⟨now, poll, now', v, n, rfl, hp⟩) (call_frame hg hen ha he)
    · exact all_mono (fun _ _ h => .inl h) (resume_woken hg (fun v n hk => hp ⟨v, n, hk⟩) now poll now')
  · by_cases hd : ∃ data, e = .taskdata data
    · obtain ⟨data, rfl⟩ := hd
      exact all_mono (fun _ _ h => .inl h.2.2) (all_taskdata hg data)
    · refine all_mono (fun _ g' h => .inl ?_) (call_acts hg hen ha he fun data h => hd ⟨data, h⟩)
      have hbefore : ∀ u, (e.before g).woken u = g.woken u := by
        cases e <;> exact fun _ => rfl
      refine fun u => (h.wakes.resolve_right (fun hk => ?_) u).trans (hbefore u)
      have happ : e.stops .app := hk.1
      cases e with
      | resume now poll now' => exact hr ⟨now, poll, now', rfl⟩
      | taskyield => exact happ.elim nofun
      | callback r => exact happ.elim fun v hv => hv.elim nofun
      | _ => cases happ

theorem call_flag (hg : At t g) (hen : Enabled g e) (ha : e.malloc ≠ some t) (he : e.call) :
    (code e).All (fun _ g' => g'.startedfdtask = (g.startedfdtask || e.starts)) g := by
  have hne : ∀ {a : TaskPtr}, some a ≠ some t → a ≠ t := fun h he => h (congrArg some he)
  have hcalm : e.malloc = none → (code e).All (fun _ g' => g'.startedfdtask = (g.startedfdtask || false)) g := fun hm =>
    all_mono (fun _ _ h => by rw [h.flag, Bool.or_false]) (call_calm hg hm he)
  cases e with
  | taskcreateraw a => exact all_taskcreateraw (s := ⟨g, Places.empty⟩) (Bool.or_false _).symm
  | taskcreate a => exact all_taskcreate (s := ⟨g, Places.empty⟩) (Bool.or_false _).symm
  | startfdtask fn arg a =>
    have h := all_startfdtask (t := t) (g := { g with pool_loop_arg := arg, pool_loop_fn := fn }) (.inr ⟨hen.2, hne ha⟩)
      fun _ => True
    exact all_mono (fun _ _ h => h.2.trans (Bool.or_true _).symm) h
  | taskdelay ms now a =>
    exact all_mono (fun _ _ h => h.2.trans (Bool.or_true _).symm) (all_taskdelay hg (.inr ⟨hen.2, hne ha⟩) (fun _ => True) trivial)
  | fdwait now a => exact all_mono (fun _ _ h => h.2.trans (Bool.or_true _).symm) (all_fdwait hg ⟨hen.2, hne ha⟩ (fun _ => True) trivial)
  | _ => exact hcalm rfl

/-! ## The other steps -/

/-- Task `t` exits and is freed. -/
structure Exits (t : TaskPtr) (g g' : Glob) : Prop where
  log : g'.log = g.log
  switches : g'.tasknswitch = g.tasknswitch
  running : g'.taskrunning = none
  phase : g'.phase = g.phase
  counted : g'.sleepingcounted = g.sleepingcounted
  loopfn : g'.pool_loop_fn = g.pool_loop_fn
  live : g'.live = update g.live t false
  state : ∀ u, u ≠ t → (g'.task u).state = (g.task u).state
  startfn : ∀ u, u ≠ t → (g'.task u).startfn = (g.task u).startfn
  pc : ∀ u, u ≠ t → (g'.task u).pc = (g.task u).pc
  udata : ∀ u, u ≠ t → (g'.task u).udata = (g.task u).udata

theorem exits (t : TaskPtr) : Exits t s.g (s.exit t).g := by
  have h : ∀ u, u ≠ t → ∃ i, (s.exit t).g.task u = { s.g.task u with alltaskslot := i } := by
    intro u hu
    simp only [State.exit, State.modify]
    by_cases hv : u = s.g.alltask (s.g.nalltask - 1)
    · subst hv
      rw [update_self, update_of_ne hu]
      exact ⟨_, rfl⟩
    · rw [update_of_ne hv, update_of_ne hu]
      exact ⟨_, rfl⟩
  refine ⟨rfl, rfl, rfl, rfl, rfl, rfl, rfl, fun u hu => ?_, fun u hu => ?_, fun u hu => ?_, fun u hu => ?_⟩
  all_goals
    obtain ⟨i, hi⟩ := h u hu
    rw [hi]

/-- The scheduler takes `t` off the run queue, which leaves `ts`. -/
structure Dispatch (t : TaskPtr) (ts : List TaskPtr) (s s' : St) : Prop where
  log : s'.g.log = .del .taskrunqueue t :: s.g.log
  switches : s'.g.tasknswitch = s.g.tasknswitch + 1
  running : s'.g.taskrunning = some t
  phase : s'.g.phase = .loop
  started : s'.g.startedfdtask = s.g.startedfdtask
  counted : s'.g.sleepingcounted = s.g.sleepingcounted
  loopfn : s'.g.pool_loop_fn = s.g.pool_loop_fn
  live : s'.g.live = s.g.live
  state : (s'.g.task t).state = .zero
  others : ∀ u, u ≠ t → s'.g.task u = s.g.task u
  startfn : ∀ u, (s'.g.task u).startfn = (s.g.task u).startfn
  pc : ∀ u, (s'.g.task u).pc = (s.g.task u).pc
  udata : ∀ u, (s'.g.task u).udata = (s.g.task u).udata
  queue : s'.m.q = update s.m.q .taskrunqueue ts

theorem dispatch_spec {ts : List TaskPtr} (hq : s.m.q .taskrunqueue = t :: ts) :
    Dispatch t ts s ((s.modify fun g => { g with phase := .loop }).dispatch t) := by
  have hx : ∀ u, ((s.modify fun g => { g with phase := .loop }).dispatch t).g.task u =
      update s.g.task t { s.g.task t with state := .zero } u := fun u => rfl
  have hu : ∀ u, ∃ st, ((s.modify fun g => { g with phase := .loop }).dispatch t).g.task u = { s.g.task u with state := st } := by
    intro u
    rw [hx]
    by_cases h : u = t
    · subst h
      exact ⟨.zero, update_self ..⟩
    · exact ⟨_, update_of_ne h _ _⟩
  refine ⟨rfl, rfl, rfl, rfl, rfl, rfl, rfl, rfl, ?_, fun u h => ?_, fun u => ?_, fun u => ?_, fun u => ?_, ?_⟩
  · rw [hx, update_self]
  · rw [hx, update_of_ne h]
  · obtain ⟨st, hs⟩ := hu u
    rw [hs]
  · obtain ⟨st, hs⟩ := hu u
    rw [hs]
  · obtain ⟨st, hs⟩ := hu u
    rw [hs]
  · have hloc : s.m.loc t = some .taskrunqueue := loc_of_head (by rw [hq]; rfl)
    show (s.pull .taskrunqueue t).m.q = _
    rw [pull_q hloc, hq, List.erase_cons_head]

/-- A turn of the scheduler. -/
inductive Turn (s s' : St) : Prop
  | finished : s.g.taskcount = 0 → s' = s.modify (fun g => { g with phase := .finished }) → Turn s s'
  | stalled : s.g.taskcount ≠ 0 → s.m.q .taskrunqueue = [] → s' = s.modify (fun g => { g with phase := .stalled }) →
      Turn s s'
  | dispatched (t : TaskPtr) (ts : List TaskPtr) : s.g.taskcount ≠ 0 → s.m.q .taskrunqueue = t :: ts →
      Dispatch t ts s s' → Turn s s'

theorem turn (hs : (code .taskscheduler).onPlaces s = .ok ((), s')) : Turn s s' := by
  have hok : Ok (code .taskscheduler) s fun _ s' => Turn s s' := by
    simp only [code, taskscheduler, ok_bind, ok_modify, ok_globals]
    split
    · rename_i h0
      exact ok_modify.mpr (.finished h0 rfl)
    · rename_i h0
      simp only [ok_bind, ok_head]
      have hm : (s.modify fun g => { g with phase := .loop }).m = s.m := rfl
      rw [hm]
      cases hq : s.m.q .taskrunqueue with
      | nil => exact ok_modify.mpr (.stalled h0 hq rfl)
      | cons t ts =>
        have hloc : (s.modify fun g => { g with phase := .loop }).m.loc t = some .taskrunqueue :=
          loc_of_head (s := s) (by rw [hq]; rfl)
        simp only [List.head?_cons, ok_bind, ok_deltask hloc, ok_setTask, ok_modify]
        exact .dispatched t ts h0 hq (dispatch_spec hq)
  exact hok.result hs

end

end Libtask.Sched
