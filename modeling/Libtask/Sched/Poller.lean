/-
  Libtask.Sched.Poller — the sleeping tasks and their `fdtask`.

  `Poller`: an `fdtask` that is not freed runs or is ready, there is one exactly if
  `startedfdtask` says so, never two, and there is one while tasks sleep. It is kept by every
  step, of every interleaving of shutdowns and restarts, as long as the callback does not give
  up the processor for good (`Stays`).

  `one_poller`: so at each turn of the scheduler, and it does not stall while a task sleeps.
-/

import Libtask.Sched.Runs

namespace Libtask.Sched

open Function (update update_self update_of_ne)

/-- `t` runs `fdtask`, and is not freed. -/
def IsFdtask (g : Glob) (t : TaskPtr) : Prop := g.live t = true ∧ (g.task t).startfn ≠ .app

/-- Where `fdtask` is outside of its callback. -/
def Pc.polls : Pc → Bool
  | .start => true
  | .fdtask _ _ => true
  | _ => false

/-- `t` is in the callback that its `fdtask` called. -/
def InCallback (g : Glob) (t : TaskPtr) : Prop := (g.task t).startfn ≠ .app ∧ (g.task t).pc.polls = false

/-- In the step, a callback that did not return goes on running or is ready to. -/
def Stays (x : Step) : Prop :=
  ∀ t, x.g.taskrunning = some t → InCallback x.g t → (∀ r, x.e ≠ .callback r) →
    x.g'.live t = true ∧ (x.g'.taskrunning = some t ∨ (x.g'.task t).state = .READY)

/-- `t` is on the sleeping list. -/
def Asleep (g : Glob) (t : TaskPtr) : Prop :=
  g.live t = true ∧ g.taskrunning ≠ some t ∧ (g.task t).state = .zero ∧ home (g.task t).pc = some .sleeping

structure Poller (s : St) : Prop where
  main : s.g.phase = .main → s.g.taskrunning = none
  awake : s.g.phase ≠ .exited → ∀ t, IsFdtask s.g t → s.g.taskrunning = some t ∨ (s.g.task t).state = .READY
  one : ∀ t u, IsFdtask s.g t → IsFdtask s.g u → t = u
  started : s.g.startedfdtask = true ↔ ∃ t, IsFdtask s.g t
  sleeping : s.m.q .sleeping ≠ [] → s.g.startedfdtask = true

section
variable {s s' : St} {t u : TaskPtr} {e : Ev} {g : Glob}

theorem asleep_iff (h : Inv s) : u ∈ s.m.q .sleeping ↔ Asleep s.g u := by
  rw [s.m.mem_iff]
  constructor
  · intro hu
    obtain ⟨h1, h2, h3, h4, -⟩ := (h.good u).resting hu nofun
    exact ⟨h1, of_decide_eq_false h2, h3, h4⟩
  · intro hu
    obtain ⟨h1, h2, h3, h4⟩ := hu
    cases (h.good u).status with
    | dead hd _ _ _ => exact nomatch h1.symm.trans hd
    | running _ hr _ _ => exact absurd (of_decide_eq_true hr) h2
    | ready _ _ hs _ _ => exact nomatch h3.symm.trans hs
    | resting _ _ _ hl _ => exact hl.trans h4

/-- A task that runs in a library call goes on there. -/
theorem resumes (hm : g.phase = .main → g.taskrunning = none) (hr : g.taskrunning = some t) (hp : (g.task t).pc ≠ .app)
    (hen : Enabled g e) : ∃ now poll now', e = .resume now poll now' := by
  have hno : ∀ u, ¬ Runs g u := fun u hu => by
    obtain rfl : t = u := Option.some.inj (hr.symm.trans hu.2.1)
    exact hp hu.2.2
  have hout : ¬ Outside g := fun ho => by
    rcases ho with ho | ⟨u, hu⟩
    · exact nomatch (hm ho).symm.trans hr
    · exact hno u hu
  cases e with
  | resume now poll now' => exact ⟨now, poll, now', rfl⟩
  | taskscheduler => exact nomatch hen.2.symm.trans hr
  | taskcreateraw a => exact absurd hen.1 hout
  | taskcreate a => exact absurd hen.1 hout
  | startfdtask fn arg a => exact absurd hen.1 hout
  | taskready u => exact absurd hen.1 hout
  | poke x b => exact absurd hen hout
  | taskdelay ms now a => exact absurd hen.1 fun ⟨u, hu⟩ => hno u hu
  | fdwait now a => exact absurd hen.1 fun ⟨u, hu⟩ => hno u hu
  | qunlock l => exact absurd hen fun ⟨u, hu, _⟩ => hno u hu
  | runlock l => exact absurd hen fun ⟨u, hu, _⟩ => hno u hu
  | wunlock l => exact absurd hen fun ⟨u, hu, _⟩ => hno u hu
  | tasksleep r => exact absurd hen fun ⟨u, hu, _⟩ => hno u hu
  | chanalt a xs r1 r2 => exact absurd hen fun ⟨u, hu, _⟩ => hno u hu
  | callback r => exact absurd hen fun ⟨u, hu, _⟩ => hno u hu
  | _ => exact absurd hen fun ⟨u, hu⟩ => hno u hu

theorem enabled_phase (hen : Enabled g e) : g.phase = .main ∨ g.phase = .loop := by
  have hrun : ∀ u, Runs g u → g.phase = .main ∨ g.phase = .loop := fun u hu => .inr hu.1
  have hout : Outside g → g.phase = .main ∨ g.phase = .loop := fun ho => ho.elim .inl fun ⟨u, hu⟩ => hrun u hu
  cases e with
  | resume now poll now' => exact .inr hen.1
  | taskscheduler => exact hen.1
  | taskcreateraw a => exact hout hen.1
  | taskcreate a => exact hout hen.1
  | startfdtask fn arg a => exact hout hen.1
  | taskready u => exact hout hen.1
  | poke x b => exact hout hen
  | taskdelay ms now a => exact hen.1.elim hrun
  | fdwait now a => exact hen.1.elim hrun
  | qunlock l => exact hen.elim fun u hu => hrun u hu.1
  | runlock l => exact hen.elim fun u hu => hrun u hu.1
  | wunlock l => exact hen.elim fun u hu => hrun u hu.1
  | tasksleep r => exact hen.elim fun u hu => hrun u hu.1
  | chanalt a xs r1 r2 => exact hen.elim fun u hu => hrun u hu.1
  | callback r => exact hen.elim fun u hu => hrun u hu.1
  | _ => exact hen.elim hrun

/-! ## Where a turn of `fdtask` ends -/

/-- `Q` holds where `m` ends, unless the process exited. -/
def Ends (t : TaskPtr) (Q : Glob → Prop) {α : Type} (m : Lib α) : Prop :=
  ∀ g, At t g → m.All (fun _ g' => Q g' ∨ g'.phase = .exited) g

section
variable {Q : Glob → Prop} {v : Option Nat} {α β : Type}

theorem ends_bind {m : Lib α} {f : α → Lib β} (h : Keeps t (fun _ => True) m) (h' : ∀ a, Ends t Q (f a)) : Ends t Q (m >>= f) := by
  intro g hg
  rw [all_bind]
  exact all_mono (fun a g' hf => h' a g' (hf.1.at hg)) (h g hg)

theorem ends_taskyield (h : ∀ g', (g'.task t).state = .READY → (∃ n, (g'.task t).pc = .fdtask v n) → Q g') :
    Ends t Q (taskyield (.fdtask v)) := by
  intro g hg
  refine all_globals (all_running hg fun hr => ?_)
  rw [all_bind]
  have hrd : Keeps t (fun _ => True) (taskready t) := keeps_taskready t
  refine all_mono (fun _ g₁ h₁ => ?_) (all_and (hrd g hg) (all_taskready t))
  have hat := h₁.1.1.at hg
  have hl := h₁.1.1.live t (hg t hr).2.1
  have hsw : Keeps t (fun _ => True) (taskswitch (.fdtask v g.tasknswitch)) := keeps_taskswitch nofun trivial
  refine all_mono (fun _ g₂ h₂ => ?_) (all_and (hsw g₁ hat) (all_taskswitch_pc hat))
  exact .inl (h g₂ (h₂.1.1.ready hl h₁.2) ⟨_, h₂.2⟩)

theorem ends_fdpolled (hy : Ends t Q (taskyield (.fdtask v)))
    (hcb : ∀ fn, v = some fn → Ends t Q (running >>= fun t => setTask t fun x => { x with pc := .app })) (poll : Poll)
    (now' : Nat) : Ends t Q (fdpolled v poll now') := by
  cases poll with
  | eintr => exact hy
  | failed => exact fun g _ => .inr rfl
  | events ts =>
    have hK : (fun _ => True) Pc.app ∧ ∃ (v : Option Nat) (n : BitVec 32), (fun _ => True) (Pc.fdtask v n) := ⟨trivial, v, 0, trivial⟩
    refine ends_bind (keeps_fdevents hK ts) fun _ => ends_bind (keeps_observe nofun) fun _ => ends_bind keeps_globals fun g => ?_
    refine ends_bind (keeps_loop (fun _ => keeps_expired now') (keeps_fdwake hK LIBTASK_TIMEOUT) _ _) fun _ => ?_
    cases v with
    | none => exact hy
    | some fn => exact ends_bind keeps_globals fun _ => ends_bind (keeps_observe nofun) fun _ => hcb fn rfl

theorem ends_fdpoll (hy : Ends t Q (taskyield (.fdtask v)))
    (hcb : ∀ fn, v = some fn → Ends t Q (running >>= fun t => setTask t fun x => { x with pc := .app })) (now : Nat)
    (poll : Poll) (now' : Nat) : Ends t Q (fdpoll v now poll now') := by
  refine ends_bind (keeps_head _) fun o => ?_
  cases o with
  | none => exact ends_bind (keeps_observe nofun) fun _ => ends_fdpolled hy hcb poll now'
  | some u =>
    refine ends_bind (keeps_observe nofun) fun _ => ends_bind keeps_globals fun _ => ?_
    exact ends_bind (keeps_observe nofun) fun _ => ends_fdpolled hy hcb poll now'

/-- `fdtask(v)` goes on, other than in its callback. -/
theorem ends_resume (hg : At t g) (hp : (g.task t).pc = .start ∧ (g.task t).startfn = .fdtask v ∨ ∃ n, (g.task t).pc = .fdtask v n)
    (hy : Ends t Q (taskyield (.fdtask v)))
    (hcb : ∀ fn, v = some fn → Ends t Q (running >>= fun t => setTask t fun x => { x with pc := .app })) (now : Nat)
    (poll : Poll) (now' : Nat) : (resume now poll now').All (fun _ g' => Q g' ∨ g'.phase = .exited) g := by
  refine all_running hg fun _ => all_globals ?_
  dsimp only
  rcases hp with ⟨hp, hfn⟩ | ⟨n, hp⟩
  · rw [hp, hfn]
    exact hy g hg
  · rw [hp]
    show Prog.All _ (if 0 < yielded g n then taskyield (.fdtask v) else fdpoll v now poll now') g
    split
    · exact hy g hg
    · exact ends_fdpoll hy hcb now poll now' g hg

end

/-- A `_qlock` that blocks. -/
theorem all_qlock (hg : At t g) (l r : Nat) :
    (_qlock l true (some r)).All (fun o g' => o = none → (g'.task t).pc = .qlock l (some r)) g := by
  refine all_running hg fun _ => all_globals ?_
  split
  · exact nofun
  · have hat : At t (g.observe (.add (.qwaiting l) t)) := hg
    show Prog.All _ (taskswitch (.qlock l (some r)) >>= fun _ => pure none) (g.observe (.add (.qwaiting l) t))
    rw [all_bind]
    exact all_mono (fun _ _ h _ => h) (all_taskswitch_pc hat)

/-- Where a resumed task goes on. -/
inductive Lands (x : Task) : Pc → Prop
  | app : Lands x .app
  | qlock (l r : Nat) : x.pc = .tasksleep r → Lands x (.qlock l (some r))
  | fdtask (v : Option Nat) (n : BitVec 32) : x.pc = .start ∧ x.startfn = .fdtask v ∨ (∃ m, x.pc = .fdtask v m) →
      Lands x (.fdtask v n)

theorem lands_resume (hg : At t g) (now : Nat) (poll : Poll) (now' : Nat) :
    (resume now poll now').All (fun _ g' => Lands (g.task t) (g'.task t).pc ∨ g'.phase = .exited) g := by
  have hback : Ends t (fun g' => Lands (g.task t) (g'.task t).pc) (setTask t fun x => { x with pc := .app }) := by
    intro g₁ _
    have hpc : ((g₁.setTask t fun x => { x with pc := .app }).task t).pc = .app := by
      simp only [Glob.setTask, update_self]
    show Lands (g.task t) ((g₁.setTask t fun x => { x with pc := .app }).task t).pc ∨ _
    rw [hpc]
    exact .inl .app
  have hret : ∀ r, Ends t (fun g' => Lands (g.task t) (g'.task t).pc) (tasksleepreturn r) := fun r g₁ hg₁ =>
    all_running hg₁ fun _ => hback _ hg₁
  refine all_running hg fun _ => all_globals ?_
  dsimp only
  cases hk : (g.task t).pc with
  | app => trivial
  | start =>
    cases hfn : (g.task t).startfn with
    | app => exact hback g hg
    | fdtask v =>
      exact ends_taskyield (fun g' _ hpc => hpc.elim fun n hn => hn ▸ .fdtask v n (.inl ⟨hk, hfn⟩)) g hg
  | parked => exact hback g hg
  | taskyield n => exact hback _ hg
  | qlock l o =>
    cases o with
    | none => exact ends_bind (keeps_qlockresume l) (fun _ => hback) g hg
    | some r => exact ends_bind (keeps_qlockresume l) (fun _ => hret r) g hg
  | rlock l => exact hback g hg
  | wlock l => exact hback g hg
  | tasksleep r =>
    refine all_globals ?_
    cases g.rendezl r with
    | none => exact hret r g hg
    | some l =>
      rw [all_bind]
      have hq : Keeps t (fun _ => True) (_qlock l true (some r)) := keeps_qlock l true (some r) fun _ => trivial
      refine all_mono (fun o g₁ h₁ => ?_) (all_and (hq g hg) (all_qlock hg l r))
      cases o with
      | none =>
        refine .inl ?_
        rw [h₁.2 rfl]
        exact .qlock l r hk
      | some v => exact hret r g₁ (h₁.1.1.at hg)
  | taskdelay n => exact all_running hg fun _ => hback _ hg
  | fdwait n => exact hback _ hg
  | chanalt a =>
    refine all_running hg fun _ => all_globals ?_
    cases Chan.step g.chan (.resume t) with
    | error why => trivial
    | ok c =>
      cases hc : Chan.chanaltResult c a with
      | none => simp only [hc]; trivial
      | some i =>
        simp only [hc]
        exact hback _ hg
  | fdtask v n =>
    have hy : Ends t (fun g' => Lands (g.task t) (g'.task t).pc) (taskyield (.fdtask v)) :=
      ends_taskyield fun g' _ hpc => hpc.elim fun m hm => hm ▸ .fdtask v m (.inr ⟨n, hk⟩)
    show Prog.All _ (if 0 < yielded g n then taskyield (.fdtask v) else fdpoll v now poll now') g
    split
    · exact hy g hg
    · exact ends_fdpoll hy (fun _ _ g hg => all_running hg fun _ => hback g hg) now poll now' g hg

/-- A task that slept returns to the application. -/
theorem wakes_resume (hg : At t g) (hp : home (g.task t).pc = some .sleeping) (now : Nat) (poll : Poll)
    (now' : Nat) : (resume now poll now').All (fun _ g' => (g'.task t).pc = .app) g := by
  have hback : ∀ g₁, (setTask t fun x => { x with pc := .app }).All (fun _ g' => (g'.task t).pc = .app) g₁ := by
    intro g₁
    show ((g₁.setTask t fun x => { x with pc := .app }).task t).pc = .app
    simp only [Glob.setTask, update_self]
  refine all_running hg fun _ => all_globals ?_
  dsimp only
  cases hk : (g.task t).pc with
  | taskdelay n => exact all_running hg fun _ => hback _
  | fdwait n => exact hback _
  | _ => rw [hk] at hp; cases hp

/-! ## One step -/

/-- A task that sleeps behind a step slept before, or ran. -/
theorem Did.asleep (h : Did s e s') (hr : s.g.taskrunning ≠ some u) (hu : Asleep s'.g u) : Asleep s.g u := by
  obtain ⟨h1, h2, h3, h4⟩ := hu
  rcases h.other hr h1 with ⟨hl, hpc⟩ | ⟨-, hpc⟩
  · refine ⟨hl, hr, ?_, hpc ▸ h4⟩
    cases h with
    | turn _ _ ht =>
      cases ht with
      | finished _ he =>
        subst he
        exact h3
      | stalled _ _ he =>
        subst he
        exact h3
      | dispatched t ts _ _ hd =>
        have hut : u ≠ t := by
          rintro rfl
          exact h2 hd.running
        exact hd.others u hut ▸ h3
    | exit t _ ht hx _ => exact hx.state u (fun he => hr (he ▸ ht.2.1)) ▸ h3
    | shutdown t fn g _ ht _ hf hx _ _ =>
      rw [hx.state u fun he => hr (he ▸ ht.2.1)] at h3
      rcases hf.state u hl with he | he
      · exact he.symm.trans h3
      · exact nomatch h3.symm.trans he
    | call t _ _ hf _ _ _ _ =>
      obtain ⟨arg, v, hb⟩ := before_eq e s.g
      rw [hb] at hf
      rcases hf.state u hl with he | he
      · exact he.symm.trans h3
      · exact nomatch h3.symm.trans he
  · rw [hpc] at h4
    cases h4

/-- Tasks sleep only behind a call that started the `fdtask`, and its shutdown wakes them. -/
theorem started_step (h : Inv s) (h' : Inv s') (hm : s.g.phase = .main → s.g.taskrunning = none) (hen : Enabled s.g e)
    (hs : (code e).onPlaces s = .ok ((), s')) (hst : s.m.q .sleeping ≠ [] → s.g.startedfdtask = true)
    (hq : s'.m.q .sleeping ≠ []) : s'.g.startedfdtask = true := by
  obtain ⟨u, hu⟩ := List.exists_mem_of_ne_nil _ hq
  have hu' := (asleep_iff h').mp hu
  have hd := did h hen hs
  by_cases hr : s.g.taskrunning = some u
  · obtain ⟨h1, h2, -, h4⟩ := hu'
    cases hd with
    | turn _ hr' _ => exact nomatch hr'.symm.trans hr
    | exit t _ ht hx _ =>
      obtain rfl : u = t := Option.some.inj (hr.symm.trans ht.2.1)
      rw [hx.live, update_self] at h1
      cases h1
    | shutdown t fn g _ _ _ _ _ _ hnil => exact absurd hnil hq
    | call t _ ht hf _ _ _ _ =>
      obtain rfl : u = t := Option.some.inj (hr.symm.trans (ht.resolve_right fun hn => nomatch hn.1.symm.trans hr))
      obtain ⟨arg, v, hb⟩ := before_eq e s.g
      rw [hb] at hf
      have hk : (s'.g.task u).pc = (s.g.task u).pc ∨ s'.g.startedfdtask = true := hf.asleep h4
      refine hk.resolve_left fun hk => ?_
      -- a task that slept goes on in the application
      have hhome : home (s.g.task u).pc = some .sleeping := by rw [← hk]; exact h4
      have hne : (s.g.task u).pc ≠ .app := by
        intro he
        rw [he] at hhome
        cases hhome
      obtain ⟨now, poll, now', rfl⟩ := resumes hm hr hne hen
      have happ : (s'.g.task u).pc = .app :=
        all_onPlaces (Q := fun _ g' => (g'.task u).pc = .app) hs (wakes_resume (at_running h hr) hhome now poll now')
      rw [happ] at h4
      cases h4
  · have hbefore := hst (List.ne_nil_of_mem ((asleep_iff h).mpr (hd.asleep hr hu')))
    cases hd with
    | turn _ _ ht =>
      cases ht with
      | finished _ he => exact he ▸ hbefore
      | stalled _ _ he => exact he ▸ hbefore
      | dispatched t ts _ _ hd => exact hd.started.trans hbefore
    | exit t _ _ _ hflag => exact hflag.trans hbefore
    | shutdown t fn g _ _ _ _ _ _ hnil => exact absurd hnil hq
    | call t _ _ hf _ _ _ _ =>
      obtain ⟨arg, v, hb⟩ := before_eq e s.g
      rw [hb] at hf
      exact hf.started hbefore

/-- The flag and the `fdtask`s are as before. -/
theorem poller_same (hp : Poller s) (hmain : s'.g.phase = .main → s'.g.taskrunning = none)
    (hfd : ∀ u, IsFdtask s'.g u ↔ IsFdtask s.g u) (hst : s'.g.startedfdtask = s.g.startedfdtask)
    (hawake : s'.g.phase ≠ .exited → ∀ u, IsFdtask s.g u → s'.g.taskrunning = some u ∨ (s'.g.task u).state = .READY)
    (hsleep : s'.m.q .sleeping ≠ [] → s'.g.startedfdtask = true) : Poller s' where
  main := hmain
  awake hph u hu := hawake hph u ((hfd u).mp hu)
  one t u ht hu := hp.one t u ((hfd t).mp ht) ((hfd u).mp hu)
  started := by
    rw [hst, hp.started]
    exact exists_congr fun u => (hfd u).symm
  sleeping := hsleep

theorem poller_turn (hp : Poller s) (hph : s.g.phase ≠ .exited) (hr : s.g.taskrunning = none) (ht : Turn s s')
    (hsleep : s'.m.q .sleeping ≠ [] → s'.g.startedfdtask = true) : Poller s' := by
  have hready : ∀ u, IsFdtask s.g u → (s.g.task u).state = .READY := fun u hu =>
    (hp.awake hph u hu).resolve_left (by rw [hr]; nofun)
  cases ht with
  | finished h0 he =>
    subst he
    exact poller_same hp nofun (fun _ => Iff.rfl) rfl (fun _ u hu => .inr (hready u hu)) hsleep
  | stalled h0 hq he =>
    subst he
    exact poller_same hp nofun (fun _ => Iff.rfl) rfl (fun _ u hu => .inr (hready u hu)) hsleep
  | dispatched t ts h0 hq hd =>
    refine poller_same hp (fun hm => ?_) (fun u => ?_) hd.started (fun _ u hu => ?_) hsleep
    · rw [hd.phase] at hm
      cases hm
    · unfold IsFdtask
      rw [hd.live, hd.startfn]
    · by_cases hu' : u = t
      · rw [hu']
        exact .inl hd.running
      · rw [hd.others u hu']
        exact .inr (hready u hu)

theorem poller_exit (hp : Poller s) (hr : Runs s.g t) (hx : Exits t s.g s'.g) (hst : s'.g.startedfdtask = s.g.startedfdtask)
    (hno : (s.g.task t).startfn = .app) (hsleep : s'.m.q .sleeping ≠ [] → s'.g.startedfdtask = true) : Poller s' := by
  have hne : ∀ u, IsFdtask s.g u → u ≠ t := fun u hu he => hu.2 (he ▸ hno)
  have hlive : ∀ u, s'.g.live u = true → u ≠ t ∧ s.g.live u = true := by
    intro u hu
    rw [hx.live] at hu
    by_cases hut : u = t
    · rw [hut, update_self] at hu
      cases hu
    · rw [update_of_ne hut] at hu
      exact ⟨hut, hu⟩
  refine poller_same hp (fun _ => hx.running) (fun u => ⟨fun hu => ?_, fun hu => ?_⟩) hst (fun hph' u hu => ?_) hsleep
  · obtain ⟨hut, hl⟩ := hlive u hu.1
    exact ⟨hl, by rw [← hx.startfn u hut]; exact hu.2⟩
  · refine ⟨?_, by rw [hx.startfn u (hne u hu)]; exact hu.2⟩
    rw [hx.live, update_of_ne (hne u hu)]
    exact hu.1
  · rw [hx.state u (hne u hu)]
    have hexit : s.g.phase ≠ .exited := by rw [hr.1]; nofun
    refine .inr ((hp.awake hexit u hu).resolve_left fun hru => hne u hu ?_)
    exact Option.some.inj (hru.symm.trans hr.2.1)

theorem poller_shutdown (hp : Poller s) (ht : IsFdtask s.g t) (hf : Frame t s.g g) (hx : Exits t g s'.g)
    (hst : s'.g.startedfdtask = false) (hq : s'.m.q .sleeping = []) : Poller s' := by
  have hnone : ∀ u, ¬ IsFdtask s'.g u := by
    intro u hu
    obtain ⟨hl, hfn⟩ := hu
    rw [hx.live] at hl
    by_cases hut : u = t
    · rw [hut, update_self] at hl
      cases hl
    · rw [update_of_ne hut] at hl
      rw [hx.startfn u hut] at hfn
      by_cases hlu : s.g.live u = true
      · exact hut (hp.one u t ⟨hlu, by rw [← hf.startfn u hlu]; exact hfn⟩ ht)
      · -- no new `fdtask`, as the old one was there
        rcases (hf.fresh u (by simpa using hlu) hl).fn with hfn' | hfn'
        · exact hfn hfn'
        · exact nomatch hfn'.1.symm.trans (hp.started.mpr ⟨t, ht⟩)
  refine ⟨fun _ => hx.running, fun _ u hu => absurd hu (hnone u), fun u _ hu => absurd hu (hnone u), ?_, fun hs => absurd hq hs⟩
  rw [hst]
  exact ⟨nofun, fun ⟨u, hu⟩ => absurd hu (hnone u)⟩

/-- A call that frees nobody: `t` made it, if anybody. -/
theorem poller_call (hp : Poller s) (ht : s.g.taskrunning = some t ∨ s.g.taskrunning = none ∧ s.g.live t = false)
    {arg : Nat} {v : Option Nat} (hf : Frame t { s.g with pool_loop_arg := arg, pool_loop_fn := v } s'.g)
    (hph : s.g.phase ≠ .exited)
    (hstay : IsFdtask s.g t → (s'.g.taskrunning = some t ∨ (s'.g.task t).state = .READY) ∨ s'.g.phase = .exited)
    (hsleep : s'.m.q .sleeping ≠ [] → s'.g.startedfdtask = true) : Poller s' := by
  have hrun : s'.g.taskrunning = s.g.taskrunning ∨ s'.g.taskrunning = none := hf.running
  have hlive : ∀ u, s.g.live u = true → s'.g.live u = true := hf.live
  have hfn : ∀ u, s.g.live u = true → (s'.g.task u).startfn = (s.g.task u).startfn := hf.startfn
  have hstarted : s.g.startedfdtask = true → s'.g.startedfdtask = true := hf.started
  have hold : ∀ u, IsFdtask s.g u → IsFdtask s'.g u := fun u hu => ⟨hlive u hu.1, by rw [hfn u hu.1]; exact hu.2⟩
  -- an `fdtask` is an old one, or the only new one when there was none
  have hnew : ∀ u, IsFdtask s'.g u → IsFdtask s.g u ∨ s.g.startedfdtask = false ∧ s'.g.startedfdtask = true ∧
      (s'.g.task u).state = .READY ∧ ∀ w, s.g.live w = false → IsFdtask s'.g w → w = u := by
    intro u hu
    by_cases hl : s.g.live u = true
    · exact .inl ⟨hl, by rw [← hfn u hl]; exact hu.2⟩
    · rcases (hf.fresh u (by simpa using hl) hu.1).fn with he | ⟨h1, h2, h3, -, h5⟩
      · exact absurd he hu.2
      · exact .inr ⟨h1, h2, h3, fun w hw hw' => h5 w hw hw'.1 hw'.2⟩
  refine ⟨fun hm => ?_, fun hx u hu => ?_, fun u w hu hw => ?_, ⟨fun hst => ?_, fun ⟨u, hu⟩ => ?_⟩, hsleep⟩
  · have hph' : s'.g.phase = s.g.phase ∨ s'.g.phase = .exited := hf.phase
    rw [hm] at hph'
    have hnone := hp.main (hph'.resolve_right nofun).symm
    rw [hnone] at hrun
    exact hrun.elim id id
  · rcases hnew u hu with hu' | hu'
    · by_cases hut : u = t
      · subst hut
        exact (hstay hu').resolve_right hx
      · -- the others stay ready
        have hready := (hp.awake hph u hu').resolve_left fun hr => by
          rcases ht with ht | ht
          · exact hut (Option.some.inj (hr.symm.trans ht))
          · exact nomatch ht.1.symm.trans hr
        exact .inr ((hf.state u hu'.1).elim (·.trans hready) id)
    · exact .inr hu'.2.2.1
  · rcases hnew u hu with hu' | hu' <;> rcases hnew w hw with hw' | hw'
    · exact hp.one u w hu' hw'
    · exact nomatch hw'.1.symm.trans (hp.started.mpr ⟨u, hu'⟩)
    · exact nomatch hu'.1.symm.trans (hp.started.mpr ⟨w, hw'⟩)
    · by_cases hl : s.g.live w = true
      · have hwf : IsFdtask s.g w := ⟨hl, by rw [← hfn w hl]; exact hw.2⟩
        exact nomatch hw'.1.symm.trans (hp.started.mpr ⟨w, hwf⟩)
      · exact (hu'.2.2.2 w (by simpa using hl) hw).symm
  · by_cases hst₀ : s.g.startedfdtask = true
    · obtain ⟨u, hu⟩ := hp.started.mp hst₀
      exact ⟨u, hold u hu⟩
    · obtain ⟨u, -, h2, h3⟩ := hf.starts (by simpa using hst₀) hst
      exact ⟨u, h2, h3⟩
  · rcases hnew u hu with hu' | hu'
    · exact hstarted (hp.started.mpr ⟨u, hu'⟩)
    · exact hu'.2.1

/-- The running `fdtask` does not stop but by its shutdown. -/
theorem fdtask_stays (h : Inv s) (hp : Poller s) (hen : Enabled s.g e) (hs : (code e).onPlaces s = .ok ((), s')) (hc : e.call)
    (hst : Stays ⟨s.g, e, s'.g⟩) (hr : s.g.taskrunning = some t) (ht : IsFdtask s.g t) :
    (s'.g.taskrunning = some t ∨ (s'.g.task t).state = .READY) ∨ s'.g.phase = .exited := by
  have hat := at_running h hr
  have hy : ∀ v, Ends t (fun g => g.taskrunning = some t ∨ (g.task t).state = .READY) (taskyield (.fdtask v)) := fun v =>
    ends_taskyield fun g' hg' _ => .inr hg'
  by_cases hcb : InCallback s.g t
  · by_cases he : ∃ r, e = .callback r
    · obtain ⟨r, rfl⟩ := he
      refine all_onPlaces (Q := fun _ g' => (g'.taskrunning = some t ∨ (g'.task t).state = .READY) ∨ g'.phase = .exited) hs ?_
      refine all_globals (all_running hat fun _ => ?_)
      cases (s.g.task t).startfn with
      | app => exact trivial
      | fdtask v =>
        show (fdcallback v r).All _ s.g
        unfold fdcallback
        rw [if_neg hc]
        exact hy v s.g hat
    · exact .inl (hst t hr hcb fun r hr => he ⟨r, hr⟩).2
  · have hpc : ∃ v, (s.g.task t).pc = .start ∧ (s.g.task t).startfn = .fdtask v ∨ ∃ n, (s.g.task t).pc = .fdtask v n := by
      cases hk : (s.g.task t).pc with
      | start =>
        cases hfn : (s.g.task t).startfn with
        | app => exact absurd hfn ht.2
        | fdtask v => exact ⟨v, .inl ⟨rfl, rfl⟩⟩
      | fdtask v n => exact ⟨v, .inr ⟨n, rfl⟩⟩
      | _ => exact absurd ⟨ht.2, by rw [hk]; rfl⟩ hcb
    obtain ⟨v, hpc⟩ := hpc
    have hne : (s.g.task t).pc ≠ .app := by
      rcases hpc with ⟨hk, -⟩ | ⟨n, hk⟩ <;> rw [hk] <;> nofun
    obtain ⟨now, poll, now', rfl⟩ := resumes hp.main hr hne hen
    refine all_onPlaces (Q := fun _ g' => (g'.taskrunning = some t ∨ (g'.task t).state = .READY) ∨ g'.phase = .exited) hs ?_
    exact ends_resume hat hpc (hy v) (fun _ _ g hg => all_running hg fun hr => .inl (.inl hr)) now poll now'

theorem poller_step (h : Inv s) (hp : Poller s) (hen : Enabled s.g e) (hs : (code e).onPlaces s = .ok ((), s')) (h' : Inv s')
    (hst : Stays ⟨s.g, e, s'.g⟩) : Poller s' := by
  have hph : s.g.phase ≠ .exited := by
    rcases enabled_phase hen with hph | hph <;> rw [hph] <;> nofun
  have hsleep := started_step h h' hp.main hen hs hp.sleeping
  cases did h hen hs with
  | turn he hr ht => exact poller_turn hp hph hr ht hsleep
  | exit t he hr hx hst' =>
    subst he
    refine poller_exit hp hr hx hst' ?_ hsleep
    by_contra hfn
    -- a callback does not exit
    have hcb : InCallback s.g t := ⟨hfn, by rw [hr.2.2]; rfl⟩
    obtain ⟨hl, -⟩ := hst t hr.2.1 hcb nofun
    have hl : s'.g.live t = true := hl
    rw [hx.live, update_self] at hl
    cases hl
  | shutdown t fn g he hr hfn hf hx hst' hq =>
    exact poller_shutdown hp ⟨(h.here hr.2.1).1, by rw [hfn]; nofun⟩ hf hx hst' hq
  | call t hc ht hf _ _ _ _ =>
    obtain ⟨arg, v, hb⟩ := before_eq e s.g
    rw [hb] at hf
    refine poller_call hp ht hf hph (fun hfd => ?_) hsleep
    have hr := ht.resolve_right fun hd => nomatch hfd.1.symm.trans hd.2
    exact fdtask_stays h hp hen hs hc hst hr hfd

end

/-! ## Runs -/

theorem poller_start {s : State Glob Heap} (h : Starts s) : Poller ⟨s.g, Places.empty⟩ := by
  obtain ⟨rendezl, size, junk, mem, -, rfl⟩ := h
  exact ⟨fun _ => rfl, fun _ t ht => (nomatch ht.1), fun t u ht => (nomatch ht.1), ⟨nofun, fun ⟨t, ht⟩ => (nomatch ht.1)⟩,
    fun hq => absurd rfl hq⟩

/-- In a run in which no callback gives up the processor for good. -/
theorem poller {s₀ s : State Glob Heap} {tr : List Step} (h₀ : Starts s₀) (h : Run s₀ tr s) (hst : ∀ x ∈ tr, Stays x) :
    ∃ p, Linked s p ∧ Poller ⟨s.g, p⟩ :=
  Run.holds (P := fun _ s => Poller s) (C := Stays) (linked_start h₀) (poller_start h₀)
    (fun h hp hen hs h' hst => poller_step h hp hen hs h' hst) h hst

/-- At each turn of the scheduler the flag says if there is an `fdtask`, there are never two,
    and it is on the run queue; so the scheduler finds a task to run while one sleeps. -/
theorem one_poller {s₀ s : State Glob Heap} {tr : List Step} (h₀ : Starts s₀) (h : Run s₀ tr s) (hst : ∀ x ∈ tr, Stays x)
    (hen : Enabled s.g .taskscheduler) : (s.g.startedfdtask = true ↔ ∃! t, IsFdtask s.g t) ∧
    (∀ t u, IsFdtask s.g t → IsFdtask s.g u → t = u) ∧ ∃ q : ListRef → List TaskPtr,
    (∀ l, Lib.Dll.IsDll s.m.next s.m.prev (s.m.list l).head (s.m.list l).tail (q l)) ∧
    (∀ t, IsFdtask s.g t → t ∈ q .taskrunqueue) ∧ (q .sleeping ≠ [] → ∃ t, IsFdtask s.g t) ∧
    (q .sleeping ≠ [] → ∃ s', (code .taskscheduler).onHeap s = .ok ((), s') ∧ s'.g.phase = .loop ∧ s'.g.taskrunning ≠ none) := by
  obtain ⟨p, hl, hp⟩ := poller h₀ h hst
  have hph : s.g.phase ≠ .exited := by
    rcases hen.1 with hph | hph <;> rw [hph] <;> nofun
  have hqueued : ∀ t, IsFdtask s.g t → t ∈ p.q .taskrunqueue := by
    intro t ht
    have hready := (hp.awake hph t ht).resolve_left fun hr => nomatch hen.2.symm.trans hr
    have hready : (s.g.task t).state = .READY := hready
    refine (p.mem_iff .taskrunqueue t).mpr ?_
    cases (hl.inv.good t).status with
    | dead h1 _ _ _ => exact nomatch ht.1.symm.trans h1
    | running _ _ h3 _ => exact nomatch hready.symm.trans h3
    | ready _ _ _ h4 _ => exact h4
    | resting _ _ h3 _ _ => exact nomatch hready.symm.trans h3
  refine ⟨?_, hp.one, p.q, hl.rep, hqueued, fun hs => hp.started.mp (hp.sleeping hs), fun hs => ?_⟩
  · refine hp.started.trans ⟨fun ⟨t, ht⟩ => ⟨t, ht, fun u hu => hp.one u t hu ht⟩, fun ⟨t, ht, _⟩ => ⟨t, ht⟩⟩
  · obtain ⟨t, ht⟩ := hp.started.mp (hp.sleeping hs)
    have hpos : s.g.taskcount ≠ 0 := by
      have hc : s.g.taskcount = s.g.nalltask + (if s.g.sleepingcounted = 0 then 0 else 1) := hl.inv.base.count
      obtain ⟨i, hi, -⟩ := (hl.inv.base.slots.live t).mp ht.1
      have hi : i < s.g.nalltask := hi
      split at hc <;> omega
    obtain ⟨s', hs'⟩ := step_ok (h.reach (reach_starts h₀)) hen
    obtain ⟨p', hr, -⟩ := hl.step hen hs'
    refine ⟨s', hs', ?_⟩
    cases turn hr with
    | finished h0 _ => exact absurd h0 hpos
    | stalled _ hq _ =>
      have hmem : t ∈ p.q .taskrunqueue := hqueued t ht
      rw [show p.q .taskrunqueue = [] from hq] at hmem
      cases hmem
    | dispatched u us _ _ hd =>
      refine ⟨hd.phase, ?_⟩
      rw [show s'.g.taskrunning = some u from hd.running]
      nofun

def Ev.returns : Ev → Bool
  | .callback _ => true
  | _ => false

/-- A step that is not inside a callback. -/
def Step.outside (x : Step) : Bool :=
  x.g.taskrunning.all fun t => (x.g.task t).startfn = .app || (x.g.task t).pc.polls || x.e.returns

theorem stays_outside {x : Step} (h : x.outside = true) : Stays x := by
  intro t hr hcb he
  simp only [Step.outside, hr, Option.all_some, Bool.or_eq_true, decide_eq_true_eq] at h
  rcases h with (h | h) | h
  · exact absurd h hcb.1
  · exact nomatch hcb.2.symm.trans h
  · cases hx : x.e with
    | callback r => exact absurd hx (he r)
    | _ => rw [hx] at h; cases h

/-- Task 1 sleeps, the callback shuts the `fdtask` down, and task 1 sleeps again: there is a new one. -/
def restarted : List Ev :=
  [.taskcreate 1, .startfdtask (some 0) 0 2, .taskscheduler, .resume 0 .eintr 0, .taskdelay 10 0 3, .taskscheduler,
    .resume 0 .eintr 0, .taskscheduler, .resume 0 (.events []) 0, .callback (-1), .taskscheduler, .resume 0 .eintr 0,
    .taskdelay 10 0 3]

theorem one_poller_restarted : ∃ s tr, Run boot tr s ∧ s.g.live 2 = false ∧ ∃! t, IsFdtask s.g t := by
  have h := run_boot restarted (by decide +kernel)
  have hout : ∀ x ∈ boot.steps restarted [], x.outside = true := by
    rw [← List.all_eq_true]
    decide +kernel
  refine ⟨_, _, h, by decide +kernel, ?_⟩
  refine (one_poller starts_boot h (fun x hx => stays_outside (hout x hx)) ?_).1.mp (by decide +kernel)
  exact ⟨by decide +kernel, by decide +kernel⟩

end Libtask.Sched
