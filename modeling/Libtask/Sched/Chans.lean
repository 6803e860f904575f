/-
  Libtask.Sched.Chans — the steps of tasks that use the library for channels only.

  Such a task has not started, or is in the application or in `chanalt` (`Chanwise`). Each of the
  steps it can take keeps that, and is one step of the channels, or leaves them.

  Where all were made by `taskcreate`, those that have not started are ready (`Begins`). Then
  `taskscheduler` finds a task, or all of them wait in `chanalt` (`all_wait`).
-/

import Libtask.Sched.Choice

namespace Libtask.Sched

open Function (update update_self update_of_ne update_eq_self)

/-- Nobody is in a call but `chanalt`. -/
def Chanwise (g : Glob) : Prop := ∀ u, g.live u = true → (g.task u).startfn = .app ∧
  ((g.task u).pc = .start ∨ (g.task u).pc = .app ∨ ∃ a, (g.task u).pc = .chanalt a)

section
variable {s s' : State Glob Heap} {p : Places} {g g' : Glob} {t a : TaskPtr}

theorem Chanwise.calm {K : Pc → Prop} (h : Chanwise g) (hc : Calm t g g') (ho : Own t K g g')
    (hK : ∀ k, K k → k = .app ∨ ∃ a, k = .chanalt a) : Chanwise g' := by
  intro u hu
  rw [hc.lives] at hu
  obtain ⟨h1, h2⟩ := h u hu
  refine ⟨(hc.startfn u hu).trans h1, ?_⟩
  by_cases hut : u = t
  · subst hut
    rcases ho.goes with hp | hp
    · rw [hp]
      exact h2
    · exact .inr (hK _ hp)
  · rw [hc.pc u hu hut]
    exact h2

theorem taskswitch_chan (pc : Pc) : (taskswitch pc).All (fun _ g' => g'.chan = g.chan) g := by
  unfold taskswitch running
  rw [all_bind]
  refine all_globals ?_
  cases g.taskrunning with
  | none => trivial
  | some t =>
    show Prog.All _ (if ((g.setTask t fun x => { x with pc := pc }).task t).state = .EXITING then _ else pure ()) _
    split <;> rfl

theorem answered_chan (t : TaskPtr) (b : Nat) (r : Option Int) :
    (match r with | some v => observe (.ret t v) | none => taskswitch (.chanalt b) : Lib Unit).All
      (fun _ g' => g'.chan = g.chan) g := by
  cases r with
  | some v => rfl
  | none => exact taskswitch_chan (.chanalt b)

theorem chanalt_chan (hg : At t g) (b : Nat) (xs : List Chan.Alt) (r1 r2 : Nat) : (chanalt b xs r1 r2).All
    (fun _ g' => ∃ w r, Chan.call g.chan t b xs r1 r2 = .ok (g'.chan, w, r)) g := by
  unfold chanalt
  refine all_running hg fun _ => all_globals ?_
  cases Chan.call g.chan t b xs r1 r2 with
  | error why => trivial
  | ok x =>
    obtain ⟨c, w, r⟩ := x
    have hend : ∀ g₁ g₂ : Glob, g₁.chan = c → g₂.chan = g₁.chan →
        ∃ w' r', (.ok (c, w, r) : Except String (Chan.St × Option TaskPtr × Option Int)) = .ok (g₂.chan, w', r') :=
      fun g₁ g₂ h₁ h₂ => ⟨w, r, by rw [h₂, h₁]⟩
    cases w with
    | none => exact all_mono (fun _ g₂ => hend { g with chan := c } g₂ rfl) (answered_chan t b r)
    | some u =>
      refine (all_bind (modify _) _).mpr ((all_bind (taskready u) _).mpr (all_mono ?_ (taskready_all u _)))
      exact fun _ g₁ h₁ => all_mono (fun _ g₂ => hend g₁ g₂ h₁.1) (answered_chan t b r)

theorem chanaltresume_chan (hg : At t g) (b : Nat) :
    (chanaltresume b).All (fun _ g' => g'.chan = { g.chan with wait := update g.chan.wait t none }) g := by
  unfold chanaltresume
  refine all_running hg fun _ => all_globals ?_
  rw [show Chan.step g.chan (.resume t) = .ok { g.chan with wait := update g.chan.wait t none } from rfl]
  dsimp only
  cases Chan.chanaltResult { g.chan with wait := update g.chan.wait t none } b with
  | none => trivial
  | some i => rfl

/-! ## The steps -/

theorem taskcreate_step (h : Linked s p) (hw : Chanwise s.g) (hen : Enabled s.g (.taskcreate a))
    (hs : (code (.taskcreate a)).onHeap s = .ok ((), s')) :
    s'.g.chan = s.g.chan ∧ s'.g.live = update s.g.live a true ∧ Chanwise s'.g := by
  obtain ⟨p', hp, -⟩ := h.step hen hs
  have hall : (taskcreate .app a).All (fun _ g' => g'.chan = s.g.chan ∧ g'.live = update s.g.live a true ∧
      ∀ u, (g'.task u).startfn = (update s.g.task a { s.g.task a with startfn := .app, pc := .start } u).startfn ∧
        (g'.task u).pc = (update s.g.task a { s.g.task a with startfn := .app, pc := .start } u).pc) s.g := by
    refine all_taskcreate (s := ⟨s.g, p⟩) ⟨rfl, rfl, fun u => ?_⟩
    by_cases hu : u = a
    · subst hu
      simp [State.ready, State.push, State.setTask, State.modify, Glob.setTask, Glob.observe, State.create]
    · simp [State.ready, State.push, State.setTask, State.modify, Glob.setTask, Glob.observe, State.create, hu]
  obtain ⟨h1, h2, h3⟩ := all_onPlaces hp hall
  refine ⟨h1, h2, fun u hu => ?_⟩
  rw [(h3 u).1, (h3 u).2]
  have hu : update s.g.live a true u = true := by rw [← h2]; exact hu
  by_cases hua : u = a
  · subst hua
    simp
  · rw [update_of_ne hua] at hu ⊢
    exact hw u hu

theorem taskscheduler_step (h : Linked s p) (hw : Chanwise s.g) (hen : Enabled s.g .taskscheduler)
    (hs : (code .taskscheduler).onHeap s = .ok ((), s')) : s'.g.chan = s.g.chan ∧ s'.g.live = s.g.live ∧ Chanwise s'.g := by
  obtain ⟨p', hp, -⟩ := h.step hen hs
  have hchan : (code .taskscheduler).All (fun _ g' => g'.chan = s.g.chan) s.g := by
    show Prog.All _ (if s.g.taskcount = 0 then _ else _) _
    split
    · rfl
    · intro o
      cases o <;> rfl
  have hsame : s'.g.live = s.g.live ∧ ∀ u, (s'.g.task u).startfn = (s.g.task u).startfn ∧ (s'.g.task u).pc = (s.g.task u).pc := by
    cases turn hp with
    | finished _ he =>
      have hg : s'.g = { s.g with phase := .finished } := congrArg State.g he
      rw [hg]
      exact ⟨rfl, fun _ => ⟨rfl, rfl⟩⟩
    | stalled _ _ he =>
      have hg : s'.g = { s.g with phase := .stalled } := congrArg State.g he
      rw [hg]
      exact ⟨rfl, fun _ => ⟨rfl, rfl⟩⟩
    | dispatched t ts _ _ hd => exact ⟨hd.live, fun u => ⟨hd.startfn u, hd.pc u⟩⟩
  refine ⟨all_onPlaces hp hchan, hsame.1, fun u hu => ?_⟩
  rw [hsame.1] at hu
  rw [(hsame.2 u).1, (hsame.2 u).2]
  exact hw u hu

theorem chanalt_step (h : Linked s p) (hw : Chanwise s.g) (hr : s.g.taskrunning = some t) {b : Nat} {xs : List Chan.Alt}
    {r1 r2 : Nat} (hen : Enabled s.g (.chanalt b xs r1 r2)) (hs : (code (.chanalt b xs r1 r2)).onHeap s = .ok ((), s')) :
    (∃ w r, Chan.call s.g.chan t b xs r1 r2 = .ok (s'.g.chan, w, r)) ∧ s'.g.live = s.g.live ∧ Chanwise s'.g := by
  obtain ⟨p', hp, -⟩ := h.step hen hs
  have hat := at_running h.inv hr
  have hkeep := keeps_chanalt (t := t) (K := (· = .chanalt b)) b xs r1 r2 rfl s.g hat
  obtain ⟨hcall, hcalm, hown⟩ := all_onPlaces hp (all_and (chanalt_chan hat b xs r1 r2) hkeep)
  exact ⟨hcall, hcalm.lives, hw.calm hcalm hown fun k hk => .inr ⟨b, hk⟩⟩

theorem resume_step (h : Linked s p) (hw : Chanwise s.g) (hr : s.g.taskrunning = some t) {now now' : Nat} {poll : Poll}
    (hen : Enabled s.g (.resume now poll now')) (hs : (code (.resume now poll now')).onHeap s = .ok ((), s')) :
    s'.g.chan = { s.g.chan with wait := update s.g.chan.wait t none } ∧ s'.g.live = s.g.live ∧ Chanwise s'.g ∧
      (s.g.chan.wait t ≠ none → s.g.chan.woken t ≠ 0) := by
  obtain ⟨p', hp, -⟩ := h.step hen hs
  have hat := at_running h.inv hr
  have hgood := h.inv.good t
  have hlive : s.g.live t = true := (hat t hr).2.1
  obtain ⟨hfn, hpc⟩ := hw t hlive
  have hwait : s.g.chan.wait t = (s.g.task t).pc.array := hgood.wait
  have hall : (code (.resume now poll now')).All (fun _ g' => g'.chan = { s.g.chan with wait := update s.g.chan.wait t none } ∧
      Calm t s.g g' ∧ Own t (· = .app) s.g g') s.g := by
    simp only [code, resume]
    refine all_running hat fun _ => all_globals ?_
    rcases hpc with hpc | hpc | ⟨b, hpc⟩
    · simp only [hpc, hfn]
      have hsame : update s.g.chan.wait t none = s.g.chan.wait := by
        rw [← show s.g.chan.wait t = none by rw [hwait, hpc]; rfl]
        exact update_eq_self ..
      refine all_and ?_ (keeps_back (K := (· = .app)) rfl s.g hat)
      show s.g.chan = _
      rw [hsame]
    · simp only [hpc]
      trivial
    · simp only [hpc]
      exact all_and (chanaltresume_chan hat b) (keeps_chanaltresume (K := (· = .app)) b rfl s.g hat)
  obtain ⟨h1, h2, h3⟩ := all_onPlaces hp hall
  refine ⟨h1, h2.lives, hw.calm h2 h3 fun k hk => .inl hk, fun hne h0 => ?_⟩
  -- who runs was chosen
  rcases hpc with hpc | hpc | ⟨b, hpc⟩
  · rw [hwait, hpc] at hne
    exact hne rfl
  · rw [hwait, hpc] at hne
    exact hne rfl
  · have hrun := ((hgood.chosen b hpc).mp h0).2
    exact absurd hr (of_decide_eq_false hrun)

/-! ## Who has not started -/

/-- `taskscheduler` did not return, and each task that has not started is ready. -/
structure Begins (g : Glob) : Prop where
  phase : g.phase = .main ∨ g.phase = .loop
  start : ∀ u, g.live u = true → (g.task u).pc = .start → (g.task u).state = .READY ∨ g.taskrunning = some u

theorem Begins.calm (h : Begins g) (hc : Calm t g g') (hr : g.taskrunning = some t) (hp : g'.phase = g.phase)
    (hs : (g'.task t).pc ≠ .start) : Begins g' where
  phase := by rw [hp]; exact h.phase
  start u hu hst := by
    rw [hc.lives] at hu
    have hut : u ≠ t := by
      rintro rfl
      exact hs hst
    rw [hc.pc u hu hut] at hst
    have hready : (g.task u).state = .READY := by
      rcases h.start u hu hst with hready | hrun
      · exact hready
      · exact absurd (Option.some.inj (hrun.symm.trans hr)) hut
    exact .inl (hc.ready hu hready)

theorem taskcreate_begins (h : Linked s p) (hb : Begins s.g) (hen : Enabled s.g (.taskcreate a))
    (hs : (code (.taskcreate a)).onHeap s = .ok ((), s')) :
    Begins s'.g ∧ s'.g.taskrunning = s.g.taskrunning ∧ ∀ u, s.g.live u = true → (s'.g.task u).pc = (s.g.task u).pc := by
  obtain ⟨p', hp, -⟩ := h.step hen hs
  have hall : (taskcreate .app a).All (fun _ g' => g'.phase = s.g.phase ∧ g'.taskrunning = s.g.taskrunning ∧
      g'.live = update s.g.live a true ∧ (g'.task a).state = .READY ∧ ∀ u, u ≠ a → g'.task u = s.g.task u) s.g := by
    refine all_taskcreate (s := ⟨s.g, p⟩) ⟨rfl, rfl, rfl, ?_, fun u hu => ?_⟩
    · simp [State.ready, State.push, State.setTask, State.modify, Glob.setTask, Glob.observe, State.create]
    · simp [State.ready, State.push, State.setTask, State.modify, Glob.setTask, Glob.observe, State.create, hu]
  obtain ⟨h1, h2, h3, h4, h5⟩ := all_onPlaces hp hall
  have h3 : s'.g.live = update s.g.live a true := h3
  have hne : ∀ u, s.g.live u = true → u ≠ a := by
    rintro u hu rfl
    rw [hen.2] at hu
    cases hu
  refine ⟨⟨by rw [h1]; exact hb.phase, fun u hu hst => ?_⟩, h2, fun u hu => by rw [h5 u (hne u hu)]⟩
  by_cases hua : u = a
  · exact .inl (hua ▸ h4)
  · rw [h3, update_of_ne hua] at hu
    rw [h5 u hua] at hst ⊢
    rw [h2]
    exact hb.start u hu hst

/-- The scheduler goes on as long as a task is ready. -/
theorem taskscheduler_begins (h : Linked s p) (hb : Begins s.g) (hr : s.g.taskrunning = none) {w : TaskPtr}
    (hw : s.g.live w = true ∧ (s.g.task w).state = .READY) (hen : Enabled s.g .taskscheduler)
    (hs : (code .taskscheduler).onHeap s = .ok ((), s')) : Begins s'.g ∧ ∃ t, s'.g.taskrunning = some t := by
  obtain ⟨p', hp, -⟩ := h.step hen hs
  have hq : w ∈ p.q .taskrunqueue := by
    refine (p.mem_iff _ w).mpr ?_
    cases (h.inv.good w).status with
    | dead h1 _ _ _ => exact nomatch hw.1.symm.trans h1
    | running _ _ h3 _ => exact nomatch hw.2.symm.trans h3
    | ready _ _ _ h4 _ => exact h4
    | resting _ _ h3 _ _ => exact nomatch hw.2.symm.trans h3
  cases turn hp with
  | finished h0 _ =>
    have h0 : s.g.taskcount = 0 := h0
    have hcount : (s.g.nalltask : Int) ≤ s.g.taskcount := by
      have hc : s.g.taskcount = s.g.nalltask + (if s.g.sleepingcounted = 0 then 0 else 1) := h.inv.base.count
      split at hc <;> omega
    obtain ⟨i, hi, -⟩ := (h.inv.base.slots.live w).mp hw.1
    have hi : i < s.g.nalltask := hi
    omega
  | stalled _ hnil _ =>
    have hnil : p.q .taskrunqueue = [] := hnil
    rw [hnil] at hq
    cases hq
  | dispatched t ts _ _ hd =>
    refine ⟨⟨.inr hd.phase, fun u hu hst => ?_⟩, t, hd.running⟩
    have hu : s.g.live u = true := hd.live ▸ hu
    by_cases hut : u = t
    · exact .inr (hut ▸ hd.running)
    · have hst : (s.g.task u).pc = .start := (hd.pc u).symm.trans hst
      rcases hb.start u hu hst with hready | hrun
      · refine .inl ?_
        show (s'.g.task u).state = .READY
        rw [show s'.g.task u = s.g.task u from hd.others u hut]
        exact hready
      · exact nomatch hr.symm.trans hrun

theorem taskswitch_phase (pc : Pc) : (taskswitch pc).All (fun _ g' => g'.phase = g.phase) g := by
  unfold taskswitch running
  rw [all_bind]
  refine all_globals ?_
  cases g.taskrunning with
  | none => trivial
  | some t =>
    show Prog.All _ (if ((g.setTask t fun x => { x with pc := pc }).task t).state = .EXITING then _ else pure ()) _
    split <;> rfl

theorem chanalt_phase (hg : At t g) (b : Nat) (xs : List Chan.Alt) (r1 r2 : Nat) :
    (chanalt b xs r1 r2).All (fun _ g' => g'.phase = g.phase) g := by
  unfold chanalt
  refine all_running hg fun _ => all_globals ?_
  cases Chan.call g.chan t b xs r1 r2 with
  | error why => trivial
  | ok x =>
    obtain ⟨c, w, r⟩ := x
    have hend : ∀ g₁ : Glob, g₁.phase = g.phase → (match r with
        | some v => observe (.ret t v)
        | none => taskswitch (.chanalt b) : Lib Unit).All (fun _ g' => g'.phase = g.phase) g₁ := by
      intro g₁ h₁
      cases r with
      | some v => exact h₁
      | none => exact all_mono (fun _ g₂ h₂ => h₂.trans h₁) (taskswitch_phase (.chanalt b))
    cases w with
    | none => exact hend { g with chan := c } rfl
    | some u =>
      refine (all_bind (modify _) _).mpr ((all_bind (taskready u) _).mpr (all_mono ?_ (taskready_all u _)))
      exact fun _ g₁ h₁ => hend g₁ h₁.2.2.1

theorem chanalt_begins (h : Linked s p) (hb : Begins s.g) (ht : Runs s.g t) {b : Nat} {xs : List Chan.Alt} {r1 r2 : Nat}
    (hen : Enabled s.g (.chanalt b xs r1 r2)) (hs : (code (.chanalt b xs r1 r2)).onHeap s = .ok ((), s')) : Begins s'.g := by
  obtain ⟨p', hp, -⟩ := h.step hen hs
  have hat := at_running h.inv ht.2.1
  have hkeep := keeps_chanalt (t := t) (K := (· = .chanalt b)) b xs r1 r2 rfl s.g hat
  obtain ⟨hphase, hcalm, hown⟩ := all_onPlaces hp (all_and (chanalt_phase hat b xs r1 r2) hkeep)
  refine hb.calm hcalm ht.2.1 hphase ?_
  rcases hown.goes with hpc | hpc
  · rw [hpc, ht.2.2]
    nofun
  · rw [hpc]
    nofun

/-- Behind its call `t` goes on, or it waits and nobody runs. -/
theorem chanalt_turn (h : Linked s p) (ht : Runs s.g t) {b : Nat} {xs : List Chan.Alt} {r1 r2 : Nat}
    (hen : Enabled s.g (.chanalt b xs r1 r2)) (hs : (code (.chanalt b xs r1 r2)).onHeap s = .ok ((), s')) :
    (s'.g.chan.wait t = none → Runs s'.g t) ∧ (s'.g.chan.wait t ≠ none → s'.g.chan.woken t = 0 → s'.g.taskrunning = none) := by
  obtain ⟨p', hp, hl'⟩ := h.step hen hs
  have hat := at_running h.inv ht.2.1
  have hkeep := keeps_chanalt (t := t) (K := (· = .chanalt b)) b xs r1 r2 rfl s.g hat
  obtain ⟨hphase, hcalm, hown⟩ := all_onPlaces hp (all_and (chanalt_phase hat b xs r1 r2) hkeep)
  have hgood := hl'.inv.good t
  have hwait : s'.g.chan.wait t = (s'.g.task t).pc.array := hgood.wait
  have hlive : s'.g.live t = true := by rw [hcalm.lives]; exact (hat t ht.2.1).2.1
  constructor
  · intro hnone
    have hpc : (s'.g.task t).pc = .app := by
      rcases hown.goes with hpc | hpc
      · rw [hpc]
        exact ht.2.2
      · rw [hwait, hpc] at hnone
        cases hnone
    refine ⟨hphase.trans ht.1, ?_, hpc⟩
    cases hgood.status with
    | dead h1 _ _ _ => exact nomatch hlive.symm.trans h1
    | running _ h2 _ _ => exact of_decide_eq_true h2
    | ready _ _ _ _ h5 => exact absurd hpc h5
    | resting _ _ _ _ h5 =>
      have h5 : (s'.g.task t).pc.rests = true := h5
      rw [hpc] at h5
      cases h5
  · intro hne h0
    have hpc : (s'.g.task t).pc = .chanalt b := by
      rcases hown.goes with hpc | hpc
      · rw [hwait, hpc, ht.2.2] at hne
        exact absurd rfl hne
      · exact hpc
    have hoff : s'.g.taskrunning ≠ some t := of_decide_eq_false ((hgood.chosen b hpc).mp h0).2
    rcases hcalm.running with hrun | hrun
    · exact absurd (hrun.trans ht.2.1) hoff
    · exact hrun

/-- Who is resumed goes on in the application. -/
theorem resume_begins (h : Linked s p) (hw : Chanwise s.g) (hb : Begins s.g) (hr : s.g.taskrunning = some t) {now now' : Nat}
    {poll : Poll} (hen : Enabled s.g (.resume now poll now')) (hs : (code (.resume now poll now')).onHeap s = .ok ((), s')) :
    Begins s'.g ∧ Runs s'.g t := by
  obtain ⟨p', hp, -⟩ := h.step hen hs
  have hat := at_running h.inv hr
  obtain ⟨hfn, hpc⟩ := hw t (hat t hr).2.1
  have hall : (code (.resume now poll now')).All (fun _ g' => (g'.phase = s.g.phase ∧ g'.taskrunning = s.g.taskrunning ∧
      (g'.task t).pc = .app) ∧ Calm t s.g g' ∧ Own t (· = .app) s.g g') s.g := by
    simp only [code, resume]
    refine all_running hat fun _ => all_globals ?_
    rcases hpc with hpc | hpc | ⟨b, hpc⟩
    · simp only [hpc, hfn]
      refine all_and ⟨rfl, rfl, ?_⟩ (keeps_back (K := (· = .app)) rfl s.g hat)
      simp [Glob.setTask]
    · simp only [hpc]
      trivial
    · simp only [hpc]
      refine all_and ?_ (keeps_chanaltresume (K := (· = .app)) b rfl s.g hat)
      unfold chanaltresume
      refine all_running hat fun _ => all_globals ?_
      rw [show Chan.step s.g.chan (.resume t) = .ok { s.g.chan with wait := update s.g.chan.wait t none } from rfl]
      dsimp only
      cases Chan.chanaltResult { s.g.chan with wait := update s.g.chan.wait t none } b with
      | none => trivial
      | some i =>
        refine ⟨rfl, rfl, ?_⟩
        simp [Glob.setTask, Glob.observe]
  obtain ⟨⟨h1, h2, h3⟩, hcalm, -⟩ := all_onPlaces hp hall
  have h3 : (s'.g.task t).pc = .app := h3
  exact ⟨hb.calm hcalm hr h1 (by rw [h3]; simp), h1.trans hen.1, h2.trans hr, h3⟩

/-- Nobody is ready or running: all wait. -/
theorem all_wait (h : Linked s p) (hw : Chanwise s.g) (hb : Begins s.g) (hr : s.g.taskrunning = none)
    (hn : ∀ u, s.g.live u = true → (s.g.task u).state ≠ .READY) {u : TaskPtr} (hu : s.g.live u = true) :
    s.g.chan.wait u ≠ none ∧ s.g.chan.woken u = 0 := by
  have hgood := h.inv.good u
  cases hgood.status with
  | dead h1 _ _ _ => exact nomatch hu.symm.trans h1
  | running _ h2 _ _ =>
    have h2 : s.g.taskrunning = some u := of_decide_eq_true h2
    exact nomatch hr.symm.trans h2
  | ready _ _ h3 _ _ => exact absurd h3 (hn u hu)
  | resting _ h2 h3 _ h5 =>
    rcases (hw u hu).2 with hpc | hpc | ⟨b, hpc⟩
    · rcases hb.start u hu hpc with hready | hrun
      · exact absurd hready (hn u hu)
      · exact nomatch hr.symm.trans hrun
    · have h5 : (s.g.task u).pc.rests = true := h5
      rw [hpc] at h5
      cases h5
    · have hwait : s.g.chan.wait u = (s.g.task u).pc.array := hgood.wait
      refine ⟨?_, (hgood.chosen b hpc).mpr ⟨h3, h2⟩⟩
      rw [hwait, hpc]
      nofun

end

end Libtask.Sched
