/-
  Libtask.Sched.Wakeups — what a step of the library does to the tasks' `udata`.

  `outcome e u` is how step `e` ends the sleep of `u`, if it does: an event that `epoll_wait` named,
  the time, or the shutdown. `udata_step`: a task that a step wakes finds that in its `udata`. The
  others' `udata` are as they were, but for `taskdata`.
-/

import Libtask.Sched.Hooks
import Libtask.Sched.Poller

namespace Libtask.Sched.Hooks

open Function (update update_self update_of_ne)

def outcome (e : Ev) (u : TaskPtr) : Outcome :=
  match e with
  | .resume _ (.events ts) _ => if u ∈ ts then .event else .timeout
  | _ => .shutdown

instance (g : Glob) (u : TaskPtr) : Decidable (Asleep g u) := inferInstanceAs (Decidable (_ ∧ _ ∧ _ ∧ _))

/-- Who sleeps, sleeps on, and no `udata` changes. -/
def Left (s s' : St) : Prop :=
  ∀ u, (s'.m.loc u = some .sleeping ↔ s.m.loc u = some .sleeping) ∧ (s'.g.task u).udata = (s.g.task u).udata

/-- Who wakes up, finds in `udata` how. -/
def Fares (o : TaskPtr → Outcome) (s s' : St) : Prop :=
  ∀ u, s.m.loc u = some .sleeping ∧ s'.m.loc u ≠ some .sleeping ∧ (s'.g.task u).udata = (o u).udata ∨
    (s'.m.loc u = some .sleeping ↔ s.m.loc u = some .sleeping) ∧ (s'.g.task u).udata = (s.g.task u).udata

section
variable {s s₁ s₂ s' : St} {t u : TaskPtr} {e : Ev} {o : TaskPtr → Outcome}

theorem Left.fares (h : Left s s') : Fares o s s' := fun u => .inr (h u)

theorem Fares.left (h : Fares o s s₁) (h' : Left s₁ s₂) : Fares o s s₂ := fun u => by
  obtain ⟨hl, hu⟩ := h' u
  rcases h u with ⟨hs, hn, hx⟩ | ⟨hs, hx⟩
  · exact .inl ⟨hs, fun hl' => hn (hl.mp hl'), hu.trans hx⟩
  · exact .inr ⟨hl.trans hs, hu.trans hx⟩

theorem left_yield (h : Inv s) (hr : s.g.taskrunning = some t) (k : BitVec 32 → Pc) : Ok (taskyield k) s fun _ s' => Left s s' := by
  obtain ⟨-, hz, hloc⟩ := h.here hr
  have hloc' : (s.setTask t fun x => { x with state := .READY }).m.loc t = none := hloc
  simp only [taskyield, ok_bind, ok_globals, ok_running hr]
  rw [ok_taskready hloc (by rw [hz]; simp), ok_taskswitch (s := s.ready t) hr]
  · intro u
    have hl : ((s.ready t).leave t (k s.g.tasknswitch)).m.loc = update s.m.loc t (some .taskrunqueue) := push_loc hloc'
    by_cases hu : u = t
    · subst hu
      refine ⟨iff_of_false (by rw [hl, update_self]; simp) (by rw [hloc]; simp), ?_⟩
      simp [State.leave, State.ready, State.push, State.setTask, State.modify, Glob.setTask, Glob.observe]
    · refine ⟨by rw [hl, update_of_ne hu], ?_⟩
      simp [State.leave, State.ready, State.push, State.setTask, State.modify, Glob.setTask, Glob.observe, hu]
  · simp [State.ready, State.push, State.setTask, State.modify, Glob.setTask, Glob.observe]

theorem fares_polled (h : Inv s) (hr : s.g.taskrunning = some t) {poll : Poll}
    (hpoll : ∀ ts, poll = .events ts → ts.Nodup ∧ ∀ u ∈ ts, Registered s.g u) (v : Option Nat) (now now' : Nat) :
    Ok (fdpolled v poll now') s fun _ s' => Fares (outcome (.resume now poll now')) s s' := by
  cases poll with
  | eintr => exact (left_yield h hr _).mono fun _ _ hl => hl.fares
  | failed => exact ok_modify.mpr (Left.fares fun _ => ⟨Iff.rfl, rfl⟩)
  | events ts =>
    obtain ⟨hnd, hreg⟩ := hpoll ts rfl
    have hall : ∀ u ∈ ts, s.m.loc u = some .sleeping := fun u hu => registered_loc h (hreg u hu)
    simp only [fdpolled, ok_bind, ok_observe, ok_globals]
    refine (fdevents_ok h hnd hall).mono fun _ s₁ hs₁ => ?_
    obtain ⟨h₁, hq⟩ := hs₁
    refine (timers_ok (s := s₁.obs (.nsec now')) (inv_note h₁.inv rfl) now' LIBTASK_TIMEOUT).mono ?_
    intro _ s₂ h₂
    have hr₂ : s₂.g.taskrunning = some t := h₂.running.trans (h₁.running.trans hr)
    have hf : Fares (outcome (.resume now (.events ts) now')) s s₂ := fun u => by
      by_cases hu : u ∈ ts
      · have ho : outcome (.resume now (.events ts) now') u = .event := if_pos hu
        rcases h₁.each u with ⟨hl, -⟩ | ⟨-, hs, hl, hx⟩
        · cases ((hq u hu).symm.trans hl).trans (hall u hu)
        · refine .inl ⟨hs, ?_⟩
          rcases h₂.each u with ⟨hl', hx'⟩ | ⟨-, hs', -, -⟩
          · have hl' : s₂.m.loc u = s₁.m.loc u := hl'
            rw [hl', hl, ho, hx']
            exact ⟨by simp, hx⟩
          · cases hl.symm.trans hs'
      · have ho : outcome (.resume now (.events ts) now') u = .timeout := if_neg hu
        rcases h₁.each u with ⟨hl, hx⟩ | ⟨hp, -, -, -⟩
        · rcases h₂.each u with ⟨hl', hx'⟩ | ⟨-, hs', hl', hx'⟩
          · have hl' : s₂.m.loc u = s₁.m.loc u := hl'
            rw [hl', hl, hx']
            exact .inr ⟨Iff.rfl, congrArg Task.udata hx⟩
          · rw [hl', ho]
            exact .inl ⟨hl.symm.trans hs', by simp, hx'⟩
        · exact absurd hp hu
    cases v with
    | none => exact (left_yield h₂.inv hr₂ _).mono fun _ _ hl => hf.left hl
    | some fn =>
      have hr₃ : (s₂.obs (.callback fn s₂.g.pool_loop_arg)).g.taskrunning = some t := hr₂
      simp only [ok_bind, ok_globals, ok_observe, ok_running hr₃, ok_setTask]
      refine hf.left fun u => ⟨Iff.rfl, ?_⟩
      by_cases hu : u = t
      · subst hu
        simp [State.obs, State.setTask, State.modify, Glob.setTask, Glob.observe]
      · simp [State.obs, State.setTask, State.modify, Glob.setTask, Glob.observe, hu]

theorem fares_poll (h : Inv s) (hr : s.g.taskrunning = some t) {v : Option Nat} {n : BitVec 32}
    (hp : (s.g.task t).pc = .fdtask v n) {poll : Poll}
    (hpoll : ∀ ts, poll = .events ts → ts.Nodup ∧ ∀ u ∈ ts, Registered s.g u) (now now' : Nat) :
    Ok (resume now poll now') s fun _ s' => Fares (outcome (.resume now poll now')) s s' := by
  simp only [resume, ok_bind, ok_running hr, ok_globals, hp]
  split
  · exact (left_yield h hr _).mono fun _ _ hl => hl.fares
  · simp only [fdpoll, ok_bind, ok_head]
    cases (s.m.q .sleeping).head? with
    | none =>
      simp only [ok_bind, ok_observe]
      exact fares_polled (s := s.obs _) (inv_note h rfl) hr hpoll v now now'
    | some w =>
      simp only [ok_bind, ok_observe, ok_globals]
      exact fares_polled (s := (s.obs _).obs _) (inv_note (inv_note h rfl) rfl) hr hpoll v now now'

theorem left_exit (t : TaskPtr) : Left s (s.exit t) := fun u => by
  refine ⟨Iff.rfl, ?_⟩
  have hx : (update s.g.task t { s.g.task t with state := .EXITING, pc := .app } u).udata = (s.g.task u).udata := by
    by_cases hu : u = t
    · subst hu
      rw [update_self]
    · rw [update_of_ne hu]
  simp only [State.exit, State.modify]
  by_cases hv : u = s.g.alltask (s.g.nalltask - 1)
  · subst hv
    simpa only [update_self] using hx
  · simpa only [update_of_ne hv] using hx

theorem fares_shutdown (h : Inv s) (hr : s.g.taskrunning = some t) {fn : Nat} (hfn : (s.g.task t).startfn = .fdtask (some fn)) :
    Ok (code (.callback (-1))) s fun _ s' => Fares (outcome (.callback (-1))) s s' := by
  simp only [code, ok_bind, ok_running hr, ok_globals, hfn, fdcallback, if_true]
  refine (shutdown_ok h EIO).mono fun _ s₁ hs₁ => ?_
  obtain ⟨h₁, -⟩ := hs₁
  have hr₁ : (s₁.modify fun g => { g with startedfdtask := false }).g.taskrunning = some t := h₁.running.trans hr
  have hf : Fares (outcome (.callback (-1))) s (s₁.modify fun g => { g with startedfdtask := false }) := fun u => by
    rcases h₁.each u with ⟨hl, hx⟩ | ⟨-, hs, hl, hx⟩
    · exact .inr ⟨iff_of_eq (congrArg (· = _) hl), congrArg Task.udata hx⟩
    · exact .inl ⟨hs, fun he => (by cases hl.symm.trans he), hx⟩
  exact ok_modify.mpr (ok_taskexit hr₁ (hf.left (left_exit t)))

/-- Who is not woken keeps its `udata`, unless it stores there. -/
theorem udata_same (h : Did s e s') (hl : s.g.live u = true) (hl' : s'.g.live u = true) (hw : s'.g.woken u = s.g.woken u)
    (hd : s.g.taskrunning = some u → ∀ data, e ≠ .taskdata data) : (s'.g.task u).udata = (s.g.task u).udata := by
  cases h with
  | turn _ _ ht =>
    cases ht with
    | finished _ he => rw [he]; rfl
    | stalled _ _ he => rw [he]; rfl
    | dispatched t ts _ _ hd => exact hd.udata u
  | exit t _ _ hx _ =>
    refine hx.udata u ?_
    rintro rfl
    rw [hx.live, update_self] at hl'
    cases hl'
  | shutdown t fn g _ _ _ hf hx _ _ =>
    have hut : u ≠ t := by
      rintro rfl
      rw [hx.live, update_self] at hl'
      cases hl'
    have hlog : s'.g.woken u = g.woken u := by rw [Glob.woken, hx.log]; rfl
    exact (hx.udata u hut).trans (hf.udata u hl hut (hlog.symm.trans hw))
  | call t _ hr hf _ _ _ hstirs =>
    by_cases hut : u = t
    · subst hut
      exact hstirs.data (hd (hr.resolve_right fun hn => by cases hl.symm.trans hn.2)) hw
    · obtain ⟨arg, v, hb⟩ := before_eq e s.g
      rw [hb] at hf
      exact hf.udata u hl hut hw

/-- A task that the step wakes finds how in its `udata`; the others keep theirs. -/
theorem udata_step (h : Inv s) (h' : Inv s') (hen : Enabled s.g e) (hs : (code e).onPlaces s = .ok ((), s'))
    (hl : s.g.live u = true) (hl' : s'.g.live u = true) (hd : s.g.taskrunning = some u → ∀ data, e ≠ .taskdata data) :
    (s'.g.task u).udata = if Asleep s.g u ∧ ¬ Asleep s'.g u then (outcome e u).udata else (s.g.task u).udata := by
  have hdid := did h hen hs
  have hasleep : s.m.loc u = some .sleeping ↔ Asleep s.g u := (s.m.mem_iff _ _).symm.trans (asleep_iff h)
  have hasleep' : s'.m.loc u = some .sleeping ↔ Asleep s'.g u := (s'.m.mem_iff _ _).symm.trans (asleep_iff h')
  have hfares : Fares (outcome e) s s' → (s'.g.task u).udata =
      if Asleep s.g u ∧ ¬ Asleep s'.g u then (outcome e u).udata else (s.g.task u).udata := fun hf => by
    rcases hf u with ⟨hu, hn, hx⟩ | ⟨hu, hx⟩
    · rw [if_pos ⟨hasleep.mp hu, fun hw => hn (hasleep'.mpr hw)⟩, hx]
    · rw [if_neg fun hw => hw.2 (hasleep'.mp (hu.mpr (hasleep.mpr hw.1))), hx]
  rcases hdid.woken hen with hsame | rfl | ⟨now, poll, now', t, v, n, rfl, hr, hpc⟩
  · rw [if_neg, udata_same hdid hl hl' (hsame u) hd]
    rintro ⟨hu, hu'⟩
    exact hu' (hasleep'.mp (sleeps_on h h' hdid.log (hsame u) (hasleep.mpr hu)))
  · obtain ⟨t, ht, fn, hfn⟩ := hen
    exact hfares ((fares_shutdown h ht.2.1 hfn).result hs)
  · exact hfares ((fares_poll h hr hpc hen.2.2 now now').result hs)

end

end Libtask.Sched.Hooks
