/-
  Libtask.Sched.Runs — runs with their steps.

  `Run s₀ tr s`: the program on the links goes from `s₀` to `s` in the steps `tr`, the newest
  first. `Run.holds`: what every step keeps, as long as the steps are as `C` says, holds in
  every run of such steps.
-/

import Mathlib.Data.Fintype.EquivFin
import Mathlib.Data.Finset.Option
import Libtask.Sched.Frames

namespace Libtask.Sched

open Function (update update_self update_of_ne)

/-- The globals before and after a step, and what it was. -/
structure Step where
  g : Glob
  e : Ev
  g' : Glob

inductive Run (s₀ : State Glob Heap) : List Step → State Glob Heap → Prop
  | refl : Run s₀ [] s₀
  | step {tr : List Step} {s s' : State Glob Heap} (e : Ev) : Run s₀ tr s → Enabled s.g e →
      (code e).onHeap s = .ok ((), s') → Run s₀ (⟨s.g, e, s'.g⟩ :: tr) s'

/-- Nothing happened yet. -/
def Starts (s : State Glob Heap) : Prop :=
  ∃ rendezl size junk mem, Chan.SizesOk size ∧
    s = ⟨start rendezl (Chan.start size junk mem), ⟨fun _ => none, fun _ => none, fun _ => ⟨none, none⟩⟩⟩

/-- `s` links what the places `p` say, and the invariant holds. -/
structure Linked (s : State Glob Heap) (p : Places) : Prop where
  inv : Inv ⟨s.g, p⟩
  rep : Rep s.m p

section
variable {s₀ s s' : State Glob Heap} {tr : List Step} {p : Places} {e : Ev}

theorem linked_start (h : Starts s) : Linked s Places.empty := by
  obtain ⟨rendezl, size, junk, mem, hs, rfl⟩ := h
  exact ⟨inv_start rendezl junk mem hs, rep_start⟩

theorem linked_reach (h : Reach s) : ∃ p, Linked s p := by
  obtain ⟨p, hp, hrep⟩ := linked h
  exact ⟨p, inv hp, hrep⟩

/-- A step on the links is one on the places. -/
theorem Linked.step (h : Linked s p) (hen : Enabled s.g e) (hs : (code e).onHeap s = .ok ((), s')) :
    ∃ p', (code e).onPlaces ⟨s.g, p⟩ = .ok ((), ⟨s'.g, p'⟩) ∧ Linked s' p' := by
  obtain ⟨a, s₁, hr, hinv⟩ := step_places h.inv hen
  obtain ⟨h', hh, hrep'⟩ := onPlaces_refines (code e) hr h.rep
  rw [show (⟨s.g, s.m⟩ : State Glob Heap) = s from rfl, hs] at hh
  obtain ⟨-, rfl⟩ := Prod.mk.inj (Except.ok.inj hh)
  exact ⟨s₁.m, hr, hinv, hrep'⟩

theorem Run.reach (h₀ : Reach s₀) (h : Run s₀ tr s) : Reach s := by
  induction h with
  | refl => exact h₀
  | step e _ hen hs ih => exact .step e ih hen hs

theorem reach_starts (h : Starts s) : Reach s := by
  obtain ⟨rendezl, size, junk, mem, hs, rfl⟩ := h
  exact .init rendezl size junk mem hs

/-- What every step keeps holds in every run: `C` is what is known of the steps. -/
theorem Run.holds {P : List Step → St → Prop} {C : Step → Prop} (h₀ : Linked s₀ p) (hp : P [] ⟨s₀.g, p⟩)
    (hstep : ∀ {tr : List Step} {s s' : St} {e : Ev}, Inv s → P tr s → Enabled s.g e →
      (code e).onPlaces s = .ok ((), s') → Inv s' → C ⟨s.g, e, s'.g⟩ → P (⟨s.g, e, s'.g⟩ :: tr) s')
    (h : Run s₀ tr s) (hC : ∀ x ∈ tr, C x) : ∃ p', Linked s p' ∧ P tr ⟨s.g, p'⟩ := by
  induction h with
  | refl => exact ⟨p, h₀, hp⟩
  | step e _ hen hs ih =>
    obtain ⟨p₁, hl, hP⟩ := ih fun x hx => hC x (List.mem_cons_of_mem _ hx)
    obtain ⟨p₂, hr, hl'⟩ := hl.step hen hs
    exact ⟨p₂, hl', hstep hl.inv hP hen hr hl'.inv (hC _ List.mem_cons_self)⟩

theorem Run.linked (h₀ : Linked s₀ p) (h : Run s₀ tr s) : ∃ p', Linked s p' := by
  obtain ⟨p', hl, -⟩ := h.holds (P := fun _ _ => True) (C := fun _ => True) h₀ trivial
    (fun _ _ _ _ _ _ => trivial) fun _ _ => trivial
  exact ⟨p', hl⟩

theorem Run.next (h : Run s₀ tr s) (h₀ : Linked s₀ p) (hen : Enabled s.g e) :
    Run s₀ (⟨s.g, e, (s.next e).g⟩ :: tr) (s.next e) := by
  obtain ⟨p', hl⟩ := h.linked h₀
  obtain ⟨s', -, hs, -⟩ := ok_onHeap (step_places hl.inv hen) hl.rep
  refine .step e h hen ?_
  rw [hs, State.next, hs]

end

/-! ## One step -/

section
variable {t : TaskPtr} {s s' : St} {e : Ev}

theorem at_running (h : Inv s) (hr : s.g.taskrunning = some t) : At t s.g := by
  intro w hw
  obtain rfl : t = w := Option.some.inj (hr.symm.trans hw)
  exact ⟨rfl, (h.here hr).1, h.awake hr⟩

theorem at_none (h : s.g.taskrunning = none) (t : TaskPtr) : At t s.g := fun _ hu => nomatch h.symm.trans hu

/-- A call of `t` leaves its `udata`, but for `taskdata`. Only the `fdtask` wakes sleeping tasks. -/
structure Stirs (t : TaskPtr) (e : Ev) (g g' : Glob) : Prop where
  data : (∀ data, e ≠ .taskdata data) → g'.woken t = g.woken t → (g'.task t).udata = (g.task t).udata
  wakes : (∀ u, g'.woken u = g.woken u) ∨ ∃ now poll now' v n, e = .resume now poll now' ∧ (g.task t).pc = .fdtask v n

/-- What a step can do: a turn of the scheduler, an exit, or a call that frees nobody. -/
inductive Did (s : St) (e : Ev) (s' : St) : Prop
  | turn : e = .taskscheduler → s.g.taskrunning = none → Turn s s' → Did s e s'
  | exit (t : TaskPtr) : e = .taskexit → Runs s.g t → Exits t s.g s'.g → s'.g.startedfdtask = s.g.startedfdtask → Did s e s'
  | shutdown (t : TaskPtr) (fn : Nat) (g : Glob) : e = .callback (-1) → Runs s.g t → (s.g.task t).startfn = .fdtask (some fn) →
      Frame t s.g g → Exits t g s'.g → s'.g.startedfdtask = false → s'.m.q .sleeping = [] → Did s e s'
  /-- Made by `t`, or before the scheduler, and then `t` is nobody. -/
  | call (t : TaskPtr) : e.call → s.g.taskrunning = some t ∨ s.g.taskrunning = none ∧ s.g.live t = false →
      Frame t (e.before s.g) s'.g → (e.malloc = none → Calm t s.g s'.g) →
      s'.g.startedfdtask = (s.g.startedfdtask || e.starts) →
      ((s'.g.task t).pc = (s.g.task t).pc ∨ e.stops (s'.g.task t).pc) →
      Stirs t e s.g s'.g → Did s e s'

theorem before_eq (e : Ev) (g : Glob) : ∃ arg v, e.before g = { g with pool_loop_arg := arg, pool_loop_fn := v } := by
  cases e with
  | startfdtask fn arg a => exact ⟨arg, fn, rfl⟩
  | _ => exact ⟨g.pool_loop_arg, g.pool_loop_fn, rfl⟩

/-- What `malloc` returns is not in use. -/
theorem malloc_dead {g : Glob} {a : TaskPtr} (hen : Enabled g e) (ha : e.malloc = some a) : g.live a = false := by
  cases e with
  | taskcreateraw b => exact Option.some.inj ha ▸ hen.2
  | taskcreate b => exact Option.some.inj ha ▸ hen.2
  | startfdtask fn arg b => exact Option.some.inj ha ▸ hen.2
  | taskdelay ms now b => exact Option.some.inj ha ▸ hen.2
  | fdwait now b => exact Option.some.inj ha ▸ hen.2
  | _ => cases ha

/-- There is always more memory. -/
theorem exists_dead {g : Glob} (h : Slots g) (o : Option TaskPtr) : ∃ t, g.live t = false ∧ o ≠ some t := by
  obtain ⟨t, ht⟩ := Infinite.exists_notMem_finset ((Finset.range g.nalltask).image g.alltask ∪ o.toFinset)
  simp only [Finset.mem_union, Finset.mem_image, Finset.mem_range, Option.mem_toFinset, not_or] at ht
  refine ⟨t, ?_, ht.2⟩
  by_contra hl
  exact ht.1 ((h.live t).mp (by simpa using hl))

theorem did (h : Inv s) (hen : Enabled s.g e) (hs : (code e).onPlaces s = .ok ((), s')) : Did s e s' := by
  by_cases hc : e.call
  · have hf : ∀ t, At t s.g → e.malloc ≠ some t → Frame t (e.before s.g) s'.g ∧
        ((s'.g.task t).pc = (s.g.task t).pc ∨ e.stops (s'.g.task t).pc) := fun t ht ha =>
      all_onPlaces (Q := fun _ g' => Frame t (e.before s.g) g' ∧ ((g'.task t).pc = (s.g.task t).pc ∨ e.stops (g'.task t).pc)) hs
        (call_frame ht hen ha hc)
    have hd : ∀ t, At t s.g → e.malloc ≠ some t → Stirs t e s.g s'.g := fun t ht ha => by
      refine ⟨fun hd hw => ?_, all_onPlaces (Q := fun _ g' => (∀ u, g'.woken u = s.g.woken u) ∨
        ∃ now poll now' v n, e = .resume now poll now' ∧ (s.g.task t).pc = .fdtask v n) hs (call_woken ht hen ha hc)⟩
      have h := all_onPlaces (Q := fun _ g' => Acts t e.stops (e.before s.g) g') hs (call_acts ht hen ha hc hd)
      have hg : (e.before s.g).woken t = s.g.woken t ∧ (e.before s.g).task t = s.g.task t := by
        cases e <;> exact ⟨rfl, rfl⟩
      rw [← hg.2]
      exact h.data (hw.trans hg.1.symm)
    have hm : ∀ t, At t s.g → e.malloc = none → Calm t s.g s'.g := fun t ht hm =>
      all_onPlaces (Q := fun _ g' => Calm t s.g g') hs (call_calm ht hm hc)
    have hb : ∀ t, At t s.g → e.malloc ≠ some t → s'.g.startedfdtask = (s.g.startedfdtask || e.starts) := fun t ht ha =>
      all_onPlaces (Q := fun _ g' => g'.startedfdtask = (s.g.startedfdtask || e.starts)) hs (call_flag ht hen ha hc)
    cases hr : s.g.taskrunning with
    | none =>
      obtain ⟨t, hdead, ha⟩ := exists_dead h.base.slots e.malloc
      have hat := at_none hr t
      exact .call t hc (.inr ⟨hr, hdead⟩) (hf t hat ha).1 (hm t hat) (hb t hat ha) (hf t hat ha).2 (hd t hat ha)
    | some t =>
      have ha : e.malloc ≠ some t := fun ha => nomatch (h.here hr).1.symm.trans (malloc_dead hen ha)
      have hat := at_running h hr
      exact .call t hc (.inl hr) (hf t hat ha).1 (hm t hat) (hb t hat ha) (hf t hat ha).2 (hd t hat ha)
  · cases e with
    | taskscheduler => exact .turn rfl hen.2 (turn hs)
    | taskexit =>
      obtain ⟨t, ht⟩ := hen
      have hx : Ok taskexit s fun _ s' => Exits t s.g s'.g ∧ s'.g.startedfdtask = s.g.startedfdtask :=
        ok_taskexit ht.2.1 ⟨exits t, rfl⟩
      obtain ⟨h1, h2⟩ := hx.result hs
      exact .exit t rfl ht h1 h2
    | callback r =>
      obtain rfl : r = -1 := not_not.mp hc
      obtain ⟨t, ht, fn, hfn⟩ := hen
      have hat := at_running h ht.2.1
      have hx : Ok (code (.callback (-1))) s fun _ s' => ∃ g, Frame t s.g g ∧ Exits t g s'.g ∧
          s'.g.startedfdtask = false ∧ s'.m.q .sleeping = [] := by
        simp only [code, ok_bind, ok_running ht.2.1, ok_globals, hfn, fdcallback, if_true]
        obtain ⟨n, s₁, hr₁, hst, hq⟩ := shutdown_ok h EIO
        have hk : Keeps t (fun _ => True) (loop (fun _ => head .sleeping) (fdwake EIO) s.g.nalltask 0) :=
          keeps_shutdown ⟨trivial, none, 0, trivial⟩ EIO _
        have hf := all_onPlaces (Q := fun _ g' => Calm t s.g g' ∧ Own t (fun _ => True) s.g g') hr₁ (hk s.g hat)
        refine ⟨n, s₁, hr₁, ?_⟩
        refine ok_modify.mpr ?_
        obtain ⟨h1, h2, h3, h4, h5, h6, h7, h8, h9, h10, h11⟩ := exits (s := s₁.modify fun g => { g with startedfdtask := false }) t
        have hr : (s₁.modify fun g => { g with startedfdtask := false }).g.taskrunning = some t := hst.running.trans ht.2.1
        exact ok_taskexit hr ⟨s₁.g, hf.1.toFrame, ⟨h1, h2, h3, h4, h5, h6, h7, h8, h9, h10, h11⟩, rfl, hq⟩
      obtain ⟨g, h1, h2, h3, h4⟩ := hx.result hs
      exact .shutdown t fn g rfl ht hfn h1 h2 h3 h4
    | _ => exact absurd trivial hc

/-- A task that did not run is where it was, or is new. -/
theorem Did.other (h : Did s e s') (ht : s.g.taskrunning ≠ some t) (hl : s'.g.live t = true) :
    s.g.live t = true ∧ (s'.g.task t).pc = (s.g.task t).pc ∨ s.g.live t = false ∧ (s'.g.task t).pc = .start := by
  cases h with
  | turn _ _ h =>
    cases h with
    | finished _ he =>
      subst he
      exact .inl ⟨hl, rfl⟩
    | stalled _ _ he =>
      subst he
      exact .inl ⟨hl, rfl⟩
    | dispatched u us _ _ hd =>
      rw [hd.live] at hl
      exact .inl ⟨hl, hd.pc t⟩
  | exit u _ hr hx _ =>
    have hut : t ≠ u := fun he => ht (he ▸ hr.2.1)
    rw [hx.live, update_of_ne hut] at hl
    exact .inl ⟨hl, hx.pc t hut⟩
  | shutdown u fn g _ hr _ hf hx _ _ =>
    have hut : t ≠ u := fun he => ht (he ▸ hr.2.1)
    rw [hx.live, update_of_ne hut] at hl
    rw [hx.pc t hut]
    by_cases hs : s.g.live t = true
    · exact .inl ⟨hs, hf.pc t hs hut⟩
    · exact .inr ⟨by simpa using hs, (hf.fresh t (by simpa using hs) hl).pc⟩
  | call u _ hu hf _ _ _ _ =>
    obtain ⟨arg, v, hb⟩ := before_eq e s.g
    rw [hb] at hf
    by_cases hs : s.g.live t = true
    · have hut : t ≠ u := by
        rintro rfl
        rcases hu with hu | hu
        · exact ht hu
        · exact nomatch hs.symm.trans hu.2
      exact .inl ⟨hs, hf.pc t hs hut⟩
    · exact .inr ⟨by simpa using hs, (hf.fresh t (by simpa using hs) hl).pc⟩

/-- A task that does not run stays where it is. -/
theorem Did.same (h : Did s e s') (ht : s.g.taskrunning ≠ some t) (hl : s.g.live t = true) :
    s'.g.live t = true ∧ (s'.g.task t).pc = (s.g.task t).pc := by
  cases h with
  | turn _ _ h =>
    cases h with
    | finished _ he =>
      subst he
      exact ⟨hl, rfl⟩
    | stalled _ _ he =>
      subst he
      exact ⟨hl, rfl⟩
    | dispatched u us _ _ hd => exact ⟨by rw [hd.live]; exact hl, hd.pc t⟩
  | exit u _ hr hx _ =>
    have hut : t ≠ u := fun he => ht (he ▸ hr.2.1)
    exact ⟨by rw [hx.live, update_of_ne hut]; exact hl, hx.pc t hut⟩
  | shutdown u fn g _ hr _ hf hx _ _ =>
    have hut : t ≠ u := fun he => ht (he ▸ hr.2.1)
    exact ⟨by rw [hx.live, update_of_ne hut]; exact hf.live t hl, (hx.pc t hut).trans (hf.pc t hl hut)⟩
  | call u _ hu hf _ _ _ _ =>
    obtain ⟨arg, v, hb⟩ := before_eq e s.g
    rw [hb] at hf
    have hut : t ≠ u := by
      rintro rfl
      rcases hu with hu | hu
      · exact ht hu
      · exact nomatch hl.symm.trans hu.2
    exact ⟨hf.live t hl, hf.pc t hl hut⟩

theorem Did.phase (h : Did s e s') (hp : s'.g.phase = .main) : s.g.phase = .main := by
  cases h with
  | turn _ _ h =>
    cases h with
    | finished _ he => rw [he] at hp; cases hp
    | stalled _ _ he => rw [he] at hp; cases hp
    | dispatched u us _ _ hd => rw [hd.phase] at hp; cases hp
  | exit u _ _ hx _ => exact hx.phase.symm.trans hp
  | shutdown u fn g _ _ _ hf hx _ _ =>
    rw [hx.phase] at hp
    exact (hf.phase.resolve_right (by rw [hp]; nofun)).symm.trans hp
  | call u _ _ hf _ _ _ _ =>
    obtain ⟨arg, v, hb⟩ := before_eq e s.g
    rw [hb] at hf
    exact (hf.phase.resolve_right (by rw [hp]; nofun)).symm.trans hp

/-- Only the scheduler counts. -/
theorem Did.switches (h : Did s e s') (hr : s.g.taskrunning ≠ none) : s'.g.tasknswitch = s.g.tasknswitch := by
  cases h with
  | turn _ hr' _ => exact absurd hr' hr
  | exit u _ _ hx _ => exact hx.switches
  | shutdown u fn g _ _ _ hf hx _ _ => exact hx.switches.trans hf.switches
  | call u _ _ hf _ _ _ _ =>
    obtain ⟨arg, v, hb⟩ := before_eq e s.g
    rw [hb] at hf
    exact hf.switches

theorem Did.main (h : Did s e s') (hm : s.g.phase = .main → s.g.taskrunning = none) (hp : s'.g.phase = .main) :
    s'.g.taskrunning = none := by
  have hnone := hm (h.phase hp)
  cases h with
  | turn _ _ h =>
    cases h with
    | finished _ he => rw [he] at hp; cases hp
    | stalled _ _ he => rw [he] at hp; cases hp
    | dispatched u us _ _ hd => rw [hd.phase] at hp; cases hp
  | exit u _ _ hx _ => exact hx.running
  | shutdown u fn g _ _ _ _ hx _ _ => exact hx.running
  | call u _ _ hf _ _ _ _ =>
    obtain ⟨arg, v, hb⟩ := before_eq e s.g
    rw [hb] at hf
    have hrun : s'.g.taskrunning = s.g.taskrunning ∨ s'.g.taskrunning = none := hf.running
    rw [hnone] at hrun
    exact hrun.elim id id

/-- The history grows. -/
theorem Did.log (h : Did s e s') : ∃ new, s'.g.log = new ++ s.g.log := by
  cases h with
  | turn _ _ h =>
    cases h with
    | finished _ he => exact ⟨[], he ▸ rfl⟩
    | stalled _ _ he => exact ⟨[], he ▸ rfl⟩
    | dispatched u us _ _ hd => exact ⟨[_], hd.log⟩
  | exit u _ _ hx _ => exact ⟨[], hx.log⟩
  | shutdown u fn g _ _ _ hf hx _ _ =>
    obtain ⟨new, hnew, -⟩ := hf.log
    exact ⟨new, hx.log.trans hnew⟩
  | call u _ _ hf _ _ _ _ =>
    obtain ⟨arg, v, hb⟩ := before_eq e s.g
    rw [hb] at hf
    obtain ⟨new, hnew, -⟩ := hf.log
    exact ⟨new, hnew⟩

/-- Nobody but the `fdtask` wakes sleeping tasks, behind its `taskyield`s or at its end. -/
theorem Did.woken (h : Did s e s') (hen : Enabled s.g e) : (∀ u, s'.g.woken u = s.g.woken u) ∨ e = .callback (-1) ∨
    ∃ now poll now' t v n, e = .resume now poll now' ∧ s.g.taskrunning = some t ∧ (s.g.task t).pc = .fdtask v n := by
  cases h with
  | turn _ _ h =>
    cases h with
    | finished _ he => exact .inl fun _ => he ▸ rfl
    | stalled _ _ he => exact .inl fun _ => he ▸ rfl
    | dispatched u us _ _ hd =>
      refine .inl fun w => ?_
      have hne : Obs.del .taskrunqueue u ≠ .del .sleeping w := by simp
      rw [Glob.woken, hd.log, List.count_cons_of_ne hne]
      rfl
  | exit u _ _ hx _ => exact .inl fun _ => by rw [Glob.woken, hx.log]; rfl
  | shutdown u fn g he _ _ _ _ _ _ => exact .inr (.inl he)
  | call u _ hu _ _ _ _ hstirs =>
    rcases hstirs.wakes with hw | ⟨now, poll, now', v, n, he, hpc⟩
    · exact .inl hw
    · refine .inr (.inr ⟨now, poll, now', u, v, n, he, hu.resolve_right fun hd => ?_, hpc⟩)
      subst he
      obtain ⟨-, ⟨w, hw, -⟩, -⟩ := hen
      cases hd.1.symm.trans hw

/-- Who is not taken off the sleeping list stays there. -/
theorem sleeps_on (h : Inv s) (h' : Inv s') (hlog : ∃ new, s'.g.log = new ++ s.g.log) (hw : s'.g.woken t = s.g.woken t)
    (ht : s.m.loc t = some .sleeping) : s'.m.loc t = some .sleeping := by
  obtain ⟨new, hnew⟩ := hlog
  obtain ⟨hadd, hnone⟩ := (h.base.moves .sleeping t).1 ht
  by_contra hne
  have hone := (h'.base.moves .sleeping t).2 hne (by rw [hnew]; exact List.mem_append_right _ hadd)
  have hcount : new.count (.del .sleeping t) = 0 := by
    rw [Glob.woken, Glob.woken, hnew, List.count_append] at hw
    omega
  rw [delsSince, hnew, List.takeWhile_append] at hone
  split at hone
  · rw [List.count_append, hcount, Nat.zero_add] at hone
    cases hone.symm.trans hnone
  · have hle := (List.takeWhile_sublist (l := new) (· ≠ Obs.add .sleeping t)).count_le (.del .sleeping t)
    omega

end

theorem main_reach {s : State Glob Heap} (h : Reach s) : s.g.phase = .main → s.g.taskrunning = none := by
  induction h with
  | init rendezl size junk mem _ => exact fun _ => rfl
  | step e h hen hs ih =>
    obtain ⟨p, hl⟩ := linked_reach h
    obtain ⟨p', hr, -⟩ := hl.step hen hs
    exact (did hl.inv hen hr).main ih

/-! ## Single runs -/

/-- The application runs, in this task. -/
def Glob.runs (g : Glob) : Option TaskPtr := g.taskrunning.filter fun t => decide (Runs g t)

/-- Enough for a step to be enabled, and it computes. -/
def Glob.can (g : Glob) : Ev → Bool
  | .taskcreateraw a => (g.phase = .main || g.runs.isSome) && !g.live a
  | .taskcreate a => (g.phase = .main || g.runs.isSome) && !g.live a
  | .startfdtask _ _ a => (g.phase = .main || g.runs.isSome) && !g.live a
  | .poke _ _ => g.phase = .main || g.runs.isSome
  | .taskdelay _ _ a => g.runs.isSome && !g.live a
  | .fdwait _ a => g.runs.isSome && !g.live a
  | .taskready _ => false
  | .qunlock _ => false
  | .runlock _ => false
  | .wunlock _ => false
  | .tasksleep _ => false
  | .chanalt _ _ _ _ => false
  | .callback _ =>
    match g.runs with
    | some t => match (g.task t).startfn with | .fdtask (some _) => true | _ => false
    | none => false
  | .taskscheduler => (g.phase = .main || g.phase = .loop) && g.taskrunning = none
  | .resume _ poll _ => g.phase = .loop && (match g.taskrunning with | some t => (g.task t).pc ≠ .app | none => false) &&
      match poll with
      | .events ts => ts.Nodup && ts.all fun t => g.live t && (match (g.task t).pc with | .fdwait _ => true | _ => false) &&
          (g.task t).state = .zero && g.taskrunning ≠ some t
      | _ => true
  | _ => g.runs.isSome

theorem enabled_of_can {g : Glob} {e : Ev} (h : g.can e = true) : Enabled g e := by
  have hruns : ∀ t, g.runs = some t → Runs g t := fun t ht =>
    of_decide_eq_true (Option.filter_eq_some_iff.mp ht).2
  have hrun : g.runs.isSome = true → ∃ t, Runs g t := fun hs => by
    obtain ⟨t, ht⟩ := Option.isSome_iff_exists.mp hs
    exact ⟨t, hruns t ht⟩
  have hout : (decide (g.phase = .main) || g.runs.isSome) = true → Outside g := fun ho => by
    rcases Bool.or_eq_true_iff.mp ho with ho | ho
    · exact .inl (of_decide_eq_true ho)
    · exact .inr (hrun ho)
  have hdead : ∀ {a : TaskPtr}, (!g.live a) = true → g.live a = false := fun hd => by simpa using hd
  cases e with
  | taskcreateraw a => exact (Bool.and_eq_true_iff.mp h).imp hout hdead
  | taskcreate a => exact (Bool.and_eq_true_iff.mp h).imp hout hdead
  | startfdtask fn arg a => exact (Bool.and_eq_true_iff.mp h).imp hout hdead
  | poke x b => exact hout h
  | taskdelay ms now a => exact (Bool.and_eq_true_iff.mp h).imp hrun hdead
  | fdwait now a => exact (Bool.and_eq_true_iff.mp h).imp hrun hdead
  | callback r =>
    simp only [Glob.can] at h
    split at h
    · rename_i t ht
      split at h
      · rename_i fn hfn
        exact ⟨t, hruns t ht, fn, hfn⟩
      · cases h
    · cases h
  | taskscheduler =>
    simp only [Glob.can, Bool.and_eq_true, Bool.or_eq_true, decide_eq_true_eq] at h
    exact h
  | resume now poll now' =>
    simp only [Glob.can, Bool.and_eq_true, decide_eq_true_eq] at h
    obtain ⟨⟨h1, h2⟩, h3⟩ := h
    refine ⟨h1, ?_, ?_⟩
    · split at h2
      · rename_i t ht
        exact ⟨t, ht, of_decide_eq_true h2⟩
      · cases h2
    · intro ts hts
      subst hts
      simp only [Bool.and_eq_true, decide_eq_true_eq, List.all_eq_true] at h3
      refine ⟨h3.1, fun t ht => ?_⟩
      obtain ⟨⟨⟨h4, h5⟩, h6⟩, h7⟩ := h3.2 t ht
      refine ⟨h4, ?_, h6, h7⟩
      split at h5
      · exact ⟨_, by assumption⟩
      · cases h5
  | taskready t => cases h
  | qunlock l => cases h
  | runlock l => cases h
  | wunlock l => cases h
  | tasksleep r => cases h
  | chanalt a xs r1 r2 => cases h
  | _ => exact hrun h

/-- The steps `es` can be taken in turn. -/
def State.can (s : State Glob Heap) : List Ev → Bool
  | [] => true
  | e :: es => s.g.can e && (s.next e).can es

/-- The steps `es`, behind `tr`. -/
def State.steps (s : State Glob Heap) : List Ev → List Step → List Step
  | [], tr => tr
  | e :: es, tr => (s.next e).steps es (⟨s.g, e, (s.next e).g⟩ :: tr)

theorem Run.plays {s₀ : State Glob Heap} {p : Places} (h₀ : Linked s₀ p) : ∀ (es : List Ev) {tr : List Step} {s : State Glob Heap},
    Run s₀ tr s → s.can es = true → Run s₀ (s.steps es tr) (es.foldl State.next s) := by
  intro es
  induction es with
  | nil => exact fun h _ => h
  | cons e es ih =>
    intro tr s h hc
    obtain ⟨h1, h2⟩ := Bool.and_eq_true_iff.mp hc
    exact ih (h.next h₀ (enabled_of_can h1)) h2

theorem mem_steps {x : Step} : ∀ (es : List Ev) {tr : List Step} {s : State Glob Heap}, x ∈ s.steps es tr → x.e ∈ es ∨ x ∈ tr := by
  intro es
  induction es with
  | nil => exact .inr
  | cons e es ih =>
    intro tr s hx
    rcases ih hx with h | h
    · exact .inl (List.mem_cons_of_mem _ h)
    · rcases List.mem_cons.mp h with rfl | h
      · exact .inl List.mem_cons_self
      · exact .inr h

theorem starts_boot : Starts boot := ⟨fun _ => some 0, fun _ => (1, 0), fun _ _ => 0, fun _ => 0, by simp [Chan.SizesOk], rfl⟩

/-- A run from `boot`. -/
theorem run_boot (es : List Ev) (h : boot.can es = true) : Run boot (boot.steps es []) (es.foldl State.next boot) :=
  Run.refl.plays (linked_start starts_boot) es h

end Libtask.Sched
