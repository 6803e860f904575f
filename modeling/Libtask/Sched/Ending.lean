/-
  Libtask.Sched.Ending — when `taskscheduler` returns.

  `never_abandons`: `taskcount` covers all tasks that are not freed, so the scheduler ends by
  it only when there is none, and then nothing is left on any list or to be freed.

  The `fdtask` is such a task. Without a callback it never exits: `ends_iff`: when all tasks of
  the application exited and nobody sleeps, the scheduler ends exactly if the run made no call
  of `taskdelay`, `fdwait` or `startfdtask`. `fdtask_stays_behind` is a run in which it does not.
-/

import Libtask.Sched.Poller

namespace Libtask.Sched

open Function (update update_self update_of_ne)
open Libtask.Lib.Dll

section
variable {s s' : St} {t u : TaskPtr} {e : Ev} {g : Glob}

/-! ## The tasks that are not freed -/

def Glob.tasks (g : Glob) : List TaskPtr := (List.range g.nalltask).map g.alltask

theorem mem_tasks (h : Slots g) : t ∈ g.tasks ↔ g.live t = true := by
  rw [h.live t]
  simp [Glob.tasks]

theorem nodup_tasks (h : Slots g) : g.tasks.Nodup := by
  refine List.Nodup.map_on ?_ List.nodup_range
  intro i hi j hj he
  rw [← h.slot i (List.mem_range.mp hi), he, h.slot j (List.mem_range.mp hj)]

theorem taskcount_le (h : Base s) : (s.g.nalltask : Int) ≤ s.g.taskcount := by
  have hc := h.count
  split at hc <;> omega

/-- With nobody left nothing is on a list. -/
theorem lists_nil (h : Inv s) (hn : s.g.nalltask = 0) (l : ListRef) : s.m.q l = [] :=
  List.eq_nil_of_length_eq_zero (by have := h.length_le l; omega)

end

/-- The scheduler leaves its loop by `taskcount` only when no task is left, and then frees none. -/
theorem never_abandons {s : State Glob Heap} (h : Reach s) :
    (∃ ts : List TaskPtr, ts.Nodup ∧ (∀ t, t ∈ ts ↔ s.g.live t = true) ∧ ts.length = s.g.nalltask) ∧
    (s.g.nalltask : Int) ≤ s.g.taskcount ∧
    ∀ s', Enabled s.g .taskscheduler → (code .taskscheduler).onHeap s = .ok ((), s') →
      (s'.g.phase = .finished ↔ s.g.taskcount = 0) ∧
      (s'.g.phase = .finished → (∀ t, s'.g.live t = false) ∧
        (∀ l, IsDll s'.m.next s'.m.prev (s'.m.list l).head (s'.m.list l).tail []) ∧
        taskschedulerend.onHeap s' = .ok ((), { s' with g := { s'.g with allcap := 0 } })) := by
  obtain ⟨p, hl⟩ := linked_reach h
  have hb := hl.inv.base
  have hslots : Slots s.g := hb.slots
  refine ⟨⟨s.g.tasks, nodup_tasks hslots, fun t => mem_tasks hslots, by simp [Glob.tasks]⟩, taskcount_le hb, ?_⟩
  intro s' hen hs
  obtain ⟨p', hr, hl'⟩ := hl.step hen hs
  have hle : (s.g.nalltask : Int) ≤ s.g.taskcount := taskcount_le hb
  cases turn hr with
  | finished h0 he =>
    have h0 : s.g.taskcount = 0 := h0
    have hn : s.g.nalltask = 0 := by omega
    have hg : s'.g = { s.g with phase := .finished } := congrArg State.g he
    have hn' : s'.g.nalltask = 0 := by rw [hg]; exact hn
    refine ⟨⟨fun _ => h0, fun _ => by rw [hg]⟩, fun _ => ⟨fun t => ?_, fun l => ?_, ?_⟩⟩
    · by_contra hlive
      obtain ⟨i, hi, -⟩ := (hl'.inv.base.slots.live t).mp (by simpa using hlive)
      have hi : i < s'.g.nalltask := hi
      omega
    · have hnil : p'.q l = [] := lists_nil hl'.inv hn' l
      rw [← hnil]
      exact hl'.rep l
    · show (freetasks s'.g.nalltask >>= fun _ => modify fun g => { g with allcap := 0 }).onHeap s' = _
      rw [hn']
      show ((if 0 < s'.g.nalltask then abort "out of fuel" else pure () : Lib Unit) >>=
        fun _ => modify fun g => { g with allcap := 0 }).onHeap s' = _
      rw [if_neg (by omega)]
      rfl
  | stalled h0 _ he =>
    have h0 : s.g.taskcount ≠ 0 := h0
    have hph : s'.g.phase = .stalled := congrArg (fun x : St => x.g.phase) he
    rw [hph]
    exact ⟨⟨nofun, fun hc => absurd hc h0⟩, nofun⟩
  | dispatched t ts h0 _ hd =>
    have h0 : s.g.taskcount ≠ 0 := h0
    have hph : s'.g.phase = .loop := hd.phase
    rw [hph]
    exact ⟨⟨nofun, fun hc => absurd hc h0⟩, nofun⟩

/-- Task 1 was created and exited. -/
def exited : List Ev := [.taskcreate 1, .taskscheduler, .resume 0 .eintr 0, .taskexit]

theorem never_abandons_exited : ∃ s s', Reach s ∧ (code .taskscheduler).onHeap s = .ok ((), s') ∧ s'.g.phase = .finished ∧
    ∀ t, s'.g.live t = false := by
  have h := (run_boot exited (by decide +kernel)).reach reach_boot
  have hen : Enabled (exited.foldl State.next boot).g .taskscheduler := ⟨by decide +kernel, by decide +kernel⟩
  obtain ⟨s', hs⟩ := step_ok h hen
  obtain ⟨hfin, hend⟩ := (never_abandons h).2.2 s' hen hs
  have hph := hfin.mpr (by decide +kernel)
  exact ⟨_, s', h, hs, hph, (hend hph).1⟩

/-! ## Without a callback -/

/-- A step that gives the `fdtask` no callback. -/
def NoCallback (x : Step) : Prop := ∀ fn arg a, x.e = .startfdtask fn arg a → fn = none

/-- Where `fdtask(NULL)` is. -/
def Pc.loops : Pc → Bool
  | .start => true
  | .fdtask none _ => true
  | _ => false

/-- No `fdtask` has a callback, and the counter goes up only after one started. -/
structure Unhooked (s : St) : Prop where
  poller : Poller s
  loopfn : s.g.pool_loop_fn = none
  fn : ∀ t, IsFdtask s.g t → (s.g.task t).startfn = .fdtask none
  loops : s.g.phase ≠ .exited → ∀ t, IsFdtask s.g t → (s.g.task t).pc.loops = true
  idle : s.g.startedfdtask = false → s.g.sleepingcounted ≤ 0

section
variable {s s' : St} {t u : TaskPtr} {e : Ev} {g : Glob}

theorem Unhooked.same (h : Unhooked s) (hp : Poller s') (hph : s.g.phase ≠ .exited) (hl : s'.g.pool_loop_fn = s.g.pool_loop_fn)
    (hfd : ∀ u, IsFdtask s'.g u → IsFdtask s.g u ∧ (s'.g.task u).startfn = (s.g.task u).startfn ∧
      (s'.g.task u).pc = (s.g.task u).pc)
    (hst : s'.g.startedfdtask = s.g.startedfdtask) (hc : s'.g.sleepingcounted = s.g.sleepingcounted) : Unhooked s' where
  poller := hp
  loopfn := hl.trans h.loopfn
  fn u hu := by
    obtain ⟨h1, h2, -⟩ := hfd u hu
    exact h2.trans (h.fn u h1)
  loops _ u hu := by
    obtain ⟨h1, -, h3⟩ := hfd u hu
    rw [h3]
    exact h.loops hph u h1
  idle h0 := by
    rw [hc]
    exact h.idle (hst.symm.trans h0)

/-- The running `fdtask` stays in its loop. -/
theorem Unhooked.loops_step (h : Unhooked s) (hi : Inv s) (hph : s.g.phase ≠ .exited) (hen : Enabled s.g e)
    (hs : (code e).onPlaces s = .ok ((), s')) (hr : s.g.taskrunning = some t) (ht : IsFdtask s.g t)
    (hx : s'.g.phase ≠ .exited) : (s'.g.task t).pc.loops = true := by
  have hk := h.loops hph t ht
  have hpc : (s.g.task t).pc = .start ∧ (s.g.task t).startfn = .fdtask none ∨ ∃ n, (s.g.task t).pc = .fdtask none n := by
    cases hp : (s.g.task t).pc with
    | start => exact .inl ⟨rfl, h.fn t ht⟩
    | fdtask v n =>
      cases v with
      | none => exact .inr ⟨n, rfl⟩
      | some fn => rw [hp] at hk; cases hk
    | _ => rw [hp] at hk; cases hk
  have hne : (s.g.task t).pc ≠ .app := fun hp => by rw [hp] at hk; cases hk
  obtain ⟨now, poll, now', rfl⟩ := resumes h.poller.main hr hne hen
  have hy : Ends t (fun g => (g.task t).pc.loops = true) (taskyield (.fdtask none)) := by
    refine ends_taskyield fun g' _ hn => ?_
    obtain ⟨n, hn⟩ := hn
    rw [hn]
    rfl
  have hend := all_onPlaces (Q := fun _ g' => (g'.task t).pc.loops = true ∨ g'.phase = .exited) hs
    (ends_resume (at_running hi hr) hpc hy nofun now poll now')
  exact hend.resolve_right hx

theorem unhooked_step (h : Inv s) (hu : Unhooked s) (hen : Enabled s.g e) (hs : (code e).onPlaces s = .ok ((), s')) (h' : Inv s')
    (hn : NoCallback ⟨s.g, e, s'.g⟩) : Unhooked s' := by
  have hph : s.g.phase ≠ .exited := by
    rcases enabled_phase hen with hph | hph <;> rw [hph] <;> nofun
  -- no `fdtask` is in a callback
  have hstay : Stays ⟨s.g, e, s'.g⟩ := by
    intro t hr hcb _
    have hk := hu.loops hph t ⟨(h.here hr).1, hcb.1⟩
    have hpolls : (s.g.task t).pc.polls = false := hcb.2
    cases hp : (s.g.task t).pc <;> rw [hp] at hk hpolls <;> first | cases hk; done | cases hpolls
  have hp := poller_step h hu.poller hen hs h' hstay
  cases did h hen hs with
  | turn he hr ht =>
    cases ht with
    | finished h0 he =>
      subst he
      exact hu.same hp hph rfl (fun u hu' => ⟨hu', rfl, rfl⟩) rfl rfl
    | stalled h0 hq he =>
      subst he
      exact hu.same hp hph rfl (fun u hu' => ⟨hu', rfl, rfl⟩) rfl rfl
    | dispatched t ts h0 hq hd =>
      refine hu.same hp hph hd.loopfn (fun u hu' => ⟨?_, hd.startfn u, hd.pc u⟩) hd.started hd.counted
      unfold IsFdtask at hu' ⊢
      rw [hd.live, hd.startfn] at hu'
      exact hu'
  | exit t he hr hx hst =>
    refine hu.same hp hph hx.loopfn (fun u hu' => ?_) hst hx.counted
    have hut : u ≠ t := fun hut => by
      have hl := hu'.1
      rw [hx.live, hut, update_self] at hl
      cases hl
    refine ⟨⟨?_, by rw [← hx.startfn u hut]; exact hu'.2⟩, hx.startfn u hut, hx.pc u hut⟩
    have hl := hu'.1
    rw [hx.live, update_of_ne hut] at hl
    exact hl
  | shutdown t fn g he hr hfn hf hx hst hq =>
    have hnone := hu.fn t ⟨(h.here hr.2.1).1, by rw [hfn]; nofun⟩
    rw [hfn] at hnone
    cases hnone
  | call t hc ht hf _ _ _ _ =>
    have hloop : (e.before s.g).pool_loop_fn = none := by
      cases e with
      | startfdtask fn arg a => exact hn fn arg a rfl
      | _ => exact hu.loopfn
    obtain ⟨arg, v, hb⟩ := before_eq e s.g
    rw [hb] at hf hloop
    have hloop' : s'.g.pool_loop_fn = none := hf.loopfn.trans hloop
    refine ⟨hp, hloop', fun u hu' => ?_, fun hx u hu' => ?_, fun h0 => ?_⟩
    · by_cases hl : s.g.live u = true
      · have hfn : (s'.g.task u).startfn = (s.g.task u).startfn := hf.startfn u hl
        rw [hfn]
        exact hu.fn u ⟨hl, by rw [← hfn]; exact hu'.2⟩
      · rcases (hf.fresh u (by simpa using hl) hu'.1).fn with hfn | ⟨-, -, -, hfn, -⟩
        · exact absurd hfn hu'.2
        · rw [hfn, hloop']
    · by_cases hl : s.g.live u = true
      · have hfn : (s'.g.task u).startfn = (s.g.task u).startfn := hf.startfn u hl
        have hfd : IsFdtask s.g u := ⟨hl, by rw [← hfn]; exact hu'.2⟩
        by_cases hut : u = t
        · subst hut
          exact hu.loops_step h hph hen hs (ht.resolve_right fun hd => nomatch hl.symm.trans hd.2) hfd hx
        · have hpc : (s'.g.task u).pc = (s.g.task u).pc := hf.pc u hl hut
          rw [hpc]
          exact hu.loops hph u hfd
      · rw [(hf.fresh u (by simpa using hl) hu'.1).pc]
        rfl
    · have hc : s'.g.sleepingcounted ≤ s.g.sleepingcounted := hf.counted.resolve_right fun hst => nomatch h0.symm.trans hst
      have h0' : s.g.startedfdtask = false := by
        by_contra hne
        have hst : s'.g.startedfdtask = true := hf.started (by simpa using hne)
        exact nomatch h0.symm.trans hst
      exact Int.le_trans hc (hu.idle h0')

/-- Without a callback the `fdtask` that a call started is never shut down. -/
theorem flag_step (h : Inv s) (hu : Unhooked s) (hen : Enabled s.g e) (hs : (code e).onPlaces s = .ok ((), s')) :
    s'.g.startedfdtask = (s.g.startedfdtask || e.starts) := by
  cases did h hen hs with
  | turn he hr ht =>
    subst he
    rw [show Ev.starts .taskscheduler = false from rfl, Bool.or_false]
    cases ht with
    | finished h0 he => rw [he]; rfl
    | stalled h0 hq he => rw [he]; rfl
    | dispatched t ts h0 hq hd => exact hd.started
  | exit t he hr hx hst =>
    subst he
    rw [hst]
    exact (Bool.or_false _).symm
  | shutdown t fn g he hr hfn hf hx hst hq =>
    have hnone := hu.fn t ⟨(h.here hr.2.1).1, by rw [hfn]; nofun⟩
    rw [hfn] at hnone
    cases hnone
  | call t hc ht hf hm hflag _ _ => exact hflag

end

theorem unhooked_start {s : State Glob Heap} (h : Starts s) : Unhooked ⟨s.g, Places.empty⟩ := by
  have hp := poller_start h
  obtain ⟨rendezl, size, junk, mem, -, rfl⟩ := h
  exact ⟨hp, rfl, fun t ht => (nomatch ht.1), fun _ t ht => (nomatch ht.1), fun _ => Int.le_refl _⟩

theorem unhooked {s₀ s : State Glob Heap} {tr : List Step} (h₀ : Starts s₀) (h : Run s₀ tr s) (hn : ∀ x ∈ tr, NoCallback x) :
    ∃ p, Linked s p ∧ Unhooked ⟨s.g, p⟩ ∧ s.g.startedfdtask = tr.any fun x => x.e.starts := by
  refine Run.holds (P := fun tr s => Unhooked s ∧ s.g.startedfdtask = tr.any fun x => x.e.starts) (C := NoCallback)
    (linked_start h₀) ⟨unhooked_start h₀, ?_⟩ ?_ h hn
  · obtain ⟨rendezl, size, junk, mem, -, rfl⟩ := h₀
    rfl
  · intro tr s s' e hi hP hen hs hi' hc
    refine ⟨unhooked_step hi hP.1 hen hs hi' hc, ?_⟩
    rw [flag_step hi hP.1 hen hs, hP.2, List.any_cons, Bool.or_comm]

/-- When the application's tasks have exited and nobody sleeps, the scheduler ends by `taskcount`
    exactly if nothing started the `fdtask`. -/
theorem ends_iff {s₀ s : State Glob Heap} {tr : List Step} (h₀ : Starts s₀) (h : Run s₀ tr s) (hn : ∀ x ∈ tr, NoCallback x)
    (hexit : ∀ t, s.g.live t = true → (s.g.task t).startfn ≠ .app) (hs : (s.m.list .sleeping).head = none) :
    s.g.taskcount = 0 ↔ ∀ x ∈ tr, x.e.starts = false := by
  obtain ⟨p, hl, hu, hst⟩ := unhooked h₀ h hn
  have hslots : Slots s.g := hl.inv.base.slots
  have hc : s.g.taskcount = s.g.nalltask + (if s.g.sleepingcounted = 0 then 0 else 1) := hl.inv.base.count
  have hsl : s.g.sleepingcounted = (p.q .sleeping).length + s.g.log.countP Obs.isEvent := hl.inv.base.sleepers
  have hnil : p.q .sleeping = [] := List.head?_eq_none_iff.mp ((hl.rep .sleeping).head.symm.trans hs)
  have hall : (∀ x ∈ tr, x.e.starts = false) ↔ s.g.startedfdtask = false := by
    rw [hst, List.any_eq_false]
    simp only [Bool.not_eq_true]
  rw [hall]
  constructor
  · intro h0
    by_contra hne
    obtain ⟨t, ht⟩ := hu.poller.started.mp (by simpa using hne)
    obtain ⟨i, hi, -⟩ := (hslots.live t).mp ht.1
    split at hc <;> omega
  · intro h0
    have hidle : s.g.sleepingcounted ≤ 0 := hu.idle h0
    have hn0 : s.g.nalltask = 0 := by
      by_contra hne
      have hlive : s.g.live (s.g.alltask 0) = true := (hslots.live _).mpr ⟨0, by omega, rfl⟩
      have hstarted := hu.poller.started.mpr ⟨_, hlive, hexit _ hlive⟩
      exact nomatch h0.symm.trans hstarted
    rw [hnil] at hsl
    rw [hc, hn0, if_pos]
    · rfl
    · simp at hsl
      omega

/-- Task 1 sleeps, wakes and exits. -/
def slept : List Ev :=
  [.taskcreate 1, .taskscheduler, .resume 0 .eintr 0, .taskdelay 0 0 2, .taskscheduler, .resume 0 .eintr 0, .taskscheduler,
    .resume 0 (.events []) 0, .taskscheduler, .resume 0 .eintr 0, .taskexit]

/-- The `fdtask` alone is left, and the scheduler goes on with it. -/
theorem fdtask_stays_behind : ∃ s tr, Run boot tr s ∧ (∀ x ∈ tr, NoCallback x) ∧ Enabled s.g .taskscheduler ∧
    (∀ t, s.g.live t = true → (s.g.task t).startfn ≠ .app) ∧ (s.m.list .sleeping).head = none ∧ s.g.taskcount = 1 := by
  have h := run_boot slept (by decide +kernel)
  refine ⟨_, _, h, fun x hx fn arg a he => ?_, ⟨by decide +kernel, by decide +kernel⟩, fun t ht => ?_, by decide +kernel,
    by decide +kernel⟩
  · have hmem := (mem_steps slept hx).resolve_right List.not_mem_nil
    rw [he] at hmem
    simp [slept] at hmem
  · obtain ⟨p, hl⟩ := linked_reach (h.reach reach_boot)
    have hslots : Slots (slept.foldl State.next boot).g := hl.inv.base.slots
    have htasks : (slept.foldl State.next boot).g.tasks = [2] := by decide +kernel
    have hmem := (mem_tasks hslots).mpr ht
    rw [htasks] at hmem
    obtain rfl := List.mem_singleton.mp hmem
    decide +kernel

/-- Task 1 exited without a call that starts the `fdtask`. -/
theorem ends_iff_exited : ∃ s tr, Run boot tr s ∧ s.g.taskcount = 0 := by
  have h := run_boot exited (by decide +kernel)
  have hev : ∀ x ∈ boot.steps exited [], x.e ∈ exited := fun x hx => (mem_steps exited hx).resolve_right List.not_mem_nil
  refine ⟨_, _, h, (ends_iff starts_boot h (fun x hx fn arg a he => ?_) (fun t ht => ?_) (by decide +kernel)).mpr fun x hx => ?_⟩
  · have hmem := hev x hx
    rw [he] at hmem
    simp [exited] at hmem
  · obtain ⟨p, hl⟩ := linked_reach (h.reach reach_boot)
    have hslots : Slots (exited.foldl State.next boot).g := hl.inv.base.slots
    have htasks : (exited.foldl State.next boot).g.tasks = [] := by decide +kernel
    have hmem := (mem_tasks hslots).mpr ht
    rw [htasks] at hmem
    cases hmem
  · have hmem := hev x hx
    simp only [exited, List.mem_cons, List.not_mem_nil, or_false] at hmem
    rcases hmem with he | he | he | he <;> rw [he] <;> rfl

end Libtask.Sched
