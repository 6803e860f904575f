/-
  Libtask.Sched.Placement — where every task is, and what counts the sleeping ones.

  For every run of the program on the links:
  - `one_place`: the lists are doubly linked and disjoint, a ready task is on the run queue, a
    task in a blocking call is on the list of the call or on none (`chanalt`), a running or
    freed task is on none, and no step fails.
  - `yielded_ready`: a task that gave up the processor in `taskyield` is ready.
  - `sleepingcounted_iff`: `sleepingcounted` and the unit of `taskcount` for the sleeping tasks
    are right as long as the `fdtask` woke no task for an event.
  - `event_strands`: a task is woken for an event, all tasks exit, and `taskscheduler` finds no
    runnable tasks, as `taskcount` is 1.
-/

import Libtask.Sched.Steps

namespace Libtask.Sched

open Libtask.Lib.Dll

/-- `t` is in a blocking call, and nothing readied it yet. -/
def Blocked (g : Glob) (t : TaskPtr) : Prop :=
  g.live t = true ∧ g.taskrunning ≠ some t ∧ (g.task t).state ≠ .READY

instance (g : Glob) (t : TaskPtr) : Decidable (Blocked g t) := inferInstanceAs (Decidable (_ ∧ _ ∧ _))

theorem one_place {s : State Glob Heap} (h : Reach s) : ∃ q : ListRef → List TaskPtr,
    (∀ l, IsDll s.m.next s.m.prev (s.m.list l).head (s.m.list l).tail (q l)) ∧
    (∀ l l' t, t ∈ q l → t ∈ q l' → l = l') ∧
    (∀ t, t ∈ q .taskrunqueue ↔ s.g.live t = true ∧ (s.g.task t).state = .READY) ∧
    (∀ t, Blocked s.g t → ∀ l, t ∈ q l ↔ home (s.g.task t).pc = some l) ∧
    (∀ t, s.g.live t = true → s.g.taskrunning ≠ some t → home (s.g.task t).pc ≠ none → ∃ l, ∀ l', t ∈ q l' ↔ l' = l) ∧
    (∀ t, s.g.live t = false ∨ s.g.taskrunning = some t → ∀ l, t ∉ q l) ∧
    ∀ e, Enabled s.g e → ∃ s', (code e).onHeap s = .ok ((), s') := by
  obtain ⟨p, hp, hrep⟩ := linked h
  have hi := inv hp
  have hloc : ∀ {t l}, t ∈ p.q l ↔ p.loc t = some l := fun {t l} => p.mem_iff l t
  refine ⟨p.q, hrep, ?_, ?_, ?_, ?_, ?_,
    fun e => step_ok h⟩
  · intro l l' t h1 h2
    exact Option.some.inj ((hloc.mp h1).symm.trans (hloc.mp h2))
  · intro t
    rw [hloc]
    constructor
    · intro hq
      obtain ⟨h1, -, h3, -⟩ := (hi.good t).queued hq
      exact ⟨h1, h3⟩
    · intro h'
      obtain ⟨hl, hst⟩ := h'
      cases (hi.good t).status with
      | dead h1 _ _ _ => exact nomatch hl.symm.trans h1
      | running _ _ h3 _ => exact nomatch hst.symm.trans h3
      | ready _ _ _ h4 _ => exact h4
      | resting _ _ h3 _ _ => exact nomatch hst.symm.trans h3
  · intro t hb l
    obtain ⟨hl, hr, hst⟩ := hb
    rw [hloc]
    cases (hi.good t).status with
    | dead h1 _ _ _ => exact nomatch hl.symm.trans h1
    | running _ h2 _ _ => exact absurd (of_decide_eq_true h2) hr
    | ready _ _ h3 _ _ => exact absurd h3 hst
    | resting _ _ _ h4 _ => exact iff_of_eq (congrArg (· = some l) h4)
  · intro t hl hr hh
    obtain ⟨l, hl'⟩ : ∃ l, p.loc t = some l := by
      cases (hi.good t).status with
      | dead h1 _ _ _ => exact nomatch hl.symm.trans h1
      | running _ h2 _ _ => exact absurd (of_decide_eq_true h2) hr
      | ready _ _ _ h4 _ => exact ⟨_, h4⟩
      | resting _ _ _ h4 _ =>
        obtain ⟨l, hk⟩ := Option.ne_none_iff_exists'.mp hh
        exact ⟨l, h4.trans hk⟩
    refine ⟨l, ?_⟩
    intro l'
    rw [hloc, hl']
    exact ⟨fun he => (Option.some.inj he).symm, fun he => by rw [he]⟩
  · intro t ht l hm
    have hq := hloc.mp hm
    rcases ht with hl | hr
    · exact nomatch hq.symm.trans ((hi.good t).dead hl).2.1
    · exact nomatch hq.symm.trans (hi.here hr).2.2

/-- A task that left the processor in `taskyield`, also if it is the `fdtask`, is ready. -/
theorem yielded_ready {s : State Glob Heap} (h : Reach s) {t : TaskPtr} (hl : s.g.live t = true) (hr : s.g.taskrunning ≠ some t)
    (hk : (s.g.task t).pc.rests = false) : (s.g.task t).state = .READY := by
  obtain ⟨p, hp, -⟩ := linked h
  cases ((inv hp).good t).status with
  | dead h1 _ _ _ => exact nomatch hl.symm.trans h1
  | running _ h2 _ _ => exact absurd (of_decide_eq_true h2) hr
  | ready _ _ h3 _ _ => exact h3
  | resting _ _ _ _ h5 => exact nomatch hk.symm.trans h5

/-- Task 1 has the lock and yielded, task 2 waits for it. -/
def waiting : State Glob Heap :=
  [Ev.qlock 0, .taskyield, .taskscheduler, .resume 0 .eintr 0, .qlock 0].foldl State.next two

theorem reach_waiting : Reach waiting := by
  have h1 := reach_next reach_two (e := .qlock 0) ⟨1, by decide +kernel⟩
  have h2 := reach_next h1 (e := .taskyield) ⟨1, by decide +kernel⟩
  have h3 := reach_next h2 (e := .taskscheduler) ⟨by decide +kernel, by decide +kernel⟩
  have h4 := reach_next h3 (e := .resume 0 .eintr 0) ⟨by decide +kernel, ⟨2, by decide +kernel⟩, nofun⟩
  exact reach_next h4 (e := .qlock 0) ⟨2, by decide +kernel⟩

theorem one_place_waiting : ∃ s, Reach s ∧ ∃ q : ListRef → List TaskPtr,
    (∀ l, IsDll s.m.next s.m.prev (s.m.list l).head (s.m.list l).tail (q l)) ∧
    1 ∈ q .taskrunqueue ∧ 2 ∈ q (.qwaiting 0) ∧ 2 ∉ q .taskrunqueue ∧ ∀ l, 3 ∉ q l := by
  have hb : Blocked waiting.g 2 := by decide +kernel
  have hk : home (waiting.g.task 2).pc = some (.qwaiting 0) := by decide +kernel
  obtain ⟨q, h1, -, h3, h4, -, h6, -⟩ := one_place reach_waiting
  refine ⟨waiting, reach_waiting, q, h1, (h3 1).mpr (by decide +kernel), (h4 2 hb _).mpr hk, fun hm => ?_,
    h6 3 (by decide +kernel)⟩
  exact hb.2.2 ((h3 2).mp hm).2

/-! ## The sleeping counter -/

theorem countP_events {log : List Obs} : log.countP Obs.isEvent = 0 ↔ ∀ t, .event t ∉ log := by
  rw [List.countP_eq_zero]
  refine ⟨fun h t hm => h _ hm rfl, ?_⟩
  intro h o hm he
  cases o with
  | event t => exact h t hm
  | _ => cases he

/-- With nobody left, the scheduler ends by `taskcount` unless an event left it at 1. -/
theorem taskscheduler_ends {s : St} (h : Inv s) (hn : s.g.nalltask = 0) :
    Ok (code .taskscheduler) s fun _ s' => (s'.g.phase = .finished ↔ s.g.log.countP Obs.isEvent = 0) := by
  have hempty : ∀ l, s.m.q l = [] := fun l => List.eq_nil_of_length_eq_zero (by have := h.length_le l; omega)
  have hs := h.base.sleepers
  have hc := h.base.count
  rw [hempty .sleeping] at hs
  simp only [code, taskscheduler, ok_bind, ok_modify, ok_globals]
  split
  · rename_i h0
    have h0 : s.g.taskcount = 0 := h0
    refine ok_modify.mpr ⟨?_, fun _ => rfl⟩
    intro _
    split at hc <;> simp at hs <;> omega
  · rename_i h0
    have h0 : s.g.taskcount ≠ 0 := h0
    have hq : ((s.modify fun g => { g with phase := .loop }).m.q .taskrunqueue).head? = none := by
      show (s.m.q .taskrunqueue).head? = none
      rw [hempty]
      rfl
    simp only [ok_bind, ok_head, hq]
    refine ok_modify.mpr ⟨fun hf => (by cases hf), fun he => absurd ?_ h0⟩
    rw [he] at hs
    simp at hs
    rw [hc, hs, hn]
    rfl

/-- The counter is exact as long as no task was woken for an event. So is the unit that
    sleeping tasks add to `taskcount`, and then `taskscheduler` ends by `taskcount` when all
    tasks exited. -/
theorem sleepingcounted_iff {s : State Glob Heap} (h : Reach s) : ∃ xs,
    IsDll s.m.next s.m.prev (s.m.list .sleeping).head (s.m.list .sleeping).tail xs ∧
    (s.g.sleepingcounted = xs.length ↔ ∀ t, .event t ∉ s.g.log) ∧
    (s.g.taskcount = s.g.nalltask + (if xs = [] then 0 else 1) ↔ xs ≠ [] ∨ ∀ t, .event t ∉ s.g.log) ∧
    (s.g.nalltask = 0 → Enabled s.g .taskscheduler → ∃ s', (code .taskscheduler).onHeap s = .ok ((), s') ∧
      (s'.g.phase = .finished ↔ ∀ t, .event t ∉ s.g.log)) := by
  obtain ⟨p, hp, hrep⟩ := linked h
  have hi := inv hp
  have hs : s.g.sleepingcounted = (p.q .sleeping).length + s.g.log.countP Obs.isEvent := hi.base.sleepers
  have hc : s.g.taskcount = s.g.nalltask + (if s.g.sleepingcounted = 0 then 0 else 1) := hi.base.count
  rw [← countP_events]
  refine ⟨p.q .sleeping, hrep .sleeping, by omega, ?_, fun hn _ => ?_⟩
  · cases hq : p.q .sleeping with
    | nil =>
      rw [hq] at hs
      simp only [if_true, ne_eq, not_true, false_or]
      simp at hs
      split at hc <;> omega
    | cons t ts =>
      rw [hq] at hs
      simp at hs
      simp only [reduceCtorEq, if_false, ne_eq, not_false_eq_true, true_or, iff_true]
      split at hc <;> omega
  · obtain ⟨s', p', hs', -, hq⟩ := ok_onHeap (taskscheduler_ends hi hn) hrep
    exact ⟨s', hs', hq⟩

/-- Task 1 sleeps. -/
theorem reach_sleeping : ∃ s, Reach s ∧ s.g.sleepingcounted = 1 ∧ s.g.log.countP Obs.isEvent = 0 := by
  have h1 := Reach.step (.taskcreate 1) reach_boot ⟨Or.inl rfl, rfl⟩ rfl
  have h2 := Reach.step .taskscheduler h1 ⟨Or.inl rfl, rfl⟩ rfl
  have h3 := Reach.step (.resume 0 .eintr 0) h2 ⟨rfl, ⟨1, rfl, nofun⟩, nofun⟩ rfl
  have h4 := Reach.step (.taskdelay 10 0 2) h3 ⟨⟨1, rfl, rfl, rfl⟩, rfl⟩ rfl
  exact ⟨_, h4, rfl, rfl⟩

theorem sleepingcounted_iff_sleeping : ∃ s, Reach s ∧ ∃ xs,
    IsDll s.m.next s.m.prev (s.m.list .sleeping).head (s.m.list .sleeping).tail xs ∧ xs.length = 1 := by
  obtain ⟨s, h, h1, h0⟩ := reach_sleeping
  obtain ⟨xs, hx, hiff, -⟩ := sleepingcounted_iff h
  have hlen := hiff.mpr (countP_events.mp h0)
  exact ⟨s, h, xs, hx, by omega⟩

/-- Task 1 waits in `fdwait`, its event arrives, the callback ends the `fdtask`, and task 1
    exits. Nobody sleeps and nobody is left, but the counter is 1, and `taskscheduler` stalls. -/
theorem event_strands : ∃ s, Reach s ∧
    IsDll s.m.next s.m.prev (s.m.list .sleeping).head (s.m.list .sleeping).tail [] ∧ s.g.sleepingcounted = 1 ∧
    s.g.nalltask = 0 ∧ s.g.taskcount = 1 ∧ s.g.phase = .stalled := by
  have h1 := reach_next reach_boot (e := .taskcreate 1) ⟨Or.inl rfl, rfl⟩
  have h2 := reach_next h1 (e := .startfdtask (some 0) 0 2) ⟨Or.inl rfl, rfl⟩
  have h3 := reach_next h2 (e := .taskscheduler) ⟨by decide +kernel, by decide +kernel⟩
  have h4 := reach_next h3 (e := .resume 0 .eintr 0) ⟨by decide +kernel, ⟨1, by decide +kernel⟩, nofun⟩
  have h5 := reach_next h4 (e := .fdwait 0 3) ⟨⟨1, by decide +kernel⟩, by decide +kernel⟩
  have h6 := reach_next h5 (e := .taskscheduler) ⟨by decide +kernel, by decide +kernel⟩
  have h7 := reach_next h6 (e := .resume 0 .eintr 0) ⟨by decide +kernel, ⟨2, by decide +kernel⟩, nofun⟩
  have h8 := reach_next h7 (e := .taskscheduler) ⟨by decide +kernel, by decide +kernel⟩
  have h9 := reach_next h8 (e := .resume 0 (.events [1]) 0) ⟨by decide +kernel, ⟨2, by decide +kernel⟩, fun ts he => by
    obtain rfl := Poll.events.inj he
    refine ⟨List.nodup_singleton 1, ?_⟩
    intro t ht
    obtain rfl := List.mem_singleton.mp ht
    exact ⟨by decide +kernel, ⟨0, by decide +kernel⟩, by decide +kernel, by decide +kernel⟩⟩
  have h10 := reach_next h9 (e := .callback (-1)) ⟨2, by decide +kernel, 0, by decide +kernel⟩
  have h11 := reach_next h10 (e := .taskscheduler) ⟨by decide +kernel, by decide +kernel⟩
  have h12 := reach_next h11 (e := .resume 0 .eintr 0) ⟨by decide +kernel, ⟨1, by decide +kernel⟩, nofun⟩
  have h13 := reach_next h12 (e := .taskexit) ⟨1, by decide +kernel⟩
  have h14 := reach_next h13 (e := .taskscheduler) ⟨by decide +kernel, by decide +kernel⟩
  exact ⟨_, h14, ⟨by decide +kernel, by decide +kernel, (isDll_nil _ _).links, List.nodup_nil⟩, by decide +kernel,
    by decide +kernel, by decide +kernel, by decide +kernel⟩

end Libtask.Sched
