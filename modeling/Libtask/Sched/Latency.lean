/-
  Libtask.Sched.Latency — how late a sleeping task can wake up.

  `wakes_in_time`: a turn of the `fdtask` never asks `epoll_wait` to wait beyond the end of anybody's
  sleep, and waits as long as it may within that, up to 20 ms (`Patience`). If the clock is at the end
  of a sleep when it returns, the sleeper is readied in this turn.

  `none_overtakes`: no task that sleeps in `taskdelay` runs before one whose alarm is earlier. Both
  stay in order (`Ahead`) on the sleeping list, from it to the run queue, and there: `ahead_step`.
-/

import Libtask.Sched.Delays
import Libtask.Sched.RoundRobin

namespace Libtask.Sched

open Function (update update_self update_of_ne)
open Libtask.Lib.Deadlines

/-! ## The timeout -/

/-- `k` ms from `now` are 20 at most, and do not go beyond an alarm that is still to come; one more
    would do one or the other. -/
structure Patience (now : Nat) (alarms : List Nat) (k : Nat) : Prop where
  within : ∀ a ∈ alarms, now + k * 1000000 ≤ max now a
  most : k ≤ 20 ∧ (k = 20 ∨ ∃ a ∈ alarms, a < now + (k + 1) * 1000000)

theorem pollms_twenty (now a : Nat) : pollms now a ≤ 20 := by
  unfold pollms
  split
  · omega
  · split <;> omega

theorem pollms_within {now a b : Nat} (h : a ≤ b) : now + pollms now a * 1000000 ≤ max now b := by
  unfold pollms
  split
  · omega
  · split <;> omega

theorem pollms_most (now a : Nat) : pollms now a = 20 ∨ a < now + (pollms now a + 1) * 1000000 := by
  unfold pollms
  split
  · omega
  · split <;> omega

/-- The first alarm is the one to look at. -/
theorem pollms_patience {key : TaskPtr → Nat} {q : List TaskPtr} {u : TaskPtr} (ho : InOrder key q) (hu : q.head? = some u)
    (now : Nat) : Patience now (q.map key) (pollms now (key u)) := by
  cases q with
  | nil => cases hu
  | cons v q =>
    obtain rfl : v = u := Option.some.inj hu
    refine ⟨fun a ha => ?_, pollms_twenty now _, (pollms_most now _).imp_right fun h => ⟨key v, List.mem_cons_self, h⟩⟩
    rcases List.mem_cons.mp ha with rfl | ha
    · exact pollms_within (Nat.le_refl _)
    · obtain ⟨w, hw, rfl⟩ := List.mem_map.mp ha
      exact pollms_within ((List.pairwise_cons.mp ho).1 w hw)

/-! ## A turn of the `fdtask` -/

section
variable {s s' : St} {t u : TaskPtr} {e : Ev}

/-- `epoll_wait` is asked for `k` ms, at `now`, while `q` sleep. Where nobody does it is to return at
    once, and the clock is not read. -/
def Asks (g : Glob) (q : List TaskPtr) (now k : Nat) (log : List Obs) : Prop :=
  match q with
  | [] => k = 0 ∧ log = .epoll_wait 0 :: g.log
  | q => Patience now (q.map g.alarm) k ∧ log = .epoll_wait k :: .nsec now :: g.log

/-- The `fdtask` has left its loop of `taskyield`s. -/
def Polling (g : Glob) (v : Option Nat) : Prop := ∃ u n, g.taskrunning = some u ∧ (g.task u).pc = .fdtask v n ∧ ¬ 0 < yielded g n

theorem fdpolled_log (h : Inv s) (hr : s.g.taskrunning = some u) (v : Option Nat) (poll : Poll) (now' : Nat) {a : Unit}
    (hs : (fdpolled v poll now').onPlaces s = .ok (a, s')) : ∃ new, s'.g.log = new ++ s.g.log := by
  have hkeeps : Keeps u (fun _ => True) (fdpolled v poll now') := keeps_fdpolled v poll now' trivial fun _ => trivial
  obtain ⟨hcalm, -⟩ := all_onPlaces (Q := fun _ g' => Calm u s.g g' ∧ Own u (fun _ => True) s.g g') hs (hkeeps s.g (at_running h hr))
  obtain ⟨new, hnew, -⟩ := hcalm.log
  exact ⟨new, hnew⟩

/-- Who is on the run queue stays there, and who is due gets on it. -/
theorem fdpolled_queue (h : Inv s) (ho : Ordered s) (hr : s.g.taskrunning = some u) {poll : Poll}
    (hpoll : ∀ ts, poll = .events ts → ts.Nodup ∧ ∀ x ∈ ts, Registered s.g x) (v : Option Nat) (now' : Nat) :
    Ok (fdpolled v poll now') s fun _ s' => (∃ new, s'.g.log = new ++ s.g.log) ∧
      ∀ ts, poll = .events ts → ∀ t, t ∈ s.m.q .taskrunqueue ∨ t ∈ s.m.q .sleeping ∧ s.g.alarm t ≤ now' →
        t ∈ s'.m.q .taskrunqueue := by
  cases poll with
  | eintr =>
    obtain ⟨x, s', hs', -⟩ := yield_lists h hr (.fdtask v)
    exact ⟨x, s', hs', fdpolled_log h hr v .eintr now' hs', fun ts hts => nomatch hts⟩
  | failed => exact ok_modify.mpr ⟨⟨[], rfl⟩, fun ts hts => nomatch hts⟩
  | events ts =>
    obtain ⟨hnd, hreg⟩ := hpoll ts rfl
    obtain ⟨x, s', hs', -, hq⟩ := turn_lists h ho hr hnd hreg v now'
    refine ⟨x, s', hs', fdpolled_log h hr v (.events ts) now' hs', fun _ _ t ht => ?_⟩
    rw [hq]
    refine List.mem_append_left _ ?_
    rcases ht with ht | ⟨ht, hle⟩
    · exact List.mem_append_left _ (List.mem_append_left _ ht)
    · by_cases hts : t ∈ ts
      · exact List.mem_append_left _ (List.mem_append_right _ hts)
      · refine List.mem_append_right _ (List.mem_filter.mpr ⟨List.mem_filter.mpr ⟨ht, ?_⟩, ?_⟩)
        · exact decide_eq_true hts
        · exact decide_eq_true hle

theorem turn_wakes (h : Inv s) (ho : Ordered s) {now : Nat} {poll : Poll} {now' : Nat}
    (hen : Enabled s.g (.resume now poll now')) {v : Option Nat} (hp : Polling s.g v) : Ok (code (.resume now poll now')) s fun _ s' =>
      (∃ new k log, s'.g.log = new ++ log ∧ Asks s.g (s.m.q .sleeping) now k log) ∧
      ∀ ts, poll = .events ts → ∀ t, t ∈ s.m.q .taskrunqueue ∨ t ∈ s.m.q .sleeping ∧ s.g.alarm t ≤ now' →
        t ∈ s'.m.q .taskrunqueue := by
  obtain ⟨u, n, hr, hpc, hy⟩ := hp
  simp only [code, resume, ok_bind, ok_running hr, ok_globals, hpc, if_neg hy, fdpoll, ok_head, Asks]
  cases hq : s.m.q .sleeping with
  | nil =>
    simp only [List.head?_nil, ok_bind, ok_observe]
    refine (fdpolled_queue (s := s.obs _) (inv_note h rfl) ho hr hen.2.2 v now').mono fun _ s' hs' => ?_
    obtain ⟨⟨new, hnew⟩, hready⟩ := hs'
    refine ⟨⟨new, 0, _, hnew, rfl, rfl⟩, fun ts hts t ht => hready ts hts t (ht.imp_right fun ht => ?_)⟩
    exact absurd ht.1 List.not_mem_nil
  | cons w q =>
    simp only [List.head?_cons, ok_bind, ok_observe, ok_globals]
    refine (fdpolled_queue (s := (s.obs _).obs _) (inv_note (inv_note h rfl) rfl) ho hr hen.2.2 v now').mono fun _ s' hs' => ?_
    obtain ⟨⟨new, hnew⟩, hready⟩ := hs'
    have hpatience := pollms_patience ho (by rw [hq]; rfl : (s.m.q .sleeping).head? = some w) now
    rw [hq] at hpatience
    exact ⟨⟨new, _, _, hnew, hpatience, rfl⟩, hq ▸ hready⟩

/-! ## One sleeper -/

/-- `t` sleeps till `when`, or was readied since. -/
structure Due (t : TaskPtr) (when : Nat) (s : St) : Prop where
  live : s.g.live t = true
  home : home (s.g.task t).pc = some .sleeping
  alarm : s.g.alarm t = when

theorem due_step {when : Nat} (h : Inv s) (hd : Due t when s) (hr : s.g.taskrunning ≠ some t) (hen : Enabled s.g e)
    (hs : (code e).onPlaces s = .ok ((), s')) : Due t when s' := by
  obtain ⟨hl, hpc⟩ := (did h hen hs).same hr hd.live
  exact ⟨hl, hpc ▸ hd.home, (alarm_step h hr hd.live hen hs).trans hd.alarm⟩

theorem due_call {ms now : Nat} (h : Inv s) (ho : Ordered s) (ht : Runs s.g t) (he : e.delays ms now) (hen : Enabled s.g e)
    (hs : (code e).onPlaces s = .ok ((), s')) (h' : Inv s') : Due t (u64 (now + ms * 1000000)) s' := by
  obtain ⟨k, s₁, hb, rfl, -⟩ := delays_eq h ht he hen hs
  have hloc : s₁.m.loc t = none := (hb.inv.here (hb.running.trans ht.2.1)).2.2
  have ho₁ : Ordered (s₁.obs (.nsec now)) := hb.ordered h ho
  have hmem : t ∈ ((s₁.obs (.nsec now)).delay t (u64 (now + ms * 1000000))).m.q .sleeping := by
    rw [delay_sleeping (s := s₁.obs (.nsec now)) ho₁ hloc]
    exact List.mem_append_right _ List.mem_cons_self
  obtain ⟨hl, -, -, hhome⟩ := (asleep_iff h').mp (show t ∈ (State.leave _ t k).m.q .sleeping from hmem)
  exact ⟨hl, hhome, by rw [leave_alarm, delay_alarm, update_self]⟩

/-- Who is not on the sleeping list is on the run queue, or runs. -/
theorem Due.place {when : Nat} (hd : Due t when s) (h : Inv s) (hr : s.g.taskrunning ≠ some t) :
    t ∈ s.m.q .taskrunqueue ∨ t ∈ s.m.q .sleeping := by
  rw [s.m.mem_iff, s.m.mem_iff]
  cases (h.good t).status with
  | dead hdead _ _ _ => exact nomatch hd.live.symm.trans hdead
  | running _ hrun _ _ => exact absurd (of_decide_eq_true hrun) hr
  | ready _ _ _ hq _ => exact .inl hq
  | resting _ _ _ hq _ => exact .inr (hq.trans hd.home)

theorem queued_ready (h : Inv s) (ht : t ∈ s.m.q .taskrunqueue) : (s.g.task t).state = .READY :=
  ((h.good t).queued ((s.m.mem_iff .taskrunqueue t).mp ht)).2.2.1

end

/-! ## In time -/

section
variable {s₀ s₁ s s' : State Glob Heap} {tr : List Step} {t : TaskPtr} {e : Ev} {ms start now now' : Nat} {poll : Poll}
  {v : Option Nat}

/-- Behind the call of `taskdelay` or `fdwait` at `start`, and before the caller runs again: whenever
    the `fdtask` polls, it asks for no longer than till the end of the sleep, and if the clock is
    there when `epoll_wait` has returned, the caller is ready behind this turn. -/
theorem wakes_in_time (h : Reach s₀) (ht : Runs s₀.g t) (he : e.delays ms start) (hen : Enabled s₀.g e)
    (hs : (code e).onHeap s₀ = .ok ((), s₁)) (hrun : Run s₁ tr s) (hoff : ∀ x ∈ tr, x.g.taskrunning ≠ some t)
    (hp : Polling s.g v) (hen' : Enabled s.g (.resume now poll now'))
    (hs' : (code (.resume now poll now')).onHeap s = .ok ((), s')) : ∃ q k log new, Listed s .sleeping q ∧
      s'.g.log = new ++ log ∧ Asks s.g q now k log ∧
      ((s.g.task t).state = .READY ∨ t ∈ q ∧ now + k * 1000000 ≤ max now (u64 (start + ms * 1000000))) ∧
      ∀ ts, poll = .events ts → u64 (start + ms * 1000000) ≤ now' → (s'.g.task t).state = .READY := by
  obtain ⟨p₀, hl₀, ho₀⟩ := ordered_reach h
  obtain ⟨p₁, hr₁, hl₁⟩ := hl₀.step hen hs
  obtain ⟨p, hl, ho, hd⟩ := hrun.holds (P := fun _ s => Ordered s ∧ Due t (u64 (start + ms * 1000000)) s)
    (C := fun x => x.g.taskrunning ≠ some t) hl₁
    ⟨ordered_step hl₀.inv ho₀ hen hr₁, due_call hl₀.inv ho₀ ht he hen hr₁ hl₁.inv⟩
    (fun h hP hen hs _ hC => ⟨ordered_step h hP.1 hen hs, due_step h hP.2 hC hen hs⟩) hoff
  obtain ⟨p', hr', hl'⟩ := hl.step hen' hs'
  obtain ⟨⟨new, k, log, hlog, hasks⟩, hready⟩ := (turn_wakes hl.inv ho hen' hp).result hr'
  have hnot : s.g.taskrunning ≠ some t := by
    obtain ⟨u, n, hru, hpc, -⟩ := hp
    rintro hrt
    obtain rfl : u = t := Option.some.inj (hru.symm.trans hrt)
    have hhome := hd.home
    rw [show _ = Pc.fdtask v n from hpc] at hhome
    cases hhome
  have hplace := hd.place hl.inv hnot
  refine ⟨p.q .sleeping, k, log, new, hl.rep .sleeping, hlog, hasks, ?_, fun ts hts hle => ?_⟩
  · refine hplace.imp (queued_ready hl.inv) fun hmem => ⟨hmem, ?_⟩
    have hmem : t ∈ p.q .sleeping := hmem
    have hpatience : Patience now ((p.q .sleeping).map s.g.alarm) k := by
      cases hq : p.q .sleeping with
      | nil =>
        rw [hq] at hmem
        cases hmem
      | cons w q =>
        rw [show (State.m (⟨s.g, p⟩ : St)).q .sleeping = w :: q from hq] at hasks
        exact hasks.1
    have hwithin := hpatience.within _ (List.mem_map_of_mem hmem)
    rwa [show s.g.alarm t = _ from hd.alarm] at hwithin
  · refine queued_ready hl'.inv (hready ts hts t (hplace.imp_right fun hmem => ⟨hmem, ?_⟩))
    exact hd.alarm.le.trans hle

end

/-- Task 1 runs, and the `fdtask` 2 is on the run queue; task 1 has called `taskdelay` there, and the
    `fdtask` comes to poll. -/
def started : List Ev := [.taskcreate 1, .startfdtask none 0 2, .taskscheduler, .resume 0 .eintr 0]

def dozing : List Ev := [.taskscheduler, .resume 0 .eintr 0, .taskscheduler]

/-- The `fdtask` polls 3 ms behind the start of a delay of 10 ms, for 7 ms at most, and is late. -/
theorem wakes_in_time_ten : ∃ s s' q k log new, Reach s ∧
    (code (.resume 3000000 (.events []) 11000000)).onHeap s = .ok ((), s') ∧ s'.g.log = new ++ log ∧ Asks s.g q 3000000 k log ∧
    1 ∈ q ∧ k ≤ 7 ∧ (s'.g.task 1).state = .READY := by
  have h := (run_boot started (by decide +kernel)).reach reach_boot
  have hen : Enabled (started.foldl State.next boot).g (.taskdelay 10 0 3) := enabled_of_can (by decide +kernel)
  obtain ⟨p, hl⟩ := linked_reach h
  obtain ⟨p₁, -, hl₁⟩ := hl.step hen (step_next h hen)
  have hrun := Run.refl.plays hl₁ dozing (by decide +kernel)
  have hoff : ∀ x ∈ ((started.foldl State.next boot).next (.taskdelay 10 0 3)).steps dozing [], x.g.taskrunning ≠ some 1 := by
    rw [← List.forall_iff_forall_mem]
    decide +kernel
  have hreach := hrun.reach (.step _ h hen (step_next h hen))
  have hpolls : Polling (dozing.foldl State.next ((started.foldl State.next boot).next (.taskdelay 10 0 3))).g none :=
    ⟨2, 2, by decide +kernel, by decide +kernel, by decide +kernel⟩
  have hen' : Enabled (dozing.foldl State.next ((started.foldl State.next boot).next (.taskdelay 10 0 3))).g
      (.resume 3000000 (.events []) 11000000) := enabled_of_can (by decide +kernel)
  obtain ⟨q, k, log, new, -, hlog, hasks, hsleeps, hready⟩ := wakes_in_time h (by decide +kernel : Runs _ 1) (.inl ⟨3, rfl⟩) hen
    (step_next h hen) hrun hoff hpolls hen' (step_next hreach hen')
  obtain ⟨hmem, hk⟩ := hsleeps.resolve_left (by decide +kernel)
  rw [show max 3000000 (u64 (0 + 10 * 1000000)) = 10000000 by decide] at hk
  exact ⟨_, _, q, k, log, new, hreach, step_next hreach hen', hlog, hasks, hmem, by omega, hready [] rfl (by decide)⟩

/-! ## In order -/

/-- `t` is in front of `u`, from the sleeping list to the head of the run queue. -/
inductive Ahead (t u : TaskPtr) (s : St) : Prop
  | asleep : t ∈ s.m.q .sleeping → u ∈ s.m.q .sleeping → Ahead t u s
  | woken : t ∈ s.m.q .taskrunqueue → u ∈ s.m.q .sleeping → Ahead t u s
  | queued : [t, u].Sublist (s.m.q .taskrunqueue) → Ahead t u s

/-- `u` is in `taskdelay`, and its alarm is later than that of `t`, which is in front of it. -/
structure Chases (t u : TaskPtr) (s : St) : Prop where
  pc : ∃ n, (s.g.task u).pc = .taskdelay n
  alarm : s.g.alarm t < s.g.alarm u
  ahead : Ahead t u s

section
variable {s s' : St} {t u : TaskPtr} {e : Ev}

/-- The run queue grows at its end, or its first task runs. -/
theorem queue_step (h : Inv s) (hen : Enabled s.g e) (hs : (code e).onPlaces s = .ok ((), s')) (h' : Inv s') :
    (∃ more, s'.m.q .taskrunqueue = s.m.q .taskrunqueue ++ more) ∨
      ∃ w, s'.g.taskrunning = some w ∧ s.m.q .taskrunqueue = w :: s'.m.q .taskrunqueue := by
  have hgrows : ∀ {new : List Obs}, s'.g.log = new ++ s.g.log → (∀ w, .del .taskrunqueue w ∉ new) →
      ∃ more, s'.m.q .taskrunqueue = s.m.q .taskrunqueue ++ more := fun hlog hno =>
    ⟨_, queue_grows h.base.order (hlog ▸ h'.base.order) hno⟩
  cases did h hen hs with
  | turn _ _ hturn =>
    cases hturn with
    | finished _ he => exact .inl ⟨[], by rw [he, List.append_nil]; rfl⟩
    | stalled _ _ he => exact .inl ⟨[], by rw [he, List.append_nil]; rfl⟩
    | dispatched w ws _ hq hd => exact .inr ⟨w, hd.running, by rw [hd.queue, update_self, hq]⟩
  | exit w _ _ hx _ =>
    have hlog : s'.g.log = [] ++ s.g.log := hx.log
    exact .inl (hgrows hlog nofun)
  | shutdown w fn g _ _ _ hf hx _ _ =>
    obtain ⟨new, hnew, hno⟩ := hf.log
    exact .inl (hgrows (hx.log.trans hnew) hno)
  | call w _ _ hf _ _ _ _ =>
    obtain ⟨arg, v, hb⟩ := before_eq e s.g
    rw [hb] at hf
    obtain ⟨new, hnew, hno⟩ := hf.log
    exact .inl (hgrows hnew hno)

/-- At the shutdown the sleepers get ready in their order. -/
theorem shutdown_queue (h : Inv s) (hr : s.g.taskrunning = some t) {fn : Nat} (hfn : (s.g.task t).startfn = .fdtask (some fn)) :
    Ok (code (.callback (-1))) s fun _ s' => s'.m.q .taskrunqueue = s.m.q .taskrunqueue ++ s.m.q .sleeping := by
  have hloop := ok_loop (c := fun _ => head .sleeping) (b := fdwake EIO)
    (P := fun _ xs s' => Inv s' ∧ s'.g.taskrunning = some t ∧ xs = s'.m.q .sleeping ∧
      s'.m.q .taskrunqueue ++ xs = s.m.q .taskrunqueue ++ s.m.q .sleeping)
    (fun i xs s' hP => ok_head.mpr ⟨by rw [hP.2.2.1], rfl⟩) (fun i w xs s' hP => ?_)
    (s.m.q .sleeping) (i := 0) ⟨h, hr, rfl, rfl⟩ (h.length_le .sleeping)
  · simp only [code, ok_bind, ok_running hr, ok_globals, hfn, fdcallback, if_true]
    refine hloop.mono fun _ s₁ hs₁ => ?_
    obtain ⟨-, -, hr₁, -, hq⟩ := hs₁
    rw [List.append_nil] at hq
    have hr₂ : (s₁.modify fun g => { g with startedfdtask := false }).g.taskrunning = some t := hr₁
    exact ok_modify.mpr (ok_taskexit hr₂ hq)
  · obtain ⟨hi, hr₁, hx, hq⟩ := hP
    have hw : s'.m.loc w = some .sleeping := loc_of_head (by rw [← hx]; rfl)
    refine ok_fdwake hi hw ⟨inv_fdwake hi hw EIO, hr₁, ?_, ?_⟩
    · rw [fdwake_m, wake_sleeping hw, ← hx, List.erase_cons_head]
    · rw [fdwake_m, wake_q hw, update_self, update_of_ne (show ListRef.taskrunqueue ≠ .sleeping by simp), List.append_assoc]
      exact hq

/-- Everybody sleeps on, or those that have events get ready, and then those that are due at `now`. -/
def Readies (now : Nat) (s s' : St) : Prop :=
  ∃ more, s'.m.q .taskrunqueue = s.m.q .taskrunqueue ++ more ∧ s'.m.q .sleeping = s.m.q .sleeping ∨
    ∃ ts, (∀ x ∈ ts, Registered s.g x) ∧
      s'.m.q .taskrunqueue = s.m.q .taskrunqueue ++ ts ++
        ((s.m.q .sleeping).filter (· ∉ ts)).filter (fun x => s.g.alarm x ≤ now) ++ more ∧
      s'.m.q .sleeping = ((s.m.q .sleeping).filter (· ∉ ts)).filter fun x => now < s.g.alarm x

theorem yield_readies (h : Inv s) (hr : s.g.taskrunning = some t) (k : BitVec 32 → Pc) (now : Nat) :
    Ok (taskyield k) s fun _ s' => Readies now s s' :=
  (yield_lists h hr k).mono fun _ s' hs' => ⟨[t], .inl ⟨by rw [hs', update_self], by
    rw [hs', update_of_ne (show ListRef.sleeping ≠ .taskrunqueue by simp)]⟩⟩

theorem polled_readies (h : Inv s) (ho : Ordered s) (hr : s.g.taskrunning = some t) {poll : Poll}
    (hpoll : ∀ ts, poll = .events ts → ts.Nodup ∧ ∀ x ∈ ts, Registered s.g x) (v : Option Nat) (now : Nat) :
    Ok (fdpolled v poll now) s fun _ s' => Readies now s s' := by
  cases poll with
  | eintr => exact yield_readies h hr (.fdtask v) now
  | failed => exact ok_modify.mpr ⟨[], .inl ⟨(List.append_nil _).symm, rfl⟩⟩
  | events ts =>
    obtain ⟨hnd, hreg⟩ := hpoll ts rfl
    exact (turn_lists h ho hr hnd hreg v now).mono fun _ s' hs' => ⟨_, .inr ⟨ts, hreg, hs'.2, hs'.1⟩⟩

theorem resume_readies (h : Inv s) (ho : Ordered s) {now : Nat} {poll : Poll} {now' : Nat}
    (hen : Enabled s.g (.resume now poll now')) (hr : s.g.taskrunning = some t) {v : Option Nat} {n : BitVec 32}
    (hpc : (s.g.task t).pc = .fdtask v n) : Ok (code (.resume now poll now')) s fun _ s' => Readies now' s s' := by
  simp only [code, resume, ok_bind, ok_running hr, ok_globals, hpc]
  split
  · exact yield_readies h hr (.fdtask v) now'
  · simp only [fdpoll, ok_bind, ok_head]
    cases (s.m.q .sleeping).head? with
    | none =>
      simp only [ok_bind, ok_observe]
      exact polled_readies (s := s.obs _) (inv_note h rfl) ho hr hen.2.2 v now'
    | some w =>
      simp only [ok_bind, ok_observe, ok_globals]
      exact polled_readies (s := (s.obs _).obs _) (inv_note (inv_note h rfl) rfl) ho hr hen.2.2 v now'

/-- Nobody with a later alarm, and without an event, gets in front. -/
theorem Readies.ahead {now : Nat} (hreadies : Readies now s s') (ho : Ordered s) (hev : ¬ Registered s.g u)
    (hlt : s.g.alarm t < s.g.alarm u) (ha : Ahead t u s) : Ahead t u s' := by
  obtain ⟨more, ⟨hq, hsl⟩ | ⟨ts, hreg, hq, hsl⟩⟩ := hreadies
  · cases ha with
    | asleep ht hu => exact .asleep (hsl ▸ ht) (hsl ▸ hu)
    | woken ht hu => exact .woken (hq ▸ List.mem_append_left _ ht) (hsl ▸ hu)
    | queued hp => exact .queued (hq ▸ hp.trans (List.sublist_append_left _ _))
  · have hkept : ∀ {x}, x ∈ s.m.q .sleeping → x ∉ ts → x ∈ (s.m.q .sleeping).filter (· ∉ ts) := fun hx hno =>
      List.mem_filter.mpr ⟨hx, decide_eq_true hno⟩
    have hdue : ∀ {x}, x ∈ s.m.q .sleeping → x ∉ ts → s.g.alarm x ≤ now →
        x ∈ ((s.m.q .sleeping).filter (· ∉ ts)).filter fun x => s.g.alarm x ≤ now := fun hx hno hle =>
      List.mem_filter.mpr ⟨hkept hx hno, decide_eq_true hle⟩
    have hlater : ∀ {x}, x ∈ s.m.q .sleeping → x ∉ ts → now < s.g.alarm x → x ∈ s'.m.q .sleeping := fun hx hno hlt => by
      rw [hsl]
      exact List.mem_filter.mpr ⟨hkept hx hno, decide_eq_true hlt⟩
    have hu : u ∉ ts := fun hm => hev (hreg u hm)
    -- `t` is on the run queue before those that are due
    have hfront : t ∈ s.m.q .taskrunqueue ++ ts → u ∈ s.m.q .sleeping → Ahead t u s' := by
      intro ht hus
      rcases Nat.lt_or_ge now (s.g.alarm u) with hlt | hle
      · exact .woken (hq ▸ List.mem_append_left _ (List.mem_append_left _ ht)) (hlater hus hu hlt)
      · refine .queued (hq ▸ List.Sublist.trans ?_ (List.sublist_append_left _ _))
        exact List.Sublist.append (List.singleton_sublist.mpr ht) (List.singleton_sublist.mpr (hdue hus hu hle))
    cases ha with
    | asleep ht hus =>
      by_cases hts : t ∈ ts
      · exact hfront (List.mem_append_right _ hts) hus
      · rcases Nat.lt_or_ge now (s.g.alarm t) with hnt | hnt
        · exact .asleep (hlater ht hts hnt) (hlater hus hu (Nat.lt_trans hnt hlt))
        · rcases Nat.lt_or_ge now (s.g.alarm u) with hnu | hnu
          · refine .woken ?_ (hlater hus hu hnu)
            rw [hq]
            exact List.mem_append_left _ (List.mem_append_right _ (hdue ht hts hnt))
          · have hord : InOrder s.g.alarm (((s.m.q .sleeping).filter (· ∉ ts)).filter fun x => s.g.alarm x ≤ now) :=
              InOrder.sublist ho (List.filter_sublist.trans List.filter_sublist)
            refine .queued (hq ▸ List.Sublist.trans ?_ (List.sublist_append_left _ _))
            exact (hord.before (hdue ht hts hnt) (hdue hus hu hnu) hlt).trans (List.sublist_append_right _ _)
    | woken ht hus => exact hfront (List.mem_append_left _ ht) hus
    | queued hp =>
      refine .queued (hq ▸ hp.trans ?_)
      rw [List.append_assoc, List.append_assoc]
      exact List.sublist_append_left _ _

theorem Ahead.here (ha : Ahead t u s) : (∃ l, s.m.loc t = some l) ∧ ∃ l, s.m.loc u = some l := by
  have hloc : ∀ {x l}, x ∈ s.m.q l → ∃ l, s.m.loc x = some l := fun hx => ⟨_, (s.m.mem_iff _ _).mp hx⟩
  cases ha with
  | asleep ht hu => exact ⟨hloc ht, hloc hu⟩
  | woken ht hu => exact ⟨hloc ht, hloc hu⟩
  | queued hp =>
    exact ⟨hloc (hp.subset List.mem_cons_self), hloc (hp.subset (List.mem_cons_of_mem _ List.mem_cons_self))⟩

theorem not_running (h : Inv s) {l : ListRef} (hl : s.m.loc t = some l) : s.g.taskrunning ≠ some t := fun hr =>
  nomatch hl.symm.trans (h.here hr).2.2

theorem ahead_step (h : Inv s) (ho : Ordered s) (hc : Chases t u s) (hen : Enabled s.g e)
    (hs : (code e).onPlaces s = .ok ((), s')) (h' : Inv s') : s'.g.taskrunning = some t ∨ Ahead t u s' := by
  have hdid := did h hen hs
  have hqueue := queue_step h hen hs h'
  have hev : ¬ Registered s.g u := by
    obtain ⟨n, hn⟩ := hc.pc
    rintro ⟨-, ⟨k, hk⟩, -⟩
    exact nomatch hn.symm.trans hk
  -- who is on the run queue stays on it or runs
  have hstays : ∀ {x}, x ∈ s.m.q .taskrunqueue → s'.g.taskrunning = some x ∨ x ∈ s'.m.q .taskrunqueue := by
    intro x hx
    rcases hqueue with ⟨more, hq⟩ | ⟨w, hw, hq⟩
    · exact .inr (hq ▸ List.mem_append_left _ hx)
    · rw [hq] at hx
      rcases List.mem_cons.mp hx with rfl | hx
      · exact .inl hw
      · exact .inr hx
  rcases hdid.woken hen with hw | rfl | ⟨now, poll, now', w, v, n, rfl, hr, hpc⟩
  · have hon : ∀ {x}, x ∈ s.m.q .sleeping → x ∈ s'.m.q .sleeping := fun hx =>
      (s'.m.mem_iff _ _).mpr (sleeps_on h h' hdid.log (hw _) ((s.m.mem_iff _ _).mp hx))
    cases hc.ahead with
    | asleep ht hu => exact .inr (.asleep (hon ht) (hon hu))
    | woken ht hu => exact (hstays ht).imp_right fun ht => .woken ht (hon hu)
    | queued hp =>
      rcases hqueue with ⟨more, hq⟩ | ⟨w, hw, hq⟩
      · exact .inr (.queued (hq ▸ hp.trans (List.sublist_append_left _ _)))
      · rw [hq] at hp
        cases hp with
        | cons _ hp => exact .inr (.queued hp)
        | cons_cons _ _ => exact .inl hw
  · obtain ⟨w, hw, fn, hfn⟩ := id hen
    have hq := (shutdown_queue h hw.2.1 hfn).result hs
    refine .inr (.queued ?_)
    rw [hq]
    cases hc.ahead with
    | asleep ht hu => exact (ho.before ht hu hc.alarm).trans (List.sublist_append_right _ _)
    | woken ht hu => exact List.Sublist.append (List.singleton_sublist.mpr ht) (List.singleton_sublist.mpr hu)
    | queued hp => exact hp.trans (List.sublist_append_left _ _)
  · exact .inr (((resume_readies h ho hen hr hpc).result hs).ahead ho hev hc.alarm hc.ahead)

theorem chases_step (h : Inv s) (ho : Ordered s) (hc : Chases t u s) (hen : Enabled s.g e)
    (hs : (code e).onPlaces s = .ok ((), s')) (h' : Inv s') : s'.g.taskrunning = some t ∨ Chases t u s' := by
  obtain ⟨⟨l, ht⟩, ⟨l', hu⟩⟩ := hc.ahead.here
  have hlive : ∀ {x l}, s.m.loc x = some l → s.g.live x = true := fun hl => (h.good _).live hl
  refine (ahead_step h ho hc hen hs h').imp_right fun ha => ⟨?_, ?_, ha⟩
  · obtain ⟨-, hpc⟩ := (did h hen hs).same (not_running h hu) (hlive hu)
    exact hc.pc.imp fun n hn => hpc.trans hn
  · rw [alarm_step h (not_running h ht) (hlive ht) hen hs, alarm_step h (not_running h hu) (hlive hu) hen hs]
    exact hc.alarm

end

/-- A task in `taskdelay` does not run before one that sleeps with an earlier alarm has run. -/
theorem none_overtakes {s s' : State Glob Heap} {tr : List Step} {t u : TaskPtr} {n : Nat} (h : Reach s) (ht : Asleep s.g t)
    (hu : Asleep s.g u) (hpc : (s.g.task u).pc = .taskdelay n) (hlt : s.g.alarm t < s.g.alarm u) (hrun : Run s tr s')
    (hr : s'.g.taskrunning = some u) : ∃ x ∈ tr, x.g.taskrunning = some t := by
  obtain ⟨p, hl, ho⟩ := ordered_reach h
  by_contra hno
  push Not at hno
  have hc : Chases t u ⟨s.g, p⟩ := ⟨⟨n, hpc⟩, hlt, .asleep ((asleep_iff hl.inv).mpr ht) ((asleep_iff hl.inv).mpr hu)⟩
  obtain ⟨p', hl', -, hc'⟩ := hrun.holds (P := fun _ s => Ordered s ∧ (s.g.taskrunning = some t ∨ Chases t u s))
    (C := fun x => x.g.taskrunning ≠ some t) hl ⟨ho, .inr hc⟩
    (fun h hP hen hs h' hC => ⟨ordered_step h hP.1 hen hs, chases_step h hP.1 (hP.2.resolve_left hC) hen hs h'⟩) hno
  rcases hc' with hrt | hc'
  · obtain rfl : t = u := Option.some.inj (hrt.symm.trans hr)
    exact absurd hlt (Nat.lt_irrefl _)
  · obtain ⟨-, l, hu'⟩ := hc'.ahead.here
    exact not_running hl'.inv hu' hr

/-- Task 1 sleeps for 10 ms, and task 2, behind it, for 5 ms. One poll comes too late for both. -/
def oversleeping : List Ev :=
  [.taskscheduler, .resume 0 .eintr 0, .taskscheduler, .resume 0 (.events []) 20000000, .taskscheduler, .resume 20000000 .eintr 0,
    .taskexit, .taskscheduler]

theorem none_overtakes_late : ∃ s', Run (napping.foldl State.next boot)
    ((napping.foldl State.next boot).steps oversleeping []) s' ∧ s'.g.taskrunning = some 1 ∧
    ∃ x ∈ (napping.foldl State.next boot).steps oversleeping [], x.g.taskrunning = some 2 := by
  have h := (run_boot napping (by decide +kernel)).reach reach_boot
  obtain ⟨p, hl⟩ := linked_reach h
  have hrun := Run.refl.plays hl oversleeping (by decide +kernel)
  have hone : Asleep (napping.foldl State.next boot).g 1 :=
    ⟨by decide +kernel, by decide +kernel, by decide +kernel, by decide +kernel⟩
  have htwo : Asleep (napping.foldl State.next boot).g 2 :=
    ⟨by decide +kernel, by decide +kernel, by decide +kernel, by decide +kernel⟩
  have hlast : (oversleeping.foldl State.next (napping.foldl State.next boot)).g.taskrunning = some 1 := by decide +kernel
  exact ⟨_, hrun, hlast, none_overtakes h htwo hone (n := 0) (by decide +kernel) (by decide +kernel) hrun hlast⟩

end Libtask.Sched
