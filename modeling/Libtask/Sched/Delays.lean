/-
  Libtask.Sched.Delays — how long `taskdelay` takes, by the clock.

  `NotEarly`: in every run behind the call, with a clock that does not go back, `t` is ready only
  when the clock has been read at the end of the delay or later, and the call returns at least
  `ms`. The alarm is computed in 64 bits: `delay_kept` is for the `ms` for which it is the end of
  the delay (`InTime`), and for these only does a pass over the timers keep to it. `wakes_at_once`
  is a delay of `(size_t)-1` ms.
-/

import Libtask.Sched.Timers

namespace Libtask.Sched

open Function (update update_self update_of_ne)

/-! ## The clock -/

def reading : Obs → Option Nat
  | .nsec now => some now
  | _ => none

/-- What `nsec` returned, the newest first. -/
def readings (log : List Obs) : List Nat := log.filterMap reading

/-- It never goes back, and is less than 2^63. -/
structure Clock (log : List Obs) : Prop where
  steady : (readings log).Pairwise (· ≥ ·)
  small : ∀ r ∈ readings log, r < 2 ^ 63

theorem mem_readings {log : List Obs} {r : Nat} : r ∈ readings log ↔ .nsec r ∈ log := by
  constructor
  · intro h
    obtain ⟨o, ho, hr⟩ := List.mem_filterMap.mp h
    cases o with
    | nsec now => rwa [← Option.some.inj hr]
    | _ => cases hr
  · exact fun h => List.mem_filterMap.mpr ⟨_, h, rfl⟩

/-- The end of the delay, or what is later than any clock. -/
def InTime (ms now : Nat) : Prop := now + ms * 1000000 < 2 ^ 64 ∨ 2 ^ 63 ≤ u64 (now + ms * 1000000)

theorem inTime_iff {ms now : Nat} (hn : now < 2 ^ 63) : InTime ms now ↔
    ∀ now', now ≤ now' → now' < 2 ^ 63 → u64 (now + ms * 1000000) ≤ now' → now + ms * 1000000 ≤ now' := by
  unfold InTime u64
  constructor
  · intro h now' hle hlt hw
    rcases h with h | h
    · rwa [Nat.mod_eq_of_lt h] at hw
    · omega
  · intro h
    by_contra hno
    have hno : ¬ now + ms * 1000000 < 2 ^ 64 ∧ ¬ 2 ^ 63 ≤ (now + ms * 1000000) % 2 ^ 64 := not_or.mp hno
    have := h (max now ((now + ms * 1000000) % 2 ^ 64)) (Nat.le_max_left _ _) (by omega) (Nat.le_max_right _ _)
    omega

/-! ## One step -/

section
variable {s s' : St} {t u : TaskPtr} {e : Ev}

/-- Alarms are set by their own tasks. -/
theorem alarm_step (h : Inv s) (hr : s.g.taskrunning ≠ some t) (hl : s.g.live t = true) (hen : Enabled s.g e)
    (hs : (code e).onPlaces s = .ok ((), s')) : s'.g.alarm t = s.g.alarm t := by
  by_cases hm : e.malloc = none
  · exact (across_code closed_leaves hm s s' () hs).1 t
  · have hdelay : ∀ {ms now w}, Runs s.g w → e.delays ms now → s'.g.alarm t = s.g.alarm t := fun {ms now w} hw he => by
      obtain ⟨k, s₁, hb, rfl, -⟩ := delays_eq h hw he hen hs
      have htw : t ≠ w := fun htw => hr (htw ▸ hw.2.1)
      rw [leave_alarm, delay_alarm, update_of_ne htw]
      exact hb.alarm t hl
    cases e with
    | taskcreateraw a =>
      have hs' : s' = s.create .app a :=
        (ok_taskcreateraw (Q := fun _ s' => s' = s.create .app a) ((h.good a).dead hen.2).2.1 rfl).result hs
      rw [hs']
      exact (dozes_create hen.2 .app).alarm t hl
    | taskcreate a =>
      obtain ⟨hs', -⟩ := (taskcreate_ok h hen.2 .app).result hs
      rw [hs']
      exact (begun_taskcreate h hen.2 .app).alarm t hl
    | startfdtask fn arg a =>
      have h₁ : Inv (s.modify fun g => { g with pool_loop_arg := arg, pool_loop_fn := fn }) := inv_modify h fun _ => rfl
      exact ((startfdtask_begun h₁ (.inr hen.2)).result hs).1.alarm t hl
    | taskdelay ms now a => exact hen.1.elim fun w hw => hdelay hw (.inl ⟨a, rfl⟩)
    | fdwait now a => exact hen.1.elim fun w hw => hdelay hw (.inr ⟨rfl, a, rfl⟩)
    | _ => exact absurd rfl hm

theorem Keeps.remembers {K : Pc → Prop} {m : Lib Unit} {g : Glob} {o : Obs} (hm : Keeps u K m) (hg : At u g) (ho : o ∈ g.log) :
    m.All (fun _ g' => o ∈ g'.log) g := by
  refine all_mono (fun _ g' h' => ?_) (hm g hg)
  obtain ⟨new, hnew, -⟩ := h'.1.log
  rw [hnew]
  exact List.mem_append_right _ ho

/-- A turn of the `fdtask` reads the clock before it looks at the timers. -/
theorem turn_nsec {g : Glob} (hg : At u g) (v : Option Nat) (ts : List TaskPtr) (now' : Nat) :
    (fdpolled v (.events ts) now').All (fun _ g' => .nsec now' ∈ g'.log) g := by
  have hK : (fun _ : Pc => True) .app ∧ ∃ v n, (fun _ : Pc => True) (.fdtask v n) := ⟨trivial, none, 0, trivial⟩
  simp only [fdpolled]
  rw [all_bind]
  refine all_mono (fun _ g₁ h₁ => ?_) (keeps_fdevents (K := fun _ => True) hK ts g hg)
  have hat : At u (g₁.observe (.nsec now')) := h₁.1.at hg
  rw [all_bind]
  show Prog.All _ _ (g₁.observe (.nsec now'))
  refine Keeps.remembers (K := fun _ => True) ?_ hat List.mem_cons_self
  refine keeps_bind keeps_globals fun _ => keeps_bind (keeps_loop (fun _ => keeps_expired now') (keeps_fdwake hK _) _ _) fun _ => ?_
  cases v with
  | none => exact keeps_taskyield (fun n h => by cases h) fun _ => trivial
  | some fn => exact keeps_bind keeps_globals fun _ => keeps_bind (keeps_observe (by simp)) fun _ => keeps_running (keeps_back trivial)

/-- Without an event, a task sleeps on in a turn of the `fdtask`, or its alarm is not later than the clock. -/
theorem turn_sleeper (h : Inv s) (ho : Ordered s) (hr : s.g.taskrunning = some u) {poll : Poll}
    (hpoll : ∀ ts, poll = .events ts → ts.Nodup ∧ ∀ x ∈ ts, Registered s.g x) (v : Option Nat) (now' : Nat)
    (ht : s.m.loc t = some .sleeping) (hev : ¬ Registered s.g t) : Ok (fdpolled v poll now') s fun _ s' =>
      s'.m.loc t = some .sleeping ∨ ∃ r ∈ readings s'.g.log, s.g.alarm t ≤ r := by
  cases poll with
  | eintr =>
    refine (yield_lists h hr (.fdtask v)).mono fun _ s' hs' => .inl ((s'.m.mem_iff .sleeping t).mp ?_)
    rw [hs', update_of_ne (show ListRef.sleeping ≠ .taskrunqueue from nofun)]
    exact (s.m.mem_iff .sleeping t).mpr ht
  | failed => exact ok_modify.mpr (.inl ht)
  | events ts =>
    obtain ⟨hnd, hreg⟩ := hpoll ts rfl
    obtain ⟨x, s', hs', hq, -⟩ := turn_lists h ho hr hnd hreg v now'
    refine ⟨x, s', hs', ?_⟩
    by_cases hle : s.g.alarm t ≤ now'
    · exact .inr ⟨now', mem_readings.mpr (all_onPlaces (Q := fun _ g' => .nsec now' ∈ g'.log) hs'
        (turn_nsec (at_running h hr) v ts now')), hle⟩
    · refine .inl ((s'.m.mem_iff .sleeping t).mp ?_)
      rw [hq]
      refine List.mem_filter.mpr ⟨List.mem_filter.mpr ⟨(s.m.mem_iff .sleeping t).mpr ht, ?_⟩, ?_⟩
      · exact decide_eq_true fun hm => hev (hreg t hm)
      · exact decide_eq_true (Nat.lt_of_not_le hle)

theorem resume_sleeper (h : Inv s) (ho : Ordered s) (hr : s.g.taskrunning = some u) {now : Nat} {poll : Poll} {now' : Nat}
    (hen : Enabled s.g (.resume now poll now')) {v : Option Nat} {n : BitVec 32} (hpc : (s.g.task u).pc = .fdtask v n)
    (ht : s.m.loc t = some .sleeping) (hev : ¬ Registered s.g t) : Ok (code (.resume now poll now')) s fun _ s' =>
      s'.m.loc t = some .sleeping ∨ ∃ r ∈ readings s'.g.log, s.g.alarm t ≤ r := by
  simp only [code, resume, ok_bind, ok_running hr, ok_globals, hpc]
  split
  · refine (yield_lists h hr (.fdtask v)).mono fun _ s' hs' => .inl ((s'.m.mem_iff .sleeping t).mp ?_)
    rw [hs', update_of_ne (show ListRef.sleeping ≠ .taskrunqueue by simp)]
    exact (s.m.mem_iff .sleeping t).mpr ht
  · simp only [fdpoll, ok_bind, ok_head]
    cases (s.m.q .sleeping).head? with
    | none =>
      simp only [ok_bind, ok_observe]
      exact turn_sleeper (s := s.obs _) (inv_note h rfl) ho hr hen.2.2 v now' ht hev
    | some w =>
      simp only [ok_bind, ok_observe, ok_globals]
      exact turn_sleeper (s := (s.obs _).obs _) (inv_note (inv_note h rfl) rfl) ho hr hen.2.2 v now' ht hev

/-- `t` is in `taskdelay`, asleep until `when`, or the clock was read at `when` or later. -/
structure Delayed (t : TaskPtr) (now when : Nat) (s : St) : Prop where
  live : s.g.live t = true
  pc : (s.g.task t).pc = .taskdelay now
  waits : s.m.loc t = some .sleeping ∧ s.g.alarm t = when ∨ ∃ r ∈ readings s.g.log, when ≤ r

/-- Only the clock, or a shutdown, ends a delay. -/
theorem delayed_step {now when : Nat} (h : Inv s) (ho : Ordered s) (hd : Delayed t now when s) (hr : s.g.taskrunning ≠ some t)
    (hen : Enabled s.g e) (hs : (code e).onPlaces s = .ok ((), s')) (h' : Inv s')
    (hopen : e = .callback (-1) → (s.g.task t).state = .READY) : Delayed t now when s' := by
  have hdid := did h hen hs
  obtain ⟨hl, hpc⟩ := hdid.same hr hd.live
  obtain ⟨new, hnew⟩ := hdid.log
  refine ⟨hl, hpc.trans hd.pc, ?_⟩
  rcases hd.waits with ⟨hloc, ha⟩ | ⟨r, hr, hle⟩
  · have ha' : s'.g.alarm t = when := (alarm_step h hr hd.live hen hs).trans ha
    rcases hdid.woken hen with hw | rfl | ⟨n, poll, n', u, v, m, rfl, hru, hpcu⟩
    · exact .inl ⟨sleeps_on h h' ⟨new, hnew⟩ (hw t) hloc, ha'⟩
    · exact nomatch (hopen rfl).symm.trans (h.zero hloc nofun)
    · have hev : ¬ Registered s.g t := by
        rintro ⟨-, ⟨k, hk⟩, -⟩
        exact nomatch hd.pc.symm.trans hk
      rcases (resume_sleeper h ho hru hen hpcu hloc hev).result hs with hloc' | ⟨r, hr, hle⟩
      · exact .inl ⟨hloc', ha'⟩
      · exact .inr ⟨r, hr, ha ▸ hle⟩
  · refine .inr ⟨r, ?_, hle⟩
    rw [hnew, readings, List.filterMap_append]
    exact List.mem_append_right _ hr

/-- Behind the call `t` sleeps until the alarm. -/
theorem delayed_call (h : Inv s) (ht : Runs s.g t) {ms now : Nat} {a : TaskPtr} (hen : Enabled s.g (.taskdelay ms now a))
    (hs : (code (.taskdelay ms now a)).onPlaces s = .ok ((), s')) :
    Delayed t now (u64 (now + ms * 1000000)) s' ∧ s'.m.loc t = some .sleeping ∧ s'.g.alarm t = u64 (now + ms * 1000000) := by
  obtain ⟨s₁, hb, hs', -⟩ := (taskdelay_eq h ht.2.1 (.inr hen.2) (.taskdelay now) ms now).result hs
  obtain ⟨-, hloc⟩ := (taskdelay_ok h ht.2.1 ht.2.2 (.inr hen.2) (k := .taskdelay now) rfl ms now).result hs
  have hloc₁ : s₁.m.loc t = none := (hb.inv.here (hb.running.trans ht.2.1)).2.2
  have hal : s'.g.alarm t = u64 (now + ms * 1000000) := by
    rw [hs', leave_alarm, delay_alarm, update_self]
  refine ⟨⟨?_, ?_, .inl ⟨hloc, hal⟩⟩, hloc, hal⟩
  · rw [hs']
    exact (hb.inv.here (hb.running.trans ht.2.1)).1
  · rw [hs']
    show (State.leave _ t (.taskdelay now)).pc t = .taskdelay now
    rw [pc_leave, update_self]

end

/-! ## Runs -/

/-- `t` did not go on in any of the steps, and no shutdown woke it. -/
def Undisturbed (t : TaskPtr) (tr : List Step) : Prop :=
  ∀ x ∈ tr, x.g.taskrunning ≠ some t ∧ (x.e = .callback (-1) → (x.g.task t).state = .READY)

/-- `s₁` is behind the call of `taskdelay(ms)` by `t` at `now`: `t` gets ready only when the clock has
    advanced by the delay, and the call returns at least `ms`. -/
def NotEarly (s₁ : State Glob Heap) (t : TaskPtr) (ms now : Nat) : Prop :=
  ∀ tr s, Run s₁ tr s → Undisturbed t tr → Clock s.g.log →
    ((s.g.task t).state = .READY ∨ s.g.taskrunning = some t → ∃ r ∈ readings s.g.log, now + ms * 1000000 ≤ r) ∧
    (s.g.taskrunning = some t → ∀ now' poll now'' s', Enabled s.g (.resume now' poll now'') →
      (code (.resume now' poll now'')).onHeap s = .ok ((), s') → Clock s'.g.log →
      ∃ v : Nat, s'.g.log.head? = some (.ret t v) ∧ ms ≤ v)

section
variable {s s₁ : State Glob Heap} {p : Places} {t a : TaskPtr} {ms now : Nat}

theorem taskdelay_resume (hr : s.g.taskrunning = some t) (hpc : (s.g.task t).pc = .taskdelay now) (now' : Nat) (poll : Poll)
    (now'' : Nat) {s' : State Glob Heap} (hs : (code (.resume now' poll now'')).onHeap s = .ok ((), s')) :
    s'.g.log = .ret t (u64 (now' + 2 ^ 64 - now) / 1000000 : Nat) :: .nsec now' :: s.g.log := by
  have hcode : (code (.resume now' poll now'')).onHeap s = (taskdelayresume now now').onHeap s := by
    have hglob : ∀ f : Glob → Lib Unit, (globals >>= f).onHeap s = (f s.g).onHeap s := fun _ => rfl
    simp only [code, resume]
    rw [onHeap_running hr, hglob]
    simp only [hpc]
  rw [hcode, taskdelayresume, onHeap_running hr] at hs
  obtain ⟨-, rfl⟩ := Prod.mk.inj (Except.ok.inj hs)
  rfl

theorem notEarly (hl : Linked s₁ p) (ho : Ordered ⟨s₁.g, p⟩) (hd : Delayed t now (u64 (now + ms * 1000000)) ⟨s₁.g, p⟩)
    (hn : now < 2 ^ 63) (hin : InTime ms now) : NotEarly s₁ t ms now := by
  intro tr s hrun hu hclock
  obtain ⟨p', hl', -, hd'⟩ := Run.holds (P := fun _ s => Ordered s ∧ Delayed t now (u64 (now + ms * 1000000)) s)
    (C := fun x => x.g.taskrunning ≠ some t ∧ (x.e = .callback (-1) → (x.g.task t).state = .READY)) hl ⟨ho, hd⟩
    (fun h hP hen hs h' hC => ⟨ordered_step h hP.1 hen hs, delayed_step h hP.1 hP.2 hC.1 hen hs h' hC.2⟩) hrun hu
  have hawake : (s.g.task t).state = .READY ∨ s.g.taskrunning = some t → ∃ r ∈ readings s.g.log, now + ms * 1000000 ≤ r := by
    intro hst
    rcases hd'.waits with ⟨hloc, -⟩ | ⟨r, hr, hle⟩
    · exfalso
      obtain ⟨-, hrun, hz, -⟩ := (hl'.inv.good t).resting hloc nofun
      rcases hst with hst | hst
      · exact nomatch hst.symm.trans hz
      · exact absurd hst (of_decide_eq_false hrun)
    · refine ⟨r, hr, ?_⟩
      have hr63 := hclock.small r hr
      rcases hin with hin | hin
      · rwa [u64, Nat.mod_eq_of_lt hin] at hle
      · have hle : u64 (now + ms * 1000000) ≤ r := hle
        omega
  refine ⟨hawake, fun hrt now' poll now'' s' hen hs hclock' => ?_⟩
  have hlog := taskdelay_resume hrt hd'.pc now' poll now'' hs
  obtain ⟨r, hr, hle⟩ := hawake (.inr hrt)
  refine ⟨u64 (now' + 2 ^ 64 - now) / 1000000, by rw [hlog]; rfl, ?_⟩
  have hreads : readings s'.g.log = now' :: readings s.g.log := by rw [hlog]; rfl
  have hge : r ≤ now' := (List.pairwise_cons.mp (hreads ▸ hclock'.steady)).1 r hr
  have hlt : now' < 2 ^ 63 := hclock'.small now' (by rw [hreads]; exact List.mem_cons_self)
  have hdiff : u64 (now' + 2 ^ 64 - now) = now' - now := by
    unfold u64
    omega
  rw [hdiff, Nat.le_div_iff_mul_le (by decide)]
  omega

/-- `taskdelay(ms)` is not early in any run, if the alarm is the end of the delay or behind every
    clock. A pass over the timers, at any time behind the call, is early else. -/
theorem delay_kept (h : Reach s) (ht : Runs s.g t) (hen : Enabled s.g (.taskdelay ms now a))
    (hs : (code (.taskdelay ms now a)).onHeap s = .ok ((), s₁)) (hn : now < 2 ^ 63) :
    (InTime ms now → NotEarly s₁ t ms now) ∧
    (InTime ms now ↔ ∀ now', now ≤ now' → now' < 2 ^ 63 → ∀ n s',
      (loop (fun _ => expired now') (fdwake LIBTASK_TIMEOUT) s₁.g.nalltask 0).onHeap s₁ = .ok (n, s') →
      (s'.g.task t).state = .READY → now + ms * 1000000 ≤ now') := by
  obtain ⟨p, hl, ho⟩ := ordered_reach h
  obtain ⟨p₁, hr, hl₁⟩ := hl.step hen hs
  have ho₁ : Ordered ⟨s₁.g, p₁⟩ := ordered_step hl.inv ho hen hr
  obtain ⟨hd, hloc, hal⟩ := delayed_call hl.inv ht hen hr
  refine ⟨notEarly hl₁ ho₁ hd hn, ?_⟩
  rw [inTime_iff hn]
  refine forall_congr' fun now' => forall_congr' fun _ => forall_congr' fun _ => ?_
  obtain ⟨n, s₂, hr₂, hp, -⟩ := timers_pass hl₁.inv ho₁ now' LIBTASK_TIMEOUT
  obtain ⟨x, hx, -⟩ := onPlaces_refines _ hr₂ hl₁.rep
  have hmem : t ∈ p₁.q .sleeping := (p₁.mem_iff .sleeping t).mpr hloc
  have hready : (s₂.g.task t).state = .READY ↔ u64 (now + ms * 1000000) ≤ now' := by
    constructor
    · intro hst
      by_contra hlt
      have hsame := hp.others t fun hm => hlt (by
        have hle : s₁.g.alarm t ≤ now' := of_decide_eq_true (List.mem_filter.mp hm).2
        rwa [hal] at hle)
      rw [hsame] at hst
      exact nomatch hst.symm.trans (hl₁.inv.zero hloc nofun)
    · intro hle
      refine (hp.woken t (List.mem_filter.mpr ⟨hmem, decide_eq_true ?_⟩)).1
      show s₁.g.alarm t ≤ now'
      rwa [hal]
  constructor
  · intro hle m s' hs' hst
    obtain ⟨-, rfl⟩ := Prod.mk.inj (Except.ok.inj (hx.symm.trans hs'))
    exact hle (hready.mp hst)
  · exact fun hall hle => hall n _ hx (hready.mpr hle)

end

/-- Task 1 runs. -/
def awake : List Ev := [.taskcreate 1, .taskscheduler, .resume 0 .eintr 0]

theorem delay_kept_ten : NotEarly ((awake.foldl State.next boot).next (.taskdelay 10 1000000 3)) 1 10 1000000 := by
  have h := (run_boot awake (by decide +kernel)).reach reach_boot
  have hen : Enabled (awake.foldl State.next boot).g (.taskdelay 10 1000000 3) := enabled_of_can (by decide +kernel)
  exact (delay_kept h (by decide +kernel) hen (step_next h hen) (by decide)).1 (.inl (by decide))

/-- Behind a delay of `(size_t)-1` ms at 1 ms: the alarm is 0, so the next pass readies the task, and
    the clock has not advanced. -/
def early : List Ev := [.taskscheduler, .resume 1000000 .eintr 0, .taskscheduler, .resume 1000000 (.events []) 1000000]

theorem wakes_at_once : ∃ s t ms now a s₁, Reach s ∧ Runs s.g t ∧ Enabled s.g (.taskdelay ms now a) ∧
    (code (.taskdelay ms now a)).onHeap s = .ok ((), s₁) ∧ now < 2 ^ 63 ∧ ms < 2 ^ 64 ∧ ¬ NotEarly s₁ t ms now := by
  have h := (run_boot awake (by decide +kernel)).reach reach_boot
  have hen : Enabled (awake.foldl State.next boot).g (.taskdelay (2 ^ 64 - 1) 1000000 3) := enabled_of_can (by decide +kernel)
  obtain ⟨p, hl, -⟩ := ordered_reach h
  obtain ⟨p₁, -, hl₁⟩ := hl.step hen (step_next h hen)
  refine ⟨awake.foldl State.next boot, 1, 2 ^ 64 - 1, 1000000, 3, _, h, by decide +kernel, hen, step_next h hen, by decide, by decide,
    fun hno => ?_⟩
  have hrun := Run.refl.plays hl₁ early (by decide +kernel)
  have hothers : ∀ x ∈ ((awake.foldl State.next boot).next (.taskdelay (2 ^ 64 - 1) 1000000 3)).steps early [],
      x.g.taskrunning ≠ some 1 := by decide +kernel
  have hnever : Undisturbed 1 (((awake.foldl State.next boot).next (.taskdelay (2 ^ 64 - 1) 1000000 3)).steps early []) := by
    refine fun x hx => ⟨hothers x hx, fun he => ?_⟩
    have hmem := (mem_steps early hx).resolve_right List.not_mem_nil
    rw [he] at hmem
    simp [early] at hmem
  have hclock : Clock (early.foldl State.next ((awake.foldl State.next boot).next (.taskdelay (2 ^ 64 - 1) 1000000 3))).g.log :=
    ⟨by decide +kernel, by decide +kernel⟩
  obtain ⟨r, hr, hle⟩ := (hno _ _ hrun hnever hclock).1 (.inl (by decide +kernel))
  have hlt : ∀ r ∈ readings (early.foldl State.next ((awake.foldl State.next boot).next
      (.taskdelay (2 ^ 64 - 1) 1000000 3))).g.log, r ≤ 1000000 := by decide +kernel
  have := hlt r hr
  omega

end Libtask.Sched
