/-
  Libtask.Sched.Alarms — in which order tasks return from `taskdelay`.

  `returns_in_order`: with a clock that does not go back, and without a shutdown, they return in the
  order of their alarms, in every run and whenever they called it. Of two that are in `taskdelay` the
  one with the earlier alarm is in front of the other (`Lined`). Who calls it when another was readied
  already has the later alarm, since the clock has been read at the other's (`call_later`).
-/

import Libtask.Sched.Latency

namespace Libtask.Sched

open Function (update update_self update_of_ne)

/-- `t` is in `taskdelay`. -/
def Naps (g : Glob) (t : TaskPtr) : Prop := g.live t = true ∧ ∃ n, (g.task t).pc = .taskdelay n

section
variable {s s' : St} {t u a : TaskPtr} {e : Ev} {ms now : Nat} {g : Glob}

/-! ## The call -/

/-- Nobody comes there but by a call, and who returns has left. -/
theorem nap_cases (h : Inv s) (hm : s.g.phase = .main → s.g.taskrunning = none) (hen : Enabled s.g e)
    (hs : (code e).onPlaces s = .ok ((), s')) (hn : Naps s'.g t) :
    Naps s.g t ∧ s.g.taskrunning ≠ some t ∨ ∃ ms now a, e = .taskdelay ms now a ∧ Runs s.g t := by
  obtain ⟨hl, n, hpc⟩ := hn
  have hdid := did h hen hs
  by_cases hr : s.g.taskrunning = some t
  · cases hdid with
    | turn _ hr' _ => exact nomatch hr'.symm.trans hr
    | exit u _ hu hx _ =>
      obtain rfl : t = u := Option.some.inj (hr.symm.trans hu.2.1)
      rw [hx.live, update_self] at hl
      cases hl
    | shutdown u fn g _ hu _ _ hx _ _ =>
      obtain rfl : t = u := Option.some.inj (hr.symm.trans hu.2.1)
      rw [hx.live, update_self] at hl
      cases hl
    | call u _ hu _ _ _ hgoes _ =>
      obtain rfl : t = u := Option.some.inj (hr.symm.trans (hu.resolve_right fun hd => nomatch hd.1.symm.trans hr))
      rw [hpc] at hgoes
      rcases hgoes with hsame | hstops
      · -- it returns
        obtain ⟨now, poll, now', rfl⟩ := resumes hm hr (by rw [← hsame]; simp) hen
        have happ : (s'.g.task t).pc = .app := all_onPlaces (Q := fun _ g' => (g'.task t).pc = .app) hs
          (wakes_resume (at_running h hr) (by rw [← hsame]; rfl) now poll now')
        exact nomatch hpc.symm.trans happ
      · cases e with
        | taskdelay ms now a =>
          obtain ⟨w, hw⟩ := hen.1
          obtain rfl : t = w := Option.some.inj (hr.symm.trans hw.2.1)
          exact .inr ⟨ms, now, a, rfl, hw⟩
        | resume now poll now' => rcases hstops with hk | ⟨l, r, hk⟩ | ⟨v, m, hk⟩ <;> cases hk
        | taskyield => exact hstops.elim nofun
        | callback r => exact hstops.elim fun v hv => hv.elim nofun
        | _ => cases hstops
  · refine .inl ⟨?_, hr⟩
    rcases hdid.other hr hl with ⟨hl', hsame⟩ | ⟨-, hstart⟩
    · exact ⟨hl', n, hsame ▸ hpc⟩
    · exact nomatch hstart.symm.trans hpc

/-- It reads the clock. -/
theorem all_taskdelay_nsec {pc : Pc} (hg : At t g) (ha : g.startedfdtask = true ∨ g.live a = false ∧ a ≠ t) :
    (taskdelay ms now a pc).All (fun _ g' => ∃ new, g'.log = new ++ g.log ∧ .nsec now ∈ new) g := by
  rw [taskdelay, all_bind]
  refine all_mono (fun _ g₁ h₁ => ?_) (all_startfdtask ha fun _ => True)
  obtain ⟨hacts, hst⟩ := h₁
  obtain ⟨new₁, hnew₁, -⟩ := hacts.log
  have hat : At t (g₁.observe (.nsec now)) := hacts.at hg
  show Prog.All _ _ (g₁.observe (.nsec now))
  refine all_running hat fun hr => all_globals ?_
  show Prog.All _ (taskswitch pc) _
  refine all_mono (fun _ g' hs => ?_) (all_taskswitch (t := t) (K := fun _ => True) (fun w hw => ?_) (fun _ => hst) trivial)
  · obtain ⟨new, hnew, -⟩ := hs.1.log
    refine ⟨new ++ .add .sleeping t :: .nsec now :: new₁, ?_, by simp⟩
    rw [hnew, List.append_assoc]
    exact congrArg _ (congrArg _ (congrArg _ hnew₁))
  · obtain ⟨rfl, hl, hx⟩ := hat w hw
    exact ⟨rfl, hl, by simpa [Glob.setTask, Glob.observe] using hx⟩

theorem Clock.before {new log : List Obs} (h : Clock (new ++ log)) :
    Clock log ∧ ∀ n ∈ readings new, ∀ r ∈ readings log, r ≤ n := by
  have hreads : readings (new ++ log) = readings new ++ readings log := List.filterMap_append
  have hsteady := h.steady
  rw [hreads] at hsteady
  obtain ⟨-, hlog, hnew⟩ := List.pairwise_append.mp hsteady
  refine ⟨⟨hlog, fun r hr => h.small r ?_⟩, hnew⟩
  rw [hreads]
  exact List.mem_append_right _ hr

/-- The alarm is not earlier than what was read before. -/
theorem call_later (h : Inv s) (ht : Runs s.g t) (hen : Enabled s.g (.taskdelay ms now a))
    (hs : (code (.taskdelay ms now a)).onPlaces s = .ok ((), s')) (hc : Clock s'.g.log) (hin : InTime ms now) :
    ∀ r ∈ readings s.g.log, r ≤ s'.g.alarm t := by
  have hlive : s.g.live t = true := (h.here ht.2.1).1
  have hat : a ≠ t := by
    rintro rfl
    exact nomatch hlive.symm.trans hen.2
  obtain ⟨new, hnew, hmem⟩ := all_onPlaces (Q := fun _ g' => ∃ new, g'.log = new ++ s.g.log ∧ .nsec now ∈ new) hs
    (all_taskdelay_nsec (at_running h ht.2.1) (.inr ⟨hen.2, hat⟩))
  have hnow : now < 2 ^ 63 := hc.small now (mem_readings.mpr (by
    rw [hnew]
    exact List.mem_append_left _ hmem))
  obtain ⟨-, -, halarm⟩ := delayed_call h ht hen hs
  have hle : now ≤ s'.g.alarm t := by
    rw [halarm]
    rcases hin with hin | hin
    · rw [u64, Nat.mod_eq_of_lt hin]
      exact Nat.le_add_right _ _
    · exact (Nat.le_of_lt hnow).trans hin
  rw [hnew] at hc
  exact fun r hr => (hc.before.2 now (mem_readings.mpr hmem) r hr).trans hle

/-- The caller sleeps, and nobody runs. -/
theorem call_sleeps (h : Inv s) (ht : Runs s.g t) (hen : Enabled s.g (.taskdelay ms now a))
    (hs : (code (.taskdelay ms now a)).onPlaces s = .ok ((), s')) (h' : Inv s') :
    t ∈ s'.m.q .sleeping ∧ s'.g.taskrunning = none := by
  obtain ⟨-, hloc, -⟩ := delayed_call h ht hen hs
  refine ⟨(s'.m.mem_iff .sleeping t).mpr hloc, ?_⟩
  cases did h hen hs with
  | call w _ hw hf _ _ _ _ =>
    obtain rfl : t = w := Option.some.inj (ht.2.1.symm.trans (hw.resolve_right fun hd => nomatch ht.2.1.symm.trans hd.1))
    rcases hf.running with hr | hr
    · exact absurd (hr.trans ht.2.1) (not_running h' hloc)
    · exact hr
  | turn he _ _ => cases he
  | exit _ he _ _ _ => cases he
  | shutdown _ _ _ he _ _ _ _ _ _ => cases he

/-! ## In line -/

/-- Who is in `taskdelay` sleeps till its alarm, behind those with earlier alarms. -/
structure Lined (s : St) : Prop where
  delayed : ∀ t, Naps s.g t → ∃ n, Delayed t n (s.g.alarm t) s
  ahead : ∀ t u, Naps s.g t → Naps s.g u → s.g.alarm t < s.g.alarm u → s.g.taskrunning = some t ∨ Chases t u s

/-- No shutdown, and an alarm is the end of the delay or later than the clock. -/
def Ev.Timely : Ev → Prop
  | .callback r => r ≠ -1
  | .taskdelay ms now _ => InTime ms now
  | _ => True

theorem lined_step (h : Inv s) (hm : s.g.phase = .main → s.g.taskrunning = none) (ho : Ordered s) (hl : Lined s)
    (hen : Enabled s.g e) (hs : (code e).onPlaces s = .ok ((), s')) (h' : Inv s') (he : e.Timely) (hc : Clock s'.g.log) :
    Lined s' := by
  have hsame : ∀ {t}, Naps s.g t → s.g.taskrunning ≠ some t → s'.g.alarm t = s.g.alarm t := fun hn hr =>
    alarm_step h hr hn.1 hen hs
  have hdelayed : ∀ t, Naps s'.g t → ∃ n, Delayed t n (s'.g.alarm t) s' := by
    intro t ht
    rcases nap_cases h hm hen hs ht with ⟨hn, hr⟩ | ⟨ms, now, a, rfl, hr⟩
    · obtain ⟨n, hd⟩ := hl.delayed t hn
      rw [hsame hn hr]
      refine ⟨n, delayed_step h ho hd hr hen hs h' ?_⟩
      rintro rfl
      exact absurd rfl he
    · obtain ⟨hd, -, halarm⟩ := delayed_call h hr hen hs
      exact ⟨now, halarm ▸ hd⟩
  refine ⟨hdelayed, fun t u ht hu hlt => ?_⟩
  rcases nap_cases h hm hen hs hu with ⟨hnu, hru⟩ | ⟨ms, now, a, rfl, hru⟩
  · rcases nap_cases h hm hen hs ht with ⟨hnt, hrt⟩ | ⟨ms, now, a, rfl, hrt⟩
    · rw [hsame hnt hrt, hsame hnu hru] at hlt
      exact chases_step h ho ((hl.ahead t u hnt hnu hlt).resolve_left hrt) hen hs h'
    · -- `t` calls it: `u` sleeps, as the clock is not at its alarm
      obtain ⟨hsleeps, -⟩ := call_sleeps h hrt hen hs h'
      obtain ⟨n, hd⟩ := hl.delayed u hnu
      rcases hd.waits with ⟨hloc, -⟩ | ⟨r, hr, hle⟩
      · have hwoken : ∀ w, s'.g.woken w = s.g.woken w := by
          rcases (did h hen hs).woken hen with hw | hw | ⟨_, _, _, _, _, _, hw, _⟩
          · exact hw
          · cases hw
          · cases hw
        have hstill := sleeps_on h h' (did h hen hs).log (hwoken u) hloc
        exact .inr ⟨hu.2, hlt, .asleep hsleeps ((s'.m.mem_iff .sleeping u).mpr hstill)⟩
      · have hge := call_later h hrt hen hs hc he r hr
        rw [hsame hnu hru] at hlt
        omega
  · -- `u` calls it, and `t` sleeps or is ready
    obtain ⟨hsleeps, hnone⟩ := call_sleeps h hru hen hs h'
    rcases nap_cases h hm hen hs ht with ⟨hnt, hrt⟩ | ⟨_, _, _, -, hrt⟩
    · obtain ⟨n, hn⟩ := ht.2
      have hdue : Due t (s'.g.alarm t) s' := ⟨ht.1, by rw [hn]; rfl, rfl⟩
      refine .inr ⟨hu.2, hlt, ?_⟩
      rcases hdue.place h' (by rw [hnone]; nofun) with hready | hasleep
      · exact .woken hready hsleeps
      · exact .asleep hasleep hsleeps
    · obtain rfl : t = u := Option.some.inj (hrt.2.1.symm.trans hru.2.1)
      exact absurd hlt (Nat.lt_irrefl _)

/-- The clock has been read at `a`, and nobody is in `taskdelay` with an earlier alarm. -/
structure Past (a : Nat) (s : St) : Prop where
  read : ∃ r ∈ readings s.g.log, a ≤ r
  later : ∀ u, Naps s.g u → a ≤ s.g.alarm u

/-- Who returns is the first. -/
theorem past_return (h : Inv s) (hl : Lined s) (hr : s.g.taskrunning = some t) (ht : Naps s.g t) : Past (s.g.alarm t) s := by
  obtain ⟨n, hd⟩ := hl.delayed t ht
  refine ⟨hd.waits.resolve_left fun hloc => not_running h hloc.1 hr, fun u hu => ?_⟩
  by_contra hlt
  rcases hl.ahead u t hu ht (Nat.lt_of_not_le hlt) with hru | hchases
  · obtain rfl : u = t := Option.some.inj (hru.symm.trans hr)
    exact hlt (Nat.le_refl _)
  · obtain ⟨-, l, hloc⟩ := hchases.ahead.here
    exact not_running h hloc hr

theorem past_step {d : Nat} (h : Inv s) (hm : s.g.phase = .main → s.g.taskrunning = none) (hp : Past d s) (hen : Enabled s.g e)
    (hs : (code e).onPlaces s = .ok ((), s')) (he : e.Timely) (hc : Clock s'.g.log) : Past d s' := by
  obtain ⟨r, hr, hle⟩ := hp.read
  refine ⟨?_, fun u hu => ?_⟩
  · obtain ⟨new, hnew⟩ := (did h hen hs).log
    refine ⟨r, ?_, hle⟩
    rw [hnew, readings, List.filterMap_append]
    exact List.mem_append_right _ hr
  · rcases nap_cases h hm hen hs hu with ⟨hn, hru⟩ | ⟨ms, now, a, rfl, hru⟩
    · rw [alarm_step h hru hn.1 hen hs]
      exact hp.later u hn
    · exact hle.trans (call_later h hru hen hs hc he r hr)

/-- What the steps `tr` have led to. -/
structure Orderly (tr : List Step) (s : St) : Prop where
  main : s.g.phase = .main → s.g.taskrunning = none
  ordered : Ordered s
  lined : Lined s
  past : ∀ x ∈ tr, ∀ t, x.g.taskrunning = some t → Naps x.g t → Past (x.g.alarm t) s

theorem orderly_step {tr : List Step} (h : Inv s) (ho : Orderly tr s) (hen : Enabled s.g e)
    (hs : (code e).onPlaces s = .ok ((), s')) (h' : Inv s') (he : e.Timely) (hc : Clock s'.g.log) :
    Orderly (⟨s.g, e, s'.g⟩ :: tr) s' where
  main := (did h hen hs).main ho.main
  ordered := ordered_step h ho.ordered hen hs
  lined := lined_step h ho.main ho.ordered ho.lined hen hs h' he hc
  past := by
    intro x hx w hr hn
    rcases List.mem_cons.mp hx with rfl | hx
    · exact past_step h ho.main (past_return h ho.lined hr hn) hen hs he hc
    · exact past_step h ho.main (ho.past x hx w hr hn) hen hs he hc

end

/-! ## Runs -/

section
variable {s₀ s : State Glob Heap} {p : Places} {tr : List Step} {t u : TaskPtr}

theorem Run.logs (h₀ : Linked s₀ p) (h : Run s₀ tr s) : ∀ x ∈ tr, ∃ new, s.g.log = new ++ x.g'.log := by
  induction h with
  | refl => exact fun x hx => absurd hx List.not_mem_nil
  | step e hrun hen hs ih =>
    obtain ⟨p', hl⟩ := hrun.linked h₀
    obtain ⟨p'', hr, -⟩ := hl.step hen hs
    obtain ⟨more, hmore⟩ := (did hl.inv hen hr).log
    intro x hx
    rcases List.mem_cons.mp hx with rfl | hx
    · exact ⟨[], rfl⟩
    · obtain ⟨new, hnew⟩ := ih x hx
      have hmore : _ = more ++ _ := hmore
      exact ⟨more ++ new, by rw [hmore, hnew, List.append_assoc]⟩

/-- Who returns from `taskdelay` later has no earlier alarm. -/
theorem returns_in_order (h₀ : Starts s₀) (h : Run s₀ tr s) (he : ∀ x ∈ tr, x.e.Timely) (hc : Clock s.g.log) :
    ∀ x ∈ tr, x.g.taskrunning = some t → Naps x.g t → ∀ u, Naps s.g u → x.g.alarm t ≤ s.g.alarm u := by
  have hlinked := linked_start h₀
  have hclock : ∀ x ∈ tr, x.e.Timely ∧ Clock x.g'.log := fun x hx => by
    obtain ⟨new, hnew⟩ := h.logs hlinked x hx
    exact ⟨he x hx, (hnew ▸ hc).before.1⟩
  have hnobody : ∀ w, ¬ Naps s₀.g w := by
    rintro w ⟨hw, -⟩
    obtain ⟨rendezl, size, junk, mem, -, rfl⟩ := h₀
    cases hw
  have hlined : Lined ⟨s₀.g, Places.empty⟩ := ⟨fun w hw => absurd hw (hnobody w), fun w _ hw => absurd hw (hnobody w)⟩
  have hstart : Orderly [] ⟨s₀.g, Places.empty⟩ :=
    ⟨main_reach (reach_starts h₀), List.Pairwise.nil, hlined, fun x hx => absurd hx List.not_mem_nil⟩
  obtain ⟨p, -, hp⟩ := h.holds (P := Orderly) (C := fun x => x.e.Timely ∧ Clock x.g'.log) hlinked hstart
    (fun h hP hen hs h' hC => orderly_step h hP hen hs h' hC.1 hC.2) hclock
  exact fun x hx hr hn => (hp.past x hx t hr hn).later

end

/-- Task 1 is awake behind 10 ms, and task 2, which called it later, behind 5 ms. -/
theorem returns_in_order_two : ∃ tr s, Run boot tr s ∧ Clock s.g.log ∧ s.g.taskrunning = some 1 ∧ Naps s.g 1 ∧
    ∃ x ∈ tr, x.g.taskrunning = some 2 ∧ Naps x.g 2 ∧ x.g.alarm 2 ≤ s.g.alarm 1 := by
  have hrun := run_boot (napping ++ oversleeping) (by decide +kernel)
  have htimely : ∀ e ∈ napping ++ oversleeping, e.Timely := by
    rw [← List.forall_iff_forall_mem]
    simp [napping, oversleeping, Ev.Timely, InTime]
  have hsteps : ∀ x ∈ boot.steps (napping ++ oversleeping) [], x.e.Timely := fun x hx =>
    htimely _ ((mem_steps _ hx).resolve_right List.not_mem_nil)
  have hclock : Clock ((napping ++ oversleeping).foldl State.next boot).g.log := ⟨by decide +kernel, by decide +kernel⟩
  have hlast : ((napping ++ oversleeping).foldl State.next boot).g.taskrunning = some 1 := by decide +kernel
  have hone : Naps ((napping ++ oversleeping).foldl State.next boot).g 1 := ⟨by decide +kernel, 0, by decide +kernel⟩
  obtain ⟨x, hx, hr, hl, hpc⟩ : ∃ x ∈ boot.steps (napping ++ oversleeping) [],
      x.g.taskrunning = some 2 ∧ x.g.live 2 = true ∧ (x.g.task 2).pc = .taskdelay 0 := by decide +kernel
  have htwo : Naps x.g 2 := ⟨hl, 0, hpc⟩
  exact ⟨_, _, hrun, hclock, hlast, hone, x, hx, hr, htwo, returns_in_order starts_boot hrun hsteps hclock x hx hr htwo 1 hone⟩

end Libtask.Sched
