/-
  Libtask.Sched.Misuse — what the library says to calls that are not allowed.

  `unlock`s and `tasksleep` may be called by a task that does not have the lock (`Callable`). In every
  state that the program has come to properly, the library aborts exactly if nobody has the lock, and
  with which text (`aborts_iff`): it does not look who calls, `runlock` looks at nothing, and the other
  checks of its own state never fail.
-/

import Libtask.Sched.RoundRobin

namespace Libtask.Sched

open Function (update update_self update_of_ne)

/-- As `Enabled`, but the caller may not have the lock. -/
def Callable (g : Glob) : Ev → Prop
  | .qunlock _ | .runlock _ | .wunlock _ | .tasksleep _ => ∃ t, Runs g t
  | e => Enabled g e

/-- What is printed before the `abort`. -/
def complaint (g : Glob) : Ev → Option String
  | .qunlock l => if g.owner l = none then some "qunlock: owner=0" else none
  | .wunlock l => if (g.rw l).writer = none then some "wunlock: not locked" else none
  | .tasksleep r => g.rendezl r >>= fun l => if g.owner l = none then some "qunlock: owner=0" else none
  | _ => none

section
variable {s : St} {t : TaskPtr} {l r : Nat}

/-! ## Without the lock -/

theorem qunlock_any (h : Inv s) (hr : s.g.taskrunning = some t) (ho : s.g.owner l ≠ none) : Ok (qunlock l) s fun _ _ => True :=
  ok_qunlock (fun _ hu => h.not_ready hu nofun) hr ho trivial

theorem wunlock_any (h : Inv s) (hr : s.g.taskrunning = some t) (hw : (s.g.rw l).writer ≠ none) :
    Ok (wunlock l) s fun _ _ => True := by
  have hzero : ((s.wdrop l t).g.rw l).readers = 0 := by
    have hn : ((s.wdrop l t).locks.readers l) = (s.locks.rw l).held.length := by
      rw [locks_wdrop, setRw_readers, h.locks.readers l]
    rw [(Lib.RwLock.inv (h.locks.rw l)).excl hw] at hn
    exact hn
  have hstart : Granting (s.wdrop l t) l [] (s.m.q (.rwaiting l)) (s.wdrop l t) :=
    ⟨tasks_wdrop h.toTasks l t, rfl, rfl, eq_setRw rfl (by simp) (fun _ _ => ⟨rfl, rfl⟩) fun _ => rfl⟩
  have hloop := ok_loop (c := fun _ => head (.rwaiting l)) (b := rgrant l)
    (P := fun _ xs s' => ∃ done, Granting (s.wdrop l t) l done xs s')
    (fun i xs s' ⟨done, hg⟩ => ok_head.mpr ⟨by rw [hg.queue], rfl⟩)
    (fun i u xs s' ⟨done, hg⟩ => ok_rgrant hg.tasks (loc_of_head (by rw [hg.queue]; rfl)) ⟨done ++ [u], granting_step hg⟩)
    (s.m.q (.rwaiting l)) (i := 0) ⟨[], hstart⟩ (h.length_le (.rwaiting l))
  simp only [wunlock, ok_bind, ok_globals, if_neg hw, ok_running hr, ok_observe, ok_setRw]
  show Ok (if ((s.wdrop l t).g.rw l).readers ≠ 0 then _ else _) (s.wdrop l t) _
  rw [if_neg (not_not.mpr hzero)]
  refine ok_bind.mpr (ok_globals.mpr (ok_bind.mpr (hloop.mono fun n s' hn => ?_)))
  obtain ⟨-, done, hg⟩ := hn
  simp only [ok_bind, ok_globals]
  split
  · exact ok_wgrant hg.tasks trivial
  · exact ok_pure.mpr trivial

theorem tasksleep_any (h : Inv s) (hr : s.g.taskrunning = some t) (ho : ∀ l, s.g.rendezl r = some l → s.g.owner l ≠ none) :
    Ok (tasksleep r) s fun _ _ => True := by
  have ht : (s.obs (.tasksleep r t)).m.loc t = none := (h.here hr).2.2
  obtain ⟨s₁, hs₁⟩ : ∃ s₁, s₁ = (s.obs (.tasksleep r t)).push (.rendez r) t := ⟨_, rfl⟩
  have hloc : s₁.m.loc = update s.m.loc t (some (.rendez r)) := by
    rw [hs₁]
    exact push_loc ht
  have hg : s₁.g.taskrunning = s.g.taskrunning ∧ s₁.g.task = s.g.task ∧ s₁.g.owner = s.g.owner ∧
      s₁.g.rendezl = s.g.rendezl := by
    rw [hs₁]
    exact ⟨rfl, rfl, rfl, rfl⟩
  obtain ⟨hg1, hg2, hg3, hg4⟩ := hg
  have hr' : s₁.g.taskrunning = some t := hg1.trans hr
  have hawake : (s₁.g.task t).state ≠ .EXITING := by
    rw [hg2]
    exact h.awake hr
  simp only [tasksleep, ok_bind, ok_running hr, ok_observe, ok_addtask ht, ok_globals]
  rw [← hs₁, hg4]
  cases hl : s.g.rendezl r with
  | none =>
    dsimp only
    rw [ok_taskswitch hr' hawake]
    trivial
  | some l =>
    have hloct : s₁.m.loc t ≠ some (.qwaiting l) := by
      rw [hloc, update_self]
      simp
    refine ok_bind.mpr (ok_qunlock (fun u hu => ?_) hr' (by rw [hg3]; exact ho l hl) ?_)
    · have hut : u ≠ t := fun he => hloct (he ▸ hu)
      rw [hloc, update_of_ne hut] at hu
      rw [hg2]
      exact h.not_ready hu (by simp)
    · rw [ok_taskswitch (qrelease_running.trans hr') (by rw [qrelease_state hloct]; exact hawake)]
      trivial

theorem callable_ok (h : Inv s) {e : Ev} (he : Callable s.g e) (hc : complaint s.g e = none) : Ok (code e) s fun _ _ => True := by
  cases e with
  | qunlock l =>
    obtain ⟨t, ht⟩ := he
    exact qunlock_any h ht.2.1 fun ho => nomatch hc.symm.trans (if_pos ho)
  | runlock l =>
    obtain ⟨t, ht⟩ := he
    exact ok_runlock h.toTasks ht.2.1 trivial
  | wunlock l =>
    obtain ⟨t, ht⟩ := he
    exact wunlock_any h ht.2.1 fun ho => nomatch hc.symm.trans (if_pos ho)
  | tasksleep r =>
    obtain ⟨t, ht⟩ := he
    refine tasksleep_any h ht.2.1 fun l hl ho => ?_
    rw [complaint, hl] at hc
    exact nomatch hc.symm.trans (if_pos ho)
  | _ =>
    refine Ok.mono (step_places h ?_) fun _ _ _ => trivial
    exact he

end

/-! ## The complaints -/

theorem qunlock_complains {s : State Glob Heap} {t : TaskPtr} {l : Nat} (hr : s.g.taskrunning = some t)
    (ho : s.g.owner l = none) : (qunlock l).onHeap s = .error "qunlock: owner=0" := by
  have hglob : ∀ {f : Glob → Lib Unit}, (globals >>= f).onHeap s = (f s.g).onHeap s := rfl
  rw [qunlock, onHeap_running hr, hglob, if_pos ho]
  rfl

theorem complains {s : State Glob Heap} {e : Ev} {why : String} (he : Callable s.g e) (hc : complaint s.g e = some why) :
    (code e).onHeap s = .error why := by
  cases e with
  | qunlock l =>
    obtain ⟨t, ht⟩ := he
    obtain ⟨ho, hwhy⟩ := Option.ite_none_right_eq_some.mp hc
    obtain rfl := Option.some.inj hwhy
    exact qunlock_complains ht.2.1 ho
  | wunlock l =>
    obtain ⟨hw, hwhy⟩ := Option.ite_none_right_eq_some.mp hc
    obtain rfl := Option.some.inj hwhy
    have hglob : ∀ {f : Glob → Lib Unit}, (globals >>= f).onHeap s = (f s.g).onHeap s := rfl
    show (wunlock l).onHeap s = _
    rw [wunlock, hglob, if_pos hw]
    rfl
  | tasksleep r =>
    obtain ⟨t, ht⟩ := he
    obtain ⟨l, hl, hc⟩ := Option.bind_eq_some_iff.mp hc
    obtain ⟨ho, hwhy⟩ := Option.ite_none_right_eq_some.mp hc
    obtain rfl := Option.some.inj hwhy
    have hobs : ∀ {o : Obs} {f : Unit → Lib Unit} {s : State Glob Heap},
        (observe o >>= f).onHeap s = (f ()).onHeap { s with g := s.g.observe o } := rfl
    have hadd : ∀ {f : Unit → Lib Unit} {s : State Glob Heap}, (addtask (.rendez r) t >>= f).onHeap s =
        (f ()).onHeap ⟨s.g.observe (.add (.rendez r) t), s.m.addtask (.rendez r) t⟩ := rfl
    have hglob : ∀ {f : Glob → Lib Unit} {s : State Glob Heap}, (globals >>= f).onHeap s = (f s.g).onHeap s := rfl
    -- the caller is on the list of the Rendez when `qunlock` aborts
    let s₁ : State Glob Heap := ⟨(s.g.observe (.tasksleep r t)).observe (.add (.rendez r) t), s.m.addtask (.rendez r) t⟩
    have hunlock : (tasksleep r).onHeap s = (qunlock l >>= fun _ => taskswitch (.tasksleep r)).onHeap s₁ := by
      rw [tasksleep, onHeap_running ht.2.1, hobs, hadd, hglob, show s₁.g.rendezl r = some l from hl]
    show (tasksleep r).onHeap s = _
    rw [hunlock, onHeap_bind, qunlock_complains (s := s₁) ht.2.1 ho]
  | _ => cases hc

/-- Of the calls that tasks make with or without the lock, those fail of which the library complains,
    and it complains when the lock is free. -/
theorem aborts_iff {s : State Glob Heap} (h : Reach s) {e : Ev} (he : Callable s.g e) (why : String) :
    (code e).onHeap s = .error why ↔ complaint s.g e = some why := by
  refine ⟨fun herr => ?_, complains he⟩
  cases hc : complaint s.g e with
  | none =>
    obtain ⟨p, hl⟩ := linked_reach h
    obtain ⟨s', -, hs, -⟩ := ok_onHeap (callable_ok hl.inv he hc) hl.rep
    exact nomatch herr.symm.trans hs
  | some why' =>
    obtain rfl : why' = why := Except.error.inj ((complains he hc).symm.trans herr)
    rfl

/-- Task 1 has the lock, and task 2 runs. -/
def taken : List Ev :=
  [.taskcreate 1, .taskcreate 2, .taskscheduler, .resume 0 .eintr 0, .qlock 0, .taskyield, .taskscheduler, .resume 0 .eintr 0]

/-- Task 1 may not unlock what nobody has locked, and task 2 may unlock what task 1 has. -/
theorem aborts_iff_free : (code (.qunlock 0)).onHeap two = .error "qunlock: owner=0" ∧
    (taken.foldl State.next boot).g.owner 0 = some 1 ∧ Runs (taken.foldl State.next boot).g 2 ∧
    ∀ why, (code (.qunlock 0)).onHeap (taken.foldl State.next boot) ≠ .error why := by
  have h := (run_boot taken (by decide +kernel)).reach reach_boot
  have hone : Runs two.g 1 := by decide +kernel
  have htwo : Runs (taken.foldl State.next boot).g 2 := by decide +kernel
  have howner : (taken.foldl State.next boot).g.owner 0 = some 1 := by decide +kernel
  refine ⟨(aborts_iff reach_two (e := .qunlock 0) ⟨1, hone⟩ _).mpr (by decide +kernel), howner, htwo, fun why herr => ?_⟩
  have hc := (aborts_iff h (e := .qunlock 0) ⟨2, htwo⟩ why).mp herr
  rw [complaint, howner] at hc
  exact nomatch hc

end Libtask.Sched
