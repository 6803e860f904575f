/-
  Libtask.Sched.Choice — what a call of `chanalt` does to the tasks and the channels.

  `chooses_one`: from every reachable state, for every array and every `rand`. If something can
  run, the call runs one alternative and returns its index (`Executes`), and each that can run is
  the one for some `rand`. Else it returns -1 and changes nothing (`Refuses`), or the task leaves,
  with its alternatives on their channels (`Blocks`).
-/

import Libtask.Chan.Choice
import Libtask.Sched.RoundRobin

namespace Libtask.Sched

open Function (update update_self)

/-- The call of `t` ran alternative `i` of `a`, and no other, and returned `i` to `t`, which goes on. -/
structure Executes (s : State Glob Heap) (t : TaskPtr) (a : Nat) (xs : List Chan.Alt) (r2 i : Nat) (s' : State Glob Heap) :
    Prop where
  could : Chan.Executable s.g.chan xs i
  exec : ∃ c w, Chan.altexec (Chan.entered s.g.chan t a xs) ⟨a, i⟩ r2 = .ok (c, w) ∧ s'.g.chan = Chan.wake c w
  once : s'.g.chan.ran a = [i]
  ret : s'.g.log.head? = some (.ret t i)
  runs : Runs s'.g t
  idle : s'.g.chan.wait t = none

/-- The call of `t` returned -1, and left what other tasks can see. -/
structure Refuses (s : State Glob Heap) (t : TaskPtr) (a : Nat) (xs : List Chan.Alt) (s' : State Glob Heap) : Prop where
  eq : s' = ⟨{ s.g with chan := Chan.entered s.g.chan t a xs, log := .ret t (-1) :: s.g.log }, s.m⟩
  chan : s'.g.chan.chan = s.g.chan.chan
  mem : s'.g.chan.mem = s.g.chan.mem
  wait : s'.g.chan.wait = s.g.chan.wait ∧ s'.g.chan.woken = s.g.chan.woken

/-- `t` left the processor to wait in `chanalt`; the rest is in `Chan.Queues`. -/
structure Blocks (s : State Glob Heap) (t : TaskPtr) (a : Nat) (xs : List Chan.Alt) (s' : State Glob Heap) : Prop where
  chan : Chan.Queues s.g.chan t a xs s'.g.chan
  eq : s' = ⟨{ s.g with
    chan := s'.g.chan
    taskrunning := none
    task := update s.g.task t { s.g.task t with pc := .chanalt a } }, s.m⟩

section
variable {s : State Glob Heap} {p : Places} {t : TaskPtr} {a : Nat} {xs : List Chan.Alt} {r1 r2 : Nat}

/-- `chanalt`, once it is known what happens to the channels. -/
theorem onHeap_chanalt (hr : s.g.taskrunning = some t) {c : Chan.St} {w : Option TaskPtr} {r : Option Int}
    (hc : Chan.call s.g.chan t a xs r1 r2 = .ok (c, w, r)) : (code (.chanalt a xs r1 r2)).onHeap s = (do
      match w with
      | some u => taskready u
      | none => pure ()
      match r with
      | some v => observe (.ret t v)
      | none => taskswitch (.chanalt a) : Lib Unit).onHeap ⟨{ s.g with chan := c }, s.m⟩ := by
  simp only [code, chanalt]
  have hglob : ∀ f : Glob → Lib Unit, (globals >>= f).onHeap s = (f s.g).onHeap s := fun _ => rfl
  rw [onHeap_running hr, hglob, hc]
  rfl

/-- A task that does not exit gives up the processor. -/
theorem onHeap_taskswitch (hr : s.g.taskrunning = some t) (hst : (s.g.task t).state ≠ .EXITING) (pc : Pc) :
    (taskswitch pc).onHeap s = .ok ((), ⟨{ s.g with
      taskrunning := none
      task := update s.g.task t { s.g.task t with pc := pc } }, s.m⟩) := by
  unfold taskswitch
  rw [onHeap_running hr]
  show Prog.onHeap (if (update s.g.task t { s.g.task t with pc := pc } t).state = .EXITING then _ else pure ()) _ = _
  rw [update_self, if_neg hst]
  rfl

/-- Readying a task leaves the channels, and where tasks go on. -/
theorem taskready_all (u : TaskPtr) (g : Glob) : (taskready u).All (fun _ g' => g'.chan = g.chan ∧
    g'.taskrunning = g.taskrunning ∧ g'.phase = g.phase ∧ ∀ x, (g'.task x).pc = (g.task x).pc) g := by
  show (if (g.task u).state = .READY then pure () else _ : Lib Unit).All _ g
  split
  · exact ⟨rfl, rfl, rfl, fun _ => rfl⟩
  · refine ⟨rfl, rfl, rfl, fun x => ?_⟩
    by_cases hx : x = u
    · subst hx
      simp [Glob.setTask, Glob.observe]
    · simp [Glob.setTask, Glob.observe, hx]

theorem executes (h : Linked s p) (hr : s.g.taskrunning = some t) (hen : Enabled s.g (.chanalt a xs r1 r2)) {i : Nat}
    {c : Chan.St} {w : Option TaskPtr} (hc : Chan.call s.g.chan t a xs r1 r2 = .ok (Chan.wake c w, w, some (i : Int)))
    (hi : Chan.Chose s.g.chan t a xs r2 i c w) {s' : State Glob Heap}
    (hs : (code (.chanalt a xs r1 r2)).onHeap s = .ok ((), s')) : Executes s t a xs r2 i s' := by
  obtain ⟨u, hu, hcall⟩ := hen
  obtain rfl : t = u := Option.some.inj (hr.symm.trans hu.2.1)
  obtain ⟨p', hp, -⟩ := h.step (e := .chanalt a xs r1 r2) ⟨t, hu, hcall⟩ hs
  have hall : (code (.chanalt a xs r1 r2)).All (fun _ g' => g'.chan = Chan.wake c w ∧ g'.log.head? = some (.ret t i) ∧
      Runs g' t) s.g := by
    simp only [code, chanalt]
    refine all_running (at_running h.inv hr) fun _ => all_globals ?_
    rw [hc]
    cases w with
    | none => exact ⟨rfl, rfl, hu.1, hr, hu.2.2⟩
    | some v =>
      refine (all_bind (modify _) _).mpr ((all_bind (taskready v) _).mpr (all_mono ?_ (taskready_all v _)))
      intro _ g' hg'
      obtain ⟨h1, h2, h3, h4⟩ := hg'
      exact ⟨h1, rfl, h3.trans hu.1, h2.trans hr, (h4 t).trans hu.2.2⟩
  obtain ⟨h1, h2, h3⟩ := all_onPlaces hp hall
  have h1 : s'.g.chan = Chan.wake c w := h1
  refine ⟨hi.could, ⟨c, w, hi.exec, h1⟩, ?_, h2, h3, ?_⟩
  · rw [h1]
    cases w <;> exact hi.ran
  · rw [h1]
    exact hi.idle hcall.1

theorem chooses_one (h : Reach s) (hr : s.g.taskrunning = some t) (hen : Enabled s.g (.chanalt a xs r1 r2)) :
    ∃ s', (code (.chanalt a xs r1 r2)).onHeap s = .ok ((), s') ∧
    ((∃ i, Chan.Executable s.g.chan xs i) → (∃ i, Executes s t a xs r2 i s') ∧
      ∀ i, Chan.Executable s.g.chan xs i → ∃ r < Chan.ncan s.g.chan xs, ∃ s',
        (code (.chanalt a xs r r2)).onHeap s = .ok ((), s') ∧ Executes s t a xs r2 i s') ∧
    ((∀ i, ¬ Chan.Executable s.g.chan xs i) → ∀ x, xs[Chan.altlen xs]? = some x →
      (x.op = .CHANNOBLK → Refuses s t a xs s') ∧ (x.op = .CHANEND → Blocks s t a xs s')) := by
  obtain ⟨p, hl⟩ := linked_reach h
  obtain ⟨s', hs⟩ := step_ok h hen
  obtain ⟨u, hu, hcall⟩ := id hen
  obtain rfl : t = u := Option.some.inj (hr.symm.trans hu.2.1)
  have hc : Chan.Callable s.g.chan t a xs := Chan.callable_of_enabled hcall
  have hen' : ∀ r, Enabled s.g (.chanalt a xs r r2) := fun r => ⟨t, hu, hcall⟩
  refine ⟨s', hs, fun hex => ⟨?_, fun i hi => ?_⟩, fun hno x hx => ⟨fun hop => ?_, fun hop => ?_⟩⟩
  · obtain ⟨i, c, w, hcall', hi⟩ := Chan.call_chooses hl.inv.chan hc hex r1 r2
    exact ⟨i, executes hl hr hen hcall' hi hs⟩
  · obtain ⟨r, hlt, c, w, hcall', hi'⟩ := Chan.call_can_choose hl.inv.chan hc hi r2
    obtain ⟨s₁, hs₁⟩ := step_ok h (hen' r)
    exact ⟨r, hlt, s₁, hs₁, executes hl hr (hen' r) hcall' hi' hs₁⟩
  · rw [onHeap_chanalt hr (Chan.call_refuses hc hno hx hop r1 r2)] at hs
    obtain ⟨-, rfl⟩ := Prod.mk.inj (Except.ok.inj hs)
    exact ⟨rfl, rfl, rfl, rfl, rfl⟩
  · obtain ⟨c, hcall', hq⟩ := Chan.call_queues hl.inv.chan hc hno hx hop r1 r2
    rw [onHeap_chanalt hr hcall'] at hs
    have hleave := onHeap_taskswitch (s := ⟨{ s.g with chan := c }, s.m⟩) hr (hl.inv.awake hr) (.chanalt a)
    rw [show _ = _ from hleave] at hs
    obtain ⟨-, rfl⟩ := Prod.mk.inj (Except.ok.inj hs)
    exact ⟨hq, rfl⟩

end

/-- Task 1 runs, and channels hold one byte. -/
def boxes : State Glob Heap := [Ev.taskcreate 1, .taskscheduler, .resume 0 .eintr 0].foldl State.next
  ⟨start (fun _ => none) (Chan.start (fun _ => (1, 1)) (fun _ _ => 0) fun _ => 0), boot.m⟩

theorem reach_boxes : Reach boxes := by
  have h1 := reach_next (.init (fun _ => none) (fun _ => (1, 1)) (fun _ _ => 0) (fun _ => 0) (by simp [Chan.SizesOk]))
    (e := .taskcreate 1) ⟨.inl rfl, rfl⟩
  have h2 := reach_next h1 (e := .taskscheduler) ⟨by decide +kernel, by decide +kernel⟩
  exact reach_next h2 (e := .resume 0 .eintr 0) ⟨by decide +kernel, ⟨1, by decide +kernel⟩, fun ts he => by cases he⟩

/-- A send and a receive on channel 0. -/
def both : List Chan.Alt :=
  [⟨0, none, .CHANRCV, none, none⟩, ⟨0, none, .CHANSND, none, none⟩, ⟨0, none, .CHANEND, none, none⟩]

theorem chooses_one_both : ∃ s', (code (.chanalt 0 both 7 0)).onHeap boxes = .ok ((), s') ∧ ∃ i, Executes boxes 1 0 both 0 i s' := by
  have hen : Enabled boxes.g (.chanalt 0 both 7 0) := ⟨1, by decide +kernel, rfl, nofun, by decide⟩
  obtain ⟨s', hs, hcan, -⟩ := chooses_one (t := 1) reach_boxes (by decide +kernel) hen
  exact ⟨s', hs, (hcan ⟨1, by decide, _, rfl, by decide +kernel⟩).1⟩

end Libtask.Sched
