/-
  Libtask.Sched.Answers — what calls return, and the histories.

  What is said of a lock, a Rendez or a channel over its history is said of the calls: the entry of a
  lock that was obtained at once is made exactly by a call that returns 1 (`lock_answers`), that of the
  return from `tasksleep` where the task goes on in the application (`sleep_returns`), and that of a
  send by the call that returns the index of the send, or readies whom it is returned to
  (`chanalt_answers`, `chosen_answers`).
-/

import Libtask.Sched.Channels
import Libtask.Sched.Choice

namespace Libtask.Sched

open Function (update update_self)

/-! ## Locks -/

/-- A call of a lock: the entry for a lock that is obtained, the list on which the caller waits and
    where it is then, and whether it may. -/
structure Attempt where
  got : Obs
  list : ListRef
  pc : Pc
  block : Bool

def Ev.attempt (t : TaskPtr) : Ev → Option Attempt
  | .qlock l => some ⟨.qgot l t, .qwaiting l, .qlock l none, true⟩
  | .canqlock l => some ⟨.qgot l t, .qwaiting l, .qlock l none, false⟩
  | .rlock l => some ⟨.rgot l t, .rwaiting l, .rlock l, true⟩
  | .canrlock l => some ⟨.rgot l t, .rwaiting l, .rlock l, false⟩
  | .wlock l => some ⟨.wgot l t, .wwaiting l, .wlock l, true⟩
  | .canwlock l => some ⟨.wgot l t, .wwaiting l, .wlock l, false⟩
  | _ => none

/-- How the call ends. -/
inductive Answered (t : TaskPtr) (x : Attempt) (g g' : Glob) : Prop
  | got : g'.log = .ret t 1 :: x.got :: g.log → Answered t x g g'
  | failed : x.block = false → g'.log = .ret t 0 :: g.log → Answered t x g g'
  | waits : x.block = true → g'.log = .add x.list t :: g.log → (g'.task t).pc = x.pc → Answered t x g g'

section
variable {g : Glob} {t : TaskPtr} {x : Attempt}

theorem taskswitch_log (pc : Pc) : (taskswitch pc).All (fun _ g' => g'.log = g.log) g := by
  unfold taskswitch running
  rw [all_bind]
  refine all_globals ?_
  cases g.taskrunning with
  | none => trivial
  | some t =>
    show Prog.All _ (if ((g.setTask t fun x => { x with pc := pc }).task t).state = .EXITING then _ else pure ()) _
    split <;> rfl

theorem answer_all {m : Lib (Option Int)} {Q : Unit → Glob → Prop} (hg : At t g)
    (h : m.All (fun o g' => (∀ v, o = some v → Q () (g'.observe (.ret t v))) ∧ (o = none → Q () g')) g) : (answer m).All Q g := by
  refine all_running hg fun _ => ?_
  rw [all_bind]
  refine all_mono (fun o g' ho => ?_) h
  cases o with
  | none => exact ho.2 rfl
  | some v => exact ho.1 v rfl

/-- `m` is the body of the call, and returns a value or waits. -/
abbrev Tries (t : TaskPtr) (x : Attempt) (m : Lib (Option Int)) (g : Glob) : Prop :=
  m.All (fun o g' => (∀ v, o = some v → Answered t x g (g'.observe (.ret t v))) ∧ (o = none → Answered t x g g')) g

/-- The end of a call of a lock that is not free. -/
theorem tries_blocked (hg : At t g) : Tries t x (if !x.block then pure (some 0) else do
    addtask x.list t
    taskswitch x.pc
    pure none) g := by
  unfold Tries
  split
  · rename_i hb
    refine ⟨fun v hv => ?_, nofun⟩
    obtain rfl := Option.some.inj hv
    exact .failed (by simpa using hb) rfl
  · rename_i hb
    have hat : At t (g.observe (.add x.list t)) := hg
    show Prog.All _ (taskswitch x.pc >>= fun _ => pure none) (g.observe (.add x.list t))
    rw [all_bind]
    refine all_mono (fun _ g' h => ⟨nofun, fun _ => ?_⟩) (all_and (all_taskswitch_pc hat) (taskswitch_log x.pc))
    exact .waits (by simpa using hb) h.2 h.1

theorem tries_got {f : Glob → Glob} (hf : (f g).log = g.log) : Tries t x (do
    modify f
    observe x.got
    pure (some 1)) g := by
  refine ⟨fun v hv => ?_, nofun⟩
  obtain rfl := Option.some.inj hv
  refine .got ?_
  show Obs.ret t 1 :: x.got :: (f g).log = _
  rw [hf]

theorem qlock_tries (hg : At t g) (l : Nat) (b : Bool) : Tries t ⟨.qgot l t, .qwaiting l, .qlock l none, b⟩ (_qlock l b none) g := by
  refine all_running hg fun _ => all_globals ?_
  split
  · exact tries_got rfl
  · exact tries_blocked hg

theorem rlock_tries (hg : At t g) (l : Nat) (b : Bool) : Tries t ⟨.rgot l t, .rwaiting l, .rlock l, b⟩ (_rlock l b) g := by
  refine all_running hg fun _ => all_globals fun o => ?_
  show Prog.All _ (if (g.rw l).writer = none ∧ o = none then _ else _) g
  split
  · exact tries_got rfl
  · exact tries_blocked hg

theorem wlock_tries (hg : At t g) (l : Nat) (b : Bool) : Tries t ⟨.wgot l t, .wwaiting l, .wlock l, b⟩ (_wlock l b) g := by
  refine all_running hg fun _ => all_globals ?_
  show Prog.All _ (if (g.rw l).writer = none ∧ (g.rw l).readers = 0 then _ else _) g
  split
  · exact tries_got rfl
  · exact tries_blocked hg

/-- A call of a lock returns 1 exactly if its entry says that it got it. -/
theorem lock_answers {s s' : State Glob Heap} {e : Ev} (h : Reach s) (hr : s.g.taskrunning = some t) (hen : Enabled s.g e)
    (he : e.attempt t = some x) (hs : (code e).onHeap s = .ok ((), s')) : Answered t x s.g s'.g := by
  obtain ⟨p, hl⟩ := linked_reach h
  obtain ⟨p', hp, -⟩ := hl.step hen hs
  have hat := at_running hl.inv hr
  have hall : (code e).All (fun _ g' => Answered t x s.g g') s.g := by
    cases e with
    | qlock l =>
      obtain rfl := Option.some.inj he
      exact answer_all hat (qlock_tries hat l true)
    | canqlock l =>
      obtain rfl := Option.some.inj he
      exact answer_all hat (qlock_tries hat l false)
    | rlock l =>
      obtain rfl := Option.some.inj he
      exact answer_all hat (rlock_tries hat l true)
    | canrlock l =>
      obtain rfl := Option.some.inj he
      exact answer_all hat (rlock_tries hat l false)
    | wlock l =>
      obtain rfl := Option.some.inj he
      exact answer_all hat (wlock_tries hat l true)
    | canwlock l =>
      obtain rfl := Option.some.inj he
      exact answer_all hat (wlock_tries hat l false)
    | _ => cases he
  exact all_onPlaces (Q := fun _ g' => Answered t x s.g g') hp hall

/-! ## tasksleep -/

/-- `t`, which was in `tasksleep(r)`, is in the application and has the entry for that, or it waits for the lock. -/
inductive Sleeps (t : TaskPtr) (r : Nat) (g g' : Glob) : Prop
  | returns (log : List Obs) : (g'.task t).pc = .app → g'.log = .slept r t :: log →
      (log = g.log ∨ ∃ l, g.rendezl r = some l ∧ log = .qgot l t :: g.log) → Sleeps t r g g'
  | waits (l : Nat) : g.rendezl r = some l → (g'.task t).pc = .qlock l (some r) → g'.log = .add (.qwaiting l) t :: g.log →
      Sleeps t r g g'

theorem tasksleepreturn_all {r : Nat} (hg : At t g) : (tasksleepreturn r).All (fun _ g' => (g'.task t).pc = .app ∧
    g'.log = .slept r t :: g.log) g := by
  refine all_running hg fun _ => ⟨?_, rfl⟩
  show (((g.observe (.slept r t)).setTask t fun x => { x with pc := .app }).task t).pc = .app
  simp only [Glob.setTask, update_self]

/-- A resumed task returns from `tasksleep` exactly where its entry says so. -/
theorem sleep_returns {s s' : State Glob Heap} {r now now' : Nat} {poll : Poll} (h : Reach s) (hr : s.g.taskrunning = some t)
    (hk : (s.g.task t).pc = .tasksleep r ∨ ∃ l, (s.g.task t).pc = .qlock l (some r)) (hen : Enabled s.g (.resume now poll now'))
    (hs : (code (.resume now poll now')).onHeap s = .ok ((), s')) : Sleeps t r s.g s'.g := by
  obtain ⟨p, hl⟩ := linked_reach h
  obtain ⟨p', hp, -⟩ := hl.step hen hs
  have hat := at_running hl.inv hr
  have hall : (code (.resume now poll now')).All (fun _ g' => Sleeps t r s.g g') s.g := by
    refine all_running hat fun _ => all_globals ?_
    rcases hk with hk | ⟨l, hk⟩
    · simp only [hk]
      refine all_globals ?_
      cases hl : s.g.rendezl r with
      | none => exact all_mono (fun _ g' h => .returns _ h.1 h.2 (.inl rfl)) (tasksleepreturn_all hat)
      | some l =>
        refine (all_bind (_qlock l true (some r)) _).mpr ?_
        refine all_running hat fun _ => all_globals ?_
        split
        · have hgot : At t ({ s.g with owner := update s.g.owner l (some t) }.observe (.qgot l t)) := hat
          show Prog.All _ (tasksleepreturn r) ({ s.g with owner := update s.g.owner l (some t) }.observe (.qgot l t))
          exact all_mono (fun _ g' h => Sleeps.returns _ h.1 h.2 (.inr ⟨l, hl, rfl⟩)) (tasksleepreturn_all hgot)
        · have hadd : At t (s.g.observe (.add (.qwaiting l) t)) := hat
          show Prog.All _ (taskswitch (.qlock l (some r)) >>= fun _ => pure none) (s.g.observe (.add (.qwaiting l) t))
          rw [all_bind]
          exact all_mono (fun _ g' h => .waits l hl h.1 h.2) (all_and (all_taskswitch_pc hadd) (taskswitch_log _))
    · simp only [hk]
      show Prog.All _ (_qlockresume l >>= fun _ => tasksleepreturn r) s.g
      rw [all_bind]
      refine all_running hat fun _ => all_globals ?_
      split
      · trivial
      · show Prog.All _ (tasksleepreturn r) s.g
        exact all_mono (fun _ g' h => Sleeps.returns _ h.1 h.2 (.inl rfl)) (tasksleepreturn_all hat)
  exact all_onPlaces (Q := fun _ g' => Sleeps t r s.g g') hp hall

/-! ## Channels -/

/-- `chanalt(a)` left the channels as in `c`, and returned `ret` or waits. -/
structure Returned (t : TaskPtr) (a : Nat) (c : Chan.St) (ret : Option Int) (g' : Glob) : Prop where
  chan : g'.chan = c
  value : ∀ v, ret = some v → g'.log.head? = some (.ret t v)
  waits : ret = none → (g'.task t).pc = .chanalt a

section
variable {a : Nat} {c : Chan.St} {xs : List Chan.Alt} {r1 r2 : Nat}

theorem returned_all (hg : At t g) (hc : g.chan = c) : ∀ ret : Option Int,
    (∀ v, ret = some v → Returned t a c ret (g.observe (.ret t v))) ∧
    (ret = none → (taskswitch (.chanalt a)).All (fun _ g' => Returned t a c ret g') g) := by
  intro ret
  refine ⟨?_, ?_⟩
  · rintro v rfl
    refine ⟨hc, fun v' hv => ?_, nofun⟩
    obtain rfl := Option.some.inj hv
    rfl
  · rintro rfl
    refine all_mono (fun _ g' h => ?_) (all_and (all_taskswitch_pc hg) (taskswitch_chan (.chanalt a)))
    exact ⟨h.2.trans hc, nofun, fun _ => h.1⟩

theorem chanalt_returned (hg : At t g) {w : Option TaskPtr} {ret : Option Int} (hcall : Chan.call g.chan t a xs r1 r2 = .ok (c, w, ret)) :
    (chanalt a xs r1 r2).All (fun _ g' => Returned t a c ret g') g := by
  unfold chanalt
  refine all_running hg fun _ => all_globals ?_
  rw [hcall]
  have hat : At t { g with chan := c } := hg
  cases w with
  | none =>
    have hend := returned_all (a := a) hat rfl ret
    cases ret with
    | some v => exact hend.1 v rfl
    | none => exact hend.2 rfl
  | some u =>
    refine (all_bind (modify _) _).mpr ((all_bind (taskready u) _).mpr (all_mono ?_
      (all_and (taskready_all u _) (keeps_taskready (K := fun _ => True) u _ hat))))
    intro _ g₁ h₁
    have hend := returned_all (a := a) (h₁.2.1.at hat) h₁.1.1 ret
    cases ret with
    | some v => exact hend.1 v rfl
    | none => exact hend.2 rfl

/-- What `chanalt` returned to `t`, if it did not wait, says what was sent. -/
theorem chanalt_answers {s s' : State Glob Heap} (h : Reach s) (hr : s.g.taskrunning = some t)
    (hen : Enabled s.g (.chanalt a xs r1 r2)) (hs : (code (.chanalt a xs r1 r2)).onHeap s = .ok ((), s')) :
    ∃ w ret, Chan.Sends s.g.chan t xs s'.g.chan w ret ∧ Returned t a s'.g.chan ret s'.g := by
  obtain ⟨p, hl⟩ := linked_reach h
  obtain ⟨p', hp, -⟩ := hl.step hen hs
  obtain ⟨u, hu, hcan⟩ := hen
  obtain rfl : t = u := Option.some.inj (hr.symm.trans hu.2.1)
  have hc := Chan.callable_of_enabled hcan
  obtain ⟨c, w, ret, -, hcall⟩ := Chan.call_outcome hl.inv.chan hc r1 r2
  have hret := all_onPlaces (Q := fun _ (g' : Glob) => Returned t a _ ret g') hp (chanalt_returned (at_running hl.inv hr) hcall)
  have hchan : s'.g.chan = Chan.settled c t a w ret := hret.chan
  exact ⟨w, ret, hchan ▸ Chan.call_sends hl.inv.chan hc r1 r2 hcall, rfl, hret.value, hret.waits⟩

/-- A task that was chosen returns the index of what was sent for it. -/
theorem chosen_answers {s s' : State Glob Heap} {i now now' : Nat} {poll : Poll} (h : Reach s) (hr : s.g.taskrunning = some t)
    (hk : (s.g.task t).pc = .chanalt a) (hi : Chan.chanaltResult s.g.chan a = some i) (hen : Enabled s.g (.resume now poll now'))
    (hs : (code (.resume now poll now')).onHeap s = .ok ((), s')) : s'.g.log = .ret t i :: s.g.log := by
  obtain ⟨p, hl⟩ := linked_reach h
  obtain ⟨p', hp, -⟩ := hl.step hen hs
  have hat := at_running hl.inv hr
  have hall : (code (.resume now poll now')).All (fun _ g' => g'.log = .ret t i :: s.g.log) s.g := by
    refine all_running hat fun _ => all_globals ?_
    simp only [hk]
    refine all_running hat fun _ => all_globals ?_
    rw [show Chan.step s.g.chan (.resume t) = .ok { s.g.chan with wait := update s.g.chan.wait t none } from rfl]
    dsimp only
    rw [show Chan.chanaltResult { s.g.chan with wait := update s.g.chan.wait t none } a = some i from hi]
    exact rfl
  exact all_onPlaces (Q := fun _ (g' : Glob) => g'.log = .ret t i :: s.g.log) hp hall

end

end

end Libtask.Sched
