/-
  Libtask.Sched.Actions — what the functions do, on the places.

  Few things happen to tasks: one is made ready, woken from a list, queued, gives up the
  processor. Each is a function on states here, and the rules `ok_…` say which of them a
  function of the library comes down to, given that the tasks are where it expects them.
-/

import Libtask.Sched.Machine

namespace Libtask.Sched

open Function (update update_self)

abbrev St := State Glob Places

/-! ## Actions -/

def State.modify (s : St) (f : Glob → Glob) : St := { s with g := f s.g }

def State.setTask (s : St) (t : TaskPtr) (f : Task → Task) : St := s.modify (·.setTask t f)

def State.obs (s : St) (o : Obs) : St := s.modify (·.observe o)

def State.push (s : St) (l : ListRef) (t : TaskPtr) : St := ⟨s.g.observe (.add l t), s.m.add l t⟩

def State.pull (s : St) (l : ListRef) (t : TaskPtr) : St := ⟨s.g.observe (.del l t), s.m.del l t⟩

/-- `t` gets ready. -/
def State.ready (s : St) (t : TaskPtr) : St := (s.setTask t fun x => { x with state := .READY }).push .taskrunqueue t

/-- `t` leaves list `l` and gets ready. -/
def State.wake (s : St) (l : ListRef) (t : TaskPtr) : St := (s.pull l t).ready t

/-- The running `t` gives up the processor, to go on at `pc`. -/
def State.leave (s : St) (t : TaskPtr) (pc : Pc) : St :=
  (s.setTask t fun x => { x with pc := pc }).modify fun g => { g with taskrunning := none }

/-- `t` goes on in the application. -/
def State.back (s : St) (t : TaskPtr) : St := s.setTask t fun x => { x with pc := .app }

/-! ## Rules -/

section
variable {α β : Type} {s : St} {Q : α → St → Prop} {Q' : β → St → Prop} {t u : TaskPtr} {l : ListRef}

theorem ok_bind {m : Lib α} {f : α → Lib β} : Ok (m >>= f) s Q' ↔ Ok m s fun a s' => Ok (f a) s' Q' := by
  refine ⟨fun ⟨b, s'', h, hq⟩ => ?_, Ok.bind⟩
  obtain ⟨a, s', h₁, h₂⟩ := onPlaces_parts h
  exact ⟨a, s', h₁, b, s'', h₂, hq⟩

theorem ok_pure {a : α} : Ok (pure a : Lib α) s Q ↔ Q a s := by
  refine ⟨fun ⟨b, s', h, hq⟩ => ?_, Ok.pure⟩
  obtain ⟨rfl, rfl⟩ := Prod.mk.inj (Except.ok.inj h)
  exact hq

theorem ok_globals {Q : Glob → St → Prop} : Ok globals s Q ↔ Q s.g s := by
  refine ⟨fun ⟨b, s', h, hq⟩ => ?_, fun h => ⟨_, _, rfl, h⟩⟩
  obtain ⟨rfl, rfl⟩ := Prod.mk.inj (Except.ok.inj h)
  exact hq

theorem ok_modify {f : Glob → Glob} {Q : Unit → St → Prop} : Ok (modify f) s Q ↔ Q () (s.modify f) := by
  refine ⟨fun ⟨b, s', h, hq⟩ => ?_, fun h => ⟨_, _, rfl, h⟩⟩
  obtain ⟨rfl, rfl⟩ := Prod.mk.inj (Except.ok.inj h)
  exact hq

theorem ok_setTask {f : Task → Task} {Q : Unit → St → Prop} : Ok (setTask t f) s Q ↔ Q () (s.setTask t f) := ok_modify

theorem ok_observe {o : Obs} {Q : Unit → St → Prop} : Ok (observe o) s Q ↔ Q () (s.obs o) := ok_modify

theorem ok_head {Q : Option TaskPtr → St → Prop} : Ok (head l) s Q ↔ Q (s.m.q l).head? s := by
  refine ⟨fun ⟨b, s', h, hq⟩ => ?_, fun h => ⟨_, _, rfl, h⟩⟩
  obtain ⟨rfl, rfl⟩ := Prod.mk.inj (Except.ok.inj h)
  exact hq

theorem ok_running {Q : TaskPtr → St → Prop} (h : s.g.taskrunning = some t) : Ok running s Q ↔ Q t s := by
  simp only [running, ok_bind, ok_globals, h, ok_pure]

theorem ok_addtask {Q : Unit → St → Prop} (h : s.m.loc t = none) : Ok (addtask l t) s Q ↔ Q () (s.push l t) := by
  have hadd : Ok (Prog.add l t (.pure ()) : Lib Unit) s (fun _ s' => Q () (s'.obs (.add l t))) ↔ Q () (s.push l t) := by
    simp only [Ok, Prog.onPlaces, h, if_true]
    constructor
    · intro h'
      obtain ⟨b, s', he, hq⟩ := h'
      obtain ⟨rfl, rfl⟩ := Prod.mk.inj (Except.ok.inj he)
      exact hq
    · exact fun hq => ⟨_, _, rfl, hq⟩
  simpa only [addtask, ok_bind, ok_observe] using hadd

theorem ok_deltask {Q : Unit → St → Prop} (h : s.m.loc t = some l) : Ok (deltask l t) s Q ↔ Q () (s.pull l t) := by
  have hdel : Ok (Prog.del l t (.pure ()) : Lib Unit) s (fun _ s' => Q () (s'.obs (.del l t))) ↔ Q () (s.pull l t) := by
    simp only [Ok, Prog.onPlaces, h, if_true]
    constructor
    · intro h'
      obtain ⟨b, s', he, hq⟩ := h'
      obtain ⟨rfl, rfl⟩ := Prod.mk.inj (Except.ok.inj he)
      exact hq
    · exact fun hq => ⟨_, _, rfl, hq⟩
  simpa only [deltask, ok_bind, ok_observe] using hdel

theorem ok_taskready {Q : Unit → St → Prop} (h : s.m.loc t = none) (h0 : (s.g.task t).state ≠ .READY) :
    Ok (taskready t) s Q ↔ Q () (s.ready t) := by
  have h' : (s.setTask t fun x => { x with state := .READY }).m.loc t = none := h
  simp only [taskready, ok_bind, ok_globals, h0, if_false, ok_setTask, ok_addtask h']
  rfl

theorem ok_taskready_again {Q : Unit → St → Prop} (h : (s.g.task t).state = .READY) :
    Ok (taskready t) s Q ↔ Q () s := by
  simp only [taskready, ok_bind, ok_globals, h, if_true, ok_pure]

/-- On the links it never fails. -/
theorem taskready_onHeap (t : TaskPtr) (s : State Glob Heap) : ∃ s', (taskready t).onHeap s = .ok ((), s') := by
  show ∃ s', (if (s.g.task t).state = .READY then pure () else do
    setTask t fun x => { x with state := .READY }
    addtask .taskrunqueue t : Lib Unit).onHeap s = .ok ((), s')
  split <;> exact ⟨_, rfl⟩

theorem ok_taskswitch {pc : Pc} {Q : Unit → St → Prop} (h : s.g.taskrunning = some t)
    (h0 : (s.g.task t).state ≠ .EXITING) : Ok (taskswitch pc) s Q ↔ Q () (s.leave t pc) := by
  have h1 : ((s.leave t pc).g.task t).state = (s.g.task t).state := by
    simp [State.leave, State.setTask, State.modify, Glob.setTask]
  have h2 : ((s.leave t pc).g.task t).state ≠ .EXITING := by rw [h1]; exact h0
  simp only [taskswitch, ok_bind, ok_running h, ok_setTask, ok_modify, ok_globals]
  exact (iff_of_eq (congrArg (fun m => Ok m (s.leave t pc) Q) (if_neg h2))).trans ok_pure

/-- A loop that works on `xs`: `c` finds the first of what is left, `b` deals with it. -/
theorem ok_loop {c : Nat → Lib (Option TaskPtr)} {b : TaskPtr → Lib Unit} {P : Nat → List TaskPtr → St → Prop}
    (hc : ∀ i xs s, P i xs s → Ok (c i) s fun o s' => o = xs.head? ∧ s' = s)
    (hb : ∀ i x xs s, P i (x :: xs) s → Ok (b x) s fun _ s' => P (i + 1) xs s') : ∀ (xs : List TaskPtr)
    {fuel i : Nat} {s : St}, P i xs s → xs.length ≤ fuel →
      Ok (loop c b fuel i) s fun n s' => n = i + xs.length ∧ P n [] s' := by
  intro xs
  induction xs with
  | nil =>
    intro fuel i s hp _
    cases fuel <;> simp only [loop, ok_bind] <;> refine (hc i [] s hp).mono ?_ <;> rintro o s' ⟨rfl, rfl⟩ <;>
      exact ok_pure.mpr ⟨rfl, hp⟩
  | cons x xs ih =>
    intro fuel i s hp hf
    cases fuel with
    | zero => cases hf
    | succ fuel =>
      simp only [loop, ok_bind]
      refine (hc i (x :: xs) s hp).mono ?_
      intro o s' h'
      obtain ⟨rfl, rfl⟩ := h'
      refine ok_bind.mpr ((hb i x xs s' hp).mono ?_)
      intro _ s'' hp'
      refine (ih hp' (Nat.le_of_succ_le_succ hf)).mono fun n s3 hn => ⟨?_, hn.2⟩
      rw [hn.1, List.length_cons]
      omega

theorem pull_loc (h : s.m.loc t = some l) : (s.pull l t).m.loc = update s.m.loc t none := Places.del_loc h

theorem push_loc (h : s.m.loc t = none) : (s.push l t).m.loc = update s.m.loc t (some l) := Places.add_loc h

theorem pull_q (h : s.m.loc t = some l) : (s.pull l t).m.q = update s.m.q l ((s.m.q l).erase t) := Places.del_q h

theorem push_q (h : s.m.loc t = none) : (s.push l t).m.q = update s.m.q l (s.m.q l ++ [t]) := Places.add_q h

end

end Libtask.Sched
