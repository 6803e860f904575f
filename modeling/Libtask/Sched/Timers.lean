/-
  Libtask.Sched.Timers — the order of the sleeping list, and the pass of the `fdtask` over it.

  Only `taskdelay` puts a task on the list, and stores its alarm; all else keeps alarms and
  takes tasks off (`Dozes`). So the list is in the order of the alarms in every run
  (`ordered_step`), and the loop over its head finds all that is due (`timers_pass`).

  `timer_order`: what an insertion, a pass over the list and a turn of the `fdtask` do, at every
  state of every run.
-/

import Libtask.Lib.Deadlines
import Libtask.Sched.Closed
import Libtask.Sched.RoundRobin

namespace Libtask.Sched

open Function (update update_self update_of_ne)
open Libtask.Lib Libtask.Lib.Deadlines
open Libtask.Lib.Dll (IsDll)

def Glob.alarm (g : Glob) (t : TaskPtr) : Nat := (g.task t).alarmtime

/-- The sleeping list is in the order of the alarms. -/
def Ordered (s : St) : Prop := InOrder s.g.alarm (s.m.q .sleeping)

/-- Nobody was put to sleep, and no alarm was set. -/
structure Dozes (s s' : St) : Prop where
  alarm : ∀ u, s.g.live u = true → s'.g.alarm u = s.g.alarm u
  sleeping : (s'.m.q .sleeping).Sublist (s.m.q .sleeping)

section
variable {s s' : St} {t u a : TaskPtr} {e : Ev}

/-! ## All but `taskdelay` -/

/-- The same of all tasks, created or not. -/
def Leaves (s s' : St) : Prop := (∀ u, s'.g.alarm u = s.g.alarm u) ∧ (s'.m.q .sleeping).Sublist (s.m.q .sleeping)

theorem alarm_setTask {f : Task → Task} (hf : ∀ x, (f x).alarmtime = x.alarmtime) (g : Glob) (u : TaskPtr) :
    (g.setTask t f).alarm u = g.alarm u := by
  rcases setTask_eq g t u f with he | ⟨-, he⟩ <;> rw [Glob.alarm, he]
  · rfl
  · exact hf _

theorem closed_leaves : Closed Leaves where
  refl _ := ⟨fun _ => rfl, List.Sublist.refl _⟩
  trans h h' := ⟨fun u => (h'.1 u).trans (h.1 u), h'.2.trans h.2⟩
  modify s f hf := ⟨fun u => by rw [Glob.alarm, State.modify, hf.task]; rfl, List.Sublist.refl _⟩
  setTask s t f hf := ⟨alarm_setTask (fun x => (hf x).alarmtime) s.g, List.Sublist.refl _⟩
  add s l t hl ht := by
    refine ⟨fun _ => rfl, ?_⟩
    rw [show (⟨s.g, s.m.add l t⟩ : St).m = s.m.add l t from rfl, Places.add_q ht, update_of_ne (Ne.symm hl)]
  del s l t ht := by
    refine ⟨fun _ => rfl, ?_⟩
    rw [show (⟨s.g, s.m.del l t⟩ : St).m = s.m.del l t from rfl, Places.del_q ht]
    by_cases hl : l = .sleeping
    · subst hl
      rw [update_self]
      exact List.erase_sublist
    · rw [update_of_ne (Ne.symm hl)]
  free s t := by
    refine ⟨fun u => ?_, List.Sublist.refl _⟩
    exact alarm_setTask (f := fun x => { x with alltaskslot := (s.g.task t).alltaskslot }) (fun _ => rfl) s.g u

theorem Dozes.trans {s'' : St} (h : Dozes s s') (h' : Dozes s' s'') (hl : ∀ u, s.g.live u = true → s'.g.live u = true) :
    Dozes s s'' :=
  ⟨fun u hu => (h'.alarm u (hl u hu)).trans (h.alarm u hu), h'.sleeping.trans h.sleeping⟩

theorem Leaves.dozes (h : Leaves s s') : Dozes s s' := ⟨fun u _ => h.1 u, h.2⟩

theorem dozes_create (ha : s.g.live a = false) (fn : StartFn) : Dozes s (s.create fn a) := by
  refine ⟨fun u hu => ?_, List.Sublist.refl _⟩
  have hne : u ≠ a := fun he => by rw [he, ha] at hu; cases hu
  exact congrArg Task.alarmtime (update_of_ne hne _ s.g.task)

theorem ready_sleeping (hu : s.m.loc u = none) : (s.ready u).m.q .sleeping = s.m.q .sleeping := by
  have hu' : (s.setTask u fun x => { x with state := .READY }).m.loc u = none := hu
  rw [State.ready, push_q hu', update_of_ne (show ListRef.sleeping ≠ .taskrunqueue by simp)]
  rfl

theorem leaves_ready (hu : s.m.loc u = none) : Leaves s (s.ready u) := by
  refine ⟨alarm_setTask (f := fun x => { x with state := .READY }) (fun _ => rfl) s.g, ?_⟩
  rw [ready_sleeping hu]

theorem live_asleep (h : Inv s) (hu : u ∈ s.m.q .sleeping) : s.g.live u = true :=
  (h.good u).live ((s.m.mem_iff .sleeping u).mp hu)

theorem Dozes.ordered (h : Dozes s s') (hi : Inv s) (ho : Ordered s) : Ordered s' :=
  (ho.sublist h.sleeping).congr fun u hu => h.alarm u (live_asleep hi (h.sleeping.subset hu))

theorem live_create (fn : StartFn) (hu : s.g.live u = true) : (s.create fn a).g.live u = true := by
  by_cases hne : u = a
  · subst hne
    exact update_self u true s.g.live
  · exact (update_of_ne hne true s.g.live).trans hu

/-- There may be new tasks, and nothing else happened to those that sleep. -/
structure Begun (s s' : St) : Prop extends Dozes s s' where
  live : ∀ u, s.g.live u = true → s'.g.live u = true
  asleep : s'.m.q .sleeping = s.m.q .sleeping
  inv : Inv s'
  running : s'.g.taskrunning = s.g.taskrunning

theorem Begun.trans {s'' : St} (h : Begun s s') (h' : Begun s' s'') : Begun s s'' where
  toDozes := h.toDozes.trans h'.toDozes h.live
  live u := h'.live u ∘ h.live u
  asleep := h'.asleep.trans h.asleep
  inv := h'.inv
  running := h'.running.trans h.running

theorem begun_taskcreate (h : Inv s) (ha : s.g.live a = false) (fn : StartFn) : Begun s ((s.create fn a).ready a) := by
  have hloc : (s.create fn a).m.loc a = none := ((h.good a).dead ha).2.1
  refine ⟨(dozes_create ha fn).trans (leaves_ready hloc).dozes fun u => live_create fn, fun u => live_create fn,
    ready_sleeping hloc, ?_, rfl⟩
  obtain ⟨x, s', -, rfl, hinv⟩ := taskcreate_ok h ha fn
  exact hinv

/-- The history of `malloc` behind `_startfdtask a`. -/
def Glob.begun (g : Glob) (a : TaskPtr) : List (Alloc.Call TaskPtr) :=
  if g.startedfdtask then g.allocs else .malloc a :: g.allocs

theorem startfdtask_begun (h : Inv s) (ha : s.g.startedfdtask = true ∨ s.g.live a = false) :
    Ok (_startfdtask a) s fun _ s' => Begun s s' ∧ s'.g.startedfdtask = true ∧ s'.g.allocs = s.g.begun a := by
  obtain ⟨x, s', hs, -, hst', -⟩ := _startfdtask_ok h ha
  unfold Glob.begun
  refine ⟨x, s', hs, ?_⟩
  change Prog.onPlaces (if s.g.startedfdtask = true then pure () else _) s = _ at hs
  split at hs
  · rename_i hst
    obtain ⟨-, rfl⟩ := Prod.mk.inj (Except.ok.inj hs)
    exact ⟨⟨(closed_leaves.refl s).dozes, fun _ => id, rfl, h, rfl⟩, hst', (if_pos hst).symm⟩
  · rename_i hst
    have ha : s.g.live a = false := ha.resolve_left hst
    obtain ⟨s₁, hs₁⟩ : ∃ s₁, s₁ = s.modify fun g => { g with startedfdtask := true } := ⟨_, rfl⟩
    have hinv : Inv s₁ := hs₁ ▸ inv_modify h fun _ => rfl
    have hbegun : Begun s s₁ := by
      rw [hs₁] at hinv ⊢
      exact ⟨⟨fun _ _ => rfl, List.Sublist.refl _⟩, fun _ => id, rfl, hinv, rfl⟩
    change Prog.onPlaces (taskcreate (.fdtask s.g.pool_loop_fn) a) (s.modify fun g => { g with startedfdtask := true }) = _ at hs
    rw [← hs₁] at hs
    have ha₁ : s₁.g.live a = false := by rw [hs₁]; exact ha
    obtain ⟨rfl, -⟩ := (taskcreate_ok hinv ha₁ (.fdtask s.g.pool_loop_fn)).result hs
    refine ⟨hbegun.trans (begun_taskcreate hinv ha₁ _), hst', ?_⟩
    rw [if_neg hst, hs₁]
    rfl

/-! ## `taskdelay` -/

/-- `taskdelay` is its insertion, but for what starts the `fdtask` and gives up the processor. -/
theorem taskdelay_eq (h : Inv s) (hr : s.g.taskrunning = some t) (ha : s.g.startedfdtask = true ∨ s.g.live a = false) (k : Pc)
    (ms now : Nat) : Ok (taskdelay ms now a k) s fun _ s' => ∃ s₁, Begun s s₁ ∧
      s' = ((s₁.obs (.nsec now)).delay t (u64 (now + ms * 1000000))).leave t k ∧ s'.g.allocs = s.g.begun a := by
  simp only [taskdelay, ok_bind]
  obtain ⟨x, s₁, hs₁, hb, -, hal⟩ := startfdtask_begun h ha
  refine ⟨x, s₁, hs₁, ?_⟩
  have h₂ : Inv (s₁.obs (.nsec now)) := inv_note hb.inv rfl
  have hr₂ : (s₁.obs (.nsec now)).g.taskrunning = some t := hb.running.trans hr
  obtain ⟨-, hz, hloc⟩ := h₂.here hr₂
  simp only [ok_observe, ok_running hr₂, ok_globals, ok_insert hloc (h₂.length_le .sleeping), ok_setTask, ok_modify]
  rw [ok_taskswitch (t := t)]
  · refine ⟨s₁, hb, ?_, hal⟩
    simp only [State.obs, State.setTask, State.modify, Glob.observe, Glob.setTask, State.delay]
    rfl
  · exact hr₂
  · have hz' : (s₁.g.task t).state = .zero := hz
    simp [State.obs, State.setTask, State.modify, Glob.observe, Glob.setTask, hz']

theorem fdwait_eq (h : Inv s) (hr : s.g.taskrunning = some t) (ha : s.g.live a = false) (now : Nat) :
    Ok (fdwait now a) s fun _ s' => ∃ s₁, Begun s s₁ ∧
      s' = ((s₁.obs (.nsec now)).delay t (u64 (now + 30000 * 1000000))).leave t (.fdwait now) ∧
      s'.g.allocs = s.g.begun a := by
  simp only [fdwait, ok_bind]
  obtain ⟨x, s₁, hs₁, hb, hst, hal⟩ := startfdtask_begun h (.inr ha)
  refine ⟨x, s₁, hs₁, (taskdelay_eq hb.inv (hb.running.trans hr) (.inl hst) (.fdwait now) 30000 now).mono ?_⟩
  rintro _ s' ⟨s₂, hb₂, hs', hal₂⟩
  refine ⟨s₂, hb.trans hb₂, hs', ?_⟩
  rw [hal₂, ← hal]
  exact if_pos hst

/-- `t` goes to sleep, in `taskdelay(ms)` or in `fdwait`. -/
def Ev.delays (e : Ev) (ms now : Nat) : Prop := (∃ a, e = .taskdelay ms now a) ∨ ms = 30000 ∧ ∃ a, e = .fdwait now a

theorem delays_eq (h : Inv s) (ht : Runs s.g t) {ms now : Nat} (he : e.delays ms now) (hen : Enabled s.g e)
    (hs : (code e).onPlaces s = .ok ((), s')) : ∃ k s₁, Begun s s₁ ∧
      s' = ((s₁.obs (.nsec now)).delay t (u64 (now + ms * 1000000))).leave t k ∧
        ∃ a, e.malloc = some a ∧ s'.g.allocs = s.g.begun a := by
  rcases he with ⟨a, rfl⟩ | ⟨rfl, a, rfl⟩
  · obtain ⟨s₁, hb, hs', hal⟩ := (taskdelay_eq h ht.2.1 (.inr hen.2) (.taskdelay now) ms now).result hs
    exact ⟨_, s₁, hb, hs', a, rfl, hal⟩
  · obtain ⟨s₁, hb, hs', hal⟩ := (fdwait_eq h ht.2.1 hen.2 now).result hs
    exact ⟨_, s₁, hb, hs', a, rfl, hal⟩

theorem leave_alarm (k : Pc) (u : TaskPtr) : (s.leave t k).g.alarm u = s.g.alarm u :=
  alarm_setTask (f := fun x => { x with pc := k }) (fun _ => rfl) s.g u

theorem delay_alarm (when : Nat) (u : TaskPtr) : (s.delay t when).g.alarm u = update s.g.alarm t when u := by
  by_cases hu : u = t
  · subst hu
    rw [update_self]
    exact congrArg Task.alarmtime (update_self u _ s.g.task)
  · rw [update_of_ne hu]
    exact congrArg Task.alarmtime (update_of_ne hu _ s.g.task)

/-- The caller is put between those whose alarm is earlier and the others. -/
theorem delay_sleeping (ho : Ordered s) (ht : s.m.loc t = none) (when : Nat) : (s.delay t when).m.q .sleeping =
    (s.m.q .sleeping).filter (fun u => s.g.alarm u < when) ++ t :: (s.m.q .sleeping).filter fun u => when ≤ s.g.alarm u := by
  rw [delay_q ht, update_self]
  exact congrArg₂ (fun xs ys => xs ++ t :: ys) (rdropWhile_before ho when) (rtakeWhile_before ho when)

theorem ordered_delay (ho : Ordered s) (ht : s.m.loc t = none) (when : Nat) : Ordered (s.delay t when) := by
  have hne : ∀ u ∈ s.m.q .sleeping, u ≠ t := fun u hu he => s.m.not_mem ht .sleeping (he ▸ hu)
  have halarm : ∀ u ∈ s.m.q .sleeping, (s.delay t when).g.alarm u = s.g.alarm u := fun u hu => by
    rw [delay_alarm, update_of_ne (hne u hu)]
  rw [Ordered, delay_sleeping ho ht]
  refine inOrder_insert (k := when) ?_ (by rw [delay_alarm, update_self]) (fun u hu => ?_) fun u hu => ?_
  · rw [← rdropWhile_before ho, ← rtakeWhile_before ho, List.rdropWhile_append_rtakeWhile]
    exact ho.congr halarm
  · obtain ⟨hu, hlt⟩ := List.mem_filter.mp hu
    rw [halarm u hu]
    exact of_decide_eq_true hlt
  · obtain ⟨hu, hle⟩ := List.mem_filter.mp hu
    rw [halarm u hu]
    exact of_decide_eq_true hle

theorem ordered_delayed {s₁ : St} (hb : Begun s s₁) (hi : Inv s) (ho : Ordered s) (hr : s.g.taskrunning = some t)
    (now when : Nat) (k : Pc) : Ordered (((s₁.obs (.nsec now)).delay t when).leave t k) := by
  have ho₁ : Ordered (s₁.obs (.nsec now)) := hb.ordered hi ho
  exact InOrder.congr (ordered_delay ho₁ (hb.inv.here (hb.running.trans hr)).2.2 when) fun u _ => leave_alarm k u

/-- Nobody oversleeps: the order is kept by every step. -/
theorem ordered_step (h : Inv s) (ho : Ordered s) (hen : Enabled s.g e) (hs : (code e).onPlaces s = .ok ((), s')) :
    Ordered s' := by
  by_cases hm : e.malloc = none
  · exact (across_code closed_leaves hm s s' () hs).dozes.ordered h ho
  · cases e with
    | taskcreateraw a =>
      have ha : s.g.live a = false := hen.2
      have hs' : s' = s.create .app a :=
        (ok_taskcreateraw (Q := fun _ s' => s' = s.create .app a) ((h.good a).dead ha).2.1 rfl).result hs
      rw [hs']
      exact (dozes_create ha .app).ordered h ho
    | taskcreate a =>
      obtain ⟨hs', -⟩ := (taskcreate_ok h hen.2 .app).result hs
      rw [hs']
      exact (begun_taskcreate h hen.2 .app).ordered h ho
    | startfdtask fn arg a =>
      have h₁ : Inv (s.modify fun g => { g with pool_loop_arg := arg, pool_loop_fn := fn }) := inv_modify h fun _ => rfl
      exact ((startfdtask_begun h₁ (.inr hen.2)).result hs).1.ordered h₁ ho
    | taskdelay ms now a =>
      obtain ⟨t, ht⟩ := hen.1
      obtain ⟨k, s₁, hb, rfl, -⟩ := delays_eq h ht (.inl ⟨a, rfl⟩) hen hs
      exact ordered_delayed hb h ho ht.2.1 now _ k
    | fdwait now a =>
      obtain ⟨t, ht⟩ := hen.1
      obtain ⟨k, s₁, hb, rfl, -⟩ := delays_eq h ht (.inr ⟨rfl, a, rfl⟩) hen hs
      exact ordered_delayed hb h ho ht.2.1 now _ k
    | _ => exact absurd rfl hm

/-! ## The pass of the `fdtask` -/

/-- Those on the sleeping list whose time has come at `now`, and the others. -/
def State.due (s : St) (now : Nat) : List TaskPtr := (s.m.q .sleeping).filter fun u => s.g.alarm u ≤ now

def State.later (s : St) (now : Nat) : List TaskPtr := (s.m.q .sleeping).filter fun u => now < s.g.alarm u

theorem due_later (ho : Ordered s) (now : Nat) : s.m.q .sleeping = s.due now ++ s.later now := by
  rw [State.due, State.later, ← takeWhile_due ho, ← dropWhile_due ho, List.takeWhile_append_dropWhile]

/-- All that were due got ready, in order, with `err` in their `udata`; the others sleep on. -/
structure Passed (s : St) (now : Nat) (err : Int) (s' : St) : Prop where
  sleeping : s'.m.q .sleeping = s.later now
  queue : s'.m.q .taskrunqueue = s.m.q .taskrunqueue ++ s.due now
  woken : ∀ u ∈ s.due now, (s'.g.task u).state = .READY ∧ (s'.g.task u).udata = err
  others : ∀ u, u ∉ s.due now → s'.g.task u = s.g.task u

theorem timers_pass (h : Inv s) (ho : Ordered s) (now : Nat) (err : Int) :
    Ok (loop (fun _ => expired now) (fdwake err) s.g.nalltask 0) s fun _ s' =>
      Passed s now err s' ∧ Woke (fun u => (s.g.task u).alarmtime ≤ now) err s s' := by
  have hsplit := due_later ho now
  have hdue : ∀ u ∈ s.due now, s.g.alarm u ≤ now := fun u hu => of_decide_eq_true (List.mem_filter.mp hu).2
  have hlater : ∀ u ∈ s.later now, now < s.g.alarm u := fun u hu => of_decide_eq_true (List.mem_filter.mp hu).2
  have hloop := ok_loop (c := fun _ => expired now) (b := fdwake err)
    (P := fun _ xs s' => Woke (fun u => (s.g.task u).alarmtime ≤ now) err s s' ∧ s'.m.q .sleeping = xs ++ s.later now ∧
      ∃ ys, s.due now = ys ++ xs ∧ s'.m.q .taskrunqueue = s.m.q .taskrunqueue ++ ys)
    (fun i xs s' hP => ?_) (fun i u xs s' hP => ?_) (s.due now) (i := 0)
    (s := s) ⟨woke_refl h, hsplit, [], rfl, by simp⟩ (Nat.le_trans List.filter_sublist.length_le (h.length_le .sleeping))
  · obtain ⟨n, s', hr, -, hw, hq, ys, hys, hrq⟩ := hloop
    rw [List.append_nil] at hys
    rw [← hys] at hrq
    refine ⟨n, s', hr, ⟨hq, hrq, fun u hu => ?_, fun u hu => ?_⟩, hw⟩
    · have hloc : s'.m.loc u = some .taskrunqueue :=
        (s'.m.mem_iff .taskrunqueue u).mp (by rw [hrq]; exact List.mem_append_right _ hu)
      refine ⟨((hw.inv.good u).queued hloc).2.2.1, ?_⟩
      rcases hw.each u with ⟨he, -⟩ | ⟨-, -, -, hx⟩
      · have hsl : s.m.loc u = some .sleeping := (s.m.mem_iff .sleeping u).mp (List.mem_filter.mp hu).1
        cases hloc.symm.trans (he.trans hsl)
      · exact hx
    · rcases hw.each u with ⟨-, ht⟩ | ⟨hle, hs, -, -⟩
      · exact ht
      · exact absurd (List.mem_filter.mpr ⟨(s.m.mem_iff .sleeping u).mpr hs, decide_eq_true hle⟩) hu
  · obtain ⟨hw, hq, ys, hys, -⟩ := hP
    simp only [expired, ok_bind, ok_head, hq]
    cases xs with
    | nil =>
      rw [List.nil_append]
      cases hl : s.later now with
      | nil => exact ok_pure.mpr ⟨rfl, rfl⟩
      | cons v vs =>
        simp only [List.head?_cons, ok_bind, ok_globals, hw.alarm v]
        have hlt : now < (s.g.task v).alarmtime := hlater v (by rw [hl]; exact List.mem_cons_self)
        rw [if_neg (Nat.not_le_of_gt hlt)]
        exact ok_pure.mpr ⟨rfl, rfl⟩
    | cons v vs =>
      simp only [List.cons_append, List.head?_cons, ok_bind, ok_globals, hw.alarm v]
      have hle : (s.g.task v).alarmtime ≤ now := hdue v (by rw [hys]; exact List.mem_append_right _ List.mem_cons_self)
      rw [if_pos hle]
      exact ok_pure.mpr ⟨rfl, rfl⟩
  · obtain ⟨hw, hq, ys, hys, hr⟩ := hP
    have hu : s'.m.loc u = some .sleeping := loc_of_head (by rw [hq]; rfl)
    have hle := hdue u (by rw [hys]; exact List.mem_append_right _ List.mem_cons_self)
    refine ok_fdwake hw.inv hu ⟨hw.trans (woke_fdwake hw.inv hu err hle), ?_, ys ++ [u], ?_, ?_⟩
    · rw [fdwake_m, wake_sleeping hu, hq]
      exact List.erase_cons_head u _
    · rw [hys, List.append_assoc]
      rfl
    · rw [fdwake_m, wake_q hu, update_self, update_of_ne (show ListRef.taskrunqueue ≠ .sleeping by simp), hr,
        List.append_assoc]

/-- The tasks that have events get ready, in the order of the events. -/
theorem events_lists : ∀ {ts : List TaskPtr} {s : St}, Inv s → ts.Nodup → (∀ t ∈ ts, s.m.loc t = some .sleeping) →
    Ok (fdevents ts) s fun _ s' => s'.m.q .sleeping = (s.m.q .sleeping).filter (· ∉ ts) ∧
      s'.m.q .taskrunqueue = s.m.q .taskrunqueue ++ ts := by
  intro ts
  induction ts with
  | nil => exact fun _ _ _ => ok_pure.mpr ⟨by simp, by simp⟩
  | cons u ts ih =>
    intro s h hnd hall
    obtain ⟨hut, hnd⟩ := List.nodup_cons.mp hnd
    have hu := hall u List.mem_cons_self
    have hu' : (s.setTask u fun x => { x with udata := 0 }).m.loc u = some .sleeping := hu
    simp only [fdevents, ok_bind, ok_setTask, ok_deltask hu', ok_observe]
    rw [ok_taskready]
    · refine (ih (s := s.event u) (inv_event h hu) hnd fun t ht => ?_).mono fun _ s' hs => ⟨hs.1.trans ?_, hs.2.trans ?_⟩
      · rw [event_m, wake_loc hu, update_of_ne fun he : t = u => hut (he ▸ ht)]
        exact hall t (List.mem_cons_of_mem _ ht)
      · rw [event_m, wake_sleeping hu, (s.m.nodup .sleeping).erase_eq_filter, List.filter_filter]
        refine List.filter_congr fun x _ => ?_
        by_cases hx : x = u <;> simp [hx]
      · rw [event_m, wake_q hu, update_self, update_of_ne (show ListRef.taskrunqueue ≠ .sleeping by simp), List.append_assoc]
        rfl
    · show ((s.setTask u fun x => { x with udata := 0 }).pull .sleeping u).m.loc u = none
      rw [pull_loc hu', update_self]
    · have hz := h.zero hu (by simp)
      simp [State.obs, State.pull, State.setTask, State.modify, Glob.setTask, Glob.observe, hz]

theorem yield_lists (h : Inv s) (hr : s.g.taskrunning = some t) (pc : BitVec 32 → Pc) : Ok (taskyield pc) s fun _ s' =>
    s'.m.q = update s.m.q .taskrunqueue (s.m.q .taskrunqueue ++ [t]) := by
  obtain ⟨-, hz, hloc⟩ := h.here hr
  have hz : (s.g.task t).state = .zero := hz
  have hloc : s.m.loc t = none := hloc
  have hr' : (s.ready t).g.taskrunning = some t := hr
  simp only [taskyield, ok_bind, ok_globals, ok_running hr]
  rw [ok_taskready hloc (by rw [hz]; simp), ok_taskswitch hr']
  · exact push_q hloc
  · simp [State.ready, State.push, State.setTask, State.modify, Glob.setTask, Glob.observe]

/-- One turn of `fdtask`'s loop, from `epoll_wait` on. -/
theorem turn_lists (h : Inv s) (ho : Ordered s) (hr : s.g.taskrunning = some t) {ts : List TaskPtr} (hnd : ts.Nodup)
    (hreg : ∀ u ∈ ts, Registered s.g u) (v : Option Nat) (now' : Nat) : Ok (fdpolled v (.events ts) now') s fun _ s' =>
      s'.m.q .sleeping = ((s.m.q .sleeping).filter (· ∉ ts)).filter (fun u => now' < s.g.alarm u) ∧
      s'.m.q .taskrunqueue = s.m.q .taskrunqueue ++ ts ++
        ((s.m.q .sleeping).filter (· ∉ ts)).filter (fun u => s.g.alarm u ≤ now') ++ if v = none then [t] else [] := by
  have hall : ∀ u ∈ ts, s.m.loc u = some .sleeping := fun u hu => registered_loc h (hreg u hu)
  simp only [fdpolled, ok_bind]
  obtain ⟨x, s₁, hs₁, hw, -⟩ := fdevents_ok h hnd hall
  obtain ⟨hq, hrq⟩ := (events_lists h hnd hall).result hs₁
  refine ⟨x, s₁, hs₁, ok_observe.mpr (ok_globals.mpr ?_)⟩
  have halarm : s₁.g.alarm = s.g.alarm := funext hw.alarm
  have ho₁ : Ordered (s₁.obs (.nsec now')) := (across_fdevents closed_leaves ts _ _ _ hs₁).dozes.ordered h ho
  refine (timers_pass (s := s₁.obs (.nsec now')) (inv_note hw.inv rfl) ho₁ now' LIBTASK_TIMEOUT).mono fun _ s₂ h₂ => ?_
  obtain ⟨hp, hw₂⟩ := h₂
  have hr₂ : s₂.g.taskrunning = some t := hw₂.running.trans (hw.running.trans hr)
  have hsleep : s₂.m.q .sleeping = ((s.m.q .sleeping).filter (· ∉ ts)).filter fun u => now' < s.g.alarm u := by
    rw [hp.sleeping, ← hq, ← halarm]
    rfl
  have hqueue : s₂.m.q .taskrunqueue = s.m.q .taskrunqueue ++ ts ++
      ((s.m.q .sleeping).filter (· ∉ ts)).filter fun u => s.g.alarm u ≤ now' := by
    rw [hp.queue, ← hq, ← halarm]
    exact congrArg (· ++ _) hrq
  cases v with
  | none =>
    refine (yield_lists hw₂.inv hr₂ (.fdtask none)).mono fun _ s₃ hs₃ => ?_
    rw [hs₃, update_self, update_of_ne (show ListRef.sleeping ≠ .taskrunqueue by simp), hsleep, hqueue]
    exact ⟨rfl, rfl⟩
  | some fn =>
    have hr₃ : (s₂.obs (.callback fn s₂.g.pool_loop_arg)).g.taskrunning = some t := hr₂
    simp only [ok_bind, ok_globals, ok_observe, ok_running hr₃, ok_setTask]
    refine ⟨hsleep, ?_⟩
    rw [if_neg (by simp), List.append_nil]
    exact hqueue

end

/-! ## Runs -/

theorem ordered_reach {s : State Glob Heap} (h : Reach s) : ∃ p, Linked s p ∧ Ordered ⟨s.g, p⟩ := by
  induction h with
  | init rendezl size junk mem hs => exact ⟨Places.empty, ⟨inv_start rendezl junk mem hs, rep_start⟩, List.Pairwise.nil⟩
  | step e _ hen hs ih =>
    obtain ⟨p, hl, ho⟩ := ih
    obtain ⟨p', hr, hl'⟩ := hl.step hen hs
    exact ⟨p', hl', ordered_step hl.inv ho hen hr⟩

/-- `ts` is list `l`. -/
def Listed (s : State Glob Heap) (l : ListRef) (ts : List TaskPtr) : Prop :=
  IsDll s.m.next s.m.prev (s.m.list l).head (s.m.list l).tail ts

/-- The caller is on the list between those with an earlier alarm and the others. -/
structure Inserted (s : State Glob Heap) (t : TaskPtr) (ms now : Nat) (q : List TaskPtr) (s' : State Glob Heap) : Prop where
  split : ∃ as bs, q = as ++ bs ∧ Listed s' .sleeping (as ++ t :: bs) ∧ InOrder s'.g.alarm (as ++ t :: bs)
  fresh : t ∉ q
  alarm : s'.g.alarm t = u64 (now + ms * 1000000)
  others : ∀ u ∈ q, s'.g.alarm u = s.g.alarm u

section
variable {s s' : State Glob Heap} {p : Places} {t : TaskPtr}

theorem inserted (hl : Linked s p) (ho : Ordered ⟨s.g, p⟩) (ht : Runs s.g t) {e : Ev} {ms now : Nat} (he : e.delays ms now)
    (hen : Enabled s.g e) (hs : (code e).onHeap s = .ok ((), s')) : Inserted s t ms now (p.q .sleeping) s' := by
  obtain ⟨p', hr, hl'⟩ := hl.step hen hs
  have ho' : Ordered ⟨s'.g, p'⟩ := ordered_step hl.inv ho hen hr
  obtain ⟨k, s₁, hb, heq, -⟩ := delays_eq hl.inv ht he hen hr
  have hg : s'.g = _ := congrArg (fun x : St => x.g) heq
  have hp : p' = _ := congrArg (fun x : St => x.m) heq
  have hloc : s₁.m.loc t = none := (hb.inv.here (hb.running.trans ht.2.1)).2.2
  have ho₁ : Ordered (s₁.obs (.nsec now)) := hb.ordered hl.inv ho
  have hfresh : t ∉ p.q .sleeping := fun hm => s₁.m.not_mem hloc .sleeping (by rw [hb.asleep]; exact hm)
  have halarm : ∀ u, s'.g.alarm u = update s₁.g.alarm t (u64 (now + ms * 1000000)) u := fun u => by
    rw [hg, leave_alarm, delay_alarm]
    rfl
  have hq : p'.q .sleeping = (s₁.m.q .sleeping).filter (fun u => s₁.g.alarm u < u64 (now + ms * 1000000)) ++
      t :: (s₁.m.q .sleeping).filter fun u => u64 (now + ms * 1000000) ≤ s₁.g.alarm u := by
    rw [hp]
    exact delay_sleeping (s := s₁.obs (.nsec now)) ho₁ hloc _
  refine ⟨⟨_, _, ?_, hq ▸ hl'.rep .sleeping, ?_⟩, hfresh, ?_, fun u hu => ?_⟩
  · have hs₁ : Ordered s₁ := ho₁
    rw [← rdropWhile_before hs₁, ← rtakeWhile_before hs₁]
    exact hb.asleep.symm.trans List.rdropWhile_append_rtakeWhile.symm
  · rw [← hq]
    exact ho'
  · rw [halarm, update_self]
  · rw [halarm, update_of_ne fun he : u = t => hfresh (he ▸ hu)]
    exact hb.alarm u (live_asleep hl.inv hu)

/-- The sleeping list is in the order of the alarms. `taskdelay` puts the caller where it belongs;
    a pass over the timers, and so a turn of the `fdtask`, readies what is due, in order, and
    nothing else. -/
theorem timer_order (h : Reach s) : ∃ q : ListRef → List TaskPtr, (∀ l, Listed s l (q l)) ∧ InOrder s.g.alarm (q .sleeping) ∧
    (∀ t e ms now s', Runs s.g t → e.delays ms now → Enabled s.g e → (code e).onHeap s = .ok ((), s') →
      Inserted s t ms now (q .sleeping) s') ∧
    (∀ now, ∃ n s', (loop (fun _ => expired now) (fdwake LIBTASK_TIMEOUT) s.g.nalltask 0).onHeap s = .ok (n, s') ∧
      Listed s' .sleeping ((q .sleeping).filter fun u => now < s.g.alarm u) ∧
      Listed s' .taskrunqueue (q .taskrunqueue ++ (q .sleeping).filter fun u => s.g.alarm u ≤ now) ∧
      (∀ u ∈ q .sleeping, s.g.alarm u ≤ now → (s'.g.task u).state = .READY ∧ (s'.g.task u).udata = LIBTASK_TIMEOUT) ∧
      ∀ u, u ∉ q .sleeping ∨ now < s.g.alarm u → s'.g.task u = s.g.task u) ∧
    ∀ t v n now ts now' s', s.g.taskrunning = some t → (s.g.task t).pc = .fdtask v n → ¬ 0 < yielded s.g n →
      Enabled s.g (.resume now (.events ts) now') → (code (.resume now (.events ts) now')).onHeap s = .ok ((), s') →
      Listed s' .sleeping (((q .sleeping).filter (· ∉ ts)).filter fun u => now' < s.g.alarm u) ∧
      Listed s' .taskrunqueue (q .taskrunqueue ++ ts ++
        ((q .sleeping).filter (· ∉ ts)).filter (fun u => s.g.alarm u ≤ now') ++ if v = none then [t] else []) := by
  obtain ⟨p, hl, ho⟩ := ordered_reach h
  refine ⟨p.q, hl.rep, ho, fun t e ms now s' ht he hen hs => inserted hl ho ht he hen hs, fun now => ?_,
    fun t v n now ts now' s' hr hpc hy hen hs => ?_⟩
  · obtain ⟨n, s₁, hr, hp, -⟩ := timers_pass hl.inv ho now LIBTASK_TIMEOUT
    obtain ⟨x, hx, hrep⟩ := onPlaces_refines _ hr hl.rep
    have hsl := hrep .sleeping
    have hrq := hrep .taskrunqueue
    rw [hp.sleeping] at hsl
    rw [hp.queue] at hrq
    refine ⟨n, _, hx, hsl, hrq, fun u hu hle => ?_, fun u hu => ?_⟩
    · exact hp.woken u (List.mem_filter.mpr ⟨hu, decide_eq_true hle⟩)
    · refine hp.others u fun hm => ?_
      obtain ⟨hm, hle⟩ := List.mem_filter.mp hm
      have hle : s.g.alarm u ≤ now := of_decide_eq_true hle
      exact hu.elim (· hm) fun hlt => absurd hle (Nat.not_le_of_gt hlt)
  · obtain ⟨p', hr', hl'⟩ := hl.step hen hs
    obtain ⟨-, -, hpoll⟩ := id hen
    obtain ⟨hnd, hreg⟩ := hpoll ts rfl
    have hturn : Ok (code (.resume now (.events ts) now')) ⟨s.g, p⟩ fun _ s' =>
        s'.m.q .sleeping = ((p.q .sleeping).filter (· ∉ ts)).filter (fun u => now' < s.g.alarm u) ∧
        s'.m.q .taskrunqueue = p.q .taskrunqueue ++ ts ++
          ((p.q .sleeping).filter (· ∉ ts)).filter (fun u => s.g.alarm u ≤ now') ++ if v = none then [t] else [] := by
      simp only [code, resume, ok_bind, ok_running (s := ⟨s.g, p⟩) hr, ok_globals, hpc, if_neg hy, fdpoll, ok_head]
      cases (p.q .sleeping).head? with
      | none =>
        simp only [ok_bind, ok_observe]
        exact turn_lists (s := State.obs ⟨s.g, p⟩ _) (inv_note hl.inv rfl) ho hr hnd hreg v now'
      | some u =>
        simp only [ok_bind, ok_observe, ok_globals]
        exact turn_lists (s := State.obs (State.obs ⟨s.g, p⟩ _) _) (inv_note (inv_note hl.inv rfl) rfl) ho hr hnd hreg v now'
    obtain ⟨h1, h2⟩ := hturn.result hr'
    have hsl := hl'.rep .sleeping
    have hrq := hl'.rep .taskrunqueue
    rw [h1] at hsl
    rw [h2] at hrq
    exact ⟨hsl, hrq⟩

end

/-- Task 1 sleeps for 10 ms, and task 2, behind it, for 5 ms. -/
def napping : List Ev :=
  [.taskcreate 1, .taskcreate 2, .taskscheduler, .resume 0 .eintr 0, .taskdelay 10 0 3, .taskscheduler, .resume 0 .eintr 0,
    .taskdelay 5 0 4]

theorem timer_order_napping : ∃ n s', (loop (fun _ => expired 5000000) (fdwake LIBTASK_TIMEOUT)
    (napping.foldl State.next boot).g.nalltask 0).onHeap (napping.foldl State.next boot) = .ok (n, s') ∧
    (s'.g.task 2).state = .READY := by
  have h := (run_boot napping (by decide +kernel)).reach reach_boot
  obtain ⟨q, hq, -, -, hpass, -⟩ := timer_order h
  obtain ⟨n, s', hs, -, -, hready, -⟩ := hpass 5000000
  have hmem : 2 ∈ q .sleeping := List.mem_of_head? ((hq .sleeping).head.symm.trans (by decide +kernel))
  exact ⟨n, s', hs, (hready 2 hmem (by decide +kernel)).1⟩

end Libtask.Sched
