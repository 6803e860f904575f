/-
  Libtask.Sched.Monitors — RWLock, QLock and Rendez in every run of the program.

  Each lock of a reachable state is as a run of Libtask.Lib.RwLock or Libtask.Lib.Mutex leaves
  it, and who is in a blocking call is on the list of the call, or was taken off it once.
  Hence, for every run of the program on the links:
  - `rwlock_safe`: `readers` and `writer` are the holders, also those that did not resume yet,
    and a writer is alone. A blocked call goes on only when it was granted the lock.
  - `rwlock_serves`: who waits, waits for a holder.
  - `rwlock_bypass`: nobody gets the lock at once while a writer waits, writers get it in
    their order, and a waiting reader sees at most one writer get it.
  - `qlock_handoff`: the owner is the one holder, and the lock is passed on in the order of
    the calls.
  - `rendez_monitor`: `tasksleep` is on the list before anybody else can have the lock, and
    returns with the lock after one wake-up; a wake-up readies the first, or all.
-/

import Libtask.Sched.Placement

namespace Libtask.Sched

open Function (update)
open Libtask.Lib
open Libtask.Lib.History (law_iff select)
open Libtask.Lib.Dll (IsDll)

/-! ## Reading the invariant on the links -/

theorem represented {s : State Glob Heap} (h : Reach s) : ∃ p, Inv ⟨s.g, p⟩ ∧ Rep s.m p := by
  obtain ⟨p, hp, hrep⟩ := linked h
  exact ⟨p, inv hp, hrep⟩

theorem head_eq_none {x : Heap} {p : Places} (hrep : Rep x p) (l : ListRef) : (x.list l).head = none ↔ p.q l = [] := by
  rw [(hrep l).head, List.head?_eq_none_iff]

/-- `t` runs or is ready: if it was blocked, it is so no longer. -/
def Unblocked (g : Glob) (t : TaskPtr) : Prop := g.taskrunning = some t ∨ (g.task t).state = .READY

section
variable {s : St} {t : TaskPtr} {l : ListRef}

theorem Inv.off (h : Inv s) (hu : Unblocked s.g t) (hl : l ≠ .taskrunqueue) : t ∉ s.m.q l := by
  intro hm
  obtain ⟨-, hr, hz, -⟩ := (h.good t).resting ((s.m.mem_iff l t).mp hm) hl
  rcases hu with hu | hu
  · exact of_decide_eq_false hr hu
  · exact nomatch hu.symm.trans hz

/-- Who was blocked and is so no longer was taken off the list once since it went there. -/
theorem Inv.released (h : Inv s) (hu : Unblocked s.g t) (hk : home (s.pc t) = some l) (hl : l ≠ .taskrunqueue) :
    delsSince l t s.g.log = 1 :=
  (h.base.moves l t).2 (fun he => h.off hu hl ((s.m.mem_iff l t).mpr he)) ((h.base.asked t).1 l hk)

end

/-! ## RWLock -/

/-- Task 1 has the lock for reading and runs, task 2 waits for writing. -/
theorem reach_queued : ∃ s, Reach s ∧ Runs s.g 1 ∧ 1 ∈ RwLock.readers (s.g.rwlog 0) ∧
    (s.m.list (.wwaiting 0)).head = some 2 ∧ ((s.next (.runlock 0)).g.rw 0).writer = some 2 ∧
    Unblocked (s.next (.runlock 0)).g 2 ∧ ((s.next (.runlock 0)).g.task 2).pc = .wlock 0 := by
  have h1 := reach_next reach_two (e := .rlock 0) ⟨1, by decide +kernel⟩
  have h2 := reach_next h1 (e := .taskyield) ⟨1, by decide +kernel⟩
  have h3 := reach_next h2 (e := .taskscheduler) ⟨by decide +kernel, by decide +kernel⟩
  have h4 := reach_next h3 (e := .resume 0 .eintr 0) ⟨by decide +kernel, ⟨2, by decide +kernel⟩, nofun⟩
  have h5 := reach_next h4 (e := .wlock 0) ⟨2, by decide +kernel⟩
  have h6 := reach_next h5 (e := .taskscheduler) ⟨by decide +kernel, by decide +kernel⟩
  have h7 := reach_next h6 (e := .resume 0 .eintr 0) ⟨by decide +kernel, ⟨1, by decide +kernel⟩, nofun⟩
  exact ⟨_, h7, by decide +kernel, by decide +kernel, by decide +kernel, by decide +kernel, Or.inr (by decide +kernel),
    by decide +kernel⟩

theorem rwlock_safe {s : State Glob Heap} (h : Reach s) (l : Nat) :
    (s.g.rw l).readers = (RwLock.readers (s.g.rwlog l)).length ∧
    RwLock.writers (s.g.rwlog l) = (s.g.rw l).writer.toList ∧
    ((s.g.rw l).writer ≠ none → RwLock.readers (s.g.rwlog l) = []) ∧
    (∀ t, Unblocked s.g t → (s.g.task t).pc = .rlock l →
      t ∈ RwLock.readers (s.g.rwlog l) ∧ delsSince (.rwaiting l) t s.g.log = 1) ∧
    (∀ t, Unblocked s.g t → (s.g.task t).pc = .wlock l →
      (s.g.rw l).writer = some t ∧ delsSince (.wwaiting l) t s.g.log = 1) ∧
    ∀ e, Enabled s.g e → ∃ s', (code e).onHeap s = .ok ((), s') := by
  obtain ⟨p, hi, -⟩ := represented h
  obtain ⟨-, hw, hx⟩ := RwLock.safe (hi.locks.rw l)
  refine ⟨hi.locks.readers l, hw, hx, fun t hu hk => ⟨?_, ?_⟩, fun t hu hk => ⟨?_, ?_⟩, fun e => step_ok h⟩
  · exact (hi.locks.of_pc hk).resolve_left (hi.off (l := .rwaiting l) hu nofun)
  · exact hi.released hu (by rw [show (⟨s.g, p⟩ : St).pc t = .rlock l from hk]; rfl) nofun
  · exact (hi.locks.of_pc hk).resolve_left (hi.off (l := .wwaiting l) hu nofun)
  · exact hi.released hu (by rw [show (⟨s.g, p⟩ : St).pc t = .wlock l from hk]; rfl) nofun

theorem rwlock_safe_granted : ∃ s, Reach s ∧ RwLock.writers (s.g.rwlog 0) = [2] ∧ RwLock.readers (s.g.rwlog 0) = [] ∧
    delsSince (.wwaiting 0) 2 s.g.log = 1 := by
  obtain ⟨s, h, hr, hm, -, hw, hu, hk⟩ := reach_queued
  have h' := reach_next h (e := .runlock 0) ⟨1, hr, hm⟩
  obtain ⟨-, h2, h3, -, h5, -⟩ := rwlock_safe h' 0
  exact ⟨_, h', by rw [h2, hw]; rfl, h3 (by rw [hw]; nofun), (h5 2 hu hk).2⟩

theorem rwlock_serves {s : State Glob Heap} (h : Reach s) (l : Nat) :
    ((s.m.list (.wwaiting l)).head ≠ none → (s.g.rw l).writer ≠ none ∨ 0 < (s.g.rw l).readers) ∧
    ((s.m.list (.rwaiting l)).head ≠ none → (s.g.rw l).writer ≠ none ∨ (s.m.list (.wwaiting l)).head ≠ none) ∧
    (RwLock.readers (s.g.rwlog l) = [] → RwLock.writers (s.g.rwlog l) = [] →
      (s.m.list (.wwaiting l)).head = none ∧ (s.m.list (.rwaiting l)).head = none) := by
  obtain ⟨p, hi, hrep⟩ := represented h
  have hr : (s.g.rw l).readers = (RwLock.readers (s.g.rwlog l)).length := hi.locks.readers l
  have hw : RwLock.writers (s.g.rwlog l) = (s.g.rw l).writer.toList := (RwLock.safe (hi.locks.rw l)).2.1
  obtain ⟨h1, h2⟩ := RwLock.not_stranded (hi.locks.rw l)
  simp only [ne_eq, head_eq_none hrep]
  refine ⟨fun hq => (h1 hq).imp_right ?_, h2, ?_⟩
  · intro hne
    have := List.length_pos_iff.mpr hne
    rw [hr]
    exact Int.natCast_pos.mpr this
  · intro hrd hwr
    rw [hwr] at hw
    exact (RwLock.inv (hi.locks.rw l)).empty (Option.toList_eq_nil_iff.mp hw.symm) hrd

theorem rwlock_serves_queued : ∃ s, Reach s ∧ ((s.g.rw 0).writer ≠ none ∨ 0 < (s.g.rw 0).readers) := by
  obtain ⟨s, h, -, -, hq, -⟩ := reach_queued
  exact ⟨s, h, (rwlock_serves h 0).1 (by rw [hq]; nofun)⟩

section
variable {s : St} {t : TaskPtr} {l : Nat}

theorem rwlog_block {x : ListRef} {e : RwLock.Ev TaskPtr} (h : rwEv l (.add x t) = some e) (k : Pc) :
    ((s.push x t).leave t k).g.rwlog l = e :: s.g.rwlog l := by
  simp [State.leave, State.setTask, State.modify, Glob.setTask, State.push, Glob.observe, Glob.rwlog, h]

/-- With a writer in the queue, none of the calls gets the lock at once. -/
theorem rlock_waits (h : Inv s) (hr : s.g.taskrunning = some t) (hq : s.m.q (.wwaiting l) ≠ []) (b : Bool) :
    Ok (answer (_rlock l b)) s fun _ s' => RwLock.readers (s'.g.rwlog l) = RwLock.readers (s.g.rwlog l) ∧
      RwLock.writers (s'.g.rwlog l) = RwLock.writers (s.g.rwlog l) := by
  simp only [answer, ok_bind, ok_running hr]
  refine ok_rlock h.toTasks hr (fun _ he => absurd he hq) (fun _ => ok_observe.mpr ⟨rfl, rfl⟩) fun _ => ok_pure.mpr ?_
  have he : rwEv l (.add (.rwaiting l) t) = some (.rwait t) := if_pos rfl
  rw [rwlog_block he]
  exact ⟨rfl, rfl⟩

theorem wlock_waits (h : Inv s) (hr : s.g.taskrunning = some t) (hq : s.m.q (.wwaiting l) ≠ []) (b : Bool) :
    Ok (answer (_wlock l b)) s fun _ s' => RwLock.readers (s'.g.rwlog l) = RwLock.readers (s.g.rwlog l) ∧
      RwLock.writers (s'.g.rwlog l) = RwLock.writers (s.g.rwlog l) := by
  simp only [answer, ok_bind, ok_running hr]
  refine ok_wlock h.toTasks hr ?_ (fun _ => ok_observe.mpr ⟨rfl, rfl⟩) fun _ => ok_pure.mpr ?_
  · -- the writers in the queue wait for somebody
    intro hw hn
    rcases (RwLock.not_stranded (h.locks.rw l)).1 hq with hne | hne
    · exact absurd hw hne
    · exact absurd ((readers_zero h).mp hn) hne
  · have he : rwEv l (.add (.wwaiting l) t) = some (.wwait t) := if_pos rfl
    rw [rwlog_block he]
    exact ⟨rfl, rfl⟩

end

theorem rwlock_bypass {s : State Glob Heap} (h : Reach s) (l : Nat) :
    (∀ after t before, s.g.rwlog l = after ++ .rgot t :: before ∨ s.g.rwlog l = after ++ .wgot t :: before →
      select RwLock.Ev.wgranted before = select RwLock.Ev.wwaited before) ∧
    (∀ e ∈ [Ev.rlock l, .canrlock l, .wlock l, .canwlock l], Enabled s.g e → (s.m.list (.wwaiting l)).head ≠ none →
      ∃ s', (code e).onHeap s = .ok ((), s') ∧ RwLock.readers (s'.g.rwlog l) = RwLock.readers (s.g.rwlog l) ∧
        RwLock.writers (s'.g.rwlog l) = RwLock.writers (s.g.rwlog l)) ∧
    (∃ ws, IsDll s.m.next s.m.prev (s.m.list (.wwaiting l)).head (s.m.list (.wwaiting l)).tail ws ∧
      select RwLock.Ev.wwaited (s.g.rwlog l) = select RwLock.Ev.wgranted (s.g.rwlog l) ++ ws) ∧
    (∀ after t before, s.g.rwlog l = after ++ .rgrant t :: before →
      .rwait t ∈ before ∧ RwLock.bypasses t before ≤ 1) ∧
    ∃ rs, IsDll s.m.next s.m.prev (s.m.list (.rwaiting l)).head (s.m.list (.rwaiting l)).tail rs ∧
      ∀ t ∈ rs, RwLock.bypasses t (s.g.rwlog l) ≤ 1 := by
  obtain ⟨p, hi, hrep⟩ := represented h
  have hpolite := law_iff.mp (RwLock.polite (hi.locks.rw l))
  obtain ⟨hbound, hwait⟩ := RwLock.bypassed_once (hi.locks.rw l)
  refine ⟨?_, ?_,
    ⟨_, hrep (.wwaiting l), RwLock.fifo (hi.locks.rw l)⟩, fun after t before hl => law_iff.mp hbound after _ before hl,
    ⟨_, hrep (.rwaiting l), hwait⟩⟩
  · intro after t before hl
    rcases hl with hl | hl
    · exact hpolite after _ before hl
    · exact hpolite after _ before hl
  · intro e he hen hne
    have hq : p.q (.wwaiting l) ≠ [] := (head_eq_none hrep _).not.mp hne
    have hok : Ok (code e) ⟨s.g, p⟩ fun _ s' => RwLock.readers (s'.g.rwlog l) = RwLock.readers (s.g.rwlog l) ∧
        RwLock.writers (s'.g.rwlog l) = RwLock.writers (s.g.rwlog l) := by
      simp only [List.mem_cons, List.not_mem_nil, or_false] at he
      rcases he with rfl | rfl | rfl | rfl <;> obtain ⟨t, ht⟩ := hen
      · exact rlock_waits hi ht.2.1 hq true
      · exact rlock_waits hi ht.2.1 hq false
      · exact wlock_waits hi ht.2.1 hq true
      · exact wlock_waits hi ht.2.1 hq false
    obtain ⟨s', p', hs, -, hq'⟩ := ok_onHeap hok hrep
    exact ⟨s', hs, hq'⟩

theorem rwlock_bypass_queued : ∃ s s', Reach s ∧ (code (.canrlock 0)).onHeap s = .ok ((), s') ∧
    RwLock.readers (s'.g.rwlog 0) = RwLock.readers (s.g.rwlog 0) := by
  obtain ⟨s, h, hr, -, hq, -⟩ := reach_queued
  obtain ⟨s', hs, hrd, -⟩ := (rwlock_bypass h 0).2.1 (.canrlock 0) (by simp) ⟨1, hr⟩ (by rw [hq]; nofun)
  exact ⟨s, s', h, hs, hrd⟩

/-! ## QLock -/

theorem qlock_handoff {s : State Glob Heap} (h : Reach s) (l : Nat) :
    Mutex.holders (s.g.qlog l) = (s.g.owner l).toList ∧
    (s.g.owner l = none → (s.m.list (.qwaiting l)).head = none) ∧
    (∃ ts, IsDll s.m.next s.m.prev (s.m.list (.qwaiting l)).head (s.m.list (.qwaiting l)).tail ts ∧
      select Mutex.Ev.waited (s.g.qlog l) = select Mutex.Ev.granted (s.g.qlog l) ++ ts) ∧
    (∀ after t before, s.g.qlog l = after ++ .got t :: before →
      select Mutex.Ev.granted before = select Mutex.Ev.waited before) ∧
    (∀ t r, Unblocked s.g t → (s.g.task t).pc = .qlock l r →
      s.g.owner l = some t ∧ delsSince (.qwaiting l) t s.g.log = 1) ∧
    ∀ e, Enabled s.g e → ∃ s', (code e).onHeap s = .ok ((), s') := by
  obtain ⟨p, hi, hrep⟩ := represented h
  refine ⟨Mutex.one_holder (hi.locks.q l), ?_, ⟨_, hrep (.qwaiting l), Mutex.fifo (hi.locks.q l)⟩,
    fun after t before hl => law_iff.mp (Mutex.no_overtaking (hi.locks.q l)) after _ before hl,
    fun t r hu hk => ⟨?_, ?_⟩, fun e => step_ok h⟩
  · intro ho
    exact (head_eq_none hrep _).mpr (Mutex.no_idle_wait (hi.locks.q l) ho)
  · exact (hi.locks.of_pc hk).resolve_left (hi.off (l := .qwaiting l) hu nofun)
  · exact hi.released hu (by rw [show (⟨s.g, p⟩ : St).pc t = .qlock l r from hk]; rfl) nofun

/-- Task 1 released the lock to task 2, which did not resume yet. -/
theorem reach_handed : ∃ s, Reach s ∧ s.g.owner 0 = some 2 ∧ Unblocked s.g 2 ∧ (s.g.task 2).pc = .qlock 0 none := by
  have h1 := reach_next reach_waiting (e := .taskscheduler) ⟨by decide +kernel, by decide +kernel⟩
  have h2 := reach_next h1 (e := .resume 0 .eintr 0) ⟨by decide +kernel, ⟨1, by decide +kernel⟩, nofun⟩
  have h3 := reach_next h2 (e := .qunlock 0) ⟨1, by decide +kernel, by decide +kernel⟩
  exact ⟨_, h3, by decide +kernel, Or.inr (by decide +kernel), by decide +kernel⟩

theorem qlock_handoff_handed : ∃ s, Reach s ∧ Mutex.holders (s.g.qlog 0) = [2] ∧ delsSince (.qwaiting 0) 2 s.g.log = 1 := by
  obtain ⟨s, h, ho, hu, hk⟩ := reach_handed
  obtain ⟨h1, -, -, -, h5, -⟩ := qlock_handoff h 0
  exact ⟨s, h, by rw [h1, ho]; rfl, (h5 2 none hu hk).2⟩

/-! ## Rendez -/

/-- A wake-up by `t` took `us` from the front of `r`'s list, where the lists were `q`, made
    them ready in their order, and returned their number. -/
structure Readied (q : ListRef → List TaskPtr) (r : Nat) (t : TaskPtr) (us : List TaskPtr) (s' : State Glob Heap) :
    Prop where
  lists : ∀ l, IsDll s'.m.next s'.m.prev (s'.m.list l).head (s'.m.list l).tail
    (update (update q (.rendez r) ((q (.rendez r)).drop us.length)) .taskrunqueue (q .taskrunqueue ++ us) l)
  value : s'.g.log.head? = some (.ret t us.length)

theorem wakeup_readies {s : State Glob Heap} {p : Places} (hi : Inv ⟨s.g, p⟩) (hrep : Rep s.m p) {t : TaskPtr}
    (hr : s.g.taskrunning = some t) (r : Nat) (all : Bool) :
    ∃ s', (wakeup r all).onHeap s = .ok ((), s') ∧ Readied p.q r t (woken all (p.q (.rendez r))) s' := by
  have hok : Ok (wakeup r all) ⟨s.g, p⟩ fun _ s' =>
      s'.m.q = update (update p.q (.rendez r) ((p.q (.rendez r)).drop (woken all (p.q (.rendez r))).length))
        .taskrunqueue (p.q .taskrunqueue ++ woken all (p.q (.rendez r))) ∧
      s'.g.log.head? = some (.ret t (woken all (p.q (.rendez r))).length) := by
    have hr' : (⟨s.g, p⟩ : St).g.taskrunning = some t := hr
    simp only [wakeup, ok_bind, ok_running hr']
    refine (taskwakeup_ok hi all).mono ?_
    intro n s' h'
    obtain ⟨hn, hw⟩ := h'
    refine ok_observe.mpr ⟨?_, ?_⟩
    · have htake := List.prefix_iff_eq_take.mp (woken_initial all (p.q (.rendez r)))
      show s'.m.q = _
      rw [hw.q, hn, ← htake]
    · rw [hn]
      rfl
  obtain ⟨s', p', hs, hrep', hq, hv⟩ := ok_onHeap hok hrep
  exact ⟨s', hs, fun l => hq ▸ hrep' l, hv⟩

theorem rendez_monitor {s : State Glob Heap} (h : Reach s) :
    (∀ after o r t before, s.g.log = after ++ o :: .tasksleep r t :: before → o = .add (.rendez r) t) ∧
    (∀ r t, s.g.log.head? ≠ some (.tasksleep r t)) ∧
    (∀ after r t before, s.g.log = after ++ .tasksleep r t :: before →
      ∀ l, s.g.rendezl r = some l → Mutex.holders (before.filterMap (qEv l)) = [t]) ∧
    (∀ after r t before, s.g.log = after ++ .slept r t :: before →
      .add (.rendez r) t ∈ before ∧ delsSince (.rendez r) t before = 1 ∧
      ∀ l, s.g.rendezl r = some l → Mutex.holders (before.filterMap (qEv l)) = [t]) ∧
    ∃ q, (∀ l, IsDll s.m.next s.m.prev (s.m.list l).head (s.m.list l).tail (q l)) ∧
      (∀ r, select (putOn (.rendez r)) s.g.log = select (takenOff (.rendez r)) s.g.log ++ q (.rendez r)) ∧
      ∀ r t, Runs s.g t →
        (∃ s', (code (.taskwakeup r)).onHeap s = .ok ((), s') ∧ Readied q r t ((q (.rendez r)).take 1) s') ∧
        ∃ s', (code (.taskwakeupall r)).onHeap s = .ok ((), s') ∧ Readied q r t (q (.rendez r)) s' := by
  obtain ⟨p, hi, hrep⟩ := represented h
  have hlaw := law_iff.mp hi.base.sound.law
  refine ⟨fun after o r t before hl => (hlaw after o _ hl).1 r t rfl, hi.base.sound.done,
    fun after r t before hl => (hlaw after _ before hl).2.1 r t rfl,
    fun after r t before hl => (hlaw after _ before hl).2.2 r t rfl,
    p.q, hrep, fun r => hi.base.order (.rendez r) nofun, fun r t ht => ⟨?_, ?_⟩⟩
  · exact wakeup_readies hi hrep ht.2.1 r false
  · exact wakeup_readies hi hrep ht.2.1 r true

/-- Task 1 sleeps on the Rendez, and task 2 runs. -/
theorem reach_asleep : ∃ s, Reach s ∧ Runs s.g 2 ∧ (s.m.list (.rendez 0)).head = some 1 := by
  have h1 := reach_next reach_two (e := .qlock 0) ⟨1, by decide +kernel⟩
  have h2 := reach_next h1 (e := .tasksleep 0) ⟨1, by decide +kernel, fun l hl => by
    obtain rfl : 0 = l := Option.some.inj hl
    decide +kernel⟩
  have h3 := reach_next h2 (e := .taskscheduler) ⟨by decide +kernel, by decide +kernel⟩
  have h4 := reach_next h3 (e := .resume 0 .eintr 0) ⟨by decide +kernel, ⟨2, by decide +kernel⟩, nofun⟩
  exact ⟨_, h4, by decide +kernel, by decide +kernel⟩

theorem rendez_monitor_asleep : ∃ s s', Reach s ∧ (code (.taskwakeup 0)).onHeap s = .ok ((), s') ∧
    s'.g.log.head? = some (.ret 2 1) := by
  obtain ⟨s, h, hr, hq⟩ := reach_asleep
  obtain ⟨-, -, -, -, q, hd, -, hwake⟩ := rendez_monitor h
  obtain ⟨⟨s', hs, hn⟩, -⟩ := hwake 0 2 hr
  have h1 : (q (.rendez 0)).take 1 = [1] := by
    rw [List.take_one, ← (hd (.rendez 0)).head, hq]
    rfl
  refine ⟨s, s', h, hs, ?_⟩
  rw [hn.value, h1]
  rfl

end Libtask.Sched
