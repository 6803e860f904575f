/-
  Libtask.Sched.Progress — who gets the processor, and when nobody does.

  `served_in_order`: the tasks get it in the order in which they were readied, so the one with `n`
  others before it on the run queue has it after at most `n + 1` turns of the scheduler.

  `stalls_iff`: the scheduler reports stalled tasks exactly if there are tasks and each of them lacks
  something that only another task can give (`Lacks`): a lock that is held, a wake-up, a partner on
  its channels. So nobody sleeps then, and there is no `fdtask`. `Wants` is who waits for whom at the
  locks. From each stalled task it leads to one that has exited with a lock, to one that waits for
  something else, or around in a circle.
-/

import Mathlib.Order.Preorder.Finite
import Mathlib.Logic.Relation
import Libtask.Sched.RoundRobin

namespace Libtask.Sched

open Relation (ReflTransGen TransGen)
open Libtask.Lib
open Libtask.Lib.History (select select_cons select_append)

/-! ## The turns -/

/-- Who was made ready, in order. -/
def readied (log : List Obs) : List TaskPtr := select (putOn .taskrunqueue) log

/-- A turn of the scheduler. -/
def Step.schedules (x : Step) : Bool :=
  match x.e with
  | .taskscheduler => true
  | _ => false

section
variable {s s' : St} {t : TaskPtr} {e : Ev} {q q' : ListRef → List TaskPtr} {log new : List Obs} {us rest : List TaskPtr}

theorem queue_conserved (h : Order q log) (h' : Order q' (new ++ log)) :
    q .taskrunqueue ++ readied new = turns new ++ q' .taskrunqueue := by
  have h1 := h .taskrunqueue nofun
  have h2 := h' .taskrunqueue nofun
  rw [select_append, select_append, h1, List.append_assoc, List.append_assoc] at h2
  exact List.append_cancel_left h2

theorem reached_or_queued {ds ps qs : List TaskPtr} (h : us ++ t :: rest ++ ps = ds ++ qs) : us ++ [t] <+: ds ∨ t ∈ qs := by
  rw [List.append_assoc, List.append_eq_append_iff] at h
  rcases h with ⟨as, rfl, has⟩ | ⟨as, rfl, has⟩
  · cases as with
    | nil =>
      rw [List.nil_append] at has
      exact .inr (has ▸ List.mem_append_left _ List.mem_cons_self)
    | cons a as =>
      obtain ⟨rfl, -⟩ := List.cons.inj has
      exact .inl ⟨as, by simp⟩
  · exact .inr (has ▸ List.mem_append_right _ (List.mem_append_left _ List.mem_cons_self))

/-- While `t` is queued the scheduler dispatches at each of its turns. -/
theorem turns_step (h : Inv s) (ht : t ∈ s.m.q .taskrunqueue) (hen : Enabled s.g e) (hs : (code e).onPlaces s = .ok ((), s'))
    (hlog : s'.g.log = new ++ s.g.log) : (turns new).length = if Step.schedules ⟨s.g, e, s'.g⟩ then 1 else 0 := by
  have heq : ∀ {more : List Obs}, s'.g.log = more ++ s.g.log → new = more := fun h => List.append_cancel_right (hlog.symm.trans h)
  have hother : e.call ∨ e = .taskexit ∨ e = .callback (-1) → Step.schedules ⟨s.g, e, s'.g⟩ = false := by
    intro he
    cases e with
    | taskscheduler => rcases he with he | he | he <;> cases he
    | _ => rfl
  cases did h hen hs with
  | turn he hr hturn =>
    subst he
    cases hturn with
    | finished h0 _ =>
      have hlive : s.g.live t = true := (h.good t).live ((s.m.mem_iff _ t).mp ht)
      obtain ⟨i, hi, -⟩ := (h.base.slots.live t).mp hlive
      have hcount := h.base.count
      split at hcount <;> omega
    | stalled _ hnil _ =>
      rw [hnil] at ht
      cases ht
    | dispatched u ts _ _ hd =>
      obtain rfl : new = [.del .taskrunqueue u] := heq hd.log
      rfl
  | exit u he _ hx _ =>
    obtain rfl : new = [] := heq hx.log
    rw [hother (.inr (.inl he))]
    rfl
  | shutdown u fn g he _ _ hf hx _ _ =>
    obtain ⟨more, hmore, hno⟩ := hf.log
    obtain rfl := heq (hx.log.trans hmore)
    rw [hother (.inr (.inr he)), turns_quiet hno]
    rfl
  | call u hc _ hf _ _ _ _ =>
    obtain ⟨arg, v, hb⟩ := before_eq e s.g
    rw [hb] at hf
    obtain ⟨more, hmore, hno⟩ := hf.log
    obtain rfl := heq hmore
    rw [hother (.inl hc), turns_quiet hno]
    rfl

end

/-- In every run, those who were dispatched and then those on the run queue at the end are those who
    were on it at the start and then those who were readied. So the task behind `us` is dispatched,
    after them, within `us.length + 1` turns of the scheduler. -/
theorem served_in_order {s s' : State Glob Heap} {tr : List Step} (h : Reach s) (hrun : Run s tr s') :
    ∃ (q q' : ListRef → List TaskPtr) (new : List Obs),
    (∀ l, Dll.IsDll s.m.next s.m.prev (s.m.list l).head (s.m.list l).tail (q l)) ∧
    (∀ l, Dll.IsDll s'.m.next s'.m.prev (s'.m.list l).head (s'.m.list l).tail (q' l)) ∧
    s'.g.log = new ++ s.g.log ∧ q .taskrunqueue ++ readied new = turns new ++ q' .taskrunqueue ∧
    ∀ us t rest, q .taskrunqueue = us ++ t :: rest → us.length < tr.countP Step.schedules → us ++ [t] <+: turns new := by
  obtain ⟨p, hl⟩ := linked_reach h
  have hconserved : ∀ {x : St} {new : List Obs}, Inv x → x.g.log = new ++ s.g.log →
      p.q .taskrunqueue ++ readied new = turns new ++ x.m.q .taskrunqueue := by
    intro x new hi hlog
    have horder := hi.base.order
    rw [hlog] at horder
    exact queue_conserved hl.inv.base.order horder
  obtain ⟨p', hl', new, hlog, hturns⟩ := hrun.holds (C := fun _ => True) (P := fun tr x => ∃ new, x.g.log = new ++ s.g.log ∧
    ∀ us t rest, p.q .taskrunqueue = us ++ t :: rest → us ++ [t] <+: turns new ∨ (turns new).length = tr.countP Step.schedules)
    hl ⟨[], rfl, fun _ _ _ _ => .inr rfl⟩ (fun {tr x x' e} hi hP hen hs hi' _ => by
      obtain ⟨new, hlog, hturns⟩ := hP
      obtain ⟨more, hmore⟩ := (did hi hen hs).log
      refine ⟨more ++ new, by rw [hmore, hlog, List.append_assoc], fun us t rest hq => ?_⟩
      rw [turns_append]
      rcases hturns us t rest hq with hpre | hlen
      · exact .inl (hpre.trans (List.prefix_append _ _))
      · have hc := hconserved hi hlog
        rw [hq] at hc
        rcases reached_or_queued hc with hpre | ht
        · exact .inl (hpre.trans (List.prefix_append _ _))
        · refine .inr ?_
          rw [List.length_append, hlen, turns_step hi ht hen hs hmore, List.countP_cons]) fun _ _ => trivial
  have hc : _ = turns new ++ p'.q .taskrunqueue := hconserved hl'.inv hlog
  refine ⟨p.q, p'.q, new, hl.rep, hl'.rep, hlog, hc, fun us t rest hq hlt => ?_⟩
  rcases hturns us t rest hq with hpre | hlen
  · exact hpre
  · rw [hq] at hc
    have h1 : us ++ [t] <+: us ++ t :: rest ++ readied new := ⟨rest ++ readied new, by simp⟩
    rw [hc] at h1
    refine List.prefix_of_prefix_length_le h1 (List.prefix_append _ _) ?_
    rw [List.length_append, hlen]
    exact hlt

/-- Tasks 1 and 2 have a turn, and task 1 creates another before. -/
def taking : List Ev := [.taskscheduler, .resume 0 .eintr 0, .taskcreate 3, .taskyield, .taskscheduler]

theorem served_in_order_taking :
    ∃ s tr s' new, Run s tr s' ∧ s'.g.log = new ++ s.g.log ∧ [1, 2] <+: turns new ∧ tr.length = 5 := by
  have h := (run_boot [.taskcreate 1, .taskcreate 2] (by decide +kernel)).reach (reach_starts starts_boot)
  obtain ⟨p, hl⟩ := linked_reach h
  have hrun := Run.refl.plays hl taking (by decide +kernel)
  obtain ⟨q, q', new, hq, -, hlog, -, hserved⟩ := served_in_order h hrun
  refine ⟨_, _, _, new, hrun, hlog, ?_, by decide +kernel⟩
  have hrest : ∃ rest, q .taskrunqueue = [1] ++ 2 :: rest := by
    have hd := hq .taskrunqueue
    have hhead := hd.head
    cases hts : q .taskrunqueue with
    | nil => exact absurd (hts ▸ hhead) (by decide +kernel)
    | cons a ts =>
      rw [hts] at hd
      obtain rfl : 1 = a := Option.some.inj ((show _ = some 1 by decide +kernel).symm.trans hd.head)
      have hnext := (hd.links [] 1 ts rfl).2
      cases ts with
      | nil => exact absurd hnext (by decide +kernel)
      | cons b rest =>
        obtain rfl : 2 = b := Option.some.inj ((show _ = some 2 by decide +kernel).symm.trans hnext)
        exact ⟨rest, rfl⟩
  obtain ⟨rest, hrest⟩ := hrest
  exact hserved [1] 2 rest hrest (by decide +kernel)

/-! ## Chains -/

/-- Where each element of a finite set has a successor, one gets out of the set or goes in circles. -/
theorem leaves_or_cycles {α : Type} {r : α → α → Prop} {S : Set α} (hfin : S.Finite) (hnext : ∀ x ∈ S, ∃ y, r x y) (x : α) :
    ∃ y, ReflTransGen r x y ∧ (y ∉ S ∨ TransGen r y y) := by
  by_contra hno
  push Not at hno
  have hin : ∀ y, ReflTransGen r x y → y ∈ S := fun y hy => (hno y hy).1
  have : Nonempty α := ⟨x⟩
  choose! f hf using hnext
  have hreach : ∀ n, ReflTransGen r x (f^[n] x) := by
    intro n
    induction n with
    | zero => exact .refl
    | succ n ih =>
      rw [Function.iterate_succ_apply']
      exact ih.tail (hf _ (hin _ ih))
  obtain ⟨m, n, hlt, heq⟩ := hfin.exists_lt_map_eq_of_forall_mem (f := fun n => f^[n] x) fun n => hin _ (hreach n)
  have hon : ∀ k, TransGen r (f^[m] x) (f^[m + k + 1] x) := by
    intro k
    induction k with
    | zero =>
      rw [Function.iterate_succ_apply']
      exact .single (hf _ (hin _ (hreach m)))
    | succ k ih =>
      rw [Function.iterate_succ_apply']
      exact ih.tail (hf _ (hin _ (hreach _)))
  refine (hno _ (hreach m)).2 ?_
  have hcycle := hon (n - m - 1)
  rwa [show m + (n - m - 1) + 1 = n by omega, ← heq] at hcycle

/-! ## What a task lacks -/

/-- What a task that is at `pc`, and not ready, does not have, where the lists are `q`. -/
def Lacks (g : Glob) (q : ListRef → List TaskPtr) (t : TaskPtr) : Pc → Prop
  | .start => True
  | .parked => True
  | .qlock l _ => t ∈ q (.qwaiting l) ∧ g.owner l ≠ none
  | .rlock l => t ∈ q (.rwaiting l) ∧ ((g.rw l).writer ≠ none ∨ 0 < (g.rw l).readers)
  | .wlock l => t ∈ q (.wwaiting l) ∧ ((g.rw l).writer ≠ none ∨ 0 < (g.rw l).readers)
  | .tasksleep r => t ∈ q (.rendez r)
  -- a partner would be another alternative of the same call
  | .chanalt a => g.chan.wait t = some a ∧ g.chan.woken t = 0 ∧ ∀ i < Chan.altlen (g.chan.alt a),
      Chan.altcanexec g.chan (g.chan.deref ⟨a, i⟩) = true →
        ∀ p ∈ Chan.queue (g.chan.chan (g.chan.deref ⟨a, i⟩).c) (Chan.otherop (g.chan.deref ⟨a, i⟩).op), p.arr = a
  | _ => False

def Stuck (g : Glob) (q : ListRef → List TaskPtr) (t : TaskPtr) : Prop := (g.task t).state ≠ .READY ∧ Lacks g q t (g.task t).pc

/-- `t` waits for a lock that `u` has. -/
inductive Wants (g : Glob) (t u : TaskPtr) : Prop
  | qlock (l : Nat) (r : Option Nat) : (g.task t).pc = .qlock l r → g.owner l = some u → Wants g t u
  | rlock (l : Nat) : (g.task t).pc = .rlock l → u ∈ RwLock.readers (g.rwlog l) ∨ (g.rw l).writer = some u → Wants g t u
  | wlock (l : Nat) : (g.task t).pc = .wlock l → u ∈ RwLock.readers (g.rwlog l) ∨ (g.rw l).writer = some u → Wants g t u

/-- A task here waits for a lock. -/
def Pc.locks : Pc → Bool
  | .qlock _ _ => true
  | .rlock _ => true
  | .wlock _ => true
  | _ => false

section
variable {s : St} {t : TaskPtr} {g : Glob} {q : ListRef → List TaskPtr}

/-- An alternative of a blocked task can run only against alternatives of its own call. -/
theorem own_partner {k : Chan.St} (hi : Chan.Inv k) {p : Chan.AltPtr} (hp : Chan.Queued k p)
    (hcan : Chan.altcanexec k (k.deref p) = true) :
    ∀ x ∈ Chan.queue (k.chan (k.deref p).c) (Chan.otherop (k.deref p).op), x.arr = p.arr := by
  have hop := Chan.queued_op hp
  have hpq : p ∈ Chan.queue (k.chan (k.deref p).c) (k.deref p).op := (hi.mem _ _ _).mpr ⟨hp, rfl, rfl⟩
  rcases (Chan.altcanexec_iff hop).mp hcan with ⟨hb, -⟩ | ⟨hb, hs, hr⟩
  · intro x hx
    rcases hop with h1 | h1 <;> rw [h1] at hpq hx
    · exact (hi.single _ hb p hpq x hx).symm
    · exact hi.single _ hb x hx p hpq
  · -- a ring that could serve it would have
    rcases hop with h1 | h1 <;> rw [h1] at hpq
    · have := hi.send _ hb (List.ne_nil_of_mem hpq)
      have := hs h1
      omega
    · exact absurd (hi.recv _ hb (List.ne_nil_of_mem hpq)) (hr h1)

theorem rwlock_held (h : Inv s) {l : Nat} (hq : s.m.q (.rwaiting l) ≠ [] ∨ s.m.q (.wwaiting l) ≠ []) :
    (s.g.rw l).writer ≠ none ∨ 0 < (s.g.rw l).readers := by
  have hr : (s.g.rw l).readers = (RwLock.readers (s.g.rwlog l)).length := h.locks.readers l
  obtain ⟨h1, h2⟩ := RwLock.not_stranded (h.locks.rw l)
  have hw : s.m.q (.wwaiting l) ≠ [] → (s.g.rw l).writer ≠ none ∨ 0 < (s.g.rw l).readers := by
    intro hq
    refine (h1 hq).imp_right fun hne => ?_
    rw [hr]
    exact Int.natCast_pos.mpr (List.length_pos_iff.mpr hne)
  rcases hq with hq | hq
  · exact (h2 hq).elim .inl hw
  · exact hw hq

/-- A task that is neither ready nor running, nor asleep, lacks something. -/
theorem stuck_of (h : Inv s) (hnil : s.m.q .sleeping = []) (hr : s.g.taskrunning = none) (ht : s.g.live t = true)
    (hst : (s.g.task t).state ≠ .READY) : Stuck s.g s.m.q t := by
  refine ⟨hst, ?_⟩
  have hgood := h.good t
  have hrest : s.m.loc t = home (s.g.task t).pc ∧ (s.g.task t).pc.rests = true ∧ (s.g.task t).state = .zero := by
    cases hgood.status with
    | dead h1 _ _ _ => exact nomatch ht.symm.trans h1
    | running _ h2 _ _ =>
      have h2 : s.g.taskrunning = some t := of_decide_eq_true h2
      exact nomatch hr.symm.trans h2
    | ready _ _ h3 _ _ => exact absurd h3 hst
    | resting _ _ h3 h4 h5 => exact ⟨h4, h5, h3⟩
  obtain ⟨hloc, hrests, hzero⟩ := hrest
  have hon : ∀ {l}, home (s.g.task t).pc = some l → t ∈ s.m.q l := fun hl => (s.m.mem_iff _ t).mpr (hloc.trans hl)
  cases hpc : (s.g.task t).pc with
  | start => exact trivial
  | parked => exact trivial
  | app => rw [hpc] at hrests; cases hrests
  | taskyield n => rw [hpc] at hrests; cases hrests
  | fdtask v n => rw [hpc] at hrests; cases hrests
  | qlock l r =>
    have hq := hon (l := .qwaiting l) (by rw [hpc]; rfl)
    refine ⟨hq, fun ho => ?_⟩
    have hidle : s.m.q (.qwaiting l) = [] := Mutex.no_idle_wait (h.locks.q l) ho
    rw [hidle] at hq
    cases hq
  | rlock l =>
    have hq := hon (l := .rwaiting l) (by rw [hpc]; rfl)
    exact ⟨hq, rwlock_held h (.inl (List.ne_nil_of_mem hq))⟩
  | wlock l =>
    have hq := hon (l := .wwaiting l) (by rw [hpc]; rfl)
    exact ⟨hq, rwlock_held h (.inr (List.ne_nil_of_mem hq))⟩
  | tasksleep r => exact hon (by rw [hpc]; rfl)
  | taskdelay n =>
    have hq := hon (l := .sleeping) (by rw [hpc]; rfl)
    rw [hnil] at hq
    cases hq
  | fdwait n =>
    have hq := hon (l := .sleeping) (by rw [hpc]; rfl)
    rw [hnil] at hq
    cases hq
  | chanalt a =>
    have hwait : s.g.chan.wait t = some a := hgood.wait.trans (by show (s.g.task t).pc.array = some a; rw [hpc]; rfl)
    have hwoken : s.g.chan.woken t = 0 := (hgood.chosen a hpc).mpr ⟨hzero, decide_eq_false (by rw [hr]; nofun)⟩
    refine ⟨hwait, hwoken, fun i hi hcan => ?_⟩
    refine own_partner (p := ⟨a, i⟩) h.chan ⟨⟨t, hwait, hwoken⟩, hi, fun hnop => ?_⟩ hcan
    rw [Chan.altcanexec, if_pos hnop] at hcan
    cases hcan

/-- Somebody has the lock that a stuck task waits for. -/
theorem Stuck.wants (h : Inv s) (hs : Stuck s.g s.m.q t) (hl : (s.g.task t).pc.locks = true) : ∃ u, Wants s.g t u := by
  have hheld : ∀ {l}, (s.g.rw l).writer ≠ none ∨ 0 < (s.g.rw l).readers →
      ∃ u, u ∈ RwLock.readers (s.g.rwlog l) ∨ (s.g.rw l).writer = some u := by
    intro l hor
    rcases hor with hw | hr
    · obtain ⟨u, hu⟩ := Option.ne_none_iff_exists'.mp hw
      exact ⟨u, .inr hu⟩
    · have hn : (s.g.rw l).readers = (RwLock.readers (s.g.rwlog l)).length := h.locks.readers l
      have hne : RwLock.readers (s.g.rwlog l) ≠ [] := by
        intro hnil
        rw [hnil] at hn
        simp at hn
        omega
      obtain ⟨u, hu⟩ := List.exists_mem_of_ne_nil _ hne
      exact ⟨u, .inl hu⟩
  have hlacks := hs.2
  cases hpc : (s.g.task t).pc with
  | qlock l r =>
    rw [hpc] at hlacks
    obtain ⟨u, hu⟩ := Option.ne_none_iff_exists'.mp hlacks.2
    exact ⟨u, .qlock l r hpc hu⟩
  | rlock l =>
    rw [hpc] at hlacks
    obtain ⟨u, hu⟩ := hheld hlacks.2
    exact ⟨u, .rlock l hpc hu⟩
  | wlock l =>
    rw [hpc] at hlacks
    obtain ⟨u, hu⟩ := hheld hlacks.2
    exact ⟨u, .wlock l hpc hu⟩
  | _ => rw [hpc] at hl; cases hl

end

section
variable {s₀ s s' : State Glob Heap} {tr : List Step} {t : TaskPtr}

/-- The scheduler reports a stall exactly if there are tasks left in its count and all of them are
    stuck. Then there is no `fdtask`, and the reported number is that of the tasks, unless an event
    ended a wait, which it counts as one more task. From each of them the locks lead to one that has
    exited with a lock, to one that waits for something else, or around in a circle. -/
theorem stalls_iff (h₀ : Starts s₀) (h : Run s₀ tr s) (hst : ∀ x ∈ tr, Stays x) (hen : Enabled s.g .taskscheduler)
    (hs : (code .taskscheduler).onHeap s = .ok ((), s')) : ∃ q : ListRef → List TaskPtr,
    (∀ l, Dll.IsDll s.m.next s.m.prev (s.m.list l).head (s.m.list l).tail (q l)) ∧
    (s'.g.phase = .stalled ↔ s.g.taskcount ≠ 0 ∧ ∀ t, s.g.live t = true → Stuck s.g q t) ∧
    (s'.g.phase = .stalled → q .sleeping = [] ∧ (∀ t, ¬ IsFdtask s.g t) ∧
      s.g.taskcount = s.g.nalltask + (if s.g.log.any Obs.isEvent then 1 else 0) ∧
      ∀ t, s.g.live t = true → ∃ u, ReflTransGen (Wants s.g) t u ∧
        (s.g.live u = false ∨ (s.g.task u).pc.locks = false ∨ TransGen (Wants s.g) u u)) := by
  obtain ⟨p, hl, hp⟩ := poller h₀ h hst
  obtain ⟨p', hturn, -⟩ := hl.step hen hs
  have hready : ∀ t, t ∈ p.q .taskrunqueue ↔ s.g.live t = true ∧ (s.g.task t).state = .READY := by
    intro t
    rw [p.mem_iff]
    constructor
    · intro hq
      obtain ⟨h1, -, h3, -⟩ := (hl.inv.good t).queued hq
      exact ⟨h1, h3⟩
    · intro hlr
      cases (hl.inv.good t).status with
      | dead h1 _ _ _ => exact nomatch hlr.1.symm.trans h1
      | running _ _ h3 _ => exact nomatch hlr.2.symm.trans h3
      | ready _ _ _ h4 _ => exact h4
      | resting _ _ h3 _ _ => exact nomatch hlr.2.symm.trans h3
  have hphase : s'.g.phase = .stalled ↔ s.g.taskcount ≠ 0 ∧ p.q .taskrunqueue = [] := by
    cases turn hturn with
    | finished h0 he =>
      have h0 : s.g.taskcount = 0 := h0
      have hph : s'.g.phase = .finished := congrArg (fun x => x.g.phase) he
      rw [hph]
      exact ⟨nofun, fun hn => absurd h0 hn.1⟩
    | stalled h0 hq he =>
      have hph : s'.g.phase = .stalled := congrArg (fun x => x.g.phase) he
      rw [hph]
      exact ⟨fun _ => ⟨h0, hq⟩, fun _ => rfl⟩
    | dispatched u us _ hq hd =>
      have hph : s'.g.phase = .loop := hd.phase
      have hq : p.q .taskrunqueue = u :: us := hq
      rw [hph, hq]
      exact ⟨nofun, fun hn => nomatch hn.2⟩
  -- an `fdtask` would be ready
  have hnofd : p.q .taskrunqueue = [] → ∀ t, ¬ IsFdtask s.g t := by
    intro hnil t ht
    have hph : s.g.phase ≠ .exited := by
      rcases hen.1 with hph | hph <;> rw [hph] <;> nofun
    have hr := (hp.awake hph t ht).resolve_left fun hr => nomatch hen.2.symm.trans hr
    have hmem := (hready t).mpr ⟨ht.1, hr⟩
    rw [hnil] at hmem
    cases hmem
  have hnosleep : p.q .taskrunqueue = [] → p.q .sleeping = [] := by
    intro hnil
    by_contra hne
    obtain ⟨t, ht⟩ := hp.started.mp (hp.sleeping hne)
    exact hnofd hnil t ht
  have hstuck : p.q .taskrunqueue = [] → ∀ t, s.g.live t = true → Stuck s.g p.q t := by
    intro hnil t ht
    refine stuck_of (s := ⟨s.g, p⟩) hl.inv (hnosleep hnil) hen.2 ht fun hr => ?_
    have hmem := (hready t).mpr ⟨ht, hr⟩
    rw [hnil] at hmem
    cases hmem
  refine ⟨p.q, hl.rep, hphase.trans (and_congr_right fun _ => ⟨hstuck, fun hall => ?_⟩), fun hstalled => ?_⟩
  · refine List.eq_nil_iff_forall_not_mem.mpr fun t ht => ?_
    obtain ⟨h1, h2⟩ := (hready t).mp ht
    exact (hall t h1).1 h2
  obtain ⟨-, hnil⟩ := hphase.mp hstalled
  refine ⟨hnosleep hnil, hnofd hnil, ?_, fun t ht => ?_⟩
  · have hcount : s.g.taskcount = s.g.nalltask + (if s.g.sleepingcounted = 0 then 0 else 1) := hl.inv.base.count
    have hsleepers : s.g.sleepingcounted = (p.q .sleeping).length + s.g.log.countP Obs.isEvent := hl.inv.base.sleepers
    rw [hnosleep hnil] at hsleepers
    have hzero : s.g.sleepingcounted = 0 ↔ s.g.log.any Obs.isEvent = false := by
      rw [hsleepers, List.any_eq_false]
      simp
    rw [hcount]
    cases hany : s.g.log.any Obs.isEvent with
    | false => rw [if_pos (hzero.mpr hany), if_neg nofun]
    | true =>
      have hne : s.g.sleepingcounted ≠ 0 := fun h0 => nomatch (hzero.mp h0).symm.trans hany
      rw [if_neg hne, if_pos rfl]
  · let S : Set TaskPtr := { u | s.g.live u = true ∧ (s.g.task u).pc.locks = true }
    have hfin : S.Finite := by
      refine ((Set.finite_lt_nat s.g.nalltask).image s.g.alltask).subset fun u hu => ?_
      exact (hl.inv.base.slots.live u).mp hu.1
    obtain ⟨u, hreach, hu⟩ := leaves_or_cycles hfin (fun u hu => (hstuck hnil u hu.1).wants (s := ⟨s.g, p⟩) hl.inv hu.2) t
    refine ⟨u, hreach, ?_⟩
    rcases hu with hout | hcycle
    · by_cases hlive : s.g.live u = true
      · exact .inr (.inl (by simpa using fun hlocks => hout ⟨hlive, hlocks⟩))
      · exact .inl (by simpa using hlive)
    · exact .inr (.inr hcycle)

end

/-- Tasks 1 and 2 each have a lock and wait for the other's. -/
def embraced : List Ev :=
  [.taskcreate 1, .taskcreate 2, .taskscheduler, .resume 0 .eintr 0, .qlock 0, .taskyield, .taskscheduler, .resume 0 .eintr 0,
    .qlock 1, .qlock 0, .taskscheduler, .resume 0 .eintr 0, .qlock 1]

theorem stalls_embraced : ∃ s tr s', Run boot tr s ∧ (code .taskscheduler).onHeap s = .ok ((), s') ∧ s'.g.phase = .stalled ∧
    (∃ q, Stuck s.g q 1 ∧ Stuck s.g q 2) ∧ s.g.taskcount = 2 := by
  have h := run_boot embraced (by decide +kernel)
  have hout : ∀ x ∈ boot.steps embraced [], x.outside = true := by
    rw [← List.all_eq_true]
    decide +kernel
  have hen : Enabled (embraced.foldl State.next boot).g .taskscheduler := ⟨by decide +kernel, by decide +kernel⟩
  obtain ⟨s', hs⟩ := step_ok (h.reach (reach_starts starts_boot)) hen
  have hph : s'.g.phase = .stalled := by
    have hnext : ((embraced.foldl State.next boot).next .taskscheduler).g.phase = .stalled := by decide +kernel
    rwa [State.next, hs] at hnext
  obtain ⟨q, -, hiff, -⟩ := stalls_iff starts_boot h (fun x hx => stays_outside (hout x hx)) hen hs
  obtain ⟨-, hall⟩ := hiff.mp hph
  exact ⟨_, _, s', h, hs, hph, ⟨q, hall 1 (by decide +kernel), hall 2 (by decide +kernel)⟩, by decide +kernel⟩

end Libtask.Sched
