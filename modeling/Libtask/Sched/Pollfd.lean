/-
  Libtask.Sched.Pollfd — `fdwait` and `fdtask` where there is no epoll (fd.c, the other part).

  The table `polltask`, `pollfd` has an entry for each call of `fdwait`, and the task of the
  entry is on the sleeping list too. The rest of the library, and of `fdtask` its timers and its
  callback, are the same; `fdpolled` without events is that part of a turn.

  `poll` finds `revents` for the entries as the kernel likes. A full table ends the process.

  `records_agree`: as long as no task in `fdwait` is woken the table and the sleeping list name
  the same tasks. `one_record_stays`: an event leaves the task on the sleeping list, and the time
  leaves the entry in the table.
-/

import Libtask.Sched.Placement
import Libtask.Sched.Waits

namespace Libtask.Sched.Pollfd

open Function (update update_self update_of_ne)
open Libtask.Lib.Dll

structure PollFd where
  fd : Nat
  events : Nat
  revents : Nat
  deriving DecidableEq, Repr

structure Table where
  pollfd : Nat → PollFd
  polltask : Nat → TaskPtr
  npollfd : Nat

def MAXFD : Nat := 1024

def POLLIN : Nat := 1

def POLLOUT : Nat := 4

def bits (rw : Char) : Nat := if rw = 'r' then POLLIN else if rw = 'w' then POLLOUT else 0

def Table.push (tab : Table) (t : TaskPtr) (fd events : Nat) : Table :=
  { pollfd := update tab.pollfd tab.npollfd ⟨fd, events, 0⟩
    polltask := update tab.polltask tab.npollfd t
    npollfd := tab.npollfd + 1 }

/-- The last entry takes the place of entry `i`. -/
def Table.drop (tab : Table) (i : Nat) : Table :=
  { pollfd := update tab.pollfd i (tab.pollfd (tab.npollfd - 1))
    polltask := update tab.polltask i (tab.polltask (tab.npollfd - 1))
    npollfd := tab.npollfd - 1 }

/-- `poll` stores what it found. -/
def Table.found (tab : Table) (revents : Nat → Nat) : Table :=
  { tab with pollfd := fun i => if i < tab.npollfd then { tab.pollfd i with revents := revents i } else tab.pollfd i }

def fdwait (tab : Table) (fd : Nat) (rw : Char) (now : Nat) (a : TaskPtr) : Lib Table := do
  _startfdtask a
  if MAXFD ≤ tab.npollfd then do
    modify fun g => { g with phase := .exited }
    pure tab
  else do
    let t ← running
    taskdelay 30000 now a (.fdwait now)
    pure (tab.push t fd (bits rw))

/-! ## `fdtask` -/

/-- What `poll` does: EINTR, another error, or it returns with these `revents`. -/
inductive Ready where
  | eintr
  | failed
  | ready (revents : Nat → Nat)

/-- The timeout for `poll`, by the alarm of the first sleeping task. -/
def pollms (now alarmtime : Nat) : Nat :=
  if alarmtime ≤ now then 0
  else if alarmtime ≤ u64 (now + 100 * 1000 * 1000) then (alarmtime - now) / 1000000
  else 100

/-- The loop over the entries, from entry `i`. -/
def fdready : (fuel i : Nat) → Table → Lib Table
  | 0, i, tab => if i < tab.npollfd then abort "out of fuel" else pure tab
  | fuel + 1, i, tab =>
    if i < tab.npollfd then
      if (tab.pollfd i).revents ≠ 0 then do
        taskready (tab.polltask i)
        fdready fuel i (tab.drop i)
      else fdready fuel (i + 1) tab
    else pure tab

def fdpolled (tab : Table) (v : Option Nat) (r : Ready) (now' : Nat) : Lib Table := do
  match r with
  | .eintr => do
    taskyield (.fdtask v)
    pure tab
  | .failed => do
    modify fun g => { g with phase := .exited }
    pure tab
  | .ready revents => do
    let tab ← fdready tab.npollfd 0 (tab.found revents)
    Sched.fdpolled v (.events []) now'
    pure tab

/-- Behind the `taskyield`s. The history has the timeout as it has `epoll_wait`'s. -/
def fdpoll (tab : Table) (v : Option Nat) (now : Nat) (r : Ready) (now' : Nat) : Lib Table := do
  match ← head .sleeping with
  | none => observe (.epoll_wait 0)
  | some t => do
    observe (.nsec now)
    observe (.epoll_wait (pollms now ((← globals).task t).alarmtime))
  fdpolled tab v r now'

/-- The `fdtask` goes on behind a `taskyield`. -/
def fdtask (tab : Table) (now : Nat) (r : Ready) (now' : Nat) : Lib Table := do
  let t ← running
  let g ← globals
  match (g.task t).pc with
  | .fdtask v n =>
    if 0 < yielded g n then do
      taskyield (.fdtask v)
      pure tab
    else fdpoll tab v now r now'
  | _ => abort "not the fdtask"

/-! ## Steps -/

structure Sys where
  s : State Glob Heap
  tab : Table

inductive SysEv where
  /-- Any step of the library without the table. -/
  | lib (e : Ev)
  | fdwait (fd : Nat) (rw : Char) (now : Nat) (a : TaskPtr)
  /-- The `fdtask` goes on, and `poll` does `r`. -/
  | poll (now : Nat) (r : Ready) (now' : Nat)

def SysEv.code (tab : Table) : SysEv → Lib Table
  | .lib e => do
    Sched.code e
    pure tab
  | .fdwait fd rw now a => Pollfd.fdwait tab fd rw now a
  | .poll now r now' => fdtask tab now r now'

/-- The `fdtask` runs, between two `taskyield`s. -/
def Goes (g : Glob) : Prop := ∃ t v n, g.taskrunning = some t ∧ (g.task t).pc = .fdtask v n

def Sys.Can (x : Sys) : SysEv → Prop
  | .lib e => Enabled x.s.g e ∧ (∀ now a, e ≠ .fdwait now a) ∧ ∀ now poll now', e = .resume now poll now' → ¬ Goes x.s.g
  | .fdwait _ _ now a => Enabled x.s.g (.fdwait now a)
  | .poll _ _ _ => x.s.g.phase = .loop ∧ Goes x.s.g

/-- Nothing happened yet. -/
def SysStarts (x : Sys) : Prop := Starts x.s ∧ x.tab.npollfd = 0

/-- Runs whose steps all are as `C` says. -/
inductive SysRun (C : Sys → SysEv → Prop) (x₀ : Sys) : Sys → Prop
  | refl : SysRun C x₀ x₀
  | step {x : Sys} {tab : Table} {s' : State Glob Heap} (e : SysEv) : SysRun C x₀ x → x.Can e → C x e →
      (e.code x.tab).onHeap x.s = .ok (tab, s') → SysRun C x₀ ⟨s', tab⟩

/-- The step wakes no task in `fdwait`. -/
def Quiet (x : Sys) : SysEv → Prop
  | .poll _ (.ready revents) now' => Polls x.s.g →
      (∀ i < x.tab.npollfd, revents i = 0) ∧ ∀ t, InFdwait x.s.g t → now' < (x.s.g.task t).alarmtime
  | .lib (.callback r) => r = -1 → ∀ t, ¬ InFdwait x.s.g t
  | _ => True

/-- The entries of the table are the tasks in `fdwait`, which sleep. -/
structure Agree (tab : Table) (s : St) : Prop where
  main : s.g.phase = .main → s.g.taskrunning = none
  waits : ∀ t, (∃ i < tab.npollfd, tab.polltask i = t) ↔ InFdwait s.g t
  once : ∀ i < tab.npollfd, ∀ j < tab.npollfd, tab.polltask i = tab.polltask j → i = j
  asleep : ∀ t, InFdwait s.g t → s.m.loc t = some .sleeping

section
variable {s s' : St} {t u : TaskPtr} {tab tab' : Table} {α : Type} {K : Pc → Prop}

theorem ok_all {m : Lib α} {Q : α → St → Prop} {Q' : α → Glob → Prop} (h : Ok m s Q) (h' : m.All Q' s.g) :
    Ok m s fun a s' => Q a s' ∧ Q' a s'.g := by
  obtain ⟨a, s', hr, hq⟩ := h
  exact ⟨a, s', hr, hq, all_onPlaces hr h'⟩

theorem frame_inside {g g' : Glob} (h : Frame t g g') (hut : u ≠ t) : InFdwait g' u ↔ InFdwait g u := by
  constructor
  · intro hw
    obtain ⟨hl, n, hn⟩ := hw
    by_cases hlu : g.live u = true
    · exact ⟨hlu, n, h.pc u hlu hut ▸ hn⟩
    · exact nomatch (h.fresh u (by simpa using hlu) hl).pc.symm.trans hn
  · intro hw
    obtain ⟨hl, n, hn⟩ := hw
    exact ⟨h.live u hl, n, (h.pc u hl hut).trans hn⟩

/-- `t` ran, outside of `fdwait`. The others are in it as before, and sleep there as before. -/
structure Still (t : TaskPtr) (s s' : St) : Prop where
  inv : Inv s'
  main : s'.g.phase = .main → s.g.phase = .main ∧ s'.g.taskrunning = s.g.taskrunning ∨ s'.g.taskrunning = none
  inside : ∀ u, InFdwait s'.g u ↔ InFdwait s.g u
  asleep : ∀ u, InFdwait s.g u → s.m.loc u = some .sleeping → s'.m.loc u = some .sleeping

theorem still_keeps {m : Lib α} (h : Inv s) (hat : At t s.g) (hk : Keeps t K m) (hK : ¬ (K .app ∧ ∃ v n, K (.fdtask v n)))
    (hout : ∀ n, ¬ K (.fdwait n)) (hnot : ¬ InFdwait s.g t) (hok : Ok m s fun _ s' => Inv s') : Ok m s fun _ s' => Still t s s' := by
  refine (ok_all hok (hk s.g hat)).mono fun _ s' ⟨h', hc, ho⟩ => ⟨h', fun hp => ?_, fun u => ?_, fun u _ hu => ?_⟩
  · rcases hc.running with hr | hr
    · exact .inl ⟨(hc.phase.resolve_right fun he => nomatch hp.symm.trans he).symm.trans hp, hr⟩
    · exact .inr hr
  · by_cases hut : u = t
    · subst hut
      refine iff_of_false (fun hw => ?_) hnot
      obtain ⟨hl, n, hn⟩ := hw
      rcases ho.goes with hk | hk
      · exact hnot ⟨hc.lives ▸ hl, n, hk.symm.trans hn⟩
      · exact hout n (hn ▸ hk)
    · exact frame_inside hc.toFrame hut
  · exact sleeps_on h h' (hc.log.imp fun _ hn => hn.1) (ho.wakes.resolve_right hK u) hu

theorem Still.agree (h : Agree tab s) (hs : Still t s s') : Agree tab s' where
  main hp := by
    rcases hs.main hp with ⟨hp', hr⟩ | hr
    · exact hr.trans (h.main hp')
    · exact hr
  waits u := (h.waits u).trans (hs.inside u).symm
  once := h.once
  asleep u hw := hs.asleep u ((hs.inside u).mp hw) (h.asleep u ((hs.inside u).mp hw))

/-- Nobody who runs is in `fdwait`. -/
theorem Agree.outside (h : Agree tab s) (hi : Inv s) (hr : s.g.taskrunning = some t) : ¬ InFdwait s.g t := fun hw =>
  nomatch (h.asleep t hw).symm.trans (hi.here hr).2.2

/-! ### One step -/

theorem agree_lib {e : Ev} (hi : Inv s) (h : Agree tab s) (hen : Enabled s.g e) (hf : ∀ now a, e ≠ .fdwait now a)
    (hg : ∀ now poll now', e = .resume now poll now' → ¬ Goes s.g) (hq : e = .callback (-1) → ∀ t, ¬ InFdwait s.g t)
    (hs : (code e).onPlaces s = .ok ((), s')) (h' : Inv s') : Agree tab s' := by
  have hd := did hi hen hs
  have hin : ∀ u, InFdwait s'.g u ↔ InFdwait s.g u := fun u =>
    (remains hd hf (fun w n hw hn => h.outside hi hw ⟨(hi.here hw).1, n, hn⟩) u).inside
  refine ⟨hd.main h.main, fun u => (h.waits u).trans (hin u).symm, h.once, fun u hw => ?_⟩
  have hw := (hin u).mp hw
  rcases hd.woken hen with hsame | he | ⟨now, poll, now', t, v, n, he, hr, hpc⟩
  · exact sleeps_on hi h' hd.log (hsame u) (h.asleep u hw)
  · exact absurd hw (hq he u)
  · exact absurd ⟨t, v, n, hr, hpc⟩ (hg now poll now' he)

/-- `t`, which was in no entry, gets one. -/
theorem agree_push (h : Agree tab s) (hnot : ¬ InFdwait s.g t) (hin : InFdwait s'.g t)
    (hother : ∀ u, u ≠ t → (InFdwait s'.g u ↔ InFdwait s.g u)) (hm : s'.g.phase = .main → s'.g.taskrunning = none)
    (hasleep : ∀ u, InFdwait s'.g u → s'.m.loc u = some .sleeping) (fd events : Nat) : Agree (tab.push t fd events) s' := by
  have hnew : ∀ i < tab.npollfd, tab.polltask i ≠ t := fun i hi he => hnot ((h.waits t).mp ⟨i, hi, he⟩)
  have hlast : (tab.push t fd events).polltask tab.npollfd = t := update_self ..
  have hold : ∀ i < tab.npollfd, (tab.push t fd events).polltask i = tab.polltask i := fun i hi => update_of_ne (Nat.ne_of_lt hi) _ _
  have hlt : ∀ i, i < (tab.push t fd events).npollfd → i = tab.npollfd ∨ i < tab.npollfd := fun i hi => by
    have hi : i < tab.npollfd + 1 := hi
    omega
  refine ⟨hm, fun u => ⟨fun hu => ?_, fun hw => ?_⟩, fun i hi j hj he => ?_, hasleep⟩
  · obtain ⟨i, hi, he⟩ := hu
    rcases hlt i hi with rfl | hi
    · exact he ▸ hlast.symm ▸ hin
    · rw [hold i hi] at he
      exact (hother u (he ▸ hnew i hi)).mpr ((h.waits u).mp ⟨i, hi, he⟩)
  · by_cases hut : u = t
    · exact ⟨tab.npollfd, Nat.lt_succ_self _, hlast.trans hut.symm⟩
    · obtain ⟨i, hi, he⟩ := (h.waits u).mpr ((hother u hut).mp hw)
      exact ⟨i, Nat.lt_succ_of_lt hi, (hold i hi).trans he⟩
  · rcases hlt i hi with rfl | hi <;> rcases hlt j hj with rfl | hj
    · rfl
    · rw [hlast, hold j hj] at he
      exact absurd he.symm (hnew j hj)
    · rw [hlast, hold i hi] at he
      exact absurd he (hnew i hi)
    · rw [hold i hi, hold j hj] at he
      exact h.once i hi j hj he

theorem agree_fdwait {fd now : Nat} {rw : Char} {a : TaskPtr} (hi : Inv s) (h : Agree tab s) (hen : Enabled s.g (.fdwait now a)) :
    Ok (fdwait tab fd rw now a) s fun tab' s' => Inv s' ∧ Agree tab' s' := by
  obtain ⟨t, ht⟩ := hen.1
  have hr := ht.2.1
  have hdead : s.g.live a = false := hen.2
  have hat := at_running hi hr
  have hne : a ≠ t := by
    rintro rfl
    exact nomatch (hi.here hr).1.symm.trans hdead
  by_cases hfull : MAXFD ≤ tab.npollfd
  · simp only [fdwait, ok_bind, if_pos hfull]
    refine (ok_all (_startfdtask_ok hi (.inr hdead)) (all_startfdtask (t := t) (.inr ⟨hdead, hne⟩) fun _ => False)).mono ?_
    intro _ s₁ hs₁
    obtain ⟨⟨h₁, -, -, -⟩, ha, -⟩ := hs₁
    have hpc : ¬ InFdwait s₁.g t := fun hw => hw.2.elim fun n hn =>
      nomatch ((ha.goes.resolve_right id).trans ht.2.2).symm.trans hn
    have hin : ∀ u, InFdwait s₁.g u ↔ InFdwait s.g u := fun u => by
      by_cases hut : u = t
      · exact hut ▸ iff_of_false hpc (h.outside hi hr)
      · exact frame_inside ha.toFrame hut
    refine ok_modify.mpr (ok_pure.mpr ⟨inv_modify h₁ fun _ => rfl, nofun, fun u => (h.waits u).trans (hin u).symm, h.once,
      fun u hw => ?_⟩)
    have hsame := ha.wakes.resolve_right fun hk => hk.1
    have hloc : s₁.m.loc u = some .sleeping := sleeps_on hi h₁ (ha.log.imp fun _ hn => hn.1) (hsame u)
      (h.asleep u ((hin u).mp hw))
    exact hloc
  · obtain ⟨⟨⟩, s', hs, h', hloc⟩ := fdwait_ok hi hr ht.2.2 hdead now
    have hres : (fdwait tab fd rw now a).onPlaces s = .ok (tab.push t fd (bits rw), s') := by
      rw [Sched.fdwait, onPlaces_bind] at hs
      rw [fdwait, onPlaces_bind]
      obtain ⟨⟨⟩, s₁, h₁, -, -, hr₁, -⟩ := _startfdtask_ok (a := a) hi (.inr hdead)
      rw [h₁] at hs ⊢
      obtain ⟨t', s₂, h₂, ht', hs₂⟩ := (ok_running (Q := fun t' s₂ => t' = t ∧ s₂ = s₁) (hr₁.trans hr)).mpr ⟨rfl, rfl⟩
      subst ht' hs₂
      simp only [if_neg hfull, onPlaces_bind, h₂, hs]
      rfl
    have hd := did hi hen hs
    have hother : ∀ u, u ≠ t → (InFdwait s'.g u ↔ InFdwait s.g u) := fun u hut =>
      (remains_other hd fun hu => hut (Option.some.inj (hu.symm.trans hr))).inside
    refine ⟨_, s', hres, h',
      agree_push h (h.outside hi hr) (inFdwait_fdwait hi hr hen hs) hother (hd.main h.main) (fun u hw => ?_) _ _⟩
    by_cases hut : u = t
    · exact hut ▸ hloc
    · rcases hd.woken hen with hsame | he | ⟨_, _, _, _, _, _, he, _⟩
      · exact sleeps_on hi h' hd.log (hsame u) (h.asleep u ((hother u hut).mp hw))
      · cases he
      · cases he

theorem still_refl (h : Inv s) : Still t s s := ⟨h, fun hp => .inl ⟨hp, rfl⟩, fun _ => Iff.rfl, fun _ _ hu => hu⟩

theorem Still.trans {s₁ s₂ s₃ : St} (h : Still t s₁ s₂) (h' : Still t s₂ s₃) : Still t s₁ s₃ where
  inv := h'.inv
  main hp := by
    rcases h'.main hp with ⟨hp', hr'⟩ | hr'
    · rw [hr']
      exact h.main hp'
    · exact .inr hr'
  inside u := (h'.inside u).trans (h.inside u)
  asleep u hw hu := h'.asleep u ((h.inside u).mpr hw) (h.asleep u hw hu)

theorem Still.bind {β : Type} {m : Lib α} {f : α → Lib β} (h : Ok m s fun _ s' => Still t s s')
    (h' : ∀ a s', Still t s s' → Ok (f a) s' fun _ s'' => Still t s' s'') : Ok (m >>= f) s fun _ s'' => Still t s s'' :=
  ok_bind.mpr (h.mono fun a s' hs => (h' a s' hs).mono fun _ _ hs' => hs.trans hs')

theorem still_yield (h : Inv s) (hr : s.g.taskrunning = some t) (hp : (s.pc t).array = none) (hnot : ¬ InFdwait s.g t)
    (v : Option Nat) : Ok (taskyield (.fdtask v)) s fun _ s' => Still t s s' := by
  refine still_keeps (K := fun k => ∃ n, k = .fdtask v n) h (at_running h hr) (keeps_taskyield nofun fun n => ⟨n, rfl⟩) ?_ nofun
    hnot (fdyield_ok h hr hp v)
  rintro ⟨⟨n, hn⟩, -⟩
  cases hn

/-- The timers and the callback, while no task in `fdwait` is due. -/
theorem still_timers {now' : Nat} (h : Inv s) (hr : s.g.taskrunning = some t) (hp : (s.pc t).array = none) (hnot : ¬ InFdwait s.g t)
    (hdue : ∀ u, InFdwait s.g u → now' < (s.g.task u).alarmtime) (v : Option Nat) :
    Ok (Sched.fdpolled v (.events []) now') s fun _ s' => Still t s s' := by
  have hnote : Still t s (s.obs (.nsec now')) := ⟨inv_note h rfl, fun hp => .inl ⟨hp, rfl⟩, fun _ => Iff.rfl, fun _ _ hu => hu⟩
  have hloop : Keeps t (fun _ => True)
      (loop (fun _ => expired now') (fdwake LIBTASK_TIMEOUT) (s.obs (.nsec now')).g.nalltask 0) :=
    keeps_loop (fun _ => keeps_expired now') (keeps_fdwake ⟨trivial, none, 0, trivial⟩ LIBTASK_TIMEOUT) _ _
  simp only [Sched.fdpolled, fdevents, ok_bind, ok_pure, ok_observe, ok_globals]
  refine (ok_all (timers_ok hnote.inv now' LIBTASK_TIMEOUT) (hloop _ (at_running hnote.inv hr))).mono fun _ s₂ hs₂ => ?_
  obtain ⟨hw, hc, -⟩ := hs₂
  have hpc : s₂.pc = s.pc := hw.pc
  have hin : ∀ u, InFdwait s₂.g u ↔ InFdwait s.g u := fun u => by
    unfold InFdwait
    rw [hc.lives, show (s₂.g.task u).pc = (s.g.task u).pc from congrFun hpc u]
    exact Iff.rfl
  have hstill : Still t s s₂ := by
    refine ⟨hw.inv, fun hm => .inl ⟨?_, hw.running⟩, hin, fun u hu hloc => ?_⟩
    · exact (hc.phase.resolve_right fun he => by cases hm.symm.trans he).symm.trans hm
    · rcases hw.each u with ⟨he, -⟩ | ⟨hle, -⟩
      · exact he.trans hloc
      · have hle : (s.g.task u).alarmtime ≤ now' := hle
        have := hdue u hu
        omega
  have hr₂ : s₂.g.taskrunning = some t := hw.running.trans hr
  have hp₂ : (s₂.pc t).array = none := by rw [hpc]; exact hp
  have hnot₂ : ¬ InFdwait s₂.g t := fun hi => hnot ((hin t).mp hi)
  cases v with
  | none => exact (still_yield hw.inv hr₂ hp₂ hnot₂ none).mono fun _ _ hs => hstill.trans hs
  | some fn =>
    have hr₃ : (s₂.obs (.callback fn s₂.g.pool_loop_arg)).g.taskrunning = some t := hr₂
    simp only [ok_bind, ok_globals, ok_observe, ok_running hr₃]
    have hback : Keeps t (· = .app) (setTask t fun x => { x with pc := .app }) := keeps_back rfl
    refine (still_keeps (inv_note hw.inv rfl) (at_running (inv_note hw.inv rfl) hr₃) hback ?_ (by simp) hnot₂ ?_).mono fun _ _ hs =>
      hstill.trans (Still.trans ⟨inv_note hw.inv rfl, fun hp => .inl ⟨hp, rfl⟩, fun _ => Iff.rfl, fun _ _ hu => hu⟩ hs)
    · rintro ⟨-, v, n, hn⟩
      cases hn
    · exact ok_setTask.mpr (inv_back (inv_note hw.inv rfl) hr₃ hp₂)

/-- Nothing is ready. -/
theorem fdready_quiet (hz : ∀ j < tab.npollfd, (tab.pollfd j).revents = 0) : ∀ fuel i, tab.npollfd ≤ fuel + i →
    fdready fuel i tab = pure tab := by
  intro fuel
  induction fuel with
  | zero =>
    intro i hi
    unfold fdready
    rw [if_neg (by omega)]
  | succ fuel ih =>
    intro i hi
    unfold fdready
    split
    · rename_i hlt
      rw [if_neg (not_not.mpr (hz i hlt))]
      exact ih (i + 1) (by omega)
    · rfl

theorem agree_poll {now now' : Nat} {r : Ready} (hi : Inv s) (h : Agree tab s) (hph : s.g.phase = .loop) (hg : Goes s.g)
    (hq : ∀ revents, r = .ready revents → Polls s.g → (∀ i < tab.npollfd, revents i = 0) ∧
      ∀ t, InFdwait s.g t → now' < (s.g.task t).alarmtime) :
    Ok (fdtask tab now r now') s fun tab' s' => Inv s' ∧ Agree tab' s' := by
  obtain ⟨t, v, n, hr, hpc⟩ := hg
  have hnot := h.outside hi hr
  have hp : (s.pc t).array = none := congrArg Pc.array hpc
  have hyield : ∀ s₁, Still t s s₁ → s₁.g.taskrunning = some t → (s₁.pc t).array = none →
      Ok (taskyield (.fdtask v) >>= fun _ => pure tab) s₁ fun tab' s' => Inv s' ∧ Agree tab' s' := fun s₁ hs₁ hr₁ hp₁ => by
    rw [ok_bind]
    exact (still_yield hs₁.inv hr₁ hp₁ (fun hw => hnot ((hs₁.inside t).mp hw)) v).mono fun _ s₂ hs₂ =>
      ok_pure.mpr ⟨hs₂.inv, (hs₁.trans hs₂).agree h⟩
  simp only [fdtask, ok_bind, ok_running hr, ok_globals, hpc]
  split
  · exact hyield s (still_refl hi) hr hp
  · rename_i hle
    have hpolls : Polls s.g := ⟨hph, t, v, n, hr, hpc, by omega⟩
    -- the readings of the clock change nothing
    have hpolled : ∀ s₁, Still t s s₁ → s₁.g.taskrunning = some t → s₁.pc = s.pc → s₁.g.task = s.g.task → s₁.g.live = s.g.live →
        Ok (fdpolled tab v r now') s₁ fun tab' s' => Inv s' ∧ Agree tab' s' := by
      intro s₁ hs₁ hr₁ hp₁ htask hlive
      have hp₁' : (s₁.pc t).array = none := by rw [hp₁]; exact hp
      cases r with
      | eintr => exact hyield s₁ hs₁ hr₁ hp₁'
      | failed =>
        simp only [fdpolled, ok_bind]
        refine ok_modify.mpr (ok_pure.mpr ⟨inv_modify hs₁.inv fun _ => rfl, nofun, ?_, h.once, ?_⟩)
        · exact fun u => (h.waits u).trans (hs₁.inside u).symm
        · exact fun u hw => hs₁.asleep u ((hs₁.inside u).mp hw) (h.asleep u ((hs₁.inside u).mp hw))
      | ready revents =>
        obtain ⟨hz, hdue⟩ := hq revents rfl hpolls
        have hzero : ∀ j < (tab.found revents).npollfd, ((tab.found revents).pollfd j).revents = 0 := fun j hj => by
          have hj : j < tab.npollfd := hj
          simp [Table.found, hj, hz j hj]
        simp only [fdpolled, ok_bind]
        rw [show tab.npollfd = (tab.found revents).npollfd from rfl, fdready_quiet hzero _ 0 (by omega), ok_pure]
        refine (still_timers hs₁.inv hr₁ hp₁' (fun hw => hnot ((hs₁.inside t).mp hw)) (fun u hw => ?_) v).mono fun _ s₂ hs₂ => ?_
        · rw [htask]
          exact hdue u ((hs₁.inside u).mp hw)
        · obtain ⟨h1, h2, h3, h4⟩ := (hs₁.trans hs₂).agree h
          exact ok_pure.mpr ⟨hs₂.inv, h1, h2, h3, h4⟩
    have hnote : ∀ s₁, Still t s s₁ → ∀ o : Obs, o.note = true → Still t s (s₁.obs o) := fun s₁ hs₁ o ho =>
      ⟨inv_note hs₁.inv ho, hs₁.main, hs₁.inside, hs₁.asleep⟩
    simp only [fdpoll, ok_bind, ok_head]
    cases (s.m.q .sleeping).head? with
    | none =>
      simp only [ok_bind, ok_observe]
      exact hpolled _ (hnote s (still_refl hi) (.epoll_wait 0) rfl) hr rfl rfl rfl
    | some u =>
      simp only [ok_bind, ok_observe, ok_globals]
      exact hpolled _ (hnote _ (hnote s (still_refl hi) (.nsec now) rfl) (.epoll_wait _) rfl) hr rfl rfl rfl

end

/-! ## Runs -/

/-- The table has the tasks blocked in `fdwait`, once each, they are on the sleeping list, and
    nobody on that is on the run queue too. -/
def Records (x : Sys) : Prop := ∃ q rq,
  IsDll x.s.m.next x.s.m.prev (x.s.m.list .sleeping).head (x.s.m.list .sleeping).tail q ∧
  IsDll x.s.m.next x.s.m.prev (x.s.m.list .taskrunqueue).head (x.s.m.list .taskrunqueue).tail rq ∧
  (∀ t, (∃ i < x.tab.npollfd, x.tab.polltask i = t) ↔ Blocked x.s.g t ∧ ∃ n, (x.s.g.task t).pc = .fdwait n) ∧
  (∀ i < x.tab.npollfd, ∀ j < x.tab.npollfd, x.tab.polltask i = x.tab.polltask j → i = j) ∧
  (∀ i < x.tab.npollfd, x.tab.polltask i ∈ q) ∧ ∀ t ∈ q, t ∉ rq

theorem agree_step {x : Sys} {p : Places} {e : SysEv} {tab : Table} {s' : State Glob Heap} (hl : Linked x.s p)
    (h : Agree x.tab ⟨x.s.g, p⟩) (hc : x.Can e) (hq : Quiet x e) (hs : (e.code x.tab).onHeap x.s = .ok (tab, s')) :
    ∃ p', Linked s' p' ∧ Agree tab ⟨s'.g, p'⟩ := by
  have hok : Ok (e.code x.tab) ⟨x.s.g, p⟩ fun tab' s' => Inv s' ∧ Agree tab' s' := by
    cases e with
    | lib e =>
      obtain ⟨hen, hf, hg⟩ := hc
      obtain ⟨⟨⟩, s₁, hr, h₁⟩ := step_places hl.inv hen
      refine ok_bind.mpr ⟨(), s₁, hr, ok_pure.mpr ⟨h₁, agree_lib hl.inv h hen hf hg (fun he => ?_) hr h₁⟩⟩
      subst he
      exact hq rfl
    | fdwait fd rw now a => exact agree_fdwait hl.inv h hc
    | poll now r now' =>
      refine agree_poll hl.inv h hc.1 hc.2 fun revents hr => ?_
      subst hr
      exact hq
  obtain ⟨tab', s₁, hr, hi, ha⟩ := hok
  obtain ⟨m', hh, hrep⟩ := onPlaces_refines _ hr hl.rep
  rw [show (⟨x.s.g, x.s.m⟩ : State Glob Heap) = x.s from rfl, hs] at hh
  obtain ⟨rfl, rfl⟩ := Prod.mk.inj (Except.ok.inj hh)
  exact ⟨s₁.m, ⟨hi, hrep⟩, ha⟩

/-- As long as no task in `fdwait` is woken. -/
theorem records_agree {x₀ x : Sys} (h₀ : SysStarts x₀) (h : SysRun Quiet x₀ x) : Records x := by
  have hrun : ∃ p, Linked x.s p ∧ Agree x.tab ⟨x.s.g, p⟩ := by
    induction h with
    | refl =>
      obtain ⟨hstart, htab⟩ := h₀
      refine ⟨Places.empty, linked_start hstart, ?_⟩
      obtain ⟨rendezl, size, junk, mem, -, he⟩ := hstart
      have hlt : ∀ i, ¬ i < x₀.tab.npollfd := fun i => by
        rw [htab]
        exact Nat.not_lt_zero i
      rw [he]
      refine ⟨fun _ => rfl, fun t => iff_of_false (fun hi => hi.elim fun i hi => hlt i hi.1) ?_, fun i hi => absurd hi (hlt i), ?_⟩
      · exact fun hw => nomatch hw.1
      · exact fun t hw => nomatch hw.1
    | step e _ hc hq hs ih =>
      obtain ⟨p, hl, ha⟩ := ih
      exact agree_step hl ha hc hq hs
  obtain ⟨p, hl, ha⟩ := hrun
  have hmem : ∀ t, InFdwait x.s.g t → t ∈ p.q .sleeping := fun t hw => (p.mem_iff .sleeping t).mpr (ha.asleep t hw)
  refine ⟨p.q .sleeping, p.q .taskrunqueue, hl.rep .sleeping, hl.rep .taskrunqueue,
    fun t => (ha.waits t).trans ⟨fun hw => ?_, fun hb => ?_⟩,
    ha.once, fun i hi => hmem _ ((ha.waits _).mp ⟨i, hi, rfl⟩), fun t hq hrq => ?_⟩
  · obtain ⟨h1, h2, h3, -⟩ := (hl.inv.good t).resting (ha.asleep t hw) nofun
    have hz : (x.s.g.task t).state = .zero := h3
    exact ⟨⟨h1, of_decide_eq_false h2, by rw [hz]; nofun⟩, hw.2⟩
  · exact ⟨hb.1.1, hb.2⟩
  · exact nomatch ((p.mem_iff .sleeping t).mp hq).symm.trans ((p.mem_iff .taskrunqueue t).mp hrq)

/-! ## Single runs -/

def Sys.result (x : Sys) (e : SysEv) : Except String (Table × State Glob Heap) := (e.code x.tab).onHeap x.s

def Sys.next (x : Sys) (e : SysEv) : Sys :=
  match x.result e with
  | .ok (tab, s') => ⟨s', tab⟩
  | .error _ => x

def goes (g : Glob) : Bool := g.at fun k => match k with | .fdtask _ _ => true | _ => false

/-- Enough for a step to be possible, and it computes. -/
def Sys.can (x : Sys) : SysEv → Bool
  | .lib (.fdwait _ _) => false
  | .lib (.resume now poll now') => x.s.g.can (.resume now poll now') && !goes x.s.g
  | .lib e => x.s.g.can e
  | .fdwait _ _ now a => x.s.g.can (.fdwait now a)
  | .poll _ _ _ => x.s.g.phase = .loop && goes x.s.g

/-- The steps `es` can be taken in turn, and `c` accepts them. -/
def Sys.plays (c : Sys → SysEv → Bool) (x : Sys) : List SysEv → Bool
  | [] => true
  | e :: es => x.can e && c x e && (x.result e).toBool && (x.next e).plays c es

section
variable {x x₀ : Sys} {g : Glob}

theorem goes_iff : goes g = true ↔ Goes g := by
  constructor
  · intro h
    obtain ⟨t, ht, hk⟩ := at_of h
    cases hpc : (g.task t).pc with
    | fdtask v n => exact ⟨t, v, n, ht, hpc⟩
    | _ => rw [hpc] at hk; cases hk
  · intro h
    obtain ⟨t, v, n, ht, hpc⟩ := h
    simp only [goes, Glob.at, ht, hpc]

theorem Sys.Can.of {e : SysEv} (h : x.can e = true) : x.Can e := by
  cases e with
  | lib e =>
    cases e with
    | fdwait now a => cases h
    | resume now poll now' =>
      obtain ⟨h1, h2⟩ := Bool.and_eq_true_iff.mp h
      refine ⟨enabled_of_can h1, nofun, fun _ _ _ _ hg => ?_⟩
      rw [goes_iff.mpr hg] at h2
      cases h2
    | _ => exact ⟨enabled_of_can h, nofun, nofun⟩
  | fdwait fd rw now a => exact enabled_of_can (e := .fdwait now a) h
  | poll now r now' =>
    obtain ⟨h1, h2⟩ := Bool.and_eq_true_iff.mp h
    exact ⟨of_decide_eq_true h1, goes_iff.mp h2⟩

theorem SysRun.plays {C : Sys → SysEv → Prop} {c : Sys → SysEv → Bool} (hC : ∀ x e, c x e = true → C x e) :
    ∀ (es : List SysEv) {x : Sys}, SysRun C x₀ x → x.plays c es = true → SysRun C x₀ (es.foldl Sys.next x) := by
  intro es
  induction es with
  | nil => exact fun h _ => h
  | cons e es ih =>
    intro x h hp
    simp only [Sys.plays, Bool.and_eq_true] at hp
    obtain ⟨⟨⟨hcan, hc⟩, hres⟩, hrest⟩ := hp
    refine ih ?_ hrest
    cases hr : x.result e with
    | error why => rw [hr] at hres; cases hres
    | ok r =>
      obtain ⟨tab, s'⟩ := r
      have hnext : x.next e = ⟨s', tab⟩ := by rw [Sys.next, hr]
      rw [hnext]
      exact .step e h (.of hcan) (hC x e hc) hr

end

def sysBoot : Sys := ⟨boot, ⟨fun _ => ⟨0, 0, 0⟩, fun _ => 0, 0⟩⟩

theorem sysStarts_boot : SysStarts sysBoot := ⟨starts_boot, rfl⟩

/-- Task 1 is in `fdwait`, task 3 sleeps for 20 ms, and the `fdtask` 2 gets to `poll`. -/
def bothSleep : List SysEv :=
  [.lib (.taskcreate 1), .lib (.taskcreate 3), .lib .taskscheduler, .lib (.resume 0 .eintr 0), .fdwait 5 'r' 0 2,
    .lib .taskscheduler, .lib (.resume 0 .eintr 0), .lib (.taskdelay 20 0 4), .lib .taskscheduler, .lib (.resume 0 .eintr 0),
    .lib .taskscheduler]

theorem records_agree_asleep : ∃ x, Records x ∧ x.tab.npollfd = 1 ∧ x.tab.polltask 0 = 1 ∧
    (x.s.m.list .sleeping).head = some 3 ∧ (x.s.m.list .sleeping).tail = some 1 := by
  have h := SysRun.plays (C := Quiet)
    (c := fun _ e => match e with | .poll _ (.ready _) _ => false | .lib (.callback _) => false | _ => true)
    (fun x e hc => by
      cases e with
      | lib e =>
        cases e with
        | callback r => cases hc
        | _ => trivial
      | fdwait fd rw now a => trivial
      | poll now r now' =>
        cases r with
        | ready revents => cases hc
        | _ => trivial)
    (bothSleep ++ [.poll 0 .eintr 0]) (.refl : SysRun Quiet sysBoot sysBoot) (by decide +kernel)
  exact ⟨_, records_agree sysStarts_boot h, by decide +kernel, by decide +kernel, by decide +kernel, by decide +kernel⟩

/-- `poll` finds task 1's descriptor ready: the task is on the run queue and on the sleeping list.
    Its 30 s are up: it is ready, and its entry is still there. -/
theorem one_record_stays :
    (∃ x, SysRun (fun _ _ => True) sysBoot x ∧ x.tab.npollfd = 0 ∧ (x.s.g.task 1).state = .READY ∧ ¬ Records x) ∧
    ∃ x, SysRun (fun _ _ => True) sysBoot x ∧ (x.s.m.list .sleeping).head = none ∧ (x.s.g.task 1).state = .READY ∧
      ¬ Records x := by
  have hrun : ∀ es, sysBoot.plays (fun _ _ => true) es = true → SysRun (fun _ _ => True) sysBoot (es.foldl Sys.next sysBoot) :=
    fun es hp => SysRun.plays (fun _ _ _ => trivial) es .refl hp
  constructor
  · obtain ⟨x, hx⟩ : ∃ x, x = (bothSleep ++ [SysEv.poll 0 (.ready fun _ => 1) 0]).foldl Sys.next sysBoot := ⟨_, rfl⟩
    have hlist : (x.s.m.list .sleeping).tail = some 1 ∧ (x.s.m.list .taskrunqueue).head = some 1 ∧ x.tab.npollfd = 0 ∧
        (x.s.g.task 1).state = .READY := by
      subst hx
      decide +kernel
    refine ⟨x, hx ▸ hrun _ (by decide +kernel), hlist.2.2.1, hlist.2.2.2, fun hrec => ?_⟩
    obtain ⟨q, rq, hq, hrq, -, -, -, hno⟩ := hrec
    have h1 : 1 ∈ q := List.mem_of_getLast? (hq.tail.symm.trans hlist.1)
    exact hno 1 h1 (List.mem_of_head? (hrq.head.symm.trans hlist.2.1))
  · obtain ⟨x, hx⟩ : ∃ x, x = (bothSleep ++ [SysEv.poll 0 (.ready fun _ => 0) 30000000000]).foldl Sys.next sysBoot := ⟨_, rfl⟩
    have htab : (x.s.m.list .sleeping).head = none ∧ (x.s.g.task 1).state = .READY ∧ 0 < x.tab.npollfd ∧ x.tab.polltask 0 = 1 := by
      subst hx
      decide +kernel
    refine ⟨x, hx ▸ hrun _ (by decide +kernel), htab.1, htab.2.1, fun hrec => ?_⟩
    obtain ⟨q, rq, -, -, hiff, -⟩ := hrec
    obtain ⟨⟨-, -, hstate⟩, -⟩ := (hiff 1).mp ⟨0, htab.2.2⟩
    exact hstate htab.2.1

end Libtask.Sched.Pollfd
