/-
  Libtask.Sched.Locking — the actions of QLock and RWLock keep what holds between steps.

  A function that changes a lock is an action on states (`qacquire`, `qrelease`, …), and what
  the action does to the locks is what the operation of Libtask.Lib.Mutex or
  Libtask.Lib.RwLock does (`locks_…`). Hence it keeps the invariant (`inv_…`).
-/

import Libtask.Sched.Keep

namespace Libtask.Sched

open Function (update update_self update_of_ne update_eq_self update_idem)
open Libtask.Lib

/-! ## Actions -/

def Locks.setQ (v : Locks) (l : Nat) (x : Mutex.St TaskPtr) : Locks := { v with q := update v.q l x }

def Locks.setRw (v : Locks) (l : Nat) (x : RwLock.St TaskPtr) (n : Int) : Locks :=
  { v with rw := update v.rw l x, readers := update v.readers l n }

def State.setOwner (s : St) (l : Nat) (t : Option TaskPtr) : St :=
  s.modify fun g => { g with owner := update g.owner l t }

def State.setRw (s : St) (l : Nat) (f : RWLock → RWLock) : St :=
  s.modify fun g => { g with rw := update g.rw l (f (g.rw l)) }

def State.qacquire (s : St) (l : Nat) (t : TaskPtr) : St := (s.setOwner l (some t)).obs (.qgot l t)

def State.qrelease (s : St) (l : Nat) (t : TaskPtr) : St :=
  match (s.m.q (.qwaiting l)).head? with
  | none => (s.obs (.qunlock l t)).setOwner l none
  | some u => ((s.obs (.qunlock l t)).setOwner l (some u)).wake (.qwaiting l) u

def State.racquire (s : St) (l : Nat) (t : TaskPtr) : St :=
  (s.setRw l fun x => { x with readers := x.readers + 1 }).obs (.rgot l t)

def State.wacquire (s : St) (l : Nat) (t : TaskPtr) : St :=
  (s.setRw l fun x => { x with writer := some t }).obs (.wgot l t)

def State.wgrant (s : St) (l : Nat) : St :=
  match (s.m.q (.wwaiting l)).head? with
  | none => s
  | some u => (s.setRw l fun x => { x with writer := some u }).wake (.wwaiting l) u

def State.rgrant (s : St) (l : Nat) (u : TaskPtr) : St :=
  (s.setRw l fun x => { x with readers := x.readers + 1 }).wake (.rwaiting l) u

def State.rdrop (s : St) (l : Nat) (t : TaskPtr) : St :=
  (s.obs (.runlock l t)).setRw l fun x => { x with readers := x.readers - 1 }

def State.wdrop (s : St) (l : Nat) (t : TaskPtr) : St :=
  (s.obs (.wunlock l t)).setRw l fun x => { x with writer := none }

/-! ## What they do to the locks -/

section
variable {s : St} {t u : TaskPtr} {l : Nat} {v : Locks}

@[simp] theorem setQ_q (v : Locks) (l : Nat) (x : Mutex.St TaskPtr) : (v.setQ l x).q l = x := by simp [Locks.setQ]

@[simp] theorem setRw_rw (v : Locks) (l : Nat) (x : RwLock.St TaskPtr) (n : Int) : (v.setRw l x n).rw l = x := by
  simp [Locks.setRw]

@[simp] theorem setRw_readers (v : Locks) (l : Nat) (x : RwLock.St TaskPtr) (n : Int) :
    (v.setRw l x n).readers l = n := by
  simp [Locks.setRw]

@[simp] theorem setRw_setRw (v : Locks) (l : Nat) (x y : RwLock.St TaskPtr) (m n : Int) :
    (v.setRw l x m).setRw l y n = v.setRw l y n := by
  simp [Locks.setRw]

theorem eq_setQ {v' : Locks} {x : Mutex.St TaskPtr} (h : v'.q l = x) (hne : ∀ l', l' ≠ l → v'.q l' = v.q l')
    (hrw : ∀ l', v'.rw l' = v.rw l') (hr : v'.readers = v.readers) : v' = v.setQ l x := by
  have hq : v'.q = update v.q l x := by
    funext l'
    by_cases hl : l' = l
    · rw [hl, update_self, h]
    · rw [update_of_ne hl, hne l' hl]
  obtain ⟨q', rw', readers'⟩ := v'
  simp only [Locks.setQ, Locks.mk.injEq]
  exact ⟨hq, funext hrw, hr⟩

theorem eq_setRw {v' : Locks} {x : RwLock.St TaskPtr} {n : Int} (h : v'.rw l = x) (hn : v'.readers l = n)
    (hne : ∀ l', l' ≠ l → v'.rw l' = v.rw l' ∧ v'.readers l' = v.readers l')
    (hq : ∀ l', v'.q l' = v.q l') :
    v' = v.setRw l x n := by
  have hrw : v'.rw = update v.rw l x := by
    funext l'
    by_cases hl : l' = l
    · rw [hl, update_self, h]
    · rw [update_of_ne hl, (hne l' hl).1]
  have hr : v'.readers = update v.readers l n := by
    funext l'
    by_cases hl : l' = l
    · rw [hl, update_self, hn]
    · rw [update_of_ne hl, (hne l' hl).2]
  obtain ⟨q', rw', readers'⟩ := v'
  simp only [Locks.setRw, Locks.mk.injEq]
  exact ⟨funext hq, hrw, hr⟩

/-- Only QLock `l` changed, and what was seen is about it. -/
theorem locks_setQ (os : List Obs) {s' : St} {x : Mutex.St TaskPtr} (hlog : s'.g.log = os ++ s.g.log)
    (hos : ∀ o ∈ os, ∀ l', rwEv l' o = none ∧ (l' ≠ l → qEv l' o = none)) (hrw : s'.g.rw = s.g.rw)
    (ho : ∀ l', l' ≠ l → s'.g.owner l' = s.g.owner l')
    (hq : ∀ y, y ≠ .qwaiting l → y.plain = false → s'.m.q y = s.m.q y) (hx : s'.locks.q l = x) :
    s'.locks = s.locks.setQ l x := by
  have hrwlog : ∀ l', s'.g.rwlog l' = s.g.rwlog l' := fun l' => by
    rw [Glob.rwlog, hlog, List.filterMap_append, List.filterMap_eq_nil_iff.mpr fun o h => (hos o h l').1]
    rfl
  have hqlog : ∀ l', l' ≠ l → s'.g.qlog l' = s.g.qlog l' := fun l' hl => by
    rw [Glob.qlog, hlog, List.filterMap_append, List.filterMap_eq_nil_iff.mpr fun o h => (hos o h l').2 hl]
    rfl
  refine eq_setQ hx ?_ ?_ ?_
  · intro l' hl
    simp only [State.locks, hqlog l' hl, ho l' hl, hq (.qwaiting l') (by simpa using hl) rfl]
  · intro l'
    simp only [State.locks, hrwlog, hrw, hq (.rwaiting l') (by simp) rfl, hq (.wwaiting l') (by simp) rfl]
  · simp only [State.locks, hrw]

/-- Only RWLock `l` changed, and what was seen is about it. -/
theorem locks_setRw (o : Obs) {s' : St} {x : RwLock.St TaskPtr} {n : Int} (hlog : s'.g.log = o :: s.g.log)
    (ho : ∀ l', qEv l' o = none ∧ (l' ≠ l → rwEv l' o = none)) (howner : s'.g.owner = s.g.owner)
    (hrw : ∀ l', l' ≠ l → s'.g.rw l' = s.g.rw l')
    (hq : ∀ y, y ≠ .rwaiting l → y ≠ .wwaiting l → y.plain = false → s'.m.q y = s.m.q y)
    (hx : s'.locks.rw l = x) (hn : (s'.g.rw l).readers = n) : s'.locks = s.locks.setRw l x n := by
  have hqlog : ∀ l', s'.g.qlog l' = s.g.qlog l' := fun l' => by
    rw [Glob.qlog, hlog, List.filterMap_cons, (ho l').1]
    rfl
  have hrwlog : ∀ l', l' ≠ l → s'.g.rwlog l' = s.g.rwlog l' := fun l' hl => by
    rw [Glob.rwlog, hlog, List.filterMap_cons, (ho l').2 hl]
    rfl
  refine eq_setRw hx hn (fun l' hl => ⟨?_, ?_⟩) ?_
  · simp only [State.locks, hrwlog l' hl, hrw l' hl, hq (.rwaiting l') (by simpa using hl) (by simp) rfl,
      hq (.wwaiting l') (by simp) (by simpa using hl) rfl]
  · simp only [State.locks, hrw l' hl]
  · intro l'
    simp only [State.locks, hqlog, howner, hq (.qwaiting l') (by simp) (by simp) rfl]

/-! ### QLock -/

theorem locks_qacquire : (s.qacquire l t).locks = s.locks.setQ l ((s.locks.q l).acquire t) := by
  refine locks_setQ [.qgot l t] rfl (List.forall_mem_singleton.mpr fun l' => ⟨rfl, fun h => if_neg (Ne.symm h)⟩) rfl
    (fun l' hl => update_of_ne hl _ _) (fun _ _ _ => rfl) ?_
  simp [State.locks, State.qacquire, State.setOwner, State.obs, State.modify, Glob.observe, Glob.qlog, qEv,
    Mutex.St.acquire]

theorem locks_qblock (h : s.m.loc t = none) :
    (s.push (.qwaiting l) t).locks = s.locks.setQ l ((s.locks.q l).enqueue t) := by
  refine locks_setQ [.add (.qwaiting l) t] rfl
    (List.forall_mem_singleton.mpr fun l' => ⟨rfl, fun h => if_neg (Ne.symm h)⟩) rfl (fun _ _ => rfl)
    (fun y hy _ => by rw [push_q h, update_of_ne hy]) ?_
  simp only [State.locks, push_q h]
  simp [State.push, Glob.observe, Glob.qlog, qEv, Mutex.St.enqueue]

theorem locks_qrelease : (s.qrelease l t).locks = s.locks.setQ l ((s.locks.q l).release t) := by
  cases hq : s.m.q (.qwaiting l) with
  | nil =>
    simp only [State.qrelease, hq, List.head?_nil]
    refine locks_setQ [.qunlock l t] rfl (List.forall_mem_singleton.mpr fun l' => ⟨rfl, fun h => if_neg (Ne.symm h)⟩) rfl
      (fun l' hl => update_of_ne hl _ _) (fun _ _ _ => rfl) ?_
    simp [State.locks, State.setOwner, State.obs, State.modify, Glob.observe, Glob.qlog, qEv, Mutex.St.release, hq]
  | cons u us =>
    have hu : ((s.obs (.qunlock l t)).setOwner l (some u)).m.loc u = some (.qwaiting l) :=
      loc_of_head (s := s) (by rw [hq]; rfl)
    have hu' : (((s.obs (.qunlock l t)).setOwner l (some u)).pull (.qwaiting l) u).m.loc u = none := by
      rw [pull_loc hu, update_self]
    simp only [State.qrelease, hq, List.head?_cons, State.wake, locks_ready hu']
    refine locks_setQ [.del (.qwaiting l) u, .qunlock l t] rfl (List.forall_mem_cons.mpr
      ⟨fun l' => ⟨rfl, fun h => if_neg (Ne.symm h)⟩, List.forall_mem_singleton.mpr fun l' => ⟨rfl, fun h => if_neg (Ne.symm h)⟩⟩)
      rfl (fun l' hl => update_of_ne hl _ _) (fun y hy _ => by rw [pull_q hu, update_of_ne hy]; rfl) ?_
    simp only [State.locks, pull_q hu]
    simp [State.pull, State.setOwner, State.obs, State.modify, Glob.observe, Glob.qlog, qEv, Mutex.St.release, hq]

/-! ### RWLock -/

theorem locks_racquire :
    (s.racquire l t).locks = s.locks.setRw l ((s.locks.rw l).read t) (s.locks.readers l + 1) := by
  refine locks_setRw (.rgot l t) rfl (fun l' => ⟨rfl, fun h => if_neg (Ne.symm h)⟩) rfl
    (fun l' hl => update_of_ne hl _ _) (fun _ _ _ _ => rfl) ?_ ?_
  · simp [State.locks, State.racquire, State.setRw, State.obs, State.modify, Glob.observe, Glob.rwlog, rwEv,
      RwLock.St.read, RwLock.readers]
  · simp [State.locks, State.racquire, State.setRw, State.obs, State.modify, Glob.observe]

theorem locks_wacquire :
    (s.wacquire l t).locks = s.locks.setRw l ((s.locks.rw l).write t) (s.locks.readers l) := by
  refine locks_setRw (.wgot l t) rfl (fun l' => ⟨rfl, fun h => if_neg (Ne.symm h)⟩) rfl
    (fun l' hl => update_of_ne hl _ _) (fun _ _ _ _ => rfl) ?_ ?_
  · simp [State.locks, State.wacquire, State.setRw, State.obs, State.modify, Glob.observe, Glob.rwlog, rwEv,
      RwLock.St.write, RwLock.readers]
  · simp [State.locks, State.wacquire, State.setRw, State.obs, State.modify, Glob.observe]

theorem locks_rblock (h : s.m.loc t = none) :
    (s.push (.rwaiting l) t).locks = s.locks.setRw l ((s.locks.rw l).waitRead t) (s.locks.readers l) := by
  refine locks_setRw (.add (.rwaiting l) t) rfl (fun l' => ⟨rfl, fun h => if_neg (Ne.symm h)⟩) rfl (fun _ _ => rfl)
    (fun y hy _ _ => by rw [push_q h, update_of_ne hy]) ?_ rfl
  simp only [State.locks, push_q h]
  simp [State.push, Glob.observe, Glob.rwlog, rwEv, RwLock.St.waitRead, RwLock.readers]

theorem locks_wblock (h : s.m.loc t = none) :
    (s.push (.wwaiting l) t).locks = s.locks.setRw l ((s.locks.rw l).waitWrite t) (s.locks.readers l) := by
  refine locks_setRw (.add (.wwaiting l) t) rfl (fun l' => ⟨rfl, fun h => if_neg (Ne.symm h)⟩) rfl (fun _ _ => rfl)
    (fun y _ hy _ => by rw [push_q h, update_of_ne hy]) ?_ rfl
  simp only [State.locks, push_q h]
  simp [State.push, Glob.observe, Glob.rwlog, rwEv, RwLock.St.waitWrite, RwLock.readers]

theorem locks_wgrant : (s.wgrant l).locks = s.locks.setRw l (s.locks.rw l).grantWriter (s.locks.readers l) := by
  cases hq : s.m.q (.wwaiting l) with
  | nil =>
    simp only [State.wgrant, hq, List.head?_nil]
    refine eq_setRw ?_ rfl (fun _ _ => ⟨rfl, rfl⟩) (fun _ => rfl)
    simp [State.locks, RwLock.St.grantWriter, hq]
  | cons u us =>
    have hu : (s.setRw l fun x => { x with writer := some u }).m.loc u = some (.wwaiting l) :=
      loc_of_head (s := s) (by rw [hq]; rfl)
    have hu' : ((s.setRw l fun x => { x with writer := some u }).pull (.wwaiting l) u).m.loc u = none := by
      rw [pull_loc hu, update_self]
    simp only [State.wgrant, hq, List.head?_cons, State.wake, locks_ready hu']
    refine locks_setRw (.del (.wwaiting l) u) rfl (fun l' => ⟨rfl, fun h => if_neg (Ne.symm h)⟩) rfl
      (fun l' hl => update_of_ne hl _ _) (fun y _ hy _ => by rw [pull_q hu, update_of_ne hy]; rfl) ?_ ?_
    · simp only [State.locks, pull_q hu]
      simp [State.pull, State.setRw, State.modify, Glob.observe, Glob.rwlog, rwEv, RwLock.St.grantWriter, hq,
        RwLock.readers]
    · simp [State.locks, State.pull, State.setRw, State.modify, Glob.observe]

theorem locks_rgrant {us : List TaskPtr} (hq : s.m.q (.rwaiting l) = u :: us) : (s.rgrant l u).locks =
    s.locks.setRw l { s.locks.rw l with
      held := u :: (s.locks.rw l).held, rq := us, log := .rgrant u :: (s.locks.rw l).log } (s.locks.readers l + 1) := by
  have hu : (s.setRw l fun x => { x with readers := x.readers + 1 }).m.loc u = some (.rwaiting l) :=
    loc_of_head (s := s) (by rw [hq]; rfl)
  have hu' : ((s.setRw l fun x => { x with readers := x.readers + 1 }).pull (.rwaiting l) u).m.loc u = none := by
    rw [pull_loc hu, update_self]
  simp only [State.rgrant, State.wake, locks_ready hu']
  refine locks_setRw (.del (.rwaiting l) u) rfl (fun l' => ⟨rfl, fun h => if_neg (Ne.symm h)⟩) rfl
    (fun l' hl => update_of_ne hl _ _) (fun y hy _ _ => by rw [pull_q hu, update_of_ne hy]; rfl) ?_ ?_
  · simp only [State.locks, pull_q hu]
    simp [State.pull, State.setRw, State.modify, Glob.observe, Glob.rwlog, rwEv, hq, RwLock.readers]
  · simp [State.locks, State.pull, State.setRw, State.modify, Glob.observe]

theorem locks_rdrop :
    (s.rdrop l t).locks = s.locks.setRw l ((s.locks.rw l).dropRead t) (s.locks.readers l - 1) := by
  refine locks_setRw (.runlock l t) rfl (fun l' => ⟨rfl, fun h => if_neg (Ne.symm h)⟩) rfl
    (fun l' hl => update_of_ne hl _ _) (fun _ _ _ _ => rfl) ?_ ?_
  · simp [State.locks, State.rdrop, State.setRw, State.obs, State.modify, Glob.observe, Glob.rwlog, rwEv,
      RwLock.St.dropRead, RwLock.readers]
  · simp [State.locks, State.rdrop, State.setRw, State.obs, State.modify, Glob.observe]

theorem locks_wdrop : (s.wdrop l t).locks = s.locks.setRw l ((s.locks.rw l).dropWrite t) (s.locks.readers l) := by
  refine locks_setRw (.wunlock l t) rfl (fun l' => ⟨rfl, fun h => if_neg (Ne.symm h)⟩) rfl
    (fun l' hl => update_of_ne hl _ _) (fun _ _ _ _ => rfl) ?_ ?_
  · simp [State.locks, State.wdrop, State.setRw, State.obs, State.modify, Glob.observe, Glob.rwlog, rwEv,
      RwLock.St.dropWrite, RwLock.readers]
  · simp [State.locks, State.wdrop, State.setRw, State.obs, State.modify, Glob.observe]

/-! ## They keep the invariant -/

theorem LocksOk.setQ {pc : TaskPtr → Pc} (h : LocksOk v pc) {x : Mutex.St TaskPtr} (hx : Mutex.Reach x)
    (hh : ∀ u r, pc u = .qlock l r → u ∈ x.waiting ∨ x.owner = some u) : LocksOk (v.setQ l x) pc := by
  refine ⟨?_, h.rw, h.readers, ?_⟩
  · intro l'
    by_cases hl : l' = l
    · subst hl
      rw [setQ_q]
      exact hx
    · simp only [Locks.setQ, update_of_ne hl]
      exact h.q l'
  · intro u
    have hu := h.has u
    cases hk : pc u with
    | qlock l' r =>
      rw [hk] at hu
      by_cases hl : l' = l
      · subst hl
        simp only [Has, setQ_q]
        exact hh u r hk
      · simp only [Has, Locks.setQ, update_of_ne hl]
        exact hu
    | _ => rw [hk] at hu; exact hu

theorem LocksOk.setRw {pc : TaskPtr → Pc} (h : LocksOk v pc) {x : RwLock.St TaskPtr} (hx : RwLock.Reach x) {n : Int}
    (hn : n = x.held.length) (hr : ∀ u, pc u = .rlock l → u ∈ x.rq ∨ u ∈ x.held)
    (hw : ∀ u, pc u = .wlock l → u ∈ x.wq ∨ x.writer = some u) : LocksOk (v.setRw l x n) pc := by
  refine ⟨h.q, ?_, ?_, ?_⟩
  · intro l'
    by_cases hl : l' = l
    · subst hl
      rw [setRw_rw]
      exact hx
    · simp only [Locks.setRw, update_of_ne hl]
      exact h.rw l'
  · intro l'
    by_cases hl : l' = l
    · subst hl
      rw [setRw_rw, setRw_readers]
      exact hn
    · simp only [Locks.setRw, update_of_ne hl]
      exact h.readers l'
  · intro u
    have hu := h.has u
    cases hk : pc u with
    | rlock l' =>
      rw [hk] at hu
      by_cases hl : l' = l
      · subst hl
        simp only [Has, setRw_rw]
        exact hr u hk
      · simp only [Has, Locks.setRw, update_of_ne hl]
        exact hu
    | wlock l' =>
      rw [hk] at hu
      by_cases hl : l' = l
      · subst hl
        simp only [Has, setRw_rw]
        exact hw u hk
      · simp only [Has, Locks.setRw, update_of_ne hl]
        exact hu
    | _ => rw [hk] at hu; exact hu

theorem LocksOk.of_pc {pc : TaskPtr → Pc} {k : Pc} (h : LocksOk v pc) (hk : pc u = k) : Has v u k := hk ▸ h.has u

theorem tasks_setOwner (h : Tasks s) (l : Nat) (o : Option TaskPtr) : Tasks (s.setOwner l o) := tasks_modify h fun _ => rfl

theorem tasks_setRw (h : Tasks s) (l : Nat) (f : RWLock → RWLock) : Tasks (s.setRw l f) := tasks_modify h fun _ => rfl

theorem inv_qacquire (h : Inv s) (hn : s.g.owner l = none) (t : TaskPtr) : Inv (s.qacquire l t) where
  toTasks := tasks_obs (tasks_setOwner h.toTasks l _) rfl (sound_cons h.base.sound nofun nofun)
  locks := by
    rw [locks_qacquire]
    refine h.locks.setQ (.acquire t (h.locks.q l) hn) ?_
    intro u r hu
    -- nobody waits for a free lock, and nobody has it
    rcases h.locks.of_pc hu with hm | ho
    · rw [Mutex.no_idle_wait (h.locks.q l) hn] at hm
      cases hm
    · rw [show (s.locks.q l).owner = none from hn] at ho
      cases ho

theorem inv_qblock (h : Inv s) (hr : s.g.taskrunning = some t) (hp : (s.pc t).array = none) (hn : s.g.owner l ≠ none)
    {o : Option Nat} (ha : ∀ r, o = some r → s.g.rendezl r = some l ∧ .add (.rendez r) t ∈ s.g.log) :
    Inv ((s.push (.qwaiting l) t).leave t (.qlock l o)) where
  toTasks := tasks_block h.toTasks hr hp rfl nofun fun l' r he => by
    obtain ⟨rfl, rfl⟩ := Pc.qlock.inj he
    exact ha r rfl
  locks := by
    rw [locks_leave, locks_qblock (h.here hr).2.2, pc_leave]
    refine LocksOk.setPc (h.locks.setQ (.enqueue t (h.locks.q l) hn) ?_) ?_
    · intro u r' hu
      exact (h.locks.of_pc hu).imp_left fun hm => List.mem_append_left [t] hm
    · simp [Has, Mutex.St.enqueue]

theorem tasks_qrelease (h : Tasks s) (l : Nat) (t : TaskPtr) : Tasks (s.qrelease l t) := by
  have ho := tasks_obs h (o := .qunlock l t) rfl (sound_cons h.base.sound nofun nofun)
  cases hq : (s.m.q (.qwaiting l)).head? with
  | none =>
    simp only [State.qrelease, hq]
    exact tasks_setOwner ho l none
  | some u =>
    simp only [State.qrelease, hq]
    exact tasks_wake (tasks_setOwner ho l (some u)) hq nofun nofun

theorem pc_qrelease (l : Nat) (t : TaskPtr) : (s.qrelease l t).pc = s.pc := by
  simp only [State.qrelease]
  split
  · rfl
  · exact pc_wake

theorem inv_qrelease (h : Inv s) (ho : s.g.owner l = some t) (hp : ∀ r, s.pc t ≠ .qlock l r) : Inv (s.qrelease l t) where
  toTasks := tasks_qrelease h.toTasks l t
  locks := by
    rw [locks_qrelease, pc_qrelease]
    refine h.locks.setQ (.release t (h.locks.q l) ho) ?_
    intro u r hu
    have hm : u ∈ (s.locks.q l).waiting := (h.locks.of_pc hu).resolve_right fun he => by
      rw [show (s.locks.q l).owner = some t from ho] at he
      exact hp r (Option.some.inj he ▸ hu)
    -- the first in the queue is granted the lock, the others stay
    cases hw : (s.locks.q l).waiting with
    | nil => rw [hw] at hm; cases hm
    | cons b bs =>
      rw [hw] at hm
      simp only [Mutex.St.release, hw]
      rcases List.mem_cons.mp hm with rfl | hm
      · exact Or.inr rfl
      · exact Or.inl hm

theorem readers_zero (h : Inv s) : (s.g.rw l).readers = 0 ↔ (s.locks.rw l).held = [] := by
  have hn : (s.g.rw l).readers = (s.locks.rw l).held.length := h.locks.readers l
  rw [hn, ← List.length_eq_zero_iff]
  omega

theorem inv_racquire (h : Inv s) (hw : (s.g.rw l).writer = none) (hq : s.m.q (.wwaiting l) = []) (t : TaskPtr) :
    Inv (s.racquire l t) where
  toTasks := tasks_obs (tasks_setRw h.toTasks l _) rfl (sound_cons h.base.sound nofun nofun)
  locks := by
    rw [locks_racquire]
    refine h.locks.setRw (.read t (h.locks.rw l) hw hq) ?_ ?_ fun u hu => h.locks.of_pc hu
    · rw [h.locks.readers l]
      simp [RwLock.St.read]
    · intro u hu
      exact (h.locks.of_pc hu).imp_right fun hm => List.mem_cons_of_mem t hm

theorem inv_wacquire (h : Inv s) (hw : (s.g.rw l).writer = none) (hn : (s.g.rw l).readers = 0) (t : TaskPtr) :
    Inv (s.wacquire l t) where
  toTasks := tasks_obs (tasks_setRw h.toTasks l _) rfl (sound_cons h.base.sound nofun nofun)
  locks := by
    have hheld := (readers_zero h).mp hn
    rw [locks_wacquire]
    refine h.locks.setRw (.write t (h.locks.rw l) hw hheld) (h.locks.readers l) (fun u hu => h.locks.of_pc hu)
      ?_
    intro u hu
    rcases h.locks.of_pc hu with hm | he
    · exact Or.inl hm
    · rw [show (s.locks.rw l).writer = none from hw] at he
      cases he

theorem inv_rblock (h : Inv s) (hr : s.g.taskrunning = some t) (hp : (s.pc t).array = none)
    (hn : (s.g.rw l).writer ≠ none ∨ s.m.q (.wwaiting l) ≠ []) : Inv ((s.push (.rwaiting l) t).leave t (.rlock l)) where
  toTasks := tasks_block h.toTasks hr hp rfl nofun nofun
  locks := by
    rw [locks_leave, locks_rblock (h.here hr).2.2, pc_leave]
    refine LocksOk.setPc (h.locks.setRw (.waitRead t (h.locks.rw l) hn) (h.locks.readers l) ?_
      fun u hu => h.locks.of_pc hu) ?_
    · intro u hu
      exact (h.locks.of_pc hu).imp_left fun hm => List.mem_append_left [t] hm
    · simp [Has, RwLock.St.waitRead]

theorem inv_wblock (h : Inv s) (hr : s.g.taskrunning = some t) (hp : (s.pc t).array = none)
    (hn : ¬ ((s.g.rw l).writer = none ∧ (s.g.rw l).readers = 0)) : Inv ((s.push (.wwaiting l) t).leave t (.wlock l)) where
  toTasks := tasks_block h.toTasks hr hp rfl nofun nofun
  locks := by
    have hn' : (s.locks.rw l).writer ≠ none ∨ (s.locks.rw l).held ≠ [] := by
      rw [readers_zero h] at hn
      exact not_and_or.mp hn
    rw [locks_leave, locks_wblock (h.here hr).2.2, pc_leave]
    refine LocksOk.setPc (h.locks.setRw (.waitWrite t (h.locks.rw l) hn') (h.locks.readers l)
      (fun u hu => h.locks.of_pc hu) ?_) ?_
    · intro u hu
      exact (h.locks.of_pc hu).imp_left fun hm => List.mem_append_left [t] hm
    · simp [Has, RwLock.St.waitWrite]

/-! ### `runlock` -/

/-- A waiting writer goes on waiting, or is granted the lock. -/
theorem grantWriter_has {x : RwLock.St TaskPtr} (h : u ∈ x.wq) : u ∈ x.grantWriter.wq ∨ x.grantWriter.writer = some u := by
  cases hw : x.wq with
  | nil => rw [hw] at h; cases h
  | cons b bs =>
    rw [hw] at h
    simp only [RwLock.St.grantWriter, hw]
    rcases List.mem_cons.mp h with rfl | h
    · exact Or.inr rfl
    · exact Or.inl h

theorem grantWriter_readers (x : RwLock.St TaskPtr) : x.grantWriter.held = x.held ∧ x.grantWriter.rq = x.rq := by
  simp only [RwLock.St.grantWriter]
  split <;> exact ⟨rfl, rfl⟩

def State.runlock (s : St) (l : Nat) (t : TaskPtr) : St :=
  if ((s.rdrop l t).g.rw l).readers = 0 then (s.rdrop l t).wgrant l else s.rdrop l t

theorem tasks_wgrant (h : Tasks s) (l : Nat) : Tasks (s.wgrant l) := by
  cases hq : (s.m.q (.wwaiting l)).head? with
  | none =>
    simp only [State.wgrant, hq]
    exact h
  | some u =>
    simp only [State.wgrant, hq]
    exact tasks_wake (tasks_setRw h l _) hq nofun nofun

theorem pc_wgrant (l : Nat) : (s.wgrant l).pc = s.pc := by
  simp only [State.wgrant]
  split
  · rfl
  · exact pc_wake

theorem inv_runlock (h : Inv s) (hm : t ∈ (s.locks.rw l).held) (hp : s.pc t ≠ .rlock l) : Inv (s.runlock l t) := by
  have htasks : Tasks (s.rdrop l t) :=
    tasks_setRw (tasks_obs h.toTasks (o := .runlock l t) rfl (sound_cons h.base.sound nofun nofun)) l _
  have hheld : ((s.locks.rw l).dropRead t).held = (s.locks.rw l).held.erase t := rfl
  have hn : s.locks.readers l - 1 = ((s.locks.rw l).dropRead t).held.length := by
    have := List.length_pos_of_mem hm
    rw [h.locks.readers l, hheld, List.length_erase_of_mem hm]
    omega
  have hzero : ((s.rdrop l t).g.rw l).readers = 0 ↔ ((s.locks.rw l).dropRead t).held = [] := by
    have hrd : ((s.rdrop l t).g.rw l).readers = s.locks.readers l - 1 := by
      show (s.rdrop l t).locks.readers l = _
      rw [locks_rdrop, setRw_readers]
    rw [hrd, hn, ← List.length_eq_zero_iff]
    omega
  have hw : (s.locks.rw l).writer = none := by
    by_contra hne
    rw [(RwLock.inv (h.locks.rw l)).excl hne] at hm
    cases hm
  have hreach := RwLock.Reach.runlock t (h.locks.rw l) hm
  -- who waits or reads goes on, but for the caller
  have hrd : ∀ u, s.pc u = .rlock l → u ∈ (s.locks.rw l).rq ∨ u ∈ (s.locks.rw l).held.erase t := fun u hu =>
    (h.locks.of_pc hu).imp_right fun hmu => (List.mem_erase_of_ne fun he : u = t => hp (he ▸ hu)).mpr hmu
  have hwr : ∀ u, s.pc u = .wlock l → u ∈ (s.locks.rw l).wq := fun u hu =>
    (h.locks.of_pc hu).resolve_right fun he => by rw [hw] at he; cases he
  by_cases hz : ((s.locks.rw l).dropRead t).held = []
  · rw [State.runlock, if_pos (hzero.mpr hz)]
    refine ⟨tasks_wgrant htasks l, ?_⟩
    rw [RwLock.St.runlock, if_pos hz] at hreach
    obtain ⟨hgh, hgr⟩ := grantWriter_readers ((s.locks.rw l).dropRead t)
    rw [locks_wgrant, locks_rdrop, setRw_setRw, setRw_rw, setRw_readers, pc_wgrant]
    refine h.locks.setRw hreach (by rw [hgh]; exact hn) (fun u hu => ?_) fun u hu => grantWriter_has (hwr u hu)
    rw [hgh, hgr]
    exact hrd u hu
  · rw [State.runlock, if_neg fun he => hz (hzero.mp he)]
    refine ⟨htasks, ?_⟩
    rw [RwLock.St.runlock, if_neg hz] at hreach
    rw [locks_rdrop]
    exact h.locks.setRw hreach hn hrd fun u hu => Or.inl (hwr u hu)

/-! ### `wunlock` -/

theorem tasks_rgrant (h : Tasks s) (hq : (s.m.q (.rwaiting l)).head? = some u) : Tasks (s.rgrant l u) :=
  tasks_wake (tasks_setRw h l _) hq nofun nofun

/-- From `s`, `wunlock`'s loop granted the lock to the readers `done`, and `xs` wait. -/
structure Granting (s : St) (l : Nat) (done xs : List TaskPtr) (s' : St) : Prop where
  tasks : Tasks s'
  pc : s'.pc = s.pc
  count : s'.g.nalltask = s.g.nalltask
  locks : s'.locks = s.locks.setRw l
    { s.locks.rw l with
      held := done.reverse ++ (s.locks.rw l).held, rq := xs
      log := (done.map RwLock.Ev.rgrant).reverse ++ (s.locks.rw l).log } (s.locks.readers l + done.length)

theorem Granting.queue {s' : St} {done xs : List TaskPtr} (h : Granting s l done xs s') : s'.m.q (.rwaiting l) = xs := by
  show (s'.locks.rw l).rq = xs
  rw [h.locks, setRw_rw]

theorem rgrant_nalltask : (s.rgrant l u).g.nalltask = s.g.nalltask := by
  simp only [State.rgrant, State.wake, State.setRw, State.ready, State.push, State.pull, State.setTask, State.modify, Glob.observe,
    Glob.setTask]

theorem granting_step {s' : St} {done xs : List TaskPtr} (h : Granting s l done (u :: xs) s') :
    Granting s l (done ++ [u]) xs (s'.rgrant l u) where
  tasks := tasks_rgrant h.tasks (by rw [h.queue]; rfl)
  pc := (pc_wake).trans h.pc
  count := rgrant_nalltask.trans h.count
  locks := by
    rw [locks_rgrant h.queue, h.locks, setRw_setRw, setRw_rw, setRw_readers]
    simp [Int.add_assoc]

def State.wunlock (s : St) (l : Nat) : St := if (s.g.rw l).readers = 0 then s.wgrant l else s

theorem inv_wunlock (h : Inv s) (hw : (s.g.rw l).writer = some t) (hp : s.pc t ≠ .wlock l) {s' : St}
    (hg : Granting (s.wdrop l t) l (s.m.q (.rwaiting l)) [] s') : Inv (s'.wunlock l) := by
  have hw' : (s.locks.rw l).writer = some t := hw
  have hheld : (s.locks.rw l).held = [] := (RwLock.inv (h.locks.rw l)).excl (by rw [hw']; nofun)
  have hreach := RwLock.Reach.wunlock t (h.locks.rw l) hw'
  -- the lock behind the loop
  have hrw : s'.locks = s.locks.setRw l (((s.locks.rw l).dropWrite t).grantReaders)
      ((s.locks.rw l).dropWrite t).grantReaders.held.length := by
    rw [hg.locks, locks_wdrop, setRw_setRw, setRw_rw, setRw_readers, h.locks.readers l]
    simp only [RwLock.St.grantReaders, RwLock.St.dropWrite, hheld, List.append_nil, List.length_reverse,
      List.length_nil, Int.natCast_zero, Int.zero_add]
    rfl
  have hzero : (s'.g.rw l).readers = 0 ↔ ((s.locks.rw l).dropWrite t).grantReaders.held = [] := by
    show s'.locks.readers l = 0 ↔ _
    rw [hrw, setRw_readers, ← List.length_eq_zero_iff]
    omega
  have hrd : ∀ u, s.pc u = .rlock l → u ∈ ((s.locks.rw l).dropWrite t).grantReaders.held := fun u hu => by
    rcases h.locks.of_pc hu with hm | hm
    · exact List.mem_append_left _ (List.mem_reverse.mpr hm)
    · rw [hheld] at hm
      cases hm
  have hwr : ∀ u, s.pc u = .wlock l → u ∈ (s.locks.rw l).wq := fun u hu =>
    (h.locks.of_pc hu).resolve_right fun he => by
      rw [hw'] at he
      exact hp (Option.some.inj he ▸ hu)
  by_cases hz : ((s.locks.rw l).dropWrite t).grantReaders.held = []
  · rw [State.wunlock, if_pos (hzero.mpr hz)]
    refine ⟨tasks_wgrant hg.tasks l, ?_⟩
    rw [RwLock.St.wunlock, if_pos hz] at hreach
    obtain ⟨hgh, hgr⟩ := grantWriter_readers ((s.locks.rw l).dropWrite t).grantReaders
    rw [locks_wgrant, hrw, setRw_setRw, setRw_rw, setRw_readers, pc_wgrant, hg.pc]
    refine h.locks.setRw hreach (by rw [hgh]) (fun u hu => ?_) fun u hu => grantWriter_has (hwr u hu)
    rw [hgh]
    exact Or.inr (hrd u hu)
  · rw [State.wunlock, if_neg fun he => hz (hzero.mp he)]
    refine ⟨hg.tasks, ?_⟩
    rw [RwLock.St.wunlock, if_neg hz] at hreach
    rw [hrw, hg.pc]
    exact h.locks.setRw hreach rfl (fun u hu => Or.inr (hrd u hu)) fun u hu => Or.inl (hwr u hu)

end

end Libtask.Sched
