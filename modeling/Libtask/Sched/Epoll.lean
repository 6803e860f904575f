/-
  Libtask.Sched.Epoll — `fdwait` with its calls of the kernel, and descriptors that come and go.

  `Sys` is the library with the kernel's descriptors and registrations, the instance `epfd`,
  and for each task in `fdwait` its locals. The application opens, duplicates and closes
  descriptors between its calls. `epoll_wait` reports registrations of `epfd`, as the kernel
  likes; a step is one in which the code can deal with them.

  `_startfdtask` makes a new instance. An assertion that fails ends the process: no step.
-/

import Libtask.Lib.Epoll
import Libtask.Sched.RoundRobin

namespace Libtask.Sched

open Function (update update_self update_of_ne)
open Libtask.Lib.Epoll

/-- The locals of `fdwait` at its `taskdelay`, and what it did. -/
structure Wait where
  fd : Nat
  duped : Bool
  /-- What its `EPOLL_CTL_ADD` registered. -/
  reg : Option (Reg TaskPtr)
  /-- What the descriptor named at the call. -/
  desc : Option Nat
  deriving DecidableEq, Repr

structure Sys where
  s : State Glob Heap
  k : Kernel TaskPtr
  epfd : Nat
  wait : TaskPtr → Option Wait

/-! ## fdwait -/

/-- `fdwait` of `t` up to its `taskdelay`. `d` is what `dup` returns, if it does; `fail` is an
    `EPOLL_CTL_ADD` that fails for want of memory, or for a file that cannot be polled. -/
def fdwaitadd (k : Kernel TaskPtr) (epfd : Nat) (t : TaskPtr) (fd : Nat) (d : Option Nat) (fail : Bool) :
    Option (Kernel TaskPtr × Wait) :=
  if fail then some (k, ⟨fd, false, none, k.names fd⟩)
  else
    match k.add epfd fd t with
    | .ok (k', r) => some (k', ⟨fd, false, some r, k.names fd⟩)
    | .error .EBADF => some (k, ⟨fd, false, none, k.names fd⟩)
    | .error .EEXIST =>
      match d with
      | none => none
      | some d =>
        match (k.dup fd d).add epfd d t with
        | .ok (k', r) => some (k', ⟨d, true, some r, k.names fd⟩)
        | .error _ => none

/-- `fdwait` behind its `taskdelay`. -/
def fdwaitdel (k : Kernel TaskPtr) (epfd : Nat) (w : Wait) : Kernel TaskPtr :=
  if w.duped then (k.del epfd w.fd).close w.fd else k.del epfd w.fd

/-! ## Steps -/

inductive SysEv where
  /-- Any step of the library without the kernel. -/
  | lib (e : Ev)
  | fdwait (fd now : Nat) (a : TaskPtr) (d : Option Nat) (fail : Bool)
  /-- The task that runs goes on in `fdwait`. -/
  | fdwaitreturn (now : Nat)
  /-- The `fdtask` goes on, and `epoll_wait` reports `rs`. -/
  | epoll_wait (now : Nat) (rs : List (Reg TaskPtr)) (now' : Nat)
  | openfd (fd : Nat)
  | dup (fd d : Nat)
  | close (fd : Nat)

/-- The library's part of the step. -/
def SysEv.ev : SysEv → Option Ev
  | .lib e => some e
  | .fdwait _ now a _ _ => some (.fdwait now a)
  | .fdwaitreturn now => some (.resume now .eintr 0)
  | .epoll_wait now rs now' => some (.resume now (.events (rs.map Reg.data)) now')
  | _ => none

def SysEv.code (e : SysEv) : Lib Unit :=
  match e.ev with
  | some ev => Sched.code ev
  | none => pure ()

/-- The step has nothing to do with the kernel. -/
def Plain (g : Glob) : Ev → Prop
  | .fdwait _ _ => False
  | .resume _ poll _ => (∀ ts, poll ≠ .events ts) ∧ ∀ t n, g.taskrunning = some t → (g.task t).pc ≠ .fdwait n
  | _ => True

/-- The `fdtask` calls `epoll_wait` next. -/
def Polls (g : Glob) : Prop :=
  g.phase = .loop ∧ ∃ t v n, g.taskrunning = some t ∧ (g.task t).pc = .fdtask v n ∧ yielded g n ≤ 0

def Sys.Can (x : Sys) : SysEv → Prop
  | .lib e => Plain x.s.g e ∧ Enabled x.s.g e
  | .fdwait _ now a d _ => Enabled x.s.g (.fdwait now a) ∧ ∀ n, d = some n → x.k.names n = none
  | .fdwaitreturn now => Enabled x.s.g (.resume now .eintr 0) ∧ ∃ t n, x.s.g.taskrunning = some t ∧ (x.s.g.task t).pc = .fdwait n
  | .epoll_wait now rs now' => Polls x.s.g ∧ Enabled x.s.g (.resume now (.events (rs.map Reg.data)) now') ∧
      rs.length ≤ 1000 ∧ rs.Nodup ∧ ∀ r ∈ rs, r ∈ x.k.regs ∧ r.inst = x.epfd
  | .openfd fd => Outside x.s.g ∧ x.k.names fd = none
  | .dup _ d => Outside x.s.g ∧ x.k.names d = none
  | .close _ => Outside x.s.g

/-- `epfd` behind `_startfdtask`, if that is called. -/
def Sys.created (x : Sys) (starts : Bool) : Nat := if starts && !x.s.g.startedfdtask then x.epfd + 1 else x.epfd

/-- The system behind a step by which the library is in `s'`. -/
def Sys.after (x : Sys) (s' : State Glob Heap) : SysEv → Option Sys
  | .lib e => some { x with s := s', epfd := x.created e.starts }
  | .fdwait fd _ _ d fail =>
    match x.s.g.taskrunning with
    | some t =>
      match fdwaitadd x.k (x.created true) t fd d fail with
      | some (k, w) => some ⟨s', k, x.created true, update x.wait t (some w)⟩
      | none => none
    | none => none
  | .fdwaitreturn _ =>
    match x.s.g.taskrunning with
    | some t =>
      match x.wait t with
      | some w => some ⟨s', fdwaitdel x.k x.epfd w, x.epfd, update x.wait t none⟩
      | none => none
    | none => none
  | .epoll_wait _ _ _ => some { x with s := s' }
  | .openfd fd => some { x with s := s', k := x.k.openfd fd }
  | .dup fd d => some { x with s := s', k := x.k.dup fd d }
  | .close fd => some { x with s := s', k := x.k.close fd }

/-- Nobody waits yet; the process has some descriptors. -/
structure SysStarts (x : Sys) : Prop where
  starts : Starts x.s
  wf : Wf x.k
  regs : x.k.regs = []
  wait : ∀ t, x.wait t = none

/-- Runs whose steps all are as `C` says. -/
inductive SysRun (C : Sys → SysEv → Sys → Prop) (x₀ : Sys) : Sys → Prop
  | refl : SysRun C x₀ x₀
  | step {x x' : Sys} {s' : State Glob Heap} (e : SysEv) : SysRun C x₀ x → x.Can e → e.code.onHeap x.s = .ok ((), s') →
      x.after s' e = some x' → C x e x' → SysRun C x₀ x'

section
variable {x x' : Sys} {e : SysEv} {ev : Ev} {s' : State Glob Heap} {p p' : Places} {t : TaskPtr}

theorem Sys.Can.enabled (h : x.Can e) (he : e.ev = some ev) : Enabled x.s.g ev := by
  cases e with
  | lib e => exact Option.some.inj he ▸ h.2
  | fdwait fd now a d fail => exact Option.some.inj he ▸ h.1
  | fdwaitreturn now => exact Option.some.inj he ▸ h.1
  | epoll_wait now rs now' => exact Option.some.inj he ▸ h.2.1
  | _ => cases he

theorem after_s (h : x.after s' e = some x') : x'.s = s' := by
  cases e with
  | fdwait fd now a d fail =>
    simp only [Sys.after] at h
    split at h
    · split at h
      · cases h; rfl
      · cases h
    · cases h
  | fdwaitreturn now =>
    simp only [Sys.after] at h
    split at h
    · split at h
      · cases h; rfl
      · cases h
    · cases h
  | _ => cases h; rfl

/-- A step of the system is one of the library, or leaves that alone. -/
theorem sys_step (hl : Linked x.s p) (hc : x.Can e) (hs : e.code.onHeap x.s = .ok ((), s')) :
    ∃ p', Linked s' p' ∧ ((∃ ev, e.ev = some ev ∧ Enabled x.s.g ev ∧ (Sched.code ev).onPlaces ⟨x.s.g, p⟩ = .ok ((), ⟨s'.g, p'⟩)) ∨
      e.ev = none ∧ s' = x.s ∧ p' = p) := by
  cases hev : e.ev with
  | none =>
    simp only [SysEv.code, hev] at hs
    obtain ⟨-, rfl⟩ := Prod.mk.inj (Except.ok.inj hs)
    exact ⟨p, hl, .inr ⟨rfl, rfl, rfl⟩⟩
  | some ev =>
    simp only [SysEv.code, hev] at hs
    have hen := hc.enabled hev
    obtain ⟨p', hr, hl'⟩ := hl.step hen hs
    exact ⟨p', hl', .inl ⟨ev, rfl, hen, hr⟩⟩

/-- What happens on the places in a step: one of the library, or nothing. -/
def OnPlaces (x : Sys) (p : Places) (e : SysEv) (x' : Sys) (p' : Places) : Prop :=
  (∃ ev, e.ev = some ev ∧ Enabled x.s.g ev ∧ (Sched.code ev).onPlaces ⟨x.s.g, p⟩ = .ok ((), ⟨x'.s.g, p'⟩)) ∨
    e.ev = none ∧ x'.s = x.s ∧ p' = p

theorem SysRun.holds {C : Sys → SysEv → Sys → Prop} {x₀ : Sys} {P : Sys → Places → Prop} {p₀ : Places} (h₀ : Linked x₀.s p₀)
    (hp : P x₀ p₀) (hstep : ∀ {x x' : Sys} {p p' : Places} {s' : State Glob Heap} {e : SysEv}, Linked x.s p → P x p → x.Can e →
      Linked x'.s p' → OnPlaces x p e x' p' → x.after s' e = some x' → C x e x' → P x' p')
    (h : SysRun C x₀ x) : ∃ p, Linked x.s p ∧ P x p := by
  induction h with
  | refl => exact ⟨p₀, h₀, hp⟩
  | step e _ hc hs ha hC ih =>
    obtain ⟨p, hl, hP⟩ := ih
    obtain ⟨p', hl', ho⟩ := sys_step hl hc hs
    rw [← after_s ha] at hl' ho
    exact ⟨p', hl', hstep hl hP hc hl' ho ha hC⟩

end

/-! ## Single runs -/

/-- The process has no descriptors yet. -/
def sysBoot : Sys := ⟨boot, ⟨[], [], 0⟩, 0, fun _ => none⟩

theorem sysStarts_boot : SysStarts sysBoot := ⟨starts_boot, ⟨nofun, nofun, nofun⟩, rfl, fun _ => rfl⟩

/-- A task runs, at a place that `f` accepts. -/
def Glob.at (g : Glob) (f : Pc → Bool) : Bool :=
  match g.taskrunning with
  | some t => f (g.task t).pc
  | none => false

def Pc.inFdwait : Pc → Bool
  | .fdwait _ => true
  | _ => false

def Glob.plain (g : Glob) : Ev → Bool
  | .fdwait _ _ => false
  | .resume _ (.events _) _ => false
  | .resume _ _ _ => !g.at Pc.inFdwait
  | _ => true

def Glob.polls (g : Glob) : Bool :=
  g.phase = .loop && g.at fun k => match k with | .fdtask _ n => yielded g n ≤ 0 | _ => false

def Glob.outside (g : Glob) : Bool := g.phase = .main || g.runs.isSome

/-- Enough for a step to be possible, and it computes. -/
def Sys.can (x : Sys) : SysEv → Bool
  | .lib e => x.s.g.plain e && x.s.g.can e
  | .fdwait _ now a d _ => x.s.g.can (.fdwait now a) && d.all fun n => x.k.names n = none
  | .fdwaitreturn now => x.s.g.can (.resume now .eintr 0) && x.s.g.at Pc.inFdwait
  | .epoll_wait now rs now' => x.s.g.polls && x.s.g.can (.resume now (.events (rs.map Reg.data)) now') &&
      rs.length ≤ 1000 && rs.Nodup && rs.all fun r => r ∈ x.k.regs && r.inst = x.epfd
  | .openfd fd => x.s.g.outside && x.k.names fd = none
  | .dup _ d => x.s.g.outside && x.k.names d = none
  | .close _ => x.s.g.outside

section
variable {x x₀ : Sys} {g : Glob} {f : Pc → Bool}

theorem at_of (h : g.at f = true) : ∃ t, g.taskrunning = some t ∧ f (g.task t).pc = true := by
  unfold Glob.at at h
  split at h
  · exact ⟨_, by assumption, h⟩
  · cases h

theorem inFdwait_of (h : g.at Pc.inFdwait = true) : ∃ t n, g.taskrunning = some t ∧ (g.task t).pc = .fdwait n := by
  obtain ⟨t, ht, hk⟩ := at_of h
  cases hpc : (g.task t).pc with
  | fdwait n => exact ⟨t, n, ht, hpc⟩
  | _ => rw [hpc] at hk; cases hk

theorem plain_of {e : Ev} (h : g.plain e = true) : Plain g e := by
  cases e with
  | fdwait now a => cases h
  | resume now poll now' =>
    have hat : (∀ ts, poll ≠ .events ts) ∧ g.at Pc.inFdwait = false := by
      cases poll with
      | events ts => cases h
      | eintr => exact ⟨nofun, Bool.not_eq_true' _ ▸ h⟩
      | failed => exact ⟨nofun, Bool.not_eq_true' _ ▸ h⟩
    refine ⟨hat.1, fun t n ht hn => ?_⟩
    have h' := hat.2
    simp only [Glob.at, ht, hn] at h'
    cases h'
  | _ => trivial

theorem polls_of (h : g.polls = true) : Polls g := by
  obtain ⟨h1, h2⟩ := Bool.and_eq_true_iff.mp h
  obtain ⟨t, ht, hk⟩ := at_of h2
  refine ⟨of_decide_eq_true h1, t, ?_⟩
  cases hpc : (g.task t).pc with
  | fdtask v n =>
    rw [hpc] at hk
    exact ⟨v, n, ht, rfl, of_decide_eq_true hk⟩
  | _ => rw [hpc] at hk; cases hk

theorem outside_of (h : g.outside = true) : Outside g := by
  rcases Bool.or_eq_true_iff.mp h with h | h
  · exact .inl (of_decide_eq_true h)
  · obtain ⟨t, ht⟩ := Option.isSome_iff_exists.mp h
    exact .inr ⟨t, of_decide_eq_true (Option.filter_eq_some_iff.mp ht).2⟩

theorem Sys.Can.of {e : SysEv} (h : x.can e = true) : x.Can e := by
  cases e with
  | lib e =>
    obtain ⟨h1, h2⟩ := Bool.and_eq_true_iff.mp h
    exact ⟨plain_of h1, enabled_of_can h2⟩
  | fdwait fd now a d fail =>
    obtain ⟨h1, h2⟩ := Bool.and_eq_true_iff.mp h
    refine ⟨enabled_of_can h1, fun n hn => ?_⟩
    subst hn
    exact of_decide_eq_true h2
  | fdwaitreturn now =>
    obtain ⟨h1, h2⟩ := Bool.and_eq_true_iff.mp h
    exact ⟨enabled_of_can h1, inFdwait_of h2⟩
  | epoll_wait now rs now' =>
    simp only [Sys.can, Bool.and_eq_true, decide_eq_true_eq, List.all_eq_true] at h
    obtain ⟨⟨⟨⟨h1, h2⟩, h3⟩, h4⟩, h5⟩ := h
    exact ⟨polls_of h1, enabled_of_can h2, h3, h4, h5⟩
  | openfd fd =>
    obtain ⟨h1, h2⟩ := Bool.and_eq_true_iff.mp h
    exact ⟨outside_of h1, of_decide_eq_true h2⟩
  | dup fd d =>
    obtain ⟨h1, h2⟩ := Bool.and_eq_true_iff.mp h
    exact ⟨outside_of h1, of_decide_eq_true h2⟩
  | close fd => exact outside_of h

def Sys.result (x : Sys) (e : SysEv) : Option Sys :=
  x.after (match e.ev with | some ev => x.s.next ev | none => x.s) e

def Sys.next (x : Sys) (e : SysEv) : Sys := (x.result e).getD x

/-- The steps `es` can be taken in turn, and `c` accepts them. -/
def Sys.plays (c : Sys → SysEv → Sys → Bool) (x : Sys) : List SysEv → Bool
  | [] => true
  | e :: es => x.can e && (x.result e).isSome && c x e (x.next e) && (x.next e).plays c es

theorem SysRun.plays {C : Sys → SysEv → Sys → Prop} {c : Sys → SysEv → Sys → Bool} (hC : ∀ x e x', c x e x' = true → C x e x')
    {p : Places} (h₀ : Linked x₀.s p) : ∀ (es : List SysEv) {x : Sys}, SysRun C x₀ x → x.plays c es = true →
      SysRun C x₀ (es.foldl Sys.next x) := by
  intro es
  induction es with
  | nil => exact fun h _ => h
  | cons e es ih =>
    intro x h hp
    simp only [Sys.plays, Bool.and_eq_true] at hp
    obtain ⟨⟨⟨hcan, hres⟩, hc⟩, hrest⟩ := hp
    refine ih ?_ hrest
    obtain ⟨x', hx'⟩ := Option.isSome_iff_exists.mp hres
    have hnext : x.next e = x' := by rw [Sys.next, hx', Option.getD_some]
    obtain ⟨q, hl, -⟩ := SysRun.holds (P := fun _ _ => True) h₀ trivial (fun _ _ _ _ _ _ _ => trivial) h
    refine .step e h (.of hcan) ?_ (hnext ▸ hx') (hC _ _ _ hc)
    unfold SysEv.code
    cases hev : e.ev with
    | none => rfl
    | some ev =>
      obtain ⟨s', -, hs, -⟩ := ok_onHeap (step_places hl.inv ((Sys.Can.of hcan).enabled hev)) hl.rep
      have hs : (Sched.code ev).onHeap x.s = .ok ((), s') := hs
      show (Sched.code ev).onHeap x.s = .ok ((), x.s.next ev)
      rw [hs, State.next, hs]

end

end Libtask.Sched
