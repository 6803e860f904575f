/-
  Libtask.Sched.Udata — what a task's `udata` carries from call to call.

  A wake-up stores in the task's `udata` how its sleep ended, `taskdata` what the application
  wants, and the hooks read errors from there. In every run:
  - `errors_are_own`: a call returns the error of a wait that was not its own exactly if it is a
    `read1` that finds one in `udata`, from before.
  - `looks_blocking`: `read`, `write` and `accept` return what the kernel gave, or the error of
    their own wait, exactly if the `accept` behind an event did not find the connection gone
    (EAGAIN), and a `write`'s total fits an `int`.
  - `storage_kept`: a call leaves `udata` as it was exactly if it does not sleep, or what was there
    is what it leaves (`Keeps`).

  `stale_read1`, `second_accept` and `delay_overwrites` are runs in which that fails.
-/

import Libtask.Sched.Hooked

namespace Libtask.Sched.Hooks

open Function (update update_self update_of_ne)

/-! ## Errors of waits -/

/-- The error of a wait is returned for a wait of this call. -/
def OwnErrors (r : Ret) (waits : List Outcome) : Prop :=
  (r.m = -1 ∧ r.errno = some (.lib LIBTASK_TIMEOUT) → .timeout ∈ waits) ∧
    (r.m = -1 ∧ r.errno = some (.lib EIO) → .shutdown ∈ waits)

/-- `read1` is called with an error in `udata`. -/
def Stale (h : Hook) (udata : Int) : Prop :=
  (∃ fd n, h = .read1 fd n) ∧ (int udata = LIBTASK_TIMEOUT ∨ int udata = EIO)

section
variable {h : Hook} {udata : Int} {s : Seen} {r : Ret}

theorem own_of_waited (hw : Waited r s.waits) : OwnErrors r s.waits := by
  obtain ⟨o, rest, ho, hne, hr⟩ := hw
  rw [ho]
  refine ⟨fun he => ?_, fun he => ?_⟩
  all_goals
    have hu := Errno.lib.inj (Option.some.inj (hr.symm.trans he.2))
    cases o with
    | event => exact absurd rfl hne
    | timeout => first | exact List.mem_cons_self | cases hu
    | shutdown => first | exact List.mem_cons_self | cases hu

theorem own_of_kernel (he : ∀ e, r.errno ≠ some (.lib e)) : OwnErrors r s.waits :=
  ⟨fun h => absurd h.2 (he _), fun h => absurd h.2 (he _)⟩

theorem ownErrors_iff (hs : h.Spec udata r s) : OwnErrors r s.waits ↔ ¬ Stale h udata := by
  have hof : (∀ fd n, h ≠ .read1 fd n) → OwnErrors r s.waits → (OwnErrors r s.waits ↔ ¬ Stale h udata) := fun hh ho =>
    iff_of_true ho fun hst => hst.1.elim fun fd hn => hn.elim fun n he => hh fd n he
  cases h with
  | taskdelay ms => exact hof nofun (own_of_kernel fun e => by rw [hs.1]; nofun)
  | fdwait fd rw => exact hof nofun (own_of_kernel fun e => by rw [hs.1]; nofun)
  | read fd n =>
    refine hof nofun ?_
    rcases hs.2 with ⟨a, rest, -, -, -, rfl⟩ | ⟨-, hw⟩
    · exact own_of_kernel (ret_lib a)
    · exact own_of_waited hw
  | write fd n =>
    refine hof nofun ?_
    rcases hs.2 with ⟨rfl, -⟩ | ⟨-, ⟨e, rfl, -⟩ | ⟨-, hw⟩⟩
    · exact own_of_kernel nofun
    · exact own_of_kernel nofun
    · exact own_of_waited hw
  | accept fd =>
    obtain ⟨o, a, rest, -, -, -, -, rfl⟩ := hs
    exact hof nofun (own_of_kernel (ret_lib a))
  | connect fd =>
    refine hof nofun ?_
    rcases hs with ⟨-, -, he⟩ | ⟨o, -, hw, he⟩
    · exact own_of_kernel he
    · split at he
      · exact own_of_kernel he
      · rename_i hne
        exact own_of_waited ⟨o, [], hw, hne, he⟩
  | read1 fd n =>
    have hs : if int udata ≠ 0 then _ else _ := hs
    split at hs
    · obtain ⟨rfl, rfl⟩ := hs
      constructor
      · intro ho hst
        rcases hst.2 with he | he
        · exact nomatch ho.1 ⟨rfl, by rw [he]⟩
        · exact nomatch ho.2 ⟨rfl, by rw [he]⟩
      · intro hst
        refine ⟨fun he => ?_, fun he => ?_⟩
        · exact absurd ⟨⟨fd, n, rfl⟩, .inl (Errno.lib.inj (Option.some.inj he.2))⟩ hst
        · exact absurd ⟨⟨fd, n, rfl⟩, .inr (Errno.lib.inj (Option.some.inj he.2))⟩ hst
    · rename_i hz
      have hst : ¬ Stale (.read1 fd n) udata := fun hst => by
        rcases hst.2 with he | he
        · exact absurd ((not_not.mp hz).symm.trans he) (by decide)
        · exact absurd ((not_not.mp hz).symm.trans he) (by decide)
      refine iff_of_true ?_ hst
      obtain ⟨o, rest, a, rest', hw, -, hr⟩ := hs
      split at hr
      · obtain ⟨-, hne, rfl⟩ := hr
        exact own_of_waited ⟨o, rest, hw, hne, rfl⟩
      · rw [hr.2]
        exact own_of_kernel (ret_lib a)

end

/-- An error of a wait is returned for a wait of the same call, but for a `read1` that finds one in
    `udata`. -/
theorem errors_are_own {x₀ x : Sys} (h₀ : SysStarts x₀) (hr : SysRun (fun _ _ _ => True) x₀ x) {t : TaskPtr} {h : Hook}
    {udata : Int} {s : Seen} {r : Ret} (hd : .hook t h udata s r ∈ x.done) : OwnErrors r s.waits ↔ ¬ Stale h udata :=
  ownErrors_iff (runs_alone h₀ hr hd)

/-- The scheduler takes the next task, which goes on where it is. -/
def nextTask : List SysEv := [.lib .taskscheduler, .lib (.resume 0 .eintr 0)]

/-- The running task sleeps, with the `fdtask` to come next, until `now` in `epoll_wait`. -/
def sleepUntil (now : Nat) : List SysEv :=
  [.sleep 0 2] ++ nextTask ++ [.lib .taskscheduler, .lib (.resume 0 (.events []) now), .lib .taskscheduler, .back now]

/-- Task 1 runs, and is the only one. -/
def oneTask : List SysEv := .lib (.taskcreate 1) :: nextTask

/-- It calls `read`, which finds nothing, and waits too long. -/
def readTooLong : List SysEv :=
  oneTask ++ [.call (.read 5 64), .taskdata, .real ⟨-1, EAGAIN⟩] ++ sleepUntil 30000000000 ++ [.taskdata, .ret]

theorem errors_are_own_read : ∃ x, SysRun (fun _ _ _ => True) sysBoot x ∧
    .hook 1 (.read 5 64) 0 ⟨0, [.timeout], [(.read 5 64, ⟨-1, EAGAIN⟩)]⟩ ⟨-1, some (.lib LIBTASK_TIMEOUT)⟩ ∈ x.done ∧
    OwnErrors ⟨-1, some (.lib LIBTASK_TIMEOUT)⟩ [.timeout] := by
  have h := SysRun.played readTooLong (by decide +kernel)
  have hd : .hook 1 (.read 5 64) 0 ⟨0, [.timeout], [(.read 5 64, ⟨-1, EAGAIN⟩)]⟩ ⟨-1, some (.lib LIBTASK_TIMEOUT)⟩ ∈
      (readTooLong.foldl Sys.next sysBoot).done := by decide +kernel
  exact ⟨_, h, hd, (errors_are_own sysStarts_boot h hd).mpr fun hst => nomatch hst.1⟩

/-- It calls `taskdelay(1)`. -/
def delays : List SysEv := [.call (.taskdelay 1)] ++ sleepUntil 1000000 ++ [.ret]

/-- Behind its first call, a `taskdelay`, the task's `read1` times out before it waits. -/
theorem stale_read1 : ∃ x, SysRun (fun _ _ _ => True) sysBoot x ∧
    x.done = [.hook 1 (.read1 5 64) LIBTASK_TIMEOUT ⟨0, [], []⟩ ⟨-1, some (.lib LIBTASK_TIMEOUT)⟩,
      .hook 1 (.taskdelay 1) 0 ⟨LIBTASK_TIMEOUT, [.timeout], []⟩ ⟨1, none⟩] ∧
    ¬ OwnErrors ⟨-1, some (.lib LIBTASK_TIMEOUT)⟩ [] := by
  refine ⟨_, SysRun.played (oneTask ++ delays ++ [.call (.read1 5 64), .taskdata, .ret]) (by decide +kernel), ?_, ?_⟩
  · decide +kernel
  · exact fun h => nomatch h.1 ⟨rfl, rfl⟩

/-! ## Looking blocking -/

/-- What the kernel gave for the call: what it took, or its last answer, or its answer to `accept`. -/
def got : Hook → List (Syscall × Reply) → Int
  | .write _ _, replies => taken replies
  | .accept _, replies => match replies.getLast? with | some (_, a) => a.r | none => 0
  | _, replies => match replies with | (_, a) :: _ => a.r | [] => 0

/-- What is returned is an error of the kernel other than EAGAIN, an error of the last wait, or what
    the kernel gave. -/
def LooksBlocking (h : Hook) (s : Seen) (r : Ret) : Prop :=
  if r.m = -1 then (∃ e, r.errno = some (.kernel e) ∧ again e = false) ∨ Waited r s.waits else r.m = got h s.replies

/-- The kernel did not say EAGAIN to `accept`, and what `write` sent is less than 2^31 bytes. -/
def Gives (h : Hook) (s : Seen) : Prop :=
  (∀ fd c a, h = .accept fd → s.replies.getLast? = some (c, a) → a.r = -1 → again a.errno = false) ∧
    ∀ fd n, h = .write fd n → taken s.replies < 2 ^ 31

section
variable {h : Hook} {udata : Int} {s : Seen} {r : Ret}

/-- What the kernel answered is returned. -/
theorem looksBlocking_reply {a : Reply} (hr : r = a.ret) (ha : a.Fails ∨ 0 ≤ a.r ∧ a.r < 2 ^ 31) (hg : got h s.replies = a.r)
    (hw : ¬ Waited a.ret s.waits) : LooksBlocking h s r ↔ (a.r = -1 → again a.errno = false) := by
  subst hr
  unfold LooksBlocking
  rcases ha with ⟨hm, -⟩ | ⟨h0, hlt⟩
  · have hint : int a.r = -1 := by rw [hm]; rfl
    have hret : a.ret = ⟨-1, some (.kernel a.errno)⟩ := by
      simp only [Reply.ret, hint]
      rfl
    rw [if_pos (by rw [hret])]
    constructor
    · rintro (⟨e, he, hag⟩ | hwait) -
      · rw [hret] at he
        obtain rfl : a.errno = e := Errno.kernel.inj (Option.some.inj he)
        exact hag
      · exact absurd hwait hw
    · exact fun hag => .inl ⟨a.errno, by rw [hret], hag hm⟩
  · have hint : int a.r = a.r := int_of_small (by omega) hlt
    have hret : a.ret.m = a.r := hint
    rw [if_neg (by rw [hret]; omega), hret, hg]
    exact iff_of_true rfl fun hm => by omega

theorem not_waited (a : Reply) (waits : List Outcome) : ¬ Waited a.ret waits := fun hw => by
  obtain ⟨o, rest, -, -, he⟩ := hw
  exact ret_lib a _ he

theorem looksBlocking_iff (hs : h.Spec udata r s) (hh : (∃ fd n, h = .read fd n ∨ h = .write fd n) ∨ ∃ fd, h = .accept fd) :
    LooksBlocking h s r ↔ Gives h s := by
  rcases hh with ⟨fd, n, rfl | rfl⟩ | ⟨fd, rfl⟩
  · refine iff_of_true ?_ ⟨nofun, nofun⟩
    rcases hs.2 with ⟨a, rest, hrep, hans, hag, hr⟩ | ⟨hm, hw⟩
    · have ha : a.Fails ∨ 0 ≤ a.r ∧ a.r < 2 ^ 31 := hans.imp id fun hb => ⟨hb.1, by omega⟩
      refine (looksBlocking_reply hr ha (by rw [hrep]; rfl) (not_waited a _)).mpr fun hm => hag ?_
      rw [hm]
      decide
    · unfold LooksBlocking
      rw [if_pos hm]
      exact .inr hw
  · have hgives : Gives (.write fd n) s ↔ taken s.replies < 2 ^ 31 := ⟨fun hg => hg.2 fd n rfl, fun hlt => ⟨nofun, fun _ _ _ => hlt⟩⟩
    rw [hgives]
    unfold LooksBlocking
    rcases hs.2 with ⟨rfl, h0, hlt⟩ | ⟨hlt, ⟨e, rfl, hag⟩ | ⟨hm, hw⟩⟩
    · -- the total is returned, as an `int`
      have hint := int_wraps h0 (by omega)
      show (if int (taken s.replies) = -1 then _ else int (taken s.replies) = taken s.replies) ↔ _
      split at hint
      · rename_i hsmall
        rw [if_neg (by omega)]
        exact iff_of_true hint hsmall
      · rename_i hbig
        rw [if_neg (by omega)]
        exact iff_of_false (by omega) hbig
    · rw [if_pos rfl]
      exact iff_of_true (.inl ⟨e, rfl, hag⟩) hlt
    · refine iff_of_true ?_ hlt
      split
      · exact .inr hw
      · rename_i hne
        split at hm
        · exact hm
        · exact absurd hm hne
  · obtain ⟨o, a, rest, -, -, hrep, ha, hr⟩ := hs
    have hlast : s.replies.getLast? = some (.accept fd, a) := by rw [hrep, List.getLast?_concat]
    have hg : got (.accept fd) s.replies = a.r := by simp only [got, hlast]
    rw [looksBlocking_reply hr ha hg (not_waited a _)]
    refine ⟨fun hag => ⟨fun fd' c' a' _ hl hm => ?_, nofun⟩, fun hgv hm => hgv.1 fd _ a rfl hlast hm⟩
    obtain ⟨-, rfl⟩ := Prod.mk.inj (Option.some.inj (hlast.symm.trans hl))
    exact hag hm

end

/-- `read`, `write` and `accept` look blocking, but for an `accept` that finds nothing behind its
    wait, and a `write` of 2^31 bytes or more. -/
theorem looks_blocking {x₀ x : Sys} (h₀ : SysStarts x₀) (hr : SysRun (fun _ _ _ => True) x₀ x) {t : TaskPtr} {h : Hook}
    {udata : Int} {s : Seen} {r : Ret} (hd : .hook t h udata s r ∈ x.done)
    (hh : (∃ fd n, h = .read fd n ∨ h = .write fd n) ∨ ∃ fd, h = .accept fd) : LooksBlocking h s r ↔ Gives h s :=
  looksBlocking_iff (runs_alone h₀ hr hd) hh

theorem looks_blocking_read : ∃ x, SysRun (fun _ _ _ => True) sysBoot x ∧
    .hook 1 (.read 5 64) 0 ⟨0, [.timeout], [(.read 5 64, ⟨-1, EAGAIN⟩)]⟩ ⟨-1, some (.lib LIBTASK_TIMEOUT)⟩ ∈ x.done ∧
    LooksBlocking (.read 5 64) ⟨0, [.timeout], [(.read 5 64, ⟨-1, EAGAIN⟩)]⟩ ⟨-1, some (.lib LIBTASK_TIMEOUT)⟩ := by
  have h := SysRun.played readTooLong (by decide +kernel)
  have hd : .hook 1 (.read 5 64) 0 ⟨0, [.timeout], [(.read 5 64, ⟨-1, EAGAIN⟩)]⟩ ⟨-1, some (.lib LIBTASK_TIMEOUT)⟩ ∈
      (readTooLong.foldl Sys.next sysBoot).done := by decide +kernel
  exact ⟨_, h, hd, (looks_blocking sysStarts_boot h hd (.inl ⟨5, 64, .inl rfl⟩)).mpr ⟨nofun, nofun⟩⟩

/-- Tasks 1 and 2 call `accept` on one socket, and a connection comes, which wakes both. Task 1
    gets it, as descriptor 7. -/
def bothAccept : List SysEv :=
  [.lib (.taskcreate 1), .lib (.taskcreate 2)] ++ nextTask ++ [.call (.accept 3), .sleep 0 3] ++ nextTask ++
    [.call (.accept 3), .sleep 0 4] ++ nextTask ++
    [.lib .taskscheduler, .lib (.resume 0 (.events [1, 2]) 0), .lib .taskscheduler, .back 0, .real ⟨7, 0⟩, .real ⟨2, 0⟩,
      .real ⟨0, 0⟩, .real ⟨0, 0⟩, .real ⟨0, 0⟩, .ret, .lib .taskexit]

/-- Task 2 finds none, and its `accept` says so. -/
theorem second_accept : ∃ x s, SysRun (fun _ _ _ => True) sysBoot x ∧
    .hook 2 (.accept 3) 0 s ⟨-1, some (.kernel EAGAIN)⟩ ∈ x.done ∧ ¬ LooksBlocking (.accept 3) s ⟨-1, some (.kernel EAGAIN)⟩ := by
  refine ⟨_, ⟨0, [.event], [(.accept 3, ⟨-1, EAGAIN⟩)]⟩,
    SysRun.played (bothAccept ++ [.lib .taskscheduler, .back 0, .real ⟨-1, EAGAIN⟩, .ret]) (by decide +kernel), ?_, ?_⟩
  · decide +kernel
  · unfold LooksBlocking
    rw [if_pos rfl]
    rintro (⟨e, he, hag⟩ | ⟨o, rest, -, -, he⟩)
    · obtain rfl := Errno.kernel.inj (Option.some.inj he)
      cases hag
    · cases he

/-! ## The task's own storage -/

/-- The last wait ended in the way that `udata` says. -/
def Says (udata : Int) (waits : List Outcome) : Prop := ∃ o rest, waits = o :: rest ∧ udata = o.udata

/-- What was in `udata` is what the hook leaves there. -/
def Hook.Keeps (udata : Int) (s : Seen) : Hook → Prop
  | .taskdelay _ => Says udata s.waits
  | .fdwait _ _ => Says udata s.waits
  | .read _ _ => udata = 0
  | .write _ _ => udata = 0
  | .accept _ => Says udata s.waits
  | .connect _ => udata = 0 ∧ s.waits = [] ∨ Says udata s.waits
  -- behind an answer other than EAGAIN it leaves what the wait left
  | .read1 _ _ => udata = 0 ∧
      ((∃ c a rest, s.replies = (c, a) :: rest ∧ int a.r < 0 ∧ a.errno = EAGAIN) ∨ s.waits.head? = some .event)

def Done.task : Done → TaskPtr
  | .lib t _ _ _ => t
  | .hook t _ _ _ _ => t

/-- The `udata` of the task when it made the call. -/
def Done.before : Done → Int
  | .lib _ _ udata _ => udata
  | .hook _ _ udata _ _ => udata

/-- The same when the call returned. -/
def Done.behind : Done → Int
  | .lib _ _ _ udata' => udata'
  | .hook _ _ _ s _ => s.udata

/-- The call does not sleep, nor stores something else, or leaves what was there. -/
def Done.Keeps : Done → Prop
  | .lib _ (.taskdata data) udata _ => udata = data
  | .lib _ _ _ _ => True
  | .hook _ h udata s _ => h.Keeps udata s

section
variable {h : Hook} {udata : Int} {s : Seen} {r : Ret}

theorem says_iff {o : Outcome} {rest : List Outcome} (hw : s.waits = o :: rest) (hu : s.udata = o.udata) :
    s.udata = udata ↔ Says udata s.waits := by
  rw [hu, hw]
  constructor
  · intro he
    exact ⟨o, rest, rfl, he.symm⟩
  · rintro ⟨o', rest', ho, he⟩
    obtain ⟨rfl, -⟩ := List.cons.inj ho
    exact he.symm

theorem keeps_iff (hs : h.Spec udata r s) : s.udata = udata ↔ h.Keeps udata s := by
  cases h with
  | taskdelay ms =>
    obtain ⟨-, o, rfl⟩ := hs
    exact says_iff rfl rfl
  | fdwait fd rw =>
    obtain ⟨-, o, rfl⟩ := hs
    exact says_iff rfl rfl
  | read fd n =>
    rw [hs.1]
    exact eq_comm
  | write fd n =>
    rw [hs.1]
    exact eq_comm
  | accept fd =>
    obtain ⟨o, -, -, hu, hw, -⟩ := hs
    exact says_iff hw hu
  | connect fd =>
    rcases hs with ⟨hu, hw, -⟩ | ⟨o, hu, hw, -⟩
    · rw [hu]
      refine ⟨fun he => .inl ⟨he.symm, hw⟩, fun hk => ?_⟩
      rcases hk with ⟨he, -⟩ | ⟨o, rest, ho, -⟩
      · exact he.symm
      · exact nomatch hw.symm.trans ho
    · rw [says_iff hw hu]
      refine ⟨.inr, fun hk => hk.resolve_left fun hn => ?_⟩
      exact nomatch hw.symm.trans hn.2
  | read1 fd n =>
    have hs : if int udata ≠ 0 then _ else _ := hs
    split at hs
    · rename_i hne
      obtain ⟨-, rfl⟩ := hs
      have hu : udata ≠ 0 := fun he => hne (by rw [he]; rfl)
      exact iff_of_false (Ne.symm hu) fun hk => hu hk.1
    · rename_i hz
      obtain ⟨o, rest, a, rest', hw, hrep, hr⟩ := hs
      split at hr
      · rename_i ha
        rw [hr.1]
        exact ⟨fun he => ⟨he.symm, .inl ⟨_, a, rest', hrep, ha⟩⟩, fun hk => hk.1.symm⟩
      · rename_i ha
        rw [hr.1]
        constructor
        · intro he
          -- a `udata` that is how a wait ended fits an `int`
          have h0 : o.udata = 0 := by rw [← int_udata, he]; exact not_not.mp hz
          exact ⟨he.symm.trans h0, .inr (by rw [hw, udata_eq_zero.mp h0]; rfl)⟩
        · rintro ⟨rfl, hk⟩
          rcases hk with ⟨c, a', rest'', hrep', ha'⟩ | hev
          · obtain ⟨hca, -⟩ := List.cons.inj (hrep.symm.trans hrep')
            obtain ⟨-, rfl⟩ := Prod.mk.inj hca
            exact absurd ha' ha
          · rw [hw] at hev
            exact udata_eq_zero.mpr (Option.some.inj hev)

theorem done_keeps_iff {d : Done} (hd : DoneOk d) : d.behind = d.before ↔ d.Keeps := by
  cases d with
  | hook t h udata s r =>
    obtain ⟨c, hp, hn⟩ := hd
    exact keeps_iff (hook_spec h hp hn)
  | lib t e udata udata' =>
    cases e with
    | taskdata data =>
      obtain rfl : udata' = data := hd
      exact eq_comm
    | _ => exact iff_of_true hd trivial

end

/-! ### What the task has stored -/

/-- The task's `udata`, or what it was at the call that the task is in. -/
def stored (g : Glob) (t : TaskPtr) : Option Call → Int
  | none => (g.task t).udata
  | some (.lib _ udata) => udata
  | some (.hook f) => f.udata

def Sys.stored (x : Sys) (t : TaskPtr) : Int := Hooks.stored x.s.g t (x.call t)

/-- A step to `x'` changes what `t` stored only where a call of `t` returns, which says so. -/
inductive Recorded (x x' : Sys) (t : TaskPtr) : Prop
  | none : x'.done = x.done → x'.stored t = x.stored t → Recorded x x' t
  | own (d : Done) : x'.done = d :: x.done → d.task = t → d.before = x.stored t → d.behind = x'.stored t → Recorded x x' t
  | other (d : Done) : x'.done = d :: x.done → d.task ≠ t → x'.stored t = x.stored t → Recorded x x' t

section
variable {x x' : Sys} {s' : State Glob Heap} {p p' : Places} {e : Ev} {ev : SysEv} {t : TaskPtr} {u : Int} {f f' : Frame}

/-- No step changes what a task stored that makes no call. -/
theorem stored_wake (h : Stepped x.s p e s' p') (hx : Held x) (hl : x.s.g.live t = true) (hl' : s'.g.live t = true)
    (hd : x.call t = none → x.s.g.taskrunning = some t → ∀ data, e ≠ .taskdata data) :
    stored s'.g t (x.wake (some e) s' t) = x.stored t := by
  unfold Sys.wake Sys.stored
  cases hcall : x.call t with
  | none =>
    have hc := hx.calls t
    rw [hcall] at hc
    exact h.keeps hl hl' (not_asleep (hc hl)) (hd hcall)
  | some c =>
    cases c with
    | lib e₀ udata => rfl
    | hook f =>
      show (if Asleep x.s.g t ∧ ¬ Asleep s'.g t then { f with woke := some (outcome e t) } else f).udata = f.udata
      split <;> rfl

theorem stored_goesOn {m : Frame → Task → Option Frame} (hm : ∀ f y f', m f y = some f' → f'.udata = f.udata)
    (hother : stored s'.g t (x.wake (x.ev ev) s' t) = x.stored t) (ha : x.goesOn s' ev m = some x') : Recorded x x' t := by
  unfold Sys.goesOn at ha
  split at ha
  · rename_i w f hr hf
    split at ha
    · rename_i f' hf'
      cases ha
      refine .none rfl ?_
      show stored s'.g t (update (x.wake (x.ev ev) s') w (some (.hook f')) t) = stored x.s.g t (x.call t)
      obtain ⟨w', hr', hcall⟩ := of_frame hf
      obtain rfl : w = w' := Option.some.inj (hr.symm.trans hr')
      by_cases htw : t = w
      · subst htw
        rw [update_self, hcall]
        exact hm f _ f' hf'
      · rw [update_of_ne htw]
        exact hother
    · cases ha
  · cases ha

theorem taskdata_udata (h : f.taskdata u = some f') : f'.udata = f.udata := by
  unfold Frame.taskdata at h
  split at h <;> cases h
  rfl

theorem real_udata {a : Reply} (h : f.real a = some f') : f'.udata = f.udata := by
  unfold Frame.real at h
  split at h <;> cases h
  rfl

theorem back_udata {ms : Nat} (h : f.back ms = some f') : f'.udata = f.udata := by
  unfold Frame.back at h
  split at h <;> cases h <;> rfl

/-- In a step that takes a hook on, the other tasks keep what they stored. -/
theorem stored_others (hx : Held x) (hf : x.frame = some f) (ho : OnPlaces x p ev s' p') (hl : x.s.g.live t = true)
    (hl' : s'.g.live t = true) : stored s'.g t (x.wake (x.ev ev) s' t) = x.stored t := by
  rcases ho with ⟨e, hev, hst⟩ | ⟨hev, rfl⟩
  · rw [hev]
    refine stored_wake hst hx hl hl' fun hn hr => ?_
    obtain ⟨w, hw, hcall⟩ := of_frame hf
    obtain rfl : t = w := Option.some.inj (hr.symm.trans hw)
    exact nomatch hn.symm.trans hcall
  · rw [hev]
    rfl

theorem makes_stored {e₀ : Ev} {udata : Int} (h : x.makes e t = some (e₀, udata)) : udata = x.stored t := by
  unfold Sys.makes at h
  unfold Sys.stored
  cases hcall : x.call t with
  | none =>
    rw [hcall] at h
    dsimp only at h
    split at h
    · exact (Prod.mk.inj (Option.some.inj h)).2.symm
    · cases h
  | some c =>
    rw [hcall] at h
    cases c with
    | lib e₁ w => exact (Prod.mk.inj (Option.some.inj h)).2.symm
    | hook f => cases h

/-- The calls of the library. -/
theorem stored_lib (hx : Held x) (hst : Stepped x.s p e x'.s p') (ha : x.after x'.s (.lib e) = some x')
    (hlive : x.s.g.live t = true) (hlive' : x'.s.g.live t = true) : Recorded x x' t := by
  have hwake := stored_wake (t := t) hst hx hlive hlive'
  obtain ⟨s', call', done'⟩ := x'
  simp only [Sys.after] at ha
  split at ha
  · rename_i w hr
    split at ha
    · rename_i e₀ udata hmk
      have hother : t ≠ w → stored s'.g t (x.wake (some e) s' t) = x.stored t := fun htw =>
        hwake fun _ hr' => absurd (Option.some.inj (hr'.symm.trans hr)) htw
      split at ha
      · cases ha
        by_cases htw : t = w
        · subst htw
          refine .own _ rfl rfl (makes_stored hmk) ?_
          show _ = stored s'.g t (update (x.wake (some e) s') t none t)
          rw [update_self]
          rfl
        · refine .other _ rfl (Ne.symm htw) ?_
          show stored s'.g t (update (x.wake (some e) s') w none t) = _
          rw [update_of_ne htw]
          exact hother htw
      · cases ha
        refine .none rfl ?_
        by_cases htw : t = w
        · subst htw
          show stored s'.g t (update (x.wake (some e) s') t (some (.lib e₀ udata)) t) = _
          rw [update_self]
          exact makes_stored hmk
        · show stored s'.g t (update (x.wake (some e) s') w (some (.lib e₀ udata)) t) = _
          rw [update_of_ne htw]
          exact hother htw
    · rename_i hmk
      cases ha
      refine .none rfl (hwake fun hn hr' data he => ?_)
      obtain rfl : t = w := Option.some.inj (hr'.symm.trans hr)
      subst he
      simp only [Sys.makes, hn, Returns] at hmk
      cases hmk
  · rename_i hr
    cases ha
    exact .none rfl (hwake fun _ hr' => by cases hr.symm.trans hr')

/-- What a task has stored changes only where one of its calls returns. -/
theorem stored_step (hx : Held x) (hc : x.Can ev) (ho : OnPlaces x p ev x'.s p') (ha : x.after x'.s ev = some x')
    (hlive : x.s.g.live t = true) (hlive' : x'.s.g.live t = true) : Recorded x x' t := by
  cases ev with
  | lib e =>
    obtain ⟨e', he, hst⟩ := ho.resolve_right fun h => by cases h.1
    obtain rfl := Option.some.inj he
    exact stored_lib hx hst ha hlive hlive'
  | call h =>
    obtain ⟨w, hw, hn⟩ := hc
    obtain ⟨-, hs⟩ := ho.resolve_left (by rintro ⟨_, h, _⟩; cases h)
    obtain ⟨s', call', done'⟩ := x'
    obtain rfl : s' = x.s := hs
    simp only [Sys.after, hw.2.1] at ha
    cases ha
    refine .none rfl ?_
    show stored x.s.g t (update x.call w (some (.hook (enter h (x.s.g.task w).udata))) t) = stored x.s.g t (x.call t)
    by_cases htw : t = w
    · subst htw
      rw [update_self, hn]
      rfl
    · rw [update_of_ne htw]
  | taskdata =>
    obtain ⟨w, f, data, hin, -⟩ := hc
    exact stored_goesOn (fun _ _ _ => taskdata_udata) (stored_others hx (frame_in hin.1.2.1 hin.2) ho hlive hlive') ha
  | sleep now a =>
    obtain ⟨-, w, f, o, hin, -⟩ := hc
    have ha : x.goesOn x'.s (.sleep now a) (fun f _ => some f) = some x' := ha
    refine stored_goesOn (fun f _ f' hf => ?_) (stored_others hx (frame_in hin.1.2.1 hin.2) ho hlive hlive') ha
    rw [Option.some.inj hf]
  | back now =>
    obtain ⟨-, w, f, hr, hcall⟩ := hc
    have ha : x.goesOn x'.s (.back now) (fun f y => f.back (elapsed now y.pc)) = some x' := ha
    exact stored_goesOn (fun _ _ _ => back_udata) (stored_others hx (frame_in hr hcall) ho hlive hlive') ha
  | real a =>
    obtain ⟨w, f, c, hin, -⟩ := hc
    exact stored_goesOn (fun _ _ _ => real_udata) (stored_others hx (frame_in hin.1.2.1 hin.2) ho hlive hlive') ha
  | ret =>
    obtain ⟨w, f, r, hin, hret⟩ := hc
    obtain ⟨-, hs⟩ := ho.resolve_left (by rintro ⟨_, h, _⟩; cases h)
    obtain ⟨s', call', done'⟩ := x'
    obtain rfl : s' = x.s := hs
    simp only [Sys.after, hin.1.2.1, frame_in hin.1.2.1 hin.2, hret] at ha
    cases ha
    by_cases htw : t = w
    · subst htw
      refine .own _ rfl rfl ?_ ?_
      · show f.udata = stored x.s.g t (x.call t)
        rw [hin.2]
        rfl
      · show _ = stored x.s.g t (update x.call t none t)
        rw [update_self]
        rfl
    · refine .other _ rfl (Ne.symm htw) ?_
      show stored x.s.g t (update x.call w none t) = stored x.s.g t (x.call t)
      rw [update_of_ne htw]

/-- While a task is there, what it has stored is still there if the calls that returned to it since
    all kept it. -/
theorem stored_run (hl : Linked x.s p) (hx : Held x) (hlive : x.s.g.live t = true)
    (h : SysRun (fun _ _ y => y.s.g.live t = true) x x') : ∃ new, x'.done = new ++ x.done ∧
      ((∀ d ∈ new, d.task = t → d.behind = d.before) → x'.stored t = x.stored t) := by
  obtain ⟨-, -, -, -, hnew⟩ := h.holds (P := fun y => y.s.g.live t = true ∧ ∃ new, y.done = new ++ x.done ∧
    ((∀ d ∈ new, d.task = t → d.behind = d.before) → y.stored t = x.stored t)) hl hx ⟨hlive, [], rfl, fun _ => rfl⟩
    fun {y y' _ _ _} _ hy hP hc ho ha _ hC => by
      obtain ⟨hly, new, hnew, hkept⟩ := hP
      refine ⟨hC, ?_⟩
      cases stored_step (t := t) hy hc ho ha hly hC with
      | none hd hs => exact ⟨new, hd.trans hnew, fun hall => hs.trans (hkept hall)⟩
      | own d hd ht hbefore hbehind =>
        refine ⟨d :: new, by rw [hd, hnew]; rfl, fun hall => ?_⟩
        obtain ⟨hkd, hall⟩ := List.forall_mem_cons.mp hall
        exact hbehind.symm.trans ((hkd ht).trans (hbefore.trans (hkept hall)))
      | other d hd _ hs =>
        refine ⟨d :: new, by rw [hd, hnew]; rfl, fun hall => ?_⟩
        exact hs.trans (hkept (List.forall_mem_cons.mp hall).2)
  exact hnew

end

/-- A call leaves the task's `udata` as it was, if it does not sleep or what was there is what it
    leaves, and only then. What a task finds in its `udata` it finds there later, if the calls
    that returned to it since were such. -/
theorem storage_kept {x₀ x : Sys} (h₀ : SysStarts x₀) (h : SysRun (fun _ _ _ => True) x₀ x) :
    (∀ d ∈ x.done, d.behind = d.before ↔ d.Keeps) ∧
    ∀ t y, x.s.g.live t = true → x.call t = none → SysRun (fun _ _ y => y.s.g.live t = true) x y → y.call t = none →
      ∃ new, y.done = new ++ x.done ∧
        ((∀ d ∈ new, d.task = t → d.Keeps) → (y.s.g.task t).udata = (x.s.g.task t).udata) := by
  obtain ⟨p, hl, hx⟩ := h.held h₀
  refine ⟨fun d hd => done_keeps_iff (hx.done d hd), fun t y hlive hn hy hn' => ?_⟩
  obtain ⟨q, -, hy'⟩ : ∃ q, Linked y.s q ∧ Held y := by
    obtain ⟨q, hq, hy', -⟩ := hy.holds (P := fun _ => True) hl hx trivial fun _ _ _ _ _ _ _ _ => trivial
    exact ⟨q, hq, hy'⟩
  obtain ⟨new, hnew, hkept⟩ := stored_run hl hx hlive hy
  refine ⟨new, hnew, fun hall => ?_⟩
  unfold Sys.stored at hkept
  rw [hn, hn'] at hkept
  refine hkept fun d hd ht => (done_keeps_iff (hy'.done d ?_)).mpr (hall d hd ht)
  rw [hnew]
  exact List.mem_append_left _ hd

/-- Task 1 stores 7. -/
def stores : List SysEv := oneTask ++ [.lib (.taskdata 7)]

theorem storage_kept_yield : ∃ x y : Sys, (x.s.g.task 1).udata = 7 ∧ y.done = [.lib 1 .taskyield 7 7] ++ x.done ∧
    (y.s.g.task 1).udata = 7 := by
  obtain ⟨x, hx⟩ : ∃ x, x = stores.foldl Sys.next sysBoot := ⟨_, rfl⟩
  have hr : SysRun (fun _ _ _ => True) sysBoot x := hx ▸ SysRun.played stores (by decide +kernel)
  obtain ⟨p, hl, hh⟩ := hr.held sysStarts_boot
  have hxs : x.s.g.live 1 = true ∧ (x.call 1).isNone ∧ (x.s.g.task 1).udata = 7 ∧
      x.plays (fun _ _ y => y.s.g.live 1) (.lib .taskyield :: nextTask) = true := by
    subst hx
    decide +kernel
  obtain ⟨y, hy⟩ : ∃ y, y = (.lib .taskyield :: nextTask).foldl Sys.next x := ⟨_, rfl⟩
  have hys : (y.call 1).isNone ∧ y.done = [.lib 1 .taskyield 7 7] ++ x.done := by
    subst hy hx
    decide +kernel
  have hxy : SysRun (fun _ _ y => y.s.g.live 1 = true) x y :=
    hy ▸ SysRun.plays (fun _ _ _ hc => hc) hl hh _ .refl hxs.2.2.2
  obtain ⟨new, hnew, hkept⟩ := (storage_kept sysStarts_boot hr).2 1 y hxs.1 (Option.isNone_iff_eq_none.mp hxs.2.1) hxy
    (Option.isNone_iff_eq_none.mp hys.1)
  obtain rfl : [Done.lib 1 .taskyield 7 7] = new := List.append_cancel_right (hys.2.symm.trans hnew)
  refine ⟨x, y, hxs.2.2.1, hys.2, ?_⟩
  rw [hkept fun d hd _ => by rw [List.mem_singleton.mp hd]; trivial, hxs.2.2.1]

/-- Task 1 stores 7, calls `taskdelay`, and then finds that this timed out. -/
theorem delay_overwrites : ∃ x, SysRun (fun _ _ _ => True) sysBoot x ∧ (x.s.g.task 1).udata = LIBTASK_TIMEOUT ∧
    x.done = [.hook 1 (.taskdelay 1) 7 ⟨LIBTASK_TIMEOUT, [.timeout], []⟩ ⟨1, none⟩, .lib 1 (.taskdata 7) 0 7] := by
  refine ⟨_, SysRun.played (stores ++ delays) (by decide +kernel), ?_⟩
  decide +kernel

end Libtask.Sched.Hooks
