/-
  Libtask.Sched.Hooked — programs whose tasks sleep in the hooked calls.

  `Sys` is the library with, for each task, the call it is in (`Call`): one of the library's own, or
  a `Hook`, which goes on step by step as Libtask.Sched.Hooks has it. Such a step is one of the
  library, an answer of the kernel, or neither. `done` has the calls that returned, newest first.

  The application calls `taskdelay` and `fdwait` as hooks only. Descriptors are as in
  Libtask.Sched.Epoll, and not here: an event may end any `fdwait`.

  `runs_alone`: in every run, each call of a hook goes as it can go alone (`Path`), and the others
  leave `udata`, but for `taskdata`.
-/

import Libtask.Sched.Wakeups

namespace Libtask.Sched.Hooks

open Function (update update_self update_of_ne)
open Libtask.Lib.Calls

/-! ## Calls -/

/-- A hook that has not returned. -/
structure Frame where
  h : Hook
  /-- The task's `udata` at the call. -/
  udata : Int
  waits : List Outcome
  replies : List (Syscall × Reply)
  code : Io (h.Vars ⊕ Ret)
  /-- How the task's sleep ended, in which it was or from which it returns. -/
  woke : Option Outcome

def enter (h : Hook) (udata : Int) : Frame := ⟨h, udata, [], [], h.fn.enter, none⟩

def Frame.next (f : Frame) : Io (f.h.Vars ⊕ Ret) := f.h.fn.next f.code

def Frame.seen (f : Frame) (udata : Int) : Seen := ⟨udata, f.waits, f.replies⟩

/-- What it calls next. -/
def Frame.asks (f : Frame) : Option Op := f.next.request

def Frame.returns (f : Frame) : Option Ret := f.next.value

def Frame.taskdata (f : Frame) (udata : Int) : Option Frame :=
  match f.next with
  | .call (.taskdata _) k => some { f with code := k udata }
  | _ => none

def Frame.real (f : Frame) (a : Reply) : Option Frame :=
  match f.next with
  | .call (.real c) k => some { f with code := k a, replies := (c, a) :: f.replies }
  | _ => none

/-- `fdwait` returns, or `taskdelay` with its value. -/
def Frame.back (f : Frame) (ms : Nat) : Option Frame :=
  match f.woke, f.next with
  | some w, .call (.fdwait _ _) k => some { f with code := k w, waits := w :: f.waits, woke := none }
  | some w, .call (.taskdelay _) k => some { f with code := k (w, ms), waits := w :: f.waits, woke := none }
  | _, _ => none

inductive Call where
  /-- `e`, called with `udata` in the task. -/
  | lib (e : Ev) (udata : Int)
  | hook (f : Frame)

/-- A call that returned, with the task's `udata` at the call and then. -/
inductive Done where
  | lib (t : TaskPtr) (e : Ev) (udata udata' : Int)
  | hook (t : TaskPtr) (h : Hook) (udata : Int) (s : Seen) (r : Ret)

/-- Calls of the library that return to the application that made them. -/
def Returns : Ev → Bool
  | .poke _ _ => false
  | .taskexit => false
  | .callback _ => false
  | .taskscheduler => false
  | .resume _ _ _ => false
  | _ => true

/-! ## Steps -/

structure Sys where
  s : State Glob Heap
  call : TaskPtr → Option Call
  done : List Done

inductive SysEv where
  /-- Any step of the library outside of the hooks. -/
  | lib (e : Ev)
  /-- The running task calls `h`. -/
  | call (h : Hook)
  /-- It is in a hook, and calls `taskdata` there. -/
  | taskdata
  /-- It calls `fdwait` there, or `taskdelay`. -/
  | sleep (now : Nat) (a : TaskPtr)
  /-- That returns. -/
  | back (now : Nat)
  /-- It calls the kernel, which answers. -/
  | real (a : Reply)
  /-- The hook returns. -/
  | ret

/-- The hook that the running task is in. -/
def Sys.frame (x : Sys) : Option Frame :=
  match x.s.g.taskrunning with
  | some t => match x.call t with | some (.hook f) => some f | _ => none
  | none => none

/-- The library's part of the step. -/
def Sys.ev (x : Sys) : SysEv → Option Ev
  | .lib e => some e
  | .taskdata => match x.frame.bind Frame.asks with | some (.taskdata (some data)) => some (.taskdata data) | _ => none
  | .sleep now a =>
    match x.frame.bind Frame.asks with
    | some (.taskdelay ms) => some (.taskdelay ms now a)
    | some (.fdwait _ _) => some (.fdwait now a)
    | _ => none
  | .back now => some (.resume now .eintr 0)
  | _ => none

def Sys.code (x : Sys) (e : SysEv) : Lib Unit :=
  match x.ev e with
  | some ev => Sched.code ev
  | none => pure ()

def Op.sleeps : Op → Bool
  | .taskdelay _ => true
  | .fdwait _ _ => true
  | _ => false

/-- The application's own calls of these are hooks. -/
def Plain : Ev → Prop
  | .taskdelay _ _ _ => False
  | .fdwait _ _ => False
  | _ => True

/-- `t` runs in hook `f`. -/
def Sys.In (x : Sys) (t : TaskPtr) (f : Frame) : Prop := Runs x.s.g t ∧ x.call t = some (.hook f)

def Sys.Can (x : Sys) : SysEv → Prop
  | .lib e => Enabled x.s.g e ∧ Plain e ∧ x.frame = none
  | .call _ => ∃ t, Runs x.s.g t ∧ x.call t = none
  | .taskdata => ∃ t f data, x.In t f ∧ f.asks = some (.taskdata data)
  | .sleep _ a => x.s.g.live a = false ∧ ∃ t f o, x.In t f ∧ f.asks = some o ∧ o.sleeps = true
  | .back now => Enabled x.s.g (.resume now .eintr 0) ∧ ∃ t f, x.s.g.taskrunning = some t ∧ x.call t = some (.hook f)
  | .real a => ∃ t f c, x.In t f ∧ f.asks = some (.real c) ∧ c.Answers a
  | .ret => ∃ t f r, x.In t f ∧ f.returns = some r

/-- Who is woken in the step learns how its sleep ended. -/
def Sys.wake (x : Sys) (ev : Option Ev) (s' : State Glob Heap) (u : TaskPtr) : Option Call :=
  match ev, x.call u with
  | some e, some (.hook f) => some (.hook (if Asleep x.s.g u ∧ ¬ Asleep s'.g u then { f with woke := some (outcome e u) } else f))
  | _, c => c

/-- The step takes the hook of the running task on. -/
def Sys.goesOn (x : Sys) (s' : State Glob Heap) (e : SysEv) (m : Frame → Task → Option Frame) : Option Sys :=
  match x.s.g.taskrunning, x.frame with
  | some t, some f =>
    match m f (x.s.g.task t) with
    | some f' => some ⟨s', update (x.wake (x.ev e) s') t (some (.hook f')), x.done⟩
    | none => none
  | _, _ => none

/-- The call of the library that `t`, which runs, is in or makes. -/
def Sys.makes (x : Sys) (e : Ev) (t : TaskPtr) : Option (Ev × Int) :=
  match x.call t with
  | some (.lib e₀ udata) => some (e₀, udata)
  | some (.hook _) => none
  | none => if Returns e then some (e, (x.s.g.task t).udata) else none

/-- `t` runs, in the application's code. -/
def InApp (g : Glob) (t : TaskPtr) : Prop := g.taskrunning = some t ∧ (g.task t).pc = .app

instance (g : Glob) (t : TaskPtr) : Decidable (InApp g t) := inferInstanceAs (Decidable (_ ∧ _))

/-- The value that `taskdelay` returns. -/
def elapsed (now' : Nat) : Pc → Nat
  | .taskdelay now => u64 (now' + 2 ^ 64 - now) / 1000000
  | _ => 0

/-- The system behind a step by which the library is in `s'`. -/
def Sys.after (x : Sys) (s' : State Glob Heap) : SysEv → Option Sys
  | .lib e =>
    let call := x.wake (some e) s'
    match x.s.g.taskrunning with
    | some t =>
      match x.makes e t with
      | some (e₀, udata) =>
        if InApp s'.g t then some ⟨s', update call t none, .lib t e₀ udata (s'.g.task t).udata :: x.done⟩
        else some ⟨s', update call t (some (.lib e₀ udata)), x.done⟩
      | none => some ⟨s', call, x.done⟩
    | none => some ⟨s', call, x.done⟩
  | .call h =>
    match x.s.g.taskrunning with
    | some t => some ⟨s', update x.call t (some (.hook (enter h (x.s.g.task t).udata))), x.done⟩
    | none => none
  | .taskdata => x.goesOn s' .taskdata fun f y => f.taskdata y.udata
  | .sleep now a => x.goesOn s' (.sleep now a) fun f _ => some f
  | .back now => x.goesOn s' (.back now) fun f y => f.back (elapsed now y.pc)
  | .real a => x.goesOn s' (.real a) fun f _ => f.real a
  | .ret =>
    match x.s.g.taskrunning, x.frame with
    | some t, some f =>
      match f.returns with
      | some r => some ⟨s', update x.call t none, .hook t f.h f.udata (f.seen (x.s.g.task t).udata) r :: x.done⟩
      | none => none
    | _, _ => none

/-- Nothing happened yet. -/
structure SysStarts (x : Sys) : Prop where
  starts : Starts x.s
  call : ∀ t, x.call t = none
  done : x.done = []

/-- Runs whose steps all are as `C` says. -/
inductive SysRun (C : Sys → SysEv → Sys → Prop) (x₀ : Sys) : Sys → Prop
  | refl : SysRun C x₀ x₀
  | step {x x' : Sys} {s' : State Glob Heap} (e : SysEv) : SysRun C x₀ x → x.Can e → (x.code e).onHeap x.s = .ok ((), s') →
      x.after s' e = some x' → C x e x' → SysRun C x₀ x'

/-! ## What every run keeps -/

/-- A call of `h`, made with `udata` in the task, as it can go if no other task is there. -/
abbrev Alone (h : Hook) (udata : Int) : Io (h.Vars ⊕ Ret) → Seen → Prop := Path (may Syscall.Answers) h.fn ⟨udata, [], []⟩

/-- `t` is in hook `f`: at work there, or in the sleep that it asked for. -/
inductive InHook (g : Glob) (t : TaskPtr) (f : Frame) : Prop
  | works : (g.task t).pc = .app → f.woke = none → Alone f.h f.udata f.code (f.seen (g.task t).udata) → InHook g t f
  | sleeps (udata : Int) (o : Op) : home (g.task t).pc = some .sleeping → f.asks = some o → o.sleeps = true →
      Alone f.h f.udata f.code (f.seen udata) →
      (Asleep g t ∧ f.woke = none ∨ ¬ Asleep g t ∧ ∃ w, f.woke = some w ∧ (g.task t).udata = w.udata) → InHook g t f

def CallOk (g : Glob) (t : TaskPtr) : Option Call → Prop
  | none => g.live t = true → home (g.task t).pc ≠ some .sleeping
  | some (.lib e udata) => g.live t = true ∧ (g.task t).pc ≠ .app ∧ home (g.task t).pc ≠ some .sleeping ∧
      (∀ data, e ≠ .taskdata data) ∧ (g.task t).udata = udata
  | some (.hook f) => g.live t = true ∧ InHook g t f

def DoneOk : Done → Prop
  | .lib _ e udata udata' => udata' = match e with | .taskdata data => data | _ => udata
  | .hook _ h udata s r => ∃ c, Alone h udata c s ∧ h.fn.next c = .pure (.inr r)

structure Held (x : Sys) : Prop where
  main : x.s.g.phase = .main → x.s.g.taskrunning = none
  calls : ∀ t, CallOk x.s.g t (x.call t)
  done : ∀ d ∈ x.done, DoneOk d

/-- A step of the library, on the places. -/
structure Stepped (s : State Glob Heap) (p : Places) (e : Ev) (s' : State Glob Heap) (p' : Places) : Prop where
  inv : Inv ⟨s.g, p⟩
  enabled : Enabled s.g e
  step : (Sched.code e).onPlaces ⟨s.g, p⟩ = .ok ((), ⟨s'.g, p'⟩)
  inv' : Inv ⟨s'.g, p'⟩

section
variable {x x' : Sys} {s s' : State Glob Heap} {p p' : Places} {e : Ev} {t : TaskPtr} {f : Frame}

theorem not_asleep (h : home (s.g.task t).pc ≠ some .sleeping) : ¬ Asleep s.g t := fun ha => h ha.2.2.2

theorem Stepped.did (h : Stepped s p e s' p') : Did ⟨s.g, p⟩ e ⟨s'.g, p'⟩ := Sched.did h.inv h.enabled h.step

theorem Stepped.udata (h : Stepped s p e s' p') (hl : s.g.live t = true) (hl' : s'.g.live t = true)
    (hd : s.g.taskrunning = some t → ∀ data, e ≠ .taskdata data) :
    (s'.g.task t).udata = if Asleep s.g t ∧ ¬ Asleep s'.g t then (outcome e t).udata else (s.g.task t).udata :=
  udata_step h.inv h.inv' h.enabled h.step hl hl' hd

/-- Who does not sleep keeps its `udata`. -/
theorem Stepped.keeps (h : Stepped s p e s' p') (hl : s.g.live t = true) (hl' : s'.g.live t = true) (ha : ¬ Asleep s.g t)
    (hd : s.g.taskrunning = some t → ∀ data, e ≠ .taskdata data) : (s'.g.task t).udata = (s.g.task t).udata := by
  rw [h.udata hl hl' hd, if_neg fun hw => ha hw.1]

/-- The tasks that do not run. -/
theorem callOk_other (h : Stepped x.s p e s' p') (ht : x.s.g.taskrunning ≠ some t) (hc : CallOk x.s.g t (x.call t)) :
    CallOk s'.g t (x.wake (some e) s' t) := by
  have hd := h.did
  unfold Sys.wake
  cases hcall : x.call t with
  | none =>
    rw [hcall] at hc
    intro hl' hh
    rcases hd.other ht hl' with ⟨hl, hpc⟩ | ⟨-, hpc⟩
    · exact hc hl (hpc ▸ hh)
    · have hpc : (s'.g.task t).pc = .start := hpc
      rw [hpc] at hh
      cases hh
  | some c =>
    rw [hcall] at hc
    cases c with
    | lib e₀ udata =>
      obtain ⟨hl, happ, hh, hne, hu⟩ := hc
      obtain ⟨hl', hpc⟩ := hd.same ht hl
      refine ⟨hl', fun he => happ (hpc ▸ he), fun he => hh (hpc ▸ he), hne, ?_⟩
      rw [h.keeps hl hl' (not_asleep hh) fun hr => absurd hr ht, hu]
    | hook f =>
      obtain ⟨hl, hin⟩ := hc
      obtain ⟨hl', hpc⟩ := hd.same ht hl
      have hudata := h.udata hl hl' fun hr => absurd hr ht
      refine ⟨hl', ?_⟩
      cases hin with
      | works happ hw hp =>
        have hna : ¬ Asleep x.s.g t := not_asleep (by rw [happ]; nofun)
        rw [if_neg fun hw => hna hw.1] at hudata ⊢
        exact .works (hpc.trans happ) hw (hudata ▸ hp)
      | sleeps udata o hh ho hs hp hwoke =>
        have hh' : home (s'.g.task t).pc = some .sleeping := hpc.symm ▸ hh
        rcases hwoke with ⟨ha, hw⟩ | ⟨ha, w, hw, hu⟩
        · by_cases ha' : Asleep s'.g t
          · rw [if_neg fun hw => hw.2 ha']
            exact .sleeps udata o hh' ho hs hp (.inl ⟨ha', hw⟩)
          · rw [if_pos ⟨ha, ha'⟩] at hudata ⊢
            exact .sleeps udata o hh' ho hs hp (.inr ⟨ha', _, rfl, hudata⟩)
        · have ha' : ¬ Asleep s'.g t := fun ha' => ha (hd.asleep ht ha')
          rw [if_neg fun hw => ha hw.1] at hudata ⊢
          exact .sleeps udata o hh' ho hs hp (.inr ⟨ha', w, hw, hudata.trans hu⟩)

/-! ### The task that runs -/

theorem Stepped.lives (h : Stepped s p e s' p') (hr : s.g.taskrunning = some t) (he : e.call) : s'.g.live t = true := by
  cases h.did with
  | turn _ hr' _ => exact nomatch hr'.symm.trans hr
  | exit _ he' _ _ _ => exact absurd he (by rw [he']; exact id)
  | shutdown _ _ _ he' _ _ _ _ _ _ => exact absurd rfl (by rw [he'] at he; exact he)
  | call u _ hu hf _ _ _ _ =>
    obtain rfl : t = u := Option.some.inj (hr.symm.trans (hu.resolve_right fun hd => nomatch hr.symm.trans hd.1))
    obtain ⟨arg, v, hb⟩ := before_eq e s.g
    rw [hb] at hf
    exact hf.live t (h.inv.here hr).1

/-- Only `taskdelay` and `fdwait` put a task to sleep. -/
theorem Stepped.stays_up (h : Stepped s p e s' p') (hr : s.g.taskrunning = some t) (hpl : Plain e)
    (hh : home (s.g.task t).pc ≠ some .sleeping) (hl' : s'.g.live t = true) : home (s'.g.task t).pc ≠ some .sleeping := by
  cases h.did with
  | turn _ hr' _ => exact nomatch hr'.symm.trans hr
  | exit u _ hu hx _ =>
    obtain rfl : t = u := Option.some.inj (hr.symm.trans hu.2.1)
    have hl' : s'.g.live t = true := hl'
    rw [hx.live, update_self] at hl'
    cases hl'
  | shutdown u fn g _ hu _ _ hx _ _ =>
    obtain rfl : t = u := Option.some.inj (hr.symm.trans hu.2.1)
    have hl' : s'.g.live t = true := hl'
    rw [hx.live, update_self] at hl'
    cases hl'
  | call u _ hu _ _ _ hgoes _ =>
    obtain rfl : t = u := Option.some.inj (hr.symm.trans (hu.resolve_right fun hd => nomatch hr.symm.trans hd.1))
    rcases hgoes with hk | hk
    · exact fun he => hh (hk ▸ he)
    · have hk : e.stops (s'.g.task t).pc := hk
      cases e with
      | taskdelay ms now a => exact absurd hpl id
      | fdwait now a => exact absurd hpl id
      | taskyield =>
        obtain ⟨n, hn⟩ := hk
        rw [hn]
        nofun
      | callback r =>
        obtain ⟨v, n, hn⟩ := hk
        rw [hn]
        nofun
      | resume now poll now' => rcases hk with hn | ⟨l, r, hn⟩ | ⟨v, n, hn⟩ <;> rw [hn] <;> nofun
      | _ => first | exact absurd hk id | (rw [hk]; nofun)

theorem taskdata_spec {s : St} (hr : s.g.taskrunning = some t) (data : Int) : Ok (Sched.code (.taskdata data)) s fun _ s' =>
    s'.g.taskrunning = some t ∧ (s'.g.task t).pc = (s.g.task t).pc ∧ (s'.g.task t).udata = data := by
  simp only [Sched.code, ok_bind, ok_running hr, ok_globals, ok_observe, ok_setTask]
  refine ⟨hr, ?_, ?_⟩
  · simp [State.obs, State.setTask, State.modify, Glob.setTask, Glob.observe]
  · simp [State.obs, State.setTask, State.modify, Glob.setTask, Glob.observe]

/-- Who is not in the application's code, and not freed, is not at its place. -/
theorem Stepped.off_app (h : Stepped s p e s' p') (hl : s'.g.live t = true) (hn : ¬ InApp s'.g t) : (s'.g.task t).pc ≠ .app := by
  intro hpc
  by_cases hr : s'.g.taskrunning = some t
  · exact hn ⟨hr, hpc⟩
  · cases (h.inv'.good t).status with
    | dead hd _ _ _ => exact nomatch hl.symm.trans hd
    | running _ hr' _ _ => exact hr (of_decide_eq_true hr')
    | ready _ _ _ _ hk => exact hk hpc
    | resting _ _ _ _ hk =>
      have hk : (s'.g.task t).pc.rests = true := hk
      rw [hpc] at hk
      cases hk

/-- A call of the library that `t` makes, or goes on in. -/
theorem makes_spec (hm : x.s.g.phase = .main → x.s.g.taskrunning = none) (h : Stepped x.s p e s' p')
    (hr : x.s.g.taskrunning = some t) (hpl : Plain e) (hc : CallOk x.s.g t (x.call t)) {e₀ : Ev} {udata : Int}
    (hmk : x.makes e t = some (e₀, udata)) :
    DoneOk (.lib t e₀ udata (s'.g.task t).udata) ∧ home (s'.g.task t).pc ≠ some .sleeping ∧
      (¬ InApp s'.g t → CallOk s'.g t (some (.lib e₀ udata))) := by
  have hl : x.s.g.live t = true := (h.inv.here hr).1
  have hna : ¬ Asleep x.s.g t := fun ha => ha.2.1 hr
  have hmk : (e.call ∧ home (x.s.g.task t).pc ≠ some .sleeping ∧ udata = (x.s.g.task t).udata) ∧
      (e₀ = e ∧ Returns e = true ∨ (∀ data, e₀ ≠ .taskdata data) ∧ ∀ data, e ≠ .taskdata data) := by
    unfold Sys.makes at hmk
    cases hcall : x.call t with
    | none =>
      rw [hcall] at hmk hc
      dsimp only at hmk
      split at hmk
      · rename_i hret
        obtain ⟨rfl, rfl⟩ := Prod.mk.inj (Option.some.inj hmk)
        refine ⟨⟨?_, hc hl, rfl⟩, .inl ⟨rfl, hret⟩⟩
        cases e <;> trivial
      · cases hmk
    | some c =>
      rw [hcall] at hmk hc
      cases c with
      | hook f => cases hmk
      | lib e₁ u =>
        obtain ⟨rfl, rfl⟩ := Prod.mk.inj (Option.some.inj hmk)
        obtain ⟨-, happ, hh, hne, hu⟩ := hc
        obtain ⟨now, poll, now', rfl⟩ := resumes hm hr happ h.enabled
        exact ⟨⟨trivial, hh, hu.symm⟩, .inr ⟨hne, nofun⟩⟩
  obtain ⟨⟨hcall, hh, hu⟩, hor⟩ := hmk
  have hl' := h.lives hr hcall
  have hh' := h.stays_up hr hpl hh hl'
  by_cases hdata : ∃ data, e = .taskdata data
  · obtain ⟨data, rfl⟩ := hdata
    obtain ⟨rfl, -⟩ := hor.resolve_right fun ho => ho.2 data rfl
    obtain ⟨hr', hpc, hu'⟩ := (taskdata_spec (s := ⟨x.s.g, p⟩) hr data).result h.step
    obtain ⟨w, hw⟩ := h.enabled
    obtain rfl : t = w := Option.some.inj (hr.symm.trans hw.2.1)
    exact ⟨hu', hh', fun hn => absurd ⟨hr', hpc.trans hw.2.2⟩ hn⟩
  · have hd : ∀ data, e ≠ .taskdata data := fun data he => hdata ⟨data, he⟩
    have hd₀ : ∀ data, e₀ ≠ .taskdata data := hor.elim (fun ho => ho.1 ▸ hd) And.left
    have hu' : (s'.g.task t).udata = udata := (h.keeps hl hl' hna fun _ => hd).trans hu.symm
    refine ⟨?_, hh', fun hn => ⟨hl', h.off_app hl' hn, hh', hd₀, hu'⟩⟩
    show _ = match e₀ with | .taskdata data => data | _ => udata
    split
    · rename_i data
      exact absurd rfl (hd₀ data)
    · exact hu'

theorem wake_runs {ev : Option Ev} (hr : x.s.g.taskrunning = some t) : x.wake ev s' t = x.call t := by
  have hna : ¬ (Asleep x.s.g t ∧ ¬ Asleep s'.g t) := fun ha => ha.1.2.1 hr
  unfold Sys.wake
  split
  · rename_i e f hcall
    rw [if_neg hna, hcall]
  · rfl

/-- A step outside of the hooks. -/
theorem held_lib (hx : Held x) (h : Stepped x.s p e s' p') (hpl : Plain e) (hnf : x.frame = none)
    (ha : x.after s' (.lib e) = some x') : Held x' := by
  have hmain := h.did.main hx.main
  have hother : ∀ u, x.s.g.taskrunning ≠ some u → CallOk s'.g u (x.wake (some e) s' u) := fun u hu => callOk_other h hu (hx.calls u)
  simp only [Sys.after] at ha
  split at ha
  · rename_i t hr
    have hothers : ∀ c, CallOk s'.g t c → ∀ u, CallOk s'.g u (update (x.wake (some e) s') t c u) := fun c hc u => by
      by_cases hut : u = t
      · subst hut
        rw [update_self]
        exact hc
      · rw [update_of_ne hut]
        exact hother u fun hu => hut (Option.some.inj (hu.symm.trans hr))
    split at ha
    · rename_i e₀ udata hmk
      obtain ⟨hdone, hh, hcall⟩ := makes_spec hx.main h hr hpl (hx.calls t) hmk
      split at ha
      · cases ha
        exact ⟨hmain, hothers none fun _ => hh, List.forall_mem_cons.mpr ⟨hdone, hx.done⟩⟩
      · rename_i hn
        cases ha
        exact ⟨hmain, hothers _ (hcall hn), hx.done⟩
    · rename_i hmk
      cases ha
      have hcall : x.call t = none := by
        unfold Sys.makes at hmk
        cases hcall : x.call t with
        | none => rfl
        | some c =>
          cases c with
          | lib e₁ u => rw [hcall] at hmk; cases hmk
          | hook f => simp only [Sys.frame, hr, hcall] at hnf; cases hnf
      refine ⟨hmain, fun u => ?_, hx.done⟩
      by_cases hut : u = t
      · subst hut
        show CallOk s'.g u (x.wake (some e) s' u)
        rw [wake_runs hr, hcall]
        have hc := hx.calls u
        rw [hcall] at hc
        exact fun hl' => h.stays_up hr hpl (hc (h.inv.here hr).1) hl'
      · exact hother u fun hu => hut (Option.some.inj (hu.symm.trans hr))
  · rename_i hr
    cases ha
    exact ⟨hmain, fun u => hother u (by rw [hr]; nofun), hx.done⟩

/-- The running task is in a hook, which the step takes on. -/
theorem held_goesOn (hx : Held x) (hmain : s'.g.phase = .main → s'.g.taskrunning = none) (hr : x.s.g.taskrunning = some t)
    (hcall : x.call t = some (.hook f)) {ev : SysEv} {m : Frame → Task → Option Frame}
    (hother : ∀ u, u ≠ t → CallOk s'.g u (x.wake (x.ev ev) s' u))
    (ht : ∀ f', m f (x.s.g.task t) = some f' → CallOk s'.g t (some (.hook f')))
    (ha : x.goesOn s' ev m = some x') : Held x' := by
  have hframe : x.frame = some f := by simp only [Sys.frame, hr, hcall]
  simp only [Sys.goesOn, hr, hframe] at ha
  split at ha
  · rename_i f' hf'
    cases ha
    refine ⟨hmain, fun u => ?_, hx.done⟩
    by_cases hut : u = t
    · subst hut
      show CallOk s'.g u (update (x.wake (x.ev ev) s') u (some (.hook f')) u)
      rw [update_self]
      exact ht f' hf'
    · show CallOk s'.g u (update (x.wake (x.ev ev) s') t (some (.hook f')) u)
      rw [update_of_ne hut]
      exact hother u hut
  · cases ha

/-! ### Inside a hook -/

section
variable {f' : Frame} {u : Int}

theorem taskdata_alone {data : Option Int} (hp : Alone f.h f.udata f.code (f.seen u)) (ho : f.asks = some (.taskdata data))
    (hf : f.taskdata u = some f') : f'.woke = f.woke ∧ Alone f'.h f'.udata f'.code (f'.seen (data.getD u)) := by
  unfold Frame.taskdata at hf
  split at hf
  · rename_i data' k hn
    cases hf
    rw [Frame.asks, hn] at ho
    obtain rfl : data' = data := Op.taskdata.inj (Option.some.inj ho)
    exact ⟨rfl, .call u hp hn ⟨rfl, rfl⟩⟩
  · cases hf

theorem real_alone {c : Syscall} {a : Reply} (hp : Alone f.h f.udata f.code (f.seen u)) (ho : f.asks = some (.real c))
    (ha : c.Answers a) (hf : f.real a = some f') : f'.woke = f.woke ∧ Alone f'.h f'.udata f'.code (f'.seen u) := by
  unfold Frame.real at hf
  split at hf
  · rename_i c' k hn
    cases hf
    rw [Frame.asks, hn] at ho
    obtain rfl : c' = c := Op.real.inj (Option.some.inj ho)
    exact ⟨rfl, .call a hp hn ⟨ha, rfl⟩⟩
  · cases hf

theorem back_alone {ms : Nat} {w : Outcome} (hp : Alone f.h f.udata f.code (f.seen u)) (hw : f.woke = some w)
    (hf : f.back ms = some f') : f'.woke = none ∧ Alone f'.h f'.udata f'.code (f'.seen w.udata) := by
  unfold Frame.back at hf
  split at hf
  · rename_i w' _ _ k hw' hn
    cases hf
    obtain rfl : w' = w := Option.some.inj (hw'.symm.trans hw)
    exact ⟨rfl, .call w' hp hn rfl⟩
  · rename_i w' _ k hw' hn
    cases hf
    obtain rfl : w' = w := Option.some.inj (hw'.symm.trans hw)
    exact ⟨rfl, .call (w', ms) hp hn rfl⟩
  · cases hf

end

/-! ### One step -/

theorem frame_in (hr : x.s.g.taskrunning = some t) (hcall : x.call t = some (.hook f)) : x.frame = some f := by
  simp only [Sys.frame, hr, hcall]

/-- In a hook, and at work there. -/
theorem works (hx : Held x) (h : x.In t f) : f.woke = none ∧ Alone f.h f.udata f.code (f.seen (x.s.g.task t).udata) := by
  have hc := hx.calls t
  rw [h.2] at hc
  cases hc.2 with
  | works _ hw hp => exact ⟨hw, hp⟩
  | sleeps _ _ hh _ _ _ _ => rw [h.1.2.2] at hh; cases hh

theorem callOk_works {g : Glob} (hl : g.live t = true) (hpc : (g.task t).pc = .app) (hw : f.woke = none)
    (hp : Alone f.h f.udata f.code (f.seen (g.task t).udata)) : CallOk g t (some (.hook f)) := ⟨hl, .works hpc hw hp⟩

/-- The hook calls `taskdata`. -/
theorem held_taskdata (hi : Inv ⟨x.s.g, p⟩) (hx : Held x) {data : Option Int} (hin : x.In t f)
    (hask : f.asks = some (.taskdata data))
    (ho : (∃ ev, x.ev .taskdata = some ev ∧ Stepped x.s p ev s' p') ∨ x.ev .taskdata = none ∧ s' = x.s)
    (ha : x.after s' .taskdata = some x') : Held x' := by
  have hr := hin.1.2.1
  have hl := (hi.here hr).1
  obtain ⟨hw, hp⟩ := works hx hin
  have ha : x.goesOn s' .taskdata (fun f y => f.taskdata y.udata) = some x' := ha
  have hev : x.ev .taskdata = data.map Ev.taskdata := by
    simp only [Sys.ev, frame_in hr hin.2, Option.bind_some, hask]
    cases data <;> rfl
  rcases ho with ⟨ev, hev', hst⟩ | ⟨hev', rfl⟩
  · obtain ⟨d, rfl, rfl⟩ := Option.map_eq_some_iff.mp (hev.symm.trans hev')
    obtain ⟨hr', hpc, hu⟩ := (taskdata_spec (s := ⟨x.s.g, p⟩) hr d).result hst.step
    refine held_goesOn hx (hst.did.main hx.main) hr hin.2 (fun u hut => ?_) (fun f' hf' => ?_) ha
    · rw [hev']
      exact callOk_other hst (fun hu => hut (Option.some.inj (hu.symm.trans hr))) (hx.calls u)
    · obtain ⟨hw', hp'⟩ := taskdata_alone hp hask hf'
      refine callOk_works (hst.lives hr trivial) (hpc.trans hin.1.2.2) (hw'.trans hw) ?_
      rw [hu]
      exact hp'
  · obtain rfl : data = none := by
      cases data with
      | none => rfl
      | some d => exact nomatch hev.symm.trans hev'
    refine held_goesOn hx hx.main hr hin.2 (fun u _ => ?_) (fun f' hf' => ?_) ha
    · rw [hev']
      exact hx.calls u
    · obtain ⟨hw', hp'⟩ := taskdata_alone hp hask hf'
      exact callOk_works hl hin.1.2.2 (hw'.trans hw) hp'

/-- The hook calls `fdwait` or `taskdelay`. -/
theorem held_sleep (hx : Held x) {now : Nat} {a : TaskPtr} {o : Op} (hin : x.In t f) (hask : f.asks = some o)
    (hs : o.sleeps = true) {ev : Ev} (hev : x.ev (.sleep now a) = some ev) (hst : Stepped x.s p ev s' p')
    (ha : x.after s' (.sleep now a) = some x') : Held x' := by
  have hr := hin.1.2.1
  have hl := (hst.inv.here hr).1
  obtain ⟨hw, hp⟩ := works hx hin
  have ha : x.goesOn s' (.sleep now a) (fun f _ => some f) = some x' := ha
  simp only [Sys.ev, frame_in hr hin.2, Option.bind_some, hask] at hev
  have hsleeps : ev.call ∧ (∀ data, ev ≠ .taskdata data) ∧ p'.loc t = some .sleeping := by
    cases o with
    | taskdelay ms =>
      obtain rfl := Option.some.inj hev
      have hok := taskdelay_ok hst.inv hr hin.1.2.2 (.inr hst.enabled.2) (k := .taskdelay now) rfl ms now
      exact ⟨trivial, nofun, (hok.result hst.step).2⟩
    | fdwait fd rw =>
      obtain rfl := Option.some.inj hev
      exact ⟨trivial, nofun, ((fdwait_ok hst.inv hr hin.1.2.2 hst.enabled.2 now).result hst.step).2⟩
    | taskdata data => cases hs
    | real c => cases hs
  obtain ⟨hcall, hd, hloc⟩ := hsleeps
  have hl' := hst.lives hr hcall
  have hasleep : Asleep s'.g t := (asleep_iff hst.inv').mp ((p'.mem_iff _ _).mpr hloc)
  have hu : (s'.g.task t).udata = (x.s.g.task t).udata := hst.keeps hl hl' (fun ha => ha.2.1 hr) fun _ => hd
  refine held_goesOn hx (hst.did.main hx.main) hr hin.2 (fun u hut => ?_) (fun f' hf' => ?_) ha
  · have hev' : x.ev (.sleep now a) = some ev := by
      simp only [Sys.ev, frame_in hr hin.2, Option.bind_some, hask, hev]
    rw [hev']
    exact callOk_other hst (fun hu => hut (Option.some.inj (hu.symm.trans hr))) (hx.calls u)
  · obtain rfl := Option.some.inj hf'
    exact ⟨hl', .sleeps _ o hasleep.2.2.2 hask hs hp (.inl ⟨hasleep, hw⟩)⟩

/-- The sleep that the hook asked for is over. -/
theorem held_back (hx : Held x) {now : Nat} (hr : x.s.g.taskrunning = some t) (hcall : x.call t = some (.hook f))
    (hst : Stepped x.s p (.resume now .eintr 0) s' p') (ha : x.after s' (.back now) = some x') : Held x' := by
  have ha : x.goesOn s' (.back now) (fun f y => f.back (elapsed now y.pc)) = some x' := ha
  obtain ⟨hl, hin⟩ := hcall ▸ hx.calls t
  obtain ⟨-, ⟨u, hu, hnapp⟩, -⟩ := hst.enabled
  obtain rfl : t = u := Option.some.inj (hr.symm.trans hu)
  cases hin with
  | works happ _ _ => exact absurd happ hnapp
  | sleeps udata o hh hask hs hp hwoke =>
    obtain ⟨-, w, hw, hudata⟩ := hwoke.resolve_left fun ha => ha.1.2.1 hr
    have hl' := hst.lives hr trivial
    have hpc : (s'.g.task t).pc = .app := all_onPlaces (Q := fun _ g' => (g'.task t).pc = .app) hst.step
      (wakes_resume (at_running hst.inv hr) hh now .eintr 0)
    have hu' : (s'.g.task t).udata = (x.s.g.task t).udata := hst.keeps hl hl' (fun ha => ha.2.1 hr) fun _ => nofun
    refine held_goesOn hx (hst.did.main hx.main) hr hcall (fun u hut => ?_) (fun f' hf' => ?_) ha
    · exact callOk_other hst (fun hu => hut (Option.some.inj (hu.symm.trans hr))) (hx.calls u)
    · obtain ⟨hw', hp'⟩ := back_alone hp hw hf'
      refine callOk_works hl' hpc hw' ?_
      rw [hu', hudata]
      exact hp'

/-- The library's part of step `ev`, on the places. -/
def OnPlaces (x : Sys) (p : Places) (ev : SysEv) (s' : State Glob Heap) (p' : Places) : Prop :=
  (∃ e, x.ev ev = some e ∧ Stepped x.s p e s' p') ∨ x.ev ev = none ∧ s' = x.s

theorem held_step (hl : Linked x.s p) (hx : Held x) {ev : SysEv} (hc : x.Can ev) (ho : OnPlaces x p ev s' p')
    (ha : x.after s' ev = some x') : Held x' := by
  cases ev with
  | lib e =>
    obtain ⟨e', he, hst⟩ := ho.resolve_right fun h => nomatch h.1
    obtain rfl := Option.some.inj he
    exact held_lib hx hst hc.2.1 hc.2.2 ha
  | call h =>
    obtain ⟨-, rfl⟩ := ho.resolve_left fun ⟨_, h, _⟩ => nomatch h
    obtain ⟨t, ht, -⟩ := hc
    simp only [Sys.after, ht.2.1] at ha
    cases ha
    refine ⟨hx.main, fun u => ?_, hx.done⟩
    by_cases hut : u = t
    · subst hut
      show CallOk x.s.g u (update x.call u (some (.hook (enter h (x.s.g.task u).udata))) u)
      rw [update_self]
      exact callOk_works (hl.inv.here ht.2.1).1 ht.2.2 rfl .enter
    · show CallOk x.s.g u (update x.call t (some (.hook (enter h (x.s.g.task t).udata))) u)
      rw [update_of_ne hut]
      exact hx.calls u
  | taskdata =>
    obtain ⟨t, f, data, hin, hask⟩ := hc
    exact held_taskdata hl.inv hx hin hask ho ha
  | sleep now a =>
    obtain ⟨-, t, f, o, hin, hask, hs⟩ := hc
    rcases ho with ⟨e, hev, hst⟩ | ⟨hev, -⟩
    · exact held_sleep hx hin hask hs hev hst ha
    · simp only [Sys.ev, frame_in hin.1.2.1 hin.2, Option.bind_some, hask] at hev
      cases o with
      | taskdelay ms => cases hev
      | fdwait fd rw => cases hev
      | taskdata data => cases hs
      | real c => cases hs
  | back now =>
    obtain ⟨e', he, hst⟩ := ho.resolve_right fun h => nomatch h.1
    obtain rfl := Option.some.inj he
    obtain ⟨-, t, f, hr, hcall⟩ := hc
    exact held_back hx hr hcall hst ha
  | real a =>
    obtain ⟨-, rfl⟩ := ho.resolve_left fun ⟨_, h, _⟩ => nomatch h
    obtain ⟨t, f, c, hin, hask, hans⟩ := hc
    obtain ⟨hw, hp⟩ := works hx hin
    have ha : x.goesOn x.s (.real a) (fun f _ => f.real a) = some x' := ha
    refine held_goesOn hx hx.main hin.1.2.1 hin.2 (fun u _ => ?_) (fun f' hf' => ?_) ha
    · exact hx.calls u
    · obtain ⟨hw', hp'⟩ := real_alone hp hask hans hf'
      exact callOk_works (hl.inv.here hin.1.2.1).1 hin.1.2.2 (hw'.trans hw) hp'
  | ret =>
    obtain ⟨-, rfl⟩ := ho.resolve_left fun ⟨_, h, _⟩ => nomatch h
    obtain ⟨t, f, r, hin, hret⟩ := hc
    obtain ⟨-, hp⟩ := works hx hin
    simp only [Sys.after, hin.1.2.1, frame_in hin.1.2.1 hin.2, hret] at ha
    cases ha
    refine ⟨hx.main, fun u => ?_, List.forall_mem_cons.mpr ⟨⟨f.code, hp, Code.of_value hret⟩, hx.done⟩⟩
    by_cases hut : u = t
    · subst hut
      show CallOk x.s.g u (update x.call u none u)
      rw [update_self]
      exact fun _ hh => by rw [hin.1.2.2] at hh; cases hh
    · show CallOk x.s.g u (update x.call t none u)
      rw [update_of_ne hut]
      exact hx.calls u

/-! ## Runs -/

theorem Sys.Can.enabled {ev : SysEv} (h : x.Can ev) (he : x.ev ev = some e) : Enabled x.s.g e := by
  cases ev with
  | lib e' => exact Option.some.inj he ▸ h.1
  | taskdata =>
    obtain ⟨t, f, data, hin, hask⟩ := h
    simp only [Sys.ev, frame_in hin.1.2.1 hin.2, Option.bind_some, hask] at he
    cases data with
    | none => cases he
    | some d => exact Option.some.inj he ▸ ⟨t, hin.1⟩
  | sleep now a =>
    obtain ⟨hdead, t, f, o, hin, hask, hs⟩ := h
    simp only [Sys.ev, frame_in hin.1.2.1 hin.2, Option.bind_some, hask] at he
    cases o with
    | taskdelay ms => exact Option.some.inj he ▸ ⟨⟨t, hin.1⟩, hdead⟩
    | fdwait fd rw => exact Option.some.inj he ▸ ⟨⟨t, hin.1⟩, hdead⟩
    | taskdata data => cases hs
    | real c => cases hs
  | back now => exact Option.some.inj he ▸ h.1
  | call h' => cases he
  | real a => cases he
  | ret => cases he

theorem goesOn_s {ev : SysEv} {m : Frame → Task → Option Frame} (h : x.goesOn s' ev m = some x') : x'.s = s' := by
  unfold Sys.goesOn at h
  split at h
  · split at h
    · cases h
      rfl
    · cases h
  · cases h

theorem after_s {ev : SysEv} (h : x.after s' ev = some x') : x'.s = s' := by
  cases ev with
  | lib e =>
    simp only [Sys.after] at h
    split at h
    · split at h
      · split at h <;> cases h <;> rfl
      · cases h
        rfl
    · cases h
      rfl
  | call h' =>
    simp only [Sys.after] at h
    split at h
    · cases h
      rfl
    · cases h
  | ret =>
    simp only [Sys.after] at h
    split at h
    · split at h
      · cases h
        rfl
      · cases h
    · cases h
  | _ =>
    simp only [Sys.after] at h
    exact goesOn_s h

/-- A step is one of the library, or leaves that alone. -/
theorem sys_step {ev : SysEv} (hl : Linked x.s p) (hc : x.Can ev) (hs : (x.code ev).onHeap x.s = .ok ((), s')) :
    ∃ p', Linked s' p' ∧ OnPlaces x p ev s' p' := by
  cases hev : x.ev ev with
  | none =>
    simp only [Sys.code, hev] at hs
    obtain ⟨-, rfl⟩ := Prod.mk.inj (Except.ok.inj hs)
    exact ⟨p, hl, .inr ⟨hev, rfl⟩⟩
  | some e =>
    simp only [Sys.code, hev] at hs
    obtain ⟨p', hr, hl'⟩ := hl.step (hc.enabled hev) hs
    exact ⟨p', hl', .inl ⟨e, hev, hl.inv, hc.enabled hev, hr, hl'.inv⟩⟩

/-- `Held` holds in every run, and so does what every step keeps. -/
theorem SysRun.holds {C : Sys → SysEv → Sys → Prop} {x₀ : Sys} {P : Sys → Prop} {p₀ : Places} (hl₀ : Linked x₀.s p₀)
    (hx₀ : Held x₀) (hp : P x₀) (hstep : ∀ {x x' : Sys} {p p' : Places} {ev : SysEv}, Linked x.s p → Held x → P x → x.Can ev →
      OnPlaces x p ev x'.s p' → x.after x'.s ev = some x' → Held x' → C x ev x' → P x') (h : SysRun C x₀ x) :
    ∃ p, Linked x.s p ∧ Held x ∧ P x := by
  induction h with
  | refl => exact ⟨p₀, hl₀, hx₀, hp⟩
  | step ev _ hc hs ha hC ih =>
    obtain ⟨p, hl, hx, hP⟩ := ih
    obtain ⟨p', hl', ho⟩ := sys_step hl hc hs
    have hx' := held_step hl hx hc ho ha
    obtain rfl := after_s ha
    exact ⟨p', hl', hx', hstep hl hx hP hc ho ha hx' hC⟩

theorem held_start (h : SysStarts x) : Held x := by
  obtain ⟨⟨rendezl, size, junk, mem, -, he⟩, hcall, hdone⟩ := h
  refine ⟨fun _ => by rw [he]; rfl, fun t => ?_, fun d hd => ?_⟩
  · rw [hcall t]
    intro hl
    rw [he] at hl
    cases hl
  · rw [hdone] at hd
    cases hd

theorem SysRun.held {C : Sys → SysEv → Sys → Prop} {x₀ : Sys} (h₀ : SysStarts x₀) (h : SysRun C x₀ x) :
    ∃ p, Linked x.s p ∧ Held x := by
  obtain ⟨p, hl, hx, -⟩ := h.holds (P := fun _ => True) (linked_start h₀.starts) (held_start h₀) trivial
    fun _ _ _ _ _ _ _ _ => trivial
  exact ⟨p, hl, hx⟩

/-- In every run each hook that returned went as it can go alone. -/
theorem runs_alone {C : Sys → SysEv → Sys → Prop} {x₀ : Sys} (h₀ : SysStarts x₀) (h : SysRun C x₀ x) {h' : Hook} {udata : Int}
    {seen : Seen} {r : Ret} (hd : .hook t h' udata seen r ∈ x.done) : h'.Spec udata r seen := by
  obtain ⟨-, -, hx⟩ := h.held h₀
  obtain ⟨c, hp, hr⟩ := hx.done _ hd
  exact hook_spec h' hp hr

end

/-! ## Single runs -/

instance (a : Reply) : Decidable a.Fails := inferInstanceAs (Decidable (_ ∧ _))

instance (c : Syscall) (a : Reply) : Decidable (c.Answers a) :=
  match c with
  | .read _ _ => inferInstanceAs (Decidable (_ ∨ _ ∧ _ ∧ _ ∧ _))
  | .write _ _ _ => inferInstanceAs (Decidable (_ ∨ _ ∧ _ ∧ _ ∧ _))
  | .soerror _ => inferInstanceAs (Decidable True)
  | .accept _ => inferInstanceAs (Decidable (_ ∨ _ ∧ _))
  | .connect _ => inferInstanceAs (Decidable (_ ∨ _ ∧ _))
  | .getpeername _ => inferInstanceAs (Decidable (_ ∨ _ ∧ _))
  | .setsockopt _ _ _ _ => inferInstanceAs (Decidable (_ ∨ _ ∧ _))
  | .fcntl _ _ _ => inferInstanceAs (Decidable (_ ∨ _ ∧ _))

deriving instance DecidableEq for Ev

deriving instance DecidableEq for Done

def sysBoot : Sys := ⟨boot, fun _ => none, []⟩

theorem sysStarts_boot : SysStarts sysBoot := ⟨starts_boot, fun _ => rfl, rfl⟩

def plain : Ev → Bool
  | .taskdelay _ _ _ => false
  | .fdwait _ _ => false
  | _ => true

/-- What the running task's hook asks next, if the task is at work there. -/
def Sys.asked (x : Sys) : Option Op := if x.s.g.runs.isSome then x.frame.bind Frame.asks else none

/-- Enough for a step to be possible, and it computes. -/
def Sys.can (x : Sys) : SysEv → Bool
  | .lib e => x.s.g.can e && plain e && x.frame.isNone
  | .call _ => match x.s.g.runs with | some t => (x.call t).isNone | none => false
  | .taskdata => match x.asked with | some (.taskdata _) => true | _ => false
  | .sleep _ a => !x.s.g.live a && match x.asked with | some o => o.sleeps | none => false
  | .back now => x.s.g.can (.resume now .eintr 0) && x.frame.isSome
  | .real a => match x.asked with | some (.real c) => c.Answers a | _ => false
  | .ret => x.s.g.runs.isSome && (x.frame.bind Frame.returns).isSome

section
variable {x x₀ : Sys} {f : Frame} {o : Op}

theorem of_frame (h : x.frame = some f) : ∃ t, x.s.g.taskrunning = some t ∧ x.call t = some (.hook f) := by
  unfold Sys.frame at h
  split at h
  · rename_i t hr
    split at h
    · rename_i f' hcall
      exact ⟨t, hr, Option.some.inj h ▸ hcall⟩
    · cases h
  · cases h

theorem runs_in (h : x.s.g.runs.isSome = true) (hf : x.frame = some f) : ∃ t, x.In t f := by
  obtain ⟨t, ht⟩ := Option.isSome_iff_exists.mp h
  obtain ⟨hr, hruns⟩ := Option.filter_eq_some_iff.mp ht
  obtain ⟨u, hu, hcall⟩ := of_frame hf
  obtain rfl : t = u := Option.some.inj (hr.symm.trans hu)
  exact ⟨t, of_decide_eq_true hruns, hcall⟩

theorem of_asked (h : x.asked = some o) : ∃ t f, x.In t f ∧ f.asks = some o := by
  unfold Sys.asked at h
  split at h
  · rename_i hruns
    obtain ⟨f, hf, ho⟩ := Option.bind_eq_some_iff.mp h
    obtain ⟨t, ht⟩ := runs_in hruns hf
    exact ⟨t, f, ht, ho⟩
  · cases h

theorem Sys.Can.of {e : SysEv} (h : x.can e = true) : x.Can e := by
  cases e with
  | lib e =>
    obtain ⟨h12, h3⟩ := Bool.and_eq_true_iff.mp h
    obtain ⟨h1, h2⟩ := Bool.and_eq_true_iff.mp h12
    refine ⟨enabled_of_can h1, ?_, Option.isNone_iff_eq_none.mp h3⟩
    cases e <;> trivial
  | call h' =>
    simp only [Sys.can] at h
    split at h
    · rename_i t ht
      exact ⟨t, of_decide_eq_true (Option.filter_eq_some_iff.mp ht).2, Option.isNone_iff_eq_none.mp h⟩
    · cases h
  | taskdata =>
    simp only [Sys.can] at h
    split at h
    · rename_i data hask
      obtain ⟨t, f, hin, ho⟩ := of_asked hask
      exact ⟨t, f, data, hin, ho⟩
    · cases h
  | sleep now a =>
    obtain ⟨h1, h2⟩ := Bool.and_eq_true_iff.mp h
    refine ⟨by simpa using h1, ?_⟩
    split at h2
    · rename_i o hask
      obtain ⟨t, f, hin, ho⟩ := of_asked hask
      exact ⟨t, f, o, hin, ho, h2⟩
    · cases h2
  | back now =>
    obtain ⟨h1, h2⟩ := Bool.and_eq_true_iff.mp h
    obtain ⟨f, hf⟩ := Option.isSome_iff_exists.mp h2
    obtain ⟨t, hr, hcall⟩ := of_frame hf
    exact ⟨enabled_of_can h1, t, f, hr, hcall⟩
  | real a =>
    simp only [Sys.can] at h
    split at h
    · rename_i c hask
      obtain ⟨t, f, hin, ho⟩ := of_asked hask
      exact ⟨t, f, c, hin, ho, of_decide_eq_true h⟩
    · cases h
  | ret =>
    obtain ⟨h1, h2⟩ := Bool.and_eq_true_iff.mp h
    obtain ⟨r, hr⟩ := Option.isSome_iff_exists.mp h2
    obtain ⟨f, hf, hret⟩ := Option.bind_eq_some_iff.mp hr
    obtain ⟨t, hin⟩ := runs_in h1 hf
    exact ⟨t, f, r, hin, hret⟩

def Sys.result (x : Sys) (e : SysEv) : Option Sys :=
  x.after (match x.ev e with | some ev => x.s.next ev | none => x.s) e

def Sys.next (x : Sys) (e : SysEv) : Sys := (x.result e).getD x

/-- The steps `es` can be taken in turn, and `c` accepts them. -/
def Sys.plays (c : Sys → SysEv → Sys → Bool) (x : Sys) : List SysEv → Bool
  | [] => true
  | e :: es => x.can e && (x.result e).isSome && c x e (x.next e) && (x.next e).plays c es

theorem SysRun.plays {C : Sys → SysEv → Sys → Prop} {c : Sys → SysEv → Sys → Bool} (hC : ∀ x e x', c x e x' = true → C x e x')
    {p : Places} (hl₀ : Linked x₀.s p) (hx₀ : Held x₀) : ∀ (es : List SysEv) {x : Sys}, SysRun C x₀ x → x.plays c es = true →
      SysRun C x₀ (es.foldl Sys.next x) := by
  intro es
  induction es with
  | nil => exact fun h _ => h
  | cons e es ih =>
    intro x h hp
    simp only [Sys.plays, Bool.and_eq_true] at hp
    obtain ⟨⟨⟨hcan, hres⟩, hc⟩, hrest⟩ := hp
    refine ih ?_ hrest
    obtain ⟨x', hx'⟩ := Option.isSome_iff_exists.mp hres
    have hnext : x.next e = x' := by rw [Sys.next, hx', Option.getD_some]
    obtain ⟨p, hl, -⟩ := h.holds (P := fun _ => True) hl₀ hx₀ trivial fun _ _ _ _ _ _ _ _ => trivial
    refine .step e h (.of hcan) ?_ (hnext ▸ hx') (hC _ _ _ hc)
    unfold Sys.code
    cases hev : x.ev e with
    | none => rfl
    | some ev =>
      obtain ⟨s', -, hs, -⟩ := ok_onHeap (step_places hl.inv ((Sys.Can.of hcan).enabled hev)) hl.rep
      have hs : (Sched.code ev).onHeap x.s = .ok ((), s') := hs
      show (Sched.code ev).onHeap x.s = .ok ((), x.s.next ev)
      rw [hs, State.next, hs]

end

theorem SysRun.played (es : List SysEv) (h : sysBoot.plays (fun _ _ _ => true) es = true) :
    SysRun (fun _ _ _ => True) sysBoot (es.foldl Sys.next sysBoot) :=
  SysRun.plays (fun _ _ _ _ => trivial) (linked_start sysStarts_boot.starts) (held_start sysStarts_boot) es .refl h

end Libtask.Sched.Hooks
