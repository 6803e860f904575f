/-
  Libtask.Sched.Ids — the ids of tasks (task.c: `taskalloc`, `taskcreate`, `taskid`).

  A new task gets the next number of `taskidgen`, which is an `int` that wraps, and no other step
  touches an id (`names_step`). So the id of a task is the number of its creation, modulo 2^32
  (`numbered`).

  `distinct_iff`: two tasks that are alive have different ids as long as there are no 2^32 creations
  from one to the other. `namesakes`: a task that lives on while others come and go has the id of
  the 2^32nd behind it.
-/

import Libtask.Sched.Registry

namespace Libtask.Sched

open Function (update update_self update_of_ne update_eq_self_iff)

/-! ## One step -/

/-- The task `o` got the next id, and nobody else got one. -/
structure Names (o : Option TaskPtr) (g g' : Glob) : Prop where
  idgen : g'.taskidgen = if o.isSome then g.taskidgen + 1 else g.taskidgen
  id : ∀ u, (g'.task u).id = if o = some u then (g.taskidgen + 1).signExtend 64 else (g.task u).id

section
variable {s s' : St} {g g' g'' : Glob} {o : Option TaskPtr} {t u a : TaskPtr} {e : Ev}

theorem names_refl (g : Glob) : Names none g g := ⟨rfl, fun _ => rfl⟩

theorem Names.behind (h : Names o g g') (h' : Names none g' g'') : Names o g g'' :=
  ⟨h'.idgen.trans h.idgen, fun u => (h'.id u).trans (h.id u)⟩

theorem names_setTask {f : Task → Task} (hf : ∀ x, (f x).id = x.id) (g : Glob) (t : TaskPtr) : Names none g (g.setTask t f) := by
  refine ⟨rfl, fun u => ?_⟩
  rcases setTask_eq g t u f with he | ⟨-, he⟩ <;> rw [he]
  · rfl
  · exact hf _

theorem closed_names : Closed fun s s' => Names none s.g s'.g where
  refl s := names_refl s.g
  trans h h' := h.behind h'
  modify s f hf := ⟨hf.taskidgen, fun u => by rw [State.modify, hf.task]; rfl⟩
  setTask s t f hf := names_setTask (fun x => (hf x).id) s.g t
  add s l t _ _ := names_refl s.g
  del s l t _ := names_refl s.g
  free s t := by
    have hn := names_setTask (f := fun x => { x with alltaskslot := (s.g.task t).alltaskslot }) (fun _ => rfl) s.g
      (update s.g.alltask (s.g.task t).alltaskslot (s.g.alltask (s.g.nalltask - 1)) (s.g.task t).alltaskslot)
    exact ⟨hn.idgen, hn.id⟩

theorem names_create (s : St) (fn : StartFn) (a : TaskPtr) : Names (some a) s.g (s.create fn a).g := by
  refine ⟨rfl, fun u => ?_⟩
  by_cases hu : u = a
  · subst hu
    simp [State.create, State.modify]
  · simp [State.create, State.modify, hu, Ne.symm hu]

theorem names_ready (s : St) (fn : StartFn) (a : TaskPtr) : Names (some a) s.g ((s.create fn a).ready a).g := by
  have hn := names_setTask (f := fun x => { x with state := .READY }) (fun _ => rfl) (s.create fn a).g a
  exact (names_create s fn a).behind ⟨hn.idgen, hn.id⟩

/-- `_startfdtask a` creates `a`, or nobody. -/
def Glob.starter (g : Glob) (a : TaskPtr) : Option TaskPtr := if g.startedfdtask then none else some a

theorem all_startfdtask_names (a : TaskPtr) (g : Glob) :
    (_startfdtask a).All (fun _ g' => Names (g.starter a) g g' ∧ g'.startedfdtask = true) g := by
  show (if g.startedfdtask = true then pure () else do
    modify fun g => { g with startedfdtask := true }
    taskcreate (.fdtask (← globals).pool_loop_fn) a : Lib Unit).All _ g
  unfold Glob.starter
  split
  · rename_i hst
    exact ⟨names_refl g, hst⟩
  · refine all_taskcreate (s := ⟨{ g with startedfdtask := true }, Places.empty⟩) ⟨?_, rfl⟩
    have hn := names_ready ⟨{ g with startedfdtask := true }, Places.empty⟩ (.fdtask g.pool_loop_fn) a
    exact ⟨hn.idgen, hn.id⟩

/-- `taskdelay` names nobody but the `fdtask`. -/
theorem names_taskdelay {ms now : Nat} {k : Pc} (hs : (taskdelay ms now a k).onPlaces s = .ok ((), s')) :
    Names (s.g.starter a) s.g s'.g := by
  obtain ⟨⟨⟩, s₁, h₁, hs⟩ := onPlaces_parts hs
  have hstart : Names (s.g.starter a) s.g s₁.g := (all_onPlaces h₁ (all_startfdtask_names a s.g)).1
  -- the rest touches no id
  refine hstart.behind (across_bind closed_names (across_observe closed_names _) (fun _ => ?_) s₁ s' () hs)
  refine across_running fun t => across_globals fun g => across_bind closed_names (fun s₂ s₃ b h₂ => ?_) fun _ => ?_
  · simp only [Prog.onPlaces] at h₂
    split at h₂
    · obtain ⟨-, rfl⟩ := Prod.mk.inj (Except.ok.inj h₂)
      exact names_refl s₂.g
    · cases h₂
  · refine across_bind closed_names (across_observe closed_names _) fun _ => across_bind closed_names (fun s₂ s₃ b h₂ => ?_) fun _ =>
      across_bind closed_names (across_modify closed_names fun _ => ⟨rfl, rfl, rfl, rfl, rfl, rfl⟩) fun _ =>
        across_taskswitch closed_names k
    obtain ⟨-, rfl⟩ := Prod.mk.inj (Except.ok.inj h₂)
    have hn := names_setTask (f := fun x => { x with alarmtime := u64 (now + ms * 1000000) }) (fun _ => rfl) s₂.g t
    exact ⟨hn.idgen, hn.id⟩

/-- Who is created in a step gets the next id. -/
theorem names_step (hs : (code e).onPlaces s = .ok ((), s')) : Names (Step.creates ⟨s.g, e, s'.g⟩) s.g s'.g := by
  by_cases hm : e.malloc = none
  · have hcreates : Step.creates ⟨s.g, e, s'.g⟩ = none := by simp only [Step.creates, hm, ite_self]
    rw [hcreates]
    exact across_code closed_names hm s s' () hs
  · have hstarter : ∀ a, e.starts = true → e.malloc = some a → Step.creates ⟨s.g, e, s'.g⟩ = s.g.starter a := fun a hst hm => by
      rw [Step.creates, hst, hm, Glob.starter, Bool.true_and]
    cases e with
    | taskcreateraw a => exact all_onPlaces (Q := fun _ => Names (some a) s.g) hs (all_taskcreateraw (names_create s .app a))
    | taskcreate a => exact all_onPlaces (Q := fun _ => Names (some a) s.g) hs (all_taskcreate (names_ready s .app a))
    | startfdtask fn arg a =>
      have h := (all_onPlaces (Q := fun _ g' => Names (s.g.starter a) s.g g') hs
        (all_mono (fun _ g' h' => ⟨h'.1.idgen, h'.1.id⟩)
          (all_startfdtask_names a { s.g with pool_loop_arg := arg, pool_loop_fn := fn })))
      rw [hstarter a rfl rfl]
      exact h
    | taskdelay ms now a =>
      rw [hstarter a rfl rfl]
      exact names_taskdelay hs
    | fdwait now a =>
      rw [hstarter a rfl rfl]
      change (fdwait now a).onPlaces s = _ at hs
      obtain ⟨⟨⟩, s₁, h₁, hs⟩ := onPlaces_parts hs
      obtain ⟨hn, hst⟩ := all_onPlaces h₁ (all_startfdtask_names a s.g)
      have hagain := names_taskdelay hs
      rw [Glob.starter, if_pos hst] at hagain
      exact hn.behind hagain
    | _ => exact absurd rfl hm

end

/-! ## Runs -/

/-- How many tasks were created; the steps are given newest first. -/
def created (tr : List Step) : Nat := (tr.filterMap Step.creates).length

/-- The number of the creation of `t`, the first being 1. -/
def born : List Step → TaskPtr → Nat
  | [], _ => 0
  | x :: tr, t => if x.creates = some t then created tr + 1 else born tr t

/-- The value of `taskid` in task `t`. -/
def Glob.taskid (g : Glob) (t : TaskPtr) : BitVec 64 := (g.task t).id

/-- The value of the `taskcreate` that made `t`, an `int`. -/
def Glob.taskcreated (g : Glob) (t : TaskPtr) : BitVec 32 := (g.task t).id.setWidth 32

theorem created_cons (x : Step) (tr : List Step) : created (x :: tr) = created tr + if x.creates.isSome then 1 else 0 := by
  unfold created
  rw [List.filterMap_cons]
  cases x.creates <;> rfl

theorem born_mem {t : TaskPtr} : ∀ {tr : List Step}, Present tr t → 0 < born tr t ∧ born tr t ≤ created tr := by
  intro tr
  induction tr with
  | nil => exact nofun
  | cons x tr ih =>
    intro h
    rw [born, created_cons]
    split
    · rename_i hx
      rw [hx]
      exact ⟨Nat.succ_pos _, Nat.le_refl _⟩
    · rename_i hx
      obtain ⟨h1, h2⟩ := ih (h.resolve_left hx).1
      exact ⟨h1, by omega⟩

/-- No two tasks come from one creation. -/
theorem born_inj {t u : TaskPtr} : ∀ {tr : List Step}, Present tr t → Present tr u → born tr t = born tr u → t = u := by
  intro tr
  induction tr with
  | nil => exact nofun
  | cons x tr ih =>
    intro ht hu he
    rw [born, born] at he
    by_cases hxt : x.creates = some t
    · by_cases hxu : x.creates = some u
      · exact Option.some.inj (hxt.symm.trans hxu)
      · rw [if_pos hxt, if_neg hxu] at he
        have hle := (born_mem (hu.resolve_left hxu).1).2
        omega
    · by_cases hxu : x.creates = some u
      · rw [if_neg hxt, if_pos hxu] at he
        have hle := (born_mem (ht.resolve_left hxt).1).2
        omega
      · rw [if_neg hxt, if_neg hxu] at he
        exact ih (ht.resolve_left hxt).1 (hu.resolve_left hxu).1 he

theorem present_live {s₀ s : State Glob Heap} {tr : List Step} {t : TaskPtr} (h₀ : Starts s₀) (h : Run s₀ tr s)
    (ht : s.g.live t = true) : Present tr t := by
  obtain ⟨⟨-, hpresent, -⟩, -⟩ := registry h₀ h
  obtain ⟨p, hl⟩ := h.linked (linked_start h₀)
  exact (hpresent t).mp ((mem_tasks hl.inv.base.slots).mpr ht)

theorem numbered {s₀ s : State Glob Heap} {tr : List Step} (h₀ : Starts s₀) (h : Run s₀ tr s) :
    s.g.taskidgen = BitVec.ofNat 32 (created tr) ∧
      ∀ t, s.g.live t = true → s.g.taskid t = (BitVec.ofNat 32 (born tr t)).signExtend 64 := by
  obtain ⟨p, -, hgen, hid⟩ := Run.holds
    (P := fun tr s => s.g.taskidgen = BitVec.ofNat 32 (created tr) ∧
      ∀ t, Present tr t → s.g.taskid t = (BitVec.ofNat 32 (born tr t)).signExtend 64)
    (C := fun _ => True) (linked_start h₀)
    (by obtain ⟨rendezl, size, junk, mem, -, rfl⟩ := h₀; exact ⟨rfl, nofun⟩)
    (fun {tr s s' e} _ hP _ hs _ _ => by
      obtain ⟨hgen, hid⟩ := hP
      have hn := names_step hs
      have hnext : s.g.taskidgen + 1 = BitVec.ofNat 32 (created tr + 1) := by rw [hgen, BitVec.ofNat_add]; rfl
      refine ⟨?_, fun t ht => ?_⟩
      · rw [hn.idgen, created_cons, hnext, hgen]
        split <;> rfl
      · rw [Glob.taskid, hn.id t, born, hnext]
        split
        · rfl
        · rename_i hne
          exact hid t (ht.resolve_left hne).1)
    h fun _ _ => trivial
  exact ⟨hgen, fun t ht => hid t (present_live h₀ h ht)⟩

/-- `taskid` and `taskcreate` tell the tasks apart that are alive. -/
def Distinct (g : Glob) : Prop := ∀ t u, g.live t = true → g.live u = true →
  g.taskid t = g.taskid u ∨ g.taskcreated t = g.taskcreated u → t = u

theorem setWidth_signExtend (x : BitVec 32) : (x.signExtend 64).setWidth 32 = x := by
  apply BitVec.eq_of_getLsbD_eq
  intro i hi
  have h64 : i < 64 := by omega
  simp [BitVec.getElem_signExtend, hi, h64]

theorem signExtend_inj {x y : BitVec 32} : x.signExtend 64 = y.signExtend 64 ↔ x = y := by
  refine ⟨fun h => ?_, congrArg _⟩
  rw [← setWidth_signExtend x, h, setWidth_signExtend]

theorem ofNat_inj {n m : Nat} : BitVec.ofNat 32 n = BitVec.ofNat 32 m ↔ n % 2 ^ 32 = m % 2 ^ 32 := by
  rw [← BitVec.toNat_inj, BitVec.toNat_ofNat, BitVec.toNat_ofNat]

/-- The two values tell the same tasks apart. -/
theorem taskcreated_inj {s₀ s : State Glob Heap} {tr : List Step} {t u : TaskPtr} (h₀ : Starts s₀) (h : Run s₀ tr s)
    (ht : s.g.live t = true) (hu : s.g.live u = true) :
    s.g.taskcreated t = s.g.taskcreated u ↔ born tr t % 2 ^ 32 = born tr u % 2 ^ 32 := by
  have hid := (numbered h₀ h).2
  have hcreated : ∀ t, s.g.live t = true → s.g.taskcreated t = BitVec.ofNat 32 (born tr t) := fun t ht => by
    rw [Glob.taskcreated, ← Glob.taskid, hid t ht, setWidth_signExtend]
  rw [hcreated t ht, hcreated u hu, ofNat_inj]

theorem taskid_inj {s₀ s : State Glob Heap} {tr : List Step} {t u : TaskPtr} (h₀ : Starts s₀) (h : Run s₀ tr s)
    (ht : s.g.live t = true) (hu : s.g.live u = true) :
    s.g.taskid t = s.g.taskid u ↔ born tr t % 2 ^ 32 = born tr u % 2 ^ 32 := by
  have hid := (numbered h₀ h).2
  rw [hid t ht, hid u hu, signExtend_inj, ofNat_inj]

/-- Tasks that are alive have different ids if none were created a multiple of 2^32 creations apart. -/
theorem distinct_iff {s₀ s : State Glob Heap} {tr : List Step} (h₀ : Starts s₀) (h : Run s₀ tr s) :
    Distinct s.g ↔ ∀ t u, s.g.live t = true → s.g.live u = true → born tr t % 2 ^ 32 = born tr u % 2 ^ 32 → t = u := by
  constructor
  · exact fun hd t u ht hu hb => hd t u ht hu (.inl ((taskid_inj h₀ h ht hu).mpr hb))
  · intro hb t u ht hu he
    exact hb t u ht hu (he.elim (taskid_inj h₀ h ht hu).mp (taskcreated_inj h₀ h ht hu).mp)

theorem distinct_iff_two : Distinct two.g := by
  have h := run_boot [.taskcreate 1, .taskcreate 2, .taskscheduler, .resume 0 .eintr 0] (by decide +kernel)
  refine (distinct_iff starts_boot h).mpr fun t u ht hu hb => ?_
  have hcreated : created (boot.steps [.taskcreate 1, .taskcreate 2, .taskscheduler, .resume 0 .eintr 0] []) = 2 := by decide +kernel
  have hle := (born_mem (present_live starts_boot h ht)).2
  have hle' := (born_mem (present_live starts_boot h hu)).2
  rw [hcreated] at hle hle'
  exact born_inj (present_live starts_boot h ht) (present_live starts_boot h hu) (by omega)

/-- No two ids are the same before the counter wraps. -/
theorem distinct_few {s₀ s : State Glob Heap} {tr : List Step} (h₀ : Starts s₀) (h : Run s₀ tr s) (hfew : created tr < 2 ^ 32) :
    Distinct s.g := by
  have hlt : ∀ t, s.g.live t = true → born tr t % 2 ^ 32 = born tr t := fun t ht =>
    Nat.mod_eq_of_lt (Nat.lt_of_le_of_lt (born_mem (present_live h₀ h ht)).2 hfew)
  intro t u ht hu he
  have hb := he.elim (taskid_inj h₀ h ht hu).mp (taskcreated_inj h₀ h ht hu).mp
  rw [hlt t ht, hlt u hu] at hb
  exact born_inj (present_live h₀ h ht) (present_live h₀ h hu) hb

/-! ## A server -/

/-- The tasks of the application that are alive are those with a `pc` in `k`, and the run queue is `ts`. -/
structure Scene (s : St) (ph : Phase) (o : Option TaskPtr) (ts : List TaskPtr) (k : TaskPtr → Option Pc) : Prop where
  phase : s.g.phase = ph
  running : s.g.taskrunning = o
  queue : s.m.q .taskrunqueue = ts
  live : ∀ t, s.g.live t = (k t).isSome
  pc : ∀ t c, k t = some c → (s.g.task t).pc = c
  fn : ∀ t, k t ≠ none → (s.g.task t).startfn = .app

section
variable {s s' : St} {k : TaskPtr → Option Pc} {t a : TaskPtr} {ph : Phase} {o : Option TaskPtr} {ts : List TaskPtr}

/-- A step in which `a` gets to `c`. -/
theorem Scene.next (hc : Scene s ph o ts k) {o' : Option TaskPtr} {ts' : List TaskPtr} {c : Option Pc} (hphase : s'.g.phase = s.g.phase)
    (hrunning : s'.g.taskrunning = o') (hqueue : s'.m.q .taskrunqueue = ts') (hlive : s'.g.live = update s.g.live a c.isSome)
    (hothers : ∀ u, u ≠ a → (s'.g.task u).pc = (s.g.task u).pc ∧ (s'.g.task u).startfn = (s.g.task u).startfn)
    (hself : ∀ b, c = some b → (s'.g.task a).pc = b ∧ (s'.g.task a).startfn = .app) : Scene s' ph o' ts' (update k a c) := by
  refine ⟨hphase.trans hc.phase, hrunning, hqueue, fun u => ?_, fun u b hu => ?_, fun u hu => ?_⟩
  all_goals
    by_cases hua : u = a
    · subst hua
      simp only [update_self] at *
      first
      | rw [hlive, update_self]
      | exact (hself b hu).1
      | exact (hself _ (Option.some_get (Option.isSome_iff_ne_none.mpr hu)).symm).2
    · simp only [update_of_ne hua] at *
      first
      | rw [hlive, update_of_ne hua, hc.live]
      | rw [(hothers u hua).1, hc.pc u b hu]
      | rw [(hothers u hua).2, hc.fn u hu]

theorem Scene.create (h : Inv s) (hc : Scene s ph o ts k) (ha : k a = none) :
    Ok (code (.taskcreate a)) s fun _ s' => Scene s' ph o (ts ++ [a]) (update k a (some .start)) := by
  have hdead : s.g.live a = false := by rw [hc.live, ha]; rfl
  obtain ⟨-, hloc, -⟩ := (h.good a).dead hdead
  refine (taskcreate_ok h hdead .app).mono fun _ s' hs => ?_
  rw [hs.1]
  have hq : ((s.create .app a).ready a).m.q .taskrunqueue = ts ++ [a] := by
    rw [State.ready, push_q (s := (s.create .app a).setTask a fun x => { x with state := .READY }) hloc, update_self, ← hc.queue]
    rfl
  refine hc.next rfl hc.running hq rfl (fun u hu => ?_) fun b hb => ?_
  · simp [State.create, State.ready, State.push, State.setTask, State.modify, Glob.setTask, Glob.observe, hu]
  · rw [← Option.some.inj hb]
    simp [State.create, State.ready, State.push, State.setTask, State.modify, Glob.setTask, Glob.observe]

theorem Scene.yield (h : Inv s) (hc : Scene s ph (some t) ts k) (ht : k t = some .app) :
    Ok (code .taskyield) s fun _ s' => ∃ n, Scene s' ph none (ts ++ [t]) (update k t (some (.taskyield n))) := by
  obtain ⟨hlive, hz, hloc⟩ := h.here hc.running
  have hfn : (s.g.task t).startfn = .app := hc.fn t (by rw [ht]; nofun)
  have hready : (s.g.task t).state ≠ .READY := by
    rw [hz]
    decide
  simp only [code, taskyield, ok_bind, ok_globals, ok_running hc.running]
  rw [ok_taskready hloc hready, ok_taskswitch (s := s.ready t) hc.running]
  · refine ⟨s.g.tasknswitch, hc.next rfl rfl ?_ ?_ (fun u hu => ?_) fun b hb => ?_⟩
    · show (s.ready t).m.q .taskrunqueue = _
      rw [State.ready, push_q (s := s.setTask t fun x => { x with state := .READY }) hloc, update_self, ← hc.queue]
      rfl
    · exact (update_eq_self_iff.mpr hlive.symm).symm
    · simp [State.leave, State.ready, State.push, State.setTask, State.modify, Glob.setTask, Glob.observe, hu]
    · rw [← Option.some.inj hb]
      simp [State.leave, State.ready, State.push, State.setTask, State.modify, Glob.setTask, Glob.observe, hfn]
  · simp [State.ready, State.push, State.setTask, State.modify, Glob.setTask, Glob.observe]

theorem Scene.turn (h : Inv s) (hc : Scene s ph none (t :: ts) k) (ht : k t ≠ none) (hen : Enabled s.g .taskscheduler) :
    Ok (code .taskscheduler) s fun _ s' => Scene s' .loop (some t) ts k := by
  have hlive : s.g.live t = true := by rw [hc.live, Option.isSome_iff_ne_none.mpr ht]
  obtain ⟨i, hi, -⟩ := (h.base.slots.live t).mp hlive
  have hcount := taskcount_le h.base
  obtain ⟨⟨⟩, s', hs, -⟩ := step_places h hen
  refine ⟨(), s', hs, ?_⟩
  cases Libtask.Sched.turn hs with
  | finished h0 _ => omega
  | stalled _ hq _ => exact nomatch hc.queue.symm.trans hq
  | dispatched u us _ hq hd =>
    obtain ⟨rfl, rfl⟩ := List.cons.inj (hc.queue.symm.trans hq)
    refine ⟨hd.phase, hd.running, ?_, fun u => ?_, fun u c hu => ?_, fun u hu => ?_⟩
    · rw [hd.queue, update_self]
    · rw [hd.live, hc.live]
    · rw [hd.pc, hc.pc u c hu]
    · rw [hd.startfn, hc.fn u hu]

/-- `t` is back in the application. -/
theorem Scene.resume (h : Inv s) (hc : Scene s ph (some t) ts k) {c : Pc} (ht : k t = some c) (hb : c = .start ∨ ∃ n, c = .taskyield n) :
    Ok (code (.resume 0 .eintr 0)) s fun _ s' => Scene s' ph (some t) ts (update k t (some .app)) := by
  have hpc := hc.pc t c ht
  have hfn := hc.fn t (by rw [ht]; nofun)
  have hlive : s.g.live t = true := (h.here hc.running).1
  have hback : ∀ s' : St, s'.g.phase = s.g.phase → s'.g.taskrunning = s.g.taskrunning → s'.m = s.m → s'.g.live = s.g.live →
      s'.g.task = s.g.task → Scene (s'.back t) ph (some t) ts (update k t (some .app)) := fun s' hphase hrun hm hl htask => by
    refine hc.next hphase (hrun.trans hc.running) ?_ ?_ (fun u hu => ?_) fun b hb => ?_
    · exact (congrArg (fun m : Places => m.q .taskrunqueue) hm).trans hc.queue
    · exact hl.trans (update_eq_self_iff.mpr hlive.symm).symm
    · simp [State.back, State.setTask, State.modify, Glob.setTask, htask, hu]
    · rw [← Option.some.inj hb]
      simp [State.back, State.setTask, State.modify, Glob.setTask, htask, hfn]
  simp only [code, Libtask.Sched.resume, ok_bind, ok_running hc.running, ok_globals, hpc]
  rcases hb with rfl | ⟨n, rfl⟩
  · simp only [hfn]
    exact ok_setTask.mpr (hback s rfl rfl rfl rfl rfl)
  · simp only [ok_bind, ok_observe]
    exact ok_setTask.mpr (hback (s.obs _) rfl rfl rfl rfl rfl)

theorem Scene.exit (hc : Scene s ph (some t) ts k) : Ok (code .taskexit) s fun _ s' => Scene s' ph none ts (update k t none) := by
  have hx := exits (s := s) t
  exact ok_taskexit hc.running (hc.next hx.phase hx.running hc.queue hx.live (fun u hu => ⟨hx.pc u hu, hx.startfn u hu⟩) nofun)

/-- A step of which the places are known. -/
theorem Run.go {s₀ s : State Glob Heap} {tr : List Step} {p : Places} {e : Ev} {Q : St → Prop} (h : Run s₀ tr s) (hl : Linked s p)
    (hen : Enabled s.g e) (hok : Ok (code e) ⟨s.g, p⟩ fun _ s' => Q s') :
    ∃ s' p', Run s₀ (⟨s.g, e, s'.g⟩ :: tr) s' ∧ Linked s' p' ∧ Q ⟨s'.g, p'⟩ := by
  obtain ⟨s', -, hs, -⟩ := ok_onHeap hok hl.rep
  obtain ⟨p', hp, hl'⟩ := hl.step hen hs
  exact ⟨s', p', .step e h hen hs, hl', hok.result hp⟩

end

/-- Task 1 is alone, in the application. -/
def alone : TaskPtr → Option Pc := update (fun _ => none) 1 (some .app)

/-- Task 1 runs, behind `n` creations. -/
structure Serves (tr : List Step) (s : State Glob Heap) (p : Places) (n : Nat) : Prop where
  run : Run boot tr s
  linked : Linked s p
  scene : Scene ⟨s.g, p⟩ .loop (some 1) [] alone
  created : created tr = n
  born : born tr 1 = 1

theorem serves_first : ∃ tr s p, Serves tr s p 1 := by
  have hr₀ : Run boot [] boot := .refl
  have hc₀ : Scene ⟨boot.g, Places.empty⟩ .main none [] fun _ => none := ⟨rfl, rfl, rfl, fun _ => rfl, nofun, nofun⟩
  have hl₀ := linked_start starts_boot
  obtain ⟨s₁, p₁, hr₁, hl₁, hc₁⟩ := hr₀.go hl₀ (e := .taskcreate 1) ⟨.inl rfl, rfl⟩ (hc₀.create (a := 1) hl₀.inv rfl)
  have hen : Enabled s₁.g .taskscheduler := ⟨.inl hc₁.phase, hc₁.running⟩
  obtain ⟨s₂, p₂, hr₂, hl₂, hc₂⟩ := hr₁.go hl₁ hen (hc₁.turn hl₁.inv nofun hen)
  obtain ⟨s₃, p₃, hr₃, hl₃, hc₃⟩ := hr₂.go hl₂ (e := .resume 0 .eintr 0)
    ⟨hc₂.phase, ⟨1, hc₂.running, by rw [hc₂.pc 1 .start rfl]; nofun⟩, nofun⟩ (hc₂.resume hl₂.inv (c := .start) rfl (.inl rfl))
  refine ⟨_, s₃, p₃, hr₃, hl₃, ?_, rfl, rfl⟩
  rwa [Function.update_idem] at hc₃

/-- Task 2 comes and goes, and task 1 runs again. -/
theorem Serves.again {tr : List Step} {s : State Glob Heap} {p : Places} {n : Nat} (h : Serves tr s p n) :
    ∃ tr' s' p', Serves tr' s' p' (n + 1) := by
  obtain ⟨hr, hl, hc, hcreated, hborn⟩ := h
  obtain ⟨s₁, p₁, hr₁, hl₁, hc₁⟩ := hr.go hl (e := .taskcreate 2)
    ⟨.inr ⟨1, hc.phase, hc.running, hc.pc 1 .app rfl⟩, hc.live 2⟩ (hc.create (a := 2) hl.inv rfl)
  obtain ⟨s₂, p₂, hr₂, hl₂, m, hc₂⟩ := hr₁.go hl₁ (e := .taskyield) ⟨1, hc₁.phase, hc₁.running, hc₁.pc 1 .app rfl⟩
    (hc₁.yield hl₁.inv rfl)
  have hen₂ : Enabled s₂.g .taskscheduler := ⟨.inr hc₂.phase, hc₂.running⟩
  obtain ⟨s₃, p₃, hr₃, hl₃, hc₃⟩ := hr₂.go hl₂ hen₂ (hc₂.turn hl₂.inv nofun hen₂)
  obtain ⟨s₄, p₄, hr₄, hl₄, hc₄⟩ := hr₃.go hl₃ (e := .resume 0 .eintr 0)
    ⟨hc₃.phase, ⟨2, hc₃.running, by rw [hc₃.pc 2 .start rfl]; nofun⟩, nofun⟩ (hc₃.resume hl₃.inv (c := .start) rfl (.inl rfl))
  obtain ⟨s₅, p₅, hr₅, hl₅, hc₅⟩ := hr₄.go hl₄ (e := .taskexit) ⟨2, hc₄.phase, hc₄.running, hc₄.pc 2 .app rfl⟩ hc₄.exit
  have hen₅ : Enabled s₅.g .taskscheduler := ⟨.inr hc₅.phase, hc₅.running⟩
  obtain ⟨s₆, p₆, hr₆, hl₆, hc₆⟩ := hr₅.go hl₅ hen₅ (hc₅.turn hl₅.inv nofun hen₅)
  obtain ⟨s₇, p₇, hr₇, hl₇, hc₇⟩ := hr₆.go hl₆ (e := .resume 0 .eintr 0)
    ⟨hc₆.phase, ⟨1, hc₆.running, by rw [hc₆.pc 1 (.taskyield m) rfl]; nofun⟩, nofun⟩
    (hc₆.resume hl₆.inv (c := .taskyield m) rfl (.inr ⟨m, rfl⟩))
  -- of these steps the first alone creates a task
  refine ⟨_, s₇, p₇, hr₇, hl₇, ?_, congrArg (· + 1) hcreated, hborn⟩
  convert hc₇ using 1
  funext u
  by_cases h1 : u = 1
  · subst h1
    rfl
  · by_cases h2 : u = 2
    · subst h2
      rfl
    · simp [alone, h1, h2]

theorem serves (n : Nat) : ∃ tr s p, Serves tr s p (n + 1) := by
  induction n with
  | zero => exact serves_first
  | succ n ih =>
    obtain ⟨tr, s, p, h⟩ := ih
    exact h.again

/-- Task 1 lives on while 2^32 - 1 others come and go, and then the next has its id. -/
theorem namesakes : ∃ tr s, Run boot tr s ∧ s.g.live 1 = true ∧ s.g.live 2 = true ∧ s.g.taskid 1 = s.g.taskid 2 ∧
    s.g.taskcreated 1 = s.g.taskcreated 2 ∧ ¬ Distinct s.g := by
  obtain ⟨tr, s, p, h⟩ := serves (2 ^ 32 - 1)
  obtain ⟨s', p', hr, hl, hc⟩ := h.run.go h.linked (e := .taskcreate 2)
    ⟨.inr ⟨1, h.scene.phase, h.scene.running, h.scene.pc 1 .app rfl⟩, h.scene.live 2⟩ (h.scene.create (a := 2) h.linked.inv rfl)
  have h1 : s'.g.live 1 = true := hc.live 1
  have h2 : s'.g.live 2 = true := hc.live 2
  have hb1 : born (⟨s.g, .taskcreate 2, s'.g⟩ :: tr) 1 = 1 := h.born
  have hb2 : born (⟨s.g, .taskcreate 2, s'.g⟩ :: tr) 2 = 2 ^ 32 + 1 := congrArg (· + 1) h.created
  have hb : born (⟨s.g, .taskcreate 2, s'.g⟩ :: tr) 1 % 2 ^ 32 = born (⟨s.g, .taskcreate 2, s'.g⟩ :: tr) 2 % 2 ^ 32 := by
    rw [hb1, hb2, Nat.add_mod_left]
  have hid := (taskid_inj starts_boot hr h1 h2).mpr hb
  exact ⟨_, s', hr, h1, h2, hid, (taskcreated_inj starts_boot hr h1 h2).mpr hb,
    fun hd => absurd (hd 1 2 h1 h2 (.inl hid)) (by decide)⟩

end Libtask.Sched
