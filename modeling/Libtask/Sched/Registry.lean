/-
  Libtask.Sched.Registry — the table `alltask`, and the memory of tasks.

  A task is allocated when it is created and freed when it exits: `Step.allocs` is what a step
  does, and the history `allocs` of a run is its steps' (`allocs_step`). `registry`: the table lists
  the tasks that were created and did not exit, each in the slot that it names, and no slot is used
  that `alltask` has no room for, though it is resized, and may shrink, only at multiples of 1024.
  When `taskscheduler` frees what is left, each task has been freed once.
-/

import Libtask.Sched.Ending
import Libtask.Sched.Timers

namespace Libtask.Sched

open Function (update update_self update_of_ne)
open Libtask.Lib

/-! ## One step -/

/-- The task that the step creates: the application's, or the `fdtask` when it is not started. -/
def Step.creates (x : Step) : Option TaskPtr :=
  if x.e.starts && x.g.startedfdtask then none else x.e.malloc

/-- The task that exits in the step: it called `taskexit`, or is the `fdtask` and its callback shut it down. -/
def Step.exits (x : Step) : Option TaskPtr :=
  match x.e with
  | .taskexit => x.g.taskrunning
  | .callback r => if r = -1 then x.g.taskrunning else none
  | _ => none

def Step.allocs (x : Step) : List (Alloc.Call TaskPtr) :=
  x.exits.toList.map .free ++ x.creates.toList.map .malloc

/-- Nothing but `free`. -/
def Frees (s s' : St) : Prop := ∃ after, s'.g.allocs = after ++ s.g.allocs ∧ ∀ c ∈ after, ∃ b, c = .free b

theorem closed_frees : Closed Frees where
  refl s := ⟨[], rfl, nofun⟩
  trans := by
    intro s s' s'' ⟨after, h1, h2⟩ ⟨after', h3, h4⟩
    refine ⟨after' ++ after, by rw [h3, h1, List.append_assoc], fun c hc => ?_⟩
    exact (List.mem_append.mp hc).elim (h4 c) (h2 c)
  modify s f h := ⟨[], h.allocs, nofun⟩
  setTask s t f _ := ⟨[], rfl, nofun⟩
  add s l t _ _ := ⟨[], rfl, nofun⟩
  del s l t _ := ⟨[], rfl, nofun⟩
  free s t := ⟨[.free t], rfl, fun c hc => ⟨t, List.mem_singleton.mp hc⟩⟩

section
variable {s s' : St} {t : TaskPtr} {e : Ev}

/-- The task that a step freed is the one that is gone. -/
theorem Frees.eq (hf : Frees s s') (h : Registry s.g) (h' : Registry s'.g) {o : Option TaskPtr}
    (ho : ∀ t, o = some t ↔ s.g.live t = true ∧ s'.g.live t = false) : s'.g.allocs = o.toList.map .free ++ s.g.allocs := by
  obtain ⟨after, ha, hc⟩ := hf
  obtain ⟨hn, hall⟩ := Alloc.frees (ha ▸ h'.valid) hc
  have hmem : ∀ t, .free t ∈ after ↔ o = some t := fun t => by
    obtain ⟨h1, h2⟩ := hall t
    rw [← ha, h'.allocated, h.allocated] at h2
    rw [h.allocated] at h1
    rw [ho t]
    constructor
    · exact fun hm => ⟨h1 hm, by simpa using fun hl => (h2.mp hl).1 hm⟩
    · intro ⟨hl, hd⟩
      by_contra hm
      exact nomatch hd.symm.trans (h2.mpr ⟨hm, hl⟩)
  rw [ha]
  refine congrArg (· ++ s.g.allocs) ?_
  cases o with
  | none =>
    refine List.eq_nil_iff_forall_not_mem.mpr fun c hm => ?_
    obtain ⟨t, rfl⟩ := hc c hm
    exact nomatch (hmem t).mp hm
  | some t =>
    have hone : ∀ c ∈ after, c = .free t := fun c hm => by
      obtain ⟨u, rfl⟩ := hc c hm
      rw [Option.some.inj ((hmem u).mp hm)]
    refine List.perm_singleton.mp ((List.perm_ext_iff_of_nodup hn (List.nodup_singleton _)).mpr fun c => ?_)
    rw [List.mem_singleton]
    exact ⟨hone c, fun he => he ▸ (hmem t).mpr rfl⟩

/-- A step that creates no task frees the one that exits, and no other. -/
theorem exits_gone (h : Inv s) (hen : Enabled s.g e) (hs : (code e).onPlaces s = .ok ((), s')) (hm : e.malloc = none) (u : TaskPtr) :
    Step.exits ⟨s.g, e, s'.g⟩ = some u ↔ s.g.live u = true ∧ s'.g.live u = false := by
  have hnone : Step.exits ⟨s.g, e, s'.g⟩ = none → s'.g.live = s.g.live →
      (Step.exits ⟨s.g, e, s'.g⟩ = some u ↔ s.g.live u = true ∧ s'.g.live u = false) := fun hx hl => by
    rw [hx, hl]
    exact ⟨nofun, fun ⟨h1, h2⟩ => nomatch h1.symm.trans h2⟩
  cases did h hen hs with
  | turn he hr ht =>
    subst he
    refine hnone rfl ?_
    cases ht with
    | finished h0 he => rw [he]; rfl
    | stalled h0 hq he => rw [he]; rfl
    | dispatched t ts h0 hq hd => exact hd.live
  | exit t he hr hx _ =>
    subst he
    have hex : Step.exits ⟨s.g, .taskexit, s'.g⟩ = some t := hr.2.1
    rw [hex, hx.live]
    by_cases hu : u = t
    · subst hu
      rw [update_self]
      exact ⟨fun _ => ⟨(h.here hr.2.1).1, rfl⟩, fun _ => rfl⟩
    · rw [update_of_ne hu]
      exact ⟨fun he => absurd (Option.some.inj he).symm hu, fun ⟨h1, h2⟩ => nomatch h1.symm.trans h2⟩
  | shutdown t fn g he hr _ hf hx _ _ =>
    subst he
    have hex : Step.exits ⟨s.g, .callback (-1), s'.g⟩ = some t := hr.2.1
    rw [hex, hx.live]
    by_cases hu : u = t
    · subst hu
      rw [update_self]
      exact ⟨fun _ => ⟨(h.here hr.2.1).1, rfl⟩, fun _ => rfl⟩
    · rw [update_of_ne hu]
      exact ⟨fun he => absurd (Option.some.inj he).symm hu, fun ⟨h1, h2⟩ => nomatch (hf.live u h1).symm.trans h2⟩
  | call t hc _ _ hcalm _ _ _ =>
    refine hnone ?_ (hcalm hm).lives
    cases e with
    | taskexit => exact hc.elim
    | callback r => exact if_neg hc
    | _ => rfl

theorem allocs_step (h : Inv s) (hen : Enabled s.g e) (hs : (code e).onPlaces s = .ok ((), s')) (h' : Inv s') :
    s'.g.allocs = Step.allocs ⟨s.g, e, s'.g⟩ ++ s.g.allocs := by
  by_cases hm : e.malloc = none
  · have hf : Frees s s' := across_code closed_frees hm s s' () hs
    have hcreates : Step.creates ⟨s.g, e, s'.g⟩ = none := by
      simp only [Step.creates, hm, ite_self]
    rw [hf.eq h.base.registry h'.base.registry (exits_gone h hen hs hm), Step.allocs, hcreates]
    simp
  · have hbegun : ∀ {a : TaskPtr}, e.starts = true → e.malloc = some a → Step.exits ⟨s.g, e, s'.g⟩ = none →
        s'.g.allocs = s.g.begun a → s'.g.allocs = Step.allocs ⟨s.g, e, s'.g⟩ ++ s.g.allocs := fun hst hm hx hal => by
      rw [hal, Step.allocs, hx, Step.creates, hst, hm, Glob.begun]
      cases s.g.startedfdtask <;> rfl
    cases e with
    | taskcreateraw a =>
      have hs' : s' = s.create .app a :=
        (ok_taskcreateraw (Q := fun _ s' => s' = s.create .app a) ((h.good a).dead hen.2).2.1 rfl).result hs
      rw [hs']
      rfl
    | taskcreate a =>
      obtain ⟨hs', -⟩ := (taskcreate_ok h hen.2 .app).result hs
      rw [hs']
      rfl
    | startfdtask fn arg a =>
      have h₁ : Inv (s.modify fun g => { g with pool_loop_arg := arg, pool_loop_fn := fn }) := inv_modify h fun _ => rfl
      exact hbegun rfl rfl rfl ((startfdtask_begun h₁ (.inr hen.2)).result hs).2.2
    | taskdelay ms now a =>
      obtain ⟨w, hw⟩ := hen.1
      obtain ⟨k, s₁, -, -, b, hb, hal⟩ := delays_eq h hw (.inl ⟨a, rfl⟩) hen hs
      exact hbegun rfl hb rfl hal
    | fdwait now a =>
      obtain ⟨w, hw⟩ := hen.1
      obtain ⟨k, s₁, -, -, b, hb, hal⟩ := delays_eq h hw (.inr ⟨rfl, a, rfl⟩) hen hs
      exact hbegun rfl hb rfl hal
    | _ => exact absurd rfl hm

end

/-! ## The end -/

/-- What `taskscheduler` leaves behind its loop. -/
structure Swept (g g' : Glob) : Prop where
  allocs : g'.allocs = g.tasks.map .free ++ g.allocs
  uses : ∀ x ∈ g'.uses, x ∈ g.uses ∨ x.1 < g.nalltask ∧ x.2 = g.allcap
  nalltask : g'.nalltask = 0

theorem freetasks_ok : ∀ (n : Nat) (s : State Glob Heap), s.g.nalltask = n →
    ∃ s', (freetasks n).onHeap s = .ok ((), s') ∧ Swept s.g s'.g := by
  intro n
  induction n with
  | zero =>
    intro s hn
    refine ⟨s, ?_, ⟨?_, fun x hx => .inl hx, hn⟩⟩
    · show (if 0 < s.g.nalltask then abort "out of fuel" else pure () : Lib Unit).onHeap s = _
      rw [if_neg (by omega)]
      rfl
    · rw [Glob.tasks, hn]
      rfl
  | succ n ih =>
    intro s hn
    have hpos : 0 < s.g.nalltask := by omega
    -- the last task is freed
    obtain ⟨s₁, hs₁⟩ : ∃ s₁ : State Glob Heap, s₁ = ⟨{ s.g with
      nalltask := s.g.nalltask - 1
      uses := (s.g.nalltask - 1, s.g.allcap) :: s.g.uses
      live := update s.g.live (s.g.alltask (s.g.nalltask - 1)) false
      allocs := .free (s.g.alltask (s.g.nalltask - 1)) :: s.g.allocs }, s.m⟩ := ⟨_, rfl⟩
    have hfirst : (freetasks (n + 1)).onHeap s = (freetasks n).onHeap s₁ := by
      show (if 0 < s.g.nalltask then _ else pure () : Lib Unit).onHeap s = _
      rw [if_pos hpos, hs₁]
      rfl
    obtain ⟨s', hs', hw⟩ := ih s₁ (by rw [hs₁]; show s.g.nalltask - 1 = n; omega)
    refine ⟨s', hfirst.trans hs', ⟨?_, fun x hx => ?_, hw.nalltask⟩⟩
    · rw [hw.allocs, hs₁]
      simp only [Glob.tasks, hn, Nat.add_sub_cancel]
      rw [List.range_succ, List.map_append, List.map_append, List.append_assoc]
      rfl
    · rcases hw.uses x hx with hx | hx
      · rw [hs₁] at hx
        rcases List.mem_cons.mp hx with rfl | hx
        · exact .inr ⟨Nat.sub_lt hpos Nat.one_pos, rfl⟩
        · exact .inl hx
      · rw [hs₁] at hx
        have hlt : x.1 < s.g.nalltask - 1 := hx.1
        exact .inr ⟨by omega, hx.2⟩

theorem taskschedulerend_ok (s : State Glob Heap) : ∃ s', taskschedulerend.onHeap s = .ok ((), s') ∧ Swept s.g s'.g := by
  obtain ⟨s', hs, hw⟩ := freetasks_ok s.g.nalltask s rfl
  refine ⟨⟨{ s'.g with allcap := 0 }, s'.m⟩, ?_, ⟨hw.allocs, hw.uses, hw.nalltask⟩⟩
  show (freetasks s.g.nalltask >>= fun _ => modify fun g => { g with allcap := 0 }).onHeap s = _
  rw [onHeap_bind, hs]
  rfl

/-! ## Runs -/

/-- Created, and not exited since; the steps are given newest first. -/
def Present : List Step → TaskPtr → Prop
  | [], _ => False
  | x :: tr, t => x.creates = some t ∨ Present tr t ∧ x.exits ≠ some t

theorem present_iff {t : TaskPtr} : ∀ {tr : List Step}, Present tr t ↔ Alloc.Allocated (tr.flatMap Step.allocs) t := by
  intro tr
  induction tr with
  | nil => exact Iff.rfl
  | cons x tr ih =>
    have hor : x.exits = none ∨ x.creates = none := by
      obtain ⟨g, e, g'⟩ := x
      cases e <;> first | exact .inl rfl | exact .inr rfl
    rw [Present, ih, List.flatMap_cons, Step.allocs]
    rcases hor with hx | hc
    · rw [hx]
      cases x.creates with
      | none => exact ⟨fun h => (h.resolve_left nofun).1, fun h => .inr ⟨h, nofun⟩⟩
      | some a =>
        exact ⟨fun h => h.imp (fun he => (Option.some.inj he).symm) And.left,
          fun h => h.imp (congrArg some ·.symm) fun h => ⟨h, nofun⟩⟩
    · rw [hc]
      cases x.exits with
      | none => exact ⟨fun h => (h.resolve_left nofun).1, fun h => .inr ⟨h, nofun⟩⟩
      | some u =>
        refine ⟨fun h => ?_, fun h => .inr ⟨h.2, fun he => h.1 (Option.some.inj he).symm⟩⟩
        obtain ⟨h1, h2⟩ := h.resolve_left nofun
        exact ⟨fun he => h2 (congrArg some he.symm), h1⟩

/-- The table lists the tasks that were created and did not exit, and its slots are used only where it
    has room. The memory is that of these tasks: what `taskscheduler` frees at its end is the rest,
    and then each task was freed once. -/
theorem registry {s₀ s : State Glob Heap} {tr : List Step} (h₀ : Starts s₀) (h : Run s₀ tr s) :
    (s.g.tasks.Nodup ∧ (∀ t, t ∈ s.g.tasks ↔ Present tr t) ∧
      ∀ t ∈ s.g.tasks, (s.g.task t).alltaskslot < s.g.nalltask ∧ s.g.alltask (s.g.task t).alltaskslot = t) ∧
    (s.g.nalltask ≤ s.g.allcap ∧ ∀ x ∈ s.g.uses, x.1 < x.2) ∧
    (s.g.allocs = tr.flatMap Step.allocs ∧ Alloc.Valid s.g.allocs) ∧
    ∃ s', taskschedulerend.onHeap s = .ok ((), s') ∧ (∀ x ∈ s'.g.uses, x.1 < x.2) ∧
      s'.g.allocs = s.g.tasks.map .free ++ tr.flatMap Step.allocs ∧
      ∀ t, s'.g.allocs.count (.free t) = s'.g.allocs.count (.malloc t) ∧
        ∀ after before, s'.g.allocs = after ++ .malloc t :: before → Alloc.freed t after = 1 := by
  obtain ⟨p, hl, hal⟩ := Run.holds (P := fun tr s => s.g.allocs = tr.flatMap Step.allocs) (C := fun _ => True) (linked_start h₀)
    (by obtain ⟨rendezl, size, junk, mem, -, rfl⟩ := h₀; rfl)
    (fun hi hP hen hs hi' _ => (allocs_step hi hen hs hi').trans (by rw [hP]; rfl)) h fun _ _ => trivial
  have hal : s.g.allocs = tr.flatMap Step.allocs := hal
  have hslots : Slots s.g := hl.inv.base.slots
  have hreg : Registry s.g := hl.inv.base.registry
  have hnd := nodup_tasks hslots
  obtain ⟨s', hs', hw⟩ := taskschedulerend_ok s
  obtain ⟨hv, hleft⟩ := Alloc.free_all hreg.valid hnd fun t ht => (hreg.allocated t).mpr ((mem_tasks hslots).mp ht)
  rw [← hw.allocs] at hv hleft
  have hnone : ∀ t, ¬ Alloc.Allocated s'.g.allocs t := fun t ha => by
    obtain ⟨h1, h2⟩ := (hleft t).mp ha
    exact h1 ((mem_tasks hslots).mpr ((hreg.allocated t).mp h2))
  refine ⟨⟨hnd, fun t => ?_, fun t ht => ?_⟩, ⟨hreg.room, hreg.uses⟩, ⟨hal, hreg.valid⟩, s', hs', fun x hx => ?_, hal ▸ hw.allocs,
    fun t => ⟨((Alloc.count_malloc hv t).2 (hnone t)).symm, fun after before he => ?_⟩⟩
  · rw [mem_tasks hslots, present_iff, ← hal, hreg.allocated]
  · obtain ⟨i, hi, hit⟩ := (hslots.live t).mp ((mem_tasks hslots).mp ht)
    rw [← hit, hslots.slot i hi]
    exact ⟨hi, rfl⟩
  · have hroom := hreg.room
    rcases hw.uses x hx with hx | ⟨h1, h2⟩
    · exact hreg.uses x hx
    · omega
  · have hn := hnone t
    rw [he] at hv hn
    exact (Alloc.freed_once hv).1 (.inr hn)

/-- Task 1 exits and task 2 takes its slot. Nothing readies it, and the scheduler gives up. -/
def leftover : List Ev := [.taskcreate 1, .taskcreateraw 2, .taskscheduler, .resume 0 .eintr 0, .taskexit, .taskscheduler]

theorem registry_leftover : ∃ s s', s.g.phase = .stalled ∧ taskschedulerend.onHeap s = .ok ((), s') ∧
    s'.g.allocs.count (.free 1) = s'.g.allocs.count (.malloc 1) := by
  have h := run_boot leftover (by decide +kernel)
  obtain ⟨-, -, -, s', hs', -, -, hall⟩ := registry starts_boot h
  exact ⟨_, s', by decide +kernel, hs', (hall 1).1⟩

end Libtask.Sched
