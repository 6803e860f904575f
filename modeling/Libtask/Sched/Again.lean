/-
  Libtask.Sched.Again — `taskscheduler` a second time (task.c: `taskcreateraw`, `taskscheduler`).

  A `Thread` has the pointer `alltask` besides: `taskcreateraw` hands it to `realloc`, and
  `taskscheduler` frees it when it returns, but keeps it. So the thread is again as new only if no
  task was created (`reusable_iff`); after any creation the next one reallocates what is freed
  (`create_again`), and after a stall `taskcount` still counts the tasks that are gone
  (`returned`).
-/

import Libtask.Sched.Registry

namespace Libtask.Sched

open Function (update)

/-- What `alltask` points to. -/
inductive Alltask where
  | NULL
  | array
  | freed
  deriving DecidableEq, Repr

def realloc : Alltask → Except String Alltask
  | .NULL => .ok .array
  | .array => .ok .array
  | .freed => .error "realloc of freed memory"

def Alltask.free : Alltask → Except String Alltask
  | .NULL => .ok .NULL
  | .array => .ok .freed
  | .freed => .error "free of freed memory"

/-- A thread that uses the library. -/
structure Thread where
  s : State Glob Heap
  alltask : Alltask

def ThreadStarts (x : Thread) : Prop := Starts x.s ∧ x.alltask = .NULL

/-- A step of the library, in which `taskcreateraw` may resize `alltask`. -/
def Thread.step (x : Thread) (e : Ev) : Except String Thread :=
  match (code e).onHeap x.s with
  | .error why => .error why
  | .ok ((), s) =>
    if (Step.creates ⟨x.s.g, e, s.g⟩).isSome ∧ x.s.g.nalltask % 1024 = 0 then
      match realloc x.alltask with
      | .error why => .error why
      | .ok a => .ok ⟨s, a⟩
    else .ok ⟨s, x.alltask⟩

def Thread.steps (x : Thread) : List Ev → Except String Thread
  | [] => .ok x
  | e :: es =>
    match x.step e with
    | .error why => .error why
    | .ok y => y.steps es

/-- `taskscheduler` behind its loop; the main program goes on. -/
def Thread.returns (x : Thread) : Except String Thread :=
  match taskschedulerend.onHeap x.s with
  | .error why => .error why
  | .ok ((), s) =>
    match x.alltask.free with
    | .error why => .error why
    | .ok a => .ok ⟨{ s with g := { s.g with phase := .main } }, a⟩

inductive ThreadRun (x₀ : Thread) : List Step → Thread → Prop
  | refl : ThreadRun x₀ [] x₀
  | step {tr : List Step} {x x' : Thread} (e : Ev) : ThreadRun x₀ tr x → Enabled x.s.g e → x.step e = .ok x' →
      ThreadRun x₀ (⟨x.s.g, e, x'.s.g⟩ :: tr) x'

/-- `taskscheduler` left its loop. -/
def Thread.Left (x : Thread) : Prop := x.s.g.phase = .finished ∨ x.s.g.phase = .stalled

/-- The two threads do the same. -/
structure Alike (x y : Thread) : Prop where
  phase : x.s.g.phase = y.s.g.phase
  taskrunning : x.s.g.taskrunning = y.s.g.taskrunning
  taskcount : x.s.g.taskcount = y.s.g.taskcount
  nalltask : x.s.g.nalltask = y.s.g.nalltask
  queue : x.s.m.list .taskrunqueue = y.s.m.list .taskrunqueue

/-- What `taskscheduler` should leave, and that all that follows goes as it does in a new thread. -/
structure Reusable (x : Thread) : Prop where
  taskcount : x.s.g.taskcount = 0
  nalltask : x.s.g.nalltask = 0
  queue : (x.s.m.list .taskrunqueue).head = none
  alltask : x.alltask ≠ .freed
  again : ∃ x₀, ThreadStarts x₀ ∧ ∀ es y₀, x₀.steps es = .ok y₀ → ∃ y, x.steps es = .ok y ∧ Alike y y₀

section
variable {x₀ x x' : Thread} {tr : List Step} {e : Ev}

/-! ## One step -/

theorem step_cases (h : x.step e = .ok x') : (code e).onHeap x.s = .ok ((), x'.s) ∧
    if (Step.creates ⟨x.s.g, e, x'.s.g⟩).isSome ∧ x.s.g.nalltask % 1024 = 0 then realloc x.alltask = .ok x'.alltask
    else x'.alltask = x.alltask := by
  unfold Thread.step at h
  split at h
  · cases h
  · rename_i s hs
    split at h
    · rename_i hc
      split at h
      · cases h
      · rename_i a ha
        obtain rfl := Except.ok.inj h
        exact ⟨hs, by rw [if_pos hc]; exact ha⟩
    · rename_i hc
      obtain rfl := Except.ok.inj h
      exact ⟨hs, by rw [if_neg hc]⟩

theorem returns_cases (h : x.returns = .ok x') : ∃ s, taskschedulerend.onHeap x.s = .ok ((), s) ∧ x.alltask.free = .ok x'.alltask ∧
    x'.s = { s with g := { s.g with phase := .main } } := by
  unfold Thread.returns at h
  split at h
  · cases h
  · rename_i s hs
    split at h
    · cases h
    · rename_i a ha
      obtain rfl := Except.ok.inj h
      exact ⟨s, hs, ha, rfl⟩

theorem ThreadRun.run (h : ThreadRun x₀ tr x) : Run x₀.s tr x.s := by
  induction h with
  | refl => exact .refl
  | step e _ hen hs ih => exact .step e ih hen (step_cases hs).1

/-! ## Without a creation -/

/-- The thread is as new, but the scheduler may have found nothing to do. -/
def Idle (x : Thread) : Prop :=
  ∃ rendezl size junk mem ph, Chan.SizesOk size ∧ (ph = .main ∨ ph = .finished) ∧
    x = ⟨⟨{ start rendezl (Chan.start size junk mem) with phase := ph }, ⟨fun _ => none, fun _ => none, fun _ => ⟨none, none⟩⟩⟩, .NULL⟩

theorem idle_starts (h : ThreadStarts x) : Idle x := by
  obtain ⟨s, a⟩ := x
  obtain ⟨⟨rendezl, size, junk, mem, hs, rfl⟩, rfl⟩ := h
  exact ⟨rendezl, size, junk, mem, .main, hs, .inl rfl, rfl⟩

theorem Idle.nalltask (h : Idle x) : x.s.g.nalltask = 0 ∧ x.alltask = .NULL := by
  obtain ⟨rendezl, size, junk, mem, ph, hs, hph, rfl⟩ := h
  exact ⟨rfl, rfl⟩

/-- A step that creates no task leaves an idle thread idle. -/
theorem Idle.step (h : Idle x) (hen : Enabled x.s.g e) (hs : x.step e = .ok x') (hn : Step.creates ⟨x.s.g, e, x'.s.g⟩ = none) :
    Idle x' := by
  obtain ⟨rendezl, size, junk, mem, ph, hsz, hph, rfl⟩ := h
  cases e with
  | taskcreateraw a => cases hn
  | taskcreate a => cases hn
  | startfdtask fn arg a => cases hn
  | taskready t => cases hen.2.1
  | poke a b =>
    obtain rfl := Except.ok.inj hs
    exact ⟨rendezl, size, junk, update mem a b, ph, hsz, hph, rfl⟩
  | taskdelay ms now a => cases hn
  | fdwait now a => cases hn
  | taskscheduler =>
    obtain rfl := Except.ok.inj hs
    exact ⟨rendezl, size, junk, mem, .finished, hsz, .inr rfl, rfl⟩
  | resume now poll now' =>
    obtain ⟨-, ⟨t, ht, -⟩, -⟩ := hen
    cases ht
  | _ =>
    -- the others are made by a task
    obtain ⟨t, ht⟩ := hen
    first
    | cases ht.1.2.1
    | cases ht.2.1

/-- And so does the return of the scheduler. -/
theorem Idle.returns (h : Idle x) (hr : x.returns = .ok x') : ThreadStarts x' := by
  obtain ⟨rendezl, size, junk, mem, ph, hsz, hph, rfl⟩ := h
  obtain rfl := Except.ok.inj hr
  exact ⟨⟨rendezl, size, junk, mem, hsz, rfl⟩, rfl⟩

/-! ## Runs -/

theorem ThreadRun.idle (h₀ : ThreadStarts x₀) (h : ThreadRun x₀ tr x) (hn : ∀ y ∈ tr, y.creates = none) : Idle x := by
  induction h with
  | refl => exact idle_starts h₀
  | step e _ hen hs ih =>
    exact (ih fun y hy => hn y (List.mem_cons_of_mem _ hy)).step hen hs (hn _ List.mem_cons_self)

/-- A run of the library is one of a thread: until the scheduler returns, `alltask` can be resized. -/
theorem Run.thread {s₀ s : State Glob Heap} (h : Run s₀ tr s) : ∃ a, a ≠ .freed ∧ ThreadRun ⟨s₀, .NULL⟩ tr ⟨s, a⟩ := by
  induction h with
  | refl => exact ⟨.NULL, nofun, .refl⟩
  | @step tr s s' e _ hen hs ih =>
    obtain ⟨a, ha, hr⟩ := ih
    have hgo : (⟨s, a⟩ : Thread).step e =
        if (Step.creates ⟨s.g, e, s'.g⟩).isSome ∧ s.g.nalltask % 1024 = 0 then .ok ⟨s', .array⟩ else .ok ⟨s', a⟩ := by
      rw [Thread.step, hs]
      cases a <;> first | rfl | exact absurd rfl ha
    split at hgo
    · exact ⟨.array, nofun, .step e hr hen hgo⟩
    · exact ⟨a, ha, .step e hr hen hgo⟩

/-- Once a task was created, `alltask` is allocated until the scheduler returns. -/
theorem ThreadRun.array (h₀ : ThreadStarts x₀) (h : ThreadRun x₀ tr x) (hc : ¬ ∀ y ∈ tr, y.creates = none) : x.alltask = .array := by
  induction h with
  | refl => exact (hc fun y hy => absurd hy List.not_mem_nil).elim
  | @step tr y y' e hrun hen hs ih =>
    obtain ⟨-, ha⟩ := step_cases hs
    by_cases hbefore : ∀ z ∈ tr, z.creates = none
    · -- the first of all
      obtain ⟨hzero, hnull⟩ := (hrun.idle h₀ hbefore).nalltask
      have hcreates : (Step.creates ⟨y.s.g, e, y'.s.g⟩).isSome := by
        rw [Option.isSome_iff_ne_none]
        intro hnone
        exact hc fun z hz => (List.mem_cons.mp hz).elim (fun he => he ▸ hnone) (hbefore z)
      rw [if_pos ⟨hcreates, by rw [hzero]⟩, hnull] at ha
      exact (Except.ok.inj ha).symm
    · rw [ih hbefore] at ha
      split at ha
      · exact (Except.ok.inj ha).symm
      · exact ha

/-- The scheduler can be used again if no task was created. -/
theorem reusable_iff (h₀ : ThreadStarts x₀) (h : ThreadRun x₀ tr x) (hret : x.returns = .ok x') :
    Reusable x' ↔ ∀ y ∈ tr, y.creates = none := by
  constructor
  · intro hr
    by_contra hc
    obtain ⟨s, -, hfree, -⟩ := returns_cases hret
    rw [h.array h₀ hc] at hfree
    exact hr.alltask (Except.ok.inj hfree).symm
  · intro hn
    obtain ⟨⟨rendezl, size, junk, mem, hsz, hs⟩, ha⟩ := (h.idle h₀ hn).returns hret
    refine ⟨by rw [hs]; rfl, by rw [hs]; rfl, by rw [hs], by rw [ha]; nofun, x', ⟨⟨rendezl, size, junk, mem, hsz, hs⟩, ha⟩, ?_⟩
    exact fun es y hy => ⟨y, hy, rfl, rfl, rfl, rfl, rfl⟩

/-- Without tasks the scheduler can be called again and again. -/
theorem reusable_iff_idle : ∃ x x', ThreadRun ⟨boot, .NULL⟩ [⟨boot.g, .taskscheduler, x.s.g⟩] x ∧ x.returns = .ok x' ∧ Reusable x' := by
  have h : ThreadRun ⟨boot, .NULL⟩ [⟨boot.g, .taskscheduler, (boot.next .taskscheduler).g⟩] ⟨boot.next .taskscheduler, .NULL⟩ :=
    @ThreadRun.step _ [] ⟨boot, .NULL⟩ ⟨boot.next .taskscheduler, .NULL⟩ .taskscheduler .refl ⟨.inl rfl, rfl⟩ rfl
  obtain ⟨x', hret⟩ : ∃ x', Thread.returns ⟨boot.next .taskscheduler, .NULL⟩ = .ok x' := ⟨_, rfl⟩
  exact ⟨_, x', h, hret, (reusable_iff ⟨starts_boot, rfl⟩ h hret).mpr fun y hy => by rw [List.mem_singleton.mp hy]; rfl⟩

/-! ## What is left -/

theorem taskcreateraw_onHeap (fn : StartFn) (a : TaskPtr) (s : State Glob Heap) : ∃ s', (taskcreateraw fn a).onHeap s = .ok ((), s') :=
  ⟨_, rfl⟩

theorem taskcreate_onHeap (fn : StartFn) (a : TaskPtr) (s : State Glob Heap) : ∃ s', (taskcreate fn a).onHeap s = .ok ((), s') := by
  obtain ⟨s', hs⟩ := taskcreateraw_onHeap fn a s
  rw [taskcreate, onHeap_bind, hs]
  exact taskready_onHeap a s'

theorem step_freed (ha : x.alltask = .freed) (hn : x.s.g.nalltask = 0) (hs : ∃ s', (code e).onHeap x.s = .ok ((), s'))
    (hc : ∀ g, (Step.creates ⟨x.s.g, e, g⟩).isSome) : x.step e = .error "realloc of freed memory" := by
  obtain ⟨s', hs⟩ := hs
  have hzero : x.s.g.nalltask % 1024 = 0 := by rw [hn]
  simp only [Thread.step, hs, if_pos (And.intro (hc s'.g) hzero), ha]
  rfl

/-- The next creation uses the array that `taskscheduler` freed. -/
theorem create_again (ha : x.alltask = .freed) (hn : x.s.g.nalltask = 0) (a : TaskPtr) :
    x.step (.taskcreateraw a) = .error "realloc of freed memory" ∧ x.step (.taskcreate a) = .error "realloc of freed memory" := by
  constructor
  · exact step_freed ha hn (taskcreateraw_onHeap .app a x.s) fun _ => rfl
  · exact step_freed ha hn (taskcreate_onHeap .app a x.s) fun _ => rfl

/-- The loop that frees the tasks touches nothing else. -/
theorem freetasks_keeps : ∀ (n : Nat) {s s' : State Glob Heap}, (freetasks n).onHeap s = .ok ((), s') →
    s'.m = s.m ∧ s'.g.taskcount = s.g.taskcount := by
  intro n
  induction n with
  | zero =>
    intro s s' hs
    change (if 0 < s.g.nalltask then abort "out of fuel" else pure () : Lib Unit).onHeap s = _ at hs
    split at hs
    · cases hs
    · obtain ⟨-, rfl⟩ := Prod.mk.inj (Except.ok.inj hs)
      exact ⟨rfl, rfl⟩
  | succ n ih =>
    intro s s' hs
    change (if 0 < s.g.nalltask then _ else pure () : Lib Unit).onHeap s = _ at hs
    split at hs
    · exact ih (s := ⟨{ s.g with
        nalltask := s.g.nalltask - 1
        uses := (s.g.nalltask - 1, s.g.allcap) :: s.g.uses
        live := update s.g.live (s.g.alltask (s.g.nalltask - 1)) false
        allocs := .free (s.g.alltask (s.g.nalltask - 1)) :: s.g.allocs }, s.m⟩) hs
    · obtain ⟨-, rfl⟩ := Prod.mk.inj (Except.ok.inj hs)
      exact ⟨rfl, rfl⟩

theorem taskschedulerend_keeps {s s' : State Glob Heap} (hs : taskschedulerend.onHeap s = .ok ((), s')) :
    s'.m = s.m ∧ s'.g.taskcount = s.g.taskcount := by
  change (freetasks s.g.nalltask >>= fun _ => modify fun g => { g with allcap := 0 }).onHeap s = _ at hs
  obtain ⟨⟨⟩, s₁, h₁, hs⟩ := onHeap_parts hs
  obtain ⟨-, rfl⟩ := Prod.mk.inj (Except.ok.inj hs)
  have hkeeps := freetasks_keeps _ h₁
  exact hkeeps

/-- The loop of `taskscheduler` is left with the run queue empty. -/
structure Over (s : St) : Prop where
  queue : s.m.q .taskrunqueue = []
  taskcount : s.g.phase = .finished ↔ s.g.taskcount = 0

theorem over_step {s s' : St} (hi : Inv s) (hen : Enabled s.g e) (hs : (code e).onPlaces s = .ok ((), s'))
    (hl : s'.g.phase = .finished ∨ s'.g.phase = .stalled) : Over s' := by
  have hph := enabled_phase hen
  -- no other step gets there
  have hno : ∀ {g : Glob}, g.phase = s.g.phase ∨ g.phase = .exited → s'.g.phase = g.phase → False := fun hg he => by
    rw [he] at hl
    rcases hg with hg | hg
    · rw [hg] at hl
      rcases hph with hph | hph <;> rw [hph] at hl <;> exact hl.elim nofun nofun
    · rw [hg] at hl
      exact hl.elim nofun nofun
  cases did hi hen hs with
  | turn _ _ ht =>
    cases ht with
    | finished h0 he =>
      subst he
      refine ⟨lists_nil hi ?_ _, fun _ => h0, fun _ => rfl⟩
      have hle := taskcount_le hi.base
      omega
    | stalled h0 hq he =>
      subst he
      exact ⟨hq, nofun, fun h => absurd h h0⟩
    | dispatched t ts _ _ hd =>
      rw [hd.phase] at hl
      exact hl.elim nofun nofun
  | exit t _ _ hx _ => exact (hno (g := s.g) (.inl rfl) hx.phase).elim
  | shutdown t fn g _ _ _ hf hx _ _ => exact (hno hf.phase hx.phase).elim
  | call t _ _ hf _ _ _ _ =>
    obtain ⟨arg, v, hb⟩ := before_eq e s.g
    rw [hb] at hf
    exact (hno hf.phase rfl).elim

theorem over_run {s₀ s : State Glob Heap} (h₀ : Starts s₀) (h : Run s₀ tr s) (hl : s.g.phase = .finished ∨ s.g.phase = .stalled) :
    (s.m.list .taskrunqueue).head = none ∧ (s.g.phase = .finished ↔ s.g.taskcount = 0) := by
  obtain ⟨p, hlinked, hover⟩ := Run.holds (P := fun _ s => s.g.phase = .finished ∨ s.g.phase = .stalled → Over s)
    (C := fun _ => True) (linked_start h₀)
    (by obtain ⟨rendezl, size, junk, mem, -, rfl⟩ := h₀; exact fun hl => hl.elim nofun nofun)
    (fun hi _ hen hs _ _ => over_step hi hen hs) h fun _ _ => trivial
  obtain ⟨hq, hc⟩ := hover hl
  have hhead := (hlinked.rep .taskrunqueue).head
  rw [hq] at hhead
  exact ⟨hhead, hc⟩

/-- What every return of the scheduler leaves: `taskcount` is 0 if it did not stall, and `alltask` is freed if there was
    a creation. -/
theorem returned (h₀ : ThreadStarts x₀) (h : ThreadRun x₀ tr x) (hl : x.Left) :
    ∃ x', x.returns = .ok x' ∧ x'.s.g.nalltask = 0 ∧ (x'.s.m.list .taskrunqueue).head = none ∧
      (x'.s.g.taskcount = 0 ↔ x.s.g.phase = .finished) ∧
      (x'.alltask = if ∀ y ∈ tr, y.creates = none then .NULL else .freed) := by
  obtain ⟨s, hs, hw⟩ := taskschedulerend_ok x.s
  obtain ⟨hm, hcount⟩ := taskschedulerend_keeps hs
  obtain ⟨hq, hfin⟩ := over_run h₀.1 h.run hl
  have hgo : ∀ a, x.alltask.free = .ok a → x.returns = .ok ⟨{ s with g := { s.g with phase := .main } }, a⟩ := fun a ha => by
    rw [Thread.returns, hs]
    show (match x.alltask.free with | .error why => _ | .ok a => _ : Except String Thread) = _
    rw [ha]
  have hrest : s.g.nalltask = 0 ∧ (s.m.list .taskrunqueue).head = none ∧ (s.g.taskcount = 0 ↔ x.s.g.phase = .finished) :=
    ⟨hw.nalltask, by rw [hm]; exact hq, by rw [hcount]; exact hfin.symm⟩
  obtain ⟨h1, h2, h3⟩ := hrest
  split
  · rename_i hn
    exact ⟨_, hgo .NULL (by rw [(h.idle h₀ hn).nalltask.2]; rfl), h1, h2, h3, rfl⟩
  · rename_i hc
    exact ⟨_, hgo .freed (by rw [h.array h₀ hc]; rfl), h1, h2, h3, rfl⟩

end

/-- Task 1 exits, and the scheduler returns; or task 2 is left behind. -/
theorem never_again : (∃ tr x x', ThreadRun ⟨boot, .NULL⟩ tr x ∧ x.s.g.phase = .finished ∧ x.returns = .ok x' ∧ ¬ Reusable x' ∧
      x'.alltask = .freed ∧ x'.step (.taskcreate 1) = .error "realloc of freed memory") ∧
    ∃ tr x x', ThreadRun ⟨boot, .NULL⟩ tr x ∧ x.s.g.phase = .stalled ∧ x.returns = .ok x' ∧ ¬ Reusable x' ∧
      x'.alltask = .freed ∧ x'.s.g.taskcount ≠ 0 := by
  have hcreates : ∀ es : List Ev, (∃ y ∈ boot.steps es [], y.creates.isSome) → ¬ ∀ y ∈ boot.steps es [], y.creates = none :=
    fun es ⟨y, hy, hc⟩ hn => by rw [hn y hy] at hc; cases hc
  constructor
  · obtain ⟨a, -, h⟩ := (run_boot (exited ++ [.taskscheduler]) (by decide +kernel)).thread
    have hph : ((exited ++ [Ev.taskscheduler]).foldl State.next boot).g.phase = .finished := by decide +kernel
    obtain ⟨x', hret, hn, -, -, ha⟩ := returned ⟨starts_boot, rfl⟩ h (.inl hph)
    rw [if_neg (hcreates _ (by decide +kernel))] at ha
    exact ⟨_, _, x', h, hph, hret, fun hr => hr.alltask ha, ha, (create_again ha hn 1).2⟩
  · obtain ⟨a, -, h⟩ := (run_boot leftover (by decide +kernel)).thread
    have hph : (leftover.foldl State.next boot).g.phase = .stalled := by decide +kernel
    obtain ⟨x', hret, hn, -, hc, ha⟩ := returned ⟨starts_boot, rfl⟩ h (.inr hph)
    rw [if_neg (hcreates _ (by decide +kernel))] at ha
    refine ⟨_, _, x', h, hph, hret, fun hr => hr.alltask ha, ha, fun h0 => ?_⟩
    exact nomatch hph.symm.trans (hc.mp h0)

end Libtask.Sched
