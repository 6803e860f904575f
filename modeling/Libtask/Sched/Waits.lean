/-
  Libtask.Sched.Waits — whose registrations there are.

  `Waits` is what every run keeps: the locals of `fdwait` are those of the tasks in it, and say
  what each registered. For the two results below a run must also keep its wake-ups in order:
  - `events_name_sleepers`: as long as each `fdwait` that ends still finds its descriptor, and
    so its registration, `epoll_wait` names sleeping tasks only, in their `fdwait`, each once.
  - `unregisters_itself`: as long as no `fdwait` that ends finds another file or another instance
    in its place, its `EPOLL_CTL_DEL` is for its own registration, and a task that sleeps in
    `fdwait` on an open file is registered.

  `closed_while_waiting` and `reopened_while_waiting` are runs in which a descriptor is closed
  while a task waits on it: an event for a freed task, and a sleeping task that no event wakes.
-/

import Libtask.Sched.Epoll

namespace Libtask.Sched

open Function (update update_self update_of_ne)
open Libtask.Lib Libtask.Lib.Dll
open Libtask.Lib.Epoll

/-! ## The calls of the kernel -/

section
variable {k k' : Kernel TaskPtr} {epfd fd x : Nat} {t : TaskPtr} {d : Option Nat} {fail : Bool} {w : Wait} {r : Reg TaskPtr}

/-- What the first half of `fdwait` does. -/
structure Added (k k' : Kernel TaskPtr) (epfd : Nat) (t : TaskPtr) (fd : Nat) (fail : Bool) (w : Wait) : Prop where
  wf : Wf k → Wf k'
  regs : ∀ r, r ∈ k'.regs ↔ r ∈ k.regs ∨ w.reg = some r
  opens : ∀ x, k'.Open x ↔ k.Open x
  descs : k'.descs = k.descs
  reg : ∀ r, w.reg = some r → r.inst = epfd ∧ r.num = w.fd ∧ r.data = t ∧ w.desc = some r.desc
  done : (k.names fd ≠ none → fail = false) → w.desc ≠ none → w.reg ≠ none

theorem added_nothing {b : Bool} (h : fail = false → k.names fd = none) : Added k k epfd t fd fail ⟨fd, b, none, k.names fd⟩ :=
  ⟨id, fun _ => ⟨.inl, fun h => h.resolve_right nofun⟩, fun _ => Iff.rfl, rfl, nofun, fun hf hn => absurd (h (hf hn)) hn⟩

theorem added_reg {k₁ : Kernel TaskPtr} {n : Nat} {b : Bool} (hwf : Wf k → Wf k₁) (hregs : k₁.regs = k.regs)
    (hopen : ∀ x, k₁.Open x ↔ k.Open x) (hdescs : k₁.descs = k.descs) (hn : k₁.names n = k.names fd)
    (h : k₁.add epfd n t = .ok (k', r)) : Added k k' epfd t fd fail ⟨n, b, some r, k.names fd⟩ := by
  obtain ⟨h1, h2, h3, h4, h5, -⟩ := add_ok h
  subst h5
  refine ⟨fun hk => wf_add (hwf hk) h, fun r' => ?_, hopen, hdescs, fun r' hr' => ?_, fun _ _ => nofun⟩
  · show r' ∈ r :: k₁.regs ↔ _
    rw [List.mem_cons, hregs, Option.some.injEq]
    exact ⟨fun h => h.elim (fun he => .inr he.symm) .inl, fun h => h.elim .inr fun he => .inl he.symm⟩
  · obtain rfl := Option.some.inj hr'
    exact ⟨h2, h3, h4, hn.symm.trans h1⟩

theorem fdwaitadd_spec (hd : ∀ n, d = some n → k.names n = none) (h : fdwaitadd k epfd t fd d fail = some (k', w)) :
    Added k k' epfd t fd fail w := by
  unfold fdwaitadd at h
  split at h
  · rename_i hfail
    cases h
    exact added_nothing fun hf => nomatch hf.symm.trans hfail
  · split at h
    · rename_i r hadd
      cases h
      exact added_reg id rfl (fun _ => Iff.rfl) rfl rfl hadd
    · rename_i hadd
      cases h
      exact added_nothing fun _ => (add_error hadd).elim (fun he => he.1) nofun
    · split at h
      · cases h
      · rename_i n
        have hn := hd n rfl
        split at h
        · rename_i r hadd
          cases h
          refine added_reg (fun hk => wf_dup hk hn) dup_regs (fun _ => open_dup hn) dup_descs ?_ hadd
          rw [names_dup hn, if_pos rfl]
        · cases h

/-- What opening and closing descriptors does: a registration goes with the last of its file. -/
structure Files (k k' : Kernel TaskPtr) : Prop where
  wf : Wf k'
  descs : k.descs ≤ k'.descs
  opens : ∀ x, x < k.descs → k'.Open x → k.Open x
  regs : ∀ r, r ∈ k'.regs ↔ r ∈ k.regs ∧ k'.Open r.desc

theorem files_openfd (h : Wf k) (hfd : k.names fd = none) : Files k (k.openfd fd) :=
  ⟨wf_openfd h hfd, Nat.le_succ _, fun _ hx ho => ((open_openfd hfd).mp ho).resolve_right (Nat.ne_of_lt hx),
    fun r => ⟨fun hr => ⟨hr, (wf_openfd h hfd).alive r hr⟩, fun hr => hr.1⟩⟩

theorem files_dup {n : Nat} (h : Wf k) (hn : k.names n = none) : Files k (k.dup fd n) := by
  refine ⟨wf_dup h hn, Nat.le_of_eq dup_descs.symm, fun _ _ ho => (open_dup hn).mp ho, fun r => ?_⟩
  rw [dup_regs]
  exact ⟨fun hr => ⟨hr, (open_dup hn).mpr (h.alive r hr)⟩, fun hr => hr.1⟩

theorem files_close (h : Wf k) : Files k (k.close fd) :=
  ⟨wf_close h, Nat.le_refl _, fun _ _ ho => open_close ho, fun _ => mem_close⟩

/-- What the second half does: `EPOLL_CTL_DEL`, and `close` if there was a `dup`. -/
theorem fdwaitdel_spec (h : Wf k) (w : Wait) : Files (k.del epfd w.fd) (fdwaitdel k epfd w) := by
  have hwf : Wf (k.del epfd w.fd) := wf_del h
  unfold fdwaitdel
  split
  · exact files_close hwf
  · exact ⟨hwf, Nat.le_refl _, fun _ _ ho => ho, fun r => ⟨fun hr => ⟨hr, hwf.alive r hr⟩, fun hr => hr.1⟩⟩

end

/-! ## Who is in `fdwait` -/

def InFdwait (g : Glob) (t : TaskPtr) : Prop := g.live t = true ∧ ∃ n, (g.task t).pc = .fdwait n

section
variable {s s' : St} {t a : TaskPtr} {e : Ev} {g : Glob}

/-- `m` keeps `t` the running task, or nobody runs. -/
theorem all_at {α β : Type} {m : Lib α} {f : α → Lib β} {Q : β → Glob → Prop} (h : m.All (fun _ g' => At t g') g)
    (hf : ∀ b g', At t g' → (f b).All Q g') : (m >>= f).All Q g := by
  rw [all_bind]
  exact all_mono (fun b g' hat => hf b g' hat) h

theorem all_taskdelay_pc {ms now : Nat} {pc : Pc} (hg : At t g) (ha : g.startedfdtask = true ∨ g.live a = false ∧ a ≠ t) :
    (taskdelay ms now a pc).All (fun _ g' => (g'.task t).pc = pc) g := by
  have hkeeps : ∀ {α : Type} {m : Lib α}, Keeps t (fun _ => True) m → ∀ g₁, At t g₁ → m.All (fun _ g' => At t g') g₁ :=
    fun hm g₁ hat => all_mono (fun _ _ hf => hf.1.at hat) (hm g₁ hat)
  refine all_at (all_mono (fun _ _ hf => hf.1.at hg) (all_startfdtask ha fun _ => True)) fun _ g₁ h₁ => ?_
  refine all_at (hkeeps (keeps_observe (o := .nsec now) nofun) g₁ h₁) fun _ g₂ h₂ => all_running h₂ fun _ => all_globals ?_
  refine all_at (hkeeps (keeps_insert _ _ _ _) g₂ h₂) fun _ g₃ h₃ => ?_
  refine all_at (hkeeps (keeps_observe (o := .add .sleeping t) nofun) g₃ h₃) fun _ g₄ h₄ => ?_
  have hset : Keeps t (fun _ => True) (setTask t fun x => { x with alarmtime := u64 (now + ms * 1000000) }) :=
    keeps_setTask (fun _ => rfl) (fun _ => .inl rfl) (.inr fun _ => rfl) (fun _ => rfl) (fun _ _ => rfl) fun _ => .inl rfl
  refine all_at (hkeeps hset g₄ h₄) fun _ g₅ h₅ => all_at ?_ fun _ g₆ h₆ => all_taskswitch_pc h₆
  exact h₅

theorem all_fdwait_pc {now : Nat} (hg : At t g) (ha : g.live a = false ∧ a ≠ t) :
    (fdwait now a).All (fun _ g' => (g'.task t).pc = .fdwait now) g := by
  rw [fdwait, all_bind]
  exact all_mono (fun _ g₁ h₁ => all_taskdelay_pc (h₁.1.at hg) (.inl h₁.2)) (all_startfdtask (.inr ha) fun _ => True)

/-- `t` neither comes to `fdwait` nor leaves it. In it, it does not fall asleep again. -/
structure Remains (g g' : Glob) (t : TaskPtr) : Prop where
  inside : InFdwait g' t ↔ InFdwait g t
  asleep : InFdwait g t → Asleep g' t → Asleep g t

/-- Nobody but the running task comes or goes. -/
theorem remains_other (h : Did s e s') (ht : s.g.taskrunning ≠ some t) : Remains s.g s'.g t := by
  refine ⟨⟨fun hw => ?_, fun hw => ?_⟩, fun _ => h.asleep ht⟩
  · obtain ⟨hl, n, hn⟩ := hw
    rcases h.other ht hl with ⟨hl', hpc⟩ | ⟨-, hpc⟩
    · exact ⟨hl', n, hpc ▸ hn⟩
    · exact nomatch hpc.symm.trans hn
  · obtain ⟨hl, n, hn⟩ := hw
    obtain ⟨hl', hpc⟩ := h.same ht hl
    exact ⟨hl', n, hpc.trans hn⟩

/-- A step made outside of `fdwait` that does not call it leads nowhere into it. -/
theorem remains (h : Did s e s') (hf : ∀ now a, e ≠ .fdwait now a)
    (hout : ∀ u n, s.g.taskrunning = some u → (s.g.task u).pc ≠ .fdwait n) (t : TaskPtr) : Remains s.g s'.g t := by
  by_cases hr : s.g.taskrunning = some t
  · have hno : ¬ InFdwait s.g t := fun hw => hw.2.elim fun n hn => hout t n hr hn
    refine ⟨iff_of_false (fun hw => ?_) hno, fun hw => absurd hw hno⟩
    obtain ⟨hl, n, hn⟩ := hw
    cases h with
    | turn _ hr' _ => exact nomatch hr'.symm.trans hr
    | exit u _ hu hx _ =>
      obtain rfl : t = u := Option.some.inj (hr.symm.trans hu.2.1)
      rw [hx.live, update_self] at hl
      cases hl
    | shutdown u fn g _ hu _ _ hx _ _ =>
      obtain rfl : t = u := Option.some.inj (hr.symm.trans hu.2.1)
      rw [hx.live, update_self] at hl
      cases hl
    | call u _ hu _ _ _ hgoes _ =>
      obtain rfl : t = u := Option.some.inj (hr.symm.trans (hu.resolve_right fun hd => nomatch hd.1.symm.trans hr))
      rw [hn] at hgoes
      have hstops := hgoes.resolve_left fun hk => hout t n hr hk.symm
      cases e with
      | fdwait now a => exact hf now a rfl
      | resume now poll now' => rcases hstops with hk | ⟨l, r, hk⟩ | ⟨v, m, hk⟩ <;> cases hk
      | taskyield => exact hstops.elim nofun
      | callback r => exact hstops.elim fun v hv => hv.elim nofun
      | _ => cases hstops
  · exact remains_other h hr

theorem Plain.outside (h : Plain g e) (hm : g.phase = .main → g.taskrunning = none) (hen : Enabled g e) (u : TaskPtr) (n : Nat)
    (hr : g.taskrunning = some u) : (g.task u).pc ≠ .fdwait n := by
  intro hk
  obtain ⟨now, poll, now', rfl⟩ := resumes hm hr (by rw [hk]; nofun) hen
  exact h.2 u n hr hk

theorem inFdwait_fdwait {now : Nat} (hi : Inv s) (hr : s.g.taskrunning = some t) (hen : Enabled s.g (.fdwait now a))
    (hs : (code (.fdwait now a)).onPlaces s = .ok ((), s')) : InFdwait s'.g t := by
  have hdead : s.g.live a = false := hen.2
  have ha : a ≠ t := by
    rintro rfl
    exact nomatch (hi.here hr).1.symm.trans hdead
  have hpc : (s'.g.task t).pc = .fdwait now :=
    all_onPlaces (Q := fun _ g' => (g'.task t).pc = .fdwait now) hs (all_fdwait_pc (at_running hi hr) ⟨hen.2, ha⟩)
  refine ⟨?_, now, hpc⟩
  cases did hi hen hs with
  | call u _ hu hf _ _ _ _ =>
    obtain rfl : t = u := Option.some.inj (hr.symm.trans (hu.resolve_right fun hd => nomatch hr.symm.trans hd.1))
    exact hf.live t (hi.here hr).1
  | turn he _ _ => cases he
  | exit u he _ _ _ => cases he
  | shutdown u fn g he _ _ _ _ _ _ => cases he

theorem inFdwait_return {n now now' : Nat} {poll : Poll} (hi : Inv s) (hr : s.g.taskrunning = some t)
    (hn : (s.g.task t).pc = .fdwait n) (hs : (code (.resume now poll now')).onPlaces s = .ok ((), s')) : ¬ InFdwait s'.g t := by
  have hpc : (s'.g.task t).pc = .app := all_onPlaces (Q := fun _ g' => (g'.task t).pc = .app) hs
    (wakes_resume (at_running hi hr) (by rw [hn]; rfl) now poll now')
  intro hw
  obtain ⟨-, m, hm⟩ := hw
  exact nomatch hpc.symm.trans hm

end

/-! ## One step of the system -/

/-- What a step does to the kernel, the locals of the `fdwait`s, and `epfd`. -/
inductive SysDid (x : Sys) (e : SysEv) (x' : Sys) : Prop
  | others : x'.k = x.k → x'.wait = x.wait → (∀ t, Remains x.s.g x'.s.g t) →
      (x'.epfd = x.epfd ∨ x'.epfd = x.epfd + 1 ∧ x.s.g.startedfdtask = false) → SysDid x e x'
  | waits {fd now : Nat} {a : TaskPtr} {d : Option Nat} {fail : Bool} (t : TaskPtr) (w : Wait) : e = .fdwait fd now a d fail →
      x.s.g.taskrunning = some t → ¬ InFdwait x.s.g t → Added x.k x'.k x'.epfd t fd fail w → x'.wait = update x.wait t (some w) →
      InFdwait x'.s.g t → (∀ u, u ≠ t → Remains x.s.g x'.s.g u) →
      (x'.epfd = x.epfd ∨ x'.epfd = x.epfd + 1 ∧ x.s.g.startedfdtask = false) → SysDid x e x'
  | returns {now : Nat} (t : TaskPtr) (w : Wait) : e = .fdwaitreturn now → x.s.g.taskrunning = some t → x.wait t = some w →
      Files (x.k.del x.epfd w.fd) x'.k → x'.wait = update x.wait t none → ¬ InFdwait x'.s.g t →
      (∀ u, u ≠ t → Remains x.s.g x'.s.g u) → x'.epfd = x.epfd → SysDid x e x'
  | files : Files x.k x'.k → x'.wait = x.wait → x'.s = x.s → x'.epfd = x.epfd → SysDid x e x'

section
variable {x x' : Sys} {e : SysEv} {s' : State Glob Heap} {p p' : Places} {t : TaskPtr}

theorem created_eq (x : Sys) (b : Bool) : x.created b = x.epfd ∨ x.created b = x.epfd + 1 ∧ x.s.g.startedfdtask = false := by
  unfold Sys.created
  split
  · rename_i hb
    exact .inr ⟨rfl, by simpa using (Bool.and_eq_true_iff.mp hb).2⟩
  · exact .inl rfl

theorem sys_did (hl : Linked x.s p) (hm : x.s.g.phase = .main → x.s.g.taskrunning = none) (hwf : Wf x.k) (hc : x.Can e)
    (ho : OnPlaces x p e x' p') (ha : x.after s' e = some x') : SysDid x e x' := by
  have hi := hl.inv
  cases e with
  | lib ev =>
    obtain ⟨ev', he, hen, hr⟩ := ho.resolve_right fun h => by cases h.1
    obtain rfl := Option.some.inj he
    cases ha
    refine .others rfl rfl (remains (did hi hen hr) ?_ (hc.1.outside hm hen)) (created_eq x _)
    rintro now a rfl
    exact hc.1
  | epoll_wait now rs now' =>
    obtain ⟨ev', he, hen, hr⟩ := ho.resolve_right fun h => by cases h.1
    obtain rfl := Option.some.inj he
    cases ha
    obtain ⟨-, t, v, n, hrun, hpc, -⟩ := hc.1
    refine .others rfl rfl (remains (did hi hen hr) (by simp) fun u m hu => ?_) (.inl rfl)
    obtain rfl : t = u := Option.some.inj (hrun.symm.trans hu)
    rw [hpc]
    simp
  | fdwait fd now a d fail =>
    obtain ⟨ev', he, hen, hr⟩ := ho.resolve_right fun h => by cases h.1
    obtain rfl := Option.some.inj he
    obtain ⟨t, ht⟩ := hen.1
    simp only [Sys.after, ht.2.1] at ha
    split at ha
    · rename_i k w hadd
      cases ha
      have hout : ¬ InFdwait x.s.g t := fun hw => hw.2.elim fun n hn => by cases ht.2.2.symm.trans hn
      refine .waits t w rfl ht.2.1 hout (fdwaitadd_spec hc.2 hadd) rfl (inFdwait_fdwait (s := ⟨x.s.g, p⟩) hi ht.2.1 hen hr)
        (fun u hu => remains_other (did hi hen hr) fun hu' => ?_) (created_eq x true)
      exact hu (Option.some.inj (hu'.symm.trans ht.2.1))
    · cases ha
  | fdwaitreturn now =>
    obtain ⟨ev', he, hen, hr⟩ := ho.resolve_right fun h => by cases h.1
    obtain rfl := Option.some.inj he
    obtain ⟨-, t, n, hrun, hpc⟩ := hc
    simp only [Sys.after, hrun] at ha
    split at ha
    · rename_i w hw
      cases ha
      refine .returns t w rfl hrun hw (fdwaitdel_spec hwf w) rfl (inFdwait_return (s := ⟨x.s.g, p⟩) hi hrun hpc hr)
        (fun u hu => remains_other (did hi hen hr) fun hu' => ?_) rfl
      exact hu (Option.some.inj (hu'.symm.trans hrun))
    · cases ha
  | openfd fd =>
    obtain ⟨-, hs, -⟩ := ho.resolve_left (by rintro ⟨_, h, _⟩; cases h)
    cases ha
    exact .files (files_openfd hwf hc.2) rfl hs rfl
  | dup fd d =>
    obtain ⟨-, hs, -⟩ := ho.resolve_left (by rintro ⟨_, h, _⟩; cases h)
    cases ha
    exact .files (files_dup hwf hc.2) rfl hs rfl
  | close fd =>
    obtain ⟨-, hs, -⟩ := ho.resolve_left (by rintro ⟨_, h, _⟩; cases h)
    cases ha
    exact .files (files_close hwf) rfl hs rfl

/-! ## What every run keeps -/

structure Waits (x : Sys) : Prop where
  main : x.s.g.phase = .main → x.s.g.taskrunning = none
  wf : Wf x.k
  insts : ∀ r ∈ x.k.regs, r.inst ≤ x.epfd
  waits : ∀ t, x.wait t ≠ none ↔ InFdwait x.s.g t
  reg : ∀ t w r, x.wait t = some w → w.reg = some r →
    r.data = t ∧ r.num = w.fd ∧ r.inst ≤ x.epfd ∧ r.desc < x.k.descs ∧ w.desc = some r.desc

theorem waits_start (h : SysStarts x) : Waits x := by
  obtain ⟨⟨rendezl, size, junk, mem, -, he⟩, hwf, hregs, hwait⟩ := h
  refine ⟨?_, hwf, ?_, fun t => ?_, fun t w r hw => nomatch (hwait t).symm.trans hw⟩
  · rw [he]
    exact fun _ => rfl
  · rw [hregs]
    exact fun r hr => nomatch hr
  · rw [hwait, he]
    exact iff_of_false (absurd rfl) fun hw => nomatch hw.1

theorem main_step (hl : Linked x.s p) (hm : x.s.g.phase = .main → x.s.g.taskrunning = none) (ho : OnPlaces x p e x' p') :
    x'.s.g.phase = .main → x'.s.g.taskrunning = none := by
  rcases ho with ⟨ev, -, hen, hr⟩ | ⟨-, hs, -⟩
  · exact (did hl.inv hen hr).main hm
  · rw [hs]
    exact hm

theorem waits_step (hm : x'.s.g.phase = .main → x'.s.g.taskrunning = none) (h : Waits x) (hd : SysDid x e x') : Waits x' := by
  have hle : x'.epfd = x.epfd ∨ x'.epfd = x.epfd + 1 ∧ x.s.g.startedfdtask = false → x.epfd ≤ x'.epfd := by
    omega
  cases hd with
  | others hk hw hin he =>
    refine ⟨hm, hk ▸ h.wf, fun r hr => ?_, fun t => ?_, fun t w r ht hr => ?_⟩
    · exact Nat.le_trans (h.insts r (hk ▸ hr)) (hle he)
    · rw [hw, (hin t).inside]
      exact h.waits t
    · obtain ⟨h1, h2, h3, h4, h5⟩ := h.reg t w r (hw ▸ ht) hr
      exact ⟨h1, h2, Nat.le_trans h3 (hle he), hk ▸ h4, h5⟩
  | waits t w _ _ hout hadd hw hin hothers he =>
    refine ⟨hm, hadd.wf h.wf, fun r hr => ?_, fun u => ?_, fun u w' r hu hr => ?_⟩
    · rcases (hadd.regs r).mp hr with hr | hr
      · exact Nat.le_trans (h.insts r hr) (hle he)
      · exact Nat.le_of_eq (hadd.reg r hr).1
    · rw [hw]
      by_cases hut : u = t
      · subst hut
        rw [update_self]
        exact iff_of_true nofun hin
      · rw [update_of_ne hut, (hothers u hut).inside]
        exact h.waits u
    · rw [hw] at hu
      rw [hadd.descs]
      by_cases hut : u = t
      · subst hut
        rw [update_self] at hu
        obtain rfl := Option.some.inj hu
        obtain ⟨h1, h2, h3, h4⟩ := hadd.reg r hr
        obtain ⟨n, hn⟩ := (hadd.opens r.desc).mp ((hadd.wf h.wf).alive r ((hadd.regs r).mpr (.inr hr)))
        exact ⟨h3, h2, Nat.le_of_eq h1, h.wf.descs n r.desc hn, h4⟩
      · rw [update_of_ne hut] at hu
        obtain ⟨h1, h2, h3, h4, h5⟩ := h.reg u w' r hu hr
        exact ⟨h1, h2, Nat.le_trans h3 (hle he), h4, h5⟩
  | returns t w _ _ _ hf hw hin hothers he =>
    refine ⟨hm, hf.wf, fun r hr => ?_, fun u => ?_, fun u w' r hu hr => ?_⟩
    · rw [he]
      exact h.insts r (mem_del.mp ((hf.regs r).mp hr).1).1
    · rw [hw]
      by_cases hut : u = t
      · subst hut
        rw [update_self]
        exact iff_of_false (absurd rfl) hin
      · rw [update_of_ne hut, (hothers u hut).inside]
        exact h.waits u
    · rw [hw] at hu
      have hut : u ≠ t := by
        rintro rfl
        rw [update_self] at hu
        cases hu
      rw [update_of_ne hut] at hu
      obtain ⟨h1, h2, h3, h4, h5⟩ := h.reg u w' r hu hr
      exact ⟨h1, h2, he ▸ h3, Nat.lt_of_lt_of_le h4 hf.descs, h5⟩
  | files hf hw hs he =>
    refine ⟨hm, hf.wf, fun r hr => ?_, fun t => ?_, fun t w r ht hr => ?_⟩
    · rw [he]
      exact h.insts r ((hf.regs r).mp hr).1
    · rw [hw, hs]
      exact h.waits t
    · obtain ⟨h1, h2, h3, h4, h5⟩ := h.reg t w r (hw ▸ ht) hr
      exact ⟨h1, h2, he ▸ h3, Nat.lt_of_lt_of_le h4 hf.descs, h5⟩

/-! ## Events -/

/-- The `fdwait` that ends in the step finds its registration, if that is there, by its descriptor. -/
def Unregisters (x : Sys) : SysEv → Prop
  | .fdwaitreturn _ => ∀ t ∈ x.s.g.taskrunning, ∀ w ∈ x.wait t, ∀ r ∈ w.reg, r ∈ x.k.regs → r.inst = x.epfd →
      x.k.names w.fd = some r.desc
  | _ => True

instance (x : Sys) : (e : SysEv) → Decidable (Unregisters x e)
  | .fdwaitreturn _ => inferInstanceAs (Decidable (∀ t ∈ x.s.g.taskrunning, ∀ w ∈ x.wait t, ∀ r ∈ w.reg, r ∈ x.k.regs →
      r.inst = x.epfd → x.k.names w.fd = some r.desc))
  | .lib _ | .fdwait _ _ _ _ _ | .epoll_wait _ _ _ | .openfd _ | .dup _ _ | .close _ => .isTrue trivial

/-- Registrations are of tasks in `fdwait`, one each. -/
structure Owned (x : Sys) (p : Places) : Prop extends Waits x where
  own : ∀ r ∈ x.k.regs, r.inst = x.epfd → ∃ w, x.wait r.data = some w ∧ w.reg = some r
  loops : Loops ⟨x.s.g, p⟩

theorem own_step (h : Waits x) (hown : ∀ r ∈ x.k.regs, r.inst = x.epfd → ∃ w, x.wait r.data = some w ∧ w.reg = some r)
    (hd : SysDid x e x') (hu : Unregisters x e) :
    ∀ r ∈ x'.k.regs, r.inst = x'.epfd → ∃ w, x'.wait r.data = some w ∧ w.reg = some r := by
  intro r hr hi
  -- a new instance has no registrations
  have hsame : ∀ r ∈ x.k.regs, r.inst = x'.epfd → (x'.epfd = x.epfd ∨ x'.epfd = x.epfd + 1 ∧ x.s.g.startedfdtask = false) →
      r.inst = x.epfd := fun r hr hi he => by
    have := h.insts r hr
    omega
  cases hd with
  | others hk hw _ he =>
    rw [hk] at hr
    rw [hw]
    exact hown r hr (hsame r hr hi he)
  | waits t w _ _ hout hadd hw _ _ he =>
    rw [hw]
    rcases (hadd.regs r).mp hr with hr | hr
    · obtain ⟨w', hw', hr'⟩ := hown r hr (hsame r hr hi he)
      refine ⟨w', ?_, hr'⟩
      rw [update_of_ne fun hdata => hout ?_]
      · exact hw'
      · exact (h.waits t).mp (by rw [← hdata, hw']; nofun)
    · exact ⟨w, by rw [(hadd.reg r hr).2.2.1, update_self], hr⟩
  | @returns now t w hev hrun hwt hf hw _ _ he =>
    obtain ⟨hr, hdel⟩ := mem_del.mp ((hf.regs r).mp hr).1
    rw [he] at hi
    obtain ⟨w', hw', hr'⟩ := hown r hr hi
    refine ⟨w', ?_, hr'⟩
    rw [hw, update_of_ne fun hdata => hdel ?_]
    · exact hw'
    · rw [hdata, hwt] at hw'
      obtain rfl := Option.some.inj hw'
      subst hev
      exact ⟨hi, hu t hrun w hwt r hr' hr hi, (h.reg t w r hwt hr').2.1⟩
  | files hf hw _ he =>
    rw [hw]
    exact hown r ((hf.regs r).mp hr).1 (he ▸ hi)

theorem owned_step (hl : Linked x.s p) (h : Owned x p) (hc : x.Can e) (hl' : Linked x'.s p') (ho : OnPlaces x p e x' p')
    (ha : x.after s' e = some x') (hC : Unregisters x e ∧ Brief x.s.g x'.s.g) : Owned x' p' := by
  have hd := sys_did hl h.main h.wf hc ho ha
  refine ⟨waits_step (main_step hl h.main ho) h.toWaits hd, own_step h.toWaits h.own hd hC.1, ?_⟩
  rcases ho with ⟨ev, -, hen, hr⟩ | ⟨-, hs, hp⟩
  · exact loops_step hl.inv h.loops hen hr hl'.inv hC.2
  · rw [hs, hp]
    exact h.loops

/-- A task in `fdwait` sleeps when no task is ready or runs. -/
theorem registered_idle (hl : Linked x.s p) (hq : p.q .taskrunqueue = []) (hr : x.s.g.taskrunning ≠ some t)
    (hw : InFdwait x.s.g t) : Registered x.s.g t := by
  obtain ⟨hlive, n, hn⟩ := hw
  refine ⟨hlive, ⟨n, hn⟩, ?_, hr⟩
  cases (hl.inv.good t).status with
  | dead hd _ _ _ => exact nomatch hlive.symm.trans hd
  | running _ hr' _ _ => exact absurd (of_decide_eq_true hr') hr
  | ready _ _ _ hloc _ =>
    have hmem := (p.mem_iff .taskrunqueue t).mpr hloc
    rw [hq] at hmem
    cases hmem
  | resting _ _ hz _ _ => exact hz

/-- As long as each `fdwait` that ends finds its registration by its descriptor, the events that
    `epoll_wait` can report are for different tasks, on the sleeping list, in their `fdwait`. -/
theorem events_name_sleepers {x₀ x : Sys} (h₀ : SysStarts x₀)
    (h : SysRun (fun x e x' => Unregisters x e ∧ Brief x.s.g x'.s.g) x₀ x) (hp : Polls x.s.g) : ∃ q,
    IsDll x.s.m.next x.s.m.prev (x.s.m.list .sleeping).head (x.s.m.list .sleeping).tail q ∧
    (∀ r ∈ x.k.regs, r.inst = x.epfd → r.data ∈ q ∧ Registered x.s.g r.data) ∧
    ∀ rs : List (Reg TaskPtr), rs.Nodup → (∀ r ∈ rs, r ∈ x.k.regs ∧ r.inst = x.epfd) → ∀ now now',
      Enabled x.s.g (.resume now (.events (rs.map Reg.data)) now') ∧
      ∃ s', (code (.resume now (.events (rs.map Reg.data)) now')).onHeap x.s = .ok ((), s') := by
  have hstart : Owned x₀ Places.empty := by
    refine ⟨waits_start h₀, fun r hr => ?_, loops_start h₀.starts x₀.s.g.tasknswitch⟩
    rw [h₀.regs] at hr
    cases hr
  obtain ⟨p, hl, ho⟩ := SysRun.holds (linked_start h₀.starts) hstart owned_step h
  obtain ⟨hph, t, v, n, hr, hpc, hle⟩ := hp
  obtain ⟨us, new, hus, hround⟩ := ho.loops.round (by rw [hph]; nofun) t v n (hl.inv.here hr).1 hpc
  obtain ⟨hval, hq⟩ := hround.done hr hus
  have hval : yielded x.s.g n = us.length := hval
  have hidle : p.q .taskrunqueue = [] := hq (List.length_eq_zero_iff.mp (by omega))
  have hreg : ∀ r ∈ x.k.regs, r.inst = x.epfd → Registered x.s.g r.data := by
    intro r hr' hi
    obtain ⟨w, hw, -⟩ := ho.own r hr' hi
    have hin : InFdwait x.s.g r.data := (ho.waits r.data).mp (by rw [hw]; nofun)
    refine registered_idle hl hidle (fun hrun => ?_) hin
    obtain ⟨-, m, hm⟩ := hin
    rw [← Option.some.inj (hr.symm.trans hrun)] at hm
    exact nomatch hpc.symm.trans hm
  refine ⟨p.q .sleeping, hl.rep .sleeping, fun r hr' hi => ⟨?_, hreg r hr' hi⟩, fun rs hnd hrs now now' => ?_⟩
  · exact (p.mem_iff .sleeping r.data).mpr (registered_loc hl.inv (hreg r hr' hi))
  · have hen : Enabled x.s.g (.resume now (.events (rs.map Reg.data)) now') := by
      refine ⟨hph, ⟨t, hr, by rw [hpc]; nofun⟩, fun ts hts => ?_⟩
      obtain rfl := Poll.events.inj hts
      constructor
      · refine List.Nodup.map_on (fun r hr₁ r' hr₂ hdata => ?_) hnd
        obtain ⟨w, hw, h1⟩ := ho.own r (hrs r hr₁).1 (hrs r hr₁).2
        obtain ⟨w', hw', h2⟩ := ho.own r' (hrs r' hr₂).1 (hrs r' hr₂).2
        rw [hdata, hw'] at hw
        rw [← Option.some.inj hw, h2] at h1
        exact (Option.some.inj h1).symm
      · intro u hu
        obtain ⟨r, hr', rfl⟩ := List.mem_map.mp hu
        exact hreg r (hrs r hr').1 (hrs r hr').2
    obtain ⟨s', -, hs', -⟩ := ok_onHeap (step_places hl.inv hen) hl.rep
    exact ⟨hen, s', hs'⟩

/-- The scheduler takes the next task, which goes on where it is. -/
def nextTask : List SysEv := [.lib .taskscheduler, .lib (.resume 0 .eintr 0)]

/-- Tasks 1 and 2 wait on descriptor 5, and the `fdtask` gets to `epoll_wait`. -/
def bothWait : List SysEv :=
  [.lib (.taskcreate 1), .lib (.taskcreate 2), .openfd 5] ++ nextTask ++ [.fdwait 5 0 3 none false] ++ nextTask ++
    [.fdwait 5 1000000 4 (some 6) false] ++ nextTask ++ [.lib .taskscheduler]

theorem events_name_sleepers_both : ∃ x : Sys, Polls x.s.g ∧ x.k.regs.length = 2 ∧ ∃ q,
    IsDll x.s.m.next x.s.m.prev (x.s.m.list .sleeping).head (x.s.m.list .sleeping).tail q ∧ 1 ∈ q ∧ 2 ∈ q := by
  have h : SysRun _ sysBoot (bothWait.foldl Sys.next sysBoot) := SysRun.plays
    (C := fun x e x' => Unregisters x e ∧ Brief x.s.g x'.s.g)
    (c := fun x e x' => decide (Unregisters x e) && decide (x'.s.g.queued ≤ 2 ^ 31 - 1))
    (fun x e x' hc => (Bool.and_eq_true_iff.mp hc).imp of_decide_eq_true fun hq _ _ _ _ _ => of_decide_eq_true hq)
    (linked_start sysStarts_boot.starts) bothWait .refl (by decide +kernel)
  have hp : Polls (bothWait.foldl Sys.next sysBoot).s.g := polls_of (by decide +kernel)
  obtain ⟨q, hd, hq, -⟩ := events_name_sleepers sysStarts_boot h hp
  exact ⟨_, hp, by decide +kernel, q, hd, (hq ⟨1, 0, 5, 1⟩ (by decide +kernel) (by decide +kernel)).1,
    (hq ⟨1, 0, 6, 2⟩ (by decide +kernel) (by decide +kernel)).1⟩

/-- Descriptors 5 and 6 are one file. Task 1 waits on 5, task 2 closes it and exits; the time of
    task 1 is up, its `EPOLL_CTL_DEL` fails, and it exits too. -/
def closedWaiting : List SysEv :=
  [.lib (.taskcreate 1), .lib (.taskcreate 2), .openfd 5, .dup 5 6] ++ nextTask ++ [.fdwait 5 0 3 none false] ++ nextTask ++
    [.close 5, .lib .taskexit] ++ nextTask ++
    [.lib .taskscheduler, .epoll_wait 0 [] 30000000000, .lib .taskscheduler, .fdwaitreturn 30000000000, .lib .taskexit] ++
    nextTask ++ [.lib .taskscheduler]

/-- Then `epoll_wait` can name task 1, which is freed. -/
theorem closed_while_waiting : ∃ x, SysRun (fun _ _ _ => True) sysBoot x ∧ Polls x.s.g ∧
    ∃ r ∈ x.k.regs, r.inst = x.epfd ∧ r.data = 1 ∧ x.s.g.live 1 = false := by
  refine ⟨_, SysRun.plays (c := fun _ _ _ => true) (fun _ _ _ _ => trivial) (linked_start sysStarts_boot.starts) closedWaiting
    .refl (by decide +kernel), polls_of (by decide +kernel), ⟨1, 0, 5, 1⟩, ?_⟩
  exact ⟨by decide +kernel, by decide +kernel, rfl, by decide +kernel⟩

/-! ## Unregistering -/

/-- The `fdwait` that begins in the step gets what it asks for, if its descriptor is open. One that
    ends finds the file of its registration under its descriptor, in the same instance, or
    nothing; or nobody else waits on that descriptor. -/
def Settled (x : Sys) (e : SysEv) : Prop :=
  (∀ fd now a d fail, e = .fdwait fd now a d fail → x.k.names fd ≠ none → fail = false) ∧
  ∀ now t w, e = .fdwaitreturn now → x.s.g.taskrunning = some t → x.wait t = some w →
    x.k.names w.fd = none ∨ (∃ r, w.reg = some r ∧ x.k.names w.fd = some r.desc ∧ r.inst = x.epfd) ∨
    ∀ u w', u ≠ t → x.wait u = some w' → w'.fd ≠ w.fd

/-- Who is in `fdwait` is registered while its file is open; who sleeps is so in `epfd`. -/
structure Kept (x : Sys) (p : Places) : Prop extends Waits x where
  kept : ∀ t w r, x.wait t = some w → w.reg = some r → x.k.Open r.desc → r ∈ x.k.regs
  here : ∀ t w r, Asleep x.s.g t → x.wait t = some w → w.reg = some r → r.inst = x.epfd
  done : ∀ t w, x.wait t = some w → w.desc ≠ none → w.reg ≠ none
  started : p.q .sleeping ≠ [] → x.s.g.startedfdtask = true

/-- The `EPOLL_CTL_DEL` of `t` leaves the others' registrations. -/
theorem del_others {w w' : Wait} {u : TaskPtr} {r : Reg TaskPtr} {now : Nat} (h : Waits x)
    (hkept : ∀ t w r, x.wait t = some w → w.reg = some r → x.k.Open r.desc → r ∈ x.k.regs) (hs : Settled x (.fdwaitreturn now))
    (hrun : x.s.g.taskrunning = some t) (hw : x.wait t = some w) (hut : u ≠ t) (hw' : x.wait u = some w') (hr : w'.reg = some r)
    (hmem : r ∈ x.k.regs) : r ∈ (x.k.del x.epfd w.fd).regs := by
  refine mem_del.mpr ⟨hmem, fun hkey => ?_⟩
  obtain ⟨hi, hn, hnum⟩ := hkey
  obtain ⟨hdata, hnum', -⟩ := h.reg u w' r hw' hr
  rcases hs.2 now t w rfl hrun hw with hnone | ⟨r', hr', hn', hi'⟩ | hfd
  · exact nomatch hnone.symm.trans hn
  · -- both have the key that `t` registered
    have hmem' : r' ∈ x.k.regs := hkept t w r' hw hr' ⟨w.fd, hn'⟩
    obtain ⟨hdata', hnum'', -⟩ := h.reg t w r' hw hr'
    have hrr : r = r' := h.wf.keys r hmem r' hmem' (hi.trans hi'.symm) (Option.some.inj (hn.symm.trans hn'))
      (hnum.trans hnum''.symm)
    rw [hrr, hdata'] at hdata
    exact hut hdata.symm
  · exact hfd u w' hut hw' (hnum'.symm.trans hnum)

theorem kept_step (hl : Linked x.s p) (h : Kept x p) (hc : x.Can e) (hl' : Linked x'.s p') (ho : OnPlaces x p e x' p')
    (ha : x.after s' e = some x') (hC : Settled x e) : Kept x' p' := by
  have hd := sys_did hl h.main h.wf hc ho ha
  have hw' := waits_step (main_step hl h.main ho) h.toWaits hd
  have hstarted : p'.q .sleeping ≠ [] → x'.s.g.startedfdtask = true := by
    rcases ho with ⟨ev, -, hen, hr⟩ | ⟨-, hs, hp⟩
    · exact started_step hl.inv hl'.inv h.main hen hr h.started
    · rw [hs, hp]
      exact h.started
  -- while a task sleeps there is no new instance
  have hepfd : ∀ u, Asleep x.s.g u → (x'.epfd = x.epfd ∨ x'.epfd = x.epfd + 1 ∧ x.s.g.startedfdtask = false) →
      x'.epfd = x.epfd := fun u hu he => by
    have hst := h.started (List.ne_nil_of_mem ((asleep_iff (s := ⟨x.s.g, p⟩) hl.inv).mpr hu))
    exact he.resolve_right fun hn => nomatch hst.symm.trans hn.2
  refine ⟨hw', ?_, ?_, ?_, hstarted⟩
  · intro u w' r hu hr hopen
    cases hd with
    | others hk hw _ _ =>
      rw [hw] at hu
      rw [hk] at hopen ⊢
      exact h.kept u w' r hu hr hopen
    | waits t w _ _ _ hadd hw _ _ _ =>
      rw [hw] at hu
      by_cases hut : u = t
      · subst hut
        rw [update_self] at hu
        obtain rfl := Option.some.inj hu
        exact (hadd.regs r).mpr (.inr hr)
      · rw [update_of_ne hut] at hu
        exact (hadd.regs r).mpr (.inl (h.kept u w' r hu hr ((hadd.opens r.desc).mp hopen)))
    | returns t w hev hrun hwt hf hw _ _ _ =>
      subst hev
      rw [hw] at hu
      by_cases hut : u = t
      · subst hut
        rw [update_self] at hu
        cases hu
      · rw [update_of_ne hut] at hu
        have hopen' : x.k.Open r.desc := hf.opens r.desc (h.reg u w' r hu hr).2.2.2.1 hopen
        have hmem := h.kept u w' r hu hr hopen'
        exact (hf.regs r).mpr ⟨del_others h.toWaits h.kept hC hrun hwt hut hu hr hmem, hopen⟩
    | files hf hw _ _ =>
      rw [hw] at hu
      have hopen' : x.k.Open r.desc := hf.opens r.desc (h.reg u w' r hu hr).2.2.2.1 hopen
      exact (hf.regs r).mpr ⟨h.kept u w' r hu hr hopen', hopen⟩
  · intro u w' r hsleep hu hr
    have hin' : InFdwait x'.s.g u := (hw'.waits u).mp (by rw [hu]; nofun)
    cases hd with
    | others _ hw hrem he =>
      rw [hw] at hu
      have hsleep' := (hrem u).asleep ((hrem u).inside.mp hin') hsleep
      rw [hepfd u hsleep' he]
      exact h.here u w' r hsleep' hu hr
    | waits t w _ _ _ hadd hw _ hrem he =>
      rw [hw] at hu
      by_cases hut : u = t
      · subst hut
        rw [update_self] at hu
        obtain rfl := Option.some.inj hu
        exact (hadd.reg r hr).1
      · rw [update_of_ne hut] at hu
        have hsleep' := (hrem u hut).asleep ((hrem u hut).inside.mp hin') hsleep
        rw [hepfd u hsleep' he]
        exact h.here u w' r hsleep' hu hr
    | returns t w _ _ _ _ hw hout hrem he =>
      have hut : u ≠ t := fun hut => hout (hut ▸ hin')
      rw [hw, update_of_ne hut] at hu
      rw [he]
      exact h.here u w' r ((hrem u hut).asleep ((hrem u hut).inside.mp hin') hsleep) hu hr
    | files _ hw hs he =>
      rw [hw] at hu
      rw [he]
      exact h.here u w' r (hs ▸ hsleep) hu hr
  · intro u w' hu
    cases hd with
    | others _ hw _ _ => exact h.done u w' (hw ▸ hu)
    | waits t w hev _ _ hadd hw _ _ _ =>
      rw [hw] at hu
      by_cases hut : u = t
      · subst hut
        rw [update_self] at hu
        obtain rfl := Option.some.inj hu
        exact hadd.done (hC.1 _ _ _ _ _ hev)
      · rw [update_of_ne hut] at hu
        exact h.done u w' hu
    | returns t w _ _ _ _ hw hout _ _ =>
      have hut : u ≠ t := fun hut => hout (hut ▸ (hw'.waits u).mp (by rw [hu]; nofun))
      rw [hw, update_of_ne hut] at hu
      exact h.done u w' hu
    | files _ hw _ _ => exact h.done u w' (hw ▸ hu)

/-- As long as no `fdwait` that ends finds another file or another instance behind its descriptor
    while somebody waits on that, it unregisters nobody else, and who sleeps in `fdwait` on a file
    that is open is registered for it. -/
theorem unregisters_itself {x₀ x : Sys} (h₀ : SysStarts x₀) (h : SysRun (fun x e _ => Settled x e) x₀ x) :
    (∀ now t w u w' r, x.Can (.fdwaitreturn now) → Settled x (.fdwaitreturn now) → x.s.g.taskrunning = some t →
      x.wait t = some w → u ≠ t → x.wait u = some w' → w'.reg = some r → r ∈ x.k.regs → r ∈ (x.k.del x.epfd w.fd).regs) ∧
    ∃ q, IsDll x.s.m.next x.s.m.prev (x.s.m.list .sleeping).head (x.s.m.list .sleeping).tail q ∧
      ∀ t ∈ q, ∀ n, (x.s.g.task t).pc = .fdwait n → ∃ w, x.wait t = some w ∧
        ∀ y, w.desc = some y → x.k.Open y → ∃ r ∈ x.k.regs, w.reg = some r ∧ r.inst = x.epfd ∧ r.desc = y ∧ r.data = t := by
  have hstart : Kept x₀ Places.empty := by
    refine ⟨waits_start h₀, fun t w r hw => ?_, fun t w r _ hw => ?_, fun t w hw => ?_, absurd rfl⟩
    all_goals exact nomatch (h₀.wait t).symm.trans hw
  obtain ⟨p, hl, hk⟩ := SysRun.holds (linked_start h₀.starts) hstart kept_step h
  refine ⟨fun now t w u w' r _ hs hrun hw hut hw' hr hmem => del_others hk.toWaits hk.kept hs hrun hw hut hw' hr hmem,
    p.q .sleeping, hl.rep .sleeping, fun t ht n hn => ?_⟩
  have hsleep := (asleep_iff (s := ⟨x.s.g, p⟩) hl.inv).mp ht
  have hin : InFdwait x.s.g t := ⟨hsleep.1, n, hn⟩
  obtain ⟨w, hw⟩ := Option.ne_none_iff_exists'.mp ((hk.waits t).mpr hin)
  refine ⟨w, hw, fun y hy hopen => ?_⟩
  obtain ⟨r, hr⟩ := Option.ne_none_iff_exists'.mp (hk.done t w hw (by rw [hy]; nofun))
  obtain ⟨hdata, -, -, -, hdesc⟩ := hk.reg t w r hw hr
  obtain rfl : r.desc = y := Option.some.inj (hdesc.symm.trans hy)
  exact ⟨r, hk.kept t w r hw hr hopen, hr, hk.here t w r hsleep hw hr, rfl, hdata⟩

/-- What `Settled` says, but for who else waits. -/
def Sys.settled (x : Sys) : SysEv → Bool
  | .fdwait _ _ _ _ fail => !fail
  | .fdwaitreturn _ => decide <| ∀ t ∈ x.s.g.taskrunning, ∀ w ∈ x.wait t,
      x.k.names w.fd = none ∨ ∃ r ∈ w.reg, x.k.names w.fd = some r.desc ∧ r.inst = x.epfd
  | _ => true

theorem settled_of {e : SysEv} (h : x.settled e = true) : Settled x e := by
  refine ⟨fun fd now a d fail he _ => ?_, fun now t w he hr hw => ?_⟩
  · subst he
    exact Bool.not_eq_true' _ ▸ h
  · subst he
    rcases of_decide_eq_true h t hr w hw with hn | ⟨r, hr, hn, hi⟩
    · exact .inl hn
    · exact .inr (.inl ⟨r, hr, hn, hi⟩)

/-- The time of task 1 is up, and it goes on. -/
def firstWakes : List SysEv := bothWait ++ [.epoll_wait 0 [] 30000000000, .lib .taskscheduler]

theorem unregisters_itself_both : ∃ x y : Sys, ⟨1, 0, 6, 2⟩ ∈ (x.k.del x.epfd 5).regs ∧ y = x.next (.fdwaitreturn 30000000000) ∧
    ∃ q, IsDll y.s.m.next y.s.m.prev (y.s.m.list .sleeping).head (y.s.m.list .sleeping).tail q ∧
      (2 ∈ q → ∃ r ∈ y.k.regs, r.inst = y.epfd ∧ r.data = 2) := by
  have hrun : ∀ es, sysBoot.plays (fun x e _ => x.settled e) es = true →
      SysRun (fun x e _ => Settled x e) sysBoot (es.foldl Sys.next sysBoot) := fun es hp =>
    SysRun.plays (fun x e x' hc => settled_of hc) (linked_start sysStarts_boot.starts) es .refl hp
  obtain ⟨x, hx⟩ : ∃ x, x = firstWakes.foldl Sys.next sysBoot := ⟨_, rfl⟩
  obtain ⟨y, hy⟩ : ∃ y, y = x.next (.fdwaitreturn 30000000000) := ⟨_, rfl⟩
  have hwait : x.wait 1 = some ⟨5, false, some ⟨1, 0, 5, 1⟩, some 0⟩ ∧ x.wait 2 = some ⟨6, true, some ⟨1, 0, 6, 2⟩, some 0⟩ ∧
      x.s.g.taskrunning = some 1 ∧ ⟨1, 0, 6, 2⟩ ∈ x.k.regs := by
    subst hx
    decide +kernel
  have hcan : x.can (.fdwaitreturn 30000000000) = true ∧ x.settled (.fdwaitreturn 30000000000) = true := by
    subst hx
    decide +kernel
  have hy2 : (y.s.g.task 2).pc = .fdwait 1000000 ∧ y.wait 2 = some ⟨6, true, some ⟨1, 0, 6, 2⟩, some 0⟩ ∧ y.k.names 5 = some 0 := by
    subst hy hx
    decide +kernel
  have h₁ := unregisters_itself sysStarts_boot (hrun firstWakes (by decide +kernel))
  have h₂ := unregisters_itself sysStarts_boot (hrun (firstWakes ++ [.fdwaitreturn 30000000000]) (by decide +kernel))
  rw [List.foldl_append, List.foldl_cons, List.foldl_nil, ← hx, ← hy] at h₂
  rw [← hx] at h₁
  obtain ⟨q, hd, hq⟩ := h₂.2
  refine ⟨x, y, ?_, hy, q, hd, fun h2 => ?_⟩
  · exact h₁.1 30000000000 1 _ 2 _ ⟨1, 0, 6, 2⟩ (.of hcan.1) (settled_of hcan.2) hwait.2.2.1 hwait.1 (by decide) hwait.2.1 rfl
      hwait.2.2.2
  · obtain ⟨w, hw, hr⟩ := hq 2 h2 1000000 hy2.1
    have hw' : w = ⟨6, true, some ⟨1, 0, 6, 2⟩, some 0⟩ := Option.some.inj (hw.symm.trans hy2.2.1)
    obtain ⟨r, hmem, -, hi, -, hdata⟩ := hr 0 (by rw [hw']) ⟨5, hy2.2.2⟩
    exact ⟨r, hmem, hi, hdata⟩

/-- Task 1 waits on descriptor 5. Task 2 closes it, opens 5 again and waits on that. The time of
    task 1 is up, and it goes on. -/
def reopenedWaiting : List SysEv :=
  [.lib (.taskcreate 1), .lib (.taskcreate 2), .openfd 5] ++ nextTask ++ [.fdwait 5 0 3 none false] ++ nextTask ++
    [.close 5, .openfd 5, .fdwait 5 1000000 4 none false] ++ nextTask ++
    [.lib .taskscheduler, .epoll_wait 0 [] 30000000000, .lib .taskscheduler]

/-- Its `EPOLL_CTL_DEL` removes what task 2 registered, which sleeps on: its file is open, and no
    event wakes it. -/
theorem reopened_while_waiting : ∃ x y : Sys, SysRun (fun _ _ _ => True) sysBoot x ∧ SysRun (fun _ _ _ => True) sysBoot y ∧
    y = x.next (.fdwaitreturn 30000000000) ∧ Asleep y.s.g 2 ∧ InFdwait y.s.g 2 ∧
    ∃ w r, x.wait 2 = some w ∧ y.wait 2 = some w ∧ w.reg = some r ∧ w.desc = some r.desc ∧ r.num = 5 ∧
      y.k.names 5 = some r.desc ∧ r ∈ x.k.regs ∧ r ∉ y.k.regs := by
  have hrun : ∀ es, sysBoot.plays (fun _ _ _ => true) es = true → SysRun (fun _ _ _ => True) sysBoot (es.foldl Sys.next sysBoot) :=
    fun es hp => SysRun.plays (fun _ _ _ _ => trivial) (linked_start sysStarts_boot.starts) es .refl hp
  have h₁ := hrun reopenedWaiting (by decide +kernel)
  have h₂ := hrun (reopenedWaiting ++ [.fdwaitreturn 30000000000]) (by decide +kernel)
  obtain ⟨x, hx⟩ : ∃ x, x = reopenedWaiting.foldl Sys.next sysBoot := ⟨_, rfl⟩
  obtain ⟨y, hy⟩ : ∃ y, y = x.next (.fdwaitreturn 30000000000) := ⟨_, rfl⟩
  rw [List.foldl_append, List.foldl_cons, List.foldl_nil, ← hx, ← hy] at h₂
  have hy2 : (y.s.g.live 2 = true ∧ y.s.g.taskrunning ≠ some 2 ∧ (y.s.g.task 2).state = .zero ∧
      home (y.s.g.task 2).pc = some .sleeping) ∧ (y.s.g.task 2).pc = .fdwait 1000000 := by
    subst hy hx
    decide +kernel
  refine ⟨x, y, hx ▸ h₁, h₂, hy, hy2.1, ⟨hy2.1.1, 1000000, hy2.2⟩, ⟨5, false, some ⟨1, 1, 5, 2⟩, some 1⟩, ⟨1, 1, 5, 2⟩, ?_⟩
  subst hy hx
  decide +kernel

end

end Libtask.Sched
