/-
  Libtask.Sched.RoundRobin — what happens until a `taskyield` returns.

  `Round`: since `t` yielded the scheduler took tasks off the queue that it had then, in order;
  `t` comes behind all of them, and the counter counted them. It is kept by every step that `t`
  does not make.

  `round_robin`: so exactly the queued tasks run once each before `t`, `taskyield` returns their
  number, and `fdtask` leaves its loop over `taskyield` only when no task is ready.
-/

import Libtask.Sched.Poller

namespace Libtask.Sched

open Function (update update_self update_of_ne)
open Libtask.Lib.Dll
open Libtask.Lib.History (select select_cons select_append)

/-- The same, with the counter at `c`. -/
def State.wound {M : Type} (s : State Glob M) (c : BitVec 32) : State Glob M := { s with g := { s.g with tasknswitch := c } }

/-! ## The queue, by the history -/

/-- Who was dispatched, in order. -/
def turns (log : List Obs) : List TaskPtr := select (takenOff .taskrunqueue) log

/-- How many tasks are on the run queue. -/
def Glob.queued (g : Glob) : Nat := (select (putOn .taskrunqueue) g.log).length - (turns g.log).length

section
variable {q q' : ListRef → List TaskPtr} {log new : List Obs}

theorem turns_append (a b : List Obs) : turns (a ++ b) = turns b ++ turns a := select_append _ a b

theorem turns_quiet (h : ∀ u, .del .taskrunqueue u ∉ new) : turns new = [] := by
  have hnone : ∀ o ∈ new, takenOff .taskrunqueue o = none := by
    intro o ho
    cases o with
    | del l u =>
      by_cases hl : l = .taskrunqueue
      · exact absurd (hl ▸ ho) (h u)
      · exact if_neg hl
    | _ => rfl
  rw [turns, select, List.filterMap_eq_nil_iff.mpr hnone]
  rfl

/-- Tasks get on the run queue at its end. -/
theorem queue_grows (h : Order q log) (h' : Order q' (new ++ log)) (hn : ∀ u, .del .taskrunqueue u ∉ new) :
    q' .taskrunqueue = q .taskrunqueue ++ select (putOn .taskrunqueue) new := by
  have h1 := h .taskrunqueue nofun
  have h2 := h' .taskrunqueue nofun
  have hq : select (takenOff .taskrunqueue) (new ++ log) = select (takenOff .taskrunqueue) log := by
    have ht : select (takenOff .taskrunqueue) new = [] := turns_quiet hn
    rw [select_append, ht, List.append_nil]
  rw [hq, select_append, h1, List.append_assoc] at h2
  exact (List.append_cancel_left h2).symm

theorem queued_eq {s : St} (h : Inv s) : s.g.queued = (s.m.q .taskrunqueue).length := by
  rw [Glob.queued, h.base.order .taskrunqueue nofun, List.length_append]
  exact Nat.add_sub_cancel_left _ _

end

/-! ## The counter -/

theorem yielded_eq {g : Glob} {n : BitVec 32} {k : Nat} (hk : k < 2 ^ 31 - 1) (h : g.tasknswitch = n + BitVec.ofNat 32 (k + 1)) :
    yielded g n = k := by
  have hcancel : ∀ a : BitVec 32, n + (a + 1#32) - n - 1 = a := by
    intro a
    grind
  have hsub : g.tasknswitch - n - 1 = BitVec.ofNat 32 k := by
    rw [h, BitVec.ofNat_add]
    exact hcancel _
  have hnat : (BitVec.ofNat 32 k).toNat = k := by
    rw [BitVec.toNat_ofNat]
    omega
  rw [yielded, hsub, BitVec.toInt_eq_toNat_of_lt (by omega), hnat]

/-! ## Until `t` is dispatched again -/

/-- `t` waits behind those of `us` that were not dispatched. While none was, nothing happened. -/
structure Behind (t : TaskPtr) (us : List TaskPtr) (s : St) (ds : List TaskPtr) : Prop where
  off : s.g.taskrunning ≠ some t
  ready : (s.g.task t).state = .READY
  queue : ∃ vs rest, us = ds ++ vs ∧ s.m.q .taskrunqueue = vs ++ t :: rest ∧ (ds = [] → s.g.taskrunning = none ∧ rest = [])

/-- `t` yielded with the counter at `n` and `us` queued, to go on at `k`; `new` is the history since. -/
structure Round (t : TaskPtr) (k : Pc) (n : BitVec 32) (us : List TaskPtr) (s : St) (new : List Obs) : Prop where
  count : s.g.tasknswitch = n + BitVec.ofNat 32 (turns new).length
  phase : s.g.phase ≠ .main
  live : s.g.live t = true
  pc : (s.g.task t).pc = k
  place : Behind t us s (turns new) ∨
    s.g.taskrunning = some t ∧ turns new = us ++ [t] ∧ (us = [] → s.m.q .taskrunqueue = [])

section
variable {s s' : St} {t u : TaskPtr} {e : Ev} {g : Glob} {k : Pc} {n : BitVec 32} {us ds : List TaskPtr} {new : List Obs}

/-- When nobody runs it is the scheduler's turn. -/
theorem idle (hr : g.taskrunning = none) (hm : g.phase ≠ .main) (hen : Enabled g e) : e = .taskscheduler := by
  have hno : ∀ u, ¬ Runs g u := fun u hu => nomatch hr.symm.trans hu.2.1
  have hout : ¬ Outside g := fun ho => ho.elim hm fun ⟨u, hu⟩ => hno u hu
  cases e with
  | taskscheduler => rfl
  | resume now poll now' => exact absurd hen.2.1 fun ⟨u, hu, _⟩ => nomatch hr.symm.trans hu
  | taskcreateraw a => exact absurd hen.1 hout
  | taskcreate a => exact absurd hen.1 hout
  | startfdtask fn arg a => exact absurd hen.1 hout
  | taskready u => exact absurd hen.1 hout
  | poke x b => exact absurd hen hout
  | taskdelay ms now a => exact absurd hen.1 fun ⟨u, hu⟩ => hno u hu
  | fdwait now a => exact absurd hen.1 fun ⟨u, hu⟩ => hno u hu
  | qunlock l => exact absurd hen fun ⟨u, hu, _⟩ => hno u hu
  | runlock l => exact absurd hen fun ⟨u, hu, _⟩ => hno u hu
  | wunlock l => exact absurd hen fun ⟨u, hu, _⟩ => hno u hu
  | tasksleep r => exact absurd hen fun ⟨u, hu, _⟩ => hno u hu
  | chanalt a xs r1 r2 => exact absurd hen fun ⟨u, hu, _⟩ => hno u hu
  | callback r => exact absurd hen fun ⟨u, hu, _⟩ => hno u hu
  | _ => exact absurd hen fun ⟨u, hu⟩ => hno u hu

/-- A step of another task, by which nobody is dispatched. -/
theorem Behind.mono (h : Behind t us s ds) (hd : ds ≠ []) (hoff : s'.g.taskrunning ≠ some t)
    (hready : (s'.g.task t).state = .READY) (more : List TaskPtr)
    (hq : s'.m.q .taskrunqueue = s.m.q .taskrunqueue ++ more) : Behind t us s' ds where
  off := hoff
  ready := hready
  queue := by
    obtain ⟨vs, rest, h1, h2, -⟩ := h.queue
    refine ⟨vs, rest ++ more, h1, ?_, fun h0 => absurd h0 hd⟩
    rw [hq, h2]
    simp

/-- The scheduler takes the next task. -/
theorem round_turn (h : Round t k n us s new) (hoff : s.g.taskrunning ≠ some t) (ht : Turn s s') :
    ∃ more, s'.g.log = more ++ s.g.log ∧ Round t k n us s' (more ++ new) := by
  have hb := h.place.resolve_right fun hr => hoff hr.1
  obtain ⟨vs, rest, hus, hq, h0⟩ := hb.queue
  cases ht with
  | finished hc he =>
    subst he
    exact ⟨[], rfl, h.count, nofun, h.live, h.pc, .inl ⟨hb.off, hb.ready, hb.queue⟩⟩
  | stalled hc hnil he =>
    rw [hq] at hnil
    simp at hnil
  | dispatched u ts hc hqu hd =>
    have hturns : turns (Obs.del .taskrunqueue u :: new) = turns new ++ [u] := select_cons (takenOff .taskrunqueue) _ new
    refine ⟨[.del .taskrunqueue u], hd.log, ?_, by rw [hd.phase]; nofun, by rw [hd.live]; exact h.live, by rw [hd.pc]; exact h.pc, ?_⟩
    · show _ = n + BitVec.ofNat 32 (turns (Obs.del .taskrunqueue u :: new)).length
      rw [hturns, hd.switches, h.count, List.length_append, List.length_singleton, BitVec.ofNat_add, BitVec.add_assoc]
      rfl
    · show Behind t us s' (turns (Obs.del .taskrunqueue u :: new)) ∨ _ ∧ turns (Obs.del .taskrunqueue u :: new) = _ ∧ _
      rw [hturns]
      have hqs : s'.m.q .taskrunqueue = ts := by rw [hd.queue, update_self]
      rw [hq] at hqu
      cases vs with
      | nil =>
        obtain ⟨rfl, rfl⟩ := List.cons.inj hqu
        rw [List.append_nil] at hus
        subst hus
        refine .inr ⟨hd.running, rfl, fun h' => ?_⟩
        rw [hqs]
        exact (h0 h').2
      | cons v vs =>
        obtain ⟨rfl, rfl⟩ := List.cons.inj hqu
        have hne : t ≠ v := by
          intro he
          have hnd := s.m.nodup .taskrunqueue
          rw [hq, he] at hnd
          simp at hnd
        refine .inl ⟨?_, by rw [hd.others t hne]; exact hb.ready, vs, rest, by simp [hus], hqs, by simp⟩
        rw [hd.running]
        exact fun he => hne (Option.some.inj he).symm

theorem round_step (hi : Inv s) (h : Round t k n us s new) (hoff : s.g.taskrunning ≠ some t) (hen : Enabled s.g e)
    (hs : (code e).onPlaces s = .ok ((), s')) (hi' : Inv s') :
    ∃ more, s'.g.log = more ++ s.g.log ∧ Round t k n us s' (more ++ new) := by
  have hb := h.place.resolve_right fun hr => hoff hr.1
  -- somebody runs, and so somebody was dispatched
  have hds : ∀ u, s.g.taskrunning = some u → turns new ≠ [] := fun u hu h0 => by
    obtain ⟨vs, rest, _, _, h0'⟩ := hb.queue
    exact nomatch (h0' h0).1.symm.trans hu
  have hstay : ∀ {more : List Obs} {u : TaskPtr}, s'.g.log = more ++ s.g.log → (∀ w, .del .taskrunqueue w ∉ more) →
      s.g.taskrunning = some u → s'.g.tasknswitch = s.g.tasknswitch → s'.g.phase ≠ .main → s'.g.live t = true →
      (s'.g.task t).pc = k → s'.g.taskrunning ≠ some t → (s'.g.task t).state = .READY →
      Round t k n us s' (more ++ new) := by
    intro more u hlog hno hr hcount hph hlive hpc hrun hready
    have hturns : turns (more ++ new) = turns new := by
      rw [turns_append, turns_quiet hno, List.append_nil]
    have ho' := hi'.base.order
    rw [hlog] at ho'
    refine ⟨by rw [hturns, hcount]; exact h.count, hph, hlive, hpc, .inl ?_⟩
    rw [hturns]
    exact hb.mono (hds u hr) hrun hready _ (queue_grows hi.base.order ho' hno)
  cases did hi hen hs with
  | turn he hr ht => exact round_turn h hoff ht
  | exit u he hr hx hst =>
    have hut : t ≠ u := fun he => hoff (he ▸ hr.2.1)
    refine ⟨[], hx.log, hstay hx.log (by simp) hr.2.1 hx.switches (by rw [hx.phase]; exact h.phase) ?_
      (by rw [hx.pc t hut]; exact h.pc) (by rw [hx.running]; nofun) (by rw [hx.state t hut]; exact hb.ready)⟩
    rw [hx.live, update_of_ne hut]
    exact h.live
  | shutdown u fn g he hr hfn hf hx hst hq =>
    have hut : t ≠ u := fun he => hoff (he ▸ hr.2.1)
    obtain ⟨more, hlog, hno⟩ := hf.log
    have hlog' : s'.g.log = more ++ s.g.log := hx.log.trans hlog
    refine ⟨more, hlog', hstay hlog' hno hr.2.1 (hx.switches.trans hf.switches) ?_ ?_ ?_ (by rw [hx.running]; nofun) ?_⟩
    · rw [hx.phase]
      rcases hf.phase with hp | hp <;> rw [hp]
      · exact h.phase
      · nofun
    · rw [hx.live, update_of_ne hut]
      exact hf.live t h.live
    · rw [hx.pc t hut, hf.pc t h.live hut]
      exact h.pc
    · rw [hx.state t hut]
      exact hf.ready h.live hb.ready
  | call u hc hu hf _ _ _ _ =>
    obtain ⟨arg, v, hbefore⟩ := before_eq e s.g
    rw [hbefore] at hf
    have hr : s.g.taskrunning = some u := hu.resolve_right fun hd => by
      have he := idle hd.1 h.phase hen
      subst he
      exact hc
    have hut : t ≠ u := fun he => hoff (he ▸ hr)
    obtain ⟨more, hlog, hno⟩ := hf.log
    refine ⟨more, hlog, hstay hlog hno hr hf.switches ?_ (hf.live t h.live) ((hf.pc t h.live hut).trans h.pc) ?_
      (hf.ready h.live hb.ready)⟩
    · rcases hf.phase with hp | hp <;> rw [hp]
      · exact h.phase
      · nofun
    · rcases hf.running with hp | hp <;> rw [hp]
      · exact hoff
      · nofun

end

/-! ## Calls of `taskyield` -/

/-- In `taskyield`, which was called with the counter at the value. -/
def Pc.yields : Pc → Option (BitVec 32)
  | .taskyield n => some n
  | .fdtask _ n => some n
  | _ => none

/-- `t` ran, and behind the step it is in `taskyield`. -/
def CallsYield (t : TaskPtr) (g g' : Glob) : Prop :=
  g.taskrunning = some t ∧ g'.phase ≠ .exited ∧ g'.live t = true ∧ (g'.task t).pc.yields ≠ none

/-- `t` just yielded, with `us` queued. -/
structure Yielded (t : TaskPtr) (us : List TaskPtr) (s : St) : Prop where
  pc : (s.g.task t).pc.yields = some s.g.tasknswitch
  off : s.g.taskrunning = none
  ready : (s.g.task t).state = .READY
  queue : s.m.q .taskrunqueue = us ++ [t]

section
variable {s s' : St} {t u : TaskPtr} {e : Ev} {us : List TaskPtr}

theorem taskyield_spec (h : Inv s) (hr : s.g.taskrunning = some t) {k : BitVec 32 → Pc} (hk : ∀ n, (k n).yields = some n) :
    Ok (taskyield k) s fun _ s' => Yielded t (s.m.q .taskrunqueue) s' := by
  obtain ⟨-, hz, hloc⟩ := h.here hr
  have hloc' : (s.setTask t fun x => { x with state := .READY }).m.loc t = none := hloc
  simp only [taskyield, ok_bind, ok_globals, ok_running hr]
  rw [ok_taskready hloc (by rw [hz]; simp), ok_taskswitch (s := s.ready t) hr]
  · refine ⟨?_, rfl, ?_, ?_⟩
    · simp [State.leave, State.ready, State.push, State.setTask, State.modify, Glob.setTask, Glob.observe, hk]
    · simp [State.leave, State.ready, State.push, State.setTask, State.modify, Glob.setTask, Glob.observe]
    · show (s.ready t).m.q .taskrunqueue = _
      rw [State.ready, push_q hloc', update_self]
      rfl
  · simp [State.ready, State.push, State.setTask, State.modify, Glob.setTask, Glob.observe]

/-- Where `fdtask` is behind its part of a turn: in `taskyield`, or in the callback. -/
def Turned (t : TaskPtr) (s : St) : Prop :=
  s.g.phase = .exited ∨ (s.g.task t).pc.yields = none ∨ ∃ us, Yielded t us s

theorem fdyield_spec (h : Inv s) (hr : s.g.taskrunning = some t) (v : Option Nat) :
    Ok (taskyield (.fdtask v)) s fun _ s' => Turned t s' :=
  (taskyield_spec h hr fun _ => rfl).mono fun _ _ hy => .inr (.inr ⟨_, hy⟩)

theorem fdpolled_spec (h : Inv s) (hr : s.g.taskrunning = some t) {poll : Poll}
    (hpoll : ∀ ts, poll = .events ts → ts.Nodup ∧ ∀ u ∈ ts, Registered s.g u) (v : Option Nat) (now' : Nat) :
    Ok (fdpolled v poll now') s fun _ s' => Turned t s' := by
  cases poll with
  | eintr => exact fdyield_spec h hr v
  | failed => exact ok_modify.mpr (.inl rfl)
  | events ts =>
    obtain ⟨hnd, hreg⟩ := hpoll ts rfl
    simp only [fdpolled, ok_bind, ok_observe, ok_globals]
    refine (fdevents_ok h hnd fun u hu => registered_loc h (hreg u hu)).mono fun _ s₁ hs₁ => ?_
    obtain ⟨h₁, -⟩ := hs₁
    refine (timers_ok (s := s₁.obs (.nsec now')) (inv_note h₁.inv rfl) now' LIBTASK_TIMEOUT).mono ?_
    intro _ s₂ h₂
    have hr₂ : s₂.g.taskrunning = some t := h₂.running.trans (h₁.running.trans hr)
    cases v with
    | none => exact fdyield_spec h₂.inv hr₂ none
    | some fn =>
      have hr₃ : (s₂.obs (.callback fn s₂.g.pool_loop_arg)).g.taskrunning = some t := hr₂
      simp only [ok_bind, ok_globals, ok_observe, ok_running hr₃, ok_setTask]
      refine .inr (.inl ?_)
      simp [State.obs, State.setTask, State.modify, Glob.setTask, Glob.observe, Pc.yields]

theorem fdpoll_spec (h : Inv s) (hr : s.g.taskrunning = some t) {poll : Poll}
    (hpoll : ∀ ts, poll = .events ts → ts.Nodup ∧ ∀ u ∈ ts, Registered s.g u) (v : Option Nat) (now now' : Nat) :
    Ok (fdpoll v now poll now') s fun _ s' => Turned t s' := by
  simp only [fdpoll, ok_bind, ok_head]
  cases (s.m.q .sleeping).head? with
  | none =>
    simp only [ok_bind, ok_observe]
    exact fdpolled_spec (inv_note h rfl) hr hpoll v now'
  | some u =>
    simp only [ok_bind, ok_observe, ok_globals]
    exact fdpolled_spec (inv_note (inv_note h rfl) rfl) hr hpoll v now'

/-- `fdtask(v)` goes on, other than in its callback. -/
theorem fdresume_spec (h : Inv s) (hr : s.g.taskrunning = some t) {v : Option Nat}
    (hp : (s.g.task t).pc = .start ∧ (s.g.task t).startfn = .fdtask v ∨ ∃ n, (s.g.task t).pc = .fdtask v n) {poll : Poll}
    (hpoll : ∀ ts, poll = .events ts → ts.Nodup ∧ ∀ u ∈ ts, Registered s.g u) (now now' : Nat) :
    Ok (resume now poll now') s fun _ s' => Turned t s' := by
  simp only [resume, ok_bind, ok_running hr, ok_globals]
  rcases hp with ⟨hp, hfn⟩ | ⟨n, hp⟩
  · simp only [hp, hfn]
    exact fdyield_spec h hr v
  · simp only [hp]
    split
    · exact fdyield_spec h hr v
    · exact fdpoll_spec h hr hpoll v now now'

theorem yields_step (h : Inv s) (hm : s.g.phase = .main → s.g.taskrunning = none) (hen : Enabled s.g e)
    (hs : (code e).onPlaces s = .ok ((), s')) (hy : CallsYield t s.g s'.g) :
    ∃ us, Yielded t us s' ∧ (e = .taskyield → us = s.m.q .taskrunqueue) := by
  obtain ⟨hr, hph, hlive, hpc⟩ := hy
  have hat := at_running h hr
  have hturned : Turned t s' → e ≠ .taskyield → ∃ us, Yielded t us s' ∧ (e = .taskyield → us = s.m.q .taskrunqueue) := by
    intro ht he
    obtain ⟨us, hus⟩ := (ht.resolve_left hph).resolve_left hpc
    exact ⟨us, hus, fun h => absurd h he⟩
  by_cases happ : (s.g.task t).pc = .app
  · cases did h hen hs with
    | turn _ hr' _ => cases hr.symm.trans hr'
    | exit u _ hu hx _ =>
      obtain rfl : t = u := Option.some.inj (hr.symm.trans hu.2.1)
      rw [hx.live, update_self] at hlive
      cases hlive
    | shutdown u fn g _ hu _ _ hx _ _ =>
      obtain rfl : t = u := Option.some.inj (hr.symm.trans hu.2.1)
      rw [hx.live, update_self] at hlive
      cases hlive
    | call u hc hu _ _ _ hgoes _ =>
      obtain rfl : t = u := Option.some.inj (hr.symm.trans (hu.resolve_right fun hd => by cases hr.symm.trans hd.1))
      have hstops : e.stops (s'.g.task t).pc := hgoes.resolve_left fun he => by
        rw [he, happ] at hpc
        exact hpc rfl
      cases e with
      | taskyield =>
        have hspec := taskyield_spec h hr (k := .taskyield) fun _ => rfl
        exact ⟨_, hspec.result hs, fun _ => rfl⟩
      | callback r =>
        refine hturned ?_ (by simp)
        obtain ⟨w, hw, fn, hfn⟩ := hen
        obtain rfl : t = w := Option.some.inj (hr.symm.trans hw.2.1)
        have hspec : Ok (code (.callback r)) s fun _ s' => Turned t s' := by
          simp only [code, ok_bind, ok_running hr, ok_globals, hfn, fdcallback, if_neg (show ¬ r = -1 from hc)]
          exact fdyield_spec h hr (some fn)
        exact hspec.result hs
      | resume now poll now' =>
        obtain ⟨-, ⟨w, hw, hne⟩, -⟩ := hen
        obtain rfl : t = w := Option.some.inj (hr.symm.trans hw)
        exact absurd happ hne
      | taskswitch => exact absurd (congrArg Pc.yields hstops) hpc
      | taskdelay ms now a => exact absurd (congrArg Pc.yields hstops) hpc
      | fdwait now a => exact absurd (congrArg Pc.yields hstops) hpc
      | qlock l => exact absurd (congrArg Pc.yields hstops) hpc
      | rlock l => exact absurd (congrArg Pc.yields hstops) hpc
      | wlock l => exact absurd (congrArg Pc.yields hstops) hpc
      | tasksleep r => exact absurd (congrArg Pc.yields hstops) hpc
      | chanalt a xs r1 r2 => exact absurd (congrArg Pc.yields hstops) hpc
      | _ => exact absurd hstops id
  · obtain ⟨now, poll, now', rfl⟩ := resumes hm hr happ hen
    refine hturned ?_ (by simp)
    have hland : Lands (s.g.task t) (s'.g.task t).pc :=
      (all_onPlaces (Q := fun _ g' => Lands (s.g.task t) (g'.task t).pc ∨ g'.phase = .exited) hs
        (lands_resume hat now poll now')).resolve_right hph
    have hfd : ∀ v, (s.g.task t).pc = .start ∧ (s.g.task t).startfn = .fdtask v ∨ (∃ n, (s.g.task t).pc = .fdtask v n) →
        Turned t s' := fun v hv => (fdresume_spec h hr hv hen.2.2 now now').result hs
    generalize (s'.g.task t).pc = k at hland hpc
    cases hland with
    | app => exact absurd rfl hpc
    | qlock l r _ => exact absurd rfl hpc
    | fdtask v n hv => exact hfd v hv

end

/-! ## Runs -/

section
variable {s s' : St} {t : TaskPtr} {e : Ev} {us : List TaskPtr}

/-- A `taskyield` begins a round. -/
theorem Yielded.round {k : Pc} {n : BitVec 32} (h : Yielded t us s) (hk : (s.g.task t).pc = k) (hn : k.yields = some n)
    (hph : s.g.phase ≠ .main) (hl : s.g.live t = true) : Round t k n us s [] where
  count := by
    have hpc := h.pc
    rw [hk, hn] at hpc
    rw [← Option.some.inj hpc]
    exact (BitVec.add_zero n).symm
  phase := hph
  live := hl
  pc := hk
  place := .inl ⟨by rw [h.off]; nofun, h.ready, us, [], rfl, h.queue, fun _ => ⟨h.off, rfl⟩⟩

/-- When the `fdtask` yields in the step, fewer than `INT_MAX` other tasks are queued. -/
def Brief (g g' : Glob) : Prop :=
  ∀ t v n, CallsYield t g g' → (g'.task t).pc = .fdtask v n → g'.queued ≤ 2 ^ 31 - 1

/-- An `fdtask` in its loop is in a round. -/
structure Loops (s : St) : Prop where
  main : s.g.phase = .main → s.g.taskrunning = none
  round : s.g.phase ≠ .exited → ∀ t v n, s.g.live t = true → (s.g.task t).pc = .fdtask v n →
    ∃ us new, us.length < 2 ^ 31 - 1 ∧ Round t (.fdtask v n) n us s new

theorem loops_step (h : Inv s) (hl : Loops s) (hen : Enabled s.g e) (hs : (code e).onPlaces s = .ok ((), s')) (h' : Inv s')
    (hb : Brief s.g s'.g) : Loops s' where
  main := (did h hen hs).main hl.main
  round := by
    intro hph t v n hlive hpc
    have hph' : s.g.phase = .loop ∨ s.g.phase = .main := (enabled_phase hen).symm
    by_cases hr : s.g.taskrunning = some t
    · have hy : CallsYield t s.g s'.g := ⟨hr, hph, hlive, by rw [hpc]; nofun⟩
      obtain ⟨us, hus, -⟩ := yields_step h hl.main hen hs hy
      have hqueued : s'.g.queued ≤ 2 ^ 31 - 1 := hb t v n hy hpc
      rw [queued_eq h', hus.queue, List.length_append, List.length_singleton] at hqueued
      refine ⟨us, [], by omega, hus.round hpc rfl (fun hm => ?_) hlive⟩
      exact nomatch hr.symm.trans (hl.main ((did h hen hs).phase hm))
    · rcases (did h hen hs).other hr hlive with ⟨hlive', hpc'⟩ | ⟨-, hpc'⟩
      · have hph' : s.g.phase ≠ .exited := by
          rcases hph' with hp | hp <;> rw [hp] <;> nofun
        obtain ⟨us, new, hus, hround⟩ := hl.round hph' t v n hlive' (hpc'.symm.trans hpc)
        obtain ⟨more, -, hround'⟩ := round_step h hround hr hen hs h'
        exact ⟨us, more ++ new, hus, hround'⟩
      · exact nomatch hpc'.symm.trans hpc

/-- `t` runs again. -/
theorem Round.done {k : Pc} {n : BitVec 32} {new : List Obs} (h : Round t k n us s new) (hr : s.g.taskrunning = some t)
    (hus : us.length < 2 ^ 31 - 1) : yielded s.g n = us.length ∧ (us = [] → s.m.q .taskrunqueue = []) := by
  obtain ⟨-, hds, hq⟩ := h.place.resolve_left fun hb => hb.off hr
  have hc := h.count
  rw [hds, List.length_append] at hc
  exact ⟨yielded_eq hus hc, hq⟩

theorem Round.turns {k : Pc} {n : BitVec 32} {new : List Obs} (h : Round t k n us s new) :
    turns new <+: us ++ [t] ∧ (s.g.taskrunning = some t ↔ Sched.turns new = us ++ [t]) := by
  rcases h.place with hb | ⟨hr, hds, -⟩
  · obtain ⟨vs, rest, hus, -⟩ := hb.queue
    refine ⟨⟨vs ++ [t], by rw [hus, List.append_assoc]⟩, fun hr => absurd hr hb.off, fun he => ?_⟩
    have hlen := congrArg List.length he
    rw [hus] at hlen
    simp at hlen
  · exact ⟨by rw [hds], fun _ => hds, fun _ => hr⟩

theorem taskyieldresume_ok (hr : s.g.taskrunning = some t) {n : BitVec 32} (hp : (s.g.task t).pc = .taskyield n)
    (now : Nat) (poll : Poll) (now' : Nat) : Ok (resume now poll now') s fun _ s' =>
      s'.g.log = .ret t (yielded s.g n) :: s.g.log := by
  simp only [resume, ok_bind, ok_running hr, ok_globals, hp, ok_observe, ok_setTask]
  rfl

end

theorem loops_start {s : State Glob Heap} (h : Starts s) (c : BitVec 32) : Loops ⟨(s.wound c).g, Places.empty⟩ := by
  obtain ⟨rendezl, size, junk, mem, -, rfl⟩ := h
  exact ⟨fun _ => rfl, fun _ t v n hl => nomatch hl⟩

theorem linked_wound {s : State Glob Heap} {p : Places} (h : Linked s p) (c : BitVec 32) : Linked (s.wound c) p where
  inv := inv_modify h.inv (f := fun g => { g with tasknswitch := c }) fun _ => rfl
  rep := h.rep

theorem onHeap_running {s : State Glob Heap} {t : TaskPtr} (hr : s.g.taskrunning = some t) {β : Type} (f : TaskPtr → Lib β) :
    (running >>= f).onHeap s = (f t).onHeap s := by
  have hglob : ∀ h : Glob → Lib TaskPtr, ((globals >>= h) >>= f).onHeap s = (h s.g >>= f).onHeap s := fun _ => rfl
  rw [running, hglob, hr]
  rfl

/-- `while(taskyield() > 0);`, and `epoll_wait` behind it. -/
theorem fdtask_resume {s : State Glob Heap} {t : TaskPtr} {v : Option Nat} {n : BitVec 32} (hr : s.g.taskrunning = some t)
    (hpc : (s.g.task t).pc = .fdtask v n) (now : Nat) (poll : Poll) (now' : Nat) :
    (code (.resume now poll now')).onHeap s =
      (if 0 < yielded s.g n then taskyield (.fdtask v) else fdpoll v now poll now').onHeap s := by
  have hglob : ∀ f : Glob → Lib Unit, (globals >>= f).onHeap s = (f s.g).onHeap s := fun _ => rfl
  simp only [code, resume]
  rw [onHeap_running hr, hglob]
  simp only [hpc]

/-- A task that calls `taskyield` gets on when those that were queued each had their turn, in
    order, and no other; the call returns how many they were. `fdtask` leaves its loop, and calls
    `epoll_wait`, only when no task is ready. -/
theorem round_robin :
    (∀ (s s₂ : State Glob Heap) (c : BitVec 32) (t : TaskPtr) (e : Ev), Reach s → Enabled (s.wound c).g e →
      (code e).onHeap (s.wound c) = .ok ((), s₂) → CallsYield t s.g s₂.g → ∃ us,
      IsDll s₂.m.next s₂.m.prev (s₂.m.list .taskrunqueue).head (s₂.m.list .taskrunqueue).tail (us ++ [t]) ∧
      (e = .taskyield → IsDll s.m.next s.m.prev (s.m.list .taskrunqueue).head (s.m.list .taskrunqueue).tail us) ∧
      (us.length < 2 ^ 31 - 1 → ∀ tr s₃, Run s₂ tr s₃ → (∀ x ∈ tr, x.g.taskrunning ≠ some t) →
        ∃ new, s₃.g.log = new ++ s₂.g.log ∧ turns new <+: us ++ [t] ∧
          (s₃.g.taskrunning = some t ↔ turns new = us ++ [t]) ∧
          (s₃.g.taskrunning = some t → (s₃.g.task t).pc = (s₂.g.task t).pc ∧ (s₃.g.task t).pc.yields = some c ∧
            yielded s₃.g c = us.length ∧ ((s₃.g.task t).pc = .taskyield c → ∀ now poll now' s₄,
              Enabled s₃.g (.resume now poll now') → (code (.resume now poll now')).onHeap s₃ = .ok ((), s₄) →
              s₄.g.log = .ret t us.length :: s₃.g.log)))) ∧
    ∀ (s₀ s : State Glob Heap) (c : BitVec 32) (tr : List Step), Starts s₀ → Run (s₀.wound c) tr s → (∀ x ∈ tr, Brief x.g x.g') →
      ∀ t v n, s.g.phase = .loop → s.g.taskrunning = some t → (s.g.task t).pc = .fdtask v n →
      (∀ now poll now', (code (.resume now poll now')).onHeap s =
        (if 0 < yielded s.g n then taskyield (.fdtask v) else fdpoll v now poll now').onHeap s) ∧
      (yielded s.g n ≤ 0 →
        IsDll s.m.next s.m.prev (s.m.list .taskrunqueue).head (s.m.list .taskrunqueue).tail []) := by
  refine ⟨fun s s₂ c t e h hen hs hy => ?_, fun s₀ s c tr h₀ h hb t v n hph hr hpc => ⟨fun now poll now' => ?_, fun hle => ?_⟩⟩
  · obtain ⟨p, hl⟩ := linked_reach h
    have hlw := linked_wound hl c
    obtain ⟨p₂, hr₂, hl₂⟩ := hlw.step hen hs
    obtain ⟨us, hyd, hus⟩ := yields_step (s := ⟨(s.wound c).g, p⟩) hlw.inv (main_reach (s := s) h) hen hr₂ hy
    obtain ⟨hr, hx, hlive, hpc⟩ := hy
    have hdid := did hlw.inv hen hr₂
    refine ⟨us, hyd.queue ▸ hl₂.rep .taskrunqueue, fun he => hus he ▸ hl.rep .taskrunqueue, fun hlen tr s₃ h₃ htr => ?_⟩
    have hcount : s₂.g.tasknswitch = c := hdid.switches (by rw [show (s.wound c).g.taskrunning = some t from hr]; nofun)
    have hn : (s₂.g.task t).pc.yields = some c := hcount ▸ hyd.pc
    have hph₂ : s₂.g.phase ≠ .main := fun hm => nomatch hr.symm.trans (main_reach h (hdid.phase hm))
    obtain ⟨p₃, hl₃, new, hlog, hround⟩ := Run.holds (C := fun x => x.g.taskrunning ≠ some t)
      (P := fun _ s => ∃ new, s.g.log = new ++ s₂.g.log ∧ Round t (s₂.g.task t).pc c us s new) hl₂
      ⟨[], rfl, hyd.round rfl hn hph₂ hlive⟩ (fun {_ s s' e} hi hP hen hs hi' hoff => by
        obtain ⟨new, hlog, hround⟩ := hP
        obtain ⟨more, hlog', hround'⟩ := round_step hi hround hoff hen hs hi'
        exact ⟨more ++ new, by rw [hlog', hlog, List.append_assoc], hround'⟩) h₃ htr
    refine ⟨new, hlog, hround.turns.1, hround.turns.2, fun hr₃ => ?_⟩
    have hval := (hround.done hr₃ hlen).1
    refine ⟨hround.pc, by rw [hround.pc]; exact hn, hval, fun hk now poll now' s₄ hen₄ hs₄ => ?_⟩
    obtain ⟨p₄, hr₄, -⟩ := hl₃.step hen₄ hs₄
    have hlog₄ : s₄.g.log = _ := (taskyieldresume_ok (s := ⟨s₃.g, p₃⟩) hr₃ hk now poll now').result hr₄
    rw [hlog₄]
    exact congrArg (fun v => Obs.ret t v :: s₃.g.log) hval
  · exact fdtask_resume hr hpc now poll now'
  · obtain ⟨p, hl, hloops⟩ := Run.holds (P := fun _ s => Loops s) (C := fun x => Brief x.g x.g') (linked_wound (linked_start h₀) c)
      (loops_start h₀ c) (fun h hl hen hs h' hb => loops_step h hl hen hs h' hb) h hb
    obtain ⟨us, new, hus, hround⟩ := hloops.round (by rw [hph]; nofun) t v n (hl.inv.here hr).1 hpc
    obtain ⟨hval, hq⟩ := hround.done hr hus
    have hval : yielded s.g n = us.length := hval
    have hnil : us = [] := List.length_eq_zero_iff.mp (by omega)
    exact hq hnil ▸ hl.rep .taskrunqueue

/-- Task 1 yielded to task 2, which waits. -/
def yielding : List Ev := [.taskscheduler, .resume 0 .eintr 0, .taskswitch, .taskscheduler]

/-- The `fdtask` 2 is started, and task 1 sleeps; the `fdtask` had two turns. -/
def polling : List Ev :=
  [.taskcreate 1, .startfdtask none 0 2, .taskscheduler, .resume 0 .eintr 0, .taskyield, .taskscheduler, .resume 0 .eintr 0,
    .taskscheduler, .resume 0 .eintr 0, .taskdelay 10 0 3, .taskscheduler, .resume 0 .eintr 0, .taskscheduler]

/-- The counter wraps while task 1 waits for task 2, and while the `fdtask` does. -/
theorem round_robin_wraps :
    (∃ tr s, Run ((two.wound (-1)).next .taskyield) tr s ∧ s.g.taskrunning = some 1 ∧ yielded s.g (-1) = (1 : Nat)) ∧
    ∃ tr s, Run (boot.wound (-1)) tr s ∧ s.g.taskrunning = some 2 ∧ s.g.tasknswitch = 4 ∧
      IsDll s.m.next s.m.prev (s.m.list .taskrunqueue).head (s.m.list .taskrunqueue).tail [] := by
  constructor
  · obtain ⟨p, hl⟩ := linked_reach reach_two
    have hlw := linked_wound hl (-1)
    have hen : Enabled (two.wound (-1)).g .taskyield := enabled_of_can (by decide +kernel)
    obtain ⟨s₂, p₂, hs, hrep, hinv⟩ := ok_onHeap (step_places hlw.inv hen) hlw.rep
    have hnext : (two.wound (-1)).next .taskyield = s₂ := by
      rw [State.next, show (code .taskyield).onHeap (two.wound (-1)) = _ from hs]
    obtain ⟨us, hd, -, hround⟩ := round_robin.1 two s₂ (-1) 1 .taskyield reach_two hen hs (by
      rw [← hnext]
      exact ⟨by decide +kernel, by decide +kernel, by decide +kernel, by decide +kernel⟩)
    have hus : us = [2] := by
      rw [← hnext] at hd
      have hhead := hd.head
      cases us with
      | nil => exact absurd hhead (by decide +kernel)
      | cons a us =>
        obtain rfl : 2 = a := Option.some.inj ((show _ = some 2 by decide +kernel).symm.trans hhead)
        cases us with
        | nil => rfl
        | cons b us =>
          have hb := (hd.links [] 2 (b :: us ++ [1]) rfl).2
          obtain rfl : 1 = b := Option.some.inj ((show _ = some 1 by decide +kernel).symm.trans hb)
          have hnd := hd.nodup
          simp at hnd
    subst hus
    have hrun := Run.refl.plays ⟨hinv, hrep⟩ yielding (by rw [← hnext]; decide +kernel)
    obtain ⟨new, -, -, -, hval⟩ := hround (by decide) _ _ hrun (by
      rw [← hnext, ← List.forall_iff_forall_mem]
      decide +kernel)
    rw [← hnext] at hrun hval
    exact ⟨_, _, hrun, by decide +kernel, (hval (by decide +kernel)).2.2.1⟩
  · have h := Run.refl.plays (linked_wound (linked_start starts_boot) (-1)) polling (by decide +kernel)
    have hbrief : ∀ x ∈ (boot.wound (-1)).steps polling [], x.g'.queued ≤ 2 ^ 31 - 1 := by
      rw [← List.forall_iff_forall_mem]
      decide +kernel
    have hpc : (((polling.foldl State.next (boot.wound (-1))).g.task 2).pc) = .fdtask none 3 := by decide +kernel
    have hq := (round_robin.2 boot _ (-1) _ starts_boot h (fun x hx _ _ _ _ _ => hbrief x hx) 2 none 3 (by decide +kernel)
      (by decide +kernel) hpc).2 (by decide +kernel)
    exact ⟨_, _, h, by decide +kernel, by decide +kernel, hq⟩

end Libtask.Sched
