/-
  Libtask.Primes.Ends — the sieve ends.

  `goes_on`: until it calls `taskexitall`, there is a next step, whoever's turn it is, and it does
  not fail, whatever `rand` and `malloc` return.

  `always_ends`: where the primes that the chain can hold fit an `int`, no run is longer than
  `budget`. Each step adds to `effort`: the numbers that were sent and received, the tasks that wait,
  the channels, and how far the running task has come. The numbers are few, as the chain has room
  for few (Libtask.Primes.Stalls), and the rest of it is bounded by the number of channels.
-/

import Mathlib.Algebra.BigOperators.Group.Finset.Basic
import Mathlib.Algebra.Order.BigOperators.Group.Finset
import Mathlib.Data.Set.Card
import Libtask.Primes.Stalls

namespace Libtask.Primes

open Function (update update_self update_of_ne)
open Libtask.Lib (ok_of_bind)
open Libtask.Lib.Sieve
open Libtask.Sched (State Glob Heap Runs Enabled Begins)
open Libtask.Chan (InOp Called gave took held offered)

/-- Whose turn it is. -/
def Sys.Next (y : Sys) : Ev → Prop
  | .taskscheduler => y.s.g.taskrunning = none
  | .resume => ∃ t, y.s.g.taskrunning = some t ∧ (y.s.g.task t).pc ≠ .app
  | .run a _ _ => (∃ t, Runs y.s.g t) ∧ y.s.g.live a = false

/-- The primes up to `goal`. -/
def upTo (goal : Int) : Nat := (below (goal.toNat + 1)).length

/-- The numbers up to here may be fed. -/
noncomputable def limit (goal buffer : Int) : Nat :=
  Nat.nth Nat.Prime (upTo goal + (upTo goal + 1) * (buffer.toNat + 1))

structure Kept (goal buffer : Int) (y : Sys) : Prop where
  core : Core y.s
  sieve : Before y ∨ ∃ n ps, Sieving goal y n ps
  staffed : Staffed buffer y
  exited : y.exited = none ∨ y.exited = some 0

section
variable {goal buffer : Int} {y y' : Sys} {n : Nat} {ps : List Nat} {s s' : State Glob Heap} {t u w a : TaskPtr} {k k' : Chan.St} {c : Nat}
  {op : Chan.AltOp} {snd rcv : Option TaskPtr} {l : At} {x : Place} {e : Ev}

/-! ## No step fails -/

theorem chanop_ok (h : Core s) (hr : Runs s.g t) (hop : op = .CHANSND ∨ op = .CHANRCV) (c r1 r2 : Nat) :
    ∃ s', (Sched.code (.chanalt t (Chan._chanop c op (some (val t)) true) r1 r2)).onHeap s = .ok ((), s') := by
  have hcall := Chan.chanop_callable (c := c) h.solo hop (h.idle hr).1
  exact Sched.step_ok h.reach ⟨t, hr, ⟨hcall.idle, hcall.free, hcall.ends⟩⟩

theorem lib_of_ok {e : Sched.Ev} (h : ∃ s', (Sched.code e).onHeap y.s = .ok ((), s')) :
    ∃ s', y.lib e = .ok { y with s := s' } := by
  obtain ⟨s', hs⟩ := h
  exact ⟨s', by rw [Sys.lib, hs]⟩

theorem chanrecvul_of (h : Core y.s) (hr : Runs y.s.g t) (c r1 r2 : Nat) :
    ∃ s', y.chanrecvul t c r1 r2 = .ok { y with s := s' } :=
  lib_of_ok (chanop_ok h hr (.inr rfl) c r1 r2)

theorem chansendul_of (h : Core y.s) (hr : Runs y.s.g t) (c v r1 r2 : Nat) :
    ∃ s', y.chansendul t c v r1 r2 = .ok { y with s := s' } := by
  rw [Sys.chansendul, store_eq]
  have hcore : Core (stored y.s (val t) (Libtask.Lib.Words.bytes sizeofUlong v)) :=
    core_stored h hr (Nat.le_refl _) (by simp [sizeofUlong])
  obtain ⟨s', hs⟩ := chanop_ok hcore hr (.inl rfl) c r1 r2
  refine ⟨s', ?_⟩
  show Sys.lib _ _ = _
  rw [Sys.lib]
  exact hs ▸ rfl

theorem taskcreate_of (h : Core y.s) (hr : Runs y.s.g t) (ha : y.s.g.live a = false) (c : Nat) :
    ∃ s', y.taskcreate a c = .ok ({ y with s := s' }.goto a (.first c) false) := by
  obtain ⟨s', hs⟩ := Sched.step_ok h.reach (e := .taskcreate a) ⟨.inr ⟨t, hr⟩, ha⟩
  exact ⟨s', by rw [Sys.taskcreate, Sys.lib, hs]; rfl⟩

theorem Kept.run_ok (h : Kept goal buffer y) (hr : Runs y.s.g t) (ha : y.s.g.live a = false) (r1 r2 : Nat) :
    ∃ y', y.run goal t a r1 r2 = .ok y' := by
  obtain ⟨l, inside, hl⟩ : ∃ l inside, y.place t = ⟨l, inside⟩ := ⟨_, _, rfl⟩
  unfold Sys.run
  rw [hl]
  cases l with
  | taskmain =>
    obtain ⟨s', hs⟩ := taskcreate_of (y := { y with out := y.out ++ [.goal goal], nchan := y.nchan + 1 }) h.core hr ha y.nchan
    exact ⟨_, by dsimp only; rw [hs]; rfl⟩
  | feed c i =>
    cases inside with
    | false =>
      obtain ⟨s', hs⟩ := chansendul_of (y := { y with fed := y.fed ++ [i] }) h.core hr c (ulong i) r1 r2
      exact ⟨_, by dsimp only; rw [hs]; rfl⟩
    | true => exact ⟨_, rfl⟩
  | first c =>
    cases inside with
    | false =>
      obtain ⟨s', hs⟩ := chanrecvul_of h.core hr c r1 r2
      exact ⟨_, by dsimp only; rw [hs]; rfl⟩
    | true =>
      dsimp only
      split
      · exact ⟨_, rfl⟩
      · obtain ⟨s', hs⟩ := taskcreate_of (y := { y with
          out := if quiet = 0 then y.out ++ [.number (int (y.received t))] else y.out
          nchan := y.nchan + 1 }) h.core hr ha y.nchan
        exact ⟨_, by rw [hs]; rfl⟩
  | next c nc p =>
    cases inside with
    | false =>
      obtain ⟨s', hs⟩ := chanrecvul_of h.core hr c r1 r2
      exact ⟨_, by dsimp only; rw [hs]; rfl⟩
    | true =>
      -- filters have primes, so `p` is not 0
      have hp : p ≠ 0 := by
        have hlive := (h.core.idle hr).2
        rcases h.sieve with hy | ⟨n, ps, hy⟩
        · exact nomatch (hy.stmt t hlive).symm.trans hl
        · have hfits := hy.fits t hlive
          rw [hl] at hfits
          obtain ⟨-, q, rfl, hq⟩ := hfits
          obtain ⟨m, hm, -⟩ := chain_given hy.chain ps.length (Nat.le_refl _)
          rw [List.take_length] at hm
          have hmem : q ∈ below m := hm ▸ List.mem_of_getElem? hq
          have := (mem_below.mp hmem).2.two_le
          omega
      dsimp only
      rw [if_neg hp]
      split
      · exact ⟨_, rfl⟩
      · exact ⟨_, rfl⟩
  | pass c nc p i =>
    cases inside with
    | false =>
      obtain ⟨s', hs⟩ := chansendul_of h.core hr nc (ulong i) r1 r2
      exact ⟨_, by dsimp only; rw [hs]; rfl⟩
    | true => exact ⟨_, rfl⟩

theorem Kept.step_ok (h : Kept goal buffer y) (hx : y.exited = none) (hn : y.Next e) : ∃ y', y.step goal e = .ok y' := by
  have hphase : ∀ {t}, y.s.g.taskrunning = some t → y.s.g.phase = .loop := fun hr =>
    h.staffed.begins.phase.resolve_left fun hm => nomatch (Sched.main_reach h.core.reach hm).symm.trans hr
  unfold Sys.step
  rw [if_neg (not_not.mpr hx)]
  cases e with
  | taskscheduler =>
    have hr : y.s.g.taskrunning = none := hn
    rw [hr]
    dsimp only
    rw [if_pos h.staffed.begins.phase]
    obtain ⟨s', hs⟩ := lib_of_ok (Sched.step_ok h.core.reach (e := .taskscheduler) ⟨h.staffed.begins.phase, hr⟩)
    exact ⟨_, hs⟩
  | resume =>
    obtain ⟨t, hr, hpc⟩ := hn
    rw [hr]
    dsimp only
    rw [if_pos ⟨hphase hr, hpc⟩]
    obtain ⟨s', hs⟩ := lib_of_ok (Sched.step_ok h.core.reach (e := .resume 0 .eintr 0) ⟨hphase hr, ⟨t, hr, hpc⟩, nofun⟩)
    exact ⟨_, hs⟩
  | run a r1 r2 =>
    obtain ⟨⟨t, hr⟩, ha⟩ := hn
    rw [hr.2.1]
    dsimp only
    rw [if_pos ⟨hr, ha⟩]
    exact h.run_ok hr ha r1 r2

theorem Kept.next (h : Kept goal buffer y) : ∃ e, y.Next e := by
  obtain ⟨p, hl⟩ := Sched.linked_reach h.core.reach
  cases hr : y.s.g.taskrunning with
  | none => exact ⟨.taskscheduler, hr⟩
  | some t =>
    by_cases hpc : (y.s.g.task t).pc = .app
    · have hphase := h.staffed.begins.phase.resolve_left fun hm => nomatch (Sched.main_reach h.core.reach hm).symm.trans hr
      obtain ⟨a, ha, -⟩ := Sched.exists_dead hl.inv.base.slots none
      exact ⟨.run a 0 0, ⟨t, hphase, hr, hpc⟩, ha⟩
    · exact ⟨.resume, t, hr, hpc⟩

/-! ## Runs -/

theorem Did.exits (h : Did goal y y') : y'.exited = y.exited ∨ y'.exited = some 0 := by
  cases h with
  | exited t c hr hl hp he => rw [he]; exact .inr rfl
  | scheduled s' hen hs he => rw [he]; exact .inl rfl
  | resumed t s' hr hen hs he => rw [he]; exact .inl rfl
  | began t a s' hr ha hl hs he => rw [he]; exact .inl rfl
  | printed t a c s' hr ha hl hp hs he => rw [he]; exact .inl rfl
  | called t l c op r1 r2 s' hr hl hcall hs he => rw [he]; exact .inl rfl
  | returned t l l' hr hl hthen he => rw [he]; exact .inl rfl

theorem kept_init (hb : 0 ≤ buffer ∧ buffer < 2 ^ 31) (hmem : Permits buffer) {junk : Nat → Nat → UInt8} {mem : Nat → UInt8}
    (hs : (Sched.code (.taskcreate a)).onHeap (blank buffer junk mem) = .ok ((), s')) : Kept goal buffer (main s') := by
  obtain ⟨hcore, hy⟩ := before_init hb hmem hs
  have hblank := core_blank hb hmem junk mem
  have hen : Enabled (blank buffer junk mem).g (.taskcreate a) := ⟨.inl rfl, rfl⟩
  obtain ⟨p, hl⟩ := Sched.linked_reach hblank.reach
  obtain ⟨hbegins, -, -⟩ := Sched.taskcreate_begins hl ⟨.inl rfl, nofun⟩ hen hs
  obtain ⟨-, hchan, hlive⟩ := core_taskcreate hblank hen.1 hen.2 hs
  refine ⟨hcore, .inl hy, ⟨hbegins, fun c => ?_, nofun, nofun, fun _ => ⟨⟨a, ?_⟩, fun u => ?_⟩⟩, .inl rfl⟩
  · show (s'.g.chan.chan c).bufsize = _
    rw [hchan]
    show (buffer % 2 ^ 32).toNat = buffer.toNat
    omega
  · show s'.g.live a = true
    rw [hlive]
    exact update_self ..
  · show s'.g.chan.wait u = none
    rw [hchan]
    rfl

theorem kept_step (h : Kept goal buffer y) (hs : y.step goal e = .ok y') (hfit : ∀ i ∈ y'.fed, i < 2 ^ 31) :
    Kept goal buffer y' := by
  obtain ⟨hx, hd⟩ := did hs
  have hboth : Core y'.s ∧ (Before y' ∨ ∃ n ps, Sieving goal y' n ps) := by
    rcases h.sieve with hy | ⟨n, ps, hy⟩
    · exact before_step h.core hy hd
    · obtain ⟨hcore', hy'⟩ := sieving_step h.core hy hx hd hfit
      exact ⟨hcore', .inr hy'⟩
  refine ⟨hboth.1, hboth.2, staffed_step h.core h.sieve h.staffed hd, ?_⟩
  rcases hd.exits with he | he
  · rw [he]
    exact h.exited
  · exact .inr he

theorem kept (hb : 0 ≤ buffer ∧ buffer < 2 ^ 31) (hmem : Permits buffer) (h : Reach goal buffer y)
    (hfit : ∀ i ∈ y.fed, i < 2 ^ 31) : Kept goal buffer y := by
  induction h with
  | init junk mem a s hs => exact kept_init hb hmem hs
  | step e _ hs ih => exact kept_step (ih fun i hi => hfit i ((did hs).2.fed i hi)) hs hfit

/-- In every run in which the numbers fed fit an `int`, until it exits: it is someone's turn, and no
    step of theirs fails. -/
theorem goes_on (hb : 0 ≤ buffer ∧ buffer < 2 ^ 31) (hmem : Permits buffer) (h : Reach goal buffer y)
    (hfit : ∀ i ∈ y.fed, i < 2 ^ 31) (hexit : y.exited = none) :
    (∃ e, y.Next e) ∧ ∀ e, y.Next e → ∃ y', y.step goal e = .ok y' := by
  have hk := kept hb hmem h hfit
  exact ⟨hk.next, fun e => hk.step_ok hexit⟩

/-! ## How many numbers -/

theorem upTo_le (hy : Sieving goal y n ps) : ps.length ≤ upTo goal := by
  obtain ⟨m, hm, -⟩ := chain_given hy.chain ps.length (Nat.le_refl _)
  rw [List.take_length] at hm
  have hsub : ps ⊆ below (goal.toNat + 1) := by
    intro p hp
    have := hy.small p hp
    rw [hm] at hp
    exact mem_below.mpr ⟨by omega, (mem_below.mp hp).2⟩
  have hnodup : ps.Nodup := by
    rw [hm]
    exact List.nodup_range.filter _
  exact (hnodup.subperm hsub).length_le

theorem number_limit (h : Kept goal buffer y) (hy : Sieving goal y n ps) : n + 2 ≤ limit goal buffer := by
  have hbound := chain_bound (sieving_lag h.core hy h.staffed) hy.chain
  have hle := upTo_le hy
  refine hbound.trans (Nat.nth_monotone Nat.infinite_setOfPred_prime ?_)
  have := Nat.mul_le_mul_right (buffer.toNat + 1) (Nat.succ_le_succ hle)
  exact Nat.add_le_add hle this

/-- The next number fed is not greater. -/
theorem fed_step (h : Kept goal buffer y) (hd : Did goal y y') (hlim : limit goal buffer < 2 ^ 31)
    (hfit : ∀ i ∈ y.fed, i < 2 ^ 31) : ∀ i ∈ y'.fed, i < 2 ^ 31 := by
  cases hd with
  | scheduled s' hen hs he => rw [he]; exact hfit
  | resumed t s' hr hen hs he => rw [he]; exact hfit
  | began t a s' hr ha hl hs he => rw [he]; exact hfit
  | printed t a c s' hr ha hl hp hs he => rw [he]; exact hfit
  | exited t c hr hl hp he => rw [he]; exact hfit
  | returned t l l' hr hl hthen he => rw [he]; exact hfit
  | called t l c op r1 r2 s' hr hl hcall hs he =>
    rw [he]
    intro i hi
    rcases List.mem_append.mp hi with hi | hi
    · exact hfit i hi
    · cases l with
      | feed d j =>
        obtain rfl : i = j := List.mem_singleton.mp hi
        have hlive := (h.core.idle hr).2
        rcases h.sieve with hy | ⟨n, ps, hy⟩
        · exact nomatch (hy.stmt t hlive).symm.trans hl
        · have hbound := number_limit h hy
          have hbefore := (hy.follows t hlive).before (.inl (by rw [hl]))
          have hfits := hy.fits t hlive
          rw [hl] at hbefore hfits
          obtain rfl : d = 0 := hfits
          obtain ⟨m, hi, houts⟩ := hbefore
          have houts : gave y.s.g.chan 0 = List.range' 2 m := houts
          have hm : n = m := by simpa [hy.chain.first] using congrArg List.length houts
          omega
      | _ => cases hi

/-! ## Effort -/

/-- The tasks that wait. -/
def waiting (k : Chan.St) : Set TaskPtr := { u | Pends k u }

/-- How often something was sent or received. -/
def moves (k : Chan.St) (m : Nat) : Nat := ∑ c ∈ Finset.range m, ((gave k c).length + (took k c).length)

/-- How far the running task has come. -/
def Sys.stage (y : Sys) : Nat :=
  match y.s.g.taskrunning with
  | none => 0
  | some t => if (y.s.g.task t).pc ≠ .app then 1 else if (y.place t).inside then 2 else 3

noncomputable def Sys.effort (y : Sys) : Nat :=
  5 * moves y.s.g.chan y.nchan + 4 * (waiting y.s.g.chan).ncard + y.nchan + y.stage + if y.exited = none then 0 else 1

/-- No run has more steps. -/
noncomputable def budget (goal buffer : Int) : Nat :=
  10 * ((upTo goal + 1) * limit goal buffer) + 5 * (upTo goal + 2) + 4

theorem stage_app (hr : y.s.g.taskrunning = some t) (hpc : (y.s.g.task t).pc = .app) :
    y.stage = if (y.place t).inside then 2 else 3 := by
  rw [Sys.stage, hr]
  dsimp only
  rw [if_neg (not_not.mpr hpc)]

theorem moves_succ (k : Chan.St) (m : Nat) : moves k m ≤ moves k (m + 1) := by
  rw [moves, moves, Finset.sum_range_succ]
  exact Nat.le_add_right _ _

theorem moves_called (h : Called val k t c op snd rcv k') (hn : (k.chan c).elemsize = 8) {m : Nat} (hc : c < m) :
    moves k' m = moves k m + snd.toList.length + rcv.toList.length := by
  have hterm : ∀ d, (gave k' d).length + (took k' d).length =
      ((gave k d).length + (took k d).length) + if d = c then snd.toList.length + rcv.toList.length else 0 := by
    intro d
    rw [h.gave, h.took hn, List.length_append, List.length_append]
    by_cases hd : d = c
    · rw [if_pos hd, if_pos hd, if_pos hd]
      cases snd <;> cases rcv <;> simp <;> omega
    · simp [hd]
  rw [moves, moves, Finset.sum_congr rfl fun d _ => hterm d, Finset.sum_add_distrib,
    Finset.sum_ite_eq' (Finset.range m) c, if_pos (Finset.mem_range.mpr hc), Nat.add_assoc]

theorem waiting_finite (hcore : Core s) : (waiting s.g.chan).Finite := by
  obtain ⟨p, hl⟩ := Sched.linked_reach hcore.reach
  refine ((Set.finite_lt_nat s.g.nalltask).image s.g.alltask).subset ?_
  intro u hu
  exact (hl.inv.base.slots.live u).mp (hcore.live hu.1)

theorem ncard_option (o : Option TaskPtr) : ({u | o = some u} : Set TaskPtr).ncard = o.toList.length := by
  cases o with
  | none => simp
  | some v => simp

/-- A call ends with `t` waiting, or takes from those that wait only who had a part in it. -/
theorem waiting_called (h : Called val k t c op snd rcv k') (hop : op = .CHANSND ∨ op = .CHANRCV) (hidle : k.wait t = none)
    (hfin : (waiting k).Finite) (hfin' : (waiting k').Finite) :
    Pends k' t ∧ snd = none ∧ rcv = none ∧ (waiting k').ncard = (waiting k).ncard + 1 ∨
      k'.wait t = none ∧ (waiting k).ncard + 1 ≤ (waiting k').ncard + (snd.toList.length + rcv.toList.length) := by
  have hother : ∀ u, u ≠ t → (Pends k' u ↔ Pends k u ∧ snd ≠ some u ∧ rcv ≠ some u) := by
    intro u hut
    unfold Pends
    rw [h.wait u hut, h.woken u hut]
    tauto
  have hself : ∀ {u}, Pends k u → u ≠ t := by
    rintro u hu rfl
    exact hu.1 hidle
  rcases h.self with ⟨hin, rfl, rfl⟩ | ⟨hdone, hsnd, hrcv⟩
  · have hp : Pends k' t := ⟨by rw [hin.wait]; nofun, hin.woken⟩
    have hset : waiting k' = insert t (waiting k) := by
      ext u
      rw [Set.mem_insert_iff]
      by_cases hut : u = t
      · subst hut
        exact iff_of_true hp (.inl rfl)
      · show Pends k' u ↔ u = t ∨ Pends k u
        rw [hother u hut]
        exact ⟨fun hu => .inr hu.1, fun hu => ⟨hu.resolve_left hut, nofun, nofun⟩⟩
    have hnot : t ∉ waiting k := fun ht => hself ht rfl
    exact .inl ⟨hp, rfl, rfl, by rw [hset, Set.ncard_insert_of_notMem hnot hfin]⟩
  · refine .inr ⟨hdone, ?_⟩
    -- besides `t` there is at most one party
    have hpart : ∀ o : Option TaskPtr, (∀ u, Pends k u → Pends k' u ∨ o = some u) →
        (waiting k).ncard ≤ (waiting k').ncard + o.toList.length := by
      intro o ho
      have hsub : waiting k ⊆ waiting k' ∪ {u | o = some u} := ho
      have hfo : ({u | o = some u} : Set TaskPtr).Finite := by
        cases o with
        | none => simp
        | some v => exact (Set.finite_singleton v).subset fun u hu => (Option.some.inj hu).symm
      have h1 := Set.ncard_le_ncard hsub (hfin'.union hfo)
      have h2 := Set.ncard_union_le (waiting k') {u | o = some u}
      rw [ncard_option] at h2
      exact h1.trans h2
    rcases hop with rfl | rfl
    · obtain rfl := hsnd rfl
      have := hpart rcv fun u hu => by
        rw [hother u (hself hu)]
        by_cases hr : rcv = some u
        · exact .inr hr
        · exact .inl ⟨hu, fun he => hself hu (Option.some.inj he).symm, hr⟩
      simp only [Option.toList_some, List.length_singleton]
      omega
    · obtain rfl := hrcv rfl
      have := hpart snd fun u hu => by
        rw [hother u (hself hu)]
        by_cases hr : snd = some u
        · exact .inr hr
        · exact .inl ⟨hu, hr, fun he => hself hu (Option.some.inj he).symm⟩
      simp only [Option.toList_some, List.length_singleton]
      omega

theorem effort_called (h : Kept goal buffer y) (hr : Runs y.s.g t) (hl : y.place t = ⟨l, false⟩) (hcall : l.call = some (c, op))
    {r1 r2 : Nat}
    (hs : (Sched.code (.chanalt t (Chan._chanop c op (some (val t)) true) r1 r2)).onHeap (entering y.s t l op) = .ok ((), s')) :
    y.effort < Sys.effort { y with s := s', fed := y.fed ++ l.feeds, place := update y.place t ⟨l, true⟩ } := by
  have hop := At.call_op hcall
  obtain ⟨mem, he, hcore₁, -, -⟩ := entering_spec h.core hr hop l
  rw [he] at hcore₁ hs
  obtain ⟨p, hlink⟩ := Sched.linked_reach hcore₁.reach
  have hcallable := Chan.chanop_callable (c := c) hcore₁.solo hop (hcore₁.idle hr).1
  have hen : Enabled { y.s.g with chan := { y.s.g.chan with mem := mem } }
      (.chanalt t (Chan._chanop c op (some (val t)) true) r1 r2) := ⟨t, hr, ⟨hcallable.idle, hcallable.free, hcallable.ends⟩⟩
  obtain ⟨hgoes, hwaits⟩ := Sched.chanalt_turn hlink hr hen hs
  obtain ⟨hcore', -, snd, rcv, hc⟩ := core_chanop hcore₁ hr hop hs
  have hmade : c < y.nchan := by
    have hlive := (h.core.idle hr).2
    rcases h.sieve with hy | ⟨n, ps, hy⟩
    · obtain rfl : At.taskmain = l := congrArg Place.stmt ((hy.stmt t hlive).symm.trans hl)
      cases hcall
    · have hfits := hy.fits t hlive
      rw [hl] at hfits
      have : c ≤ ps.length := hfits.call_le hcall
      have := hy.nchan
      omega
  have hmoves : moves s'.g.chan y.nchan = moves y.s.g.chan y.nchan + snd.toList.length + rcv.toList.length :=
    moves_called hc (h.core.size c).1 hmade
  have hcalled := waiting_called hc hop (hcore₁.idle hr).1 (waiting_finite hcore₁) (waiting_finite hcore')
  have hwaiting : Pends s'.g.chan t ∧ snd = none ∧ rcv = none ∧ (waiting s'.g.chan).ncard = (waiting y.s.g.chan).ncard + 1 ∨
      s'.g.chan.wait t = none ∧
        (waiting y.s.g.chan).ncard + 1 ≤ (waiting s'.g.chan).ncard + (snd.toList.length + rcv.toList.length) := hcalled
  have hstage : y.stage = 3 := by
    rw [stage_app hr.2.1 hr.2.2, hl]
    rfl
  unfold Sys.effort
  rw [hstage]
  dsimp only
  rcases hwaiting with ⟨hp, rfl, rfl, hw⟩ | ⟨hdone, hw⟩
  · rw [hmoves, hw]
    simp only [Option.toList_none, List.length_nil]
    omega
  · have hstage' : Sys.stage { y with s := s', fed := y.fed ++ l.feeds, place := update y.place t ⟨l, true⟩ } = 2 := by
      have hrun := hgoes hdone
      rw [stage_app (y := { y with s := s', fed := y.fed ++ l.feeds, place := update y.place t ⟨l, true⟩ }) hrun.2.1 hrun.2.2]
      show (if (update y.place t ⟨l, true⟩ t).inside then 2 else 3) = 2
      rw [update_self]
      rfl
    rw [hstage', hmoves]
    omega

/-- A new channel and a new task. -/
theorem effort_more (h : Kept goal buffer y) (hr : Runs y.s.g t) (ha : y.s.g.live a = false)
    (hs : (Sched.code (.taskcreate a)).onHeap y.s = .ok ((), s')) {x : Place} {out : List Line} {l : At} :
    y.effort < Sys.effort { y with
      s := s'
      out := out
      nchan := y.nchan + 1
      place := update (update y.place a x) t ⟨l, false⟩ } := by
  have hen : Enabled y.s.g (.taskcreate a) := ⟨.inr ⟨t, hr⟩, ha⟩
  obtain ⟨-, hchan, -⟩ := core_taskcreate h.core hen.1 ha hs
  obtain ⟨p, hl⟩ := Sched.linked_reach h.core.reach
  obtain ⟨-, hrun, hpc⟩ := Sched.taskcreate_begins hl h.staffed.begins hen hs
  have hstage : y.stage ≤ 3 := by
    rw [stage_app hr.2.1 hr.2.2]
    split <;> omega
  have hstage' : Sys.stage { y with
      s := s', out := out, nchan := y.nchan + 1, place := update (update y.place a x) t ⟨l, false⟩ } = 3 := by
    rw [stage_app (t := t) (hrun.trans hr.2.1) ((hpc t (h.core.idle hr).2).trans hr.2.2)]
    show (if (update (update y.place a x) t ⟨l, false⟩ t).inside then 2 else 3) = 3
    rw [update_self]
    rfl
  have hmoves := moves_succ y.s.g.chan y.nchan
  unfold Sys.effort
  rw [hstage']
  dsimp only
  rw [hchan]
  omega

theorem effort_step (h : Kept goal buffer y) (hx : y.exited = none) (hd : Did goal y y') : y.effort < y'.effort := by
  obtain ⟨p, hlink⟩ := Sched.linked_reach h.core.reach
  cases hd with
  | scheduled s' hen hs he =>
    subst he
    obtain ⟨w, hw⟩ := someone_ready h.core h.sieve h.staffed hen.2
    obtain ⟨-, t, ht⟩ := Sched.taskscheduler_begins hlink h.staffed.begins hen.2 hw hen hs
    obtain ⟨-, hchan, -⟩ := core_taskscheduler h.core hen hs
    have hstage : y.stage = 0 := by rw [Sys.stage, hen.2]
    have hstage' : 0 < Sys.stage { y with s := s' } := by
      rw [Sys.stage, show (Sys.mk s' y.place y.nchan y.out y.exited y.fed).s.g.taskrunning = some t from ht]
      dsimp only
      split
      · omega
      · split <;> omega
    unfold Sys.effort
    dsimp only
    rw [hchan, hstage]
    omega
  | resumed t s' hr hen hs he =>
    subst he
    obtain ⟨-, hrun⟩ := Sched.resume_begins hlink h.core.wise h.staffed.begins hr hen hs
    obtain ⟨-, hchan, -, hno⟩ := core_resume h.core hr hen hs
    have hpc : (y.s.g.task t).pc ≠ .app := by
      obtain ⟨-, ⟨u, hu, hpc⟩, -⟩ := hen
      obtain rfl : t = u := Option.some.inj (hr.symm.trans hu)
      exact hpc
    have hwaiting : waiting s'.g.chan = waiting y.s.g.chan := by
      rw [hchan]
      ext u
      show (update y.s.g.chan.wait t none u ≠ none ∧ y.s.g.chan.woken u = 0) ↔ Pends y.s.g.chan u
      by_cases hut : u = t
      · subst hut
        rw [update_self]
        exact iff_of_false (fun hp => hp.1 rfl) hno
      · rw [update_of_ne hut]
        exact Iff.rfl
    have hmoves : moves s'.g.chan y.nchan = moves y.s.g.chan y.nchan := by
      rw [hchan]
      rfl
    have hstage : y.stage = 1 := by
      rw [Sys.stage, hr]
      dsimp only
      rw [if_pos hpc]
    have hstage' : 2 ≤ Sys.stage { y with s := s' } := by
      rw [stage_app (y := { y with s := s' }) hrun.2.1 hrun.2.2]
      split <;> omega
    unfold Sys.effort
    dsimp only
    rw [hwaiting, hmoves, hstage]
    omega
  | began t a s' hr ha hl hs he =>
    subst he
    exact effort_more h hr ha hs
  | printed t a c s' hr ha hl hp hs he =>
    subst he
    exact effort_more h hr ha hs
  | exited t c hr hl hp he =>
    subst he
    unfold Sys.effort
    rw [hx, if_pos rfl, if_neg nofun]
    exact Nat.lt_succ_self _
  | called t l c op r1 r2 s' hr hl hcall hs he =>
    subst he
    exact effort_called h hr hl hcall hs
  | returned t l l' hr hl hthen he =>
    subst he
    have hstage : y.stage = 2 := by
      rw [stage_app hr.2.1 hr.2.2, hl]
      rfl
    have hstage' : Sys.stage (y.goto t l' false) = 3 := by
      rw [stage_app (y := y.goto t l' false) hr.2.1 hr.2.2]
      show (if (update y.place t ⟨l', false⟩ t).inside then 2 else 3) = 3
      rw [update_self]
      rfl
    unfold Sys.effort
    rw [hstage, hstage', if_pos hx, if_pos (show (y.goto t l' false).exited = none from hx)]
    exact Nat.lt_succ_self _

/-! ## The budget -/

/-- At most one task for each channel waits, and `taskmain`. -/
theorem waiting_le (hcore : Core y.s) (hy : Sieving goal y n ps) : (waiting y.s.g.chan).ncard ≤ y.nchan + 1 := by
  let f : TaskPtr → Nat := fun u => ((y.place u).stmt.reads).getD y.nchan
  have hreads : ∀ {u c}, y.s.g.live u = true → (y.place u).stmt.reads = some c → c < y.nchan := by
    intro u c hu hr
    have : c ≤ ps.length := (hy.fits u hu).reads_le hr
    have := hy.nchan
    omega
  -- who reads nothing is `taskmain`
  have hfeeds : ∀ {u}, y.s.g.live u = true → (y.place u).stmt.reads = none → (y.place u).stmt.writes = some 0 := by
    intro u hu hr
    have hfits := hy.fits u hu
    cases hl : (y.place u).stmt with
    | feed c i =>
      rw [hl] at hfits
      obtain rfl : c = 0 := hfits
      rfl
    | taskmain =>
      rw [hl] at hfits
      exact hfits.elim
    | _ => rw [hl] at hr; cases hr
  have hmem : ∀ u ∈ waiting y.s.g.chan, f u ∈ (Finset.range (y.nchan + 1) : Set Nat) := by
    intro u hu
    have hlive := hcore.live hu.1
    show f u ∈ (Finset.range (y.nchan + 1) : Set Nat)
    simp only [Finset.coe_range, Set.mem_Iio, f]
    cases hr : (y.place u).stmt.reads with
    | none => exact Nat.lt_succ_self _
    | some c => exact Nat.lt_succ_of_lt (hreads hlive hr)
  have hinj : Set.InjOn f (waiting y.s.g.chan) := by
    intro u hu v hv he
    have hlu := hcore.live hu.1
    have hlv := hcore.live hv.1
    simp only [f] at he
    cases hru : (y.place u).stmt.reads with
    | none =>
      cases hrv : (y.place v).stmt.reads with
      | none => exact hy.writer u v 0 hlu hlv (hfeeds hlu hru) (hfeeds hlv hrv)
      | some d =>
        rw [hru, hrv] at he
        exact absurd (hreads hlv hrv) (by simp at he; omega)
    | some c =>
      cases hrv : (y.place v).stmt.reads with
      | none =>
        rw [hru, hrv] at he
        exact absurd (hreads hlu hru) (by simp at he; omega)
      | some d =>
        rw [hru, hrv] at he
        obtain rfl : c = d := he
        exact hy.reader u v c hlu hlv hru hrv
  have := Set.ncard_le_ncard_of_injOn f hmem hinj
  rwa [Set.ncard_coe_finset, Finset.card_range] at this

theorem moves_le (hy : Sieving goal y n ps) : moves y.s.g.chan y.nchan ≤ y.nchan * (2 * n) := by
  have hterm : ∀ c ∈ Finset.range y.nchan, (gave y.s.g.chan c).length + (took y.s.g.chan c).length ≤ 2 * n := by
    intro c hc
    have hc : c ≤ ps.length := by
      have := Finset.mem_range.mp hc
      have := hy.nchan
      omega
    obtain ⟨m, -, hg⟩ := chain_given hy.chain c hc
    have h1 := hg.length_le
    have h2 := rest_length (ps.take c) (List.range' 2 n)
    have h3 := (hy.chain.fifo c).length_le
    rw [List.length_range'] at h2
    omega
  have := Finset.sum_le_card_nsmul _ _ _ hterm
  rwa [Finset.card_range, nsmul_eq_mul, Nat.cast_id] at this

theorem stage_le (y : Sys) : y.stage ≤ 3 := by
  unfold Sys.stage
  split
  · omega
  · split
    · omega
    · split <;> omega

theorem effort_le (h : Kept goal buffer y) : y.effort ≤ budget goal buffer := by
  have hstage := stage_le y
  unfold Sys.effort budget
  rcases h.sieve with hy | ⟨n, ps, hy⟩
  · have hw : waiting y.s.g.chan = ∅ := by
      ext u
      exact iff_of_false (fun hu => hu.1 ((h.staffed.early hy.nchan).2 u)) (Set.notMem_empty u)
    rw [hw, hy.nchan, Set.ncard_empty, hy.exited]
    simp only [moves, Finset.range_zero, Finset.sum_empty, if_true]
    omega
  · have hmoves := moves_le hy
    have hwaiting := waiting_le h.core hy
    have hlimit := number_limit h hy
    have hle : y.nchan ≤ upTo goal + 1 := by
      have := upTo_le hy
      have := hy.nchan
      omega
    have hall : y.nchan * (2 * n) ≤ 2 * ((upTo goal + 1) * limit goal buffer) := by
      calc y.nchan * (2 * n) ≤ (upTo goal + 1) * (2 * limit goal buffer) := Nat.mul_le_mul hle (by omega)
        _ = 2 * ((upTo goal + 1) * limit goal buffer) := Nat.mul_left_comm _ _ _
    split <;> omega

theorem exited_out (hy : Sieving goal y n ps) (hexit : y.exited ≠ none) :
    y.out = .goal goal :: (below (goal.toNat + 1)).map fun p => .number p := by
  obtain ⟨q, hq, hps, hgoal⟩ := hy.exited hexit
  have heq : below (goal.toNat + 1) = below q := by
    symm
    have := hq.two_le
    refine below_eq (by omega) fun p h1 h2 hp => ?_
    have := hy.small p (by rw [hps]; exact mem_below.mpr ⟨h2, hp⟩)
    omega
  rw [heq, ← hps]
  exact hy.out

theorem kept_steps (hlim : limit goal buffer < 2 ^ 31) (es : List Ev) : ∀ {y y' : Sys}, Kept goal buffer y →
    (∀ i ∈ y.fed, i < 2 ^ 31) → y.steps goal es = .ok y' → Kept goal buffer y' ∧ y.effort + es.length ≤ y'.effort := by
  induction es with
  | nil =>
    intro y y' h _ hs
    rw [← Except.ok.inj hs]
    exact ⟨h, Nat.le_refl _⟩
  | cons e es ih =>
    intro y y' h hfit hs
    obtain ⟨y₁, h1, h2⟩ := ok_of_bind hs
    obtain ⟨hx, hd⟩ := did h1
    have hfit₁ := fed_step h hd hlim hfit
    obtain ⟨h', heffort⟩ := ih (kept_step h h1 hfit₁) hfit₁ h2
    have := effort_step h hx hd
    refine ⟨h', ?_⟩
    rw [List.length_cons]
    omega

/-- Every run of the program is shorter than `budget`, and one that cannot go on has printed the
    primes and exited: the numbers that the chain has room for fit an `int`. -/
theorem always_ends (hb : 0 ≤ buffer ∧ buffer < 2 ^ 31) (hmem : Permits buffer) (hlim : limit goal buffer < 2 ^ 31)
    {junk : Nat → Nat → UInt8} {mem : Nat → UInt8} (hs : (Sched.code (.taskcreate a)).onHeap (blank buffer junk mem) = .ok ((), s))
    {es : List Ev} (hes : (main s).steps goal es = .ok y) :
    es.length ≤ budget goal buffer ∧
    ((∀ e, ∃ why, y.step goal e = .error why) → y.exited = some 0 ∧
      y.out = .goal goal :: ((List.range (goal.toNat + 1)).filter Nat.Prime).map fun p => .number p) := by
  obtain ⟨hk, heffort⟩ := kept_steps hlim es (kept_init hb hmem hs) nofun hes
  have hle := effort_le hk
  refine ⟨by omega, fun hstop => ?_⟩
  have hexit : y.exited ≠ none := by
    intro hx
    obtain ⟨e, he⟩ := hk.next
    obtain ⟨y', hy'⟩ := hk.step_ok hx he
    obtain ⟨why, hwhy⟩ := hstop e
    exact nomatch hy'.symm.trans hwhy
  refine ⟨hk.exited.resolve_left hexit, ?_⟩
  rcases hk.sieve with hy | ⟨n, ps, hy⟩
  · exact absurd hy.exited hexit
  · exact exited_out hy hexit

end

/-! ## A run -/

/-- The first turns of `three`: `taskmain` waits for room, and the first `primetask` has printed 2. -/
def started : Except String Sys := do
  let (_, s) ← (Sched.code (.taskcreate 1)).onHeap (blank 0 (fun _ _ => 0) fun _ => 0)
  (main s).steps 3 ([[2, 3], [3, 3, 4], [4, 4, 4, 4]].flatMap turn)

theorem goes_on_three : ∃ y, Reach 3 0 y ∧ y.out = [.goal 3, .number 2] ∧
    (∃ e, y.Next e) ∧ ∀ e, y.Next e → ∃ y', y.step 3 e = .ok y' := by
  have hrun : (match started with | .ok y => some (y.exited, y.fed, y.out) | .error _ => none) =
      some (none, [2, 3, 4], [.goal 3, .number 2]) := by
    decide +kernel
  obtain ⟨y, hy⟩ : ∃ y, started = .ok y := by
    cases h : started with
    | ok y => exact ⟨y, rfl⟩
    | error why => rw [h] at hrun; cases hrun
  rw [hy] at hrun
  simp only [Option.some.injEq, Prod.mk.injEq] at hrun
  obtain ⟨hexit, hfed, hout⟩ := hrun
  obtain ⟨s, hs, hsteps⟩ := ok_of_bind hy
  have hreach : Reach 3 0 y := (Reach.init _ _ 1 s.2 hs).steps _ hsteps
  exact ⟨y, hreach, hout, goes_on (by decide) ⟨by decide +kernel, by decide +kernel⟩ hreach (by rw [hfed]; decide) hexit⟩

theorem always_ends_three : ∃ s es y, (Sched.code (.taskcreate 1)).onHeap (blank 0 (fun _ _ => 0) fun _ => 0) = .ok ((), s) ∧
    (main s).steps 3 es = .ok y ∧ es.length ≤ budget 3 0 ∧ y.exited = some 0 ∧ y.out = [.goal 3, .number 2, .number 3] := by
  have hrun : (match three with | .ok y => some y.exited | .error _ => none) = some (some 0) := by
    decide +kernel
  obtain ⟨y, hy⟩ : ∃ y, three = .ok y := by
    cases h : three with
    | ok y => exact ⟨y, rfl⟩
    | error why => rw [h] at hrun; cases hrun
  rw [hy] at hrun
  have hexit := Option.some.inj hrun
  obtain ⟨s, hs, hsteps⟩ := ok_of_bind hy
  -- the sixth prime is 13
  have hlim : limit 3 0 = 13 := by
    have h2 : upTo 3 = 2 := by decide +kernel
    have h13 : Nat.count Nat.Prime 13 = 5 := by decide +kernel
    have hnth : Nat.nth Nat.Prime (Nat.count Nat.Prime 13) = 13 := Nat.nth_count (by decide +kernel)
    rw [h13] at hnth
    rw [limit, h2]
    exact hnth
  obtain ⟨hlen, hstop⟩ := always_ends (by decide) ⟨by decide +kernel, by decide +kernel⟩ (by rw [hlim]; decide) hs hsteps
  obtain ⟨hexit, hout⟩ := hstop fun e => by
    have hdone : y.exited ≠ none := by rw [hexit]; nofun
    unfold Sys.step
    rw [if_pos hdone]
    exact ⟨_, rfl⟩
  refine ⟨s.2, _, y, hs, hsteps, hlen, hexit, hout.trans ?_⟩
  decide +kernel

end Libtask.Primes
