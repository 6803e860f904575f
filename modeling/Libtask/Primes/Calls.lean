/-
  Libtask.Primes.Calls — the library under the sieve.

  `Core` holds of its memory in every run: tasks are in nothing but their own `_chanop`, and the
  channels are queues of numbers. Each library call of the program, and each turn of the
  scheduler, keeps it (`core_…`), and does to the channels what the lemma says.
-/

import Libtask.Primes.Tasks

namespace Libtask.Primes

open Function (update update_self update_of_ne update_eq_self)
open Libtask.Lib.Ring
open Libtask.Lib.Words
open Libtask.Sched (State Glob Heap Runs Enabled)
open Libtask.Chan (InOp Called gave took held offered)

structure Core (s : State Glob Heap) : Prop where
  reach : Sched.Reach s
  wise : Sched.Chanwise s.g
  fifo : Chan.Fifo s.g.chan
  solo : Chan.Solo val s.g.chan
  size : ∀ c, (s.g.chan.chan c).elemsize = 8 ∧ Chan.Fits (s.g.chan.chan c)

section
variable {s s' : State Glob Heap} {t u a : TaskPtr} {c : Nat} {op : Chan.AltOp}

theorem Core.chan (h : Core s) : Chan.Inv s.g.chan := by
  obtain ⟨p, hl⟩ := Sched.linked_reach h.reach
  exact hl.inv.chan

theorem Core.took_prefix (h : Core s) (c : Nat) : took s.g.chan c <+: gave s.g.chan c := Chan.took_prefix h.fifo (h.size c).2

/-- Who waits was not freed. -/
theorem Core.live (h : Core s) (hw : s.g.chan.wait u ≠ none) : s.g.live u = true := by
  obtain ⟨p, hl⟩ := Sched.linked_reach h.reach
  by_contra hd
  exact hw ((hl.inv.good u).dead (Bool.eq_false_of_not_eq_true hd)).2.2

/-- Who runs in the program is not in a call. -/
theorem Core.idle (h : Core s) (hr : Runs s.g t) : s.g.chan.wait t = none ∧ s.g.live t = true := by
  obtain ⟨p, hl⟩ := Sched.linked_reach h.reach
  have hw : s.g.chan.wait t = (s.g.task t).pc.array := (hl.inv.good t).wait
  refine ⟨?_, (Sched.at_running hl.inv hr.2.1 t hr.2.1).2.1⟩
  rw [hw, hr.2.2]
  rfl

/-- A task that `malloc` may give is neither waiting nor the one that runs. -/
theorem Core.unborn (h : Core s) (hr : Runs s.g t) (ha : s.g.live a = false) : a ≠ t ∧ s.g.chan.wait a = none := by
  constructor
  · rintro rfl
    rw [(h.idle hr).2] at ha
    cases ha
  · by_contra hw
    rw [h.live hw] at ha
    cases ha

/-! ## Tasks -/

theorem core_taskcreate (h : Core s) (ho : Sched.Outside s.g) (ha : s.g.live a = false)
    (hs : (Sched.code (.taskcreate a)).onHeap s = .ok ((), s')) :
    Core s' ∧ s'.g.chan = s.g.chan ∧ s'.g.live = update s.g.live a true := by
  obtain ⟨p, hl⟩ := Sched.linked_reach h.reach
  have hen : Enabled s.g (.taskcreate a) := ⟨ho, ha⟩
  obtain ⟨h1, h2, h3⟩ := Sched.taskcreate_step hl h.wise hen hs
  refine ⟨⟨.step _ h.reach hen hs, h3, ?_, ?_, ?_⟩, h1, h2⟩
  · rw [h1]; exact h.fifo
  · rw [h1]; exact h.solo
  · rw [h1]; exact h.size

theorem core_taskscheduler (h : Core s) (hen : Enabled s.g .taskscheduler)
    (hs : (Sched.code .taskscheduler).onHeap s = .ok ((), s')) :
    Core s' ∧ s'.g.chan = s.g.chan ∧ s'.g.live = s.g.live := by
  obtain ⟨p, hl⟩ := Sched.linked_reach h.reach
  obtain ⟨h1, h2, h3⟩ := Sched.taskscheduler_step hl h.wise hen hs
  refine ⟨⟨.step _ h.reach hen hs, h3, ?_, ?_, ?_⟩, h1, h2⟩
  · rw [h1]; exact h.fifo
  · rw [h1]; exact h.solo
  · rw [h1]; exact h.size

theorem core_resume (h : Core s) (hr : s.g.taskrunning = some t) (hen : Enabled s.g (.resume 0 .eintr 0))
    (hs : (Sched.code (.resume 0 .eintr 0)).onHeap s = .ok ((), s')) :
    Core s' ∧ s'.g.chan = { s.g.chan with wait := update s.g.chan.wait t none } ∧ s'.g.live = s.g.live ∧
      ¬ Pends s.g.chan t := by
  obtain ⟨p, hl⟩ := Sched.linked_reach h.reach
  obtain ⟨h1, h2, h3, h4⟩ := Sched.resume_step hl h.wise hr hen hs
  have hwait : ∀ u b, update s.g.chan.wait t none u = some b → u ≠ t ∧ s.g.chan.wait u = some b := by
    intro u b hub
    by_cases hut : u = t
    · subst hut
      simp at hub
    · exact ⟨hut, by simpa [hut] using hub⟩
  refine ⟨⟨.step _ h.reach hen hs, h3, ?_, ?_, ?_⟩, h1, h2, fun hp => h4 hp.1 hp.2⟩
  · rw [h1]
    by_cases hw : s.g.chan.wait t = none
    · rw [← hw, update_eq_self]
      exact h.fifo
    · exact Chan.fifo_step h.chan h.fifo (e := .resume t) ⟨Option.isSome_iff_ne_none.mpr hw, h4 hw⟩ rfl fun _ _ _ _ _ _ => rfl
  · rw [h1]
    refine ⟨fun u b hub => h.solo.own u b (hwait u b hub).2, fun u hu h0 => ?_⟩
    obtain ⟨b, hub⟩ := Option.ne_none_iff_exists'.mp hu
    obtain ⟨hut, hwu⟩ := hwait u b hub
    obtain ⟨d, op, hin⟩ := h.solo.one u (by rw [hwu]; nofun) h0
    exact ⟨d, op, ⟨(update_of_ne hut _ _).trans hin.wait, hin.woken, hin.len, hin.chan, hin.op, hin.var⟩⟩
  · rw [h1]; exact h.size

/-! ## Memory -/

/-- `s` with `bs` stored at `x`. -/
def stored (s : State Glob Heap) (x : Nat) (bs : List UInt8) : State Glob Heap :=
  ⟨{ s.g with chan := { s.g.chan with mem := blit s.g.chan.mem x bs } }, s.m⟩

theorem blit_cons (f : Nat → UInt8) (x : Nat) (b : UInt8) (bs : List UInt8) :
    blit (update f x b) (x + 1) bs = blit f x (b :: bs) := by
  funext i
  unfold blit
  rcases Nat.lt_trichotomy i x with hi | rfl | hi
  · rw [if_neg (by omega), if_neg (by omega), update_of_ne (by omega)]
  · rw [if_neg (by omega), if_pos (by omega), update_self]
    simp
  · obtain ⟨j, rfl⟩ : ∃ j, i = x + 1 + j := ⟨i - (x + 1), by omega⟩
    rw [if_pos (by omega), if_pos (by omega), update_of_ne (by omega), show x + 1 + j - (x + 1) = j by omega,
      show x + 1 + j - x = j + 1 by omega, List.getElem?_cons_succ]

theorem store_eq (y : Sys) (x : Nat) (bs : List UInt8) : y.store x bs = .ok { y with s := stored y.s x bs } := by
  induction bs generalizing y x with
  | nil =>
    have : blit y.s.g.chan.mem x [] = y.s.g.chan.mem := funext fun i => blit_outside _ _ _ (by simp; omega)
    simp [Sys.store, stored, this]
  | cons b bs ih =>
    have hpoke : y.lib (.poke x b) = .ok { y with s := ⟨{ y.s.g with chan :=
      { y.s.g.chan with mem := update y.s.g.chan.mem x b } }, y.s.m⟩ } := rfl
    rw [Sys.store, hpoke]
    show Sys.store _ (x + 1) bs = _
    rw [ih]
    simp only [stored, blit_cons]

/-- A task stores into its own variable. -/
theorem core_poke (h : Core s) (hr : Runs s.g t) {x : Nat} {b : UInt8} (hx : val t ≤ x ∧ x < val t + 8) :
    Core ⟨{ s.g with chan := { s.g.chan with mem := update s.g.chan.mem x b } }, s.m⟩ := by
  have hen : Enabled s.g (.poke x b) := Or.inr ⟨t, hr⟩
  refine ⟨.step (.poke x b) h.reach hen rfl, h.wise, ?_, ?_, h.size⟩
  · refine Chan.fifo_step h.chan h.fifo (e := .poke x b) trivial rfl ?_
    intro p d hp hsnd hd _
    have hq : p ∈ Chan.queue (s.g.chan.chan (s.g.chan.deref p).c) .CHANSND := (h.chan.mem _ _ p).mpr ⟨hp, rfl, hsnd⟩
    obtain ⟨hp0, hin⟩ := h.solo.queue h.chan hq
    have hvar := hin.var
    rw [← hp0, hd] at hvar
    obtain rfl := Option.some.inj hvar
    have hne : p.arr ≠ t := by
      intro he
      have hw := hin.wait
      rw [he, (h.idle hr).1] at hw
      cases hw
    rw [(h.size _).1]
    refine slice_congr fun i hi => update_of_ne ?_ _ _
    rcases separate_val p.arr t hne with h' | h' <;> omega
  · exact ⟨h.solo.own, fun u hu h0 => by
      obtain ⟨d, op, hin⟩ := h.solo.one u hu h0
      exact ⟨d, op, ⟨hin.wait, hin.woken, hin.len, hin.chan, hin.op, hin.var⟩⟩⟩

theorem core_stored (h : Core s) (hr : Runs s.g t) {bs : List UInt8} : ∀ {x : Nat}, val t ≤ x → x + bs.length ≤ val t + 8 →
    Core (stored s x bs) := by
  induction bs generalizing s with
  | nil =>
    intro x _ _
    have : blit s.g.chan.mem x [] = s.g.chan.mem := funext fun i => blit_outside _ _ _ (by simp; omega)
    simpa [stored, this] using h
  | cons b bs ih =>
    intro x h1 h2
    rw [List.length_cons] at h2
    have hnext := ih (core_poke h hr (b := b) ⟨h1, by omega⟩) hr (x := x + 1) (by omega) (by omega)
    rw [stored] at hnext ⊢
    simp only [blit_cons] at hnext
    exact hnext

/-! ## Channels -/

theorem core_chanop (h : Core s) (hr : Runs s.g t) (hop : op = .CHANSND ∨ op = .CHANRCV) {r1 r2 : Nat}
    (hs : (Sched.code (.chanalt t (Chan._chanop c op (some (val t)) true) r1 r2)).onHeap s = .ok ((), s')) :
    Core s' ∧ s'.g.live = s.g.live ∧ ∃ snd rcv, Called val s.g.chan t c op snd rcv s'.g.chan := by
  obtain ⟨p, hl⟩ := Sched.linked_reach h.reach
  have hidle := (h.idle hr).1
  have hcall := Chan.chanop_callable (c := c) h.solo hop hidle
  have hen' : Chan.Enabled s.g.chan (.call t t (Chan._chanop c op (some (val t)) true) r1 r2) :=
    ⟨hcall.idle, hcall.free, hcall.ends⟩
  have hen : Enabled s.g (.chanalt t (Chan._chanop c op (some (val t)) true) r1 r2) := ⟨t, hr, hen'⟩
  obtain ⟨⟨w, r, hk⟩, h2, h3⟩ := Sched.chanalt_step hl h.wise hr.2.1 hen hs
  obtain ⟨snd, rcv, hc⟩ := Chan.called h.solo hop hidle h.chan hk
  have hstep : Chan.step s.g.chan (.call t t (Chan._chanop c op (some (val t)) true) r1 r2) = .ok s'.g.chan := by
    rw [Chan.step, hk]
    rfl
  refine ⟨⟨.step _ h.reach hen hs, h3, ?_, hc.solo h.solo, fun d => ?_⟩, h2, snd, rcv, hc⟩
  · exact Chan.fifo_step h.chan h.fifo hen' hstep (hc.untouched h.chan h.solo hidle separate_val fun d => (h.size d).1)
  · unfold Chan.Fits
    rw [(hc.size d).1, (hc.size d).2]
    exact h.size d

end

end Libtask.Primes
