/-
  Libtask.Primes.Stalls — the sieve does not stall.

  Each channel has a task that reads it and one that writes it (`Staffed`). If all tasks waited,
  `taskmain` would wait to send on the first channel. Who reads that would not wait to receive,
  as nobody waits for what another offers, so it waits to send on the next, and so on to the last
  channel. But who reads that one can only wait to receive (`someone_ready`).

  `sieving_lag`: the numbers fed are bounded while the filters are the same (Libtask.Lib.Sieve), as
  a channel holds at most `buffer` numbers and a filter one.
-/

import Libtask.Primes.Prints

namespace Libtask.Primes

open Function (update update_self update_of_ne)
open Libtask.Lib (ok_of_bind)
open Libtask.Lib.Sieve
open Libtask.Sched (State Glob Heap Runs Enabled Begins)
open Libtask.Chan (InOp Called gave took held offered)

structure Staffed (buffer : Int) (y : Sys) : Prop where
  begins : Begins y.s.g
  bufsize : ∀ c, (y.s.g.chan.chan c).bufsize = buffer.toNat
  reader : ∀ c < y.nchan, ∃ u, y.s.g.live u = true ∧ (y.place u).stmt.reads = some c
  writer : ∀ c < y.nchan, ∃ u, y.s.g.live u = true ∧ (y.place u).stmt.writes = some c
  /-- Before the first channel there is a task, and nobody waits. -/
  early : y.nchan = 0 → (∃ u, y.s.g.live u = true) ∧ ∀ u, y.s.g.chan.wait u = none

section
variable {goal buffer : Int} {y y' : Sys} {n : Nat} {ps : List Nat} {s s' : State Glob Heap} {t u w a : TaskPtr} {k : Chan.St} {c : Nat}
  {op : Chan.AltOp} {l : At} {x : Place}

/-- Who reads a channel is the task behind the filters, or a filter. -/
theorem At.Fits.reader (h : l.Fits ps) (hr : l.reads = some c) : l = .first c ∧ c = ps.length ∨
    ∃ q : Nat, ps[c]? = some q ∧ (l = .next c (c + 1) q ∨ ∃ i, l = .pass c (c + 1) q i) := by
  cases l with
  | taskmain => cases hr
  | feed e i => cases hr
  | first e =>
    obtain rfl : e = c := Option.some.inj hr
    exact .inl ⟨rfl, h⟩
  | next e nc p =>
    obtain rfl : e = c := Option.some.inj hr
    obtain ⟨rfl, q, rfl, hq⟩ := h
    exact .inr ⟨q, hq, .inl rfl⟩
  | pass e nc p i =>
    obtain rfl : e = c := Option.some.inj hr
    obtain ⟨rfl, q, rfl, hq⟩ := h
    exact .inr ⟨q, hq, .inr ⟨i, rfl⟩⟩

/-! ## All wait -/

/-- Nobody waits for what another task offers. -/
theorem not_both (hi : Chan.Inv k) (hs : InOp val k u c .CHANSND) (hr : InOp val k w c .CHANRCV) : False := by
  have hmem : ∀ {u op}, op = .CHANSND ∨ op = .CHANRCV → InOp val k u c op → ⟨u, 0⟩ ∈ Chan.queue (k.chan c) op := by
    intro u op hop h
    refine (hi.mem c op ⟨u, 0⟩).mpr ⟨⟨⟨u, h.wait, h.woken⟩, ?_, ?_⟩, h.chan, h.op⟩
    · rw [h.len]
      exact Nat.zero_lt_one
    · rw [h.op]
      rcases hop with rfl | rfl <;> nofun
  have hsq := hmem (.inl rfl) hs
  have hrq := hmem (.inr rfl) hr
  by_cases hb : (k.chan c).bufsize = 0
  · obtain rfl : u = w := hi.single c hb _ hsq _ hrq
    exact nomatch hs.op.symm.trans hr.op
  · have h1 := hi.send c hb (List.ne_nil_of_mem hsq)
    have h2 := hi.recv c hb (List.ne_nil_of_mem hrq)
    omega

/-- All wait, so each channel has a task that waits to send. -/
theorem all_send (hcore : Core y.s) (hy : Sieving goal y n ps) (hs : Staffed buffer y)
    (hall : ∀ u, y.s.g.live u = true → Pends y.s.g.chan u) : ∀ c < y.nchan, ∃ u, InOp val y.s.g.chan u c .CHANSND := by
  have hcall : ∀ {u}, y.s.g.live u = true → ∃ c op, (y.place u).stmt.call = some (c, op) ∧ InOp val y.s.g.chan u c op := by
    intro u hu
    obtain ⟨c, op, h1, h2, -⟩ := (hy.follows u hu).waits (hall u hu)
    exact ⟨c, op, h1, h2⟩
  intro c
  induction c with
  | zero =>
    intro hc
    obtain ⟨u, hu, hw⟩ := hs.writer 0 hc
    obtain ⟨d, op, h1, h2⟩ := hcall hu
    have hfits := hy.fits u hu
    cases hl : (y.place u).stmt with
    | feed e i =>
      rw [hl] at h1 hw
      obtain ⟨rfl, rfl⟩ := Prod.mk.inj (Option.some.inj h1)
      obtain rfl : e = 0 := Option.some.inj hw
      exact ⟨u, h2⟩
    | next e nc p =>
      rw [hl] at hfits hw
      obtain rfl : nc = 0 := Option.some.inj hw
      exact absurd hfits.1 (by omega)
    | pass e nc p i =>
      rw [hl] at hfits hw
      obtain rfl : nc = 0 := Option.some.inj hw
      exact absurd hfits.1 (by omega)
    | taskmain => rw [hl] at hw; cases hw
    | first e => rw [hl] at hw; cases hw
  | succ c ih =>
    intro hc
    obtain ⟨v, hv⟩ := ih (by omega)
    obtain ⟨u, hu, hr⟩ := hs.reader c (by omega)
    obtain ⟨d, op, h1, h2⟩ := hcall hu
    -- the reader of `c` does not wait for what `v` offers
    have hrecv : (y.place u).stmt.call ≠ some (c, .CHANRCV) := by
      intro he
      obtain ⟨rfl, rfl⟩ := Prod.mk.inj (Option.some.inj (h1.symm.trans he))
      exact not_both hcore.chan hv h2
    rcases (hy.fits u hu).reader hr with ⟨hl, -⟩ | ⟨q, -, hl | ⟨i, hl⟩⟩
    · exact absurd (by rw [hl]; rfl) hrecv
    · exact absurd (by rw [hl]; rfl) hrecv
    · rw [hl] at h1
      obtain ⟨rfl, rfl⟩ := Prod.mk.inj (Option.some.inj h1)
      exact ⟨u, h2⟩

theorem not_all_wait (hcore : Core y.s) (hy : Sieving goal y n ps) (hs : Staffed buffer y) :
    ¬ ∀ u, y.s.g.live u = true → Pends y.s.g.chan u := by
  intro hall
  have hn := hy.nchan
  obtain ⟨v, hv⟩ := all_send hcore hy hs hall ps.length (by omega)
  obtain ⟨u, hu, hr⟩ := hs.reader ps.length (by omega)
  obtain ⟨d, op, h1, h2, -⟩ := (hy.follows u hu).waits (hall u hu)
  rcases (hy.fits u hu).reader hr with ⟨hl, -⟩ | ⟨q, hq, -⟩
  · rw [hl] at h1
    obtain ⟨rfl, rfl⟩ := Prod.mk.inj (Option.some.inj h1)
    exact not_both hcore.chan hv h2
  · simp at hq

/-- When nobody runs, a task is ready. -/
theorem someone_ready (hcore : Core y.s) (hy : Before y ∨ ∃ n ps, Sieving goal y n ps) (hs : Staffed buffer y)
    (hr : y.s.g.taskrunning = none) : ∃ w, y.s.g.live w = true ∧ (y.s.g.task w).state = .READY := by
  by_contra hno
  obtain ⟨p, hl⟩ := Sched.linked_reach hcore.reach
  have hall : ∀ u, y.s.g.live u = true → Pends y.s.g.chan u := fun u hu =>
    Sched.all_wait hl hcore.wise hs.begins hr (fun w hw hst => hno ⟨w, hw, hst⟩) hu
  rcases hy with hy | ⟨n, ps, hy⟩
  · obtain ⟨⟨u, hu⟩, hwait⟩ := hs.early hy.nchan
    exact (hall u hu).1 (hwait u)
  · exact not_all_wait hcore hy hs hall

/-! ## What a step keeps -/

/-- The same tasks at statements with the same channels. -/
theorem Staffed.same (h : Staffed buffer y) (hb : Begins y'.s.g) (hl : y'.s.g.live = y.s.g.live) (hn : y'.nchan = y.nchan)
    (hz : ∀ c, (y'.s.g.chan.chan c).bufsize = (y.s.g.chan.chan c).bufsize)
    (hp : ∀ u, y.s.g.live u = true → (y'.place u).stmt.reads = (y.place u).stmt.reads ∧
      (y'.place u).stmt.writes = (y.place u).stmt.writes)
    (he : y.nchan = 0 → (∀ u, y.s.g.chan.wait u = none) → ∀ u, y'.s.g.chan.wait u = none) : Staffed buffer y' where
  begins := hb
  bufsize c := by rw [hz]; exact h.bufsize c
  reader c hc := by
    obtain ⟨u, hu, hr⟩ := h.reader c (hn ▸ hc)
    exact ⟨u, by rw [hl]; exact hu, (hp u hu).1.trans hr⟩
  writer c hc := by
    obtain ⟨u, hu, hr⟩ := h.writer c (hn ▸ hc)
    exact ⟨u, by rw [hl]; exact hu, (hp u hu).2.trans hr⟩
  early h0 := by
    obtain ⟨⟨u, hu⟩, hwait⟩ := h.early (hn ▸ h0)
    exact ⟨⟨u, by rw [hl]; exact hu⟩, he (hn ▸ h0) hwait⟩

/-- `t` made a channel, which it writes, and a task that reads it. -/
theorem Staffed.more (h : Staffed buffer y) (hcore : Core y.s) (hr : Runs y.s.g t) (ha : y.s.g.live a = false)
    (hs : (Sched.code (.taskcreate a)).onHeap y.s = .ok ((), s')) {l : At} (hw : l.writes = some y.nchan)
    (hsame : ∀ c, (y.place t).stmt.reads = some c → l.reads = some c) (hnone : (y.place t).stmt.writes = none) {out : List Line} :
    Staffed buffer { y with
      s := s'
      out := out
      nchan := y.nchan + 1
      place := update (update y.place a ⟨.first y.nchan, false⟩) t ⟨l, false⟩ } := by
  obtain ⟨-, hlive⟩ := hcore.idle hr
  have hen : Enabled y.s.g (.taskcreate a) := ⟨.inr ⟨t, hr⟩, ha⟩
  obtain ⟨-, hchan, hlive'⟩ := core_taskcreate hcore hen.1 ha hs
  obtain ⟨p, hl⟩ := Sched.linked_reach hcore.reach
  obtain ⟨hbegins, -, -⟩ := Sched.taskcreate_begins hl h.begins hen hs
  obtain ⟨hat, -⟩ := hcore.unborn hr ha
  have hold : ∀ u, y.s.g.live u = true → s'.g.live u = true := by
    intro u hu
    rw [hlive']
    by_cases hua : u = a
    · rw [hua, update_self]
    · rw [update_of_ne hua]
      exact hu
  have hborn : s'.g.live a = true := by rw [hlive', update_self]
  have hplace : ∀ u, y.s.g.live u = true → u ≠ t →
      update (update y.place a ⟨.first y.nchan, false⟩) t ⟨l, false⟩ u = y.place u := by
    intro u hu hut
    have hua : u ≠ a := by
      rintro rfl
      rw [ha] at hu
      cases hu
    rw [update_of_ne hut, update_of_ne hua]
  refine ⟨hbegins, fun c => ?_, fun c hc => ?_, fun c hc => ?_, fun h0 => absurd h0 (Nat.succ_ne_zero _)⟩
  · show (s'.g.chan.chan c).bufsize = _
    rw [hchan]
    exact h.bufsize c
  · rcases Nat.lt_succ_iff_lt_or_eq.mp hc with hc | rfl
    · obtain ⟨u, hu, hr'⟩ := h.reader c hc
      refine ⟨u, hold u hu, ?_⟩
      show (update (update y.place a ⟨.first y.nchan, false⟩) t ⟨l, false⟩ u).stmt.reads = some c
      by_cases hut : u = t
      · subst hut
        rw [update_self]
        exact hsame c hr'
      · rw [hplace u hu hut]
        exact hr'
    · refine ⟨a, hborn, ?_⟩
      show (update (update y.place a ⟨.first y.nchan, false⟩) t ⟨l, false⟩ a).stmt.reads = some y.nchan
      rw [update_of_ne hat, update_self]
      rfl
  · rcases Nat.lt_succ_iff_lt_or_eq.mp hc with hc | rfl
    · obtain ⟨u, hu, hw'⟩ := h.writer c hc
      have hut : u ≠ t := by
        rintro rfl
        exact nomatch hnone.symm.trans hw'
      refine ⟨u, hold u hu, ?_⟩
      show (update (update y.place a ⟨.first y.nchan, false⟩) t ⟨l, false⟩ u).stmt.writes = some c
      rw [hplace u hu hut]
      exact hw'
    · refine ⟨t, hold t hlive, ?_⟩
      show (update (update y.place a ⟨.first y.nchan, false⟩) t ⟨l, false⟩ t).stmt.writes = some y.nchan
      rw [update_self]
      exact hw

theorem staffed_called (hcore : Core y.s) (h : Staffed buffer y) (hr : Runs y.s.g t) (hl : y.place t = ⟨l, false⟩)
    (hcall : l.call = some (c, op)) (hmade : y.nchan ≠ 0) {r1 r2 : Nat}
    (hs : (Sched.code (.chanalt t (Chan._chanop c op (some (val t)) true) r1 r2)).onHeap (entering y.s t l op) = .ok ((), s')) :
    Staffed buffer { y with s := s', fed := y.fed ++ l.feeds, place := update y.place t ⟨l, true⟩ } := by
  have hop := At.call_op hcall
  obtain ⟨mem, he, hcore₁, -, -⟩ := entering_spec hcore hr hop l
  rw [he] at hcore₁ hs
  obtain ⟨p, hlink⟩ := Sched.linked_reach hcore₁.reach
  have hcallable := Chan.chanop_callable (c := c) hcore₁.solo hop (hcore₁.idle hr).1
  have hen : Enabled { y.s.g with chan := { y.s.g.chan with mem := mem } }
      (.chanalt t (Chan._chanop c op (some (val t)) true) r1 r2) := ⟨t, hr, ⟨hcallable.idle, hcallable.free, hcallable.ends⟩⟩
  have hbegins := Sched.chanalt_begins hlink ⟨h.begins.phase, h.begins.start⟩ hr hen hs
  obtain ⟨-, hlive, snd, rcv, hc⟩ := core_chanop hcore₁ hr hop hs
  refine h.same hbegins hlive rfl (fun d => (hc.size d).2) (fun u _ => ?_) fun h0 => absurd h0 hmade
  show (update y.place t ⟨l, true⟩ u).stmt.reads = _ ∧ (update y.place t ⟨l, true⟩ u).stmt.writes = _
  by_cases hut : u = t
  · subst hut
    rw [update_self, hl]
    exact ⟨rfl, rfl⟩
  · rw [update_of_ne hut]
    exact ⟨rfl, rfl⟩

/-- Who is not at `taskmain` has a channel. -/
theorem nchan_ne_zero (hcore : Core y.s) (hy : Before y ∨ ∃ n ps, Sieving goal y n ps) (hr : Runs y.s.g t)
    (hl : (y.place t).stmt ≠ .taskmain) : y.nchan ≠ 0 := by
  rcases hy with hy | ⟨n, ps, hy⟩
  · exact absurd (congrArg Place.stmt (hy.stmt t (hcore.idle hr).2)) hl
  · rw [hy.nchan]
    exact Nat.succ_ne_zero _

theorem staffed_step (hcore : Core y.s) (hy : Before y ∨ ∃ n ps, Sieving goal y n ps) (h : Staffed buffer y)
    (hd : Did goal y y') : Staffed buffer y' := by
  obtain ⟨p, hlink⟩ := Sched.linked_reach hcore.reach
  cases hd with
  | scheduled s' hen hs he =>
    subst he
    obtain ⟨w, hw⟩ := someone_ready hcore hy h hen.2
    obtain ⟨hbegins, -⟩ := Sched.taskscheduler_begins hlink h.begins hen.2 hw hen hs
    obtain ⟨-, hchan, hlive⟩ := core_taskscheduler hcore hen hs
    refine h.same hbegins hlive rfl (fun c => ?_) (fun _ _ => ⟨rfl, rfl⟩) fun _ hwait u => ?_
    · show (s'.g.chan.chan c).bufsize = _
      rw [hchan]
    · show s'.g.chan.wait u = none
      rw [hchan]
      exact hwait u
  | resumed t s' hr hen hs he =>
    subst he
    obtain ⟨hbegins, -⟩ := Sched.resume_begins hlink hcore.wise h.begins hr hen hs
    obtain ⟨-, hchan, hlive, -⟩ := core_resume hcore hr hen hs
    refine h.same hbegins hlive rfl (fun c => ?_) (fun _ _ => ⟨rfl, rfl⟩) fun _ hwait u => ?_
    · show (s'.g.chan.chan c).bufsize = _
      rw [hchan]
    · show s'.g.chan.wait u = none
      rw [hchan]
      by_cases hut : u = t
      · rw [hut]
        exact update_self ..
      · exact (update_of_ne hut _ _).trans (hwait u)
  | began t a s' hr ha hl hs he =>
    subst he
    exact h.more hcore hr ha hs rfl (fun c hc => by rw [hl] at hc; cases hc) (by rw [hl]; rfl)
  | printed t a c s' hr ha hl hp hs he =>
    subst he
    exact h.more hcore hr ha hs rfl (fun d hd => by rw [hl] at hd; exact hd) (by rw [hl]; rfl)
  | exited t c hr hl hp he =>
    subst he
    exact ⟨h.begins, h.bufsize, h.reader, h.writer, h.early⟩
  | called t l c op r1 r2 s' hr hl hcall hs he =>
    subst he
    refine staffed_called hcore h hr hl hcall (nchan_ne_zero hcore hy hr ?_) hs
    rw [hl]
    rintro rfl
    cases hcall
  | returned t l l' hr hl hthen he =>
    subst he
    refine h.same h.begins rfl rfl (fun _ => rfl) (fun u _ => ?_) fun _ hwait => hwait
    show (update y.place t ⟨l', false⟩ u).stmt.reads = _ ∧ (update y.place t ⟨l', false⟩ u).stmt.writes = _
    by_cases hut : u = t
    · subst hut
      rw [update_self, hl]
      exact ⟨hthen.reads, hthen.writes⟩
    · rw [update_of_ne hut]
      exact ⟨rfl, rfl⟩

/-! ## Numbers on their way -/

/-- What a task took and what of it went on differ by one number. -/
theorem Follows.near (h : Follows k u x) :
    (∀ c, x.stmt = .first c → (took k c).length ≤ 1) ∧
    ∀ c nc p, (x.stmt = .next c nc p ∨ ∃ i, x.stmt = .pass c nc p i) → ∃ (q : Nat) (xs ys : List Nat), p = q ∧
      took k c = q :: (xs ++ ys) ∧ ys.length ≤ 1 ∧ sift q xs <+: gave k nc := by
  obtain ⟨l, inside⟩ := x
  by_cases hp : inside = false ∨ Pends k u
  · have hdone := h.before hp
    refine ⟨fun c hl => ?_, fun c nc p hl => ?_⟩
    · obtain rfl : l = .first c := hl
      have hins : took k c = [] := hdone
      rw [hins]
      exact Nat.zero_le 1
    · rcases hl with hl | ⟨i, hl⟩
      · obtain rfl : l = .next c nc p := hl
        obtain ⟨q, xs, hq, hins, houts⟩ := hdone
        have hins : took k c = q :: xs := hins
        have houts : gave k nc = sift q xs := houts
        exact ⟨q, xs, [], hq, by rw [hins, List.append_nil], Nat.zero_le 1, by rw [houts]⟩
      · obtain rfl : l = .pass c nc p i := hl
        obtain ⟨q, j, xs, hq, -, -, hins, houts⟩ := hdone
        have hins : took k c = q :: (xs ++ [j]) := hins
        have houts : gave k nc = sift q xs := houts
        exact ⟨q, xs, [j], hq, hins, Nat.le_refl 1, by rw [houts]⟩
  · -- the call happened, and its number is in hand or went on
    obtain ⟨hin, hno⟩ := not_or.mp hp
    have hin : inside = true := by simpa using hin
    refine ⟨fun c hl => ?_, fun c nc p hl => ?_⟩
    · obtain rfl : l = .first c := hl
      obtain ⟨xs, hins, hdone⟩ := h.received hin hno c rfl
      obtain rfl : xs = [] := hdone
      have hins : took k c = [] ++ [held val k u] := hins
      rw [hins]
      exact Nat.le_refl 1
    · rcases hl with hl | ⟨i, hl⟩
      · obtain rfl : l = .next c nc p := hl
        obtain ⟨xs', hins, q, xs, hq, rfl, houts⟩ := h.received hin hno c rfl
        have hins : took k c = (q :: xs) ++ [held val k u] := hins
        have houts : gave k nc = sift q xs := houts
        exact ⟨q, xs, [held val k u], hq, by rw [hins, List.cons_append], Nat.le_refl 1, by rw [houts]⟩
      · obtain rfl : l = .pass c nc p i := hl
        obtain ⟨ys, houts, q, j, xs, hq, -, -, hins, rfl⟩ := h.sent hin hno nc rfl
        have hins : took k c = q :: (xs ++ [j]) := hins
        have houts : gave k nc = sift q xs ++ [At.value (.pass c nc p i)] := houts
        exact ⟨q, xs, [j], hq, hins, Nat.le_refl 1, by rw [houts]; exact List.prefix_append _ _⟩

theorem gave_length (hcore : Core s) (hz : (s.g.chan.chan c).bufsize = buffer.toNat) :
    (gave s.g.chan c).length ≤ (took s.g.chan c).length + buffer.toNat := by
  have horder : s.g.chan.rcvd c ++ Chan.buffered (s.g.chan.chan c) = (s.g.chan.sent c).map Chan.Sent.val :=
    hcore.fifo.order c (hcore.size c).2
  have hlen := congrArg List.length horder
  have hbuf : (Chan.buffered (s.g.chan.chan c)).length = (s.g.chan.chan c).nbuf := by
    simp [Chan.buffered, Libtask.Lib.Ring.ring]
  have hrange := (hcore.chan.range c).nbuf
  rw [List.length_append, List.length_map] at hlen
  rw [gave, took, List.length_map, List.length_map]
  omega

theorem sieving_lag (hcore : Core y.s) (hy : Sieving goal y n ps) (hs : Staffed buffer y) :
    Lag buffer.toNat ps (gave y.s.g.chan) (took y.s.g.chan) where
  queue c _ := gave_length hcore (hs.bufsize c)
  hand c p hp := by
    have hc := (List.getElem?_eq_some_iff.mp hp).1
    obtain ⟨u, hu, hr⟩ := hs.reader c (by rw [hy.nchan]; omega)
    rcases (hy.fits u hu).reader hr with ⟨-, rfl⟩ | ⟨q, hq, hl⟩
    · exact absurd hc (Nat.lt_irrefl _)
    · obtain rfl : q = p := Option.some.inj (hq.symm.trans hp)
      obtain ⟨q', xs, ys, hq', hrest⟩ := (hy.follows u hu).near.2 c (c + 1) q hl
      obtain rfl : q = q' := by omega
      exact ⟨xs, ys, hrest⟩
  last := by
    obtain ⟨u, hu, hr⟩ := hs.reader ps.length (by rw [hy.nchan]; omega)
    rcases (hy.fits u hu).reader hr with ⟨hl, -⟩ | ⟨q, hq, -⟩
    · exact (hy.follows u hu).near.1 _ hl
    · simp at hq

end

end Libtask.Primes
