/-
  Libtask.Chan.Fifo — a channel is a queue: the values received so far, followed by the
  records in the ring, are the values sent so far, and the sends of one task are in its
  program order.

  A send's value is the one at its `v` at the call (`offer`). While its task is blocked
  nobody else stores there (`Untouched`), so it is still that value when the send runs.
  `Moved.fifo` is the argument for each shape of `altcopy`; the direct one keeps the order
  because it is taken only while the ring is empty.
-/

import Libtask.Chan.Runs

namespace Libtask.Chan

open Function (update update_self)
open Libtask.Lib.Ring

/-- What a queued send reads is left alone, up to and including the step that runs it. -/
def Untouched (s s' : St) : Prop :=
  ∀ p a, Queued s p → (s.deref p).op = .CHANSND → (s.deref p).v = some a → Queued s' p ∨ p.i ∈ s'.ran p.arr →
    slice s'.mem a (s.chan (s.deref p).c).elemsize = slice s.mem a (s.chan (s.deref p).c).elemsize

/-- The runs in which nobody changes what a blocked send reads. -/
inductive QuietReach : St → Prop
  | init (size : Nat → Int × Int) (junk : Nat → Nat → UInt8) (mem : Nat → UInt8) : SizesOk size →
      QuietReach (start size junk mem)
  | step {s s' : St} (e : Ev) : QuietReach s → Enabled s e → step s e = .ok s' → Untouched s s' → QuietReach s'

theorem QuietReach.reach {s : St} (h : QuietReach s) : Reach s := by
  induction h with
  | init size junk mem h => exact .init size junk mem h
  | step e _ hen hs _ ih => exact .step e ih hen hs

/-- The records in the ring of `c`. -/
def buffered (ch : Channel) : List (List UInt8) := ring ch.buf ch.elemsize ch.bufsize ch.off ch.nbuf

/-- What was received, then what is buffered, is what was sent. -/
def InOrder (s : St) (c : Nat) : Prop :=
  s.rcvd c ++ buffered (s.chan c) = (s.sent c).map Sent.val

/-! ## The four shapes -/

/-- The bytes of the ring fit an `unsigned int`. -/
def Fits (ch : Channel) : Prop := ch.elemsize * ch.bufsize < 2 ^ 31

theorem slot_u32 {ch : Channel} (h : Fits ch) {k : Nat} (hk : k < ch.bufsize) :
    u32 (k * ch.elemsize) = k * ch.elemsize := by
  have h1 : k * ch.elemsize ≤ ch.bufsize * ch.elemsize := Nat.mul_le_mul_right _ (Nat.le_of_lt hk)
  have h2 : ch.bufsize * ch.elemsize = ch.elemsize * ch.bufsize := Nat.mul_comm _ _
  unfold Fits at h
  exact Nat.mod_eq_of_lt (by omega)

theorem firstSlot_eq {s : St} {c : Nat} (h : Fits (s.chan c)) (ho : (s.chan c).off < (s.chan c).bufsize) :
    firstSlot s c = slice (s.chan c).buf ((s.chan c).off * (s.chan c).elemsize) (s.chan c).elemsize := by
  rw [firstSlot, slot_u32 h ho]

/-- Taking the first record out. -/
theorem buffered_out {s : St} {c : Nat} (r : AltPtr) (hr : InRange (s.chan c)) (h : Fits (s.chan c))
    (hn : (s.chan c).nbuf ≠ 0) : buffered (s.chan c) = firstSlot s c :: buffered ((copyOut s c r).chan c) := by
  have h1 := hr.nbuf
  have ho : (s.chan c).off < (s.chan c).bufsize := by
    have := hr.off
    omega
  have hsucc : (s.chan c).nbuf = ((s.chan c).nbuf - 1) + 1 := by omega
  rw [firstSlot_eq h ho]
  have h2 := copyOut_nbuf r hr hn
  have h3 := copyOut_off s c r
  rw [nextOff_eq hr] at h3
  unfold buffered
  rw [h2, h3, (frame_out s c r).bufsize, (frame_out s c r).elemsize, hsucc, ring_pop _ ho]
  simp [copyOut_eq]

/-- Putting a record behind the last one. -/
theorem buffered_in {s : St} {c : Nat} (p : AltPtr) (hr : InRange (s.chan c)) (h : Fits (s.chan c))
    (hn : (s.chan c).nbuf < (s.chan c).bufsize) :
    buffered ((copyIn s c p).chan c) = buffered (s.chan c) ++ [value s c (s.deref p).v] := by
  have h1 := hr.bufsize
  have h2 := hr.off
  have h3 := hr.nbuf
  have hmod : u32 ((s.chan c).off + (s.chan c).nbuf) = (s.chan c).off + (s.chan c).nbuf :=
    Nat.mod_eq_of_lt (by omega)
  have hslot : ((s.chan c).off + (s.chan c).nbuf) % (s.chan c).bufsize < (s.chan c).bufsize :=
    Nat.mod_lt _ (by omega)
  have hbuf : ((copyIn s c p).chan c).buf = blit (s.chan c).buf
      (((s.chan c).off + (s.chan c).nbuf) % (s.chan c).bufsize * (s.chan c).elemsize) (value s c (s.deref p).v) := by
    simp [copyIn_eq, hmod, slot_u32 h hslot]
  unfold buffered
  rw [copyIn_nbuf p hr hn, copyIn_off, (frame_in s c p).bufsize, (frame_in s c p).elemsize, hbuf]
  exact ring_push _ hn (value_length s c _)

theorem Fits.frame {s s' : St} {c c' : Nat} (h : Fits (s.chan c')) (hf : Frame s c s') : Fits (s'.chan c') := by
  unfold Fits
  rw [hf.elemsize, hf.bufsize]
  exact h

theorem inOrder_out {s : St} {c : Nat} (r : AltPtr) (hr : InRange (s.chan c)) (h : Fits (s.chan c))
    (hn : (s.chan c).nbuf ≠ 0) (ho : InOrder s c) : InOrder (copyOut s c r) c := by
  have h1 : (copyOut s c r).rcvd c = s.rcvd c ++ [firstSlot s c] := by simp [copyOut_eq]
  have h2 : (copyOut s c r).sent = s.sent := by simp [copyOut_eq]
  unfold InOrder at ho ⊢
  rw [h1, h2, ← ho, buffered_out r hr h hn]
  simp

theorem inOrder_in {s : St} {c : Nat} {p : AltPtr} (hr : InRange (s.chan c)) (h : Fits (s.chan c))
    (hn : (s.chan c).nbuf < (s.chan c).bufsize) (hv : value s c (s.deref p).v = (s.offer p).val) (ho : InOrder s c) :
    InOrder (copyIn s c p) c := by
  have h1 : (copyIn s c p).rcvd = s.rcvd := by simp [copyIn_eq]
  have h2 : (copyIn s c p).sent c = s.sent c ++ [s.offer p] := by simp [copyIn_eq]
  unfold InOrder at ho ⊢
  rw [h1, h2, buffered_in p hr h hn, ← List.append_assoc, ho, hv]
  simp

/-- With the ring empty the value handed over is the next one. -/
theorem inOrder_direct {s : St} {c : Nat} {p r : AltPtr} (hn : (s.chan c).nbuf = 0)
    (hv : value s c (s.deref p).v = (s.offer p).val) (ho : InOrder s c) : InOrder (copyDirect s c p r) c := by
  unfold InOrder buffered at ho ⊢
  rw [hn, ring_zero, List.append_nil] at ho
  simp [copyDirect_eq, hn, ho, hv]

theorem Moved.fifo {s s' : St} {c : Nat} {pr : Option AltPtr × Option AltPtr} (hm : Moved s c pr s')
    (hr : InRange (s.chan c)) (h : Fits (s.chan c)) (ho : InOrder s c)
    (hv : ∀ p ∈ pr.1, value s c (s.deref p).v = (s.offer p).val)
    (hfull : ∀ p r, pr = (some p, some r) → (s.chan c).nbuf = (s.chan c).bufsize → (s.chan c).bufsize ≠ 0 →
      ∀ a, (s.deref p).v = some a → slice s'.mem a (s.chan c).elemsize = slice s.mem a (s.chan c).elemsize) :
    InOrder s' c := by
  cases hm with
  | direct p r hn => exact inOrder_direct hn (hv p rfl) ho
  | out r hn _ _ => exact inOrder_out r hr h hn ho
  | in_ p hn _ => exact inOrder_in hr h hn (hv p rfl) ho
  | full p r hf hb =>
    have hfr := frame_out s c r
    have hn : (s.chan c).nbuf ≠ 0 := by omega
    refine inOrder_in (inRange_out r hr hn) (h.frame hfr) (room_after_out r hr hf hb) ?_ (inOrder_out r hr h hn ho)
    rw [hfr.deref, hfr.offer, ← hv p rfl]
    -- the receiver's memory was stored to first
    have hmem : (copyIn (copyOut s c r) c p).mem = (copyOut s c r).mem := by rw [copyIn_eq]
    cases hpv : (s.deref p).v with
    | none => simp [value, St.source, hfr.elemsize]
    | some a =>
      have := hfull p r rfl hf hb a hpv
      rw [hmem] at this
      simp only [value, St.source, St.read, Option.map_some, hfr.elemsize]
      exact this

/-! ## One step -/

/-- The order of each task's sends in a history. -/
def Program (x y : Sent) : Prop := x.task = y.task → x.call < y.call

structure Fifo (s : St) : Prop where
  order : ∀ c, Fits (s.chan c) → InOrder s c
  offer : ∀ p, Queued s p → (s.deref p).op = .CHANSND →
    value s (s.deref p).c (s.deref p).v = (s.offer p).val
  stamp : ∀ t a, s.wait t = some a → s.woken t = 0 → ∀ i,
    (s.offer ⟨a, i⟩).task = t ∧ (s.offer ⟨a, i⟩).call = s.calls t
  past : ∀ c, ∀ x ∈ s.sent c, x.call ≤ s.calls x.task
  /-- The call of a task that was not chosen has sent nothing. -/
  pending : ∀ t a, s.wait t = some a → s.woken t = 0 → ∀ c, ∀ x ∈ s.sent c, x.task = t → x.call < s.calls t
  program : ∀ c, (s.sent c).Pairwise Program

theorem Moved.sent {s s' : St} {c : Nat} {pr : Option AltPtr × Option AltPtr} (hm : Moved s c pr s') (c' : Nat) :
    s'.sent c' = s.sent c' ++ if c' = c then (pr.1.map s.offer).toList else [] := by
  by_cases hc : c' = c
  · subst hc
    cases hm with
    | direct p r _ => simp [copyDirect_eq]
    | out r _ _ _ => simp [copyOut_eq]
    | in_ p _ _ => simp [copyIn_eq]
    | full p r _ _ => simp [copyIn_eq, copyOut_eq]
  · simp [hc, (hm.frame.other c' hc).2.1]

theorem Executed.idle_or_woken {s s' : St} {e : AltPtr} {w : Option TaskPtr} (h : Executed s e s' w) (u : TaskPtr)
    (h0 : (wake s' w).woken u = 0) : s.woken u = 0 := by
  cases h with
  | alone _ hm => exact hm.frame.woken ▸ h0
  | @matched v other s₁ f _ _ _ hm _ _ =>
    have h0 : update s₁.woken v (s₁.woken v + 1) u = 0 := h0
    by_cases huv : u = v
    · subst huv
      simp at h0
    · rw [Function.update_of_ne huv] at h0
      exact hm.frame.woken ▸ h0

/-- What running `e` has moved, and with whom; the rest of `Executed` is about waiting. -/
theorem Executed.data {s s' : St} {e : AltPtr} {w : Option TaskPtr} (hi : Inv s) (hfree : ∀ u, s.wait u ≠ some e.arr)
    (h : Executed s e s' w) : ∃ o s₁, Moved s (s.deref e).c (sides s e o) s₁ ∧
      (∀ p ∈ o, p ∈ queue (s.chan (s.deref e).c) (otherop (s.deref e).op) ∧ p.i ∈ s₁.ran p.arr ∧
        ∀ u, s.wait u = some p.arr → (wake s' w).woken u ≠ 0) ∧
      ((wake s' w).mem = s₁.mem ∧ (wake s' w).sent = s₁.sent ∧ (wake s' w).rcvd = s₁.rcvd ∧
        (wake s' w).ran = s₁.ran) ∧
      ((wake s' w).wait = s.wait ∧ (wake s' w).calls = s.calls ∧ (wake s' w).offer = s.offer) ∧
      (∀ c, ∃ f : Altarray × Altarray, (wake s' w).chan c = { s₁.chan c with asend := f.1, arecv := f.2 }) ∧
      (∀ p, ((wake s' w).deref p).c = (s.deref p).c ∧ ((wake s' w).deref p).v = (s.deref p).v ∧
        ((wake s' w).deref p).op = (s.deref p).op) ∧
      ∀ p, Queued (wake s' w) p → Queued s p := by
  have hi' := inv_executed hi hfree h
  cases h with
  | alone hq hm =>
    have hf := hm.frame
    refine ⟨none, s', hm, nofun, ⟨rfl, rfl, rfl, rfl⟩, ⟨hf.wait, hf.calls, hf.offer⟩, fun c => ⟨(_, _), rfl⟩, ?_, ?_⟩
    · intro p
      show (s'.deref p).c = _ ∧ (s'.deref p).v = _ ∧ (s'.deref p).op = _
      rw [hf.deref]
      exact ⟨rfl, rfl, rfl⟩
    · intro p hp
      have := (hi'.mem _ _ p).mpr ⟨hp, rfl, rfl⟩
      exact ((hi.mem _ _ p).mp (hf.queue _ _ ▸ this)).1
  | @matched u other s₁ f hmem hu h0 hm _ hq =>
    have hf := hm.frame
    have hne : other.arr ≠ e.arr := fun he => hfree u (he ▸ hu)
    refine ⟨some other, s₁, hm, ?_, ⟨rfl, rfl, rfl, rfl⟩, ⟨hf.wait, hf.calls, hf.offer⟩, fun c => ⟨f c, rfl⟩, ?_, ?_⟩
    · intro p hp
      obtain rfl := Option.some.inj hp
      refine ⟨hmem, ?_, ?_⟩
      · rw [hm.ran, (hi.fresh u _ hu h0).1, idx_sides s hne]
        exact List.mem_singleton_self _
      · intro v hv
        obtain rfl := hi.inj v u _ hv hu
        simp [wake]
    · intro p
      obtain ⟨h1, h2, h3, -⟩ := setXalt_deref (requeue s₁ f) ⟨other.arr, 0⟩ other p
      rw [requeue_deref, hf.deref] at h1 h2 h3
      exact ⟨h1, h2, h3⟩
    · intro p hp
      have := (hi'.mem _ _ p).mpr ⟨hp, rfl, rfl⟩
      have := ((hq _ _ p).mp this).1
      exact ((hi.mem _ _ p).mp (hf.queue _ _ ▸ this)).1

/-- Running `e`, an alternative of a call that `t` just made. -/
theorem fifo_executed {s s' : St} (hi : Inv s) (hF : Fifo s) {t : TaskPtr} {e : AltPtr} {w : Option TaskPtr}
    (hidle : s.wait t = none) (hfree : ∀ u, s.wait u ≠ some e.arr)
    (hval : value s (s.deref e).c (s.deref e).v = (s.offer e).val)
    (hstamp : (s.offer e).task = t ∧ (s.offer e).call = s.calls t)
    (hnew : ∀ c, ∀ x ∈ s.sent c, x.task = t → x.call < s.calls t)
    (hx : Executed s e s' w) (hu : Untouched s (wake s' w)) : Fifo (wake s' w) := by
  obtain ⟨o, s₁, hm, ho, ⟨hmem, hsent, hrcvd, hran⟩, ⟨hwait, hcalls, hoffer⟩, hchan, hd, hqd⟩ := hx.data hi hfree
  have hf := hm.frame
  have hwk := hx.idle_or_woken
  -- the sender, `e` or the queued `o`: its value, its number, and that it no longer waits
  have hother : ∀ p ∈ o, ∃ u, s.wait u = some p.arr ∧ s.woken u = 0 := fun p hp =>
    ((hi.mem _ _ p).mp (ho p hp).1).1.1
  have hsender : ∀ p ∈ (sides s e o).1, value s (s.deref e).c (s.deref p).v = (s.offer p).val ∧
      (s.offer p).call = s.calls (s.offer p).task ∧
      (∀ c, ∀ x ∈ s.sent c, x.task = (s.offer p).task → x.call < (s.offer p).call) ∧
      ∀ a, s.wait (s.offer p).task = some a → (wake s' w).woken (s.offer p).task ≠ 0 := by
    intro p hp
    by_cases hop : (s.deref e).op = .CHANRCV
    · have hp : p ∈ o := by simpa [sides, hop] using hp
      obtain ⟨u, hu1, hu2⟩ := hother p hp
      obtain ⟨hq, -, hw⟩ := ho p hp
      obtain ⟨hqd, hc, hop'⟩ := (hi.mem _ _ p).mp hq
      obtain ⟨h1, h2⟩ := hF.stamp u p.arr hu1 hu2 p.i
      have hop'' : (s.deref p).op = .CHANSND := by rw [hop', hop]; rfl
      refine ⟨hc ▸ hF.offer p hqd hop'', by rw [h1, h2], fun c x hxs hxt => ?_, fun a ha => ?_⟩
      · rw [h2]
        exact hF.pending u _ hu1 hu2 c x hxs (hxt.trans h1)
      · rw [h1]
        exact hw u hu1
    · obtain rfl : e = p := by simpa [sides, hop] using hp
      refine ⟨hval, by rw [hstamp.1, hstamp.2], fun c x hxs hxt => ?_, fun a ha => ?_⟩
      · rw [hstamp.2]
        exact hnew c x hxs (hxt.trans hstamp.1)
      · rw [hstamp.1, hidle] at ha
        cases ha
  have hlog : ∀ c, (wake s' w).sent c = s.sent c ∨
      ∃ p ∈ (sides s e o).1, c = (s.deref e).c ∧ (wake s' w).sent c = s.sent c ++ [s.offer p] := by
    intro c
    rw [hsent, hm.sent]
    by_cases hc : c = (s.deref e).c
    · cases hp : (sides s e o).1 with
      | none => simp
      | some p => exact Or.inr ⟨p, rfl, hc, by simp [hc]⟩
    · simp [hc]
  have hchan' : ∀ c, ((wake s' w).chan c).elemsize = (s.chan c).elemsize ∧
      ((wake s' w).chan c).bufsize = (s.chan c).bufsize ∧ buffered ((wake s' w).chan c) = buffered (s₁.chan c) := by
    intro c
    obtain ⟨f, hfc⟩ := hchan c
    rw [hfc]
    exact ⟨hf.elemsize c, hf.bufsize c, rfl⟩
  refine ⟨?_, ?_, ?_, ?_, ?_, ?_⟩
  · intro c hfit
    obtain ⟨he1, he2, he3⟩ := hchan' c
    have hfit' : Fits (s.chan c) := by unfold Fits at hfit ⊢; rwa [he1, he2] at hfit
    show (wake s' w).rcvd c ++ buffered ((wake s' w).chan c) = ((wake s' w).sent c).map Sent.val
    rw [hrcvd, hsent, he3]
    by_cases hc : c = (s.deref e).c
    · subst hc
      refine hm.fifo (hi.range _) hfit' (hF.order _ hfit') (fun p hp => (hsender p hp).1) ?_
      intro p r hpr hfull hb a hv
      rw [← hmem]
      by_cases hop : (s.deref e).op = .CHANRCV
      · -- a queued sender
        have hp : p ∈ o := by
          have := congrArg Prod.fst hpr
          simpa [sides, hop] using this
        obtain ⟨hq, hr, -⟩ := ho p hp
        obtain ⟨hqd', hpc, hop'⟩ := (hi.mem _ _ p).mp hq
        rw [← hpc]
        exact hu p a hqd' (by rw [hop', hop]; rfl) hv (Or.inr (hran ▸ hr))
      · -- a sender finds no receiver waiting on a full ring
        have hr : r ∈ o := by
          have := congrArg Prod.snd hpr
          simpa [sides, hop] using this
        have hq := (ho r hr).1
        cases hope : (s.deref e).op with
        | CHANSND =>
          rw [hope] at hq
          have := hi.recv _ hb (queue_ne_nil hq)
          omega
        | CHANRCV => exact absurd hope hop
        | CHANEND => simp [hope, otherop, queue] at hq
        | CHANNOP => simp [hope, otherop, queue] at hq
        | CHANNOBLK => simp [hope, otherop, queue] at hq
    · obtain ⟨h1, h2, h3⟩ := hf.other c hc
      rw [h1, h2, h3]
      exact hF.order c hfit'
  · intro p hp hop
    obtain ⟨h1, h2, h3⟩ := hd p
    rw [h3] at hop
    rw [h1, h2, hoffer, ← hF.offer p (hqd p hp) hop]
    cases hv : (s.deref p).v with
    | none => simp [value, St.source, (hchan' _).1]
    | some a =>
      have := hu p a (hqd p hp) hop hv (Or.inl hp)
      simpa [value, St.source, St.read, (hchan' _).1] using this
  · intro u b hub h0 i
    rw [hwait] at hub
    rw [hoffer, hcalls]
    exact hF.stamp u b hub (hwk u h0) i
  · intro c x hx
    rw [hcalls]
    rcases hlog c with h | ⟨p, hp, -, h⟩ <;> rw [h] at hx
    · exact hF.past c x hx
    · rcases List.mem_append.mp hx with hx | hx
      · exact hF.past c x hx
      · obtain rfl := List.mem_singleton.mp hx
        exact Nat.le_of_eq (hsender p hp).2.1
  · intro u b hub h0 c x hx hxu
    rw [hwait] at hub
    rw [hcalls]
    rcases hlog c with h | ⟨p, hp, -, h⟩ <;> rw [h] at hx
    · exact hF.pending u b hub (hwk u h0) c x hx hxu
    · rcases List.mem_append.mp hx with hx | hx
      · exact hF.pending u b hub (hwk u h0) c x hx hxu
      · obtain rfl := List.mem_singleton.mp hx
        subst hxu
        exact absurd h0 ((hsender p hp).2.2.2 b hub)
  · intro c
    rcases hlog c with h | ⟨p, hp, -, h⟩ <;> rw [h]
    · exact hF.program c
    · refine List.pairwise_append.mpr ⟨hF.program c, List.pairwise_singleton _ _, ?_⟩
      intro x hx y hy
      obtain rfl := List.mem_singleton.mp hy
      exact (hsender p hp).2.2.1 c x hx

/-! ## Runs -/

theorem entered_offer (s : St) (t : TaskPtr) {a : Nat} {xs : List Alt} {i : Nat} (h : i < altlen xs) :
    value (entered s t a xs) ((entered s t a xs).deref ⟨a, i⟩).c ((entered s t a xs).deref ⟨a, i⟩).v =
      ((entered s t a xs).offer ⟨a, i⟩).val := by
  obtain ⟨x, hx, hd⟩ := entered_own (s := s) (t := t) (a := a) h
  have ho : ((entered s t a xs).offer ⟨a, i⟩).val = value s x.c x.v := by
    simp [entered, enter, hx, value]
  rw [hd, ho]
  cases x.v <;> rfl

theorem entered_stamp (s : St) (t : TaskPtr) (a : Nat) (xs : List Alt) (i : Nat) :
    ((entered s t a xs).offer ⟨a, i⟩).task = t ∧ ((entered s t a xs).offer ⟨a, i⟩).call = (entered s t a xs).calls t := by
  simp [entered, enter]

theorem entered_calls_le (s : St) (t : TaskPtr) (a : Nat) (xs : List Alt) (u : TaskPtr) :
    s.calls u ≤ (entered s t a xs).calls u := by
  by_cases hu : u = t
  · subst hu
    simp [entered, enter]
  · simp [entered, enter, hu]

theorem entered_fresh {s : St} (hF : Fifo s) (t : TaskPtr) (a : Nat) (xs : List Alt) :
    ∀ c, ∀ x ∈ (entered s t a xs).sent c, x.task = t → x.call < (entered s t a xs).calls t := by
  rintro c x hx rfl
  have := hF.past c x hx
  simp [entered, enter]
  omega

theorem queued_entered {s : St} {t : TaskPtr} {a : Nat} (xs : List Alt) (ha : ∀ u, s.wait u ≠ some a) (p : AltPtr) :
    (Queued (entered s t a xs) p ↔ Queued s p) ∧ (Queued s p → (entered s t a xs).deref p = s.deref p) :=
  @queued_congr s (entered s t a xs) rfl rfl (fun u b h => by
    have hne : b ≠ a := fun e => ha u (e ▸ h)
    simp [entered, enter, hne]) p

theorem fifo_entered {s : St} (hF : Fifo s) {t : TaskPtr} {a : Nat} {xs : List Alt} (hc : Callable s t a xs) :
    Fifo (entered s t a xs) := by
  have hq := queued_entered (t := t) xs hc.free
  refine ⟨hF.order, ?_, ?_, ?_, ?_,
    hF.program⟩
  · intro p hp hop
    have hp' := (hq p).1.mp hp
    have hne : p.arr ≠ a := by
      obtain ⟨⟨u, hu, -⟩, -⟩ := hp'
      exact fun e => hc.free u (e ▸ hu)
    have ho : (entered s t a xs).offer p = s.offer p := by simp [entered, enter, hne]
    rw [(hq p).2 hp'] at hop ⊢
    rw [ho, ← hF.offer p hp' hop]
    cases (s.deref p).v <;> rfl
  · intro u b hub h0 i
    have hne : b ≠ a := fun e => hc.free u (e ▸ hub)
    have hut : u ≠ t := fun e => by rw [e, entered_wait, hc.idle] at hub; cases hub
    obtain ⟨h1, h2⟩ := hF.stamp u b hub h0 i
    have ho : (entered s t a xs).offer ⟨b, i⟩ = s.offer ⟨b, i⟩ := by simp [entered, enter, hne]
    rw [ho]
    exact ⟨h1, by simp [entered, enter, hut, h2]⟩
  · intro c x hx
    exact Nat.le_trans (hF.past c x hx) (entered_calls_le s t a xs _)
  · intro u b hub h0 c x hx hxu
    exact Nat.lt_of_lt_of_le (hF.pending u b hub h0 c x hx hxu) (entered_calls_le s t a xs _)

theorem fifo_blocked {s : St} (hF : Fifo s) {t : TaskPtr} {a : Nat} {f : Nat → Altarray × Altarray}
    (hval : ∀ i < altlen (s.alt a), value s (s.deref ⟨a, i⟩).c (s.deref ⟨a, i⟩).v = (s.offer ⟨a, i⟩).val)
    (hstamp : ∀ i, (s.offer ⟨a, i⟩).task = t ∧ (s.offer ⟨a, i⟩).call = s.calls t)
    (hnew : ∀ c, ∀ x ∈ s.sent c, x.task = t → x.call < s.calls t) : Fifo (blocked (requeue s f) t a) := by
  have hwt : ∀ u b, update s.wait t (some a) u = some b → update s.woken t 0 u = 0 →
      (u = t ∧ b = a) ∨ (s.wait u = some b ∧ s.woken u = 0) := by
    intro u b hb h0
    by_cases hu : u = t
    · subst hu
      rw [update_self] at hb
      exact Or.inl ⟨rfl, (Option.some.inj hb).symm⟩
    · rw [Function.update_of_ne hu] at hb h0
      exact Or.inr ⟨hb, h0⟩
  refine ⟨hF.order, ?_, ?_, hF.past, ?_, hF.program⟩
  · intro p hp hop
    obtain ⟨⟨u, hu, h0⟩, hlt, hnop⟩ := hp
    rcases hwt u _ hu h0 with ⟨-, hpa⟩ | h
    · have hpp : p = ⟨a, p.i⟩ := by cases p; simp_all
      rw [hpp]
      exact hval p.i (hpa ▸ hlt)
    · exact hF.offer p ⟨⟨u, h⟩, hlt, hnop⟩ hop
  · intro u b hub h0 i
    rcases hwt u b hub h0 with ⟨rfl, rfl⟩ | h
    · exact hstamp i
    · exact hF.stamp u b h.1 h.2 i
  · intro u b hub h0
    rcases hwt u b hub h0 with ⟨rfl, rfl⟩ | h
    · exact hnew
    · exact hF.pending u b h.1 h.2

theorem fifo_step {s s' : St} (hi : Inv s) (hF : Fifo s) {e : Ev} (hen : Enabled s e) (hs : step s e = .ok s')
    (hu : Untouched s s') : Fifo s' := by
  cases e with
  | call t a xs r1 r2 =>
    have hc := callable_of_enabled hen
    obtain ⟨s₁, w, ret, ho, hs'⟩ := call_spec hi hc r1 r2
    obtain rfl : _ = s' := Except.ok.inj (hs'.symm.trans hs)
    have he := inv_entered hi (t := t) xs hc.free
    have hFe := fifo_entered hF hc
    have hlen : altlen ((entered s t a xs).alt a) = altlen xs := by rw [entered_alt, own_altlen t a hc.ends]
    cases ho with
    | @ran i s₁ w hlt hx =>
      refine fifo_executed (e := ⟨a, i⟩) he hFe hc.idle hc.free (entered_offer s t hlt) (entered_stamp s t a xs i)
        (entered_fresh hF t a xs) hx ?_
      intro p v hp
      have hq := queued_entered (t := t) xs hc.free p
      have hp' := hq.1.mp hp
      rw [hq.2 hp']
      exact hu p v hp'
    | refused _ => exact hFe
    | queued hst hnd hq =>
      exact fifo_blocked hFe (fun i hlt => entered_offer s t (hlen ▸ hlt)) (entered_stamp s t a xs)
        (entered_fresh hF t a xs)
  | resume t =>
    obtain rfl := Except.ok.inj hs
    have hwt : ∀ u b, update s.wait t none u = some b → s.wait u = some b := fun u b hb => by
      by_cases hu : u = t
      · subst hu; simp at hb
      · simpa [hu] using hb
    refine ⟨hF.order, ?_, fun u b hub => hF.stamp u b (hwt u b hub), hF.past,
      fun u b hub => hF.pending u b (hwt u b hub), hF.program⟩
    intro p hp hop
    obtain ⟨⟨u, hu', h0⟩, hrest⟩ := hp
    exact hF.offer p ⟨⟨u, hwt u _ hu', h0⟩, hrest⟩ hop
  | poke x b =>
    obtain rfl := Except.ok.inj hs
    refine ⟨hF.order, ?_, hF.stamp, hF.past, hF.pending, hF.program⟩
    intro p hp hop
    have hp' : Queued s p := hp
    have hval := hF.offer p hp' hop
    show value { s with mem := update s.mem x b } (s.deref p).c (s.deref p).v = (s.offer p).val
    rw [← hval]
    cases hv : (s.deref p).v with
    | none => rfl
    | some a =>
      have := hu p a hp' hop hv (Or.inl hp)
      simpa [value, St.source, St.read] using this

theorem fifo {s : St} (h : QuietReach s) : Fifo s := by
  induction h with
  | init size junk mem h =>
    have hw : ∀ t a, (start size junk mem).wait t ≠ some a := fun t a => by simp [start]
    refine ⟨?_, ?_, fun t a h => absurd h (hw t a), ?_, fun t a h => absurd h (hw t a), ?_⟩
    · intro c _
      simp [InOrder, buffered, start, chancreate]
    · intro p hp
      obtain ⟨⟨t, ht, -⟩, -⟩ := hp
      exact absurd ht (hw t _)
    · intro c x hx
      simp [start] at hx
    · intro c
      simp [start]
  | step e hr hen hs hu ih => exact fifo_step (inv hr.reach) ih hen hs hu

/-! ## The result -/

/-- Values come out in the order in which they were sent, and each is there once: received,
    or in the ring. A task's sends are in the order of its calls, one a call. -/
theorem channel_fifo {s : St} (h : QuietReach s) (c : Nat) (hc : (s.chan c).elemsize * (s.chan c).bufsize < 2 ^ 31) :
    s.rcvd c ++ ring (s.chan c).buf (s.chan c).elemsize (s.chan c).bufsize (s.chan c).off (s.chan c).nbuf =
        (s.sent c).map Sent.val ∧
      s.rcvd c = ((s.sent c).take (s.rcvd c).length).map Sent.val ∧
      (s.sent c).Pairwise (fun x y => x.task = y.task → x.call < y.call) := by
  have hF := fifo h
  have ho : s.rcvd c ++ buffered (s.chan c) = (s.sent c).map Sent.val := hF.order c hc
  refine ⟨ho, ?_, hF.program c⟩
  rw [List.map_take, ← ho, List.take_left]

/-- Task 1 waits to send the byte at address 5, then task 2 receives it. -/
theorem channel_fifo_received : ∃ s, QuietReach s ∧ s.rcvd 0 = [[5]] ∧
    s.rcvd 0 ++ ring (s.chan 0).buf (s.chan 0).elemsize (s.chan 0).bufsize (s.chan 0).off (s.chan 0).nbuf =
      (s.sent 0).map Sent.val := by
  have h0 : QuietReach (start (fun _ => (1, 0)) (fun _ _ => 0) (fun x => x.toUInt8)) := .init _ _ _ (fun _ => by decide)
  have h1 := QuietReach.step (.call 1 1 (chansend 0 (some 5)) 0 0) h0 ⟨rfl, fun u => nofun, by decide⟩ rfl
    (fun _ _ _ _ _ _ => rfl)
  have h2 := QuietReach.step (.call 2 2 (chanrecv 0 none) 0 0) h1
    ⟨rfl, fun u => by
      show update (fun _ => none) 1 (some 1) u ≠ some 2
      by_cases hu : u = 1
      · subst hu; decide
      · simp [hu], by decide⟩ rfl
    (fun _ _ _ _ _ _ => rfl)
  exact ⟨_, h2, by decide, (channel_fifo h2 0 (by decide)).1⟩

end Libtask.Chan
