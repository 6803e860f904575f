/-
  Libtask.Chan.Moves — what `altcopy` does. Each of its four shapes is one explicit update
  of the ring, the receiver's memory and the history (`copyDirect_eq`, `copyOut_eq`,
  `copyIn_eq`); `Moved` lists them with the ring's state in which each is taken. Who waits
  where is not touched by any of them (`Moved.frame`).
-/

import Libtask.Chan.Queues

namespace Libtask.Chan

open Function (update)
open Libtask.Lib.Ring

/-- The tasks' memory after `bs` was stored at `v`. -/
def stored (s : St) (v : Option Nat) (bs : List UInt8) : Nat → UInt8 :=
  match v with
  | some a => blit s.mem a bs
  | none => s.mem

/-- The value at the source `v` of a send on `c`. -/
def value (s : St) (c : Nat) (v : Option Nat) : List UInt8 := s.source (s.chan c).elemsize (v.map .user)

@[simp] theorem value_length (s : St) (c : Nat) (v : Option Nat) : (value s c v).length = (s.chan c).elemsize := by
  cases v <;> simp [value, St.source, St.read]

/-- The first slot of the ring. -/
def firstSlot (s : St) (c : Nat) : List UInt8 :=
  slice (s.chan c).buf (u32 ((s.chan c).off * (s.chan c).elemsize)) (s.chan c).elemsize

/-- `++c->off`, back to 0 at the end. -/
def nextOff (ch : Channel) : Nat := if u32 (ch.off + 1) = ch.bufsize then 0 else u32 (ch.off + 1)

theorem copyDirect_eq (s : St) (c : Nat) (p r : AltPtr) : copyDirect s c p r =
    { s with
      mem := stored s (s.deref r).v (value s c (s.deref p).v)
      rcvd := update s.rcvd c (s.rcvd c ++ [value s c (s.deref p).v])
      sent := update s.sent c (s.sent c ++ [s.offer p])
      ran := update (update s.ran r.arr (s.ran r.arr ++ [r.i])) p.arr
        (update s.ran r.arr (s.ran r.arr ++ [r.i]) p.arr ++ [p.i]) } := by
  cases h : (s.deref r).v with
  | none => simp [copyDirect, amove, St.noteRcvd, St.noteSent, h, stored, value]
  | some a =>
    have hd : ∀ m, St.deref { s with mem := m } r = s.deref r := fun _ => rfl
    simp [copyDirect, amove, St.noteRcvd, St.noteSent, St.write, h, hd, stored, value, slice_blit]

theorem copyOut_eq (s : St) (c : Nat) (r : AltPtr) : copyOut s c r =
    { s with
      mem := stored s (s.deref r).v (firstSlot s c)
      rcvd := update s.rcvd c (s.rcvd c ++ [firstSlot s c])
      ran := update s.ran r.arr (s.ran r.arr ++ [r.i])
      chan := update s.chan c { s.chan c with
        nbuf := u32 ((s.chan c).nbuf + (2 ^ 32 - 1)), off := nextOff (s.chan c) } } := by
  cases h : (s.deref r).v with
  | none => simp [copyOut, amove, St.noteRcvd, St.setChan, St.read, h, stored, firstSlot, nextOff]
  | some a =>
    have hd : ∀ m, St.deref { s with mem := m } r = s.deref r := fun _ => rfl
    have hl := slice_blit s.mem a (firstSlot s c)
    simp only [firstSlot, slice_length] at hl
    simp [copyOut, amove, St.noteRcvd, St.setChan, St.write, St.source, St.read, h, hd, stored, firstSlot, nextOff, hl]

theorem copyIn_eq (s : St) (c : Nat) (p : AltPtr) : copyIn s c p =
    { s with
      sent := update s.sent c (s.sent c ++ [s.offer p])
      ran := update s.ran p.arr (s.ran p.arr ++ [p.i])
      chan := update s.chan c { s.chan c with
        buf := blit (s.chan c).buf
          (u32 (u32 ((s.chan c).off + (s.chan c).nbuf) % (s.chan c).bufsize * (s.chan c).elemsize))
          (value s c (s.deref p).v)
        nbuf := u32 ((s.chan c).nbuf + 1) } } := by
  simp [copyIn, amove, St.noteSent, St.setChan, St.write, value]

/-- The shapes of a data movement on channel `c` from sender `pr.1` to receiver `pr.2`. -/
inductive Moved (s : St) (c : Nat) : Option AltPtr × Option AltPtr → St → Prop
  | direct (p r : AltPtr) : (s.chan c).nbuf = 0 → Moved s c (some p, some r) (copyDirect s c p r)
  | out (r : AltPtr) : (s.chan c).nbuf ≠ 0 → (s.chan c).bufsize ≠ 0 → queue (s.chan c) .CHANSND = [] →
      Moved s c (none, some r) (copyOut s c r)
  | in_ (p : AltPtr) : (s.chan c).nbuf < (s.chan c).bufsize → queue (s.chan c) .CHANRCV = [] →
      Moved s c (some p, none) (copyIn s c p)
  | full (p r : AltPtr) : (s.chan c).nbuf = (s.chan c).bufsize → (s.chan c).bufsize ≠ 0 →
      Moved s c (some p, some r) (copyIn (copyOut s c r) c p)

/-- What no data movement on `c` touches. -/
structure Frame (s : St) (c : Nat) (s' : St) : Prop where
  alt : s'.alt = s.alt
  wait : s'.wait = s.wait
  woken : s'.woken = s.woken
  calls : s'.calls = s.calls
  offer : s'.offer = s.offer
  queue : ∀ c' op, queue (s'.chan c') op = queue (s.chan c') op
  bufsize : ∀ c', (s'.chan c').bufsize = (s.chan c').bufsize
  elemsize : ∀ c', (s'.chan c').elemsize = (s.chan c').elemsize
  other : ∀ c', c' ≠ c → s'.chan c' = s.chan c' ∧ s'.sent c' = s.sent c' ∧ s'.rcvd c' = s.rcvd c'

theorem Frame.deref {s s' : St} {c : Nat} (h : Frame s c s') (p : AltPtr) : s'.deref p = s.deref p := by
  simp [St.deref, h.alt]

theorem Frame.trans {s t u : St} {c : Nat} (h : Frame s c t) (h' : Frame t c u) : Frame s c u where
  alt := h'.alt.trans h.alt
  wait := h'.wait.trans h.wait
  woken := h'.woken.trans h.woken
  calls := h'.calls.trans h.calls
  offer := h'.offer.trans h.offer
  queue c' op := (h'.queue c' op).trans (h.queue c' op)
  bufsize c' := (h'.bufsize c').trans (h.bufsize c')
  elemsize c' := (h'.elemsize c').trans (h.elemsize c')
  other c' hc := by
    obtain ⟨h1, h2, h3⟩ := h.other c' hc
    obtain ⟨h1', h2', h3'⟩ := h'.other c' hc
    exact ⟨h1'.trans h1, h2'.trans h2, h3'.trans h3⟩

theorem update_field {α : Type} {γ : Type} (g : α → γ) (f : Nat → α) (c : Nat) (x : α) (h : g x = g (f c)) (c' : Nat) :
    g (update f c x c') = g (f c') := by
  by_cases hc : c' = c
  · subst hc; simp [h]
  · simp [hc]

theorem queue_update (s : St) (c : Nat) (x : Channel) (hs : x.asend = (s.chan c).asend) (hr : x.arecv = (s.chan c).arecv)
    (c' : Nat) (op : AltOp) : queue (update s.chan c x c') op = queue (s.chan c') op := by
  apply update_field (g := fun ch => queue ch op)
  cases op <;> simp [queue, hs, hr]

theorem frame_direct (s : St) (c : Nat) (p r : AltPtr) : Frame s c (copyDirect s c p r) := by
  rw [copyDirect_eq]
  exact ⟨rfl, rfl, rfl, rfl, rfl, fun _ _ => rfl, fun _ => rfl, fun _ => rfl,
    fun c' hc => ⟨rfl, by simp [hc], by simp [hc]⟩⟩

theorem frame_out (s : St) (c : Nat) (r : AltPtr) : Frame s c (copyOut s c r) := by
  rw [copyOut_eq]
  refine ⟨rfl, rfl, rfl, rfl, rfl, queue_update s c _ rfl rfl, ?_, ?_, fun c' hc => ⟨?_, rfl, ?_⟩⟩
  · exact update_field (g := Channel.bufsize) _ _ _ rfl
  · exact update_field (g := Channel.elemsize) _ _ _ rfl
  · simp [hc]
  · simp [hc]

theorem frame_in (s : St) (c : Nat) (p : AltPtr) : Frame s c (copyIn s c p) := by
  rw [copyIn_eq]
  refine ⟨rfl, rfl, rfl, rfl, rfl, queue_update s c _ rfl rfl, ?_, ?_, fun c' hc => ⟨?_, ?_, rfl⟩⟩
  · exact update_field (g := Channel.bufsize) _ _ _ rfl
  · exact update_field (g := Channel.elemsize) _ _ _ rfl
  · simp [hc]
  · simp [hc]

theorem Moved.frame {s s' : St} {c : Nat} {pr : Option AltPtr × Option AltPtr} (h : Moved s c pr s') : Frame s c s' := by
  cases h with
  | direct p r _ => exact frame_direct s c p r
  | out r _ _ _ => exact frame_out s c r
  | in_ p _ _ => exact frame_in s c p
  | full p r _ _ => exact (frame_out s c r).trans (frame_in _ c p)

/-! ## The ring's numbers -/

/-- The numbers of a channel that `chancreate` made are in range. -/
structure InRange (ch : Channel) : Prop where
  bufsize : ch.bufsize < 2 ^ 31
  nbuf : ch.nbuf ≤ ch.bufsize
  off : ch.off < max ch.bufsize 1

theorem nextOff_eq {ch : Channel} (h : InRange ch) :
    nextOff ch = if ch.off + 1 = ch.bufsize then 0 else ch.off + 1 := by
  have h1 := h.bufsize
  have h2 := h.off
  have : u32 (ch.off + 1) = ch.off + 1 := Nat.mod_eq_of_lt (by omega)
  rw [nextOff, this]

theorem nextOff_lt {ch : Channel} (h : InRange ch) (hb : ch.bufsize ≠ 0) : nextOff ch < ch.bufsize := by
  rw [nextOff_eq h]
  have := h.off
  split <;> omega

theorem copyOut_nbuf {s : St} {c : Nat} (r : AltPtr) (h : InRange (s.chan c)) (hn : (s.chan c).nbuf ≠ 0) :
    ((copyOut s c r).chan c).nbuf = (s.chan c).nbuf - 1 := by
  have h1 := h.bufsize
  have h2 := h.nbuf
  simp only [copyOut_eq, Function.update_self, u32]
  omega

theorem copyOut_off (s : St) (c : Nat) (r : AltPtr) : ((copyOut s c r).chan c).off = nextOff (s.chan c) := by
  simp [copyOut_eq]

theorem copyIn_nbuf {s : St} {c : Nat} (p : AltPtr) (h : InRange (s.chan c)) (hn : (s.chan c).nbuf < (s.chan c).bufsize) :
    ((copyIn s c p).chan c).nbuf = (s.chan c).nbuf + 1 := by
  have h1 := h.bufsize
  simp only [copyIn_eq, Function.update_self, u32]
  omega

theorem copyIn_off (s : St) (c : Nat) (p : AltPtr) : ((copyIn s c p).chan c).off = (s.chan c).off := by
  simp [copyIn_eq]

theorem inRange_out {s : St} {c : Nat} (r : AltPtr) (h : InRange (s.chan c)) (hn : (s.chan c).nbuf ≠ 0) :
    InRange ((copyOut s c r).chan c) := by
  have h1 := h.bufsize
  have h2 := h.nbuf
  have hb : (s.chan c).bufsize ≠ 0 := by omega
  refine ⟨?_, ?_, ?_⟩
  · rw [(frame_out s c r).bufsize]; exact h1
  · rw [(frame_out s c r).bufsize, copyOut_nbuf r h hn]; omega
  · rw [(frame_out s c r).bufsize, copyOut_off]
    have := nextOff_lt h hb
    omega

theorem inRange_in {s : St} {c : Nat} (p : AltPtr) (h : InRange (s.chan c)) (hn : (s.chan c).nbuf < (s.chan c).bufsize) :
    InRange ((copyIn s c p).chan c) := by
  refine ⟨?_, ?_, ?_⟩
  · rw [(frame_in s c p).bufsize]; exact h.bufsize
  · rw [(frame_in s c p).bufsize, copyIn_nbuf p h hn]; omega
  · rw [(frame_in s c p).bufsize, copyIn_off]; exact h.off

/-- Room for the sender once the receiver took its value out of a full ring. -/
theorem room_after_out {s : St} {c : Nat} (r : AltPtr) (h : InRange (s.chan c))
    (hf : (s.chan c).nbuf = (s.chan c).bufsize) (hb : (s.chan c).bufsize ≠ 0) :
    ((copyOut s c r).chan c).nbuf < ((copyOut s c r).chan c).bufsize := by
  rw [(frame_out s c r).bufsize, copyOut_nbuf r h (by omega)]
  omega

theorem Moved.inRange {s s' : St} {c : Nat} {pr : Option AltPtr × Option AltPtr} (h : Moved s c pr s')
    (hr : ∀ c', InRange (s.chan c')) : ∀ c', InRange (s'.chan c') := by
  intro c'
  by_cases hc : c' = c
  · subst hc
    cases h with
    | direct p r _ => rw [copyDirect_eq]; exact hr c'
    | out r hn _ _ => exact inRange_out r (hr c') hn
    | in_ p hn _ => exact inRange_in p (hr c') hn
    | full p r hf hb => exact inRange_in p (inRange_out r (hr c') (by omega)) (room_after_out r (hr c') hf hb)
  · rw [(h.frame.other c' hc).1]
    exact hr c'

/-- The number of buffered values changes only with the waiting side empty. -/
theorem Moved.nbuf {s s' : St} {c : Nat} {pr : Option AltPtr × Option AltPtr} (h : Moved s c pr s')
    (hr : ∀ c', InRange (s.chan c')) (c' : Nat) :
    (s'.chan c').nbuf = (s.chan c').nbuf ∨
      ((s.chan c').bufsize ≠ 0 ∧ (s.chan c').nbuf ≠ 0 ∧ queue (s.chan c') .CHANSND = []) ∨
      ((s.chan c').nbuf < (s.chan c').bufsize ∧ queue (s.chan c') .CHANRCV = []) := by
  by_cases hc : c' = c
  · subst hc
    cases h with
    | direct p r _ => left; rw [copyDirect_eq]
    | out r hn hb hq => exact Or.inr (Or.inl ⟨hb, hn, hq⟩)
    | in_ p hn hq => exact Or.inr (Or.inr ⟨hn, hq⟩)
    | full p r hf hb =>
      left
      have h1 := inRange_out r (hr c') (by omega)
      rw [copyIn_nbuf p h1 (room_after_out r (hr c') hf hb), copyOut_nbuf r (hr c') (by omega)]
      omega
  · left; rw [(h.frame.other c' hc).1]

end Libtask.Chan
