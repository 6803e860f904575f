/-
  Libtask.Chan.Slots — the memory of a channel, and the slots that `altcopy` uses in it.

  `chancreate` asks `malloc` for a size computed in `int` and `size_t`; `altcopy` computes where a
  slot is in `unsigned int`. `slots_fit`: every access lies in what was asked for, and different
  slots do not overlap, exactly if `bufsize*elemsize` is less than 2^32 less the header. Every slot
  is used in some run (`slot_reached`). `no_room` is a channel without memory.
-/

import Libtask.Chan.Runs

namespace Libtask.Chan

open Function (update update_self)
open Libtask.Lib.Ring

/-! ## Sizes -/

/-- `sizeof(Channel)`, where pointers have 8 bytes. -/
def sizeofChannel : Nat := 64

/-- `sizeof *c+bufsize*elemsize` -/
def chanbytes (elemsize bufsize : Int) : BitVec 64 :=
  BitVec.ofNat 64 sizeofChannel + (BitVec.ofInt 32 bufsize * BitVec.ofInt 32 elemsize).signExtend 64

/-- What `malloc` is asked for behind the header, where `c->buf` points. -/
def room (elemsize bufsize : Int) : Nat := (chanbytes elemsize bufsize).toNat - sizeofChannel

/-- `c->off*c->elemsize` -/
def outAt (ch : Channel) : Nat := u32 (ch.off * ch.elemsize)

/-- `(c->off+c->nbuf)%c->bufsize*c->elemsize` -/
def inAt (ch : Channel) (off nbuf : Nat) : Nat := u32 (u32 (off + nbuf) % ch.bufsize * ch.elemsize)

/-- `altcopy` can read or write `elemsize` bytes from `o` on: the block `if(r)`, the block `if(s)`, or
    this behind the other. -/
def Touches (ch : Channel) (o : Nat) : Prop :=
  o = outAt ch ∨ o = inAt ch ch.off ch.nbuf ∨ o = inAt ch (nextOff ch) (u32 (ch.nbuf + (2 ^ 32 - 1)))

/-- Channel `c`, in some run, was made by `chancreate(elemsize, bufsize)`. -/
structure Made (s : St) (c : Nat) (elemsize bufsize : Int) : Prop where
  reach : Reach s
  elemsize : ((s.chan c).elemsize : Int) = elemsize
  bufsize : ((s.chan c).bufsize : Int) = bufsize

/-- What `altcopy` changes of a buffer is there. -/
theorem copyIn_buf {s : St} {c c' i : Nat} (p : AltPtr)
    (hi : i < inAt (s.chan c') (s.chan c').off (s.chan c').nbuf ∨
      inAt (s.chan c') (s.chan c').off (s.chan c').nbuf + (s.chan c').elemsize ≤ i) :
    ((copyIn s c p).chan c').buf i = (s.chan c').buf i := by
  rw [copyIn_eq]
  by_cases hc : c' = c
  · subst hc
    simp only [update_self]
    exact blit_outside _ _ _ (by rwa [value_length])
  · simp only [Function.update_of_ne hc]

theorem copyOut_buf (s : St) (c c' : Nat) (r : AltPtr) : ((copyOut s c r).chan c').buf = (s.chan c').buf := by
  rw [copyOut_eq]
  by_cases hc : c' = c
  · subst hc
    simp only [update_self]
  · simp only [Function.update_of_ne hc]

theorem copyBuffered_buf {s s' : St} {c c' i : Nat} {p r : Option AltPtr} (h : copyBuffered s c p r = .ok s')
    (hi : ∀ o, Touches (s.chan c') o → i < o ∨ o + (s.chan c').elemsize ≤ i) : (s'.chan c').buf i = (s.chan c').buf i := by
  unfold copyBuffered at h
  split at h
  · cases h
  · cases r with
    | none =>
      cases p with
      | none => exact Except.ok.inj h ▸ rfl
      | some p => exact Except.ok.inj h ▸ copyIn_buf p (hi _ (.inr (.inl rfl)))
    | some r =>
      cases p with
      | none => exact Except.ok.inj h ▸ congrFun (copyOut_buf s c c' r) i
      | some p =>
        rw [← Except.ok.inj h, ← congrFun (copyOut_buf s c c' r) i]
        refine copyIn_buf p ?_
        by_cases hc : c' = c
        · subst hc
          have hn : ((copyOut s c' r).chan c').nbuf = u32 ((s.chan c').nbuf + (2 ^ 32 - 1)) := by
            rw [copyOut_eq]
            simp only [update_self]
          unfold inAt
          rw [(frame_out s c' r).elemsize, (frame_out s c' r).bufsize, copyOut_off, hn]
          exact hi _ (.inr (.inr rfl))
        · rw [((frame_out s c r).other c' hc).1]
          exact hi _ (.inr (.inl rfl))

/-- `altcopy` changes nothing of a buffer but what it touches. -/
theorem altcopy_touches {s s' : St} {p r : Option AltPtr} (h : altcopy s p r = .ok s') {c i : Nat}
    (hi : ∀ o, Touches (s.chan c) o → i < o ∨ o + (s.chan c).elemsize ≤ i) : (s'.chan c).buf i = (s.chan c).buf i := by
  unfold altcopy at h
  cases p with
  | none =>
    cases r with
    | none => exact Except.ok.inj h ▸ rfl
    | some r => cases h
  | some a =>
    dsimp only at h
    generalize (if (s.deref a).op = .CHANRCV then (r, some a) else (some a, r)) = pr at h
    obtain ⟨p, r⟩ := pr
    split at h
    · cases h
    · split at h
      · cases h
      · split at h
        · split at h
          · rw [← Except.ok.inj h, copyDirect_eq]
          · exact copyBuffered_buf h hi
        · exact copyBuffered_buf h hi

theorem product_toNat (e b : Nat) : (BitVec.ofInt 32 b * BitVec.ofInt 32 e).toNat = b * e % 2 ^ 32 := by
  rw [BitVec.ofInt_natCast, BitVec.ofInt_natCast, BitVec.toNat_mul, BitVec.toNat_ofNat, BitVec.toNat_ofNat, ← Nat.mul_mod]

theorem room_eq (e b : Nat) : room e b =
    if b * e % 2 ^ 32 < 2 ^ 31 then b * e % 2 ^ 32
    else if b * e % 2 ^ 32 < 2 ^ 32 - sizeofChannel then b * e % 2 ^ 32 + (2 ^ 64 - 2 ^ 32) else 0 := by
  have hlt : b * e % 2 ^ 32 < 2 ^ 32 := Nat.mod_lt _ (by decide)
  unfold room chanbytes sizeofChannel
  rw [BitVec.toNat_add, BitVec.toNat_signExtend, BitVec.toNat_setWidth, BitVec.msb_eq_decide, product_toNat, BitVec.toNat_ofNat]
  simp only [decide_eq_true_eq]
  by_cases h : b * e % 2 ^ 32 < 2 ^ 31
  · rw [if_pos h, if_neg (by omega)]
    omega
  · rw [if_neg h, if_pos (by omega)]
    split <;> omega

/-! ## Slots -/

section
variable {ch : Channel} {e b : Nat}

theorem inAt_slot (hb : ch.bufsize ≠ 0) (off nbuf : Nat) : ∃ k < ch.bufsize, inAt ch off nbuf = u32 (k * ch.elemsize) :=
  ⟨_, Nat.mod_lt _ (Nat.pos_of_ne_zero hb), rfl⟩

/-- `altcopy` uses the slots of the ring. -/
theorem touches_slot (h : InRange ch) (hb : ch.bufsize ≠ 0) {o : Nat} (ho : Touches ch o) :
    ∃ k < ch.bufsize, o = u32 (k * ch.elemsize) := by
  rcases ho with rfl | rfl | rfl
  · have := h.off
    exact ⟨ch.off, by omega, rfl⟩
  · exact inAt_slot hb _ _
  · exact inAt_slot hb _ _

/-- The slots of a ring of at most 2^32 bytes are where they should be. -/
theorem slot_inside (hq : b * e ≤ 2 ^ 32) (he : 0 < e) {k : Nat} (hk : k < b) : u32 (k * e) = k * e ∧ k * e + e ≤ b * e := by
  have hle : (k + 1) * e ≤ b * e := Nat.mul_le_mul_right e hk
  rw [Nat.succ_mul] at hle
  exact ⟨Nat.mod_eq_of_lt (by omega), hle⟩

/-- `[x, x+n)` and `[y, y+n)` have no byte in common. -/
def Apart (x y n : Nat) : Prop := x + n ≤ y ∨ y + n ≤ x

/-- A ring that is too large: its first slot is not in memory, or another one overlaps that. -/
theorem too_large (he : 0 < e) (he' : e < 2 ^ 31) (hq : 2 ^ 32 - sizeofChannel ≤ b * e) :
    room e b < e ∨ ∃ k < b, 0 < k ∧ ¬ Apart 0 (u32 (k * e)) e := by
  -- the first slot that begins at 2^32 or later
  obtain ⟨k, hk, hk'⟩ : ∃ k, 2 ^ 32 ≤ k * e ∧ k * e < 2 ^ 32 + e := by
    refine ⟨(2 ^ 32 + e - 1) / e, ?_, ?_⟩
    · have := Nat.lt_div_mul_add (a := 2 ^ 32 + e - 1) he
      omega
    · have := Nat.div_mul_le_self (2 ^ 32 + e - 1) e
      omega
  by_cases hkb : k < b
  · refine .inr ⟨k, hkb, Nat.pos_of_ne_zero fun h0 => ?_, fun hap => ?_⟩
    · rw [h0, Nat.zero_mul] at hk
      omega
    · have hu : u32 (k * e) = k * e - 2 ^ 32 := by
        unfold u32
        omega
      rw [hu] at hap
      rcases hap with h | h <;> omega
  · left
    have hle : b * e ≤ k * e := Nat.mul_le_mul_right e (Nat.le_of_not_lt hkb)
    rw [room_eq]
    unfold sizeofChannel at hq ⊢
    by_cases hlt : b * e < 2 ^ 32
    · rw [Nat.mod_eq_of_lt hlt, if_neg (by omega), if_neg (by omega)]
      exact he
    · have hmod : b * e % 2 ^ 32 = b * e - 2 ^ 32 := by omega
      rw [hmod, if_pos (by omega)]
      omega

end

/-! ## Every slot is used -/

section
variable {s : St} {c k e b : Nat}

/-- Nobody waits, and the ring of `c` is empty, with its first slot at `k`. -/
structure EmptyAt (s : St) (c k e b : Nat) : Prop where
  reach : Reach s
  idle : ∀ u, s.wait u = none
  nbuf : (s.chan c).nbuf = 0
  off : (s.chan c).off = k
  elemsize : (s.chan c).elemsize = e
  bufsize : (s.chan c).bufsize = b

/-- A task, alone, runs one operation that is possible. -/
theorem op_alone (hr : Reach s) (hidle : ∀ u, s.wait u = none) {op : AltOp} (hop : op = .CHANSND ∨ op = .CHANRCV)
    (hcan : altcanexec s ⟨c, none, op, some 0, some ⟨0, 0⟩⟩ = true) : ∃ s', Reach s' ∧ s'.wait = s.wait ∧
      Moved (entered s 0 0 (_chanop c op none false)) c (if op = .CHANRCV then (none, some ⟨0, 0⟩) else (some ⟨0, 0⟩, none)) s' := by
  have hi := inv hr
  have hlen : altlen (_chanop c op none false) = 1 := by
    rcases hop with rfl | rfl <;> rfl
  have hen : Enabled s (.call 0 0 (_chanop c op none false) 0 0) := by
    refine ⟨hidle 0, fun u hu => (nomatch (hidle u).symm.trans hu), ?_⟩
    rw [hlen]
    exact Nat.one_lt_two
  obtain ⟨s', w, ret, ho, hs⟩ := call_spec hi (callable_of_enabled hen) 0 0
  have hd : (entered s 0 0 (_chanop c op none false)).deref ⟨0, 0⟩ = ⟨c, none, op, some 0, some ⟨0, 0⟩⟩ := by
    obtain ⟨x, hx, hd⟩ := entered_own (s := s) (t := 0) (a := 0) (hlen ▸ Nat.one_pos : 0 < altlen (_chanop c op none false))
    rw [hd, ← Option.some.inj hx]
  have hstuck : ¬ Stuck (entered s 0 0 (_chanop c op none false)) 0 := fun hst => by
    have hno := hst 0 (by rw [entered_alt, own_altlen 0 0 (by rw [hlen]; exact Nat.one_lt_two), hlen]; exact Nat.one_pos)
    rw [hd] at hno
    exact nomatch hno.symm.trans hcan
  cases ho with
  | @ran i _ _ hi' hx =>
    obtain rfl : i = 0 := by omega
    cases hx with
    | alone _ hm =>
      refine ⟨s', .step _ hr hen hs, hm.frame.wait, ?_⟩
      rw [hd] at hm
      unfold sides at hm
      rw [hd] at hm
      exact hm
    | matched _ hu _ _ _ _ => exact nomatch (hidle _).symm.trans hu
  | refused hst => exact absurd hst hstuck
  | queued hst _ _ => exact absurd hst hstuck

/-- A send and a receive move the first slot on. -/
theorem EmptyAt.next (h : EmptyAt s c k e b) (hk : k + 1 < b) : ∃ s', EmptyAt s' c (k + 1) e b := by
  have hb := h.bufsize
  have hne : (s.chan c).bufsize ≠ 0 := by omega
  obtain ⟨s₁, hr₁, hw₁, hm₁⟩ := op_alone (c := c) h.reach h.idle (.inl rfl) (by
    have := h.nbuf
    refine (altcanexec_iff (.inl rfl)).mpr (.inr ⟨hne, fun _ => ?_, nofun⟩)
    show (s.chan c).nbuf < (s.chan c).bufsize
    omega)
  have hx : InRange ((entered s 0 0 (_chanop c .CHANSND none false)).chan c) := (inv h.reach).range c
  obtain ⟨hoff₁, hnbuf₁⟩ : (s₁.chan c).off = k ∧ (s₁.chan c).nbuf = 1 := by
    cases hm₁ with
    | in_ _ hn _ =>
      rw [copyIn_off, copyIn_nbuf _ hx hn]
      exact ⟨h.off, congrArg (· + 1) h.nbuf⟩
  have hf₁ := hm₁.frame
  have hbuf₁ : (s₁.chan c).bufsize = b := (hf₁.bufsize c).trans hb
  have hidle₁ : ∀ u, s₁.wait u = none := fun u => (congrFun hw₁ u).trans (h.idle u)
  obtain ⟨s₂, hr₂, hw₂, hm₂⟩ := op_alone (c := c) hr₁ hidle₁ (.inr rfl) (by
    refine (altcanexec_iff (.inr rfl)).mpr (.inr ⟨?_, nofun, fun _ => ?_⟩)
    · show (s₁.chan c).bufsize ≠ 0
      omega
    · show (s₁.chan c).nbuf ≠ 0
      omega)
  have hx₂ : InRange ((entered s₁ 0 0 (_chanop c .CHANRCV none false)).chan c) := (inv hr₁).range c
  have hf₂ := hm₂.frame
  refine ⟨s₂, hr₂, fun u => (congrFun hw₂ u).trans (hidle₁ u), ?_, ?_, (hf₂.elemsize c).trans ((hf₁.elemsize c).trans h.elemsize),
    (hf₂.bufsize c).trans hbuf₁⟩
  · cases hm₂ with
    | out _ hn _ _ =>
      rw [copyOut_nbuf _ hx₂ hn]
      exact congrArg (· - 1) hnbuf₁
  · cases hm₂ with
    | out _ _ _ _ =>
      rw [copyOut_off, nextOff_eq hx₂]
      have hlt : (s₁.chan c).off + 1 ≠ (s₁.chan c).bufsize := by omega
      show (if (s₁.chan c).off + 1 = (s₁.chan c).bufsize then 0 else (s₁.chan c).off + 1) = _
      rw [if_neg hlt, hoff₁]

theorem emptyAt_zero (he : e < 2 ^ 31) (hb : b < 2 ^ 31) (junk : Nat → Nat → UInt8) (mem : Nat → UInt8) :
    EmptyAt (start (fun _ => (e, b)) junk mem) c 0 e b where
  reach := .init _ _ _ fun _ => ⟨Int.natCast_nonneg e, Int.ofNat_lt.mpr he, Int.natCast_nonneg b, Int.ofNat_lt.mpr hb⟩
  idle _ := rfl
  nbuf := rfl
  off := rfl
  elemsize := by
    show ((e : Int) % 2 ^ 32).toNat = e
    omega
  bufsize := by
    show ((b : Int) % 2 ^ 32).toNat = b
    omega

/-- Each slot is the first one in some run. -/
theorem slot_reached (c : Nat) (he : e < 2 ^ 31) (hb : b < 2 ^ 31) : ∀ k < b, ∃ s, EmptyAt s c k e b := by
  intro k
  induction k with
  | zero => exact fun _ => ⟨_, emptyAt_zero he hb (fun _ _ => 0) fun _ => 0⟩
  | succ k ih =>
    intro hk
    obtain ⟨s, hs⟩ := ih (by omega)
    exact hs.next hk

end

/-! ## The result -/

/-- Every access is in the memory that `malloc` was asked for, and different slots do not overlap,
    exactly if the bytes of the ring and the header are less than 2^32. -/
theorem slots_fit {elemsize bufsize : Int} (he : 0 < elemsize) (he' : elemsize < 2 ^ 31) (hb : 0 < bufsize) (hb' : bufsize < 2 ^ 31) :
    ((∀ s c, Made s c elemsize bufsize → ∀ o, Touches (s.chan c) o → o + elemsize ≤ room elemsize bufsize) ∧
      ∀ s c s' c', Made s c elemsize bufsize → Made s' c' elemsize bufsize → (s.chan c).off ≠ (s'.chan c').off →
        Apart (outAt (s.chan c)) (outAt (s'.chan c')) elemsize.toNat) ↔
    bufsize * elemsize < 2 ^ 32 - sizeofChannel := by
  obtain ⟨e, rfl⟩ := Int.eq_ofNat_of_zero_le (Int.le_of_lt he)
  obtain ⟨b, rfl⟩ := Int.eq_ofNat_of_zero_le (Int.le_of_lt hb)
  have hq : (b : Int) * e < 2 ^ 32 - sizeofChannel ↔ b * e < 2 ^ 32 - sizeofChannel := by
    unfold sizeofChannel
    rw [← Int.natCast_mul]
    omega
  rw [hq]
  constructor
  · rintro ⟨hin, hap⟩
    by_contra hlarge
    have hmade : ∀ {s k}, EmptyAt s 0 k e b → Made s 0 e b := fun h => ⟨h.reach, by rw [h.elemsize], by rw [h.bufsize]⟩
    obtain ⟨s, hs⟩ := slot_reached 0 (e := e) (b := b) (by omega) (by omega) 0 (by omega)
    have hout : outAt (s.chan 0) = 0 := by rw [outAt, hs.off, Nat.zero_mul]; rfl
    rcases too_large (e := e) (b := b) (by omega) (by omega) (by omega) with hroom | ⟨k, hk, hpos, hover⟩
    · have hfirst := hin s 0 (hmade hs) _ (.inl rfl)
      rw [hout] at hfirst
      omega
    · obtain ⟨s', hs'⟩ := slot_reached 0 (e := e) (b := b) (by omega) (by omega) k hk
      have hdis := hap s 0 s' 0 (hmade hs) (hmade hs') (by rw [hs.off, hs'.off]; omega)
      rw [hout, outAt, hs'.off, hs'.elemsize] at hdis
      exact hover hdis
  · intro hsmall
    have hmade : ∀ {s c}, Made s c e b → InRange (s.chan c) ∧ (s.chan c).elemsize = e ∧ (s.chan c).bufsize = b := fun h =>
      ⟨(inv h.reach).range _, by exact_mod_cast h.elemsize, by exact_mod_cast h.bufsize⟩
    have hle : b * e ≤ 2 ^ 32 := by omega
    constructor
    · intro s c hm o ho
      obtain ⟨hr, h1, h2⟩ := hmade hm
      obtain ⟨k, hk, rfl⟩ := touches_slot hr (by omega) ho
      rw [h1]
      rw [h2] at hk
      obtain ⟨hu, hend⟩ := slot_inside hle (by omega) hk
      rw [hu]
      have hroom : b * e ≤ room e b := by
        rw [room_eq, Nat.mod_eq_of_lt (by omega)]
        split
        · exact Nat.le_refl _
        · omega
      omega
    · intro s c s' c' hm hm' hne
      obtain ⟨hr, h1, h2⟩ := hmade hm
      obtain ⟨hr', h1', h2'⟩ := hmade hm'
      have ho := hr.off
      have ho' := hr'.off
      rw [outAt, outAt, h1, h1', (slot_inside hle (by omega) (by omega)).1, (slot_inside hle (by omega) (by omega)).1]
      exact slots_disjoint hne

theorem slots_fit_small : ∃ s, Made s 0 8 4 ∧ ∀ o, Touches (s.chan 0) o → (o : Int) + 8 ≤ room 8 4 := by
  obtain ⟨s, hs⟩ := slot_reached 0 (e := 8) (b := 4) (by decide) (by decide) 3 (by decide)
  have hm : Made s 0 8 4 := ⟨hs.reach, by rw [hs.elemsize]; rfl, by rw [hs.bufsize]; rfl⟩
  exact ⟨s, hm, ((slots_fit (by decide) (by decide) (by decide) (by decide)).mpr (by decide)).1 s 0 hm⟩

/-- The product of 65536 and 65536 is 0 as an `int`, and the first slot is not in memory. -/
theorem no_room : room 65536 65536 = 0 ∧ ∃ s, Made s 0 65536 65536 ∧ Touches (s.chan 0) 0 := by
  obtain ⟨s, hs⟩ := slot_reached 0 (e := 65536) (b := 65536) (by decide) (by decide) 0 (by decide)
  refine ⟨by decide, s, ⟨hs.reach, by rw [hs.elemsize]; rfl, by rw [hs.bufsize]; rfl⟩, .inl ?_⟩
  rw [outAt, hs.off, Nat.zero_mul]
  rfl

end Libtask.Chan
