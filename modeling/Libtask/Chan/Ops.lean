/-
  Libtask.Chan.Ops — the channels of tasks that only call `_chanop`.

  Each task has one array and one variable of its own, and `v` says where the variable is. A call
  that is done, and only that, adds to the history: `Called` says for whom, and who was chosen.
  `called`: what a call does. `balanced`: as many values are received and buffered as are sent.
-/

import Libtask.Chan.Choice
import Libtask.Chan.Fifo
import Libtask.Lib.Words

namespace Libtask.Chan

open Function (update update_self update_of_ne)
open Libtask.Lib.Ring
open Libtask.Lib.Words

section
variable {v : TaskPtr → Nat} {s s' : St} {t u : TaskPtr} {c : Nat} {op : AltOp} {snd rcv : Option TaskPtr}

/-- `u` is blocked in `_chanop(c, op, v u)`, and not chosen. -/
structure InOp (v : TaskPtr → Nat) (s : St) (u : TaskPtr) (c : Nat) (op : AltOp) : Prop where
  wait : s.wait u = some u
  woken : s.woken u = 0
  len : altlen (s.alt u) = 1
  chan : (s.deref ⟨u, 0⟩).c = c
  op : (s.deref ⟨u, 0⟩).op = op
  var : (s.deref ⟨u, 0⟩).v = some (v u)

/-- Tasks wait in `_chanop` only. -/
structure Solo (v : TaskPtr → Nat) (s : St) : Prop where
  own : ∀ u a, s.wait u = some a → a = u
  one : ∀ u, s.wait u ≠ none → s.woken u = 0 → ∃ c op, InOp v s u c op

/-- `t` called `_chanop(c, op, v t)`, in which `snd` sent and `rcv` received. -/
structure Called (v : TaskPtr → Nat) (s : St) (t : TaskPtr) (c : Nat) (op : AltOp) (snd rcv : Option TaskPtr) (s' : St) :
    Prop where
  size : ∀ c', (s'.chan c').elemsize = (s.chan c').elemsize ∧ (s'.chan c').bufsize = (s.chan c').bufsize
  sent : ∀ c', s'.sent c' = s.sent c' ++ if c' = c then (snd.map fun u => s'.offer ⟨u, 0⟩).toList else []
  rcvd : ∀ c', s'.rcvd c' = s.rcvd c' ++
    if c' = c then (rcv.map fun u => slice s'.mem (v u) (s.chan c).elemsize).toList else []
  mem : ∀ x, (∀ u, rcv = some u → x < v u ∨ v u + (s.chan c).elemsize ≤ x) → s'.mem x = s.mem x
  offer : ∀ u, u ≠ t → s'.offer ⟨u, 0⟩ = s.offer ⟨u, 0⟩
  value : (s'.offer ⟨t, 0⟩).val = slice s.mem (v t) (s.chan c).elemsize
  wait : ∀ u, u ≠ t → s'.wait u = s.wait u
  woken : ∀ u, u ≠ t → (s'.woken u = 0 ↔ s.woken u = 0 ∧ snd ≠ some u ∧ rcv ≠ some u)
  alt : ∀ u, u ≠ t → altlen (s'.alt u) = altlen (s.alt u) ∧ (s'.deref ⟨u, 0⟩).c = (s.deref ⟨u, 0⟩).c ∧
    (s'.deref ⟨u, 0⟩).op = (s.deref ⟨u, 0⟩).op ∧ (s'.deref ⟨u, 0⟩).v = (s.deref ⟨u, 0⟩).v
  sender : ∀ u, snd = some u → (u = t ∧ op = .CHANSND) ∨ (u ≠ t ∧ InOp v s u c .CHANSND)
  receiver : ∀ u, rcv = some u → (u = t ∧ op = .CHANRCV) ∨ (u ≠ t ∧ InOp v s u c .CHANRCV)
  self : (InOp v s' t c op ∧ snd = none ∧ rcv = none) ∨
    (s'.wait t = none ∧ (op = .CHANSND → snd = some t) ∧ (op = .CHANRCV → rcv = some t))

/-! ## The data -/

/-- What arrives where. -/
theorem Moved.received {pr : Option AltPtr × Option AltPtr} (h : Moved s c pr s') : ∃ x : List UInt8,
    x.length = (s.chan c).elemsize ∧
    (∀ c', s'.rcvd c' = s.rcvd c' ++ if c' = c then (pr.2.map fun _ => x).toList else []) ∧
    s'.mem = (match pr.2 with | some r => stored s (s.deref r).v x | none => s.mem) := by
  have hup : ∀ x c', update s.rcvd c (s.rcvd c ++ [x]) c' = s.rcvd c' ++ if c' = c then [x] else [] := by
    intro x c'
    by_cases hc : c' = c
    · subst hc; simp
    · simp [hc]
  cases h with
  | direct p r _ => exact ⟨value s c (s.deref p).v, value_length s c _, by simp [copyDirect_eq, hup], by rw [copyDirect_eq]⟩
  | out r _ _ _ => exact ⟨firstSlot s c, by simp [firstSlot], by simp [copyOut_eq, hup], by rw [copyOut_eq]⟩
  | in_ p _ _ => exact ⟨_, value_length s c none, by simp [copyIn_eq], by rw [copyIn_eq]⟩
  | full p r _ _ => exact ⟨firstSlot s c, by simp [firstSlot], by simp [copyIn_eq, copyOut_eq, hup], by rw [copyIn_eq, copyOut_eq]⟩

theorem altlen_chanop (hop : op = .CHANSND ∨ op = .CHANRCV) (x : Option Nat) (b : Bool) : altlen (_chanop c op x b) = 1 := by
  rcases hop with rfl | rfl <;> cases b <;> rfl

/-- What is on a channel is the one alternative of a task in `_chanop`. -/
theorem Solo.queue (h : Solo v s) (hi : Inv s) {p : AltPtr} (hp : p ∈ queue (s.chan c) op) :
    p = ⟨p.arr, 0⟩ ∧ InOp v s p.arr c op := by
  obtain ⟨⟨⟨u, hu, h0⟩, hlt, -⟩, hc, hop⟩ := (hi.mem c op p).mp hp
  obtain rfl := h.own u _ hu
  obtain ⟨c', op', hin⟩ := h.one p.arr (by rw [hu]; nofun) h0
  have hp0 : p = ⟨p.arr, 0⟩ := by
    obtain ⟨b, i⟩ := p
    have hlen : altlen (s.alt b) = 1 := hin.len
    have hlt : i < altlen (s.alt b) := hlt
    obtain rfl : i = 0 := by omega
    rfl
  rw [hp0] at hc hop
  refine ⟨hp0, hin.wait, hin.woken, hin.len, hc, hop, hin.var⟩

/-- The history behind a movement of data between first alternatives, by their tasks. -/
theorem Moved.told {s₁ : St} {pr : Option AltPtr × Option AltPtr} (h : Moved s c pr s₁) (h1 : ∀ p, pr.1 = some p → p.i = 0)
    (h2 : ∀ r, pr.2 = some r → (s.deref r).v = some (v r.arr)) (hsent : s'.sent = s₁.sent) (hrcvd : s'.rcvd = s₁.rcvd)
    (hmem : s'.mem = s₁.mem) (hoffer : s'.offer = s.offer) :
    (∀ c', s'.sent c' = s.sent c' ++
      if c' = c then ((pr.1.map AltPtr.arr).map fun u => s'.offer ⟨u, 0⟩).toList else []) ∧
    (∀ c', s'.rcvd c' = s.rcvd c' ++
      if c' = c then ((pr.2.map AltPtr.arr).map fun u => slice s'.mem (v u) (s.chan c).elemsize).toList else []) ∧
    ∀ x, (∀ u, pr.2.map AltPtr.arr = some u → x < v u ∨ v u + (s.chan c).elemsize ≤ x) → s'.mem x = s.mem x := by
  obtain ⟨x, hx, hgot, harr⟩ := h.received
  obtain ⟨p, r⟩ := pr
  refine ⟨fun c' => ?_, fun c' => ?_, fun a ha => ?_⟩
  · rw [hsent, h.sent, hoffer]
    cases p with
    | none => rfl
    | some p =>
      obtain ⟨b, i⟩ := p
      obtain rfl : i = 0 := h1 _ rfl
      rfl
  · rw [hrcvd, hgot]
    cases r with
    | none => rfl
    | some r =>
      have hv : (s.deref r).v = some (v r.arr) := h2 r rfl
      have hread : slice s'.mem (v r.arr) (s.chan c).elemsize = x := by
        rw [hmem, harr, ← hx]
        simp only [hv, stored]
        exact slice_blit s.mem (v r.arr) x
      simp [hread]
  · rw [hmem, harr]
    cases r with
    | none => rfl
    | some r =>
      have hv : (s.deref r).v = some (v r.arr) := h2 r rfl
      simp only [hv, stored]
      exact blit_outside _ _ _ (by rw [hx]; exact ha r.arr rfl)

/-! ## A call -/

section
variable (hs : Solo v s) (hop : op = .CHANSND ∨ op = .CHANRCV) (hidle : s.wait t = none)

include hs hidle in
theorem Solo.free (u : TaskPtr) : s.wait u ≠ some t := by
  intro hu
  obtain rfl := hs.own u t hu
  exact nomatch hidle.symm.trans hu

include hs hop hidle in
theorem chanop_callable : Callable s t t (_chanop c op (some (v t)) true) :=
  ⟨hidle, hs.free hidle, by rw [altlen_chanop hop]; exact Nat.lt_of_lt_of_eq Nat.one_lt_two rfl⟩

include hop in
theorem entered_chanop (a : Nat) :
    (entered s t t (_chanop c op (some a) true)).deref ⟨t, 0⟩ = ⟨c, some a, op, some t, some ⟨t, 0⟩⟩ := by
  have h0 : 0 < altlen (_chanop c op (some a) true) := by simp [altlen_chanop hop]
  obtain ⟨x, hx, hd⟩ := entered_own (s := s) (t := t) (a := t) h0
  obtain rfl := Option.some.inj hx
  exact hd

theorem entered_other (h : u ≠ t) (xs : List Alt) : (entered s t t xs).alt u = s.alt u ∧
    (entered s t t xs).deref ⟨u, 0⟩ = s.deref ⟨u, 0⟩ ∧ (entered s t t xs).offer ⟨u, 0⟩ = s.offer ⟨u, 0⟩ := by
  simp [entered, enter, St.deref, h]

/-- The value that `t` sends is the one in its variable. -/
theorem entered_value (a : Nat) : ((entered s t t (_chanop c op (some a) true)).offer ⟨t, 0⟩).val =
    slice s.mem a (s.chan c).elemsize := by
  simp [entered, enter, _chanop, St.source, St.read]

include hop hidle in
/-- `t` and, with `o`, another task ran; `s'` is like `s₁` but for who waits where. -/
theorem called_moved {o : Option AltPtr} {s₁ : St} (ho : ∀ p, o = some p → p = ⟨p.arr, 0⟩ ∧ InOp v s p.arr c (otherop op))
    (hm : Moved (entered s t t (_chanop c op (some (v t)) true)) c
      (if op = .CHANRCV then (o, some ⟨t, 0⟩) else (some ⟨t, 0⟩, o)) s₁)
    (hsent : s'.sent = s₁.sent) (hrcvd : s'.rcvd = s₁.rcvd) (hmem : s'.mem = s₁.mem) (hoffer : s'.offer = s₁.offer)
    (hwait : s'.wait = s.wait) (hwoken : ∀ u, s'.woken u = 0 ↔ s.woken u = 0 ∧ ∀ p, o = some p → p.arr ≠ u)
    (halt : ∀ b, altlen (s'.alt b) = altlen (s₁.alt b))
    (hderef : ∀ p, (s'.deref p).c = (s₁.deref p).c ∧ (s'.deref p).op = (s₁.deref p).op ∧ (s'.deref p).v = (s₁.deref p).v)
    (hsize : ∀ c', (s'.chan c').elemsize = (s₁.chan c').elemsize ∧ (s'.chan c').bufsize = (s₁.chan c').bufsize) :
    ∃ snd rcv, Called v s t c op snd rcv s' := by
  have hf := hm.frame
  have hd := entered_chanop (s := s) (t := t) (c := c) hop (v t)
  have hne : ∀ p, o = some p → p.arr ≠ t := fun p hp he => by
    have := (ho p hp).2.wait
    rw [he, hidle] at this
    cases this
  have hoffer := hoffer.trans hf.offer
  have hvar : ∀ p, o = some p → ((entered s t t (_chanop c op (some (v t)) true)).deref p).v = some (v p.arr) := by
    intro p hp
    obtain ⟨h1, h2⟩ := ho p hp
    rw [h1, (entered_other (hne p hp) _).2.1]
    exact h2.var
  have hsize' : ∀ c', (s'.chan c').elemsize = (s.chan c').elemsize ∧ (s'.chan c').bufsize = (s.chan c').bufsize := fun c' =>
    ⟨(hsize c').1.trans (hf.elemsize c'), (hsize c').2.trans (hf.bufsize c')⟩
  have hoff : ∀ u, u ≠ t → s'.offer ⟨u, 0⟩ = s.offer ⟨u, 0⟩ := fun u hu => by rw [hoffer, (entered_other hu _).2.2]
  have hval : (s'.offer ⟨t, 0⟩).val = slice s.mem (v t) (s.chan c).elemsize := by rw [hoffer, entered_value]
  have halt' : ∀ u, u ≠ t → altlen (s'.alt u) = altlen (s.alt u) ∧ (s'.deref ⟨u, 0⟩).c = (s.deref ⟨u, 0⟩).c ∧
      (s'.deref ⟨u, 0⟩).op = (s.deref ⟨u, 0⟩).op ∧ (s'.deref ⟨u, 0⟩).v = (s.deref ⟨u, 0⟩).v := by
    intro u hu
    obtain ⟨h1, h2, -⟩ := entered_other (s := s) hu (_chanop c op (some (v t)) true)
    obtain ⟨h3, h4, h5⟩ := hderef ⟨u, 0⟩
    rw [halt, hf.alt, h1, h3, h4, h5, hf.deref, h2]
    exact ⟨rfl, rfl, rfl, rfl⟩
  have hidle' : s'.wait t = none := by rw [hwait]; exact hidle
  have hpart : ∀ u, o.map AltPtr.arr = some u → u ≠ t ∧ InOp v s u c (otherop op) := by
    intro u hu
    obtain ⟨p, hp, rfl⟩ := Option.map_eq_some_iff.mp hu
    exact ⟨hne p hp, (ho p hp).2⟩
  have hwk : ∀ u, (∀ p, o = some p → p.arr ≠ u) ↔ o.map AltPtr.arr ≠ some u := by
    intro u
    simp only [ne_eq, Option.map_eq_some_iff, not_exists, not_and]
  rcases hop with rfl | rfl
  · rw [if_neg nofun] at hm
    obtain ⟨h1, h2, h3⟩ := hm.told (v := v) (fun p hp => by cases hp; rfl) hvar hsent hrcvd hmem hoffer
    refine ⟨some t, o.map AltPtr.arr, hsize', h1, h2, h3, hoff, hval, fun u _ => by rw [hwait], fun u hu => ?_, halt', ?_, ?_,
      .inr ⟨hidle', fun _ => rfl, nofun⟩⟩
    · rw [hwoken, hwk]
      exact and_congr_right fun _ => ⟨fun h => ⟨fun he => hu (Option.some.inj he).symm, h⟩, fun h => h.2⟩
    · intro u hu
      exact .inl ⟨(Option.some.inj hu).symm, rfl⟩
    · exact fun u hu => .inr (hpart u hu)
  · rw [if_pos rfl] at hm
    obtain ⟨h1, h2, h3⟩ := hm.told (v := v) (fun p hp => by rw [(ho p hp).1])
      (fun r hr => by cases hr; rw [hd]) hsent hrcvd hmem hoffer
    refine ⟨o.map AltPtr.arr, some t, hsize', h1, h2, h3, hoff, hval, fun u _ => by rw [hwait], fun u hu => ?_, halt', ?_, ?_,
      .inr ⟨hidle', nofun, fun _ => rfl⟩⟩
    · rw [hwoken, hwk]
      exact and_congr_right fun _ => ⟨fun h => ⟨h, fun he => hu (Option.some.inj he).symm⟩, fun h => h.1⟩
    · exact fun u hu => .inr (hpart u hu)
    · intro u hu
      exact .inl ⟨(Option.some.inj hu).symm, rfl⟩

include hs hop hidle in
theorem called_executed (hi : Inv s) {c₁ : St} {w : Option TaskPtr}
    (hx : Executed (entered s t t (_chanop c op (some (v t)) true)) ⟨t, 0⟩ c₁ w) :
    ∃ snd rcv, Called v s t c op snd rcv (wake c₁ w) := by
  have hd := entered_chanop (s := s) (t := t) (c := c) hop (v t)
  have hsides : ∀ o, sides (entered s t t (_chanop c op (some (v t)) true)) ⟨t, 0⟩ o =
      if op = .CHANRCV then (o, some ⟨t, 0⟩) else (some ⟨t, 0⟩, o) := fun o => by rw [sides, hd]
  cases hx with
  | alone _ hm =>
    have hf := hm.frame
    rw [hd, hsides] at hm
    refine called_moved hop hidle (o := none) (by simp) hm rfl rfl rfl rfl hf.wait (fun u => ?_) (fun _ => rfl) (fun _ => ⟨rfl, rfl, rfl⟩)
      fun _ => ⟨rfl, rfl⟩
    show c₁.woken u = 0 ↔ _
    rw [hf.woken]
    exact ⟨fun h => ⟨h, by simp⟩, fun h => h.1⟩
  | @matched u other s₁ f hmem hu h0 hm _ _ =>
    have hf := hm.frame
    rw [hd, hsides] at hm
    rw [hd] at hmem
    have hmem : other ∈ queue (s.chan c) (otherop op) := hmem
    obtain ⟨ho, hin⟩ := hs.queue hi hmem
    obtain rfl := hs.own u _ hu
    have hlen : altlen (s₁.alt other.arr) < (s₁.alt other.arr).length := by
      rw [hf.alt]
      exact (inv_entered hi _ (hs.free hidle)).len _ _ hu
    refine called_moved hop hidle (o := some other) (fun p hp => by cases hp; exact ⟨ho, hin⟩) hm rfl rfl rfl rfl hf.wait
      (fun x => ?_) (setXalt_altlen (s := requeue s₁ f) (p := ⟨other.arr, 0⟩) other hlen) (fun p => ?_) fun _ => ⟨rfl, rfl⟩
    · show update s₁.woken other.arr (s₁.woken other.arr + 1) x = 0 ↔ _
      rw [hf.woken]
      by_cases hx : x = other.arr
      · subst hx
        simp
      · simp [hx, Ne.symm hx]
    · obtain ⟨h1, h2, h3, -⟩ := setXalt_deref (requeue s₁ f) ⟨other.arr, 0⟩ other p
      exact ⟨h1, h3, h2⟩

include hop in
/-- Nothing could run, and `t` waits. -/
theorem called_queued {f : Nat → Altarray × Altarray} :
    Called v s t c op none none (blocked (requeue (entered s t t (_chanop c op (some (v t)) true)) f) t t) := by
  have hd := entered_chanop (s := s) (t := t) (c := c) hop (v t)
  have hlen : altlen ((entered s t t (_chanop c op (some (v t)) true)).alt t) = 1 := by
    rw [entered_alt, own_altlen, altlen_chanop hop]
    rw [altlen_chanop hop]
    exact Nat.lt_of_lt_of_eq Nat.one_lt_two rfl
  refine ⟨fun _ => ⟨rfl, rfl⟩, fun c' => ?_, fun c' => ?_, fun _ _ => rfl, fun u hu => (entered_other hu _).2.2,
    entered_value (v t), fun u hu => update_of_ne hu _ _, fun u hu => ?_, fun u hu => ?_, nofun, nofun,
    .inl ⟨⟨update_self .., update_self .., hlen, ?_, ?_, ?_⟩, rfl, rfl⟩⟩
  · rw [Option.map_none, Option.toList_none, ite_self, List.append_nil]
    rfl
  · rw [Option.map_none, Option.toList_none, ite_self, List.append_nil]
    rfl
  · rw [blocked_woken_ne _ _ hu]
    exact ⟨fun h => ⟨h, nofun, nofun⟩, fun h => h.1⟩
  · obtain ⟨h1, h2, -⟩ := entered_other (s := s) hu (_chanop c op (some (v t)) true)
    rw [blocked_alt, blocked_deref, requeue_alt, requeue_deref, h1, h2]
    exact ⟨rfl, rfl, rfl, rfl⟩
  · rw [blocked_deref, requeue_deref, hd]
  · rw [blocked_deref, requeue_deref, hd]
  · rw [blocked_deref, requeue_deref, hd]

include hs hop hidle in
/-- A blocking call of `_chanop` sends or receives, or waits. -/
theorem called (hi : Inv s) {r1 r2 : Nat} {w : Option TaskPtr} {ret : Option Int}
    (h : call s t t (_chanop c op (some (v t)) true) r1 r2 = .ok (s', w, ret)) : ∃ snd rcv, Called v s t c op snd rcv s' := by
  have hc := chanop_callable (c := c) hs hop hidle
  obtain ⟨s₁, w₁, ret₁, ho, hcall⟩ := call_outcome hi hc r1 r2
  rw [h] at hcall
  obtain ⟨rfl, hwr⟩ := Prod.mk.inj (Except.ok.inj hcall)
  obtain ⟨rfl, rfl⟩ := Prod.mk.inj hwr
  cases ho with
  | @ran i s₁ w hlt hx =>
    rw [altlen_chanop hop] at hlt
    obtain rfl : i = 0 := by omega
    exact called_executed hs hop hidle hi hx
  | refused _ =>
    -- the call may block
    by_cases hex : ∃ i, Executable s (_chanop c op (some (v t)) true) i
    · obtain ⟨i, c₁, w₁, hran, -⟩ := call_chooses hi hc hex r1 r2
      rw [h] at hran
      have := (Prod.mk.inj (Prod.mk.inj (Except.ok.inj hran)).2).2
      cases this
    · have hend : (_chanop c op (some (v t)) true)[altlen (_chanop c op (some (v t)) true)]? =
        some ⟨0, none, .CHANEND, none, none⟩ := by
        rw [altlen_chanop hop]
        rfl
      obtain ⟨s₂, hwait, -⟩ := call_queues hi hc (not_exists.mp hex) hend rfl r1 r2
      rw [h] at hwait
      have := (Prod.mk.inj (Prod.mk.inj (Except.ok.inj hwait)).2).2
      cases this
  | queued _ _ _ => exact ⟨none, none, called_queued hop⟩

end

/-! ## What a call leaves -/

theorem Called.stays (h : Called v s t c op snd rcv s') {d : Nat} {op' : AltOp} (hu : InOp v s u d op') (hut : u ≠ t)
    (h1 : snd ≠ some u) (h2 : rcv ≠ some u) : InOp v s' u d op' := by
  obtain ⟨h3, h4, h5, h6⟩ := h.alt u hut
  exact ⟨(h.wait u hut).trans hu.wait, (h.woken u hut).mpr ⟨hu.woken, h1, h2⟩, h3.trans hu.len, h4.trans hu.chan, h5.trans hu.op,
    h6.trans hu.var⟩

theorem Called.solo (h : Called v s t c op snd rcv s') (hs : Solo v s) : Solo v s' := by
  have hself : s'.wait t = none ∨ InOp v s' t c op := h.self.elim (fun h => .inr h.1) fun h => .inl h.1
  refine ⟨fun u a hu => ?_, fun u hu h0 => ?_⟩
  · by_cases hut : u = t
    · subst hut
      rcases hself with hw | hw
      · exact nomatch hw.symm.trans hu
      · exact (Option.some.inj (hw.wait.symm.trans hu)).symm
    · rw [h.wait u hut] at hu
      exact hs.own u a hu
  · by_cases hut : u = t
    · subst hut
      rcases hself with hw | hw
      · exact absurd hw hu
      · exact ⟨c, op, hw⟩
    · rw [h.wait u hut] at hu
      obtain ⟨hw, h1, h2⟩ := (h.woken u hut).mp h0
      obtain ⟨d, op', hin⟩ := hs.one u hu hw
      exact ⟨d, op', h.stays hin hut h1 h2⟩

/-- The variables do not overlap. -/
def Separate (v : TaskPtr → Nat) (n : Nat) : Prop := ∀ t u, t ≠ u → v t + n ≤ v u ∨ v u + n ≤ v t

/-- Of the variables a call changes the receiver's. -/
theorem Called.slice_eq (h : Called v s t c op snd rcv s') {n : Nat} (hv : Separate v n) (hn : (s.chan c).elemsize = n)
    (hu : rcv ≠ some u) : slice s'.mem (v u) n = slice s.mem (v u) n := by
  refine slice_congr fun i hi => h.mem _ fun w hw => ?_
  have hwu : w ≠ u := fun he => hu (he ▸ hw)
  rcases hv w u hwu with h' | h' <;> omega

theorem Called.untouched (h : Called v s t c op snd rcv s') (hi : Inv s) (hs : Solo v s) (hidle : s.wait t = none) {n : Nat}
    (hv : Separate v n) (hn : ∀ c, (s.chan c).elemsize = n) : Untouched s s' := by
  intro p a hp hsnd ha _
  have hq : p ∈ queue (s.chan (s.deref p).c) .CHANSND := (hi.mem _ _ p).mpr ⟨hp, rfl, hsnd⟩
  obtain ⟨hp0, hin⟩ := hs.queue hi hq
  have hvar := hin.var
  rw [← hp0, ha] at hvar
  obtain rfl := Option.some.inj hvar
  rw [hn]
  refine h.slice_eq hv (hn c) ?_
  intro hr
  rcases h.receiver _ hr with ⟨he, -⟩ | ⟨-, hr⟩
  · have hw := hin.wait
    rw [he, hidle] at hw
    cases hw
  · exact nomatch hin.op.symm.trans hr.op

/-! ## Numbers -/

/-- History: the numbers sent on `c`. -/
def gave (s : St) (c : Nat) : List Nat := (s.sent c).map fun x => number x.val

/-- History: the numbers received from `c`. -/
def took (s : St) (c : Nat) : List Nat := (s.rcvd c).map number

/-- The number in the variable of `u`, an `unsigned long`. -/
def held (v : TaskPtr → Nat) (s : St) (u : TaskPtr) : Nat := number (slice s.mem (v u) 8)

/-- The number that `u` offers. -/
def offered (s : St) (u : TaskPtr) : Nat := number (s.offer ⟨u, 0⟩).val

theorem took_prefix (h : Fifo s) (hc : Fits (s.chan c)) : took s c <+: gave s c := by
  have ho : s.rcvd c ++ buffered (s.chan c) = (s.sent c).map Sent.val := h.order c hc
  refine ⟨(buffered (s.chan c)).map number, ?_⟩
  rw [took, gave, ← List.map_append, ho, List.map_map]
  rfl

theorem Called.gave (h : Called v s t c op snd rcv s') (d : Nat) :
    gave s' d = Chan.gave s d ++ if d = c then (snd.map (offered s')).toList else [] := by
  rw [Chan.gave, h.sent, List.map_append, Chan.gave]
  by_cases hd : d = c
  · simp only [hd, if_true]
    cases snd <;> rfl
  · simp only [hd, if_false, List.map_nil]

theorem Called.took (h : Called v s t c op snd rcv s') (hn : (s.chan c).elemsize = 8) (d : Nat) :
    took s' d = Chan.took s d ++ if d = c then (rcv.map (held v s')).toList else [] := by
  rw [Chan.took, h.rcvd, List.map_append, Chan.took, hn]
  by_cases hd : d = c
  · simp only [hd, if_true]
    cases rcv <;> rfl
  · simp only [hd, if_false, List.map_nil]

theorem Called.held (h : Called v s t c op snd rcv s') (hv : Separate v 8) (hn : (s.chan c).elemsize = 8) (hu : rcv ≠ some u) :
    held v s' u = Chan.held v s u := by
  rw [Chan.held, h.slice_eq hv hn hu, Chan.held]

theorem Called.offered (h : Called v s t c op snd rcv s') (hu : u ≠ t) : offered s' u = Chan.offered s u := by
  rw [Chan.offered, h.offer u hu, Chan.offered]

theorem Called.offers (h : Called v s t c op snd rcv s') (hn : (s.chan c).elemsize = 8) : Chan.offered s' t = Chan.held v s t := by
  rw [Chan.offered, h.value, hn, Chan.held]

end

/-! ## How many -/

section
variable {s s' : St} {c : Nat}

/-- As many values were received and are buffered as were sent. -/
def Balanced (s : St) (c : Nat) : Prop := (s.sent c).length = (s.rcvd c).length + (s.chan c).nbuf

theorem balanced_out {s : St} {c : Nat} (r : AltPtr) (hr : InRange (s.chan c)) (hn : (s.chan c).nbuf ≠ 0) (h : Balanced s c) :
    Balanced (copyOut s c r) c := by
  have hrcvd : (copyOut s c r).rcvd c = s.rcvd c ++ [firstSlot s c] := by simp [copyOut_eq]
  have hsent : (copyOut s c r).sent = s.sent := by simp [copyOut_eq]
  unfold Balanced at h ⊢
  rw [hsent, hrcvd, copyOut_nbuf r hr hn, List.length_append, List.length_singleton]
  omega

theorem balanced_in {s : St} {c : Nat} (p : AltPtr) (hr : InRange (s.chan c)) (hn : (s.chan c).nbuf < (s.chan c).bufsize)
    (h : Balanced s c) : Balanced (copyIn s c p) c := by
  have hrcvd : (copyIn s c p).rcvd = s.rcvd := by simp [copyIn_eq]
  have hsent : (copyIn s c p).sent c = s.sent c ++ [s.offer p] := by simp [copyIn_eq]
  unfold Balanced at h ⊢
  rw [hsent, hrcvd, copyIn_nbuf p hr hn, List.length_append, List.length_singleton]
  omega

theorem Moved.balanced {pr : Option AltPtr × Option AltPtr} (hm : Moved s c pr s') (hr : InRange (s.chan c)) {d : Nat}
    (h : Balanced s d) : Balanced s' d := by
  by_cases hd : d = c
  · subst hd
    cases hm with
    | direct p r _ =>
      unfold Balanced at h ⊢
      simp only [copyDirect_eq, update_self, List.length_append, List.length_singleton]
      omega
    | out r hn _ _ => exact balanced_out r hr hn h
    | in_ p hn _ => exact balanced_in p hr hn h
    | full p r hf hb =>
      have hn : (s.chan d).nbuf ≠ 0 := by omega
      exact balanced_in p (inRange_out r hr hn) (room_after_out r hr hf hb) (balanced_out r hr hn h)
  · obtain ⟨h1, h2, h3⟩ := hm.frame.other d hd
    unfold Balanced at h ⊢
    rw [h1, h2, h3]
    exact h

theorem balanced_step (hi : Inv s) {e : Ev} (hen : Enabled s e) (hs : step s e = .ok s') {d : Nat} (h : Balanced s d) :
    Balanced s' d := by
  cases e with
  | call t a xs r1 r2 =>
    have hc := callable_of_enabled hen
    obtain ⟨s₁, w, ret, ho, hs'⟩ := call_spec hi hc r1 r2
    obtain rfl : _ = s' := Except.ok.inj (hs'.symm.trans hs)
    cases ho with
    | @ran i s₁ w hlt hx =>
      have he := inv_entered hi (t := t) xs hc.free
      obtain ⟨o, s₂, hm, -, ⟨-, hsent, hrcvd, -⟩, -, hchan, -, -⟩ := hx.data (e := ⟨a, i⟩) he hc.free
      obtain ⟨f, hf⟩ := hchan d
      have hb := hm.balanced (he.range _) (d := d) h
      unfold Balanced at hb ⊢
      show ((wake s₁ w).sent d).length = ((wake s₁ w).rcvd d).length + ((wake s₁ w).chan d).nbuf
      rw [hsent, hrcvd, hf]
      exact hb
    | refused _ => exact h
    | queued _ _ _ => exact h
  | resume t =>
    obtain rfl := Except.ok.inj hs
    exact h
  | poke x b =>
    obtain rfl := Except.ok.inj hs
    exact h

theorem balanced (h : Reach s) (c : Nat) : Balanced s c := by
  induction h with
  | init size junk mem _ => rfl
  | step e h hen hs ih => exact balanced_step (inv h) hen hs ih

end

end Libtask.Chan
