/-
  Libtask.Chan.Waiting — who waits on which channel, over every run of `chanalt` calls.

  `Inv` is the invariant. The waiting arrays hold exactly the alternatives, other than
  CHANNOPs, of the tasks that are blocked in `chanalt` and not chosen yet, each once, on
  their own channel and side. A chosen task was readied once, one of its alternatives ran,
  and `a[0].xalt` names it. The rings' numbers are in range, and nobody waits for what the
  ring or another task could give: receivers wait on a buffered channel only while it is
  empty, senders only while it is full, and on an unbuffered channel senders and receivers
  wait together only when one call queued them all.

  `chanalt_cases` says what a call does, with no error: it runs one alternative
  (`Executed`), returns -1, or queues its alternatives. `inv` is the run lemma.
-/

import Libtask.Chan.Moves

namespace Libtask.Chan

open Function (update)

/-- `p` is an alternative of a task that is blocked and not chosen. -/
def Queued (s : St) (p : AltPtr) : Prop :=
  (∃ t, s.wait t = some p.arr ∧ s.woken t = 0) ∧ p.i < altlen (s.alt p.arr) ∧ (s.deref p).op ≠ .CHANNOP

structure Inv (s : St) : Prop where
  inj : ∀ t u a, s.wait t = some a → s.wait u = some a → t = u
  len : ∀ t a, s.wait t = some a → altlen (s.alt a) < (s.alt a).length
  task : ∀ t a, s.wait t = some a → ∀ i < altlen (s.alt a), (s.deref ⟨a, i⟩).task = some t
  fresh : ∀ t a, s.wait t = some a → s.woken t = 0 →
    s.ran a = [] ∧ ∀ i < altlen (s.alt a), (s.deref ⟨a, i⟩).xalt = some ⟨a, 0⟩
  chosen : ∀ t a, s.wait t = some a → s.woken t ≠ 0 →
    s.woken t = 1 ∧ ∃ i < altlen (s.alt a), s.ran a = [i] ∧ (s.deref ⟨a, 0⟩).xalt = some ⟨a, i⟩
  mem : ∀ c op p, p ∈ queue (s.chan c) op ↔ Queued s p ∧ (s.deref p).c = c ∧ (s.deref p).op = op
  nodup : Nodups s
  range : ∀ c, InRange (s.chan c)
  recv : ∀ c, (s.chan c).bufsize ≠ 0 → queue (s.chan c) .CHANRCV ≠ [] → (s.chan c).nbuf = 0
  send : ∀ c, (s.chan c).bufsize ≠ 0 → queue (s.chan c) .CHANSND ≠ [] → (s.chan c).nbuf = (s.chan c).bufsize
  single : ∀ c, (s.chan c).bufsize = 0 → ∀ p ∈ queue (s.chan c) .CHANSND, ∀ q ∈ queue (s.chan c) .CHANRCV,
    p.arr = q.arr

/-! ## Arrays nobody waits on are free -/

theorem queued_congr {s s' : St} (hw : s'.wait = s.wait) (hk : s'.woken = s.woken)
    (ha : ∀ t a, s.wait t = some a → s'.alt a = s.alt a) (p : AltPtr) :
    (Queued s' p ↔ Queued s p) ∧ (Queued s p → s'.deref p = s.deref p) := by
  have hd : (∃ t, s.wait t = some p.arr ∧ s.woken t = 0) → s'.alt p.arr = s.alt p.arr ∧ s'.deref p = s.deref p := by
    intro h'
    obtain ⟨t, ht, -⟩ := h'
    have := ha t p.arr ht
    exact ⟨this, by simp [St.deref, this]⟩
  refine ⟨?_, fun h => (hd h.1).2⟩
  unfold Queued
  rw [hw, hk]
  refine and_congr_right ?_
  intro h
  obtain ⟨h1, h2⟩ := hd h
  rw [h1, h2]

theorem Inv.frame {s s' : St} (hi : Inv s) (hw : s'.wait = s.wait) (hk : s'.woken = s.woken) (hc : s'.chan = s.chan)
    (ha : ∀ t a, s.wait t = some a → s'.alt a = s.alt a ∧ s'.ran a = s.ran a) : Inv s' := by
  have hq := queued_congr hw hk fun t a h => (ha t a h).1
  have hd : ∀ t a i, s.wait t = some a → s'.deref ⟨a, i⟩ = s.deref ⟨a, i⟩ := fun t a i h => by
    simp [St.deref, (ha t a h).1]
  refine ⟨?_, ?_, ?_, ?_, ?_, ?_, ?_, ?_, ?_, ?_, ?_⟩
  · rw [hw]; exact hi.inj
  · intro t a h
    rw [hw] at h
    rw [(ha t a h).1]
    exact hi.len t a h
  · intro t a h i hlt
    rw [hw] at h
    rw [(ha t a h).1] at hlt
    rw [hd t a i h]
    exact hi.task t a h i hlt
  · intro t a h h0
    rw [hw] at h
    rw [hk] at h0
    rw [(ha t a h).1, (ha t a h).2]
    obtain ⟨h1, h2⟩ := hi.fresh t a h h0
    exact ⟨h1, fun i hlt => by rw [hd t a i h]; exact h2 i hlt⟩
  · intro t a h h0
    rw [hw] at h
    rw [hk] at h0 ⊢
    rw [(ha t a h).1, (ha t a h).2, hd t a 0 h]
    exact hi.chosen t a h h0
  · intro c op p
    rw [hc, hi.mem, (hq p).1]
    refine and_congr_right ?_
    intro h
    rw [(hq p).2 h]
  · intro c op
    rw [hc]
    exact hi.nodup c op
  · rw [hc]; exact hi.range
  · rw [hc]; exact hi.recv
  · rw [hc]; exact hi.send
  · rw [hc]; exact hi.single

/-! ## The start of a call -/

theorem altlen_eq {xs : List Alt} {n : Nat} (hlt : ∀ i < n, ∃ x, xs[i]? = some x ∧ isEnd x = false)
    (hn : ∃ x, xs[n]? = some x ∧ isEnd x = true) : altlen xs = n := by
  obtain ⟨x, hx, he⟩ := hn
  obtain ⟨h, rfl⟩ := List.getElem?_eq_some_iff.mp hx
  refine (List.findIdx_eq h).mpr ⟨he, ?_⟩
  intro j hj
  obtain ⟨y, hy, hey⟩ := hlt j hj
  obtain ⟨_, rfl⟩ := List.getElem?_eq_some_iff.mp hy
  exact hey

theorem own_getElem? (t : TaskPtr) (a : Nat) (xs : List Alt) (i : Nat) : (own t a xs)[i]? =
    if i < altlen xs then xs[i]?.map (fun x => { x with task := some t, xalt := some ⟨a, 0⟩ }) else xs[i]? := by
  have hle : altlen xs ≤ xs.length := List.findIdx_le_length
  have hmin : min (altlen xs) xs.length = altlen xs := Nat.min_eq_left hle
  unfold own
  by_cases h : i < altlen xs
  · have hl : i < xs.length := by omega
    simp [h, List.getElem?_append, hmin, List.getElem?_eq_getElem hl]
  · simp only [List.getElem?_append, List.length_map, List.length_take, hmin, h, if_false, List.getElem?_drop]
    congr 1
    omega

theorem own_altlen (t : TaskPtr) (a : Nat) {xs : List Alt} (h : altlen xs < xs.length) :
    altlen (own t a xs) = altlen xs := by
  apply altlen_eq
  · intro i hi
    obtain ⟨x, hx, he⟩ := before_end hi
    exact ⟨{ x with task := some t, xalt := some ⟨a, 0⟩ }, by rw [own_getElem?, if_pos hi, hx]; rfl, he⟩
  · obtain ⟨x, hx, he⟩ := end_at h
    exact ⟨x, by rw [own_getElem?, if_neg (Nat.lt_irrefl _)]; exact hx, he⟩

theorem own_length (t : TaskPtr) (a : Nat) (xs : List Alt) : (own t a xs).length = xs.length := by
  have hle : altlen xs ≤ xs.length := List.findIdx_le_length
  simp [own]
  omega

/-- The state in which `chanalt` looks for an alternative that can run. -/
def entered (s : St) (t : TaskPtr) (a : Nat) (xs : List Alt) : St :=
  { enter s t a xs with alt := update s.alt a (own t a xs) }

@[simp] theorem entered_chan (s : St) (t : TaskPtr) (a : Nat) (xs : List Alt) : (entered s t a xs).chan = s.chan := rfl
@[simp] theorem entered_wait (s : St) (t : TaskPtr) (a : Nat) (xs : List Alt) : (entered s t a xs).wait = s.wait := rfl
@[simp] theorem entered_woken (s : St) (t : TaskPtr) (a : Nat) (xs : List Alt) : (entered s t a xs).woken = s.woken := rfl
@[simp] theorem entered_alt (s : St) (t : TaskPtr) (a : Nat) (xs : List Alt) :
    (entered s t a xs).alt a = own t a xs := by simp [entered]
@[simp] theorem entered_ran (s : St) (t : TaskPtr) (a : Nat) (xs : List Alt) : (entered s t a xs).ran a = [] := by
  simp [entered, enter]

theorem inv_entered {s : St} (hi : Inv s) {t : TaskPtr} {a : Nat} (xs : List Alt) (ha : ∀ u, s.wait u ≠ some a) :
    Inv (entered s t a xs) := by
  refine hi.frame rfl rfl rfl ?_
  intro u b h
  have hne : b ≠ a := fun e => ha u (e ▸ h)
  simp [entered, enter, hne]

/-! ## Running an alternative -/

/-- Sender and receiver, as `altcopy` tells them apart. -/
def sides (s : St) (e : AltPtr) (o : Option AltPtr) : Option AltPtr × Option AltPtr :=
  if (s.deref e).op = .CHANRCV then (o, some e) else (some e, o)

/-- What running alternative `e` does, and whom it readies. -/
inductive Executed (s : St) (e : AltPtr) : St → Option TaskPtr → Prop
  | alone {s' : St} : queue (s.chan (s.deref e).c) (otherop (s.deref e).op) = [] →
      Moved s (s.deref e).c (sides s e none) s' → Executed s e s' none
  /-- `other` of task `u` runs too, and all of `u`'s alternatives leave their channels. -/
  | matched {u : TaskPtr} {other : AltPtr} {s' : St} {f : Nat → Altarray × Altarray} :
      other ∈ queue (s.chan (s.deref e).c) (otherop (s.deref e).op) →
      s.wait u = some other.arr → s.woken u = 0 →
      Moved s (s.deref e).c (sides s e (some other)) s' → Nodups (requeue s' f) →
      (∀ c op p, p ∈ queue ((requeue s' f).chan c) op ↔ p ∈ queue (s'.chan c) op ∧ p.arr ≠ other.arr) →
      Executed s e (setXalt (requeue s' f) ⟨other.arr, 0⟩ other) (some u)

theorem altcopy_alone {s : St} {e : AltPtr} (hop : (s.deref e).op = .CHANSND ∨ (s.deref e).op = .CHANRCV)
    (hb : (s.chan (s.deref e).c).bufsize ≠ 0)
    (hs : (s.deref e).op = .CHANSND → (s.chan (s.deref e).c).nbuf < (s.chan (s.deref e).c).bufsize)
    (hr : (s.deref e).op = .CHANRCV → (s.chan (s.deref e).c).nbuf ≠ 0)
    (hq : queue (s.chan (s.deref e).c) (otherop (s.deref e).op) = []) :
    ∃ s', altcopy s (some e) none = .ok s' ∧ Moved s (s.deref e).c (sides s e none) s' := by
  rcases hop with h | h
  · rw [h] at hq
    refine ⟨copyIn s (s.deref e).c e, ?_, ?_⟩
    · simp [altcopy, h, copyBuffered, hb]
    · simpa [sides, h] using Moved.in_ e (hs h) hq
  · rw [h] at hq
    refine ⟨copyOut s (s.deref e).c e, ?_, ?_⟩
    · simp [altcopy, h, copyBuffered, hb]
    · simpa [sides, h] using Moved.out e (hr h) hb hq

theorem altcopy_matched {s : St} {e o : AltPtr} (hop : (s.deref e).op = .CHANSND ∨ (s.deref e).op = .CHANRCV)
    (ho : (s.deref o).op = otherop (s.deref e).op)
    (hn : (s.chan (s.deref e).c).nbuf = 0 ∨
      (s.chan (s.deref e).c).nbuf = (s.chan (s.deref e).c).bufsize ∧ (s.chan (s.deref e).c).bufsize ≠ 0) :
    ∃ s', altcopy s (some e) (some o) = .ok s' ∧ Moved s (s.deref e).c (sides s e (some o)) s' := by
  rcases hop with h | h <;> rw [h] at ho <;> rcases hn with hn | ⟨hn, hb⟩
  · refine ⟨copyDirect s (s.deref e).c e o, ?_, by simpa [sides, h] using Moved.direct e o hn⟩
    simp [altcopy, h, ho, otherop, hn]
  · have h0 : (s.chan (s.deref e).c).nbuf ≠ 0 := by omega
    refine ⟨copyIn (copyOut s (s.deref e).c o) (s.deref e).c e, ?_, by simpa [sides, h] using Moved.full e o hn hb⟩
    simp [altcopy, h, ho, otherop, h0, copyBuffered, hb]
  · refine ⟨copyDirect s (s.deref e).c o e, ?_, by simpa [sides, h] using Moved.direct o e hn⟩
    simp [altcopy, h, ho, otherop, hn]
  · have h0 : (s.chan (s.deref e).c).nbuf ≠ 0 := by omega
    refine ⟨copyIn (copyOut s (s.deref e).c e) (s.deref e).c o, ?_, by simpa [sides, h] using Moved.full o e hn hb⟩
    simp [altcopy, h, ho, otherop, h0, copyBuffered, hb]

theorem queue_ne_nil {ch : Channel} {op : AltOp} {p : AltPtr} (h : p ∈ queue ch op) : queue ch op ≠ [] :=
  List.ne_nil_of_mem h

theorem altcanexec_iff {s : St} {x : Alt} (hop : x.op = .CHANSND ∨ x.op = .CHANRCV) : altcanexec s x = true ↔
    ((s.chan x.c).bufsize = 0 ∧ queue (s.chan x.c) (otherop x.op) ≠ []) ∨
      ((s.chan x.c).bufsize ≠ 0 ∧ (x.op = .CHANSND → (s.chan x.c).nbuf < (s.chan x.c).bufsize) ∧
        (x.op = .CHANRCV → (s.chan x.c).nbuf ≠ 0)) := by
  by_cases hb : (s.chan x.c).bufsize = 0
  · rcases hop with h | h <;> simp [altcanexec, h, hb, otherop, chanarray, queue]
  · rcases hop with h | h <;> simp [altcanexec, h, hb, Nat.pos_iff_ne_zero]

theorem queued_op {s : St} {p : AltPtr} (h : Queued s p) : (s.deref p).op = .CHANSND ∨ (s.deref p).op = .CHANRCV :=
  op_cases (isEnd_deref h.2.1) h.2.2

theorem Inv.placed {s : St} (hi : Inv s) (b : Nat) : Placed s b := fun c op p hm hb => by
  obtain ⟨h1, h2, h3⟩ := (hi.mem c op p).mp hm
  exact ⟨h2, h3, hb ▸ h1.2.1⟩

/-- The alternatives of a task not chosen yet are all on their channels. -/
theorem Inv.on_channel {s : St} (hi : Inv s) {u : TaskPtr} {b : Nat} (hu : s.wait u = some b) (h0 : s.woken u = 0) :
    ∀ i, i < altlen (s.alt b) → (s.deref ⟨b, i⟩).op ≠ .CHANNOP →
      ⟨b, i⟩ ∈ queue (s.chan (s.deref ⟨b, i⟩).c) (s.deref ⟨b, i⟩).op :=
  fun _ hlt hop => (hi.mem _ _ _).mpr ⟨⟨⟨u, hu, h0⟩, hlt, hop⟩, rfl, rfl⟩

theorem altexec_spec {s : St} (hi : Inv s) {e : AltPtr} (rnd : Nat)
    (hop : (s.deref e).op = .CHANSND ∨ (s.deref e).op = .CHANRCV) (hcan : altcanexec s (s.deref e) = true) :
    ∃ s' w, altexec s e rnd = .ok (s', w) ∧ Executed s e s' w := by
  have hcan := (altcanexec_iff hop).mp hcan
  have hother : otherop (s.deref e).op = .CHANSND ∨ otherop (s.deref e).op = .CHANRCV := by
    rcases hop with h | h <;> simp [h, otherop]
  obtain ⟨ar, har⟩ := chanarray_some hother (s.chan (s.deref e).c)
  have hq := queue_of_chanarray har
  cases ho : ar.a[rnd % ar.a.length]? with
  | none =>
    have hnil : ar.a = [] := by
      have := List.getElem?_eq_none_iff.mp ho
      by_contra hne
      have hpos := List.length_pos_iff.mpr hne
      have := Nat.mod_lt rnd hpos
      omega
    rw [hnil] at hq
    rcases hcan with ⟨-, hne⟩ | ⟨hb, hs, hr⟩
    · exact absurd hq hne
    · obtain ⟨s', h1, h2⟩ := altcopy_alone hop hb hs hr hq
      refine ⟨s', none, ?_, .alone hq h2⟩
      simp only [altexec, har, ho, h1]
      rfl
  | some other =>
    have hmem : other ∈ queue (s.chan (s.deref e).c) (otherop (s.deref e).op) := hq ▸ List.mem_of_getElem? ho
    obtain ⟨hqd, -, hoop⟩ := (hi.mem _ _ _).mp hmem
    obtain ⟨⟨u, hu, h0⟩, hlt, hnop⟩ := hqd
    -- the ring is empty, or full with a sender waiting
    have hn : (s.chan (s.deref e).c).nbuf = 0 ∨
        (s.chan (s.deref e).c).nbuf = (s.chan (s.deref e).c).bufsize ∧ (s.chan (s.deref e).c).bufsize ≠ 0 := by
      by_cases hb : (s.chan (s.deref e).c).bufsize = 0
      · have := (hi.range (s.deref e).c).nbuf
        left; omega
      · rcases hop with h | h
        · rw [h] at hmem
          exact Or.inl (hi.recv _ hb (queue_ne_nil hmem))
        · rw [h] at hmem
          exact Or.inr ⟨hi.send _ hb (queue_ne_nil hmem), hb⟩
    obtain ⟨s', h1, h2⟩ := altcopy_matched hop hoop hn
    have hf := h2.frame
    have hx : (s'.deref other).xalt = some ⟨other.arr, 0⟩ := by
      rw [hf.deref]
      exact (hi.fresh u other.arr hu h0).2 other.i hlt
    have ht : (s'.deref other).task = some u := by
      rw [hf.deref]
      exact hi.task u other.arr hu other.i hlt
    obtain ⟨f, h3, h4, h5⟩ := dequeue_loop ((s'.alt other.arr).drop 0) s' 0 rfl
      (by rw [hf.alt]; exact hi.len u _ hu) (Nat.zero_le _)
      (fun c op => by rw [hf.queue]; exact hi.nodup c op)
      (fun c op p hm hb => by
        rw [hf.queue] at hm
        rw [hf.deref, hf.alt]
        exact hi.placed other.arr c op p hm hb)
      (fun i _ hil hiop => by
        rw [hf.deref] at hiop ⊢
        rw [hf.alt] at hil
        rw [hf.queue]
        exact hi.on_channel hu h0 i hil hiop)
    refine ⟨setXalt (requeue s' f) ⟨other.arr, 0⟩ other, some u, ?_, .matched hmem hu h0 h2 h4 fun c op p => ?_⟩
    · have h6 : altalldequeue s' ⟨other.arr, 0⟩ = .ok (requeue s' f) := h3
      simp only [altexec, har, ho, h1, bind, Except.bind, hx, h6, requeue_deref, ht]
    · rw [h5]
      simp

end Libtask.Chan
