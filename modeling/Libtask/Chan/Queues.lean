/-
  Libtask.Chan.Queues — what `altqueue`, `altdequeue` and the loops over them do to the
  waiting arrays: nothing else changes (`requeue`), and each array gains or loses exactly
  the alternatives meant for it.
-/

import Libtask.Chan.Chan

namespace Libtask.Chan

open Function (update)
open Libtask.Lib.Lists

/-- The alternatives that wait on a channel to run `op`. -/
def queue (ch : Channel) : AltOp → List AltPtr
  | .CHANSND => ch.asend.a
  | .CHANRCV => ch.arecv.a
  | _ => []

/-- `s` with other waiting arrays. -/
def requeue (s : St) (f : Nat → Altarray × Altarray) : St :=
  { s with chan := fun c => { s.chan c with asend := (f c).1, arecv := (f c).2 } }

@[simp] theorem requeue_alt (s : St) (f : Nat → Altarray × Altarray) : (requeue s f).alt = s.alt := rfl
@[simp] theorem requeue_mem (s : St) (f : Nat → Altarray × Altarray) : (requeue s f).mem = s.mem := rfl
@[simp] theorem requeue_wait (s : St) (f : Nat → Altarray × Altarray) : (requeue s f).wait = s.wait := rfl
@[simp] theorem requeue_woken (s : St) (f : Nat → Altarray × Altarray) : (requeue s f).woken = s.woken := rfl
@[simp] theorem requeue_ran (s : St) (f : Nat → Altarray × Altarray) : (requeue s f).ran = s.ran := rfl
@[simp] theorem requeue_deref (s : St) (f : Nat → Altarray × Altarray) (p : AltPtr) :
    (requeue s f).deref p = s.deref p := rfl
@[simp] theorem requeue_bufsize (s : St) (f : Nat → Altarray × Altarray) (c : Nat) :
    ((requeue s f).chan c).bufsize = (s.chan c).bufsize := rfl
@[simp] theorem requeue_nbuf (s : St) (f : Nat → Altarray × Altarray) (c : Nat) :
    ((requeue s f).chan c).nbuf = (s.chan c).nbuf := rfl
@[simp] theorem requeue_off (s : St) (f : Nat → Altarray × Altarray) (c : Nat) :
    ((requeue s f).chan c).off = (s.chan c).off := rfl
@[simp] theorem requeue_requeue (s : St) (f g : Nat → Altarray × Altarray) : requeue (requeue s f) g = requeue s g := rfl

theorem requeue_self (s : St) : requeue s (fun c => ((s.chan c).asend, (s.chan c).arecv)) = s := rfl

theorem queue_of_chanarray {ch : Channel} {op : AltOp} {ar : Altarray} (h : chanarray ch op = some ar) :
    queue ch op = ar.a := by
  cases op <;> simp [chanarray] at h <;> subst h <;> rfl

theorem chanarray_some {op : AltOp} (h : op = .CHANSND ∨ op = .CHANRCV) (ch : Channel) :
    ∃ ar, chanarray ch op = some ar := by
  rcases h with rfl | rfl
  · exact ⟨ch.asend, rfl⟩
  · exact ⟨ch.arecv, rfl⟩

theorem op_of_mem_queue {ch : Channel} {op : AltOp} {p : AltPtr} (h : p ∈ queue ch op) :
    op = .CHANSND ∨ op = .CHANRCV := by
  cases op with
  | CHANSND => exact Or.inl rfl
  | CHANRCV => exact Or.inr rfl
  | CHANEND => simp [queue] at h
  | CHANNOP => simp [queue] at h
  | CHANNOBLK => simp [queue] at h

/-- A store through `chanarray`'s pointer changes that one array. -/
theorem setarray_requeue (s : St) (c : Nat) {op : AltOp} (hop : op = .CHANSND ∨ op = .CHANRCV) (ar : Altarray) :
    ∃ f, s.setChan c (setarray (s.chan c) op ar) = requeue s f ∧
      ∀ c' op', queue ((requeue s f).chan c') op' = if c' = c ∧ op' = op then ar.a else queue (s.chan c') op' := by
  refine ⟨fun c' => if c' = c then ((setarray (s.chan c) op ar).asend, (setarray (s.chan c) op ar).arecv)
    else ((s.chan c').asend, (s.chan c').arecv), ?_, ?_⟩
  · simp only [St.setChan, requeue]
    congr 1
    funext c'
    by_cases hc : c' = c
    · subst hc
      rcases hop with rfl | rfl <;> simp [setarray]
    · simp [hc]
  · intro c' op'
    by_cases hc : c' = c
    · subst hc
      rcases hop with rfl | rfl <;> cases op' <;> simp [requeue, queue, setarray]
    · cases op' <;> simp [requeue, queue, hc]

def Nodups (s : St) : Prop := ∀ c op, (queue (s.chan c) op).Nodup

theorem altdequeue_spec {s : St} {p : AltPtr} (hn : Nodups s)
    (hp : p ∈ queue (s.chan (s.deref p).c) (s.deref p).op) :
    ∃ f, altdequeue s p = .ok (requeue s f) ∧ Nodups (requeue s f) ∧ ∀ c op q,
      q ∈ queue ((requeue s f).chan c) op ↔
        q ∈ queue (s.chan c) op ∧ ¬ (q = p ∧ c = (s.deref p).c ∧ op = (s.deref p).op) := by
  have hop := op_of_mem_queue hp
  obtain ⟨ar, har⟩ := chanarray_some hop (s.chan (s.deref p).c)
  have hq := queue_of_chanarray har
  obtain ⟨i, hi⟩ : ∃ i, ar.a.findIdx? (· = p) = some i := by
    cases hf : ar.a.findIdx? (· = p) with
    | some i => exact ⟨i, rfl⟩
    | none =>
      have := List.findIdx?_eq_none_iff.mp hf p (hq ▸ hp)
      simp at this
  obtain ⟨hlt, hpi, -⟩ := List.findIdx?_eq_some_iff_getElem.mp hi
  have hpi : ar.a[i]? = some p := by simpa [List.getElem?_eq_getElem hlt] using hpi
  have hnd : ar.a.Nodup := hq ▸ hn _ _
  obtain ⟨f, hf, hfq⟩ := setarray_requeue s (s.deref p).c hop (delarray ar i)
  refine ⟨f, ?_, ?_, ?_⟩
  · simp only [altdequeue, har, hi, hf]
  · intro c op
    rw [hfq]
    split
    · exact nodup_swapRemove hnd hlt
    · exact hn c op
  · intro c op q
    rw [hfq]
    split
    · rename_i h
      obtain ⟨rfl, rfl⟩ := h
      rw [hq]
      simpa [delarray] using mem_swapRemove hnd hpi
    · rename_i h
      constructor
      · intro hm
        exact ⟨hm, fun hc => h hc.2⟩
      · exact fun hm => hm.1

theorem altqueue_spec {s : St} {p : AltPtr} (hn : Nodups s) (hop : (s.deref p).op = .CHANSND ∨ (s.deref p).op = .CHANRCV)
    (hp : ∀ c op, p ∉ queue (s.chan c) op) :
    ∃ f, altqueue s p = .ok (requeue s f) ∧ Nodups (requeue s f) ∧ ∀ c op,
      queue ((requeue s f).chan c) op =
        queue (s.chan c) op ++ if c = (s.deref p).c ∧ op = (s.deref p).op then [p] else [] := by
  obtain ⟨ar, har⟩ := chanarray_some hop (s.chan (s.deref p).c)
  have hq := queue_of_chanarray har
  obtain ⟨f, hf, hfq⟩ := setarray_requeue s (s.deref p).c hop (addarray ar p)
  have hfq' : ∀ c op, queue ((requeue s f).chan c) op =
      queue (s.chan c) op ++ if c = (s.deref p).c ∧ op = (s.deref p).op then [p] else [] := by
    intro c op
    rw [hfq]
    split
    · rename_i h
      obtain ⟨rfl, rfl⟩ := h
      rw [hq]
      rfl
    · simp
  refine ⟨f, ?_, ?_, hfq'⟩
  · simp only [altqueue, har, hf]
  · intro c op
    rw [hfq']
    split
    · have h1 := hn c op
      have h2 := hp c op
      rw [List.nodup_append]
      exact ⟨h1, by simp, fun x hx y hy e => h2 (by simp at hy; subst hy; exact e ▸ hx)⟩
    · simpa using hn c op

/-! ## The end of an array -/

theorem end_at {xs : List Alt} (h : altlen xs < xs.length) : ∃ x, xs[altlen xs]? = some x ∧ isEnd x = true := by
  refine ⟨xs[altlen xs], List.getElem?_eq_getElem h, ?_⟩
  exact List.findIdx_getElem (w := h)

theorem before_end {xs : List Alt} {i : Nat} (h : i < altlen xs) : ∃ x, xs[i]? = some x ∧ isEnd x = false := by
  have hlt : i < xs.length := Nat.lt_of_lt_of_le h List.findIdx_le_length
  refine ⟨xs[i], List.getElem?_eq_getElem hlt, ?_⟩
  simpa using List.not_of_lt_findIdx h

theorem deref_of_getElem? {s : St} {p : AltPtr} {x : Alt} (h : (s.alt p.arr)[p.i]? = some x) : s.deref p = x := by
  simp [St.deref, h]

theorem isEnd_deref {s : St} {p : AltPtr} (h : p.i < altlen (s.alt p.arr)) : isEnd (s.deref p) = false := by
  obtain ⟨x, hx, he⟩ := before_end h
  rw [deref_of_getElem? hx, he]

/-- An alternative before the end that is no CHANNOP sends or receives. -/
theorem op_cases {x : Alt} (he : isEnd x = false) (hn : x.op ≠ .CHANNOP) : x.op = .CHANSND ∨ x.op = .CHANRCV := by
  cases h : x.op <;> simp_all [isEnd]

/-- What the loops over an array see at index `k`. -/
theorem drop_cons {s : St} {b k : Nat} {x : Alt} {xs : List Alt} (h : x :: xs = (s.alt b).drop k) :
    s.deref ⟨b, k⟩ = x ∧ xs = (s.alt b).drop (k + 1) := by
  have hk : (s.alt b)[k]? = some x := by
    have := congrArg (·[0]?) h
    simpa using this.symm
  refine ⟨deref_of_getElem? (p := ⟨b, k⟩) hk, ?_⟩
  have := congrArg List.tail h
  simpa using this

/-- The loops stop exactly at `altlen`. -/
theorem isEnd_iff {s : St} {b k : Nat} (hl : altlen (s.alt b) < (s.alt b).length) (hk : k ≤ altlen (s.alt b)) :
    isEnd (s.deref ⟨b, k⟩) = true ↔ k = altlen (s.alt b) := by
  constructor
  · intro he
    by_cases hlt : k < altlen (s.alt b)
    · rw [isEnd_deref (p := ⟨b, k⟩) hlt] at he
      cases he
    · omega
  · rintro rfl
    obtain ⟨x, hx, he⟩ := end_at hl
    rw [deref_of_getElem? (p := ⟨b, altlen (s.alt b)⟩) hx, he]

/-! ## The loops -/

/-- Where the queued alternatives of array `b` are: on their own channel and side. -/
def Placed (s : St) (b : Nat) : Prop :=
  ∀ c op p, p ∈ queue (s.chan c) op → p.arr = b →
    (s.deref p).c = c ∧ (s.deref p).op = op ∧ p.i < altlen (s.alt b)

/-- `altalldequeue` from index `k` on takes every alternative of the array off. -/
theorem dequeue_loop {b : Nat} : ∀ (xs : List Alt) (s : St) (k : Nat), xs = (s.alt b).drop k →
    altlen (s.alt b) < (s.alt b).length → k ≤ altlen (s.alt b) → Nodups s → Placed s b →
    (∀ i, k ≤ i → i < altlen (s.alt b) → (s.deref ⟨b, i⟩).op ≠ .CHANNOP →
      ⟨b, i⟩ ∈ queue (s.chan (s.deref ⟨b, i⟩).c) (s.deref ⟨b, i⟩).op) →
    ∃ f, eachAlt altdequeue s ⟨b, k⟩ xs = .ok (requeue s f) ∧ Nodups (requeue s f) ∧
      ∀ c op p, p ∈ queue ((requeue s f).chan c) op ↔ p ∈ queue (s.chan c) op ∧ ¬ (p.arr = b ∧ k ≤ p.i) := by
  intro xs
  induction xs with
  | nil =>
    intro s k hxs hl hk _ _ _
    have := congrArg List.length hxs
    simp at this
    omega
  | cons x xs ih =>
    intro s k hxs hl hk hn hp hin
    obtain ⟨hx, hxs'⟩ := drop_cons hxs
    have hend := isEnd_iff hl hk
    rw [hx] at hend
    unfold eachAlt
    by_cases he : isEnd x = true
    · -- the end: no alternative of the array is at `k` or later
      rw [if_pos he]
      refine ⟨_, congrArg Except.ok (requeue_self s).symm, hn, ?_⟩
      intro c op p
      rw [requeue_self]
      refine ⟨fun h => ⟨h, ?_⟩, fun h => h.1⟩
      intro hc
      have := (hp c op p h hc.1).2.2
      have := hend.mp he
      omega
    · rw [if_neg he]
      have hlt : k < altlen (s.alt b) := by
        rcases Nat.lt_or_eq_of_le hk with h | h
        · exact h
        · exact absurd (hend.mpr h) he
      by_cases hnop : x.op = .CHANNOP
      · rw [if_pos hnop]
        obtain ⟨f, h1, h2, h3⟩ := ih s (k + 1) hxs' hl hlt hn hp (fun i hi => hin i (by omega))
        refine ⟨f, h1, h2, ?_⟩
        intro c op p
        rw [h3]
        refine and_congr_right fun hm => not_congr (and_congr_right ?_)
        intro hb
        -- a CHANNOP is on no channel
        have hne : p.i ≠ k := fun e => by
          have hpk : p = ⟨b, k⟩ := by cases p; simp_all
          have := (hp c op p hm hb).2.1
          rw [hpk, hx, hnop] at this
          subst this
          exact absurd hm (by simp [queue])
        omega
      · rw [if_neg hnop]
        have hmem := hin k (Nat.le_refl k) hlt (by rw [hx]; exact hnop)
        obtain ⟨f, h1, h2, h3⟩ := altdequeue_spec hn hmem
        have hp' : Placed (requeue s f) b := fun c op p hm => hp c op p ((h3 c op p).mp hm).1
        obtain ⟨g, h4, h5, h6⟩ := ih (requeue s f) (k + 1) hxs' hl hlt h2 hp' (fun i hi hil hop => by
          refine (h3 _ _ _).mpr ⟨hin i (by omega) hil hop, fun h => ?_⟩
          have := congrArg AltPtr.i h.1
          simp at this
          omega)
        refine ⟨g, ?_, h5, ?_⟩
        · rw [h1]
          exact h4
        · intro c op p
          have h6' := h6 c op p
          rw [requeue_requeue] at h6'
          rw [h6', h3]
          constructor
          · intro h'
            obtain ⟨⟨hm, hne⟩, hk1⟩ := h'
            refine ⟨hm, fun hc => hne ?_⟩
            obtain ⟨hc1, hc2, -⟩ := hp c op p hm hc.1
            have hpk : p = ⟨b, k⟩ := by
              have : p.i = k := by have := hc.2; have := fun h => hk1 ⟨hc.1, h⟩; omega
              cases p
              simp_all
            subst hpk
            exact ⟨rfl, hc1.symm, hc2.symm⟩
          · intro h'
            obtain ⟨hm, hk0⟩ := h'
            refine ⟨⟨hm, fun hc => hk0 ⟨by rw [hc.1], by rw [hc.1]⟩⟩, fun hc => hk0 ⟨hc.1, by omega⟩⟩

/-- The alternatives of array `a` (`xs` is what it holds from index `k` on) that go to
    channel `c`'s array for `op`. -/
def listed (a c : Nat) (op : AltOp) : Nat → List Alt → List AltPtr
  | _, [] => []
  | k, x :: xs =>
    if isEnd x then []
    else (if x.op ≠ .CHANNOP ∧ c = x.c ∧ op = x.op then [⟨a, k⟩] else []) ++ listed a c op (k + 1) xs

theorem mem_listed {s : St} {a c : Nat} {op : AltOp} {p : AltPtr} : ∀ (xs : List Alt) (k : Nat),
    xs = (s.alt a).drop k → altlen (s.alt a) < (s.alt a).length → k ≤ altlen (s.alt a) →
    (p ∈ listed a c op k xs ↔ p.arr = a ∧ k ≤ p.i ∧ p.i < altlen (s.alt a) ∧ (s.deref p).op ≠ .CHANNOP ∧
      c = (s.deref p).c ∧ op = (s.deref p).op) := by
  intro xs
  induction xs with
  | nil =>
    intro k hxs hl hk
    have := congrArg List.length hxs
    simp at this
    omega
  | cons x xs ih =>
    intro k hxs hl hk
    obtain ⟨hx, hxs'⟩ := drop_cons hxs
    have hend := isEnd_iff hl hk
    rw [hx] at hend
    unfold listed
    by_cases he : isEnd x = true
    · have := hend.mp he
      simp only [he, if_true, List.not_mem_nil, false_iff]
      omega
    · have hlt : k < altlen (s.alt a) := by
        rcases Nat.lt_or_eq_of_le hk with h | h
        · exact h
        · exact absurd (hend.mpr h) he
      simp only [he, Bool.false_eq_true, if_false, List.mem_append, ih (k + 1) hxs' hl hlt]
      constructor
      · intro h'
        rcases h' with hm | ⟨h1, h2, h3⟩
        · split at hm
          · rename_i hc
            obtain rfl := List.mem_singleton.mp hm
            rw [hx]
            exact ⟨rfl, Nat.le_refl k, hlt, hc⟩
          · cases hm
        · exact ⟨h1, by omega, h3⟩
      · intro h'
        obtain ⟨h1, h2, h3, h4⟩ := h'
        by_cases hik : p.i = k
        · left
          have hpk : p = ⟨a, k⟩ := by cases p; simp_all
          subst hpk
          rw [hx] at h4
          rw [if_pos h4]
          exact List.mem_singleton_self _
        · exact Or.inr ⟨h1, by omega, h3, h4⟩

/-- The loop that queues the alternatives of `a`, none of which was on a channel. -/
theorem queue_loop {a : Nat} : ∀ (xs : List Alt) (s : St) (k : Nat), xs = (s.alt a).drop k →
    altlen (s.alt a) < (s.alt a).length → k ≤ altlen (s.alt a) → Nodups s →
    (∀ c op p, p ∈ queue (s.chan c) op → p.arr = a → p.i < k) →
    ∃ f, eachAlt altqueue s ⟨a, k⟩ xs = .ok (requeue s f) ∧ Nodups (requeue s f) ∧
      ∀ c op, queue ((requeue s f).chan c) op = queue (s.chan c) op ++ listed a c op k xs := by
  intro xs
  induction xs with
  | nil =>
    intro s k hxs hl hk _ _
    have := congrArg List.length hxs
    simp at this
    omega
  | cons x xs ih =>
    intro s k hxs hl hk hn hout
    obtain ⟨hx, hxs'⟩ := drop_cons hxs
    have hend := isEnd_iff hl hk
    rw [hx] at hend
    unfold eachAlt listed
    by_cases he : isEnd x = true
    · simp only [he, if_true]
      exact ⟨_, congrArg Except.ok (requeue_self s).symm, hn, fun c op => by rw [requeue_self]; simp⟩
    · simp only [he, Bool.false_eq_true, if_false]
      have hlt : k < altlen (s.alt a) := by
        rcases Nat.lt_or_eq_of_le hk with h | h
        · exact h
        · exact absurd (hend.mpr h) he
      by_cases hnop : x.op = .CHANNOP
      · rw [if_pos hnop]
        obtain ⟨f, h1, h2, h3⟩ := ih s (k + 1) hxs' hl hlt hn
          (fun c op p hm hb => Nat.lt_succ_of_lt (hout c op p hm hb))
        refine ⟨f, h1, h2, ?_⟩
        intro c op
        rw [h3]
        simp [hnop]
      · rw [if_neg hnop]
        have hop : (s.deref ⟨a, k⟩).op = .CHANSND ∨ (s.deref ⟨a, k⟩).op = .CHANRCV := by
          rw [hx]
          exact op_cases (by simpa using he) hnop
        obtain ⟨f, h1, h2, h3⟩ := altqueue_spec hn hop fun c op hm => by
          have := hout c op _ hm rfl
          simp at this
        obtain ⟨g, h4, h5, h6⟩ := ih (requeue s f) (k + 1) hxs' hl hlt h2 fun c op p hm hb => by
          rw [h3] at hm
          rcases List.mem_append.mp hm with hm | hm
          · exact Nat.lt_succ_of_lt (hout c op p hm hb)
          · split at hm
            · obtain rfl := List.mem_singleton.mp hm
              exact Nat.lt_succ_self k
            · cases hm
        refine ⟨g, ?_, h5, ?_⟩
        · rw [h1]
          exact h4
        · intro c op
          have h6' := h6 c op
          rw [requeue_requeue] at h6'
          rw [h6', h3, hx, List.append_assoc]
          simp [hnop]

end Libtask.Chan
