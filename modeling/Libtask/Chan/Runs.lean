/-
  Libtask.Chan.Runs — what a `chanalt` call does to the waiting arrays, and what every run
  of calls keeps.

  `chanalt_cases`: a call never fails, and it runs one alternative, returns -1 or queues
  all its alternatives, the last two only when none of them can run. `inv` is the run
  lemma of the invariant of Libtask.Chan.Waiting. The results:

  - `no_dangling`: each alternative of a blocked task that was not chosen is on its
    channel exactly once and nothing else is on any channel; a chosen task was readied
    once, ran one alternative and returns its index; no step fails.
  - `no_missed_rendezvous`: what holds of the rings and the two sides of every channel,
    and that no blocked task could be served.
-/

import Libtask.Chan.Waiting

namespace Libtask.Chan

open Function (update update_self)

/-! ## The outcomes of a call -/

theorem pick_some {can : Alt → Bool} : ∀ {xs : List Alt} {j : Nat}, j < xs.countP can →
    ∃ i x, pick can j xs = some i ∧ xs[i]? = some x ∧ can x = true := by
  intro xs
  induction xs with
  | nil => intro j h; simp at h
  | cons x xs ih =>
    intro j h
    by_cases hx : can x = true
    · rw [List.countP_cons_of_pos hx] at h
      by_cases hj : j = 0
      · exact ⟨0, x, by simp [pick, hx, hj], rfl, hx⟩
      · obtain ⟨i, y, h1, h2, h3⟩ := ih (j := j - 1) (by omega)
        exact ⟨i + 1, y, by simp [pick, hx, hj, h1], h2, h3⟩
    · rw [List.countP_cons_of_neg hx] at h
      obtain ⟨i, y, h1, h2, h3⟩ := ih h
      exact ⟨i + 1, y, by simp [pick, hx, h1], h2, h3⟩

/-- `chanalt(a)` may be called by `t` with `xs` in `a`. -/
structure Callable (s : St) (t : TaskPtr) (a : Nat) (xs : List Alt) : Prop where
  idle : s.wait t = none
  free : ∀ u, s.wait u ≠ some a
  ends : altlen xs < xs.length

/-- None of the alternatives of `a` can run. -/
def Stuck (s : St) (a : Nat) : Prop := ∀ i < altlen (s.alt a), altcanexec s (s.deref ⟨a, i⟩) = false

/-- New state, readied task and returned index of a call. -/
inductive Outcome (s : St) (t : TaskPtr) (a : Nat) (xs : List Alt) : St → Option TaskPtr → Option Int → Prop
  | ran {i : Nat} {s' : St} {w : Option TaskPtr} : i < altlen xs → Executed (entered s t a xs) ⟨a, i⟩ s' w →
      Outcome s t a xs s' w (some i)
  | refused : Stuck (entered s t a xs) a → Outcome s t a xs (entered s t a xs) none (some (-1))
  | queued {f : Nat → Altarray × Altarray} : Stuck (entered s t a xs) a → Nodups (requeue (entered s t a xs) f) →
      (∀ c op, queue ((requeue (entered s t a xs) f).chan c) op =
        queue (s.chan c) op ++ listed a c op 0 (own t a xs)) →
      Outcome s t a xs (requeue (entered s t a xs) f) none none

theorem altcanexec_op {s : St} {x : Alt} (he : isEnd x = false) (h : altcanexec s x = true) :
    x.op = .CHANSND ∨ x.op = .CHANRCV :=
  op_cases he fun hn => by simp [altcanexec, hn] at h

theorem chanalt_cases {s : St} (hi : Inv s) {t : TaskPtr} {a : Nat} {xs : List Alt} (hc : Callable s t a xs)
    (r1 r2 : Nat) : ∃ s' w ret, chanalt (enter s t a xs) t a r1 r2 = .ok (s', w, ret) ∧ Outcome s t a xs s' w ret := by
  have he := inv_entered hi (t := t) xs hc.free
  have hal : (enter s t a xs).alt a = xs := by simp [enter]
  have hlen : altlen ((entered s t a xs).alt a) = altlen xs := by rw [entered_alt, own_altlen t a hc.ends]
  have hent : { enter s t a xs with alt := update (enter s t a xs).alt a (own t a xs) } = entered s t a xs := by
    simp [entered, enter]
  simp only [chanalt, hal, hent, update_self]
  cases hp : (if ((own t a xs).take (altlen xs)).countP (altcanexec (entered s t a xs)) ≠ 0 then
      pick (altcanexec (entered s t a xs))
        (r1 % ((own t a xs).take (altlen xs)).countP (altcanexec (entered s t a xs))) ((own t a xs).take (altlen xs))
      else none) with
  | some i =>
    split at hp
    · rename_i hne
      obtain ⟨j, x, h1, h2, h3⟩ := pick_some (Nat.mod_lt r1 (Nat.pos_of_ne_zero hne))
      obtain rfl : j = i := by rw [hp] at h1; exact (Option.some.inj h1).symm
      have hj : j < altlen xs := by
        have := (List.getElem?_eq_some_iff.mp h2).1
        rw [List.length_take] at this
        omega
      have hx : (entered s t a xs).deref ⟨a, j⟩ = x := by
        apply deref_of_getElem?
        rw [List.getElem?_take_of_lt hj] at h2
        simpa using h2
      have hend : isEnd x = false := hx ▸ isEnd_deref (p := ⟨a, j⟩) (hlen ▸ hj)
      obtain ⟨s', w, h4, h5⟩ := altexec_spec he (e := ⟨a, j⟩) r2 (hx ▸ altcanexec_op hend h3) (hx ▸ h3)
      exact ⟨s', w, some j, by simp only [h4, bind, Except.bind], .ran hj h5⟩
    · cases hp
  | none =>
    -- nothing can run, or `pick` would have found it
    have hstuck : Stuck (entered s t a xs) a := by
      intro i hil
      rw [hlen] at hil
      by_contra hne
      have hcan : altcanexec (entered s t a xs) ((entered s t a xs).deref ⟨a, i⟩) = true := by simpa using hne
      have hmem : (entered s t a xs).deref ⟨a, i⟩ ∈ (own t a xs).take (altlen xs) := by
        obtain ⟨x, hx, -⟩ := before_end (hlen.symm ▸ hil : i < altlen ((entered s t a xs).alt a))
        rw [deref_of_getElem? (p := ⟨a, i⟩) hx]
        rw [entered_alt] at hx
        exact List.mem_of_getElem? ((List.getElem?_take_of_lt hil).trans hx)
      have hpos := List.countP_pos_iff.mpr ⟨_, hmem, hcan⟩
      rw [if_pos (by omega)] at hp
      obtain ⟨i, x, h1, -⟩ := pick_some (Nat.mod_lt r1 hpos)
      rw [hp] at h1
      cases h1
    by_cases hb : ((enter s t a xs).deref ⟨a, altlen xs⟩).op = .CHANEND
    · obtain ⟨f, h1, h2, h3⟩ := queue_loop (a := a) (own t a xs) (entered s t a xs) 0 (by simp)
        (by rw [hlen, entered_alt, own_length]; exact hc.ends) (Nat.zero_le _) he.nodup
        (fun c op p hm hpa => by
          -- nobody waits on `a`
          obtain ⟨⟨⟨u, hu, -⟩, -⟩, -⟩ := (he.mem c op p).mp hm
          exact absurd (hpa ▸ hu) (hc.free u))
      exact ⟨_, none, none, by simp only [hb, not_true, if_false, h1, bind, Except.bind], .queued hstuck h2 h3⟩
    · exact ⟨_, none, some (-1), by simp only [hb, not_false_eq_true, if_true], .refused hstuck⟩

/-! ## The other task's alternatives -/

theorem altlen_modify {xs : List Alt} (h : altlen xs < xs.length) (i : Nat) (x : AltPtr) :
    altlen (xs.modify i fun y => { y with xalt := some x }) = altlen xs := by
  apply altlen_eq
  · intro j hj
    obtain ⟨y, hy, he⟩ := before_end hj
    by_cases hij : i = j
    · exact ⟨{ y with xalt := some x }, by simp [hij, hy], he⟩
    · exact ⟨y, by simp [hij, hy], he⟩
  · obtain ⟨y, hy, he⟩ := end_at h
    by_cases hij : i = altlen xs
    · exact ⟨{ y with xalt := some x }, by simp [hij, hy], he⟩
    · exact ⟨y, by simp [hij, hy], he⟩

theorem setXalt_alt_ne (s : St) {p : AltPtr} {b : Nat} (o : AltPtr) (h : b ≠ p.arr) :
    (setXalt s p o).alt b = s.alt b := by simp [setXalt, h]

theorem setXalt_altlen {s : St} {p : AltPtr} (o : AltPtr) (h : altlen (s.alt p.arr) < (s.alt p.arr).length) (b : Nat) :
    altlen ((setXalt s p o).alt b) = altlen (s.alt b) := by
  by_cases hb : b = p.arr
  · subst hb
    simp [setXalt, altlen_modify h]
  · rw [setXalt_alt_ne s o hb]

/-- Only the field `xalt` is stored to. -/
theorem setXalt_deref (s : St) (p o q : AltPtr) :
    ((setXalt s p o).deref q).c = (s.deref q).c ∧ ((setXalt s p o).deref q).v = (s.deref q).v ∧
      ((setXalt s p o).deref q).op = (s.deref q).op ∧ ((setXalt s p o).deref q).task = (s.deref q).task := by
  by_cases hb : q.arr = p.arr
  · by_cases hi : p.i = q.i
    · cases hx : (s.alt p.arr)[q.i]? <;> simp [St.deref, setXalt, hb, hi, hx]
    · simp [St.deref, setXalt, hb, hi]
  · simp [St.deref, setXalt, hb]

theorem setXalt_xalt {s : St} {p : AltPtr} (o : AltPtr) (h : p.i < (s.alt p.arr).length) :
    ((setXalt s p o).deref p).xalt = some o := by
  simp [St.deref, setXalt, List.getElem?_eq_getElem h]

/-! ## One step -/

/-- The index at which `p`, if it is in array `b`, is there. -/
def idx (b : Nat) : Option AltPtr → List Nat
  | some p => if p.arr = b then [p.i] else []
  | none => []

theorem Moved.ran {s s' : St} {c : Nat} {pr : Option AltPtr × Option AltPtr} (h : Moved s c pr s') (b : Nat) :
    s'.ran b = s.ran b ++ (idx b pr.2 ++ idx b pr.1) := by
  have hup : ∀ (g : Nat → List Nat) (p : AltPtr), update g p.arr (g p.arr ++ [p.i]) b = g b ++ idx b (some p) := by
    intro g p
    by_cases hb : p.arr = b
    · subst hb; simp [idx]
    · simp [idx, hb, Ne.symm hb]
  cases h with
  | direct p r _ => rw [copyDirect_eq]; simp only [hup, List.append_assoc]
  | out r _ _ _ => rw [copyOut_eq]; simp only [hup, idx, List.append_nil]
  | in_ p _ _ => rw [copyIn_eq]; simp only [hup, idx, List.nil_append]
  | full p r _ _ => rw [copyIn_eq, copyOut_eq]; simp only [hup, List.append_assoc]

theorem idx_sides (s : St) {e o : AltPtr} (h : o.arr ≠ e.arr) :
    idx o.arr (sides s e (some o)).2 ++ idx o.arr (sides s e (some o)).1 = [o.i] := by
  unfold sides
  split <;> simp [idx, Ne.symm h]

theorem idx_sides_other (s : St) {e : AltPtr} {o : Option AltPtr} {b : Nat} (he : e.arr ≠ b) (ho : ∀ p ∈ o, p.arr ≠ b) :
    idx b (sides s e o).2 ++ idx b (sides s e o).1 = [] := by
  cases o with
  | none => unfold sides; split <;> simp [idx, he]
  | some p => unfold sides; split <;> simp [idx, he, ho p rfl]

/-- Moving data changes neither who waits nor whether a waiting side may be there. -/
theorem inv_moved {s s' : St} {c : Nat} {pr : Option AltPtr × Option AltPtr} (hi : Inv s) (h : Moved s c pr s') :
    Nodups s' ∧ (∀ c', InRange (s'.chan c')) ∧
    (∀ c', (s'.chan c').bufsize ≠ 0 → queue (s'.chan c') .CHANRCV ≠ [] → (s'.chan c').nbuf = 0) ∧
    (∀ c', (s'.chan c').bufsize ≠ 0 → queue (s'.chan c') .CHANSND ≠ [] → (s'.chan c').nbuf = (s'.chan c').bufsize) := by
  have hf := h.frame
  refine ⟨fun c' op => hf.queue c' op ▸ hi.nodup c' op, h.inRange hi.range, ?_, ?_⟩
  · intro c' hb hq
    rw [hf.bufsize] at hb
    rw [hf.queue] at hq
    have h0 := hi.recv c' hb hq
    rcases h.nbuf hi.range c' with hn | ⟨-, hn, -⟩ | ⟨-, hn⟩
    · rw [hn, h0]
    · exact absurd h0 hn
    · exact absurd hn hq
  · intro c' hb hq
    rw [hf.bufsize] at hb ⊢
    rw [hf.queue] at hq
    have h0 := hi.send c' hb hq
    rcases h.nbuf hi.range c' with hn | ⟨-, -, hn⟩ | ⟨hn, -⟩
    · rw [hn, h0]
    · exact absurd hn hq
    · omega

theorem inv_executed {s s' : St} {e : AltPtr} {w : Option TaskPtr} (hi : Inv s) (hfree : ∀ u, s.wait u ≠ some e.arr)
    (h : Executed s e s' w) : Inv (wake s' w) := by
  cases h with
  | alone hq hm =>
    have hf := hm.frame
    obtain ⟨hnd, hrange, hrecv, hsend⟩ := inv_moved hi hm
    -- only `ran` of the caller's array changed among what `Inv` says of tasks
    have hran : ∀ t b, s.wait t = some b → s'.ran b = s.ran b := fun t b hb => by
      have hne : e.arr ≠ b := fun he => hfree t (he ▸ hb)
      rw [hm.ran b, idx_sides_other s hne (fun p hp => by cases hp), List.append_nil]
    have hq' := queued_congr hf.wait hf.woken fun t b _ => congrFun hf.alt b
    show Inv s'
    refine ⟨?_, ?_, ?_, ?_, ?_, ?_, hnd, hrange, hrecv, hsend, ?_⟩
    · rw [hf.wait]; exact hi.inj
    · rw [hf.wait, hf.alt]; exact hi.len
    · intro t b hb i hlt
      rw [hf.wait] at hb
      rw [hf.alt] at hlt
      rw [hf.deref]
      exact hi.task t b hb i hlt
    · intro t b hb h0
      rw [hf.wait] at hb
      rw [hf.woken] at h0
      rw [hran t b hb, hf.alt]
      obtain ⟨h1, h2⟩ := hi.fresh t b hb h0
      exact ⟨h1, fun i hlt => by rw [hf.deref]; exact h2 i hlt⟩
    · intro t b hb h0
      rw [hf.wait] at hb
      rw [hf.woken] at h0 ⊢
      rw [hran t b hb, hf.alt, hf.deref]
      exact hi.chosen t b hb h0
    · intro c op p
      rw [hf.queue, (hq' p).1, hf.deref]
      exact hi.mem c op p
    · intro c hb p hp q hq
      rw [hf.bufsize] at hb
      rw [hf.queue] at hp hq
      exact hi.single c hb p hp q hq
  | @matched u other s₁ f hmem hu h0 hm hnd hq =>
    have hf := hm.frame
    obtain ⟨-, hrange, hrecv, hsend⟩ := inv_moved hi hm
    have hne : other.arr ≠ e.arr := fun he => hfree u (he ▸ hu)
    have hlen : altlen (s₁.alt other.arr) < (s₁.alt other.arr).length := by
      rw [hf.alt]; exact hi.len u _ hu
    have hal : ∀ b, altlen ((setXalt (requeue s₁ f) ⟨other.arr, 0⟩ other).alt b) = altlen (s.alt b) := fun b => by
      rw [setXalt_altlen (s := requeue s₁ f) (p := ⟨other.arr, 0⟩) other hlen b, requeue_alt, hf.alt]
    have hd : ∀ p, ((setXalt (requeue s₁ f) ⟨other.arr, 0⟩ other).deref p).c = (s.deref p).c ∧
        ((setXalt (requeue s₁ f) ⟨other.arr, 0⟩ other).deref p).op = (s.deref p).op ∧
        ((setXalt (requeue s₁ f) ⟨other.arr, 0⟩ other).deref p).task = (s.deref p).task := fun p => by
      obtain ⟨h1, -, h3, h4⟩ := setXalt_deref (requeue s₁ f) ⟨other.arr, 0⟩ other p
      rw [requeue_deref, hf.deref] at h1 h3 h4
      exact ⟨h1, h3, h4⟩
    have hsub : ∀ c op p, p ∈ queue ((requeue s₁ f).chan c) op → p ∈ queue (s.chan c) op := fun c op p hp => by
      rw [← hf.queue c op]
      exact ((hq c op p).mp hp).1
    have hran : ∀ t b, s.wait t = some b → b ≠ other.arr → s₁.ran b = s.ran b := fun t b hb hbo => by
      have hbe : e.arr ≠ b := fun he => hfree t (he ▸ hb)
      rw [hm.ran b, idx_sides_other s hbe (fun p hp => by cases hp; exact Ne.symm hbo), List.append_nil]
    -- the others keep their array, and `u` is no longer among those not chosen
    have hwk : ∀ t, t ≠ u → update s₁.woken u (s₁.woken u + 1) t = s.woken t := fun t ht => by simp [ht, hf.woken]
    have hwu : update s₁.woken u (s₁.woken u + 1) u = 1 := by simp [hf.woken, h0]
    have hzero : ∀ t, update s₁.woken u (s₁.woken u + 1) t = 0 → t ≠ u := fun t ht he => by
      rw [he, hwu] at ht
      cases ht
    have hother : ∀ t b, s.wait t = some b → t ≠ u → b ≠ other.arr := fun t b hb ht he =>
      ht (hi.inj t u b hb (he ▸ hu))
    refine ⟨?_, ?_, ?_, ?_, ?_, ?_, hnd, fun c => ⟨(hrange c).bufsize, (hrange c).nbuf, (hrange c).off⟩, ?_, ?_, ?_⟩
    · show ∀ t u' a, s₁.wait t = some a → s₁.wait u' = some a → t = u'
      rw [hf.wait]; exact hi.inj
    · intro t b hb'
      have hb : s.wait t = some b := hf.wait ▸ hb'
      show altlen ((setXalt (requeue s₁ f) ⟨other.arr, 0⟩ other).alt b) < _
      rw [hal b]
      by_cases hbo : b = other.arr
      · subst hbo
        simpa [wake, setXalt, hf.alt] using hi.len t _ hb
      · simpa [wake, setXalt, hf.alt, hbo] using hi.len t _ hb
    · intro t b hb' i hlt
      have hb : s.wait t = some b := hf.wait ▸ hb'
      have hlt : i < altlen (s.alt b) := (hal b) ▸ hlt
      exact ((hd ⟨b, i⟩).2.2).trans (hi.task t b hb i hlt)
    · intro t b hb' h0'
      have hb : s.wait t = some b := hf.wait ▸ hb'
      have htu : t ≠ u := hzero t h0'
      have hbo := hother t b hb htu
      obtain ⟨h1, h2⟩ := hi.fresh t b hb ((hwk t htu).symm.trans h0')
      refine ⟨(hran t b hb hbo).trans h1, ?_⟩
      intro i hlt
      have hlt : i < altlen (s.alt b) := (hal b) ▸ hlt
      have := h2 i hlt
      rw [← hf.deref] at this
      simpa [wake, St.deref, setXalt, hbo] using this
    · intro t b hb' h0'
      have hb : s.wait t = some b := hf.wait ▸ hb'
      by_cases htu : t = u
      · rw [htu] at hb ⊢
        obtain rfl : b = other.arr := Option.some.inj (hb.symm.trans hu)
        have hlt := ((hi.mem _ _ _).mp hmem).1.2.1
        refine ⟨hwu, other.i, (hal _).symm ▸ hlt, ?_, ?_⟩
        · show s₁.ran other.arr = [other.i]
          rw [hm.ran, (hi.fresh u _ hu h0).1, idx_sides s hne, List.nil_append]
        · exact setXalt_xalt (s := requeue s₁ f) (p := ⟨other.arr, 0⟩) other (Nat.lt_of_le_of_lt (Nat.zero_le _) hlen)
      · have hbo := hother t b hb htu
        have h0'' : s.woken t ≠ 0 := fun hz => h0' ((hwk t htu).trans hz)
        obtain ⟨h1, i, h2, h3, h4⟩ := hi.chosen t b hb h0''
        refine ⟨(hwk t htu).trans h1, i, (hal b).symm ▸ h2, (hran t b hb hbo).trans h3, ?_⟩
        rw [← hf.deref] at h4
        simpa [wake, St.deref, setXalt, hbo] using h4
    · intro c op p
      have hqd : Queued (wake (setXalt (requeue s₁ f) ⟨other.arr, 0⟩ other) (some u)) p ↔
          Queued s p ∧ p.arr ≠ other.arr := by
        constructor
        · intro h'
          obtain ⟨⟨t, ht, ht0⟩, hlt, hnop⟩ := h'
          have ht : s.wait t = some p.arr := hf.wait ▸ ht
          have htu : t ≠ u := hzero t ht0
          exact ⟨⟨⟨t, ht, (hwk t htu).symm.trans ht0⟩, (hal p.arr) ▸ hlt, fun h => hnop ((hd p).2.1.trans h)⟩,
            hother t _ ht htu⟩
        · intro h'
          obtain ⟨⟨⟨t, ht, ht0⟩, hlt, hnop⟩, hbo⟩ := h'
          have htu : t ≠ u := fun he => hbo (Option.some.inj (ht.symm.trans (he ▸ hu)))
          exact ⟨⟨t, (hf.wait.symm ▸ ht : s₁.wait t = some p.arr), (hwk t htu).trans ht0⟩, (hal p.arr).symm ▸ hlt,
            fun h => hnop ((hd p).2.1.symm.trans h)⟩
      rw [hqd]
      show p ∈ queue ((requeue s₁ f).chan c) op ↔ _ ∧
        ((setXalt (requeue s₁ f) ⟨other.arr, 0⟩ other).deref p).c = c ∧
        ((setXalt (requeue s₁ f) ⟨other.arr, 0⟩ other).deref p).op = op
      rw [(hd p).1, (hd p).2.1, hq, hf.queue, hi.mem]
      tauto
    · intro c hb hne'
      obtain ⟨p, hp⟩ := List.exists_mem_of_ne_nil _ hne'
      exact hrecv c hb (queue_ne_nil ((hf.queue c _).symm ▸ hsub c _ p hp))
    · intro c hb hne'
      obtain ⟨p, hp⟩ := List.exists_mem_of_ne_nil _ hne'
      exact hsend c hb (queue_ne_nil ((hf.queue c _).symm ▸ hsub c _ p hp))
    · intro c hb p hp q hq'
      exact hi.single c ((hf.bufsize c).symm.trans hb) p (hsub c _ p hp) q (hsub c _ q hq')

/-- The state in which a task that queued its alternatives leaves. -/
def blocked (s : St) (t : TaskPtr) (a : Nat) : St :=
  { s with wait := update s.wait t (some a), woken := update s.woken t 0 }

@[simp] theorem blocked_chan (s : St) (t : TaskPtr) (a : Nat) : (blocked s t a).chan = s.chan := rfl
@[simp] theorem blocked_alt (s : St) (t : TaskPtr) (a : Nat) : (blocked s t a).alt = s.alt := rfl
@[simp] theorem blocked_ran (s : St) (t : TaskPtr) (a : Nat) : (blocked s t a).ran = s.ran := rfl
@[simp] theorem blocked_deref (s : St) (t : TaskPtr) (a : Nat) (p : AltPtr) : (blocked s t a).deref p = s.deref p := rfl
@[simp] theorem blocked_woken_ne (s : St) {t u : TaskPtr} (a : Nat) (h : u ≠ t) : (blocked s t a).woken u = s.woken u := by
  simp [blocked, h]

/-- An alternative that cannot run, seen from its channel. -/
theorem cannot {s : St} {x : Alt} (hop : x.op = .CHANSND ∨ x.op = .CHANRCV) (h : altcanexec s x = false) :
    ((s.chan x.c).bufsize = 0 → queue (s.chan x.c) (otherop x.op) = []) ∧
      ((s.chan x.c).bufsize ≠ 0 → x.op = .CHANSND → (s.chan x.c).bufsize ≤ (s.chan x.c).nbuf) ∧
      ((s.chan x.c).bufsize ≠ 0 → x.op = .CHANRCV → (s.chan x.c).nbuf = 0) := by
  have hno : ¬ (altcanexec s x = true) := by simp [h]
  rw [altcanexec_iff hop] at hno
  refine ⟨?_, ?_, ?_⟩
  · intro hb
    by_contra hne
    exact hno (Or.inl ⟨hb, hne⟩)
  · intro hb hs
    by_contra hlt
    exact hno (Or.inr ⟨hb, (fun _ => by omega), fun hr => by rw [hs] at hr; cases hr⟩)
  · intro hb hr
    by_contra hne
    exact hno (Or.inr ⟨hb, (fun hs => by rw [hr] at hs; cases hs), fun _ => hne⟩)

theorem inv_blocked {s : St} (hi : Inv s) {t : TaskPtr} {a : Nat} {f : Nat → Altarray × Altarray}
    (hidle : s.wait t = none) (hfree : ∀ u, s.wait u ≠ some a) (hlen : altlen (s.alt a) < (s.alt a).length)
    (hown : ∀ i < altlen (s.alt a), (s.deref ⟨a, i⟩).task = some t ∧ (s.deref ⟨a, i⟩).xalt = some ⟨a, 0⟩)
    (hran : s.ran a = []) (hst : Stuck s a) (hnd : Nodups (requeue s f))
    (hq : ∀ c op, queue ((requeue s f).chan c) op = queue (s.chan c) op ++ listed a c op 0 (s.alt a)) :
    Inv (blocked (requeue s f) t a) := by
  have hwt : ∀ u b, update s.wait t (some a) u = some b → (u = t ∧ b = a) ∨ (u ≠ t ∧ b ≠ a ∧ s.wait u = some b) := by
    intro u b hb
    by_cases hu : u = t
    · subst hu
      rw [update_self] at hb
      exact Or.inl ⟨rfl, (Option.some.inj hb).symm⟩
    · rw [Function.update_of_ne hu] at hb
      exact Or.inr ⟨hu, fun h => hfree u (h ▸ hb), hb⟩
  have hmem : ∀ c op p, p ∈ queue ((requeue s f).chan c) op ↔ p ∈ queue (s.chan c) op ∨
      (p.arr = a ∧ p.i < altlen (s.alt a) ∧ (s.deref p).op ≠ .CHANNOP ∧ c = (s.deref p).c ∧ op = (s.deref p).op) := by
    intro c op p
    rw [hq, List.mem_append, mem_listed (s := s) _ 0 (by simp) hlen (Nat.zero_le _)]
    simp
  -- why a newly queued alternative of side `op` is on channel `c`
  have hnew : ∀ c op p, p ∈ queue ((requeue s f).chan c) op → p ∉ queue (s.chan c) op → p.arr = a ∧
      ((s.chan c).bufsize = 0 → queue (s.chan c) (otherop op) = []) ∧
      ((s.chan c).bufsize ≠ 0 → op = .CHANSND → (s.chan c).bufsize ≤ (s.chan c).nbuf) ∧
      ((s.chan c).bufsize ≠ 0 → op = .CHANRCV → (s.chan c).nbuf = 0) := by
    intro c op p hp hnot
    rcases (hmem c op p).mp hp with h | ⟨rfl, hlt, hnop, rfl, rfl⟩
    · exact absurd h hnot
    · exact ⟨rfl, cannot (op_cases (isEnd_deref hlt) hnop) (hst p.i hlt)⟩
  refine ⟨?_, ?_, ?_, ?_, ?_, ?_, hnd, fun c => ⟨(hi.range c).bufsize, (hi.range c).nbuf, (hi.range c).off⟩, ?_, ?_, ?_⟩
  · intro u v b hu hv
    rcases hwt u b hu with ⟨h1, h2⟩ | ⟨h1, h2, h3⟩ <;> rcases hwt v b hv with ⟨h4, h5⟩ | ⟨h4, h5, h6⟩
    · rw [h1, h4]
    · exact absurd h2 h5
    · exact absurd h5 h2
    · exact hi.inj u v b h3 h6
  · intro u b hu
    rcases hwt u b hu with ⟨-, rfl⟩ | ⟨-, -, h3⟩
    · exact hlen
    · exact hi.len u b h3
  · intro u b hu i hlt
    rcases hwt u b hu with ⟨rfl, rfl⟩ | ⟨-, -, h3⟩
    · exact (hown i hlt).1
    · exact hi.task u b h3 i hlt
  · intro u b hu h0
    rcases hwt u b hu with ⟨rfl, rfl⟩ | ⟨h1, -, h3⟩
    · exact ⟨hran, fun i hlt => (hown i hlt).2⟩
    · exact hi.fresh u b h3 (by simpa [h1] using h0)
  · intro u b hu h0
    rcases hwt u b hu with ⟨rfl, rfl⟩ | ⟨h1, -, h3⟩
    · simp [blocked] at h0
    · simpa [h1] using hi.chosen u b h3 (by simpa [h1] using h0)
  · intro c op p
    have hqd : Queued (blocked (requeue s f) t a) p ↔
        Queued s p ∨ (p.arr = a ∧ p.i < altlen (s.alt a) ∧ (s.deref p).op ≠ .CHANNOP) := by
      constructor
      · intro h'
        obtain ⟨⟨u, hu, h0⟩, hlt, hnop⟩ := h'
        rcases hwt u _ hu with ⟨-, h2⟩ | ⟨h1, -, h3⟩
        · exact Or.inr ⟨h2, h2 ▸ hlt, hnop⟩
        · exact Or.inl ⟨⟨u, h3, by simpa [h1] using h0⟩, hlt, hnop⟩
      · intro h'
        rcases h' with ⟨⟨u, hu, h0⟩, hlt, hnop⟩ | ⟨h1, hlt, hnop⟩
        · have hut : u ≠ t := fun h => by rw [h, hidle] at hu; cases hu
          exact ⟨⟨u, by simpa [blocked, hut] using hu, by simpa [hut] using h0⟩, hlt, hnop⟩
        · exact ⟨⟨t, by simp [blocked, h1], by simp [blocked]⟩, h1.symm ▸ hlt, hnop⟩
    rw [hqd]
    show p ∈ queue ((requeue s f).chan c) op ↔ _ ∧ (s.deref p).c = c ∧ (s.deref p).op = op
    rw [hmem, hi.mem]
    constructor
    · intro h'
      rcases h' with ⟨h1, h2⟩ | ⟨h1, h2, h3, h4, h5⟩
      · exact ⟨Or.inl h1, h2⟩
      · exact ⟨Or.inr ⟨h1, h2, h3⟩, h4.symm, h5.symm⟩
    · intro h'
      obtain ⟨h1 | ⟨h1, h2, h3⟩, h4, h5⟩ := h'
      · exact Or.inl ⟨h1, h4, h5⟩
      · exact Or.inr ⟨h1, h2, h3, h4.symm, h5.symm⟩
  · intro c hb hne
    obtain ⟨p, hp⟩ := List.exists_mem_of_ne_nil _ hne
    by_cases hold : p ∈ queue (s.chan c) .CHANRCV
    · exact hi.recv c hb (queue_ne_nil hold)
    · exact (hnew c _ p hp hold).2.2.2 hb rfl
  · intro c hb hne
    obtain ⟨p, hp⟩ := List.exists_mem_of_ne_nil _ hne
    by_cases hold : p ∈ queue (s.chan c) .CHANSND
    · exact hi.send c hb (queue_ne_nil hold)
    · have := (hnew c _ p hp hold).2.2.1 hb rfl
      exact Nat.le_antisymm (hi.range c).nbuf this
  · intro c hb p hp q hq'
    by_cases hpo : p ∈ queue (s.chan c) .CHANSND <;> by_cases hqo : q ∈ queue (s.chan c) .CHANRCV
    · exact hi.single c hb p hpo q hqo
    · have := (hnew c _ q hq' hqo).2.1 hb
      exact absurd this (queue_ne_nil hpo)
    · have := (hnew c _ p hp hpo).2.1 hb
      exact absurd this (queue_ne_nil hqo)
    · exact (hnew c _ p hp hpo).1.trans (hnew c _ q hq' hqo).1.symm

/-! ## Runs -/

theorem callable_of_enabled {s : St} {t : TaskPtr} {a : Nat} {xs : List Alt} {r1 r2 : Nat}
    (h : Enabled s (.call t a xs r1 r2)) : Callable s t a xs := ⟨h.1, h.2.1, h.2.2⟩

/-- The state after a call: the chosen task is readied, and the caller goes on or leaves. -/
def settled (s : St) (t : TaskPtr) (a : Nat) (w : Option TaskPtr) : Option Int → St
  | some _ => wake s w
  | none => blocked (wake s w) t a

theorem call_outcome {s : St} (hi : Inv s) {t : TaskPtr} {a : Nat} {xs : List Alt} (hc : Callable s t a xs)
    (r1 r2 : Nat) : ∃ s' w ret, Outcome s t a xs s' w ret ∧ call s t a xs r1 r2 = .ok (settled s' t a w ret, w, ret) := by
  obtain ⟨s', w, ret, h1, h2⟩ := chanalt_cases hi hc r1 r2
  refine ⟨s', w, ret, h2, ?_⟩
  cases ret <;> simp [call, h1, bind, Except.bind, settled, blocked]

theorem call_spec {s : St} (hi : Inv s) {t : TaskPtr} {a : Nat} {xs : List Alt} (hc : Callable s t a xs) (r1 r2 : Nat) :
    ∃ s' w ret, Outcome s t a xs s' w ret ∧ step s (.call t a xs r1 r2) = .ok (settled s' t a w ret) := by
  obtain ⟨s', w, ret, h1, h2⟩ := call_outcome hi hc r1 r2
  exact ⟨s', w, ret, h1, by rw [step, h2]; rfl⟩

/-- Who waits, and who of them was chosen, behind a call. -/
inductive Waits (s : St) (t : TaskPtr) (a : Nat) (s' : St) : Option TaskPtr → Option Int → Prop
  | chose (u : TaskPtr) (v : Int) : s.wait u ≠ none → s.woken u = 0 → s'.wait = s.wait →
      s'.woken = update s.woken u 1 → Waits s t a s' (some u) (some v)
  | went (v : Int) : s'.wait = s.wait → s'.woken = s.woken → Waits s t a s' none (some v)
  | blocked : s'.wait = update s.wait t (some a) → s'.woken = update s.woken t 0 → Waits s t a s' none none

theorem outcome_waits {s s' : St} {t : TaskPtr} {a : Nat} {xs : List Alt} {w : Option TaskPtr} {ret : Option Int}
    (h : Outcome s t a xs s' w ret) : Waits s t a (settled s' t a w ret) w ret := by
  cases h with
  | @ran i _ _ _ hx =>
    cases hx with
    | alone _ hm => exact .went _ hm.frame.wait hm.frame.woken
    | @matched u other s₁ f _ hu h0 hm _ _ =>
      have hu' : s.wait u = some other.arr := hu
      have h0' : s.woken u = 0 := h0
      refine .chose u _ (by rw [hu']; nofun) h0' hm.frame.wait ?_
      show update s₁.woken u (s₁.woken u + 1) = _
      rw [hm.frame.woken]
      show update s.woken u (s.woken u + 1) = _
      rw [h0']
  | refused _ => exact .went _ rfl rfl
  | queued _ _ _ => exact .blocked rfl rfl

theorem entered_own {s : St} {t : TaskPtr} {a : Nat} {xs : List Alt} {i : Nat} (h : i < altlen xs) :
    ∃ x, xs[i]? = some x ∧ (entered s t a xs).deref ⟨a, i⟩ = { x with task := some t, xalt := some ⟨a, 0⟩ } := by
  obtain ⟨x, hx, -⟩ := before_end h
  exact ⟨x, hx, deref_of_getElem? (p := ⟨a, i⟩) (by simp [own_getElem?, h, hx])⟩

theorem inv_outcome {s s' : St} (hi : Inv s) {t : TaskPtr} {a : Nat} {xs : List Alt} (hc : Callable s t a xs)
    {w : Option TaskPtr} {ret : Option Int} (h : Outcome s t a xs s' w ret) : Inv (settled s' t a w ret) := by
  have he := inv_entered hi (t := t) xs hc.free
  cases h with
  | @ran i _ _ _ hx => exact inv_executed (e := ⟨a, i⟩) he hc.free hx
  | refused _ => exact he
  | queued hst hnd hq =>
    have hlen : altlen ((entered s t a xs).alt a) = altlen xs := by rw [entered_alt, own_altlen t a hc.ends]
    refine inv_blocked he hc.idle hc.free ?_ (fun i hlt => ?_) (entered_ran s t a xs) hst hnd (by simpa using hq)
    · rw [hlen, entered_alt, own_length]
      exact hc.ends
    · obtain ⟨x, -, hx⟩ := entered_own (s := s) (t := t) (a := a) (hlen ▸ hlt : i < altlen xs)
      rw [hx]
      exact ⟨rfl, rfl⟩

/-- No enabled step fails, and each keeps the invariant. -/
theorem step_spec {s : St} (hi : Inv s) {e : Ev} (hen : Enabled s e) : ∃ s', step s e = .ok s' ∧ Inv s' := by
  cases e with
  | call t a xs r1 r2 =>
    have hc := callable_of_enabled hen
    obtain ⟨s', w, ret, h1, h2⟩ := call_spec hi hc r1 r2
    exact ⟨_, h2, inv_outcome hi hc h1⟩
  | resume t =>
    refine ⟨_, rfl, ?_⟩
    obtain ⟨hw, h0⟩ := hen
    have hwt : ∀ u b, update s.wait t none u = some b → s.wait u = some b := fun u b hb => by
      by_cases hu : u = t
      · subst hu; simp at hb
      · simpa [hu] using hb
    refine ⟨?_, ?_, ?_, ?_, ?_, ?_, hi.nodup, hi.range, hi.recv, hi.send, hi.single⟩
    · exact fun u v b hu hv => hi.inj u v b (hwt u b hu) (hwt v b hv)
    · exact fun u b hu => hi.len u b (hwt u b hu)
    · exact fun u b hu => hi.task u b (hwt u b hu)
    · exact fun u b hu => hi.fresh u b (hwt u b hu)
    · exact fun u b hu => hi.chosen u b (hwt u b hu)
    · intro c op p
      have hqd : Queued { s with wait := update s.wait t none } p ↔ Queued s p := by
        refine and_congr_left fun _ => ⟨?_, ?_⟩
        · intro h'
          obtain ⟨u, hu, hu0⟩ := h'
          exact ⟨u, hwt u _ hu, hu0⟩
        · intro h'
          obtain ⟨u, hu, hu0⟩ := h'
          have hut : u ≠ t := fun h => h0 (h ▸ hu0)
          exact ⟨u, by simpa [hut] using hu, hu0⟩
      rw [hqd]
      exact hi.mem c op p
  | poke x b => exact ⟨_, rfl, hi.frame rfl rfl rfl fun _ _ _ => ⟨rfl, rfl⟩⟩

theorem inv_start {size : Nat → Int × Int} (junk : Nat → Nat → UInt8) (mem : Nat → UInt8) (h : SizesOk size) :
    Inv (start size junk mem) := by
  have hq : ∀ c op, queue ((start size junk mem).chan c) op = [] := fun c op => by
    cases op <;> simp [start, chancreate, queue]
  have hw : ∀ t a, (start size junk mem).wait t ≠ some a := fun t a => by simp [start]
  refine ⟨?_, ?_, ?_, ?_, ?_, ?_, ?_, ?_, ?_, ?_, ?_⟩
  · exact fun t u a h => absurd h (hw t a)
  · exact fun t a h => absurd h (hw t a)
  · exact fun t a h => absurd h (hw t a)
  · exact fun t a h => absurd h (hw t a)
  · exact fun t a h => absurd h (hw t a)
  · intro c op p
    rw [hq]
    refine ⟨fun h => (List.not_mem_nil h).elim, ?_⟩
    intro h'
    obtain ⟨⟨⟨t, ht, _⟩, _⟩, _⟩ := h'
    exact absurd ht (hw t _)
  · exact fun c op => by rw [hq]; exact List.nodup_nil
  · intro c
    obtain ⟨-, -, h1, h2⟩ := h c
    refine ⟨?_, ?_, ?_⟩
    · simp only [start, chancreate]
      omega
    · simp [start, chancreate]
    · simp [start, chancreate]
  · exact fun c _ h => absurd (hq c _) h
  · exact fun c _ h => absurd (hq c _) h
  · exact fun c _ p hp => by rw [hq] at hp; cases hp

theorem inv {s : St} (h : Reach s) : Inv s := by
  induction h with
  | init size junk mem h => exact inv_start junk mem h
  | step e _ hen hs ih =>
    obtain ⟨s', h1, h2⟩ := step_spec ih hen
    rw [h1] at hs
    exact Except.ok.inj hs ▸ h2

theorem step_ok {s : St} (h : Reach s) {e : Ev} (hen : Enabled s e) : ∃ s', step s e = .ok s' := by
  obtain ⟨s', h1, -⟩ := step_spec (inv h) hen
  exact ⟨s', h1⟩

/-! ## The results -/

/-- Each alternative of a blocked task that was not chosen is queued once, nothing else is
    queued, and a chosen task ran one alternative, whose index it returns. -/
theorem no_dangling {s : St} (h : Reach s) :
    (∀ c op p, (queue (s.chan c) op).count p ≤ 1 ∧
      (p ∈ queue (s.chan c) op ↔ Queued s p ∧ (s.deref p).c = c ∧ (s.deref p).op = op)) ∧
    (∀ t a, s.wait t = some a → s.woken t ≠ 0 →
      s.woken t = 1 ∧
      (∃ i < altlen (s.alt a), s.ran a = [i] ∧ chanaltResult s a = some i) ∧
      ∀ c op p, p ∈ queue (s.chan c) op → p.arr ≠ a) ∧
    ∀ e, Enabled s e → ∃ s', step s e = .ok s' := by
  have hi := inv h
  refine ⟨fun c op p => ⟨List.nodup_iff_count_le_one.mp (hi.nodup c op) p, hi.mem c op p⟩, ?_, fun e => step_ok h⟩
  intro t a ht h0
  obtain ⟨h1, i, h2, h3, h4⟩ := hi.chosen t a ht h0
  refine ⟨h1, ⟨i, h2, h3, by simp [chanaltResult, h4]⟩, fun c op p hp hpa => ?_⟩
  obtain ⟨⟨⟨u, hu, hu0⟩, -⟩, -⟩ := (hi.mem c op p).mp hp
  have hut : u = t := hi.inj u t a (hpa ▸ hu) ht
  exact h0 (hut ▸ hu0)

/-- Task 1 waits to receive on an unbuffered channel, then task 2 sends. -/
theorem reach_received : ∃ s s', Reach s ∧ Reach s' ∧ queue (s.chan 0) .CHANRCV = [⟨1, 0⟩] ∧
    (s.chan 0).bufsize = 0 ∧ s'.wait 1 = some 1 ∧ s'.woken 1 ≠ 0 := by
  have h0 : Reach (start (fun _ => (1, 0)) (fun _ _ => 0) (fun _ => 0)) := .init _ _ _ (fun _ => by decide)
  have h1 := Reach.step (.call 1 1 (chanrecv 0 none) 0 0) h0 ⟨rfl, fun u => nofun, by decide⟩ rfl
  have h2 := Reach.step (.call 2 2 (chansend 0 none) 0 0) h1
    ⟨rfl, fun u => by
      show update (fun _ => none) 1 (some 1) u ≠ some 2
      by_cases hu : u = 1
      · subst hu; decide
      · simp [hu], by decide⟩ rfl
  exact ⟨_, _, h1, h2, by decide, by decide, by decide, by decide⟩

theorem no_dangling_received : ∃ s, Reach s ∧ s.wait 1 = some 1 ∧ s.woken 1 = 1 ∧
    ∃ i < altlen (s.alt 1), s.ran 1 = [i] ∧ chanaltResult s 1 = some i := by
  obtain ⟨-, s, -, h, -, -, hw, hk⟩ := reach_received
  obtain ⟨h1, h2, -⟩ := (no_dangling h).2.1 1 1 hw hk
  exact ⟨s, h, hw, h1, h2⟩

/-- The rings' numbers are in range, a side waits only for what is not there, and a blocked
    task's alternative can run only against alternatives of its own call. -/
theorem no_missed_rendezvous {s : St} (h : Reach s) :
    (∀ c, (s.chan c).nbuf ≤ (s.chan c).bufsize ∧ (s.chan c).off < max (s.chan c).bufsize 1 ∧
      ((s.chan c).bufsize ≠ 0 →
        (queue (s.chan c) .CHANRCV ≠ [] → (s.chan c).nbuf = 0) ∧
        (queue (s.chan c) .CHANSND ≠ [] → (s.chan c).nbuf = (s.chan c).bufsize)) ∧
      ((s.chan c).bufsize = 0 → (s.chan c).nbuf = 0 ∧ (s.chan c).off = 0 ∧
        (queue (s.chan c) .CHANSND ≠ [] → queue (s.chan c) .CHANRCV ≠ [] →
          ∃ t a, s.wait t = some a ∧ s.woken t = 0 ∧ ∀ op, ∀ p ∈ queue (s.chan c) op, p.arr = a))) ∧
    (∀ p, Queued s p → altcanexec s (s.deref p) = true →
      (s.chan (s.deref p).c).bufsize = 0 ∧
        ∀ q ∈ queue (s.chan (s.deref p).c) (otherop (s.deref p).op), q.arr = p.arr) ∧
    ∀ e, Enabled s e → ∃ s', step s e = .ok s' := by
  have hi := inv h
  refine ⟨fun c => ⟨(hi.range c).nbuf, (hi.range c).off, fun hb => ⟨hi.recv c hb, hi.send c hb⟩, ?_⟩, ?_,
    fun e => step_ok h⟩
  · intro hb
    have h1 := (hi.range c).nbuf
    have h2 := (hi.range c).off
    refine ⟨by omega, by omega, fun hs hr => ?_⟩
    obtain ⟨p, hp⟩ := List.exists_mem_of_ne_nil _ hs
    obtain ⟨q, hq⟩ := List.exists_mem_of_ne_nil _ hr
    obtain ⟨⟨⟨t, ht, ht0⟩, -⟩, -⟩ := (hi.mem c _ p).mp hp
    refine ⟨t, p.arr, ht, ht0, ?_⟩
    intro op r hr'
    rcases op_of_mem_queue hr' with rfl | rfl
    · exact (hi.single c hb r hr' q hq).trans (hi.single c hb p hp q hq).symm
    · exact (hi.single c hb p hp r hr').symm
  · intro p hp hcan
    have hop := queued_op hp
    have hpq : p ∈ queue (s.chan (s.deref p).c) (s.deref p).op := (hi.mem _ _ _).mpr ⟨hp, rfl, rfl⟩
    rcases (altcanexec_iff hop).mp hcan with ⟨hb, -⟩ | ⟨hb, hs, hr⟩
    · refine ⟨hb, ?_⟩
      intro q hq
      rcases hop with h1 | h1 <;> rw [h1] at hpq hq
      · exact (hi.single _ hb p hpq q hq).symm
      · exact hi.single _ hb q hq p hpq
    · -- on a buffered channel the ring would have to be both able to serve it and not
      rcases hop with h1 | h1 <;> rw [h1] at hpq
      · have := hi.send _ hb (queue_ne_nil hpq)
        have := hs h1
        omega
      · exact absurd (hi.recv _ hb (queue_ne_nil hpq)) (hr h1)

theorem no_missed_rendezvous_received : ∃ s, Reach s ∧ queue (s.chan 0) .CHANRCV = [⟨1, 0⟩] ∧
    (s.chan 0).nbuf = 0 ∧ (s.chan 0).off = 0 := by
  obtain ⟨s, -, h, -, hq, hb, -, -⟩ := reach_received
  obtain ⟨h1, h2, -⟩ := ((no_missed_rendezvous h).1 0).2.2.2 hb
  exact ⟨s, h, hq, h1, h2⟩

end Libtask.Chan
