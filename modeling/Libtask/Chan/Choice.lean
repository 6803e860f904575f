/-
  Libtask.Chan.Choice — which alternative a call of `chanalt` runs.

  The two passes of `chanalt` agree: the first counts the alternatives that can run, and the
  second comes to one of them for every value of `rand` (`pick_nth`, `pick_some`). Neither
  depends on what `chanalt` wrote into the array before (`chanalt_eq`).

  - `call_chooses`: a call that can run something runs one alternative, which could run at the
    call, and returns its index; each that can run is run for some `rand`.
  - `call_refuses`: else, with a CHANNOBLK, it changes nothing and returns -1.
  - `call_queues`: else, with a CHANEND, each alternative is appended where it belongs (`Queues`).
  - `call_sends`: what a call returns, to its task and to the one it readied, says what was sent.
-/

import Libtask.Chan.Fifo

namespace Libtask.Chan

open Function (update update_self)

section
variable {s : St} {t : TaskPtr} {a : Nat} {xs : List Alt}

/-! ## The two passes -/

/-- Alternative `i` of `xs` can run. -/
def Executable (s : St) (xs : List Alt) (i : Nat) : Prop := i < altlen xs ∧ ∃ x, xs[i]? = some x ∧ altcanexec s x = true

/-- What the first pass counts. -/
def ncan (s : St) (xs : List Alt) : Nat := (xs.take (altlen xs)).countP (altcanexec s)

/-- The second pass comes to `i` for the number of alternatives before `i` that can run. -/
theorem pick_nth {can : Alt → Bool} {x : Alt} (hx : can x = true) : ∀ {ys : List Alt} {i : Nat}, ys[i]? = some x →
    pick can ((ys.take i).countP can) ys = some i := by
  intro ys
  induction ys with
  | nil => intro i h; simp at h
  | cons y ys ih =>
    intro i h
    cases i with
    | zero =>
      obtain rfl : y = x := by simpa using h
      simp [pick, hx]
    | succ i =>
      have hi := ih (i := i) (by simpa using h)
      by_cases hy : can y = true
      · simp [pick, hy, hi]
      · simp [pick, hy, hi]

theorem pick_map (can : Alt → Bool) (f : Alt → Alt) : ∀ (j : Nat) (ys : List Alt),
    pick can j (ys.map f) = pick (can ∘ f) j ys := by
  intro j ys
  induction ys generalizing j with
  | nil => rfl
  | cons y ys ih => simp only [List.map_cons, pick, ih, Function.comp_apply]

theorem countP_nth_lt {can : Alt → Bool} {x : Alt} (hx : can x = true) {ys : List Alt} {i : Nat} (h : ys[i]? = some x) :
    (ys.take i).countP can < ys.countP can := by
  obtain ⟨hi, rfl⟩ := List.getElem?_eq_some_iff.mp h
  have hsplit : ys = ys.take i ++ ys[i] :: ys.drop (i + 1) := by simp
  calc (ys.take i).countP can < (ys.take i).countP can + (ys[i] :: ys.drop (i + 1)).countP can := by
        rw [List.countP_cons_of_pos hx]
        omega
    _ = ys.countP can := by rw [← List.countP_append, ← hsplit]

/-- What `chanalt` writes into an alternative does not matter for `altcanexec`. -/
theorem canexec_owned : (altcanexec (entered s t a xs) ∘ fun x => { x with task := some t, xalt := some ⟨a, 0⟩ }) =
    altcanexec s := rfl

theorem own_take : (own t a xs).take (altlen xs) =
    (xs.take (altlen xs)).map fun x => { x with task := some t, xalt := some ⟨a, 0⟩ } := by
  have hle : altlen xs ≤ xs.length := List.findIdx_le_length
  rw [own, List.take_append_of_le_length (by simp [hle]), List.take_of_length_le (by simp)]

/-- `chanalt`, with the passes over what the caller passed. -/
theorem chanalt_eq (r1 r2 : Nat) : chanalt (enter s t a xs) t a r1 r2 =
    (if ncan s xs ≠ 0 then pick (altcanexec s) (r1 % ncan s xs) (xs.take (altlen xs)) else none).elim
      (if ¬ ((enter s t a xs).deref ⟨a, altlen xs⟩).op = .CHANEND then .ok (entered s t a xs, none, some (-1))
        else eachAlt altqueue (entered s t a xs) ⟨a, 0⟩ (own t a xs) >>= fun c => .ok (c, none, none))
      fun i => altexec (entered s t a xs) ⟨a, i⟩ r2 >>= fun r => .ok (r.1, r.2, some (i : Int)) := by
  have hal : (enter s t a xs).alt a = xs := by simp [enter]
  have hent : { enter s t a xs with alt := update (enter s t a xs).alt a (own t a xs) } = entered s t a xs := by
    simp [entered, enter]
  have hcount : ((own t a xs).take (altlen xs)).countP (altcanexec (entered s t a xs)) = ncan s xs := by
    rw [own_take, List.countP_map, canexec_owned, ncan]
  have hpick : ∀ j, pick (altcanexec (entered s t a xs)) j ((own t a xs).take (altlen xs)) =
      pick (altcanexec s) j (xs.take (altlen xs)) := fun j => by
    rw [own_take, pick_map, canexec_owned]
  simp only [chanalt, hal, hent, update_self, hcount, hpick]
  generalize (if ncan s xs ≠ 0 then pick (altcanexec s) (r1 % ncan s xs) (xs.take (altlen xs)) else none) = i
  cases i with
  | none => rfl
  | some i => rfl

theorem executable_take {i : Nat} : Executable s xs i ↔ ∃ x, (xs.take (altlen xs))[i]? = some x ∧ altcanexec s x = true := by
  constructor
  · intro h
    obtain ⟨hi, x, hx, hcan⟩ := h
    exact ⟨x, (List.getElem?_take_of_lt hi).trans hx, hcan⟩
  · intro h
    obtain ⟨x, hx, hcan⟩ := h
    have hi : i < altlen xs := by
      have := (List.getElem?_eq_some_iff.mp hx).1
      rw [List.length_take] at this
      omega
    exact ⟨hi, x, (List.getElem?_take_of_lt hi).symm.trans hx, hcan⟩

theorem ncan_eq_zero : ncan s xs = 0 ↔ ∀ i, ¬ Executable s xs i := by
  rw [ncan, List.countP_eq_zero]
  constructor
  · intro h i hi
    obtain ⟨x, hx, hcan⟩ := executable_take.mp hi
    exact h x (List.mem_of_getElem? hx) hcan
  · intro h x hx hcan
    obtain ⟨i, hi⟩ := List.mem_iff_getElem?.mp hx
    exact h i (executable_take.mpr ⟨x, hi, hcan⟩)

/-! ## Something can run -/

/-- `altexec` ran one alternative of `a`, and that was `i`. -/
theorem Executed.ran_own {s' : St} {i : Nat} {w : Option TaskPtr} (hfree : ∀ u, s.wait u ≠ some a) (h0 : s.ran a = [])
    (h : Executed s ⟨a, i⟩ s' w) : s'.ran a = [i] := by
  have hsides : ∀ o, (∀ p ∈ o, p.arr ≠ a) → idx a (sides s ⟨a, i⟩ o).2 ++ idx a (sides s ⟨a, i⟩ o).1 = [i] := by
    intro o ho
    cases o with
    | none => unfold sides; split <;> simp [idx]
    | some p => unfold sides; split <;> simp [idx, ho p rfl]
  cases h with
  | alone _ hm => rw [hm.ran, h0, hsides none (by simp), List.nil_append]
  | @matched u other s₁ f _ hu _ hm _ _ =>
    show s₁.ran a = [i]
    rw [hm.ran, h0, hsides (some other) fun p hp he => hfree u (by rw [← he, ← Option.some.inj hp]; exact hu),
      List.nil_append]

/-- The call ran `i`, which could run, and nothing else of `a`; `altexec` did the rest. -/
structure Chose (s : St) (t : TaskPtr) (a : Nat) (xs : List Alt) (r2 i : Nat) (c : St) (w : Option TaskPtr) : Prop where
  could : Executable s xs i
  ran : c.ran a = [i]
  exec : altexec (entered s t a xs) ⟨a, i⟩ r2 = .ok (c, w)
  executed : Executed (entered s t a xs) ⟨a, i⟩ c w

theorem Chose.idle {r2 i : Nat} {c : St} {w : Option TaskPtr} (h : Chose s t a xs r2 i c w) (hw : s.wait t = none) :
    (wake c w).wait t = none := by
  have hwait : (wake c w).wait = c.wait := by cases w <;> rfl
  rw [hwait]
  cases h.executed with
  | alone _ hm =>
    rw [hm.frame.wait]
    exact hw
  | @matched u other s₁ f _ _ _ hm _ _ =>
    show s₁.wait t = none
    rw [hm.frame.wait]
    exact hw

theorem call_picked (hi : Inv s) (hc : Callable s t a xs) {r1 i : Nat} (hcan : Executable s xs i)
    (hp : pick (altcanexec s) (r1 % ncan s xs) (xs.take (altlen xs)) = some i) (r2 : Nat) :
    ∃ c w, call s t a xs r1 r2 = .ok (wake c w, w, some (i : Int)) ∧ Chose s t a xs r2 i c w := by
  have hne : ncan s xs ≠ 0 := fun h0 => ncan_eq_zero.mp h0 i hcan
  obtain ⟨hlt, x, hx, hexec⟩ := hcan
  obtain ⟨y, hy, hd⟩ := entered_own (s := s) (t := t) (a := a) hlt
  obtain rfl : x = y := Option.some.inj (hx.symm.trans hy)
  have hend : isEnd x = false := by
    obtain ⟨z, hz, he⟩ := before_end hlt
    rwa [Option.some.inj (hx.symm.trans hz)]
  obtain ⟨c, w, h1, h2⟩ := altexec_spec (inv_entered hi xs hc.free) (e := ⟨a, i⟩) r2
    (by rw [hd]; exact altcanexec_op hend hexec) (by rw [hd]; exact hexec)
  refine ⟨c, w, ?_, ⟨hlt, x, hx, hexec⟩, h2.ran_own (s := entered s t a xs) hc.free (entered_ran s t a xs), h1, h2⟩
  simp only [call, chanalt_eq, if_pos hne, hp, Option.elim_some, h1, bind, Except.bind]

theorem call_chooses (hi : Inv s) (hc : Callable s t a xs) (hex : ∃ i, Executable s xs i) (r1 r2 : Nat) :
    ∃ (i : Nat) (c : St) (w : Option TaskPtr), call s t a xs r1 r2 = .ok (wake c w, w, some (i : Int)) ∧ Chose s t a xs r2 i c w := by
  obtain ⟨k, hk⟩ := hex
  have hne : ncan s xs ≠ 0 := fun h0 => ncan_eq_zero.mp h0 k hk
  obtain ⟨i, x, h1, h2, h3⟩ := pick_some (Nat.mod_lt r1 (Nat.pos_of_ne_zero hne))
  obtain ⟨c, w, h4, h5⟩ := call_picked hi hc (executable_take.mpr ⟨x, h2, h3⟩) h1 r2
  exact ⟨i, c, w, h4, h5⟩

/-- Whatever can run is run, for some `rand`. -/
theorem call_can_choose (hi : Inv s) (hc : Callable s t a xs) {i : Nat} (hcan : Executable s xs i) (r2 : Nat) :
    ∃ r1 < ncan s xs, ∃ c w, call s t a xs r1 r2 = .ok (wake c w, w, some (i : Int)) ∧ Chose s t a xs r2 i c w := by
  obtain ⟨x, hx, hexec⟩ := executable_take.mp hcan
  have hlt : ((xs.take (altlen xs)).take i).countP (altcanexec s) < ncan s xs := countP_nth_lt hexec hx
  refine ⟨_, hlt, call_picked hi hc hcan ?_ r2⟩
  rw [Nat.mod_eq_of_lt hlt]
  exact pick_nth hexec hx

/-! ## Nothing can run -/

theorem end_deref (h : altlen xs < xs.length) : ∃ x, xs[altlen xs]? = some x ∧
    (enter s t a xs).deref ⟨a, altlen xs⟩ = x := by
  refine ⟨xs[altlen xs], List.getElem?_eq_getElem h, deref_of_getElem? ?_⟩
  simp [enter, List.getElem?_eq_getElem h]

theorem call_refuses (hc : Callable s t a xs) (hex : ∀ i, ¬ Executable s xs i) {x : Alt} (hx : xs[altlen xs]? = some x)
    (hop : x.op = .CHANNOBLK) (r1 r2 : Nat) : call s t a xs r1 r2 = .ok (entered s t a xs, none, some (-1)) := by
  obtain ⟨y, hy, hd⟩ := end_deref (s := s) (t := t) (a := a) hc.ends
  obtain rfl : x = y := Option.some.inj (hx.symm.trans hy)
  have h0 := ncan_eq_zero.mpr hex
  simp [call, chanalt_eq, h0, hd, hop, bind, Except.bind, wake]

theorem listed_congr (a c : Nat) (op : AltOp) : ∀ {xs ys : List Alt} (k : Nat),
    xs.map (fun x => (x.op, x.c)) = ys.map (fun x => (x.op, x.c)) → listed a c op k xs = listed a c op k ys := by
  intro xs
  induction xs with
  | nil =>
    intro ys k h
    cases ys with
    | nil => rfl
    | cons y ys => simp at h
  | cons x xs ih =>
    intro ys k h
    cases ys with
    | nil => simp at h
    | cons y ys =>
      simp only [List.map_cons, List.cons.injEq, Prod.mk.injEq] at h
      obtain ⟨⟨h1, h2⟩, h3⟩ := h
      simp only [listed, isEnd, h1, h2, ih (k + 1) h3]
      rfl

theorem listed_own (c : Nat) (op : AltOp) (k : Nat) : listed a c op k (own t a xs) = listed a c op k xs := by
  apply listed_congr
  rw [own, List.map_append, List.map_map]
  show (xs.take (altlen xs)).map (fun x => (x.op, x.c)) ++ _ = _
  rw [← List.map_append, List.take_append_drop]

/-- `t` goes to sleep, with the alternatives `xs` of `a` on their channels. -/
structure Queues (s : St) (t : TaskPtr) (a : Nat) (xs : List Alt) (s' : St) : Prop where
  ring : ∀ c, ∃ as ar, s'.chan c = { s.chan c with asend := as, arecv := ar }
  queue : ∀ c op, queue (s'.chan c) op = queue (s.chan c) op ++ listed a c op 0 xs
  once : ∀ i x, i < altlen xs → xs[i]? = some x → x.op ≠ .CHANNOP →
    (Chan.queue (s'.chan x.c) x.op).count ⟨a, i⟩ = 1 ∧
      ∀ c op, ⟨a, i⟩ ∈ listed a c op 0 xs → c = x.c ∧ op = x.op
  only : ∀ c op p, p ∈ listed a c op 0 xs → p.arr = a ∧ p.i < altlen xs ∧ ∀ x, xs[p.i]? = some x → x.op ≠ .CHANNOP
  alt : s'.alt = update s.alt a (own t a xs)
  mem : s'.mem = s.mem
  wait : s'.wait = update s.wait t (some a)
  woken : s'.woken = update s.woken t 0
  sent : s'.sent = s.sent ∧ s'.rcvd = s.rcvd ∧ ∀ b, b ≠ a → s'.ran b = s.ran b

/-- What goes on which channel's arrays, by index. -/
theorem mem_listed_own (hc : Callable s t a xs) {c : Nat} {op : AltOp} {p : AltPtr} : p ∈ listed a c op 0 xs ↔
    p.arr = a ∧ p.i < altlen xs ∧ ∃ x, xs[p.i]? = some x ∧ x.op ≠ .CHANNOP ∧ c = x.c ∧ op = x.op := by
  have hlen : altlen ((entered s t a xs).alt a) = altlen xs := by rw [entered_alt, own_altlen t a hc.ends]
  rw [← listed_own (t := t), mem_listed (s := entered s t a xs) _ 0 (by simp)
    (by rw [hlen, entered_alt, own_length]; exact hc.ends) (Nat.zero_le _), hlen]
  refine and_congr_right fun ha => ?_
  refine (and_iff_right (Nat.zero_le _)).trans (and_congr_right fun hlt => ?_)
  obtain ⟨x, hx, hd⟩ := entered_own (s := s) (t := t) (a := a) hlt
  have hd' : (entered s t a xs).deref p = { x with task := some t, xalt := some ⟨a, 0⟩ } := by
    rw [← hd, ← ha]
  simp only [hd', hx, Option.some.injEq, exists_eq_left']

theorem call_queues (hi : Inv s) (hc : Callable s t a xs) (hex : ∀ i, ¬ Executable s xs i) {x : Alt}
    (hx : xs[altlen xs]? = some x) (hop : x.op = .CHANEND) (r1 r2 : Nat) :
    ∃ s', call s t a xs r1 r2 = .ok (s', none, none) ∧ Queues s t a xs s' := by
  obtain ⟨y, hy, hd⟩ := end_deref (s := s) (t := t) (a := a) hc.ends
  obtain rfl : x = y := Option.some.inj (hx.symm.trans hy)
  have h0 := ncan_eq_zero.mpr hex
  obtain ⟨s', w, ret, ho, hcall⟩ := call_outcome hi hc r1 r2
  have hwhere : w = none ∧ ret = none := by
    rw [call, chanalt_eq] at hcall
    simp only [h0, ne_eq, not_true, if_false, Option.elim_none, hd, hop, bind, Except.bind] at hcall
    cases hq : eachAlt altqueue (entered s t a xs) ⟨a, 0⟩ (own t a xs) with
    | error why => rw [hq] at hcall; cases hcall
    | ok s₁ =>
      rw [hq] at hcall
      obtain ⟨-, hw⟩ := Prod.mk.inj (Except.ok.inj hcall)
      exact ⟨(Prod.mk.inj hw).1.symm, (Prod.mk.inj hw).2.symm⟩
  obtain ⟨rfl, rfl⟩ := hwhere
  refine ⟨_, hcall, ?_⟩
  cases ho with
  | @queued f hst hnd hq =>
    have hq' : ∀ c op, queue ((requeue (entered s t a xs) f).chan c) op = queue (s.chan c) op ++ listed a c op 0 xs :=
      fun c op => by rw [hq, listed_own]
    refine ⟨fun c => ⟨_, _, rfl⟩, hq', fun i x hlt hxi hnop => ⟨?_, fun c op hm => ?_⟩, fun c op p hm => ?_,
      rfl, rfl, rfl, rfl, rfl, rfl, fun b hb => ?_⟩
    · refine List.count_eq_one_of_mem (hnd x.c x.op) ?_
      show _ ∈ queue ((requeue (entered s t a xs) f).chan x.c) x.op
      rw [hq']
      exact List.mem_append_right _ ((mem_listed_own hc).mpr ⟨rfl, hlt, x, hxi, hnop, rfl, rfl⟩)
    · obtain ⟨-, -, y, hyi, -, h1, h2⟩ := (mem_listed_own hc).mp hm
      obtain rfl : x = y := Option.some.inj (hxi.symm.trans hyi)
      exact ⟨h1, h2⟩
    · obtain ⟨h1, h2, y, hyi, hnop, -, -⟩ := (mem_listed_own hc).mp hm
      refine ⟨h1, h2, fun x hxi => ?_⟩
      rw [Option.some.inj (hxi.symm.trans hyi)]
      exact hnop
    · show update s.ran a [] b = s.ran b
      rw [Function.update_of_ne hb]

/-! ## What was sent -/

/-- `s'.sent` is `s.sent` and `x`, on `c`. -/
def SentOn (s s' : St) (c : Nat) (x : Sent) : Prop := ∀ c', s'.sent c' = s.sent c' ++ if c' = c then [x] else []

/-- What was sent in a call that returns `ret` and readies `w`. A task that was chosen will return the index of its send. -/
inductive Sends (s : St) (t : TaskPtr) (xs : List Alt) (s' : St) : Option TaskPtr → Option Int → Prop
  | own {i : Nat} {x : Alt} {w : Option TaskPtr} : xs[i]? = some x → x.op = .CHANSND →
      SentOn s s' x.c ⟨t, s.calls t + 1, value s x.c x.v⟩ → Sends s t xs s' w (some i)
  | other {i : Nat} {x : Alt} {u : TaskPtr} {p : AltPtr} : xs[i]? = some x → x.op = .CHANRCV → s.wait u = some p.arr → s.woken u = 0 →
      chanaltResult s' p.arr = some p.i → SentOn s s' x.c (s.offer p) → Sends s t xs s' (some u) (some i)
  | ring {i : Nat} {x : Alt} : xs[i]? = some x → x.op = .CHANRCV → s'.sent = s.sent → Sends s t xs s' none (some i)
  | waits : s'.sent = s.sent → Sends s t xs s' none none
  | refused : s'.sent = s.sent → Sends s t xs s' none (some (-1))

theorem Chose.sends (hi : Inv s) (hc : Callable s t a xs) {r2 i : Nat} {c : St} {w : Option TaskPtr} (h : Chose s t a xs r2 i c w) :
    Sends s t xs (wake c w) w (some i) := by
  obtain ⟨hlt, x, hx, hcan⟩ := h.could
  obtain ⟨y, hy, hd⟩ := entered_own (s := s) (t := t) (a := a) hlt
  obtain rfl : x = y := Option.some.inj (hx.symm.trans hy)
  have hend : isEnd x = false := by
    obtain ⟨z, hz, he⟩ := before_end hlt
    rwa [Option.some.inj (hx.symm.trans hz)]
  have hoffer : (entered s t a xs).offer ⟨a, i⟩ = ⟨t, s.calls t + 1, value s x.c x.v⟩ := by
    simp [entered, enter, hx, value]
  have hsides : ∀ o, sides (entered s t a xs) ⟨a, i⟩ o = if x.op = .CHANRCV then (o, some ⟨a, i⟩) else (some ⟨a, i⟩, o) := by
    intro o
    rw [sides, hd]
  -- what the movement on `x.c` sent
  have hmoved : ∀ {o s₁}, Moved (entered s t a xs) ((entered s t a xs).deref ⟨a, i⟩).c (sides (entered s t a xs) ⟨a, i⟩ o) s₁ →
      ∀ c', s₁.sent c' = s.sent c' ++ if c' = x.c then
        (((sides (entered s t a xs) ⟨a, i⟩ o).1).map (entered s t a xs).offer).toList else [] := by
    intro o s₁ hm c'
    have hsent := hm.sent c'
    rw [hd] at hsent
    exact hsent
  rcases altcanexec_op hend hcan with hop | hop
  · have hnot : x.op ≠ .CHANRCV := by rw [hop]; decide
    have hown : ∀ o, (sides (entered s t a xs) ⟨a, i⟩ o).1 = some ⟨a, i⟩ := fun o => by rw [hsides, if_neg hnot]
    refine .own hx hop fun c' => ?_
    cases h.executed with
    | alone _ hm =>
      show c.sent c' = _
      rw [hmoved hm, hown, Option.map_some, hoffer]
      rfl
    | @matched u other s₁ f _ _ _ hm _ _ =>
      show s₁.sent c' = _
      rw [hmoved hm, hown, Option.map_some, hoffer]
      rfl
  · have hother : ∀ o, (sides (entered s t a xs) ⟨a, i⟩ o).1 = o := fun o => by rw [hsides, if_pos hop]
    cases h.executed with
    | alone _ hm =>
      refine .ring hx hop (funext fun c' => ?_)
      show c.sent c' = _
      rw [hmoved hm, hother, Option.map_none, Option.toList_none, ite_self, List.append_nil]
    | @matched u other s₁ f _ hu h0 hm _ _ =>
      have hu : s.wait u = some other.arr := hu
      have hne : other.arr ≠ a := fun he => hc.free u (he ▸ hu)
      have hsame : (entered s t a xs).offer other = s.offer other := by simp [entered, enter, hne]
      refine .other hx hop hu h0 ?_ fun c' => ?_
      · have hpos : 0 < ((requeue s₁ f).alt other.arr).length := by
          have halt : (requeue s₁ f).alt other.arr = s.alt other.arr := by
            rw [requeue_alt, hm.frame.alt]
            exact Function.update_of_ne hne _ _
          have hlen := hi.len u _ hu
          rw [halt]
          omega
        have hxalt := setXalt_xalt (s := requeue s₁ f) (p := ⟨other.arr, 0⟩) other hpos
        show chanaltResult (setXalt (requeue s₁ f) ⟨other.arr, 0⟩ other) other.arr = some other.i
        simp only [chanaltResult, hxalt, if_true]
      · show s₁.sent c' = _
        rw [hmoved hm, hother, Option.map_some, hsame]
        rfl

theorem call_sends (hi : Inv s) (hc : Callable s t a xs) (r1 r2 : Nat) {s' : St} {w : Option TaskPtr} {ret : Option Int}
    (h : call s t a xs r1 r2 = .ok (s', w, ret)) : Sends s t xs s' w ret := by
  by_cases hex : ∃ i, Executable s xs i
  · obtain ⟨i, c, w', hcall, hchose⟩ := call_chooses hi hc hex r1 r2
    obtain ⟨rfl, hrest⟩ := Prod.mk.inj (Except.ok.inj (h.symm.trans hcall))
    obtain ⟨rfl, rfl⟩ := Prod.mk.inj hrest
    exact hchose.sends hi hc
  · have hno : ∀ i, ¬ Executable s xs i := fun i hi => hex ⟨i, hi⟩
    obtain ⟨x, hx, hend⟩ := end_at hc.ends
    rcases Bool.or_eq_true_iff.mp hend with hop | hop
    · obtain ⟨c, hcall, hq⟩ := call_queues hi hc hno hx (of_decide_eq_true hop) r1 r2
      obtain ⟨rfl, hrest⟩ := Prod.mk.inj (Except.ok.inj (h.symm.trans hcall))
      obtain ⟨rfl, rfl⟩ := Prod.mk.inj hrest
      exact .waits hq.sent.1
    · obtain ⟨rfl, hrest⟩ := Prod.mk.inj (Except.ok.inj (h.symm.trans (call_refuses hc hno hx (of_decide_eq_true hop) r1 r2)))
      obtain ⟨rfl, rfl⟩ := Prod.mk.inj hrest
      exact .refused rfl

end

end Libtask.Chan
