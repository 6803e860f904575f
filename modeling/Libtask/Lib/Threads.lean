/-
  Libtask.Lib.Threads — threads that share a store, each working on what it opened.

  A thread is in a call of a function that makes requests (`Calls.Fn`). A `Kernel` answers a request on
  the store of all; it does as much on a part of it that has what the request is about. So a function
  that is right on a store of its own (`Right`) is right among all the others, who open and close what
  they like: what it opened nobody else has, and it asks about nothing else (`Run.inv`).
-/

import Mathlib.Logic.Function.Basic
import Libtask.Lib.Calls

namespace Libtask.Lib.Threads

open Function (update)
open Libtask.Lib.Calls

section
variable {R V : Type}

/-- The cells of `K` in `own`. -/
def part (K : R → Option V) (own : R → Bool) : R → Option V := fun r => if own r then K r else none

/-- Those that are left of `own` when `K'` comes after `K`, and those that were opened. -/
def after (own : R → Bool) (K K' : R → Option V) : R → Bool := fun r => (K' r).isSome && (own r || (K r).isNone)

variable {K K' : R → Option V} {own : R → Bool} {r : R}

theorem part_own (h : own r = true) : part K own r = K r := if_pos h

theorem part_ne_none : part K own r ≠ none ↔ own r = true ∧ K r ≠ none := by
  unfold part
  split
  · rename_i h
    exact ⟨fun hr => ⟨h, hr⟩, And.right⟩
  · rename_i h
    exact ⟨fun hr => absurd rfl hr, fun hr => absurd hr.1 h⟩

theorem part_congr (h : ∀ r, own r = true → K' r = K r) : part K' own = part K own := by
  funext r
  unfold part
  split
  · rename_i hr
    exact h r hr
  · rfl

theorem after_iff : after own K K' r = true ↔ K' r ≠ none ∧ (own r = true ∨ K r = none) := by
  rw [after, Bool.and_eq_true, Bool.or_eq_true, Option.isSome_iff_ne_none, Option.isNone_iff_eq_none]

theorem part_after_own (h : own r = true) : part K' (after own K K') r = K' r := by
  cases hr : K' r with
  | none =>
    unfold part
    split
    · exact hr
    · rfl
  | some v => rw [part_own (after_iff.mpr ⟨by rw [hr]; nofun, .inl h⟩), hr]

theorem part_after_opened (h : K r = none) : part K' (after own K K') r = K' r := by
  cases hr : K' r with
  | none =>
    unfold part
    split
    · exact hr
    · rfl
  | some v => rw [part_own (after_iff.mpr ⟨by rw [hr]; nofun, .inr h⟩), hr]

theorem part_after_same (h : K' r = K r) : part K' (after own K K') r = part K own r := by
  by_cases hown : own r = true
  · rw [part_after_own hown, part_own hown, h]
  · have hpart : part K own r = none := if_neg hown
    rw [hpart]
    by_cases hr : K r = none
    · rw [part_after_opened hr, h, hr]
    · exact if_neg fun ha => (after_iff.mp ha).2.elim hown hr

end

/-! ## Kernels -/

structure Kernel (Op : Type) (Ans : Op → Type) (R V : Type) where
  kern : (o : Op) → (R → Option V) → Ans o → (R → Option V) → Prop
  /-- The cells that the request needs. -/
  about : Op → R → Prop
  keeps {o : Op} {K : R → Option V} {a : Ans o} {K' : R → Option V} {r : R} :
    kern o K a K' → ¬ about o r → K r ≠ none → K' r = K r
  part {o : Op} {K : R → Option V} {a : Ans o} {K' : R → Option V} {own : R → Bool} :
    kern o K a K' → (∀ r, about o r → own r = true) → kern o (part K own) a (part K' (after own K K'))

section
variable {Op : Type} {Ans : Op → Type} {R V α β : Type} (k : Kernel Op Ans R V)

/-- Each request is made where `A` holds of it, about cells that are there, and `Q` holds in the end. -/
def Safe (A : Op → (R → Option V) → Prop) (Q : α → (R → Option V) → Prop) : Code Op Ans α → (R → Option V) → Prop
  | .pure a, K => Q a K
  | .call o c, K => A o K ∧ (∀ r, k.about o r → K r ≠ none) ∧ ∀ a K', k.kern o K a K' → Safe A Q (c a) K'

variable {k} {A : Op → (R → Option V) → Prop} {Q : α → (R → Option V) → Prop} {K : R → Option V}

theorem safe_bind (m : Code Op Ans α) (f : α → Code Op Ans β) {Q : β → (R → Option V) → Prop} : ∀ {K : R → Option V},
    Safe k A Q (m >>= f) K ↔ Safe k A (fun a K' => Safe k A Q (f a) K') m K := by
  show ∀ {K : R → Option V}, Safe k A Q (Code.bind m f) K ↔ _
  induction m with
  | pure a => exact Iff.rfl
  | call o c ih =>
    exact and_congr Iff.rfl (and_congr Iff.rfl (forall_congr' fun a => forall_congr' fun K' => imp_congr Iff.rfl (ih a)))

theorem Safe.mono {Q' : α → (R → Option V) → Prop} (hQ : ∀ a K, Q a K → Q' a K) :
    ∀ {m : Code Op Ans α} {K : R → Option V}, Safe k A Q m K → Safe k A Q' m K := by
  intro m
  induction m with
  | pure a => exact fun h => hQ a _ h
  | call o c ih => exact fun h => ⟨h.1, h.2.1, fun a K' hk => ih a (h.2.2 a K' hk)⟩

end

/-! ## Threads -/

section
variable {Op : Type} {Ans : Op → Type} {R V F : Type} {Vars Ret : F → Type}

/-- `I` is the invariant of the loop, and `Q` holds where the function returns. -/
structure Right (k : Kernel Op Ans R V) (A : Op → (R → Option V) → Prop) {V' R' : Type} (f : Fn Op Ans V' R')
    (I : V' → (R → Option V) → Prop) (Q : R' → (R → Option V) → Prop) : Prop where
  enter : Safe k A (Sum.elim I Q) f.enter fun _ => none
  turn : ∀ v K, I v K → Safe k A (Sum.elim I Q) (f.turn v) K

variable (k : Kernel Op Ans R V) (fn : (q : F) → Fn Op Ans (Vars q) (Ret q))

/-- In a call of `fn q`, having opened `own`. -/
structure Thread (Op : Type) (Ans : Op → Type) (R : Type) (Vars Ret : F → Type) where
  q : F
  code : Code Op Ans (Vars q ⊕ Ret q)
  own : R → Bool

def Thread.next (t : Thread Op Ans R Vars Ret) : Code Op Ans (Vars t.q ⊕ Ret t.q) := (fn t.q).next t.code

structure Sys (Op : Type) (Ans : Op → Type) (R V : Type) (Vars Ret : F → Type) (N : Type) where
  store : R → Option V
  thread : N → Option (Thread Op Ans R Vars Ret)

variable {N : Type}

structure Inv (A : F → Op → (R → Option V) → Prop) (I : (q : F) → Vars q → (R → Option V) → Prop)
    (Q : (q : F) → Ret q → (R → Option V) → Prop) (x : Sys Op Ans R V Vars Ret N) : Prop where
  there : ∀ i t r, x.thread i = some t → t.own r = true → x.store r ≠ none
  apart : ∀ i j t u r, x.thread i = some t → x.thread j = some u → t.own r = true → u.own r = true → i = j
  safe : ∀ i t, x.thread i = some t → Safe k (A t.q) (Sum.elim (I t.q) (Q t.q)) t.code (part x.store t.own)

variable {k fn} {A : F → Op → (R → Option V) → Prop} {I : (q : F) → Vars q → (R → Option V) → Prop}
  {Q : (q : F) → Ret q → (R → Option V) → Prop}
  {x x' : Sys Op Ans R V Vars Ret N} {i : N} {t : Thread Op Ans R Vars Ret}

theorem next_safe {V' R' : Type} {f : Fn Op Ans V' R'} {A : Op → (R → Option V) → Prop} {I : V' → (R → Option V) → Prop}
    {Q : R' → (R → Option V) → Prop} (hf : Right k A f I Q) {c : Code Op Ans (V' ⊕ R')} {K : R → Option V}
    (h : Safe k A (Sum.elim I Q) c K) : Safe k A (Sum.elim I Q) (f.next c) K := by
  cases c with
  | pure y =>
    cases y with
    | inl v => exact hf.turn v K h
    | inr r => exact h
  | call o c => exact h

theorem Inv.next (h : Inv k A I Q x) (hf : ∀ q, Right k (A q) (fn q) (I q) (Q q)) (hi : x.thread i = some t) :
    Safe k (A t.q) (Sum.elim (I t.q) (Q t.q)) (t.next fn) (part x.store t.own) :=
  next_safe (hf t.q) (h.safe i t hi)

theorem Inv.asks (h : Inv k A I Q x) (hf : ∀ q, Right k (A q) (fn q) (I q) (Q q)) (hi : x.thread i = some t) {o : Op}
    {c : Ans o → Code Op Ans (Vars t.q ⊕ Ret t.q)} (hn : t.next fn = .call o c) : A t.q o (part x.store t.own) := by
  have hs := h.next hf hi
  rw [hn] at hs
  exact hs.1

theorem Inv.own_iff (h : Inv k A I Q x) (hi : x.thread i = some t) (r : R) : t.own r = true ↔ part x.store t.own r ≠ none :=
  ⟨fun ho => part_ne_none.mpr ⟨ho, h.there i t r hi ho⟩, fun hp => (part_ne_none.mp hp).1⟩

/-- What its next request is about it has. -/
theorem Inv.owns (h : Inv k A I Q x) (hf : ∀ q, Right k (A q) (fn q) (I q) (Q q)) (hi : x.thread i = some t) {o : Op}
    {c : Ans o → Code Op Ans (Vars t.q ⊕ Ret t.q)} (hn : t.next fn = .call o c) {r : R} (hr : k.about o r) : t.own r = true := by
  have hs := h.next hf hi
  rw [hn] at hs
  exact (part_ne_none.mp (hs.2.1 r hr)).1

theorem Inv.returns (h : Inv k A I Q x) (hf : ∀ q, Right k (A q) (fn q) (I q) (Q q)) (hi : x.thread i = some t) {r : Ret t.q}
    (hn : t.next fn = .pure (.inr r)) : Q t.q r (part x.store t.own) := by
  have hs := h.next hf hi
  rwa [hn] at hs

theorem start_inv (K : R → Option V) : Inv k A I Q (⟨K, fun _ => none⟩ : Sys Op Ans R V Vars Ret N) := ⟨nofun, nofun, nofun⟩

/-! ## Runs -/

variable [DecidableEq N] (k fn)

inductive Step : Sys Op Ans R V Vars Ret N → Sys Op Ans R V Vars Ret N → Prop
  | enter {x : Sys Op Ans R V Vars Ret N} {i : N} (q : F) (hi : x.thread i = none) :
      Step x { x with thread := update x.thread i (some ⟨q, (fn q).enter, fun _ => false⟩) }
  | call {x : Sys Op Ans R V Vars Ret N} {i : N} {t : Thread Op Ans R Vars Ret} {o : Op} {c : Ans o → Code Op Ans (Vars t.q ⊕ Ret t.q)}
      {a : Ans o} {K : R → Option V} (hi : x.thread i = some t) (hn : t.next fn = .call o c) (hk : k.kern o x.store a K) :
      Step x { store := K, thread := update x.thread i (some ⟨t.q, c a, after t.own x.store K⟩) }
  | ret {x : Sys Op Ans R V Vars Ret N} {i : N} {t : Thread Op Ans R Vars Ret} {r : Ret t.q} (hi : x.thread i = some t)
      (hn : t.next fn = .pure (.inr r)) : Step x { x with thread := update x.thread i none }
  /-- Code outside the calls opens, closes and changes what no call has opened. -/
  | other {x : Sys Op Ans R V Vars Ret N} {K : R → Option V}
      (hk : ∀ i t r, x.thread i = some t → t.own r = true → K r = x.store r) : Step x { x with store := K }

/-- Runs in which at first nobody is in a call. -/
inductive Run : Sys Op Ans R V Vars Ret N → Prop
  | start (K : R → Option V) : Run ⟨K, fun _ => none⟩
  | step {x x' : Sys Op Ans R V Vars Ret N} : Run x → Step k fn x x' → Run x'

variable {k fn}

theorem enter_inv (h : Inv k A I Q x) (hf : ∀ q, Right k (A q) (fn q) (I q) (Q q)) (q : F) :
    Inv k A I Q { x with thread := update x.thread i (some ⟨q, (fn q).enter, fun _ => false⟩) } := by
  have hthread : ∀ j u, update x.thread i (some ⟨q, (fn q).enter, fun _ => false⟩) j = some u →
      x.thread j = some u ∨ u = ⟨q, (fn q).enter, fun _ => false⟩ := by
    intro j u hj
    by_cases hji : j = i
    · rw [hji, Function.update_self] at hj
      exact .inr (Option.some.inj hj).symm
    · rw [Function.update_of_ne hji] at hj
      exact .inl hj
  refine ⟨fun j u r hj hr => ?_, fun j j' u u' r hj hj' hr hr' => ?_, fun j u hj => ?_⟩
  · rcases hthread j u hj with hj | rfl
    · exact h.there j u r hj hr
    · cases hr
  · rcases hthread j u hj with hj | rfl
    · rcases hthread j' u' hj' with hj' | rfl
      · exact h.apart j j' u u' r hj hj' hr hr'
      · cases hr'
    · cases hr
  · rcases hthread j u hj with hj | rfl
    · exact h.safe j u hj
    · exact (hf q).enter

theorem call_inv (h : Inv k A I Q x) (hf : ∀ q, Right k (A q) (fn q) (I q) (Q q)) (hi : x.thread i = some t) {o : Op}
    {c : Ans o → Code Op Ans (Vars t.q ⊕ Ret t.q)} {a : Ans o} {K : R → Option V} (hn : t.next fn = .call o c)
    (hk : k.kern o x.store a K) :
    Inv k A I Q { store := K, thread := update x.thread i (some ⟨t.q, c a, after t.own x.store K⟩) } := by
  have habout : ∀ r, k.about o r → t.own r = true := fun r hr => h.owns hf hi hn hr
  have hthread : ∀ j u, update x.thread i (some ⟨t.q, c a, after t.own x.store K⟩) j = some u →
      j ≠ i ∧ x.thread j = some u ∨ j = i ∧ u = ⟨t.q, c a, after t.own x.store K⟩ := by
    intro j u hj
    by_cases hji : j = i
    · rw [hji, Function.update_self] at hj
      exact .inr ⟨hji, (Option.some.inj hj).symm⟩
    · rw [Function.update_of_ne hji] at hj
      exact .inl ⟨hji, hj⟩
  -- the request is not about what another has
  have hkeep : ∀ j u r, j ≠ i → x.thread j = some u → u.own r = true → K r = x.store r := fun j u r hji hj hr =>
    k.keeps hk (fun hb => hji (h.apart j i u t r hj hi hr (habout r hb))) (h.there j u r hj hr)
  -- and did not open it
  have hopened : ∀ j u r, j ≠ i → x.thread j = some u → u.own r = true → after t.own x.store K r = true → False := by
    intro j u r hji hj hr hafter
    rcases (after_iff.mp hafter).2 with hown | hfree
    · exact hji (h.apart j i u t r hj hi hr hown)
    · exact h.there j u r hj hr hfree
  refine ⟨fun j u r hj hr => ?_, fun j j' u u' r hj hj' hr hr' => ?_, fun j u hj => ?_⟩
  · show K r ≠ none
    rcases hthread j u hj with ⟨hji, hj⟩ | ⟨-, rfl⟩
    · rw [hkeep j u r hji hj hr]
      exact h.there j u r hj hr
    · exact (after_iff.mp hr).1
  · rcases hthread j u hj with ⟨hji, hu⟩ | ⟨hji, rfl⟩
    · rcases hthread j' u' hj' with ⟨-, hu'⟩ | ⟨-, rfl⟩
      · exact h.apart j j' u u' r hu hu' hr hr'
      · exact (hopened j u r hji hu hr hr').elim
    · rcases hthread j' u' hj' with ⟨hji', hu'⟩ | ⟨hji', rfl⟩
      · exact (hopened j' u' r hji' hu' hr' hr).elim
      · exact hji.trans hji'.symm
  · rcases hthread j u hj with ⟨hji, hj⟩ | ⟨rfl, rfl⟩
    · show Safe k (A u.q) _ u.code (part K u.own)
      rw [part_congr fun r hr => hkeep j u r hji hj hr]
      exact h.safe j u hj
    · have hs := h.next hf hi
      rw [hn] at hs
      exact hs.2.2 a _ (k.part hk habout)

theorem ret_inv (h : Inv k A I Q x) : Inv k A I Q { x with thread := update x.thread i none } := by
  have hthread : ∀ j u, update x.thread i none j = some u → x.thread j = some u := by
    intro j u hj
    by_cases hji : j = i
    · rw [hji, Function.update_self] at hj
      cases hj
    · rwa [Function.update_of_ne hji] at hj
  exact ⟨fun j u r hj hr => h.there j u r (hthread j u hj) hr,
    fun j j' u u' r hj hj' hr hr' => h.apart j j' u u' r (hthread j u hj) (hthread j' u' hj') hr hr',
    fun j u hj => h.safe j u (hthread j u hj)⟩

omit [DecidableEq N] in
theorem other_inv (h : Inv k A I Q x) {K : R → Option V} (hk : ∀ i t r, x.thread i = some t → t.own r = true → K r = x.store r) :
    Inv k A I Q { x with store := K } := by
  refine ⟨fun j u r hj hr => ?_, h.apart, fun j u hj => ?_⟩
  · show K r ≠ none
    rw [hk j u r hj hr]
    exact h.there j u r hj hr
  · show Safe k (A u.q) _ u.code (part K u.own)
    rw [part_congr fun r hr => hk j u r hj hr]
    exact h.safe j u hj

theorem step_inv (h : Inv k A I Q x) (hf : ∀ q, Right k (A q) (fn q) (I q) (Q q)) (hstep : Step k fn x x') : Inv k A I Q x' := by
  cases hstep with
  | enter q hi => exact enter_inv h hf q
  | call hi hn hk => exact call_inv h hf hi hn hk
  | ret hi hn => exact ret_inv h
  | other hk => exact other_inv h hk

theorem Run.inv (hf : ∀ q, Right k (A q) (fn q) (I q) (Q q)) (h : Run k fn x) : Inv k A I Q x := by
  induction h with
  | start K => exact start_inv K
  | step _ hstep ih => exact step_inv ih hf hstep

end

end Libtask.Lib.Threads
