/-
  Libtask.Lib.Calls — code that makes requests and goes on by their answers.

  `Code Op Ans α` makes requests `Op`; the answers to request `o` are in `Ans o`. A `Fn` is a
  function with one loop: the code up to it, and a turn of it by its variables.

  The environment `w o s a s'` answers request `o`, made in `s`, with `a`, and is in `s'` then.
  `Path w f s₀ c s`: `f`, called in `s₀`, has `c` left to do in `s`. `Path.holds` is the rule for
  the loop: `I` is its invariant, and `Q` holds where it returns.
-/

import Mathlib.Data.Sum.Basic

namespace Libtask.Lib.Calls

inductive Code (Op : Type) (Ans : Op → Type) (α : Type) where
  | pure (a : α)
  | call (o : Op) (k : Ans o → Code Op Ans α)

/-- The code up to the loop, and one turn of it. Both end with the variables for the next turn, or
    with what the function returns. -/
structure Fn (Op : Type) (Ans : Op → Type) (V R : Type) where
  enter : Code Op Ans (V ⊕ R)
  turn : V → Code Op Ans (V ⊕ R)

section
variable {Op : Type} {Ans : Op → Type} {α β V R S : Type}

def Code.bind (m : Code Op Ans α) (f : α → Code Op Ans β) : Code Op Ans β :=
  match m with
  | .pure a => f a
  | .call o k => .call o fun a => (k a).bind f

instance : Monad (Code Op Ans) where
  pure := .pure
  bind := Code.bind

theorem Code.bind_assoc {γ : Type} (m : Code Op Ans α) (f : α → Code Op Ans β) (g : β → Code Op Ans γ) :
    (m.bind f).bind g = m.bind fun a => (f a).bind g := by
  induction m with
  | pure a => rfl
  | call o k ih => exact congrArg (Code.call o) (funext ih)

def ask (o : Op) : Code Op Ans (Ans o) := .call o .pure

/-- What it asks next. -/
def Code.request : Code Op Ans α → Option Op
  | .call o _ => some o
  | .pure _ => none

/-- What it returns. -/
def Code.value : Code Op Ans (V ⊕ R) → Option R
  | .pure (.inr r) => some r
  | _ => none

theorem Code.of_value {c : Code Op Ans (V ⊕ R)} {r : R} (h : c.value = some r) : c = .pure (.inr r) := by
  cases c with
  | call o k => cases h
  | pure x =>
    cases x with
    | inl v => cases h
    | inr r' =>
      obtain rfl : r' = r := Option.some.inj h
      rfl

/-- At the end of a turn the next one begins. -/
def Fn.next (f : Fn Op Ans V R) : Code Op Ans (V ⊕ R) → Code Op Ans (V ⊕ R)
  | .pure (.inl v) => f.turn v
  | c => c

inductive Path (w : (o : Op) → S → Ans o → S → Prop) (f : Fn Op Ans V R) (s₀ : S) : Code Op Ans (V ⊕ R) → S → Prop
  | enter : Path w f s₀ f.enter s₀
  | call {c : Code Op Ans (V ⊕ R)} {s s' : S} {o : Op} {k : Ans o → Code Op Ans (V ⊕ R)} (a : Ans o) :
      Path w f s₀ c s → f.next c = .call o k → w o s a s' → Path w f s₀ (k a) s'

variable {w : (o : Op) → S → Ans o → S → Prop}

/-- `Q` holds of the value and of what the environment is in, whatever it answers. -/
def Code.All (w : (o : Op) → S → Ans o → S → Prop) (Q : α → S → Prop) : Code Op Ans α → S → Prop
  | .pure a, s => Q a s
  | .call o k, s => ∀ a s', w o s a s' → (k a).All w Q s'

theorem Code.all_ask {o : Op} {s : S} {Q : Ans o → S → Prop} :
    (ask o : Code Op Ans (Ans o)).All w Q s ↔ ∀ a s', w o s a s' → Q a s' := Iff.rfl

theorem Code.all_bind (m : Code Op Ans α) (f : α → Code Op Ans β) {Q : β → S → Prop} : ∀ {s : S},
    (m >>= f).All w Q s ↔ m.All w (fun a s' => (f a).All w Q s') s := by
  show ∀ {s : S}, (Code.bind m f).All w Q s ↔ _
  induction m with
  | pure a => exact Iff.rfl
  | call o k ih => exact forall_congr' fun a => forall_congr' fun s' => imp_congr Iff.rfl (ih a)

variable {f : Fn Op Ans V R} {s₀ s : S} {c : Code Op Ans (V ⊕ R)} {I : V → S → Prop} {Q : R → S → Prop}

/-- What every turn keeps holds at the end of each turn, and `Q` where the function returns. -/
theorem Path.holds (h : Path w f s₀ c s) (h₀ : f.enter.All w (Sum.elim I Q) s₀)
    (ht : ∀ v s, I v s → (f.turn v).All w (Sum.elim I Q) s) : c.All w (Sum.elim I Q) s := by
  induction h with
  | enter => exact h₀
  | @call c s s' o k a _ hn hw ih =>
    have hnext : (f.next c).All w (Sum.elim I Q) s := by
      cases c with
      | pure x =>
        cases x with
        | inl v => exact ht v s ih
        | inr r => exact ih
      | call o k => exact ih
    rw [hn] at hnext
    exact hnext a s' hw

/-- What the function returns. -/
theorem Path.returns {r : R} (h : Path w f s₀ c s) (hr : f.next c = .pure (.inr r)) (h₀ : f.enter.All w (Sum.elim I Q) s₀)
    (ht : ∀ v s, I v s → (f.turn v).All w (Sum.elim I Q) s) : Q r s := by
  have hc := h.holds h₀ ht
  cases c with
  | pure x =>
    cases x with
    | inl v =>
      have hv : (f.turn v).All w (Sum.elim I Q) s := ht v s hc
      rw [show f.turn v = .pure (.inr r) from hr] at hv
      exact hv
    | inr r' =>
      obtain rfl : r' = r := Sum.inr.inj (Code.pure.inj hr)
      exact hc
  | call o k => cases hr

end

end Libtask.Lib.Calls
