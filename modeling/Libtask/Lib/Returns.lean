/-
  Libtask.Lib.Returns — computations that may fail, and what they return.
-/

namespace Libtask.Lib

variable {ε α β : Type}

/-- `m` does not fail, and `Q` holds of its value. -/
def Returns (m : Except ε α) (Q : α → Prop) : Prop := ∃ a, m = .ok a ∧ Q a

section
variable {m : Except ε α} {f : α → Except ε β} {P Q : α → Prop} {R : β → Prop} {a : α}

theorem returns_ok (h : Q a) : Returns (.ok a : Except ε α) Q := ⟨a, rfl, h⟩

theorem returns_pure (h : Q a) : Returns (pure a : Except ε α) Q := ⟨a, rfl, h⟩

theorem returns_bind (hm : Returns m P) (hf : ∀ a, P a → Returns (f a) R) : Returns (m >>= f) R := by
  obtain ⟨a, rfl, ha⟩ := hm
  exact hf a ha

theorem ok_bind (a : α) (f : α → Except ε β) : (Except.ok a >>= f) = f a := rfl

theorem ok_of_bind {b : β} (h : m >>= f = .ok b) : ∃ a, m = .ok a ∧ f a = .ok b := by
  cases m with
  | error e => cases h
  | ok a => exact ⟨a, rfl, h⟩

theorem Returns.mono (h : Returns m P) (hPQ : ∀ a, P a → Q a) : Returns m Q := by
  obtain ⟨a, ha, hp⟩ := h
  exact ⟨a, ha, hPQ a hp⟩

end

end Libtask.Lib
