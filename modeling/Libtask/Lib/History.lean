/-
  Libtask.Lib.History — laws about histories kept as lists, newest entry first.

  `Law P h` says that `P` held at every entry, of the entry and what was before it. It is
  extended one entry at a time, and `law_iff` reads it at any entry.
-/

import Mathlib.Data.List.Basic

namespace Libtask.Lib.History

variable {ε α : Type}

def Law (P : ε → List ε → Prop) : List ε → Prop
  | [] => True
  | e :: h => P e h ∧ Law P h

theorem law_iff {P : ε → List ε → Prop} {h : List ε} :
    Law P h ↔ ∀ after e before, h = after ++ e :: before → P e before := by
  induction h with
  | nil => simp [Law]
  | cons e h ih =>
    simp only [Law, ih]
    constructor
    · intro h' after e' before he
      obtain ⟨h1, h2⟩ := h'
      cases after with
      | nil =>
        obtain ⟨rfl, rfl⟩ := List.cons.inj he
        exact h1
      | cons a after =>
        obtain ⟨rfl, rfl⟩ := List.cons.inj he
        exact h2 after e' before rfl
    · exact fun hall => ⟨hall [] e h rfl, fun after e' before he => hall (e :: after) e' before (by rw [he]; rfl)⟩

/-- What `f` selects, oldest first. -/
def select (f : ε → Option α) (h : List ε) : List α := (h.filterMap f).reverse

theorem select_cons (f : ε → Option α) (e : ε) (h : List ε) :
    select f (e :: h) = select f h ++ (f e).toList := by
  cases hf : f e <;> simp [select, hf]

theorem select_append (f : ε → Option α) (h h' : List ε) : select f (h ++ h') = select f h' ++ select f h := by
  simp [select]

end Libtask.Lib.History
