/-
  Libtask.Lib.Lists — removing an element of an array by moving the last one into its
  place, on lists.
-/

import Mathlib.Data.List.Perm.Basic
import Mathlib.Data.List.Nodup

namespace Libtask.Lib.Lists

variable {α : Type}

/-- Drop entry `i`: the last entry takes its place. -/
def swapRemove (xs : List α) (i : Nat) : List α :=
  match xs.getLast? with
  | some x => (xs.set i x).dropLast
  | none => xs

theorem swapRemove_snoc (ys : List α) (q : α) (i : Nat) : swapRemove (ys ++ [q]) i = ((ys ++ [q]).set i q).dropLast := by
  simp [swapRemove]

theorem swapRemove_perm {xs : List α} {i : Nat} (h : i < xs.length) : (swapRemove xs i).Perm (xs.eraseIdx i) := by
  rcases List.eq_nil_or_concat xs with rfl | ⟨ys, q, rfl⟩
  · simp at h
  · rw [List.concat_eq_append] at h ⊢
    rw [swapRemove_snoc]
    by_cases hi : i < ys.length
    · rw [List.set_append_left i q hi, List.dropLast_concat, List.eraseIdx_append_of_lt_length hi]
      exact (List.set_perm_cons_eraseIdx hi q).trans (List.perm_append_singleton q _).symm
    · have hlen : i = ys.length := by simp at h; omega
      subst hlen
      rw [List.set_append_right _ q (Nat.le_refl _), List.eraseIdx_append_of_length_le (Nat.le_refl _)]
      simp

theorem mem_swapRemove {xs : List α} {i : Nat} {x y : α} (hn : xs.Nodup) (hi : xs[i]? = some x) :
    y ∈ swapRemove xs i ↔ y ∈ xs ∧ y ≠ x := by
  obtain ⟨h, rfl⟩ := List.getElem?_eq_some_iff.mp hi
  rw [(swapRemove_perm h).mem_iff]
  have hp := List.getElem_cons_eraseIdx_perm h
  have hnd : (xs[i] :: xs.eraseIdx i).Nodup := hp.nodup_iff.mpr hn
  rw [← hp.mem_iff, List.mem_cons]
  constructor
  · intro hy
    exact ⟨Or.inr hy, fun e => (List.nodup_cons.mp hnd).1 (e ▸ hy)⟩
  · intro h'
    obtain ⟨rfl | hy, hne⟩ := h'
    · exact absurd rfl hne
    · exact hy

theorem nodup_swapRemove {xs : List α} {i : Nat} (hn : xs.Nodup) (h : i < xs.length) : (swapRemove xs i).Nodup :=
  (swapRemove_perm h).nodup_iff.mpr (hn.eraseIdx i)

end Libtask.Lib.Lists
