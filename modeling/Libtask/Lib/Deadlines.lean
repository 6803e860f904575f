/-
  Libtask.Lib.Deadlines — lists in the order of a deadline.

  In such a list what is due is at the front, and what is later at the back: a loop that stops
  at the first entry that is not due, or at the last one that is earlier, misses none
  (`takeWhile_due`, `rdropWhile_before`). An entry put behind those that are earlier keeps the
  order (`inOrder_insert`).
-/

import Mathlib.Data.List.DropRight
import Mathlib.Order.Lattice

namespace Libtask.Lib.Deadlines

section
variable {α K : Type} [LinearOrder K] {key key' : α → K} {xs ys : List α} {x : α}

def InOrder (key : α → K) (xs : List α) : Prop := xs.Pairwise fun x y => key x ≤ key y

theorem InOrder.sublist (h : InOrder key xs) (hs : ys.Sublist xs) : InOrder key ys := List.Pairwise.sublist hs h

/-- Only the deadlines of what is in the list matter. -/
theorem InOrder.congr (h : InOrder key xs) (hk : ∀ x ∈ xs, key' x = key x) : InOrder key' xs :=
  List.Pairwise.imp_of_mem (fun {x y} hx hy (hle : key x ≤ key y) => by rw [hk x hx, hk y hy]; exact hle) h

theorem takeWhile_due (h : InOrder key xs) (k : K) :
    xs.takeWhile (fun x => decide (key x ≤ k)) = xs.filter fun x => decide (key x ≤ k) := by
  induction xs with
  | nil => rfl
  | cons x xs ih =>
    obtain ⟨hx, hxs⟩ := List.pairwise_cons.mp h
    by_cases hk : key x ≤ k
    · rw [List.takeWhile_cons_of_pos (by simpa using hk), List.filter_cons_of_pos (by simpa using hk), ih hxs]
    · rw [List.takeWhile_cons_of_neg (by simpa using hk), List.filter_cons_of_neg (by simpa using hk)]
      refine (List.filter_eq_nil_iff.mpr fun y hy => ?_).symm
      simpa using lt_of_lt_of_le (not_le.mp hk) (hx y hy)

theorem dropWhile_due (h : InOrder key xs) (k : K) :
    xs.dropWhile (fun x => decide (key x ≤ k)) = xs.filter fun x => decide (k < key x) := by
  induction xs with
  | nil => rfl
  | cons x xs ih =>
    obtain ⟨hx, hxs⟩ := List.pairwise_cons.mp h
    by_cases hk : key x ≤ k
    · rw [List.dropWhile_cons_of_pos (by simpa using hk), List.filter_cons_of_neg (by simpa using hk), ih hxs]
    · rw [List.dropWhile_cons_of_neg (by simpa using hk)]
      refine (List.filter_eq_self.mpr fun y hy => ?_).symm
      rcases List.mem_cons.mp hy with rfl | hy
      · simpa using hk
      · simpa using lt_of_lt_of_le (not_le.mp hk) (hx y hy)

theorem rdropWhile_before (h : InOrder key xs) (k : K) :
    xs.rdropWhile (fun x => decide (k ≤ key x)) = xs.filter fun x => decide (key x < k) := by
  induction xs using List.reverseRecOn with
  | nil => rfl
  | append_singleton xs x ih =>
    obtain ⟨hxs, -, hx⟩ := List.pairwise_append.mp h
    by_cases hk : k ≤ key x
    · rw [List.rdropWhile_concat_pos _ _ _ (by simpa using hk), List.filter_append,
        List.filter_cons_of_neg (by simpa using hk), ih hxs]
      simp
    · rw [List.rdropWhile_concat_neg _ _ _ (by simpa using hk)]
      refine (List.filter_eq_self.mpr fun y hy => ?_).symm
      rcases List.mem_append.mp hy with hy | hy
      · simpa using lt_of_le_of_lt (hx y hy x (List.mem_singleton_self x)) (not_le.mp hk)
      · rw [List.mem_singleton.mp hy]
        simpa using hk

theorem rtakeWhile_before (h : InOrder key xs) (k : K) :
    xs.rtakeWhile (fun x => decide (k ≤ key x)) = xs.filter fun x => decide (k ≤ key x) := by
  induction xs using List.reverseRecOn with
  | nil => rfl
  | append_singleton xs x ih =>
    obtain ⟨hxs, -, hx⟩ := List.pairwise_append.mp h
    by_cases hk : k ≤ key x
    · rw [List.rtakeWhile_concat_pos _ _ _ (by simpa using hk), List.filter_append,
        List.filter_cons_of_pos (by simpa using hk), ih hxs]
      rfl
    · rw [List.rtakeWhile_concat_neg _ _ _ (by simpa using hk)]
      refine (List.filter_eq_nil_iff.mpr fun y hy => ?_).symm
      rcases List.mem_append.mp hy with hy | hy
      · simpa using lt_of_le_of_lt (hx y hy x (List.mem_singleton_self x)) (not_le.mp hk)
      · rw [List.mem_singleton.mp hy]
        simpa using hk

theorem inOrder_insert {k : K} (h : InOrder key (xs ++ ys)) (hx : key x = k) (hxs : ∀ y ∈ xs, key y < k)
    (hys : ∀ y ∈ ys, k ≤ key y) : InOrder key (xs ++ x :: ys) := by
  obtain ⟨h1, h2, h3⟩ := List.pairwise_append.mp h
  refine List.pairwise_append.mpr ⟨h1, List.pairwise_cons.mpr ⟨fun y hy => ?_, h2⟩, fun y hy z hz => ?_⟩
  · rw [hx]
    exact hys y hy
  · rcases List.mem_cons.mp hz with rfl | hz
    · rw [hx]
      exact le_of_lt (hxs y hy)
    · exact h3 y hy z hz

theorem InOrder.before {y : α} (h : InOrder key xs) (hx : x ∈ xs) (hy : y ∈ xs) (hlt : key x < key y) : [x, y].Sublist xs := by
  induction xs with
  | nil => cases hx
  | cons z xs ih =>
    obtain ⟨hz, hxs⟩ := List.pairwise_cons.mp h
    rcases List.mem_cons.mp hx with rfl | hx'
    · rcases List.mem_cons.mp hy with rfl | hy'
      · exact absurd hlt (lt_irrefl _)
      · exact (List.singleton_sublist.mpr hy').cons_cons x
    · rcases List.mem_cons.mp hy with rfl | hy'
      · exact absurd (hz x hx') (not_le.mpr hlt)
      · exact (ih hxs hx' hy').cons z

end

end Libtask.Lib.Deadlines
