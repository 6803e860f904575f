/-
  Libtask.Lib.Cells — cells of text, padded with blanks and cut to the room there is.

  A cell that is cut keeps what it can of its string: blanks are dropped first, on whichever side
  they are. So what is left of a line of cells need not be a prefix of the line (`cut_prefix_iff`).
-/

import Mathlib.Data.List.Infix
import Mathlib.Data.List.DropRight
import Mathlib.Order.Lattice

namespace Libtask.Lib.Cells

/-- A string, to the left or the right in at least `width` places. -/
structure Cell (α : Type) where
  left : Bool
  width : Nat
  str : List α
  deriving DecidableEq, Repr

section
variable {α : Type} (blank : α)

def Cell.len (f : Cell α) : Nat := max f.width f.str.length

/-- What there is of it in `k` places. -/
def Cell.cut (k : Nat) (f : Cell α) : List α :=
  let n := min k f.len
  let l := min n f.str.length
  if f.left then f.str.take l ++ List.replicate (n - l) blank else List.replicate (n - l) blank ++ f.str.take l

def Cell.text (f : Cell α) : List α := f.cut blank f.len

/-- What there is of the cells in `k` places. -/
def cut : (k : Nat) → List (Cell α) → List α
  | _, [] => []
  | k, f :: fs => f.cut blank k ++ cut (k - f.len) fs

def text (fs : List (Cell α)) : List α := fs.flatMap (Cell.text blank)

variable {blank} {f : Cell α} {fs gs : List (Cell α)} {k K : Nat}

/-! ## Lengths -/

theorem Cell.cut_length (k : Nat) (f : Cell α) : (f.cut blank k).length = min k f.len := by
  unfold Cell.cut
  dsimp only
  split
  · rw [List.length_append, List.length_take, List.length_replicate]
    omega
  · rw [List.length_append, List.length_take, List.length_replicate]
    omega

theorem Cell.cut_eq_text (h : f.len ≤ k) : f.cut blank k = f.text blank := by
  unfold Cell.text Cell.cut
  rw [Nat.min_eq_right h, Nat.min_self]

theorem Cell.text_length (f : Cell α) : (f.text blank).length = f.len := by
  unfold Cell.text
  rw [Cell.cut_length, Nat.min_self]

theorem text_cons (f : Cell α) (fs : List (Cell α)) : text blank (f :: fs) = f.text blank ++ text blank fs := List.flatMap_cons

theorem text_append (fs gs : List (Cell α)) : text blank (fs ++ gs) = text blank fs ++ text blank gs := List.flatMap_append

theorem cut_zero : ∀ fs : List (Cell α), cut blank 0 fs = [] := by
  intro fs
  induction fs with
  | nil => rfl
  | cons f fs ih =>
    have hf : f.cut blank 0 = [] := List.length_eq_zero_iff.mp (by rw [Cell.cut_length, Nat.zero_min])
    show f.cut blank 0 ++ cut blank (0 - f.len) fs = []
    rw [hf, Nat.zero_sub, ih]
    rfl

/-- As much is stored as there is room for. -/
theorem cut_length : ∀ (fs : List (Cell α)) (k : Nat), (cut blank k fs).length = min k (text blank fs).length := by
  intro fs
  induction fs with
  | nil =>
    intro k
    exact (Nat.min_zero k).symm
  | cons f fs ih =>
    intro k
    rw [cut, text_cons, List.length_append, List.length_append, Cell.cut_length, Cell.text_length, ih]
    omega

theorem cut_eq_text : ∀ {fs : List (Cell α)} {k : Nat}, (text blank fs).length ≤ k → cut blank k fs = text blank fs := by
  intro fs
  induction fs with
  | nil => exact fun _ => rfl
  | cons f fs ih =>
    intro k h
    rw [text_cons, List.length_append, Cell.text_length] at h
    rw [cut, text_cons, Cell.cut_eq_text (by omega), ih (by omega)]

/-! ## Characters -/

theorem Cell.mem_cut {c : α} (h : c ∈ f.cut blank k) : c = blank ∨ c ∈ f.str := by
  unfold Cell.cut at h
  dsimp only at h
  split at h
  · rcases List.mem_append.mp h with h | h
    · exact .inr (List.mem_of_mem_take h)
    · exact .inl (List.eq_of_mem_replicate h)
  · rcases List.mem_append.mp h with h | h
    · exact .inl (List.eq_of_mem_replicate h)
    · exact .inr (List.mem_of_mem_take h)

/-- What is printed is blanks, and characters of the strings. -/
theorem mem_cut {c : α} : ∀ {fs : List (Cell α)} {k : Nat}, c ∈ cut blank k fs → c = blank ∨ ∃ f ∈ fs, c ∈ f.str := by
  intro fs
  induction fs with
  | nil => exact fun h => nomatch h
  | cons f fs ih =>
    intro k h
    rw [cut] at h
    rcases List.mem_append.mp h with h | h
    · exact (Cell.mem_cut h).imp_right fun h => ⟨f, List.mem_cons_self, h⟩
    · exact (ih h).imp_right fun ⟨g, hg, hc⟩ => ⟨g, List.mem_cons_of_mem f hg, hc⟩

/-! ## Prefixes -/

/-- A string that is shifted to the right behind blanks begins as before if that is blanks too. -/
theorem shifted_prefix {s : List α} {a b l : Nat} (hab : a < b) :
    List.replicate a blank ++ s.take l <+: List.replicate b blank ++ s ↔ ∀ c ∈ s.take l, c = blank := by
  obtain ⟨d, rfl⟩ := Nat.exists_eq_add_of_lt hab
  rw [Nat.add_assoc, List.replicate_add, List.append_assoc, List.prefix_append_right_inj]
  constructor
  · -- each character is the one `d + 1` places before it, or a blank
    rintro ⟨u, hu⟩
    have hall : ∀ (i : Nat) (c : α), (s.take l)[i]? = some c → c = blank := by
      intro i
      induction i using Nat.strong_induction_on with
      | _ i ih =>
        intro c hc
        have hlen : i < (s.take l).length := (List.getElem?_eq_some_iff.mp hc).1
        have hbig : (List.replicate (d + 1) blank ++ s)[i]? = some c := by rw [← hu, List.getElem?_append_left hlen, hc]
        rw [List.length_take] at hlen
        by_cases hi : i < d + 1
        · rw [List.getElem?_append_left (by rwa [List.length_replicate]), List.getElem?_replicate_of_lt hi] at hbig
          exact (Option.some.inj hbig).symm
        · rw [List.getElem?_append_right (by rw [List.length_replicate]; omega), List.length_replicate] at hbig
          refine ih (i - (d + 1)) (by omega) c ?_
          rw [List.getElem?_take_of_lt (by omega)]
          exact hbig
    intro c hc
    obtain ⟨i, hi⟩ := List.mem_iff_getElem?.mp hc
    exact hall i c hi
  · intro h
    have hs : s.take l = List.replicate (s.take l).length blank := List.eq_replicate_iff.mpr ⟨rfl, h⟩
    have hshift : List.replicate (d + 1) blank ++ s.take l = s.take l ++ List.replicate (d + 1) blank := by
      rw [hs, List.replicate_append_replicate, List.replicate_append_replicate, Nat.add_comm]
    calc s.take l <+: s.take l ++ List.replicate (d + 1) blank := List.prefix_append _ _
      _ = List.replicate (d + 1) blank ++ s.take l := hshift.symm
      _ <+: List.replicate (d + 1) blank ++ s := (List.prefix_append_right_inj _).mpr (List.take_prefix l s)

/-- A cell that is cut begins as with more room if it is to the left, or has the same room, or no
    blanks are in it, or what is left of its string is blanks. -/
theorem Cell.cut_prefix_iff (hk : k ≤ K) (hlen : k < f.len) : f.cut blank k <+: f.cut blank K ↔
    f.left = true ∨ K = k ∨ min K f.len ≤ f.str.length ∨ ∀ c ∈ f.str.take k, c = blank := by
  by_cases heq : K = k
  · subst heq
    exact ⟨fun _ => .inr (.inl rfl), fun _ => List.prefix_refl _⟩
  have hlt : k < min K f.len := by omega
  unfold Cell.cut
  simp only [Nat.min_eq_left (Nat.le_of_lt hlen), heq, false_or]
  cases hleft : f.left with
  | true =>
    simp only [if_true, true_or, iff_true]
    by_cases hs : k ≤ f.str.length
    · rw [Nat.min_eq_left hs, Nat.sub_self, List.replicate_zero, List.append_nil]
      exact (List.take_prefix_take_left (by omega)).trans (List.prefix_append _ _)
    · rw [Nat.min_eq_right (by omega : f.str.length ≤ k), Nat.min_eq_right (by omega : f.str.length ≤ min K f.len),
        List.prefix_append_right_inj]
      rw [List.prefix_iff_eq_take, List.length_replicate, List.take_replicate, Nat.min_eq_left (by omega)]
  | false =>
    simp only [Bool.false_eq_true, if_false, false_or]
    by_cases hs : min K f.len ≤ f.str.length
    · simp only [hs, true_or, iff_true]
      rw [Nat.min_eq_left hs, Nat.min_eq_left (by omega : k ≤ f.str.length), Nat.sub_self, Nat.sub_self]
      exact List.take_prefix_take_left (by omega)
    · simp only [hs, false_or]
      rw [Nat.min_eq_right (by omega : f.str.length ≤ min K f.len), List.take_of_length_le (Nat.le_refl _),
        shifted_prefix (by omega : k - min k f.str.length < min K f.len - f.str.length)]
      by_cases hks : k ≤ f.str.length
      · rw [Nat.min_eq_left hks]
      · rw [Nat.min_eq_right (by omega : f.str.length ≤ k), List.take_of_length_le (Nat.le_refl _), List.take_of_length_le (by omega)]

/-- In `k` places there is the beginning of what is there in `K`: the cell where `k` ends is cut so. -/
def Keeps (blank : α) : (k K : Nat) → List (Cell α) → Prop
  | _, _, [] => True
  | k, K, f :: fs =>
    if f.len ≤ k then Keeps blank (k - f.len) (K - f.len) fs
    else f.left = true ∨ K = k ∨ min K f.len ≤ f.str.length ∨ ∀ c ∈ f.str.take k, c = blank

theorem cut_prefix_iff : ∀ {fs : List (Cell α)} {k K : Nat}, k ≤ K → (cut blank k fs <+: cut blank K fs ↔ Keeps blank k K fs) := by
  intro fs
  induction fs with
  | nil => exact fun _ => ⟨fun _ => trivial, fun _ => List.prefix_refl _⟩
  | cons f fs ih =>
    intro k K hk
    rw [cut, cut, Keeps]
    split
    · rename_i hlen
      rw [Cell.cut_eq_text hlen, Cell.cut_eq_text (Nat.le_trans hlen hk), List.prefix_append_right_inj]
      exact ih (Nat.sub_le_sub_right hk _)
    · rename_i hlen
      have hlt : k < f.len := Nat.lt_of_not_le hlen
      rw [Nat.sub_eq_zero_of_le (Nat.le_of_lt hlt), cut_zero, List.append_nil, ← Cell.cut_prefix_iff hk hlt]
      refine ⟨fun h => List.prefix_of_prefix_length_le h (List.prefix_append _ _) ?_, fun h => h.trans (List.prefix_append _ _)⟩
      rw [Cell.cut_length, Cell.cut_length]
      omega

end

/-! ## Without the padding -/

section
variable {α : Type} [DecidableEq α] {blank : α} {f : Cell α}

def strip (blank : α) (t : List α) : List α := (t.dropWhile (· = blank)).rdropWhile (· = blank)

theorem dropWhile_ne {t : List α} (h : ∀ c ∈ t, c ≠ blank) : t.dropWhile (· = blank) = t := by
  cases t with
  | nil => rfl
  | cons c t => exact List.dropWhile_cons_of_neg (by simpa using h c List.mem_cons_self)

theorem rdropWhile_ne {t : List α} (h : ∀ c ∈ t, c ≠ blank) (n : Nat) :
    (t ++ List.replicate n blank).rdropWhile (· = blank) = t := by
  unfold List.rdropWhile
  rw [List.reverse_append, List.reverse_replicate, List.dropWhile_append_of_pos (by simp),
    dropWhile_ne fun c hc => h c (List.mem_reverse.mp hc), List.reverse_reverse]

/-- The string is what is left without the padding. -/
theorem strip_text (h : ∀ c ∈ f.str, c ≠ blank) : strip blank (f.text blank) = f.str := by
  have hlen : min f.len f.str.length = f.str.length := Nat.min_eq_right (Nat.le_max_right _ _)
  unfold strip Cell.text Cell.cut
  simp only [Nat.min_self, hlen, List.take_length]
  split
  · cases hs : f.str with
    | nil =>
      rw [List.nil_append, List.dropWhile_replicate]
      simp
    | cons c t =>
      rw [hs] at h
      rw [List.cons_append, List.dropWhile_cons_of_neg (by simpa using h c List.mem_cons_self), ← List.cons_append]
      exact rdropWhile_ne h _
  · rw [List.dropWhile_append_of_pos (by simp), dropWhile_ne h]
    simpa using rdropWhile_ne h 0

end

end Libtask.Lib.Cells
