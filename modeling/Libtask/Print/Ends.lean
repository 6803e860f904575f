/-
  Libtask.Print.Ends — where the formatter stops reading its format.

  Any format is items, and then nothing, a directive that is not complete, or one whose verb is
  unknown, which `Xverb` replaces (`format_cases`). The inner loop leaves `p` at a NUL when the
  format ends inside a directive, and the outer one goes on behind it; nowhere else.
-/

import Libtask.Print.Text

namespace Libtask.Print

open Libtask.Lib Libtask.Lib.Bytes Libtask.Lib.Cells

/-! ## Formats -/

/-- What may stand in a directive. -/
theorem char_cases (c : UInt8) : c = 0 ∨ (∃ m : Mod, c = m.char) ∨ (∃ verb : Verb, c = verb.char) ∨ switch c = .default := by
  have hall : ∀ n : Fin 256, (UInt8.ofNat n = 0) ∨
      (UInt8.ofNat n ∈ [Mod.minus.char, Mod.l.char, Mod.u.char] ∨ ∃ d : Fin 10, UInt8.ofNat n = (Mod.digit d).char) ∨
      (UInt8.ofNat n ∈ [Verb.d, .o, .p, .x, .c, .s, .r].map Verb.char) ∨ switch (UInt8.ofNat n) = .default := by decide +kernel
  have hc := hall ⟨c.toNat, c.toNat_lt⟩
  rw [UInt8.ofNat_toNat] at hc
  rcases hc with h | (h | ⟨d, h⟩) | h | h
  · exact .inl h
  · simp only [List.mem_cons, List.not_mem_nil, or_false] at h
    rcases h with h | h | h
    · exact .inr (.inl ⟨_, h⟩)
    · exact .inr (.inl ⟨_, h⟩)
    · exact .inr (.inl ⟨_, h⟩)
  · exact .inr (.inl ⟨_, h⟩)
  · obtain ⟨verb, -, h⟩ := List.mem_map.mp h
    exact .inr (.inr (.inl ⟨verb, h.symm⟩))
  · exact .inr (.inr (.inr h))

/-- Modifiers, and what ends them. -/
theorem mods_cases : ∀ {p : List UInt8}, 0 ∉ p → ∃ (mods : List Mod) (q : List UInt8), p = mods.map Mod.char ++ q ∧
    (q = [] ∨ ∃ c q', q = c :: q' ∧ c ≠ 0 ∧ ((∃ verb : Verb, c = verb.char) ∨ switch c = .default)) := by
  intro p
  induction p with
  | nil => exact fun _ => ⟨[], [], rfl, .inl rfl⟩
  | cons c p ih =>
    intro h0
    rw [List.mem_cons, not_or] at h0
    rcases char_cases c with hc | ⟨m, rfl⟩ | hv
    · exact absurd hc.symm h0.1
    · obtain ⟨mods, q, rfl, hq⟩ := ih h0.2
      exact ⟨m :: mods, q, rfl, hq⟩
    · exact ⟨[], c :: p, rfl, .inr ⟨c, p, rfl, Ne.symm h0.1, hv⟩⟩

/-- The items that a format begins with, and what there is behind them. -/
theorem format_cases : ∀ (n : Nat) {fmt : List UInt8}, fmt.length ≤ n → 0 ∉ fmt →
    ∃ (f : List Item) (t : List UInt8), fmt = format f ++ t ∧ (t = [] ∨ (∃ mods : List Mod, t = '%'.toUInt8 :: mods.map Mod.char) ∨
      ∃ (mods : List Mod) (c : UInt8) (q : List UInt8),
        t = '%'.toUInt8 :: (mods.map Mod.char ++ c :: q) ∧ c ≠ 0 ∧ switch c = .default) := by
  intro n
  induction n with
  | zero =>
    intro fmt hn _
    obtain rfl := List.length_eq_zero_iff.mp (Nat.le_zero.mp hn)
    exact ⟨[], [], rfl, .inl rfl⟩
  | succ n ih =>
    intro fmt hn h0
    cases fmt with
    | nil => exact ⟨[], [], rfl, .inl rfl⟩
    | cons c p =>
      rw [List.mem_cons, not_or] at h0
      rw [List.length_cons] at hn
      by_cases hc : c = '%'.toUInt8
      · subst hc
        obtain ⟨mods, q, rfl, rfl | ⟨c, q, rfl, hc, ⟨verb, rfl⟩ | hd⟩⟩ := mods_cases h0.2
        · exact ⟨[], _, rfl, .inr (.inl ⟨mods, by rw [List.append_nil]⟩)⟩
        · rw [List.mem_append, List.mem_cons, not_or, not_or] at h0
          rw [List.length_append, List.length_cons] at hn
          obtain ⟨f, t, rfl, ht⟩ := ih (by omega) h0.2.2.2
          refine ⟨.dir mods verb :: f, t, ?_, ht⟩
          simp [format, Item.chars]
        · exact ⟨[], _, rfl, .inr (.inr ⟨mods, c, q, rfl, hc, hd⟩)⟩
      · obtain ⟨f, t, rfl, ht⟩ := ih (by omega) h0.2
        exact ⟨.lit ⟨c, Ne.symm h0.1, hc⟩ :: f, t, rfl, ht⟩

/-! ## The end of a format -/

section
variable {err fmt p mem : List UInt8} {dst edst : Int} {o : Out} {n : Nat} {arg : List Arg}

/-- A format that ends inside a directive is read behind its NUL. -/
theorem turns_open (hw : o.w < edst - 1) (mods : List Mod) (fuel : Nat) :
    turns err edst (fuel + 2) ('%'.toUInt8 :: (mods.map Mod.char ++ [0])) o = .error "read behind the format" := by
  rw [turns_percent hw, directive_mods]
  rfl

/-- An unknown verb is replaced. -/
theorem turns_unknown {c : UInt8} (hw : o.w < edst - 1) (hc : c ≠ 0) (hd : switch c = .default) (mods : List Mod) (fuel : Nat) :
    turns err edst (fuel + 1) ('%'.toUInt8 :: (mods.map Mod.char ++ c :: p)) o = turns err edst fuel (Xverb.tail ++ [0]) o := by
  rw [turns_percent hw, directive_mods, directive, if_neg hc, hd]
  rfl

/-- `Xverb` behind the `X`. -/
def verbs : List Item :=
  [.lit ⟨'*'.toUInt8, by decide, by decide⟩, .lit ⟨'v'.toUInt8, by decide, by decide⟩,
    .lit ⟨'e'.toUInt8, by decide, by decide⟩, .lit ⟨'r'.toUInt8, by decide, by decide⟩,
    .lit ⟨'b'.toUInt8, by decide, by decide⟩, .lit ⟨'*'.toUInt8, by decide, by decide⟩]

/-- What ends with its last item is read to its NUL. -/
theorem turns_ends {f : List Item} {k fuel : Nat} (h : cells err f o.arg ≠ none) (h0 : 0 ≤ o.w) (hk : o.w + k + 1 = edst)
    (hm : edst ≤ o.mem.length) (hf : f.length < fuel) : ∃ o', turns err edst fuel (format f ++ [0]) o = .ok o' := by
  obtain ⟨⟨fs, rest⟩, h⟩ := Option.ne_none_iff_exists'.mp h
  obtain ⟨mem', -, hroom, hfull⟩ := turns_format f k o fs rest h h0 hk hm
  by_cases hlt : (text blank fs).length < k
  · obtain ⟨fuel, rfl⟩ : ∃ m, fuel = m + 1 + f.length := ⟨fuel - 1 - f.length, by omega⟩
    exact ⟨_, hroom hlt (fuel + 1) [0]⟩
  · obtain ⟨arg', hfull⟩ := hfull (by omega)
    exact ⟨_, hfull fuel [0] hf (List.cons_ne_nil _ _)⟩

/-- Nothing behind the loop reads the format. -/
theorem vsnprint_error (h : vsnprint err mem dst n fmt arg = .error "read behind the format") :
    turns err (dst + n) (fmt.length + 8) fmt ⟨dst, mem, arg⟩ = .error "read behind the format" := by
  unfold vsnprint vseprint at h
  cases ht : turns err (dst + n) (fmt.length + 8) fmt ⟨dst, mem, arg⟩ with
  | error e =>
    rw [ht] at h
    exact h
  | ok o =>
    rw [ht, ok_bind] at h
    split at h
    · unfold write at h
      split at h
      · cases h
      · exact absurd (Except.error.inj h) (by decide)
    · exact absurd (Except.error.inj h) (by decide)

/-- What is read behind the items of a format, if there is room left. -/
theorem turns_behind {f : List Item} {fs : List (Cell UInt8)} {rest : List Arg} (h : cells err f arg = some (fs, rest)) (h0 : 0 ≤ dst)
    (hm : dst + n ≤ mem.length) (fuel : Nat) (hp : p ≠ []) :
    (∃ o, turns err (dst + n) (fuel + 1 + f.length) (format f ++ p) ⟨dst, mem, arg⟩ = .ok o) ∧ ¬ (text blank fs).length + 1 < n ∨
    ∃ o, turns err (dst + n) (fuel + 1 + f.length) (format f ++ p) ⟨dst, mem, arg⟩ = turns err (dst + n) (fuel + 1) p o ∧
      (text blank fs).length + 1 < n ∧ 0 ≤ o.w ∧ o.w + (n - 1 - (text blank fs).length : Nat) + 1 = dst + n ∧
      dst + n ≤ o.mem.length := by
  by_cases hn : n = 0
  · have hw : ¬ dst < dst + (n : Int) - 1 := by omega
    have hne : format f ++ p ≠ [] := List.append_ne_nil_of_right_ne_nil _ hp
    rw [Nat.add_right_comm]
    exact .inl ⟨⟨_, turns_full (o := ⟨dst, mem, arg⟩) hw hne (fuel + f.length)⟩, by omega⟩
  · obtain ⟨mem', hmem, hroom, hfull⟩ :=
      @turns_format err (dst + n) f (n - 1) ⟨dst, mem, arg⟩ fs rest h h0 (by dsimp only; omega) hm
    by_cases hlt : (text blank fs).length < n - 1
    · have hlen := write_length hmem
      refine .inr ⟨_, hroom hlt (fuel + 1) p, by omega, ?_, ?_, ?_⟩
      · dsimp only
        omega
      · dsimp only
        omega
      · dsimp only at hlen ⊢
        omega
    · obtain ⟨arg', hfull⟩ := hfull (by omega)
      exact .inl ⟨⟨_, hfull (fuel + 1 + f.length) p (by omega) hp⟩, by omega⟩

theorem fuel_eq {f : List Item} {t : List UInt8} (h : fmt = format f ++ t) : ∃ fuel, (fmt ++ [0]).length + 8 = fuel + 8 + f.length := by
  have hle := format_length f
  have hlen : (fmt ++ [0]).length = (format f).length + t.length + 1 := by
    rw [h, List.length_append, List.length_append, List.length_singleton]
  exact ⟨(fmt ++ [0]).length - f.length, by omega⟩

theorem vsnprint_open {f : List Item} {mods : List Mod} {fs : List (Cell UInt8)} {rest : List Arg}
    (hfmt : fmt = format f ++ '%'.toUInt8 :: mods.map Mod.char) (h : cells err f arg = some (fs, rest))
    (hlt : (text blank fs).length + 1 < n) (h0 : 0 ≤ dst) (hm : dst + n ≤ mem.length) : vsnprint err mem dst n (fmt ++ [0]) arg = .error "read behind the format" := by
  obtain ⟨fuel, hf⟩ := fuel_eq hfmt
  have hp : '%'.toUInt8 :: mods.map Mod.char ++ [0] ≠ [] := List.cons_ne_nil _ _
  unfold vsnprint vseprint
  rw [hf, hfmt, List.append_assoc]
  rcases turns_behind h h0 hm (fuel + 7) hp with ⟨-, hfull⟩ | ⟨o, ho, -, hw, hk, -⟩
  · exact absurd hlt hfull
  · rw [ho, List.cons_append, turns_open (by omega) mods (fuel + 6)]
    rfl

end

/-- The format is read to its NUL and not behind it, unless it ends inside a directive that there is room to come to. -/
theorem reads_inside_iff {err mem fmt : List UInt8} {dst : Int} {n : Nat} {arg : List Arg} (h0 : 0 ∉ fmt)
    (harg : ∀ f t, fmt = format f ++ t → cells err f arg ≠ none) (hdst : 0 ≤ dst) (hm : dst + n ≤ mem.length) :
    vsnprint err mem dst n (fmt ++ [0]) arg ≠ .error "read behind the format" ↔
      ¬ ∃ (f : List Item) (mods : List Mod) (fs : List (Cell UInt8)) (rest : List Arg),
        fmt = format f ++ '%'.toUInt8 :: mods.map Mod.char ∧ cells err f arg = some (fs, rest) ∧ (text blank fs).length + 1 < n := by
  constructor
  · rintro hok ⟨f, mods, fs, rest, hfmt, hcells, hlt⟩
    exact hok (vsnprint_open hfmt hcells hlt hdst hm)
  · intro hno herr
    obtain ⟨f, t, hfmt, ht⟩ := format_cases fmt.length (Nat.le_refl _) h0
    obtain ⟨⟨fs, rest⟩, hcells⟩ := Option.ne_none_iff_exists'.mp (harg f t hfmt)
    obtain ⟨fuel, hf⟩ := fuel_eq hfmt
    have hturns := vsnprint_error herr
    rw [hf, hfmt, List.append_assoc] at hturns
    have hp : t ++ [0] ≠ [] := List.append_ne_nil_of_right_ne_nil _ (List.cons_ne_nil _ _)
    rcases turns_behind hcells hdst hm (fuel + 7) hp with ⟨⟨o, ho⟩, -⟩ | ⟨o, ho, hlt, hw, hk, hlen⟩
    · rw [ho] at hturns
      cases hturns
    · rw [ho] at hturns
      rcases ht with rfl | ⟨mods, rfl⟩ | ⟨mods, c, q, rfl, hc, hd⟩
      · cases hturns
      · exact hno ⟨f, mods, fs, rest, hfmt, hcells, hlt⟩
      · -- `Xverb` is read to its own NUL
        have hroom : o.w < dst + (n : Int) - 1 := by omega
        rw [List.cons_append, List.append_assoc, List.cons_append, turns_unknown hroom hc hd] at hturns
        have hverbs : cells err verbs o.arg ≠ none := Option.some_ne_none _
        obtain ⟨o', ho'⟩ : ∃ o', turns err (dst + n) (fuel + 7) (format verbs ++ [0]) o = .ok o' :=
          turns_ends hverbs hw hk hlen (by show 6 < fuel + 7; omega)
        rw [show Xverb.tail = format verbs by decide, ho'] at hturns
        cases hturns

/-- `"a"` is read to its NUL. -/
theorem reads_inside_a : vsnprint [0] (List.replicate 8 1) 0 8 (chars ['a'] ++ [0]) [] ≠ .error "read behind the format" := by
  refine (reads_inside_iff (by decide) (fun f t h => ?_) (by decide) (by decide)).mpr ?_
  · rcases f with - | ⟨i | ⟨mods, verb⟩, f⟩
    · exact Option.some_ne_none _
    · have hf := format_length f
      have hlen := congrArg List.length h
      simp only [format, Item.chars, chars, List.flatMap_cons, List.length_append, List.length_singleton, List.map_cons, List.map_nil]
        at hlen hf
      obtain rfl : f = [] := List.length_eq_zero_iff.mp (by omega)
      exact Option.some_ne_none _
    · exact absurd (List.cons.inj h).1 (by decide)
  · rintro ⟨f, mods, fs, rest, h, -⟩
    have hmem : '%'.toUInt8 ∈ chars ['a'] := h ▸ List.mem_append_right _ List.mem_cons_self
    exact absurd hmem (by decide)

/-- `"100%"` is read behind it. -/
theorem percent_reads_behind :
    vsnprint [0] (List.replicate 8 1) 0 8 (chars ['1', '0', '0', '%'] ++ [0]) [] = .error "read behind the format" := by
  decide +kernel

end Libtask.Print
