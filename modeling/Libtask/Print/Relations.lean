/-
  Libtask.Print.Relations — the output of a format in a larger buffer, and that of two formats together.

  `Output err arg f n t`: in `n` bytes, wherever they are, the format gives the string `t`. Each
  directive starts afresh and takes its own argument, so the cells of two formats together are those
  of the one and of the other (`cells_append`).
-/

import Libtask.Print.Text

namespace Libtask.Print

open Libtask.Lib Libtask.Lib.Bytes Libtask.Lib.Cells

def Output (err : List UInt8) (arg : List Arg) (f : List Item) (n : Nat) (t : List UInt8) : Prop :=
  ∀ (mem : List UInt8) (dst : Int), 0 ≤ dst → dst + n ≤ mem.length →
    Returns (vsnprint err mem dst n (format f ++ [0]) arg) (Stored mem dst t)

section
variable {err mem t t' : List UInt8} {dst : Int} {o : Out} {n N : Nat} {f f₁ f₂ : List Item} {fs gs : List (Cell UInt8)}
  {arg arg' rest more : List Arg}

/-! ## What is stored -/

theorem write_inj {cs ds : List UInt8} {mem' : List UInt8} {i : Int} (h : write mem i cs = .ok mem') (h' : write mem i ds = .ok mem')
    (hlen : cs.length = ds.length) : cs = ds := by
  unfold write at h h'
  split at h
  · split at h'
    · have heq := (Except.ok.inj h).trans (Except.ok.inj h').symm
      rw [List.append_assoc, List.append_assoc] at heq
      exact (List.append_inj (List.append_cancel_left heq) hlen).1
    · cases h'
  · cases h

/-- A run stores one text. -/
theorem Stored.eq (h : Stored mem dst t o) (h' : Stored mem dst t' o) : t = t' := by
  have hlen : t.length = t'.length := by
    have hw := h.w.symm.trans h'.w
    omega
  have heq := write_inj h.mem h'.mem (by rw [List.length_append, List.length_append, hlen])
  exact (List.append_inj heq hlen).1

theorem Output.eq (h : Output err arg f n t) (h' : Output err arg f n t') : t = t' := by
  have hm : (0 : Int) + n ≤ (List.replicate n (0 : UInt8)).length := by
    rw [List.length_replicate]
    omega
  obtain ⟨o, ho, hs⟩ := h (List.replicate n 0) 0 (Int.le_refl 0) hm
  obtain ⟨o', ho', hs'⟩ := h' (List.replicate n 0) 0 (Int.le_refl 0) hm
  rw [ho] at ho'
  obtain rfl := Except.ok.inj ho'
  exact hs.eq hs'

theorem output_cut (h : cells err f arg = some (fs, rest)) (hn : 1 ≤ n) : Output err arg f n (cut blank (n - 1) fs) :=
  fun _ _ h0 hm => (vsnprint_format h hn h0 hm).mono fun _ ho => ho.1

/-- All of it, if there is room. -/
theorem output_text (h : cells err f arg = some (fs, rest)) (hn : (text blank fs).length < n) : Output err arg f n (text blank fs) := by
  have hout := output_cut h (by omega : 1 ≤ n)
  rwa [cut_eq_text (by omega)] at hout

/-! ## Two sizes -/

/-- What is cut is a prefix if the cell where the buffer ends is cut to one. -/
theorem truncated_iff (h : cells err f arg = some (fs, rest)) (hn : 1 ≤ n) (hN : n ≤ N) :
    (∃ s S T, Output err arg f n s ∧ Output err arg f N S ∧ (∀ M, T.length < M → Output err arg f M T) ∧
      s <+: S ∧ s.length = min (n - 1) T.length) ↔ Keeps blank (n - 1) (N - 1) fs := by
  rw [← cut_prefix_iff (Nat.sub_le_sub_right hN 1)]
  constructor
  · rintro ⟨s, S, T, hs, hS, -, hprefix, -⟩
    rwa [hs.eq (output_cut h hn), hS.eq (output_cut h (Nat.le_trans hn hN))] at hprefix
  · intro hprefix
    exact ⟨_, _, text blank fs, output_cut h hn, output_cut h (Nat.le_trans hn hN), fun M hM => output_text h hM, hprefix,
      cut_length fs (n - 1)⟩

/-- `"%-5s"` in three bytes and in six. -/
theorem truncated_left : ∃ s S T, Output [0] [.str (chars ['a', 'b'] ++ [0])] [.dir [.minus, .digit 5] .s] 3 s ∧
    Output [0] [.str (chars ['a', 'b'] ++ [0])] [.dir [.minus, .digit 5] .s] 6 S ∧
    (∀ M, T.length < M → Output [0] [.str (chars ['a', 'b'] ++ [0])] [.dir [.minus, .digit 5] .s] M T) ∧
      s <+: S ∧ s.length = min (3 - 1) T.length := by
  have h : cells [0] [.dir [.minus, .digit 5] .s] [.str (chars ['a', 'b'] ++ [0])] = some ([⟨true, 5, chars ['a', 'b']⟩], []) := by
    decide +kernel
  refine (truncated_iff h (by decide) (by decide)).mpr ?_
  unfold Keeps
  rw [if_neg (by decide)]
  exact .inl rfl

/-- `"%5s"` is `"ab"` in three bytes, and `"   ab"` in six. -/
theorem truncated_no_prefix : Output [0] [.str (chars ['a', 'b'] ++ [0])] [.dir [.digit 5] .s] 3 (chars ['a', 'b']) ∧
    Output [0] [.str (chars ['a', 'b'] ++ [0])] [.dir [.digit 5] .s] 6 (chars [' ', ' ', ' ', 'a', 'b']) ∧
    ¬ chars ['a', 'b'] <+: chars [' ', ' ', ' ', 'a', 'b'] := by
  have h : cells [0] [.dir [.digit 5] .s] [.str (chars ['a', 'b'] ++ [0])] = some ([⟨false, 5, chars ['a', 'b']⟩], []) := by
    decide +kernel
  have hthree : cut blank (3 - 1) [⟨false, 5, chars ['a', 'b']⟩] = chars ['a', 'b'] := by decide +kernel
  have hsix : cut blank (6 - 1) [⟨false, 5, chars ['a', 'b']⟩] = chars [' ', ' ', ' ', 'a', 'b'] := by decide +kernel
  exact ⟨hthree ▸ output_cut h (by decide), hsix ▸ output_cut h (by decide), by decide +kernel⟩

/-! ## Two formats -/

/-- A verb takes its argument, whatever there is behind it. -/
theorem Verb.str_append {verb : Verb} {fl : Flags} {str : List UInt8} (h : verb.str err fl arg = some (str, rest)) (more : List Arg) :
    verb.str err fl (arg ++ more) = some (str, rest ++ more) := by
  cases verb with
  | r =>
    rw [Verb.str_r] at h ⊢
    split at h
    · rename_i hp
      obtain ⟨rfl, rfl⟩ := Prod.mk.inj (Option.some.inj h)
      rw [if_pos hp]
    · cases h
  | s =>
    obtain ⟨t, rfl, hp, rfl⟩ := Verb.str_s h
    exact if_pos hp
  | _ =>
    obtain ⟨a, rfl, -⟩ := Verb.str_word h (by decide) (by decide)
    obtain ⟨rfl, -⟩ := Prod.mk.inj (Option.some.inj h)
    rfl

theorem Item.cell_append {i : Item} {x : Cell UInt8} (h : i.cell err arg = some (x, rest)) (more : List Arg) :
    i.cell err (arg ++ more) = some (x, rest ++ more) := by
  cases i with
  | lit c =>
    obtain ⟨rfl, rfl⟩ := Prod.mk.inj (Option.some.inj h)
    rfl
  | dir mods verb =>
    obtain ⟨⟨str, arg'⟩, hstr, h⟩ := Option.bind_eq_some_iff.mp h
    obtain ⟨rfl, rfl⟩ := Prod.mk.inj (Option.some.inj h)
    exact Option.bind_eq_some_iff.mpr ⟨_, Verb.str_append hstr more, rfl⟩

theorem cells_cons_eq {i : Item} {x : Cell UInt8} (hx : i.cell err arg = some (x, arg')) (hfs : cells err f arg' = some (fs, rest)) :
    cells err (i :: f) arg = some (x :: fs, rest) :=
  Option.bind_eq_some_iff.mpr ⟨_, hx, Option.bind_eq_some_iff.mpr ⟨_, hfs, rfl⟩⟩

/-- The second format goes on where the first one has come to. -/
theorem cells_append : ∀ {f₁ : List Item} {arg : List Arg} {fs : List (Cell UInt8)}, cells err f₁ arg = some (fs, []) →
    cells err f₂ arg' = some (gs, rest) → cells err (f₁ ++ f₂) (arg ++ arg') = some (fs ++ gs, rest) := by
  intro f₁
  induction f₁ with
  | nil =>
    intro arg fs h h'
    obtain ⟨rfl, rfl⟩ := Prod.mk.inj (Option.some.inj h)
    exact h'
  | cons i f₁ ih =>
    intro arg fs h h'
    obtain ⟨x, arg₁, fs, hx, hfs, rfl⟩ := cells_cons h
    exact cells_cons_eq (Item.cell_append hx arg') (ih hfs h')

theorem cells_more : ∀ {f : List Item} {arg : List Arg} {fs : List (Cell UInt8)}, cells err f arg = some (fs, rest) →
    cells err f (arg ++ more) = some (fs, rest ++ more) := by
  intro f
  induction f with
  | nil =>
    intro arg fs h
    obtain ⟨rfl, rfl⟩ := Prod.mk.inj (Option.some.inj h)
    rfl
  | cons i f ih =>
    intro arg fs h
    obtain ⟨x, arg₁, fs, hx, hfs, rfl⟩ := cells_cons h
    exact cells_cons_eq (Item.cell_append hx more) (ih hfs)

/-- Two formats together print what each of them prints, and take the arguments of both. -/
theorem formats_compose (h₁ : cells err f₁ arg = some (fs, [])) (h₂ : cells err f₂ arg' = some (gs, [])) :
    ∃ t₁ t₂, (∀ n, t₁.length < n → Output err arg f₁ n t₁) ∧ (∀ n, t₂.length < n → Output err arg' f₂ n t₂) ∧
      ∀ (mem : List UInt8) (dst : Int) (n : Nat) (more : List Arg), 0 ≤ dst → dst + n ≤ mem.length →
        t₁.length + t₂.length < n → Returns (vsnprint err mem dst n (format f₁ ++ format f₂ ++ [0]) (arg ++ arg' ++ more)) fun o =>
          Stored mem dst (t₁ ++ t₂) o ∧ (t₁.length + t₂.length + 1 < n → o.arg = more) := by
  refine ⟨text blank fs, text blank gs, fun n => output_text h₁, fun n => output_text h₂, fun mem dst n more h0 hm hn => ?_⟩
  have hcells : cells err (f₁ ++ f₂) (arg ++ arg' ++ more) = some (fs ++ gs, more) := cells_more (cells_append h₁ h₂)
  have htext : text blank (fs ++ gs) = text blank fs ++ text blank gs := text_append fs gs
  have hfmt : format (f₁ ++ f₂) = format f₁ ++ format f₂ := List.flatMap_append
  have hrun := vsnprint_format hcells (by omega : 1 ≤ n) h0 hm
  rw [hfmt, cut_eq_text (by rw [htext, List.length_append]; omega), htext, List.length_append] at hrun
  exact hrun.mono fun o ho => ⟨ho.1, fun hlt => ho.2 (by omega)⟩

end

/-- `"%-4d"` and `"|%s"`. -/
theorem formats_compose_two : ∃ t₁ t₂ : List UInt8,
    (∀ n, t₁.length < n → Output [0] [.word 42] [.dir [.minus, .digit 4] .d] n t₁) ∧
    (∀ n, t₂.length < n → Output [0] [.str (chars ['o', 'k'] ++ [0])]
      [.lit ⟨'|'.toUInt8, by decide, by decide⟩, .dir [] .s] n t₂) ∧
    ∀ (mem : List UInt8) (dst : Int) (n : Nat) (more : List Arg), 0 ≤ dst → dst + n ≤ mem.length →
      t₁.length + t₂.length < n → Returns (vsnprint [0] mem dst n (format [.dir [.minus, .digit 4] .d] ++
        format [.lit ⟨'|'.toUInt8, by decide, by decide⟩, .dir [] .s] ++ [0]) ([.word 42] ++ [.str (chars ['o', 'k'] ++ [0])] ++ more))
        fun o => Stored mem dst (t₁ ++ t₂) o ∧ (t₁.length + t₂.length + 1 < n → o.arg = more) := by
  have h₁ : cells [0] [.dir [.minus, .digit 4] .d] [.word 42] = some ([⟨true, 4, chars ['4', '2']⟩], []) := by decide +kernel
  have h₂ : cells [0] [.lit ⟨'|'.toUInt8, by decide, by decide⟩, .dir [] .s] [.str (chars ['o', 'k'] ++ [0])] =
      some ([⟨true, 0, chars ['|']⟩, ⟨false, 0, chars ['o', 'k']⟩], []) := by decide +kernel
  exact formats_compose h₁ h₂

end Libtask.Print
