/-
  Libtask.Print.Text — the formatter prints the cells of its format.

  `printstr_eq`: `printstr` writes what of the cell there is room for. `item_turn`: a turn of the
  outer loop prints an item so; `turns_format`: the loop prints the cells of the format, cut to the
  buffer, and goes on behind it unless the buffer is full.
-/

import Libtask.Print.Inside

namespace Libtask.Print

open Libtask.Lib Libtask.Lib.Bytes Libtask.Lib.Numerals Libtask.Lib.Cells

/-! ## `printstr` -/

section
variable {mem s : List UInt8} {dst edst size room l n : Int}

/-- `blanks` writes them. -/
theorem blanks_eq (h0 : 0 ≤ dst) (hn : 0 ≤ n) (hn' : n < 2 ^ 31) (hm : dst + n ≤ mem.length) :
    blanks mem dst n = write mem dst (List.replicate n.toNat blank) := by
  unfold blanks
  split
  · rw [size_t_eq hn hn', memset, if_pos (by omega)]
    rfl
  · rename_i hz
    obtain rfl : n = 0 := by omega
    rw [Int.toNat_zero, List.replicate_zero, write_nil h0 (by omega)]

/-- `n` and `l` are those of the cell in the places that are there. -/
theorem clip_eq (hr : 0 < room) (hl : 0 ≤ l) (hl' : l < 2 ^ 31) (hs : size < 2 ^ 31) :
    let m := min (room - 1).toNat (max size.toNat l.toNat)
    clip room l size = (↑m, ↑(min m l.toNat)) := by
  have hint : room ≤ 2 ^ 31 → int (room - 1) = room - 1 := fun h => int_eq (by omega) (by omega)
  unfold clip
  dsimp only
  refine Prod.ext ?_ ?_
  · dsimp only
    split <;> split <;> omega
  · dsimp only
    split <;> split <;> split <;> omega

theorem cstr_length (h : Prints s) : (cstr s).length = (int (s.idxOf 0)).toNat := by
  have hlt := idxOf_lt h.1
  have hle : int (s.idxOf 0 : Nat) ≤ (s.idxOf 0 : Nat) := by
    have h0 := h.2
    unfold int at h0 ⊢
    rw [Int.bmod_def] at h0 ⊢
    split <;> omega
  unfold cstr
  rw [List.length_take]
  omega

theorem cstr_le (s : List UInt8) : (cstr s).length ≤ s.length := by
  unfold cstr
  exact List.length_take_le' _ _

theorem cstr_take {i : Nat} (h : i ≤ (cstr s).length) : (cstr s).take i = s.take i := by
  unfold cstr at h ⊢
  rw [List.length_take] at h
  rw [List.take_take, Nat.min_eq_left (by omega)]

section
variable {mem' : List UInt8} {m l : Nat}

theorem int_pad (hl : l ≤ m) (hm : m < 2 ^ 31) : int ((m : Int) - l) = ((m - l : Nat) : Int) := by
  rw [int_eq (by omega) (by omega)]
  omega

/-- `if(sign < 0)`: the string, and blanks behind it. -/
theorem left_eq (h : write mem dst (s.take l ++ List.replicate (m - l) blank) = .ok mem') (hl : l ≤ m) (hs : l ≤ s.length)
    (hm : m < 2 ^ 31) (h0 : 0 ≤ dst) (hroom : dst + m ≤ mem.length) : (do
      let mem ← memmove mem dst s (size_t l)
      let mem ← blanks mem (dst + l) (int (m - l))
      pure (dst + (m : Int), mem) : Except String (Int × List UInt8)) = .ok (dst + m, mem') := by
  obtain ⟨mem₁, h₁, h₂⟩ := write_append h
  have hlen := write_length h₁
  rw [List.length_take_of_le hs] at h₂
  rw [int_pad hl hm, size_t_eq (by omega) (by omega), Int.toNat_natCast, memmove, if_pos hs, h₁, ok_bind,
    blanks_eq (by omega) (by omega) (by omega) (by omega), Int.toNat_natCast, h₂]
  rfl

/-- `else`: blanks, and the string behind them. -/
theorem right_eq (h : write mem dst (List.replicate (m - l) blank ++ s.take l) = .ok mem') (hl : l ≤ m) (hs : l ≤ s.length)
    (hm : m < 2 ^ 31) (h0 : 0 ≤ dst) (hroom : dst + m ≤ mem.length) : (do
      let mem ← blanks mem dst (int (m - l))
      let mem ← memmove mem (dst + m - l) s (size_t l)
      pure (dst + (m : Int), mem) : Except String (Int × List UInt8)) = .ok (dst + m, mem') := by
  obtain ⟨mem₁, h₁, h₂⟩ := write_append h
  have hdst : dst + (m : Int) - l = dst + ((m - l : Nat) : Int) := by omega
  rw [List.length_replicate] at h₂
  rw [int_pad hl hm, size_t_eq (by omega) (by omega), Int.toNat_natCast, blanks_eq (by omega) (by omega) (by omega) (by omega),
    Int.toNat_natCast, h₁, ok_bind, memmove, if_pos hs, hdst, h₂]
  rfl

end

/-- `printstr` writes its cell into the places that are left but one. -/
theorem printstr_eq {t : List UInt8} (h0 : 0 ≤ dst) (hlt : dst < edst) (hm : edst ≤ mem.length) (hs : Prints s) (hsize : size < 2 ^ 31)
    (ht : t = (cell size (cstr s)).cut blank (edst - 1 - dst).toNat) :
    Returns (write mem dst t) fun mem' => printstr mem dst edst s size = .ok (dst + t.length, mem') := by
  have hrange := int_range (s.idxOf 0 : Nat)
  have hlen := cstr_length hs
  have hle := cstr_le s
  have hl0 := hs.2
  have hwidth : (if size < 0 then int (-size) else size) < 2 ^ 31 := by
    have hint := int_range (-size)
    split <;> omega
  have hclip := clip_eq (by omega : 0 < edst - dst) hl0 hrange.2 hwidth
  rw [show edst - dst - 1 = edst - 1 - dst by omega, ← hlen] at hclip
  have htlen := @Cell.cut_length _ blank (edst - 1 - dst).toNat (cell size (cstr s))
  rw [← ht] at htlen
  unfold Cell.cut at ht
  unfold Cell.len cell at ht htlen
  dsimp only at ht htlen hclip
  rw [← htlen] at ht hclip
  have hls : min t.length (cstr s).length ≤ (cstr s).length := Nat.min_le_right _ _
  have hlm : min t.length (cstr s).length ≤ t.length := Nat.min_le_left _ _
  rw [cstr_take hls] at ht
  -- `n` is now the length of what is written, and `l` how much of it is the string
  generalize min t.length (cstr s).length = l at ht hclip hls hlm
  obtain ⟨mem', hmem⟩ : ∃ mem', write mem dst t = .ok mem' := write_in h0 (by omega)
  refine ⟨mem', hmem, ?_⟩
  unfold printstr
  rw [if_neg (by omega : ¬ edst ≤ dst), strlen, if_pos hs.1, ok_bind, hclip]
  dsimp only
  by_cases hneg : size < 0
  · rw [decide_eq_true hneg, if_pos rfl] at ht
    rw [if_pos hneg, if_pos (by decide : (-1 : Int) < 0)]
    exact left_eq (ht ▸ hmem) hlm (by omega) (by omega) h0 (by omega)
  · rw [decide_eq_false hneg, if_neg (by decide)] at ht
    rw [if_neg hneg, if_neg (by decide : ¬ (1 : Int) < 0)]
    exact right_eq (ht ▸ hmem) hlm (by omega) (by omega) h0 (by omega)

end

/-! ## Strings -/

section
variable {s : List UInt8}

theorem cstring_prints (h : CString s) : Prints s := by
  obtain ⟨h0, hlt⟩ := h
  refine ⟨h0, ?_⟩
  rw [int_eq (by omega) (by omega)]
  omega

/-- A string of less than 2^31 bytes is printed to its NUL. -/
theorem cstr_eq (h0 : 0 ∉ s) (h : CString (s ++ [0])) : cstr (s ++ [0]) = s := by
  have hidx : (s ++ [0]).idxOf 0 = s.length := by
    rw [List.idxOf_append_of_notMem h0]
    rfl
  have hlt := h.2
  rw [hidx] at hlt
  unfold cstr
  rw [hidx, int_eq (by omega) (by omega), Int.toNat_natCast, List.take_append_length]

end

/-! ## Directives -/

section
variable {err p : List UInt8} {dst edst : Int} {o : Out}

theorem switch_mod (m : Mod) : m.char ≠ 0 ∧ switch m.char = match m with
    | .minus => .minus
    | .digit _ => .digit
    | .l => .l
    | .u => .u := by
  cases m with
  | minus => decide
  | digit d => exact (by decide : ∀ d : Fin 10, (Mod.digit d).char ≠ 0 ∧ switch (Mod.digit d).char = .digit) d
  | l => decide
  | u => decide

/-- `size = size*10 + *p-'0'` -/
theorem size_digit (size : Int) (d : Fin 10) : int (int (int (size * 10) + (Mod.digit d).char.toNat) - 48) = int (size * 10 + d) := by
  have hc : ((Mod.digit d).char.toNat : Int) = 48 + d := by
    have h := (by decide : ∀ d : Fin 10, (Mod.digit d).char.toNat = 48 + d) d
    omega
  rw [hc]
  unfold int
  rw [Int.bmod_add_bmod, Int.bmod_sub_bmod]
  congr 1
  omega

/-- The modifiers are read into the directive's state. -/
theorem directive_mods (mods : List Mod) : ∀ (s : Spec) (p : List UInt8) (o : Out),
    directive err edst (mods.map Mod.char ++ p) s.fl s.size s.sign o =
      directive err edst p (mods.foldl Spec.mod s).fl (mods.foldl Spec.mod s).size (mods.foldl Spec.mod s).sign o := by
  induction mods with
  | nil => exact fun _ _ _ => rfl
  | cons m mods ih =>
    intro s p o
    obtain ⟨hc, hsw⟩ := switch_mod m
    rw [List.foldl_cons, ← ih, List.map_cons, List.cons_append, directive, if_neg hc, hsw]
    cases m with
    | minus => rfl
    | digit d =>
      show directive err edst _ s.fl (int (int (int (s.size * 10) + (Mod.digit d).char.toNat) - 48)) s.sign o = _
      rw [size_digit]
      rfl
    | l => rfl
    | u => rfl

/-- `printstr` on the output. -/
theorem out_printstr_eq {s t : List UInt8} {size sign : Int} (h0 : 0 ≤ o.w) (hlt : o.w < edst) (hm : edst ≤ o.mem.length)
    (hs : Prints s) (ht : t = (cell (int (size * sign)) (cstr s)).cut blank (edst - 1 - o.w).toNat) :
    Returns (write o.mem o.w t) fun mem' => o.printstr edst s size sign = .ok ⟨o.w + t.length, mem', o.arg⟩ := by
  obtain ⟨mem', hmem, h⟩ := printstr_eq h0 hlt hm hs (int_range (size * sign)).2 ht
  refine ⟨mem', hmem, ?_⟩
  unfold Out.printstr
  rw [h]
  rfl

theorem switch_verb (verb : Verb) : verb.char ≠ 0 ∧ switch verb.char = match verb with
    | .d => .num 10
    | .o => .num 8
    | .p => .num 16
    | .x => .num 16
    | .c => .c
    | .s => .s
    | .r => .r := by
  cases verb <;> decide

/-- A verb prints its string. -/
theorem directive_verb {verb : Verb} {s : Spec} {str t : List UInt8} {arg : List Arg} (h : verb.str err s.fl o.arg = some (str, arg))
    (h0 : 0 ≤ o.w) (hlt : o.w < edst) (hm : edst ≤ o.mem.length) (ht : t = (s.cell str).cut blank (edst - 1 - o.w).toNat)
    (p : List UInt8) : Returns (write o.mem o.w t) fun mem' =>
      directive err edst (verb.char :: p) s.fl s.size s.sign o = .ok (verb.char :: p, ⟨o.w + t.length, mem', arg⟩) := by
  obtain ⟨hc, hsw⟩ := switch_verb verb
  -- the string is `str` for `printstr`
  have hprint : ∀ s', Prints s' → cstr s' = str → Returns (write o.mem o.w t) fun mem' =>
      (do pure (verb.char :: p, ← { o with arg }.printstr edst s' s.size s.sign)) =
        .ok (verb.char :: p, ⟨o.w + t.length, mem', arg⟩) :=
    fun s' hp hs' => by
      obtain ⟨mem', hmem, ho⟩ := out_printstr_eq (o := { o with arg }) h0 hlt hm hp (hs'.symm ▸ ht)
      refine ⟨mem', hmem, ?_⟩
      rw [ho]
      rfl
  have hnum : ∀ base a, 8 ≤ base → base ≤ 16 → number base s.fl a = str → Returns (write o.mem o.w t) fun mem' =>
      (do
        let s' ← num base s.fl a
        pure (verb.char :: p, ← { o with arg }.printstr edst s' s.size s.sign)) = .ok (verb.char :: p, ⟨o.w + t.length, mem', arg⟩) :=
    fun base a hb hb' hstr => by
      have hs := number_cstring hb s.fl a
      have h0 : 0 ∉ number base s.fl a := fun h => absurd (number_mem (by omega) hb' h) (by decide)
      rw [num_eq hb hb', ok_bind]
      exact hprint _ (cstring_prints hs) ((cstr_eq h0 hs).trans hstr)
  rw [directive, if_neg hc, hsw]
  cases verb with
  | d =>
    obtain ⟨a, harg, hstr⟩ := Verb.str_word h (by decide) (by decide)
    rw [harg]
    exact hnum 10 a (by decide) (by decide) (Prod.mk.inj (Option.some.inj hstr)).1
  | o =>
    obtain ⟨a, harg, hstr⟩ := Verb.str_word h (by decide) (by decide)
    rw [harg]
    exact hnum 8 a (by decide) (by decide) (Prod.mk.inj (Option.some.inj hstr)).1
  | p =>
    obtain ⟨a, harg, hstr⟩ := Verb.str_word h (by decide) (by decide)
    rw [harg]
    exact hnum 16 a (by decide) (by decide) (Prod.mk.inj (Option.some.inj hstr)).1
  | x =>
    obtain ⟨a, harg, hstr⟩ := Verb.str_word h (by decide) (by decide)
    rw [harg]
    exact hnum 16 a (by decide) (by decide) (Prod.mk.inj (Option.some.inj hstr)).1
  | c =>
    obtain ⟨a, harg, hstr⟩ := Verb.str_word h (by decide) (by decide)
    rw [harg]
    exact hprint _ (cstring_prints (cstring_of_short (List.mem_cons_of_mem _ List.mem_cons_self) (by simp)))
      (Prod.mk.inj (Option.some.inj hstr)).1
  | s =>
    obtain ⟨s', harg, hp, hstr⟩ := Verb.str_s h
    rw [harg]
    exact hprint s' hp hstr
  | r =>
    rw [Verb.str_r] at h
    split at h
    · rename_i hp
      obtain ⟨hstr, rfl⟩ := Prod.mk.inj (Option.some.inj h)
      exact hprint err hp hstr
    · cases h

end

/-! ## The loop -/

section
variable {err p : List UInt8} {dst edst : Int} {o : Out} {k : Nat}

/-- A full buffer ends the loop. -/
theorem turns_full (hw : ¬ o.w < edst - 1) (hp : p ≠ []) (fuel : Nat) : turns err edst (fuel + 1) p o = .ok o := by
  cases p with
  | nil => exact absurd rfl hp
  | cons c p => exact if_neg fun h => hw h.2

theorem turns_percent (hw : o.w < edst - 1) (fuel : Nat) (p : List UInt8) : turns err edst (fuel + 1) ('%'.toUInt8 :: p) o = (do
    let (p, o) ← directive err edst p Spec.init.fl Spec.init.size Spec.init.sign o
    turns err edst fuel p.tail o) := by
  rw [turns, if_pos ⟨by decide, hw⟩, if_pos rfl]
  rfl

/-- A turn prints an item. -/
theorem item_turn {i : Item} {x : Cell UInt8} {arg : List Arg} {t : List UInt8} (h : i.cell err o.arg = some (x, arg)) (h0 : 0 ≤ o.w)
    (hk : o.w + (k + 1) + 1 = edst) (hm : edst ≤ o.mem.length) (ht : t = x.cut blank (k + 1)) :
    Returns (write o.mem o.w t) fun mem' => ∀ fuel p,
      turns err edst (fuel + 1) (i.chars ++ p) o = turns err edst fuel p ⟨o.w + t.length, mem', arg⟩ := by
  cases i with
  | lit c =>
    obtain ⟨rfl, rfl⟩ := Prod.mk.inj (Option.some.inj h)
    have hone : t = [c.c] := by
      have hlen : (⟨true, 0, [c.c]⟩ : Cell UInt8).len = 1 := rfl
      rw [ht, Cell.cut_eq_text (by omega)]
      rfl
    obtain ⟨mem', hmem⟩ : ∃ mem', write o.mem o.w t = .ok mem' := write_in h0 (by rw [hone, List.length_singleton]; omega)
    refine ⟨mem', hmem, fun fuel p => ?_⟩
    rw [hone] at hmem ⊢
    show turns err edst (fuel + 1) (c.c :: p) o = _
    rw [turns, if_pos ⟨c.nonul, by omega⟩, if_neg c.noverb, hmem]
    rfl
  | dir mods verb =>
    obtain ⟨⟨str, arg'⟩, hstr, h⟩ := Option.bind_eq_some_iff.mp h
    obtain ⟨rfl, rfl⟩ := Prod.mk.inj (Option.some.inj h)
    have hplaces : (edst - 1 - o.w).toNat = k + 1 := by omega
    have hrest : ∀ p, Item.chars (.dir mods verb) ++ p = '%'.toUInt8 :: (mods.map Mod.char ++ verb.char :: p) := fun p => by
      simp [Item.chars]
    obtain ⟨mem', hmem, -⟩ := directive_verb (t := t) hstr h0 (by omega) hm (by rw [hplaces]; exact ht) []
    refine ⟨mem', hmem, fun fuel p => ?_⟩
    obtain ⟨mem'', hmem', hdir⟩ := directive_verb (t := t) hstr h0 (by omega) hm (by rw [hplaces]; exact ht) p
    rw [hmem] at hmem'
    obtain rfl := Except.ok.inj hmem'
    rw [hrest, turns_percent (by omega), directive_mods]
    show (do
      let (p, o) ← directive err edst (verb.char :: p) (spec mods).fl (spec mods).size (spec mods).sign o
      turns err edst fuel p.tail o) = _
    rw [hdir]
    rfl

/-- The loop prints the cells of a format, and comes to what is behind it if the buffer is not full. -/
theorem turns_format : ∀ (f : List Item) (k : Nat) (o : Out) (fs : List (Cell UInt8)) (rest : List Arg),
    cells err f o.arg = some (fs, rest) → 0 ≤ o.w → o.w + k + 1 = edst → edst ≤ o.mem.length →
    Returns (write o.mem o.w (cut blank k fs)) fun mem' =>
      ((text blank fs).length < k → ∀ fuel p, turns err edst (fuel + f.length) (format f ++ p) o =
        turns err edst fuel p ⟨o.w + (text blank fs).length, mem', rest⟩) ∧
      (k ≤ (text blank fs).length → ∃ arg', ∀ fuel p, f.length < fuel → p ≠ [] →
        turns err edst fuel (format f ++ p) o = .ok ⟨o.w + k, mem', arg'⟩) := by
  intro f
  induction f with
  | nil =>
    intro k o fs rest h h0 hk hm
    obtain ⟨rfl, rfl⟩ := Prod.mk.inj (Option.some.inj h)
    refine ⟨o.mem, write_nil h0 (by omega), fun _ fuel p => ?_, fun hle => ⟨o.arg, fun fuel p hf hp => ?_⟩⟩
    · show turns err edst fuel p o = turns err edst fuel p ⟨o.w + ((0 : Nat) : Int), o.mem, o.arg⟩
      rw [Int.natCast_zero, Int.add_zero]
    · obtain rfl : k = 0 := Nat.le_zero.mp hle
      obtain ⟨fuel, rfl⟩ : ∃ n, fuel = n + 1 := ⟨fuel - 1, by omega⟩
      rw [Int.natCast_zero, Int.add_zero]
      exact turns_full (by omega) hp fuel
  | cons i f ih =>
    intro k o fs rest h h0 hk hm
    obtain ⟨x, arg, fs, hx, hfs, rfl⟩ := cells_cons h
    have happ : ∀ p, format (i :: f) ++ p = i.chars ++ (format f ++ p) := fun p => by
      unfold format
      rw [List.flatMap_cons, List.append_assoc]
    have hcons : ∀ p, p ≠ [] → format (i :: f) ++ p ≠ [] := fun p hp => List.append_ne_nil_of_right_ne_nil _ hp
    cases k with
    | zero =>
      rw [cut_zero]
      refine ⟨o.mem, write_nil h0 (by omega), fun hlt => absurd hlt (Nat.not_lt_zero _), fun _ => ⟨o.arg, fun fuel p hf hp => ?_⟩⟩
      obtain ⟨fuel, rfl⟩ : ∃ n, fuel = n + 1 := ⟨fuel - 1, by omega⟩
      rw [Int.natCast_zero, Int.add_zero]
      exact turns_full (by omega) (hcons p hp) fuel
    | succ k =>
      obtain ⟨mem₁, h₁, hturn⟩ := item_turn hx h0 hk hm rfl
      have hlen : (x.cut blank (k + 1)).length = min (k + 1) x.len := Cell.cut_length _ _
      have hmem := write_length h₁
      obtain ⟨mem', h₂, hroom, hfull⟩ := ih (k + 1 - x.len) ⟨o.w + (x.cut blank (k + 1)).length, mem₁, arg⟩ fs rest hfs
        (by dsimp only; omega) (by dsimp only; omega) (by dsimp only; omega)
      dsimp only at h₂ hroom hfull
      have hrest : (cut blank (k + 1 - x.len) fs).length ≤ k + 1 - x.len := by
        rw [cut_length]
        exact Nat.min_le_left _ _
      rw [write_write h₁ (by omega)] at h₂
      refine ⟨mem', h₂, ?_, ?_⟩
      · rw [text_cons, List.length_append, Cell.text_length]
        intro hlt fuel p
        rw [happ, List.length_cons, ← Nat.add_assoc, hturn, hroom (by omega)]
        congr 2
        omega
      · rw [text_cons, List.length_append, Cell.text_length]
        intro hle
        obtain ⟨arg', hfull⟩ := hfull (by omega)
        refine ⟨arg', fun fuel p hf hp => ?_⟩
        rw [List.length_cons] at hf
        obtain ⟨fuel, rfl⟩ : ∃ n, fuel = n + 1 := ⟨fuel - 1, by omega⟩
        rw [happ, hturn, hfull fuel p (by omega) hp]
        congr 2
        omega

/-! ## `vsnprint` -/

/-- The text and its NUL are what was written. -/
structure Stored (mem : List UInt8) (dst : Int) (t : List UInt8) (o : Out) : Prop where
  w : o.w = dst + t.length
  mem : write mem dst (t ++ [0]) = .ok o.mem

theorem format_length (f : List Item) : f.length ≤ (format f).length := by
  induction f with
  | nil => exact Nat.le_refl 0
  | cons i f ih =>
    have hi : 1 ≤ i.chars.length := by
      cases i with
      | lit c => exact Nat.le_refl 1
      | dir mods verb => exact Nat.succ_le_succ (Nat.zero_le _)
    unfold format at ih ⊢
    rw [List.flatMap_cons, List.length_append, List.length_cons]
    omega

/-- What the loop leaves gets its NUL. -/
theorem vsnprint_stored {mem mem' fmt t : List UInt8} {n : Nat} {arg arg' : List Arg} (h0 : 0 ≤ dst) (hm : dst + n ≤ mem.length)
    (ht : t.length < n) (hmem : write mem dst t = .ok mem')
    (h : turns err (dst + n) (fmt.length + 8) fmt ⟨dst, mem, arg⟩ = .ok ⟨dst + t.length, mem', arg'⟩) :
    Returns (vsnprint err mem dst n fmt arg) fun o => Stored mem dst t o ∧ o.arg = arg' := by
  have hlen := write_length hmem
  obtain ⟨mem'', hnul⟩ : ∃ mem'', write mem' (dst + t.length) [0] = .ok mem'' :=
    write_in (by omega) (by rw [List.length_singleton]; omega)
  unfold vsnprint vseprint
  rw [h, ok_bind]
  dsimp only
  rw [if_pos (by omega), hnul]
  refine ⟨_, rfl, ⟨rfl, ?_⟩, rfl⟩
  rw [← write_write hmem (by simp only [List.length_singleton]; omega), hnul]

/-- The cells of the format are stored, as far as there is room, and their arguments taken. -/
theorem vsnprint_format {mem : List UInt8} {n : Nat} {f : List Item} {fs : List (Cell UInt8)} {arg rest : List Arg}
    (h : cells err f arg = some (fs, rest)) (hn : 1 ≤ n) (h0 : 0 ≤ dst) (hm : dst + n ≤ mem.length) :
    Returns (vsnprint err mem dst n (format f ++ [0]) arg) fun o =>
      Stored mem dst (cut blank (n - 1) fs) o ∧ ((text blank fs).length < n - 1 → o.arg = rest) := by
  have hlen : (cut blank (n - 1) fs).length < n := by
    rw [cut_length]
    omega
  have hfuel := format_length f
  have hf : (format f ++ [0]).length = (format f).length + 1 := by rw [List.length_append, List.length_singleton]
  obtain ⟨mem', hmem, hroom, hfull⟩ := @turns_format err (dst + n) f (n - 1) ⟨dst, mem, arg⟩ fs rest h h0 (by dsimp only; omega) hm
  by_cases hlt : (text blank fs).length < n - 1
  · have hend : turns err (dst + n) ((format f ++ [0]).length + 8) (format f ++ [0]) ⟨dst, mem, arg⟩ =
        .ok ⟨dst + (cut blank (n - 1) fs).length, mem', rest⟩ := by
      have hsum : (format f ++ [0]).length + 8 = (format f).length - f.length + 8 + 1 + f.length := by omega
      rw [cut_eq_text (Nat.le_of_lt hlt), hsum, hroom hlt]
      rfl
    exact (vsnprint_stored h0 hm hlen hmem hend).mono fun o ho => ⟨ho.1, fun _ => ho.2⟩
  · obtain ⟨arg', hfull⟩ := hfull (by omega)
    have hend := hfull ((format f ++ [0]).length + 8) [0] (by omega) (List.cons_ne_nil _ _)
    have hk : (cut blank (n - 1) fs).length = n - 1 := by
      rw [cut_length]
      omega
    rw [← hk] at hend
    exact (vsnprint_stored h0 hm hlen hmem hend).mono fun o ho => ⟨ho.1, fun hlt' => absurd hlt' hlt⟩

end

end Libtask.Print
