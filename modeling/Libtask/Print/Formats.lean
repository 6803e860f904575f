/-
  Libtask.Print.Formats — what any format string prints.

  `parse` reads a format string into items: it is inverse to `format`, puts `*verb*` for an unknown
  verb and all that is behind it, and has no answer where the string ends inside a directive.
  `vsnprint` of a string prints the cells of what is read (`reads_formats`), and `vfprint` sends them
  (`sends_text`), whose strings have no NUL.
-/

import Libtask.Print.Ends
import Libtask.Print.Relations

namespace Libtask.Print

open Libtask.Lib Libtask.Lib.Bytes Libtask.Lib.Numerals Libtask.Lib.Cells

/-! ## Reading a format -/

def Mod.all : List Mod := .minus :: .l :: .u :: (List.finRange 10).map Mod.digit

def Mod.of (c : UInt8) : Option Mod := Mod.all.find? fun m => m.char = c

def Verb.all : List Verb := [.d, .o, .p, .x, .c, .s, .r]

def Verb.of (c : UInt8) : Option Verb := Verb.all.find? fun verb => verb.char = c

/-- The items of a format string that goes on inside a directive, behind modifiers, or outside. -/
def parse : Option (List Mod) → List UInt8 → Option (List Item)
  | none, [] => some []
  | some _, [] => none
  | none, c :: p =>
    if h : c = '%'.toUInt8 then parse (some []) p
    else if h0 : c = 0 then some []
    else (parse none p).map (.lit ⟨c, h0, h⟩ :: ·)
  | some mods, c :: p =>
    match Mod.of c, Verb.of c with
    | some m, _ => parse (some (mods ++ [m])) p
    | none, some verb => (parse none p).map (.dir mods verb :: ·)
    | none, none => some verbs

theorem Mod.of_char (m : Mod) : Mod.of m.char = some m := by
  cases m with
  | minus => decide
  | digit d => exact (by decide : ∀ d : Fin 10, Mod.of (Mod.digit d).char = some (.digit d)) d
  | l => decide
  | u => decide

theorem Verb.of_char (verb : Verb) : Mod.of verb.char = none ∧ Verb.of verb.char = some verb := by
  cases verb <;> decide

theorem of_unknown {c : UInt8} (h : switch c = .default) : Mod.of c = none ∧ Verb.of c = none := by
  constructor
  · refine List.find?_eq_none.mpr fun m _ hm => ?_
    obtain rfl : m.char = c := of_decide_eq_true hm
    have hs := (switch_mod m).2
    rw [h] at hs
    cases m <;> cases hs
  · refine List.find?_eq_none.mpr fun verb _ hv => ?_
    obtain rfl : verb.char = c := of_decide_eq_true hv
    have hs := (switch_verb verb).2
    rw [h] at hs
    cases verb <;> cases hs

theorem parse_mods (mods : List Mod) : ∀ (ms : List Mod) (p : List UInt8),
    parse (some ms) (mods.map Mod.char ++ p) = parse (some (ms ++ mods)) p := by
  induction mods with
  | nil => simp
  | cons m mods ih =>
    intro ms p
    rw [List.map_cons, List.cons_append, parse, Mod.of_char]
    dsimp only
    rw [ih, List.append_assoc]
    rfl

theorem parse_percent (p : List UInt8) : parse none ('%'.toUInt8 :: p) = parse (some []) p := by
  rw [parse, dif_pos rfl]

/-- A format is read item by item. -/
theorem parse_format (f : List Item) (p : List UInt8) : parse none (format f ++ p) = (parse none p).map (f ++ ·) := by
  induction f with
  | nil => simp [format]
  | cons i f ih =>
    have happ : format (i :: f) ++ p = i.chars ++ (format f ++ p) := by
      unfold format
      rw [List.flatMap_cons, List.append_assoc]
    rw [happ]
    cases i with
    | lit c =>
      show parse none (c.c :: (format f ++ p)) = _
      rw [parse, dif_neg c.noverb, dif_neg c.nonul, ih, Option.map_map]
      rfl
    | dir mods verb =>
      have hchars : Item.chars (.dir mods verb) ++ (format f ++ p) =
          '%'.toUInt8 :: (mods.map Mod.char ++ verb.char :: (format f ++ p)) := by
        simp [Item.chars]
      obtain ⟨h1, h2⟩ := Verb.of_char verb
      rw [hchars, parse_percent, parse_mods, parse, h1, h2]
      dsimp only
      rw [ih, Option.map_map, List.nil_append]
      rfl

theorem parse_open (mods : List Mod) : parse none ('%'.toUInt8 :: mods.map Mod.char) = none := by
  rw [parse_percent, ← List.append_nil (mods.map Mod.char), parse_mods, parse]

theorem parse_unknown {c : UInt8} (h : switch c = .default) (mods : List Mod) (q : List UInt8) :
    parse none ('%'.toUInt8 :: (mods.map Mod.char ++ c :: q)) = some verbs := by
  obtain ⟨h1, h2⟩ := of_unknown h
  rw [parse_percent, parse_mods, parse, h1, h2]

/-! ## Printing it -/

section
variable {err mem fmt p : List UInt8} {dst edst : Int} {o : Out} {n : Nat} {arg rest : List Arg} {f g : List Item}
  {fs : List (Cell UInt8)}

/-- With more fuel than items the loop comes to the end of its format. -/
theorem turns_fuel {k a b : Nat} (h : cells err f o.arg ≠ none) (h0 : 0 ≤ o.w) (hk : o.w + k + 1 = edst)
    (hm : edst ≤ o.mem.length) (ha : f.length < a) (hb : f.length < b) :
    turns err edst a (format f ++ [0]) o = turns err edst b (format f ++ [0]) o := by
  obtain ⟨⟨fs, rest⟩, h⟩ := Option.ne_none_iff_exists'.mp h
  obtain ⟨mem', -, hroom, hfull⟩ := turns_format f k o fs rest h h0 hk hm
  by_cases hlt : (text blank fs).length < k
  · have hend : ∀ a, f.length < a → turns err edst a (format f ++ [0]) o = .ok ⟨o.w + (text blank fs).length, mem', rest⟩ := by
      intro a ha
      obtain ⟨a, rfl⟩ : ∃ m, a = m + 1 + f.length := ⟨a - 1 - f.length, by omega⟩
      rw [hroom hlt]
      rfl
    rw [hend a ha, hend b hb]
  · obtain ⟨arg', hfull⟩ := hfull (by omega)
    rw [hfull a [0] ha (List.cons_ne_nil _ _), hfull b [0] hb (List.cons_ne_nil _ _)]

theorem cells_split : ∀ {f : List Item} {arg : List Arg} {fs : List (Cell UInt8)}, cells err (f ++ g) arg = some (fs, rest) →
    ∃ fs₁ arg₁ fs₂, cells err f arg = some (fs₁, arg₁) ∧ cells err g arg₁ = some (fs₂, rest) ∧ fs = fs₁ ++ fs₂ := by
  intro f
  induction f with
  | nil => exact fun {arg fs} h => ⟨[], arg, fs, rfl, h, rfl⟩
  | cons i f ih =>
    intro arg fs h
    obtain ⟨x, arg', fs', hx, hfs, rfl⟩ := cells_cons h
    obtain ⟨fs₁, arg₁, fs₂, h₁, h₂, rfl⟩ := ih hfs
    exact ⟨x :: fs₁, arg₁, fs₂, cells_cons_eq hx h₁, h₂, rfl⟩

/-- A format with an unknown verb prints as one with `*verb*` there and nothing behind. -/
theorem turns_verbs {c : UInt8} (hc : c ≠ 0) (hd : switch c = .default) (mods : List Mod) (q : List UInt8) (hn : 1 ≤ n)
    (h : cells err (f ++ verbs) arg ≠ none) (h0 : 0 ≤ dst) (hm : dst + n ≤ mem.length) {a b : Nat} (ha : f.length + 8 < a)
    (hb : f.length + 6 < b) :
    turns err (dst + n) a (format f ++ '%'.toUInt8 :: (mods.map Mod.char ++ c :: (q ++ [0]))) ⟨dst, mem, arg⟩ =
      turns err (dst + n) b (format f ++ (format verbs ++ [0])) ⟨dst, mem, arg⟩ := by
  obtain ⟨⟨fs, rest⟩, h⟩ := Option.ne_none_iff_exists'.mp h
  obtain ⟨fs₁, arg₁, fs₂, h₁, h₂, -⟩ := cells_split h
  have hedst : dst + (n - 1 : Nat) + 1 = dst + n := by omega
  obtain ⟨mem', hmem, hroom, hfull⟩ := @turns_format err (dst + n) f (n - 1) ⟨dst, mem, arg⟩ fs₁ arg₁ h₁ h0 hedst hm
  by_cases hlt : (text blank fs₁).length < n - 1
  · obtain ⟨a, rfl⟩ : ∃ m, a = m + 1 + f.length := ⟨a - 1 - f.length, by omega⟩
    obtain ⟨b, rfl⟩ : ∃ m, b = m + f.length := ⟨b - f.length, by omega⟩
    have hlen := write_length hmem
    dsimp only at hlen
    have hw : dst + ((text blank fs₁).length : Int) < dst + n - 1 := by omega
    rw [hroom hlt, hroom hlt, turns_unknown hw hc hd, show Xverb.tail = format verbs by decide]
    refine turns_fuel (k := n - 1 - (text blank fs₁).length) (by rw [h₂]; nofun) ?_ ?_ ?_ ?_ ?_
    · dsimp only
      omega
    · dsimp only
      omega
    · dsimp only
      omega
    · show 6 < a
      omega
    · show 6 < b
      omega
  · obtain ⟨arg', hfull⟩ := hfull (by omega)
    rw [hfull a _ (by omega) (List.cons_ne_nil _ _), hfull b _ (by omega) (List.append_ne_nil_of_right_ne_nil _ (List.cons_ne_nil _ _))]

theorem vsnprint_verbs {c : UInt8} (hc : c ≠ 0) (hd : switch c = .default) (mods : List Mod) (q : List UInt8) (hn : 1 ≤ n)
    (h : cells err (f ++ verbs) arg ≠ none) (h0 : 0 ≤ dst) (hm : dst + n ≤ mem.length) :
    vsnprint err mem dst n (format f ++ '%'.toUInt8 :: (mods.map Mod.char ++ c :: q) ++ [0]) arg =
      vsnprint err mem dst n (format (f ++ verbs) ++ [0]) arg := by
  have hlen := format_length f
  have hfmt : format f ++ '%'.toUInt8 :: (mods.map Mod.char ++ c :: q) ++ [0] =
      format f ++ '%'.toUInt8 :: (mods.map Mod.char ++ c :: (q ++ [0])) := by simp
  have hg : format (f ++ verbs) ++ [0] = format f ++ (format verbs ++ [0]) := by
    unfold format
    rw [List.flatMap_append, List.append_assoc]
  unfold vsnprint vseprint
  rw [hfmt, hg, turns_verbs hc hd mods q hn h h0 hm]
  · simp only [List.length_append, List.length_cons]
    omega
  · simp only [List.length_append, show (format verbs).length = 6 by decide]
    omega

/-- A format string prints the cells of what is read, as far as there is room. -/
theorem vsnprint_parsed (h0 : 0 ∉ fmt) (hg : parse none fmt = some g) (h : cells err g arg = some (fs, rest)) (hn : 1 ≤ n)
    (hdst : 0 ≤ dst) (hm : dst + n ≤ mem.length) : Returns (vsnprint err mem dst n (fmt ++ [0]) arg) fun o =>
      Stored mem dst (cut blank (n - 1) fs) o ∧ ((text blank fs).length < n - 1 → o.arg = rest) := by
  obtain ⟨f, t, rfl, ht⟩ := format_cases fmt.length (Nat.le_refl _) h0
  rw [parse_format] at hg
  rcases ht with rfl | ⟨mods, rfl⟩ | ⟨mods, c, q, rfl, hc, hd⟩
  · obtain rfl : f ++ [] = g := Option.some.inj hg
    rw [List.append_nil] at h ⊢
    exact vsnprint_format h hn hdst hm
  · rw [parse_open] at hg
    cases hg
  · rw [parse_unknown hd] at hg
    obtain rfl : f ++ verbs = g := Option.some.inj hg
    rw [vsnprint_verbs hc hd mods q hn (by rw [h]; nofun) hdst hm]
    exact vsnprint_format h hn hdst hm

/-! ## Without a NUL -/

theorem cstr_nonul (h : Prints p) : 0 ∉ cstr p := by
  intro hmem
  obtain ⟨i, hi, he⟩ := List.getElem_of_mem hmem
  have hlen := cstr_length h
  have hle : int (p.idxOf 0 : Nat) ≤ (p.idxOf 0 : Nat) := by
    have h0 := h.2
    unfold int at h0 ⊢
    rw [Int.bmod_def] at h0 ⊢
    split <;> omega
  unfold cstr at hi he
  rw [List.getElem_take] at he
  rw [List.length_take] at hi
  have hlt : i < p.findIdx (· == 0) := by
    show i < p.idxOf 0
    omega
  have hne := List.not_of_lt_findIdx hlt
  simp [he] at hne

theorem verb_nonul {verb : Verb} {fl : Flags} {str : List UInt8} (h : verb.str err fl arg = some (str, rest)) : 0 ∉ str := by
  have hnum : ∀ {base a}, 2 ≤ base → base ≤ 16 → 0 ∉ number base fl a := fun hb hb' h =>
    absurd (number_mem hb hb' h) (by decide)
  cases verb with
  | s =>
    obtain ⟨t, -, hp, rfl⟩ := Verb.str_s h
    exact cstr_nonul hp
  | r =>
    rw [Verb.str_r] at h
    split at h
    · rename_i hp
      obtain ⟨rfl, -⟩ := Prod.mk.inj (Option.some.inj h)
      exact cstr_nonul hp
    · cases h
  | c =>
    obtain ⟨a, -, hstr⟩ := Verb.str_word h (by decide) (by decide)
    obtain ⟨rfl, -⟩ := Prod.mk.inj (Option.some.inj hstr)
    exact cstr_nonul (cstring_prints (cstring_of_short (List.mem_cons_of_mem _ List.mem_cons_self) (by simp)))
  | _ =>
    obtain ⟨a, -, hstr⟩ := Verb.str_word h (by decide) (by decide)
    obtain ⟨rfl, -⟩ := Prod.mk.inj (Option.some.inj hstr)
    exact hnum (by decide) (by decide)

theorem cells_nonul : ∀ {f : List Item} {arg : List Arg} {fs : List (Cell UInt8)}, cells err f arg = some (fs, rest) →
    ∀ x ∈ fs, 0 ∉ x.str := by
  intro f
  induction f with
  | nil =>
    intro arg fs h
    obtain ⟨rfl, -⟩ := Prod.mk.inj (Option.some.inj h)
    nofun
  | cons i f ih =>
    intro arg fs h
    obtain ⟨x, arg', fs', hx, hfs, rfl⟩ := cells_cons h
    intro y hy
    rcases List.mem_cons.mp hy with rfl | hy
    · cases i with
      | lit c =>
        obtain ⟨rfl, -⟩ := Prod.mk.inj (Option.some.inj hx)
        simpa using Ne.symm c.nonul
      | dir mods verb =>
        obtain ⟨⟨str, arg''⟩, hstr, hx⟩ := Option.bind_eq_some_iff.mp hx
        obtain ⟨rfl, -⟩ := Prod.mk.inj (Option.some.inj hx)
        exact verb_nonul hstr
    · exact ih hfs y hy

theorem cut_nonul (h : cells err f arg = some (fs, rest)) (k : Nat) : 0 ∉ cut blank k fs := by
  intro hmem
  rcases mem_cut hmem with hb | ⟨x, hx, hc⟩
  · exact absurd hb (by decide)
  · exact cells_nonul h x hx hc

/-! ## Format strings -/

/-- Every format string but one that ends inside a directive is read, a spelled format as itself, and
    one with an unknown verb as far as that, with `*verb*` in its place. In any buffer that is not
    empty the cells of what was read are stored, cut to it. -/
theorem reads_formats (h0 : 0 ∉ fmt) :
    (parse none fmt = none ↔ ∃ (f : List Item) (mods : List Mod), fmt = format f ++ '%'.toUInt8 :: mods.map Mod.char) ∧
    (∀ f, fmt = format f → parse none fmt = some f) ∧
    (∀ (f : List Item) (mods : List Mod) (c : UInt8) (q : List UInt8), fmt = format f ++ '%'.toUInt8 :: (mods.map Mod.char ++ c :: q) →
      switch c = .default → parse none fmt = some (f ++ verbs)) ∧
    ∀ (g : List Item) (err mem : List UInt8) (dst : Int) (n : Nat) (arg rest : List Arg) (fs : List (Cell UInt8)),
      parse none fmt = some g → cells err g arg = some (fs, rest) → 1 ≤ n → 0 ≤ dst → dst + n ≤ mem.length →
      Returns (vsnprint err mem dst n (fmt ++ [0]) arg) fun o =>
        Stored mem dst (cut blank (n - 1) fs) o ∧ ((text blank fs).length < n - 1 → o.arg = rest) := by
  refine ⟨⟨fun hnone => ?_, ?_⟩, ?_, ?_, fun g err mem dst n arg rest fs => vsnprint_parsed h0⟩
  · obtain ⟨f, t, rfl, ht⟩ := format_cases fmt.length (Nat.le_refl _) h0
    rw [parse_format, Option.map_eq_none_iff] at hnone
    rcases ht with rfl | ⟨mods, rfl⟩ | ⟨mods, c, q, rfl, hc, hd⟩
    · cases hnone
    · exact ⟨f, mods, rfl⟩
    · rw [parse_unknown hd] at hnone
      cases hnone
  · rintro ⟨f, mods, rfl⟩
    rw [parse_format, parse_open]
    rfl
  · rintro f rfl
    have hparse := parse_format f []
    rw [List.append_nil] at hparse
    rw [hparse, parse, Option.map_some, List.append_nil]
  · rintro f mods c q rfl hd
    rw [parse_format, parse_unknown hd]
    rfl

end

/-- `"a%-z%s"` is `"a*verb*"`, and takes no argument. -/
theorem reads_formats_unknown : Returns (vsnprint [0] (List.replicate 8 1) 0 6 (chars ['a', '%', '-', 'z', '%', 's'] ++ [0]) [])
    (Stored (List.replicate 8 1) 0 (chars ['a', '*', 'v', 'e', 'r'])) := by
  have h0 : 0 ∉ chars ['a', '%', '-', 'z', '%', 's'] := by decide
  obtain ⟨-, -, hunknown, hstored⟩ := reads_formats h0
  have hparse := hunknown [.lit ⟨'a'.toUInt8, by decide, by decide⟩] [.minus] 'z'.toUInt8 (chars ['%', 's']) (by decide) (by decide)
  have hcells : cells [0] ([.lit ⟨'a'.toUInt8, by decide, by decide⟩] ++ verbs) [] =
      some ((chars ['a', '*', 'v', 'e', 'r', 'b', '*']).map fun c => ⟨true, 0, [c]⟩, []) := by decide +kernel
  have hcut : cut blank (6 - 1) ((chars ['a', '*', 'v', 'e', 'r', 'b', '*']).map fun c => ⟨true, 0, [c]⟩) =
      chars ['a', '*', 'v', 'e', 'r'] := by decide +kernel
  exact (hstored _ [0] (List.replicate 8 1) 0 6 [] [] _ hparse hcells (by decide) (by decide) (by decide)).mono
    fun o ho => hcut ▸ ho.1

section
variable {err fmt : List UInt8} {arg rest : List Arg} {g : List Item} {fs : List (Cell UInt8)}

/-- `vfprint` sends what of its format there is room for in 256 bytes, whatever these were. -/
theorem sends_text {buf : List UInt8} (h0 : 0 ∉ fmt) (hg : parse none fmt = some g) (h : cells err g arg = some (fs, rest))
    (hbuf : buf.length = 256) : vfprint err buf (fmt ++ [0]) arg = .ok (cut blank 255 fs) ∧
      ((text blank fs).length ≤ 255 → cut blank 255 fs = text blank fs) := by
  refine ⟨?_, cut_eq_text⟩
  have hreturns : Returns (vsnprint err buf 0 256 (fmt ++ [0]) arg) fun o =>
      Stored buf 0 (cut blank (256 - 1) fs) o ∧ ((text blank fs).length < 256 - 1 → o.arg = rest) :=
    vsnprint_parsed h0 hg h (by decide) (Int.le_refl 0) (by omega)
  obtain ⟨o, ho, hs, -⟩ := hreturns
  have hstored := hs.mem
  unfold write at hstored
  split at hstored
  · have hmem := (Except.ok.inj hstored).symm
    rw [Int.toNat_zero, List.take_zero, List.nil_append, List.append_assoc] at hmem
    have hidx : o.mem.idxOf 0 = (cut blank 255 fs).length := by
      rw [hmem, List.idxOf_append_of_notMem (cut_nonul h 255)]
      rfl
    have hin : 0 ∈ o.mem := by
      rw [hmem]
      exact List.mem_append_right _ List.mem_cons_self
    have hlen : strlen o.mem = .ok (cut blank 255 fs).length := by
      unfold strlen
      rw [if_pos hin, hidx]
    have ho : vseprint err 256 buf 0 (fmt ++ [0]) arg = .ok o := ho
    unfold vfprint
    rw [ho, ok_bind, hlen, ok_bind, hmem, List.take_left' rfl]
    rfl
  · cases hstored

end

/-- `"%4d|"` -/
theorem sends_text_four : vfprint [0] (List.replicate 256 7) (chars ['%', '4', 'd', '|'] ++ [0]) [.word 42] =
    .ok (chars [' ', ' ', '4', '2', '|']) := by
  have hcells : cells [0] [.dir [.digit 4] .d, .lit ⟨'|'.toUInt8, by decide, by decide⟩] [.word 42] =
      some ([⟨false, 4, chars ['4', '2']⟩, ⟨true, 0, chars ['|']⟩], []) := by decide +kernel
  have hcut : cut blank 255 [⟨false, 4, chars ['4', '2']⟩, ⟨true, 0, chars ['|']⟩] = chars [' ', ' ', '4', '2', '|'] := by
    decide +kernel
  have hparse : parse none (chars ['%', '4', 'd', '|']) = some [.dir [.digit 4] .d, .lit ⟨'|'.toUInt8, by decide, by decide⟩] := by
    decide +kernel
  rw [(sends_text (by decide) hparse hcells List.length_replicate).1, hcut]

end Libtask.Print
