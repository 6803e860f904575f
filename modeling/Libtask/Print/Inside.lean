/-
  Libtask.Print.Inside — a formatted write stays inside its buffer.

  `printstr_ok`: with room for a byte, `printstr` leaves room for one, whatever the width is: one
  that overflowed, or whose negation does, is a width like any other. `directive_ok` and `turns_ok`
  carry this through the loops (`Inside`), so that the NUL has its place (`stays_inside`).
-/

import Libtask.Print.Items

namespace Libtask.Print

open Libtask.Lib Libtask.Lib.Bytes

/-! ## `int` -/

theorem int_range (x : Int) : -2 ^ 31 ≤ int x ∧ int x < 2 ^ 31 := by
  unfold int
  rw [Int.bmod_def]
  omega

theorem int_eq {x : Int} (h0 : -2 ^ 31 ≤ x) (h : x < 2 ^ 31) : int x = x := by
  unfold int
  rw [Int.bmod_def]
  omega

theorem size_t_eq {x : Int} (h0 : 0 ≤ x) (h : x < 2 ^ 31) : size_t x = x.toNat := by
  unfold size_t
  rw [Int.emod_eq_of_lt h0 (by omega)]

/-! ## `printstr` -/

/-- A string that is shorter than 2^31. -/
def CString (s : List UInt8) : Prop := 0 ∈ s ∧ s.idxOf 0 < 2 ^ 31

section
variable {mem s : List UInt8} {dst edst size room l n : Int}

theorem clip_spec (hr : 0 < room) (hl : 0 ≤ l) (hl' : l < 2 ^ 31) (hs : size < 2 ^ 31) :
    ∃ n k, clip room l size = (n, k) ∧ 0 ≤ k ∧ k ≤ n ∧ k ≤ l ∧ n < room ∧ n < 2 ^ 31 := by
  have hint : room ≤ 2 ^ 31 → int (room - 1) = room - 1 := fun h => int_eq (by omega) (by omega)
  refine ⟨_, _, rfl, ?_⟩
  split <;> split <;> split <;> omega

theorem blanks_ok (h0 : 0 ≤ n) (hn : n < 2 ^ 31) {lo hi : Int} (hlo0 : 0 ≤ lo) (hlo : lo ≤ dst) (hhi : dst + n ≤ hi)
    (hm : hi ≤ mem.length) : Returns (blanks mem dst n) (Within lo hi mem) := by
  unfold blanks
  split
  · rw [size_t_eq h0 hn]
    exact (memset_ok hlo0 hlo (by omega) hm).mono fun _ h => h.1
  · exact returns_ok within_refl

theorem printstr_ok (h0 : 0 ≤ dst) (hlt : dst < edst) (hm : edst ≤ mem.length) (hs : CString s) (hsize : size < 2 ^ 31) :
    Returns (printstr mem dst edst s size) fun r => dst ≤ r.1 ∧ r.1 < edst ∧ Within dst edst mem r.2 := by
  have hint := int_range (-size)
  have hlen := idxOf_lt hs.1
  have hs31 := hs.2
  unfold printstr
  rw [if_neg (by omega : ¬ edst ≤ dst)]
  refine returns_bind (strlen_ok hs.1) fun k hk => ?_
  subst hk
  rw [int_eq (x := (s.idxOf 0 : Nat)) (by omega) (by omega)]
  have hwidth : (if size < 0 then int (-size) else size) < 2 ^ 31 := by split <;> omega
  have hpos : 0 < edst - dst := by omega
  have hlong : ((s.idxOf 0 : Nat) : Int) < 2 ^ 31 := by omega
  obtain ⟨n, l, hclip, hl0, hln, hl, hn, hn31⟩ := clip_spec hpos (Int.natCast_nonneg _) hlong hwidth
  have hdiff : int (n - l) = n - l := int_eq (by omega) (by omega)
  have hsize : size_t l = l.toNat := size_t_eq hl0 (by omega)
  rw [hclip]
  dsimp only
  rw [hdiff, hsize]
  have hw : dst ≤ dst + n ∧ dst + n < edst := ⟨by omega, by omega⟩
  split
  · refine returns_bind (memmove_ok (by omega) h0 (by omega) (by omega) hm) fun mem₁ h₁ => ?_
    have hm₁ : edst ≤ mem₁.length := by rw [h₁.1.length]; exact hm
    refine returns_bind (blanks_ok (by omega) (by omega) h0 (by omega) (by omega) hm₁) fun mem₂ h₂ => ?_
    exact returns_pure ⟨hw.1, hw.2, h₁.1.trans h₂⟩
  · refine returns_bind (blanks_ok (by omega) (by omega) h0 (by omega) (by omega) hm) fun mem₁ h₁ => ?_
    have hm₁ : edst ≤ mem₁.length := by rw [h₁.length]; exact hm
    refine returns_bind (memmove_ok (by omega) h0 (by omega) (by omega) hm₁) fun mem₂ h₂ => ?_
    exact returns_pure ⟨hw.1, hw.2, h₁.trans h₂.1⟩

end

/-! ## Numbers -/

section
variable {s : List UInt8} {base : Nat}

theorem cstring_of_short (h : 0 ∈ s) (hs : s.length ≤ 30) : CString s := by
  have hlt := idxOf_lt h
  exact ⟨h, by omega⟩

theorem number_cstring (hb : 8 ≤ base) (fl : Flags) (a : BitVec 64) : CString (number base fl a ++ [0]) := by
  have hlen := magnitude_length hb fl a
  refine cstring_of_short (List.mem_append_right _ List.mem_cons_self) ?_
  unfold number
  simp only [List.length_append, List.length_singleton]
  split <;> split <;> simp only [List.length_cons, List.length_nil] <;> omega

/-- The 30 bytes of `buf` are enough for any number. -/
theorem num_ok (hb : 8 ≤ base) (hb' : base ≤ 16) (fl : Flags) (a : BitVec 64) : Returns (num base fl a) CString :=
  ⟨_, num_eq hb hb' fl a, number_cstring hb fl a⟩

end

/-! ## Formats and their arguments -/

/-- The format does not end inside a directive (`inside`: it starts in one), and each directive has its
    argument, a string if it wants one. Behind an unknown verb anything may come: it is not read. -/
def Matches : (inside : Bool) → (fmt : List UInt8) → List Arg → Prop
  | false, [], _ => True
  | true, [], _ => False
  | false, c :: fmt, arg => Matches (c = '%'.toUInt8) fmt arg
  | true, c :: fmt, arg =>
    match switch c with
    | .minus | .digit | .l | .u => Matches true fmt arg
    | .num _ | .c => ∃ a arg', arg = .word a :: arg' ∧ Matches false fmt arg'
    | .s => ∃ s arg', arg = .str s :: arg' ∧ CString s ∧ Matches false fmt arg'
    | .r => Matches false fmt arg
    | .default => True

/-- No NUL, and the arguments are right. -/
structure Fmt (inside : Bool) (fmt : List UInt8) (arg : List Arg) : Prop where
  nonul : 0 ∉ fmt
  args : Matches inside fmt arg

/-- How many turns the outer loop takes at most: a directive may be replaced by `Xverb`. -/
def bound (fmt : List UInt8) : Nat := fmt.length + if '%'.toUInt8 ∈ fmt then 7 else 0

theorem Fmt.tail {inside : Bool} {c : UInt8} {fmt : List UInt8} {arg arg' : List Arg} (h : Fmt inside (c :: fmt) arg)
    {inside' : Bool} (hm : Matches inside' fmt arg') : Fmt inside' fmt arg' :=
  ⟨fun h0 => h.nonul (List.mem_cons_of_mem c h0), hm⟩

theorem matches_plain {fmt : List UInt8} {arg : List Arg} (h : '%'.toUInt8 ∉ fmt) : Matches false fmt arg := by
  induction fmt with
  | nil => trivial
  | cons c fmt ih =>
    rw [List.mem_cons, not_or] at h
    unfold Matches
    rw [decide_eq_false (Ne.symm h.1)]
    exact ih h.2

theorem bound_cons {c : UInt8} (fmt : List UInt8) : bound fmt < bound (c :: fmt) := by
  unfold bound
  rw [List.length_cons]
  by_cases h : '%'.toUInt8 ∈ fmt
  · rw [if_pos h, if_pos (List.mem_cons_of_mem c h)]
    omega
  · rw [if_neg h]
    omega

theorem bound_le (fmt : List UInt8) : bound fmt ≤ fmt.length + 7 := by
  unfold bound
  split <;> omega

/-! ## `vseprint` -/

/-- `w` is in the buffer and at its last byte at most, and no byte outside of the buffer changed. -/
structure Inside (dst edst : Int) (mem : List UInt8) (o : Out) : Prop where
  start : dst ≤ o.w
  room : o.w < edst
  within : Within dst edst mem o.mem

section
variable {dst edst : Int} {mem err s fmt : List UInt8} {o : Out} {size sign : Int}

theorem Out.printstr_ok (h0 : 0 ≤ dst) (hm : edst ≤ mem.length) (ho : Inside dst edst mem o) (hs : CString s) :
    Returns (o.printstr edst s size sign) fun o' => Inside dst edst mem o' ∧ o'.arg = o.arg := by
  have hstart := ho.start
  refine returns_bind (Print.printstr_ok (by omega) ho.room (by rw [ho.within.length]; exact hm) hs (int_range (size * sign)).2)
    fun r hr => ?_
  obtain ⟨h1, h2, h3⟩ := hr
  exact returns_pure ⟨⟨Int.le_trans hstart h1, h2, ho.within.trans (h3.mono hstart)⟩, rfl⟩

theorem switch_num {c : UInt8} {base : Nat} (h : switch c = .num base) : 8 ≤ base ∧ base ≤ 16 := by
  unfold switch at h
  split at h <;> first | cases h; done | (obtain rfl := Case.num.inj h; decide)

theorem xverb_fmt (arg : List Arg) : Fmt false Xverb.tail arg := ⟨by decide, matches_plain (by decide)⟩

theorem bound_xverb : bound Xverb.tail = 6 := by decide

/-- A directive takes its argument, and leaves what is behind it or `Xverb`. -/
theorem directive_ok (h0 : 0 ≤ dst) (hm : edst ≤ mem.length) (he : CString err) : ∀ (fmt : List UInt8) (fl : Flags) (size sign : Int)
    (o : Out), Fmt true fmt o.arg → Inside dst edst mem o →
    Returns (directive err edst (fmt ++ [0]) fl size sign o) fun r =>
      ∃ rest, r.1.tail = rest ++ [0] ∧ Fmt false rest r.2.arg ∧ bound rest ≤ fmt.length + 6 ∧ Inside dst edst mem r.2 := by
  intro fmt
  induction fmt with
  | nil => exact fun _ _ _ _ hf => hf.args.elim
  | cons c fmt ih =>
    intro fl size sign o hf ho
    have hc : c ≠ 0 := fun h => hf.nonul (h ▸ List.mem_cons_self)
    have hlen : (c :: fmt).length = fmt.length + 1 := List.length_cons
    have hmatch := hf.args
    -- on to the next character
    have hnext : ∀ fl size sign, Matches true fmt o.arg → Returns (directive err edst (fmt ++ [0]) fl size sign o) fun r =>
        ∃ rest, r.1.tail = rest ++ [0] ∧ Fmt false rest r.2.arg ∧ bound rest ≤ (c :: fmt).length + 6 ∧ Inside dst edst mem r.2 :=
      fun fl size sign hm' => (ih fl size sign o (hf.tail hm') ho).mono fun r ⟨rest, h1, h2, h3, h4⟩ => ⟨rest, h1, h2, by omega, h4⟩
    -- the argument is printed
    have hprint : ∀ (s : List UInt8) (arg : List Arg), CString s → Matches false fmt arg →
        Returns (do pure (c :: fmt ++ [0], ← { o with arg }.printstr edst s size sign)) fun r =>
          ∃ rest, r.1.tail = rest ++ [0] ∧ Fmt false rest r.2.arg ∧ bound rest ≤ (c :: fmt).length + 6 ∧ Inside dst edst mem r.2 :=
      fun s arg hs hm' => returns_bind (Out.printstr_ok h0 hm (o := { o with arg }) ⟨ho.start, ho.room, ho.within⟩ hs) fun o' ho' => by
        have hle := bound_le fmt
        exact returns_pure ⟨fmt, rfl, hf.tail (ho'.2 ▸ hm'), by omega, ho'.1⟩
    show Returns (if c = 0 then _ else _) _
    rw [if_neg hc]
    unfold Matches at hmatch
    cases hsw : switch c with
    | minus => rw [hsw] at hmatch; exact hnext _ _ _ hmatch
    | digit => rw [hsw] at hmatch; exact hnext _ _ _ hmatch
    | l => rw [hsw] at hmatch; exact hnext _ _ _ hmatch
    | u => rw [hsw] at hmatch; exact hnext _ _ _ hmatch
    | num base =>
      rw [hsw] at hmatch
      obtain ⟨a, arg, harg, hm'⟩ := hmatch
      simp only [harg, vaword]
      refine returns_bind (returns_ok (Q := (· = (a, arg))) rfl) fun x hx => ?_
      subst hx
      exact returns_bind (num_ok (switch_num hsw).1 (switch_num hsw).2 fl a) fun s hs => hprint s arg hs hm'
    | c =>
      rw [hsw] at hmatch
      obtain ⟨a, arg, harg, hm'⟩ := hmatch
      simp only [harg, vaword]
      refine returns_bind (returns_ok (Q := (· = (a, arg))) rfl) fun x hx => ?_
      subst hx
      exact hprint _ arg (cstring_of_short (List.mem_cons_of_mem _ List.mem_cons_self) (by simp)) hm'
    | s =>
      rw [hsw] at hmatch
      obtain ⟨s, arg, harg, hs, hm'⟩ := hmatch
      simp only [harg, vastr]
      refine returns_bind (returns_ok (Q := (· = (s, arg))) rfl) fun x hx => ?_
      subst hx
      exact hprint s arg hs hm'
    | r =>
      rw [hsw] at hmatch
      exact hprint err o.arg he hmatch
    | default =>
      have hx := bound_xverb
      exact returns_ok ⟨Xverb.tail, rfl, xverb_fmt o.arg, by omega, ho⟩

theorem turns_ok (h0 : 0 ≤ dst) (hm : edst ≤ mem.length) (he : CString err) : ∀ (fuel : Nat) (fmt : List UInt8) (o : Out),
    bound fmt < fuel → Fmt false fmt o.arg → Inside dst edst mem o →
      Returns (turns err edst fuel (fmt ++ [0]) o) (Inside dst edst mem) := by
  intro fuel
  induction fuel with
  | zero => exact fun _ _ hf => absurd hf (Nat.not_lt_zero _)
  | succ fuel ih =>
    intro fmt o hb hf ho
    cases fmt with
    | nil => exact ⟨o, if_neg fun h => h.1 rfl, ho⟩
    | cons c fmt =>
      have hc : c ≠ 0 := fun h => hf.nonul (h ▸ List.mem_cons_self)
      have hmatch := hf.args
      have hcons := bound_cons (c := c) fmt
      show Returns (if c ≠ 0 ∧ o.w < edst - 1 then _ else _) _
      split
      · rename_i hw
        unfold Matches at hmatch
        split
        · rename_i hp
          rw [decide_eq_true hp] at hmatch
          refine returns_bind (directive_ok h0 hm he fmt _ 0 1 o (hf.tail hmatch) ho) fun r hr => ?_
          obtain ⟨rest, h1, h2, h3, h4⟩ := hr
          have hbound : bound (c :: fmt) = fmt.length + 8 := by
            unfold bound
            rw [if_pos (hp ▸ List.mem_cons_self), List.length_cons]
          show Returns (turns err edst fuel r.1.tail r.2) _
          rw [h1]
          exact ih rest r.2 (by omega) h2 h4
        · rename_i hp
          rw [decide_eq_false hp] at hmatch
          have hstart := ho.start
          have hlen : edst ≤ o.mem.length := by rw [ho.within.length]; exact hm
          refine returns_bind (write_ok h0 hstart ?_ hlen) fun mem' hw' => ?_
          · simp only [List.length_singleton]
            omega
          · exact ih fmt _ (by omega) (hf.tail hmatch)
              ⟨by show dst ≤ o.w + 1; omega, by show o.w + 1 < edst; omega, ho.within.trans hw'.1⟩
      · exact returns_ok ho

/-- The output and its NUL are in the buffer, and the assertion does not fail. -/
theorem vseprint_ok (h0 : 0 ≤ dst) (hlt : dst < edst) (hm : edst ≤ mem.length) (he : CString err) {arg : List Arg}
    (hf : Fmt false fmt arg) :
    Returns (vseprint err edst mem dst (fmt ++ [0]) arg) fun o => Inside dst edst mem o ∧ o.mem[o.w.toNat]? = some 0 := by
  have hbound := bound_le fmt
  refine returns_bind (turns_ok h0 hm he _ fmt ⟨dst, mem, arg⟩ ?_ hf ⟨Int.le_refl _, hlt, within_refl⟩) fun o ho => ?_
  · simp only [List.length_append, List.length_singleton]
    omega
  · have hstart := ho.start
    have hroom := ho.room
    have hlen : edst ≤ o.mem.length := by rw [ho.within.length]; exact hm
    rw [if_pos hroom]
    refine returns_bind (write_ok h0 hstart ?_ hlen) fun mem' hw' =>
      returns_pure ⟨⟨hstart, hroom, ho.within.trans hw'.1⟩, ?_⟩
    · simp only [List.length_singleton]
      omega
    · exact hw'.2 0 Nat.one_pos

end

/-- Whatever the format and its arguments are, `vsnprint` writes in `dst[0..n)` only, and ends the
    output there with a NUL; so does `vfprint` in its own buffer. -/
theorem stays_inside {mem err fmt : List UInt8} {dst : Int} {n : Nat} {arg : List Arg} (hn : 1 ≤ n) (h0 : 0 ≤ dst)
    (hm : dst + n ≤ mem.length) (he : CString err) (hf : Fmt false fmt arg) :
    (∃ o, vsnprint err mem dst n (fmt ++ [0]) arg = .ok o ∧ dst ≤ o.w ∧ o.w < dst + n ∧ o.mem[o.w.toNat]? = some 0 ∧
      o.mem.length = mem.length ∧ ∀ i : Nat, i < dst ∨ dst + n ≤ i → o.mem[i]? = mem[i]?) ∧
    ∀ buf, buf.length = 256 → ∃ out, vfprint err buf (fmt ++ [0]) arg = .ok out ∧ out.length < 256 := by
  constructor
  · obtain ⟨o, ho, hin, hz⟩ := vseprint_ok h0 (by omega : dst < dst + n) hm he hf
    exact ⟨o, ho, hin.start, hin.room, hz, hin.within.length, hin.within.outside⟩
  · intro buf hb
    have hlen : (256 : Int) ≤ buf.length := by omega
    refine returns_bind (vseprint_ok (Int.le_refl 0) (by decide) hlen he hf) fun o ho => ?_
    have hsame := ho.1.within.length
    have hmem : 0 ∈ o.mem := List.mem_of_getElem? ho.2
    refine returns_bind (strlen_ok hmem) fun k hk => returns_pure ?_
    have hlt := idxOf_lt hmem
    rw [List.length_take]
    omega

/-- `"%-5d|%s"` in six bytes. -/
theorem stays_inside_six : ∃ o, vsnprint [0] (List.replicate 8 1) 1 6 (chars ['%', '-', '5', 'd', '|', '%', 's'] ++ [0])
    [.word 42, .str (chars ['o', 'k'] ++ [0])] = .ok o ∧ o.w < 7 := by
  have hf : Fmt false (chars ['%', '-', '5', 'd', '|', '%', 's']) [.word 42, .str (chars ['o', 'k'] ++ [0])] :=
    ⟨by decide, _, _, rfl, _, _, rfl, ⟨by decide, by decide⟩, trivial⟩
  have hm : (1 : Int) + (6 : Nat) ≤ (List.replicate 8 (1 : UInt8)).length := by decide
  have he : CString [0] := ⟨by decide, by decide⟩
  obtain ⟨⟨o, ho, -, hw, -⟩, -⟩ := stays_inside (by decide) (by decide) hm he hf
  exact ⟨o, ho, hw⟩

end Libtask.Print
