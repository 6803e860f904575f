/-
  Libtask.Net.Names — which names `parseip` takes for an address, and for which one.

  `Reads c b`: the part `c` is read as the byte `b`. That is a signed numeral behind blanks whose low
  32 bits are `b`, or nothing at all, read as 0. An address is read when each of the parts is, as
  many of them as the class of the first one allows (`Fits`).
-/

import Mathlib.Data.List.Forall2
import Mathlib.Data.List.GetD
import Libtask.Net.Parseip

namespace Libtask.Net

open Libtask.Lib.Numerals Libtask.Lib.Strtoul

/-! ## Parts -/

def Reads (c : List UInt8) (b : UInt8) : Prop :=
  c = [] ∧ b = 0 ∨ ∃ v, Signed (c.dropWhile isspace) v ∧ v.natAbs < 2 ^ 64 ∧ v % 2 ^ 32 = b.toNat

section
variable {c name : List UInt8} {b : UInt8} {bs : List UInt8} {cs : List (List UInt8)}

theorem int_eq (ul : BitVec 64) : int ul = if 2 * (ul.toNat % 2 ^ 32) < 2 ^ 32 then (ul.toNat % 2 ^ 32 : Int)
    else (ul.toNat % 2 ^ 32 : Int) - 2 ^ 32 := by
  unfold int
  rw [BitVec.toInt_eq_toNat_cond, BitVec.toNat_setWidth]
  split <;> simp

/-- The range test is one of the low half. -/
theorem int_byte (ul : BitVec 64) (n : Nat) (hn : n < 256) : int ul = n ↔ (ul.toNat : Int) % 2 ^ 32 = n := by
  rw [int_eq]
  split <;> omega

theorem byte_toNat (h : Taken c) : int (strtoul c).1 = (byte c).toNat := by
  obtain ⟨-, hlo, hhi⟩ := h
  unfold byte
  rw [UInt8.toNat_ofNat']
  omega

/-- The low half of what is returned is that of the number, and the range test fails for one that does not fit. -/
theorem int_strtoul {n : Nat} (hn : n < 256) (c : List UInt8) :
    int (strtoul c).1 = n ↔ (scan c).denoted.natAbs < 2 ^ 64 ∧ (scan c).denoted % 2 ^ 32 = n := by
  rw [int_byte _ _ hn, natAbs_denoted]
  by_cases hv : value (scan c).base (scan c).digits < 2 ^ 64
  · have hlow := low_denoted hv
    unfold strtoul
    dsimp only
    rw [hlow]
    exact ⟨fun h => ⟨hv, h⟩, fun h => h.2⟩
  · have hmax := ulong_max (scan c).neg hv
    unfold strtoul
    dsimp only
    rw [hmax]
    exact ⟨fun h => by omega, fun h => absurd h.1 hv⟩

theorem reads_iff : Reads c b ↔ Taken c ∧ b = byte c := by
  constructor
  · rintro (⟨rfl, rfl⟩ | ⟨v, hs, hv, hb⟩)
    · decide
    · have hblanks : ∀ d ∈ c.takeWhile isspace, isspace d = true := fun d hd => List.mem_takeWhile_imp hd
      obtain ⟨hrest, -, hden⟩ := scan_signed hblanks hs
      rw [List.takeWhile_append_dropWhile] at hrest hden
      have hint := (int_strtoul b.toNat_lt c).mpr ⟨by rwa [hden], by rwa [hden]⟩
      have htaken : Taken c := ⟨hrest, by omega, by have := b.toNat_lt; omega⟩
      refine ⟨htaken, UInt8.toNat_inj.mp ?_⟩
      have hbyte := byte_toNat htaken
      omega
  · rintro ⟨h, rfl⟩
    by_cases hc : c = []
    · subst hc
      exact .inl ⟨rfl, rfl⟩
    · obtain ⟨hv, hlow⟩ := (int_strtoul (byte c).toNat_lt c).mp (byte_toNat h)
      exact .inr ⟨_, signed_of_scan h.1 hc, hv, hlow⟩

theorem forall₂_reads : ∀ {cs : List (List UInt8)} {bs : List UInt8},
    List.Forall₂ Reads cs bs ↔ (∀ c ∈ cs, Taken c) ∧ bs = cs.map byte := by
  intro cs
  induction cs with
  | nil => simp
  | cons c cs ih =>
    intro bs
    rw [List.forall₂_cons_left_iff]
    constructor
    · rintro ⟨b, bs, hb, hbs, rfl⟩
      obtain ⟨hc, rfl⟩ := reads_iff.mp hb
      obtain ⟨hcs, rfl⟩ := ih.mp hbs
      exact ⟨List.forall_mem_cons.mpr ⟨hc, hcs⟩, rfl⟩
    · rintro ⟨h, rfl⟩
      obtain ⟨hc, hcs⟩ := List.forall_mem_cons.mp h
      exact ⟨_, _, reads_iff.mpr ⟨hc, rfl⟩, ih.mpr ⟨hcs, rfl⟩, rfl⟩

theorem upto_length (n : Nat) : ∀ cs, (upto n cs).length ≤ n := by
  induction n with
  | zero => exact fun _ => Nat.le_refl 0
  | succ n ih =>
    intro cs
    cases cs with
    | nil => exact Nat.zero_le _
    | cons c cs =>
      have hle := ih cs
      simp only [upto]
      split
      · exact Nat.zero_le _
      · simp only [List.length_cons]
        omega

theorem reads_length (h : List.Forall₂ Reads (given name) bs) : bs.length ≤ 4 := by
  rw [← h.length_eq]
  exact upto_length 4 (parts name)

theorem parseip_reads (h0 : 0 ∉ name) (h : List.Forall₂ Reads (given name) bs) (addr : Vector UInt8 4) :
    parseip addr name = switch bs.length (store 0 bs addr) := by
  obtain ⟨htaken, rfl⟩ := forall₂_reads.mp h
  rw [parseip_eq h0, if_pos htaken, List.length_map]

theorem parseip_none (h0 : 0 ∉ name) (h : ∀ bs, ¬ List.Forall₂ Reads (given name) bs) (addr : Vector UInt8 4) :
    parseip addr name = none := by
  rw [parseip_eq h0, if_neg fun htaken => h _ (forall₂_reads.mpr ⟨htaken, rfl⟩)]

end

/-! ## Classes -/

section
variable {a b c d : UInt8} {bs : List UInt8}

theorem switch_low (h : a < 128) (i : Nat) : switch i #v[a, b, c, d] =
    if i = 3 then some #v[a, 0, b, c] else if i = 2 then some #v[a, 0, 0, b] else if i ≠ 4 then none else some #v[a, b, c, d] := by
  have hclass : CLASS #v[a, b, c, d] = 0 ∨ CLASS #v[a, b, c, d] = 1 := by
    show a.toNat >>> 6 = 0 ∨ a.toNat >>> 6 = 1
    rw [UInt8.lt_iff_toNat_lt] at h
    rw [Nat.shiftRight_eq_div_pow]
    have hlt : a.toNat < 128 := h
    omega
  unfold switch
  rcases hclass with h | h <;> rw [h] <;> rfl

theorem switch_mid (h : ¬ a < 128) (h' : a < 192) (i : Nat) : switch i #v[a, b, c, d] =
    if i = 3 then some #v[a, b, 0, c] else if i ≠ 4 then none else some #v[a, b, c, d] := by
  have hclass : CLASS #v[a, b, c, d] = 2 := by
    show a.toNat >>> 6 = 2
    rw [UInt8.lt_iff_toNat_lt] at h h'
    rw [Nat.shiftRight_eq_div_pow]
    have hlt : ¬ a.toNat < 128 := h
    have hlt' : a.toNat < 192 := h'
    omega
  unfold switch
  rw [hclass]
  rfl

theorem switch_high (h : ¬ a < 192) (i : Nat) : switch i #v[a, b, c, d] = some #v[a, b, c, d] := by
  have hclass : CLASS #v[a, b, c, d] = 3 := by
    show a.toNat >>> 6 = 3
    rw [UInt8.lt_iff_toNat_lt] at h
    rw [Nat.shiftRight_eq_div_pow]
    have hlt : ¬ a.toNat < 192 := h
    have h256 := a.toNat_lt
    omega
  unfold switch
  rw [hclass]
  rfl

/-- As many bytes as the class of the first one allows. -/
def Fits (bs : List UInt8) : Prop := 3 ≤ bs.length ∨ bs.length = 2 ∧ (∀ a ∈ bs.head?, a < 128) ∨ ∀ a ∈ bs.head?, ¬ a < 192

/-- Bytes of `addr` are taken as they are: not all four are stored, and the class asks for nothing else. -/
def Unset (bs : List UInt8) : Prop := bs.length < 4 ∧ ∀ a ∈ bs.head?, ¬ a < 192

theorem addr_cases (addr : Vector UInt8 4) : ∃ a b c d, addr = #v[a, b, c, d] := by
  obtain ⟨⟨l⟩, h⟩ := addr
  match l, h with
  | [a, b, c, d], _ => exact ⟨a, b, c, d, rfl⟩

/-- What is stored of up to four bytes. -/
theorem store_cases (h : bs.length ≤ 4) (a b c d : UInt8) : store 0 bs #v[a, b, c, d] =
    #v[bs.getD 0 a, bs.getD 1 b, bs.getD 2 c, bs.getD 3 d] := by
  rcases bs with - | ⟨w, - | ⟨x, - | ⟨y, - | ⟨z, - | ⟨_, bs⟩⟩⟩⟩⟩
  · rfl
  · rfl
  · rfl
  · rfl
  · rfl
  · simp only [List.length_cons] at h
    omega

theorem switch_some (i : Nat) : switch i #v[a, b, c, d] ≠ none ↔ (i = 3 ∨ i = 4) ∨ i = 2 ∧ a < 128 ∨ ¬ a < 192 := by
  by_cases hlow : a < 128
  · have h192 : a < 192 := UInt8.lt_trans hlow (by decide)
    rw [switch_low hlow]
    by_cases h3 : i = 3
    · simp [h3]
    · by_cases h2 : i = 2
      · simp [h2, hlow]
      · by_cases h4 : i = 4
        · simp [h4]
        · simp [h2, h3, h4, h192]
  · by_cases hmid : a < 192
    · rw [switch_mid hlow hmid]
      by_cases h3 : i = 3
      · simp [h3]
      · by_cases h4 : i = 4
        · simp [h4]
        · simp [h3, h4, hlow, hmid]
    · rw [switch_high hmid]
      simp [hmid]

theorem fits_iff (h : bs.length ≤ 4) : (∃ addr, switch bs.length (store 0 bs addr) ≠ none) ↔ Fits bs := by
  cases bs with
  | nil => exact ⟨fun _ => .inr (.inr (by simp)), fun _ => ⟨#v[255, 0, 0, 0], by decide⟩⟩
  | cons w t =>
    have hfits : Fits (w :: t) ↔ 3 ≤ t.length + 1 ∨ t.length + 1 = 2 ∧ w < 128 ∨ ¬ w < 192 := by simp [Fits]
    have hsome : ∀ addr, switch (w :: t).length (store 0 (w :: t) addr) ≠ none ↔ Fits (w :: t) := fun addr => by
      obtain ⟨a, b, c, d, rfl⟩ := addr_cases addr
      rw [store_cases h, List.getD_cons_zero, switch_some, hfits]
      rw [List.length_cons] at h ⊢
      constructor
      · rintro (h | h)
        · exact .inl (by omega)
        · exact .inr h
      · rintro (h | h)
        · exact .inl (by omega)
        · exact .inr h
    refine ⟨?_, fun hf => ⟨#v[0, 0, 0, 0], (hsome _).mpr hf⟩⟩
    rintro ⟨addr, hs⟩
    exact (hsome addr).mp hs

theorem getD_stored {i : Nat} (a b : UInt8) (h : i < bs.length) : bs.getD i a = bs.getD i b := by
  rw [List.getD_eq_getElem _ _ h, List.getD_eq_getElem _ _ h]

/-- In the lower classes, what is not stored is not looked at. -/
theorem switch_stored {b' c' d' : UInt8} {i : Nat} (ha : a < 192) (hi : i < 4) (hb : 2 ≤ i → b = b') (hc : 3 ≤ i → c = c') :
    switch i #v[a, b, c, d] = switch i #v[a, b', c', d'] := by
  have h4 : i ≠ 4 := by omega
  by_cases hlow : a < 128
  · rw [switch_low hlow, switch_low hlow]
    by_cases h3 : i = 3
    · rw [if_pos h3, if_pos h3, hb (by omega), hc (by omega)]
    · rw [if_neg h3, if_neg h3]
      by_cases h2 : i = 2
      · rw [if_pos h2, if_pos h2, hb (by omega)]
      · rw [if_neg h2, if_neg h2, if_pos h4, if_pos h4]
  · rw [switch_mid hlow ha, switch_mid hlow ha]
    by_cases h3 : i = 3
    · rw [if_pos h3, if_pos h3, hb (by omega), hc (by omega)]
    · rw [if_neg h3, if_neg h3, if_pos h4, if_pos h4]

theorem unset_iff (h : bs.length ≤ 4) :
    (∀ addr addr', switch bs.length (store 0 bs addr) = switch bs.length (store 0 bs addr')) ↔ ¬ Unset bs := by
  constructor
  · -- a byte that is not stored is seen, in the class if nothing is stored
    rintro heq ⟨hlen, hhigh⟩
    have h0 := heq #v[0, 0, 0, 0] #v[255, 255, 255, 255]
    rw [store_cases h, store_cases h] at h0
    cases bs with
    | nil => exact absurd h0 (by decide)
    | cons w t =>
      have hw : ¬ w < 192 := hhigh w rfl
      have hlast : (w :: t).length ≤ 3 := Nat.le_of_lt_succ hlen
      rw [List.getD_cons_zero, List.getD_cons_zero, switch_high hw, switch_high hw] at h0
      have h3 := congrArg (fun v : Vector UInt8 4 => v[3]) (Option.some.inj h0)
      simp [List.getElem?_eq_none hlast] at h3
  · intro hset addr addr'
    obtain ⟨a, b, c, d, rfl⟩ := addr_cases addr
    obtain ⟨a', b', c', d', rfl⟩ := addr_cases addr'
    rw [store_cases h, store_cases h]
    -- with all four bytes, or a class that sets the others, none of `addr` is left
    cases bs with
    | nil => exact absurd ⟨by decide, by simp⟩ hset
    | cons w t =>
      by_cases hlen : (w :: t).length < 4
      · have hw : w < 192 := by
          by_contra hn
          exact hset ⟨hlen, by simpa using hn⟩
        exact switch_stored hw hlen (getD_stored _ _) (getD_stored _ _)
      · have h4 : 3 < (w :: t).length := by omega
        rw [List.getD_cons_zero, List.getD_cons_zero, getD_stored b b' (by omega : 1 < (w :: t).length),
          getD_stored c c' (by omega : 2 < (w :: t).length), getD_stored d d' h4]

end

/-! ## Addresses -/

def dotted (cs : List (List UInt8)) : List UInt8 := List.intercalate ['.'.toUInt8] cs

/-- A number, and whether a sign may stand in front of it. -/
def Component (signs : Bool) (c : List UInt8) : Prop := if signs then ∃ z, Signed c z else ∃ v, Numeral c v

/-- One to four numbers, with a dot between each two, and nothing else. -/
def WellFormed (signs : Bool) (name : List UInt8) : Prop :=
  ∃ cs, 1 ≤ cs.length ∧ cs.length ≤ 4 ∧ (∀ c ∈ cs, Component signs c) ∧ name = dotted cs

/-- At most four parts, none of them empty, no blank in front of one, and no sign if there must be none. -/
structure Neat (signs : Bool) (name : List UInt8) : Prop where
  four : (parts name).length ≤ 4
  nonempty : ∀ c ∈ parts name, c ≠ []
  noblank : ∀ c ∈ parts name, ∀ d ∈ c.head?, isspace d = false
  nosign : ∀ c ∈ parts name, ∀ d ∈ c.head?, signs = true ∨ d ≠ '-'.toUInt8 ∧ d ≠ '+'.toUInt8

section
variable {c s name : List UInt8} {z : Int} {cs : List (List UInt8)} {signs : Bool}

theorem Component.signed (h : Component signs c) : ∃ z, Signed c z := by
  cases signs with
  | true => exact h
  | false =>
    obtain ⟨v, hv⟩ := h
    exact ⟨v, .plain hv⟩

/-- What a number begins with. -/
theorem Component.head (h : Component signs c) : ∃ d t, c = d :: t ∧ isspace d = false ∧
    (signs = true ∨ d ≠ '-'.toUInt8 ∧ d ≠ '+'.toUInt8) := by
  cases signs with
  | true =>
    obtain ⟨z, hz⟩ := h
    obtain ⟨d, t, u, v, rfl, hd, -⟩ := hz.sign
    exact ⟨d, t, rfl, hd, .inl rfl⟩
  | false =>
    obtain ⟨v, hv⟩ := h
    obtain ⟨⟨d, t, rfl, hd⟩, -⟩ := hv.radix
    exact ⟨d, t, rfl, not_isspace (by omega), .inr ⟨digit_ne hd (by decide), digit_ne hd (by decide)⟩⟩

theorem component_of_signed (h : Signed c z) (hd : ∀ d ∈ c.head?, signs = true ∨ d ≠ '-'.toUInt8 ∧ d ≠ '+'.toUInt8) :
    Component signs c := by
  cases signs with
  | true => exact ⟨z, h⟩
  | false =>
    cases h with
    | @plain s v h => exact ⟨v, h⟩
    | plus h => exact absurd rfl ((hd _ rfl).resolve_left (by decide)).2
    | minus h => exact absurd rfl ((hd _ rfl).resolve_left (by decide)).1

/-- There is no dot in a number, and no NUL. -/
theorem signed_not_mem {d : UInt8} (h : Signed s z) (hd : ¬ digit d < 36) (hm : d ≠ '-'.toUInt8) (hp : d ≠ '+'.toUInt8) :
    d ∉ s := fun hmem => by
  rcases h.mem hmem with h | h | h
  · exact hd h
  · exact hm h
  · exact hp h

theorem dot_not_mem (h : Signed s z) : '.'.toUInt8 ∉ s := signed_not_mem h (by decide) (by decide) (by decide)

theorem nul_not_mem (h : Signed s z) : 0 ∉ s := signed_not_mem h (by decide) (by decide) (by decide)

theorem parts_dotted (h : ∀ c ∈ cs, Component signs c) (hne : cs ≠ []) : parts (dotted cs) = cs :=
  List.splitOn_intercalate _ (fun c hc => (h c hc).signed.elim fun _ hs => dot_not_mem hs) hne

theorem WellFormed.neat (h : WellFormed signs name) : Neat signs name := by
  obtain ⟨cs, h1, h4, hcs, rfl⟩ := h
  have hparts := parts_dotted hcs (List.length_pos_iff.mp h1)
  have hhead : ∀ c ∈ parts (dotted cs), ∃ d t, c = d :: t ∧ isspace d = false ∧
      (signs = true ∨ d ≠ '-'.toUInt8 ∧ d ≠ '+'.toUInt8) := fun c hc => (hcs c (hparts ▸ hc)).head
  refine ⟨by rwa [hparts], fun c hc => ?_, fun c hc e he => ?_, fun c hc e he => ?_⟩
  · obtain ⟨d, t, rfl, -⟩ := hhead c hc
    exact List.cons_ne_nil d t
  · obtain ⟨d, t, rfl, hd, -⟩ := hhead c hc
    obtain rfl := Option.mem_some_iff.mp he
    exact hd
  · obtain ⟨d, t, rfl, -, hd⟩ := hhead c hc
    obtain rfl := Option.mem_some_iff.mp he
    exact hd

theorem upto_eq : ∀ {n : Nat} {cs : List (List UInt8)}, cs.length ≤ n → (∀ c ∈ cs, c ≠ []) → upto n cs = cs := by
  intro n
  induction n with
  | zero =>
    intro cs hlen _
    rw [List.length_eq_zero_iff.mp (Nat.le_zero.mp hlen)]
    rfl
  | succ n ih =>
    intro cs hlen hne
    cases cs with
    | nil => rfl
    | cons c cs =>
      have hc := hne c List.mem_cons_self
      simp only [upto, hc, false_and, if_false]
      rw [ih (Nat.le_of_succ_le_succ hlen) fun d hd => hne d (List.mem_cons_of_mem c hd)]

theorem Neat.given (h : Neat signs name) : given name = parts name := upto_eq h.four h.nonempty

/-- The parts of a neat name that are read are its numbers. -/
theorem Neat.wellFormed (h : Neat signs name) {bs : List UInt8} (hr : List.Forall₂ Reads (Net.given name) bs) :
    WellFormed signs name := by
  rw [h.given] at hr
  refine ⟨parts name, List.length_pos_iff.mpr (parts_ne_nil name), h.four, fun c hc => ?_,
    (List.intercalate_splitOn '.'.toUInt8).symm⟩
  obtain ⟨htaken, -⟩ := forall₂_reads.mp hr
  rcases reads_iff.mpr ⟨htaken c hc, rfl⟩ with ⟨hnil, -⟩ | ⟨v, hs, -⟩
  · exact absurd hnil (h.nonempty c hc)
  · have hblank := h.noblank c hc
    refine component_of_signed (z := v) ?_ (h.nosign c hc)
    cases c with
    | nil => exact hs
    | cons d c => rwa [List.dropWhile_cons_of_neg (by simp [hblank d rfl])] at hs

/-- A name is an address, for some content of the stack, if its parts are read and fit. -/
theorem accepted_iff (h0 : 0 ∉ name) :
    (∃ addr, parseip addr name ≠ none) ↔ ∃ bs, List.Forall₂ Reads (given name) bs ∧ Fits bs := by
  constructor
  · rintro ⟨addr, hs⟩
    by_cases hbs : ∃ bs, List.Forall₂ Reads (given name) bs
    · obtain ⟨bs, hbs⟩ := hbs
      rw [parseip_reads h0 hbs] at hs
      exact ⟨bs, hbs, (fits_iff (reads_length hbs)).mp ⟨addr, hs⟩⟩
    · exact absurd (parseip_none h0 (not_exists.mp hbs) addr) hs
  · rintro ⟨bs, hbs, hfits⟩
    obtain ⟨addr, hs⟩ := (fits_iff (reads_length hbs)).mpr hfits
    exact ⟨addr, by rwa [parseip_reads h0 hbs]⟩

/-- A name that is no address goes to the resolver, unless the parts that are looked at are read and
    there is more: a fifth part, an empty one, a blank, or a sign. -/
theorem consumes_name_iff (h0 : 0 ∉ name) (signs : Bool) :
    (∀ addr, ¬ WellFormed signs name → parseip addr name = none ∧
      ∀ gethostbyname, netlookup gethostbyname addr name = gethostbyname name) ↔
    Neat signs name ∨ ∀ bs, List.Forall₂ Reads (given name) bs → ¬ Fits bs := by
  constructor
  · intro h
    by_contra hn
    rw [not_or] at hn
    obtain ⟨hneat, hbad⟩ := hn
    push Not at hbad
    obtain ⟨addr, hs⟩ := (accepted_iff h0).mpr hbad
    exact hs (h addr fun hw => hneat hw.neat).1
  · intro h addr hw
    have hnone : parseip addr name = none := by
      by_contra hs
      obtain ⟨bs, hbs, hfits⟩ := (accepted_iff h0).mp ⟨addr, hs⟩
      rcases h with hneat | hbad
      · exact hw (hneat.wellFormed hbs)
      · exact hbad bs hbs hfits
    refine ⟨hnone, fun gethostbyname => ?_⟩
    unfold netlookup
    rw [hnone]

/-- `"a.b.c.d.org"` goes to the resolver. -/
theorem consumes_name_org : netlookup (fun _ => some #v[10, 0, 0, 1]) #v[0, 0, 0, 0]
    (['a', '.', 'b', '.', 'c', '.', 'd', '.', 'o', 'r', 'g'].map Char.toUInt8) = some #v[10, 0, 0, 1] := by
  refine ((consumes_name_iff (by decide) true).mpr (.inr fun bs hbs => ?_) #v[0, 0, 0, 0] fun hw => ?_).2 _
  · have htaken := (forall₂_reads.mp hbs).1 (['a'].map Char.toUInt8) (by decide +kernel)
    exact absurd htaken (by decide)
  · exact absurd hw.neat.four (by decide +kernel)

/-- A host name that begins with four numbers is an address. -/
theorem host_name_is_address : (0 : UInt8) ∉ ['1', '.', '2', '.', '3', '.', '4', '.', 'o', 'r', 'g'].map Char.toUInt8 ∧
    ¬ WellFormed true (['1', '.', '2', '.', '3', '.', '4', '.', 'o', 'r', 'g'].map Char.toUInt8) ∧
    ¬ WellFormed false (['1', '.', '2', '.', '3', '.', '4', '.', 'o', 'r', 'g'].map Char.toUInt8) ∧
    parseip #v[0, 0, 0, 0] (['1', '.', '2', '.', '3', '.', '4', '.', 'o', 'r', 'g'].map Char.toUInt8) = some #v[1, 2, 3, 4] := by
  refine ⟨by decide, fun h => ?_, fun h => ?_, by decide +kernel⟩
  · exact absurd h.neat.four (by decide +kernel)
  · exact absurd h.neat.four (by decide +kernel)

/-! ## Values -/

/-- A number outside of `0..255` that the conversion to `int` brings back. -/
def Wraps (c : List UInt8) : Prop :=
  ∃ v, Signed (c.dropWhile isspace) v ∧ ¬ (0 ≤ v ∧ v < 256) ∧ v.natAbs < 2 ^ 64 ∧ v % 2 ^ 32 < 256

/-- What is converted of a part that is taken is a number that the conversion leaves in range. -/
theorem taken_wraps (h : Taken c) (hv : ¬ (0 ≤ (scan c).denoted ∧ (scan c).denoted < 256)) : Wraps c := by
  have hb := byte_toNat h
  have hlt := (byte c).toNat_lt
  obtain ⟨hsmall, hlow⟩ := (int_strtoul hlt c).mp hb
  have hne : c ≠ [] := by
    rintro rfl
    exact hv (by decide)
  exact ⟨_, signed_of_scan h.1 hne, hv, hsmall, by omega⟩

theorem Wraps.denoted (h : Wraps c) : ¬ (0 ≤ (scan c).denoted ∧ (scan c).denoted < 256) := by
  obtain ⟨v, hs, hv, -⟩ := h
  obtain ⟨-, -, hden⟩ := scan_signed (fun d hd => List.mem_takeWhile_imp hd) hs
  rw [List.takeWhile_append_dropWhile] at hden
  rwa [hden]

/-- A number outside of `0..255` makes the name none of an address, unless it wraps around and nothing
    else is wrong with the name. -/
theorem range_iff (h0 : 0 ∉ name) :
    (∀ addr, ∀ c ∈ given name, ¬ (0 ≤ (scan c).denoted ∧ (scan c).denoted < 256) → parseip addr name = none) ↔
    (∀ c ∈ given name, ¬ Wraps c) ∨ ∀ bs, List.Forall₂ Reads (given name) bs → ¬ Fits bs := by
  constructor
  · intro h
    by_contra hn
    rw [not_or] at hn
    obtain ⟨hwraps, hbad⟩ := hn
    push Not at hwraps hbad
    obtain ⟨c, hc, hw⟩ := hwraps
    obtain ⟨addr, hs⟩ := (accepted_iff h0).mpr hbad
    exact hs (h addr c hc hw.denoted)
  · intro h addr c hc hv
    by_contra hs
    obtain ⟨bs, hbs, hfits⟩ := (accepted_iff h0).mp ⟨addr, hs⟩
    rcases h with hwraps | hbad
    · exact hwraps c hc (taken_wraps ((forall₂_reads.mp hbs).1 c hc) hv)
    · exact hbad bs hbs hfits

/-- `"256.0.0.1"` is no address. -/
theorem range_256 : parseip #v[0, 0, 0, 0] (['2', '5', '6', '.', '0', '.', '0', '.', '1'].map Char.toUInt8) = none := by
  refine (range_iff (by decide)).mpr (.inr fun bs hbs => ?_) #v[0, 0, 0, 0] (['2', '5', '6'].map Char.toUInt8) (by decide +kernel)
    (by decide +kernel)
  have htaken := (forall₂_reads.mp hbs).1 (['2', '5', '6'].map Char.toUInt8) (by decide +kernel)
  exact absurd htaken (by decide +kernel)

/-- `"4294967296.0.0.1"` is, though 2^32 is no byte. -/
theorem wraps_around :
    (∃ c ∈ given (['4', '2', '9', '4', '9', '6', '7', '2', '9', '6', '.', '0', '.', '0', '.', '1'].map Char.toUInt8),
      (scan c).denoted = 4294967296) ∧
    parseip #v[9, 9, 9, 9] (['4', '2', '9', '4', '9', '6', '7', '2', '9', '6', '.', '0', '.', '0', '.', '1'].map Char.toUInt8) =
      some #v[0, 0, 0, 1] := by
  decide +kernel

/-! ## What the stack has -/

/-- The address is the name's own unless bytes of `addr` are left unset. -/
theorem determined_iff (h0 : 0 ∉ name) : (∀ addr addr', parseip addr name = parseip addr' name) ↔
    ∀ bs, List.Forall₂ Reads (given name) bs → ¬ Unset bs := by
  constructor
  · intro h bs hbs
    refine (unset_iff (reads_length hbs)).mp fun addr addr' => ?_
    rw [← parseip_reads h0 hbs, ← parseip_reads h0 hbs]
    exact h addr addr'
  · intro h addr addr'
    by_cases hbs : ∃ bs, List.Forall₂ Reads (given name) bs
    · obtain ⟨bs, hbs⟩ := hbs
      rw [parseip_reads h0 hbs, parseip_reads h0 hbs]
      exact (unset_iff (reads_length hbs)).mpr (h bs hbs) addr addr'
    · rw [parseip_none h0 (not_exists.mp hbs), parseip_none h0 (not_exists.mp hbs)]

/-- `"10.1"` is the same address whatever the stack has. -/
theorem determined_ten : parseip #v[1, 2, 3, 4] (['1', '0', '.', '1'].map Char.toUInt8) =
    parseip #v[9, 9, 9, 9] (['1', '0', '.', '1'].map Char.toUInt8) := by
  refine (determined_iff (by decide)).mpr (fun bs hbs => ?_) _ _
  obtain ⟨-, rfl⟩ := forall₂_reads.mp hbs
  rintro ⟨-, hhigh⟩
  exact hhigh 10 (by decide +kernel) (by decide)

/-- `"200"` is an address with three bytes of the stack, and `""` is one or none. -/
theorem stack_bytes : parseip #v[1, 2, 3, 4] (['2', '0', '0'].map Char.toUInt8) = some #v[200, 2, 3, 4] ∧
    parseip #v[9, 9, 9, 9] (['2', '0', '0'].map Char.toUInt8) = some #v[200, 9, 9, 9] ∧
    parseip #v[1, 2, 3, 4] [] = none ∧ parseip #v[200, 2, 3, 4] [] = some #v[200, 2, 3, 4] := by
  decide +kernel

/-! ## Legal addresses -/

theorem nul_dotted (h : ∀ c ∈ cs, 0 ∉ c) : 0 ∉ dotted cs := by
  induction cs with
  | nil => exact List.not_mem_nil
  | cons c cs ih =>
    obtain ⟨hc, hcs⟩ := List.forall_mem_cons.mp h
    cases cs with
    | nil =>
      unfold dotted
      rwa [List.intercalate_singleton]
    | cons d cs =>
      have hrest := ih hcs
      unfold dotted at hrest ⊢
      rw [List.intercalate_cons_cons, List.mem_append, List.mem_append]
      rintro ((h | h) | h)
      · exact hc h
      · exact absurd h (by decide)
      · exact hrest h

theorem numeral_reads {v : Nat} (h : Numeral c v) (hv : v < 256) : Reads c (UInt8.ofNat v) := by
  obtain ⟨⟨d, t, rfl, hd⟩, -⟩ := h.radix
  refine .inr ⟨v, ?_, ?_, ?_⟩
  · rw [List.dropWhile_cons_of_neg (by simp [not_isspace (Nat.lt_trans hd (by decide))])]
    exact .plain h
  · rw [Int.natAbs_natCast]
    omega
  · rw [UInt8.toNat_ofNat']
    omega

theorem numerals_read {vs : List Nat} (h : List.Forall₂ Numeral cs vs) (hv : ∀ v ∈ vs, v < 256) :
    (∀ c ∈ cs, Component false c) ∧ List.Forall₂ Reads cs (vs.map UInt8.ofNat) := by
  induction h with
  | nil => exact ⟨by simp, .nil⟩
  | @cons c v cs vs hn _ ih =>
    obtain ⟨hlt, hv⟩ := List.forall_mem_cons.mp hv
    obtain ⟨hcomp, hreads⟩ := ih hv
    exact ⟨List.forall_mem_cons.mpr ⟨⟨v, hn⟩, hcomp⟩, .cons (numeral_reads hn hlt) hreads⟩

/-- Numbers below 256 are stored as what they are. -/
theorem parseip_dotted {vs : List Nat} (h : List.Forall₂ Numeral cs vs) (hv : ∀ v ∈ vs, v < 256) (hne : cs ≠ [])
    (h4 : cs.length ≤ 4) (addr : Vector UInt8 4) : parseip addr (dotted cs) = switch vs.length (store 0 (vs.map UInt8.ofNat) addr) := by
  obtain ⟨hcomp, hreads⟩ := numerals_read h hv
  have hwf : WellFormed false (dotted cs) := ⟨cs, List.length_pos_iff.mpr hne, h4, hcomp, rfl⟩
  have hgiven : given (dotted cs) = cs := by rw [hwf.neat.given, parts_dotted hcomp hne]
  have h0 : 0 ∉ dotted cs := nul_dotted fun c hc => (hcomp c hc).signed.elim fun _ hs => nul_not_mem hs
  rw [parseip_reads h0 (hgiven.symm ▸ hreads), List.length_map]

end

/-- Four numbers below 256 are the address; three or two of them leave out what the class says. -/
theorem legal_forms (addr : Vector UInt8 4) {a b : List UInt8} {v w : Nat} (ha : Numeral a v) (hb : Numeral b w) (hv : v < 256)
    (hw : w < 256) :
    (∀ c x d y, Numeral c x → Numeral d y → x < 256 → y < 256 →
      parseip addr (dotted [a, b, c, d]) = some #v[UInt8.ofNat v, UInt8.ofNat w, UInt8.ofNat x, UInt8.ofNat y]) ∧
    (∀ c x, Numeral c x → x < 256 →
      (v < 128 → parseip addr (dotted [a, b, c]) = some #v[UInt8.ofNat v, 0, UInt8.ofNat w, UInt8.ofNat x]) ∧
      (128 ≤ v → v < 192 → parseip addr (dotted [a, b, c]) = some #v[UInt8.ofNat v, UInt8.ofNat w, 0, UInt8.ofNat x])) ∧
    (v < 128 → parseip addr (dotted [a, b]) = some #v[UInt8.ofNat v, 0, 0, UInt8.ofNat w]) := by
  obtain ⟨e, f, g, i, rfl⟩ := addr_cases addr
  have hlow : v < 128 → UInt8.ofNat v < 128 := fun h => UInt8.lt_iff_toNat_lt.mpr <| by
    rw [UInt8.toNat_ofNat', Nat.mod_eq_of_lt hv]
    exact h
  have hmid : 128 ≤ v → ¬ UInt8.ofNat v < 128 := fun h hlt => by
    rw [UInt8.lt_iff_toNat_lt, UInt8.toNat_ofNat', Nat.mod_eq_of_lt hv] at hlt
    exact Nat.not_lt.mpr h hlt
  have hhigh : v < 192 → UInt8.ofNat v < 192 := fun h => UInt8.lt_iff_toNat_lt.mpr <| by
    rw [UInt8.toNat_ofNat', Nat.mod_eq_of_lt hv]
    exact h
  refine ⟨fun c x d y hc hd hx hy => ?_, fun c x hc hx => ?_, fun h => ?_⟩
  · rw [parseip_dotted (.cons ha (.cons hb (.cons hc (.cons hd .nil)))) (by simp [*]) (by simp) (by simp)]
    show switch 4 #v[UInt8.ofNat v, UInt8.ofNat w, UInt8.ofNat x, UInt8.ofNat y] = _
    by_cases h128 : UInt8.ofNat v < 128
    · exact switch_low h128 4
    · by_cases h192 : UInt8.ofNat v < 192
      · exact switch_mid h128 h192 4
      · exact switch_high h192 4
  · rw [parseip_dotted (.cons ha (.cons hb (.cons hc .nil))) (by simp [*]) (by simp) (by simp)]
    refine ⟨fun h => ?_, fun h h' => ?_⟩
    · exact switch_low (hlow h) 3
    · exact switch_mid (hmid h) (hhigh h') 3
  · rw [parseip_dotted (.cons ha (.cons hb .nil)) (by simp [*]) (by simp) (by simp)]
    exact switch_low (hlow h) 2

/-- `"10.0x1.010.255"`, `"10.0x1.010"` and `"10.0x1"`. -/
theorem legal_forms_ten :
    parseip #v[9, 9, 9, 9] (dotted [['1', '0'].map Char.toUInt8, ['0', 'x', '1'].map Char.toUInt8, ['0', '1', '0'].map Char.toUInt8,
      ['2', '5', '5'].map Char.toUInt8]) = some #v[10, 1, 8, 255] ∧
    parseip #v[9, 9, 9, 9] (dotted [['1', '0'].map Char.toUInt8, ['0', 'x', '1'].map Char.toUInt8, ['0', '1', '0'].map Char.toUInt8]) =
      some #v[10, 0, 1, 8] ∧
    parseip #v[9, 9, 9, 9] (dotted [['1', '0'].map Char.toUInt8, ['0', 'x', '1'].map Char.toUInt8]) = some #v[10, 0, 0, 1] := by
  have h10 : Numeral (['1', '0'].map Char.toUInt8) 10 := .decimal (by decide) (by decide +kernel)
  have h1 : Numeral (['0', 'x', '1'].map Char.toUInt8) 1 := .hex (.inl rfl) (by decide) (by decide +kernel)
  have h8 : Numeral (['0', '1', '0'].map Char.toUInt8) 8 := .octal (by decide +kernel)
  have h255 : Numeral (['2', '5', '5'].map Char.toUInt8) 255 := .decimal (by decide) (by decide +kernel)
  obtain ⟨hfour, hthree, htwo⟩ := legal_forms #v[9, 9, 9, 9] h10 h1 (by decide) (by decide)
  exact ⟨hfour _ _ _ _ h8 h255 (by decide) (by decide), (hthree _ _ h8 (by decide)).1 (by decide), htwo (by decide)⟩

end Libtask.Net
