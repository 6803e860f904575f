/-
  Libtask.Net.Parseip — reading an address from a name (net.c).

  A name is the list of its characters, none of them NUL; behind them `*p` is 0. `addr` is given as
  the stack has it, and an address is the four bytes of `*ip` in memory order. `none` is `return -1`.

  `loop_eq`: the loop reads the parts between the dots, four at most and not an empty last one, and
  stops at one that is not `Taken`; what it leaves of `addr` is as it was.
-/

import Libtask.Lib.Strtoul

namespace Libtask.Net

open Libtask.Lib.Numerals Libtask.Lib.Strtoul

/-- `*p` -/
def deref (p : List UInt8) : UInt8 := p.headD 0

/-- An `unsigned long` as an `int`. -/
def int (ul : BitVec 64) : Int := (ul.setWidth 32).toInt

def CLASS (addr : Vector UInt8 4) : Nat := addr[0].toNat >>> 6

/-- The `for` loop from `i` and `p` on, with as many turns left, and `i` and `addr` behind it. -/
def loop : (turns i : Nat) → (p : List UInt8) → (addr : Vector UInt8 4) → Option (Nat × Vector UInt8 4)
  | 0, i, _, addr => some (i, addr)
  | turns + 1, i, p, addr =>
    if deref p = 0 then some (i, addr)
    else
      let (ul, p) := strtoul p
      let x := int ul
      if x < 0 ∨ x ≥ 256 then none
      else if deref p ≠ '.'.toUInt8 ∧ deref p ≠ 0 then none
      else
        let p := if deref p = '.'.toUInt8 then p.tail else p
        loop turns (i + 1) p (addr.setIfInBounds i (UInt8.ofNat x.toNat))

/-- `switch(CLASS(addr))` -/
def switch (i : Nat) (addr : Vector UInt8 4) : Option (Vector UInt8 4) :=
  match CLASS addr with
  | 0 | 1 =>
    if i = 3 then
      let addr := addr.set 3 addr[2]
      let addr := addr.set 2 addr[1]
      let addr := addr.set 1 0
      some addr
    else if i = 2 then
      let addr := addr.set 3 addr[1]
      let addr := addr.set 2 0
      let addr := addr.set 1 0
      some addr
    else if i ≠ 4 then none
    else some addr
  | 2 =>
    if i = 3 then
      let addr := addr.set 3 addr[2]
      let addr := addr.set 2 0
      some addr
    else if i ≠ 4 then none
    else some addr
  | _ => some addr

def parseip (addr : Vector UInt8 4) (name : List UInt8) : Option (Vector UInt8 4) := do
  let (i, addr) ← loop 4 0 name addr
  switch i addr

/-- `gethostbyname` gives the first four bytes of `h_addr`. -/
def netlookup (gethostbyname : List UInt8 → Option (Vector UInt8 4)) (addr : Vector UInt8 4) (name : List UInt8) :
    Option (Vector UInt8 4) :=
  match parseip addr name with
  | some ip => some ip
  | none => gethostbyname name

/-! ## Parts -/

def parts (name : List UInt8) : List (List UInt8) := name.splitOn '.'.toUInt8

/-- At most `n` of the parts, and not an empty last one. -/
def upto : Nat → List (List UInt8) → List (List UInt8)
  | 0, _ => []
  | _, [] => []
  | n + 1, c :: cs => if c = [] ∧ cs = [] then [] else c :: upto n cs

/-- The parts that the loop reads if each is taken. -/
def given (name : List UInt8) : List (List UInt8) := upto 4 (parts name)

/-- Read to its end, as a byte. -/
def Taken (c : List UInt8) : Prop := (strtoul c).2 = [] ∧ 0 ≤ int (strtoul c).1 ∧ int (strtoul c).1 < 256

instance (c : List UInt8) : Decidable (Taken c) := inferInstanceAs (Decidable (_ ∧ _))

def byte (c : List UInt8) : UInt8 := UInt8.ofNat (int (strtoul c).1).toNat

/-- `addr[i] = b`, and so on. -/
def store : (i : Nat) → List UInt8 → Vector UInt8 4 → Vector UInt8 4
  | _, [], addr => addr
  | i, b :: bs, addr => store (i + 1) bs (addr.setIfInBounds i b)

section
variable {p c r name : List UInt8} {cs : List (List UInt8)}

theorem dot_ends : Ends '.'.toUInt8 := ⟨by decide, by decide, by decide, by decide⟩

theorem parts_last (h : '.'.toUInt8 ∉ p) : parts p = [p] := List.splitOn_eq_singleton h

theorem parts_dot (h : '.'.toUInt8 ∉ c) (r : List UInt8) : parts (c ++ '.'.toUInt8 :: r) = c :: parts r :=
  List.splitOn_append_cons_self_of_not_mem h r

theorem parts_ne_nil (p : List UInt8) : parts p ≠ [] := List.splitOn_ne_nil _ p

/-- A name is one part, or has a first one with a dot behind it. -/
theorem parts_cases (p : List UInt8) : '.'.toUInt8 ∉ p ∨ ∃ c r, '.'.toUInt8 ∉ c ∧ p = c ++ '.'.toUInt8 :: r := by
  by_cases h : '.'.toUInt8 ∈ p
  · obtain ⟨c, r, rfl, hc⟩ := List.eq_append_cons_of_mem h
    exact .inr ⟨c, r, hc, rfl⟩
  · exact .inl h

/-! ## The loop -/

theorem loop_end (turns i : Nat) (addr : Vector UInt8 4) : loop turns i [] addr = some (i, addr) := by
  cases turns <;> rfl

/-- What is not read of a part stops the loop. -/
theorem stuck (h0 : 0 ∉ c) (hdot : '.'.toUInt8 ∉ c) (hne : (strtoul c).2 ≠ []) (r : List UInt8) :
    deref ((strtoul c).2 ++ r) ≠ '.'.toUInt8 ∧ deref ((strtoul c).2 ++ r) ≠ 0 := by
  have hsub := (scan_rest_suffix c).subset
  cases he : (strtoul c).2 with
  | nil => exact absurd he hne
  | cons d t =>
    have hd : d ∈ c := hsub (by rw [show (scan c).rest = d :: t from he]; exact List.mem_cons_self)
    exact ⟨fun h => hdot (h ▸ hd), fun h => h0 (h ▸ hd)⟩

theorem not_taken_range (h : ¬ Taken c) (hr : (strtoul c).2 = []) : int (strtoul c).1 < 0 ∨ int (strtoul c).1 ≥ 256 := by
  by_contra hx
  exact h ⟨hr, by omega, by omega⟩

/-- One turn, at the part `c` with `t` behind it. -/
theorem loop_turn {t : List UInt8} (hp : p = c ++ t) (ht : t = [] ∨ ∃ r, t = '.'.toUInt8 :: r) (h0 : 0 ∉ c) (hdot : '.'.toUInt8 ∉ c)
    (hne : p ≠ []) (turns i : Nat) (addr : Vector UInt8 4) :
    loop (turns + 1) i p addr = if Taken c then loop turns (i + 1) t.tail (addr.setIfInBounds i (byte c)) else none := by
  have hread : strtoul p = ((strtoul c).1, (strtoul c).2 ++ t) := by
    rcases ht with rfl | ⟨r, rfl⟩
    · rw [hp, List.append_nil, List.append_nil]
    · rw [hp, strtoul_append dot_ends]
  have hp0 : deref p ≠ 0 := by
    cases c with
    | nil =>
      rcases ht with rfl | ⟨r, rfl⟩
      · exact absurd hp hne
      · rw [hp]
        exact (by decide : '.'.toUInt8 ≠ 0)
    | cons d c =>
      rw [hp]
      exact fun h => h0 (h ▸ List.mem_cons_self)
  have hdots : (strtoul c).2 ≠ [] → deref ((strtoul c).2 ++ t) ≠ '.'.toUInt8 ∧ deref ((strtoul c).2 ++ t) ≠ 0 :=
    fun hr => stuck h0 hdot hr t
  show (if deref p = 0 then _ else _) = _
  rw [if_neg hp0, hread]
  dsimp only
  by_cases htaken : Taken c
  · rw [if_pos htaken]
    obtain ⟨hrest, hlo, hhi⟩ := htaken
    have hx : ¬ (int (strtoul c).1 < 0 ∨ int (strtoul c).1 ≥ 256) := by omega
    rw [if_neg hx, hrest, List.nil_append]
    rcases ht with rfl | ⟨r, rfl⟩
    · rfl
    · rfl
  · rw [if_neg htaken]
    by_cases hrest : (strtoul c).2 = []
    · rw [if_pos (not_taken_range htaken hrest)]
    · split
      · rfl
      · rw [if_pos (hdots hrest)]

theorem upto_nil (n : Nat) : upto n [] = [] := by
  cases n <;> rfl

/-- Each part is read in its turn. -/
theorem loop_eq : ∀ (turns i : Nat) (p : List UInt8) (addr : Vector UInt8 4), 0 ∉ p →
    loop turns i p addr = if ∀ c ∈ upto turns (parts p), Taken c then
      some (i + (upto turns (parts p)).length, store i ((upto turns (parts p)).map byte) addr) else none := by
  intro turns
  induction turns with
  | zero =>
    intro i p addr _
    simp [loop, upto, store]
  | succ turns ih =>
    intro i p addr h0
    by_cases hp : p = []
    · subst hp
      rw [loop_end]
      simp [parts, upto, store]
    · rcases parts_cases p with hdot | ⟨c, r, hdot, hc⟩
      · rw [parts_last hdot, loop_turn (List.append_nil p).symm (.inl rfl) h0 hdot hp, List.tail_nil, loop_end]
        simp only [upto, hp, false_and, if_false, upto_nil, List.forall_mem_singleton, List.map_cons, List.map_nil, store,
          List.length_singleton]
      · have hsub : 0 ∉ c ∧ 0 ∉ r := by
          rw [hc, List.mem_append, List.mem_cons] at h0
          exact ⟨fun h => h0 (.inl h), fun h => h0 (.inr (.inr h))⟩
        have hupto : upto (turns + 1) (c :: parts r) = c :: upto turns (parts r) := by
          simp [upto, parts_ne_nil r]
        rw [loop_turn hc (.inr ⟨r, rfl⟩) hsub.1 hdot hp, List.tail_cons, ih (i + 1) r _ hsub.2]
        rw [show parts p = c :: parts r from hc ▸ parts_dot hdot r, hupto]
        simp only [List.forall_mem_cons, List.map_cons, List.length_cons, store]
        by_cases ht : Taken c
        · simp only [ht, true_and, if_true, Nat.add_assoc, Nat.add_comm 1]
        · simp only [ht, false_and, if_false]

/-- The address, from the parts that are read. -/
theorem parseip_eq (h0 : 0 ∉ name) (addr : Vector UInt8 4) :
    parseip addr name = if ∀ c ∈ given name, Taken c then
      switch (given name).length (store 0 ((given name).map byte) addr) else none := by
  unfold parseip
  rw [loop_eq 4 0 name addr h0, Nat.zero_add]
  unfold given
  split <;> rfl

end

end Libtask.Net
