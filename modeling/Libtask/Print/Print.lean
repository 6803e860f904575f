/-
  Libtask.Print.Print — formatted output (print.c).

  Memory is a list of bytes and a pointer into it its index, so that a write outside is an error;
  so is `*--p` below `buf`, a character read behind the terminating NUL, and a failed assertion.
  Strings are blocks that end in a NUL, and no part of the memory that is written.

  A `va_list` is what is left of the arguments: each is the eight bytes of its slot, of which
  `va_arg` reads as many as the type has, or a `char*`. `int` is 32 bits, `long` is 64.

  `err` is what `strerror(errno)` returns.
-/

import Mathlib.Algebra.Group.Nat.Defs
import Mathlib.Algebra.Ring.Int.Defs
import Libtask.Lib.Bytes

namespace Libtask.Print

open Libtask.Lib.Bytes

def int (x : Int) : Int := x.bmod (2 ^ 32)

/-- An `int` as a `size_t`. -/
def size_t (x : Int) : Nat := (x % 2 ^ 64).toNat

def chars (cs : List Char) : List UInt8 := cs.map Char.toUInt8

inductive Arg where
  | word (a : BitVec 64)
  | str (s : List UInt8)
  deriving DecidableEq, Repr

/-- `vseprint`'s `w`, the memory, and its `arg`. -/
structure Out where
  w : Int
  mem : List UInt8
  arg : List Arg
  deriving DecidableEq, Repr

structure Flags where
  long : Bool
  longlong : Bool
  unsigned : Bool
  deriving DecidableEq, Repr

/-- `printstr`'s `n` and `l`: how many bytes there are, and how many of them are the string's. -/
def clip (room l size : Int) : Int × Int :=
  let n := l
  let n := if n < size then size else n
  let n := if room ≤ n then int (room - 1) else n
  (n, if n < l then n else l)

/-- `if(n) memset(dst, ' ', n)` -/
def blanks (mem : List UInt8) (dst n : Int) : Except String (List UInt8) :=
  if n ≠ 0 then memset mem dst ' '.toUInt8 (size_t n) else .ok mem

def printstr (mem : List UInt8) (dst edst : Int) (s : List UInt8) (size : Int) : Except String (Int × List UInt8) :=
  let sign := if size < 0 then -1 else 1
  let size := if size < 0 then int (-size) else size
  if edst ≤ dst then .ok (dst, mem)
  else do
    let (n, l) := clip (edst - dst) (int (← strlen s)) size
    let mem ← if sign < 0 then do
        let mem ← memmove mem dst s (size_t l)
        blanks mem (dst + l) (int (n - l))
      else do
        let mem ← blanks mem dst (int (n - l))
        memmove mem (dst + n - l) s (size_t l)
    pure (dst + n, mem)

/-! ## Numbers -/

/-- `*--p = c`, where `s` is what is at `p` in `buf[30]`. -/
def down (s : List UInt8) (c : UInt8) : Except String (List UInt8) :=
  if s.length < 30 then .ok (c :: s) else .error "write below buf"

def digits : List UInt8 :=
  chars ['0', '1', '2', '3', '4', '5', '6', '7', '8', '9', 'a', 'b', 'c', 'd', 'e', 'f']

/-- `while(luv)`, which takes a byte of `buf` each turn. -/
def luvdigits (base : Nat) : (fuel luv : Nat) → List UInt8 → Except String (List UInt8)
  | 0, luv, s => if luv = 0 then .ok s else .error "write below buf"
  | fuel + 1, luv, s => if luv = 0 then .ok s else do luvdigits base fuel (luv / base) (← down s (digits.getD (luv % base) 0))

/-- `luv = va_arg(arg, …)`, of the slot `a`. -/
def luvarg (fl : Flags) (a : BitVec 64) : BitVec 64 :=
  if fl.longlong then a
  else if fl.long then a
  else if fl.unsigned then (a.setWidth 32).setWidth 64
  else (a.setWidth 32).signExtend 64

/-- What is at `p` behind `num:`, for `printstr`. -/
def num (base : Nat) (fl : Flags) (a : BitVec 64) : Except String (List UInt8) := do
  let luv := luvarg fl a
  -- `neg` is set here too, and not used
  let luv := if !fl.unsigned && luv.msb then -luv else luv
  let p ← down [] 0
  let p ← luvdigits base 30 luv.toNat p
  let p ← if base = 16 then do down (← down p 'x'.toUInt8) '0'.toUInt8 else pure p
  if base = 8 ∨ luv = 0 then down p '0'.toUInt8 else pure p

/-! ## `vseprint` -/

/-- The cases of the inner `switch`. -/
inductive Case where
  | minus
  | digit
  | l
  | u
  | num (base : Nat)
  | c
  | s
  | r
  | default
  deriving DecidableEq, Repr

def switch (c : UInt8) : Case :=
  match Char.ofNat c.toNat with
  | '-' => .minus
  | '0' | '1' | '2' | '3' | '4' | '5' | '6' | '7' | '8' | '9' => .digit
  | 'l' => .l
  | 'u' => .u
  | 'd' => .num 10
  | 'o' => .num 8
  | 'p' | 'x' => .num 16
  | 'c' => .c
  | 's' => .s
  | 'r' => .r
  | _ => .default

def Xverb : List UInt8 := chars ['X', '*', 'v', 'e', 'r', 'b', '*']

def vaword : List Arg → Except String (BitVec 64 × List Arg)
  | .word a :: arg => .ok (a, arg)
  | _ => .error "va_arg: no such argument"

def vastr : List Arg → Except String (List UInt8 × List Arg)
  | .str s :: arg => .ok (s, arg)
  | _ => .error "va_arg: no such argument"

section
variable (err : List UInt8) (edst : Int)

/-- `w = printstr(w, edst, s, size*sign)`. -/
def Out.printstr (o : Out) (s : List UInt8) (size sign : Int) : Except String Out := do
  let (w, mem) ← Print.printstr o.mem o.w edst s (int (size * sign))
  pure { o with w, mem }

/-- The inner loop from `p` on, up to `break2`, and where `p` is then. -/
def directive : (p : List UInt8) → (fl : Flags) → (size sign : Int) → Out → Except String (List UInt8 × Out)
  | [], _, _, _, _ => .error "read behind the format"
  | c :: p, fl, size, sign, o =>
    if c = 0 then .ok (c :: p, o)
    else match switch c with
      | .minus => directive p fl size (-1) o
      | .digit => directive p fl (int (int (int (size * 10) + c.toNat) - 48)) sign o
      | .l => directive p (if fl.long then { fl with longlong := true } else { fl with long := true }) size sign o
      | .u => directive p { fl with unsigned := true } size sign o
      | .num base => do
        let (a, arg) ← vaword o.arg
        let s ← num base fl a
        pure (c :: p, ← { o with arg }.printstr edst s size sign)
      | .c => do
        let (a, arg) ← vaword o.arg
        pure (c :: p, ← { o with arg }.printstr edst [⟨a.setWidth 8⟩, 0] size sign)
      | .s => do
        let (s, arg) ← vastr o.arg
        pure (c :: p, ← { o with arg }.printstr edst s size sign)
      | .r => do pure (c :: p, ← o.printstr edst err size sign)
      | .default => .ok (Xverb ++ [0], o)

/-- The outer loop from `p` on. -/
def turns : (fuel : Nat) → (p : List UInt8) → Out → Except String Out
  | 0, _, _ => .error "out of fuel"
  | _ + 1, [], _ => .error "read behind the format"
  | fuel + 1, c :: p, o =>
    if c ≠ 0 ∧ o.w < edst - 1 then
      if c = '%'.toUInt8 then do
        let (p, o) ← directive err edst p ⟨false, false, false⟩ 0 1 o
        turns fuel p.tail o
      else do
        let mem ← write o.mem o.w [c]
        turns fuel p { o with w := o.w + 1, mem }
    else .ok o

/-- A turn takes a character of the format, and at the end there may be six of `Xverb`. The pointer
    returned is always `dst`; given is where the NUL was stored. -/
def vseprint (mem : List UInt8) (dst : Int) (fmt : List UInt8) (arg : List Arg) : Except String Out := do
  let o ← turns err edst (fmt.length + 8) fmt ⟨dst, mem, arg⟩
  if o.w < edst then do
    let mem ← write o.mem o.w [0]
    pure { o with mem }
  else .error "assertion failed: w < edst"

end

def vsnprint (err mem : List UInt8) (dst : Int) (n : Nat) (fmt : List UInt8) (arg : List Arg) : Except String Out :=
  vseprint err (dst + n) mem dst fmt arg

/-- What is written; `buf` is what the stack has. -/
def vfprint (err buf fmt : List UInt8) (arg : List Arg) : Except String (List UInt8) := do
  let o ← vseprint err 256 buf 0 fmt arg
  pure (o.mem.take (← strlen o.mem))

example : vsnprint [0] (List.replicate 12 1) 0 12 (chars ['a', '%', '-', '4', 'd', '|', '%', 'x'] ++ [0]) [.word 42, .word 255] =
    .ok ⟨10, chars ['a', '4', '2', ' ', ' ', '|', '0', 'x', 'f', 'f'] ++ [0, 1], []⟩ := by decide +kernel

end Libtask.Print
