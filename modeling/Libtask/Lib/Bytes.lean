/-
  Libtask.Lib.Bytes — memory as a list of bytes, with bounds.

  A write or a read outside is an error. `Within lo hi`: only bytes in `[lo, hi)` changed.
-/

import Mathlib.Data.List.Basic
import Libtask.Lib.Returns

namespace Libtask.Lib.Bytes

/-- `cs` is stored at `i`. -/
def write (mem : List UInt8) (i : Int) (cs : List UInt8) : Except String (List UInt8) :=
  if 0 ≤ i ∧ i + cs.length ≤ mem.length then .ok (mem.take i.toNat ++ cs ++ mem.drop (i.toNat + cs.length))
  else .error "write out of bounds"

def memset (mem : List UInt8) (i : Int) (c : UInt8) (n : Nat) : Except String (List UInt8) :=
  if i + n ≤ mem.length then write mem i (List.replicate n c) else .error "write out of bounds"

/-- From the block `s`, which is not part of `mem`. -/
def memmove (mem : List UInt8) (i : Int) (s : List UInt8) (n : Nat) : Except String (List UInt8) :=
  if n ≤ s.length then write mem i (s.take n) else .error "read out of bounds"

def strlen (s : List UInt8) : Except String Nat :=
  if 0 ∈ s then .ok (s.idxOf 0) else .error "read out of bounds"

structure Within (lo hi : Int) (mem mem' : List UInt8) : Prop where
  length : mem'.length = mem.length
  outside : ∀ i : Nat, i < lo ∨ hi ≤ i → mem'[i]? = mem[i]?

section
variable {lo hi i : Int} {mem mem' mem'' cs s : List UInt8} {n : Nat}

theorem within_refl : Within lo hi mem mem := ⟨rfl, fun _ _ => rfl⟩

theorem Within.trans (h : Within lo hi mem mem') (h' : Within lo hi mem' mem'') : Within lo hi mem mem'' :=
  ⟨h'.length.trans h.length, fun i hi => (h'.outside i hi).trans (h.outside i hi)⟩

theorem Within.mono {lo' : Int} (h : Within lo hi mem mem') (hlo : lo' ≤ lo) : Within lo' hi mem mem' :=
  ⟨h.length, fun i hi => h.outside i (hi.imp_left fun hlt => Int.lt_of_lt_of_le hlt hlo)⟩

/-- The bytes `cs` are at `i`. -/
def Holds (mem : List UInt8) (i : Int) (cs : List UInt8) : Prop := ∀ k < cs.length, mem[i.toNat + k]? = cs[k]?

theorem write_ok (h0 : 0 ≤ lo) (hlo : lo ≤ i) (hhi : i + cs.length ≤ hi) (hm : hi ≤ mem.length) :
    Returns (write mem i cs) fun mem' => Within lo hi mem mem' ∧ Holds mem' i cs := by
  obtain ⟨k, rfl⟩ : ∃ k : Nat, i = k := ⟨i.toNat, by omega⟩
  have hlen : (mem.take k).length = k := by
    rw [List.length_take]
    omega
  refine ⟨_, if_pos ⟨by omega, by omega⟩, ⟨?_, fun j hj => ?_⟩, fun j hj => ?_⟩
  · simp only [Int.toNat_natCast, List.length_append, List.length_take, List.length_drop]
    omega
  · rw [Int.toNat_natCast, List.append_assoc]
    by_cases hjk : j < k
    · rw [List.getElem?_append_left (by omega), List.getElem?_take_of_lt hjk]
    · rw [List.getElem?_append_right (by omega), List.getElem?_append_right (by omega), List.getElem?_drop]
      congr 1
      omega
  · rw [Int.toNat_natCast, List.append_assoc, List.getElem?_append_right (by omega), List.getElem?_append_left (by omega)]
    congr 1
    omega

theorem write_length {mem' : List UInt8} (h : write mem i cs = .ok mem') : mem'.length = mem.length := by
  unfold write at h
  split at h
  · obtain rfl := Except.ok.inj h
    simp only [List.length_append, List.length_take, List.length_drop]
    omega
  · cases h

theorem write_in (h0 : 0 ≤ i) (hm : i + cs.length ≤ mem.length) : ∃ mem', write mem i cs = .ok mem' := ⟨_, if_pos ⟨h0, hm⟩⟩

theorem write_nil (h0 : 0 ≤ i) (hm : i ≤ mem.length) : write mem i [] = .ok mem := by
  have hlen : i + ([] : List UInt8).length ≤ mem.length := by simpa using hm
  unfold write
  rw [if_pos ⟨h0, hlen⟩, List.append_nil, List.length_nil, Nat.add_zero, List.take_append_drop]

/-- What is written right behind is written together. -/
theorem write_write {ds : List UInt8} (h : write mem i cs = .ok mem') (hm : i + cs.length + ds.length ≤ mem.length) :
    write mem' (i + cs.length) ds = write mem i (cs ++ ds) := by
  have hlen := write_length h
  unfold write at h
  split at h
  · rename_i hin
    obtain ⟨k, rfl⟩ : ∃ k : Nat, i = k := ⟨i.toNat, by omega⟩
    have htake : (mem.take k).length = k := by
      rw [List.length_take]
      omega
    obtain rfl := Except.ok.inj h
    rw [Int.toNat_natCast] at hlen ⊢
    have hfront : (mem.take k ++ cs).length = k + cs.length := by rw [List.length_append, htake]
    have hto : ((k : Int) + cs.length).toNat = (mem.take k ++ cs).length := by omega
    unfold write
    rw [if_pos ⟨by omega, by rw [hlen]; exact hm⟩, if_pos ⟨by omega, by rw [List.length_append]; omega⟩, hto,
      List.take_append_length, List.drop_length_add_append, List.drop_drop, Int.toNat_natCast, List.length_append, List.append_assoc, List.append_assoc,
      List.append_assoc, List.append_assoc, Nat.add_assoc]
  · cases h

/-- Two writes for one. -/
theorem write_append {ds : List UInt8} (h : write mem i (cs ++ ds) = .ok mem'') :
    ∃ mem', write mem i cs = .ok mem' ∧ write mem' (i + cs.length) ds = .ok mem'' := by
  have hin : 0 ≤ i ∧ i + cs.length + ds.length ≤ mem.length := by
    unfold write at h
    split at h
    · rename_i hin
      rw [List.length_append] at hin
      omega
    · cases h
  have hfirst : write mem i cs = .ok (mem.take i.toNat ++ cs ++ mem.drop (i.toNat + cs.length)) := if_pos ⟨hin.1, by omega⟩
  exact ⟨_, hfirst, (write_write hfirst hin.2).trans h⟩

theorem memset_ok {c : UInt8} (h0 : 0 ≤ lo) (hlo : lo ≤ i) (hhi : i + n ≤ hi) (hm : hi ≤ mem.length) :
    Returns (memset mem i c n) fun mem' => Within lo hi mem mem' ∧ Holds mem' i (List.replicate n c) := by
  rw [memset, if_pos (by omega)]
  exact write_ok h0 hlo (by rwa [List.length_replicate]) hm

theorem memmove_ok (hn : n ≤ s.length) (h0 : 0 ≤ lo) (hlo : lo ≤ i) (hhi : i + n ≤ hi) (hm : hi ≤ mem.length) :
    Returns (memmove mem i s n) fun mem' => Within lo hi mem mem' ∧ Holds mem' i (s.take n) := by
  rw [memmove, if_pos hn]
  refine write_ok h0 hlo ?_ hm
  rw [List.length_take]
  omega

theorem strlen_ok (h : 0 ∈ s) : Returns (strlen s) (· = s.idxOf 0) := ⟨_, if_pos h, rfl⟩

theorem idxOf_lt (h : 0 ∈ s) : s.idxOf 0 < s.length := List.idxOf_lt_length_iff.mpr h

end

end Libtask.Lib.Bytes
