/-
  Libtask.Sched.Writes — what `__wrap_write` sends and reports.

  `Phase` lists where a call can be, with what holds there. Of every call, whatever the kernel and
  the waits answer:
  - `sends_prefix`: the kernel took the first `k` of less than 2^31 bytes, and `k` is returned if
    the call does not fail, all of them but for an answer 0, a timeout or a shutdown.
  - `reports_sent`: a call of less than 2^31 bytes hides bytes that were taken exactly if the kernel
    failed behind them.
  - `totals_hold`: `tot` is what was taken exactly as long as that is less than 2^31.

  `hides_sent` and `total_wraps` are calls in which that fails.
-/

import Libtask.Sched.Hooks

namespace Libtask.Sched.Hooks

open Libtask.Lib.Calls

set_option linter.style.nameCheck false

/-! ## What the kernel takes -/

/-- The kernel takes at most what it is asked to, and 0x7ffff000 bytes, or fails. -/
def Syscall.Takes : Syscall → Reply → Prop
  | .write _ _ n, a => a.r = -1 ∨ 0 ≤ a.r ∧ a.r ≤ n.toNat ∧ a.r ≤ 0x7ffff000
  | _, _ => True

/-- `buf[off..off+k)`. -/
def bytes (buf : Int → UInt8) (off : Int) (k : Nat) : List UInt8 := (List.range k).map fun i : Nat => buf (off + i)

/-- What the kernel took, in order. -/
def accepted (buf : Int → UInt8) : List (Syscall × Reply) → List UInt8
  | [] => []
  | (.write _ off _, a) :: rest => accepted buf rest ++ bytes buf off a.r.toNat
  | _ :: rest => accepted buf rest

/-- Each call of the kernel was a `write` from the first byte not yet taken, in a buffer of `n`. -/
def Tracks (n : Nat) : List (Syscall × Reply) → Prop
  | [] => True
  | (.write _ off len, _) :: rest => (off = taken rest ∧ 0 ≤ off ∧ off + len.toNat ≤ n) ∧ Tracks n rest
  | _ :: _ => False

theorem taken_cons (c : Syscall) (a : Reply) (rest : List (Syscall × Reply)) :
    taken ((c, a) :: rest) = max a.r 0 + taken rest := rfl

theorem taken_nonneg (replies : List (Syscall × Reply)) : 0 ≤ taken replies := by
  induction replies with
  | nil => exact Int.le_refl 0
  | cons x rest ih =>
    rw [taken_cons]
    omega

theorem bytes_append (buf : Int → UInt8) (j k : Nat) : bytes buf 0 j ++ bytes buf j k = bytes buf 0 (j + k) := by
  unfold bytes
  rw [List.range_add, List.map_append, List.map_map]
  congr 1
  refine List.map_congr_left fun i _ => ?_
  simp

theorem accepted_prefix (buf : Int → UInt8) {n : Nat} : ∀ {replies : List (Syscall × Reply)}, Tracks n replies →
    accepted buf replies = bytes buf 0 (taken replies).toNat := by
  intro replies
  induction replies with
  | nil => exact fun _ => rfl
  | cons x rest ih =>
    obtain ⟨c, a⟩ := x
    intro h
    cases c with
    | write fd off len =>
      obtain ⟨⟨hoff, h0, -⟩, hrest⟩ := h
      have hnn := taken_nonneg rest
      have hto : ((taken rest).toNat : Int) = off := by omega
      show accepted buf rest ++ bytes buf off a.r.toNat = _
      rw [ih hrest, ← hto, bytes_append, taken_cons]
      congr 1
      omega
    | _ => exact h.elim

/-! ## Where a call can be -/

/-- The kernel said EAGAIN. -/
def stalled (fd : Int) (tot : BitVec 32) : Io (BitVec 32 ⊕ Ret) := do
  let _ ← fdwait fd 'w'
  let _err := int (← taskdata (some 0))
  if _err ≠ 0 then pure (.inr ⟨if 0 < tot.toInt then tot.toInt else -1, some (.lib _err)⟩) else pure (.inl tot)

/-- The wait is over. -/
def woken (tot : BitVec 32) : Io (BitVec 32 ⊕ Ret) := do
  let _err := int (← taskdata (some 0))
  if _err ≠ 0 then pure (.inr ⟨if 0 < tot.toInt then tot.toInt else -1, some (.lib _err)⟩) else pure (.inl tot)

/-- `tot` is what was taken. -/
structure Exact (n : BitVec 64) (tot : BitVec 32) (l : List (Syscall × Reply)) : Prop where
  total : tot.toInt = taken l
  tracks : Tracks n.toNat l
  le : taken l ≤ n.toNat

/-- As long as less than 2^31 bytes were taken, `tot` is right. -/
structure Sofar (n : BitVec 64) (tot : BitVec 32) (l : List (Syscall × Reply)) : Prop where
  exact : taken l < 2 ^ 31 → Exact n tot l
  big : 2 ^ 31 ≤ taken l → 2 ^ 31 ≤ n.toNat

/-- Then the kernel was called for bytes that were not the next ones. -/
def Lost (n : BitVec 64) (l : List (Syscall × Reply)) : Prop := 2 ^ 31 ≤ taken l → ¬ Tracks n.toNat l

/-- The last wait ended by timeout or shutdown. -/
def GaveUp (s : Seen) : Prop := ∃ o rest, s.waits = o :: rest ∧ o ≠ .event

/-- The kernel's last answer, if it failed, was EAGAIN. -/
def Well (l : List (Syscall × Reply)) : Prop := ∀ c a rest, l = (c, a) :: rest → a.r < 0 → again a.errno = true

/-- The kernel's last answer was an error other than EAGAIN, behind bytes that it took. -/
def FailedLate (l : List (Syscall × Reply)) : Prop :=
  ∃ c a rest, l = (c, a) :: rest ∧ a.r < 0 ∧ again a.errno = false ∧ 0 < taken rest

inductive Phase (fd : Int) (n : BitVec 64) : Io (BitVec 32 ⊕ Ret) → Seen → Prop
  | enter {s : Seen} : s.replies = [] → Phase fd n (__wrap_write fd n).enter s
  | loop (tot : BitVec 32) {s : Seen} : Sofar n tot s.replies → (tot.signExtend 64).ult n = true →
      Phase fd n (.pure (.inl tot)) s
  | stalled (tot : BitVec 32) {s : Seen} : Sofar n tot s.replies → Lost n s.replies → Well s.replies →
      (tot.signExtend 64).ult n = true → Phase fd n (Hooks.stalled fd tot) s
  | woken (tot : BitVec 32) {s : Seen} (o : Outcome) (rest : List Outcome) : Sofar n tot s.replies → Lost n s.replies →
      Well s.replies → (tot.signExtend 64).ult n = true → s.waits = o :: rest → s.udata = o.udata →
      Phase fd n (Hooks.woken tot) s
  /-- All is sent, or the kernel took nothing. -/
  | total (tot : BitVec 32) {s : Seen} : Sofar n tot s.replies → Well s.replies →
      ((tot.signExtend 64).ult n = true → ∃ c a rest, s.replies = (c, a) :: rest ∧ a.r = 0) →
      Phase fd n (.pure (.inr ⟨tot.toInt, none⟩)) s
  | waited (tot : BitVec 32) {s : Seen} (e : Errno) : Sofar n tot s.replies → Lost n s.replies → Well s.replies →
      (tot.signExtend 64).ult n = true → GaveUp s → Phase fd n (.pure (.inr ⟨if 0 < tot.toInt then tot.toInt else -1, some e⟩)) s
  | failed (tot : BitVec 32) {s : Seen} (e : Int) (c : Syscall) (a : Reply) (rest : List (Syscall × Reply)) :
      Sofar n tot s.replies → Lost n s.replies → (tot.signExtend 64).ult n = true → s.replies = (c, a) :: rest → a.r < 0 →
      again a.errno = false → Phase fd n (.pure (.inr ⟨-1, some (.kernel e)⟩)) s

section
variable {fd u : Int} {n : BitVec 64} {tot : BitVec 32} {s s' : Seen} {l : List (Syscall × Reply)} {c : Io (BitVec 32 ⊕ Ret)} {a : Reply}

theorem Exact.nonneg (h : Exact n tot l) : 0 ≤ tot.toInt := h.total ▸ taken_nonneg _

theorem Exact.small (h : Exact n tot l) : taken l < 2 ^ 31 := by
  have := BitVec.toInt_lt (x := tot)
  have := h.total
  omega

theorem signExtend_toNat (h0 : 0 ≤ tot.toInt) : ((tot.signExtend 64).toNat : Int) = tot.toInt := by
  have hs : (tot.signExtend 64).toInt = tot.toInt := BitVec.toInt_signExtend_of_le (by decide)
  have hpos : 2 * (tot.signExtend 64).toNat < 2 ^ 64 := BitVec.toInt_pos_iff.mp (hs ▸ h0)
  rw [← hs, BitVec.toInt_eq_toNat_of_lt hpos]

/-- The comparison of the loop, for a `tot` that is not negative. -/
theorem more_iff (h0 : 0 ≤ tot.toInt) : (tot.signExtend 64).ult n = true ↔ tot.toInt < n.toNat := by
  have heq := signExtend_toNat h0
  constructor
  · intro hm
    have hlt : (tot.signExtend 64).toNat < n.toNat := of_decide_eq_true hm
    omega
  · intro hlt
    exact decide_eq_true (by omega)

/-- What is left to write. -/
theorem left_toNat (h0 : 0 ≤ tot.toInt) (hm : (tot.signExtend 64).ult n = true) :
    ((n - tot.signExtend 64).toNat : Int) = n.toNat - tot.toInt := by
  have heq := signExtend_toNat h0
  have hlt := (more_iff h0).mp hm
  have hsub : (n - tot.signExtend 64).toNat = n.toNat - (tot.signExtend 64).toNat :=
    BitVec.toNat_sub_of_le (BitVec.le_def.mpr (by omega))
  omega

/-- The next call of the kernel is for what is left. -/
theorem Exact.next (h : Exact n tot l) (hm : (tot.signExtend 64).ult n = true) (fd : Int) (a : Reply) :
    Tracks n.toNat (((.write fd tot.toInt (n - tot.signExtend 64)), a) :: l) := by
  have hlt := (more_iff h.nonneg).mp hm
  have hleft := left_toNat h.nonneg hm
  refine ⟨⟨h.total, h.nonneg, ?_⟩, h.tracks⟩
  omega

/-- Behind 2^31 bytes, the kernel is called with a wrong offset. -/
theorem lost_next (hs : 2 ^ 31 ≤ taken l) (fd : Int) (len : BitVec 64) (a : Reply) :
    ¬ Tracks n.toNat (((.write fd tot.toInt len), a) :: l) := by
  intro h
  have hoff : tot.toInt = taken l := h.1.1
  have := BitVec.toInt_lt (x := tot)
  omega

/-- The kernel took nothing. -/
theorem Sofar.none (h : Sofar n tot l) (hm : (tot.signExtend 64).ult n = true) (ha : a.r ≤ 0) (fd : Int) :
    Sofar n tot (((.write fd tot.toInt (n - tot.signExtend 64)), a) :: l) ∧
      Lost n (((.write fd tot.toInt (n - tot.signExtend 64)), a) :: l) := by
  have ht : taken (((.write fd tot.toInt (n - tot.signExtend 64)), a) :: l) = taken l := by
    rw [taken_cons, max_eq_right ha, Int.zero_add]
  refine ⟨⟨fun hlt => ?_, fun hb => h.big (ht ▸ hb)⟩, fun hb => lost_next (ht ▸ hb) fd _ a⟩
  have he := h.exact (ht ▸ hlt)
  exact ⟨he.total.trans ht.symm, he.next hm fd a, ht ▸ he.le⟩

/-- The kernel took some bytes. -/
theorem Sofar.took (h : Sofar n tot l) (hm : (tot.signExtend 64).ult n = true) (ha : 0 < a.r) (hmax : a.r ≤ 0x7ffff000)
    (hle : a.r ≤ (n - tot.signExtend 64).toNat) (fd : Int) :
    Sofar n (tot + BitVec.ofInt 32 a.r) (((.write fd tot.toInt (n - tot.signExtend 64)), a) :: l) := by
  have ht : taken (((.write fd tot.toInt (n - tot.signExtend 64)), a) :: l) = a.r + taken l := by
    rw [taken_cons, max_eq_left (by omega)]
  refine ⟨fun hlt => ?_, fun hb => ?_⟩
  · have he := h.exact (by omega)
    have hleft := left_toNat he.nonneg hm
    have htot := he.total
    have hnn := he.nonneg
    have hsum : (tot + BitVec.ofInt 32 a.r).toInt = int (a.r + taken l) := by
      rw [BitVec.toInt_add, show (BitVec.ofInt 32 a.r).toInt = a.r from int_of_small (by omega) (by omega), htot, Int.add_comm, int,
        BitVec.toInt_ofInt]
    refine ⟨?_, he.next hm fd a, by omega⟩
    rw [hsum, ht, int_of_small (by omega) (by omega)]
  · by_cases hlt : taken l < 2 ^ 31
    · have he := h.exact hlt
      have hleft := left_toNat he.nonneg hm
      have htot := he.total
      omega
    · exact h.big (by omega)

theorem well_answer {c : Syscall} {a : Reply} {rest : List (Syscall × Reply)} (h : a.r < 0 → again a.errno = true) :
    Well ((c, a) :: rest) := by
  intro c' a' rest' he
  obtain ⟨hca, -⟩ := List.cons.inj he
  obtain ⟨-, rfl⟩ := Prod.mk.inj hca
  exact h

/-- What one step of a call does. -/
theorem phase_step (h : Phase fd n c s) {o : Op} {k : Ans o → Io (BitVec 32 ⊕ Ret)} (hn : (__wrap_write fd n).next c = .call o k)
    {x : Ans o} (hw : may Syscall.Takes o s x s') : Phase fd n (k x) s' := by
  cases h with
  | enter hs =>
    cases hn
    obtain ⟨rfl, rfl⟩ := hw
    have he : Exact n 0 s.replies := ⟨by rw [hs]; rfl, by rw [hs]; trivial, by rw [hs]; exact Int.natCast_nonneg _⟩
    have hso : Sofar n 0 s.replies := ⟨fun _ => he, fun hb => absurd he.small (by omega)⟩
    show Phase fd n (writes n 0) _
    unfold writes
    split
    · rename_i hm
      exact .loop 0 hso hm
    · rename_i hm
      refine .total 0 hso (fun c a rest hr => ?_) fun hm' => absurd hm' hm
      exact nomatch hs.symm.trans hr
  | loop tot hso hm =>
    cases hn
    obtain ⟨ha, rfl⟩ := hw
    show Phase fd n (if int x.r < 0 ∧ again x.errno then stalled fd tot
      else if int x.r < 0 then pure (.inr x.ret)
      else if int x.r = 0 then pure (.inr ⟨tot.toInt, none⟩) else writes n (tot + BitVec.ofInt 32 x.r)) _
    rcases ha with hr | ⟨h0, hle, hmax⟩
    · have hint : int x.r = -1 := by rw [hr]; rfl
      obtain ⟨hso', hl⟩ := hso.none hm (a := x) (by omega) fd
      split
      · rename_i hag
        exact .stalled tot hso' hl (well_answer fun _ => hag.2) hm
      · rename_i hag
        have hret : x.ret = ⟨-1, some (.kernel x.errno)⟩ := by
          simp only [Reply.ret, hint]
          rfl
        rw [if_pos (by omega), hret]
        refine .failed tot x.errno _ x _ hso' hl hm rfl (by omega) ?_
        exact Bool.eq_false_iff.mpr fun h => hag ⟨by omega, h⟩
    · have hint : int x.r = x.r := int_of_small (by omega) (by omega)
      have hwell : ∀ l, Well ((.write fd tot.toInt (n - tot.signExtend 64), x) :: l) := fun l =>
        well_answer fun hneg => absurd hneg (by omega)
      rw [hint, if_neg (by omega), if_neg (by omega)]
      split
      · rename_i hz
        exact .total tot (hso.none hm (a := x) (by omega) fd).1 (hwell _) fun _ => ⟨_, x, _, rfl, hz⟩
      · have hso' := hso.took hm (by omega) hmax hle fd
        unfold writes
        split
        · rename_i hm'
          exact .loop _ hso' hm'
        · rename_i hm'
          exact .total _ hso' (hwell _) fun h => absurd h hm'
  | stalled tot hso hl hwell hm =>
    cases hn
    obtain rfl := hw
    exact .woken tot x s.waits hso hl hwell hm rfl rfl
  | woken tot o rest hso hl hwell hm hwaits hu =>
    cases hn
    obtain ⟨rfl, rfl⟩ := hw
    show Phase fd n (if int s.udata ≠ 0 then _ else _) _
    rw [hu, int_udata]
    split
    · rename_i ho
      exact .waited tot _ hso hl hwell hm ⟨o, rest, hwaits, fun he => ho (udata_eq_zero.mpr he)⟩
    · exact .loop tot hso hm
  | total => cases hn
  | waited => cases hn
  | failed => cases hn

theorem path_phase (h : Path (may Syscall.Takes) (__wrap_write fd n) ⟨u, [], []⟩ c s) : Phase fd n c s := by
  induction h with
  | enter => exact .enter rfl
  | call a _ hn hw ih => exact phase_step ih hn hw

/-- As long as less than 2^31 bytes are there to send. -/
theorem Phase.exact (h : Phase fd n c s) (hn : n.toNat < 2 ^ 31) : ∃ tot, Exact n tot s.replies := by
  have hof : ∀ {tot}, Sofar n tot s.replies → Exact n tot s.replies := fun hso =>
    hso.exact (Int.not_le.mp fun hb => by have := hso.big hb; omega)
  cases h with
  | enter hs => exact ⟨0, by rw [hs]; rfl, by rw [hs]; trivial, by rw [hs]; exact Int.natCast_nonneg _⟩
  | loop tot hso _ => exact ⟨tot, hof hso⟩
  | stalled tot hso _ _ _ => exact ⟨tot, hof hso⟩
  | woken tot _ _ hso _ _ _ _ _ => exact ⟨tot, hof hso⟩
  | total tot hso _ _ => exact ⟨tot, hof hso⟩
  | waited tot _ hso _ _ _ _ => exact ⟨tot, hof hso⟩
  | failed tot _ _ _ _ hso _ _ _ _ _ => exact ⟨tot, hof hso⟩

/-- Only where it says so the call is over. -/
theorem Phase.returned {r : Ret} (h : Phase fd n c s) (hr : (__wrap_write fd n).next c = .pure (.inr r)) : c = .pure (.inr r) := by
  cases h with
  | total => exact hr
  | waited => exact hr
  | failed => exact hr
  | _ => cases hr

end

/-! ## What a call reports -/

section
variable {fd u : Int} {n : BitVec 64} {s : Seen} {c : Io (BitVec 32 ⊕ Ret)}

/-- What the kernel took, at any time, is a prefix of the buffer, and its length is returned. -/
theorem sends_prefix (buf : Int → UInt8) (h : Path (may Syscall.Takes) (__wrap_write fd n) ⟨u, [], []⟩ c s)
    (hn : n.toNat < 2 ^ 31) : ∃ k ≤ n.toNat, accepted buf s.replies = bytes buf 0 k ∧
      ∀ r, (__wrap_write fd n).next c = .pure (.inr r) → 0 ≤ r.m → r.m = k ∧
        (r.m < n.toNat → (∃ c a rest, s.replies = (c, a) :: rest ∧ a.r = 0) ∨ GaveUp s) := by
  have hp := path_phase h
  obtain ⟨tot₀, he⟩ := hp.exact hn
  have hnn := taken_nonneg s.replies
  have hle := he.le
  refine ⟨(taken s.replies).toNat, by omega, accepted_prefix buf he.tracks, fun r hr h0 => ?_⟩
  obtain rfl := hp.returned hr
  have hof : ∀ {tot}, Sofar n tot s.replies → tot.toInt = taken s.replies := fun hso => (hso.exact he.small).total
  cases hp with
  | total tot hso _ hz =>
    have htot := hof hso
    refine ⟨?_, fun hlt => .inl (hz ((more_iff (by omega)).mpr hlt))⟩
    show tot.toInt = _
    omega
  | waited tot e hso _ _ _ hg =>
    have htot := hof hso
    refine ⟨?_, fun _ => .inr hg⟩
    by_cases hpos : 0 < tot.toInt
    · simp only [if_pos hpos]
      omega
    · simp only [if_neg hpos] at h0
      omega
  | failed =>
    have h0 : (0 : Int) ≤ -1 := h0
    omega

/-- The kernel takes 4 bytes of 10, then 6. -/
theorem sends_prefix_two : ∃ c s, Path (may Syscall.Takes) (__wrap_write 5 10) ⟨0, [], []⟩ c s ∧
    (__wrap_write 5 10).next c = .pure (.inr ⟨10, none⟩) ∧ ∀ buf, accepted buf s.replies = bytes buf 0 10 := by
  have h₁ : Path (may Syscall.Takes) (__wrap_write 5 10) ⟨0, [], []⟩ _ _ := Path.enter.call 0 rfl ⟨rfl, rfl⟩
  have h₂ := h₁.call ⟨4, 0⟩ rfl ⟨.inr (by decide), rfl⟩
  have h₃ := h₂.call ⟨6, 0⟩ rfl ⟨.inr (by decide), rfl⟩
  refine ⟨_, _, h₃, rfl, fun buf => ?_⟩
  obtain ⟨k, -, hacc, hret⟩ := sends_prefix buf h₃ (by decide)
  obtain ⟨hk, -⟩ := hret _ rfl (by decide)
  have hk : (k : Int) = 10 := hk.symm
  rw [hacc, show k = 10 by omega]

/-- A call of less than 2^31 bytes says how many were sent, unless the kernel failed behind some. -/
theorem reports_sent (h : Path (may Syscall.Takes) (__wrap_write fd n) ⟨u, [], []⟩ c s) (hn : n.toNat < 2 ^ 31) {r : Ret}
    (hr : (__wrap_write fd n).next c = .pure (.inr r)) :
    (r.m = -1 → taken s.replies = 0) ∧ (0 < taken s.replies → r.m = taken s.replies) ↔ ¬ FailedLate s.replies := by
  have hp := path_phase h
  obtain ⟨tot₀, he⟩ := hp.exact hn
  have hnn := taken_nonneg s.replies
  obtain rfl := hp.returned hr
  have hof : ∀ {tot}, Sofar n tot s.replies → tot.toInt = taken s.replies := fun hso => (hso.exact he.small).total
  have hwell : Well s.replies → ¬ FailedLate s.replies := fun hwell hf => by
    obtain ⟨c, a, rest, hl, hneg, hag, -⟩ := hf
    exact nomatch hag.symm.trans (hwell c a rest hl hneg)
  cases hp with
  | total tot hso hwl _ =>
    have htot := hof hso
    refine iff_of_true ⟨fun hm => ?_, fun _ => htot⟩ (hwell hwl)
    have hm : tot.toInt = -1 := hm
    omega
  | waited tot e hso _ hwl _ _ =>
    have htot := hof hso
    refine iff_of_true ⟨fun hm => ?_, fun hpos => ?_⟩ (hwell hwl)
    · by_contra hne
      have hpos : 0 < tot.toInt := by omega
      simp only [if_pos hpos] at hm
      omega
    · have hpos : 0 < tot.toInt := by omega
      simp only [if_pos hpos]
      exact htot
  | failed tot e c a rest _ _ _ hl hneg hag =>
    have ht : taken s.replies = taken rest := by
      rw [hl, taken_cons]
      omega
    constructor
    · rintro ⟨hzero, -⟩ ⟨c', a', rest', hl', -, -, hpos⟩
      obtain ⟨-, rfl⟩ := List.cons.inj (hl.symm.trans hl')
      have hz := hzero rfl
      omega
    · intro hf
      have hz : taken rest = 0 := by
        have := taken_nonneg rest
        by_contra hne
        exact hf ⟨c, a, rest, hl, hneg, hag, by omega⟩
      exact ⟨fun _ => ht.trans hz, fun hpos => by omega⟩

/-- The kernel takes 4 bytes of 10, and the next time nothing. -/
theorem reports_sent_four : ∃ c s, Path (may Syscall.Takes) (__wrap_write 5 10) ⟨0, [], []⟩ c s ∧
    (__wrap_write 5 10).next c = .pure (.inr ⟨4, none⟩) ∧ (0 < taken s.replies → 4 = taken s.replies) := by
  have h₁ : Path (may Syscall.Takes) (__wrap_write 5 10) ⟨0, [], []⟩ _ _ := Path.enter.call 0 rfl ⟨rfl, rfl⟩
  have h₂ := h₁.call ⟨4, 0⟩ rfl ⟨.inr (by decide), rfl⟩
  have h₃ := h₂.call ⟨0, 0⟩ rfl ⟨.inr (by decide), rfl⟩
  refine ⟨_, _, h₃, rfl, ((reports_sent h₃ (by decide) rfl).mpr ?_).2⟩
  rintro ⟨c, a, rest, hl, hneg, -, -⟩
  obtain ⟨-, rfl⟩ := Prod.mk.inj (List.cons.inj hl).1
  exact absurd hneg (by decide)

/-- The kernel takes 4 bytes of 10, and then fails with EPIPE: -1 is returned. -/
theorem hides_sent : ∃ c s, Path (may Syscall.Takes) (__wrap_write 5 10) ⟨0, [], []⟩ c s ∧
    (__wrap_write 5 10).next c = .pure (.inr ⟨-1, some (.kernel 32)⟩) ∧ taken s.replies = 4 := by
  have h₁ : Path (may Syscall.Takes) (__wrap_write 5 10) ⟨0, [], []⟩ _ _ := Path.enter.call 0 rfl ⟨rfl, rfl⟩
  have h₂ := h₁.call ⟨4, 0⟩ rfl ⟨.inr (by decide), rfl⟩
  have h₃ := h₂.call ⟨-1, 32⟩ rfl ⟨.inl rfl, rfl⟩
  exact ⟨_, _, h₃, rfl, rfl⟩

/-- `tot` is what the kernel took, wherever the code uses it: in the calls of the kernel, which are
    for bytes of the buffer, in the loop, and where it is returned. -/
structure Totals (n : BitVec 64) (c : Io (BitVec 32 ⊕ Ret)) (s : Seen) : Prop where
  calls : Tracks n.toNat s.replies
  loop : ∀ tot, c = .pure (.inl tot) → tot.toInt = taken s.replies
  ret : ∀ m, c = .pure (.inr ⟨m, none⟩) → m = taken s.replies
  all : ∀ r, c = .pure (.inr r) → taken s.replies = n.toNat → r.m = taken s.replies

/-- Totals are right as long as the kernel took less than 2^31 bytes, and no longer. -/
theorem totals_hold (h : Path (may Syscall.Takes) (__wrap_write fd n) ⟨u, [], []⟩ c s) :
    Totals n c s ↔ taken s.replies < 2 ^ 31 := by
  have hp := path_phase h
  have hof : ∀ {tot}, Sofar n tot s.replies → taken s.replies < 2 ^ 31 → (tot.signExtend 64).ult n = true →
      Tracks n.toNat s.replies ∧ tot.toInt = taken s.replies ∧ taken s.replies < n.toNat := fun hso hlt hm => by
    have he := hso.exact hlt
    exact ⟨he.tracks, he.total, he.total ▸ (more_iff he.nonneg).mp hm⟩
  have hbig : ∀ tot : BitVec 32, tot.toInt = taken s.replies → taken s.replies < 2 ^ 31 := fun tot he => by
    have := BitVec.toInt_lt (x := tot)
    omega
  have hlost : Lost n s.replies → Totals n c s → taken s.replies < 2 ^ 31 := fun hl ht =>
    Int.not_le.mp fun hb => hl hb ht.calls
  cases hp with
  | enter hs =>
    have hz : taken s.replies = 0 := by rw [hs]; rfl
    exact iff_of_true ⟨by rw [hs]; trivial, nofun, nofun, nofun⟩ (by omega)
  | loop tot hso hm =>
    refine ⟨fun ht => hbig tot (ht.loop tot rfl), fun hlt => ?_⟩
    obtain ⟨htr, htot, -⟩ := hof hso hlt hm
    refine ⟨htr, fun tot' he => ?_, nofun, nofun⟩
    obtain rfl := Sum.inl.inj (Code.pure.inj he)
    exact htot
  | stalled tot hso hl _ hm => exact ⟨hlost hl, fun hlt => ⟨(hof hso hlt hm).1, nofun, nofun, nofun⟩⟩
  | woken tot o rest hso hl _ hm _ _ => exact ⟨hlost hl, fun hlt => ⟨(hof hso hlt hm).1, nofun, nofun, nofun⟩⟩
  | total tot hso _ _ =>
    refine ⟨fun ht => hbig tot (ht.ret _ rfl), fun hlt => ?_⟩
    have he := hso.exact hlt
    refine ⟨he.tracks, nofun, fun m hr => ?_, fun r hr _ => ?_⟩
    · obtain rfl : tot.toInt = m := congrArg Ret.m (Sum.inr.inj (Code.pure.inj hr))
      exact he.total
    · rw [← Sum.inr.inj (Code.pure.inj hr)]
      exact he.total
  | waited tot e hso hl _ hm _ =>
    refine ⟨hlost hl, fun hlt => ?_⟩
    obtain ⟨htr, -, hn⟩ := hof hso hlt hm
    exact ⟨htr, nofun, fun m hr => (nomatch congrArg Ret.errno (Sum.inr.inj (Code.pure.inj hr))), fun r _ hall => by omega⟩
  | failed tot e c a rest hso hl hm _ _ _ =>
    refine ⟨hlost hl, fun hlt => ?_⟩
    obtain ⟨htr, -, hn⟩ := hof hso hlt hm
    exact ⟨htr, nofun, fun m hr => (nomatch congrArg Ret.errno (Sum.inr.inj (Code.pure.inj hr))), fun r _ hall => by omega⟩

theorem totals_hold_four : ∃ c s, Path (may Syscall.Takes) (__wrap_write 5 10) ⟨0, [], []⟩ c s ∧ taken s.replies = 4 ∧
    Totals 10 c s := by
  have h₁ : Path (may Syscall.Takes) (__wrap_write 5 10) ⟨0, [], []⟩ _ _ := Path.enter.call 0 rfl ⟨rfl, rfl⟩
  have h₂ := h₁.call ⟨4, 0⟩ rfl ⟨.inr (by decide), rfl⟩
  exact ⟨_, _, h₂, rfl, (totals_hold h₂).mpr (by decide)⟩

/-- The kernel takes 2^31 bytes in two steps, which are all of them: -2^31 is returned. -/
theorem total_wraps : ∃ c s, Path (may Syscall.Takes) (__wrap_write 5 0x80000000) ⟨0, [], []⟩ c s ∧
    (__wrap_write 5 0x80000000).next c = .pure (.inr ⟨-0x80000000, none⟩) ∧ taken s.replies = 0x80000000 ∧
    ¬ Totals 0x80000000 c s := by
  have h₁ : Path (may Syscall.Takes) (__wrap_write 5 0x80000000) ⟨0, [], []⟩ _ _ := Path.enter.call 0 rfl ⟨rfl, rfl⟩
  have h₂ := h₁.call ⟨0x7ffff000, 0⟩ rfl ⟨.inr (by decide), rfl⟩
  have h₃ := h₂.call ⟨0x1000, 0⟩ rfl ⟨.inr (by decide), rfl⟩
  exact ⟨_, _, h₃, rfl, rfl, fun ht => absurd (ht.ret (-0x80000000) rfl) (by decide)⟩

end

end Libtask.Sched.Hooks
