/-
  Libtask.Primes.Tasks — what one task of the sieve received and sent.

  `At.Done` says it of a task at a statement whose call has not happened yet. The call happens
  when the history grows: `Follows` is that for a task in the call or at it, and every call of any
  task keeps it (`follows_self`, `follows_other`), since a channel has one reader and one writer.
-/

import Libtask.Lib.Sieve
import Libtask.Primes.Primes

namespace Libtask.Primes

open Function (update update_self update_of_ne)
open Libtask.Chan (InOp Called gave took held offered)
open Libtask.Lib.Sieve

/-! ## Statements -/

/-- The channel a task receives from. -/
def At.reads : At → Option Nat
  | .first c => some c
  | .next c _ _ => some c
  | .pass c _ _ _ => some c
  | _ => none

/-- The channel a task sends on. -/
def At.writes : At → Option Nat
  | .feed c _ => some c
  | .next _ nc _ => some nc
  | .pass _ nc _ _ => some nc
  | _ => none

/-- The call at a statement. -/
def At.call : At → Option (Nat × Chan.AltOp)
  | .taskmain => none
  | .feed c _ => some (c, .CHANSND)
  | .first c => some (c, .CHANRCV)
  | .next c _ _ => some (c, .CHANRCV)
  | .pass _ nc _ _ => some (nc, .CHANSND)

/-- What is sent there. -/
def At.value : At → Nat
  | .feed _ i => ulong i
  | .pass _ _ _ i => ulong i
  | _ => 0

/-- What a task at a statement received and sent. -/
def At.Done : At → List Nat → List Nat → Prop
  | .taskmain, _, _ => False
  | .feed _ i, _, outs => ∃ n : Nat, i = 2 + n ∧ outs = List.range' 2 n
  | .first _, ins, _ => ins = []
  | .next _ _ p, ins, outs => ∃ (q : Nat) (xs : List Nat), p = q ∧ ins = q :: xs ∧ outs = sift q xs
  | .pass _ _ p i, ins, outs => ∃ (q j : Nat) (xs : List Nat), p = q ∧ i = j ∧ ¬ q ∣ j ∧ ins = q :: (xs ++ [j]) ∧ outs = sift q xs

/-- History: what a task at a statement received, and what it sent. -/
def At.ins (l : At) (k : Chan.St) : List Nat := (l.reads.map (took k)).getD []
def At.outs (l : At) (k : Chan.St) : List Nat := (l.writes.map (gave k)).getD []

section
variable {l : At} {c d : Nat} {op : Chan.AltOp} {k k' : Chan.St} {t u : TaskPtr} {x : Place} {snd rcv : Option TaskPtr}

theorem At.reads_of_call (h : l.call = some (c, .CHANRCV)) : l.reads = some c := by
  cases l <;> simp [At.call, At.reads] at h ⊢ <;> exact h

theorem At.writes_of_call (h : l.call = some (c, .CHANSND)) : l.writes = some c := by
  cases l <;> simp [At.call, At.writes] at h ⊢ <;> exact h

theorem At.call_op (h : l.call = some (c, op)) : op = .CHANSND ∨ op = .CHANRCV := by
  cases l <;> simp [At.call] at h <;> simp [← h.2]

theorem At.ins_eq (h : l.reads = some c) (k : Chan.St) : l.ins k = took k c := by simp [At.ins, h]

/-! ## One task -/

/-- `u` is blocked and not chosen. -/
def Pends (k : Chan.St) (u : TaskPtr) : Prop := k.wait u ≠ none ∧ k.woken u = 0

/-- Task `u` is at `x`: its call did not happen yet, or it did. -/
structure Follows (k : Chan.St) (u : TaskPtr) (x : Place) : Prop where
  idle : x.inside = false → k.wait u = none
  before : x.inside = false ∨ Pends k u → x.stmt.Done (x.stmt.ins k) (x.stmt.outs k)
  waits : Pends k u → ∃ c op, x.stmt.call = some (c, op) ∧ InOp val k u c op ∧ (op = .CHANSND → offered k u = x.stmt.value)
  received : x.inside = true → ¬ Pends k u → ∀ c, x.stmt.call = some (c, .CHANRCV) →
    ∃ xs, x.stmt.ins k = xs ++ [held val k u] ∧ x.stmt.Done xs (x.stmt.outs k)
  sent : x.inside = true → ¬ Pends k u → ∀ c, x.stmt.call = some (c, .CHANSND) →
    ∃ ys, x.stmt.outs k = ys ++ [x.stmt.value] ∧ x.stmt.Done (x.stmt.ins k) ys

theorem Follows.of_pends (h : Follows k u x) (hp : Pends k u) : x.inside = true := by
  by_contra hx
  exact hp.1 (h.idle (by simpa using hx))

/-- A task that waits, and its call. -/
theorem Follows.call (h : Follows k u x) (hu : InOp val k u c op) : Pends k u ∧ x.stmt.call = some (c, op) ∧
    (op = .CHANSND → offered k u = x.stmt.value) := by
  have hp : Pends k u := ⟨by rw [hu.wait]; nofun, hu.woken⟩
  obtain ⟨c', op', hcall, hin, hval⟩ := h.waits hp
  obtain rfl : c' = c := hin.chan.symm.trans hu.chan
  obtain rfl : op' = op := hin.op.symm.trans hu.op
  exact ⟨hp, hcall, hval⟩

/-- A step that leaves what `u` sees, but that it goes on. -/
theorem Follows.frame (h : Follows k u x) (hs : k'.sent = k.sent) (hr : k'.rcvd = k.rcvd) (ha : k'.alt = k.alt)
    (ho : k'.offer = k.offer) (hk : k'.woken = k.woken) (hm : x.inside = true → held val k' u = held val k u)
    (hw : k'.wait u = k.wait u ∨ k'.wait u = none ∧ ¬ Pends k u) : Follows k' u x := by
  have hins : x.stmt.ins k' = x.stmt.ins k := by unfold At.ins; congr 2; funext c; simp [took, hr]
  have houts : x.stmt.outs k' = x.stmt.outs k := by unfold At.outs; congr 2; funext c; simp [gave, hs]
  have hp : Pends k' u ↔ Pends k u := by
    unfold Pends
    rw [hk]
    rcases hw with hw | ⟨hw, hn⟩
    · rw [hw]
    · rw [hw]
      exact ⟨fun h => absurd rfl h.1, fun h => absurd h hn⟩
  refine ⟨fun hx => ?_, fun hx => ?_, fun hx => ?_, fun hx hx' => ?_, fun hx hx' => ?_⟩
  · rcases hw with hw | hw
    · exact hw.trans (h.idle hx)
    · exact hw.1
  · rw [hins, houts]
    exact h.before (by rwa [hp] at hx)
  · have hpu := hp.mp hx
    obtain ⟨c, op, hcall, hin, hval⟩ := h.waits hpu
    have hwu : k'.wait u = k.wait u := hw.resolve_right fun h => h.2 hpu
    have hd : k'.deref ⟨u, 0⟩ = k.deref ⟨u, 0⟩ := by simp [Chan.St.deref, ha]
    refine ⟨c, op, hcall, ⟨hwu.trans hin.wait, by rw [hk]; exact hin.woken, by rw [ha]; exact hin.len, ?_, ?_, ?_⟩, fun hop => ?_⟩
    · rw [hd]; exact hin.chan
    · rw [hd]; exact hin.op
    · rw [hd]; exact hin.var
    · rw [offered, ho]
      exact hval hop
  · rw [hins, houts, hm hx]
    rw [hp] at hx'
    exact h.received hx hx'
  · rw [hins, houts]
    rw [hp] at hx'
    exact h.sent hx hx'

/-! ## Calls -/

theorem separate_val : Chan.Separate val 8 := by
  intro t u h
  unfold val sizeofUlong
  rcases Nat.lt_or_gt_of_ne h with h | h <;> omega

section
variable (h : Called val k t c op snd rcv k') (hn : (k.chan c).elemsize = 8)
include h hn

theorem ins_called (l : At) :
    l.ins k' = l.ins k ++ if l.reads = some c then (rcv.map (held val k')).toList else [] := by
  unfold At.ins
  cases hl : l.reads with
  | none => simp
  | some d =>
    have := h.took hn d
    by_cases hd : d = c
    · simpa [hd] using this
    · simpa [hd] using this

omit hn in
theorem outs_called (l : At) :
    l.outs k' = l.outs k ++ if l.writes = some c then (snd.map (offered k')).toList else [] := by
  unfold At.outs
  cases hl : l.writes with
  | none => simp
  | some d =>
    have := h.gave d
    by_cases hd : d = c
    · simpa [hd] using this
    · simpa [hd] using this

/-- `u` reads alone, and received nothing. -/
theorem ins_same (hr : l.reads = some c → rcv ≠ none → rcv = some u) (hu : rcv ≠ some u) : l.ins k' = l.ins k := by
  rw [ins_called h hn]
  by_cases hl : l.reads = some c
  · have : rcv = none := by
      by_contra hne
      exact hu (hr hl hne)
    simp [this]
  · simp [hl]

omit hn in
/-- `u` writes alone, and sent nothing. -/
theorem outs_same (hw : l.writes = some c → snd ≠ none → snd = some u) (hu : snd ≠ some u) : l.outs k' = l.outs k := by
  rw [outs_called h]
  by_cases hl : l.writes = some c
  · have : snd = none := by
      by_contra hne
      exact hu (hw hl hne)
    simp [this]
  · simp [hl]

/-- The call of `t` itself. -/
theorem follows_self (hl : l.call = some (c, op)) (hdone : l.Done (l.ins k) (l.outs k))
    (hval : op = .CHANSND → held val k t = l.value) (hr : l.reads = some c → rcv ≠ none → rcv = some t)
    (hw : l.writes = some c → snd ≠ none → snd = some t) : Follows k' t ⟨l, true⟩ := by
  have hoff : offered k' t = held val k t := h.offers hn
  rcases h.self with ⟨hin, rfl, rfl⟩ | ⟨hidle, hs, hr'⟩
  · have hp : Pends k' t := ⟨by rw [hin.wait]; nofun, hin.woken⟩
    refine ⟨nofun, fun _ => ?_, fun _ => ⟨c, op, hl, hin, fun hop => hoff.trans (hval hop)⟩, fun _ hno => absurd hp hno,
      fun _ hno => absurd hp hno⟩
    rw [show At.ins l k' = l.ins k from ins_same h hn hr nofun, show At.outs l k' = l.outs k from outs_same h hw nofun]
    exact hdone
  · have hp : ¬ Pends k' t := fun hp => hp.1 hidle
    refine ⟨nofun, fun hx => hx.elim nofun fun hx => absurd hx hp, fun hx => absurd hx hp, fun _ _ d hd => ?_,
      fun _ _ d hd => ?_⟩
    · obtain ⟨rfl, rfl⟩ := Prod.mk.inj (Option.some.inj (hl.symm.trans hd))
      have hrcv := hr' rfl
      have hsnd : snd ≠ some t := fun he => by
        rcases h.sender t he with ⟨-, hop⟩ | ⟨hne, -⟩
        · cases hop
        · exact hne rfl
      refine ⟨l.ins k, ?_, ?_⟩
      · rw [show At.ins l k' = _ from ins_called h hn l, if_pos (At.reads_of_call hl), hrcv]
        rfl
      · rw [show At.outs l k' = l.outs k from outs_same h hw hsnd]
        exact hdone
    · obtain ⟨rfl, rfl⟩ := Prod.mk.inj (Option.some.inj (hl.symm.trans hd))
      have hsnd := hs rfl
      have hrcv : rcv ≠ some t := fun he => by
        rcases h.receiver t he with ⟨-, hop⟩ | ⟨hne, -⟩
        · cases hop
        · exact hne rfl
      refine ⟨l.outs k, ?_, ?_⟩
      · rw [show At.outs l k' = _ from outs_called h l, if_pos (At.writes_of_call hl), hsnd]
        show l.outs k ++ [offered k' t] = _
        rw [hoff, hval rfl]
      · rw [show At.ins l k' = l.ins k from ins_same h hn hr hrcv]
        exact hdone

/-- The call of another task, in which `u` may be chosen. -/
theorem follows_other (hf : Follows k u x) (hut : u ≠ t) (hr : x.stmt.reads = some c → rcv ≠ none → rcv = some u)
    (hw : x.stmt.writes = some c → snd ≠ none → snd = some u) : Follows k' u x := by
  have hwait := h.wait u hut
  have hwoken := h.woken u hut
  have hpends : Pends k' u ↔ Pends k u ∧ snd ≠ some u ∧ rcv ≠ some u := by
    unfold Pends
    rw [hwait, hwoken]
    tauto
  by_cases hsnd : snd = some u
  · obtain ⟨-, hin⟩ := (h.sender u hsnd).resolve_left fun he => hut he.1
    obtain ⟨hp, hcall, hval⟩ := hf.call hin
    have hrcv : rcv ≠ some u := fun he => by
      obtain ⟨-, hin'⟩ := (h.receiver u he).resolve_left fun he => hut he.1
      exact nomatch hin.op.symm.trans hin'.op
    have hno : ¬ Pends k' u := fun hp' => (hpends.mp hp').2.1 hsnd
    refine ⟨fun hx => hwait.trans (hf.idle hx), fun hx => ?_, fun hx => absurd hx hno, fun _ _ d hd => ?_, fun _ _ d hd => ?_⟩
    · rcases hx with hx | hx
      · exact absurd (hf.idle hx) hp.1
      · exact absurd hx hno
    · exact nomatch hcall.symm.trans hd
    · refine ⟨x.stmt.outs k, ?_, ?_⟩
      · rw [outs_called h, if_pos (At.writes_of_call hcall), hsnd]
        show x.stmt.outs k ++ [offered k' u] = _
        rw [h.offered hut, hval rfl]
      · rw [ins_same h hn hr hrcv]
        exact hf.before (.inr hp)
  · by_cases hrcv : rcv = some u
    · obtain ⟨-, hin⟩ := (h.receiver u hrcv).resolve_left fun he => hut he.1
      obtain ⟨hp, hcall, -⟩ := hf.call hin
      have hno : ¬ Pends k' u := fun hp' => (hpends.mp hp').2.2 hrcv
      refine ⟨fun hx => hwait.trans (hf.idle hx), fun hx => ?_, fun hx => absurd hx hno, fun _ _ d hd => ?_, fun _ _ d hd => ?_⟩
      · rcases hx with hx | hx
        · exact absurd (hf.idle hx) hp.1
        · exact absurd hx hno
      · refine ⟨x.stmt.ins k, ?_, ?_⟩
        · rw [ins_called h hn, if_pos (At.reads_of_call hcall), hrcv]
          rfl
        · rw [outs_same h hw hsnd]
          exact hf.before (.inr hp)
      · exact nomatch hcall.symm.trans hd
    · -- `u` has no part in it
      have hp : Pends k' u ↔ Pends k u := by rw [hpends]; simp [hsnd, hrcv]
      refine ⟨fun hx => hwait.trans (hf.idle hx), fun hx => ?_, fun hx => ?_, fun hx hx' => ?_, fun hx hx' => ?_⟩
      · rw [ins_same h hn hr hrcv, outs_same h hw hsnd]
        exact hf.before (by rwa [hp] at hx)
      · obtain ⟨d, op', hcall, hin, hval⟩ := hf.waits (hp.mp hx)
        exact ⟨d, op', hcall, h.stays hin hut hsnd hrcv, fun hop => (h.offered hut).trans (hval hop)⟩
      · rw [ins_same h hn hr hrcv, outs_same h hw hsnd, h.held separate_val hn hrcv]
        rw [hp] at hx'
        exact hf.received hx hx'
      · rw [ins_same h hn hr hrcv, outs_same h hw hsnd]
        rw [hp] at hx'
        exact hf.sent hx hx'

end

end

end Libtask.Primes
