/-
  Libtask.Primes.Steps — what a step of the sieve can be.

  `did` is the inversion of `Sys.step`: it lists the steps with what each finds and leaves.
-/

import Libtask.Lib.Returns
import Libtask.Primes.Calls

namespace Libtask.Primes

open Function (update)
open Libtask.Lib (ok_of_bind)
open Libtask.Lib.Words
open Libtask.Sched (State Glob Heap Runs Enabled)

/-- From inside the call at a statement, where a number `n` was received, to the next statement. -/
inductive At.Then (n : Nat) : At → At → Prop
  | fed (c : Nat) (i : Int) : At.Then n (.feed c i) (.feed c (i + 1))
  | kept (c nc : Nat) (p : Int) : p ≠ 0 → (int n).tmod p ≠ 0 → At.Then n (.next c nc p) (.pass c nc p (int n))
  | dropped (c nc : Nat) (p : Int) : p ≠ 0 → (int n).tmod p = 0 → At.Then n (.next c nc p) (.next c nc p)
  | passed (c nc : Nat) (p i : Int) : At.Then n (.pass c nc p i) (.next c nc p)

/-- What goes to the history when the call is made. -/
def At.feeds : At → List Int
  | .feed _ i => [i]
  | _ => []

/-- The memory with which the call at a statement is made. -/
def entering (s : State Glob Heap) (t : TaskPtr) (l : At) : Chan.AltOp → State Glob Heap
  | .CHANSND => stored s (val t) (bytes sizeofUlong l.value)
  | _ => s

inductive Did (goal : Int) (y y' : Sys) : Prop
  | scheduled (s' : State Glob Heap) : Enabled y.s.g .taskscheduler →
      (Sched.code .taskscheduler).onHeap y.s = .ok ((), s') → y' = { y with s := s' } → Did goal y y'
  | resumed (t : TaskPtr) (s' : State Glob Heap) : y.s.g.taskrunning = some t → Enabled y.s.g (.resume 0 .eintr 0) →
      (Sched.code (.resume 0 .eintr 0)).onHeap y.s = .ok ((), s') → y' = { y with s := s' } → Did goal y y'
  | began (t a : TaskPtr) (s' : State Glob Heap) : Runs y.s.g t → y.s.g.live a = false → (y.place t).stmt = .taskmain →
      (Sched.code (.taskcreate a)).onHeap y.s = .ok ((), s') →
      y' = { y with
        s := s'
        out := y.out ++ [.goal goal]
        nchan := y.nchan + 1
        place := update (update y.place a ⟨.first y.nchan, false⟩) t ⟨.feed y.nchan 2, false⟩ } → Did goal y y'
  | printed (t a : TaskPtr) (c : Nat) (s' : State Glob Heap) : Runs y.s.g t → y.s.g.live a = false →
      y.place t = ⟨.first c, true⟩ → int (y.received t) ≤ goal → (Sched.code (.taskcreate a)).onHeap y.s = .ok ((), s') →
      y' = { y with
        s := s'
        out := y.out ++ [.number (int (y.received t))]
        nchan := y.nchan + 1
        place := update (update y.place a ⟨.first y.nchan, false⟩) t ⟨.next c y.nchan (int (y.received t)), false⟩ } →
      Did goal y y'
  | exited (t : TaskPtr) (c : Nat) : Runs y.s.g t → y.place t = ⟨.first c, true⟩ → goal < int (y.received t) →
      y' = { y with exited := some 0 } → Did goal y y'
  | called (t : TaskPtr) (l : At) (c : Nat) (op : Chan.AltOp) (r1 r2 : Nat) (s' : State Glob Heap) : Runs y.s.g t →
      y.place t = ⟨l, false⟩ → l.call = some (c, op) →
      (Sched.code (.chanalt t (Chan._chanop c op (some (val t)) true) r1 r2)).onHeap (entering y.s t l op) = .ok ((), s') →
      y' = { y with s := s', fed := y.fed ++ l.feeds, place := update y.place t ⟨l, true⟩ } → Did goal y y'
  | returned (t : TaskPtr) (l l' : At) : Runs y.s.g t → y.place t = ⟨l, true⟩ → l.Then (y.received t) l' →
      y' = y.goto t l' false → Did goal y y'

section
variable {goal : Int} {y y' : Sys} {t a r1 r2 : Nat}

theorem lib_ok {e : Sched.Ev} (h : y.lib e = .ok y') : ∃ s', (Sched.code e).onHeap y.s = .ok ((), s') ∧ y' = { y with s := s' } := by
  unfold Sys.lib at h
  split at h
  · rename_i s' hs
    exact ⟨s', hs, (Except.ok.inj h).symm⟩
  · cases h

theorem taskcreate_ok {c : Nat} (h : y.taskcreate a c = .ok y') : ∃ s', (Sched.code (.taskcreate a)).onHeap y.s = .ok ((), s') ∧
    y' = { y with s := s', place := update y.place a ⟨.first c, false⟩ } := by
  obtain ⟨y₁, h1, h2⟩ := ok_of_bind h
  obtain ⟨s', hs, rfl⟩ := lib_ok h1
  exact ⟨s', hs, (Except.ok.inj h2).symm⟩

theorem chansendul_ok {l : At} {c : Nat} (h : y.chansendul t c l.value r1 r2 = .ok y') : ∃ s',
    (Sched.code (.chanalt t (Chan._chanop c .CHANSND (some (val t)) true) r1 r2)).onHeap (entering y.s t l .CHANSND) = .ok ((), s') ∧
      y' = { y with s := s' } := by
  obtain ⟨y₁, h1, h2⟩ := ok_of_bind h
  rw [store_eq] at h1
  obtain rfl := Except.ok.inj h1
  exact lib_ok h2

theorem run_did (hr : Runs y.s.g t) (ha : y.s.g.live a = false) (h : y.run goal t a r1 r2 = .ok y') :
    Did goal y y' := by
  obtain ⟨l, inside, hl⟩ : ∃ l inside, y.place t = ⟨l, inside⟩ := ⟨_, _, rfl⟩
  have hstmt : (y.place t).stmt = l := by rw [hl]
  unfold Sys.run at h
  rw [hl] at h
  cases l with
  | taskmain =>
    obtain ⟨y₁, h1, h2⟩ := ok_of_bind h
    obtain ⟨s', hs, rfl⟩ := taskcreate_ok h1
    exact .began t a s' hr ha hstmt hs (Except.ok.inj h2).symm
  | feed c i =>
    cases inside with
    | false =>
      obtain ⟨y₁, h1, h2⟩ := ok_of_bind h
      obtain ⟨s', hs, rfl⟩ := chansendul_ok (l := .feed c i) h1
      exact .called t (.feed c i) c .CHANSND r1 r2 s' hr hl rfl hs (Except.ok.inj h2).symm
    | true => exact .returned t _ _ hr hl (.fed c i) (Except.ok.inj h).symm
  | first c =>
    cases inside with
    | false =>
      obtain ⟨y₁, h1, h2⟩ := ok_of_bind h
      obtain ⟨s', hs, rfl⟩ := lib_ok h1
      exact .called t (.first c) c .CHANRCV r1 r2 s' hr hl rfl hs (by rw [← Except.ok.inj h2]; simp [At.feeds, Sys.goto])
    | true =>
      dsimp only at h
      split at h
      · rename_i hp
        exact .exited t c hr hl hp (Except.ok.inj h).symm
      · rename_i hp
        obtain ⟨y₁, h1, h2⟩ := ok_of_bind h
        obtain ⟨s', hs, rfl⟩ := taskcreate_ok h1
        exact .printed t a c s' hr ha hl (Int.not_lt.mp hp) hs (Except.ok.inj h2).symm
  | next c nc p =>
    cases inside with
    | false =>
      obtain ⟨y₁, h1, h2⟩ := ok_of_bind h
      obtain ⟨s', hs, rfl⟩ := lib_ok h1
      exact .called t (.next c nc p) c .CHANRCV r1 r2 s' hr hl rfl hs (by rw [← Except.ok.inj h2]; simp [At.feeds, Sys.goto])
    | true =>
      dsimp only at h
      split at h
      · cases h
      · rename_i hp
        split at h
        · rename_i hd
          exact .returned t _ _ hr hl (.kept c nc p hp hd) (Except.ok.inj h).symm
        · rename_i hd
          exact .returned t _ _ hr hl (.dropped c nc p hp (not_not.mp hd)) (Except.ok.inj h).symm
  | pass c nc p i =>
    cases inside with
    | false =>
      obtain ⟨y₁, h1, h2⟩ := ok_of_bind h
      obtain ⟨s', hs, rfl⟩ := chansendul_ok (l := .pass c nc p i) h1
      exact .called t (.pass c nc p i) nc .CHANSND r1 r2 s' hr hl rfl hs (by rw [← Except.ok.inj h2]; simp [At.feeds, Sys.goto])
    | true => exact .returned t _ _ hr hl (.passed c nc p i) (Except.ok.inj h).symm

theorem did {e : Ev} (h : y.step goal e = .ok y') : y.exited = none ∧ Did goal y y' := by
  unfold Sys.step at h
  split at h
  · cases h
  · rename_i hx
    have hx : y.exited = none := by simpa using hx
    refine ⟨hx, ?_⟩
    cases e with
    | taskscheduler =>
      cases hr : y.s.g.taskrunning with
      | some t => simp only [hr] at h; cases h
      | none =>
        simp only [hr] at h
        split at h
        · rename_i hp
          obtain ⟨s', hs, rfl⟩ := lib_ok h
          exact .scheduled s' ⟨hp, hr⟩ hs rfl
        · cases h
    | resume =>
      cases hr : y.s.g.taskrunning with
      | none => simp only [hr] at h; cases h
      | some t =>
        simp only [hr] at h
        split at h
        · rename_i hp
          obtain ⟨s', hs, rfl⟩ := lib_ok h
          exact .resumed t s' hr ⟨hp.1, ⟨t, hr, hp.2⟩, nofun⟩ hs rfl
        · cases h
    | run a r1 r2 =>
      cases hr : y.s.g.taskrunning with
      | none => simp only [hr] at h; cases h
      | some t =>
        simp only [hr] at h
        split at h
        · rename_i hp
          exact run_did hp.1 hp.2 h
        · cases h

end

end Libtask.Primes
