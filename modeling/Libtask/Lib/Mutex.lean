/-
  Libtask.Lib.Mutex — a lock that is handed over in the order of the queue.

  Who finds the lock free has it (`acquire`), who does not waits (`enqueue`), and `release`
  passes it on to the first who waits. The history says who got it, waited, was granted it
  and released it. For every run: the owner is the one agent that obtained it and did not
  release it since (`one_holder`), nobody waits for a free lock (`no_idle_wait`), waiting agents
  get it in their order (`fifo`), and nobody gets it at once while another one waits
  (`no_overtaking`).
-/

import Libtask.Lib.History

namespace Libtask.Lib.Mutex

open Libtask.Lib.History

variable {α : Type}

inductive Ev (α : Type) where
  | got (a : α)
  | wait (a : α)
  | grant (a : α)
  | release (a : α)
  deriving DecidableEq

structure St (α : Type) where
  owner : Option α
  waiting : List α
  log : List (Ev α)

def St.acquire (s : St α) (a : α) : St α := { s with owner := some a, log := .got a :: s.log }

def St.enqueue (s : St α) (a : α) : St α := { s with waiting := s.waiting ++ [a], log := .wait a :: s.log }

def St.release (s : St α) (a : α) : St α :=
  match s.waiting with
  | [] => { owner := none, waiting := [], log := .release a :: s.log }
  | b :: bs => { owner := some b, waiting := bs, log := .grant b :: .release a :: s.log }

inductive Reach : St α → Prop
  | init : Reach ⟨none, [], []⟩
  | acquire {s : St α} (a : α) : Reach s → s.owner = none → Reach (s.acquire a)
  | enqueue {s : St α} (a : α) : Reach s → s.owner ≠ none → Reach (s.enqueue a)
  | release {s : St α} (a : α) : Reach s → s.owner = some a → Reach (s.release a)

/-! ## Reading the history -/

/-- Who obtained the lock and did not release it. -/
def holders [DecidableEq α] : List (Ev α) → List α
  | [] => []
  | .got a :: h => a :: holders h
  | .grant a :: h => a :: holders h
  | .release a :: h => (holders h).erase a
  | .wait _ :: h => holders h

def Ev.waited : Ev α → Option α
  | .wait a => some a
  | _ => none

def Ev.granted : Ev α → Option α
  | .grant a => some a
  | _ => none

/-- An agent that gets the lock at once overtakes nobody. -/
def Polite : Ev α → List (Ev α) → Prop
  | .got _, h => select Ev.granted h = select Ev.waited h
  | _, _ => True

/-! ## Runs -/

variable [DecidableEq α]

structure Inv (s : St α) : Prop where
  idle : s.owner = none → s.waiting = []
  holders : holders s.log = s.owner.toList
  fifo : select Ev.waited s.log = select Ev.granted s.log ++ s.waiting
  polite : Law Polite s.log

theorem inv {s : St α} (h : Reach s) : Inv s := by
  induction h with
  | init => exact ⟨fun _ => rfl, rfl, rfl, trivial⟩
  | @acquire s a _ hn ih =>
    have hw := ih.idle hn
    refine ⟨nofun, ?_, ?_, ?_, ih.polite⟩
    · show a :: Mutex.holders s.log = [a]
      rw [ih.holders, hn]
      rfl
    · simpa [St.acquire, select_cons, Ev.waited, Ev.granted] using ih.fifo
    · have := ih.fifo
      rw [hw, List.append_nil] at this
      exact this.symm
  | @enqueue s a _ hn ih =>
    refine ⟨fun h => absurd h hn, ih.holders, ?_, trivial, ih.polite⟩
    simp [St.enqueue, select_cons, Ev.waited, Ev.granted, ih.fifo]
  | @release s a _ ha ih =>
    have hh := ih.holders
    have hf := ih.fifo
    rw [ha] at hh
    have he : (Mutex.holders s.log).erase a = [] := by rw [hh]; simp
    cases hw : s.waiting with
    | nil =>
      rw [hw] at hf
      simp only [St.release, hw]
      refine ⟨fun _ => rfl, he, ?_, trivial, ih.polite⟩
      simpa [select_cons, Ev.waited, Ev.granted] using hf
    | cons b bs =>
      rw [hw] at hf
      simp only [St.release, hw]
      refine ⟨nofun, ?_, ?_, trivial, trivial, ih.polite⟩
      · show b :: (Mutex.holders s.log).erase a = [b]
        rw [he]
      · simpa [select_cons, Ev.waited, Ev.granted] using hf

theorem one_holder {s : St α} (h : Reach s) : holders s.log = s.owner.toList := (inv h).holders

theorem no_idle_wait {s : St α} (h : Reach s) (hn : s.owner = none) : s.waiting = [] := (inv h).idle hn

theorem fifo {s : St α} (h : Reach s) : select Ev.waited s.log = select Ev.granted s.log ++ s.waiting := (inv h).fifo

theorem no_overtaking {s : St α} (h : Reach s) : Law Polite s.log := (inv h).polite

end Libtask.Lib.Mutex
