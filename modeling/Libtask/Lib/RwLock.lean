/-
  Libtask.Lib.RwLock — a lock for many readers or one writer, with two queues.

  A reader gets the lock at once when there is neither a writer nor a waiting writer, a
  writer when nobody has it; otherwise they wait. The last reader to leave passes the lock
  to the first waiting writer. A writer that leaves passes it to all waiting readers, or to
  the first waiting writer when there are none. For every run:

  - `safe`: the holders by the history are those of the state, and a writer is alone.
  - `not_stranded`: who waits, waits for somebody that has the lock.
  - `fifo`, `polite`, `bypassed_once`: the queues are served in order, nobody gets the
    lock at once while a writer waits, and a waiting reader sees at most one writer get it.
-/

import Mathlib.Data.List.Induction
import Libtask.Lib.History

namespace Libtask.Lib.RwLock

open Libtask.Lib.History

variable {α : Type}

inductive Ev (α : Type) where
  | rgot (a : α)
  | wgot (a : α)
  | rwait (a : α)
  | wwait (a : α)
  | rgrant (a : α)
  | wgrant (a : α)
  | rdone (a : α)
  | wdone (a : α)
  deriving DecidableEq

structure St (α : Type) where
  /-- One entry for each time an agent has it for reading. -/
  held : List α
  writer : Option α
  rq : List α
  wq : List α
  log : List (Ev α)

def St.grantWriter (s : St α) : St α :=
  match s.wq with
  | [] => s
  | b :: bs => { s with writer := some b, wq := bs, log := .wgrant b :: s.log }

/-- All waiting readers get it. -/
def St.grantReaders (s : St α) : St α :=
  { s with held := s.rq.reverse ++ s.held, rq := [], log := (s.rq.map Ev.rgrant).reverse ++ s.log }

def St.read (s : St α) (a : α) : St α := { s with held := a :: s.held, log := .rgot a :: s.log }

def St.waitRead (s : St α) (a : α) : St α := { s with rq := s.rq ++ [a], log := .rwait a :: s.log }

def St.write (s : St α) (a : α) : St α := { s with writer := some a, log := .wgot a :: s.log }

def St.waitWrite (s : St α) (a : α) : St α := { s with wq := s.wq ++ [a], log := .wwait a :: s.log }

def St.dropRead [DecidableEq α] (s : St α) (a : α) : St α :=
  { s with held := s.held.erase a, log := .rdone a :: s.log }

def St.dropWrite (s : St α) (a : α) : St α := { s with writer := none, log := .wdone a :: s.log }

def St.runlock [DecidableEq α] (s : St α) (a : α) : St α :=
  if (s.dropRead a).held = [] then (s.dropRead a).grantWriter else s.dropRead a

def St.wunlock [DecidableEq α] (s : St α) (a : α) : St α :=
  if ((s.dropWrite a).grantReaders).held = [] then ((s.dropWrite a).grantReaders).grantWriter
  else (s.dropWrite a).grantReaders

variable [DecidableEq α]

inductive Reach : St α → Prop
  | init : Reach ⟨[], none, [], [], []⟩
  | read {s : St α} (a : α) : Reach s → s.writer = none → s.wq = [] → Reach (s.read a)
  | waitRead {s : St α} (a : α) : Reach s → (s.writer ≠ none ∨ s.wq ≠ []) → Reach (s.waitRead a)
  | write {s : St α} (a : α) : Reach s → s.writer = none → s.held = [] → Reach (s.write a)
  | waitWrite {s : St α} (a : α) : Reach s → (s.writer ≠ none ∨ s.held ≠ []) → Reach (s.waitWrite a)
  | runlock {s : St α} (a : α) : Reach s → a ∈ s.held → Reach (s.runlock a)
  | wunlock {s : St α} (a : α) : Reach s → s.writer = some a → Reach (s.wunlock a)

/-! ## Reading the history -/

def readers : List (Ev α) → List α
  | [] => []
  | .rgot a :: h => a :: readers h
  | .rgrant a :: h => a :: readers h
  | .rdone a :: h => (readers h).erase a
  | _ :: h => readers h

def writers : List (Ev α) → List α
  | [] => []
  | .wgot a :: h => a :: writers h
  | .wgrant a :: h => a :: writers h
  | .wdone a :: h => (writers h).erase a
  | _ :: h => writers h

def Ev.rwaited : Ev α → Option α
  | .rwait a => some a
  | _ => none

def Ev.rgranted : Ev α → Option α
  | .rgrant a => some a
  | _ => none

def Ev.wwaited : Ev α → Option α
  | .wwait a => some a
  | _ => none

def Ev.wgranted : Ev α → Option α
  | .wgrant a => some a
  | _ => none

/-- A writer gets the lock. -/
def Ev.writes : Ev α → Bool
  | .wgot _ => true
  | .wgrant _ => true
  | _ => false

/-- How many writers got the lock since `a` last began to wait for reading. -/
def bypasses (a : α) (h : List (Ev α)) : Nat := (h.takeWhile (· ≠ .rwait a)).countP Ev.writes

/-- Nobody gets the lock at once while a writer waits. -/
def Polite : Ev α → List (Ev α) → Prop
  | .rgot _, h => select Ev.wgranted h = select Ev.wwaited h
  | .wgot _, h => select Ev.wgranted h = select Ev.wwaited h
  | _, _ => True

/-- A reader that is granted the lock waited, and saw at most one writer get it. -/
def Bounded : Ev α → List (Ev α) → Prop
  | .rgrant a, h => .rwait a ∈ h ∧ bypasses a h ≤ 1
  | _, _ => True

/-! ## Runs -/

structure Inv (s : St α) : Prop where
  excl : s.writer ≠ none → s.held = []
  wfree : s.wq ≠ [] → s.writer ≠ none ∨ s.held ≠ []
  rfree : s.rq ≠ [] → s.writer ≠ none ∨ s.wq ≠ []
  readers : readers s.log = s.held
  writers : writers s.log = s.writer.toList
  rfifo : select Ev.rwaited s.log = select Ev.rgranted s.log ++ s.rq
  wfifo : select Ev.wwaited s.log = select Ev.wgranted s.log ++ s.wq
  polite : Law Polite s.log
  bounded : Law Bounded s.log
  /-- A reader that waits behind one writer's turn waits for that writer. -/
  bypass : ∀ a ∈ s.rq, bypasses a s.log ≤ 1 ∧ (bypasses a s.log = 1 → s.writer ≠ none)

theorem bypasses_cons {a : α} {e : Ev α} (he : e ≠ .rwait a) (h : List (Ev α)) :
    bypasses a (e :: h) = bypasses a h + if e.writes then 1 else 0 := by
  simp [bypasses, he, List.countP_cons]

theorem bypasses_wait (a : α) (h : List (Ev α)) : bypasses a (.rwait a :: h) = 0 := by simp [bypasses]

/-- With nobody there, nobody waits. -/
theorem Inv.empty {s : St α} (hi : Inv s) (hw : s.writer = none) (hh : s.held = []) : s.wq = [] ∧ s.rq = [] := by
  have h1 : s.wq = [] := by
    by_contra hne
    rcases hi.wfree hne with h | h
    · exact h hw
    · exact h hh
  refine ⟨h1, ?_⟩
  by_contra hne
  rcases hi.rfree hne with h | h
  · exact h hw
  · exact h h1

theorem select_eq {s : St α} (hi : Inv s) (hq : s.wq = []) : select Ev.wgranted s.log = select Ev.wwaited s.log := by
  rw [hi.wfifo, hq, List.append_nil]

/-- Who waits for reading began to. -/
theorem waited_of_mem {s : St α} (hi : Inv s) {a : α} (ha : a ∈ s.rq) : .rwait a ∈ s.log := by
  have hm : a ∈ select Ev.rwaited s.log := hi.rfifo ▸ List.mem_append_right _ ha
  obtain ⟨e, he, hea⟩ := List.mem_filterMap.mp (List.mem_reverse.mp hm)
  cases e with
  | rwait b => exact Option.some.inj hea ▸ he
  | _ => cases hea

theorem inv_read {s : St α} (hi : Inv s) (a : α) (hw : s.writer = none) (hq : s.wq = []) : Inv (s.read a) where
  excl h := absurd hw h
  wfree h := absurd hq h
  rfree h := hi.rfree h
  readers := congrArg (a :: ·) hi.readers
  writers := hi.writers
  rfifo := by simpa [St.read, select_cons, Ev.rwaited, Ev.rgranted] using hi.rfifo
  wfifo := by simpa [St.read, select_cons, Ev.wwaited, Ev.wgranted] using hi.wfifo
  polite := ⟨select_eq hi hq, hi.polite⟩
  bounded := ⟨trivial, hi.bounded⟩
  bypass b hb := by
    show bypasses b (.rgot a :: s.log) ≤ 1 ∧ (bypasses b (.rgot a :: s.log) = 1 → s.writer ≠ none)
    rw [bypasses_cons (by simp)]
    exact hi.bypass b hb

theorem inv_waitRead {s : St α} (hi : Inv s) (a : α) (hn : s.writer ≠ none ∨ s.wq ≠ []) : Inv (s.waitRead a) where
  excl := hi.excl
  wfree := hi.wfree
  rfree _ := hn
  readers := hi.readers
  writers := hi.writers
  rfifo := by simp [St.waitRead, select_cons, Ev.rwaited, Ev.rgranted, hi.rfifo]
  wfifo := by simpa [St.waitRead, select_cons, Ev.wwaited, Ev.wgranted] using hi.wfifo
  polite := ⟨trivial, hi.polite⟩
  bounded := ⟨trivial, hi.bounded⟩
  bypass b hb := by
    show bypasses b (.rwait a :: s.log) ≤ 1 ∧ (bypasses b (.rwait a :: s.log) = 1 → s.writer ≠ none)
    by_cases hab : b = a
    · subst hab
      rw [bypasses_wait]
      exact ⟨by omega, by omega⟩
    · have hb : b ∈ s.rq := by simpa [St.waitRead, hab] using hb
      rw [bypasses_cons (by simp [Ne.symm hab])]
      exact hi.bypass b hb

theorem inv_write {s : St α} (hi : Inv s) (a : α) (hw : s.writer = none) (hh : s.held = []) : Inv (s.write a) where
  excl _ := hh
  wfree _ := Or.inl nofun
  rfree _ := Or.inl nofun
  readers := hi.readers
  writers := by
    show a :: RwLock.writers s.log = [a]
    rw [hi.writers, hw]
    rfl
  rfifo := by simpa [St.write, select_cons, Ev.rwaited, Ev.rgranted] using hi.rfifo
  wfifo := by simpa [St.write, select_cons, Ev.wwaited, Ev.wgranted] using hi.wfifo
  polite := ⟨select_eq hi (hi.empty hw hh).1, hi.polite⟩
  bounded := ⟨trivial, hi.bounded⟩
  bypass b hb := by
    have hb : b ∈ s.rq := hb
    rw [(hi.empty hw hh).2] at hb
    cases hb

theorem inv_waitWrite {s : St α} (hi : Inv s) (a : α) (hn : s.writer ≠ none ∨ s.held ≠ []) : Inv (s.waitWrite a) where
  excl := hi.excl
  wfree _ := hn
  rfree _ := Or.inr (by simp [St.waitWrite])
  readers := hi.readers
  writers := hi.writers
  rfifo := by simpa [St.waitWrite, select_cons, Ev.rwaited, Ev.rgranted] using hi.rfifo
  wfifo := by simp [St.waitWrite, select_cons, Ev.wwaited, Ev.wgranted, hi.wfifo]
  polite := ⟨trivial, hi.polite⟩
  bounded := ⟨trivial, hi.bounded⟩
  bypass b hb := by
    show bypasses b (.wwait a :: s.log) ≤ 1 ∧ (bypasses b (.wwait a :: s.log) = 1 → s.writer ≠ none)
    rw [bypasses_cons (by simp)]
    exact hi.bypass b hb

/-- What holds between the release of the lock and its grant. -/
structure Free (s : St α) : Prop where
  writer : s.writer = none
  held : s.held = []
  readers : readers s.log = []
  writers : writers s.log = []
  rfree : s.rq ≠ [] → s.wq ≠ []
  rfifo : select Ev.rwaited s.log = select Ev.rgranted s.log ++ s.rq
  wfifo : select Ev.wwaited s.log = select Ev.wgranted s.log ++ s.wq
  polite : Law Polite s.log
  bounded : Law Bounded s.log
  bypass : ∀ a ∈ s.rq, bypasses a s.log = 0

theorem inv_grantWriter {s : St α} (h : Free s) : Inv s.grantWriter := by
  cases hq : s.wq with
  | nil =>
    have hr : s.rq = [] := by
      by_contra hne
      exact h.rfree hne hq
    simp only [St.grantWriter, hq]
    refine ⟨fun hw => absurd h.writer hw, fun hw => absurd hq hw, fun hw => absurd hr hw, ?_, ?_, h.rfifo, h.wfifo,
      h.polite, h.bounded, ?_⟩
    · rw [h.readers, h.held]
    · rw [h.writers, h.writer]; rfl
    · intro a ha
      rw [hr] at ha
      cases ha
  | cons b bs =>
    have hf := h.wfifo
    rw [hq] at hf
    simp only [St.grantWriter, hq]
    refine ⟨fun _ => h.held, fun _ => Or.inl nofun, fun _ => Or.inl nofun, ?_, ?_, ?_, ?_, ⟨trivial, h.polite⟩,
      ⟨trivial, h.bounded⟩, ?_⟩
    · show RwLock.readers s.log = s.held
      rw [h.readers, h.held]
    · show b :: RwLock.writers s.log = [b]
      rw [h.writers]
    · simpa [select_cons, Ev.rwaited, Ev.rgranted] using h.rfifo
    · simpa [select_cons, Ev.wwaited, Ev.wgranted] using hf
    · intro a ha
      show bypasses a (.wgrant b :: s.log) ≤ 1 ∧ _
      rw [bypasses_cons (by simp), h.bypass a ha]
      exact ⟨by simp [Ev.writes], fun _ => nofun⟩

theorem inv_runlock {s : St α} (hi : Inv s) {a : α} (ha : a ∈ s.held) : Inv (s.runlock a) := by
  have hne : s.held ≠ [] := List.ne_nil_of_mem ha
  have hw : s.writer = none := by
    by_contra hw
    exact hne (hi.excl hw)
  have hr : RwLock.readers (s.dropRead a).log = (s.dropRead a).held := by
    show (RwLock.readers s.log).erase a = s.held.erase a
    rw [hi.readers]
  have hby : ∀ b ∈ s.rq, bypasses b (s.dropRead a).log = 0 := by
    intro b hb
    show bypasses b (.rdone a :: s.log) = 0
    rw [bypasses_cons (by simp)]
    obtain ⟨h1, h2⟩ := hi.bypass b hb
    have : bypasses b s.log ≠ 1 := fun h => h2 h hw
    simp only [Ev.writes, Bool.false_eq_true, if_false]
    omega
  have h1 : select Ev.rwaited (s.dropRead a).log = select Ev.rgranted (s.dropRead a).log ++ s.rq := by
    simpa [St.dropRead, select_cons, Ev.rwaited, Ev.rgranted] using hi.rfifo
  have h2 : select Ev.wwaited (s.dropRead a).log = select Ev.wgranted (s.dropRead a).log ++ s.wq := by
    simpa [St.dropRead, select_cons, Ev.wwaited, Ev.wgranted] using hi.wfifo
  have hrf : s.rq ≠ [] → s.wq ≠ [] := fun h => (hi.rfree h).resolve_left fun h => h hw
  unfold St.runlock
  split
  · rename_i hh
    refine inv_grantWriter ⟨hw, hh, hr.trans hh, ?_, hrf, h1, h2, ⟨trivial, hi.polite⟩, ⟨trivial, hi.bounded⟩, hby⟩
    show RwLock.writers s.log = []
    rw [hi.writers, hw]
    rfl
  · rename_i hh
    refine ⟨fun h => absurd hw h, fun _ => Or.inr hh, fun h => Or.inr (hrf h), hr, hi.writers, h1, h2,
      ⟨trivial, hi.polite⟩, ⟨trivial, hi.bounded⟩, ?_⟩
    intro b hb
    rw [hby b hb]
    exact ⟨by omega, by omega⟩

/-! `wunlock` lets the readers in one after the other. -/

theorem readers_rgrants (as : List α) (h : List (Ev α)) :
    readers ((as.map Ev.rgrant).reverse ++ h) = as.reverse ++ readers h := by
  induction as generalizing h with
  | nil => rfl
  | cons a as ih => simp [ih, readers]

theorem writers_rgrants (as : List α) (h : List (Ev α)) : writers ((as.map Ev.rgrant).reverse ++ h) = writers h := by
  induction as generalizing h with
  | nil => rfl
  | cons a as ih => simp [ih, writers]

theorem bypasses_rgrants (a : α) (as : List α) (h : List (Ev α)) :
    bypasses a ((as.map Ev.rgrant).reverse ++ h) = bypasses a h := by
  induction as generalizing h with
  | nil => rfl
  | cons b as ih =>
    have : (((b :: as).map Ev.rgrant).reverse ++ h) = (as.map Ev.rgrant).reverse ++ (.rgrant b :: h) := by simp
    rw [this, ih, bypasses_cons (by simp)]
    rfl

omit [DecidableEq α] in
theorem select_rgrants {f : Ev α → Option α} (hf : ∀ a, f (.rgrant a) = none) (as : List α) (h : List (Ev α)) :
    select f ((as.map Ev.rgrant).reverse ++ h) = select f h := by
  induction as generalizing h with
  | nil => rfl
  | cons a as ih =>
    have : (((a :: as).map Ev.rgrant).reverse ++ h) = (as.map Ev.rgrant).reverse ++ (.rgrant a :: h) := by simp
    rw [this, ih, select_cons, hf]
    simp

omit [DecidableEq α] in
theorem select_rgranted (as : List α) (h : List (Ev α)) :
    select Ev.rgranted ((as.map Ev.rgrant).reverse ++ h) = select Ev.rgranted h ++ as := by
  induction as generalizing h with
  | nil => simp
  | cons a as ih =>
    have : (((a :: as).map Ev.rgrant).reverse ++ h) = (as.map Ev.rgrant).reverse ++ (.rgrant a :: h) := by simp
    rw [this, ih, select_cons]
    simp [Ev.rgranted]

omit [DecidableEq α] in
theorem law_rgrants {P : Ev α → List (Ev α) → Prop} {h : List (Ev α)} (hl : Law P h) : ∀ {as : List α},
    (∀ a ∈ as, ∀ bs : List α, P (.rgrant a) ((bs.map Ev.rgrant).reverse ++ h)) → Law P ((as.map Ev.rgrant).reverse ++ h) := by
  intro as
  induction as using List.reverseRecOn with
  | nil => exact fun _ => hl
  | append_singleton as a ih =>
    intro hP
    have hcons : ((as ++ [a]).map Ev.rgrant).reverse ++ h = .rgrant a :: ((as.map Ev.rgrant).reverse ++ h) := by simp
    rw [hcons]
    exact ⟨hP a (by simp) as, ih fun b hb => hP b (List.mem_append_left _ hb)⟩

theorem inv_wunlock {s : St α} (hi : Inv s) {a : α} (ha : s.writer = some a) : Inv (s.wunlock a) := by
  have hh : s.held = [] := hi.excl (by rw [ha]; nofun)
  have hw : RwLock.writers (.wdone a :: s.log) = [] := by
    show (RwLock.writers s.log).erase a = []
    rw [hi.writers, ha]
    simp
  have hheld : ((s.dropWrite a).grantReaders).held = s.rq.reverse := by
    simp [St.grantReaders, St.dropWrite, hh]
  have hr : RwLock.readers ((s.dropWrite a).grantReaders).log = s.rq.reverse := by
    show RwLock.readers ((s.rq.map Ev.rgrant).reverse ++ .wdone a :: s.log) = _
    rw [readers_rgrants]
    show s.rq.reverse ++ RwLock.readers s.log = _
    rw [hi.readers, hh, List.append_nil]
  have hws : RwLock.writers ((s.dropWrite a).grantReaders).log = [] := by
    show RwLock.writers ((s.rq.map Ev.rgrant).reverse ++ .wdone a :: s.log) = _
    rw [writers_rgrants, hw]
  have h1 : select Ev.rwaited ((s.dropWrite a).grantReaders).log =
      select Ev.rgranted ((s.dropWrite a).grantReaders).log ++ [] := by
    show select Ev.rwaited ((s.rq.map Ev.rgrant).reverse ++ .wdone a :: s.log) =
      select Ev.rgranted ((s.rq.map Ev.rgrant).reverse ++ .wdone a :: s.log) ++ []
    rw [select_rgrants (fun _ => rfl), select_rgranted, select_cons, select_cons, hi.rfifo]
    simp [Ev.rwaited, Ev.rgranted]
  have h2 : select Ev.wwaited ((s.dropWrite a).grantReaders).log =
      select Ev.wgranted ((s.dropWrite a).grantReaders).log ++ s.wq := by
    show select Ev.wwaited ((s.rq.map Ev.rgrant).reverse ++ .wdone a :: s.log) =
      select Ev.wgranted ((s.rq.map Ev.rgrant).reverse ++ .wdone a :: s.log) ++ s.wq
    rw [select_rgrants (fun _ => rfl), select_rgrants (fun _ => rfl), select_cons, select_cons, hi.wfifo]
    simp [Ev.wwaited, Ev.wgranted]
  have hp : Law Polite ((s.dropWrite a).grantReaders).log := by
    refine law_rgrants (h := .wdone a :: s.log) ⟨trivial, hi.polite⟩ fun _ _ _ => trivial
  have hb : Law Bounded ((s.dropWrite a).grantReaders).log := by
    refine law_rgrants (h := .wdone a :: s.log) ⟨trivial, hi.bounded⟩ ?_
    intro b hb bs
    show .rwait b ∈ (bs.map Ev.rgrant).reverse ++ .wdone a :: s.log ∧
      bypasses b ((bs.map Ev.rgrant).reverse ++ .wdone a :: s.log) ≤ 1
    rw [bypasses_rgrants, bypasses_cons (by simp)]
    exact ⟨List.mem_append_right _ (List.mem_cons_of_mem _ (waited_of_mem hi hb)), (hi.bypass b hb).1⟩
  unfold St.wunlock
  split
  · rename_i hn
    rw [hheld] at hn
    exact inv_grantWriter ⟨rfl, hheld.trans hn, hr.trans hn, hws, fun h => absurd rfl h, h1, h2, hp, hb,
      fun b hb => by cases hb⟩
  · rename_i hn
    exact ⟨fun h => absurd rfl h, fun _ => Or.inr hn, fun h => absurd rfl h, hr.trans hheld.symm, hws, h1, h2, hp, hb,
      fun b hb => by cases hb⟩

theorem inv {s : St α} (h : Reach s) : Inv s := by
  induction h with
  | init =>
    exact ⟨fun _ => rfl, fun h => absurd rfl h, fun h => absurd rfl h, rfl, rfl, rfl, rfl, trivial, trivial,
      fun a ha => by cases ha⟩
  | read a _ hw hq ih => exact inv_read ih a hw hq
  | waitRead a _ hn ih => exact inv_waitRead ih a hn
  | write a _ hw hh ih => exact inv_write ih a hw hh
  | waitWrite a _ hn ih => exact inv_waitWrite ih a hn
  | runlock a _ ha ih => exact inv_runlock ih ha
  | wunlock a _ ha ih => exact inv_wunlock ih ha

theorem safe {s : St α} (h : Reach s) :
    readers s.log = s.held ∧ writers s.log = s.writer.toList ∧ (s.writer ≠ none → s.held = []) :=
  ⟨(inv h).readers, (inv h).writers, (inv h).excl⟩

theorem not_stranded {s : St α} (h : Reach s) :
    (s.wq ≠ [] → s.writer ≠ none ∨ s.held ≠ []) ∧ (s.rq ≠ [] → s.writer ≠ none ∨ s.wq ≠ []) :=
  ⟨(inv h).wfree, (inv h).rfree⟩

theorem fifo {s : St α} (h : Reach s) : select Ev.wwaited s.log = select Ev.wgranted s.log ++ s.wq := (inv h).wfifo

theorem polite {s : St α} (h : Reach s) : Law Polite s.log := (inv h).polite

theorem bypassed_once {s : St α} (h : Reach s) : Law Bounded s.log ∧ ∀ a ∈ s.rq, bypasses a s.log ≤ 1 :=
  ⟨(inv h).bounded, fun a ha => ((inv h).bypass a ha).1⟩

end Libtask.Lib.RwLock
