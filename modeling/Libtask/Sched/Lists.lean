/-
  Libtask.Sched.Lists — the lists that tasks are on.

  A `Task` has one `next` and one `prev`, so it is on one list at a time: the run queue, the
  sleeping list, or a list of a lock or a Rendez. `Heap` is those links and the heads and
  tails, with `addtask` and `deltask` (task.c) and the ordered insertion of `taskdelay`
  (fd.c). None of them looks whether the task is on the list, or on another one.

  `Places` says which tasks are on which list, in order. Its lists are disjoint and repeat
  nothing by construction: a task is in one place (`loc`). `Rep` relates the two;
  `rep_addtask`, `rep_deltask` and `rep_linktask` say that the operations agree when the
  task is where the caller says. `IsList` is the same for one list on its own: there
  `addtask` is insertion at the end, `deltask` removal, and other lists are not disturbed.
-/

import Mathlib.Data.List.DropRight
import Mathlib.Logic.Function.Basic
import Libtask.Chan.Chan
import Libtask.Lib.Dll

namespace Libtask.Sched

open Function (update update_self)
open Libtask.Lib.Dll

inductive ListRef where
  | taskrunqueue
  | sleeping
  | qwaiting (l : Nat)
  | rwaiting (l : Nat)
  | wwaiting (l : Nat)
  | rendez (r : Nat)
  deriving DecidableEq, Repr

structure Tasklist where
  head : Option TaskPtr
  tail : Option TaskPtr

/-- The links of all tasks, and all lists. -/
structure Heap where
  next : TaskPtr → Option TaskPtr
  prev : TaskPtr → Option TaskPtr
  list : ListRef → Tasklist

def Heap.setHead (h : Heap) (l : ListRef) (t : Option TaskPtr) : Heap :=
  { h with list := update h.list l { h.list l with head := t } }

def Heap.setTail (h : Heap) (l : ListRef) (t : Option TaskPtr) : Heap :=
  { h with list := update h.list l { h.list l with tail := t } }

def Heap.setNext (h : Heap) (t : TaskPtr) (u : Option TaskPtr) : Heap := { h with next := update h.next t u }

def Heap.setPrev (h : Heap) (t : TaskPtr) (u : Option TaskPtr) : Heap := { h with prev := update h.prev t u }

def Heap.addtask (h : Heap) (l : ListRef) (t : TaskPtr) : Heap :=
  let h := match (h.list l).tail with
    | some u => (h.setNext u (some t)).setPrev t (h.list l).tail
    | none => (h.setHead l (some t)).setPrev t none
  (h.setTail l (some t)).setNext t none

def Heap.deltask (h : Heap) (l : ListRef) (t : TaskPtr) : Heap :=
  let h := match h.prev t with
    | some u => h.setNext u (h.next t)
    | none => h.setHead l (h.next t)
  match h.next t with
  | some u => h.setPrev u (h.prev t)
  | none => h.setTail l (h.prev t)

/-- The loop of `taskdelay`: from `t` towards the head, to the first task that `ge` does not
    hold of. -/
def Heap.scanback (h : Heap) (ge : TaskPtr → Bool) : Nat → Option TaskPtr → Except String (Option TaskPtr)
  | _, none => .ok none
  | 0, some _ => .error "out of fuel"
  | n + 1, some t => if ge t then h.scanback ge n (h.prev t) else .ok (some t)

/-- The rest of the insertion: `t` goes behind `u`, or to the front. -/
def Heap.linktask (h : Heap) (l : ListRef) (t : TaskPtr) (u : Option TaskPtr) : Heap :=
  let h := match u with
    | some u => (h.setPrev t (some u)).setNext t (h.next u)
    | none => (h.setNext t (h.list l).head).setPrev t none
  let h := match h.prev t with
    | some u => h.setNext u (some t)
    | none => h.setHead l (some t)
  match h.next t with
  | some u => h.setPrev u (some t)
  | none => h.setTail l (some t)

/-! ## Places -/

structure Places where
  q : ListRef → List TaskPtr
  loc : TaskPtr → Option ListRef
  mem_iff : ∀ l t, t ∈ q l ↔ loc t = some l
  nodup : ∀ l, (q l).Nodup

def Places.empty : Places where
  q _ := []
  loc _ := none
  mem_iff := by simp
  nodup _ := List.nodup_nil

theorem Places.not_mem {p : Places} {t : TaskPtr} (h : p.loc t = none) (l : ListRef) : t ∉ p.q l := fun hm => by
  rw [(p.mem_iff l t).mp hm] at h
  cases h

/-- `t`, which is nowhere, goes between `as` and `bs` on list `l`. -/
def Places.put (p : Places) (l : ListRef) (t : TaskPtr) (as bs : List TaskPtr) (h : p.loc t = none)
    (hl : p.q l = as ++ bs) : Places where
  q := update p.q l (as ++ t :: bs)
  loc := update p.loc t (some l)
  mem_iff := by
    intro l' u
    have hm := p.mem_iff l' u
    by_cases hu : u = t
    · subst hu
      by_cases hl' : l' = l
      · subst hl'; simp
      · simp [hl', Ne.symm hl', p.not_mem h]
    · by_cases hl' : l' = l
      · subst hl'
        rw [hl] at hm
        simpa [hu] using hm
      · simpa [hu, hl'] using hm
  nodup := by
    intro l'
    by_cases hl' : l' = l
    · subst hl'
      have hnd := p.nodup l'
      have ht := p.not_mem h l'
      rw [hl] at hnd ht
      rw [update_self]
      exact List.nodup_middle.mpr (List.nodup_cons.mpr ⟨ht, hnd⟩)
    · simpa [hl'] using p.nodup l'

/-- `addtask`; nothing when the task is on a list. -/
def Places.add (p : Places) (l : ListRef) (t : TaskPtr) : Places :=
  if h : p.loc t = none then p.put l t (p.q l) [] h (by simp) else p

/-- The insertion of `taskdelay`; nothing when the task is on a list. -/
def Places.insert (p : Places) (l : ListRef) (t : TaskPtr) (ge : TaskPtr → Bool) : Places :=
  if h : p.loc t = none then
    p.put l t ((p.q l).rdropWhile ge) ((p.q l).rtakeWhile ge) h (List.rdropWhile_append_rtakeWhile ..).symm
  else p

/-- `deltask`; nothing when the task is not on that list. -/
def Places.del (p : Places) (l : ListRef) (t : TaskPtr) : Places :=
  if h : p.loc t = some l then
    { q := update p.q l ((p.q l).erase t)
      loc := update p.loc t none
      mem_iff := by
        intro l' u
        have hm := p.mem_iff l' u
        by_cases hu : u = t
        · subst hu
          by_cases hl' : l' = l
          · subst hl'; simp [(p.nodup l').mem_erase_iff]
          · rw [h] at hm; simp [hl', hm, Ne.symm hl']
        · by_cases hl' : l' = l
          · subst hl'; simpa [hu, (p.nodup l').mem_erase_iff] using hm
          · simpa [hu, hl'] using hm
      nodup := by
        intro l'
        by_cases hl' : l' = l
        · subst hl'; simpa using (p.nodup l').erase t
        · simpa [hl'] using p.nodup l' }
  else p

section
variable {p : Places} {t : TaskPtr} {l : ListRef}

theorem Places.add_q (h : p.loc t = none) : (p.add l t).q = update p.q l (p.q l ++ [t]) := by
  simp [Places.add, Places.put, h]

theorem Places.add_loc (h : p.loc t = none) : (p.add l t).loc = update p.loc t (some l) := by
  simp [Places.add, Places.put, h]

theorem Places.insert_q (h : p.loc t = none) (ge : TaskPtr → Bool) :
    (p.insert l t ge).q = update p.q l ((p.q l).rdropWhile ge ++ t :: (p.q l).rtakeWhile ge) := by
  simp [Places.insert, Places.put, h]

theorem Places.insert_loc (h : p.loc t = none) (ge : TaskPtr → Bool) :
    (p.insert l t ge).loc = update p.loc t (some l) := by
  simp [Places.insert, Places.put, h]

theorem Places.del_q (h : p.loc t = some l) : (p.del l t).q = update p.q l ((p.q l).erase t) := by
  simp [Places.del, h]

theorem Places.del_loc (h : p.loc t = some l) : (p.del l t).loc = update p.loc t none := by
  simp [Places.del, h]

end

/-! ## The links represent the places -/

/-- List `l` is well formed, and has the tasks `ts`. -/
def Heap.IsList (h : Heap) (l : ListRef) (ts : List TaskPtr) : Prop :=
  IsDll h.next h.prev (h.list l).head (h.list l).tail ts

def Rep (h : Heap) (p : Places) : Prop :=
  ∀ l, IsDll h.next h.prev (h.list l).head (h.list l).tail (p.q l)

/-- A change of list `l`, and of the links of its tasks and of `t` only, leaves the other
    lists as they were. -/
theorem rep_of_list {h h' : Heap} {p p' : Places} {l : ListRef} {t : TaskPtr} (hr : Rep h p)
    (ht : p.loc t = none ∨ p.loc t = some l)
    (hl : IsDll h'.next h'.prev (h'.list l).head (h'.list l).tail (p'.q l))
    (hlist : ∀ l', l' ≠ l → h'.list l' = h.list l' ∧ p'.q l' = p.q l')
    (hlinks : ∀ x, x ≠ t → x ∉ p.q l → h'.next x = h.next x ∧ h'.prev x = h.prev x) : Rep h' p' := by
  intro l'
  by_cases hl' : l' = l
  · subst hl'
    exact hl
  · obtain ⟨h1, h2⟩ := hlist l' hl'
    rw [h1, h2]
    have hout : ∀ x ∈ p.q l', x ≠ t ∧ x ∉ p.q l := by
      intro x hx
      have hloc := (p.mem_iff l' x).mp hx
      refine ⟨?_, ?_⟩
      · intro hxt
        rw [hxt] at hloc
        rcases ht with ht | ht <;> rw [hloc] at ht
        · cases ht
        · exact hl' (Option.some.inj ht)
      · intro hxl
        rw [(p.mem_iff l x).mp hxl] at hloc
        exact hl' (Option.some.inj hloc).symm
    exact (hr l').frame (fun x hx => (hlinks x (hout x hx).1 (hout x hx).2).1)
      (fun x hx => (hlinks x (hout x hx).1 (hout x hx).2).2)

theorem addtask_next (h : Heap) (l : ListRef) (t x : TaskPtr) :
    (h.addtask l t).next x = if x = t then none else if (h.list l).tail = some x then some t else h.next x := by
  by_cases hx : x = t
  · subst hx
    simp [Heap.addtask, Heap.setNext]
  · cases htl : (h.list l).tail with
    | none => simp [Heap.addtask, Heap.setNext, Heap.setPrev, Heap.setHead, Heap.setTail, htl, hx]
    | some u =>
      by_cases hu : x = u
      · subst hu
        simp [Heap.addtask, Heap.setNext, Heap.setPrev, Heap.setTail, htl, hx]
      · simp [Heap.addtask, Heap.setNext, Heap.setPrev, Heap.setTail, htl, hx, hu, Ne.symm hu]

theorem addtask_prev (h : Heap) (l : ListRef) (t x : TaskPtr) :
    (h.addtask l t).prev x = if x = t then (h.list l).tail else h.prev x := by
  cases htl : (h.list l).tail with
  | none =>
    by_cases hx : x = t <;>
      simp [Heap.addtask, Heap.setNext, Heap.setPrev, Heap.setHead, Heap.setTail, htl, hx]
  | some u =>
    by_cases hx : x = t <;> simp [Heap.addtask, Heap.setNext, Heap.setPrev, Heap.setTail, htl, hx]

theorem addtask_list (h : Heap) (l : ListRef) (t : TaskPtr) :
    ((h.addtask l t).list l).head = (if (h.list l).tail = none then some t else (h.list l).head) ∧
      ((h.addtask l t).list l).tail = some t ∧ ∀ l', l' ≠ l → (h.addtask l t).list l' = h.list l' := by
  cases htl : (h.list l).tail with
  | none =>
    refine ⟨?_, ?_, fun l' hl' => ?_⟩ <;>
      simp [Heap.addtask, Heap.setNext, Heap.setPrev, Heap.setHead, Heap.setTail, *]
  | some u =>
    refine ⟨?_, ?_, fun l' hl' => ?_⟩ <;>
      simp [Heap.addtask, Heap.setNext, Heap.setPrev, Heap.setTail, *]

/-- `t` comes behind the tasks of the list. -/
theorem isList_addtask {h : Heap} {l : ListRef} {ts : List TaskPtr} (hd : h.IsList l ts) {t : TaskPtr} (ht : t ∉ ts) :
    (h.addtask l t).IsList l (ts ++ [t]) := by
  obtain ⟨h1, h2, -⟩ := addtask_list h l t
  have hlast : ∀ x, ts.getLast? = some x ↔ (h.list l).tail = some x := fun x => by rw [hd.tail]
  have key := @IsDll.link _ h.next h.prev (h.addtask l t).next (h.addtask l t).prev (h.list l).head (h.list l).tail
    ts [] t (by rw [List.append_nil]; exact hd) (by simpa using ht) (by simp [addtask_next])
    (by simp [addtask_prev, hd.tail])
    (fun x hx => by
      have hxt : x ≠ t := fun e => ht (e ▸ List.mem_of_getLast? hx)
      simp [addtask_next, hxt, (hlast x).mp hx])
    (fun x hx => by cases hx)
    (fun x hx hxl => by
      have hxt : x ≠ t := fun e => ht (e ▸ (by simpa using hx))
      have : (h.list l).tail ≠ some x := fun e => hxl ((hlast x).mpr e)
      simp [addtask_next, hxt, this])
    (fun x hx _ => by
      have hxt : x ≠ t := fun e => ht (e ▸ (by simpa using hx))
      simp [addtask_prev, hxt])
  have hhead : (ts ++ [t]).head? = if (h.list l).tail = none then some t else (h.list l).head := by
    rw [hd.tail, hd.head]
    cases ts with
    | nil => simp
    | cons a as => simp
  rw [Heap.IsList, h1, h2, ← hhead]
  simpa using key

/-- Only links of the list's tasks and of `t` are stored. -/
theorem addtask_links {h : Heap} {l : ListRef} {ts : List TaskPtr} (hd : h.IsList l ts) {t x : TaskPtr} (hx : x ≠ t)
    (hxs : x ∉ ts) : (h.addtask l t).next x = h.next x ∧ (h.addtask l t).prev x = h.prev x := by
  have hlast : (h.list l).tail ≠ some x := fun e => hxs (List.mem_of_getLast? (hd.tail ▸ e))
  exact ⟨by simp [addtask_next, hx, hlast], by simp [addtask_prev, hx]⟩

theorem rep_addtask {h : Heap} {p : Places} (hr : Rep h p) {t : TaskPtr} (ht : p.loc t = none) (l : ListRef) :
    Rep (h.addtask l t) (p.add l t) := by
  obtain ⟨-, -, h3⟩ := addtask_list h l t
  refine rep_of_list (l := l) (t := t) hr (Or.inl ht) ?_ (fun l' hl' => ⟨h3 l' hl', ?_⟩)
    (fun x hx hxl => addtask_links (hr l) hx hxl)
  · rw [Places.add_q ht, update_self]
    exact isList_addtask (hr l) (p.not_mem ht l)
  · rw [Places.add_q ht]
    simp [hl']

theorem deltask_next {h : Heap} {t : TaskPtr} (hp : h.prev t ≠ some t) (l : ListRef) (x : TaskPtr) :
    (h.deltask l t).next x = if h.prev t = some x then h.next t else h.next x := by
  cases hpt : h.prev t with
  | none => cases hnt : h.next t <;> simp [Heap.deltask, Heap.setHead, Heap.setPrev, Heap.setTail, hpt, hnt]
  | some u =>
    have hu : t ≠ u := fun e => hp (by rw [hpt, e])
    have hxu : u = x ↔ x = u := eq_comm
    cases hnt : h.next t <;>
      simp [Heap.deltask, Heap.setNext, Heap.setPrev, Heap.setTail, hpt, hnt, hu, update, hxu]

theorem deltask_prev {h : Heap} {t : TaskPtr} (hp : h.prev t ≠ some t) (l : ListRef) (x : TaskPtr) :
    (h.deltask l t).prev x = if h.next t = some x then h.prev t else h.prev x := by
  cases hnt : h.next t with
  | none =>
    cases hpt : h.prev t with
    | none => simp [Heap.deltask, Heap.setHead, Heap.setTail, hpt, hnt]
    | some u =>
      have hu : t ≠ u := fun e => hp (by rw [hpt, e])
      simp [Heap.deltask, Heap.setNext, Heap.setTail, hpt, hnt, hu]
  | some v =>
    have hxv : v = x ↔ x = v := eq_comm
    cases hpt : h.prev t with
    | none => simp [Heap.deltask, Heap.setHead, Heap.setPrev, hpt, hnt, update, hxv]
    | some u =>
      have hu : t ≠ u := fun e => hp (by rw [hpt, e])
      simp [Heap.deltask, Heap.setNext, Heap.setPrev, hpt, hnt, hu, update, hxv]

theorem deltask_list {h : Heap} {t : TaskPtr} (hp : h.prev t ≠ some t) (l : ListRef) :
    ((h.deltask l t).list l).head = (if h.prev t = none then h.next t else (h.list l).head) ∧
      ((h.deltask l t).list l).tail = (if h.next t = none then h.prev t else (h.list l).tail) ∧
      ∀ l', l' ≠ l → (h.deltask l t).list l' = h.list l' := by
  cases hpt : h.prev t with
  | none =>
    cases hnt : h.next t <;> refine ⟨?_, ?_, fun l' hl' => ?_⟩ <;>
      simp [Heap.deltask, Heap.setHead, Heap.setTail, Heap.setPrev, *]
  | some u =>
    have hu : t ≠ u := fun e => hp (by rw [hpt, e])
    cases hnt : h.next t <;> refine ⟨?_, ?_, fun l' hl' => ?_⟩ <;>
      simp [Heap.deltask, Heap.setNext, Heap.setTail, Heap.setPrev, *]

/-- A task is not its own neighbour. -/
theorem Heap.IsList.self {h : Heap} {l : ListRef} {ts : List TaskPtr} (hd : h.IsList l ts) {t : TaskPtr} (ht : t ∈ ts) :
    h.prev t ≠ some t := by
  obtain ⟨as, bs, rfl⟩ := List.append_of_mem ht
  obtain ⟨hprev, -⟩ := hd.links as t bs rfl
  have hta : t ∉ as := fun hm => (List.nodup_append.mp hd.nodup).2.2 t hm t List.mem_cons_self rfl
  exact fun e => hta (List.mem_of_getLast? (hprev ▸ e))

theorem isList_deltask {h : Heap} {l : ListRef} {ts : List TaskPtr} (hd : h.IsList l ts) {t : TaskPtr} (ht : t ∈ ts) :
    (h.deltask l t).IsList l (ts.erase t) := by
  have hself := hd.self ht
  obtain ⟨as, bs, rfl⟩ := List.append_of_mem ht
  obtain ⟨hprev, hnext⟩ := hd.links as t bs rfl
  have hta : t ∉ as := fun hm => (List.nodup_append.mp hd.nodup).2.2 t hm t List.mem_cons_self rfl
  have herase : (as ++ t :: bs).erase t = as ++ bs := by
    rw [List.erase_append_right _ hta, List.erase_cons_head]
  obtain ⟨h1, h2, -⟩ := deltask_list hself l
  have key := @IsDll.unlink _ h.next h.prev (h.deltask l t).next (h.deltask l t).prev (h.list l).head (h.list l).tail
    as bs t hd
    (fun x hx => by rw [deltask_next hself, hprev, if_pos hx, hnext])
    (fun x hx => by rw [deltask_prev hself, hnext, if_pos hx, hprev])
    (fun x _ hx => by rw [deltask_next hself, hprev, if_neg hx])
    (fun x _ hx => by rw [deltask_prev hself, hnext, if_neg hx])
  have hhead : (as ++ bs).head? = if as.getLast? = none then bs.head? else (as ++ t :: bs).head? := by
    cases as with
    | nil => simp
    | cons a as => simp
  have htail : (as ++ bs).getLast? = if bs.head? = none then as.getLast? else (as ++ t :: bs).getLast? := by
    cases bs with
    | nil => simp
    | cons b bs => simp [List.getLast?_append]
  rw [Heap.IsList, herase, h1, h2, hd.head, hd.tail, hprev, hnext, ← hhead, ← htail]
  exact key

/-- Only links of the list's tasks are stored. -/
theorem deltask_links {h : Heap} {l : ListRef} {ts : List TaskPtr} (hd : h.IsList l ts) {t x : TaskPtr} (ht : t ∈ ts)
    (hxs : x ∉ ts) : (h.deltask l t).next x = h.next x ∧ (h.deltask l t).prev x = h.prev x := by
  have hself := hd.self ht
  obtain ⟨as, bs, rfl⟩ := List.append_of_mem ht
  obtain ⟨hprev, hnext⟩ := hd.links as t bs rfl
  refine ⟨?_, ?_⟩
  · have hx : h.prev t ≠ some x := fun e => hxs (List.mem_append_left _ (List.mem_of_getLast? (hprev ▸ e)))
    rw [deltask_next hself, if_neg hx]
  · have hx : h.next t ≠ some x := fun e =>
      hxs (List.mem_append_right _ (List.mem_cons_of_mem _ (List.mem_of_head? (hnext ▸ e))))
    rw [deltask_prev hself, if_neg hx]

theorem rep_deltask {h : Heap} {p : Places} (hr : Rep h p) {t : TaskPtr} {l : ListRef} (ht : p.loc t = some l) :
    Rep (h.deltask l t) (p.del l t) := by
  have hmem : t ∈ p.q l := (p.mem_iff l t).mpr ht
  obtain ⟨-, -, h3⟩ := deltask_list (Heap.IsList.self (hr l) hmem) l
  refine rep_of_list (l := l) (t := t) hr (Or.inr ht) ?_ (fun l' hl' => ⟨h3 l' hl', ?_⟩)
    (fun x _ hxl => deltask_links (hr l) hmem hxl)
  · rw [Places.del_q ht, update_self]
    exact isList_deltask (hr l) hmem
  · rw [Places.del_q ht]
    simp [hl']

/-- The list's head and tail and the links of its tasks are as they were. -/
structure Unchanged (h h' : Heap) (l : ListRef) (ts : List TaskPtr) : Prop where
  list : h'.list l = h.list l
  next : ∀ t ∈ ts, h'.next t = h.next t
  prev : ∀ t ∈ ts, h'.prev t = h.prev t

theorem Unchanged.isList {h h' : Heap} {l : ListRef} {ts : List TaskPtr} (hu : Unchanged h h' l ts) (hd : h.IsList l ts) :
    h'.IsList l ts := by
  rw [Heap.IsList, hu.list]
  exact hd.frame hu.next hu.prev

/-- `addtask` appends and `deltask` removes, wherever the task is in the list, and a list without tasks of
    this one is not disturbed. -/
theorem tasklist_refines {h : Heap} {l : ListRef} {ts : List TaskPtr} (hd : h.IsList l ts) (t : TaskPtr) :
    (t ∉ ts → (h.addtask l t).IsList l (ts ++ [t]) ∧
      ∀ l' us, l' ≠ l → h.IsList l' us → (∀ u ∈ us, u ∉ ts ∧ u ≠ t) →
        Unchanged h (h.addtask l t) l' us ∧ (h.addtask l t).IsList l' us) ∧
    (t ∈ ts → (h.deltask l t).IsList l (ts.erase t) ∧
      ∀ l' us, l' ≠ l → h.IsList l' us → (∀ u ∈ us, u ∉ ts ∧ u ≠ t) →
        Unchanged h (h.deltask l t) l' us ∧ (h.deltask l t).IsList l' us) := by
  refine ⟨fun ht => ⟨isList_addtask hd ht, fun l' us hl' hd' hus => ?_⟩,
    fun ht => ⟨isList_deltask hd ht, fun l' us hl' hd' hus => ?_⟩⟩
  · have hsame : Unchanged h (h.addtask l t) l' us :=
      ⟨(addtask_list h l t).2.2 l' hl', fun u hu => (addtask_links hd (hus u hu).2 (hus u hu).1).1,
        fun u hu => (addtask_links hd (hus u hu).2 (hus u hu).1).2⟩
    exact ⟨hsame, hsame.isList hd'⟩
  · have hsame : Unchanged h (h.deltask l t) l' us :=
      ⟨(deltask_list (hd.self ht) l).2.2 l' hl', fun u hu => (deltask_links hd ht (hus u hu).1).1,
        fun u hu => (deltask_links hd ht (hus u hu).1).2⟩
    exact ⟨hsame, hsame.isList hd'⟩

/-- Tasks 1, 2 and 3 were put on the run queue, and 4 sleeps. -/
def queued : Heap :=
  let empty : Heap := ⟨fun _ => none, fun _ => none, fun _ => ⟨none, none⟩⟩
  (((empty.addtask .taskrunqueue 1).addtask .taskrunqueue 2).addtask .taskrunqueue 3).addtask .sleeping 4

theorem tasklist_refines_queued : (queued.deltask .taskrunqueue 2).IsList .taskrunqueue [1, 3] ∧
    (queued.deltask .taskrunqueue 2).IsList .sleeping [4] := by
  have h0 : ∀ l, Heap.IsList ⟨fun _ => none, fun _ => none, fun _ => ⟨none, none⟩⟩ l [] := fun _ => isDll_nil _ _
  have h1 := isList_addtask (h0 .taskrunqueue) (t := 1) List.not_mem_nil
  have h2 := isList_addtask h1 (t := 2) (by decide)
  have h3 := isList_addtask h2 (t := 3) (by decide)
  have hs : Heap.IsList _ .sleeping [] := (((tasklist_refines h2 3).1 (by decide)).2 .sleeping [] nofun
    (((tasklist_refines h1 2).1 (by decide)).2 .sleeping [] nofun
      (((tasklist_refines (h0 .taskrunqueue) 1).1 List.not_mem_nil).2 .sleeping [] nofun (h0 .sleeping) nofun).2 nofun).2 nofun).2
  have hq : queued.IsList .taskrunqueue [1, 2, 3] :=
    (((tasklist_refines hs 4).1 List.not_mem_nil).2 .taskrunqueue [1, 2, 3] nofun h3 (by decide)).2
  have hs : queued.IsList .sleeping [4] := isList_addtask hs List.not_mem_nil
  obtain ⟨h5, h6⟩ := (tasklist_refines hq 2).2 (by decide)
  exact ⟨h5, (h6 .sleeping [4] nofun hs (by decide)).2⟩

theorem scanback_spec {h : Heap} {head tail : Option TaskPtr} {ts : List TaskPtr}
    (hd : IsDll h.next h.prev head tail ts) (ge : TaskPtr → Bool) : ∀ (n : Nat) (as bs : List TaskPtr), ts = as ++ bs →
    as.length ≤ n → h.scanback ge n as.getLast? = .ok (as.rdropWhile ge).getLast? := by
  intro n
  induction n with
  | zero =>
    intro as bs _ hn
    obtain rfl := List.eq_nil_of_length_eq_zero (Nat.le_zero.mp hn)
    simp [Heap.scanback]
  | succ n ih =>
    intro as bs hts hn
    rcases List.eq_nil_or_concat as with rfl | ⟨as, x, rfl⟩
    · simp [Heap.scanback]
    · rw [List.concat_eq_append] at hts hn ⊢
      rw [List.length_append, List.length_singleton] at hn
      rw [List.getLast?_concat]
      by_cases hx : ge x = true
      · have hprev := (hd.links as x bs (by simpa using hts)).1
        rw [Heap.scanback, if_pos hx, hprev, ih as (x :: bs) (by simpa using hts) (by omega),
          List.rdropWhile_concat_pos ge _ x hx]
      · rw [Heap.scanback, if_neg hx, List.rdropWhile_concat_neg ge _ x hx, List.getLast?_concat]

/-- What comes after `u`, or first. -/
def Heap.behind (h : Heap) (l : ListRef) : Option TaskPtr → Option TaskPtr
  | some u => h.next u
  | none => (h.list l).head

theorem linktask_next {h : Heap} {u : Option TaskPtr} {t : TaskPtr} (l : ListRef) (hu : u ≠ some t) (x : TaskPtr) :
    (h.linktask l t u).next x =
      if x = t then h.behind l u
      else if u = some x then some t else h.next x := by
  cases u with
  | none =>
    cases hh : (h.list l).head <;> by_cases hx : x = t <;>
      simp [Heap.linktask, Heap.behind, Heap.setNext, Heap.setPrev, Heap.setHead, Heap.setTail, hh, hx]
  | some v =>
    have hv : t ≠ v := fun e => hu (by rw [e])
    have hvx : v = x ↔ x = v := eq_comm
    cases hh : h.next v <;> by_cases hx : x = t <;>
      simp [Heap.linktask, Heap.behind, Heap.setNext, Heap.setPrev, Heap.setTail, hh, hx, hv, update, hvx]

theorem linktask_prev {h : Heap} {u : Option TaskPtr} {t : TaskPtr} (l : ListRef) (hu : u ≠ some t)
    (hn : h.behind l u ≠ some t) (x : TaskPtr) :
    (h.linktask l t u).prev x =
      if x = t then u
      else if h.behind l u = some x then some t else h.prev x := by
  cases u with
  | none =>
    cases hh : (h.list l).head with
    | none =>
      by_cases hx : x = t <;> simp [Heap.linktask, Heap.behind, Heap.setNext, Heap.setPrev, Heap.setHead, Heap.setTail, hh, hx]
    | some n =>
      have hnt : t ≠ n := fun e => hn (by simp [Heap.behind, hh, e])
      have hnx : n = x ↔ x = n := eq_comm
      by_cases hx : x = t <;>
        simp [Heap.linktask, Heap.behind, Heap.setNext, Heap.setPrev, Heap.setHead, hh, hx, hnt, update, hnx]
  | some v =>
    have hv : t ≠ v := fun e => hu (by rw [e])
    cases hh : h.next v with
    | none =>
      by_cases hx : x = t <;> simp [Heap.linktask, Heap.behind, Heap.setNext, Heap.setPrev, Heap.setTail, hh, hx, hv]
    | some n =>
      have hnt : t ≠ n := fun e => hn (by simp [Heap.behind, hh, e])
      have hnx : n = x ↔ x = n := eq_comm
      by_cases hx : x = t <;>
        simp [Heap.linktask, Heap.behind, Heap.setNext, Heap.setPrev, hh, hx, hv, hnt, update, hnx]

theorem linktask_list {h : Heap} {u : Option TaskPtr} {t : TaskPtr} (l : ListRef) (hu : u ≠ some t) :
    ((h.linktask l t u).list l).head = (if u = none then some t else (h.list l).head) ∧
      ((h.linktask l t u).list l).tail =
        (if h.behind l u = none then some t else (h.list l).tail) ∧
      ∀ l', l' ≠ l → (h.linktask l t u).list l' = h.list l' := by
  cases u with
  | none =>
    cases hh : (h.list l).head <;> refine ⟨?_, ?_, fun l' hl' => ?_⟩ <;>
      simp [Heap.linktask, Heap.behind, Heap.setNext, Heap.setPrev, Heap.setHead, Heap.setTail, *]
  | some v =>
    have hv : t ≠ v := fun e => hu (by rw [e])
    cases hh : h.next v <;> refine ⟨?_, ?_, fun l' hl' => ?_⟩ <;>
      simp [Heap.linktask, Heap.behind, Heap.setNext, Heap.setPrev, Heap.setTail, *]

theorem rep_linktask {h : Heap} {p : Places} (hr : Rep h p) {t : TaskPtr} (ht : p.loc t = none) (l : ListRef)
    (ge : TaskPtr → Bool) {n : Nat} (hn : (p.q l).length ≤ n) :
    ∃ u, h.scanback ge n (h.list l).tail = .ok u ∧ Rep (h.linktask l t u) (p.insert l t ge) := by
  have hd := hr l
  have hnt := p.not_mem ht l
  have hsplit : p.q l = (p.q l).rdropWhile ge ++ (p.q l).rtakeWhile ge := List.rdropWhile_append_rtakeWhile.symm
  refine ⟨((p.q l).rdropWhile ge).getLast?, ?_, ?_⟩
  · rw [hd.tail]
    exact scanback_spec hd ge n (p.q l) [] (by simp) hn
  · obtain ⟨as, has⟩ : ∃ as, as = (p.q l).rdropWhile ge := ⟨_, rfl⟩
    obtain ⟨bs, hbs⟩ : ∃ bs, bs = (p.q l).rtakeWhile ge := ⟨_, rfl⟩
    rw [← has]
    rw [← has, ← hbs] at hsplit
    rw [hsplit] at hnt
    have hu : as.getLast? ≠ some t := fun e => hnt (List.mem_append_left _ (List.mem_of_getLast? e))
    -- what follows the node found, or the head, is the first of `bs`
    have hnext : h.behind l as.getLast? = bs.head? := by
      rcases List.eq_nil_or_concat as with rfl | ⟨cs, x, rfl⟩
      · show (h.list l).head = bs.head?
        rw [hd.head, hsplit]
        rfl
      · rw [List.concat_eq_append, List.getLast?_concat]
        exact (hd.links cs x bs (by simpa using hsplit)).2
    have hnn : bs.head? ≠ some t := fun e => hnt (List.mem_append_right _ (List.mem_of_head? e))
    obtain ⟨h1, h2, h3⟩ := linktask_list (h := h) l hu
    have hN := linktask_next (h := h) l hu
    have hP := linktask_prev (h := h) l hu (by rw [hnext]; exact hnn)
    rw [hnext] at h2
    simp only [hnext] at hN hP
    refine rep_of_list (l := l) (t := t) hr (Or.inl ht) ?_ (fun l' hl' => ⟨h3 l' hl', ?_⟩) (fun x hx hxl => ⟨?_, ?_⟩)
    · rw [Places.insert_q ht, update_self, h1, h2, ← has, ← hbs]
      have hne : ∀ x ∈ as ++ bs, x ≠ t := fun x hx e => hnt (e ▸ hx)
      have key := @IsDll.link _ h.next h.prev (h.linktask l t as.getLast?).next (h.linktask l t as.getLast?).prev
        (h.list l).head (h.list l).tail as bs t (by rw [← hsplit]; exact hd) hnt
        (by rw [hN, if_pos rfl]) (by rw [hP, if_pos rfl])
        (fun x hx => by
          have hxt := hne x (List.mem_append_left _ (List.mem_of_getLast? hx))
          rw [hN, if_neg hxt, if_pos hx])
        (fun x hx => by
          have hxt := hne x (List.mem_append_right _ (List.mem_of_head? hx))
          rw [hP, if_neg hxt, if_pos hx])
        (fun x hx hxa => by rw [hN, if_neg (hne x hx), if_neg hxa])
        (fun x hx hxb => by rw [hP, if_neg (hne x hx), if_neg hxb])
      have hhead : (as ++ t :: bs).head? = if as.getLast? = none then some t else (h.list l).head := by
        rw [hd.head, hsplit]
        cases as with
        | nil => simp
        | cons a as => simp
      have htail : (as ++ t :: bs).getLast? = if bs.head? = none then some t else (h.list l).tail := by
        rw [hd.tail, hsplit]
        cases bs with
        | nil => simp
        | cons b bs => simp [List.getLast?_append]
      rw [← hhead, ← htail]
      exact key
    · rw [Places.insert_q ht]
      simp [hl']
    · have hxa : as.getLast? ≠ some x := fun e => hxl (by
        rw [hsplit]; exact List.mem_append_left _ (List.mem_of_getLast? e))
      rw [hN, if_neg hx, if_neg hxa]
    · have hxb : bs.head? ≠ some x := fun e => hxl (by
        rw [hsplit]; exact List.mem_append_right _ (List.mem_of_head? e))
      rw [hP, if_neg hx, if_neg hxb]

/-- `memset` of a task that is on no list. -/
theorem rep_clear {h : Heap} {p : Places} (hr : Rep h p) {t : TaskPtr} (ht : p.loc t = none) :
    Rep ((h.setNext t none).setPrev t none) p := by
  intro l
  have hne : ∀ x ∈ p.q l, x ≠ t := fun x hx e => p.not_mem ht l (e ▸ hx)
  exact (hr l).frame (fun x hx => by simp [Heap.setNext, Heap.setPrev, hne x hx])
    (fun x hx => by simp [Heap.setNext, Heap.setPrev, hne x hx])

end Libtask.Sched
