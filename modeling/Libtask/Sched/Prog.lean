/-
  Libtask.Sched.Prog — programs that work on the lists, and their two meanings.

  The library's functions are written once, as programs (`Prog`) whose steps read and store
  the globals, look at a list's head, put a task on a list or take it off. `onHeap` runs
  them on the links, `onPlaces` on the places; the latter fails when a task is put on a
  list while it is on one, or taken off a list it is not on.

  `onPlaces_refines`: a run on the places that does not fail is a run on the links, with
  the same results, and the links still represent the places. `Ok` is total correctness
  on the places, and `Prog.All` partial correctness that asks only for the globals.
-/

import Libtask.Sched.Lists

namespace Libtask.Sched

inductive Prog (G : Type) (α : Type) where
  | pure (a : α)
  | abort (why : String)
  | get (k : G → Prog G α)
  | put (g : G) (k : Prog G α)
  | head (l : ListRef) (k : Option TaskPtr → Prog G α)
  | add (l : ListRef) (t : TaskPtr) (k : Prog G α)
  | del (l : ListRef) (t : TaskPtr) (k : Prog G α)
  | insert (l : ListRef) (t : TaskPtr) (ge : TaskPtr → Bool) (fuel : Nat) (k : Prog G α)
  | clear (t : TaskPtr) (k : Prog G α)

namespace Prog

variable {G : Type} {α β : Type}

def bind (m : Prog G α) (f : α → Prog G β) : Prog G β :=
  match m with
  | .pure a => f a
  | .abort why => .abort why
  | .get k => .get fun g => (k g).bind f
  | .put g k => .put g (k.bind f)
  | .head l k => .head l fun t => (k t).bind f
  | .add l t k => .add l t (k.bind f)
  | .del l t k => .del l t (k.bind f)
  | .insert l t ge n k => .insert l t ge n (k.bind f)
  | .clear t k => .clear t (k.bind f)

instance : Monad (Prog G) where
  pure := .pure
  bind := bind

theorem bind_ret (m : Prog G α) : m.bind .pure = m := by
  induction m with
  | pure a => rfl
  | abort why => rfl
  | get k ih => exact congrArg Prog.get (funext ih)
  | put g k ih => exact congrArg (Prog.put g) ih
  | head l k ih => exact congrArg (Prog.head l) (funext ih)
  | add l t k ih => exact congrArg (Prog.add l t) ih
  | del l t k ih => exact congrArg (Prog.del l t) ih
  | insert l t ge n k ih => exact congrArg (Prog.insert l t ge n) ih
  | clear t k ih => exact congrArg (Prog.clear t) ih

theorem bind_bind {γ : Type} (m : Prog G α) (f : α → Prog G β) (f' : β → Prog G γ) :
    (m.bind f).bind f' = m.bind fun a => (f a).bind f' := by
  induction m with
  | pure a => rfl
  | abort why => rfl
  | get k ih => exact congrArg Prog.get (funext ih)
  | put g k ih => exact congrArg (Prog.put g) ih
  | head l k ih => exact congrArg (Prog.head l) (funext ih)
  | add l t k ih => exact congrArg (Prog.add l t) ih
  | del l t k ih => exact congrArg (Prog.del l t) ih
  | insert l t ge n k ih => exact congrArg (Prog.insert l t ge n) ih
  | clear t k ih => exact congrArg (Prog.clear t) ih

instance : LawfulMonad (Prog G) := LawfulMonad.mk' (Prog G) bind_ret (fun _ _ => rfl) bind_bind

end Prog

/-- The globals, and where the tasks are (`Heap` or `Places`). -/
structure State (G M : Type) where
  g : G
  m : M

section
variable {G : Type} {α β : Type}

def Prog.onHeap : Prog G α → State G Heap → Except String (α × State G Heap)
  | .pure a, s => .ok (a, s)
  | .abort why, _ => .error why
  | .get k, s => (k s.g).onHeap s
  | .put g k, s => k.onHeap { s with g }
  | .head l k, s => (k (s.m.list l).head).onHeap s
  | .add l t k, s => k.onHeap { s with m := s.m.addtask l t }
  | .del l t k, s => k.onHeap { s with m := s.m.deltask l t }
  | .insert l t ge n k, s =>
    match s.m.scanback ge n (s.m.list l).tail with
    | .ok u => k.onHeap { s with m := s.m.linktask l t u }
    | .error why => .error why
  | .clear t k, s => k.onHeap { s with m := (s.m.setNext t none).setPrev t none }

def Prog.onPlaces : Prog G α → State G Places → Except String (α × State G Places)
  | .pure a, s => .ok (a, s)
  | .abort why, _ => .error why
  | .get k, s => (k s.g).onPlaces s
  | .put g k, s => k.onPlaces { s with g }
  | .head l k, s => (k (s.m.q l).head?).onPlaces s
  | .add l t k, s => if s.m.loc t = none then k.onPlaces { s with m := s.m.add l t } else .error "on a list"
  | .del l t k, s => if s.m.loc t = some l then k.onPlaces { s with m := s.m.del l t } else .error "not on the list"
  | .insert l t ge n k, s =>
    if s.m.loc t = none ∧ (s.m.q l).length ≤ n then k.onPlaces { s with m := s.m.insert l t ge }
    else .error "on a list, or out of fuel"
  | .clear t k, s => if s.m.loc t = none then k.onPlaces s else .error "on a list"

theorem onPlaces_refines (m : Prog G α) : ∀ {s s' : State G Places} {a : α} {h : Heap}, m.onPlaces s = .ok (a, s') →
    Rep h s.m → ∃ h', m.onHeap ⟨s.g, h⟩ = .ok (a, ⟨s'.g, h'⟩) ∧ Rep h' s'.m := by
  induction m with
  | pure a =>
    intro s s' a' h hr hrep
    obtain ⟨rfl, rfl⟩ := Prod.mk.inj (Except.ok.inj hr)
    exact ⟨h, rfl, hrep⟩
  | abort why =>
    intro s s' a' h hr
    cases hr
  | get k ih =>
    intro s s' a' h hr hrep
    exact ih s.g hr hrep
  | put g k ih =>
    intro s s' a' h hr hrep
    exact ih (s := { s with g }) hr hrep
  | head l k ih =>
    intro s s' a' h hr hrep
    have hh : (h.list l).head = (s.m.q l).head? := (hrep l).head
    simp only [Prog.onHeap, hh]
    exact ih _ hr hrep
  | add l t k ih =>
    intro s s' a' h hr hrep
    simp only [Prog.onPlaces] at hr
    split at hr
    · rename_i ht
      exact ih (s := { s with m := s.m.add l t }) hr (rep_addtask hrep ht l)
    · cases hr
  | del l t k ih =>
    intro s s' a' h hr hrep
    simp only [Prog.onPlaces] at hr
    split at hr
    · rename_i ht
      exact ih (s := { s with m := s.m.del l t }) hr (rep_deltask hrep ht)
    · cases hr
  | insert l t ge n k ih =>
    intro s s' a' h hr hrep
    simp only [Prog.onPlaces] at hr
    split at hr
    · rename_i ht
      obtain ⟨u, hu, hrep'⟩ := rep_linktask hrep ht.1 l ge ht.2
      simp only [Prog.onHeap, hu]
      exact ih (s := { s with m := s.m.insert l t ge }) hr hrep'
    · cases hr
  | clear t k ih =>
    intro s s' a' h hr hrep
    simp only [Prog.onPlaces] at hr
    split at hr
    · rename_i ht
      exact ih hr (rep_clear hrep ht)
    · cases hr

/-! ## Rules -/

/-- The program does not fail on `s`, and `Q` holds of its result. -/
def Ok (m : Prog G α) (s : State G Places) (Q : α → State G Places → Prop) : Prop :=
  ∃ a s', m.onPlaces s = .ok (a, s') ∧ Q a s'

variable {s : State G Places} {Q : α → State G Places → Prop} {Q' : β → State G Places → Prop}

theorem onPlaces_bind (m : Prog G α) (f : α → Prog G β) : ∀ s : State G Places,
    (m >>= f).onPlaces s = match m.onPlaces s with | .ok (a, s') => (f a).onPlaces s' | .error why => .error why := by
  show ∀ s, (Prog.bind m f).onPlaces s = _
  induction m with
  | pure a => intro s; rfl
  | abort why => intro s; rfl
  | get k ih => intro s; exact ih s.g s
  | put g k ih => intro s; exact ih _
  | head l k ih => intro s; exact ih _ s
  | add l t k ih =>
    intro s
    simp only [Prog.bind, Prog.onPlaces]
    split
    · exact ih _
    · rfl
  | del l t k ih =>
    intro s
    simp only [Prog.bind, Prog.onPlaces]
    split
    · exact ih _
    · rfl
  | insert l t ge n k ih =>
    intro s
    simp only [Prog.bind, Prog.onPlaces]
    split
    · exact ih _
    · rfl
  | clear t k ih =>
    intro s
    simp only [Prog.bind, Prog.onPlaces]
    split
    · exact ih _
    · rfl

theorem onHeap_bind (m : Prog G α) (f : α → Prog G β) : ∀ s : State G Heap,
    (m >>= f).onHeap s = match m.onHeap s with | .ok (a, s') => (f a).onHeap s' | .error why => .error why := by
  show ∀ s, (Prog.bind m f).onHeap s = _
  induction m with
  | pure a => intro s; rfl
  | abort why => intro s; rfl
  | get k ih => intro s; exact ih s.g s
  | put g k ih => intro s; exact ih _
  | head l k ih => intro s; exact ih _ s
  | add l t k ih => intro s; exact ih _
  | del l t k ih => intro s; exact ih _
  | insert l t ge n k ih =>
    intro s
    simp only [Prog.bind, Prog.onHeap]
    split
    · exact ih _
    · rfl
  | clear t k ih => intro s; exact ih _

/-- What returns in sequence returns in its parts. -/
theorem onPlaces_parts {m : Prog G α} {f : α → Prog G β} {b : β} {s' : State G Places} (h : (m >>= f).onPlaces s = .ok (b, s')) :
    ∃ a s₁, m.onPlaces s = .ok (a, s₁) ∧ (f a).onPlaces s₁ = .ok (b, s') := by
  rw [onPlaces_bind] at h
  cases hm : m.onPlaces s with
  | error why => rw [hm] at h; cases h
  | ok r => exact ⟨r.1, r.2, rfl, by rw [hm] at h; exact h⟩

theorem onHeap_parts {m : Prog G α} {f : α → Prog G β} {b : β} {s s' : State G Heap} (h : (m >>= f).onHeap s = .ok (b, s')) :
    ∃ a s₁, m.onHeap s = .ok (a, s₁) ∧ (f a).onHeap s₁ = .ok (b, s') := by
  rw [onHeap_bind] at h
  cases hm : m.onHeap s with
  | error why => rw [hm] at h; cases h
  | ok r => exact ⟨r.1, r.2, rfl, by rw [hm] at h; exact h⟩

theorem Ok.bind {m : Prog G α} {f : α → Prog G β} (h : Ok m s fun a s' => Ok (f a) s' Q') : Ok (m >>= f) s Q' := by
  obtain ⟨a, s', h1, b, s'', h2, hq⟩ := h
  exact ⟨b, s'', by rw [onPlaces_bind, h1]; exact h2, hq⟩

theorem Ok.pure {a : α} (h : Q a s) : Ok (Pure.pure a : Prog G α) s Q := ⟨a, s, rfl, h⟩

theorem Ok.mono {m : Prog G α} {P : α → State G Places → Prop} (h : Ok m s P) (hPQ : ∀ a s', P a s' → Q a s') : Ok m s Q := by
  obtain ⟨a, s', h1, h2⟩ := h
  exact ⟨a, s', h1, hPQ a s' h2⟩

theorem Ok.result {m : Prog G α} {a : α} {s' : State G Places} (h : Ok m s Q) (hr : m.onPlaces s = .ok (a, s')) : Q a s' := by
  obtain ⟨b, s'', h1, h2⟩ := h
  rw [hr] at h1
  obtain ⟨rfl, rfl⟩ := Prod.mk.inj (Except.ok.inj h1)
  exact h2

/-! ## What happens to the globals, whatever the lists are -/

/-- `Q` holds of the result and the globals, if the program does not abort. -/
def Prog.All (Q : α → G → Prop) : Prog G α → G → Prop
  | .pure a, g => Q a g
  | .abort _, _ => True
  | .get k, g => (k g).All Q g
  | .put g k, _ => k.All Q g
  | .head _ k, g => ∀ t, (k t).All Q g
  | .add _ _ k, g => k.All Q g
  | .del _ _ k, g => k.All Q g
  | .insert _ _ _ _ k, g => k.All Q g
  | .clear _ k, g => k.All Q g

theorem all_bind (m : Prog G α) (f : α → Prog G β) {Q : β → G → Prop} : ∀ {g : G},
    (m >>= f).All Q g ↔ m.All (fun a g' => (f a).All Q g') g := by
  show ∀ {g : G}, (Prog.bind m f).All Q g ↔ _
  induction m with
  | pure a => exact Iff.rfl
  | abort why => exact Iff.rfl
  | get k ih => exact fun {g} => ih g
  | put g k ih => exact ih
  | head l k ih => exact forall_congr' fun t => ih t
  | add l t k ih => exact ih
  | del l t k ih => exact ih
  | insert l t ge n k ih => exact ih
  | clear t k ih => exact ih

theorem all_mono {m : Prog G α} {Q Q' : α → G → Prop} (hQ : ∀ a g, Q a g → Q' a g) : ∀ {g : G},
    m.All Q g → m.All Q' g := by
  induction m with
  | pure a => exact hQ a _
  | abort why => exact id
  | get k ih => exact fun {g} => ih g
  | put g k ih => exact ih
  | head l k ih => exact fun h t => ih t (h t)
  | add l t k ih => exact ih
  | del l t k ih => exact ih
  | insert l t ge n k ih => exact ih
  | clear t k ih => exact ih

theorem all_and {m : Prog G α} {Q Q' : α → G → Prop} : ∀ {g : G}, m.All Q g → m.All Q' g →
    m.All (fun a g' => Q a g' ∧ Q' a g') g := by
  induction m with
  | pure a => exact And.intro
  | abort why => exact fun _ => id
  | get k ih => exact fun {g} => ih g
  | put g k ih => exact ih
  | head l k ih => exact fun h h' t => ih t (h t) (h' t)
  | add l t k ih => exact ih
  | del l t k ih => exact ih
  | insert l t ge n k ih => exact ih
  | clear t k ih => exact ih

theorem all_onPlaces {m : Prog G α} {Q : α → G → Prop} {a : α} : ∀ {s s' : State G Places},
    m.onPlaces s = .ok (a, s') → m.All Q s.g → Q a s'.g := by
  induction m with
  | pure b =>
    intro s s' hr h
    obtain ⟨rfl, rfl⟩ := Prod.mk.inj (Except.ok.inj hr)
    exact h
  | abort why =>
    intro s s' hr
    cases hr
  | get k ih => exact fun {s} {_} hr h => ih s.g hr h
  | put g k ih => exact fun hr h => ih (s := ⟨g, _⟩) hr h
  | head l k ih => exact fun hr h => ih _ hr (h _)
  | add l t k ih =>
    intro s s' hr h
    simp only [Prog.onPlaces] at hr
    split at hr
    · exact ih (s := ⟨s.g, _⟩) hr h
    · cases hr
  | del l t k ih =>
    intro s s' hr h
    simp only [Prog.onPlaces] at hr
    split at hr
    · exact ih (s := ⟨s.g, _⟩) hr h
    · cases hr
  | insert l t ge n k ih =>
    intro s s' hr h
    simp only [Prog.onPlaces] at hr
    split at hr
    · exact ih (s := ⟨s.g, _⟩) hr h
    · cases hr
  | clear t k ih =>
    intro s s' hr h
    simp only [Prog.onPlaces] at hr
    split at hr
    · exact ih hr h
    · cases hr

end

end Libtask.Sched
