/-
  Libtask.Lib.Alloc — histories of `malloc` and `free`, newest first.

  `Valid`: what is freed was allocated, and `malloc` returns what was not. Then an address is
  freed once for each time it was allocated, but for the last when it still is (`count_malloc`),
  and not twice between two times (`freed_once`).
-/

import Mathlib.Data.List.TakeWhile
import Libtask.Lib.History

namespace Libtask.Lib.Alloc

open Libtask.Lib.History (Law)

inductive Call (α : Type) where
  | malloc (a : α)
  | free (a : α)
  deriving DecidableEq, Repr

variable {α : Type}

def Allocated : List (Call α) → α → Prop
  | [], _ => False
  | .malloc b :: h, a => a = b ∨ Allocated h a
  | .free b :: h, a => a ≠ b ∧ Allocated h a

def Entry : Call α → List (Call α) → Prop
  | .malloc a, h => ¬ Allocated h a
  | .free a, h => Allocated h a

def Valid (h : List (Call α)) : Prop := Law Entry h

section
variable {a : α} {h after : List (Call α)} {c : Call α}

theorem allocated_cons (hm : c ≠ .malloc a) (hf : c ≠ .free a) : Allocated (c :: h) a ↔ Allocated h a := by
  cases c with
  | malloc b => exact ⟨fun hc => hc.resolve_left fun he => hm (he ▸ rfl), .inr⟩
  | free b => exact ⟨And.right, fun hc => ⟨fun he => hf (he ▸ rfl), hc⟩⟩

/-- When only frees came, these are of what was allocated and is not any more, each once. -/
theorem frees (hv : Valid (after ++ h)) (hf : ∀ c ∈ after, ∃ b, c = .free b) :
    after.Nodup ∧ ∀ a, (.free a ∈ after → Allocated h a) ∧ (Allocated (after ++ h) a ↔ .free a ∉ after ∧ Allocated h a) := by
  induction after with
  | nil => exact ⟨List.nodup_nil, fun a => ⟨nofun, fun h => ⟨nofun, h⟩, And.right⟩⟩
  | cons c after ih =>
    obtain ⟨hc, hv⟩ := hv
    obtain ⟨hnd, hall⟩ := ih hv fun c' h => hf c' (List.mem_cons_of_mem c h)
    obtain ⟨b, rfl⟩ := hf c List.mem_cons_self
    obtain ⟨hb, hlive⟩ := (hall b).2.mp hc
    refine ⟨List.nodup_cons.mpr ⟨hb, hnd⟩, fun a => ⟨fun ha => ?_, ?_⟩⟩
    · rcases List.mem_cons.mp ha with ha | ha
      · exact Call.free.inj ha ▸ hlive
      · exact (hall a).1 ha
    · show a ≠ b ∧ Allocated (after ++ h) a ↔ _
      rw [(hall a).2, List.mem_cons, not_or, Call.free.injEq, and_assoc]

/-- What is allocated can be freed, one after the other. -/
theorem free_all (hv : Valid h) {as : List α} (hnd : as.Nodup) (ha : ∀ a ∈ as, Allocated h a) :
    Valid (as.map .free ++ h) ∧ ∀ a, Allocated (as.map .free ++ h) a ↔ a ∉ as ∧ Allocated h a := by
  induction as with
  | nil => exact ⟨hv, fun a => ⟨fun h => ⟨nofun, h⟩, And.right⟩⟩
  | cons b as ih =>
    obtain ⟨hb, hnd⟩ := List.nodup_cons.mp hnd
    obtain ⟨hv, hall⟩ := ih hnd fun a h => ha a (List.mem_cons_of_mem b h)
    refine ⟨⟨(hall b).mpr ⟨hb, ha b List.mem_cons_self⟩, hv⟩, fun a => ?_⟩
    show a ≠ b ∧ Allocated (as.map .free ++ h) a ↔ _
    rw [hall a, List.mem_cons, not_or, and_assoc]

end

section
variable [DecidableEq α] {a : α} {h after before : List (Call α)}

/-- How often `a` was freed before it was allocated again. -/
def freed (a : α) (after : List (Call α)) : Nat := (after.reverse.takeWhile (· ≠ .malloc a)).count (.free a)

/-- As often as it was allocated, or once less. -/
theorem count_malloc (hv : Valid h) (a : α) : (Allocated h a → h.count (.malloc a) = h.count (.free a) + 1) ∧
    (¬ Allocated h a → h.count (.malloc a) = h.count (.free a)) := by
  induction h with
  | nil => exact ⟨False.elim, fun _ => rfl⟩
  | cons c h ih =>
    obtain ⟨hc, hv⟩ := hv
    obtain ⟨h1, h2⟩ := ih hv
    by_cases hm : c = .malloc a
    · subst hm
      rw [List.count_cons_self, List.count_cons_of_ne (show Call.malloc a ≠ .free a from nofun), h2 hc]
      exact ⟨fun _ => rfl, fun hn => absurd (.inl rfl) hn⟩
    · by_cases hf : c = .free a
      · subst hf
        rw [List.count_cons_self, List.count_cons_of_ne (show Call.free a ≠ .malloc a from nofun), h1 hc]
        exact ⟨fun ha => absurd rfl ha.1, fun _ => rfl⟩
      · rw [allocated_cons hm hf, List.count_cons_of_ne hm, List.count_cons_of_ne hf]
        exact ⟨h1, h2⟩

theorem freed_again (hm : .malloc a ∈ after) (c : Call α) : freed a (c :: after) = freed a after := by
  unfold freed
  rw [List.reverse_cons, List.takeWhile_append, if_neg]
  intro hl
  have hall := List.takeWhile_eq_self_iff.mp ((List.takeWhile_prefix _).eq_of_length hl)
  exact of_decide_eq_true (hall (.malloc a) (List.mem_reverse.mpr hm)) rfl

theorem freed_cons (hm : .malloc a ∉ after) (c : Call α) :
    freed a (c :: after) = freed a after + if c = .free a then 1 else 0 := by
  have hall : after.reverse.takeWhile (· ≠ .malloc a) = after.reverse := by
    refine List.takeWhile_eq_self_iff.mpr fun x hx => decide_eq_true fun he => hm ?_
    exact he ▸ List.mem_reverse.mp hx
  unfold freed
  rw [List.reverse_cons, List.takeWhile_append, if_pos (by rw [hall]), hall, List.count_append]
  by_cases hf : c = .free a
  · subst hf
    simp
  · by_cases hc : c = .malloc a <;> simp [hc, hf]

/-- Behind an allocation the address is allocated, or was freed once. -/
theorem freed_once (hv : Valid (after ++ .malloc a :: before)) :
    (.malloc a ∈ after ∨ ¬ Allocated (after ++ .malloc a :: before) a → freed a after = 1) ∧
    (.malloc a ∉ after → Allocated (after ++ .malloc a :: before) a → freed a after = 0) := by
  induction after with
  | nil => exact ⟨fun h => (h.elim nofun fun hn => absurd (.inl rfl) hn), fun _ _ => rfl⟩
  | cons c after ih =>
    obtain ⟨hc, hv⟩ := hv
    obtain ⟨h1, h0⟩ := ih hv
    by_cases hm : .malloc a ∈ after
    · rw [freed_again hm]
      exact ⟨fun _ => h1 (.inl hm), fun hn => absurd (List.mem_cons_of_mem c hm) hn⟩
    · rw [freed_cons hm]
      by_cases hcm : c = .malloc a
      · subst hcm
        rw [h1 (.inr hc), if_neg (show Call.malloc a ≠ .free a from nofun)]
        exact ⟨fun _ => rfl, fun hn => absurd List.mem_cons_self hn⟩
      · by_cases hcf : c = .free a
        · subst hcf
          rw [h0 hm hc, if_pos rfl]
          exact ⟨fun _ => rfl, fun _ ha => absurd rfl ha.1⟩
        · have hal := allocated_cons (h := after ++ .malloc a :: before) hcm hcf
          rw [if_neg hcf, List.mem_cons, List.cons_append, hal]
          exact ⟨fun hor => h1 (hor.imp_left fun hi => hi.resolve_left (Ne.symm hcm)), fun _ ha => h0 hm ha⟩

end

end Libtask.Lib.Alloc
