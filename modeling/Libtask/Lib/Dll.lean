/-
  Libtask.Lib.Dll — doubly linked lists in a heap of nodes.

  Every node has a `next` and a `prev`; a list has a head and a tail. `IsDll` says that
  they represent the sequence `ts`. The two changes that list code makes are stated for
  any new link functions that differ from the old ones in the right places:

  - `IsDll.link`: a node goes between the nodes of `as` and those of `bs`.
  - `IsDll.unlink`: the node between them goes away.

  `IsDll.frame`: a list is not disturbed by changes to other nodes.
-/

import Mathlib.Data.List.Basic
import Mathlib.Data.List.Nodup

namespace Libtask.Lib.Dll

variable {α : Type}

/-- Each node's links name its neighbours in `ts`. -/
def Links (next prev : α → Option α) (ts : List α) : Prop :=
  ∀ as x bs, ts = as ++ x :: bs → prev x = as.getLast? ∧ next x = bs.head?

structure IsDll (next prev : α → Option α) (head tail : Option α) (ts : List α) : Prop where
  head : head = ts.head?
  tail : tail = ts.getLast?
  links : Links next prev ts
  nodup : ts.Nodup

theorem isDll_nil (next prev : α → Option α) : IsDll next prev none none [] where
  head := rfl
  tail := rfl
  links := fun as x bs h => by simp at h
  nodup := List.nodup_nil

theorem IsDll.frame {next prev next' prev' : α → Option α} {head tail : Option α} {ts : List α}
    (h : IsDll next prev head tail ts) (hn : ∀ x ∈ ts, next' x = next x) (hp : ∀ x ∈ ts, prev' x = prev x) :
    IsDll next' prev' head tail ts := by
  refine ⟨h.head, h.tail, ?_, h.nodup⟩
  intro as x bs hts
  have hx : x ∈ ts := hts ▸ List.mem_append_cons_self
  rw [hn x hx, hp x hx]
  exact h.links as x bs hts

/-- The two ways to split a list in which `t` stands between `as` and `bs` at a node `x`
    other than `t`: in front of `t` or behind it. -/
theorem split_cases {as bs cs ds : List α} {t x : α} (h : as ++ t :: bs = cs ++ x :: ds) :
    (cs = as ∧ x = t ∧ ds = bs) ∨ (∃ es, as = cs ++ x :: es ∧ ds = es ++ t :: bs) ∨
      ∃ es, bs = es ++ x :: ds ∧ cs = as ++ t :: es := by
  rcases List.append_eq_append_iff.mp h with ⟨es, rfl, h2⟩ | ⟨es, rfl, h2⟩
  · cases es with
    | nil =>
      obtain ⟨rfl, rfl⟩ := List.cons.inj h2
      exact Or.inl ⟨by simp, rfl, rfl⟩
    | cons e es =>
      obtain ⟨rfl, rfl⟩ := List.cons.inj h2
      exact Or.inr (Or.inr ⟨es, rfl, rfl⟩)
  · cases es with
    | nil =>
      obtain ⟨rfl, rfl⟩ := List.cons.inj h2
      exact Or.inl ⟨by simp, rfl, rfl⟩
    | cons e es =>
      obtain ⟨rfl, rfl⟩ := List.cons.inj h2
      exact Or.inr (Or.inl ⟨es, rfl, rfl⟩)

theorem getLast?_cons_concat (xs ys : List α) (x y : α) : (xs ++ x :: ys.concat y).getLast? = some y := by
  have h : xs ++ x :: ys.concat y = (xs ++ x :: ys) ++ [y] := by simp
  rw [h]
  exact List.getLast?_concat

theorem IsDll.link {next prev next' prev' : α → Option α} {head tail : Option α} {as bs : List α} {t : α}
    (h : IsDll next prev head tail (as ++ bs)) (ht : t ∉ as ++ bs)
    (hnt : next' t = bs.head?) (hpt : prev' t = as.getLast?)
    (hna : ∀ x, as.getLast? = some x → next' x = some t) (hpb : ∀ x, bs.head? = some x → prev' x = some t)
    (hn : ∀ x ∈ as ++ bs, as.getLast? ≠ some x → next' x = next x)
    (hp : ∀ x ∈ as ++ bs, bs.head? ≠ some x → prev' x = prev x) :
    IsDll next' prev' (as ++ t :: bs).head? (as ++ t :: bs).getLast? (as ++ t :: bs) := by
  have hnd := h.nodup
  have hdis : ∀ x ∈ as, x ∉ bs := fun x ha hb => (List.nodup_append.mp hnd).2.2 x ha x hb rfl
  refine ⟨rfl, rfl, ?_, ?_⟩
  · intro cs x ds hts
    rcases split_cases hts with ⟨rfl, rfl, rfl⟩ | ⟨es, rfl, rfl⟩ | ⟨es, rfl, rfl⟩
    · exact ⟨hpt, hnt⟩
    · -- in front of `t`
      obtain ⟨h1, h2⟩ := h.links cs x (es ++ bs) (by simp)
      have hxa : x ∈ cs ++ x :: es := List.mem_append_cons_self
      have hxb : x ∉ bs := hdis x hxa
      have hx : x ∈ (cs ++ x :: es) ++ bs := List.mem_append_left _ hxa
      refine ⟨?_, ?_⟩
      · rw [hp x hx fun hb => hxb (List.mem_of_head? hb), h1]
      · cases es with
        | nil => exact hna x (by simp)
        | cons e es =>
          have hlast : (cs ++ x :: e :: es).getLast? ≠ some x := by
            rw [List.getLast?_append_cons]
            intro hl
            have hmem : x ∈ e :: es := List.mem_of_getLast? (by simpa using hl)
            have hnd' := (List.nodup_append.mp hnd).1
            rw [List.nodup_append, List.nodup_cons] at hnd'
            exact hnd'.2.1.1 hmem
          rw [hn x hx hlast, h2]
          rfl
    · -- behind `t`
      obtain ⟨h1, h2⟩ := h.links (as ++ es) x ds (by simp)
      have hxb : x ∈ es ++ x :: ds := List.mem_append_cons_self
      have hxa : x ∉ as := fun ha => hdis x ha hxb
      have hx : x ∈ as ++ (es ++ x :: ds) := List.mem_append_right _ hxb
      refine ⟨?_, ?_⟩
      · rcases List.eq_nil_or_concat es with rfl | ⟨es, e, rfl⟩
        · rw [hpb x rfl]
          simp
        · have hfirst : (es.concat e ++ x :: ds).head? ≠ some x := by
            intro hf
            have hmem : x ∈ es.concat e := by
              rw [List.head?_append_of_ne_nil _ (by simp)] at hf
              exact List.mem_of_head? hf
            have hnd' := (List.nodup_append.mp hnd).2.1
            exact (List.nodup_append.mp hnd').2.2 x hmem x (List.mem_cons_self) rfl
          rw [hp x hx hfirst, h1, getLast?_cons_concat]
          simp
      · rw [hn x hx fun ha => hxa (List.mem_of_getLast? ha), h2]
  · rw [List.nodup_append, List.nodup_cons]
    rw [List.mem_append, not_or] at ht
    obtain ⟨h1, h2, h3⟩ := List.nodup_append.mp hnd
    refine ⟨h1, ⟨ht.2, h2⟩, ?_⟩
    intro a ha b hb
    rcases List.mem_cons.mp hb with rfl | hb
    · exact fun hab => ht.1 (hab ▸ ha)
    · exact h3 a ha b hb

theorem IsDll.unlink {next prev next' prev' : α → Option α} {head tail : Option α} {as bs : List α} {t : α}
    (h : IsDll next prev head tail (as ++ t :: bs))
    (hna : ∀ x, as.getLast? = some x → next' x = bs.head?) (hpb : ∀ x, bs.head? = some x → prev' x = as.getLast?)
    (hn : ∀ x ∈ as ++ bs, as.getLast? ≠ some x → next' x = next x)
    (hp : ∀ x ∈ as ++ bs, bs.head? ≠ some x → prev' x = prev x) :
    IsDll next' prev' (as ++ bs).head? (as ++ bs).getLast? (as ++ bs) := by
  have hnd := h.nodup
  obtain ⟨hnda, hndb, hdis⟩ := List.nodup_append.mp hnd
  refine ⟨rfl, rfl, ?_, ?_⟩
  · intro cs x ds hts
    rcases List.append_eq_append_iff.mp hts with ⟨es, rfl, rfl⟩ | ⟨es, rfl, h2⟩
    · -- behind `t`
      obtain ⟨h1, h2⟩ := h.links (as ++ t :: es) x ds (by simp)
      have hxb : x ∈ es ++ x :: ds := List.mem_append_cons_self
      have hxa : x ∉ as := fun ha => hdis x ha x (List.mem_cons_of_mem _ hxb) rfl
      have hx : x ∈ as ++ (es ++ x :: ds) := List.mem_append_right _ hxb
      refine ⟨?_, ?_⟩
      · rcases List.eq_nil_or_concat es with rfl | ⟨es, e, rfl⟩
        · rw [hpb x rfl]
          simp
        · have hfirst : (es.concat e ++ x :: ds).head? ≠ some x := by
            intro hf
            have hmem : x ∈ es.concat e := by
              rw [List.head?_append_of_ne_nil _ (by simp)] at hf
              exact List.mem_of_head? hf
            have hnd' := (List.nodup_cons.mp hndb).2
            exact (List.nodup_append.mp hnd').2.2 x hmem x List.mem_cons_self rfl
          rw [hp x hx hfirst, h1, getLast?_cons_concat]
          simp
      · rw [hn x hx fun ha => hxa (List.mem_of_getLast? ha), h2]
    · cases es with
      | nil =>
        -- `x` is the first node behind `t`
        have h2 : bs = x :: ds := by simpa using h2.symm
        subst h2
        simp only [List.append_nil] at *
        obtain ⟨h1, h2⟩ := h.links (cs ++ [t]) x ds (by simp)
        have hxa : x ∉ cs := fun ha => hdis x ha x (List.mem_cons_of_mem _ List.mem_cons_self) rfl
        have hx : x ∈ cs ++ x :: ds := List.mem_append_cons_self
        exact ⟨hpb x rfl, by rw [hn x hx fun ha => hxa (List.mem_of_getLast? ha), h2]⟩
      | cons e es =>
        -- in front of `t`
        obtain ⟨rfl, rfl⟩ := List.cons.inj h2
        obtain ⟨h1, h2⟩ := h.links cs x (es ++ t :: bs) (by simp)
        have hxa : x ∈ cs ++ x :: es := List.mem_append_cons_self
        have hxb : x ∉ bs := fun hb => hdis x hxa x (List.mem_cons_of_mem _ hb) rfl
        have hx : x ∈ (cs ++ x :: es) ++ bs := List.mem_append_left _ hxa
        refine ⟨?_, ?_⟩
        · rw [hp x hx fun hb => hxb (List.mem_of_head? hb), h1]
        · cases es with
          | nil => rw [hna x (by simp)]; simp
          | cons e es =>
            have hlast : (cs ++ x :: e :: es).getLast? ≠ some x := by
              rw [List.getLast?_append_cons]
              intro hl
              have hmem : x ∈ e :: es := List.mem_of_getLast? (by simpa using hl)
              rw [List.nodup_append, List.nodup_cons] at hnda
              exact hnda.2.1.1 hmem
            rw [hn x hx hlast, h2]
            rfl
  · refine List.nodup_append.mpr ⟨hnda, (List.nodup_cons.mp hndb).2, ?_⟩
    intro a ha b hb
    exact hdis a ha b (List.mem_cons_of_mem _ hb)

end Libtask.Lib.Dll
