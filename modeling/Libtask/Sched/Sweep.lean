/-
  Libtask.Sched.Sweep — the loop of the other `fdtask` over the entries that `poll` found (fd.c).

  The loop is as the source has it, one in another (`readyfor`, `readywhile`); `fdready`, which the
  runs are made of, is the same loop (`fdready_eq`).

  An entry that is ready is dropped: the last one takes its place, and is looked at next. A turn moves
  an entry from the table to those that were dropped, and loses none (`Moved`). `sweep_ready`: so the
  loop comes down to one `taskready` for each entry that is ready, and the others stay.
-/

import Libtask.Lib.Lists
import Libtask.Sched.Pollfd

namespace Libtask.Sched.Pollfd

open Function (update update_self update_of_ne)
open Libtask.Lib.Lists

/-- `while(i < npollfd && pollfd[i].revents)`. -/
def readywhile (i : Nat) : (fuel : Nat) → Table → Lib Table
  | 0, tab => if i < tab.npollfd ∧ (tab.pollfd i).revents ≠ 0 then abort "out of fuel" else pure tab
  | fuel + 1, tab =>
    if i < tab.npollfd ∧ (tab.pollfd i).revents ≠ 0 then do
      taskready (tab.polltask i)
      readywhile i fuel (tab.drop i)
    else pure tab

/-- `for(i=0; i<npollfd; i++)`, from `i` on. -/
def readyfor : (fuel i : Nat) → Table → Lib Table
  | 0, i, tab => if i < tab.npollfd then abort "out of fuel" else pure tab
  | fuel + 1, i, tab =>
    if i < tab.npollfd then do
      let tab ← readywhile i tab.npollfd tab
      readyfor fuel (i + 1) tab
    else pure tab

/-! ## The entries -/

abbrev Entry := PollFd × TaskPtr

def Entry.ready (e : Entry) : Bool := e.1.revents ≠ 0

def Table.entries (tab : Table) : List Entry := (List.range tab.npollfd).map fun i => (tab.pollfd i, tab.polltask i)

/-- `taskready` of each, and nothing else. -/
def readyall : List TaskPtr → Lib Unit
  | [] => pure ()
  | t :: ts => do
    taskready t
    readyall ts

theorem readyall_append (ts us : List TaskPtr) : readyall (ts ++ us) = readyall ts >>= fun _ => readyall us := by
  induction ts with
  | nil => rfl
  | cons t ts ih => rw [List.cons_append, readyall, readyall, ih, bind_assoc]

section
variable {tab tab' tab'' : Table} {i fuel : Nat} {es fs : List Entry}

theorem length_entries (tab : Table) : tab.entries.length = tab.npollfd := by simp [Table.entries]

theorem entries_drop (hi : i < tab.npollfd) : (tab.drop i).entries = swapRemove tab.entries i := by
  obtain ⟨n, hn⟩ : ∃ n, tab.npollfd = n + 1 := ⟨tab.npollfd - 1, by omega⟩
  have hlast : tab.entries = (List.range n).map (fun i => (tab.pollfd i, tab.polltask i)) ++ [(tab.pollfd n, tab.polltask n)] := by
    rw [Table.entries, hn, List.range_succ, List.map_append]
    rfl
  have hlen : (tab.drop i).npollfd = n := by rw [Table.drop, hn]; rfl
  rw [hlast, swapRemove_snoc]
  refine List.ext_getElem (by simp [length_entries, hlen]) fun j h1 h2 => ?_
  have hj : j < n := by rw [length_entries, hlen] at h1; exact h1
  rw [List.getElem_dropLast, List.getElem_set]
  simp only [Table.entries, List.getElem_map, List.getElem_range]
  by_cases hij : i = j
  · subst hij
    simp [Table.drop, hn]
  · simp [Table.drop, hij, Ne.symm hij, hj]

/-- The dropped entry, with what is left. -/
theorem drop_perm (hi : i < tab.npollfd) : ((tab.pollfd i, tab.polltask i) :: (tab.drop i).entries).Perm tab.entries := by
  have hlt : i < tab.entries.length := by rw [length_entries]; exact hi
  have hget : tab.entries[i] = (tab.pollfd i, tab.polltask i) := by simp [Table.entries]
  rw [entries_drop hi, ← hget]
  exact ((swapRemove_perm hlt).cons _).trans (List.getElem_cons_eraseIdx_perm hlt)

/-- The entries `es` are ready, and were dropped. -/
structure Moved (tab : Table) (es : List Entry) (tab' : Table) : Prop where
  ready : ∀ e ∈ es, e.ready = true
  perm : (es ++ tab'.entries).Perm tab.entries

theorem moved_nil (tab : Table) : Moved tab [] tab := ⟨nofun, List.Perm.refl _⟩

theorem Moved.trans (h : Moved tab es tab') (h' : Moved tab' fs tab'') : Moved tab (es ++ fs) tab'' where
  ready e he := (List.mem_append.mp he).elim (h.ready e) (h'.ready e)
  perm := by
    rw [List.append_assoc]
    exact (h'.perm.append_left es).trans h.perm

theorem Moved.npollfd (h : Moved tab es tab') : es.length + tab'.npollfd = tab.npollfd := by
  have hlen := h.perm.length_eq
  rw [List.length_append, length_entries, length_entries] at hlen
  exact hlen

theorem moved_drop (hi : i < tab.npollfd) (hr : (tab.pollfd i).revents ≠ 0) :
    Moved tab [(tab.pollfd i, tab.polltask i)] (tab.drop i) where
  ready e he := by
    rw [List.mem_singleton.mp he]
    exact decide_eq_true hr
  perm := drop_perm hi

/-- When all are ready that were dropped, and none that is left, these are those that were ready. -/
theorem Moved.split (h : Moved tab es tab') (hz : ∀ j < tab'.npollfd, (tab'.pollfd j).revents = 0) :
    es.Perm (tab.entries.filter Entry.ready) ∧ tab'.entries.Perm (tab.entries.filter fun e => !e.ready) := by
  have hleft : ∀ e ∈ tab'.entries, e.ready = false := fun e he => by
    obtain ⟨j, hj, rfl⟩ := List.mem_map.mp he
    exact decide_eq_false (not_not.mpr (hz j (List.mem_range.mp hj)))
  have h1 := h.perm.filter Entry.ready
  have h2 := h.perm.filter fun e => !e.ready
  rw [List.filter_append, List.filter_eq_self.mpr h.ready, List.filter_eq_nil_iff.mpr fun e he => by simp [hleft e he],
    List.append_nil] at h1
  rw [List.filter_append, List.filter_eq_nil_iff.mpr fun e he => by simp [h.ready e he],
    List.filter_eq_self.mpr fun e he => by simp [hleft e he], List.nil_append] at h2
  exact ⟨h1, h2⟩

/-! ## The loops -/

/-- The inner loop stops at an entry that is not ready, or at the end; it does not change those in front. -/
theorem readywhile_eq : ∀ (fuel : Nat) (tab : Table), tab.npollfd ≤ fuel + i → ∃ es tab',
    (readywhile i fuel tab = do readyall (es.map Prod.snd); pure tab') ∧ Moved tab es tab' ∧
      (i < tab'.npollfd → (tab'.pollfd i).revents = 0) ∧ ∀ j < i, tab'.pollfd j = tab.pollfd j := by
  intro fuel
  induction fuel with
  | zero =>
    intro tab hf
    refine ⟨[], tab, ?_, moved_nil tab, fun hi => absurd hi (by omega), fun _ _ => rfl⟩
    rw [readywhile, if_neg fun h => absurd h.1 (by omega)]
    rfl
  | succ fuel ih =>
    intro tab hf
    by_cases h : i < tab.npollfd ∧ (tab.pollfd i).revents ≠ 0
    · have hlen : (tab.drop i).npollfd = tab.npollfd - 1 := rfl
      obtain ⟨es, tab', he, hm, hz, hsame⟩ := ih (tab.drop i) (by omega)
      refine ⟨[(tab.pollfd i, tab.polltask i)] ++ es, tab', ?_, (moved_drop h.1 h.2).trans hm, hz, fun j hj => ?_⟩
      · rw [readywhile, if_pos h, he, List.singleton_append, List.map_cons, readyall, bind_assoc]
      · rw [hsame j hj]
        exact update_of_ne (Nat.ne_of_lt hj) _ _
    · refine ⟨[], tab, ?_, moved_nil tab, fun hi => not_not.mp fun hr => h ⟨hi, hr⟩, fun _ _ => rfl⟩
      rw [readywhile, if_neg h]
      rfl

/-- Entries in front of `i` are not ready. -/
theorem readyfor_eq : ∀ (fuel i : Nat) (tab : Table), tab.npollfd ≤ fuel + i →
    (∀ j < i, j < tab.npollfd → (tab.pollfd j).revents = 0) → ∃ es tab',
    (readyfor fuel i tab = do readyall (es.map Prod.snd); pure tab') ∧ Moved tab es tab' ∧
      ∀ j < tab'.npollfd, (tab'.pollfd j).revents = 0 := by
  intro fuel
  induction fuel with
  | zero =>
    intro i tab hf hz
    refine ⟨[], tab, ?_, moved_nil tab, fun j hj => hz j (by omega) hj⟩
    rw [readyfor, if_neg (by omega)]
    rfl
  | succ fuel ih =>
    intro i tab hf hz
    by_cases hi : i < tab.npollfd
    · obtain ⟨es, tab₁, he, hm, hstop, hsame⟩ := readywhile_eq (i := i) tab.npollfd tab (by omega)
      have hle := hm.npollfd
      have hz₁ : ∀ j < i + 1, j < tab₁.npollfd → (tab₁.pollfd j).revents = 0 := fun j hj hj' => by
        by_cases hji : j = i
        · exact hji ▸ hstop (hji ▸ hj')
        · rw [hsame j (by omega)]
          exact hz j (by omega) (by omega)
      obtain ⟨fs, tab', he', hm', hz'⟩ := ih (i + 1) tab₁ (by omega) hz₁
      refine ⟨es ++ fs, tab', ?_, hm.trans hm', hz'⟩
      rw [readyfor, if_pos hi, he, List.map_append, readyall_append]
      simp only [bind_assoc, pure_bind, he']
    · refine ⟨[], tab, ?_, moved_nil tab, fun j hj => hz j (by omega) hj⟩
      rw [readyfor, if_neg hi]
      rfl

/-- Fuel is not used up. -/
theorem fdready_fuel : ∀ (fuel fuel' i : Nat) (tab : Table), tab.npollfd ≤ fuel + i → tab.npollfd ≤ fuel' + i →
    fdready fuel i tab = fdready fuel' i tab := by
  intro fuel
  induction fuel with
  | zero =>
    intro fuel' i tab hf _
    have hi : ¬ i < tab.npollfd := by omega
    cases fuel' <;> simp only [fdready, if_neg hi]
  | succ fuel ih =>
    intro fuel' i tab hf hf'
    by_cases hi : i < tab.npollfd
    · obtain ⟨n, rfl⟩ : ∃ n, fuel' = n + 1 := ⟨fuel' - 1, by omega⟩
      have hlen : (tab.drop i).npollfd = tab.npollfd - 1 := rfl
      simp only [fdready, if_pos hi]
      rw [ih n i (tab.drop i) (by omega) (by omega), ih n (i + 1) tab (by omega) (by omega)]
    · cases fuel' <;> simp only [fdready, if_neg hi]

theorem fdready_while : ∀ (k fuel : Nat) (tab : Table), tab.npollfd ≤ k + i → tab.npollfd ≤ fuel + i →
    fdready fuel i tab = readywhile i k tab >>= fun tab' => fdready tab'.npollfd (i + 1) tab' := by
  intro k
  induction k with
  | zero =>
    intro fuel tab hk hf
    have hi : ¬ i < tab.npollfd := by omega
    have hi' : ¬ i + 1 < tab.npollfd := by omega
    rw [readywhile, if_neg fun h => hi h.1, pure_bind, fdready_fuel fuel 0 i tab hf (by omega),
      fdready_fuel tab.npollfd 0 (i + 1) tab (by omega) (by omega), fdready, if_neg hi, fdready, if_neg hi']
  | succ k ih =>
    intro fuel tab hk hf
    by_cases hi : i < tab.npollfd
    · obtain ⟨n, rfl⟩ : ∃ n, fuel = n + 1 := ⟨fuel - 1, by omega⟩
      rw [fdready, if_pos hi, readywhile]
      by_cases hr : (tab.pollfd i).revents ≠ 0
      · have hlen : (tab.drop i).npollfd = tab.npollfd - 1 := rfl
        rw [if_pos hr, if_pos ⟨hi, hr⟩, bind_assoc, ih n (tab.drop i) (by omega) (by omega)]
      · rw [if_neg hr, if_neg fun h => hr h.2, pure_bind]
        exact fdready_fuel n tab.npollfd (i + 1) tab (by omega) (by omega)
    · rw [readywhile, if_neg fun h => hi h.1, pure_bind, fdready_fuel fuel 0 i tab hf (by omega),
        fdready_fuel tab.npollfd 0 (i + 1) tab (by omega) (by omega), fdready, if_neg hi, fdready, if_neg (by omega)]

/-- The loop of the runs is the loop of the source. -/
theorem fdready_eq : ∀ (fuel i : Nat) (tab : Table), tab.npollfd ≤ fuel + i → fdready fuel i tab = readyfor fuel i tab := by
  intro fuel
  induction fuel with
  | zero => exact fun _ _ _ => rfl
  | succ fuel ih =>
    intro i tab hf
    by_cases hi : i < tab.npollfd
    · obtain ⟨es, tab', he, hm, -, -⟩ := readywhile_eq (i := i) tab.npollfd tab (by omega)
      have hle := hm.npollfd
      rw [fdready_while tab.npollfd (fuel + 1) tab (by omega) hf, readyfor, if_pos hi, he, bind_assoc, bind_assoc, pure_bind,
        pure_bind, fdready_fuel tab'.npollfd fuel (i + 1) tab' (by omega) (by omega), ih (i + 1) tab' (by omega)]
    · rw [fdready, if_neg hi, readyfor, if_neg hi]

/-- `taskready` does not fail. -/
theorem readyall_ok (ts : List TaskPtr) (s : State Glob Heap) : ∃ s', (readyall ts).onHeap s = .ok ((), s') := by
  induction ts generalizing s with
  | nil => exact ⟨s, rfl⟩
  | cons t ts ih =>
    obtain ⟨s₁, h₁⟩ := taskready_onHeap t s
    obtain ⟨s', hs'⟩ := ih s₁
    refine ⟨s', ?_⟩
    rw [readyall, onHeap_bind, h₁]
    exact hs'

/-- The loop ends. It calls `taskready` once for each entry that is ready, and for no other, and the
    entries that are not stay in the table. -/
theorem sweep_ready (tab : Table) : ∃ ts tab', (readyfor tab.npollfd 0 tab = do readyall ts; pure tab') ∧
    ts.Perm ((tab.entries.filter fun e => e.1.revents ≠ 0).map Prod.snd) ∧
    tab'.entries.Perm (tab.entries.filter fun e => e.1.revents = 0) ∧
    ∀ s : State Glob Heap, ∃ s', (readyfor tab.npollfd 0 tab).onHeap s = .ok (tab', s') := by
  obtain ⟨es, tab', he, hm, hz⟩ := readyfor_eq tab.npollfd 0 tab (by omega) nofun
  obtain ⟨h1, h2⟩ := hm.split hz
  refine ⟨es.map Prod.snd, tab', he, h1.map Prod.snd, ?_, fun s => ?_⟩
  · have hneg : (fun e : Entry => !e.ready) = fun e => decide (e.1.revents = 0) := by
      funext e
      simp [Entry.ready]
    rw [← hneg]
    exact h2
  · obtain ⟨s', hs⟩ := readyall_ok (es.map Prod.snd) s
    refine ⟨s', ?_⟩
    rw [he, onHeap_bind, hs]
    rfl

end

end Libtask.Sched.Pollfd
