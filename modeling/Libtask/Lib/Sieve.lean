/-
  Libtask.Lib.Sieve — the sieve as a chain of filters.

  Filter `k` takes numbers from queue `k`, keeps the first as its prime `p` and gives those of the
  rest that `p` does not divide to queue `k + 1`. The numbers from 2 on are given to queue 0.
  However far each filter has come (`Chain`), queue `k` was given numbers that the first `k` primes
  do not divide, in order (`chain_given`), and what is first taken from it is the next prime
  (`chain_next`). With queues of `b` places no filter gets far ahead of the next (`Lag`), and the
  chain takes only so many numbers before it needs another filter (`chain_bound`).
-/

import Mathlib.Data.List.Infix
import Mathlib.Data.List.Perm.Subperm
import Mathlib.Data.Nat.PrimeFin
import Mathlib.Data.Nat.Prime.Nth

namespace Libtask.Lib.Sieve

/-- The primes below `m`, in increasing order. -/
def below (m : Nat) : List Nat := (List.range m).filter Nat.Prime

/-- The numbers of `xs` that no `p` of `ps` divides. -/
def rest (ps xs : List Nat) : List Nat := xs.filter fun n => ∀ p ∈ ps, ¬ p ∣ n

/-- What a filter passes on. -/
def sift (p : Nat) (xs : List Nat) : List Nat := xs.filter fun n => ¬ p ∣ n

/-! ## Primes -/

theorem mem_below {m p : Nat} : p ∈ below m ↔ p < m ∧ p.Prime := by simp [below]

theorem below_succ {p : Nat} (h : p.Prime) : below (p + 1) = below p ++ [p] := by simp [below, List.range_succ, h]

theorem below_eq {m n : Nat} (hmn : m ≤ n) (h : ∀ p, m ≤ p → p < n → ¬ p.Prime) : below n = below m := by
  obtain ⟨d, rfl⟩ := Nat.exists_eq_add_of_le hmn
  have hnone : ((List.range d).map (m + ·)).filter Nat.Prime = [] := by
    refine List.filter_eq_nil_iff.mpr ?_
    intro p hp
    obtain ⟨i, hi, rfl⟩ := List.mem_map.mp hp
    have hi := List.mem_range.mp hi
    simpa using h (m + i) (by omega) (by omega)
  rw [below, List.range_add, List.filter_append, hnone, List.append_nil, below]

/-- What comes first of the numbers that no prime below `m` divides is the next prime. -/
theorem next_prime {m n q : Nat} {xs : List Nat} (h : q :: xs <+: rest (below m) (List.range' 2 n)) :
    q.Prime ∧ below q = below m := by
  have hsorted : (rest (below m) (List.range' 2 n)).Pairwise (· < ·) := List.Pairwise.filter _ List.pairwise_lt_range'
  obtain ⟨ys, hys⟩ := h
  rw [← hys, List.cons_append] at hsorted
  have hq : q ∈ rest (below m) (List.range' 2 n) := by rw [← hys]; exact List.mem_cons_self
  obtain ⟨hq1, hq2⟩ := List.mem_filter.mp hq
  have hq2 : ∀ p ∈ below m, ¬ p ∣ q := of_decide_eq_true hq2
  have hq1 := List.mem_range'_1.mp hq1
  -- the numbers before `q` were crossed out
  have hout : ∀ j, 2 ≤ j → j < q → ∃ p ∈ below m, p ∣ j := by
    intro j h2 hj
    by_contra hno
    have hmem : j ∈ rest (below m) (List.range' 2 n) := by
      refine List.mem_filter.mpr ⟨List.mem_range'_1.mpr ⟨h2, by omega⟩, decide_eq_true fun p hp hd => hno ⟨p, hp, hd⟩⟩
    rw [← hys, List.cons_append] at hmem
    rcases List.mem_cons.mp hmem with rfl | hmem
    · omega
    · have := (List.pairwise_cons.mp hsorted).1 j hmem
      omega
  have hprime : q.Prime := by
    have hmin := Nat.minFac_prime (n := q) (by omega)
    rcases Nat.lt_or_ge q.minFac q with hlt | hge
    · obtain ⟨p, hp, hd⟩ := hout q.minFac hmin.two_le hlt
      exact absurd (hd.trans q.minFac_dvd) (hq2 p hp)
    · have := Nat.minFac_le (n := q) (by omega)
      rwa [Nat.le_antisymm this hge] at hmin
  refine ⟨hprime, below_eq ?_ fun p hmp hpq hp => ?_⟩
  · by_contra hlt
    exact hq2 q (mem_below.mpr ⟨by omega, hprime⟩) (Nat.dvd_refl q)
  · obtain ⟨r, hr, hd⟩ := hout p hp.two_le hpq
    obtain ⟨hr1, hr2⟩ := mem_below.mp hr
    have := (Nat.prime_dvd_prime_iff_eq hr2 hp).mp hd
    omega

/-! ## The chain -/

/-- `ps` are the primes of the filters so far, `n` numbers were given to the first queue. -/
structure Chain (n : Nat) (ps : List Nat) (gave took : Nat → List Nat) : Prop where
  first : gave 0 = List.range' 2 n
  fifo : ∀ k, took k <+: gave k
  filter : ∀ k p, ps[k]? = some p → ∃ xs, p :: xs <+: took k ∧ gave (k + 1) = sift p xs

theorem rest_sift (ps : List Nat) (p : Nat) (xs : List Nat) : rest (ps ++ [p]) xs = sift p (rest ps xs) := by
  rw [rest, sift, rest, List.filter_filter]
  refine List.filter_congr fun n _ => ?_
  simp [or_imp, forall_and, Bool.and_comm]

theorem sift_prefix {p : Nat} {xs ys : List Nat} (h : p :: xs <+: ys) : sift p xs <+: sift p ys := by
  have h' := h.filter fun n => decide ¬ p ∣ n
  rwa [List.filter_cons_of_neg (by simp)] at h'

variable {n : Nat} {ps : List Nat} {gave took : Nat → List Nat}

theorem chain_given (h : Chain n ps gave took) : ∀ k ≤ ps.length,
    ∃ m, ps.take k = below m ∧ gave k <+: rest (ps.take k) (List.range' 2 n) := by
  intro k
  induction k with
  | zero =>
    intro _
    refine ⟨0, rfl, ?_⟩
    rw [h.first, List.take_zero, rest, List.filter_eq_self.mpr (by simp)]
  | succ k ih =>
    intro hk
    obtain ⟨m, hm, hg⟩ := ih (by omega)
    have hp : ps[k]? = some ps[k] := List.getElem?_eq_getElem hk
    obtain ⟨xs, hxs, hnext⟩ := h.filter k _ hp
    have hpre := (hxs.trans (h.fifo k)).trans hg
    have htake : ps.take (k + 1) = ps.take k ++ [ps[k]] := by rw [List.take_add_one, hp]; rfl
    obtain ⟨hprime, hb⟩ := next_prime (hm ▸ hpre)
    refine ⟨ps[k] + 1, ?_, ?_⟩
    · rw [htake, below_succ hprime, hb, hm]
    · rw [hnext, htake, rest_sift]
      exact sift_prefix hpre

/-- The next filter's first number is the prime behind those of the filters before it. -/
theorem chain_next (h : Chain n ps gave took) {q : Nat} {xs : List Nat} (hq : q :: xs <+: took ps.length) :
    q.Prime ∧ ps = below q := by
  obtain ⟨m, hm, hg⟩ := chain_given h ps.length (Nat.le_refl _)
  rw [List.take_length] at hm hg
  obtain ⟨h1, h2⟩ := next_prime (hm ▸ (hq.trans (h.fifo _)).trans hg)
  exact ⟨h1, hm.trans h2.symm⟩

/-- Queues have only numbers that were given to the first. -/
theorem chain_mem (h : Chain n ps gave took) {k x : Nat} (hk : k ≤ ps.length) (hx : x ∈ gave k) : 2 ≤ x ∧ x < 2 + n := by
  obtain ⟨m, -, hg⟩ := chain_given h k hk
  have := (List.mem_filter.mp (hg.subset hx)).1
  simpa using this

/-! ## How many numbers -/

/-- A queue holds at most `b` numbers, a filter has at most one that it did not pass on, and behind the
    filters at most one was taken. -/
structure Lag (b : Nat) (ps : List Nat) (gave took : Nat → List Nat) : Prop where
  queue : ∀ k ≤ ps.length, (gave k).length ≤ (took k).length + b
  hand : ∀ k p, ps[k]? = some p → ∃ xs ys, took k = p :: (xs ++ ys) ∧ ys.length ≤ 1 ∧ sift p xs <+: gave (k + 1)
  last : (took ps.length).length ≤ 1

theorem rest_append (ps xs ys : List Nat) : rest ps (xs ++ ys) = rest ps xs ++ rest ps ys := by
  unfold rest
  exact List.filter_append _ _

theorem rest_length (ps xs : List Nat) : (rest ps xs).length ≤ xs.length := by
  unfold rest
  exact List.length_filter_le _ _

/-- Filters on the way take nothing that is not crossed out anyway. -/
theorem rest_of_sift {ps : List Nat} {p : Nat} (hp : p ∈ ps) (xs : List Nat) : rest ps (sift p xs) = rest ps xs := by
  rw [rest, sift, rest, List.filter_filter]
  refine List.filter_congr fun n _ => ?_
  have : (∀ q ∈ ps, ¬ q ∣ n) → ¬ p ∣ n := fun h => h p hp
  by_cases h : ∀ q ∈ ps, ¬ q ∣ n <;> simp_all

theorem rest_prefix (ps : List Nat) {xs ys : List Nat} (h : xs <+: ys) : (rest ps xs).length ≤ (rest ps ys).length := by
  obtain ⟨zs, rfl⟩ := h
  rw [rest_append, List.length_append]
  omega

/-- From one queue to the next, few of the numbers that no filter crosses out stay behind. -/
theorem lag_step {b k p : Nat} (h : Lag b ps gave took) (hc : Chain n ps gave took) (hp : ps[k]? = some p) :
    (rest ps (gave k)).length ≤ (rest ps (gave (k + 1))).length + (b + 1) := by
  obtain ⟨hk, hpk⟩ := List.getElem?_eq_some_iff.mp hp
  have hmem : p ∈ ps := hpk ▸ List.getElem_mem hk
  obtain ⟨xs, ys, ht, hy, hs⟩ := h.hand k p hp
  obtain ⟨zs, hz⟩ := hc.fifo k
  have hzs : zs.length ≤ b := by
    have := h.queue k (by omega)
    rw [← hz, List.length_append] at this
    omega
  -- the prime of the filter is crossed out itself
  have hself : rest ps (p :: (xs ++ ys)) = rest ps xs ++ rest ps ys := by
    rw [← rest_append, rest, List.filter_cons_of_neg]
    · rfl
    · simpa using ⟨p, hmem, Nat.dvd_refl p⟩
  have hnext : (rest ps xs).length ≤ (rest ps (gave (k + 1))).length := by
    rw [← rest_of_sift hmem xs]
    exact rest_prefix ps hs
  have h1 := rest_length ps ys
  have h2 := rest_length ps zs
  rw [← hz, ht, rest_append, hself, List.length_append, List.length_append]
  omega

theorem lag_run {b : Nat} (h : Lag b ps gave took) (hc : Chain n ps gave took) : ∀ k ≤ ps.length,
    (rest ps (gave 0)).length ≤ (rest ps (gave k)).length + k * (b + 1) := by
  intro k
  induction k with
  | zero => intro _; omega
  | succ k ih =>
    intro hk
    have hstep := lag_step h hc (List.getElem?_eq_getElem hk)
    have := ih (by omega)
    rw [Nat.succ_mul]
    omega

/-- The primes below a number are among the filters' or are not crossed out. -/
theorem below_length {m : Nat} : (below m).length = m.count Nat.Prime := by
  rw [below, ← List.countP_eq_length_filter]
  rfl

theorem count_le {m : Nat} (hps : ∀ p ∈ ps, p.Prime) :
    (m + 2).count Nat.Prime ≤ ps.length + (rest ps (List.range' 2 m)).length := by
  have hsub : below (m + 2) ⊆ ps ++ rest ps (List.range' 2 m) := by
    intro p hp
    obtain ⟨hlt, hprime⟩ := mem_below.mp hp
    rw [List.mem_append]
    by_cases hmem : p ∈ ps
    · exact .inl hmem
    · have := hprime.two_le
      refine .inr (List.mem_filter.mpr ⟨List.mem_range'_1.mpr ⟨this, by omega⟩, decide_eq_true fun q hq hd => hmem ?_⟩)
      rwa [← (Nat.prime_dvd_prime_iff_eq (hps q hq) hprime).mp hd]
  have hnodup : (below (m + 2)).Nodup := List.nodup_range.filter _
  have := (hnodup.subperm hsub).length_le
  rwa [List.length_append, below_length] at this

/-- As long as the filters are these, no more numbers go in. -/
theorem chain_bound {b : Nat} (h : Lag b ps gave took) (hc : Chain n ps gave took) :
    n + 2 ≤ Nat.nth Nat.Prime (ps.length + (ps.length + 1) * (b + 1)) := by
  refine (Nat.count_le_iff_le_nth Nat.infinite_setOfPred_prime).mp ?_
  show Nat.count Nat.Prime (n + 2) ≤ _
  obtain ⟨m, hm, -⟩ := chain_given hc ps.length (Nat.le_refl _)
  rw [List.take_length] at hm
  have hprimes : ∀ p ∈ ps, p.Prime := by
    intro p hp
    rw [hm] at hp
    exact (mem_below.mp hp).2
  have hcount := count_le (m := n) hprimes
  have hrun := lag_run h hc ps.length (Nat.le_refl _)
  have hlast := rest_length ps (gave ps.length)
  have hqueue := h.queue ps.length (Nat.le_refl _)
  have htook := h.last
  rw [hc.first] at hrun
  rw [Nat.succ_mul]
  omega

end Libtask.Lib.Sieve
