/-
  Libtask.Lib.Epoll — descriptors, open file descriptions, and the interest lists of epoll.

  A descriptor number names a description, and several numbers may name one. A registration is
  for an epoll instance, a description and a number: `add` makes the one for what the number
  names then, `del` removes the one for what it names at that time. Numbers are closed and used
  again; a registration goes by itself only with the last descriptor of its description.

  `Wf`: numbers name one description each, registrations are of open descriptions, and there is
  one for a key.
-/

import Mathlib.Data.List.Basic
import Mathlib.Data.List.Nodup

namespace Libtask.Lib.Epoll

variable {τ : Type}

structure Reg (τ : Type) where
  inst : Nat
  desc : Nat
  num : Nat
  data : τ
  deriving DecidableEq, Repr

structure Kernel (τ : Type) where
  /-- Numbers, and the descriptions they name. -/
  fds : List (Nat × Nat)
  regs : List (Reg τ)
  /-- Descriptions so far. -/
  descs : Nat
  deriving Repr

inductive Errno where
  | EBADF
  | EEXIST
  deriving DecidableEq, Repr

/-! ## The calls -/

def Kernel.names (k : Kernel τ) (fd : Nat) : Option Nat := k.fds.lookup fd

/-- `fd`, which is not in use, names a new description. -/
def Kernel.openfd (k : Kernel τ) (fd : Nat) : Kernel τ :=
  { k with fds := (fd, k.descs) :: k.fds, descs := k.descs + 1 }

/-- `d`, which is not in use, names what `fd` names. -/
def Kernel.dup (k : Kernel τ) (fd d : Nat) : Kernel τ :=
  match k.names fd with
  | some x => { k with fds := (d, x) :: k.fds }
  | none => k

/-- With the last descriptor of a description its registrations go. -/
def Kernel.close (k : Kernel τ) (fd : Nat) : Kernel τ :=
  let fds := k.fds.filter (·.1 ≠ fd)
  { k with fds := fds, regs := k.regs.filter fun r => fds.any fun p => fds.lookup p.1 = some r.desc }

def Kernel.add (k : Kernel τ) (inst fd : Nat) (data : τ) : Except Errno (Kernel τ × Reg τ) :=
  match k.names fd with
  | none => .error .EBADF
  | some x =>
    if k.regs.any fun r => r.inst = inst ∧ r.desc = x ∧ r.num = fd then .error .EEXIST
    else .ok ({ k with regs := ⟨inst, x, fd, data⟩ :: k.regs }, ⟨inst, x, fd, data⟩)

/-- Nothing happens when `fd` is not open, or not registered. -/
def Kernel.del (k : Kernel τ) (inst fd : Nat) : Kernel τ :=
  { k with regs := k.regs.filter fun r => ¬ (r.inst = inst ∧ k.names fd = some r.desc ∧ r.num = fd) }

/-- Some number names `x`. -/
def Kernel.Open (k : Kernel τ) (x : Nat) : Prop := ∃ fd, k.names fd = some x

/-! ## What they do -/

section
variable {k : Kernel τ} {inst fd d n x : Nat} {data : τ} {r : Reg τ}

theorem names_openfd : (k.openfd fd).names n = if n = fd then some k.descs else k.names n := by
  by_cases h : n = fd
  · subst h
    simp [Kernel.names, Kernel.openfd]
  · simp [Kernel.names, Kernel.openfd, h, List.lookup_cons, beq_eq_false_iff_ne.mpr h]

theorem names_dup (h : k.names d = none) : (k.dup fd d).names n = if n = d then k.names fd else k.names n := by
  unfold Kernel.dup
  by_cases hn : n = d
  · subst hn
    cases hfd : k.names fd with
    | none => simp [h]
    | some x => simp [Kernel.names]
  · cases hfd : k.names fd with
    | none => simp [hn]
    | some x => simp [Kernel.names, hn, List.lookup_cons, beq_eq_false_iff_ne.mpr hn]

theorem lookup_filter (xs : List (Nat × Nat)) : (xs.filter (·.1 ≠ fd)).lookup n = if n = fd then none else xs.lookup n := by
  induction xs with
  | nil => simp
  | cons p xs ih =>
    obtain ⟨a, b⟩ := p
    by_cases ha : a = fd
    · subst ha
      rw [List.filter_cons_of_neg (by simp), ih]
      by_cases hn : n = a
      · simp [hn]
      · simp [hn, List.lookup_cons, beq_eq_false_iff_ne.mpr hn]
    · rw [List.filter_cons_of_pos (by simpa using ha), List.lookup_cons, List.lookup_cons, ih]
      by_cases hn : n = fd
      · subst hn
        simp [beq_eq_false_iff_ne.mpr (Ne.symm ha)]
      · simp [hn]

theorem names_close : (k.close fd).names n = if n = fd then none else k.names n := lookup_filter k.fds

theorem open_iff : k.Open x ↔ (k.fds.any fun p => k.fds.lookup p.1 = some x) = true := by
  rw [List.any_eq_true]
  constructor
  · intro h
    obtain ⟨fd, hfd⟩ := h
    obtain ⟨as, bs, he, -⟩ := List.lookup_eq_some_iff.mp hfd
    exact ⟨(fd, x), by rw [he]; simp, decide_eq_true hfd⟩
  · intro h
    obtain ⟨p, -, hp⟩ := h
    exact ⟨p.1, of_decide_eq_true hp⟩

theorem mem_close : r ∈ (k.close fd).regs ↔ r ∈ k.regs ∧ (k.close fd).Open r.desc := by
  rw [open_iff]
  exact List.mem_filter

theorem mem_del : r ∈ (k.del inst fd).regs ↔ r ∈ k.regs ∧ ¬ (r.inst = inst ∧ k.names fd = some r.desc ∧ r.num = fd) := by
  rw [Kernel.del, List.mem_filter, decide_eq_true_eq]

/-- What `add` made, and why it could. -/
theorem add_ok {k' : Kernel τ} (h : k.add inst fd data = .ok (k', r)) : k.names fd = some r.desc ∧ r.inst = inst ∧ r.num = fd ∧
    r.data = data ∧ k' = { k with regs := r :: k.regs } ∧
    ∀ r' ∈ k.regs, ¬ (r'.inst = r.inst ∧ r'.desc = r.desc ∧ r'.num = r.num) := by
  unfold Kernel.add at h
  cases hx : k.names fd with
  | none => rw [hx] at h; cases h
  | some x =>
    simp only [hx] at h
    split at h
    · cases h
    · rename_i hany
      obtain ⟨rfl, rfl⟩ := Prod.mk.inj (Except.ok.inj h)
      refine ⟨rfl, rfl, rfl, rfl, rfl, fun r' hr' hk => hany ?_⟩
      exact List.any_eq_true.mpr ⟨r', hr', by simpa using hk⟩

/-- Only a registration with the same key is in the way. -/
theorem add_error {e : Errno} (h : k.add inst fd data = .error e) : k.names fd = none ∧ e = .EBADF ∨
    e = .EEXIST ∧ ∃ r ∈ k.regs, r.inst = inst ∧ k.names fd = some r.desc ∧ r.num = fd := by
  unfold Kernel.add at h
  cases hx : k.names fd with
  | none =>
    rw [hx] at h
    exact .inl ⟨rfl, (Except.error.inj h).symm⟩
  | some x =>
    simp only [hx] at h
    split at h
    · rename_i hany
      obtain ⟨r, hr, hk⟩ := List.any_eq_true.mp hany
      simp only [decide_eq_true_eq] at hk
      exact .inr ⟨(Except.error.inj h).symm, r, hr, hk.1, by rw [hk.2.1], hk.2.2⟩
    · cases h

/-! ## Well-formed -/

structure Wf (k : Kernel τ) : Prop where
  descs : ∀ fd x, k.names fd = some x → x < k.descs
  alive : ∀ r ∈ k.regs, k.Open r.desc
  keys : ∀ r ∈ k.regs, ∀ r' ∈ k.regs, r.inst = r'.inst → r.desc = r'.desc → r.num = r'.num → r = r'

theorem open_openfd (h : k.names fd = none) : (k.openfd fd).Open x ↔ k.Open x ∨ x = k.descs := by
  constructor
  · intro hx
    obtain ⟨n, hn⟩ := hx
    rw [names_openfd] at hn
    split at hn
    · exact .inr (Option.some.inj hn).symm
    · exact .inl ⟨n, hn⟩
  · intro hx
    rcases hx with ⟨n, hn⟩ | rfl
    · refine ⟨n, ?_⟩
      rw [names_openfd, if_neg ?_]
      · exact hn
      · intro he
        rw [he, h] at hn
        cases hn
    · exact ⟨fd, by rw [names_openfd, if_pos rfl]⟩

theorem open_dup (h : k.names d = none) : (k.dup fd d).Open x ↔ k.Open x := by
  constructor
  · intro hx
    obtain ⟨n, hn⟩ := hx
    rw [names_dup h] at hn
    split at hn
    · exact ⟨fd, hn⟩
    · exact ⟨n, hn⟩
  · intro hx
    obtain ⟨n, hn⟩ := hx
    refine ⟨n, ?_⟩
    rw [names_dup h, if_neg ?_]
    · exact hn
    · intro he
      rw [he, h] at hn
      cases hn

theorem open_close (h : (k.close fd).Open x) : k.Open x := by
  obtain ⟨n, hn⟩ := h
  rw [names_close] at hn
  split at hn
  · cases hn
  · exact ⟨n, hn⟩

theorem dup_regs : (k.dup fd d).regs = k.regs := by
  unfold Kernel.dup
  split <;> rfl

theorem dup_descs : (k.dup fd d).descs = k.descs := by
  unfold Kernel.dup
  split <;> rfl

theorem wf_openfd (h : Wf k) (hfd : k.names fd = none) : Wf (k.openfd fd) where
  descs n x hn := by
    rw [names_openfd] at hn
    show x < k.descs + 1
    split at hn
    · have := Option.some.inj hn
      omega
    · have := h.descs n x hn
      omega
  alive r hr := (open_openfd hfd).mpr (.inl (h.alive r hr))
  keys := h.keys

theorem wf_dup (h : Wf k) (hd : k.names d = none) : Wf (k.dup fd d) where
  descs n x hn := by
    rw [names_dup hd] at hn
    rw [dup_descs]
    split at hn
    · exact h.descs fd x hn
    · exact h.descs n x hn
  alive r hr := by
    rw [dup_regs] at hr
    exact (open_dup hd).mpr (h.alive r hr)
  keys := by
    rw [dup_regs]
    exact h.keys

theorem wf_close (h : Wf k) : Wf (k.close fd) where
  descs n x hn := by
    rw [names_close] at hn
    split at hn
    · cases hn
    · exact h.descs n x hn
  alive r hr := (mem_close.mp hr).2
  keys r hr r' hr' := h.keys r (mem_close.mp hr).1 r' (mem_close.mp hr').1

theorem wf_add {k' : Kernel τ} (h : Wf k) (ha : k.add inst fd data = .ok (k', r)) : Wf k' := by
  obtain ⟨hn, -, -, -, rfl, hnew⟩ := add_ok ha
  refine ⟨h.descs, fun r' hr' => ?_, fun a ha b hb h1 h2 h3 => ?_⟩
  · rcases List.mem_cons.mp hr' with rfl | hr'
    · exact ⟨fd, hn⟩
    · exact h.alive r' hr'
  · rcases List.mem_cons.mp ha with ha | ha <;> rcases List.mem_cons.mp hb with hb | hb
    · rw [ha, hb]
    · exact absurd ⟨by rw [← ha, h1], by rw [← ha, h2], by rw [← ha, h3]⟩ (hnew b hb)
    · exact absurd ⟨by rw [← hb, h1], by rw [← hb, h2], by rw [← hb, h3]⟩ (hnew a ha)
    · exact h.keys a ha b hb h1 h2 h3

theorem wf_del (h : Wf k) : Wf (k.del inst fd) where
  descs := h.descs
  alive r hr := h.alive r (mem_del.mp hr).1
  keys r hr r' hr' := h.keys r (mem_del.mp hr).1 r' (mem_del.mp hr').1

end

end Libtask.Lib.Epoll
