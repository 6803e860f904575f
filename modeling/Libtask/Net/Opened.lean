/-
  Libtask.Net.Opened — what announcing, dialing and accepting leave open.

  Each function, alone, has at most one descriptor. It gives it back if it succeeds, and has none if it
  fails.
-/

import Libtask.Net.Sockets

namespace Libtask.Net.Sockets

open Function (update)
open Libtask.Lib.Calls Libtask.Lib.Threads
open Libtask.Sched

section
variable {α β : Type}

theorem hooked_bind (m : Hooks.Io α) (f : α → Hooks.Io β) (addr : Sockaddr) :
    hooked addr (m >>= f) = hooked addr m >>= fun x => hooked x.2 (f x.1) := by
  show hooked addr (Code.bind m f) = Code.bind (hooked addr m) _
  induction m generalizing addr with
  | pure a => rfl
  | call o k ih =>
    show Code.bind _ _ = Code.bind (Code.bind _ _) _
    rw [Code.bind_assoc]
    exact congrArg (Code.bind _) (funext fun a => ih a.1 a.2)

end

/-! ## One descriptor -/

def nobody : Fds := fun _ => none

/-- `fd` is the only one. -/
def one (fd : Int) (s : Sock) : Fds := update nobody fd (some (.sock s))

/-- One socket at most, and no copy. -/
def Few (K : Fds) : Prop := K = nobody ∨ ∃ fd s, K = one fd s

/-- `K`, and a copy `d` of `fd`. -/
def duped (K : Fds) (d fd : Int) : Fds := update K d (some (.dup fd))

/-- `fdwait` may ask this where it has made the copy `d`. -/
def Op.Waits (d : Int) : Op → Prop
  | .epoll_ctl _ fd _ => fd = d
  | .taskdelay _ => True
  | .close fd => fd = d
  | .abort => True
  | _ => False

/-- Where `o` is asked. The descriptor in `o` is there, or is the one that was given. -/
structure Asks (given : Option Int) (o : Op) (K : Fds) : Prop where
  few : Few K ∨ ∃ K₀ d fd, Few K₀ ∧ K₀ d = none ∧ K = duped K₀ d fd ∧ o.Waits d
  names : ∀ fd, o.fd = some fd → 0 ≤ fd → K fd ≠ none ∨ given = some fd

section
variable {hosts : List UInt8 → Vector UInt8 4 → Prop} {given : Option Int} {fd : Int} {s : Sock} {K K' : Fds} {f : Sock → Option Sock}

theorem one_self : one fd s fd = some (.sock s) := Function.update_self ..

theorem one_ne_none {r : Int} (h : r = fd) : one fd s r ≠ none := by
  rw [h, one_self]
  nofun

theorem of_one {r : Int} (h : one fd s r ≠ none) : r = fd := by_contra fun hne => h (Function.update_of_ne hne ..)

theorem few_nobody : Few nobody := .inl rfl

theorem few_one : Few (one fd s) := .inr ⟨fd, s, rfl⟩

theorem asks_few {o : Op} (h : Few K) (hfd : ∀ fd, o.fd = some fd → 0 ≤ fd → K fd ≠ none ∨ given = some fd) : Asks given o K :=
  ⟨.inl h, hfd⟩

theorem asks_one {o : Op} (hfd : ∀ fd', o.fd = some fd' → fd' = fd) : Asks given o (one fd s) :=
  asks_few few_one fun fd' h _ => .inl (one_ne_none (hfd fd' h))

theorem on_change (h : (Effect.change fd f).On (one fd s) K') : ∃ s', f s = some s' ∧ K' = one fd s' := by
  obtain ⟨s₀, s', hs, hf, rfl⟩ := h
  rw [one_self] at hs
  obtain rfl := Desc.sock.inj (Option.some.inj hs)
  exact ⟨s', hf, Function.update_idem ..⟩

theorem on_closes (h : (Effect.closes fd).On (one fd s) K') : K' = nobody := by
  rw [show K' = _ from h, one, Function.update_idem]
  exact Function.update_eq_self fd nobody

theorem not_bad (h : (Effect.bad fd).On (one fd s) K') : False := by
  have hnone := h.1
  rw [one_self] at hnone
  cases hnone

/-! ### Calls of the kernel -/

/-- What changes no descriptor. -/
theorem safe_still {o : Op} {Q : Ans o → Fds → Prop} (hA : Asks given o K) (habout : ∀ r, ¬ about o r)
    (h : ∀ a e, effect hosts o a e → e = .none ∧ Q a K) : Safe (kernel hosts) (Asks given) Q (ask o) K := by
  refine ⟨hA, fun r hr => absurd hr (habout r), fun a K' ⟨e, he, hon⟩ => ?_⟩
  obtain ⟨rfl, hQ⟩ := h a e he
  obtain rfl : K' = K := hon
  exact hQ

theorem safe_gethostbyname {name : List UInt8} {Q : Option (Vector UInt8 4) → Fds → Prop} (hK : Few K)
    (h : ∀ ip, (∀ a ∈ ip, hosts name a) → Q ip K) :
    Safe (kernel hosts) (Asks given) Q (ask (Op.gethostbyname name)) K :=
  safe_still (asks_few hK nofun) (fun _ => id) fun ip _ he => ⟨he.2, h ip he.1⟩

theorem safe_socket {stream : Bool} {Q : Int → Fds → Prop} (hfail : Q (-1) nobody)
    (hok : ∀ fd, 0 ≤ fd → Q fd (one fd ⟨stream, false, none, none, .none⟩)) :
    Safe (kernel hosts) (Asks given) Q (ask (Op.socket stream)) nobody := by
  refine ⟨asks_few few_nobody nofun, nofun, fun r K' ⟨e, he, hon⟩ => ?_⟩
  rcases he with ⟨rfl, rfl⟩ | ⟨hr, rfl⟩
  · obtain rfl : K' = nobody := hon
    exact hfail
  · obtain ⟨-, rfl⟩ := hon
    exact hok r hr

theorem safe_sotype {Q : Int → Fds → Prop} (h : ∀ n, Q n (one fd s)) :
    Safe (kernel hosts) (Asks given) Q (ask (Op.sotype fd)) (one fd s) :=
  safe_still (asks_one fun _ h => (Option.some.inj h).symm) (fun _ => id) fun n _ he => ⟨he, h n⟩

theorem safe_bind_ {sa : Sockaddr} {Q : Int → Fds → Prop} (hfail : Q (-1) (one fd s)) (hok : Q 0 (one fd { s with bound := some sa })) :
    Safe (kernel hosts) (Asks given) Q (ask (Op.bind fd sa)) (one fd s) := by
  refine ⟨asks_one fun _ h => (Option.some.inj h).symm, fun r hr => one_ne_none hr, fun r K' ⟨e, he, hon⟩ => ?_⟩
  rcases he with ⟨rfl, rfl⟩ | ⟨rfl, rfl⟩
  · obtain rfl : K' = one fd s := hon
    exact hfail
  · obtain ⟨s', hs, rfl⟩ := on_change hon
    obtain rfl := Option.some.inj hs
    exact hok

theorem safe_listen {backlog : Int} {Q : Int → Fds → Prop} (h : ∀ r, r = 0 ∨ r = -1 → Q r (one fd { s with listen := some (backlog, r) })) :
    Safe (kernel hosts) (Asks given) Q (ask (Op.listen fd backlog)) (one fd s) := by
  refine ⟨asks_one fun _ h => (Option.some.inj h).symm, fun r hr => one_ne_none hr, fun r K' ⟨e, he, hon⟩ => ?_⟩
  rcases he with ⟨-, rfl⟩ | ⟨hr, rfl⟩
  · exact (not_bad hon).elim
  · obtain ⟨s', hs, rfl⟩ := on_change hon
    obtain rfl := Option.some.inj hs
    exact h r hr

theorem safe_close {Q : Int → Fds → Prop} (h : ∀ r, Q r nobody) : Safe (kernel hosts) (Asks given) Q (ask (Op.close fd)) (one fd s) := by
  refine ⟨asks_one fun _ h => (Option.some.inj h).symm, fun r hr => one_ne_none hr, fun r K' ⟨e, he, hon⟩ => ?_⟩
  obtain rfl : e = .closes fd := he
  rw [on_closes hon]
  exact h r

/-! ### fdwait -/

theorem safe_assert {b : Bool} {Q : Unit → Fds → Prop} (hA : Asks given .abort K) (h : b = true → Q () K) :
    Safe (kernel hosts) (Asks given) Q (assert b) K := by
  unfold assert
  split
  · rename_i hb
    exact h hb
  · rw [safe_bind]
    exact safe_still hA (fun _ => id) nofun

theorem safe_startfdtask {Q : Unit → Fds → Prop} (hK : Few K) (h : Q () K) :
    Safe (kernel hosts) (Asks given) Q _startfdtask K := by
  rw [_startfdtask, safe_bind]
  refine safe_still (asks_few hK nofun) (fun _ => id) fun started _ he => ⟨he, ?_⟩
  split
  · exact h
  · rw [safe_bind]
    refine safe_still (asks_few hK nofun) (fun _ => id) fun epfd _ he => ⟨he, ?_⟩
    exact safe_assert (asks_few hK nofun) fun _ => h

theorem asks_duped {o : Op} {d : Int} (hK : Few K) (hd : K d = none) (ho : o.Waits d) (hfd : ∀ r, o.fd = some r → r = d) :
    Asks given o (duped K d fd) :=
  ⟨.inr ⟨K, d, fd, hK, hd, rfl, ho⟩, fun r hr _ => .inl (by rw [hfd r hr, duped, Function.update_self]; nofun)⟩

theorem duped_closes {d : Int} (hd : K d = none) (h : (Effect.closes d).On (duped K d fd) K') : K' = K := by
  rw [show K' = _ from h, duped, Function.update_idem]
  exact Function.update_eq_self_iff.mpr hd.symm

/-- The copy is there until it has waited. -/
theorem safe_redup {rw : Char} {Q : Hooks.Outcome → Fds → Prop} (hK : Few K) (hfd : K fd ≠ none ∨ given = some fd) (h : ∀ x, Q x K) :
    Safe (kernel hosts) (Asks given) Q (redup fd rw >>= fun fd => waits fd rw true) K := by
  rw [redup, safe_bind, safe_bind]
  refine ⟨asks_few hK fun r hr _ => Option.some.inj hr ▸ hfd, nofun, fun d K' ⟨e, he, hon⟩ => ?_⟩
  rcases he with ⟨rfl, rfl⟩ | ⟨-, rfl⟩
  · -- there is none, and the assertion fails
    obtain rfl : K' = K := hon
    show Safe _ _ _ (ask (Op.epoll_ctl EPOLL_CTL_ADD (-1) rw) >>= _) _
    rw [safe_bind]
    refine safe_still (asks_few hK fun r hr h0 => ?_) (fun _ => id) fun a _ he => ⟨he.2, ?_⟩
    · obtain rfl := Option.some.inj hr
      exact absurd h0 (by decide)
    · rw [safe_bind]
      refine safe_assert (asks_few hK nofun) fun hzero => ?_
      have hneg : a.r < 0 := he.1.resolve_left (by decide)
      have hzero : a.r = 0 := of_decide_eq_true hzero
      omega
  · obtain ⟨hd, rfl⟩ := hon
    show Safe _ _ _ (ask (Op.epoll_ctl EPOLL_CTL_ADD d rw) >>= _) _
    rw [safe_bind]
    refine safe_still (asks_duped hK hd rfl fun r hr => (Option.some.inj hr).symm) (fun _ => id) fun a _ he => ⟨he.2, ?_⟩
    rw [safe_bind]
    refine safe_assert (asks_duped hK hd trivial nofun) fun _ => ?_
    show Safe _ _ _ (waits d rw true) _
    rw [waits, safe_bind]
    refine safe_still (asks_duped hK hd trivial nofun) (fun _ => id) fun x _ he => ⟨he, ?_⟩
    rw [safe_bind]
    refine safe_still (asks_duped hK hd rfl fun r hr => (Option.some.inj hr).symm) (fun _ => id) fun a _ he => ⟨he.2, ?_⟩
    rw [if_pos rfl, safe_bind]
    refine ⟨asks_duped hK hd rfl fun r hr => (Option.some.inj hr).symm, fun r hr => ?_, fun n K' ⟨e, he, hon⟩ => ?_⟩
    · obtain rfl : r = d := hr
      rw [Function.update_self]
      nofun
    · obtain rfl : e = .closes d := he
      rw [duped_closes hd hon]
      exact h x.1

theorem safe_fdwait {rw : Char} {Q : Hooks.Outcome → Fds → Prop} (hK : Few K) (hfd : K fd ≠ none ∨ given = some fd) (h : ∀ x, Q x K) :
    Safe (kernel hosts) (Asks given) Q (fdwait fd rw) K := by
  have hctl : ∀ op r, Op.fd (.epoll_ctl op fd rw) = some r → 0 ≤ r → K r ≠ none ∨ given = some r :=
    fun op r hr _ => Option.some.inj hr ▸ hfd
  rw [fdwait, safe_bind]
  refine safe_startfdtask hK ?_
  rw [safe_bind]
  refine safe_still (asks_few hK (hctl _)) (fun _ => id) fun a _ he => ⟨he.2, ?_⟩
  split
  · exact safe_redup hK hfd h
  · rw [waits, safe_bind]
    refine safe_still (asks_few hK nofun) (fun _ => id) fun x _ he => ⟨he, ?_⟩
    rw [safe_bind]
    exact safe_still (asks_few hK (hctl _)) (fun _ => id) fun a _ he => ⟨he.2, h x.1⟩

/-! ### Calls from fd.c -/

section
variable {addr : Sockaddr}

theorem safe_taskdata {data : Option Int} {Q : Int × Sockaddr → Fds → Prop} (hK : Few K) (h : ∀ x, Q (x, addr) K) :
    Safe (kernel hosts) (Asks given) Q (hooked addr (Hooks.taskdata data)) K :=
  safe_still (asks_few hK nofun) (fun _ => id) fun x _ he => ⟨he, h x⟩

theorem safe_waits {fd' : Int} {rw : Char} {Q : Hooks.Outcome × Sockaddr → Fds → Prop} (hK : Few K)
    (hfd : K fd' ≠ none ∨ given = some fd') (h : ∀ x, Q (x, addr) K) :
    Safe (kernel hosts) (Asks given) Q (hooked addr (Hooks.fdwait fd' rw)) K := by
  show Safe _ _ _ ((fdwait fd' rw >>= fun x => pure (x, addr)) >>= fun a => pure (a.1, a.2)) _
  rw [safe_bind, safe_bind]
  exact safe_fdwait hK hfd h

theorem safe_real {c : Hooks.Syscall} {Q : Hooks.Reply × Sockaddr → Fds → Prop} (hA : Asks given (.real addr c) K)
    (habout : ∀ r, about (.real addr c) r → K r ≠ none)
    (h : ∀ a addr' e K', c.Answers a → syscall addr a addr' e c → e.On K K' → Q (a, addr') K') :
    Safe (kernel hosts) (Asks given) Q (hooked addr (Hooks.real c)) K :=
  ⟨hA, habout, fun ⟨a, addr'⟩ K' ⟨e, ⟨hans, ha⟩, hon⟩ => h a addr' e K' hans ha hon⟩

/-- One that changes no descriptor, and not `addr`. -/
theorem safe_still_real {c : Hooks.Syscall} {Q : Hooks.Reply × Sockaddr → Fds → Prop} (hA : Asks given (.real addr c) K)
    (habout : ∀ r, ¬ about (.real addr c) r) (hsys : ∀ a addr' e, syscall addr a addr' e c → addr' = addr ∧ e = .none)
    (h : ∀ a, Q (a, addr) K) : Safe (kernel hosts) (Asks given) Q (hooked addr (Hooks.real c)) K := by
  refine safe_real hA (fun r hr => absurd hr (habout r)) fun a addr' e K' _ hs hon => ?_
  obtain ⟨rfl, rfl⟩ := hsys a addr' e hs
  obtain rfl : K' = K := hon
  exact h a

theorem nonblocks (x : BitVec 32) : (x ||| Hooks.O_NONBLOCK ||| Hooks.O_NONBLOCK) &&& Hooks.O_NONBLOCK ≠ 0 := by
  have hbit : ((x ||| Hooks.O_NONBLOCK ||| Hooks.O_NONBLOCK) &&& Hooks.O_NONBLOCK).getLsbD 11 = true := by
    simp [Hooks.O_NONBLOCK]
  intro h
  rw [h] at hbit
  simp at hbit

/-- The descriptor is non-blocking then. -/
theorem safe_fdnoblock {Q : Int × Sockaddr → Fds → Prop} (h : ∀ r, Q (r, addr) (one fd { s with nonblock := true })) :
    Safe (kernel hosts) (Asks given) Q (hooked addr (Hooks.fdnoblock fd)) (one fd s) := by
  have hA : ∀ {cmd : Int} {arg : BitVec 32}, Asks given (.real addr (.fcntl fd cmd arg)) (one fd s) :=
    asks_one fun _ h => (Option.some.inj h).symm
  simp only [Hooks.fdnoblock, hooked_bind, safe_bind]
  refine safe_real hA (fun r hr => one_ne_none hr) fun a addr' e K' _ hsys hon => ?_
  obtain ⟨haddr, he⟩ := hsys
  rw [if_neg (by decide)] at he
  subst he
  obtain rfl : K' = one fd s := hon
  obtain rfl : addr' = addr := haddr
  refine safe_real hA (fun r hr => one_ne_none hr) fun b addr'' e K' _ hsys hon => ?_
  obtain ⟨haddr, he⟩ := hsys
  rw [if_pos rfl] at he
  obtain rfl : addr'' = addr' := haddr
  rcases he with ⟨-, rfl⟩ | ⟨-, rfl⟩
  · exact (not_bad hon).elim
  · obtain ⟨s', hs, rfl⟩ := on_change hon
    obtain rfl := Option.some.inj hs
    have hnb := nonblocks (BitVec.ofInt 32 a.r)
    simp only [hnb, ne_eq, not_false_eq_true, decide_true]
    exact h _

theorem safe_plain {α : Type} {A : Op → Fds → Prop} {m : Hooks.Io α} {Q : α → Fds → Prop}
    (h : Safe (kernel hosts) A (fun x K => Q x.1 K) (hooked [] m) K) : Safe (kernel hosts) A Q (plain m) K := by
  rw [plain, safe_bind]
  exact h

theorem safe_setsockopt {level name value : Int} {Q : Hooks.Reply × Sockaddr → Fds → Prop} (h : ∀ a, Q (a, addr) (one fd s)) :
    Safe (kernel hosts) (Asks given) Q (hooked addr (Hooks.real (.setsockopt fd level name value))) (one fd s) :=
  safe_still_real (asks_one fun _ h => (Option.some.inj h).symm) (fun _ => id) (fun _ _ _ h => h) h

theorem safe_option {name value : Int} {Q : Unit → Fds → Prop} (h : Q () (one fd s)) :
    Safe (kernel hosts) (Asks given) Q (setsockopt fd name value) (one fd s) := by
  rw [setsockopt, safe_bind]
  exact safe_plain (safe_setsockopt fun _ => h)

theorem established_eq {p : Sockaddr} {s' : Sock} (hs : s.conn = .connected addr ∨ s.conn = .connecting addr)
    (h : s.established p = some s') : s' = { s with conn := .connected addr } := by
  unfold Sock.established at h
  split at h
  · rename_i hp
    have hpa : p = addr := by
      rcases hs with hs | hs <;> rcases hp with hp | hp
      · exact Conn.connected.inj (hp.symm.trans hs)
      · cases hp.symm.trans hs
      · cases hp.symm.trans hs
      · exact Conn.connecting.inj (hp.symm.trans hs)
    rw [← Option.some.inj h, hpa]
  · cases h

/-- `getpeername` says that it is connected. -/
theorem safe_getpeername {Q : Hooks.Reply × Sockaddr → Fds → Prop} (hs : s.conn = .connected addr ∨ s.conn = .connecting addr)
    (hfail : ∀ a, a.r < 0 → (Hooks.Syscall.getpeername fd).Answers a → Q (a, addr) (one fd s))
    (hok : ∀ a addr', 0 ≤ a.r → (Hooks.Syscall.getpeername fd).Answers a → Q (a, addr') (one fd { s with conn := .connected addr })) :
    Safe (kernel hosts) (Asks given) Q (hooked addr (Hooks.real (.getpeername fd))) (one fd s) := by
  refine safe_real (asks_one fun _ h => (Option.some.inj h).symm) (fun r hr => one_ne_none hr) fun a addr' e K' hans he hon => ?_
  rcases he with ⟨hneg, rfl, rfl⟩ | ⟨h0, p, -, rfl⟩
  · obtain rfl : K' = one fd s := hon
    exact hfail a hneg hans
  · obtain ⟨s', hp, rfl⟩ := on_change hon
    rw [established_eq hs hp]
    exact hok a addr' h0 hans

theorem int_neg {a : Hooks.Reply} (hans : a.Fails ∨ 0 ≤ a.r ∧ a.r < 2 ^ 31) : Hooks.int a.r < 0 ↔ a.r < 0 := by
  rcases hans with hf | ⟨h0, hlt⟩
  · rw [hf.1]
    decide
  · rw [Hooks.int_of_small (by omega) hlt]

/-- It connects to `addr`, or fails. -/
theorem safe_connect {Q : Hooks.Ret × Sockaddr → Fds → Prop}
    (hok : ∀ addr', Q (⟨0, none⟩, addr') (one fd { s with nonblock := true, conn := .connected addr }))
    (hfail : ∀ e addr' s', Q (⟨-1, e⟩, addr') (one fd s')) :
    Safe (kernel hosts) (Asks given) Q (calls addr (Hooks.__wrap_connect fd)) (one fd s) := by
  simp only [calls, Hooks.__wrap_connect, hooked_bind, safe_bind]
  refine safe_taskdata few_one fun _ => safe_fdnoblock fun _ => ?_
  refine safe_real (asks_one fun _ h => (Option.some.inj h).symm) (fun r hr => one_ne_none hr) fun a addr' e K' hans hsys hon => ?_
  obtain ⟨haddr, he⟩ := hsys
  obtain rfl : addr' = addr := haddr
  have hint := int_neg hans
  by_cases hgo : Hooks.int a.r < 0 ∧ a.errno ≠ Hooks.EINPROGRESS
  · -- connect failed
    rw [if_neg (by have := hint.mp hgo.1; omega), if_neg hgo.2] at he
    subst he
    obtain rfl : K' = _ := hon
    rw [if_pos hgo]
    exact hfail _ _ _
  · have hconn : ∃ c, (c = .connected addr' ∨ c = .connecting addr') ∧ K' = one fd { s with nonblock := true, conn := c } := by
      split at he
      · subst he
        obtain ⟨s', hs, rfl⟩ := on_change hon
        exact ⟨_, .inl rfl, by rw [← Option.some.inj hs]⟩
      · rename_i hneg
        have hp : a.errno = Hooks.EINPROGRESS := by_contra fun hp => hgo ⟨hint.mpr (by omega), hp⟩
        rw [if_pos hp] at he
        subst he
        obtain ⟨s', hs, rfl⟩ := on_change hon
        exact ⟨_, .inr rfl, by rw [← Option.some.inj hs]⟩
    obtain ⟨c, hc, rfl⟩ := hconn
    rw [if_neg hgo]
    simp only [hooked_bind, safe_bind]
    refine safe_waits few_one (.inl (one_ne_none rfl)) fun _ => safe_taskdata few_one fun _ => ?_
    dsimp only
    split
    · exact hfail _ _ _
    · simp only [hooked_bind, safe_bind]
      refine safe_getpeername hc (fun p hneg hans => ?_) fun p addr'' h0 hans => ?_
      · have hint : ¬ 0 ≤ Hooks.int p.r := by have := (int_neg hans).mpr hneg; omega
        rw [if_neg hint]
        simp only [hooked_bind, safe_bind]
        refine safe_still_real (asks_one fun _ h => (Option.some.inj h).symm) (fun _ => id) (fun _ _ _ h => h) fun n => ?_
        exact hfail _ _ _
      · have hint : 0 ≤ Hooks.int p.r := by have := (int_neg hans).not.mpr (by omega); omega
        rw [if_pos hint]
        exact hok addr''

/-- A connection that it accepts is non-blocking, and `addr` has its peer's address. -/
theorem safe_accept {sockfd : Int} {Q : Hooks.Ret × Sockaddr → Fds → Prop} (hfail : ∀ e, Q (⟨-1, e⟩, addr) nobody)
    (hok : ∀ cfd p, 0 ≤ cfd → IsPeer p → Q (⟨cfd, none⟩, written addr p) (one cfd ⟨true, true, none, none, .connected p⟩)) :
    Safe (kernel hosts) (Asks (some sockfd)) Q (calls addr (Hooks.__wrap_accept sockfd)) nobody := by
  simp only [calls, Hooks.__wrap_accept, hooked_bind, safe_bind]
  refine safe_waits few_nobody (.inr rfl) fun _ => ?_
  refine safe_real (asks_few few_nobody fun r hr _ => .inr hr) nofun fun a addr' e K' hans ha hon => ?_
  dsimp only
  have hint := int_neg hans
  rcases ha with ⟨hneg, rfl, rfl⟩ | ⟨h0, p, hp, rfl, rfl⟩
  · obtain rfl : K' = nobody := hon
    rw [if_pos (hint.mpr hneg)]
    exact hfail _
  · have hsmall : a.r < 2 ^ 31 := by
      rcases hans with hf | h
      · rw [hf.1]
        decide
      · exact h.2
    have hsame : Hooks.int a.r = a.r := Hooks.int_of_small (by omega) hsmall
    rw [hsame, if_neg (by omega)]
    obtain ⟨-, rfl⟩ := hon
    simp only [hooked_bind, safe_bind]
    exact safe_fdnoblock fun _ => safe_setsockopt fun _ => safe_setsockopt fun _ => hok a.r p h0 hp

/-! ### Reading and writing -/

theorem safe_writes {n : BitVec 64} {tot : BitVec 32} {Q : (BitVec 32 ⊕ Hooks.Ret) × Sockaddr → Fds → Prop} (h : ∀ x, Q (x, addr) K) :
    Safe (kernel hosts) (Asks given) Q (hooked addr (Hooks.writes n tot)) K := by
  unfold Hooks.writes
  split
  · exact h _
  · exact h _

/-- They change no descriptor. -/
theorem safe_write {n : BitVec 64} {tot : BitVec 32} {Q : (BitVec 32 ⊕ Hooks.Ret) × Sockaddr → Fds → Prop} (hK : Few K)
    (hfd : K fd ≠ none ∨ given = some fd) (h : ∀ x, Q (x, addr) K) :
    Safe (kernel hosts) (Asks given) Q (hooked addr ((Hooks.__wrap_write fd n).turn tot)) K := by
  simp only [Hooks.__wrap_write, hooked_bind, safe_bind]
  refine safe_still_real (asks_few hK fun r hr _ => Option.some.inj hr ▸ hfd) (fun _ => id) (fun _ _ _ h => h) fun a => ?_
  dsimp only
  split
  · simp only [hooked_bind, safe_bind]
    refine safe_waits hK hfd fun _ => safe_taskdata hK fun _ => ?_
    dsimp only
    split
    · exact h _
    · exact h _
  · split
    · exact h _
    · split
      · exact h _
      · exact safe_writes h

theorem safe_read {n : BitVec 64} {Q : (Unit ⊕ Hooks.Ret) × Sockaddr → Fds → Prop} (hK : Few K)
    (hfd : K fd ≠ none ∨ given = some fd) (h : ∀ x, Q (x, addr) K) :
    Safe (kernel hosts) (Asks given) Q (hooked addr ((Hooks.__wrap_read fd n).turn ())) K := by
  simp only [Hooks.__wrap_read, hooked_bind, safe_bind]
  refine safe_still_real (asks_few hK fun r hr _ => Option.some.inj hr ▸ hfd) (fun _ => id) (fun _ _ _ h => h) fun a => ?_
  dsimp only
  split
  · simp only [hooked_bind, safe_bind]
    refine safe_waits hK hfd fun _ => safe_taskdata hK fun _ => ?_
    dsimp only
    split
    · exact h _
    · exact h _
  · exact h _

end

/-! ## What the functions do alone -/

/-- The addresses that `netlookup` may give. -/
def Resolves (hosts : List UInt8 → Vector UInt8 4 → Prop) (addr : Vector UInt8 4) (name : List UInt8) (ip : Vector UInt8 4) : Prop :=
  parseip addr name = some ip ∨ parseip addr name = none ∧ hosts name ip

/-- Those that `netannounce` may bind to. -/
def Local (hosts : List UInt8 → Vector UInt8 4 → Prop) (addr : Vector UInt8 4) (server : Option (List UInt8)) (ip : Vector UInt8 4) : Prop :=
  if server = none ∨ server = some ['*'.toUInt8] then ip = INADDR_ANY else ∃ name, server = some name ∧ Resolves hosts addr name ip

/-- `fd` is the one descriptor, and its socket is non-blocking and as `P` says. -/
def Gives (fd : Int) (P : Sock → Prop) (K : Fds) : Prop := 0 ≤ fd ∧ ∃ s, K = one fd s ∧ s.nonblock = true ∧ P s

/-- `listen` was called for it if it is a stream, and may have failed. -/
def Announced (hosts : List UInt8 → Vector UInt8 4 → Prop) (addr : Vector UInt8 4) (istcp : Bool) (server : Option (List UInt8))
    (port : BitVec 32) (s : Sock) : Prop :=
  s.stream = istcp ∧ (∃ ip, Local hosts addr server ip ∧ s.bound = some (sockaddr_in ip (port.setWidth 16))) ∧
    if istcp then s.listen = some (16, 0) ∨ s.listen = some (16, -1) else s.listen = none

def Dialed (hosts : List UInt8 → Vector UInt8 4 → Prop) (addr : Vector UInt8 4) (istcp : Bool) (server : List UInt8) (port : BitVec 32)
    (s : Sock) : Prop :=
  s.stream = istcp ∧ ∃ ip, Resolves hosts addr server ip ∧ s.conn = .connected (sockaddr_in ip (port.setWidth 16))

variable {addr : Vector UInt8 4} {istcp : Bool} {port : BitVec 32}

theorem safe_netlookup {name : List UInt8} {Q : Option (Vector UInt8 4) → Fds → Prop} (hK : Few K)
    (h : ∀ ip, (∀ a ∈ ip, Resolves hosts addr name a) → Q ip K) : Safe (kernel hosts) (Asks given) Q (netlookup addr name) K := by
  unfold netlookup
  split
  · rename_i ip hip
    exact h (some ip) fun a ha => .inl (hip.trans ha)
  · rename_i hnone
    exact safe_gethostbyname hK fun ip hip => h ip fun a ha => .inr ⟨hnone, hip a ha⟩

theorem safe_sin_addr {server : Option (List UInt8)} {Q : Option (Vector UInt8 4) → Fds → Prop} (hK : Few K)
    (h : ∀ ip, (∀ a ∈ ip, Local hosts addr server a) → Q ip K) : Safe (kernel hosts) (Asks given) Q (sin_addr addr server) K := by
  cases server with
  | none =>
    refine h (some INADDR_ANY) fun a ha => ?_
    obtain rfl := Option.some.inj ha
    exact (if_pos (.inl rfl)).mpr rfl
  | some name =>
    show Safe (kernel hosts) (Asks given) Q (if name = ['*'.toUInt8] then pure (some INADDR_ANY) else netlookup addr name) K
    by_cases hstar : name = ['*'.toUInt8]
    · rw [if_pos hstar]
      refine h (some INADDR_ANY) fun a ha => ?_
      obtain rfl := Option.some.inj ha
      exact (if_pos (.inr (congrArg some hstar))).mpr rfl
    · rw [if_neg hstar]
      refine safe_netlookup hK fun ip hip => h ip fun a ha => ?_
      have hnot : ¬ (some name = none ∨ some name = some ['*'.toUInt8]) := by
        rintro (h' | h')
        · cases h'
        · exact hstar (Option.some.inj h')
      exact (if_neg hnot).mpr ⟨name, rfl, hip a ha⟩

theorem safe_reuse {Q : Unit → Fds → Prop} (h : Q () (one fd s)) : Safe (kernel hosts) (Asks given) Q (reuse istcp fd) (one fd s) := by
  unfold reuse
  split
  · rw [safe_bind]
    refine safe_sotype fun n => ?_
    split
    · exact safe_option h
    · exact h
  · exact h

theorem netdial_safe (server : List UInt8) :
    Safe (kernel hosts) (Asks given) (fun r K => r = -1 ∧ K = nobody ∨ Gives r (Dialed hosts addr istcp server port) K)
    (netdial addr istcp server port) nobody := by
  rw [netdial, safe_bind]
  refine safe_netlookup few_nobody fun ip hip => ?_
  cases ip with
  | none => exact .inl ⟨rfl, rfl⟩
  | some ip =>
    dsimp only
    rw [safe_bind]
    refine safe_socket (.inl ⟨rfl, rfl⟩) fun fd hfd => ?_
    have hneg : ¬ fd < 0 := by omega
    rw [if_neg hneg, safe_bind]
    refine safe_plain (safe_fdnoblock fun _ => ?_)
    dsimp only
    have hdialed : Safe (kernel hosts) (Asks given) (fun r K => r = -1 ∧ K = nobody ∨ Gives r (Dialed hosts addr istcp server port) K)
        (calls (sockaddr_in ip (port.setWidth 16)) (Hooks.__wrap_connect fd) >>= fun ret => if ret.1.m < 0 then do
          let _ ← ask (Op.close fd)
          pure (-1) else pure fd) (one fd ⟨istcp, true, none, none, .none⟩) := by
      rw [safe_bind]
      refine safe_connect (fun addr' => ?_) fun e addr' s' => ?_
      · exact .inr ⟨hfd, _, rfl, rfl, rfl, ip, hip ip rfl, rfl⟩
      · show Safe _ _ _ (ask (Op.close fd) >>= _) _
        rw [safe_bind]
        exact safe_close fun _ => .inl ⟨rfl, rfl⟩
    split
    · exact hdialed
    · rw [safe_bind]
      exact safe_option hdialed

theorem netannounce_safe (server : Option (List UInt8)) :
    Safe (kernel hosts) (Asks given) (fun r K => r = -1 ∧ K = nobody ∨ Gives r (Announced hosts addr istcp server port) K)
    (netannounce addr istcp server port) nobody := by
  rw [netannounce, safe_bind]
  refine safe_sin_addr few_nobody fun ip hip => ?_
  cases ip with
  | none => exact .inl ⟨rfl, rfl⟩
  | some ip =>
    dsimp only
    rw [safe_bind]
    refine safe_socket (.inl ⟨rfl, rfl⟩) fun fd hfd => ?_
    have hneg : ¬ fd < 0 := by omega
    rw [if_neg hneg, safe_bind]
    refine safe_reuse ?_
    rw [safe_bind]
    refine safe_bind_ ?_ ?_
    · show Safe _ _ _ (ask (Op.close fd) >>= _) _
      rw [safe_bind]
      exact safe_close fun _ => .inl ⟨rfl, rfl⟩
    · have hlast : ∀ l, (if istcp then l = some (16, 0) ∨ l = some (16, -1) else l = none) →
          Safe (kernel hosts) (Asks given) (fun r K => r = -1 ∧ K = nobody ∨ Gives r (Announced hosts addr istcp server port) K)
          (plain (Hooks.fdnoblock fd) >>= fun _ => pure fd)
          (one fd ⟨istcp, false, some (sockaddr_in ip (port.setWidth 16)), l, .none⟩) := by
        intro l hl
        rw [safe_bind]
        exact safe_plain (safe_fdnoblock fun _ => .inr ⟨hfd, _, rfl, rfl, rfl, ⟨ip, hip ip rfl, rfl⟩, hl⟩)
      show Safe _ _ _ (if istcp = true then ask (Op.listen fd 16) >>= _ else _) _
      split
      · rename_i htcp
        rw [safe_bind]
        refine safe_listen fun r hr => hlast _ ?_
        rw [if_pos htcp]
        rcases hr with rfl | rfl
        · exact .inl rfl
        · exact .inr rfl
      · rename_i htcp
        exact hlast none ((if_neg htcp).mpr rfl)

/-! ### Accepting -/

theorem ntohs_htons (port : BitVec 16) : ntohs (htons port) = port.toNat := by
  have hlt := port.isLt
  show ((port >>> 8).setWidth 8).toNat * 256 + (port.setWidth 8).toNat = port.toNat
  rw [BitVec.toNat_setWidth, BitVec.toNat_setWidth, BitVec.toNat_ushiftRight, Nat.shiftRight_eq_div_pow]
  omega

/-- What `netaccept6` says about the peer. Of an IPv4 address it formats the zeros behind it and what was on the stack. -/
def Reports (inet_ntop : List UInt8 → List UInt8) (clientaddr : Vector UInt8 28) (remote_address remote_port : Bool) (r : Accepted)
    (p : Sockaddr) : Prop :=
  (∃ ip port, p = sockaddr_in ip port ∧ r.remote_port = (if remote_port then some port.toNat else none) ∧
    r.remote_address = if remote_address then some (inet_ntop (List.replicate 8 0 ++ (clientaddr.toList.drop 16).take 8)) else none) ∨
  ∃ addr port flowinfo scope, p = sockaddr_in6 addr port flowinfo scope ∧
    r.remote_port = (if remote_port then some port.toNat else none) ∧
    r.remote_address = if remote_address then some (inet_ntop addr.toList) else none

/-- The bytes of the address and of the port. -/
theorem accepted_in (ip : Vector UInt8 4) (port : BitVec 16) (rest : List UInt8) :
    ((sockaddr_in ip port ++ rest).drop 8).take 16 = List.replicate 8 0 ++ rest.take 8 ∧
      ((sockaddr_in ip port ++ rest).drop 2).take 2 = htons port := by
  have hip : ip.toList.length = 4 := Vector.length_toList ..
  constructor
  · have hpre : (AF_INET ++ htons port ++ ip.toList).length = 8 := by
      rw [List.length_append, hip]
      rfl
    rw [sockaddr_in, List.append_assoc, List.drop_left' hpre, List.take_append, List.length_replicate]
    rfl
  · rw [sockaddr_in, List.append_assoc, List.append_assoc, List.append_assoc]
    rfl

theorem accepted_in6 (addr : Vector UInt8 16) (port : BitVec 16) (flowinfo scope : Vector UInt8 4) (rest : List UInt8) :
    ((sockaddr_in6 addr port flowinfo scope ++ rest).drop 8).take 16 = addr.toList ∧
      ((sockaddr_in6 addr port flowinfo scope ++ rest).drop 2).take 2 = htons port := by
  have haddr : addr.toList.length = 16 := Vector.length_toList ..
  have hflow : flowinfo.toList.length = 4 := Vector.length_toList ..
  constructor
  · have hpre : (AF_INET6 ++ htons port ++ flowinfo.toList).length = 8 := by
      rw [List.length_append, hflow]
      rfl
    rw [sockaddr_in6, List.append_assoc, List.append_assoc, List.drop_left' hpre, List.take_left' haddr]
  · rw [sockaddr_in6, List.append_assoc, List.append_assoc, List.append_assoc, List.append_assoc]
    rfl

theorem written_fits {addr p : Sockaddr} (h : p.length ≤ addr.length) : written addr p = p ++ addr.drop p.length := by
  rw [written, List.take_of_length_le h]

theorem netaccept6_safe (inet_ntop : List UInt8 → List UInt8) (clientaddr : Vector UInt8 28) (sockfd : Int)
    (remote_address remote_port : Bool) :
    Safe (kernel hosts) (Asks (some sockfd)) (fun r K => r = ⟨-1, none, none⟩ ∧ K = nobody ∨ Gives r.cfd (fun s =>
      s.stream = true ∧ ∃ p, s.conn = .connected p ∧ Reports inet_ntop clientaddr remote_address remote_port r p) K)
      (netaccept6 inet_ntop clientaddr sockfd remote_address remote_port) nobody := by
  have hlen : clientaddr.toList.length = 28 := Vector.length_toList ..
  rw [netaccept6, safe_bind]
  refine safe_accept (fun e => .inl ⟨rfl, rfl⟩) fun cfd p hcfd hp => ?_
  have hneg : ¬ cfd < 0 := by omega
  rw [if_neg hneg]
  refine .inr ⟨hcfd, _, rfl, rfl, rfl, p, rfl, ?_⟩
  dsimp only
  rcases hp with ⟨ip, port, rfl⟩ | ⟨addr, port, flowinfo, scope, rfl⟩
  · have hp : (sockaddr_in ip port).length = 16 := by
      rw [sockaddr_in, List.length_append, List.length_append, Vector.length_toList]
      rfl
    rw [written_fits (by omega), hp]
    obtain ⟨haddr, hport⟩ := accepted_in ip port (clientaddr.toList.drop 16)
    refine .inl ⟨ip, port, rfl, ?_, ?_⟩
    · rw [hport, ntohs_htons]
    · rw [haddr]
  · have hp : (sockaddr_in6 addr port flowinfo scope).length = 28 := by
      rw [sockaddr_in6, List.length_append, List.length_append, List.length_append, Vector.length_toList, Vector.length_toList,
        Vector.length_toList]
      rfl
    rw [written_fits (by omega), hp]
    obtain ⟨haddr, hport⟩ := accepted_in6 addr port flowinfo scope (clientaddr.toList.drop 28)
    refine .inr ⟨addr, port, flowinfo, scope, rfl, ?_, ?_⟩
    · rw [hport, ntohs_htons]
    · rw [haddr]

end

end Libtask.Net.Sockets
