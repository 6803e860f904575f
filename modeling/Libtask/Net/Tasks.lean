/-
  Libtask.Net.Tasks — any number of tasks that announce, dial, accept and load pages (net.c, httpload.c).

  A task is in a call while it sleeps there, and others go on. No socket is lost and none is shared
  (`opened`): what a call opened and has not closed is one socket at most, and in `fdwait` a copy of
  a descriptor, nobody else's. The socket is given back when the call succeeds, and closed when it
  fails. It is then announced, or connected, as was asked, or is of the peer that is reported
  (`as_asked`). A `fetchtask` has a connection to its server while it writes and reads (`fetches`).
-/

import Libtask.Net.Opened

namespace Libtask.Net.Sockets

open Libtask.Lib.Calls Libtask.Lib.Threads
open Libtask.Sched

/-! ## The calls -/

inductive Req where
  | netannounce (addr : Vector UInt8 4) (istcp : Bool) (server : Option (List UInt8)) (port : BitVec 32)
  | netdial (addr : Vector UInt8 4) (istcp : Bool) (server : List UInt8) (port : BitVec 32)
  | netaccept6 (clientaddr : Vector UInt8 28) (fd : Int) (remote_address remote_port : Bool)
  | fetchtask (addr : Vector UInt8 4) (server url : List UInt8)

def Req.Vars : Req → Type
  | .fetchtask _ _ _ => Fetch
  | _ => Empty

def Req.Ret : Req → Type
  | .netaccept6 _ _ _ _ => Accepted
  | .fetchtask _ _ _ => Empty
  | _ => Int

/-- A function without a loop. -/
def once {β : Type} (m : Io β) : Fn Op Ans Empty β where
  enter := do
    let b ← m
    pure (.inr b)
  turn := nofun

def Req.fn (inet_ntop : List UInt8 → List UInt8) : (q : Req) → Fn Op Ans q.Vars q.Ret
  | .netannounce addr istcp server port => once (Sockets.netannounce addr istcp server port)
  | .netdial addr istcp server port => once (Sockets.netdial addr istcp server port)
  | .netaccept6 clientaddr fd remote_address remote_port => once (Sockets.netaccept6 inet_ntop clientaddr fd remote_address remote_port)
  | .fetchtask addr server url => Sockets.fetchtask addr server url

/-- The descriptor in what is returned. -/
def Req.fd : (q : Req) → q.Ret → Int
  | .netannounce _ _ _ _, r => r
  | .netdial _ _ _ _, r => r
  | .netaccept6 _ _ _ _, r => r.cfd
  | .fetchtask _ _ _, r => nomatch r

/-- The descriptor that a call did not open: `netaccept6`'s, and standard output. -/
def Req.given : Req → Option Int
  | .netaccept6 _ fd _ _ => some fd
  | .fetchtask _ _ _ => some 1
  | _ => none

section
variable (hosts : List UInt8 → Vector UInt8 4 → Prop) (inet_ntop : List UInt8 → List UInt8)

/-- What a call that succeeded opened. -/
def Req.Opened : (q : Req) → q.Ret → Sock → Prop
  | .netannounce addr istcp server port, _, s => Announced hosts addr istcp server port s
  | .netdial addr istcp server port, _, s => Dialed hosts addr istcp server port s
  | .netaccept6 clientaddr _ remote_address remote_port, r, s =>
    s.stream = true ∧ ∃ p, s.conn = .connected p ∧ Reports inet_ntop clientaddr remote_address remote_port r p
  | .fetchtask _ _ _, r, _ => nomatch r

def Req.Spec (q : Req) (r : q.Ret) (K : Fds) : Prop := q.fd r = -1 ∧ K = nobody ∨ Gives (q.fd r) (q.Opened hosts inet_ntop r) K

/-- The connection on which it writes and reads. -/
def Fetch.conn : Fetch → Option Int
  | .write fd => some fd
  | .writing fd _ => some fd
  | .read fd => some fd
  | .reading fd => some fd
  | _ => none

def Fetch.Inv (addr : Vector UInt8 4) (server : List UInt8) (K : Fds) (v : Fetch) : Prop :=
  match v.conn with
  | some fd => Gives fd (Dialed hosts addr true server 80) K
  | none => K = nobody

def Req.Inv : (q : Req) → q.Vars → Fds → Prop
  | .fetchtask addr server _, v, K => Fetch.Inv hosts addr server K v
  | .netannounce _ _ _ _, v, _ => nomatch v
  | .netdial _ _ _ _, v, _ => nomatch v
  | .netaccept6 _ _ _ _, v, _ => nomatch v

end

section
variable {hosts : List UInt8 → Vector UInt8 4 → Prop} {inet_ntop : List UInt8 → List UInt8} {fd : Int} {K : Fds} {P : Sock → Prop}

theorem Gives.few (h : Gives fd P K) : Few K := by
  obtain ⟨-, s, rfl, -⟩ := h
  exact few_one

theorem Gives.there (h : Gives fd P K) : K fd ≠ none := by
  obtain ⟨-, s, rfl, -⟩ := h
  exact one_ne_none rfl

theorem spec_few {q : Req} {r : q.Ret} (h : q.Spec hosts inet_ntop r K) : Few K := by
  rcases h with ⟨-, rfl⟩ | h
  · exact few_nobody
  · exact h.few

theorem once_right {β : Type} {A : Op → Fds → Prop} {m : Io β} {Q : β → Fds → Prop} {I : Empty → Fds → Prop}
    (h : Safe (kernel hosts) A Q m nobody) : Right (kernel hosts) A (once m) I Q := by
  refine ⟨?_, nofun⟩
  rw [once, safe_bind]
  exact h

/-! ## fetchtask -/

variable {addr : Vector UInt8 4} {server url : List UInt8}

theorem safe_inside {W : Type} {m : Hooks.Io (W ⊕ Hooks.Ret)} {loop : W → Fetch} {done : Hooks.Ret → Io Fetch}
    {A : Op → Fds → Prop} {Q : Fetch ⊕ Empty → Fds → Prop} (h : Safe (kernel hosts) A (fun x K => match x.1 with
      | .inl v => Q (.inl (loop v)) K
      | .inr r => Safe (kernel hosts) A (fun f K => Q (.inl f) K) (done r) K) (hooked [] m) K) :
    Safe (kernel hosts) A Q (inside m loop done) K := by
  rw [inside, safe_bind]
  refine safe_plain (h.mono fun x K hx => ?_)
  cases hx' : x.1 with
  | inl v =>
    rw [hx'] at hx
    exact hx
  | inr r =>
    rw [hx'] at hx
    rw [safe_bind]
    exact hx

theorem fetch_few {v : Fetch} (h : Fetch.Inv hosts addr server K v) : Few K := by
  unfold Fetch.Inv at h
  cases hc : v.conn with
  | some fd =>
    rw [hc] at h
    exact h.few
  | none =>
    rw [hc] at h
    exact .inl h

theorem got_safe {given : Option Int} (r : Hooks.Ret) (hK : Gives fd (Dialed hosts addr true server 80) K) :
    Safe (kernel hosts) (Asks given) (fun f K => Fetch.Inv hosts addr server K f) (got fd r) K := by
  unfold got
  split
  · exact hK
  · obtain ⟨-, s, rfl, -⟩ := hK
    rw [safe_bind]
    exact safe_close fun _ => rfl

theorem fetchtask_right (addr : Vector UInt8 4) (server url : List UInt8) {Q : Empty → Fds → Prop} :
    Right (kernel hosts) (Asks (some 1)) (fetchtask addr server url) (fun v K => Fetch.Inv hosts addr server K v) Q := by
  refine ⟨rfl, fun v K hv => ?_⟩
  cases v with
  | dial =>
    obtain rfl : K = nobody := hv
    show Safe _ _ _ (netdial addr true server 80 >>= _) _
    rw [safe_bind]
    refine (netdial_safe server).mono fun r K hr => ?_
    rcases hr with ⟨rfl, rfl⟩ | hr
    · exact rfl
    · have hneg : ¬ r < 0 := by have := hr.1; omega
      rw [if_neg hneg]
      exact hr
  | write fd =>
    refine safe_inside ?_
    rw [sending, Hooks.__wrap_write, hooked_bind, safe_bind]
    refine safe_taskdata hv.few fun _ => safe_writes fun x => ?_
    cases x with
    | inl tot => exact hv
    | inr r => exact hv
  | writing fd tot =>
    refine safe_inside (safe_write hv.few (.inl hv.there) fun x => ?_)
    cases x with
    | inl tot => exact hv
    | inr r => exact hv
  | read fd =>
    refine safe_inside ?_
    rw [Hooks.__wrap_read, hooked_bind, safe_bind]
    exact safe_taskdata hv.few fun _ => hv
  | reading fd =>
    refine safe_inside (safe_read hv.few (.inl hv.there) fun x => ?_)
    cases x with
    | inl _ => exact hv
    | inr r => exact got_safe r hv
  | print =>
    refine safe_inside ?_
    rw [Hooks.__wrap_write, hooked_bind, safe_bind]
    refine safe_taskdata (fetch_few hv) fun _ => safe_writes fun x => ?_
    cases x with
    | inl tot => exact hv
    | inr r => exact hv
  | printing tot =>
    refine safe_inside (safe_write (fetch_few hv) (.inr rfl) fun x => ?_)
    cases x with
    | inl tot => exact hv
    | inr r => exact hv

/-- Where call `q` asks what. -/
def Req.Asks (q : Req) : Op → Fds → Prop := Sockets.Asks q.given

theorem req_right (q : Req) : Right (kernel hosts) q.Asks (q.fn inet_ntop) (q.Inv hosts) (q.Spec hosts inet_ntop) := by
  cases q with
  | netannounce addr istcp server port => exact once_right (netannounce_safe server)
  | netdial addr istcp server port => exact once_right (netdial_safe server)
  | netaccept6 clientaddr fd remote_address remote_port =>
    refine once_right ((netaccept6_safe inet_ntop clientaddr fd remote_address remote_port).mono fun r K h => ?_)
    exact h.imp (fun h => ⟨congrArg Accepted.cfd h.1, h.2⟩) id
  | fetchtask addr server url => exact fetchtask_right addr server url

theorem inv_few {q : Req} {v : q.Vars} (h : q.Inv hosts v K) : Few K := by
  cases q with
  | fetchtask addr server url => exact fetch_few h
  | netannounce addr istcp server port => exact v.elim
  | netdial addr istcp server port => exact v.elim
  | netaccept6 clientaddr fd remote_address remote_port => exact v.elim

/-! ## Runs -/

variable {N : Type} [DecidableEq N]

abbrev Tasks (N : Type) := Lib.Threads.Sys Op Ans Int Desc Req.Vars Req.Ret N

/-- It is as if each were alone. -/
theorem run_inv {x : Tasks N} (h : Run (kernel hosts) (Req.fn inet_ntop) x) :
    Lib.Threads.Inv (kernel hosts) Req.Asks (Req.Inv hosts) (Req.Spec hosts inet_ntop) x := h.inv req_right

end

section
variable {hosts : List UInt8 → Vector UInt8 4 → Prop} {inet_ntop : List UInt8 → List UInt8} {N : Type} [DecidableEq N] {x : Tasks N}

/-- A call has one socket at most, and in `fdwait` a copy, which no other has. It asks about these and
    the descriptor it was given. It gives the socket back if it succeeds, and has closed it if it fails. -/
theorem opened (h : Run (kernel hosts) (Req.fn inet_ntop) x) :
    (∀ i j t u fd, x.thread i = some t → x.thread j = some u → t.own fd = true → u.own fd = true → i = j) ∧
    (∀ i t, x.thread i = some t → (∀ fd, t.own fd = true → x.store fd ≠ none) ∧ (Few (part x.store t.own) ∨
      ∃ K d fd o c, Few K ∧ K d = none ∧ part x.store t.own = duped K d fd ∧ t.next (Req.fn inet_ntop) = .call o c ∧ o.Waits d)) ∧
    (∀ i t o c fd, x.thread i = some t → t.next (Req.fn inet_ntop) = .call o c → o.fd = some fd → 0 ≤ fd →
      t.own fd = true ∨ t.q.given = some fd) ∧
    ∀ i t r, x.thread i = some t → t.next (Req.fn inet_ntop) = .pure (.inr r) →
      t.q.fd r = -1 ∧ (∀ fd, t.own fd = false) ∨ 0 ≤ t.q.fd r ∧ ∀ fd, t.own fd = true ↔ fd = t.q.fd r := by
  have hinv := run_inv h
  refine ⟨hinv.apart, fun i t hi => ⟨fun fd hfd => hinv.there i t fd hi hfd, ?_⟩, fun i t o c fd hi hn hfd h0 => ?_, fun i t r hi hn => ?_⟩
  · have hs := hinv.next req_right hi
    cases hn : t.next (Req.fn inet_ntop) with
    | pure y =>
      rw [hn] at hs
      cases y with
      | inl v => exact .inl (inv_few hs)
      | inr r => exact .inl (spec_few hs)
    | call o c =>
      refine (hinv.asks req_right hi hn).few.imp id ?_
      rintro ⟨K, d, fd, hK, hd, he, ho⟩
      exact ⟨K, d, fd, o, c, hK, hd, he, rfl, ho⟩
  · exact ((hinv.asks req_right hi hn).names fd hfd h0).imp (fun hp => (part_ne_none.mp hp).1) id
  · have hown := hinv.own_iff hi
    rcases hinv.returns req_right hi hn with ⟨hr, hnone⟩ | ⟨h0, s, hone, -⟩
    · refine .inl ⟨hr, fun fd => Bool.eq_false_iff.mpr fun ho => ?_⟩
      exact (hown fd).mp ho (congrFun hnone fd)
    · refine .inr ⟨h0, fun fd => ?_⟩
      rw [hown, hone]
      exact ⟨of_one, one_ne_none⟩

/-- What a call that succeeds gives back is non-blocking, and as was asked. -/
theorem as_asked (h : Run (kernel hosts) (Req.fn inet_ntop) x) {i : N} {t : Thread Op Ans Int Req.Vars Req.Ret} {r : t.q.Ret}
    (hi : x.thread i = some t) (hn : t.next (Req.fn inet_ntop) = .pure (.inr r)) (hr : t.q.fd r ≠ -1) :
    ∃ s, x.store (t.q.fd r) = some (.sock s) ∧ s.nonblock = true ∧ t.q.Opened hosts inet_ntop r s := by
  rcases (run_inv h).returns req_right hi hn with ⟨hfail, -⟩ | ⟨-, s, hone, hs⟩
  · exact absurd hfail hr
  · have hpart : part x.store t.own (t.q.fd r) = some (.sock s) := by rw [hone, one_self]
    have hown : t.own (t.q.fd r) = true := (part_ne_none.mp (by rw [hpart]; nofun)).1
    exact ⟨s, (part_own hown).symm.trans hpart, hs⟩

/-- `fetchtask` writes to and reads from a connection to port 80 of the server, its one descriptor, and has none while it dials. -/
theorem fetches (h : Run (kernel hosts) (Req.fn inet_ntop) x) {i : N} {addr : Vector UInt8 4} {server url : List UInt8} {v : Fetch}
    {own : Int → Bool} (hi : x.thread i = some ⟨.fetchtask addr server url, .pure (.inl v), own⟩) :
    match v.conn with
    | some fd => (∀ fd', own fd' = true ↔ fd' = fd) ∧
        ∃ s, x.store fd = some (.sock s) ∧ s.nonblock = true ∧ Dialed hosts addr true server 80 s
    | none => ∀ fd, own fd = false := by
  have hinv := run_inv h
  have hv : Fetch.Inv hosts addr server (part x.store own) v := hinv.safe i _ hi
  have hown : ∀ fd, own fd = true ↔ part x.store own fd ≠ none := hinv.own_iff hi
  unfold Fetch.Inv at hv
  cases hc : v.conn with
  | some fd =>
    rw [hc] at hv
    obtain ⟨-, s, hone, hs⟩ := hv
    refine ⟨fun fd' => ?_, s, ?_, hs⟩
    · rw [hown, hone]
      exact ⟨of_one, one_ne_none⟩
    · have ho : own fd = true := (hown fd).mpr (by rw [hone]; exact one_ne_none rfl)
      exact (part_own ho).symm.trans (by rw [hone, one_self])
  | none =>
    rw [hc] at hv
    exact fun fd => Bool.eq_false_iff.mpr fun ho => (hown fd).mp ho (congrFun hv fd)

end

/-! ### Two tasks -/

def Effect.can (K : Fds) : Effect → Bool
  | .none => true
  | .bad fd => (K fd).isNone
  | .change fd f => match K fd with
    | some (.sock s) => (f s).isSome
    | _ => false
  | .opens fd _ => (K fd).isNone
  | .closes _ => true

def Effect.apply (K : Fds) : Effect → Fds
  | .change fd f => match K fd with
    | some (.sock s) => Function.update K fd ((f s).map .sock)
    | _ => K
  | .opens fd v => Function.update K fd (some v)
  | .closes fd => Function.update K fd Option.none
  | _ => K

theorem Effect.on_apply {K : Fds} {e : Effect} (h : e.can K = true) : e.On K (e.apply K) := by
  cases e with
  | none => rfl
  | bad fd => exact ⟨Option.isNone_iff_eq_none.mp h, rfl⟩
  | change fd f =>
    simp only [can] at h
    split at h
    · rename_i s hs
      obtain ⟨s', hs'⟩ := Option.isSome_iff_exists.mp h
      refine ⟨s, s', hs, hs', ?_⟩
      simp only [apply, hs, hs']
      rfl
    · cases h
  | opens fd v => exact ⟨Option.isNone_iff_eq_none.mp h, rfl⟩
  | closes fd => rfl

/-- Nothing fails, but `getsockopt`, `read` and `write`. A new socket is at `fd`, and no descriptor is registered yet. -/
def succeeds (fd : Int) : (o : Op) → Option (Ans o × Effect)
  | .gethostbyname _ => some (some #v[10, 0, 0, 1], .none)
  | .socket stream => some (fd, .opens fd (.sock ⟨stream, false, none, none, .none⟩))
  | .sotype _ => some (-1, .none)
  | .bind fd sa => some (0, .change fd fun s => some { s with bound := some sa })
  | .listen fd backlog => some (0, .change fd fun s => some { s with listen := some (backlog, 0) })
  | .close fd => some (0, .closes fd)
  | .dup _ => none
  | .epoll_create => none
  | .epoll_ctl _ fd _ => some (if 0 ≤ fd then ⟨0, 0⟩ else ⟨-1, 9⟩, .none)
  | .startedfdtask => some (true, .none)
  | .taskdata _ => some (0, .none)
  | .taskdelay ms => some ((.event, ms), .none)
  | .real addr (.fcntl fd cmd arg) => some ((⟨0, 0⟩, addr), if cmd = Hooks.F_SETFL then
      .change fd fun s => some { s with nonblock := arg &&& Hooks.O_NONBLOCK ≠ 0 } else .none)
  | .real addr (.connect fd) => some ((⟨-1, Hooks.EINPROGRESS⟩, addr), .change fd fun s => some { s with conn := .connecting addr })
  | .real addr (.accept _) => some ((⟨fd, 0⟩, written addr (sockaddr_in #v[10, 0, 0, 2] 9)),
      .opens fd (.sock ⟨true, false, none, none, .connected (sockaddr_in #v[10, 0, 0, 2] 9)⟩))
  | .real addr (.getpeername fd) => some ((⟨0, 0⟩, written addr addr), .change fd (Sock.established addr))
  | .real addr (.read _ _) => some ((⟨-1, 4⟩, addr), .none)
  | .real addr (.write _ _ _) => some ((⟨-1, 4⟩, addr), .none)
  | .real addr _ => some ((⟨0, 0⟩, addr), .none)
  | .abort => none

theorem succeeds_effect {hosts : List UInt8 → Vector UInt8 4 → Prop} (hhosts : ∀ name, hosts name #v[10, 0, 0, 1]) {fd : Int}
    (hfd : 0 ≤ fd) (hlt : fd < 2 ^ 31) (o : Op) : ∀ x ∈ succeeds fd o, effect hosts o x.1 x.2 := by
  have hzero : (0 : Int) < 2 ^ 31 := by decide
  intro x hx
  cases o with
  | gethostbyname name =>
    obtain rfl := Option.some.inj hx
    refine ⟨fun a ha => ?_, rfl⟩
    obtain rfl := Option.some.inj ha
    exact hhosts name
  | socket stream =>
    obtain rfl := Option.some.inj hx
    exact .inr ⟨hfd, rfl⟩
  | sotype fd =>
    obtain rfl := Option.some.inj hx
    rfl
  | bind fd sa =>
    obtain rfl := Option.some.inj hx
    exact .inr ⟨rfl, rfl⟩
  | listen fd backlog =>
    obtain rfl := Option.some.inj hx
    exact .inr ⟨.inl rfl, rfl⟩
  | close fd =>
    obtain rfl := Option.some.inj hx
    rfl
  | dup fd => cases hx
  | epoll_create => cases hx
  | epoll_ctl op fd rw =>
    obtain rfl := Option.some.inj hx
    refine ⟨?_, rfl⟩
    split
    · rename_i h0
      exact .inl h0
    · exact .inr (by decide : (-1 : Int) < 0)
  | startedfdtask =>
    obtain rfl := Option.some.inj hx
    rfl
  | taskdata data =>
    obtain rfl := Option.some.inj hx
    rfl
  | taskdelay ms =>
    obtain rfl := Option.some.inj hx
    rfl
  | abort => cases hx
  | real addr c =>
    cases c with
    | read fd n =>
      obtain rfl := Option.some.inj hx
      exact ⟨.inl ⟨rfl, (by decide : (0 : Int) < 4)⟩, rfl, rfl⟩
    | write fd off n =>
      obtain rfl := Option.some.inj hx
      exact ⟨.inl ⟨rfl, (by decide : (0 : Int) < 4)⟩, rfl, rfl⟩
    | accept sockfd =>
      obtain rfl := Option.some.inj hx
      exact ⟨.inr ⟨hfd, hlt⟩, .inr ⟨hfd, _, .inl ⟨_, _, rfl⟩, rfl, rfl⟩⟩
    | connect fd =>
      obtain rfl := Option.some.inj hx
      exact ⟨.inl ⟨rfl, (by decide : (0 : Int) < 115)⟩, rfl, rfl⟩
    | getpeername fd =>
      obtain rfl := Option.some.inj hx
      exact ⟨.inr ⟨Int.le_refl 0, hzero⟩, .inr ⟨Int.le_refl 0, _, rfl, rfl⟩⟩
    | soerror fd =>
      obtain rfl := Option.some.inj hx
      exact ⟨trivial, rfl, rfl⟩
    | setsockopt fd level name value =>
      obtain rfl := Option.some.inj hx
      exact ⟨.inr ⟨Int.le_refl 0, hzero⟩, rfl, rfl⟩
    | fcntl fd cmd arg =>
      obtain rfl := Option.some.inj hx
      refine ⟨.inr ⟨Int.le_refl 0, hzero⟩, rfl, ?_⟩
      by_cases hc : cmd = Hooks.F_SETFL
      · rw [if_pos hc]
        exact .inr ⟨Int.le_refl 0, if_pos hc⟩
      · rw [if_neg hc]
        exact if_neg hc

section
variable {N : Type} [DecidableEq N]

/-- `n` requests of `i` in a row. -/
def play (inet_ntop : List UInt8 → List UInt8) (i : N) (fd : Int) : Nat → Tasks N → Tasks N
  | 0, x => x
  | n + 1, x =>
    match x.thread i with
    | none => x
    | some t => match t.next (Req.fn inet_ntop) with
      | .pure _ => x
      | .call o c => match succeeds fd o with
        | none => x
        | some (a, e) =>
          if e.can x.store then
            play inet_ntop i fd n ⟨e.apply x.store, Function.update x.thread i (some ⟨t.q, c a, after t.own x.store (e.apply x.store)⟩)⟩
          else x

variable {hosts : List UInt8 → Vector UInt8 4 → Prop} {inet_ntop : List UInt8 → List UInt8} {i : N} {fd : Int}

theorem play_run (hhosts : ∀ name, hosts name #v[10, 0, 0, 1]) (hfd : 0 ≤ fd) (hlt : fd < 2 ^ 31) : ∀ (n : Nat) {x : Tasks N},
    Run (kernel hosts) (Req.fn inet_ntop) x → Run (kernel hosts) (Req.fn inet_ntop) (play inet_ntop i fd n x) := by
  intro n
  induction n with
  | zero => exact fun h => h
  | succ n ih =>
    intro x h
    unfold play
    split
    · exact h
    · rename_i t hi
      split
      · exact h
      · rename_i o c hn
        split
        · exact h
        · rename_i a e ha
          split
          · rename_i hcan
            exact ih (h.step (.call hi hn ⟨e, succeeds_effect hhosts hfd hlt o (a, e) ha, Effect.on_apply hcan⟩))
          · exact h

end

/-- `true` and `false` make these calls, where no descriptor is in use. -/
def begun (q q' : Req) : Tasks Bool :=
  ⟨nobody, Function.update (Function.update (fun _ => none) true (some ⟨q, (q.fn id).enter, fun _ => false⟩)) false
    (some ⟨q', (q'.fn id).enter, fun _ => false⟩)⟩

/-- The resolver knows one address. -/
def resolver (_ : List UInt8) (ip : Vector UInt8 4) : Prop := ip = #v[10, 0, 0, 1]

theorem resolves (name : List UInt8) : resolver name #v[10, 0, 0, 1] := rfl

theorem begun_run (q q' : Req) : Run (kernel resolver) (Req.fn id) (begun q q') :=
  ((Run.start nobody).step (.enter q rfl)).step (.enter q' rfl)

/-- Both have a socket. -/
def announcing : Tasks Bool :=
  play id false 4 1 (play id true 3 1 (begun (.netannounce INADDR_ANY true none 80) (.netannounce INADDR_ANY false none 53)))

theorem announcing_run : Run (kernel resolver) (Req.fn id) announcing :=
  play_run resolves (by decide) (by decide) 1 (play_run resolves (by decide) (by decide) 1 (begun_run _ _))

theorem opened_announcing : ∃ t u, announcing.thread true = some t ∧ announcing.thread false = some u ∧ t.own 3 = true ∧
    u.own 4 = true ∧ ∀ fd, ¬ (t.own fd = true ∧ u.own fd = true) := by
  refine ⟨_, _, rfl, rfl, rfl, rfl, fun fd ⟨ht, hu⟩ => ?_⟩
  cases (opened announcing_run).1 true false _ _ fd rfl rfl ht hu

/-- The first one goes on. -/
theorem as_asked_announcing : ∃ s, (play id true 3 5 announcing).store 3 = some (.sock s) ∧ s.nonblock = true ∧
    Announced resolver INADDR_ANY true none 80 s :=
  as_asked (play_run resolves (by decide) (by decide) 5 announcing_run) (i := true)
    (t := ((play id true 3 5 announcing).thread true).get rfl) (r := show Int from 3) (Option.some_get _).symm rfl (by decide)

/-- `true` is connected. -/
def loading : Tasks Bool := play id true 3 14
  (begun (.fetchtask INADDR_ANY ['h'.toUInt8] ['/'.toUInt8]) (.fetchtask INADDR_ANY ['h'.toUInt8] ['/'.toUInt8]))

theorem fetches_loading : ∃ s, loading.store 3 = some (.sock s) ∧ s.nonblock = true ∧
    Dialed resolver INADDR_ANY true ['h'.toUInt8] 80 s := by
  have hrun : Run (kernel resolver) (Req.fn id) loading := play_run resolves (by decide) (by decide) 14 (begun_run _ _)
  obtain ⟨own, hi⟩ : ∃ own, loading.thread true =
      some ⟨.fetchtask INADDR_ANY ['h'.toUInt8] ['/'.toUInt8], .pure (.inl (.write 3)), own⟩ := ⟨_, rfl⟩
  exact (fetches hrun hi).2

end Libtask.Net.Sockets
