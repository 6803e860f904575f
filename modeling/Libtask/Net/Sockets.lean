/-
  Libtask.Net.Sockets — announcing, dialing and accepting (net.c).

  The functions are code that calls the kernel, the resolver, and `__wrap_connect` and `__wrap_accept`
  with an address. Many tasks may be in such calls, each where it sleeps, while others open and close
  descriptors.

  A socket is connecting from a `connect` that is in progress on, and connected when the kernel has
  said so. `fdwait` (fd.c) is here with the descriptors it opens: the library's for `epoll`, which
  stays open and is in no table here, and a copy of the one that is waited for.
-/

import Libtask.Lib.Threads
import Libtask.Net.Parseip
import Libtask.Sched.Hooks

namespace Libtask.Net.Sockets

open Function (update)
open Libtask.Lib.Calls Libtask.Lib.Threads
open Libtask.Sched

set_option linter.style.nameCheck false

/-! ## What the functions call -/

/-- The bytes of a `struct sockaddr`. -/
abbrev Sockaddr := List UInt8

inductive Op where
  | gethostbyname (name : List UInt8)
  | socket (stream : Bool)
  /-- `getsockopt(fd, SOL_SOCKET, SO_TYPE, …)` -/
  | sotype (fd : Int)
  | bind (fd : Int) (sa : Sockaddr)
  | listen (fd backlog : Int)
  | close (fd : Int)
  | dup (fd : Int)
  | epoll_create
  /-- For the events of `rw`. -/
  | epoll_ctl (op fd : Int) (rw : Char)
  /-- The flag. -/
  | startedfdtask
  | taskdata (data : Option Int)
  | taskdelay (ms : Nat)
  /-- A system call of fd.c's functions, with `addr` at their `addr`. -/
  | real (addr : Sockaddr) (c : Hooks.Syscall)
  | abort

abbrev Ans : Op → Type
  | .gethostbyname _ => Option (Vector UInt8 4)
  | .socket _ => Int
  | .sotype _ => Int
  | .bind _ _ => Int
  | .listen _ _ => Int
  | .close _ => Int
  | .dup _ => Int
  | .epoll_create => Int
  | .epoll_ctl _ _ _ => Hooks.Reply
  | .startedfdtask => Bool
  | .taskdata _ => Int
  | .taskdelay _ => Hooks.Outcome × Nat
  | .real _ _ => Hooks.Reply × Sockaddr
  | .abort => Empty

abbrev Io := Code Op Ans

def assert (b : Bool) : Io Unit :=
  if b then pure ()
  else do
    let e ← ask Op.abort
    e.elim

/-! ### fdwait -/

def EEXIST : Int := 17

def EPOLL_CTL_ADD : Int := 1

def EPOLL_CTL_DEL : Int := 2

def _startfdtask : Io Unit := do
  if ← ask Op.startedfdtask then pure ()
  else do
    let epfd ← ask Op.epoll_create
    assert (0 ≤ epfd)

/-- Where `fd` is registered already. -/
def redup (fd : Int) (rw : Char) : Io Int := do
  let fd ← ask (Op.dup fd)
  let r ← ask (Op.epoll_ctl EPOLL_CTL_ADD fd rw)
  assert (r.r = 0)
  pure fd

/-- From `taskdelay` on. -/
def waits (fd : Int) (rw : Char) (duped : Bool) : Io Hooks.Outcome := do
  let x ← ask (Op.taskdelay 30000)
  let _ ← ask (Op.epoll_ctl EPOLL_CTL_DEL fd rw)
  if duped then do
    let _ ← ask (Op.close fd)
    pure x.1
  else pure x.1

def fdwait (fd : Int) (rw : Char) : Io Hooks.Outcome := do
  let _ ← _startfdtask
  let r ← ask (Op.epoll_ctl EPOLL_CTL_ADD fd rw)
  if r.r < 0 ∧ r.errno = EEXIST then do
    let fd ← redup fd rw
    waits fd rw true
  else waits fd rw false

section
variable {α β : Type}

/-- What a function of fd.c calls. -/
def called (addr : Sockaddr) : (o : Hooks.Op) → Io (Hooks.Ans o × Sockaddr)
  | .taskdata data => do
    let x ← ask (Op.taskdata data)
    pure (x, addr)
  | .taskdelay ms => do
    let x ← ask (Op.taskdelay ms)
    pure (x, addr)
  | .fdwait fd rw => do
    let x ← fdwait fd rw
    pure (x, addr)
  | .real c => ask (Op.real addr c)

/-- What it returns, and what is at `addr` then. -/
def hooked : Sockaddr → Hooks.Io α → Io (α × Sockaddr)
  | addr, .pure a => .pure (a, addr)
  | addr, .call o k => (called addr o).bind fun a => hooked a.2 (k a.1)

/-- Without an address. -/
def plain (m : Hooks.Io α) : Io α := do
  let x ← hooked [] m
  pure x.1

/-- A function of fd.c that has no loop. -/
def calls (addr : Sockaddr) (f : Fn Hooks.Op Hooks.Ans Empty β) : Io (β × Sockaddr) := do
  let x ← hooked addr f.enter
  pure (x.1.elim nofun id, x.2)

end

/-! ## net.c -/

/-- As it is in memory. -/
def htons (port : BitVec 16) : List UInt8 := [.ofBitVec ((port >>> 8).setWidth 8), .ofBitVec (port.setWidth 8)]

def ntohs (b : List UInt8) : Nat := (b.getD 0 0).toNat * 256 + (b.getD 1 0).toNat

def AF_INET : List UInt8 := [2, 0]

def AF_INET6 : List UInt8 := [10, 0]

def sockaddr_in (ip : Vector UInt8 4) (port : BitVec 16) : Sockaddr := AF_INET ++ htons port ++ ip.toList ++ List.replicate 8 0

def SOL_SOCKET : Int := 1

def SO_REUSEADDR : Int := 2

def SO_BROADCAST : Int := 6

def setsockopt (fd name value : Int) : Io Unit := do
  let _ ← plain (Hooks.real (.setsockopt fd SOL_SOCKET name value))
  pure ()

/-- `addr` is what `parseip` finds on the stack. -/
def netlookup (addr : Vector UInt8 4) (name : List UInt8) : Io (Option (Vector UInt8 4)) :=
  match parseip addr name with
  | some ip => pure (some ip)
  | none => ask (Op.gethostbyname name)

def INADDR_ANY : Vector UInt8 4 := #v[0, 0, 0, 0]

/-- What `netannounce` puts in `sa`. -/
def sin_addr (addr : Vector UInt8 4) : Option (List UInt8) → Io (Option (Vector UInt8 4))
  | none => pure (some INADDR_ANY)
  | some server => if server = ['*'.toUInt8] then pure (some INADDR_ANY) else netlookup addr server

def reuse (istcp : Bool) (fd : Int) : Io Unit :=
  if istcp then do
    let n ← ask (Op.sotype fd)
    if 0 ≤ n then setsockopt fd SO_REUSEADDR 1 else pure ()
  else pure ()

def netannounce (addr : Vector UInt8 4) (istcp : Bool) (server : Option (List UInt8)) (port : BitVec 32) : Io Int := do
  match ← sin_addr addr server with
  | none => pure (-1)
  | some ip => do
    let sa := sockaddr_in ip (port.setWidth 16)
    let fd ← ask (Op.socket istcp)
    if fd < 0 then pure (-1)
    else do
      let _ ← reuse istcp fd
      let r ← ask (Op.bind fd sa)
      if r < 0 then do
        let _ ← ask (Op.close fd)
        pure (-1)
      else do
        let _ ← if istcp then ask (Op.listen fd 16) else pure 0
        let _ ← plain (Hooks.fdnoblock fd)
        pure fd

def netdial (addr : Vector UInt8 4) (istcp : Bool) (server : List UInt8) (port : BitVec 32) : Io Int := do
  match ← netlookup addr server with
  | none => pure (-1)
  | some ip => do
    let fd ← ask (Op.socket istcp)
    if fd < 0 then pure (-1)
    else do
      let _ ← plain (Hooks.fdnoblock fd)
      let _ ← if istcp then pure () else setsockopt fd SO_BROADCAST 1
      let sa := sockaddr_in ip (port.setWidth 16)
      let ret ← calls sa (Hooks.__wrap_connect fd)
      if ret.1.m < 0 then do
        let _ ← ask (Op.close fd)
        pure (-1)
      else pure fd

structure Accepted where
  cfd : Int
  remote_address : Option (List UInt8)
  remote_port : Option Nat
  deriving DecidableEq, Repr

/-- `clientaddr` is what is on the stack. The pointers may be null. -/
def netaccept6 (inet_ntop : List UInt8 → List UInt8) (clientaddr : Vector UInt8 28) (fd : Int) (remote_address remote_port : Bool) :
    Io Accepted := do
  let ret ← calls clientaddr.toList (Hooks.__wrap_accept fd)
  if ret.1.m < 0 then pure ⟨-1, none, none⟩
  else
    let sin6_addr := (ret.2.drop 8).take 16
    let sin6_port := (ret.2.drop 2).take 2
    pure ⟨ret.1.m, if remote_address then some (inet_ntop sin6_addr) else none, if remote_port then some (ntohs sin6_port) else none⟩

/-! ## httpload.c -/

/-- Where `fetchtask` is: it dials, or is about to call `write` or `read`, or is in the loop of one. -/
inductive Fetch where
  | dial
  | write (fd : Int)
  | writing (fd : Int) (tot : BitVec 32)
  | read (fd : Int)
  | reading (fd : Int)
  | print
  | printing (tot : BitVec 32)

/-- `buf`, behind `snprintf(buf, sizeof buf, "GET %s HTTP/1.0\r\nHost: %s\r\n\r\n", url, server)`. -/
def request (server url : List UInt8) : List UInt8 :=
  ("GET ".toUTF8.toList ++ url ++ " HTTP/1.0\r\nHost: ".toUTF8.toList ++ server ++ "\r\n\r\n".toUTF8.toList).take 511

/-- In a call from fd.c that is in its loop at `loop`, or is done. -/
def inside {W : Type} (m : Hooks.Io (W ⊕ Hooks.Ret)) (loop : W → Fetch) (done : Hooks.Ret → Io Fetch) : Io (Fetch ⊕ Empty) := do
  match ← plain m with
  | .inl v => pure (.inl (loop v))
  | .inr r => do
    let f ← done r
    pure (.inl f)

/-- `write(fd, buf, strlen(buf))` -/
def sending (server url : List UInt8) (fd : Int) : Fn Hooks.Op Hooks.Ans (BitVec 32) Hooks.Ret :=
  Hooks.__wrap_write fd (BitVec.ofNat 64 (request server url).length)

/-- Behind `read`. -/
def got (fd : Int) (n : Hooks.Ret) : Io Fetch :=
  if 0 < Hooks.int n.m then pure (.read fd)
  else do
    let _ ← ask (Op.close fd)
    pure .print

def fetchtask (addr : Vector UInt8 4) (server url : List UInt8) : Fn Op Ans Fetch Empty where
  enter := pure (.inl .dial)
  turn
    | .dial => do
      let fd ← netdial addr true server 80
      if fd < 0 then pure (.inl .dial) else pure (.inl (.write fd))
    | .write fd => inside (sending server url fd).enter (.writing fd) fun _ => pure (.read fd)
    | .writing fd tot => inside ((sending server url fd).turn tot) (.writing fd) fun _ => pure (.read fd)
    | .read fd => inside (Hooks.__wrap_read fd 512).enter (fun _ => .reading fd) (got fd)
    | .reading fd => inside ((Hooks.__wrap_read fd 512).turn ()) (fun _ => .reading fd) (got fd)
    | .print => inside (Hooks.__wrap_write 1 1).enter .printing fun _ => pure .dial
    | .printing tot => inside ((Hooks.__wrap_write 1 1).turn tot) .printing fun _ => pure .dial

/-! ## The kernel -/

inductive Conn where
  | none
  /-- `connect` was called and is in progress, or has failed since. -/
  | connecting (addr : Sockaddr)
  | connected (peer : Sockaddr)
  deriving DecidableEq, Repr

structure Sock where
  stream : Bool
  nonblock : Bool
  bound : Option Sockaddr
  /-- What `listen` was called with, and what it returned. If that was 0 the socket listens. -/
  listen : Option (Int × Int)
  conn : Conn
  deriving DecidableEq, Repr

/-- A descriptor that is in use: of a socket, or a copy of `fd`. -/
inductive Desc where
  | sock (s : Sock)
  | dup (fd : Int)
  deriving DecidableEq, Repr

abbrev Fds := Int → Option Desc

inductive Effect where
  | none
  /-- There is no such descriptor. -/
  | bad (fd : Int)
  /-- Where `f` is none the kernel does not do that. -/
  | change (fd : Int) (f : Sock → Option Sock)
  | opens (fd : Int) (v : Desc)
  | closes (fd : Int)

def Effect.On (K K' : Fds) : Effect → Prop
  | .none => K' = K
  | .bad fd => K fd = .none ∧ K' = K
  | .change fd f => ∃ s s', K fd = some (.sock s) ∧ f s = some s' ∧ K' = update K fd (some (.sock s'))
  | .opens fd v => K fd = .none ∧ K' = update K fd (some v)
  | .closes fd => K' = update K fd .none

def sockaddr_in6 (addr : Vector UInt8 16) (port : BitVec 16) (flowinfo scope : Vector UInt8 4) : Sockaddr :=
  AF_INET6 ++ htons port ++ flowinfo.toList ++ addr.toList ++ scope.toList

/-- The addresses that the kernel has for a peer. -/
def IsPeer (p : Sockaddr) : Prop :=
  (∃ ip port, p = sockaddr_in ip port) ∨ ∃ addr port flowinfo scope, p = sockaddr_in6 addr port flowinfo scope

/-- `p` is written to where `addr` is. -/
def written (addr p : Sockaddr) : Sockaddr := p.take addr.length ++ addr.drop p.length

/-- Only a connected socket has a peer. One that was connecting may be connected by now. -/
def Sock.established (p : Sockaddr) (s : Sock) : Option Sock :=
  if s.conn = .connected p ∨ s.conn = .connecting p then some { s with conn := .connected p } else none

/-- What comes with an answer to a system call that fd.c makes with `addr`. A descriptor in use can always be made non-blocking. -/
def syscall (addr : Sockaddr) (a : Hooks.Reply) (addr' : Sockaddr) (e : Effect) : Hooks.Syscall → Prop
  | .fcntl fd cmd arg => addr' = addr ∧ if cmd = Hooks.F_SETFL then
      a.r < 0 ∧ e = .bad fd ∨ 0 ≤ a.r ∧ e = .change fd fun s => some { s with nonblock := arg &&& Hooks.O_NONBLOCK ≠ 0 }
      else e = .none
  | .connect fd => addr' = addr ∧ if 0 ≤ a.r then e = .change fd fun s => some { s with conn := .connected addr }
      else if a.errno = Hooks.EINPROGRESS then e = .change fd fun s => some { s with conn := .connecting addr }
      else e = .none
  | .accept _ => a.r < 0 ∧ addr' = addr ∧ e = .none ∨
      0 ≤ a.r ∧ ∃ p, IsPeer p ∧ addr' = written addr p ∧ e = .opens a.r (.sock ⟨true, false, .none, .none, .connected p⟩)
  | .getpeername fd => a.r < 0 ∧ addr' = addr ∧ e = .none ∨
      0 ≤ a.r ∧ ∃ p, addr' = written addr p ∧ e = .change fd (Sock.established p)
  | _ => addr' = addr ∧ e = .none

/-- `hosts` is what the resolver may answer. -/
def effect (hosts : List UInt8 → Vector UInt8 4 → Prop) : (o : Op) → Ans o → Effect → Prop
  | .gethostbyname name, ip, e => (∀ a ∈ ip, hosts name a) ∧ e = .none
  | .socket stream, fd, e => fd = -1 ∧ e = .none ∨ 0 ≤ fd ∧ e = .opens fd (.sock ⟨stream, false, .none, .none, .none⟩)
  | .sotype _, _, e => e = .none
  | .bind fd sa, r, e => r = -1 ∧ e = .none ∨ r = 0 ∧ e = .change fd fun s => some { s with bound := some sa }
  | .listen fd backlog, r, e => r = -1 ∧ e = .bad fd ∨
      (r = 0 ∨ r = -1) ∧ e = .change fd fun s => some { s with listen := some (backlog, r) }
  | .close fd, _, e => e = .closes fd
  | .dup fd, d, e => d = -1 ∧ e = .none ∨ 0 ≤ d ∧ e = .opens d (.dup fd)
  | .epoll_ctl _ fd _, a, e => (0 ≤ fd ∨ a.r < 0) ∧ e = .none
  | .real addr c, a, e => c.Answers a.1 ∧ syscall addr a.1 a.2 e c
  | .epoll_create, _, e => e = .none
  | .startedfdtask, _, e => e = .none
  | .taskdata _, _, e => e = .none
  | .taskdelay _, _, e => e = .none

/-- The descriptor that a system call names. -/
def syscallfd : Hooks.Syscall → Int
  | .read fd _ => fd
  | .write fd _ _ => fd
  | .accept fd => fd
  | .connect fd => fd
  | .getpeername fd => fd
  | .soerror fd => fd
  | .setsockopt fd _ _ _ => fd
  | .fcntl fd _ _ => fd

def Op.fd : Op → Option Int
  | .sotype fd => some fd
  | .bind fd _ => some fd
  | .listen fd _ => some fd
  | .close fd => some fd
  | .dup fd => some fd
  | .epoll_ctl _ fd _ => some fd
  | .real _ c => some (syscallfd c)
  | _ => none

/-- What the kernel does depends on the descriptor, as far as it is modelled. -/
def about : Op → Int → Prop
  | .bind fd _, r => r = fd
  | .listen fd _, r => r = fd
  | .close fd, r => r = fd
  | .real _ (.fcntl fd _ _), r => r = fd
  | .real _ (.connect fd), r => r = fd
  | .real _ (.getpeername fd), r => r = fd
  | _, _ => False

/-- The descriptor that a request is about. -/
def Effect.fd : Effect → Option Int
  | .bad fd => some fd
  | .change fd _ => some fd
  | .closes fd => some fd
  | _ => .none

section
variable {hosts : List UInt8 → Vector UInt8 4 → Prop} {o : Op} {a : Ans o} {e : Effect} {K K' : Fds} {own : Int → Bool} {fd r : Int}

theorem syscall_about {addr addr' : Sockaddr} {c : Hooks.Syscall} {a : Hooks.Reply} (h : syscall addr a addr' e c)
    (hfd : e.fd = some fd) : about (.real addr c) fd := by
  cases c with
  | fcntl fd' cmd arg =>
    obtain ⟨-, h⟩ := h
    split at h
    · rcases h with ⟨-, rfl⟩ | ⟨-, rfl⟩
      · exact (Option.some.inj hfd).symm
      · exact (Option.some.inj hfd).symm
    · subst h
      cases hfd
  | connect fd' =>
    obtain ⟨-, h⟩ := h
    split at h
    · subst h
      exact (Option.some.inj hfd).symm
    · split at h
      · subst h
        exact (Option.some.inj hfd).symm
      · subst h
        cases hfd
  | accept fd' =>
    rcases h with ⟨-, -, rfl⟩ | ⟨-, p, -, -, rfl⟩
    · cases hfd
    · cases hfd
  | getpeername fd' =>
    rcases h with ⟨-, -, rfl⟩ | ⟨-, p, -, rfl⟩
    · cases hfd
    · exact (Option.some.inj hfd).symm
  | read fd' n =>
    obtain rfl : e = .none := h.2
    cases hfd
  | write fd' off n =>
    obtain rfl : e = .none := h.2
    cases hfd
  | soerror fd' =>
    obtain rfl : e = .none := h.2
    cases hfd
  | setsockopt fd' level name value =>
    obtain rfl : e = .none := h.2
    cases hfd

theorem effect_about (h : effect hosts o a e) (hfd : e.fd = some fd) : about o fd := by
  cases o with
  | gethostbyname name =>
    obtain rfl := h.2
    cases hfd
  | socket stream =>
    rcases h with ⟨-, rfl⟩ | ⟨-, rfl⟩
    · cases hfd
    · cases hfd
  | bind fd' sa =>
    rcases h with ⟨-, rfl⟩ | ⟨-, rfl⟩
    · cases hfd
    · exact (Option.some.inj hfd).symm
  | listen fd' backlog =>
    rcases h with ⟨-, rfl⟩ | ⟨-, rfl⟩
    · exact (Option.some.inj hfd).symm
    · exact (Option.some.inj hfd).symm
  | close fd' =>
    obtain rfl : e = .closes fd' := h
    exact (Option.some.inj hfd).symm
  | dup fd' =>
    rcases h with ⟨-, rfl⟩ | ⟨-, rfl⟩
    · cases hfd
    · cases hfd
  | epoll_ctl op fd' rw =>
    obtain rfl := h.2
    cases hfd
  | real addr c => exact syscall_about h.2 hfd
  | sotype fd' =>
    obtain rfl : e = .none := h
    cases hfd
  | epoll_create =>
    obtain rfl : e = .none := h
    cases hfd
  | startedfdtask =>
    obtain rfl : e = .none := h
    cases hfd
  | taskdata data =>
    obtain rfl : e = .none := h
    cases hfd
  | taskdelay ms =>
    obtain rfl : e = .none := h
    cases hfd
  | abort => exact a.elim

theorem on_keeps (h : e.On K K') (hr : e.fd ≠ some r) (hK : K r ≠ none) : K' r = K r := by
  cases e with
  | none => rw [show K' = K from h]
  | bad fd => rw [show K' = K from h.2]
  | change fd f =>
    obtain ⟨s, s', -, -, rfl⟩ := h
    exact Function.update_of_ne (fun he => hr (congrArg some he.symm)) ..
  | opens fd v =>
    obtain ⟨hnone, rfl⟩ := h
    exact Function.update_of_ne (fun he => hK (by rw [he, hnone])) ..
  | closes fd =>
    obtain rfl := h
    exact Function.update_of_ne (fun he => hr (congrArg some he.symm)) ..

theorem on_part (h : e.On K K') (hown : ∀ fd, e.fd = some fd → own fd = true) : e.On (part K own) (part K' (after own K K')) := by
  have hsame : ∀ r, K' r = K r → part K' (after own K K') r = part K own r := fun r hr => part_after_same hr
  cases e with
  | none => exact funext fun r => hsame r (by rw [show K' = K from h])
  | bad fd =>
    obtain ⟨hnone, rfl⟩ := h
    exact ⟨(part_own (hown fd rfl)).trans hnone, funext fun r => hsame r rfl⟩
  | change fd f =>
    obtain ⟨s, s', hs, hf, rfl⟩ := h
    refine ⟨s, s', (part_own (hown fd rfl)).trans hs, hf, funext fun r => ?_⟩
    by_cases hr : r = fd
    · subst hr
      rw [part_after_own (hown r rfl), Function.update_self, Function.update_self]
    · rw [hsame r (Function.update_of_ne hr ..), Function.update_of_ne hr]
  | opens fd v =>
    obtain ⟨hnone, rfl⟩ := h
    refine ⟨?_, funext fun r => ?_⟩
    · by_cases hf : own fd = true
      · exact (part_own hf).trans hnone
      · exact if_neg hf
    · by_cases hr : r = fd
      · subst hr
        rw [part_after_opened hnone, Function.update_self, Function.update_self]
      · rw [hsame r (Function.update_of_ne hr ..), Function.update_of_ne hr]
  | closes fd =>
    obtain rfl := h
    refine funext fun r => ?_
    by_cases hr : r = fd
    · subst hr
      rw [part_after_own (hown r rfl), Function.update_self, Function.update_self]
    · rw [hsame r (Function.update_of_ne hr ..), Function.update_of_ne hr]

end

def kernel (hosts : List UInt8 → Vector UInt8 4 → Prop) : Kernel Op Ans Int Desc where
  kern o K a K' := ∃ e, effect hosts o a e ∧ e.On K K'
  about := about
  keeps := fun ⟨_, he, hon⟩ hr hK => on_keeps hon (fun hfd => hr (effect_about he hfd)) hK
  part := fun ⟨e, he, hon⟩ hown => ⟨e, he, on_part hon fun fd hfd => hown fd (effect_about he hfd)⟩

end Libtask.Net.Sockets
