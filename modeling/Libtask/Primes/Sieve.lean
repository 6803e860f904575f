/-
  Libtask.Primes.Sieve — the tasks as a sieve.

  `Sieving` is the invariant: the tasks are a chain of filters (Libtask.Lib.Sieve), in which each
  has received and sent what its place says, and what was printed are the numbers of the filters.

  Here are the steps that leave the filters as they are. A call moves at most one number on one
  channel, and the chain goes on (`chain_called`).
-/

import Libtask.Primes.Steps

namespace Libtask.Primes

open Function (update update_self update_of_ne)
open Libtask.Lib.Ring
open Libtask.Lib.Sieve
open Libtask.Lib.Words
open Libtask.Sched (State Glob Heap Runs Enabled)
open Libtask.Chan (InOp Called gave took held offered)

/-! ## Numbers -/

theorem ulong_eq {n : Nat} (h : n < 2 ^ 31) : ulong n = n := by
  unfold ulong
  omega

theorem int_eq {n : Nat} (h : n < 2 ^ 31) : int n = n := by
  unfold int
  rw [Int.bmod_eq_of_le] <;> omega

theorem tmod_eq {x q : Nat} : ((x : Int).tmod q = 0) ↔ q ∣ x := by
  rw [← Int.ofNat_tmod, Int.natCast_eq_zero, Nat.dvd_iff_mod_eq_zero]

theorem sift_keep {q x : Nat} (h : ¬ q ∣ x) (xs : List Nat) : sift q (xs ++ [x]) = sift q xs ++ [x] := by
  simp [sift, h]

theorem sift_drop {q x : Nat} (h : q ∣ x) (xs : List Nat) : sift q (xs ++ [x]) = sift q xs := by
  simp [sift, h]

/-! ## The invariant -/

/-- Where in the chain of the filters `ps` a task at a statement is. -/
def At.Fits (ps : List Nat) : At → Prop
  | .taskmain => False
  | .feed c _ => c = 0
  | .first c => c = ps.length
  | .next c nc p => nc = c + 1 ∧ ∃ q : Nat, p = q ∧ ps[c]? = some q
  | .pass c nc p _ => nc = c + 1 ∧ ∃ q : Nat, p = q ∧ ps[c]? = some q

structure Sieving (goal : Int) (y : Sys) (n : Nat) (ps : List Nat) : Prop where
  nchan : y.nchan = ps.length + 1
  out : y.out = .goal goal :: ps.map fun p => .number p
  chain : Chain n ps (gave y.s.g.chan) (took y.s.g.chan)
  bound : 2 + n ≤ 2 ^ 31
  fits : ∀ u, y.s.g.live u = true → (y.place u).stmt.Fits ps
  fresh : ∀ c, ps.length < c → gave y.s.g.chan c = [] ∧ took y.s.g.chan c = []
  follows : ∀ u, y.s.g.live u = true → Follows y.s.g.chan u (y.place u)
  reader : ∀ t u c, y.s.g.live t = true → y.s.g.live u = true → (y.place t).stmt.reads = some c →
    (y.place u).stmt.reads = some c → t = u
  writer : ∀ t u c, y.s.g.live t = true → y.s.g.live u = true → (y.place t).stmt.writes = some c →
    (y.place u).stmt.writes = some c → t = u
  fed : ∀ u c i, y.s.g.live u = true → y.place u = ⟨.feed c i, true⟩ → i ∈ y.fed
  small : ∀ p ∈ ps, (p : Int) ≤ goal
  exited : y.exited ≠ none → ∃ q : Nat, q.Prime ∧ ps = below q ∧ goal < q

section
variable {goal : Int} {y y' : Sys} {n : Nat} {ps : List Nat} {s' : State Glob Heap} {t u a : TaskPtr} {k k' : Chan.St} {c : Nat}
  {op : Chan.AltOp} {snd rcv : Option TaskPtr} {l : At}

theorem At.Fits.reads_le (h : l.Fits ps) (hl : l.reads = some c) : c ≤ ps.length := by
  cases l <;> simp [At.reads] at hl <;> subst hl <;> simp only [At.Fits] at h
  · omega
  · obtain ⟨-, q, -, hq⟩ := h
    have := (List.getElem?_eq_some_iff.mp hq).1
    omega
  · obtain ⟨-, q, -, hq⟩ := h
    have := (List.getElem?_eq_some_iff.mp hq).1
    omega

theorem At.Fits.writes_le (h : l.Fits ps) (hl : l.writes = some c) : c ≤ ps.length := by
  cases l <;> simp [At.writes] at hl <;> subst hl <;> simp only [At.Fits] at h
  · omega
  · obtain ⟨rfl, q, -, hq⟩ := h
    have := (List.getElem?_eq_some_iff.mp hq).1
    omega
  · obtain ⟨rfl, q, -, hq⟩ := h
    have := (List.getElem?_eq_some_iff.mp hq).1
    omega

/-- Numbers in the chain are `int`s. -/
theorem chain_lt (h : Chain n ps (gave k) (took k)) (hb : 2 + n ≤ 2 ^ 31) (hc : c ≤ ps.length) {x : Nat} (hx : x ∈ took k c) :
    x < 2 ^ 31 := by
  have := (chain_mem h hc ((h.fifo c).subset hx)).2
  omega

/-! ## A call -/

/-- The task that sends is at its place in the chain. -/
structure Sends (ps : List Nat) (k k' : Chan.St) (c : Nat) (w : TaskPtr) (l : At) : Prop where
  call : l.call = some (c, .CHANSND)
  done : l.Done (l.ins k) (l.outs k)
  fits : l.Fits ps
  value : offered k' w = l.value
  fed : ∀ i, l = .feed c i → i < 2 ^ 31

theorem chain_called (hc : Chain n ps (gave k) (took k)) (hb : 2 + n ≤ 2 ^ 31) (h : Called val k t c op snd rcv k')
    (hn : (k.chan c).elemsize = 8) (hfifo : ∀ d, took k' d <+: gave k' d) (hsnd : ∀ w, snd = some w → ∃ l, Sends ps k k' c w l) :
    ∃ n', 2 + n' ≤ 2 ^ 31 ∧ Chain n' ps (gave k') (took k') := by
  have htook : ∀ d, took k d <+: took k' d := fun d => by
    rw [h.took hn]
    exact List.prefix_append _ _
  have hgave : ∀ d, d ≠ c → gave k' d = gave k d := fun d hd => by rw [h.gave, if_neg hd, List.append_nil]
  -- where nothing was sent, the filters are as they were
  have hkeep : ∀ d p, ps[d]? = some p → gave k' (d + 1) = gave k (d + 1) →
      ∃ xs, p :: xs <+: took k' d ∧ gave k' (d + 1) = sift p xs := by
    intro d p hp hd
    obtain ⟨xs, h1, h2⟩ := hc.filter d p hp
    exact ⟨xs, h1.trans (htook d), hd.trans h2⟩
  cases snd with
  | none =>
    have hsame : ∀ d, gave k' d = gave k d := fun d => by rw [h.gave]; simp
    exact ⟨n, hb, (hsame 0).trans hc.first, hfifo, fun d p hp => hkeep d p hp (hsame _)⟩
  | some w =>
    obtain ⟨l, hl⟩ := hsnd w rfl
    have hsent : gave k' c = gave k c ++ [l.value] := by
      rw [h.gave, if_pos rfl, ← hl.value]
      rfl
    have hcall := hl.call
    have hdone := hl.done
    have hfits := hl.fits
    cases l with
    | taskmain => cases hcall
    | first d => cases hcall
    | next d nc p => cases hcall
    | feed d i =>
      -- one more number for the first filter
      obtain rfl : d = c := congrArg Prod.fst (Option.some.inj hcall)
      obtain rfl : d = 0 := hfits
      obtain ⟨m, hi, houts⟩ := hdone
      have houts : gave k 0 = List.range' 2 m := houts
      obtain rfl : n = m := by simpa [hc.first] using congrArg List.length houts
      have hlt := hl.fed i rfl
      have hv : At.value (.feed 0 i) = 2 + n := by
        have hnat : i = ((2 + n : Nat) : Int) := by omega
        rw [At.value, hnat, ulong_eq (by omega)]
      refine ⟨n + 1, by omega, ?_, hfifo, fun d p hp => hkeep d p hp (hgave _ (by omega))⟩
      rw [hsent, hc.first, hv, List.range'_concat]
      simp
    | pass d nc p i =>
      obtain rfl : nc = c := congrArg Prod.fst (Option.some.inj hcall)
      obtain ⟨rfl, q, hq, hpq⟩ := hfits
      obtain ⟨q', j, xs, hq', hi, hndvd, hins, houts⟩ := hdone
      obtain rfl : q = q' := by omega
      have hins : took k d = q :: (xs ++ [j]) := hins
      have houts : gave k (d + 1) = sift q xs := houts
      have hd : d ≤ ps.length := by
        have := (List.getElem?_eq_some_iff.mp hpq).1
        omega
      have hv : At.value (.pass d (d + 1) p i) = j := by
        rw [At.value, hi, ulong_eq (chain_lt hc hb hd (by rw [hins]; simp))]
      refine ⟨n, hb, (hgave 0 (by omega)).trans hc.first, hfifo, fun e p' hp' => ?_⟩
      by_cases he : e = d
      · subst he
        obtain rfl : q = p' := Option.some.inj (hpq.symm.trans hp')
        refine ⟨xs ++ [j], ?_, ?_⟩
        · rw [← hins]
          exact htook e
        · rw [hsent, houts, hv, sift_keep hndvd]
      · exact hkeep e p' hp' (hgave _ (by omega))

/-- Storing what will be sent. -/
theorem entering_spec {s : State Glob Heap} (h : Core s) (hr : Runs s.g t) (hop : op = .CHANSND ∨ op = .CHANRCV) (l : At) :
    ∃ mem, entering s t l op = ⟨{ s.g with chan := { s.g.chan with mem := mem } }, s.m⟩ ∧ Core (entering s t l op) ∧
      (∀ u, u ≠ t → slice mem (val u) 8 = slice s.g.chan.mem (val u) 8) ∧
      (op = .CHANSND → held val (entering s t l op).g.chan t = l.value) := by
  rcases hop with rfl | rfl
  · refine ⟨_, rfl, core_stored h hr (Nat.le_refl _) (by simp [sizeofUlong]), fun u hu => ?_, fun _ => ?_⟩
    · refine slice_blit_disjoint _ _ ?_
      have := separate_val u t hu
      simpa [sizeofUlong, Or.comm] using this.symm
    · have hread := slice_blit s.g.chan.mem (val t) (bytes sizeofUlong l.value)
      rw [bytes_length] at hread
      have hlt : l.value < 256 ^ 8 := by cases l <;> simp only [At.value, ulong] <;> omega
      exact (congrArg number hread).trans (number_bytes_of_lt hlt)
  · exact ⟨_, rfl, h, fun _ _ => rfl, nofun⟩

/-! ## One step -/

/-- A step of the scheduler, or one that `taskmain` can take before it calls. -/
theorem Sieving.frame (h : Sieving goal y n ps) (hs : s'.g.chan.sent = y.s.g.chan.sent) (hr : s'.g.chan.rcvd = y.s.g.chan.rcvd)
    (hl : s'.g.live = y.s.g.live) (hf : ∀ u, y.s.g.live u = true → Follows s'.g.chan u (y.place u)) :
    Sieving goal { y with s := s' } n ps := by
  have hg : gave s'.g.chan = gave y.s.g.chan := by funext c; simp [gave, hs]
  have ht : took s'.g.chan = took y.s.g.chan := by funext c; simp [took, hr]
  refine ⟨h.nchan, h.out, ?_, h.bound, ?_, fun c hc => ?_, ?_, ?_, ?_, ?_, h.small, h.exited⟩
  · show Chain n ps (gave s'.g.chan) (took s'.g.chan)
    rw [hg, ht]
    exact h.chain
  · show ∀ u, s'.g.live u = true → _
    rw [hl]
    exact h.fits
  · show gave s'.g.chan c = [] ∧ took s'.g.chan c = []
    rw [hg, ht]
    exact h.fresh c hc
  · show ∀ u, s'.g.live u = true → _
    rw [hl]
    exact hf
  · show ∀ t u c, s'.g.live t = true → s'.g.live u = true → _
    rw [hl]
    exact h.reader
  · show ∀ t u c, s'.g.live t = true → s'.g.live u = true → _
    rw [hl]
    exact h.writer
  · show ∀ u c i, s'.g.live u = true → _
    rw [hl]
    exact h.fed

theorem sieving_scheduled (hcore : Core y.s) (h : Sieving goal y n ps) (hen : Enabled y.s.g .taskscheduler)
    (hs : (Sched.code .taskscheduler).onHeap y.s = .ok ((), s')) : Sieving goal { y with s := s' } n ps := by
  obtain ⟨-, hc, hl⟩ := core_taskscheduler hcore hen hs
  refine h.frame (by rw [hc]) (by rw [hc]) hl fun u hu => ?_
  rw [hc]
  exact h.follows u hu

theorem sieving_resumed (hcore : Core y.s) (h : Sieving goal y n ps) (hr : y.s.g.taskrunning = some t)
    (hen : Enabled y.s.g (.resume 0 .eintr 0)) (hs : (Sched.code (.resume 0 .eintr 0)).onHeap y.s = .ok ((), s')) :
    Sieving goal { y with s := s' } n ps := by
  obtain ⟨-, hc, hl, hp⟩ := core_resume hcore hr hen hs
  refine h.frame (by rw [hc]) (by rw [hc]) hl fun u hu => ?_
  rw [hc]
  refine (h.follows u hu).frame rfl rfl rfl rfl rfl (fun _ => rfl) ?_
  by_cases hut : u = t
  · subst hut
    exact .inr ⟨update_self .., hp⟩
  · exact .inl (update_of_ne hut _ _)

/-- The tasks' parts in a call. -/
structure Parties (y : Sys) (t : TaskPtr) (k k' : Chan.St) (c : Nat) (op : Chan.AltOp) (snd rcv : Option TaskPtr) : Prop where
  called : Called val k t c op snd rcv k'
  live : ∀ u, k.wait u ≠ none → y.s.g.live u = true
  self : y.s.g.live t = true ∧ (y.place t).stmt.call = some (c, op)
  follows : ∀ u, y.s.g.live u = true → Follows k u (y.place u)

theorem Parties.receiver (h : Parties y t k k' c op snd rcv) (hr : rcv = some u) :
    y.s.g.live u = true ∧ (y.place u).stmt.call = some (c, .CHANRCV) := by
  rcases h.called.receiver u hr with ⟨rfl, rfl⟩ | ⟨-, hin⟩
  · exact h.self
  · have hlive := h.live u (by rw [hin.wait]; nofun)
    exact ⟨hlive, ((h.follows u hlive).call hin).2.1⟩

theorem Parties.sender (h : Parties y t k k' c op snd rcv) (hs : snd = some u) :
    y.s.g.live u = true ∧ (y.place u).stmt.call = some (c, .CHANSND) := by
  rcases h.called.sender u hs with ⟨rfl, rfl⟩ | ⟨-, hin⟩
  · exact h.self
  · have hlive := h.live u (by rw [hin.wait]; nofun)
    exact ⟨hlive, ((h.follows u hlive).call hin).2.1⟩

/-- Who reads the channel is who received. -/
theorem Parties.reads (h : Parties y t k k' c op snd rcv) (hy : Sieving goal y n ps) (hu : y.s.g.live u = true)
    (hr : (y.place u).stmt.reads = some c) (hne : rcv ≠ none) : rcv = some u := by
  obtain ⟨w, hw⟩ := Option.ne_none_iff_exists'.mp hne
  obtain ⟨hl, hcall⟩ := h.receiver hw
  rw [hw, hy.reader w u c hl hu (At.reads_of_call hcall) hr]

theorem Parties.writes (h : Parties y t k k' c op snd rcv) (hy : Sieving goal y n ps) (hu : y.s.g.live u = true)
    (hr : (y.place u).stmt.writes = some c) (hne : snd ≠ none) : snd = some u := by
  obtain ⟨w, hw⟩ := Option.ne_none_iff_exists'.mp hne
  obtain ⟨hl, hcall⟩ := h.sender hw
  rw [hw, hy.writer w u c hl hu (At.writes_of_call hcall) hr]

/-- The task at the call, and what it did before. -/
theorem Parties.done (h : Parties y t k k' c op snd rcv) (hl : y.place t = ⟨l, false⟩) : l.Done (l.ins k) (l.outs k) := by
  have := (h.follows t h.self.1).before (.inl (by rw [hl]))
  rwa [hl] at this

/-- Who sends is the caller, or a task that waited in its call. -/
theorem Parties.sends (h : Parties y t k k' c op snd rcv) (hy : Sieving goal y n ps) (hn : (k.chan c).elemsize = 8)
    (hl : y.place t = ⟨l, false⟩) (hheld : op = .CHANSND → held val k t = l.value) (hfit : ∀ i ∈ y.fed ++ l.feeds, i < 2 ^ 31)
    (hs : snd = some u) : ∃ l, Sends ps k k' c u l := by
  obtain ⟨hlive, hcall⟩ := h.self
  rcases h.called.sender u hs with ⟨rfl, rfl⟩ | ⟨hut, hin⟩
  · have hfits := hy.fits u hlive
    rw [hl] at hcall hfits
    refine ⟨l, hcall, h.done hl, hfits, (h.called.offers hn).trans (hheld rfl), fun i hi => hfit i ?_⟩
    simp [hi, At.feeds]
  · have hlu := h.live u (by rw [hin.wait]; simp)
    have hfu := h.follows u hlu
    obtain ⟨hp, hcu, hval⟩ := hfu.call hin
    refine ⟨(y.place u).stmt, hcu, hfu.before (.inr hp), hy.fits u hlu, (h.called.offered hut).trans (hval rfl), fun i hi =>
      hfit i ?_⟩
    have hplace : y.place u = ⟨.feed c i, true⟩ := by
      rw [← hi, ← hfu.of_pends hp]
    exact List.mem_append_left _ (hy.fed u c i hlu hplace)

/-- The channel of a call was made. -/
theorem At.Fits.call_le (h : l.Fits ps) (hl : l.call = some (c, op)) : c ≤ ps.length := by
  rcases At.call_op hl with rfl | rfl
  · exact h.writes_le (At.writes_of_call hl)
  · exact h.reads_le (At.reads_of_call hl)

theorem sieving_called (hcore : Core y.s) (h : Sieving goal y n ps) (hr : Runs y.s.g t) (hl : y.place t = ⟨l, false⟩)
    (hcall : l.call = some (c, op)) {r1 r2 : Nat}
    (hs : (Sched.code (.chanalt t (Chan._chanop c op (some (val t)) true) r1 r2)).onHeap (entering y.s t l op) = .ok ((), s'))
    (hfit : ∀ i ∈ y.fed ++ l.feeds, i < 2 ^ 31) : Core s' ∧
      ∃ n', Sieving goal { y with s := s', fed := y.fed ++ l.feeds, place := update y.place t ⟨l, true⟩ } n' ps := by
  have hop := At.call_op hcall
  obtain ⟨hidle, hlive⟩ := hcore.idle hr
  obtain ⟨mem, he, hcore₁, hmem, hheld⟩ := entering_spec hcore hr hop l
  rw [he] at hcore₁ hs hheld
  obtain ⟨hcore', hlive', snd, rcv, hc⟩ := core_chanop hcore₁ hr hop hs
  have hlive' : s'.g.live = y.s.g.live := hlive'
  have hn : (y.s.g.chan.chan c).elemsize = 8 := (hcore.size c).1
  -- each task before the call
  have hfol : ∀ u, y.s.g.live u = true → Follows { y.s.g.chan with mem := mem } u (y.place u) := by
    intro u hu
    refine (h.follows u hu).frame rfl rfl rfl rfl rfl (fun hin => ?_) (.inl rfl)
    have hut : u ≠ t := by
      rintro rfl
      rw [hl] at hin
      cases hin
    exact congrArg number (hmem u hut)
  have hpar : Parties y t { y.s.g.chan with mem := mem } s'.g.chan c op snd rcv :=
    ⟨hc, fun u hu => hcore.live hu, ⟨hlive, by rw [hl]; exact hcall⟩, hfol⟩
  have hdone := hpar.done hl
  have hsends := fun w (hw : snd = some w) => hpar.sends h hn hl hheld hfit hw
  obtain ⟨n', hb', hchain'⟩ := chain_called (k := { y.s.g.chan with mem := mem }) h.chain h.bound hc hn
    hcore'.took_prefix hsends
  have hstmt : ∀ u, (update y.place t ⟨l, true⟩ u).stmt = (y.place u).stmt := by
    intro u
    by_cases hut : u = t
    · subst hut
      rw [update_self, hl]
    · rw [update_of_ne hut]
  refine ⟨hcore', n', h.nchan, h.out, hchain', hb', fun u hu => ?_, fun d hd => ?_, fun u hu => ?_, fun u w d hu hw => ?_,
    fun u w d hu hw => ?_, fun u d i hu hp => ?_, h.small, h.exited⟩
  · rw [show s'.g.live u = true ↔ _ by rw [hlive']] at hu
    show (update y.place t ⟨l, true⟩ u).stmt.Fits ps
    rw [hstmt]
    exact h.fits u hu
  · -- nobody is at a channel that was not made
    have hfits := h.fits t hlive
    rw [hl] at hfits
    have hle := hfits.call_le hcall
    have hdc : d ≠ c := by omega
    obtain ⟨h1, h2⟩ := h.fresh d hd
    constructor
    · show gave s'.g.chan d = []
      rw [hc.gave, if_neg hdc, List.append_nil]
      exact h1
    · show took s'.g.chan d = []
      rw [hc.took hn, if_neg hdc, List.append_nil]
      exact h2
  · have hu₀ : y.s.g.live u = true := by rw [← hlive']; exact hu
    show Follows s'.g.chan u (update y.place t ⟨l, true⟩ u)
    by_cases hut : u = t
    · subst hut
      rw [update_self]
      have hr' := hpar.reads h hu₀
      have hw' := hpar.writes h hu₀
      rw [hl] at hr' hw'
      exact follows_self hc hn hcall hdone hheld hr' hw'
    · rw [update_of_ne hut]
      exact follows_other hc hn (hfol u hu₀) hut (hpar.reads h hu₀) (hpar.writes h hu₀)
  · show (update y.place t ⟨l, true⟩ u).stmt.reads = some d → (update y.place t ⟨l, true⟩ w).stmt.reads = some d → u = w
    rw [hstmt, hstmt]
    exact h.reader u w d (by rw [← hlive']; exact hu) (by rw [← hlive']; exact hw)
  · show (update y.place t ⟨l, true⟩ u).stmt.writes = some d → (update y.place t ⟨l, true⟩ w).stmt.writes = some d → u = w
    rw [hstmt, hstmt]
    exact h.writer u w d (by rw [← hlive']; exact hu) (by rw [← hlive']; exact hw)
  · have hp : update y.place t ⟨l, true⟩ u = ⟨.feed d i, true⟩ := hp
    by_cases hut : u = t
    · subst hut
      rw [update_self] at hp
      rw [show l = .feed d i from congrArg Place.stmt hp]
      simp [At.feeds]
    · rw [update_of_ne hut] at hp
      exact List.mem_append_left _ (h.fed u d i (by rw [← hlive']; exact hu) hp)

end

end Libtask.Primes
