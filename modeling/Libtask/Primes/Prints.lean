/-
  Libtask.Primes.Prints — the sieve prints the primes.

  A task that has received its first number is the one at the end of the chain, and the number is
  the next prime (`first_received`). It is printed with a new filter, or the program exits. `inv`
  is the run lemma.

  `prints_primes`: when `taskexitall` is called, the primes up to `goal` were printed, in order.
-/

import Libtask.Primes.Sieve

namespace Libtask.Primes

open Function (update update_self update_of_ne)
open Libtask.Lib (ok_of_bind)
open Libtask.Lib.Sieve
open Libtask.Sched (State Glob Heap Runs Enabled)
open Libtask.Chan (gave took held offered)

/-- `taskmain` did nothing yet. -/
structure Before (y : Sys) : Prop where
  nchan : y.nchan = 0
  out : y.out = []
  exited : y.exited = none
  stmt : ∀ u, y.s.g.live u = true → y.place u = ⟨.taskmain, false⟩
  one : ∀ t u, y.s.g.live t = true → y.s.g.live u = true → t = u
  none : ∀ c, gave y.s.g.chan c = [] ∧ took y.s.g.chan c = []

section
variable {goal buffer : Int} {y y' : Sys} {n : Nat} {ps : List Nat} {s' : State Glob Heap} {t u a : TaskPtr} {k : Chan.St} {c x : Nat}
  {l l' : At}

/-- At a statement whose call did not happen. -/
theorem follows_at (hw : k.wait u = none) (hd : l.Done (l.ins k) (l.outs k)) : Follows k u ⟨l, false⟩ :=
  ⟨fun _ => hw, fun _ => hd, fun hp => absurd hw hp.1, nofun, nofun⟩

/-! ## A return -/

theorem At.Then.reads (h : At.Then x l l') : l'.reads = l.reads := by cases h <;> rfl

theorem At.Then.writes (h : At.Then x l l') : l'.writes = l.writes := by cases h <;> rfl

theorem At.Then.fits (h : At.Then x l l') (hl : l.Fits ps) : l'.Fits ps := by cases h <;> exact hl

theorem At.Then.done (h : At.Then (held val k u) l l') (hf : Follows k u ⟨l, true⟩) (hp : ¬ Pends k u)
    (hint : ∀ x ∈ l.ins k, x < 2 ^ 31) (hfed : ∀ c i, l = .feed c i → i < 2 ^ 31) : l'.Done (l'.ins k) (l'.outs k) := by
  cases h with
  | fed c i =>
    obtain ⟨ys, houts, m, hi, hys⟩ := hf.sent rfl hp c rfl
    have hlt := hfed c i rfl
    refine ⟨m + 1, by omega, houts.trans ?_⟩
    have hnat : i = ((2 + m : Nat) : Int) := by omega
    rw [hys, List.range'_concat, At.value, hnat, ulong_eq (by omega)]
    simp
  | kept c nc p hp0 hd =>
    obtain ⟨zs, hins, q, xs, hq, hzs, houts⟩ := hf.received rfl hp c rfl
    have hlt := hint (held val k u) (by rw [show At.ins _ k = _ from hins]; simp)
    rw [int_eq hlt] at hd ⊢
    refine ⟨q, held val k u, xs, hq, rfl, fun hdvd => hd ?_, ?_, houts⟩
    · rw [hq, tmod_eq]
      exact hdvd
    · exact hins.trans (by rw [hzs]; rfl)
  | dropped c nc p hp0 hd =>
    obtain ⟨zs, hins, q, xs, hq, hzs, houts⟩ := hf.received rfl hp c rfl
    have hlt := hint (held val k u) (by rw [show At.ins _ k = _ from hins]; simp)
    rw [int_eq hlt, hq, tmod_eq] at hd
    refine ⟨q, xs ++ [held val k u], hq, ?_, ?_⟩
    · exact hins.trans (by rw [hzs]; rfl)
    · rw [sift_drop hd]
      exact houts
  | passed c nc p i =>
    obtain ⟨ys, houts, q, j, xs, hq, hi, hndvd, hins, hys⟩ := hf.sent rfl hp nc rfl
    have hlt := hint j (by rw [show At.ins _ k = _ from hins]; simp)
    refine ⟨q, xs ++ [j], hq, hins, houts.trans ?_⟩
    rw [At.value, hi, ulong_eq hlt, sift_keep hndvd, hys]

theorem sieving_returned (hcore : Core y.s) (h : Sieving goal y n ps) (hr : Runs y.s.g t) (hl : y.place t = ⟨l, true⟩)
    (hthen : l.Then (y.received t) l') (hfit : ∀ i ∈ y.fed, i < 2 ^ 31) : Sieving goal (y.goto t l' false) n ps := by
  obtain ⟨hidle, hlive⟩ := hcore.idle hr
  have hplace : ∀ u, u ≠ t → update y.place t ⟨l', false⟩ u = y.place u := fun u hu => update_of_ne hu _ _
  have hreads : ∀ u, (update y.place t ⟨l', false⟩ u).stmt.reads = (y.place u).stmt.reads := by
    intro u
    by_cases hut : u = t
    · subst hut
      rw [update_self, hl]
      exact hthen.reads
    · rw [hplace u hut]
  have hwrites : ∀ u, (update y.place t ⟨l', false⟩ u).stmt.writes = (y.place u).stmt.writes := by
    intro u
    by_cases hut : u = t
    · subst hut
      rw [update_self, hl]
      exact hthen.writes
    · rw [hplace u hut]
  have hfits : l.Fits ps := by
    have := h.fits t hlive
    rwa [hl] at this
  refine ⟨h.nchan, h.out, h.chain, h.bound, fun u hu => ?_, h.fresh, fun u hu => ?_, fun u w d hu hw => ?_,
    fun u w d hu hw => ?_, fun u d i hu hp => ?_, h.small, h.exited⟩
  · show (update y.place t ⟨l', false⟩ u).stmt.Fits ps
    by_cases hut : u = t
    · subst hut
      rw [update_self]
      exact hthen.fits hfits
    · rw [hplace u hut]
      exact h.fits u hu
  · show Follows y.s.g.chan u (update y.place t ⟨l', false⟩ u)
    by_cases hut : u = t
    · subst hut
      rw [update_self]
      have hf := h.follows u hlive
      rw [hl] at hf
      refine follows_at hidle (hthen.done hf (fun hp => hp.1 hidle) ?_ fun d i hd => hfit i (h.fed u d i hlive (hd ▸ hl)))
      intro x hx
      cases hread : l.reads with
      | none => simp [At.ins, hread] at hx
      | some d =>
        rw [At.ins_eq hread] at hx
        exact chain_lt h.chain h.bound (hfits.reads_le hread) hx
    · rw [hplace u hut]
      exact h.follows u hu
  · show (update y.place t ⟨l', false⟩ u).stmt.reads = some d → (update y.place t ⟨l', false⟩ w).stmt.reads = some d → u = w
    rw [hreads, hreads]
    exact h.reader u w d hu hw
  · show (update y.place t ⟨l', false⟩ u).stmt.writes = some d → (update y.place t ⟨l', false⟩ w).stmt.writes = some d → u = w
    rw [hwrites, hwrites]
    exact h.writer u w d hu hw
  · have hp : update y.place t ⟨l', false⟩ u = ⟨.feed d i, true⟩ := hp
    by_cases hut : u = t
    · subst hut
      rw [update_self] at hp
      cases hp
    · rw [hplace u hut] at hp
      exact h.fed u d i hu hp

/-! ## The first number -/

/-- Who received its first number is at the end of the chain. -/
theorem first_received (hcore : Core y.s) (h : Sieving goal y n ps) (hr : Runs y.s.g t) (hl : y.place t = ⟨.first c, true⟩) :
    c = ps.length ∧ took y.s.g.chan c = [y.received t] ∧ (y.received t).Prime ∧ ps = below (y.received t) ∧
      int (y.received t) = y.received t := by
  obtain ⟨hidle, hlive⟩ := hcore.idle hr
  have hfits := h.fits t hlive
  have hf := h.follows t hlive
  rw [hl] at hfits hf
  obtain rfl : c = ps.length := hfits
  obtain ⟨xs, hins, hxs⟩ := hf.received rfl (fun hp => hp.1 hidle) _ rfl
  obtain rfl : xs = [] := hxs
  have htook : took y.s.g.chan ps.length = [y.received t] := hins
  have hlt := chain_lt h.chain h.bound (Nat.le_refl _) (show y.received t ∈ took y.s.g.chan ps.length by rw [htook]; simp)
  obtain ⟨hprime, hbelow⟩ := chain_next h.chain (show y.received t :: [] <+: took y.s.g.chan ps.length by rw [htook])
  exact ⟨rfl, htook, hprime, hbelow, int_eq hlt⟩

theorem sieving_exited (hcore : Core y.s) (h : Sieving goal y n ps) (hr : Runs y.s.g t) (hl : y.place t = ⟨.first c, true⟩)
    (hp : goal < int (y.received t)) : Sieving goal { y with exited := some 0 } n ps := by
  obtain ⟨-, -, hprime, hbelow, hint⟩ := first_received hcore h hr hl
  rw [hint] at hp
  exact ⟨h.nchan, h.out, h.chain, h.bound, h.fits, h.fresh, h.follows, h.reader, h.writer, h.fed, h.small,
    fun _ => ⟨_, hprime, hbelow, hp⟩⟩

theorem At.Fits.append (h : l.Fits ps) (hne : ∀ c, l ≠ .first c) : l.Fits (ps ++ [x]) := by
  have hget : ∀ {c q : Nat}, ps[c]? = some q → (ps ++ [x])[c]? = some q := fun hq => by
    rw [List.getElem?_append_left (List.getElem?_eq_some_iff.mp hq).1, hq]
  cases l with
  | taskmain => exact h
  | feed c i => exact h
  | first c => exact absurd rfl (hne c)
  | next c nc p =>
    obtain ⟨h1, q, h2, h3⟩ := h
    exact ⟨h1, q, h2, hget h3⟩
  | pass c nc p i =>
    obtain ⟨h1, q, h2, h3⟩ := h
    exact ⟨h1, q, h2, hget h3⟩

/-- One more filter, which received nothing. -/
theorem chain_append {gave took : Nat → List Nat} (h : Chain n ps gave took) (ht : took ps.length = [x])
    (hg : gave (ps.length + 1) = []) : Chain n (ps ++ [x]) gave took := by
  refine ⟨h.first, h.fifo, fun d p hp => ?_⟩
  rcases Nat.lt_trichotomy d ps.length with hd | rfl | hd
  · rw [List.getElem?_append_left hd] at hp
    exact h.filter d p hp
  · obtain rfl : x = p := by simpa using hp
    exact ⟨[], ht ▸ List.prefix_refl _, hg⟩
  · rw [List.getElem?_eq_none (by simp; omega)] at hp
    cases hp

/-- Nobody but the task at the end of the chain is at its channel. -/
theorem first_alone (h : Sieving goal y n ps) (hlive : y.s.g.live t = true) (hl : y.place t = ⟨.first ps.length, true⟩)
    (hu : y.s.g.live u = true) (hut : u ≠ t) :
    (∀ d, (y.place u).stmt ≠ .first d) ∧ ∀ d, (y.place u).stmt.reads = some d → d < ps.length := by
  have hreads : ∀ d, (y.place u).stmt.reads = some d → d < ps.length := by
    intro d hd
    have hle := (h.fits u hu).reads_le hd
    have hne : d ≠ ps.length := by
      rintro rfl
      exact hut (h.reader u t ps.length hu hlive hd (by rw [hl]; rfl))
    omega
  refine ⟨fun d hd => ?_, hreads⟩
  have hfits := h.fits u hu
  have hlt := hreads d (by rw [hd]; rfl)
  rw [hd] at hfits
  obtain rfl : d = ps.length := hfits
  omega

/-- Who is not freed behind a `taskcreate` of `t`, which gave `a`. -/
theorem live_created (hl : s'.g.live = update y.s.g.live a true) (t : TaskPtr) (hu : s'.g.live u = true) :
    u = t ∨ u = a ∨ u ≠ t ∧ u ≠ a ∧ y.s.g.live u = true := by
  by_cases hut : u = t
  · exact .inl hut
  · by_cases hua : u = a
    · exact .inr (.inl hua)
    · rw [hl, update_of_ne hua] at hu
      exact .inr (.inr ⟨hut, hua, hu⟩)

/-- Where the tasks are then. -/
theorem place_created {place : TaskPtr → Place} {x x' : Place} (hp : place = update (update y.place a x) t x') (hat : a ≠ t) :
    place t = x' ∧ place a = x ∧ ∀ u, u ≠ t → u ≠ a → place u = y.place u := by
  subst hp
  refine ⟨update_self .., ?_, fun u hut hua => ?_⟩
  · rw [update_of_ne hat, update_self]
  · rw [update_of_ne hut, update_of_ne hua]

theorem sieving_printed (hcore : Core y.s) (h : Sieving goal y n ps) (hx₀ : y.exited = none) (hr : Runs y.s.g t)
    (ha : y.s.g.live a = false) (hl : y.place t = ⟨.first c, true⟩) (hp : int (y.received t) ≤ goal)
    (hs : (Sched.code (.taskcreate a)).onHeap y.s = .ok ((), s')) :
    Core s' ∧ Sieving goal { y with
      s := s'
      out := y.out ++ [.number (int (y.received t))]
      nchan := y.nchan + 1
      place := update (update y.place a ⟨.first y.nchan, false⟩) t ⟨.next c y.nchan (int (y.received t)), false⟩ } n
      (ps ++ [y.received t]) := by
  obtain ⟨hidle, hlive⟩ := hcore.idle hr
  obtain ⟨rfl, htook, hprime, hbelow, hint⟩ := first_received hcore h hr hl
  obtain ⟨hcore', hchan, hlive'⟩ := core_taskcreate hcore (.inr ⟨t, hr⟩) ha hs
  obtain ⟨hat, hwait⟩ := hcore.unborn hr ha
  rw [hint] at hp ⊢
  rw [h.nchan]
  generalize y.received t = x at *
  generalize hplace : update (update y.place a _) t _ = place
  obtain ⟨ht, hpa, hpu⟩ := place_created hplace.symm hat
  obtain ⟨hg1, ht1⟩ := h.fresh (ps.length + 1) (by omega)
  have hcase := fun u (hu : s'.g.live u = true) => live_created hlive' t hu
  have hreads : ∀ u d, s'.g.live u = true → (place u).stmt.reads = some d → u = t ∧ d = ps.length ∨ u = a ∧ d = ps.length + 1 ∨
      d < ps.length ∧ y.s.g.live u = true ∧ (y.place u).stmt.reads = some d := by
    intro u d hu hd
    rcases hcase u hu with rfl | rfl | ⟨hut, hua, hu⟩
    · rw [ht] at hd
      exact .inl ⟨rfl, (Option.some.inj hd).symm⟩
    · rw [hpa] at hd
      exact .inr (.inl ⟨rfl, (Option.some.inj hd).symm⟩)
    · rw [hpu u hut hua] at hd
      exact .inr (.inr ⟨(first_alone h hlive hl hu hut).2 d hd, hu, hd⟩)
  have hwrites : ∀ u d, s'.g.live u = true → (place u).stmt.writes = some d → u = t ∧ d = ps.length + 1 ∨
      d < ps.length + 1 ∧ y.s.g.live u = true ∧ (y.place u).stmt.writes = some d := by
    intro u d hu hd
    rcases hcase u hu with rfl | rfl | ⟨hut, hua, hu⟩
    · rw [ht] at hd
      exact .inl ⟨rfl, (Option.some.inj hd).symm⟩
    · rw [hpa] at hd
      cases hd
    · rw [hpu u hut hua] at hd
      have hle := (h.fits u hu).writes_le hd
      exact .inr ⟨by omega, hu, hd⟩
  refine ⟨hcore', ⟨?_, ?_, ?_, h.bound, fun u hu => ?_, fun d hd => ?_, fun u hu => ?_, fun u w d hu hw hru hrw => ?_,
    fun u w d hu hw hru hrw => ?_, fun u d i hu hpl => ?_, fun p hmem => ?_, fun he => absurd hx₀ he⟩⟩
  · simp
  · simp [h.out]
  · show Chain n _ (gave s'.g.chan) (took s'.g.chan)
    rw [hchan]
    exact chain_append h.chain htook hg1
  · show (place u).stmt.Fits _
    rcases hcase u hu with rfl | rfl | ⟨hut, hua, hu⟩
    · rw [ht]
      exact ⟨rfl, x, rfl, by simp⟩
    · rw [hpa]
      simp [At.Fits]
    · rw [hpu u hut hua]
      exact (h.fits u hu).append (first_alone h hlive hl hu hut).1
  · show gave s'.g.chan d = [] ∧ took s'.g.chan d = []
    rw [hchan]
    exact h.fresh d (by simp at hd; omega)
  · show Follows s'.g.chan u (place u)
    rw [hchan]
    rcases hcase u hu with rfl | rfl | ⟨hut, hua, hu⟩
    · rw [ht]
      exact follows_at hidle ⟨x, [], rfl, htook, hg1⟩
    · rw [hpa]
      exact follows_at hwait ht1
    · rw [hpu u hut hua]
      exact h.follows u hu
  · rcases hreads u d hu hru with ⟨rfl, h1⟩ | ⟨rfl, h1⟩ | ⟨h1, hu, hru⟩ <;>
      rcases hreads w d hw hrw with ⟨rfl, h2⟩ | ⟨rfl, h2⟩ | ⟨h2, hw, hrw⟩ <;> first | rfl | omega | skip
    exact h.reader u w d hu hw hru hrw
  · rcases hwrites u d hu hru with ⟨rfl, h1⟩ | ⟨h1, hu, hru⟩ <;> rcases hwrites w d hw hrw with ⟨rfl, h2⟩ | ⟨h2, hw, hrw⟩ <;>
      first | rfl | omega | skip
    exact h.writer u w d hu hw hru hrw
  · have hpl : place u = ⟨.feed d i, true⟩ := hpl
    rcases hcase u hu with rfl | rfl | ⟨hut, hua, hu⟩
    · rw [ht] at hpl
      cases hpl
    · rw [hpa] at hpl
      cases hpl
    · rw [hpu u hut hua] at hpl
      exact h.fed u d i hu hpl
  · rcases List.mem_append.mp hmem with hmem | hmem
    · exact h.small p hmem
    · rw [List.mem_singleton.mp hmem]
      exact hp

/-! ## Before `taskmain` -/

theorem Before.frame (h : Before y) (hs : s'.g.chan.sent = y.s.g.chan.sent) (hr : s'.g.chan.rcvd = y.s.g.chan.rcvd)
    (hl : s'.g.live = y.s.g.live) : Before { y with s := s' } := by
  refine ⟨h.nchan, h.out, h.exited, fun u hu => h.stmt u ?_, fun t u ht hu => h.one t u ?_ ?_, fun c => ?_⟩
  · rw [← hl]; exact hu
  · rw [← hl]; exact ht
  · rw [← hl]; exact hu
  · obtain ⟨hg, ht⟩ := h.none c
    constructor
    · show gave s'.g.chan c = []
      rw [← hg, gave, hs, gave]
    · show took s'.g.chan c = []
      rw [← ht, took, hr, took]

theorem sieving_began (hcore : Core y.s) (h : Before y) (hr : Runs y.s.g t) (ha : y.s.g.live a = false)
    (hs : (Sched.code (.taskcreate a)).onHeap y.s = .ok ((), s')) :
    Core s' ∧ Sieving goal { y with
      s := s'
      out := y.out ++ [.goal goal]
      nchan := y.nchan + 1
      place := update (update y.place a ⟨.first y.nchan, false⟩) t ⟨.feed y.nchan 2, false⟩ } 0 [] := by
  obtain ⟨hidle, hlive⟩ := hcore.idle hr
  obtain ⟨hcore', hchan, hlive'⟩ := core_taskcreate hcore (.inr ⟨t, hr⟩) ha hs
  rw [h.nchan]
  obtain ⟨hat, hwait⟩ := hcore.unborn hr ha
  have hcase : ∀ u, s'.g.live u = true → u = t ∨ u = a := by
    intro u hu
    rcases live_created hlive' t hu with hut | hua | ⟨hut, -, hu⟩
    · exact .inl hut
    · exact .inr hua
    · exact absurd (h.one u t hu hlive) hut
  generalize hplace : update (update y.place a _) t _ = place
  obtain ⟨ht, hpa, -⟩ := place_created hplace.symm hat
  have hnone : ∀ c, gave s'.g.chan c = [] ∧ took s'.g.chan c = [] := fun c => by rw [hchan]; exact h.none c
  refine ⟨hcore', ⟨?_, ?_, ⟨(hnone 0).1, fun c => ?_, fun c p hp => ?_⟩, by decide, fun u hu => ?_, fun c _ => hnone c,
    fun u hu => ?_, fun u w d hu hw hru hrw => ?_, fun u w d hu hw hru hrw => ?_, fun u d i hu hpl => ?_, fun p hp => ?_,
    fun he => absurd h.exited he⟩⟩
  · simp
  · simp [h.out]
  · show took s'.g.chan c <+: gave s'.g.chan c
    rw [(hnone c).1, (hnone c).2]
  · cases hp
  · show (place u).stmt.Fits []
    rcases hcase u hu with rfl | rfl
    · rw [ht]
      rfl
    · rw [hpa]
      rfl
  · show Follows s'.g.chan u (place u)
    rw [hchan]
    rcases hcase u hu with rfl | rfl
    · rw [ht]
      exact follows_at hidle ⟨0, rfl, (h.none 0).1⟩
    · rw [hpa]
      exact follows_at hwait (h.none 0).2
  · have hru : (place u).stmt.reads = some d := hru
    have hrw : (place w).stmt.reads = some d := hrw
    rcases hcase u hu with rfl | rfl <;> rcases hcase w hw with rfl | rfl
    · rfl
    · exact absurd hru (by rw [ht]; nofun)
    · exact absurd hrw (by rw [ht]; nofun)
    · rfl
  · have hru : (place u).stmt.writes = some d := hru
    have hrw : (place w).stmt.writes = some d := hrw
    rcases hcase u hu with rfl | rfl <;> rcases hcase w hw with rfl | rfl
    · rfl
    · exact absurd hrw (by rw [hpa]; nofun)
    · exact absurd hru (by rw [hpa]; nofun)
    · rfl
  · have hpl : place u = ⟨.feed d i, true⟩ := hpl
    rcases hcase u hu with rfl | rfl
    · rw [ht] at hpl
      cases hpl
    · rw [hpa] at hpl
      cases hpl
  · cases hp

/-! ## Runs -/

theorem permits_fits (hb : 0 ≤ buffer ∧ buffer < 2 ^ 31) (hmem : Permits buffer) : 8 * buffer < 2 ^ 31 := by
  obtain ⟨b, rfl⟩ := Int.eq_ofNat_of_zero_le hb.1
  obtain ⟨hgranted, hroom⟩ := hmem
  have hsize : Chan.room sizeofUlong b ≤ (Chan.chanbytes sizeofUlong b).toNat := Nat.sub_le _ _
  rw [Chan.room_eq] at hroom hsize
  unfold sizeofUlong Chan.sizeofChannel at *
  split at hroom
  · omega
  · split at hroom <;> split at hsize <;> omega

theorem core_blank (hb : 0 ≤ buffer ∧ buffer < 2 ^ 31) (hmem : Permits buffer) (junk : Nat → Nat → UInt8) (mem : Nat → UInt8) :
    Core (blank buffer junk mem) := by
  have hsizes : Chan.SizesOk fun _ => ((sizeofUlong : Int), buffer) :=
    fun _ => ⟨Int.natCast_nonneg _, by simp [sizeofUlong], hb.1, hb.2⟩
  refine ⟨.init _ _ junk mem hsizes, fun u hu => (by cases hu), Chan.fifo (.init _ junk mem hsizes),
    ⟨fun u b hub => (by cases hub), fun u hu => absurd rfl hu⟩, fun c => ⟨rfl, ?_⟩⟩
  have := permits_fits hb hmem
  show 8 * (buffer % 2 ^ 32).toNat < 2 ^ 31
  omega

theorem before_init (hb : 0 ≤ buffer ∧ buffer < 2 ^ 31) (hmem : Permits buffer) {junk : Nat → Nat → UInt8} {mem : Nat → UInt8}
    (hs : (Sched.code (.taskcreate a)).onHeap (blank buffer junk mem) = .ok ((), s')) : Core s' ∧ Before (main s') := by
  obtain ⟨hcore, hchan, hlive⟩ := core_taskcreate (core_blank hb hmem junk mem) (.inl rfl) rfl hs
  have hone : ∀ u, s'.g.live u = true → u = a := by
    intro u hu
    by_contra hua
    rw [hlive, update_of_ne hua] at hu
    cases hu
  refine ⟨hcore, rfl, rfl, rfl, fun _ _ => rfl, fun t u ht hu => (hone t ht).trans (hone u hu).symm, fun c => ?_⟩
  show gave s'.g.chan c = [] ∧ took s'.g.chan c = []
  rw [hchan]
  exact ⟨rfl, rfl⟩

theorem Did.fed (h : Did goal y y') : ∀ i ∈ y.fed, i ∈ y'.fed := by
  intro i hi
  cases h with
  | called t l c op r1 r2 s' hr hl hcall hs he =>
    rw [he]
    exact List.mem_append_left _ hi
  | scheduled s' hen hs he => rw [he]; exact hi
  | resumed t s' hr hen hs he => rw [he]; exact hi
  | began t a s' hr ha hl hs he => rw [he]; exact hi
  | printed t a c s' hr ha hl hp hs he => rw [he]; exact hi
  | exited t c hr hl hp he => rw [he]; exact hi
  | returned t l l' hr hl hthen he => rw [he]; exact hi

theorem before_step (hcore : Core y.s) (h : Before y) (hd : Did goal y y') :
    Core y'.s ∧ (Before y' ∨ ∃ n ps, Sieving goal y' n ps) := by
  have hmain : ∀ {t}, Runs y.s.g t → y.place t = ⟨.taskmain, false⟩ := fun hr => h.stmt _ (hcore.idle hr).2
  cases hd with
  | scheduled s' hen hs he =>
    obtain ⟨hcore', hc, hl⟩ := core_taskscheduler hcore hen hs
    subst he
    exact ⟨hcore', .inl (h.frame (by rw [hc]) (by rw [hc]) hl)⟩
  | resumed t s' hr hen hs he =>
    obtain ⟨hcore', hc, hl, -⟩ := core_resume hcore hr hen hs
    subst he
    exact ⟨hcore', .inl (h.frame (by rw [hc]) (by rw [hc]) hl)⟩
  | began t a s' hr ha hl hs he =>
    subst he
    obtain ⟨hcore', hy⟩ := sieving_began hcore h hr ha hs
    exact ⟨hcore', .inr ⟨0, [], hy⟩⟩
  -- the others are not at `taskmain`
  | printed t a c s' hr ha hl hp hs he => exact nomatch (hmain hr).symm.trans hl
  | exited t c hr hl hp he => exact nomatch (hmain hr).symm.trans hl
  | called t l c op r1 r2 s' hr hl hcall hs he =>
    obtain rfl : At.taskmain = l := congrArg Place.stmt ((hmain hr).symm.trans hl)
    cases hcall
  | returned t l l' hr hl hthen he => exact nomatch (hmain hr).symm.trans hl

theorem sieving_step (hcore : Core y.s) (h : Sieving goal y n ps) (hx : y.exited = none) (hd : Did goal y y')
    (hfit : ∀ i ∈ y'.fed, i < 2 ^ 31) : Core y'.s ∧ ∃ n ps, Sieving goal y' n ps := by
  have hfit₀ : ∀ i ∈ y.fed, i < 2 ^ 31 := fun i hi => hfit i (hd.fed i hi)
  cases hd with
  | scheduled s' hen hs he =>
    obtain ⟨hcore', -, -⟩ := core_taskscheduler hcore hen hs
    subst he
    exact ⟨hcore', n, ps, sieving_scheduled hcore h hen hs⟩
  | resumed t s' hr hen hs he =>
    obtain ⟨hcore', -, -, -⟩ := core_resume hcore hr hen hs
    subst he
    exact ⟨hcore', n, ps, sieving_resumed hcore h hr hen hs⟩
  | began t a s' hr ha hl hs he =>
    have hfits := h.fits t (hcore.idle hr).2
    rw [hl] at hfits
    exact hfits.elim
  | printed t a c s' hr ha hl hp hs he =>
    subst he
    obtain ⟨hcore', hy⟩ := sieving_printed hcore h hx hr ha hl hp hs
    exact ⟨hcore', n, _, hy⟩
  | exited t c hr hl hp he =>
    subst he
    exact ⟨hcore, n, ps, sieving_exited hcore h hr hl hp⟩
  | called t l c op r1 r2 s' hr hl hcall hs he =>
    subst he
    obtain ⟨hcore', n', hy⟩ := sieving_called hcore h hr hl hcall hs hfit
    exact ⟨hcore', n', ps, hy⟩
  | returned t l l' hr hl hthen he =>
    subst he
    exact ⟨hcore, n, ps, sieving_returned hcore h hr hl hthen hfit₀⟩

theorem inv (hb : 0 ≤ buffer ∧ buffer < 2 ^ 31) (hmem : Permits buffer) (h : Reach goal buffer y)
    (hfit : ∀ i ∈ y.fed, i < 2 ^ 31) : Core y.s ∧ (Before y ∨ ∃ n ps, Sieving goal y n ps) := by
  induction h with
  | init junk mem a s hs =>
    obtain ⟨hcore, hy⟩ := before_init hb hmem hs
    exact ⟨hcore, .inl hy⟩
  | step e _ hs ih =>
    obtain ⟨hx, hd⟩ := did hs
    obtain ⟨hcore, hy | ⟨n, ps, hy⟩⟩ := ih fun i hi => hfit i (hd.fed i hi)
    · exact before_step hcore hy hd
    · obtain ⟨hcore', hy'⟩ := sieving_step hcore hy hx hd hfit
      exact ⟨hcore', .inr hy'⟩

/-- Where `chancreate` gets its memory and the numbers fed fit an `int`: in every run, whatever `rand`
    returned, what was printed when `taskexitall` is called are the primes up to `goal`. -/
theorem prints_primes (hb : 0 ≤ buffer ∧ buffer < 2 ^ 31) (hmem : Permits buffer) (h : Reach goal buffer y)
    (hfit : ∀ i ∈ y.fed, i < 2 ^ 31) (hexit : y.exited ≠ none) :
    y.out = .goal goal :: ((List.range (goal.toNat + 1)).filter Nat.Prime).map fun p => .number p := by
  obtain ⟨-, hy | ⟨n, ps, hy⟩⟩ := inv hb hmem h hfit
  · exact absurd hy.exited hexit
  · obtain ⟨q, hq, hps, hgoal⟩ := hy.exited hexit
    have heq : below (goal.toNat + 1) = below q := by
      symm
      have := hq.two_le
      refine below_eq (by omega) fun p h1 h2 hp => ?_
      have := hy.small p (by rw [hps]; exact mem_below.mpr ⟨h2, hp⟩)
      omega
    show y.out = _ :: (below (goal.toNat + 1)).map _
    rw [heq, ← hps]
    exact hy.out

end

/-! ## A run -/

def Sys.steps (goal : Int) (y : Sys) : List Ev → Except String Sys
  | [] => .ok y
  | e :: es => do
    let y ← y.step goal e
    y.steps goal es

theorem Reach.steps {goal buffer : Int} (es : List Ev) : ∀ {y y' : Sys}, Reach goal buffer y → y.steps goal es = .ok y' →
    Reach goal buffer y' := by
  induction es with
  | nil =>
    intro y y' h hs
    rw [← Except.ok.inj hs]
    exact h
  | cons e es ih =>
    intro y y' h hs
    obtain ⟨y₁, h1, h2⟩ := ok_of_bind hs
    exact ih (.step e h h1) h2

/-- The scheduler resumes a task, which goes on until the next one's turn. -/
def turn (as : List TaskPtr) : List Ev := .taskscheduler :: .resume :: as.map fun a => .run a 0 0

/-- With `goal` 3 and no buffers. -/
def three : Except String Sys := do
  let (_, s) ← (Sched.code (.taskcreate 1)).onHeap (blank 0 (fun _ _ => 0) fun _ => 0)
  let turns := [[2, 3], [3, 3, 4], [4, 4, 4, 4], [4], [4, 4, 4, 4, 4, 4], [4, 5], [5, 5, 5, 5], [5], [5, 5, 5, 5, 5, 5], [5, 5, 5, 5],
    [5, 5, 5, 5], [5]]
  (main s).steps 3 (turns.flatMap turn)

theorem prints_primes_three : ∃ y, Reach 3 0 y ∧ y.exited = some 0 ∧ y.out = [.goal 3, .number 2, .number 3] := by
  have hrun : (match three with | .ok y => some (y.exited, y.fed) | .error _ => none) = some (some 0, [2, 3, 4, 5, 6, 7, 8]) := by
    decide +kernel
  obtain ⟨y, hy⟩ : ∃ y, three = .ok y := by
    cases h : three with
    | ok y => exact ⟨y, rfl⟩
    | error why => rw [h] at hrun; cases hrun
  rw [hy] at hrun
  obtain ⟨hexit, hfed⟩ := Prod.mk.inj (Option.some.inj hrun)
  obtain ⟨s, hs, hsteps⟩ := ok_of_bind hy
  have hreach : Reach 3 0 y := (Reach.init _ _ 1 s.2 hs).steps _ hsteps
  have hout := prints_primes (by decide) ⟨by decide +kernel, by decide +kernel⟩ hreach (by rw [hfed]; decide) (by rw [hexit]; nofun)
  refine ⟨y, hreach, hexit, hout.trans ?_⟩
  decide +kernel

end Libtask.Primes
