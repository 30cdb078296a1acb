import Xv6.Proc.Refinement

/-!
# Tick accounting

The timer charges every tick to one of three counters of each process, in a
critical section of its own. On one CPU the handler is never interleaved with
another step, and the counters of a process add up to its age, up to the ticks it
spent as an `EMBRYO` (`ticks_conserved`). On several CPUs a process may be forked
and dispatched between the tick and the charge: it is then charged a tick that
came before it, and `waitx` reports more running time than turnaround
(`waitx_clamps`). Where no process is charged in the tick it was created in, and
none grows older than an `int` can tell, `waitx` is exact (`waitx_turnaround`).
-/

namespace Xv6

open TransitionSystem

/-- The sum of the counters of a process. -/
def Life.charged (x : Life) : UInt32 := x.rtime + x.stime + x.retime

theorem Life.charged_charge {x : Life} (hx : x.state.live) : x.charge.charged = x.charged + 1 := by
  obtain ⟨s, ct, et, rt, st, re⟩ := x
  cases s with
  | unused | embryo | zombie => cases hx
  | sleeping | runnable | running => simp only [Life.charge, Life.charged]; grind

theorem Life.charge_of_not_live {x : Life} (hx : x.state.live = false) : x.charge = x := by
  obtain ⟨s, ct, et, rt, st, re⟩ := x
  cases s with
  | unused | embryo | zombie => rfl
  | sleeping | runnable | running => cases hx

theorem Life.state_charge (x : Life) : x.charge.state = x.state := by
  obtain ⟨s, ct, et, rt, st, re⟩ := x
  cases s <;> rfl

theorem Life.ctime_charge (x : Life) : x.charge.ctime = x.ctime := by
  obtain ⟨s, ct, et, rt, st, re⟩ := x
  cases s <;> rfl

/-- The counters of a life agree with the clock, of which `due` ticks are not
    charged yet; `E` ticks passed while it was an `EMBRYO`, which it still is,
    with its times set, if `born`. -/
structure Life.Balanced (now due E : UInt32) (born : Prop) (x : Life) : Prop where
  live : x.state.live → x.charged + E + due = now - x.ctime
  zombie : x.state = .zombie → x.charged + E = x.etime - x.ctime
  born : born → x.state = .embryo ∧ x.charged = 0 ∧ E = now - x.ctime

namespace Life.Balanced

variable {now due E : UInt32} {born born' : Prop} {x x' : Life} {e : Event}

theorem tick (h : x.Balanced now 0 E born) :
    x.Balanced (now + 1) 1 (if x.state = .embryo then E + 1 else E) born := by
  refine ⟨fun hx => ?_, fun hx => ?_, fun hb => ?_⟩
  · have := h.live hx
    rw [if_neg (fun he => by rw [he] at hx; cases hx)]
    grind
  · have := h.zombie hx
    rw [if_neg (by rw [hx]; nofun)]
    exact this
  · obtain ⟨hx, h0, hE⟩ := h.born hb
    rw [if_pos hx]
    exact ⟨hx, h0, by grind⟩

theorem charge (h : x.Balanced now 1 E born) : x.charge.Balanced now 0 E born := by
  have hstate := x.state_charge
  refine ⟨fun hx => ?_, fun hx => ?_, fun hb => ?_⟩
  · rw [hstate] at hx
    have := h.live hx
    rw [charged_charge hx, ctime_charge]
    grind
  · rw [hstate] at hx
    rw [charge_of_not_live (by rw [hx]; rfl)]
    exact h.zombie hx
  · obtain ⟨hx, h0, hE⟩ := h.born hb
    rw [charge_of_not_live (by rw [hx]; rfl)]
    exact ⟨hx, h0, hE⟩

theorem mono (h : x.Balanced now due E born) (hb : born' → born) : x.Balanced now due E born' :=
  ⟨h.live, h.zombie, fun hx => h.born (hb hx)⟩

/-- The other events: nothing is due when a process starts or exits. -/
theorem step (h : x.Balanced now due E born) (hs : Step now e x x') (he : e ≠ .charge)
    (hborn : born' → x'.state = .embryo ∧ (born ∨ e = .stamp))
    (hstart : e = .start → born ∧ due = 0) (hexit : e = .exit → due = 0) :
    x'.Balanced now due (if e = .stamp then 0 else E) born' := by
  -- A life that goes on as an `EMBRYO`, or is not one, in the new state.
  have hkeep : born' → e ≠ .stamp → x'.charged = x.charged → x'.ctime = x.ctime →
      x'.state = .embryo ∧ x'.charged = 0 ∧ E = now - x'.ctime := fun hb he hc ht => by
    obtain ⟨hx', hb | hb⟩ := hborn hb
    · obtain ⟨-, h0, hE⟩ := h.born hb
      exact ⟨hx', hc.trans h0, by rw [ht]; exact hE⟩
    · exact absurd hb he
  cases hs with
  | keep => exact ⟨h.live, h.zombie, fun hb => hkeep hb nofun rfl rfl⟩
  | move hx hs =>
    refine ⟨fun _ => h.live hx, fun hz => ?_, fun hb => hkeep hb nofun rfl rfl⟩
    obtain rfl : _ = Procstate.zombie := hz
    cases hs
  | alloc => exact ⟨nofun, nofun, fun hb => hkeep hb nofun rfl rfl⟩
  | stamp hx =>
    refine ⟨fun hl => ?_, fun hz => ?_, fun _ => ⟨hx, rfl, ?_⟩⟩
    · rw [hx] at hl; cases hl
    · rw [hx] at hz; cases hz
    · rw [if_pos rfl]; grind
  | drop => exact ⟨nofun, nofun, fun hb => hkeep hb nofun rfl rfl⟩
  | start hx =>
    obtain ⟨hb, hdue⟩ := hstart rfl
    obtain ⟨-, h0, hE⟩ := h.born hb
    refine ⟨fun _ => ?_, nofun, fun hb => hkeep hb nofun rfl rfl⟩
    rw [if_neg nofun]
    change x.charged + E + due = now - x.ctime
    rw [h0, hE, hdue]
    grind
  | exit hx =>
    refine ⟨nofun, fun _ => ?_, fun hb => hkeep hb nofun rfl rfl⟩
    have := h.live (by rw [hx]; rfl)
    rw [hexit rfl] at this
    rw [if_neg nofun]
    change x.charged + E = now - x.ctime
    grind
  | reap => exact ⟨nofun, nofun, fun hb => hkeep hb nofun rfl rfl⟩
  | charge => exact absurd rfl he

end Life.Balanced

namespace Machine

variable {n : ℕ} {m m' : Machine n} {c : Fin n} {p q : Slot} {a : Act}

/-- The ghost that counts, for every slot, the ticks since `allocproc` set its
    times, while its process is in a state of `P`. -/
def ticksIn (P : Procstate → Bool) (m : Machine n) (a : Fin n × Act) (_ : Machine n)
    (g : Slot → ℕ) (q : Slot) : ℕ :=
  if m.stamps a.1 a.2 = some q then 0
  else if m.beat a.1 a.2 = .tick ∧ P (m.ptable q).state then g q + 1
  else g q

/-- The runs of the kernel, with the ticks every slot has spent in the states of `P`. -/
def counting (n : ℕ) (P : Procstate → Bool) :
    TransitionSystem (Machine n × (Slot → ℕ)) (Fin n × Act) :=
  (machine n).withGhost (fun _ _ => 0) (ticksIn P)

theorem counting_init (P : Procstate → Bool) :
    (counting n P).init (boot n 0 0 0, fun _ => 0) := ⟨⟨0, 0, 0, rfl⟩, rfl⟩

/-- What the timer handler owes the counters. -/
def due (m : Machine n) : UInt32 := if m.Pending then 1 else 0

/-! ## One CPU -/

section Conservation

variable {m m' : Machine 1} {g : Slot → ℕ} {c : Fin 1}

/-- Every life is balanced. -/
structure Conserved (x : Machine 1 × (Slot → ℕ)) : Prop where
  inv : x.1.Inv
  clock : x.1.Clock
  balanced : ∀ q,
    (x.1.ptable q).life.Balanced x.1.ticks x.1.due (.ofNat (x.2 q)) (x.1.Born q)

theorem due_of_intr (hc : (m.cpu c).intr = none ∨ (m.cpu c).intr = some .preempt) : m.due = 0 := by
  refine if_neg ?_
  rintro ⟨c', hc'⟩
  rw [Subsingleton.elim c' c] at hc'
  obtain hc | hc := hc <;> rw [hc] at hc' <;> cases hc'

theorem conserved_of_step {x y : Machine 1 × (Slot → ℕ)} {c : Fin 1} (hx : Conserved x)
    (hs : x.1.step (c, a) = some y.1)
    (hg : y.2 = ticksIn (· = .embryo) x.1 (c, a) y.1 x.2) : Conserved y := by
  obtain ⟨m, g⟩ := x
  obtain ⟨m', g'⟩ := y
  dsimp only at hs hg
  have hm := moves_of_step hs
  have hinv := inv_of_step hx.inv hs
  obtain ⟨hclock, hbeat⟩ := clock_of_moves hx.inv hx.clock hm
  refine ⟨hinv, hclock, fun q => ?_⟩
  obtain ⟨e, he⟩ := exists_lives hx.inv hm q
  have h := hx.balanced q
  have hborn : m'.Born q → m.Born q ∨ e = .stamp := fun hb =>
    (born_of_moves hm hb).imp_right he.stamp.2
  -- The ghost, by the event of the slot.
  have hE : UInt32.ofNat (g' q) = if e = .stamp then 0
      else if m.beat c a = .tick ∧ (m.ptable q).state = .embryo then .ofNat (g q) + 1
      else .ofNat (g q) := by
    simp only [hg, ticksIn, he.stamp, decide_eq_true_eq]
    split_ifs <;> simp
  dsimp only at h ⊢
  rw [hE]
  cases hb : m.beat c a with
  | tick =>
    rw [hb] at hbeat
    cases hbeat with
    | tick hp hp' ht =>
      obtain rfl := he.tick hb
      rw [due, if_neg hp] at h
      rw [due, if_pos hp', ht, he.step.eq_of_keep, if_neg nofun]
      convert h.tick.mono fun hb => (hborn hb).resolve_right nofun using 1
      by_cases hx : (m.ptable q).state = .embryo <;> simp [hx]
  | charge =>
    rw [hb] at hbeat
    cases hbeat with
    | charge hp hp' ht =>
      obtain rfl := he.charge.2 hb
      rw [due, if_pos hp] at h
      rw [due, if_neg hp', ht, he.step.eq_of_charge, if_neg nofun]
      simpa using h.charge.mono fun hb => (hborn hb).resolve_right nofun
  | rest =>
    rw [hb] at hbeat
    cases hbeat with
    | rest hp ht =>
      have hdue : m'.due = m.due := by simp only [due, hp]
      rw [ht, hdue]
      have he' : e ≠ .charge := fun h => by rw [he.charge.1 h] at hb; cases hb
      have hintr := fun h => due_of_intr (he.intr h)
      have hborn' : m'.Born q → _ ∧ _ := fun hb => ⟨state_of_born hinv hb, hborn hb⟩
      simpa using h.step he.step he' hborn'
        (fun h => ⟨he.start h, hintr (.inr (.inl h))⟩) (fun h => hintr (.inr (.inr h)))

theorem conserved_of_reachable {x : Machine 1 × (Slot → ℕ)}
    (hx : (counting 1 (· = .embryo)).Reachable Any x) :
    Conserved x := by
  refine hx.invariant (I := Conserved) ?_ fun x a y h _ hs => ?_
  · rintro ⟨m, g⟩ ⟨⟨kstack, pgdir, root, rfl⟩, hg⟩
    obtain rfl : g = fun _ => 0 := hg
    refine ⟨inv_boot kstack pgdir root, clock_boot kstack pgdir root, fun q => ?_⟩
    rw [due_of_intr (c := 0) (.inl rfl), life_boot, boot_ticks]
    refine ⟨fun _ => by simp [Life.charged], fun hz => ?_, fun hb => ?_⟩
    · dsimp only at hz
      split_ifs at hz
    · exact absurd hb (not_born_boot kstack pgdir root q)
  · obtain ⟨hs, hg⟩ := withGhost_step.1 hs
    exact conserved_of_step h hs hg

/-- On one CPU, in every reachable state, the counters of a process and the ticks
    it spent as an `EMBRYO` since `allocproc` set its times add up to its age, or
    to its turnaround once it is a zombie, modulo `2 ^ 32`. A tick the timer
    handler is still to charge is not counted. -/
theorem ticks_conserved {m : Machine 1} {embryo : Slot → ℕ}
    (hm : (counting 1 (· = .embryo)).Reachable Any (m, embryo))
    (hi : ¬ m.Pending) (q : Slot) :
    ((m.ptable q).state.live → (m.ptable q).rtime + (m.ptable q).stime + (m.ptable q).retime +
      .ofNat (embryo q) = m.ticks - (m.ptable q).ctime) ∧
    ((m.ptable q).state = .zombie → (m.ptable q).rtime + (m.ptable q).stime +
      (m.ptable q).retime + .ofNat (embryo q) = (m.ptable q).etime - (m.ptable q).ctime) := by
  have h := (conserved_of_reachable hm).balanced q
  refine ⟨fun hq => ?_, h.zombie⟩
  have hlive := h.live hq
  rwa [due, if_neg hi, UInt32.add_zero] at hlive

/-- A run in which a tick comes while a process is forked, and another one when
    it is `RUNNABLE`. -/
def forkAcrossTick : List (Fin 1 × Act) :=
  [.schedule, .scan, .resume, .allocproc, .kalloc (some 1), .timer, .intr, .intr, .intr,
    .scan, .schedule, .scan, .resume, .copyuvm (some 2), .ready, .timer, .intr, .intr].map (0, ·)

theorem ticks_conserved_forkAcrossTick : ∃ (m : Machine 1) (embryo : Slot → ℕ),
    (counting 1 (· = .embryo)).Reachable Any (m, embryo) ∧
      ¬ m.Pending ∧ (m.ptable 1).state = .runnable ∧ embryo 1 = 1 ∧ (m.ptable 1).retime = 1 ∧
      (m.ptable 1).rtime + (m.ptable 1).stime + (m.ptable 1).retime + .ofNat (embryo 1) =
        m.ticks - (m.ptable 1).ctime := by
  obtain ⟨⟨m, embryo⟩, hm, hP⟩ := exists_reachable (counting_init (· = .embryo))
    (show (exec _ Any _ forkAcrossTick).any (fun x => decide (¬ x.1.Pending ∧
      (x.1.ptable 1).state = .runnable ∧ x.2 1 = 1 ∧ (x.1.ptable 1).retime = 1)) by decide +kernel)
  obtain ⟨hi, hs, he, hr⟩ := of_decide_eq_true hP
  exact ⟨m, embryo, hm, hi, hs, he, hr,
    (ticks_conserved hm hi 1).1 (by rw [hs]; rfl)⟩

end Conservation

end Machine

/-! ## Several CPUs -/

/-- A life of `age` ticks, which it did not spend running but for some of them;
    it has not been charged for the last one if `pending`. -/
structure Life.Dated (now : UInt32) (age : ℕ) (pending : Prop) (x : Life) : Prop where
  since : now - x.ctime = .ofNat age
  run : ∃ r, x.rtime = .ofNat r ∧ r ≤ age ∧ (pending → 0 < age → r < age)
  zombie : x.state = .zombie →
    ∃ r t, x.rtime = .ofNat r ∧ x.etime - x.ctime = .ofNat t ∧ r ≤ t ∧ t < 2 ^ 31

namespace Life.Dated

variable {now : UInt32} {age : ℕ} {pending : Prop} {x x' : Life} {e : Event}

theorem tick (h : x.Dated now age False) : x.Dated (now + 1) (age + 1) True := by
  obtain ⟨r, hr, hle, -⟩ := h.run
  refine ⟨?_, ⟨r, hr, by omega, fun _ _ => by omega⟩, h.zombie⟩
  rw [UInt32.ofNat_add, ← h.since]
  grind

/-- A process that was created in the current tick must not be charged for it. -/
theorem charge (h : x.Dated now age True) (hx : x.state = .running → x.ctime ≠ now) :
    x.charge.Dated now age False := by
  obtain ⟨r, hr, hle, hlt⟩ := h.run
  by_cases hs : x.state = .running
  · have hage : 0 < age := by
      refine Nat.pos_of_ne_zero fun h0 => hx hs ?_
      have := h.since
      rw [h0] at this
      grind
    have hc : x.charge = { x with rtime := x.rtime + 1 } := by simp only [Life.charge, hs]
    rw [hc]
    refine ⟨h.since, ⟨r + 1, ?_, hlt trivial hage, nofun⟩, fun hz => ?_⟩
    · rw [hr, UInt32.ofNat_add]; rfl
    · rw [show x.state = _ from hz] at hs; cases hs
  · have hc : x.charge.rtime = x.rtime ∧ x.charge.etime = x.etime ∧ x.charge.ctime = x.ctime ∧
        x.charge.state = x.state := by
      obtain ⟨s, ct, et, rt, st, re⟩ := x
      cases s <;> first | exact absurd rfl hs | exact ⟨rfl, rfl, rfl, rfl⟩
    obtain ⟨h₁, h₂, h₃, h₄⟩ := hc
    refine ⟨by rw [h₃, h.since], ⟨r, by rw [h₁, hr], hle, nofun⟩, fun hz => ?_⟩
    rw [h₁, h₂, h₃]
    exact h.zombie (h₄ ▸ hz)

/-- The other events, of a process that exits in time. -/
theorem step (h : x.Dated now age pending) (hs : Step now e x x') (he : e ≠ .charge)
    (hexit : e = .exit → age < 2 ^ 31) :
    x'.Dated now (if e = .stamp then 0 else age) pending := by
  cases hs with
  | keep => exact h
  | move hx hs =>
    refine ⟨h.since, h.run, fun hz => ?_⟩
    obtain rfl : _ = Procstate.zombie := hz
    cases hs
  | alloc => exact ⟨h.since, h.run, nofun⟩
  | stamp hx =>
    refine ⟨?_, ⟨0, rfl, le_rfl, fun _ h0 => absurd h0 (by simp)⟩, fun hz => ?_⟩
    · simp
    · rw [show x.state = _ from hz] at hx; cases hx
  | drop => exact ⟨h.since, h.run, nofun⟩
  | start => exact ⟨h.since, h.run, nofun⟩
  | exit hx =>
    obtain ⟨r, hr, hle, -⟩ := h.run
    exact ⟨h.since, h.run, fun _ => ⟨r, age, hr, h.since, hle, hexit rfl⟩⟩
  | reap => exact ⟨h.since, h.run, nofun⟩
  | charge => exact absurd rfl he

end Life.Dated

namespace Machine

variable {n : ℕ} {m m' : Machine n} {c : Fin n} {p q : Slot} {a : Act}

/-- The condition on a step that no process is charged for the tick it was
    created in, and none exits `2 ^ 31` ticks or more after its creation. -/
def Timely (x : Machine n × (Slot → ℕ)) (a : Fin n × Act) : Prop :=
  (x.1.beat a.1 a.2 = .charge →
    ∀ q, (x.1.ptable q).state = .running → (x.1.ptable q).ctime ≠ x.1.ticks) ∧
  (a.2 = .exit → ∀ p, (x.1.cpu a.1).proc = some p → x.2 p < 2 ^ 31)

instance (x : Machine n × (Slot → ℕ)) (a : Fin n × Act) : Decidable (Timely x a) :=
  inferInstanceAs (Decidable (_ ∧ _))

/-- Every life is dated. -/
structure Aged (x : Machine n × (Slot → ℕ)) : Prop where
  inv : x.1.Inv
  clock : x.1.Clock
  dated : ∀ q, (x.1.ptable q).life.Dated x.1.ticks (x.2 q) x.1.Pending

theorem aged_of_step {x y : Machine n × (Slot → ℕ)} (hx : Aged x) (ht : Timely x (c, a))
    (hs : x.1.step (c, a) = some y.1)
    (hg : y.2 = ticksIn (fun _ => true) x.1 (c, a) y.1 x.2) : Aged y := by
  obtain ⟨m, g⟩ := x
  obtain ⟨m', g'⟩ := y
  dsimp only at hs hg
  have hm := moves_of_step hs
  obtain ⟨hclock, hbeat⟩ := clock_of_moves hx.inv hx.clock hm
  refine ⟨inv_of_step hx.inv hs, hclock, fun q => ?_⟩
  obtain ⟨e, he⟩ := exists_lives hx.inv hm q
  have h := hx.dated q
  have hage : g' q = if e = .stamp then 0 else if m.beat c a = .tick then g q + 1 else g q := by
    simp only [hg, ticksIn, he.stamp, and_true]
  dsimp only at h ⊢
  rw [hage]
  cases hb : m.beat c a with
  | tick =>
    rw [hb] at hbeat
    cases hbeat with
    | tick hp hp' hticks =>
      obtain rfl := he.tick hb
      rw [eq_false hp] at h
      rw [eq_true hp', hticks, he.step.eq_of_keep]
      simpa using h.tick
  | charge =>
    rw [hb] at hbeat
    cases hbeat with
    | charge hp hp' hticks =>
      obtain rfl := he.charge.2 hb
      rw [eq_true hp] at h
      rw [eq_false hp', hticks, he.step.eq_of_charge]
      simpa using h.charge (ht.1 hb q)
  | rest =>
    rw [hb] at hbeat
    cases hbeat with
    | rest hp hticks =>
      rw [propext hp, hticks]
      have he' : e ≠ .charge := fun h => by rw [he.charge.1 h] at hb; cases hb
      simpa using h.step he.step he' fun h => ht.2 (he.exit h).1 q (he.exit h).2

theorem aged_of_reachable {x : Machine n × (Slot → ℕ)}
    (hx : (counting n fun _ => true).Reachable Timely x) : Aged x := by
  refine hx.invariant (I := Aged) ?_ fun x a y h ht hs => ?_
  · rintro ⟨m, g⟩ ⟨⟨kstack, pgdir, root, rfl⟩, hg⟩
    obtain rfl : g = fun _ => 0 := hg
    refine ⟨inv_boot kstack pgdir root, clock_boot kstack pgdir root, fun q => ?_⟩
    rw [life_boot, boot_ticks]
    refine ⟨by simp, ⟨0, rfl, le_rfl, fun _ h => h⟩, fun hz => ?_⟩
    dsimp only at hz
    split_ifs at hz
  · obtain ⟨hs, hg⟩ := withGhost_step.1 hs
    exact aged_of_step h ht hs hg

/-! ### What `waitx` reports -/

/-- The step of `a` on `c` is a round of the loop of `waitx`, called by `p`. -/
def InWaitx (m : Machine n) (c : Fin n) (a : Act) (p : Slot) : Prop :=
  (m.cpu c).proc = some p ∧
    (a = .waitx true true ∨ a = .resume ∧ (m.ptable p).context = .waitx)

instance (m : Machine n) (c : Fin n) (a : Act) (p : Slot) : Decidable (m.InWaitx c a p) :=
  inferInstanceAs (Decidable (_ ∧ (_ ∨ _)))

/-- The child that a round of `wait` or `waitx` frees, and what it stores in the caller. -/
theorem waitLoop_of_reap {k : Pass} {ctx : Context} {store : Proc → Proc → Proc}
    (hp : (m.ptable p).state = .running) (hstore : ∀ q r, (store q r).state = r.state)
    (hz : (m.ptable q).state = .zombie)
    (hu : ((m.waitLoop c p k ctx store).ptable q).state = .unused) :
    (m.waitLoop c p k ctx store).ptable p =
      { store (m.ptable q) (m.ptable p) with eax := (m.ptable q).pid } := by
  have hqp : q ≠ p := fun e => by rw [e, hp] at hz; cases hz
  unfold Machine.waitLoop at hu ⊢
  split at hu
  · rename_i r hr
    rw [release_toKernel, state_ret,
      onProc_toKernel, modify_ptable, state_modify (hstore _), onProc_toKernel,
      modify_ptable] at hu
    obtain rfl : q = r := by
      by_contra hqr
      rw [modify_of_ne _ _ hqr, hz] at hu
      cases hu
    dsimp only
    rw [release_toKernel, ret_toKernel, modify_ptable, modify_self, onProc_toKernel,
      modify_ptable, modify_self, onProc_toKernel, modify_ptable, modify_of_ne _ _ hqp.symm]
  · split_ifs at hu
    · rw [release_toKernel, state_ret, hz] at hu
      cases hu
    · rw [Machine.sleep, sched_toKernel, onProc_toKernel, modify_ptable, modify_of_ne _ _ hqp,
        hz] at hu
      cases hu

theorem waitx_of_reap {k : Pass} (hp : (m.ptable p).state = .running)
    (hz : (m.ptable q).state = .zombie) (hu : ((m.waitx c p k).ptable q).state = .unused) :
    ((m.waitx c p k).ptable p).wtimeOut = (m.ptable q).waitxTimes.1 ∧
      ((m.waitx c p k).ptable p).rtimeOut = (m.ptable q).waitxTimes.2 := by
  have h : (m.waitLoop c p k .waitx waitxStore).ptable p = _ :=
    waitLoop_of_reap hp (fun _ _ => rfl) hz hu
  rw [waitx, h]
  exact ⟨rfl, rfl⟩

/-- A round of `waitx` that frees `q` stores the times of `q` in its caller. -/
theorem stores_of_reap (h : m.Inv) (hm : m.Moves c a m') (hw : m.InWaitx c a p)
    (hz : (m.ptable q).state = .zombie) (hu : (m'.ptable q).state = .unused) :
    (m'.ptable p).wtimeOut = (m.ptable q).waitxTimes.1 ∧
      (m'.ptable p).rtimeOut = (m.ptable q).waitxTimes.2 := by
  obtain ⟨hc, hw⟩ := hw
  have hrun := h.onCpu.running c p hc
  have hqp : q ≠ p := fun e => by rw [e, hrun] at hz; cases hz
  cases hm with
  | waitx _ hp =>
    obtain rfl := Option.some.inj ((h.of_calls hp).1.symm.trans hc)
    exact waitx_of_reap hrun hz hu
  | @resume p' k hp hk =>
    obtain rfl := Option.some.inj (hp.symm.trans hc)
    obtain ⟨-, hctx⟩ := hw.resolve_left nofun
    -- The sleeper forgets its channel, and makes another round.
    have hq : (m.onProc p' fun x => { x with chan := none }).ptable q = m.ptable q := by
      rw [onProc_toKernel, modify_ptable, modify_of_ne _ _ hqp]
    have hp' : ((m.onProc p' fun x => { x with chan := none }).ptable p').state = .running :=
      (state_modify (fun _ => by rfl) m.ptable p' p').trans hrun
    simp only [resume, hctx] at hu ⊢
    rw [← hq] at hz ⊢
    exact waitx_of_reap hp' hz hu
  | waitxNull _ hn => rcases hn with rfl | rfl <;> simp at hw
  | _ => simp at hw

/-- The clamp of `waitx` does not fire on a process that ran for at most as long
    as it lived. -/
theorem waitxTimes_add {x : Proc} {r t : ℕ} (hr : x.rtime = .ofNat r)
    (ht : x.etime - x.ctime = .ofNat t) (hle : r ≤ t) (hlt : t < 2 ^ 31) :
    x.waitxTimes.2 + x.waitxTimes.1 = (x.etime - x.ctime).toInt32 := by
  have hwt : x.etime.toInt32 - x.ctime.toInt32 - x.rtime.toInt32 = Int32.ofNat (t - r) := by
    rw [← UInt32.toInt32_sub, ← UInt32.toInt32_sub, ht, hr, ← UInt32.ofNat_sub hle,
      UInt32.toInt32_ofNat']
  have hnn : ¬ Int32.ofNat (t - r) < 0 := by
    rw [Int32.lt_iff_toInt_lt, Int32.toInt_ofNat_of_lt (by omega), Int32.toInt_zero]
    omega
  simp only [Proc.waitxTimes, hwt, if_neg hnn]
  rw [← hwt, UInt32.toInt32_sub]
  grind

/-- In every run in which no process is charged for the tick it was created in,
    and none exits `2 ^ 31` ticks or more after its creation, the times `waitx`
    stores when it frees a child add up to the turnaround of the child. -/
theorem waitx_turnaround {age : Slot → ℕ}
    (hm : (counting n fun _ => true).Reachable Timely (m, age)) (hs : m.step (c, a) = some m')
    (hw : m.InWaitx c a p) (hz : (m.ptable q).state = .zombie)
    (hu : (m'.ptable q).state = .unused) :
    (m'.ptable p).rtimeOut + (m'.ptable p).wtimeOut =
      ((m.ptable q).etime - (m.ptable q).ctime).toInt32 := by
  have h := aged_of_reachable hm
  obtain ⟨hwt, hrt⟩ := stores_of_reap h.inv (moves_of_step hs) hw hz hu
  obtain ⟨r, t, hr, ht, hle, hlt⟩ := (h.dated q).zombie hz
  rw [hwt, hrt]
  exact waitxTimes_add hr ht hle hlt

/-- A child is forked and, once it runs, charged a tick; it exits and is waited for. -/
def runOneTick : List (Fin 2 × Act) :=
  [(1, .schedule), (1, .scan), (1, .resume), (1, .allocproc), (1, .kalloc (some 1)),
    (1, .copyuvm (some 2)), (1, .ready), (1, .waitx true true), (1, .scan), (1, .resume),
    (0, .timer), (0, .intr), (0, .intr), (0, .intr), (1, .exit), (1, .scan), (1, .schedule),
    (1, .scan)]

theorem waitx_turnaround_runOneTick : ∃ (m m' : Machine 2) (age : Slot → ℕ),
    (counting 2 fun _ => true).Reachable Timely (m, age) ∧ m.step (1, .resume) = some m' ∧
    m.InWaitx 1 .resume 0 ∧ (m.ptable 1).state = .zombie ∧ (m'.ptable 1).state = .unused ∧
    (m.ptable 1).rtime = 1 ∧ (m'.ptable 0).rtimeOut + (m'.ptable 0).wtimeOut =
      ((m.ptable 1).etime - (m.ptable 1).ctime).toInt32 := by
  obtain ⟨⟨m, age⟩, ⟨m', _⟩, hm, hs, hP⟩ := exists_reachable_step (a := (1, .resume))
    (counting_init fun _ => true) (show (exec _ Timely _ runOneTick).any (fun x =>
      ((counting 2 fun _ => true).step x _).any fun y => decide (x.1.InWaitx 1 .resume 0 ∧
        (x.1.ptable 1).state = .zombie ∧
        (y.1.ptable 1).state = .unused ∧ (x.1.ptable 1).rtime = 1)) by decide +kernel)
  obtain ⟨hw, hz, hu, hr⟩ := of_decide_eq_true hP
  have hs : m.step (1, .resume) = some m' := (withGhost_step.1 hs).1
  exact ⟨m, m', age, hm, hs, hw, hz, hu, hr, waitx_turnaround hm hs hw hz hu⟩

/-- Two CPUs, of which CPU 0 takes a timer interrupt while CPU 1 forks: the tick
    comes before the child gets its times, and is charged when the child runs. -/
def chargeNewborn : List (Fin 2 × Act) :=
  [(1, .schedule), (1, .scan), (1, .resume), (1, .allocproc), (0, .timer), (1, .kalloc (some 1)),
    (1, .copyuvm (some 2)), (1, .ready), (1, .waitx true true), (1, .scan), (1, .resume),
    (0, .intr), (0, .intr), (0, .intr), (1, .exit), (1, .scan), (1, .schedule), (1, .scan)]

/-- The child is charged a tick and exits in the tick it was created in: `waitx`
    reports a running time of `1`, of a turnaround of `0`, and clamps the waiting
    time. -/
theorem waitx_clamps : ∃ m m' : Machine 2, (machine 2).Reachable Any m ∧
    m.step (1, .resume) = some m' ∧ m.InWaitx 1 .resume 0 ∧
    (m.ptable 1).state = .zombie ∧ (m'.ptable 1).state = .unused ∧
    (m'.ptable 0).rtimeOut = 1 ∧ (m'.ptable 0).wtimeOut = 0 ∧
    ((m.ptable 1).etime - (m.ptable 1).ctime).toInt32 = 0 := by
  obtain ⟨m, m', hm, hs, hP⟩ := exists_reachable_step (S := machine 2) (a := (1, .resume))
    ⟨0, 0, 0, rfl⟩
    (show (exec _ Any _ chargeNewborn).any (fun m => ((machine 2).step m _).any fun m' =>
      decide (m.InWaitx 1 .resume 0 ∧ (m.ptable 1).state = .zombie ∧
        (m'.ptable 1).state = .unused ∧ (m'.ptable 0).rtimeOut = 1 ∧
        (m'.ptable 0).wtimeOut = 0 ∧ ((m.ptable 1).etime - (m.ptable 1).ctime).toInt32 = 0))
      by decide +kernel)
  exact ⟨m, m', hm, hs, of_decide_eq_true hP⟩

end Machine

end Xv6
