import Xv6.Proc.Refinement
import Xv6.Proc.Switch

/-!
# First come, first served

The FCFS branch orders the processes by `ctime`, the tick of their creation, and
by slot within a tick. This is the order of their `allocproc` calls as long as
slots are handed out in increasing order within a tick, and times in the order of
the calls (`fcfs_first_come`); a slot that is freed and taken again in the tick
breaks it (`fcfs_last_come`). On one CPU, under FCFS, no process runs before an
older one that is ready (`fcfs_dispatch_le`).
-/

namespace Xv6

open TransitionSystem

namespace Machine

variable {n : ℕ} {m m' : Machine n} {c : Fin n} {p q : Slot} {a : Act}

/-! ## The order of creation -/

/-- The order of the `allocproc` calls: the number of steps made so far and, for
    every slot, the step in which it was last taken. -/
structure Births where
  clock : ℕ := 1
  birth : Slot → ℕ := fun _ => 0

/-- The ghost that records the `allocproc` calls. -/
def Births.update (m : Machine n) (_ : Fin n × Act) (m' : Machine n) (g : Births) : Births where
  clock := g.clock + 1
  birth q := if (m.ptable q).state = .unused ∧ (m'.ptable q).state = .embryo then g.clock
    else g.birth q

/-- The runs of the kernel, with the order of the `allocproc` calls. -/
def recording (n : ℕ) : TransitionSystem (Machine n × Births) (Fin n × Act) :=
  (machine n).withGhost (fun _ => {}) Births.update

/-- The slot `q` holds a process that has its times, and did not exit. -/
def Active (m : Machine n) (q : Slot) : Prop := (m.ptable q).state.live ∨ m.Born q

/-- The condition on a step that `ticks` does not wrap around and that, when a new
    process gets its `ctime`, nobody created after it has an earlier one, and
    those that have the same are in lower slots if they were created before it and
    in higher ones otherwise. -/
def Orderly (x : Machine n × Births) (a : Fin n × Act) : Prop :=
  (x.1.beat a.1 a.2 = .tick → x.1.ticks + 1 ≠ 0) ∧
  ∀ np, x.1.stamps a.1 a.2 = some np → ∀ q, q ≠ np → x.1.Active q →
    (x.2.birth np < x.2.birth q → (x.1.ptable q).ctime = x.1.ticks) ∧
    ((x.1.ptable q).ctime = x.1.ticks → (q < np ↔ x.2.birth q < x.2.birth np))

instance (m : Machine n) (q : Slot) : Decidable (m.Active q) := inferInstanceAs (Decidable (_ ∨ _))

instance (x : Machine n × Births) (a : Fin n × Act) : Decidable (Orderly x a) :=
  inferInstanceAs (Decidable (_ ∧ _))

/-- The processes are ordered by their creation. -/
structure Ordered (x : Machine n × Births) : Prop where
  inv : x.1.Inv
  clock : x.1.Clock
  birth_lt : ∀ q, x.2.birth q < x.2.clock
  unique : ∀ p q, (x.1.ptable p).state ≠ .unused → (x.1.ptable q).state ≠ .unused →
    x.2.birth p = x.2.birth q → p = q
  ctime_le : ∀ q, x.1.Active q → (x.1.ptable q).ctime ≤ x.1.ticks
  before : ∀ p q, x.1.Active p → x.1.Active q → x.2.birth p < x.2.birth q →
    Before x.1.ptable p q

theorem recording_init (n : ℕ) : (recording n).init (boot n 0 0 0, {}) := ⟨⟨0, 0, 0, rfl⟩, rfl⟩

theorem state_ne_of_active (h : m.Inv) (hq : m.Active q) : (m.ptable q).state ≠ .unused := by
  intro hs
  rcases hq with hq | hq
  · rw [hs] at hq; cases hq
  · rw [state_of_born h hq] at hs; cases hs

/-- A process that is active after a step was so before, or just got its times. -/
theorem active_of_moves (h : m.Inv) (hm : m.Moves c a m') (hq : m'.Active q) :
    m.Active q ∧ (m'.ptable q).ctime = (m.ptable q).ctime ∨
      m.stamps c a = some q ∧ (m'.ptable q).ctime = m.ticks := by
  obtain ⟨e, he⟩ := exists_lives h hm q
  have hctime : (m'.ptable q).ctime = if e = .stamp then m.ticks else (m.ptable q).ctime :=
    he.step.ctime_eq
  by_cases hs : e = .stamp
  · exact .inr ⟨he.stamp.1 hs, by rw [hctime, if_pos hs]⟩
  · rw [if_neg hs] at hctime
    refine .inl ⟨?_, hctime⟩
    rcases hq with hq | hq
    · exact (he.step.live_or_start hq).imp_right he.start
    · exact .inr ((born_of_moves hm hq).resolve_right fun h => hs (he.stamp.2 h))

/-- The birth of a slot in use does not change. -/
theorem birth_update {g : Births} (hq : (m.ptable q).state ≠ .unused) (a : Fin n × Act) :
    (Births.update m a m' g).birth q = g.birth q := if_neg fun h => hq h.1

theorem state_of_stamps (h : m.Inv) (hs : m.stamps c a = some q) (hm : m.Moves c a m') :
    (m.ptable q).state = .embryo := by
  obtain ⟨e, he⟩ := exists_lives h hm q
  have := he.step
  rw [he.stamp.2 hs] at this
  generalize (m'.ptable q).life = x' at this
  cases this with
  | stamp hx => exact hx

theorem ticks_le_of_clocked {b : Beat} (h : m.Clocked m' b) (hb : b = .tick → m.ticks + 1 ≠ 0) :
    m.ticks ≤ m'.ticks := by
  cases h with
  | tick _ _ ht =>
    have h1 := hb rfl
    rw [ht, UInt32.le_iff_toNat_le]
    have h2 : (m.ticks + 1).toNat ≠ 0 := fun h => h1 (UInt32.toNat_inj.1 h)
    have h3 := m.ticks.toNat_lt
    rw [UInt32.toNat_add, UInt32.toNat_one] at h2 ⊢
    omega
  | charge _ _ ht => exact ht ▸ UInt32.le_refl _
  | rest _ ht => exact ht ▸ UInt32.le_refl _

/-- A step takes at most one slot, which gets a birth of its own. -/
theorem unique_birth_of_step {x : Machine n × Births} (hx : Ordered x)
    (hm : x.1.Moves c a m') (hp : (m'.ptable p).state ≠ .unused)
    (hq : (m'.ptable q).state ≠ .unused)
    (h : (Births.update x.1 (c, a) m' x.2).birth p = (Births.update x.1 (c, a) m' x.2).birth q) :
    p = q := by
  -- A slot in use was in use before, or is the one `allocproc` takes.
  have hcases : ∀ r, (m'.ptable r).state ≠ .unused → (x.1.ptable r).state ≠ .unused ∧
      (Births.update x.1 (c, a) m' x.2).birth r = x.2.birth r ∨
      findUnused x.1.ptable = some r ∧ (Births.update x.1 (c, a) m' x.2).birth r = x.2.clock := by
    intro r hr
    by_cases hu : (x.1.ptable r).state = .unused
    · obtain ⟨e, he⟩ := exists_lives hx.inv hm r
      obtain rfl := he.step.unused_or_alloc hu hr
      refine .inr ⟨he.alloc rfl, if_pos ⟨hu, ?_⟩⟩
      exact he.step.state_of_alloc
    · exact .inl ⟨hu, birth_update hu _⟩
  rcases hcases p hp with ⟨hp, hbp⟩ | ⟨hp, hbp⟩ <;>
    rcases hcases q hq with ⟨hq, hbq⟩ | ⟨hq, hbq⟩ <;>
    rw [hbp, hbq] at h
  · exact hx.unique p q hp hq h
  · exact absurd h (hx.birth_lt p).ne
  · exact absurd h (hx.birth_lt q).ne'
  · exact Option.some.inj (hp.symm.trans hq)

theorem ordered_of_step {x y : Machine n × Births} (hx : Ordered x) (ho : Orderly x (c, a))
    (hs : x.1.step (c, a) = some y.1) (hg : y.2 = Births.update x.1 (c, a) y.1 x.2) :
    Ordered y := by
  obtain ⟨m, g⟩ := x
  obtain ⟨m', g'⟩ := y
  dsimp only at hs hg
  subst hg
  have hm := moves_of_step hs
  obtain ⟨hclock, hbeat⟩ := clock_of_moves hx.inv hx.clock hm
  have hticks := ticks_le_of_clocked hbeat ho.1
  refine ⟨inv_of_step hx.inv hs, hclock, fun q => ?_, fun p q => unique_birth_of_step hx hm,
    fun q hq => ?_, fun p q hp hq hpq => ?_⟩
  · have := hx.birth_lt q
    dsimp only [Births.update] at this ⊢
    split_ifs <;> omega
  · rcases active_of_moves hx.inv hm hq with ⟨hq, hc⟩ | ⟨-, hc⟩
    · rw [hc]; exact UInt32.le_trans (hx.ctime_le q hq) hticks
    · rw [hc]; exact hticks
  · have hstamp : ∀ r, m.stamps c a = some r → (m.ptable r).state ≠ .unused := fun r hr => by
      rw [state_of_stamps hx.inv hr hm]; nofun
    rcases active_of_moves hx.inv hm hp with ⟨hp, hcp⟩ | ⟨hp, hcp⟩ <;>
      rcases active_of_moves hx.inv hm hq with ⟨hq, hcq⟩ | ⟨hq, hcq⟩
    · rw [birth_update (state_ne_of_active hx.inv hp),
        birth_update (state_ne_of_active hx.inv hq)] at hpq
      have := hx.before p q hp hq hpq
      rwa [Before, ← hcp, ← hcq] at this
    · rw [birth_update (state_ne_of_active hx.inv hp), birth_update (hstamp q hq)] at hpq
      obtain ⟨-, hlt⟩ := ho.2 q hq p (fun e => by rw [e] at hpq; exact hpq.false) hp
      rw [Before, hcp, hcq]
      rcases UInt32.lt_or_eq_of_le (hx.ctime_le p hp) with hc | hc
      · exact .inl hc
      · exact .inr ⟨hc, le_of_lt ((hlt hc).2 hpq)⟩
    · rw [birth_update (hstamp p hp), birth_update (state_ne_of_active hx.inv hq)] at hpq
      obtain ⟨hc, hlt⟩ := ho.2 p hp q (fun e => by rw [e] at hpq; exact hpq.false) hq
      have hc := hc hpq
      rw [Before, hcp, hcq, hc]
      refine .inr ⟨rfl, not_lt.1 fun h => ?_⟩
      exact absurd ((hlt hc).1 h) hpq.le.not_gt
    · rw [Option.some.inj (hp.symm.trans hq)] at hpq
      exact absurd hpq (lt_irrefl _)

theorem ordered_of_reachable {x : Machine n × Births}
    (hx : (recording n).Reachable Orderly x) : Ordered x := by
  refine hx.invariant (I := Ordered) ?_ fun x a y h ho hs => ?_
  · rintro ⟨m, g⟩ ⟨⟨kstack, pgdir, root, rfl⟩, hg⟩
    obtain rfl : g = {} := hg
    have hzero : ∀ q, ((boot n kstack pgdir root).ptable q).state ≠ .unused → q = 0 :=
        fun q hq => by
      by_contra h
      rw [← Proc.life_state, life_boot, if_neg h] at hq
      exact hq rfl
    refine ⟨inv_boot kstack pgdir root, clock_boot kstack pgdir root, fun _ => Nat.zero_lt_one,
      fun p q hp hq _ => ?_, fun q _ => ?_, fun p q _ _ h => absurd h (lt_irrefl 0)⟩
    · rw [hzero p hp, hzero q hq]
    · rw [← Proc.life_ctime, life_boot]
      exact UInt32.le_refl _
  · obtain ⟨hs, hg⟩ := withGhost_step.1 hs
    exact ordered_of_step h ho hs hg

/-- The FCFS branch switches to a process if there is one. -/
theorem step_schedule_fcfs (hc : m.cpu c = {}) (hl : m.lock = none)
    (hpolicy : m.schedulingPolicy = 1) (hq : (m.ptable q).state = .runnable) :
    ∃ p, fcfs m.ptable = some p ∧ m.step (c, .schedule) = some (m.dispatch c p .fcfs) := by
  cases hp : fcfs m.ptable with
  | none => exact absurd hq (fcfs_eq_none hp)
  | some p =>
    refine ⟨p, rfl, ?_⟩
    simp [step, hc, hl, schedule, hpolicy, hp]

/-- In every run whose ticks do not wrap around, and in which processes get their
    times and slots in the order of their creation, an FCFS pass switches to the
    `RUNNABLE` process whose `allocproc` call came first. -/
theorem fcfs_first_come {g : Births} (hm : (recording n).Reachable Orderly (m, g))
    (hc : m.cpu c = {}) (hl : m.lock = none) (hpolicy : m.schedulingPolicy = 1)
    (hq : ∃ q, (m.ptable q).state = .runnable) :
    ∃ p, (m.ptable p).state = .runnable ∧
      m.step (c, .schedule) = some (m.dispatch c p .fcfs) ∧
      ∀ q, (m.ptable q).state = .runnable → q ≠ p → g.birth p < g.birth q := by
  have h := ordered_of_reachable hm
  obtain ⟨q, hq⟩ := hq
  obtain ⟨p, hp, hstep⟩ := step_schedule_fcfs hc hl hpolicy hq
  obtain ⟨hrun, hfirst⟩ := fcfs_eq_some_iff.1 hp
  refine ⟨p, hrun, hstep, fun q hq hqp => lt_of_le_of_ne (not_lt.1 fun hlt => hqp ?_) fun he =>
    hqp ?_⟩
  · have hbefore := h.before q p (.inl (by rw [hq]; rfl)) (.inl (by rw [hrun]; rfl)) hlt
    exact hbefore.antisymm (hfirst q hq)
  · exact h.unique q p (by rw [hq]; nofun) (by rw [hrun]; nofun) he.symm

/-- The first process sets the policy, and yields to the scheduler. -/
def toFcfs : List Act := [.schedule, .scan, .resume, .setpolicy 1, .yield, .scan]

/-- Two children forked one after the other, by a parent that goes to sleep. -/
def forkTwice : List Act :=
  toFcfs ++ [.schedule, .resume] ++ forkActs ++ forkActs ++ [.sleep (.other 0)]

theorem fcfs_first_come_forkTwice : ∃ (m : Machine 1) (g : Births),
    (recording 1).Reachable Orderly (m, g) ∧ m.cpu 0 = {} ∧ m.lock = none ∧
    m.schedulingPolicy = 1 ∧ (m.ptable 1).state = .runnable ∧ (m.ptable 2).state = .runnable ∧
    ∃ p, (m.ptable p).state = .runnable ∧
      m.step (0, .schedule) = some (m.dispatch 0 p .fcfs) ∧
      ∀ q, (m.ptable q).state = .runnable → q ≠ p → g.birth p < g.birth q := by
  obtain ⟨⟨m, g⟩, hm, hP⟩ := exists_reachable (recording_init 1)
    (show (exec _ Orderly _ (forkTwice.map (0, ·))).any
      (fun x => decide (x.1.cpu 0 = {} ∧ x.1.lock = none ∧
      x.1.schedulingPolicy = 1 ∧ (x.1.ptable 1).state = .runnable ∧
      (x.1.ptable 2).state = .runnable)) by decide +kernel)
  obtain ⟨hc, hl, hpolicy, h₁, h₂⟩ := of_decide_eq_true hP
  exact ⟨m, g, hm, hc, hl, hpolicy, h₁, h₂, fcfs_first_come hm hc hl hpolicy ⟨1, h₁⟩⟩

/-- A parent forks a child while another one is a zombie in the slot before, waits
    for the zombie and forks again, all in one tick. -/
def reuseSlot : List Act :=
  [.schedule, .scan, .resume, .setpolicy 1] ++ forkActs ++
    [.sleep (.other 0), .scan, .resume, .wakeup (.other 0), .exit, .scan, .schedule, .resume] ++
    forkActs ++ [.wait] ++ forkActs ++ [.sleep (.other 0)]

/-- The second child is in the lower slot, and is switched to first. -/
theorem fcfs_last_come : ∃ (m m' : Machine 1) (g : Births),
    (recording 1).Reachable Any (m, g) ∧ m.schedulingPolicy = 1 ∧
    m.step (0, .schedule) = some m' ∧
    (m.ptable 1).state = .runnable ∧ (m'.ptable 1).state = .running ∧
    (m.ptable 2).state = .runnable ∧ g.birth 2 < g.birth 1 := by
  obtain ⟨⟨m, g⟩, ⟨m', g'⟩, hm, hs, hP⟩ := exists_reachable_step (a := (0, .schedule))
    (recording_init 1) (show (exec _ Any _ (reuseSlot.map (0, ·))).any (fun x =>
      ((recording 1).step x _).any fun y => decide (x.1.schedulingPolicy = 1 ∧
        (x.1.ptable 1).state = .runnable ∧ (y.1.ptable 1).state = .running ∧
        (x.1.ptable 2).state = .runnable ∧ x.2.birth 2 < x.2.birth 1)) by decide +kernel)
  obtain ⟨hpolicy, hrest⟩ := of_decide_eq_true hP
  exact ⟨m, m', g, hm, hpolicy, (withGhost_step.1 hs).1, hrest⟩

/-! ## The order of completion -/

/-- A CPU in a round-robin pass. -/
def inRr (x : Cpu) : Bool :=
  match x.pc with
  | .scan _ | .swtched (.rr _) | .running (.rr _) => true
  | _ => false

/-- No round-robin pass is under way. -/
def NoRr (m : Machine n) : Prop := ∀ c, inRr (m.cpu c) = false

instance (m : Machine n) : Decidable m.NoRr := inferInstanceAs (Decidable (∀ _, _ = false))

theorem NoRr.of_update (h : m.NoRr) {x : Cpu} (hcpu : m'.cpu = Function.update m.cpu c x)
    (hx : inRr x = false) : m'.NoRr := fun c' => by
  rw [hcpu]
  by_cases hc : c' = c
  · subst hc; rwa [Function.update_self]
  · rw [Function.update_of_ne hc]; exact h c'

theorem NoRr.of_eq (h : m.NoRr) (hcpu : m'.cpu = m.cpu) : m'.NoRr := fun c => by
  rw [hcpu]; exact h c

variable {k : Pass}

theorem NoRr.sched (h : m.NoRr) (hk : inRr { pc := .running k } = false) : (m.sched c k).NoRr := by
  refine h.of_update (sched_cpu ..) ?_
  cases k with
  | rr => cases hk
  | fcfs | lottery => rfl

theorem NoRr.release (h : m.NoRr) (hk : inRr { pc := .running k } = false) :
    (m.release c p k).NoRr :=
  h.of_update (release_cpu ..) hk

theorem NoRr.waitLoop (h : m.NoRr) (hk : inRr { pc := .running k } = false) {ctx : Context}
    {store : Proc → Proc → Proc} : (m.waitLoop c p k ctx store).NoRr := by
  unfold Machine.waitLoop
  split
  · exact NoRr.release (h.of_eq rfl) hk
  · split_ifs
    · exact NoRr.release (h.of_eq rfl) hk
    · exact NoRr.sched (h.of_eq rfl) hk

/-- Under FCFS, no round-robin pass begins. -/
theorem noRr_of_moves (h : m.NoRr) (hpolicy : m.schedulingPolicy = 1) (hm : m.Moves c a m') :
    m'.NoRr := by
  have hrun : ∀ {k}, (m.cpu c).pc = .running k → inRr { pc := .running k } = false := fun hk => by
    have := h c
    rwa [inRr, hk] at this
  have hcall : ∀ {p k}, m.Calls c p k → inRr { pc := .running k } = false := fun hp =>
    hrun (by rw [hp.1])
  have hintr : ∀ i, inRr { m.cpu c with intr := i } = false := fun _ => h c
  cases hm with
  | schedule =>
    unfold Machine.schedule
    rw [if_pos hpolicy]
    split
    · exact h.of_update (dispatch_cpu ..) rfl
    · exact h
  | scan hc =>
    have := h c
    rw [inRr, hc] at this
    cases this
  | @resume p k _ hc =>
    have hk : inRr { pc := .running k } = false := by
      have := h c
      rw [inRr, hc] at this
      cases k <;> exact this
    have h' : (m.onProc p fun q => { q with chan := none }).NoRr := h.of_eq rfl
    unfold Machine.resume
    cases (m.ptable p).context with
    | forkret | yield => exact h.release hk
    | sleep => exact h'.release hk
    | wait => exact h'.waitLoop hk
    | waitx => exact h'.waitLoop hk
  | timer =>
    unfold Machine.timer
    split_ifs
    · exact h.of_update rfl (hintr _)
    · exact h.of_update rfl (hintr _)
  | intrWakeup => exact h.of_update rfl (hintr _)
  | intrAccount => exact h.of_update rfl (hintr _)
  | intrPreempt _ hne => exact absurd hpolicy hne
  | intrReturn => exact h.of_update rfl (hintr _)
  | yield _ hp => exact NoRr.sched (h.of_eq rfl) (hcall hp)
  | sleep _ _ hp => exact NoRr.sched (h.of_eq rfl) (hcall hp)
  | exit _ hp => exact NoRr.sched (h.of_eq rfl) (hrun hp.pc)
  | wait _ hp => exact h.waitLoop (hcall hp)
  | waitx _ hp => exact h.waitLoop (hcall hp)
  | allocproc =>
    refine h.of_eq ?_
    unfold Machine.allocproc
    split <;> rfl
  | @kalloc _ _ page => cases page <;> exact h.of_eq rfl
  | @copyuvm _ _ pgdir => cases pgdir <;> exact h.of_eq rfl
  | _ => exact h.of_eq rfl

/-- The policy is FCFS, and `A` neither sleeps nor has exited. -/
def Queued (m : Machine n) (A : Slot) : Prop :=
  m.schedulingPolicy = 1 ∧ (m.ptable A).state ≠ .sleeping ∧ (m.ptable A).state ≠ .zombie

instance (m : Machine n) (A : Slot) : Decidable (m.Queued A) := inferInstanceAs (Decidable (_ ∧ _))

/-- On one CPU, let the policy be FCFS from a state `s₀` on in which no round-robin
    pass is under way, and let the process `A` be `RUNNABLE` in `s₁`. As long as it
    does not sleep or exit, the scheduler switches to no process of later `ctime`. -/
theorem fcfs_dispatch_le {s₀ s₁ s₂ s₃ : Machine 1} {a : Fin 1 × Act} {A B : Slot}
    (h₀ : (machine 1).Reachable Any s₀) (hrr : s₀.NoRr)
    (h₀₁ : (machine 1).Path (fun s _ => s.schedulingPolicy = 1) s₀ s₁)
    (hA : (s₁.ptable A).state = .runnable)
    (h₁₂ : (machine 1).Path (fun s _ => s.Queued A) s₁ s₂) (hq : s₂.Queued A)
    (hs : s₂.step a = some s₃) (hB : s₂.Switched s₃ B) :
    (s₂.ptable B).ctime ≤ (s₂.ptable A).ctime := by
  have h₁ : s₁.Inv ∧ s₁.NoRr := h₀₁.invariant (I := fun s => s.Inv ∧ s.NoRr)
    (fun s a s' h hp hs => ⟨inv_of_step h.1 hs, noRr_of_moves h.2 hp (moves_of_step hs)⟩)
    ⟨inv_of_reachable h₀, hrr⟩
  -- `A` stays alive up to the step it exits in.
  have h₂ : s₂.Inv ∧ s₂.NoRr ∧ ((s₂.ptable A).state.live ∨ (s₂.ptable A).state = .zombie) :=
    h₁₂.invariant (I := fun s => s.Inv ∧ s.NoRr ∧
        ((s.ptable A).state.live ∨ (s.ptable A).state = .zombie))
      (fun s a s' h hp hs => by
        have hm := moves_of_step hs
        obtain ⟨e, he⟩ := exists_lives h.1 hm A
        exact ⟨inv_of_step h.1 hs, noRr_of_moves h.2.1 hp.1 hm,
          he.step.live_or_zombie (h.2.2.resolve_right hp.2.2)⟩)
      ⟨h₁.1, h₁.2, .inl (by rw [hA]; rfl)⟩
  obtain ⟨hinv, hrr, hlive⟩ := h₂
  obtain ⟨hpolicy, hsleep, hexit⟩ := hq
  have hlive := hlive.resolve_right hexit
  rcases switched_cases hinv (inv_of_step hinv hs) (moves_of_step hs) hB with
    ⟨-, hc, -, hfcfs⟩ | ⟨-, hp, -⟩ | ⟨-, i, hi, -⟩
  · -- The CPU is idle, so that `A` is not on it.
    have hidle : (s₂.ptable A).state ≠ .running := fun hrun => by
      obtain ⟨c, hA⟩ := hinv.onCpu.onCpu A hrun
      rw [Subsingleton.elim c a.1, hc] at hA
      cases hA
    have hA : (s₂.ptable A).state = .runnable := by
      cases hst : (s₂.ptable A).state <;> simp_all [Procstate.live]
    rcases (fcfs_eq_some_iff.1 hfcfs).2 A hA with h | ⟨h, -⟩
    · exact UInt32.le_of_lt h
    · exact h ▸ UInt32.le_refl _
  · rw [hpolicy] at hp
    exact absurd hp (by decide)
  · have := hrr a.1
    rw [inRr, hi] at this
    cases this

/-- A child and, a tick later, another one. -/
def forkAcrossTicks : List Act :=
  [.schedule, .resume] ++ forkActs ++ [.timer, .intr, .intr, .intr] ++ forkActs

/-- The younger child waits for the older one. -/
theorem fcfs_dispatch_le_forkAcrossTicks : ∃ s₀ s₁ s₂ s₃ : Machine 1,
    (machine 1).Reachable Any s₀ ∧ s₀.NoRr ∧
    (machine 1).Path (fun s _ => s.schedulingPolicy = 1) s₀ s₁ ∧
    (s₁.ptable 2).state = .runnable ∧
    (machine 1).Path (fun s _ => s.Queued 2) s₁ s₂ ∧ s₂.Queued 2 ∧
    s₂.step (0, .schedule) = some s₃ ∧ s₂.Switched s₃ 1 ∧
    (s₂.ptable 1).ctime ≤ (s₂.ptable 2).ctime := by
  have h : ((machine 1).exec Any (boot 1 0 0 0) (toFcfs.map (0, ·))).any fun s₀ =>
      decide s₀.NoRr &&
      ((machine 1).exec (fun s _ => s.schedulingPolicy = 1) s₀
        (forkAcrossTicks.map (0, ·))).any fun s₁ =>
      decide ((s₁.ptable 2).state = .runnable) &&
      ((machine 1).exec (fun s _ => s.Queued 2) s₁ [(0, .sleep (.other 0))]).any fun s₂ =>
      decide (s₂.Queued 2) && (s₂.step (0, .schedule)).any fun s₃ =>
      decide (s₂.Switched s₃ 1) := by decide +kernel
  obtain ⟨s₀, h₀, h⟩ := exists_reachable (S := machine 1) ⟨0, 0, 0, rfl⟩ h
  obtain ⟨hrr, h⟩ := Bool.and_eq_true_iff.1 h
  obtain ⟨s₁, h₀₁, h⟩ := exists_path h
  obtain ⟨hA, h⟩ := Bool.and_eq_true_iff.1 h
  obtain ⟨s₂, h₁₂, h⟩ := exists_path h
  obtain ⟨hq, h⟩ := Bool.and_eq_true_iff.1 h
  obtain ⟨h, hB⟩ := (Option.any_eq_true_iff_get _ _).1 h
  have hrr := of_decide_eq_true hrr
  have hA := of_decide_eq_true hA
  have hq := of_decide_eq_true hq
  have hs := (Option.some_get h).symm
  have hB := of_decide_eq_true hB
  exact ⟨s₀, s₁, s₂, _, h₀, hrr, h₀₁, hA, h₁₂, hq, hs, hB,
    fcfs_dispatch_le h₀ hrr h₀₁ hA h₁₂ hq hs hB⟩

end Machine

end Xv6
