import Xv6.Proc.Lottery
import Xv6.Proc.Switch

/-!
# The policies

What `scheduler` switches to, against the policy in force.

* A round-robin pass goes on with its scan when the process it switched to switches
  back, whatever the policy has become (`dispatch_against_policy`). Where it does
  not, and the running sum of the tickets does not overflow on the way to the drawn
  one, every process switched to on one CPU is the one the policy prescribes
  (`dispatch_prescribed`).
* A lottery pass switches to a process whatever it draws exactly if the tickets add
  up to an `int`, or a running sum wraps around to the largest one
  (`lottery_dispatches_iff`); `lottery_idles` is a run in which it does not.
* Over `2 ^ 32` draws, every process is switched to as often as its tickets are due
  (`lottery_share`).
-/

namespace Xv6

open TransitionSystem Function

namespace Machine

variable {n : ℕ} {m m' : Machine n} {c : Fin n} {p q : Slot} {k : Pass} {a : Act}

/-! ## The process a policy prescribes -/

/-- The next `RUNNABLE` slot of the round-robin scan on `c`. -/
def scanNext (m : Machine n) (c : Fin n) : Option Slot :=
  match (m.cpu c).pc with
  | .scan i => rrNext m.ptable i
  | _ => none

/-- The policy is neither FCFS nor lottery. -/
def RrPolicy (m : Machine n) : Prop := m.schedulingPolicy ≠ 1 ∧ m.schedulingPolicy ≠ 2

instance (m : Machine n) : Decidable m.RrPolicy := inferInstanceAs (Decidable (_ ∧ _))

/-- The policy prescribes `p` to the scheduler on `c`: the `RUNNABLE` process of least
    `ctime`, the first on ties; the one that holds the drawn ticket; or the next one of
    the round-robin scan. -/
def Prescribed (m : Machine n) (c : Fin n) (p : Slot) : Prop :=
  (m.ptable p).state = .runnable ∧
  (m.schedulingPolicy = 1 → ∀ q, (m.ptable q).state = .runnable → Before m.ptable p q) ∧
  (m.schedulingPolicy = 2 →
    ticketHolder m.ptable (draw m.ptable (krand m.randSeed)).toNat = some p) ∧
  (m.RrPolicy → m.scanNext c = some p)

instance (m : Machine n) (c : Fin n) (p : Slot) : Decidable (m.Prescribed c p) :=
  inferInstanceAs (Decidable (_ ∧ _ ∧ _ ∧ _))

/-- The condition on a step that a round-robin scan that goes on, and finds a
    process to switch to, does so under a round-robin policy, and that the tickets up
    to those of the holder of a drawn one add up to an `int`. -/
def Settled (m : Machine n) (a : Fin n × Act) : Prop :=
  (a.2 = .scan → (m.cpu a.1).pc ≠ .scan 0 → m.scanNext a.1 ≠ none → m.RrPolicy) ∧
  (a.2 = .schedule → m.schedulingPolicy = 2 → ∀ p,
    ticketHolder m.ptable (draw m.ptable (krand m.randSeed)).toNat = some p →
      running m.ptable p ≤ 0x7fffffff)

instance (m : Machine n) (a : Fin n × Act) : Decidable (Settled m a) :=
  inferInstanceAs (Decidable (_ ∧ _))

/-- What a CPU in a round-robin pass knows, `rr` being that the policy is round
    robin: it is, at the start of the scan, and the scan goes on behind the process
    it switched to. -/
def ScanOk (rr : Prop) : Pc → Prop
  | .scan 0 => rr
  | .swtched (.rr i) | .running (.rr i) => 0 < i
  | _ => True

theorem scanOk_of_not_holds {rr rr' : Prop} {x : Pc} (hx : x.holds = false) (h : ScanOk rr x) :
    ScanOk rr' x := by
  cases x with
  | scan | swtched => cases hx
  | loop => trivial
  | running k => cases k <;> exact h

theorem scanOk_afterSched {rr rr' : Prop} (h : ScanOk rr (.running k)) :
    ScanOk rr' (afterSched k).pc := by
  cases k with
  | rr i =>
    obtain ⟨j, rfl⟩ := Nat.exists_eq_succ_of_ne_zero (Nat.ne_of_gt h)
    trivial
  | fcfs | lottery => trivial

theorem scanOk_waitLoop {rr rr' : Prop} (h : ScanOk rr (.running k)) {ctx : Context}
    {store : Proc → Proc → Proc} : ScanOk rr' ((m.waitLoop c p k ctx store).cpu c).pc := by
  have h' : ScanOk rr' (.running k) := scanOk_of_not_holds rfl h
  unfold Machine.waitLoop
  split
  · rw [release_cpu, update_self]; exact h'
  · split_ifs
    · rw [release_cpu, update_self]; exact h'
    · rw [Machine.sleep, sched_cpu, update_self]; exact scanOk_afterSched h

theorem scanOk_schedule (hc : m.cpu c = {}) :
    ScanOk (m.schedule c).RrPolicy ((m.schedule c).cpu c).pc := by
  have hseed : ∀ seed rr, ScanOk rr ((m.setSeed seed).cpu c).pc := fun seed rr => by
    rw [setSeed_cpu, hc]; trivial
  unfold Machine.schedule
  split_ifs with h₁ h₂
  · split
    · rw [dispatch_cpu, update_self]; trivial
    · rw [hc]; trivial
  · split
    · rw [dispatch_cpu, update_self]; trivial
    · exact hseed _ _
  · rw [hc]; trivial
  · rw [setCpu_cpu, update_self]; exact ⟨h₁, h₂⟩

/-- A step of a CPU keeps what it knows, since no other one changes the policy while
    it begins to scan. -/
theorem scanOk_of_moves (hinv : m.Inv) (h : ScanOk m.RrPolicy (m.cpu c).pc)
    (hm : m.Moves c a m') : ScanOk m'.RrPolicy (m'.cpu c).pc := by
  have hcall : ∀ {p k}, m.Calls c p k → ScanOk m.RrPolicy (.running k) := fun hp => by
    rwa [hp.1] at h
  have hsame : (m.cpu c).pc.holds = false → m'.cpu = m.cpu → ScanOk m'.RrPolicy (m'.cpu c).pc :=
    fun hpc hcpu => by rw [hcpu]; exact scanOk_of_not_holds hpc h
  have hintr : ∀ i, (m.cpu c).pc.holds = false →
      m'.cpu = update m.cpu c { m.cpu c with intr := i } →
      ScanOk m'.RrPolicy (m'.cpu c).pc := fun i hpc hcpu => by
    rw [hcpu, update_self]; exact scanOk_of_not_holds hpc h
  have hcalls : ∀ {p k}, m.Calls c p k → (m.cpu c).pc.holds = false := fun hp => by
    rw [hp.1]; rfl
  have hforks : ∀ {p f}, m.Forks c p f → (m.cpu c).pc.holds = false := fun hf => by
    obtain ⟨_, hp, _⟩ := hf
    rw [hp]; rfl
  cases hm with
  | schedule hc => exact scanOk_schedule hc
  | scan hc =>
    unfold Machine.scan
    split
    · rw [dispatch_cpu, update_self]; exact Nat.succ_pos _
    · rw [setCpu_cpu, update_self]; trivial
  | @resume p k _ hc =>
    have hk : ScanOk m.RrPolicy (.running k) := by
      rw [hc] at h
      cases k <;> exact h
    unfold Machine.resume
    cases (m.ptable p).context with
    | forkret | yield =>
      rw [release_cpu, update_self]; exact scanOk_of_not_holds rfl hk
    | sleep =>
      have hk' : ScanOk m.RrPolicy (((m.onProc p fun q => { q with chan := none }).release c p
        k).cpu c).pc := by
        rw [release_cpu, update_self]; exact hk
      exact scanOk_of_not_holds (by rw [release_cpu, update_self]; rfl) hk'
    | wait => exact scanOk_waitLoop hk
    | waitx => exact scanOk_waitLoop hk
  | timer hc =>
    have hcpu : (m.timer c).cpu = update m.cpu c { m.cpu c with
        intr := if c.val = 0 then some .wakeup else some .preempt } := by
      unfold Machine.timer
      split_ifs <;> rfl
    exact hintr _ (interruptible_iff.1 hc).1 hcpu
  | intrWakeup hc => exact hintr _ (hinv.onCpu.intr c (by simp [hc])) rfl
  | intrAccount hc => exact hintr _ (hinv.onCpu.intr c (by simp [hc])) rfl
  | intrPreempt hc =>
    rw [hc] at h
    rw [Machine.yield, sched_cpu, update_self]
    exact scanOk_afterSched h
  | intrReturn hc => exact hintr _ (hinv.onCpu.intr c (by simp [hc])) rfl
  | wakeup hc => exact hsame (interruptible_iff.1 hc).1 rfl
  | yield _ hp =>
    rw [Machine.yield, sched_cpu, update_self]; exact scanOk_afterSched (hcall hp)
  | sleep _ _ hp =>
    rw [Machine.sleep, sched_cpu, update_self]; exact scanOk_afterSched (hcall hp)
  | exit _ hp =>
    rw [hp.pc] at h
    rw [sched_cpu, update_self]
    exact scanOk_afterSched h
  | wait _ hp => exact scanOk_waitLoop (hcall hp)
  | waitx _ hp => exact scanOk_waitLoop (hcall hp)
  | waitxNull hp => exact hsame (hcalls hp) rfl
  | kill _ hp => exact hsame (hcalls hp) rfl
  | setpolicy hp => exact hsame (hcalls hp) rfl
  | settickets _ hp => exact hsame (hcalls hp) rfl
  | allocproc _ hp =>
    refine hsame (hcalls hp) ?_
    unfold Machine.allocproc
    split <;> rfl
  | @kalloc _ _ page hf => cases page <;> exact hsame (hforks hf) rfl
  | @copyuvm _ _ pgdir hf => cases pgdir <;> exact hsame (hforks hf) rfl
  | ready _ hf => exact hsame (hforks hf) rfl
  | fault hp => exact hsame (hcalls hp) rfl
  | image hp => exact hsame (hcalls hp) rfl

/-- On one CPU, in every run in which no round-robin scan goes on to a process under
    another policy, and the tickets up to a drawn one add up to an `int`, every
    process the scheduler switches to is the one the policy in force prescribes. -/
theorem dispatch_prescribed {m m' : Machine 1} {a : Fin 1 × Act}
    (hm : (machine 1).Reachable Settled m) (ha : Settled m a) (hs : m.step a = some m')
    (hp : m.Switched m' p) : m.Prescribed a.1 p := by
  have h : m.Inv ∧ ∀ c, ScanOk m.RrPolicy (m.cpu c).pc := by
    refine hm.invariant (I := fun m => m.Inv ∧ ∀ c, ScanOk m.RrPolicy (m.cpu c).pc) ?_
      fun m a m' h _ hs => ?_
    · rintro m ⟨kstack, pgdir, root, rfl⟩
      exact ⟨inv_boot kstack pgdir root, fun _ => trivial⟩
    · refine ⟨inv_of_step h.1 hs, fun c => ?_⟩
      rw [Subsingleton.elim c a.1]
      exact scanOk_of_moves h.1 (h.2 a.1) (moves_of_step hs)
  obtain ⟨hinv, hscan⟩ := h
  have hm' := moves_of_step hs
  rcases switched_cases hinv (inv_of_step hinv hs) hm' hp with
    ⟨-, -, hpolicy, hfcfs⟩ | ⟨hact, hpolicy, hlot⟩ | ⟨hact, i, hi, hrr⟩
  · refine ⟨hp.1, fun _ => (fcfs_eq_some_iff.1 hfcfs).2, fun h => ?_, fun h => absurd hpolicy h.1⟩
    rw [hpolicy] at h
    exact absurd h (by decide)
  · refine ⟨hp.1, fun h => ?_, fun _ => ?_, fun h => absurd hpolicy h.2⟩
    · rw [hpolicy] at h
      exact absurd h (by decide)
    · -- The holder of the ticket is found by the running sum.
      obtain ⟨q, hq⟩ := exists_ticketHolder hp.1 (krand m.randSeed)
      have hle := ha.2 hact hpolicy q hq
      rw [lottery_eq_some_of_holder hq (by omega)] at hlot
      rw [hq, hlot]
  · have hnext : m.scanNext a.1 = some p := by rw [scanNext, hi]; exact hrr
    have hpolicy : m.RrPolicy := by
      by_cases h0 : (m.cpu a.1).pc = .scan 0
      · have := hscan a.1
        rwa [h0] at this
      · exact ha.1 hact h0 (by rw [hnext]; nofun)
    exact ⟨hp.1, fun h => absurd h hpolicy.1, fun h => absurd h hpolicy.2, fun _ => hnext⟩

/-- The first process forks a child, sets the policy to FCFS and yields to it. -/
def yieldUnderFcfs : List Act :=
  [.schedule, .scan, .resume] ++ forkActs ++ [.yield, .scan, .resume, .setpolicy 1, .yield, .scan]

theorem dispatch_prescribed_yieldUnderFcfs : ∃ m m' : Machine 1,
    (machine 1).Reachable Settled m ∧ Settled m (0, .schedule) ∧ m.step (0, .schedule) = some m' ∧
    m.schedulingPolicy = 1 ∧ m.Switched m' 0 ∧ m.Prescribed 0 0 := by
  obtain ⟨m, m', hm, hs, hP⟩ := exists_reachable_step (S := machine 1) (a := (0, .schedule))
    ⟨0, 0, 0, rfl⟩ (show (exec _ Settled _ (yieldUnderFcfs.map (0, ·))).any (fun m =>
      ((machine 1).step m _).any fun m' => decide (Settled m (0, .schedule) ∧
        m.schedulingPolicy = 1 ∧ m.Switched m' 0)) by decide +kernel)
  obtain ⟨ha, hpolicy, hp⟩ := of_decide_eq_true hP
  exact ⟨m, m', hm, ha, hs, hpolicy, hp, dispatch_prescribed hm ha hs hp⟩

/-- Two children are forked, and the first one sets the policy to FCFS and yields in
    the middle of the round-robin pass that switched to it. -/
def setpolicyInPass : List Act :=
  [.schedule, .scan, .resume] ++ forkActs ++ forkActs ++
    [.yield, .scan, .resume, .setpolicy 1, .yield]

/-- The scan goes on to the second child, though the parent comes first. -/
theorem dispatch_against_policy : ∃ m m' : Machine 1, (machine 1).Reachable Any m ∧
    m.step (0, .scan) = some m' ∧ m.Switched m' 2 ∧ m.schedulingPolicy = 1 ∧
    m.Prescribed 0 0 ∧ ¬ m.Prescribed 0 2 := by
  obtain ⟨m, m', hm, hs, hP⟩ := exists_reachable_step (S := machine 1) (a := (0, .scan))
    ⟨0, 0, 0, rfl⟩ (show (exec _ Any _ (setpolicyInPass.map (0, ·))).any (fun m =>
      ((machine 1).step m _).any fun m' => decide (m.Switched m' 2 ∧ m.schedulingPolicy = 1 ∧
        m.Prescribed 0 0 ∧ ¬ m.Prescribed 0 2)) by decide +kernel)
  exact ⟨m, m', hm, hs, of_decide_eq_true hP⟩

/-! ## The lottery pass -/

/-- A lottery pass draws, and switches to the winner. -/
theorem schedule_lottery (hpolicy : m.schedulingPolicy = 2) (hq : (m.ptable q).state = .runnable)
    (seed : UInt32) : (m.setSeed seed).schedule c =
      match lottery m.ptable (krand seed) with
      | some p => (m.setSeed (krand seed)).dispatch c p .lottery
      | none => m.setSeed (krand seed) := by
  have hne : ¬ (m.setSeed seed).schedulingPolicy = 1 := by
    rw [show (m.setSeed seed).schedulingPolicy = 2 from hpolicy]; decide
  rw [Machine.schedule, if_neg hne,
    if_pos (show (m.setSeed seed).schedulingPolicy = 2 from hpolicy),
    setSeed_ptable, if_pos (totaltix_pos hq)]
  rfl

theorem step_schedule (hc : m.cpu c = {}) (hl : m.lock = none) (seed : UInt32) :
    (m.setSeed seed).step (c, .schedule) = some ((m.setSeed seed).schedule c) :=
  if_pos ⟨hc, hl⟩

theorem runnable_of_lottery {t : Ptable} {x : UInt32} (h : lottery t x = some p) :
    (t p).state = .runnable := by
  unfold lottery at h
  split_ifs at h
  exact lottery_runnable h

theorem setSeed_ne_dispatch (hc : m.cpu c = {}) (seed seed' : UInt32) :
    m.setSeed seed ≠ (m.setSeed seed').dispatch c p k := fun h => by
  have := congrArg (fun m : Machine n => (m.cpu c).proc) h
  simp [hc] at this

/-- A pass that finds no winner leaves the CPU without a process. -/
theorem exists_dispatch_iff (hc : m.cpu c = {}) (hl : m.lock = none)
    (hpolicy : m.schedulingPolicy = 2) (hq : (m.ptable q).state = .runnable) (seed : UInt32) :
    (∃ p, (m.ptable p).state = .runnable ∧ (m.setSeed seed).step (c, .schedule) =
      some ((m.setSeed (krand seed)).dispatch c p .lottery)) ↔
      lottery m.ptable (krand seed) ≠ none := by
  rw [step_schedule hc hl, schedule_lottery hpolicy hq]
  constructor
  · rintro ⟨p, -, hp⟩ hn
    rw [hn] at hp
    exact setSeed_ne_dispatch hc _ _ (Option.some.inj hp)
  · intro h
    obtain ⟨p, hp⟩ := Option.ne_none_iff_exists'.1 h
    exact ⟨p, runnable_of_lottery hp, by rw [hp]⟩

/-- A lottery pass switches to exactly one process, a `RUNNABLE` one, whatever `krand`
    returns, if and only if the tickets add up to an `int`, or a running sum wraps
    around to the largest one. -/
theorem lottery_dispatches_iff (hc : m.cpu c = {}) (hl : m.lock = none)
    (hpolicy : m.schedulingPolicy = 2) (hq : ∃ q, (m.ptable q).state = .runnable) :
    (∀ seed, ∃ p, (m.ptable p).state = .runnable ∧ (m.setSeed seed).step (c, .schedule) =
      some ((m.setSeed (krand seed)).dispatch c p .lottery)) ↔
      total m.ptable ≤ 0x7fffffff ∨
        ∃ p, (m.ptable p).state = .runnable ∧ running m.ptable p % 2 ^ 32 = 0x7fffffff := by
  obtain ⟨q, hq⟩ := hq
  rw [← lottery_ne_none_iff hq]
  constructor
  · intro h x
    obtain ⟨seed, rfl⟩ := krand_surjective x
    exact (exists_dispatch_iff hc hl hpolicy hq seed).1 (h seed)
  · intro h seed
    exact (exists_dispatch_iff hc hl hpolicy hq seed).2 (h (krand seed))

/-- The first process sets the policy to lottery, and its child takes 30 tickets. -/
def toLottery : List Act :=
  [.schedule, .scan, .resume] ++ forkActs ++
    [.setpolicy 2, .yield, .scan, .resume, .settickets 30, .yield, .scan]

/-- The state after `toLottery`. -/
def Draws (m : Machine n) (c : Fin n) : Prop :=
  m.cpu c = {} ∧ m.lock = none ∧ m.schedulingPolicy = 2 ∧ total m.ptable = 40 ∧
    (m.ptable 0).state = .runnable ∧ (m.ptable 0).tickets = 10 ∧
    (m.ptable 1).state = .runnable ∧ (m.ptable 1).tickets = 30

instance (m : Machine n) (c : Fin n) : Decidable (m.Draws c) :=
  inferInstanceAs (Decidable (_ ∧ _))

theorem exists_draws : ∃ m : Machine 1, (machine 1).Reachable Any m ∧ m.Draws 0 := by
  obtain ⟨m, hm, hP⟩ := exists_reachable (S := machine 1) ⟨0, 0, 0, rfl⟩
    (show (exec _ Any _ (toLottery.map (0, ·))).any (fun m => decide (m.Draws 0)) by
      decide +kernel)
  exact ⟨m, hm, of_decide_eq_true hP⟩

/-- Two processes, with 10 and 30 tickets. -/
theorem lottery_dispatches_toLottery : ∃ m : Machine 1, (machine 1).Reachable Any m ∧ m.Draws 0 ∧
    ∀ seed, ∃ p, (m.ptable p).state = .runnable ∧ (m.setSeed seed).step (0, .schedule) =
      some ((m.setSeed (krand seed)).dispatch 0 p .lottery) := by
  obtain ⟨m, hm, hd⟩ := exists_draws
  obtain ⟨hc, hl, hpolicy, htot, hp, -⟩ := id hd
  have htot : total m.ptable ≤ 0x7fffffff := by omega
  exact ⟨m, hm, hd, (lottery_dispatches_iff hc hl hpolicy ⟨0, hp⟩).2 (.inl htot)⟩

/-- The first process sets the policy to lottery, and its child takes all the tickets
    it can. -/
def takeAllTickets : List Act :=
  [.schedule, .scan, .resume] ++ forkActs ++
    [.setpolicy 2, .yield, .scan, .resume, .settickets 0x7fffffff, .yield, .scan]

/-- The running sum is negative at the child, and nobody is switched to. -/
theorem lottery_idles : ∃ m m' : Machine 1, (machine 1).Reachable Any m ∧
    m.step (0, .schedule) = some m' ∧
    m.cpu 0 = {} ∧ m.lock = none ∧ m.schedulingPolicy = 2 ∧
    (m.ptable 0).state = .runnable ∧ (m.ptable 0).tickets = 10 ∧
    (m.ptable 1).state = .runnable ∧ (m.ptable 1).tickets = 0x7fffffff ∧
    m'.cpu 0 = {} ∧ ∀ p, (m'.ptable p).state = (m.ptable p).state := by
  obtain ⟨m, m', hm, hs, hP⟩ := exists_reachable_step (S := machine 1) (a := (0, .schedule))
    ⟨0, 0, 0, rfl⟩ (show (exec _ Any _ (takeAllTickets.map (0, ·))).any (fun m =>
      ((machine 1).step m _).any fun m' => decide (m.cpu 0 = {} ∧ m.lock = none ∧
        m.schedulingPolicy = 2 ∧ (m.ptable 0).state = .runnable ∧ (m.ptable 0).tickets = 10 ∧
        (m.ptable 1).state = .runnable ∧ (m.ptable 1).tickets = 0x7fffffff ∧ m'.cpu 0 = {} ∧
        ∀ p, (m'.ptable p).state = (m.ptable p).state)) by decide +kernel)
  exact ⟨m, m', hm, hs, of_decide_eq_true hP⟩

/-- The child, which has the most tickets, wins with none of them. -/
theorem lottery_starves : ∃ m : Machine 1, (machine 1).Reachable Any m ∧
    (m.ptable 1).state = .runnable ∧ (m.ptable 1).tickets = 0x7fffffff ∧
    ∀ r : ℕ, r < (totaltix m.ptable).toInt → winnerOf m.ptable r ≠ some 1 := by
  obtain ⟨m, hm, hP⟩ := exists_reachable (S := machine 1) ⟨0, 0, 0, rfl⟩
    (show (exec _ Any _ (takeAllTickets.map (0, ·))).any (fun m => decide
      ((m.ptable 1).state = .runnable ∧ (m.ptable 1).tickets = 0x7fffffff ∧
        (Int32.ofNat (running m.ptable 1)).toInt ≤ 0)) by decide +kernel)
  obtain ⟨hrun, htickets, hneg⟩ := of_decide_eq_true hP
  refine ⟨m, hm, hrun, htickets, fun r hr => winnerOf_ne_some hneg ?_⟩
  rw [toInt_totaltix] at hr
  omega

/-! ## The shares of the processes -/

/-- The process on the CPU after a lottery pass. -/
theorem proc_schedule_lottery (hc : m.cpu c = {}) (hpolicy : m.schedulingPolicy = 2)
    (hq : (m.ptable q).state = .runnable) (seed : UInt32) :
    (((m.setSeed seed).schedule c).cpu c).proc = lottery m.ptable (krand seed) := by
  rw [schedule_lottery hpolicy hq]
  split
  · rename_i p hp
    rw [hp, dispatch_cpu, update_self]
  · rename_i hn
    rw [hn, setSeed_cpu, hc]

/-- Over `2 ^ 32` lottery passes on a fixed set of `RUNNABLE` processes, from any seed,
    a process is switched to at least as often as its tickets times the total goes into
    `2 ^ 32`, and at most as often as with the quotient rounded up. -/
theorem lottery_share (hc : m.cpu c = {}) (hpolicy : m.schedulingPolicy = 2)
    (hp : (m.ptable p).state = .runnable) (htot : total m.ptable ≤ 0x7fffffff) (seed : UInt32) :
    (m.ptable p).stake * (2 ^ 32 / total m.ptable) ≤ ((Finset.range (2 ^ 32)).filter fun i =>
        (((m.setSeed (krand^[i] seed)).schedule c).cpu c).proc = some p).card ∧
      ((Finset.range (2 ^ 32)).filter fun i =>
        (((m.setSeed (krand^[i] seed)).schedule c).cpu c).proc = some p).card ≤
        (m.ptable p).stake * ((2 ^ 32 + total m.ptable - 1) / total m.ptable) := by
  have hproc : ∀ i, (((m.setSeed (krand^[i] seed)).schedule c).cpu c).proc =
      lottery m.ptable (krand^[i + 1] seed) := fun i => by
    rw [proc_schedule_lottery hc hpolicy hp, Function.iterate_succ_apply']
  simp only [hproc]
  exact card_lottery_bounds seed htot hp

/-- The child gets 30 of 40 passes, up to rounding. -/
theorem lottery_share_toLottery : ∃ m : Machine 1, (machine 1).Reachable Any m ∧ m.Draws 0 ∧
    30 * (2 ^ 32 / 40) ≤ ((Finset.range (2 ^ 32)).filter fun i =>
        (((m.setSeed (krand^[i] m.randSeed)).schedule 0).cpu 0).proc = some 1).card ∧
      ((Finset.range (2 ^ 32)).filter fun i =>
        (((m.setSeed (krand^[i] m.randSeed)).schedule 0).cpu 0).proc = some 1).card ≤
        30 * ((2 ^ 32 + 40 - 1) / 40) := by
  obtain ⟨m, hm, hd⟩ := exists_draws
  obtain ⟨hc, -, hpolicy, htot, -, -, hp, htickets⟩ := id hd
  have hshare := lottery_share hc hpolicy hp (by omega) m.randSeed
  have hstake : (m.ptable 1).stake = 30 := by rw [Proc.stake, Proc.tix, htickets]; decide
  rw [htot, hstake] at hshare
  exact ⟨m, hm, hd, hshare⟩

end Machine

end Xv6
