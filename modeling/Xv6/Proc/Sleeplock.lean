import Mathlib.Data.Nat.Notation
import Xv6.Lib.Monitor

/-!
# Sleep locks

The processes that call `acquiresleep`, `releasesleep` and `holdingsleep` on one sleep lock
(`sleeplock.c`), as a monitor: its data are the fields of the lock behind the spin lock `lk->lk`,
the gate is `ptable.lock`, and the only channel is the lock. A process releases the lock only
if it holds it.

* `sleeplock_safe`: one process holds the lock at most, and nobody sleeps on it while it is free;
* `holdingsleep_exact`: `holdingsleep` tells a process whether it holds the lock.
-/

namespace Xv6.Sleeplock

open Monitor TransitionSystem Function

/-- A process, by its pid. -/
abbrev Pid := ℕ

/-- The sleep lock (`struct sleeplock`), without its spin lock. -/
structure Lock where
  locked : Bool := false
  pid : Pid := 0
  deriving DecidableEq

/-- The channel: the address of the lock. -/
inductive Chan
  | lk
  deriving DecidableEq

/-- The functions of the lock. -/
inductive Call
  | acquiresleep
  | releasesleep
  | holdingsleep
  deriving DecidableEq

/-- A process in its critical section of `lk->lk`. -/
inductive Local
  /-- At the loop of `acquiresleep`; `held` if the process has the lock already, and waits for
      itself. -/
  | test (held : Bool)
  /-- At the end of `acquiresleep`. -/
  | acquired
  /-- At the start of `releasesleep`. -/
  | clear
  /-- `wakeup` in `releasesleep`. -/
  | wake
  /-- At the end of `releasesleep`. -/
  | released
  /-- In `holdingsleep`. -/
  | query (held : Bool)
  deriving DecidableEq

/-- A process outside. -/
structure Out where
  /-- It is after its return from `acquiresleep`, and before its call of `releasesleep`. -/
  held : Bool := false
  /-- What the last `holdingsleep` returned, while it is its last call. -/
  answer : Option Bool := none
  deriving DecidableEq

/-- Where a call begins. Only who holds the lock gives it back. -/
def call (o : Out) : Call → Option Local
  | .acquiresleep => some (.test o.held)
  | .releasesleep => if o.held then some .clear else none
  | .holdingsleep => some (.query o.held)

/-- The functions, at one point after the other. -/
def body (lk : Lock) (t : Pid) : Local → Op Lock Chan Local Out
  | .test held => if lk.locked then .sleep .lk (.test held) else .next ⟨true, t⟩ .acquired
  | .acquired => .leave { held := true }
  | .clear => .next ⟨false, 0⟩ .wake
  | .wake => .wakeup .lk .released
  | .released => .leave {}
  | .query held => .leave { held := held, answer := some (lk.locked && lk.pid == t) }

/-- The lock, with its spin-lock. -/
def monitor : Monitor Pid Lock Chan Local Out Call where
  init lk := lk = {}
  start := {}
  call lk _ o c := (call o c).map fun l => (lk, .inr l)
  body lk t _ := body lk t

/-- The lock, and where the processes are. -/
abbrev State := Monitor.State Pid Lock Chan Local Out

/-- The processes on a sleep lock after `initsleeplock`. -/
def system : TransitionSystem State (Monitor.Act Pid Call) := monitor.system

/-! ## Mutual exclusion -/

/-- The process has the lock. -/
def Local.holding : Local → Bool
  | .test held | .query held => held
  | .acquired | .clear => true
  | .wake | .released => false

/-- The process is between its return from `acquiresleep` and its `releasesleep`: it has set
    `lk->locked`, and not cleared it yet. -/
def holding : Monitor.Pc Chan Local Out → Bool
  | .outside o => o.held
  | .acquire l | .inside l | .unlock _ l | .sched _ l => l.holding

/-- The fields of the lock name its holder. -/
def Owned (s : State) : Prop :=
  ∀ t, holding (s.pc t) ↔ s.data.locked ∧ s.data.pid = t

variable {s s' : State} {t u : Pid}

/-- A step of `t` that leaves the lock as it is. -/
theorem Owned.keep {pc : Monitor.Pc Chan Local Out} (h : Owned s)
    (hpc : s'.pc = update s.pc t pc) (hdata : s'.data = s.data)
    (ht : holding pc = holding (s.pc t)) : Owned s' := by
  intro u
  rw [hpc, hdata]
  by_cases hu : u = t
  · rw [hu, update_self, ht]; exact h t
  · rw [update_of_ne hu]; exact h u

theorem Owned.moves (h : Owned s) (hm : Moves monitor s t (s.pc t) s') : Owned s' := by
  have ht := h t
  have keep : ∀ {s'' : State} {q : Monitor.Pc Chan Local Out}, s''.pc = update s.pc t q →
      s''.data = s.data → holding q = holding (s.pc t) → Owned s'' :=
      fun h₁ h₂ h₃ => h.keep h₁ h₂ h₃
  generalize s.pc t = pc at hm ht keep
  cases hm with
  | acquire l hchan hlock => exact keep rfl rfl rfl
  | next l d l' hbody =>
    cases l with
    | test held =>
      -- nobody has the lock, and `t` takes it
      change (if s.data.locked then _ else _) = _ at hbody
      split_ifs at hbody with hlocked
      obtain ⟨rfl, rfl⟩ := Op.next.inj hbody
      intro u
      by_cases hu : u = t
      · subst hu
        simp [holding, Local.holding]
      · change holding ((s.goto t _).pc u) ↔ _
        rw [goto_of_ne hu, h u]
        simp [hlocked, Ne.symm hu]
    | clear =>
      -- `t` has the lock, and gives it up
      obtain ⟨rfl, rfl⟩ := Op.next.inj hbody
      intro u
      by_cases hu : u = t
      · subst hu
        simp [holding, Local.holding]
      · change holding ((s.goto t _).pc u) ↔ _
        rw [goto_of_ne hu, h u, (ht.1 rfl).2]
        simp [Ne.symm hu]
    | acquired | wake | released | query => cases hbody
  | wakeup l c l' hbody hgate =>
    cases l with
    | wake =>
      obtain ⟨rfl, rfl⟩ := Op.wakeup.inj hbody
      exact keep rfl rfl rfl
    | test held =>
      change (if s.data.locked then _ else _) = _ at hbody
      split_ifs at hbody
    | acquired | clear | released | query => cases hbody
  | sleep l c l' hbody hgate =>
    cases l with
    | test held =>
      change (if s.data.locked then _ else _) = _ at hbody
      split_ifs at hbody
      obtain ⟨rfl, rfl⟩ := Op.sleep.inj hbody
      exact keep rfl rfl rfl
    | acquired | clear | wake | released | query => cases hbody
  | leave l o hbody =>
    cases l with
    | test held =>
      change (if s.data.locked then _ else _) = _ at hbody
      split_ifs at hbody
    | acquired | released | query =>
      obtain rfl := Op.leave.inj hbody
      exact keep rfl rfl rfl
    | clear | wake => cases hbody
  | unlock c l => exact keep rfl rfl rfl
  | sched c l => exact keep rfl rfl rfl

/-- Where a call goes. -/
theorem call_holding {lk d : Lock} {o : Out} {c : Call} {r : Out ⊕ Local}
    (h : monitor.call lk t o c = some (d, r)) : d = lk ∧ holding (entry r) = o.held := by
  obtain ⟨l, hl, he⟩ := Option.map_eq_some_iff.1 h
  obtain ⟨rfl, rfl⟩ := Prod.mk.inj he
  refine ⟨rfl, ?_⟩
  cases c with
  | acquiresleep | holdingsleep =>
    obtain rfl := Option.some.inj hl
    rfl
  | releasesleep =>
    rw [call] at hl
    split_ifs at hl with hheld
    obtain rfl := Option.some.inj hl
    exact hheld.symm

theorem owned_of_reachable (h : system.Reachable Any s) : Owned s := by
  refine h.invariant (fun s hs t => ?_) fun s a s' hi _ hs => ?_
  · rw [hs.2, hs.1]
    simp [holding, monitor]
  · obtain ⟨t, o, c, d, r, -, ho, hcall, rfl⟩ | ⟨t, -, hm⟩ | ⟨t, -, -, rfl⟩ := step_cases hs
    · obtain ⟨rfl, hr⟩ := call_holding hcall
      exact hi.keep rfl rfl (by rw [hr, ho]; rfl)
    · exact hi.moves hm
    · exact hi

/-! ## Wakeups -/

/-- `releasesleep` wakes up the processes that wait for the lock. -/
theorem pays : Pays monitor (Any (σ := State)) (fun lk _ => lk.locked) fun l _ => l = .wake where
  call _ _ hcall _ hr := by rwa [(call_holding hcall).1]
  next := by
    intro s t l d l' c _ _ _ hbody
    cases l with
    | test held =>
      change (if s.data.locked then _ else _) = _ at hbody
      split_ifs at hbody
      obtain ⟨rfl, rfl⟩ := Op.next.inj hbody
      exact ⟨fun _ => .inl rfl, nofun⟩
    | clear =>
      obtain ⟨rfl, rfl⟩ := Op.next.inj hbody
      exact ⟨fun _ => .inr rfl, nofun⟩
    | acquired | wake | released | query => cases hbody
  wakeup := by
    rintro s t l ⟨⟩ ⟨⟩ l' _ _ _ _
    exact .inl rfl
  sleep := by
    intro s t l c l' _ _ hbody
    cases l with
    | test held =>
      change (if s.data.locked then _ else _) = _ at hbody
      split_ifs at hbody with hlocked
      exact ⟨hlocked, nofun⟩
    | acquired | clear | wake | released | query => cases hbody
  leave := by
    rintro s t l o c _ _ hbody rfl
    cases hbody

/-- At most one process is between its return from `acquiresleep` and its `releasesleep`, and while
    the lock is free, nobody sleeps on it. -/
theorem sleeplock_safe (h : system.Reachable Any s) :
    (∀ t u, holding (s.pc t) → holding (s.pc u) → t = u) ∧
      (s.lock = none → s.gate = none → s.data.locked = false → ∀ t, s.chan t ≠ some .lk) := by
  have howned := owned_of_reachable h
  refine ⟨fun t u ht hu => ((howned t).1 ht).2.symm.trans ((howned u).1 hu).2, ?_⟩
  intro hlock _ hfree t hc
  have hr : s.data.locked := pays.reason_of_chan h hlock hc
  rw [hfree] at hr
  cases hr

/-- A lock that nobody has used. -/
def fresh : State where
  data := {}
  pc := fun _ => .outside {}

/-- Process 1 takes the lock, and process 2 sleeps on it. -/
theorem sleeplock_safe_two : ∃ s : State, system.Reachable Any s ∧ holding (s.pc 1) ∧
    s.chan 2 = some .lk ∧ ∀ u, holding (s.pc u) → u = 1 := by
  obtain ⟨s, hs, hP⟩ := exists_reachable (S := system) (s := fresh) ⟨rfl, rfl⟩
    (show (system.exec Any fresh ([.call 1 .acquiresleep, .step 1, .step 1, .step 1,
        .call 2 .acquiresleep] ++ List.replicate 4 (.step 2))).any
      (fun s => decide (holding (s.pc 1) ∧ s.chan 2 = some .lk)) by decide +kernel)
  obtain ⟨h1, h2⟩ := of_decide_eq_true hP
  exact ⟨s, hs, h1, h2, fun u hu => (sleeplock_safe hs).1 u 1 hu h1⟩

/-- `holdingsleep` returns whether the process has the lock. -/
theorem holdingsleep_exact {held : Bool} (h : system.Reachable Any s)
    (ht : s.pc t = .inside (.query held)) :
    body s.data t (.query held) = .leave { held := held, answer := some held } := by
  have howned := owned_of_reachable h t
  rw [ht] at howned
  have hanswer : (s.data.locked && s.data.pid == t) = held := by
    rw [Bool.eq_iff_iff, Bool.and_eq_true, beq_iff_eq]
    exact howned.symm
  rw [body, hanswer]

/-- Process 2 asks while process 1 has the lock. -/
theorem holdingsleep_exact_two : ∃ s : State, holding (s.pc 1) ∧
    body s.data 2 (.query false) = .leave { answer := some false } := by
  have hp := path_of_exec (show system.exec Any fresh [.call 1 .acquiresleep, .step 1, .step 1,
    .step 1, .call 2 .holdingsleep, .step 2] = some _ from rfl)
  exact ⟨_, rfl, holdingsleep_exact (hp.reachable (.init ⟨rfl, rfl⟩)) rfl⟩

end Xv6.Sleeplock
