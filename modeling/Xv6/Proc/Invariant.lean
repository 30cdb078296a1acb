import Xv6.Proc.Life
import Xv6.Proc.Moves

/-!
# Invariants of the machine

In every reachable state:

* `OnCpu`: the process on a CPU is `RUNNING`, every `RUNNING` process is on
  exactly one CPU, and `ptable.lock` is held by the CPU that is inside a critical
  section cut by `swtch`;
* `Forked`: the child of a `fork` call is an `EMBRYO` of no other call, and the
  caller is running or was preempted.

Both are proved from `Moves`, the first by following the CPU that steps: it
keeps its process, switches to a `RUNNABLE` one or gives up its own.
-/

namespace Xv6

open Function

/-- A CPU there holds `ptable.lock`. -/
def Pc.holds : Pc → Bool
  | .scan _ | .swtched _ => true
  | .loop | .running _ => false

/-- A CPU there is in `scheduler`, and has no process. -/
def Pc.idle : Pc → Bool
  | .loop | .scan _ => true
  | .swtched _ | .running _ => false

namespace Machine

variable {n : ℕ} {m m' : Machine n} {c : Fin n} {p : Slot} {k : Pass}

/-- The CPUs and the processes agree on who runs where. -/
structure OnCpu (m : Machine n) : Prop where
  lock : ∀ c, m.lock = some c ↔ (m.cpu c).pc.holds
  idle : ∀ c, (m.cpu c).proc = none ↔ (m.cpu c).pc.idle
  running : ∀ c p, (m.cpu c).proc = some p → (m.ptable p).state = .running
  unique : ∀ c c' p, (m.cpu c).proc = some p → (m.cpu c').proc = some p → c = c'
  onCpu : ∀ p, (m.ptable p).state = .running → ∃ c, (m.cpu c).proc = some p
  intr : ∀ c, (m.cpu c).intr ≠ none → (m.cpu c).pc.holds = false

namespace OnCpu

/-- No other CPU is inside a critical section when `c` steps. -/
theorem holds_eq_false (h : m.OnCpu) (hl : m.lock = none ∨ m.lock = some c) {c' : Fin n}
    (hc : c' ≠ c) : (m.cpu c').pc.holds = false := by
  by_contra hh
  have := (h.lock c').2 (by simpa using hh)
  rcases hl with hl | hl <;> rw [hl] at this
  · cases this
  · exact hc (Option.some.inj this).symm

/-- A CPU about to step holds the lock, or needs nobody to. -/
theorem lock_of_holds (h : m.OnCpu) (hc : (m.cpu c).pc.holds) :
    m.lock = none ∨ m.lock = some c := .inr ((h.lock c).2 hc)

/-- The CPU `c` becomes `x`, and the lock is held by it if `x` says so. -/
theorem setCpu (h : m.OnCpu) (hl : m.lock = none ∨ m.lock = some c) {x : Cpu}
    {l : Option (Fin n)} (hx : l = if x.pc.holds then some c else none)
    (hidle : x.proc = none ↔ x.pc.idle) (hintr : x.intr = none)
    (hrun : ∀ q, x.proc = some q → (m'.ptable q).state = .running)
    (huniq : ∀ c' q, c' ≠ c → x.proc = some q → (m.cpu c').proc ≠ some q)
    (hsame : ∀ q, x.proc ≠ some q → ((m'.ptable q).state = .running ↔
      (m.ptable q).state = .running ∧ (m.cpu c).proc ≠ some q))
    (hcpu : m'.cpu = update m.cpu c x) (hlock : m'.lock = l) : m'.OnCpu := by
  have hupd : ∀ c', c' ≠ c → m'.cpu c' = m.cpu c' := fun c' hc' => by
    rw [hcpu, update_of_ne hc']
  have hself : m'.cpu c = x := by rw [hcpu, update_self]
  constructor
  · intro c'
    by_cases hc' : c' = c
    · subst hc'
      rw [hself, hlock, hx]
      cases x.pc.holds <;> simp
    · rw [hupd c' hc', h.holds_eq_false hl hc', hlock, hx]
      cases x.pc.holds <;> simp [Ne.symm hc']
  · intro c'
    by_cases hc' : c' = c
    · subst hc'; rw [hself]; exact hidle
    · rw [hupd c' hc']; exact h.idle c'
  · intro c' q hq
    by_cases hc' : c' = c
    · subst hc'; rw [hself] at hq; exact hrun q hq
    · rw [hupd c' hc'] at hq
      have hxq : x.proc ≠ some q := fun hx => huniq c' q hc' hx hq
      exact (hsame q hxq).2 ⟨h.running c' q hq, fun hcq => hc' (h.unique c' c q hq hcq)⟩
  · intro c₁ c₂ q h₁ h₂
    by_cases hc₁ : c₁ = c <;> by_cases hc₂ : c₂ = c
    · rw [hc₁, hc₂]
    · subst hc₁; rw [hself] at h₁; rw [hupd c₂ hc₂] at h₂; exact absurd h₂ (huniq c₂ q hc₂ h₁)
    · subst hc₂; rw [hself] at h₂; rw [hupd c₁ hc₁] at h₁; exact absurd h₁ (huniq c₁ q hc₁ h₂)
    · rw [hupd c₁ hc₁] at h₁; rw [hupd c₂ hc₂] at h₂; exact h.unique c₁ c₂ q h₁ h₂
  · intro q hq
    by_cases hxq : x.proc = some q
    · exact ⟨c, by rw [hself]; exact hxq⟩
    · obtain ⟨hq, hne⟩ := (hsame q hxq).1 hq
      obtain ⟨c', hc'⟩ := h.onCpu q hq
      have hcc : c' ≠ c := fun hcc => hne (hcc ▸ hc')
      exact ⟨c', by rw [hupd c' hcc]; exact hc'⟩
  · intro c' hi
    by_cases hc' : c' = c
    · subst hc'; rw [hself] at hi; exact absurd hintr hi
    · rw [hupd c' hc'] at hi ⊢; exact h.intr c' hi

/-- A step that moves no CPU and neither starts nor stops a process. -/
theorem congr (h : m.OnCpu) (hcpu : m'.cpu = m.cpu) (hlock : m'.lock = m.lock)
    (hrun : ∀ q, (m'.ptable q).state = .running ↔ (m.ptable q).state = .running) : m'.OnCpu where
  lock c := by rw [hcpu, hlock]; exact h.lock c
  idle c := by rw [hcpu]; exact h.idle c
  running c p hp := (hrun p).2 (h.running c p (by rwa [hcpu] at hp))
  unique c c' p := by rw [hcpu]; exact h.unique c c' p
  onCpu p hp := by rw [hcpu]; exact h.onCpu p ((hrun p).1 hp)
  intr c := by rw [hcpu]; exact h.intr c

/-- The timer handler goes on. -/
theorem setIntr (h : m.OnCpu) (hc : (m.cpu c).pc.holds = false) (i : Option Intr) :
    (m.setIntr c i).OnCpu := by
  have hupd : ∀ c', ((m.setIntr c i).cpu c').pc = (m.cpu c').pc ∧
      ((m.setIntr c i).cpu c').proc = (m.cpu c').proc := by
    intro c'
    by_cases hc' : c' = c
    · subst hc'; simp
    · simp [update_of_ne hc']
  constructor
  · intro c'; rw [(hupd c').1]; exact h.lock c'
  · intro c'; rw [(hupd c').1, (hupd c').2]; exact h.idle c'
  · intro c' p; rw [(hupd c').2]; exact h.running c' p
  · intro c₁ c₂ p; rw [(hupd c₁).2, (hupd c₂).2]; exact h.unique c₁ c₂ p
  · intro p hp; obtain ⟨c', hc'⟩ := h.onCpu p hp; exact ⟨c', by rw [(hupd c').2]; exact hc'⟩
  · intro c' hi
    rw [(hupd c').1]
    by_cases hc' : c' = c
    · rw [hc']; exact hc
    · exact h.intr c' (by simpa [update_of_ne hc'] using hi)

/-- The scheduler switches to a `RUNNABLE` process. -/
theorem dispatch (h : m.OnCpu) (hl : m.lock = none ∨ m.lock = some c)
    (hc : (m.cpu c).proc = none) (hp : (m.ptable p).state = .runnable) :
    (m.dispatch c p k).OnCpu := by
  refine h.setCpu hl (x := { proc := some p, pc := .swtched k }) rfl (by simp [Pc.idle]) rfl
    ?_ ?_ ?_ rfl rfl
  · intro q hq
    obtain rfl := Option.some.inj hq
    simp
  · intro c' q _ hq hc'
    obtain rfl := Option.some.inj hq
    rw [h.running c' _ hc'] at hp
    cases hp
  · intro q hq
    have hqp : q ≠ p := fun e => hq (by rw [e])
    simp [modify_of_ne _ _ hqp, hc]

/-- The process on `c` stops running and switches back to the scheduler. -/
theorem sched (h : m.OnCpu) (hl : m.lock = none ∨ m.lock = some c)
    (hc : (m.cpu c).proc = some p) (hcpu : m'.cpu = m.cpu)
    (hp : (m'.ptable p).state ≠ .running)
    (hrun : ∀ q, q ≠ p → ((m'.ptable q).state = .running ↔ (m.ptable q).state = .running)) :
    (m'.sched c k).OnCpu := by
  have hx : (afterSched k).proc = none := by cases k <;> rfl
  refine h.setCpu hl (x := afterSched k) (l := if (afterSched k).pc.holds then some c else none)
    rfl (by cases k <;> simp [afterSched, Pc.idle]) (by cases k <;> rfl) ?_ ?_ ?_ ?_ ?_
  · intro q hq; rw [hx] at hq; cases hq
  · intro c' q _ hq; rw [hx] at hq; cases hq
  · intro q _
    rw [sched_toKernel]
    by_cases hqp : q = p
    · subst hqp; simp [hp, hc]
    · have : ¬some p = some q := fun e => hqp (Option.some.inj e).symm
      simp [hrun q hqp, hc, this]
  · rw [sched_cpu, hcpu]
  · cases k <;> rfl

/-- The process on `c` leaves the critical section. -/
theorem release (h : m.OnCpu) (hl : m.lock = none ∨ m.lock = some c)
    (hc : (m.cpu c).proc = some p) (hcpu : m'.cpu = m.cpu)
    (hrun : ∀ q, (m'.ptable q).state = .running ↔ (m.ptable q).state = .running) :
    (m'.release c p k).OnCpu := by
  refine h.setCpu hl (x := { proc := some p, pc := .running k }) rfl (by simp [Pc.idle]) rfl
    ?_ ?_ ?_ (by rw [release_cpu, hcpu]) rfl
  · intro q hq
    obtain rfl := Option.some.inj hq
    exact (hrun _).2 (h.running c _ hc)
  · intro c' q hne hq hc'
    obtain rfl := Option.some.inj hq
    exact hne (h.unique c' c _ hc' hc)
  · intro q hq
    rw [release_toKernel, hrun]
    simp only [iff_self_and]
    intro _ e
    exact hq (by rw [← e, hc])

end OnCpu

/-! ### Its steps -/

section Records

variable (m) (p q : Slot) (v : Int32) (g : Option Forking)

theorem state_ret : ((m.ret p v).ptable q).state = (m.ptable q).state :=
  state_modify (fun _ => by rfl) m.ptable p q

theorem life_ret : ((m.ret p v).ptable q).life = (m.ptable q).life :=
  life_modify (fun _ => by rfl) m.ptable p q

theorem stack_ret : ((m.ret p v).ptable q).stack = (m.ptable q).stack :=
  stack_modify (fun _ => by rfl) m.ptable p q

theorem state_setForking : ((m.setForking p g).ptable q).state = (m.ptable q).state :=
  state_modify (fun _ => by rfl) m.ptable p q

theorem life_setForking : ((m.setForking p g).ptable q).life = (m.ptable q).life :=
  life_modify (fun _ => by rfl) m.ptable p q

end Records

theorem state_of_zombieChild {t : Ptable} {q : Slot} (h : zombieChild t p = some q) :
    (t q).parent = some p ∧ (t q).state = .zombie := by
  simpa using List.find?_some h

theorem lottery_runnable {t : Ptable} {r : UInt32} {l : List Slot} {acc : Int32}
    (h : winner t r l acc = some p) : (t p).state = .runnable := by
  induction l generalizing acc with
  | nil => cases h
  | cons q l ih =>
    simp only [winner] at h
    split_ifs at h with hq ha
    · exact ih h
    · obtain rfl := Option.some.inj h
      simpa using hq
    · exact ih h

/-- Interrupts are disabled in the critical sections and in the timer handler. -/
theorem interruptible_iff : m.interruptible c ↔
    (m.cpu c).pc.holds = false ∧ (m.cpu c).intr = none := by
  unfold interruptible Pc.holds
  rcases hc : m.cpu c with ⟨q, pc, i⟩
  cases pc <;> cases i <;> simp

theorem OnCpu.yield (h : m.OnCpu) (hl : m.lock = none) (hc : (m.cpu c).proc = some p) :
    (m.yield c p k).OnCpu := by
  refine h.sched (.inl hl) hc rfl ?_ fun q hq => ?_
  · simp
  · simp [modify_of_ne _ _ hq]

theorem OnCpu.sleep (h : m.OnCpu) (hl : m.lock = none ∨ m.lock = some c)
    (hc : (m.cpu c).proc = some p) {chan : Chan} {ctx : Context} :
    (m.sleep c p k chan ctx).OnCpu := by
  refine h.sched hl hc rfl ?_ fun q hq => ?_
  · simp
  · simp [modify_of_ne _ _ hq]

/-- What `wait` and `waitx` do to the states: a zombie is freed, and the
    caller may go to sleep. -/
theorem OnCpu.waitLoop (h : m.OnCpu) (hl : m.lock = none ∨ m.lock = some c)
    (hc : (m.cpu c).proc = some p) {ctx : Context} {store : Proc → Proc → Proc}
    (hstore : ∀ q r, (store q r).state = r.state) : (m.waitLoop c p k ctx store).OnCpu := by
  unfold Machine.waitLoop
  split
  · rename_i q hq
    have hz := (state_of_zombieChild hq).2
    refine h.release hl hc rfl fun r => ?_
    have hs : ∀ r, (((m.onProc q Proc.reap).onProc p (store (m.ptable q))).ret p
        (m.ptable q).pid).ptable r = Xv6.modify (Xv6.modify (Xv6.modify m.ptable q Proc.reap) p
          (store (m.ptable q))) p (fun x => { x with eax := (m.ptable q).pid }) r := fun _ => rfl
    rw [hs, state_modify (fun _ => by rfl), state_modify (hstore _), modify_apply]
    split_ifs with hrq
    · subst hrq; simp [Proc.reap, hz]
    · rfl
  · split_ifs
    · exact h.release hl hc rfl fun q => by rw [state_ret]
    · exact h.sleep hl hc

theorem OnCpu.schedule (h : m.OnCpu) (hc : m.cpu c = {}) (hl : m.lock = none) :
    (m.schedule c).OnCpu := by
  have hproc : (m.cpu c).proc = none := by rw [hc]
  unfold Machine.schedule
  split_ifs
  · split
    · rename_i p hp
      exact h.dispatch (.inl hl) hproc (fcfs_eq_some_iff.1 hp).1
    · exact h
  · have h' : ∀ seed, (m.setSeed seed).OnCpu := fun _ => h.congr rfl rfl fun _ => Iff.rfl
    split
    · rename_i p hp
      unfold lottery at hp
      split_ifs at hp
      refine (h' (krand m.randSeed)).dispatch ?_ ?_ ?_
      · rw [setSeed_lock]; exact .inl hl
      · rw [setSeed_cpu]; exact hproc
      · rw [setSeed_ptable]; exact lottery_runnable hp
    · exact h' _
  · exact h
  · exact h.setCpu (.inl hl) (x := { pc := .scan 0 }) rfl (by simp [Pc.idle]) rfl
      (fun _ hq => nomatch hq) (fun _ _ _ hq => nomatch hq) (fun q _ => by simp [hproc]) rfl rfl

theorem OnCpu.scan (h : m.OnCpu) {i : ℕ} (hc : (m.cpu c).pc = .scan i) : (m.scan c i).OnCpu := by
  have hl := h.lock_of_holds (c := c) (by rw [hc]; rfl)
  have hproc : (m.cpu c).proc = none := (h.idle c).2 (by rw [hc]; rfl)
  unfold Machine.scan
  split
  · rename_i p hp
    exact h.dispatch hl hproc (rrNext_eq_some_iff.1 hp).1.2
  · exact h.setCpu hl (x := {}) rfl (by simp [Pc.idle]) rfl
      (fun _ hq => nomatch hq) (fun _ _ _ hq => nomatch hq) (fun q _ => by simp [hproc]) rfl rfl

theorem OnCpu.resume (h : m.OnCpu) (hp : (m.cpu c).proc = some p)
    (hc : (m.cpu c).pc = .swtched k) : (m.resume c p k).OnCpu := by
  have hl := h.lock_of_holds (c := c) (by rw [hc]; rfl)
  have h' : (m.onProc p fun q => { q with chan := none }).OnCpu := h.congr rfl rfl fun q => by
    rw [onProc_toKernel, modify_ptable, state_modify (fun _ => by rfl)]
  unfold Machine.resume
  cases (m.ptable p).context with
  | forkret | yield => exact h.release hl hp rfl fun _ => Iff.rfl
  | sleep => exact h'.release hl hp rfl fun _ => Iff.rfl
  | wait => exact h'.waitLoop hl hp fun _ _ => rfl
  | waitx => exact h'.waitLoop hl hp fun _ _ => rfl

/-! ## Fork calls -/

/-- The process `p` may be in a `fork` call: it runs, or was preempted. -/
def AtFork (m : Machine n) (p : Slot) : Prop :=
  ((m.ptable p).state = .runnable ∨ (m.ptable p).state = .running) ∧
    ((m.ptable p).context = .yield ∨
      ∃ c k, (m.cpu c).proc = some p ∧ (m.cpu c).pc = .running k)

/-- The `fork` calls and their children agree. -/
structure Forked (m : Machine n) : Prop where
  child : ∀ p f, (m.ptable p).forking = some f → (m.ptable f.child).state = .embryo
  unique : ∀ p q f g, (m.ptable p).forking = some f → (m.ptable q).forking = some g →
    f.child = g.child → p = q
  caller : ∀ p f, (m.ptable p).forking = some f → m.AtFork p

/-- The invariant of the machine. -/
structure Inv (m : Machine n) : Prop where
  onCpu : m.OnCpu
  forked : m.Forked

variable {a : Act}

/-- The process that forks runs, and its child is an `EMBRYO`. -/
theorem Inv.of_forks (h : m.Inv) {f : Forking} (hf : m.Forks c p f) :
    (m.cpu c).proc = some p ∧ (m.ptable p).state = .running ∧
      (m.ptable f.child).state = .embryo ∧ (m.ptable p).forking = some f ∧ f.child ≠ p := by
  obtain ⟨k, hc, hf⟩ := hf
  have hp : (m.cpu c).proc = some p := by rw [hc]
  have hrun := h.onCpu.running c p hp
  have hch := h.forked.child p f hf
  refine ⟨hp, hrun, hch, hf, fun e => ?_⟩
  rw [e, hrun] at hch
  cases hch

/-- The process that makes a system call runs. -/
theorem Inv.of_calls (h : m.Inv) (hp : m.Calls c p k) :
    (m.cpu c).proc = some p ∧ (m.ptable p).state = .running := by
  have hc : (m.cpu c).proc = some p := by rw [hp.1]
  exact ⟨hc, h.onCpu.running c p hc⟩

/-- A change of two records that leaves nobody running who was not. -/
theorem running_modify {t : Ptable} {q : Slot} {f : Proc → Proc}
    (hq : (t q).state ≠ .running) (hf : (f (t q)).state ≠ .running) (r : Slot) :
    (Xv6.modify t q f r).state = .running ↔ (t r).state = .running := by
  by_cases hr : r = q
  · subst hr; simp [hq, hf]
  · rw [modify_of_ne _ _ hr]

theorem Inv.onCpu_advance (h : m.Inv) {q : Slot} {g : Proc → Proc} (f : Option Forking)
    (hg : ∀ x, (g x).state = x.state) :
    ((m.setKernel (m.toKernel.modify q g)).setForking p f).OnCpu :=
  h.onCpu.congr rfl rfl fun q => by
    rw [state_setForking, setKernel_toKernel, modify_ptable, state_modify hg]

theorem Inv.onCpu_finish (h : m.Inv) {f : Forking} (hf : m.Forks c p f) {g : Proc → Proc}
    {v : Int32}
    (hg : (g (m.ptable f.child)).state ≠ .running) :
    (((m.setKernel (m.toKernel.modify f.child g)).setForking p none).ret p v).OnCpu :=
  h.onCpu.congr rfl rfl fun q => by
    rw [state_ret, state_setForking]
    exact running_modify (by simp [(h.of_forks hf).2.2.1]) hg q

theorem onCpu_of_moves (h : m.Inv) (hm : m.Moves c a m') : m'.OnCpu := by
  have ho := h.onCpu
  cases hm with
  | schedule hc hl => exact ho.schedule hc hl
  | scan hc => exact ho.scan hc
  | resume hp hc => exact ho.resume hp hc
  | timer hi =>
    have hc := (interruptible_iff.1 hi).1
    unfold Machine.timer
    split_ifs
    · have h' : Machine.OnCpu { m with ticks := m.ticks + 1 } := ho.congr rfl rfl fun _ => Iff.rfl
      exact h'.setIntr hc _
    · exact ho.setIntr hc _
  | intrWakeup hi hl =>
    have h' : Machine.OnCpu { m with ptable := wakeup1 m.ptable (some .ticks) } :=
      ho.congr rfl rfl fun q => (woken_wakeup1 m.ptable _ q).running_iff
    exact h'.setIntr (ho.intr c (by simp [hi])) _
  | intrAccount hi hl =>
    have h' : (m.setKernel (account m.toKernel)).OnCpu := ho.congr rfl rfl fun q => by
      have : ((m.ptable q).charge).state = (m.ptable q).state := by
        unfold Proc.charge; split <;> rfl
      rw [← this]; rfl
    exact h'.setIntr (ho.intr c (by simp [hi])) _
  | intrPreempt hc _ hl => exact ho.yield hl (by rw [hc])
  | intrReturn hi => exact ho.setIntr (ho.intr c (by simp [hi])) _
  | wakeup _ hl _ => exact ho.congr rfl rfl fun q => (woken_wakeup1 m.ptable _ q).running_iff
  | yield hl hp => exact ho.yield hl (h.of_calls hp).1
  | sleep hl _ hp => exact ho.sleep (.inl hl) (h.of_calls hp).1
  | @exit p k hl hp _ =>
    obtain ⟨he, ho'⟩ := life_exit (ho.running c p hp.proc)
    refine ho.sched (.inl hl) hp.proc rfl ?_ fun q hq => (ho' q hq).running_iff
    have : ((Xv6.exit m.toKernel p).ptable p).state = .zombie := by
      rw [← Proc.life_state, he]
    simp [this]
  | wait hl hp => exact ho.waitLoop (.inl hl) (h.of_calls hp).1 fun _ _ => rfl
  | waitxNull =>
    exact ho.congr rfl rfl fun q => by rw [state_ret]
  | waitx hl hp => exact ho.waitLoop (.inl hl) (h.of_calls hp).1 fun _ _ => rfl
  | kill =>
    exact ho.congr rfl rfl fun q => by
      rw [state_ret]
      exact (woken_kill m.toKernel _ q).running_iff
  | setpolicy =>
    exact ho.congr rfl rfl fun q => by
      rw [state_ret, setKernel_toKernel, setpolicy_ptable]
  | settickets =>
    exact ho.congr rfl rfl fun q => by
      rw [state_ret, setKernel_toKernel,
        ← Proc.life_state, life_settickets, Proc.life_state]
  | allocproc hl hp =>
    unfold Machine.allocproc
    cases hu : Xv6.allocproc m.toKernel with
    | none =>
      exact ho.congr rfl rfl fun q => by rw [state_ret]
    | some x =>
      obtain ⟨np, κ⟩ := x
      obtain ⟨hfind, hκ⟩ := allocproc_eq_some hu
      have hnp := state_of_findUnused hfind
      refine ho.congr rfl rfl fun q => ?_
      rw [state_setForking, setKernel_toKernel, hκ]
      exact running_modify (by simp [hnp]) (by simp) q
  | @kalloc p np page hf =>
    cases page with
    | none => exact h.onCpu_finish hf (by simp)
    | some page => exact h.onCpu_advance _ fun _ => by rfl
  | @copyuvm p np pgdir hf =>
    cases pgdir with
    | none => exact h.onCpu_finish hf (by simp)
    | some pgdir => exact h.onCpu_advance _ fun _ => by rfl
  | ready _ hf => exact h.onCpu_finish hf (by simp)
  | fault =>
    exact ho.congr rfl rfl fun q => by
      rw [onProc_toKernel, modify_ptable, state_modify (fun _ => by rfl)]
  | image =>
    exact ho.congr rfl rfl fun q => by
      rw [onProc_toKernel, modify_ptable, state_modify (fun _ => by rfl)]

/-! ### Their steps -/

theorem state_eq_of_woken {x x' : Proc} (h : Life.Woken x.life x'.life)
    (hx : x.state = .runnable ∨ x.state = .running) : x'.state = x.state := by
  have := h.eq_of_ne (by rcases hx with hx | hx <;> simp [hx])
  rw [← Proc.life_state, this, Proc.life_state]

theorem forking_modify {f : Proc → Proc} (hf : ∀ r, (f r).forking = r.forking) (t : Ptable)
    (p q : Slot) : (modify t p f q).forking = (t q).forking :=
  apply_modify Proc.forking hf t p q

theorem context_modify {f : Proc → Proc} (hf : ∀ r, (f r).context = r.context) (t : Ptable)
    (p q : Slot) : (modify t p f q).context = (t q).context :=
  apply_modify Proc.context hf t p q

theorem context_eq_of_stack {x x' : Proc} (h : x'.stack = x.stack) : x'.context = x.context :=
  congrArg Prod.fst h

theorem forking_eq_of_stack {x x' : Proc} (h : x'.stack = x.stack) : x'.forking = x.forking :=
  congrArg Prod.snd h

/-- A process that is neither moved nor changed stays where it is in its call. -/
theorem AtFork.congr (h : m.AtFork p) (hs : (m'.ptable p).state = (m.ptable p).state)
    (hx : (m'.ptable p).context = (m.ptable p).context)
    (hcpu : ∀ c k, (m.cpu c).proc = some p → (m.cpu c).pc = .running k →
      (m'.cpu c).proc = some p ∧ (m'.cpu c).pc = .running k) : m'.AtFork p := by
  rw [AtFork, hs, hx]
  exact ⟨h.1, h.2.imp_right fun ⟨c, k, hc, hk⟩ => ⟨c, k, hcpu c k hc hk⟩⟩

theorem AtFork.ne (h : m.AtFork p) {q : Slot}
    (hq : (m.ptable q).state ≠ .runnable ∧ (m.ptable q).state ≠ .running) : p ≠ q := by
  rintro rfl
  exact h.1.elim hq.1 hq.2

/-- The calls after a step are those before it, with the same children. -/
theorem Forked.of_calls_eq (h : m.Forked) (hold : ∀ q f, (m'.ptable q).forking = some f →
    ∃ e, (m.ptable q).forking = some e ∧ f.child = e.child ∧
      ((m.ptable f.child).state = .embryo → (m'.ptable f.child).state = .embryo) ∧
      (m.AtFork q → m'.AtFork q)) : m'.Forked where
  child q f hq := by
    obtain ⟨e, hq, he, hch, -⟩ := hold q f hq
    exact hch (he ▸ h.child q e hq)
  unique q r f g hq hr heq := by
    obtain ⟨e, hq, he, -⟩ := hold q f hq
    obtain ⟨e', hr, he', -⟩ := hold r g hr
    exact h.unique q r e e' hq hr (by rw [← he, ← he', heq])
  caller q f hq := by
    obtain ⟨e, hq, -, -, hat⟩ := hold q f hq
    exact hat (h.caller q e hq)

/-- A step that only wakes up sleepers, moving no process from its CPU. -/
theorem Forked.of_woken (h : m.Forked)
    (hstack : ∀ q, (m'.ptable q).stack = (m.ptable q).stack)
    (hwoken : ∀ q, (m'.ptable q).state = (m.ptable q).state ∨
      (m.ptable q).state = .sleeping ∧ (m'.ptable q).state = .runnable)
    (hcpu : ∀ c q k, (m.cpu c).proc = some q → (m.cpu c).pc = .running k →
      (m'.cpu c).proc = some q ∧ (m'.cpu c).pc = .running k) :
    m'.Forked := by
  refine h.of_calls_eq fun q f hq => ?_
  rw [forking_eq_of_stack (hstack q)] at hq
  refine ⟨f, hq, rfl, fun hs => ?_, fun hat => ?_⟩
  · rcases hwoken f.child with hw | ⟨hw, -⟩
    · rw [hw, hs]
    · rw [hs] at hw; cases hw
  · refine hat.congr ?_ (context_eq_of_stack (hstack q)) fun c k => hcpu c q k
    exact (hwoken q).elim id fun hw => absurd rfl (hat.ne (by rw [hw.1]; exact ⟨nofun, nofun⟩))

/-- A step of a process that is in no `fork` call after it: the calls of the
    others go on. -/
theorem Forked.of_others (h : m.Forked) (hp : (m.cpu c).proc = some p)
    (hnone : (m'.ptable p).forking = none) (hcpu : ∀ c', c' ≠ c → m'.cpu c' = m.cpu c')
    (hother : ∀ q, q ≠ p → (m'.ptable q).forking = (m.ptable q).forking)
    (hembryo : ∀ q r f, q ≠ p → (m.ptable q).forking = some f → f.child = r →
      (m.ptable r).state = .embryo → (m'.ptable r).state = .embryo)
    (hsame : ∀ q, q ≠ p → ((m.ptable q).state = .runnable ∨ (m.ptable q).state = .running) →
      (m'.ptable q).state = (m.ptable q).state ∧ (m'.ptable q).context = (m.ptable q).context) :
    m'.Forked := by
  refine h.of_calls_eq fun q f hq => ?_
  have hqp : q ≠ p := fun e => by rw [e, hnone] at hq; cases hq
  rw [hother q hqp] at hq
  refine ⟨f, hq, rfl, hembryo q _ f hqp hq rfl, fun hat => ?_⟩
  obtain ⟨hs, hx⟩ := hsame q hqp hat.1
  refine hat.congr hs hx fun c' k hc' hk => ?_
  have hcc : c' ≠ c := fun e => by
    rw [e, hp] at hc'
    exact hqp (Option.some.inj hc').symm
  rw [hcpu c' hcc]
  exact ⟨hc', hk⟩

/-- A step that changes the record of one process only, which is in no `fork` call. -/
theorem Forked.of_one (h : m.Inv) (hp : (m.cpu c).proc = some p)
    (hnone : (m'.ptable p).forking = none) (hcpu : ∀ c', c' ≠ c → m'.cpu c' = m.cpu c')
    (hother : ∀ q, q ≠ p → m'.ptable q = m.ptable q) : m'.Forked := by
  refine h.forked.of_others hp hnone hcpu (fun q hq => by rw [hother q hq])
    (fun _ r _ _ _ _ hr => ?_) fun q hq _ => by rw [hother q hq]; exact ⟨rfl, rfl⟩
  rw [hother r fun e => ?_, hr]
  rw [e, h.onCpu.running c p hp] at hr
  cases hr

/-- A system call that wakes up sleepers and may switch the process out. -/
theorem Forked.of_calls (h : m.Inv) (hc : (m.cpu c).proc = some p)
    (hstack : ∀ q, q ≠ p → (m'.ptable q).stack = (m.ptable q).stack)
    (hnone : (m'.ptable p).forking = none)
    (hwoken : ∀ q, q ≠ p → Life.Woken (m.ptable q).life (m'.ptable q).life)
    (hcpu : ∀ c', c' ≠ c → m'.cpu c' = m.cpu c') : m'.Forked := by
  have hrun := h.onCpu.running c p hc
  refine h.forked.of_others hc hnone hcpu
    (fun q hq => forking_eq_of_stack (hstack q hq)) (fun q r f _ _ _ hr => ?_) fun q hq hs => ?_
  · have hrp : r ≠ p := fun e => by rw [e, hrun] at hr; cases hr
    exact (hwoken r hrp).embryo_iff.2 hr
  · exact ⟨state_eq_of_woken (hwoken q hq) hs, context_eq_of_stack (hstack q hq)⟩

/-- A system call that wakes up sleepers, and leaves the process on its CPU. -/
theorem Forked.of_calls_kept (h : m.Inv) (hp : m.Calls c p k)
    (hstack : ∀ q, (m'.ptable q).stack = (m.ptable q).stack)
    (hwoken : ∀ q, Life.Woken (m.ptable q).life (m'.ptable q).life) (hcpu : m'.cpu = m.cpu) :
    m'.Forked :=
  .of_calls h (h.of_calls hp).1 (fun q _ => hstack q)
    ((forking_eq_of_stack (hstack p)).trans hp.2) (fun q _ => hwoken q) fun c' _ => by rw [hcpu]

theorem sched_cpu_of_ne {c' : Fin n} (hc : c' ≠ c) : (m.sched c k).cpu c' = m.cpu c' := by
  rw [sched_cpu, update_of_ne hc]

theorem release_cpu_of_ne {c' : Fin n} (hc : c' ≠ c) : (m.release c p k).cpu c' = m.cpu c' := by
  rw [release_cpu, update_of_ne hc]

/-- The scheduler switches to a `RUNNABLE` process, which was preempted if it is
    in a `fork` call. -/
theorem Forked.dispatch (h : m.Inv) (hc : (m.cpu c).proc = none)
    (hp : (m.ptable p).state = .runnable) : (m.dispatch c p k).Forked := by
  have hstack : ∀ q, ((m.dispatch c p k).ptable q).stack = (m.ptable q).stack := fun q =>
    stack_modify (fun _ => by rfl) m.ptable p q
  have hne : ∀ q, q ≠ p → (m.dispatch c p k).ptable q = m.ptable q := fun q hq => by
    rw [dispatch_toKernel, modify_ptable, modify_of_ne _ _ hq]
  refine h.forked.of_calls_eq fun q f hq => ?_
  rw [forking_eq_of_stack (hstack q)] at hq
  refine ⟨f, hq, rfl, fun hch => ?_, fun hat => ?_⟩
  · rw [hne _ fun e => ?_, hch]
    rw [e, hp] at hch
    cases hch
  by_cases hqp : q = p
  · subst hqp
    rw [AtFork, context_eq_of_stack (hstack q)]
    refine ⟨.inr (by simp), hat.2.imp_right ?_⟩
    rintro ⟨c', k', hc', -⟩
    rw [h.onCpu.running c' q hc'] at hp
    cases hp
  · refine hat.congr (by rw [hne q hqp]) (by rw [hne q hqp]) fun c' k' hc' hk' => ?_
    have hcc : c' ≠ c := fun e => by rw [e, hc] at hc'; cases hc'
    rw [dispatch_cpu, update_of_ne hcc]
    exact ⟨hc', hk'⟩

/-- `wait` and `waitx` free a zombie, which is in no `fork` call and of none. -/
theorem Forked.waitLoop (h : m.Inv) (hc : (m.cpu c).proc = some p)
    (hf : (m.ptable p).forking = none) {ctx : Context} {store : Proc → Proc → Proc}
    (hstore : ∀ q r, (store q r).stack = r.stack) : (m.waitLoop c p k ctx store).Forked := by
  have hrun := h.onCpu.running c p hc
  unfold Machine.waitLoop
  split
  · rename_i q hq
    have hz := (state_of_zombieChild hq).2
    have hother : ∀ r, r ≠ p → ((((m.onProc q Proc.reap).onProc p (store (m.ptable q))).ret p
        (m.ptable q).pid).release c p k).ptable r = Xv6.modify m.ptable q Proc.reap r := by
      intro r hr
      rw [release_toKernel, ret_toKernel, modify_ptable, modify_of_ne _ _ hr, onProc_toKernel,
        modify_ptable, modify_of_ne _ _ hr, onProc_toKernel, modify_ptable]
    refine h.forked.of_others hc ?_ (fun c' hc' => release_cpu_of_ne hc') (fun r hr => ?_)
      (fun _ r f _ _ _ hr => ?_) fun r hr hs => ?_
    · refine (forking_eq_of_stack (x := m.ptable p) ?_).trans hf
      rw [release_toKernel, stack_ret,
        onProc_toKernel, modify_ptable, stack_modify (hstore _), onProc_toKernel, modify_ptable,
        stack_modify (fun _ => by rfl)]
    · rw [hother r hr]
      exact forking_eq_of_stack (stack_modify (fun _ => by rfl) _ _ _)
    · have hrp : r ≠ p := fun e => by rw [e, hrun] at hr; cases hr
      have hrq : r ≠ q := fun e => by rw [e, hz] at hr; cases hr
      rw [hother r hrp, modify_of_ne _ _ hrq, hr]
    · have hrq : r ≠ q := fun e => by rw [e, hz] at hs; rcases hs with hs | hs <;> cases hs
      rw [hother r hr, modify_of_ne _ _ hrq]
      exact ⟨rfl, rfl⟩
  · have hother : ∀ (f : Proc → Proc) (r : Slot), r ≠ p →
        (m.onProc p f).ptable r = m.ptable r := fun f r hr => by
      rw [onProc_toKernel, modify_ptable, modify_of_ne _ _ hr]
    split_ifs
    · refine .of_one h hc ?_ (fun c' hc' => release_cpu_of_ne hc') fun r hr => ?_
      · rw [release_toKernel, ret_toKernel, modify_ptable, modify_self]; exact hf
      · rw [release_toKernel, Machine.ret, hother _ _ hr]
    · refine .of_one h hc ?_ (fun c' hc' => sched_cpu_of_ne hc') fun r hr => ?_
      · rw [Machine.sleep, sched_toKernel, onProc_toKernel, modify_ptable, modify_self]; exact hf
      · rw [Machine.sleep, sched_toKernel, hother _ _ hr]

/-- A process in a `fork` call that continues was preempted. -/
theorem Inv.context_of_forking (h : m.Inv) (hp : (m.cpu c).proc = some p)
    (hc : (m.cpu c).pc = .swtched k) {f : Forking} (hf : (m.ptable p).forking = some f) :
    (m.ptable p).context = .yield := by
  rcases (h.forked.caller p f hf).2 with hx | ⟨c', k', hc', hk'⟩
  · exact hx
  · rw [h.onCpu.unique c' c p hc' hp, hc] at hk'
    cases hk'

/-- A process that continues outside the lock. -/
theorem Forked.release (h : m.Inv) (hc : (m.cpu c).proc = some p) (hcpu : m'.cpu = m.cpu)
    (hstack : ∀ q, (m'.ptable q).stack = (m.ptable q).stack)
    (hstate : ∀ q, (m'.ptable q).state = (m.ptable q).state) : (m'.release c p k).Forked := by
  refine h.forked.of_calls_eq fun q f hq => ?_
  rw [release_toKernel, forking_eq_of_stack (hstack q)] at hq
  refine ⟨f, hq, rfl, fun hch => by rw [release_toKernel, hstate, hch], fun hat => ?_⟩
  by_cases hqp : q = p
  · subst hqp
    rw [AtFork, release_toKernel, hstate]
    exact ⟨hat.1, .inr ⟨c, k, by simp, by simp⟩⟩
  · refine hat.congr (hstate q) (context_eq_of_stack (hstack q)) fun c' k' hc' hk' => ?_
    have hcc : c' ≠ c := fun e => by
      rw [e, hc] at hc'
      exact hqp (Option.some.inj hc').symm
    rw [release_cpu_of_ne hcc, hcpu]
    exact ⟨hc', hk'⟩

theorem Forked.resume (h : m.Inv) (hp : (m.cpu c).proc = some p)
    (hc : (m.cpu c).pc = .swtched k) : (m.resume c p k).Forked := by
  set m₁ := m.onProc p fun q => { q with chan := none } with hm₁
  have hstack : ∀ q, (m₁.ptable q).stack = (m.ptable q).stack := fun q =>
    stack_modify (fun _ => by rfl) m.ptable p q
  have hstate : ∀ q, (m₁.ptable q).state = (m.ptable q).state := fun q =>
    state_modify (fun _ => by rfl) m.ptable p q
  have h₁ : m₁.Inv := ⟨h.onCpu.congr rfl rfl fun q => by rw [hstate],
    h.forked.of_woken hstack (fun q => .inl (hstate q)) fun _ _ _ hc hk => ⟨hc, hk⟩⟩
  -- Inside `wait`, it is in no `fork` call.
  have hnone : (m.ptable p).context ≠ .yield → (m₁.ptable p).forking = none := fun hx => by
    rw [forking_eq_of_stack (hstack p)]
    cases hf : (m.ptable p).forking with
    | none => rfl
    | some f => exact absurd (h.context_of_forking hp hc hf) hx
  unfold Machine.resume
  cases hx : (m.ptable p).context with
  | forkret | yield => exact .release h hp rfl (fun _ => rfl) fun _ => rfl
  | sleep => exact .release h hp rfl hstack hstate
  | wait => exact .waitLoop h₁ hp (hnone (by simp [hx])) fun _ _ => rfl
  | waitx => exact .waitLoop h₁ hp (hnone (by simp [hx])) fun _ _ => rfl

/-- A `fork` call goes on, having changed its child. -/
theorem Forked.advance (h : m.Inv) {f f' : Forking} (hf : m.Forks c p f)
    (hchild : f'.child = f.child) {g : Proc → Proc} (hstate : ∀ x, (g x).state = x.state)
    (hforking : ∀ x, (g x).forking = x.forking) :
    ((m.setKernel (m.toKernel.modify f.child g)).setForking p (some f')).Forked := by
  obtain ⟨-, -, hch, hpf, -⟩ := h.of_forks hf
  set m' := (m.setKernel (m.toKernel.modify f.child g)).setForking p (some f') with hm'
  have hstate' : ∀ q, (m'.ptable q).state = (m.ptable q).state := fun q => by
    rw [hm', state_setForking,
      setKernel_toKernel, modify_ptable, state_modify hstate]
  refine h.forked.of_calls_eq fun q e hq => ?_
  obtain ⟨e', hq, he⟩ : ∃ e', (m.ptable q).forking = some e' ∧ e.child = e'.child := by
    rw [hm', setForking_toKernel, modify_ptable, modify_apply] at hq
    split_ifs at hq with hqp
    · exact ⟨f, by rw [hqp, hpf], by rw [← Option.some.inj hq, hchild]⟩
    · rw [setKernel_toKernel, modify_ptable, forking_modify hforking] at hq
      exact ⟨e, hq, rfl⟩
  refine ⟨e', hq, he, fun hs => by rw [hstate', hs], fun hat => ?_⟩
  refine hat.congr (hstate' q) ?_ fun _ _ hc hk => ⟨hc, hk⟩
  rw [hm', setForking_toKernel, modify_ptable, context_modify (fun _ => by rfl),
    setKernel_toKernel, modify_ptable,
    modify_of_ne _ _ (hat.ne (by rw [hch]; exact ⟨nofun, nofun⟩))]

/-- A `fork` call ends and returns, its child becoming something else. -/
theorem Forked.finish (h : m.Inv) {f : Forking} (hf : m.Forks c p f) {g : Proc → Proc}
    (hforking : ∀ x, (g x).forking = x.forking) (v : Int32) :
    (((m.setKernel (m.toKernel.modify f.child g)).setForking p none).ret p v).Forked := by
  obtain ⟨hc, hrun, hch, hpf, hne⟩ := h.of_forks hf
  set m' := ((m.setKernel (m.toKernel.modify f.child g)).setForking p none).ret p v with hm'
  have hp : (m'.ptable p).forking = none := by
    rw [hm', ret_toKernel, modify_ptable, modify_self, setForking_toKernel, modify_ptable,
      modify_self]
  have hq : ∀ q, q ≠ p → m'.ptable q = Xv6.modify m.ptable f.child g q := fun q hq => by
    rw [hm', ret_toKernel, modify_ptable, modify_of_ne _ _ hq, setForking_toKernel,
      modify_ptable, modify_of_ne _ _ hq, setKernel_toKernel, modify_ptable]
  refine h.forked.of_others hc hp (fun _ _ => rfl) (fun q hqp => ?_)
    (fun q r e hqp he hr hs => ?_) fun q hqp hs => ?_
  · rw [hq q hqp, forking_modify hforking]
  · have hrp : r ≠ p := fun e => by rw [e, hrun] at hs; cases hs
    have hrc : r ≠ f.child := fun e' => hqp (h.forked.unique q p e f he hpf (by rw [hr, e']))
    rw [hq r hrp, modify_of_ne _ _ hrc, hs]
  · have hqc : q ≠ f.child := fun e => by
      rw [e, hch] at hs
      rcases hs with hs | hs <;> cases hs
    rw [hq q hqp, modify_of_ne _ _ hqc]
    exact ⟨rfl, rfl⟩

theorem Forked.allocproc (h : m.Inv) (hp : m.Calls c p k) : (m.allocproc p).Forked := by
  obtain ⟨hc, hrun⟩ := h.of_calls hp
  unfold Machine.allocproc
  cases hu : Xv6.allocproc m.toKernel with
  | none =>
    exact .of_calls_kept h hp (fun q => stack_ret ..) (fun q => .inl (life_ret ..)) rfl
  | some x =>
    obtain ⟨np, κ⟩ := x
    obtain ⟨hfind, hκ⟩ := allocproc_eq_some hu
    have hnp := state_of_findUnused hfind
    have hnpp : p ≠ np := fun e => by rw [e, hnp] at hrun; cases hrun
    dsimp only
    set m' := (m.setKernel κ).setForking p (some (.embryo np)) with hm'
    have hself : (m'.ptable p).forking = some (.embryo np) := by
      rw [hm', setForking_toKernel, modify_ptable, modify_self]
    have hstate : ∀ q, q ≠ np → (m'.ptable q).state = (m.ptable q).state := fun q hq => by
      rw [hm', state_setForking,
        setKernel_toKernel, hκ, modify_of_ne _ _ hq]
    have hother : ∀ q, q ≠ p → (m'.ptable q).stack = (m.ptable q).stack := fun q hq => by
      rw [hm', setForking_toKernel, modify_ptable, modify_of_ne _ _ hq, setKernel_toKernel, hκ,
        stack_modify (fun _ => by rfl)]
    have hnew : (m'.ptable np).state = .embryo := by
      rw [hm', state_setForking,
        setKernel_toKernel, hκ, modify_self]
    constructor
    · intro q f hq
      by_cases hqp : q = p
      · subst hqp
        rw [hself] at hq
        obtain rfl := Option.some.inj hq
        exact hnew
      · rw [forking_eq_of_stack (hother q hqp)] at hq
        have hch := h.forked.child q f hq
        have hfc : f.child ≠ np := fun e => by rw [e, hnp] at hch; cases hch
        rw [hstate _ hfc, hch]
    · -- The child of another call is an `EMBRYO`, and `np` was `UNUSED`.
      have hold : ∀ q f, q ≠ p → (m'.ptable q).forking = some f → f.child ≠ np := by
        intro q f hqp hq e
        rw [forking_eq_of_stack (hother q hqp)] at hq
        have hch := h.forked.child q f hq
        rw [e, hnp] at hch
        cases hch
      intro q r f g hq hr he
      by_cases hqp : q = p <;> by_cases hrp : r = p
      · rw [hqp, hrp]
      · subst hqp
        rw [hself] at hq
        obtain rfl := Option.some.inj hq
        exact absurd he.symm (hold r g hrp hr)
      · subst hrp
        rw [hself] at hr
        obtain rfl := Option.some.inj hr
        exact absurd he (hold q f hqp hq)
      · rw [forking_eq_of_stack (hother _ hqp)] at hq
        rw [forking_eq_of_stack (hother _ hrp)] at hr
        exact h.forked.unique q r f g hq hr he
    · intro q f hq
      by_cases hqp : q = p
      · subst hqp
        rw [AtFork, hstate q hnpp]
        exact ⟨.inr hrun, .inr ⟨c, k, by rw [show m'.cpu = m.cpu from rfl, hp.1],
          by rw [show m'.cpu = m.cpu from rfl, hp.1]⟩⟩
      · rw [forking_eq_of_stack (hother q hqp)] at hq
        have hat := h.forked.caller q f hq
        exact hat.congr (hstate q (hat.ne (by rw [hnp]; exact ⟨nofun, nofun⟩)))
          (context_eq_of_stack (hother q hqp)) fun _ _ hc hk => ⟨hc, hk⟩

/-- A CPU without a process is in no `fork` call. -/
theorem update_of_idle {x : Cpu} (hc : (m.cpu c).proc = none) (c' : Fin n) (q : Slot) (k : Pass)
    (hq : (m.cpu c').proc = some q) (hk : (m.cpu c').pc = .running k) :
    (update m.cpu c x c').proc = some q ∧
      (update m.cpu c x c').pc = .running k := by
  have hcc : c' ≠ c := fun e => by rw [e, hc] at hq; cases hq
  rw [update_of_ne hcc]
  exact ⟨hq, hk⟩

/-- The timer handler moves no process. -/
theorem update_intr (i : Option Intr) (c' : Fin n) (q : Slot) (k : Pass)
    (hq : (m.cpu c').proc = some q) (hk : (m.cpu c').pc = .running k) :
    (update m.cpu c { m.cpu c with intr := i } c').proc = some q ∧
      (update m.cpu c { m.cpu c with intr := i } c').pc = .running k := by
  by_cases hcc : c' = c
  · subst hcc
    rw [update_self]
    exact ⟨hq, hk⟩
  · rw [update_of_ne hcc]
    exact ⟨hq, hk⟩

theorem Forked.schedule (h : m.Inv) (hc : m.cpu c = {}) : (m.schedule c).Forked := by
  have hproc : (m.cpu c).proc = none := by rw [hc]
  unfold Machine.schedule
  split_ifs
  · split
    · rename_i p hp
      exact .dispatch h hproc (fcfs_eq_some_iff.1 hp).1
    · exact h.forked
  · have h' : ∀ seed, (m.setSeed seed).Inv := fun _ =>
      ⟨h.onCpu.congr rfl rfl fun _ => Iff.rfl,
        h.forked.of_woken (fun _ => rfl) (fun _ => .inl rfl) fun _ _ _ hc hk => ⟨hc, hk⟩⟩
    split
    · rename_i p hp
      unfold lottery at hp
      split_ifs at hp
      refine Forked.dispatch (h' (krand m.randSeed)) ?_ ?_
      · rw [setSeed_cpu]; exact hproc
      · rw [setSeed_ptable]; exact lottery_runnable hp
    · exact (h' _).forked
  · exact h.forked
  · exact h.forked.of_woken (fun _ => rfl) (fun _ => .inl rfl) (update_of_idle hproc)

theorem Forked.scan (h : m.Inv) {i : ℕ} (hc : (m.cpu c).pc = .scan i) : (m.scan c i).Forked := by
  have hproc : (m.cpu c).proc = none := (h.onCpu.idle c).2 (by rw [hc]; rfl)
  unfold Machine.scan
  split
  · rename_i p hp
    exact .dispatch h hproc (rrNext_eq_some_iff.1 hp).1.2
  · exact h.forked.of_woken (fun _ => rfl) (fun _ => .inl rfl) (update_of_idle hproc)

/-- A process preempted in a `fork` call will continue it. -/
theorem Forked.yield (h : m.Inv) (hc : (m.cpu c).proc = some p) : (m.yield c p k).Forked := by
  have hrun := h.onCpu.running c p hc
  have hother : ∀ q, q ≠ p → (m.yield c p k).ptable q = m.ptable q := fun q hq => by
    rw [Machine.yield, sched_toKernel, onProc_toKernel, modify_ptable, modify_of_ne _ _ hq]
  have hself : (m.yield c p k).ptable p =
      { m.ptable p with state := .runnable, context := .yield } := by
    rw [Machine.yield, sched_toKernel, onProc_toKernel, modify_ptable, modify_self]
  have hforking : ∀ q, ((m.yield c p k).ptable q).forking = (m.ptable q).forking := fun q => by
    by_cases hq : q = p
    · rw [hq, hself]
    · rw [hother q hq]
  refine h.forked.of_calls_eq fun q f hq => ?_
  rw [hforking] at hq
  refine ⟨f, hq, rfl, fun hch => ?_, fun hat => ?_⟩
  · rw [hother _ fun e => ?_, hch]
    rw [e, hrun] at hch
    cases hch
  by_cases hqp : q = p
  · rw [AtFork, hqp, hself]
    exact ⟨.inl rfl, .inl rfl⟩
  · refine hat.congr (by rw [hother q hqp]) (by rw [hother q hqp]) fun c' k' hc' hk' => ?_
    have hcc : c' ≠ c := fun e => by
      rw [e, hc] at hc'
      exact hqp (Option.some.inj hc').symm
    rw [Machine.yield, sched_cpu_of_ne hcc]
    exact ⟨hc', hk'⟩

theorem forked_of_moves (h : m.Inv) (hm : m.Moves c a m') : m'.Forked := by
  have hf := h.forked
  cases hm with
  | schedule hc => exact .schedule h hc
  | scan hc => exact .scan h hc
  | resume hp hc => exact .resume h hp hc
  | timer =>
    unfold Machine.timer
    split_ifs
    · exact hf.of_woken (fun _ => rfl) (fun _ => .inl rfl) (update_intr _)
    · exact hf.of_woken (fun _ => rfl) (fun _ => .inl rfl) (update_intr _)
  | intrWakeup =>
    refine hf.of_woken (fun q => stack_wakeup1 m.ptable _ q) (fun q => ?_) (update_intr _)
    exact (woken_wakeup1 m.ptable (some .ticks) q).imp (congrArg Life.state)
      fun ⟨h₁, h₂⟩ => ⟨h₁, congrArg Life.state h₂⟩
  | intrAccount =>
    refine hf.of_woken (fun q => ?_) (fun q => .inl ?_) (update_intr _)
    · change ((m.ptable q).charge).stack = _
      unfold Proc.charge; split <;> rfl
    · change ((m.ptable q).charge).state = _
      unfold Proc.charge; split <;> rfl
  | intrPreempt hc => exact .yield h (by rw [hc])
  | intrReturn => exact hf.of_woken (fun _ => rfl) (fun _ => .inl rfl) (update_intr _)
  | @wakeup chan =>
    refine hf.of_woken (fun q => stack_wakeup1 m.ptable _ q) (fun q => ?_)
      fun _ _ _ hc hk => ⟨hc, hk⟩
    exact (woken_wakeup1 m.ptable (some chan) q).imp (congrArg Life.state)
      fun ⟨h₁, h₂⟩ => ⟨h₁, congrArg Life.state h₂⟩
  | yield _ hp => exact .yield h (h.of_calls hp).1
  | @sleep p k chan _ _ hp =>
    have hother : ∀ q, q ≠ p → (m.sleep c p k chan .sleep).ptable q = m.ptable q := fun q hq => by
      rw [Machine.sleep, sched_toKernel, onProc_toKernel, modify_ptable, modify_of_ne _ _ hq]
    refine .of_one h (h.of_calls hp).1 ?_ (fun c' hc' => sched_cpu_of_ne hc') hother
    rw [Machine.sleep, sched_toKernel, onProc_toKernel, modify_ptable, modify_self]
    exact hp.2
  | @exit p k _ hp =>
    have hrun := h.onCpu.running c p hp.proc
    refine .of_calls h hp.proc (fun q _ => ?_) ?_ (fun q hq => ?_)
      fun c' hc' => sched_cpu_of_ne hc'
    · rw [sched_toKernel]; exact stack_exit m.toKernel p q
    · rw [sched_toKernel]
      exact (forking_eq_of_stack (stack_exit m.toKernel p p)).trans hp.forking
    · rw [sched_toKernel]; exact (life_exit hrun).2 q hq
  | wait _ hp => exact .waitLoop h (h.of_calls hp).1 hp.2 fun _ _ => rfl
  | waitx _ hp => exact .waitLoop h (h.of_calls hp).1 hp.2 fun _ _ => rfl
  | @waitxNull p k w r hp =>
    exact .of_calls_kept h hp (stack_modify (fun _ => by rfl) m.ptable p)
      (fun q => .inl (life_modify (fun _ => by rfl) m.ptable p q)) rfl
  | @kill p k pid _ hp =>
    refine .of_calls_kept h hp (fun q => ?_) (fun q => ?_) rfl
    · rw [stack_ret, setKernel_toKernel, stack_kill]
    · rw [life_ret]
      exact woken_kill m.toKernel pid q
  | @setpolicy p k v hp =>
    refine .of_calls_kept h hp (fun q => ?_) (fun q => .inl ?_) rfl
    · rw [stack_ret, setKernel_toKernel, setpolicy_ptable]
    · rw [life_ret, setKernel_toKernel, setpolicy_ptable]
  | @settickets p k v _ hp =>
    refine .of_calls_kept h hp (fun q => ?_) (fun q => .inl ?_) rfl
    · rw [stack_ret, setKernel_toKernel, stack_settickets]
    · rw [life_ret, setKernel_toKernel, life_settickets]
  | allocproc _ hp => exact .allocproc h hp
  | @kalloc p np page hk =>
    cases page with
    | none => exact .finish h hk (fun _ => by rfl) (-1)
    | some page => exact .advance h hk (by rfl) (fun _ => by rfl) (fun _ => by rfl)
  | @copyuvm p np pgdir hk =>
    cases pgdir with
    | none => exact .finish h hk (fun _ => by rfl) (-1)
    | some pgdir => exact .advance h hk (by rfl) (fun _ => by rfl) (fun _ => by rfl)
  | @ready p np _ hk => exact .finish h hk (fun _ => by rfl) (m.ptable np).pid
  | @fault p k hp =>
    exact .of_calls_kept h hp (stack_modify (fun _ => by rfl) m.ptable p)
      (fun q => .inl (life_modify (fun _ => by rfl) m.ptable p q)) rfl
  | @image p k i hp =>
    exact .of_calls_kept h hp (stack_modify (fun _ => by rfl) m.ptable p)
      (fun q => .inl (life_modify (fun _ => by rfl) m.ptable p q)) rfl

/-! ## Reachable states -/

theorem inv_boot (kstack pgdir root : ℕ) : (boot n kstack pgdir root).Inv := by
  have hstate : ∀ q, ((boot n kstack pgdir root).ptable q).state ≠ .running := fun q => by
    rw [boot, userinit_ptable]
    by_cases hq : q = 0 <;> simp [hq]
  have hforking : ∀ q, ((boot n kstack pgdir root).ptable q).forking = none := fun q => by
    rw [boot, userinit_ptable]
    by_cases hq : q = 0 <;> simp [hq]
  refine ⟨⟨?_, ?_, ?_, ?_, ?_, ?_⟩, ⟨?_, ?_, ?_⟩⟩
  · intro c; simp [boot, Pc.holds]
  · intro c; simp [boot, Pc.idle]
  · intro c p hp; simp [boot] at hp
  · intro c c' p hp; simp [boot] at hp
  · intro p hp; exact absurd hp (hstate p)
  · intro c; simp [boot, Pc.holds]
  · intro p f hp; rw [hforking] at hp; cases hp
  · intro p q f g hp; rw [hforking] at hp; cases hp
  · intro p f hp; rw [hforking] at hp; cases hp

/-- A step keeps the invariant. -/
theorem inv_of_step (h : m.Inv) (hs : m.step (c, a) = some m') : m'.Inv :=
  ⟨onCpu_of_moves h (moves_of_step hs), forked_of_moves h (moves_of_step hs)⟩

end Machine

/-- The invariant holds in every reachable state. -/
theorem inv_of_reachable {n : ℕ} {ok : Machine n → Fin n × Act → Prop} {m : Machine n}
    (hm : (machine n).Reachable ok m) : m.Inv := by
  refine hm.invariant (I := Machine.Inv) ?_ fun _ _ _ h _ hs => Machine.inv_of_step h hs
  rintro m ⟨kstack, pgdir, root, rfl⟩
  exact Machine.inv_boot kstack pgdir root

namespace Machine

open TransitionSystem

/-- When `ptable.lock` is free, the process of a CPU is `RUNNING`, on no other CPU, and
    every `RUNNING` process is on exactly one CPU. -/
theorem runs_on_one_cpu {n : ℕ} {m : Machine n} (hm : (machine n).Reachable Any m)
    (_ : m.lock = none) :
    (∀ c, (m.cpu c).proc = none ∨
      ∃ p, (m.cpu c).proc = some p ∧ (m.ptable p).state = .running) ∧
    (∀ c c' p, (m.cpu c).proc = some p → (m.cpu c').proc = some p → c = c') ∧
    ∀ p, (m.ptable p).state = .running → ∃! c, (m.cpu c).proc = some p := by
  have h := (inv_of_reachable hm).onCpu
  refine ⟨fun c => ?_, h.unique, fun p hp => ?_⟩
  · cases hc : (m.cpu c).proc with
    | none => exact .inl rfl
    | some p => exact .inr ⟨p, rfl, h.running c p hc⟩
  · obtain ⟨c, hc⟩ := h.onCpu p hp
    exact ⟨c, hc, fun c' hc' => h.unique c' c p hc' hc⟩

/-- The first process forks on CPU 0, and its child is dispatched on CPU 1. -/
def forkToOtherCpu : List (Fin 2 × Act) :=
  [(0, .schedule), (0, .scan), (0, .resume)] ++ forkActs.map (0, ·) ++
    [(1, .schedule), (1, .scan), (1, .resume)]

theorem runs_on_one_cpu_forkToOtherCpu : ∃ m : Machine 2, (machine 2).Reachable Any m ∧
    m.lock = none ∧ (m.cpu 0).proc = some 0 ∧ (m.cpu 1).proc = some 1 ∧
    (∃! c, (m.cpu c).proc = some 0) ∧ ∃! c, (m.cpu c).proc = some 1 := by
  obtain ⟨m, hm, hP⟩ := exists_reachable (S := machine 2) ⟨0, 0, 0, rfl⟩
    (show (exec _ Any _ forkToOtherCpu).any (fun m => decide (m.lock = none ∧
      (m.cpu 0).proc = some 0 ∧ (m.cpu 1).proc = some 1 ∧
      (m.ptable 0).state = .running ∧ (m.ptable 1).state = .running)) by decide +kernel)
  obtain ⟨hl, h₀, h₁, hr₀, hr₁⟩ := of_decide_eq_true hP
  have h := (runs_on_one_cpu hm hl).2.2
  exact ⟨m, hm, hl, h₀, h₁, h 0 hr₀, h 1 hr₁⟩

end Machine

end Xv6
