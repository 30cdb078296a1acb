import Xv6.Proc.Invariant

/-!
# The machine refines the lives of its processes

Every step of the machine is, for every slot, an event of its life
(`exists_lives`). With it come the clock (`Beat`): when a step advances `ticks`,
when it charges the tick, and that the timer handler of CPU 0 does the two in
turn. The claims on times are proved from these facts, and never look at the
steps themselves.
-/

namespace Xv6

open Function

/-- A life goes on without being allocated, stamped, started, ended or charged. -/
def Life.Quiet (now : UInt32) (x x' : Life) : Prop :=
  ∃ e, Life.Step now e x x' ∧ e ≠ .alloc ∧ e ≠ .stamp ∧ e ≠ .start ∧ e ≠ .exit ∧ e ≠ .charge

namespace Life.Quiet

variable {now : UInt32} {x x' : Life}

theorem of_eq (h : x' = x) : Quiet now x x' := by
  subst h
  exact ⟨.keep, .keep _, by simp⟩

theorem of_woken (h : Woken x x') : Quiet now x x' := by
  rcases h.exists_step now with h | h
  · exact ⟨.keep, h, by simp⟩
  · exact ⟨.move, h, by simp⟩

theorem of_move {s : Procstate} (hx : x.state.live) (hs : s.live)
    (h : x' = { x with state := s }) : Quiet now x x' :=
  ⟨.move, h ▸ .move hx hs, by simp⟩

/-- The process of one slot changes its state. -/
theorem modify {t : Ptable} {p : Slot} {f : Proc → Proc} {s : Procstate}
    (hp : (t p).state.live) (hs : s.live)
    (hf : (f (t p)).life = { (t p).life with state := s }) (q : Slot) :
    Quiet now (t q).life (Xv6.modify t p f q).life := by
  by_cases hq : q = p
  · subst hq
    rw [modify_self]
    exact of_move hp hs hf
  · rw [modify_of_ne _ _ hq]
    exact of_eq rfl

end Life.Quiet

namespace Machine

variable {n : ℕ} {m m' : Machine n} {c : Fin n} {p q : Slot} {k : Pass} {a : Act}

/-! ## The clock -/

/-- What a step does with the clock. -/
inductive Beat
  /-- It advances `ticks`. -/
  | tick
  /-- It charges the processes for the last tick. -/
  | charge
  /-- Nothing. -/
  | rest
  deriving DecidableEq

/-- What the action `a` of the CPU `c` does with the clock. -/
def beat (m : Machine n) (c : Fin n) : Act → Beat
  | .timer => if c.val = 0 then .tick else .rest
  | .intr => if (m.cpu c).intr = some .account then .charge else .rest
  | _ => .rest

theorem beat_eq_tick_iff : m.beat c a = .tick ↔ a = .timer ∧ c.val = 0 := by
  cases a <;> simp [beat]
  split_ifs <;> simp

theorem beat_eq_charge_iff :
    m.beat c a = .charge ↔ a = .intr ∧ (m.cpu c).intr = some .account := by
  cases a <;> simp [beat]
  split_ifs <;> simp

/-- A timer handler has advanced `ticks`, and not yet charged the tick. -/
def Intr.pending : Option Intr → Bool
  | some .wakeup | some .account => true
  | some .preempt | none => false

/-- The last tick is not yet charged. -/
def Pending (m : Machine n) : Prop := ∃ c, Intr.pending (m.cpu c).intr

instance (m : Machine n) : Decidable m.Pending :=
  inferInstanceAs (Decidable (∃ c, Intr.pending (m.cpu c).intr = true))

/-- Only CPU 0 counts the ticks. -/
def Clock (m : Machine n) : Prop := ∀ c, Intr.pending (m.cpu c).intr → c.val = 0

/-- The clock rests: `ticks` stays, and so does the tick to be charged. -/
def Rests (m m' : Machine n) : Prop :=
  m'.ticks = m.ticks ∧ ∀ c, Intr.pending (m'.cpu c).intr = Intr.pending (m.cpu c).intr

/-- A step outside the timer handler, of a CPU that is not in one. -/
theorem Rests.of_update (ht : m'.ticks = m.ticks) {x : Cpu}
    (hcpu : m'.cpu = update m.cpu c x)
    (hx : Intr.pending x.intr = Intr.pending (m.cpu c).intr) : m.Rests m' := by
  refine ⟨ht, fun c' => ?_⟩
  rw [hcpu]
  by_cases hcc : c' = c
  · subst hcc
    rw [update_self, hx]
  · rw [update_of_ne hcc]

theorem Rests.of_eq (ht : m'.ticks = m.ticks) (hcpu : m'.cpu = m.cpu) : m.Rests m' :=
  ⟨ht, fun c => by rw [hcpu]⟩

theorem Rests.trans {m'' : Machine n} (h₁ : m.Rests m') (h₂ : m'.Rests m'') : m.Rests m'' :=
  ⟨h₂.1.trans h₁.1, fun c => (h₂.2 c).trans (h₁.2 c)⟩

theorem Rests.dispatch (hc : (m.cpu c).intr = none) : m.Rests (m.dispatch c p k) :=
  .of_update rfl (dispatch_cpu ..) (by rw [hc])

theorem Rests.sched (hc : (m.cpu c).intr = none ∨ (m.cpu c).intr = some .preempt) :
    m.Rests (m.sched c k) := by
  refine .of_update (by rw [sched_toKernel]) (sched_cpu ..) ?_
  rcases hc with hc | hc <;> rw [hc] <;> cases k <;> rfl

theorem Rests.release (hc : (m.cpu c).intr = none) : m.Rests (m.release c p k) :=
  .of_update rfl (release_cpu ..) (by rw [hc])

theorem Rests.onProc (f : Proc → Proc) : m.Rests (m.onProc p f) := .of_eq rfl rfl

theorem Rests.waitLoop (hc : (m.cpu c).intr = none) {ctx : Context}
    {store : Proc → Proc → Proc} : m.Rests (m.waitLoop c p k ctx store) := by
  unfold Machine.waitLoop
  split
  · exact .trans (.of_eq rfl rfl) (.release hc)
  · split_ifs
    · exact .trans (.of_eq rfl rfl) (.release hc)
    · exact .trans (.of_eq rfl rfl) (.sched (.inl hc))

theorem Rests.schedule (hc : (m.cpu c).intr = none) : m.Rests (m.schedule c) := by
  have hseed : ∀ seed, m.Rests (m.setSeed seed) := fun _ => .of_eq rfl rfl
  unfold Machine.schedule
  split_ifs
  · split
    · exact .dispatch hc
    · exact .of_eq rfl rfl
  · split
    · refine .trans (hseed (krand m.randSeed)) (.dispatch ?_)
      rw [setSeed_cpu]; exact hc
    · exact hseed _
  · exact .of_eq rfl rfl
  · exact .of_update rfl (setCpu_cpu ..) (by rw [hc])

theorem Rests.scan (hc : (m.cpu c).intr = none) (i : ℕ) : m.Rests (m.scan c i) := by
  unfold Machine.scan
  split
  · exact .dispatch hc
  · exact .of_update rfl (setCpu_cpu ..) (by rw [hc])

theorem Rests.resume (hc : (m.cpu c).intr = none) : m.Rests (m.resume c p k) := by
  have h : m.Rests (m.onProc p fun q => { q with chan := none }) := .onProc _
  have hc' : ((m.onProc p fun q => { q with chan := none }).cpu c).intr = none := hc
  unfold Machine.resume
  cases (m.ptable p).context with
  | forkret | yield => exact .release hc
  | sleep => exact h.trans (.release hc)
  | wait => exact h.trans (.waitLoop hc')
  | waitx => exact h.trans (.waitLoop hc')

/-- In a critical section, interrupts are disabled. -/
theorem OnCpu.intr_eq_none (h : m.OnCpu) (hc : (m.cpu c).pc.holds) : (m.cpu c).intr = none := by
  by_contra hi
  rw [h.intr c hi] at hc
  cases hc

theorem kill_ticks (κ : Kernel) (pid : Int32) : (Xv6.kill κ pid).1.ticks = κ.ticks := by
  unfold Xv6.kill
  split <;> rfl

theorem setpolicy_ticks (κ : Kernel) (v : Int32) : (Xv6.setpolicy κ v).1.ticks = κ.ticks := by
  unfold Xv6.setpolicy
  split_ifs <;> rfl

theorem settickets_ticks (κ : Kernel) (p : Slot) (v : Int32) :
    (Xv6.settickets κ p v).1.ticks = κ.ticks := by
  unfold Xv6.settickets
  split_ifs <;> rfl

theorem exit_ticks (κ : Kernel) (p : Slot) : (Xv6.exit κ p).ticks = κ.ticks := by
  unfold Xv6.exit abandon
  dsimp only
  split_ifs <;> rfl

theorem allocproc_ticks {κ κ' : Kernel} {np : Slot} (h : Xv6.allocproc κ = some (np, κ')) :
    κ'.ticks = κ.ticks := by
  obtain ⟨_, _, he⟩ := Option.map_eq_some_iff.1 h
  obtain ⟨-, rfl⟩ := Prod.mk.inj he
  rfl

theorem rests_of_moves (h : m.Inv) (hm : m.Moves c a m') (hb : m.beat c a = .rest) :
    m.Rests m' := by
  cases hm with
  | schedule hc => exact .schedule (by rw [hc])
  | scan hc => exact .scan (h.onCpu.intr_eq_none (by rw [hc]; rfl)) _
  | resume _ hc => exact .resume (h.onCpu.intr_eq_none (by rw [hc]; rfl))
  | timer hc =>
    unfold Machine.timer
    simp only [beat] at hb
    split_ifs at hb ⊢
    exact .of_update rfl (setIntr_cpu ..) (by rw [(interruptible_iff.1 hc).2]; rfl)
  | intrWakeup hc => exact .of_update rfl (setIntr_cpu ..) (by rw [hc]; rfl)
  | intrAccount hc => rw [beat, if_pos hc] at hb; cases hb
  | intrPreempt hc =>
    exact .trans (.onProc (p := _) _) (.sched (.inr (by rw [onProc_cpu, hc])))
  | intrReturn hc => exact .of_update rfl (setIntr_cpu ..) (by rw [hc]; rfl)
  | wakeup => exact .of_eq rfl rfl
  | yield _ hp => exact .trans (.onProc _) (.sched (.inl (by rw [onProc_cpu, hp.1])))
  | sleep _ _ hp => exact .trans (.onProc _) (.sched (.inl (by rw [onProc_cpu, hp.1])))
  | @exit p _ _ hp =>
    have h₁ : m.Rests (m.setKernel (Xv6.exit m.toKernel p)) := .of_eq (exit_ticks _ _) rfl
    exact h₁.trans (.sched hp.intr)
  | wait _ hp => exact .waitLoop (by rw [hp.1])
  | waitxNull => exact .onProc _
  | waitx _ hp => exact .waitLoop (by rw [hp.1])
  | kill => exact .of_eq (kill_ticks _ _) rfl
  | setpolicy => exact .of_eq (setpolicy_ticks _ _) rfl
  | settickets => exact .of_eq (settickets_ticks _ _ _) rfl
  | allocproc =>
    unfold Machine.allocproc
    split
    · exact .onProc _
    · rename_i hk
      have ht := allocproc_ticks hk
      exact .of_eq ht rfl
  | @kalloc _ _ page => cases page <;> exact .of_eq rfl rfl
  | @copyuvm _ _ pgdir => cases pgdir <;> exact .of_eq rfl rfl
  | ready => exact .of_eq rfl rfl
  | fault => exact .onProc _
  | image => exact .onProc _

/-- The clock of a step, by what the step does with it. -/
inductive Clocked (m m' : Machine n) : Beat → Prop
  | tick : ¬ m.Pending → m'.Pending → m'.ticks = m.ticks + 1 → Clocked m m' .tick
  | charge : m.Pending → ¬ m'.Pending → m'.ticks = m.ticks → Clocked m m' .charge
  | rest : (m'.Pending ↔ m.Pending) → m'.ticks = m.ticks → Clocked m m' .rest

/-- The timer handler of CPU 0 advances the clock and charges the tick, in turn. -/
theorem clock_of_moves (h : m.Inv) (hk : m.Clock) (hm : m.Moves c a m') :
    m'.Clock ∧ m.Clocked m' (m.beat c a) := by
  have hrest : m.beat c a = .rest → m'.Clock ∧ m.Clocked m' (m.beat c a) := fun hb => by
    obtain ⟨ht, hi⟩ := rests_of_moves h hm hb
    refine ⟨fun c' hc' => hk c' (by rw [← hi]; exact hc'), ?_⟩
    rw [hb]
    exact .rest (by simp only [Pending, hi]) ht
  cases hb : m.beat c a with
  | rest => rw [← hb]; exact hrest hb
  | tick =>
    obtain ⟨rfl, h0⟩ := beat_eq_tick_iff.1 hb
    cases hm with
    | timer hc =>
      have hi := (interruptible_iff.1 hc).2
      rw [Machine.timer, if_pos h0]
      have hpend : ∀ c', Intr.pending (update m.cpu c
          { m.cpu c with intr := some .wakeup } c').intr → c' = c := fun c' hc' => by
        by_contra hcc
        rw [update_of_ne hcc] at hc'
        exact hcc (Fin.ext ((hk c' hc').trans h0.symm))
      refine ⟨fun c' hc' => (hpend c' hc') ▸ h0, .tick ?_ ⟨c, ?_⟩ rfl⟩
      · rintro ⟨c', hc'⟩
        obtain rfl : c' = c := Fin.ext ((hk c' hc').trans h0.symm)
        rw [hi] at hc'
        cases hc'
      · rw [setIntr_cpu, update_self]
        rfl
  | charge =>
    obtain ⟨rfl, hi⟩ := beat_eq_charge_iff.1 hb
    cases hm with
    | intrAccount hc =>
      have h0 : c.val = 0 := hk c (by rw [hc]; rfl)
      have hpend : ∀ c', ¬ Intr.pending (update m.cpu c
          { m.cpu c with intr := some .preempt } c').intr := fun c' hc' => by
        by_cases hcc : c' = c
        · subst hcc
          rw [update_self] at hc'
          cases hc'
        · rw [update_of_ne hcc] at hc'
          exact hcc (Fin.ext ((hk c' hc').trans h0.symm))
      exact ⟨fun c' hc' => absurd hc' (hpend c'), .charge ⟨c, by rw [hc]; rfl⟩
        (fun ⟨c', hc'⟩ => hpend c' hc') rfl⟩
    | intrWakeup hc => rw [hc] at hi; cases hi
    | intrPreempt hc => rw [hc] at hi; cases hi
    | intrReturn hc => rw [hc] at hi; cases hi

theorem clock_boot (kstack pgdir root : ℕ) : (boot n kstack pgdir root).Clock :=
  fun _ hc => nomatch hc

/-! ## The lives -/

/-- The slot of the child whose times `allocproc` sets in the step. -/
def stamps (m : Machine n) (c : Fin n) : Act → Option Slot
  | .kalloc (some _) => (m.forker c).bind fun
    | (_, .embryo np) => some np
    | _ => none
  | _ => none

/-- The slot `q` is that of a new process `allocproc` has set the times of. -/
def Born (m : Machine n) (q : Slot) : Prop :=
  ∃ p, (m.ptable p).forking = some (.alloced q) ∨ (m.ptable p).forking = some (.copied q)

instance (m : Machine n) (q : Slot) : Decidable (m.Born q) :=
  inferInstanceAs (Decidable (∃ _, _ ∨ _))

/-- The step of `a` on `c` is the event `e` of the life of `q`. -/
structure Lives (m : Machine n) (c : Fin n) (a : Act) (m' : Machine n) (q : Slot)
    (e : Life.Event) : Prop where
  step : Life.Step m.ticks e (m.ptable q).life (m'.ptable q).life
  alloc : e = .alloc → findUnused m.ptable = some q
  stamp : e = .stamp ↔ m.stamps c a = some q
  start : e = .start → m.Born q
  exit : e = .exit → a = .exit ∧ (m.cpu c).proc = some q
  tick : m.beat c a = .tick → e = .keep
  charge : e = .charge ↔ m.beat c a = .charge
  intr : e = .stamp ∨ e = .start ∨ e = .exit →
    (m.cpu c).intr = none ∨ (m.cpu c).intr = some .preempt

theorem lives_of_quiet (h : Life.Quiet m.ticks (m.ptable q).life (m'.ptable q).life)
    (hs : m.stamps c a = none) (hb : m.beat c a = .rest) : ∃ e, m.Lives c a m' q e := by
  obtain ⟨e, he, h₀, h₁, h₂, h₃, h₄⟩ := h
  refine ⟨e, he, fun h => absurd h h₀, ?_, fun h => absurd h h₂, fun h => absurd h h₃, ?_, ?_, ?_⟩
  · simp [hs, h₁]
  · simp [hb]
  · simp [hb, h₄]
  · rintro (h | h | h)
    · exact absurd h h₁
    · exact absurd h h₂
    · exact absurd h h₃

theorem quiet_dispatch (hp : (m.ptable p).state = .runnable) (q : Slot) :
    Life.Quiet m.ticks (m.ptable q).life ((m.dispatch c p k).ptable q).life :=
  .modify (by rw [hp]; rfl) rfl rfl q

theorem quiet_sched_running (hp : (m.ptable p).state = .running) {s : Procstate} (hs : s.live)
    {f : Proc → Proc} (hf : ∀ x, (f x).life = { x.life with state := s }) (q : Slot) :
    Life.Quiet m.ticks (m.ptable q).life (((m.onProc p f).sched c k).ptable q).life := by
  rw [sched_toKernel]
  exact .modify (by rw [hp]; rfl) hs (hf _) q

theorem quiet_schedule (q : Slot) :
    Life.Quiet m.ticks (m.ptable q).life ((m.schedule c).ptable q).life := by
  have hseed : ∀ seed p, (m.ptable p).state = .runnable → Life.Quiet m.ticks (m.ptable q).life
      (((m.setSeed seed).dispatch c p .lottery).ptable q).life := fun seed p hp =>
    quiet_dispatch (m := m.setSeed seed) hp q
  unfold Machine.schedule
  split_ifs
  · split
    · rename_i p hp
      exact quiet_dispatch (fcfs_eq_some_iff.1 hp).1 q
    · exact .of_eq rfl
  · split
    · rename_i p hp
      unfold lottery at hp
      split_ifs at hp
      exact hseed _ p (lottery_runnable hp)
    · rw [setSeed_ptable]; exact .of_eq rfl
  · exact .of_eq rfl
  · exact .of_eq rfl

theorem quiet_scan (i : ℕ) (q : Slot) :
    Life.Quiet m.ticks (m.ptable q).life ((m.scan c i).ptable q).life := by
  unfold Machine.scan
  split
  · rename_i p hp
    exact quiet_dispatch (rrNext_eq_some_iff.1 hp).1.2 q
  · exact .of_eq rfl

theorem quiet_waitLoop (hp : (m.ptable p).state = .running) {ctx : Context}
    {store : Proc → Proc → Proc} (hstore : ∀ q r, (store q r).life = r.life) (r : Slot) :
    Life.Quiet m.ticks (m.ptable r).life ((m.waitLoop c p k ctx store).ptable r).life := by
  unfold Machine.waitLoop
  split
  · rename_i q hq
    have hz := (state_of_zombieChild hq).2
    rw [release_toKernel, life_ret,
      onProc_toKernel, modify_ptable, life_modify (hstore _), onProc_toKernel, modify_ptable]
    by_cases hr : r = q
    · subst hr
      rw [modify_self]
      exact ⟨.reap, .reap hz, by simp⟩
    · rw [modify_of_ne _ _ hr]
      exact .of_eq rfl
  · split_ifs
    · exact .of_eq (life_modify (fun _ => by rfl) m.ptable p r)
    · exact quiet_sched_running hp (s := .sleeping) rfl (fun _ => by rfl) r

theorem quiet_resume (hp : (m.ptable p).state = .running) (r : Slot) :
    Life.Quiet m.ticks (m.ptable r).life ((m.resume c p k).ptable r).life := by
  have hl : ∀ r, ((m.onProc p fun q => { q with chan := none }).ptable r).life =
      (m.ptable r).life := life_modify (fun _ => by rfl) m.ptable p
  have hp' : ((m.onProc p fun q => { q with chan := none }).ptable p).state = .running :=
    (congrArg Life.state (hl p)).trans hp
  unfold Machine.resume
  cases (m.ptable p).context with
  | forkret | yield => exact .of_eq rfl
  | sleep => exact .of_eq (hl r)
  | wait => rw [← hl r]; exact quiet_waitLoop hp' (fun _ _ => by rfl) r
  | waitx => rw [← hl r]; exact quiet_waitLoop hp' (fun _ _ => by rfl) r

theorem stamps_kalloc {np : Slot} {page : ℕ} (hf : m.Forks c p (.embryo np)) :
    m.stamps c (.kalloc (some page)) = some np := by
  simp [stamps, forker_eq_some_iff.2 hf]

theorem life_return {κ : Kernel} {v : Int32} (q : Slot) :
    ((((m.setKernel κ).setForking p none).ret p v).ptable q).life = (κ.ptable q).life := by
  rw [life_ret, life_setForking, setKernel_toKernel]

/-- A step of a `fork` call is an event of the child, which nobody else sees. -/
theorem lives_of_child {f : Forking} (hf : m.Forks c p f) {κ : Kernel} {g : Proc → Proc}
    (hκ : κ = m.toKernel.modify f.child g) {e : Life.Event}
    (hm : ∀ q, (m'.ptable q).life = (κ.ptable q).life)
    (he : Life.Step m.ticks e (m.ptable f.child).life (g (m.ptable f.child)).life)
    (halloc : e ≠ .alloc) (hstamp : m.stamps c a = if e = .stamp then some f.child else none)
    (hstart : e = .start → m.Born f.child) (hexit : e ≠ .exit) (hcharge : e ≠ .charge)
    (hb : m.beat c a = .rest)
    (q : Slot) : ∃ e, m.Lives c a m' q e := by
  have hi : (m.cpu c).intr = none := by obtain ⟨_, hc, -⟩ := hf; rw [hc]
  by_cases hq : q = f.child
  · subst hq
    refine ⟨e, ?_, fun h => absurd h halloc, ?_, hstart, fun h => absurd h hexit, by simp [hb], ?_,
      fun _ => .inl hi⟩
    · rw [hm, hκ, modify_ptable, modify_self]; exact he
    · rw [hstamp]; split_ifs with h <;> simp [h]
    · simp [hcharge, hb]
  · refine ⟨.keep, ?_, nofun, ?_, nofun, nofun, fun _ => rfl, ?_, fun _ => .inl hi⟩
    · rw [hm, hκ, modify_ptable, modify_of_ne _ _ hq]; exact .keep _
    · rw [hstamp]; split_ifs <;> simp [Ne.symm hq]
    · simp [hb]

/-- Every step of the machine is an event of the life of every slot. -/
theorem exists_lives (h : m.Inv) (hm : m.Moves c a m') (q : Slot) : ∃ e, m.Lives c a m' q e := by
  cases hm with
  | schedule => exact lives_of_quiet (quiet_schedule q) rfl rfl
  | scan => exact lives_of_quiet (quiet_scan _ q) rfl rfl
  | resume hp => exact lives_of_quiet (quiet_resume (h.onCpu.running _ _ hp) q) rfl rfl
  | timer =>
    -- the clock moves, but no process is charged before `intrAccount`
    have hkeep : ((m.timer c).ptable q).life = (m.ptable q).life := by
      unfold Machine.timer
      split_ifs <;> rfl
    refine ⟨.keep, hkeep ▸ .keep _, nofun, by simp [stamps], nofun, nofun, fun _ => rfl,
      ?_, by simp⟩
    simp [beat_eq_charge_iff]
  | intrWakeup hc =>
    refine lives_of_quiet (.of_woken (woken_wakeup1 _ _ _)) rfl ?_
    simp [beat, hc]
  | intrAccount hc =>
    refine ⟨.charge, ?_, nofun, ?_, nofun, nofun, ?_, ?_, ?_⟩
    · have : ((account m.toKernel).ptable q).life = (m.ptable q).life.charge := life_charge _
      rw [setIntr_toKernel, setKernel_toKernel, this]
      exact .charge _
    · simp [stamps]
    · simp [beat, hc]
    · simp [beat, hc]
    · simp
  | intrPreempt hc =>
    have hrun := h.onCpu.running c _ (by rw [hc])
    refine lives_of_quiet (quiet_sched_running hrun (s := .runnable) rfl (fun _ => by rfl) q) rfl ?_
    simp [beat, hc]
  | intrReturn hc =>
    refine lives_of_quiet (.of_eq rfl) rfl ?_
    simp [beat, hc]
  | wakeup => exact lives_of_quiet (.of_woken (woken_wakeup1 _ _ _)) rfl rfl
  | yield _ hp =>
    refine lives_of_quiet ?_ rfl rfl
    exact quiet_sched_running (h.of_calls hp).2 (s := .runnable) rfl (fun _ => by rfl) q
  | sleep _ _ hp =>
    refine lives_of_quiet ?_ rfl rfl
    exact quiet_sched_running (h.of_calls hp).2 (s := .sleeping) rfl (fun _ => by rfl) q
  | @exit p _ _ hp =>
    have hrun := h.onCpu.running c p hp.proc
    obtain ⟨hself, hother⟩ := life_exit hrun
    by_cases hq : q = p
    · subst hq
      refine ⟨.exit, ?_, nofun, ?_, nofun, fun _ => ⟨rfl, hp.proc⟩, ?_, ?_, fun _ => hp.intr⟩
      · rw [sched_toKernel, setKernel_toKernel, hself]
        exact .exit hrun
      · simp [stamps]
      · simp [beat]
      · simp [beat]
    · refine lives_of_quiet ?_ rfl rfl
      rw [sched_toKernel, setKernel_toKernel]
      exact .of_woken (hother q hq)
  | wait _ hp =>
    exact lives_of_quiet (quiet_waitLoop (h.of_calls hp).2 (fun _ _ => by rfl) q) rfl rfl
  | @waitxNull p =>
    exact lives_of_quiet (.of_eq (life_modify (fun _ => by rfl) m.ptable p q)) rfl rfl
  | waitx _ hp =>
    exact lives_of_quiet (quiet_waitLoop (h.of_calls hp).2 (fun _ _ => by rfl) q) rfl rfl
  | @kill p _ pid =>
    refine lives_of_quiet ?_ rfl rfl
    rw [life_ret]
    exact .of_woken (woken_kill m.toKernel pid q)
  | setpolicy =>
    refine lives_of_quiet (.of_eq ?_) rfl rfl
    rw [life_ret, setKernel_toKernel,
      setpolicy_ptable]
  | settickets =>
    refine lives_of_quiet (.of_eq ?_) rfl rfl
    rw [life_ret, setKernel_toKernel,
      life_settickets]
  | @allocproc p _ _ hp =>
    unfold Machine.allocproc
    split
    · exact lives_of_quiet (.of_eq (life_modify (fun _ => by rfl) m.ptable p q)) rfl rfl
    · rename_i np κ hκ
      obtain ⟨hfind, hκ⟩ := allocproc_eq_some hκ
      have hlife : ∀ q, (((m.setKernel κ).setForking p (some (.embryo np))).ptable q).life =
          (κ.ptable q).life := life_modify (fun _ => by rfl) κ.ptable p
      by_cases hq : q = np
      · subst hq
        refine ⟨.alloc, ?_, fun _ => hfind, by simp [stamps], nofun, nofun, by simp [beat],
          by simp [beat], by simp⟩
        rw [hlife, hκ, modify_self]
        exact .alloc (state_of_findUnused hfind)
      · refine lives_of_quiet (.of_eq ?_) rfl rfl
        rw [hlife, hκ, modify_of_ne _ _ hq]
  | @kalloc p np page hf =>
    have hnp : (m.ptable np).state = .embryo := (h.of_forks hf).2.2.1
    cases page with
    | none =>
      exact lives_of_child hf (κ := allocprocFail m.toKernel np) rfl life_return (.drop hnp) nofun
        rfl
        nofun nofun nofun rfl q
    | some page =>
      exact lives_of_child hf (κ := allocprocInit m.toKernel np page) rfl
        (life_modify (fun _ => by rfl) _ p) (.stamp hnp) nofun (stamps_kalloc hf) nofun
        nofun nofun rfl q
  | @copyuvm p np pgdir hf =>
    have hnp : (m.ptable np).state = .embryo := (h.of_forks hf).2.2.1
    cases pgdir with
    | none =>
      exact lives_of_child hf (κ := forkFail m.toKernel np) rfl life_return (.drop hnp) nofun rfl
        nofun
        nofun nofun rfl q
    | some pgdir =>
      exact lives_of_child hf (κ := forkCopy m.toKernel p np pgdir) rfl
        (life_modify (fun _ => by rfl) _ p) (.keep _) nofun rfl nofun nofun nofun rfl q
  | @ready p np _ hf =>
    have hnp : (m.ptable np).state = .embryo := (h.of_forks hf).2.2.1
    obtain ⟨_, -, hp⟩ := id hf
    exact lives_of_child hf (κ := forkReady m.toKernel np) rfl life_return (.start hnp) nofun rfl
      (fun _ => ⟨p, .inr hp⟩) nofun nofun rfl q
  | @fault p => exact lives_of_quiet (.of_eq (life_modify (fun _ => by rfl) m.ptable p q)) rfl rfl
  | @image p => exact lives_of_quiet (.of_eq (life_modify (fun _ => by rfl) m.ptable p q)) rfl rfl

theorem state_of_born (h : m.Inv) (hq : m.Born q) : (m.ptable q).state = .embryo := by
  obtain ⟨p, hp | hp⟩ := hq
  · exact h.forked.child p _ hp
  · exact h.forked.child p _ hp

/-- A `fork` call stays where it is, ends, begins, or goes on. -/
inductive ForkStep (m : Machine n) (c : Fin n) (a : Act) (x : Option Forking) :
    Option Forking → Prop
  | keep : ForkStep m c a x x
  | finish : ForkStep m c a x none
  | begin (np : Slot) : ForkStep m c a x (some (.embryo np))
  | stamp {np : Slot} : m.stamps c a = some np → ForkStep m c a x (some (.alloced np))
  | copy {np : Slot} : x = some (.alloced np) → ForkStep m c a x (some (.copied np))

theorem ForkStep.of_eq {x y : Option Forking} (h : y = x) : ForkStep m c a x y := h ▸ .keep

theorem ForkStep.modify {t : Ptable} {f : Proc → Proc} (hf : ∀ r, (f r).forking = r.forking) :
    ForkStep m c a (t q).forking (Xv6.modify t p f q).forking :=
  .of_eq (forking_modify hf t p q)

/-- The `fork` call of `p` gets to `g`, and those of the others stay. -/
theorem ForkStep.setForking {κ : Kernel} {g : Option Forking}
    (hκ : ∀ q, (κ.ptable q).forking = (m.ptable q).forking)
    (hg : ForkStep m c a (m.ptable p).forking g) (q : Slot) :
    ForkStep m c a (m.ptable q).forking (((m.setKernel κ).setForking p g).ptable q).forking := by
  rw [setForking_toKernel, modify_ptable, modify_apply]
  split_ifs with hq
  · subst hq; exact hg
  · exact .of_eq (hκ q)

theorem forking_waitLoop {ctx : Context} {store : Proc → Proc → Proc}
    (hstore : ∀ q r, (store q r).forking = r.forking) :
    ((m.waitLoop c p k ctx store).ptable q).forking = (m.ptable q).forking := by
  unfold Machine.waitLoop
  split
  · rw [release_toKernel, ret_toKernel, modify_ptable, forking_modify (fun _ => by rfl),
      onProc_toKernel, modify_ptable, forking_modify (hstore _), onProc_toKernel, modify_ptable,
      forking_modify (fun _ => by rfl)]
  · split_ifs
    · exact forking_modify (fun _ => by rfl) _ _ _
    · rw [Machine.sleep, sched_toKernel]
      exact forking_modify (fun _ => by rfl) _ _ _

theorem forking_schedule : ((m.schedule c).ptable q).forking = (m.ptable q).forking := by
  have hseed : ∀ seed p, (((m.setSeed seed).dispatch c p .lottery).ptable q).forking =
      (m.ptable q).forking := fun seed p => forking_modify (fun _ => by rfl) _ _ _
  unfold Machine.schedule
  split_ifs
  · split
    · exact forking_modify (fun _ => by rfl) _ _ _
    · rfl
  · split
    · exact hseed _ _
    · rw [setSeed_ptable]
  · rfl
  · rfl

theorem forking_resume : ((m.resume c p k).ptable q).forking = (m.ptable q).forking := by
  have h : ((m.onProc p fun q => { q with chan := none }).ptable q).forking =
    (m.ptable q).forking := forking_modify (fun _ => by rfl) _ _ _
  unfold Machine.resume
  cases (m.ptable p).context with
  | forkret | yield => rfl
  | sleep => exact h
  | wait => exact (forking_waitLoop fun _ _ => by rfl).trans h
  | waitx => exact (forking_waitLoop fun _ _ => by rfl).trans h

theorem forkStep_of_moves (hm : m.Moves c a m') (q : Slot) :
    m.ForkStep c a (m.ptable q).forking (m'.ptable q).forking := by
  cases hm with
  | schedule => exact .of_eq forking_schedule
  | scan =>
    unfold Machine.scan
    split
    · exact .modify fun _ => by rfl
    · exact .keep
  | resume => exact .of_eq forking_resume
  | timer =>
    unfold Machine.timer
    split_ifs <;> exact .keep
  | intrWakeup => exact .of_eq (forking_eq_of_stack (stack_wakeup1 _ _ _))
  | intrAccount =>
    refine .of_eq ?_
    rw [setIntr_toKernel, setKernel_toKernel]
    simp only [account, Proc.charge]
    split <;> rfl
  | intrPreempt => rw [Machine.yield, sched_toKernel]; exact .modify fun _ => by rfl
  | intrReturn => exact .keep
  | wakeup => exact .of_eq (forking_eq_of_stack (stack_wakeup1 _ _ _))
  | yield => rw [Machine.yield, sched_toKernel]; exact .modify fun _ => by rfl
  | sleep => rw [Machine.sleep, sched_toKernel]; exact .modify fun _ => by rfl
  | exit => rw [sched_toKernel]; exact .of_eq (forking_eq_of_stack (stack_exit _ _ _))
  | wait => exact .of_eq (forking_waitLoop fun _ _ => by rfl)
  | waitxNull => exact .modify fun _ => by rfl
  | waitx => exact .of_eq (forking_waitLoop fun _ _ => by rfl)
  | kill =>
    rw [ret_toKernel, modify_ptable, forking_modify (fun _ => by rfl)]
    exact .of_eq (forking_eq_of_stack (stack_kill _ _ _))
  | setpolicy =>
    rw [ret_toKernel, modify_ptable, forking_modify (fun _ => by rfl), setKernel_toKernel,
      setpolicy_ptable]
    exact .keep
  | settickets =>
    rw [ret_toKernel, modify_ptable, forking_modify (fun _ => by rfl)]
    exact .of_eq (forking_eq_of_stack (stack_settickets _ _ _ _))
  | allocproc =>
    unfold Machine.allocproc
    split
    · exact .modify fun _ => by rfl
    · rename_i np κ hκ
      refine .setForking (fun q => ?_) (.begin np) q
      rw [(allocproc_eq_some hκ).2, forking_modify (fun _ => by rfl)]
  | @kalloc _ np page hf =>
    cases page with
    | none =>
      rw [Machine.kalloc, ret_toKernel, modify_ptable, forking_modify (fun _ => by rfl)]
      exact .setForking (forking_modify (fun _ => by rfl) m.ptable np) .finish q
    | some page =>
      exact .setForking (forking_modify (fun _ => by rfl) m.ptable np) (.stamp (stamps_kalloc hf)) q
  | @copyuvm _ np pgdir hf =>
    cases pgdir with
    | none =>
      rw [Machine.copyuvm, ret_toKernel, modify_ptable, forking_modify (fun _ => by rfl)]
      exact .setForking (forking_modify (fun _ => by rfl) m.ptable np) .finish q
    | some pgdir =>
      obtain ⟨_, -, hf⟩ := hf
      exact .setForking (forking_modify (fun _ => by rfl) m.ptable np) (.copy hf) q
  | @ready _ np =>
    rw [Machine.ready, ret_toKernel, modify_ptable, forking_modify (fun _ => by rfl)]
    exact .setForking (forking_modify (fun _ => by rfl) m.ptable np) .finish q
  | fault => exact .modify fun _ => by rfl
  | image => exact .modify fun _ => by rfl

/-- A new process is stamped before it is copied from its parent. -/
theorem born_of_moves (hm : m.Moves c a m') (hq : m'.Born q) :
    m.Born q ∨ m.stamps c a = some q := by
  obtain ⟨p, hp⟩ := hq
  have hf := forkStep_of_moves hm p
  generalize hx : (m.ptable p).forking = x at hf
  generalize (m'.ptable p).forking = y at hf hp
  cases hf with
  | keep => exact .inl ⟨p, by rwa [hx]⟩
  | finish => rcases hp with hp | hp <;> cases hp
  | begin => rcases hp with hp | hp <;> cases hp
  | stamp hs =>
    rcases hp with hp | hp <;> cases hp
    exact .inr hs
  | copy hc =>
    rcases hp with hp | hp <;> cases hp
    exact .inl ⟨p, .inl (hx.trans hc)⟩

/-! ## The start -/

theorem boot_ticks (kstack pgdir root : ℕ) : (boot n kstack pgdir root).ticks = 0 := rfl

theorem life_boot (kstack pgdir root : ℕ) (q : Slot) :
    ((boot n kstack pgdir root).ptable q).life =
      ⟨if q = 0 then .runnable else .unused, 0, 0, 0, 0, 0⟩ := by
  rw [boot, userinit_ptable]
  by_cases hq : q = 0 <;> simp [hq, Proc.life]

theorem not_born_boot (kstack pgdir root : ℕ) (q : Slot) :
    ¬ (boot n kstack pgdir root).Born q := by
  rintro ⟨p, hp⟩
  rw [boot, userinit_ptable] at hp
  by_cases h : p = 0 <;> simp [h] at hp

end Machine

end Xv6
