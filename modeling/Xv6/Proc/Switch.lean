import Xv6.Proc.Invariant

/-!
# Switching to a process

The scheduler switches to a process in three places only, one in each branch
(`switched_cases`). Every other step leaves a CPU with the process it had, or
with none.
-/

namespace Xv6.Machine

variable {n : ℕ} {m m' : Machine n} {c : Fin n} {p : Slot} {k : Pass} {a : Act}

/-- The scheduler switches to `p` in a step from `m` to `m'`. -/
def Switched (m m' : Machine n) (p : Slot) : Prop :=
  (m.ptable p).state = .runnable ∧ (m'.ptable p).state = .running

instance (m m' : Machine n) (p : Slot) : Decidable (m.Switched m' p) :=
  inferInstanceAs (Decidable (_ ∧ _))

/-- The CPUs keep their processes, or are left without. -/
def KeepsProc (m m' : Machine n) : Prop :=
  ∀ c, (m'.cpu c).proc = none ∨ (m'.cpu c).proc = (m.cpu c).proc

theorem KeepsProc.of_eq (hcpu : m'.cpu = m.cpu) : m.KeepsProc m' := fun c => .inr (by rw [hcpu])

theorem KeepsProc.of_update {x : Cpu} (hcpu : m'.cpu = Function.update m.cpu c x)
    (hx : x.proc = none ∨ x.proc = (m.cpu c).proc) : m.KeepsProc m' := fun c' => by
  rw [hcpu]
  by_cases hc : c' = c
  · subst hc; rwa [Function.update_self]
  · rw [Function.update_of_ne hc]; exact .inr rfl

theorem KeepsProc.sched : m.KeepsProc (m.sched c k) :=
  .of_update (sched_cpu ..) (.inl (by cases k <;> rfl))

theorem KeepsProc.release (hc : (m.cpu c).proc = some p) : m.KeepsProc (m.release c p k) :=
  .of_update (release_cpu ..) (.inr hc.symm)

theorem KeepsProc.congr {m'' : Machine n} (h : m.KeepsProc m') (hcpu : m.cpu = m''.cpu) :
    m''.KeepsProc m' := fun c => by rw [← hcpu]; exact h c

theorem KeepsProc.waitLoop (hc : (m.cpu c).proc = some p) {ctx : Context}
    {store : Proc → Proc → Proc} : m.KeepsProc (m.waitLoop c p k ctx store) := by
  unfold Machine.waitLoop
  split
  · exact KeepsProc.release hc
  · split_ifs
    · exact KeepsProc.release hc
    · exact KeepsProc.sched

/-- Only the scheduler puts a process on a CPU. -/
theorem keepsProc_of_moves (hm : m.Moves c a m') (h₁ : a ≠ .schedule) (h₂ : a ≠ .scan) :
    m.KeepsProc m' := by
  cases hm with
  | schedule => exact absurd rfl h₁
  | scan => exact absurd rfl h₂
  | @resume p k hp =>
    have hp' : ((m.onProc p fun q => { q with chan := none }).cpu c).proc = some p := hp
    unfold Machine.resume
    cases (m.ptable p).context with
    | forkret | yield => exact .release hp
    | sleep => exact KeepsProc.release hp
    | wait => exact (KeepsProc.waitLoop hp').congr rfl
    | waitx => exact (KeepsProc.waitLoop hp').congr rfl
  | timer =>
    unfold Machine.timer
    split_ifs
    · exact .of_update rfl (.inr rfl)
    · exact .of_update rfl (.inr rfl)
  | intrWakeup => exact .of_update rfl (.inr rfl)
  | intrAccount => exact .of_update rfl (.inr rfl)
  | intrPreempt => exact KeepsProc.sched
  | intrReturn => exact .of_update rfl (.inr rfl)
  | yield => exact KeepsProc.sched
  | sleep => exact KeepsProc.sched
  | exit => exact KeepsProc.sched
  | wait _ hp => exact .waitLoop (by rw [hp.1])
  | waitx _ hp => exact .waitLoop (by rw [hp.1])
  | allocproc =>
    refine .of_eq ?_
    unfold Machine.allocproc
    split <;> rfl
  | @kalloc _ _ page => cases page <;> exact .of_eq rfl
  | @copyuvm _ _ pgdir => cases pgdir <;> exact .of_eq rfl
  | _ => exact .of_eq rfl

/-- A step that dispatches `q` switches to `q` only. -/
theorem eq_of_switched_dispatch {q : Slot} (h : m.Switched (m.dispatch c q k) p) : p = q := by
  by_contra hpq
  obtain ⟨h₁, h₂⟩ := h
  rw [dispatch_toKernel, modify_ptable, modify_of_ne _ _ hpq, h₁] at h₂
  cases h₂

theorem not_switched_of_ptable (h : m'.ptable = m.ptable) : ¬ m.Switched m' p := by
  rintro ⟨h₁, h₂⟩
  rw [h, h₁] at h₂
  cases h₂

/-- The scheduler switches to a process in one of its three branches. -/
theorem switched_cases (h : m.Inv) (h' : m'.Inv) (hm : m.Moves c a m') (hp : m.Switched m' p) :
    a = .schedule ∧ m.cpu c = {} ∧ m.schedulingPolicy = 1 ∧ fcfs m.ptable = some p ∨
    a = .schedule ∧ m.schedulingPolicy = 2 ∧ lottery m.ptable (krand m.randSeed) = some p ∨
    a = .scan ∧ ∃ i, (m.cpu c).pc = .scan i ∧ rrNext m.ptable i = some p := by
  by_cases ha : a = .schedule ∨ a = .scan
  · cases hm with
    | schedule hc =>
      -- The lottery has drawn before it switches.
      have hseed : ∀ seed q, m.Switched ((m.setSeed seed).dispatch c q .lottery) p → p = q :=
        fun seed q => eq_of_switched_dispatch (m := m.setSeed seed)
      unfold Machine.schedule at hp
      split_ifs at hp with h₁ h₂ h₃
      · split at hp
        · rename_i q hq
          exact .inl ⟨rfl, hc, h₁, by rw [hq, eq_of_switched_dispatch hp]⟩
        · exact absurd hp (not_switched_of_ptable rfl)
      · split at hp
        · rename_i q hq
          exact .inr (.inl ⟨rfl, h₂, by rw [hq, hseed _ _ hp]⟩)
        · exact absurd hp (not_switched_of_ptable (setSeed_ptable ..))
      · exact absurd hp (not_switched_of_ptable rfl)
      · exact absurd hp (not_switched_of_ptable rfl)
    | @scan i hc =>
      unfold Machine.scan at hp
      split at hp
      · rename_i q hq
        exact .inr (.inr ⟨rfl, i, hc, by rw [hq, eq_of_switched_dispatch hp]⟩)
      · exact absurd hp (not_switched_of_ptable rfl)
    | _ => simp at ha
  · -- `p` was on no CPU, and is on none after the step.
    obtain ⟨h₁, h₂⟩ := not_or.1 ha
    obtain ⟨c', hc'⟩ := h'.onCpu.onCpu p hp.2
    rcases keepsProc_of_moves hm h₁ h₂ c' with hn | he
    · rw [hn] at hc'; cases hc'
    · have := h.onCpu.running c' p (he ▸ hc')
      rw [hp.1] at this
      cases this

end Xv6.Machine
