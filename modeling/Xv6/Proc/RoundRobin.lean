import Xv6.Proc.Switch

/-!
# Round robin

On one CPU, with the policy 0 throughout, the scheduler goes round the table: the
slot at which its scan goes on (`Pc.pos`) only moves when it switches to a
process, past the slot of that process, and back to the first slot at the end of
a pass.

Hence the bound on waiting (`round_robin_wait`). A process that becomes `RUNNABLE`
behind the position waits for the slots after it, up to the end of the pass, and
then for those before it. One that becomes `RUNNABLE` ahead of the position waits
for the slots in between. No slot comes up twice.
-/

namespace Xv6

open Function

/-- The slot at which the round-robin scan goes on, in a round-robin pass. -/
def Pc.pos : Pc → Option ℕ
  | .loop => some 0
  | .scan i | .swtched (.rr i) | .running (.rr i) => some i
  | .swtched _ | .running _ => none

namespace Machine

open TransitionSystem

variable {n : ℕ} {m m' : Machine n} {c : Fin n} {p q : Slot} {k : Pass} {a : Act} {i : ℕ}

/-! ## The position -/

/-- The position on the CPU `c` stays. -/
def KeepsPos (m : Machine n) (c : Fin n) (m' : Machine n) : Prop :=
  ∀ i, (m.cpu c).pc.pos = some i → (m'.cpu c).pc.pos = some i

theorem KeepsPos.of_eq (hcpu : (m'.cpu c).pc = (m.cpu c).pc) : m.KeepsPos c m' := fun i hi => by
  rw [hcpu]; exact hi

theorem KeepsPos.setIntr (x : Option Intr) : m.KeepsPos c (m.setIntr c x) :=
  .of_eq (by simp)

/-- A process that goes on outside the lock. -/
theorem KeepsPos.release (hk : (m.cpu c).pc = .swtched k ∨ (m.cpu c).pc = .running k)
    (hcpu : m'.cpu = update m.cpu c { proc := some p, pc := .running k }) :
    m.KeepsPos c m' := fun i hi => by
  rw [hcpu, update_self]
  rcases hk with hk | hk <;> rw [hk] at hi <;> cases k <;> exact hi

/-- A process that switches back to the scheduler. -/
theorem KeepsPos.sched (hk : (m.cpu c).pc = .swtched k ∨ (m.cpu c).pc = .running k)
    (hcpu : m'.cpu = update m.cpu c (afterSched k)) : m.KeepsPos c m' := fun i hi => by
  have hrr : ∃ j, k = .rr j ∧ j = i := by
    rcases hk with hk | hk <;> rw [hk] at hi <;> cases k <;> simp_all [Pc.pos]
  obtain ⟨j, rfl, rfl⟩ := hrr
  rw [hcpu, update_self]
  rfl

theorem KeepsPos.waitLoop (hk : (m.cpu c).pc = .swtched k ∨ (m.cpu c).pc = .running k)
    {ctx : Context} {store : Proc → Proc → Proc} : m.KeepsPos c (m.waitLoop c p k ctx store) := by
  unfold Machine.waitLoop
  split
  · exact .release hk rfl
  · split_ifs
    · exact .release hk rfl
    · exact .sched hk (sched_cpu ..)

/-- The position only moves in a scan. -/
theorem keepsPos_of_moves (hm : m.Moves c a m') (hpolicy : m.schedulingPolicy = 0)
    (ha : a ≠ .scan) : m.KeepsPos c m' := by
  cases hm with
  | schedule hc =>
    intro i hi
    rw [hc] at hi
    have : m.schedule c = m.setCpu c { pc := .scan 0 } (some c) := by
      simp [Machine.schedule, hpolicy]
    rw [this, setCpu_cpu, update_self]
    exact hi
  | scan => exact absurd rfl ha
  | @resume p k hp hk =>
    have hk₁ : ((m.onProc p fun q => { q with chan := none }).cpu c).pc = .swtched k := hk
    unfold Machine.resume
    cases (m.ptable p).context with
    | forkret | yield => exact .release (.inl hk) rfl
    | sleep => exact .release (.inl hk) rfl
    | wait => exact KeepsPos.waitLoop (.inl hk₁)
    | waitx => exact KeepsPos.waitLoop (.inl hk₁)
  | timer =>
    refine .of_eq ?_
    unfold Machine.timer
    split_ifs <;> simp
  | intrWakeup => exact .of_eq (by simp)
  | intrAccount => exact .of_eq (by simp)
  | intrPreempt hc => exact .sched (.inr (by rw [hc])) (sched_cpu ..)
  | intrReturn => exact .setIntr _
  | yield _ hp => exact .sched (.inr (by rw [hp.1])) (sched_cpu ..)
  | sleep _ _ hp => exact .sched (.inr (by rw [hp.1])) (sched_cpu ..)
  | exit _ hp => exact .sched (.inr hp.pc) (sched_cpu ..)
  | wait _ hp => exact .waitLoop (.inr (by rw [hp.1]))
  | waitx _ hp => exact .waitLoop (.inr (by rw [hp.1]))
  | allocproc =>
    refine .of_eq ?_
    unfold Machine.allocproc
    split <;> rfl
  | @kalloc _ _ page => cases page <;> exact .of_eq rfl
  | @copyuvm _ _ pgdir => cases pgdir <;> exact .of_eq rfl
  | _ => exact .of_eq rfl

/-- In a scan, the position moves past the process it switches to, or back. -/
theorem pos_scan (m : Machine n) (c : Fin n) (i : ℕ) :
    (∃ q, rrNext m.ptable i = some q ∧ m.Switched (m.scan c i) q ∧
      ((m.scan c i).cpu c).pc.pos = some (q.val + 1)) ∨
    rrNext m.ptable i = none ∧ (m.scan c i).ptable = m.ptable ∧
      ((m.scan c i).cpu c).pc.pos = some 0 := by
  unfold Machine.scan
  split
  · rename_i q hq
    refine .inl ⟨q, hq, ⟨(rrNext_eq_some_iff.1 hq).1.2, ?_⟩, ?_⟩
    · rw [dispatch_toKernel, modify_ptable, modify_self]
    · rw [dispatch_cpu, update_self]; rfl
  · rename_i hq
    refine .inr ⟨hq, rfl, ?_⟩
    rw [setCpu_cpu, update_self]; rfl

/-! ## Waiting -/

/-- The ghost that counts, for every process `p`, how often the others were switched to
    since `p` last became `RUNNABLE`. -/
def passedOver (m : Machine n) (_ : Fin n × Act) (m' : Machine n) (g : Slot → Slot → ℕ)
    (p q : Slot) : ℕ :=
  if (m.ptable p).state ≠ .runnable ∧ (m'.ptable p).state = .runnable then 0
  else if m.Switched m' q then g p q + 1
  else g p q

/-- The runs on one CPU, with how often the others were switched to. -/
def waitingRuns : TransitionSystem (Machine 1 × (Slot → Slot → ℕ)) (Fin 1 × Act) :=
  (machine 1).withGhost (fun _ _ _ => 0) passedOver

/-- The policy is round robin. -/
def RoundRobin (x : Machine 1 × (Slot → Slot → ℕ)) (_ : Fin 1 × Act) : Prop :=
  x.1.schedulingPolicy = 0

instance (x : Machine 1 × (Slot → Slot → ℕ)) (a : Fin 1 × Act) : Decidable (RoundRobin x a) :=
  inferInstanceAs (Decidable (_ = _))

/-- With the scan at `i`, while `p` waits, `g` counts the processes switched to: at most once
    each, and only those the scan has come to since. -/
def Fair (i : ℕ) (p : Slot) (g : Slot → ℕ) : Prop :=
  ∀ q, q ≠ p → g q ≤ 1 ∧ (g q = 1 →
    if p.val < i then p.val < q.val ∧ q.val < i else q.val < i ∨ p.val < q.val)

theorem Fair.zero (i : ℕ) (p : Slot) : Fair i p fun _ => 0 := fun _ _ => ⟨Nat.zero_le _, nofun⟩

/-- The scan gets to the end of the table. -/
theorem Fair.wrap {g : Slot → ℕ} (h : Fair i p g) (hi : p.val < i) : Fair 0 p g := fun q hq => by
  obtain ⟨hle, hpos⟩ := h q hq
  refine ⟨hle, fun h₁ => ?_⟩
  rw [if_neg (Nat.not_lt_zero _)]
  have := hpos h₁
  rw [if_pos hi] at this
  exact .inr this.1

/-- The scan switches to `r`, and `p` waits on. -/
theorem Fair.switch {g g' : Slot → ℕ} {r : Slot} (h : Fair i p g) (hi : i ≤ r.val)
    (hr : i ≤ p.val → r.val < p.val) (hg : ∀ q, g' q = if q = r then g q + 1 else g q) :
    Fair (r.val + 1) p g' := fun q hq => by
  obtain ⟨hle, hpos⟩ := h q hq
  -- `r` was not counted yet: it is ahead of the scan, and not beyond `p`
  have hnew : q = r → g q = 0 := by
    rintro rfl
    by_contra hne
    have h₁ := hpos (by omega)
    split_ifs at h₁ <;> omega
  have hqp : q.val ≠ p.val := fun he => hq (Fin.ext he)
  rw [hg]
  split_ifs with hqr hpr hpr
  · subst hqr
    have := hnew rfl
    exact ⟨by omega, fun _ => by omega⟩
  · subst hqr
    have := hnew rfl
    exact ⟨by omega, fun _ => by omega⟩
  · refine ⟨hle, fun h₁ => ?_⟩
    have := hpos h₁
    split_ifs at this <;> omega
  · refine ⟨hle, fun h₁ => ?_⟩
    have := hpos h₁
    split_ifs at this <;> omega

/-- Whoever waits is served fairly. -/
structure Served (x : Machine 1 × (Slot → Slot → ℕ)) : Prop where
  inv : x.1.Inv
  fair : ∃ i, (x.1.cpu 0).pc.pos = some i ∧
    ∀ p, (x.1.ptable p).state = .runnable → Fair i p (x.2 p)

/-- The counts of a process that waits on. -/
theorem passedOver_of_waiting {x : Fin n × Act} {g : Slot → Slot → ℕ}
    (hp : (m.ptable p).state = .runnable) (q : Slot) :
    passedOver m x m' g p q = if m.Switched m' q then g p q + 1 else g p q :=
  if_neg fun h => h.1 hp

/-- The counts of a process that starts to wait. -/
theorem fair_of_start {x : Fin n × Act} {g : Slot → Slot → ℕ}
    (hp : (m.ptable p).state ≠ .runnable) (hp' : (m'.ptable p).state = .runnable) (i : ℕ) :
    Fair i p (passedOver m x m' g p) := by
  have : passedOver m x m' g p = fun _ => 0 := funext fun q => if_pos ⟨hp, hp'⟩
  rw [this]
  exact .zero i p

theorem fair_scan (x : Fin n × Act) {g : Slot → Slot → ℕ}
    (hfair : ∀ p, (m.ptable p).state = .runnable → Fair i p (g p)) :
    ∃ j, ((m.scan c i).cpu c).pc.pos = some j ∧
      ∀ p, ((m.scan c i).ptable p).state = .runnable →
        Fair j p (passedOver m x (m.scan c i) g p) := by
  rcases pos_scan m c i with ⟨r, hr, hsw, hpos⟩ | ⟨hnone, htab, hpos⟩
  · refine ⟨r.val + 1, hpos, fun p hp' => ?_⟩
    by_cases hp : (m.ptable p).state = .runnable
    · obtain ⟨⟨hir, -⟩, hfirst⟩ := rrNext_eq_some_iff.1 hr
      have hpr : p.val ≠ r.val := fun he => by
        rw [Fin.ext he, hsw.2] at hp'; cases hp'
      refine (hfair p hp).switch hir (fun hip => ?_) fun q => ?_
      · have : ¬ p < r := fun hlt => hfirst p hlt hip hp
        rw [Fin.lt_def] at this
        omega
      · rw [passedOver_of_waiting hp]
        by_cases hq : q = r
        · subst hq; rw [if_pos hsw, if_pos rfl]
        · refine (if_neg fun h => hq ?_).trans (if_neg hq).symm
          rw [Machine.scan, hr] at h
          exact eq_of_switched_dispatch h
    · exact fair_of_start hp hp' _
  · refine ⟨0, hpos, fun p hp => ?_⟩
    rw [htab] at hp
    have hpi : p.val < i := by
      by_contra hip
      exact rrNext_eq_none hnone (Nat.le_of_not_lt hip) hp
    have : passedOver m x (m.scan c i) g p = g p := funext fun q => by
      rw [passedOver_of_waiting hp, if_neg (not_switched_of_ptable htab)]
    rw [this]
    exact (hfair p hp).wrap hpi

theorem served_of_step {m m' : Machine 1} {c : Fin 1} {g : Slot → Slot → ℕ} (h : Served (m, g))
    (hpolicy : m.schedulingPolicy = 0) (hs : m.step (c, a) = some m') :
    Served (m', passedOver m (c, a) m' g) := by
  obtain ⟨hinv, i, hi, hfair⟩ := h
  have hinv' := inv_of_step hinv hs
  have hm := moves_of_step hs
  obtain rfl := Subsingleton.elim c 0
  refine ⟨hinv', ?_⟩
  by_cases ha : a = .scan
  · subst ha
    cases hm with
    | @scan j hc =>
      obtain rfl : j = i := by
        rw [hc] at hi; exact Option.some.inj hi
      exact fair_scan (0, .scan) hfair
  · refine ⟨i, keepsPos_of_moves hm hpolicy ha i hi, fun p hp' => ?_⟩
    by_cases hp : (m.ptable p).state = .runnable
    · have : passedOver m (0, a) m' g p = g p := funext fun q => by
        rw [passedOver_of_waiting hp]
        refine if_neg fun hq => ?_
        rcases switched_cases hinv hinv' hm hq with ⟨-, -, h, -⟩ | ⟨-, h, -⟩ | ⟨h, -⟩
        · rw [hpolicy] at h; cases h
        · rw [hpolicy] at h; cases h
        · exact ha h
      change Fair i p (passedOver m (0, a) m' g p)
      rw [this]
      exact hfair p hp
    · exact fair_of_start (x := (0, a)) hp hp' i

/-- On one CPU, with the policy 0 throughout, no other process is switched to twice
    while a process waits to be. -/
theorem round_robin_wait {x : Machine 1 × (Slot → Slot → ℕ)}
    (hx : waitingRuns.Reachable RoundRobin x) (hp : (x.1.ptable p).state = .runnable)
    (hq : q ≠ p) : x.2 p q ≤ 1 := by
  have h := hx.invariant (I := Served) ?_ fun x a y h hpolicy hs => ?_
  · obtain ⟨-, i, -, hfair⟩ := h
    exact (hfair p hp q hq).1
  · rintro ⟨m, g⟩ ⟨⟨kstack, pgdir, root, rfl⟩, hg⟩
    obtain rfl : g = fun _ _ => 0 := hg
    exact ⟨inv_boot _ _ _, 0, rfl, fun p _ => .zero 0 p⟩
  · obtain ⟨hs, hg⟩ := withGhost_step.1 hs
    have := served_of_step h hpolicy hs
    rwa [← hg] at this

/-- The first process forks twice and yields, its first child yields too, and the second
    runs. -/
def forkTwiceAndYield : List Act :=
  [.schedule, .scan, .resume] ++ forkActs ++ forkActs ++
    [.yield, .scan, .resume, .yield, .scan, .resume]

theorem round_robin_wait_forkTwiceAndYield : ∃ x : Machine 1 × (Slot → Slot → ℕ),
    waitingRuns.Reachable RoundRobin x ∧ (x.1.ptable 0).state = .runnable ∧
    x.2 0 1 = 1 ∧ x.2 0 2 = 1 ∧ x.2 0 1 ≤ 1 := by
  obtain ⟨x, hx, hP⟩ := exists_reachable (S := waitingRuns)
    (s := (boot 1 0 0 0, fun _ _ => 0)) ⟨⟨0, 0, 0, rfl⟩, rfl⟩
    (show (exec _ RoundRobin _ (forkTwiceAndYield.map (0, ·))).any (fun x => decide (
      (x.1.ptable 0).state = .runnable ∧ x.2 0 1 = 1 ∧ x.2 0 2 = 1)) by decide +kernel)
  obtain ⟨hp, h₁, h₂⟩ := of_decide_eq_true hP
  exact ⟨x, hx, hp, h₁, h₂, round_robin_wait hx hp (by decide)⟩

end Machine

end Xv6
