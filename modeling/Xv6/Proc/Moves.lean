import Xv6.Proc.Machine

/-!
# What a step can do

`Moves m c a m'` lists, action by action, when a step is possible and what it
does; `moves_of_step` is the inversion every invariant is proved by. The
lemmas on the fields of the machine spare the later proofs the definitions.
-/

namespace Xv6.Machine

open Function

variable {n : ℕ} {m m' : Machine n} {c : Fin n} {p : Slot} {k : Pass}

section Fields

variable (m) (c) (p) (k) (f : Proc → Proc) (l : Option (Fin n)) (x : Cpu) (v : Int32)
  (κ : Kernel) (i : Option Intr) (g : Option Forking)

@[simp] theorem setKernel_toKernel : (m.setKernel κ).toKernel = κ := rfl
@[simp] theorem setKernel_cpu : (m.setKernel κ).cpu = m.cpu := rfl

@[simp] theorem setSeed_ptable (seed : UInt32) : (m.setSeed seed).ptable = m.ptable := rfl
@[simp] theorem setSeed_cpu (seed : UInt32) : (m.setSeed seed).cpu = m.cpu := rfl
@[simp] theorem setSeed_lock (seed : UInt32) : (m.setSeed seed).lock = m.lock := rfl

@[simp] theorem modify_ptable (κ : Kernel) :
    (κ.modify p f).ptable = Xv6.modify κ.ptable p f := rfl

@[simp] theorem onProc_toKernel : (m.onProc p f).toKernel = m.toKernel.modify p f := rfl
@[simp] theorem onProc_cpu : (m.onProc p f).cpu = m.cpu := rfl

@[simp] theorem ret_toKernel :
    (m.ret p v).toKernel = m.toKernel.modify p fun q => { q with eax := v } := rfl

@[simp] theorem setForking_toKernel :
    (m.setForking p g).toKernel = m.toKernel.modify p fun q => { q with forking := g } := rfl

@[simp] theorem setCpu_toKernel : (m.setCpu c x l).toKernel = m.toKernel := rfl
@[simp] theorem setCpu_cpu : (m.setCpu c x l).cpu = update m.cpu c x := rfl

@[simp] theorem setIntr_toKernel : (m.setIntr c i).toKernel = m.toKernel := rfl
@[simp] theorem setIntr_cpu :
    (m.setIntr c i).cpu = update m.cpu c { m.cpu c with intr := i } := rfl

@[simp] theorem dispatch_toKernel : (m.dispatch c p k).toKernel =
    m.toKernel.modify p fun q => { q with state := .running } := rfl
@[simp] theorem dispatch_cpu : (m.dispatch c p k).cpu =
    update m.cpu c { proc := some p, pc := .swtched k } := rfl

@[simp] theorem release_toKernel : (m.release c p k).toKernel = m.toKernel := rfl
@[simp] theorem release_cpu : (m.release c p k).cpu =
    update m.cpu c { proc := some p, pc := .running k } := rfl

@[simp] theorem sched_toKernel : (m.sched c k).toKernel = m.toKernel := by cases k <;> rfl

/-- The CPU of a process that switched back to the scheduler. -/
def afterSched : Pass → Cpu
  | .rr i => { pc := .scan i }
  | .fcfs | .lottery => {}

theorem sched_cpu : (m.sched c k).cpu = update m.cpu c (afterSched k) := by
  cases k <;> rfl

end Fields

/-! ## Whose step it is -/

theorem current_eq_some_iff : m.current c = some (p, k) ↔
    m.cpu c = { proc := some p, pc := .running k, intr := none } := by
  unfold current
  split
  · rename_i heq
    simp [heq]
  · rename_i hne
    constructor
    · intro h; cases h
    · intro h; exact absurd h (hne p k)

theorem caller_eq_some_iff : m.caller c = some (p, k) ↔
    m.cpu c = { proc := some p, pc := .running k, intr := none } ∧
      (m.ptable p).forking = none := by
  simp [caller, Option.filter_eq_some_iff, current_eq_some_iff]

theorem forker_eq_some_iff {f : Forking} : m.forker c = some (p, f) ↔
    ∃ k, m.cpu c = { proc := some p, pc := .running k, intr := none } ∧
      (m.ptable p).forking = some f := by
  simp only [forker, Option.bind_eq_some_iff, Option.map_eq_some_iff, Prod.mk.injEq, Prod.exists]
  constructor
  · rintro ⟨q, k, hq, f', hf, rfl, rfl⟩
    exact ⟨k, current_eq_some_iff.1 hq, hf⟩
  · rintro ⟨k, hq, hf⟩
    exact ⟨p, k, current_eq_some_iff.2 hq, f, hf, rfl, rfl⟩

/-- The process `p` runs on `c`, in the pass `k`, and is free to make a system call. -/
def Calls (m : Machine n) (c : Fin n) (p : Slot) (k : Pass) : Prop :=
  m.cpu c = { proc := some p, pc := .running k, intr := none } ∧ (m.ptable p).forking = none

/-- The process `p` runs on `c`, in a `fork` call that has got to `f`. -/
def Forks (m : Machine n) (c : Fin n) (p : Slot) (f : Forking) : Prop :=
  ∃ k, m.cpu c = { proc := some p, pc := .running k, intr := none } ∧
    (m.ptable p).forking = some f

/-- The process `p` runs on `c`, in the pass `k`, and exits in a call or at the end of a timer
    handler. -/
structure Exits (m : Machine n) (c : Fin n) (p : Slot) (k : Pass) : Prop where
  proc : (m.cpu c).proc = some p
  pc : (m.cpu c).pc = .running k
  intr : (m.cpu c).intr = none ∨ (m.cpu c).intr = some .preempt
  forking : (m.ptable p).forking = none

theorem exits_of_exiter (h : m.exiter c = some (p, k)) : m.Exits c p k := by
  unfold exiter at h
  split at h
  · rename_i heq
    split_ifs at h with hk
    obtain ⟨rfl, rfl⟩ := Prod.mk.inj (Option.some.inj h)
    exact ⟨by rw [heq], by rw [heq], .inr (by rw [heq]), hk.2⟩
  · obtain ⟨hc, hf⟩ := caller_eq_some_iff.1 h
    exact ⟨by rw [hc], by rw [hc], .inl (by rw [hc]), hf⟩

/-- The steps, action by action. -/
inductive Moves (m : Machine n) (c : Fin n) : Act → Machine n → Prop
  | schedule : m.cpu c = {} → m.lock = none → Moves m c .schedule (m.schedule c)
  | scan {i : ℕ} : (m.cpu c).pc = .scan i → Moves m c .scan (m.scan c i)
  | resume {p : Slot} {k : Pass} : (m.cpu c).proc = some p → (m.cpu c).pc = .swtched k →
      Moves m c .resume (m.resume c p k)
  | timer : m.interruptible c → Moves m c .timer (m.timer c)
  | intrWakeup : (m.cpu c).intr = some .wakeup → m.lock = none → Moves m c .intr
      ({ m with ptable := wakeup1 m.ptable (some .ticks) }.setIntr c (some .account))
  | intrAccount : (m.cpu c).intr = some .account → m.lock = none → Moves m c .intr
      ((m.setKernel (account m.toKernel)).setIntr c (some .preempt))
  | intrPreempt {p : Slot} {k : Pass} :
      m.cpu c = { proc := some p, pc := .running k, intr := some .preempt } →
      m.schedulingPolicy ≠ 1 → m.lock = none → Moves m c .intr (m.yield c p k)
  | intrReturn : (m.cpu c).intr = some .preempt → Moves m c .intr (m.setIntr c none)
  | wakeup {chan : Chan} : m.interruptible c → m.lock = none → chan.isProc = false →
      Moves m c (.wakeup chan) { m with ptable := wakeup1 m.ptable (some chan) }
  | yield {p : Slot} {k : Pass} : m.lock = none → m.Calls c p k →
      Moves m c .yield (m.yield c p k)
  | sleep {p : Slot} {k : Pass} {chan : Chan} : m.lock = none → chan.isProc = false →
      m.Calls c p k → Moves m c (.sleep chan) (m.sleep c p k chan .sleep)
  | exit {p : Slot} {k : Pass} : m.lock = none → m.Exits c p k → p ≠ m.initproc →
      Moves m c .exit ((m.setKernel (Xv6.exit m.toKernel p)).sched c k)
  | wait {p : Slot} {k : Pass} : m.lock = none → m.Calls c p k →
      Moves m c .wait (m.wait c p k)
  | waitxNull {p : Slot} {k : Pass} {w r : Bool} : m.Calls c p k → w = false ∨ r = false →
      Moves m c (.waitx w r) (m.ret p (-1))
  | waitx {p : Slot} {k : Pass} : m.lock = none → m.Calls c p k →
      Moves m c (.waitx true true) (m.waitx c p k)
  | kill {p : Slot} {k : Pass} {pid : Int32} : m.lock = none → m.Calls c p k →
      Moves m c (.kill pid)
        ((m.setKernel (Xv6.kill m.toKernel pid).1).ret p (Xv6.kill m.toKernel pid).2)
  | setpolicy {p : Slot} {k : Pass} {v : Int32} : m.Calls c p k →
      Moves m c (.setpolicy v)
        ((m.setKernel (Xv6.setpolicy m.toKernel v).1).ret p (Xv6.setpolicy m.toKernel v).2)
  | settickets {p : Slot} {k : Pass} {t : Int32} : m.lock = none → m.Calls c p k →
      Moves m c (.settickets t)
        ((m.setKernel (Xv6.settickets m.toKernel p t).1).ret p (Xv6.settickets m.toKernel p t).2)
  | allocproc {p : Slot} {k : Pass} : m.lock = none → m.Calls c p k →
      Moves m c .allocproc (m.allocproc p)
  | kalloc {p np : Slot} {page : Option ℕ} : m.Forks c p (.embryo np) →
      Moves m c (.kalloc page) (m.kalloc p np page)
  | copyuvm {p np : Slot} {pgdir : Option ℕ} : m.Forks c p (.alloced np) →
      Moves m c (.copyuvm pgdir) (m.copyuvm p np pgdir)
  | ready {p np : Slot} : m.lock = none → m.Forks c p (.copied np) →
      Moves m c .ready (m.ready p np)
  | fault {p : Slot} {k : Pass} : m.Calls c p k →
      Moves m c .fault (m.onProc p fun q => { q with killed := true })
  | image {p : Slot} {k : Pass} {i : Image} : m.Calls c p k →
      Moves m c (.image i) (m.onProc p fun q => { q with image := i })

/-- A step by a system call of the process on `c`. -/
theorem exists_calls_of_map {g : Slot × Pass → Machine n} (h : (m.caller c).map g = some m') :
    ∃ p k, m.Calls c p k ∧ m' = g (p, k) := by
  obtain ⟨⟨p, k⟩, hx, rfl⟩ := Option.map_eq_some_iff.1 h
  exact ⟨p, k, caller_eq_some_iff.1 hx, rfl⟩

theorem exists_calls_of_bind {g : Slot × Pass → Option (Machine n)}
    (h : (m.caller c).bind g = some m') : ∃ p k, m.Calls c p k ∧ g (p, k) = some m' := by
  obtain ⟨⟨p, k⟩, hx, hg⟩ := Option.bind_eq_some_iff.1 h
  exact ⟨p, k, caller_eq_some_iff.1 hx, hg⟩

theorem exists_forks_of_bind {g : Slot × Forking → Option (Machine n)}
    (h : (m.forker c).bind g = some m') : ∃ p f, m.Forks c p f ∧ g (p, f) = some m' := by
  obtain ⟨⟨p, f⟩, hx, hg⟩ := Option.bind_eq_some_iff.1 h
  exact ⟨p, f, forker_eq_some_iff.1 hx, hg⟩

theorem moves_of_preempt (hi : (m.cpu c).intr = some .preempt) (h : m.preempt c = some m') :
    m.Moves c .intr m' := by
  unfold preempt at h
  split at h
  · rename_i p k _ heq
    split_ifs at h with hy hl
    · cases h
      rw [heq] at hi
      obtain rfl : _ = some Intr.preempt := hi
      exact .intrPreempt heq hy.2 hl
    · cases h; exact .intrReturn hi
  · cases h; exact .intrReturn hi

/-- Every step is one of `Moves`. -/
theorem moves_of_step {a : Act} (h : m.step (c, a) = some m') : m.Moves c a m' := by
  cases a with
  | schedule =>
    simp only [step] at h
    split_ifs at h with hc
    cases h; exact .schedule hc.1 hc.2
  | scan =>
    simp only [step] at h
    split at h
    · rename_i heq
      cases h; exact .scan (by rw [heq])
    · cases h
  | resume =>
    simp only [step] at h
    split at h
    · rename_i heq
      cases h; exact .resume (by rw [heq]) (by rw [heq])
    · cases h
  | timer =>
    simp only [step] at h
    split_ifs at h with hc
    cases h; exact .timer hc
  | intr =>
    -- the handler goes on where it was: wake up, charge, preempt
    obtain ⟨i, hi, h⟩ := Option.bind_eq_some_iff.1 h
    cases i with
    | wakeup =>
      simp only [intr] at h
      split_ifs at h with hl
      cases h; exact .intrWakeup hi hl
    | account =>
      simp only [intr] at h
      split_ifs at h with hl
      cases h; exact .intrAccount hi hl
    | preempt => exact moves_of_preempt hi h
  | wakeup chan =>
    simp only [step] at h
    split_ifs at h with hc
    cases h; exact .wakeup hc.1 hc.2.1 hc.2.2
  | yield =>
    simp only [step] at h
    split_ifs at h with hl
    obtain ⟨p, k, hp, rfl⟩ := exists_calls_of_map h
    exact .yield hl hp
  | sleep chan =>
    simp only [step] at h
    split_ifs at h with hl
    obtain ⟨p, k, hp, rfl⟩ := exists_calls_of_map h
    exact .sleep hl.1 hl.2 hp
  | exit =>
    simp only [step] at h
    split_ifs at h with hl
    obtain ⟨⟨p, k⟩, hp, h⟩ := Option.bind_eq_some_iff.1 h
    simp only at h
    split_ifs at h with hi
    cases h; exact .exit hl (exits_of_exiter hp) hi
  | wait =>
    simp only [step] at h
    split_ifs at h with hl
    obtain ⟨p, k, hp, rfl⟩ := exists_calls_of_map h
    exact .wait hl hp
  | waitx w r =>
    obtain ⟨p, k, hp, h⟩ := exists_calls_of_bind h
    simp only at h
    split_ifs at h with hn hl
    · cases h; exact .waitxNull hp hn
    · cases h
      simp only [not_or, Bool.not_eq_false] at hn
      rw [hn.1, hn.2]
      exact .waitx hl hp
  | kill pid =>
    simp only [step] at h
    split_ifs at h with hl
    obtain ⟨p, k, hp, rfl⟩ := exists_calls_of_map h
    exact .kill hl hp
  | setpolicy v =>
    obtain ⟨p, k, hp, rfl⟩ := exists_calls_of_map h
    exact .setpolicy hp
  | settickets t =>
    simp only [step] at h
    split_ifs at h with hl
    obtain ⟨p, k, hp, rfl⟩ := exists_calls_of_map h
    exact .settickets hl hp
  | allocproc =>
    simp only [step] at h
    split_ifs at h with hl
    obtain ⟨p, k, hp, rfl⟩ := exists_calls_of_map h
    exact .allocproc hl hp
  | kalloc page =>
    obtain ⟨p, f, hf, h⟩ := exists_forks_of_bind h
    cases f <;> cases h
    exact .kalloc hf
  | copyuvm pgdir =>
    obtain ⟨p, f, hf, h⟩ := exists_forks_of_bind h
    cases f <;> cases h
    exact .copyuvm hf
  | ready =>
    simp only [step] at h
    split_ifs at h with hl
    obtain ⟨p, f, hf, h⟩ := exists_forks_of_bind h
    cases f <;> cases h
    exact .ready hl hf
  | fault =>
    obtain ⟨p, k, hp, rfl⟩ := exists_calls_of_map h
    exact .fault hp
  | image i =>
    obtain ⟨p, k, hp, rfl⟩ := exists_calls_of_map h
    exact .image hp

end Xv6.Machine
