import Mathlib.Logic.Function.Basic
import Xv6.Lib.TransitionSystem
import Xv6.Proc.Choice

/-!
# The machine

`n` CPUs, each executing `scheduler` or a process, and entered by timer
interrupts. A step is a critical section of `ptable.lock`, or what a CPU does
between two of them on memory others read. A critical section that goes through
`swtch` is cut there, the CPU keeping the lock: a process that calls `sched`
hands it over to the scheduler, and the scheduler to the process it switches to.

* The scheduler enters a pass (`Act.schedule`), by the policy in force. The
  FCFS and the lottery branch switch to at most one process and end the pass. The
  round-robin branch scans the table (`Act.scan`), and goes on with the scan when
  the process it switched to switches back.
* A process switched to continues where it was switched out (`Act.resume`): it
  releases the lock or, in `wait`, looks for a zombie again.
* A timer interrupt (`Act.timer`) enters a CPU outside the critical sections.
  On CPU 0, the handler advances `ticks`, wakes up the sleepers on it and charges
  the tick (`Act.intr`), in three separate critical sections; on every CPU, it
  ends by preempting the process it interrupted, unless the policy is FCFS. A
  process that has been killed may exit there (`Act.exit`): it does so if it was
  in user space, which the machine does not record.
* The other actions are those of the process running on the CPU (`wakeup` may
  also come from an interrupt). `fork` takes four steps.
-/

namespace Xv6

/-- A pass of the scheduler that has switched to a process: the branch it is
    in and, in a round-robin pass, the slot at which it goes on. -/
inductive Pass
  | fcfs
  | lottery
  | rr (i : ℕ)
  deriving DecidableEq, Repr

/-- What a CPU executes. -/
inductive Pc
  /-- `scheduler`, at the top of its loop. -/
  | loop
  /-- `scheduler`, in the round-robin scan at the slot `i`, holding the lock. -/
  | scan (i : ℕ)
  /-- The process it has just switched to, which holds the lock. -/
  | swtched (k : Pass)
  /-- A process, outside the critical sections of `ptable.lock`. -/
  | running (k : Pass)
  deriving DecidableEq, Repr

/-- How far the timer handler is. -/
inductive Intr
  /-- `ticks` has been advanced, its sleepers are still asleep. -/
  | wakeup
  /-- The tick is still to be charged. -/
  | account
  /-- The interrupted process may be preempted. -/
  | preempt
  deriving DecidableEq, Repr

/-- A CPU (`struct cpu`): the process on it, what it executes and the timer
    handler that interrupted it, if any. -/
structure Cpu where
  proc : Option Slot := none
  pc : Pc := .loop
  intr : Option Intr := none
  deriving DecidableEq

/-- A machine of `n` CPUs: the kernel, the CPUs and the holder of `ptable.lock`. -/
structure Machine (n : ℕ) extends Kernel where
  cpu : Fin n → Cpu := fun _ => {}
  lock : Option (Fin n) := none

instance neZero_two : NeZero 2 := ⟨by decide⟩

/-- What a CPU does in a step. -/
inductive Act
  | schedule
  | scan
  | resume
  | timer
  | intr
  | wakeup (chan : Chan)
  | yield
  | sleep (chan : Chan)
  | exit
  | wait
  /-- With pointers that are null or not. -/
  | waitx (wtime rtime : Bool)
  | kill (pid : Int32)
  | setpolicy (policy : Int32)
  | settickets (n : Int32)
  /-- `fork`, up to the release of `ptable.lock` in `allocproc`. -/
  | allocproc
  /-- `fork`, with the page `kalloc` gives, if any. -/
  | kalloc (page : Option ℕ)
  /-- `fork`, with the page directory `copyuvm` gives, if any. -/
  | copyuvm (pgdir : Option ℕ)
  /-- `fork`, the child becoming `RUNNABLE`. -/
  | ready
  /-- A trap the process is to be killed for. -/
  | fault
  /-- The calls that only change the memory or the files of the process. -/
  | image (i : Image)
  deriving DecidableEq

/-- The steps of a `fork` call that succeeds. -/
def forkActs : List Act := [.allocproc, .kalloc (some 1), .copyuvm (some 2), .ready]

namespace Machine

variable {n : ℕ}

/-- The kernel is changed to `k`. -/
def setKernel (m : Machine n) (k : Kernel) : Machine n := { m with toKernel := k }

/-- `rand_seed` becomes `seed`. -/
def setSeed (m : Machine n) (seed : UInt32) : Machine n :=
  m.setKernel { m.toKernel with randSeed := seed }

/-- The process of slot `p` is changed by `f`. -/
def onProc (m : Machine n) (p : Slot) (f : Proc → Proc) : Machine n :=
  m.setKernel (m.toKernel.modify p f)

/-- The system call of `p` returns `v`. -/
def ret (m : Machine n) (p : Slot) (v : Int32) : Machine n :=
  m.onProc p fun q => { q with eax := v }

/-- The CPU `c` becomes `x`, and the lock `l`. -/
def setCpu (m : Machine n) (c : Fin n) (x : Cpu) (l : Option (Fin n)) : Machine n :=
  { m with cpu := Function.update m.cpu c x, lock := l }

/-! ## Switching -/

/-- The scheduler on `c` switches to `p`, in the pass `k`. -/
def dispatch (m : Machine n) (c : Fin n) (p : Slot) (k : Pass) : Machine n :=
  (m.onProc p fun q => { q with state := .running }).setCpu c
    { proc := some p, pc := .swtched k } (some c)

/-- The process on `c` switches back to the scheduler, in the pass `k`. -/
def sched (m : Machine n) (c : Fin n) : Pass → Machine n
  | .rr i => m.setCpu c { pc := .scan i } (some c)
  | .fcfs | .lottery => m.setCpu c {} none

/-- The process `p` on `c` goes on outside the lock, in the pass `k`. -/
def release (m : Machine n) (c : Fin n) (p : Slot) (k : Pass) : Machine n :=
  m.setCpu c { proc := some p, pc := .running k } none

/-- The process gives up the CPU for a round. -/
def yield (m : Machine n) (c : Fin n) (p : Slot) (k : Pass) : Machine n :=
  (m.onProc p fun q => { q with state := .runnable, context := .yield }).sched c k

/-- Sleep on `chan`, to continue at `ctx`. -/
def sleep (m : Machine n) (c : Fin n) (p : Slot) (k : Pass) (chan : Chan) (ctx : Context) :
    Machine n :=
  (m.onProc p fun q =>
    { q with chan := some chan, state := .sleeping, context := ctx }).sched c k

/-- A round of the loop of `wait` and `waitx` (to which it continues at `ctx`,
    `store` being what it stores in its caller when it reaps): reap a zombie
    child, fail, or sleep. -/
def waitLoop (m : Machine n) (c : Fin n) (p : Slot) (k : Pass) (ctx : Context)
    (store : Proc → Proc → Proc) : Machine n :=
  match zombieChild m.ptable p with
  | some q =>
    let child := m.ptable q
    ((((m.onProc q Proc.reap).onProc p (store child)).ret p child.pid).release c p k)
  | none =>
    if haveKids m.ptable p = false ∨ (m.ptable p).killed then (m.ret p (-1)).release c p k
    else m.sleep c p k (.proc p) ctx

/-- A round of `wait`. -/
def wait (m : Machine n) (c : Fin n) (p : Slot) (k : Pass) : Machine n :=
  m.waitLoop c p k .wait waitStore

/-- A round of `waitx`. -/
def waitx (m : Machine n) (c : Fin n) (p : Slot) (k : Pass) : Machine n :=
  m.waitLoop c p k .waitx waitxStore

/-! ## The scheduler -/

/-- `scheduler` on `c` acquires the lock and enters the branch of the policy. -/
def schedule (m : Machine n) (c : Fin n) : Machine n :=
  if m.schedulingPolicy = 1 then
    match fcfs m.ptable with
    | some p => m.dispatch c p .fcfs
    | none => m
  else if m.schedulingPolicy = 2 then
    if totaltix m.ptable > 0 then
      match lottery m.ptable (krand m.randSeed) with
      | some p => (m.setSeed (krand m.randSeed)).dispatch c p .lottery
      | none => m.setSeed (krand m.randSeed)
    else m
  else m.setCpu c { pc := .scan 0 } (some c)

/-- `scheduler` on `c` goes on with the round-robin scan at the slot `i`. -/
def scan (m : Machine n) (c : Fin n) (i : ℕ) : Machine n :=
  match rrNext m.ptable i with
  | some p => m.dispatch c p (.rr (p.val + 1))
  | none => m.setCpu c {} none

/-- The process `p`, just switched to on `c`, continues where it was. -/
def resume (m : Machine n) (c : Fin n) (p : Slot) (k : Pass) : Machine n :=
  let m' := m.onProc p fun q => { q with chan := none }
  match (m.ptable p).context with
  | .forkret | .yield => m.release c p k
  | .sleep => m'.release c p k
  | .wait => m'.wait c p k
  | .waitx => m'.waitx c p k

/-! ## The timer -/

/-- The timer handler on `c` gets as far as `i`, or returns. -/
def setIntr (m : Machine n) (c : Fin n) (i : Option Intr) : Machine n :=
  { m with cpu := Function.update m.cpu c { m.cpu c with intr := i } }

/-- A timer interrupt enters the CPU `c`. -/
def timer (m : Machine n) (c : Fin n) : Machine n :=
  if c.val = 0 then { m with ticks := m.ticks + 1 }.setIntr c (some .wakeup)
  else m.setIntr c (some .preempt)

/-- The timer handler on `c` ends: the process it interrupted is preempted,
    unless the policy is FCFS. (A killed process exits instead if it was in user
    space, see `exiter`.) -/
def preempt (m : Machine n) (c : Fin n) : Option (Machine n) :=
  match m.cpu c with
  | { proc := some p, pc := .running k, .. } =>
    if (m.ptable p).state = .running ∧ m.schedulingPolicy ≠ 1 then
      if m.lock = none then some (m.yield c p k) else none
    else some (m.setIntr c none)
  | _ => some (m.setIntr c none)

/-- The timer handler on `c` goes on. -/
def intr (m : Machine n) (c : Fin n) : Intr → Option (Machine n)
  | .wakeup =>
    if m.lock = none then
      some ({ m with ptable := wakeup1 m.ptable (some .ticks) }.setIntr c (some .account))
    else none
  | .account =>
    if m.lock = none then
      some ((m.setKernel (account m.toKernel)).setIntr c (some .preempt))
    else none
  | .preempt => m.preempt c

/-! ## Fork -/

/-- The progress of the `fork` call of `p` becomes `f`. -/
def setForking (m : Machine n) (p : Slot) (f : Option Forking) : Machine n :=
  m.onProc p fun q => { q with forking := f }

/-- `fork`, up to the release of the lock in `allocproc`. -/
def allocproc (m : Machine n) (p : Slot) : Machine n :=
  match Xv6.allocproc m.toKernel with
  | none => m.ret p (-1)
  | some (np, k) => (m.setKernel k).setForking p (some (.embryo np))

/-- `fork` with the kernel stack of the child, or without one. -/
def kalloc (m : Machine n) (p np : Slot) : Option ℕ → Machine n
  | none => ((m.setKernel (allocprocFail m.toKernel np)).setForking p none).ret p (-1)
  | some page =>
    (m.setKernel (allocprocInit m.toKernel np page)).setForking p (some (.alloced np))

/-- `fork` with the copy of the memory, or without one. -/
def copyuvm (m : Machine n) (p np : Slot) : Option ℕ → Machine n
  | none => ((m.setKernel (forkFail m.toKernel np)).setForking p none).ret p (-1)
  | some pgdir =>
    (m.setKernel (forkCopy m.toKernel p np pgdir)).setForking p (some (.copied np))

/-- `fork` returns the pid of the child. -/
def ready (m : Machine n) (p np : Slot) : Machine n :=
  ((m.setKernel (forkReady m.toKernel np)).setForking p none).ret p (m.ptable np).pid

/-! ## Steps -/

/-- The process running on `c` outside the lock and not interrupted, and the
    pass that switched to it. -/
def current (m : Machine n) (c : Fin n) : Option (Slot × Pass) :=
  match m.cpu c with
  | { proc := some p, pc := .running k, intr := none } => some (p, k)
  | _ => none

/-- The process running on `c`, when it is not in a `fork` call. -/
def caller (m : Machine n) (c : Fin n) : Option (Slot × Pass) :=
  (m.current c).filter fun x => (m.ptable x.1).forking = none

/-- The process running on `c`, when it may be in `exit`: by a call of its own or, if it has been
    killed, at the end of a timer handler that interrupted it in user space. -/
def exiter (m : Machine n) (c : Fin n) : Option (Slot × Pass) :=
  match m.cpu c with
  | { proc := some p, pc := .running k, intr := some .preempt } =>
    if (m.ptable p).killed ∧ (m.ptable p).forking = none then some (p, k) else none
  | _ => m.caller c

/-- The process running on `c`, when it is in a `fork` call. -/
def forker (m : Machine n) (c : Fin n) : Option (Slot × Forking) :=
  (m.current c).bind fun x => (m.ptable x.1).forking.map fun f => (x.1, f)

/-- Interrupts are enabled on the CPU `c`. -/
def interruptible (m : Machine n) (c : Fin n) : Bool :=
  match m.cpu c with
  | { pc := .loop, intr := none, .. } | { pc := .running _, intr := none, .. } => true
  | _ => false

/-- The step of an action of the CPU `c`, if it is possible. -/
def step (m : Machine n) : Fin n × Act → Option (Machine n)
  | (c, .schedule) => if m.cpu c = {} ∧ m.lock = none then some (m.schedule c) else none
  | (c, .scan) => match m.cpu c with
    | { pc := .scan i, .. } => some (m.scan c i)
    | _ => none
  | (c, .resume) => match m.cpu c with
    | { proc := some p, pc := .swtched k, .. } => some (m.resume c p k)
    | _ => none
  | (c, .timer) => if m.interruptible c then some (m.timer c) else none
  | (c, .intr) => (m.cpu c).intr.bind (m.intr c)
  | (c, .wakeup chan) =>
    if m.interruptible c ∧ m.lock = none ∧ chan.isProc = false then
      some { m with ptable := wakeup1 m.ptable (some chan) }
    else none
  | (c, .yield) =>
    if m.lock = none then (m.caller c).map fun (p, k) => m.yield c p k else none
  | (c, .sleep chan) =>
    if m.lock = none ∧ chan.isProc = false then
      (m.caller c).map fun (p, k) => m.sleep c p k chan .sleep
    else none
  | (c, .exit) =>
    if m.lock = none then
      (m.exiter c).bind fun (p, k) =>
        if p = m.initproc then none
        else some ((m.setKernel (Xv6.exit m.toKernel p)).sched c k)
    else none
  | (c, .wait) => if m.lock = none then (m.caller c).map fun (p, k) => m.wait c p k else none
  | (c, .waitx w r) => (m.caller c).bind fun (p, k) =>
    if w = false ∨ r = false then some (m.ret p (-1))
    else if m.lock = none then some (m.waitx c p k) else none
  | (c, .kill pid) =>
    if m.lock = none then
      (m.caller c).map fun (p, _) =>
        (m.setKernel (Xv6.kill m.toKernel pid).1).ret p (Xv6.kill m.toKernel pid).2
    else none
  | (c, .setpolicy policy) => (m.caller c).map fun (p, _) =>
      (m.setKernel (Xv6.setpolicy m.toKernel policy).1).ret p (Xv6.setpolicy m.toKernel policy).2
  | (c, .settickets t) =>
    if m.lock = none then
      (m.caller c).map fun (p, _) =>
        (m.setKernel (Xv6.settickets m.toKernel p t).1).ret p (Xv6.settickets m.toKernel p t).2
    else none
  | (c, .allocproc) => if m.lock = none then (m.caller c).map fun (p, _) => m.allocproc p else none
  | (c, .kalloc page) => (m.forker c).bind fun
    | (p, .embryo np) => some (m.kalloc p np page)
    | _ => none
  | (c, .copyuvm pgdir) => (m.forker c).bind fun
    | (p, .alloced np) => some (m.copyuvm p np pgdir)
    | _ => none
  | (c, .ready) => if m.lock = none then (m.forker c).bind fun
      | (p, .copied np) => some (m.ready p np)
      | _ => none
    else none
  | (c, .fault) => (m.caller c).map fun (p, _) => m.onProc p fun q => { q with killed := true }
  | (c, .image i) => (m.caller c).map fun (p, _) => m.onProc p fun q => { q with image := i }

/-- The machine after `main`: one process, and every CPU in `scheduler`. -/
def boot (n : ℕ) (kstack pgdir root : ℕ) : Machine n :=
  { toKernel := userinit kstack pgdir root }

end Machine

/-- The runs of the kernel on `n` CPUs. -/
def machine (n : ℕ) : TransitionSystem (Machine n) (Fin n × Act) where
  init m := ∃ kstack pgdir root, m = .boot n kstack pgdir root
  step := Machine.step

end Xv6
