import Mathlib.Algebra.GroupWithZero.Nat
import Mathlib.Data.Fin.Basic
import Mathlib.Data.Fintype.Pi
import Mathlib.Data.List.FinRange
import Xv6.Param

/-!
# Processes

The process table of `proc.c` and the operations on it that run inside one
critical section of `ptable.lock` (or, where the source does not take the lock,
between two of them). The machine that interleaves them is in
`Xv6.Proc.Machine`.

Pointers into the table are slots, with `none` for the null pointer. The saved
`context` of a process that is switched out is the place in the kernel where it
called `sched` (or `forkret`, for a process that never ran). The progress of a
`fork` call is kept in `forking`, as it lives on the kernel stack of the caller,
which may be preempted in the middle of it.
-/

namespace Xv6

instance : NeZero NPROC := ⟨by decide⟩

/-- A slot of the process table. -/
abbrev Slot := Fin NPROC

/-- The slots, in the order of the loops over the table. -/
abbrev slots : List Slot := List.finRange NPROC

/-- The state of a process. -/
inductive Procstate
  | unused
  | embryo
  | sleeping
  | runnable
  | running
  | zombie
  deriving DecidableEq, Repr

/-- What a process sleeps on: a process (in `wait`), the tick counter, or
    another kernel object. -/
inductive Chan
  | proc (p : Slot)
  | ticks
  | other (n : ℕ)
  deriving DecidableEq, Repr

/-- A process sleeps on a process only in `wait` and `waitx`. -/
def Chan.isProc : Chan → Bool
  | .proc _ => true
  | .ticks | .other _ => false

/-- Where a process that is switched out will continue. -/
inductive Context
  | forkret
  | yield
  | sleep
  | wait
  | waitx
  deriving DecidableEq, Repr

/-- The progress of a `fork` call, with the slot of the child. -/
inductive Forking
  /-- `allocproc` has released `ptable.lock`. -/
  | embryo (np : Slot)
  /-- `allocproc` has returned. -/
  | alloced (np : Slot)
  /-- The child is a copy of its parent, and not yet `RUNNABLE`. -/
  | copied (np : Slot)
  deriving DecidableEq, Repr

/-- The child of a `fork` call. -/
def Forking.child : Forking → Slot
  | .embryo np | .alloced np | .copied np => np

/-- The memory, the files and the name of a process. -/
structure Image where
  sz : UInt32 := 0
  pgdir : Option ℕ := none
  ofile : Fin NOFILE → Option ℕ := fun _ => none
  cwd : Option ℕ := none
  name : String := ""
  deriving DecidableEq

/-- A process (`struct proc`). -/
structure Proc where
  image : Image := {}
  kstack : Option ℕ := none
  state : Procstate := .unused
  pid : Int32 := 0
  parent : Option Slot := none
  context : Context := .forkret
  chan : Option Chan := none
  killed : Bool := false
  /-- Creation time (ticks). -/
  ctime : UInt32 := 0
  /-- Exit time. -/
  etime : UInt32 := 0
  /-- Total running time. -/
  rtime : UInt32 := 0
  /-- Total sleeping time. -/
  stime : UInt32 := 0
  /-- Total ready time. -/
  retime : UInt32 := 0
  tickets : Int32 := 0
  originalTickets : Int32 := 0
  /-- `tf->eax`, the result of its last system call. -/
  eax : Int32 := 0
  /-- What the two pointers it passed to `waitx` point to. -/
  wtimeOut : Int32 := 0
  rtimeOut : Int32 := 0
  forking : Option Forking := none

/-- The table, `ptable.proc`. -/
abbrev Ptable := Slot → Proc

/-- The table `t` with the record of `p` changed by `f`. -/
def modify (t : Ptable) (p : Slot) (f : Proc → Proc) : Ptable :=
  fun q => if q = p then f (t q) else t q

@[simp] theorem modify_self (t : Ptable) (p : Slot) (f : Proc → Proc) :
    modify t p f p = f (t p) := if_pos rfl

theorem modify_of_ne (t : Ptable) {p q : Slot} (f : Proc → Proc) (h : q ≠ p) :
    modify t p f q = t q := if_neg h

theorem modify_apply (t : Ptable) (p q : Slot) (f : Proc → Proc) :
    modify t p f q = if q = p then f (t q) else t q := rfl

/-- A field of a process that `f` keeps. -/
theorem apply_modify {β : Type} (π : Proc → β) {f : Proc → Proc} (hf : ∀ r, π (f r) = π r)
    (t : Ptable) (p q : Slot) : π (modify t p f q) = π (t q) := by
  rw [modify_apply]
  split_ifs
  · exact hf _
  · rfl

/-! ## Sleeping and waking up -/

/-- Wake up all processes sleeping on `chan`. -/
def wakeup1 (t : Ptable) (chan : Option Chan) : Ptable := fun q =>
  if (t q).state = .sleeping ∧ (t q).chan = chan then { t q with state := .runnable } else t q

/-! ## The kernel -/

/-- The global variables of `proc.c` and `trap.c`. -/
structure Kernel where
  ptable : Ptable := fun _ => {}
  nextpid : Int32 := 1
  initproc : Slot := 0
  ticks : UInt32 := 0
  schedulingPolicy : Int32 := 0
  randSeed : UInt32 := 1

/-- The process of slot `p` is changed by `f`. -/
def Kernel.modify (k : Kernel) (p : Slot) (f : Proc → Proc) : Kernel :=
  { k with ptable := Xv6.modify k.ptable p f }

/-! ## Creating processes -/

/-- The first `UNUSED` slot. -/
def findUnused (t : Ptable) : Option Slot :=
  slots.find? fun p => (t p).state = .unused

/-- `allocproc`, under `ptable.lock`: take an `UNUSED` slot and give it a pid. -/
def allocproc (k : Kernel) : Option (Slot × Kernel) :=
  (findUnused k.ptable).map fun p =>
    (p, { k.modify p fun q => { q with state := .embryo, pid := k.nextpid } with
      nextpid := k.nextpid + 1 })

/-- `allocproc`, after `ptable.lock` is released and `kalloc` gave the page
    `page`: set up the kernel stack and the accounting fields. -/
def allocprocInit (k : Kernel) (np : Slot) (page : ℕ) : Kernel :=
  k.modify np fun q => { q with
    kstack := some page
    context := .forkret
    ctime := k.ticks
    etime := 0
    rtime := 0
    retime := 0
    stime := 0
    tickets := 10
    originalTickets := 10 }

/-- `allocproc`, when `kalloc` fails. -/
def allocprocFail (k : Kernel) (np : Slot) : Kernel :=
  k.modify np fun q => { q with kstack := none, state := .unused }

/-- `fork`, when `copyuvm` gave the page directory `pgdir`: copy the process
    `p` to `np`, which inherits its tickets. -/
def forkCopy (k : Kernel) (p np : Slot) (pgdir : ℕ) : Kernel :=
  let cur := k.ptable p
  let tickets := if cur.tickets > 0 then cur.tickets else 1
  k.modify np fun q => { q with
    image :=
      { pgdir := some pgdir
        sz := cur.image.sz
        ofile := fun i => if (cur.image.ofile i).isSome then cur.image.ofile i else q.image.ofile i
        cwd := cur.image.cwd
        name := cur.image.name }
    parent := some p
    eax := 0
    tickets := tickets
    originalTickets := tickets }

/-- `fork`, when `copyuvm` fails. -/
def forkFail (k : Kernel) (np : Slot) : Kernel :=
  k.modify np fun q => { q with
    image := { q.image with pgdir := none }, kstack := none, state := .unused }

/-- `fork`, under `ptable.lock`: the child becomes `RUNNABLE`. -/
def forkReady (k : Kernel) (np : Slot) : Kernel :=
  k.modify np fun q => { q with state := .runnable }

/-- Set up the first user process, with the kernel stack `kstack`, the page
    directory `pgdir` and the root directory `root`. -/
def userinit (kstack pgdir root : ℕ) : Kernel :=
  match allocproc {} with
  | none => {}
  | some (p, k) =>
    { (allocprocInit k p kstack).modify p fun q => { q with
        image := { sz := PGSIZE, pgdir := some pgdir, name := "initcode", cwd := some root }
        state := .runnable } with
      initproc := p }

/-! ## Exiting and reaping -/

/-- The loop of `exit` that passes the abandoned children of `p` to init: they
    get a new parent, which is woken up if one of them is a zombie (it does not
    matter how often). -/
def abandon (k : Kernel) (p : Slot) : Kernel :=
  let t : Ptable := fun q =>
    if (k.ptable q).parent = some p then { k.ptable q with parent := some k.initproc }
    else k.ptable q
  if slots.any fun q => (k.ptable q).parent = some p ∧ (k.ptable q).state = .zombie then
    { k with ptable := wakeup1 t (some (.proc k.initproc)) }
  else { k with ptable := t }

/-- `exit` of the process `p`: close its files, wake up its parent, pass its
    children to init and go zombie. -/
def exit (k : Kernel) (p : Slot) : Kernel :=
  let k := k.modify p fun q => { q with
    image := { q.image with ofile := fun _ => none, cwd := none } }
  let k := { k with ptable := wakeup1 k.ptable ((k.ptable p).parent.map .proc) }
  (abandon k p).modify p fun q => { q with etime := k.ticks, state := .zombie }

/-- The first zombie child of `p`. -/
def zombieChild (t : Ptable) (p : Slot) : Option Slot :=
  slots.find? fun q => (t q).parent = some p ∧ (t q).state = .zombie

/-- `p` has children. -/
def haveKids (t : Ptable) (p : Slot) : Bool :=
  slots.any fun q => (t q).parent = some p

/-- What `wait` and `waitx` leave of a zombie. -/
def Proc.reap (q : Proc) : Proc :=
  { q with
    kstack := none
    pid := 0
    parent := none
    image := { q.image with name := "" }
    killed := false
    state := .unused }

/-- The times `waitx` reports of a zombie: `wtime` and `rtime`. -/
def Proc.waitxTimes (q : Proc) : Int32 × Int32 :=
  let rt := q.rtime.toInt32
  let wt := q.etime.toInt32 - q.ctime.toInt32 - rt
  (if wt < 0 then 0 else wt, rt)

/-- What `wait` stores in its caller when it reaps `q`: nothing. -/
def waitStore (_ : Proc) (r : Proc) : Proc := r

/-- What `waitx` stores in its caller when it reaps `q`. -/
def waitxStore (q : Proc) (r : Proc) : Proc :=
  { r with wtimeOut := q.waitxTimes.1, rtimeOut := q.waitxTimes.2 }

/-! ## System calls -/

/-- Kill the process with the given pid. -/
def kill (k : Kernel) (pid : Int32) : Kernel × Int32 :=
  match slots.find? fun p => (k.ptable p).pid = pid with
  | none => (k, -1)
  | some p =>
    (k.modify p fun q => { q with
      killed := true, state := if q.state = .sleeping then .runnable else q.state }, 0)

/-- The policy is changed, if there is such a one. -/
def setpolicy (k : Kernel) (policy : Int32) : Kernel × Int32 :=
  if policy < 0 ∨ policy > 2 then (k, -1) else ({ k with schedulingPolicy := policy }, 0)

/-- `settickets` of the process `p`. -/
def settickets (k : Kernel) (p : Slot) (n : Int32) : Kernel × Int32 :=
  if n < 1 then (k, -1) else (k.modify p fun q => { q with tickets := n }, 0)

/-! ## The clock -/

/-- What the timer charges a process for a tick. -/
def Proc.charge (q : Proc) : Proc :=
  match q.state with
  | .running => { q with rtime := q.rtime + 1 }
  | .runnable => { q with retime := q.retime + 1 }
  | .sleeping => { q with stime := q.stime + 1 }
  | _ => q

/-- The accounting loop of the timer. -/
def account (k : Kernel) : Kernel := { k with ptable := fun q => (k.ptable q).charge }

end Xv6
