import Xv6.Proc.Life

/-!
# The family of processes

The abstract view of the process table that `fork`, `exit`, `wait` and `kill`
share: who is whose child, who waits for whom, and what a slot keeps when it is
freed. `Family.Step` says what can happen to it, event by event; times, tickets
and the CPUs play no role in it. That every step of the machine is such an event
is proved in `Xv6.Proc.Kinship`.
-/

namespace Xv6

/-- What the family sees of a slot. -/
structure Entry where
  state : Procstate := .unused
  pid : Int32 := 0
  parent : Option Slot := none
  /-- What the process sleeps on, if it does. -/
  chan : Option Chan := none
  killed : Bool := false
  kstack : Option ℕ := none
  cwd : Option ℕ := none
  ofile : Fin NOFILE → Option ℕ := fun _ => none
  forking : Option Forking := none

/-- The entry of a process. The `chan` it slept on last is left out. -/
def Proc.entry (q : Proc) : Entry where
  state := q.state
  pid := q.pid
  parent := q.parent
  chan := if q.state = .sleeping then q.chan else none
  killed := q.killed
  kstack := q.kstack
  cwd := q.image.cwd
  ofile := q.image.ofile
  forking := q.forking

@[simp] theorem Proc.entry_state (q : Proc) : q.entry.state = q.state := rfl
@[simp] theorem Proc.entry_parent (q : Proc) : q.entry.parent = q.parent := rfl

/-- The entries of all slots, the next pid and the first process. -/
structure Family where
  entry : Slot → Entry
  nextpid : Int32
  initproc : Slot

/-- The family of the processes of a kernel. -/
def Kernel.family (k : Kernel) : Family where
  entry q := (k.ptable q).entry
  nextpid := k.nextpid
  initproc := k.initproc

namespace Entry

/-- What `wait` and `waitx` leave of a zombie. -/
def reap (x : Entry) : Entry :=
  { x with state := .unused, pid := 0, parent := none, killed := false, kstack := none }

/-- The process is marked killed, and woken up. -/
def kill (x : Entry) : Entry :=
  { x with
    killed := true
    state := if x.state = .sleeping then .runnable else x.state
    chan := none }

/-- The files of the process are closed. -/
def close (x : Entry) : Entry := { x with cwd := none, ofile := fun _ => none }

/-- The process is woken up if it sleeps on `chan`. -/
def wakeup (x : Entry) (chan : Option Chan) : Entry :=
  if x.state = .sleeping ∧ x.chan = chan then { x with state := .runnable, chan := none } else x

end Entry

namespace Family

variable {F F' : Family} {p np q : Slot}

/-- The entry of `p` is changed by `f`. -/
def set (F : Family) (p : Slot) (f : Entry → Entry) : Family :=
  { F with entry := fun q => if q = p then f (F.entry q) else F.entry q }

@[simp] theorem set_self (F : Family) (p : Slot) (f : Entry → Entry) :
    (F.set p f).entry p = f (F.entry p) := if_pos rfl

theorem set_of_ne (F : Family) {p q : Slot} (f : Entry → Entry) (h : q ≠ p) :
    (F.set p f).entry q = F.entry q := if_neg h

@[simp] theorem set_nextpid (F : Family) (p : Slot) (f : Entry → Entry) :
    (F.set p f).nextpid = F.nextpid := rfl

@[simp] theorem set_initproc (F : Family) (p : Slot) (f : Entry → Entry) :
    (F.set p f).initproc = F.initproc := rfl

/-- A field of the entries that `f` keeps. -/
theorem apply_set {β : Type} (π : Entry → β) {f : Entry → Entry} (hf : ∀ x, π (f x) = π x)
    (F : Family) (p q : Slot) : π ((F.set p f).entry q) = π (F.entry q) := by
  by_cases hq : q = p
  · subst hq
    rw [set_self, hf]
  · rw [set_of_ne _ _ hq]

/-- The next pid is taken. -/
def bump (F : Family) : Family := { F with nextpid := F.nextpid + 1 }

@[simp] theorem bump_entry (F : Family) : F.bump.entry = F.entry := rfl

/-- All sleepers on `chan` are woken up. -/
def wakeup (F : Family) (chan : Option Chan) : Family :=
  { F with entry := fun q => (F.entry q).wakeup chan }

/-- The children of `p` are passed to init. -/
def reparent (F : Family) (p : Slot) : Family :=
  { F with entry := fun q =>
      if (F.entry q).parent = some p then { F.entry q with parent := some F.initproc }
      else F.entry q }

/-- Init is woken up if the children of `p` passed to it include a zombie. -/
def abandon (F : Family) (p : Slot) : Family :=
  if ∃ q, (F.entry q).parent = some p ∧ (F.entry q).state = .zombie then
    (F.reparent p).wakeup (some (.proc F.initproc))
  else F.reparent p

/-- `exit` of the process `p`. -/
def exit (F : Family) (p : Slot) : Family :=
  (((F.set p Entry.close).wakeup ((F.entry p).parent.map .proc)).abandon p).set p fun x =>
    { x with state := .zombie, chan := none }

/-- The events of a family. -/
inductive Event
  /-- Nothing happens. -/
  | keep
  /-- The process `p` is dispatched, preempted or woken up. -/
  | move (p : Slot)
  /-- The process `p` falls asleep, but not in `wait`. -/
  | sleep (p : Slot)
  /-- The process `p` falls asleep in `wait` or `waitx`. -/
  | wait (p : Slot)
  | wakeup (chan : Chan)
  /-- `fork` by `p` takes the slot `np`. -/
  | alloc (p np : Slot)
  /-- `fork` by `p` has a kernel stack for `np`. -/
  | init (p np : Slot)
  /-- `fork` by `p` fails, and gives the slot `np` up. -/
  | drop (p np : Slot)
  /-- `fork` copies `p` to `np`. -/
  | copy (p np : Slot)
  /-- `fork` makes `np` `RUNNABLE`. -/
  | start (p np : Slot)
  | exit (p : Slot)
  /-- `wait` or `waitx` by `p` frees the slot `q`. -/
  | reap (p q : Slot)
  | kill (q : Slot)
  /-- The process `p` is to be killed for a trap. -/
  | fault (p : Slot)
  /-- The process `p` opens, closes or changes directory. -/
  | files (p : Slot)
  deriving DecidableEq

/-- An event that neither creates, frees nor kills a process. -/
def Event.plain : Event → Bool
  | .alloc _ _ | .drop _ _ | .kill _ | .reap _ _ => false
  | _ => true

/-- The child of a `fork` call of `p` that has got to `f` is an `EMBRYO` of no other call. -/
structure Forks (F : Family) (p : Slot) (f : Forking) : Prop where
  running : (F.entry p).state = .running
  forking : (F.entry p).forking = some f
  child : (F.entry f.child).state = .embryo
  unique : ∀ q g, (F.entry q).forking = some g → g.child = f.child → q = p

theorem Forks.child_ne {f : Forking} (h : F.Forks p f) : f.child ≠ p := fun e => by
  have := h.child
  rw [e, h.running] at this
  cases this

/-- What happens in an event. -/
inductive Step (F : Family) : Event → Family → Prop
  | keep : Step F .keep F
  | move {p : Slot} {s : Procstate} (hp : (F.entry p).state.live)
      (hs : s = .runnable ∨ s = .running) :
      Step F (.move p) (F.set p fun x => { x with state := s, chan := none })
  | sleep {p : Slot} {chan : Chan} (hp : (F.entry p).state = .running)
      (hf : (F.entry p).forking = none)
      (hchan : chan.isProc = false) :
      Step F (.sleep p) (F.set p fun x => { x with state := .sleeping, chan := some chan })
  | wait {p : Slot} (hp : (F.entry p).state = .running) (hf : (F.entry p).forking = none)
      (hkids : ∃ q, (F.entry q).parent = some p)
      (hz : ∀ q, (F.entry q).parent = some p → (F.entry q).state ≠ .zombie) :
      Step F (.wait p) (F.set p fun x => { x with state := .sleeping, chan := some (.proc p) })
  | wakeup {chan : Chan} (hchan : chan.isProc = false) :
      Step F (.wakeup chan) (F.wakeup (some chan))
  | alloc {p np : Slot} (hp : (F.entry p).state = .running) (hf : (F.entry p).forking = none)
      (hnp : (F.entry np).state = .unused) :
      Step F (.alloc p np) ((F.set np fun x => { x with state := .embryo, pid := F.nextpid }).set p
        fun x => { x with forking := some (.embryo np) }).bump
  | init {p np : Slot} (page : ℕ) (hf : F.Forks p (.embryo np)) :
      Step F (.init p np) ((F.set np fun x => { x with kstack := some page }).set p fun x =>
        { x with forking := some (.alloced np) })
  | drop {p np : Slot} (hf : F.Forks p (.embryo np) ∨ F.Forks p (.alloced np)) :
      Step F (.drop p np) ((F.set np fun x => { x with kstack := none, state := .unused }).set p
        fun x => { x with forking := none })
  | copy {p np : Slot} (hf : F.Forks p (.alloced np)) :
      Step F (.copy p np) ((F.set np fun x =>
        { x with
          parent := some p
          cwd := (F.entry p).cwd
          ofile := fun i =>
            if ((F.entry p).ofile i).isSome then (F.entry p).ofile i else x.ofile i }).set p
        fun x => { x with forking := some (.copied np) })
  | start {p np : Slot} (hf : F.Forks p (.copied np)) :
      Step F (.start p np) ((F.set np fun x => { x with state := .runnable }).set p fun x =>
        { x with forking := none })
  | exit {p : Slot} (hp : (F.entry p).state = .running) (hf : (F.entry p).forking = none)
      (hi : p ≠ F.initproc) : Step F (.exit p) (F.exit p)
  | reap {p q : Slot} (hp : (F.entry p).state = .running) (hf : (F.entry p).forking = none)
      (hq : (F.entry q).parent = some p) (hz : (F.entry q).state = .zombie) :
      Step F (.reap p q) (F.set q Entry.reap)
  | kill (q : Slot) : Step F (.kill q) (F.set q Entry.kill)
  | fault {p : Slot} (hp : (F.entry p).state = .running) :
      Step F (.fault p) (F.set p fun x => { x with killed := true })
  | files {p : Slot} (cwd : Option ℕ) (ofile : Fin NOFILE → Option ℕ)
      (hp : (F.entry p).state = .running) :
      Step F (.files p) (F.set p fun x => { x with cwd := cwd, ofile := ofile })

theorem Step.of_eq {e : Event} {G : Family} (h : Step F e G) (he : F' = G) : Step F e F' :=
  he ▸ h

end Family

end Xv6
