import Xv6.Lib.Monitor
import Xv6.Lib.Ring

/-!
# Pipes

A pipe and the processes that call `pipewrite`, `piperead` and `pipeclose` on it, any number of
them at any time, as a monitor: its data is the pipe behind `p->lock`, and the gate is
`ptable.lock`. A process takes a step between two points at which another one may get in: it takes
or releases a lock, tests, or moves one byte.

What the processes have put in and got out is recorded in `accepted` and `consumed`, by the number
of the call. The page of the pipe is not freed here.
-/

namespace Xv6.Pipes

open Monitor Function

abbrev PIPESIZE : ℕ := 512

/-- A process. -/
abbrev Pid := ℕ

/-- The channels to sleep on: `&p->nread` and `&p->nwrite`. -/
inductive Chan
  | nread
  | nwrite
  deriving DecidableEq, Repr

/-- The pipe (`struct pipe`), without its lock. -/
structure Pipe extends Ring UInt8 PIPESIZE where
  /-- The read fd is still open. -/
  readopen : Bool := true
  /-- The write fd is still open. -/
  writeopen : Bool := true

/-- The pipe, and what has gone through it. -/
structure Data where
  pipe : Pipe
  /-- The number of the next call. -/
  calls : ℕ := 1
  /-- The bytes stored into the pipe, with the call they are from. -/
  accepted : List (ℕ × UInt8)
  /-- The bytes stored into the buffers of readers, with the call. -/
  consumed : List (ℕ × UInt8) := []
  /-- The calls of `pipewrite` that have stored all their bytes, which are to return `n`. -/
  wrote : List (ℕ × List UInt8) := []

/-- A call, with its arguments. -/
inductive Call
  | write (addr : List UInt8)
  | read (n : ℕ)
  | close (writable : Bool)
  deriving DecidableEq, Repr

/-- A call in progress. -/
inductive Task
  /-- `pipewrite`, with the bytes left to store; `stored` if it has stored one since it last took
      `p->lock`. -/
  | write (id : ℕ) (addr todo : List UInt8) (stored : Bool)
  /-- `piperead`, with the bytes stored into its buffer. -/
  | read (id n : ℕ) (got : List UInt8)
  | close (writable : Bool)
  deriving DecidableEq, Repr

/-- What the call sleeps on. -/
def Task.sleepsOn : Task → Chan
  | .write .. => .nwrite
  | _ => .nread

/-- What the call wakes up at its end. -/
def Task.wakes : Task → Chan
  | .write .. => .nread
  | .read .. => .nwrite
  | .close writable => if writable then .nread else .nwrite

/-- The result of the call, if it gets to its end. -/
def Task.result : Task → ℤ
  | .write _ addr _ _ => addr.length
  | .read _ _ got => got.length
  | .close _ => 0

/-- The call when it has just taken the lock: no byte is stored yet. -/
def Task.acquired : Task → Task
  | .write id addr todo _ => .write id addr todo false
  | k => k

/-- A process in its critical section of `p->lock`. -/
inductive Local
  /-- At the head of the loop; for `pipeclose`, in its first branches. -/
  | loop (k : Task)
  /-- In the loop of `pipewrite` on a full pipe, or that of `piperead` on an empty one. -/
  | wait (k : Task)
  /-- `wakeup(&p->nread)` before `pipewrite` sleeps. -/
  | wakeReaders (k : Task)
  /-- At `sleep`. -/
  | sleep (k : Task)
  /-- The second loop of `piperead`. -/
  | copy (k : Task)
  /-- The `wakeup` at the end of the call. -/
  | wakeup (k : Task)
  /-- At `release(&p->lock)`, about to return `r`. -/
  | release (k : Task) (r : ℤ)
  deriving DecidableEq, Repr

/-- A process makes a call. -/
def call (d : Data) : Call → Data × Local
  | .write addr => ({ d with calls := d.calls + 1 }, .loop (.write d.calls addr addr false))
  | .read n => ({ d with calls := d.calls + 1 }, .loop (.read d.calls n []))
  | .close writable => (d, .loop (.close writable))

/-- The head of the loop. -/
def loop (d : Data) : Task → Data × Local
  | .write id addr [] stored =>
    ({ d with wrote := d.wrote ++ [(id, addr)] }, .wakeup (.write id addr [] stored))
  | .write id addr (b :: todo) stored =>
    if d.pipe.nwrite = d.pipe.nread + UInt32.ofNat PIPESIZE then
      (d, .wait (.write id addr (b :: todo) stored))
    else
      ({ d with
          pipe := { d.pipe with toRing := d.pipe.push b }
          accepted := d.accepted ++ [(id, b)] }, .loop (.write id addr todo true))
  | .read id n got =>
    if d.pipe.nread = d.pipe.nwrite ∧ d.pipe.writeopen then (d, .wait (.read id n got))
    else (d, .copy (.read id n got))
  | .close writable =>
    ({ d with
        pipe := if writable then { d.pipe with writeopen := false }
          else { d.pipe with readopen := false } }, .wakeup (.close writable))

/-- The body of the inner loop, up to `wakeup` or `sleep`. -/
def wait (d : Data) (killed : Bool) : Task → Option Local
  | .write id addr todo stored =>
    if d.pipe.readopen = false ∨ killed then some (.release (.write id addr todo stored) (-1))
    else some (.wakeReaders (.write id addr todo stored))
  | .read id n got =>
    if killed then some (.release (.read id n got) (-1)) else some (.sleep (.read id n got))
  | .close _ => none

/-- The second loop of `piperead`. -/
def copy (d : Data) : Task → Option (Data × Local)
  | .read id n got =>
    if n ≤ got.length ∨ d.pipe.nread = d.pipe.nwrite then some (d, .wakeup (.read id n got))
    else
      some ({ d with
          pipe := { d.pipe with toRing := d.pipe.pop.2 }
          consumed := d.consumed ++ [(id, d.pipe.pop.1)] },
        .copy (.read id n (got ++ [d.pipe.pop.1])))
  | _ => none

/-- `pipewrite`, `piperead` and `pipeclose`, at one point after the other. -/
def body (d : Data) (killed : Bool) : Local → Op Data Chan Local Unit
  | .loop k => .next (loop d k).1 (loop d k).2
  | .wait k => (wait d killed k).elim .halt (.next d)
  | .wakeReaders k => .wakeup .nread (.sleep k)
  | .sleep k => .sleep k.sleepsOn (.loop k.acquired)
  | .copy k => (copy d k).elim .halt fun x => .next x.1 x.2
  | .wakeup k => .wakeup k.wakes (.release k k.result)
  | .release _ _ => .leave ()

/-- The pipe may hold bytes at the start, from a call before, and its counters are anywhere. -/
def monitor : Monitor Pid Data Chan Local Unit Call where
  init d := ∃ p : Pipe, p.length ≤ PIPESIZE ∧
    d = { pipe := p, accepted := p.contents.map fun b => (0, b) }
  start := ()
  call d _ _ c := some ((call d c).1, .inr (call d c).2)
  body d _ := body d

/-- The pipe, and where its processes are. -/
abbrev State := Monitor.State Pid Data Chan Local Unit

/-- What happens in a step. -/
abbrev Act := Monitor.Act Pid Call

/-- The processes on one pipe. -/
def system : TransitionSystem State Act := monitor.system

/-- A pipe that is empty, with its counters at `c`. -/
def empty (c : UInt32) : State where
  data := { pipe := { data := fun _ => 0, nread := c, nwrite := c }, accepted := [] }
  pc := fun _ => .outside ()

theorem init_empty (c : UInt32) : system.init (empty c) := by
  have hlen : (empty c).data.pipe.length = 0 := Ring.length_eq_zero_iff.2 rfl
  refine ⟨⟨_, hlen.le.trans (Nat.zero_le _), ?_⟩, rfl⟩
  have hnil : (empty c).data.pipe.contents = [] := by
    rw [← List.length_eq_zero_iff, Ring.length_contents, hlen]
  rw [hnil]
  rfl

/-! ## Steps -/

variable {d d' : Data} {killed : Bool} {k : Task} {l l' : Local} {c : Chan}

/-- The steps that only test. -/
inductive Jump (d : Data) (killed : Bool) : Local → Local → Prop
  | full (id addr b todo stored)
    (hfull : d.pipe.nwrite = d.pipe.nread + UInt32.ofNat PIPESIZE) :
    Jump d killed (.loop (.write id addr (b :: todo) stored))
      (.wait (.write id addr (b :: todo) stored))
  | empty (id n got) (hempty : d.pipe.nread = d.pipe.nwrite) (hopen : d.pipe.writeopen) :
    Jump d killed (.loop (.read id n got)) (.wait (.read id n got))
  | ready (id n got) (hready : d.pipe.nread = d.pipe.nwrite → d.pipe.writeopen = false) :
    Jump d killed (.loop (.read id n got)) (.copy (.read id n got))
  | broken (id addr todo stored) (hbroken : d.pipe.readopen = false ∨ killed) :
    Jump d killed (.wait (.write id addr todo stored)) (.release (.write id addr todo stored) (-1))
  | retry (id addr todo stored) (hopen : d.pipe.readopen) :
    Jump d killed (.wait (.write id addr todo stored)) (.wakeReaders (.write id addr todo stored))
  | killed (id n got) (hkilled : killed) :
    Jump d killed (.wait (.read id n got)) (.release (.read id n got) (-1))
  | sleep (id n got) : Jump d killed (.wait (.read id n got)) (.sleep (.read id n got))
  | copied (id n got) (hend : n ≤ got.length ∨ d.pipe.nread = d.pipe.nwrite) :
    Jump d killed (.copy (.read id n got)) (.wakeup (.read id n got))

/-- The steps in the critical section. -/
inductive Next (d : Data) (killed : Bool) : Local → Data → Local → Prop
  | jump (l l' : Local) (hj : Jump d killed l l') : Next d killed l d l'
  | written (id addr stored) :
    Next d killed (.loop (.write id addr [] stored))
      { d with wrote := d.wrote ++ [(id, addr)] } (.wakeup (.write id addr [] stored))
  | store (id addr b todo stored)
    (hroom : d.pipe.nwrite ≠ d.pipe.nread + UInt32.ofNat PIPESIZE) :
    Next d killed (.loop (.write id addr (b :: todo) stored))
      { d with
        pipe := { d.pipe with toRing := d.pipe.push b }
        accepted := d.accepted ++ [(id, b)] } (.loop (.write id addr todo true))
  | consume (id n got) (hn : got.length < n) (hne : d.pipe.nread ≠ d.pipe.nwrite) :
    Next d killed (.copy (.read id n got))
      { d with
        pipe := { d.pipe with toRing := d.pipe.pop.2 }
        consumed :=
        d.consumed ++ [(id, d.pipe.pop.1)] } (.copy (.read id n (got ++ [d.pipe.pop.1])))
  | close (writable) :
    Next d killed (.loop (.close writable))
      { d with
        pipe := if writable then { d.pipe with writeopen := false }
          else { d.pipe with readopen := false } } (.wakeup (.close writable))

theorem next_loop (d : Data) (killed : Bool) (k : Task) :
    Next d killed (.loop k) (loop d k).1 (loop d k).2 := by
  cases k with
  | write id addr todo stored =>
    cases todo with
    | nil => exact .written id addr stored
    | cons b todo =>
      rw [loop]
      split_ifs with hfull
      · exact .jump _ _ (.full id addr b todo stored hfull)
      · exact .store id addr b todo stored hfull
  | read id n got =>
    rw [loop]
    split_ifs with hempty
    · exact .jump _ _ (.empty id n got hempty.1 hempty.2)
    · exact .jump _ _ (.ready id n got fun he => by simpa using fun hw => hempty ⟨he, hw⟩)
  | close writable => exact .close writable

theorem jump_wait (h : wait d killed k = some l') : Jump d killed (.wait k) l' := by
  cases k with
  | write id addr todo stored =>
    rw [wait] at h
    split_ifs at h with hb
    all_goals obtain rfl := Option.some.inj h
    · exact .broken id addr todo stored hb
    · exact .retry id addr todo stored (by simpa using fun hr => hb (.inl hr))
  | read id n got =>
    rw [wait] at h
    split_ifs at h with hk
    all_goals obtain rfl := Option.some.inj h
    · exact .killed id n got hk
    · exact .sleep id n got
  | close writable => cases h

theorem next_copy (h : copy d k = some (d', l')) : Next d killed (.copy k) d' l' := by
  cases k with
  | read id n got =>
    rw [copy] at h
    split_ifs at h with hend
    all_goals obtain ⟨rfl, rfl⟩ := Prod.mk.inj (Option.some.inj h)
    · exact .jump _ _ (.copied id n got hend)
    · rw [not_or, not_le] at hend
      exact .consume id n got hend.1 hend.2
  | write | close => cases h

/-- What a process does at `l`. -/
inductive Does (d : Data) (killed : Bool) : Local → Op Data Chan Local Unit → Prop
  | next (l : Local) (d' : Data) (l' : Local) (hn : Next d killed l d' l') :
    Does d killed l (.next d' l')
  | wakeReaders (k : Task) : Does d killed (.wakeReaders k) (.wakeup .nread (.sleep k))
  | sleep (k : Task) : Does d killed (.sleep k) (.sleep k.sleepsOn (.loop k.acquired))
  | wakeup (k : Task) : Does d killed (.wakeup k) (.wakeup k.wakes (.release k k.result))
  | release (k : Task) (r : ℤ) : Does d killed (.release k r) (.leave ())
  | halt (l : Local) : Does d killed l .halt

theorem does_of_body {x : Op Data Chan Local Unit} (hx : body d killed l = x) :
    Does d killed l x := by
  subst hx
  cases l with
  | loop k => exact .next _ _ _ (next_loop d killed k)
  | wait k =>
    change Does d killed _ ((wait d killed k).elim .halt (.next d))
    cases h : wait d killed k with
    | none => exact .halt _
    | some l' => exact .next _ _ _ (.jump _ _ (jump_wait h))
  | wakeReaders k => exact .wakeReaders k
  | sleep k => exact .sleep k
  | copy k =>
    change Does d killed _ ((copy d k).elim .halt fun x => .next x.1 x.2)
    cases h : copy d k with
    | none => exact .halt _
    | some x => exact .next _ _ _ (next_copy h)
  | wakeup k => exact .wakeup k
  | release k r => exact .release k r

/-! ## What the holder of the lock knows -/

/-- The process that sleeps on the channel has something to wait for. -/
def Blocked (p : Pipe) : Chan → Prop
  | .nread => p.nread = p.nwrite ∧ p.writeopen
  | .nwrite => p.nwrite = p.nread + UInt32.ofNat PIPESIZE ∧ p.readopen

/-- What a process has tested or done since it took the lock. -/
def Knows (p : Pipe) (wrote : List (ℕ × List UInt8)) : Local → Prop
  | .loop _ => True
  | .wait (.write ..) => p.nwrite = p.nread + UInt32.ofNat PIPESIZE
  | .wait _ => Blocked p .nread
  | .wakeReaders k | .sleep k => Blocked p k.sleepsOn
  | .copy (.read _ _ got) => got = [] → p.nread = p.nwrite → p.writeopen = false
  | .copy _ => True
  | .wakeup (.write id addr _ _) => (id, addr) ∈ wrote
  | .wakeup (.read _ n got) => got = [] → 0 < n → p.nread = p.nwrite ∧ p.writeopen = false
  | .release (.write id addr _ _) r => r = -1 ∨ r = addr.length ∧ (id, addr) ∈ wrote
  | .release (.read _ n got) r =>
    r = -1 ∨ r = got.length ∧ (got = [] → 0 < n → p.nread = p.nwrite ∧ p.writeopen = false)
  | .wakeup (.close _) | .release (.close _) _ => True

theorem Jump.knows (h : Jump d killed l l') (hl : Knows d.pipe d.wrote l) :
    Knows d.pipe d.wrote l' := by
  cases h with
  | full id addr b todo stored hfull => exact hfull
  | empty id n got hempty hopen => exact ⟨hempty, hopen⟩
  | ready id n got hready => exact fun _ => hready
  | broken | killed => exact .inl rfl
  | retry id addr todo stored hopen => exact ⟨hl, hopen⟩
  | sleep id n got => exact hl
  | copied id n got hend =>
    intro hgot hn
    have hempty : d.pipe.nread = d.pipe.nwrite := hend.resolve_left (by simp [hgot]; omega)
    exact ⟨hempty, hl hgot hempty⟩

theorem Next.knows (h : Next d killed l d' l') (hl : Knows d.pipe d.wrote l) :
    Knows d'.pipe d'.wrote l' := by
  cases h with
  | jump l l' hj => exact hj.knows hl
  | written id addr stored => exact List.mem_append_right _ List.mem_cons_self
  | store | close => trivial
  | consume id n got hn hne => exact fun h => absurd h (by simp)

theorem Knows.wakeup {p : Pipe} {w : List (ℕ × List UInt8)} (h : Knows p w (.wakeup k)) :
    Knows p w (.release k k.result) := by
  cases k with
  | write id addr todo stored => exact .inr ⟨rfl, h⟩
  | read id n got => exact .inr ⟨rfl, h⟩
  | close writable => trivial

end Xv6.Pipes
