import Mathlib.Data.Finset.Card
import Mathlib.Logic.Function.Basic
import Xv6.Lib.TransitionSystem
import Xv6.Param

/-!
# Operations on the log

The in-memory log of `log.c`, and the operations that share it: any number of
threads, each going through `begin_op`, calls of `log_write` and `end_op`. A step
is a critical section of `log.lock`, or what a thread does outside of it:

* `begin_op` sleeps until its test lets the operation in (`Log.beginOp`);
* `log_write` tests the space that is left *before* it takes the lock (`Log.check`,
  `LogAct.check`) and records the block under it (`absorb`, `LogAct.record`), so
  that other threads may record blocks in between;
* the last `end_op` commits: `commit` empties the header (`LogAct.clear`), and
  `end_op` then lets operations in again (`LogAct.finish`).

A panic stops the system.
-/

namespace Xv6

/-- The device number of the file system root disk. -/
abbrev ROOTDEV : UInt32 := 1

/-- A thread. -/
abbrev Tid := ℕ

/-- The panics of `log.c`. -/
inductive LogPanic
  /-- `too big a transaction` -/
  | tooBig
  /-- `log_write outside of trans` -/
  | outsideOfTrans
  /-- `log.committing` -/
  | committing
  deriving DecidableEq, Repr

/-- The log (`struct log`). The header is the list of the recorded block numbers:
    `lh.n` is its length. -/
structure Log where
  start : UInt32
  size : ℕ
  outstanding : ℕ := 0
  committing : Bool := false
  dev : UInt32
  lh : List UInt32 := []
  deriving DecidableEq, Repr

/-- The log after `initlog`, on the layout of `mkfs`: `sb.logstart` is 2 and
    `sb.nlog` is `LOGSIZE`. -/
def initlog : Log where
  start := 2
  size := LOGSIZE
  dev := ROOTDEV

/-- The loop of `log_write` over the header: the block takes the first place that
    already holds it, or a new one at the end. -/
def absorb (b : UInt32) : List UInt32 → List UInt32
  | [] => [b]
  | c :: cs => if c = b then b :: cs else c :: absorb b cs

namespace Log

/-- `begin_op`, or `none` while it sleeps. -/
def beginOp (l : Log) : Option Log :=
  if l.committing then none
  -- this op might exhaust log space
  else if l.lh.length + (l.outstanding + 1) * MAXOPBLOCKS > LOGSIZE then none
  else some { l with outstanding := l.outstanding + 1 }

/-- The tests of `log_write`, with `lh.n >= size - 1` as a comparison of naturals. -/
def check (l : Log) : Except LogPanic Unit :=
  if LOGSIZE ≤ l.lh.length ∨ l.size ≤ l.lh.length + 1 then .error .tooBig
  else if l.outstanding < 1 then .error .outsideOfTrans
  else .ok ()

/-- The critical section of `log_write`. -/
def record (l : Log) (b : UInt32) : Log := { l with lh := absorb b l.lh }

/-- The first critical section of `end_op`, which starts a commit if this was the
    last outstanding operation. -/
def endOp (l : Log) : Except LogPanic Log :=
  if l.committing then .error .committing
  else if l.outstanding - 1 = 0 then
    .ok { l with outstanding := l.outstanding - 1, committing := true }
  else .ok { l with outstanding := l.outstanding - 1 }

end Log

/-- The log and the operations on it. -/
structure LogOps where
  log : Log
  /-- The threads between their `begin_op` and their `end_op`. -/
  active : Finset Tid := ∅
  /-- The block a thread is recording, when it has passed the tests of `log_write`
      and has not yet taken the lock. -/
  writing : Tid → Option UInt32 := fun _ => none
  /-- The blocks the current operation of a thread has recorded. -/
  logged : Tid → Finset UInt32 := fun _ => ∅
  /-- The blocks recorded since the last commit. -/
  recorded : Finset UInt32 := ∅
  panicked : Option LogPanic := none

/-- What a thread does in a step. -/
inductive LogAct
  | beginOp (t : Tid)
  /-- `log_write` of a buffer of block `b`, up to `acquire(&log.lock)`. -/
  | check (t : Tid) (b : UInt32)
  /-- The critical section of `log_write`. -/
  | record (t : Tid)
  | endOp (t : Tid)
  /-- `log.lh.n = 0` in `commit`. -/
  | clear
  /-- The last critical section of `end_op`, after `commit`. -/
  | finish
  deriving DecidableEq, Repr

namespace LogOps

/-- A step, if it is possible. -/
def step (s : LogOps) (a : LogAct) : Option LogOps :=
  if s.panicked.isSome then none else
  match a with
  | .beginOp t =>
    if t ∈ s.active then none else
    s.log.beginOp.map fun l =>
      { s with
        log := l
        active := insert t s.active
        logged := Function.update s.logged t ∅ }
  | .check t b =>
    if t ∉ s.active ∨ s.writing t ≠ none then none else
    match s.log.check with
    | .error p => some { s with panicked := some p }
    | .ok () => some { s with writing := Function.update s.writing t (some b) }
  | .record t =>
    (s.writing t).map fun b =>
      { s with
        log := s.log.record b
        writing := Function.update s.writing t none
        logged := Function.update s.logged t (insert b (s.logged t))
        recorded := insert b s.recorded }
  | .endOp t =>
    if t ∉ s.active ∨ s.writing t ≠ none then none else
    match s.log.endOp with
    | .error p => some { s with panicked := some p }
    | .ok l => some { s with log := l, active := s.active.erase t }
  | .clear =>
    if s.log.committing ∧ s.log.lh ≠ [] then
      some { s with log := { s.log with lh := [] }, recorded := ∅ }
    else none
  | .finish =>
    if s.log.committing ∧ s.log.lh = [] then
      some { s with log := { s.log with committing := false } }
    else none

end LogOps

/-- The operations on the log that `initlog` sets up. -/
def logSystem : TransitionSystem LogOps LogAct where
  init s := s = { log := initlog }
  step := LogOps.step

end Xv6
