import Xv6.Lib.Monitor
import Xv6.Lib.Ring

/-!
# The console input

The input buffer of the console, with the interrupt handler `consoleintr` that fills it and the
processes that call `consoleread` (`console.c`), as a monitor: the spin lock is `cons.lock`, the
gate is `ptable.lock`, and the only channel is `&input.r`. An interrupt brings the characters that
`getc` returns one after the other; a character is taken in one step, and so is a byte that is read.

What is echoed is left out, and so is the process listing. The bytes that were committed and those
that were read are recorded in `committed` and `consumed`.
-/

namespace Xv6.Console

open Monitor

/-- The size of the buffer. -/
abbrev INPUT_BUF : ℕ := 128

/-- A process, or the context of an interrupt. -/
abbrev Pid := ℕ

/-- A control character: `C(x)`. -/
def ctrl (x : Char) : UInt8 := x.toUInt8 - '@'.toUInt8

abbrev newline : UInt8 := 10
abbrev carriageReturn : UInt8 := 13
abbrev delete : UInt8 := 0x7f

/-- The input buffer, with its read, write and edit index. -/
structure Input where
  buf : Fin INPUT_BUF → UInt8
  r : UInt32
  w : UInt32
  e : UInt32

namespace Input

/-- `buf[i % INPUT_BUF]`. -/
def get (i : Input) (j : UInt32) : UInt8 := i.buf (Ring.slot INPUT_BUF j)

/-- The loop of `^U`; at most the characters of the line are left. -/
def killLine : ℕ → Input → Input
  | 0, i => i
  | k + 1, i =>
    if i.e ≠ i.w ∧ i.get (i.e - 1) ≠ newline then killLine k { i with e := i.e - 1 } else i

/-- A character of the line is taken back, if there is one. -/
def backspace (i : Input) : Input := if i.e ≠ i.w then { i with e := i.e - 1 } else i

/-- `buf[e++ % INPUT_BUF] = c`. -/
def store (i : Input) (c : UInt8) : Input :=
  { i with buf := Function.update i.buf (Ring.slot INPUT_BUF i.e) c, e := i.e + 1 }

/-- `w = e`. -/
def commit (i : Input) : Input := { i with w := i.e }

/-- A character that goes into the buffer, and whether the line is committed with it. -/
def put (i : Input) (c : UInt8) : Input × Bool :=
  let c := if c = carriageReturn then newline else c
  let i := i.store c
  if c = newline ∨ c = ctrl 'D' ∨ i.e = i.r + UInt32.ofNat INPUT_BUF then (i.commit, true)
  else (i, false)

/-- The body of the loop of `consoleintr`, and whether the readers are to be woken up. -/
def key (i : Input) (c : UInt8) : Input × Bool :=
  if c = ctrl 'P' then (i, false)
  else if c = ctrl 'U' then (i.killLine (i.e - i.w).toNat, false)
  else if c = ctrl 'H' ∨ c = delete then (i.backspace, false)
  else if c ≠ 0 ∧ i.e - i.r < UInt32.ofNat INPUT_BUF then i.put c
  else (i, false)

/-- `r++`. -/
def pop (i : Input) : Input := { i with r := i.r + 1 }

/-- What is in the buffer, from the read index to the edit index. -/
def ring (i : Input) : Ring UInt8 INPUT_BUF := ⟨i.buf, i.r, i.e⟩

/-- The bytes that are committed, from the read index to the write index. -/
def queue (i : Input) : List UInt8 := i.ring.contents.take (i.w - i.r).toNat

/-- The line that is edited, from the write index on. -/
def line (i : Input) : List UInt8 := i.ring.contents.drop (i.w - i.r).toNat

end Input

/-- The buffer, with what happened to it. -/
structure Data where
  input : Input
  /-- All bytes that were committed. -/
  committed : List UInt8 := []
  /-- All bytes that were read, or taken as the end of the file. -/
  consumed : List UInt8 := []

/-- The channel: `&input.r`. -/
inductive Chan
  | r
  deriving DecidableEq

/-- What a thread is asked for. -/
inductive Call
  /-- An interrupt, with the characters that `getc` returns. -/
  | intr (cs : List UInt8)
  | read (n : ℕ)
  deriving DecidableEq

/-- A process in its critical section of `cons.lock`. -/
inductive Local
  /-- The loop of `consoleintr`. -/
  | intr (cs : List UInt8)
  /-- `wakeup` in `consoleintr`. -/
  | wake (cs : List UInt8)
  /-- The loop of `consoleread`, with the bytes stored in `dst`. -/
  | read (target n : ℕ) (dst : List UInt8)
  /-- After the loop. -/
  | finish (target n : ℕ) (dst : List UInt8)
  deriving DecidableEq

/-- A process outside. -/
inductive Out
  | idle
  /-- It has returned from `consoleread`; `none` is -1. -/
  | returned (r : Option ℕ) (dst : List UInt8)
  deriving DecidableEq

/-- Where a call begins. -/
def call : Call → Local
  | .intr cs => .intr cs
  | .read n => .read n n []

namespace Data

/-- The character goes into the buffer. -/
def key (d : Data) (c : UInt8) : Data where
  input := (d.input.key c).1
  -- what the queue gets
  committed := d.committed ++ (d.input.key c).1.queue.drop d.input.queue.length
  consumed := d.consumed

/-- `c = input.buf[input.r++ % INPUT_BUF]`. -/
def take (d : Data) : Data :=
  { d with
    input := d.input.pop
    consumed := d.consumed ++ [d.input.get d.input.r] }

/-- `input.r--`. -/
def putBack (d : Data) : Data :=
  { d with input := { d.input with r := d.input.r - 1 }, consumed := d.consumed.dropLast }

end Data

/-- The body of the loop of `consoleread`, on a byte that is there. -/
def readByte (d : Data) (target n : ℕ) (dst : List UInt8) : Data × Local :=
  let c := d.input.get d.input.r
  if c = ctrl 'D' then (if n < target then d.take.putBack else d.take, .finish target n dst)
  else if c = newline then (d.take, .finish target (n - 1) (dst ++ [c]))
  else (d.take, .read target (n - 1) (dst ++ [c]))

/-- `consoleintr` and `consoleread`, at one point after the other. -/
def body (d : Data) (killed : Bool) : Local → Op Data Chan Local Out
  | .intr [] => .leave .idle
  | .intr (c :: cs) => .next (d.key c) (if (d.input.key c).2 then .wake cs else .intr cs)
  | .wake cs => .wakeup .r (.intr cs)
  | .read target n dst =>
    if n = 0 then .leave (.returned (some (target - n)) dst)
    else if d.input.r = d.input.w then
      if killed then .leave (.returned none dst) else .sleep .r (.read target n dst)
    else .next (readByte d target n dst).1 (readByte d target n dst).2
  | .finish target n dst => .leave (.returned (some (target - n)) dst)

/-- The buffer is empty at the start, with its indices anywhere. -/
def monitor : Monitor Pid Data Chan Local Out Call where
  init d := d.input.r = d.input.w ∧ d.input.w = d.input.e ∧ d.committed = [] ∧ d.consumed = []
  start := .idle
  call d _ _ c := some (d, .inr (call c))
  body d _ killed := body d killed

/-- The console, and where its threads are. -/
abbrev State := Monitor.State Pid Data Chan Local Out

/-- The threads take turns, one step at a time. -/
def system : TransitionSystem State (Act Pid Call) := monitor.system

end Xv6.Console
