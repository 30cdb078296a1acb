import Mathlib.Data.Fintype.Basic
import Xv6.Lib.Bytes
import Xv6.Lib.Dlist
import Xv6.Lib.Monitor
import Xv6.Param

/-!
# The buffer cache

The buffers that hold copies of disk blocks, and the processes that call `bread`, `bwrite` and
`brelse` (`bio.c`), as a monitor with the spin lock `bcache.lock`. Outside, a process waits for the
sleep lock of the buffer that `bget` gave to it, does what it likes with the buffers it has locked,
and starts to release one. It asks for blocks of devices other than 0.

The buffers are linked in a circle with the head of the cache. When the last reference to a buffer
is dropped, it goes to the front, and `bget` looks for a buffer to recycle from the end. The time of
the last release of each buffer is recorded in `released`.
-/

namespace Xv6.Bcache

open Monitor

/-- A process, by its place in the process table. -/
abbrev Proc := Fin NPROC

/-- A buffer, by its place in `bcache.buf`. -/
abbrev Ptr := Fin NBUF

/-- A buffer (`struct buf`), without its lock and its links. The references to it are
    counted by a natural number, as there are few. -/
structure Buf where
  dev : UInt32 := 0
  blockno : UInt32 := 0
  refcnt : ℕ := 0
  /-- `B_VALID`. -/
  valid : Bool := false
  /-- `B_DIRTY`. -/
  dirty : Bool := false
  data : Bytes := Bytes.zero

/-- The buffer is for the block. -/
def Buf.holds (x : Buf) (dev blockno : UInt32) : Prop := x.dev = dev ∧ x.blockno = blockno

instance (x : Buf) (dev blockno : UInt32) : Decidable (x.holds dev blockno) :=
  inferInstanceAs (Decidable (_ ∧ _))

/-- The cache and the disk. -/
structure Data where
  buf : Ptr → Buf := fun _ => {}
  /-- The links of the buffers and of `bcache.head`, which is `none`. -/
  links : Links Ptr
  /-- Who has locked the buffer. -/
  holder : Ptr → Option Proc := fun _ => none
  disk : UInt32 → UInt32 → Bytes
  clock : ℕ := 0
  released : Ptr → ℕ := fun _ => 0

/-- A process outside. -/
structure Out where
  /-- The buffers that it has locked. -/
  held : List Ptr := []
  /-- The buffer whose lock it waits for. -/
  wait : Option Ptr := none
  deriving DecidableEq

/-- A process in its critical section of `bcache.lock`, with the buffers that it has locked. -/
inductive Local
  /-- At the start of `bget`. -/
  | look (held : List Ptr) (dev blockno : UInt32)
  /-- Is the block already cached? The loop, at `b`. -/
  | scan (held : List Ptr) (dev blockno : UInt32) (b : Option Ptr)
  /-- Not cached: the loop for a buffer to recycle, at `b`. -/
  | recycle (held : List Ptr) (dev blockno : UInt32) (b : Option Ptr)
  /-- At the end of `bget`, with its buffer. -/
  | got (held : List Ptr) (b : Ptr)
  /-- `brelse`, after `releasesleep`. -/
  | drop (held : List Ptr) (b : Ptr)
  /-- At the end of `brelse`. -/
  | dropped (held : List Ptr)
  deriving DecidableEq

/-- What a process does with buffers. -/
inductive Call
  | bget (dev blockno : UInt32)
  /-- `acquiresleep` returns, and `bget` does. -/
  | acquired
  /-- `bread`, after `bget`. -/
  | bread (b : Ptr)
  /-- The process changes a buffer, and may mark it as dirty. -/
  | set (b : Ptr) (x : Bytes) (dirty : Bool)
  | bwrite (b : Ptr)
  | brelse (b : Ptr)

namespace Data

/-- The buffer `b` is changed by `f`. -/
def modify (d : Data) (b : Ptr) (f : Buf → Buf) : Data :=
  { d with buf := Function.update d.buf b (f (d.buf b)) }

/-- A dirty buffer is written to the disk, and another one is read. -/
def iderw (d : Data) (b : Ptr) : Data :=
  let x := d.buf b
  if x.dirty then
    { d.modify b fun x => { x with valid := true, dirty := false } with
      disk := Function.update d.disk x.dev (Function.update (d.disk x.dev) x.blockno x.data) }
  else d.modify b fun x => { x with valid := true, data := d.disk x.dev x.blockno }

/-- `bread` after `bget`: the block is read if the buffer is not valid. -/
def bread (d : Data) (b : Ptr) : Data := if (d.buf b).valid then d else d.iderw b

/-- `bwrite` of a buffer. -/
def bwrite (d : Data) (b : Ptr) : Data := (d.modify b fun x => { x with dirty := true }).iderw b

/-- `brelse`, in its critical section. -/
def drop (d : Data) (b : Ptr) : Data :=
  let refcnt := (d.buf b).refcnt - 1
  { d.modify b fun x => { x with refcnt := refcnt } with
    links := if refcnt = 0 then (d.links.unlink b).push b else d.links
    clock := d.clock + 1
    released := Function.update d.released b (d.clock + 1) }

end Data

/-- What a process does outside. -/
def call (d : Data) (t : Proc) (o : Out) : Call → Option (Data × (Out ⊕ Local))
  | .bget dev blockno =>
    if dev ≠ 0 ∧ o.wait = none then some (d, .inr (.look o.held dev blockno)) else none
  | .acquired =>
    match o.wait with
    | some b =>
      if d.holder b = none then
        some ({ d with holder := Function.update d.holder b (some t) },
          .inl { held := b :: o.held, wait := none })
      else none
    | none => none
  | .bread b => if b ∈ o.held ∧ o.wait = none then some (d.bread b, .inl o) else none
  | .set b x dirty =>
    if b ∈ o.held ∧ o.wait = none then
      some (d.modify b fun y => { y with data := x, dirty := y.dirty || dirty }, .inl o)
    else none
  | .bwrite b => if b ∈ o.held ∧ o.wait = none then some (d.bwrite b, .inl o) else none
  | .brelse b =>
    if b ∈ o.held ∧ o.wait = none then
      some ({ d with holder := Function.update d.holder b none },
        .inr (.drop (o.held.erase b) b))
    else none

/-- `bget` and `brelse`, at one point after the other. -/
def body (d : Data) : Local → Op Data Unit Local Out
  | .look held dev blockno => .next d (.scan held dev blockno (d.links.next none))
  | .scan held dev blockno none => .next d (.recycle held dev blockno (d.links.prev none))
  | .scan held dev blockno (some b) =>
    if (d.buf b).holds dev blockno then
      .next (d.modify b fun x => { x with refcnt := x.refcnt + 1 }) (.got held b)
    else .next d (.scan held dev blockno (d.links.next (some b)))
  | .recycle _ _ _ none => .halt
  | .recycle held dev blockno (some b) =>
    if (d.buf b).refcnt = 0 then
      .next (d.modify b fun x => { x with
        dev := dev, blockno := blockno, valid := false, dirty := false, refcnt := 1 }) (.got held b)
    else .next d (.recycle held dev blockno (d.links.prev (some b)))
  | .got held b => .leave { held := held, wait := some b }
  | .drop held b => .next (d.drop b) (.dropped held)
  | .dropped held => .leave { held := held }

/-- The links after `binit`. -/
def binit : Links Ptr := (List.finRange NBUF).foldl Links.push Links.empty

/-- After `binit`. -/
def monitor : Monitor Proc Data Unit Local Out Call where
  init d := d.links = binit ∧ (∀ b, d.buf b = {}) ∧ (∀ b, d.holder b = none) ∧ d.clock = 0 ∧
    ∀ b, d.released b = 0
  start := {}
  call := call
  body d _ _ := body d

/-- The cache, and where the processes are. -/
abbrev State := Monitor.State Proc Data Unit Local Out

/-- The processes take turns, one step at a time. -/
def system : TransitionSystem State (Act Proc Call) := monitor.system

end Xv6.Bcache
