import Xv6.Lib.Bytes
import Xv6.Lib.Monitor
import Xv6.Param

/-!
# The disk driver

The queue of disk requests, with the processes that call `iderw` and the interrupt handler `ideintr`
(`ide.c`), as a monitor: the spin lock is `idelock`, the gate is `ptable.lock`, and a process sleeps
on its buffer. Outside, a process takes and releases the sleep locks of buffers, and does what it
likes with the buffers that no other process has locked.

The disk works on one request at a time, the last one that `idestart` gave to it. When it is done, a
write is on the disk, and the disk raises one interrupt. It reports no errors. The buffers that were
put into the queue and the ones whose requests were completed are recorded in `submitted` and
`completed`, in order.
-/

namespace Xv6.Ide

open Monitor

/-- A process, or the context of an interrupt. -/
abbrev Pid := ℕ

/-- A pointer to a buffer; 0 is none. -/
abbrev Ptr := ℕ

/-- A buffer (`struct buf`), without its lock and its links. -/
structure Buf where
  dev : UInt32 := 0
  blockno : UInt32 := 0
  /-- `B_VALID`: the buffer was read from the disk. -/
  valid : Bool := false
  /-- `B_DIRTY`: the buffer is to be written to the disk. -/
  dirty : Bool := false
  data : Bytes := Bytes.zero

/-- The flags are `B_VALID` without `B_DIRTY`. -/
def Buf.synced (x : Buf) : Bool := x.valid && !x.dirty

/-! ## The disk -/

/-- What `idestart` writes to the ports `0x1f3` to `0x1f6`. -/
structure Ports where
  p3 : UInt8
  p4 : UInt8
  p5 : UInt8
  p6 : UInt8

/-- There is one sector in a block. -/
def ports (x : Buf) : Ports where
  p3 := x.blockno.toUInt8
  p4 := (x.blockno >>> 8).toUInt8
  p5 := (x.blockno >>> 16).toUInt8
  p6 := (0xe0 : UInt8) ||| ((x.dev &&& 1).toUInt8 <<< (4 : UInt8)) |||
    ((x.blockno >>> 24).toUInt8 &&& 0x0f)

namespace Ports

/-- The sector that the disk reads off its ports. -/
def sector (p : Ports) : ℕ :=
  p.p3.toNat + 2 ^ 8 * p.p4.toNat + 2 ^ 16 * p.p5.toNat + 2 ^ 24 * (p.p6 &&& 0x0f).toNat

/-- The disk that is meant. -/
def drive (p : Ports) : Bool := p.p6 &&& 0x10 ≠ 0

end Ports

/-- A request, with the data to be written unless it is a read. -/
structure Request where
  drive : Bool
  sector : ℕ
  write : Option Bytes

/-- The request that `idestart` makes of a buffer. -/
def request (x : Buf) : Request where
  drive := (ports x).drive
  sector := (ports x).sector
  write := if x.dirty then some x.data else none

/-- What the disk does. -/
inductive Controller
  | idle
  | busy (q : Request)
  /-- The request is carried out, and the interrupt was raised. -/
  | done (q : Request)

/-- The request that the disk works on. -/
def Controller.request : Controller → Option Request
  | .idle => none
  | .busy q | .done q => some q

/-! ## The driver -/

/-- The driver, its buffers and the disks. -/
structure Data where
  buf : Ptr → Buf
  qnext : Ptr → Ptr
  idequeue : Ptr := 0
  /-- Who has locked the buffer. -/
  holder : Ptr → Option Pid := fun _ => none
  /-- The two disks. -/
  disk : Bool → ℕ → Bytes
  ide : Controller := .idle
  submitted : List Ptr := []
  completed : List Ptr := []

/-- A process in its critical section of `idelock`. -/
inductive Local
  /-- `iderw`, at `b->qnext = 0`. -/
  | append (b : Ptr)
  /-- The loop to the end of the queue, with `pp` the address of `idequeue` or of a `qnext`. -/
  | walk (b : Ptr) (pp : Option Ptr)
  /-- Starting the disk if necessary. -/
  | start (b : Ptr)
  /-- Waiting for the request to finish. -/
  | wait (b : Ptr)
  /-- `ideintr`, at its start. -/
  | intr
  /-- The data is read if needed, and the flags are set. -/
  | finish (b : Ptr)
  /-- `wakeup(b)`. -/
  | wake (b : Ptr)
  /-- Starting the disk on the next buffer. -/
  | next
  /-- At the end of `ideintr`. -/
  | done
  deriving DecidableEq

/-- What a process does outside. -/
inductive Call
  | lock (b : Ptr)
  | unlock (b : Ptr)
  /-- It changes the buffer. -/
  | set (b : Ptr) (x : Buf)
  | iderw (b : Ptr)
  /-- The disk is done, and interrupts. -/
  | intr

namespace Data

/-- `*pp`. -/
def load (d : Data) : Option Ptr → Ptr
  | none => d.idequeue
  | some c => d.qnext c

/-- `*pp = b`. -/
def store (d : Data) (b : Ptr) : Option Ptr → Data
  | none => { d with idequeue := b }
  | some c => { d with qnext := Function.update d.qnext c b }

/-- Nothing is returned on a panic. -/
def idestart (d : Data) (b : Ptr) : Option Data :=
  if b = 0 then none
  else if FSSIZE ≤ (d.buf b).blockno.toNat then none
  else some { d with ide := .busy (request (d.buf b)) }

/-- The disk carries out a request. -/
def carryOut (d : Data) (q : Request) : Data where
  __ := d
  ide := .done q
  disk := match q.write with
    | some x => Function.update d.disk q.drive (Function.update (d.disk q.drive) q.sector x)
    | none => d.disk

/-- What the data port yields. -/
def port (d : Data) : Bytes :=
  match d.ide with
  | .done q => d.disk q.drive q.sector
  | _ => Bytes.zero

/-- The request of `b` is completed. -/
def complete (d : Data) (b : Ptr) : Data :=
  { d with
    buf := Function.update d.buf b { d.buf b with
      valid := true, dirty := false, data := if (d.buf b).dirty then (d.buf b).data else d.port }
    ide := .idle
    completed := d.completed ++ [b] }

end Data

/-- What a process does outside; a call that panics is none. -/
def call (havedisk1 : Bool) (d : Data) (t : Pid) : Call → Option (Data × (Unit ⊕ Local))
  | .lock b =>
    if d.holder b = none then
      some ({ d with holder := Function.update d.holder b (some t) }, .inl ())
    else none
  | .unlock b =>
    if d.holder b = some t then
      some ({ d with holder := Function.update d.holder b none }, .inl ())
    else none
  | .set b x =>
    if d.holder b = none ∨ d.holder b = some t then
      some ({ d with buf := Function.update d.buf b x }, .inl ())
    else none
  | .iderw b =>
    if b ≠ 0 ∧ d.holder b = some t ∧ (d.buf b).synced = false ∧
        ((d.buf b).dev = 0 ∨ havedisk1) then
      some (d, .inr (.append b))
    else none
  | .intr =>
    match d.ide with
    | .busy q => some (d.carryOut q, .inr .intr)
    | _ => none

/-- `iderw` and `ideintr`, at one point after the other. -/
def body (d : Data) : Local → Op Data Ptr Local Unit
  | .append b => .next { d with qnext := Function.update d.qnext b 0 } (.walk b none)
  | .walk b pp =>
    if d.load pp ≠ 0 then .next d (.walk b (some (d.load pp)))
    else .next { d.store b pp with submitted := d.submitted ++ [b] } (.start b)
  | .start b =>
    if d.idequeue = b then
      match d.idestart b with
      | some d' => .next d' (.wait b)
      | none => .halt
    else .next d (.wait b)
  | .wait b => if (d.buf b).synced = false then .sleep b (.wait b) else .leave ()
  | .intr =>
    if d.idequeue = 0 then .leave ()
    else .next { d with idequeue := d.qnext d.idequeue } (.finish d.idequeue)
  | .finish b => .next (d.complete b) (.wake b)
  | .wake b => .wakeup b .next
  | .next =>
    if d.idequeue ≠ 0 then
      match d.idestart d.idequeue with
      | some d' => .next d' .done
      | none => .halt
    else .next d .done
  | .done => .leave ()

/-- The queue is empty at the start, and no buffer is locked. -/
def monitor (havedisk1 : Bool) : Monitor Pid Data Ptr Local Unit Call where
  init d := d.idequeue = 0 ∧ (∀ b, d.holder b = none) ∧ d.ide = .idle ∧ d.submitted = [] ∧
    d.completed = []
  start := ()
  call d t _ c := call havedisk1 d t c
  body d _ _ := body d

/-- The driver, and where the processes are. -/
abbrev State := Monitor.State Pid Data Ptr Local Unit

/-- The processes and the handler take turns, one step at a time. -/
def system (havedisk1 : Bool) : TransitionSystem State (Act Pid Call) := (monitor havedisk1).system

/-! ## Sectors -/

variable {x : Buf}

theorem and_one_cases (x : UInt32) : x &&& 1 = 0 ∨ x &&& 1 = 1 := by
  have h : (x &&& 1).toNat = x.toNat % 2 := by
    rw [UInt32.toNat_and, UInt32.toNat_one, Nat.and_one_is_mod]
  rcases Nat.mod_two_eq_zero_or_one x.toNat with h0 | h1
  · exact .inl (UInt32.toNat_inj.1 (by rw [h, h0]; rfl))
  · exact .inr (UInt32.toNat_inj.1 (by rw [h, h1]; rfl))

/-- The high bits of a block number of the file system. -/
theorem shiftRight_blockno (h : x.blockno.toNat < FSSIZE) :
    x.blockno >>> 16 = 0 ∧ x.blockno >>> 24 = 0 := by
  have h16 : (x.blockno >>> 16).toNat = x.blockno.toNat / 2 ^ 16 := by
    rw [UInt32.toNat_shiftRight, Nat.shiftRight_eq_div_pow]
    rfl
  have h24 : (x.blockno >>> 24).toNat = x.blockno.toNat / 2 ^ 24 := by
    rw [UInt32.toNat_shiftRight, Nat.shiftRight_eq_div_pow]
    rfl
  simp only [FSSIZE] at h
  exact ⟨UInt32.toNat_inj.1 (by rw [h16, UInt32.toNat_zero]; omega),
    UInt32.toNat_inj.1 (by rw [h24, UInt32.toNat_zero]; omega)⟩

theorem p6_cases (h : x.blockno.toNat < FSSIZE) :
    (ports x).p6 = 0xe0 ∧ x.dev &&& 1 = 0 ∨ (ports x).p6 = 0xf0 ∧ x.dev &&& 1 = 1 := by
  obtain ⟨-, h24⟩ := shiftRight_blockno h
  have hp6 : (ports x).p6 = (0xe0 : UInt8) ||| ((x.dev &&& 1).toUInt8 <<< (4 : UInt8)) |||
    ((x.blockno >>> 24).toUInt8 &&& 0x0f) := rfl
  rcases and_one_cases x.dev with hd | hd
  · exact .inl ⟨by rw [hp6, h24, hd]; decide, hd⟩
  · exact .inr ⟨by rw [hp6, h24, hd]; decide, hd⟩

/-- For a block of the file system, the disk reads off its ports what was meant. -/
theorem request_sector (h : x.blockno.toNat < FSSIZE) : (request x).sector = x.blockno.toNat := by
  obtain ⟨h16, -⟩ := shiftRight_blockno h
  have h8 : (x.blockno >>> 8).toNat = x.blockno.toNat / 2 ^ 8 := by
    rw [UInt32.toNat_shiftRight, Nat.shiftRight_eq_div_pow]
    rfl
  have hlow : (ports x).p6 &&& 0x0f = 0 := by
    obtain ⟨hp6, -⟩ | ⟨hp6, -⟩ := p6_cases h
    · rw [hp6]; decide
    · rw [hp6]; decide
  rw [request, Ports.sector, hlow]
  simp only [ports, h16, UInt32.toNat_toUInt8, h8, UInt32.toNat_zero, UInt8.toNat_zero]
  simp only [FSSIZE] at h
  omega

/-- The disk with the number `dev & 1`. -/
def Buf.drive (x : Buf) : Bool := x.dev &&& 1 ≠ 0

theorem request_drive (h : x.blockno.toNat < FSSIZE) : (request x).drive = x.drive := by
  change (ports x).drive = x.drive
  rw [Ports.drive, Buf.drive]
  obtain ⟨hp6, hd⟩ | ⟨hp6, hd⟩ := p6_cases h
  · rw [hp6, hd]; decide
  · rw [hp6, hd]; decide

end Xv6.Ide
