import Xv6.Uvm.Load

/-!
# Starting a program

`exec` with the whole state that it changes: the memory, in which the entry of the caller in the
process table and its trap frame are, the directory of the caller, the reference to the inode and
its lock, and the number of the operations in the log.

`uva2ka` does not check that there is a page table for an address. If there is none, the kernel is
stopped, and `exec` is `none` then, as it is if it panics.
-/

namespace Xv6.Vm.Ram

/-- The byte at the kernel address `a`. -/
def byte (m : Ram) (a : ℕ) : UInt8 := m.page (UInt32.ofNat (a / 4096 * 4096)) (a % 4096)

/-- The bytes from the kernel address `a` on. -/
def read (m : Ram) (a : ℕ) : Bytes := fun k => m.byte (a + k)

/-- `n` bytes are written from the kernel address `a` on. -/
def write (m : Ram) (a n : ℕ) (f : Bytes) : Ram :=
  { m with page := fun v k =>
      if k < 4096 ∧ a ≤ v.toNat + k ∧ v.toNat + k < a + n then f (v.toNat + k - a) else m.page v k }

end Xv6.Vm.Ram

namespace Xv6.Uvm

open Vm Kmem

/-- The process that calls `exec`: its slot in the process table, and its kernel stack. -/
structure Caller where
  slot : Fin NPROC
  kstack : Addr

namespace Caller

/-- The address of the entry in the process table: `ptable` (in `kernel.sym`) starts with a lock of
    52 bytes, and an entry has 152. -/
def proc (p : Caller) : ℕ := 0x80112ee0 + 52 + 152 * p.slot

/-- The size of the memory, `sz`. -/
def sz (p : Caller) (m : Ram) : UInt32 := (m.read p.proc).u32

/-- The address of the page directory, `pgdir`. -/
def pgdir (p : Caller) (m : Ram) : UInt32 := (m.read (p.proc + 4)).u32

/-- The byte `k` of `name`. -/
def name (p : Caller) (m : Ram) (k : Fin 16) : UInt8 := m.read (p.proc + 108) k

/-- The address of the trap frame: the last 76 bytes of the kernel stack. -/
def tf (p : Caller) : ℕ := p.kstack.toNat + 4020

/-- The byte `k` of the trap frame. -/
def trapframe (p : Caller) (m : Ram) (k : Fin 76) : UInt8 := m.read p.tf k

/-- The stack pointer in the trap frame. -/
def esp (p : Caller) (m : Ram) : UInt32 := (m.read (p.tf + 68)).u32

end Caller

/-! ## The stack -/

/-- `uva2ka` of the page `a`, or 0. If there is no page table for it, the kernel is stopped where it
    reads the entry through the null pointer (`ud2`, in `kernel.asm`). -/
def uva2ka (d : Pgdir) (a : ℕ) : Option Addr :=
  (walkpgdir d a).map fun x => x.elim 0 fun p => if p.flags &&& PTE_U = 0 then 0 else P2V p.pa

/-- `memmove` of `n` bytes to the page `v`, from the offset `off` on. -/
def memmove (m : Ram) (v : Addr) (off n : ℕ) (f : Bytes) : Ram :=
  { m with page := Function.update m.page v ((m.page v).store off n f) }

/-- The loop of `copyout`, and whether it copies all `len` bytes. Each round copies one of them at
    least. -/
def copyoutLoop (d : Pgdir) : ℕ → UInt32 → ℕ → Bytes → Ram → Option (Bool × Ram)
  | 0, _, _, _, m => some (true, m)
  | fuel + 1, va, len, f, m =>
    let va0 := pgRoundDown va
    let off := (va - va0).toNat
    let n := min (4096 - off) len
    if len = 0 then some (true, m)
    else (uva2ka d (pageOf va0)).bind fun pa0 =>
      if pa0 = 0 then some (false, m)
      else copyoutLoop d fuel (va0 + PGSIZE) (len - n) (f.drop n) (memmove m pa0 off n f)

/-- `copyout` of `len` bytes to the address `va`. -/
def copyout (d : Pgdir) (va : UInt32) (len : ℕ) (f : Bytes) (m : Ram) : Option (Bool × Ram) :=
  copyoutLoop d len va len f m

/-- The loop of `exec` over the arguments: where they are and the stack pointer after it, or `none`
    if it goes to `bad`. -/
def pushArgs (d : Pgdir) : List Arg → List UInt32 → UInt32 → Ram →
    Option (Option (List UInt32 × UInt32) × Ram)
  | [], ustack, sp, m => some (some (ustack, sp), m)
  | x :: l, ustack, sp, m =>
    if MAXARG ≤ ustack.length then some (none, m)
    else
      let sp := (sp - (x.len + 1)) &&& ~~~3
      (copyout d sp (x.len.toNat + 1) x.byte m).bind fun
        | (false, m) => some (none, m)
        | (true, m) => pushArgs d l (ustack ++ [sp]) sp m

/-- The words above the arguments: `ustack`. -/
def stackWords (ptrs : List UInt32) (sp : UInt32) : List UInt32 :=
  [0xffffffff, ptrs.length.toUInt32, sp - (ptrs.length.toUInt32 + 1) * 4] ++ ptrs ++ [0]

/-- The bytes of words. -/
def wordBytes (l : List UInt32) : Bytes := fun j => Bytes.of32 (l.getD (j / 4) 0) (j % 4)

/-- `exec` from the arguments on, and the stack pointer of the new program. -/
def pushStack (d : Pgdir) (argv : List Arg) (sz : UInt32) (m : Ram) :
    Option (Option UInt32 × Ram) :=
  (pushArgs d argv [] sz m).bind fun
    | (none, m) => some (none, m)
    | (some (ptrs, sp), m) =>
      let words := stackWords ptrs sp
      let sp := sp - (3 + ptrs.length.toUInt32 + 1) * 4
      (copyout d sp (4 * words.length) (wordBytes words) m).map fun
        | (false, m) => (none, m)
        | (true, m) => (some sp, m)

/-- `exec` from the stack on, in the new directory `d`: the size of the new image and its stack
    pointer, if it is complete. -/
def execStack (argv : List Arg) (d : Pgdir) (sz : UInt32) (m : Ram) :
    Option (Option (UInt32 × UInt32) × Pgdir × Ram) :=
  let sz := pgRoundUp sz
  (allocuvm d sz (sz + 2 * PGSIZE) m).bind fun (sz, d, m) =>
    if sz = 0 then some (none, d, m)
    else (clearpteu d (pageOf (sz - 2 * PGSIZE))).bind fun d =>
      (pushStack d argv sz m).map fun
        | (none, m) => (none, d, m)
        | (some sp, m) => (some (sz, sp), d, m)

/-! ## The whole call -/

/-- What `exec` works on. -/
structure State where
  ram : Ram
  /-- The directory of the caller. -/
  pgdir : Pgdir
  /-- The operations in the log that have not ended. -/
  outstanding : ℕ
  /-- The references to an inode, and whether it is locked. -/
  ref : ℕ → ℕ
  locked : ℕ → Bool

/-- The file system: the inode that a path leads to, and what is in it. -/
structure Fs where
  namei : List UInt8 → Option ℕ
  file : ℕ → File

/-- An operation begins. -/
def beginOp (s : State) : State := { s with outstanding := s.outstanding + 1 }

/-- An operation ends. -/
def endOp (s : State) : State := { s with outstanding := s.outstanding - 1 }

/-- `namei` gives a reference to the inode. -/
def iget (ip : ℕ) (s : State) : State := { s with ref := Function.update s.ref ip (s.ref ip + 1) }

/-- `ilock`, which waits if the inode is locked. -/
def ilock (ip : ℕ) (s : State) : Option State :=
  if s.locked ip then none else some { s with locked := Function.update s.locked ip true }

/-- `iunlockput`. (What `iput` does to a file that has no name any more is left out.) -/
def iunlockput (ip : ℕ) (s : State) : State :=
  { s with
    locked := Function.update s.locked ip false
    ref := Function.update s.ref ip (s.ref ip - 1) }

/-- `exec` from `bad` on, with the values of `pgdir` and `ip`. -/
def bad (x : Option Pgdir) (ip : Option ℕ) (s : State) : Option (Int32 × State) :=
  (x.elim (some s.ram) fun d => freevm d s.ram).map fun m =>
    let s := { s with ram := m }
    (-1, ip.elim s fun ip => endOp (iunlockput ip s))

/-- The part of a path after the last slash. -/
def last (path : List UInt8) : List UInt8 := (path.reverse.takeWhile (· ≠ 47)).reverse

/-- `safestrcpy` to the 16 bytes at `a`. A shorter string gets two nuls. -/
def safestrcpy (a : ℕ) (t : List UInt8) (m : Ram) : Ram :=
  m.write a (min (t.length + 2) 16) fun k => if k < 15 then t.getD k 0 else 0

/-- `exec` from the new name on, which does not fail. -/
def commit (p : Caller) (path : List UInt8) (entry : UInt32) (d : Pgdir) (sz sp : UInt32)
    (s : State) :
    Option (Int32 × State) :=
  let m := safestrcpy (p.proc + 108) (last path) s.ram
  let m := m.write (p.proc + 4) 4 (Bytes.of32 d.page)
  let m := m.write p.proc 4 (Bytes.of32 sz)
  let m := m.write (p.tf + 56) 4 (Bytes.of32 entry)
  let m := m.write (p.tf + 68) 4 (Bytes.of32 sp)
  (freevm s.pgdir m).map fun m => (0, { s with ram := m, pgdir := d })

/-- `exec`: what it returns, and the state, or `none` if the kernel stops. -/
def exec (fs : Fs) (p : Caller) (path : List UInt8) (argv : List Arg) (s : State) :
    Option (Int32 × State) :=
  match fs.namei path with
  | none => some (-1, endOp (beginOp s))
  | some ip => (ilock ip (iget ip (beginOp s))).bind fun s =>
      (loadProg (fs.file ip) s.ram).bind fun
        | (.error x, m) => bad x (some ip) { s with ram := m }
        | (.ok (sz, d), m) =>
          let s := endOp (iunlockput ip { s with ram := m })
          (execStack argv d sz m).bind fun
            | (none, d, m) => bad (some d) none { s with ram := m }
            | (some (sz, sp), d, m) =>
              commit p path (fs.file ip).elfhdr.entry d sz sp { s with ram := m }

end Xv6.Uvm
