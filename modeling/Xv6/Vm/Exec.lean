import Xv6.Vm.PageTable

/-!
# Programs

`exec` and `growproc`, which give a process its memory. What `exec` reads from the file system
and from the memory of its caller is its input (`Program`): how far the file can be read, its
program headers, and the argument strings.
-/

namespace Xv6.Vm

/-- A program header, if it can be read. -/
structure Proghdr where
  readable : Bool := true
  /-- The type is `ELF_PROG_LOAD`. -/
  load : Bool := true
  vaddr : UInt32
  memsz : UInt32
  filesz : UInt32
  /-- The pages of the segment that can be read, before one cannot. -/
  good : ℕ

/-- An argument: its length (`strlen`), and its bytes and the nul after them. -/
structure Arg where
  len : UInt32
  byte : ℕ → UInt8
  ne_nul : ∀ j < len.toNat, byte j ≠ 0
  nul : byte len.toNat = 0

/-- What `exec` is called with. -/
structure Program where
  /-- `namei` finds the file. -/
  found : Bool := true
  /-- The ELF header can be read, and has the magic number. -/
  header : Bool := true
  phs : List Proghdr := []
  argv : List Arg := []

/-- The pages of a segment that `loaduvm` goes through. -/
def segPages (ph : Proghdr) : List ℕ := List.range' (pageOf ph.vaddr) (npages ph.filesz)

/-- The loop of `exec` over the program headers; the size is `none` if it goes to `bad`. -/
def loadSegs : List Proghdr → Pgdir → UInt32 → Kmem → Option (Option UInt32 × Pgdir × Kmem)
  | [], d, sz, k => some (some sz, d, k)
  | ph :: l, d, sz, k =>
    if ph.readable = false then some (none, d, k)
    else if ph.load = false then loadSegs l d sz k
    else if ph.memsz < ph.filesz then some (none, d, k)
    else if ph.vaddr + ph.memsz < ph.vaddr then some (none, d, k)
    else (allocuvm d sz (ph.vaddr + ph.memsz) k).bind fun (sz, d, k) =>
      if sz = 0 then some (none, d, k)
      else if ph.vaddr % PGSIZE ≠ 0 then some (none, d, k)
      else (loaduvm d (segPages ph) ph.good).bind fun
        | false => some (none, d, k)
        | true => loadSegs l d sz k

/-- The loop of `exec` over the arguments: the stack pointer after it and where the arguments
    are, or `none` if it goes to `bad`. -/
def pushArgs (d : Pgdir) :
    List Arg → List UInt32 → UInt32 → Kmem → Logged (Option (List UInt32 × UInt32) × Kmem)
  | [], ustack, sp, k => .of (some (some (ustack, sp), k))
  | x :: l, ustack, sp, k =>
    if MAXARG ≤ ustack.length then .of (some (none, k))
    else
      let sp := (sp - (x.len + 1)) &&& ~~~3
      (copyout d sp (x.len.toNat + 1) x.byte k).bind fun
        | (false, k) => .of (some (none, k))
        | (true, k) => pushArgs d l (ustack ++ [sp]) sp k

/-- The bytes of words, the lowest first. -/
def wordBytes (l : List UInt32) (j : ℕ) : UInt8 :=
  ((l.getD (j / 4) 0) >>> (8 * (j % 4)).toUInt32).toUInt8

/-- `exec` from the arguments on: whether it gets to the end. -/
def pushStack (d : Pgdir) (argv : List Arg) (sz : UInt32) (k : Kmem) : Logged (Bool × Kmem) :=
  (pushArgs d argv [] sz k).bind fun
    | (none, k) => .of (some (false, k))
    | (some (ustack, sp), k) =>
      let argc := ustack.length
      let words := [0xffffffff, argc.toUInt32, sp - (argc.toUInt32 + 1) * 4] ++ ustack ++ [0]
      copyout d (sp - (3 + argc.toUInt32 + 1) * 4) (4 * words.length) (wordBytes words) k

/-- `exec` from the stack on, in the new directory `d`: the size of the new image, if it
    is complete. -/
def execStack (x : Program) (d : Pgdir) (sz : UInt32) (k : Kmem) :
    Logged (Option UInt32 × Pgdir × Kmem) :=
  let sz := pgRoundUp sz
  (Logged.of (allocuvm d sz (sz + 2 * PGSIZE) k)).bind fun (sz, d, k) =>
    if sz = 0 then .of (some (none, d, k))
    else (Logged.of (clearpteu d (pageOf (sz - 2 * PGSIZE)))).bind fun d =>
      (pushStack d x.argv sz k).bind fun
        | (false, k) => .of (some (none, d, k))
        | (true, k) => .of (some (some sz, d, k))

/-- `exec` of a process with the directory `old` and the size `oldsz`: what it returns, and the
    directory and the size after it. -/
def exec (x : Program) (old : Pgdir) (oldsz : UInt32) (k : Kmem) :
    Logged (Int32 × Pgdir × UInt32 × Kmem) :=
  if x.found = false ∨ x.header = false then .of (some (-1, old, oldsz, k))
  else (Logged.of (setupkvm k)).bind fun
    | (none, k) => .of (some (-1, old, oldsz, k))
    | (some d, k) => (Logged.of (loadSegs x.phs d 0 k)).bind fun
      | (none, d, k) => .of ((freevm d k).map fun k => (-1, old, oldsz, k))
      | (some sz, d, k) => (execStack x d sz k).bind fun
        | (none, d, k) => .of ((freevm d k).map fun k => (-1, old, oldsz, k))
        | (some sz, d, k) => .of ((freevm old k).map fun k => (0, d, sz, k))

/-- `growproc` of a process with the directory `d` and the size `sz`. -/
def growproc (n : Int32) (d : Pgdir) (sz : UInt32) (k : Kmem) :
    Option (Int32 × Pgdir × UInt32 × Kmem) :=
  if n > 0 then
    (allocuvm d sz (sz + n.toUInt32) k).map fun (sz', d, k) =>
      if sz' = 0 then (-1, d, sz, k) else (0, d, sz', k)
  else if n < 0 then
    (deallocuvm d sz (sz + n.toUInt32) k).map fun (sz', d, k) =>
      if sz' = 0 then (-1, d, sz, k) else (0, d, sz', k)
  else some (0, d, sz, k)

/-- `argptr` of a process of size `sz` lets the address `i` pass for `size` bytes. -/
def argptr (sz i : UInt32) (size : Int32) : Bool :=
  ¬(size < 0 ∨ sz ≤ i ∨ sz < i + size.toUInt32)

end Xv6.Vm
