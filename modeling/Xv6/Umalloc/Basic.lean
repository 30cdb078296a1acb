import Mathlib.Algebra.Group.Nat.Defs
import Mathlib.Logic.Function.Basic
import Xv6.Lib.Extents
import Xv6.Lib.TransitionSystem

/-!
# The allocator of user programs

`malloc` and `free` (`umalloc.c`). The free blocks are linked in a circle, and each of them starts
with a header of 8 bytes, which is also the unit of their sizes. Addresses and sizes are 32-bit
words. A loop has a bound on its rounds, and the result is `none` when it takes more.

A program calls `malloc` and `free` in any order, and writes to the blocks that it was given.
-/

namespace Xv6.Umalloc

/-- `union header`. -/
structure Header where
  ptr : ℕ
  size : ℕ
  deriving DecidableEq

/-- The memory, and what `sbrk` has given to the program. -/
structure Heap where
  mem : ℕ → Header
  freep : ℕ := 0
  /-- The end of the program's memory. -/
  brk : ℕ
  regions : List Extent := []

/-- What `sbrk(n)` returns when the memory ends at `brk`: nothing, or a new region. -/
structure Sbrk where
  ask (brk n : ℕ) : Option ℕ
  fresh {brk n p : ℕ} : ask brk n = some p → 8 ∣ p ∧ brk ≤ p ∧ p + n < 2 ^ 32

/-- `sbrk(n)` for every `n`, when the memory ends at `brk`: what it returns, and where the memory
    ends then. It takes memory back for a negative `n`, if there is as much. -/
def Sbrk.call (sbrk : Sbrk) (brk : ℕ) (n : Int32) : Option (ℕ × ℕ) :=
  if 0 < n then (sbrk.ask brk n.toNatClampNeg).map fun p => (p, p + n.toNatClampNeg)
  else
    let newsz := (brk + n.toUInt32.toNat) % 2 ^ 32
    if brk ≤ newsz then some (brk, brk)
    else if newsz = 0 then none
    else some (brk, newsz)

/-- A call of `sbrk` in `morecore`: its argument, and the units that are recorded. -/
structure Call where
  n : Int32
  units : ℕ
  deriving DecidableEq

/-- The units that `morecore` asks for. -/
def more (nu : ℕ) : ℕ := if nu < 4096 then 4096 else nu

/-- The call of `sbrk` in `morecore`. -/
def moreCall (nu : ℕ) : Call := ⟨(UInt32.ofNat (more nu * 8)).toInt32, more nu⟩

/-- `p + n`, for a pointer `p` to headers. -/
def add (p n : ℕ) : ℕ := (p + 8 * n) % 2 ^ 32

namespace Heap

/-- `p->s.ptr`. -/
def ptr (h : Heap) (p : ℕ) : ℕ := (h.mem p).ptr

/-- `p->s.size`. -/
def size (h : Heap) (p : ℕ) : ℕ := (h.mem p).size

/-- `p->s.ptr = q`. -/
def setPtr (h : Heap) (p q : ℕ) : Heap :=
  { h with mem := Function.update h.mem p { h.mem p with ptr := q } }

/-- `p->s.size = n`. -/
def setSize (h : Heap) (p n : ℕ) : Heap :=
  { h with mem := Function.update h.mem p { h.mem p with size := n } }

/-- The loop of `free`, from `p`: the block after which `bp` goes. -/
def seek (h : Heap) (bp : ℕ) : ℕ → ℕ → Option ℕ
  | 0, _ => none
  | k + 1, p =>
    if p < bp ∧ bp < h.ptr p then some p
    else if h.ptr p ≤ p ∧ (p < bp ∨ bp < h.ptr p) then some p
    else seek h bp k (h.ptr p)

/-- One of the two `if`s of `free`: the block `p` is to be followed by `q`, or is coalesced with
    it. -/
def coalesce (h : Heap) (p q : ℕ) : Heap :=
  if add p (h.size p) = q then
    let h := h.setSize p ((h.size p + h.size q) % 2 ^ 32)
    h.setPtr p (h.ptr q)
  else h.setPtr p q

/-- `free`, after its loop. -/
def link (h : Heap) (bp p : ℕ) : Heap :=
  let h := h.coalesce bp (h.ptr p)
  let h := h.coalesce p bp
  { h with freep := p }

/-- The block in front of `ap` is linked. -/
def free (k : ℕ) (h : Heap) (ap : ℕ) : Option Heap :=
  let bp := ap - 8
  (h.seek bp k h.freep).map (h.link bp)

/-- The result is `freep`, or 0. -/
def morecore (sbrk : Sbrk) (k : ℕ) (h : Heap) (nu : ℕ) : Option (Heap × ℕ) :=
  let c := moreCall nu
  match sbrk.call h.brk c.n with
  | none => some (h, 0)
  | some (p, brk) =>
    let h := { h with brk := brk, regions := ⟨p, c.n.toNatClampNeg⟩ :: h.regions }
    (free k (h.setSize p c.units) (add p 1)).map fun h => (h, h.freep)

/-- `malloc` has found the block `p`, behind `prevp`. -/
def take (h : Heap) (nunits prevp p : ℕ) : Heap × ℕ :=
  if h.size p = nunits then
    ({ h.setPtr prevp (h.ptr p) with freep := prevp }, add p 1)
  else
    let h := h.setSize p (h.size p - nunits)
    let p := add p (h.size p)
    ({ h.setSize p nunits with freep := prevp }, add p 1)

/-- The loop of `malloc`, at `p`, and the calls of `sbrk` in it. -/
def searchAny (sbrk : Sbrk) (nunits : ℕ) : ℕ → Heap → ℕ → ℕ → Option (Heap × ℕ) × List Call
  | 0, _, _, _ => (none, [])
  | k + 1, h, prevp, p =>
    if nunits ≤ h.size p then (some (h.take nunits prevp p), [])
    else if p = h.freep then
      match h.morecore sbrk k nunits with
      | none => (none, [moreCall nunits])
      | some (h, p) =>
        if p = 0 then (some (h, 0), [moreCall nunits])
        else
          let (r, cs) := searchAny sbrk nunits k h p (h.ptr p)
          (r, moreCall nunits :: cs)
    else searchAny sbrk nunits k h p (h.ptr p)

/-- The loop of `malloc`. -/
def search (sbrk : Sbrk) (nunits k : ℕ) (h : Heap) (prevp p : ℕ) : Option (Heap × ℕ) :=
  (h.searchAny sbrk nunits k prevp p).1

end Heap

/-- How many units `malloc` looks for. -/
def units (nbytes : ℕ) : ℕ := (nbytes + 8 - 1) % 2 ^ 32 / 8 + 1

/-- The list before the first call. -/
def Heap.start (base : ℕ) (h : Heap) : Heap :=
  if h.freep = 0 then { (h.setPtr base base).setSize base 0 with freep := base } else h

/-- `malloc`, and the calls of `sbrk` in it. The result is the address of the bytes, or 0. -/
def Heap.mallocAny (base : ℕ) (sbrk : Sbrk) (k : ℕ) (h : Heap) (nbytes : ℕ) :
    Option (Heap × ℕ) × List Call :=
  let h := h.start base
  h.searchAny sbrk (units nbytes) k h.freep (h.ptr h.freep)

/-- What `malloc` returns. -/
def Heap.malloc (base : ℕ) (sbrk : Sbrk) (k : ℕ) (h : Heap) (nbytes : ℕ) : Option (Heap × ℕ) :=
  (h.mallocAny base sbrk k nbytes).1

/-! ## Programs -/

/-- The heap, and the blocks of the program. -/
structure State where
  heap : Heap
  /-- The blocks that are allocated, with their headers. -/
  live : List Extent := []

/-- What the program does. -/
inductive Act
  | malloc (sbrk : Sbrk) (k nbytes : ℕ)
  | free (k ap : ℕ)
  /-- The program writes to a block. -/
  | write (p : ℕ) (x : Header)

/-- The `p` is in a block, behind its header. -/
def InBlock (live : List Extent) (p : ℕ) : Prop :=
  ∃ e ∈ live, e.start < p ∧ p < e.stop ∧ 8 ∣ p - e.start

instance (live : List Extent) (p : ℕ) : Decidable (InBlock live p) :=
  inferInstanceAs (Decidable (∃ e ∈ live, _))

/-- A step of the program, which frees only blocks that it was given. -/
def step (base : ℕ) (s : State) : Act → Option State
  | .malloc sbrk k nbytes =>
    if nbytes < 2 ^ 30 then
      (s.heap.malloc base sbrk k nbytes).map fun r => {
        heap := r.1
        live := if r.2 = 0 then s.live else ⟨r.2 - 8, 8 * units nbytes⟩ :: s.live }
    else none
  | .free k ap =>
    if ap ∈ s.live.map (·.start + 8) then
      (s.heap.free k ap).map fun h => { heap := h, live := s.live.eraseP (·.start + 8 = ap) }
    else none
  | .write p x =>
    if InBlock s.live p then
      some { s with heap := { s.heap with mem := Function.update s.heap.mem p x } }
    else none

/-- The header `base` is in the memory that the program has from the start. -/
def system (base : ℕ) : TransitionSystem State Act where
  init s := 0 < base ∧ base + 8 ≤ s.heap.brk ∧ s.heap.brk < 2 ^ 32 ∧ s.heap.freep = 0 ∧
    s.heap.regions = [] ∧ s.live = []
  step := step base

end Xv6.Umalloc
