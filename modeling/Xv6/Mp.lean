import Xv6.Lib.Bytes
import Xv6.Param

/-!
# The configuration table of the processors

At boot, `mpinit` (`mp.c`) looks for the table in which the firmware describes the processors, and
walks its entries. An entry begins with its type, which also says how long it is.

The walk goes on from an entry of an unknown type without moving: the `break` in the loop only
leaves the `switch`. So it comes to an end if and only if it meets no such entry, and then it has
recorded the processors in order, as many as there is room for (`mpinit_ends_iff`).

A pointer is an address that is not bounded, as the table does not wrap around.
-/

namespace Xv6.Mp

/-! ## The program -/

abbrev MPPROC : UInt8 := 0x00
abbrev MPBUS : UInt8 := 0x01
abbrev MPIOAPIC : UInt8 := 0x02
abbrev MPIOINTR : UInt8 := 0x03
abbrev MPLINTR : UInt8 := 0x04

/-- The kernel address of a physical one. -/
def P2V (a : UInt32) : ℕ := (a + KERNBASE).toNat

section Memory

variable (m : Bytes)

/-- The sum of `len` bytes. -/
def sum (addr len : ℕ) : UInt8 := ((List.range len).map fun i => m (addr + i)).sum

/-- `memcmp(p, sig, 4) == 0`. -/
def hasSignature (p : ℕ) (sig : List UInt8) : Bool := (List.range 4).map (fun i => m (p + i)) = sig

/-- Looks for the structure `mp` of 16 bytes, which begins with `_MP_`. -/
def mpsearch1 (a : UInt32) (len : ℕ) : Option ℕ :=
  ((List.range ((len + 15) / 16)).map (P2V a + 16 * ·)).find? fun p =>
    hasSignature m p [0x5f, 0x4d, 0x50, 0x5f] && sum m p 16 = 0

/-- `mpsearch`: the first kilobyte of the EBDA or the last one of base memory, then the BIOS. -/
def mpsearch : Option ℕ :=
  let bda := P2V 0x400
  let p := (m.drop (bda + 0x0e)).u16.toUInt32 <<< 4
  (if p ≠ 0 then mpsearch1 m p 1024
    else mpsearch1 m ((m.drop (bda + 0x13)).u16.toUInt32 * 1024 - 1024) 1024) <|>
  mpsearch1 m 0xf0000 0x10000

/-- `conf->length`. -/
def confLength (conf : ℕ) : ℕ := (m.drop (conf + 4)).u16.toNat

/-- The structure `mp`, and the table, which begins with `PCMP`. -/
def mpconfig : Option (ℕ × ℕ) :=
  match mpsearch m with
  | none => none
  | some mp =>
    let physaddr := (m.drop (mp + 4)).u32
    if physaddr = 0 then none
    else
      let conf := P2V physaddr
      if hasSignature m conf [0x50, 0x43, 0x4d, 0x50] = false then none
      else if m (conf + 6) ≠ 1 ∧ m (conf + 6) ≠ 4 then none
      else if sum m conf (confLength m conf) ≠ 0 then none
      else some (mp, conf)

/-- What the walk records. -/
structure Walk where
  ismp : Bool := true
  /-- The fields `apicid` of the first `ncpu` processors. -/
  cpus : List UInt8 := []
  ioapicid : UInt8

/-- The body of the loop. -/
def visit (p : ℕ) (w : Walk) : ℕ × Walk :=
  if m p = MPPROC then
    (p + 20, if w.cpus.length < NCPU then { w with cpus := w.cpus ++ [m (p + 1)] } else w)
  else if m p = MPIOAPIC then (p + 8, { w with ioapicid := m (p + 1) })
  else if m p = MPBUS then (p + 8, w)
  else if m p = MPIOINTR ∨ m p = MPLINTR then (p + 8, w)
  else (p, { w with ismp := false })

/-- The loop, with a bound on its rounds. -/
def walk (e : ℕ) : ℕ → ℕ → Walk → Option Walk
  | 0, _, _ => none
  | k + 1, p, w => if p < e then walk e k (visit m p w).1 (visit m p w).2 else some w

/-- What `mpinit` sets up, and whether it programs the IMCR. -/
structure Machine where
  lapic : UInt32
  cpus : List UInt8
  ioapicid : UInt8
  imcr : Bool

/-- `mpinit`, with what `ioapicid` is before. -/
def mpinit (ioapicid : UInt8) (k : ℕ) : Option (Except String Machine) :=
  match mpconfig m with
  | none => some (.error "Expect to run on an SMP")
  | some (mp, conf) =>
    (walk m (conf + confLength m conf) k (conf + 44) { ioapicid := ioapicid }).map fun w =>
      if w.ismp = false then .error "Didn't find a suitable machine"
      else .ok
        { lapic := (m.drop (conf + 36)).u32, cpus := w.cpus, ioapicid := w.ioapicid,
          imcr := m (mp + 12) ≠ 0 }

end Memory

/-! ## The entries of a table -/

/-- An entry of the table, as far as `mpinit` looks at it. -/
inductive Entry
  | proc (apicid : UInt8)
  | ioapic (apicno : UInt8)
  | other
  | unknown
  deriving DecidableEq

/-- The entry at `p`. -/
def entry (m : Bytes) (p : ℕ) : Entry :=
  if m p = MPPROC then .proc (m (p + 1))
  else if m p = MPIOAPIC then .ioapic (m (p + 1))
  else if m p = MPBUS ∨ m p = MPIOINTR ∨ m p = MPLINTR then .other
  else .unknown

/-- How far `mpinit` goes on from an entry. -/
def Entry.size : Entry → ℕ
  | .proc _ => 20
  | .ioapic _ => 8
  | .other => 8
  | .unknown => 0

theorem Entry.size_pos {x : Entry} (h : x ≠ .unknown) : 0 < x.size := by
  cases x with
  | unknown => exact absurd rfl h
  | proc apicid => exact Nat.succ_pos 19
  | ioapic apicno => exact Nat.succ_pos 7
  | other => exact Nat.succ_pos 7

/-- The entries from `p` to the end of the table `e`, or to the first one of an unknown type. -/
def entries (m : Bytes) (e p : ℕ) : List Entry :=
  if p < e then
    if _h : entry m p = .unknown then [.unknown]
    else entry m p :: entries m e (p + (entry m p).size)
  else []
termination_by e - p
decreasing_by have := Entry.size_pos _h; omega

/-- The processors of a list of entries. -/
def procs : List Entry → List UInt8
  | [] => []
  | .proc apicid :: es => apicid :: procs es
  | _ :: es => procs es

/-- No entry of an unknown type is met. -/
def Known (m : Bytes) (conf : ℕ) : Prop :=
  .unknown ∉ entries m (conf + confLength m conf) (conf + 44)

/-! ## The walk -/

variable {m : Bytes} {e p k : ℕ} {w : Walk}

/-- What is recorded of an entry. -/
def Walk.see (w : Walk) : Entry → Walk
  | .proc apicid => if w.cpus.length < NCPU then { w with cpus := w.cpus ++ [apicid] } else w
  | .ioapic apicno => { w with ioapicid := apicno }
  | .other => w
  | .unknown => { w with ismp := false }

theorem visit_eq : visit m p w = (p + (entry m p).size, w.see (entry m p)) := by
  rw [visit, entry]
  by_cases hproc : m p = MPPROC
  · rw [if_pos hproc, if_pos hproc]
    rfl
  · rw [if_neg hproc, if_neg hproc]
    by_cases hioapic : m p = MPIOAPIC
    · rw [if_pos hioapic, if_pos hioapic]
      rfl
    · rw [if_neg hioapic, if_neg hioapic]
      by_cases hbus : m p = MPBUS
      · rw [if_pos hbus, if_pos (.inl hbus)]
        rfl
      · simp only [if_neg hbus, or_iff_right hbus]
        split_ifs <;> rfl

theorem entries_of_le (h : e ≤ p) : entries m e p = [] := by rw [entries, if_neg (by omega)]

theorem entries_of_known (h : p < e) (hp : entry m p ≠ .unknown) :
    entries m e p = entry m p :: entries m e (p + (entry m p).size) := by
  rw [entries, if_pos h, dif_neg hp]

/-- The walk meets the entries one by one, if all are of a known type. -/
theorem exists_walk (p : ℕ) (w : Walk) (h : .unknown ∉ entries m e p) :
    ∃ k, walk m e k p w = some ((entries m e p).foldl Walk.see w) := by
  by_cases hp : p < e
  · have hknown : entry m p ≠ .unknown := fun hunknown => by
      rw [entries, if_pos hp, dif_pos hunknown] at h
      exact h List.mem_cons_self
    have hpos := Entry.size_pos hknown
    rw [entries_of_known hp hknown] at h ⊢
    obtain ⟨k, hk⟩ := exists_walk (p + (entry m p).size) (w.see (entry m p))
      fun hmem => h (List.mem_cons_of_mem _ hmem)
    refine ⟨k + 1, ?_⟩
    rw [walk, if_pos hp, visit_eq]
    exact hk
  · exact ⟨1, by rw [walk, if_neg hp, entries_of_le (by omega), List.foldl_nil]⟩
termination_by e - p

/-- Before an entry of an unknown type, no bound is enough: each round comes closer to it, or stays
    there. -/
theorem walk_eq_none (h : .unknown ∈ entries m e p) (k : ℕ) : walk m e k p w = none := by
  induction k generalizing p w with
  | zero => rfl
  | succ k ih =>
    have hp : p < e := by
      by_contra hp
      rw [entries_of_le (by omega)] at h
      cases h
    rw [walk, if_pos hp, visit_eq]
    refine ih ?_
    by_cases hunknown : entry m p = .unknown
    · rw [hunknown]
      exact h
    · rw [entries_of_known hp hunknown] at h
      exact (List.mem_cons.1 h).resolve_left (Ne.symm hunknown)

theorem foldl_see {es : List Entry} (h : .unknown ∉ es) (hw : w.cpus.length ≤ NCPU) :
    (es.foldl Walk.see w).ismp = w.ismp ∧
      (es.foldl Walk.see w).cpus = (w.cpus ++ procs es).take NCPU := by
  induction es generalizing w with
  | nil => exact ⟨rfl, by rw [procs, List.append_nil, List.foldl_nil, List.take_of_length_le hw]⟩
  | cons x es ih =>
    obtain ⟨hx, hes⟩ := not_or.1 (List.mem_cons.not.1 h)
    rw [List.foldl_cons]
    cases x with
    | unknown => exact absurd rfl hx
    | other => exact ih hes hw
    | ioapic apicno => exact ih hes hw
    | proc apicid =>
      rw [Walk.see, procs]
      split_ifs with hlt
      · obtain ⟨hismp, hcpus⟩ := ih (w := { w with cpus := w.cpus ++ [apicid] }) hes
          (by rw [List.length_append]; exact hlt)
        exact ⟨hismp, by rw [hcpus, List.append_assoc, List.singleton_append]⟩
      · obtain ⟨hismp, hcpus⟩ := ih hes hw
        have hfull : w.cpus.length = NCPU := by omega
        refine ⟨hismp, ?_⟩
        rw [hcpus, ← hfull, List.take_left, List.take_left]

theorem mpinit_of_walk {ioapicid : UInt8} {mp conf : ℕ} (h : mpconfig m = some (mp, conf))
    (hw : walk m (conf + confLength m conf) k (conf + 44) { ioapicid := ioapicid } = some w)
    (hismp : w.ismp = true) : ∃ s, mpinit m ioapicid k = some (.ok s) ∧ s.cpus = w.cpus := by
  refine ⟨⟨(m.drop (conf + 36)).u32, w.cpus, w.ioapicid, m (mp + 12) ≠ 0⟩, ?_, rfl⟩
  rw [mpinit, h]
  dsimp only
  rw [hw, Option.map_some, if_neg (by rw [hismp]; decide)]

/-- With a table that `mpconfig` accepts, `mpinit` comes to an end, having recorded the processors
    of the table in order or found an entry of an unknown type, if and only if there is no such
    entry. -/
theorem mpinit_ends_iff (m : Bytes) (ioapicid : UInt8) (mp conf : ℕ)
    (h : mpconfig m = some (mp, conf)) :
    (∃ k r, mpinit m ioapicid k = some r ∧
      ((∃ s : Machine, r = .ok s ∧
        s.cpus = (procs (entries m (conf + confLength m conf) (conf + 44))).take NCPU) ∨
      (r = .error "Didn't find a suitable machine" ∧ ¬Known m conf))) ↔ Known m conf := by
  constructor
  · rintro ⟨k, r, hr, -⟩
    by_contra hunknown
    rw [mpinit, h] at hr
    dsimp only at hr
    rw [walk_eq_none (not_not.1 hunknown)] at hr
    cases hr
  · intro hknown
    obtain ⟨k, hk⟩ := exists_walk (conf + 44) { ioapicid := ioapicid } hknown
    obtain ⟨hismp, hcpus⟩ := foldl_see (w := { ioapicid := ioapicid }) hknown (Nat.zero_le _)
    obtain ⟨s, hs, hscpus⟩ := mpinit_of_walk h hk hismp
    exact ⟨k, .ok s, hs, .inl ⟨s, rfl, hscpus.trans hcpus⟩⟩

/-- A memory with a table of one entry, of the bytes `l`. -/
def oneEntry (l : List UInt8) (checksum : UInt8) : Bytes :=
  ((Bytes.zero.store 0x8000040e 2 (.ofList [0xc0, 0x9f])).store 0x8009fc00 16
      (.ofList [0x5f, 0x4d, 0x50, 0x5f, 0x10, 0xfc, 0x09, 0x00, 1, 4, 0x8b])).store
    0x8009fc10 (44 + l.length)
    (.ofList ([0x50, 0x43, 0x4d, 0x50, 44 + .ofNat l.length, 0, 4, checksum] ++
      List.replicate 36 0 ++ l))

/-- One processor, whose APIC has the number 7. -/
theorem mpinit_ends_iff_oneProc :
    ∃ k r, mpinit (oneEntry (0 :: 7 :: List.replicate 18 0) 0x85) 0 k = some r ∧
      ((∃ s : Machine, r = .ok s ∧
        s.cpus = (procs (entries (oneEntry (0 :: 7 :: List.replicate 18 0) 0x85)
        (0x8009fc10 + confLength (oneEntry (0 :: 7 :: List.replicate 18 0) 0x85) 0x8009fc10)
        (0x8009fc10 + 44))).take NCPU) ∨
      (r = .error "Didn't find a suitable machine" ∧
        ¬Known (oneEntry (0 :: 7 :: List.replicate 18 0) 0x85) 0x8009fc10)) :=
  (mpinit_ends_iff _ 0 0x8009fc00 0x8009fc10 (by decide +kernel)).2 (by
    rw [Known]
    decide +kernel)

/-- An entry of the type 5: the table is accepted, and the walk does not end. -/
theorem mpinit_hangs :
    mpconfig (oneEntry [5] 0x9a) = some (0x8009fc00, 0x8009fc10) ∧
      ¬∃ k r, mpinit (oneEntry [5] 0x9a) 0 k = some r := by
  have hconf : mpconfig (oneEntry [5] 0x9a) = some (0x8009fc00, 0x8009fc10) := by decide +kernel
  refine ⟨hconf, ?_⟩
  rintro ⟨k, r, hr⟩
  have hunknown : .unknown ∈ entries (oneEntry [5] 0x9a)
      (0x8009fc10 + confLength (oneEntry [5] 0x9a) 0x8009fc10)
      (0x8009fc10 + 44) := by decide +kernel
  rw [mpinit, hconf] at hr
  dsimp only at hr
  rw [walk_eq_none hunknown] at hr
  cases hr

end Xv6.Mp
