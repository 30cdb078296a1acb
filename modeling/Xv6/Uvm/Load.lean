import Xv6.Uvm.Copy
import Xv6.Vm.Args

/-!
# Loading a program

The first half of `exec`: a file is read into the memory of a new process, page by page, as its
program headers say. The file is its size and its bytes, which `readi` gives.

Every sequence of headers is rejected or loaded exactly (`loadProg_exact`): the size of the image is
the largest end of a segment, and each byte of it is the one that the last segment with bytes of the
file there gives, or 0.
-/

namespace Xv6.Uvm

open Vm Kmem Function

/-- A regular file. -/
structure File where
  size : UInt32
  byte : Bytes

abbrev ELF_MAGIC : UInt32 := 0x464C457F
abbrev ELF_PROG_LOAD : UInt32 := 1

/-- The ELF header (`struct elfhdr`), with the fields that are used. -/
structure Elfhdr where
  magic : UInt32
  entry : UInt32
  phoff : UInt32
  phnum : UInt16

/-- A program header (`struct proghdr`), with the fields that are used. -/
structure Proghdr where
  type : UInt32
  off : UInt32
  vaddr : UInt32
  filesz : UInt32
  memsz : UInt32

namespace File

/-- What `readi` of `n` bytes at the offset `off` returns. -/
def readi (f : File) (off n : UInt32) : UInt32 :=
  if f.size < off ∨ off + n < off then -1
  else if f.size < off + n then f.size - off
  else n

/-- `readi` to a page of memory. -/
def readTo (f : File) (off n : UInt32) (v : Addr) (m : Ram) : UInt32 × Ram :=
  let r := f.readi off n
  if r = -1 then (r, m)
  else (r, { m with
    page := Function.update m.page v ((m.page v).store 0 r.toNat (f.byte.drop off.toNat)) })

/-- The ELF header, if the file has its 52 bytes. -/
def elfhdr (f : File) : Elfhdr where
  magic := f.byte.u32
  entry := (f.byte.drop 24).u32
  phoff := (f.byte.drop 28).u32
  phnum := (f.byte.drop 44).u16

/-- The program header at the offset `off`, if the file has its 32 bytes. -/
def proghdr (f : File) (off : UInt32) : Proghdr :=
  let b := f.byte.drop off.toNat
  { type := b.u32, off := (b.drop 4).u32, vaddr := (b.drop 8).u32, filesz := (b.drop 16).u32,
    memsz := (b.drop 20).u32 }

end File

/-- How much `loaduvm` reads at the offset `i` of a segment: a page, or what is left. -/
def chunk (sz i : UInt32) : UInt32 := if sz - i < PGSIZE then sz - i else PGSIZE

/-- The loop of `loaduvm`, over the pages of the segment. -/
def loadLoop (d : Pgdir) (f : File) (addr off sz : UInt32) : List ℕ → Ram → Option (Bool × Ram)
  | [], m => some (true, m)
  | j :: l, m =>
    let i : UInt32 := PGSIZE * j.toUInt32
    match walkpgdir d (pageOf (addr + i)) with
    | none => none  -- address should exist
    | some x =>
      let pa := x.elim 0 Pte.pa
      match f.readTo (off + i) (chunk sz i) (P2V pa) m with
      | (r, m) => if r ≠ chunk sz i then some (false, m) else loadLoop d f addr off sz l m

/-- `loaduvm`, and whether it succeeds. -/
def loaduvm (d : Pgdir) (f : File) (addr off sz : UInt32) (m : Ram) : Option (Bool × Ram) :=
  if addr % PGSIZE ≠ 0 then none  -- addr must be page aligned
  else loadLoop d f addr off sz (List.range (npages sz)) m

/-- The loop of `exec` over the program headers, with `n` of them left, the next one at the offset
    `off`; the size is `none` if it goes to `bad`. -/
def loadSegs (f : File) : ℕ → UInt32 → Pgdir → UInt32 → Ram → Option (Option UInt32 × Pgdir × Ram)
  | 0, _, d, sz, m => some (some sz, d, m)
  | n + 1, off, d, sz, m =>
    let ph := f.proghdr off
    if f.readi off 32 ≠ 32 then some (none, d, m)
    else if ph.type ≠ ELF_PROG_LOAD then loadSegs f n (off + 32) d sz m
    else if ph.memsz < ph.filesz then some (none, d, m)
    else if ph.vaddr + ph.memsz < ph.vaddr then some (none, d, m)
    else (allocuvm d sz (ph.vaddr + ph.memsz) m).bind fun (sz, d, m) =>
      if sz = 0 then some (none, d, m)
      else if ph.vaddr % PGSIZE ≠ 0 then some (none, d, m)
      else (loaduvm d f ph.vaddr ph.off ph.filesz m).bind fun
        | (false, m) => some (none, d, m)
        | (true, m) => loadSegs f n (off + 32) d sz m

/-- `exec` up to the end of the loop over the program headers: the size of the image and the new
    directory, or the directory that there is when it goes to `bad`. -/
def loadProg (f : File) (m : Ram) : Option (Except (Option Pgdir) (UInt32 × Pgdir) × Ram) :=
  if f.readi 0 52 ≠ 52 then some (.error none, m)
  else if f.elfhdr.magic ≠ ELF_MAGIC then some (.error none, m)
  else (setupkvm m).bind fun
    | (none, m) => some (.error none, m)
    | (some d, m) => (loadSegs f f.elfhdr.phnum.toNat f.elfhdr.phoff d 0 m).map fun
      | (none, d, m) => (.error (some d), m)
      | (some sz, d, m) => (.ok (sz, d), m)

/-! ## What a program is -/

namespace File

/-- The program headers from the offset `off` on. -/
def phs (f : File) : ℕ → UInt32 → List Proghdr
  | 0, _ => []
  | n + 1, off => f.proghdr off :: phs f n (off + 32)

/-- The headers of the segments to load. -/
def loads (f : File) : List Proghdr :=
  (f.phs f.elfhdr.phnum.toNat f.elfhdr.phoff).filter fun ph => ph.type = ELF_PROG_LOAD

end File

/-- The address is one of those that get a byte of the file. -/
def Proghdr.Covers (ph : Proghdr) (a : ℕ) : Prop :=
  ph.vaddr.toNat ≤ a ∧ a < ph.vaddr.toNat + ph.filesz.toNat

instance (ph : Proghdr) (a : ℕ) : Decidable (ph.Covers a) := inferInstanceAs (Decidable (_ ∧ _))

/-- The largest end of a segment. -/
def top (l : List Proghdr) : ℕ := (l.map fun ph => ph.vaddr.toNat + ph.memsz.toNat).foldr max 0

/-- The byte at the address `a` of the image. -/
def image (f : File) (l : List Proghdr) (a : ℕ) : UInt8 :=
  match (l.filter fun ph => ph.Covers a).getLast? with
  | some ph => f.byte (ph.off.toNat + (a - ph.vaddr.toNat))
  | none => 0

/-- The byte at the user address `a`, if its page is there. -/
def byteAt (d : Pgdir) (m : Ram) (a : ℕ) : Option UInt8 :=
  (d.pte? (a / 4096)).map fun p => m.page (P2V p.pa) (a % 4096)

/-! ## Memory in use -/

variable {T F : Multiset Addr} {v : Addr} {k : Kmem} {d d' : Pgdir} {m m' m'' : Ram} {f : File}
  {a b j n : ℕ} {addr off sz oldsz newsz s : UInt32} {r : Bool} {l : List ℕ} {ph : Proghdr}
  {done : List Proghdr}

/-- The pages of memory that are in use, `F` and those that are not the allocator's, are as they
    were. -/
def Same (T F : Multiset Addr) (m m' : Ram) : Prop := ∀ v, (v ∈ T → v ∈ F) → m'.page v = m.page v

theorem Same.refl (m : Ram) : Same T F m m := fun _ _ => rfl

theorem Same.trans (h : Same T F m m') (h' : Same T F m' m'') : Same T F m m'' := fun v hv =>
  (h' v hv).trans (h v hv)

theorem same_deallocuvm (h : Owns T k (d.pages + F)) (ho : oldsz ≤ KERNBASE)
    (hr : deallocuvm d oldsz newsz m = some (s, d', m')) : Same T F m m' := fun v hv => by
  have hram : Vm.deallocuvm d.erase oldsz newsz m = some (s, d'.erase, m') := by
    rw [← erase_deallocuvm _ _ _ ho, hr]
    rfl
  exact Ram.page_deallocuvm hram ho fun b p _ _ hp he => notMem_pages h hv (he ▸ Vm.mem_pages hp)

theorem same_allocLoop (h : Owns T m.kmem (d.pages + F)) (hn : newsz ≤ KERNBASE)
    (hl : ∀ a ∈ l, a < NUSER) (hr : allocLoop oldsz newsz l d m = some (s, d', m')) :
    Same T F m m' := by
  induction l generalizing d m with
  | nil =>
    obtain ⟨-, -, rfl⟩ := (by simpa [allocLoop] using hr : newsz = s ∧ d = d' ∧ m = m')
    exact .refl m
  | cons a l ih =>
    have hau := hl a List.mem_cons_self
    simp only [allocLoop] at hr
    rcases h.kalloc with ⟨hk, ho⟩ | ⟨hk, ho⟩
    · rw [if_pos (show m.kalloc.1 = 0 from hk)] at hr
      obtain ⟨⟨s₁, d₁, m₁⟩, hd, he⟩ := Option.map_eq_some_iff.1 hr
      obtain ⟨-, -, rfl⟩ := (by simpa using he : 0 = s ∧ d₁ = d' ∧ m₁ = m')
      exact (same_deallocuvm ho hn hd :)
    rw [if_neg (show m.kalloc.1 ≠ 0 from hk)] at hr
    obtain ⟨⟨r, d₁, m₁⟩, hm, hr⟩ := Option.bind_eq_some_iff.1 hr
    obtain ⟨hpage, hcase⟩ := mappages_cases hm (hau.trans (by decide))
    obtain ⟨ho₁, -⟩ := owns_mappages (F := F) (ho.of_eq (Multiset.add_cons _ _ _)) hau hm
    have hne {v : Addr} (hv : v ∈ T → v ∈ F) : v ≠ m.kalloc.1 := fun he => by
      have hin : m.kalloc.1 ∈ T := ho.mem (Multiset.mem_cons_self _ _)
      exact (Multiset.nodup_cons.1 ho.nodup_own).1 (Multiset.mem_add.2 (.inr (he ▸ hv (he ▸ hin))))
    have hsame : Same T F m m₁ := fun v hv => by
      rw [hpage]
      exact update_of_ne (hne hv) ..
    cases r with
    | true =>
      exact hsame.trans (ih (by simpa using ho₁) (fun b hb => hl b (List.mem_cons_of_mem _ hb)) hr)
    | false =>
      obtain ⟨⟨s₂, d₂, m₂⟩, hd, hr⟩ := Option.bind_eq_some_iff.1 hr
      obtain ⟨m₃, hfree, he⟩ := Option.map_eq_some_iff.1 hr
      obtain ⟨-, -, rfl⟩ := (by simpa using he : 0 = s ∧ d₂ = d' ∧ m₃ = m')
      rw [if_neg (by simp)] at ho₁
      have hsame₂ := same_deallocuvm ho₁ hn hd
      refine hsame.trans fun v hv => ?_
      rw [Ram.page_kfree hfree (hne hv), hsame₂ v fun hT => Multiset.mem_cons_of_mem (hv hT)]

/-- The part of a directory above user memory: the mappings of kernel memory, and their page
    tables. -/
structure Kernel (d : Pgdir) : Prop where
  pte : ∀ b, NUSER ≤ b → b < NPAGES → d.pte? b = kernelPte kmap b
  tabs : ∀ i : Fin NPDENTRIES, 512 ≤ i.val → (d.hasTab i ↔ i.val ∈ kmapPdx)

theorem Blank.toKernel (h : Blank d) : Kernel d := ⟨h.kernel, fun i _ => h.tabs i⟩

/-- `allocuvm` of a process: it fails, or gives the larger of the sizes and memory up to there. -/
theorem allocuvm_spec (h : Owns T m.kmem (d.pages + F)) (hd : d.MapsUser (npages oldsz))
    (ho : oldsz < KERNBASE) (hk : Kernel d) (newsz : UInt32) : ∃ s d' m',
    allocuvm d oldsz newsz m = some (s, d', m') ∧ Owns T m'.kmem (d'.pages + F) ∧ Same T F m m' ∧
      (s ≠ 0 → s.toNat = max oldsz.toNat newsz.toNat ∧ s < KERNBASE ∧ Kernel d' ∧
        d'.MapsUser (npages s) ∧ (∀ a < npages oldsz, Kept d d' m m' a) ∧
        ∀ a, npages oldsz ≤ a → a < npages s → Fresh d' m' a) := by
  by_cases hn : KERNBASE ≤ newsz
  · exact ⟨0, d, m, if_pos hn, h, .refl m, fun h0 => absurd rfl h0⟩
  by_cases hlt : newsz < oldsz
  · refine ⟨oldsz, d, m, by rw [allocuvm, if_neg hn, if_pos hlt], h, .refl m,
      fun _ => ⟨?_, ho, hk, hd,
      fun a _ => ⟨rfl, fun _ _ => rfl⟩, fun a hlo hhi => absurd hlo (by omega)⟩⟩
    have := UInt32.lt_iff_toNat_lt.1 hlt
    omega
  have hn' := UInt32.not_le.1 hn
  have hle := UInt32.not_lt.1 hlt
  obtain ⟨s, d', m', hr, hown, -, hcase⟩ := allocuvm_of_layout h hd hle hn'
  have hloop := hr
  rw [allocuvm, if_neg hn, if_neg hlt, pageOf_pgRoundUp (UInt32.le_of_lt ho)] at hloop
  have hN := npages_le (UInt32.le_of_lt hn')
  have hmem (a : ℕ) : a ∈ List.range' (npages oldsz) (npages newsz - npages oldsz) ↔
      npages oldsz ≤ a ∧ a < npages newsz := by
    rw [List.mem_range'_1]
    omega
  refine ⟨s, d', m', hr, hown, same_allocLoop h (UInt32.le_of_lt hn')
    (fun a ha => by have := (hmem a).1 ha; omega) hloop, fun h0 => ?_⟩
  obtain ⟨rfl, hmaps, hkept, hfresh⟩ | ⟨hs, -⟩ := hcase
  · have hvm : Vm.allocuvm d.erase oldsz s m.kmem = some (s, d'.erase, m'.kmem) := by
      rw [← Ram.erase_allocuvm, ← erase_allocuvm, hr]
      rfl
    refine ⟨?_, hn', ⟨fun b hu hb => ?_, fun i hi => ?_⟩, hmaps, hkept, hfresh⟩
    · have := UInt32.le_iff_toNat_le.1 hle
      omega
    · obtain ⟨-, ⟨-, hold, -⟩ | ⟨hs, -⟩⟩ := pte?_allocLoop hn' (fun a ha => (hmem a).1 ha) hloop
      · rw [hold b hb (by rw [hmem]; omega), hk.pte b hu hb]
      · exact absurd hs h0
    · rw [← Pgdir.hasTab_erase, (Vm.allocuvm_tabs hvm h0).2 i hi, Pgdir.hasTab_erase, hk.tabs i hi]
  · exact absurd hs h0

/-! ## Segments -/

theorem le_size_of_readi {n : UInt32} (h : f.readi off n = n) (hn : n ≠ -1) :
    off.toNat + n.toNat ≤ f.size.toNat := by
  rw [File.readi] at h
  split_ifs at h with hbad hend
  · exact absurd h.symm hn
  · obtain ⟨hoff, -⟩ := not_or.1 hbad
    have hadd : f.size = off + n := by rw [← h, UInt32.add_comm, UInt32.sub_add_cancel]
    exact absurd (hadd ▸ hend) (UInt32.lt_irrefl _)
  · obtain ⟨-, hwrap⟩ := not_or.1 hbad
    rw [UInt32.lt_iff_toNat_lt, UInt32.toNat_add] at hwrap hend
    have := off.toNat_lt
    have := n.toNat_lt
    omega

theorem toNat_pages (h : 4096 * j < 4294967296) : (PGSIZE * j.toUInt32).toNat = 4096 * j := by
  rw [UInt32.toNat_mul, Nat.toUInt32, UInt32.toNat_ofNat']
  change 4096 * _ % _ = _
  omega

/-- A page of user memory is written to. -/
theorem byteAt_update (ho : Owns T k (d.pages + F)) (hb : b < NUSER) {p : Pte}
    (hp : d.pte? b = some p) (ha : a / 4096 < NUSER) (g : Bytes) :
    byteAt d { m with page := update m.page (P2V p.pa) g } a =
      if a / 4096 = b then some (g (a % 4096)) else byteAt d m a := by
  rw [byteAt, byteAt]
  split_ifs with hab
  · rw [hab, hp, Option.map_some]
    dsimp only
    rw [update_self]
  · cases hq : d.pte? (a / 4096) with
    | none => rw [Option.map_none, Option.map_none]
    | some q =>
      rw [Option.map_some, Option.map_some]
      dsimp only
      rw [update_of_ne (frame_ne ho hb ha hab hp hq)]

/-- `readTo` writes to the page only. -/
theorem readTo_page {n : UInt32} {w : Addr} (hw : w ≠ v) :
    (f.readTo off n v m).2.page w = m.page w := by
  rw [File.readTo]
  split_ifs
  · rfl
  · exact update_of_ne hw ..

theorem readTo_kmem (f : File) (off n : UInt32) (v : Addr) (m : Ram) :
    (f.readTo off n v m).2.kmem = m.kmem := by
  rw [File.readTo]
  split_ifs <;> rfl

theorem readTo_eq {n : UInt32} (h : f.readi off n = n) (hn : n ≠ -1) :
    f.readTo off n v m = (n, { m with
    page := update m.page v ((m.page v).store 0 n.toNat (f.byte.drop off.toNat)) }) := by
  rw [File.readTo, h, if_neg hn]

theorem readTo_fst (n : UInt32) : (f.readTo off n v m).1 = f.readi off n := by
  rw [File.readTo]
  split_ifs <;> rfl

/-- The page `j` of a segment of `sz` bytes can be read. -/
def File.Readable (f : File) (off sz : UInt32) (j : ℕ) : Prop :=
  f.readi (off + PGSIZE * j.toUInt32) (chunk sz (PGSIZE * j.toUInt32)) =
    chunk sz (PGSIZE * j.toUInt32)

instance (f : File) (off sz : UInt32) (j : ℕ) : Decidable (f.Readable off sz j) :=
  inferInstanceAs (Decidable (_ = _))

theorem loadLoop_cons (j : ℕ) (l : List ℕ) (m : Ram) : loadLoop d f addr off sz (j :: l) m =
    (walkpgdir d (pageOf (addr + PGSIZE * j.toUInt32))).bind fun x =>
      let m' := (f.readTo (off + PGSIZE * j.toUInt32) (chunk sz (PGSIZE * j.toUInt32))
        (P2V (x.elim 0 Pte.pa)) m).2
      if f.Readable off sz j then loadLoop d f addr off sz l m' else some (false, m') := by
  rw [loadLoop]
  cases walkpgdir d (pageOf (addr + PGSIZE * j.toUInt32)) with
  | none => rfl
  | some x =>
    simp only [Option.bind_some, readTo_fst, ite_not, File.Readable]
    rfl

theorem toNat_chunk {i : UInt32} (hi : i ≤ sz) :
    (chunk sz i).toNat = min 4096 (sz.toNat - i.toNat) := by
  have hsub := UInt32.toNat_sub_of_le _ _ hi
  rw [chunk]
  split_ifs with hlt
  · rw [UInt32.lt_iff_toNat_lt, hsub] at hlt
    change _ < 4096 at hlt
    omega
  · rw [UInt32.lt_iff_toNat_lt, hsub] at hlt
    change ¬_ < 4096 at hlt
    change 4096 = _
    omega

/-- The loop of `loaduvm`, from the page `j` of the segment on. -/
theorem loadLoop_spec (f : File) (off : UInt32) (ho : Owns T m.kmem (d.pages + F))
    (hd : d.MapsUser (npages s))
    (hs : s < KERNBASE) (haddr : addr.toNat % 4096 = 0) (hend : addr.toNat + sz.toNat ≤ s.toNat)
    (hj : j + n = npages sz) (hoff : 0 < n → off.toNat + 4096 * j < 4294967296) :
    ∃ r m',
    loadLoop d f addr off sz (List.range' j n) m = some (r, m') ∧ m'.kmem = m.kmem ∧
      Same T F m m' ∧ (r = true → (0 < n → off.toNat + sz.toNat ≤ f.size.toNat) ∧
        ∀ a, a / 4096 < NUSER → byteAt d m' a =
          if addr.toNat + 4096 * j ≤ a ∧ a < addr.toNat + sz.toNat then
            some (f.byte (off.toNat + (a - addr.toNat))) else byteAt d m a) := by
  induction n generalizing j m with
  | zero =>
    refine ⟨true, m, rfl, rfl, .refl m, fun _ => ⟨by simp, fun a _ => (if_neg ?_).symm⟩⟩
    rw [npages] at hj
    omega
  | succ n ih =>
    -- the round reads the page `j` of the segment, or the rest of it
    have hs' : s.toNat < 2147483648 := UInt32.lt_iff_toNat_lt.1 hs
    have hN := npages_le (UInt32.le_of_lt hs)
    have hjsz : 4096 * j < sz.toNat := by rw [npages] at hj; omega
    have hi := toNat_pages (j := j) (by omega)
    have hva : pageOf (addr + PGSIZE * j.toUInt32) = addr.toNat / 4096 + j := by
      rw [pageOf, UInt32.toNat_add, hi]
      omega
    have hb : addr.toNat / 4096 + j < npages s := by rw [npages]; omega
    obtain ⟨p, hp⟩ := Option.isSome_iff_exists.1 ((hd _ (by omega)).2 hb)
    have hnew : (off + PGSIZE * j.toUInt32).toNat = off.toNat + 4096 * j := by
      rw [UInt32.toNat_add, hi]
      exact Nat.mod_eq_of_lt (hoff n.succ_pos)
    have hwalk : walkpgdir d (pageOf (addr + PGSIZE * j.toUInt32)) = some (some p) := by
      rw [hva, walkpgdir_eq, if_pos (Pgdir.hasTab_of_pte? (by rw [hp]; rfl)), hp]
    have hcn := toNat_chunk (UInt32.le_iff_toNat_le.2 (hi.trans_le hjsz.le))
    rw [hi] at hcn
    rw [List.range'_succ, loadLoop_cons, hwalk, Option.bind_some]
    dsimp only [Option.elim_some]
    have hreadable : f.Readable off sz j ↔ f.readi (off + PGSIZE * j.toUInt32)
      (chunk sz (PGSIZE * j.toUInt32)) = chunk sz (PGSIZE * j.toUInt32) := .rfl
    generalize chunk sz (PGSIZE * j.toUInt32) = c at hcn hreadable
    have hc1 : c ≠ -1 := fun he => by
      rw [he, (by decide : (-1 : UInt32).toNat = 4294967295)] at hcn
      omega
    have hkmem := readTo_kmem f (off + PGSIZE * j.toUInt32) c (P2V p.pa) m
    have hsame : Same T F m (f.readTo (off + PGSIZE * j.toUInt32) c (P2V p.pa) m).2 := fun v hv =>
      readTo_page fun he => notMem_pages ho hv
        (Pgdir.mem_pages_iff.2 (.inr (.inr ⟨_, by omega, p, hp, he.symm⟩)))
    by_cases hread : f.readi (off + PGSIZE * j.toUInt32) c = c
    · rw [if_pos (hreadable.2 hread)]
      have hsize := le_size_of_readi hread hc1
      rw [hnew, hcn] at hsize
      have := f.size.toNat_lt
      have hfull (hn : 0 < n) : off.toNat + 4096 * (j + 1) < 4294967296 := by
        rw [npages] at hj
        omega
      obtain ⟨r, m', hr, hk, hsame', hload⟩ := @ih _ (j + 1) (hkmem ▸ ho) (by omega) hfull
      refine ⟨r, m', hr, hk.trans hkmem, hsame.trans hsame', fun hrt => ?_⟩
      obtain ⟨hsize', hbyte⟩ := hload hrt
      refine ⟨fun _ => ?_, fun a ha => ?_⟩
      · rcases Nat.eq_zero_or_pos n with rfl | hn
        · rw [npages] at hj
          omega
        · exact hsize' hn
      · rw [hbyte a ha, readTo_eq hread hc1, byteAt_update ho (by omega) hp ha, hcn, hnew]
        by_cases hab : a / 4096 = addr.toNat / 4096 + j
        · rw [if_neg (by omega), if_pos hab]
          by_cases hin : a < addr.toNat + sz.toNat
          · rw [if_pos (by omega), Bytes.store_inside (Nat.zero_le _) (by omega), Bytes.drop_apply]
            congr 2
            omega
          · rw [if_neg (by omega), Bytes.store_outside (by omega), byteAt, hab, hp]
            rfl
        · rw [if_neg hab]
          refine if_congr ?_ rfl rfl
          omega
    · rw [if_neg (hread ∘ hreadable.1)]
      exact ⟨false, _, rfl, hkmem, hsame, by simp⟩

/-- `loaduvm` of a segment within the memory of the process. -/
theorem loaduvm_spec (f : File) (off : UInt32) (ho : Owns T m.kmem (d.pages + F))
    (hd : d.MapsUser (npages s))
    (hs : s < KERNBASE) (haddr : addr % PGSIZE = 0) (hend : addr.toNat + sz.toNat ≤ s.toNat) :
    ∃ r m', loaduvm d f addr off sz m = some (r, m') ∧ m'.kmem = m.kmem ∧ Same T F m m' ∧
      (r = true → (0 < sz.toNat → off.toNat + sz.toNat ≤ f.size.toNat) ∧
        ∀ a, a / 4096 < NUSER → byteAt d m' a =
          if addr.toNat ≤ a ∧ a < addr.toNat + sz.toNat then
            some (f.byte (off.toNat + (a - addr.toNat))) else byteAt d m a) := by
  have hmod := congrArg UInt32.toNat haddr
  rw [UInt32.toNat_mod] at hmod
  obtain ⟨r, m', hr, hk, hsame, hload⟩ := loadLoop_spec f off (j := 0) (n := npages sz) ho hd hs
    hmod hend (Nat.zero_add _) fun _ => off.toNat_lt
  refine ⟨r, m', ?_, hk, hsame, fun hrt => ?_⟩
  · rw [loaduvm, if_neg (not_not.2 haddr), List.range_eq_range']
    exact hr
  · obtain ⟨hsize, hbyte⟩ := hload hrt
    refine ⟨fun hpos => hsize (by rw [npages]; omega), hbyte⟩

/-! ## The image -/

theorem top_append (l : List Proghdr) (ph : Proghdr) :
    top (l ++ [ph]) = max (top l) (ph.vaddr.toNat + ph.memsz.toNat) := by
  induction l with
  | nil => simp [top]
  | cons x l ih =>
    simp only [top, List.cons_append, List.map_cons, List.foldr_cons] at ih ⊢
    rw [ih, max_assoc]

theorem image_append (f : File) (l : List Proghdr) (ph : Proghdr) (a : ℕ) :
    image f (l ++ [ph]) a = if ph.Covers a then f.byte (ph.off.toNat + (a - ph.vaddr.toNat))
      else image f l a := by
  rw [image, List.filter_append]
  split_ifs with hc
  · rw [List.filter_singleton, decide_eq_true hc, cond_true, List.getLast?_concat]
  · rw [List.filter_singleton, decide_eq_false hc, cond_false, List.append_nil, image]

/-- Above all the segments there is no byte of the file. -/
theorem image_eq_zero (h : ∀ ph ∈ done, ph.vaddr.toNat + ph.filesz.toNat ≤ a) :
    image f done a = 0 := by
  have hnil : done.filter (fun ph => ph.Covers a) = [] :=
      List.filter_eq_nil_iff.2 fun ph hph hc => by
    have := (of_decide_eq_true hc).2
    have := h ph hph
    omega
  rw [image, hnil]
  rfl

/-- What `exec` has made after loading the segments `l`. -/
structure Loaded (f : File) (l : List Proghdr) (d : Pgdir) (sz : UInt32) (m : Ram) : Prop where
  lt : sz < KERNBASE
  maps : d.MapsUser (npages sz)
  kernel : Kernel d
  size : sz.toNat = top l
  below : ∀ ph ∈ l, ph.vaddr.toNat + ph.filesz.toNat ≤ sz.toNat
  inFile : ∀ ph ∈ l, 0 < ph.filesz.toNat → ph.off.toNat + ph.filesz.toNat ≤ f.size.toNat
  byte : ∀ a, a / 4096 < npages sz → byteAt d m a = some (image f l a)

theorem loaded_blank (h : Blank d) (f : File) (m : Ram) : Loaded f [] d 0 m where
  lt := by decide
  maps b hb := by simp [h.user b hb, npages]
  kernel := h.toKernel
  size := rfl
  below := nofun
  inFile := nofun
  byte a ha := absurd ha (by simp [npages])

theorem toNat_add_of_le {x y : UInt32} (h : x ≤ x + y) : (x + y).toNat = x.toNat + y.toNat := by
  rw [UInt32.le_iff_toNat_le, UInt32.toNat_add] at h
  rw [UInt32.toNat_add]
  have := x.toNat_lt
  have := y.toNat_lt
  omega

/-- A segment is loaded after the segments `done`. -/
theorem Loaded.load (h : Loaded f done d sz m) (ho : Owns T m.kmem (d.pages + F))
    (hmem : ph.filesz ≤ ph.memsz) (hwrap : ph.vaddr ≤ ph.vaddr + ph.memsz) : ∃ s d' m',
    allocuvm d sz (ph.vaddr + ph.memsz) m = some (s, d', m') ∧ Owns T m'.kmem (d'.pages + F) ∧
      Same T F m m' ∧ (s ≠ 0 → ph.vaddr % PGSIZE = 0 → ∃ r m'',
        loaduvm d' f ph.vaddr ph.off ph.filesz m' = some (r, m'') ∧ m''.kmem = m'.kmem ∧
          Same T F m' m'' ∧ (r = true → Loaded f (done ++ [ph]) d' s m'')) := by
  obtain ⟨s, d', m', hr, ho', hsame, hs⟩ :=
    allocuvm_spec ho h.maps h.lt h.kernel (ph.vaddr + ph.memsz)
  refine ⟨s, d', m', hr, ho', hsame, fun h0 halign => ?_⟩
  obtain ⟨hmax, hlt, hk, hmaps, hkept, hfresh⟩ := hs h0
  have hadd := toNat_add_of_le hwrap
  have hmem := UInt32.le_iff_toNat_le.1 hmem
  have hend : ph.vaddr.toNat + ph.filesz.toNat ≤ s.toNat := by omega
  obtain ⟨r, m'', hl, hk', hsame', hload⟩ := loaduvm_spec f ph.off ho' hmaps hlt halign hend
  refine ⟨r, m'', hl, hk', hsame', fun hrt => ?_⟩
  obtain ⟨hsize, hbyte⟩ := hload hrt
  -- before the segment is read, the new pages hold zeros
  have hbefore (a : ℕ) (ha : a / 4096 < npages s) : byteAt d' m' a = some (image f done a) := by
    by_cases hold : a / 4096 < npages sz
    · obtain ⟨hpte, hpage⟩ := hkept _ hold
      rw [← h.byte a hold, byteAt, byteAt, hpte]
      cases hp : d.pte? (a / 4096) with
      | none => rw [Option.map_none, Option.map_none]
      | some p => rw [Option.map_some, Option.map_some, hpage p hp]
    · obtain ⟨p, hp, -, hzero⟩ := hfresh _ (by omega) ha
      rw [byteAt, hp, Option.map_some, hzero, image_eq_zero fun ph hph => ?_]
      · rfl
      · have := h.below ph hph
        rw [npages] at hold
        omega
  refine ⟨hlt, hmaps, hk, ?_, ?_, ?_, fun a ha => ?_⟩
  · rw [hmax, top_append, h.size, hadd]
  · refine List.forall_mem_append.2 ⟨fun x hx => ?_, List.forall_mem_singleton.2 hend⟩
    have := h.below x hx
    omega
  · exact List.forall_mem_append.2 ⟨h.inFile, List.forall_mem_singleton.2 hsize⟩
  · have hN := npages_le (UInt32.le_of_lt hlt)
    rw [hbyte a (by omega), hbefore a ha, image_append, apply_ite some]
    rfl

/-- The loop over the program headers always has a result. -/
theorem loadSegs_spec (h : Loaded f done d sz m) (ho : Owns T m.kmem (d.pages + F)) (n : ℕ)
    (off : UInt32) : ∃ r d' m', loadSegs f n off d sz m = some (r, d', m') ∧
      Owns T m'.kmem (d'.pages + F) ∧ Same T F m m' ∧ ∀ s, r = some s →
        Loaded f (done ++ (f.phs n off).filter fun ph => ph.type = ELF_PROG_LOAD) d' s m' := by
  induction n generalizing done d sz m off with
  | zero =>
    refine ⟨some sz, d, m, rfl, ho, .refl m, fun s hs => ?_⟩
    obtain rfl := Option.some.inj hs
    rw [File.phs, List.filter_nil, List.append_nil]
    exact h
  | succ n ih =>
    simp only [loadSegs]
    by_cases hread : f.readi off 32 ≠ 32
    · rw [if_pos hread]
      exact ⟨none, d, m, rfl, ho, .refl m, nofun⟩
    rw [if_neg hread, File.phs]
    by_cases htype : (f.proghdr off).type ≠ ELF_PROG_LOAD
    · rw [if_pos htype, List.filter_cons_of_neg (by simpa using htype)]
      exact ih h ho _
    rw [if_neg htype, List.filter_cons_of_pos (by simpa using htype)]
    by_cases hmem : (f.proghdr off).memsz < (f.proghdr off).filesz
    · rw [if_pos hmem]
      exact ⟨none, d, m, rfl, ho, .refl m, nofun⟩
    rw [if_neg hmem]
    by_cases hwrap : (f.proghdr off).vaddr + (f.proghdr off).memsz < (f.proghdr off).vaddr
    · rw [if_pos hwrap]
      exact ⟨none, d, m, rfl, ho, .refl m, nofun⟩
    rw [if_neg hwrap]
    obtain ⟨s, d₁, m₁, ha, ho₁, hsame₁, hload⟩ :=
      h.load ho (UInt32.not_lt.1 hmem) (UInt32.not_lt.1 hwrap)
    rw [ha, Option.bind_some]
    by_cases h0 : s = 0
    · rw [if_pos h0]
      exact ⟨none, d₁, m₁, rfl, ho₁, hsame₁, nofun⟩
    rw [if_neg h0]
    by_cases halign : (f.proghdr off).vaddr % PGSIZE ≠ 0
    · rw [if_pos halign]
      exact ⟨none, d₁, m₁, rfl, ho₁, hsame₁, nofun⟩
    rw [if_neg halign]
    obtain ⟨r, m₂, hr, hk, hsame₂, hdone⟩ := hload h0 (not_not.1 halign)
    rw [hr, Option.bind_some]
    have hsame := hsame₁.trans hsame₂
    rw [← hk] at ho₁
    cases r with
    | false => exact ⟨none, d₁, m₂, rfl, ho₁, hsame, nofun⟩
    | true =>
      obtain ⟨r, d', m', hr', ho', hsame', hfinal⟩ := ih (hdone rfl) ho₁ (off + 32)
      refine ⟨r, d', m', hr', ho', hsame.trans hsame', fun s' hs' => ?_⟩
      have := hfinal s' hs'
      rwa [List.append_assoc, List.singleton_append] at this

/-- The directory after `loadProg`. -/
def dir : Except (Option Pgdir) (UInt32 × Pgdir) → Option Pgdir
  | .error x => x
  | .ok (_, d) => some d

theorem loadProg_spec (h : Owns T m.kmem F) (f : File) : ∃ x m', loadProg f m = some (x, m') ∧
    Owns T m'.kmem ((dir x).elim 0 Pgdir.pages + F) ∧ Same T F m m' ∧
      ∀ sz d, x = .ok (sz, d) → Loaded f f.loads d sz m' := by
  rw [loadProg]
  by_cases hread : f.readi 0 52 ≠ 52
  · rw [if_pos hread]
    exact ⟨.error none, m, rfl, h.of_eq (by simp [dir]), .refl m, nofun⟩
  rw [if_neg hread]
  by_cases hmagic : f.elfhdr.magic ≠ ELF_MAGIC
  · rw [if_pos hmagic]
    exact ⟨.error none, m, rfl, h.of_eq (by simp [dir]), .refl m, nofun⟩
  rw [if_neg hmagic]
  obtain ⟨x, m₁, hx, ho₁, hsame₁, hblank⟩ := setupkvm_spec h
  rw [hx, Option.bind_some]
  cases x with
  | none => exact ⟨.error none, m₁, rfl, ho₁, hsame₁, nofun⟩
  | some d =>
    obtain ⟨r, d', m', hr, ho', hsame, hload⟩ :=
      loadSegs_spec (loaded_blank (hblank d rfl) f m₁) ho₁
      f.elfhdr.phnum.toNat f.elfhdr.phoff
    have hsame' : Same T F m m' := Same.trans hsame₁ hsame
    simp only [hr, Option.map_some]
    cases r with
    | none => exact ⟨.error (some d'), m', rfl, ho', hsame', nofun⟩
    | some sz =>
      refine ⟨.ok (sz, d'), m', rfl, ho', hsame', fun s₁ d₁ he => ?_⟩
      obtain ⟨rfl, rfl⟩ := (by simpa using he : sz = s₁ ∧ d' = d₁)
      exact hload sz rfl

/-! ## Without the contents -/

namespace File

/-- The program headers, and how far they can be read. -/
def headers (f : File) : ℕ → UInt32 → List Vm.Proghdr
  | 0, _ => []
  | n + 1, off =>
    let ph := f.proghdr off
    { readable := f.readi off 32 = 32
      load := ph.type = ELF_PROG_LOAD
      vaddr := ph.vaddr
      memsz := ph.memsz
      filesz := ph.filesz
      good := ((List.range (npages ph.filesz)).takeWhile fun j => f.Readable ph.off ph.filesz
        j).length }
    :: headers f n (off + 32)

/-- The program in a file. -/
def program (f : File) (argv : List Arg) : Program where
  header := f.readi 0 52 = 52 ∧ f.elfhdr.magic = ELF_MAGIC
  phs := f.headers f.elfhdr.phnum.toNat f.elfhdr.phoff
  argv := argv

end File

theorem loadLoop_kmem (h : loadLoop d f addr off sz l m = some (r, m')) : m'.kmem = m.kmem := by
  induction l generalizing m with
  | nil =>
    obtain ⟨-, rfl⟩ := (by simpa [loadLoop] using h : true = r ∧ m = m')
    rfl
  | cons j l ih =>
    rw [loadLoop_cons] at h
    obtain ⟨x, -, h⟩ := Option.bind_eq_some_iff.1 h
    dsimp only at h
    split_ifs at h
    · exact (ih h).trans (readTo_kmem ..)
    · obtain ⟨-, rfl⟩ := Prod.mk.inj (Option.some.inj h)
      exact readTo_kmem ..

theorem erase_loadLoop (hl : ∀ j ∈ l, pageOf (addr + PGSIZE * j.toUInt32) < NUSER) (m : Ram) :
    (loadLoop d f addr off sz l m).map Prod.fst =
      Vm.loaduvm d.erase (l.map fun j => pageOf (addr + PGSIZE * j.toUInt32))
        (l.takeWhile fun j => f.Readable off sz j).length := by
  induction l generalizing m with
  | nil => rfl
  | cons j l ih =>
    have hj := hl j List.mem_cons_self
    rw [List.map_cons, loadLoop_cons, List.takeWhile_cons]
    by_cases hread : f.Readable off sz j
    · simp only [decide_eq_true hread, if_true, List.length_cons, Vm.loaduvm, if_pos hread,
        walkpgdir_erase d hj]
      cases walkpgdir d (pageOf (addr + PGSIZE * j.toUInt32)) with
      | none => rfl
      | some x => exact ih (fun i hi => hl i (List.mem_cons_of_mem _ hi)) _
    · simp only [decide_eq_false hread, Bool.false_eq_true, if_false, List.length_nil, Vm.loaduvm,
        if_neg hread, walkpgdir_erase d hj]
      cases walkpgdir d (pageOf (addr + PGSIZE * j.toUInt32)) <;> rfl

theorem pageOf_add_pages (haddr : addr.toNat % 4096 = 0) (h : addr.toNat + 4096 * j < 4294967296) :
    pageOf (addr + PGSIZE * j.toUInt32) = pageOf addr + j := by
  rw [pageOf, pageOf, UInt32.toNat_add, toNat_pages (by omega)]
  omega

/-- `loaduvm` of a segment in user memory. -/
theorem erase_loaduvm (d : Pgdir) (f : File) (off : UInt32) (m : Ram) (haddr : addr % PGSIZE = 0)
    (hend : addr.toNat + sz.toNat ≤ 2147483648) :
    (loaduvm d f addr off sz m).map (Prod.map id Ram.kmem) =
      (Vm.loaduvm d.erase (List.range' (pageOf addr) (npages sz))
        ((List.range (npages sz)).takeWhile fun j => f.Readable off sz j).length).map
        (·, m.kmem) := by
  have hmod := congrArg UInt32.toNat haddr
  rw [UInt32.toNat_mod] at hmod
  replace hmod : addr.toNat % 4096 = 0 := hmod
  have hpage {j : ℕ} (hj : j ∈ List.range (npages sz)) :
      pageOf (addr + PGSIZE * j.toUInt32) = pageOf addr + j := by
    have hj := List.mem_range.1 hj
    rw [npages] at hj
    exact pageOf_add_pages hmod (by omega)
  have hpages : (List.range (npages sz)).map (fun j => pageOf (addr + PGSIZE * j.toUInt32)) =
      List.range' (pageOf addr) (npages sz) := by
    rw [List.map_congr_left fun j hj => hpage hj, List.range'_eq_map_range]
  rw [← hpages, ← erase_loadLoop (fun j hj => ?_) m, Option.map_map, loaduvm,
    if_neg (not_not.2 haddr)]
  · cases hr : loadLoop d f addr off sz (List.range (npages sz)) m with
    | none => rfl
    | some x =>
      obtain ⟨r, m'⟩ := x
      simp only [Option.map_some, Prod.map_apply, id_eq, loadLoop_kmem hr, Function.comp]
  · rw [hpage hj, pageOf]
    have hj := List.mem_range.1 hj
    rw [npages] at hj
    simp only [NUSER]
    omega

theorem erase_allocuvm_kmem (d : Pgdir) (oldsz newsz : UInt32) (m : Ram) :
    (allocuvm d oldsz newsz m).map (Prod.map id (Prod.map Pgdir.erase Ram.kmem)) =
      Vm.allocuvm d.erase oldsz newsz m.kmem := by
  rw [← Ram.erase_allocuvm, ← erase_allocuvm, Option.map_map]
  rfl

theorem lt_of_allocuvm (h : allocuvm d oldsz newsz m = some (s, d', m')) (hs : s ≠ 0) :
    newsz < KERNBASE := by
  rw [allocuvm] at h
  split_ifs at h with hn
  · exact absurd (Prod.mk.inj (Option.some.inj h)).1.symm hs
  all_goals exact UInt32.not_le.1 hn

/-- What loading takes is what it takes in `Xv6.Vm`. -/
theorem erase_loadSegs (n : ℕ) (off : UInt32) (d : Pgdir) (sz : UInt32) (m : Ram) :
    (loadSegs f n off d sz m).map (Prod.map id (Prod.map Pgdir.erase Ram.kmem)) =
      Vm.loadSegs (f.headers n off) d.erase sz m.kmem := by
  induction n generalizing off d sz m with
  | zero => rfl
  | succ n ih =>
    rw [loadSegs, File.headers, Vm.loadSegs]
    dsimp only
    -- the two loops make the same tests, one after the other
    by_cases hread : f.readi off 32 = 32
    swap
    · rw [if_pos hread, if_pos (decide_eq_false hread)]
      rfl
    rw [if_neg (not_not.2 hread), if_neg (ne_false_of_eq_true (decide_eq_true hread))]
    by_cases htype : (f.proghdr off).type = ELF_PROG_LOAD
    swap
    · rw [if_pos htype, if_pos (decide_eq_false htype)]
      exact ih ..
    rw [if_neg (not_not.2 htype), if_neg (ne_false_of_eq_true (decide_eq_true htype))]
    by_cases hmem : (f.proghdr off).memsz < (f.proghdr off).filesz
    · rw [if_pos hmem, if_pos hmem]
      rfl
    rw [if_neg hmem, if_neg hmem]
    by_cases hwrap : (f.proghdr off).vaddr + (f.proghdr off).memsz < (f.proghdr off).vaddr
    · rw [if_pos hwrap, if_pos hwrap]
      rfl
    rw [if_neg hwrap, if_neg hwrap, ← erase_allocuvm_kmem]
    cases ha : allocuvm d sz ((f.proghdr off).vaddr + (f.proghdr off).memsz) m with
    | none => rfl
    | some y =>
      obtain ⟨s, d₁, m₁⟩ := y
      dsimp only [Option.map_some, Option.bind_some, Prod.map_apply, id_eq]
      by_cases hs : s = 0
      · rw [if_pos hs, if_pos hs]
        rfl
      rw [if_neg hs, if_neg hs]
      by_cases halign : (f.proghdr off).vaddr % PGSIZE = 0
      swap
      · rw [if_pos halign, if_pos halign]
        rfl
      rw [if_neg (not_not.2 halign), if_neg (not_not.2 halign)]
      -- the segment is below the size, so `loaduvm` stays in user memory
      have hend : (f.proghdr off).vaddr.toNat + (f.proghdr off).filesz.toNat ≤ 2147483648 := by
        have hlt := UInt32.lt_iff_toNat_lt.1 (lt_of_allocuvm ha hs)
        rw [toNat_add_of_le (UInt32.not_lt.1 hwrap)] at hlt
        have := UInt32.le_iff_toNat_le.1 (UInt32.not_lt.1 hmem)
        change _ < 2147483648 at hlt
        omega
      have hload := erase_loaduvm d₁ f (f.proghdr off).off m₁ halign hend
      rw [segPages]
      dsimp only
      generalize Vm.loaduvm d₁.erase _ _ = z at hload ⊢
      cases hl : loaduvm d₁ f (f.proghdr off).vaddr (f.proghdr off).off (f.proghdr off).filesz
        m₁ with
      | none =>
        rw [hl] at hload
        obtain rfl : z = none := by simpa using hload.symm
        rfl
      | some w =>
        obtain ⟨r, m₂⟩ := w
        rw [hl] at hload
        obtain ⟨r', rfl, he⟩ := Option.map_eq_some_iff.1 hload.symm
        obtain ⟨rfl, hk⟩ := Prod.mk.inj he
        replace hk : m₁.kmem = m₂.kmem := hk
        cases r' with
        | false => exact congrArg (fun k => some (none, d₁.erase, k)) hk.symm
        | true =>
          rw [hk]
          exact ih ..

/-- A file loads if its program does in `Xv6.Vm`. -/
theorem exists_loadProg {d₀ d₁ : Vm.Pgdir} {k₀ k₁ : Kmem} (hread : f.readi 0 52 = 52)
    (hmagic : f.elfhdr.magic = ELF_MAGIC) (hsetup : Vm.setupkvm m.kmem = some (some d₀, k₀))
    (hload : Vm.loadSegs (f.headers f.elfhdr.phnum.toNat f.elfhdr.phoff) d₀ 0 k₀ =
      some (some s, d₁, k₁)) :
    ∃ d m', loadProg f m = some (.ok (s, d), m') ∧ d.erase = d₁ ∧ m'.kmem = k₁ := by
  rw [← erase_setupkvm] at hsetup
  obtain ⟨⟨x, m₀⟩, hx₀, he⟩ := Option.map_eq_some_iff.1 hsetup
  obtain ⟨hx, rfl⟩ := Prod.mk.inj he
  obtain ⟨d, rfl, rfl⟩ := Option.map_eq_some_iff.1 hx
  rw [← erase_loadSegs] at hload
  obtain ⟨⟨y, d', m'⟩, hy, he⟩ := Option.map_eq_some_iff.1 hload
  obtain ⟨rfl, rfl, rfl⟩ := (by simpa using he : y = some s ∧ d'.erase = d₁ ∧ m'.kmem = k₁)
  refine ⟨d', m', ?_, rfl, rfl⟩
  rw [loadProg, if_neg (not_not.2 hread), if_neg (not_not.2 hmagic), hx₀, Option.bind_some]
  dsimp only
  rw [hy]
  rfl

/-! ## Every file -/

/-- Whatever is in the file, `exec` does not panic when it loads it, and if it does not fail, then
    the image is as the program headers say: it ends where the last segment does, and each byte is
    that of the last segment which has one there, or 0. -/
theorem loadProg_exact (h : Owns T m.kmem F) (f : File) : ∃ x m', loadProg f m = some (x, m') ∧
    ∀ sz d, x = .ok (sz, d) → sz.toNat = top f.loads ∧ sz < KERNBASE ∧
      (∀ ph ∈ f.loads, 0 < ph.filesz.toNat → ph.off.toNat + ph.filesz.toNat ≤ f.size.toNat) ∧
      ∀ a < sz.toNat, byteAt d m' a = some (image f f.loads a) := by
  obtain ⟨x, m', hr, -, -, hload⟩ := loadProg_spec h f
  refine ⟨x, m', hr, fun sz d hx => ?_⟩
  have hd := hload sz d hx
  refine ⟨hd.size, hd.lt, hd.inFile, fun a ha => hd.byte a ?_⟩
  rw [npages]
  omega

/-- An ELF file with one segment of one byte, at address 0. -/
def tinyProg : File where
  size := 85
  byte := Bytes.ofList <| [0x7f, 0x45, 0x4c, 0x46] ++ List.replicate 24 0 ++ [52] ++
    List.replicate 15 0 ++ [1] ++ List.replicate 7 0 ++
    [1, 0, 0, 0, 84, 0, 0, 0] ++ List.replicate 8 0 ++ [1, 0, 0, 0, 1] ++ List.replicate 11 0 ++
    [0x90]

theorem loadProg_exact_tinyProg : ∃ m d m', loadProg tinyProg m = some (.ok (1, d), m') ∧
    byteAt d m' 0 = some 0x90 := by
  obtain ⟨k, ho, hh⟩ := exists_kinit
  obtain ⟨d₀, k₀, hsetup, hh₀⟩ := (hh.mono (show 100 + 67 ≤ 57065 by decide)).setupkvm
  obtain ⟨-, hblank⟩ := Vm.setupkvm_spec ho hsetup
  obtain ⟨hpte, -⟩ := hblank d₀ rfl
  obtain ⟨d₁, k₁, halloc, -, hmap⟩ := (hh₀.mono (show 2 + 2 * npages 1 ≤ 100 by decide)).allocuvm
    (d := d₀) 0 1 (by decide) (by decide) fun b _ _ => hpte b
  obtain ⟨q, hq, -⟩ := hmap.user 0 (by decide)
  have hwalk : Vm.walkpgdir d₁ 0 = some (some q) := by
    rw [Vm.walkpgdir_eq, if_pos (Vm.Pgdir.hasTab_of_pte? (by rw [hq]; rfl)), hq]
  have hload : Vm.loadSegs [{ vaddr := 0, memsz := 1, filesz := 1, good := 1 }] d₀ 0 k₀ =
      some (some 1, d₁, k₁) := by
    have hsum : (0 : UInt32) + 1 = 1 := by decide
    have hseg : segPages { vaddr := 0, memsz := 1, filesz := 1, good := 1 } = [0] := by decide
    simp only [Vm.loadSegs, hsum, halloc, hseg, Vm.loaduvm, hwalk, Option.bind_some]
    rfl
  obtain ⟨d, m', hr, -⟩ :=
    exists_loadProg (f := tinyProg) (m := ⟨k, fun _ => Bytes.zero⟩) (by decide)
    (by decide) hsetup hload
  obtain ⟨x, m'', hr', hexact⟩ := loadProg_exact (m := ⟨k, fun _ => Bytes.zero⟩) ho tinyProg
  obtain ⟨rfl, rfl⟩ := Prod.mk.inj (Option.some.inj (hr'.symm.trans hr))
  refine ⟨_, d, m'', hr, ?_⟩
  rw [(hexact 1 d rfl).2.2.2 0 (by decide)]
  decide

end Xv6.Uvm
