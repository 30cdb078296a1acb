import Xv6.Disk.Blocks
import Xv6.Lib.Overwrite

/-!
# Files as byte arrays

`Owned sb s`: each block marked in the bitmap is before the data area or in one place of one inode,
the inodes have exactly the blocks up to their size, and the entries of the inode cache are copies
of the inodes on disk. In such a state `writei` replaces a part of the contents of one inode, and
changes no other (`wp_writei`); `readi` gives the contents (`wp_readi_contents`).
-/

namespace Xv6.Disk

open Prog Function

variable {sb : Superblock} {T : ℕ → Dinode} {A : Set ℕ} {n : ℕ → ℕ} {s s₁ s' : State} {ip jp : Ip}
  {i j b off : ℕ} {src l₁ l₂ : List UInt8} {E : Panic → Prop}

/-! ## The log -/

/-- The blocks of an inode that a write of `len` bytes from `off` on touches. -/
def touched (off len : ℕ) : Finset ℕ := (Finset.Ico off (off + len)).image (· / BSIZE)

theorem mem_touched {len bn : ℕ} :
    bn ∈ touched off len ↔ ∃ o, off ≤ o ∧ o < off + len ∧ o / BSIZE = bn := by
  simp only [touched, Finset.mem_image, Finset.mem_Ico, and_assoc]

theorem touched_mono {a b : ℕ} (h : a ≤ b) : touched off a ⊆ touched off b :=
  Finset.image_subset_image (Finset.Ico_subset_Ico le_rfl (Nat.add_le_add_left h off))

theorem touched_add (off a b : ℕ) : touched off (a + b) = touched off a ∪ touched (off + a) b := by
  rw [touched, touched, touched, ← Finset.image_union, Nat.add_assoc,
    Finset.Ico_union_Ico_eq_Ico (Nat.le_add_right _ _) (by omega)]

theorem touched_block {len : ℕ} (hpos : 0 < len) (h : off % BSIZE + len ≤ BSIZE) :
    touched off len = {off / BSIZE} := by
  ext bn
  rw [mem_touched, Finset.mem_singleton]
  constructor
  · rintro ⟨o, hlo, hhi, rfl⟩
    simp only [BSIZE] at h ⊢
    omega
  · rintro rfl
    exact ⟨off, le_rfl, by omega, rfl⟩

theorem card_touched_le (off len : ℕ) :
    (touched off len).card ≤ nblk (off + len) - off / BSIZE := by
  have hsub : touched off len ⊆ Finset.Ico (off / BSIZE) (nblk (off + len)) := fun bn hbn => by
    obtain ⟨o, hlo, hhi, rfl⟩ := mem_touched.1 hbn
    exact Finset.mem_Ico.2 ⟨Nat.div_le_div_right hlo, div_lt_nblk hhi⟩
  have hle := Finset.card_le_card hsub
  rwa [Nat.card_Ico] at hle

/-- How many blocks at most a write to an inode of `n` blocks passes to `log_write`, without that of
    the inode itself: those it touches, and if some are allocated blocks of the bitmap and the
    indirect block. -/
def blocksLogged (sb : Superblock) (n off len : ℕ) : ℕ :=
  (touched off len).card +
    min (sb.size / BPB + 1) (nptr (max n (nblk (off + len))) - nptr n) +
    if 0 < nptr (max n (nblk (off + len))) - nptr n ∧
      NDIRECT < max n (nblk (off + len)) then 1 else 0

/-- How many blocks at most a write of `len` bytes at `off` to an inode of `size` bytes passes to
    `log_write`. -/
def logged (sb : Superblock) (size off len : ℕ) : ℕ :=
  blocksLogged sb (nblk size) off len + if size < off + len then 1 else 0

theorem blocksLogged_le {n a b k : ℕ} (hle : a ≤ b)
    (hk : (touched off a).card + k ≤ (touched off b).card) :
    blocksLogged sb n off a + k ≤ blocksLogged sb n off b := by
  have hblk : max n (nblk (off + a)) ≤ max n (nblk (off + b)) :=
    max_le_max le_rfl (nblk_mono (Nat.add_le_add_left hle off))
  have hnew : nptr (max n (nblk (off + a))) - nptr n ≤ nptr (max n (nblk (off + b))) - nptr n :=
    Nat.sub_le_sub_right (nptr_mono hblk) _
  simp only [blocksLogged]
  split_ifs <;> omega

/-! ## The loop -/

/-- The bytes `src` were written to the inode `i`, from the offset `off` on. -/
structure Wrote (sb : Superblock) (T : ℕ → Dinode) (A : Set ℕ) (n : ℕ → ℕ) (s : State) (ip : Ip)
    (i off : ℕ) (src : List UInt8) (s' : State) : Prop where
  blocks : Blocks sb (Function.update T i (s'.inode ip).din) s'.disk A
    (Function.update n i (max (n i) (nblk (off + src.length))))
  inside : ∀ k < src.length,
    byte (Function.update T i (s'.inode ip).din) s'.disk i (off + k) = src.getD k 0
  outside : ∀ j ∈ A, ∀ o, o / BSIZE < n j → (j = i → o < off ∨ off + src.length ≤ o) →
    byte (Function.update T i (s'.inode ip).din) s'.disk j o = byte T s.disk j o
  ptr : ∀ q ∈ ptrs A n, target (Function.update T i (s'.inode ip).din) s'.disk q = target T s.disk q
  kept : Kept sb ip s s'
  there : nblk (off + src.length) ≤ n i → (s'.inode ip).din = (s.inode ip).din
  free : (freeBlocks sb s'.disk).card + nptr (max (n i) (nblk (off + src.length))) =
    (freeBlocks sb s.disk).card + nptr (n i)
  log : Logs sb (fun p => target (Function.update T i (s'.inode ip).din) s'.disk (i, p))
    (max (n i) (nblk (off + src.length))) (touched off src.length)
    (nptr (max (n i) (nblk (off + src.length))) - nptr (n i)) s.log s'.log
  data : ∀ bn ∈ touched off src.length,
    target (Function.update T i (s'.inode ip).din) s'.disk (i, .block bn) ∈ s'.log
  card : s'.log.card ≤ max s.log.card (LOGSIZE - 1)

theorem wrote_nil (h : Blocks sb T s.disk A n) (hT : T i = (s.inode ip).din)
    (hoff : off ≤ BSIZE * n i) :
    Wrote sb T A n s ip i off [] s := by
  have hself : update T i (s.inode ip).din = T := by rw [← hT, update_eq_self]
  have hmax : max (n i) (nblk (off + ([] : List UInt8).length)) = n i := by
    rw [max_eq_left]
    simp only [nblk, List.length_nil, BSIZE] at hoff ⊢
    omega
  refine ⟨?_, fun k hk => absurd hk (Nat.not_lt_zero k), ?_, ?_, .refl, fun _ => rfl, ?_,
    Logs.refl.mono (Nat.zero_le _), fun bn hbn => ?_, le_max_left _ _⟩
  · rw [hself, hmax, update_eq_self]
    exact h
  · rw [hself]
    exact fun _ _ _ _ _ => rfl
  · rw [hself]
    exact fun _ _ => rfl
  · rw [hmax]
  · obtain ⟨o, hlo, hhi, -⟩ := mem_touched.1 hbn
    exact absurd hhi (not_lt.2 hlo)

/-- A write is followed by another. -/
theorem Wrote.trans (h : Wrote sb T A n s ip i off l₁ s₁) (hi : i ∈ A)
    (h' : Wrote sb (update T i (s₁.inode ip).din) A
      (update n i (max (n i) (nblk (off + l₁.length)))) s₁ ip i (off + l₁.length) l₂ s') :
    Wrote sb T A n s ip i off (l₁ ++ l₂) s' := by
  have hend : off + (l₁ ++ l₂).length = off + l₁.length + l₂.length := by
    rw [List.length_append, Nat.add_assoc]
  have hmono : nblk (off + l₁.length) ≤ nblk (off + l₁.length + l₂.length) := nblk_mono (by omega)
  have hmax : max (max (n i) (nblk (off + l₁.length))) (nblk (off + l₁.length + l₂.length)) =
      max (n i) (nblk (off + (l₁ ++ l₂).length)) := by
    rw [hend]
    omega
  obtain ⟨hblocks, hinside, houtside, hptr, hkept, hthere, hfree, hlog, hdata, hcard⟩ := h'
  rw [update_idem, update_self, update_idem, hmax] at hblocks
  simp only [update_idem] at hinside houtside hptr
  simp only [update_idem, update_self, hmax] at hlog hdata
  rw [update_self] at hthere hfree
  rw [hmax] at hfree
  have hbelow {o : ℕ} (ho : o < off + l₁.length) :
      o / BSIZE < update n i (max (n i) (nblk (off + l₁.length))) i := by
    rw [update_self]
    exact (div_lt_nblk ho).trans_le (le_max_right _ _)
  have hle (j : ℕ) : n j ≤ update n i (max (n i) (nblk (off + l₁.length))) j := by
    by_cases hj : j = i
    · rw [hj, update_self]
      exact le_max_left _ _
    · rw [update_of_ne hj]
  have hsub (q : ℕ × Ptr) (hq : q ∈ ptrs A n) :
      q ∈ ptrs A (update n i (max (n i) (nblk (off + l₁.length)))) :=
    ⟨hq.1, hq.2.mono (hle q.1)⟩
  refine ⟨hblocks, fun k hk => ?_, fun j hj o ho hout => ?_, fun q hq => ?_, h.kept.trans hkept,
    fun hle' => ?_, ?_, ?_, fun bn hbn => ?_, hcard.trans (max_le h.card (le_max_right _ _))⟩
  · rw [List.length_append] at hk
    by_cases hk₁ : k < l₁.length
    · rw [houtside i hi _ (hbelow (by omega)) fun _ => .inl (by omega), h.inside k hk₁,
        List.getD_append _ _ _ _ hk₁]
    · have hin := hinside (k - l₁.length) (by omega)
      rw [show off + l₁.length + (k - l₁.length) = off + k by omega] at hin
      rw [hin, List.getD_append_right _ _ _ _ (by omega)]
  · rw [hend] at hout
    rw [houtside j hj o (ho.trans_le (hle j)) fun e => by have := hout e; omega,
      h.outside j hj o ho fun e => by have := hout e; omega]
  · rw [hptr q (hsub q hq), h.ptr q hq]
  · rw [hend] at hle'
    rw [hthere (by omega), h.there (by omega)]
  · rw [hfree, h.free]
  · have hle₁ : max (n i) (nblk (off + l₁.length)) ≤ max (n i)
        (nblk (off + (l₁ ++ l₂).length)) := by
      rw [hend]
      omega
    have htrans := h.log.trans hlog hle₁ fun p hp => hptr (i, p) ⟨hi, by rw [update_self]; exact hp⟩
    have hnptr := nptr_mono (le_max_left (n i) (nblk (off + l₁.length)))
    have hnptr₁ := nptr_mono hle₁
    rw [← touched_add, ← List.length_append] at htrans
    exact htrans.mono (by omega)
  · rw [List.length_append, touched_add, Finset.mem_union] at hbn
    obtain hbn | hbn := hbn
    · obtain ⟨o, -, ho, rfl⟩ := mem_touched.1 hbn
      rw [hptr (i, .block (o / BSIZE)) ⟨hi, hbelow ho⟩]
      exact hkept.log (h.data _ hbn)
    · exact hdata bn hbn

/-- The bytes of one block. -/
theorem Grown.wrote (h : Grown sb T A n s ip i (off / BSIZE) b s₁) (hi : i ∈ A)
    (hcard : s₁.log.card < LOGSIZE - 1) (hpos : 0 < src.length)
    (hsrc : off % BSIZE + src.length ≤ BSIZE) {f : Bytes}
    (hf : ∀ k < src.length, f k = src.getD k 0) :
    Wrote sb T A n s ip i off src { s₁ with
      disk := update s₁.disk b ((s₁.disk b).store (off % BSIZE) src.length f)
      log := insert b s₁.log } := by
  have hblk : nblk (off + src.length) = off / BSIZE + 1 := by
    simp only [nblk, BSIZE] at hsrc ⊢
    omega
  have hq : (i, Ptr.block (off / BSIZE)) ∈
      ptrs A (update n i (max (n i) (off / BSIZE + 1))) := by
    refine ⟨hi, ?_⟩
    rw [Ptr.Below, update_self]
    omega
  have hle (j : ℕ) : n j ≤ update n i (max (n i) (off / BSIZE + 1)) j := by
    by_cases hj : j = i
    · rw [hj, update_self]
      exact le_max_left _ _
    · rw [update_of_ne hj]
  have hown := h.blocks.own
  have hb : b ∈ inUse sb s₁.disk := h.found ▸ hown.mem hq
  have hcont : b ∉ inUse sb s₁.disk ∨ ∃ i' bn, (i', Ptr.block bn) ∈
      ptrs A (update n i (max (n i) (off / BSIZE + 1))) ∧
      target (update T i (s₁.inode ip).din) s₁.disk (i', .block bn) = b :=
    .inr ⟨i, off / BSIZE, hq, h.found⟩
  have hbyte {j k : ℕ} (hj : (j, Ptr.block (k / BSIZE)) ∈
      ptrs A (update n i (max (n i) (off / BSIZE + 1)))) :=
    hown.byte_store hq (o := off % BSIZE) (n := src.length) (f := f) hj
  rw [h.found] at hbyte
  have hused : ∀ c < sb.size, used sb (update s₁.disk b
      ((s₁.disk b).store (off % BSIZE) src.length f)) c = used sb s₁.disk c := fun c hc => by
    rw [used, update_of_ne ((BBLOCK_lt hc).trans_le hb.1).ne, used]
  have hmem {p : Ptr} (hp : (i, p) ∈ ptrs A (update n i (max (n i) (off / BSIZE + 1)))) :
      target (update T i (s₁.inode ip).din) (update s₁.disk b
        ((s₁.disk b).store (off % BSIZE) src.length f)) (i, p) =
      target (update T i (s₁.inode ip).din) s₁.disk (i, p) :=
    hown.target_update hcont _ hp.1
  have htouched : touched off src.length = {off / BSIZE} := touched_block hpos hsrc
  refine ⟨⟨fun c hc => ?_, ?_⟩, fun k hk => ?_, fun j hj o ho hout => ?_, fun q hq => ?_,
    h.kept.trans ⟨fun c hc => ?_, rfl, fun _ _ => rfl, rfl, rfl, rfl, Finset.subset_insert _ _⟩,
    fun hle' => ?_, ?_, ?_, fun bn hbn => ?_,
    ((Finset.card_insert_le _ _).trans hcard).trans (le_max_right _ _)⟩
  · rw [hused c (hc.trans (hb.1.trans_lt hb.2.1)), h.blocks.low c hc]
  · rw [hblk, inUse_congr hused]
    exact hown.write hcont _
  · have hdiv : (off + k) / BSIZE = off / BSIZE := by simp only [BSIZE] at hsrc ⊢; omega
    have hmod : (off + k) % BSIZE = off % BSIZE + k := by simp only [BSIZE] at hsrc ⊢; omega
    rw [hbyte (by rw [hdiv]; exact hq), hmod, if_pos ⟨⟨rfl, hdiv⟩, by omega⟩,
      Nat.add_sub_cancel_left,
      hf k hk]
  · rw [hbyte ⟨hj, ho.trans_le (hle j)⟩, if_neg, h.same.byte_eq ⟨hj, ho⟩]
    rintro ⟨⟨rfl, hdiv⟩, hlo, hhi⟩
    have := hout rfl
    simp only [BSIZE] at hdiv hlo hhi
    omega
  · exact (hown.target_update hcont _ hq.1).trans (h.ptr q hq)
  · have := bmapstart_lt sb
    have := hb.1
    exact update_of_ne (by omega) ..
  · exact congrArg (fun s => (s.inode ip).din) (h.there (by omega))
  · have hfree := h.free
    rw [hblk, freeBlocks_congr hused, hfree]
  · rw [hblk, htouched]
    refine Logs.data (h.log.of_eq fun p hp => ?_) (Finset.mem_singleton_self _) (by omega)
      ((hmem hq).trans h.found).symm
    exact hmem ⟨hi, by rw [update_self]; exact hp⟩
  · rw [htouched, Finset.mem_singleton] at hbn
    rw [hbn, hmem hq, h.found]
    exact Finset.mem_insert_self _ _

/-- What is in the log when the next block of a write is allocated. -/
theorem Wrote.card_alloc {t : Ptr → ℕ} {l : Finset ℕ} {N len : ℕ}
    (h : Wrote sb T A n s ip i off l₁ s₁)
    (hN : max (n i) (nblk (off + l₁.length)) = N)
    (ht : ∀ p : Ptr, p.Below N → t p = target (update T i (s₁.inode ip).din) s₁.disk (i, p))
    (hl : Logs sb t (N + 1) {N} (nptr (N + 1) - nptr N) s₁.log l)
    (hbn : (off + l₁.length) / BSIZE = N) (hlt : l₁.length < len) :
    n i < nblk (off + len) ∧ l.card ≤ s.log.card + blocksLogged sb (n i) off len := by
  subst hN
  have hlog := (h.log.trans hl (Nat.le_succ _) ht).card_le
  have hblk : (off + l₁.length) / BSIZE < nblk (off + len) := div_lt_nblk (by omega)
  have hsub : touched off l₁.length ∪ {max (n i) (nblk (off + l₁.length))} ⊆ touched off len :=
    Finset.union_subset (touched_mono hlt.le) (Finset.singleton_subset_iff.2
      (mem_touched.2 ⟨off + l₁.length, Nat.le_add_right _ _, by omega, hbn⟩))
  have hcard := Finset.card_le_card hsub
  have hnptr := nptr_mono (le_max_left (n i) (nblk (off + l₁.length)))
  have hnptr₁ := nptr_succ_pos (max (n i) (nblk (off + l₁.length)))
  have hnptr₂ : nptr (max (n i) (nblk (off + l₁.length)) + 1) ≤ nptr
      (max (n i) (nblk (off + len))) :=
    nptr_mono (by omega)
  refine ⟨by omega, ?_⟩
  simp only [blocksLogged]
  split_ifs at hlog ⊢ <;> omega

/-- The loop of `writei`, when it has written the bytes `l₁` up to the end of a block. -/
theorem wp_writeiLoop {Q : ℕ → State → Prop} (hsb : sb.Apart) (hi : i ∈ A) (hop : 0 < s.outstanding)
    (hmax : off + src.length ≤ MAXFILE * BSIZE)
    (hQ : ∀ s', Wrote sb T A n s ip i off src s' → Q (off + src.length) s')
    (hfull : (freeBlocks sb s.disk).card + nptr (n i) < nptr (max (n i) (nblk (off + src.length))) →
      E .outOfBlocks)
    (hbig : LOGSIZE - 1 < s.log.card + blocksLogged sb (n i) off src.length +
      (if n i < nblk (off + src.length) then 1 else 0) → E .tooBig) (fuel : ℕ) :
    ∀ {s₁ : State} {l₁ l₂ : List UInt8}, Wrote sb T A n s ip i off l₁ s₁ → l₁ ++ l₂ = src →
      (l₁ = [] ∨ l₂ = [] ∨ (off + l₁.length) % BSIZE = 0) → l₂.length ≤ fuel →
      wp (writeiLoop sb ip fuel (off + l₁.length) l₂) Q E s₁ := by
  have hend {s₁ : State} {l₁ l₂ : List UInt8} (hw : Wrote sb T A n s ip i off l₁ s₁)
      (hsrc : l₁ ++ l₂ = src) (h0 : l₂.length = 0) : Q (off + l₁.length) s₁ := by
    rw [List.length_eq_zero_iff.1 h0, List.append_nil] at hsrc
    rw [hsrc]
    exact hQ s₁ (hsrc ▸ hw)
  induction fuel with
  | zero => exact fun hw hsrc _ hfuel => hend hw hsrc (Nat.le_zero.1 hfuel)
  | succ fuel ih =>
    intro s₁ l₁ l₂ hw hsrc hbound hfuel
    rw [writeiLoop]
    refine wp_ite (fun h0 => hend hw hsrc h0) fun h0 => ?_
    have hlen : l₁.length + l₂.length = src.length := by rw [← hsrc, List.length_append]
    obtain ⟨o, ho⟩ : ∃ o, o = off + l₁.length := ⟨_, rfl⟩
    obtain ⟨N, hN⟩ : ∃ N, max (n i) (nblk (off + l₁.length)) = N := ⟨_, rfl⟩
    have hnew : update n i (max (n i) (nblk (off + l₁.length))) i = N := by rw [update_self, hN]
    have hblk : nblk o = (o + 511) / 512 := rfl
    have hop₁ : 0 < s₁.outstanding := hw.kept.outstanding ▸ hop
    have hblk' : o / BSIZE < nblk (off + src.length) := div_lt_nblk (by omega)
    -- a block is allocated, and the log is full
    have halloc (t : Ptr → ℕ) (l : Finset ℕ)
        (ht : ∀ p : Ptr, p.Below N → t p = target (update T i (s₁.inode ip).din) s₁.disk (i, p))
        (hl : Logs sb t (N + 1) {N} (nptr (N + 1) - nptr N) s₁.log l) (hbn : o / BSIZE = N)
        (hcard : LOGSIZE - 1 ≤ l.card) : E .tooBig := by
      obtain ⟨hgrow, hle⟩ :=
        hw.card_alloc hN ht hl (ho ▸ hbn) (show l₁.length < src.length by omega)
      refine hbig ?_
      rw [if_pos hgrow]
      omega
    have hle : o / BSIZE ≤ N := by
      rw [← hN, ← ho, hblk]
      simp only [BSIZE]
      omega
    rw [wp_bind, ← ho]
    refine wp_bmap_grow hsb hw.blocks hi (update_self ..) hop₁ (hnew ▸ hle)
      (by simp only [BSIZE, MAXFILE, NDIRECT, NINDIRECT] at hmax ⊢; omega) (fun b s₂ hg => ?_)
      (fun hlt => hfull ?_) fun t l ht hl hbn => ?_
    · obtain ⟨k, hk⟩ : ∃ k, k = min l₂.length (BSIZE - o % BSIZE) := ⟨_, rfl⟩
      have hpos : 0 < k := by simp only [BSIZE] at hk; omega
      have htake : (l₂.take k).length = k := by rw [List.length_take]; omega
      rw [wp_bind, wp_bread, wp_bind, ← hk]
      refine wp_logWrite (hg.kept.outstanding ▸ hop₁) (fun hcard => ?_) fun hcard => ?_
      · have hf : ∀ j < (l₂.take k).length, Bytes.ofList l₂ j = (l₂.take k).getD j 0 :=
            fun j hj => by
          rw [htake] at hj
          rw [Bytes.ofList, List.getD_eq_getElem?_getD, List.getD_eq_getElem?_getD,
            List.getElem?_take_of_lt hj]
        have hw₂ := hg.wrote hi hcard (by omega) (by simp only [BSIZE] at hk htake ⊢; omega) hf
        rw [htake, ho] at hw₂
        have hrest :=
          ih (hw.trans hi hw₂) (by rw [List.append_assoc, List.take_append_drop, hsrc]) ?_
          (show (l₂.drop k).length ≤ fuel by rw [List.length_drop]; omega)
        · rw [List.length_append, htake, ← Nat.add_assoc, ← ho] at hrest
          exact hrest
        · rw [List.length_append, htake, ← Nat.add_assoc, ← ho, ← List.length_eq_zero_iff,
            ← List.length_eq_zero_iff, List.length_drop]
          simp only [BSIZE] at hk ⊢
          omega
      · by_cases hbn : o / BSIZE < N
        · -- nothing was allocated, and this block is not one of those before
          rw [hg.there (hnew ▸ hbn)] at hcard
          have hlog := hw.log.card_le
          have hnot : o / BSIZE ∉ touched off l₁.length := fun hmem => by
            obtain ⟨x, hlo, hhi, hx⟩ := mem_touched.1 hmem
            rw [← List.length_eq_zero_iff, ← List.length_eq_zero_iff] at hbound
            simp only [BSIZE] at hx hbound
            omega
          have hsub : insert (o / BSIZE) (touched off l₁.length) ⊆ touched off src.length :=
            Finset.insert_subset (mem_touched.2 ⟨o, by omega, by omega, rfl⟩)
            (touched_mono (by omega))
          have hstrict := Finset.card_le_card hsub
          rw [Finset.card_insert_of_notMem hnot] at hstrict
          have hle' : blocksLogged sb (n i) off l₁.length + 1 ≤ _ :=
            blocksLogged_le (by omega) hstrict
          simp only [blocksLogged] at hle'
          exact hbig (by simp only [blocksLogged]; omega)
        · have hbn : o / BSIZE = N := by omega
          have hlog := hg.log
          rw [hbn, hnew, max_eq_right (Nat.le_succ N)] at hlog
          exact halloc _ _ (fun p hp => hg.ptr (i, p) ⟨hi, by rw [hnew]; exact hp⟩) hlog hbn hcard
    · have hfree := hw.free
      have hmono : nptr (max N (o / BSIZE + 1)) ≤ nptr (max (n i) (nblk (off + src.length))) :=
        nptr_mono
        (by rw [← hN]; have := nblk_mono (show off + l₁.length ≤ off + src.length by omega); omega)
      rw [hN] at hfree
      rw [hnew] at hlt
      omega
    · rw [hnew] at ht hl hbn
      exact halloc t l ht hl hbn

/-! ## The state -/

namespace Blocks

variable {T' : ℕ → Dinode} {d d' : Sectors} {n' : ℕ → ℕ}

theorem congr (h : Blocks sb T d A n) (hT : ∀ i ∈ A, T' i = T i) (hn : ∀ i ∈ A, n' i = n i) :
    Blocks sb T' d A n' := by
  have hptrs : ptrs A n' = ptrs A n := Set.ext fun q => and_congr_right fun hq => by rw [hn q.1 hq]
  refine ⟨h.low, hptrs ▸ h.own.congr fun q hq _ => ?_⟩
  rw [target, hT q.1 hq, target]

section Low

variable (h : Blocks sb T d A n) (hd : ∀ b, sb.bmapstart ≤ b → d' b = d b)
  (hT : ∀ i ∈ A, (T' i).addrs = (T i).addrs)

include h hd hT

/-- What is before the bitmap does not matter, nor what is in the inodes besides the addresses. -/
theorem target_low {q : ℕ × Ptr} (hq : q.1 ∈ A) : target T' d' q = target T d q := by
  refine (Dinode.ptr_of_addrs (hT q.1 hq)).trans (Dinode.ptr_congr fun hx => hd _ ?_)
  have hmem := h.own.mem ((h.own.mem_indirect_iff hq).2 hx)
  exact (bmapstart_lt sb).le.trans hmem.1

theorem of_low (hsb : sb.Apart) : Blocks sb T' d' A n := by
  have hused (b : ℕ) (_ : b < sb.size) : used sb d' b = used sb d b := by
    rw [used, hd _ le_BBLOCK, used]
  refine ⟨fun b hb => (hused b (hb.trans_le hsb.data)).trans (h.low b hb), ?_⟩
  rw [inUse_congr hused]
  exact h.own.congr fun q hq _ => h.target_low hd hT hq

theorem byte_low (hj : j ∈ A) {o : ℕ} (ho : o / BSIZE < n j) : byte T' d' j o = byte T d j o := by
  have hmem := h.own.mem (q := (j, .block (o / BSIZE))) ⟨hj, ho⟩
  rw [byte, h.target_low hd hT hj, hd _ ((bmapstart_lt sb).le.trans hmem.1), byte]

end Low

end Blocks

/-- The inodes that are allocated. -/
def allocated (sb : Superblock) (d : Sectors) : Set ℕ :=
  {i | i < sb.ninodes ∧ (dinode sb d i).type ≠ 0}

/-- The contents of an inode. -/
def contents (sb : Superblock) (d : Sectors) (i : ℕ) : List UInt8 :=
  (dinode sb d i).bytes d 0 (dinode sb d i).size.toNat

/-- Each block that is marked as in use is before the data area, or in one place of one allocated
    inode, which has all the blocks up to its size and no others; and the inode cache has copies of
    allocated inodes, one of each. -/
structure Owned (sb : Superblock) (s : State) : Prop where
  blocks : Blocks sb (dinode sb s.disk) s.disk (allocated sb s.disk)
    fun i => nblk (dinode sb s.disk i).size.toNat
  sync : ∀ ip, 0 < (s.inode ip).ref → (s.inode ip).valid = true →
    (s.inode ip).inum ∈ allocated sb s.disk ∧ (s.inode ip).din = dinode sb s.disk (s.inode ip).inum
  uniq : ∀ ip jp, 0 < (s.inode ip).ref → 0 < (s.inode jp).ref →
    (s.inode ip).inum = (s.inode jp).inum → ip = jp

/-- The entry is in use, and has a copy of the inode. -/
structure Loaded (s : State) (ip : Ip) : Prop where
  ref : 0 < (s.inode ip).ref
  valid : (s.inode ip).valid = true

theorem Owned.mem (h : Owned sb s) (hip : Loaded s ip) : (s.inode ip).inum ∈ allocated sb s.disk :=
  (h.sync ip hip.ref hip.valid).1

theorem Owned.din (h : Owned sb s) (hip : Loaded s ip) :
    (s.inode ip).din = dinode sb s.disk (s.inode ip).inum := (h.sync ip hip.ref hip.valid).2

theorem length_bytes (x : Dinode) (d : Sectors) (off n : ℕ) : (x.bytes d off n).length = n := by
  rw [Dinode.bytes, List.length_map, List.length_range]

@[simp] theorem length_contents (sb : Superblock) (d : Sectors) (i : ℕ) :
    (contents sb d i).length = (dinode sb d i).size.toNat := length_bytes _ _ _ _

theorem getElem?_contents (sb : Superblock) (d : Sectors) (i k : ℕ) : (contents sb d i)[k]? =
    if k < (dinode sb d i).size.toNat then some ((dinode sb d i).byte d k) else none := by
  split_ifs with hk
  · rw [contents, Dinode.bytes, List.getElem?_map, List.getElem?_range hk, Option.map_some,
      Nat.zero_add]
  · exact List.getElem?_eq_none (by rw [length_contents]; omega)

/-- A part of the contents. -/
theorem drop_take_contents {sb : Superblock} {d : Sectors} {i off n : ℕ}
    (h : off + n ≤ (dinode sb d i).size.toNat) :
    ((contents sb d i).drop off).take n = (dinode sb d i).bytes d off n := by
  refine List.ext_getElem? fun k => ?_
  by_cases hk : k < n
  · rw [List.getElem?_take_of_lt hk, List.getElem?_drop, contents, Dinode.bytes, Dinode.bytes,
      List.getElem?_map, List.getElem?_map, List.getElem?_range (by omega), List.getElem?_range hk,
      Option.map_some, Option.map_some, Nat.zero_add]
  · rw [List.getElem?_eq_none (by rw [List.length_take]; omega),
      List.getElem?_eq_none (by rw [length_bytes]; omega)]

theorem Owned.size_le (h : Owned sb s) (hi : i ∈ allocated sb s.disk) :
    (dinode sb s.disk i).size.toNat ≤ MAXFILE * BSIZE := by
  rcases Nat.eq_zero_or_pos (dinode sb s.disk i).size.toNat with h0 | hpos
  · omega
  · have hq : (i, Ptr.block (((dinode sb s.disk i).size.toNat - 1) / BSIZE)) ∈
        ptrs (allocated sb s.disk) fun i => nblk (dinode sb s.disk i).size.toNat :=
      ⟨hi, div_lt_nblk (Nat.sub_lt hpos one_pos)⟩
    have hlt : ((dinode sb s.disk i).size.toNat - 1) / BSIZE < MAXFILE :=
      (h.blocks.own.valid _ hq).2
    simp only [BSIZE] at hlt ⊢
    omega

/-- The blocks up to the size are there. -/
theorem Owned.there (h : Owned sb s) (hi : i ∈ allocated sb s.disk) :
    There (dinode sb s.disk i) s.disk 0 (dinode sb s.disk i).size.toNat := fun o _ ho => by
  have hq : (i, Ptr.block (o / BSIZE)) ∈
      ptrs (allocated sb s.disk) fun i => nblk (dinode sb s.disk i).size.toNat :=
    ⟨hi, div_lt_nblk (show o < (dinode sb s.disk i).size.toNat by omega)⟩
  exact ⟨(h.blocks.own.valid _ hq).2, (h.blocks.own.ne_zero hq :)⟩

/-- `readi` gives the contents, up to their end. -/
theorem wp_readi_contents {off n : ℕ} {Q : Option (List UInt8) → State → Prop} (h : Owned sb s)
    (hip : Loaded s ip) (htype : (s.inode ip).din.type ≠ T_DEV)
    (hoff : off ≤ (contents sb s.disk (s.inode ip).inum).length) (hn : off + n < 2 ^ 32)
    (hQ : Q (some (((contents sb s.disk (s.inode ip).inum).drop off).take n)) s) :
    wp (readi sb ip off n) Q E s := by
  have hdin := h.din hip
  rw [length_contents] at hoff
  have hthere {off' n' : ℕ} (hle : off' + n' ≤ (dinode sb s.disk (s.inode ip).inum).size.toNat) :
      There (s.inode ip).din s.disk off' n' := fun o hlo hhi => by
    rw [hdin]
    exact h.there (h.mem hip) o (Nat.zero_le _) (by omega)
  by_cases hend : off + n ≤ (dinode sb s.disk (s.inode ip).inum).size.toNat
  · refine wp_readi htype (by rw [hdin]; exact hend) (hthere hend) ?_
    rw [hdin, ← drop_take_contents hend]
    exact hQ
  · rw [readi, wp_bind, wp_getInode, if_neg htype, if_neg, if_pos, wp_bind]
    · refine wp_readiLoop _ le_rfl (hthere (by rw [hdin]; omega)) ?_
      have htake : ((contents sb s.disk (s.inode ip).inum).drop off).take n =
          ((contents sb s.disk (s.inode ip).inum).drop off).take
            ((dinode sb s.disk (s.inode ip).inum).size.toNat - off) := by
        rw [List.take_of_length_le, List.take_of_length_le]
        · rw [List.length_drop, length_contents]
        · rw [List.length_drop, length_contents]
          omega
      rw [htake, drop_take_contents (by omega)] at hQ
      rw [hdin]
      exact hQ
    · rw [hdin]
      omega
    · rw [hdin, Nat.mod_eq_of_lt hn]
      omega

/-! ## Locks -/

/-- The entry is locked, and has a copy of the inode. -/
def State.lock (sb : Superblock) (s : State) (ip : Ip) : State :=
  s.setInode ip { s.inode ip with
    lock := true, valid := true, din := dinode sb s.disk (s.inode ip).inum }

/-- The entry `ip` is unlocked. -/
def State.unlock (s : State) (ip : Ip) : State := s.setInode ip { s.inode ip with lock := false }

/-- One entry changes, and still has the inode that it had. -/
theorem Owned.setInode {x : Inode} (h : Owned sb s) (href : x.ref = (s.inode ip).ref)
    (hinum : x.inum = (s.inode ip).inum)
    (hsync : 0 < x.ref → x.valid = true →
      x.inum ∈ allocated sb s.disk ∧ x.din = dinode sb s.disk x.inum) :
      Owned sb (s.setInode ip x) := by
  have hsame (jp : Ip) : ((s.setInode ip x).inode jp).ref = (s.inode jp).ref ∧
      ((s.setInode ip x).inode jp).inum = (s.inode jp).inum := by
    by_cases hjp : jp = ip
    · rw [hjp, State.setInode_self]
      exact ⟨href, hinum⟩
    · rw [State.setInode_of_ne hjp]
      exact ⟨rfl, rfl⟩
  refine ⟨h.blocks, fun jp hj hv => ?_, fun jp kp hj hk he => ?_⟩
  · by_cases hjp : jp = ip
    · rw [hjp, State.setInode_self] at hj hv ⊢
      exact hsync hj hv
    · rw [State.setInode_of_ne hjp] at hj hv ⊢
      exact h.sync jp hj hv
  · rw [(hsame _).1] at hj hk
    rw [(hsame _).2, (hsame _).2] at he
    exact h.uniq jp kp hj hk he

theorem Owned.lock (h : Owned sb s) (hmem : (s.inode ip).inum ∈ allocated sb s.disk) :
    Owned sb (s.lock sb ip) := h.setInode rfl rfl fun _ _ => ⟨hmem, rfl⟩

theorem Owned.unlock (h : Owned sb s) : Owned sb (s.unlock ip) := h.setInode rfl rfl (h.sync ip)

theorem loaded_lock (href : 0 < (s.inode ip).ref) : Loaded (s.lock sb ip) ip := by
  constructor
  · rw [State.lock, State.setInode_self]
    exact href
  · rw [State.lock, State.setInode_self]

/-- Locking an inode that is not locked. -/
theorem Owned.wp_ilock {Q : Unit → State → Prop} (h : Owned sb s) (href : 0 < (s.inode ip).ref)
    (hlock : (s.inode ip).lock = false) (hmem : (s.inode ip).inum ∈ allocated sb s.disk)
    (hQ : Q () (s.lock sb ip)) : wp (ilock sb ip) Q E s := by
  refine Disk.wp_ilock href (fun ht => nomatch hlock.symm.trans ht) (fun hv => ?_) (fun _ _ => hQ)
    fun _ h0 => absurd h0 hmem.2
  rw [State.lock, ← (h.sync ip href hv).2] at hQ
  have he : { s.inode ip with lock := true, valid := true } = { s.inode ip with lock := true } := by
    rw [← hv]
  rwa [he] at hQ

/-! ## `writei` -/

/-- The bytes `src` are in the inode of the entry `ip`, from `off` on; nothing else is changed. -/
structure Writes (sb : Superblock) (s : State) (ip : Ip) (src : List UInt8) (off : ℕ) (s' : State) :
    Prop where
  owned : Owned sb s'
  contents : contents sb s'.disk (s.inode ip).inum =
    overwrite (contents sb s.disk (s.inode ip).inum) off src
  unchanged : ∀ j ∈ allocated sb s.disk, j ≠ (s.inode ip).inum →
    Disk.contents sb s'.disk j = Disk.contents sb s.disk j
  din : ∃ addrs, dinode sb s'.disk (s.inode ip).inum =
    { dinode sb s.disk (s.inode ip).inum with
      size := .ofNat (max (dinode sb s.disk (s.inode ip).inum).size.toNat (off + src.length))
      addrs := addrs }
  rest : ∀ j < sb.ninodes, j ≠ (s.inode ip).inum → dinode sb s'.disk j = dinode sb s.disk j
  entry : s'.inode ip = { s.inode ip with din := dinode sb s'.disk (s.inode ip).inum }
  others : ∀ jp, jp ≠ ip → s'.inode jp = s.inode jp
  file : s'.file = s.file
  proc : s'.proc = s.proc
  free : (freeBlocks sb s'.disk).card + nptr
    (nblk (Disk.contents sb s'.disk (s.inode ip).inum).length) =
    (freeBlocks sb s.disk).card + nptr (nblk (Disk.contents sb s.disk (s.inode ip).inum).length)
  log : s'.log.card ≤ s.log.card +
    logged sb (dinode sb s.disk (s.inode ip).inum).size.toNat off src.length
  data : ∀ bn ∈ touched off src.length,
    target (dinode sb s'.disk) s'.disk ((s.inode ip).inum, .block bn) ∈ s'.log
  card : s'.log.card ≤ max s.log.card (LOGSIZE - 1)

theorem nblk_max (a b : ℕ) : nblk (max a b) = max (nblk a) (nblk b) := by
  rcases le_total a b with h | h
  · rw [max_eq_right h, max_eq_right (nblk_mono h)]
  · rw [max_eq_left h, max_eq_left (nblk_mono h)]

/-- What is known of a write when the inode is on disk again, with its size. -/
theorem Wrote.writes (hsb : sb.Apart) (h : Owned sb s) (hip : Loaded s ip)
    (hw : Wrote sb (dinode sb s.disk) (allocated sb s.disk)
      (fun i => nblk (dinode sb s.disk i).size.toNat) s ip (s.inode ip).inum off src s₁)
    (hoff : off ≤ (dinode sb s.disk (s.inode ip).inum).size.toNat)
    (hend : off + src.length ≤ MAXFILE * BSIZE)
    (hdisk : ∀ b, b ≠ IBLOCK sb (s.inode ip).inum → s'.disk b = s₁.disk b)
    (hdin : dinode sb s'.disk (s.inode ip).inum = { (s₁.inode ip).din with
      size := .ofNat (max (dinode sb s.disk (s.inode ip).inum).size.toNat (off + src.length)) })
    (hrest : ∀ j, j ≠ (s.inode ip).inum → dinode sb s'.disk j = dinode sb s₁.disk j)
    (hentry : s'.inode ip = { s.inode ip with din := dinode sb s'.disk (s.inode ip).inum })
    (hothers : ∀ jp, jp ≠ ip → s'.inode jp = s₁.inode jp)
    (hfile : s'.file = s₁.file) (hproc : s'.proc = s₁.proc)
    (hlog : s'.log = s₁.log ∨ (dinode sb s.disk (s.inode ip).inum).size.toNat < off + src.length ∧
      s₁.log.card < LOGSIZE - 1 ∧ s'.log = insert (IBLOCK sb (s.inode ip).inum) s₁.log) :
    Writes sb s ip src off s' := by
  obtain ⟨i, hi⟩ : ∃ i, i = (s.inode ip).inum := ⟨_, rfl⟩
  have hmem := h.mem hip
  have hdin₀ := h.din hip
  rw [← hi] at hw hoff hdisk hdin hrest hentry hlog hmem hdin₀
  have hsize : (dinode sb s'.disk i).size.toNat =
      max (dinode sb s.disk i).size.toNat (off + src.length) := by
    have hle := h.size_le hmem
    rw [hdin]
    change (UInt32.ofNat _).toNat = _
    rw [UInt32.toNat_ofNat', Nat.mod_eq_of_lt]
    simp only [MAXFILE, NDIRECT, NINDIRECT, BSIZE] at hle hend
    omega
  have hrest' (j : ℕ) (hj : j < sb.ninodes) (hne : j ≠ i) : dinode sb s'.disk j =
      dinode sb s.disk j :=
    (hrest j hne).trans (hw.kept.dinode_eq hsb hj)
  -- the inode is below the bitmap, so the blocks of the files are as the loop left them
  have hlow (b : ℕ) (hb : sb.bmapstart ≤ b) : s'.disk b = s₁.disk b :=
    hdisk b (by have := hsb.IBLOCK_lt hmem.1; omega)
  have haddrs : ∀ j ∈ allocated sb s.disk, (dinode sb s'.disk j).addrs =
      (update (dinode sb s.disk) i (s₁.inode ip).din j).addrs := fun j hj => by
    by_cases hne : j = i
    · rw [hne, hdin, update_self]
    · rw [hrest' j hj.1 hne, update_of_ne hne]
  have htype : (s₁.inode ip).din.type = (dinode sb s.disk i).type := by rw [hw.kept.entry, hdin₀]
  have halloc : allocated sb s'.disk = allocated sb s.disk := by
    ext j
    refine and_congr_right fun hj => ?_
    by_cases hne : j = i
    · rw [hne, hdin]
      dsimp only
      rw [htype]
    · rw [hrest' j hj hne]
  have hblk (j : ℕ) (hj : j ∈ allocated sb s.disk) : nblk (dinode sb s'.disk j).size.toNat =
      update (fun i => nblk (dinode sb s.disk i).size.toNat) i
        (max (nblk (dinode sb s.disk i).size.toNat) (nblk (off + src.length))) j := by
    by_cases hne : j = i
    · rw [hne, update_self, hsize, nblk_max]
    · rw [hrest' j hj.1 hne, update_of_ne hne]
  have hbyte (j : ℕ) (hj : j ∈ allocated sb s.disk) (o : ℕ)
    (ho : o < (dinode sb s'.disk j).size.toNat) :
      (dinode sb s'.disk j).byte s'.disk o =
        byte (update (dinode sb s.disk) i (s₁.inode ip).din) s₁.disk j o :=
    hw.blocks.byte_low hlow haddrs hj (by rw [← hblk j hj]; exact div_lt_nblk ho)
  have hcache (jp : Ip) : (s'.inode jp).inum = (s.inode jp).inum ∧
    (s'.inode jp).ref = (s.inode jp).ref ∧
      (s'.inode jp).valid = (s.inode jp).valid := by
    by_cases hjp : jp = ip
    · rw [hjp, hentry]
      exact ⟨rfl, rfl, rfl⟩
    · rw [hothers jp hjp, hw.kept.others jp hjp]
      exact ⟨rfl, rfl, rfl⟩
  refine ⟨⟨?_, fun jp href hvalid => ?_, fun jp kp hj hk he => ?_⟩, ?_, fun j hj hne => ?_,
    ⟨(s₁.inode ip).din.addrs, ?_⟩, fun j hj hne => hrest' j hj (hi ▸ hne), hi ▸ hentry,
    fun jp hjp => (hothers jp hjp).trans (hw.kept.others jp hjp), hfile.trans hw.kept.file,
    hproc.trans hw.kept.proc, ?_, ?_, fun bn hbn => ?_, ?_⟩
  · rw [halloc]
    exact (hw.blocks.of_low hlow haddrs hsb).congr (fun _ _ => rfl) hblk
  · obtain ⟨hinum, href', hvalid'⟩ := hcache jp
    rw [href'] at href
    rw [hvalid'] at hvalid
    obtain ⟨hin, hsync⟩ := h.sync jp href hvalid
    rw [halloc, hinum]
    refine ⟨hin, ?_⟩
    by_cases hjp : jp = ip
    · rw [hjp, hentry, ← hi]
    · have hne : (s.inode jp).inum ≠ i := fun e => hjp (h.uniq jp ip href hip.ref (e.trans hi))
      rw [hothers jp hjp, hw.kept.others jp hjp, hrest' _ hin.1 hne, hsync]
  · rw [(hcache jp).1, (hcache kp).1] at he
    exact h.uniq jp kp ((hcache jp).2.1 ▸ hj) ((hcache kp).2.1 ▸ hk) he
  · rw [← hi]
    -- the new contents, byte by byte: in `src`, elsewhere in the file, and behind it
    have hoff' : off ≤ (Disk.contents sb s.disk i).length := by rw [length_contents]; exact hoff
    refine List.ext_getElem? fun k => ?_
    rw [getElem?_overwrite hoff', getElem?_contents, getElem?_contents]
    by_cases hin : off ≤ k ∧ k < off + src.length
    · have hk : k < (dinode sb s'.disk i).size.toNat := by omega
      have hbyte' := hw.inside (k - off) (by omega)
      rw [Nat.add_sub_cancel' hin.1] at hbyte'
      rw [if_pos hk, if_pos hin, hbyte i hmem k hk, hbyte', List.getElem?_eq_getElem (by omega),
        List.getD_eq_getElem _ _ (by omega)]
    · rw [if_neg hin]
      by_cases hk : k < (dinode sb s.disk i).size.toNat
      · have hk' : k < (dinode sb s'.disk i).size.toNat := by omega
        rw [if_pos hk, if_pos hk', hbyte i hmem k hk',
          hw.outside i hmem k (div_lt_nblk hk) fun _ => by omega]
        rfl
      · rw [if_neg hk, if_neg (by omega)]
  · have hne : j ≠ i := hi ▸ hne
    refine List.ext_getElem? fun k => ?_
    rw [getElem?_contents, getElem?_contents, hrest' j hj.1 hne]
    split_ifs with hk
    · have hk' : k < (dinode sb s'.disk j).size.toNat := by rw [hrest' j hj.1 hne]; exact hk
      have hb := hbyte j hj k hk'
      rw [hrest' j hj.1 hne, hw.outside j hj k (div_lt_nblk hk) fun e => absurd e hne] at hb
      rw [hb]
      rfl
    · rfl
  · have hkept := congrArg Inode.din hw.kept.entry
    rw [hdin₀] at hkept
    rw [← hi, hdin, hkept]
  · have hused (b : ℕ) (_ : b < sb.size) : used sb s'.disk b = used sb s₁.disk b := by
      rw [used, hlow _ le_BBLOCK, used]
    rw [← hi, length_contents, length_contents, hsize, nblk_max, freeBlocks_congr hused]
    exact hw.free
  · have hcard := hw.log.card_le
    rw [← hi, logged]
    simp only [blocksLogged]
    obtain hlog | ⟨hgrow, -, hlog⟩ := hlog
    · rw [hlog]
      omega
    · have hinsert := Finset.card_insert_le (IBLOCK sb i) s₁.log
      rw [hlog, if_pos hgrow]
      omega
  · rw [← hi, hw.blocks.target_low hlow haddrs hmem]
    obtain hlog | ⟨-, -, hlog⟩ := hlog
    · exact hlog ▸ hw.data bn hbn
    · exact hlog ▸ Finset.mem_insert_of_mem (hw.data bn hbn)
  · obtain hlog | ⟨-, hcard, hlog⟩ := hlog
    · exact hlog ▸ hw.card
    · rw [hlog]
      exact ((Finset.card_insert_le _ _).trans hcard).trans (le_max_right _ _)

theorem wp_iupdate {Q : Unit → State → Prop} (hop : 0 < s.outstanding)
    (hQ : s.log.card < LOGSIZE - 1 → Q () { s with
      disk := setDinode sb s.disk (s.inode ip).inum (s.inode ip).din
      log := insert (IBLOCK sb (s.inode ip).inum) s.log })
    (hbig : LOGSIZE - 1 ≤ s.log.card → E .tooBig) : wp (iupdate sb ip) Q E s := by
  rw [iupdate, wp_bind, wp_getInode, wp_bind, wp_bread]
  exact wp_logWrite hop hQ hbig

/-- `writei` within the limits. It stops only if there are not enough free blocks, or if the blocks
    it writes do not fit into the log. -/
theorem wp_writei {Q : Option ℕ → State → Prop} (hsb : sb.Apart) (h : Owned sb s)
    (hip : Loaded s ip)
    (hop : 0 < s.outstanding)
    (htype : (s.inode ip).din.type ≠ T_DEV)
    (hoff : off ≤ (contents sb s.disk (s.inode ip).inum).length)
    (hend : off + src.length ≤ MAXFILE * BSIZE)
    (hQ : ∀ s', Writes sb s ip src off s' → Q (some src.length) s')
    (hfull : (freeBlocks sb s.disk).card + nptr
      (nblk (contents sb s.disk (s.inode ip).inum).length) <
      nptr (nblk (max (contents sb s.disk (s.inode ip).inum).length (off + src.length))) →
      E .outOfBlocks)
    (hbig : LOGSIZE - 1 < s.log.card + logged sb (contents sb s.disk (s.inode ip).inum).length off
      src.length → E .tooBig) :
    wp (writei sb ip src off) Q E s := by
  have hdin := h.din hip
  have hmem := h.mem hip
  have hsize := h.size_le hmem
  rw [length_contents] at hoff hfull hbig
  have hlt : off + src.length < 2 ^ 32 := by
    simp only [MAXFILE, NDIRECT, NINDIRECT, BSIZE] at hend
    omega
  rw [writei, wp_bind, wp_getInode, if_neg htype, if_neg, if_neg (by omega), wp_bind]
  swap
  · rw [hdin, Nat.mod_eq_of_lt hlt]
    omega
  have hnil : Wrote sb (dinode sb s.disk) (allocated sb s.disk)
      (fun i => nblk (dinode sb s.disk i).size.toNat) s ip (s.inode ip).inum off [] s :=
    wrote_nil h.blocks hdin.symm (by simp only [nblk, BSIZE]; omega)
  refine wp_writeiLoop hsb hmem hop hend (fun s₁ hw => ?_) (fun hlt => hfull ?_)
    (fun hlt => hbig ?_) _
    hnil (List.nil_append src) (.inl rfl) le_rfl
  rotate_left
  · rw [nblk_max]
    exact hlt
  · -- blocks are allocated only if the file gets longer
    have hmono : (dinode sb s.disk (s.inode ip).inum).size.toNat < off + src.length ∨
        nblk (off + src.length) ≤ nblk (dinode sb s.disk (s.inode ip).inum).size.toNat :=
      (lt_or_ge _ _).imp_right nblk_mono
    rw [logged]
    split_ifs at hlt ⊢ <;> omega
  have hkept := congrArg Inode.din hw.kept.entry
  rw [wp_bind, writeiSize, wp_bind, wp_getInode]
  have hsize₁ : (s₁.inode ip).din.size = (dinode sb s.disk (s.inode ip).inum).size := by
    rw [hkept, hdin]
  have hinum₁ : (s₁.inode ip).inum = (s.inode ip).inum := by rw [hw.kept.entry]
  refine wp_ite (fun hgrow => ?_) fun hgrow => ?_
  · rw [hsize₁] at hgrow
    have hop₁ : 0 < s₁.outstanding := hw.kept.outstanding ▸ hop
    rw [wp_bind, modifyDin, wp_modifyInode]
    refine wp_iupdate hop₁ (fun hcard => ?_) fun hcard => hbig ?_
    swap
    · have hlog := hw.log.card_le
      have hcard : LOGSIZE - 1 ≤ s₁.log.card := hcard
      rw [logged, if_pos hgrow.2]
      simp only [blocksLogged]
      omega
    rw [wp_pure, State.setInode_self]
    dsimp only
    rw [hinum₁]
    have hmax : max (dinode sb s.disk (s.inode ip).inum).size.toNat (off + src.length) =
        off + src.length := by omega
    refine hQ _ (hw.writes hsb h hip hoff hend (fun b hb => setDinode_of_ne hb) ?_
      (fun j hj => dinode_setDinode_of_ne hj) ?_ (fun jp hjp => State.setInode_of_ne hjp) rfl rfl
      (.inr ⟨hgrow.2, hcard, rfl⟩))
    · rw [hmax]
      exact dinode_setDinode_self
    · rw [dinode_setDinode_self]
      dsimp only
      rw [State.setInode_self, hw.kept.entry]
  · rw [hsize₁] at hgrow
    have hle : off + src.length ≤ (dinode sb s.disk (s.inode ip).inum).size.toNat := by omega
    have hdin₁ : dinode sb s₁.disk (s.inode ip).inum = (s₁.inode ip).din := by
      rw [hw.kept.dinode_eq hsb hmem.1, hw.there (nblk_mono hle), hdin]
    refine hQ s₁ (hw.writes hsb h hip hoff hend (fun _ _ => rfl) ?_ (fun _ _ => rfl) ?_
      (fun _ _ => rfl)
      rfl rfl (.inl rfl))
    · rw [hdin₁, max_eq_left hle, ← hsize₁, UInt32.ofNat_toNat]
    · rw [hdin₁]
      nth_rewrite 1 [hw.kept.entry]
      rw [hkept]

end Xv6.Disk
