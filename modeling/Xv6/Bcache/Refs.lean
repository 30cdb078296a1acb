import Mathlib.Algebra.Order.BigOperators.Group.Finset
import Xv6.Bcache.Lru

/-!
# References to buffers

The reference count of a buffer is the number of calls of `bget` for which it was returned, or is to
be returned, and that no `brelse` has undone (`Counted`). A buffer is given to another block when it
has no references, and it is the one that was released first (`Rekeyed`).
-/

namespace Xv6.Bcache

open Monitor TransitionSystem Function

/-- The calls of `bget` that have taken a reference to `b`, and for which none was dropped yet. -/
def Out.outstanding (o : Out) (b : Ptr) : ℕ := o.held.count b + if o.wait = some b then 1 else 0

/-- The references to `b` of a process in a call. -/
def Local.outstanding : Local → Ptr → ℕ
  | .look held _ _, b | .scan held _ _ _, b | .recycle held _ _ _, b | .dropped held, b =>
    held.count b
  | .got held c, b | .drop held c, b => held.count b + if c = b then 1 else 0

/-- The references to `b` of a process. -/
def outstanding : Pc Unit Local Out → Ptr → ℕ
  | .outside o, b => o.outstanding b
  | .acquire l, b | .inside l, b | .unlock _ l, b | .sched _ l, b => l.outstanding b

/-- The references are counted. -/
def Counted (s : State) : Prop := ∀ b, (s.data.buf b).refcnt = ∑ t, outstanding (s.pc t) b

variable {s s' : State} {t : Proc} {b c : Ptr} {d d' : Data} {o : Out}

/-- A step of `t`: its references change by as much as the count. -/
theorem Counted.of {pc : Pc Unit Local Out} (h : Counted s)
    (hpc : s'.pc = update s.pc t pc)
    (hb : ∀ b, (s'.data.buf b).refcnt + outstanding (s.pc t) b =
      (s.data.buf b).refcnt + outstanding pc b) : Counted s' := by
  intro b
  have hb := hb b
  have hrest : ∑ u ∈ Finset.univ.erase t, outstanding (s'.pc u) b =
      ∑ u ∈ Finset.univ.erase t, outstanding (s.pc u) b := by
    refine Finset.sum_congr rfl fun u hu => ?_
    rw [hpc, update_of_ne (Finset.ne_of_mem_erase hu)]
  rw [h b, ← Finset.add_sum_erase _ _ (Finset.mem_univ t)] at hb
  rw [← Finset.add_sum_erase _ _ (Finset.mem_univ t), hrest, hpc, update_self]
  omega

/-- A step that changes neither. -/
theorem Counted.keep {pc : Pc Unit Local Out} (h : Counted s)
    (hpc : s'.pc = update s.pc t pc)
    (hbuf : ∀ b, (s'.data.buf b).refcnt = (s.data.buf b).refcnt)
    (ho : ∀ b, outstanding pc b = outstanding (s.pc t) b) : Counted s' :=
  h.of hpc fun b => by rw [hbuf b, ho b]

/-- A call passes the references on. -/
theorem outstanding_of_call {a : Call} {r : Out ⊕ Local} (h : call d t o a = some (d', r))
    (c : Ptr) :
    outstanding (entry r) c = o.outstanding c := by
  cases a with
  | bget dev blockno =>
    rw [call] at h
    split_ifs at h with hwait
    obtain ⟨-, rfl⟩ := Prod.mk.inj (Option.some.inj h)
    simp [outstanding, entry, Local.outstanding, Out.outstanding, hwait.2]
  | acquired =>
    rw [call] at h
    split at h
    · next b hwait =>
      split_ifs at h
      obtain ⟨-, rfl⟩ := Prod.mk.inj (Option.some.inj h)
      simp [outstanding, entry, Out.outstanding, hwait, List.count_cons]
    · cases h
  | bread | set | bwrite =>
    rw [call] at h
    split_ifs at h
    obtain ⟨-, rfl⟩ := Prod.mk.inj (Option.some.inj h)
    rfl
  | brelse b =>
    rw [call] at h
    split_ifs at h with hb
    obtain ⟨-, rfl⟩ := Prod.mk.inj (Option.some.inj h)
    have hpos : 0 < o.held.count b := List.count_pos_iff.2 hb.1
    by_cases hbc : b = c
    · subst hbc
      simp [outstanding, entry, Local.outstanding, Out.outstanding, hb.2]
      omega
    · simp [outstanding, entry, Local.outstanding, Out.outstanding, hb.2, hbc,
        List.count_erase_of_ne (Ne.symm hbc)]

theorem Counted.next {l l' : Local} (h : Counted s) (ht : s.pc t = .inside l)
    (hn : Next s.data l d' l') : Counted { s.goto t (.inside l') with data := d' } := by
  have hb (b : Ptr) : l.outstanding b ≤ (s.data.buf b).refcnt := by
    rw [h b, ← Finset.add_sum_erase _ _ (Finset.mem_univ t), ht]
    exact Nat.le_add_right _ _
  refine h.of rfl fun c => ?_
  rw [ht]
  cases hn with
  | look | miss | skip | busy => rfl
  | hit held dev blockno b hholds =>
    by_cases hbc : c = b
    · subst hbc
      simp [outstanding, Local.outstanding]
      omega
    · simp [outstanding, Local.outstanding, buf_modify_of_ne _ hbc, Ne.symm hbc]
  | take held dev blockno b hrefcnt =>
    by_cases hbc : c = b
    · subst hbc
      simp [outstanding, Local.outstanding, hrefcnt]
      omega
    · simp [outstanding, Local.outstanding, buf_modify_of_ne _ hbc, Ne.symm hbc]
  | drop held b =>
    have hle := hb b
    by_cases hbc : c = b
    · subst hbc
      simp [outstanding, Local.outstanding, buf_drop] at hle ⊢
      omega
    · simp [outstanding, Local.outstanding, buf_drop, update_of_ne hbc, Ne.symm hbc]

theorem Counted.moves (h : Counted s) (hm : Moves monitor s t (s.pc t) s') : Counted s' := by
  generalize ht : s.pc t = pc at hm
  cases hm with
  | next l d l' hbody => exact h.next ht (next_of_body hbody)
  | wakeup l c l' hbody => exact absurd hbody (body_ne ..).1
  | sleep l c l' hbody => exact absurd hbody (body_ne ..).2
  | leave l o hbody =>
    refine h.keep rfl (fun _ => rfl) fun b => ?_
    rw [ht]
    obtain ⟨held, c, rfl, rfl⟩ | ⟨held, rfl, rfl⟩ := leave_of_body hbody
    · simp [outstanding, Local.outstanding, Out.outstanding]
    · simp [outstanding, Local.outstanding, Out.outstanding]
  | acquire | unlock | sched => exact h.keep rfl (fun _ => rfl) fun b => by rw [ht]; rfl

theorem counted_of_reachable (h : system.Reachable Any s) : Counted s := by
  refine h.invariant (fun s hs b => ?_) fun s a s' hi _ hs => ?_
  · obtain ⟨⟨-, hbuf, -⟩, hpc⟩ := hs
    rw [hbuf b, hpc]
    simp [outstanding, Out.outstanding, monitor]
  · obtain ⟨t, o, c, d, r, -, ho, hcall, rfl⟩ | ⟨t, -, hm⟩ | ⟨t, -, -, rfl⟩ := step_cases hs
    · refine hi.keep rfl (same_of_call hcall).refcnt fun b => ?_
      rw [ho]
      exact outstanding_of_call hcall b
    · exact hi.moves hm
    · exact hi

/-! ## Recycling -/

/-- A step gives `b` to another block: nobody has a reference to it, no buffer was for the new
    block, and of the buffers without references, `b` was released first; those that were never used
    come before the others, in the order of `binit`. -/
structure Rekeyed (d d' : Data) (b : Ptr) : Prop where
  refcnt : (d.buf b).refcnt = 0
  uncached : ∀ c, ¬(d.buf c).holds (d'.buf b).dev (d'.buf b).blockno
  oldest : ∀ c, c ≠ b → (d.buf c).refcnt = 0 →
    d.released b < d.released c ∨ d.released b = 0 ∧ d.released c = 0 ∧ b < c

theorem Inv.rekeyed {held : List Ptr} {dev blockno : UInt32}
    (h : Inv d (some (.recycle held dev blockno (some b)))) (hb : (d.buf b).refcnt = 0)
    (hdev : (d'.buf b).dev = dev) (hblockno : (d'.buf b).blockno = blockno) : Rekeyed d d' b := by
  obtain ⟨L, z, hL, -, hmiss, l₁, l₂, rfl, hn, hl₂⟩ := h.list
  obtain ⟨l₁, rfl⟩ := List.getLast?_eq_some_iff.1 hn.symm
  refine ⟨hb, by rwa [hdev, hblockno], fun c hcb hc => ?_⟩
  -- the buffers behind have references, so that `c` is in front
  have hmem : c ∈ l₁ := by
    have hall := hL.all c
    simp only [List.mem_append, List.mem_singleton] at hall
    rcases hall with (hc' | hc') | hc'
    · exact hc'
    · exact absurd hc' hcb
    · exact absurd hc (hl₂ c hc')
  have hnewer : Newer z c b := by
    have hsorted := hL.sorted
    rw [List.append_assoc, List.pairwise_append] at hsorted
    exact hsorted.2.2 c hmem b (by simp)
  rwa [Newer, hL.released b hb, hL.released c hc, and_left_comm] at hnewer

/-- A step leaves a buffer to its block, or it gives it to a new one. -/
theorem rekeyed_of_step {a : Act Proc Call} (h : system.Reachable Any s)
    (hs : system.step s a = some s') (b : Ptr) :
    (s'.data.buf b).holds (s.data.buf b).dev (s.data.buf b).blockno ∨ Rekeyed s.data s'.data b := by
  obtain ⟨t, o, c, d, r, -, -, hcall, rfl⟩ | ⟨t, -, hm⟩ | ⟨t, -, -, rfl⟩ := step_cases hs
  · have hsame := same_of_call hcall
    exact .inl ⟨hsame.dev b, hsame.blockno b⟩
  · generalize hq : s.pc t = q at hm
    cases hm with
    | next l d l' hbody =>
      cases next_of_body hbody with
      | look | miss | skip | busy => exact .inl ⟨rfl, rfl⟩
      | hit held dev blockno c hc =>
        have hkey := key_modify (d := s.data) (b := c)
          (f := fun x => { x with refcnt := x.refcnt + 1 }) (fun _ => ⟨rfl, rfl⟩) b
        exact .inl hkey
      | drop held c =>
        have hkey := key_modify (d := s.data) (b := c)
          (f := fun x => { x with refcnt := (s.data.buf c).refcnt - 1 }) (fun _ => ⟨rfl, rfl⟩) b
        exact .inl hkey
      | take held dev blockno c hc =>
        by_cases hbc : b = c
        · subst hbc
          have hinv := inv_of_reachable h
          rw [phase_of_inside h hq] at hinv
          exact .inr (hinv.rekeyed hc (by simp) (by simp))
        · refine .inl ?_
          have hbuf := buf_modify_of_ne (d := s.data) (fun x => { x with
            dev := dev, blockno := blockno, valid := false, dirty := false, refcnt := 1 }) hbc
          exact ⟨congrArg Buf.dev hbuf, congrArg Buf.blockno hbuf⟩
    | acquire | wakeup | sleep | leave | unlock | sched => exact .inl ⟨rfl, rfl⟩
  · exact .inl ⟨rfl, rfl⟩

/-- The buffers form a circle in both directions, no two of them hold the same block, and their
    references are counted. A buffer is given to another block only if it has no references, and it
    is the one that was released first then. -/
theorem bcache_lru (h : system.Reachable Any s) :
    (∃ l : List Ptr, l.Perm (List.finRange NBUF) ∧ s.data.links.next none = l.head? ∧
      ∀ l₁ b l₂, l = l₁ ++ b :: l₂ → s.data.links.next (some b) = l₂.head?) ∧
    (∀ n, s.data.links.prev (s.data.links.next n) = n ∧
      s.data.links.next (s.data.links.prev n) = n) ∧
    (∀ b c, (s.data.buf b).dev ≠ 0 →
      (s.data.buf c).holds (s.data.buf b).dev (s.data.buf b).blockno → b = c) ∧
    (∀ b, (s.data.buf b).refcnt = ∑ t, outstanding (s.pc t) b) ∧
    ∀ a s', system.step s a = some s' → ∀ b,
      (s'.data.buf b).holds (s.data.buf b).dev (s.data.buf b).blockno ∨
        Rekeyed s.data s'.data b := by
  have hinv := inv_of_reachable h
  obtain ⟨L, z, hL, -⟩ := hinv.list
  refine ⟨⟨L, ?_, hL.dlist.first, fun l₁ b l₂ => hL.dlist.next⟩, hL.dlist.inverse hL.all,
    hinv.unique, counted_of_reachable h, fun a s' hs => rekeyed_of_step h hs⟩
  refine (List.perm_ext_iff_of_nodup hL.dlist.nodup (List.nodup_finRange NBUF)).2 fun b => ?_
  exact iff_of_true (hL.all b) (List.mem_finRange b)

/-- The cache after `binit`. -/
def fresh : State where
  data := { links := binit, disk := fun _ _ => Bytes.zero }
  pc := fun _ => .outside {}

/-- Process 1 reads a block and releases it, and process 2 reads another one. The buffer that was
    released is not taken, as there are others that were never used. -/
theorem bcache_lru_fresh : ∃ s s' : State, system.Reachable Any s ∧
    system.step s (.step 2) = some s' ∧ (s.data.buf 0).refcnt = 0 ∧ (s.data.buf 0).holds 1 5 ∧
    (s'.data.buf 1).holds 1 6 ∧ Rekeyed s.data s'.data 1 := by
  obtain ⟨s, s', hs, hstep, hP⟩ := exists_reachable_step (S := system) (s := fresh)
    ⟨⟨rfl, fun _ => rfl, fun _ => rfl, rfl, fun _ => rfl⟩, rfl⟩
    (show (system.exec Any fresh ([.call 1 (.bget 1 5)] ++ List.replicate 35 (.step 1) ++
        [.call 1 .acquired, .call 1 (.brelse 0)] ++ List.replicate 3 (.step 1) ++
        [.call 2 (.bget 1 6)] ++ List.replicate 33 (.step 2))).any fun s =>
      (system.step s (.step 2)).any fun s' => decide ((s.data.buf 0).refcnt = 0 ∧
        (s.data.buf 0).holds 1 5 ∧ ¬(s.data.buf 1).holds 1 6 ∧ (s'.data.buf 1).holds 1 6) by
      decide +kernel)
  obtain ⟨hrefcnt, hold, hnew, hnew'⟩ := of_decide_eq_true hP
  obtain ⟨-, -, -, -, hrekeyed⟩ := bcache_lru hs
  obtain ⟨hdev, hblockno⟩ | hb := hrekeyed _ _ hstep 1
  · exact absurd ⟨hdev.symm.trans hnew'.1, hblockno.symm.trans hnew'.2⟩ hnew
  · exact ⟨s, s', hs, hstep, hrefcnt, hold, hnew', hb⟩

end Xv6.Bcache
