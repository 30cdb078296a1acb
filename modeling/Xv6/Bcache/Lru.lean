import Mathlib.Data.List.FinRange
import Xv6.Bcache.Basic

/-!
# The list of buffers

The circle of buffers stays a circle of all buffers, no two buffers hold the same block, and the
buffers without references are in the order in which they were last released (`Inv`). Hence the
buffer that `bget` recycles is the one that was released first (`rekeyed_of_step`).
-/

namespace Xv6.Bcache

open Monitor TransitionSystem Function

/-! ## Steps -/

/-- The steps of a process in its critical section that do not leave it. -/
inductive Next (d : Data) : Local → Data → Local → Prop
  | look (held : List Ptr) (dev blockno : UInt32) :
    Next d (.look held dev blockno) d (.scan held dev blockno (d.links.next none))
  | miss (held : List Ptr) (dev blockno : UInt32) :
    Next d (.scan held dev blockno none) d (.recycle held dev blockno (d.links.prev none))
  | hit (held : List Ptr) (dev blockno : UInt32) (b : Ptr) (h : (d.buf b).holds dev blockno) :
    Next d (.scan held dev blockno (some b))
      (d.modify b fun x => { x with refcnt := x.refcnt + 1 }) (.got held b)
  | skip (held : List Ptr) (dev blockno : UInt32) (b : Ptr) (h : ¬(d.buf b).holds dev blockno) :
    Next d (.scan held dev blockno (some b)) d (.scan held dev blockno (d.links.next (some b)))
  | take (held : List Ptr) (dev blockno : UInt32) (b : Ptr) (h : (d.buf b).refcnt = 0) :
    Next d (.recycle held dev blockno (some b))
      (d.modify b fun x => { x with
        dev := dev, blockno := blockno, valid := false, dirty := false, refcnt := 1 }) (.got held b)
  | busy (held : List Ptr) (dev blockno : UInt32) (b : Ptr) (h : (d.buf b).refcnt ≠ 0) :
    Next d (.recycle held dev blockno (some b)) d
    (.recycle held dev blockno (d.links.prev (some b)))
  | drop (held : List Ptr) (b : Ptr) : Next d (.drop held b) (d.drop b) (.dropped held)

variable {d d' : Data} {ph : Option Local} {k l : Local} {t : Proc} {o : Out} {held : List Ptr}
    {b c : Ptr}
  {L : List Ptr} {z : Ptr → ℕ}

theorem next_of_body (h : body d l = .next d' k) : Next d l d' k := by
  cases l with
  | look held dev blockno =>
    obtain ⟨rfl, rfl⟩ := Op.next.inj h
    exact .look held dev blockno
  | scan held dev blockno n =>
    cases n with
    | none =>
      obtain ⟨rfl, rfl⟩ := Op.next.inj h
      exact .miss held dev blockno
    | some b =>
      rw [body] at h
      split_ifs at h with hb
      · obtain ⟨rfl, rfl⟩ := Op.next.inj h
        exact .hit held dev blockno b hb
      · obtain ⟨rfl, rfl⟩ := Op.next.inj h
        exact .skip held dev blockno b hb
  | recycle held dev blockno n =>
    cases n with
    | none => cases h
    | some b =>
      rw [body] at h
      split_ifs at h with hb
      · obtain ⟨rfl, rfl⟩ := Op.next.inj h
        exact .take held dev blockno b hb
      · obtain ⟨rfl, rfl⟩ := Op.next.inj h
        exact .busy held dev blockno b hb
  | drop held b =>
    obtain ⟨rfl, rfl⟩ := Op.next.inj h
    exact .drop held b
  | got | dropped => cases h

theorem leave_of_body (h : body d l = .leave o) :
    (∃ held b, l = .got held b ∧ o = { held := held, wait := some b }) ∨
      ∃ held, l = .dropped held ∧ o = { held := held } := by
  cases l with
  | got held b => exact .inl ⟨held, b, rfl, (Op.leave.inj h).symm⟩
  | dropped held => exact .inr ⟨held, rfl, (Op.leave.inj h).symm⟩
  | scan held dev blockno n =>
    cases n with
    | none => cases h
    | some b =>
      rw [body] at h
      split_ifs at h
  | recycle held dev blockno n =>
    cases n with
    | none => cases h
    | some b =>
      rw [body] at h
      split_ifs at h
  | look | drop => cases h

/-- Nobody wakes up or sleeps in this critical section. -/
theorem body_ne (d : Data) (l k : Local) (c : Unit) :
    body d l ≠ .wakeup c k ∧ body d l ≠ .sleep c k := by
  cases l with
  | scan held dev blockno n =>
    cases n with
    | none => exact ⟨nofun, nofun⟩
    | some b =>
      rw [body]
      split_ifs <;> exact ⟨nofun, nofun⟩
  | recycle held dev blockno n =>
    cases n with
    | none => exact ⟨nofun, nofun⟩
    | some b =>
      rw [body]
      split_ifs <;> exact ⟨nofun, nofun⟩
  | look | got | drop | dropped => exact ⟨nofun, nofun⟩

/-! ## Calls -/

@[simp] theorem buf_modify_self (d : Data) (b : Ptr) (f : Buf → Buf) :
    (d.modify b f).buf b = f (d.buf b) := update_self ..

theorem buf_modify_of_ne (f : Buf → Buf) (h : c ≠ b) : (d.modify b f).buf c = d.buf c :=
  update_of_ne h ..

/-- The buffers are where they were, for the same blocks, and have the same references. -/
structure Same (d d' : Data) : Prop where
  links : d'.links = d.links
  clock : d'.clock = d.clock
  released : d'.released = d.released
  dev : ∀ b, (d'.buf b).dev = (d.buf b).dev
  blockno : ∀ b, (d'.buf b).blockno = (d.buf b).blockno
  refcnt : ∀ b, (d'.buf b).refcnt = (d.buf b).refcnt

theorem Same.of_eq (hlinks : d'.links = d.links) (hclock : d'.clock = d.clock)
    (hreleased : d'.released = d.released) (hbuf : d'.buf = d.buf) : Same d d' :=
  ⟨hlinks, hclock, hreleased, by simp [hbuf], by simp [hbuf], by simp [hbuf]⟩

theorem Same.trans {d'' : Data} (h : Same d d') (h' : Same d' d'') : Same d d'' :=
  ⟨h'.links.trans h.links, h'.clock.trans h.clock, h'.released.trans h.released,
    fun b => (h'.dev b).trans (h.dev b), fun b => (h'.blockno b).trans (h.blockno b),
    fun b => (h'.refcnt b).trans (h.refcnt b)⟩

/-- The flags and the contents of a buffer change. -/
theorem same_modify (f : Buf → Buf)
    (hf : ∀ x, (f x).dev = x.dev ∧ (f x).blockno = x.blockno ∧ (f x).refcnt = x.refcnt) :
    Same d (d.modify b f) := by
  have hbuf (c : Ptr) : ((d.modify b f).buf c).dev = (d.buf c).dev ∧
      ((d.modify b f).buf c).blockno = (d.buf c).blockno ∧
      ((d.modify b f).buf c).refcnt = (d.buf c).refcnt := by
    by_cases hcb : c = b
    · rw [hcb, buf_modify_self]
      exact hf _
    · rw [buf_modify_of_ne f hcb]
      exact ⟨rfl, rfl, rfl⟩
  exact ⟨rfl, rfl, rfl, fun c => (hbuf c).1, fun c => (hbuf c).2.1, fun c => (hbuf c).2.2⟩

theorem same_iderw : Same d (d.iderw b) := by
  rw [Data.iderw]
  dsimp only
  split_ifs
  · exact (same_modify (fun x => { x with valid := true, dirty := false })
      fun _ => ⟨rfl, rfl, rfl⟩).trans (.of_eq rfl rfl rfl rfl)
  · exact same_modify _ fun _ => ⟨rfl, rfl, rfl⟩

theorem same_of_call {a : Call} {r : Out ⊕ Local} (h : call d t o a = some (d', r)) :
    Same d d' := by
  cases a with
  | bget dev blockno =>
    rw [call] at h
    split_ifs at h
    obtain ⟨rfl, -⟩ := Prod.mk.inj (Option.some.inj h)
    exact .of_eq rfl rfl rfl rfl
  | acquired =>
    rw [call] at h
    split at h
    · split_ifs at h
      obtain ⟨rfl, -⟩ := Prod.mk.inj (Option.some.inj h)
      exact .of_eq rfl rfl rfl rfl
    · cases h
  | bread b =>
    rw [call] at h
    split_ifs at h
    obtain ⟨rfl, -⟩ := Prod.mk.inj (Option.some.inj h)
    rw [Data.bread]
    split_ifs
    · exact .of_eq rfl rfl rfl rfl
    · exact same_iderw
  | set b x dirty =>
    rw [call] at h
    split_ifs at h
    obtain ⟨rfl, -⟩ := Prod.mk.inj (Option.some.inj h)
    exact same_modify _ fun _ => ⟨rfl, rfl, rfl⟩
  | bwrite b =>
    rw [call] at h
    split_ifs at h
    obtain ⟨rfl, -⟩ := Prod.mk.inj (Option.some.inj h)
    exact (same_modify (fun x => { x with dirty := true }) fun _ => ⟨rfl, rfl, rfl⟩).trans
      same_iderw
  | brelse b =>
    rw [call] at h
    split_ifs at h
    obtain ⟨rfl, -⟩ := Prod.mk.inj (Option.some.inj h)
    exact .of_eq rfl rfl rfl rfl

/-! ## The invariant -/

/-- `b` is nearer to the front of the list than `c`, by the times `z` at which they were put there:
    later ones are, and of those that were never put there the ones with the greater number. -/
def Newer (z : Ptr → ℕ) (b c : Ptr) : Prop := z c < z b ∨ z b = 0 ∧ z c = 0 ∧ c < b

/-- The list is `L`, and the buffers were put to its front at the times `z`. -/
structure Listed (d : Data) (L : List Ptr) (z : Ptr → ℕ) : Prop where
  dlist : Dlist d.links L
  all : ∀ b, b ∈ L
  sorted : L.Pairwise (Newer z)
  le : ∀ b, z b ≤ d.clock
  /-- A buffer without references went to the front when it was last released. -/
  released : ∀ b, (d.buf b).refcnt = 0 → z b = d.released b

/-- How far a process in `bget` has come. -/
def Phase (d : Data) (L : List Ptr) : Option Local → Prop
  | some (.look _ dev _) => dev ≠ 0
  | some (.scan _ dev blockno n) => dev ≠ 0 ∧
    ∃ l₁ l₂, L = l₁ ++ l₂ ∧ n = l₂.head? ∧ ∀ c ∈ l₁, ¬(d.buf c).holds dev blockno
  | some (.recycle _ dev blockno n) => dev ≠ 0 ∧ (∀ c, ¬(d.buf c).holds dev blockno) ∧
    ∃ l₁ l₂, L = l₁ ++ l₂ ∧ n = l₁.getLast? ∧ ∀ c ∈ l₂, (d.buf c).refcnt ≠ 0
  | _ => True

/-- What holds of the list, also in the middle of a call. -/
structure Inv (d : Data) (ph : Option Local) : Prop where
  list : ∃ L z, Listed d L z ∧ Phase d L ph
  /-- No two buffers hold the same block. -/
  unique : ∀ b c, (d.buf b).dev ≠ 0 → (d.buf c).holds (d.buf b).dev (d.buf b).blockno → b = c

/-- The list does not depend on the flags and the contents of buffers. -/
theorem Inv.congr (h : Inv d ph) (hs : Same d d') : Inv d' ph := by
  have hholds (b : Ptr) (dev blockno : UInt32) :
      (d'.buf b).holds dev blockno ↔ (d.buf b).holds dev blockno := by
    rw [Buf.holds, Buf.holds, hs.dev, hs.blockno]
  obtain ⟨L, z, hL, hph⟩ := h.list
  refine ⟨⟨L, z, ⟨?_, hL.all, hL.sorted, ?_, ?_⟩, ?_⟩, fun b c hb hc => ?_⟩
  · rw [hs.links]; exact hL.dlist
  · rw [hs.clock]; exact hL.le
  · simp only [hs.refcnt, hs.released]; exact hL.released
  · match ph with
    | some (.scan ..) | some (.recycle ..) =>
      simp only [Phase, hholds, hs.refcnt]
      exact hph
    | none | some (.look ..) | some (.got ..) | some (.drop ..) | some (.dropped ..) => exact hph
  · rw [hs.dev] at hb
    rw [hs.dev, hs.blockno, hholds] at hc
    exact h.unique b c hb hc

/-- A buffer whose references are counted anew stays where it is. -/
theorem Listed.modify (h : Listed d L z) {f : Buf → Buf} (hf : (f (d.buf b)).refcnt ≠ 0) :
    Listed (d.modify b f) L z where
  __ := h
  released c hc := by
    by_cases hcb : c = b
    · rw [hcb, buf_modify_self] at hc
      exact absurd hc hf
    · rw [buf_modify_of_ne f hcb] at hc
      exact h.released c hc

/-- The buffers hold the blocks that they held. -/
theorem Inv.unique_of_eq (h : Inv d ph)
    (hkey : ∀ c, (d'.buf c).dev = (d.buf c).dev ∧ (d'.buf c).blockno = (d.buf c).blockno)
    (b c : Ptr) (hb : (d'.buf b).dev ≠ 0)
    (hc : (d'.buf c).holds (d'.buf b).dev (d'.buf b).blockno) : b = c := by
  rw [(hkey b).1] at hb
  rw [Buf.holds, (hkey b).1, (hkey b).2, (hkey c).1, (hkey c).2] at hc
  exact h.unique b c hb hc

theorem key_modify {f : Buf → Buf} (hf : ∀ x, (f x).dev = x.dev ∧ (f x).blockno = x.blockno)
    (c : Ptr) : ((d.modify b f).buf c).dev = (d.buf c).dev ∧
      ((d.modify b f).buf c).blockno = (d.buf c).blockno := by
  by_cases hcb : c = b
  · rw [hcb, buf_modify_self]
    exact hf _
  · rw [buf_modify_of_ne _ hcb]
    exact ⟨rfl, rfl⟩

section

variable {dev blockno : UInt32}

theorem Inv.look (h : Inv d (some (.look held dev blockno))) :
    Inv d (some (.scan held dev blockno (d.links.next none))) := by
  obtain ⟨L, z, hL, hdev⟩ := h.list
  exact ⟨⟨L, z, hL, hdev, [], L, rfl, hL.dlist.first, nofun⟩, h.unique⟩

theorem Inv.skip (h : Inv d (some (.scan held dev blockno (some b))))
    (hb : ¬(d.buf b).holds dev blockno) :
    Inv d (some (.scan held dev blockno (d.links.next (some b)))) := by
  obtain ⟨L, z, hL, hdev, l₁, l₂, rfl, hn, hl₁⟩ := h.list
  obtain ⟨l₂, rfl⟩ := List.head?_eq_some_iff.1 hn.symm
  refine ⟨⟨_, z, hL, hdev, l₁ ++ [b], l₂, by simp, hL.dlist.next_eq, fun c hc => ?_⟩, h.unique⟩
  rcases List.mem_append.1 hc with hc | hc
  · exact hl₁ c hc
  · exact List.mem_singleton.1 hc ▸ hb

theorem Inv.miss (h : Inv d (some (.scan held dev blockno none))) :
    Inv d (some (.recycle held dev blockno (d.links.prev none))) := by
  obtain ⟨L, z, hL, hdev, l₁, l₂, rfl, hn, hl₁⟩ := h.list
  obtain rfl := List.head?_eq_none_iff.1 hn.symm
  rw [List.append_nil] at hL
  exact ⟨⟨l₁, z, hL, hdev, fun c => hl₁ c (hL.all c), l₁, [], (List.append_nil _).symm,
    hL.dlist.last, nofun⟩, h.unique⟩

theorem Inv.busy (h : Inv d (some (.recycle held dev blockno (some b))))
    (hb : (d.buf b).refcnt ≠ 0) :
    Inv d (some (.recycle held dev blockno (d.links.prev (some b)))) := by
  obtain ⟨L, z, hL, hdev, hmiss, l₁, l₂, rfl, hn, hl₂⟩ := h.list
  obtain ⟨l₁, rfl⟩ := List.getLast?_eq_some_iff.1 hn.symm
  rw [List.append_assoc, List.singleton_append] at hL
  refine ⟨⟨_, z, hL, hdev, hmiss, l₁, b :: l₂, rfl, hL.dlist.prev_eq, fun c hc => ?_⟩, h.unique⟩
  rcases List.mem_cons.1 hc with rfl | hc
  · exact hb
  · exact hl₂ c hc

theorem Inv.hit (h : Inv d (some (.scan held dev blockno (some b)))) :
    Inv (d.modify b fun x => { x with refcnt := x.refcnt + 1 }) (some (.got held b)) := by
  obtain ⟨L, z, hL, -⟩ := h.list
  exact ⟨⟨L, z, hL.modify (Nat.succ_ne_zero _), trivial⟩,
    h.unique_of_eq (key_modify fun _ => ⟨rfl, rfl⟩)⟩

theorem Inv.take (h : Inv d (some (.recycle held dev blockno (some b)))) :
    Inv (d.modify b fun x => { x with
      dev := dev, blockno := blockno, valid := false, dirty := false, refcnt := 1 })
      (some (.got held b)) := by
  obtain ⟨L, z, hL, hdev, hmiss, -⟩ := h.list
  refine ⟨⟨L, z, hL.modify one_ne_zero, trivial⟩, fun c e hc he => ?_⟩
  by_cases hcb : c = b
  · by_cases heb : e = b
    · exact hcb.trans heb.symm
    · -- no other buffer was for the block
      rw [hcb, buf_modify_self, buf_modify_of_ne _ heb] at he
      exact absurd he (hmiss e)
  · rw [buf_modify_of_ne _ hcb] at hc he
    by_cases heb : e = b
    · rw [heb, buf_modify_self] at he
      exact absurd ⟨he.1.symm, he.2.symm⟩ (hmiss c)
    · rw [buf_modify_of_ne _ heb] at he
      exact h.unique c e hc he

end

theorem buf_drop (d : Data) (b : Ptr) : (d.drop b).buf =
    update d.buf b { d.buf b with refcnt := (d.buf b).refcnt - 1 } := rfl

theorem released_drop (d : Data) (b : Ptr) :
    (d.drop b).released = update d.released b (d.clock + 1) := rfl

/-- A buffer that has lost its last reference goes to the front. -/
theorem Listed.drop (h : Listed d L z) : ∃ L' z', Listed (d.drop b) L' z' := by
  have hbuf {c : Ptr} (hc : c ≠ b) : (d.drop b).buf c = d.buf c := by
    rw [buf_drop, update_of_ne hc]
  have hself : ((d.drop b).buf b).refcnt = (d.buf b).refcnt - 1 := by
    rw [buf_drop, update_self]
  have hreleased {c : Ptr} (hc : c ≠ b) : (d.drop b).released c = d.released c := by
    rw [released_drop, update_of_ne hc]
  by_cases h0 : (d.buf b).refcnt - 1 = 0
  · have hlinks : (d.drop b).links = (d.links.unlink b).push b := if_pos h0
    obtain ⟨l₁, l₂, rfl⟩ := List.append_of_mem (h.all b)
    have hb : b ∉ l₁ ++ l₂ := by
      have hnodup := h.dlist.nodup
      rw [List.nodup_append_comm, List.cons_append, List.nodup_cons] at hnodup
      simpa [or_comm] using hnodup.1
    have hz {c : Ptr} (hc : c ≠ b) : update z b (d.clock + 1) c = z c :=
      update_of_ne hc ..
    have hne {c : Ptr} (hc : c ∈ l₁ ++ l₂) : c ≠ b := fun he => hb (he ▸ hc)
    refine ⟨b :: (l₁ ++ l₂), update z b (d.clock + 1), ?_, fun c => ?_,
      List.pairwise_cons.2 ⟨fun c hc => .inl ?_, ?_⟩, fun c => ?_, fun c hc => ?_⟩
    · rw [hlinks]
      exact h.dlist.unlink.push hb
    · have := h.all c
      simp only [List.mem_append, List.mem_cons] at this ⊢
      tauto
    · rw [hz (hne hc), update_self]
      exact Nat.lt_succ_of_le (h.le c)
    · have hsub := h.sorted.sublist ((List.sublist_cons_self b l₂).append_left l₁)
      refine hsub.imp_of_mem fun hx hy hxy => ?_
      rw [Newer, hz (hne hx), hz (hne hy)]
      exact hxy
    · by_cases hcb : c = b
      · rw [hcb, update_self]
        exact le_rfl
      · rw [hz hcb]
        exact (h.le c).trans (Nat.le_succ _)
    · by_cases hcb : c = b
      · rw [hcb, released_drop, update_self, update_self]
      · rw [hz hcb, hreleased hcb]
        exact h.released c (hbuf hcb ▸ hc)
  · have hlinks : (d.drop b).links = d.links := if_neg h0
    refine ⟨L, z, hlinks.symm ▸ h.dlist, h.all, h.sorted,
      fun c => (h.le c).trans (Nat.le_succ _), fun c hc => ?_⟩
    by_cases hcb : c = b
    · rw [hcb, hself] at hc
      exact absurd hc h0
    · rw [hreleased hcb]
      exact h.released c (hbuf hcb ▸ hc)

theorem Inv.drop (h : Inv d (some (.drop held b))) : Inv (d.drop b) (some (.dropped held)) := by
  obtain ⟨L, z, hL, -⟩ := h.list
  obtain ⟨L', z', hL'⟩ := hL.drop (b := b)
  refine ⟨⟨L', z', hL', trivial⟩, h.unique_of_eq fun c => ?_⟩
  exact key_modify (f := fun x => { x with refcnt := (d.buf b).refcnt - 1 }) (fun _ => ⟨rfl, rfl⟩) c

/-! ## Runs -/

/-- Where a process takes `bcache.lock`. -/
def Entry : Local → Prop
  | .look _ dev _ => dev ≠ 0
  | .drop .. => True
  | _ => False

theorem Inv.acquire (h : Inv d none) (hE : Entry l) : Inv d (some l) := by
  obtain ⟨L, z, hL, -⟩ := h.list
  cases l with
  | look held dev blockno => exact ⟨⟨L, z, hL, hE⟩, h.unique⟩
  | drop held b => exact ⟨⟨L, z, hL, trivial⟩, h.unique⟩
  | scan | recycle | got | dropped => cases hE

/-- A process leaves the list as it is. -/
theorem Inv.outside (h : Inv d ph) : Inv d none := by
  obtain ⟨L, z, hL, -⟩ := h.list
  exact ⟨⟨L, z, hL, trivial⟩, h.unique⟩

/-- A call of `bget` is for a device other than 0. -/
theorem entry_of_call {a : Call} (h : call d t o a = some (d', .inr l)) : Entry l := by
  cases a with
  | bget dev blockno =>
    rw [call] at h
    split_ifs at h with hdev
    obtain ⟨-, hl⟩ := Prod.mk.inj (Option.some.inj h)
    obtain rfl := Sum.inr.inj hl
    exact hdev.1
  | acquired =>
    rw [call] at h
    split at h
    · split_ifs at h
      exact nomatch (Prod.mk.inj (Option.some.inj h)).2
    · cases h
  | bread | set | bwrite =>
    rw [call] at h
    split_ifs at h
    exact nomatch (Prod.mk.inj (Option.some.inj h)).2
  | brelse b =>
    rw [call] at h
    split_ifs at h
    obtain ⟨-, hl⟩ := Prod.mk.inj (Option.some.inj h)
    obtain rfl := Sum.inr.inj hl
    trivial

theorem keeps : Keeps monitor (fun d ph _ => Inv d ph) Entry where
  call h _ hcall := ⟨h.congr (same_of_call hcall), fun _ hr => entry_of_call (hr ▸ hcall)⟩
  acquire h _ hE := h.acquire hE
  next h _ hbody := by
    cases next_of_body hbody with
    | look => exact h.look
    | miss => exact h.miss
    | hit held dev blockno b hb => exact h.hit
    | skip held dev blockno b hb => exact h.skip hb
    | take held dev blockno b hb => exact h.take
    | busy held dev blockno b hb => exact h.busy hb
    | drop => exact h.drop
  wakeup _ _ hbody := absurd hbody (body_ne ..).1
  sleep _ _ hbody := absurd hbody (body_ne ..).2
  leave h _ _ := h.outside

/-- The buffers after `binit`, from the front on. -/
theorem dlist_binit : Dlist binit (List.finRange NBUF).reverse := by
  have h := dlist_empty.foldl_push (List.nodup_finRange NBUF) fun _ _ => List.not_mem_nil
  rwa [List.append_nil] at h

theorem inv_of_init (h : monitor.init d) : Inv d none := by
  obtain ⟨hlinks, hbuf, -, -, hreleased⟩ := h
  refine ⟨⟨(List.finRange NBUF).reverse, fun _ => 0, ⟨?_, ?_, ?_, ?_, ?_⟩, trivial⟩, ?_⟩
  · rw [hlinks]
    exact dlist_binit
  · intro b
    exact List.mem_reverse.2 (List.mem_finRange b)
  · rw [List.pairwise_reverse]
    exact (List.pairwise_lt_finRange NBUF).imp fun hlt => .inr ⟨rfl, rfl, hlt⟩
  · exact fun _ => Nat.zero_le _
  · exact fun b _ => (hreleased b).symm
  · intro b c hb
    rw [hbuf b] at hb
    exact absurd rfl hb

variable {s s' : State}

theorem inv_of_reachable (h : system.Reachable Any s) : Inv s.data s.phase :=
  (keeps.of_reachable (fun _ => inv_of_init) h).1

end Xv6.Bcache
