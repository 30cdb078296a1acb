import Mathlib.Algebra.BigOperators.Group.Finset.Basic
import Mathlib.Algebra.Order.BigOperators.Group.Finset
import Xv6.Fs.Log

/-!
# Space in the log

`begin_op` reserves `MAXOPBLOCKS` blocks of the log for each operation. With the space that the
outstanding operations may still use counted in, the header stays within a bound (`Space.space`):

* `header_fits`: if no operation logs more than `MAXOPBLOCKS` blocks, the header holds them all;
* `log_space`: if they log less, `log_write` never finds the log too full.

The two differ as `log_write` leaves out the last block of the log: on the layout of `mkfs`, where
the log has `LOGSIZE` blocks with its header, it panics at `LOGSIZE - 1` recorded blocks
(`log_write_panics`).
-/

namespace Xv6

open TransitionSystem Function

variable {s s' : LogOps} {a : LogAct} {k : ℕ} {b c : UInt32} {l : List UInt32} {t : Tid}

/-! ## The header -/

theorem mem_absorb : c ∈ absorb b l ↔ c = b ∨ c ∈ l := by
  induction l with
  | nil => simp [absorb]
  | cons d l ih =>
    rw [absorb]
    split_ifs with hd
    · subst hd; simp
    · simp only [List.mem_cons, ih]
      tauto

theorem absorb_of_mem (h : b ∈ l) : absorb b l = l := by
  induction l with
  | nil => cases h
  | cons d l ih =>
    rw [absorb]
    split_ifs with hd
    · rw [hd]
    · rw [ih ((List.mem_cons.1 h).resolve_left (Ne.symm hd))]

theorem absorb_of_not_mem (h : b ∉ l) : absorb b l = l ++ [b] := by
  induction l with
  | nil => rfl
  | cons d l ih =>
    rw [List.mem_cons, not_or] at h
    rw [absorb, if_neg (Ne.symm h.1), ih h.2, List.cons_append]

theorem length_absorb_le : (absorb b l).length ≤ l.length + 1 := by
  by_cases h : b ∈ l
  · rw [absorb_of_mem h]; omega
  · rw [absorb_of_not_mem h, List.length_append]; rfl

/-! ## The space of an operation -/

/-- No operation logs more than `k` blocks. -/
def Budget (k : ℕ) (s : LogOps) : LogAct → Prop
  | .check t b => (insert b (s.logged t)).card ≤ k
  | _ => True

instance (k : ℕ) (s : LogOps) (a : LogAct) : Decidable (Budget k s a) :=
  match a with
  | .check t b => inferInstanceAs (Decidable ((insert b (s.logged t)).card ≤ k))
  | .beginOp _ | .record _ | .endOp _ | .clear | .finish => .isTrue trivial

/-- The space in the log, when no operation logs more than `k` blocks. -/
structure Space (k : ℕ) (s : LogOps) : Prop where
  size : s.log.size = LOGSIZE
  outstanding : s.log.outstanding = s.active.card
  committing : s.log.committing → s.active = ∅
  idle : s.log.committing = false → s.active = ∅ → s.log.lh = []
  writing : ∀ t b, s.writing t = some b → t ∈ s.active ∧ (insert b (s.logged t)).card ≤ k
  logged : ∀ t ∈ s.active, ∀ b ∈ s.logged t, b ∈ s.log.lh
  /-- What is recorded, and what the operations may still record. -/
  space : s.log.lh.length + ∑ t ∈ s.active, (k - (s.logged t).card) ≤ MAXOPBLOCKS + 2 * k

theorem Space.beginOp {l : Log} (h : Space k s) (hk : k ≤ MAXOPBLOCKS) (ht : t ∉ s.active)
    (hl : s.log.beginOp = some l) :
    Space k { s with
      log := l
      active := insert t s.active
      logged := update s.logged t ∅ } := by
  rw [Log.beginOp] at hl
  split_ifs at hl with hc hn
  obtain rfl := Option.some.inj hl
  have hlogged : ∀ u ∈ s.active, update s.logged t ∅ u = s.logged u := fun u hu => by
    have hne : u ≠ t := fun he => ht (he ▸ hu)
    rw [update_of_ne hne]
  refine ⟨h.size, ?_, fun hc' => absurd hc' hc, fun _ he => absurd he (Finset.insert_ne_empty t _),
    fun u b hu => ?_, fun u hu b hb => ?_, ?_⟩
  · rw [Finset.card_insert_of_notMem ht, h.outstanding]
  · obtain ⟨hu, hcard⟩ := h.writing u b hu
    refine ⟨Finset.mem_insert_of_mem hu, ?_⟩
    simp only [hlogged u hu]
    exact hcard
  · rcases Finset.mem_insert.1 hu with rfl | hu
    · simp at hb
    · exact h.logged u hu b (hlogged u hu ▸ hb)
  · have hsum : ∑ u ∈ s.active, (k - (s.logged u).card) ≤ s.active.card * k :=
      Finset.sum_le_card_nsmul _ _ _ fun u _ => Nat.sub_le _ _
    simp only
    rw [Finset.sum_insert ht, update_self, Finset.card_empty, Nat.sub_zero,
      Finset.sum_congr rfl fun u hu => by rw [hlogged u hu]]
    rw [h.outstanding] at hn
    simp only [MAXOPBLOCKS, LOGSIZE] at hn hk ⊢
    -- At most two operations are outstanding, and the first one finds the log empty.
    rcases hcard : s.active.card with _ | _ | _ | n
    · rw [Finset.card_eq_zero] at hcard
      rw [h.idle (by simpa using hc) hcard, hcard, Finset.sum_empty, List.length_nil]
      omega
    all_goals rw [hcard] at hsum hn; omega

/-- What an operation may still record, apart from the others. -/
theorem sum_update {f : Tid → Finset UInt32} {S : Finset Tid} {x : Finset UInt32} (ht : t ∈ S) :
    ∑ u ∈ S, (k - (update f t x u).card) + (k - (f t).card) =
      ∑ u ∈ S, (k - (f u).card) + (k - x.card) := by
  rw [← Finset.add_sum_erase _ _ ht, ← Finset.add_sum_erase _ _ ht, update_self]
  have hrest : ∑ u ∈ S.erase t, (k - (update f t x u).card) =
      ∑ u ∈ S.erase t, (k - (f u).card) :=
    Finset.sum_congr rfl fun u hu => by rw [update_of_ne (Finset.ne_of_mem_erase hu)]
  omega

theorem Space.record (h : Space k s) (hw : s.writing t = some b) :
    Space k { s with
      log := s.log.record b
      writing := update s.writing t none
      logged := update s.logged t (insert b (s.logged t))
      recorded := insert b s.recorded } := by
  obtain ⟨ht, hcard⟩ := h.writing t b hw
  refine ⟨h.size, h.outstanding, h.committing, fun _ he => absurd ht
    (by simp only at he; simp [he]),
    fun u c hu => ?_, fun u hu c hc => ?_, ?_⟩
  · by_cases hut : u = t
    · subst hut; simp at hu
    · simp only [ne_eq, hut, not_false_eq_true, update_of_ne] at hu ⊢
      exact h.writing u c hu
  · refine mem_absorb.2 ?_
    by_cases hut : u = t
    · subst hut
      simp only [update_self, Finset.mem_insert] at hc
      exact hc.imp id (h.logged u hu c)
    · simp only [ne_eq, hut, not_false_eq_true, update_of_ne] at hc
      exact .inr (h.logged u hu c hc)
  · have hsum := sum_update (k := k) (f := s.logged) (x := insert b (s.logged t)) ht
    have hspace := h.space
    simp only [Log.record]
    -- A block that the operation has recorded before is found in the header.
    by_cases hb : b ∈ s.logged t
    · rw [Finset.insert_eq_of_mem hb] at hsum ⊢
      rw [absorb_of_mem (h.logged t ht b hb)]
      omega
    · rw [Finset.card_insert_of_notMem hb] at hsum hcard
      have := length_absorb_le (b := b) (l := s.log.lh)
      omega

theorem Space.endOp {l : Log} (h : Space k s) (ht : t ∈ s.active) (hw : s.writing t = none)
    (hl : s.log.endOp = .ok l) : Space k { s with log := l, active := s.active.erase t } := by
  have hcard : (s.active.erase t).card = s.log.outstanding - 1 := by
    rw [Finset.card_erase_of_mem ht, h.outstanding]
  have hlh : l.lh = s.log.lh ∧ l.size = s.log.size ∧ l.outstanding = s.log.outstanding - 1 ∧
      (l.committing = true ↔ s.log.outstanding - 1 = 0) := by
    rw [Log.endOp] at hl
    split_ifs at hl with hc h0
    all_goals obtain rfl := Except.ok.inj hl
    · exact ⟨rfl, rfl, rfl, by simp [h0]⟩
    · exact ⟨rfl, rfl, rfl, by simp [h0, hc]⟩
  obtain ⟨hlh, hsize, hout, hcom⟩ := hlh
  refine ⟨hsize.trans h.size, hout.trans hcard.symm, fun hc => ?_, fun hc he => ?_,
    fun u b hu => ?_,
    fun u hu b hb => ?_, ?_⟩
  · exact Finset.card_eq_zero.1 (hcard.trans (hcom.1 hc))
  · rw [← Finset.card_eq_zero, hcard] at he
    rw [hcom.2 he] at hc
    cases hc
  · obtain ⟨hu', hc⟩ := h.writing u b hu
    refine ⟨Finset.mem_erase.2 ⟨fun he => ?_, hu'⟩, hc⟩
    simp only [he, hw] at hu
    cases hu
  · simp only [hlh]
    exact h.logged u (Finset.mem_of_mem_erase hu) b hb
  · have := Finset.add_sum_erase s.active (fun u => k - (s.logged u).card) ht
    have := h.space
    simp only [hlh]
    omega

theorem Space.step (h : Space k s) (hk : k ≤ MAXOPBLOCKS) (ha : Budget k s a)
    (hs : logSystem.step s a = some s') : Space k s' := by
  change s.step a = some s' at hs
  cases a with
  | beginOp t =>
    rw [LogOps.step] at hs
    split_ifs at hs with _ ht
    obtain ⟨l, hl, rfl⟩ := Option.map_eq_some_iff.1 hs
    exact h.beginOp hk ht hl
  | check t b =>
    -- the check leaves the log as it is
    rw [LogOps.step] at hs
    split_ifs at hs with _ ht
    rw [not_or, not_not, not_not] at ht
    split at hs
    all_goals obtain rfl := Option.some.inj hs
    · exact ⟨h.size, h.outstanding, h.committing, h.idle, h.writing, h.logged, h.space⟩
    · refine ⟨h.size, h.outstanding, h.committing, h.idle, fun u c hu => ?_, h.logged, h.space⟩
      by_cases hut : u = t
      · subst hut
        simp only [update_self, Option.some.injEq] at hu
        exact ⟨ht.1, hu ▸ ha⟩
      · simp only [ne_eq, hut, not_false_eq_true, update_of_ne] at hu
        exact h.writing u c hu
  | record t =>
    rw [LogOps.step] at hs
    split_ifs at hs
    obtain ⟨b, hb, rfl⟩ := Option.map_eq_some_iff.1 hs
    exact h.record hb
  | endOp t =>
    rw [LogOps.step] at hs
    split_ifs at hs with _ ht
    rw [not_or, not_not, not_not] at ht
    split at hs
    · obtain rfl := Option.some.inj hs
      exact ⟨h.size, h.outstanding, h.committing, h.idle, h.writing, h.logged, h.space⟩
    · next l hl =>
      obtain rfl := Option.some.inj hs
      exact h.endOp ht.1 ht.2 hl
  | clear =>
    rw [LogOps.step] at hs
    split_ifs at hs with _ hc
    obtain rfl := Option.some.inj hs
    have he := h.committing hc.1
    refine ⟨h.size, h.outstanding, h.committing, fun _ _ => rfl, h.writing, fun t ht => ?_, ?_⟩
    · simp only [he] at ht
      cases Finset.notMem_empty t ht
    · have := h.space
      simp only [List.length_nil]
      omega
  | finish =>
    rw [LogOps.step] at hs
    split_ifs at hs with _ hc
    obtain rfl := Option.some.inj hs
    exact ⟨h.size, h.outstanding, nofun, fun _ _ => hc.2, h.writing, h.logged, h.space⟩

theorem space_of_reachable (hk : k ≤ MAXOPBLOCKS) (h : logSystem.Reachable (Budget k) s) :
    Space k s := by
  refine h.invariant (fun s hs => ?_) fun s a s' hi => hi.step hk
  subst hs
  exact ⟨rfl, rfl, nofun, fun _ _ => rfl, nofun, nofun, Nat.zero_le _⟩

/-- Operations that log at most `MAXOPBLOCKS` blocks fit into the header. -/
theorem header_fits (h : logSystem.Reachable (Budget MAXOPBLOCKS) s) :
    s.log.lh.length ≤ LOGSIZE := by
  have := (space_of_reachable le_rfl h).space
  simp only [MAXOPBLOCKS, LOGSIZE] at this ⊢
  omega

/-- `log_write` is the one that finds a transaction too big. -/
theorem check_of_step (hs : logSystem.step s a = some s') (hp : s'.panicked = some .tooBig) :
    s.log.check = .error .tooBig := by
  change s.step a = some s' at hs
  cases a with
  | check t b =>
    rw [LogOps.step] at hs
    split_ifs at hs with hnone
    split at hs
    all_goals obtain rfl := Option.some.inj hs
    · next p hc =>
      obtain rfl := Option.some.inj hp
      exact hc
    · exact absurd (by rw [hp]; rfl) hnone
  | endOp t =>
    rw [LogOps.step] at hs
    split_ifs at hs with hnone
    split at hs
    all_goals obtain rfl := Option.some.inj hs
    · next p hc =>
      obtain rfl := Option.some.inj hp
      rw [Log.endOp] at hc
      split_ifs at hc
      cases hc
    · exact absurd (by rw [hp]; rfl) hnone
  | beginOp t =>
    rw [LogOps.step] at hs
    split_ifs at hs with hnone
    obtain ⟨l, -, rfl⟩ := Option.map_eq_some_iff.1 hs
    exact absurd (by rw [hp]; rfl) hnone
  | record t =>
    rw [LogOps.step] at hs
    split_ifs at hs with hnone
    obtain ⟨b, -, rfl⟩ := Option.map_eq_some_iff.1 hs
    exact absurd (by rw [hp]; rfl) hnone
  | clear | finish =>
    rw [LogOps.step] at hs
    split_ifs at hs with hnone
    obtain rfl := Option.some.inj hs
    exact absurd (by rw [hp]; rfl) hnone

/-- If every operation logs less than `MAXOPBLOCKS` blocks, no transaction is too big. -/
theorem log_space (hk : k < MAXOPBLOCKS) (h : logSystem.Reachable (Budget k) s) :
    s.panicked ≠ some .tooBig := by
  cases h with
  | init hs =>
    obtain rfl := hs
    nofun
  | step hr _ hs =>
    intro hp
    have h := space_of_reachable hk.le hr
    have hc := check_of_step hs hp
    have hspace := h.space
    rw [Log.check, h.size] at hc
    simp only [MAXOPBLOCKS, LOGSIZE] at hc hspace hk
    rw [if_neg (by omega)] at hc
    split_ifs at hc
    cases hc

/-- The calls of `log_write` by a thread. -/
def logging (t : Tid) (bs : List UInt32) : List LogAct :=
  bs.flatMap fun b => [.check t b, .record t]

/-- Two threads pass the tests of `log_write` before either has recorded its block: the header gets
    full, with an entry more than the log has blocks for. -/
theorem header_fits_race : ∃ s, logSystem.Reachable (Budget MAXOPBLOCKS) s ∧
    s.log.lh.length ≤ LOGSIZE ∧ s.log.lh.length = s.log.size := by
  obtain ⟨s, hs, hP⟩ := exists_reachable (S := logSystem) rfl
    (show (logSystem.exec (Budget MAXOPBLOCKS) { log := initlog }
        ([.beginOp 0, .beginOp 1, .beginOp 2] ++
        [0, 1, 2].flatMap (fun t => logging t ((List.range 9).map fun i => .ofNat (10 * t + i))) ++
        logging 0 [9] ++ [.check 1 19, .check 2 29, .record 1, .record 2])).any
      (fun s => decide (s.log.lh.length = s.log.size)) by decide +kernel)
  exact ⟨s, hs, header_fits hs, of_decide_eq_true hP⟩

/-- Three operations that log nine blocks each. -/
theorem log_space_nine : ∃ s, logSystem.Reachable (Budget 9) s ∧ s.log.lh.length = 27 ∧
    s.panicked ≠ some .tooBig := by
  obtain ⟨s, hs, hP⟩ := exists_reachable (S := logSystem) rfl
    (show (logSystem.exec (Budget 9) { log := initlog } ([.beginOp 0, .beginOp 1, .beginOp 2] ++
        logging 0 [60, 61, 62, 63, 64, 65, 66, 67, 68] ++
        logging 1 [70, 71, 72, 73, 74, 75, 76, 77, 78] ++
        logging 2 [80, 81, 82, 83, 84, 85, 86, 87, 88])).any
      (fun s => decide (s.log.lh.length = 27)) by decide +kernel)
  exact ⟨s, hs, of_decide_eq_true hP, log_space (by decide) hs⟩

/-- Three operations that log `MAXOPBLOCKS` blocks each find the log too full at the last one. -/
theorem log_write_panics : ∃ s, logSystem.Reachable (Budget MAXOPBLOCKS) s ∧
    s.panicked = some .tooBig := by
  obtain ⟨s, hs, hP⟩ := exists_reachable (S := logSystem) rfl
    (show (logSystem.exec (Budget MAXOPBLOCKS) { log := initlog }
        ([.beginOp 0, .beginOp 1, .beginOp 2] ++
        logging 0 [60, 61, 62, 63, 64, 65, 66, 67, 68, 69] ++
        logging 1 [70, 71, 72, 73, 74, 75, 76, 77, 78, 79] ++
        logging 2 [80, 81, 82, 83, 84, 85, 86, 87, 88] ++ [.check 2 89])).any
      (fun s => decide (s.panicked = some .tooBig)) by decide +kernel)
  exact ⟨s, hs, of_decide_eq_true hP⟩

end Xv6
