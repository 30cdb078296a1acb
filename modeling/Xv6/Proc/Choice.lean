import Mathlib.Data.List.Induction
import Xv6.Proc.Basic

/-!
# The choice of the next process

The three branches of `scheduler`, as functions of the process table: each loop
goes over the slots in order and gives the process it switches to, if any.

* `fcfs`: the `RUNNABLE` process of least `ctime`, the first of them on ties
  (`fcfs_eq_some_iff`);
* `lottery`: the first `RUNNABLE` process at which the running sum of the
  tickets, a 32-bit `int`, passes the drawn ticket; the draw is `krand`, reduced
  modulo the total, which saturates at `INT_MAX`;
* `rrNext`: the first `RUNNABLE` process from a slot on (`rrNext_eq_some_iff`).
-/

namespace Xv6

/-- The largest `int`. -/
abbrev INT_MAX : Int32 := 0x7fffffff

/-! ## First come, first served -/

/-- The body of the FCFS loop. -/
def fcfsStep (t : Ptable) (best : Option Slot) (p : Slot) : Option Slot :=
  if (t p).state ≠ .runnable then best
  else match best with
    | none => some p
    | some b => if (t p).ctime < (t b).ctime then some p else some b

/-- The process the FCFS branch switches to. -/
def fcfs (t : Ptable) : Option Slot := slots.foldl (fcfsStep t) none

/-! ## Lottery -/

/-- The next value of `rand_seed`, which `krand` returns. -/
def krand (seed : UInt32) : UInt32 := seed * 1664525 + 1013904223

/-- The tickets of a process that count in the lottery. -/
def Proc.tix (q : Proc) : Int32 := if q.tickets > 0 then q.tickets else 1

/-- The body of the loop summing the tickets. -/
def totaltixStep (t : Ptable) (totaltix : Int32) (p : Slot) : Int32 :=
  if (t p).state = .runnable then
    if totaltix ≤ INT_MAX - (t p).tix then totaltix + (t p).tix else INT_MAX
  else totaltix

/-- The total number of tickets, as computed. -/
def totaltix (t : Ptable) : Int32 := slots.foldl (totaltixStep t) 0

/-- The loop searching the winner among the slots `l`, from the running sum
    `acc`. -/
def winner (t : Ptable) (r : UInt32) : List Slot → Int32 → Option Slot
  | [], _ => none
  | p :: l, acc =>
    if (t p).state ≠ .runnable then winner t r l acc
    else
      let acc := acc + (t p).tix
      if acc > r.toInt32 then some p else winner t r l acc

/-- The ticket drawn when `krand` returns `x`. -/
def draw (t : Ptable) (x : UInt32) : UInt32 := x % (totaltix t).toUInt32

/-- The process the lottery branch switches to when `krand` returns `x`. -/
def lottery (t : Ptable) (x : UInt32) : Option Slot :=
  if totaltix t > 0 then winner t (draw t x) slots 0 else none

/-! ## Round robin -/

/-- The process the round-robin loop switches to, from the slot `i` on. -/
def rrNext (t : Ptable) (i : ℕ) : Option Slot :=
  slots.find? fun p => i ≤ p.val ∧ (t p).state = .runnable

/-! ## What they choose -/

variable {t : Ptable}

/-- `p` comes first by `ctime`, and by slot on ties. -/
def Before (t : Ptable) (p q : Slot) : Prop :=
  (t p).ctime < (t q).ctime ∨ (t p).ctime = (t q).ctime ∧ p ≤ q

instance : DecidableRel (Before t) := fun _ _ => inferInstanceAs (Decidable (_ ∨ _))

theorem before_iff {p q : Slot} : Before t p q ↔ (t p).ctime.toNat < (t q).ctime.toNat ∨
    (t p).ctime.toNat = (t q).ctime.toNat ∧ p.val ≤ q.val := by
  rw [Before, UInt32.lt_iff_toNat_lt, UInt32.toNat_inj, Fin.le_def]

theorem Before.refl (p : Slot) : Before t p p := .inr ⟨rfl, le_rfl⟩

theorem Before.trans {p q r : Slot} (h₁ : Before t p q) (h₂ : Before t q r) : Before t p r := by
  rw [before_iff] at *
  omega

theorem Before.antisymm {p q : Slot} (h₁ : Before t p q) (h₂ : Before t q p) : p = q := by
  rw [before_iff] at h₁ h₂
  exact Fin.ext (by omega)

theorem before_of_not_lt {p q : Slot} (hpq : p < q) (h : ¬(t q).ctime < (t p).ctime) :
    Before t p q := by
  rw [UInt32.lt_iff_toNat_lt] at h
  rw [Fin.lt_def] at hpq
  rw [before_iff]
  omega

/-- `p` is the first of the `RUNNABLE` processes among `l`. -/
def IsFirst (t : Ptable) (l : List Slot) (p : Slot) : Prop :=
  p ∈ l ∧ (t p).state = .runnable ∧ ∀ q ∈ l, (t q).state = .runnable → Before t p q

/-- The FCFS loop finds the first `RUNNABLE` process of an increasing list of slots. -/
theorem foldl_fcfsStep {l : List Slot} (hl : l.Pairwise (· < ·)) :
    (∀ p, l.foldl (fcfsStep t) none = some p → IsFirst t l p) ∧
      (l.foldl (fcfsStep t) none = none → ∀ q ∈ l, (t q).state ≠ .runnable) := by
  -- Induction from the right: the loop looks at the last slot last.
  induction l using List.reverseRecOn with
  | nil => simp
  | append_singleton l q ih =>
    obtain ⟨hl, -, hlt⟩ := List.pairwise_append.1 hl
    obtain ⟨ihs, ihn⟩ := ih hl
    simp only [List.foldl_append, List.foldl_cons, List.foldl_nil]
    by_cases hq : (t q).state = .runnable
    · cases hb : l.foldl (fcfsStep t) none with
      | none =>
        simp only [fcfsStep, hq, ne_eq, not_true_eq_false, if_false, Option.some.injEq]
        refine ⟨?_, by simp⟩
        rintro p rfl
        refine ⟨by simp, hq, fun r hr hrs => ?_⟩
        rcases List.mem_append.1 hr with hr | hr
        · exact absurd hrs (ihn hb r hr)
        · rw [List.mem_singleton.1 hr]; exact .refl _
      | some b =>
        obtain ⟨hbl, hbs, hbmin⟩ := ihs b hb
        have hbq : b < q := hlt b hbl q (by simp)
        simp only [fcfsStep, hq, ne_eq, not_true_eq_false, if_false]
        split_ifs with hlt'
        · refine ⟨?_, by simp⟩
          rintro p hp
          obtain rfl := Option.some.inj hp
          refine ⟨by simp, hq, fun r hr hrs => ?_⟩
          rcases List.mem_append.1 hr with hr | hr
          · exact Before.trans (.inl hlt') (hbmin r hr hrs)
          · rw [List.mem_singleton.1 hr]; exact .refl _
        · refine ⟨?_, by simp⟩
          rintro p hp
          obtain rfl := Option.some.inj hp
          refine ⟨by simp [hbl], hbs, fun r hr hrs => ?_⟩
          rcases List.mem_append.1 hr with hr | hr
          · exact hbmin r hr hrs
          · rw [List.mem_singleton.1 hr]; exact before_of_not_lt hbq hlt'
    · simp only [fcfsStep, hq, ne_eq, not_false_eq_true, if_true]
      refine ⟨fun p hp => ?_, fun hn r hr => ?_⟩
      · obtain ⟨hpl, hps, hpmin⟩ := ihs p hp
        refine ⟨by simp [hpl], hps, fun r hr hrs => ?_⟩
        rcases List.mem_append.1 hr with hr | hr
        · exact hpmin r hr hrs
        · rw [List.mem_singleton.1 hr] at hrs; exact absurd hrs hq
      · rcases List.mem_append.1 hr with hr | hr
        · exact ihn hn r hr
        · rw [List.mem_singleton.1 hr]; exact hq

theorem pairwise_slots : slots.Pairwise (· < ·) := List.pairwise_lt_finRange NPROC

theorem mem_slots (p : Slot) : p ∈ slots := List.mem_finRange p

/-- FCFS chooses the `RUNNABLE` process of least `ctime`, the first on ties. -/
theorem fcfs_eq_some_iff {p : Slot} :
    fcfs t = some p ↔ (t p).state = .runnable ∧ ∀ q, (t q).state = .runnable → Before t p q := by
  obtain ⟨hs, hn⟩ := foldl_fcfsStep (t := t) pairwise_slots
  constructor
  · intro h
    obtain ⟨-, hps, hmin⟩ := hs p h
    exact ⟨hps, fun q => hmin q (mem_slots q)⟩
  · rintro ⟨hps, hmin⟩
    cases hf : fcfs t with
    | none => exact absurd hps (hn hf p (mem_slots p))
    | some b =>
      obtain ⟨-, hbs, hbmin⟩ := hs b hf
      rw [(hbmin p (mem_slots p) hps).antisymm (hmin b hbs)]

/-- FCFS chooses nothing only when nothing is `RUNNABLE`. -/
theorem fcfs_eq_none {q : Slot} (h : fcfs t = none) : (t q).state ≠ .runnable :=
  (foldl_fcfsStep pairwise_slots).2 h q (mem_slots q)

/-- The round-robin scan chooses the next `RUNNABLE` slot. -/
theorem rrNext_eq_some_iff {i : ℕ} {p : Slot} :
    rrNext t i = some p ↔ (i ≤ p.val ∧ (t p).state = .runnable) ∧
      ∀ q : Slot, q < p → i ≤ q.val → (t q).state ≠ .runnable := by
  simp only [rrNext, List.find?_eq_some_iff_getElem]
  constructor
  · rintro ⟨hp, j, hj, rfl, hlt⟩
    simp only [List.getElem_finRange, decide_eq_true_eq, Bool.not_eq_eq_eq_not, Bool.not_true,
      decide_eq_false_iff_not, not_and] at hp hlt ⊢
    refine ⟨hp, fun q hq hi => ?_⟩
    have := hlt q.val (by simpa [Fin.lt_def] using hq)
    simpa using this hi
  · rintro ⟨hp, hlt⟩
    refine ⟨by simpa using hp, p.val, by simp, by simp, fun j hj => ?_⟩
    simp only [List.getElem_finRange, Bool.not_eq_eq_eq_not, Bool.not_true,
      decide_eq_false_iff_not, not_and]
    exact fun hi => hlt _ (by simpa [Fin.lt_def] using hj) (by simpa using hi)

theorem rrNext_eq_none {i : ℕ} {q : Slot} (h : rrNext t i = none) (hq : i ≤ q.val) :
    (t q).state ≠ .runnable := by
  have := List.find?_eq_none.1 h q (mem_slots q)
  simpa [hq] using this

end Xv6
