import Mathlib.Data.List.Find
import Xv6.Lib.Lcg
import Xv6.Lib.Tickets
import Xv6.Proc.Choice

/-!
# The lottery

The sums of tickets that the lottery computes in 32-bit `int`s, against the tickets that the
`RUNNABLE` processes hold one after the other (`ticketHolder`).

* `lottery_ne_none_iff`: whether a winner is found whatever is drawn;
* `card_lottery_bounds`: how often a process wins over all the draws of `krand`;
* `card_winnerOf`: how many of the tickets a process wins with, while they add up to an `int`;
* `forall_can_win_iff`: exactly then every process can win.
-/

namespace Xv6

open Tickets

/-- The tickets of a process that count in the lottery, as a number. -/
def Proc.stake (q : Proc) : ℕ := q.tix.toInt.toNat

theorem Proc.tix_pos (q : Proc) : 1 ≤ q.tix.toInt := by
  unfold Proc.tix
  split_ifs with h
  · have := Int32.lt_iff_toInt_lt.1 h
    rw [Int32.toInt_zero] at this
    omega
  · decide

theorem Proc.stake_bounds (q : Proc) : 1 ≤ q.stake ∧ q.stake < 2 ^ 31 := by
  have h₁ := q.tix_pos
  have h₂ := q.tix.toInt_lt
  unfold stake
  omega

theorem Proc.ofNat_stake (q : Proc) : Int32.ofNat q.stake = q.tix := by
  have h := q.stake_bounds
  refine Int32.toInt_inj.1 ?_
  rw [Int32.toInt_ofNat_of_lt h.2]
  have := q.tix_pos
  unfold stake
  omega

variable {t : Ptable}

/-- The `RUNNABLE` processes, in the order of their slots. -/
def runnables (t : Ptable) : List Slot := slots.filter fun p => (t p).state = .runnable

/-- The number of tickets in the lottery. -/
def total (t : Ptable) : ℕ := ((runnables t).map fun p => (t p).stake).sum

/-- The number of tickets up to those of `p`. -/
def running (t : Ptable) (p : Slot) : ℕ := upTo (fun p => (t p).stake) (runnables t) p

/-- The process that holds the ticket `r`. -/
def ticketHolder (t : Ptable) (r : ℕ) : Option Slot :=
  holder (fun p => (t p).stake) (runnables t) r

theorem mem_runnables {p : Slot} : p ∈ runnables t ↔ (t p).state = .runnable := by
  simp [runnables]

theorem nodup_runnables : (runnables t).Nodup := (List.nodup_finRange _).filter _

/-! ## The total -/

/-- The sum goes up by the tickets of a `RUNNABLE` process, and stops at the
    largest `int`. -/
theorem toInt_totaltixStep {a : Int32} {s : ℕ} (ha : a.toInt = (min s (2 ^ 31 - 1) : ℕ))
    (p : Slot) : (totaltixStep t a p).toInt =
      (min (s + if (t p).state = .runnable then (t p).stake else 0) (2 ^ 31 - 1) : ℕ) := by
  have hb := (t p).stake_bounds
  have htix : (t p).tix.toInt = (t p).stake := by
    rw [← Proc.ofNat_stake, Int32.toInt_ofNat_of_lt hb.2]
  have hmax : INT_MAX.toInt = 2 ^ 31 - 1 := rfl
  have hsub : (INT_MAX - (t p).tix).toInt = 2 ^ 31 - 1 - (t p).stake := by
    rw [Int32.toInt_sub, hmax, htix, Int.bmod_eq_of_le] <;> omega
  have hadd : a.toInt + (t p).stake ≤ 2 ^ 31 - 1 →
      (a + (t p).tix).toInt = a.toInt + (t p).stake := fun h => by
    rw [Int32.toInt_add, htix, Int.bmod_eq_of_le] <;> omega
  unfold totaltixStep
  by_cases hs : (t p).state = .runnable
  · simp only [hs, if_true, Int32.le_iff_toInt_le, hsub]
    split_ifs with h
    · rw [hadd (by omega)]
      omega
    · rw [hmax]
      omega
  · simp [hs, ha]

theorem toInt_foldl_totaltixStep (l : List Slot) {a : Int32} {s : ℕ}
    (ha : a.toInt = (min s (2 ^ 31 - 1) : ℕ)) :
    (l.foldl (totaltixStep t) a).toInt = (min (s + ((l.filter fun p => (t p).state = .runnable).map
      fun p => (t p).stake).sum) (2 ^ 31 - 1) : ℕ) := by
  induction l generalizing a s with
  | nil => simpa using ha
  | cons q l ih =>
    rw [List.foldl_cons, ih (toInt_totaltixStep ha q)]
    by_cases hs : (t q).state = .runnable
    · simp [hs, Nat.add_assoc]
    · simp [hs]

/-- The total is computed exactly, but stops at the largest `int`. -/
theorem toInt_totaltix : (totaltix t).toInt = (min (total t) (2 ^ 31 - 1) : ℕ) := by
  have := toInt_foldl_totaltixStep (t := t) slots (a := 0) (s := 0) rfl
  simpa [total, runnables, totaltix] using this

/-! ## The winner -/

/-- The search for the winner, with the running sums as 32-bit `int`s. -/
theorem winner_eq_find {r : UInt32} {l : List Slot} (hl : l.Nodup) (a : ℕ) :
    winner t r l (Int32.ofNat a) = (l.filter fun p => (t p).state = .runnable).find? fun p =>
      r.toInt32 < Int32.ofNat (a + upTo (fun p => (t p).stake)
        (l.filter fun p => (t p).state = .runnable) p) := by
  induction l generalizing a with
  | nil => rfl
  | cons q l ih =>
    obtain ⟨hq, hl⟩ := List.nodup_cons.1 hl
    simp only [winner]
    by_cases hs : (t q).state = .runnable
    · have hacc : Int32.ofNat a + (t q).tix = Int32.ofNat (a + (t q).stake) := by
        rw [Int32.ofNat_add, Proc.ofNat_stake]
      rw [if_neg (by simpa using hs), hacc, List.filter_cons_of_pos (by simpa using hs),
        List.find?_cons, upTo_cons_self, ih hl]
      by_cases hr : r.toInt32 < Int32.ofNat (a + (t q).stake)
      · rw [if_pos hr, decide_eq_true hr]
      · simp only [gt_iff_lt, hr, if_false, decide_false]
        -- The others are behind `q`.
        refine List.find?_congr fun p hp => ?_
        have hqp : q ≠ p := fun e => hq (e ▸ (List.mem_filter.1 hp).1)
        rw [upTo_cons_of_ne hqp, Nat.add_assoc]
    · rw [if_pos hs, List.filter_cons_of_neg (by simpa using hs), ih hl]

/-- The winner, by the running sums as 32-bit `int`s. -/
theorem winner_slots (r : UInt32) : winner t r slots 0 =
    (runnables t).find? fun p => r.toInt32 < Int32.ofNat (running t p) := by
  have h : slots.Nodup := List.nodup_finRange NPROC
  have h' := winner_eq_find (t := t) (r := r) h 0
  simp only [Nat.zero_add] at h'
  exact h'

theorem toNat_totaltix : (totaltix t).toUInt32.toNat = min (total t) (2 ^ 31 - 1) := by
  have h : totaltix t = Int32.ofNat (min (total t) (2 ^ 31 - 1)) := by
    refine Int32.toInt_inj.1 ?_
    rw [toInt_totaltix, Int32.toInt_ofNat_of_lt (by omega)]
  rw [h, Int32.toUInt32_ofNat', UInt32.toNat_ofNat_of_lt' (by simp [UInt32.size])]

theorem total_pos {p : Slot} (hp : (t p).state = .runnable) : 0 < total t := by
  have h₁ : running t p ≤ total t := upTo_le_sum (mem_runnables.2 hp)
  have h₂ : (t p).stake ≤ running t p := Nat.le_add_left _ _
  have h₃ := (t p).stake_bounds
  omega

theorem totaltix_pos {p : Slot} (hp : (t p).state = .runnable) : totaltix t > 0 := by
  have := total_pos hp
  rw [gt_iff_lt, Int32.lt_iff_toInt_lt, toInt_totaltix, Int32.toInt_zero]
  omega

theorem toNat_draw (x : UInt32) : (draw t x).toNat = x.toNat % min (total t) (2 ^ 31 - 1) := by
  rw [draw, UInt32.toNat_mod, toNat_totaltix]

/-- The drawn ticket is in the lottery, and is not negative as an `int`. -/
theorem draw_bounds {p : Slot} (hp : (t p).state = .runnable) (x : UInt32) :
    (draw t x).toNat < min (total t) (2 ^ 31 - 1) := by
  rw [toNat_draw]
  exact Nat.mod_lt _ (by have := total_pos hp; omega)

theorem toInt_toInt32 {r : UInt32} (hr : r.toNat < 2 ^ 31) : r.toInt32.toInt = r.toNat := by
  have h : r.toInt32 = Int32.ofNat r.toNat := by rw [← UInt32.toInt32_ofNat', UInt32.ofNat_toNat]
  rw [h, Int32.toInt_ofNat_of_lt hr]

/-- Where the running sum is an `int`, it is compared as it should be. -/
theorem lt_ofNat_iff {r : UInt32} (hr : r.toNat < 2 ^ 31) {a : ℕ} (ha : a < 2 ^ 31) :
    r.toInt32 < Int32.ofNat a ↔ r.toNat < a := by
  rw [Int32.lt_iff_toInt_lt, toInt_toInt32 hr, Int32.toInt_ofNat_of_lt ha, Int.ofNat_lt]

/-- The lottery switches to the holder of the drawn ticket, if the running sum gets
    to it without an overflow. -/
theorem lottery_eq_some_of_holder {x : UInt32} {p : Slot}
    (hp : ticketHolder t (draw t x).toNat = some p) (hle : running t p < 2 ^ 31) :
    lottery t x = some p := by
  obtain ⟨hmem, hbefore, hlt⟩ := (holder_eq_some_iff nodup_runnables).1 hp
  have hrun := mem_runnables.1 hmem
  have hr : (draw t x).toNat < 2 ^ 31 := by have := draw_bounds hrun x; omega
  rw [lottery, if_pos (totaltix_pos hrun), winner_slots, List.find?_eq_some_iff_append]
  obtain ⟨l₁, l₂, hl⟩ := List.append_of_mem hmem
  have hnodup : (l₁ ++ p :: l₂).Nodup := hl ▸ nodup_runnables
  refine ⟨decide_eq_true ((lt_ofNat_iff hr hle).2 hlt), l₁, l₂, hl, fun q hq => ?_⟩
  -- Those before the holder have running sums up to the ticket at most.
  have hle' : running t q ≤ before (fun p => (t p).stake) p (runnables t) := by
    rw [running, hl]; exact upTo_le_before hnodup hq
  have hq' : running t q < 2 ^ 31 := by omega
  simp only [lt_ofNat_iff hr hq', Bool.not_eq_eq_eq_not, Bool.not_true, decide_eq_false_iff_not]
  omega

/-- The drawn ticket has a holder. -/
theorem exists_ticketHolder {p : Slot} (hp : (t p).state = .runnable) (x : UInt32) :
    ∃ q, ticketHolder t (draw t x).toNat = some q :=
  exists_holder nodup_runnables (lt_of_lt_of_le (draw_bounds hp x) (min_le_left _ _))

theorem running_le_total {p : Slot} (hp : (t p).state = .runnable) : running t p ≤ total t :=
  upTo_le_sum (mem_runnables.2 hp)

/-! ## Whether it finds a winner -/

/-- A draw without a winner: no running sum passes it, as an `int`. -/
theorem lottery_eq_none_iff {q : Slot} (hq : (t q).state = .runnable) (x : UInt32) :
    lottery t x = none ↔
      ∀ p, (t p).state = .runnable → ¬ (draw t x).toInt32 < Int32.ofNat (running t p) := by
  rw [lottery, if_pos (totaltix_pos hq), winner_slots, List.find?_eq_none]
  simp [mem_runnables]

/-- A number as an `int`. -/
theorem toInt_ofNat_eq (a : ℕ) : (Int32.ofNat a).toInt =
    if a % 2 ^ 32 < 2 ^ 31 then ((a % 2 ^ 32 : ℕ) : ℤ) else ((a % 2 ^ 32 : ℕ) : ℤ) - 2 ^ 32 := by
  have hsize : (Int32.size : ℤ) = 2 ^ 32 := rfl
  rw [Int32.toInt_ofNat', Int.bmod_def, hsize]
  split_ifs <;> omega

/-- The largest draw is below the running sums that are the largest `int` only. -/
theorem lt_ofNat_iff_of_max {r : UInt32} (hr : r.toNat = 2 ^ 31 - 2) (a : ℕ) :
    r.toInt32 < Int32.ofNat a ↔ a % 2 ^ 32 = 0x7fffffff := by
  rw [Int32.lt_iff_toInt_lt, toInt_toInt32 (by omega), hr, toInt_ofNat_eq]
  split_ifs <;> omega

/-- The lottery finds a winner whatever is drawn if and only if the tickets add up
    to an `int`, or a running sum wraps around to the largest one. -/
theorem lottery_ne_none_iff {q : Slot} (hq : (t q).state = .runnable) :
    (∀ x, lottery t x ≠ none) ↔ total t ≤ 0x7fffffff ∨
      ∃ p, (t p).state = .runnable ∧ running t p % 2 ^ 32 = 0x7fffffff := by
  by_cases htot : total t ≤ 0x7fffffff
  · refine iff_of_true (fun x => ?_) (.inl htot)
    obtain ⟨p, hp⟩ := exists_ticketHolder hq x
    have hrun := mem_runnables.1 ((holder_eq_some_iff nodup_runnables).1 hp).1
    have hle := running_le_total hrun
    rw [lottery_eq_some_of_holder hp (by omega)]
    nofun
  · have hT : min (total t) (2 ^ 31 - 1) = 2 ^ 31 - 1 := by omega
    simp only [htot, false_or]
    constructor
    · intro h
      -- The largest draw.
      have hr : (draw t (2 ^ 31 - 2)).toNat = 2 ^ 31 - 2 := by rw [toNat_draw, hT]; rfl
      have hx := h (2 ^ 31 - 2)
      rw [ne_eq, lottery_eq_none_iff hq] at hx
      push Not at hx
      obtain ⟨p, hp, hlt⟩ := hx
      exact ⟨p, hp, (lt_ofNat_iff_of_max hr _).1 hlt⟩
    · rintro ⟨p, hp, hmod⟩ x hx
      have hr := draw_bounds hp x
      refine (lottery_eq_none_iff hp x).1 hx p hp ?_
      rw [Int32.lt_iff_toInt_lt, toInt_toInt32 (by omega), toInt_ofNat_eq, hmod]
      norm_num
      omega

/-! ## How often it finds whom -/

theorem lottery_eq_some_iff (htot : total t < 2 ^ 31) {p : Slot} (hp : (t p).state = .runnable)
    (x : UInt32) : lottery t x = some p ↔ ticketHolder t (x.toNat % total t) = some p := by
  have hr : x.toNat % total t = (draw t x).toNat := by
    rw [toNat_draw]; congr 1; omega
  rw [hr]
  obtain ⟨q, hq⟩ := exists_ticketHolder hp x
  have hrun := mem_runnables.1 ((holder_eq_some_iff nodup_runnables).1 hq).1
  rw [hq, lottery_eq_some_of_holder hq (lt_of_le_of_lt (running_le_total hrun) htot)]

/-- `krand` is a linear congruential generator. -/
theorem toNat_iterate_krand (i : ℕ) (seed : UInt32) :
    (krand^[i] seed).toNat = (Lcg.lcg 1664525 1013904223 32)^[i] seed.toNat := by
  induction i with
  | zero => rfl
  | succ i ih =>
    rw [Function.iterate_succ_apply', Function.iterate_succ_apply', ← ih, Lcg.lcg, krand,
      UInt32.toNat_add, UInt32.toNat_mul]
    simp [Nat.mul_comm]

theorem krand_surjective : Function.Surjective krand := fun y =>
  ⟨(y - 1013904223) * 4276115653, by unfold krand; grind⟩

/-- Over `2 ^ 32` draws, a process wins as often as its tickets are drawn, each of
    them as often as the total goes into `2 ^ 32`, rounded down or up. -/
theorem card_lottery_bounds (seed : UInt32) (htot : total t ≤ 0x7fffffff) {p : Slot}
    (hp : (t p).state = .runnable) :
    (t p).stake * (2 ^ 32 / total t) ≤
        ((Finset.range (2 ^ 32)).filter fun i => lottery t (krand^[i + 1] seed) = some p).card ∧
      ((Finset.range (2 ^ 32)).filter fun i => lottery t (krand^[i + 1] seed) = some p).card ≤
        (t p).stake * ((2 ^ 32 + total t - 1) / total t) := by
  have hcount : ((Finset.range (2 ^ 32)).filter fun i =>
        lottery t (krand^[i + 1] seed) = some p).card =
      ((Finset.range (2 ^ 32)).filter fun x => ticketHolder t (x % total t) = some p).card := by
    simp only [lottery_eq_some_iff (by omega : total t < 2 ^ 31) hp, toNat_iterate_krand]
    exact Lcg.card_iterate (by norm_num) (by norm_num) seed.toNat_lt
      fun x => ticketHolder t (x % total t) = some p
  rw [hcount]
  have hstake : ((Finset.range (total t)).filter fun r => ticketHolder t r = some p).card =
    (t p).stake := card_holder nodup_runnables (mem_runnables.2 hp)
  rw [← hstake]
  exact Lcg.card_mod_bounds (total_pos hp) fun r => ticketHolder t r = some p

/-! ## Who wins with which ticket -/

/-- The process the lottery branch switches to when the ticket `r` is drawn. -/
def winnerOf (t : Ptable) (r : ℕ) : Option Slot :=
  if totaltix t > 0 then winner t (.ofNat r) slots 0 else none

theorem lottery_eq_winnerOf (x : UInt32) : lottery t x = winnerOf t (draw t x).toNat := by
  rw [lottery, winnerOf, UInt32.ofNat_toNat]

/-- A ticket below the total is drawn as itself. -/
theorem winnerOf_eq_lottery {r : ℕ} (hr : r < min (total t) (2 ^ 31 - 1)) :
    winnerOf t r = lottery t (.ofNat r) := by
  have hx : (UInt32.ofNat r).toNat = r := UInt32.toNat_ofNat_of_lt' (by simp [UInt32.size]; omega)
  rw [lottery_eq_winnerOf, toNat_draw, hx, Nat.mod_eq_of_lt hr]

theorem winnerOf_eq_ticketHolder (htot : total t ≤ 0x7fffffff) {r : ℕ} (hr : r < total t) :
    winnerOf t r = ticketHolder t r := by
  have hlt : r < min (total t) (2 ^ 31 - 1) := by omega
  have hx : (UInt32.ofNat r).toNat % total t = r := by
    rw [UInt32.toNat_ofNat_of_lt' (by simp [UInt32.size]; omega), Nat.mod_eq_of_lt hr]
  obtain ⟨p, hp⟩ := exists_holder (nodup_runnables (t := t)) hr
  have hrun := mem_runnables.1 ((holder_eq_some_iff nodup_runnables).1 hp).1
  have hp' : ticketHolder t r = some p := hp
  rw [winnerOf_eq_lottery hlt, hp', lottery_eq_some_iff (by omega) hrun, hx, hp']

theorem Proc.stake_eq (q : Proc) :
    (q.stake : ℤ) = if 0 < q.tickets.toInt then q.tickets.toInt else 1 := by
  have htix := q.tix_pos
  have hpos : q.tickets > 0 ↔ 0 < q.tickets.toInt := by
    rw [gt_iff_lt, Int32.lt_iff_toInt_lt, Int32.toInt_zero]
  rw [stake, Int.toNat_of_nonneg (by omega), tix]
  simp only [hpos]
  split_ifs
  · rfl
  · rfl

/-- While the tickets add up to an `int`, every ticket has a winner, and each `RUNNABLE` process
    wins with as many of them as it has, or with one if it has none. -/
theorem card_winnerOf (htot : total t ≤ 0x7fffffff) :
    (totaltix t).toInt = total t ∧
    (∀ r < total t, ∃ p, (t p).state = .runnable ∧ winnerOf t r = some p) ∧
    ∀ p, (t p).state = .runnable →
      (((Finset.range (total t)).filter fun r => winnerOf t r = some p).card : ℤ) =
        if 0 < (t p).tickets.toInt then (t p).tickets.toInt else 1 := by
  refine ⟨?_, fun r hr => ?_, fun p hp => ?_⟩
  · rw [toInt_totaltix, Nat.min_eq_left (by omega)]
  · obtain ⟨p, hp⟩ := exists_holder (nodup_runnables (t := t)) hr
    refine ⟨p, mem_runnables.1 ((holder_eq_some_iff nodup_runnables).1 hp).1, ?_⟩
    rw [winnerOf_eq_ticketHolder htot hr]
    exact hp
  · have hfilter : ((Finset.range (total t)).filter fun r => winnerOf t r = some p) =
        (Finset.range (total t)).filter fun r => ticketHolder t r = some p :=
      Finset.filter_congr fun r hr => by
        rw [winnerOf_eq_ticketHolder htot (Finset.mem_range.1 hr)]
    have hcard : ((Finset.range (total t)).filter fun r => ticketHolder t r = some p).card =
      (t p).stake := card_holder nodup_runnables (mem_runnables.2 hp)
    rw [hfilter, hcard, Proc.stake_eq]

/-- A process with all the tickets there can be, next to one whose tickets do not count. -/
def twoHolders : Ptable :=
  Function.update (Function.update (fun _ => {}) 0
    { state := .runnable, tickets := 0x7ffffffe }) 5 { state := .runnable, tickets := -3 }

theorem card_winnerOf_twoHolders : total twoHolders ≤ 0x7fffffff ∧
    ((Finset.range (total twoHolders)).filter fun r => winnerOf twoHolders r = some 5).card =
    1 := by
  have htot : total twoHolders ≤ 0x7fffffff := by decide +kernel
  have h := (card_winnerOf htot).2.2 5 rfl
  rw [if_neg (by decide)] at h
  exact ⟨htot, Int.ofNat_inj.1 h⟩

/-! ## Who can win -/

/-- A process whose running sum is not positive as an `int` wins with no ticket. -/
theorem winnerOf_ne_some {p : Slot} (hneg : (Int32.ofNat (running t p)).toInt ≤ 0) {r : ℕ}
    (hr : r < 2 ^ 31) : winnerOf t r ≠ some p := by
  have hx : (UInt32.ofNat r).toNat = r := UInt32.toNat_ofNat_of_lt' (by simp [UInt32.size]; omega)
  rw [winnerOf]
  split_ifs
  · intro h
    rw [winner_slots] at h
    have hlt := List.find?_some h
    rw [decide_eq_true_eq, Int32.lt_iff_toInt_lt, toInt_toInt32 (by omega)] at hlt
    omega
  · nofun

/-- If the tickets do not add up to an `int`, the first running sum that is none is negative. -/
theorem exists_running_neg (htot : ¬total t ≤ 0x7fffffff) :
    ∃ p, (t p).state = .runnable ∧ (Int32.ofNat (running t p)).toInt ≤ 0 := by
  -- that sum is over by less than one process has
  have hlt : 0x7fffffff < total t := by omega
  obtain ⟨p, hp⟩ := exists_holder nodup_runnables hlt
  obtain ⟨hmem, hbefore, hupTo⟩ := (holder_eq_some_iff nodup_runnables).1 hp
  have hstake := (t p).stake_bounds
  have hrunning : running t p = before (fun p => (t p).stake) p (runnables t) + (t p).stake := rfl
  rw [← running] at hupTo
  refine ⟨p, mem_runnables.1 hmem, ?_⟩
  rw [toInt_ofNat_eq, Nat.mod_eq_of_lt (by omega), if_neg (by omega)]
  omega

/-- Every `RUNNABLE` process can win if and only if the tickets add up to an `int`. -/
theorem forall_can_win_iff :
    (∀ p, (t p).state = .runnable → ∃ r : ℕ, r < (totaltix t).toInt ∧ winnerOf t r = some p) ↔
      total t ≤ 0x7fffffff := by
  constructor
  · intro h
    by_contra htot
    obtain ⟨p, hp, hneg⟩ := exists_running_neg htot
    obtain ⟨r, hr, hwin⟩ := h p hp
    rw [toInt_totaltix] at hr
    exact winnerOf_ne_some hneg (by omega) hwin
  · intro htot p hp
    -- the first of its tickets
    have hle := running_le_total hp
    have hstake := (t p).stake_bounds
    have hrunning : running t p = before (fun p => (t p).stake) p (runnables t) + (t p).stake := rfl
    refine ⟨before (fun p => (t p).stake) p (runnables t), ?_, ?_⟩
    · rw [toInt_totaltix]
      omega
    · rw [winnerOf_eq_ticketHolder htot (by omega)]
      refine (holder_eq_some_iff nodup_runnables).2 ⟨mem_runnables.2 hp, le_rfl, ?_⟩
      rw [← running]
      omega

end Xv6
