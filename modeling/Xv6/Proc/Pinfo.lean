import Xv6.Proc.Slots

/-!
# Process statistics

`getpinfo` copies the process table to a buffer of its caller, `struct pstat`. Of the arrays of the
buffer, its loop fills nine: `state` and `name` are left as the caller had them, and the pid of
a free slot is copied as it stands.

* `Pstat.Shows`: what `pstat.h` says of the arrays;
* `getpinfo_shows_iff`: when the buffer that is returned shows the table, and when two buffers are
  returned alike.
-/

namespace Xv6

open Function

/-- The number of a state in `enum procstate`. -/
def Procstate.toInt : Procstate → Int32
  | .unused => 0
  | .embryo => 1
  | .sleeping => 2
  | .runnable => 3
  | .running => 4
  | .zombie => 5

/-- The statistics of the processes (`struct pstat`). -/
@[ext]
structure Pstat where
  inuse : Slot → Int32
  pid : Slot → Int32
  state : Slot → Int32
  tickets : Slot → Int32
  originalTickets : Slot → Int32
  rtime : Slot → Int32
  stime : Slot → Int32
  retime : Slot → Int32
  ctime : Slot → Int32
  etime : Slot → Int32
  name : Slot → Fin 16 → Char

/-- A name in its field, up to the first NUL. -/
def cname (s : Fin 16 → Char) : String := String.ofList ((List.ofFn s).takeWhile (· ≠ '\x00'))

namespace Pstat

/-- The body of the loop of `getpinfo`, at the slot `i` of the process `p`. -/
def fill (ps : Pstat) (i : Slot) (p : Proc) : Pstat :=
  { ps with
    inuse := Function.update ps.inuse i (if p.state ≠ .unused then 1 else 0)
    pid := Function.update ps.pid i p.pid
    tickets := Function.update ps.tickets i p.tickets
    originalTickets := Function.update ps.originalTickets i p.originalTickets
    rtime := Function.update ps.rtime i p.rtime.toInt32
    stime := Function.update ps.stime i p.stime.toInt32
    retime := Function.update ps.retime i p.retime.toInt32
    ctime := Function.update ps.ctime i p.ctime.toInt32
    etime := Function.update ps.etime i p.etime.toInt32 }

end Pstat

/-- `getpinfo` to a buffer, or to the null pointer: what the buffer holds after it, and the
    result. -/
def getpinfo (t : Ptable) : Option Pstat → Option Pstat × Int32
  | none => (none, -1)
  | some ps => (some (slots.foldl (fun ps i => ps.fill i (t i)) ps), 0)

namespace Pstat

/-- What `pstat.h` says of the arrays. -/
structure Shows (ps : Pstat) (t : Ptable) : Prop where
  inuse : ∀ i, ps.inuse i = if (t i).state ≠ .unused then 1 else 0
  pid : ∀ i, ps.pid i = if (t i).state ≠ .unused then (t i).pid else 0
  state : ∀ i, ps.state i = (t i).state.toInt
  tickets : ∀ i, ps.tickets i = (t i).tickets
  originalTickets : ∀ i, ps.originalTickets i = (t i).originalTickets
  rtime : ∀ i, ps.rtime i = (t i).rtime.toInt32
  stime : ∀ i, ps.stime i = (t i).stime.toInt32
  retime : ∀ i, ps.retime i = (t i).retime.toInt32
  ctime : ∀ i, ps.ctime i = (t i).ctime.toInt32
  etime : ∀ i, ps.etime i = (t i).etime.toInt32
  name : ∀ i, cname (ps.name i) = (t i).image.name

/-- The buffer after the loop: what it was in `state` and `name`, the table in the other arrays. -/
def filled (ps : Pstat) (t : Ptable) : Pstat where
  inuse i := if (t i).state ≠ .unused then 1 else 0
  pid i := (t i).pid
  state := ps.state
  tickets i := (t i).tickets
  originalTickets i := (t i).originalTickets
  rtime i := (t i).rtime.toInt32
  stime i := (t i).stime.toInt32
  retime i := (t i).retime.toInt32
  ctime i := (t i).ctime.toInt32
  etime i := (t i).etime.toInt32
  name := ps.name

variable {ps ps' : Pstat} {t : Ptable}

/-- An array that every round of a loop over the slots in `l` writes at its slot. -/
theorem foldl_update {f : Pstat → Slot → Int32} {g : Slot → Int32}
    (hf : ∀ ps i, f (ps.fill i (t i)) = update (f ps) i (g i)) (l : List Slot)
    (ps : Pstat) (j : Slot) : f (l.foldl (fun ps i => ps.fill i (t i)) ps) j =
      if j ∈ l then g j else f ps j := by
  induction l generalizing ps with
  | nil => simp
  | cons i l ih =>
    rw [List.foldl_cons, ih, hf]
    by_cases hl : j ∈ l
    · rw [if_pos hl, if_pos (List.mem_cons_of_mem i hl)]
    · by_cases hj : j = i
      · subst hj
        rw [if_neg hl, update_self, if_pos List.mem_cons_self]
      · rw [if_neg hl, update_of_ne hj, if_neg (by simp [hj, hl])]

/-- An array that no round writes. -/
theorem foldl_keep {α : Type} {f : Pstat → α} (hf : ∀ ps i, f (ps.fill i (t i)) = f ps)
    (l : List Slot) (ps : Pstat) : f (l.foldl (fun ps i => ps.fill i (t i)) ps) = f ps := by
  induction l generalizing ps with
  | nil => rfl
  | cons i l ih => rw [List.foldl_cons, ih, hf]

theorem foldl_fill : slots.foldl (fun ps i => ps.fill i (t i)) ps = ps.filled t := by
  have hall {f : Pstat → Slot → Int32} {g : Slot → Int32}
      (hf : ∀ ps i, f (ps.fill i (t i)) = update (f ps) i (g i)) :
      f (slots.foldl (fun ps i => ps.fill i (t i)) ps) = g := by
    funext j
    rw [foldl_update hf, if_pos (List.mem_finRange j)]
  refine Pstat.ext (hall ?_) (hall ?_) (foldl_keep ?_ _ _) (hall ?_) (hall ?_) (hall ?_) (hall ?_)
    (hall ?_) (hall ?_) (hall ?_) (foldl_keep ?_ _ _) <;> exact fun _ _ => rfl

theorem shows_filled_iff : (ps.filled t).Shows t ↔
    (∀ i, ps.state i = (t i).state.toInt ∧ cname (ps.name i) = (t i).image.name) ∧
      ∀ i, (t i).state = .unused → (t i).pid = 0 := by
  constructor
  · intro h
    refine ⟨fun i => ⟨h.state i, h.name i⟩, fun i hi => ?_⟩
    have hpid : (t i).pid = if (t i).state ≠ .unused then (t i).pid else 0 := h.pid i
    rwa [if_neg (not_not.2 hi)] at hpid
  · rintro ⟨hbuf, hpid⟩
    exact {
      inuse _ := rfl
      pid i := by
        show (t i).pid = _
        split_ifs with hi
        · rfl
        · exact hpid i (not_not.1 hi)
      state i := (hbuf i).1
      tickets _ := rfl
      originalTickets _ := rfl
      rtime _ := rfl
      stime _ := rfl
      retime _ := rfl
      ctime _ := rfl
      etime _ := rfl
      name i := (hbuf i).2 }

theorem filled_eq_iff : ps'.filled t = ps.filled t ↔ ps'.state = ps.state ∧ ps'.name = ps.name := by
  constructor
  · intro h
    have hs : (ps'.filled t).state = (ps.filled t).state := by rw [h]
    have hn : (ps'.filled t).name = (ps.filled t).name := by rw [h]
    exact ⟨hs, hn⟩
  · rintro ⟨hs, hn⟩
    rw [filled, filled, hs, hn]

end Pstat

theorem getpinfo_some (t : Ptable) (ps : Pstat) :
    getpinfo t (some ps) = (some (ps.filled t), 0) := by
  rw [getpinfo, Pstat.foldl_fill]

/-- The buffer that is returned shows the table if it held the states and the names before, and the
    free slots have no pid. Two buffers are returned alike if they held the same states and
    names. -/
theorem getpinfo_shows_iff (t : Ptable) (ps : Pstat) :
    ∃ ps₁, getpinfo t (some ps) = (some ps₁, 0) ∧
      (ps₁.Shows t ↔
        (∀ i, ps.state i = (t i).state.toInt ∧ cname (ps.name i) = (t i).image.name) ∧
          ∀ i, (t i).state = .unused → (t i).pid = 0) ∧
      ∀ ps', getpinfo t (some ps') = (some ps₁, 0) ↔ ps'.state = ps.state ∧ ps'.name = ps.name := by
  refine ⟨ps.filled t, getpinfo_some t ps, Pstat.shows_filled_iff, fun ps' => ?_⟩
  rw [getpinfo_some, Prod.mk.injEq, Option.some_inj, and_iff_left rfl]
  exact Pstat.filled_eq_iff

namespace Machine

open TransitionSystem

variable {n : ℕ} {m : Machine n}

/-- A buffer of zeros. -/
def zeroPstat : Pstat where
  inuse _ := 0
  pid _ := 0
  state _ := 0
  tickets _ := 0
  originalTickets _ := 0
  rtime _ := 0
  stime _ := 0
  retime _ := 0
  ctime _ := 0
  etime _ := 0
  name _ _ := '\x00'

/-- After a `fork` that failed in `copyuvm`: the process that runs is shown as `UNUSED` and without
    a name, and the free slot with a pid. A buffer with other states and names is returned with
    these. -/
theorem getpinfo_zeroPstat : ∃ m : Machine 1, (machine 1).Reachable Any m ∧
    (m.ptable 0).state = .running ∧ (m.ptable 0).image.name = "initcode" ∧
    (m.ptable 1).state = .unused ∧
    ∃ ps, getpinfo m.ptable (some zeroPstat) = (some ps, 0) ∧ ps.state 0 = 0 ∧
      cname (ps.name 0) = "" ∧ ps.inuse 1 = 0 ∧ ps.pid 1 = 2 ∧
      ∃ ps', getpinfo m.ptable (some { zeroPstat with state := fun _ => 5 }) = (some ps', 0) ∧
        ps'.state 0 = 5 := by
  obtain ⟨m, hm, hP⟩ := exists_reachable (S := machine 1) ⟨0, 0, 0, rfl⟩
    (show (exec _ Any _ (forkWithoutMemory.map (0, ·))).any (fun m => decide (
      (m.ptable 0).state = .running ∧ (m.ptable 0).image.name = "initcode" ∧
      (m.ptable 1).state = .unused ∧ (m.ptable 1).pid = 2)) by decide +kernel)
  obtain ⟨hrun, hname, hfree, hpid⟩ := of_decide_eq_true hP
  refine ⟨m, hm, hrun, hname, hfree, _, getpinfo_some _ _, rfl, rfl, ?_, hpid, _,
    getpinfo_some _ _, rfl⟩
  exact if_neg (not_not.2 hfree)

end Machine

end Xv6
