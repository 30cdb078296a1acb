import Xv6.Proc.Basic

/-!
# The life of a process

The abstract view of a slot of the process table: the state of the process and
its times. `Life.Step` says what can happen to it, event by event; the rest of
the record (parent, files, tickets, ...) plays no role in it. That every step of
the machine is such an event of every slot is proved in
`Xv6.Proc.Refinement`; here are the operations on the table.
-/

namespace Xv6

/-- A process in this state is `SLEEPING`, `RUNNABLE` or `RUNNING`. -/
def Procstate.live : Procstate → Bool
  | .sleeping | .runnable | .running => true
  | .unused | .embryo | .zombie => false

/-- The state of a process and its times. -/
structure Life where
  state : Procstate
  ctime : UInt32
  etime : UInt32
  rtime : UInt32
  stime : UInt32
  retime : UInt32
  deriving DecidableEq

/-- The life of a process. -/
def Proc.life (q : Proc) : Life :=
  { state := q.state, ctime := q.ctime, etime := q.etime
    rtime := q.rtime, stime := q.stime, retime := q.retime }

@[simp] theorem Proc.life_state (q : Proc) : q.life.state = q.state := rfl
@[simp] theorem Proc.life_ctime (q : Proc) : q.life.ctime = q.ctime := rfl

namespace Life

/-- The events of a life. -/
inductive Event
  /-- Nothing happens. -/
  | keep
  /-- Dispatched, preempted, put to sleep or woken up. -/
  | move
  /-- `allocproc` takes the slot. -/
  | alloc
  /-- `allocproc` sets the times. -/
  | stamp
  /-- `fork` fails. -/
  | drop
  /-- `fork` makes the process `RUNNABLE`. -/
  | start
  | exit
  /-- `wait` or `waitx` frees the slot. -/
  | reap
  /-- The timer charges a tick. -/
  | charge
  deriving DecidableEq

/-- The charge of a tick. -/
def charge (x : Life) : Life :=
  match x.state with
  | .running => { x with rtime := x.rtime + 1 }
  | .runnable => { x with retime := x.retime + 1 }
  | .sleeping => { x with stime := x.stime + 1 }
  | _ => x

/-- The events, at the time `now`. -/
inductive Step (now : UInt32) : Event → Life → Life → Prop
  | keep (x : Life) : Step now .keep x x
  | move {x : Life} {s : Procstate} (hx : x.state.live) (hs : s.live) :
      Step now .move x { x with state := s }
  | alloc {x : Life} (hx : x.state = .unused) : Step now .alloc x { x with state := .embryo }
  | stamp {x : Life} (hx : x.state = .embryo) :
      Step now .stamp x { x with ctime := now, etime := 0, rtime := 0, stime := 0, retime := 0 }
  | drop {x : Life} (hx : x.state = .embryo) : Step now .drop x { x with state := .unused }
  | start {x : Life} (hx : x.state = .embryo) : Step now .start x { x with state := .runnable }
  | exit {x : Life} (hx : x.state = .running) :
      Step now .exit x { x with state := .zombie, etime := now }
  | reap {x : Life} (hx : x.state = .zombie) : Step now .reap x { x with state := .unused }
  | charge (x : Life) : Step now .charge x x.charge

theorem Step.eq_of_keep {now : UInt32} {x x' : Life} (h : Step now .keep x x') : x' = x := by
  cases h; rfl

theorem Step.eq_of_charge {now : UInt32} {x x' : Life} (h : Step now .charge x x') :
    x' = x.charge := by
  cases h; rfl

/-- `ctime` is set once in a life. -/
theorem Step.ctime_eq {now : UInt32} {e : Event} {x x' : Life} (h : Step now e x x') :
    x'.ctime = if e = .stamp then now else x.ctime := by
  cases h with
  | charge =>
    obtain ⟨s, ct, et, rt, st, re⟩ := x
    cases s <;> rfl
  | _ => rfl

/-- An `UNUSED` slot is taken or left. -/
theorem Step.unused_or_alloc {now : UInt32} {e : Event} {x x' : Life} (h : Step now e x x')
    (hx : x.state = .unused) (hx' : x'.state ≠ .unused) : e = .alloc := by
  cases h with
  | keep => exact absurd hx hx'
  | alloc => rfl
  | charge =>
    obtain ⟨s, ct, et, rt, st, re⟩ := x
    obtain rfl : s = .unused := hx
    exact absurd rfl hx'
  | move h => rw [hx] at h; cases h
  | stamp h => rw [hx] at h; cases h
  | drop h => rw [hx] at h; cases h
  | start h => rw [hx] at h; cases h
  | exit h => rw [hx] at h; cases h
  | reap h => rw [hx] at h; cases h

theorem Step.state_of_alloc {now : UInt32} {x x' : Life} (h : Step now .alloc x x') :
    x'.state = .embryo := by
  cases h; rfl

/-- A process starts its life once. -/
theorem Step.live_or_start {now : UInt32} {e : Event} {x x' : Life} (h : Step now e x x')
    (hx' : x'.state.live) : x.state.live ∨ e = .start := by
  cases h with
  | keep => exact .inl hx'
  | move hx => exact .inl hx
  | start => exact .inr rfl
  | stamp => exact .inl hx'
  | charge =>
    obtain ⟨s, ct, et, rt, st, re⟩ := x
    cases s <;> first | exact .inl rfl | cases hx'
  | _ => cases hx'

/-- A live process stays alive, or becomes a zombie. -/
theorem Step.live_or_zombie {now : UInt32} {e : Event} {x x' : Life} (h : Step now e x x')
    (hx : x.state.live) : x'.state.live ∨ x'.state = .zombie := by
  cases h with
  | keep => exact .inl hx
  | move _ hs => exact .inl hs
  | exit => exact .inr rfl
  | start => exact .inl rfl
  | charge =>
    obtain ⟨s, ct, et, rt, st, re⟩ := x
    cases s <;> first | exact .inl rfl | cases hx
  | alloc h => rw [h] at hx; cases hx
  | stamp h => rw [h] at hx; cases hx
  | drop h => rw [h] at hx; cases hx
  | reap h => rw [h] at hx; cases hx

/-- Nothing happened, or a sleeper was woken up. -/
def Woken (x x' : Life) : Prop :=
  x' = x ∨ x.state = .sleeping ∧ x' = { x with state := .runnable }

namespace Woken

variable {x x' x'' : Life}

theorem refl (x : Life) : Woken x x := .inl rfl

theorem trans (h₁ : Woken x x') (h₂ : Woken x' x'') : Woken x x'' := by
  rcases h₁ with rfl | ⟨hx, rfl⟩
  · exact h₂
  · rcases h₂ with rfl | ⟨hx', -⟩
    · exact .inr ⟨hx, rfl⟩
    · cases hx'

theorem eq_of_ne (h : Woken x x') (hx : x.state ≠ .sleeping) : x' = x := by
  rcases h with h | ⟨hs, -⟩
  · exact h
  · exact absurd hs hx

theorem running_iff (h : Woken x x') : x'.state = .running ↔ x.state = .running := by
  rcases h with rfl | ⟨hs, rfl⟩
  · rfl
  · simp [hs]

theorem embryo_iff (h : Woken x x') : x'.state = .embryo ↔ x.state = .embryo := by
  rcases h with rfl | ⟨hs, rfl⟩
  · rfl
  · simp [hs]

/-- A process that is not asleep is not touched, and waking up is a move. -/
theorem exists_step (h : Woken x x') (now : UInt32) :
    Step now .keep x x' ∨ Step now .move x x' := by
  rcases h with rfl | ⟨hs, rfl⟩
  · exact .inl (.keep _)
  · exact .inr (.move (by rw [hs]; rfl) rfl)

end Woken

end Life

/-! ## The operations on the table -/

open Life

variable {t : Ptable} {k : Kernel} {p q : Slot}

theorem life_charge (q : Proc) : q.charge.life = q.life.charge := by
  unfold Proc.charge Life.charge
  cases hs : q.state <;> simp [hs] <;> rfl

/-- A change of the rest of the record is not seen. -/
theorem life_modify {f : Proc → Proc} (hf : ∀ r, (f r).life = r.life) (t : Ptable)
    (p q : Slot) : (modify t p f q).life = (t q).life :=
  apply_modify Proc.life hf t p q

theorem state_modify {f : Proc → Proc} (hf : ∀ r, (f r).state = r.state) (t : Ptable)
    (p q : Slot) : (modify t p f q).state = (t q).state :=
  apply_modify Proc.state hf t p q

theorem woken_wakeup1 (t : Ptable) (chan : Option Chan) (q : Slot) :
    Woken (t q).life (wakeup1 t chan q).life := by
  unfold wakeup1
  split_ifs with h
  · exact .inr ⟨h.1, rfl⟩
  · exact .inl rfl

theorem woken_abandon (k : Kernel) (p q : Slot) :
    Woken (k.ptable q).life ((abandon k p).ptable q).life := by
  unfold abandon
  set t : Ptable := fun q =>
    if (k.ptable q).parent = some p then { k.ptable q with parent := some k.initproc }
    else k.ptable q with ht
  have h₁ : (t q).life = (k.ptable q).life := by
    rw [ht]
    dsimp only
    split_ifs <;> rfl
  dsimp only
  split_ifs
  · rw [← h₁]; exact woken_wakeup1 _ _ _
  · exact .inl h₁

/-- `exit` makes its process a zombie, and may wake up others. -/
theorem life_exit (hp : (k.ptable p).state = .running) :
    ((exit k p).ptable p).life = { (k.ptable p).life with state := .zombie, etime := k.ticks } ∧
      ∀ q, q ≠ p → Woken (k.ptable q).life ((exit k p).ptable q).life := by
  set k₁ := k.modify p fun q => { q with
    image := { q.image with ofile := fun _ => none, cwd := none } } with hk₁
  set k₂ : Kernel := { k₁ with ptable := wakeup1 k₁.ptable ((k₁.ptable p).parent.map .proc) }
    with hk₂
  have h₁ : ∀ q, (k₁.ptable q).life = (k.ptable q).life :=
    life_modify (fun _ => by rfl) k.ptable p
  have h₂ : ∀ q, Woken (k.ptable q).life ((abandon k₂ p).ptable q).life := fun q => by
    rw [← h₁ q]
    exact (woken_wakeup1 _ _ _).trans (woken_abandon k₂ p q)
  have he : (exit k p).ptable = modify (abandon k₂ p).ptable p fun q =>
    { q with etime := k.ticks, state := .zombie } := rfl
  constructor
  · have : ((abandon k₂ p).ptable p).life = (k.ptable p).life :=
      (h₂ p).eq_of_ne (by rw [Proc.life_state, hp]; exact fun h => nomatch h)
    rw [he, modify_self, ← this]
    rfl
  · intro q hq
    rw [he, modify_of_ne _ _ hq]
    exact h₂ q

theorem woken_kill (k : Kernel) (pid : Int32) (q : Slot) :
    Woken (k.ptable q).life ((kill k pid).1.ptable q).life := by
  unfold kill
  split
  · exact .refl _
  · rename_i p _
    by_cases hq : q = p
    · subst hq
      simp only [Kernel.modify, modify_self]
      by_cases hs : (k.ptable q).state = .sleeping
      · exact .inr ⟨hs, by simp [Proc.life, hs]⟩
      · exact .inl (by simp [Proc.life, hs])
    · simp only [Kernel.modify, modify_of_ne _ _ hq]
      exact .refl _

theorem life_settickets (k : Kernel) (p q : Slot) (v : Int32) :
    ((settickets k p v).1.ptable q).life = (k.ptable q).life := by
  unfold settickets
  split_ifs
  · rfl
  · exact life_modify (fun _ => by rfl) _ _ _

theorem state_of_findUnused (h : findUnused t = some q) : (t q).state = .unused := by
  simpa using List.find?_some h

/-- `allocproc` takes the first `UNUSED` slot. -/
theorem allocproc_eq_some {k' : Kernel} (h : allocproc k = some (p, k')) :
    findUnused k.ptable = some p ∧ k'.ptable = modify k.ptable p fun q =>
      { q with state := .embryo, pid := k.nextpid } := by
  obtain ⟨np, hnp, he⟩ := Option.map_eq_some_iff.1 h
  obtain ⟨rfl, rfl⟩ := Prod.mk.inj he
  exact ⟨hnp, rfl⟩

/-- The table after `userinit`: one process, and `UNUSED` slots. -/
theorem userinit_ptable (kstack pgdir root : ℕ) : (userinit kstack pgdir root).ptable =
    fun q => if q = 0 then
      { image := { sz := PGSIZE, pgdir := some pgdir, name := "initcode", cwd := some root }
        kstack := some kstack, state := .runnable, pid := 1, tickets := 10, originalTickets := 10 }
    else {} := by
  have : findUnused (fun _ => {}) = some 0 := by decide
  funext q
  simp only [userinit, allocproc, this, Option.map_some, allocprocInit, Kernel.modify, modify_apply]
  split_ifs <;> rfl

/-! ### What they leave alone -/

/-- What the kernel stack of a process holds. -/
def Proc.stack (q : Proc) : Context × Option Forking := (q.context, q.forking)

theorem stack_modify {f : Proc → Proc} (hf : ∀ r, (f r).stack = r.stack) (t : Ptable)
    (p q : Slot) : (modify t p f q).stack = (t q).stack :=
  apply_modify Proc.stack hf t p q

theorem stack_wakeup1 (t : Ptable) (chan : Option Chan) (q : Slot) :
    (wakeup1 t chan q).stack = (t q).stack := by
  unfold wakeup1
  split_ifs <;> rfl

theorem stack_abandon (k : Kernel) (p q : Slot) :
    ((abandon k p).ptable q).stack = (k.ptable q).stack := by
  have ht : Proc.stack (if (k.ptable q).parent = some p then
      { k.ptable q with parent := some k.initproc } else k.ptable q) = (k.ptable q).stack := by
    split_ifs <;> rfl
  unfold abandon
  dsimp only
  split_ifs
  · rw [stack_wakeup1]; exact ht
  · exact ht

theorem stack_exit (k : Kernel) (p q : Slot) :
    ((exit k p).ptable q).stack = (k.ptable q).stack := by
  unfold exit
  refine (stack_modify (fun _ => by rfl) _ _ _).trans ?_
  rw [stack_abandon, stack_wakeup1]
  exact stack_modify (fun _ => by rfl) _ _ _

theorem stack_kill (k : Kernel) (pid : Int32) (q : Slot) :
    ((kill k pid).1.ptable q).stack = (k.ptable q).stack := by
  unfold kill
  split
  · rfl
  · exact stack_modify (fun _ => by rfl) _ _ _

theorem stack_settickets (k : Kernel) (p q : Slot) (v : Int32) :
    ((settickets k p v).1.ptable q).stack = (k.ptable q).stack := by
  unfold settickets
  split_ifs
  · rfl
  · exact stack_modify (fun _ => by rfl) _ _ _

theorem setpolicy_ptable (k : Kernel) (v : Int32) : (setpolicy k v).1.ptable = k.ptable := by
  unfold setpolicy
  split_ifs <;> rfl

end Xv6
