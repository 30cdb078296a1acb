import Mathlib.Logic.Function.Basic
import Mathlib.Tactic.SplitIfs
import Xv6.Lib.TransitionSystem

/-!
# Monitors

A *monitor* is some data behind a spin lock, and the threads that use it. A thread is outside, where
it makes its calls, or in its critical section, where it changes the data step by step (`body`). It
can sleep on a channel in between: it gives up the lock until another thread wakes up that channel
or it is killed, and then takes the lock again. `sleep` and `wakeup` have a lock of their own, the
*gate*: a thread takes the gate before it gives up the lock, and holds it until it is asleep. A
`wakeup` is a critical section of the gate, and so is a `kill`.

* `locked_of_reachable`: who holds the lock and the gate, by where it is;
* `Keeps.of_reachable`: the invariant of a monitor, kept by every step of every thread;
* `awaited_of_reachable`: nobody sleeps without a reason, unless the holder of the lock is still to
  wake it up.
-/

variable {τ σ κ ν ω α : Type}

/-- What a thread does next in its critical section. -/
inductive Monitor.Op (σ κ ν ω : Type)
  /-- It changes the data. -/
  | next (d : σ) (l : ν)
  /-- It wakes up everybody who sleeps on the channel. -/
  | wakeup (c : κ) (l : ν)
  /-- It sleeps on the channel, and goes on from `l`. -/
  | sleep (c : κ) (l : ν)
  /-- It releases the lock. -/
  | leave (o : ω)
  /-- It stops here for ever. -/
  | halt

/-- The code of the threads `τ` that share the data `σ`, with channels `κ`. A thread is at some `ω`
    outside and at some `ν` in its critical section. -/
structure Monitor (τ σ κ ν ω α : Type) where
  init : σ → Prop
  /-- Where the threads are at the start. -/
  start : ω
  /-- The call `a`, if it is possible: what it changes without the lock, and where it goes. -/
  call : σ → τ → ω → α → Option (σ × (ω ⊕ ν))
  /-- The critical section, for a thread that is killed or not. -/
  body : σ → τ → Bool → ν → Monitor.Op σ κ ν ω

namespace Monitor

open Function

/-- Where a thread is. -/
inductive Pc (κ ν ω : Type)
  | outside (o : ω)
  /-- At the lock, at the start of a call or at the end of `sleep`. -/
  | acquire (l : ν)
  | inside (l : ν)
  /-- In `sleep`, with the gate, about to release the lock. -/
  | unlock (c : κ) (l : ν)
  /-- In `sleep`, without the lock, about to be asleep. -/
  | sched (c : κ) (l : ν)

/-- The data, and where the threads are. -/
structure State (τ σ κ ν ω : Type) where
  data : σ
  /-- The holder of the lock. -/
  lock : Option τ := none
  /-- The holder of the gate, in `sleep`. -/
  gate : Option τ := none
  /-- The channel of a thread that is asleep. -/
  chan : τ → Option κ := fun _ => none
  killed : τ → Bool := fun _ => false
  pc : τ → Pc κ ν ω

/-- What happens in a step. -/
inductive Act (τ α : Type)
  | call (t : τ) (a : α)
  | step (t : τ)
  | kill (t : τ)
  deriving DecidableEq

section Run

variable [DecidableEq τ] [DecidableEq κ]

namespace State

/-- The thread `t` goes on at `pc`. -/
def goto (s : State τ σ κ ν ω) (t : τ) (pc : Pc κ ν ω) : State τ σ κ ν ω :=
  { s with pc := Function.update s.pc t pc }

/-- All threads asleep on `c` are awake. -/
def wakeup (s : State τ σ κ ν ω) (c : κ) : State τ σ κ ν ω :=
  { s with chan := fun t => if s.chan t = some c then none else s.chan t }

/-- A thread is killed, which wakes it up. -/
def kill (s : State τ σ κ ν ω) (t : τ) : State τ σ κ ν ω :=
  { s with killed := Function.update s.killed t true, chan := Function.update s.chan t none }

end State

variable (m : Monitor τ σ κ ν ω α)

/-- A step in the critical section. -/
def perform (s : State τ σ κ ν ω) (t : τ) : Op σ κ ν ω → Option (State τ σ κ ν ω)
  | .next d l => some { s.goto t (.inside l) with data := d }
  | .wakeup c l => if s.gate.isSome then none else some ((s.wakeup c).goto t (.inside l))
  | .sleep c l =>
    if s.gate.isSome then none else some { s.goto t (.unlock c l) with gate := some t }
  | .leave o => some { s.goto t (.outside o) with lock := none }
  | .halt => none

/-- A step of a thread, if it can take one. -/
def run (s : State τ σ κ ν ω) (t : τ) : Pc κ ν ω → Option (State τ σ κ ν ω)
  | .outside _ => none
  | .acquire l =>
    if (s.chan t).isSome ∨ s.lock.isSome then none
    else some { s.goto t (.inside l) with lock := some t }
  | .inside l => perform s t (m.body s.data t (s.killed t) l)
  | .unlock c l => some { s.goto t (.sched c l) with lock := none }
  | .sched c l =>
    some { s.goto t (.acquire l) with gate := none, chan := Function.update s.chan t (some c) }

/-- Where a call goes. -/
def entry : ω ⊕ ν → Pc κ ν ω := Sum.elim .outside .acquire

/-- The step of an action, if it is possible. -/
def step (s : State τ σ κ ν ω) : Act τ α → Option (State τ σ κ ν ω)
  | .call t a =>
    match s.pc t with
    | .outside o => (m.call s.data t o a).map fun r => { s.goto t (entry r.2) with data := r.1 }
    | _ => none
  | .step t => m.run s t (s.pc t)
  | .kill t => if s.gate.isSome then none else some (s.kill t)

/-- The threads on the monitor. -/
def system : TransitionSystem (State τ σ κ ν ω) (Act τ α) where
  init s := m.init s.data ∧ s = { data := s.data, pc := fun _ => .outside m.start }
  step := m.step

/-! ## Steps -/

variable {m} {s s' : State τ σ κ ν ω} {t u : τ} {a : Act τ α} {pc : Pc κ ν ω} {c : κ} {l : ν}

omit [DecidableEq κ] in
@[simp] theorem goto_self : (s.goto t pc).pc t = pc := update_self ..

omit [DecidableEq κ] in
theorem goto_of_ne (h : u ≠ t) : (s.goto t pc).pc u = s.pc u := update_of_ne h ..

variable (m s t) in
/-- The steps of `t`, from where it is. -/
inductive Moves : Pc κ ν ω → State τ σ κ ν ω → Prop
  | acquire (l : ν) (hchan : s.chan t = none) (hlock : s.lock = none) :
    Moves (.acquire l) { s.goto t (.inside l) with lock := some t }
  | next (l : ν) (d : σ) (l' : ν) (hbody : m.body s.data t (s.killed t) l = .next d l') :
    Moves (.inside l) { s.goto t (.inside l') with data := d }
  | wakeup (l : ν) (c : κ) (l' : ν) (hbody : m.body s.data t (s.killed t) l = .wakeup c l')
    (hgate : s.gate = none) : Moves (.inside l) ((s.wakeup c).goto t (.inside l'))
  | sleep (l : ν) (c : κ) (l' : ν) (hbody : m.body s.data t (s.killed t) l = .sleep c l')
    (hgate : s.gate = none) : Moves (.inside l) { s.goto t (.unlock c l') with gate := some t }
  | leave (l : ν) (o : ω) (hbody : m.body s.data t (s.killed t) l = .leave o) :
    Moves (.inside l) { s.goto t (.outside o) with lock := none }
  | unlock (c : κ) (l : ν) : Moves (.unlock c l) { s.goto t (.sched c l) with lock := none }
  | sched (c : κ) (l : ν) :
    Moves (.sched c l)
      { s.goto t (.acquire l) with gate := none, chan := Function.update s.chan t (some c) }

theorem moves_of_run (h : m.run s t pc = some s') : Moves m s t pc s' := by
  cases pc with
  | outside o => cases h
  | acquire l =>
    rw [run] at h
    split_ifs at h with hc
    obtain rfl := Option.some.inj h
    simp only [not_or, Option.not_isSome_iff_eq_none] at hc
    exact .acquire l hc.1 hc.2
  | inside l =>
    rw [run] at h
    cases hb : m.body s.data t (s.killed t) l with
    | next d l' =>
      rw [hb] at h
      obtain rfl := Option.some.inj h
      exact .next l d l' hb
    | wakeup c l' =>
      rw [hb, perform] at h
      split_ifs at h with hg
      obtain rfl := Option.some.inj h
      exact .wakeup l c l' hb (by simpa using hg)
    | sleep c l' =>
      rw [hb, perform] at h
      split_ifs at h with hg
      obtain rfl := Option.some.inj h
      exact .sleep l c l' hb (by simpa using hg)
    | leave o =>
      rw [hb] at h
      obtain rfl := Option.some.inj h
      exact .leave l o hb
    | halt => rw [hb] at h; cases h
  | unlock c l =>
    obtain rfl := Option.some.inj h
    exact .unlock c l
  | sched c l =>
    obtain rfl := Option.some.inj h
    exact .sched c l

/-- The steps of the system. -/
theorem step_cases (h : m.system.step s a = some s') :
    (∃ t o b d r, a = .call t b ∧ s.pc t = .outside o ∧ m.call s.data t o b = some (d, r) ∧
      s' = { s.goto t (entry r) with data := d }) ∨
    (∃ t, a = .step t ∧ Moves m s t (s.pc t) s') ∨
      ∃ t, a = .kill t ∧ s.gate = none ∧ s' = s.kill t := by
  cases a with
  | call t b =>
    change m.step s (.call t b) = some s' at h
    rw [step] at h
    split at h
    · rename_i o ho
      obtain ⟨⟨d, r⟩, hr, rfl⟩ := Option.map_eq_some_iff.1 h
      exact .inl ⟨t, o, b, d, r, rfl, ho, hr, rfl⟩
    · cases h
  | step t => exact .inr (.inl ⟨t, rfl, moves_of_run h⟩)
  | kill t =>
    change (if s.gate.isSome then none else some (s.kill t)) = some s' at h
    split_ifs at h with hg
    exact .inr (.inr ⟨t, rfl, by simpa using hg, (Option.some.inj h).symm⟩)

theorem Moves.pc_of_ne (h : Moves m s t pc s') (hu : u ≠ t) : s'.pc u = s.pc u := by
  cases h <;> exact goto_of_ne hu

/-! ## Locks -/

/-- The thread is in its critical section. -/
def Pc.holds : Pc κ ν ω → Bool
  | .inside _ | .unlock .. => true
  | _ => false

/-- The thread holds the gate. -/
def Pc.holdsGate : Pc κ ν ω → Bool
  | .unlock .. | .sched .. => true
  | _ => false

/-- Who holds the locks. -/
structure Locked (s : State τ σ κ ν ω) : Prop where
  lock : ∀ t, (s.pc t).holds ↔ s.lock = some t
  gate : ∀ t, (s.pc t).holdsGate ↔ s.gate = some t

omit [DecidableEq κ] in
/-- A step of `t` that takes or releases locks. -/
theorem Locked.of (h : Locked s) (hpc : s'.pc = update s.pc t pc)
    (hlock : ∀ u, u ≠ t → (s'.lock = some u ↔ s.lock = some u))
    (hgate : ∀ u, u ≠ t → (s'.gate = some u ↔ s.gate = some u))
    (ht : pc.holds ↔ s'.lock = some t) (ht' : pc.holdsGate ↔ s'.gate = some t) : Locked s' := by
  refine ⟨fun u => ?_, fun u => ?_⟩
  all_goals
    rw [hpc]
    by_cases hu : u = t
  · rw [hu, update_self]; exact ht
  · rw [update_of_ne hu, hlock u hu]; exact h.lock u
  · rw [hu, update_self]; exact ht'
  · rw [update_of_ne hu, hgate u hu]; exact h.gate u

theorem Locked.moves (h : Locked s) (hm : Moves m s t (s.pc t) s') : Locked s' := by
  have ht := h.lock t
  have ht' := h.gate t
  generalize s.pc t = pc at hm ht ht'
  cases hm with
  | acquire l hchan hlock =>
    refine h.of rfl (fun u hu => ?_) (fun _ _ => .rfl) (by simp [Pc.holds]) ht'
    simp [hlock, hu.symm]
  | next l d l' hbody => exact h.of rfl (fun _ _ => .rfl) (fun _ _ => .rfl) ht ht'
  | wakeup l c l' hbody hgate => exact h.of rfl (fun _ _ => .rfl) (fun _ _ => .rfl) ht ht'
  | sleep l c l' hbody hgate =>
    refine h.of rfl (fun _ _ => .rfl) (fun u hu => ?_) ht (by simp [Pc.holdsGate])
    simp [hgate, hu.symm]
  | leave l o hbody =>
    refine h.of rfl (fun u hu => ?_) (fun _ _ => .rfl) (by simp [Pc.holds]) ht'
    simp [ht.1 rfl, hu.symm]
  | unlock c l =>
    refine h.of rfl (fun u hu => ?_) (fun _ _ => .rfl) (by simp [Pc.holds]) ht'
    simp [ht.1 rfl, hu.symm]
  | sched c l =>
    refine h.of rfl (fun _ _ => .rfl) (fun u hu => ?_) ht (by simp [Pc.holdsGate])
    simp [ht'.1 rfl, hu.symm]

theorem Locked.step (h : Locked s) (hs : m.system.step s a = some s') : Locked s' := by
  obtain ⟨t, o, b, d, r, -, ho, -, rfl⟩ | ⟨t, -, hm⟩ | ⟨t, -, -, rfl⟩ := step_cases hs
  · have ht := h.lock t
    have ht' := h.gate t
    rw [ho] at ht ht'
    cases r with
    | inl o' => exact h.of rfl (fun _ _ => .rfl) (fun _ _ => .rfl) ht ht'
    | inr l => exact h.of rfl (fun _ _ => .rfl) (fun _ _ => .rfl) ht ht'
  · exact h.moves hm
  · exact ⟨h.lock, h.gate⟩

variable {ok : State τ σ κ ν ω → Act τ α → Prop}

theorem locked_of_reachable (h : m.system.Reachable ok s) : Locked s := by
  refine h.invariant (fun s hs => ?_) fun _ _ _ hi _ hs => hi.step hs
  rw [hs.2]
  exact ⟨fun t => by simp [Pc.holds], fun t => by simp [Pc.holdsGate]⟩

omit [DecidableEq τ] [DecidableEq κ] in

/-! ## Invariants of the data -/

/-- Where the thread is in its code. -/
def Pc.code : Pc κ ν ω → Option ν
  | .outside _ => none
  | .acquire l | .inside l | .unlock _ l | .sched _ l => some l

/-- Where the thread is, if it runs in its critical section. -/
def Pc.active : Pc κ ν ω → Option ν
  | .inside l => some l
  | _ => none

/-- Where the holder of the lock is, if it runs in its critical section. -/
def State.phase (s : State τ σ κ ν ω) : Option ν := s.lock.bind fun t => (s.pc t).active

/-- Where the threads are in their code. -/
def State.code (s : State τ σ κ ν ω) (t : τ) : Option ν := (s.pc t).code

omit [DecidableEq κ] in
theorem code_of_update (hpc : s'.pc = update s.pc t pc) :
    s'.code = update s.code t pc.code := by
  have h := Function.comp_update Pc.code s.pc t pc
  rw [← hpc] at h
  exact h

omit [DecidableEq κ] in
/-- A step of the holder of the lock, which keeps it. -/
theorem phase_of_update (hpc : s'.pc = update s.pc t pc) (hlock : s'.lock = some t) :
    s'.phase = pc.active := by
  rw [State.phase, hlock, Option.bind_some, hpc, update_self]

omit [DecidableEq τ] [DecidableEq κ] in
theorem phase_of_unlocked (hlock : s.lock = none) : s.phase = none := by
  rw [State.phase, hlock, Option.bind_none]

omit [DecidableEq κ] in
/-- A step of a thread outside of its critical section. -/
theorem phase_of_ne (hpc : s'.pc = update s.pc t pc) (hlock : s'.lock = s.lock)
    (ht : s.lock ≠ some t) : s'.phase = s.phase := by
  rw [State.phase, State.phase, hlock]
  cases hl : s.lock with
  | none => rfl
  | some u =>
    have hut : u ≠ t := fun he => ht (he ▸ hl)
    rw [Option.bind_some, Option.bind_some, hpc, update_of_ne hut]

omit [DecidableEq κ] in
/-- What a step of a thread outside of its critical section leaves. -/
theorem of_elsewhere {I : σ → Option ν → (τ → Option ν) → Prop}
    (hpc : s'.pc = update s.pc t pc) (hlock : s'.lock = s.lock) (ht : s.lock ≠ some t)
    (h : I s'.data s.phase (update s.code t pc.code)) : I s'.data s'.phase s'.code := by
  rw [phase_of_ne hpc hlock ht, code_of_update hpc]
  exact h

/-- A thread that runs in its critical section is where the holder of the lock is. -/
theorem phase_of_inside (h : m.system.Reachable ok s) (hl : s.pc t = .inside l) :
    s.phase = some l := by
  have hlock : s.lock = some t := ((locked_of_reachable h).lock t).1 (by rw [hl]; rfl)
  rw [State.phase, hlock, Option.bind_some, hl]
  rfl

variable (m) in
/-- The steps of the threads keep `I`, of the data, of where the holder of the lock is and of where
    the threads are in their code. `E` is where a thread enters its critical section, at the start
    or after it was asleep. -/
structure Keeps (I : σ → Option ν → (τ → Option ν) → Prop) (E : ν → Prop) : Prop where
  call : ∀ {d ph code t o a d' r}, I d ph code → code t = none → m.call d t o a = some (d', r) →
    I d' ph (Function.update code t (Sum.elim (fun _ => none) some r)) ∧ ∀ l, r = .inr l → E l
  acquire : ∀ {d code t l}, I d none code → code t = some l → E l → I d (some l) code
  next : ∀ {d code t k l d' l'}, I d (some l) code → code t = some l →
    m.body d t k l = .next d' l' → I d' (some l') (Function.update code t (some l'))
  wakeup : ∀ {d code t k l c l'}, I d (some l) code → code t = some l →
    m.body d t k l = .wakeup c l' → I d (some l') (Function.update code t (some l'))
  sleep : ∀ {d code t k l c l'}, I d (some l) code → code t = some l →
    m.body d t k l = .sleep c l' → I d none (Function.update code t (some l')) ∧ E l'
  leave : ∀ {d code t k l o}, I d (some l) code → code t = some l →
    m.body d t k l = .leave o → I d none (Function.update code t none)

/-- A thread that is about to take the lock is where threads enter. -/
def Pc.Enters (E : ν → Prop) : Pc κ ν ω → Prop
  | .acquire l | .unlock _ l | .sched _ l => E l
  | .outside _ | .inside _ => True

theorem Keeps.moves {I : σ → Option ν → (τ → Option ν) → Prop} {E : ν → Prop} (hk : Keeps m I E)
    (hl : Locked s) (hI : I s.data s.phase s.code) (hE : (s.pc t).Enters E)
    (hm : Moves m s t (s.pc t) s') : I s'.data s'.phase s'.code ∧ (s'.pc t).Enters E := by
  have hlock := hl.lock t
  -- what a step of `t` leaves, by where it goes and whether it has the lock then
  have with_lock {s'' : State τ σ κ ν ω} {pc : Pc κ ν ω} (hpc : s''.pc = update s.pc t pc)
      (hlock' : s''.lock = some t)
      (h : I s''.data pc.active (update s.code t pc.code)) (hpcE : pc.Enters E) :
      I s''.data s''.phase s''.code ∧ (s''.pc t).Enters E := by
    rw [phase_of_update hpc hlock', code_of_update hpc, hpc, update_self]
    exact ⟨h, hpcE⟩
  have without_lock {s'' : State τ σ κ ν ω} {pc : Pc κ ν ω}
      (hpc : s''.pc = update s.pc t pc) (hlock' : s''.lock = none)
      (h : I s''.data none (update s.code t pc.code)) (hpcE : pc.Enters E) :
      I s''.data s''.phase s''.code ∧ (s''.pc t).Enters E := by
    rw [phase_of_unlocked hlock', code_of_update hpc, hpc, update_self]
    exact ⟨h, hpcE⟩
  have hphase (hin : (s.pc t).holds) : s.phase = (s.pc t).active := by
    rw [State.phase, hlock.1 hin, Option.bind_some]
  have hself : update s.code t (s.pc t).code = s.code := update_eq_self t s.code
  have hcode : s.code t = (s.pc t).code := rfl
  generalize s.pc t = q at hm hE hcode hlock hphase hself
  cases hm with
  | acquire l hchan hfree =>
    rw [phase_of_unlocked hfree] at hI
    refine with_lock rfl rfl ?_ trivial
    exact hself.symm ▸ hk.acquire hI hcode hE
  | next l d l' hb =>
    rw [hphase rfl] at hI
    exact with_lock rfl (hlock.1 rfl) (hk.next hI hcode hb) trivial
  | wakeup l c l' hb hgate =>
    rw [hphase rfl] at hI
    exact with_lock rfl (hlock.1 rfl) (hk.wakeup hI hcode hb) trivial
  | sleep l c l' hb hgate =>
    rw [hphase rfl] at hI
    obtain ⟨hI', hE'⟩ := hk.sleep hI hcode hb
    exact with_lock rfl (hlock.1 rfl) hI' hE'
  | leave l o hb =>
    rw [hphase rfl] at hI
    exact without_lock rfl rfl (hk.leave hI hcode hb) trivial
  | unlock c l =>
    rw [hphase rfl] at hI
    refine without_lock rfl rfl ?_ hE
    exact hself.symm ▸ hI
  | sched c l =>
    have hne : s.lock ≠ some t := fun he => nomatch hlock.2 he
    refine ⟨of_elsewhere rfl rfl hne ?_, by rw [goto_self]; exact hE⟩
    exact hself.symm ▸ hI

/-- The invariant of a monitor. -/
theorem Keeps.of_reachable {I : σ → Option ν → (τ → Option ν) → Prop} {E : ν → Prop}
    (hk : Keeps m I E) (hinit : ∀ d, m.init d → I d none fun _ => none)
    (h : m.system.Reachable ok s) :
    I s.data s.phase s.code ∧ ∀ t, (s.pc t).Enters E := by
  induction h with
  | init hs =>
    rw [hs.2]
    exact ⟨hinit _ hs.1, fun _ => trivial⟩
  | @step s s' a h hok hs ih =>
    obtain ⟨hI, hE⟩ := ih
    have hl := locked_of_reachable h
    obtain ⟨t, o, b, d, r, -, ho, hc, rfl⟩ | ⟨t, -, hm⟩ | ⟨t, -, -, rfl⟩ := step_cases hs
    · have hnone : s.code t = none := by rw [State.code, ho]; rfl
      have hne : s.lock ≠ some t := fun he => by
        have := (hl.lock t).2 he
        rw [ho] at this
        cases this
      obtain ⟨hI', hr⟩ := hk.call hI hnone hc
      have hentry : (entry r : Pc κ ν ω).code = Sum.elim (fun _ => none) some r := by
        cases r <;> rfl
      refine ⟨of_elsewhere rfl rfl hne ?_, fun u => ?_⟩
      · rw [hentry]
        exact hI'
      · by_cases hu : u = t
        · rw [hu]
          change ((s.goto t _).pc t).Enters E
          rw [goto_self]
          cases r with
          | inl o' => trivial
          | inr l => exact hr l rfl
        · change ((s.goto t _).pc u).Enters E
          rw [goto_of_ne hu]
          exact hE u
    · obtain ⟨hI', ht⟩ := hk.moves hl hI (hE t) hm
      refine ⟨hI', fun u => ?_⟩
      by_cases hu : u = t
      · rw [hu]; exact ht
      · rw [hm.pc_of_ne hu]; exact hE u
    · exact ⟨hI, hE⟩

/-- The step leads to data with `J`, and to a place with `P`. -/
def Op.Meets (J : σ → Prop) (P : ν → Prop) : Op σ κ ν ω → Prop
  | .next d l => J d ∧ P l
  | .wakeup _ l | .sleep _ l => P l
  | .leave _ | .halt => True

/-- An invariant of the data and of each place alone. -/
theorem invariant_of_reachable {J : σ → Prop} {P : ν → Prop}
    (hinit : ∀ d, m.init d → J d)
    (hcall : ∀ {d t o a d' r}, J d → m.call d t o a = some (d', r) → J d' ∧ ∀ l, r = .inr l → P l)
    (hbody : ∀ {d t k l}, J d → P l → (m.body d t k l).Meets J P)
    (h : m.system.Reachable ok s) : J s.data ∧ ∀ t l, s.code t = some l → P l := by
  -- the places of the others stay
  have places {code : τ → Option ν} {t : τ} {x : Option ν} (hP : ∀ t l, code t = some l → P l)
      (ht : ∀ l, x = some l → P l) (u : τ) (l : ν) (hl : update code t x u = some l) :
      P l := by
    by_cases hu : u = t
    · rw [hu, update_self] at hl; exact ht l hl
    · rw [update_of_ne hu] at hl; exact hP u l hl
  have at_some {l l' : ν} (hl : P l) (he : some l = some l') : P l' := Option.some.inj he ▸ hl
  have hk : Keeps m (fun d _ code => J d ∧ ∀ t l, code t = some l → P l) fun _ => True := by
    refine ⟨@fun d _ code t o a d' r hI _ hc => ?_, fun hI _ _ => hI,
      @fun d code t k l d' l' hI hl hb => ?_, @fun d code t k l c l' hI hl hb => ?_,
      @fun d code t k l c l' hI hl hb => ?_, @fun d code t k l o hI _ _ => ?_⟩
    · obtain ⟨hJ', hr⟩ := hcall hI.1 hc
      refine ⟨⟨hJ', places hI.2 fun l hl => hr l ?_⟩, fun _ _ => trivial⟩
      cases r with
      | inl o => cases hl
      | inr l' => exact congrArg Sum.inr (Option.some.inj hl)
    · have hm := hbody hI.1 (hI.2 t l hl) (t := t) (k := k)
      rw [hb] at hm
      exact ⟨hm.1, places hI.2 fun _ => at_some hm.2⟩
    · have hm := hbody hI.1 (hI.2 t l hl) (t := t) (k := k)
      rw [hb] at hm
      exact ⟨hI.1, places hI.2 fun _ => at_some hm⟩
    · have hm := hbody hI.1 (hI.2 t l hl) (t := t) (k := k)
      rw [hb] at hm
      exact ⟨⟨hI.1, places hI.2 fun _ => at_some hm⟩, trivial⟩
    · exact ⟨hI.1, places hI.2 nofun⟩
  exact (hk.of_reachable (fun d hd => ⟨hinit d hd, nofun⟩) h).1

/-! ## Sleepers -/

/-- The channel that the thread is about to sleep on, and where it goes on from. -/
def Pc.sleeps : Pc κ ν ω → Option (κ × ν)
  | .unlock c l | .sched c l => some (c, l)
  | _ => none

/-- The thread sleeps on the channel, or is about to. -/
def Asleep (s : State τ σ κ ν ω) (t : τ) (c : κ) : Prop :=
  s.chan t = some c ∨ ∃ l, (s.pc t).sleeps = some (c, l)

omit [DecidableEq κ] in
theorem Pc.sleeps.holdsGate {c : κ} {l : ν} (h : pc.sleeps = some (c, l)) : pc.holdsGate := by
  cases pc with
  | unlock | sched => rfl
  | outside | acquire | inside => cases h

omit [DecidableEq κ] in
theorem Asleep.of_eq (h : Asleep s' t c) (hchan : s'.chan = s.chan)
    (hpc : s'.pc = update s.pc u pc) (hpc' : pc.sleeps = none) : Asleep s t c := by
  obtain h | ⟨l, hl⟩ := h
  · exact .inl (hchan ▸ h)
  · have htu : t ≠ u := by
      rintro rfl
      rw [hpc, update_self, hpc'] at hl
      cases hl
    rw [hpc, update_of_ne htu] at hl
    exact .inr ⟨l, hl⟩

/-- After a `wakeup` nobody sleeps on the channel: a thread on its way to sleep has the gate. -/
theorem Asleep.of_wakeup {d : κ} (h : Asleep ((s.wakeup d).goto u pc) t c) (hl : Locked s)
    (hgate : s.gate = none) (hpc : pc.sleeps = none) : Asleep s t c ∧ c ≠ d := by
  have hs : Asleep (s.wakeup d) t c := h.of_eq rfl rfl hpc
  obtain hc | ⟨l, hk⟩ := hs
  · by_cases hd : s.chan t = some d
    · simp [State.wakeup, hd] at hc
    · have hc' : s.chan t = some c := by simpa [State.wakeup, hd] using hc
      exact ⟨.inl hc', fun he => hd (he ▸ hc')⟩
  · have ht := (hl.gate t).1 (Pc.sleeps.holdsGate hk)
    rw [hgate] at ht
    cases ht

omit [DecidableEq κ] in
/-- A thread that goes to sleep was about to. -/
theorem asleep_sched (hpc : s.pc t = .sched c l) {c' : κ}
    (h : Asleep { s.goto t (.acquire l) with
      gate := none, chan := update s.chan t (some c) } u c') : Asleep s u c' := by
  by_cases hut : u = t
  · subst hut
    obtain hc | ⟨l', hl⟩ := h
    · have he : c = c' := by simpa using hc
      exact .inr ⟨l, by rw [hpc, he]; rfl⟩
    · have hl' : (Pc.acquire l : Pc κ ν ω).sleeps = some (c', l') := by simpa using hl
      cases hl'
  · obtain hc | ⟨l', hl⟩ := h
    · exact .inl (by simpa [State.goto, hut] using hc)
    · exact .inr ⟨l', by simpa [State.goto, hut] using hl⟩

omit [DecidableEq κ] in
theorem asleep_unlock (hpc : s.pc t = .unlock c l) {c' : κ}
    (h : Asleep { s.goto t (.sched c l) with lock := none } u c') : Asleep s u c' := by
  obtain hc | ⟨l', hl⟩ := h
  · exact .inl hc
  · by_cases hut : u = t
    · subst hut
      have hl' : (Pc.sched c l : Pc κ ν ω).sleeps = some (c', l') := by simpa using hl
      exact .inr ⟨l', by rw [hpc]; exact hl'⟩
    · exact .inr ⟨l', by simpa [State.goto, hut] using hl⟩

omit [DecidableEq κ] in
theorem asleep_kill (h : Asleep (s.kill t) u c) : Asleep s u c := by
  obtain hc | hl := h
  · by_cases hut : u = t
    · simp [State.kill, hut] at hc
    · exact .inl (by simpa [State.kill, hut] using hc)
  · exact .inr hl

/-- Where a thread goes on after it was asleep. -/
def Pc.resumes : Pc κ ν ω → Option ν
  | .acquire l | .unlock _ l | .sched _ l => some l
  | .outside _ | .inside _ => none

omit [DecidableEq τ] [DecidableEq κ] in
theorem Pc.code_of_resumes (h : pc.resumes = some l) : pc.code = some l := by
  cases pc with
  | acquire | unlock | sched => exact h
  | outside | inside => cases h

/-- Where a thread is that sleeps, or is about to. -/
theorem resumes_of_asleep {R : κ → ν → Prop}
    (hR : ∀ {d t k l c l'}, m.body d t k l = .sleep c l' → R c l') (h : m.system.Reachable ok s)
    (hc : Asleep s t c) : ∃ l, (s.pc t).resumes = some l ∧ R c l := by
  induction h generalizing t c with
  | init hs =>
    rw [hs.2] at hc
    obtain hc | ⟨l, hl⟩ := hc
    · cases hc
    · cases hl
  | @step s s' a h hok hs ih =>
    -- a step of `u` that leaves a sleeper where it is
    have keep {s'' : State τ σ κ ν ω} {u : τ} {pc : Pc κ ν ω} (hc : Asleep s t c)
        (hpc : s''.pc = update s.pc u pc)
        (hu : t = u → ∀ l, (s.pc u).resumes = some l → pc.resumes = some l) :
        ∃ l, (s''.pc t).resumes = some l ∧ R c l := by
      obtain ⟨l, hl, hr⟩ := ih hc
      refine ⟨l, ?_, hr⟩
      rw [hpc]
      by_cases htu : t = u
      · subst htu
        rw [update_self]
        exact hu rfl l hl
      · rwa [update_of_ne htu]
    obtain ⟨u, o, b, d, r, -, ho, -, rfl⟩ | ⟨u, -, hm⟩ | ⟨u, -, -, rfl⟩ := step_cases hs
    · have hentry : (entry r : Pc κ ν ω).sleeps = none := by cases r <;> rfl
      refine keep (hc.of_eq rfl rfl hentry) rfl fun _ l hl => ?_
      rw [ho] at hl
      cases hl
    · have hl := locked_of_reachable h
      generalize hq : s.pc u = q at hm
      -- a thread in its critical section is awake
      have awake {l : ν} {P : Prop} (hq : s.pc u = .inside l) {l' : ν}
          (hl' : (s.pc u).resumes = some l') : P := by
        rw [hq] at hl'
        cases hl'
      cases hm with
      | acquire l hchan hlock =>
        have hc' : Asleep s t c := hc.of_eq rfl rfl rfl
        refine keep hc' rfl fun htu l' hl' => ?_
        subst htu
        obtain hc' | ⟨l'', hl''⟩ := hc'
        · rw [hchan] at hc'; cases hc'
        · rw [hq] at hl''; cases hl''
      | next l d l' hb => exact keep (hc.of_eq rfl rfl rfl) rfl fun _ _ => awake hq
      | wakeup l d l' hb hgate => exact keep (hc.of_wakeup hl hgate rfl).1 rfl fun _ _ => awake hq
      | sleep l d l' hb hgate =>
        by_cases htu : t = u
        · subst htu
          refine ⟨l', by rw [goto_self]; rfl, ?_⟩
          obtain hc | ⟨l'', hl''⟩ := hc
          · obtain ⟨l'', hl'', -⟩ := ih (.inl hc)
            exact awake hq hl''
          · rw [goto_self] at hl''
            obtain ⟨rfl, rfl⟩ := Prod.mk.inj (Option.some.inj hl'')
            exact hR hb
        · refine keep ?_ rfl fun he => absurd he htu
          obtain hc | ⟨l'', hl''⟩ := hc
          · exact .inl hc
          · exact .inr ⟨l'', by simpa [State.goto, htu] using hl''⟩
      | leave l o hb => exact keep (hc.of_eq rfl rfl rfl) rfl fun _ _ => awake hq
      | unlock d l => exact keep (asleep_unlock hq hc) rfl fun _ l' hl' => by rwa [hq] at hl'
      | sched d l => exact keep (asleep_sched hq hc) rfl fun _ l' hl' => by rwa [hq] at hl'
    · exact ih (asleep_kill hc)

/-! ## Wakeups -/

variable (m) in
/-- The reasons to sleep on each channel, and what a thread owes in its critical section: it wakes
    up a channel after it has taken away the reason to sleep on it, before it releases the lock. -/
structure Pays (ok : State τ σ κ ν ω → Act τ α → Prop) (reason : σ → κ → Prop)
    (owes : ν → κ → Prop) : Prop where
  call : ∀ {s t o a d r c u}, m.system.Reachable ok s → s.pc t = .outside o →
    m.call s.data t o a = some (d, r) → Asleep s u c → reason s.data c → reason d c
  next : ∀ {s t l d l' c}, m.system.Reachable ok s → ok s (.step t) → s.pc t = .inside l →
    m.body s.data t (s.killed t) l = .next d l' →
    (reason s.data c → reason d c ∨ owes l' c) ∧ (owes l c → owes l' c)
  wakeup : ∀ {s t l c c' l'}, m.system.Reachable ok s → s.pc t = .inside l →
    m.body s.data t (s.killed t) l = .wakeup c l' → owes l c' → c' = c ∨ owes l' c'
  sleep : ∀ {s t l c l'}, m.system.Reachable ok s → s.pc t = .inside l →
    m.body s.data t (s.killed t) l = .sleep c l' → reason s.data c ∧ ∀ c', ¬owes l c'
  leave : ∀ {s t l o c}, m.system.Reachable ok s → s.pc t = .inside l →
    m.body s.data t (s.killed t) l = .leave o → ¬owes l c

variable {reason : σ → κ → Prop} {owes : ν → κ → Prop}

/-- Who sleeps has a reason, or is about to be woken up. -/
def Awaited (reason : σ → κ → Prop) (owes : ν → κ → Prop) (s : State τ σ κ ν ω) : Prop :=
  ∀ t c, Asleep s t c → reason s.data c ∨ ∃ u l, s.pc u = .inside l ∧ owes l c

omit [DecidableEq κ] in
/-- A step of `t`: nobody goes to sleep without a reason, and if `t` takes the reason away, or was
    to wake up the sleepers, it is to do so after the step. -/
theorem Awaited.of (h : Awaited reason owes s) (hpc : s'.pc = update s.pc t pc)
    (hasleep : ∀ u c, Asleep s' u c → Asleep s u c ∨ reason s'.data c)
    (hreason : ∀ u c, Asleep s' u c → Asleep s u c → reason s.data c →
      reason s'.data c ∨ ∃ l, pc = .inside l ∧ owes l c)
    (howes : ∀ u c l, Asleep s' u c → s.pc t = .inside l → owes l c →
      ∃ l', pc = .inside l' ∧ owes l' c) : Awaited reason owes s' := by
  intro u c hu
  have ht : (∃ l, pc = .inside l ∧ owes l c) → ∃ v l, s'.pc v = .inside l ∧ owes l c := by
    rintro ⟨l, hl, hc⟩
    exact ⟨t, l, by rw [hpc, update_self, hl], hc⟩
  obtain hs | hr := hasleep u c hu
  · obtain hr | ⟨v, l, hv, hc⟩ := h u c hs
    · exact (hreason u c hu hs hr).imp_right ht
    · by_cases hvt : v = t
      · exact .inr (ht (howes u c l hu (hvt ▸ hv) hc))
      · exact .inr ⟨v, l, by rw [hpc, update_of_ne hvt]; exact hv, hc⟩
  · exact .inl hr

theorem Awaited.moves (hp : Pays m ok reason owes) (hr : m.system.Reachable ok s)
    (hok : ok s (.step t)) (h : Awaited reason owes s) (hm : Moves m s t (s.pc t) s') :
    Awaited reason owes s' := by
  have hl := locked_of_reachable hr
  generalize hq : s.pc t = q at hm
  -- a thread that is not in its critical section owes nothing
  have free (hne : ∀ l, q ≠ .inside l) {l : ν} {P : Prop} (hpc : s.pc t = .inside l) : P :=
    absurd (hq.symm.trans hpc) (hne l)
  cases hm with
  | acquire l hchan hlock =>
    exact h.of rfl (fun u c hu => .inl (hu.of_eq rfl rfl rfl)) (fun _ _ _ _ hc => .inl hc)
      fun u c l' _ hpc _ => free nofun hpc
  | next l d l' hbody =>
    refine h.of rfl (fun u c hu => .inl (hu.of_eq rfl rfl rfl)) (fun u c _ _ hc => ?_)
      fun u c l'' _ hpc hc => ?_
    · exact ((hp.next hr hok hq hbody).1 hc).imp_right fun ho => ⟨l', rfl, ho⟩
    · obtain rfl : l = l'' := by
        rw [hq] at hpc
        exact Pc.inside.inj hpc
      exact ⟨l', rfl, (hp.next hr hok hq hbody).2 hc⟩
  | wakeup l c l' hbody hgate =>
    refine h.of rfl (fun u d hu => .inl (hu.of_wakeup hl hgate rfl).1) (fun _ _ _ _ hc => .inl hc)
      fun u d l'' hu hpc hd => ?_
    obtain rfl : l = l'' := by
      rw [hq] at hpc
      exact Pc.inside.inj hpc
    have hne := (hu.of_wakeup hl hgate rfl).2
    exact ⟨l', rfl, (hp.wakeup hr hq hbody hd).resolve_left hne⟩
  | sleep l c l' hbody hgate =>
    obtain ⟨hreason, howes⟩ := hp.sleep hr hq hbody
    refine h.of rfl (fun u d hu => ?_) (fun _ _ _ _ hc => .inl hc) fun u d l'' _ hpc hd => ?_
    · obtain hc | ⟨k, hk⟩ := hu
      · exact .inl (.inl hc)
      · by_cases hut : u = t
        · have hk' : (Pc.unlock c l' : Pc κ ν ω).sleeps = some (d, k) := by simpa [hut] using hk
          obtain ⟨rfl, -⟩ := Prod.mk.inj (Option.some.inj hk')
          exact .inr hreason
        · exact .inl (.inr ⟨k, by simpa [State.goto, hut] using hk⟩)
    · obtain rfl : l = l'' := by
        rw [hq] at hpc
        exact Pc.inside.inj hpc
      exact absurd hd (howes d)
  | leave l o hbody =>
    refine h.of rfl (fun u c hu => .inl (hu.of_eq rfl rfl rfl)) (fun _ _ _ _ hc => .inl hc)
      fun u c l'' _ hpc hc => ?_
    obtain rfl : l = l'' := by
      rw [hq] at hpc
      exact Pc.inside.inj hpc
    exact absurd hc (hp.leave hr hq hbody)
  | unlock c l =>
    exact h.of rfl (fun u d hu => .inl (asleep_unlock hq hu)) (fun _ _ _ _ hc => .inl hc)
      fun u d l' _ hpc _ => free nofun hpc
  | sched c l =>
    exact h.of rfl (fun u d hu => .inl (asleep_sched hq hu)) (fun _ _ _ _ hc => .inl hc)
      fun u d l' _ hpc _ => free nofun hpc

theorem awaited_of_reachable (hp : Pays m ok reason owes) (h : m.system.Reachable ok s) :
    Awaited reason owes s := by
  induction h with
  | init hs =>
    rw [hs.2]
    rintro t c (hc | ⟨l, hl⟩)
    · cases hc
    · cases hl
  | @step s s' a h hok hs ih =>
    obtain ⟨t, o, b, d, r, -, ho, hcall, rfl⟩ | ⟨t, rfl, hm⟩ | ⟨t, -, -, rfl⟩ := step_cases hs
    · have hentry : (entry r : Pc κ ν ω).sleeps = none := by cases r <;> rfl
      refine ih.of rfl (fun u c hu => .inl (hu.of_eq rfl rfl hentry))
        (fun u c _ hu hc => .inl (hp.call h ho hcall hu hc)) fun u c l _ hpc _ => ?_
      rw [ho] at hpc
      cases hpc
    · exact ih.moves hp h hok hm
    · exact fun u c hu => ih u c (asleep_kill hu)

/-- While the lock is free, who sleeps has a reason. -/
theorem Pays.reason_of_chan (hp : Pays m ok reason owes) (h : m.system.Reachable ok s)
    (hlock : s.lock = none) (hc : s.chan t = some c) : reason s.data c := by
  refine (awaited_of_reachable hp h t c (.inl hc)).resolve_right ?_
  rintro ⟨u, l, hu, -⟩
  have := ((locked_of_reachable h).lock u).1 (by rw [hu]; rfl)
  rw [hlock] at this
  cases this

end Run

end Monitor
