import Xv6.Proc.Family
import Xv6.Proc.Invariant

/-!
# The machine refines the family of its processes

Every step of the machine is an event of the family (`exists_acts`), and the
events that create, free or kill processes come from the actions that call for
them. What is claimed about parents, children, pids and freed slots is proved of
the events, and carried over to the machine by `Acts`.
-/

namespace Xv6

variable {κ : Kernel} {p q : Slot}

/-! ## The operations on the table -/

theorem entry_charge (q : Proc) : q.charge.entry = q.entry := by
  unfold Proc.charge
  cases hs : q.state <;> simp [Proc.entry, hs]

theorem family_modify {f : Proc → Proc} {g : Entry → Entry}
    (h : (f (κ.ptable p)).entry = g (κ.ptable p).entry) :
    (κ.modify p f).family = κ.family.set p g := by
  simp only [Kernel.family, Family.set, Kernel.modify, Family.mk.injEq, and_true]
  funext q
  by_cases hq : q = p
  · subst hq
    rw [modify_self, if_pos rfl, h]
  · rw [modify_of_ne _ _ hq, if_neg hq]

/-- A change of the rest of the record is not seen. -/
theorem family_modify_of_entry {f : Proc → Proc}
    (h : (f (κ.ptable p)).entry = (κ.ptable p).entry) : (κ.modify p f).family = κ.family := by
  rw [family_modify (g := id) h]
  simp [Family.set]

theorem entry_wakeup1 (t : Ptable) (chan : Option Chan) (q : Slot) :
    (wakeup1 t chan q).entry = (t q).entry.wakeup chan := by
  unfold wakeup1 Entry.wakeup
  by_cases hs : (t q).state = .sleeping
  · by_cases hc : (t q).chan = chan <;> simp [Proc.entry, hs, hc]
  · simp [hs]

theorem family_wakeup1 (chan : Option Chan) :
    Kernel.family { κ with ptable := wakeup1 κ.ptable chan } = κ.family.wakeup chan := by
  simp only [Kernel.family, Family.wakeup, entry_wakeup1]

theorem family_abandon (p : Slot) : (abandon κ p).family = κ.family.abandon p := by
  set t : Ptable := fun q =>
    if (κ.ptable q).parent = some p then { κ.ptable q with parent := some κ.initproc }
    else κ.ptable q with ht
  have hr : Kernel.family { κ with ptable := t } = κ.family.reparent p := by
    simp only [ht, Kernel.family, Family.reparent, Family.mk.injEq, and_true]
    funext q
    by_cases hq : (κ.ptable q).parent = some p <;> simp [hq, Proc.entry]
  have hz : (slots.any fun q =>
      (κ.ptable q).parent = some p ∧ (κ.ptable q).state = .zombie) = true ↔
      ∃ q, (κ.family.entry q).parent = some p ∧ (κ.family.entry q).state = .zombie := by
    simp [Kernel.family]
  unfold abandon Family.abandon
  by_cases h : ∃ q, (κ.family.entry q).parent = some p ∧ (κ.family.entry q).state = .zombie
  · rw [if_pos (hz.2 h), if_pos h, ← hr]
    exact family_wakeup1 (κ := { κ with ptable := t }) _
  · rw [if_neg (mt hz.1 h), if_neg h]
    exact hr

theorem family_exit (p : Slot) : (exit κ p).family = κ.family.exit p := by
  set κ₁ := κ.modify p fun q => { q with
    image := { q.image with ofile := fun _ => none, cwd := none } } with hκ₁
  set κ₂ : Kernel := { κ₁ with ptable := wakeup1 κ₁.ptable ((κ₁.ptable p).parent.map .proc) }
    with hκ₂
  have h₁ : κ₁.family = κ.family.set p Entry.close := family_modify rfl
  have h₂ : κ₂.family = κ₁.family.wakeup ((κ.ptable p).parent.map .proc) := by
    have : (κ₁.ptable p).parent = (κ.ptable p).parent :=
      apply_modify Proc.parent (by intro; rfl) κ.ptable p p
    rw [← this]
    exact family_wakeup1 _
  have he : (exit κ p).family = ((abandon κ₂ p).family).set p fun x =>
      { x with state := .zombie, chan := none } := by
    exact family_modify (by simp [Proc.entry])
  rw [he, family_abandon, h₂, h₁]
  rfl

theorem kill_cases (κ : Kernel) (pid : Int32) :
    (slots.find? (fun p => (κ.ptable p).pid = pid) = none ∧ kill κ pid = (κ, -1)) ∨
      ∃ q, slots.find? (fun p => (κ.ptable p).pid = pid) = some q ∧ (kill κ pid).2 = 0 ∧
        (kill κ pid).1.family = κ.family.set q Entry.kill := by
  cases hq : slots.find? (fun p => (κ.ptable p).pid = pid) with
  | none => exact .inl ⟨rfl, by rw [kill, hq]⟩
  | some q =>
    refine .inr ⟨q, rfl, by rw [kill, hq], ?_⟩
    rw [kill, hq]
    refine family_modify ?_
    by_cases hs : (κ.ptable q).state = .sleeping <;> simp [Proc.entry, Entry.kill, hs]

theorem family_setpolicy (v : Int32) : (setpolicy κ v).1.family = κ.family := by
  unfold setpolicy
  split_ifs <;> rfl

theorem family_settickets (v : Int32) : (settickets κ p v).1.family = κ.family := by
  unfold settickets
  split_ifs
  · rfl
  · exact family_modify_of_entry rfl

namespace Machine

variable {n : ℕ} {m m' : Machine n} {c : Fin n} {k : Pass} {a : Act} {np : Slot}

/-- The family of the processes of a machine. -/
abbrev family (m : Machine n) : Family := m.toKernel.family

/-- The process that goes on in `wait` or `waitx` in the step, to reap, to return or to sleep. -/
def waiter (m : Machine n) (c : Fin n) : Act → Option Slot
  | .wait | .waitx true true => (m.caller c).map Prod.fst
  | .resume => (m.cpu c).proc.filter fun p =>
    (m.ptable p).context = .wait ∨ (m.ptable p).context = .waitx
  | _ => none

/-- The step of `a` on `c` is the event `e` of the family. -/
structure Acts (m : Machine n) (c : Fin n) (a : Act) (m' : Machine n) (e : Family.Event) :
    Prop where
  step : Family.Step m.family e m'.family
  alloc : ∀ p np, e = .alloc p np → a = .allocproc ∧ findUnused m.ptable = some np
  drop : ∀ p np, e = .drop p np → (a = .kalloc none ∨ a = .copyuvm none) ∧
    ∃ f, m.forker c = some (p, f) ∧ f.child = np
  kill : ∀ q, e = .kill q → ∃ pid, a = .kill pid ∧
    slots.find? (fun p => (m.ptable p).pid = pid) = some q
  reap : ∀ p q, e = .reap p q → m.waiter c a = some p ∧ zombieChild m.ptable p = some q

theorem acts_of_plain {e : Family.Event} (h : Family.Step m.family e m'.family)
    (he : e.plain) : ∃ e, m.Acts c a m' e := by
  refine ⟨e, h, ?_, ?_, ?_, ?_⟩ <;> intros <;> subst e <;> cases he

theorem acts_of_eq (h : m'.family = m.family) : ∃ e, m.Acts c a m' e :=
  acts_of_plain (e := .keep) (h ▸ .keep) rfl

theorem family_ret (v : Int32) : (m.ret p v).family = m.family := family_modify_of_entry rfl

theorem family_dispatch (hp : (m.ptable p).state = .runnable) :
    Family.Step m.family (.move p) (m.dispatch c p k).family := by
  have : (m.dispatch c p k).family =
      m.family.set p fun x => { x with state := .running, chan := none } :=
    family_modify (by simp [Proc.entry])
  rw [this]
  exact .move (by simp [Kernel.family, hp, Procstate.live]) (.inr rfl)

theorem acts_schedule : ∃ e, m.Acts c .schedule (m.schedule c) e := by
  have hseed : ∀ seed p, (m.ptable p).state = .runnable →
      Family.Step m.family (.move p) ((m.setSeed seed).dispatch c p .lottery).family :=
    fun seed p hp => family_dispatch (m := m.setSeed seed) hp
  have hnone : ∀ seed, (m.setSeed seed).family = m.family := fun _ => rfl
  unfold Machine.schedule
  split_ifs
  · split
    · rename_i p hp
      exact acts_of_plain (family_dispatch (fcfs_eq_some_iff.1 hp).1) rfl
    · exact acts_of_eq rfl
  · split
    · rename_i p hp
      unfold lottery at hp
      split_ifs at hp
      exact acts_of_plain (hseed _ p (lottery_runnable hp)) rfl
    · exact acts_of_eq (hnone _)
  · exact acts_of_eq rfl
  · exact acts_of_eq rfl

theorem acts_scan (i : ℕ) : ∃ e, m.Acts c .scan (m.scan c i) e := by
  unfold Machine.scan
  split
  · rename_i p hp
    exact acts_of_plain (family_dispatch (rrNext_eq_some_iff.1 hp).1.2) rfl
  · exact acts_of_eq rfl

theorem family_yield (hp : (m.ptable p).state = .running) :
    Family.Step m.family (.move p) (m.yield c p k).family := by
  have : (m.yield c p k).family =
      m.family.set p fun x => { x with state := .runnable, chan := none } := by
    unfold Machine.yield family
    rw [sched_toKernel]
    exact family_modify (by simp [Proc.entry])
  rw [this]
  exact .move (by simp [Kernel.family, hp, Procstate.live]) (.inl rfl)

theorem family_sleep (chan : Chan) (ctx : Context) : (m.sleep c p k chan ctx).family =
    m.family.set p fun x => { x with state := .sleeping, chan := some chan } := by
  unfold Machine.sleep family
  rw [sched_toKernel]
  exact family_modify (by simp [Proc.entry])

/-- What a round of `wait` or `waitx` by `p` comes to: it reaps the zombie it finds, fails
    or sleeps. -/
inductive Round (m : Machine n) (c : Fin n) (p : Slot) (m' : Machine n) : Prop
  | reap {q : Slot} (hq : zombieChild m.ptable p = some q) (hc : (m'.cpu c).proc = some p)
      (hv : (m'.ptable p).eax = (m.ptable q).pid) (hs : Family.Step m.family (.reap p q) m'.family)
  | fail (hz : zombieChild m.ptable p = none) (hc : (m'.cpu c).proc = some p)
      (hv : (m'.ptable p).eax = -1) (hk : haveKids m.ptable p = false ∨ (m.ptable p).killed)
      (hs : m'.family = m.family)
  | sleep (hz : zombieChild m.ptable p = none) (hc : (m'.cpu c).proc = none)
      (hs : Family.Step m.family (.wait p) m'.family)

theorem round_waitLoop (hp : (m.ptable p).state = .running) (hf : (m.ptable p).forking = none)
    (ctx : Context) {store : Proc → Proc → Proc} (hstore : ∀ q r, (store q r).entry = r.entry) :
    m.Round c p (m.waitLoop c p k ctx store) := by
  have hcpu : ∀ m : Machine n, ((m.release c p k).cpu c).proc = some p := fun m => by
    simp [release, setCpu]
  have heax : ∀ (m : Machine n) v, (((m.ret p v).release c p k).ptable p).eax = v := fun m v =>
    congrArg Proc.eax (modify_self m.ptable p _)
  unfold Machine.waitLoop
  split
  · rename_i q hq
    obtain ⟨hpar, hz⟩ := state_of_zombieChild hq
    refine .reap hq (hcpu _) (heax _ _) ?_
    have : (((((m.onProc q Proc.reap).onProc p (store (m.ptable q))).ret p
        (m.ptable q).pid).release c p k)).family = m.family.set q Entry.reap := by
      refine (family_ret _).trans ((family_modify_of_entry (hstore _ _)).trans ?_)
      exact family_modify (by simp [Proc.entry, Proc.reap, Entry.reap, hz])
    rw [this]
    exact .reap hp hf hpar hz
  · rename_i hq
    split_ifs with hk
    · exact .fail hq (hcpu _) (heax _ _) hk (family_ret _)
    · refine .sleep hq ?_ ?_
      · unfold Machine.sleep sched
        split <;> simp [setCpu]
      · rw [family_sleep]
        rw [zombieChild, List.find?_eq_none] at hq
        simp only [not_or, Bool.not_eq_false, haveKids, List.any_eq_true, decide_eq_true_eq] at hk
        obtain ⟨⟨r, -, hr⟩, -⟩ := hk
        refine .wait hp hf ⟨r, hr⟩ fun q hpar hz => hq q (mem_slots q) ?_
        simpa using ⟨hpar, hz⟩

/-- A round that starts by clearing `chan`. -/
theorem Round.of_chan (hp : (m.ptable p).state = .running)
    (h : (m.onProc p fun q => { q with chan := none }).Round c p m') : m.Round c p m' := by
  set m₁ := m.onProc p fun q => { q with chan := none } with hm₁
  have hfam : m₁.family = m.family := family_modify_of_entry (by simp [Proc.entry, hp])
  have hentry : ∀ q, (m₁.ptable q).entry = (m.ptable q).entry := fun q =>
    congrArg (fun F : Family => F.entry q) hfam
  have hpar : ∀ q, (m₁.ptable q).parent = (m.ptable q).parent := fun q =>
    congrArg Entry.parent (hentry q)
  have hst : ∀ q, (m₁.ptable q).state = (m.ptable q).state := fun q =>
    congrArg Entry.state (hentry q)
  have hpid : ∀ q, (m₁.ptable q).pid = (m.ptable q).pid := fun q => congrArg Entry.pid (hentry q)
  have hkilled : (m₁.ptable p).killed = (m.ptable p).killed := congrArg Entry.killed (hentry p)
  have hzc : zombieChild m₁.ptable p = zombieChild m.ptable p := by
    simp only [zombieChild, hpar, hst]
  have hkids : haveKids m₁.ptable p = haveKids m.ptable p := by simp only [haveKids, hpar]
  cases h with
  | reap hq hc hv hs => exact .reap (hzc ▸ hq) hc (hv.trans (hpid _)) (hfam ▸ hs)
  | fail hz hc hv hk hs => exact .fail (hzc ▸ hz) hc hv (hkids ▸ hkilled ▸ hk) (hs.trans hfam)
  | sleep hz hc hs => exact .sleep (hzc ▸ hz) hc (hfam ▸ hs)

/-- Who goes on in `wait` or `waitx` makes a round. -/
theorem round_of_moves (h : m.Inv) (hm : m.Moves c a m') (hw : m.waiter c a = some p) :
    m.Round c p m' := by
  cases hm with
  | @wait r k _ hr =>
    obtain rfl : r = p := by simpa [waiter, caller_eq_some_iff.2 hr] using hw
    exact round_waitLoop (h.of_calls hr).2 hr.2 _ fun _ _ => rfl
  | @waitx r k _ hr =>
    obtain rfl : r = p := by simpa [waiter, caller_eq_some_iff.2 hr] using hw
    exact round_waitLoop (h.of_calls hr).2 hr.2 _ fun _ _ => rfl
  | @waitxNull r k w r' hr hnull =>
    rcases hnull with rfl | rfl
    · cases hw
    · cases w <;> cases hw
  | @resume r k hr hc =>
    obtain ⟨rfl, hctx⟩ : r = p ∧
        ((m.ptable p).context = .wait ∨ (m.ptable p).context = .waitx) := by
      rw [waiter, hr, Option.filter_eq_some_iff] at hw
      obtain ⟨he, hw⟩ := hw
      obtain rfl := Option.some.inj he
      exact ⟨rfl, by simpa using hw⟩
    have hrun := h.onCpu.running c r hr
    have hf : (m.ptable r).forking = none := by
      cases hf : (m.ptable r).forking with
      | none => rfl
      | some f =>
        have hy := h.context_of_forking hr hc hf
        rw [hy] at hctx
        rcases hctx with hx | hx <;> cases hx
    have hloop : ∀ ctx store, (∀ q r : Proc, (store q r).entry = r.entry) → m.Round c r
        ((m.onProc r fun q => { q with chan := none }).waitLoop c r k ctx store) :=
      fun ctx store hstore => .of_chan hrun
        (round_waitLoop (by simpa using hrun) (by simpa using hf) ctx hstore)
    unfold Machine.resume
    rcases hctx with hx | hx <;> rw [hx]
    · exact hloop _ _ fun _ _ => rfl
    · exact hloop _ _ fun _ _ => rfl
  | _ => cases hw

theorem acts_of_round (hw : m.waiter c a = some p) (h : m.Round c p m') :
    ∃ e, m.Acts c a m' e := by
  cases h with
  | @reap q hq _ _ hs =>
    refine ⟨_, hs, nofun, nofun, nofun, fun p' q' he => ?_⟩
    obtain ⟨rfl, rfl⟩ := (by simpa using he : p = p' ∧ q = q')
    exact ⟨hw, hq⟩
  | fail _ _ _ _ hs => exact acts_of_eq hs
  | sleep _ _ hs => exact acts_of_plain hs rfl

theorem acts_resume (h : m.Inv) (hp : (m.cpu c).proc = some p) (hc : (m.cpu c).pc = .swtched k) :
    ∃ e, m.Acts c .resume (m.resume c p k) e := by
  by_cases hctx : (m.ptable p).context = .wait ∨ (m.ptable p).context = .waitx
  · have hw : m.waiter c .resume = some p := by simp [waiter, hp, Option.filter, hctx]
    exact acts_of_round hw (round_of_moves h (.resume hp hc) hw)
  · have hrun := h.onCpu.running c p hp
    unfold Machine.resume
    cases hx : (m.ptable p).context with
    | forkret | yield => exact acts_of_eq rfl
    | sleep => exact acts_of_eq (family_modify_of_entry (by simp [Proc.entry, hrun]))
    | wait | waitx => simp [hx] at hctx

/-- The record of the child and the progress of the call change. -/
theorem family_child {g : Proc → Proc} {f : Option Forking} {g' : Entry → Entry} 
    (hg : (g (m.ptable np)).entry = g' (m.ptable np).entry) :
    ((m.setKernel (m.toKernel.modify np g)).setForking p f).family =
      (m.family.set np g').set p fun x => { x with forking := f } := by
  rw [← family_modify hg]
  exact family_modify rfl

theorem forks_family (h : m.Inv) {f : Forking} (hf : m.Forks c p f) : m.family.Forks p f := by
  obtain ⟨-, hrun, hch, hfk, -⟩ := h.of_forks hf
  exact ⟨hrun, hfk, hch, fun q g hg he => h.forked.unique q p g f hg hfk he⟩

theorem acts_allocproc (h : m.Inv) (hp : m.Calls c p k) :
    ∃ e, m.Acts c .allocproc (m.allocproc p) e := by
  unfold Machine.allocproc
  cases hnp : findUnused m.ptable with
  | none =>
    have : Xv6.allocproc m.toKernel = none := by rw [Xv6.allocproc, hnp]; rfl
    rw [this]
    exact acts_of_eq (family_ret _)
  | some np =>
    have : Xv6.allocproc m.toKernel = some (np, { m.toKernel.modify np fun q =>
        { q with state := .embryo, pid := m.nextpid } with nextpid := m.nextpid + 1 }) := by
      rw [Xv6.allocproc, hnp]; rfl
    rw [this]
    have hun := state_of_findUnused hnp
    have hfam := family_modify (κ := m.toKernel) (p := np)
      (f := fun q => { q with state := .embryo, pid := m.nextpid })
      (g := fun x => { x with state := .embryo, pid := m.nextpid }) (by simp [Proc.entry, hun])
    have hstep : Family.Step m.family (.alloc p np) _ := .alloc (h.of_calls hp).2 hp.2 hun
    refine ⟨_, hstep.of_eq ?_, ?_, by simp, by simp, by simp⟩
    · refine (family_modify (g := fun x => { x with forking := some (.embryo np) }) rfl).trans ?_
      exact congrArg (fun F : Family => (F.set p fun x =>
        { x with forking := some (.embryo np) }).bump) hfam
    · intro p' np' he
      obtain ⟨-, rfl⟩ := (by simpa using he : p = p' ∧ np = np')
      exact ⟨rfl, hnp⟩

/-- Every step of the machine is an event of the family. -/
theorem exists_acts (h : m.Inv) (hm : m.Moves c a m') : ∃ e, m.Acts c a m' e := by
  cases hm with
  | schedule => exact acts_schedule
  | scan => exact acts_scan _
  | resume hp hc => exact acts_resume h hp hc
  | timer =>
    refine acts_of_eq ?_
    unfold Machine.timer
    split_ifs <;> rfl
  | intrWakeup =>
    -- the sleepers on `ticks` are woken, and nobody in `wait` is
    have hstep : Family.Step m.family (.wakeup .ticks) (m.family.wakeup (some .ticks)) :=
      .wakeup rfl
    exact acts_of_plain (hstep.of_eq (family_wakeup1 _)) rfl
  | intrAccount =>
    refine acts_of_eq ?_
    have : ∀ q, ((account m.toKernel).ptable q).entry = (m.ptable q).entry := fun q =>
      entry_charge (m.ptable q)
    exact congrArg (fun f => Family.mk f m.nextpid m.initproc) (funext this)
  | intrPreempt hc =>
    exact acts_of_plain (family_yield (h.onCpu.running c _ (by rw [hc]))) rfl
  | intrReturn => exact acts_of_eq rfl
  | @wakeup chan _ _ hchan =>
    have hstep : Family.Step m.family (.wakeup chan) (m.family.wakeup (some chan)) :=
      .wakeup hchan
    exact acts_of_plain (hstep.of_eq (family_wakeup1 _)) rfl
  | yield _ hp => exact acts_of_plain (family_yield (h.of_calls hp).2) rfl
  | sleep _ hchan hp =>
    exact acts_of_plain ((Family.Step.sleep (h.of_calls hp).2 hp.2 hchan).of_eq
      (family_sleep _ _)) rfl
  | exit _ hp hi =>
    have hrun := h.onCpu.running c _ hp.proc
    refine acts_of_plain ((Family.Step.exit hrun hp.forking hi).of_eq ?_) rfl
    rw [family, sched_toKernel, setKernel_toKernel, family_exit]
  | @wait p _ hl hp =>
    have hw : m.waiter c .wait = some p := by simp [waiter, caller_eq_some_iff.2 hp]
    exact acts_of_round hw (round_of_moves h (.wait hl hp) hw)
  | waitxNull => exact acts_of_eq (family_ret _)
  | @waitx p _ hl hp =>
    have hw : m.waiter c (.waitx true true) = some p := by simp [waiter, caller_eq_some_iff.2 hp]
    exact acts_of_round hw (round_of_moves h (.waitx hl hp) hw)
  | @kill p k pid =>
    rcases kill_cases m.toKernel pid with ⟨-, hk⟩ | ⟨q, hq, -, hk⟩
    · exact acts_of_eq ((family_ret _).trans (by rw [hk]; rfl))
    · have hstep : Family.Step m.family (.kill q)
          ((m.setKernel (Xv6.kill m.toKernel pid).1).ret p (Xv6.kill m.toKernel pid).2).family :=
        (Family.Step.kill q).of_eq ((family_ret _).trans hk)
      refine ⟨_, hstep, nofun, nofun, fun q' he => ?_, nofun⟩
      obtain rfl := (by simpa using he : q = q')
      exact ⟨pid, rfl, hq⟩
  | setpolicy => exact acts_of_eq ((family_ret _).trans (family_setpolicy _))
  | settickets => exact acts_of_eq ((family_ret _).trans (family_settickets _))
  | allocproc _ hp => exact acts_allocproc h hp
  | @kalloc p np page hf =>
    have hfam := forks_family h hf
    have hch : (m.ptable np).state = .embryo := hfam.child
    cases page with
    | none =>
      have hstep : Family.Step m.family (.drop p np) (m.kalloc p np none).family :=
        (Family.Step.drop (.inl hfam)).of_eq
          ((family_ret _).trans (family_child (by simp [Proc.entry, hch])))
      refine ⟨_, hstep, nofun, fun p' np' he => ⟨.inl rfl, ?_⟩, nofun, nofun⟩
      obtain ⟨rfl, rfl⟩ := (by simpa using he : p = p' ∧ np = np')
      exact ⟨_, forker_eq_some_iff.2 hf, rfl⟩
    | some page =>
      have hstep : Family.Step m.family (.init p np) _ := .init page hfam
      exact acts_of_plain (hstep.of_eq (family_child (by simp [Proc.entry, hch]))) rfl
  | @copyuvm p np pgdir hf =>
    have hfam := forks_family h hf
    have hch : (m.ptable np).state = .embryo := hfam.child
    cases pgdir with
    | none =>
      have hstep : Family.Step m.family (.drop p np) (m.copyuvm p np none).family :=
        (Family.Step.drop (.inr hfam)).of_eq
          ((family_ret _).trans (family_child (by simp [Proc.entry, hch])))
      refine ⟨_, hstep, nofun, fun p' np' he => ⟨.inr rfl, ?_⟩, nofun, nofun⟩
      obtain ⟨rfl, rfl⟩ := (by simpa using he : p = p' ∧ np = np')
      exact ⟨_, forker_eq_some_iff.2 hf, rfl⟩
    | some pgdir =>
      exact acts_of_plain ((Family.Step.copy hfam).of_eq
        (family_child (by simp [Proc.entry, hch, Kernel.family]))) rfl
  | @ready p np _ hf =>
    have hfam := forks_family h hf
    have hch : (m.ptable np).state = .embryo := hfam.child
    exact acts_of_plain ((Family.Step.start hfam).of_eq
      ((family_ret _).trans (family_child (by simp [Proc.entry, hch])))) rfl
  | fault hp =>
    exact acts_of_plain ((Family.Step.fault (h.of_calls hp).2).of_eq (family_modify rfl)) rfl
  | @image _ _ i hp =>
    exact acts_of_plain ((Family.Step.files i.cwd i.ofile (h.of_calls hp).2).of_eq
      (family_modify rfl)) rfl

end Machine

end Xv6
