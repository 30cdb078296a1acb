import Xv6.Proc.Slots

/-!
# Pids and reaping

A pid is given to one process, and returned to one caller of `wait` or `waitx`. Both
are proved of the events of the family: pids come from a counter that goes up by
one with every slot taken, so the pids in use are distinct as long as the counter
does not come around, and a pid that was returned is in use nowhere.

* `reaped_once`: in every run of fewer than 2^31 calls of `allocproc`, the values
  `wait` and `waitx` return are the pids of zombie children of the caller, each once.
-/

namespace Xv6

/-- The number of a pid, in the order in which they are given. -/
def pidNum (pid : Int32) : ℕ := pid.toBitVec.toNat

theorem pidNum_succ {x : Int32} (h : pidNum x + 1 < 2 ^ 32) : pidNum (x + 1) = pidNum x + 1 := by
  have h1 : (1 : Int32).toBitVec.toNat = 1 := by decide
  rw [pidNum, Int32.toBitVec_add, BitVec.toNat_add, h1]
  exact Nat.mod_eq_of_lt h

theorem pidNum_succ_le (x : Int32) : pidNum (x + 1) ≤ pidNum x + 1 := by
  have h1 : (1 : Int32).toBitVec.toNat = 1 := by decide
  rw [pidNum, Int32.toBitVec_add, BitVec.toNat_add, h1]
  exact Nat.mod_le _ _

namespace Family

variable {F F' : Family} {p q : Slot} {e : Event}

/-! ## The pids of a family -/

/-- The slot `q`, in use after a change of the family that takes and frees no slot, was in use
    before, and has the same pid. -/
def Holds (F F' : Family) (q : Slot) : Prop :=
  (F.entry q).state ≠ .unused ∧ (F'.entry q).pid = (F.entry q).pid

theorem holds_set {f : Entry → Entry} (hpid : ∀ x, (f x).pid = x.pid)
    (hf : (f (F.entry p)).state ≠ .unused → (F.entry p).state ≠ .unused)
    (hq : ((F.set p f).entry q).state ≠ .unused) : F.Holds (F.set p f) q := by
  refine ⟨?_, apply_set Entry.pid hpid F p q⟩
  by_cases hqp : q = p
  · subst hqp; rw [set_self] at hq; exact hf hq
  · rwa [set_of_ne _ _ hqp] at hq

/-- A step of a `fork` call of `p` that has got to `f`. -/
theorem holds_fork {f : Forking} {g : Entry → Entry} {f' : Option Forking} (hf : F.Forks p f)
    (hpid : ∀ x, (g x).pid = x.pid)
    (hq : (((F.set f.child g).set p fun x => { x with forking := f' }).entry q).state ≠ .unused) :
    F.Holds ((F.set f.child g).set p fun x => { x with forking := f' }) q := by
  obtain ⟨h₁, e₁⟩ := holds_set (by intro; rfl) (by intro h; exact h) hq
  obtain ⟨h₂, e₂⟩ := holds_set hpid (fun _ => by rw [hf.child]; simp) h₁
  exact ⟨h₂, e₁.trans e₂⟩

theorem holds_exit (hq : ((F.exit p).entry q).state ≠ .unused) (ht : F.Tree)
    (hp : (F.entry p).state = .running) : F.Holds (F.exit p) q := by
  refine ⟨fun hu => hq ?_, ?_⟩
  · have hne : q ≠ p := fun he => by rw [he, hp] at hu; cases hu
    rw [exit_of_unused hu (by rw [ht.unused q hu]; simp) hne, hu]
  · rw [exit_apply Entry.pid (fun _ _ _ => rfl) (fun _ _ => rfl)]
    exact apply_set Entry.pid (by intro; rfl) F p q

/-- A slot in use after an event was so before, with the same pid, or has just got
    the next pid. -/
theorem Step.used (hs : F.Step e F') (ht : F.Tree) (hq : (F'.entry q).state ≠ .unused) :
    (∃ p, e = .alloc p q ∧ (F'.entry q).pid = F.nextpid) ∨
      F.Holds F' q ∧ ∀ p, e ≠ .reap p q := by
  cases hs with
  | keep => exact .inr ⟨⟨hq, rfl⟩, by simp⟩
  | move hp _ =>
    exact .inr ⟨holds_set (by intro; rfl) (fun _ hu => by rw [hu] at hp; cases hp) hq, by simp⟩
  | sleep hp => exact .inr ⟨holds_set (by intro; rfl) (fun _ => by rw [hp]; simp) hq, by simp⟩
  | wait hp => exact .inr ⟨holds_set (by intro; rfl) (fun _ => by rw [hp]; simp) hq, by simp⟩
  | @wakeup chan =>
    refine .inr ⟨?_, by simp⟩
    rcases wakeup_cases (F.entry q) (some chan) with ⟨he, -⟩ | ⟨hs, he⟩
    · have : (F.wakeup (some chan)).entry q = F.entry q := he
      rw [this] at hq
      exact ⟨hq, by rw [this]⟩
    · exact ⟨by rw [hs]; simp, by simp only [Family.wakeup, he]⟩
  | @alloc r np hr _ hnp =>
    have hne : r ≠ np := fun he => by rw [he, hnp] at hr; cases hr
    by_cases hqn : q = np
    · subst hqn
      exact .inl ⟨r, rfl, by rw [bump_entry, set_of_ne _ _ hne.symm, set_self]⟩
    · rw [bump_entry] at hq
      obtain ⟨h₁, e₁⟩ := holds_set (by intro; rfl) (by intro h; exact h) hq
      rw [set_of_ne _ _ hqn] at h₁ e₁
      exact .inr ⟨⟨h₁, e₁⟩, by simp⟩
  | init _ hf => exact .inr ⟨holds_fork hf (by intro; rfl) hq, by simp⟩
  | drop hf =>
    refine .inr ⟨?_, by simp⟩
    rcases hf with hf | hf
    all_goals exact holds_fork hf (by intro; rfl) hq
  | copy hf => exact .inr ⟨holds_fork hf (by intro; rfl) hq, by simp⟩
  | start hf => exact .inr ⟨holds_fork hf (by intro; rfl) hq, by simp⟩
  | exit hp => exact .inr ⟨holds_exit hq ht hp, by simp⟩
  | @reap r z =>
    have hne : q ≠ z := fun he => by rw [he, set_self] at hq; exact hq rfl
    rw [set_of_ne _ _ hne] at hq
    refine .inr ⟨⟨hq, by rw [set_of_ne _ _ hne]⟩, fun p he => hne ?_⟩
    obtain ⟨-, rfl⟩ := (by simpa using he : r = p ∧ z = q)
    rfl
  | kill r =>
    refine .inr ⟨holds_set (by intro; rfl) (fun h hu => h ?_) hq, by simp⟩
    simp [Entry.kill, hu]
  | fault hp => exact .inr ⟨holds_set (by intro; rfl) (fun _ => by rw [hp]; simp) hq, by simp⟩
  | files _ _ hp => exact .inr ⟨holds_set (by intro; rfl) (fun _ => by rw [hp]; simp) hq, by simp⟩

theorem Step.child_of_drop (hs : F.Step (.drop p q) F') : (F.entry q).state = .embryo := by
  cases hs with
  | drop hf => exact hf.elim (·.child) (·.child)

theorem Step.child_of_reap (hs : F.Step (.reap p q) F') :
    (F.entry q).parent = some p ∧ (F.entry q).state = .zombie := by
  cases hs with
  | reap _ _ hpar hz => exact ⟨hpar, hz⟩

/-- The next pid, after an event. -/
theorem Step.nextpid (hs : F.Step e F') :
    F'.nextpid = F.nextpid ∧ (∀ p np, e ≠ .alloc p np) ∨
      ∃ p np, e = .alloc p np ∧ F'.nextpid = F.nextpid + 1 := by
  cases hs with
  | @alloc r np => exact .inr ⟨r, np, rfl, rfl⟩
  | exit =>
    refine .inl ⟨?_, by simp⟩
    simp only [Family.exit, abandon, set_nextpid]
    split_ifs <;> rfl
  | _ => exact .inl ⟨rfl, by simp⟩

/-- The pids in use and those in `reaped`, which have been returned, are all different, and
    were given before the next one. -/
structure Pids (F : Family) (reaped : List Int32) : Prop where
  used : ∀ q, (F.entry q).state ≠ .unused → pidNum (F.entry q).pid < pidNum F.nextpid
  distinct : ∀ p q, (F.entry p).state ≠ .unused → (F.entry q).state ≠ .unused →
    (F.entry p).pid = (F.entry q).pid → p = q
  past : ∀ v ∈ reaped, pidNum v < pidNum F.nextpid ∧
    ∀ q, (F.entry q).state ≠ .unused → (F.entry q).pid ≠ v
  nodup : reaped.Nodup

variable {reaped : List Int32}

/-- An event that takes no slot. -/
theorem Pids.of_holds (h : F.Pids reaped) (hn : F'.nextpid = F.nextpid)
    (hq : ∀ q, (F'.entry q).state ≠ .unused → F.Holds F' q) : F'.Pids reaped where
  used q hu := by
    obtain ⟨hu, he⟩ := hq q hu
    rw [he, hn]
    exact h.used q hu
  distinct p q hp hq' he := by
    obtain ⟨hp, ep⟩ := hq p hp
    obtain ⟨hq', eq⟩ := hq q hq'
    exact h.distinct p q hp hq' (ep.symm.trans (he.trans eq))
  past v hv := by
    refine ⟨hn ▸ (h.past v hv).1, fun q hu he => ?_⟩
    obtain ⟨hu, e'⟩ := hq q hu
    exact (h.past v hv).2 q hu (e'.symm.trans he)
  nodup := h.nodup

/-- The slot taken gets a pid that is neither in use nor was returned. -/
theorem Pids.alloc (h : F.Pids reaped) (hs : F.Step (.alloc p q) F') (ht : F.Tree)
    (hn : pidNum F.nextpid + 1 < 2 ^ 32) : F'.Pids reaped := by
  have hused : ∀ r, (F'.entry r).state ≠ .unused →
      r = q ∧ (F'.entry r).pid = F.nextpid ∨ F.Holds F' r := fun r hr => by
    rcases hs.used ht hr with ⟨p', he, hpid⟩ | ⟨hh, -⟩
    · obtain ⟨-, rfl⟩ := (by simpa using he : p = p' ∧ q = r)
      exact .inl ⟨rfl, hpid⟩
    · exact .inr hh
  have hnew : ∀ {v}, pidNum v < pidNum F.nextpid → v ≠ F.nextpid := fun hv he => by
    rw [he] at hv; exact lt_irrefl _ hv
  have hnext : pidNum F'.nextpid = pidNum F.nextpid + 1 := by
    obtain ⟨-, hne⟩ | ⟨_, _, -, he⟩ := hs.nextpid
    · exact absurd rfl (hne p q)
    · rw [he, pidNum_succ hn]
  refine ⟨fun r hr => ?_, fun r s hr hs' he => ?_, fun v hv => ⟨?_, fun r hr he => ?_⟩, h.nodup⟩
  · rcases hused r hr with ⟨-, hpid⟩ | ⟨hu, hpid⟩ <;> rw [hpid, hnext]
    · omega
    · have := h.used r hu; omega
  · rcases hused r hr with ⟨rfl, er⟩ | ⟨ur, er⟩ <;> rcases hused s hs' with ⟨rfl, es⟩ | ⟨us, es⟩
    · rfl
    · exact absurd (es.symm.trans (he.symm.trans er)) (hnew (h.used s us))
    · exact absurd (er.symm.trans (he.trans es)) (hnew (h.used r ur))
    · exact h.distinct r s ur us (er.symm.trans (he.trans es))
  · have := (h.past v hv).1; omega
  · rcases hused r hr with ⟨-, er⟩ | ⟨ur, er⟩
    · exact hnew (h.past v hv).1 (he.symm.trans er)
    · exact (h.past v hv).2 r ur (er.symm.trans he)

/-- An event other than a reaping. -/
theorem Pids.step (h : F.Pids reaped) (hs : F.Step e F') (ht : F.Tree)
    (hn : pidNum F.nextpid + 1 < 2 ^ 32) : F'.Pids reaped := by
  rcases hs.nextpid with ⟨hne, he⟩ | ⟨p, q, rfl, -⟩
  · refine h.of_holds hne fun q hq => ?_
    rcases hs.used ht hq with ⟨p, rfl, -⟩ | ⟨hh, -⟩
    · exact absurd rfl (he p q)
    · exact hh
  · exact h.alloc hs ht hn

/-- The pid of the slot freed by `wait` or `waitx` is added to those returned. -/
theorem Pids.reap (h : F.Pids reaped) (hs : F.Step (.reap p q) F') (ht : F.Tree)
    (hn : pidNum F.nextpid + 1 < 2 ^ 32) :
    F'.Pids ((F.entry q).pid :: reaped) ∧ (F.entry q).pid ∉ reaped := by
  have hz : (F.entry q).state ≠ .unused := by rw [hs.child_of_reap.2]; simp
  have hnext : F'.nextpid = F.nextpid := by
    rcases hs.nextpid with ⟨hn, -⟩ | ⟨_, _, he, -⟩
    · exact hn
    · cases he
  have hfresh : (F.entry q).pid ∉ reaped := fun hv => (h.past _ hv).2 q hz rfl
  obtain ⟨hu, hd, hp, -⟩ := h.step hs ht hn
  refine ⟨⟨hu, hd, fun v hv => ?_, List.nodup_cons.2 ⟨hfresh, h.nodup⟩⟩, hfresh⟩
  rcases List.mem_cons.1 hv with rfl | hv
  · refine ⟨hnext ▸ h.used q hz, fun r hr he => ?_⟩
    rcases hs.used ht hr with ⟨_, he', -⟩ | ⟨⟨hu, er⟩, hne⟩
    · cases he'
    · exact hne p (h.distinct r q hu hz (er.symm.trans he) ▸ rfl)
  · exact hp v hv

end Family

/-! ## What wait returns -/

namespace Machine

open TransitionSystem

variable {n : ℕ} {m m' : Machine n} {c : Fin n} {k : Pass} {a : Act} {p q : Slot} {v : Int32}

/-- The process that calls `wait` or `waitx` in the step, or goes on in it. -/
def waitCaller (m : Machine n) (c : Fin n) : Act → Option Slot
  | .wait | .waitx _ _ => (m.caller c).map Prod.fst
  | .resume => (m.cpu c).proc.filter fun p =>
    (m.ptable p).context = .wait ∨ (m.ptable p).context = .waitx
  | _ => none

/-- The process to which `wait` or `waitx` returns in the step, and what it returns. -/
def waitReturn (m : Machine n) (c : Fin n) (a : Act) (m' : Machine n) : Option (Slot × Int32) :=
  (m.waitCaller c a).bind fun p =>
    if (m'.cpu c).proc = some p then some (p, (m'.ptable p).eax) else none

theorem waitCaller_of_waiter (h : m.waiter c a = some p) : m.waitCaller c a = some p := by
  cases a with
  | wait | resume => exact h
  | waitx w r =>
    cases w <;> cases r <;> first | cases h | exact h
  | _ => cases h

theorem waiter_of_waitCaller (h : m.waitCaller c a = some p) :
    m.waiter c a = some p ∨ ∃ w r, a = .waitx w r ∧ (w = false ∨ r = false) := by
  cases a with
  | wait | resume => exact .inl h
  | waitx w r =>
    cases w <;> cases r
    case true.true => exact .inl h
    all_goals exact .inr ⟨_, _, rfl, by simp⟩
  | _ => cases h

/-- `wait` and `waitx` return the pid of the zombie they reap, or -1. -/
theorem waitReturn_cases (h : m.Inv) (hm : m.Moves c a m')
    (hr : m.waitReturn c a m' = some (p, v)) :
    (∃ q, zombieChild m.ptable p = some q ∧ v = (m.ptable q).pid ∧
      Family.Step m.family (.reap p q) m'.family) ∨
    v = -1 ∧ m'.family = m.family ∧ (haveKids m.ptable p = false ∨ (m.ptable p).killed ∨
      ∃ w r, a = .waitx w r ∧ (w = false ∨ r = false)) := by
  obtain ⟨p', hw, hr⟩ := Option.bind_eq_some_iff.1 hr
  split_ifs at hr with hc
  obtain ⟨rfl, rfl⟩ := Prod.mk.inj (Option.some.inj hr)
  rcases waiter_of_waitCaller hw with hw' | ⟨w, r, rfl, hnull⟩
  · cases round_of_moves h hm hw' with
    | reap hq _ hv hs => exact .inl ⟨_, hq, hv, hs⟩
    | fail _ _ hv hk hs => exact .inr ⟨hv, hs, hk.imp_right .inl⟩
    | sleep _ hn => rw [hn] at hc; cases hc
  · cases hm with
    | @waitxNull r' k w r hcall =>
      obtain rfl : r' = p' := by simpa [waitCaller, caller_eq_some_iff.2 hcall] using hw
      refine .inr ⟨?_, family_ret _, .inr (.inr ⟨w, r, rfl, hnull⟩)⟩
      exact congrArg Proc.eax (modify_self m.ptable r' _)
    | waitx => simp at hnull

theorem Acts.waitReturn {e : Family.Event} (he : m.Acts c a m' e) (h : m.Inv)
    (hm : m.Moves c a m') (hr : e = .reap p q) :
    m.waitReturn c a m' = some (p, (m.ptable q).pid) := by
  obtain ⟨hw, hq⟩ := he.reap p q hr
  cases round_of_moves h hm hw with
  | reap hq' hc hv =>
    obtain rfl := Option.some.inj (hq.symm.trans hq')
    rw [Machine.waitReturn, waitCaller_of_waiter hw, Option.bind_some, if_pos hc, hv]
  | fail hz => rw [hz] at hq; cases hq
  | sleep hz => rw [hz] at hq; cases hq

/-! ## Runs -/

/-- The calls of `allocproc` that took a slot, and the pids `wait` and `waitx` returned. -/
structure Tally where
  created : ℕ := 0
  returned : List Int32 := []

/-- The tally after a step. -/
def tally (m : Machine n) (x : Fin n × Act) (m' : Machine n) (t : Tally) : Tally where
  created := if x.2 = .allocproc ∧ (findUnused m.ptable).isSome then t.created + 1 else t.created
  returned := match m.waitReturn x.1 x.2 m' with
    | some (_, v) => if v = -1 then t.returned else v :: t.returned
    | none => t.returned

/-- The runs of the kernel with the tally. -/
def reaping (n : ℕ) : TransitionSystem (Machine n × Tally) (Fin n × Act) :=
  (machine n).withGhost (fun _ => {}) tally

/-- The pids of the tally, until the counter may have come around. -/
structure Tallied (m : Machine n) (t : Tally) : Prop where
  inv : m.Inv
  tree : m.family.Tree
  next : pidNum m.nextpid ≤ t.created + 2
  pids : t.created < 2 ^ 31 → m.family.Pids t.returned

theorem tallied_boot (kstack pgdir root : ℕ) : Tallied (boot n kstack pgdir root) {} := by
  have hnext : (boot n kstack pgdir root).nextpid = 2 := by
    have : findUnused (fun _ => {}) = some 0 := by decide
    simp [boot, userinit, Xv6.allocproc, this, allocprocInit, Kernel.modify]
  have hused : ∀ q, ((boot n kstack pgdir root).family.entry q).state ≠ .unused →
      q = 0 ∧ ((boot n kstack pgdir root).family.entry q).pid = 1 := fun q hq => by
    rw [family_boot] at hq ⊢
    split_ifs at hq ⊢ with h0
    · exact ⟨h0, rfl⟩
    · exact absurd rfl hq
  refine ⟨inv_boot _ _ _, tree_boot _ _ _, ?_, fun _ => ⟨fun q hq => ?_, fun p q hp hq _ => ?_,
    by simp, .nil⟩⟩
  · rw [hnext]; decide
  · rw [(hused q hq).2, show (boot n kstack pgdir root).family.nextpid = 2 from hnext]
    decide
  · rw [(hused p hp).1, (hused q hq).1]

theorem Tallied.step {t : Tally} (h : Tallied m t) (hs : m.step (c, a) = some m') :
    Tallied m' (tally m (c, a) m' t) := by
  have hm := moves_of_step hs
  obtain ⟨e, he⟩ := exists_acts h.inv hm
  have hcreated : t.created ≤ (tally m (c, a) m' t).created := by
    simp only [tally]; split_ifs <;> omega
  refine ⟨inv_of_step h.inv hs, h.tree.step he.step, ?_, fun hlt => ?_⟩
  · rcases he.step.nextpid with ⟨hn, -⟩ | ⟨p, np, hal, hn⟩
    · have hn : m'.nextpid = m.nextpid := hn
      rw [hn]
      exact h.next.trans (by omega)
    · obtain ⟨rfl, hnp⟩ := he.alloc p np hal
      have hc : (tally m (c, .allocproc) m' t).created = t.created + 1 := by
        simp [tally, hnp]
      have hn : m'.nextpid = m.nextpid + 1 := hn
      rw [hc, hn]
      have := pidNum_succ_le m.nextpid
      have := h.next
      omega
  · have hp := h.pids (by omega)
    have hnum : pidNum m.family.nextpid + 1 < 2 ^ 32 := by
      have : pidNum m.family.nextpid ≤ t.created + 2 := h.next
      omega
    cases hr : m.waitReturn c a m' with
    | none =>
      have hret : (tally m (c, a) m' t).returned = t.returned := by simp [tally, hr]
      rw [hret]
      exact hp.step he.step h.tree hnum
    | some x =>
      obtain ⟨p, v⟩ := x
      rcases waitReturn_cases h.inv hm hr with ⟨q, hq, rfl, hs⟩ | ⟨rfl, hf, -⟩
      · obtain ⟨hpids, -⟩ := hp.reap hs h.tree hnum
        have hv : (m.ptable q).pid ≠ -1 := fun hv => by
          have hz : (m.family.entry q).state = .zombie := (state_of_zombieChild hq).2
          have hlt := hp.used q (by rw [hz]; simp)
          rw [show (m.family.entry q).pid = -1 from hv] at hlt
          have : pidNum (-1) = 2 ^ 32 - 1 := by decide
          omega
        have hret : (tally m (c, a) m' t).returned = (m.ptable q).pid :: t.returned := by
          simp [tally, hr, hv]
        rw [hret]
        exact hpids
      · have hret : (tally m (c, a) m' t).returned = t.returned := by simp [tally, hr]
        rw [hret, hf]
        exact hp

theorem tallied_of_reachable {t : Tally} (hx : (reaping n).Reachable Any (m, t)) :
    Tallied m t := by
  have h := hx.invariant (I := fun x => Tallied x.1 x.2) ?_ ?_
  · exact h
  · rintro ⟨m, t⟩ ⟨⟨kstack, pgdir, root, hm⟩, ht⟩
    simp only at hm ht
    subst hm ht
    exact tallied_boot _ _ _
  · rintro ⟨m, t⟩ ⟨c, a⟩ ⟨m', t'⟩ h - hs
    obtain ⟨hs, ht⟩ := withGhost_step.1 hs
    simp only at ht
    subst ht
    exact Tallied.step h hs

/-- A zombie leaves the table when its pid is returned to its parent. -/
theorem waitReturn_of_zombie (hm : (machine n).Reachable Any m) (hs : m.step (c, a) = some m')
    (hz : (m.ptable q).state = .zombie) (hu : (m'.ptable q).state = .unused) :
    ∃ p, (m.ptable q).parent = some p ∧
      m.waitReturn c a m' = some (p, (m.ptable q).pid) := by
  have hinv := inv_of_reachable hm
  obtain ⟨e, he⟩ := exists_acts hinv (moves_of_step hs)
  have hz' : (m.family.entry q).state = .zombie := hz
  rcases he.step.frees (tree_of_reachable hm).1 hu with ⟨p, rfl, -⟩ | ⟨p, rfl, -⟩ | ⟨hn, -⟩
  · have hem := he.step.child_of_drop
    rw [hz'] at hem; cases hem
  · exact ⟨p, he.step.child_of_reap.1, he.waitReturn hinv (moves_of_step hs) rfl⟩
  · rw [hz'] at hn; cases hn

end Machine

/-- What is in the table of a process: where it goes on in the kernel is on its kernel stack,
    and the times `waitx` stores are in its memory. -/
def Proc.inTable (q : Proc) : Proc :=
  { q with context := .forkret, wtimeOut := 0, rtimeOut := 0 }

namespace Machine

open TransitionSystem

variable {n : ℕ} {m m' : Machine n} {c : Fin n} {k : Pass} {a : Act} {p q : Slot} {v : Int32}

theorem inTable_wait (m : Machine n) (c : Fin n) (p : Slot) (k : Pass) (q : Slot) :
    ((m.wait c p k).ptable q).inTable = ((m.waitx c p k).ptable q).inTable := by
  have hmod : ∀ (t : Ptable) (f g : Proc → Proc), (∀ x, (f x).inTable = (g x).inTable) →
      (modify t p f q).inTable = (modify t p g q).inTable := fun t f g h => by
    by_cases hq : q = p
    · subst hq; rw [modify_self, modify_self, h]
    · rw [modify_of_ne _ _ hq, modify_of_ne _ _ hq]
  unfold wait waitx waitLoop
  cases zombieChild m.ptable p with
  | some z =>
    -- The child is reaped alike, and what is stored in the caller is not in the table.
    change (modify (modify _ p (waitStore _)) p _ q).inTable =
      (modify (modify _ p (waitxStore _)) p _ q).inTable
    by_cases hq : q = p
    · subst hq
      simp only [modify_self]
      rfl
    · simp only [modify_of_ne _ _ hq]
  | none =>
    dsimp only
    split_ifs
    · rfl
    · unfold Machine.sleep
      rw [sched_toKernel, sched_toKernel]
      exact hmod _ _ _ fun _ => rfl

/-- In every run of fewer than 2^31 calls of `allocproc` on any number of CPUs: no pid is returned
    twice by `wait` and `waitx`, processes have different pids, a call returns the pid of
    a zombie child of its caller, or -1 if it has none or is marked killed (or a pointer is
    null), and a zombie leaves the table by no other way; and `wait` and `waitx` leave the
    same table. -/
theorem reaped_once {t : Tally} (hx : (reaping n).Reachable Any (m, t))
    (ht : t.created < 2 ^ 31) :
    t.returned.Nodup ∧
    (∀ p q, (m.ptable p).state ≠ .unused → (m.ptable q).state ≠ .unused →
      (m.ptable p).pid = (m.ptable q).pid → p = q) ∧
    (∀ c a m' p v, m.step (c, a) = some m' → m.waitReturn c a m' = some (p, v) →
      (∃ q, (m.ptable q).state = .zombie ∧ (m.ptable q).parent = some p ∧
        v = (m.ptable q).pid ∧ v ∉ t.returned) ∨
      v = -1 ∧ ((∀ q, (m.ptable q).parent ≠ some p) ∨ (m.ptable p).killed ∨
        ∃ w r, a = .waitx w r ∧ (w = false ∨ r = false))) ∧
    (∀ c a m' q, m.step (c, a) = some m' → (m.ptable q).state = .zombie →
      (m'.ptable q).state = .unused → ∃ p, (m.ptable q).parent = some p ∧
        m.waitReturn c a m' = some (p, (m.ptable q).pid)) ∧
    ∀ c p k q, ((m.wait c p k).ptable q).inTable = ((m.waitx c p k).ptable q).inTable := by
  have h := tallied_of_reachable hx
  have hp := h.pids ht
  refine ⟨hp.nodup, hp.distinct, fun c a m' p v hs hr => ?_, fun c a m' q hs hz hu =>
    waitReturn_of_zombie hx.forget hs hz hu, inTable_wait m⟩
  rcases waitReturn_cases h.inv (moves_of_step hs) hr with ⟨q, hq, rfl, -⟩ | ⟨rfl, -, hk⟩
  · obtain ⟨hpar, hz⟩ := state_of_zombieChild hq
    refine .inl ⟨q, hz, hpar, rfl, fun hv => (hp.past _ hv).2 q ?_ rfl⟩
    rw [show (m.family.entry q).state = .zombie from hz]
    simp
  · refine .inr ⟨rfl, hk.imp_left fun hkids q hpar => ?_⟩
    simp only [haveKids, List.any_eq_false, decide_eq_true_eq] at hkids
    exact hkids q (mem_slots q) hpar

/-- The first process forks twice; its children exit, and it reaps one with `wait` and
    the other with `waitx`. -/
def reapTwo : List Act :=
  [.schedule, .scan, .resume] ++ forkActs ++ forkActs ++
    [.wait, .scan, .resume, .exit, .scan, .resume, .exit, .scan, .schedule, .scan, .resume,
      .waitx true true]

theorem reaped_once_reapTwo : ∃ x : Machine 1 × Tally, (reaping 1).Reachable Any x ∧
    x.2.created < 2 ^ 31 ∧ x.2.returned = [3, 2] ∧ x.2.returned.Nodup := by
  obtain ⟨x, hx, hP⟩ := exists_reachable (S := reaping 1) (s := (boot 1 0 0 0, {}))
    ⟨⟨0, 0, 0, rfl⟩, rfl⟩ (show (exec _ Any _ (reapTwo.map (0, ·))).any (fun x => decide (
      x.2.created < 2 ^ 31 ∧ x.2.returned = [3, 2])) by decide +kernel)
  obtain ⟨hc, hr⟩ := of_decide_eq_true hP
  exact ⟨x, hx, hc, hr, (reaped_once hx hc).1⟩

end Machine

end Xv6
