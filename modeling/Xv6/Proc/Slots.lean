import Xv6.Proc.Tree

/-!
# Free slots

What a slot keeps when it is freed, and who gets to see it. A reaped slot is
clean; one that a failing `fork` gives up keeps its pid, and `killed` if its
process was killed meanwhile. `kill` looks at all slots, free ones included, and
`allocproc` clears neither field.

* `free_slots_bare`: a free slot has no kernel stack and no files, whatever
  happened;
* `free_slots_clean`: it has no pid and is not marked killed either, as long as no
  `fork` fails after it has taken a slot, and `kill` finds processes that exist;
* `kill_exact`: `kill` marks the process it names, and new processes start
  unmarked, as long as `kill` finds no free slot and no `fork` gives up a child that
  was killed.
-/

namespace Xv6

/-- The slot has no files. -/
def Entry.bare (x : Entry) : Prop := x.cwd = none ∧ x.ofile = fun _ => none

namespace Family

variable {F F' : Family} {p q : Slot} {e : Event}

/-! ## How a slot becomes free -/

theorem wakeup_of_unused (chan : Option Chan) (hq : (F.entry q).state = .unused) :
    (F.wakeup chan).entry q = F.entry q := by
  simp [Family.wakeup, Entry.wakeup, hq]

theorem abandon_of_unused (hq : (F.entry q).state = .unused)
    (hpar : (F.entry q).parent ≠ some p) : (F.abandon p).entry q = F.entry q := by
  have hr : (F.reparent p).entry q = F.entry q := if_neg hpar
  rw [abandon]
  split_ifs
  · rw [wakeup_of_unused _ (hr ▸ hq), hr]
  · exact hr

/-- `exit` leaves the free slots alone: they are nobody's children. -/
theorem exit_of_unused (hq : (F.entry q).state = .unused) (hpar : (F.entry q).parent ≠ some p)
    (hne : q ≠ p) : (F.exit p).entry q = F.entry q := by
  have h₁ : (F.set p Entry.close).entry q = F.entry q := set_of_ne _ _ hne
  have h₂ : ((F.set p Entry.close).wakeup ((F.entry p).parent.map .proc)).entry q = F.entry q := by
    rw [wakeup_of_unused _ (h₁ ▸ hq), h₁]
  rw [exit, set_of_ne _ _ hne, abandon_of_unused (h₂ ▸ hq) (h₂ ▸ hpar), h₂]

theorem unused_of_exit (h : ((F.exit p).entry q).state = .unused) :
    (F.entry q).state = .unused ∧ q ≠ p := by
  by_cases hq : q = p
  · subst hq; rw [(exit_self F q).1] at h; cases h
  · rcases (left_exit F hq).state with hs | ⟨-, hs⟩
    · exact ⟨hs ▸ h, hq⟩
    · rw [hs] at h; cases h

/-- How the slot `q` has become free in the event `e`: by a failing `fork`, by a reaping
    `wait`, or it was free before and stays as it is, unless `kill` finds it. -/
def Frees (F : Family) (e : Event) (F' : Family) (q : Slot) : Prop :=
  (∃ p, e = .drop p q ∧ F'.entry q = { F.entry q with kstack := none, state := .unused }) ∨
  (∃ p, e = .reap p q ∧ F'.entry q = (F.entry q).reap) ∨
  (F.entry q).state = .unused ∧
    (F'.entry q = F.entry q ∨ e = .kill q ∧ F'.entry q = (F.entry q).kill)

theorem Step.frees (hs : F.Step e F') (ht : F.Tree) (hq : (F'.entry q).state = .unused) :
    F.Frees e F' q := by
  have hkeep : F'.entry q = F.entry q → F.Frees e F' q := fun h =>
    .inr (.inr ⟨h ▸ hq, .inl h⟩)
  -- An entry that changes and is not free after it is that of another slot.
  have hset : ∀ {G : Family} {r : Slot} {f : Entry → Entry},
      ((G.set r f).entry q).state = .unused → (f (G.entry r)).state ≠ .unused →
      (G.set r f).entry q = G.entry q := fun {G r f} h hf =>
    set_of_ne _ _ fun he => hf (by rwa [he, set_self] at h)
  -- In a call of `fork`, the entries of the child and of its parent change.
  have hfork : ∀ {r np : Slot} {f f' : Entry → Entry} {g : Forking}, F.Forks r g → g.child = np →
      F' = (F.set np f).set r f' → (∀ x, (f' x).state = x.state) →
      (f (F.entry np)).state ≠ .unused → F'.entry q = F.entry q := by
    rintro r np f f' g hf rfl rfl hf' hnp
    have hr : ((F.set g.child f).entry r).state = .running := by
      rw [set_of_ne _ _ hf.child_ne.symm, hf.running]
    have h₁ := hset hq (by rw [hf', hr]; simp)
    rw [h₁] at hq ⊢
    exact hset hq hnp
  cases hs with
  | keep => exact hkeep rfl
  | move _ hs => exact hkeep (hset hq (by rcases hs with rfl | rfl <;> simp))
  | sleep => exact hkeep (hset hq (by simp))
  | wait => exact hkeep (hset hq (by simp))
  | @wakeup chan =>
    refine hkeep ?_
    rcases wakeup_cases (F.entry q) (some chan) with ⟨he, -⟩ | ⟨-, he⟩
    · exact he
    · simp only [Family.wakeup, he] at hq
      cases hq
  | @alloc r np hr _ hnp =>
    have hne : r ≠ np := fun he => by rw [he, hnp] at hr; cases hr
    rw [bump_entry] at hq hkeep
    have h₁ := hset hq (by rw [set_of_ne _ _ hne, hr]; simp)
    rw [h₁] at hq hkeep
    exact hkeep (hset hq (by simp))
  | init _ hf => exact hkeep (hfork hf rfl rfl (fun _ => rfl) (by simp [hf.child]))
  | @drop r np hf =>
    have hr : (F.entry r).state = .running := hf.elim (·.running) (·.running)
    have hne : np ≠ r := hf.elim (·.child_ne) (·.child_ne)
    by_cases hqn : q = np
    · subst hqn
      exact .inl ⟨r, rfl, by rw [set_of_ne _ _ hne, set_self]⟩
    · have h₁ := hset hq (by rw [set_of_ne _ _ hne.symm, hr]; simp)
      exact hkeep (h₁.trans (set_of_ne _ _ hqn))
  | copy hf => exact hkeep (hfork hf rfl rfl (fun _ => rfl) (by simp [hf.child]))
  | start hf => exact hkeep (hfork hf rfl rfl (fun _ => rfl) (by simp))
  | exit =>
    obtain ⟨hu, hne⟩ := unused_of_exit hq
    exact hkeep (exit_of_unused hu (by rw [ht.unused q hu]; simp) hne)
  | @reap r z =>
    by_cases hqz : q = z
    · subst hqz; exact .inr (.inl ⟨r, rfl, set_self _ _ _⟩)
    · exact hkeep (set_of_ne _ _ hqz)
  | kill r =>
    by_cases hqr : q = r
    · subst hqr
      rw [set_self] at hq
      refine .inr (.inr ⟨?_, .inr ⟨rfl, set_self _ _ _⟩⟩)
      by_cases hs : (F.entry q).state = .sleeping <;> simp [Entry.kill, hs] at hq
      exact hq
    · exact hkeep (set_of_ne _ _ hqr)
  | fault hp => exact hkeep (hset hq (by simp [hp]))
  | files _ _ hp => exact hkeep (hset hq (by simp [hp]))

/-- What the events that free a slot or find it free establish or keep holds of the free
    slots. -/
theorem Step.free {P : Entry → Prop} (hs : F.Step e F') (ht : F.Tree)
    (h : ∀ q, (F.entry q).state = .unused → P (F.entry q))
    (hdrop : ∀ p q, e = .drop p q → P { F.entry q with kstack := none, state := .unused })
    (hreap : ∀ p q, e = .reap p q → P (F.entry q).reap)
    (hkill : ∀ q, e = .kill q → (F.entry q).state = .unused → P (F.entry q).kill)
    (q : Slot) (hq : (F'.entry q).state = .unused) : P (F'.entry q) := by
  rcases hs.frees ht hq with ⟨p, he, hx⟩ | ⟨p, he, hx⟩ | ⟨hu, hx | ⟨he, hx⟩⟩ <;> rw [hx]
  · exact hdrop p q he
  · exact hreap p q he
  · exact h q hu
  · exact hkill q he hu

/-- The free slots are not marked killed. -/
def Unmarked (F : Family) : Prop :=
  ∀ q, (F.entry q).state = .unused → (F.entry q).killed = false

theorem Unmarked.step (h : F.Unmarked) (hs : F.Step e F') (ht : F.Tree)
    (hkill : ∀ q, e = .kill q → (F.entry q).state ≠ .unused)
    (hdrop : ∀ p q, e = .drop p q → (F.entry q).killed = false) : F'.Unmarked :=
  hs.free (P := fun x => x.killed = false) ht h hdrop (fun _ _ _ => rfl)
    fun q he hu => absurd hu (hkill q he)

/-- The free slots have no pid. -/
def Unnumbered (F : Family) : Prop :=
  ∀ q, (F.entry q).state = .unused → (F.entry q).pid = 0

theorem Unnumbered.step (h : F.Unnumbered) (hs : F.Step e F') (ht : F.Tree)
    (hdrop : ∀ p q, e ≠ .drop p q) : F'.Unnumbered :=
  hs.free (P := fun x => x.pid = 0) ht h (fun p q he => absurd he (hdrop p q))
    (fun _ _ _ => rfl) fun q _ hu => h q hu

/-! ## Kernel stacks and files -/

/-- The free slots have no kernel stack. -/
def Unstacked (F : Family) : Prop :=
  ∀ q, (F.entry q).state = .unused → (F.entry q).kstack = none

theorem Unstacked.step (h : F.Unstacked) (hs : F.Step e F') (ht : F.Tree) : F'.Unstacked :=
  hs.free (P := fun x => x.kstack = none) ht h (fun _ _ _ => rfl) (fun _ _ _ => rfl)
    fun q _ hu => h q hu

/-- Only processes that are alive have files, and the `EMBRYO`s `fork` has copied them to. -/
def Bare (F : Family) : Prop :=
  ∀ q, (F.entry q).bare ∨ (F.entry q).state.live ∨ ∃ p, (F.entry p).forking = some (.copied q)

theorem Bare.set (h : F.Bare) {f : Entry → Entry} (hfk : ∀ x, (f x).forking = x.forking)
    (hf : (F.entry p).bare ∨ (F.entry p).state.live →
      (f (F.entry p)).bare ∨ (f (F.entry p)).state.live) : (F.set p f).Bare := fun q => by
  have hc : (∃ r, (F.entry r).forking = some (.copied q)) →
      ∃ r, ((F.set p f).entry r).forking = some (.copied q) :=
    fun ⟨r, hr⟩ => ⟨r, (apply_set Entry.forking hfk F p r).trans hr⟩
  by_cases hq : q = p
  · subst hq
    rw [set_self]
    rcases or_assoc.2 (h q) with hx | hx
    · exact or_assoc.1 (.inl (hf hx))
    · exact .inr (.inr (hc hx))
  · rw [set_of_ne _ _ hq]
    exact (h q).imp_right (.imp_right hc)

/-- A step of a `fork` call of `p` for `np`. -/
theorem Bare.fork (h : F.Bare) {np : Slot} {g : Entry → Entry} {f' : Option Forking}
    (hne : np ≠ p) (hp : (F.entry p).state = .running)
    (hfk : ∀ f, (F.entry p).forking = some f → f.child = np) (hgfk : ∀ x, (g x).forking = x.forking)
    (hg : (g (F.entry np)).bare ∨ (g (F.entry np)).state.live ∨ f' = some (.copied np)) :
    ((F.set np g).set p fun x => { x with forking := f' }).Bare := fun q => by
  by_cases hqn : q = np
  · subst hqn
    rw [set_of_ne _ _ hne, set_self]
    exact hg.imp_right (.imp_right fun hf' => ⟨p, by rw [set_self, hf']⟩)
  by_cases hqp : q = p
  · subst hqp
    rw [set_self, set_of_ne _ _ hqn]
    exact .inr (.inl (by simp [hp, Procstate.live]))
  · rw [set_of_ne _ _ hqp, set_of_ne _ _ hqn]
    refine (h q).imp_right (.imp_right (.imp fun r hr => ?_))
    have hrp : r ≠ p := fun he => hqn (hfk (.copied q) (he ▸ hr))
    rw [set_of_ne _ _ hrp, apply_set Entry.forking hgfk, hr]

/-- The child of a `fork` call has no files before they are copied. -/
theorem Bare.of_forks (h : F.Bare) {f : Forking} (hf : F.Forks p f)
    (hc : f ≠ .copied f.child) : (F.entry f.child).bare := by
  rcases h f.child with hb | hl | ⟨r, hr⟩
  · exact hb
  · rw [hf.child] at hl; cases hl
  · obtain rfl := hf.unique r _ hr rfl
    exact absurd (Option.some.inj (hf.forking.symm.trans hr)) hc

/-- `exit` keeps the fields of the entries that it does not set, apart from `close`. -/
theorem exit_apply {β : Type} (π : Entry → β)
    (hstate : ∀ x s chan, π { x with state := s, chan := chan } = π x)
    (hparent : ∀ x parent, π { x with parent := parent } = π x) (F : Family) (p q : Slot) :
    π ((F.exit p).entry q) = π ((F.set p Entry.close).entry q) := by
  have hwake : ∀ (G : Family) chan, π ((G.wakeup chan).entry q) = π (G.entry q) :=
    fun G chan => by
      rcases wakeup_cases (G.entry q) chan with ⟨h, -⟩ | ⟨-, h⟩ <;> simp only [Family.wakeup, h]
      exact hstate _ _ _
  have hrep : ∀ G : Family, π ((G.reparent p).entry q) = π (G.entry q) := fun G => by
    simp only [reparent]
    split_ifs
    · exact hparent _ _
    · rfl
  rw [exit, apply_set π (fun x => hstate x _ _), abandon]
  split_ifs
  · rw [hwake, hrep, hwake]
  · rw [hrep, hwake]

theorem Bare.exit (h : F.Bare) : (F.exit p).Bare := fun q => by
  have hcwd : ((F.exit p).entry q).cwd = ((F.set p Entry.close).entry q).cwd :=
    exit_apply Entry.cwd (fun _ _ _ => rfl) (fun _ _ => rfl) F p q
  have hofile : ((F.exit p).entry q).ofile = ((F.set p Entry.close).entry q).ofile :=
    exit_apply Entry.ofile (fun _ _ _ => rfl) (fun _ _ => rfl) F p q
  by_cases hq : q = p
  · subst hq
    rw [set_self] at hcwd hofile
    exact .inl ⟨hcwd, hofile⟩
  rw [set_of_ne _ _ hq] at hcwd hofile
  have hfk : ∀ r, ((F.exit p).entry r).forking = (F.entry r).forking := fun r => by
    by_cases hr : r = p
    · subst hr; exact (exit_self F r).2.1
    · exact (left_exit F hr).forking
  rcases h q with hb | hl | ⟨r, hr⟩
  · exact .inl ⟨hcwd.trans hb.1, hofile.trans hb.2⟩
  · refine .inr (.inl ?_)
    rcases (left_exit F hq).state with hs | ⟨-, hs⟩ <;> rw [hs]
    · exact hl
    · rfl
  · exact .inr (.inr ⟨r, (hfk r).trans hr⟩)

theorem Bare.wakeup (h : F.Bare) (chan : Option Chan) : (F.wakeup chan).Bare := fun q => by
  have hfk : ∀ r, ((F.wakeup chan).entry r).forking = (F.entry r).forking := fun r => by
    rcases wakeup_cases (F.entry r) chan with ⟨he, -⟩ | ⟨-, he⟩ <;> simp only [Family.wakeup, he]
  rcases wakeup_cases (F.entry q) chan with ⟨he, -⟩ | ⟨-, he⟩
  · have : (F.wakeup chan).entry q = F.entry q := he
    rw [this]
    exact (h q).imp_right (.imp_right (.imp fun r hr => (hfk r).trans hr))
  · have : ((F.wakeup chan).entry q).state = .runnable := by simp only [Family.wakeup, he]
    exact .inr (.inl (by rw [this]; rfl))

theorem Bare.step (h : F.Bare) (hs : F.Step e F') (ht : F.Tree) : F'.Bare := by
  have hfk : ∀ {r : Slot} {f : Forking}, F.Forks r f →
      ∀ g, (F.entry r).forking = some g → g.child = f.child := fun hf g hg => by
    rw [Option.some.inj (hg.symm.trans hf.forking)]
  cases hs with
  | keep => exact h
  | move _ hs => exact h.set (fun _ => rfl) fun _ => .inr (by rcases hs with rfl | rfl <;> rfl)
  | sleep => exact h.set (fun _ => rfl) fun _ => .inr rfl
  | wait => exact h.set (fun _ => rfl) fun _ => .inr rfl
  | wakeup => exact h.wakeup _
  | @alloc r np hr hf hnp =>
    have hne : np ≠ r := fun he => by rw [he, hr] at hnp; cases hnp
    refine h.fork hne hr (by simp [hf]) (fun _ => rfl) (.inl ?_)
    rcases h np with hb | hl | ⟨r, hc⟩
    · exact hb
    · rw [hnp] at hl; cases hl
    · have := ht.child r _ hc
      rw [Forking.child, hnp] at this
      cases this
  | init _ hf =>
    exact h.fork hf.child_ne hf.running (hfk hf) (fun _ => rfl) (.inl (h.of_forks hf (by simp)))
  | drop hf =>
    rcases hf with hf | hf
    all_goals
      exact h.fork hf.child_ne hf.running (hfk hf) (fun _ => rfl) (.inl (h.of_forks hf (by simp)))
  | copy hf => exact h.fork hf.child_ne hf.running (hfk hf) (fun _ => rfl) (.inr (.inr rfl))
  | start hf => exact h.fork hf.child_ne hf.running (hfk hf) (fun _ => rfl) (.inr (.inl rfl))
  | exit => exact h.exit
  | reap _ _ _ hz =>
    refine h.set (fun _ => rfl) (Or.imp_right fun hl => ?_)
    rw [hz] at hl; cases hl
  | kill q =>
    refine h.set (fun _ => rfl) (Or.imp_right fun hl => ?_)
    by_cases hs : (F.entry q).state = .sleeping
    · simp [Entry.kill, hs, Procstate.live]
    · simpa [Entry.kill, hs] using hl
  | fault hp => exact h.set (fun _ => rfl) fun _ => .inr (by rw [hp]; rfl)
  | files _ _ hp => exact h.set (fun _ => rfl) fun _ => .inr (by rw [hp]; rfl)

end Family

/-! ## Runs -/

namespace Machine

open TransitionSystem

variable {n : ℕ} {m m' : Machine n} {c : Fin n} {a : Act} {p q : Slot}

/-- The slot that `kill` finds. -/
def killTarget (m : Machine n) : Act → Option Slot
  | .kill pid => slots.find? fun p => (m.ptable p).pid = pid
  | _ => none

/-- The child that a failing `fork` gives up. -/
def dropped (m : Machine n) (c : Fin n) : Act → Option Slot
  | .kalloc none | .copyuvm none => (m.forker c).map fun x => x.2.child
  | _ => none

theorem Acts.killTarget {e : Family.Event} (h : m.Acts c a m' e) (he : e = .kill q) :
    m.killTarget a = some q := by
  obtain ⟨pid, rfl, hq⟩ := h.kill q he
  exact hq

theorem Acts.dropped {e : Family.Event} (h : m.Acts c a m' e) (he : e = .drop p q) :
    m.dropped c a = some q := by
  obtain ⟨rfl | rfl, f, hf, rfl⟩ := h.drop p q he <;> simp [Machine.dropped, hf]

/-- What holds of the family at boot and is kept by the events of the steps that meet the
    condition holds in every state they lead to. -/
theorem family_invariant {ok : Machine n → Fin n × Act → Prop} {I : Family → Prop}
    (hboot : ∀ kstack pgdir root, I (boot n kstack pgdir root).family)
    (hstep : ∀ {m m' : Machine n} {c a e}, ok m (c, a) → m.family.Tree → m.Acts c a m' e →
      I m.family → I m'.family) (hm : (machine n).Reachable ok m) : I m.family := by
  have h := hm.invariant (I := fun m => m.Inv ∧ m.family.Tree ∧ I m.family) ?_ ?_
  · exact h.2.2
  · rintro m ⟨kstack, pgdir, root, rfl⟩
    exact ⟨inv_boot _ _ _, tree_boot _ _ _, hboot _ _ _⟩
  · rintro m ⟨c, a⟩ m' ⟨hinv, ht, hI⟩ hok hs
    obtain ⟨e, he⟩ := exists_acts hinv (moves_of_step hs)
    exact ⟨inv_of_step hinv hs, ht.step he.step, hstep hok ht he hI⟩

/-- What holds of an empty entry holds of the free slots at boot. -/
theorem free_boot {P : Entry → Prop} (h : P {}) (kstack pgdir root : ℕ) (q : Slot)
    (hq : ((boot n kstack pgdir root).family.entry q).state = .unused) :
    P ((boot n kstack pgdir root).family.entry q) := by
  rw [family_boot] at hq ⊢
  split_ifs at hq ⊢
  exact h

/-- In every run, a free slot has no parent, no kernel stack and no files. -/
theorem free_slots_bare (hm : (machine n).Reachable Any m) (hq : (m.ptable q).state = .unused) :
    (m.ptable q).parent = none ∧ (m.ptable q).kstack = none ∧
      (m.ptable q).image.cwd = none ∧ (m.ptable q).image.ofile = fun _ => none := by
  have ht := (tree_of_reachable hm).1
  have hb : m.family.Bare := by
    refine family_invariant (fun _ _ _ q => ?_) (fun _ ht he hb => hb.step he.step ht) hm
    rw [family_boot]
    split_ifs
    · exact .inr (.inl rfl)
    · exact .inl ⟨rfl, rfl⟩
  have hk : m.family.Unstacked :=
    family_invariant (free_boot (P := fun x => x.kstack = none) rfl)
    (fun _ ht he hk => hk.step he.step ht) hm
  refine ⟨ht.unused q hq, hk q hq, ?_⟩
  rcases hb q with hb | hl | ⟨r, hr⟩
  · exact hb
  · rw [show (m.family.entry q).state = _ from hq] at hl; cases hl
  · have := ht.child r _ hr
    rw [show (m.family.entry (Forking.copied q).child).state = _ from hq] at this
    cases this

/-! ### Kill -/

/-- `kill` finds no free slot, and no `fork` gives up a child that was killed. -/
def Aimed (m : Machine n) (x : Fin n × Act) : Prop :=
  (∀ q, m.killTarget x.2 = some q → (m.ptable q).state ≠ .unused) ∧
    ∀ q, m.dropped x.1 x.2 = some q → (m.ptable q).killed = false

instance (m : Machine n) (x : Fin n × Act) : Decidable (Aimed m x) :=
  inferInstanceAs (Decidable (_ ∧ _))

theorem unmarked_of_reachable (hm : (machine n).Reachable Aimed m) : m.family.Unmarked := by
  refine family_invariant (free_boot (P := fun x => x.killed = false) rfl)
    (fun ha ht he h => h.step he.step ht (fun q hk => ?_) fun p q hd => ?_) hm
  · exact ha.1 q (he.killTarget hk)
  · exact ha.2 q (he.dropped hd)

/-- The slot that `allocproc` takes, after it. -/
theorem allocproc_entry {ok : Machine n → Fin n × Act → Prop} {np : Slot}
    (hm : (machine n).Reachable ok m) (hs : m.step (c, .allocproc) = some m')
    (hnp : findUnused m.ptable = some np) :
    m'.ptable np = { m.ptable np with state := .embryo, pid := m.nextpid } := by
  have hinv : m.Inv := inv_of_reachable hm
  cases moves_of_step hs with
  | @allocproc p k _ hp =>
    have hne : np ≠ p := fun he => by
      have hrun := (hinv.of_calls hp).2
      rw [← he, state_of_findUnused hnp] at hrun
      cases hrun
    unfold Machine.allocproc
    cases hu : Xv6.allocproc m.toKernel with
    | none => rw [Xv6.allocproc, hnp] at hu; cases hu
    | some x =>
      obtain ⟨r, κ⟩ := x
      obtain ⟨hr, hκ⟩ := allocproc_eq_some hu
      obtain rfl := Option.some.inj (hnp.symm.trans hr)
      change modify κ.ptable p (fun q => { q with forking := some (.embryo np) }) np = _
      rw [modify_of_ne _ _ hne, hκ, modify_self]

/-- The process is marked killed, and woken up if it sleeps. -/
abbrev mark (q : Proc) : Proc :=
  { q with killed := true, state := if q.state = .sleeping then .runnable else q.state }

/-- In every run of aimed steps, `kill` finds the process it is to find, and marks no other slot,
    exactly if the first slot with the pid is in use; and `allocproc` gives a slot that is not
    marked killed. -/
theorem kill_exact (hm : (machine n).Reachable Aimed m) :
    (∀ pid, (((kill m.toKernel pid).2 = 0 ↔
          ∃ q, (m.ptable q).state ≠ .unused ∧ (m.ptable q).pid = pid) ∧
        ((kill m.toKernel pid).2 = 0 → ∃ q, (m.ptable q).state ≠ .unused ∧
          (m.ptable q).pid = pid ∧ (kill m.toKernel pid).1 = m.toKernel.modify q mark)) ↔
      ∀ q, slots.find? (fun p => (m.ptable p).pid = pid) = some q →
        (m.ptable q).state ≠ .unused) ∧
    ∀ c m' np, m.step (c, .allocproc) = some m' → findUnused m.ptable = some np →
      (m'.ptable np).state = .embryo ∧ (m'.ptable np).killed = false := by
  have hun := unmarked_of_reachable hm
  have hret : (-1 : Int32) ≠ 0 := by decide
  refine ⟨fun pid => ⟨fun hk q hq hu => ?_, fun h => ?_⟩, fun c m' np hs hnp => ?_⟩
  · -- The free slot that is found is marked, which is not what marking another slot does.
    have hkill : kill m.toKernel pid = (m.toKernel.modify q mark, 0) := by rw [kill, hq]
    obtain ⟨r, hr, -, he⟩ := hk.2 (by rw [hkill])
    have hne : q ≠ r := fun he => hr (he ▸ hu)
    have hmark : ((m.toKernel.modify r mark).ptable q).killed = true := by
      rw [← he, hkill, modify_ptable, modify_self]
    rw [modify_ptable, modify_of_ne _ _ hne] at hmark
    have hfalse : (m.ptable q).killed = false := hun q hu
    rw [hfalse] at hmark
    cases hmark
  · cases hq : slots.find? (fun p => (m.ptable p).pid = pid) with
    | none =>
      have hkill : kill m.toKernel pid = (m.toKernel, -1) := by rw [kill, hq]
      rw [List.find?_eq_none] at hq
      rw [hkill]
      refine ⟨⟨fun h0 => absurd h0 hret, fun hex => ?_⟩, fun h0 => absurd h0 hret⟩
      obtain ⟨q, -, hp⟩ := hex
      exact absurd (by simpa using hp) (hq q (mem_slots q))
    | some q =>
      have hkill : kill m.toKernel pid = (m.toKernel.modify q mark, 0) := by rw [kill, hq]
      have hpid : (m.ptable q).pid = pid := by simpa using List.find?_some hq
      rw [hkill]
      exact ⟨⟨fun _ => ⟨q, h q hq, hpid⟩, fun _ => rfl⟩, fun _ => ⟨q, h q hq, hpid, rfl⟩⟩
  · have he := allocproc_entry hm hs hnp
    have hkilled : (m.ptable np).killed = false := hun np (state_of_findUnused hnp)
    exact ⟨he ▸ rfl, he ▸ hkilled⟩

/-- The first process forks and kills its child, which has the pid 2. -/
def forkAndKill : List Act := [.schedule, .scan, .resume] ++ forkActs ++ [.kill 2]

theorem kill_exact_forkAndKill : ∃ m m' : Machine 1, (machine 1).Reachable Aimed m ∧
    (kill m.toKernel 1).2 = 0 ∧ (m.ptable 1).killed ∧
    m.step (0, .allocproc) = some m' ∧ (m'.ptable 2).killed = false := by
  obtain ⟨m, m', hm, hs, hP⟩ := exists_reachable_step (S := machine 1) (a := (0, .allocproc))
    ⟨0, 0, 0, rfl⟩ (show (exec (machine 1) Aimed _ (forkAndKill.map (0, ·))).any (fun m =>
      ((machine 1).step m (0, .allocproc)).any fun _ => decide ((m.ptable 0).state = .running ∧
        (m.ptable 0).pid = 1 ∧ (m.ptable 1).killed ∧ findUnused m.ptable = some 2 ∧
        slots.find? (fun p => (m.ptable p).pid = 1) = some 0)) by decide +kernel)
  obtain ⟨hr, hpid, hk, hnp, hf⟩ := of_decide_eq_true hP
  obtain ⟨hkill, halloc⟩ := kill_exact hm
  refine ⟨m, m', hm, ?_, hk, hs, (halloc 0 m' 2 hs hnp).2⟩
  refine (((hkill 1).2 fun q hq hu => ?_).1).2 ⟨0, by rw [hr]; simp, hpid⟩
  obtain rfl := Option.some.inj (hf.symm.trans hq)
  rw [hr] at hu
  cases hu

/-- The first process calls `kill(0)` and forks. -/
def killFree : List Act := [.schedule, .scan, .resume, .kill 0] ++ forkActs

/-- `kill(0)` returns 0 though no process has the pid 0, and marks the process forked next. -/
theorem kill_marks_free_slot : ∃ m m' m₁ : Machine 1, (machine 1).Reachable Any m ∧
    (∀ q, (m.ptable q).state ≠ .unused → (m.ptable q).pid ≠ 0) ∧
    m.step (0, .kill 0) = some m' ∧ (m'.ptable 0).eax = 0 ∧
    (machine 1).Reachable Any m₁ ∧ (m₁.ptable 0).eax = (m₁.ptable 1).pid ∧
    (m₁.ptable 1).state = .runnable ∧ (m₁.ptable 1).killed := by
  obtain ⟨m, m', hm, hs, hP⟩ := exists_reachable_step (S := machine 1) (a := (0, .kill 0))
    ⟨0, 0, 0, rfl⟩ (show (exec (machine 1) Any _
      ([Act.schedule, .scan, .resume].map (0, ·))).any (fun m =>
      ((machine 1).step m (0, .kill 0)).any fun m' => decide (
        (∀ q, (m.ptable q).state ≠ .unused → (m.ptable q).pid ≠ 0) ∧
        (m'.ptable 0).eax = 0)) by decide +kernel)
  obtain ⟨m₁, hm₁, hP₁⟩ := exists_reachable (S := machine 1) ⟨0, 0, 0, rfl⟩
    (show (exec _ Any _ (killFree.map (0, ·))).any (fun m => decide (
      (m.ptable 0).eax = (m.ptable 1).pid ∧ (m.ptable 1).state = .runnable ∧
      (m.ptable 1).killed)) by decide +kernel)
  obtain ⟨hpid, he⟩ := of_decide_eq_true hP
  exact ⟨m, m', m₁, hm, hpid, hs, he, hm₁, of_decide_eq_true hP₁⟩

/-! ### The pids of free slots -/

/-- `kill` finds no free slot, and no `fork` fails after it has taken a slot. -/
def Tidy (m : Machine n) (x : Fin n × Act) : Prop :=
  (∀ q, m.killTarget x.2 = some q → (m.ptable q).state ≠ .unused) ∧ m.dropped x.1 x.2 = none

instance (m : Machine n) (x : Fin n × Act) : Decidable (Tidy m x) :=
  inferInstanceAs (Decidable (_ ∧ _))

theorem Tidy.aimed {x : Fin n × Act} (h : Tidy m x) : Aimed m x :=
  ⟨h.1, fun q hq => by rw [h.2] at hq; cases hq⟩

/-- In the step, `fork` returns -1. -/
def forkFails (m : Machine n) : Act → Bool
  | .allocproc => (findUnused m.ptable).isNone
  | .kalloc none | .copyuvm none => true
  | _ => false

/-- In a run in which no `fork` fails after it has taken a slot, the free slots have no pid. -/
theorem unnumbered_of_reachable {ok : Machine n → Fin n × Act → Prop}
    (hok : ∀ {m x}, ok m x → m.dropped x.1 x.2 = none) (hm : (machine n).Reachable ok m) :
    m.family.Unnumbered := by
  refine family_invariant (free_boot (P := fun x => x.pid = 0) rfl)
    (fun ha ht he h => h.step he.step ht fun p q hd => ?_) hm
  have := he.dropped hd
  rw [hok ha] at this
  cases this

/-- In every run of tidy steps, the free slots are clean and a `fork` that returns -1
    changes nothing but the register it returns in. -/
theorem free_slots_clean (hm : (machine n).Reachable Tidy m) :
    (∀ q, (m.ptable q).state = .unused → (m.ptable q).pid = 0 ∧ (m.ptable q).parent = none ∧
      (m.ptable q).kstack = none ∧ (m.ptable q).killed = false ∧
      (m.ptable q).image.cwd = none ∧ (m.ptable q).image.ofile = fun _ => none) ∧
    ∀ c a m', Tidy m (c, a) → m.forkFails a → m.step (c, a) = some m' →
      ∀ q, { m'.ptable q with eax := (m.ptable q).eax } = m.ptable q := by
  refine ⟨fun q hq => ?_, fun c a m' ha hf hs q => ?_⟩
  · have hpid : m.family.Unnumbered := unnumbered_of_reachable (fun ha => ha.2) hm
    have hkilled : m.family.Unmarked := unmarked_of_reachable (hm.mono fun _ _ => Tidy.aimed)
    obtain ⟨hpar, hk, hcwd, hofile⟩ := free_slots_bare (hm.mono fun _ _ _ => trivial) hq
    exact ⟨hpid q hq, hpar, hk, hkilled q hq, hcwd, hofile⟩
  · -- In a tidy step, `fork` only fails for want of a slot.
    cases moves_of_step hs with
    | @allocproc p k _ hp =>
      have hnone : Xv6.allocproc m.toKernel = none := by
        rw [Xv6.allocproc, Option.isNone_iff_eq_none.1 hf]; rfl
      simp only [Machine.allocproc, hnone]
      by_cases hq : q = p
      · subst hq
        exact congrArg (fun x : Proc => { x with eax := (m.ptable q).eax }) (modify_self _ _ _)
      · exact congrArg (fun x : Proc => { x with eax := (m.ptable q).eax }) (modify_of_ne _ _ hq)
    | @kalloc p np page hfk =>
      cases page with
      | none => simp [Tidy, dropped, forker_eq_some_iff.2 hfk] at ha
      | some page => cases hf
    | @copyuvm p np pgdir hfk =>
      cases pgdir with
      | none => simp [Tidy, dropped, forker_eq_some_iff.2 hfk] at ha
      | some pgdir => cases hf
    | _ => cases hf

/-- The first process forks; the child exits and is reaped. -/
def forkAndReap : List Act :=
  [.schedule, .scan, .resume] ++ forkActs ++
    [.wait, .scan, .resume, .exit, .scan, .schedule, .scan, .resume]

theorem free_slots_clean_forkAndReap : ∃ m : Machine 1, (machine 1).Reachable Tidy m ∧
    (m.ptable 0).eax = 2 ∧ (m.ptable 1).state = .unused ∧ (m.ptable 1).pid = 0 ∧
    (m.ptable 1).parent = none ∧ (m.ptable 1).kstack = none := by
  obtain ⟨m, hm, hP⟩ := exists_reachable (S := machine 1) ⟨0, 0, 0, rfl⟩
    (show (exec _ Tidy _ (forkAndReap.map (0, ·))).any (fun m => decide (
      (m.ptable 0).eax = 2 ∧ (m.ptable 1).state = .unused)) by decide +kernel)
  obtain ⟨he, hu⟩ := of_decide_eq_true hP
  obtain ⟨hpid, hpar, hk, -⟩ := (free_slots_clean hm).1 1 hu
  exact ⟨m, hm, he, hu, hpid, hpar, hk⟩

/-- A `fork` fails for want of memory, in `copyuvm`. -/
def forkWithoutMemory : List Act :=
  [.schedule, .scan, .resume, .allocproc, .kalloc (some 1), .copyuvm none]

/-- The free slot that is left has a pid. -/
theorem free_slot_keeps_pid : ∃ m : Machine 1, (machine 1).Reachable Any m ∧
    (m.ptable 0).eax = -1 ∧ (m.ptable 1).state = .unused ∧ (m.ptable 1).pid = 2 := by
  obtain ⟨m, hm, hP⟩ := exists_reachable (S := machine 1) ⟨0, 0, 0, rfl⟩
    (show (exec _ Any _ (forkWithoutMemory.map (0, ·))).any (fun m => decide (
      (m.ptable 0).eax = -1 ∧ (m.ptable 1).state = .unused ∧ (m.ptable 1).pid = 2))
      by decide +kernel)
  exact ⟨m, hm, of_decide_eq_true hP⟩

end Machine

end Xv6
