import Xv6.Proc.Kinship

/-!
# The process tree

* `Tree`: the slots in use form a tree under init, along the parent pointers. Only
  processes that can still call `wait` have children, and a free slot has no parent.
* `Waits`: a process asleep in `wait` or `waitx` has a child, and no zombie to reap.

Both are kept by every event of the family. A zombie child of a sleeping process
could come from the exit of the child or from a zombie passed to init, and `exit`
wakes up the parent in both cases; that the exiting process is not passed to
init by itself needs the tree.
-/

namespace Xv6

namespace Family

variable {F F' : Family} {p np q r : Slot} {e : Event}

/-- The parent pointers of `q` lead to init, through processes that are alive. -/
inductive Descends (F : Family) : Slot → Prop
  | init : Descends F F.initproc
  | child {p q : Slot} : (F.entry q).parent = some p → (F.entry p).state.live → Descends F p →
      Descends F q

/-- The slots in use form a tree. -/
structure Tree (F : Family) : Prop where
  init : (F.entry F.initproc).state.live
  unused : ∀ q, (F.entry q).state = .unused → (F.entry q).parent = none
  embryo : ∀ q, (F.entry q).state = .embryo → (F.entry q).parent = none ∨
    ∃ p, (F.entry q).parent = some p ∧ (F.entry p).forking = some (.copied q)
  caller : ∀ p f, (F.entry p).forking = some f → (F.entry p).state.live
  child : ∀ p f, (F.entry p).forking = some f → (F.entry f.child).state = .embryo
  early : ∀ p np, (F.entry p).forking = some (.embryo np) ∨
    (F.entry p).forking = some (.alloced np) → (F.entry np).parent = none
  copied : ∀ p np, (F.entry p).forking = some (.copied np) → (F.entry np).parent = some p
  descends : ∀ q, (F.entry q).state.live ∨ (F.entry q).state = .zombie → F.Descends q

/-- A process asleep in `wait` or `waitx` has a child, and no zombie to reap. -/
def Waits (F : Family) : Prop :=
  ∀ p, (F.entry p).state = .sleeping → (F.entry p).chan = some (.proc p) →
    (∃ q, (F.entry q).parent = some p) ∧
      ∀ q, (F.entry q).parent = some p → (F.entry q).state ≠ .zombie

/-! ## What the events do to it -/

/-- The parent pointers of the slots of `P` stay as they are. -/
theorem Descends.mono {P : Slot → Prop} (hi : F'.initproc = F.initproc)
    (h : ∀ q p, P q → (F.entry q).parent = some p → (F.entry p).state.live →
      P p ∧ (F'.entry q).parent = some p ∧ (F'.entry p).state.live)
    (hq : F.Descends q) (hP : P q) : F'.Descends q := by
  induction hq with
  | init => exact hi ▸ .init
  | child hpar hlive _ ih =>
    obtain ⟨hp, hpar', hlive'⟩ := h _ _ hP hpar hlive
    exact .child hpar' hlive' (ih hp)

/-- Nobody but init is its own parent. -/
theorem Descends.parent_ne (hq : F.Descends q) (hi : q ≠ F.initproc) :
    (F.entry q).parent ≠ some q := by
  induction hq with
  | init => exact absurd rfl hi
  | child hpar _ _ ih =>
    intro hself
    rw [hpar] at hself
    obtain rfl := Option.some.inj hself
    exact ih hi hpar

/-- Nobody is born, dies or changes its parent. -/
structure Soft (F F' : Family) : Prop where
  initproc : F'.initproc = F.initproc
  parent : ∀ q, (F'.entry q).parent = (F.entry q).parent
  forking : ∀ q, (F'.entry q).forking = (F.entry q).forking
  state : ∀ q, (F'.entry q).state = (F.entry q).state ∨
    (F.entry q).state.live ∧ (F'.entry q).state.live

theorem Soft.live_iff (h : F.Soft F') (q : Slot) :
    (F'.entry q).state.live ↔ (F.entry q).state.live := by
  rcases h.state q with hs | ⟨h₁, h₂⟩
  · rw [hs]
  · simp [h₁, h₂]

theorem Soft.state_iff (h : F.Soft F') {s : Procstate} (hs : s.live = false) (q : Slot) :
    (F'.entry q).state = s ↔ (F.entry q).state = s := by
  rcases h.state q with he | ⟨h₁, h₂⟩
  · rw [he]
  · constructor <;> intro he
    · rw [he, hs] at h₂; cases h₂
    · rw [he, hs] at h₁; cases h₁

theorem Tree.soft (h : F.Tree) (hs : F.Soft F') : F'.Tree where
  init := by rw [hs.initproc, hs.live_iff]; exact h.init
  unused q hq := by
    rw [hs.parent]
    exact h.unused q ((hs.state_iff rfl q).1 hq)
  embryo q hq := by
    simp only [hs.parent, hs.forking]
    exact h.embryo q ((hs.state_iff rfl q).1 hq)
  caller p f hf := (hs.live_iff p).2 (h.caller p f (hs.forking p ▸ hf))
  child p f hf := (hs.state_iff rfl _).2 (h.child p f (hs.forking p ▸ hf))
  early p np hf := by
    rw [hs.parent]
    exact h.early p np (hs.forking p ▸ hf)
  copied p np hf := by
    rw [hs.parent]
    exact h.copied p np (hs.forking p ▸ hf)
  descends q hq := by
    rw [hs.live_iff, hs.state_iff rfl] at hq
    refine (h.descends q hq).mono (P := fun _ => True) hs.initproc (fun q p _ hpar hlive => ?_)
      trivial
    exact ⟨trivial, (hs.parent q).trans hpar, (hs.live_iff p).2 hlive⟩

/-- One entry changes, and its process neither is born nor dies. -/
theorem Soft.set {f : Entry → Entry} (hpar : (f (F.entry p)).parent = (F.entry p).parent)
    (hfk : (f (F.entry p)).forking = (F.entry p).forking)
    (hst : (f (F.entry p)).state = (F.entry p).state ∨
      (F.entry p).state.live ∧ (f (F.entry p)).state.live) : F.Soft (F.set p f) := by
  refine ⟨rfl, fun q => ?_, fun q => ?_, fun q => ?_⟩ <;> by_cases hq : q = p
  · subst hq; rw [set_self, hpar]
  · rw [set_of_ne _ _ hq]
  · subst hq; rw [set_self, hfk]
  · rw [set_of_ne _ _ hq]
  · subst hq; rw [set_self]; exact hst
  · rw [set_of_ne _ _ hq]; exact .inl rfl

theorem wakeup_cases (x : Entry) (chan : Option Chan) :
    x.wakeup chan = x ∧ (x.state = .sleeping → x.chan ≠ chan) ∨
      x.state = .sleeping ∧ x.wakeup chan = { x with state := .runnable, chan := none } := by
  unfold Entry.wakeup
  split_ifs with h
  · exact .inr ⟨h.1, rfl⟩
  · exact .inl ⟨rfl, fun hs hc => h ⟨hs, hc⟩⟩

theorem Soft.wakeup (F : Family) (chan : Option Chan) : F.Soft (F.wakeup chan) := by
  refine ⟨rfl, fun q => ?_, fun q => ?_, fun q => ?_⟩ <;>
    rcases wakeup_cases (F.entry q) chan with ⟨h, -⟩ | ⟨hs, h⟩ <;> simp only [Family.wakeup, h]
  · exact .inl trivial
  · exact .inr ⟨by rw [hs]; rfl, rfl⟩

/-! ### Exit -/

/-- What `exit` of `p` does to the entry `x` of another slot, which becomes `x'`. -/
structure Left (F : Family) (p : Slot) (x x' : Entry) : Prop where
  parent : x'.parent = if x.parent = some p then some F.initproc else x.parent
  forking : x'.forking = x.forking
  state : x'.state = x.state ∨ x.state = .sleeping ∧ x'.state = .runnable
  /-- The parent of `p` does not sleep on, nor does init if a zombie is passed to it. -/
  sleeping : x'.state = .sleeping → x'.chan = x.chan ∧ x.chan ≠ (F.entry p).parent.map .proc ∧
    ((∃ q, (F.entry q).parent = some p ∧ (F.entry q).state = .zombie) →
      x.chan ≠ some (.proc F.initproc))

/-- A woken process is passed to init, and woken up again if `z` says so. -/
theorem left_of_wakeup {x y : Entry} {z : Prop} [Decidable z]
    (hz : (∃ q, (F.entry q).parent = some p ∧ (F.entry q).state = .zombie) → z)
    (hy : y = if x.parent = some p then { x with parent := some F.initproc } else x)
    (hx : x.state = .sleeping → x.chan ≠ (F.entry p).parent.map .proc) :
    F.Left p x (if z then y.wakeup (some (.proc F.initproc)) else y) := by
  have hpar : y.parent = if x.parent = some p then some F.initproc else x.parent := by
    rw [hy]; split_ifs <;> rfl
  have hrest : y.forking = x.forking ∧ y.state = x.state ∧ y.chan = x.chan := by
    rw [hy]; split_ifs <;> exact ⟨rfl, rfl, rfl⟩
  obtain ⟨hfk, hst, hch⟩ := hrest
  split_ifs with h
  · rcases wakeup_cases y (some (.proc F.initproc)) with ⟨he, hne⟩ | ⟨hs, he⟩ <;> rw [he]
    · refine ⟨hpar, hfk, .inl hst, fun hs => ⟨hch, hx (hst ▸ hs), fun _ => ?_⟩⟩
      rw [← hch]
      exact hne hs
    · exact ⟨hpar, hfk, .inr ⟨hst ▸ hs, rfl⟩, nofun⟩
  · exact ⟨hpar, hfk, .inl hst, fun hs => ⟨hch, hx (hst ▸ hs), fun hz' => absurd (hz hz') h⟩⟩

theorem left_abandon (F : Family) (p q : Slot) : F.Left p (F.entry q)
    (((F.wakeup ((F.entry p).parent.map .proc)).abandon p).entry q) := by
  set F₂ := F.wakeup ((F.entry p).parent.map .proc) with hF₂
  have hsoft : F.Soft F₂ := .wakeup F _
  have hz : (∃ q, (F.entry q).parent = some p ∧ (F.entry q).state = .zombie) →
      ∃ q, (F₂.entry q).parent = some p ∧ (F₂.entry q).state = .zombie := by
    rintro ⟨r, hr, hs⟩
    exact ⟨r, (hsoft.parent r).trans hr, (hsoft.state_iff rfl r).2 hs⟩
  have hab : (F₂.abandon p).entry q =
      if ∃ q, (F₂.entry q).parent = some p ∧ (F₂.entry q).state = .zombie then
        ((F₂.reparent p).entry q).wakeup (some (.proc F.initproc))
      else (F₂.reparent p).entry q := by
    unfold abandon
    split_ifs <;> rfl
  rw [hab]
  rcases wakeup_cases (F.entry q) ((F.entry p).parent.map .proc) with ⟨he, hne⟩ | ⟨hs, he⟩
  · have he : F₂.entry q = F.entry q := he
    exact left_of_wakeup hz (by rw [← he]; rfl) hne
  · have he : F₂.entry q = { F.entry q with state := .runnable, chan := none } := he
    have hl := left_of_wakeup (y := (F₂.reparent p).entry q) (x := F₂.entry q) hz rfl
      (by rw [he]; nofun)
    have hrun : _ = Procstate.runnable := (hl.state.resolve_right (by rw [he]; nofun)).trans
      (by rw [he])
    refine ⟨?_, ?_, .inr ⟨hs, hrun⟩, fun h => ?_⟩
    · rw [hl.parent, he]
    · rw [hl.forking, he]
    · rw [hrun] at h; cases h

theorem left_close (F : Family) (p q : Slot) : F.Left p (F.entry q)
    ((((F.set p Entry.close).wakeup ((F.entry p).parent.map .proc)).abandon p).entry q) := by
  -- closing the files of `p` changes nothing that matters here
  have hsame : ∀ r, ((F.set p Entry.close).entry r).parent = (F.entry r).parent ∧
      ((F.set p Entry.close).entry r).state = (F.entry r).state ∧
      ((F.set p Entry.close).entry r).chan = (F.entry r).chan ∧
      ((F.set p Entry.close).entry r).forking = (F.entry r).forking := fun r =>
    ⟨apply_set Entry.parent (by intro; rfl) F p r, apply_set Entry.state (by intro; rfl) F p r,
      apply_set Entry.chan (by intro; rfl) F p r, apply_set Entry.forking (by intro; rfl) F p r⟩
  obtain ⟨h₁, h₂, h₃, h₄⟩ := left_abandon (F.set p Entry.close) p q
  simp only [hsame, set_initproc] at h₁ h₂ h₃ h₄
  exact ⟨h₁, h₂, h₃, h₄⟩

theorem left_exit (F : Family) (hq : q ≠ p) : F.Left p (F.entry q) ((F.exit p).entry q) := by
  rw [exit, set_of_ne _ _ hq]
  exact left_close F p q

theorem exit_self (F : Family) (p : Slot) : ((F.exit p).entry p).state = .zombie ∧
    ((F.exit p).entry p).forking = (F.entry p).forking ∧
    ((F.exit p).entry p).parent =
      if (F.entry p).parent = some p then some F.initproc else (F.entry p).parent := by
  have h := left_close F p p
  rw [exit, set_self]
  generalize ((F.set p Entry.close).wakeup ((F.entry p).parent.map .proc)).abandon p = G at h ⊢
  exact ⟨rfl, h.forking, h.parent⟩

theorem exit_initproc (F : Family) (p : Slot) : (F.exit p).initproc = F.initproc := by
  simp only [exit, abandon, set_initproc]
  split_ifs <;> rfl

/-! ### Every event -/

theorem Tree.exit (h : F.Tree) (hp : (F.entry p).state = .running)
    (hf : (F.entry p).forking = none) (hi : p ≠ F.initproc) : (F.exit p).Tree := by
  obtain ⟨hz, hfk, hpar⟩ := exit_self F p
  have hfork : ∀ q, ((F.exit p).entry q).forking = (F.entry q).forking := fun q => by
    by_cases hq : q = p
    · subst hq; exact hfk
    · exact (left_exit F hq).forking
  have hparent : ∀ q, ((F.exit p).entry q).parent =
      if (F.entry q).parent = some p then some F.initproc else (F.entry q).parent := fun q => by
    by_cases hq : q = p
    · subst hq; exact hpar
    · exact (left_exit F hq).parent
  have hlive : ∀ q, q ≠ p → (((F.exit p).entry q).state.live ↔ (F.entry q).state.live) :=
    fun q hq => by
      rcases (left_exit F hq).state with hs | ⟨hs, hs'⟩
      · rw [hs]
      · rw [hs, hs']; simp [Procstate.live]
  have hstate : ∀ q s, s.live = false → s ≠ .zombie →
      ((F.exit p).entry q).state = s → (F.entry q).state = s := fun q s hs hne hq => by
    by_cases hqp : q = p
    · subst hqp; rw [hz] at hq; exact absurd hq.symm hne
    · rcases (left_exit F hqp).state with he | ⟨-, he⟩
      · exact he ▸ hq
      · rw [he] at hq; subst hq; cases hs
  have hcall : ∀ r f, (F.entry r).forking = some f → r ≠ p := fun r f hr he => by
    rw [he, hf] at hr; cases hr
  refine ⟨?_, fun q hq => ?_, fun q hq => ?_, fun r f hr => ?_, fun r f hr => ?_, fun r np hr => ?_,
    fun r np hr => ?_, fun q hq => ?_⟩
  · rw [exit_initproc]
    exact (hlive _ (Ne.symm hi)).2 h.init
  · rw [hparent, h.unused q (hstate q _ rfl (by simp) hq), if_neg (by simp)]
  · rw [hparent]
    rcases h.embryo q (hstate q _ rfl (by simp) hq) with hn | ⟨r, hr, hr'⟩
    · exact .inl (by rw [hn, if_neg (by simp)])
    · refine .inr ⟨r, ?_, (hfork r).trans hr'⟩
      rw [hr, if_neg (by simpa using hcall r _ hr')]
  · rw [hfork] at hr
    exact (hlive r (hcall r f hr)).2 (h.caller r f hr)
  · rw [hfork] at hr
    have hch := h.child r f hr
    have hne : f.child ≠ p := fun he => by rw [he, hp] at hch; cases hch
    rcases (left_exit F hne).state with he | ⟨he, -⟩
    · exact he.trans hch
    · rw [hch] at he; cases he
  · rw [hfork] at hr
    rw [hparent, h.early r np hr, if_neg (by simp)]
  · rw [hfork] at hr
    rw [hparent, h.copied r np hr, if_neg (by simpa using hcall r _ hr)]
  · have hold : F.Descends q := by
      refine h.descends q ?_
      by_cases hqp : q = p
      · subst hqp; rw [hp]; exact .inl rfl
      · rcases (left_exit F hqp).state with he | ⟨he, -⟩
        · rwa [he] at hq
        · rw [he]; exact .inl rfl
    -- the children of `p` are now those of init
    clear hq
    induction hold with
    | init => exact exit_initproc F p ▸ .init
    | @child r q hqr hr _ ih =>
      by_cases hrp : r = p
      · subst hrp
        refine .child (p := F.initproc) (by rw [hparent, hqr, if_pos rfl]) ?_ ?_
        · exact (hlive _ (Ne.symm hi)).2 h.init
        · exact exit_initproc F r ▸ .init
      · refine .child (p := r) ?_ ((hlive r hrp).2 hr) ih
        rw [hparent, hqr, if_neg (by simpa using hrp)]

/-- The slot `np`, that of the child of a `fork` call of `p` or of a zombie, is taken,
    prepared, freed or started. -/
theorem Tree.of_child (h : F.Tree) (np p : Slot) (hi : F'.initproc = F.initproc)
    (hnp : (F.entry np).state.live = false) (hp : (F.entry p).state.live)
    (hpar : ∀ q, q ≠ np → (F'.entry q).parent = (F.entry q).parent)
    (hst : ∀ q, q ≠ np → (F'.entry q).state = (F.entry q).state)
    (hfk : ∀ q, q ≠ p → (F'.entry q).forking = (F.entry q).forking)
    (hmine : ∀ f, (F.entry p).forking = some f → f.child = np)
    (hother : ∀ q f, q ≠ p → (F.entry q).forking = some f → f.child ≠ np)
    (hcall : ∀ f, (F'.entry p).forking = some f → f.child = np ∧ (F'.entry np).state = .embryo ∧
      (F'.entry np).parent = if f = .copied np then some p else none)
    (hunused : (F'.entry np).state = .unused → (F'.entry np).parent = none)
    (hembryo : (F'.entry np).state = .embryo → (F'.entry p).forking ≠ none)
    (hlive : (F'.entry np).state.live ∨ (F'.entry np).state = .zombie →
      (F'.entry np).parent = some p) : F'.Tree := by
  have hne : ∀ {q}, (F.entry q).state.live → q ≠ np := fun hq he => by
    rw [he, hnp] at hq; cases hq
  have hlive' : ∀ {q}, (F.entry q).state.live → (F'.entry q).state.live := fun hq => by
    rw [hst _ (hne hq)]; exact hq
  -- nobody descends from `np`, which was not alive
  have hdesc : ∀ q, q ≠ np → F.Descends q → F'.Descends q := fun q hq hd =>
    hd.mono (P := (· ≠ np)) hi (fun q r hq hr hlr => ⟨hne hlr, (hpar q hq).trans hr, hlive' hlr⟩) hq
  refine ⟨?_, fun q hq => ?_, fun q hq => ?_, fun r f hr => ?_, fun r f hr => ?_, fun r s hr => ?_,
    fun r s hr => ?_, fun q hq => ?_⟩
  · rw [hi]; exact hlive' h.init
  · by_cases hqn : q = np
    · subst hqn; exact hunused hq
    · rw [hpar q hqn]; exact h.unused q (hst q hqn ▸ hq)
  · by_cases hqn : q = np
    · subst hqn
      obtain ⟨f, hf⟩ := Option.ne_none_iff_exists'.1 (hembryo hq)
      obtain ⟨-, -, hpf⟩ := hcall f hf
      split_ifs at hpf with hc
      · exact .inr ⟨p, hpf, hc ▸ hf⟩
      · exact .inl hpf
    · rw [hpar q hqn]
      rcases h.embryo q (hst q hqn ▸ hq) with hn | ⟨r, hr, hrf⟩
      · exact .inl hn
      · have hrp : r ≠ p := by rintro rfl; exact hqn (hmine _ hrf)
        exact .inr ⟨r, hr, (hfk r hrp).trans hrf⟩
  · by_cases hrp : r = p
    · subst hrp; exact hlive' hp
    · exact hlive' (h.caller r f (hfk r hrp ▸ hr))
  · by_cases hrp : r = p
    · subst hrp
      obtain ⟨hc, he, -⟩ := hcall f hr
      rw [hc, he]
    · rw [hfk r hrp] at hr
      rw [hst _ (hother r f hrp hr)]
      exact h.child r f hr
  · by_cases hrp : r = p
    · subst hrp
      rcases hr with hr | hr
      · obtain ⟨hc, -, hpf⟩ := hcall _ hr
        obtain rfl : s = np := hc
        exact hpf
      · obtain ⟨hc, -, hpf⟩ := hcall _ hr
        obtain rfl : s = np := hc
        exact hpf
    · rw [hfk r hrp] at hr
      have hs : s ≠ np := by
        rcases hr with hr | hr <;> exact hother r _ hrp hr
      rw [hpar s hs]
      exact h.early r s hr
  · by_cases hrp : r = p
    · subst hrp
      obtain ⟨hc, -, hpf⟩ := hcall _ hr
      obtain rfl : s = np := hc
      rw [hpf, if_pos rfl]
    · rw [hfk r hrp] at hr
      have hs : s ≠ np := hother r _ hrp hr
      rw [hpar s hs]
      exact h.copied r s hr
  · by_cases hqn : q = np
    · subst hqn
      exact .child (hlive hq) (hlive' hp) (hdesc p (hne hp) (h.descends p (.inl hp)))
    · rw [hst q hqn] at hq
      exact hdesc q hqn (h.descends q hq)

/-- The same, as two changes of entries. -/
theorem Tree.set_set (h : F.Tree) {f : Forking} {f' : Option Forking} (hf : F.Forks p f)
    {g : Entry → Entry} (hfk : (g (F.entry f.child)).forking = (F.entry f.child).forking)
    (hcall : ∀ f₁, f' = some f₁ → f₁.child = f.child ∧ (g (F.entry f.child)).state = .embryo ∧
      (g (F.entry f.child)).parent = if f₁ = .copied f.child then some p else none)
    (hunused : (g (F.entry f.child)).state = .unused → (g (F.entry f.child)).parent = none)
    (hembryo : (g (F.entry f.child)).state = .embryo → f' ≠ none)
    (hlive : (g (F.entry f.child)).state.live ∨ (g (F.entry f.child)).state = .zombie →
      (g (F.entry f.child)).parent = some p) :
    ((F.set f.child g).set p fun x => { x with forking := f' }).Tree := by
  have hne := hf.child_ne
  have hnp : ((F.set f.child g).set p fun x => { x with forking := f' }).entry f.child =
      g (F.entry f.child) := by rw [set_of_ne _ _ hne, set_self]
  have hp : ((F.set f.child g).set p fun x => { x with forking := f' }).entry p =
      { F.entry p with forking := f' } := by rw [set_self, set_of_ne _ _ (Ne.symm hne)]
  refine h.of_child f.child p rfl (by rw [hf.child]; rfl) (by rw [hf.running]; rfl)
    (fun q hq => ?_) (fun q hq => ?_) (fun q hq => ?_) (fun f₁ h₁ => ?_) (fun q f₁ hq h₁ he => ?_)
    ?_ ?_ ?_ ?_
  · rw [apply_set Entry.parent (by intro; rfl), set_of_ne _ _ hq]
  · rw [apply_set Entry.state (by intro; rfl), set_of_ne _ _ hq]
  · rw [set_of_ne _ _ hq]
    by_cases hqc : q = f.child
    · subst hqc; rw [set_self, hfk]
    · rw [set_of_ne _ _ hqc]
  · rw [hf.forking] at h₁; rw [Option.some.inj h₁]
  · exact hq (hf.unique q f₁ h₁ he)
  · rw [hnp, hp]; exact hcall
  · rw [hnp]; exact hunused
  · rw [hnp, hp]; exact hembryo
  · rw [hnp]; exact hlive

/-- Every event keeps the tree. -/
theorem Tree.step (h : F.Tree) (hs : F.Step e F') : F'.Tree := by
  cases hs with
  | keep => exact h
  | move hp hs =>
    exact h.soft (.set rfl rfl (.inr ⟨hp, by rcases hs with rfl | rfl <;> rfl⟩))
  | sleep hp => exact h.soft (.set rfl rfl (.inr ⟨by rw [hp]; rfl, rfl⟩))
  | wait hp => exact h.soft (.set rfl rfl (.inr ⟨by rw [hp]; rfl, rfl⟩))
  | wakeup => exact h.soft (.wakeup F _)
  | @alloc p np hp hf hnp =>
    have hne : np ≠ p := fun he => by rw [he, hp] at hnp; cases hnp
    have hpar := h.unused np hnp
    refine h.of_child np p rfl (by rw [hnp]; rfl) (by rw [hp]; rfl)
      (fun q hq => ?_) (fun q hq => ?_) (fun q hq => ?_) (fun f₁ h₁ => ?_) (fun q f₁ _ h₁ he => ?_)
      ?_ ?_ ?_ ?_
    · rw [bump_entry, apply_set Entry.parent (by intro; rfl), set_of_ne _ _ hq]
    · rw [bump_entry, apply_set Entry.state (by intro; rfl), set_of_ne _ _ hq]
    · rw [bump_entry, set_of_ne _ _ hq, apply_set Entry.forking (by intro; rfl)]
    · rw [hf] at h₁; cases h₁
    · have := h.child q f₁ h₁
      rw [he, hnp] at this
      cases this
    all_goals rw [bump_entry, set_of_ne _ _ hne]
    all_goals simp [hpar, Forking.child, Procstate.live]
  | init _ hf =>
    have hpar := h.early _ _ (.inl hf.forking)
    refine h.set_set hf rfl (fun f₁ h₁ => ?_) (fun _ => hpar) (by simp) ?_
    · obtain rfl := Option.some.inj h₁
      exact ⟨rfl, hf.child, hpar⟩
    · rintro (hl | hl) <;> simp [hf.child, Procstate.live] at hl
  | @drop p np hf =>
    have hdrop : ∀ {f : Forking}, F.Forks p f → (F.entry f.child).parent = none → Tree
        ((F.set f.child fun x => { x with kstack := none, state := .unused }).set p
          fun x => { x with forking := none }) := fun hf hpar =>
      h.set_set hf rfl (by simp) (fun _ => hpar) (by simp) (by rintro (hl | hl) <;> cases hl)
    rcases hf with hf | hf
    · exact hdrop hf (h.early _ _ (.inl hf.forking))
    · exact hdrop hf (h.early _ _ (.inr hf.forking))
  | copy hf =>
    refine h.set_set hf rfl (fun f₁ h₁ => ?_) ?_ (by simp) ?_
    · obtain rfl := Option.some.inj h₁
      exact ⟨rfl, hf.child, (if_pos rfl).symm⟩
    · intro hu; rw [hf.child] at hu; cases hu
    · rintro (hl | hl) <;> simp [hf.child, Procstate.live] at hl
  | start hf =>
    refine h.set_set hf rfl (by simp) (by simp) (by simp) fun _ => ?_
    exact h.copied _ _ hf.forking
  | exit hp hf hi => exact h.exit hp hf hi
  | @reap p q hp hf hq hz =>
    refine h.of_child q p rfl (by rw [hz]; rfl) (by rw [hp]; rfl)
      (fun r hr => by rw [set_of_ne _ _ hr]) (fun r hr => by rw [set_of_ne _ _ hr])
      (fun r _ => apply_set Entry.forking (by intro; rfl) F q r) (fun f h₁ => ?_)
      (fun r f _ h₁ he => ?_) (fun f h₁ => ?_) ?_ ?_ ?_
    · rw [hf] at h₁; cases h₁
    · have := h.child r f h₁
      rw [he, hz] at this
      cases this
    · rw [apply_set Entry.forking (by intro; rfl), hf] at h₁; cases h₁
    all_goals rw [set_self]
    all_goals simp [Entry.reap, Procstate.live]
  | kill q =>
    refine h.soft (.set rfl rfl ?_)
    by_cases hs : (F.entry q).state = .sleeping
    · exact .inr ⟨by rw [hs]; rfl, by simp [Entry.kill, hs, Procstate.live]⟩
    · exact .inl (if_neg hs)
  | fault => exact h.soft (.set rfl rfl (.inl rfl))
  | files => exact h.soft (.set rfl rfl (.inl rfl))

/-- The children of those asleep in `wait` are the same, and no more zombies. -/
theorem Waits.of_kids (h : F.Waits)
    (hs : ∀ r, (F'.entry r).state = .sleeping → (F'.entry r).chan = some (.proc r) →
      (F.entry r).state = .sleeping ∧ (F.entry r).chan = some (.proc r) ∧
      ∀ q, ((F'.entry q).parent = some r ↔ (F.entry q).parent = some r) ∧
        ((F.entry q).parent = some r → (F'.entry q).state = .zombie →
          (F.entry q).state = .zombie)) : F'.Waits := by
  intro r hr hc
  obtain ⟨hr, hc, hkids⟩ := hs r hr hc
  obtain ⟨⟨q, hq⟩, hz⟩ := h r hr hc
  refine ⟨⟨q, (hkids q).1.2 hq⟩, fun q hq hqz => ?_⟩
  have hq := (hkids q).1.1 hq
  exact hz q hq ((hkids q).2 hq hqz)

/-- One entry changes, not the parent in it, to that of a process which does not
    sleep in `wait` and is no zombie. -/
theorem Waits.set (h : F.Waits) {f : Entry → Entry}
    (hpar : (f (F.entry p)).parent = (F.entry p).parent)
    (hsl : (f (F.entry p)).state = .sleeping → (f (F.entry p)).chan = some (.proc p) →
      (F.entry p).state = .sleeping ∧ (F.entry p).chan = some (.proc p))
    (hz : (f (F.entry p)).state = .zombie → (F.entry p).state = .zombie) : (F.set p f).Waits := by
  refine h.of_kids fun r hr hc => ?_
  have hr' : (F.entry r).state = .sleeping ∧ (F.entry r).chan = some (.proc r) := by
    by_cases hrp : r = p
    · subst hrp; rw [set_self] at hr hc; exact hsl hr hc
    · rw [set_of_ne _ _ hrp] at hr hc; exact ⟨hr, hc⟩
  refine ⟨hr'.1, hr'.2, fun q => ?_⟩
  by_cases hqp : q = p
  · subst hqp
    rw [set_self, hpar]
    exact ⟨Iff.rfl, fun _ => hz⟩
  · rw [set_of_ne _ _ hqp]
    exact ⟨Iff.rfl, fun _ => id⟩

/-- The progress of a `fork` call is not seen. -/
theorem Waits.setForking (h : F.Waits) (f : Option Forking) :
    (F.set p fun x => { x with forking := f }).Waits :=
  h.set rfl (fun hr hc => ⟨hr, hc⟩) id

theorem Waits.wakeup (h : F.Waits) (chan : Option Chan) : (F.wakeup chan).Waits := by
  have hsoft := Soft.wakeup F chan
  refine h.of_kids fun r hr hc => ?_
  rcases wakeup_cases (F.entry r) chan with ⟨he, -⟩ | ⟨-, he⟩ <;>
    simp only [Family.wakeup, he] at hr hc
  · refine ⟨hr, hc, fun q => ⟨by rw [hsoft.parent], fun _ => (hsoft.state_iff rfl q).1⟩⟩
  · cases hr

theorem Waits.exit (h : F.Waits) (ht : F.Tree) (hp : (F.entry p).state = .running)
    (hi : p ≠ F.initproc) : (F.exit p).Waits := by
  have hself : (F.entry p).parent ≠ some p :=
    (ht.descends p (.inl (by rw [hp]; rfl))).parent_ne hi
  obtain ⟨hz, -, hpar⟩ := exit_self F p
  rw [if_neg hself] at hpar
  intro r hr hc
  have hrp : r ≠ p := by rintro rfl; rw [hz] at hr; cases hr
  have hl := left_exit F hrp
  obtain ⟨hch, hparent, hzombie⟩ := hl.sleeping hr
  have hsl : (F.entry r).state = .sleeping := by
    rcases hl.state with hs | ⟨hs, -⟩
    · exact hs ▸ hr
    · exact hs
  obtain ⟨⟨q, hq⟩, hnz⟩ := h r hsl (hch ▸ hc)
  rw [hch] at hc
  rw [hc] at hparent hzombie
  refine ⟨⟨q, ?_⟩, fun q hq hqz => ?_⟩
  · by_cases hqp : q = p
    · subst hqp; rw [hpar]; exact hq
    · rw [(left_exit F hqp).parent, hq, if_neg (by simpa using hrp)]
  · by_cases hqp : q = p
    · -- `p` has woken up its parent
      subst hqp
      rw [hpar] at hq
      rw [hq] at hparent
      exact hparent rfl
    · have hlq := left_exit F hqp
      have hqz : (F.entry q).state = .zombie := by
        rcases hlq.state with hs | ⟨-, hs⟩
        · exact hs ▸ hqz
        · rw [hs] at hqz; cases hqz
      rw [hlq.parent] at hq
      split_ifs at hq with hqp'
      · -- `q` is passed to init, which is then awake
        obtain rfl := Option.some.inj hq
        exact hzombie ⟨q, hqp', hqz⟩ rfl
      · exact hnz q hq hqz

/-- Every event keeps what the sleepers in `wait` wait for. -/
theorem Waits.step (h : F.Waits) (ht : F.Tree) (hs : F.Step e F') : F'.Waits := by
  cases hs with
  | keep => exact h
  | move _ hs =>
    refine h.set rfl (fun hr => ?_) fun hz => ?_ <;> rcases hs with rfl | rfl
    · cases hr
    · cases hr
    · cases hz
    · cases hz
  | @sleep _ chan _ _ hchan =>
    refine h.set rfl (fun _ hc => ?_) (by simp)
    obtain rfl := Option.some.inj hc
    cases hchan
  | @wait p hp hf hkids hz =>
    -- `wait` has just seen that no child is a zombie
    have hsame : ∀ q,
      ((F.set p fun x => { x with state := .sleeping, chan := some (.proc p) }).entry
        q).parent = (F.entry q).parent := apply_set Entry.parent (by intro; rfl) F p
    intro r hr hc
    by_cases hrp : r = p
    · subst hrp
      simp only [hsame]
      refine ⟨hkids, fun q hq hqz => ?_⟩
      by_cases hqr : q = r
      · subst hqr; rw [set_self] at hqz; cases hqz
      · rw [set_of_ne _ _ hqr] at hqz; exact hz q hq hqz
    · rw [set_of_ne _ _ hrp] at hr hc
      simp only [hsame]
      refine ⟨(h r hr hc).1, fun q hq hqz => ?_⟩
      by_cases hqp : q = p
      · subst hqp; rw [set_self] at hqz; cases hqz
      · rw [set_of_ne _ _ hqp] at hqz; exact (h r hr hc).2 q hq hqz
  | wakeup => exact h.wakeup _
  | @alloc p np hp hf hnp =>
    have h₁ : (F.set np fun x => { x with state := .embryo, pid := F.nextpid }).Waits :=
      h.set rfl (by simp) (by simp)
    exact h₁.setForking _
  | init _ hf =>
    exact (h.set rfl (fun hr hc => ⟨hr, hc⟩) id).setForking _
  | drop hf => exact (h.set rfl (by simp) (by simp)).setForking _
  | @copy p np hf =>
    have hnone : (F.entry np).parent = none := ht.early p np (.inr hf.forking)
    refine Waits.setForking (h.of_kids fun r hr hc => ?_) _
    have hrn : r ≠ np := by
      rintro rfl; rw [set_self, show (F.entry r).state = .embryo from hf.child] at hr; cases hr
    rw [set_of_ne _ _ hrn] at hr hc
    have hpr : p ≠ r := by rintro rfl; rw [hf.running] at hr; cases hr
    refine ⟨hr, hc, fun q => ?_⟩
    by_cases hqn : q = np
    · subst hqn
      rw [set_self, hnone]
      simp [hpr]
    · rw [set_of_ne _ _ hqn]
      exact ⟨Iff.rfl, fun _ => id⟩
  | start hf => exact (h.set rfl (by simp) (by simp)).setForking _
  | exit hp hf hi => exact h.exit ht hp hi
  | @reap p q hp hf hq hz =>
    refine h.of_kids fun r hr hc => ?_
    have hrq : r ≠ q := by rintro rfl; rw [set_self] at hr; cases hr
    rw [set_of_ne _ _ hrq] at hr hc
    have hpr : p ≠ r := by rintro rfl; rw [hp] at hr; cases hr
    refine ⟨hr, hc, fun s => ?_⟩
    by_cases hsq : s = q
    · subst hsq
      rw [set_self, hq]
      simp [Entry.reap, hpr]
    · rw [set_of_ne _ _ hsq]
      exact ⟨Iff.rfl, fun _ => id⟩
  | kill q =>
    refine h.set rfl (by simp [Entry.kill]) fun hz => ?_
    by_cases hs : (F.entry q).state = .sleeping
    · simp [Entry.kill, hs] at hz
    · simpa [Entry.kill, hs] using hz
  | fault => exact h.set rfl (fun hr hc => ⟨hr, hc⟩) id
  | files => exact h.set rfl (fun hr hc => ⟨hr, hc⟩) id

end Family

/-! ## Reachable states -/

/-- The `k`-th ancestor of `q`. -/
def ancestor (t : Ptable) : ℕ → Slot → Option Slot
  | 0, q => some q
  | k + 1, q => (t q).parent.bind (ancestor t k)

namespace Machine

open TransitionSystem

variable {n : ℕ} {m : Machine n} {p q : Slot}

theorem exists_ancestor (h : m.family.Descends q) :
    ∃ k, ancestor m.ptable k q = some m.initproc := by
  induction h with
  | init => exact ⟨0, rfl⟩
  | child hpar _ _ ih =>
    obtain ⟨k, hk⟩ := ih
    exact ⟨k + 1, (congrArg (Option.bind · _) hpar).trans hk⟩

theorem family_boot (kstack pgdir root : ℕ) (q : Slot) :
    (boot n kstack pgdir root).family.entry q = if q = 0 then
      { state := .runnable, pid := 1, kstack := some kstack, cwd := some root } else {} := by
  simp only [boot, family, Kernel.family, userinit_ptable]
  split_ifs <;> rfl

theorem tree_boot (kstack pgdir root : ℕ) : (boot n kstack pgdir root).family.Tree := by
  have hpar : ∀ q, ((boot n kstack pgdir root).family.entry q).parent = none := fun q => by
    rw [family_boot]; split_ifs <;> rfl
  have hfk : ∀ q, ((boot n kstack pgdir root).family.entry q).forking = none := fun q => by
    rw [family_boot]; split_ifs <;> rfl
  have hinit : (boot n kstack pgdir root).family.initproc = 0 := by
    have : findUnused (fun _ => {}) = some 0 := by decide
    simp [boot, family, Kernel.family, userinit, Xv6.allocproc, this]
  refine ⟨?_, fun q _ => hpar q, fun q _ => .inl (hpar q), ?_, ?_, ?_, ?_, fun q hq => ?_⟩
  · rw [hinit, family_boot, if_pos rfl]; rfl
  · intro p f hf; rw [hfk] at hf; cases hf
  · intro p f hf; rw [hfk] at hf; cases hf
  · intro p np hf; rw [hfk] at hf; rcases hf with hf | hf <;> cases hf
  · intro p np hf; rw [hfk] at hf; cases hf
  · rw [family_boot] at hq
    split_ifs at hq with h0
    · subst h0; exact hinit ▸ .init
    · rcases hq with hq | hq <;> cases hq

theorem waits_boot (kstack pgdir root : ℕ) : (boot n kstack pgdir root).family.Waits := by
  intro p hp
  rw [family_boot] at hp
  split_ifs at hp

/-- The tree and what the sleepers wait for, in every reachable state. -/
theorem tree_of_reachable {ok : Machine n → Fin n × Act → Prop}
    (hm : (machine n).Reachable ok m) : m.family.Tree ∧ m.family.Waits := by
  have h := hm.invariant (I := fun m => m.Inv ∧ m.family.Tree ∧ m.family.Waits) ?_ ?_
  · exact h.2
  · rintro m ⟨kstack, pgdir, root, rfl⟩
    exact ⟨inv_boot _ _ _, tree_boot _ _ _, waits_boot _ _ _⟩
  · rintro m ⟨c, a⟩ m' ⟨hinv, ht, hw⟩ - hs
    obtain ⟨e, he⟩ := exists_acts hinv (moves_of_step hs)
    exact ⟨inv_of_step hinv hs, ht.step he.step, hw.step ht he.step⟩

/-- When `ptable.lock` is free, a process asleep in `wait` or `waitx` has a child,
    and no zombie child: no wakeup was lost. -/
theorem wait_not_lost (hm : (machine n).Reachable Any m) (_ : m.lock = none)
    (hs : (m.ptable p).state = .sleeping) (hc : (m.ptable p).chan = some (.proc p)) :
    (∃ q, (m.ptable q).parent = some p) ∧
      ∀ q, (m.ptable q).parent = some p → (m.ptable q).state ≠ .zombie :=
  (tree_of_reachable hm).2 p hs ((if_pos hs).trans hc)

/-- The first process forks and waits for its child, which runs. -/
def forkAndWait : List Act :=
  [.schedule, .scan, .resume] ++ forkActs ++ [.wait, .scan, .resume]

/-- The parent of a child sleeps in `wait`. -/
theorem wait_not_lost_forkAndWait : ∃ m : Machine 1, (machine 1).Reachable Any m ∧
    m.lock = none ∧ (m.ptable 0).state = .sleeping ∧ (m.ptable 0).chan = some (.proc 0) ∧
    (∃ q, (m.ptable q).parent = some 0) ∧
      ∀ q, (m.ptable q).parent = some 0 → (m.ptable q).state ≠ .zombie := by
  obtain ⟨m, hm, hP⟩ := exists_reachable (S := machine 1) ⟨0, 0, 0, rfl⟩
    (show (exec _ Any _ (forkAndWait.map (0, ·))).any (fun m => decide (m.lock = none ∧
      (m.ptable 0).state = .sleeping ∧ (m.ptable 0).chan = some (.proc 0))) by decide +kernel)
  obtain ⟨hl, hs, hc⟩ := of_decide_eq_true hP
  exact ⟨m, hm, hl, hs, hc, wait_not_lost hm hl hs hc⟩

/-- When `ptable.lock` is free, every process but init has a parent that is alive,
    its ancestors lead to init, and a free slot has no parent. -/
theorem process_tree (hm : (machine n).Reachable Any m) (_ : m.lock = none) :
    (∀ q, (m.ptable q).state ∈ [.runnable, .running, .sleeping, .zombie] → q ≠ m.initproc →
      ∃ p, (m.ptable q).parent = some p ∧
        (m.ptable p).state ∉ [.unused, .embryo, .zombie]) ∧
    (∀ q, (m.ptable q).state ∈ [.runnable, .running, .sleeping, .zombie] →
      ∃ k, ancestor m.ptable k q = some m.initproc) ∧
    ∀ q, (m.ptable q).state = .unused → (m.ptable q).parent = none := by
  obtain ⟨ht, -⟩ := tree_of_reachable hm
  have hdesc : ∀ q, (m.ptable q).state ∈ [.runnable, .running, .sleeping, .zombie] →
      m.family.Descends q := fun q hq => by
    refine ht.descends q ?_
    cases hs : (m.ptable q).state <;> simp [hs, Kernel.family, Procstate.live] at hq ⊢
  refine ⟨fun q hq hi => ?_, fun q hq => exists_ancestor (hdesc q hq), ht.unused⟩
  cases hdesc q hq with
  | init => exact absurd rfl hi
  | @child p _ hpar hlive _ =>
    refine ⟨p, hpar, fun hp => ?_⟩
    have hlive : (m.ptable p).state.live := hlive
    cases hs : (m.ptable p).state <;> simp [hs, Procstate.live] at hp hlive

theorem process_tree_forkAndWait : ∃ m : Machine 1, (machine 1).Reachable Any m ∧
    m.lock = none ∧ (m.ptable 1).state = .running ∧ (1 : Slot) ≠ m.initproc ∧
    (∃ p, (m.ptable 1).parent = some p ∧ (m.ptable p).state ∉ [.unused, .embryo, .zombie]) ∧
    ∃ k, ancestor m.ptable k 1 = some m.initproc := by
  obtain ⟨m, hm, hP⟩ := exists_reachable (S := machine 1) ⟨0, 0, 0, rfl⟩
    (show (exec _ Any _ (forkAndWait.map (0, ·))).any (fun m => decide (m.lock = none ∧
      (m.ptable 1).state = .running ∧ (1 : Slot) ≠ m.initproc)) by decide +kernel)
  obtain ⟨hl, hs, hi⟩ := of_decide_eq_true hP
  obtain ⟨hpar, hanc, -⟩ := process_tree hm hl
  exact ⟨m, hm, hl, hs, hi, hpar 1 (by simp [hs]) hi, hanc 1 (by simp [hs])⟩

end Machine

end Xv6
