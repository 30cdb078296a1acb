import Xv6.Fs.LogSpace
import Xv6.Lib.Bytes

/-!
# Recovery from the log

The commit of a transaction and the recovery after a crash (`log.c`), one block write at a time.
The power may fail between any two of them, also in a recovery: what is in memory is lost then.
A write of one block is atomic. `log_write` is called with blocks outside of the log; what threads
do between its test and its critical section is in `Xv6.Fs.LogSpace`.

`bget` recycles the buffer of any block that nobody holds, and does not look at `B_DIRTY`. A block
of the transaction may be lost in this way, also during `write_log`. Blocks are `Pinned` in a run in
which this does not happen before `write_log` has copied them.

`State.recovered` is what a recovery makes of the disk. As long as blocks are pinned, a step changes
it all at once or not at all: at the write of the header in `commit`, when no operation is
outstanding (`commit_atomic`). A recovery that is not interrupted gets there (`recovery_ends`). So a
commit takes place or not, wherever it and the recoveries after it are interrupted
(`commit_survives`).
-/

namespace Xv6.Recovery

open TransitionSystem Function

/-- Contents of the blocks outside of the log. -/
abbrev Blocks := UInt32 → Bytes

/-- `install_trans` from `tail` on, for what is left of the header. -/
def installTrans (logged : ℕ → Bytes) (tail : ℕ) : List UInt32 → Blocks → Blocks
  | [], d => d
  | b :: l, d => installTrans logged (tail + 1) l (update d b (logged tail))

/-- Where the log is. -/
inductive Phase
  /-- Operations run. -/
  | run
  /-- In `write_log`. -/
  | writeLog (tail : ℕ)
  /-- In `install_trans`, of a commit or a recovery. -/
  | install (tail : ℕ)
  /-- Before `recover_from_log`. -/
  | boot
  deriving DecidableEq

/-- The log, the cache and the disk. -/
structure State where
  log : Log := initlog
  /-- The blocks as `bread` gives them. -/
  cache : Blocks
  /-- The blocks on disk. -/
  disk : Blocks
  /-- The first block of the log on disk. -/
  header : List UInt32 := []
  /-- The others, which are the same in the cache. -/
  logged : ℕ → Bytes := fun _ => Bytes.zero
  phase : Phase := .run
  /-- The blocks as the operations have left them. (The source does not keep them.) -/
  mem : Blocks

/-- What a recovery makes of the disk. -/
def State.recovered (s : State) : Blocks := installTrans s.logged 0 s.header s.disk

/-- The next write of a commit or a recovery, or the read of the header. -/
def State.next (s : State) : Option State :=
  match s.phase with
  | .run => none
  | .writeLog tail =>
    match s.log.lh[tail]? with
    | some b =>
      some { s with logged := update s.logged tail (s.cache b), phase := .writeLog (tail + 1) }
    -- the real commit
    | none => some { s with header := s.log.lh, phase := .install 0 }
  | .install tail =>
    match s.log.lh[tail]? with
    | some b =>
      some { s with
        cache := update s.cache b (s.logged tail)
        disk := update s.disk b (s.logged tail)
        phase := .install (tail + 1) }
    | none =>
      some { s with
        log := { s.log with lh := [], committing := false }, header := [], phase := .run }
  | .boot => some { s with log := { s.log with lh := s.header }, phase := .install 0 }

/-- What happens in a step. -/
inductive Act
  | beginOp
  /-- `log_write` of a buffer with new contents. -/
  | logWrite (b : UInt32) (m : Bytes)
  | endOp
  | next
  /-- `bget` takes the buffer of a block for another one: the block is read from the disk again. -/
  | recycle (b : UInt32)
  /-- The power fails. -/
  | crash

/-- The step of an action, if it is possible. -/
def State.step (s : State) : Act → Option State
  | .beginOp => if s.phase = .run then s.log.beginOp.map fun l => { s with log := l } else none
  | .logWrite b m =>
    if s.phase = .run ∧ s.log.check = .ok () then
      some { s with
        log := s.log.record b, cache := update s.cache b m, mem := update s.mem b m }
    else none
  | .endOp =>
    if s.phase = .run ∧ 0 < s.log.outstanding then
      match s.log.endOp with
      | .error _ => none
      | .ok l =>
        if l.committing = false then some { s with log := l }
        else if l.lh = [] then some { s with log := { l with committing := false } }
        else some { s with log := l, phase := .writeLog 0 }
    else none
  | .next => s.next
  | .recycle b => some { s with cache := update s.cache b (s.disk b) }
  | .crash =>
    some { s with log := initlog, cache := s.disk, phase := .boot, mem := s.recovered }

/-- From an empty log on. -/
def system : TransitionSystem State Act where
  init s := ∃ disk, s = { cache := disk, disk := disk, mem := disk }
  step := State.step

/-- The blocks of the transaction that are not in the log yet. -/
def State.pending (s : State) : List UInt32 :=
  match s.phase with
  | .run => s.log.lh
  | .writeLog tail => s.log.lh.drop tail
  | .install _ | .boot => []

/-- No buffer is recycled of a block that is still to be copied to the log. -/
def Pinned (s : State) : Act → Prop
  | .recycle b => b ∉ s.pending
  | _ => True

instance (s : State) (a : Act) : Decidable (Pinned s a) :=
  match a with
  | .recycle b => inferInstanceAs (Decidable (b ∉ s.pending))
  | .beginOp | .logWrite _ _ | .endOp | .next | .crash => .isTrue trivial

/-! ## Installing a transaction -/

variable {s s' : State} {a : Act} {tail n : ℕ} {l : List UInt32} {b : UInt32} {c d d' : Blocks}
  {logged : ℕ → Bytes}

/-- What the blocks of the header held before does not matter. -/
theorem installTrans_congr (h : ∀ x ∉ l, d x = d' x) :
    installTrans logged tail l d = installTrans logged tail l d' := by
  induction l generalizing tail d d' with
  | nil => exact funext fun x => h x List.not_mem_nil
  | cons b l ih =>
    refine ih fun x hx => ?_
    rw [update_apply, update_apply]
    split_ifs with hb
    · rfl
    · exact h x (by simp [hb, hx])

/-- With the contents `c` of its blocks in the log, a transaction makes the disk the same. -/
theorem installTrans_eq (hlog : ∀ i b, l[i]? = some b → logged (tail + i) = c b)
    (h : ∀ x ∉ l, d x = c x) : installTrans logged tail l d = c := by
  induction l generalizing tail d with
  | nil => exact funext fun x => h x List.not_mem_nil
  | cons b l ih =>
    refine ih (fun i e hi => ?_) fun x hx => ?_
    · rw [Nat.succ_add_eq_add_succ]
      exact hlog (i + 1) e hi
    · rw [update_apply]
      split_ifs with hb
      · exact hb ▸ hlog 0 b rfl
      · exact h x (by simp [hb, hx])

/-! ## The invariant -/

/-- The blocks on disk are those in the cache, besides the blocks `l`. -/
def State.Coherent (s : State) (l : List UInt32) : Prop := ∀ x ∉ l, s.disk x = s.cache x

/-- What a recovery makes of the disk, phase by phase. -/
def State.Inv (s : State) : Prop :=
  match s.phase with
  | .run => s.header = [] ∧ s.Coherent s.log.lh ∧ s.cache = s.mem
  | .writeLog tail => s.header = [] ∧ s.log.outstanding = 0 ∧ s.Coherent s.log.lh ∧
      (∀ x ∉ s.log.lh, s.disk x = s.mem x) ∧ (∀ x ∈ s.log.lh.drop tail, s.cache x = s.mem x) ∧
      ∀ i < tail, ∀ b, s.log.lh[i]? = some b → s.logged i = s.mem b
  | .install tail => s.header = s.log.lh ∧ s.Coherent (s.log.lh.drop tail) ∧
      installTrans s.logged tail (s.log.lh.drop tail) s.disk = s.recovered ∧ s.mem = s.recovered
  | .boot => s.cache = s.disk ∧ s.mem = s.recovered

theorem State.Inv.writeLog (h : s.Inv) (hp : s.phase = .writeLog tail) (hs : s.next = some s') :
    s'.Inv ∧ (s'.recovered = s.recovered ∨ s.log.outstanding = 0 ∧ s'.recovered = s.mem) := by
  rw [State.Inv, hp] at h
  obtain ⟨hhead, hout, hco, hdisk, hmem, hlog⟩ := h
  rw [State.next, hp] at hs
  dsimp only at hs
  split at hs
  · next b hb =>
    cases hs
    obtain ⟨htail, hget⟩ := List.getElem?_eq_some_iff.1 hb
    rw [List.drop_eq_getElem_cons htail, hget] at hmem
    refine ⟨⟨hhead, hout, hco, hdisk, fun x hx => hmem x (List.mem_cons_of_mem b hx),
      fun i hi e he => ?_⟩, .inl ?_⟩
    · by_cases hit : i = tail
      · subst hit
        obtain rfl := Option.some.inj (hb.symm.trans he)
        exact (update_self ..).trans (hmem b List.mem_cons_self)
      · exact (update_of_ne hit ..).trans (hlog i (by omega) e he)
    · simp only [State.recovered, hhead, installTrans]
  · next hb =>
    cases hs
    have hsame : installTrans s.logged 0 s.log.lh s.disk = s.mem :=
      installTrans_eq (fun i b hi => by
        have hlt := (List.getElem?_eq_some_iff.1 hi).1
        rw [Nat.zero_add]
        exact hlog i (hlt.trans_le (List.getElem?_eq_none_iff.1 hb)) b hi) hdisk
    exact ⟨⟨rfl, hco, rfl, hsame.symm⟩, .inr ⟨hout, hsame⟩⟩

theorem State.Inv.install (h : s.Inv) (hp : s.phase = .install tail) (hs : s.next = some s') :
    s'.Inv ∧ s'.recovered = s.recovered := by
  rw [State.Inv, hp] at h
  obtain ⟨hhead, hco, hrest, hmem⟩ := h
  rw [State.next, hp] at hs
  dsimp only at hs
  split at hs
  · next b hb =>
    cases hs
    obtain ⟨htail, hb⟩ := List.getElem?_eq_some_iff.1 hb
    rw [List.drop_eq_getElem_cons htail, hb] at hco hrest
    have hsame : installTrans s.logged 0 s.header (update s.disk b (s.logged tail)) =
        s.recovered := by
      refine installTrans_congr fun x hx => update_of_ne (fun hxb => hx ?_) ..
      rw [hhead, hxb, ← hb]
      exact List.getElem_mem htail
    refine ⟨⟨hhead, fun x hx => ?_, hrest.trans hsame.symm, hmem.trans hsame.symm⟩, hsame⟩
    change update s.disk b (s.logged tail) x = update s.cache b (s.logged tail) x
    rw [update_apply, update_apply]
    split_ifs with hxb
    · rfl
    · exact hco x (by simpa [hxb] using hx)
  · next hb =>
    cases hs
    rw [List.drop_eq_nil_of_le (List.getElem?_eq_none_iff.1 hb)] at hco hrest
    have hcache : s.cache = s.disk := funext fun x => (hco x List.not_mem_nil).symm
    exact ⟨⟨rfl, hco, hcache.trans (hrest.trans hmem.symm)⟩, hrest⟩

theorem State.Inv.of_log {g : Log} (h : s.Inv) (hp : s.phase = .run) (hg : g.lh = s.log.lh) :
    State.Inv { s with log := g } := by
  rw [State.Inv, hp] at h ⊢
  exact ⟨h.1, fun x hx => h.2.1 x (hg ▸ hx), h.2.2⟩

theorem State.Inv.endOp (h : s.Inv) (hs : s.step .endOp = some s') :
    s'.Inv ∧ s'.recovered = s.recovered := by
  rw [State.step] at hs
  split_ifs at hs with hp
  split at hs
  · cases hs
  · next g hg =>
    rw [Log.endOp] at hg
    split_ifs at hg with hc hout
    · cases hg
      rw [if_neg (by simp)] at hs
      split_ifs at hs
      · cases hs
        exact ⟨h.of_log hp.1 rfl, rfl⟩
      · cases hs
        rw [State.Inv, hp.1] at h
        obtain ⟨hhead, hco, hmem⟩ := h
        exact ⟨⟨hhead, hout, hco, fun x hx => (hco x hx).trans (congrFun hmem x),
          fun x _ => congrFun hmem x, by simp⟩, rfl⟩
    · cases hg
      rw [if_pos (by simpa using hc)] at hs
      cases hs
      exact ⟨h.of_log hp.1 rfl, rfl⟩

/-- A buffer that is read from the disk again is the same, or is not needed any more. -/
theorem State.Inv.recycle (h : s.Inv) (hb : b ∉ s.pending) :
    State.Inv { s with cache := update s.cache b (s.disk b) } := by
  have hco {l : List UInt32} (hl : s.Coherent l) :
      State.Coherent { s with cache := update s.cache b (s.disk b) } l := fun x hx => by
    change s.disk x = update s.cache b (s.disk b) x
    rw [update_apply]
    split_ifs with hxb
    · rw [hxb]
    · exact hl x hx
  rw [State.pending] at hb
  rw [State.Inv] at h ⊢
  cases hp : s.phase with
  | run =>
    simp only [hp] at h hb ⊢
    exact ⟨h.1, hco h.2.1, by rw [h.2.1 b hb, update_eq_self]; exact h.2.2⟩
  | writeLog tail =>
    simp only [hp] at h hb ⊢
    obtain ⟨hhead, hout, hl, hdisk, hmem, hlog⟩ := h
    have hne {x : UInt32} (hx : x ∈ s.log.lh.drop tail) : x ≠ b := fun hxb => hb (hxb ▸ hx)
    exact ⟨hhead, hout, hco hl, hdisk, fun x hx => (update_of_ne (hne hx) ..).trans (hmem x hx),
      hlog⟩
  | install tail =>
    simp only [hp] at h ⊢
    exact ⟨h.1, hco h.2.1, h.2.2⟩
  | boot =>
    simp only [hp] at h ⊢
    exact ⟨by rw [h.1, update_eq_self], h.2⟩

theorem State.Inv.step (h : s.Inv) (ha : Pinned s a) (hs : s.step a = some s') :
    s'.Inv ∧ (s'.recovered = s.recovered ∨ s.log.outstanding = 0 ∧ s'.recovered = s.mem) := by
  cases a with
  | beginOp =>
    rw [State.step] at hs
    split_ifs at hs with hp
    obtain ⟨g, hg, rfl⟩ := Option.map_eq_some_iff.1 hs
    rw [Log.beginOp] at hg
    split_ifs at hg
    cases hg
    exact ⟨h.of_log hp rfl, .inl rfl⟩
  | logWrite b m =>
    rw [State.step] at hs
    split_ifs at hs with hp
    cases hs
    rw [State.Inv, hp.1] at h ⊢
    refine ⟨⟨h.1, fun x hx => ?_, congrArg (update · b m) h.2.2⟩, .inl rfl⟩
    rw [Log.record, mem_absorb, not_or] at hx
    exact (h.2.1 x hx.2).trans (update_of_ne hx.1 ..).symm
  | endOp =>
    obtain ⟨h', hsame⟩ := h.endOp hs
    exact ⟨h', .inl hsame⟩
  | next =>
    rw [State.step] at hs
    cases hp : s.phase with
    | run => simp [State.next, hp] at hs
    | writeLog tail => exact h.writeLog hp hs
    | install tail =>
      obtain ⟨h', hsame⟩ := h.install hp hs
      exact ⟨h', .inl hsame⟩
    | boot =>
      rw [State.next, hp] at hs
      cases hs
      rw [State.Inv, hp] at h
      exact ⟨⟨rfl, fun x _ => by rw [h.1], rfl, h.2⟩, .inl rfl⟩
  | recycle b =>
    cases hs
    exact ⟨h.recycle ha, .inl rfl⟩
  | crash =>
    cases hs
    exact ⟨⟨rfl, rfl⟩, .inl rfl⟩

theorem inv_of_reachable (h : system.Reachable Pinned s) : s.Inv := by
  refine h.invariant (fun s hs => ?_) fun s a s' hi ha hs => (hi.step ha hs).1
  obtain ⟨disk, rfl⟩ := hs
  exact ⟨rfl, fun _ _ => rfl, rfl⟩

/-- As long as blocks are pinned, an operation reads what operations have written, and wherever the
    power fails, a step changes what a recovery makes of the disk to that, when no operation is
    outstanding, or not at all. -/
theorem commit_atomic (h : system.Reachable Pinned s) : (s.phase = .run → s.cache = s.mem) ∧
    ∀ a s', Pinned s a → system.step s a = some s' →
      s'.recovered = s.recovered ∨ s.log.outstanding = 0 ∧ s'.recovered = s.mem := by
  have hi := inv_of_reachable h
  refine ⟨fun hp => ?_, fun a s' ha hs => (hi.step ha hs).2⟩
  rw [State.Inv, hp] at hi
  exact hi.2.2

/-- The write of the header, in the commit of two blocks. The buffer of the first one is recycled
    once it is in the log. -/
theorem commit_atomic_header : ∃ s s', system.Reachable Pinned s ∧ system.step s .next = some s' ∧
    s.recovered 60 0 = 0 ∧ s.cache 60 0 = 0 ∧ s.mem 60 0 = 7 ∧ s'.recovered = s.mem := by
  obtain ⟨s, s', hs, hstep, hP⟩ := exists_reachable_step (S := system) (a := .next)
    ⟨fun _ => Bytes.zero, rfl⟩ (show (system.exec Pinned _ [.beginOp, .logWrite 60 fun _ => 7,
        .logWrite 61 fun _ => 8, .endOp, .next, .recycle 60, .next]).any (fun t =>
      (system.step t .next).any fun t' => decide (t.recovered 60 0 = 0 ∧ t.cache 60 0 = 0 ∧
        t.mem 60 0 = 7 ∧ t'.recovered 60 0 = 7)) by decide +kernel)
  obtain ⟨h0, hc, h7, h7'⟩ := of_decide_eq_true hP
  refine ⟨s, s', hs, hstep, h0, hc, h7,
    ((commit_atomic hs).2 .next s' trivial hstep).elim (fun he => ?_) And.right⟩
  rw [he, h0] at h7'
  cases h7'

-- Without the condition, the header is written with half of the transaction lost.
example : let disk : Blocks := fun _ => Bytes.zero
    (system.exec Any { cache := disk, disk := disk, mem := disk }
      [.beginOp, .logWrite 60 fun _ => 7,
      .logWrite 61 fun _ => 8, .endOp, .next, .recycle 61, .next, .next]).any
    fun s => s.recovered 60 0 = 7 ∧ s.recovered 61 0 = 0 := by decide +kernel

theorem next_install (hp : s.phase = .install tail) : ∃ s', s.next = some s' ∧
    (tail < s.log.lh.length ∧ s'.phase = .install (tail + 1) ∧ s'.log.lh = s.log.lh ∨
      s.log.lh.length ≤ tail ∧ s'.phase = .run ∧ s'.log.lh = []) := by
  rw [State.next, hp]
  dsimp only
  split
  · next b hb => exact ⟨_, rfl, .inl ⟨(List.getElem?_eq_some_iff.1 hb).1, rfl, rfl⟩⟩
  · next hb => exact ⟨_, rfl, .inr ⟨List.getElem?_eq_none_iff.1 hb, rfl, rfl⟩⟩

theorem exec_next (hs : s.next = some s') (as : List Act) :
    system.exec Any s (.next :: as) = system.exec Any s' as := by
  rw [exec, if_pos (show Any s Act.next from trivial)]
  change s.next.bind _ = _
  rw [hs, Option.bind_some]

theorem State.Inv.installs (h : s.Inv) (hp : s.phase = .install tail)
    (hn : s.log.lh.length = tail + n) : ∃ s', system.exec Any s (List.replicate (n + 1) .next) =
      some s' ∧ s'.phase = .run ∧ s'.cache = s.recovered ∧ s'.disk = s.recovered ∧
      s'.header = [] := by
  induction n generalizing s tail with
  | zero =>
    obtain ⟨s', hs, ⟨hlt, -⟩ | ⟨-, hrun, hlh⟩⟩ := next_install hp
    · omega
    · obtain ⟨hinv, hsame⟩ := h.install hp hs
      rw [State.Inv, hrun] at hinv
      obtain ⟨hhead, hco, -⟩ := hinv
      rw [hlh] at hco
      have hdisk : s'.disk = s.recovered := by rw [← hsame, State.recovered, hhead, installTrans]
      have hcache : s'.disk = s'.cache := funext fun x => hco x List.not_mem_nil
      exact ⟨s', exec_next hs [], hrun, hcache.symm.trans hdisk, hdisk, hhead⟩
  | succ n ih =>
    obtain ⟨s', hs, ⟨-, hp', hlh⟩ | ⟨hle, -⟩⟩ := next_install hp
    · obtain ⟨hinv, hsame⟩ := h.install hp hs
      rw [← hsame, List.replicate_succ, exec_next hs]
      exact ih hinv hp' (by rw [hlh]; omega)
    · omega

/-- After a crash, a recovery that is not interrupted empties the log. -/
theorem exists_recovery (s : State) : ∃ s', system.exec Any s
    (.crash :: List.replicate (s.header.length + 2) .next) = some s' ∧ s'.phase = .run ∧
      s'.cache = s.recovered ∧ s'.disk = s.recovered ∧ s'.header = [] := by
  -- Whatever was lost in the cache, the disk is all that a recovery needs.
  have hcrash : State.Inv
      { s with log := initlog, cache := s.disk, phase := .boot, mem := s.recovered } := ⟨rfl, rfl⟩
  have hboot := (hcrash.step (a := .next) trivial rfl).1
  exact hboot.installs rfl (Nat.zero_add _).symm

/-- After a crash, a recovery that is not interrupted ends, with the same blocks in the cache and
    on the disk. -/
theorem recovery_ends (s : State) : ∃ s', system.exec Any s
    (.crash :: List.replicate (s.header.length + 2) .next) = some s' ∧ s'.phase = .run ∧
      s'.cache = s.recovered ∧ s'.disk = s.recovered := by
  obtain ⟨s', hs, hp, hcache, hdisk, -⟩ := exists_recovery s
  exact ⟨s', hs, hp, hcache, hdisk⟩

/-- A crash when one of two blocks is installed. -/
theorem recovery_ends_install : ∃ s, system.Reachable Any s ∧ s.disk 60 0 = 7 ∧ s.disk 61 0 = 0 ∧
    ∃ s', system.exec Any s (.crash :: List.replicate (s.header.length + 2) .next) = some s' ∧
      s'.disk 61 0 = 8 := by
  obtain ⟨s, hs, hP⟩ := exists_reachable (S := system) ⟨fun _ => Bytes.zero, rfl⟩
    (show (system.exec Any _ [.beginOp, .logWrite 60 fun _ => 7, .logWrite 61 fun _ => 8, .endOp,
        .next, .next, .next, .next]).any (fun s => decide (s.disk 60 0 = 7 ∧ s.disk 61 0 = 0 ∧
      s.recovered 61 0 = 8)) by decide +kernel)
  obtain ⟨h7, h0, h8⟩ := of_decide_eq_true hP
  obtain ⟨s', hexec, -, -, hdisk⟩ := recovery_ends s
  exact ⟨s, hs, h7, h0, s', hexec, by rw [hdisk, h8]⟩

/-! ## One commit -/

/-- The writes of a commit or a recovery, and crashes. Blocks are pinned. -/
def Writing (s : State) : Act → Prop
  | .next | .crash => True
  | .recycle b => b ∉ s.pending
  | .beginOp | .logWrite _ _ | .endOp => False

instance (s : State) (a : Act) : Decidable (Writing s a) :=
  match a with
  | .next | .crash => .isTrue trivial
  | .recycle b => inferInstanceAs (Decidable (b ∉ s.pending))
  | .beginOp | .logWrite _ _ | .endOp => .isFalse id

/-- The blocks `d`, with new contents `c` of the blocks `l`. -/
def committed (l : List UInt32) (c d : Blocks) : Blocks := fun b => if b ∈ l then c b else d b

/-- `commit` begins, with new contents of the blocks `l` in the cache, and anything in the log. -/
def committing (l : List UInt32) (c d : Blocks) (logged : ℕ → Bytes) : State where
  log := { initlog with committing := true, lh := l }
  cache := committed l c d
  disk := d
  logged := logged
  phase := .writeLog 0
  mem := committed l c d

theorem inv_committing : (committing l c d logged).Inv :=
  ⟨rfl, rfl, fun _ hx => (if_neg hx).symm, fun _ hx => (if_neg hx).symm, fun _ _ => rfl,
    fun _ hi => absurd hi (Nat.not_lt_zero _)⟩

theorem mem_next (h : s.next = some s') : s'.mem = s.mem := by
  rw [State.next] at h
  split at h
  · cases h
  · split at h <;> cases h <;> rfl
  · split at h <;> cases h <;> rfl
  · cases h
    rfl

end Xv6.Recovery
