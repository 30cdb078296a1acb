import Xv6.Pipe.Basic

/-!
# A pipe is a queue

The bytes that writers put into a pipe come out at its readers in the same order, none is lost and
none comes twice (`pipe_fifo`): what was consumed and what is in the buffer make up what was
accepted, whatever the interleaving of the calls and wherever the counters start.
-/

namespace Xv6.Pipes

open TransitionSystem Monitor Function

variable {s : State} {d d' : Data} {killed : Bool} {t : Pid} {k k' : Task} {l l' : Local} {id : ℕ}
  {b : UInt8} {x : List (ℕ × UInt8)}

/-- The bytes of a call. -/
def bytesOf (id : ℕ) (l : List (ℕ × UInt8)) : List UInt8 :=
  (l.filter fun x => x.1 = id).map Prod.snd

theorem bytesOf_append_self : bytesOf id (x ++ [(id, b)]) = bytesOf id x ++ [b] := by
  simp [bytesOf]

theorem bytesOf_append_of_ne {j : ℕ} (h : j ≠ id) : bytesOf id (x ++ [(j, b)]) = bytesOf id x := by
  simp [bytesOf, h]

theorem bytesOf_eq_nil (h : ∀ y ∈ x, y.1 < id) : bytesOf id x = [] := by
  rw [bytesOf, List.map_eq_nil_iff, List.filter_eq_nil_iff]
  intro y hy
  have := h y hy
  simp only [decide_eq_true_eq]
  omega

/-! ## The bytes of the calls -/

/-- The call that the process is in. -/
def Local.task : Local → Task
  | .loop k | .wait k | .wakeReaders k | .sleep k | .copy k | .wakeup k | .release k _ => k

/-- The number of the call. -/
def Task.id? : Task → Option ℕ
  | .write id .. | .read id .. => some id
  | .close _ => none

/-- The number of a `pipewrite` that has bytes left to store. -/
def Task.pending? : Task → Option ℕ
  | .write id _ (_ :: _) _ => some id
  | _ => none

/-- How far the call has got. -/
def Task.Done (accepted consumed : List (ℕ × UInt8)) : Task → Prop
  | .write id addr todo _ => addr = bytesOf id accepted ++ todo
  | .read id _ got => got = bytesOf id consumed
  | .close _ => True

theorem Task.id_of_pending (h : k.pending? = some id) : k.id? = some id := by
  cases k with
  | write i addr todo stored =>
    cases todo with
    | nil => cases h
    | cons b todo => exact h
  | read | close => cases h

/-- The calls in progress, and those of `pipewrite` that have stored all their bytes, have moved
    their own bytes. -/
structure Calls (tasks : Pid → Option Task) (accepted consumed : List (ℕ × UInt8)) (calls : ℕ)
    (wrote : List (ℕ × List UInt8)) : Prop where
  accepted_lt : ∀ x ∈ accepted, x.1 < calls
  consumed_lt : ∀ x ∈ consumed, x.1 < calls
  done : ∀ t k, tasks t = some k → k.Done accepted consumed
  id : ∀ t i, (tasks t).bind Task.id? = some i → i < calls
  unique : ∀ t u i, (tasks t).bind Task.id? = some i → (tasks u).bind Task.id? = some i → t = u
  wrote : ∀ x ∈ wrote, bytesOf x.1 accepted = x.2 ∧ x.1 < calls ∧
    ∀ t, (tasks t).bind Task.pending? ≠ some x.1

variable {tasks : Pid → Option Task} {a a' c c' : List (ℕ × UInt8)} {n m : ℕ}
  {w w' : List (ℕ × List UInt8)}

theorem Task.Done.of_bytes (h : k.Done a c) (ha : ∀ j, k.id? = some j → bytesOf j a' = bytesOf j a)
    (hc : ∀ j, k.id? = some j → bytesOf j c' = bytesOf j c) : k.Done a' c' := by
  cases k with
  | write id addr todo stored => rw [Task.Done, ha id rfl]; exact h
  | read id n got => rw [Task.Done, hc id rfl]; exact h
  | close writable => trivial

/-- A step of a call moves bytes of that call only. -/
theorem Calls.move (h : Calls tasks a c n w) (hk : tasks t = some k) (hid : k'.id? = k.id?)
    (hpend : ∀ i, k'.pending? = some i → k.pending? = some i) (hdone : k'.Done a' c')
    (ha : ∀ j, k.pending? ≠ some j → bytesOf j a' = bytesOf j a)
    (hc : ∀ j, k.id? ≠ some j → bytesOf j c' = bytesOf j c)
    (hlt : ∀ x ∈ a', x.1 < n) (hlt' : ∀ x ∈ c', x.1 < n) :
    Calls (update tasks t (some k')) a' c' n w := by
  have hids : ∀ u, (update tasks t (some k') u).bind Task.id? = (tasks u).bind Task.id? := by
    intro u
    by_cases hu : u = t
    · rw [hu, update_self, hk]; exact hid
    · rw [update_of_ne hu]
  refine ⟨hlt, hlt', fun u q hq => ?_, fun u i => hids u ▸ h.id u i,
    fun u v i => hids u ▸ hids v ▸ h.unique u v i, fun x hx => ?_⟩
  · by_cases hu : u = t
    · rw [hu, update_self] at hq
      exact Option.some.inj hq ▸ hdone
    · rw [update_of_ne hu] at hq
      have hb {j : ℕ} (hj : q.id? = some j) : k.id? ≠ some j := fun hkj =>
        hu (h.unique u t j (by rw [hq]; exact hj) (by rw [hk]; exact hkj))
      exact (h.done u q hq).of_bytes (fun j hj => ha j (hb hj ∘ Task.id_of_pending))
        fun j hj => hc j (hb hj)
  · obtain ⟨hw, hlt, hne⟩ := h.wrote x hx
    refine ⟨?_, hlt, fun u => ?_⟩
    · rw [ha x.1 (fun hkx => hne t (by rw [hk]; exact hkx)), hw]
    · by_cases hu : u = t
      · rw [hu, update_self]
        exact fun hp => hne t (by rw [hk]; exact hpend _ hp)
      · rw [update_of_ne hu]
        exact hne u

/-- A new call. -/
theorem Calls.call (h : Calls tasks a c n w) (hid : ∀ i, k.id? = some i → i = n)
    (hdone : bytesOf n a = [] → bytesOf n c = [] → k.Done a c)
    (hm : ∀ i, k.id? = some i → i < m) (hn : n ≤ m) : Calls (update tasks t (some k)) a c m w := by
  have hself : (update tasks t (some k) t).bind Task.id? = k.id? := by rw [update_self]; rfl
  have hnew : ∀ u i, (tasks u).bind Task.id? = some i → k.id? ≠ some i := fun u i hi hki => by
    have := h.id u i hi
    rw [hid i hki] at this
    omega
  refine ⟨fun x hx => (h.accepted_lt x hx).trans_le hn, fun x hx => (h.consumed_lt x hx).trans_le
    hn,
    fun u q hq => ?_, fun u i hi => ?_, fun u v i hu hv => ?_, fun x hx => ?_⟩
  · by_cases hu : u = t
    · rw [hu, update_self] at hq
      exact Option.some.inj hq ▸ hdone (bytesOf_eq_nil h.accepted_lt) (bytesOf_eq_nil h.consumed_lt)
    · rw [update_of_ne hu] at hq
      exact h.done u q hq
  · by_cases hu : u = t
    · rw [hu, hself] at hi
      exact hm i hi
    · rw [update_of_ne hu] at hi
      exact (h.id u i hi).trans_le hn
  · by_cases hut : u = t <;> by_cases hvt : v = t
    · rw [hut, hvt]
    · rw [hut, hself] at hu
      rw [update_of_ne hvt] at hv
      exact absurd hu (hnew v i hv)
    · rw [hvt, hself] at hv
      rw [update_of_ne hut] at hu
      exact absurd hv (hnew u i hu)
    · rw [update_of_ne hut] at hu
      rw [update_of_ne hvt] at hv
      exact h.unique u v i hu hv
  · obtain ⟨hw, hlt, hne⟩ := h.wrote x hx
    refine ⟨hw, hlt.trans_le hn, fun u => ?_⟩
    by_cases hu : u = t
    · rw [hu, update_self]
      exact fun hp => absurd (hid x.1 (Task.id_of_pending hp)) (by omega)
    · rw [update_of_ne hu]
      exact hne u

/-- The end of a call. -/
theorem Calls.return (h : Calls tasks a c n w) : Calls (update tasks t none) a c n w := by
  have hsome {β : Type} {f : Task → Option β} {u : Pid} {x : β}
      (hx : (update tasks t none u).bind f = some x) : (tasks u).bind f = some x := by
    by_cases hu : u = t
    · rw [hu, update_self] at hx
      cases hx
    · rwa [update_of_ne hu] at hx
  refine ⟨h.accepted_lt, h.consumed_lt, fun u q hq => h.done u q ?_, fun u i hi => h.id u i
    (hsome hi),
    fun u v i hu hv => h.unique u v i (hsome hu) (hsome hv), fun x hx => ?_⟩
  · simpa using hsome (f := some) (by simpa using hq)
  · obtain ⟨hb, hlt, hne⟩ := h.wrote x hx
    exact ⟨hb, hlt, fun u hu => hne u (hsome hu)⟩

/-- A `pipewrite` has stored its last byte. -/
theorem Calls.written {addr : List UInt8} {stored : Bool} (h : Calls tasks a c n w)
    (ht : tasks t = some (.write id addr [] stored)) : Calls tasks a c n (w ++ [(id, addr)]) := by
  refine ⟨h.accepted_lt, h.consumed_lt, h.done, h.id, h.unique, fun x hx => ?_⟩
  obtain hx | hx := List.mem_append.1 hx
  · exact h.wrote x hx
  · rw [List.mem_singleton.1 hx]
    have hid : (tasks t).bind Task.id? = some id := by rw [ht]; rfl
    refine ⟨?_, h.id t id hid, fun u hu => ?_⟩
    · have hdone : addr = bytesOf id a ++ [] := h.done t _ ht
      rw [List.append_nil] at hdone
      exact hdone.symm
    · obtain ⟨q, hq, hp⟩ := Option.bind_eq_some_iff.1 hu
      obtain rfl := h.unique u t id (by rw [hq]; exact Task.id_of_pending hp) hid
      obtain rfl := Option.some.inj (ht.symm.trans hq)
      cases hp

/-! ## The queue -/

theorem pipesize_lt : PIPESIZE < 2 ^ 32 := by decide

theorem pipesize_dvd : PIPESIZE ∣ 2 ^ 32 := by decide

/-- The pipe is a queue of bytes, and its calls move their own. -/
structure Fifo (d : Data) (tasks : Pid → Option Task) : Prop where
  length : d.pipe.length ≤ PIPESIZE
  queue : d.accepted.map Prod.snd = d.consumed.map Prod.snd ++ d.pipe.contents
  calls : Calls tasks d.accepted d.consumed d.calls d.wrote

theorem Fifo.call (h : Fifo d tasks) (c : Call) :
    Fifo (call d c).1 (update tasks t (some (call d c).2.task)) := by
  have hsome {i : ℕ} (hi : some d.calls = some i) : i = d.calls := (Option.some.inj hi).symm
  cases c with
  | write addr =>
    refine ⟨h.length, h.queue, h.calls.call (fun i => hsome) (fun ha _ => ?_) (fun i hi => ?_)
      (Nat.le_succ _)⟩
    · exact (congrArg (· ++ addr) ha).symm
    · exact hsome hi ▸ Nat.lt_succ_self _
  | read n =>
    refine ⟨h.length, h.queue, h.calls.call (fun i => hsome) (fun _ hc => hc.symm) (fun i hi => ?_)
      (Nat.le_succ _)⟩
    exact hsome hi ▸ Nat.lt_succ_self _
  | close writable =>
    exact ⟨h.length, h.queue, h.calls.call nofun (fun _ _ => trivial) nofun le_rfl⟩

theorem Fifo.store {addr todo : List UInt8} {stored : Bool} (h : Fifo d tasks)
    (ht : tasks t = some (.write id addr (b :: todo) stored))
    (hroom : d.pipe.nwrite ≠ d.pipe.nread + UInt32.ofNat PIPESIZE) :
    Fifo { d with
      pipe := { d.pipe with toRing := d.pipe.push b }, accepted := d.accepted ++ [(id, b)] }
      (update tasks t (some (.write id addr todo true))) := by
  have hlt : d.pipe.length < PIPESIZE := by
    refine lt_of_le_of_ne h.length fun he => hroom ?_
    exact (Ring.length_eq_iff pipesize_lt).1 he
  have hdone : addr = bytesOf id d.accepted ++ b :: todo := h.calls.done t _ ht
  refine ⟨(Ring.length_push hlt pipesize_lt).le.trans hlt, ?_, ?_⟩
  · rw [Ring.contents_push pipesize_dvd pipesize_lt hlt, List.map_append, h.queue,
      List.append_assoc]
    rfl
  · refine h.calls.move ht rfl (fun i hi => Task.id_of_pending hi) ?_ (fun j hj => ?_)
      (fun _ _ => rfl)
      (fun x hx => ?_) h.calls.consumed_lt
    · rw [Task.Done, bytesOf_append_self, List.append_assoc]
      exact hdone
    · exact bytesOf_append_of_ne fun he => hj (congrArg some he)
    · obtain hx | hx := List.mem_append.1 hx
      · exact h.calls.accepted_lt x hx
      · rw [List.mem_singleton.1 hx]
        exact h.calls.id t id (by rw [ht]; rfl)

theorem Fifo.consume {got : List UInt8} (h : Fifo d tasks) (ht : tasks t = some (.read id n got))
    (hne : d.pipe.nread ≠ d.pipe.nwrite) :
    Fifo { d with
      pipe := { d.pipe with toRing := d.pipe.pop.2 }
      consumed := d.consumed ++ [(id, d.pipe.pop.1)] }
      (update tasks t (some (.read id n (got ++ [d.pipe.pop.1])))) := by
  have hpos : d.pipe.length ≠ 0 := fun he => hne (Ring.length_eq_zero_iff.1 he)
  have hdone : got = bytesOf id d.consumed := h.calls.done t _ ht
  have hlen := Ring.length_pop hpos
  refine ⟨?_, ?_, ?_⟩
  · have := h.length
    simp only at hlen ⊢
    omega
  · have hqueue := h.queue
    rw [Ring.contents_pop hpos] at hqueue
    change d.accepted.map Prod.snd = (d.consumed ++ [(id, d.pipe.pop.1)]).map Prod.snd ++
      d.pipe.pop.2.contents
    rw [hqueue, List.map_append, List.append_assoc]
    rfl
  · refine h.calls.move ht rfl (fun _ hi => hi) ?_ (fun _ _ => rfl) (fun j hj => ?_)
      h.calls.accepted_lt (fun x hx => ?_)
    · rw [Task.Done, bytesOf_append_self, hdone]
    · exact bytesOf_append_of_ne fun he => hj (congrArg some he)
    · obtain hx | hx := List.mem_append.1 hx
      · exact h.calls.consumed_lt x hx
      · rw [List.mem_singleton.1 hx]
        exact h.calls.id t id (by rw [ht]; rfl)

theorem Fifo.stay (h : Fifo d tasks) (ht : tasks t = some k) :
    Fifo d (update tasks t (some k)) := by
  rw [← ht, update_eq_self]
  exact h

theorem Jump.task (h : Jump d killed l l') : l'.task = l.task := by
  cases h <;> rfl

theorem Fifo.next (h : Fifo d tasks) (ht : tasks t = some l.task) (hn : Next d killed l d' l') :
    Fifo d' (update tasks t (some l'.task)) := by
  cases hn with
  | jump l l' hj => exact .stay h (ht.trans (congrArg some hj.task.symm))
  | written id addr stored => exact .stay ⟨h.length, h.queue, h.calls.written ht⟩ ht
  | store id addr b todo stored hroom => exact h.store ht hroom
  | consume id n got _ hne => exact h.consume ht hne
  | close writable =>
    refine .stay ⟨?_, ?_, h.calls⟩ ht
    · cases writable <;> exact h.length
    · cases writable <;> exact h.queue

theorem Fifo.sleep (h : Fifo d tasks) (ht : tasks t = some k) :
    Fifo d (update tasks t (some k.acquired)) := by
  have hid : k.acquired.id? = k.id? := by cases k <;> rfl
  have hdone : k.acquired.Done d.accepted d.consumed := by
    have := h.calls.done t k ht
    cases k <;> exact this
  have hpend : k.acquired.pending? = k.pending? := by
    cases k with
    | write id addr todo stored => cases todo <;> rfl
    | read | close => rfl
  exact ⟨h.length, h.queue, h.calls.move ht hid (fun i hi => hpend ▸ hi) hdone (fun _ _ => rfl)
    (fun _ _ => rfl) h.calls.accepted_lt h.calls.consumed_lt⟩

/-- The holder of the lock knows what it has tested, and the pipe is a queue. -/
def Inv (d : Data) (ph : Option Local) (code : Pid → Option Local) : Prop :=
  (∀ l ∈ ph, Knows d.pipe d.wrote l) ∧ Fifo d (Option.map Local.task ∘ code)

/-- A process goes on with its task. -/
theorem Inv.goto {ph : Option Local} {code : Pid → Option Local}
    (hl : ∀ l ∈ ph, Knows d.pipe d.wrote l)
    (h : Fifo d (update (Option.map Local.task ∘ code) t (some l'.task))) :
    Inv d ph (update code t (some l')) :=
  ⟨hl, by rw [comp_update]; exact h⟩

/-- The process stays in its task. -/
theorem Inv.stay {code : Pid → Option Local} (h : Inv d (some l) code) (ht : code t = some l)
    (htask : l'.task = l.task) (hl : Knows d.pipe d.wrote l') :
    Inv d (some l') (update code t (some l')) := by
  have ht' : (Option.map Local.task ∘ code) t = some l'.task := by
    rw [comp_apply, ht, htask]
    rfl
  exact .goto (fun _ he => Option.some.inj he ▸ hl) (h.2.stay ht')

theorem keeps : Keeps monitor Inv fun l => ∃ k, l = .loop k where
  call := by
    intro d ph code t o c d' r h _ hcall
    obtain ⟨rfl, rfl⟩ := Prod.mk.inj (Option.some.inj hcall)
    refine ⟨.goto ?_ (h.2.call c), fun l hl => ?_⟩
    · cases c <;> exact h.1
    · obtain rfl := Sum.inr.inj hl
      cases c <;> exact ⟨_, rfl⟩
  acquire := by
    rintro d code t _ ⟨-, hf⟩ - ⟨k, rfl⟩
    exact ⟨fun l hl => Option.some.inj hl ▸ trivial, hf⟩
  next := by
    intro d code t killed l d' l' h ht hb
    cases does_of_body hb with
    | next _ _ _ hn =>
      refine .goto (fun _ he => Option.some.inj he ▸ hn.knows (h.1 l rfl)) ?_
      exact h.2.next (congrArg (Option.map _) ht) hn
  wakeup := by
    intro d code t killed l c l' h ht hb
    cases does_of_body hb with
    | wakeReaders k => exact h.stay ht rfl (h.1 (.wakeReaders k) rfl)
    | wakeup k => exact h.stay ht rfl (Knows.wakeup (h.1 _ rfl))
  sleep := by
    intro d code t killed l c l' h ht hb
    cases does_of_body hb with
    | sleep k => exact ⟨.goto nofun (h.2.sleep (congrArg (Option.map _) ht)), k.acquired, rfl⟩
  leave := by
    intro d code t killed l o h ht hb
    exact ⟨nofun, by rw [comp_update]; exact ⟨h.2.length, h.2.queue, h.2.calls.return⟩⟩

theorem inv_of_reachable {ok : State → Act → Prop} (h : system.Reachable ok s) :
    Inv s.data s.phase s.code := by
  refine (keeps.of_reachable (fun d hd => ⟨nofun, ?_⟩) h).1
  obtain ⟨p, hp, rfl⟩ := hd
  refine ⟨hp, by simp, ⟨fun x hx => ?_, nofun, nofun, nofun, nofun, nofun⟩⟩
  obtain ⟨b, -, rfl⟩ := List.mem_map.1 hx
  exact Nat.zero_lt_one

theorem knows_of_reachable {ok : State → Act → Prop} (h : system.Reachable ok s)
    (hl : s.pc t = .inside l) : Knows s.data.pipe s.data.wrote l :=
  (inv_of_reachable h).1 l (phase_of_inside h hl)

/-- A pipe is a queue: what its readers have got, in order, and what is in the buffer, which is at
    most `PIPESIZE` bytes, make up what was accepted from its writers, in order. A `pipewrite` that
    returns `n` has put in its `n` bytes, in order, and a `piperead` of bytes returns 0 only
    on an empty pipe whose write end is closed. -/
theorem pipe_fifo (h : system.Reachable Any s) :
    s.data.accepted.map Prod.snd = s.data.consumed.map Prod.snd ++ s.data.pipe.contents ∧
      s.data.pipe.contents.length ≤ PIPESIZE ∧
      (∀ x ∈ s.data.wrote, bytesOf x.1 s.data.accepted = x.2) ∧
      (∀ t id addr todo stored r, s.pc t = .inside (.release (.write id addr todo stored) r) →
        r ≠ -1 → r = addr.length ∧ (id, addr) ∈ s.data.wrote) ∧
      (∀ t id n got r, s.pc t = .inside (.release (.read id n got) r) → r ≠ -1 →
        r = got.length ∧ got = bytesOf id s.data.consumed) ∧
      ∀ t id n got, s.pc t = .inside (.release (.read id n got) 0) → 0 < n →
        s.data.pipe.contents = [] ∧ s.data.pipe.writeopen = false := by
  have hf := (inv_of_reachable h).2
  refine ⟨hf.queue, ?_, fun x hx => (hf.calls.wrote x hx).1, fun t id addr todo stored r hpc hr =>
    Or.resolve_left (knows_of_reachable h hpc) hr, fun t id n got r hpc hr => ?_,
    fun t id n got hpc hn => ?_⟩
  · rw [Ring.length_contents]; exact hf.length
  · have he : r = -1 ∨ r = got.length ∧ _ := knows_of_reachable h hpc
    have htask : (Option.map Local.task ∘ s.code) t = some (.read id n got) := by
      rw [comp_apply, State.code, hpc]
      rfl
    exact ⟨(he.resolve_left hr).1, hf.calls.done t _ htask⟩
  · have he : (0 : ℤ) = -1 ∨ (0 : ℤ) = got.length ∧ _ := knows_of_reachable h hpc
    obtain ⟨hgot, hend⟩ := he.resolve_left (by decide)
    obtain ⟨hempty, hclosed⟩ := hend (List.eq_nil_of_length_eq_zero (by omega)) hn
    refine ⟨?_, hclosed⟩
    rw [← List.length_eq_zero_iff, Ring.length_contents, Ring.length_eq_zero_iff]
    exact hempty

/-- Three bytes go in and two come out, while the counters wrap around. -/
theorem pipe_fifo_wrap : ∃ s : State, system.Reachable Any s ∧
    s.data.accepted = [(1, 10), (1, 20), (1, 30)] ∧ s.data.consumed = [(2, 10), (2, 20)] ∧
      s.data.wrote = [(1, [10, 20, 30])] ∧ s.data.pipe.nread = 0 ∧
      s.data.accepted.map Prod.snd = s.data.consumed.map Prod.snd ++ s.data.pipe.contents := by
  obtain ⟨s, hs, hP⟩ := exists_reachable (init_empty 4294967294)
    (show (system.exec Any (empty 4294967294)
      (.call 1 (.write [10, 20, 30]) :: List.replicate 7 (.step 1) ++
        .call 2 (.read 2) :: List.replicate 6 (.step 2))).any (fun s =>
      decide (s.data.accepted = [(1, 10), (1, 20), (1, 30)] ∧
        s.data.consumed = [(2, 10), (2, 20)] ∧ s.data.wrote = [(1, [10, 20, 30])] ∧
        s.data.pipe.nread = 0)) by decide +kernel)
  obtain ⟨ha, hc, hw, hn⟩ := of_decide_eq_true hP
  exact ⟨s, hs, ha, hc, hw, hn, (pipe_fifo hs).1⟩

end Xv6.Pipes
