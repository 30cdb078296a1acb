import Xv6.Ide.Basic
import Xv6.Lib.FreeList

/-!
# The queue of disk requests

The requests are carried out one after the other, in the order in which they were put into the
queue, each of them once (`ide_fifo`): the queue is linked from `idequeue`, the disk works on its
head, and the next request is started when the head is completed.
-/

namespace Xv6.Ide

open Monitor TransitionSystem Function

/-- The buffer that a process in `iderw` is there for. -/
def Local.buf : Local → Option Ptr
  | .append b | .walk b _ | .start b | .wait b => some b
  | .intr | .finish _ | .wake _ | .next | .done => none

/-- The buffer is not in the queue yet. -/
def Local.isNew : Local → Bool
  | .append _ | .walk .. => true
  | _ => false

/-- The buffer is in the queue, or was. -/
def Local.waits : Local → Bool
  | .start _ | .wait _ => true
  | _ => false

/-- The handler has yet to see what the disk has done. -/
def Local.handles : Local → Bool
  | .intr | .finish _ => true
  | _ => false

/-- The buffer that was taken off the queue, and is not completed yet. -/
def taken : Option Local → List Ptr
  | some (.finish b) => [b]
  | _ => []

/-- The disk works on the head of the queue, if there is one. -/
def Working (d : Data) : List Ptr → Prop
  | [] => d.ide = .idle
  | b :: _ => d.ide.request = some (request (d.buf b)) ∧ (d.buf b).blockno.toNat < FSSIZE

/-- What the disk works on, by where the holder of `idelock` is. -/
def Work (d : Data) (Q : List Ptr) : Option Local → Prop
  | none | some (.wait _) | some .done => Working d Q
  | some (.append b) => Working d Q ∧ b ∉ Q
  | some (.walk b pp) => Working d Q ∧ b ∉ Q ∧ d.qnext b = 0 ∧ ∀ c, pp = some c → c ∈ Q
  | some (.start b) => ∃ Q', Q = Q' ++ [b] ∧ Working d Q'
  | some .intr => Working d Q ∧ ∃ q, d.ide = .done q
  | some (.finish b) => d.ide = .done (request (d.buf b)) ∧ (d.buf b).blockno.toNat < FSSIZE
  | some (.wake _) | some .next => d.ide = .idle

/-- The queue is `Q`. -/
structure Queued (d : Data) (ph : Option Local) (code : Pid → Option Local) (Q : List Ptr) :
    Prop where
  linked : Linked d.qnext d.idequeue Q 0
  nodup : (taken ph ++ Q).Nodup
  nonzero : 0 ∉ Q
  fifo : d.submitted = d.completed ++ (taken ph ++ Q)
  work : Work d Q ph
  /-- A process waits for each of the buffers, which it has locked. -/
  owned : ∀ b ∈ taken ph ++ Q, ∃ t, d.holder b = some t ∧
    (code t = some (.wait b) ∨ code t = some (.start b))
  pending : ∀ b ∈ taken ph ++ Q, (d.buf b).synced = false

/-- The process is the handler, and has yet to see what the disk has done. -/
def Handles (code : Pid → Option Local) (t : Pid) : Prop := ∃ l, code t = some l ∧ l.handles

/-- The driver with its processes. -/
structure Inv (d : Data) (ph : Option Local) (code : Pid → Option Local) : Prop where
  queue : ∃ Q, Queued d ph code Q
  client : ∀ {t l b}, code t = some l → l.buf = some b → d.holder b = some t ∧ b ≠ 0
  fresh : ∀ {t l b}, code t = some l → l.isNew → l.buf = some b → (d.buf b).synced = false
  handler : ∀ {t u}, Handles code t → Handles code u → t = u
  raised : (∃ q, d.ide = .done q) ↔ ∃ t, Handles code t
  written : ∀ {q x}, d.ide = .done q → q.write = some x → d.disk q.drive q.sector = x

variable {d d' : Data} {ph : Option Local} {code : Pid → Option Local} {Q : List Ptr} {t u : Pid}
  {b : Ptr} {pp : Option Ptr} {k l : Local}

theorem Working.congr (h : Working d Q) (hide : d'.ide = d.ide)
    (hbuf : ∀ b ∈ Q, d'.buf b = d.buf b) : Working d' Q := by
  cases Q with
  | nil => exact hide.trans h
  | cons b Q =>
    rw [Working, hide, hbuf b List.mem_cons_self]
    exact h

theorem Work.congr (h : Work d Q ph) (hide : d'.ide = d.ide) (hqnext : d'.qnext = d.qnext)
    (hbuf : ∀ b ∈ taken ph ++ Q, d'.buf b = d.buf b) : Work d' Q ph := by
  have hQ : ∀ b ∈ Q, d'.buf b = d.buf b := fun b hb => hbuf b (List.mem_append_right _ hb)
  match ph with
  | none | some (.wait _) | some .done => exact Working.congr h hide hQ
  | some (.append b) => exact ⟨h.1.congr hide hQ, h.2⟩
  | some (.walk b pp) => exact ⟨h.1.congr hide hQ, h.2.1, hqnext ▸ h.2.2⟩
  | some (.start b) =>
    obtain ⟨Q', rfl, hw⟩ := h
    exact ⟨Q', rfl, hw.congr hide fun b hb => hQ b (List.mem_append_left _ hb)⟩
  | some .intr => exact ⟨h.1.congr hide hQ, hide ▸ h.2⟩
  | some (.finish b) =>
    rw [Work, hide, hbuf b List.mem_cons_self]
    exact h
  | some (.wake _) | some .next => exact hide.trans h

/-- A process in `iderw` is no other's. -/
theorem Inv.not_mem (h : Inv d ph code) (hq : Queued d ph code Q) (ht : code t = some l)
    (hl : l.buf = some b) (hnew : l.isNew) : b ∉ taken ph ++ Q := by
  intro hb
  obtain ⟨u, hu, hcode⟩ := hq.owned b hb
  rw [(h.client ht hl).1] at hu
  obtain rfl := Option.some.inj hu
  rcases hcode with hcode | hcode
  all_goals
    rw [ht] at hcode
    obtain rfl := Option.some.inj hcode
    cases hnew

/-! ## One process moves -/

/-- The places of the others stay. -/
theorem forall_update {P : Pid → Local → Prop} (h : ∀ u l, u ≠ t → code u = some l → P u l)
    (ht : P t l) (u : Pid) (k : Local) (hk : update code t (some l) u = some k) : P u k := by
  by_cases hu : u = t
  · subst hu
    rw [update_self] at hk
    exact Option.some.inj hk ▸ ht
  · rw [update_of_ne hu] at hk
    exact h u k hu hk

theorem handles_update {x : Option Local} (hu : u ≠ t) :
    Handles (update code t x) u ↔ Handles code u := by
  rw [Handles, Handles, update_of_ne hu]

theorem handles_of_eq (ht : code t = some l) : Handles code t ↔ l.handles := by
  rw [Handles, ht]
  simp

theorem handles_update_self : Handles (update code t (some l)) t ↔ l.handles :=
  handles_of_eq (update_self ..)

/-- Each buffer stays with the process that waits for it. -/
theorem owned_update {L : List Ptr} {x : Option Local}
    (h : ∀ b ∈ L, ∃ u, d.holder b = some u ∧ (code u = some (.wait b) ∨ code u = some (.start b)))
    (ht : ∀ b ∈ L, code t = some (.wait b) ∨ code t = some (.start b) →
      x = some (.wait b) ∨ x = some (.start b)) :
    ∀ b ∈ L, ∃ u, d.holder b = some u ∧ (update code t x u = some (.wait b) ∨
      update code t x u = some (.start b)) := by
  intro b hb
  obtain ⟨u, hu, hcode⟩ := h b hb
  refine ⟨u, hu, ?_⟩
  by_cases hut : u = t
  · subst hut
    rw [update_self]
    exact ht b hb hcode
  · rwa [update_of_ne hut]

/-- A step of `t` from `k` to `l` that neither raises nor handles an interrupt. -/
theorem Inv.of (h : Inv d ph code) {ph' : Option Local}
    (hq : Queued d' ph' (update code t (some l)) Q) (hholder : d'.holder = d.holder)
    (hdisk : d'.disk = d.disk) (hbuf : d'.buf = d.buf)
    (hide : ∀ q, d'.ide = .done q ↔ d.ide = .done q) (ht : code t = some k) (hb : l.buf = k.buf)
    (hnew : l.isNew → k.isNew) (hhandles : l.handles = k.handles) :
    Inv d' ph' (update code t (some l)) := by
  have hsame (u : Pid) : Handles (update code t (some l)) u ↔ Handles code u := by
    by_cases hu : u = t
    · rw [hu, handles_update_self, hhandles, handles_of_eq ht]
    · exact handles_update hu
  refine ⟨⟨Q, hq⟩, ?_, ?_, ?_, ?_, ?_⟩
  · intro u j b
    rw [hholder]
    exact forall_update (P := fun u l => l.buf = some b → d.holder b = some u ∧ b ≠ 0)
      (fun _ _ _ hl => h.client hl) (hb ▸ h.client ht) u j
  · intro u j b
    rw [hbuf]
    exact forall_update (P := fun u l => l.isNew → l.buf = some b → (d.buf b).synced = false)
      (fun _ _ _ hl => h.fresh hl) (fun hl => hb ▸ h.fresh ht (hnew hl)) u j
  · intro u v hu hv
    exact h.handler ((hsame u).1 hu) ((hsame v).1 hv)
  · simp only [hide, hsame]
    exact h.raised
  · intro q y hq
    rw [hdisk]
    exact h.written ((hide q).1 hq)

/-- Where a process takes `idelock`. -/
def Entry : Local → Prop
  | .append _ | .intr | .wait _ => True
  | _ => False

theorem Inv.acquire (h : Inv d none code) (ht : code t = some l) (hE : Entry l) :
    Inv d (some l) code := by
  obtain ⟨Q, hq⟩ := h.queue
  refine { h with queue := ⟨Q, ?_⟩ }
  cases l with
  | append b =>
    have hb := h.not_mem hq ht rfl rfl
    exact ⟨hq.linked, hq.nodup, hq.nonzero, hq.fifo, ⟨hq.work, hb⟩, hq.owned, hq.pending⟩
  | intr =>
    have hdone := h.raised.2 ⟨t, .intr, ht, rfl⟩
    exact ⟨hq.linked, hq.nodup, hq.nonzero, hq.fifo, ⟨hq.work, hdone⟩, hq.owned, hq.pending⟩
  | wait b => exact ⟨hq.linked, hq.nodup, hq.nonzero, hq.fifo, hq.work, hq.owned, hq.pending⟩
  | walk | start | finish | wake | next | done => cases hE

/-- Where `t` is says for which buffer it waits. -/
theorem not_waiting (ht : code t = some l) (hl : l.waits = false) {P : Prop} (b : Ptr) :
    code t = some (.wait b) ∨ code t = some (.start b) → P := by
  rintro (hc | hc)
  all_goals
    rw [ht] at hc
    obtain rfl := Option.some.inj hc
    cases hl

theorem Inv.append (h : Inv d (some (.append b)) code) (ht : code t = some (.append b)) :
    Inv { d with qnext := update d.qnext b 0 } (some (.walk b none))
      (update code t (some (.walk b none))) := by
  obtain ⟨Q, hq⟩ := h.queue
  obtain ⟨hwork, hb⟩ := hq.work
  refine h.of (Q := Q) ?_ rfl rfl rfl (fun _ => .rfl) ht rfl id rfl
  refine ⟨(linked_update hb).2 hq.linked, hq.nodup, hq.nonzero, hq.fifo, ?_,
    owned_update hq.owned fun c _ => not_waiting ht rfl c, hq.pending⟩
  exact ⟨hwork.congr rfl fun _ _ => rfl, hb, update_self .., nofun⟩

theorem Queued.idequeue_eq (hq : Queued d ph code Q) : d.idequeue = Q.head?.getD 0 := by
  have h := hq.linked
  cases Q with
  | nil => exact linked_nil.1 h
  | cons c Q => exact (linked_cons.1 h).1

theorem Inv.walk (h : Inv d (some (.walk b pp)) code) (ht : code t = some (.walk b pp))
    (hload : d.load pp ≠ 0) : Inv d (some (.walk b (some (d.load pp))))
      (update code t (some (.walk b (some (d.load pp))))) := by
  obtain ⟨Q, hq⟩ := h.queue
  obtain ⟨hwork, hb, hqnext, hpp⟩ := hq.work
  refine h.of (Q := Q) ?_ rfl rfl rfl (fun _ => .rfl) ht rfl id rfl
  refine ⟨hq.linked, hq.nodup, hq.nonzero, hq.fifo, ⟨hwork, hb, hqnext, ?_⟩,
    owned_update hq.owned fun c _ => not_waiting ht rfl c, hq.pending⟩
  -- the next one is in the queue, as the end was not reached
  rintro c hc
  obtain rfl := Option.some.inj hc
  cases pp with
  | none =>
    change d.idequeue ∈ Q
    rw [Data.load, hq.idequeue_eq] at hload
    rw [hq.idequeue_eq]
    cases Q with
    | nil => exact absurd rfl hload
    | cons c Q => exact List.mem_cons_self
  | some c => exact (hq.linked.next_mem (hpp c rfl)).resolve_right hload

theorem Queued.eq_nil (hq : Queued d ph code Q) (h0 : d.idequeue = 0) : Q = [] := by
  have h := hq.idequeue_eq
  cases Q with
  | nil => rfl
  | cons c Q => exact absurd (h0 ▸ h ▸ List.mem_cons_self) hq.nonzero

/-- The buffer goes to the end of the queue. -/
theorem linked_store (hq : Queued d (some (.walk b pp)) code Q) (hload : d.load pp = 0) :
    Linked (d.store b pp).qnext (d.store b pp).idequeue (Q ++ [b]) 0 := by
  obtain ⟨-, hb, hqnext, hpp⟩ := hq.work
  cases pp with
  | none =>
    rw [hq.eq_nil hload]
    exact linked_cons.2 ⟨rfl, linked_nil.2 hqnext⟩
  | some c =>
    have hc : c ∈ Q := hpp c rfl
    have hbc : b ≠ c := fun he => hb (he ▸ hc)
    refine linked_append.2 ⟨b, hq.linked.relink hq.nodup hq.nonzero hc hload, ?_⟩
    refine linked_cons.2 ⟨rfl, linked_nil.2 ?_⟩
    exact (update_of_ne hbc ..).trans hqnext

theorem store_eq (d : Data) (b : Ptr) (pp : Option Ptr) : (d.store b pp).buf = d.buf ∧
    (d.store b pp).holder = d.holder ∧ (d.store b pp).disk = d.disk ∧ (d.store b pp).ide = d.ide ∧
    (d.store b pp).completed = d.completed := by
  cases pp <;> exact ⟨rfl, rfl, rfl, rfl, rfl⟩

theorem Inv.store (h : Inv d (some (.walk b pp)) code) (ht : code t = some (.walk b pp))
    (hload : d.load pp = 0) :
    Inv { d.store b pp with submitted := d.submitted ++ [b] } (some (.start b))
      (update code t (some (.start b))) := by
  obtain ⟨Q, hq⟩ := h.queue
  obtain ⟨hbuf, hholder, hdisk, hide, hcompleted⟩ := store_eq d b pp
  obtain ⟨hwork, hb, -, -⟩ := hq.work
  obtain ⟨hlocked, hzero⟩ := h.client ht rfl
  refine h.of (Q := Q ++ [b]) ?_ hholder hdisk hbuf (fun q => by rw [hide]) ht rfl (by nofun) rfl
  refine ⟨linked_store hq hload, ?_, ?_, ?_, ⟨Q, rfl, hwork.congr hide fun c _ => by rw [hbuf]⟩,
    ?_, ?_⟩
  · change (Q ++ [b]).Nodup
    exact List.Nodup.append hq.nodup (List.nodup_singleton b) (by simpa using hb)
  · simpa [Ne.symm hzero] using hq.nonzero
  · change d.submitted ++ [b] = (d.store b pp).completed ++ (Q ++ [b])
    rw [hq.fifo, hcompleted, List.append_assoc]
    rfl
  · intro c (hc : c ∈ Q ++ [b])
    change ∃ u, (d.store b pp).holder c = some u ∧ _
    rw [hholder]
    rcases List.mem_append.1 hc with hc | hc
    · exact owned_update hq.owned (fun e _ => not_waiting ht rfl e) c hc
    · rw [List.mem_singleton.1 hc]
      exact ⟨t, hlocked, .inr (update_self ..)⟩
  · intro c (hc : c ∈ Q ++ [b])
    change ((d.store b pp).buf c).synced = false
    rw [hbuf]
    rcases List.mem_append.1 hc with hc | hc
    · exact hq.pending c hc
    · rw [List.mem_singleton.1 hc]
      exact h.fresh ht rfl rfl

/-- What `idestart` does, if it does not panic. -/
theorem idestart_eq (h : d.idestart b = some d') : (d.buf b).blockno.toNat < FSSIZE ∧
    d' = { d with ide := .busy (request (d.buf b)) } := by
  rw [Data.idestart] at h
  split_ifs at h with h0 hno
  exact ⟨not_le.1 hno, (Option.some.inj h).symm⟩

/-- The disk has not interrupted, and there is no handler. -/
theorem Inv.not_done (h : Inv d ph code) (hide : ∀ q, d.ide ≠ .done q) (u : Pid) :
    ¬Handles code u := fun hu => by
  obtain ⟨q, hq⟩ := h.raised.2 ⟨u, hu⟩
  exact hide q hq

/-- The process goes on waiting for the same buffer. -/
theorem start_waits (ht : code t = some (.start b)) (c : Ptr) :
    code t = some (.wait c) ∨ code t = some (.start c) →
      some (Local.wait b) = some (.wait c) ∨ some (Local.wait b) = some (.start c) := by
  intro hc
  rw [ht] at hc
  simpa using hc

theorem Inv.start (h : Inv d (some (.start b)) code) (ht : code t = some (.start b))
    (hhead : d.idequeue = b) (hstart : d.idestart b = some d') :
    Inv d' (some (.wait b)) (update code t (some (.wait b))) := by
  obtain ⟨Q, hq⟩ := h.queue
  obtain ⟨Q', rfl, hwork⟩ := hq.work
  obtain ⟨hno, rfl⟩ := idestart_eq hstart
  -- the buffer is the only one
  have hnil : Q' = [] := by
    have hnodup : (Q' ++ [b]).Nodup := hq.nodup
    cases Q' with
    | nil => rfl
    | cons c Q' =>
      have hcb : d.idequeue = c := hq.idequeue_eq
      rw [← hcb, hhead] at hnodup
      simp at hnodup
  subst hnil
  have hidle : d.ide = .idle := hwork
  refine h.of (Q := [b]) ?_ rfl rfl rfl (fun q => by simp [hidle]) ht rfl (by nofun) rfl
  exact ⟨hq.linked, hq.nodup, hq.nonzero, hq.fifo, ⟨rfl, hno⟩,
    owned_update hq.owned fun c _ => start_waits ht c, hq.pending⟩

/-- The disk works on another buffer. -/
theorem Inv.skip (h : Inv d (some (.start b)) code) (ht : code t = some (.start b))
    (hhead : d.idequeue ≠ b) :
    Inv d (some (.wait b)) (update code t (some (.wait b))) := by
  obtain ⟨Q, hq⟩ := h.queue
  obtain ⟨Q', rfl, hwork⟩ := hq.work
  refine h.of (Q := Q' ++ [b]) ?_ rfl rfl rfl (fun _ => .rfl) ht rfl (by nofun) rfl
  refine ⟨hq.linked, hq.nodup, hq.nonzero, hq.fifo, ?_,
    owned_update hq.owned fun c _ => start_waits ht c, hq.pending⟩
  cases Q' with
  | nil => exact absurd hq.idequeue_eq hhead
  | cons c Q' => exact hwork

/-- The head is taken off the queue. -/
theorem Inv.pop (h : Inv d (some .intr) code) (ht : code t = some .intr) (h0 : d.idequeue ≠ 0) :
    Inv { d with idequeue := d.qnext d.idequeue } (some (.finish d.idequeue))
      (update code t (some (.finish d.idequeue))) := by
  obtain ⟨Q, hq⟩ := h.queue
  obtain ⟨hwork, q, hdone⟩ := hq.work
  cases Q with
  | nil => exact absurd hq.idequeue_eq h0
  | cons c Q =>
    obtain ⟨hc, hlinked⟩ := linked_cons.1 hq.linked
    rw [hc]
    obtain ⟨hreq, hno⟩ := hwork
    refine h.of (Q := Q) ?_ rfl rfl rfl (fun _ => .rfl) ht rfl (by nofun) rfl
    refine ⟨hlinked, hq.nodup, fun hmem => hq.nonzero (List.mem_cons_of_mem _ hmem), hq.fifo, ?_,
      owned_update hq.owned fun e _ => not_waiting ht rfl e, hq.pending⟩
    rw [hdone] at hreq
    exact ⟨hdone.trans (congrArg Controller.done (Option.some.inj hreq)), hno⟩

/-- The request is completed. -/
theorem Inv.finish (h : Inv d (some (.finish b)) code) (ht : code t = some (.finish b)) :
    Inv (d.complete b) (some (.wake b)) (update code t (some (.wake b))) := by
  obtain ⟨Q, hq⟩ := h.queue
  have hnodup : (b :: Q).Nodup := hq.nodup
  have hb : b ∉ Q := (List.nodup_cons.1 hnodup).1
  have hbuf (c : Ptr) (hc : c ≠ b) : (d.complete b).buf c = d.buf c := update_of_ne hc ..
  have hne {c : Ptr} (hc : c ∈ Q) : c ≠ b := fun he => hb (he ▸ hc)
  -- nobody else has anything to handle
  have hno (u : Pid) : ¬Handles (update code t (some (.wake b))) u := by
    intro hu
    by_cases hut : u = t
    · rw [hut, handles_update_self] at hu
      cases hu
    · rw [handles_update hut] at hu
      exact hut (h.handler hu ⟨_, ht, rfl⟩)
  refine ⟨⟨Q, ?_⟩, ?_, ?_, fun hu => absurd hu (hno _), ?_, nofun⟩
  · refine ⟨hq.linked, (List.nodup_cons.1 hnodup).2, hq.nonzero, ?_, rfl,
      fun c hc => owned_update hq.owned (fun e _ => not_waiting ht rfl e) c
        (List.mem_cons_of_mem _ hc), ?_⟩
    · change d.submitted = d.completed ++ [b] ++ Q
      rw [hq.fifo, List.append_assoc]
      rfl
    · intro c hc
      rw [hbuf c (hne hc)]
      exact hq.pending c (List.mem_cons_of_mem _ hc)
  · intro u j c
    exact forall_update (P := fun u l => l.buf = some c → d.holder c = some u ∧ c ≠ 0)
      (fun _ _ _ hl => h.client hl) (by rintro ⟨⟩) u j
  · intro u j c
    refine forall_update (P := fun u l => l.isNew → l.buf = some c →
      ((d.complete b).buf c).synced = false) (fun v j _ hj hnew hc => ?_) (by rintro ⟨⟩) u j
    have hcb : c ≠ b := by
      rintro rfl
      exact h.not_mem hq hj hc hnew List.mem_cons_self
    rw [hbuf c hcb]
    exact h.fresh hj hnew hc
  · exact iff_of_false nofun fun ⟨u, hu⟩ => hno u hu

theorem Inv.woken (h : Inv d (some (.wake b)) code) (ht : code t = some (.wake b)) :
    Inv d (some .next) (update code t (some .next)) := by
  obtain ⟨Q, hq⟩ := h.queue
  refine h.of (Q := Q) ?_ rfl rfl rfl (fun _ => .rfl) ht rfl (by nofun) rfl
  exact ⟨hq.linked, hq.nodup, hq.nonzero, hq.fifo, hq.work,
    owned_update hq.owned fun c _ => not_waiting ht rfl c, hq.pending⟩

/-- The disk starts on the next buffer. -/
theorem Inv.next (h : Inv d (some .next) code) (ht : code t = some .next)
    (h0 : d.idequeue ≠ 0) (hstart : d.idestart d.idequeue = some d') :
    Inv d' (some .done) (update code t (some .done)) := by
  obtain ⟨Q, hq⟩ := h.queue
  obtain ⟨hno, rfl⟩ := idestart_eq hstart
  have hidle : d.ide = .idle := hq.work
  refine h.of (Q := Q) ?_ rfl rfl rfl (fun q => by simp [hidle]) ht rfl (by nofun) rfl
  refine ⟨hq.linked, hq.nodup, hq.nonzero, hq.fifo, ?_,
    owned_update hq.owned fun c _ => not_waiting ht rfl c, hq.pending⟩
  cases Q with
  | nil => exact absurd hq.idequeue_eq h0
  | cons c Q =>
    have hc : d.idequeue = c := hq.idequeue_eq
    rw [hc] at hno ⊢
    exact ⟨rfl, hno⟩

theorem Inv.rest (h : Inv d (some .next) code) (ht : code t = some .next) (h0 : d.idequeue = 0) :
    Inv d (some .done) (update code t (some .done)) := by
  obtain ⟨Q, hq⟩ := h.queue
  refine h.of (Q := Q) ?_ rfl rfl rfl (fun _ => .rfl) ht rfl (by nofun) rfl
  refine ⟨hq.linked, hq.nodup, hq.nonzero, hq.fifo, ?_,
    owned_update hq.owned fun c _ => not_waiting ht rfl c, hq.pending⟩
  rw [hq.eq_nil h0]
  exact hq.work

theorem Inv.sleep (h : Inv d (some (.wait b)) code) (ht : code t = some (.wait b)) :
    Inv d none (update code t (some (.wait b))) := by
  obtain ⟨Q, hq⟩ := h.queue
  rw [← ht, update_eq_self]
  exact { h with queue := ⟨Q, { hq with } ⟩ }

/-- A process leaves that is not the handler. -/
theorem Inv.leave (h : Inv d (some l) code) (ht : code t = some l) (hl : l.handles = false)
    (hq : Queued d none (update code t none) Q) :
    Inv d none (update code t none) := by
  have stays {u : Pid} {j : Local} (hj : update code t none u = some j) :
      code u = some j := by
    by_cases hu : u = t
    · rw [hu, update_self] at hj
      cases hj
    · rwa [update_of_ne hu] at hj
  have hsame (u : Pid) : Handles (update code t none) u ↔ Handles code u := by
    by_cases hu : u = t
    · rw [hu, handles_of_eq ht, hl]
      refine iff_of_false ?_ (by nofun)
      rintro ⟨j, hj, -⟩
      rw [update_self] at hj
      cases hj
    · exact handles_update hu
  refine ⟨⟨Q, hq⟩, fun hj => h.client (stays hj), fun hj => h.fresh (stays hj),
    fun hu hv => h.handler ((hsame _).1 hu) ((hsame _).1 hv), ?_, h.written⟩
  simp only [hsame]
  exact h.raised

/-- `iderw` returns: its buffer is not in the queue any more. -/
theorem Inv.return (h : Inv d (some (.wait b)) code) (ht : code t = some (.wait b))
    (hsynced : (d.buf b).synced) : Inv d none (update code t none) := by
  obtain ⟨Q, hq⟩ := h.queue
  refine h.leave ht rfl (Q := Q) ?_
  refine ⟨hq.linked, hq.nodup, hq.nonzero, hq.fifo, hq.work, owned_update hq.owned ?_, hq.pending⟩
  intro c hc hcode
  rw [ht] at hcode
  obtain rfl : b = c := by simpa using hcode
  rw [hq.pending b hc] at hsynced
  cases hsynced

theorem Inv.handled (h : Inv d (some .done) code) (ht : code t = some .done) :
    Inv d none (update code t none) := by
  obtain ⟨Q, hq⟩ := h.queue
  refine h.leave ht rfl (Q := Q) ?_
  exact ⟨hq.linked, hq.nodup, hq.nonzero, hq.fifo, hq.work,
    owned_update hq.owned fun c _ => not_waiting ht rfl c, hq.pending⟩

/-- An interrupt finds its buffer in the queue. -/
theorem Inv.idequeue_ne (h : Inv d (some .intr) code) : d.idequeue ≠ 0 := by
  obtain ⟨Q, hq⟩ := h.queue
  obtain ⟨hwork, q, hdone⟩ := hq.work
  intro h0
  rw [hq.eq_nil h0] at hwork
  exact nomatch hdone.symm.trans hwork

/-! ## Calls -/

variable {havedisk1 : Bool}

/-- A process outside changes the locks or the buffers. -/
theorem Inv.outside (h : Inv d ph code) {d' : Data}
    (hqnext : d'.qnext = d.qnext) (hhead : d'.idequeue = d.idequeue) (hdisk : d'.disk = d.disk)
    (hide : d'.ide = d.ide) (hsub : d'.submitted = d.submitted) (hcomp : d'.completed = d.completed)
    (hholder : ∀ u l b, code u = some l → d.holder b = some u → d'.holder b = some u)
    (hbuf : ∀ u l b, code u = some l → d.holder b = some u → d'.buf b = d.buf b) :
    Inv d' ph code := by
  obtain ⟨Q, hq⟩ := h.queue
  have howner {b : Ptr} (hb : b ∈ taken ph ++ Q) : ∃ u l, code u = some l ∧
      d.holder b = some u := by
    obtain ⟨u, hu, hcode | hcode⟩ := hq.owned b hb
    · exact ⟨u, _, hcode, hu⟩
    · exact ⟨u, _, hcode, hu⟩
  have hsame (b : Ptr) (hb : b ∈ taken ph ++ Q) : d'.buf b = d.buf b := by
    obtain ⟨u, l, hcode, hu⟩ := howner hb
    exact hbuf u l b hcode hu
  refine ⟨⟨Q, ?_⟩, fun {u l b} hl hb => ?_, fun {u l b} hl hnew hb => ?_, h.handler, ?_, ?_⟩
  · refine ⟨?_, hq.nodup, hq.nonzero, ?_, hq.work.congr hide hqnext hsame, fun b hb => ?_,
      fun b hb => ?_⟩
    · rw [hqnext, hhead]; exact hq.linked
    · rw [hsub, hcomp]; exact hq.fifo
    · obtain ⟨u, hu, hcode⟩ := hq.owned b hb
      refine ⟨u, ?_, hcode⟩
      rcases hcode with hcode | hcode
      · exact hholder u _ b hcode hu
      · exact hholder u _ b hcode hu
    · rw [hsame b hb]; exact hq.pending b hb
  · obtain ⟨hu, h0⟩ := h.client hl hb
    exact ⟨hholder u l b hl hu, h0⟩
  · rw [hbuf u l b hl (h.client hl hb).1]
    exact h.fresh hl hnew hb
  · rw [hide]; exact h.raised
  · rw [hide, hdisk]; exact h.written

/-- `t` is outside, and stays there. -/
theorem update_none (ht : code t = none) : update code t none = code := by
  rw [← ht, update_eq_self]

theorem holder_ne (ht : code t = none) (hu : code u = some l) : u ≠ t := fun he => by
  rw [he, ht] at hu
  cases hu

theorem Inv.lock (h : Inv d ph code) (hfree : d.holder b = none) :
    Inv { d with holder := update d.holder b (some t) } ph code := by
  refine h.outside rfl rfl rfl rfl rfl rfl (fun u l c _ hu => ?_) fun _ _ _ _ _ => rfl
  have hcb : c ≠ b := fun he => by
    rw [he, hfree] at hu
    cases hu
  exact (update_of_ne hcb ..).trans hu

theorem Inv.unlock (h : Inv d ph code) (ht : code t = none) (hb : d.holder b = some t) :
    Inv { d with holder := update d.holder b none } ph code := by
  refine h.outside rfl rfl rfl rfl rfl rfl (fun u l c hl hu => ?_) fun _ _ _ _ _ => rfl
  have hcb : c ≠ b := fun he => by
    rw [he, hb] at hu
    exact holder_ne ht hl (Option.some.inj hu).symm
  exact (update_of_ne hcb ..).trans hu

theorem Inv.set (h : Inv d ph code) (ht : code t = none) {x : Buf}
    (hb : d.holder b = none ∨ d.holder b = some t) :
    Inv { d with buf := update d.buf b x } ph code := by
  refine h.outside rfl rfl rfl rfl rfl rfl (fun _ _ _ _ hu => hu) fun u l c hl hu => ?_
  have hcb : c ≠ b := fun he => by
    rw [he] at hu
    rcases hb with hb | hb
    · rw [hb] at hu
      cases hu
    · rw [hb] at hu
      exact holder_ne ht hl (Option.some.inj hu).symm
  exact update_of_ne hcb ..

/-- A process comes to wait for nothing yet. -/
theorem Queued.enter (hq : Queued d ph code Q) (ht : code t = none) :
    Queued d ph (update code t (some l)) Q where
  __ := hq
  owned := owned_update hq.owned fun c _ hc => by
    rw [ht] at hc
    rcases hc with hc | hc <;> cases hc

theorem Inv.iderw (h : Inv d ph code) (ht : code t = none) (h0 : b ≠ 0)
    (hb : d.holder b = some t) (hsynced : (d.buf b).synced = false) :
    Inv d ph (update code t (some (.append b))) := by
  obtain ⟨Q, hq⟩ := h.queue
  have hsame (u : Pid) : Handles (update code t (some (.append b))) u ↔
      Handles code u := by
    by_cases hu : u = t
    · rw [hu, handles_update_self, Handles, ht]
      simp [Local.handles]
    · exact handles_update hu
  refine ⟨⟨Q, hq.enter ht⟩, ?_, ?_, fun hu hv => h.handler ((hsame _).1 hu) ((hsame _).1 hv), ?_,
    h.written⟩
  · intro u j c
    refine forall_update (P := fun u l => l.buf = some c → d.holder c = some u ∧ c ≠ 0)
      (fun _ _ _ hl => h.client hl) ?_ u j
    rintro ⟨⟩
    exact ⟨hb, h0⟩
  · intro u j c
    refine forall_update (P := fun u l => l.isNew → l.buf = some c → (d.buf c).synced = false)
      (fun _ _ _ hl => h.fresh hl) ?_ u j
    rintro - ⟨⟩
    exact hsynced
  · simp only [hsame]
    exact h.raised

/-- The request that the disk works on stays. -/
theorem Work.carryOut {q : Request} (h : Work d Q ph) (hide : d.ide = .busy q) :
    Work (d.carryOut q) Q ph := by
  have working {L : List Ptr} (hw : Working d L) : Working (d.carryOut q) L := by
    cases L with
    | nil => exact nomatch hide.symm.trans hw
    | cons b L =>
      obtain ⟨hreq, hno⟩ := hw
      rw [hide] at hreq
      exact ⟨hreq, hno⟩
  match ph with
  | none | some (.wait _) | some .done => exact working h
  | some (.append b) => exact ⟨working h.1, h.2⟩
  | some (.walk b pp) => exact ⟨working h.1, h.2⟩
  | some (.start b) =>
    obtain ⟨Q', rfl, hw⟩ := h
    exact ⟨Q', rfl, working hw⟩
  | some .intr => exact ⟨working h.1, q, rfl⟩
  | some (.finish b) => exact nomatch hide.symm.trans h.1
  | some (.wake _) | some .next => exact nomatch hide.symm.trans h

theorem Inv.intr (h : Inv d ph code) (ht : code t = none) {q : Request} (hide : d.ide = .busy q) :
    Inv (d.carryOut q) ph (update code t (some .intr)) := by
  obtain ⟨Q, hq⟩ := h.queue
  -- there was no handler, as the disk had not interrupted
  have hno := h.not_done fun q' hq' => by cases hide.symm.trans hq'
  have honly {u : Pid} (hu : Handles (update code t (some .intr)) u) : u = t := by
    by_contra hut
    exact hno u ((handles_update hut).1 hu)
  have hq' := hq.enter (l := .intr) ht
  refine ⟨⟨Q, hq'.linked, hq'.nodup, hq'.nonzero, hq'.fifo, hq'.work.carryOut hide, hq'.owned,
    hq'.pending⟩, ?_, ?_, fun hu hv => (honly hu).trans (honly hv).symm, ?_, ?_⟩
  · intro u j c
    exact forall_update (P := fun u l => l.buf = some c → d.holder c = some u ∧ c ≠ 0)
      (fun _ _ _ hl => h.client hl) (by rintro ⟨⟩) u j
  · intro u j c
    exact forall_update (P := fun u l => l.isNew → l.buf = some c → (d.buf c).synced = false)
      (fun _ _ _ hl => h.fresh hl) (by rintro ⟨⟩) u j
  · exact iff_of_true ⟨q, rfl⟩ ⟨t, handles_update_self.2 rfl⟩
  · rintro q' x hq' hx
    obtain rfl := Controller.done.inj hq'
    dsimp only [Data.carryOut]
    rw [hx]
    simp

theorem Inv.call (h : Inv d ph code) (ht : code t = none) {c : Call} {r : Unit ⊕ Local}
    (hcall : call havedisk1 d t c = some (d', r)) :
    Inv d' ph (update code t (Sum.elim (fun _ => none) some r)) ∧
      ∀ l, r = .inr l → Entry l := by
  cases c with
  | lock b =>
    rw [Ide.call] at hcall
    split_ifs at hcall with hfree
    obtain ⟨rfl, rfl⟩ := Prod.mk.inj (Option.some.inj hcall)
    exact ⟨(update_none ht).symm ▸ h.lock hfree, nofun⟩
  | unlock b =>
    rw [Ide.call] at hcall
    split_ifs at hcall with hb
    obtain ⟨rfl, rfl⟩ := Prod.mk.inj (Option.some.inj hcall)
    exact ⟨(update_none ht).symm ▸ h.unlock ht hb, nofun⟩
  | set b x =>
    rw [Ide.call] at hcall
    split_ifs at hcall with hb
    obtain ⟨rfl, rfl⟩ := Prod.mk.inj (Option.some.inj hcall)
    exact ⟨(update_none ht).symm ▸ h.set ht hb, nofun⟩
  | iderw b =>
    rw [Ide.call] at hcall
    split_ifs at hcall with hb
    obtain ⟨rfl, rfl⟩ := Prod.mk.inj (Option.some.inj hcall)
    refine ⟨h.iderw ht hb.1 hb.2.1 hb.2.2.1, ?_⟩
    rintro l ⟨⟩
    trivial
  | intr =>
    rw [Ide.call] at hcall
    split at hcall
    · next q hide =>
      obtain ⟨rfl, rfl⟩ := Prod.mk.inj (Option.some.inj hcall)
      refine ⟨h.intr ht hide, ?_⟩
      rintro l ⟨⟩
      trivial
    · cases hcall

/-! ## The invariant -/

/-- The steps of a process in its critical section that neither wake up, sleep nor leave. -/
inductive Next (d : Data) : Local → Data → Local → Prop
  | append (b : Ptr) :
    Next d (.append b) { d with qnext := Function.update d.qnext b 0 } (.walk b none)
  | walk (b : Ptr) (pp : Option Ptr) (hload : d.load pp ≠ 0) :
    Next d (.walk b pp) d (.walk b (some (d.load pp)))
  | store (b : Ptr) (pp : Option Ptr) (hload : d.load pp = 0) :
    Next d (.walk b pp) { d.store b pp with submitted := d.submitted ++ [b] } (.start b)
  | start (b : Ptr) (d' : Data) (hhead : d.idequeue = b) (hstart : d.idestart b = some d') :
    Next d (.start b) d' (.wait b)
  | skip (b : Ptr) (hhead : d.idequeue ≠ b) : Next d (.start b) d (.wait b)
  | pop (h0 : d.idequeue ≠ 0) :
    Next d .intr { d with idequeue := d.qnext d.idequeue } (.finish d.idequeue)
  | finish (b : Ptr) : Next d (.finish b) (d.complete b) (.wake b)
  | next (d' : Data) (h0 : d.idequeue ≠ 0) (hstart : d.idestart d.idequeue = some d') :
    Next d .next d' .done
  | rest (h0 : d.idequeue = 0) : Next d .next d .done

theorem next_of_body (h : body d l = .next d' k) : Next d l d' k := by
  cases l with
  | append b =>
    obtain ⟨rfl, rfl⟩ := Op.next.inj h
    exact .append b
  | walk b pp =>
    rw [body] at h
    split_ifs at h with hload
    · obtain ⟨rfl, rfl⟩ := Op.next.inj h
      exact .walk b pp hload
    · obtain ⟨rfl, rfl⟩ := Op.next.inj h
      exact .store b pp (not_not.1 hload)
  | start b =>
    rw [body] at h
    split_ifs at h with hhead
    · split at h
      · next d₁ hstart =>
        obtain ⟨rfl, rfl⟩ := Op.next.inj h
        exact .start b d₁ hhead hstart
      · cases h
    · obtain ⟨rfl, rfl⟩ := Op.next.inj h
      exact .skip b hhead
  | intr =>
    rw [body] at h
    split_ifs at h with h0
    obtain ⟨rfl, rfl⟩ := Op.next.inj h
    exact .pop h0
  | finish b =>
    obtain ⟨rfl, rfl⟩ := Op.next.inj h
    exact .finish b
  | next =>
    rw [body] at h
    split_ifs at h with h0
    · split at h
      · next d₁ hstart =>
        obtain ⟨rfl, rfl⟩ := Op.next.inj h
        exact .next d₁ h0 hstart
      · cases h
    · obtain ⟨rfl, rfl⟩ := Op.next.inj h
      exact .rest (not_not.1 h0)
  | wait b =>
    rw [body] at h
    split_ifs at h
  | wake | done => cases h

/-- Only the handler wakes up. -/
theorem wakeup_of_body (h : body d l = .wakeup b k) : l = .wake b ∧ k = .next := by
  cases l with
  | wake c =>
    obtain ⟨rfl, rfl⟩ := Op.wakeup.inj h
    exact ⟨rfl, rfl⟩
  | walk | wait | intr =>
    rw [body] at h
    split_ifs at h
  | start | next =>
    rw [body] at h
    split_ifs at h
    split at h <;> cases h
  | append | finish | done => cases h

theorem sleep_of_body (h : body d l = .sleep b k) :
    l = .wait b ∧ k = .wait b ∧ (d.buf b).synced = false := by
  cases l with
  | wait c =>
    rw [body] at h
    split_ifs at h with hsynced
    obtain ⟨rfl, rfl⟩ := Op.sleep.inj h
    exact ⟨rfl, rfl, hsynced⟩
  | walk | intr =>
    rw [body] at h
    split_ifs at h
  | start | next =>
    rw [body] at h
    split_ifs at h
    split at h <;> cases h
  | append | finish | wake | done => cases h

theorem leave_of_body {o : Unit} (h : body d l = .leave o) :
    (∃ b, l = .wait b ∧ (d.buf b).synced) ∨ l = .intr ∧ d.idequeue = 0 ∨ l = .done := by
  cases l with
  | wait c =>
    rw [body] at h
    split_ifs at h with hsynced
    exact .inl ⟨c, rfl, Bool.eq_true_of_not_eq_false hsynced⟩
  | intr =>
    rw [body] at h
    split_ifs at h with h0
    exact .inr (.inl ⟨rfl, h0⟩)
  | done => exact .inr (.inr rfl)
  | walk =>
    rw [body] at h
    split_ifs at h
  | start | next =>
    rw [body] at h
    split_ifs at h
    split at h <;> cases h
  | append | finish | wake => cases h

theorem keeps : Keeps (monitor havedisk1) Inv Entry where
  call h ht hcall := h.call ht hcall
  acquire := Inv.acquire
  next h ht hbody := by
    cases next_of_body hbody with
    | append b => exact h.append ht
    | walk b pp hload => exact h.walk ht hload
    | store b pp hload => exact h.store ht hload
    | start b d' hhead hstart => exact h.start ht hhead hstart
    | skip b hhead => exact h.skip ht hhead
    | pop h0 => exact h.pop ht h0
    | finish b => exact h.finish ht
    | next d' h0 hstart => exact h.next ht h0 hstart
    | rest h0 => exact h.rest ht h0
  wakeup h ht hbody := by
    obtain ⟨rfl, rfl⟩ := wakeup_of_body hbody
    exact h.woken ht
  sleep h ht hbody := by
    obtain ⟨rfl, rfl, -⟩ := sleep_of_body hbody
    exact ⟨h.sleep ht, trivial⟩
  leave h ht hbody := by
    obtain ⟨b, rfl, hsynced⟩ | ⟨rfl, h0⟩ | rfl := leave_of_body hbody
    · exact h.return ht hsynced
    · exact absurd h0 h.idequeue_ne
    · exact h.handled ht

theorem inv_of_init (h : (monitor havedisk1).init d) : Inv d none fun _ => none := by
  obtain ⟨hhead, -, hide, hsub, hcomp⟩ := h
  refine ⟨⟨[], linked_nil.2 hhead, List.nodup_nil, List.not_mem_nil, ?_, hide, nofun, nofun⟩,
    nofun, nofun, ?_, ?_, ?_⟩
  · rw [hsub, hcomp]
    rfl
  · rintro t u ⟨l, hl, -⟩
    cases hl
  · refine iff_of_false ?_ ?_
    · rintro ⟨q, hq⟩
      exact nomatch hide.symm.trans hq
    · rintro ⟨t, l, hl, -⟩
      cases hl
  · intro q x hq
    exact nomatch hide.symm.trans hq

variable {s s' : State}

theorem inv_of_reachable (h : (system havedisk1).Reachable Any s) :
    Inv s.data s.phase s.code :=
  (keeps.of_reachable (fun _ => inv_of_init) h).1

/-! ## Sleepers -/

/-- Whoever sleeps on a buffer waits for it in `iderw`. -/
theorem code_of_asleep (h : (system havedisk1).Reachable Any s) (hb : Asleep s t b) :
    s.code t = some (.wait b) := by
  obtain ⟨l, hl, rfl⟩ := resumes_of_asleep (m := monitor havedisk1) (R := fun b l => l = .wait b)
    (fun hbody => (sleep_of_body hbody).2.1) h hb
  exact Pc.code_of_resumes hl

/-- A call does nothing to the buffers that others have locked. -/
theorem buf_of_call {c : Call} {r : Unit ⊕ Local} (hcall : call havedisk1 d t c = some (d', r))
    (hu : d.holder b = some u) (hne : u ≠ t) : d'.buf b = d.buf b := by
  cases c with
  | set b' x =>
    rw [call] at hcall
    split_ifs at hcall with hb'
    obtain ⟨rfl, -⟩ := Prod.mk.inj (Option.some.inj hcall)
    refine update_of_ne ?_ ..
    rintro rfl
    rw [hu] at hb'
    exact hb'.elim nofun fun he => hne (Option.some.inj he)
  | lock | unlock | iderw =>
    rw [call] at hcall
    split_ifs at hcall
    obtain ⟨rfl, -⟩ := Prod.mk.inj (Option.some.inj hcall)
    rfl
  | intr =>
    rw [call] at hcall
    split at hcall
    · obtain ⟨rfl, -⟩ := Prod.mk.inj (Option.some.inj hcall)
      rfl
    · cases hcall

/-- The handler wakes up the process whose request it has completed. -/
theorem pays : Pays (monitor havedisk1) (Any (σ := State))
    (fun d b => (d.buf b).synced = false) fun l b => l = .wake b where
  call := by
    intro s t o c d r b u h ho hcall hasleep hr
    have hcode := code_of_asleep h hasleep
    have hne : u ≠ t := fun he => by
      rw [he, State.code, ho] at hcode
      cases hcode
    have hu := ((inv_of_reachable h).client hcode rfl).1
    rwa [buf_of_call hcall hu hne]
  next := by
    intro s t l d l' b _ _ _ hbody
    cases next_of_body hbody with
    | finish c =>
      refine ⟨fun hr => ?_, by simp⟩
      by_cases hbc : b = c
      · exact .inr (hbc ▸ rfl)
      · refine .inl ?_
        rwa [show (s.data.complete c).buf b = s.data.buf b from update_of_ne hbc ..]
    | store c pp hload =>
      refine ⟨fun hr => .inl ?_, by simp⟩
      change ((s.data.store c pp).buf b).synced = false
      rwa [(store_eq s.data c pp).1]
    | start c d' hhead hstart =>
      obtain ⟨-, rfl⟩ := idestart_eq hstart
      exact ⟨.inl, by simp⟩
    | next d' h0 hstart =>
      obtain ⟨-, rfl⟩ := idestart_eq hstart
      exact ⟨.inl, by simp⟩
    | append | walk | skip | pop | rest => exact ⟨.inl, by simp⟩
  wakeup _ _ hbody ho := by
    obtain ⟨rfl, rfl⟩ := wakeup_of_body hbody
    exact .inl (Local.wake.inj ho).symm
  sleep _ _ hbody := by
    obtain ⟨rfl, -, hsynced⟩ := sleep_of_body hbody
    exact ⟨hsynced, by simp⟩
  leave _ _ hbody := by
    obtain ⟨b, rfl, -⟩ | ⟨rfl, -⟩ | rfl := leave_of_body hbody
    all_goals simp

/-! ## Requests -/

/-- The request of `b` was completed: a read leaves the buffer with the contents of its block, and a
    write leaves the block with the contents of the buffer. -/
structure Completed (d d' : Data) (b : Ptr) : Prop where
  completed : d'.completed = d.completed ++ [b]
  flags : (d'.buf b).valid ∧ (d'.buf b).dirty = false
  block : (d'.buf b).dev = (d.buf b).dev ∧ (d'.buf b).blockno = (d.buf b).blockno
  disk : d'.disk = d.disk
  data : (d'.buf b).data = d'.disk (d'.buf b).drive (d'.buf b).blockno.toNat
  write : (d.buf b).dirty → (d'.buf b).data = (d.buf b).data

theorem Inv.completed (h : Inv d (some (.finish b)) code) : Completed d (d.complete b) b := by
  obtain ⟨Q, hq⟩ := h.queue
  obtain ⟨hdone, hno⟩ := hq.work
  have hbuf : (d.complete b).buf b = { d.buf b with
      valid := true, dirty := false, data := if (d.buf b).dirty then (d.buf b).data else d.port } :=
    update_self ..
  refine ⟨rfl, ?_, ?_, rfl, ?_, fun hdirty => ?_⟩
  · rw [hbuf]
    exact ⟨rfl, rfl⟩
  · rw [hbuf]
    exact ⟨rfl, rfl⟩
  · rw [hbuf]
    change (if (d.buf b).dirty then (d.buf b).data else d.port) =
      d.disk (d.buf b).drive (d.buf b).blockno.toNat
    rw [← request_drive hno, ← request_sector hno]
    split_ifs with hdirty
    · exact (h.written hdone (if_pos hdirty)).symm
    · rw [Data.port, hdone]
  · rw [hbuf]
    exact if_pos hdirty

theorem completed_of_call {c : Call} {r : Unit ⊕ Local}
    (hcall : call havedisk1 d t c = some (d', r)) : d'.completed = d.completed := by
  cases c with
  | lock | unlock | set | iderw =>
    rw [call] at hcall
    split_ifs at hcall
    obtain ⟨rfl, -⟩ := Prod.mk.inj (Option.some.inj hcall)
    rfl
  | intr =>
    rw [call] at hcall
    split at hcall
    · obtain ⟨rfl, -⟩ := Prod.mk.inj (Option.some.inj hcall)
      rfl
    · cases hcall

/-- A step completes a request, or none. -/
theorem completed_of_step {a : Act Pid Call} (h : (system havedisk1).Reachable Any s)
    (hs : (system havedisk1).step s a = some s') :
    s'.data.completed = s.data.completed ∨ ∃ b, Completed s.data s'.data b := by
  obtain ⟨t, o, c, d, r, -, -, hcall, rfl⟩ | ⟨t, -, hm⟩ | ⟨t, -, -, rfl⟩ := step_cases hs
  · exact .inl (completed_of_call hcall)
  · generalize hq : s.pc t = q at hm
    cases hm with
    | next l d l' hbody =>
      cases next_of_body hbody with
      | finish b =>
        have hinv := inv_of_reachable h
        rw [phase_of_inside h hq] at hinv
        exact .inr ⟨b, hinv.completed⟩
      | store b pp hload => exact .inl (store_eq s.data b pp).2.2.2.2
      | start b d' hhead hstart =>
        obtain ⟨-, rfl⟩ := idestart_eq hstart
        exact .inl rfl
      | next d' h0 hstart =>
        obtain ⟨-, rfl⟩ := idestart_eq hstart
        exact .inl rfl
      | append | walk | skip | pop | rest => exact .inl rfl
    | acquire | wakeup | sleep | leave | unlock | sched => exact .inl rfl
  · exact .inl rfl

/-- While `idelock` is free, the disk works on the head of the queue. -/
theorem Queued.request_eq (hq : Queued d none code Q) :
    d.ide.request = Q.head?.map fun b => request (d.buf b) := by
  have hwork : Working d Q := hq.work
  cases Q with
  | nil =>
    rw [show d.ide = .idle from hwork]
    rfl
  | cons b Q => exact hwork.1

/-- The requests are completed in the order in which they were put into the queue, each of them
    once. The disk works on the head of the queue, and nobody sleeps on a buffer after its request
    was completed. -/
theorem ide_fifo (h : (system havedisk1).Reachable Any s) :
    (∃ Q, Linked s.data.qnext s.data.idequeue Q 0 ∧ Q.Nodup ∧ 0 ∉ Q ∧
      (s.lock = none → s.data.ide.request = Q.head?.map (fun b => request (s.data.buf b)) ∧
        s.data.submitted = s.data.completed ++ Q)) ∧
    s.data.completed <+: s.data.submitted ∧
    (∀ a s', (system havedisk1).step s a = some s' →
      s'.data.completed = s.data.completed ∨ ∃ b, Completed s.data s'.data b) ∧
    (s.lock = none → ∀ t b, s.chan t = some b → (s.data.buf b).synced = false) := by
  obtain ⟨Q, hq⟩ := (inv_of_reachable h).queue
  refine ⟨⟨Q, hq.linked, hq.nodup.of_append_right, hq.nonzero, fun hlock => ?_⟩,
    ⟨_, hq.fifo.symm⟩, fun a s' => completed_of_step h, fun hlock t b =>
    pays.reason_of_chan h hlock⟩
  rw [phase_of_unlocked hlock] at hq
  exact ⟨hq.request_eq, hq.fifo⟩

/-- Nothing is in the queue, and the buffers are yet to be read. -/
def atRest : State where
  data := { buf := fun b => { blockno := UInt32.ofNat b }, qnext := fun _ => 0,
            disk := fun _ n _ => UInt8.ofNat n }
  pc := fun _ => .outside ()

/-- Processes 1 and 2 read the blocks 1 and 2, and the disk has interrupted once. -/
theorem ide_fifo_atRest : ∃ s : State, (system false).Reachable Any s ∧
    s.data.submitted = [1, 2] ∧ s.data.completed = [1] ∧
    s.data.ide.request = some (request (s.data.buf 2)) := by
  obtain ⟨s, hs, hP⟩ := exists_reachable (S := system false) (s := atRest)
    ⟨⟨rfl, fun _ => rfl, rfl, rfl, rfl⟩, rfl⟩
    (show ((system false).exec Any atRest ([.call 1 (.lock 1), .call 1 (.iderw 1)] ++
        List.replicate 7 (.step 1) ++ [.call 2 (.lock 2), .call 2 (.iderw 2)] ++
        List.replicate 8 (.step 2) ++ [.call 3 .intr] ++ List.replicate 6 (.step 3))).any
      (fun s => decide (s.lock = none ∧ s.data.submitted = [1, 2] ∧ s.data.completed = [1])) by
      decide +kernel)
  obtain ⟨hlock, hsub, hcomp⟩ := of_decide_eq_true hP
  obtain ⟨⟨Q, -, -, -, hQ⟩, -⟩ := ide_fifo hs
  obtain ⟨hreq, hfifo⟩ := hQ hlock
  rw [hsub, hcomp] at hfifo
  obtain rfl : [2] = Q := List.append_cancel_left (show [1] ++ [2] = [1] ++ Q from hfifo)
  exact ⟨s, hs, hsub, hcomp, hreq⟩

end Xv6.Ide
