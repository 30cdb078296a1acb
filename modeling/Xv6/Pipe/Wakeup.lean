import Xv6.Pipe.Fifo

/-!
# Sleeping on a pipe

`sleep` gives up `p->lock` and sleeps in one critical section of `ptable.lock`, so that a `wakeup`
by the next holder of `p->lock` finds the process asleep. Every process that makes a pipe not empty
or not full, or closes an end, owes a `wakeup` of the processes that wait for that, and it pays
before it gives up `p->lock`, with one exception: `pipewrite` returns -1 from a full pipe without
it. If no `pipewrite` does that after it has stored a byte in the same critical section, no process
sleeps on a pipe that it need not wait for (`no_lost_wakeup`).
-/

namespace Xv6.Pipes

open TransitionSystem Monitor Function

variable {s : State} {d d' : Data} {killed : Bool} {l l' : Local} {c : Chan}

/-- The holder of the lock owes the channel a `wakeup`. -/
def Local.owes : Local → Chan → Prop
  | .loop (.write _ _ _ stored), c | .wait (.write _ _ _ stored), c => stored ∧ c = .nread
  | .wakeReaders _, c => c = .nread
  | .copy _, c => c = .nwrite
  | .wakeup k, c => c = k.wakes
  | _, _ => False

/-- `pipewrite` has found the pipe full after it stored a byte, in the same critical section. -/
def Local.filled : Local → Bool
  | .wait (.write _ _ _ stored) => stored
  | _ => false

/-- A `pipewrite` that has filled the pipe does not give up: the read end is open, and the process
    is not killed. -/
def Prompt (s : State) : Act → Prop
  | .step t => ∀ l ∈ (s.pc t).active, l.filled → s.data.pipe.readopen ∧ s.killed t = false
  | _ => True

instance (s : State) (a : Act) : Decidable (Prompt s a) :=
  match a with
  | .step t => inferInstanceAs (Decidable (∀ l ∈ (s.pc t).active, _))
  | .call .. | .kill _ => .isTrue trivial

theorem Jump.owes (h : Jump d killed l l')
    (hprompt : l.filled → d.pipe.readopen ∧ killed = false) (hc : l.owes c) : l'.owes c := by
  cases h with
  | full id addr b todo stored hfull => exact hc
  | broken id addr todo stored hbroken =>
    obtain ⟨hopen, hkilled⟩ := hprompt hc.1
    simp [hopen, hkilled] at hbroken
  | retry id addr todo stored hopen => exact hc.2
  | copied id n got hend => exact hc
  | empty | ready | killed | sleep => exact hc.elim

/-- Who takes the reason to sleep away owes a `wakeup`, and goes on to owe it. -/
theorem Next.owes (h : Next d killed l d' l')
    (hprompt : l.filled → d.pipe.readopen ∧ killed = false) :
    (Blocked d.pipe c → Blocked d'.pipe c ∨ l'.owes c) ∧ (l.owes c → l'.owes c) := by
  cases h with
  | jump l l' hj => exact ⟨.inl, hj.owes hprompt⟩
  | written id addr stored => exact ⟨.inl, And.right⟩
  | store id addr b todo stored hroom =>
    refine ⟨fun hb => ?_, fun hc => ⟨rfl, hc.2⟩⟩
    cases c with
    | nread => exact .inr ⟨rfl, rfl⟩
    | nwrite => exact absurd hb.1 hroom
  | consume id n got hn hne =>
    refine ⟨fun hb => ?_, fun hc => hc⟩
    cases c with
    | nread => exact absurd hb.1 hne
    | nwrite => exact .inr rfl
  | close writable =>
    refine ⟨fun hb => ?_, fun hc => hc.elim⟩
    cases writable <;> cases c
    · exact .inl hb
    · exact .inr rfl
    · exact .inr rfl
    · exact .inl hb

theorem pays : Pays monitor Prompt (fun d => Blocked d.pipe) Local.owes where
  call {s t o a d r c u} _ _ hcall _ hb := by
    obtain ⟨rfl, -⟩ := Prod.mk.inj (Option.some.inj hcall)
    cases a <;> exact hb
  next {s t l d l' c} _ hok hl hbody := by
    have hprompt := hok l (by rw [hl]; rfl)
    cases does_of_body hbody with
    | next _ _ _ hn => exact hn.owes hprompt
  wakeup _ _ hbody ho := by
    cases does_of_body hbody with
    | wakeReaders k => exact .inl ho
    | wakeup k => exact .inl ho
  sleep h hl hbody := by
    have hknows := knows_of_reachable h hl
    cases does_of_body hbody with
    | sleep k => exact ⟨hknows, fun _ => id⟩
  leave _ _ hbody := by
    cases does_of_body hbody with
    | release k r => exact id

/-- No process sleeps on a pipe that it need not wait for while `p->lock` is free, whether
    `ptable.lock` is or not, if no `pipewrite` gives up right after it has filled the pipe. -/
theorem no_lost_wakeup (h : system.Reachable Prompt s) (hlock : s.lock = none) (t : Pid) :
    (s.chan t = some .nread →
        s.data.pipe.nread = s.data.pipe.nwrite ∧ s.data.pipe.writeopen) ∧
      (s.chan t = some .nwrite →
        s.data.pipe.nwrite = s.data.pipe.nread + UInt32.ofNat PIPESIZE ∧ s.data.pipe.readopen) :=
  ⟨pays.reason_of_chan h hlock, pays.reason_of_chan h hlock⟩

/-- Process 2 reads, and sleeps on the empty pipe. -/
theorem no_lost_wakeup_read : ∃ s : State, system.Reachable Prompt s ∧ s.lock = none ∧
    s.gate = none ∧ s.chan 2 = some .nread ∧ s.data.pipe.nread = s.data.pipe.nwrite := by
  obtain ⟨s, hs, hP⟩ := exists_reachable (init_empty 0)
    (show (system.exec Prompt (empty 0) (.call 2 (.read 1) :: List.replicate 6 (.step 2))).any
      (fun s => decide (s.lock = none ∧ s.gate = none ∧ s.chan 2 = some .nread)) by
      decide +kernel)
  obtain ⟨hlock, hgate, hchan⟩ := of_decide_eq_true hP
  exact ⟨s, hs, hlock, hgate, hchan, ((no_lost_wakeup hs hlock 2).1 hchan).1⟩

/-- Process 2 reads, and sleeps on the empty pipe. Process 1, which is killed, writes 513 bytes: it
    fills the pipe and returns -1, and process 2 sleeps on. -/
theorem wakeup_lost : ∃ s : State, system.Reachable Any s ∧ s.lock = none ∧ s.gate = none ∧
    s.chan 2 = some .nread ∧ s.data.pipe.nread ≠ s.data.pipe.nwrite ∧ s.code 1 = none := by
  obtain ⟨s, hs, hP⟩ := exists_reachable (init_empty 0)
    (show (system.exec Any (empty 0) (.call 2 (.read 1) :: List.replicate 6 (.step 2) ++
        .kill 1 :: .call 1 (.write (List.replicate 513 0)) :: List.replicate 516 (.step 1))).any
      (fun s => decide (s.lock = none ∧ s.gate = none ∧ s.chan 2 = some .nread ∧
        s.data.pipe.nread ≠ s.data.pipe.nwrite ∧ s.code 1 = none)) by
      decide +kernel)
  exact ⟨s, hs, of_decide_eq_true hP⟩

end Xv6.Pipes
