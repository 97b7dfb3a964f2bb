import Lthread.Proofs.Queues
import Lthread.Spec.Multi

/-! `lthread_poll`: an lthread has one place in the waiting tree, one key and one pair of
bits, and the key and the bits are gone when the registration is to be undone. -/

namespace Lthr

open Sched

namespace World

variable {x x' : World} {l : LtId}

/-- `_lthread_cancel_event` for an lthread that has neither a key nor a bit. -/
theorem lthreadCancelEvent_none (hbits : ∀ e, x.sched.has l (waitBit e) = false) (hkey : (x.sched.lt l).fdWait = -1) :
    x.lthreadCancelEvent l = .ok (x.onSched (·.modify l ({ · with fdWait := -1 }))) := by
  have hread : ¬ x.sched.has l .waitRead = true := Bool.eq_false_iff.mp (hbits .read)
  have hwrite : ¬ x.sched.has l .waitWrite = true := Bool.eq_false_iff.mp (hbits .write)
  have hclear : x.clearWait l = .ok x := by
    unfold clearWait
    rw [if_neg hread, if_neg hwrite]
  unfold lthreadCancelEvent
  rw [hclear, hkey]
  rfl

theorem lthreadResume_slept {t : ℕ} (hf : (x.sched.lt l).freed = false) (hc : x.sched.has l .cancelled = false)
    (hctx : (x.sched.lt l).ctx = .slept t) :
    ∃ x', x.lthreadResume l = .ok x' ∧ x'.cpu = .run l ∧ x'.sched.waiting = x.sched.waiting ∧ x'.poller = x.poller := by
  have hyield {y : World} (hy : (y.sched.lt l).ctx = .slept t) :
      y.afterYield l = .ok (y.onSched (·.lthreadSchedSleepEnd l t)) := by
    unfold afterYield
    rw [hy]
  unfold lthreadResume
  rw [if_neg (Bool.eq_false_iff.mp hf), if_neg (Bool.eq_false_iff.mp hc)]
  by_cases hn : x.sched.has l .new = true
  · have hctx' : ((x.lthreadInit l).sched.lt l).ctx = .slept t := by
      rw [lthreadInit, onSched_sched, modify_lt, if_pos rfl]
      exact hctx
    simp only [if_pos hn]
    rw [hyield hctx']
    exact ⟨_, rfl, rfl, lthreadSchedSleepEnd_waiting .., rfl⟩
  · simp only [if_neg hn]
    rw [hyield hctx]
    exact ⟨_, rfl, rfl, lthreadSchedSleepEnd_waiting .., rfl⟩

theorem resumeExpired_none {t : ℕ} (hf : (x.sched.lt l).freed = false) (hc : x.sched.has l .cancelled = false)
    (hbits : ∀ e, x.sched.has l (waitBit e) = false) (hkey : (x.sched.lt l).fdWait = -1)
    (hctx : (x.sched.lt l).ctx = .slept t) :
    ∃ x', x.resumeExpired l = .ok x' ∧ x'.cpu = .run l ∧ x'.sched.waiting = x.sched.waiting ∧ x'.poller = x.poller := by
  have hkeeps : KeepsLt (x.sched.modify l ({ · with fdWait := -1 }))
      (((x.sched.modify l ({ · with fdWait := -1 })).lthreadDeschedSleep l).setBit l .expired) :=
    (lthreadDeschedSleep_keeps _ l).trans (setBit_keeps _ l .expired)
  unfold resumeExpired
  rw [lthreadCancelEvent_none hbits hkey]
  obtain ⟨x', hx, hcpu, hw, hp⟩ := lthreadResume_slept (t := t)
    (x := (x.onSched (·.modify l ({ · with fdWait := -1 }))).onSched fun s => (s.lthreadDeschedSleep l).setBit l .expired)
    (l := l) (by rw [onSched_sched, onSched_sched, hkeeps.freed, modify_lt, if_pos rfl]; exact hf)
    (by
      rw [onSched_sched, onSched_sched, setBit_has, if_neg (by simp), lthreadDeschedSleep_has]
      have hc' : (x.sched.modify l ({ · with fdWait := -1 })).has l .cancelled = false := by
        rw [Sched.has, modify_lt, if_pos rfl]
        exact hc
      rw [hc']
      simp)
    (by rw [onSched_sched, onSched_sched, hkeeps.ctx, modify_lt, if_pos rfl]; exact hctx)
  refine ⟨x', hx, hcpu, ?_, hp⟩
  rw [hw]
  simp [setBit]

theorem lthreadSchedEvent_stored {fd : Fd} {e : LtEvent} (hx : x.lthreadSchedEvent l fd e (u64 - 1) = .ok x') :
    x' = { x.onSched (eventStored l fd e) with poller := x.poller.register fd e } := by
  obtain ⟨-, -, ⟨-, rfl⟩ | ⟨hne, -⟩⟩ := lthreadSchedEvent_cases hx
  · rfl
  · exact absurd rfl hne

theorem eventStored_has (s : Sched) (l : LtId) (fd : Fd) (e : LtEvent) : (eventStored l fd e s).has l (waitBit e) = true := by
  simp [eventStored, Sched.has, modify_lt, Sched.setBit, Lt.setBit]

theorem pollRegister_two (x : World) (l : LtId) (p q : PollFd) (fds : List PollFd) :
    ∃ f, x.pollRegister l (p :: q :: fds) = .error f := by
  rw [pollRegister]
  cases hp : x.lthreadSchedEvent l p.fd p.event (u64 - 1) with
  | error f => exact ⟨f, rfl⟩
  | ok y =>
    refine ⟨.unexpectedEvent, ?_⟩
    have hbit : y.sched.has l (waitBit p.event) = true := by
      rw [lthreadSchedEvent_stored hp]
      exact eventStored_has ..
    have hq : y.lthreadSchedEvent l q.fd q.event (u64 - 1) = .error .unexpectedEvent := by
      unfold lthreadSchedEvent
      rw [if_pos]
      cases he : p.event with
      | read =>
        rw [he] at hbit
        exact Bool.or_eq_true_iff.mpr (Or.inl hbit)
      | write =>
        rw [he] at hbit
        exact Bool.or_eq_true_iff.mpr (Or.inr hbit)
    change (y.pollRegister l (q :: fds)) = _
    rw [pollRegister, hq]
    rfl

end World

namespace Multi

variable {x y : Multi} {l : LtId} {p : PollFd} {fds : List PollFd} {timeout : ℤ}

def Unregistered (x : Multi) (l : LtId) (fds : List PollFd) : Prop :=
  l ∉ x.world.sched.waiting ∧ l ∉ x.world.sched.sleeping ∧ ∀ p ∈ fds, x.world.poller.armed p.fd p.event = false

def rounds : ℕ → Multi → Except Fault Multi
  | 0, x => .ok x
  | n + 1, x => do
    let y ← x.lthreadRun
    y.rounds n

/-- What a call of `lthread_poll` by lthread `l` should do. -/
structure PollWorks (x : Multi) (l : LtId) (fds : List PollFd) (timeout : ℤ) : Prop where
  registers : ∃ y, x.lthreadPoll l fds timeout = .ok y
  -- when the timeout passes first, 0 is returned and nothing is left
  expires : ∀ y w, x.lthreadPoll l fds timeout = .ok y → y.world.resumeExpired l = .ok w → w.cpu = .run l →
    (lthreadPollEnd { y with world := w } l).world.ret l = 0 ∧
      (lthreadPollEnd { y with world := w } l).Unregistered l fds
  -- when some of the descriptors, for which nobody else waits, become ready in one poll, they are
  -- counted and listed, the lthread becomes ready and nothing else is left
  ready : ∀ y evs, x.lthreadPoll l fds timeout = .ok y → evs ≠ [] → evs.Nodup →
    (∀ p ∈ evs, { p with hup := false } ∈ fds) →
    (∀ p ∈ evs, ∀ m ∈ x.world.sched.waiting, fdOnly (x.world.sched.lt m).fdWait ≠ p.fd) →
      ∃ z, rounds (2 * evs.length)
          { y with world := { y.world with phase := .events (evs.map fun p => .ready p.fd p.hup), cpu := .loop } } =
          .ok z ∧
        z.readyFds l = evs.length ∧ (∀ p, p ∈ (z.pollfds l).take evs.length ↔ p ∈ evs) ∧
        l ∈ z.world.sched.ready ∧ z.Unregistered l fds

/-- What `lthread_poll` does to its own record before it goes to sleep. -/
def pollStored (l : LtId) (s : Sched) : Sched :=
  (((s.modify l ({ · with fdWait := -1 })).clearBit l .waitRead).clearBit l .waitWrite).setBit l .waitMulti

theorem pollStored_keeps (s : Sched) (l : LtId) : KeepsLt (s.modify l ({ · with fdWait := -1 })) (pollStored l s) :=
  ((clearBit_keeps _ l .waitRead).trans (clearBit_keeps _ l .waitWrite)).trans (setBit_keeps _ l .waitMulti)

theorem pollStored_bits (s : Sched) (l : LtId) (e : LtEvent) : (pollStored l s).has l (waitBit e) = false := by
  unfold pollStored
  rw [setBit_has, clearBit_has, clearBit_has]
  cases e <;> simp [waitBit]

theorem pollStored_cancelled (s : Sched) (l : LtId) : (pollStored l s).has l .cancelled = s.has l .cancelled := by
  unfold pollStored
  rw [setBit_has, clearBit_has, clearBit_has]
  simp [Sched.has, modify_lt]

/-- The scheduler when `lthread_poll` has gone to sleep. -/
def pollSlept (l : LtId) (t : ℕ) (s : Sched) : Sched :=
  ((pollStored l s).lthreadSchedSleep l t).setCtx l (.slept t)

theorem pollSlept_has (s : Sched) (l : LtId) (t : ℕ) {b : LtSt} (hb : b ≠ .sleeping) :
    (pollSlept l t s).has l b = (pollStored l s).has l b := by
  rw [pollSlept, setCtx_has, lthreadSchedSleep_has, if_neg (fun h => hb h.2.1)]

theorem pollSlept_lt (s : Sched) (l : LtId) (t : ℕ) :
    ((pollSlept l t s).lt l).fdWait = -1 ∧ ((pollSlept l t s).lt l).ctx = .slept t ∧
      ((pollSlept l t s).lt l).freed = (s.lt l).freed := by
  have hkeeps := (pollStored_keeps s l).trans (lthreadSchedSleep_keeps (pollStored l s) l t)
  have hfd := hkeeps.fdWait l
  have hfreed := hkeeps.freed l
  rw [modify_lt, if_pos rfl] at hfd hfreed
  unfold pollSlept Sched.setCtx
  rw [modify_lt, if_pos rfl]
  exact ⟨hfd, rfl, hfreed⟩

theorem pollSlept_waiting (s : Sched) (l : LtId) (t : ℕ) : (pollSlept l t s).waiting = s.waiting := by
  rw [pollSlept, setCtx_waiting, lthreadSchedSleep_waiting]
  rfl

/-- In a call of `lthread_poll` for one descriptor the lthread is in the waiting tree, without
a key and without a bit, and the descriptor is armed. -/
theorem lthreadPoll_one (hx : x.lthreadPoll l [p] timeout = .ok y) :
    y.world.sched = pollSlept l (timeoutMsecs timeout) (World.eventStored l p.fd p.event x.world.sched) ∧
      y.world.poller = x.world.poller.register p.fd p.event := by
  obtain ⟨w, hw, hx⟩ := except_bind_ok hx
  obtain rfl := Except.ok.inj hx
  obtain ⟨w', hw', hw⟩ := except_bind_ok hw
  obtain rfl := Except.ok.inj hw
  obtain rfl := World.lthreadSchedEvent_stored hw'
  exact ⟨rfl, rfl⟩

/-- When the timeout of such a call passes, the lthread stays in the waiting tree and the
descriptor armed. -/
theorem lthreadPoll_one_expires (hf : (x.world.sched.lt l).freed = false) (hc : x.world.sched.has l .cancelled = false)
    (hx : x.lthreadPoll l [p] timeout = .ok y) :
    ∃ w, y.world.resumeExpired l = .ok w ∧ w.cpu = .run l ∧ l ∈ w.sched.waiting ∧ w.poller.armed p.fd p.event = true := by
  obtain ⟨hs, hp⟩ := lthreadPoll_one hx
  generalize hst : World.eventStored l p.fd p.event x.world.sched = s at hs
  have hfreed : (s.lt l).freed = false := by
    subst hst
    simpa [World.eventStored, modify_lt, Sched.setBit, Lt.setBit] using hf
  have hcanc : s.has l .cancelled = false := by
    subst hst
    cases p.event <;> simpa [World.eventStored, Sched.has, modify_lt, Sched.setBit, Lt.setBit, waitBit] using hc
  obtain ⟨hfd, hctx, hfr⟩ := pollSlept_lt s l (timeoutMsecs timeout)
  rw [← hs] at hfd hctx hfr
  have hbits (e : LtEvent) : y.world.sched.has l (waitBit e) = false := by
    rw [hs, pollSlept_has s l _ (by cases e <;> simp [waitBit])]
    exact pollStored_bits s l e
  have hyc : y.world.sched.has l .cancelled = false := by
    rw [hs, pollSlept_has s l _ (by simp), pollStored_cancelled]
    exact hcanc
  obtain ⟨w, hw, hcpu, hkept, hpol⟩ := World.resumeExpired_none (hfr.trans hfreed) hyc hbits hfd hctx
  refine ⟨w, hw, hcpu, ?_, ?_⟩
  · rw [hkept, hs, pollSlept_waiting, ← hst]
    exact List.mem_cons_self
  · rw [hpol, hp]
    cases p.event <;> simp [Poller.armed, Poller.register, Interest.only, Interest.has]

/-- `lthread_poll` does what it should for no set of descriptors: with two of them the
registration runs into the assertion of `_lthread_sched_event`, and with one the lthread is
left in the waiting tree when the timeout passes. -/
theorem lthread_poll_never_works (hfds : fds ≠ []) (hf : (x.world.sched.lt l).freed = false)
    (hc : x.world.sched.has l .cancelled = false) : ¬ x.PollWorks l fds timeout := by
  intro h
  obtain ⟨y, hy⟩ := h.registers
  match fds, hfds with
  | p :: q :: fds, _ =>
    obtain ⟨f, hreg⟩ := x.world.pollRegister_two l p q fds
    obtain ⟨w, hw, -⟩ := except_bind_ok hy
    rw [hreg] at hw
    cases hw
  | [p], _ =>
    obtain ⟨w, hw, hcpu, hwait, -⟩ := lthreadPoll_one_expires hf hc hy
    exact (h.expires y w hy hw hcpu).2.1 hwait

set_option maxRecDepth 20000 in
/-- With two descriptors `lthread_poll` stops at "Unexpected event". With one it returns 0
when its timeout has passed, and the lthread is in the waiting tree. -/
theorem lthread_poll_breaks :
    (∃ x, multiMachine.Reachable (fun _ _ => True) x ∧ x.world.cpu = .run 0 ∧
      x.step (.lthreadPoll [⟨5, .read, false⟩, ⟨6, .read, false⟩] 10) = .error .unexpectedEvent) ∧
    ∃ x, multiMachine.Reachable (fun _ _ => True) x ∧ x.world.cpu = .run 0 ∧ x.polling 0 = false ∧
      x.world.ret 0 = 0 ∧ x.world.sched.waiting = [0] ∧ x.world.poller.armed 5 .read = true := by
  constructor
  · obtain ⟨x, hx, hsee⟩ : ∃ x, multiMachine.Reachable (fun _ _ => True) x ∧
        (decide (x.world.cpu = .run 0), errorOf (x.step (.lthreadPoll [⟨5, .read, false⟩, ⟨6, .read, false⟩] 10))) =
          (true, some .unexpectedEvent) :=
      Machine.exists_reachable (M := multiMachine) (fun _ _ _ h => h) ⟨0, fun _ => 0, IO_WORKERS, rfl⟩
        [.world .main, .world .run, .world .sched, .world .sched, .world .sched] _ (by decide)
    obtain ⟨hcpu, hs⟩ := Prod.mk.inj hsee
    exact ⟨x, hx, of_decide_eq_true hcpu, eq_error_of hs⟩
  · obtain ⟨x, hx, hsee⟩ : ∃ x, multiMachine.Reachable (fun _ _ => True) x ∧
        decide (x.world.cpu = .run 0 ∧ x.polling 0 = false ∧ x.world.ret 0 = 0 ∧ x.world.sched.waiting = [0] ∧
          x.world.poller.armed 5 .read = true) = true :=
      Machine.exists_reachable (M := multiMachine) (fun _ _ _ h => h) ⟨0, fun _ => 0, IO_WORKERS, rfl⟩
        [.world .main, .world .run, .world .sched, .world .sched, .world .sched, .lthreadPoll [⟨5, .read, false⟩] 10,
          .world .sched, .world .sched, .world .sched, .world (.clock 20000), .world (.poll []), .world .sched,
          .world .sched, .world .sched, .go] _ (by decide)
    exact ⟨x, hx, of_decide_eq_true hsee⟩

set_option maxRecDepth 20000 in
theorem lthread_poll_never_works_one : ∃ x, multiMachine.Reachable (fun _ _ => True) x ∧ x.world.cpu = .run 0 ∧
    ¬ x.PollWorks 0 [⟨5, .read, false⟩] 10 := by
  obtain ⟨x, hx, hsee⟩ : ∃ x, multiMachine.Reachable (fun _ _ => True) x ∧
      decide (x.world.cpu = .run 0 ∧ (x.world.sched.lt 0).freed = false ∧ x.world.sched.has 0 .cancelled = false) = true :=
    Machine.exists_reachable (M := multiMachine) (fun _ _ _ h => h) ⟨0, fun _ => 0, IO_WORKERS, rfl⟩
      [.world .main, .world .run, .world .sched, .world .sched, .world .sched] _ (by decide)
  obtain ⟨hcpu, hf, hc⟩ := of_decide_eq_true hsee
  exact ⟨x, hx, hcpu, lthread_poll_never_works (List.cons_ne_nil _ _) hf hc⟩

end Multi
end Lthr
