import Lthread.Proofs.WorldInv
import Lthread.Spec.Runs

/-! Where the lthreads are, in runs of the scheduler with its workers. The invariant of
the board is read back in the words of the program. -/

namespace Lthr
namespace World

open Sched Seat

variable {k : Bool} {x x' z : World} {l : LtId}

theorem undisturbed_stepOk (x : World) (a : Label) (h : x.undisturbed a) : stepOk k x a := by
  cases a with
  | call op =>
    intro l _
    cases op with
    | cancel _ | wakeup _ => exact h.elim
    | schedEvent fd e t => exact h
    | _ => trivial
  | _ => trivial

theorem Inv.of_undisturbed (h : worldMachine.Reachable undisturbed x) : x.Inv k :=
  Inv.reachable (h.mono undisturbed_stepOk)

namespace Inv

theorem ok (h : x.Inv k) (l : LtId) : (x.seat l).Ok k l := h.seated.seats l

theorem row (h : x.Inv k) (l : LtId) : Row k (x.sched.has l .cancelled) (x.sched.lt l).ctx (x.seat l).cnt :=
  (h.ok l).row

theorem not_cancelled (h : x.Inv false) (l : LtId) : x.sched.has l .cancelled = false :=
  Bool.eq_false_iff.mpr fun hc => by cases (h.ok l).cancelled hc

theorem plain_row (h : x.Inv false) (l : LtId) : Row false false (x.sched.lt l).ctx (x.seat l).cnt := by
  have hrow := h.row l
  rwa [h.not_cancelled] at hrow

theorem ready_counts (h : x.Inv false) (hl : l ∈ x.sched.ready) :
    (x.seat l).cnt = { ready := 1 } ∨ (x.seat l).cnt = { busy := 1, ready := 1 } :=
  ((h.plain_row l).of_ready (count_ne_zero hl)).imp And.right And.right

theorem ready_nodup (h : x.Inv false) : x.sched.ready.Nodup := by
  rw [List.nodup_iff_count_eq_one]
  intro l hl
  rcases h.ready_counts hl with hn | hn <;> exact congrArg Counts.ready hn

/-- Without cancellations nobody on the ready queue is inserted again. -/
theorem step_eq (h : x.Inv false) {a : Label} (hok : stepOk false x a) : x.step a = x.advance a := by
  unfold World.step
  cases hx : x.advance a with
  | error f => rfl
  | ok x' => exact if_pos (h.advance hok (advance_cases hx)).ready_nodup

theorem sleeping (h : x.Inv k) (l : LtId) : x.sched.has l .sleeping = true ↔ l ∈ x.sched.sleeping :=
  (h.ok l).sleeping.trans ⟨mem_of_count, count_ne_zero⟩

/-- A member of the waiting tree is suspended with the key it has registered. -/
theorem waiting (h : x.Inv k) (hl : l ∈ x.sched.waiting) :
    ∃ fd e t, (x.sched.lt l).ctx = .schedEvent fd e t ∧ (x.sched.lt l).fdWait = fdKey fd e := by
  rcases (h.ok l).key with hkey | hkey
  · exact absurd hkey ((h.ok l).waiting (count_ne_zero hl))
  · exact hkey

theorem runs (h : x.Inv k) (hcpu : x.cpu = .run l) : (x.seat l).cnt = {} :=
  (h.seated.current hcpu).1.cnt

/-- Nobody is between `lthread_compute_begin` and `_lthread_compute_add` while the loop
or an lthread runs. -/
theorem not_pending (h : x.Inv k) (hcpu : x.cpu = .loop ∨ ∃ m, x.cpu = .run m) (l : LtId) :
    x.sched.has l .pendingRuncompute = false := by
  refine Bool.eq_false_iff.mpr fun hp => ?_
  rcases h.seated.pending l hp with h1 | h1 <;> rw [board_cpu] at h1 <;>
    rcases hcpu with h2 | ⟨m, h2⟩ <;> rw [h2] at h1 <;> cases h1

/-- A suspended lthread that has not finished is where `_lthread_sched_isdone` looks. -/
theorem covered (h : x.Inv false) (hcpu : x.cpu = .loop ∨ ∃ m, x.cpu = .run m)
    (hr : (x.sched.lt l).ctx ≠ .running) (he : (x.sched.lt l).ctx ≠ .exited) :
    l ∈ x.sched.ready ∨ l ∈ x.sched.sleeping ∨ l ∈ x.sched.waiting ∨ l ∈ x.sched.busy := by
  rcases (h.plain_row l).covered hr he with h1 | h1 | h1 | h1 | h1
  · exact Or.inl (mem_of_count h1)
  · exact Or.inr (Or.inl (mem_of_count h1))
  · exact Or.inr (Or.inr (Or.inl (mem_of_count h1)))
  · exact Or.inr (Or.inr (Or.inr (mem_of_count h1)))
  · have hp : x.sched.has l .pendingRuncompute = true := (h.ok l).pending.mpr h1
    rw [h.not_pending hcpu l] at hp
    cases hp

theorem resumeExpired_cases (h : x.Inv k) (hl : l ∈ x.sched.sleeping) (hx : x.resumeExpired l = .ok x') :
    ∃ y z, x.lthreadCancelEvent l = .ok y ∧ z = (y.onSched fun s => (s.lthreadDeschedSleep l).setBit l .expired) ∧
      (x.seat l).Expires (z.seat l) ∧ z.lthreadResume l = .ok x' := by
  unfold resumeExpired at hx
  obtain ⟨y, hy, hx⟩ := except_bind_ok hx
  obtain ⟨w, hw, hacts⟩ := expired_acts h.seated hl hy
  refine ⟨y, _, hy, rfl, ?_, hx⟩
  rw [hacts.self]
  exact hw

theorem expired_bits {z : World} (h : x.Inv k) (hl : l ∈ x.sched.sleeping) (hw : (x.seat l).Expires (z.seat l)) :
    (z.sched.lt l).ctx = (x.sched.lt l).ctx ∧ ((x.sched.lt l).ctx ≠ .start → z.sched.has l .new = false) ∧
      z.sched.has l .cancelled = false ∧ z.sched.has l .expired = true := by
  have hbit {b : LtSt} (hs : b ≠ .sleeping) (hf : b.free = false) (hb : ∀ e, b ≠ waitBit e) :
      z.sched.has l b = x.sched.has l b := hw.bits b hs hf hb
  refine ⟨hw.ctx, fun hstart => ?_, ?_, hw.expired⟩
  · rw [hbit (by simp) rfl (by intro e; cases e <;> simp [waitBit])]
    exact Bool.eq_false_iff.mpr fun h0 => hstart ((h.ok l).new.mp h0)
  · rw [hbit (by simp) rfl (by intro e; cases e <;> simp [waitBit])]
    exact ((h.row l).of_sleeping (count_ne_zero hl)).1

end Inv

/-! Whom the loop of `lthread_run` resumes, and where it has found them -/

/-- The loop has taken `l` from where it found it, and resumes it next. -/
inductive Taken (x : World) (l : LtId) : World → Prop
  | expire {t : ℕ} {y : World} (hp : x.phase = .expired t) (hmin : x.sched.sleepMin = some l)
      (hd : (x.sched.lt l).sleepUsecs ≤ t) (hy : x.lthreadCancelEvent l = .ok y) :
      Taken x l (y.onSched fun s => (s.lthreadDeschedSleep l).setBit l .expired)
  | pop {last : Option LtId} {rest : List LtId} (hp : x.phase = .ready last) (hr : x.sched.ready = l :: rest) :
      Taken x l (x.onSched fun s => { s with ready := rest })
  | deferPop {rest : List LtId} (hp : x.phase = .defer) (hr : x.sched.defer = l :: rest) :
      Taken x l (x.onSched fun s => { s with defer := rest, busy := s.busy.erase l })
  | event {s : Sched} {eof : Bool} {ph : Phase} (hl : l ∈ x.sched.waiting)
      (hm : Moves x.sched s l (deschedSleep ∘ dropWaiting)) :
      Taken x l { x.onSched (fun _ => if eof then s.setBit l .fdeof else s) with phase := ph }

theorem Taken.acts (h : x.board.Seated k) (ht : Taken x l z) :
    ∃ t : Take, t.Finds (x.seat l) ∧ ActsAt x.seat z.seat l t.act := by
  cases ht with
  | @expire t y hp hmin hd hy =>
    have hl : l ∈ x.sched.sleeping := List.argmin_mem hmin
    obtain ⟨w, hw, hm⟩ := expired_acts h hl hy
    exact ⟨.expired w, ⟨count_ne_zero hl, hw⟩, hm⟩
  | pop hp hr =>
    refine ⟨.ready, ?_, readyPop_moves x.sched l hr x.io x.compute⟩
    exact count_ne_zero (by rw [hr]; exact List.mem_cons_self)
  | deferPop hp hr =>
    refine ⟨.defer, ?_, (deferPop_moves x.sched l hr).trans (busyErase_moves _ l) x.io x.compute⟩
    exact count_ne_zero (by rw [hr]; exact List.mem_cons_self)
  | @event s eof ph hl hm =>
    refine ⟨.event eof, count_ne_zero hl, ?_⟩
    cases eof with
    | false => exact (hm x.io x.compute).congr rfl
    | true => exact ((hm.trans (setBit_moves s l .fdeof)) x.io x.compute).congr rfl

theorem Taken.dropped (ht : Taken x l z) : z.dropped = x.dropped := by
  cases ht with
  | expire hp hmin hd hy => exact (lthreadCancelEvent_frame hy).2.2.1
  | _ => rfl

theorem Taken.cancelled (h : x.Inv k) (ht : Taken x l z) (hc : x.sched.has l .cancelled = false) :
    z.sched.has l .cancelled = false := by
  obtain ⟨t, hfind, hacts⟩ := ht.acts h.seated
  have hleaves := Leaves.of_take (h.ok l) hc hfind
  rw [← hacts.self] at hleaves
  exact hleaves.cancelled

/-- A round of the loop resumes an lthread, or goes on to the next part of the loop. -/
theorem lthreadRun_taken (hx : x.lthreadRun = .ok x') :
    (∃ ph n, x' = { x with phase := ph, eventfd := n }) ∨ ∃ l z, Taken x l z ∧ z.lthreadResume l = .ok x' := by
  have hev {fd : Fd} {e : LtEvent} {eof : Bool} {next : Bool → Except Fault Phase}
      (hx : x.handleEv fd e eof next = .ok x') :
      (∃ ph n, x' = { x with phase := ph, eventfd := n }) ∨ ∃ l z, Taken x l z ∧ z.lthreadResume l = .ok x' := by
    rcases handleEv_cases hx with ⟨ph, -, -, rfl⟩ | ⟨ph, m, s, -, -, hm, -, hmoves, -, hx⟩
    · exact Or.inl ⟨ph, x.eventfd, rfl⟩
    · exact Or.inr ⟨m, _, .event hm hmoves, hx⟩
  cases lthreadRun_round hx with
  | expire hp hmin hd hx =>
    obtain ⟨y, hy, hx⟩ := except_bind_ok hx
    exact Or.inr ⟨_, _, .expire hp hmin hd hy, hx⟩
  | pop hp hr hx => exact Or.inr ⟨_, _, .pop hp hr, hx⟩
  | deferPop hp hr hx => exact Or.inr ⟨_, _, .deferPop hp hr, hx⟩
  | read hp hx => exact hev hx
  | write hp hx => exact hev hx
  | trigger hp => exact Or.inl ⟨_, 0, rfl⟩
  | _ => exact Or.inl ⟨_, x.eventfd, rfl⟩

/-- The placement invariant of the scheduler. That the ready queue holds nobody twice is not owed
to the end of the runs at `Fault.relinked`, which no step comes to. -/
theorem scheduler_placement (h : worldMachine.Reachable undisturbed x) :
    x.sched.ready.Nodup ∧
    (∀ l ∈ x.sched.ready, l ∉ x.sched.sleeping ∧ l ∉ x.sched.waiting) ∧
    (∀ l, x.sched.has l .sleeping = true ↔ l ∈ x.sched.sleeping) ∧
    (∀ l ∈ x.sched.waiting,
      ∃ fd e t, (x.sched.lt l).ctx = .schedEvent fd e t ∧ (x.sched.lt l).fdWait = fdKey fd e) ∧
    (∀ l, x.cpu = .run l → l ∉ x.sched.ready ∧ l ∉ x.sched.sleeping ∧ l ∉ x.sched.waiting) ∧
    ((x.cpu = .loop ∨ ∃ m, x.cpu = .run m) → ∀ l, (x.sched.lt l).ctx ≠ .running →
      (x.sched.lt l).ctx ≠ .exited →
      l ∈ x.sched.ready ∨ l ∈ x.sched.sleeping ∨ l ∈ x.sched.waiting ∨ l ∈ x.sched.busy) ∧
    ∀ a, x.undisturbed a → x.step a = x.advance a := by
  have hi : x.Inv false := Inv.of_undisturbed h
  refine ⟨hi.ready_nodup, fun l hl => ?_, hi.sleeping, fun l hl => hi.waiting hl, fun l hcpu => ?_,
    fun hcpu l hr he => hi.covered hcpu hr he, fun a ha => hi.step_eq (undisturbed_stepOk x a ha)⟩
  · have hs : (x.seat l).cnt.sleeping = 0 ∧ (x.seat l).cnt.waiting = 0 := by
      rcases hi.ready_counts hl with hc | hc <;> rw [hc] <;> exact ⟨rfl, rfl⟩
    exact ⟨List.count_eq_zero.mp hs.1, List.count_eq_zero.mp hs.2⟩
  · have hc := hi.runs hcpu
    have hs : (x.seat l).cnt.ready = 0 ∧ (x.seat l).cnt.sleeping = 0 ∧ (x.seat l).cnt.waiting = 0 := by
      rw [hc]; exact ⟨rfl, rfl, rfl⟩
    exact ⟨List.count_eq_zero.mp hs.1, List.count_eq_zero.mp hs.2.1, List.count_eq_zero.mp hs.2.2⟩

set_option maxRecDepth 20000 in
/-- One lthread sleeps, one waits for a descriptor, one runs and one is ready. -/
theorem scheduler_placement_fourLthreads : ∃ x, worldMachine.Reachable undisturbed x ∧ x.cpu = .run 2 ∧
    x.sched.ready = [3] ∧ x.sched.sleeping = [1, 0] ∧ x.sched.waiting = [1] ∧ x.sched.ready.Nodup ∧
    (2 ∉ x.sched.ready ∧ 2 ∉ x.sched.sleeping ∧ 2 ∉ x.sched.waiting) := by
  obtain ⟨x, hx, hsee⟩ := exists_after undisturbed
    [.main, .main, .main, .main, .run, .sched, .sched, .sched, .call (.sleep 10), .sched, .sched,
      .call (.schedEvent 5 .read 20), .sched, .sched]
    (fun x => (x.cpu, x.sched.ready, x.sched.sleeping, x.sched.waiting))
    (t := (.run 2, [3], [1, 0], [1])) (by decide)
  simp only [Prod.mk.injEq] at hsee
  obtain ⟨hcpu, hready, hsleep, hwait⟩ := hsee
  obtain ⟨hnodup, -, -, -, hrun, -⟩ := scheduler_placement hx
  exact ⟨x, hx, hcpu, hready, hsleep, hwait, hnodup, hrun 2 hcpu⟩

end World
end Lthr
