import Lthread.Proofs.Deferred

/-! What a worker uses after it has handed an lthread back: the lthread, whose record
names the scheduler, and the scheduler, which it triggers. Both may be gone if the
lthread ends before the trigger. -/

namespace Lthr
namespace World

open Seat

variable {x x' : World} {l : LtId}

/-! The end of the scheduler -/

/-- Where `lthread_run` stands changes in its own loop, and when a round over the ready
queue ends. -/
theorem step_phase {a : Label} (hx : x.step a = .ok x') :
    x'.phase = x.phase ∨ (a = .sched ∧ ∃ last, x.phase = .ready last) ∧ x'.phase = .defer ∨ a = .run ∨
      (∃ evs, a = .poll evs) ∨ a = .sched ∧ x.cpu = .loop ∧ x.lthreadRun = .ok x' := by
  cases step_cases hx with
  | clock | main | ioSignal | leave => exact Or.inl rfl
  | run => exact Or.inr (Or.inr (Or.inl rfl))
  | @poll evs => exact Or.inr (Or.inr (Or.inr (Or.inl ⟨evs, rfl⟩)))
  | loop hcpu hx => exact Or.inr (Or.inr (Or.inr (Or.inr ⟨rfl, hcpu, hx⟩)))
  | back hcpu hx =>
    rcases (lthreadResumeEnd_rest hx).2 with ⟨-, h | h⟩ | ⟨-, h⟩
    · exact Or.inl h
    · exact Or.inr (Or.inl ⟨⟨rfl, h.1⟩, h.2⟩)
    · exact Or.inl h
  | @computeSignal m _ hcpu hx =>
    obtain ⟨j, -, hx⟩ := except_bind_ok hx
    obtain rfl := Except.ok.inj hx
    rcases resumed_phase { x with compute := Function.update x.compute j (x.compute j).signal } m 0 with h | h
    · exact Or.inl h
    · exact Or.inr (Or.inl ⟨⟨rfl, h.1⟩, h.2⟩)
  | call hcpu hx => exact Or.inl (call_frame hx).1
  | io hx =>
    obtain ⟨-, y, -, hcases⟩ := ioAct_cases hx
    rcases hcases with ⟨m, -, -, -, -, -, rfl⟩ | ⟨m, -, -, -, -, rfl⟩ | ⟨-, -, rfl⟩ <;> exact Or.inl rfl
  | compute hx =>
    obtain ⟨-, y, -, hcases⟩ := computeAct_cases hx
    rcases hcases with ⟨m, -, -, -, -, -, rfl⟩ | ⟨m, -, -, -, -, rfl⟩ | ⟨-, -, rfl⟩ | ⟨-, -, -, rfl⟩ <;>
      exact Or.inl rfl

/-- Once the scheduler is freed every lthread has finished. -/
def Over (x : World) : Prop := x.phase = .done → x.cpu = .loop ∧ ∀ l, (x.sched.lt l).ctx = .exited

theorem Inv.isdone (h : x.Inv false) (hcpu : x.cpu = .loop) (hd : x.sched.lthreadSchedIsdone = true) (l : LtId) :
    (x.sched.lt l).ctx = .exited := by
  simp only [Sched.lthreadSchedIsdone, Bool.and_eq_true, List.isEmpty_iff] at hd
  obtain ⟨⟨⟨hwait, hbusy⟩, hsleep⟩, hready⟩ := hd
  by_contra hne
  have hrun : (x.sched.lt l).ctx ≠ .running := by
    intro hr
    have hcpu' : x.cpu = .run l := (h.seated.running l).mp hr
    rw [hcpu] at hcpu'
    cases hcpu'
  have hcov := h.covered (Or.inl hcpu) hrun hne
  simp [hwait, hbusy, hsleep, hready] at hcov

theorem Over.step {a : Label} (h : x.Over) (hi : x.Inv false) (hx : x.step a = .ok x') : x'.Over := by
  intro hd
  rcases step_phase hx with hp | ⟨-, hp⟩ | rfl | ⟨evs, rfl⟩ | ⟨-, hcpu, hrun⟩
  · -- the scheduler is gone already, and only the workers and the clock go on
    rw [hp] at hd
    obtain ⟨hcpu, hall⟩ := h hd
    cases step_cases hx with
    | clock => exact ⟨hcpu, hall⟩
    | main h | run h | poll h => exact absurd (hd.symm.trans h) nofun
    | loop _ hx => exact absurd hx (by simp [lthreadRun, hd])
    | ioSignal h | leave h | back h | computeSignal h | call h => exact absurd (hcpu.symm.trans h) nofun
    | io hx =>
      obtain ⟨-, y, -, hcases⟩ := ioAct_cases hx
      rcases hcases with ⟨m, -, -, -, -, -, rfl⟩ | ⟨m, -, -, -, -, rfl⟩ | ⟨-, -, rfl⟩ <;> exact ⟨hcpu, hall⟩
    | compute hx =>
      obtain ⟨-, y, -, hcases⟩ := computeAct_cases hx
      rcases hcases with ⟨m, -, -, -, -, hdone, rfl⟩ | ⟨m, -, -, -, -, rfl⟩ | ⟨-, -, rfl⟩ | ⟨-, -, -, rfl⟩
      · exact absurd hd hdone
      all_goals exact ⟨hcpu, hall⟩
  · rw [hd] at hp; cases hp
  · cases step_cases hx with
    | run => cases hd
  · obtain ⟨-, -, rfl⟩ := step_poll hx
    cases hd
  · obtain ⟨hdone, hs, hc⟩ := (lthreadRun_rest hrun).done hd
    rw [hs, hc]
    exact ⟨hcpu, hi.isdone hcpu hdone⟩

/-- When `lthread_run` returns, every lthread has finished, and no queue, tree or worker has it. -/
theorem run_returns_finished (h : worldMachine.Reachable undisturbed x) (hd : x.phase = .done) (l : LtId) :
    (x.sched.lt l).ctx = .exited ∧ (x.seat l).cnt = {} := by
  have hover : x.Over := by
    refine Machine.Reachable.invariant_of (P := Over) (fun y hy hp => ?_) (fun y a y' hy ho _ hs => ?_) h
    · obtain ⟨birth, capacity, n, rfl⟩ := hy
      cases hp
    · exact ho.step (Inv.of_undisturbed hy) hs
  have hexit := (hover hd).2 l
  have hrow := (Inv.of_undisturbed h).plain_row l
  rw [hexit] at hrow
  exact ⟨hexit, hrow.of_exited⟩

set_option maxRecDepth 20000 in
/-- The first lthread creates another one, and both end. -/
theorem run_returns_finished_two : ∃ x, worldMachine.Reachable undisturbed x ∧ x.phase = .done ∧
    x.sched.spawned = 2 ∧ (x.sched.lt 1).ctx = .exited ∧ (x.seat 1).cnt = {} := by
  obtain ⟨x, hx, hsee⟩ := exists_after undisturbed
    [.main, .run, .sched, .sched, .sched, .call .create, .call .finish, .sched, .sched, .sched, .sched, .sched, .sched,
      .call .finish, .sched, .sched, .sched, .poll [], .sched, .sched]
    (fun x => (x.phase, x.sched.spawned)) (t := (.done, 2)) (by decide)
  obtain ⟨hd, hn⟩ := Prod.mk.inj hsee
  exact ⟨x, hx, hd, hn, run_returns_finished hx hd 1⟩

/-! The lthreads that have been handed back -/

theorem Inv.step_not_exited {a : Label} (h : x.Inv false) (hok : stepOk false x a) (hx : x.step a = .ok x')
    (hR : ∀ b, ¬ made x a b (.exit l)) (hne : (x.sched.lt l).ctx ≠ .exited) :
    (x'.sched.lt l).ctx ≠ .exited := by
  refine Turns.preserves (P := fun b => (b.seat l).lt.ctx ≠ .exited) (made_cancel hok) (fun b b' ht _ _ hb => ?_)
    (step_turns h hok hx) h.seated hne
  exact ht.not_exited (hR b) hb

theorem made_exit {a : Label} (hok : x.endsTriggered a) (hl : x.Handed l) (b : Board) :
    ¬ made x a b (.exit l) := by
  intro hr
  obtain ⟨hcpu, hends⟩ := made_of_exit hr
  exact hok.2 hends l hcpu hl

theorem Inv.io_working (h : x.Inv false) {w : ℕ} (hw : (x.io w).pc = .working l) :
    ∃ e, (x.sched.lt l).ctx = .ioWait e w := by
  have hcnt : (x.seat l).cnt.io w ≠ 0 := by
    refine count_ne_zero ?_
    unfold IoWorker.jobs
    rw [hw]
    exact List.mem_cons_self
  obtain ⟨e, hctx, -⟩ := (h.row l).of_io hcnt
  exact ⟨e, hctx⟩

theorem Inv.compute_owned (h : x.Inv false) {j : ℕ} (hj : l ∈ (x.compute j).pc.owned) :
    (x.sched.lt l).ctx = .compute j ∧ (x.seat l).cnt = { busy := 1, taken := Pi.single j 1 } :=
  (h.row l).of_taken (count_ne_zero hj)

theorem handed_not_exited (h : worldMachine.Reachable endsTriggered x) :
    ∀ l, x.Handed l → (x.sched.lt l).ctx ≠ .exited := by
  refine Machine.Reachable.invariant_of (P := fun x => ∀ l, x.Handed l → (x.sched.lt l).ctx ≠ .exited)
    (fun y hy l hl => ?_) (fun y a y' hy hP hok hs l hl => ?_) h
  · obtain ⟨birth, capacity, n, rfl⟩ := hy
    rcases hl with ⟨w, -, hw⟩ | ⟨j, -, hj⟩
    · cases hw
    · cases hj
  have hi : y.Inv false := Inv.reachable (hy.mono fun _ _ h => h.1)
  -- a worker comes to the hand-back from its work for the lthread, which waits for it
  rcases step_hands hs hl with hold | ⟨w, rfl, hw⟩ | ⟨j, rfl, hj⟩
  · exact hi.step_not_exited hok.1 hs (made_exit hok hold) (hP l hold)
  · obtain ⟨e, hctx⟩ := hi.io_working hw
    refine hi.step_not_exited hok.1 hs (fun b hb => ?_) (by simp [hctx])
    obtain ⟨m, op, h0, -⟩ := made_call hb (by simp)
    cases h0
  · obtain ⟨hctx, -⟩ := hi.compute_owned (l := l) (j := j) (by rw [hj]; exact List.mem_singleton.mpr rfl)
    refine hi.step_not_exited hok.1 hs (fun b hb => ?_) (by simp [hctx])
    obtain ⟨m, op, h0, -⟩ := made_call hb (by simp)
    cases h0

/-- The lthread that a worker has handed back, and its scheduler, outlive the trigger. -/
theorem trigger_finds_both_alive (h : worldMachine.Reachable endsTriggered x) (hl : x.Handed l) :
    (x.sched.lt l).freed = false ∧ x.phase ≠ .done := by
  have hi : x.Inv false := Inv.reachable (h.mono fun _ _ h => h.1)
  have hne := handed_not_exited h l hl
  constructor
  · refine Bool.eq_false_iff.mpr fun hf => ?_
    rcases hi.seated.links.freed l hf with hx | hc
    · exact hne hx
    · have hnot := hi.not_cancelled l
      rw [show x.sched.has l .cancelled = true from hc] at hnot
      cases hnot
  · intro hd
    have hover : x.Over := by
      refine Machine.Reachable.invariant_of (P := Over) (fun y hy hp => ?_) (fun y a y' hy ho hok hs => ?_) h
      · obtain ⟨birth, capacity, n, rfl⟩ := hy
        cases hp
      · exact ho.step (Inv.reachable (hy.mono fun _ _ h => h.1)) hs
    exact hne ((hover hd).2 l)

set_option maxRecDepth 20000 in
/-- A detached lthread comes back from an io worker, ends and is freed, and the
scheduler runs out of work and is freed, while the worker has still to read `lt->sched`. -/
theorem trigger_finds_both_gone : ∃ x l, worldMachine.Reachable undisturbed x ∧ x.Handed l ∧
    (x.sched.lt l).freed = true ∧ x.phase = .done := by
  obtain ⟨x, hx, hsee⟩ := exists_after undisturbed
    [.main, .run, .sched, .sched, .sched, .call .detach, .call (.io .read), .sched, .sched,
      .io 0 .pop, .io 0 .finish, .sched, .call .finish, .sched, .sched, .sched, .poll [], .sched, .sched]
    (fun x => (decide (x.Handed 0), (x.sched.lt 0).freed, x.phase)) (t := (true, true, .done)) (by decide)
  simp only [Prod.mk.injEq, decide_eq_true_eq] at hsee
  exact ⟨x, 0, hx, hsee⟩

set_option maxRecDepth 20000 in
/-- A detached lthread comes back from an io worker and runs on. -/
theorem trigger_finds_both_alive_resumed : ∃ x, worldMachine.Reachable endsTriggered x ∧ x.cpu = .run 0 ∧
    x.Handed 0 ∧ x.sched.has 0 .detach = true ∧ (x.sched.lt 0).freed = false ∧ x.phase ≠ .done := by
  obtain ⟨x, hx, hsee⟩ := exists_after endsTriggered
    [.main, .run, .sched, .sched, .sched, .call .detach, .call (.io .read), .sched, .sched,
      .io 0 .pop, .io 0 .finish, .sched]
    (fun x => (x.cpu, decide (x.Handed 0), x.sched.has 0 .detach)) (t := (.run 0, true, true)) (by decide)
  simp only [Prod.mk.injEq, decide_eq_true_eq] at hsee
  obtain ⟨hcpu, hl, hd⟩ := hsee
  obtain ⟨hf, hp⟩ := trigger_finds_both_alive hx hl
  exact ⟨x, hx, hcpu, hl, hd, hf, hp⟩

end World
end Lthr
