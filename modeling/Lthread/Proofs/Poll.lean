import Lthread.Proofs.Placement

/-! The time that `_lthread_poll` asks the poller to wait for. -/

namespace Lthr
namespace Sched

variable {s : Sched} {l : LtId}

theorem lthreadMinTimeout_le (h : 0 < s.lthreadMinTimeout) (hl : l ∈ s.sleeping) :
    lthreadDiffUsecs s.birth s.usecNow + s.lthreadMinTimeout ≤ (s.lt l).sleepUsecs := by
  unfold lthreadMinTimeout at h ⊢
  cases hmin : s.sleepMin with
  | none =>
    rw [List.argmin_eq_none.mp hmin] at hl
    exact absurd hl List.not_mem_nil
  | some m =>
    simp only [hmin] at h ⊢
    have hle : (s.lt m).sleepUsecs ≤ (s.lt l).sleepUsecs :=
      List.le_of_mem_argmin (f := fun l => (s.lt l).sleepUsecs) hl hmin
    omega

theorem lthreadPoll_some (hu : 0 < s.lthreadMinTimeout) (hr : s.ready = []) :
    ∃ t, s.lthreadPoll = some t ∧ t.tvSec = s.lthreadMinTimeout / 1000000 ∧ t.tvNsec =
      if 1000000 ≤ s.lthreadMinTimeout then s.lthreadMinTimeout % 1000 * 1000000
      else s.lthreadMinTimeout * 1000 := by
  refine ⟨_, if_pos ⟨hu.ne', hr⟩, rfl, ?_⟩
  by_cases hs : 1000000 ≤ s.lthreadMinTimeout
  · have hsec : s.lthreadMinTimeout / 1000000 ≠ 0 := by omega
    rw [if_pos hs]
    simp only [if_pos hsec]
    apply Nat.mod_eq_of_lt
    unfold u64
    omega
  · have hsec : ¬ s.lthreadMinTimeout / 1000000 ≠ 0 := by omega
    rw [if_neg hs]
    simp only [if_neg hsec]
    apply Nat.mod_eq_of_lt
    unfold u64
    omega

end Sched

namespace World

variable {x : World}

/-- The poller gets the exact timeout, and so is not asked to wait past a deadline, below one
second and for whole seconds only. -/
theorem poll_timeout_exact (hcpu : x.cpu = .loop) (hp : x.phase = .poll) (hr : x.sched.ready = [])
    (hu : 0 < x.sched.lthreadMinTimeout) :
    x.step .sched = .ok { x with phase := .polling } ∧ ∃ t, x.sched.lthreadPoll = some t ∧
      ((t.tvNsec < 1000000000 ∧ t.nsecs = 1000 * x.sched.lthreadMinTimeout ∧ ∀ l ∈ x.sched.sleeping,
          1000 * lthreadDiffUsecs x.sched.birth x.sched.usecNow + t.nsecs ≤ 1000 * (x.sched.lt l).sleepUsecs) ↔
        x.sched.lthreadMinTimeout < 1000000 ∨ 1000000 ∣ x.sched.lthreadMinTimeout) := by
  constructor
  · refine step_ok.mpr ⟨?_, hr ▸ List.nodup_nil⟩
    rw [advance_loop hcpu]
    unfold lthreadRun
    rw [hp]
    exact if_pos (And.intro hu.ne' hr)
  obtain ⟨t, ht, hsec, hnsec⟩ := Sched.lthreadPoll_some hu hr
  refine ⟨t, ht, fun ⟨_, hexact, _⟩ => ?_, fun hs => ?_⟩
  · unfold Timespec.nsecs at hexact
    rw [hsec, hnsec] at hexact
    split_ifs at hexact with hle
    · right; omega
    · left; omega
  · have hexact : t.tvNsec < 1000000000 ∧ t.nsecs = 1000 * x.sched.lthreadMinTimeout := by
      unfold Timespec.nsecs
      rw [hsec, hnsec]
      split_ifs with hle <;> omega
    refine ⟨hexact.1, hexact.2, fun l hl => ?_⟩
    have := Sched.lthreadMinTimeout_le hu hl
    rw [hexact.2]
    omega

set_option maxRecDepth 20000 in
/-- An lthread sleeps for 1001 ms; a microsecond later the poller is asked to wait for
1.999 s. -/
theorem poll_waits_past_deadline : ∃ x t, worldMachine.Reachable undisturbed x ∧ x.cpu = .loop ∧ x.phase = .poll ∧
    x.sched.ready = [] ∧ x.sched.lthreadMinTimeout = 1000999 ∧ x.sched.lthreadPoll = some t ∧
    t.nsecs = 1999000000 ∧ ∃ l ∈ x.sched.sleeping,
      1000 * (x.sched.lt l).sleepUsecs < 1000 * lthreadDiffUsecs x.sched.birth x.sched.usecNow + t.nsecs := by
  obtain ⟨x, hx, hsee⟩ := exists_after undisturbed
    [.main, .run, .sched, .sched, .sched, .call (.sleep 1001), .sched, .sched, .clock 1]
    (fun x => decide ((x.cpu = .loop ∧ x.phase = .poll ∧ x.sched.ready = [] ∧ x.sched.lthreadMinTimeout = 1000999) ∧
      x.sched.lthreadPoll = some ⟨1, 999000000⟩ ∧ 0 ∈ x.sched.sleeping ∧ (x.sched.lt 0).sleepUsecs = 1001000 ∧
        lthreadDiffUsecs x.sched.birth x.sched.usecNow = 1)) (t := true) (by decide)
  obtain ⟨⟨hcpu, hp, hr, hm⟩, ht, hl, hd, hnow⟩ := of_decide_eq_true hsee
  refine ⟨x, _, hx, hcpu, hp, hr, hm, ht, rfl, 0, hl, ?_⟩
  rw [hd, hnow]
  decide

set_option maxRecDepth 20000 in
/-- An lthread sleeps for 2 s. -/
theorem poll_timeout_exact_two : ∃ x t, worldMachine.Reachable undisturbed x ∧ x.sched.sleeping = [0] ∧
    x.sched.lthreadPoll = some t ∧ t.nsecs = 2000000000 := by
  obtain ⟨x, hx, hsee⟩ := exists_after undisturbed
    [.main, .run, .sched, .sched, .sched, .call (.sleep 2000), .sched, .sched]
    (fun x => decide (x.cpu = .loop ∧ x.phase = .poll ∧ x.sched.ready = [] ∧ x.sched.sleeping = [0] ∧
      x.sched.lthreadMinTimeout = 2000000)) (t := true) (by decide)
  obtain ⟨hcpu, hp, hr, hl, hm⟩ := of_decide_eq_true hsee
  obtain ⟨-, t, ht, hexact⟩ := poll_timeout_exact hcpu hp hr (by rw [hm]; decide)
  obtain ⟨-, hn, -⟩ := hexact.mpr (by rw [hm]; decide)
  refine ⟨x, t, hx, hl, ht, ?_⟩
  rw [hn, hm]

end World
end Lthr
