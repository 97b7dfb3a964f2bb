import Lthread.Proofs.Placement

/-! The way back from the workers: a worker appends the lthread to the defer queue and
writes the eventfd afterwards, while the scheduler drains the queue, sleeps in the
poller and clears the eventfd. -/

namespace Lthr

theorem IoWorker.act_handed {y y' : IoWorker} {a : WorkerAct} {l : LtId} (h : y.act a = some y')
    (hf : a ≠ .finish) (ht : a ≠ .trigger) : y'.pc ≠ .handed l ∧ y.pc ≠ .handed l := by
  unfold IoWorker.act at h
  cases a with
  | pop =>
    simp only at h
    split_ifs at h with hpc
    obtain rfl := Option.some_inj.mp h
    refine ⟨?_, by simp [hpc]⟩
    unfold IoWorker.pop
    cases y.lthreads <;> simp
  | finish => exact absurd rfl hf
  | trigger => exact absurd rfl ht
  | wait | spurious =>
    simp only at h
    split_ifs at h with hpc
    obtain rfl := Option.some_inj.mp h
    simp [hpc]

theorem ComputeSched.act_handed {y y' : ComputeSched} {pending : LtId → Bool} {a : ComputeAct} {l : LtId}
    (h : y.act pending a = some y') (hf : a ≠ .finish) (ht : a ≠ .trigger) :
    y'.pc ≠ .handed l ∧ y.pc ≠ .handed l := by
  unfold ComputeSched.act at h
  cases a with
  | pop =>
    simp only at h
    split_ifs at h with hpc
    obtain rfl := Option.some_inj.mp h
    refine ⟨?_, by simp [hpc]⟩
    rcases ComputeSched.pop_cases y pending with ⟨-, heq⟩ | ⟨-, heq⟩ | ⟨m, rest, -, -, heq⟩
    · rw [heq]; simp
    · rw [heq]; simp [hpc]
    · rw [heq]; simp
  | start | stop =>
    simp only at h
    split at h
    · next m hpc =>
      obtain rfl := Option.some_inj.mp h
      simp [hpc]
    · cases h
  | finish => exact absurd rfl hf
  | trigger => exact absurd rfl ht
  | wait | spurious | timeout =>
    simp only at h
    split_ifs at h with hpc
    obtain rfl := Option.some_inj.mp h
    simp [hpc]
  | leave =>
    simp only at h
    split_ifs at h with hpc
    all_goals
      obtain rfl := Option.some_inj.mp h
      simp [hpc]

namespace World

open Sched Seat

variable {k : Bool} {x x' : World} {l : LtId}

theorem Handed.congr (hio : ∀ w, (x'.io w).pc = .handed l ↔ (x.io w).pc = .handed l)
    (hn : x'.ioWorkers = x.ioWorkers)
    (hcomp : ∀ j, j < x'.computeCount ∧ (x'.compute j).pc = .handed l ↔
      j < x.computeCount ∧ (x.compute j).pc = .handed l) : x'.Handed l ↔ x.Handed l := by
  unfold Handed
  rw [hn]
  exact or_congr (exists_congr fun w => and_congr_right fun _ => hio w) (exists_congr hcomp)

theorem Handed.rest (h : Rest x x') : x'.Handed l ↔ x.Handed l := by
  refine Handed.congr (fun w => ?_) h.ioWorkers fun j => ?_
  · rw [h.io]
  · rw [h.compute, h.computeCount]

theorem ioSignal_handed (y : IoWorker) (m : LtId) : (y.signal m).pc = .handed l ↔ y.pc = .handed l := by
  unfold IoWorker.signal
  by_cases hp : y.pc = .parked <;> simp [hp]

theorem computeSignal_handed (y : ComputeSched) : y.signal.pc = .handed l ↔ y.pc = .handed l := by
  unfold ComputeSched.signal
  by_cases hp : y.pc = .parked <;> simp [hp]

theorem computeEnqueue_handed (m : LtId) (j : ℕ) : (x.computeEnqueue m j).Handed l ↔ x.Handed l := by
  refine Handed.congr (fun w => Iff.rfl) rfl fun i => ?_
  change i < x.computeCount ∧ (Function.update x.compute j
    { x.compute j with lthreads := (x.compute j).lthreads ++ [m] } i).pc = _ ↔ _
  by_cases hij : i = j
  · subst hij; rw [Function.update_self]
  · rw [Function.update_of_ne hij]

theorem call_handed {m : LtId} {op : Op} (hx : x.call m op = .ok x') : x'.Handed l ↔ x.Handed l := by
  by_cases hio : ∃ e, op = .io e
  · obtain ⟨e, rfl⟩ := hio
    obtain rfl := Except.ok.inj hx
    refine Handed.congr (fun w => ?_) rfl fun j => Iff.rfl
    change (Function.update x.io x.ioSelector ((x.io x.ioSelector).insert m) w).pc = _ ↔ _
    by_cases hw : w = x.ioSelector
    · subst hw; rw [Function.update_self]; rfl
    · rw [Function.update_of_ne hw]
  by_cases hcomp : ∃ c, op = .computeBegin c
  · obtain ⟨c, rfl⟩ := hcomp
    obtain rfl := Except.ok.inj hx
    rcases lthreadComputeBegin_cases x m c with heq | ⟨j, -, heq⟩ | heq
    · rw [heq]; exact Iff.rfl
    · rw [heq]; exact computeEnqueue_handed m j
    · rw [heq, computeEnqueue_handed]
      -- the new compute scheduler has handed nobody back
      refine Handed.congr (fun w => Iff.rfl) rfl fun j => ?_
      change j < x.computeCount + 1 ∧ (Function.update x.compute x.computeCount ComputeSched.init j).pc = _ ↔ _
      by_cases hj : j = x.computeCount
      · subst hj; simp [ComputeSched.init]
      · rw [Function.update_of_ne hj]
        have hlt : j < x.computeCount + 1 ↔ j < x.computeCount := by omega
        rw [hlt]
  · exact Handed.rest (call_rest hx (fun e he => hio ⟨e, he⟩) fun c hc => hcomp ⟨c, hc⟩)

/-- No step of the scheduler's thread moves a worker to or from a hand-back. -/
theorem sched_handed {a : Label} (hx : x.advance a = .ok x') (hio : ∀ w b, a ≠ .io w b)
    (hcomp : ∀ j b, a ≠ .compute j b) : x'.Handed l ↔ x.Handed l := by
  cases advance_cases hx with
  | clock | main | run | poll | leave => exact Iff.rfl
  | loop hcpu hx =>
    have hr := lthreadRun_rest hx
    refine Handed.congr (fun w => ?_) hr.ioWorkers fun j => ?_
    · rw [hr.io]
    · rw [hr.compute, hr.computeCount]
  | @ioSignal m w =>
    refine Handed.congr (fun v => ?_) rfl fun j => Iff.rfl
    change (Function.update x.io w ((x.io w).signal m) v).pc = _ ↔ _
    by_cases hv : v = w
    · subst hv; rw [Function.update_self]; exact ioSignal_handed _ m
    · rw [Function.update_of_ne hv]
  | back hcpu hx => exact Handed.rest (lthreadResumeEnd_rest hx).1
  | @computeSignal m _ hcpu hx =>
    obtain ⟨j, -, hx⟩ := except_bind_ok hx
    obtain rfl := Except.ok.inj hx
    rw [Handed.rest (resumed_rest _ m 0)]
    refine Handed.congr (fun v => Iff.rfl) rfl fun i => ?_
    change i < x.computeCount ∧ (Function.update x.compute j (x.compute j).signal i).pc = _ ↔ _
    by_cases hij : i = j
    · subst hij; rw [Function.update_self, computeSignal_handed]
    · rw [Function.update_of_ne hij]
  | call hcpu hx => exact call_handed hx
  | io => exact absurd rfl (hio _ _)
  | compute => exact absurd rfl (hcomp _ _)

theorem advance_triggers {a : Label} (hx : x.advance a = .ok x') (h : x.Handed l) :
    x'.Handed l ∨ 0 < x'.eventfd := by
  by_cases hio : ∃ w b, a = .io w b
  · obtain ⟨w, b, rfl⟩ := hio
    obtain ⟨hw, y, hy, hcases⟩ := ioAct_cases hx
    -- another worker is not concerned
    have hkeep {z : World} (hz : z.io = Function.update x.io w y) (hn : z.ioWorkers = x.ioWorkers)
        (hc : z.compute = x.compute) (hm : z.computeCount = x.computeCount) (hpc : (x.io w).pc ≠ .handed l) :
        z.Handed l := by
      rcases h with ⟨v, hv, hpv⟩ | ⟨j, hj, hpj⟩
      · refine Or.inl ⟨v, hn ▸ hv, ?_⟩
        have hvw : v ≠ w := by rintro rfl; exact hpc hpv
        rw [hz, Function.update_of_ne hvw]
        exact hpv
      · exact Or.inr ⟨j, hm ▸ hj, hc ▸ hpj⟩
    rcases hcases with ⟨m, -, hpc, -, -, -, rfl⟩ | ⟨m, -, -, -, -, rfl⟩ | ⟨hf, ht, rfl⟩
    · exact Or.inl (hkeep rfl rfl rfl rfl (by simp [hpc]))
    · exact Or.inr (Nat.succ_pos _)
    · exact Or.inl (hkeep rfl rfl rfl rfl (IoWorker.act_handed hy hf ht).2)
  by_cases hcomp : ∃ j b, a = .compute j b
  · obtain ⟨j, b, rfl⟩ := hcomp
    obtain ⟨hj, y, hy, hcases⟩ := computeAct_cases hx
    have hkeep {z : World} (hz : z.compute = Function.update x.compute j y) (hn : z.ioWorkers = x.ioWorkers)
        (hc : z.io = x.io) (hm : z.computeCount = x.computeCount) (hpc : (x.compute j).pc ≠ .handed l) :
        z.Handed l := by
      rcases h with ⟨v, hv, hpv⟩ | ⟨i, hi, hpi⟩
      · exact Or.inl ⟨v, hn ▸ hv, hc ▸ hpv⟩
      · refine Or.inr ⟨i, hm ▸ hi, ?_⟩
        have hij : i ≠ j := by rintro rfl; exact hpc hpi
        rw [hz, Function.update_of_ne hij]
        exact hpi
    rcases hcases with ⟨m, -, hpc, -, -, -, rfl⟩ | ⟨m, -, -, -, -, rfl⟩ | ⟨rfl, -, rfl⟩ | ⟨hf, ht, -, rfl⟩
    · exact Or.inl (hkeep rfl rfl rfl rfl (by simp [hpc]))
    · exact Or.inr (Nat.succ_pos _)
    · exact Or.inl (hkeep rfl rfl rfl rfl (ComputeSched.act_handed hy (by simp) (by simp)).2)
    · exact Or.inl (hkeep rfl rfl rfl rfl (ComputeSched.act_handed hy hf ht).2)
  · refine Or.inl ((sched_handed hx (fun w b hb => hio ⟨w, b, hb⟩) fun j b hb => hcomp ⟨j, b, hb⟩).mpr h)

theorem step_hands {a : Label} (hx : x.step a = .ok x') (h : x'.Handed l) :
    x.Handed l ∨ (∃ w, a = .io w .finish ∧ (x.io w).pc = .working l) ∨
      ∃ j, a = .compute j .finish ∧ (x.compute j).pc = .ended l := by
  by_cases hio : ∃ w b, a = .io w b
  · obtain ⟨w, b, rfl⟩ := hio
    obtain ⟨hw, y, hy, hcases⟩ := ioAct_cases (step_advance hx)
    have hback {z : World} (h : z.Handed l) (hz : z.io = Function.update x.io w y)
        (hn : z.ioWorkers = x.ioWorkers) (hc : z.compute = x.compute) (hm : z.computeCount = x.computeCount)
        (hpc : y.pc ≠ .handed l) : x.Handed l := by
      rcases h with ⟨v, hv, hpv⟩ | ⟨j, hj, hpj⟩
      · have hvw : v ≠ w := by
          rintro rfl
          rw [hz, Function.update_self] at hpv
          exact hpc hpv
        rw [hz, Function.update_of_ne hvw] at hpv
        exact Or.inl ⟨v, hn ▸ hv, hpv⟩
      · exact Or.inr ⟨j, hm ▸ hj, hc ▸ hpj⟩
    rcases hcases with ⟨m, rfl, hpc, rfl, -, -, rfl⟩ | ⟨m, rfl, hpc, -, -, rfl⟩ | ⟨hf, ht, rfl⟩
    · by_cases hml : m = l
      · subst hml; exact Or.inr (Or.inl ⟨w, rfl, hpc⟩)
      · exact Or.inl (hback h rfl rfl rfl rfl (by simp [hml]))
    · refine Or.inl (hback h rfl rfl rfl rfl ?_)
      simp only [IoWorker.act, hpc] at hy
      rw [← Option.some_inj.mp hy]
      simp
    · exact Or.inl (hback h rfl rfl rfl rfl (IoWorker.act_handed hy hf ht).1)
  by_cases hcomp : ∃ j b, a = .compute j b
  · obtain ⟨j, b, rfl⟩ := hcomp
    obtain ⟨hj, y, hy, hcases⟩ := computeAct_cases (step_advance hx)
    have hback {z : World} (h : z.Handed l) (hz : z.compute = Function.update x.compute j y)
        (hn : z.ioWorkers = x.ioWorkers) (hc : z.io = x.io) (hm : z.computeCount = x.computeCount)
        (hpc : y.pc ≠ .handed l) : x.Handed l := by
      rcases h with ⟨v, hv, hpv⟩ | ⟨i, hi, hpi⟩
      · exact Or.inl ⟨v, hn ▸ hv, hc ▸ hpv⟩
      · have hij : i ≠ j := by
          rintro rfl
          rw [hz, Function.update_self] at hpi
          exact hpc hpi
        rw [hz, Function.update_of_ne hij] at hpi
        exact Or.inr ⟨i, hm ▸ hi, hpi⟩
    rcases hcases with ⟨m, rfl, hpc, rfl, -, -, rfl⟩ | ⟨m, rfl, hpc, -, -, rfl⟩ | ⟨rfl, hpc, rfl⟩ | ⟨hf, ht, -, rfl⟩
    · by_cases hml : m = l
      · subst hml; exact Or.inr (Or.inr ⟨j, rfl, hpc⟩)
      · exact Or.inl (hback h rfl rfl rfl rfl (by simp [hml]))
    · refine Or.inl (hback h rfl rfl rfl rfl ?_)
      simp only [ComputeSched.act, hpc] at hy
      rw [← Option.some_inj.mp hy]
      simp
    · exact Or.inl (hback h rfl rfl rfl rfl (by simp [hpc]))
    · exact Or.inl (hback h rfl rfl rfl rfl (ComputeSched.act_handed hy hf ht).1)
  · exact Or.inl ((sched_handed (step_advance hx) (fun w b hb => hio ⟨w, b, hb⟩) fun j b hb => hcomp ⟨j, b, hb⟩).mp h)

/-! The scheduler at the poller -/

/-- Deferred work is announced, or about to be, while the scheduler is at the poller. -/
def Announced (x : World) : Prop :=
  x.phase = .poll ∨ x.phase = .polling → x.sched.defer ≠ [] → 0 < x.eventfd ∨ ∃ l, x.Handed l

/-- A step that keeps the defer queue and the eventfd, and does not come to the poller. -/
theorem Announced.keep (h : x.Announced) (hp : x'.phase = .poll ∨ x'.phase = .polling →
      x.phase = .poll ∨ x.phase = .polling) (hd : x'.sched.defer = x.sched.defer)
    (he : x'.eventfd = x.eventfd) (hh : ∀ l, x.Handed l → x'.Handed l) : x'.Announced := by
  intro hp' hne
  rw [hd] at hne
  rw [he]
  exact (h (hp hp') hne).imp id fun ⟨l, hl⟩ => ⟨l, hh l hl⟩

theorem Announced.advance {a : Label} (h : x.Announced) (hx : x.advance a = .ok x') : x'.Announced := by
  have hsched (hio : ∀ w b, a ≠ .io w b) (hcomp : ∀ j b, a ≠ .compute j b) (l : LtId) (hl : x.Handed l) :
      x'.Handed l := (sched_handed hx hio hcomp).mpr hl
  have hworker (hph : x'.phase = x.phase) (hne : x.eventfd ≤ x'.eventfd)
      (hd : x'.sched.defer = x.sched.defer ∨ ∃ l, x'.Handed l) : x'.Announced := by
    intro hp hdef
    rcases hd with hd | hd
    · rw [hd] at hdef
      rcases h (hph ▸ hp) hdef with he | ⟨l, hl⟩
      · exact Or.inl (lt_of_lt_of_le he hne)
      · rcases advance_triggers hx hl with h1 | h1
        · exact Or.inr ⟨l, h1⟩
        · exact Or.inl h1
    · exact Or.inr hd
  cases advance_cases hx with
  | clock | main | ioSignal | leave => exact h.keep id rfl rfl (hsched (by simp) (by simp))
  | run | poll => rintro (hp | hp) <;> cases hp
  | loop hcpu hx =>
    have hh := hsched (by simp) (by simp)
    have hr := lthreadRun_rest hx
    rintro (hp | hp) hne
    · -- the defer queue has just been found empty
      obtain ⟨hempty, hsame⟩ := hr.poll hp
      exact absurd (hsame.trans hempty) hne
    · obtain ⟨hpoll, hrest⟩ := hr.polling hp
      exact h.keep (fun _ => Or.inl hpoll) hrest.defer hrest.eventfd hh (Or.inr hp) hne
  | back hcpu hx =>
    have hh := hsched (by simp) (by simp)
    obtain ⟨hrest, hcases⟩ := lthreadResumeEnd_rest hx
    refine h.keep (fun hp => ?_) hrest.defer hrest.eventfd hh
    rcases hcases with ⟨-, hph | ⟨-, hph⟩⟩ | ⟨-, hph⟩
    · rwa [hph] at hp
    · rw [hph] at hp; rcases hp with hp | hp <;> cases hp
    · rwa [hph] at hp
  | @computeSignal m _ hcpu hx =>
    have hh := hsched (by simp) (by simp)
    obtain ⟨j, -, hx⟩ := except_bind_ok hx
    obtain rfl := Except.ok.inj hx
    have hrest := resumed_rest { x with compute := Function.update x.compute j (x.compute j).signal } m 0
    refine h.keep (fun hp => ?_) hrest.defer hrest.eventfd hh
    rcases resumed_phase { x with compute := Function.update x.compute j (x.compute j).signal } m 0
      with hph | ⟨-, hph⟩
    · rwa [hph] at hp
    · rw [hph] at hp; rcases hp with hp | hp <;> cases hp
  | @call m op _ hcpu hx =>
    obtain ⟨hph, hdefer, he, -⟩ := call_frame hx
    exact h.keep (fun hp => by rwa [hph] at hp) hdefer he (hsched (by simp) (by simp))
  | @io w b _ hx =>
    obtain ⟨hw, y, hy, hcases⟩ := ioAct_cases hx
    rcases hcases with ⟨m, -, -, rfl, -, -, rfl⟩ | ⟨m, -, -, -, -, rfl⟩ | ⟨-, -, rfl⟩
    · refine hworker rfl le_rfl (Or.inr ⟨m, Or.inl ⟨w, hw, ?_⟩⟩)
      change (Function.update x.io w _ w).pc = _
      rw [Function.update_self]
    · exact hworker rfl (Nat.le_add_right _ 2) (Or.inl rfl)
    · exact hworker rfl le_rfl (Or.inl rfl)
  | @compute j b _ hx =>
    obtain ⟨hj, y, hy, hcases⟩ := computeAct_cases hx
    rcases hcases with ⟨m, -, -, rfl, -, -, rfl⟩ | ⟨m, -, -, -, -, rfl⟩ | ⟨-, -, rfl⟩ | ⟨-, -, -, rfl⟩
    · refine hworker rfl le_rfl (Or.inr ⟨m, Or.inr ⟨j, hj, ?_⟩⟩)
      change (Function.update x.compute j _ j).pc = _
      rw [Function.update_self]
    · exact hworker rfl (Nat.le_add_right _ 2) (Or.inl rfl)
    · exact hworker rfl le_rfl (Or.inl rfl)
    · exact hworker rfl le_rfl (Or.inl rfl)

/-- The scheduler does not sleep in the poller on deferred work that nobody will
announce. -/
theorem never_sleeps_on_deferred (h : advanceMachine.Reachable (fun _ _ => True) x) (hp : x.phase = .polling)
    (hd : x.sched.defer ≠ []) : 0 < x.eventfd ∨ ∃ l, x.Handed l := by
  have ha : x.Announced := by
    refine Machine.Reachable.invariant (P := Announced) (fun y hy => ?_) (fun y a y' hy _ hs => hy.advance hs) h
    obtain ⟨birth, capacity, n, rfl⟩ := hy
    rintro (hp | hp) <;> cases hp
  exact ha (Or.inr hp) hd

set_option maxRecDepth 20000 in
/-- An io worker has appended lthread 0 while the scheduler is in the poller. -/
theorem never_sleeps_on_deferred_ioDone : ∃ x, advanceMachine.Reachable (fun _ _ => True) x ∧
    x.phase = .polling ∧ x.sched.defer = [0] ∧ (0 < x.eventfd ∨ ∃ l, x.Handed l) := by
  obtain ⟨x, hx, hsee⟩ := exists_after (fun _ _ => True)
    [.main, .run, .sched, .sched, .sched, .call (.io .read), .sched, .sched, .sched, .sched,
      .io 0 .pop, .io 0 .finish]
    (fun x => (x.phase, x.sched.defer)) (t := (.polling, [0])) (by decide)
  simp only [Prod.mk.injEq] at hsee
  obtain ⟨hp, hd⟩ := hsee
  have hx' : advanceMachine.Reachable (fun _ _ => True) x :=
    Machine.Reachable.of_step (M := worldMachine) (N := advanceMachine) (fun _ => id) (fun _ _ _ => step_advance) hx
  exact ⟨x, hx', hp, hd, never_sleeps_on_deferred hx' hp (by simp [hd])⟩

end World
end Lthr
