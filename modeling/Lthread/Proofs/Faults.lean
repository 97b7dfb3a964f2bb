import Lthread.Proofs.Untouched

/-! Where a run stops because an lthread is used that should not be: it has been freed, it has no
context to switch to, or it is still in the waiting tree. For each of these faults, the step
that fails and what it has found. -/

namespace Lthr

open Sched Seat

def Fault.misuse : Fault → Bool
  | .freed _ | .noContext _ | .treeKey _ => true
  | _ => false

def Op.argument : Op → Option LtId
  | .join target _ _ | .detach2 target | .cancel target | .wakeup target => some target
  | _ => none

namespace World

variable {k : Bool} {x x' z : World} {l : LtId} {f : Fault}

/-! A resume -/

theorem wakeJoiner_error (hx : x.wakeJoiner l = .error f) :
    ∃ j, (x.sched.lt l).ltJoin = some j ∧ (x.sched.lt j).freed = true ∧ f = .freed j := by
  unfold wakeJoiner at hx
  cases hj : (x.sched.lt l).ltJoin with
  | none => rw [hj] at hx; cases hx
  | some j =>
    simp only [hj] at hx
    split_ifs at hx with hf
    exact ⟨j, rfl, hf, (Except.error.inj hx).symm⟩

theorem dropCancelled_error (hx : x.dropCancelled l = .error f) :
    ∃ j, (x.sched.lt l).ltJoin = some j ∧ (x.sched.lt j).freed = true ∧ f = .freed j := by
  rcases except_bind_error hx with h0 | ⟨y, -, h0⟩
  · exact wakeJoiner_error h0
  · cases h0

inductive ResumeFails (x : World) (l : LtId) : Fault → Prop
  | freed (hf : (x.sched.lt l).freed = true) : ResumeFails x l (.freed l)
  | joiner {j : LtId} (hf : (x.sched.lt l).freed = false) (hc : x.sched.has l .cancelled = true)
      (hj : (x.sched.lt l).ltJoin = some j) (hfj : (x.sched.lt j).freed = true) : ResumeFails x l (.freed j)
  | target {m : LtId} {t : ℕ} (hc : x.sched.has l .cancelled = false) (hctx : (x.sched.lt l).ctx = .joining m t)
      (hf : (x.sched.lt m).freed = true) : ResumeFails x l (.freed m)
  | tree {fd : Fd} {e : LtEvent} {t : ℕ} (hctx : (x.sched.lt l).ctx = .schedEvent fd e t)
      (hw : l ∈ x.sched.waiting) : ResumeFails x l (.treeKey l)
  | noContext (hc : x.sched.has l .cancelled = false)
      (hctx : (x.sched.lt l).ctx = .running ∨ (x.sched.lt l).ctx = .exited) : ResumeFails x l (.noContext l)

theorem lthreadJoinEnd_error {target : LtId} {t : ℕ} (hx : x.lthreadJoinEnd l target t = .error f) :
    (x.sched.lt target).freed = true ∧ f = .freed target := by
  unfold lthreadJoinEnd at hx
  simp only at hx
  split_ifs at hx with hf
  rw [onSched_sched, (lthreadSchedBusySleepEnd_keeps x.sched l t).freed target] at hf
  exact ⟨hf, (Except.error.inj hx).symm⟩

theorem afterYield_error (hc : x.sched.has l .cancelled = false) (hx : x.afterYield l = .error f) :
    ResumeFails x l f := by
  unfold World.afterYield at hx
  cases hctx : (x.sched.lt l).ctx with
  | joining target t =>
    rw [hctx] at hx
    obtain ⟨hf, rfl⟩ := lthreadJoinEnd_error hx
    exact .target hc hctx hf
  | schedEvent fd e t =>
    rw [hctx] at hx
    simp only at hx
    split_ifs at hx with hw
    rw [← Except.error.inj hx]
    exact .tree hctx hw
  | running =>
    rw [hctx] at hx
    rw [← Except.error.inj hx]
    exact .noContext hc (Or.inl hctx)
  | exited =>
    rw [hctx] at hx
    rw [← Except.error.inj hx]
    exact .noContext hc (Or.inr hctx)
  | _ => rw [hctx] at hx; cases hx

theorem lthreadResume_error (hx : x.lthreadResume l = .error f) : ResumeFails x l f := by
  unfold lthreadResume at hx
  by_cases hf : (x.sched.lt l).freed = true
  · rw [if_pos hf] at hx
    rw [← Except.error.inj hx]
    exact .freed hf
  rw [if_neg hf] at hx
  by_cases hc : x.sched.has l .cancelled = true
  · rw [if_pos hc] at hx
    obtain ⟨j, hj, hfj, rfl⟩ := dropCancelled_error hx
    exact .joiner (Bool.eq_false_iff.mpr hf) hc hj hfj
  rw [if_neg hc] at hx
  replace hc := Bool.eq_false_iff.mpr hc
  rcases except_bind_error (a := (x.initNew l).afterYield l) hx with h0 | ⟨y, -, h0⟩
  · have hk := initNew_keeps x l
    have hc' : (x.initNew l).sched.has l .cancelled = false := by
      unfold initNew
      split_ifs
      · simp [lthreadInit, has, modify_lt]
      · exact hc
    have hwait : (x.initNew l).sched.waiting = x.sched.waiting := by
      unfold initNew
      split_ifs <;> rfl
    cases afterYield_error hc' h0 with
    | freed hf' => exact .freed (by rwa [hk.freed] at hf')
    | joiner _ hcj => rw [hc'] at hcj; cases hcj
    | target _ hctx hfm => exact .target hc (by rwa [hk.ctx] at hctx) (by rwa [hk.freed] at hfm)
    | tree hctx hw => exact .tree (by rwa [hk.ctx] at hctx) (by rwa [hwait] at hw)
    | noContext _ hctx => exact .noContext hc (by rwa [hk.ctx] at hctx)
  · cases h0

/-! The loop -/

theorem lthreadCancelEvent_error (hx : x.lthreadCancelEvent l = .error f) : f = .pollerClear := by
  have hclear {b : LtSt} (h0 : x.pollerEvClear l b = .error f) : f = .pollerClear := by
    unfold pollerEvClear at h0
    simp only at h0
    split at h0
    · exact (Except.error.inj h0).symm
    · cases h0
  rcases except_bind_error hx with h0 | ⟨y, -, h0⟩
  · unfold clearWait at h0
    split_ifs at h0
    · exact hclear h0
    · exact hclear h0
  · cases h0

theorem handleEv_error {fd : Fd} {e : LtEvent} {eof : Bool} {next : Bool → Except Fault Phase}
    (hnext : ∀ b g, next b = .error g → g.misuse = false) (hf : f.misuse = true)
    (hx : x.handleEv fd e eof next = .error f) : ∃ m z, Taken x m z ∧ ResumeFails z m f := by
  unfold handleEv at hx
  rcases lthreadDeschedEvent_cases x.sched fd e with ⟨hd, -⟩ | ⟨m, s, hd, hmem, -, hm⟩
  · rw [hd] at hx
    rcases except_bind_error hx with h0 | ⟨ph, -, h0⟩
    · rw [hnext _ _ h0] at hf; cases hf
    · cases h0
  · rw [hd] at hx
    rcases except_bind_error hx with h0 | ⟨ph, -, h0⟩
    · rw [hnext _ _ h0] at hf; cases hf
    · exact ⟨m, _, .event hmem hm, lthreadResume_error h0⟩

theorem lthreadRun_error (hf : f.misuse = true) (hx : x.lthreadRun = .error f) :
    ∃ l z, Taken x l z ∧ ResumeFails z l f := by
  unfold lthreadRun at hx
  cases hp : x.phase with
  | setup | polling | done =>
    rw [hp] at hx
    rw [← Except.error.inj hx] at hf; cases hf
  | isdone | poll =>
    simp only [hp] at hx
    split_ifs at hx
  | expired t =>
    simp only [hp] at hx
    cases hmin : x.sched.sleepMin with
    | none => rw [hmin] at hx; cases hx
    | some m =>
      simp only [hmin] at hx
      split_ifs at hx
      unfold resumeExpired at hx
      rcases except_bind_error hx with h0 | ⟨y, hy, h0⟩
      · rw [lthreadCancelEvent_error h0] at hf; cases hf
      · exact ⟨m, _, .expire hp hmin (by assumption) hy, lthreadResume_error h0⟩
  | ready last =>
    simp only [hp] at hx
    cases hr : x.sched.ready with
    | nil => rw [hr] at hx; cases hx
    | cons m rest =>
      rw [hr] at hx
      exact ⟨m, _, .pop hp hr, lthreadResume_error hx⟩
  | defer =>
    simp only [hp] at hx
    cases hr : x.sched.defer with
    | nil => rw [hr] at hx; cases hx
    | cons m rest =>
      rw [hr] at hx
      exact ⟨m, _, .deferPop hp hr, lthreadResume_error hx⟩
  | events evs =>
    simp only [hp] at hx
    match evs, hx with
    | [], hx => cases hx
    | .trigger :: evs, hx =>
      simp only at hx
      split_ifs at hx
      rw [← Except.error.inj hx] at hf; cases hf
    | .ready fd eof :: evs, hx => exact handleEv_error (fun b g hg => by cases hg) hf hx
  | write fd eof r evs =>
    simp only [hp] at hx
    refine handleEv_error (fun b g hg => ?_) hf hx
    split_ifs at hg
    rw [← Except.error.inj hg]
    rfl

/-! Whole steps -/

inductive StepFails (x : World) : Label → Fault → Prop
  | loop {l : LtId} {z : World} {f : Fault} (hcpu : x.cpu = .loop) (ht : Taken x l z) (hz : ResumeFails z l f) :
      StepFails x .sched f
  | back {l : LtId} (hcpu : x.cpu = .back l) (hf : (x.sched.lt l).freed = true) : StepFails x .sched (.freed l)
  | joiner {l j : LtId} (hcpu : x.cpu = .back l) (hf : (x.sched.lt l).freed = false)
      (hj : (x.sched.lt l).ltJoin = some j) (hfj : (x.sched.lt j).freed = true) : StepFails x .sched (.freed j)
  | argument {l m : LtId} {op : Op} (hcpu : x.cpu = .run l) (hm : op.argument = some m)
      (hf : (x.sched.lt m).freed = true) : StepFails x (.call op) (.freed m)
  | exit {l j : LtId} {ptr : ℕ} (hcpu : x.cpu = .run l) (hj : (x.sched.lt l).ltJoin = some j)
      (hfj : (x.sched.lt j).freed = true) : StepFails x (.call (.exit ptr)) (.freed j)
  | close {l m : LtId} {fd : Fd} (hcpu : x.cpu = .run l) (hm : m ∈ x.sched.waiting)
      (hf : (x.sched.lt m).freed = true) : StepFails x (.call (.close fd)) (.freed m)
  | io {l : LtId} {w : ℕ} {a : WorkerAct} (hw : w < x.ioWorkers) (hpc : (x.io w).pc = .working l ∨ (x.io w).pc = .handed l)
      (hf : (x.sched.lt l).freed = true) : StepFails x (.io w a) (.freed l)
  | compute {l : LtId} {j : ℕ} {a : ComputeAct} (hj : j < x.computeCount)
      (hpc : (x.compute j).pc = .ended l ∨ (x.compute j).pc = .handed l)
      (hf : (x.sched.lt l).freed = true) : StepFails x (.compute j a) (.freed l)

theorem usable_error {m : LtId} (hf : f.misuse = true) (hx : x.usable m = .error f) :
    (x.sched.lt m).freed = true ∧ f = .freed m := by
  unfold usable at hx
  split_ifs at hx with h1 h2
  · rw [← Except.error.inj hx] at hf; cases hf
  · exact ⟨h2, (Except.error.inj hx).symm⟩

theorem computeSchedOf_error (hf : f.misuse = true) (hx : x.computeSchedOf l = .error f) : False := by
  unfold computeSchedOf at hx
  split at hx
  · rw [← Except.error.inj hx] at hf; cases hf
  · split_ifs at hx
    rw [← Except.error.inj hx] at hf; cases hf

theorem reach_error (hf : f.misuse = true) (hx : x.reach l = .error f) :
    (x.sched.lt l).freed = true ∧ f = .freed l := by
  unfold reach at hx
  split_ifs at hx with h1 h2
  · exact ⟨h1, (Except.error.inj hx).symm⟩
  · rw [← Except.error.inj hx] at hf; cases hf

theorem lthreadResumeEnd_error (hf : f.misuse = true) (hcpu : x.cpu = .back l) (hx : x.lthreadResumeEnd l = .error f) :
    StepFails x .sched f := by
  unfold lthreadResumeEnd at hx
  split_ifs at hx with h1 h2 h3
  · rw [← Except.error.inj hx]
    exact .back hcpu h1
  · rcases except_bind_error hx with h0 | ⟨y, -, h0⟩
    · obtain ⟨j, hj, hfj, rfl⟩ := wakeJoiner_error h0
      exact .joiner hcpu (Bool.eq_false_iff.mpr h1) hj hfj
    · cases h0
  · rcases except_bind_error hx with h0 | ⟨y, -, h0⟩
    · exact (computeSchedOf_error hf h0).elim
    · cases h0

theorem closeEvent_error {fd : Fd} {e : LtEvent} (hx : x.closeEvent fd e = .error f) :
    ∃ m ∈ x.sched.waiting, (x.sched.lt m).freed = true ∧ f = .freed m := by
  unfold closeEvent at hx
  rcases lthreadDeschedEvent_cases x.sched fd e with ⟨hd, -⟩ | ⟨m, s, hd, hmem, -, -⟩
  · rw [hd] at hx; cases hx
  · simp only [hd] at hx
    split_ifs at hx with hfm
    exact ⟨m, hmem, hfm, (Except.error.inj hx).symm⟩

theorem closeEvent_keeps {fd : Fd} {e : LtEvent} (hx : x.closeEvent fd e = .ok x') :
    x'.sched.waiting ⊆ x.sched.waiting ∧ ∀ m, (x'.sched.lt m).freed = (x.sched.lt m).freed := by
  rcases closeEvent_cases hx with ⟨rfl, -⟩ | ⟨i, s, hd, -, -, -, -, rfl⟩
  · exact ⟨List.Subset.refl _, fun _ => rfl⟩
  · have hw := lthreadDeschedEvent_waiting x.sched fd e
    have hk := lthreadDeschedEvent_keeps x.sched fd e
    rw [hd] at hw hk
    refine ⟨hw, fun m => ?_⟩
    rw [← hk.freed m]
    exact (setBit_keeps (s.readyInsert i) i .fdeof).freed m

theorem call_error {op : Op} (hf : f.misuse = true) (hcpu : x.cpu = .run l) (hx : x.call l op = .error f) :
    StepFails x (.call op) f := by
  have hargument {m : LtId} (hm : op.argument = some m) (h0 : x.usable m = .error f) : StepFails x (.call op) f := by
    obtain ⟨hfm, rfl⟩ := usable_error hf h0
    exact .argument hcpu hm hfm
  unfold World.call at hx
  cases op with
  | create | sleep | renice | condWait | condSignal | condBroadcast | finish | detach | io | computeBegin => cases hx
  | chan op =>
    simp only at hx
    split_ifs at hx
    · split at hx
      · rw [← Except.error.inj hx] at hf; cases hf
      · cases hx
      · cases hx
    · rw [← Except.error.inj hx] at hf; cases hf
  | join target ptr t =>
    rcases except_bind_error hx with h0 | ⟨u, -, h0⟩
    · exact hargument rfl h0
    · simp only at h0
      split_ifs at h0
  | exit ptr =>
    unfold lthreadExit at hx
    simp only at hx
    split at hx
    · cases hx
    · next j hj =>
      split_ifs at hx with hfj
      · rw [← Except.error.inj hx]
        exact .exit hcpu hj hfj
      · split at hx <;> cases hx
      · split at hx <;> cases hx
  | detach2 target =>
    rcases except_bind_error hx with h0 | ⟨u, -, h0⟩
    · exact hargument rfl h0
    · cases h0
  | cancel target =>
    rcases except_bind_error hx with h0 | ⟨u, -, h0⟩
    · exact hargument rfl h0
    · rcases except_bind_error h0 with h0 | ⟨y, -, h0⟩
      · rw [lthreadCancelEvent_error h0] at hf; cases hf
      · split_ifs at h0
  | wakeup target =>
    rcases except_bind_error hx with h0 | ⟨u, -, h0⟩
    · exact hargument rfl h0
    · split_ifs at h0
  | schedEvent fd e t =>
    simp only [lthreadSchedEvent] at hx
    split_ifs at hx
    · rw [← Except.error.inj hx] at hf; cases hf
    · rw [← Except.error.inj hx] at hf; cases hf
  | close fd =>
    rcases except_bind_error hx with h0 | ⟨y, hy, h0⟩
    · obtain ⟨m, hm, hfm, rfl⟩ := closeEvent_error h0
      exact .close hcpu hm hfm
    · rcases except_bind_error h0 with h0 | ⟨z, -, h0⟩
      · obtain ⟨m, hm, hfm, rfl⟩ := closeEvent_error h0
        obtain ⟨hsub, hfreed⟩ := closeEvent_keeps hy
        exact .close hcpu (hsub hm) (hfreed m ▸ hfm)
      · cases h0

theorem ioAct_error {w : ℕ} {a : WorkerAct} (hf : f.misuse = true) (hx : x.ioAct w a = .error f) :
    StepFails x (.io w a) f := by
  unfold ioAct at hx
  split_ifs at hx with hw
  · rw [← Except.error.inj hx] at hf; cases hf
  · split at hx
    · rw [← Except.error.inj hx] at hf; cases hf
    · simp only at hx
      split at hx
      · next l hpc _ =>
        rcases except_bind_error hx with h0 | ⟨u, -, h0⟩
        · obtain ⟨hfl, rfl⟩ := reach_error hf h0
          exact .io (not_le.mp hw) (Or.inl hpc) hfl
        · split_ifs at h0
          rw [← Except.error.inj h0] at hf; cases hf
      · next l hpc _ =>
        rcases except_bind_error hx with h0 | ⟨u, -, h0⟩
        · obtain ⟨hfl, rfl⟩ := reach_error hf h0
          exact .io (not_le.mp hw) (Or.inr hpc) hfl
        · cases h0
      · cases hx

theorem computeAct_error {j : ℕ} {a : ComputeAct} (hf : f.misuse = true) (hx : x.computeAct j a = .error f) :
    StepFails x (.compute j a) f := by
  unfold computeAct at hx
  split_ifs at hx with hj
  · rw [← Except.error.inj hx] at hf; cases hf
  · split at hx
    · rw [← Except.error.inj hx] at hf; cases hf
    · simp only at hx
      split at hx
      · next l hpc _ =>
        rcases except_bind_error hx with h0 | ⟨u, -, h0⟩
        · obtain ⟨hfl, rfl⟩ := reach_error hf h0
          exact .compute (not_le.mp hj) (Or.inl hpc) hfl
        · cases h0
      · next l hpc _ =>
        rcases except_bind_error hx with h0 | ⟨u, -, h0⟩
        · obtain ⟨hfl, rfl⟩ := reach_error hf h0
          exact .compute (not_le.mp hj) (Or.inr hpc) hfl
        · cases h0
      · split_ifs at hx
      · cases hx

theorem step_error {a : Label} (hf : f.misuse = true) (hx : x.step a = .error f) : StepFails x a f := by
  replace hx : x.advance a = .error f := advance_error (by rintro rfl; cases hf) hx
  unfold World.advance at hx
  cases a with
  | clock u => cases hx
  | main | run | poll evs =>
    simp only at hx
    split_ifs at hx
    rw [← Except.error.inj hx] at hf; cases hf
  | sched =>
    simp only at hx
    cases hcpu : x.cpu with
    | loop =>
      rw [hcpu] at hx
      obtain ⟨l, z, ht, hz⟩ := lthreadRun_error hf hx
      exact .loop hcpu ht hz
    | run l =>
      rw [hcpu] at hx
      rw [← Except.error.inj hx] at hf; cases hf
    | ioAdd l w | leaving l => rw [hcpu] at hx; cases hx
    | back l =>
      rw [hcpu] at hx
      exact lthreadResumeEnd_error hf hcpu hx
    | computeAdd l =>
      rw [hcpu] at hx
      rcases except_bind_error hx with h0 | ⟨u, -, h0⟩
      · exact (computeSchedOf_error hf h0).elim
      · cases h0
  | call op =>
    simp only at hx
    cases hcpu : x.cpu with
    | run l =>
      rw [hcpu] at hx
      exact call_error hf hcpu hx
    | _ =>
      rw [hcpu] at hx
      rw [← Except.error.inj hx] at hf; cases hf
  | io w a => exact ioAct_error hf hx
  | compute j a => exact computeAct_error hf hx

end World
end Lthr
