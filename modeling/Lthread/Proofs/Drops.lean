import Lthread.Proofs.Deferred
import Lthread.Proofs.Dropped

/-! Which step drops an lthread: the one with which the loop takes it up, from the ready queue or
from the defer queue, after it has been cancelled. -/

namespace Lthr

open Sched

namespace World

variable {k : Bool} {x x' : World} {l : LtId} {a : Label}

theorem resumed_dropped (x : World) (l : LtId) (r : ℤ) : (x.resumed l r).dropped = x.dropped := by
  obtain ⟨ph, -, heq⟩ := resumed_eq x l r
  rw [heq]
  split_ifs <;> rfl

theorem freeDetached_dropped (x : World) (l : LtId) : (x.freeDetached l).dropped = x.dropped := by
  unfold freeDetached
  split_ifs <;> rfl

theorem wakeJoiner_dropped (hx : x.wakeJoiner l = .ok x') : x'.dropped = x.dropped := by
  rcases wakeJoiner_cases hx with ⟨-, rfl⟩ | ⟨j, -, -, rfl⟩ <;> rfl

theorem lthreadResumeEnd_dropped (hx : x.lthreadResumeEnd l = .ok x') : x'.dropped = x.dropped := by
  unfold lthreadResumeEnd at hx
  split_ifs at hx
  · obtain ⟨y, hy, hx⟩ := except_bind_ok hx
    obtain rfl := Except.ok.inj hx
    rw [resumed_dropped, freeDetached_dropped, wakeJoiner_dropped hy]
  · obtain ⟨j, -, hx⟩ := except_bind_ok hx
    obtain rfl := Except.ok.inj hx
    rfl
  · obtain rfl := Except.ok.inj hx
    exact resumed_dropped x l 0

theorem afterYield_dropped (hx : x.afterYield l = .ok x') : x'.dropped = x.dropped := by
  unfold World.afterYield at hx
  cases hc : (x.sched.lt l).ctx with
  | running | exited => rw [hc] at hx; cases hx
  | joining target t =>
    rw [hc] at hx
    obtain ⟨-, ⟨-, rfl⟩ | ⟨-, rfl⟩⟩ := lthreadJoinEnd_cases hx <;> rfl
  | schedEvent fd e t =>
    rw [hc] at hx
    simp only at hx
    split_ifs at hx
    obtain rfl := Except.ok.inj hx
    rfl
  | _ =>
    rw [hc] at hx
    obtain rfl := Except.ok.inj hx
    rfl

theorem lthreadResume_dropped (hx : x.lthreadResume l = .ok x') :
    x'.dropped = x.dropped ∨ x.sched.has l .cancelled = true ∧ x'.dropped = Function.update x.dropped l true := by
  obtain ⟨-, ⟨hc, hx⟩ | ⟨-, y, hy, rfl⟩⟩ := lthreadResume_cases hx
  · obtain ⟨y, hy, hx⟩ := except_bind_ok hx
    obtain rfl := Except.ok.inj hx
    refine Or.inr ⟨hc, ?_⟩
    change Function.update y.dropped l true = _
    rw [wakeJoiner_dropped hy]
  · refine Or.inl ?_
    have hinit : (x.initNew l).dropped = x.dropped := by
      unfold initNew
      split_ifs <;> rfl
    exact (afterYield_dropped hy).trans hinit

theorem Inv.step_drops (h : x.Inv k) (hx : x.step a = .ok x') (hd : x.dropped l = false) (hd' : x'.dropped l = true) :
    x.drops a = some l := by
  have hsame (h0 : x'.dropped = x.dropped) : x.drops a = some l := by
    rw [h0, hd] at hd'; cases hd'
  cases step_cases hx with
  | clock | main | run | ioSignal | leave | poll => exact hsame rfl
  | call _ hx => exact hsame (call_frame hx).2.2.2
  | back _ hx => exact hsame (lthreadResumeEnd_dropped hx)
  | @computeSignal m _ _ hx =>
    obtain ⟨j, -, hx⟩ := except_bind_ok hx
    obtain rfl := Except.ok.inj hx
    exact hsame (resumed_dropped _ m 0)
  | io hx =>
    obtain ⟨-, y, -, hcases⟩ := ioAct_cases hx
    rcases hcases with ⟨i, -, -, -, -, -, rfl⟩ | ⟨i, -, -, -, -, rfl⟩ | ⟨-, -, rfl⟩ <;> exact hsame rfl
  | compute hx =>
    obtain ⟨-, y, -, hcases⟩ := computeAct_cases hx
    rcases hcases with ⟨i, -, -, -, -, -, rfl⟩ | ⟨i, -, -, -, -, rfl⟩ | ⟨-, -, rfl⟩ | ⟨-, -, -, rfl⟩ <;> exact hsame rfl
  | loop hcpu hx =>
    rcases lthreadRun_taken hx with ⟨ph, n, rfl⟩ | ⟨m, z, ht, hz⟩
    · exact hsame rfl
    · rcases lthreadResume_dropped hz with h0 | ⟨hc, h0⟩
      · exact hsame (h0.trans ht.dropped)
      · have hlm : l = m := by
          by_contra hne
          rw [h0, ht.dropped, Function.update_of_ne hne, hd] at hd'
          cases hd'
        subst hlm
        have hcx : x.sched.has l .cancelled = true := by
          by_contra hcx
          rw [ht.cancelled h (Bool.eq_false_iff.mpr hcx)] at hc; cases hc
        cases ht with
        | expire hp hmin hdl hy =>
          rw [((h.row l).of_sleeping (count_ne_zero (List.argmin_mem hmin))).1] at hcx; cases hcx
        | pop hp hr => simp [drops, hcpu, hp, hr, hcx]
        | deferPop hp hr => simp [drops, hcpu, hp, hr, hcx]
        | event hl hm =>
          rw [((h.row l).of_waiting (count_ne_zero hl)).1] at hcx; cases hcx

/-- A worker that has its trigger to do for a dropped lthread had it so before. -/
theorem Handed.before (hx : x.step a = .ok x') (hu : (x.seat l).Unserved) (h : x'.Handed l) : x.Handed l := by
  rcases step_hands hx h with h0 | ⟨w, -, hpc⟩ | ⟨j, -, hpc⟩
  · exact h0
  · refine absurd ?_ ((unserved_iff.mp hu).1 w)
    simp [IoWorker.jobs, hpc]
  · refine absurd ?_ ((unserved_iff.mp hu).2.1 j).2
    simp [ComputePc.owned, hpc]

end World
end Lthr
