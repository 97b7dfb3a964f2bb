import Lthread.Proofs.Joins

/-! Lthreads that are joined by one lthread at a time and not detached as well. The target of
a join stays until the joiner returns: nobody else frees it. -/

namespace Lthr

open Seat

namespace Board

variable {k : Bool} {R : Rules} {b b' : Board} {j l : LtId}

structure Claimed (b : Board) : Prop where
  freed : ∀ j l t, (b.seat j).lt.ctx = .joining l t → (b.seat l).lt.freed = false
  detach : ∀ j l t, (b.seat j).lt.ctx = .joining l t → (b.seat l).lt.state .detach = false
  unique : ∀ i j l t u, (b.seat i).lt.ctx = .joining l t → (b.seat j).lt.ctx = .joining l u → i = j

def Unjoined (b : Board) (l : LtId) : Prop := ∀ j t, (b.seat j).lt.ctx ≠ .joining l t

structure Apart (R : Rules) (b : Board) : Prop where
  join : ∀ j l, R b (.join j l) → (b.seat l).lt.state .detach = false ∧ b.Unjoined l ∧ ¬ R b (.detach l)
  detach : ∀ l, R b (.detach l) → b.Unjoined l

namespace Claimed

/-- How an lthread comes to be in a join: it has been there before, or it enters it. -/
theorem joining_cases (ht : Turn R b b') {t : ℕ} (hx' : (b'.seat j).lt.ctx = .joining l t) :
    (b.seat j).lt.ctx = .joining l t ∨ b.cpu = .run j ∧ R b (.join j l) := by
  rcases ht.ctx_cases j with h1 | ⟨-, h1⟩ | ⟨-, e, hv, -, h1⟩ | ⟨hcpu, target, u, hr, h1⟩ | ⟨-, -, h1⟩
  · exact Or.inl (h1.symm.trans hx')
  · rw [hx'] at h1; cases h1
  · exact absurd (h1.symm.trans hx') hv.not_joining
  · obtain ⟨rfl, -⟩ := Ctx.joining.inj (h1.symm.trans hx')
    exact Or.inr ⟨hcpu, hr⟩
  · rw [hx'] at h1; cases h1

theorem turn (h : b.Claimed) (hR : Apart R b) (hb : b.Seated k) (hb' : b'.Seated k) (ht : Turn R b b') :
    b'.Claimed := by
  refine ⟨fun j l t hx' => ?_, fun j l t hx' => ?_, fun i j l t u hi' hj' => ?_⟩
  · rcases joining_cases ht hx' with hx | ⟨hcpu, -⟩
    · have hf := h.freed j l t hx
      rcases ht.freed_cases l with h1 | ⟨-, h1⟩ | ⟨-, -, hfree⟩
      · exact h1.trans hf
      · exact h1
      · cases hfree with
        | join i hri => exact absurd hx ((hR.join i l hri).2.1 j t)
        | joined i u hri hi hcpu hcpu' =>
          obtain rfl := h.unique i j l u t hi hx
          rw [(hb'.current hcpu').2.1] at hx'; cases hx'
        | ended hcpu hxl hd =>
          rw [h.detach j l t hx] at hd; cases hd
        | dropped hcpu hcl hd =>
          rw [h.detach j l t hx] at hd; cases hd
    · exact (ht.join_cases hb hb' hcpu hx').freed
  · rcases joining_cases ht hx' with hx | ⟨hcpu, hr⟩
    · rcases ht.detach_cases hb l with h1 | ⟨hr, -⟩ | ⟨-, h1⟩ | ⟨-, h1⟩
      · exact h1.trans (h.detach j l t hx)
      · exact absurd hx (hR.detach l hr j t)
      · exact h1
      · exact h1
    · obtain ⟨hd, -, hno⟩ := hR.join j l hr
      rcases ht.detach_cases hb l with h1 | ⟨hr, -⟩ | ⟨-, h1⟩ | ⟨-, h1⟩
      · exact h1.trans hd
      · exact absurd hr hno
      · exact h1
      · exact h1
  · rcases joining_cases ht hi' with hi | ⟨hcpu, hri⟩
    · rcases joining_cases ht hj' with hj | ⟨-, hrj⟩
      · exact h.unique i j l t u hi hj
      · exact absurd hi ((hR.join j l hrj).2.1 i t)
    · rcases joining_cases ht hj' with hj | ⟨hcpu', -⟩
      · exact absurd hj ((hR.join i l hri).2.1 j u)
      · exact Cpu.run.inj (hcpu.symm.trans hcpu')

end Claimed
end Board

namespace World

variable {k : Bool} {x x' : World} {a : Label} {l : LtId}

theorem Inv.unjoined (h : x.Inv k) (hc : ∀ j l t, (x.sched.lt j).ctx = .joining l t → x.sched.has j .cancelled = false)
    (hu : x.Unjoined l) : x.board.Unjoined l := by
  intro j t hx
  refine hu j (h.joiner_busy hx (hc j l t hx)) ?_
  rw [show (x.sched.lt j).ctx = .joining l t from hx]
  rfl

theorem made_detach {b : Board} (hr : made x a b (.detach l)) : l ∈ x.detachee a := by
  obtain ⟨m, op, rfl, hcpu, hop⟩ := made_call hr (by simp)
  cases op with
  | detach =>
    obtain rfl := Call.detach.inj (Option.some_inj.mp hop)
    simp [detachee, hcpu]
  | detach2 target =>
    obtain rfl := Call.detach.inj (Option.some_inj.mp hop)
    rfl
  | _ => cases hop

theorem made_alone (h : x.Inv k) (hc : ∀ j l t, (x.sched.lt j).ctx = .joining l t → x.sched.has j .cancelled = false)
    (hal : x.joinsAlone a) (b : Board) : Board.Apart (made x a) b := by
  refine ⟨fun j l hr => ?_, fun l hr => ?_⟩
  · obtain ⟨rfl, -, ptr, t, rfl⟩ := made_of_join hr
    obtain ⟨hd, hu⟩ := hal.1 l rfl
    refine ⟨hd, h.unjoined hc hu, fun hr' => ?_⟩
    obtain ⟨i, op, hop, -, hop'⟩ := made_call hr' (by simp)
    obtain rfl := Label.call.inj hop
    cases hop'
  · obtain rfl := made_board hr (by simp)
    exact h.unjoined hc (hal.2 l (made_detach hr))

theorem claimed_reachable {ok : World → Label → Prop} (hok : ∀ x a, ok x a → stepOk k x a ∧ x.joinsAlone a)
    (hc : ∀ x, worldMachine.Reachable ok x → ∀ j l t, (x.sched.lt j).ctx = .joining l t →
      x.sched.has j .cancelled = false)
    (h : worldMachine.Reachable ok x) : x.board.Claimed := by
  refine Machine.Reachable.invariant_of (P := fun y : World => y.board.Claimed) ?_ ?_ h
  · rintro y ⟨birth, capacity, n, rfl⟩
    exact ⟨nofun, nofun, nofun⟩
  · intro y a y' hy hP ha hs
    have hinv : y.Inv k := Inv.reachable (hy.mono fun x a h => (hok x a h).1)
    refine Turns.preserves (made_cancel (hok y a ha).1) (fun b b' ht hb hb' hP => ?_)
      (step_turns hinv (hok y a ha).1 hs) hinv.seated hP
    exact hP.turn (made_alone hinv (hc y hy) (hok y a ha).2 b) hb hb' ht

end World
end Lthr
