import Lthread.Proofs.Eof
import Lthread.Proofs.Joins

/-! How an lthread comes out of `_lthread_sched_event`: its timeout expires, its event is
handled, or `lthread_close` has put it on the ready queue with `LT_ST_FDEOF` set. -/

namespace Lthr

open Sched Seat

/-- The event for which `lthread_run` looks for an lthread next. -/
def Phase.handles : Phase → Option (Fd × LtEvent)
  | .events (.ready fd _ :: _) => some (fd, .read)
  | .write fd _ _ _ => some (fd, .write)
  | _ => none

/-- An lthread that waits for a descriptor without a timeout does not sleep. -/
theorem Row.event_timeout {k c : Bool} {fd : Fd} {e : LtEvent} {t : ℕ} {n : Counts}
    (h : Row k c (.schedEvent fd e t) n) (hs : n.sleeping ≠ 0) : t ≠ 0 := by
  generalize hx : Ctx.schedEvent fd e t = y at h
  cases h with
  | polled =>
    obtain ⟨-, -, rfl⟩ := Ctx.schedEvent.inj hx
    rintro rfl
    exact hs rfl
  | blocked h0 => subst hx; cases h0
  | slept | joining => cases hx
  | _ => exact absurd rfl hs

namespace Turn

variable {k : Bool} {R : Rules} {b b' : Board} {m : LtId} {fd : Fd} {e : LtEvent} {t : ℕ}

theorem event_enters (ht : Turn R b b') (h : b.Seated k) (h' : b'.Seated k) (hcpu : b.cpu = .run m)
    (hx' : (b'.seat m).lt.ctx = .schedEvent fd e t) : (b'.seat m).cnt.ready = 0 := by
  have hcnt := (h.current hcpu).1.cnt
  cases ht with
  | @enter σ l en hc hv hr hm =>
    obtain rfl := Cpu.run.inj (hcpu.symm.trans hc)
    change (σ m).lt.ctx = _ at hx'
    change (σ m).cnt.ready = 0
    rw [hm.self, Entry.act_ctx] at hx'
    rw [hm.self]
    cases en with
    | event fd' e' n u =>
      have hready : (Entry.act (.event fd' e' n u) (b.seat m)).cnt.ready = (b.seat m).cnt.ready := by
        simp only [Entry.act, schedSleep]
        split_ifs <;> rfl
      rw [hready, hcnt]
    | block c i n u =>
      obtain ⟨hcond, -⟩ := hv
      rw [show c = .schedEvent fd e t from hx'] at hcond
      cases hcond
    | _ => cases hx'
  | @join σ₁ σ l target ptr n u hr hc hlt hf hx h1 hm =>
    obtain rfl := Cpu.run.inj (hcpu.symm.trans hc)
    change (σ m).lt.ctx = _ at hx'
    rw [hm.self] at hx'
    cases hx'
  | resume t hr hc hf hcan ht he h1 h2 hm => rw [hcpu] at hc; cases hc
  | finish hc hf hx h1 hm => rw [hcpu] at hc; cases hc
  | computeAdd hc hp hm => rw [hcpu] at hc; cases hc
  | switch hc =>
    rw [hcpu] at hc
    rcases hc with hc | ⟨w, hc⟩ <;> cases hc
  | back hc he =>
    rw [hcpu] at hc
    rcases hc with hc | ⟨hc, -⟩ <;> cases hc
  | _ =>
    have hrun := (h'.running m).mpr hcpu
    rw [hx'] at hrun; cases hrun

/-- Only `lthread_close` puts an lthread on the ready queue that waits for a descriptor. -/
theorem event_ready (ht : Turn R b b') (h : b.Seated k) (h' : b'.Seated k)
    (hx' : (b'.seat m).lt.ctx = .schedEvent fd e t) (hr' : (b'.seat m).cnt.ready ≠ 0)
    (hc' : (b'.seat m).lt.state .cancelled = false) :
    ((b.seat m).lt.ctx = .schedEvent fd e t ∧ (b.seat m).cnt.ready ≠ 0 ∧ (b.seat m).lt.state .cancelled = false) ∨
      ∃ fd' e', R b (.close fd') ∧ b.Waits m fd' e' := by
  rcases ht.ctx_cases m with h1 | ⟨-, h1⟩ | ⟨hcpu, -⟩ | ⟨hcpu, -⟩ | ⟨-, -, h1⟩
  · have hx := h1.symm.trans hx'
    cases ht.suspended_cases h h1 (by simp [hx]) (by simp [hx]) with
    | same hc hr => exact Or.inl ⟨hx, hr ▸ hr', hc.symm.trans hc'⟩
    | woken hu => rw [hx] at hu; cases hu
    | signalled hb =>
      obtain ⟨u, hu, -⟩ := (h.seats m).row.of_blocked hb
      rw [hx] at hu; cases hu
    | closed hr hw => exact Or.inr ⟨_, _, hr, hw⟩
    | awoken hu => rw [hx] at hu; cases hu
    | cancelled hc | dropped hc => rw [hc'] at hc; cases hc
  · rw [hx'] at h1; cases h1
  · exact absurd (ht.event_enters h h' hcpu hx') hr'
  · exact absurd (ht.event_enters h h' hcpu hx') hr'
  · rw [hx'] at h1; cases h1

end Turn

namespace World

variable {k : Bool} {x x' : World} {l m : LtId} {fd : Fd} {e : LtEvent} {a : Label} {t : ℕ}

theorem Inv.event_ready (h : x.Inv k) (hok : stepOk k x a) (hx : x.step a = .ok x')
    (hctx' : (x'.sched.lt m).ctx = .schedEvent fd e t) (hr' : m ∈ x'.sched.ready)
    (hc' : x'.sched.has m .cancelled = false) :
    ((x.sched.lt m).ctx = .schedEvent fd e t ∧ m ∈ x.sched.ready ∧ x.sched.has m .cancelled = false) ∨
      ∃ fd' e', a = .call (.close fd') ∧ x.Waits m fd' e' := by
  -- a close is made of several turns, and who waits in the middle of it has waited before
  let P (b : Board) : Prop := (∀ fd' e', b.Waits m fd' e' → x.Waits m fd' e' ∨ a.closes = none) ∧
    ((b.seat m).lt.ctx = .schedEvent fd e t → (b.seat m).cnt.ready ≠ 0 → (b.seat m).lt.state .cancelled = false →
      ((x.sched.lt m).ctx = .schedEvent fd e t ∧ m ∈ x.sched.ready ∧ x.sched.has m .cancelled = false) ∨
        ∃ fd' e', a = .call (.close fd') ∧ x.Waits m fd' e')
  have hstep (b b' : Board) (ht : Turn (made x a) b b') (hb : b.Seated k) (hb' : b'.Seated k) (hP : P b) : P b' := by
    refine ⟨fun fd' e' hw => ?_, fun hx' hr' hc' => ?_⟩
    · rcases ht.waits_old hb hb' hw with hold | hr
      · exact hP.1 fd' e' hold
      · obtain ⟨-, t, rfl⟩ := made_of_wait hr
        exact Or.inr rfl
    · rcases ht.event_ready hb hb' hx' hr' hc' with ⟨hx, hr, hc⟩ | ⟨fd', e', hr, hw⟩
      · exact hP.2 hx hr hc
      · obtain rfl := made_of_close hr
        exact Or.inr ⟨fd', e', rfl, (hP.1 fd' e' hw).resolve_right (by simp [Label.closes])⟩
  have hstart : P x.board :=
    ⟨fun _ _ hw => Or.inl (waits_board.mp hw), fun hx hr hc => Or.inl ⟨hx, mem_of_count hr, hc⟩⟩
  exact (Turns.preserves (made_cancel hok) hstep (step_turns h hok hx) h.seated hstart).2 hctx'
    (count_ne_zero hr') hc'

/-- One half of `lthread_close` tells the lthread that waits for its event, and leaves the
others where they are. -/
theorem closeEvent_tells (h : x.board.Seated k) (hx : x.closeEvent fd e = .ok x') :
    (x.Waits m fd e → x'.sched.has m .fdeof = true) ∧
      ∀ e' ≠ e, x.Waits m fd e' → x'.Waits m fd e' := by
  rcases closeEvent_cases hx with ⟨rfl, hnone⟩ | ⟨i, s', -, hmem, hkey, hm, -, rfl⟩
  · exact ⟨fun hw => absurd hw.2 (hnone m hw.1), fun _ _ hw => hw⟩
  · have hacts := (hm.trans (readyInsert_moves s' i)).trans (setBit_moves _ i .fdeof) x.io x.compute
    have hi : x.Waits i fd e := ⟨hmem, hkey⟩
    refine ⟨fun hw => ?_, fun e' he hw => ?_⟩
    · rw [← waits_board] at hw hi
      obtain rfl := h.links.keys m i hw.1 hi.1 (hw.2.trans hi.2.symm)
      rw [onSched_sched, setBit_has, if_pos ⟨rfl, rfl⟩]
    · have hne : m ≠ i := by
        rintro rfl
        exact he (fdKey_inj (hw.2.symm.trans hi.2)).2
      rw [← waits_board] at hw ⊢
      exact (Board.Waits.congr (congrArg reg (hacts.other hne))).mpr hw

theorem Inv.close_tells (h : x.Inv k) (hx : x.step (.call (.close fd)) = .ok x') (hw : x.Waits m fd e) :
    x'.sched.has m .fdeof = true := by
  obtain ⟨l, hcpu, hx⟩ := step_call hx
  have hne : m ≠ l := by
    rintro rfl
    exact h.waits_not_run hw hcpu
  obtain ⟨x₁, h₁, hx⟩ := except_bind_ok hx
  obtain ⟨x₂, h₂, hx⟩ := except_bind_ok hx
  obtain rfl := Except.ok.inj hx
  have hs₁ : x₁.board.Seated k :=
    Turns.seated (R := fun _ c => c = .close fd) (fun _ _ hr => by cases hr) (closeEvent_turns rfl h₁) h.seated
  change (x₂.sched.clearBit l .fdeof).has m .fdeof = true
  rw [clearBit_has, if_neg fun h0 => hne h0.1]
  cases e with
  | read => exact (closeEvent_eof h₂).stays trivial ((closeEvent_tells h.seated h₁).1 hw)
  | write => exact (closeEvent_tells hs₁ h₂).1 ((closeEvent_tells h.seated h₁).2 .write (by simp) hw)

/-- An lthread that is resumed because its wait has timed out finds `LT_ST_EXPIRED`. -/
theorem Inv.expire_event (h : x.Inv k) (hl : l ∈ x.sched.sleeping) (hx : x.resumeExpired l = .ok x')
    (hctx : (x.sched.lt l).ctx = .schedEvent fd e t) : x'.sched.has l .expired = true := by
  obtain ⟨y, z, -, -, hw, hx⟩ := h.resumeExpired_cases hl hx
  obtain ⟨hzctx, hnew, hcz, hez⟩ := h.expired_bits hl hw
  rw [hctx] at hzctx
  obtain ⟨-, ⟨hc, -⟩ | ⟨-, w, hw, rfl⟩⟩ := lthreadResume_cases hx
  · rw [hcz] at hc; cases hc
  · rw [initNew, if_neg (Bool.eq_false_iff.mp (hnew (by simp [hctx])))] at hw
    unfold afterYield at hw
    rw [hzctx] at hw
    simp only at hw
    split_ifs at hw
    obtain rfl := Except.ok.inj hw
    have hend : (z.sched.lthreadSchedEventEnd l e t).has l .expired = true := by
      rw [lthreadSchedEventEnd, clearBit_has, if_neg (by cases e <;> simp [waitBit])]
      simp only [has, modify_lt, if_pos]
      exact (lthreadSchedSleepEnd_has ..).trans ((if_neg (by simp)).trans hez)
    change ((z.sched.lthreadSchedEventEnd l e t).setCtx l .running).has l .expired = true
    rw [setCtx_has]
    exact hend

theorem Inv.event_resumed (h : x.Inv k) (hcpu : x.cpu = .loop) (hx : x.step .sched = .ok x')
    (hcpu' : x'.cpu = .run m) (hctx : (x.sched.lt m).ctx = .schedEvent fd e t) :
    (x'.sched.has m .expired = true ∧ t ≠ 0) ∨ (m ∈ x.sched.ready ∧ x.sched.has m .cancelled = false) ∨
      ∃ fd' e', x.phase.handles = some (fd', e') ∧ x.Waits m fd' e' := by
  replace hx := step_loop hcpu hx
  cases lthreadRun_round hx with
  | @expire _ l _ hp hm hd hx =>
    have hl : l ∈ x.sched.sleeping := List.argmin_mem hm
    obtain rfl := Cpu.run.inj ((resumeExpired_run h.seated hl hx).symm.trans hcpu')
    exact Or.inl ⟨h.expire_event hl hx hctx, Row.event_timeout (hctx ▸ h.row l) (count_ne_zero hl)⟩
  | @pop _ l rest _ hp hr hx =>
    obtain ⟨-, ⟨-, hdrop⟩ | ⟨hc, y, -, rfl⟩⟩ := lthreadResume_cases hx
    · rw [(dropCancelled_rest hdrop).2.1] at hcpu'; cases hcpu'
    · obtain rfl := Cpu.run.inj hcpu'
      exact Or.inr (Or.inl ⟨by simp [hr], hc⟩)
  | @deferPop l rest _ hp hr hx =>
    obtain ⟨-, ⟨-, hdrop⟩ | ⟨hc, y, -, rfl⟩⟩ := lthreadResume_cases hx
    · rw [(dropCancelled_rest hdrop).2.1] at hcpu'; cases hcpu'
    · obtain rfl := Cpu.run.inj hcpu'
      have hd : (x.seat l).cnt.defer ≠ 0 := count_ne_zero (by simp [hr])
      rcases ((h.row l).of_defer hd).1 with ⟨e, w, h1⟩ | ⟨j, h1⟩ <;> rw [hctx] at h1 <;> cases h1
  | read hp hx =>
    rcases h.handleEv_run hx with ⟨-, -, hc, -⟩ | ⟨l, -, hw, hc⟩
    · rw [hc, hcpu] at hcpu'; cases hcpu'
    · obtain rfl := Cpu.run.inj (hc.symm.trans hcpu')
      exact Or.inr (Or.inr ⟨_, .read, by rw [hp]; rfl, hw⟩)
  | write hp hx =>
    rcases h.handleEv_run hx with ⟨-, -, hc, -⟩ | ⟨l, -, hw, hc⟩
    · rw [hc, hcpu] at hcpu'; cases hcpu'
    · obtain rfl := Cpu.run.inj (hc.symm.trans hcpu')
      exact Or.inr (Or.inr ⟨_, .write, by rw [hp]; rfl, hw⟩)
  | _ => rw [hcpu] at hcpu'; cases hcpu'

theorem Inv.run_stays (h : x.Inv k) (hcpu : x.cpu = .run l) (ha : ∀ op, a ≠ .call op) (hx : x.step a = .ok x') :
    x'.cpu = .run l ∧ ∀ b, b ≠ .runcompute → x'.sched.has l b = x.sched.has l b := by
  have hl : l < x.sched.spawned := (h.seated.current hcpu).2.2.1
  cases step_cases hx with
  | clock | run | poll => exact ⟨hcpu, fun _ _ => rfl⟩
  | main =>
    refine ⟨hcpu, fun b _ => ?_⟩
    rw [onSched_sched, has, has, lthreadCreate]
    simp only [Function.update_of_ne hl.ne]
  | loop h0 | ioSignal h0 | leave h0 | back h0 | computeSignal h0 =>
    rw [hcpu] at h0
    cases h0
  | call => exact absurd rfl (ha _)
  | io hx =>
    obtain ⟨-, y, -, hcases⟩ := ioAct_cases hx
    rcases hcases with ⟨i, -, -, -, -, -, rfl⟩ | ⟨i, -, -, -, -, rfl⟩ | ⟨-, -, rfl⟩ <;> exact ⟨hcpu, fun _ _ => rfl⟩
  | compute hx =>
    obtain ⟨-, y, -, hcases⟩ := computeAct_cases hx
    rcases hcases with ⟨i, -, -, -, -, -, rfl⟩ | ⟨i, -, -, -, -, rfl⟩ | ⟨-, -, rfl⟩ | ⟨-, -, -, rfl⟩
    · refine ⟨hcpu, fun b hb => ?_⟩
      change (({ x.sched with defer := x.sched.defer ++ [i] } : Sched).clearBit i .runcompute).has l b = _
      rw [clearBit_has, if_neg fun h0 => hb h0.2]
      rfl
    · exact ⟨hcpu, fun _ _ => rfl⟩
    · exact ⟨hcpu, fun _ _ => rfl⟩
    · exact ⟨hcpu, fun _ _ => rfl⟩

end World
end Lthr
