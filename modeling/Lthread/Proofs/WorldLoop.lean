import Lthread.Proofs.WorldCancel

/-! `_lthread_resume` and `lthread_run`. The first switches to an lthread that one of
the loops of the second has found, or drops it if it has been cancelled; once the
lthread switches back, it is freed or handed to a compute thread if need be. -/

namespace Lthr

open Sched Seat

theorem lthreadCondWaitEnd_moves (s : Sched) (l : LtId) (c : CondId) (t : ℕ) :
    Moves s (s.lthreadCondWaitEnd l c t).1 l (condWaitEnd c t) := by
  intro io compute
  have hm := lthreadSchedBusySleepEnd_moves s l t io compute
  have hexp : (s.lthreadSchedBusySleepEnd l t).has l .expired =
      (dropBusy (onLt (·.clearBit .busy) (schedSleepEnd t (seatOf s io compute l)))).lt.state .expired :=
    congrArg (fun v : Seat => v.lt.state .expired) hm.self
  unfold lthreadCondWaitEnd
  by_cases he : (s.lthreadSchedBusySleepEnd l t).has l .expired = true
  · simp only [if_pos he]
    refine (hm.trans (blockedErase_moves _ l c io compute)).congr ?_
    rw [hexp] at he
    simp only [condWaitEnd, if_pos he]
    rfl
  · simp only [if_neg he]
    refine hm.congr ?_
    rw [hexp] at he
    simp only [condWaitEnd, if_neg he]
    rfl

theorem Sched.lthreadSchedEventEnd_moves (s : Sched) (l : LtId) (e : LtEvent) (t : ℕ) :
    Moves s (s.lthreadSchedEventEnd l e t) l fun v =>
      onLt (·.clearBit (waitBit e)) (onLt ({ · with fdWait := -1 }) (schedSleepEnd t v)) :=
  ((lthreadSchedSleepEnd_moves s l t).trans (modify_moves _ l ({ · with fdWait := -1 }))).trans
    (clearBit_moves _ l (waitBit e))

theorem Sys.returnFrom_sched (x : Sys) (l : LtId) (s : SelId) (t : ℕ) :
    (x.returnFrom l s t).sched = ((x.sched.lthreadCondWaitEnd l (.sel s) t).1).setCtx l .running := by
  unfold Sys.returnFrom Sys.chanBlockSelectEnd
  simp only
  split_ifs <;> rfl

namespace World

variable {k : Bool} {R : Rules} {x x' y : World} {l : LtId}

/-- `lthread_run` stays where it is, and nobody is created or dropped. -/
structure Still (x x' : World) : Prop where
  phase : x'.phase = x.phase
  spawned : x'.sched.spawned = x.sched.spawned
  dropped : x'.dropped = x.dropped

namespace Still

theorem refl (x : World) : Still x x := ⟨rfl, rfl, rfl⟩

theorem trans {a b c : World} (h1 : Still a b) (h2 : Still b c) : Still a c :=
  ⟨h2.phase.trans h1.phase, h2.spawned.trans h1.spawned, h2.dropped.trans h1.dropped⟩

theorem onSched {f : Sched → Sched} (hn : (f x.sched).spawned = x.sched.spawned) : Still x (x.onSched f) :=
  ⟨rfl, hn, rfl⟩

theorem board_eq (h : Still x x') {c : Cpu} (hcpu : x'.cpu = c) :
    x'.board = { x.board with seat := x'.seat, cpu := c } := by
  change (⟨_, x'.cpu, x'.sched.spawned, x'.phase.expiring, x'.dropped⟩ : Board) = _
  rw [h.phase, h.spawned, h.dropped, hcpu]
  rfl

end Still

/-! The switch -/

theorem afterYield_acts (hx : x.afterYield l = .ok x')
    (hj : ∀ target t, (x.sched.lt l).ctx ≠ .joining target t) :
    ActsAt x.seat (x'.onSched (·.setCtx l .running)).seat l (onLt ({ · with ctx := .running }) ∘ Seat.afterYield) ∧
      Still x x' := by
  have hctx (s : Sched) := setCtx_moves s l .running x.io x.compute
  have hcond (c : CondId) (t : ℕ) (r : LtId → ℤ) : ActsAt x.seat
      ({ x.onSched fun s => (s.lthreadCondWaitEnd l c t).1 with ret := r }.onSched
        (·.setCtx l .running)).seat l (onLt ({ · with ctx := .running }) ∘ condWaitEnd c t) :=
    (lthreadCondWaitEnd_moves x.sched l c t x.io x.compute).trans (hctx _)
  have hspawned (c : CondId) (t : ℕ) : (x.sched.lthreadCondWaitEnd l c t).1.spawned = x.sched.spawned := by
    rw [lthreadCondWaitEnd_eq]
    split_ifs <;> simp
  unfold World.afterYield at hx
  cases hc : (x.sched.lt l).ctx with
  | start | yielded | compute =>
    rw [hc] at hx
    obtain rfl := Except.ok.inj hx
    refine ⟨(hctx _).congr ?_, Still.refl x⟩
    simp only [Function.comp_apply, Seat.afterYield, seatOf, hc]
  | running | exited => rw [hc] at hx; cases hx
  | joining target t => exact absurd hc (hj target t)
  | slept t =>
    rw [hc] at hx
    obtain rfl := Except.ok.inj hx
    refine ⟨((lthreadSchedSleepEnd_moves x.sched l t x.io x.compute).trans (hctx _)).congr ?_,
      Still.onSched (by simp)⟩
    simp only [Function.comp_apply, Seat.afterYield, seatOf, hc]
  | condWait c t =>
    rw [hc] at hx
    obtain rfl := Except.ok.inj hx
    refine ⟨(hcond c t _).congr ?_, ⟨rfl, hspawned c t, rfl⟩⟩
    simp only [Function.comp_apply, Seat.afterYield, World.seat, seatOf, hc]
  | selWait s t =>
    rw [hc] at hx
    obtain rfl := Except.ok.inj hx
    have hsched := Sys.returnFrom_sched x.sys l s t
    have hm := ((lthreadCondWaitEnd_moves x.sched l (.sel s) t x.io x.compute).trans (hctx _)).trans (hctx _)
    replace hm : ActsAt x.seat (seatOf ((x.sys.returnFrom l s t).sched.setCtx l .running) x.io x.compute) l _ :=
      hsched ▸ hm
    refine ⟨hm.congr ?_, ⟨rfl, ?_, rfl⟩⟩
    · simp only [Function.comp_apply, Seat.afterYield, World.seat, seatOf, hc]
      rfl
    · change (x.sys.returnFrom l s t).sched.spawned = _
      rw [hsched]
      exact hspawned (.sel s) t
  | schedEvent fd e t =>
    rw [hc] at hx
    simp only at hx
    split_ifs at hx
    obtain rfl := Except.ok.inj hx
    refine ⟨((lthreadSchedEventEnd_moves x.sched l e t x.io x.compute).trans (hctx _)).congr ?_,
      Still.onSched (by simp [lthreadSchedEventEnd])⟩
    simp only [Function.comp_apply, Seat.afterYield, seatOf, hc]
  | ioWait e w =>
    rw [hc] at hx
    obtain rfl := Except.ok.inj hx
    refine ⟨((clearBit_moves x.sched l (waitIoBit e) x.io x.compute).trans (hctx _)).congr ?_,
      Still.onSched rfl⟩
    simp only [Function.comp_apply, Seat.afterYield, seatOf, hc]

theorem lthreadJoinEnd_cases {target : LtId} {t : ℕ} (hx : x.lthreadJoinEnd l target t = .ok x') :
    (x.sched.lt target).freed = false ∧
    (x.sched.has l .expired = true ∧ x' = (x.onSched fun s =>
        (s.lthreadSchedBusySleepEnd l t).modify target ({ · with ltJoin := none })).returnValue l (-2) ∨
     x.sched.has l .expired = false ∧ x' = (x.onSched fun s =>
        (s.lthreadSchedBusySleepEnd l t).modify target ({ · with freed := true })).returnValue l
          (if x.sched.has target .cancelled then -3 else 0)) := by
  unfold lthreadJoinEnd at hx
  simp only at hx
  have hexp : (x.onSched (·.lthreadSchedBusySleepEnd l t)).sched.has l .expired = x.sched.has l .expired := by
    simp [World.onSched, World.sched]
  have hself := lthreadSchedBusySleepEnd_moves x.sched l t x.io x.compute
  have htarget : ((x.onSched (·.lthreadSchedBusySleepEnd l t)).sched.lt target).freed =
        (x.sched.lt target).freed ∧
      (x.onSched (·.lthreadSchedBusySleepEnd l t)).sched.has target .cancelled =
        x.sched.has target .cancelled := by
    change (seatOf (x.sched.lthreadSchedBusySleepEnd l t) x.io x.compute target).lt.freed = _ ∧
      (seatOf (x.sched.lthreadSchedBusySleepEnd l t) x.io x.compute target).lt.state .cancelled = _
    by_cases htl : target = l
    · subst htl
      rw [hself.self]
      simp [Lt.clearBit, schedSleepEnd_state, seatOf, Sched.has]
    · rw [hself.other htl]
      exact ⟨rfl, rfl⟩
  rw [hexp, htarget.1, htarget.2] at hx
  by_cases hfr : (x.sched.lt target).freed = true
  · rw [if_pos hfr] at hx; cases hx
  · rw [if_neg hfr] at hx
    refine ⟨Bool.eq_false_iff.mpr hfr, ?_⟩
    by_cases he : x.sched.has l .expired = true
    · rw [if_pos he] at hx
      exact Or.inl ⟨he, (Except.ok.inj hx).symm⟩
    · rw [if_neg he] at hx
      exact Or.inr ⟨Bool.eq_false_iff.mpr he, (Except.ok.inj hx).symm⟩

end World

/-- The end of a join does not depend on the fields it changes in the target. -/
theorem Seat.switched_joining {v : Seat} {target : LtId} {t : ℕ} (hx : v.lt.ctx = .joining target t)
    (hn : v.lt.state .new = false) :
    v.switched = onLt ({ · with ctx := .running }) (dropBusy (onLt (·.clearBit .busy) (schedSleepEnd t v))) := by
  have hinit : v.init = v := if_neg (by simp [hn])
  simp only [switched, hinit, Seat.afterYield, hx]

theorem Seat.joined_swap {σ σ₁ σ₂ σ₃ : LtId → Seat} {l target : LtId} {t : ℕ} {f : Lt → Lt}
    (hx : (σ l).lt.ctx = .joining target t) (hnew : (σ l).lt.state .new = false)
    (hm₁ : ActsAt σ σ₁ l (dropBusy ∘ onLt (·.clearBit .busy) ∘ schedSleepEnd t))
    (hm₂ : ActsAt σ₁ σ₂ target (onLt f)) (hm₃ : ActsAt σ₂ σ₃ l (onLt ({ · with ctx := .running })))
    (hf : f = ({ · with ltJoin := none }) ∨ f = ({ · with freed := true })) :
    ∃ τ, ActsAt σ τ target (onLt f) ∧ ActsAt τ σ₃ l switched := by
  by_cases htl : target = l
  · subst htl
    refine ⟨_, rfl, ?_⟩
    have hall := (hm₁.trans hm₂).trans hm₃
    refine Eq.trans hall ?_
    rw [Function.update_idem, Function.update_self]
    refine congrArg _ ?_
    rcases hf with rfl | rfl
    · refine Eq.trans ?_ (switched_joining (v := onLt ({ · with ltJoin := none }) (σ target)) hx hnew).symm
      by_cases ht : 0 < t <;> simp [schedSleepEnd, ht, onLt, dropBusy, Lt.clearBit]
    · refine Eq.trans ?_ (switched_joining (v := onLt ({ · with freed := true }) (σ target)) hx hnew).symm
      by_cases ht : 0 < t <;> simp [schedSleepEnd, ht, onLt, dropBusy, Lt.clearBit]
  · obtain ⟨τ, hτ, hl⟩ := hm₁.swap (Ne.symm htl) hm₂
    refine ⟨τ, hτ, (hl.trans hm₃).congr ?_⟩
    rw [hτ.other (Ne.symm htl), switched_joining hx hnew]
    rfl

namespace World

variable {k : Bool} {R : Rules} {x x' y : World} {l : LtId}

/-- `_lthread_init`, for an lthread that has not run yet. -/
def initNew (x : World) (l : LtId) : World := if x.sched.has l .new then x.lthreadInit l else x

theorem lthreadResume_cases (hx : x.lthreadResume l = .ok x') : (x.sched.lt l).freed = false ∧
    (x.sched.has l .cancelled = true ∧ x.dropCancelled l = .ok x' ∨
     x.sched.has l .cancelled = false ∧ ∃ y, (x.initNew l).afterYield l = .ok y ∧
      x' = { y.onSched (·.setCtx l .running) with cpu := .run l }) := by
  unfold lthreadResume at hx
  by_cases hf : (x.sched.lt l).freed = true
  · rw [if_pos hf] at hx; cases hx
  · rw [if_neg hf] at hx
    refine ⟨Bool.eq_false_iff.mpr hf, ?_⟩
    by_cases hc : x.sched.has l .cancelled = true
    · rw [if_pos hc] at hx
      exact Or.inl ⟨hc, hx⟩
    · rw [if_neg hc] at hx
      obtain ⟨y, hy, hx⟩ := except_bind_ok hx
      exact Or.inr ⟨Bool.eq_false_iff.mpr hc, y, hy, (Except.ok.inj hx).symm⟩

theorem initNew_acts (x : World) (l : LtId) :
    ActsAt x.seat (x.initNew l).seat l Seat.init ∧ Still x (x.initNew l) := by
  unfold initNew
  by_cases hn : x.sched.has l .new = true
  · rw [if_pos hn]
    have hm : ActsAt x.seat (x.lthreadInit l).seat l (onLt ({ · with state := fun b => decide (b = .ready) })) :=
      modify_moves x.sched l ({ · with state := fun b => decide (b = .ready) }) x.io x.compute
    exact ⟨hm.congr (if_pos hn).symm, Still.onSched rfl⟩
  · rw [if_neg hn]
    exact ⟨(ActsAt.refl x.seat l).congr (if_neg hn).symm, Still.refl x⟩

/-- The switch to an lthread that has been taken from where the scheduler found it. -/
theorem lthreadResume_acts (h : (x.seat l).Leaves) (hx : x.lthreadResume l = .ok x') :
    ∃ σ, JoinEnds x.seat σ l ∧ ActsAt σ x'.seat l switched ∧ x'.cpu = .run l ∧ Still x x' := by
  have hc : x.sched.has l .cancelled = false := h.cancelled
  obtain ⟨-, ⟨hcanc, -⟩ | ⟨-, y, hy, rfl⟩⟩ := lthreadResume_cases hx
  · rw [hc] at hcanc; cases hcanc
  · obtain ⟨hinit, hstill₁⟩ := initNew_acts x l
    by_cases hj : ∃ target t, (x.seat l).lt.ctx = .joining target t
    · obtain ⟨target, t, hj⟩ := hj
      have hn : (x.seat l).lt.state .new = false := by
        rw [Bool.eq_false_iff, ne_eq, h.new, hj]; simp
      have hj' : (x.sched.lt l).ctx = .joining target t := hj
      rw [initNew, if_neg (show ¬ x.sched.has l .new = true from Bool.eq_false_iff.mp hn)] at hy
      simp only [World.afterYield, hj'] at hy
      have hm₁ := lthreadSchedBusySleepEnd_moves x.sched l t x.io x.compute
      have hm₂ (f : Lt → Lt) := modify_moves (x.sched.lthreadSchedBusySleepEnd l t) target f x.io x.compute
      have hm₃ (s : Sched) := setCtx_moves s l .running x.io x.compute
      obtain ⟨hfr, ⟨he, rfl⟩ | ⟨he, rfl⟩⟩ := lthreadJoinEnd_cases hy
      · obtain ⟨τ, hτ, hsw⟩ := joined_swap hj hn hm₁ (hm₂ _) (hm₃ _) (Or.inl rfl)
        refine ⟨τ, ?_, hsw, rfl, ⟨rfl, ?_, rfl⟩⟩
        · unfold JoinEnds
          rw [hj]
          exact ⟨hfr, (if_pos (show (x.seat l).lt.state .expired = true from he)).mpr hτ⟩
        · simp [World.onSched, World.sched, World.returnValue]
      · obtain ⟨τ, hτ, hsw⟩ := joined_swap hj hn hm₁ (hm₂ _) (hm₃ _) (Or.inr rfl)
        refine ⟨τ, ?_, hsw, rfl, ⟨rfl, ?_, rfl⟩⟩
        · unfold JoinEnds
          rw [hj]
          have he' : ¬ (x.seat l).lt.state .expired = true := Bool.eq_false_iff.mp he
          exact ⟨hfr, (if_neg he').mpr hτ⟩
        · simp [World.onSched, World.sched, World.returnValue]
    · have hctx : ((x.initNew l).seat l).lt.ctx = (x.seat l).lt.ctx := by
        rw [hinit.self, Seat.init]
        split_ifs <;> rfl
      obtain ⟨hm, hstill₂⟩ := afterYield_acts hy fun target t h1 => hj ⟨target, t, hctx.symm.trans h1⟩
      refine ⟨x.seat, ?_, hinit.trans hm, rfl,
        hstill₁.trans (hstill₂.trans ⟨rfl, rfl, rfl⟩)⟩
      unfold JoinEnds
      split
      · next target t heq => exact absurd ⟨target, t, heq⟩ hj
      · rfl

theorem resume_turn {t : Take} (h : x.board.Seated k) (hcpu : x.cpu = .loop) (hR : R x.board (.resume l))
    (hn : y.sched.spawned = x.sched.spawned) (hp : y.phase.expiring = x.phase.expiring)
    (hd : y.dropped = x.dropped) (hc : (x.seat l).lt.state .cancelled = false) (ht : t.Finds (x.seat l))
    (he : ∀ w, t = .expired w → x.phase.expiring = true) (hm : ActsAt x.seat y.seat l t.act)
    (hx : y.lthreadResume l = .ok x') : Turn R x.board x'.board := by
  have hleaves : (y.seat l).Leaves := by
    rw [hm.self]
    exact Leaves.of_take (h.seats l) hc ht
  obtain ⟨σ, hj, hsw, hcpu', hstill⟩ := lthreadResume_acts hleaves hx
  have heq : x'.board = { x.board with seat := x'.seat, cpu := .run l } := by
    rw [hstill.board_eq hcpu']
    change (⟨_, _, y.sched.spawned, y.phase.expiring, y.dropped⟩ : Board) = _
    rw [hn, hp, hd]
    rfl
  have hfr : (x.seat l).lt.freed = false := by
    rw [← (take_keeps ht).1.freed, ← hm.self]
    exact (lthreadResume_cases hx).1
  rw [heq]
  exact Turn.resume t hR hcpu hfr hc ht he hm hj hsw

/-! The end of an lthread -/

theorem wakeJoiner_cases (hx : x.wakeJoiner l = .ok x') :
    (x.sched.lt l).ltJoin = none ∧ x' = x ∨
    ∃ j, (x.sched.lt l).ltJoin = some j ∧ (x.sched.lt j).freed = false ∧ x' = x.onSched fun s =>
      ((s.lthreadDeschedSleep j).readyInsert j).modify l ({ · with ltJoin := none }) := by
  unfold wakeJoiner at hx
  cases hj : (x.sched.lt l).ltJoin with
  | none =>
    rw [hj] at hx
    exact Or.inl ⟨rfl, (Except.ok.inj hx).symm⟩
  | some j =>
    simp only [hj] at hx
    by_cases hf : (x.sched.lt j).freed = true
    · rw [if_pos hf] at hx; cases hx
    · rw [if_neg hf] at hx
      exact Or.inr ⟨j, rfl, Bool.eq_false_iff.mpr hf, (Except.ok.inj hx).symm⟩

theorem wakeJoiner_acts (hx : x.wakeJoiner l = .ok x') :
    WakesJoiner x.seat x'.seat l ∧ Still x x' ∧ x'.cpu = x.cpu := by
  unfold WakesJoiner
  rcases wakeJoiner_cases hx with ⟨hj, rfl⟩ | ⟨j, hj, -, rfl⟩
  · rw [show (x'.seat l).lt.ltJoin = none from hj]
    exact ⟨rfl, Still.refl _, rfl⟩
  · rw [show (x.seat l).lt.ltJoin = some j from hj]
    have h1 := (lthreadDeschedSleep_moves x.sched j).trans (readyInsert_moves _ j) x.io x.compute
    have h2 := modify_moves ((x.sched.lthreadDeschedSleep j).readyInsert j) l ({ · with ltJoin := none })
      x.io x.compute
    exact ⟨⟨_, h1, h2⟩, Still.onSched (lthreadDeschedSleep_spawned x.sched j), rfl⟩

theorem freeDetached_acts (x : World) (l : LtId) :
    ActsAt x.seat (x.freeDetached l).seat l Seat.freeDetached ∧ Still x (x.freeDetached l) ∧
      (x.freeDetached l).cpu = x.cpu := by
  unfold World.freeDetached
  by_cases hd : x.sched.has l .detach = true
  · rw [if_pos hd]
    exact ⟨(lthreadFree_moves x.sched l x.io x.compute).congr (if_pos hd).symm, Still.onSched rfl, rfl⟩
  · rw [if_neg hd]
    exact ⟨(ActsAt.refl x.seat l).congr (if_neg hd).symm, Still.refl x, rfl⟩

theorem unbusy_acts (x : World) (l : LtId) :
    ActsAt x.seat (x.unbusy l).seat l Seat.unbusy ∧ Still x (x.unbusy l) ∧ (x.unbusy l).cpu = x.cpu := by
  unfold World.unbusy
  by_cases hb : x.sched.has l .busy = true
  · rw [if_pos hb]
    exact ⟨(busyErase_moves x.sched l x.io x.compute).congr (if_pos hb).symm, Still.onSched rfl, rfl⟩
  · rw [if_neg hb]
    exact ⟨(ActsAt.refl x.seat l).congr (if_neg hb).symm, Still.refl x, rfl⟩

/-- The caller of `_lthread_resume` clears the bit of an expiry unless the lthread is gone. -/
theorem resumed_eq (x : World) (l : LtId) (r : ℤ) : ∃ ph : Phase, ph.expiring = x.phase.expiring ∧
    x.resumed l r = { (if x.phase.expiring = true ∧ r ≠ -1 then x.onSched (·.clearBit l .expired) else x) with
      phase := ph, cpu := .loop } := by
  unfold resumed
  cases hp : x.phase with
  | expired t =>
    refine ⟨x.phase, by rw [hp], ?_⟩
    by_cases hr : r = -1 <;> simp [Phase.expiring, hr, World.onSched]
  | ready last =>
    refine ⟨if last = some l then .defer else .ready last, ?_, by simp [Phase.expiring]⟩
    split_ifs <;> rfl
  | _ => exact ⟨x.phase, by rw [hp], by simp [Phase.expiring, hp]⟩

theorem resumed_gone (x : World) (l : LtId) : (x.resumed l (-1)).board = { x.board with cpu := .loop } := by
  obtain ⟨ph, hph, heq⟩ := resumed_eq x l (-1)
  rw [heq, if_neg (by simp)]
  change (⟨_, _, _, ph.expiring, _⟩ : Board) = _
  rw [hph]
  rfl

theorem resumed_turns (h : x.board.Seated k)
    (hcpu : x.cpu = .computeAdd l ∨ x.cpu = .back l ∧ (x.seat l).lt.state .pendingRuncompute = false ∧
      (x.seat l).lt.state .exited = false) :
    Turns R x.board (x.resumed l 0).board := by
  obtain ⟨ph, hph, heq⟩ := resumed_eq x l 0
  by_cases hp : x.phase.expiring = true
  · have hb : (x.resumed l 0).board = { (x.onSched (·.clearBit l .expired)).board with cpu := .loop } := by
      rw [heq, if_pos ⟨hp, by simp⟩]
      change (⟨_, _, _, ph.expiring, _⟩ : Board) = _
      rw [hph]
      rfl
    have h1 : Turn R x.board (x.onSched (·.clearBit l .expired)).board := clearBit_turn rfl (by simp)
    have hself : (x.onSched (·.clearBit l .expired)).seat l = onLt (·.clearBit .expired) (x.seat l) :=
      (clearBit_moves x.sched l .expired x.io x.compute).self
    rw [hb]
    refine (Relation.ReflTransGen.single h1).tail (Turn.back (hcpu.imp id fun hb => ⟨hb.1, ?_⟩) (Or.inl ?_))
    · rw [board_seat, hself]
      simpa [Lt.clearBit] using hb.2
    · rw [board_seat, hself]
      simp [Lt.clearBit]
  · have hb : (x.resumed l 0).board = { x.board with cpu := .loop } := by
      rw [heq, if_neg fun h0 => hp h0.1]
      change (⟨_, _, _, ph.expiring, _⟩ : Board) = _
      rw [hph]
      rfl
    rw [hb]
    refine Relation.ReflTransGen.single (Turn.back hcpu ?_)
    by_contra hcon
    rw [not_or, Bool.not_eq_false] at hcon
    rcases h.expired l hcon.1 with h0 | h0
    · exact hcon.2 h0
    · exact hp h0.2

theorem lthreadResumeEnd_turns (h : x.board.Seated k) (hcpu : x.cpu = .back l)
    (hx : x.lthreadResumeEnd l = .ok x') : Turns R x.board x'.board := by
  unfold lthreadResumeEnd at hx
  by_cases hf : (x.sched.lt l).freed = true
  · rw [if_pos hf] at hx; cases hx
  rw [if_neg hf] at hx
  by_cases he : x.sched.has l .exited = true
  · rw [if_pos he] at hx
    obtain ⟨y, hy, hx⟩ := except_bind_ok hx
    obtain rfl := Except.ok.inj hx
    obtain ⟨hwake, hstill, hcpu'⟩ := wakeJoiner_acts hy
    obtain ⟨hfree, hstill', hcpu''⟩ := freeDetached_acts y l
    rw [resumed_gone, (hstill.trans hstill').board_eq (hcpu''.trans hcpu')]
    exact Relation.ReflTransGen.single (Turn.finish hcpu (Bool.eq_false_iff.mpr hf) he hwake hfree)
  rw [if_neg he] at hx
  by_cases hp : x.sched.has l .pendingRuncompute = true
  · rw [if_pos hp] at hx
    obtain ⟨j, -, hx⟩ := except_bind_ok hx
    obtain rfl := Except.ok.inj hx
    have hm := ((busyInsert_moves x.sched l).trans (clearBit_moves _ l .pendingRuncompute)).trans
      (setBit_moves _ l .runcompute) x.io x.compute
    exact Relation.ReflTransGen.single (Turn.computeAdd hcpu hp (hm.congr rfl))
  · rw [if_neg hp] at hx
    obtain rfl := Except.ok.inj hx
    exact resumed_turns h (Or.inr ⟨hcpu, Bool.eq_false_iff.mpr hp, Bool.eq_false_iff.mpr he⟩)

theorem dropCancelled_turn {t : Take} (hcpu : x.cpu = .loop) (hf : (x.seat l).lt.freed = false)
    (hc : (x.seat l).lt.state .cancelled = true) (hq : t = .ready ∨ t = .defer) (ht : t.Finds (x.seat l))
    (hstill : Still x y) (hcpu' : y.cpu = x.cpu) (hm : ActsAt x.seat y.seat l t.act)
    (hx : y.dropCancelled l = .ok x') : Turn R x.board x'.board := by
  unfold dropCancelled at hx
  obtain ⟨z, hz, hx⟩ := except_bind_ok hx
  obtain rfl := Except.ok.inj hx
  obtain ⟨hwake, hstill₁, hcpu₁⟩ := wakeJoiner_acts hz
  obtain ⟨hfree, hstill₂, hcpu₂⟩ := freeDetached_acts z l
  obtain ⟨hbusy, hstill₃, hcpu₃⟩ := unbusy_acts (z.freeDetached l) l
  have hall := hstill.trans (hstill₁.trans (hstill₂.trans hstill₃))
  have hloop : ((z.freeDetached l).unbusy l).cpu = .loop := by
    rw [hcpu₃, hcpu₂, hcpu₁, hcpu', hcpu]
  have heq : ({ ((z.freeDetached l).unbusy l).resumed l (-1) with
      dropped := Function.update z.dropped l true } : World).board =
      { x.board with
        seat := ((z.freeDetached l).unbusy l).seat
        dropped := Function.update x.dropped l true } := by
    have hgone := resumed_gone ((z.freeDetached l).unbusy l) l
    have hb := hall.board_eq hloop
    have hdr : z.dropped = x.dropped := hstill₁.dropped.trans hstill.dropped
    change { (((z.freeDetached l).unbusy l).resumed l (-1)).board with
      dropped := Function.update z.dropped l true } = _
    rw [hgone, hb, hdr, ← hcpu]
    rfl
  rw [heq]
  exact Turn.drop t hcpu hf hc hq ht hm hwake (hfree.trans hbusy)

/-! The loops of `lthread_run` -/

/-- The head of the ready queue is resumed, or dropped if it has been cancelled. -/
theorem readyPop_turn (h : x.board.Seated k) (hcpu : x.cpu = .loop) (hR : R x.board (.resume l)) {rest : List LtId}
    (hr : x.sched.ready = l :: rest)
    (hx : (x.onSched fun s => { s with ready := rest }).lthreadResume l = .ok x') :
    Turn R x.board x'.board := by
  have hm : ActsAt x.seat (x.onSched fun s => { s with ready := rest }).seat l (Take.act .ready) :=
    readyPop_moves x.sched l hr x.io x.compute
  have hcnt : (x.seat l).cnt.ready ≠ 0 := count_ne_zero (by rw [hr]; exact List.mem_cons_self)
  obtain ⟨hf, ⟨hc, hdrop⟩ | ⟨hc, -⟩⟩ := lthreadResume_cases hx
  · exact dropCancelled_turn (t := .ready) hcpu hf hc (Or.inl rfl) hcnt (Still.onSched rfl) rfl hm hdrop
  · exact resume_turn (y := x.onSched fun s => { s with ready := rest }) (t := .ready) h hcpu hR rfl rfl
      rfl hc hcnt (fun w hw => by cases hw) hm hx

/-- The head of the defer queue is resumed, or dropped if it has been cancelled. -/
theorem deferPop_turn (h : x.board.Seated k) (hcpu : x.cpu = .loop) (hR : R x.board (.resume l)) {rest : List LtId}
    (hr : x.sched.defer = l :: rest)
    (hx : (x.onSched fun s => { s with defer := rest, busy := s.busy.erase l }).lthreadResume l = .ok x') :
    Turn R x.board x'.board := by
  have hm : ActsAt x.seat (x.onSched fun s => { s with defer := rest, busy := s.busy.erase l }).seat l
      (Take.act .defer) :=
    (deferPop_moves x.sched l hr).trans (busyErase_moves _ l) x.io x.compute
  have hcnt : (x.seat l).cnt.defer ≠ 0 := count_ne_zero (by rw [hr]; exact List.mem_cons_self)
  obtain ⟨hf, ⟨hc, hdrop⟩ | ⟨hc, -⟩⟩ := lthreadResume_cases hx
  · exact dropCancelled_turn (t := .defer) hcpu hf hc (Or.inr rfl) hcnt (Still.onSched rfl) rfl hm hdrop
  · exact resume_turn (y := x.onSched fun s => { s with defer := rest, busy := s.busy.erase l }) (t := .defer) h
      hcpu hR rfl rfl rfl hc hcnt (fun w hw => by cases hw) hm hx

/-- What a round of `_lthread_resume_expired` has done before it resumes the sleeper. -/
theorem expired_acts (h : x.board.Seated k) (hl : l ∈ x.sched.sleeping) (hy : x.lthreadCancelEvent l = .ok y) :
    ∃ w, (x.seat l).Expires w ∧
      ActsAt x.seat (y.onSched fun s => (s.lthreadDeschedSleep l).setBit l .expired).seat l fun _ => w := by
  have hok : (x.seat l).Ok k l := h.seats l
  obtain ⟨-, -, hshape⟩ := hok.row.of_sleeping (count_ne_zero hl)
  obtain ⟨w, hw, hacts⟩ := lthreadCancelEvent_acts hy (hok.key.imp id fun ⟨fd, e, u, _, hk⟩ => ⟨fd, e, hk⟩)
    hok.waiting hok.waiting_le hok.sleeping hok.sleeping_le fun m hm hl' hk => h.links.keys m l hm hl' hk
  -- nobody else has the key, as an lthread that sleeps with a key is in the waiting tree
  have hacts : ActsAt x.seat y.seat l fun _ => w := by
    rcases hacts with ha | ⟨m, τ, hml, hmw, hmk, -, -⟩
    · exact ha
    · have hwait : (x.seat l).cnt.waiting ≠ 0 := by
        rcases hok.key with hk | ⟨fd, e, u, hctx, hk⟩
        · exact absurd (hmk.trans hk) ((h.seats m).waiting hmw)
        · rcases hshape with ⟨⟨t', hx'⟩, -⟩ | ⟨i, t', hx', -⟩ | ⟨⟨T, t', hx'⟩, -⟩ | ⟨-, hcnt⟩
          · rw [hctx] at hx'; cases hx'
          · rw [hctx] at hx'; cases hx'
          · rw [hctx] at hx'; cases hx'
          · rw [hcnt]; simp
      exact absurd (h.links.keys m l hmw hwait hmk) hml
  refine ⟨onLt (·.setBit .expired) (Seat.deschedSleep w), Expires.of_unregistered hw hok.sleeping_le, ?_⟩
  have h2 := (lthreadDeschedSleep_moves y.sched l).trans (setBit_moves _ l .expired) y.io y.compute
  exact (hacts.trans h2).congr rfl

theorem resumeExpired_turn (h : x.board.Seated k) (hcpu : x.cpu = .loop) (hR : R x.board (.resume l)) {t : ℕ}
    (hp : x.phase = .expired t) (hl : l ∈ x.sched.sleeping) (hx : x.resumeExpired l = .ok x') :
    Turn R x.board x'.board := by
  unfold resumeExpired at hx
  obtain ⟨y, hy, hx⟩ := except_bind_ok hx
  have hs : (x.seat l).cnt.sleeping ≠ 0 := count_ne_zero hl
  obtain ⟨-, hph, hdr, hn⟩ := lthreadCancelEvent_frame hy
  obtain ⟨w, hw, hm⟩ := expired_acts h hl hy
  have hstill : Still y (y.onSched fun s => (s.lthreadDeschedSleep l).setBit l .expired) :=
    Still.onSched (by simp)
  exact resume_turn (t := .expired w) h hcpu hR (hstill.spawned.trans hn) (by rw [hstill.phase, hph])
    (hstill.dropped.trans hdr) ((h.seats l).row.of_sleeping hs).1 ⟨hs, hw⟩ (fun _ _ => by rw [hp]; rfl) hm hx

theorem resumeExpired_run (h : x.board.Seated k) (hl : l ∈ x.sched.sleeping) (hx : x.resumeExpired l = .ok x') :
    x'.cpu = .run l := by
  unfold resumeExpired at hx
  obtain ⟨y, hy, hx⟩ := except_bind_ok hx
  obtain ⟨w, hw, hm⟩ := expired_acts h hl hy
  obtain ⟨-, ⟨hc, -⟩ | ⟨-, z, -, rfl⟩⟩ := lthreadResume_cases hx
  · have hold : (x.seat l).lt.state .cancelled = false := ((h.seats l).row.of_sleeping (count_ne_zero hl)).1
    have hself : ((y.onSched fun s => (s.lthreadDeschedSleep l).setBit l .expired).seat l).lt.state .cancelled
        = false := by
      rw [hm.self, hw.bits _ (by simp) rfl (by intro e; cases e <;> simp [waitBit])]
      exact hold
    exact absurd hc (Bool.eq_false_iff.mp hself)
  · rfl

theorem handleEv_cases {fd : Fd} {e : LtEvent} {eof : Bool} {next : Bool → Except Fault Phase}
    (hx : x.handleEv fd e eof next = .ok x') :
    (∃ ph, next false = .ok ph ∧ (∀ m ∈ x.sched.waiting, (x.sched.lt m).fdWait ≠ fdKey fd e) ∧
      x' = { x with phase := ph }) ∨
    ∃ ph m s, next true = .ok ph ∧ x.sched.lthreadDeschedEvent fd e = (s, some m) ∧ m ∈ x.sched.waiting ∧
      (x.sched.lt m).fdWait = fdKey fd e ∧ Moves x.sched s m (Seat.deschedSleep ∘ dropWaiting) ∧
      s.spawned = x.sched.spawned ∧
      { x.onSched (fun _ => if eof then s.setBit m .fdeof else s) with phase := ph }.lthreadResume m = .ok x' := by
  unfold handleEv at hx
  rcases lthreadDeschedEvent_cases x.sched fd e with ⟨hd, hnone⟩ | ⟨m, s, hd, hmem, hkey, hm⟩
  · rw [hd] at hx
    obtain ⟨ph, hph, hx⟩ := except_bind_ok hx
    exact Or.inl ⟨ph, hph, hnone, (Except.ok.inj hx).symm⟩
  · rw [hd] at hx
    obtain ⟨ph, hph, hx⟩ := except_bind_ok hx
    have hn := lthreadDeschedEvent_spawned x.sched fd e
    rw [hd] at hn
    exact Or.inr ⟨ph, m, s, hph, hd, hmem, hkey, hm, hn, hx⟩

theorem handleEv_turn (h : x.board.Seated k) (hcpu : x.cpu = .loop) (hR : ∀ l, R x.board (.resume l)) {fd : Fd}
    {e : LtEvent} {eof : Bool} {next : Bool → Except Fault Phase}
    (hnext : ∀ b ph, next b = .ok ph → ph.expiring = x.phase.expiring)
    (hx : x.handleEv fd e eof next = .ok x') : Turn R x.board x'.board := by
  rcases handleEv_cases hx with ⟨ph, hph, -, rfl⟩ | ⟨ph, m, s, hph, -, hmem, -, hm, hn, hx⟩
  · exact Turn.phase (e := ph.expiring) hcpu
  · have hcnt : (x.seat m).cnt.waiting ≠ 0 := count_ne_zero hmem
    obtain ⟨hc, -⟩ := (h.seats m).row.of_waiting hcnt
    have hacts : ActsAt x.seat
        ({ x.onSched (fun _ => if eof then s.setBit m .fdeof else s) with phase := ph } : World).seat m
        (Take.act (.event eof)) := by
      cases eof with
      | false => exact (hm x.io x.compute).congr rfl
      | true => exact ((hm.trans (setBit_moves s m .fdeof)) x.io x.compute).congr rfl
    exact resume_turn
      (y := { x.onSched (fun _ => if eof then s.setBit m .fdeof else s) with phase := ph }) (t := .event eof) h hcpu
      (hR m) (by cases eof <;> exact hn) (hnext true ph hph) rfl hc hcnt (fun w hw => by cases hw) hacts hx

inductive Round (x : World) : World → Prop
  | done (hp : x.phase = .isdone) (hd : x.sched.lthreadSchedIsdone = true) : Round x { x with phase := .done }
  | start (hp : x.phase = .isdone) :
      Round x { x with phase := .expired (lthreadDiffUsecs x.sched.birth x.sched.usecNow) }
  | expire {t : ℕ} {m : LtId} {x' : World} (hp : x.phase = .expired t) (hm : x.sched.sleepMin = some m)
      (hd : (x.sched.lt m).sleepUsecs ≤ t) (hx : x.resumeExpired m = .ok x') : Round x x'
  | expired {t : ℕ} (hp : x.phase = .expired t)
      (hm : ∀ m, x.sched.sleepMin = some m → t < (x.sched.lt m).sleepUsecs) :
      Round x { x with phase := .ready x.sched.ready.getLast? }
  | pop {last : Option LtId} {m : LtId} {rest : List LtId} {x' : World} (hp : x.phase = .ready last)
      (hr : x.sched.ready = m :: rest) (hx : (x.onSched fun s => { s with ready := rest }).lthreadResume m = .ok x') :
      Round x x'
  | popped {last : Option LtId} (hp : x.phase = .ready last) (hr : x.sched.ready = []) :
      Round x { x with phase := .defer }
  | deferPop {m : LtId} {rest : List LtId} {x' : World} (hp : x.phase = .defer) (hr : x.sched.defer = m :: rest)
      (hx : (x.onSched fun s => { s with defer := rest, busy := s.busy.erase m }).lthreadResume m = .ok x') : Round x x'
  | deferPopped (hp : x.phase = .defer) (hr : x.sched.defer = []) : Round x { x with phase := .poll }
  | poll (hp : x.phase = .poll) : Round x { x with phase := .polling }
  | again (hp : x.phase = .poll ∨ x.phase = .events []) : Round x { x with phase := .isdone }
  | trigger {evs : List PollEvent} (hp : x.phase = .events (.trigger :: evs)) :
      Round x { x with phase := .events evs, eventfd := 0 }
  | read {fd : Fd} {eof : Bool} {evs : List PollEvent} {x' : World} (hp : x.phase = .events (.ready fd eof :: evs))
      (hx : x.handleEv fd .read eof (fun ltRead => .ok (.write fd eof ltRead evs)) = .ok x') : Round x x'
  | write {fd : Fd} {eof r : Bool} {evs : List PollEvent} {x' : World} (hp : x.phase = .write fd eof r evs)
      (hx : x.handleEv fd .write eof (fun ltWrite =>
        if ltWrite || r then .ok (.events evs) else .error .unhandledEvent) = .ok x') : Round x x'

theorem lthreadRun_round (hx : x.lthreadRun = .ok x') : Round x x' := by
  unfold lthreadRun at hx
  cases hp : x.phase with
  | setup | polling | done => rw [hp] at hx; cases hx
  | isdone =>
    simp only [hp] at hx
    split_ifs at hx with hd <;> obtain rfl := Except.ok.inj hx
    · exact .done hp hd
    · exact .start hp
  | expired t =>
    simp only [hp] at hx
    cases hmin : x.sched.sleepMin with
    | none =>
      rw [hmin] at hx
      obtain rfl := Except.ok.inj hx
      exact .expired hp fun m hm => by rw [hmin] at hm; cases hm
    | some l =>
      simp only [hmin] at hx
      split_ifs at hx with hd
      · exact .expire hp hmin hd hx
      · obtain rfl := Except.ok.inj hx
        refine .expired hp fun m hm => ?_
        obtain rfl := Option.some_inj.mp (hmin.symm.trans hm)
        exact not_le.mp hd
  | ready last =>
    simp only [hp] at hx
    cases hr : x.sched.ready with
    | nil =>
      rw [hr] at hx
      obtain rfl := Except.ok.inj hx
      exact .popped hp hr
    | cons l rest =>
      rw [hr] at hx
      exact .pop hp hr hx
  | defer =>
    simp only [hp] at hx
    cases hr : x.sched.defer with
    | nil =>
      rw [hr] at hx
      obtain rfl := Except.ok.inj hx
      exact .deferPopped hp hr
    | cons l rest =>
      rw [hr] at hx
      exact .deferPop hp hr hx
  | poll =>
    simp only [hp] at hx
    split_ifs at hx <;> obtain rfl := Except.ok.inj hx
    · exact .poll hp
    · exact .again (Or.inl hp)
  | events evs =>
    simp only [hp] at hx
    match evs, hp, hx with
    | [], hp, hx =>
      obtain rfl := Except.ok.inj hx
      exact .again (Or.inr hp)
    | .trigger :: evs, hp, hx =>
      simp only at hx
      split_ifs at hx
      obtain rfl := Except.ok.inj hx
      exact .trigger hp
    | .ready fd eof :: evs, hp, hx => exact .read hp hx
  | write fd eof r evs =>
    simp only [hp] at hx
    exact .write hp hx

theorem lthreadRun_turn (h : x.board.Seated k) (hcpu : x.cpu = .loop) (hR : ∀ l, R x.board (.resume l))
    (hx : x.lthreadRun = .ok x') : Turn R x.board x'.board := by
  cases lthreadRun_round hx with
  | expire hp hm hd hx => exact resumeExpired_turn h hcpu (hR _) hp (List.argmin_mem hm) hx
  | pop hp hr hx => exact readyPop_turn h hcpu (hR _) hr hx
  | deferPop hp hr hx => exact deferPop_turn h hcpu (hR _) hr hx
  | read hp hx =>
    refine handleEv_turn h hcpu hR (fun b ph hph => ?_) hx
    rw [← Except.ok.inj hph, hp]
    rfl
  | write hp hx =>
    refine handleEv_turn h hcpu hR (fun b ph hph => ?_) hx
    split_ifs at hph
    rw [← Except.ok.inj hph, hp]
    rfl
  | _ => exact Turn.phase (e := Phase.expiring _) hcpu

end World
end Lthr
