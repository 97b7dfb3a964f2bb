import Lthread.Proofs.Forgotten
import Lthread.Proofs.Queues
import Lthread.Proofs.Sections

/-! What a join leaves behind: where the joiner wants the value of its target, and what the
exit of the target writes there. An lthread writes through the pointer of the joiner on record, so
that two joins that are given one cell see one value. -/

namespace Lthr

open Seat

theorem Sched.lthreadSchedBusySleep_keeps (s : Sched) (l : LtId) (n : ℕ) : KeepsLt s (s.lthreadSchedBusySleep l n) := by
  unfold lthreadSchedBusySleep
  refine KeepsLt.trans ?_ (lthreadSchedSleep_keeps _ l n)
  have hk := setBit_keeps s l .busy
  exact ⟨hk.ctx, hk.fdWait, hk.ltJoin, hk.freed, hk.exitPtr⟩

namespace World

open Sched

variable {k : Bool} {x x' : World} {a : Label} {j l m : LtId} {t : ℕ} {ptr : Option ℕ}

/-! The calls -/

/-- A join returns -1 at once and frees its target, which has exited, or suspends the joiner. -/
theorem lthreadJoin_ends (hx : x.lthreadJoin j l ptr t = .ok x') : (x.sched.lt l).freed = false ∧
    (x.sched.has l .exited = true ∧ x'.ret j = -1 ∧ x'.cpu = x.cpu ∧ (x'.sched.lt l).freed = true ∧
        (∀ m, (x'.sched.lt m).ctx = (x.sched.lt m).ctx) ∨
      x.sched.has l .exited = false ∧ x'.cpu = .back j ∧ (x'.sched.lt j).ctx = .joining l t ∧
        (x'.sched.lt j).ltExitPtr = ptr) := by
  obtain ⟨-, hf, ⟨hexit, rfl⟩ | ⟨hexit, rfl⟩⟩ := lthreadJoin_cases hx
  · refine ⟨hf, Or.inl ⟨hexit, Function.update_self .., rfl, ?_, fun m => ?_⟩⟩
    · simp only [returnValue_sched, onSched_sched, lthreadFree, modify_lt, if_true]
    · have hmodify (s : Sched) (i : LtId) (f : Lt → Lt) (hf : ∀ lt, (f lt).ctx = lt.ctx) :
          ((s.modify i f).lt m).ctx = (s.lt m).ctx := by
        rw [modify_lt]
        split_ifs with hi
        · rw [hi, hf]
        · rfl
      calc _ = ((joinStored j l ptr x.sched).lt m).ctx := hmodify _ l ({ · with freed := true }) fun _ => rfl
        _ = ((x.sched.modify l ({ · with ltJoin := some j })).lt m).ctx :=
          hmodify _ j ({ · with ltExitPtr := ptr }) fun _ => rfl
        _ = (x.sched.lt m).ctx := hmodify _ l ({ · with ltJoin := some j }) fun _ => rfl
  · refine ⟨hf, Or.inr ⟨hexit, rfl, ?_, ?_⟩⟩
    · simp only [suspend_sched, setCtx, modify_lt, if_true]
    · simp only [suspend_sched, setCtx, modify_lt, if_true]
      rw [(lthreadSchedBusySleep_keeps _ j t).exitPtr j]
      simp only [joinStored, modify_lt, if_true]

/-- An lthread is in a join if it has been before, with the pointer it had then, or if it has called
it in this step. -/
theorem Inv.joining_step (h : x.Inv k) (hok : stepOk k x a) (hx : x.step a = .ok x')
    (hctx' : (x'.sched.lt j).ctx = .joining l t) :
    (x.sched.lt j).ctx = .joining l t ∧ (x'.sched.lt j).ltExitPtr = (x.sched.lt j).ltExitPtr ∨
      x.cpu = .run j ∧ x.sched.has l .exited = false ∧ a = .call (.join l (x'.sched.lt j).ltExitPtr t) := by
  have hturns : (x.sched.lt j).ctx = .joining l t ∧ (x'.sched.lt j).ltExitPtr = (x.sched.lt j).ltExitPtr ∨
      x.cpu = .run j ∧ ∃ ptr u, a = .call (.join l ptr u) := by
    refine Turns.preserves (P := fun b => (b.seat j).lt.ctx = .joining l t →
      (x.sched.lt j).ctx = .joining l t ∧ (b.seat j).lt.ltExitPtr = (x.sched.lt j).ltExitPtr ∨
        x.cpu = .run j ∧ ∃ ptr u, a = .call (.join l ptr u))
      (made_cancel hok) (fun b b' ht hb _ hP hb' => ?_) (step_turns h hok hx) h.seated
      (fun h0 => Or.inl ⟨h0, rfl⟩) hctx'
    rcases Board.Claimed.joining_cases ht hb' with h1 | ⟨-, hr⟩
    · rcases hP h1 with ⟨h2, h3⟩ | h2
      · refine Or.inl ⟨h2, ?_⟩
        rcases ht.ltExitPtr_cases j with h4 | rfl | hcpu
        · exact h4.trans h3
        · rw [(hb.links.fresh _ le_rfl).1] at h1; cases h1
        · rw [(hb.current hcpu).2.1] at h1; cases h1
      · exact Or.inr h2
    · exact Or.inr (made_of_join hr).2
  rcases hturns with h1 | ⟨hcpu, ptr, u, rfl⟩
  · exact Or.inl h1
  · obtain ⟨m, hm, hcall⟩ := step_call hx
    obtain rfl := Cpu.run.inj (hcpu.symm.trans hm)
    obtain ⟨-, ⟨-, -, -, -, hkept⟩ | ⟨hexit, -, hctx, hptr⟩⟩ := lthreadJoin_ends hcall
    · have hrun : (x.sched.lt j).ctx = .running := (h.seated.running j).mpr hcpu
      rw [hkept j, hrun] at hctx'; cases hctx'
    · obtain ⟨-, rfl⟩ := Ctx.joining.inj (hctx.symm.trans hctx')
      exact Or.inr ⟨hcpu, hexit, by rw [hptr]⟩

theorem Inv.exits_step (h : x.Inv k) (hok : stepOk k x a) (hx : x.step a = .ok x')
    (hctx : (x.sched.lt l).ctx ≠ .exited) (hctx' : (x'.sched.lt l).ctx = .exited) :
    x.cpu = .run l ∧ a.ends = true := by
  refine Turns.preserves (P := fun b => (b.seat l).lt.ctx = .exited → x.cpu = .run l ∧ a.ends = true)
    (made_cancel hok) (fun b b' ht hb _ hP hb' => ?_) (step_turns h hok hx) h.seated
    (fun h0 => absurd h0 hctx) hctx'
  rcases ht.ctx_cases l with h1 | ⟨-, h1⟩ | ⟨-, e, hv, hr, h1⟩ | ⟨-, target, t, -, h1⟩ | ⟨-, -, h1⟩
  · exact hP (h1.symm.trans hb')
  · rw [hb'] at h1; cases h1
  · rw [hb'] at h1
    cases e with
    | exit => exact made_of_exit (hr _ rfl)
    | block c i n u =>
      obtain rfl : Ctx.exited = c := h1
      cases hv.1
    | _ => cases h1
  · rw [hb'] at h1; cases h1
  · rw [hb'] at h1; cases h1

theorem Inv.exited_step (h : x.Inv k) (hok : stepOk k x a) (hx : x.step a = .ok x') (hl : l < x.sched.spawned)
    (hctx : (x.sched.lt l).ctx = .exited) : l < x'.sched.spawned ∧ (x'.sched.lt l).ctx = .exited := by
  refine Turns.preserves (P := fun b => l < b.spawned ∧ (b.seat l).lt.ctx = .exited) (made_cancel hok) ?_
    (step_turns h hok hx) h.seated ⟨hl, hctx⟩
  rintro b b' ht hb - ⟨hl, hctx⟩
  exact ⟨hl.trans_le ht.spawned_le, ht.exited_stays hb hl hctx⟩

/-! The return -/

/-- `lthread_join` returns -2 for a joiner that expired, which its target forgets. -/
theorem lthreadResume_joining (hctx : (x.sched.lt j).ctx = .joining l t) (hnew : x.sched.has j .new = false)
    (hcancel : x.sched.has j .cancelled = false) (hx : x.lthreadResume j = .ok x') :
    (x.sched.lt l).freed = false ∧
      (x.sched.has j .expired = true ∧ x'.ret j = -2 ∧ (x'.sched.lt l).ltJoin = none ∧
          (x'.sched.lt l).freed = false ∨
        x.sched.has j .expired = false ∧ x'.ret j = (if x.sched.has l .cancelled then -3 else 0) ∧
          (x'.sched.lt l).freed = true) := by
  obtain ⟨-, ⟨hc, -⟩ | ⟨-, y, hy, rfl⟩⟩ := lthreadResume_cases hx
  · rw [hcancel] at hc; cases hc
  · rw [initNew, if_neg (by simp [hnew]), World.afterYield, hctx] at hy
    have hctx_only (s : Sched) : ((s.setCtx j .running).lt l).ltJoin = (s.lt l).ltJoin ∧
        ((s.setCtx j .running).lt l).freed = (s.lt l).freed := by
      rw [setCtx, modify_lt]
      split_ifs with hi
      · rw [hi]
        exact ⟨rfl, rfl⟩
      · exact ⟨rfl, rfl⟩
    have hself (f : Lt → Lt) : ((x.sched.lthreadSchedBusySleepEnd j t).modify l f).lt l =
        f ((x.sched.lthreadSchedBusySleepEnd j t).lt l) := Function.update_self ..
    obtain ⟨hf, ⟨he, rfl⟩ | ⟨he, rfl⟩⟩ := lthreadJoinEnd_cases hy
    · refine ⟨hf, Or.inl ⟨he, Function.update_self .., (hctx_only _).1.trans ?_, (hctx_only _).2.trans ?_⟩⟩
      · exact congrArg Lt.ltJoin (hself ({ · with ltJoin := none }))
      · exact (congrArg Lt.freed (hself ({ · with ltJoin := none }))).trans
          (((lthreadSchedBusySleepEnd_keeps x.sched j t).freed l).trans hf)
    · refine ⟨hf, Or.inr ⟨he, Function.update_self .., (hctx_only _).2.trans ?_⟩⟩
      exact congrArg Lt.freed (hself ({ · with freed := true }))

/-- How the join of `j` on `l` returns after it has been suspended. -/
inductive JoinReturn (x x' : World) (j l : LtId) : Prop
  | expired {τ : ℕ} (hp : x.phase = .expired τ) (hd : (x.sched.lt j).sleepUsecs ≤ τ) (hj : j ∈ x.sched.sleeping)
      (hret : x'.ret j = -2) (hjoin : (x'.sched.lt l).ltJoin = none) (hf' : (x'.sched.lt l).freed = false)
  | joined (hj : j ∈ x.sched.ready) (hret : x'.ret j = 0) (hf' : (x'.sched.lt l).freed = true)

theorem Inv.join_returns (h : x.Inv false) (hok : stepOk false x a) (hx : x.step a = .ok x')
    (hctx : (x.sched.lt j).ctx = .joining l t) (hctx' : (x'.sched.lt j).ctx ≠ .joining l t) :
    x.cpu = .loop ∧ x'.cpu = .run j ∧ (x.sched.lt l).freed = false ∧ JoinReturn x x' j l := by
  obtain ⟨rfl, hcpu, hcpu'⟩ := (h.suspended_stays hok hx hctx (by simp) (by simp)).resolve_left hctx'
  replace hx := step_loop hcpu hx
  refine ⟨hcpu, hcpu', ?_⟩
  obtain ⟨ph, n, rfl⟩ | ⟨i, z, ht, hres⟩ := lthreadRun_taken hx
  · rw [show x.cpu = .run j from hcpu'] at hcpu; cases hcpu
  · obtain rfl : i = j := by
      rcases (lthreadResume_rest hres).2 with ⟨hc, -⟩ | ⟨hc, -⟩
      · exact Cpu.run.inj (hc.symm.trans hcpu')
      · rw [hcpu'] at hc; cases hc
    obtain ⟨tk, hfind, hacts⟩ := ht.acts h.seated
    have hleaves : (z.seat i).Leaves := by
      rw [hacts.self]
      exact Leaves.of_take (h.ok i) (h.not_cancelled i) hfind
    have hzctx : (z.sched.lt i).ctx = .joining l t := (ht.keeps h i).2.2.trans hctx
    have hnew : z.sched.has i .new = false := by
      refine Bool.eq_false_iff.mpr fun h0 => ?_
      have hstart : (z.sched.lt i).ctx = .start := hleaves.new.mp h0
      rw [hzctx] at hstart; cases hstart
    obtain ⟨hf, hend⟩ := lthreadResume_joining hzctx hnew hleaves.cancelled hres
    refine ⟨(ht.keeps h l).1.symm.trans hf, ?_⟩
    cases ht with
    | expire hp hmin hd hy =>
      rcases hend with ⟨-, hret, hjoin, hf'⟩ | ⟨he, -⟩
      · exact .expired hp hd (List.argmin_mem hmin) hret hjoin hf'
      · rw [onSched_sched, setBit_has, if_pos ⟨rfl, rfl⟩] at he; cases he
    | @pop last rest hp hr =>
      have hseated : Lthr.Seated false x.board.seat .loop x.board.spawned x.board.expiring := by
        rw [← show x.board.cpu = .loop from hcpu]
        exact h.seated
      have hexp : x.sched.has i .expired = false :=
        hseated.not_expired fun h0 => by rw [show (x.sched.lt i).ctx = .exited from h0] at hctx; cases hctx
      rcases hend with ⟨he, -⟩ | ⟨-, hret, hf'⟩
      · rw [show x.sched.has i .expired = true from he] at hexp; cases hexp
      · refine .joined (by rw [hr]; exact List.mem_cons_self) (hret.trans ?_) hf'
        have hl : x.sched.has l .cancelled = false := h.not_cancelled l
        exact if_neg (Bool.eq_false_iff.mp hl)
    | deferPop hp hr =>
      obtain ⟨⟨e, w, hw⟩ | ⟨i, hw⟩, -⟩ := (h.row i).of_defer (count_ne_zero (by rw [hr]; exact List.mem_cons_self))
      all_goals rw [hctx] at hw; cases hw
    | event hl hm =>
      obtain ⟨fd, e, u, hw, -⟩ := h.waiting hl
      rw [hctx] at hw; cases hw

/-! Who is freed -/

theorem ends_freed (ha : a.ends = true) (hx : x.step a = .ok x') (l : LtId) :
    (x'.sched.lt l).freed = (x.sched.lt l).freed := by
  have hexec (y : World) (m : LtId) : ((y.exec m).sched.lt l).freed = (y.sched.lt l).freed := by
    have hbit := (setBit_keeps y.sched m .exited).freed l
    rw [← hbit, exec, suspend_sched, lthreadYield, modify_lt]
    split_ifs with hl
    · rw [hl]
    · rfl
  cases a with
  | call op =>
    obtain ⟨m, -, hcall⟩ := step_call hx
    cases op with
    | exit ptr =>
      obtain ⟨mem, rfl, -⟩ := lthreadExit_cases hcall
      exact hexec _ m
    | finish =>
      obtain rfl := Except.ok.inj hcall
      exact hexec _ m
    | _ => cases ha
  | _ => cases ha

theorem Inv.frees_exited (h : x.Inv false) (hok : stepOk false x a) (hx : x.step a = .ok x')
    (hf : (x.sched.lt l).freed = false) (hf' : (x'.sched.lt l).freed = true) :
    (x.sched.lt l).ctx = .exited ∧ (x'.sched.lt l).ctx = .exited := by
  have h' : x'.Inv false := h.step hok hx
  have hexit : (x'.sched.lt l).ctx = .exited := by
    rcases h'.seated.links.freed l hf' with hc | hc
    · exact hc
    · rw [show (x'.board.seat l).lt.state .cancelled = false from h'.not_cancelled l] at hc; cases hc
  refine ⟨by_contra fun hne => ?_, hexit⟩
  obtain ⟨-, hends⟩ := h.exits_step hok hx hne hexit
  rw [ends_freed hends hx, hf] at hf'; cases hf'

def Unqueued (x : World) (l : LtId) : Prop :=
  l ∉ x.sched.ready ∧ l ∉ x.sched.sleeping ∧ l ∉ x.sched.waiting ∧ l ∉ x.sched.busy

theorem Inv.exited_unqueued (h : x.Inv false) (hctx : (x.sched.lt l).ctx = .exited) : x.Unqueued l := by
  have hrow := h.plain_row l
  rw [hctx] at hrow
  have hn : (x.seat l).cnt = {} := hrow.of_exited
  refine ⟨fun hl => ?_, fun hl => ?_, fun hl => ?_, fun hl => ?_⟩
  · exact count_ne_zero hl (congrArg Counts.ready hn)
  · exact count_ne_zero hl (congrArg Counts.sleeping hn)
  · exact count_ne_zero hl (congrArg Counts.waiting hn)
  · exact count_ne_zero hl (congrArg Counts.busy hn)

/-! The runs -/

theorem apart_inv (h : worldMachine.Reachable joinsApart x) : x.Inv k := Inv.of_undisturbed (h.mono fun _ _ hy => hy.1)

theorem drops_cancelled (h : x.drops a = some l) : x.sched.has l .cancelled = true := by
  cases a with
  | sched =>
    unfold drops at h
    simp only at h
    split at h
    · exact (Option.filter_eq_some_iff.mp h).2
    · exact (Option.filter_eq_some_iff.mp h).2
    · cases h
  | _ => cases h

theorem Inv.apart_clean (h : x.Inv false) (hok : x.joinsApart a) : x.cancelsClean a := by
  refine ⟨undisturbed_stepOk x a hok.1, hok.2, fun target ha => ?_, fun l _ => h.not_cancelled l, fun l hl => ?_⟩
  · cases a with
    | call op =>
      cases op with
      | cancel m => exact hok.1.elim
      | _ => cases ha
    | _ => cases ha
  · have hc := drops_cancelled hl
    rw [h.not_cancelled l] at hc; cases hc

theorem apart_clean (h : worldMachine.Reachable joinsApart x) : worldMachine.Reachable cancelsClean x := by
  refine Machine.Reachable.invariant_of (P := fun y => worldMachine.Reachable cancelsClean y)
    (fun y hy => Machine.Reachable.start hy) (fun y a y' hy hP hok hs => hP.next ?_ hs) h
  exact (apart_inv hy).apart_clean hok

theorem apart_dropped (h : worldMachine.Reachable joinsApart x) (l : LtId) : x.dropped l = false := by
  refine Bool.eq_false_iff.mpr fun hd => ?_
  have hc : x.sched.has l .cancelled = true := (cancelledOnce_reachable (apart_clean h) l).dropped hd
  rw [(apart_inv h).not_cancelled l] at hc; cases hc

theorem apart_live (h : worldMachine.Reachable joinsApart x) : worldMachine.Reachable joinsLive x := by
  refine Machine.Reachable.invariant_of (P := fun y => worldMachine.Reachable joinsLive y)
    (fun y hy => Machine.Reachable.start hy) (fun y a y' hy hP hok hs => hP.next ?_ hs) h
  refine ⟨undisturbed_stepOk y a hok.1, fun target ha => ⟨apart_dropped hy target, fun j hj hon => ?_⟩⟩
  exact absurd hon ((hok.2.1 target ha).2 j hj)

theorem ready_joiner (h : worldMachine.Reachable joinsApart x) (hctx : (x.sched.lt j).ctx = .joining l t)
    (hj : j ∈ x.sched.ready) : (x.sched.lt l).ctx = .exited := by
  rcases (joins_reachable (apart_live h)).woken j l t hctx ((apart_inv h).not_cancelled j) (count_ne_zero hj) with
    hd | ⟨hx, -⟩
  · rw [board_dropped, apart_dropped h] at hd; cases hd
  · exact hx

/-- The target of one that is not has the joiner on record, and has not ended. -/
theorem pending_joiner (h : worldMachine.Reachable joinsApart x) (hctx : (x.sched.lt j).ctx = .joining l t)
    (hj : j ∉ x.sched.ready) : (x.sched.lt l).ltJoin = some j ∧ ((x.sched.lt l).ctx = .exited → x.cpu = .back l) := by
  obtain ⟨hjoin, -, hend⟩ := (joins_reachable (apart_live h)).pending j l t hctx ((apart_inv h).not_cancelled j)
    (List.count_eq_zero.mpr hj)
  exact ⟨hjoin, fun hx => by_contra fun hne => hend (Or.inr ⟨hx, hne⟩)⟩

/-! The cells -/

theorem Inv.run_not_freed (h : x.Inv false) (hcpu : x.cpu = .run m) : (x.sched.lt m).freed = false := by
  refine Bool.eq_false_iff.mpr fun hf => ?_
  rcases h.seated.links.freed m hf with hx | hc
  · rw [show (x.board.seat m).lt.ctx = .running from (h.seated.running m).mpr hcpu] at hx; cases hx
  · rw [show (x.board.seat m).lt.state .cancelled = false from h.not_cancelled m] at hc; cases hc

/-- What a step does to the cells: an exit with a value stores it in the cell of the joiner on record. -/
theorem step_values (hx : x.step a = .ok x') : x'.mem = x.mem ∧ x'.exitValue = x.exitValue ∨
    ∃ m value, x.cpu = .run m ∧ a = .call (.exit value) ∧ x'.exitValue = Function.update x.exitValue m value ∧
      (x'.sched.lt m).ctx = .exited ∧ x'.sched.spawned = x.sched.spawned ∧
      (x'.mem = x.mem ∧ (value = 0 ∨ ∀ j, (x.sched.lt m).ltJoin = some j → (x.sched.lt j).ltExitPtr = none) ∨
        ∃ j c, (x.sched.lt m).ltJoin = some j ∧ (x.sched.lt j).ltExitPtr = some c ∧
          x'.mem = Function.update x.mem c value) := by
  rcases step_kept hx with hk | ⟨hk, -⟩ | ⟨⟨value, rfl⟩, -⟩
  · exact Or.inl ⟨hk.mem, hk.exitValue⟩
  · exact Or.inl hk
  · obtain ⟨m, hcpu, hcall⟩ := step_call hx
    obtain ⟨mem, rfl, hmem⟩ := lthreadExit_cases hcall
    refine Or.inr ⟨m, value, hcpu, rfl, rfl, ?_, rfl, ?_⟩
    · rw [exec, suspend_sched, lthreadYield, modify_lt, if_pos rfl]
    · rcases hmem with h0 | ⟨-, j, c, hj, -, hc, h0⟩
      · exact Or.inl h0
      · exact Or.inr ⟨j, c, hj, hc, h0⟩

structure Cells (x : World) : Prop where
  distinct : ∀ i j l m t u c, (x.sched.lt i).ctx = .joining l t → (x.sched.lt j).ctx = .joining m u →
    (x.sched.lt i).ltExitPtr = some c → (x.sched.lt j).ltExitPtr = some c → i = j
  exited : ∀ l, x.exitValue l ≠ 0 → l < x.sched.spawned ∧ (x.sched.lt l).ctx = .exited
  value : ∀ j l t c, (x.sched.lt j).ctx = .joining l t → (x.sched.lt j).ltExitPtr = some c →
    (x.sched.lt l).ctx = .exited → x.exitValue l ≠ 0 → x.mem c = x.exitValue l

namespace Cells

theorem distinct_step (h : Cells x) (hi : x.Inv false) (hok : x.joinsCells a) (hx : x.step a = .ok x') {i : LtId}
    {u c : ℕ} (hi' : (x'.sched.lt i).ctx = .joining l t) (hj' : (x'.sched.lt j).ctx = .joining m u)
    (hci : (x'.sched.lt i).ltExitPtr = some c) (hcj : (x'.sched.lt j).ltExitPtr = some c) : i = j := by
  have hstep : stepOk false x a := undisturbed_stepOk x a hok.1.1
  -- a new join finds that nobody has its cell
  have hnew {i j l m t u : ℕ} (hj : (x.sched.lt j).ctx = .joining m u) (hcj : (x.sched.lt j).ltExitPtr = some c)
      (ha : a = .call (.join l (some c) t)) : i = j := by
    subst ha
    refine absurd hcj (hok.2 c rfl j (hi.joiner_busy hj (hi.not_cancelled j)) ?_)
    rw [hj]
    exact nofun
  rcases hi.joining_step hstep hx hi' with ⟨h1, hp1⟩ | ⟨hcpu, -, ha⟩
  · rcases hi.joining_step hstep hx hj' with ⟨h2, hp2⟩ | ⟨-, -, ha⟩
    · exact h.distinct i j l m t u c h1 h2 (hp1.symm.trans hci) (hp2.symm.trans hcj)
    · rw [hcj] at ha
      exact (hnew (i := j) h1 (hp1.symm.trans hci) ha).symm
  · rcases hi.joining_step hstep hx hj' with ⟨h2, hp2⟩ | ⟨hcpu', -⟩
    · rw [hci] at ha
      exact hnew h2 (hp2.symm.trans hcj) ha
    · exact Cpu.run.inj (hcpu.symm.trans hcpu')

theorem exited_step (h : Cells x) (hr : worldMachine.Reachable joinsApart x) (hok : x.joinsApart a)
    (hx : x.step a = .ok x') (hv : x'.exitValue l ≠ 0) : l < x'.sched.spawned ∧ (x'.sched.lt l).ctx = .exited := by
  have hi : x.Inv false := apart_inv hr
  have hstep : stepOk false x a := undisturbed_stepOk x a hok.1
  have hold (hv : x.exitValue l ≠ 0) : l < x'.sched.spawned ∧ (x'.sched.lt l).ctx = .exited := by
    obtain ⟨hl, hctx⟩ := h.exited l hv
    exact hi.exited_step hstep hx hl hctx
  rcases step_values hx with ⟨-, he⟩ | ⟨m, value, hcpu, -, he, hctx, hn, -⟩
  · exact hold (he ▸ hv)
  · by_cases hlm : l = m
    · subst hlm
      have hl : l < x.sched.spawned :=
        cpu_spawned (k := false) (hr.mono fun y b hy => undisturbed_stepOk y b hy.1) (by rw [hcpu]; rfl)
      exact ⟨hn ▸ hl, hctx⟩
    · rw [he, Function.update_of_ne hlm] at hv
      exact hold hv

theorem value_step (h : Cells x) (hr : worldMachine.Reachable joinsApart x) (hok : x.joinsApart a)
    (hx : x.step a = .ok x') {c : ℕ} (hj' : (x'.sched.lt j).ctx = .joining l t)
    (hc' : (x'.sched.lt j).ltExitPtr = some c) (hl' : (x'.sched.lt l).ctx = .exited) (hv : x'.exitValue l ≠ 0) :
    x'.mem c = x'.exitValue l := by
  have hi : x.Inv false := apart_inv hr
  have hstep : stepOk false x a := undisturbed_stepOk x a hok.1
  rcases hi.joining_step hstep hx hj' with ⟨hj, hp⟩ | ⟨-, hexit, ha⟩
  · rw [hp] at hc'
    rcases step_values hx with ⟨hmem, he⟩ | ⟨m, value, hcpu, rfl, he, -, -, hmem⟩
    · -- nobody has exited with a value, so the target has exited before
      rw [he] at hv ⊢
      rw [hmem]
      exact h.value j l t c hj hc' (h.exited l hv).2 hv
    · by_cases hlm : l = m
      · -- the target exits, with the joiner on record
        subst hlm
        have hrun : (x.sched.lt l).ctx = .running := (hi.seated.running l).mpr hcpu
        have hready : j ∉ x.sched.ready := fun hr' => by
          rw [ready_joiner hr hj hr'] at hrun; cases hrun
        have hjoin := (pending_joiner hr hj hready).1
        rw [he, Function.update_self] at hv ⊢
        rcases hmem with ⟨-, h0 | h0⟩ | ⟨i, c', hi', hci, hmem⟩
        · exact absurd h0 hv
        · rw [h0 j hjoin] at hc'; cases hc'
        · obtain rfl := Option.some_inj.mp (hjoin.symm.trans hi')
          obtain rfl := Option.some_inj.mp (hc'.symm.trans hci)
          rw [hmem, Function.update_self]
      · rw [he, Function.update_of_ne hlm] at hv ⊢
        have hold := h.value j l t c hj hc' (h.exited l hv).2 hv
        rcases hmem with ⟨hmem, -⟩ | ⟨i, c', hi', hci, hmem⟩
        · rw [hmem, hold]
        · -- the exit of another lthread writes to the cell of another joiner
          have hfm : (x.sched.lt m).freed = false := hi.run_not_freed hcpu
          obtain ⟨⟨u, hu⟩, -⟩ := hi.seated.links.join m i hi' hfm
          have hne : c ≠ c' := by
            rintro rfl
            obtain rfl := h.distinct j i l m t u c hj hu hc' hci
            exact hlm (Ctx.joining.inj (hj.symm.trans hu)).1
          rw [hmem, Function.update_of_ne hne, hold]
  · -- a join is suspended on an lthread that has not exited
    have hne : (x.sched.lt l).ctx ≠ .exited := fun h0 => by
      rw [show x.sched.has l .exited = true from (hi.ok l).exited.mpr h0] at hexit; cases hexit
    obtain ⟨-, hends⟩ := hi.exits_step hstep hx hne hl'
    rw [ha] at hends; cases hends

theorem reachable (h : worldMachine.Reachable joinsCells x) : Cells x := by
  refine Machine.Reachable.invariant_of (P := Cells) ?_ ?_ h
  · rintro y ⟨birth, capacity, n, rfl⟩
    exact ⟨nofun, fun l hv => absurd rfl hv, nofun⟩
  · intro y a y' hy hP hok hs
    have hr : worldMachine.Reachable joinsApart y := hy.mono fun _ _ h => h.1
    refine ⟨fun i j l m t u c hi hj hci hcj => hP.distinct_step (apart_inv hr) hok hs hi hj hci hcj,
      fun l hv => hP.exited_step hr hok.1 hs hv, fun j l t c hj hc hl hv => hP.value_step hr hok.1 hs hj hc hl hv⟩

end Cells

end World
end Lthr
