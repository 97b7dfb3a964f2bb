import Lthread.Proofs.Queues
import Lthread.Proofs.Sections

/-! The parts of the program that leave all condition variables alone, those of the
selectors included, and with them the channels. -/

namespace Lthr

open Sched

namespace Sched

/-- The blocked lists are as before, and nobody has started to wait on a condition. -/
def ListsSame (s s' : Sched) : Prop :=
  s'.blocked = s.blocked ∧ ∀ m, (s'.lt m).ctx.cond ≠ none → (s.lt m).ctx = (s'.lt m).ctx

theorem lthreadDeschedEvent_keeps (s : Sched) (fd : Fd) (e : LtEvent) : KeepsLt s (s.lthreadDeschedEvent fd e).1 := by
  unfold lthreadDeschedEvent
  split
  · exact KeepsLt.refl s
  · next l _ =>
    have hk := lthreadDeschedSleep_keeps { s with waiting := s.waiting.erase l } l
    exact ⟨hk.ctx, hk.fdWait, hk.ltJoin, hk.freed, hk.exitPtr⟩

theorem lthreadDeschedEvent_waiting (s : Sched) (fd : Fd) (e : LtEvent) :
    (s.lthreadDeschedEvent fd e).1.waiting ⊆ s.waiting := by
  unfold lthreadDeschedEvent
  split
  · exact List.Subset.refl _
  · rw [lthreadDeschedSleep_waiting]
    exact List.erase_subset

namespace ListsSame

variable {s s' : Sched}

theorem blocked (h : ListsSame s s') : s'.blocked = s.blocked := h.1

theorem waits (h : ListsSame s s') {m : LtId} (hm : (s'.lt m).ctx.cond ≠ none) :
    (s.lt m).ctx = (s'.lt m).ctx := h.2 m hm

theorem of_eq (hb : s'.blocked = s.blocked) (hc : ∀ m, (s'.lt m).ctx = (s.lt m).ctx) : ListsSame s s' :=
  ⟨hb, fun m _ => (hc m).symm⟩

theorem refl (s : Sched) : ListsSame s s := of_eq rfl fun _ => rfl

theorem trans {a b c : Sched} (h1 : ListsSame a b) (h2 : ListsSame b c) : ListsSame a c := by
  refine ⟨h2.blocked.trans h1.blocked, fun m hm => ?_⟩
  have hbc := h2.waits hm
  rw [← hbc]
  exact h1.waits (by rwa [hbc])

/-- A write to the record of one lthread that does not send it to a condition. -/
theorem modify {l : LtId} {f : Lt → Lt} (hf : ∀ lt, (f lt).ctx.cond = none ∨ (f lt).ctx = lt.ctx) :
    ListsSame s (s.modify l f) := by
  refine ⟨rfl, fun m hm => ?_⟩
  rw [modify_lt] at hm ⊢
  split_ifs at hm ⊢ with he
  · rcases hf (s.lt l) with h0 | h0
    · exact absurd h0 hm
    · rw [h0, he]
  · rfl

theorem setBit (l : LtId) (b : LtSt) : ListsSame s (s.setBit l b) := modify fun _ => Or.inr rfl

theorem clearBit (l : LtId) (b : LtSt) : ListsSame s (s.clearBit l b) := modify fun _ => Or.inr rfl

theorem setCtx (l : LtId) {c : Ctx} (hc : c.cond = none) : ListsSame s (s.setCtx l c) :=
  modify fun _ => Or.inl hc

theorem readyInsert (l : LtId) : ListsSame s (s.readyInsert l) := of_eq rfl fun _ => rfl

theorem deschedSleep (l : LtId) : ListsSame s (s.lthreadDeschedSleep l) :=
  of_eq (by simp) (lthreadDeschedSleep_keeps s l).ctx

theorem schedSleep (l : LtId) (n : ℕ) : ListsSame s (s.lthreadSchedSleep l n) :=
  of_eq (by simp) (lthreadSchedSleep_keeps s l n).ctx

theorem schedSleepEnd (l : LtId) (n : ℕ) : ListsSame s (s.lthreadSchedSleepEnd l n) :=
  of_eq (by simp) (lthreadSchedSleepEnd_keeps s l n).ctx

theorem busySleepEnd (l : LtId) (n : ℕ) : ListsSame s (s.lthreadSchedBusySleepEnd l n) :=
  of_eq (by simp) (lthreadSchedBusySleepEnd_keeps s l n).ctx

theorem deschedEvent (fd : Fd) (e : LtEvent) : ListsSame s (s.lthreadDeschedEvent fd e).1 := by
  unfold lthreadDeschedEvent
  split
  · exact refl s
  · next l _ => exact deschedSleep (s := { s with waiting := s.waiting.erase l }) l

theorem create : ListsSame s s.lthreadCreate := by
  refine ⟨rfl, fun m hm => ?_⟩
  simp only [lthreadCreate, Function.update_apply] at hm ⊢
  split_ifs at hm ⊢
  · exact absurd rfl hm
  · rfl

end ListsSame
end Sched

namespace World

variable {k : Bool} {x x' : World} {l : LtId} {a : Label}

def Untouched (x x' : World) : Prop := x'.sys.ch = x.sys.ch ∧ x.sched.ListsSame x'.sched

namespace Untouched

theorem ch (h : Untouched x x') : x'.sys.ch = x.sys.ch := h.1

theorem lists (h : Untouched x x') : x.sched.ListsSame x'.sched := h.2

theorem refl (x : World) : Untouched x x := ⟨rfl, ListsSame.refl _⟩

theorem trans {a b c : World} (h1 : Untouched a b) (h2 : Untouched b c) : Untouched a c :=
  ⟨h2.ch.trans h1.ch, h1.lists.trans h2.lists⟩

theorem onSched {f : Sched → Sched} (h : x.sched.ListsSame (f x.sched)) : Untouched x (x.onSched f) := ⟨rfl, h⟩

theorem suspend {f : Sched → Sched} (h : x.sched.ListsSame (f x.sched)) : Untouched x (x.suspend l f) := ⟨rfl, h⟩

end Untouched

theorem resumed_untouched (x : World) (l : LtId) (r : ℤ) : Untouched x (x.resumed l r) := by
  obtain ⟨ph, -, heq⟩ := resumed_eq x l r
  rw [heq]
  split_ifs
  · exact ⟨rfl, ListsSame.clearBit l .expired⟩
  · exact Untouched.refl x

theorem wakeJoiner_untouched (hx : x.wakeJoiner l = .ok x') : Untouched x x' := by
  rcases wakeJoiner_cases hx with ⟨-, rfl⟩ | ⟨j, -, -, rfl⟩
  · exact Untouched.refl _
  · exact Untouched.onSched (((ListsSame.deschedSleep j).trans (ListsSame.readyInsert j)).trans
      (ListsSame.modify fun _ => Or.inr rfl))

theorem freeDetached_untouched (x : World) (l : LtId) : Untouched x (x.freeDetached l) := by
  unfold freeDetached
  split_ifs
  · exact Untouched.onSched (ListsSame.modify fun _ => Or.inr rfl)
  · exact Untouched.refl x

theorem dropCancelled_untouched (hx : x.dropCancelled l = .ok x') : Untouched x x' := by
  obtain ⟨y, hy, hx⟩ := except_bind_ok hx
  obtain rfl := Except.ok.inj hx
  have hbusy (z : World) : Untouched z (z.unbusy l) := by
    unfold unbusy
    split_ifs <;> exact ⟨rfl, ListsSame.of_eq rfl fun _ => rfl⟩
  exact ((wakeJoiner_untouched hy).trans (freeDetached_untouched y l)).trans
    ((hbusy _).trans (resumed_untouched _ l (-1)))

theorem lthreadResumeEnd_untouched (hx : x.lthreadResumeEnd l = .ok x') : Untouched x x' := by
  unfold lthreadResumeEnd at hx
  split_ifs at hx
  · obtain ⟨y, hy, hx⟩ := except_bind_ok hx
    obtain rfl := Except.ok.inj hx
    exact ((wakeJoiner_untouched hy).trans (freeDetached_untouched y l)).trans (resumed_untouched _ l (-1))
  · obtain ⟨j, -, hx⟩ := except_bind_ok hx
    obtain rfl := Except.ok.inj hx
    have h1 := ListsSame.clearBit (s := { x.sched with busy := l :: x.sched.busy }) l .pendingRuncompute
    exact ⟨rfl, h1.trans (ListsSame.setBit l .runcompute)⟩
  · obtain rfl := Except.ok.inj hx
    exact resumed_untouched x l 0

theorem lthreadCancelEvent_untouched (h : x.lthreadCancelEvent l = .ok x') : Untouched x x' := by
  obtain ⟨C, p, hC, -, rfl⟩ := lthreadCancelEvent_cases h
  have hclear : x.sched.ListsSame (x.sched.modify l C) := by
    rcases hC with rfl | ⟨e, rfl⟩
    · exact ListsSame.modify fun _ => Or.inr rfl
    · exact ListsSame.clearBit l _
  have hfd (s : Sched) : s.ListsSame (s.modify l ({ · with fdWait := -1 })) :=
    ListsSame.modify fun _ => Or.inr rfl
  refine ⟨rfl, ?_⟩
  change x.sched.ListsSame (eventCancelled l C (x.sched.lt l).fdWait x.sched)
  unfold eventCancelled
  split_ifs
  · exact (hclear.trans (ListsSame.deschedEvent _ _)).trans (hfd _)
  · exact hclear.trans (hfd _)

theorem edit_untouched {op : Op} {b : Bool} (hop : op.waitsOn = false) (h : Edit l op x b x') : Untouched x x' := by
  cases h with
  | lt m f hf => exact Untouched.onSched (ListsSame.modify fun v => (hf v).ctx.symm.imp_left fun h => h.2 hop)
  | lists blocked ch h0 => exact absurd (hop.symm.trans h0) (by simp)
  | desched m => exact Untouched.onSched (ListsSame.deschedSleep m)
  | _ => exact ⟨rfl, ListsSame.of_eq rfl fun _ => rfl⟩

theorem call_untouched {op : Op} (hop : op.waitsOn = false) (hx : x.call l op = .ok x') : Untouched x x' := by
  have hedits {b : Bool} {y : World} (h : Edits l op b x y) : Untouched x y :=
    h.keeps Untouched.refl Untouched.trans (edit_untouched hop)
  cases call_edits hx with
  | create => exact Untouched.onSched ListsSame.create
  | writes h => exact hedits h
  | sleeps c h hc =>
    exact (hedits h).trans (Untouched.suspend ((ListsSame.schedSleep l _).trans (ListsSame.setCtx l (hc hop))))

/-- A step that is not one of the loop, nor a call on a condition variable or a channel. -/
theorem step_untouched (hop : ∀ op, a = .call op → op.waitsOn = false) (hloop : a = .sched → x.cpu ≠ .loop)
    (hx : x.step a = .ok x') : Untouched x x' := by
  cases step_cases hx with
  | clock => exact Untouched.onSched (ListsSame.of_eq rfl fun _ => rfl)
  | main => exact Untouched.onSched ListsSame.create
  | run | poll | leave => exact Untouched.refl x
  | loop hcpu => exact absurd hcpu (hloop rfl)
  | @ioSignal l _ _ =>
    exact Untouched.suspend (l := l) (f := (·.modify l ({ · with ops := 0 }))) (ListsSame.modify fun _ => Or.inr rfl)
  | back hcpu hx => exact lthreadResumeEnd_untouched hx
  | @computeSignal l _ hcpu hx =>
    obtain ⟨j, -, hx⟩ := except_bind_ok hx
    obtain rfl := Except.ok.inj hx
    exact resumed_untouched { x with compute := Function.update x.compute j (x.compute j).signal } l 0
  | call hcpu hx => exact call_untouched (hop _ rfl) hx
  | io hx =>
    obtain ⟨-, y, -, hcases⟩ := ioAct_cases hx
    rcases hcases with ⟨i, -, -, -, -, -, rfl⟩ | ⟨i, -, -, -, -, rfl⟩ | ⟨-, -, rfl⟩ <;>
      exact ⟨rfl, ListsSame.of_eq rfl fun _ => rfl⟩
  | compute hx =>
    obtain ⟨-, y, -, hcases⟩ := computeAct_cases hx
    rcases hcases with ⟨i, -, -, -, -, -, rfl⟩ | ⟨i, -, -, -, -, rfl⟩ | ⟨-, -, rfl⟩ | ⟨-, -, -, rfl⟩
    · exact ⟨rfl, ListsSame.clearBit (s := { x.sched with defer := x.sched.defer ++ [i] }) i .runcompute⟩
    all_goals exact Untouched.refl x

/-! The loop -/

theorem initNew_keeps (x : World) (l : LtId) : KeepsLt x.sched (x.initNew l).sched := by
  unfold initNew
  split_ifs
  · have hk := KeepsLt.of_modify x.sched l (f := ({ · with state := fun b => decide (b = .ready) }))
      fun _ => ⟨rfl, rfl, rfl, rfl, rfl⟩
    exact hk
  · exact KeepsLt.refl _

theorem initNew_ctx (x : World) (l m : LtId) : ((x.initNew l).sched.lt m).ctx = (x.sched.lt m).ctx :=
  (initNew_keeps x l).ctx m

theorem initNew_untouched (x : World) (l : LtId) : Untouched x (x.initNew l) := by
  refine ⟨?_, ListsSame.of_eq ?_ (initNew_ctx x l)⟩
  all_goals
    unfold initNew
    split_ifs <;> rfl

theorem afterYield_untouched (hctx : (x.sched.lt l).ctx.cond = none) (hx : x.afterYield l = .ok x') :
    Untouched x x' := by
  unfold World.afterYield at hx
  cases hc : (x.sched.lt l).ctx with
  | running | exited => rw [hc] at hx; cases hx
  | condWait i t | selWait i t => rw [hc] at hctx; cases hctx
  | joining target t =>
    rw [hc] at hx
    obtain ⟨-, ⟨-, rfl⟩ | ⟨-, rfl⟩⟩ := lthreadJoinEnd_cases hx
    all_goals
      refine ⟨rfl, (ListsSame.busySleepEnd l t).trans ?_⟩
      rw [returnValue_sched, onSched_sched]
      exact ListsSame.modify fun _ => Or.inr rfl
  | schedEvent fd e t =>
    rw [hc] at hx
    simp only at hx
    split_ifs at hx
    obtain rfl := Except.ok.inj hx
    have hfd (s : Sched) : s.ListsSame (s.modify l ({ · with fdWait := -1 })) :=
      ListsSame.modify fun _ => Or.inr rfl
    exact Untouched.onSched (((ListsSame.schedSleepEnd l t).trans (hfd _)).trans (ListsSame.clearBit l _))
  | slept t =>
    rw [hc] at hx
    obtain rfl := Except.ok.inj hx
    exact Untouched.onSched (ListsSame.schedSleepEnd l t)
  | ioWait e w =>
    rw [hc] at hx
    obtain rfl := Except.ok.inj hx
    exact Untouched.onSched (ListsSame.clearBit l _)
  | start | yielded | compute =>
    rw [hc] at hx
    obtain rfl := Except.ok.inj hx
    exact Untouched.refl x

theorem lthreadResume_untouched (hctx : (x.sched.lt l).ctx.cond = none)
    (hx : x.lthreadResume l = .ok x') : Untouched x x' := by
  obtain ⟨-, ⟨-, hx⟩ | ⟨-, y, hy, rfl⟩⟩ := lthreadResume_cases hx
  · exact dropCancelled_untouched hx
  · have hyield := afterYield_untouched (by rw [initNew_ctx]; exact hctx) hy
    have hback : Untouched x y := (initNew_untouched x l).trans hyield
    exact ⟨hback.ch, hback.lists.trans (ListsSame.setCtx l rfl)⟩

theorem resumeExpired_untouched {y : World} (hy : x.lthreadCancelEvent l = .ok y) :
    Untouched x (y.onSched fun s => (s.lthreadDeschedSleep l).setBit l .expired) :=
  (lthreadCancelEvent_untouched hy).trans
    (Untouched.onSched ((ListsSame.deschedSleep l).trans (ListsSame.setBit l .expired)))

/-- In `z` lthread `l`, which waits on condition `i`, is about to be resumed: its deadline has
passed and it is still on the list, or somebody has taken it off the list. -/
structure Resumes (x z : World) (l : LtId) (i : CondId) : Prop where
  same : Untouched x z
  ctx : ∀ m, (z.sched.lt m).ctx = (x.sched.lt m).ctx
  new : z.sched.has l .new = false
  cancelled : z.sched.has l .cancelled = false
  cause : (∃ τ, x.phase = .expired τ ∧ (x.sched.lt l).sleepUsecs ≤ τ) ∧ l ∈ x.sched.sleeping ∧
      l ∈ x.sched.blocked i ∧ z.sched.has l .expired = true ∨
    l ∈ x.sched.ready ∧ l ∉ x.sched.blocked i ∧ z.sched.has l .expired = false

theorem Inv.expire_resumes (h : x.Inv k) {τ t : ℕ} {i : CondId} (hp : x.phase = .expired τ) (hl : l ∈ x.sched.sleeping)
    (hd : (x.sched.lt l).sleepUsecs ≤ τ) (hctx : (x.sched.lt l).ctx.cond = some (i, t)) (hx : x.resumeExpired l = .ok x') :
    ∃ z, x.Resumes z l i ∧ z.lthreadResume l = .ok x' := by
  have hstart : (x.sched.lt l).ctx ≠ .start := by
    intro h0
    rw [h0] at hctx
    cases hctx
  have hmem : l ∈ x.sched.blocked i := by
    obtain ⟨-, -, hrow⟩ := (h.row l).of_sleeping (count_ne_zero hl)
    rcases hrow with ⟨⟨u, h0⟩, -⟩ | ⟨i', u, h0, hcnt⟩ | ⟨⟨target, u, h0⟩, -⟩ | ⟨⟨fd, e, u, h0⟩, -⟩
    · rw [h0] at hctx; cases hctx
    · rw [hctx] at h0
      obtain ⟨rfl, -⟩ := Prod.mk.inj (Option.some_inj.mp h0)
      refine mem_of_count ?_
      change (x.seat l).cnt.blocked i ≠ 0
      simp [hcnt]
    · rw [h0] at hctx; cases hctx
    · rw [h0] at hctx; cases hctx
  obtain ⟨y, z, hy, rfl, hw, hx⟩ := h.resumeExpired_cases hl hx
  obtain ⟨hzctx, hnew, hcancel, hexp⟩ := h.expired_bits hl hw
  obtain ⟨w, -, hacts⟩ := expired_acts h.seated hl hy
  have hother (m : LtId) : ((y.onSched fun s => (s.lthreadDeschedSleep l).setBit l .expired).sched.lt m).ctx =
      (x.sched.lt m).ctx := by
    by_cases hm : m = l
    · rw [hm]; exact hzctx
    · exact congrArg (fun v : Seat => v.lt.ctx) (hacts.other hm)
  exact ⟨_, ⟨resumeExpired_untouched hy, hother, hnew hstart, hcancel, Or.inl ⟨⟨τ, hp, hd⟩, hl, hmem, hexp⟩⟩, hx⟩

theorem Inv.pop_resumes (h : x.Inv k) (hcpu : x.cpu = .loop) {rest : List LtId} {t : ℕ} {i : CondId}
    (hr : x.sched.ready = l :: rest) (hctx : (x.sched.lt l).ctx.cond = some (i, t))
    (hcancel : x.sched.has l .cancelled = false) : x.Resumes (x.onSched fun s => { s with ready := rest }) l i := by
  have hl : l ∈ x.sched.ready := by simp [hr]
  have hrow := h.row l
  rw [hcancel] at hrow
  refine ⟨Untouched.onSched (ListsSame.of_eq rfl fun _ => rfl), fun _ => rfl, ?_, hcancel, Or.inr ⟨hl, fun hm => ?_, ?_⟩⟩
  · refine Bool.eq_false_iff.mpr fun h0 => ?_
    have hstart : (x.sched.lt l).ctx = .start := (h.ok l).new.mp h0
    rw [hstart] at hctx; cases hctx
  · have hb : (x.seat l).cnt.blocked i ≠ 0 := count_ne_zero hm
    rcases hrow.of_ready (count_ne_zero hl) with ⟨-, hcnt⟩ | ⟨-, hcnt⟩ <;> simp [hcnt] at hb
  · have hs : x.board.Seated k := h.seated
    unfold Board.Seated at hs
    rw [show x.board.cpu = .loop from hcpu] at hs
    refine hs.not_expired fun h0 => ?_
    change (x.sched.lt l).ctx = _ at h0
    rw [h0] at hctx; cases hctx

theorem Inv.loop_ctx (h : x.Inv k) (hcpu : x.cpu = .loop) (hx : x.lthreadRun = .ok x') (m : LtId) :
    (x'.sched.lt m).ctx = (x.sched.lt m).ctx ∨ (x'.sched.lt m).ctx = .start ∨
      x'.cpu = .run m ∧ (x'.sched.lt m).ctx = .running := by
  have ht : Turn (fun _ _ => True) x.board x'.board := lthreadRun_turn h.seated hcpu (fun _ => trivial) hx
  have hrun : x.board.cpu ≠ .run m := by simp [World.board, hcpu]
  rcases ht.ctx_cases m with h1 | ⟨-, h1⟩ | ⟨h1, -⟩ | ⟨h1, -⟩ | ⟨-, h1, h2⟩
  · exact Or.inl h1
  · exact Or.inr (Or.inl h1)
  · exact absurd h1 hrun
  · exact absurd h1 hrun
  · exact Or.inr (Or.inr ⟨h1, h2⟩)

/-- A round of the loop that resumes nobody out of a wait on a condition. -/
def NoneReturns (x x' : World) : Prop :=
  Untouched x x' ∧ ∀ l, x'.cpu = .run l → (x.sched.lt l).ctx.cond = none

theorem NoneReturns.idle (hcpu : x.cpu = .loop) (hk : Untouched x x') (hc : x'.cpu = x.cpu) : NoneReturns x x' := by
  refine ⟨hk, fun l hl => ?_⟩
  rw [hc, hcpu] at hl; cases hl

theorem NoneReturns.resume {y : World} (hx : y.lthreadResume l = .ok x') (hk : Untouched x y)
    (hctx : (y.sched.lt l).ctx = (x.sched.lt l).ctx) (hno : (x.sched.lt l).ctx.cond = none) : NoneReturns x x' := by
  refine ⟨hk.trans (lthreadResume_untouched (by rw [hctx]; exact hno) hx), fun m hm => ?_⟩
  rcases (lthreadResume_rest hx).2 with ⟨hc, -⟩ | ⟨hc, -⟩
  · rw [hc] at hm
    obtain rfl := Cpu.run.inj hm
    exact hno
  · rw [hc] at hm; cases hm

theorem Inv.handleEv_noneReturns (h : x.Inv k) (hcpu : x.cpu = .loop) {fd : Fd} {e : LtEvent} {eof : Bool}
    {next : Bool → Except Fault Phase} (hx : x.handleEv fd e eof next = .ok x') : NoneReturns x x' := by
  rcases handleEv_cases hx with ⟨ph, -, -, rfl⟩ | ⟨ph, m, s, -, hd, hmem, -, -, -, hx⟩
  · exact NoneReturns.idle hcpu (Untouched.refl x) rfl
  · obtain ⟨fd', e', t', hm, -⟩ := h.waiting hmem
    have hsame := ListsSame.deschedEvent (s := x.sched) fd e
    have hctx := (lthreadDeschedEvent_keeps x.sched fd e).ctx m
    rw [hd] at hsame hctx
    have hno : (x.sched.lt m).ctx.cond = none := by rw [hm]; rfl
    refine NoneReturns.resume hx ⟨rfl, ?_⟩ ?_ hno
    · cases eof with
      | false => exact hsame
      | true => exact hsame.trans (ListsSame.setBit m .fdeof)
    · cases eof with
      | false => exact hctx
      | true => exact ((setBit_keeps s m .fdeof).ctx m).trans hctx

/-- One round of the loop resumes at most one lthread out of a wait on a condition. -/
theorem Inv.loop_returns (h : x.Inv k) (hcpu : x.cpu = .loop) (hx : x.lthreadRun = .ok x') :
    NoneReturns x x' ∨ ∃ l i t z, (x.sched.lt l).ctx.cond = some (i, t) ∧ x.Resumes z l i ∧
      z.lthreadResume l = .ok x' := by
  cases lthreadRun_round hx with
  | @expire τ m _ hp hmin hd hx =>
    have hm : m ∈ x.sched.sleeping := List.argmin_mem hmin
    cases hcond : (x.sched.lt m).ctx.cond with
    | some p =>
      obtain ⟨z, hz, hx⟩ := h.expire_resumes hp hm hd hcond hx
      exact Or.inr ⟨m, p.1, p.2, z, hcond, hz, hx⟩
    | none =>
      obtain ⟨y, z, hy, rfl, hw, hx⟩ := h.resumeExpired_cases hm hx
      exact Or.inl (NoneReturns.resume hx (resumeExpired_untouched hy) hw.ctx hcond)
  | @pop last m rest _ hp hr hx =>
    have hsame : Untouched x (x.onSched fun s => { s with ready := rest }) :=
      Untouched.onSched (ListsSame.of_eq rfl fun _ => rfl)
    cases hcond : (x.sched.lt m).ctx.cond with
    | none => exact Or.inl (NoneReturns.resume hx hsame rfl hcond)
    | some p =>
      cases hc : x.sched.has m .cancelled with
      | false => exact Or.inr ⟨m, p.1, p.2, _, hcond, h.pop_resumes hcpu hr hcond hc, hx⟩
      | true =>
        obtain ⟨-, ⟨-, hdrop⟩ | ⟨hc', -⟩⟩ := lthreadResume_cases hx
        · exact Or.inl (NoneReturns.idle hcpu (hsame.trans (dropCancelled_untouched hdrop))
            ((dropCancelled_rest hdrop).2.1.trans hcpu.symm))
        · exact absurd hc (Bool.eq_false_iff.mp hc')
  | @deferPop m rest _ hp hr hx =>
    have hd : (x.seat m).cnt.defer ≠ 0 := count_ne_zero (by simp [hr])
    refine Or.inl (NoneReturns.resume hx (Untouched.onSched (ListsSame.of_eq rfl fun _ => rfl)) rfl ?_)
    rcases ((h.row m).of_defer hd).1 with ⟨e, w, h1⟩ | ⟨j, h1⟩ <;> rw [h1] <;> rfl
  | read hp hx | write hp hx => exact Or.inl (h.handleEv_noneReturns hcpu hx)
  | _ => exact Or.inl (NoneReturns.idle hcpu (Untouched.refl x) rfl)

end World
end Lthr
