import Lthread.Proofs.Placement
import Lthread.Proofs.WorldFrame

/-! What a step does to the ready queue and to the deadlines of the sleepers. The loop over
the ready queue takes its head; everybody else appends to it. An lthread enters the
sleeping tree by a call of its own, with a deadline that does not change while it is in
there. -/

namespace Lthr

open Sched Seat

namespace Sched

/-- Lthreads are appended to the ready queue, some leave the sleeping tree, and the
deadlines of the others are as they were. -/
structure Grows (s s' : Sched) : Prop where
  ready : s.ready <+: s'.ready
  sleeping : ∀ m ∈ s'.sleeping, m ∈ s.sleeping ∧ (s'.lt m).sleepUsecs = (s.lt m).sleepUsecs
  birth : s'.birth = s.birth
  usecNow : s'.usecNow = s.usecNow

structure Enters (s s' : Sched) (l : LtId) (msecs : ℕ) : Prop where
  ready : s'.ready = s.ready
  sleeping : s'.sleeping = l :: s.sleeping
  deadline : (s'.lt l).sleepUsecs = s.sleepDeadline msecs
  others : ∀ m ≠ l, (s'.lt m).sleepUsecs = (s.lt m).sleepUsecs
  birth : s'.birth = s.birth
  usecNow : s'.usecNow = s.usecNow

/-- The ready queue, the sleeping tree and all deadlines are as before. -/
structure TimesSame (s s' : Sched) : Prop where
  ready : s'.ready = s.ready
  sleeping : s'.sleeping = s.sleeping
  deadlines : ∀ m, (s'.lt m).sleepUsecs = (s.lt m).sleepUsecs
  birth : s'.birth = s.birth
  usecNow : s'.usecNow = s.usecNow

namespace TimesSame

variable {s s' : Sched}

theorem refl (s : Sched) : TimesSame s s := ⟨rfl, rfl, fun _ => rfl, rfl, rfl⟩

theorem trans {a b c : Sched} (h1 : TimesSame a b) (h2 : TimesSame b c) : TimesSame a c :=
  ⟨h2.ready.trans h1.ready, h2.sleeping.trans h1.sleeping, fun m => (h2.deadlines m).trans (h1.deadlines m),
    h2.birth.trans h1.birth, h2.usecNow.trans h1.usecNow⟩

theorem modify {l : LtId} {f : Lt → Lt} (hf : ∀ v, (f v).sleepUsecs = v.sleepUsecs) : TimesSame s (s.modify l f) := by
  refine ⟨rfl, rfl, fun m => ?_, rfl, rfl⟩
  rw [modify_lt]
  split_ifs with hm
  · rw [hm, hf]
  · rfl

end TimesSame

namespace Grows

variable {s s' : Sched}

theorem refl (s : Sched) : Grows s s := ⟨List.prefix_rfl, fun _ hm => ⟨hm, rfl⟩, rfl, rfl⟩

theorem of_timesSame (h : TimesSame s s') : Grows s s' :=
  ⟨by rw [h.ready], fun m hm => ⟨h.sleeping ▸ hm, h.deadlines m⟩, h.birth, h.usecNow⟩

theorem trans {a b c : Sched} (h1 : Grows a b) (h2 : Grows b c) : Grows a c := by
  refine ⟨h1.ready.trans h2.ready, fun m hm => ?_, h2.birth.trans h1.birth, h2.usecNow.trans h1.usecNow⟩
  obtain ⟨hb, hd⟩ := h2.sleeping m hm
  exact ⟨(h1.sleeping m hb).1, hd.trans (h1.sleeping m hb).2⟩

theorem modify {l : LtId} {f : Lt → Lt} (hf : (f (s.lt l)).sleepUsecs = (s.lt l).sleepUsecs) :
    Grows s (s.modify l f) := by
  refine ⟨List.prefix_rfl, fun m hm => ⟨hm, ?_⟩, rfl, rfl⟩
  rw [modify_lt]
  split_ifs with hml
  · rw [hml, hf]
  · rfl

theorem modify_awake {l : LtId} {f : Lt → Lt} (hl : l ∉ s.sleeping) : Grows s (s.modify l f) := by
  refine ⟨List.prefix_rfl, fun m hm => ⟨hm, ?_⟩, rfl, rfl⟩
  rw [modify_lt, if_neg]
  rintro rfl
  exact hl hm

theorem readyInsert (l : LtId) : Grows s (s.readyInsert l) :=
  ⟨List.prefix_append _ _, fun _ hm => ⟨hm, rfl⟩, rfl, rfl⟩

theorem deschedSleep (l : LtId) : Grows s (s.lthreadDeschedSleep l) := by
  unfold lthreadDeschedSleep
  split_ifs
  · have h : Grows s (s.modify l fun lt => ((lt.clearBit .sleeping).setBit .ready).clearBit .expired) :=
      Grows.modify rfl
    exact ⟨h.ready, fun m hm => h.sleeping m (List.mem_of_mem_erase hm), rfl, rfl⟩
  · exact refl s

theorem signal (c : CondId) : Grows s (s.lthreadCondSignal c) := by
  unfold lthreadCondSignal
  split
  · exact refl s
  · next l rest _ =>
    have h0 : Grows s { s with blocked := Function.update s.blocked c rest } :=
      ⟨List.prefix_rfl, fun _ hm => ⟨hm, rfl⟩, rfl, rfl⟩
    exact (h0.trans (deschedSleep l)).trans (readyInsert l)

theorem signals (h : Signals s s') : Grows s s' := by
  induction h with
  | refl => exact refl _
  | tail c _ ih => exact ih.trans (signal c)

theorem deschedEvent (fd : Fd) (e : LtEvent) : Grows s (s.lthreadDeschedEvent fd e).1 := by
  unfold lthreadDeschedEvent
  split
  · exact refl s
  · next l _ =>
    have h0 : Grows s { s with waiting := s.waiting.erase l } :=
      ⟨List.prefix_rfl, fun _ hm => ⟨hm, rfl⟩, rfl, rfl⟩
    exact h0.trans (deschedSleep l)

theorem schedSleepEnd {l : LtId} (hl : l ∉ s.sleeping) (n : ℕ) : Grows s (s.lthreadSchedSleepEnd l n) := by
  unfold lthreadSchedSleepEnd
  simp only
  split_ifs
  · have h : Grows s (s.clearBit l .sleeping) := Grows.modify rfl
    exact h.trans (modify_awake hl)
  · exact modify_awake hl

theorem busySleepEnd {l : LtId} (hl : l ∉ s.sleeping) (n : ℕ) : Grows s (s.lthreadSchedBusySleepEnd l n) := by
  have h : Grows s ((s.lthreadSchedSleepEnd l n).clearBit l .busy) :=
    (schedSleepEnd hl n).trans (Grows.modify rfl)
  exact ⟨h.ready, h.sleeping, h.birth, h.usecNow⟩

theorem condWaitEnd {l : LtId} (hl : l ∉ s.sleeping) (c : CondId) (n : ℕ) :
    Grows s (s.lthreadCondWaitEnd l c n).1 := by
  have h := busySleepEnd hl n
  unfold lthreadCondWaitEnd
  simp only
  split_ifs
  · exact ⟨h.ready, h.sleeping, h.birth, h.usecNow⟩
  · exact h

theorem schedSleep_zero {l : LtId} (hl : l ∉ s.sleeping) : Grows s (s.lthreadSchedSleep l 0) := by
  unfold lthreadSchedSleep
  simp only [if_true]
  exact modify_awake hl

theorem create (hl : s.spawned ∉ s.sleeping) : Grows s s.lthreadCreate := by
  refine ⟨List.prefix_append _ _, fun m hm => ⟨hm, ?_⟩, rfl, rfl⟩
  have hne : m ≠ s.spawned := by
    rintro rfl
    exact hl hm
  simp [lthreadCreate, hne]

end Grows

namespace Enters

variable {s s' : Sched} {l : LtId} {n : ℕ}

theorem schedSleep (hn : n ≠ 0) : Enters s (s.lthreadSchedSleep l n) l n := by
  unfold lthreadSchedSleep
  simp only [if_neg hn]
  refine ⟨rfl, rfl, ?_, fun m hm => ?_, rfl, rfl⟩
  · simp only [modify_lt, if_true, sleepDeadline, if_neg hn]
  · simp only [modify_lt, if_neg hm]

theorem of_timesSame {u : Sched} (hu : TimesSame s u) (h : Enters u s' l n) : Enters s s' l n := by
  refine ⟨h.ready.trans hu.ready, by rw [h.sleeping, hu.sleeping], ?_,
    fun m hm => (h.others m hm).trans (hu.deadlines m), h.birth.trans hu.birth, h.usecNow.trans hu.usecNow⟩
  rw [h.deadline, sleepDeadline, sleepDeadline, hu.sleeping, hu.birth, hu.usecNow]
  simp only [hu.deadlines]

theorem setCtx (h : Enters s s' l n) (c : Ctx) : Enters s (s'.setCtx l c) l n := by
  have hlt (m : LtId) : ((s'.setCtx l c).lt m).sleepUsecs = (s'.lt m).sleepUsecs := by
    unfold Sched.setCtx
    rw [modify_lt]
    split_ifs with hm
    · rw [hm]
    · rfl
  exact ⟨h.ready, h.sleeping, (hlt l).trans h.deadline, fun m hm => (hlt m).trans (h.others m hm),
    h.birth, h.usecNow⟩

end Enters
end Sched

namespace World

variable {k : Bool} {x x' y : World} {l : LtId} {a : Label}

@[simp] theorem onSched_sched (f : Sched → Sched) : (x.onSched f).sched = f x.sched := rfl
@[simp] theorem suspend_sched (f : Sched → Sched) : (x.suspend l f).sched = f x.sched := rfl
@[simp] theorem returnValue_sched (r : ℤ) : (x.returnValue l r).sched = x.sched := rfl

theorem afterYield_queues (hx : x.afterYield l = .ok x') :
    x'.sched.ready = x.sched.ready ∧ x'.sched.sleeping = x.sched.sleeping := by
  have hcond (c : CondId) (t : ℕ) : (x.sched.lthreadCondWaitEnd l c t).1.ready = x.sched.ready ∧
      (x.sched.lthreadCondWaitEnd l c t).1.sleeping = x.sched.sleeping := by
    rw [lthreadCondWaitEnd_eq]
    split_ifs <;> simp
  unfold World.afterYield at hx
  cases hc : (x.sched.lt l).ctx with
  | running | exited => rw [hc] at hx; cases hx
  | joining target t =>
    rw [hc] at hx
    obtain ⟨-, ⟨-, rfl⟩ | ⟨-, rfl⟩⟩ := lthreadJoinEnd_cases hx <;> simp
  | schedEvent fd e t =>
    rw [hc] at hx
    simp only at hx
    split_ifs at hx
    obtain rfl := Except.ok.inj hx
    simp [lthreadSchedEventEnd]
  | condWait c t =>
    rw [hc] at hx
    obtain rfl := Except.ok.inj hx
    exact hcond c t
  | selWait s t =>
    rw [hc] at hx
    obtain rfl := Except.ok.inj hx
    change (x.sys.returnFrom l s t).sched.ready = _ ∧ (x.sys.returnFrom l s t).sched.sleeping = _
    rw [Sys.returnFrom_sched]
    exact hcond (.sel s) t
  | start | yielded | compute | slept | ioWait =>
    rw [hc] at hx
    obtain rfl := Except.ok.inj hx
    simp

theorem afterYield_grows (hl : l ∉ x.sched.sleeping) (hx : x.afterYield l = .ok x') :
    x.sched.Grows x'.sched := by
  unfold World.afterYield at hx
  cases hc : (x.sched.lt l).ctx with
  | start | yielded | compute =>
    rw [hc] at hx
    obtain rfl := Except.ok.inj hx
    exact Grows.refl _
  | running | exited => rw [hc] at hx; cases hx
  | joining target t =>
    rw [hc] at hx
    obtain ⟨-, ⟨-, rfl⟩ | ⟨-, rfl⟩⟩ := lthreadJoinEnd_cases hx
    all_goals
      rw [returnValue_sched, onSched_sched]
      exact (Grows.busySleepEnd hl t).trans (Grows.modify rfl)
  | slept t =>
    rw [hc] at hx
    obtain rfl := Except.ok.inj hx
    exact Grows.schedSleepEnd hl t
  | condWait c t =>
    rw [hc] at hx
    obtain rfl := Except.ok.inj hx
    exact Grows.condWaitEnd hl c t
  | selWait s t =>
    rw [hc] at hx
    obtain rfl := Except.ok.inj hx
    change x.sched.Grows (x.sys.returnFrom l s t).sched
    rw [Sys.returnFrom_sched]
    exact (Grows.condWaitEnd hl (.sel s) t).trans (Grows.modify rfl)
  | schedEvent fd e t =>
    rw [hc] at hx
    simp only at hx
    split_ifs at hx
    obtain rfl := Except.ok.inj hx
    rw [onSched_sched, lthreadSchedEventEnd]
    exact ((Grows.schedSleepEnd hl t).trans (Grows.modify rfl)).trans (Grows.modify rfl)
  | ioWait e w =>
    rw [hc] at hx
    obtain rfl := Except.ok.inj hx
    rw [onSched_sched]
    exact Grows.modify rfl

theorem resumed_grows (x : World) (l : LtId) (r : ℤ) : x.sched.Grows (x.resumed l r).sched := by
  obtain ⟨ph, -, heq⟩ := resumed_eq x l r
  rw [heq]
  split_ifs
  · exact Grows.modify (f := (·.clearBit .expired)) rfl
  · exact Grows.refl _

theorem wakeJoiner_grows (hx : x.wakeJoiner l = .ok x') : x.sched.Grows x'.sched := by
  rcases wakeJoiner_cases hx with ⟨-, rfl⟩ | ⟨j, -, -, rfl⟩
  · exact Grows.refl _
  · rw [onSched_sched]
    exact ((Grows.deschedSleep j).trans (Grows.readyInsert j)).trans (Grows.modify rfl)

theorem freeDetached_grows (x : World) (l : LtId) : x.sched.Grows (x.freeDetached l).sched := by
  unfold freeDetached
  split_ifs
  · rw [onSched_sched, lthreadFree]
    exact Grows.modify rfl
  · exact Grows.refl _

theorem unbusy_grows (x : World) (l : LtId) : x.sched.Grows (x.unbusy l).sched := by
  unfold unbusy
  split_ifs
  · exact ⟨List.prefix_rfl, fun _ hm => ⟨hm, rfl⟩, rfl, rfl⟩
  · exact Grows.refl _

theorem lthreadResume_grows (hl : x'.cpu = .run l → l ∉ x'.sched.sleeping) (hx : x.lthreadResume l = .ok x') :
    x.sched.Grows x'.sched := by
  obtain ⟨-, ⟨-, hx⟩ | ⟨-, y, hy, rfl⟩⟩ := lthreadResume_cases hx
  · unfold dropCancelled at hx
    obtain ⟨y, hy, hx⟩ := except_bind_ok hx
    obtain rfl := Except.ok.inj hx
    exact ((wakeJoiner_grows hy).trans (freeDetached_grows y l)).trans
      ((unbusy_grows _ l).trans (resumed_grows _ l (-1)))
  · have hinit : x.sched.Grows (x.initNew l).sched := by
      unfold initNew
      split_ifs
      · exact Grows.modify (f := ({ · with state := fun b => decide (b = .ready) })) rfl
      · exact Grows.refl _
    have hl' : l ∉ (x.initNew l).sched.sleeping := by
      rw [← (afterYield_queues hy).2]
      exact hl rfl
    have hset : y.sched.Grows (y.sched.setCtx l .running) := Grows.modify rfl
    exact (hinit.trans (afterYield_grows hl' hy)).trans hset

/-- `_lthread_resume` puts the joiner of a cancelled lthread on the ready queue, and nobody else. -/
theorem lthreadResume_ready (hx : x.lthreadResume l = .ok x') : x'.sched.ready = x.sched.ready ++
    if x.sched.has l .cancelled then (x.sched.lt l).ltJoin.toList else [] := by
  obtain ⟨-, ⟨hc, hx⟩ | ⟨hc, y, hy, rfl⟩⟩ := lthreadResume_cases hx
  · obtain ⟨y, hy, hx⟩ := except_bind_ok hx
    obtain rfl := Except.ok.inj hx
    have hafter : (((y.freeDetached l).unbusy l).resumed l (-1)).sched.ready = y.sched.ready := by
      obtain ⟨ph, -, heq⟩ := resumed_eq ((y.freeDetached l).unbusy l) l (-1)
      rw [heq]
      unfold freeDetached unbusy
      split_ifs <;> rfl
    rw [if_pos hc]
    refine hafter.trans ?_
    rcases wakeJoiner_cases hy with ⟨hj, rfl⟩ | ⟨j, hj, -, rfl⟩
    · rw [hj]
      exact (List.append_nil _).symm
    · rw [hj, onSched_sched, modify_ready]
      change (x.sched.lthreadDeschedSleep j).ready ++ [j] = _
      rw [lthreadDeschedSleep_ready]
      rfl
  · rw [if_neg (by simp [hc]), List.append_nil]
    refine (afterYield_queues hy).1.trans ?_
    unfold initNew
    split_ifs <;> rfl

theorem lthreadResumeEnd_grows (hx : x.lthreadResumeEnd l = .ok x') : x.sched.Grows x'.sched := by
  unfold lthreadResumeEnd at hx
  split_ifs at hx
  · obtain ⟨y, hy, hx⟩ := except_bind_ok hx
    obtain rfl := Except.ok.inj hx
    exact ((wakeJoiner_grows hy).trans (freeDetached_grows y l)).trans (resumed_grows _ l (-1))
  · obtain ⟨j, -, hx⟩ := except_bind_ok hx
    obtain rfl := Except.ok.inj hx
    have h0 : x.sched.Grows { x.sched with busy := l :: x.sched.busy } :=
      ⟨List.prefix_rfl, fun _ hm => ⟨hm, rfl⟩, rfl, rfl⟩
    have h1 : x.sched.Grows ((({ x.sched with busy := l :: x.sched.busy } : Sched).clearBit l
        .pendingRuncompute).setBit l .runcompute) :=
      (h0.trans (Grows.modify rfl)).trans (Grows.modify rfl)
    exact h1
  · obtain rfl := Except.ok.inj hx
    exact resumed_grows x l 0

theorem lthreadCancelEvent_grows (h : x.lthreadCancelEvent l = .ok x') : x.sched.Grows x'.sched := by
  obtain ⟨C, p, hC, -, rfl⟩ := lthreadCancelEvent_cases h
  have hclear : x.sched.Grows (x.sched.modify l C) := by
    rcases hC with rfl | ⟨e, rfl⟩ <;> exact Grows.modify rfl
  change x.sched.Grows (eventCancelled l C (x.sched.lt l).fdWait x.sched)
  unfold eventCancelled
  split_ifs
  · exact (hclear.trans (Grows.deschedEvent _ _)).trans (Grows.modify rfl)
  · exact hclear.trans (Grows.modify rfl)

theorem Inv.not_asleep (h : x.Inv k) (hcpu : x.cpu = .run l) : l ∉ x.sched.sleeping := by
  intro hl
  have hcnt : (x.seat l).cnt.sleeping = 0 := by rw [h.runs hcpu]
  exact count_ne_zero hl hcnt

theorem handleEv_grows (h' : x'.Inv k) {fd : Fd} {e : LtEvent} {eof : Bool} {next : Bool → Except Fault Phase}
    (hx : x.handleEv fd e eof next = .ok x') : x.sched.Grows x'.sched := by
  rcases handleEv_cases hx with ⟨ph, -, -, rfl⟩ | ⟨ph, m, s, -, hd, -, -, -, -, hx⟩
  · exact Grows.refl _
  · have hs : x.sched.Grows s := by
      have h0 := Grows.deschedEvent (s := x.sched) fd e
      rwa [hd] at h0
    have heof : s.Grows (if eof then s.setBit m .fdeof else s) := by
      split_ifs
      · exact Grows.modify rfl
      · exact Grows.refl s
    exact (hs.trans heof).trans (lthreadResume_grows h'.not_asleep hx)

theorem lthreadRun_grows (h' : x'.Inv k) (hx : x.lthreadRun = .ok x') :
    x.sched.Grows x'.sched ∨ ∃ last m rest, x.phase = .ready last ∧ x.sched.ready = m :: rest ∧
      (x.onSched fun s => { s with ready := rest }).lthreadResume m = .ok x' ∧
      ({ x.sched with ready := rest } : Sched).Grows x'.sched := by
  cases lthreadRun_round hx with
  | @expire t m _ hp hm hd hx =>
    obtain ⟨y, hy, hx⟩ := except_bind_ok hx
    have hset : y.sched.Grows ((y.sched.lthreadDeschedSleep m).setBit m .expired) :=
      (Grows.deschedSleep m).trans (Grows.modify rfl)
    exact Or.inl (((lthreadCancelEvent_grows hy).trans hset).trans (lthreadResume_grows h'.not_asleep hx))
  | @pop last m rest _ hp hr hx => exact Or.inr ⟨last, m, rest, hp, hr, hx, lthreadResume_grows h'.not_asleep hx⟩
  | @deferPop m rest _ hp hr hx =>
    have h0 : x.sched.Grows { x.sched with defer := rest, busy := x.sched.busy.erase m } :=
      ⟨List.prefix_rfl, fun _ hm => ⟨hm, rfl⟩, rfl, rfl⟩
    exact Or.inl (h0.trans (lthreadResume_grows h'.not_asleep hx))
  | read hp hx | write hp hx => exact Or.inl (handleEv_grows h' hx)
  | _ => exact Or.inl (Grows.refl _)

theorem Inv.unborn_not_asleep (h : x.Inv k) : x.sched.spawned ∉ x.sched.sleeping := by
  intro hl
  obtain ⟨hx, hc⟩ := h.seated.links.fresh x.sched.spawned le_rfl
  have hrow := h.row x.sched.spawned
  rw [show (x.sched.lt x.sched.spawned).ctx = .exited from hx,
    show x.sched.has x.sched.spawned .cancelled = false from hc] at hrow
  have hcnt : (x.seat x.sched.spawned).cnt.sleeping = 0 := by rw [hrow.of_exited]
  exact count_ne_zero hl hcnt

theorem edit_timesSame {op : Op} (h : Edit l op x false x') : x.sched.TimesSame x'.sched := by
  cases h with
  | lt m f hf => exact TimesSame.modify fun v => (hf v).sleepUsecs
  | _ => exact ⟨rfl, rfl, fun _ => rfl, rfl, rfl⟩

theorem edit_grows {op : Op} {b : Bool} (h : Edit l op x b x') : x.sched.Grows x'.sched := by
  cases h with
  | lt m f hf => exact Grows.modify (hf _).sleepUsecs
  | ready m => exact Grows.readyInsert m
  | desched m => exact Grows.deschedSleep m
  | _ => exact ⟨List.prefix_rfl, fun _ hm => ⟨hm, rfl⟩, rfl, rfl⟩

/-- A call puts its lthread to sleep, or it appends to the ready queue and wakes sleepers. -/
theorem Inv.call_grows (h : x.Inv k) (hcpu : x.cpu = .run l) {op : Op} (hx : x.call l op = .ok x') :
    x.sched.Grows x'.sched ∨ op.msecs ≠ 0 ∧ x.sched.Enters x'.sched l op.msecs := by
  cases call_edits hx with
  | create => exact Or.inl (Grows.create h.unborn_not_asleep)
  | writes hw =>
    exact Or.inl (hw.keeps (P := fun x y => x.sched.Grows y.sched) (fun _ => Grows.refl _) Grows.trans edit_grows)
  | @sleeps y c hw hc =>
    have hsame : x.sched.TimesSame y.sched :=
      hw.keeps (P := fun x y => x.sched.TimesSame y.sched) (fun _ => TimesSame.refl _) TimesSame.trans edit_timesSame
    rw [suspend_sched]
    by_cases hn : op.msecs = 0
    · have hl : l ∉ y.sched.sleeping := by
        rw [hsame.sleeping]
        exact h.not_asleep hcpu
      rw [hn]
      exact Or.inl (((Grows.of_timesSame hsame).trans (Grows.schedSleep_zero hl)).trans (Grows.modify rfl))
    · exact Or.inr ⟨hn, Enters.of_timesSame hsame ((Enters.schedSleep hn).setCtx c)⟩

/-- A step of anything but the loop: the clock goes on, a call puts its lthread to sleep,
or the ready queue grows and sleepers are woken. -/
theorem Inv.step_grows (h : x.Inv k) (hx : x.step a = .ok x') (hloop : a ≠ .sched ∨ x.cpu ≠ .loop) :
    (∃ u, a = .clock u ∧ x' = x.onSched ({ · with usecNow := u })) ∨ x.sched.Grows x'.sched ∨
    ∃ l op, a = .call op ∧ x.cpu = .run l ∧ op.msecs ≠ 0 ∧ x.sched.Enters x'.sched l op.msecs := by
  have hdefer (m : LtId) : x.sched.Grows { x.sched with defer := x.sched.defer ++ [m] } :=
    ⟨List.prefix_rfl, fun _ hm => ⟨hm, rfl⟩, rfl, rfl⟩
  cases step_cases hx with
  | clock u => exact Or.inl ⟨u, rfl, rfl⟩
  | main => exact Or.inr (Or.inl (Grows.create h.unborn_not_asleep))
  | run | poll | leave => exact Or.inr (Or.inl (Grows.refl _))
  | loop hcpu => exact absurd hcpu (hloop.resolve_left fun h0 => h0 rfl)
  | ioSignal => exact Or.inr (Or.inl (Grows.modify (f := ({ · with ops := 0 })) rfl))
  | back hcpu hx => exact Or.inr (Or.inl (lthreadResumeEnd_grows hx))
  | @computeSignal m _ hcpu hx =>
    obtain ⟨j, -, hx⟩ := except_bind_ok hx
    obtain rfl := Except.ok.inj hx
    exact Or.inr (Or.inl (resumed_grows { x with compute := Function.update x.compute j (x.compute j).signal } m 0))
  | @call l op _ hcpu hx =>
    rcases h.call_grows hcpu hx with hg | ⟨hn, he⟩
    · exact Or.inr (Or.inl hg)
    · exact Or.inr (Or.inr ⟨l, op, rfl, hcpu, hn, he⟩)
  | io hx =>
    refine Or.inr (Or.inl ?_)
    obtain ⟨-, y, -, hcases⟩ := ioAct_cases hx
    rcases hcases with ⟨m, -, -, -, -, -, rfl⟩ | ⟨m, -, -, -, -, rfl⟩ | ⟨-, -, rfl⟩
    · exact hdefer m
    · exact Grows.refl _
    · exact Grows.refl _
  | compute hx =>
    refine Or.inr (Or.inl ?_)
    obtain ⟨-, y, -, hcases⟩ := computeAct_cases hx
    rcases hcases with ⟨m, -, -, -, -, -, rfl⟩ | ⟨m, -, -, -, -, rfl⟩ | ⟨-, -, rfl⟩ | ⟨-, -, -, rfl⟩
    · exact (hdefer m).trans (Grows.modify (f := (·.clearBit .runcompute)) rfl)
    · exact Grows.refl _
    · exact Grows.refl _
    · exact Grows.refl _

/-- A sleeper was one before and keeps its deadline, or has just gone to sleep. -/
theorem Inv.sleeper_step (h : x.Inv k) (h' : x'.Inv k) (hx : x.step a = .ok x') (hl : l ∈ x'.sched.sleeping) :
    l ∈ x.sched.sleeping ∧ (x'.sched.lt l).sleepUsecs = (x.sched.lt l).sleepUsecs ∨
    ∃ op, a = .call op ∧ x.cpu = .run l ∧ op.msecs ≠ 0 ∧ (x'.sched.lt l).sleepUsecs = x.sched.sleepDeadline op.msecs := by
  by_cases hloop : a = .sched ∧ x.cpu = .loop
  · obtain ⟨rfl, hcpu⟩ := hloop
    replace hx := step_loop hcpu hx
    rcases lthreadRun_grows h' hx with hg | ⟨_, _, _, -, -, -, hg⟩
    · exact Or.inl (hg.sleeping l hl)
    · exact Or.inl (hg.sleeping l hl)
  · rcases h.step_grows hx (not_and_or.mp hloop) with ⟨u, -, rfl⟩ | hg | ⟨m, op, rfl, hcpu, hop, he⟩
    · exact Or.inl ⟨hl, rfl⟩
    · exact Or.inl (hg.sleeping l hl)
    · rw [he.sleeping] at hl
      by_cases hlm : l = m
      · subst hlm
        exact Or.inr ⟨op, rfl, hcpu, hop, he.deadline⟩
      · exact Or.inl ⟨(List.mem_cons.mp hl).resolve_left hlm, he.others l hlm⟩

end World
end Lthr
