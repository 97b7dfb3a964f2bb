import Lthread.Proofs.Interest
import Lthread.Proofs.Queues
import Lthread.Spec.Socket

/-! Who gets `LT_ST_FDEOF`: an lthread that waits for a descriptor, when that is reported
hung up or is closed with `lthread_close`. No other step sets the bit. -/

namespace Lthr

open Sched

namespace Sched

/-- Lthread `m` keeps its bit `LT_ST_FDEOF`, and stays new or not. -/
def EofSame (s s' : Sched) (m : LtId) : Prop :=
  s'.has m .fdeof = s.has m .fdeof ∧ s'.has m .new = s.has m .new

namespace EofSame

variable {s s' : Sched} {m : LtId}

theorem eof (h : EofSame s s' m) : s'.has m .fdeof = s.has m .fdeof := h.1

theorem new (h : EofSame s s' m) : s'.has m .new = s.has m .new := h.2

theorem refl (s : Sched) : EofSame s s m := ⟨rfl, rfl⟩

theorem trans {a b c : Sched} (h1 : EofSame a b m) (h2 : EofSame b c m) : EofSame a c m :=
  ⟨h2.eof.trans h1.eof, h2.new.trans h1.new⟩

theorem modify {l : LtId} {f : Lt → Lt}
    (hf : ∀ lt : Lt, (f lt).state .fdeof = lt.state .fdeof ∧ (f lt).state .new = lt.state .new) :
    EofSame s (s.modify l f) m := by
  have hm : (s.modify l f).lt m = if m = l then f (s.lt l) else s.lt m := modify_lt ..
  by_cases hml : m = l
  · subst hml
    rw [if_pos rfl] at hm
    constructor
    · rw [has, hm, (hf _).1, has]
    · rw [has, hm, (hf _).2, has]
  · rw [if_neg hml] at hm
    exact ⟨by rw [has, hm, has], by rw [has, hm, has]⟩

theorem setBit {l : LtId} {b : LtSt} (hb : b ≠ .fdeof ∧ b ≠ .new) : EofSame s (s.setBit l b) m := by
  constructor
  · rw [setBit_has, if_neg fun h => hb.1 h.2.symm]
  · rw [setBit_has, if_neg fun h => hb.2 h.2.symm]

theorem clearBit (l : LtId) {b : LtSt} (hb : b ≠ .fdeof ∧ b ≠ .new) : EofSame s (s.clearBit l b) m := by
  constructor
  · rw [clearBit_has, if_neg fun h => hb.1 h.2.symm]
  · rw [clearBit_has, if_neg fun h => hb.2 h.2.symm]

theorem deschedSleep (l : LtId) : EofSame s (s.lthreadDeschedSleep l) m := by
  constructor
  · rw [lthreadDeschedSleep_has]; simp
  · rw [lthreadDeschedSleep_has]; simp

theorem deschedEvent (fd : Fd) (e : LtEvent) : EofSame s (s.lthreadDeschedEvent fd e).1 m := by
  unfold lthreadDeschedEvent
  split
  · exact refl s
  · next l _ => exact deschedSleep (s := { s with waiting := s.waiting.erase l }) l

theorem schedSleepEnd (l : LtId) (n : ℕ) : EofSame s (s.lthreadSchedSleepEnd l n) m := by
  unfold lthreadSchedSleepEnd
  simp only
  split_ifs
  · exact (clearBit l (b := .sleeping) (by simp)).trans (modify fun _ => ⟨rfl, rfl⟩)
  · exact modify fun _ => ⟨rfl, rfl⟩

theorem busySleepEnd (l : LtId) (n : ℕ) : EofSame s (s.lthreadSchedBusySleepEnd l n) m :=
  (schedSleepEnd l n).trans (clearBit l (b := .busy) (by simp))

theorem condWaitEnd (l : LtId) (c : CondId) (n : ℕ) : EofSame s (s.lthreadCondWaitEnd l c n).1 m := by
  have h := busySleepEnd (s := s) (m := m) l n
  unfold lthreadCondWaitEnd
  simp only
  split_ifs
  · exact h
  · exact h

theorem schedSleep (l : LtId) (n : ℕ) : EofSame s (s.lthreadSchedSleep l n) m := by
  constructor
  · rw [lthreadSchedSleep_has]; simp
  · rw [lthreadSchedSleep_has]; simp

end EofSame

/-- Lthread `m` gets `LT_ST_FDEOF` only if `P`, and does not lose it if `Q`. -/
def EofOnly (s s' : Sched) (m : LtId) (P Q : Prop) : Prop :=
  (s'.has m .fdeof = true → s.has m .fdeof = true ∨ P) ∧ (Q → s.has m .fdeof = true → s'.has m .fdeof = true)

theorem EofOnly.gets {s s' : Sched} {m : LtId} {P Q : Prop} (h : EofOnly s s' m P Q) :
    s'.has m .fdeof = true → s.has m .fdeof = true ∨ P := h.1

theorem EofOnly.stays {s s' : Sched} {m : LtId} {P Q : Prop} (h : EofOnly s s' m P Q) :
    Q → s.has m .fdeof = true → s'.has m .fdeof = true := h.2

theorem EofSame.only {s s' : Sched} {m : LtId} {P Q : Prop} (h : EofSame s s' m) : EofOnly s s' m P Q :=
  ⟨fun hm => Or.inl (h.eof.symm.trans hm), fun _ hm => h.eof.trans hm⟩

theorem EofOnly.mono {s s' : Sched} {m : LtId} {P Q P' Q' : Prop} (h : EofOnly s s' m P Q) (hp : P → P')
    (hq : Q' → Q) : EofOnly s s' m P' Q' :=
  ⟨fun hm => (h.gets hm).imp_right hp, fun q => h.stays (hq q)⟩

theorem EofOnly.after {s s₁ s' : Sched} {m : LtId} {P : Prop} (h : EofSame s s₁ m)
    (h' : EofOnly s₁ s' m P (s₁.has m .new = false)) : EofOnly s s' m P (s.has m .new = false) :=
  ⟨fun hm => (h'.gets hm).imp_left h.eof.symm.trans,
    fun hq hm => h'.stays (h.new.trans hq) (h.eof.trans hm)⟩

theorem EofOnly.create (s : Sched) (m : LtId) : EofOnly s s.lthreadCreate m False (m ≠ s.spawned) := by
  by_cases hm : m = s.spawned
  · refine ⟨fun h => ?_, fun h => absurd hm h⟩
    simp [has, lthreadCreate, newLt, hm] at h
  · have hlt : s.lthreadCreate.lt m = s.lt m := by simp only [lthreadCreate, Function.update_of_ne hm]
    exact EofSame.only ⟨by rw [has, hlt, has], by rw [has, hlt, has]⟩

end Sched

namespace World

variable {x x' : World} {l m : LtId}

theorem afterYield_eof (hx : x.afterYield l = .ok x') : x.sched.EofSame x'.sched m := by
  unfold World.afterYield at hx
  cases hc : (x.sched.lt l).ctx with
  | start | yielded | compute =>
    rw [hc] at hx
    obtain rfl := Except.ok.inj hx
    exact EofSame.refl _
  | running | exited => rw [hc] at hx; cases hx
  | joining target t =>
    rw [hc] at hx
    obtain ⟨-, ⟨-, rfl⟩ | ⟨-, rfl⟩⟩ := lthreadJoinEnd_cases hx
    all_goals
      rw [returnValue_sched, onSched_sched]
      exact (EofSame.busySleepEnd l t).trans (EofSame.modify fun _ => ⟨rfl, rfl⟩)
  | slept t =>
    rw [hc] at hx
    obtain rfl := Except.ok.inj hx
    exact EofSame.schedSleepEnd l t
  | condWait c t =>
    rw [hc] at hx
    obtain rfl := Except.ok.inj hx
    exact EofSame.condWaitEnd l c t
  | selWait s t =>
    rw [hc] at hx
    obtain rfl := Except.ok.inj hx
    change x.sched.EofSame (x.sys.returnFrom l s t).sched m
    rw [Sys.returnFrom_sched]
    exact (EofSame.condWaitEnd l (.sel s) t).trans (EofSame.modify fun _ => ⟨rfl, rfl⟩)
  | schedEvent fd e t =>
    rw [hc] at hx
    simp only at hx
    split_ifs at hx
    obtain rfl := Except.ok.inj hx
    rw [onSched_sched, lthreadSchedEventEnd]
    exact ((EofSame.schedSleepEnd l t).trans (EofSame.modify (by exact fun _ => ⟨rfl, rfl⟩))).trans
      (EofSame.clearBit l (by cases e <;> simp [waitBit]))
  | ioWait e w =>
    rw [hc] at hx
    obtain rfl := Except.ok.inj hx
    exact EofSame.clearBit l (by cases e <;> simp [waitIoBit])

theorem resumed_eof (x : World) (l : LtId) (r : ℤ) : x.sched.EofSame (x.resumed l r).sched m := by
  obtain ⟨ph, -, heq⟩ := resumed_eq x l r
  rw [heq]
  split_ifs
  · exact EofSame.clearBit l (by simp)
  · exact EofSame.refl _

theorem wakeJoiner_eof (hx : x.wakeJoiner l = .ok x') : x.sched.EofSame x'.sched m := by
  rcases wakeJoiner_cases hx with ⟨-, rfl⟩ | ⟨j, -, -, rfl⟩
  · exact EofSame.refl _
  · have h : x.sched.EofSame ((x.sched.lthreadDeschedSleep j).readyInsert j) m := EofSame.deschedSleep j
    rw [onSched_sched]
    exact h.trans (EofSame.modify (by exact fun _ => ⟨rfl, rfl⟩))

theorem freeDetached_eof (x : World) (l : LtId) : x.sched.EofSame (x.freeDetached l).sched m := by
  unfold freeDetached
  split_ifs
  · exact EofSame.modify (f := ({ · with freed := true })) fun _ => ⟨rfl, rfl⟩
  · exact EofSame.refl _

theorem unbusy_eof (x : World) (l : LtId) : x.sched.EofSame (x.unbusy l).sched m := by
  unfold unbusy
  split_ifs <;> exact EofSame.refl _

theorem initNew_eof (x : World) (l : LtId) :
    EofOnly x.sched (x.initNew l).sched m False (x.sched.has m .new = false) := by
  unfold initNew
  split_ifs with hnew
  · rw [lthreadInit, onSched_sched]
    by_cases hm : m = l
    · subst hm
      exact ⟨fun h => by simp [has, modify_lt] at h, fun h => absurd hnew (Bool.eq_false_iff.mp h)⟩
    · have hlt : (x.sched.modify l ({ · with state := fun b => decide (b = .ready) })).lt m = x.sched.lt m := by
        rw [modify_lt, if_neg hm]
      exact EofSame.only ⟨by rw [has, hlt, has], by rw [has, hlt, has]⟩
  · exact (EofSame.refl _).only

/-- `_lthread_resume` leaves the bit alone, unless it resumes a new lthread. -/
theorem lthreadResume_eof (hx : x.lthreadResume l = .ok x') :
    EofOnly x.sched x'.sched m False (x.sched.has m .new = false) := by
  obtain ⟨-, ⟨-, hx⟩ | ⟨-, y, hy, rfl⟩⟩ := lthreadResume_cases hx
  · unfold dropCancelled at hx
    obtain ⟨y, hy, hx⟩ := except_bind_ok hx
    obtain rfl := Except.ok.inj hx
    exact (((wakeJoiner_eof hy).trans (freeDetached_eof y l)).trans
      ((unbusy_eof _ l).trans (resumed_eof _ l (-1)))).only
  · have hset : y.sched.EofSame (y.sched.setCtx l .running) m := EofSame.modify fun _ => ⟨rfl, rfl⟩
    have h := (afterYield_eof (m := m) hy).trans hset
    have hinit := initNew_eof (m := m) x l
    exact ⟨fun hm => hinit.gets (h.eof.symm.trans hm), fun hn hm => h.eof.trans (hinit.stays hn hm)⟩

theorem lthreadResumeEnd_eof (hx : x.lthreadResumeEnd l = .ok x') : x.sched.EofSame x'.sched m := by
  unfold lthreadResumeEnd at hx
  split_ifs at hx
  · obtain ⟨y, hy, hx⟩ := except_bind_ok hx
    obtain rfl := Except.ok.inj hx
    exact ((wakeJoiner_eof hy).trans (freeDetached_eof y l)).trans (resumed_eof _ l (-1))
  · obtain ⟨j, -, hx⟩ := except_bind_ok hx
    obtain rfl := Except.ok.inj hx
    have h1 := EofSame.clearBit (s := { x.sched with busy := l :: x.sched.busy }) (m := m) l
      (b := .pendingRuncompute) (by simp)
    exact h1.trans (EofSame.setBit (b := .runcompute) (by simp))
  · obtain rfl := Except.ok.inj hx
    exact resumed_eof x l 0

theorem lthreadCancelEvent_eof (h : x.lthreadCancelEvent l = .ok x') : x.sched.EofSame x'.sched m := by
  obtain ⟨C, p, hC, -, rfl⟩ := lthreadCancelEvent_cases h
  have hclear : x.sched.EofSame (x.sched.modify l C) m := by
    rcases hC with rfl | ⟨e, rfl⟩
    · exact EofSame.modify fun _ => ⟨rfl, rfl⟩
    · exact EofSame.clearBit l (by cases e <;> simp [waitBit])
  change x.sched.EofSame (eventCancelled l C (x.sched.lt l).fdWait x.sched) m
  unfold eventCancelled
  split_ifs
  · exact (hclear.trans (EofSame.deschedEvent _ _)).trans (EofSame.modify fun _ => ⟨rfl, rfl⟩)
  · exact hclear.trans (EofSame.modify fun _ => ⟨rfl, rfl⟩)

/-- `HANDLE_EV` sets the bit for the lthread it finds, if the descriptor has hung up. -/
theorem handleEv_eof {fd : Fd} {e : LtEvent} {eof : Bool} {next : Bool → Except Fault Phase}
    (hx : x.handleEv fd e eof next = .ok x') :
    EofOnly x.sched x'.sched m (eof = true ∧ x.Waits m fd e) (x.sched.has m .new = false) := by
  rcases handleEv_cases hx with ⟨ph, -, -, rfl⟩ | ⟨ph, l, s, -, hd, hmem, hkey, -, -, hx⟩
  · exact (EofSame.refl _).only
  · have hs : x.sched.EofSame s m := by
      have h0 := EofSame.deschedEvent (s := x.sched) (m := m) fd e
      rwa [hd] at h0
    have hr := lthreadResume_eof (m := m) hx
    cases eof with
    | false => exact EofOnly.after hs (hr.mono False.elim id)
    | true =>
      have hset {b : LtSt} : (s.setBit l .fdeof).has m b = if m = l ∧ b = .fdeof then true else s.has m b :=
        setBit_has ..
      refine ⟨fun hm => ?_, fun hn hm => hr.stays ?_ ?_⟩
      · have hm' := (hr.gets hm).resolve_right id
        change (s.setBit l .fdeof).has m .fdeof = true at hm'
        rw [hset] at hm'
        split_ifs at hm' with hml
        · rw [hml.1]
          exact Or.inr ⟨rfl, hmem, hkey⟩
        · exact Or.inl (hs.eof.symm.trans hm')
      · change (s.setBit l .fdeof).has m .new = false
        rw [hset, if_neg (by simp)]
        exact hs.new.trans hn
      · change (s.setBit l .fdeof).has m .fdeof = true
        rw [hset]
        split_ifs
        · rfl
        · exact hs.eof.trans hm

theorem lthreadRun_eof (hx : x.lthreadRun = .ok x') :
    EofOnly x.sched x'.sched m (∃ fd e, x.phase.hangUp = some fd ∧ x.Waits m fd e)
      (x.sched.has m .new = false) := by
  cases lthreadRun_round hx with
  | @expire t l _ hp hmin hd hx =>
    obtain ⟨y, hy, hx⟩ := except_bind_ok hx
    have hset : y.sched.EofSame ((y.sched.lthreadDeschedSleep l).setBit l .expired) m :=
      (EofSame.deschedSleep l).trans (EofSame.setBit (by simp))
    exact EofOnly.after ((lthreadCancelEvent_eof hy).trans hset) ((lthreadResume_eof hx).mono False.elim id)
  | pop hp hr hx | deferPop hp hr hx => exact (lthreadResume_eof hx).mono False.elim id
  | @read fd eof evs _ hp hx =>
    refine (handleEv_eof hx).mono (fun ⟨heof, hw⟩ => ?_) id
    subst heof
    exact ⟨fd, .read, by rw [hp]; rfl, hw⟩
  | @write fd eof r evs _ hp hx =>
    refine (handleEv_eof hx).mono (fun ⟨heof, hw⟩ => ?_) id
    subst heof
    exact ⟨fd, .write, by rw [hp]; rfl, hw⟩
  | _ => exact (EofSame.refl _).only

theorem closeEvent_eof {fd : Fd} {e : LtEvent} (hx : x.closeEvent fd e = .ok x') :
    EofOnly x.sched x'.sched m (x.Waits m fd e) True := by
  rcases closeEvent_cases hx with ⟨rfl, -⟩ | ⟨l, s', hd, hmem, hkey, -, -, rfl⟩
  · exact (EofSame.refl _).only
  · have h0 := EofSame.deschedEvent (s := x.sched) (m := m) fd e
    rw [hd] at h0
    refine ⟨fun hm => ?_, fun _ hm => ?_⟩
    · rw [onSched_sched, onSched_sched, setBit_has] at hm
      split_ifs at hm with hml
      · rw [hml.1]
        exact Or.inr ⟨hmem, hkey⟩
      · exact Or.inl (h0.eof.symm.trans hm)
    · rw [onSched_sched, onSched_sched, setBit_has]
      split_ifs
      · rfl
      · exact h0.eof.trans hm

/-- The calls other than `lthread_create` and `lthread_close` leave the bit alone. -/
theorem call_eof {op : Op} (hcr : op ≠ .create) (hop : ∀ fd, op ≠ .close fd) (hx : x.call l op = .ok x') :
    x.sched.EofSame x'.sched m := by
  have hedits {b : Bool} {y : World} (h : Edits l op b x y) : x.sched.EofSame y.sched m := by
    refine h.keeps (P := fun x y => x.sched.EofSame y.sched m) (fun x => EofSame.refl _) EofSame.trans fun h => ?_
    cases h with
    | lt i f hf => exact EofSame.modify (s := World.sched _) fun v => ⟨(hf v).eof hop, (hf v).new⟩
    | desched i => exact EofSame.deschedSleep i
    | _ => exact ⟨rfl, rfl⟩
  cases call_edits hx with
  | create h => exact absurd h hcr
  | writes h => exact hedits h
  | @sleeps y c h _ =>
    exact (hedits h).trans ((EofSame.schedSleep l op.msecs).trans
      (EofSame.modify (f := ({ · with ctx := c })) fun _ => ⟨rfl, rfl⟩))

variable {k : Bool}

/-- `lthread_close` sets the bit for the lthreads that wait for the descriptor, and takes it
from its caller only. -/
theorem close_eof (h : x.Inv k) {fd : Fd} (hx : x.lthreadClose l fd = .ok x') :
    EofOnly x.sched x'.sched m (∃ e, x.Waits m fd e) (m ≠ l) := by
  obtain ⟨x₁, h₁, hx⟩ := except_bind_ok hx
  obtain ⟨x₂, h₂, hx⟩ := except_bind_ok hx
  obtain rfl := Except.ok.inj hx
  have hclear : (x₂.sched.clearBit l .fdeof).has m .fdeof = if m = l then false else x₂.sched.has m .fdeof := by
    rw [clearBit_has]; simp
  refine ⟨fun hm => ?_, fun hml hm => ?_⟩
  · have hm₂ : x₂.sched.has m .fdeof = true := by
      change (x₂.sched.clearBit l .fdeof).has m .fdeof = true at hm
      rw [hclear] at hm
      split_ifs at hm
      exact hm
    rcases (closeEvent_eof h₂).gets hm₂ with hm₁ | hw
    · exact ((closeEvent_eof h₁).gets hm₁).imp_right fun hw => ⟨.read, hw⟩
    · exact Or.inr ⟨.write, (closeEvent_waits h.seated h₁).2 m fd .write hw⟩
  · change (x₂.sched.clearBit l .fdeof).has m .fdeof = true
    rw [hclear, if_neg hml]
    exact (closeEvent_eof h₂).stays trivial ((closeEvent_eof h₁).stays trivial hm)

/-- Who has `LT_ST_FDEOF` after a step has had it before, or waits for a descriptor that is
closed or reported hung up; and who has it and does not run keeps it. -/
theorem Inv.step_eof_only (h : x.Inv k) {a : Label} (hx : x.step a = .ok x') :
    EofOnly x.sched x'.sched m (∃ fd e, x.Waits m fd e ∧ (a.closes = some fd ∨ x.hangUp a = some fd))
      (x.sched.has m .new = false ∧ m ≠ x.sched.spawned ∧ x.cpu ≠ .run m) := by
  cases step_cases hx with
  | clock | run | leave | poll => exact (EofSame.refl _).only
  | main => exact (EofOnly.create x.sched m).mono False.elim fun h => h.2.1
  | loop hcpu hx =>
    refine (lthreadRun_eof hx).mono ?_ fun h => h.1
    rintro ⟨fd, e, hp, hw⟩
    refine ⟨fd, e, hw, Or.inr ?_⟩
    rw [World.hangUp, if_pos hcpu]
    exact hp
  | ioSignal => exact (EofSame.modify (s := x.sched) (f := ({ · with ops := 0 })) fun _ => ⟨rfl, rfl⟩).only
  | back _ hx => exact (lthreadResumeEnd_eof hx).only
  | @computeSignal l _ _ hx =>
    obtain ⟨j, -, hx⟩ := except_bind_ok hx
    obtain rfl := Except.ok.inj hx
    exact (resumed_eof { x with compute := Function.update x.compute j (x.compute j).signal } l 0).only
  | @call l op _ hcpu hx =>
    by_cases hop : ∃ fd, op = .close fd
    · obtain ⟨fd, rfl⟩ := hop
      refine (close_eof h hx).mono ?_ fun hm hml => hm.2.2 ?_
      · rintro ⟨e, hw⟩
        exact ⟨fd, e, hw, Or.inl rfl⟩
      · rw [hcpu, hml]
    · by_cases hcr : op = .create
      · subst hcr
        obtain rfl := Except.ok.inj hx
        exact (EofOnly.create x.sched m).mono False.elim fun h => h.2.1
      · exact (call_eof hcr (fun fd h0 => hop ⟨fd, h0⟩) hx).only
  | io hx =>
    obtain ⟨-, y, -, hcases⟩ := ioAct_cases hx
    rcases hcases with ⟨i, -, -, -, -, -, rfl⟩ | ⟨i, -, -, -, -, rfl⟩ | ⟨-, -, rfl⟩ <;> exact (EofSame.refl _).only
  | compute hx =>
    obtain ⟨-, y, -, hcases⟩ := computeAct_cases hx
    rcases hcases with ⟨i, -, -, -, -, -, rfl⟩ | ⟨i, -, -, -, -, rfl⟩ | ⟨-, -, rfl⟩ | ⟨-, -, -, rfl⟩
    · exact (EofSame.clearBit (s := { x.sched with defer := x.sched.defer ++ [i] }) i (b := .runcompute)
        (by simp)).only
    · exact (EofSame.refl _).only
    · exact (EofSame.refl _).only
    · exact (EofSame.refl _).only

/-- Who has `LT_ST_FDEOF` after a step has had it before, or waits for a descriptor that is
closed or reported hung up. -/
theorem Inv.step_eof (h : x.Inv k) {a : Label} {m : LtId} (hx : x.step a = .ok x')
    (hm : x'.sched.has m .fdeof = true) :
    x.sched.has m .fdeof = true ∨ ∃ fd e, x.Waits m fd e ∧ (a.closes = some fd ∨ x.hangUp a = some fd) :=
  (h.step_eof_only hx).gets hm

end World
end Lthr
