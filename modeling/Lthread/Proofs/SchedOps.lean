import Lthread.Spec.Sched

/-! What the primitives of the scheduler do to each list and to the record of
each lthread. `has` reads a state bit; every other field of a record is left
alone unless a lemma says otherwise. -/

namespace Lthr
namespace Sched

variable (s : Sched) (l x : LtId) (b b' : LtSt) (c c' : CondId) (n : ℕ)

section Modify

variable (f : Lt → Lt)

@[simp] theorem modify_ready : (s.modify l f).ready = s.ready := rfl
@[simp] theorem modify_defer : (s.modify l f).defer = s.defer := rfl
@[simp] theorem modify_busy : (s.modify l f).busy = s.busy := rfl
@[simp] theorem modify_sleeping : (s.modify l f).sleeping = s.sleeping := rfl
@[simp] theorem modify_waiting : (s.modify l f).waiting = s.waiting := rfl
@[simp] theorem modify_blocked : (s.modify l f).blocked = s.blocked := rfl
@[simp] theorem modify_spawned : (s.modify l f).spawned = s.spawned := rfl

theorem modify_lt : (s.modify l f).lt x = if x = l then f (s.lt l) else s.lt x := by
  simp only [modify, Function.update_apply]

end Modify

@[simp] theorem setBit_ready : (s.setBit l b).ready = s.ready := rfl
@[simp] theorem setBit_defer : (s.setBit l b).defer = s.defer := rfl
@[simp] theorem setBit_busy : (s.setBit l b).busy = s.busy := rfl
@[simp] theorem setBit_sleeping : (s.setBit l b).sleeping = s.sleeping := rfl
@[simp] theorem setBit_waiting : (s.setBit l b).waiting = s.waiting := rfl
@[simp] theorem setBit_blocked : (s.setBit l b).blocked = s.blocked := rfl
@[simp] theorem setBit_spawned : (s.setBit l b).spawned = s.spawned := rfl
@[simp] theorem clearBit_ready : (s.clearBit l b).ready = s.ready := rfl
@[simp] theorem clearBit_defer : (s.clearBit l b).defer = s.defer := rfl
@[simp] theorem clearBit_busy : (s.clearBit l b).busy = s.busy := rfl
@[simp] theorem clearBit_sleeping : (s.clearBit l b).sleeping = s.sleeping := rfl
@[simp] theorem clearBit_waiting : (s.clearBit l b).waiting = s.waiting := rfl
@[simp] theorem clearBit_blocked : (s.clearBit l b).blocked = s.blocked := rfl
@[simp] theorem clearBit_spawned : (s.clearBit l b).spawned = s.spawned := rfl

variable (k : Ctx)

@[simp] theorem setCtx_ready : (s.setCtx l k).ready = s.ready := rfl
@[simp] theorem setCtx_defer : (s.setCtx l k).defer = s.defer := rfl
@[simp] theorem setCtx_busy : (s.setCtx l k).busy = s.busy := rfl
@[simp] theorem setCtx_sleeping : (s.setCtx l k).sleeping = s.sleeping := rfl
@[simp] theorem setCtx_waiting : (s.setCtx l k).waiting = s.waiting := rfl
@[simp] theorem setCtx_blocked : (s.setCtx l k).blocked = s.blocked := rfl
@[simp] theorem setCtx_spawned : (s.setCtx l k).spawned = s.spawned := rfl

theorem setBit_has : (s.setBit l b).has x b' = if x = l ∧ b' = b then true else s.has x b' := by
  unfold has setBit
  rw [modify_lt]
  by_cases hx : x = l <;> by_cases hb : b' = b <;>
    simp [hx, hb, Lt.setBit]

theorem clearBit_has : (s.clearBit l b).has x b' = if x = l ∧ b' = b then false else s.has x b' := by
  unfold has clearBit
  rw [modify_lt]
  by_cases hx : x = l <;> by_cases hb : b' = b <;>
    simp [hx, hb, Lt.clearBit]

@[simp] theorem setCtx_has : (s.setCtx l k).has x b = s.has x b := by
  unfold has setCtx
  rw [modify_lt]
  split_ifs with h
  · rw [h]
  · rfl

/-- A primitive that changes no field of a record but its state bits, `ops`
and `sleepUsecs`. -/
structure KeepsLt (s s' : Sched) : Prop where
  ctx : ∀ x, (s'.lt x).ctx = (s.lt x).ctx
  fdWait : ∀ x, (s'.lt x).fdWait = (s.lt x).fdWait
  ltJoin : ∀ x, (s'.lt x).ltJoin = (s.lt x).ltJoin
  freed : ∀ x, (s'.lt x).freed = (s.lt x).freed
  exitPtr : ∀ x, (s'.lt x).ltExitPtr = (s.lt x).ltExitPtr

theorem KeepsLt.refl : KeepsLt s s :=
  ⟨fun _ => rfl, fun _ => rfl, fun _ => rfl, fun _ => rfl, fun _ => rfl⟩

theorem KeepsLt.trans {a b c : Sched} (h1 : KeepsLt a b) (h2 : KeepsLt b c) : KeepsLt a c :=
  ⟨fun x => (h2.ctx x).trans (h1.ctx x), fun x => (h2.fdWait x).trans (h1.fdWait x),
    fun x => (h2.ltJoin x).trans (h1.ltJoin x), fun x => (h2.freed x).trans (h1.freed x),
    fun x => (h2.exitPtr x).trans (h1.exitPtr x)⟩

theorem KeepsLt.of_modify {f : Lt → Lt} (h : ∀ a, (f a).ctx = a.ctx ∧ (f a).fdWait = a.fdWait ∧
    (f a).ltJoin = a.ltJoin ∧ (f a).freed = a.freed ∧ (f a).ltExitPtr = a.ltExitPtr) :
    KeepsLt s (s.modify l f) := by
  have hx (x : LtId) := h (s.lt x)
  constructor <;> intro x <;> rw [modify_lt] <;> split_ifs with he <;> simp [he, hx]

theorem setBit_keeps : KeepsLt s (s.setBit l b) :=
  KeepsLt.of_modify s l fun _ => ⟨rfl, rfl, rfl, rfl, rfl⟩

theorem clearBit_keeps : KeepsLt s (s.clearBit l b) :=
  KeepsLt.of_modify s l fun _ => ⟨rfl, rfl, rfl, rfl, rfl⟩

/-! `_lthread_desched_sleep` -/

theorem lthreadDeschedSleep_sleeping : (s.lthreadDeschedSleep l).sleeping =
    if s.has l .sleeping then s.sleeping.erase l else s.sleeping := by
  unfold lthreadDeschedSleep
  split_ifs <;> rfl

@[simp] theorem lthreadDeschedSleep_ready : (s.lthreadDeschedSleep l).ready = s.ready := by
  unfold lthreadDeschedSleep; split_ifs <;> rfl
@[simp] theorem lthreadDeschedSleep_defer : (s.lthreadDeschedSleep l).defer = s.defer := by
  unfold lthreadDeschedSleep; split_ifs <;> rfl
@[simp] theorem lthreadDeschedSleep_busy : (s.lthreadDeschedSleep l).busy = s.busy := by
  unfold lthreadDeschedSleep; split_ifs <;> rfl
@[simp] theorem lthreadDeschedSleep_waiting : (s.lthreadDeschedSleep l).waiting = s.waiting := by
  unfold lthreadDeschedSleep; split_ifs <;> rfl
@[simp] theorem lthreadDeschedSleep_blocked : (s.lthreadDeschedSleep l).blocked = s.blocked := by
  unfold lthreadDeschedSleep; split_ifs <;> rfl
@[simp] theorem lthreadDeschedSleep_spawned : (s.lthreadDeschedSleep l).spawned = s.spawned := by
  unfold lthreadDeschedSleep; split_ifs <;> rfl

theorem lthreadDeschedSleep_keeps : KeepsLt s (s.lthreadDeschedSleep l) := by
  unfold lthreadDeschedSleep
  split_ifs with h
  · have hk := KeepsLt.of_modify s l
      (f := fun lt => ((lt.clearBit .sleeping).setBit .ready).clearBit .expired)
      fun _ => ⟨rfl, rfl, rfl, rfl, rfl⟩
    exact ⟨hk.ctx, hk.fdWait, hk.ltJoin, hk.freed, hk.exitPtr⟩
  · exact KeepsLt.refl s

theorem lthreadDeschedSleep_has : (s.lthreadDeschedSleep l).has x b =
    if x = l ∧ s.has l .sleeping = true then
      (if b = .sleeping ∨ b = .expired then false else if b = .ready then true else s.has x b)
    else s.has x b := by
  by_cases hs : s.has l .sleeping = true
  · unfold lthreadDeschedSleep
    simp only [hs, if_true, and_true]
    unfold has
    simp only [modify_lt]
    by_cases hx : x = l
    · subst hx
      cases b <;> simp [Lt.setBit, Lt.clearBit]
    · simp [hx]
  · unfold lthreadDeschedSleep
    simp [hs]

/-! `_lthread_sched_sleep` and the calls built on it -/

@[simp] theorem lthreadSchedSleep_ready : (s.lthreadSchedSleep l n).ready = s.ready := by
  unfold lthreadSchedSleep; simp only; split_ifs <;> rfl
@[simp] theorem lthreadSchedSleep_defer : (s.lthreadSchedSleep l n).defer = s.defer := by
  unfold lthreadSchedSleep; simp only; split_ifs <;> rfl
@[simp] theorem lthreadSchedSleep_busy : (s.lthreadSchedSleep l n).busy = s.busy := by
  unfold lthreadSchedSleep; simp only; split_ifs <;> rfl
@[simp] theorem lthreadSchedSleep_waiting : (s.lthreadSchedSleep l n).waiting = s.waiting := by
  unfold lthreadSchedSleep; simp only; split_ifs <;> rfl
@[simp] theorem lthreadSchedSleep_blocked : (s.lthreadSchedSleep l n).blocked = s.blocked := by
  unfold lthreadSchedSleep; simp only; split_ifs <;> rfl
@[simp] theorem lthreadSchedSleep_spawned : (s.lthreadSchedSleep l n).spawned = s.spawned := by
  unfold lthreadSchedSleep; simp only; split_ifs <;> rfl

theorem lthreadSchedSleep_sleeping : (s.lthreadSchedSleep l n).sleeping =
    if n = 0 then s.sleeping else l :: s.sleeping := by
  unfold lthreadSchedSleep; simp only; split_ifs <;> rfl

theorem lthreadSchedSleep_keeps : KeepsLt s (s.lthreadSchedSleep l n) := by
  unfold lthreadSchedSleep
  simp only
  split_ifs with h
  · exact KeepsLt.of_modify s l fun _ => ⟨rfl, rfl, rfl, rfl, rfl⟩
  · have hk := KeepsLt.of_modify s l
      (f := fun lt => { lt.setBit .sleeping with
        sleepUsecs := sleepSlot (s.sleeping.map fun x => (s.lt x).sleepUsecs) s.sleeping.length
          ((lthreadDiffUsecs s.birth s.usecNow + n * 1000 % u64) % u64), ops := 0 })
      fun _ => ⟨rfl, rfl, rfl, rfl, rfl⟩
    exact ⟨hk.ctx, hk.fdWait, hk.ltJoin, hk.freed, hk.exitPtr⟩

theorem lthreadSchedSleep_has : (s.lthreadSchedSleep l n).has x b =
    if x = l ∧ b = .sleeping ∧ n ≠ 0 then true else s.has x b := by
  unfold lthreadSchedSleep has
  simp only
  by_cases hn : n = 0
  · simp only [hn, if_true, modify_lt, ne_eq, not_true, and_false, if_false]
    split_ifs with h
    · rw [h]
    · rfl
  · simp only [hn, if_false, modify_lt]
    by_cases hx : x = l
    · subst hx
      by_cases hb : b = .sleeping <;> simp [hb, hn, Lt.setBit]
    · simp [hx]

@[simp] theorem lthreadSchedSleepEnd_ready : (s.lthreadSchedSleepEnd l n).ready = s.ready := by
  unfold lthreadSchedSleepEnd; simp only; split_ifs <;> rfl
@[simp] theorem lthreadSchedSleepEnd_defer : (s.lthreadSchedSleepEnd l n).defer = s.defer := by
  unfold lthreadSchedSleepEnd; simp only; split_ifs <;> rfl
@[simp] theorem lthreadSchedSleepEnd_busy : (s.lthreadSchedSleepEnd l n).busy = s.busy := by
  unfold lthreadSchedSleepEnd; simp only; split_ifs <;> rfl
@[simp] theorem lthreadSchedSleepEnd_sleeping :
    (s.lthreadSchedSleepEnd l n).sleeping = s.sleeping := by
  unfold lthreadSchedSleepEnd; simp only; split_ifs <;> rfl
@[simp] theorem lthreadSchedSleepEnd_waiting :
    (s.lthreadSchedSleepEnd l n).waiting = s.waiting := by
  unfold lthreadSchedSleepEnd; simp only; split_ifs <;> rfl
@[simp] theorem lthreadSchedSleepEnd_blocked :
    (s.lthreadSchedSleepEnd l n).blocked = s.blocked := by
  unfold lthreadSchedSleepEnd; simp only; split_ifs <;> rfl
@[simp] theorem lthreadSchedSleepEnd_spawned :
    (s.lthreadSchedSleepEnd l n).spawned = s.spawned := by
  unfold lthreadSchedSleepEnd; simp only; split_ifs <;> rfl

theorem lthreadSchedSleepEnd_keeps : KeepsLt s (s.lthreadSchedSleepEnd l n) := by
  unfold lthreadSchedSleepEnd
  refine KeepsLt.trans ?_ (KeepsLt.of_modify _ l fun _ => ⟨rfl, rfl, rfl, rfl, rfl⟩)
  split_ifs
  · exact clearBit_keeps s l .sleeping
  · exact KeepsLt.refl s

theorem lthreadSchedSleepEnd_has : (s.lthreadSchedSleepEnd l n).has x b =
    if x = l ∧ b = .sleeping ∧ n ≠ 0 then false else s.has x b := by
  have hmod (s : Sched) : (s.modify l ({ · with sleepUsecs := 0 })).has x b = s.has x b := by
    unfold has
    rw [modify_lt]
    split_ifs with h
    · rw [h]
    · rfl
  unfold lthreadSchedSleepEnd
  simp only
  rw [hmod]
  by_cases hn : n = 0
  · simp [hn]
  · rw [if_pos (Nat.pos_of_ne_zero hn), clearBit_has]
    simp [hn]

/-! `lthread_cond_wait` -/

@[simp] theorem lthreadCondWait_ready : (s.lthreadCondWait l c n).ready = s.ready := by
  simp [lthreadCondWait, lthreadSchedBusySleep]
@[simp] theorem lthreadCondWait_defer : (s.lthreadCondWait l c n).defer = s.defer := by
  simp [lthreadCondWait, lthreadSchedBusySleep]
@[simp] theorem lthreadCondWait_waiting : (s.lthreadCondWait l c n).waiting = s.waiting := by
  simp [lthreadCondWait, lthreadSchedBusySleep]
@[simp] theorem lthreadCondWait_spawned : (s.lthreadCondWait l c n).spawned = s.spawned := by
  simp [lthreadCondWait, lthreadSchedBusySleep]
theorem lthreadCondWait_sleeping : (s.lthreadCondWait l c n).sleeping =
    if n = 0 then s.sleeping else l :: s.sleeping := by
  simp [lthreadCondWait, lthreadSchedBusySleep, lthreadSchedSleep_sleeping]
theorem lthreadCondWait_blocked : (s.lthreadCondWait l c n).blocked =
    Function.update s.blocked c (s.blocked c ++ [l]) := by
  simp [lthreadCondWait, lthreadSchedBusySleep]

theorem lthreadCondWait_keeps : KeepsLt s (s.lthreadCondWait l c n) := by
  unfold lthreadCondWait lthreadSchedBusySleep
  refine KeepsLt.trans ?_ (lthreadSchedSleep_keeps _ l n)
  have hk := setBit_keeps s l .busy
  exact ⟨hk.ctx, hk.fdWait, hk.ltJoin, hk.freed, hk.exitPtr⟩

theorem lthreadCondWait_has : (s.lthreadCondWait l c n).has x b =
    if x = l ∧ (b = .busy ∨ b = .sleeping ∧ n ≠ 0) then true else s.has x b := by
  have hrfl (bs : List LtId) (bl : CondId → List LtId) :
      ({ s with busy := bs, blocked := bl } : Sched).has x b = s.has x b := rfl
  simp only [lthreadCondWait, lthreadSchedBusySleep, lthreadSchedSleep_has, setBit_has, hrfl]
  by_cases hx : x = l <;> by_cases hb : b = .sleeping <;> by_cases hn : n = 0 <;>
    simp [hx, hb, hn]

/-- The lists after the wait: the lthread is off the busy list, and off the
blocked list if it expired. -/
theorem lthreadCondWaitEnd_eq : s.lthreadCondWaitEnd l c n =
    if (s.lthreadSchedBusySleepEnd l n).has l .expired then
      ({ s.lthreadSchedBusySleepEnd l n with
        blocked := Function.update s.blocked c ((s.blocked c).erase l) }, -2)
    else (s.lthreadSchedBusySleepEnd l n, 0) := by
  simp only [lthreadCondWaitEnd, lthreadSchedBusySleepEnd, clearBit_blocked,
    lthreadSchedSleepEnd_blocked]

@[simp] theorem lthreadSchedBusySleepEnd_ready :
    (s.lthreadSchedBusySleepEnd l n).ready = s.ready := by simp [lthreadSchedBusySleepEnd]
@[simp] theorem lthreadSchedBusySleepEnd_defer :
    (s.lthreadSchedBusySleepEnd l n).defer = s.defer := by simp [lthreadSchedBusySleepEnd]
@[simp] theorem lthreadSchedBusySleepEnd_sleeping :
    (s.lthreadSchedBusySleepEnd l n).sleeping = s.sleeping := by simp [lthreadSchedBusySleepEnd]
@[simp] theorem lthreadSchedBusySleepEnd_waiting :
    (s.lthreadSchedBusySleepEnd l n).waiting = s.waiting := by simp [lthreadSchedBusySleepEnd]
@[simp] theorem lthreadSchedBusySleepEnd_blocked :
    (s.lthreadSchedBusySleepEnd l n).blocked = s.blocked := by simp [lthreadSchedBusySleepEnd]
@[simp] theorem lthreadSchedBusySleepEnd_spawned :
    (s.lthreadSchedBusySleepEnd l n).spawned = s.spawned := by simp [lthreadSchedBusySleepEnd]

theorem lthreadSchedBusySleepEnd_keeps : KeepsLt s (s.lthreadSchedBusySleepEnd l n) := by
  have hk := (lthreadSchedSleepEnd_keeps s l n).trans (clearBit_keeps _ l .busy)
  exact ⟨hk.ctx, hk.fdWait, hk.ltJoin, hk.freed, hk.exitPtr⟩

theorem lthreadSchedBusySleepEnd_has : (s.lthreadSchedBusySleepEnd l n).has x b =
    if x = l ∧ (b = .busy ∨ b = .sleeping ∧ n ≠ 0) then false else s.has x b := by
  have hrfl (s : Sched) (bs : List LtId) : ({ s with busy := bs } : Sched).has x b = s.has x b := rfl
  simp only [lthreadSchedBusySleepEnd, hrfl, clearBit_has, lthreadSchedSleepEnd_has]
  by_cases hx : x = l <;> by_cases hb : b = .busy <;> by_cases hs : b = .sleeping <;>
    simp [hx, hb, hs]

@[simp] theorem lthreadSchedBusySleepEnd_expired :
    (s.lthreadSchedBusySleepEnd l n).has x .expired = s.has x .expired := by
  rw [lthreadSchedBusySleepEnd_has, if_neg (by simp)]

theorem lthreadCondWaitEnd_ret : (s.lthreadCondWaitEnd l c n).2 = if s.has l .expired then -2 else 0 := by
  rw [lthreadCondWaitEnd_eq, lthreadSchedBusySleepEnd_expired]
  split_ifs <;> rfl

theorem lthreadCondWaitEnd_blocked : (s.lthreadCondWaitEnd l c n).1.blocked =
    if s.has l .expired then Function.update s.blocked c ((s.blocked c).erase l) else s.blocked := by
  rw [lthreadCondWaitEnd_eq, lthreadSchedBusySleepEnd_expired]
  split_ifs
  · rfl
  · exact lthreadSchedBusySleepEnd_blocked s l n

/-! `lthread_cond_signal` -/

theorem lthreadCondSignal_nil (h : s.blocked c = []) : s.lthreadCondSignal c = s := by
  unfold lthreadCondSignal
  rw [h]

/-- Lthread `l` is taken off the blocked list of `c`, off the sleeping tree if
it is in there, and put on the ready queue. -/
structure Signalled (s s' : Sched) (c : CondId) (l : LtId) (rest : List LtId) : Prop where
  ready : s'.ready = s.ready ++ [l]
  sleeping : s'.sleeping = if s.has l .sleeping then s.sleeping.erase l else s.sleeping
  blocked : s'.blocked = Function.update s.blocked c rest
  defer : s'.defer = s.defer
  busy : s'.busy = s.busy
  waiting : s'.waiting = s.waiting
  spawned : s'.spawned = s.spawned
  keeps : KeepsLt s s'
  has : ∀ x b, s'.has x b = (s.lthreadDeschedSleep l).has x b

theorem lthreadCondSignal_cons {rest : List LtId} (h : s.blocked c = l :: rest) :
    Signalled s (s.lthreadCondSignal c) c l rest := by
  have hsig : s.lthreadCondSignal c = ((({ s with
      blocked := Function.update s.blocked c rest } : Sched).lthreadDeschedSleep l).readyInsert l) := by
    unfold lthreadCondSignal
    rw [h]
  set y : Sched := { s with blocked := Function.update s.blocked c rest } with hy
  have hk := lthreadDeschedSleep_keeps y l
  rw [hsig]
  refine ⟨?_, ?_, ?_, ?_, ?_, ?_, ?_, ⟨hk.ctx, hk.fdWait, hk.ltJoin, hk.freed, hk.exitPtr⟩,
    fun x b => ?_⟩
  · simp [readyInsert, hy]
  · simp only [readyInsert, lthreadDeschedSleep_sleeping]
    rfl
  · simp [readyInsert, hy]
  · simp [readyInsert, hy]
  · simp [readyInsert, hy]
  · simp [readyInsert, hy]
  · simp [readyInsert, hy]
  · change (y.lthreadDeschedSleep l).has x b = _
    rw [lthreadDeschedSleep_has, lthreadDeschedSleep_has]
    rfl

end Sched
end Lthr
