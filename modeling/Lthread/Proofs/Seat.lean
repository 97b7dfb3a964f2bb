import Lthread.Proofs.SchedOps
import Lthread.Spec.Board

/-! What the primitives of the scheduler do to the seats: each of them moves one
lthread and leaves the seats of all others alone. -/

namespace Lthr

/-- From `s` to `s'` lthread `l` moves by `F`, and nobody else moves. -/
def Sched.Moves (s s' : Sched) (l : LtId) (F : Seat → Seat) : Prop :=
  ∀ io compute, ActsAt (seatOf s io compute) (seatOf s' io compute) l F

namespace Sched

variable (s : Sched) (l : LtId)

variable {s} {l} in
theorem Moves.trans {s' s'' : Sched} {F G : Seat → Seat} (h : Moves s s' l F) (h' : Moves s' s'' l G) :
    Moves s s'' l (G ∘ F) := fun io compute => (h io compute).trans (h' io compute)

theorem modify_moves (f : Lt → Lt) : Moves s (s.modify l f) l (Seat.onLt f) := by
  intro io compute
  refine ActsAt.of_apply ?_ fun j hj => ?_
  · simp [seatOf, Seat.onLt, modify_lt]
  · simp [seatOf, modify_lt, hj]

theorem setBit_moves (b : LtSt) : Moves s (s.setBit l b) l (Seat.onLt (·.setBit b)) :=
  modify_moves s l _

theorem clearBit_moves (b : LtSt) : Moves s (s.clearBit l b) l (Seat.onLt (·.clearBit b)) :=
  modify_moves s l _

theorem setCtx_moves (c : Ctx) : Moves s (s.setCtx l c) l (Seat.onLt ({ · with ctx := c })) :=
  modify_moves s l _

theorem lthreadYield_moves (c : Ctx) :
    Moves s (s.lthreadYield l c) l (Seat.onLt ({ · with ops := 0, ctx := c })) :=
  modify_moves s l _

theorem lthreadFree_moves : Moves s (s.lthreadFree l) l (Seat.onLt ({ · with freed := true })) :=
  modify_moves s l _

theorem readyInsert_moves : Moves s (s.readyInsert l) l Seat.addReady := by
  intro io compute
  refine ActsAt.of_apply ?_ fun j hj => ?_
  · simp [seatOf, readyInsert, Seat.addReady]
  · simp [seatOf, readyInsert, Ne.symm hj]

theorem readyPop_moves {rest : List LtId} (h : s.ready = l :: rest) :
    Moves s { s with ready := rest } l Seat.dropReady := by
  intro io compute
  refine ActsAt.of_apply ?_ fun j hj => ?_
  · simp [seatOf, h, Seat.dropReady]
  · simp [seatOf, h, Ne.symm hj]

theorem deferInsert_moves : Moves s { s with defer := s.defer ++ [l] } l Seat.addDefer := by
  intro io compute
  refine ActsAt.of_apply ?_ fun j hj => ?_
  · simp [seatOf, Seat.addDefer]
  · simp [seatOf, Ne.symm hj]

theorem deferPop_moves {rest : List LtId} (h : s.defer = l :: rest) :
    Moves s { s with defer := rest } l Seat.dropDefer := by
  intro io compute
  refine ActsAt.of_apply ?_ fun j hj => ?_
  · simp [seatOf, h, Seat.dropDefer]
  · simp [seatOf, h, Ne.symm hj]

theorem busyInsert_moves : Moves s { s with busy := l :: s.busy } l Seat.addBusy := by
  intro io compute
  refine ActsAt.of_apply ?_ fun j hj => ?_
  · simp [seatOf, Seat.addBusy]
  · simp [seatOf, Ne.symm hj]

theorem busyErase_moves : Moves s { s with busy := s.busy.erase l } l Seat.dropBusy := by
  intro io compute
  refine ActsAt.of_apply ?_ fun j hj => ?_
  · simp [seatOf, Seat.dropBusy]
  · simp [seatOf, List.count_erase_of_ne hj]

theorem waitingInsert_moves : Moves s { s with waiting := l :: s.waiting } l Seat.addWaiting := by
  intro io compute
  refine ActsAt.of_apply ?_ fun j hj => ?_
  · simp [seatOf, Seat.addWaiting]
  · simp [seatOf, Ne.symm hj]

theorem waitingErase_moves : Moves s { s with waiting := s.waiting.erase l } l Seat.dropWaiting := by
  intro io compute
  refine ActsAt.of_apply ?_ fun j hj => ?_
  · simp [seatOf, Seat.dropWaiting]
  · simp [seatOf, List.count_erase_of_ne hj]

theorem sleepingErase_moves : Moves s { s with sleeping := s.sleeping.erase l } l
    fun v => { v with cnt := { v.cnt with sleeping := v.cnt.sleeping - 1 } } := by
  intro io compute
  refine ActsAt.of_apply ?_ fun j hj => ?_
  · simp [seatOf]
  · simp [seatOf, List.count_erase_of_ne hj]

theorem sleepingInsert_moves : Moves s { s with sleeping := l :: s.sleeping } l
    fun v => { v with cnt := { v.cnt with sleeping := v.cnt.sleeping + 1 } } := by
  intro io compute
  refine ActsAt.of_apply ?_ fun j hj => ?_
  · simp [seatOf]
  · simp [seatOf, Ne.symm hj]

theorem blockedAppend_moves (c : CondId) :
    Moves s { s with blocked := Function.update s.blocked c (s.blocked c ++ [l]) } l
      (Seat.addBlocked c) := by
  intro io compute
  refine ActsAt.of_apply ?_ fun j hj => ?_
  · simp [seatOf, count_update_append, Seat.addBlocked]
  · simp [seatOf, count_update_append, hj]

theorem blockedErase_moves (c : CondId) :
    Moves s { s with blocked := Function.update s.blocked c ((s.blocked c).erase l) } l
      (Seat.dropBlocked c) := by
  intro io compute
  refine ActsAt.of_apply ?_ fun j hj => ?_
  · simp [seatOf, count_update_erase, Seat.dropBlocked]
  · simp [seatOf, count_update_erase, hj]

theorem lthreadDeschedSleep_moves : Moves s (s.lthreadDeschedSleep l) l Seat.deschedSleep := by
  intro io compute
  unfold lthreadDeschedSleep
  by_cases h : s.has l .sleeping = true
  · rw [if_pos h]
    refine ((modify_moves s l _).trans (sleepingErase_moves _ l) io compute).congr ?_
    simp only [Function.comp_apply, Seat.deschedSleep, Seat.onLt]
    exact (if_pos h).symm
  · rw [if_neg h]
    refine (ActsAt.refl _ l).congr ?_
    exact (if_neg h).symm

def sleepDeadline (msecs : ℕ) : ℕ :=
  let usecs := (lthreadDiffUsecs s.birth s.usecNow + msecs * 1000 % u64) % u64
  if msecs = 0 then usecs
  else sleepSlot (s.sleeping.map fun x => (s.lt x).sleepUsecs) s.sleeping.length usecs

theorem lthreadSchedSleep_moves (n : ℕ) :
    Moves s (s.lthreadSchedSleep l n) l (Seat.schedSleep n (s.sleepDeadline n)) := by
  intro io compute
  unfold lthreadSchedSleep sleepDeadline
  by_cases hn : n = 0
  · simp only [if_pos hn]
    refine (modify_moves s l _ io compute).congr ?_
    simp only [Seat.schedSleep, if_pos hn, Seat.onLt]
  · simp only [if_neg hn]
    refine ((modify_moves s l _).trans (sleepingInsert_moves _ l) io compute).congr ?_
    simp only [Function.comp_apply, Seat.schedSleep, if_neg hn, Seat.onLt]

theorem lthreadSchedSleepEnd_moves (n : ℕ) :
    Moves s (s.lthreadSchedSleepEnd l n) l (Seat.schedSleepEnd n) := by
  intro io compute
  unfold lthreadSchedSleepEnd
  by_cases hn : 0 < n
  · simp only [if_pos hn]
    refine ((clearBit_moves s l _).trans (modify_moves _ l _) io compute).congr ?_
    simp only [Function.comp_apply, Seat.schedSleepEnd, Seat.onLt, if_pos hn]
  · simp only [if_neg hn]
    refine (modify_moves _ l _ io compute).congr ?_
    simp only [Seat.schedSleepEnd, Seat.onLt, if_neg hn]

theorem lthreadSchedBusySleep_moves (n : ℕ) :
    ∃ u, Moves s (s.lthreadSchedBusySleep l n) l
      (Seat.schedSleep n u ∘ Seat.onLt (·.setBit .busy) ∘ Seat.addBusy) :=
  ⟨_, ((busyInsert_moves s l).trans (setBit_moves _ l .busy)).trans (lthreadSchedSleep_moves _ l n)⟩

theorem lthreadSchedBusySleepEnd_moves (n : ℕ) :
    Moves s (s.lthreadSchedBusySleepEnd l n) l
      (Seat.dropBusy ∘ Seat.onLt (·.clearBit .busy) ∘ Seat.schedSleepEnd n) :=
  ((lthreadSchedSleepEnd_moves s l n).trans (clearBit_moves _ l .busy)).trans (busyErase_moves _ l)

theorem lthreadCondWait_moves (c : CondId) (n : ℕ) :
    ∃ u, Moves s (s.lthreadCondWait l c n) l
      ((Seat.schedSleep n u ∘ Seat.onLt (·.setBit .busy) ∘ Seat.addBusy) ∘ Seat.addBlocked c) := by
  obtain ⟨u, hu⟩ := lthreadSchedBusySleep_moves
    { s with blocked := Function.update s.blocked c (s.blocked c ++ [l]) } l n
  exact ⟨u, (blockedAppend_moves s l c).trans hu⟩

theorem lthreadCondSignal_moves {c : CondId} {rest : List LtId} (h : s.blocked c = l :: rest) :
    Moves s (s.lthreadCondSignal c) l (Seat.addReady ∘ Seat.deschedSleep ∘ Seat.dropBlocked c) := by
  have hrest : rest = (s.blocked c).erase l := by rw [h, List.erase_cons_head]
  have heq : s.lthreadCondSignal c = ((({ s with
      blocked := Function.update s.blocked c ((s.blocked c).erase l) } :
        Sched).lthreadDeschedSleep l).readyInsert l) := by
    rw [← hrest]
    unfold lthreadCondSignal
    rw [h]
  rw [heq]
  exact ((blockedErase_moves s l c).trans (lthreadDeschedSleep_moves _ l)).trans
    (readyInsert_moves _ l)

theorem lthreadCreate_moves : Moves s s.lthreadCreate s.spawned fun v =>
    { lt := newLt, cnt := { v.cnt with ready := v.cnt.ready + 1 } } := by
  intro io compute
  refine ActsAt.of_apply ?_ fun j hj => ?_
  · simp [seatOf, lthreadCreate]
  · simp [seatOf, lthreadCreate, hj, Ne.symm hj]

/-- `_lthread_desched_event` finds nobody, or takes the lthread it finds out of both trees. -/
theorem lthreadDeschedEvent_cases (fd : Fd) (e : LtEvent) :
    (s.lthreadDeschedEvent fd e = (s, none) ∧ ∀ m ∈ s.waiting, (s.lt m).fdWait ≠ fdKey fd e) ∨
    ∃ m s', s.lthreadDeschedEvent fd e = (s', some m) ∧ m ∈ s.waiting ∧
      (s.lt m).fdWait = fdKey fd e ∧
      Moves s s' m (Seat.deschedSleep ∘ Seat.dropWaiting) := by
  unfold lthreadDeschedEvent
  cases hf : s.waiting.find? fun l => decide ((s.lt l).fdWait = fdKey fd e) with
  | none =>
    refine Or.inl ⟨rfl, fun m hm => ?_⟩
    simpa using List.find?_eq_none.mp hf m hm
  | some m =>
    refine Or.inr ⟨m, _, rfl, List.mem_of_find?_eq_some hf, ?_, ?_⟩
    · simpa using List.find?_some hf
    · exact (waitingErase_moves s m).trans (lthreadDeschedSleep_moves _ m)

end Sched
end Lthr
