import Lthread.Spec.RbTree
import Lthread.Spec.Sched

/-! `lthread_sched.c` on the pointers of its two red-black trees: the comparisons, and the parts
of the scheduler that insert into the trees, remove from them or look something up. -/

namespace Lthr

def fieldCmp {κ : Type} [LinearOrder κ] (k1 k2 : κ) : Ordering :=
  if k1 < k2 then .lt else if k1 = k2 then .eq else .gt

/-- `_lthread_sleep_cmp`, on the `sleep_usecs` of the two lthreads. -/
def lthreadSleepCmp (u1 u2 : ℕ) : Ordering := fieldCmp u1 u2

def lthreadWaitCmp (k1 k2 : ℤ) : Ordering := fieldCmp k1 k2

def Sched.sleepKey (s : Sched) (l : LtId) : ℕ := (s.lt l).sleepUsecs
def Sched.waitKey (s : Sched) (l : LtId) : ℤ := (s.lt l).fdWait

/-- `sched->sleeping` and `sched->waiting`, with the nodes of all lthreads. -/
structure SchedTrees where
  sleeping : RbHead LtId
  waiting : RbHead LtId

namespace SchedTrees

def sleepMin (rounds : ℕ) (T : SchedTrees) : Except TreeFault (Option LtId) := T.sleeping.minmax .left rounds

/-- The loop of `_lthread_sched_sleep`, from the deadline `usecs` on; the deadline it stores. -/
def sleepLoop (rounds : ℕ) (s : Sched) (l : LtId) : ℕ → RbHead LtId → ℕ → Except TreeFault (RbHead LtId × ℕ)
  | 0, _, _ => .error .rounds
  | n + 1, h, usecs => do
    let key := (s.modify l ({ · with sleepUsecs := usecs })).sleepKey
    let (h, ltTmp) ← h.insert (fun a b => lthreadSleepCmp (key a) (key b)) rounds l
    match ltTmp with
    | some _ => sleepLoop rounds s l n h ((usecs + 1) % u64)
    | none => .ok (h, usecs)

/-- The insertion of `_lthread_sched_sleep`, with the deadline it stores. -/
def lthreadSchedSleep (rounds tries : ℕ) (T : SchedTrees) (s : Sched) (l : LtId) (msecs : ℕ) :
    Except TreeFault (SchedTrees × ℕ) :=
  let usecs := (lthreadDiffUsecs s.birth s.usecNow + msecs * 1000 % u64) % u64
  if msecs = 0 then .ok (T, usecs)
  else do
    let (h, usecs) ← sleepLoop rounds s l tries T.sleeping usecs
    .ok ({ T with sleeping := h }, usecs)

def lthreadDeschedSleep (rounds : ℕ) (T : SchedTrees) (s : Sched) (l : LtId) : Except TreeFault SchedTrees :=
  if s.has l .sleeping then do
    let h ← T.sleeping.remove rounds l
    .ok { T with sleeping := h }
  else .ok T

def lthreadDeschedEvent (rounds : ℕ) (T : SchedTrees) (s : Sched) (fd : Fd) (e : LtEvent) :
    Except TreeFault (SchedTrees × Option LtId) := do
  let lt ← T.waiting.find (fun a => lthreadWaitCmp (fdKey fd e) (s.waitKey a)) rounds
  match lt with
  | none => .ok (T, none)
  | some l => do
    let h ← T.waiting.remove rounds l
    let T ← lthreadDeschedSleep rounds { T with waiting := h } s l
    .ok (T, some l)

def lthreadSchedEvent (rounds : ℕ) (T : SchedTrees) (s : Sched) (l : LtId) (fd : Fd) (e : LtEvent) :
    Except TreeFault (SchedTrees × Option LtId) := do
  let key := (s.modify l ({ · with fdWait := fdKey fd e })).waitKey
  let (h, ltTmp) ← T.waiting.insert (fun a b => lthreadWaitCmp (key a) (key b)) rounds l
  .ok ({ T with waiting := h }, ltTmp)

end SchedTrees
end Lthr
