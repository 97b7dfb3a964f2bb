import Lthread.Spec.Sched

/-! `lthread_compute.c`: the compute schedulers, each with the thread that runs
`_lthread_compute_run`. A step is one critical section, or one of the writes of
`compute_st` that no mutex protects. -/

namespace Lthr

inductive ComputeSt
  | busy
  | free
  deriving DecidableEq, Repr

inductive ComputePc
  | popping
  | taken (lt : LtId)
  -- in `_lthread_compute_resume`: the lthread runs here
  | working (lt : LtId)
  | ended (lt : LtId)
  -- has put the lthread on the defer queue of its scheduler, trigger still to come
  | handed (lt : LtId)
  -- has found its queue empty and left the inner loop
  | emptied
  | parked
  -- the wait has timed out, the queue still to be tested once more
  | timedOut
  | exited
  deriving DecidableEq, Repr

structure ComputeSched where
  lthreads : List LtId
  computeSt : ComputeSt
  pc : ComputePc
  deriving DecidableEq, Repr

inductive ComputeAct
  | pop
  | start
  | stop
  | finish
  | trigger
  | wait
  -- `pthread_cond_timedwait` returns without a signal
  | spurious
  | timeout
  | leave
  deriving DecidableEq, Repr

namespace ComputeSched

/-- `_lthread_compute_sched_create`; `lthr_calloc` makes `compute_st` 0, which is
`LT_COMPUTE_BUSY`. -/
def init : ComputeSched := { lthreads := [], computeSt := .busy, pc := .popping }

def signal (x : ComputeSched) : ComputeSched :=
  { x with pc := if x.pc = .parked then .popping else x.pc }

/-- The test of the queue; its head is left there while it is still pending. -/
def pop (x : ComputeSched) (pending : LtId → Bool) : ComputeSched :=
  match x.lthreads with
  | [] => { x with pc := .emptied }
  | lt :: rest => if pending lt then x else { x with lthreads := rest, pc := .taken lt }

def act (x : ComputeSched) (pending : LtId → Bool) : ComputeAct → Option ComputeSched
  | .pop => if x.pc = .popping then some (x.pop pending) else none
  | .start =>
    match x.pc with
    | .taken lt => some { x with computeSt := .busy, pc := .working lt }
    | _ => none
  | .stop =>
    match x.pc with
    | .working lt => some { x with computeSt := .free, pc := .ended lt }
    | _ => none
  | .finish =>
    match x.pc with
    | .ended lt => some { x with pc := .handed lt }
    | _ => none
  | .trigger =>
    match x.pc with
    | .handed _ => some { x with pc := .popping }
    | _ => none
  | .wait => if x.pc = .emptied then some { x with pc := .parked } else none
  | .spurious => if x.pc = .parked then some { x with pc := .popping } else none
  | .timeout => if x.pc = .parked then some { x with pc := .timedOut } else none
  | .leave =>
    if x.pc = .timedOut then some { x with pc := if x.lthreads = [] then .exited else .popping }
    else none

end ComputeSched
end Lthr
