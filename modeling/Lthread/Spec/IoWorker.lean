import Lthread.Lib.Machine
import Lthread.Spec.Sched

/-! `lthread_io.c`: the io workers and the lthreads that hand them jobs. Each step
is one critical section. `lthreads_mutex` protects the queue of a worker,
`run_mutex` its condition variable, and the worker leaves the first before it
takes the second; a signal that finds nobody in `pthread_cond_wait` is lost. -/

namespace Lthr

def IO_WORKERS : ℕ := 2

inductive WorkerPc
  | popping
  -- reads or writes for an lthread it has taken from the queue
  | working (lt : LtId)
  -- has put the lthread on the defer queue of its scheduler, trigger still to come
  | handed (lt : LtId)
  -- has found its queue empty and left the inner loop
  | emptied
  | parked
  deriving DecidableEq, Repr

/-- `struct lthread_io_worker` with its thread. `signalling` are the lthreads that
have been inserted and whose `_lthread_io_add` has not signalled yet. -/
structure IoWorker where
  lthreads : List LtId
  pc : WorkerPc
  signalling : List LtId
  deriving DecidableEq, Repr

inductive WorkerAct
  | pop
  -- the job is done and the lthread on the defer queue
  | finish
  | trigger
  | wait
  | spurious
  deriving DecidableEq, Repr

namespace IoWorker

def init : IoWorker := { lthreads := [], pc := .popping, signalling := [] }

/-- The first section of `_lthread_io_add`: the insertion under `lthreads_mutex`. -/
def insert (x : IoWorker) (lt : LtId) : IoWorker :=
  { x with lthreads := x.lthreads ++ [lt], signalling := lt :: x.signalling }

def signal (x : IoWorker) (lt : LtId) : IoWorker :=
  { x with
    signalling := x.signalling.erase lt
    pc := if x.pc = .parked then .popping else x.pc }

/-- The test of the queue under `lthreads_mutex`, with the removal of its head. -/
def pop (x : IoWorker) : IoWorker :=
  match x.lthreads with
  | [] => { x with pc := .emptied }
  | lt :: rest => { x with lthreads := rest, pc := .working lt }

def act (x : IoWorker) : WorkerAct → Option IoWorker
  | .pop => if x.pc = .popping then some x.pop else none
  | .finish =>
    match x.pc with
    | .working lt => some { x with pc := .handed lt }
    | _ => none
  | .trigger =>
    match x.pc with
    | .handed _ => some { x with pc := .popping }
    | _ => none
  | .wait => if x.pc = .emptied then some { x with pc := .parked } else none
  | .spurious => if x.pc = .parked then some { x with pc := .popping } else none

/-- The lthread has a job here that the worker has not finished, or is still
inside the `_lthread_io_add` that inserted it. -/
def holds (x : IoWorker) (lt : LtId) : Prop :=
  lt ∈ x.lthreads ∨ x.pc = .working lt ∨ lt ∈ x.signalling

instance (x : IoWorker) (lt : LtId) : Decidable (x.holds lt) := inferInstanceAs (Decidable (_ ∨ _))

end IoWorker

inductive IoLabel
  | insert (lt : LtId)
  | signal (lt : LtId)
  | act (a : WorkerAct)

/-- One step at worker `w`. The lthreads may belong to any number of schedulers,
and `_lthread_io_add` may have chosen any worker. -/
def ioStep (x : ℕ → IoWorker) (w : ℕ) : IoLabel → Option (ℕ → IoWorker)
  | .insert lt =>
    if w < IO_WORKERS ∧ ∀ v < IO_WORKERS, ¬ (x v).holds lt then
      some (Function.update x w ((x w).insert lt))
    else none
  | .signal lt =>
    if lt ∈ (x w).signalling then some (Function.update x w ((x w).signal lt)) else none
  | .act a =>
    if w < IO_WORKERS then ((x w).act a).map (Function.update x w) else none

def ioMachine : Machine (ℕ → IoWorker) (ℕ × IoLabel) where
  init x := x = fun _ => IoWorker.init
  step x a x' := ioStep x a.1 a.2 = some x'

end Lthr
