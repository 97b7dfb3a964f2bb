import Mathlib.Tactic

/-! `lthread_int.h`, `lthread_sched.c` and the condition variables of
`lthread.c`: the records of the scheduler and what every blocking call does to
them before it yields and after it is resumed.

A blocking call is split at its `_lthread_yield`: the part before it leaves in
`ctx` the place to come back to, the part after it runs when the scheduler
switches to the lthread again. Tail queues and lists are Lean lists (head
first), the two red-black trees are lists of members whose keys are read from
the members' own fields, as the tree macros do. -/

namespace Lthr

abbrev LtId := ℕ
abbrev Fd := ℕ

/-- A selector lives on the stack of the lthread that calls `chan_send`,
`chan_send_noblock` or `chan_recv`, or comes from `lthread_sel_create`. -/
inductive SelId
  | stack (lt : LtId)
  | heap (n : ℕ)
  deriving DecidableEq, Repr

/-- A condition variable: one from `lthread_cond_create`, or a selector's. -/
inductive CondId
  | user (n : ℕ)
  | sel (s : SelId)
  deriving DecidableEq, Repr

inductive LtEvent
  | read
  | write
  deriving DecidableEq, Repr

def LtEvent.toNat : LtEvent → ℕ
  | .read => 0
  | .write => 1

/-- `FD_KEY`: the descriptor in the upper 32 bits, the event in the lower. -/
def fdKey (fd : Fd) (e : LtEvent) : ℤ := (fd : ℤ) * 2 ^ 32 + e.toNat

def fdOnly (key : ℤ) : Fd := (key / 2 ^ 32).toNat

def fdEvent (key : ℤ) : LtEvent := if key % 2 ^ 32 = 0 then .read else .write

inductive LtSt
  | waitRead | waitWrite | new | ready | exited | busy | sleeping | expired | fdeof | detach
  | cancelled | pendingRuncompute | runcompute | waitIoRead | waitIoWrite | waitMulti
  deriving DecidableEq, Repr

/-- Where an lthread that does not run stands: what `ctx.eip` says, with the
arguments the call needs once it is resumed. -/
inductive Ctx
  | start
  -- in its own code; in the scheduler's loop it is then the current lthread
  | running
  -- in the `_lthread_yield` of `lthread_sleep(0)` or of `_lthread_renice`
  | yielded
  -- in the `_lthread_sched_sleep` of `lthread_sleep(msecs)`
  | slept (msecs : ℕ)
  | condWait (c : CondId) (timeout : ℕ)
  -- in the `lthread_cond_wait` of `chan_block_select_`
  | selWait (s : SelId) (timeout : ℕ)
  | joining (target : LtId) (timeout : ℕ)
  | schedEvent (fd : Fd) (e : LtEvent) (timeout : ℕ)
  -- in the `_lthread_yield` of `_lthread_io_add`, its job with io worker `w`
  | ioWait (e : LtEvent) (w : ℕ)
  -- between `lthread_compute_begin`, which chose compute scheduler `k`, and the resume that ends
  -- the section
  | compute (k : ℕ)
  | exited
  deriving DecidableEq, Repr

structure Lt where
  state : LtSt → Bool
  ctx : Ctx
  -- `fd_wait`, -1 when the lthread waits for no descriptor
  fdWait : ℤ
  ltJoin : Option LtId
  ltExitPtr : Option ℕ
  ops : ℕ
  sleepUsecs : ℕ
  computeSched : Option ℕ
  freed : Bool

namespace Lt

def setBit (lt : Lt) (b : LtSt) : Lt := { lt with state := Function.update lt.state b true }
def clearBit (lt : Lt) (b : LtSt) : Lt := { lt with state := Function.update lt.state b false }

end Lt

structure Sched where
  lt : LtId → Lt
  spawned : ℕ
  birth : ℕ
  usecNow : ℕ
  ready : List LtId
  defer : List LtId
  busy : List LtId
  sleeping : List LtId
  waiting : List LtId
  blocked : CondId → List LtId

def u64 : ℕ := 2 ^ 64

def lthreadDiffUsecs (t1 t2 : ℕ) : ℕ := (t2 + (u64 - t1 % u64)) % u64

structure Timespec where
  tvSec : ℕ
  tvNsec : ℕ
  deriving DecidableEq, Repr

def Timespec.nsecs (t : Timespec) : ℕ := t.tvSec * 1000000000 + t.tvNsec

namespace Sched

def modify (s : Sched) (l : LtId) (f : Lt → Lt) : Sched :=
  { s with lt := Function.update s.lt l (f (s.lt l)) }

def setBit (s : Sched) (l : LtId) (b : LtSt) : Sched := s.modify l (·.setBit b)
def clearBit (s : Sched) (l : LtId) (b : LtSt) : Sched := s.modify l (·.clearBit b)
def setCtx (s : Sched) (l : LtId) (c : Ctx) : Sched := s.modify l ({ · with ctx := c })
def has (s : Sched) (l : LtId) (b : LtSt) : Bool := (s.lt l).state b

def readyInsert (s : Sched) (l : LtId) : Sched := { s with ready := s.ready ++ [l] }

/-- The insertion loop of `_lthread_sched_sleep`: while another sleeper holds the
deadline, try the next microsecond. Every round meets a different sleeper, so
one round for each of them is enough. -/
def sleepSlot (used : List ℕ) : ℕ → ℕ → ℕ
  | 0, usecs => usecs
  | n + 1, usecs => if usecs ∈ used then sleepSlot used n ((usecs + 1) % u64) else usecs

/-- `_lthread_sched_sleep` up to its yield; with 0 msecs nothing is inserted. -/
def lthreadSchedSleep (s : Sched) (l : LtId) (msecs : ℕ) : Sched :=
  let usecs := (lthreadDiffUsecs s.birth s.usecNow + msecs * 1000 % u64) % u64
  let used := s.sleeping.map fun x => (s.lt x).sleepUsecs
  if msecs = 0 then s.modify l ({ · with sleepUsecs := usecs, ops := 0 })
  else
    let s' := s.modify l fun lt =>
      { lt.setBit .sleeping with sleepUsecs := sleepSlot used s.sleeping.length usecs, ops := 0 }
    { s' with sleeping := l :: s.sleeping }

def lthreadSchedSleepEnd (s : Sched) (l : LtId) (msecs : ℕ) : Sched :=
  let s := if 0 < msecs then s.clearBit l .sleeping else s
  s.modify l ({ · with sleepUsecs := 0 })

def lthreadDeschedSleep (s : Sched) (l : LtId) : Sched :=
  if s.has l .sleeping then
    { (s.modify l fun lt => ((lt.clearBit .sleeping).setBit .ready).clearBit .expired) with
      sleeping := s.sleeping.erase l }
  else s

def lthreadSchedBusySleep (s : Sched) (l : LtId) (msecs : ℕ) : Sched :=
  let s := { s with busy := l :: s.busy }
  (s.setBit l .busy).lthreadSchedSleep l msecs

def lthreadSchedBusySleepEnd (s : Sched) (l : LtId) (msecs : ℕ) : Sched :=
  let s := (s.lthreadSchedSleepEnd l msecs).clearBit l .busy
  { s with busy := s.busy.erase l }

def lthreadCondWait (s : Sched) (l : LtId) (c : CondId) (timeout : ℕ) : Sched :=
  let s := { s with blocked := Function.update s.blocked c (s.blocked c ++ [l]) }
  s.lthreadSchedBusySleep l timeout

/-- `lthread_cond_wait` after its yield, with the value it returns. -/
def lthreadCondWaitEnd (s : Sched) (l : LtId) (c : CondId) (timeout : ℕ) : Sched × ℤ :=
  let s := s.lthreadSchedBusySleepEnd l timeout
  if s.has l .expired then
    ({ s with blocked := Function.update s.blocked c ((s.blocked c).erase l) }, -2)
  else (s, 0)

def lthreadCondSignal (s : Sched) (c : CondId) : Sched :=
  match s.blocked c with
  | [] => s
  | l :: rest =>
    let s := { s with blocked := Function.update s.blocked c rest }
    (s.lthreadDeschedSleep l).readyInsert l

/-- `lthread_cond_broadcast`: every entry is unlinked before the next one is
looked at, so the walk meets exactly the list it started with. -/
def lthreadCondBroadcast (s : Sched) (c : CondId) : Sched :=
  (s.blocked c).foldl (fun s l =>
    let s := { s with blocked := Function.update s.blocked c ((s.blocked c).erase l) }
    (s.lthreadDeschedSleep l).readyInsert l) s

/-- `_lthread_desched_event`: the member of the waiting tree with the key, if any. -/
def lthreadDeschedEvent (s : Sched) (fd : Fd) (e : LtEvent) : Sched × Option LtId :=
  match s.waiting.find? fun l => decide ((s.lt l).fdWait = fdKey fd e) with
  | none => (s, none)
  | some l => (({ s with waiting := s.waiting.erase l } : Sched).lthreadDeschedSleep l, some l)

def sleepMin (s : Sched) : Option LtId := s.sleeping.argmin fun l => (s.lt l).sleepUsecs

def defaultTimeout : ℕ := 3000000

def lthreadMinTimeout (s : Sched) : ℕ :=
  match s.sleepMin with
  | none => defaultTimeout
  | some l => (s.lt l).sleepUsecs - lthreadDiffUsecs s.birth s.usecNow

/-- What `_lthread_poll` hands to the poller, in `uint64_t` arithmetic; `none` if it
returns at once. -/
def lthreadPoll (s : Sched) : Option Timespec :=
  let usecs := s.lthreadMinTimeout
  if usecs ≠ 0 ∧ s.ready = [] then
    let tvSec := usecs / 1000000
    some { tvSec := tvSec
           tvNsec := if tvSec ≠ 0 then usecs % 1000 * 1000000 % u64 else usecs * 1000 % u64 }
  else none

def lthreadSchedIsdone (s : Sched) : Bool :=
  s.waiting.isEmpty && s.busy.isEmpty && s.sleeping.isEmpty && s.ready.isEmpty

def newLt : Lt :=
  { state := fun b => decide (b = .new), ctx := .start, fdWait := -1, ltJoin := none
    ltExitPtr := none, ops := 0, sleepUsecs := 0, computeSched := none, freed := false }

/-- `lthread_create`; the id of the new lthread is the number of those before it. -/
def lthreadCreate (s : Sched) : Sched :=
  { s with
    lt := Function.update s.lt s.spawned newLt
    spawned := s.spawned + 1
    ready := s.ready ++ [s.spawned] }

def lthreadFree (s : Sched) (l : LtId) : Sched := s.modify l ({ · with freed := true })

def lthreadYield (s : Sched) (l : LtId) (c : Ctx) : Sched :=
  s.modify l ({ · with ops := 0, ctx := c })

end Sched
end Lthr
