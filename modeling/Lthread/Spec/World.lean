import Lthread.Spec.ChanRun
import Lthread.Spec.Compute
import Lthread.Spec.IoWorker
import Lthread.Spec.Poller

/-! One scheduler with everything that touches it: `lthread_run`, the lthreads it
resumes and the calls they make (`lthread.c`, `lthread_sched.c`,
`lthread_socket.c`), the poller, the io workers and the compute threads.

The thread of the scheduler is cut at its context switches: a call of an lthread
runs up to its yield in one step, the end of `_lthread_resume` is a second one,
the way to the next lthread that is resumed a third, and the rest of a suspended
call belongs to the step that resumes the lthread. Where it hands an lthread to a
worker it is also cut between its critical sections. The workers may act between
any two of these steps. `lthread_poll`, and with it `LT_ST_WAIT_MULTI`, is left out. -/

namespace Lthr

inductive Phase
  -- `main` creates lthreads, `lthread_run` has not been called
  | setup
  | isdone
  -- in `_lthread_resume_expired`, which has read the clock
  | expired (tDiffUsecs : ℕ)
  -- in the loop over the ready queue, with `lt_last_ready`
  | ready (ltLastReady : Option LtId)
  | defer
  | poll
  | polling
  -- in the loop over the new events, the next one first
  | events (evs : List PollEvent)
  -- at `HANDLE_EV(lt_write, LT_EV_WRITE)`; `ltRead` says whether there was a reader
  | write (fd : Fd) (eof : Bool) (ltRead : Bool) (evs : List PollEvent)
  | done
  deriving DecidableEq, Repr

inductive Cpu
  | loop
  | run (l : LtId)
  -- `l` has put itself in the queue of io worker `w` and not signalled it yet
  | ioAdd (l : LtId) (w : ℕ)
  -- `l` is in the queue of a compute scheduler and has not switched back yet, so that its context
  -- is not saved
  | leaving (l : LtId)
  | back (l : LtId)
  -- in `_lthread_compute_add` for `l`, with the signal still to come
  | computeAdd (l : LtId)
  deriving DecidableEq, Repr

def Cpu.on : Cpu → Option LtId
  | .loop => none
  | .run l | .ioAdd l _ | .leaving l | .back l | .computeAdd l => some l

/-- Why a step is not taken: it does not apply, or the program does something from
which no run goes on, such as a failing `assert`. -/
inductive Fault
  | disabled
  | freed (l : LtId)
  | schedFreed
  | computeSchedFreed
  | noContext (l : LtId)
  -- `fd_wait` of a member of the waiting tree would change
  | treeKey (l : LtId)
  | unexpectedEvent
  -- `assert(lt_tmp == NULL)`: the waiting tree has the key already
  | waitingInsert
  -- `assert(ret != -1)` of `_lthread_poller_ev_clear_rd` and `_clear_wr`
  | pollerClear
  | triggerRead
  | unhandledEvent
  | ioState
  | chan
  -- a member of the ready queue is put on it again, and the links are no queue any more
  | relinked
  deriving DecidableEq, Repr

structure World where
  sys : Sys
  phase : Phase
  cpu : Cpu
  poller : Poller
  eventfd : ℕ
  io : ℕ → IoWorker
  -- how many io workers there are, `IO_WORKERS` in the source
  ioWorkers : ℕ
  ioSelector : ℕ
  compute : ℕ → ComputeSched
  computeScheds : List ℕ
  computeCount : ℕ
  mem : ℕ → ℕ
  -- the value the last call of an lthread returned; this and the next two are not stored by the
  -- program
  ret : LtId → ℤ
  exitValue : LtId → ℕ
  -- `_lthread_resume` has taken its branch for cancelled lthreads for it
  dropped : LtId → Bool

inductive Op
  | create
  | sleep (msecs : ℕ)
  | renice
  | condWait (c : ℕ) (timeout : ℕ)
  | condSignal (c : ℕ)
  | condBroadcast (c : ℕ)
  | chan (op : ChanOp)
  | join (target : LtId) (ptr : Option ℕ) (timeout : ℕ)
  | exit (ptr : ℕ)
  | finish
  | detach
  | detach2 (target : LtId)
  | cancel (target : LtId)
  | wakeup (target : LtId)
  | schedEvent (fd : Fd) (e : LtEvent) (timeout : ℕ)
  | close (fd : Fd)
  | io (e : LtEvent)
  -- `lthread_compute_begin`; `created` says whether a new compute scheduler could be made
  | computeBegin (created : Bool)

inductive Label
  | clock (usecs : ℕ)
  | main
  | run
  | sched
  | poll (evs : List PollEvent)
  | call (op : Op)
  | io (w : ℕ) (a : WorkerAct)
  | compute (k : ℕ) (a : ComputeAct)

def waitBit : LtEvent → LtSt
  | .read => .waitRead
  | .write => .waitWrite

def waitIoBit : LtEvent → LtSt
  | .read => .waitIoRead
  | .write => .waitIoWrite

def Sched.lthreadSchedEventEnd (s : Sched) (l : LtId) (e : LtEvent) (timeout : ℕ) : Sched :=
  ((s.lthreadSchedSleepEnd l timeout).modify l ({ · with fdWait := -1 })).clearBit l (waitBit e)

namespace World

def sched (x : World) : Sched := x.sys.sched

def onSched (x : World) (f : Sched → Sched) : World :=
  { x with sys := { x.sys with sched := f x.sys.sched } }

def suspend (x : World) (l : LtId) (f : Sched → Sched) : World :=
  { x.onSched f with cpu := .back l }

def returnValue (x : World) (l : LtId) (r : ℤ) : World :=
  { x with ret := Function.update x.ret l r }

def usable (x : World) (l : LtId) : Except Fault Unit :=
  if x.sched.spawned ≤ l then .error .disabled
  else if (x.sched.lt l).freed then .error (.freed l)
  else .ok ()

/-! `_lthread_resume` and its callers -/

/-- "if an lthread was joining on it, schedule it to run" -/
def wakeJoiner (x : World) (l : LtId) : Except Fault World :=
  match (x.sched.lt l).ltJoin with
  | none => .ok x
  | some j =>
    if (x.sched.lt j).freed then .error (.freed j)
    else .ok (x.onSched fun s =>
      ((s.lthreadDeschedSleep j).readyInsert j).modify l ({ · with ltJoin := none }))

def freeDetached (x : World) (l : LtId) : World :=
  if x.sched.has l .detach then x.onSched (·.lthreadFree l) else x

/-- `_lthread_resume` has returned `ret`: what its caller in `lthread_run` does next. -/
def resumed (x : World) (l : LtId) (ret : ℤ) : World :=
  match x.phase with
  | .expired _ =>
    { (if ret ≠ -1 then x.onSched (·.clearBit l .expired) else x) with cpu := .loop }
  | .ready last => { x with phase := if last = some l then .defer else .ready last, cpu := .loop }
  | _ => { x with cpu := .loop }

def unbusy (x : World) (l : LtId) : World :=
  if x.sched.has l .busy then x.onSched fun s => { s with busy := s.busy.erase l } else x

/-- The branch of `_lthread_resume` for a cancelled lthread. The state is read
again after `_lthread_free`; the model reads what it was before. If the lthread has been here
already, `LIST_REMOVE` writes to the entries that were next to it; the model leaves them alone. -/
def dropCancelled (x : World) (l : LtId) : Except Fault World := do
  let x ← x.wakeJoiner l
  .ok { ((x.freeDetached l).unbusy l).resumed l (-1) with
    dropped := Function.update x.dropped l true }

def lthreadJoinEnd (x : World) (l target : LtId) (timeout : ℕ) : Except Fault World :=
  let x := x.onSched (·.lthreadSchedBusySleepEnd l timeout)
  if (x.sched.lt target).freed then .error (.freed target)
  else if x.sched.has l .expired then
    .ok ((x.onSched (·.modify target ({ · with ltJoin := none }))).returnValue l (-2))
  else
    .ok ((x.onSched (·.lthreadFree target)).returnValue l
      (if x.sched.has target .cancelled then -3 else 0))

def afterYield (x : World) (l : LtId) : Except Fault World :=
  match (x.sched.lt l).ctx with
  | .start | .yielded | .compute _ => .ok x
  | .slept t => .ok (x.onSched (·.lthreadSchedSleepEnd l t))
  | .condWait c t =>
    .ok ((x.onSched fun s => (s.lthreadCondWaitEnd l c t).1).returnValue l
      (x.sched.lthreadCondWaitEnd l c t).2)
  | .selWait s t => .ok { x with sys := x.sys.returnFrom l s t }
  | .joining target t => x.lthreadJoinEnd l target t
  | .schedEvent _ e t =>
    if l ∈ x.sched.waiting then .error (.treeKey l)
    else .ok (x.onSched (·.lthreadSchedEventEnd l e t))
  | .ioWait e _ => .ok (x.onSched (·.clearBit l (waitIoBit e)))
  | .running | .exited => .error (.noContext l)

def lthreadInit (x : World) (l : LtId) : World :=
  x.onSched (·.modify l ({ · with state := fun b => decide (b = .ready) }))

def lthreadResume (x : World) (l : LtId) : Except Fault World :=
  if (x.sched.lt l).freed then .error (.freed l)
  else if x.sched.has l .cancelled then x.dropCancelled l
  else do
    let x := if x.sched.has l .new then x.lthreadInit l else x
    let x ← x.afterYield l
    .ok { x.onSched (·.setCtx l .running) with cpu := .run l }

def computeSchedOf (x : World) (l : LtId) : Except Fault ℕ :=
  match (x.sched.lt l).computeSched with
  | none => .error .computeSchedFreed
  | some k => if (x.compute k).pc = .exited then .error .computeSchedFreed else .ok k

/-- `_lthread_compute_add`, up to the end of its first critical section. -/
def lthreadComputeAdd (x : World) (l : LtId) : Except Fault World := do
  let _ ← x.computeSchedOf l
  .ok { x.onSched fun s =>
      (({ s with busy := l :: s.busy } : Sched).clearBit l .pendingRuncompute).setBit l .runcompute with
    cpu := .computeAdd l }

/-- The second critical section of `_lthread_compute_add`, and the return to the loop. -/
def computeSignal (x : World) (l : LtId) : Except Fault World := do
  let k ← x.computeSchedOf l
  .ok ({ x with compute := Function.update x.compute k (x.compute k).signal }.resumed l 0)

def lthreadResumeEnd (x : World) (l : LtId) : Except Fault World :=
  if (x.sched.lt l).freed then .error (.freed l)
  else if x.sched.has l .exited then do
    let x ← x.wakeJoiner l
    .ok ((x.freeDetached l).resumed l (-1))
  else if x.sched.has l .pendingRuncompute then x.lthreadComputeAdd l
  else .ok (x.resumed l 0)

/-! Events -/

/-- The descriptor of `l` is taken out of the poller, and bit `b` cleared. -/
def pollerEvClear (x : World) (l : LtId) (b : LtSt) : Except Fault World :=
  let key := (x.sched.lt l).fdWait
  match if 0 ≤ key then x.poller.clear (fdOnly key) else none with
  | none => .error .pollerClear
  | some p => .ok { x.onSched (·.clearBit l b) with poller := p }

def clearWait (x : World) (l : LtId) : Except Fault World :=
  if x.sched.has l .waitRead then x.pollerEvClear l .waitRead
  else if x.sched.has l .waitWrite then x.pollerEvClear l .waitWrite
  else .ok x

def lthreadCancelEvent (x : World) (l : LtId) : Except Fault World := do
  let key := (x.sched.lt l).fdWait
  let x ← x.clearWait l
  let x :=
    if 0 ≤ key then x.onSched fun s => (s.lthreadDeschedEvent (fdOnly key) (fdEvent key)).1 else x
  .ok (x.onSched (·.modify l ({ · with fdWait := -1 })))

def handleEv (x : World) (fd : Fd) (e : LtEvent) (eof : Bool) (next : Bool → Except Fault Phase) :
    Except Fault World := do
  match x.sched.lthreadDeschedEvent fd e with
  | (_, none) =>
    let ph ← next false
    .ok { x with phase := ph }
  | (s, some l) =>
    let ph ← next true
    let s := if eof then s.setBit l .fdeof else s
    { x.onSched (fun _ => s) with phase := ph }.lthreadResume l

/-- The rest of one round of `_lthread_resume_expired`, for the first sleeper. -/
def resumeExpired (x : World) (l : LtId) : Except Fault World := do
  let x ← x.lthreadCancelEvent l
  (x.onSched fun s => (s.lthreadDeschedSleep l).setBit l .expired).lthreadResume l

def lthreadRun (x : World) : Except Fault World :=
  match x.phase with
  | .isdone =>
    if x.sched.lthreadSchedIsdone then .ok { x with phase := .done }
    else .ok { x with phase := .expired (lthreadDiffUsecs x.sched.birth x.sched.usecNow) }
  | .expired t =>
    match x.sched.sleepMin with
    | some l =>
      if (x.sched.lt l).sleepUsecs ≤ t then x.resumeExpired l
      else .ok { x with phase := .ready x.sched.ready.getLast? }
    | none => .ok { x with phase := .ready x.sched.ready.getLast? }
  | .ready _ =>
    match x.sched.ready with
    | [] => .ok { x with phase := .defer }
    | l :: rest => (x.onSched fun s => { s with ready := rest }).lthreadResume l
  | .defer =>
    match x.sched.defer with
    | [] => .ok { x with phase := .poll }
    | l :: rest =>
      (x.onSched fun s => { s with defer := rest, busy := s.busy.erase l }).lthreadResume l
  | .poll =>
    if x.sched.lthreadMinTimeout ≠ 0 ∧ x.sched.ready = [] then .ok { x with phase := .polling }
    else .ok { x with phase := .isdone }
  | .events [] => .ok { x with phase := .isdone }
  | .events (.trigger :: evs) =>
    if x.eventfd = 0 then .error .triggerRead
    else .ok { x with phase := .events evs, eventfd := 0 }
  | .events (.ready fd eof :: evs) =>
    x.handleEv fd .read eof fun ltRead => .ok (.write fd eof ltRead evs)
  | .write fd eof ltRead evs =>
    x.handleEv fd .write eof fun ltWrite =>
      if ltWrite || ltRead then .ok (.events evs) else .error .unhandledEvent
  | .setup | .polling | .done => .error .disabled

/-! The calls -/

def lthreadSleep (x : World) (l : LtId) (msecs : ℕ) : World :=
  if msecs = 0 then x.suspend l fun s => (s.readyInsert l).lthreadYield l .yielded
  else x.suspend l fun s => (s.lthreadSchedSleep l msecs).setCtx l (.slept msecs)

def lthreadRenice (x : World) (l : LtId) : World :=
  let x := x.onSched (·.modify l fun lt => { lt with ops := lt.ops + 1 })
  if (x.sched.lt l).ops < 5 then x
  else x.suspend l fun s => (s.readyInsert l).lthreadYield l .yielded

def lthreadJoin (x : World) (l target : LtId) (ptr : Option ℕ) (timeout : ℕ) :
    Except Fault World := do
  x.usable target
  let x := x.onSched fun s =>
    (s.modify target ({ · with ltJoin := some l })).modify l ({ · with ltExitPtr := ptr })
  if x.sched.has target .exited then
    .ok ((x.onSched (·.lthreadFree target)).returnValue l (-1))
  else
    .ok (x.suspend l fun s => (s.lthreadSchedBusySleep l timeout).setCtx l (.joining target timeout))

def exec (x : World) (l : LtId) : World :=
  x.suspend l fun s => (s.setBit l .exited).lthreadYield l .exited

def lthreadExit (x : World) (l : LtId) (ptr : ℕ) : Except Fault World :=
  let x := { x with exitValue := Function.update x.exitValue l ptr }
  match (x.sched.lt l).ltJoin with
  | none => .ok (x.exec l)
  | some j =>
    if (x.sched.lt j).freed then .error (.freed j)
    else
      match (x.sched.lt j).ltExitPtr with
      | some a =>
        .ok ({ x with mem := if ptr = 0 then x.mem else Function.update x.mem a ptr }.exec l)
      | none => .ok (x.exec l)

def lthreadCancel (x : World) (target : LtId) : Except Fault World := do
  x.usable target
  let x := x.onSched fun s => (s.setBit target .cancelled).lthreadDeschedSleep target
  let x ← x.lthreadCancelEvent target
  if x.sched.has target .pendingRuncompute ∨ x.sched.has target .waitIoRead ∨
      x.sched.has target .waitIoWrite ∨ x.sched.has target .runcompute then .ok x
  else .ok (x.onSched (·.readyInsert target))

def lthreadWakeup (x : World) (target : LtId) : Except Fault World := do
  x.usable target
  if x.sched.has target .sleeping then
    .ok (x.onSched fun s => (s.readyInsert target).lthreadDeschedSleep target)
  else .ok x

/-- `_lthread_sched_event` up to its yield; with timeout -1 there is none. -/
def lthreadSchedEvent (x : World) (l : LtId) (fd : Fd) (e : LtEvent) (timeout : ℕ) :
    Except Fault World :=
  if x.sched.has l .waitRead || x.sched.has l .waitWrite then .error .unexpectedEvent
  else if ∃ m ∈ x.sched.waiting, (x.sched.lt m).fdWait = fdKey fd e then .error .waitingInsert
  else
    let x := { x with poller := x.poller.register fd e }
    let x := x.onSched fun s =>
      { (s.setBit l (waitBit e)).modify l ({ · with fdWait := fdKey fd e }) with
        waiting := l :: s.waiting }
    if timeout = u64 - 1 then .ok x
    else
      .ok (x.suspend l fun s => (s.lthreadSchedSleep l timeout).setCtx l (.schedEvent fd e timeout))

/-- One half of `lthread_close`: the lthread that waits for event `e`. -/
def closeEvent (x : World) (fd : Fd) (e : LtEvent) : Except Fault World :=
  match x.sched.lthreadDeschedEvent fd e with
  | (_, none) => .ok x
  | (s, some m) =>
    if (x.sched.lt m).freed then .error (.freed m)
    else .ok (x.onSched fun _ => (s.readyInsert m).setBit m .fdeof)

def lthreadClose (x : World) (l : LtId) (fd : Fd) : Except Fault World := do
  let x ← x.closeEvent fd .read
  let x ← x.closeEvent fd .write
  .ok { x.onSched (·.clearBit l .fdeof) with poller := x.poller.close fd }

/-- `lthread_io_read` and `lthread_io_write` with `_lthread_io_add`, up to the end of the
insertion. The place the lthread will come back to is written here. -/
def lthreadIo (x : World) (l : LtId) (e : LtEvent) : World :=
  let w := x.ioSelector
  { x.onSched fun s =>
      ({ s.setBit l (waitIoBit e) with busy := l :: s.busy } : Sched).setCtx l (.ioWait e w) with
    cpu := .ioAdd l w
    ioSelector := (w + 1) % x.ioWorkers
    io := Function.update x.io w ((x.io w).insert l) }

def ioSignal (x : World) (l : LtId) (w : ℕ) : World :=
  { x.suspend l (·.modify l ({ · with ops := 0 })) with
    io := Function.update x.io w ((x.io w).signal l) }

/-- `lthread_compute_begin` with the compute scheduler it has found, up to the end of
its critical section. The place the lthread will come back to is written here. -/
def computeEnqueue (x : World) (l : LtId) (k : ℕ) : World :=
  { x.onSched fun s =>
      (s.setBit l .pendingRuncompute).modify l
        ({ · with computeSched := some k, ctx := .compute k }) with
    cpu := .leaving l
    compute := Function.update x.compute k
      { x.compute k with lthreads := (x.compute k).lthreads ++ [l] } }

def lthreadComputeBegin (x : World) (l : LtId) (created : Bool) : World :=
  match x.computeScheds.find? fun k => decide ((x.compute k).computeSt = .free) with
  | some k => x.computeEnqueue l k
  | none =>
    if created then
      { x with
        compute := Function.update x.compute x.computeCount ComputeSched.init
        computeScheds := x.computeCount :: x.computeScheds
        computeCount := x.computeCount + 1 }.computeEnqueue l x.computeCount
    else
      match x.computeScheds with
      | [] => x.returnValue l (-1)
      | k :: _ => x.computeEnqueue l k

def call (x : World) (l : LtId) : Op → Except Fault World
  | .create => .ok (x.onSched (·.lthreadCreate))
  | .sleep msecs => .ok (x.lthreadSleep l msecs)
  | .renice => .ok (x.lthreadRenice l)
  | .condWait c timeout =>
    .ok (x.suspend l fun s =>
      (s.lthreadCondWait l (.user c) timeout).setCtx l (.condWait (.user c) timeout))
  | .condSignal c => .ok (x.onSched (·.lthreadCondSignal (.user c)))
  | .condBroadcast c => .ok (x.onSched (·.lthreadCondBroadcast (.user c)))
  | .chan op =>
    if x.sys.callable op then
      match x.sys.callOp l op with
      | none => .error .chan
      | some (sys, some _) => .ok { x with sys := sys }
      | some (sys, none) => .ok { x with sys := sys, cpu := .back l }
    else .error .disabled
  | .join target ptr timeout => x.lthreadJoin l target ptr timeout
  | .exit ptr => x.lthreadExit l ptr
  | .finish => .ok (x.exec l)
  | .detach => .ok (x.onSched (·.setBit l .detach))
  | .detach2 target => do
    x.usable target
    .ok (x.onSched (·.setBit target .detach))
  | .cancel target => x.lthreadCancel target
  | .wakeup target => x.lthreadWakeup target
  | .schedEvent fd e timeout => x.lthreadSchedEvent l fd e timeout
  | .close fd => x.lthreadClose l fd
  | .io e => .ok (x.lthreadIo l e)
  | .computeBegin created => .ok (x.lthreadComputeBegin l created)

/-! The workers -/

/-- What a worker that puts `lt` on `lt->sched->defer`, or triggers `lt->sched`, uses. -/
def reach (x : World) (l : LtId) : Except Fault Unit :=
  if (x.sched.lt l).freed then .error (.freed l)
  else if x.phase = .done then .error .schedFreed
  else .ok ()

def deferInsert (x : World) (l : LtId) : World :=
  x.onSched fun s => { s with defer := s.defer ++ [l] }

def trigger (x : World) : World := { x with eventfd := x.eventfd + 2 }

def ioAct (x : World) (w : ℕ) (a : WorkerAct) : Except Fault World :=
  if x.ioWorkers ≤ w then .error .disabled
  else
    match (x.io w).act a with
    | none => .error .disabled
    | some y =>
      let x' := { x with io := Function.update x.io w y }
      match a, (x.io w).pc with
      | .finish, .working l => do
        x.reach l
        if x.sched.has l .waitIoRead || x.sched.has l .waitIoWrite then .ok (x'.deferInsert l)
        else .error .ioState
      | .trigger, .handed l => do
        x.reach l
        .ok x'.trigger
      | _, _ => .ok x'

def computeAct (x : World) (k : ℕ) (a : ComputeAct) : Except Fault World :=
  if x.computeCount ≤ k then .error .disabled
  else
    match (x.compute k).act (x.sched.has · .pendingRuncompute) a with
    | none => .error .disabled
    | some y =>
      let x' := { x with compute := Function.update x.compute k y }
      match a, (x.compute k).pc with
      | .finish, .ended l => do
        x.reach l
        .ok ((x'.deferInsert l).onSched (·.clearBit l .runcompute))
      | .trigger, .handed l => do
        x.reach l
        .ok x'.trigger
      | .leave, _ =>
        if y.pc = .exited then .ok { x' with computeScheds := x.computeScheds.erase k } else .ok x'
      | _, _ => .ok x'

/-- A step as far as the lists of members go, which a second insertion only makes longer. -/
def advance (x : World) : Label → Except Fault World
  | .clock usecs => .ok (x.onSched ({ · with usecNow := usecs }))
  | .main => if x.phase = .setup then .ok (x.onSched (·.lthreadCreate)) else .error .disabled
  | .run => if x.phase = .setup then .ok { x with phase := .isdone } else .error .disabled
  | .sched =>
    match x.cpu with
    | .loop => x.lthreadRun
    | .run _ => .error .disabled
    | .ioAdd l w => .ok (x.ioSignal l w)
    | .leaving l => .ok { x with cpu := .back l }
    | .back l => x.lthreadResumeEnd l
    | .computeAdd l => x.computeSignal l
  | .poll evs =>
    if x.phase = .polling ∧ x.poller.returns x.eventfd evs then
      -- the loop of `lthread_run` takes the last event first
      .ok { x with phase := .events evs.reverse, poller := x.poller.deliver evs }
    else .error .disabled
  | .call op =>
    match x.cpu with
    | .run l => x.call l op
    | _ => .error .disabled
  | .io w a => x.ioAct w a
  | .compute k a => x.computeAct k a

/-- `TAILQ_INSERT_TAIL` of a member cuts off those behind it, or makes a cycle. No step
takes such a member off the ready queue again, so that it is there twice at the end. -/
def step (x : World) (a : Label) : Except Fault World := do
  let x' ← x.advance a
  if x'.sched.ready.Nodup then .ok x' else .error .relinked

/-- `sched_create` at time `birth`; the record of an lthread that does not exist yet
counts as finished. -/
def start (birth : ℕ) (capacity : ChanId → ℕ) (ioWorkers : ℕ) : World :=
  { sys :=
      { sched :=
          { lt := fun _ => { Sched.newLt with state := fun b => decide (b = .exited), ctx := .exited }
            spawned := 0, birth := birth, usecNow := birth, ready := [], defer := [], busy := []
            sleeping := [], waiting := [], blocked := fun _ => [] }
        ch := (Sys.chanStart capacity).ch }
    phase := .setup, cpu := .loop, poller := fun _ => none, eventfd := 0
    io := fun _ => IoWorker.init, ioWorkers := ioWorkers, ioSelector := 0
    compute := fun _ => ComputeSched.init, computeScheds := [], computeCount := 0
    mem := fun _ => 0, ret := fun _ => 0, exitValue := fun _ => 0, dropped := fun _ => false }

end World

def worldMachine : Machine World Label where
  init x := ∃ birth capacity ioWorkers, x = World.start birth capacity ioWorkers
  step x a x' := x.step a = .ok x'

/-- The runs in which the steps are carried out also where one puts an lthread on the ready queue
that is there already. -/
def advanceMachine : Machine World Label where
  init := worldMachine.init
  step x a x' := x.advance a = .ok x'

end Lthr
