import Lthread.Spec.Runs

/-! `lthread_poll`, which waits for several descriptors at once. It registers each of them
with `_lthread_sched_event` and a timeout of -1, takes the traces of that out of its own
record, and goes to sleep. An event for such an lthread is counted, and the lthread is put
on the ready queue with the first one. -/

namespace Lthr

def timeoutMsecs (timeout : ℤ) : ℕ := (timeout % u64).toNat

/-- An entry of `pollfds`: `POLLIN` or `POLLOUT`, and `POLLHUP` in what is returned. -/
structure PollFd where
  fd : Fd
  event : LtEvent
  hup : Bool := false
  deriving DecidableEq, Repr

namespace World

def pollRegister (x : World) (l : LtId) : List PollFd → Except Fault World
  | [] => .ok x
  | p :: fds => do
    let x ← x.lthreadSchedEvent l p.fd p.event (u64 - 1)
    x.pollRegister l fds

def pollUnregister (x : World) : List PollFd → Except Fault World
  | [] => .ok x
  | p :: fds =>
    match x.poller.clear p.fd with
    | none => .error .pollerClear
    | some poller =>
      ({ x.onSched fun s => (s.lthreadDeschedEvent p.fd p.event).1 with poller := poller } : World).pollUnregister fds

end World

/-- The world with the fields of `struct lthread` for `lthread_poll`. -/
structure Multi where
  world : World
  readyFds : LtId → ℕ
  pollfds : LtId → List PollFd
  polling : LtId → Bool

inductive MultiLabel
  | world (a : Label)
  | lthreadPoll (fds : List PollFd) (timeout : ℤ)
  -- it is back from the `_lthread_sched_sleep` in there
  | go

namespace Multi

/-- `lthread_poll` up to its yield; a timeout of 0, for which it calls `poll(2)`, is left out. -/
def lthreadPoll (x : Multi) (l : LtId) (fds : List PollFd) (timeout : ℤ) : Except Fault Multi := do
  let w ← x.world.pollRegister l fds
  let w := w.onSched fun s =>
    (((s.modify l ({ · with fdWait := -1 })).clearBit l .waitRead).clearBit l .waitWrite).setBit l .waitMulti
  .ok { world := w.suspend l fun s =>
          (s.lthreadSchedSleep l (timeoutMsecs timeout)).setCtx l (.slept (timeoutMsecs timeout))
        readyFds := Function.update x.readyFds l 0
        pollfds := Function.update x.pollfds l fds
        polling := Function.update x.polling l true }

def lthreadPollEnd (x : Multi) (l : LtId) : Multi :=
  let w := x.world.onSched (·.clearBit l .waitMulti)
  { x with
    world := w.returnValue l (if w.sched.has l .expired then 0 else x.readyFds l)
    polling := Function.update x.polling l false }

def setFdReady (x : Multi) (l : LtId) (fd : Fd) (e : LtEvent) (eof : Bool) : Except Fault Multi := do
  let w ← if x.readyFds l = 0 then x.world.pollUnregister (x.pollfds l) else .ok x.world
  .ok { x with
    world := w
    readyFds := Function.update x.readyFds l (x.readyFds l + 1)
    pollfds := Function.update x.pollfds l ((x.pollfds l).set (x.readyFds l) ⟨fd, e, eof⟩) }

def handleEv (x : Multi) (fd : Fd) (e : LtEvent) (eof : Bool) (next : Bool → Except Fault Phase) :
    Except Fault Multi := do
  match x.world.sched.lthreadDeschedEvent fd e with
  | (s, some l) =>
    if s.has l .waitMulti then
      let ph ← next true
      let s := if x.readyFds l = 0 then s.readyInsert l else s
      { x with world := { x.world.onSched (fun _ => s) with phase := ph } }.setFdReady l fd e eof
    else
      let w ← x.world.handleEv fd e eof next
      .ok { x with world := w }
  | (_, none) =>
    let w ← x.world.handleEv fd e eof next
    .ok { x with world := w }

def lthreadRun (x : Multi) : Except Fault Multi :=
  match x.world.phase with
  | .events (.ready fd eof :: evs) => x.handleEv fd .read eof fun ltRead => .ok (.write fd eof ltRead evs)
  | .write fd eof ltRead evs =>
    x.handleEv fd .write eof fun ltWrite =>
      if ltWrite || ltRead then .ok (.events evs) else .error .unhandledEvent
  | _ => do
    let w ← x.world.lthreadRun
    .ok { x with world := w }

def idle (x : Multi) : Prop := ∀ l, x.world.cpu = .run l → x.polling l = false

instance (x : Multi) : Decidable x.idle := inferInstanceAs (Decidable (∀ l, x.world.cpu = .run l → x.polling l = false))

def advance (x : Multi) : MultiLabel → Except Fault Multi
  | .world .sched =>
    match x.world.cpu with
    | .loop => x.lthreadRun
    | _ => do
      let w ← x.world.advance .sched
      .ok { x with world := w }
  | .world (.call op) =>
    if x.idle then do
      let w ← x.world.advance (.call op)
      .ok { x with world := w }
    else .error .disabled
  | .world a => do
    let w ← x.world.advance a
    .ok { x with world := w }
  | .lthreadPoll fds timeout =>
    match x.world.cpu with
    | .run l => if x.polling l = false ∧ timeout ≠ 0 then x.lthreadPoll l fds timeout else .error .disabled
    | _ => .error .disabled
  | .go =>
    match x.world.cpu with
    | .run l => if x.polling l then .ok (x.lthreadPollEnd l) else .error .disabled
    | _ => .error .disabled

def step (x : Multi) (a : MultiLabel) : Except Fault Multi := do
  let x' ← x.advance a
  if x'.world.sched.ready.Nodup then .ok x' else .error .relinked

def start (w : World) : Multi :=
  { world := w, readyFds := fun _ => 0, pollfds := fun _ => [], polling := fun _ => false }

end Multi

def multiMachine : Machine Multi MultiLabel where
  init x := ∃ birth capacity ioWorkers, x = Multi.start (World.start birth capacity ioWorkers)
  step x a x' := x.step a = .ok x'

end Lthr
