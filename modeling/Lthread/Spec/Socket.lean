import Lthread.Spec.Runs

/-! `lthread_socket.c`: the calls that read, write and wait for descriptors. A call is cut
where it may switch and at its system calls: `SockCall` is a call that is under way, with
the place in its loop it has reached, and each of the macros `LTHREAD_WAIT`, `LTHREAD_RECV`,
`LTHREAD_RECV_EXACT`, `LTHREAD_SEND` and `LTHREAD_SEND_ONCE` says what comes next there.
The switches themselves are calls of `_lthread_renice` and `_lthread_sched_event` in the
world. What a system call returns is open, but for a read: the kernel keeps the bytes that
the peer has written and hands them out in order. -/

namespace Lthr

/-- What a system call returns: a count, -1 with `EAGAIN` (for `connect` also
`EWOULDBLOCK`, `EINPROGRESS` and `EALREADY`), or -1 with another `errno`. -/
inductive SysRet
  | done (n : ℕ)
  | again
  | error
  deriving DecidableEq, Repr

/-- The socket calls, one for each macro, and `lthread_connect`. -/
inductive SockFn
  | wait (e : LtEvent)
  -- `lthread_recv`, `lthread_read`, `lthread_recvmsg`, `lthread_recvfrom`
  | recv
  | recvExact
  | send
  | sendOnce
  | connect
  deriving DecidableEq, Repr

def SockFn.reads : SockFn → Bool
  | .recv | .recvExact => true
  | _ => false

inductive SockPc
  | top
  | sys
  | waited
  deriving DecidableEq, Repr

structure SockCall where
  fn : SockFn
  fd : Fd
  length : ℕ
  timeout : ℕ
  pc : SockPc
  count : ℕ
  buf : List UInt8
  -- how often `fd` had been closed when the call was made; not stored by the program
  gen : ℕ
  deriving DecidableEq, Repr

inductive SockNext
  -- it returns; `eof` says whether it does because of `LT_ST_FDEOF`
  | ret (r : ℤ) (eof : Bool)
  | goto (pc : SockPc) (count : ℕ)
  | renice
  | schedEvent (e : LtEvent) (timeout : ℕ)
  deriving DecidableEq, Repr

namespace SockCall

variable (c : SockCall) (fdeof expired : Bool) (r : SysRet)

def lthreadWait (e : LtEvent) : SockNext :=
  match c.pc with
  | .top | .sys => .schedEvent e c.timeout
  | .waited => if fdeof then .ret (-1) true else if expired then .ret (-2) false else .ret 0 false

def lthreadRecv : SockNext :=
  match c.pc with
  | .top => if fdeof then .ret (-1) true else .renice
  | .sys =>
    match r with
    | .error => .ret (-1) false
    | .again => .schedEvent .read c.timeout
    | .done n => .ret n false
  | .waited => if expired then .ret (-2) false else .goto .top 0

def lthreadRecvExact : SockNext :=
  match c.pc with
  | .top =>
    if c.count = c.length then .ret c.count false else if fdeof then .ret (-1) true else .renice
  | .sys =>
    match r with
    | .error => .ret (-1) false
    | .again => .schedEvent .read c.timeout
    | .done n => if n = 0 then .ret c.count false else .goto .top (c.count + n)
  | .waited => if expired then .ret (-2) false else .goto .top c.count

def lthreadSend : SockNext :=
  match c.pc with
  | .top =>
    if c.count = c.length then .ret c.count false else if fdeof then .ret (-1) true else .renice
  | .sys =>
    match r with
    | .error => .ret (-1) false
    | .again => .schedEvent .write 0
    | .done n => if n = 0 then .ret c.count false else .goto .top (c.count + n)
  | .waited => .goto .top c.count

def lthreadSendOnce : SockNext :=
  match c.pc with
  | .top => if fdeof then .ret (-1) true else .goto .sys 0
  | .sys =>
    match r with
    | .error => .ret (-1) false
    | .again => .schedEvent .write 0
    | .done n => .ret n false
  | .waited => .goto .top 0

def lthreadConnect : SockNext :=
  match c.pc with
  | .top => .renice
  | .sys =>
    match r with
    | .error => .ret (-1) false
    | .again => .schedEvent .write c.timeout
    | .done _ => .ret 0 false
  | .waited => if expired then .ret (-2) false else .goto .top 0

def next : SockNext :=
  match c.fn with
  | .wait e => c.lthreadWait fdeof expired e
  | .recv => c.lthreadRecv fdeof expired r
  | .recvExact => c.lthreadRecvExact fdeof expired r
  | .send => c.lthreadSend fdeof r
  | .sendOnce => c.lthreadSendOnce fdeof r
  | .connect => c.lthreadConnect expired r

end SockCall

/-- The receiving end of a pipe or a connection, as the kernel has it. -/
structure Stream where
  pending : List UInt8
  closed : Bool
  deriving DecidableEq, Repr

def Stream.Drained (s : Stream) : Prop := s.pending = [] ∧ s.closed = true

instance (s : Stream) : Decidable s.Drained := inferInstanceAs (Decidable (_ ∧ _))

/-- What `read` or `recv` of at most `want` bytes may return: bytes as long as there are
some, 0 only at the end, `EAGAIN` only if there is nothing yet. -/
def Stream.allows (s : Stream) (want : ℕ) : SysRet → Prop
  | .done n => n ≤ want ∧ n ≤ s.pending.length ∧ (n = 0 → want = 0 ∨ s.Drained)
  | .again => s.pending = [] ∧ s.closed = false
  | .error => True

instance (s : Stream) (want : ℕ) : (r : SysRet) → Decidable (s.allows want r)
  | .done n => inferInstanceAs (Decidable (n ≤ want ∧ n ≤ s.pending.length ∧ (n = 0 → want = 0 ∨ s.Drained)))
  | .again => inferInstanceAs (Decidable (_ ∧ _))
  | .error => inferInstanceAs (Decidable True)

def SysRet.taken : SysRet → ℕ
  | .done n => n
  | _ => 0

/-- A call that has returned, with the stream it has left. -/
structure SockRet where
  lt : LtId
  call : SockCall
  result : ℤ
  eof : Bool
  left : Stream
  deriving DecidableEq, Repr

/-- The world with the socket calls of its lthreads and the kernel's side of the
descriptors. The last four fields are history. -/
structure Net where
  world : World
  sock : LtId → Option SockCall
  stream : Fd → Stream
  -- how often a descriptor has been closed; a new one may have the same number
  gen : Fd → ℕ
  -- what the peer has written since the descriptor was opened
  wrote : Fd → List UInt8
  returns : List SockRet
  -- the descriptors for which an lthread waited when they were reported hung up or were closed with
  -- `lthread_close`
  hung : LtId → List (Fd × ℕ)

inductive NetLabel
  -- a step of the world that is not part of a socket call
  | world (a : Label)
  | call (fn : SockFn) (fd : Fd) (length timeout : ℕ)
  -- its call goes on; `r` is what the system call returns if it is at one
  | go (r : SysRet)
  | close (fd : Fd)
  | peerWrite (fd : Fd) (bytes : List UInt8)
  | peerClose (fd : Fd)

def Phase.hangUp : Phase → Option Fd
  | .events (.ready fd true :: _) | .write fd true _ _ => some fd
  | _ => none

def World.hangUp (x : World) : Label → Option Fd
  | .sched => if x.cpu = .loop then x.phase.hangUp else none
  | _ => none

def Label.inner : Label → Bool
  | .call (.schedEvent _ _ _) | .call .renice => true
  | _ => false

def Label.isCall : Label → Bool
  | .call _ => true
  | _ => false

namespace Net

def idle (x : Net) : Prop := ∀ l, x.world.cpu = .run l → x.sock l = none

instance (x : Net) : Decidable x.idle := inferInstanceAs (Decidable (∀ l, x.world.cpu = .run l → x.sock l = none))

def forget (x : Net) (fd : Fd) : Net :=
  { x with
    stream := Function.update x.stream fd ⟨[], false⟩
    wrote := Function.update x.wrote fd []
    gen := Function.update x.gen fd (x.gen fd + 1) }

/-- History: the lthreads that wait for `fd` while it is reported hung up or closed. -/
def noteHung (x : Net) (fd : Fd) : Net :=
  { x with hung := fun l =>
      if l ∈ x.world.sched.waiting ∧ fdOnly (x.world.sched.lt l).fdWait = fd then (fd, x.gen fd) :: x.hung l
      else x.hung l }

def worldStep (x : Net) (a : Label) : Except Fault Net := do
  let w ← x.world.step a
  match a.closes, x.world.hangUp a with
  | some fd, _ => .ok { (x.noteHung fd).forget fd with world := w }
  | none, some fd => .ok { x.noteHung fd with world := w }
  | none, none => .ok { x with world := w }

def go (x : Net) (l : LtId) (c : SockCall) (r : SysRet) : Except Fault Net :=
  match c.next (x.world.sched.has l .fdeof) (x.world.sched.has l .expired) r with
  | .ret res eof =>
    .ok { x with
      sock := Function.update x.sock l none
      returns := x.returns ++ [⟨l, c, res, eof, x.stream c.fd⟩] }
  | .goto pc count =>
    .ok { x with sock := Function.update x.sock l (some { c with pc := pc, count := count }) }
  | .renice => do
    let w ← x.world.step (.call .renice)
    .ok { x with world := w, sock := Function.update x.sock l (some { c with pc := .sys }) }
  | .schedEvent e timeout => do
    let w ← x.world.step (.call (.schedEvent c.fd e timeout))
    .ok { x with world := w, sock := Function.update x.sock l (some { c with pc := .waited }) }

def took (x : Net) (fd : Fd) (n : ℕ) : Net :=
  { x with stream := Function.update x.stream fd
             { x.stream fd with pending := (x.stream fd).pending.drop n } }

/-- `go`, after the system call of a read has stored what it takes from the stream. -/
def goRead (x : Net) (l : LtId) (c : SockCall) (r : SysRet) : Except Fault Net :=
  if (x.stream c.fd).allows (c.length - c.count) r then
    (x.took c.fd r.taken).go l { c with buf := c.buf ++ (x.stream c.fd).pending.take r.taken } r
  else .error .disabled

/-- `close(2)`: the poller drops the descriptor, and nobody is told. -/
def closeFd (x : Net) (fd : Fd) : Net :=
  { x.forget fd with world := { x.world with poller := x.world.poller.close fd } }

def step (x : Net) : NetLabel → Except Fault Net
  | .world a =>
    if a.inner = false ∧ (a.isCall = true → x.idle) then x.worldStep a else .error .disabled
  | .call fn fd length timeout =>
    match x.world.cpu with
    | .run l =>
      if x.sock l = none then
        .ok { x with sock := Function.update x.sock l (some ⟨fn, fd, length, timeout, .top, 0, [], x.gen fd⟩) }
      else .error .disabled
    | _ => .error .disabled
  | .go r =>
    match x.world.cpu with
    | .run l =>
      match x.sock l with
      | some c => if c.pc = .sys ∧ c.fn.reads = true then x.goRead l c r else x.go l c r
      | none => .error .disabled
    | _ => .error .disabled
  | .close fd =>
    match x.world.cpu with
    | .run l =>
      if x.sock l = none then .ok (x.closeFd fd) else .error .disabled
    | _ => .error .disabled
  | .peerWrite fd bytes =>
    if (x.stream fd).closed then .error .disabled
    else .ok { x with
      stream := Function.update x.stream fd { x.stream fd with pending := (x.stream fd).pending ++ bytes }
      wrote := Function.update x.wrote fd (x.wrote fd ++ bytes) }
  | .peerClose fd =>
    .ok { x with stream := Function.update x.stream fd { x.stream fd with closed := true } }

def start (w : World) : Net :=
  { world := w, sock := fun _ => none, stream := fun _ => ⟨[], false⟩, gen := fun _ => 0
    wrote := fun _ => [], returns := [], hung := fun _ => [] }

def current (x : Net) : Option (LtId × SockCall) :=
  match x.world.cpu with
  | .run l => (x.sock l).map (l, ·)
  | _ => none

/-- World steps as the board has them, and waits that yield. `close(2)` is called only for
descriptors that no lthread waits for, and a call does not go on with a descriptor that has
been closed, unless it was waiting for it then. -/
def orderly (x : Net) : NetLabel → Prop
  | .world a => World.stepOk true x.world a
  | .call _ _ _ timeout => timeout ≠ u64 - 1
  | .go _ => ∀ p ∈ x.current, p.2.gen = x.gen p.2.fd ∨ (p.2.fd, p.2.gen) ∈ x.hung p.1
  | .close fd => ∀ m ∈ x.world.sched.waiting, fdOnly (x.world.sched.lt m).fdWait ≠ fd
  | .peerWrite _ _ | .peerClose _ => True

instance (x : Net) : (a : NetLabel) → Decidable (x.orderly a)
  | .world a => inferInstanceAs (Decidable (World.stepOk true x.world a))
  | .call _ _ _ timeout => inferInstanceAs (Decidable (timeout ≠ u64 - 1))
  | .go _ => inferInstanceAs (Decidable (∀ p ∈ x.current, p.2.gen = x.gen p.2.fd ∨ (p.2.fd, p.2.gen) ∈ x.hung p.1))
  | .close fd => inferInstanceAs (Decidable (∀ m ∈ x.world.sched.waiting, fdOnly (x.world.sched.lt m).fdWait ≠ fd))
  | .peerWrite _ _ | .peerClose _ => inferInstanceAs (Decidable True)

end Net

def netMachine : Machine Net NetLabel where
  init x := ∃ birth capacity ioWorkers, x = Net.start (World.start birth capacity ioWorkers)
  step x a x' := x.step a = .ok x'

namespace Net

theorem exists_after {τ : Type} (ok : Net → NetLabel → Prop) [∀ x a, Decidable (ok x a)] (labels : List NetLabel)
    (see : Net → τ) {t : τ}
    (h : (Machine.replay (Machine.attempt step ok) labels
      (start (World.start 0 (fun _ => 0) IO_WORKERS))).map see = some t) :
    ∃ x, netMachine.Reachable ok x ∧ see x = t :=
  Machine.exists_reachable (M := netMachine) (fun _ _ _ h => h) ⟨0, _, IO_WORKERS, rfl⟩ labels see h

end Net
end Lthr
