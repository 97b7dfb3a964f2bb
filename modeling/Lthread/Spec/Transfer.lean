import Lthread.Spec.Socket

/-! The bytes of the socket calls, one call after the other on one descriptor: what
`LTHREAD_SEND`, `tcp_conn_write` and `lthread_writev` hand to the kernel, what `LTHREAD_RECV_EXACT`,
`net_conn_readfull` and `lthread_readline` make of a stream. Where the call switches, its
lthread comes back at some later time with any values of its two bits. -/

namespace Lthr

/-- What a call finds at the place it has reached: the bits `LT_ST_FDEOF` and
`LT_ST_EXPIRED` of its lthread, and what the system call returns if it is at one. -/
structure SockEnv where
  fdeof : Bool := false
  expired : Bool := false
  ret : SysRet := .again
  deriving DecidableEq, Repr

def SockCall.advance (c : SockCall) (a : SockEnv) : SockCall × Option ℤ :=
  match c.next a.fdeof a.expired a.ret with
  | .ret r _ => (c, some r)
  | .goto pc count => ({ c with pc := pc, count := count }, none)
  | .renice => ({ c with pc := .sys }, none)
  | .schedEvent _ _ => ({ c with pc := .waited }, none)

/-! `lthread_send` and `lthread_write` -/

structure Sending where
  call : SockCall
  accepted : List UInt8
  -- what the last system call returned; not stored by the program
  last : Option SysRet
  returned : Option ℤ
  deriving DecidableEq

namespace Sending

def start (fd : Fd) (length : ℕ) : Sending :=
  { call := ⟨.send, fd, length, 0, .top, 0, [], 0⟩, accepted := [], last := none, returned := none }

/-- The next thing the call does. `send(fd, buf + sent, length - sent)` takes some of the
bytes it is given. -/
def step (buf : List UInt8) (s : Sending) (a : SockEnv) : Except Fault Sending :=
  if s.returned ≠ none then .error .disabled
  else if s.call.pc = .sys then
    if a.ret.taken ≤ s.call.length - s.call.count then
      .ok { call := (s.call.advance a).1
            accepted := s.accepted ++ (buf.drop s.call.count).take a.ret.taken
            last := some a.ret
            returned := (s.call.advance a).2 }
    else .error .disabled
  else .ok { s with call := (s.call.advance a).1, returned := (s.call.advance a).2 }

end Sending

def sendMachine (buf : List UInt8) : Machine Sending SockEnv where
  init s := ∃ fd, s = Sending.start fd buf.length
  step s a s' := s.step buf a = .ok s'

/-! `tcp_conn_write` -/

/-- `tcp_conn_write`, to which `net_conn_write` comes on a tcp connection. -/
structure ConnWrite where
  len : ℕ
  writedN : ℕ
  call : SockCall
  accepted : List UInt8
  -- what the system calls have returned, and `none` where the descriptor is found to be hung up;
  -- not stored by the program
  log : List (Option SysRet)
  returned : Option ℤ
  deriving DecidableEq

namespace ConnWrite

def lthreadWrite (fd : Fd) (len : ℕ) : SockCall := ⟨.send, fd, len, 0, .top, 0, [], 0⟩

def start (fd : Fd) (len : ℕ) : ConnWrite :=
  { len := len, writedN := 0, call := lthreadWrite fd len, accepted := [], log := [], returned := none }

def writeReturned (s : ConnWrite) (ret : ℤ) : ConnWrite :=
  if 0 < ret then
    let len := s.len - ret.toNat
    let writedN := s.writedN + ret.toNat
    if 0 < len then { s with len := len, writedN := writedN, call := lthreadWrite s.call.fd len }
    else { s with len := len, writedN := writedN, returned := some writedN }
  else { s with returned := some s.writedN }

def proceed (s : ConnWrite) (p : SockCall × Option ℤ) : ConnWrite :=
  match p.2 with
  | none => { s with call := p.1 }
  | some ret => s.writeReturned ret

def step (buf : List UInt8) (s : ConnWrite) (a : SockEnv) : Except Fault ConnWrite :=
  if s.returned ≠ none then .error .disabled
  else if s.call.pc = .sys then
    if a.ret.taken ≤ s.call.length - s.call.count then
      .ok ({ s with accepted := s.accepted ++ (buf.drop (s.writedN + s.call.count)).take a.ret.taken
                    log := s.log ++ [some a.ret] }.proceed (s.call.advance a))
    else .error .disabled
  else if (s.call.advance a).2 = some (-1) then
    .ok ({ s with log := s.log ++ [none] }.proceed (s.call.advance a))
  else .ok (s.proceed (s.call.advance a))

end ConnWrite

def connWriteMachine (buf : List UInt8) : Machine ConnWrite SockEnv where
  init s := ∃ fd, s = ConnWrite.start fd buf.length
  step s a s' := s.step buf a = .ok s'

/-! `lthread_writev` -/

/-- The loop over the iovecs after `writev` has written `n` bytes, on those from `iov_index`
on: an iovec is skipped when all of it has been written, and the first one of which some
is left loses what has been written. -/
def iovAdvance : List (List UInt8) → ℕ → List (List UInt8)
  | [], _ => []
  | v :: iov, n =>
    if n = 0 then v :: iov
    else if n < v.length then v.drop n :: iov
    else iovAdvance iov (n - v.length)

structure Writev where
  iov : List (List UInt8)
  total : ℕ
  written : List UInt8
  returned : Option ℤ
  deriving DecidableEq

namespace Writev

def start (iov : List (List UInt8)) : Writev := { iov := iov, total := 0, written := [], returned := none }

/-- `writev(2)` writes some of the bytes that remain; 0 it returns only if there are none. -/
def allows (s : Writev) : SysRet → Prop
  | .done n => n ≤ s.iov.flatten.length ∧ (n = 0 → s.iov.flatten = [])
  | .again | .error => True

instance (s : Writev) : (r : SysRet) → Decidable (s.allows r)
  | .done n => inferInstanceAs (Decidable (n ≤ s.iov.flatten.length ∧ (n = 0 → s.iov.flatten = [])))
  | .again | .error => .isTrue trivial

def step (s : Writev) (r : SysRet) : Except Fault Writev :=
  if s.returned ≠ none ∨ ¬ s.allows r then .error .disabled
  else
    match r with
    | .done 0 => .ok { s with returned := some 0 }
    | .done (n + 1) =>
      let iov := iovAdvance s.iov (n + 1)
      .ok { iov := iov, total := s.total + (n + 1), written := s.written ++ s.iov.flatten.take (n + 1)
            returned := if iov = [] then some (s.total + (n + 1) : ℕ) else none }
    | .again => .ok { s with returned := if s.iov = [] then some s.total else none }
    | .error => .ok { s with returned := some (-1) }

def lthreadWritev (s : Writev) : List SysRet → Except Fault Writev
  | [] => .ok s
  | r :: rs => do
    let s ← s.step r
    s.lthreadWritev rs

end Writev

/-! The readers of a stream -/

def SockCall.readStep (c : SockCall) (s : Stream) (a : SockEnv) : Except Fault (Stream × SockCall × Option ℤ) :=
  if c.pc = .sys then
    if s.allows (c.length - c.count) a.ret then
      .ok ({ s with pending := s.pending.drop a.ret.taken },
        { c with buf := c.buf ++ s.pending.take a.ret.taken }.advance a)
    else .error .disabled
  else .ok (s, c.advance a)

inductive ReadLabel
  | go (a : SockEnv)
  | peerWrite (bytes : List UInt8)
  | peerClose
  deriving DecidableEq

/-- A stream with what the peer has written since the reader was at its start. -/
structure Source where
  stream : Stream
  wrote : List UInt8
  deriving DecidableEq

namespace Source

def peerWrite (s : Source) (bytes : List UInt8) : Except Fault Source :=
  if s.stream.closed then .error .disabled
  else .ok ⟨{ s.stream with pending := s.stream.pending ++ bytes }, s.wrote ++ bytes⟩

def peerClose (s : Source) : Source := { s with stream := { s.stream with closed := true } }

end Source

structure RecvExact where
  call : SockCall
  source : Source
  returned : Option ℤ
  deriving DecidableEq

namespace RecvExact

def start (fd : Fd) (length timeout : ℕ) (s : Stream) : RecvExact :=
  { call := ⟨.recvExact, fd, length, timeout, .top, 0, [], 0⟩, source := ⟨s, s.pending⟩, returned := none }

def step (x : RecvExact) : ReadLabel → Except Fault RecvExact
  | .go a =>
    if x.returned ≠ none then .error .disabled
    else do
      let (s, c, r) ← x.call.readStep x.source.stream a
      .ok { call := c, source := { x.source with stream := s }, returned := r }
  | .peerWrite bytes => do
    let s ← x.source.peerWrite bytes
    .ok { x with source := s }
  | .peerClose => .ok { x with source := x.source.peerClose }

end RecvExact

def recvExactMachine (length : ℕ) : Machine RecvExact ReadLabel where
  init x := ∃ fd timeout s, x = RecvExact.start fd length timeout s
  step x a x' := x.step a = .ok x'

structure ReadFull where
  len : ℕ
  m : ℕ
  n : ℕ
  buf : List UInt8
  -- the `lthread_read` it is in, called by `tcp_conn_read`
  call : Option SockCall
  source : Source
  returned : Option ℤ
  deriving DecidableEq

namespace ReadFull

def start (len : ℕ) (s : Stream) : ReadFull :=
  { len := len, m := 0, n := len, buf := [], call := none, source := ⟨s, s.pending⟩, returned := none }

def readReturned (x : ReadFull) (ret : ℤ) : ReadFull :=
  if ret ≤ 0 then { x with call := none, returned := some ret }
  else { x with call := none, n := x.n - ret.toNat, m := x.m + ret.toNat }

def go (x : ReadFull) (a : SockEnv) (fd : Fd) (timeout : ℕ) : Except Fault ReadFull :=
  match x.call with
  | none =>
    if 0 < x.n then .ok { x with call := some ⟨.recv, fd, x.n, timeout, .top, 0, [], 0⟩ }
    else .ok { x with returned := some x.len }
  | some c => do
    let (s, c, r) ← c.readStep x.source.stream a
    let x := { x with source := { x.source with stream := s } }
    match r with
    | none => .ok { x with call := some c }
    | some ret => .ok ({ x with buf := x.buf.take x.m ++ c.buf }.readReturned ret)

def step (fd : Fd) (timeout : ℕ) (x : ReadFull) : ReadLabel → Except Fault ReadFull
  | .go a => if x.returned ≠ none then .error .disabled else x.go a fd timeout
  | .peerWrite bytes => do
    let s ← x.source.peerWrite bytes
    .ok { x with source := s }
  | .peerClose => .ok { x with source := x.source.peerClose }

end ReadFull

def readFullMachine (fd : Fd) (timeout len : ℕ) : Machine ReadFull ReadLabel where
  init x := ∃ s, x = ReadFull.start len s
  step x a x' := x.step fd timeout a = .ok x'

structure LineCall where
  max : ℕ
  timeout : ℕ
  data : List UInt8
  call : Option SockCall
  deriving DecidableEq

/-- One that has returned, with the line that it has stored in `*buf`. -/
structure LineRet where
  max : ℕ
  result : ℤ
  line : List UInt8
  deriving DecidableEq

structure Readline where
  source : Source
  cur : Option LineCall
  done : List LineRet
  deriving DecidableEq

inductive LineLabel
  -- `lthread_readline` is called; `data` says whether its buffer could be allocated
  | readline (max timeout : ℕ) (data : Bool)
  | read (a : ReadLabel)
  deriving DecidableEq

def newline : UInt8 := 10

namespace Readline

def start (s : Stream) : Readline := { source := ⟨s, s.pending⟩, cur := none, done := [] }

def finish (x : Readline) (q : LineRet) : Readline := { x with cur := none, done := x.done ++ [q] }

/-- `lthread_recv` has returned `r`, with `byte` in the buffer it was given. -/
def recvReturned (x : Readline) (q : LineCall) (r : ℤ) (byte : List UInt8) : Readline :=
  if r = 0 ∨ r = -2 ∨ r = -1 then x.finish ⟨q.max, r, []⟩
  else if byte = [newline] then x.finish ⟨q.max, q.data.length + 1, q.data ++ byte⟩
  else { x with cur := some { q with data := q.data ++ byte, call := none } }

def go (fd : Fd) (x : Readline) (q : LineCall) (a : SockEnv) : Except Fault Readline :=
  match q.call with
  | none =>
    if q.data.length < q.max then
      .ok { x with cur := some { q with call := some ⟨.recv, fd, 1, q.timeout, .top, 0, [], 0⟩ } }
    else .ok (x.finish ⟨q.max, q.data.length, q.data⟩)
  | some c => do
    let (s, c, r) ← c.readStep x.source.stream a
    let x := { x with source := { x.source with stream := s } }
    match r with
    | none => .ok { x with cur := some { q with call := some c } }
    | some r => .ok (x.recvReturned q r c.buf)

def step (fd : Fd) (x : Readline) : LineLabel → Except Fault Readline
  | .readline max timeout data =>
    if x.cur ≠ none then .error .disabled
    else if data then .ok { x with cur := some ⟨max, timeout, [], none⟩ }
    else .ok (x.finish ⟨max, -1, []⟩)
  | .read (.go a) =>
    match x.cur with
    | none => .error .disabled
    | some q => x.go fd q a
  | .read (.peerWrite bytes) => do
    let s ← x.source.peerWrite bytes
    .ok { x with source := s }
  | .read .peerClose => .ok { x with source := x.source.peerClose }

end Readline

def readlineMachine (fd : Fd) : Machine Readline LineLabel where
  init x := ∃ s, x = Readline.start s
  step x a x' := x.step fd a = .ok x'

end Lthr
