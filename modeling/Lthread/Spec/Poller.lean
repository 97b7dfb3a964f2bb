import Lthread.Spec.Sched

/-! `lthread_epoll.c`: the epoll set. It keeps one event mask for each descriptor.
`EPOLL_CTL_MOD` and `EPOLL_CTL_ADD` replace the mask, `EPOLL_CTL_DEL` drops the
descriptor and fails if it is not there, and every mask has `EPOLLONESHOT`: once
an event of the descriptor has been delivered the mask is empty until the next
registration. The trigger is an eventfd, level triggered and never disarmed. -/

namespace Lthr

structure Interest where
  read : Bool
  write : Bool
  deriving DecidableEq, Repr

namespace Interest

def only : LtEvent → Interest
  | .read => { read := true, write := false }
  | .write => { read := false, write := true }

def has (i : Interest) : LtEvent → Bool
  | .read => i.read
  | .write => i.write

def disarmed : Interest := { read := false, write := false }

end Interest

abbrev Poller := Fd → Option Interest

def LT_MAX_EVENTS : ℕ := 1024

/-- An entry of `eventlist`: the eventfd, or a descriptor with what
`_lthread_poller_ev_is_eof` says of it. -/
inductive PollEvent
  | trigger
  | ready (fd : Fd) (eof : Bool)
  deriving DecidableEq, Repr

def PollEvent.fd? : PollEvent → Option Fd
  | .trigger => none
  | .ready fd _ => some fd

namespace Poller

/-- `_lthread_poller_ev_register_rd`, `_lthread_poller_ev_register_wr`, for a descriptor that
`epoll_ctl` accepts: it is open and not a regular file. For any other `assert(ret != -1)` fails. -/
def register (p : Poller) (fd : Fd) (e : LtEvent) : Poller :=
  Function.update p fd (some (Interest.only e))

/-- `_lthread_poller_ev_clear_rd` and `_lthread_poller_ev_clear_wr` both delete the
descriptor; `none` is the failing `assert(ret != -1)`. -/
def clear (p : Poller) (fd : Fd) : Option Poller :=
  match p fd with
  | none => none
  | some _ => some (Function.update p fd none)

def close (p : Poller) (fd : Fd) : Poller := Function.update p fd none

def armed (p : Poller) (fd : Fd) (e : LtEvent) : Bool :=
  match p fd with
  | none => false
  | some i => i.has e

def deliver (p : Poller) (evs : List PollEvent) : Poller := fun fd =>
  if some fd ∈ evs.map PollEvent.fd? then (p fd).map fun _ => Interest.disarmed else p fd

/-- What `epoll_wait` may return: at most `LT_MAX_EVENTS` entries, each descriptor
once and only if it is armed for something, the eventfd if it has been written. -/
def returns (p : Poller) (eventfd : ℕ) (evs : List PollEvent) : Prop :=
  evs.length ≤ LT_MAX_EVENTS ∧ (evs.map PollEvent.fd?).Nodup ∧
    ∀ ev ∈ evs, match ev with
      | .trigger => 0 < eventfd
      | .ready fd _ => p.armed fd .read = true ∨ p.armed fd .write = true

instance (p : Poller) (eventfd : ℕ) (evs : List PollEvent) : Decidable (p.returns eventfd evs) :=
  haveI : ∀ ev : PollEvent, Decidable (match ev with
      | .trigger => 0 < eventfd
      | .ready fd _ => p.armed fd .read = true ∨ p.armed fd .write = true) := fun ev =>
    match ev with
    | .trigger => inferInstanceAs (Decidable (0 < eventfd))
    | .ready _ _ => inferInstanceAs (Decidable (_ ∨ _))
  inferInstanceAs (Decidable (_ ∧ _ ∧ _))

end Poller
end Lthr
