import Lthread.Lib.ActsAt
import Lthread.Spec.World

/-! The board: the abstract model of a scheduler with its workers. It has a seat for
every lthread, which holds its record and how often it is in each of the structures.
A step of the program is a sequence of turns on the board, and a turn moves one
lthread, or an lthread and the other end of its join, in a way that can be read off
that seat. The order of the queues, the poller and the channels are not on the board. -/

namespace Lthr

structure Counts where
  ready : ℕ := 0
  sleeping : ℕ := 0
  waiting : ℕ := 0
  busy : ℕ := 0
  defer : ℕ := 0
  blocked : CondId → ℕ := 0
  io : ℕ → ℕ := 0
  compute : ℕ → ℕ := 0
  taken : ℕ → ℕ := 0

structure Seat where
  lt : Lt
  cnt : Counts

def Ctx.cond : Ctx → Option (CondId × ℕ)
  | .condWait c t => some (c, t)
  | .selWait s t => some (.sel s, t)
  | _ => none

def LtSt.free : LtSt → Bool
  | .ready | .busy | .expired | .fdeof | .detach | .waitMulti => true
  | _ => false

/-- The two records differ in free bits and in fields that do not place the lthread. -/
structure Lt.Same (a b : Lt) : Prop where
  state : ∀ s : LtSt, s.free = false → b.state s = a.state s
  ctx : b.ctx = a.ctx
  fdWait : b.fdWait = a.fdWait
  computeSched : b.computeSched = a.computeSched

/-- The same, with the fields of a join and the expiry of a timeout kept too. -/
structure Lt.Alike (a b : Lt) : Prop extends Lt.Same a b where
  ltJoin : b.ltJoin = a.ltJoin
  ltExitPtr : b.ltExitPtr = a.ltExitPtr
  freed : b.freed = a.freed
  detach : b.state .detach = a.state .detach
  expired : b.state .expired = true → a.state .expired = true

namespace Seat

def Finished (v : Seat) : Prop := v.lt.ctx = .exited ∨ v.lt.state .cancelled = true

def onLt (f : Lt → Lt) (v : Seat) : Seat := { v with lt := f v.lt }

def deschedSleep (v : Seat) : Seat :=
  if v.lt.state .sleeping then
    { lt := ((v.lt.clearBit .sleeping).setBit .ready).clearBit .expired
      cnt := { v.cnt with sleeping := v.cnt.sleeping - 1 } }
  else v

/-- `_lthread_sched_sleep` up to the yield, with the deadline it finds. -/
def schedSleep (msecs usecs : ℕ) (v : Seat) : Seat :=
  if msecs = 0 then { v with lt := { v.lt with sleepUsecs := usecs, ops := 0 } }
  else
    { lt := { v.lt.setBit .sleeping with sleepUsecs := usecs, ops := 0 }
      cnt := { v.cnt with sleeping := v.cnt.sleeping + 1 } }

def schedSleepEnd (msecs : ℕ) (v : Seat) : Seat :=
  { v with lt := { (if 0 < msecs then v.lt.clearBit .sleeping else v.lt) with sleepUsecs := 0 } }

def addReady (v : Seat) : Seat := { v with cnt := { v.cnt with ready := v.cnt.ready + 1 } }

def addBusy (v : Seat) : Seat := { v with cnt := { v.cnt with busy := v.cnt.busy + 1 } }
def dropBusy (v : Seat) : Seat := { v with cnt := { v.cnt with busy := v.cnt.busy - 1 } }

def freeDetached (v : Seat) : Seat :=
  if v.lt.state .detach then onLt ({ · with freed := true }) v else v

def unbusy (v : Seat) : Seat := if v.lt.state .busy then dropBusy v else v

def dropReady (v : Seat) : Seat := { v with cnt := { v.cnt with ready := v.cnt.ready - 1 } }
def addWaiting (v : Seat) : Seat := { v with cnt := { v.cnt with waiting := v.cnt.waiting + 1 } }
def dropWaiting (v : Seat) : Seat := { v with cnt := { v.cnt with waiting := v.cnt.waiting - 1 } }
def addDefer (v : Seat) : Seat := { v with cnt := { v.cnt with defer := v.cnt.defer + 1 } }
def dropDefer (v : Seat) : Seat := { v with cnt := { v.cnt with defer := v.cnt.defer - 1 } }

def addBlocked (c : CondId) (v : Seat) : Seat :=
  { v with cnt := { v.cnt with blocked := bump v.cnt.blocked c } }

def dropBlocked (c : CondId) (v : Seat) : Seat :=
  { v with cnt := { v.cnt with blocked := lower v.cnt.blocked c } }

def condWaitEnd (c : CondId) (t : ℕ) (v : Seat) : Seat :=
  let w := dropBusy (onLt (·.clearBit .busy) (schedSleepEnd t v))
  if w.lt.state .expired then dropBlocked c w else w

/-- The rest of the call an lthread is suspended in, as far as its own seat goes. -/
def afterYield (v : Seat) : Seat :=
  match v.lt.ctx with
  | .slept t => schedSleepEnd t v
  | .condWait c t => condWaitEnd c t v
  | .selWait s t => condWaitEnd (.sel s) t v
  | .joining _ t => dropBusy (onLt (·.clearBit .busy) (schedSleepEnd t v))
  | .schedEvent _ e t =>
    onLt (·.clearBit (waitBit e)) (onLt ({ · with fdWait := -1 }) (schedSleepEnd t v))
  | .ioWait e _ => onLt (·.clearBit (waitIoBit e)) v
  | _ => v

def init (v : Seat) : Seat :=
  if v.lt.state .new then onLt ({ · with state := fun b => decide (b = .ready) }) v else v

def switched (v : Seat) : Seat := onLt ({ · with ctx := .running }) (afterYield (init v))

/-- The seat of an lthread before and after `lthread_cancel`, which has put it on the
ready queue `d` times. -/
structure Cancels (d : ℕ) (v w : Seat) : Prop where
  ctx : w.lt.ctx = v.lt.ctx
  ltJoin : w.lt.ltJoin = v.lt.ltJoin
  ltExitPtr : w.lt.ltExitPtr = v.lt.ltExitPtr
  freed : w.lt.freed = v.lt.freed
  computeSched : w.lt.computeSched = v.lt.computeSched
  fdWait : w.lt.fdWait = -1
  cnt : w.cnt = { v.cnt with ready := v.cnt.ready + d, sleeping := 0, waiting := 0 }
  sleeping : w.lt.state .sleeping = false
  cancelled : w.lt.state .cancelled = true
  detach : w.lt.state .detach = v.lt.state .detach
  expired : w.lt.state .expired = true → v.lt.state .expired = true
  bits : ∀ b, b ≠ .sleeping → b ≠ .cancelled → b.free = false → (∀ e, b ≠ waitBit e) →
    w.lt.state b = v.lt.state b
  wait : ∀ e, w.lt.state (waitBit e) = true → v.lt.state (waitBit e) = true

/-- The seat of a sleeper before and after `_lthread_resume_expired` has taken it out of
the trees. -/
structure Expires (v w : Seat) : Prop where
  ctx : w.lt.ctx = v.lt.ctx
  ltJoin : w.lt.ltJoin = v.lt.ltJoin
  ltExitPtr : w.lt.ltExitPtr = v.lt.ltExitPtr
  freed : w.lt.freed = v.lt.freed
  fdWait : w.lt.fdWait = -1
  cnt : w.cnt = { v.cnt with sleeping := 0, waiting := 0 }
  sleeping : w.lt.state .sleeping = false
  detach : w.lt.state .detach = v.lt.state .detach
  expired : w.lt.state .expired = true
  bits : ∀ b, b ≠ .sleeping → b.free = false → (∀ e, b ≠ waitBit e) → w.lt.state b = v.lt.state b
  wait : ∀ e, w.lt.state (waitBit e) = true → v.lt.state (waitBit e) = true

end Seat

/-- The lthreads whose job an io worker has and has not handed back. -/
def IoWorker.jobs (x : IoWorker) : List LtId :=
  match x.pc with
  | .working l => l :: x.lthreads
  | _ => x.lthreads

/-- The lthread that a compute thread has taken from its queue and not handed back. -/
def ComputePc.owned : ComputePc → List LtId
  | .taken l | .working l | .ended l => [l]
  | _ => []

def seatOf (s : Sched) (io : ℕ → IoWorker) (compute : ℕ → ComputeSched) (l : LtId) : Seat :=
  { lt := s.lt l
    cnt :=
      { ready := s.ready.count l
        sleeping := s.sleeping.count l
        waiting := s.waiting.count l
        busy := s.busy.count l
        defer := s.defer.count l
        blocked := fun c => (s.blocked c).count l
        io := fun w => (io w).jobs.count l
        compute := fun k => (compute k).lthreads.count l
        taken := fun k => (compute k).pc.owned.count l } }

def World.seat (x : World) : LtId → Seat := seatOf x.sched x.io x.compute

/-- `_lthread_resume_expired` is the loop that `lthread_run` is in. -/
def Phase.expiring : Phase → Bool
  | .expired _ => true
  | _ => false

structure Board where
  seat : LtId → Seat
  cpu : Cpu
  spawned : ℕ
  expiring : Bool
  dropped : LtId → Bool

def World.board (x : World) : Board := ⟨x.seat, x.cpu, x.sched.spawned, x.phase.expiring, x.dropped⟩

/-- What a rule may allow or forbid: the calls that concern another lthread for good or
end the one that makes them, the waits for descriptors, and that an lthread is resumed. -/
inductive Call
  | cancel (target : LtId)
  | join (l target : LtId)
  | detach (target : LtId)
  | exit (l : LtId)
  | wait (l : LtId) (fd : Fd) (e : LtEvent)
  | close (fd : Fd)
  | resume (l : LtId)

def Op.toCall (l : LtId) : Op → Option Call
  | .cancel target => some (.cancel target)
  | .join target _ _ => some (.join l target)
  | .detach => some (.detach l)
  | .detach2 target => some (.detach target)
  | .exit _ | .finish => some (.exit l)
  | .schedEvent fd e _ => some (.wait l fd e)
  | .close fd => some (.close fd)
  | _ => none

abbrev Rules := Board → Call → Prop

open Seat

/-- The calls other than a join with which a running lthread leaves the cpu, with what
they store. -/
inductive Entry
  | yield
  | sleep (msecs usecs : ℕ)
  | block (c : Ctx) (i : CondId) (timeout usecs : ℕ)
  | event (fd : Fd) (e : LtEvent) (timeout usecs : ℕ)
  | io (e : LtEvent) (w : ℕ)
  | compute (j : ℕ)
  | exit

namespace Entry

def act : Entry → Seat → Seat
  | .yield => fun v => onLt ({ · with ops := 0, ctx := .yielded }) (addReady v)
  | .sleep n u => fun v => onLt ({ · with ctx := .slept n }) (schedSleep n u v)
  | .block c i n u => fun v => onLt ({ · with ctx := c })
      (schedSleep n u (onLt (·.setBit .busy) (addBusy (addBlocked i v))))
  | .event fd e n u => fun v => onLt ({ · with ctx := .schedEvent fd e n })
      (schedSleep n u (addWaiting (onLt (fun lt => { lt.setBit (waitBit e) with fdWait := fdKey fd e }) v)))
  | .io e w => fun v =>
      { lt := { v.lt.setBit (waitIoBit e) with ctx := .ioWait e w }
        cnt := { v.cnt with busy := v.cnt.busy + 1, io := bump v.cnt.io w } }
  | .compute j => fun v =>
      { lt := { v.lt.setBit .pendingRuncompute with computeSched := some j, ctx := .compute j }
        cnt := { v.cnt with compute := bump v.cnt.compute j } }
  | .exit => onLt fun lt => { lt.setBit .exited with ops := 0, ctx := .exited }

def ctx : Entry → Ctx
  | .yield => .yielded
  | .sleep n _ => .slept n
  | .block c _ _ _ => c
  | .event fd e n _ => .schedEvent fd e n
  | .io e w => .ioWait e w
  | .compute j => .compute j
  | .exit => .exited

def cpu (l : LtId) : Entry → Cpu
  | .io _ w => .ioAdd l w
  | .compute _ => .leaving l
  | _ => .back l

def toCall (l : LtId) : Entry → Option Call
  | .exit => some (.exit l)
  | .event fd e _ _ => some (.wait l fd e)
  | _ => none

def Valid (σ : LtId → Seat) (l : LtId) : Entry → Prop
  | .sleep n _ => n ≠ 0
  | .block c i n _ => c.cond = some (i, n) ∧ ∀ m t, c.cond = some (.sel (.stack m), t) → m = l
  | .event fd e _ _ => ∀ m, (σ m).cnt.waiting ≠ 0 → (σ m).lt.fdWait ≠ fdKey fd e
  | _ => True

end Entry

/-- How one of the loops of `lthread_run` takes an lthread from where it found it. -/
inductive Take
  | ready
  | defer
  | event (eof : Bool)
  | expired (w : Seat)

namespace Take

def act : Take → Seat → Seat
  | .ready => dropReady
  | .defer => fun v => dropBusy (dropDefer v)
  | .event eof => fun v =>
      let w := deschedSleep (dropWaiting v)
      if eof then onLt (·.setBit .fdeof) w else w
  | .expired w => fun _ => w

def Finds (v : Seat) : Take → Prop
  | .ready => v.cnt.ready ≠ 0
  | .defer => v.cnt.defer ≠ 0
  | .event _ => v.cnt.waiting ≠ 0
  | .expired w => v.cnt.sleeping ≠ 0 ∧ v.Expires w

end Take

def joinAct (target : LtId) (ptr : Option ℕ) (n u : ℕ) (v : Seat) : Seat :=
  onLt ({ · with ctx := .joining target n })
    (schedSleep n u (onLt (·.setBit .busy) (addBusy (onLt ({ · with ltExitPtr := ptr }) v))))

/-- "if an lthread was joining on it, schedule it to run" -/
def WakesJoiner (σ σ' : LtId → Seat) (l : LtId) : Prop :=
  match (σ l).lt.ltJoin with
  | none => σ' = σ
  | some j => ∃ σ₁, ActsAt σ σ₁ j (addReady ∘ deschedSleep) ∧ ActsAt σ₁ σ' l (onLt ({ · with ltJoin := none }))

/-- The cancellation of `l` takes the registration of another lthread, if it has found
that under the key of `l`. -/
def Strays (σ σ' : LtId → Seat) (l : LtId) : Prop :=
  σ' = σ ∨ ∃ m ≠ l, (σ m).cnt.waiting ≠ 0 ∧ (σ m).lt.fdWait = (σ l).lt.fdWait ∧
    ActsAt σ σ' m (deschedSleep ∘ dropWaiting)

/-- What the rest of the call of `l` does to another seat: a join that has timed out
takes its pointer back, one that has not frees its target. -/
def JoinEnds (σ σ' : LtId → Seat) (l : LtId) : Prop :=
  match (σ l).lt.ctx with
  | .joining target _ => (σ target).lt.freed = false ∧
      if (σ l).lt.state .expired then ActsAt σ σ' target (onLt ({ · with ltJoin := none }))
      else ActsAt σ σ' target (onLt ({ · with freed := true }))
  | _ => σ' = σ

inductive Turn (R : Rules) (b : Board) : Board → Prop
  | note {σ : LtId → Seat} {l : LtId} {f : Lt → Lt} (hf : ∀ lt, Lt.Alike lt (f lt))
      (hm : ActsAt b.seat σ l (onLt f)) : Turn R b { b with seat := σ }
  | detach {σ : LtId → Seat} {l : LtId} (hr : R b (.detach l))
      (hm : ActsAt b.seat σ l (onLt (·.setBit .detach))) : Turn R b { b with seat := σ }
  | create {σ : LtId → Seat}
      (hm : ActsAt b.seat σ b.spawned fun v =>
        { lt := Sched.newLt, cnt := { v.cnt with ready := v.cnt.ready + 1 } }) :
      Turn R b { b with seat := σ, spawned := b.spawned + 1 }
  | signal {σ : LtId → Seat} {l : LtId} {i : CondId} (hb : (b.seat l).cnt.blocked i ≠ 0)
      (hm : ActsAt b.seat σ l (addReady ∘ deschedSleep ∘ dropBlocked i)) :
      Turn R b { b with seat := σ }
  | close {σ : LtId → Seat} {l : LtId} {fd : Fd} {e : LtEvent} (hr : R b (.close fd))
      (hw : (b.seat l).cnt.waiting ≠ 0) (hkey : (b.seat l).lt.fdWait = fdKey fd e)
      (hm : ActsAt b.seat σ l (addReady ∘ deschedSleep ∘ dropWaiting)) :
      Turn R b { b with seat := σ }
  | wakeup {σ : LtId → Seat} {l : LtId} {t : ℕ} (hx : (b.seat l).lt.ctx = .slept t)
      (hs : (b.seat l).lt.state .sleeping = true)
      (hm : ActsAt b.seat σ l (deschedSleep ∘ addReady)) : Turn R b { b with seat := σ }
  | enter {σ : LtId → Seat} {l : LtId} (e : Entry) (hcpu : b.cpu = .run l) (hv : e.Valid b.seat l)
      (hr : ∀ c, e.toCall l = some c → R b c) (hm : ActsAt b.seat σ l e.act) :
      Turn R b { b with seat := σ, cpu := e.cpu l }
  | join {σ₁ σ : LtId → Seat} {l target : LtId} {ptr : Option ℕ} {n u : ℕ} (hr : R b (.join l target))
      (hcpu : b.cpu = .run l) (hlt : target < b.spawned) (hf : (b.seat target).lt.freed = false)
      (hx : (b.seat target).lt.state .exited = false)
      (h1 : ActsAt b.seat σ₁ target (onLt ({ · with ltJoin := some l })))
      (hm : ActsAt σ₁ σ l (joinAct target ptr n u)) : Turn R b { b with seat := σ, cpu := .back l }
  | joinExited {σ₁ σ : LtId → Seat} {l target : LtId} {ptr : Option ℕ} (hr : R b (.join l target))
      (hcpu : b.cpu = .run l)
      (hf : (b.seat target).lt.freed = false) (hx : (b.seat target).lt.state .exited = true)
      (h1 : ActsAt b.seat σ₁ l (onLt ({ · with ltExitPtr := ptr })))
      (hm : ActsAt σ₁ σ target (onLt ({ · with ltJoin := some l, freed := true }))) :
      Turn R b { b with seat := σ }
  | cancel {σ₁ σ : LtId → Seat} {l : LtId} {d : ℕ} {w : Seat} (hr : R b (.cancel l)) (hl : l < b.spawned)
      (hf : (b.seat l).lt.freed = false) (hrun : (b.seat l).lt.ctx ≠ .running) (hc : (b.seat l).Cancels d w)
      (hins : d ≠ 0 → (b.seat l).lt.state .pendingRuncompute = false ∧
        (∀ e, (b.seat l).lt.state (waitIoBit e) = false) ∧ (b.seat l).lt.state .runcompute = false ∧
          ((b.seat l).cnt.defer ≠ 0 → ∀ j, (b.seat l).lt.ctx ≠ .compute j))
      (h1 : Strays b.seat σ₁ l) (hm : ActsAt σ₁ σ l fun _ => w) : Turn R b { b with seat := σ }
  | resume {σ₁ σ₂ σ : LtId → Seat} {l : LtId} (t : Take) (hr : R b (.resume l)) (hcpu : b.cpu = .loop)
      (hf : (b.seat l).lt.freed = false) (hc : (b.seat l).lt.state .cancelled = false)
      (ht : t.Finds (b.seat l)) (he : ∀ w, t = .expired w → b.expiring = true)
      (h1 : ActsAt b.seat σ₁ l t.act) (h2 : JoinEnds σ₁ σ₂ l) (hm : ActsAt σ₂ σ l switched) :
      Turn R b { b with seat := σ, cpu := .run l }
  -- a cancelled lthread is taken from the ready queue or from the defer queue, and dropped
  | drop {σ₁ σ₂ σ : LtId → Seat} {l : LtId} (t : Take) (hcpu : b.cpu = .loop)
      (hf : (b.seat l).lt.freed = false) (hc : (b.seat l).lt.state .cancelled = true)
      (hq : t = .ready ∨ t = .defer) (ht : t.Finds (b.seat l)) (h1 : ActsAt b.seat σ₁ l t.act)
      (h2 : WakesJoiner σ₁ σ₂ l) (hm : ActsAt σ₂ σ l (unbusy ∘ freeDetached)) :
      Turn R b { b with seat := σ, dropped := Function.update b.dropped l true }
  -- `_lthread_resume` ends for an lthread that has exited
  | finish {σ₁ σ : LtId → Seat} {l : LtId} (hcpu : b.cpu = .back l) (hf : (b.seat l).lt.freed = false)
      (hx : (b.seat l).lt.state .exited = true) (h1 : WakesJoiner b.seat σ₁ l)
      (hm : ActsAt σ₁ σ l freeDetached) : Turn R b { b with seat := σ, cpu := .loop }
  | computeAdd {σ : LtId → Seat} {l : LtId} (hcpu : b.cpu = .back l)
      (hp : (b.seat l).lt.state .pendingRuncompute = true)
      (hm : ActsAt b.seat σ l fun v =>
        { lt := (v.lt.clearBit .pendingRuncompute).setBit .runcompute
          cnt := { v.cnt with busy := v.cnt.busy + 1 } }) :
      Turn R b { b with seat := σ, cpu := .computeAdd l }
  | switch {l : LtId} (hcpu : b.cpu = .leaving l ∨ ∃ w, b.cpu = .ioAdd l w) :
      Turn R b { b with cpu := .back l }
  -- `_lthread_resume` ends for an lthread that has not exited
  | back {l : LtId} (hcpu : b.cpu = .computeAdd l ∨ b.cpu = .back l ∧
      (b.seat l).lt.state .pendingRuncompute = false ∧ (b.seat l).lt.state .exited = false)
      (he : (b.seat l).lt.state .expired = false ∨ (b.seat l).lt.ctx = .exited) : Turn R b { b with cpu := .loop }
  | phase {e : Bool} (hcpu : b.cpu = .loop) : Turn R b { b with expiring := e }
  | ioDone {σ : LtId → Seat} {l : LtId} {w : ℕ} (hw : (b.seat l).cnt.io w ≠ 0)
      (hm : ActsAt b.seat σ l fun v =>
        { v with cnt := { v.cnt with defer := v.cnt.defer + 1, io := lower v.cnt.io w } }) :
      Turn R b { b with seat := σ }
  | taken {σ : LtId → Seat} {l : LtId} {j : ℕ} (hj : (b.seat l).cnt.compute j ≠ 0)
      (hp : (b.seat l).lt.state .pendingRuncompute = false)
      (hm : ActsAt b.seat σ l fun v =>
        { v with cnt := { v.cnt with
          compute := lower v.cnt.compute j, taken := bump v.cnt.taken j } }) :
      Turn R b { b with seat := σ }
  | computed {σ : LtId → Seat} {l : LtId} {j : ℕ} (hj : (b.seat l).cnt.taken j ≠ 0)
      (hm : ActsAt b.seat σ l fun v =>
        { lt := v.lt.clearBit .runcompute
          cnt := { v.cnt with defer := v.cnt.defer + 1, taken := lower v.cnt.taken j } }) :
      Turn R b { b with seat := σ }

abbrev Turns (R : Rules) : Board → Board → Prop := Relation.ReflTransGen (Turn R)

end Lthr
