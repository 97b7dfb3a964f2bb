import Lthread.Spec.Runs

/-! The mutexes of `lthread.c`. A mutex is a counter, the id of its holder and a condition
variable; `lthread_mutex_lock` is cut where it waits on that. -/

namespace Lthr

/-- `struct lthread_mutex` without its condition variable. -/
structure Mutex where
  locked : ℕ
  lthread : LtId
  deriving DecidableEq, Repr

/-- The condition variable `c` of mutex `m`: those with even numbers are in mutexes. -/
def mutexCond (m : ℕ) : ℕ := 2 * m

def INT_MAX : ℕ := 2 ^ 31 - 1

def Label.onMutex : Label → Bool
  | .call (.condWait c _) | .call (.condSignal c) | .call (.condBroadcast c) => c % 2 = 0
  | _ => false

def Label.calls : Label → Bool
  | .call _ => true
  | _ => false

structure Locks where
  world : World
  mutex : ℕ → Mutex
  -- the mutex that an lthread in the loop of `lthread_mutex_lock` is after
  locking : LtId → Option ℕ

inductive LockLabel
  -- a step of the world that is not part of a mutex call
  | world (a : Label)
  | lock (m : ℕ)
  -- it has returned from `lthread_cond_wait` in there
  | go
  | unlock (m : ℕ)

namespace Locks

/-- `lthread_mutex_lock` returns to `l` and leaves the mutex as `v`. -/
def acquired (x : Locks) (l : LtId) (m : ℕ) (v : Mutex) : Locks :=
  { x with mutex := Function.update x.mutex m v, locking := Function.update x.locking l none }

def lockLoop (x : Locks) (l : LtId) (m : ℕ) : Except Fault Locks :=
  if (x.mutex m).locked ≠ 0 then do
    let w ← x.world.advance (.call (.condWait (mutexCond m) 3000))
    .ok { x with world := w, locking := Function.update x.locking l (some m) }
  else .ok (x.acquired l m ⟨1, l⟩)

/-- `lthread_mutex_lock`; an overflow of the counter is not defined. -/
def lthreadMutexLock (x : Locks) (l : LtId) (m : ℕ) : Except Fault Locks :=
  if (x.mutex m).locked ≠ 0 ∧ (x.mutex m).lthread = l then
    if (x.mutex m).locked = INT_MAX then .error .disabled
    else .ok (x.acquired l m { x.mutex m with locked := (x.mutex m).locked + 1 })
  else x.lockLoop l m

/-- `lthread_mutex_unlock`; it does not stop when the mutex is another lthread's. -/
def lthreadMutexUnlock (x : Locks) (m : ℕ) : Except Fault Locks :=
  if (x.mutex m).locked = 0 then .ok x
  else do
    let w ← x.world.advance (.call (.condBroadcast (mutexCond m)))
    .ok { x with
      world := w
      mutex := Function.update x.mutex m { x.mutex m with locked := (x.mutex m).locked - 1 } }

def idle (x : Locks) : Prop := ∀ l, x.world.cpu = .run l → x.locking l = none

instance (x : Locks) : Decidable x.idle := inferInstanceAs (Decidable (∀ l, x.world.cpu = .run l → x.locking l = none))

def advance (x : Locks) : LockLabel → Except Fault Locks
  | .world a =>
    if a.onMutex = false ∧ (a.calls = true → x.idle) then do
      let w ← x.world.advance a
      .ok { x with world := w }
    else .error .disabled
  | .lock m =>
    match x.world.cpu with
    | .run l => if x.locking l = none then x.lthreadMutexLock l m else .error .disabled
    | _ => .error .disabled
  | .go =>
    match x.world.cpu with
    | .run l =>
      match x.locking l with
      | some m => x.lockLoop l m
      | none => .error .disabled
    | _ => .error .disabled
  | .unlock m =>
    match x.world.cpu with
    | .run l => if x.locking l = none then x.lthreadMutexUnlock m else .error .disabled
    | _ => .error .disabled

def step (x : Locks) (a : LockLabel) : Except Fault Locks := do
  let x' ← x.advance a
  if x'.world.sched.ready.Nodup then .ok x' else .error .relinked

def start (w : World) : Locks := { world := w, mutex := fun _ => ⟨0, 0⟩, locking := fun _ => none }

end Locks

def lockMachine : Machine Locks LockLabel where
  init x := ∃ birth capacity ioWorkers, x = Locks.start (World.start birth capacity ioWorkers)
  step x a x' := x.step a = .ok x'

/-! The calls of a run, counted beside it -/

/-- How often `lthread_mutex_lock` of a mutex has returned to an lthread, and how often it has
called `lthread_mutex_unlock` for one of these locks. -/
structure Tally where
  locks : ℕ
  unlocks : ℕ
  le : unlocks ≤ locks

namespace Tally

def none : Tally := ⟨0, 0, le_rfl⟩

def held (t : Tally) : ℕ := t.locks - t.unlocks

def lock (t : Tally) : Tally := ⟨t.locks + 1, t.unlocks, t.le.trans (Nat.le_succ _)⟩

/-- An unlock without a lock that it could undo is surplus, and is not counted. -/
def unlock (t : Tally) : Tally :=
  if h : t.unlocks < t.locks then ⟨t.locks, t.unlocks + 1, h⟩ else t

end Tally

abbrev LockLog := ℕ → LtId → Tally

namespace LockLog

def empty : LockLog := fun _ _ => Tally.none

def count (log : LockLog) (m : ℕ) (l : LtId) (f : Tally → Tally) : LockLog :=
  Function.update log m (Function.update (log m) l (f (log m l)))

end LockLog

namespace Locks

/-- Only the calls and returns are looked at, and not what they do to the mutex. -/
def noteLock (x : Locks) (a : LockLabel) (x' : Locks) (log : LockLog) : LockLog :=
  match a, x.world.cpu with
  | .lock m, .run l => if x'.locking l = none then log.count m l Tally.lock else log
  | .go, .run l =>
    match x.locking l with
    | some m => if x'.locking l = none then log.count m l Tally.lock else log
    | none => log
  | .unlock m, .run l => log.count m l Tally.unlock
  | _, _ => log

/-- An lthread unlocks only a mutex that it holds, or one that is free. -/
def unlocksOwn (p : Locks × LockLog) : LockLabel → Prop
  | .world a => p.1.world.undisturbed a
  | .unlock m => ∀ l, p.1.world.cpu = .run l → 0 < (p.2 m l).held ∨ (p.1.mutex m).locked = 0
  | .lock _ | .go => True

instance (p : Locks × LockLog) : (a : LockLabel) → Decidable (unlocksOwn p a)
  | .world a => inferInstanceAs (Decidable (p.1.world.undisturbed a))
  | .unlock m =>
    inferInstanceAs (Decidable (∀ l, p.1.world.cpu = .run l → 0 < (p.2 m l).held ∨ (p.1.mutex m).locked = 0))
  | .lock _ | .go => .isTrue trivial

end Locks

def lockHistory : Machine (Locks × LockLog) LockLabel := lockMachine.observe LockLog.empty Locks.noteLock

namespace Locks

def notedStep (p : Locks × LockLog) (a : LockLabel) : Except Fault (Locks × LockLog) := do
  let x' ← p.1.step a
  .ok (x', noteLock p.1 a x' p.2)

theorem notedStep_ok {p p' : Locks × LockLog} {a : LockLabel} (h : notedStep p a = .ok p') : lockHistory.step p a p' := by
  obtain ⟨x', hx, hp⟩ := except_bind_ok h
  obtain rfl := Except.ok.inj hp
  exact ⟨hx, rfl⟩

theorem exists_after {τ : Type} (ok : Locks × LockLog → LockLabel → Prop) [∀ p a, Decidable (ok p a)]
    (labels : List LockLabel) (see : Locks × LockLog → τ) {t : τ}
    (h : (Machine.replay (Machine.attempt notedStep ok) labels
      (start (World.start 0 (fun _ => 0) IO_WORKERS), LockLog.empty)).map see = some t) :
    ∃ p, lockHistory.Reachable ok p ∧ see p = t :=
  Machine.exists_reachable (M := lockHistory) (fun _ _ _ => notedStep_ok) ⟨⟨0, _, IO_WORKERS, rfl⟩, rfl⟩ labels see h

end Locks
end Lthr
