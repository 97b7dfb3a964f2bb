import Lthread.Spec.World

/-! Conditions on the steps of a run, and runs given by their labels. -/

namespace Lthr

def Ctx.isCompute : Ctx → Bool
  | .compute _ => true
  | _ => false

def Ctx.isSlept : Ctx → Bool
  | .slept _ => true
  | _ => false

def Ctx.joinsOn : Ctx → Option LtId
  | .joining target _ => some target
  | _ => none

/-- A call of which `lthread_cancel` undoes what it has registered, or leaves it to a worker. -/
def Ctx.severable : Ctx → Bool
  | .slept _ | .schedEvent _ _ _ | .ioWait _ _ | .compute _ => true
  | _ => false

instance (c : Ctx) : Decidable (∀ j, c ≠ .compute j) :=
  decidable_of_iff (c.isCompute = false) (by cases c <;> simp [Ctx.isCompute])

instance (c : Ctx) : Decidable (∃ t, c = .slept t) :=
  decidable_of_iff (c.isSlept = true) (by cases c <;> simp [Ctx.isSlept])

def Label.ends : Label → Bool
  | .call (.exit _) | .call .finish => true
  | _ => false

def Label.waitsFor : Label → Option Fd
  | .call (.schedEvent fd _ _) => some fd
  | _ => none

def Label.closes : Label → Option Fd
  | .call (.close fd) => some fd
  | _ => none

def Label.cancels : Label → Option LtId
  | .call (.cancel target) => some target
  | _ => none

def Label.disturbs : Label → Bool
  | .call (.cancel _) | .call (.wakeup _) => true
  | _ => false

def Label.joins : Label → Option LtId
  | .call (.join target _ _) => some target
  | _ => none

def Label.joinCell : Label → Option ℕ
  | .call (.join _ ptr _) => ptr
  | _ => none

def Label.detaches2 : Label → Option LtId
  | .call (.detach2 target) => some target
  | _ => none

def Label.polls : Label → List Fd
  | .poll evs => evs.filterMap PollEvent.fd?
  | _ => []

def Phase.batch : Phase → List Fd
  | .events evs | .write _ _ _ evs => evs.filterMap PollEvent.fd?
  | _ => []

def Phase.unhandled : Phase → List Fd
  | .events evs => evs.filterMap PollEvent.fd?
  | .write fd _ _ evs => fd :: evs.filterMap PollEvent.fd?
  | _ => []

namespace World

/-- No lthread calls `lthread_cancel` or `lthread_wakeup`, and a wait for a descriptor
yields: its timeout is not -1. -/
def undisturbed (_ : World) : Label → Prop
  | .call (.cancel _) => False
  | .call (.wakeup _) => False
  | .call (.schedEvent _ _ timeout) => timeout ≠ u64 - 1
  | _ => True

instance (x : World) (a : Label) : Decidable (x.undisturbed a) :=
  match a with
  | .call (.cancel _) | .call (.wakeup _) => .isFalse id
  | .call (.schedEvent _ _ timeout) => inferInstanceAs (Decidable (timeout ≠ u64 - 1))
  | .call .create | .call (.sleep _) | .call .renice | .call (.condWait _ _) | .call (.condSignal _)
  | .call (.condBroadcast _) | .call (.chan _) | .call (.join _ _ _) | .call (.exit _) | .call .finish
  | .call .detach | .call (.detach2 _) | .call (.close _) | .call (.io _) | .call (.computeBegin _)
  | .clock _ | .main | .run | .sched | .poll _ | .io _ _ | .compute _ _ => .isTrue trivial

/-- The calls that the board has a turn for. The running lthread does not cancel itself,
nor an lthread on the ready queue or back from a compute thread; `lthread_wakeup` finds its
target in `lthread_sleep` or not asleep; and a wait for a descriptor yields. -/
def callOk (k : Bool) (x : World) (l : LtId) : Op → Prop
  | .cancel target => k = true ∧ target ≠ l ∧ target ∉ x.sched.ready ∧
      (target ∈ x.sched.defer → ∀ j, (x.sched.lt target).ctx ≠ .compute j)
  | .wakeup target => x.sched.has target .sleeping = true → ∃ t, (x.sched.lt target).ctx = .slept t
  | .schedEvent _ _ timeout => timeout ≠ u64 - 1
  | _ => True

def stepOk (k : Bool) (x : World) : Label → Prop
  | .call op => ∀ l, x.cpu = .run l → callOk k x l op
  | _ => True

instance (k : Bool) (x : World) (l : LtId) (op : Op) : Decidable (callOk k x l op) :=
  match op with
  | .cancel _ => inferInstanceAs (Decidable (_ ∧ _ ∧ _ ∧ _))
  | .wakeup _ => inferInstanceAs (Decidable (_ → _))
  | .schedEvent _ _ _ => inferInstanceAs (Decidable (_ ≠ _))
  | .create | .sleep _ | .renice | .condWait _ _ | .condSignal _ | .condBroadcast _ | .chan _ | .join _ _ _
  | .exit _ | .finish | .detach | .detach2 _ | .close _ | .io _ | .computeBegin _ => .isTrue trivial

instance (c : Cpu) (P : LtId → Prop) [DecidablePred P] : Decidable (∀ l, c = .run l → P l) :=
  match c with
  | .run l => decidable_of_iff (P l) ⟨fun h _ hm => Cpu.run.inj hm ▸ h, fun h => h l rfl⟩
  | .loop | .ioAdd _ _ | .leaving _ | .back _ | .computeAdd _ => .isTrue nofun

instance (k : Bool) (x : World) (a : Label) : Decidable (stepOk k x a) :=
  match a with
  | .call op => inferInstanceAs (Decidable (∀ l, x.cpu = .run l → callOk k x l op))
  | .clock _ | .main | .run | .sched | .poll _ | .io _ _ | .compute _ _ => .isTrue trivial

/-- The calls of `lthread_cancel` are such, and of lthreads that have not been dropped. -/
def cancelsLive (x : World) (a : Label) : Prop :=
  stepOk true x a ∧ match a with
    | .call (.cancel target) => x.dropped target = false
    | _ => True

instance (x : World) (a : Label) : Decidable (x.cancelsLive a) :=
  haveI : Decidable (match a with
      | .call (.cancel target) => x.dropped target = false
      | _ => True) :=
    match a with
    | .call (.cancel target) => inferInstanceAs (Decidable (x.dropped target = false))
    | .call (.wakeup _) | .call (.schedEvent _ _ _)
    | .call .create | .call (.sleep _) | .call .renice | .call (.condWait _ _) | .call (.condSignal _)
    | .call (.condBroadcast _) | .call (.chan _) | .call (.join _ _ _) | .call (.exit _) | .call .finish
    | .call .detach | .call (.detach2 _) | .call (.close _) | .call (.io _) | .call (.computeBegin _)
    | .clock _ | .main | .run | .sched | .poll _ | .io _ _ | .compute _ _ => .isTrue trivial
  inferInstanceAs (Decidable (_ ∧ _))

/-- Undisturbed, and nobody starts to wait for a descriptor that another lthread waits for. -/
def waitsAlone (x : World) (a : Label) : Prop :=
  x.undisturbed a ∧ ∀ fd ∈ a.waitsFor, ∀ m ∈ x.sched.waiting, fdOnly (x.sched.lt m).fdWait ≠ fd

instance (x : World) (a : Label) : Decidable (x.waitsAlone a) := inferInstanceAs (Decidable (_ ∧ _))

/-- `epoll_wait` returns descriptors that somebody waits for, and as long as the event of
a descriptor has not been handled it is not closed, nor is an lthread cancelled that
waits for it. -/
def keepsBatch (x : World) (a : Label) : Prop :=
  stepOk true x a ∧ (∀ fd ∈ a.polls, ∃ m ∈ x.sched.waiting, fdOnly (x.sched.lt m).fdWait = fd) ∧
    (∀ fd ∈ a.closes, fd ∉ x.phase.batch) ∧
    ∀ m ∈ a.cancels, 0 ≤ (x.sched.lt m).fdWait → fdOnly (x.sched.lt m).fdWait ∉ x.phase.batch

instance (x : World) (a : Label) : Decidable (x.keepsBatch a) := inferInstanceAs (Decidable (_ ∧ _ ∧ _ ∧ _))

/-- The same for the descriptor at hand, until both its events have been looked for. -/
def keepsEvents (x : World) (a : Label) : Prop :=
  stepOk true x a ∧ (∀ fd ∈ a.closes, fd ∉ x.phase.unhandled) ∧
    ∀ m ∈ a.cancels, 0 ≤ (x.sched.lt m).fdWait → fdOnly (x.sched.lt m).fdWait ∉ x.phase.unhandled

instance (x : World) (a : Label) : Decidable (x.keepsEvents a) := inferInstanceAs (Decidable (_ ∧ _ ∧ _))

/-- Nobody joins `l`, and `lthread_detach2` is called for it only once it has run. -/
def detachesStarted (l : LtId) (x : World) (a : Label) : Prop :=
  stepOk true x a ∧ a.joins ≠ some l ∧ (a.detaches2 = some l → (x.sched.lt l).ctx ≠ .start)

instance (l : LtId) (x : World) (a : Label) : Decidable (x.detachesStarted l a) :=
  inferInstanceAs (Decidable (_ ∧ _ ∧ _))

/-- A join is called for an lthread that has not been dropped and that nobody else waits
for; a joiner that has been cancelled does not count. -/
def joinsLive (x : World) (a : Label) : Prop :=
  stepOk true x a ∧ ∀ target ∈ a.joins, x.dropped target = false ∧
    ∀ j ∈ x.sched.busy, (x.sched.lt j).ctx.joinsOn = some target → x.sched.has j .cancelled = true

instance (x : World) (a : Label) : Decidable (x.joinsLive a) := inferInstanceAs (Decidable (_ ∧ _))

/-- A worker stands between its append of `l` to the defer queue and its trigger. -/
def Handed (x : World) (l : LtId) : Prop :=
  (∃ w < x.ioWorkers, (x.io w).pc = .handed l) ∨ ∃ j < x.computeCount, (x.compute j).pc = .handed l

instance (x : World) (l : LtId) : Decidable (x.Handed l) := inferInstanceAs (Decidable (_ ∨ _))

/-- No lthread ends while a worker that has handed it back has its trigger still to do. -/
def endsTriggered (x : World) (a : Label) : Prop :=
  stepOk false x a ∧ (a.ends = true → ∀ l, x.cpu = .run l → ¬ x.Handed l)

instance (x : World) (a : Label) : Decidable (x.endsTriggered a) := inferInstanceAs (Decidable (_ ∧ _))

def detachee (x : World) : Label → Option LtId
  | .call .detach => match x.cpu with
    | .run l => some l
    | _ => none
  | a => a.detaches2

def Unjoined (x : World) (target : LtId) : Prop :=
  ∀ j ∈ x.sched.busy, (x.sched.lt j).ctx.joinsOn ≠ some target

instance (x : World) (target : LtId) : Decidable (x.Unjoined target) := inferInstanceAs (Decidable (∀ _ ∈ _, _))

/-- Each lthread is detached, or joined by one lthread at a time, and never both. -/
def joinsAlone (x : World) (a : Label) : Prop :=
  (∀ target ∈ a.joins, x.sched.has target .detach = false ∧ x.Unjoined target) ∧
    ∀ l ∈ x.detachee a, x.Unjoined l

instance (x : World) (a : Label) : Decidable (x.joinsAlone a) := inferInstanceAs (Decidable (_ ∧ _))

def joinsApart (x : World) (a : Label) : Prop := x.undisturbed a ∧ x.joinsAlone a

instance (x : World) (a : Label) : Decidable (x.joinsApart a) := inferInstanceAs (Decidable (_ ∧ _))

def joinsCells (x : World) (a : Label) : Prop :=
  x.joinsApart a ∧ ∀ cell ∈ a.joinCell, ∀ j ∈ x.sched.busy, (x.sched.lt j).ctx.joinsOn ≠ none →
    (x.sched.lt j).ltExitPtr ≠ some cell

instance (x : World) (a : Label) : Decidable (x.joinsCells a) := inferInstanceAs (Decidable (_ ∧ _))

def drops (x : World) : Label → Option LtId
  | .sched => match x.cpu, x.phase with
    | .loop, .ready _ => x.sched.ready.head?.filter (x.sched.has · .cancelled)
    | .loop, .defer => x.sched.defer.head?.filter (x.sched.has · .cancelled)
    | _, _ => none
  | _ => none

/-- `lthread_cancel` is called once, and for an lthread that is not detached and that is suspended, not on
the ready queue, in a call that it can undo; and when the lthread is dropped no worker has a
trigger to do for it. -/
def cancelsClean (x : World) (a : Label) : Prop :=
  stepOk true x a ∧ x.joinsAlone a ∧
    (∀ target ∈ a.cancels, (x.sched.lt target).ctx.severable = true ∧ target ∉ x.sched.ready ∧
      x.sched.has target .cancelled = false ∧ x.sched.has target .detach = false) ∧
    (∀ l ∈ x.detachee a, x.sched.has l .cancelled = false) ∧ ∀ l ∈ x.drops a, ¬ x.Handed l

instance (x : World) (a : Label) : Decidable (x.cancelsClean a) := inferInstanceAs (Decidable (_ ∧ _ ∧ _ ∧ _ ∧ _))

/-- The state that the labels lead to, from a start with `IO_WORKERS` io workers and
unbuffered channels. -/
def after (ok : World → Label → Prop) [∀ x a, Decidable (ok x a)] (labels : List Label) : Option World :=
  Machine.replay (Machine.attempt step ok) labels (start 0 (fun _ => 0) IO_WORKERS)

theorem exists_after {τ : Type} (ok : World → Label → Prop) [∀ x a, Decidable (ok x a)] (labels : List Label)
    (see : World → τ) {t : τ}
    (h : (after ok labels).map see = some t) : ∃ x, worldMachine.Reachable ok x ∧ see x = t :=
  Machine.exists_reachable (M := worldMachine) (fun _ _ _ h => h) ⟨0, _, IO_WORKERS, rfl⟩ labels see h

theorem exists_noted {τ υ : Type} (ok : World → Label → Prop) [∀ x a, Decidable (ok x a)] (labels : List Label)
    (empty : τ) (note : World → Label → World → τ → τ) (see : World × τ → υ) {t : υ}
    (h : (Machine.replay (fun p a => (Machine.attempt step ok p.1 a).map fun x' => (x', note p.1 a x' p.2)) labels
      (start 0 (fun _ => 0) IO_WORKERS, empty)).map see = some t) :
    ∃ p, (worldMachine.observe empty note).Reachable (fun q a => ok q.1 a) p ∧ see p = t :=
  Machine.exists_observed (M := worldMachine) (fun _ _ _ h => h) ⟨0, _, IO_WORKERS, rfl⟩ labels empty note see h

/-- A step from a reachable state, by what is seen of its two ends. -/
theorem exists_step_after {τ : Type} (ok : World → Label → Prop) [∀ x a, Decidable (ok x a)] (labels : List Label)
    (a : Label) (see : World → World → τ) {t : τ}
    (h : ((after ok labels).bind fun x => (x.step a).toOption.map (see x)) = some t) :
    ∃ x x', worldMachine.Reachable ok x ∧ x.step a = .ok x' ∧ see x x' = t := by
  obtain ⟨x, hx, h⟩ := Option.bind_eq_some_iff.mp h
  obtain ⟨x', hx', ht⟩ := Option.map_eq_some_iff.mp h
  obtain ⟨y, hy, rfl⟩ := exists_after ok labels id (Option.map_eq_some_iff.mpr ⟨x, hx, rfl⟩)
  exact ⟨y, x', hy, except_toOption_some hx', ht⟩

theorem exists_noted_step {τ υ : Type} (ok : World → Label → Prop) [∀ x a, Decidable (ok x a)] (labels : List Label)
    (empty : τ) (note : World → Label → World → τ → τ) (a : Label) (see : World × τ → World → υ) {t : υ}
    (h : ((Machine.replay (fun p a => (Machine.attempt step ok p.1 a).map fun x' => (x', note p.1 a x' p.2)) labels
      (start 0 (fun _ => 0) IO_WORKERS, empty)).bind fun p => (p.1.step a).toOption.map (see p)) = some t) :
    ∃ p x', (worldMachine.observe empty note).Reachable (fun q a => ok q.1 a) p ∧ p.1.step a = .ok x' ∧ see p x' = t := by
  obtain ⟨p, hp, h⟩ := Option.bind_eq_some_iff.mp h
  obtain ⟨x', hx', ht⟩ := Option.map_eq_some_iff.mp h
  obtain ⟨q, hq, rfl⟩ := exists_noted ok labels empty note id (Option.map_eq_some_iff.mpr ⟨p, hp, rfl⟩)
  exact ⟨q, x', hq, except_toOption_some hx', ht⟩

end World
end Lthr
