import Lthread.Spec.IoWorker

/-! Wakeups of the io workers. The test of the queue and the wait are two critical
sections under two mutexes. A job that is inserted and signalled between them
leaves the worker asleep with work to do; no other order of the steps does. -/

namespace Lthr
namespace IoWorker

/-- A worker that is about to sleep, or asleep, with jobs in its queue has a
signal coming. -/
def Awaits (x : IoWorker) : Prop :=
  x.pc = .emptied ∨ x.pc = .parked → x.lthreads ≠ [] → x.signalling ≠ []

theorem awaits_of_awake {x : IoWorker} (h1 : x.pc ≠ .emptied) (h2 : x.pc ≠ .parked) : x.Awaits :=
  fun h => absurd h (not_or.mpr ⟨h1, h2⟩)

theorem awaits_insert (x : IoWorker) (lt : LtId) : (x.insert lt).Awaits :=
  fun _ _ => List.cons_ne_nil _ _

/-- A parked worker is awake after the signal; one between its test and its wait
must have an empty queue for the signal to do no harm. -/
theorem awaits_signal {x : IoWorker} (lt : LtId) (hseen : ¬ (x.pc = .emptied ∧ x.lthreads ≠ [])) :
    (x.signal lt).Awaits := by
  by_cases hp : x.pc = .parked
  · exact awaits_of_awake (by simp [signal, hp]) (by simp [signal, hp])
  · intro hpc hq
    simp only [signal, if_neg hp] at hpc hq
    exact absurd ⟨hpc.resolve_right hp, hq⟩ hseen

theorem awaits_act {x x' : IoWorker} {a : WorkerAct} (h : x.Awaits) (hs : x.act a = some x') :
    x'.Awaits := by
  cases a with
  | pop =>
    simp only [act] at hs
    split_ifs at hs
    obtain rfl := Option.some_inj.mp hs
    unfold pop
    cases hl : x.lthreads with
    | nil => exact fun _ hq => absurd rfl hq
    | cons lt rest => exact awaits_of_awake (by simp) (by simp)
  | finish | trigger =>
    simp only [act] at hs
    split at hs
    · obtain rfl := Option.some_inj.mp hs
      exact awaits_of_awake (by simp) (by simp)
    · cases hs
  | wait =>
    simp only [act] at hs
    split_ifs at hs with hp
    obtain rfl := Option.some_inj.mp hs
    exact fun _ hq => h (Or.inl hp) hq
  | spurious =>
    simp only [act] at hs
    split_ifs at hs
    obtain rfl := Option.some_inj.mp hs
    exact awaits_of_awake (by simp) (by simp)

end IoWorker

/-- No signal is given to a worker that has found its queue empty, has not reached
its wait, and has a job in its queue again. -/
def signalSeen (x : ℕ → IoWorker) : ℕ × IoLabel → Prop
  | (w, .signal _) => ¬ ((x w).pc = .emptied ∧ (x w).lthreads ≠ [])
  | _ => True

instance (x : ℕ → IoWorker) : (a : ℕ × IoLabel) → Decidable (signalSeen x a)
  | (_, .signal _) => inferInstanceAs (Decidable (¬ (_ ∧ _)))
  | (_, .insert _) | (_, .act _) => inferInstanceAs (Decidable True)

theorem ioStep_awaits {x x' : ℕ → IoWorker} {a : ℕ × IoLabel} (h : ∀ w, (x w).Awaits)
    (hok : signalSeen x a) (hs : ioStep x a.1 a.2 = some x') : ∀ w, (x' w).Awaits := by
  obtain ⟨w, a⟩ := a
  have hupd {y : IoWorker} (hy : y.Awaits) : ∀ v, (Function.update x w y v).Awaits := by
    intro v
    by_cases hv : v = w
    · subst hv; rwa [Function.update_self]
    · rw [Function.update_of_ne hv]; exact h v
  cases a with
  | insert lt =>
    simp only [ioStep] at hs
    split_ifs at hs
    obtain rfl := Option.some_inj.mp hs
    exact hupd ((x w).awaits_insert lt)
  | signal lt =>
    simp only [ioStep] at hs
    split_ifs at hs
    obtain rfl := Option.some_inj.mp hs
    exact hupd (IoWorker.awaits_signal lt hok)
  | act a =>
    simp only [ioStep] at hs
    split_ifs at hs
    obtain ⟨y, hy, rfl⟩ := Option.map_eq_some_iff.mp hs
    exact hupd (IoWorker.awaits_act (h w) hy)

/-- The worker tests its queue, an lthread is inserted and signals, and then the
worker goes to sleep: asleep with a job, and nobody left to wake it. -/
theorem io_wakeup_lost :
    ∃ x, ioMachine.Reachable (fun _ _ => True) x ∧ (x 0).pc = .parked ∧ (x 0).lthreads = [7] ∧
      (x 0).signalling = [] :=
  ⟨_, Machine.Reachable.of_replay (M := ioMachine) (fun _ _ _ hs => ⟨trivial, hs⟩) rfl
    [(0, .act .pop), (0, .insert 7), (0, .signal 7), (0, .act .wait)] (by decide), rfl, rfl, rfl⟩

/-- In a run in which no signal falls between the test and the wait, a worker that
sleeps with a job in its queue has an enqueuer that is still to signal. -/
theorem io_no_lost_wakeup {x : ℕ → IoWorker} (h : ioMachine.Reachable signalSeen x) (w : ℕ)
    (hp : (x w).pc = .parked) (hq : (x w).lthreads ≠ []) : (x w).signalling ≠ [] := by
  have hall : ∀ w, (x w).Awaits := by
    refine Machine.Reachable.invariant (P := fun x => ∀ w, (x w).Awaits) (fun y hy w => ?_)
      (fun y a y' hy hok hs => ioStep_awaits hy hok hs) h
    obtain rfl := hy
    exact fun _ hq => absurd rfl hq
  exact hall w (Or.inr hp) hq

theorem io_no_lost_wakeup_pending :
    ∃ x, ioMachine.Reachable signalSeen x ∧ (x 0).pc = .parked ∧ (x 0).lthreads ≠ [] ∧
      (x 0).signalling ≠ [] := by
  have hstep : ∀ (x : ℕ → IoWorker) (a : ℕ × IoLabel) (x' : ℕ → IoWorker),
      (if signalSeen x a then ioStep x a.1 a.2 else none) = some x' →
        signalSeen x a ∧ ioMachine.step x a x' := by
    intro x a x' hs
    split_ifs at hs with hok
    exact ⟨hok, hs⟩
  have hrun := Machine.Reachable.of_replay (M := ioMachine) (s := fun _ => IoWorker.init) hstep rfl
    [(0, .act .pop), (0, .insert 7), (0, .act .wait)] (by decide)
  exact ⟨_, hrun, rfl, by decide, io_no_lost_wakeup hrun 0 rfl (by decide)⟩

end Lthr
