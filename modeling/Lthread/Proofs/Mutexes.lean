import Lthread.Proofs.CondStep
import Lthread.Spec.Mutex

/-! Mutual exclusion. The counter of a mutex is the recursion depth of its holder, and an
unlock leaves nobody on the list of its condition variable. -/

namespace Lthr

open Sched

theorem mutexCond_ne {m i : ℕ} (h : i ≠ m) : mutexCond i ≠ mutexCond m := by
  unfold mutexCond
  omega

/-- Nobody gets on the list of a condition variable but by `lthread_cond_wait`. -/
theorem World.Inv.list_stays_empty {k : Bool} {x x' : World} {a : Label} {c : ℕ} (h : x.Inv k) (hok : World.stepOk k x a)
    (hx : x.step a = .ok x') (ha : ∀ t, a ≠ .call (.condWait c t)) (hb : x.sched.blocked (.user c) = []) :
    x'.sched.blocked (.user c) = [] := by
  cases h.cond_step hok hx with
  | @wait l i t hai hcpu heq others =>
    have hic : c ≠ i := by
      rintro rfl
      exact ha t hai
    rw [heq, World.suspend_sched, setCtx_blocked, lthreadCondWait_blocked, Function.update_of_ne (by simpa using hic)]
    exact hb
  | @signal i hai heq others =>
    rw [heq, World.onSched_sched]
    by_cases hic : c = i
    · subst hic
      rw [lthreadCondSignal_nil _ _ hb]
      exact hb
    · cases hi : x.sched.blocked (.user i) with
      | nil =>
        rw [lthreadCondSignal_nil _ _ hi]
        exact hb
      | cons l rest =>
        rw [(lthreadCondSignal_cons _ _ _ hi).blocked, Function.update_of_ne (by simpa using hic)]
        exact hb
  | @broadcast i hai heq others =>
    rw [heq, World.onSched_sched, (lthreadCondBroadcast_eq _ _).2]
    by_cases hic : c = i
    · rw [hic, Function.update_self]
    · rw [Function.update_of_ne (by simpa using hic)]
      exact hb
  | @back l i t hai hcpu hcpu' hctx hback others =>
    rcases hback with he | hk
    · by_cases hic : c = i
      · subst hic
        rw [he.list, hb]
        rfl
      · rw [he.lists c hic, hb]
    · rw [hk.lists c, hb]
  | other hai lists others => rw [lists c, hb]

namespace Tally

@[simp] theorem held_none : none.held = 0 := rfl

@[simp] theorem held_lock (t : Tally) : t.lock.held = t.held + 1 := by
  have := t.le
  simp only [held, lock]
  omega

@[simp] theorem held_unlock (t : Tally) : t.unlock.held = t.held - 1 := by
  have := t.le
  unfold held unlock
  split_ifs
  · exact Nat.sub_succ ..
  · omega

end Tally

namespace LockLog

variable (log : LockLog) (m : ℕ) (l : LtId) (f : Tally → Tally)

@[simp] theorem count_self : log.count m l f m l = f (log m l) := by simp [count]

theorem count_lthread {j : LtId} (h : j ≠ l) : log.count m l f m j = log m j := by simp [count, h]

theorem count_mutex {i : ℕ} (h : i ≠ m) : log.count m l f i = log i := by simp [count, h]

end LockLog

namespace Locks

variable {x x' : Locks} {p p' : Locks × LockLog} {a : LockLabel} {l m i : ℕ}

/-- What a step with its count can be. -/
inductive LockStep (p : Locks × LockLog) : LockLabel → Locks × LockLog → Prop
  | world {b : Label} {w : World} (hb : b.onMutex = false) (hw : p.1.world.advance b = .ok w) :
      LockStep p (.world b) ({ p.1 with world := w }, p.2)
  | again {a : LockLabel} {l m : ℕ} (h0 : (p.1.mutex m).locked ≠ 0) (hl : (p.1.mutex m).lthread = l) :
      LockStep p a (p.1.acquired l m { p.1.mutex m with locked := (p.1.mutex m).locked + 1 }, p.2.count m l Tally.lock)
  | take {a : LockLabel} {l m : ℕ} (h0 : (p.1.mutex m).locked = 0) :
      LockStep p a (p.1.acquired l m ⟨1, l⟩, p.2.count m l Tally.lock)
  | wait {a : LockLabel} {l m : ℕ} {w : World} (h0 : (p.1.mutex m).locked ≠ 0)
      (hw : p.1.world.advance (.call (.condWait (mutexCond m) 3000)) = .ok w) :
      LockStep p a ({ p.1 with world := w, locking := Function.update p.1.locking l (some m) }, p.2)
  | surplus {l m : ℕ} (hcpu : p.1.world.cpu = .run l) (h0 : (p.1.mutex m).locked = 0) :
      LockStep p (.unlock m) (p.1, p.2.count m l Tally.unlock)
  | unlock {l m : ℕ} {w : World} (hcpu : p.1.world.cpu = .run l) (h0 : (p.1.mutex m).locked ≠ 0)
      (hw : p.1.world.advance (.call (.condBroadcast (mutexCond m))) = .ok w) :
      LockStep p (.unlock m) ({ p.1 with
        world := w
        mutex := Function.update p.1.mutex m { p.1.mutex m with locked := (p.1.mutex m).locked - 1 } },
        p.2.count m l Tally.unlock)

theorem lockLoop_cases (hx : p.1.lockLoop l m = .ok x') : LockStep p a (x', if x'.locking l = none then
    p.2.count m l Tally.lock else p.2) := by
  unfold lockLoop at hx
  split_ifs at hx with h0
  · obtain ⟨w, hw, hx⟩ := except_bind_ok hx
    obtain rfl := Except.ok.inj hx
    rw [if_neg (by simp)]
    exact .wait h0 hw
  · obtain rfl := Except.ok.inj hx
    rw [if_pos (by simp [acquired])]
    exact .take (not_ne_iff.mp h0)

theorem advance_cases (hx : p.1.advance a = .ok x') : LockStep p a (x', noteLock p.1 a x' p.2) := by
  cases a with
  | world b =>
    simp only [Locks.advance] at hx
    split_ifs at hx with hb
    obtain ⟨w, hw, hx⟩ := except_bind_ok hx
    obtain rfl := Except.ok.inj hx
    exact .world hb.1 hw
  | lock m =>
    simp only [Locks.advance] at hx
    split at hx
    · next l hcpu =>
      split_ifs at hx
      simp only [noteLock, hcpu]
      unfold lthreadMutexLock at hx
      split_ifs at hx with h0 hmax
      · obtain rfl := Except.ok.inj hx
        rw [if_pos (by simp [acquired])]
        exact .again h0.1 h0.2
      · exact lockLoop_cases hx
    · cases hx
  | go =>
    simp only [Locks.advance] at hx
    split at hx
    · next l hcpu =>
      split at hx
      · next m hm =>
        simp only [noteLock, hcpu, hm]
        exact lockLoop_cases hx
      · cases hx
    · cases hx
  | unlock m =>
    simp only [Locks.advance] at hx
    split at hx
    · next l hcpu =>
      split_ifs at hx
      simp only [noteLock, hcpu]
      unfold lthreadMutexUnlock at hx
      split_ifs at hx with h0
      · obtain rfl := Except.ok.inj hx
        exact .surplus hcpu h0
      · obtain ⟨w, hw, hx⟩ := except_bind_ok hx
        obtain rfl := Except.ok.inj hx
        exact .unlock hcpu h0 hw
    · cases hx

/-- The calls as they are carried out, also where one has put an lthread on the ready queue
that was there already. -/
def callHistory : Machine (Locks × LockLog) LockLabel :=
  Machine.observe { lockMachine with step := fun x a x' => x.advance a = .ok x' } LockLog.empty noteLock

theorem callHistory_cases (hs : callHistory.step p a p') : LockStep p a p' := by
  obtain ⟨hx, heq⟩ := hs
  have h := advance_cases hx
  rwa [← heq] at h

theorem callHistory_step (hs : lockHistory.step p a p') : callHistory.step p a p' := by
  obtain ⟨hs, heq⟩ := hs
  obtain ⟨x', hx, hs⟩ := except_bind_ok hs
  split_ifs at hs
  obtain rfl := Except.ok.inj hs
  exact ⟨hx, heq⟩

theorem callHistory_reachable {ok : Locks × LockLog → LockLabel → Prop} (h : lockHistory.Reachable ok p) :
    callHistory.Reachable ok p :=
  Machine.Reachable.of_step (M := lockHistory) (N := callHistory) (fun _ => id) (fun _ _ _ => callHistory_step) h

/-- What holds of a mutex: nobody has a lock of it that is not undone and nobody waits for
it, or only its holder has, as many as the counter says. -/
structure Exclusive (p : Locks × LockLog) (m : ℕ) : Prop where
  free : (p.1.mutex m).locked = 0 → (∀ l, (p.2 m l).held = 0) ∧ p.1.world.sched.blocked (.user (mutexCond m)) = []
  held : (p.1.mutex m).locked ≠ 0 → (p.2 m (p.1.mutex m).lthread).held = (p.1.mutex m).locked ∧
    ∀ l ≠ (p.1.mutex m).lthread, (p.2 m l).held = 0

structure Sound (p : Locks × LockLog) : Prop where
  world : p.1.world.Inv false
  exclusive : ∀ m, Exclusive p m

/-- A step leaves a mutex alone of which neither the counts nor the fields are written. -/
theorem Exclusive.of_eq (h : Exclusive p m) (hm : p'.1.mutex m = p.1.mutex m) (hlog : p'.2 m = p.2 m)
    (hw : (p.1.mutex m).locked = 0 → p.1.world.sched.blocked (.user (mutexCond m)) = [] →
      p'.1.world.sched.blocked (.user (mutexCond m)) = []) : Exclusive p' m := by
  refine ⟨fun h0 => ?_, fun h0 => ?_⟩
  · rw [hm] at h0
    rw [hlog]
    exact ⟨(h.free h0).1, hw h0 (h.free h0).2⟩
  · rw [hm] at h0 ⊢
    rw [hlog]
    exact h.held h0

theorem Sound.acquired (h : Sound p) {v : Mutex} (hv : v.lthread = l ∧ v.locked = (p.2 m l).held + 1)
    (hold : ∀ j ≠ l, (p.2 m j).held = 0) : Sound (p.1.acquired l m v, p.2.count m l Tally.lock) := by
  refine ⟨h.world, fun i => ?_⟩
  by_cases him : i = m
  · subst him
    refine ⟨fun h0 => ?_, fun _ => ⟨?_, fun j hj => ?_⟩⟩
    · simp [Locks.acquired, hv] at h0
    · simp [Locks.acquired, hv]
    · have hjl : j ≠ l := by simpa [Locks.acquired, hv] using hj
      exact (congrArg Tally.held (LockLog.count_lthread _ _ _ _ hjl)).trans (hold j hjl)
  · refine (h.exclusive i).of_eq ?_ (LockLog.count_mutex _ _ _ _ him) fun _ => id
    simp [Locks.acquired, him]

/-- A step of the world puts nobody on the list of a mutex, unless that is held. -/
theorem Sound.list_stays (h : Sound p) {b : Label} {w : World} (hok : p.1.world.undisturbed b)
    (hw : p.1.world.advance b = .ok w) (hb : ∀ t, b ≠ .call (.condWait (mutexCond i) t))
    (hnil : p.1.world.sched.blocked (.user (mutexCond i)) = []) : w.sched.blocked (.user (mutexCond i)) = [] := by
  have hstep := World.undisturbed_stepOk (k := false) p.1.world b hok
  exact h.world.list_stays_empty hstep ((h.world.step_eq hstep).trans hw) hb hnil

theorem Sound.world_advance (h : Sound p) {b : Label} {w : World} (hok : p.1.world.undisturbed b)
    (hw : p.1.world.advance b = .ok w) : w.Inv false :=
  h.world.advance (World.undisturbed_stepOk p.1.world b hok) (World.advance_cases hw)

theorem Sound.step (h : Sound p) (hok : unlocksOwn p a) (hs : LockStep p a p') : Sound p' := by
  cases hs with
  | @world b w hb hw =>
    refine ⟨h.world_advance hok hw, fun i => (h.exclusive i).of_eq rfl rfl fun _ => h.list_stays hok hw ?_⟩
    rintro t rfl
    simp [Label.onMutex, mutexCond] at hb
  | @again _ l m h0 hl =>
    obtain ⟨hd, hother⟩ := (h.exclusive m).held h0
    rw [hl] at hd hother
    exact h.acquired ⟨hl, by rw [hd]⟩ hother
  | @take _ l m h0 =>
    have hd := ((h.exclusive m).free h0).1
    exact h.acquired ⟨rfl, by rw [hd l]⟩ fun j _ => hd j
  | @wait _ l m w h0 hw =>
    refine ⟨h.world_advance (b := .call (.condWait (mutexCond m) 3000)) trivial hw, fun i =>
      (h.exclusive i).of_eq rfl rfl fun hi => h.list_stays (b := .call (.condWait (mutexCond m) 3000)) trivial hw ?_⟩
    intro t heq
    have him : mutexCond m = mutexCond i := by simp_all
    exact h0 (by rwa [by_contra fun hne => mutexCond_ne (m := m) (i := i) hne him.symm] at hi)
  | @surplus l m hcpu h0 =>
    refine ⟨h.world, fun i => ?_⟩
    by_cases him : i = m
    · subst him
      obtain ⟨hd, hnil⟩ := (h.exclusive i).free h0
      refine ⟨fun _ => ⟨fun j => ?_, hnil⟩, fun h1 => absurd h0 h1⟩
      by_cases hj : j = l
      · simp [hj, hd l]
      · exact (congrArg Tally.held (LockLog.count_lthread _ _ _ _ hj)).trans (hd j)
    · exact (h.exclusive i).of_eq rfl (LockLog.count_mutex _ _ _ _ him) fun _ => id
  | @unlock l m w hcpu h0 hw =>
    obtain ⟨hd, hother⟩ := (h.exclusive m).held h0
    -- it is the holder that unlocks
    obtain rfl : l = (p.1.mutex m).lthread := by
      by_contra hne
      rcases hok l hcpu with h1 | h1
      · exact absurd (hother l hne) (Nat.pos_iff_ne_zero.mp h1)
      · exact h0 h1
    have hlist : w.sched.blocked (.user (mutexCond m)) = [] := by
      rw [World.advance_call hcpu] at hw
      obtain rfl := Except.ok.inj hw
      rw [World.onSched_sched, (lthreadCondBroadcast_eq _ _).2, Function.update_self]
    refine ⟨h.world_advance (b := .call (.condBroadcast (mutexCond m))) trivial hw, fun i => ?_⟩
    by_cases him : i = m
    · subst him
      refine ⟨fun h1 => ⟨fun j => ?_, hlist⟩, fun _ => ⟨?_, fun j hj => ?_⟩⟩
      · have hone : (p.1.mutex i).locked - 1 = 0 := by simpa using h1
        by_cases hj : j = (p.1.mutex i).lthread
        · simpa [hj, hd] using hone
        · exact (congrArg Tally.held (LockLog.count_lthread _ _ _ _ hj)).trans (hother j hj)
      · simp [hd]
      · have hj' : j ≠ (p.1.mutex i).lthread := by simpa using hj
        exact (congrArg Tally.held (LockLog.count_lthread _ _ _ _ hj')).trans (hother j hj')
    · refine (h.exclusive i).of_eq (by simp [him]) (LockLog.count_mutex _ _ _ _ him) fun _ => ?_
      exact h.list_stays (b := .call (.condBroadcast (mutexCond m))) trivial hw nofun

theorem Sound.reachable (h : lockHistory.Reachable unlocksOwn p) : Sound p := by
  refine Machine.Reachable.invariant (P := Sound) ?_ (fun q a q' hq hok hs => hq.step hok (callHistory_cases (callHistory_step hs))) h
  rintro ⟨y, log⟩ ⟨⟨birth, capacity, n, rfl⟩, rfl⟩
  exact ⟨World.start_inv birth capacity n, fun m => ⟨fun _ => ⟨fun _ => rfl, rfl⟩, fun h0 => absurd rfl h0⟩⟩

theorem advance_unlock (hcpu : x.world.cpu = .run l) (hidle : x.locking l = none) :
    x.advance (.unlock m) = x.lthreadMutexUnlock m := by
  simp only [Locks.advance, hcpu, if_pos hidle]

/-- None of these steps puts an lthread on the ready queue that is there. -/
theorem Sound.step_eq (h : Sound p) (hok : unlocksOwn p a) : p.1.step a = p.1.advance a := by
  unfold Locks.step
  cases hx : p.1.advance a with
  | error f => rfl
  | ok x' =>
    have hready := (h.step hok (advance_cases hx)).world.ready_nodup
    exact if_pos hready

/-- In runs in which an lthread unlocks only what it holds or what is free: one lthread at
most has locks of a mutex that it has not undone, the counter says how many and `lthread`
who; the counter is 0 if nobody has, and then nobody waits, and an unlock changes nothing.
No such run ends at `Fault.relinked`. -/
theorem mutex_exclusion (h : lockHistory.Reachable unlocksOwn p) (m : ℕ) :
    (∀ l j, 0 < (p.2 m l).held → 0 < (p.2 m j).held → l = j) ∧
    (∀ l, 0 < (p.2 m l).held →
      (p.1.mutex m).locked = (p.2 m l).locks - (p.2 m l).unlocks ∧ (p.1.mutex m).lthread = l) ∧
    ((p.1.mutex m).locked = 0 ↔ ∀ l, (p.2 m l).held = 0) ∧
    ((p.1.mutex m).locked = 0 → p.1.world.sched.blocked (.user (mutexCond m)) = [] ∧
      ∀ l, p.1.world.cpu = .run l → p.1.locking l = none → p.1.step (.unlock m) = .ok p.1) ∧
    ∀ a, unlocksOwn p a → p.1.step a = p.1.advance a := by
  have hs := Sound.reachable h
  have hm := hs.exclusive m
  have hholder (l : LtId) (hl : 0 < (p.2 m l).held) :
      (p.1.mutex m).locked = (p.2 m l).held ∧ (p.1.mutex m).lthread = l := by
    by_cases h0 : (p.1.mutex m).locked = 0
    · rw [(hm.free h0).1 l] at hl
      exact absurd hl (lt_irrefl 0)
    · obtain ⟨hd, hother⟩ := hm.held h0
      have hlt : (p.1.mutex m).lthread = l := by
        by_contra hne
        rw [hother l (Ne.symm hne)] at hl
        exact lt_irrefl 0 hl
      rw [hlt] at hd
      exact ⟨hd.symm, hlt⟩
  refine ⟨fun l j hl hj => (hholder l hl).2.symm.trans (hholder j hj).2, hholder, ⟨fun h0 => (hm.free h0).1, fun h0 => ?_⟩,
    fun h0 => ⟨(hm.free h0).2, fun l hcpu hidle => ?_⟩, fun a => hs.step_eq⟩
  · by_contra hne
    exact hne ((hm.held hne).1.symm.trans (h0 _))
  · unfold Locks.step
    rw [advance_unlock hcpu hidle, lthreadMutexUnlock, if_pos h0]
    exact if_pos hs.world.ready_nodup

set_option maxRecDepth 20000 in
/-- Lthread 0 locks a mutex twice and sleeps. Lthread 1 waits for it, expires after 3
seconds and waits again; then lthread 0 wakes up and unlocks it once. -/
theorem mutex_exclusion_recursive : ∃ p, lockHistory.Reachable unlocksOwn p ∧ p.1.world.cpu = .run 0 ∧
    p.1.world.ret 1 = -2 ∧ p.1.world.sched.ready = [1] ∧ (p.2 0 0).locks = 2 ∧ (p.2 0 0).unlocks = 1 ∧
      (p.1.mutex 0).locked = 1 ∧ (p.1.mutex 0).lthread = 0 ∧ (p.2 0 1).held = 0 := by
  obtain ⟨p, hp, hsee⟩ := exists_after unlocksOwn
    [.world .main, .world .main, .world .run, .world .sched, .world .sched, .world .sched, .lock 0, .lock 0,
      .world (.call (.sleep 5000)), .world .sched, .world .sched, .lock 0, .world .sched, .world .sched, .world .sched,
      .world (.clock 4000000), .world (.poll []), .world .sched, .world .sched, .world .sched, .go, .world .sched,
      .world .sched, .world .sched, .world .sched, .world .sched, .world (.clock 6000000), .world (.poll []),
      .world .sched, .world .sched, .world .sched, .unlock 0]
    (fun p => decide (p.1.world.cpu = .run 0 ∧ p.1.world.ret 1 = -2 ∧ p.1.world.sched.ready = [1] ∧
      (p.2 0 0).locks = 2 ∧ (p.2 0 0).unlocks = 1)) (t := true) (by decide)
  obtain ⟨h1, h2, h3, h4, h5⟩ := of_decide_eq_true hsee
  obtain ⟨hone, hholder, -⟩ := mutex_exclusion hp 0
  have h0 : 0 < (p.2 0 0).held := by simp [Tally.held, h4, h5]
  obtain ⟨hl, hlt⟩ := hholder 0 h0
  refine ⟨p, hp, h1, h2, h3, h4, h5, by rw [hl, h4, h5], hlt, ?_⟩
  by_contra hne
  cases hone 0 1 h0 (Nat.pos_of_ne_zero hne)

/-! An unlock by an lthread that does not hold the mutex -/

/-- Whatever the lthreads unlock, the holder has as many locks to undo as the counter says,
or more. -/
def Covered (p : Locks × LockLog) : Prop := ∀ m, (p.1.mutex m).locked ≤ (p.2 m (p.1.mutex m).lthread).held

theorem Covered.acquired (h : Covered p) {v : Mutex} (hv : v.lthread = l) (hle : v.locked ≤ (p.2 m l).held + 1) :
    Covered (p.1.acquired l m v, p.2.count m l Tally.lock) := by
  intro i
  by_cases him : i = m
  · subst him
    simpa [Locks.acquired, hv] using hle
  · simpa [Locks.acquired, him, LockLog.count_mutex] using h i

theorem held_count_unlock (log : LockLog) (m : ℕ) (l j : LtId) :
    (log m j).held - 1 ≤ (log.count m l Tally.unlock m j).held := by
  by_cases hj : j = l
  · rw [hj, LockLog.count_self, Tally.held_unlock]
  · rw [LockLog.count_lthread _ _ _ _ hj]
    exact Nat.sub_le _ _

theorem Covered.step (h : Covered p) (hs : LockStep p a p') : Covered p' := by
  cases hs with
  | world | wait => exact h
  | @again _ l m h0 hl =>
    have hm := h m
    rw [hl] at hm
    exact h.acquired hl (Nat.succ_le_succ hm)
  | take h0 => exact h.acquired rfl (Nat.succ_le_succ (Nat.zero_le _))
  | @surplus l m hcpu h0 =>
    intro i
    by_cases him : i = m
    · subst him
      exact h0.trans_le (Nat.zero_le _)
    · simpa [LockLog.count_mutex, him] using h i
  | @unlock l m w hcpu h0 hw =>
    intro i
    by_cases him : i = m
    · subst him
      simpa using (Nat.sub_le_sub_right (h i) 1).trans (held_count_unlock p.2 i l _)
    · simpa [him, LockLog.count_mutex] using h i

theorem Covered.reachable {ok : Locks × LockLog → LockLabel → Prop} (h : callHistory.Reachable ok p) : Covered p := by
  refine Machine.Reachable.invariant (P := Covered) ?_ (fun q a q' hq _ hs => hq.step (callHistory_cases hs)) h
  rintro ⟨y, log⟩ ⟨⟨birth, capacity, n, rfl⟩, rfl⟩ m
  exact Nat.zero_le _

theorem advance_unlock_locked (hcpu : x.world.cpu = .run l) (hidle : x.locking l = none)
    (h0 : (x.mutex m).locked ≠ 0) :
    ∃ x', x.advance (.unlock m) = .ok x' ∧ (x'.mutex m).locked + 1 = (x.mutex m).locked ∧
      x'.world.sched.blocked (.user (mutexCond m)) = [] ∧ x'.world.cpu = .run l ∧ x'.locking l = none := by
  have hw : x.world.advance (.call (.condBroadcast (mutexCond m))) =
      .ok (x.world.onSched (·.lthreadCondBroadcast (.user (mutexCond m)))) := World.advance_call hcpu _
  have hs := advance_unlock (m := m) hcpu hidle
  unfold lthreadMutexUnlock at hs
  rw [if_neg h0, hw] at hs
  refine ⟨_, hs, ?_, ?_, hcpu, hidle⟩
  · simp only [Function.update_self]
    omega
  · rw [World.onSched_sched, (lthreadCondBroadcast_eq _ _).2, Function.update_self]

theorem noteLock_unlock (hcpu : x.world.cpu = .run l) (log : LockLog) :
    noteLock x (.unlock m) x' log = log.count m l Tally.unlock := by
  simp only [noteLock, hcpu]

/-- One lthread can unlock the mutex until it is free; the others' locks are not undone. -/
theorem unlocks_to_free {n : ℕ} (hn : (p.1.mutex m).locked = n) (hcpu : p.1.world.cpu = .run l)
    (hidle : p.1.locking l = none) :
    ∃ q, callHistory.Steps (fun _ _ => True) p q ∧ (q.1.mutex m).locked = 0 ∧ q.1.world.cpu = .run l ∧
      q.1.locking l = none ∧ ∀ j ≠ l, q.2 m j = p.2 m j := by
  induction n generalizing p with
  | zero => exact ⟨p, .refl p, hn, hcpu, hidle, fun _ _ => rfl⟩
  | succ n ih =>
    obtain ⟨x₁, hs, hlocked, -, hcpu₁, hidle₁⟩ := advance_unlock_locked (m := m) hcpu hidle (by omega)
    obtain ⟨q, hq, h0, hcpu', hidle', hother⟩ :=
      ih (p := (x₁, p.2.count m l Tally.unlock)) (show (x₁.mutex m).locked = n by omega) hcpu₁ hidle₁
    refine ⟨q, Machine.Steps.trans (Machine.Steps.single (a := .unlock m) trivial ⟨hs, ?_⟩) hq, h0, hcpu', hidle',
      fun j hj => (hother j hj).trans (LockLog.count_lthread _ _ _ _ hj)⟩
    exact (noteLock_unlock hcpu p.2).symm

theorem advance_lock_free (hcpu : x.world.cpu = .run l) (hidle : x.locking l = none) (h0 : (x.mutex m).locked = 0)
    (log : LockLog) : x.advance (.lock m) = .ok (x.acquired l m ⟨1, l⟩) ∧
      noteLock x (.lock m) (x.acquired l m ⟨1, l⟩) log = log.count m l Tally.lock := by
  constructor
  · simp only [Locks.advance, hcpu, if_pos hidle]
    unfold lthreadMutexLock lockLoop
    rw [if_neg (fun h => h.1 h0), if_neg (not_not.mpr h0)]
  · simp only [noteLock, hcpu]
    exact if_pos (by simp [acquired])

/-- The unlock that is reported on `stderr` is carried out, in every state and every run:
the counter changes, the blocked list is emptied, and the caller can go on so that
`lthread_mutex_lock` returns to it while the holder has locks that it has not undone. -/
theorem rejected_unlock_takes_effect {ok : Locks × LockLog → LockLabel → Prop} (h : callHistory.Reachable ok p)
    (hcpu : p.1.world.cpu = .run l) (hidle : p.1.locking l = none) (hlocked : (p.1.mutex m).locked ≠ 0)
    (hother : (p.1.mutex m).lthread ≠ l) :
    ∃ p', callHistory.step p (.unlock m) p' ∧ (p'.1.mutex m).locked ≠ (p.1.mutex m).locked ∧
      p'.1.world.sched.blocked (.user (mutexCond m)) = [] ∧
      ∃ q q', callHistory.Steps (fun _ _ => True) p' q ∧ q.1.world.cpu = .run l ∧ callHistory.step q (.lock m) q' ∧
        0 < (q'.2 m l).held ∧ 0 < (q'.2 m (p.1.mutex m).lthread).held := by
  obtain ⟨x', hs, hdec, hlist, hcpu₁, hidle₁⟩ := advance_unlock_locked hcpu hidle hlocked
  obtain ⟨q, hq, h0, hcpu', hidle', hothers⟩ :=
    unlocks_to_free (p := (x', p.2.count m l Tally.unlock)) (m := m) rfl hcpu₁ hidle₁
  obtain ⟨hlock, hnote⟩ := advance_lock_free hcpu' hidle' h0 q.2
  have hne : (x'.mutex m).locked ≠ (p.1.mutex m).locked := by omega
  refine ⟨(x', p.2.count m l Tally.unlock), ⟨hs, (noteLock_unlock hcpu p.2).symm⟩, hne, hlist, q,
    (q.1.acquired l m ⟨1, l⟩, q.2.count m l Tally.lock), hq, hcpu', ⟨hlock, hnote.symm⟩, by simp, ?_⟩
  have hkept : q.2.count m l Tally.lock m (p.1.mutex m).lthread = p.2 m (p.1.mutex m).lthread := by
    rw [LockLog.count_lthread _ _ _ _ hother, hothers _ hother]
    exact LockLog.count_lthread _ _ _ _ hother
  refine lt_of_lt_of_le (Nat.pos_of_ne_zero hlocked) ((Covered.reachable h m).trans_eq ?_)
  exact congrArg Tally.held hkept.symm

set_option maxRecDepth 20000 in
/-- Lthread 0 has locked the mutex and sleeps; lthread 1 unlocks it, locks it, and both have it. -/
theorem rejected_unlock_shared : ∃ p, lockHistory.Reachable (fun _ _ => True) p ∧ p.1.world.cpu = .run 1 ∧
    p.1.mutex 0 = ⟨1, 0⟩ ∧ ∃ q r, lockHistory.step p (.unlock 0) q ∧ (q.1.mutex 0).locked = 0 ∧
      lockHistory.step q (.lock 0) r ∧ 0 < (r.2 0 0).held ∧ 0 < (r.2 0 1).held := by
  obtain ⟨p, hp, hsee⟩ := exists_after (fun _ _ => True)
    [.world .main, .world .main, .world .run, .world .sched, .world .sched, .world .sched, .lock 0,
      .world (.call (.sleep 5000)), .world .sched, .world .sched]
    (fun p => (p.1.world.cpu, p.1.mutex 0, (notedStep p (.unlock 0)).toOption.map fun q : Locks × LockLog => ((q.1.mutex 0).locked,
      (notedStep q (.lock 0)).toOption.map fun r : Locks × LockLog => decide (0 < (r.2 0 0).held ∧ 0 < (r.2 0 1).held))))
    (t := (.run 1, ⟨1, 0⟩, some (0, some true))) (by decide)
  simp only [Prod.mk.injEq, Option.map_eq_some_iff] at hsee
  obtain ⟨hcpu, hm, q, hq, h0, r, hr, hheld⟩ := hsee
  exact ⟨p, hp, hcpu, hm, q, r, notedStep_ok (except_toOption_some hq), h0, notedStep_ok (except_toOption_some hr),
    of_decide_eq_true hheld⟩

set_option maxRecDepth 20000 in
/-- The same with two locks of lthread 0 and lthread 1 on the blocked list. -/
theorem rejected_unlock_takes_effect_waiter : ∃ p p', lockHistory.Reachable (fun _ _ => True) p ∧
    p.1.world.cpu = .run 2 ∧ p.1.mutex 0 = ⟨2, 0⟩ ∧ p.1.world.sched.blocked (.user (mutexCond 0)) = [1] ∧
    callHistory.step p (.unlock 0) p' ∧ (p'.1.mutex 0).locked ≠ 2 ∧
      p'.1.world.sched.blocked (.user (mutexCond 0)) = [] := by
  obtain ⟨p, hp, hsee⟩ := exists_after (fun _ _ => True)
    [.world .main, .world .main, .world .main, .world .run, .world .sched, .world .sched, .world .sched, .lock 0, .lock 0,
      .world (.call (.sleep 5000)), .world .sched, .world .sched, .lock 0, .world .sched, .world .sched]
    (fun p => decide (p.1.world.cpu = .run 2 ∧ p.1.mutex 0 = ⟨2, 0⟩ ∧ p.1.locking 2 = none ∧
      p.1.world.sched.blocked (.user (mutexCond 0)) = [1])) (t := true) (by decide)
  obtain ⟨hcpu, hm, hidle, hlist⟩ := of_decide_eq_true hsee
  obtain ⟨p', hs, hne, hnil, -⟩ :=
    rejected_unlock_takes_effect (m := 0) (callHistory_reachable hp) hcpu hidle (by rw [hm]; decide) (by rw [hm]; decide)
  rw [hm] at hne
  exact ⟨p, p', hp, hcpu, hm, hlist, hs, hne, hnil⟩

end Locks
end Lthr
