import Lthread.Proofs.Dropped

/-! What one call of `lthread_cancel` does to the ready queue, and to the lthreads other
than its target. -/

namespace Lthr
namespace World

open Sched Seat

variable {x x' : World} {l target : LtId}

/-! The ready queue -/

theorem lthreadCancelEvent_ready (h : x.lthreadCancelEvent l = .ok x') : x'.sched.ready = x.sched.ready := by
  obtain ⟨C, p, -, -, rfl⟩ := lthreadCancelEvent_cases h
  change (eventCancelled l C (x.sched.lt l).fdWait x.sched).ready = x.sched.ready
  unfold eventCancelled lthreadDeschedEvent
  split_ifs
  · split <;> simp
  · simp

/-- If its bits say that the lthread waits, its key is that of a descriptor in the epoll set. -/
def Registered (x : World) (l : LtId) : Prop :=
  (∃ e, x.sched.has l (waitBit e) = true) →
    0 ≤ (x.sched.lt l).fdWait ∧ x.poller (fdOnly (x.sched.lt l).fdWait) ≠ none

theorem cancelEvent_returns_iff : (∃ x', x.lthreadCancelEvent l = .ok x') ↔ x.Registered l := by
  constructor
  · rintro ⟨x', hx⟩ ⟨e, he⟩
    obtain ⟨C, p, -, ⟨-, -, hno⟩ | ⟨-, hk, hclear⟩, -⟩ := lthreadCancelEvent_cases hx
    · exact absurd he (by simp [hno e])
    · exact ⟨hk, fun hp => by simp [Poller.clear, hp] at hclear⟩
  · intro h
    have hclear (e : LtEvent) (he : x.sched.has l (waitBit e) = true) :
        ∃ y, x.pollerEvClear l (waitBit e) = .ok y := by
      obtain ⟨hk, hp⟩ := h ⟨e, he⟩
      obtain ⟨i, hi⟩ := Option.ne_none_iff_exists'.mp hp
      unfold pollerEvClear
      simp only [if_pos hk, Poller.clear, hi]
      exact ⟨_, rfl⟩
    have hwait : ∃ y, x.clearWait l = .ok y := by
      unfold clearWait
      split_ifs with hr hw
      · exact hclear .read hr
      · exact hclear .write hw
      · exact ⟨x, rfl⟩
    obtain ⟨y, hy⟩ := hwait
    unfold lthreadCancelEvent
    rw [hy]
    exact ⟨_, rfl⟩

/-! `lthread_cancel` first marks its target and takes it out of the sleeping tree. -/

def marked (x : World) (target : LtId) : World :=
  x.onSched fun s => (s.setBit target .cancelled).lthreadDeschedSleep target

theorem marked_moves (x : World) (target : LtId) : ActsAt x.seat (x.marked target).seat target
    (deschedSleep ∘ onLt (·.setBit .cancelled)) :=
  (setBit_moves x.sched target .cancelled).trans (lthreadDeschedSleep_moves _ target) x.io x.compute

theorem marked_lt (x : World) (target : LtId) : (x.marked target).sched.lt target =
    Seat.woken ((x.sched.lt target).setBit .cancelled) :=
  (congrArg Seat.lt (marked_moves x target).self).trans (deschedSleep_lt _)

theorem marked_fdWait (x : World) (target m : LtId) :
    ((x.marked target).sched.lt m).fdWait = (x.sched.lt m).fdWait := by
  by_cases hm : m = target
  · rw [hm, marked_lt, woken_fdWait]
    rfl
  · exact congrArg (fun v => v.lt.fdWait) ((marked_moves x target).other hm)

theorem marked_waitBit (x : World) (target : LtId) (e : LtEvent) :
    (x.marked target).sched.has target (waitBit e) = x.sched.has target (waitBit e) := by
  change ((x.marked target).sched.lt target).state (waitBit e) = _
  rw [marked_lt, Seat.woken_state _ (by cases e <;> simp [waitBit]) (by cases e <;> rfl)]
  cases e <;> simp [Lt.setBit, waitBit, Sched.has]

theorem marked_waiting (x : World) (target : LtId) : (x.marked target).sched.waiting = x.sched.waiting := by
  simp [marked, World.onSched, World.sched]

theorem marked_registered : (x.marked target).Registered target ↔ x.Registered target := by
  unfold Registered
  simp only [marked_waitBit, marked_fdWait]
  rfl

theorem cancel_returns_iff : (∃ x', x.lthreadCancel target = .ok x') ↔
    (target < x.sched.spawned ∧ (x.sched.lt target).freed = false) ∧ x.Registered target := by
  constructor
  · rintro ⟨x', hx⟩
    obtain ⟨hlt, hf, y, hy, -⟩ := lthreadCancel_cases hx
    exact ⟨⟨hlt, hf⟩, marked_registered.mp (cancelEvent_returns_iff.mp ⟨y, hy⟩)⟩
  · rintro ⟨⟨hlt, hf⟩, hreg⟩
    obtain ⟨y, hy⟩ := cancelEvent_returns_iff.mpr (marked_registered.mpr hreg)
    have husable : x.usable target = .ok () := by
      unfold usable
      rw [if_neg (not_le.mpr hlt), if_neg (by simp [hf])]
    unfold lthreadCancel
    rw [husable]
    change ∃ x', ((x.marked target).lthreadCancelEvent target >>= fun x =>
      if x.sched.has target .pendingRuncompute ∨ x.sched.has target .waitIoRead ∨
          x.sched.has target .waitIoWrite ∨ x.sched.has target .runcompute then .ok x
      else .ok (x.onSched (·.readyInsert target)) : Except Fault World) = .ok x'
    rw [hy]
    by_cases hb : y.sched.has target .pendingRuncompute ∨ y.sched.has target .waitIoRead ∨
        y.sched.has target .waitIoWrite ∨ y.sched.has target .runcompute
    · exact ⟨_, if_pos hb⟩
    · exact ⟨_, if_neg hb⟩

/-- An lthread that no worker has shows no bit of one, until it has been dropped. -/
theorem unserved_bits (h : worldMachine.Reachable cancelsLive x) (hd : x.dropped l = false)
    (hu : (x.seat l).Unserved) : x.sched.has l .pendingRuncompute = false ∧
      (∀ e, x.sched.has l (waitIoBit e) = false) ∧ x.sched.has l .runcompute = false := by
  have hi : x.Inv true := Inv.reachable (h.mono fun _ _ h => h.1)
  obtain ⟨hio, hcomp, htaken, hdefer⟩ := hu
  refine ⟨Bool.eq_false_iff.mpr fun hp => ?_, fun e => Bool.eq_false_iff.mpr fun hp => ?_,
    Bool.eq_false_iff.mpr fun hp => ?_⟩
  · obtain ⟨j, -, hn⟩ := (hi.ok l).pending.mp hp
    simp [hn] at hcomp
  · obtain ⟨w, hx⟩ := ((hi.ok l).io e).mp hp
    have hrow := hi.row l
    rw [show (x.sched.lt l).ctx = _ from hx] at hrow
    rcases hrow.of_ioWait with hn | hn | ⟨hc, -⟩
    · simp [hn] at hio
    · simp [hn] at hdefer
    · have hserved := (droppedUnserved_reachable h l).served (by rw [hx]; trivial) hc ⟨hio, hcomp, htaken, hdefer⟩
      rw [hd] at hserved; cases hserved
  · obtain ⟨j, -, hn | hn⟩ := (hi.ok l).computing.mp hp
    · simp [hn] at hcomp
    · simp [hn] at htaken

/-- `lthread_cancel` puts an lthread that is with no worker at the end of the ready queue. -/
theorem cancel_appends (h : worldMachine.Reachable cancelsLive x) (hd : x.dropped target = false)
    (hu : (x.seat target).Unserved) (hx : x.lthreadCancel target = .ok x') :
    x'.sched.ready = x.sched.ready ++ [target] := by
  have hi : x.Inv true := Inv.reachable (h.mono fun _ _ h => h.1)
  obtain ⟨hp, hio, hrc⟩ := unserved_bits h hd hu
  obtain ⟨-, -, y, hy, hcases⟩ := lthreadCancel_cases hx
  have hready : y.sched.ready = x.sched.ready := by
    rw [lthreadCancelEvent_ready hy]
    simp [World.onSched, World.sched]
  -- the bits that the cancellation looks at are those from before the call
  obtain ⟨τ, w, -, hc, hm⟩ := lthreadCancel_acts hi.seated hy
  have hbit (b : LtSt) (h1 : b ≠ .sleeping) (h2 : b ≠ .cancelled) (h3 : b.free = false)
      (h4 : ∀ e, b ≠ waitBit e) : y.sched.has target b = x.sched.has target b := by
    have hself : y.seat target = w := hm.self
    change (y.seat target).lt.state b = _
    rw [hself]
    exact hc.bits b h1 h2 h3 h4
  rcases hcases with ⟨-, hb | ⟨e, hb⟩ | hb⟩ | ⟨rfl, -⟩
  · rw [hbit _ (by simp) (by simp) rfl (by intro e; cases e <;> simp [waitBit]), hp] at hb
    cases hb
  · rw [hbit _ (by cases e <;> simp [waitIoBit]) (by cases e <;> simp [waitIoBit]) (by cases e <;> rfl)
      (by intro e'; cases e <;> cases e' <;> simp [waitBit, waitIoBit]), hio e] at hb
    cases hb
  · rw [hbit _ (by simp) (by simp) rfl (by intro e; cases e <;> simp [waitBit]), hrc] at hb
    cases hb
  · change y.sched.ready ++ [target] = _
    rw [hready]

/-- `lthread_cancel` of a live lthread that no worker has leaves it on the ready queue once,
behind the others, exactly if it was not on the queue before and the call returns at all. -/
theorem cancel_keeps_queue (h : worldMachine.Reachable cancelsLive x) (hcpu : x.cpu = .run l)
    (hlive : target < x.sched.spawned ∧ (x.sched.lt target).freed = false ∧ x.dropped target = false)
    (hw : (∀ w, target ∉ (x.io w).jobs) ∧
      (∀ j, target ∉ (x.compute j).lthreads ∧ target ∉ (x.compute j).pc.owned) ∧ target ∉ x.sched.defer) :
    ((∃ x', x.step (.call (.cancel target)) = .ok x' ∧ x'.sched.ready.count target = 1 ∧
      x'.sched.ready.filter (· ≠ target) = x.sched.ready.filter (· ≠ target)) ↔
        target ∉ x.sched.ready ∧ x.Registered target) ∧
    ∀ x', x.step (.call (.cancel target)) = .ok x' → x'.sched.ready = x.sched.ready ++ [target] := by
  obtain ⟨hlt, hf, hd⟩ := hlive
  have happ {y : World} (hy : x.step (.call (.cancel target)) = .ok y) :
      x.lthreadCancel target = .ok y ∧ y.sched.ready = x.sched.ready ++ [target] := by
    have hy : x.lthreadCancel target = .ok y := (advance_call hcpu _).symm.trans (step_advance hy)
    exact ⟨hy, cancel_appends h hd (unserved_iff.mpr hw) hy⟩
  refine ⟨⟨?_, ?_⟩, fun x' hx => (happ hx).2⟩
  · rintro ⟨x', hx, hone, -⟩
    obtain ⟨hx, hready⟩ := happ hx
    refine ⟨fun hq => ?_, (cancel_returns_iff.mp ⟨x', hx⟩).2⟩
    have hq : 0 < x.sched.ready.count target := List.count_pos_iff.mpr hq
    rw [hready, List.count_append, List.count_singleton_self] at hone
    omega
  · rintro ⟨hq, hreg⟩
    obtain ⟨x', hx⟩ := cancel_returns_iff.mpr ⟨⟨hlt, hf⟩, hreg⟩
    have hready := cancel_appends h hd (unserved_iff.mpr hw) hx
    refine ⟨x', step_ok.mpr ⟨(advance_call hcpu _).trans hx, ?_⟩, ?_, ?_⟩
    · rw [hready]
      exact (ready_nodup h).append (List.nodup_singleton _) (by simpa using hq)
    · rw [hready, List.count_append, List.count_eq_zero.mpr hq, List.count_singleton_self]
    · rw [hready, List.filter_append]
      simp

set_option maxRecDepth 20000 in
/-- An lthread that is on the ready queue already is inserted again. -/
theorem cancel_links_twice : ∃ x x', worldMachine.Reachable undisturbed x ∧ x.cpu = .run 0 ∧
    1 < x.sched.spawned ∧ (x.sched.lt 1).ctx = .start ∧ x.lthreadCancel 1 = .ok x' ∧
      x'.sched.ready.count 1 = 2 ∧ x.step (.call (.cancel 1)) = .error .relinked := by
  obtain ⟨x, hx, hsee⟩ := exists_after undisturbed [.main, .main, .run, .sched, .sched, .sched]
    (fun x => (x.cpu, x.sched.spawned, (x.sched.lt 1).ctx, (x.lthreadCancel 1).toOption.map (·.sched.ready)))
    (t := (.run 0, 2, .start, some [1, 1])) (by decide)
  simp only [Prod.mk.injEq, Option.map_eq_some_iff] at hsee
  obtain ⟨hcpu, hn, hc, x', hx', hr⟩ := hsee
  replace hx' := except_toOption_some hx'
  exact ⟨x, x', hx, hcpu, by omega, hc, hx', by simp [hr], step_relinked hcpu hx' (by simp [hr])⟩

set_option maxRecDepth 20000 in
/-- Lthread 0 waits for a descriptor when lthread 1 cancels it. -/
theorem cancel_keeps_queue_waiting : ∃ x x', worldMachine.Reachable cancelsLive x ∧ x.cpu = .run 1 ∧
    0 ∈ x.sched.waiting ∧ x.sched.ready = [2] ∧ x.step (.call (.cancel 0)) = .ok x' ∧
      x'.sched.ready = [2, 0] ∧ x'.sched.ready.count 0 = 1 := by
  obtain ⟨x, hx, hsee⟩ := exists_after cancelsLive
    [.main, .main, .main, .run, .sched, .sched, .sched, .call (.schedEvent 5 .read 20), .sched, .sched]
    (fun x => decide ((x.cpu = .run 1 ∧ x.sched.waiting = [0] ∧ x.sched.ready = [2] ∧ 0 < x.sched.spawned) ∧
      (x.sched.lt 0).freed = false ∧ x.dropped 0 = false ∧ (x.sched.lt 0).fdWait = fdKey 5 .read ∧
        (x.poller 5).isSome = true)) (t := true) (by decide)
  obtain ⟨⟨hcpu, hw, hr, hn⟩, hf, hd, hkey, hp⟩ := of_decide_eq_true hsee
  have hi : x.Inv true := Inv.reachable (hx.mono fun _ _ h => h.1)
  have hu : (x.seat 0).Unserved := by
    obtain ⟨-, fd, e, t, -, hcnt⟩ := (hi.row 0).of_waiting (count_ne_zero (by rw [hw]; exact List.mem_singleton.mpr rfl))
    unfold Unserved
    rw [hcnt]
    exact ⟨rfl, rfl, rfl, rfl⟩
  obtain ⟨hiff, hready⟩ := cancel_keeps_queue hx hcpu ⟨hn, hf, hd⟩ (unserved_iff.mp hu)
  obtain ⟨x', hs, hone, -⟩ := hiff.mpr ⟨by simp [hr], fun _ => by
    rw [hkey, fdOnly_fdKey]
    exact ⟨fdKey_nonneg 5 .read, Option.isSome_iff_ne_none.mp hp⟩⟩
  exact ⟨x, x', hx, hcpu, by simp [hw], hr, hs, by simp [hready x' hs, hr], hone⟩

/-! The other lthreads -/

/-- `_lthread_cancel_event` touches nobody else, unless somebody else waits under the key
of the lthread. -/
theorem lthreadCancelEvent_others (h : x.lthreadCancelEvent l = .ok x')
    (hkey : 0 ≤ (x.sched.lt l).fdWait → ∀ m ∈ x.sched.waiting, m ≠ l →
      (x.sched.lt m).fdWait ≠ fdKey (fdOnly (x.sched.lt l).fdWait) (fdEvent (x.sched.lt l).fdWait)) :
    ∀ m ≠ l, x'.seat m = x.seat m := by
  obtain ⟨C, p, -, -, rfl⟩ := lthreadCancelEvent_cases h
  intro m hm
  change seatOf (eventCancelled l C (x.sched.lt l).fdWait x.sched) x.io x.compute m = x.seat m
  unfold eventCancelled
  rw [(modify_moves _ l _ x.io x.compute).other hm]
  have hC := (modify_moves x.sched l C x.io x.compute).other hm
  split_ifs with hk
  · rcases lthreadDeschedEvent_cases (x.sched.modify l C) (fdOnly (x.sched.lt l).fdWait)
      (fdEvent (x.sched.lt l).fdWait) with ⟨heq, -⟩ | ⟨m', s', heq, hmem, hfound, hmoves⟩
    · rw [heq]; exact hC
    · have hml : m' = l := by
        by_contra hne
        rw [modify_lt, if_neg hne] at hfound
        exact hkey hk m' hmem hne hfound
      subst hml
      rw [heq]
      exact ((hmoves x.io x.compute).other hm).trans hC
  · exact hC

/-- Somebody else who waits under the key of the lthread is taken out of the waiting tree,
in which each key is there once. -/
theorem lthreadCancelEvent_stray (h : x.lthreadCancelEvent l = .ok x') {m : LtId} (hm : m ∈ x.sched.waiting)
    (hne : m ≠ l) (hk : 0 ≤ (x.sched.lt l).fdWait) (hone : x.sched.waiting.count m = 1)
    (hkey : (x.sched.lt m).fdWait = fdKey (fdOnly (x.sched.lt l).fdWait) (fdEvent (x.sched.lt l).fdWait))
    (hkeys : ∀ i ∈ x.sched.waiting, (x.sched.lt i).fdWait = (x.sched.lt m).fdWait → i = m) :
    m ∉ x'.sched.waiting := by
  obtain ⟨C, p, hC, -, rfl⟩ := lthreadCancelEvent_cases h
  change m ∉ (eventCancelled l C (x.sched.lt l).fdWait x.sched).waiting
  unfold eventCancelled
  rw [if_pos hk, modify_waiting]
  have hfd (i : LtId) : ((x.sched.modify l C).lt i).fdWait = (x.sched.lt i).fdWait := by
    rw [modify_lt]
    split_ifs with hi
    · rw [hi]
      rcases hC with rfl | ⟨e, rfl⟩ <;> rfl
    · rfl
  unfold lthreadDeschedEvent
  cases hf : (x.sched.modify l C).waiting.find? fun i => decide (((x.sched.modify l C).lt i).fdWait =
      fdKey (fdOnly (x.sched.lt l).fdWait) (fdEvent (x.sched.lt l).fdWait)) with
  | none => exact absurd ((hfd m).trans hkey) (by simpa using List.find?_eq_none.mp hf m hm)
  | some i =>
    have hfound := List.find?_some hf
    rw [decide_eq_true_iff, hfd, ← hkey] at hfound
    obtain rfl : i = m := hkeys i (List.mem_of_find?_eq_some hf) hfound
    change i ∉ (lthreadDeschedSleep _ i).waiting
    rw [lthreadDeschedSleep_waiting, ← List.count_eq_zero]
    change (x.sched.waiting.erase i).count i = 0
    rw [List.count_erase_self, hone]

theorem mem_waiting : l ∈ x.sched.waiting ↔ (x.seat l).cnt.waiting ≠ 0 := ⟨count_ne_zero, mem_of_count⟩

theorem mem_sleeping : l ∈ x.sched.sleeping ↔ (x.seat l).cnt.sleeping ≠ 0 := ⟨count_ne_zero, mem_of_count⟩

theorem lthreadCancelEvent_poller (h : x.lthreadCancelEvent l = .ok x') :
    (∀ e, x.sched.has l (waitBit e) = false) ∧ x'.poller = x.poller ∨
      (∃ e, x.sched.has l (waitBit e) = true) ∧
        x'.poller = Function.update x.poller (fdOnly (x.sched.lt l).fdWait) none := by
  obtain ⟨C, p, -, ⟨-, rfl, hno⟩ | ⟨hbit, -, hclear⟩, rfl⟩ := lthreadCancelEvent_cases h
  · exact Or.inl ⟨hno, rfl⟩
  · refine Or.inr ⟨hbit, ?_⟩
    unfold Poller.clear at hclear
    split at hclear
    · cases hclear
    · exact (Option.some_inj.mp hclear).symm

/-- What the key and the bits of `l` tell `lthread_cancel` to take away is nobody else's. -/
structure KeyIsOwn (x : World) (l : LtId) : Prop where
  waiting : 0 ≤ (x.sched.lt l).fdWait → ∀ m ∈ x.sched.waiting, m ≠ l →
    (x.sched.lt m).fdWait ≠ fdKey (fdOnly (x.sched.lt l).fdWait) (fdEvent (x.sched.lt l).fdWait)
  armed : (∃ e, x.sched.has l (waitBit e) = true) → ∀ m ∈ x.sched.waiting, m ≠ l →
    ∀ e, (x.sched.lt m).fdWait = fdKey (fdOnly (x.sched.lt l).fdWait) e →
      x.poller.armed (fdOnly (x.sched.lt l).fdWait) e = false

/-- The lthreads other than `target` are in the trees where they were, and what they wait for
is armed where it was. -/
structure TreesKept (target : LtId) (x x' : World) : Prop where
  waiting : ∀ m ≠ target, m ∈ x'.sched.waiting ↔ m ∈ x.sched.waiting
  sleeping : ∀ m ≠ target, m ∈ x'.sched.sleeping ↔ m ∈ x.sched.sleeping
  armed : ∀ m ∈ x.sched.waiting, m ≠ target → ∀ fd e, (x.sched.lt m).fdWait = fdKey fd e →
    x'.poller.armed fd e = x.poller.armed fd e

/-- What `lthread_cancel` does after the mark is done by `_lthread_cancel_event`, as far as the
trees and the epoll set go. -/
theorem lthreadCancel_trees (h : x.lthreadCancel target = .ok x') :
    ∃ y, (x.marked target).lthreadCancelEvent target = .ok y ∧ x'.sched.waiting = y.sched.waiting ∧
      x'.poller = y.poller ∧ ∀ m ≠ target, x'.seat m = y.seat m := by
  obtain ⟨-, -, y, hy, ⟨rfl, -⟩ | ⟨rfl, -⟩⟩ := lthreadCancel_cases h
  · exact ⟨x', hy, rfl, rfl, fun m _ => rfl⟩
  · exact ⟨y, hy, rfl, rfl, fun m hm => (readyInsert_moves y.sched target y.io y.compute).other hm⟩

theorem KeyIsOwn.treesKept (h : x.KeyIsOwn target) (hx : x.lthreadCancel target = .ok x') :
    TreesKept target x x' := by
  obtain ⟨y, hy, -, hpoller, hothers⟩ := lthreadCancel_trees hx
  have hsame (m : LtId) (hm : m ≠ target) : x'.seat m = x.seat m := by
    rw [hothers m hm, ← (marked_moves x target).other hm]
    refine lthreadCancelEvent_others hy ?_ m hm
    simpa only [marked_fdWait, marked_waiting] using h.waiting
  refine ⟨fun m hm => ?_, fun m hm => ?_, fun m hm hne fd e he => ?_⟩
  · rw [mem_waiting, mem_waiting, hsame m hm]
  · rw [mem_sleeping, mem_sleeping, hsame m hm]
  · rw [hpoller]
    rcases lthreadCancelEvent_poller hy with ⟨-, hp⟩ | ⟨hbit, hp⟩
    · rw [hp]; rfl
    · simp only [marked_waitBit, marked_fdWait] at hbit hp
      by_cases hfd : fd = fdOnly (x.sched.lt target).fdWait
      · subst hfd
        rw [h.armed hbit m hm hne e he, hp]
        simp [Poller.armed]
      · rw [hp]
        unfold Poller.armed
        rw [Function.update_of_ne hfd]
        rfl

theorem TreesKept.keyIsOwn (hi : x.Inv true) (hx : x.lthreadCancel target = .ok x') (h : TreesKept target x x') :
    x.KeyIsOwn target := by
  obtain ⟨y, hy, hwaiting, hpoller, -⟩ := lthreadCancel_trees hx
  constructor
  · intro hk m hm hne hkey
    refine lthreadCancelEvent_stray hy (m := m) ?_ hne ?_ ?_ ?_ ?_ (hwaiting ▸ (h.waiting m hne).mpr hm)
    · rwa [marked_waiting]
    · rwa [marked_fdWait]
    · rw [marked_waiting]
      exact le_antisymm (hi.ok m).waiting_le (List.count_pos_iff.mpr hm)
    · simpa only [marked_fdWait] using hkey
    · intro i hmi heq
      simp only [marked_fdWait, marked_waiting] at hmi heq
      exact hi.seated.links.keys i m (count_ne_zero hmi) (count_ne_zero hm) heq
  · intro hbit m hm hne e hkey
    have hkept := h.armed m hm hne _ e hkey
    rcases lthreadCancelEvent_poller hy with ⟨hno, -⟩ | ⟨-, hp⟩
    · obtain ⟨e', he'⟩ := hbit
      rw [← marked_waitBit, hno e'] at he'
      cases he'
    · rw [← hkept, hpoller, hp, marked_fdWait]
      simp [Poller.armed]

/-- `lthread_cancel` of a live lthread returns and leaves the other lthreads in the trees and
armed if the descriptor it is to delete is in the epoll set and what it takes away is nobody
else's; and only then in the runs with a turn for every call. -/
theorem cancel_is_local (hlive : target < x.sched.spawned ∧ (x.sched.lt target).freed = false) :
    (x.Registered target → x.KeyIsOwn target →
      ∃ x', x.lthreadCancel target = .ok x' ∧ TreesKept target x x') ∧
    (worldMachine.Reachable (stepOk true) x →
      (∃ x', x.lthreadCancel target = .ok x' ∧ TreesKept target x x') →
        x.Registered target ∧ x.KeyIsOwn target) := by
  constructor
  · intro hreg hown
    obtain ⟨x', hx⟩ := cancel_returns_iff.mpr ⟨hlive, hreg⟩
    exact ⟨x', hx, hown.treesKept hx⟩
  · rintro h ⟨x', hx, hkept⟩
    exact ⟨(cancel_returns_iff.mp ⟨x', hx⟩).2, hkept.keyIsOwn (Inv.reachable h) hx⟩

set_option maxRecDepth 20000 in
/-- Lthread 0 has been woken by `lthread_close`, and lthread 1 waits on a new descriptor of
the same number. The cancellation of lthread 0 takes the registration of lthread 1. -/
theorem cancel_hits_another : ∃ x x', worldMachine.Reachable undisturbed x ∧ x.cpu = .run 2 ∧
    x.lthreadCancel 0 = .ok x' ∧ (1 ∈ x.sched.waiting ∧ 1 ∈ x.sched.sleeping ∧
      (x.sched.lt 1).fdWait = fdKey 5 .read ∧ x.poller.armed 5 .read = true) ∧
    1 ∉ x'.sched.waiting ∧ 1 ∉ x'.sched.sleeping ∧ x'.poller.armed 5 .read = false := by
  obtain ⟨x, hx, hsee⟩ := exists_after undisturbed
    [.main, .main, .main, .run, .sched, .sched, .sched, .call (.schedEvent 5 .read 20), .sched, .sched,
      .call (.close 5), .call (.schedEvent 5 .read 20), .sched, .sched]
    (fun x => (x.cpu, (x.lthreadCancel 0).toOption.map fun x' : World => decide ((1 ∈ x.sched.waiting ∧ 1 ∈ x.sched.sleeping ∧
      (x.sched.lt 1).fdWait = fdKey 5 .read ∧ x.poller.armed 5 .read = true) ∧
      1 ∉ x'.sched.waiting ∧ 1 ∉ x'.sched.sleeping ∧ x'.poller.armed 5 .read = false)))
    (t := (.run 2, some true)) (by decide)
  simp only [Prod.mk.injEq, Option.map_eq_some_iff] at hsee
  obtain ⟨hcpu, x', hx', hsee⟩ := hsee
  exact ⟨x, x', hx, hcpu, except_toOption_some hx', of_decide_eq_true hsee⟩

set_option maxRecDepth 20000 in
/-- Two lthreads wait on different descriptors, and one of them is cancelled. -/
theorem cancel_is_local_twoWaiters : ∃ x x', worldMachine.Reachable undisturbed x ∧
    x.lthreadCancel 0 = .ok x' ∧ x.sched.waiting = [1, 0] ∧ 1 ∈ x'.sched.waiting ∧
      x'.poller.armed 6 .read = true := by
  obtain ⟨x, hx, hsee⟩ := exists_after undisturbed
    [.main, .main, .main, .run, .sched, .sched, .sched, .call (.schedEvent 5 .read 20), .sched, .sched,
      .call (.schedEvent 6 .read 20), .sched, .sched]
    (fun x => decide ((0 < x.sched.spawned ∧ (x.sched.lt 0).freed = false) ∧ x.sched.waiting = [1, 0] ∧
      (x.sched.lt 0).fdWait = fdKey 5 .read ∧ (x.sched.lt 1).fdWait = fdKey 6 .read ∧
      (x.poller 5).isSome = true ∧ x.poller.armed 6 .read = true)) (t := true) (by decide)
  obtain ⟨hlive, hw, h0, h1, hp, harmed⟩ := of_decide_eq_true hsee
  have hother {m : LtId} (hm : m ∈ x.sched.waiting) (hne : m ≠ 0) : m = 1 := by
    rw [hw] at hm
    simpa [hne] using hm
  have hreg : x.Registered 0 := fun _ => by
    rw [h0, fdOnly_fdKey]
    exact ⟨fdKey_nonneg 5 .read, Option.isSome_iff_ne_none.mp hp⟩
  have hown : x.KeyIsOwn 0 := by
    constructor
    · intro _ m hm hne
      obtain rfl := hother hm hne
      rw [h0, h1, fdOnly_fdKey, fdEvent_fdKey]
      decide
    · intro _ m hm hne e he
      obtain rfl := hother hm hne
      rw [h0, h1, fdOnly_fdKey] at he
      cases e <;> exact absurd he (by decide)
  obtain ⟨x', hx', hkept⟩ := (cancel_is_local hlive).1 hreg hown
  have hmem : 1 ∈ x.sched.waiting := by simp [hw]
  exact ⟨x, x', hx, hx', hw, (hkept.waiting 1 (by decide)).mpr hmem,
    (hkept.armed 1 hmem (by decide) 6 .read h1).trans harmed⟩

end World
end Lthr
