import Lthread.Proofs.Place

/-! The seat of one lthread: how its state bits go with the structures it is in, and
how each move of the scheduler or of a worker keeps them together. -/

namespace Lthr
namespace Seat

structure Ok (k : Bool) (l : LtId) (v : Seat) : Prop where
  row : Row k (v.lt.state .cancelled) v.lt.ctx v.cnt
  cancelled : v.lt.state .cancelled = true → k = true
  new : v.lt.state .new = true ↔ v.lt.ctx = .start
  sleeping : v.lt.state .sleeping = true ↔ v.cnt.sleeping ≠ 0
  key : v.lt.fdWait = -1 ∨ ∃ fd e t, v.lt.ctx = .schedEvent fd e t ∧ v.lt.fdWait = fdKey fd e
  waiting : v.cnt.waiting ≠ 0 → v.lt.fdWait ≠ -1
  wait : ∀ e, v.lt.state (waitBit e) = true → ∃ fd t, v.lt.ctx = .schedEvent fd e t
  io : ∀ e, v.lt.state (waitIoBit e) = true ↔ ∃ w, v.lt.ctx = .ioWait e w
  pending : v.lt.state .pendingRuncompute = true ↔
    ∃ j, v.lt.ctx = .compute j ∧ v.cnt = { compute := Pi.single j 1 }
  computing : v.lt.state .runcompute = true ↔ ∃ j, v.lt.ctx = .compute j ∧
    (v.cnt = { busy := 1, compute := Pi.single j 1 } ∨ v.cnt = { busy := 1, taken := Pi.single j 1 })
  computeSched : ∀ j, v.lt.ctx = .compute j → v.lt.computeSched = some j
  exited : v.lt.state .exited = true ↔ v.lt.ctx = .exited
  stack : ∀ m t, v.lt.ctx.cond = some (.sel (.stack m), t) → m = l

namespace Ok

variable {k : Bool} {l : LtId} {v : Seat}

theorem same (h : Ok k l v) {lt : Lt} (hs : Lt.Same v.lt lt) : Ok k l { v with lt := lt } := by
  have hb (b : LtSt) (hf : b.free = false) : lt.state b = v.lt.state b := hs.state b hf
  refine ⟨?_, ?_, ?_, ?_, ?_, ?_, fun e => ?_, fun e => ?_, ?_, ?_, ?_, ?_, ?_⟩
  · rw [hb _ rfl, hs.ctx]; exact h.row
  · rw [hb _ rfl]; exact h.cancelled
  · rw [hb _ rfl, hs.ctx]; exact h.new
  · rw [hb _ rfl]; exact h.sleeping
  · rw [hs.fdWait, hs.ctx]; exact h.key
  · rw [hs.fdWait]; exact h.waiting
  · rw [hb _ (by cases e <;> rfl), hs.ctx]; exact h.wait e
  · rw [hb _ (by cases e <;> rfl), hs.ctx]; exact h.io e
  · rw [hb _ rfl, hs.ctx]; exact h.pending
  · rw [hb _ rfl, hs.ctx]; exact h.computing
  · rw [hs.ctx, hs.computeSched]; exact h.computeSched
  · rw [hb _ rfl, hs.ctx]; exact h.exited
  · rw [hs.ctx]; exact h.stack

/-- The record of an lthread that runs: it is nowhere, and no bit places it. -/
structure Runs (v : Seat) : Prop where
  cnt : v.cnt = {}
  fdWait : v.lt.fdWait = -1
  bits : ∀ b : LtSt, b.free = false → v.lt.state b = false

theorem runs (h : Ok k l v) (hr : v.lt.ctx = .running) : Runs v := by
  have hrow := h.row
  rw [hr] at hrow
  obtain ⟨hc, hn⟩ := hrow.of_running
  have hwait (e : LtEvent) : ¬ v.lt.state (waitBit e) = true := by
    intro he
    obtain ⟨fd, t, hx⟩ := h.wait e he
    rw [hr] at hx; cases hx
  have hio (e : LtEvent) : ¬ v.lt.state (waitIoBit e) = true := by simp [h.io, hr]
  refine ⟨hn, ?_, fun b hb => ?_⟩
  · rcases h.key with hk | ⟨fd, e, t, hc, -⟩
    · exact hk
    · rw [hr] at hc; cases hc
  · rw [Bool.eq_false_iff]
    cases b with
    | cancelled => simp [hc]
    | new => simp [h.new, hr]
    | sleeping => simp [h.sleeping, hn]
    | waitRead => exact hwait .read
    | waitWrite => exact hwait .write
    | waitIoRead => exact hio .read
    | waitIoWrite => exact hio .write
    | pendingRuncompute => simp [h.pending, hr]
    | runcompute => simp [h.computing, hr]
    | exited =>
      intro he
      have hx := h.exited.mp he
      rw [hr] at hx; cases hx
    | _ => cases hb

theorem of_runs {v : Seat} (h : Runs v) (hr : v.lt.ctx = .running) : Ok k l v := by
  have hb (b : LtSt) (hf : b.free = false) := h.bits b hf
  refine ⟨?_, ?_, ?_, ?_, Or.inl h.fdWait, ?_, fun e => ?_, fun e => ?_, ?_, ?_, fun j => ?_, ?_,
    fun m t => ?_⟩
  · rw [hb _ rfl, hr, h.cnt]; exact Row.running
  · simp [hb .cancelled rfl]
  · simp [hb .new rfl, hr]
  · simp [hb .sleeping rfl, h.cnt]
  · simp [h.cnt]
  · simp [hb (waitBit e) (by cases e <;> rfl)]
  · simp [hb (waitIoBit e) (by cases e <;> rfl), hr]
  · simp [hb .pendingRuncompute rfl, hr]
  · simp [hb .runcompute rfl, hr]
  · simp [hr]
  · simp [hb .exited rfl, hr]
  · simp [hr, Ctx.cond]

/-- A seat in which the lthread waits for neither a descriptor nor a worker. -/
theorem of_plain {v : Seat} (hrow : Row k false v.lt.ctx v.cnt) (hw : v.cnt.waiting = 0)
    (hctx : v.lt.ctx = .yielded ∨ (∃ t, v.lt.ctx = .slept t) ∨ (∃ i, v.lt.ctx.cond = some i) ∨
      ∃ target t, v.lt.ctx = .joining target t)
    (hsleep : v.lt.state .sleeping = true ↔ v.cnt.sleeping ≠ 0)
    (hstack : ∀ m t, v.lt.ctx.cond = some (.sel (.stack m), t) → m = l) (hfd : v.lt.fdWait = -1)
    (hb : ∀ b, b ≠ .sleeping → b.free = false → v.lt.state b = false) : Ok k l v := by
  have hne : v.lt.ctx ≠ .start ∧ (∀ e w, v.lt.ctx ≠ .ioWait e w) ∧ (∀ j, v.lt.ctx ≠ .compute j) ∧
      v.lt.ctx ≠ .exited := by
    rcases hctx with h | ⟨t, h⟩ | ⟨i, h⟩ | ⟨target, t, h⟩
    · simp [h]
    · simp [h]
    · refine ⟨fun h' => ?_, fun e w h' => ?_, fun j h' => ?_, fun h' => ?_⟩ <;> rw [h'] at h <;> cases h
    · simp [h]
  refine ⟨?_, ?_, ?_, hsleep, Or.inl hfd, fun h => absurd hw h, fun e => ?_, fun e => ?_, ?_, ?_,
    fun j h => absurd h (hne.2.2.1 j), ?_, hstack⟩
  · rwa [hb .cancelled (by simp) rfl]
  · simp [hb .cancelled (by simp) rfl]
  · simp [hb .new (by simp) rfl, hne.1]
  · simp [hb (waitBit e) (by cases e <;> simp [waitBit]) (by cases e <;> rfl)]
  · simp [hb (waitIoBit e) (by cases e <;> simp [waitIoBit]) (by cases e <;> rfl), hne.2.1]
  · simp [hb .pendingRuncompute (by simp) rfl, hne.2.2.1]
  · simp [hb .runcompute (by simp) rfl, hne.2.2.1]
  · simp [hb .exited (by simp) rfl, hne.2.2.2]

end Ok

/-! The parts of a seat after the primitives -/

section Primitives

variable (v : Seat) (n u : ℕ) (f : Lt → Lt) (i : CondId)

@[simp] theorem onLt_lt : (onLt f v).lt = f v.lt := rfl
@[simp] theorem onLt_cnt : (onLt f v).cnt = v.cnt := rfl
@[simp] theorem addReady_lt : (addReady v).lt = v.lt := rfl
@[simp] theorem addReady_cnt : (addReady v).cnt = { v.cnt with ready := v.cnt.ready + 1 } := rfl
@[simp] theorem addBusy_lt : (addBusy v).lt = v.lt := rfl
@[simp] theorem addBusy_cnt : (addBusy v).cnt = { v.cnt with busy := v.cnt.busy + 1 } := rfl
@[simp] theorem dropBusy_lt : (dropBusy v).lt = v.lt := rfl
@[simp] theorem dropBusy_cnt : (dropBusy v).cnt = { v.cnt with busy := v.cnt.busy - 1 } := rfl
@[simp] theorem addWaiting_lt : (addWaiting v).lt = v.lt := rfl
@[simp] theorem addWaiting_cnt :
    (addWaiting v).cnt = { v.cnt with waiting := v.cnt.waiting + 1 } := rfl
@[simp] theorem dropReady_lt : (dropReady v).lt = v.lt := rfl
@[simp] theorem dropReady_cnt : (dropReady v).cnt = { v.cnt with ready := v.cnt.ready - 1 } := rfl
@[simp] theorem dropDefer_lt : (dropDefer v).lt = v.lt := rfl
@[simp] theorem dropDefer_cnt : (dropDefer v).cnt = { v.cnt with defer := v.cnt.defer - 1 } := rfl
@[simp] theorem addBlocked_lt : (addBlocked i v).lt = v.lt := rfl
@[simp] theorem addBlocked_cnt :
    (addBlocked i v).cnt = { v.cnt with blocked := bump v.cnt.blocked i } := rfl
@[simp] theorem dropBlocked_lt : (dropBlocked i v).lt = v.lt := rfl
@[simp] theorem dropBlocked_cnt :
    (dropBlocked i v).cnt = { v.cnt with blocked := lower v.cnt.blocked i } := rfl

@[simp] theorem schedSleep_cnt :
    (schedSleep n u v).cnt = { v.cnt with sleeping := v.cnt.sleeping + asleep n } := by
  by_cases hn : n = 0 <;> simp [schedSleep, asleep, hn]

@[simp] theorem schedSleep_ctx : (schedSleep n u v).lt.ctx = v.lt.ctx := by
  by_cases hn : n = 0 <;> simp [schedSleep, hn, Lt.setBit]
@[simp] theorem schedSleep_fdWait : (schedSleep n u v).lt.fdWait = v.lt.fdWait := by
  by_cases hn : n = 0 <;> simp [schedSleep, hn, Lt.setBit]
@[simp] theorem schedSleep_ltJoin : (schedSleep n u v).lt.ltJoin = v.lt.ltJoin := by
  by_cases hn : n = 0 <;> simp [schedSleep, hn, Lt.setBit]
@[simp] theorem schedSleep_freed : (schedSleep n u v).lt.freed = v.lt.freed := by
  by_cases hn : n = 0 <;> simp [schedSleep, hn, Lt.setBit]
@[simp] theorem schedSleep_computeSched :
    (schedSleep n u v).lt.computeSched = v.lt.computeSched := by
  by_cases hn : n = 0 <;> simp [schedSleep, hn, Lt.setBit]
theorem schedSleep_state (b : LtSt) : (schedSleep n u v).lt.state b =
    if b = .sleeping ∧ n ≠ 0 then true else v.lt.state b := by
  by_cases hn : n = 0 <;> by_cases hb : b = .sleeping <;> simp [schedSleep, hn, hb, Lt.setBit]

@[simp] theorem schedSleepEnd_cnt : (schedSleepEnd n v).cnt = v.cnt := rfl
@[simp] theorem schedSleepEnd_ctx : (schedSleepEnd n v).lt.ctx = v.lt.ctx := by
  by_cases hn : 0 < n <;> simp [schedSleepEnd, hn, Lt.clearBit]
@[simp] theorem schedSleepEnd_fdWait : (schedSleepEnd n v).lt.fdWait = v.lt.fdWait := by
  by_cases hn : 0 < n <;> simp [schedSleepEnd, hn, Lt.clearBit]
@[simp] theorem schedSleepEnd_ltJoin : (schedSleepEnd n v).lt.ltJoin = v.lt.ltJoin := by
  by_cases hn : 0 < n <;> simp [schedSleepEnd, hn, Lt.clearBit]
@[simp] theorem schedSleepEnd_freed : (schedSleepEnd n v).lt.freed = v.lt.freed := by
  by_cases hn : 0 < n <;> simp [schedSleepEnd, hn, Lt.clearBit]
theorem schedSleepEnd_state (b : LtSt) : (schedSleepEnd n v).lt.state b =
    if b = .sleeping ∧ 0 < n then false else v.lt.state b := by
  by_cases hn : 0 < n <;> by_cases hb : b = .sleeping <;> simp [schedSleepEnd, hn, hb, Lt.clearBit]

def woken (lt : Lt) : Lt :=
  if lt.state .sleeping then ((lt.clearBit .sleeping).setBit .ready).clearBit .expired else lt

variable (lt : Lt)

@[simp] theorem woken_ctx : (woken lt).ctx = lt.ctx := by unfold woken; split_ifs <;> rfl
@[simp] theorem woken_fdWait : (woken lt).fdWait = lt.fdWait := by unfold woken; split_ifs <;> rfl
@[simp] theorem woken_ltJoin : (woken lt).ltJoin = lt.ltJoin := by unfold woken; split_ifs <;> rfl
@[simp] theorem woken_freed : (woken lt).freed = lt.freed := by unfold woken; split_ifs <;> rfl
@[simp] theorem woken_ltExitPtr : (woken lt).ltExitPtr = lt.ltExitPtr := by
  unfold woken; split_ifs <;> rfl
@[simp] theorem woken_computeSched : (woken lt).computeSched = lt.computeSched := by
  unfold woken; split_ifs <;> rfl
@[simp] theorem woken_sleeping : (woken lt).state .sleeping = false := by
  unfold woken
  split_ifs with h
  · simp [Lt.clearBit, Lt.setBit]
  · simpa using h
theorem woken_state {b : LtSt} (hs : b ≠ .sleeping) (hf : b.free = false) :
    (woken lt).state b = lt.state b := by
  unfold woken
  split_ifs
  · cases b <;> simp_all [Lt.clearBit, Lt.setBit, LtSt.free]
  · rfl

@[simp] theorem woken_detach : (woken lt).state .detach = lt.state .detach := by
  unfold woken
  split_ifs
  · simp [Lt.clearBit, Lt.setBit]
  · rfl

theorem woken_expired (h : (woken lt).state .expired = true) : lt.state .expired = true := by
  unfold woken at h
  split_ifs at h
  · simp [Lt.clearBit] at h
  · exact h

theorem deschedSleep_lt : (deschedSleep v).lt = woken v.lt := by
  unfold deschedSleep woken
  split_ifs <;> rfl

variable {v} in
theorem deschedSleep_eq (hb : v.lt.state .sleeping = true ↔ v.cnt.sleeping ≠ 0)
    (hle : v.cnt.sleeping ≤ 1) :
    deschedSleep v = ⟨woken v.lt, { v.cnt with sleeping := 0 }⟩ := by
  unfold deschedSleep woken
  by_cases h : v.lt.state .sleeping = true
  · simp only [h, if_true]
    rw [Nat.sub_eq_zero_of_le hle]
  · have h0 : v.cnt.sleeping = 0 := by
      by_contra hne
      exact h (hb.mpr hne)
    simp only [h, if_false, Bool.false_eq_true]
    rw [← h0]

end Primitives

/-! An lthread that runs makes a call and switches to the scheduler. -/

section Suspend

open Ok

variable {k : Bool} {l : LtId} {v : Seat} (h : Ok.Runs v)
include h

theorem ok_yielded : Ok k l (Entry.act .yield v) := by
  refine of_plain ?_ ?_ (Or.inl rfl) ?_ (fun m t hm => by cases hm) h.fdWait fun b _ hf => h.bits b hf
  · have := h.bits .cancelled rfl
    simpa [Entry.act, h.cnt] using Row.yielded
  · simp [Entry.act, h.cnt]
  · simp [Entry.act, h.cnt, h.bits .sleeping rfl]

theorem ok_slept {n : ℕ} (u : ℕ) (hn : n ≠ 0) : Ok k l (Entry.act (.sleep n u) v) := by
  refine of_plain ?_ ?_ (Or.inr (Or.inl ⟨n, rfl⟩)) ?_ (fun m t hm => by cases hm) ?_ fun b hb hf => ?_
  · simpa [Entry.act, h.cnt, asleep, hn] using Row.slept hn
  · simp [Entry.act, h.cnt]
  · simp [Entry.act, h.cnt, schedSleep_state, asleep, hn]
  · simp [Entry.act, h.fdWait]
  · simp [Entry.act, schedSleep_state, hb, h.bits b hf]

theorem ok_blocked {c : Ctx} {i : CondId} {n : ℕ} (u : ℕ) (hc : c.cond = some (i, n))
    (hstack : ∀ m t, c.cond = some (.sel (.stack m), t) → m = l) :
    Ok k l (Entry.act (.block c i n u) v) := by
  refine of_plain ?_ ?_ (Or.inr (Or.inr (Or.inl ⟨_, hc⟩))) ?_ hstack ?_ fun b hb hf => ?_
  · simpa [Entry.act, h.cnt] using Row.blocked hc
  · simp [Entry.act, h.cnt]
  · by_cases hn : n = 0 <;>
      simp [Entry.act, h.cnt, schedSleep_state, asleep, hn, h.bits .sleeping rfl, Lt.setBit]
  · simp [Entry.act, Lt.setBit, h.fdWait]
  · have : b ≠ .busy := by rintro rfl; cases hf
    simp [Entry.act, schedSleep_state, hb, Lt.setBit, this, h.bits b hf]

theorem ok_joining (target : LtId) (ptr : Option ℕ) (n u : ℕ) : Ok k l (joinAct target ptr n u v) := by
  refine of_plain ?_ ?_ (Or.inr (Or.inr (Or.inr ⟨_, _, rfl⟩))) ?_ (fun m t hm => by cases hm) ?_
    fun b hb hf => ?_
  · simpa [joinAct, h.cnt] using Row.joining
  · simp [joinAct, h.cnt]
  · by_cases hn : n = 0 <;>
      simp [joinAct, h.cnt, schedSleep_state, asleep, hn, h.bits .sleeping rfl, Lt.setBit]
  · simp [joinAct, Lt.setBit, h.fdWait]
  · have : b ≠ .busy := by rintro rfl; cases hf
    simp [joinAct, schedSleep_state, hb, Lt.setBit, this, h.bits b hf]

theorem ok_polled (fd : Fd) (e : LtEvent) (n u : ℕ) : Ok k l (Entry.act (.event fd e n u) v) := by
  have hkey : fdKey fd e ≠ -1 := by unfold fdKey; cases e <;> simp [LtEvent.toNat] <;> omega
  have hb (b : LtSt) (hs : b ≠ .sleeping) (hw : b ≠ waitBit e) (hf : b.free = false) :
      (Entry.act (.event fd e n u) v).lt.state b = false := by
    simp [Entry.act, schedSleep_state, hs, Lt.setBit, hw, h.bits b hf]
  have hne (b : LtSt) (h1 : b ≠ .waitRead) (h2 : b ≠ .waitWrite) : b ≠ waitBit e := by
    cases e <;> simpa [waitBit]
  refine ⟨?_, ?_, ?_, ?_, ?_, ?_, fun e' he' => ?_, fun e' => ?_, ?_, ?_, ?_, ?_, ?_⟩
  · rw [hb _ (by simp) (hne _ (by simp) (by simp)) rfl]
    simpa [Entry.act, h.cnt] using Row.polled
  · simp [hb .cancelled (by simp) (hne _ (by simp) (by simp)) rfl]
  · rw [hb .new (by simp) (hne _ (by simp) (by simp)) rfl]; simp [Entry.act]
  · have hs : (v.lt.setBit (waitBit e)).state .sleeping = false := by
      cases e <;> simp [waitBit, Lt.setBit, h.bits .sleeping rfl]
    by_cases hn : n = 0 <;> simp [Entry.act, h.cnt, schedSleep_state, asleep, hn, hs]
  · exact Or.inr ⟨fd, e, n, rfl, by simp [Entry.act]⟩
  · simpa [Entry.act] using hkey
  · refine ⟨fd, n, ?_⟩
    by_cases hee : e' = e
    · rw [hee]; rfl
    · rw [hb _ (by cases e' <;> simp [waitBit]) (by revert hee; cases e <;> cases e' <;> simp [waitBit])
        (by cases e' <;> rfl)] at he'
      cases he'
  · rw [hb (waitIoBit e') (by cases e' <;> simp [waitIoBit])
      (hne _ (by cases e' <;> simp [waitIoBit]) (by cases e' <;> simp [waitIoBit])) (by cases e' <;> rfl)]
    simp [Entry.act]
  · rw [hb .pendingRuncompute (by simp) (hne _ (by simp) (by simp)) rfl]; simp [Entry.act]
  · rw [hb .runcompute (by simp) (hne _ (by simp) (by simp)) rfl]; simp [Entry.act]
  · simp [Entry.act]
  · rw [hb .exited (by simp) (hne _ (by simp) (by simp)) rfl]; simp [Entry.act]
  · simp [Entry.act, Ctx.cond]

theorem ok_ioQueued (e : LtEvent) (w : ℕ) : Ok k l (Entry.act (.io e w) v) := by
  have hb (b : LtSt) (hw : b ≠ waitIoBit e) (hf : b.free = false) :
      (Entry.act (.io e w) v).lt.state b = false := by simp [Entry.act, Lt.setBit, hw, h.bits b hf]
  have hne (b : LtSt) (h1 : b ≠ .waitIoRead) (h2 : b ≠ .waitIoWrite) : b ≠ waitIoBit e := by
    cases e <;> simpa [waitIoBit]
  refine ⟨?_, ?_, ?_, ?_, Or.inl h.fdWait, ?_, fun e' => ?_, fun e' => ?_, ?_, ?_, ?_, ?_, ?_⟩
  · rw [hb _ (hne _ (by simp) (by simp)) rfl]
    simpa [Entry.act, h.cnt] using Row.ioQueued false
  · simp [hb .cancelled (hne _ (by simp) (by simp)) rfl]
  · rw [hb .new (hne _ (by simp) (by simp)) rfl]; simp [Entry.act]
  · rw [hb .sleeping (hne _ (by simp) (by simp)) rfl]; simp [Entry.act, h.cnt]
  · simp [Entry.act, h.cnt]
  · simp [hb (waitBit e') (hne _ (by cases e' <;> simp [waitBit]) (by cases e' <;> simp [waitBit]))
      (by cases e' <;> rfl)]
  · by_cases hee : e' = e
    · subst hee; simp [Entry.act, Lt.setBit]
    · rw [hb _ (by revert hee; cases e <;> cases e' <;> simp [waitIoBit]) (by cases e' <;> rfl)]
      simp [Entry.act, Ne.symm hee]
  · rw [hb .pendingRuncompute (hne _ (by simp) (by simp)) rfl]; simp [Entry.act]
  · rw [hb .runcompute (hne _ (by simp) (by simp)) rfl]; simp [Entry.act]
  · simp [Entry.act]
  · rw [hb .exited (hne _ (by simp) (by simp)) rfl]; simp [Entry.act]
  · simp [Entry.act, Ctx.cond]

theorem ok_pending (j : ℕ) : Ok k l (Entry.act (.compute j) v) := by
  have hb (b : LtSt) (hp : b ≠ .pendingRuncompute) (hf : b.free = false) :
      (Entry.act (.compute j) v).lt.state b = false := by simp [Entry.act, Lt.setBit, hp, h.bits b hf]
  refine ⟨?_, ?_, ?_, ?_, Or.inl h.fdWait, ?_, fun e => ?_, fun e => ?_, ?_, ?_, fun j' hj' => ?_, ?_, ?_⟩
  · rw [hb _ (by simp) rfl]
    simpa [Entry.act, h.cnt] using Row.pending false
  · simp [hb .cancelled (by simp) rfl]
  · rw [hb .new (by simp) rfl]; simp [Entry.act]
  · rw [hb .sleeping (by simp) rfl]; simp [Entry.act, h.cnt]
  · simp [Entry.act, h.cnt]
  · simp [hb (waitBit e) (by cases e <;> simp [waitBit]) (by cases e <;> rfl)]
  · rw [hb (waitIoBit e) (by cases e <;> simp [waitIoBit]) (by cases e <;> rfl)]; simp [Entry.act]
  · simp [Entry.act, Lt.setBit, h.cnt]
  · rw [hb .runcompute (by simp) rfl]; simp [Entry.act, h.cnt]
  · rw [← Ctx.compute.inj hj']; rfl
  · rw [hb .exited (by simp) rfl]; simp [Entry.act]
  · simp [Entry.act, Ctx.cond]

theorem ok_exited : Ok k l (Entry.act .exit v) := by
  have hb (b : LtSt) (hp : b ≠ .exited) (hf : b.free = false) :
      (Entry.act .exit v).lt.state b = false := by simp [Entry.act, Lt.setBit, hp, h.bits b hf]
  refine ⟨?_, ?_, ?_, ?_, Or.inl h.fdWait, ?_, fun e => ?_, fun e => ?_, ?_, ?_, ?_, ?_, ?_⟩
  · rw [hb _ (by simp) rfl]
    simpa [Entry.act, h.cnt] using Row.exited
  · simp [hb .cancelled (by simp) rfl]
  · rw [hb .new (by simp) rfl]; simp [Entry.act]
  · rw [hb .sleeping (by simp) rfl]; simp [Entry.act, h.cnt]
  · simp [Entry.act, h.cnt]
  · simp [hb (waitBit e) (by cases e <;> simp [waitBit]) (by cases e <;> rfl)]
  · rw [hb (waitIoBit e) (by cases e <;> simp [waitIoBit]) (by cases e <;> rfl)]; simp [Entry.act]
  · rw [hb .pendingRuncompute (by simp) rfl]; simp [Entry.act]
  · rw [hb .runcompute (by simp) rfl]; simp [Entry.act]
  · simp [Entry.act]
  · simp [Entry.act, Lt.setBit]
  · simp [Entry.act, Ctx.cond]

theorem ok_enter {σ : LtId → Seat} (e : Entry) (hv : e.Valid σ l) : Ok k l (e.act v) := by
  cases e with
  | yield => exact ok_yielded h
  | sleep n u => exact ok_slept h u hv
  | block c i n u => exact ok_blocked h u hv.1 hv.2
  | event fd e n u => exact ok_polled h fd e n u
  | io e w => exact ok_ioQueued h e w
  | compute j => exact ok_pending h j
  | exit => exact ok_exited h

end Suspend

/-! An lthread that somebody else moves -/

section Moved

variable {k : Bool} {l : LtId} {v : Seat} (h : Ok k l v)
include h

theorem Ok.sleeping_le : v.cnt.sleeping ≤ 1 := by
  by_cases hs : v.cnt.sleeping = 0
  · omega
  · exact (h.row.of_sleeping hs).2.1.le

theorem Ok.waiting_le : v.cnt.waiting ≤ 1 := by
  by_cases h0 : v.cnt.waiting = 0
  · omega
  · obtain ⟨-, fd, e, t, -, hn⟩ := h.row.of_waiting h0
    simp [hn]

theorem Ok.awake {n : Counts} (hrow : Row k (v.lt.state .cancelled) v.lt.ctx n)
    (hs : n.sleeping = 0) (hw : n.waiting ≠ 0 → v.cnt.waiting ≠ 0)
    (hctx : ∀ j, v.lt.ctx ≠ .compute j) : Ok k l ⟨woken v.lt, n⟩ := by
  have hb (b : LtSt) (hb : b ≠ .sleeping) (hf : b.free = false) := woken_state v.lt hb hf
  refine ⟨?_, ?_, ?_, ?_, ?_, ?_, fun e => ?_, fun e => ?_, ?_, ?_, ?_, ?_, ?_⟩
  · rw [hb _ (by simp) rfl, woken_ctx]; exact hrow
  · rw [hb _ (by simp) rfl]; exact h.cancelled
  · rw [hb _ (by simp) rfl, woken_ctx]; exact h.new
  · simp [hs]
  · rw [woken_fdWait, woken_ctx]; exact h.key
  · rw [woken_fdWait]; exact fun hn => h.waiting (hw hn)
  · rw [hb _ (by cases e <;> simp [waitBit]) (by cases e <;> rfl), woken_ctx]; exact h.wait e
  · rw [hb _ (by cases e <;> simp [waitIoBit]) (by cases e <;> rfl), woken_ctx]; exact h.io e
  · rw [hb _ (by simp) rfl, woken_ctx, h.pending]
    simp [hctx]
  · rw [hb _ (by simp) rfl, woken_ctx, h.computing]
    simp [hctx]
  · rw [woken_ctx]; exact fun j hj => absurd hj (hctx j)
  · rw [hb _ (by simp) rfl, woken_ctx]; exact h.exited
  · rw [woken_ctx]; exact h.stack

theorem ok_signalled {i : CondId} (hb : v.cnt.blocked i ≠ 0) :
    Ok k l (addReady (deschedSleep (dropBlocked i v))) := by
  obtain ⟨t, hc, hn⟩ := h.row.of_blocked hb
  have hctx : ∀ j, v.lt.ctx ≠ .compute j := fun j hj => by rw [hj] at hc; cases hc
  have heq : deschedSleep (dropBlocked i v) =
      ⟨woken v.lt, { v.cnt with blocked := lower v.cnt.blocked i, sleeping := 0 }⟩ :=
    deschedSleep_eq (v := dropBlocked i v) h.sleeping h.sleeping_le
  rw [heq]
  refine h.awake ?_ rfl id hctx
  cases hcanc : v.lt.state .cancelled with
  | false =>
    rw [hn hcanc]
    simpa using Row.signalled hc
  | true =>
    have hidle : v.lt.ctx.idle := by
      cases hx : v.lt.ctx <;> simp_all [Ctx.idle, Ctx.cond]
    obtain ⟨hbl, hcnt⟩ := (hcanc ▸ h.row).of_idle hidle
    rw [hcnt]
    refine Row.idle _ _ _ hidle fun i' hi' => hbl i' fun h0 => hi' ?_
    by_cases hii : i' = i
    · subst hii; simp [lower, h0]
    · simp [lower, hii, h0]

theorem deschedEvent_eq (hw : v.cnt.waiting ≠ 0) :
    deschedSleep (dropWaiting v) = ⟨woken v.lt, {}⟩ := by
  obtain ⟨-, fd, e, t, -, hn⟩ := h.row.of_waiting hw
  have heq := deschedSleep_eq (v := dropWaiting v) h.sleeping h.sleeping_le
  rw [heq]
  simp [dropWaiting, hn]

theorem ok_closed (hw : v.cnt.waiting ≠ 0) : Ok k l (addReady (deschedSleep (dropWaiting v))) := by
  obtain ⟨hcanc, fd, e, t, hc, -⟩ := h.row.of_waiting hw
  rw [deschedEvent_eq h hw]
  refine h.awake ?_ rfl (fun h0 => absurd rfl h0) fun j hj => by rw [hj] at hc; cases hc
  rw [hcanc, hc]
  exact Row.closed

theorem ok_stray (hk : k = true) (hw : v.cnt.waiting ≠ 0) :
    Ok k l (deschedSleep (dropWaiting v)) := by
  obtain ⟨hcanc, fd, e, t, hc, -⟩ := h.row.of_waiting hw
  rw [deschedEvent_eq h hw]
  refine h.awake ?_ rfl (fun h0 => absurd rfl h0) fun j hj => by rw [hj] at hc; cases hc
  rw [hcanc, hc]
  exact Row.stray hk

theorem ok_joined {target t : ℕ} (hc : v.lt.ctx = .joining target t)
    (hr : v.lt.state .cancelled = true ∨ v.cnt.ready = 0) : Ok k l (addReady (deschedSleep v)) := by
  rw [deschedSleep_eq h.sleeping h.sleeping_le]
  have hrow := h.row
  refine h.awake ?_ rfl id fun j hj => by rw [hj] at hc; cases hc
  rw [hc] at hrow ⊢
  cases hcanc : v.lt.state .cancelled with
  | false =>
    rw [hcanc] at hrow hr
    rcases hrow.of_joining with hn | hn
    · rw [hn]; exact Row.joined
    · rw [hn] at hr; simp at hr
  | true =>
    rw [hcanc] at hrow
    obtain ⟨hbl, hcnt⟩ := hrow.of_idle trivial
    rw [hcnt]
    exact Row.idle _ _ _ trivial hbl

theorem ok_awoken {t : ℕ} (hc : v.lt.ctx = .slept t) (hs : v.lt.state .sleeping = true) :
    deschedSleep (addReady v) = ⟨woken v.lt, { ready := 1 }⟩ ∧ Ok k l (deschedSleep (addReady v)) := by
  have hne := h.sleeping.mp hs
  obtain ⟨hcanc, -, hshape⟩ := h.row.of_sleeping hne
  have hn : v.cnt = { sleeping := 1 } := by
    rcases hshape with ⟨-, hn⟩ | ⟨i, t', hx, -⟩ | ⟨⟨T, t', hx⟩, -⟩ | ⟨⟨fd, e, t', hx⟩, -⟩
    · exact hn
    all_goals rw [hc] at hx; cases hx
  have heq : deschedSleep (addReady v) = ⟨woken v.lt, { ready := 1 }⟩ := by
    refine (deschedSleep_eq (v := addReady v) h.sleeping h.sleeping_le).trans ?_
    simp [hn]
  refine ⟨heq, ?_⟩
  rw [heq]
  refine h.awake ?_ rfl (fun h0 => absurd rfl h0) fun j hj => by rw [hj] at hc; cases hc
  rw [hcanc, hc]
  exact Row.awoken

theorem ok_ioDone {w : ℕ} (hw : v.cnt.io w ≠ 0) :
    Ok k l { v with cnt := { v.cnt with defer := v.cnt.defer + 1, io := lower v.cnt.io w } } := by
  obtain ⟨e, hc, hn⟩ := h.row.of_io hw
  have hcnt : ({ v.cnt with defer := v.cnt.defer + 1, io := lower v.cnt.io w } : Counts) =
      { busy := 1, defer := 1 } := by simp [hn]
  rw [hcnt]
  refine ⟨?_, h.cancelled, h.new, ?_, h.key, ?_, h.wait, h.io, ?_, ?_, h.computeSched, h.exited,
    h.stack⟩
  · rw [hc]; exact Row.ioDone _
  · rw [h.sleeping, hn]
  · simp
  · rw [h.pending, hc]; simp
  · rw [h.computing, hc]; simp

theorem Ok.queued {j : ℕ} (hj : v.cnt.compute j ≠ 0) (hp : v.lt.state .pendingRuncompute = false) :
    v.lt.ctx = .compute j ∧ v.cnt = { busy := 1, compute := Pi.single j 1 } := by
  obtain ⟨hc, hn | hn⟩ := h.row.of_compute hj
  · rw [h.pending.mpr ⟨j, hc, hn⟩] at hp; cases hp
  · exact ⟨hc, hn⟩

theorem ok_taken {j : ℕ} (hj : v.cnt.compute j ≠ 0) (hp : v.lt.state .pendingRuncompute = false) :
    Ok k l { v with cnt := { v.cnt with
      compute := lower v.cnt.compute j, taken := bump v.cnt.taken j } } := by
  obtain ⟨hc, hn⟩ := h.queued hj hp
  have hcnt : ({ v.cnt with compute := lower v.cnt.compute j, taken := bump v.cnt.taken j } : Counts) =
      { busy := 1, taken := Pi.single j 1 } := by simp [hn]
  rw [hcnt]
  refine ⟨?_, h.cancelled, h.new, ?_, h.key, ?_, h.wait, h.io, ?_, ?_, h.computeSched, h.exited, h.stack⟩
  · rw [hc]; exact Row.taken _
  · rw [h.sleeping, hn]
  · simp
  · rw [hp]; simp
  · exact ⟨fun _ => ⟨j, hc, Or.inr rfl⟩, fun _ => h.computing.mpr ⟨j, hc, Or.inl hn⟩⟩

theorem ok_computed {j : ℕ} (hj : v.cnt.taken j ≠ 0) :
    Ok k l { lt := v.lt.clearBit .runcompute
             cnt := { v.cnt with defer := v.cnt.defer + 1, taken := lower v.cnt.taken j } } := by
  obtain ⟨hc, hn⟩ := h.row.of_taken hj
  have hcnt : ({ v.cnt with defer := v.cnt.defer + 1, taken := lower v.cnt.taken j } : Counts) =
      { busy := 1, defer := 1 } := by simp [hn]
  rw [hcnt]
  have hb (b : LtSt) (hb : b ≠ .runcompute) : (v.lt.clearBit .runcompute).state b = v.lt.state b := by
    simp [Lt.clearBit, hb]
  refine ⟨?_, ?_, ?_, ?_, h.key, ?_, fun e => ?_, fun e => ?_, ?_, ?_, h.computeSched, ?_, h.stack⟩
  · rw [hb _ (by simp)]
    change Row k _ v.lt.ctx _
    rw [hc]; exact Row.computed _
  · rw [hb _ (by simp)]; exact h.cancelled
  · rw [hb _ (by simp)]; exact h.new
  · rw [hb _ (by simp), h.sleeping, hn]
  · simp
  · rw [hb _ (by cases e <;> simp [waitBit])]; exact h.wait e
  · rw [hb _ (by cases e <;> simp [waitIoBit])]; exact h.io e
  · rw [hb _ (by simp), h.pending, hn]; simp
  · simp [Lt.clearBit]
  · rw [hb _ (by simp)]; exact h.exited

theorem ok_computing (hp : v.lt.state .pendingRuncompute = true) :
    Ok k l { lt := (v.lt.clearBit .pendingRuncompute).setBit .runcompute
             cnt := { v.cnt with busy := v.cnt.busy + 1 } } := by
  obtain ⟨j, hc, hn⟩ := h.pending.mp hp
  have hb (b : LtSt) (hb : b ≠ .runcompute) (hb' : b ≠ .pendingRuncompute) :
      ((v.lt.clearBit .pendingRuncompute).setBit .runcompute).state b = v.lt.state b := by
    simp [Lt.clearBit, Lt.setBit, hb, hb']
  refine ⟨?_, ?_, ?_, ?_, h.key, ?_, fun e => ?_, fun e => ?_, ?_, ?_, h.computeSched, ?_, h.stack⟩
  · rw [hb _ (by simp) (by simp), hn]
    change Row k _ v.lt.ctx _
    rw [hc]; exact Row.computing _
  · rw [hb _ (by simp) (by simp)]; exact h.cancelled
  · rw [hb _ (by simp) (by simp)]; exact h.new
  · rw [hb _ (by simp) (by simp), h.sleeping]
  · exact h.waiting
  · rw [hb _ (by cases e <;> simp [waitBit]) (by cases e <;> simp [waitBit])]; exact h.wait e
  · rw [hb _ (by cases e <;> simp [waitIoBit]) (by cases e <;> simp [waitIoBit])]; exact h.io e
  · simp [Lt.clearBit, Lt.setBit, hn]
  · refine ⟨fun _ => ⟨j, hc, Or.inl ?_⟩, fun _ => by simp [Lt.setBit]⟩
    simp [hn]
  · rw [hb _ (by simp) (by simp)]; exact h.exited

end Moved

/-! Cancelled lthreads -/

theorem no_compute {n : Counts} (hn : n.compute = 0) (j b : ℕ) :
    n ≠ { busy := b, compute := Pi.single j 1 } := by
  rintro rfl
  simp at hn

theorem no_taken {n : Counts} (hn : n.taken = 0) (j b : ℕ) :
    n ≠ { busy := b, taken := Pi.single j 1 } := by
  rintro rfl
  simp at hn

theorem exists_of_ne_zero {f : ℕ → ℕ} (hf : f ≠ 0) : ∃ j, f j ≠ 0 := by
  by_contra hall
  exact hf (funext fun j => by simpa using not_exists.mp hall j)

section Cancelled

variable {k : Bool} {l : LtId} {v : Seat} (h : Ok k l v)
include h

/-- An lthread with a compute thread has a bit that says so, and is nowhere else. -/
theorem Ok.with_compute (hn : v.cnt.compute ≠ 0 ∨ v.cnt.taken ≠ 0) :
    (v.lt.state .pendingRuncompute = true ∨ v.lt.state .runcompute = true) ∧
      v.cnt.ready = 0 ∧ v.cnt.sleeping = 0 ∧ v.cnt.waiting = 0 := by
  rcases hn with hn | hn
  · obtain ⟨j, hj⟩ := exists_of_ne_zero hn
    obtain ⟨hx, hc | hc⟩ := h.row.of_compute hj
    · exact ⟨Or.inl (h.pending.mpr ⟨j, hx, hc⟩), by simp [hc]⟩
    · exact ⟨Or.inr (h.computing.mpr ⟨j, hx, Or.inl hc⟩), by simp [hc]⟩
  · obtain ⟨j, hj⟩ := exists_of_ne_zero hn
    obtain ⟨hx, hc⟩ := h.row.of_taken hj
    exact ⟨Or.inr (h.computing.mpr ⟨j, hx, Or.inr hc⟩), by simp [hc]⟩

/-- `lthread_cancel`; `d` counts the insertion in the ready queue, which is left out
for an lthread whose bits say that a worker has it. -/
theorem ok_cancelled (hk : k = true) (hr : v.lt.ctx ≠ .running) {w : Seat} {d : ℕ} (hc : v.Cancels d w)
    (hins : d ≠ 0 → v.lt.state .pendingRuncompute = false ∧
      (∀ e, v.lt.state (waitIoBit e) = false) ∧ v.lt.state .runcompute = false ∧
        (v.cnt.defer ≠ 0 → ∀ j, v.lt.ctx ≠ .compute j)) : Ok k l w := by
  have hne (b : LtSt) (h1 : b ≠ .waitRead) (h2 : b ≠ .waitWrite) (e : LtEvent) : b ≠ waitBit e := by
    cases e <;> simpa [waitBit]
  have hbit (b : LtSt) (h1 : b ≠ .sleeping) (h2 : b ≠ .cancelled) (h3 : b.free = false)
      (h4 : b ≠ .waitRead) (h5 : b ≠ .waitWrite) : w.lt.state b = v.lt.state b :=
    hc.bits b h1 h2 h3 (hne b h4 h5)
  have hd0 (hn : v.cnt.compute ≠ 0 ∨ v.cnt.taken ≠ 0) : d = 0 := by
    by_contra hd
    obtain ⟨hp, -, hrun, -⟩ := hins hd
    rcases (h.with_compute hn).1 with hb | hb
    · rw [hp] at hb; cases hb
    · rw [hrun] at hb; cases hb
  -- with a compute thread, nothing but the mark changes
  have hsame (hn : v.cnt.compute ≠ 0 ∨ v.cnt.taken ≠ 0) : w.cnt = v.cnt := by
    obtain ⟨-, h1, h2, h3⟩ := h.with_compute hn
    rw [hc.cnt, hd0 hn]
    cases hv : v.cnt
    simp only [hv] at h1 h2 h3
    simp [h1, h2, h3]
  have hcompute : w.cnt.compute = v.cnt.compute ∧ w.cnt.taken = v.cnt.taken := by
    rw [hc.cnt]; exact ⟨rfl, rfl⟩
  have hcnt (n : Counts) (hn : n.compute ≠ 0 ∨ n.taken ≠ 0) : w.cnt = n ↔ v.cnt = n := by
    constructor <;> rintro rfl
    · exact (hsame (by rwa [hcompute.1, hcompute.2] at hn)).symm
    · exact hsame hn
  refine ⟨?_, fun _ => hk, ?_, ?_, Or.inl hc.fdWait, ?_, fun e he => ?_, fun e => ?_, ?_, ?_,
    fun j hj => ?_, ?_, ?_⟩
  · rw [hc.cancelled, hc.ctx, hc.cnt]
    refine h.row.cancel hr (fun e x hx => ?_) fun j hx hj => ?_
    · by_contra hd
      have := (hins hd).2.1 e
      rw [(h.io e).mpr ⟨x, hx⟩] at this; cases this
    · rcases hj with hj | hj | hj
      · exact hd0 (Or.inl hj)
      · exact hd0 (Or.inr hj)
      · by_contra hd
        exact (hins hd).2.2.2 hj j hx
  · rw [hbit _ (by simp) (by simp) rfl (by simp) (by simp), hc.ctx]; exact h.new
  · rw [hc.sleeping, hc.cnt]; simp
  · rw [hc.cnt]; simp
  · rw [hc.ctx]; exact h.wait e (hc.wait e he)
  · rw [hc.ctx, ← h.io e, hbit]
    all_goals cases e <;> simp [waitIoBit, LtSt.free]
  · rw [hbit _ (by simp) (by simp) rfl (by simp) (by simp), h.pending, hc.ctx]
    refine exists_congr fun j => and_congr_right fun _ => (hcnt _ (Or.inl ?_)).symm
    simp
  · rw [hbit _ (by simp) (by simp) rfl (by simp) (by simp), h.computing, hc.ctx]
    refine exists_congr fun j => and_congr_right fun _ => or_congr ?_ ?_
    · exact (hcnt _ (Or.inl (by simp))).symm
    · exact (hcnt _ (Or.inr (by simp))).symm
  · rw [hc.computeSched]; exact h.computeSched j (hc.ctx ▸ hj)
  · rw [hbit _ (by simp) (by simp) rfl (by simp) (by simp), hc.ctx]; exact h.exited
  · rw [hc.ctx]; exact h.stack

theorem ok_dropReady (hc : v.lt.state .cancelled = true) (hr : v.cnt.ready ≠ 0) :
    Ok k l (dropReady v) ∧ v.cnt.io = 0 ∧ v.cnt.compute = 0 ∧ v.cnt.taken = 0 ∧ v.cnt.defer = 0 := by
  have hrow := hc ▸ h.row
  have hnone : v.cnt.io = 0 ∧ v.cnt.compute = 0 ∧ v.cnt.taken = 0 ∧ v.cnt.defer = 0 := by
    generalize v.cnt = n at *
    generalize v.lt.ctx = x at *
    cases hrow with
    | computeDropped | idle => exact ⟨rfl, rfl, rfl, rfl⟩
    | _ => exact absurd rfl hr
  refine ⟨?_, hnone⟩
  refine ⟨?_, h.cancelled, h.new, h.sleeping, h.key, h.waiting, h.wait, h.io, ?_, ?_, h.computeSched,
    h.exited, h.stack⟩
  · rw [dropReady_lt, hc]
    rcases hrow.of_cancelled hnone.1 hnone.2.1 hnone.2.2.1 hnone.2.2.2 with ⟨-, hn⟩ | ⟨⟨j, hx⟩, hn⟩ | ⟨hi, hbl, hn⟩
    · exact absurd (by rw [hn]) hr
    · rw [hx, dropReady_cnt, hn]; exact Row.computeDropped _
    · rw [dropReady_cnt, hn]; exact Row.idle _ _ _ hi hbl
  · rw [dropReady_lt, h.pending]
    simp only [no_compute (n := v.cnt) hnone.2.1, no_compute (n := (dropReady v).cnt) hnone.2.1]
  · rw [dropReady_lt, h.computing]
    simp only [no_compute (n := v.cnt) hnone.2.1, no_compute (n := (dropReady v).cnt) hnone.2.1,
      no_taken (n := v.cnt) hnone.2.2.1, no_taken (n := (dropReady v).cnt) hnone.2.2.1]

theorem ok_dropDefer (hc : v.lt.state .cancelled = true) (hd : v.cnt.defer ≠ 0) :
    Ok k l (dropBusy (dropDefer v)) ∧ (dropBusy (dropDefer v)).cnt = {} := by
  obtain ⟨hctx, hn⟩ := h.row.of_defer hd
  have hcnt : (dropBusy (dropDefer v)).cnt = {} := by simp [hn]
  refine ⟨?_, hcnt⟩
  refine ⟨?_, h.cancelled, h.new, ?_, h.key, ?_, h.wait, h.io, ?_, ?_, h.computeSched, h.exited, h.stack⟩
  · rw [hcnt]
    simp only [dropBusy_lt, dropDefer_lt, hc]
    rcases hctx with ⟨e, w, hx⟩ | ⟨j, hx⟩ <;> rw [hx]
    · exact Row.ioDropped
    · exact Row.computeDropped 0
  · rw [hcnt]
    simp only [dropBusy_lt, dropDefer_lt]
    rw [h.sleeping, hn]
  · rw [hcnt]; simp
  · rw [hcnt]
    simp only [dropBusy_lt, dropDefer_lt]
    rw [h.pending, hn]
    simp only [no_compute (n := { busy := 1, defer := 1 }) rfl, no_compute (n := {}) rfl]
  · rw [hcnt]
    simp only [dropBusy_lt, dropDefer_lt]
    rw [h.computing, hn]
    simp only [no_compute (n := { busy := 1, defer := 1 }) rfl, no_compute (n := {}) rfl,
      no_taken (n := { busy := 1, defer := 1 }) rfl, no_taken (n := {}) rfl]

theorem ok_dropBusy (hc : v.lt.state .cancelled = true) (hio : v.cnt.io = 0)
    (hcomp : v.cnt.compute = 0) (ht : v.cnt.taken = 0) (hd : v.cnt.defer = 0) :
    Ok k l (dropBusy v) := by
  have hrow := hc ▸ h.row
  refine ⟨?_, h.cancelled, h.new, h.sleeping, h.key, h.waiting, h.wait, h.io, ?_, ?_, h.computeSched,
    h.exited, h.stack⟩
  · rw [dropBusy_lt, hc]
    rcases hrow.of_cancelled hio hcomp ht hd with ⟨⟨e, w, hx⟩, hn⟩ | ⟨⟨j, hx⟩, hn⟩ | ⟨hi, hbl, hn⟩
    · rw [hx, dropBusy_cnt, hn]; exact Row.ioDropped
    · rw [hx, dropBusy_cnt, hn]; exact Row.computeDropped _
    · rw [dropBusy_cnt, hn]; exact Row.idle _ _ _ hi hbl
  · rw [dropBusy_lt, h.pending]
    simp only [no_compute (n := v.cnt) hcomp, no_compute (n := (dropBusy v).cnt) hcomp]
  · rw [dropBusy_lt, h.computing]
    simp only [no_compute (n := v.cnt) hcomp, no_compute (n := (dropBusy v).cnt) hcomp,
      no_taken (n := v.cnt) ht, no_taken (n := (dropBusy v).cnt) ht]

end Cancelled
end Seat
end Lthr
