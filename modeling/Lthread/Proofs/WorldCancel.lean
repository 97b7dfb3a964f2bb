import Lthread.Proofs.WorldCalls

/-! `_lthread_cancel_event` and `lthread_cancel`. The first takes the registration of
an lthread away; as it looks for it by `fd_wait`, which stays set when
`lthread_close` has made the lthread ready, it can take the registration of
another lthread that has come to wait for the same event since. -/

namespace Lthr

open Sched Seat

theorem fdKey_eq (fd : ℕ) (e : LtEvent) : fdKey fd e = (fd : ℤ) * 4294967296 + e.toNat := rfl

theorem fdOnly_fdKey (fd : Fd) (e : LtEvent) : fdOnly (fdKey fd e) = fd := by
  have he : e.toNat < 2 := by cases e <;> decide
  change (fdKey fd e / 4294967296).toNat = fd
  have hdiv : ((fd : ℤ) * 4294967296 + e.toNat) / 4294967296 = fd := by omega
  rw [fdKey_eq, hdiv]
  rfl

theorem fdEvent_fdKey (fd : Fd) (e : LtEvent) : fdEvent (fdKey fd e) = e := by
  change (if fdKey fd e % 4294967296 = 0 then LtEvent.read else .write) = e
  rw [fdKey_eq]
  cases e with
  | read => exact if_pos (by simp only [LtEvent.toNat]; omega)
  | write => exact if_neg (by simp only [LtEvent.toNat]; omega)

theorem fdKey_nonneg (fd : Fd) (e : LtEvent) : 0 ≤ fdKey fd e := by
  unfold fdKey
  positivity

theorem fdKey_inj {fd fd' : Fd} {e e' : LtEvent} (h : fdKey fd e = fdKey fd' e') : fd = fd' ∧ e = e' := by
  have h1 := congrArg fdOnly h
  have h2 := congrArg fdEvent h
  rw [fdOnly_fdKey, fdOnly_fdKey] at h1
  rw [fdEvent_fdKey, fdEvent_fdKey] at h2
  exact ⟨h1, h2⟩

/-- The seat of an lthread before and after its registration is taken away. -/
structure Seat.Unregistered (v w : Seat) : Prop where
  ctx : w.lt.ctx = v.lt.ctx
  ltJoin : w.lt.ltJoin = v.lt.ltJoin
  ltExitPtr : w.lt.ltExitPtr = v.lt.ltExitPtr
  freed : w.lt.freed = v.lt.freed
  computeSched : w.lt.computeSched = v.lt.computeSched
  fdWait : w.lt.fdWait = -1
  cnt : w.cnt = { v.cnt with sleeping := w.cnt.sleeping, waiting := 0 }
  sleeping : w.lt.state .sleeping = true ↔ w.cnt.sleeping ≠ 0
  sleeping_le : w.cnt.sleeping ≤ v.cnt.sleeping
  detach : w.lt.state .detach = v.lt.state .detach
  expired : w.lt.state .expired = true → v.lt.state .expired = true
  bits : ∀ b, b ≠ .sleeping → b.free = false → (∀ e, b ≠ waitBit e) → w.lt.state b = v.lt.state b
  wait : ∀ e, w.lt.state (waitBit e) = true → v.lt.state (waitBit e) = true

namespace Seat.Unregistered

variable {v : Seat}

def Clears (C : Lt → Lt) : Prop := C = id ∨ ∃ e, C = (·.clearBit (waitBit e))

theorem Clears.spec {C : Lt → Lt} (h : Clears C) (lt : Lt) :
    (C lt).ctx = lt.ctx ∧ (C lt).ltJoin = lt.ltJoin ∧ (C lt).ltExitPtr = lt.ltExitPtr ∧
      (C lt).freed = lt.freed ∧ (C lt).computeSched = lt.computeSched ∧
      (∀ b, (∀ e, b ≠ waitBit e) → (C lt).state b = lt.state b) ∧
      ∀ b, (C lt).state b = true → lt.state b = true := by
  rcases h with rfl | ⟨e, rfl⟩
  · exact ⟨rfl, rfl, rfl, rfl, rfl, fun _ _ => rfl, fun _ => id⟩
  · refine ⟨rfl, rfl, rfl, rfl, rfl, fun b hb => by simp [Lt.clearBit, hb e], fun b hb => ?_⟩
    by_cases hbe : b = waitBit e
    · simp [Lt.clearBit, hbe] at hb
    · simpa [Lt.clearBit, hbe] using hb

theorem of_absent {C : Lt → Lt} (hC : Clears C) (hs : v.lt.state .sleeping = true ↔ v.cnt.sleeping ≠ 0)
    (hw : v.cnt.waiting = 0) : Unregistered v (onLt ({ · with fdWait := -1 }) (onLt C v)) := by
  obtain ⟨h1, h2, h2', h3, h4, h5, h6⟩ := hC.spec v.lt
  refine ⟨h1, h2, h2', h3, h4, rfl, ?_, ?_, le_rfl, h5 _ (by intro e; cases e <;> simp [waitBit]), h6 _, fun b _ _ hb => h5 b hb, fun e he => h6 _ he⟩
  · rw [← hw]; rfl
  · change (C v.lt).state .sleeping = true ↔ v.cnt.sleeping ≠ 0
    rw [h5 _ (by intro e; cases e <;> simp [waitBit])]
    exact hs

theorem of_present {C : Lt → Lt} (hC : Clears C) (hs : v.lt.state .sleeping = true ↔ v.cnt.sleeping ≠ 0)
    (hle : v.cnt.sleeping ≤ 1) (hw : v.cnt.waiting ≤ 1) :
    Unregistered v (onLt ({ · with fdWait := -1 }) (deschedSleep (dropWaiting (onLt C v)))) := by
  obtain ⟨h1, h2, h2', h3, h4, h5, h6⟩ := hC.spec v.lt
  have hbit : (C v.lt).state .sleeping = v.lt.state .sleeping :=
    h5 _ (by intro e; cases e <;> simp [waitBit])
  have heq : deschedSleep (dropWaiting (onLt C v)) =
      ⟨woken (C v.lt), { v.cnt with waiting := v.cnt.waiting - 1, sleeping := 0 }⟩ :=
    deschedSleep_eq (v := dropWaiting (onLt C v)) (by
      change (C v.lt).state .sleeping = true ↔ v.cnt.sleeping ≠ 0
      rw [hbit]; exact hs) hle
  rw [heq]
  refine ⟨?_, ?_, ?_, ?_, ?_, rfl, ?_, ?_, Nat.zero_le _, ?_, fun he => h6 _ (woken_expired _ he),
    fun b hb hf he => ?_, fun e he => h6 _ ?_⟩
  · simpa using h1
  · simpa using h2
  · simpa using h2'
  · simpa using h3
  · simpa using h4
  · simp [Nat.sub_eq_zero_of_le hw]
  · simp
  · simpa using h5 _ (by intro e; cases e <;> simp [waitBit])
  · rw [← h5 b he]
    exact woken_state (C v.lt) hb hf
  · rw [← woken_state (C v.lt) (by cases e <;> simp [waitBit]) (by cases e <;> rfl)]
    exact he

end Seat.Unregistered

namespace World

variable {k : Bool} {R : Rules} {x x' : World} {l : LtId}

/-- The first half of `_lthread_cancel_event` deletes the descriptor of an lthread whose
bits say that it waits. -/
theorem clearWait_cases (h : x.clearWait l = .ok x') :
    ∃ C p, Unregistered.Clears C ∧
      (C = id ∧ p = x.poller ∧ (∀ e, x.sched.has l (waitBit e) = false) ∨
        (∃ e, x.sched.has l (waitBit e) = true) ∧ 0 ≤ (x.sched.lt l).fdWait ∧
          x.poller.clear (fdOnly (x.sched.lt l).fdWait) = some p) ∧
      x' = { x.onSched (·.modify l C) with poller := p } := by
  have hclear (e : LtEvent) (he : x.sched.has l (waitBit e) = true) (hy : x.pollerEvClear l (waitBit e) = .ok x') :
      ∃ C p, Unregistered.Clears C ∧
        (C = id ∧ p = x.poller ∧ (∀ e, x.sched.has l (waitBit e) = false) ∨
          (∃ e, x.sched.has l (waitBit e) = true) ∧ 0 ≤ (x.sched.lt l).fdWait ∧
            x.poller.clear (fdOnly (x.sched.lt l).fdWait) = some p) ∧
        x' = { x.onSched (·.modify l C) with poller := p } := by
    unfold pollerEvClear at hy
    by_cases hk : 0 ≤ (x.sched.lt l).fdWait
    · simp only [if_pos hk] at hy
      cases hp : x.poller.clear (fdOnly (x.sched.lt l).fdWait) with
      | none => rw [hp] at hy; cases hy
      | some p =>
        rw [hp] at hy
        exact ⟨_, p, Or.inr ⟨e, rfl⟩, Or.inr ⟨⟨e, he⟩, hk, rfl⟩, (Except.ok.inj hy).symm⟩
    · simp only [if_neg hk] at hy
      cases hy
  unfold clearWait at h
  split_ifs at h with hr hw
  · exact hclear .read hr h
  · exact hclear .write hw h
  · refine ⟨id, x.poller, Or.inl rfl, Or.inl ⟨rfl, rfl, fun e => ?_⟩, ?_⟩
    · cases e
      · exact Bool.eq_false_iff.mpr hr
      · exact Bool.eq_false_iff.mpr hw
    · have hid : x.sys.sched.modify l id = x.sys.sched := by simp [Sched.modify]
      rw [← Except.ok.inj h]
      simp only [World.onSched, hid]

def eventCancelled (l : LtId) (C : Lt → Lt) (key : ℤ) (s : Sched) : Sched :=
  (if 0 ≤ key then ((s.modify l C).lthreadDeschedEvent (fdOnly key) (fdEvent key)).1
    else s.modify l C).modify l ({ · with fdWait := -1 })

/-- `_lthread_cancel_event`: what happens to the bit and the poller, then to the tree. -/
theorem lthreadCancelEvent_cases (h : x.lthreadCancelEvent l = .ok x') :
    ∃ C p, Unregistered.Clears C ∧
      (C = id ∧ p = x.poller ∧ (∀ e, x.sched.has l (waitBit e) = false) ∨
        (∃ e, x.sched.has l (waitBit e) = true) ∧ 0 ≤ (x.sched.lt l).fdWait ∧
          x.poller.clear (fdOnly (x.sched.lt l).fdWait) = some p) ∧
      x' = { x.onSched (eventCancelled l C (x.sched.lt l).fdWait) with poller := p } := by
  unfold lthreadCancelEvent at h
  obtain ⟨y, hy, h⟩ := except_bind_ok h
  obtain ⟨C, p, hC, hp, rfl⟩ := clearWait_cases hy
  refine ⟨C, p, hC, hp, ?_⟩
  rw [← Except.ok.inj h]
  unfold eventCancelled
  by_cases hk : 0 ≤ (x.sched.lt l).fdWait
  · simp only [if_pos hk]
    rfl
  · simp only [if_neg hk]
    rfl

/-- In the seats of the lthreads: the one whose event is cancelled loses its
registration, or another one with the same key does. -/
theorem lthreadCancelEvent_acts (h : x.lthreadCancelEvent l = .ok x')
    (hkey : (x.seat l).lt.fdWait = -1 ∨ ∃ fd e, (x.seat l).lt.fdWait = fdKey fd e)
    (hwait : (x.seat l).cnt.waiting ≠ 0 → (x.seat l).lt.fdWait ≠ -1)
    (hw : (x.seat l).cnt.waiting ≤ 1)
    (hs : (x.seat l).lt.state .sleeping = true ↔ (x.seat l).cnt.sleeping ≠ 0)
    (hle : (x.seat l).cnt.sleeping ≤ 1)
    (huniq : ∀ m, (x.seat m).cnt.waiting ≠ 0 → (x.seat l).cnt.waiting ≠ 0 →
      (x.seat m).lt.fdWait = (x.seat l).lt.fdWait → m = l) :
    ∃ w, (x.seat l).Unregistered w ∧ (ActsAt x.seat x'.seat l (fun _ => w) ∨
      ∃ m τ, m ≠ l ∧ (x.seat m).cnt.waiting ≠ 0 ∧ (x.seat m).lt.fdWait = (x.seat l).lt.fdWait ∧
        ActsAt x.seat τ m (deschedSleep ∘ dropWaiting) ∧ ActsAt τ x'.seat l fun _ => w) := by
  obtain ⟨C, p, hC, -, rfl⟩ := lthreadCancelEvent_cases h
  have hfd : ((x.sched.modify l C).lt l).fdWait = (x.sched.lt l).fdWait := by
    rw [modify_lt, if_pos rfl]
    rcases hC with rfl | ⟨e, rfl⟩ <;> rfl
  have hmC := modify_moves x.sched l C x.io x.compute
  have hmF (s : Sched) := modify_moves s l ({ · with fdWait := -1 }) x.io x.compute
  generalize hσ : ({ x.onSched (eventCancelled l C (x.sched.lt l).fdWait) with poller := p } : World).seat = σ'
  replace hσ : seatOf (eventCancelled l C (x.sched.lt l).fdWait x.sched) x.io x.compute = σ' := hσ
  unfold eventCancelled at hσ
  by_cases hk : 0 ≤ (x.sched.lt l).fdWait
  · obtain ⟨fd, e, he⟩ := hkey.resolve_left fun h1 => by
      have : (x.sched.lt l).fdWait = -1 := h1
      omega
    have he' : (x.sched.lt l).fdWait = fdKey fd e := he
    rw [if_pos hk, he', fdOnly_fdKey, fdEvent_fdKey] at hσ
    rcases lthreadDeschedEvent_cases (x.sched.modify l C) fd e with ⟨hd, hnone⟩ | ⟨m, s', hd, hmem, hmk, hm⟩
    · have hw0 : (x.seat l).cnt.waiting = 0 := List.count_eq_zero.mpr fun hl =>
        hnone l hl (hfd.trans he')
      refine ⟨_, Unregistered.of_absent hC hs hw0, Or.inl ?_⟩
      rw [hd] at hσ
      exact hσ ▸ (hmC.trans (hmF _)).congr rfl
    · rw [hd] at hσ
      by_cases hml : m = l
      · subst hml
        refine ⟨_, Unregistered.of_present hC hs hle hw, Or.inl ?_⟩
        exact hσ ▸ ((hmC.trans (hm x.io x.compute)).trans (hmF s')).congr rfl
      · have hmw : (x.seat m).cnt.waiting ≠ 0 := count_ne_zero hmem
        have hmk' : (x.seat m).lt.fdWait = (x.seat l).lt.fdWait := by
          rw [modify_lt, if_neg hml] at hmk
          exact hmk.trans he'.symm
        have hw0 : (x.seat l).cnt.waiting = 0 := by
          by_contra hne
          exact hml (huniq m hmw hne hmk')
        obtain ⟨τ, hτ, hτl⟩ := hmC.swap (Ne.symm hml) (hm x.io x.compute)
        have hτself : τ l = x.seat l := hτ.other (Ne.symm hml)
        refine ⟨_, Unregistered.of_absent hC hs hw0, Or.inr ⟨m, τ, hml, hmw, hmk', hτ, ?_⟩⟩
        refine hσ ▸ (hτl.trans (hmF s')).congr ?_
        rw [hτself]
        rfl
  · have hw0 : (x.seat l).cnt.waiting = 0 := by
      by_contra hne
      rcases hkey with h1 | ⟨fd, e, h1⟩
      · exact hwait hne h1
      · exact hk (by rw [show (x.sched.lt l).fdWait = _ from h1]; exact fdKey_nonneg fd e)
    refine ⟨_, Unregistered.of_absent hC hs hw0, Or.inl ?_⟩
    rw [if_neg hk] at hσ
    exact hσ ▸ (hmC.trans (hmF _)).congr rfl

end World

namespace Seat.Cancels

variable {v w : Seat}

theorem addReady (h : Cancels 0 v w) : Cancels 1 v (addReady w) :=
  ⟨h.ctx, h.ltJoin, h.ltExitPtr, h.freed, h.computeSched, h.fdWait, by rw [addReady_cnt, h.cnt]; rfl,
    h.sleeping, h.cancelled, h.detach, h.expired, h.bits, h.wait⟩

theorem of_unregistered
    (h : Unregistered ⟨woken (v.lt.setBit .cancelled), { v.cnt with sleeping := 0 }⟩ w) : Cancels 0 v w := by
  have hbit {b : LtSt} (h1 : b ≠ .sleeping) (hf : b.free = false) :
      (woken (v.lt.setBit .cancelled)).state b = (v.lt.setBit .cancelled).state b := woken_state _ h1 hf
  have hs0 : w.cnt.sleeping = 0 := Nat.le_zero.mp h.sleeping_le
  refine ⟨?_, ?_, ?_, ?_, ?_, h.fdWait, ?_, ?_, ?_, ?_, fun he => ?_, fun b h1 h2 h3 h4 => ?_, fun e he => ?_⟩
  · rw [h.ctx]; simp [Lt.setBit]
  · rw [h.ltJoin]; simp [Lt.setBit]
  · rw [h.ltExitPtr]; simp [Lt.setBit]
  · rw [h.freed]; simp [Lt.setBit]
  · rw [h.computeSched]; simp [Lt.setBit]
  · rw [h.cnt, hs0]; rfl
  · rw [Bool.eq_false_iff, ne_eq, h.sleeping]; simp [hs0]
  · rw [h.bits _ (by simp) rfl (by intro e; cases e <;> simp [waitBit]), hbit (by simp) rfl]
    simp [Lt.setBit]
  · rw [h.detach]; simp [Lt.setBit]
  · simpa [Lt.setBit] using woken_expired _ (h.expired he)
  · rw [h.bits b h1 h3 h4, hbit h1 h3]
    simp [Lt.setBit, h2]
  · have := h.wait e he
    rw [hbit (by cases e <;> simp [waitBit]) (by cases e <;> rfl)] at this
    cases e <;> simpa [Lt.setBit, waitBit] using this

end Seat.Cancels

theorem Seat.Expires.of_unregistered {v w : Seat} (h : v.Unregistered w) (hle : v.cnt.sleeping ≤ 1) :
    v.Expires (onLt (·.setBit .expired) (deschedSleep w)) := by
  rw [deschedSleep_eq h.sleeping (h.sleeping_le.trans hle)]
  have hbit {b : LtSt} (h1 : b ≠ .sleeping) (hf : b.free = false) :
      ((woken w.lt).setBit .expired).state b = w.lt.state b := by
    have hne : b ≠ .expired := by rintro rfl; cases hf
    rw [← woken_state w.lt h1 hf]
    simp [Lt.setBit, hne]
  refine ⟨?_, ?_, ?_, ?_, ?_, ?_, ?_, ?_, ?_, fun b h1 h2 h3 => (hbit h1 h2).trans (h.bits b h1 h2 h3),
    fun e he => h.wait e ?_⟩
  · simp [Lt.setBit, h.ctx]
  · simp [Lt.setBit, h.ltJoin]
  · simp [Lt.setBit, h.ltExitPtr]
  · simp [Lt.setBit, h.freed]
  · simp [Lt.setBit, h.fdWait]
  · rw [onLt_cnt, h.cnt]
  · simp [Lt.setBit]
  · simp [Lt.setBit, h.detach]
  · simp [Lt.setBit]
  · rw [← hbit (b := waitBit e) (by cases e <;> simp [waitBit]) (by cases e <;> rfl)]
    exact he

namespace World

variable {k : Bool} {R : Rules} {x x' : World} {l target : LtId}

theorem lthreadCancelEvent_frame (h : x.lthreadCancelEvent l = .ok x') :
    x'.cpu = x.cpu ∧ x'.phase = x.phase ∧ x'.dropped = x.dropped ∧ x'.sched.spawned = x.sched.spawned := by
  obtain ⟨C, p, -, -, rfl⟩ := lthreadCancelEvent_cases h
  refine ⟨rfl, rfl, rfl, ?_⟩
  change (eventCancelled l C (x.sched.lt l).fdWait x.sched).spawned = x.sched.spawned
  unfold eventCancelled
  split_ifs
  · simp [lthreadDeschedEvent_spawned]
  · simp

/-- `lthread_cancel` marks the lthread, takes it out of both trees, and puts it on the
ready queue unless its bits say that a worker has it. -/
theorem lthreadCancel_cases (h : x.lthreadCancel target = .ok x') :
    target < x.sched.spawned ∧ (x.sched.lt target).freed = false ∧ ∃ x₂,
      (x.onSched fun s => (s.setBit target .cancelled).lthreadDeschedSleep target).lthreadCancelEvent
        target = .ok x₂ ∧
      (x' = x₂ ∧ (x₂.sched.has target .pendingRuncompute = true ∨ (∃ e, x₂.sched.has target (waitIoBit e) = true) ∨
        x₂.sched.has target .runcompute = true) ∨
      x' = x₂.onSched (·.readyInsert target) ∧ x₂.sched.has target .pendingRuncompute = false ∧
        (∀ e, x₂.sched.has target (waitIoBit e) = false) ∧ x₂.sched.has target .runcompute = false) := by
  unfold lthreadCancel at h
  obtain ⟨u, hu, h⟩ := except_bind_ok h
  obtain ⟨x₂, h₂, h⟩ := except_bind_ok h
  refine ⟨(usable_ok hu).1, (usable_ok hu).2, x₂, h₂, ?_⟩
  split_ifs at h with hb
  · refine Or.inl ⟨(Except.ok.inj h).symm, ?_⟩
    rcases hb with hb | hb | hb | hb
    · exact Or.inl hb
    · exact Or.inr (Or.inl ⟨.read, hb⟩)
    · exact Or.inr (Or.inl ⟨.write, hb⟩)
    · exact Or.inr (Or.inr hb)
  · simp only [not_or, Bool.not_eq_true] at hb
    exact Or.inr ⟨(Except.ok.inj h).symm, hb.1, fun e => by cases e <;> simp [waitIoBit, hb], hb.2.2.2⟩

/-- `lthread_cancel`, as the lthreads see it: another lthread may lose its registration
first, then the target is cancelled. -/
theorem lthreadCancel_acts (h : x.board.Seated k) {x₂ : World}
    (h₂ : (x.onSched fun s => (s.setBit target .cancelled).lthreadDeschedSleep target).lthreadCancelEvent
      target = .ok x₂) :
    ∃ τ w, Strays x.seat τ target ∧ (x.seat target).Cancels 0 w ∧ ActsAt τ x₂.seat target fun _ => w := by
  have hok : (x.seat target).Ok k target := h.seats target
  have hm₁ : ActsAt x.seat (x.onSched fun s =>
      (s.setBit target .cancelled).lthreadDeschedSleep target).seat target
      (deschedSleep ∘ onLt (·.setBit .cancelled)) :=
    (setBit_moves x.sched target .cancelled).trans (lthreadDeschedSleep_moves _ target) x.io x.compute
  generalize (x.onSched fun s => (s.setBit target .cancelled).lthreadDeschedSleep target) = x₁ at h₂ hm₁
  have hv₁ : x₁.seat target = ⟨woken ((x.seat target).lt.setBit .cancelled),
      { (x.seat target).cnt with sleeping := 0 }⟩ := by
    rw [hm₁.self, Function.comp_apply]
    exact deschedSleep_eq (v := onLt (·.setBit .cancelled) (x.seat target)) (by
      simpa [Lt.setBit] using hok.sleeping) hok.sleeping_le
  obtain ⟨w, hw, hacts⟩ := lthreadCancelEvent_acts h₂
    (by
      rw [hv₁]
      rcases hok.key with hkey | ⟨fd, e, t, -, hkey⟩
      · exact Or.inl (by simpa [Lt.setBit] using hkey)
      · exact Or.inr ⟨fd, e, by simpa [Lt.setBit] using hkey⟩)
    (by rw [hv₁]; simpa [Lt.setBit] using hok.waiting) (by rw [hv₁]; exact hok.waiting_le)
    (by rw [hv₁]; simp) (by rw [hv₁]; simp)
    (fun m hm ht hkey => by
      by_contra hmt
      rw [hm₁.other hmt] at hm hkey
      rw [hv₁] at ht hkey
      exact hmt (h.links.keys m target hm ht (by simpa [Lt.setBit] using hkey)))
  have hc : (x.seat target).Cancels 0 w := Cancels.of_unregistered (hv₁ ▸ hw)
  rcases hacts with ha | ⟨m, τ₁, hmt, hmw, hmk, ha, hb⟩
  · exact ⟨x.seat, w, Or.inl rfl, hc, hm₁.trans ha⟩
  · obtain ⟨τ, hτ, hτ₁⟩ := hm₁.swap (Ne.symm hmt) ha
    rw [hm₁.other hmt] at hmw hmk
    rw [hv₁] at hmk
    exact ⟨τ, w, Or.inr ⟨m, hmt, hmw, by simpa [Lt.setBit] using hmk, hτ⟩, hc, hτ₁.trans hb⟩

theorem lthreadCancel_turn (h : x.board.Seated k) (hr : R x.board (.cancel target)) (hcpu : x.cpu = .run l)
    (hne : target ≠ l) (hdefer : target ∈ x.sched.defer → ∀ j, (x.sched.lt target).ctx ≠ .compute j)
    (hx : x.lthreadCancel target = .ok x') : Turn R x.board x'.board := by
  obtain ⟨hlt, hf, x₂, h₂, hx'⟩ := lthreadCancel_cases hx
  obtain ⟨τ, w, hτ, hc, hm⟩ := lthreadCancel_acts h h₂
  obtain ⟨hcpu₂, hph₂, hdr₂, hn₂⟩ := lthreadCancelEvent_frame h₂
  have hb₂ : x₂.board = { x.board with seat := x₂.seat } := by
    change (⟨_, x₂.cpu, x₂.sched.spawned, x₂.phase.expiring, x₂.dropped⟩ : Board) = _
    rw [hcpu₂, hph₂, hdr₂, hn₂]
    simp [World.board, World.onSched, World.sched]
  have hrun : (x.seat target).lt.ctx ≠ .running :=
    fun hr => hne (Cpu.run.inj (((h.running target).mp hr).symm.trans hcpu))
  rcases hx' with ⟨rfl, -⟩ | ⟨rfl, hp, hio, hrc⟩
  · rw [hb₂]
    exact Turn.cancel hr hlt hf hrun hc (fun hd => absurd rfl hd) hτ hm
  · have hmr : ActsAt τ (x₂.onSched (·.readyInsert target)).seat target fun _ => addReady w :=
      (hm.trans (readyInsert_moves x₂.sched target x₂.io x₂.compute)).congr rfl
    have hb₃ : (x₂.onSched (·.readyInsert target)).board =
        { x.board with seat := (x₂.onSched (·.readyInsert target)).seat } :=
      congrArg (fun b : Board => { b with seat := (x₂.onSched (·.readyInsert target)).seat }) hb₂
    have hhas (b : LtSt) (h1 : b ≠ .sleeping) (h2 : b ≠ .cancelled) (hf : b.free = false)
        (he : ∀ e, b ≠ waitBit e) (h0 : x₂.sched.has target b = false) : (x.seat target).lt.state b = false := by
      rw [← hc.bits b h1 h2 hf he, ← show x₂.seat target = w from hm.self]
      exact h0
    rw [hb₃]
    refine Turn.cancel hr hlt hf hrun hc.addReady (fun _ => ?_) hτ hmr
    refine ⟨hhas _ (by simp) (by simp) rfl ?_ hp, fun e => hhas _ ?_ ?_ ?_ ?_ (hio e),
      hhas _ (by simp) (by simp) rfl ?_ hrc, fun hd => hdefer (mem_of_count hd)⟩
    · intro e; cases e <;> simp [waitBit]
    · cases e <;> simp [waitIoBit]
    · cases e <;> simp [waitIoBit]
    · cases e <;> rfl
    · intro e'; cases e <;> cases e' <;> simp [waitBit, waitIoBit]
    · intro e; cases e <;> simp [waitBit]

end World

end Lthr
