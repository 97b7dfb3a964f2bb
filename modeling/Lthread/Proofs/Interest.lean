import Lthread.Proofs.CancelLocal
import Lthread.Proofs.Waits

/-! The epoll set and the waiting tree: the descriptors that lthreads wait for are armed,
as long as no two lthreads wait for one descriptor. -/

namespace Lthr

/-- The event has been delivered and is still to be handled. -/
def Phase.Delivered (fd : Fd) (e : LtEvent) : Phase → Prop
  | .events evs => fd ∈ evs.filterMap PollEvent.fd?
  | .write fd' _ _ evs => fd = fd' ∧ e = .write ∨ fd ∈ evs.filterMap PollEvent.fd?
  | _ => False

namespace Poller

theorem armed_ne_none {p : Poller} {fd : Fd} {e : LtEvent} (h : p.armed fd e = true) : p fd ≠ none := by
  intro hn
  rw [armed, hn] at h
  cases h

theorem armed_congr {p q : Poller} {fd : Fd} (h : q fd = p fd) (e : LtEvent) : q.armed fd e = p.armed fd e := by
  unfold armed
  rw [h]

theorem register_armed (p : Poller) (fd : Fd) (e : LtEvent) : (p.register fd e).armed fd e = true := by
  unfold armed register
  rw [Function.update_self]
  cases e <;> rfl

theorem deliver_of_notMem {p : Poller} {evs : List PollEvent} {fd : Fd} (h : fd ∉ evs.filterMap PollEvent.fd?) :
    p.deliver evs fd = p fd := by
  refine if_neg fun hm => h ?_
  obtain ⟨ev, hev, hfd⟩ := List.mem_map.mp hm
  exact List.mem_filterMap.mpr ⟨ev, hev, hfd⟩

theorem deliver_ne_none {p : Poller} {evs : List PollEvent} {fd : Fd} (h : p fd ≠ none) :
    p.deliver evs fd ≠ none := by
  unfold deliver
  split_ifs
  · simpa using h
  · exact h

end Poller

namespace World

open Sched Seat

variable {k : Bool} {x x' : World} {l m : LtId} {fd : Fd} {e : LtEvent} {a : Label}

structure Armed (x : World) : Prop where
  alone : ∀ l m fd e e', x.Waits l fd e → x.Waits m fd e' → l = m
  armed : ∀ l fd e, x.Waits l fd e →
    x.poller.armed fd e = true ∨ x.phase.Delivered fd e ∧ x.poller fd ≠ none

theorem schedEvent_poller {t : ℕ} (hx : x.step (.call (.schedEvent fd e t)) = .ok x') :
    x'.poller = x.poller.register fd e ∧ x'.phase = x.phase := by
  obtain ⟨m, hcpu, hx⟩ := step_call hx
  obtain ⟨-, -, ⟨-, rfl⟩ | ⟨-, rfl⟩⟩ := lthreadSchedEvent_cases hx <;> exact ⟨rfl, rfl⟩

theorem close_poller (hx : x.step (.call (.close fd)) = .ok x') :
    x'.poller = x.poller.close fd ∧ x'.phase = x.phase := by
  obtain ⟨m, hcpu, hx⟩ := step_call hx
  have hclose {y y' : World} {e : LtEvent} (h : y.closeEvent fd e = .ok y') :
      y'.poller = y.poller ∧ y'.phase = y.phase := by
    rcases closeEvent_cases h with ⟨rfl, -⟩ | ⟨_, s', -, -, -, -, -, rfl⟩ <;> exact ⟨rfl, rfl⟩
  obtain ⟨x₁, h₁, hx⟩ := except_bind_ok hx
  obtain ⟨x₂, h₂, hx⟩ := except_bind_ok hx
  obtain rfl := Except.ok.inj hx
  refine ⟨?_, (hclose h₂).2.trans (hclose h₁).2⟩
  change x₂.poller.close fd = _
  rw [(hclose h₂).1, (hclose h₁).1]

/-- A half of `lthread_close` leaves nobody who waits for its event, and nobody new. -/
theorem closeEvent_waits (h : x.board.Seated k) (hx : x.closeEvent fd e = .ok x') :
    (∀ m, ¬ x'.Waits m fd e) ∧ ∀ m fd' e', x'.Waits m fd' e' → x.Waits m fd' e' := by
  rcases closeEvent_cases hx with ⟨rfl, hnone⟩ | ⟨i, s', -, hmem, hkey, hm, -, rfl⟩
  · exact ⟨fun m hm => hnone m hm.1 hm.2, fun _ _ _ hw => hw⟩
  · have hacts := (hm.trans (readyInsert_moves s' i)).trans (setBit_moves _ i .fdeof) x.io x.compute
    have hi : x.Waits i fd e := ⟨hmem, hkey⟩
    have hzero : (((x.onSched fun _ => s'.readyInsert i).onSched (·.setBit i .fdeof)).seat i).cnt.waiting = 0 := by
      obtain ⟨-, _, _, _, -, hn⟩ := (h.seats i).row.of_waiting (count_ne_zero hmem)
      change (seatOf ((s'.readyInsert i).setBit i .fdeof) x.io x.compute i).cnt.waiting = 0
      rw [hacts.self]
      change (deschedSleep (dropWaiting (x.seat i))).reg.1 = 0
      rw [deschedSleep_reg]
      have hone : (x.seat i).cnt.waiting = 1 := congrArg Counts.waiting hn
      change (x.seat i).cnt.waiting - 1 = 0
      rw [hone]
    have hold (m : LtId) (fd' : Fd) (e' : LtEvent)
        (hw : ((x.onSched fun _ => s'.readyInsert i).onSched (·.setBit i .fdeof)).Waits m fd' e') :
        m ≠ i ∧ x.Waits m fd' e' := by
      rw [← waits_board] at hw ⊢
      have hne : m ≠ i := by
        rintro rfl
        exact hw.1 hzero
      refine ⟨hne, (Board.Waits.congr ?_).mp hw⟩
      exact congrArg reg (hacts.other hne)
    refine ⟨fun m hw => ?_, fun m fd' e' hw => (hold m fd' e' hw).2⟩
    obtain ⟨hne, hw⟩ := hold m fd e hw
    rw [← waits_board] at hw hi
    exact hne (h.links.keys m i hw.1 hi.1 (hw.2.trans hi.2.symm))

theorem Inv.close_waits (h : x.Inv k) (hx : x.step (.call (.close fd)) = .ok x') (m : LtId) (e : LtEvent) :
    ¬ x'.Waits m fd e := by
  obtain ⟨l, hcpu, hx⟩ := step_call hx
  obtain ⟨x₁, h₁, hx⟩ := except_bind_ok hx
  obtain ⟨x₂, h₂, hx⟩ := except_bind_ok hx
  obtain rfl := Except.ok.inj hx
  have hs₁ : x₁.board.Seated k :=
    Turns.seated (R := fun _ c => c = .close fd) (fun _ _ hr => by cases hr) (closeEvent_turns rfl h₁) h.seated
  obtain ⟨hr₁, -⟩ := closeEvent_waits h.seated h₁
  obtain ⟨hw₂, hold₂⟩ := closeEvent_waits hs₁ h₂
  have hsame (hw : ({ x₂.onSched (·.clearBit l .fdeof) with poller := x₂.poller.close fd } : World).Waits m fd e) :
      x₂.Waits m fd e := by
    obtain ⟨hmem, hkey⟩ := hw
    refine ⟨hmem, ?_⟩
    rw [← hkey]
    change _ = ((x₂.sched.clearBit l .fdeof).lt m).fdWait
    rw [clearBit, modify_lt]
    split_ifs with hm
    · rw [hm]; rfl
    · rfl
  intro hw
  cases e with
  | read => exact hr₁ m (hold₂ m fd .read (hsame hw))
  | write => exact hw₂ m (hsame hw)

theorem Inv.handled {eof : Bool} {next : Bool → Except Fault Phase} (h : x.Inv k)
    (hs : x.step .sched = .ok x') (hx : x.handleEv fd e eof next = .ok x') (m : LtId) : ¬ x'.Waits m fd e := by
  intro hw
  rcases h.handleEv_run hx with ⟨-, hnone, -, hsched⟩ | ⟨i, -, hi, hcpu⟩
  · refine hnone m ?_
    unfold Waits at hw ⊢
    rwa [hsched] at hw
  · rcases h.waits_old (a := .sched) trivial hs hw with hold | ⟨-, t, ha⟩
    · obtain rfl := h.waits_unique hold hi
      exact (h.step (a := .sched) trivial hs).waits_not_run hw hcpu
    · cases ha

/-- Whoever still waits after a step of the loop, and had its event delivered, has it
still to come. -/
theorem Inv.loop_delivered (h : x.Inv k) (hcpu : x.cpu = .loop) (hs : x.step .sched = .ok x')
    (hw : x'.Waits l fd e) (hd : x.phase.Delivered fd e) : x'.phase.Delivered fd e := by
  have hx : x.lthreadRun = .ok x' := step_loop hcpu hs
  unfold lthreadRun at hx
  cases hp : x.phase with
  | events evs =>
    rw [hp] at hd
    simp only [hp] at hx
    cases evs with
    | nil => cases hd
    | cons ev evs =>
      cases ev with
      | trigger =>
        simp only at hx
        split_ifs at hx
        obtain rfl := Except.ok.inj hx
        exact hd
      | ready fd' eof =>
        have hnot := h.handled hs hx l
        have hph : x'.phase = .write fd' eof false evs ∨ x'.phase = .write fd' eof true evs := by
          rcases h.handleEv_run hx with ⟨hph, -⟩ | ⟨_, hph, -⟩
          · exact Or.inl (Except.ok.inj hph).symm
          · exact Or.inr (Except.ok.inj hph).symm
        have hgoal : fd = fd' ∧ e = .write ∨ fd ∈ evs.filterMap PollEvent.fd? := by
          rcases List.mem_cons.mp hd with rfl | hd
          · cases e with
            | read => exact absurd hw hnot
            | write => exact Or.inl ⟨rfl, rfl⟩
          · exact Or.inr hd
        rcases hph with hph | hph <;> rw [hph] <;> exact hgoal
  | write fd' eof ltRead evs =>
    rw [hp] at hd
    simp only [hp] at hx
    have hph : x'.phase = .events evs := by
      rcases h.handleEv_run hx with ⟨hph, -⟩ | ⟨_, hph, -⟩
      all_goals
        split_ifs at hph
        exact (Except.ok.inj hph).symm
    rw [hph]
    rcases hd with ⟨rfl, rfl⟩ | hd
    · exact absurd hw (h.handled hs hx l)
    · exact hd
  | _ => rw [hp] at hd; cases hd

theorem Inv.sleeper_waiting {t : ℕ} (h : x.Inv k) (hm : m ∈ x.sched.sleeping)
    (hctx : (x.sched.lt m).ctx = .schedEvent fd e t) : m ∈ x.sched.waiting := by
  have hrow := h.row m
  rw [hctx] at hrow
  obtain ⟨-, -, ⟨⟨t', hx⟩, -⟩ | ⟨i, t', hx, -⟩ | ⟨⟨T, t', hx⟩, -⟩ | ⟨-, hcnt⟩⟩ :=
    hrow.of_sleeping (count_ne_zero hm)
  · cases hx
  · cases hx
  · cases hx
  · exact mem_of_count (by rw [show x.sched.waiting.count m = 1 from congrArg Counts.waiting hcnt]; simp)

theorem Inv.sleeper_waits (h : x.Inv k) (hm : m ∈ x.sched.sleeping) (hk : 0 ≤ (x.sched.lt m).fdWait) :
    ∃ fd e, x.Waits m fd e := by
  rcases (h.ok m).key with hkey | ⟨fd, e, t, hctx, hkey⟩
  · rw [show (x.sched.lt m).fdWait = -1 from hkey] at hk
    omega
  · exact ⟨fd, e, h.sleeper_waiting hm hctx, hkey⟩

/-- `_lthread_cancel_event` writes the epoll set at the descriptor of the key. -/
theorem lthreadCancelEvent_poller_ne (h : x.lthreadCancelEvent m = .ok x')
    (hfd : ∀ e, (x.sched.lt m).fdWait ≠ fdKey fd e)
    (hkey : (x.sched.lt m).fdWait = -1 ∨ ∃ fd e, (x.sched.lt m).fdWait = fdKey fd e) :
    x'.poller fd = x.poller fd := by
  rcases lthreadCancelEvent_poller h with ⟨-, hp⟩ | ⟨hbit, hp⟩
  · rw [hp]
  · obtain ⟨hk, -⟩ := cancelEvent_returns_iff.mp ⟨x', h⟩ hbit
    rcases hkey with hkey | ⟨fd', e', hkey⟩
    · omega
    · have hne : fd ≠ fd' := by
        rintro rfl
        exact hfd e' hkey
      rw [hp, hkey, fdOnly_fdKey, Function.update_of_ne hne]

theorem Armed.start (birth : ℕ) (capacity : ChanId → ℕ) (n : ℕ) : (start birth capacity n).Armed :=
  ⟨fun _ _ _ _ _ hl => absurd hl.1 List.not_mem_nil, fun _ _ _ hl => absurd hl.1 List.not_mem_nil⟩

/-- A step that leaves the epoll set alone keeps the events that are still to come. -/
theorem Armed.old (h : x.Armed) (hi : x.Inv k) (hok : stepOk k x a) (hx : x.step a = .ok x')
    (hpoll : ∀ evs, a ≠ .poll evs) (hp : x'.poller fd = x.poller fd) (hw : x.Waits l fd e) (hw' : x'.Waits l fd e) :
    x'.poller.armed fd e = true ∨ x'.phase.Delivered fd e ∧ x'.poller fd ≠ none := by
  rcases h.armed l fd e hw with harm | ⟨hd, hne⟩
  · exact Or.inl ((Poller.armed_congr hp e).trans harm)
  · refine Or.inr ⟨?_, hp ▸ hne⟩
    rcases step_phase hx with hph | ⟨⟨-, last, hph⟩, -⟩ | rfl | ⟨evs, rfl⟩ | ⟨rfl, hcpu, -⟩
    · rwa [hph]
    · rw [hph] at hd; cases hd
    · cases step_cases hx with
      | run hph => rw [hph] at hd; cases hd
    · exact absurd rfl (hpoll evs)
    · exact hi.loop_delivered hcpu hx hw' hd

theorem waitsAlone_stepOk (x : World) (a : Label) (h : x.waitsAlone a) : stepOk k x a :=
  undisturbed_stepOk x a h.1

/-- `_lthread_resume_expired` clears the descriptor of the lthread it resumes. -/
theorem Armed.loop_poller (h : x.Armed) (hi : x.Inv k) (hx : x.step .sched = .ok x') (hcpu : x.cpu = .loop)
    (hw : x.Waits l fd e) (hw' : x'.Waits l fd e) : x'.poller fd = x.poller fd := by
  have hrun : x.lthreadRun = .ok x' := step_loop hcpu hx
  rcases lthreadRun_kept hrun with hk | ⟨t, m, y, -, hm, hrun, hy, hk⟩
  · rw [hk.poller]
  · rw [hk.poller]
    have hkey := (hi.ok m).key.imp id fun ⟨fd, e, _, _, hk⟩ => (⟨fd, e, hk⟩ : ∃ fd e, _ = fdKey fd e)
    refine lthreadCancelEvent_poller_ne hy (fun e' hm' => ?_) hkey
    -- it would be the one that waits for the descriptor, and it runs now
    obtain ⟨fd₂, e₂, hwm⟩ := hi.sleeper_waits hm (by rw [hm']; exact fdKey_nonneg fd e')
    obtain ⟨rfl, rfl⟩ := fdKey_inj (hwm.2.symm.trans hm')
    obtain rfl := h.alone l m fd₂ e e₂ hw hwm
    exact (hi.step (a := .sched) trivial hx).waits_not_run hw' (resumeExpired_run hi.seated hm hrun)

theorem Armed.step (h : x.Armed) (hi : x.Inv k) (hok : x.waitsAlone a) (hx : x.step a = .ok x') : x'.Armed := by
  have hold {l : LtId} {fd : Fd} {e : LtEvent} (hw : x'.Waits l fd e) :=
    hi.waits_old (waitsAlone_stepOk x a hok) hx hw
  -- nobody has waited for a descriptor that somebody starts to wait for
  have hnew {l : LtId} {fd : Fd} {e e' : LtEvent} {t : ℕ} (ha : a = .call (.schedEvent fd e t))
      (hw : x.Waits l fd e') : False := by
    subst ha
    refine hok.2 fd rfl l hw.1 ?_
    rw [hw.2, fdOnly_fdKey]
  refine ⟨fun l m fd e e' hl hm => ?_, fun l fd e hl => ?_⟩
  · rcases hold hl with hl | ⟨hcpu, t, ha⟩
    · rcases hold hm with hm | ⟨-, t, ha⟩
      · exact h.alone l m fd e e' hl hm
      · exact (hnew ha hl).elim
    · rcases hold hm with hm | ⟨hcpu', -⟩
      · exact (hnew ha hm).elim
      · exact Cpu.run.inj (hcpu.symm.trans hcpu')
  by_cases hev : ∃ fd' e' t, a = .call (.schedEvent fd' e' t)
  · obtain ⟨fd', e', t, rfl⟩ := hev
    obtain ⟨hp, -⟩ := schedEvent_poller hx
    rcases hold hl with hl' | ⟨-, t', ha⟩
    · have hne : fd ≠ fd' := by
        rintro rfl
        exact hnew rfl hl'
      refine h.old hi (waitsAlone_stepOk x _ hok) hx (by simp) ?_ hl' hl
      rw [hp, Poller.register, Function.update_of_ne hne]
    · cases ha
      refine Or.inl ?_
      rw [hp]
      exact Poller.register_armed _ fd e
  have hl' : x.Waits l fd e := (hold hl).resolve_right fun ⟨_, t, ha⟩ => hev ⟨fd, e, t, ha⟩
  by_cases hpoll : ∃ evs, a = .poll evs
  · obtain ⟨evs, rfl⟩ := hpoll
    obtain ⟨hph, -, rfl⟩ := step_poll hx
    have harm : x.poller.armed fd e = true := (h.armed l fd e hl').resolve_right fun hd => by
      rw [hph] at hd
      exact hd.1
    by_cases hfd : fd ∈ evs.filterMap PollEvent.fd?
    · refine Or.inr ⟨?_, Poller.deliver_ne_none (Poller.armed_ne_none harm)⟩
      change fd ∈ evs.reverse.filterMap PollEvent.fd?
      rwa [List.filterMap_reverse, List.mem_reverse]
    · exact Or.inl ((Poller.armed_congr (Poller.deliver_of_notMem hfd) e).trans harm)
  refine h.old hi (waitsAlone_stepOk x a hok) hx (fun evs he => hpoll ⟨evs, he⟩) ?_ hl' hl
  rcases step_kept hx with hk | ⟨-, he | he | ⟨fd', rfl⟩ | ⟨target, rfl⟩ | ⟨rfl, hcpu, -⟩⟩ | ⟨-, hk⟩
  · rw [hk.poller]
  · exact absurd he hpoll
  · exact absurd he hev
  · have hne : fd ≠ fd' := by
      rintro rfl
      exact hi.close_waits hx l e hl
    rw [(close_poller hx).1, Poller.close, Function.update_of_ne hne]
  · exact hok.1.elim
  · exact h.loop_poller hi hx hcpu hl' hl
  · rw [hk]

theorem Armed.reachable (h : worldMachine.Reachable waitsAlone x) : x.Armed := by
  refine Machine.Reachable.invariant_of (P := Armed) (fun y hy => ?_) (fun y a y' hy hP hok hs => ?_) h
  · obtain ⟨birth, capacity, n, rfl⟩ := hy
    exact Armed.start birth capacity n
  · exact hP.step (Inv.reachable (k := false) (hy.mono waitsAlone_stepOk)) hok hs

/-- Whoever may be expired or cancelled has its descriptor in the epoll set. -/
theorem Armed.registered (h : x.Armed) (hi : x.Inv k) (hm : m ∈ x.sched.waiting ∨ m ∈ x.sched.sleeping) :
    x.Registered m := by
  rintro ⟨e, he⟩
  obtain ⟨fd, t, hctx⟩ := (hi.ok m).wait e he
  have hw : m ∈ x.sched.waiting := hm.elim id fun hm => hi.sleeper_waiting hm hctx
  obtain ⟨fd', e', hw⟩ := hi.waits_of_mem hw
  rw [hw.2, fdOnly_fdKey]
  refine ⟨fdKey_nonneg fd' e', ?_⟩
  rcases h.armed m fd' e' hw with harm | ⟨-, hne⟩
  · exact Poller.armed_ne_none harm
  · exact hne

/-- Every lthread in the waiting tree has its event armed, or delivered and about to be
handled; and `_lthread_cancel_event`, for it or for a sleeper, deletes a descriptor that
is there. -/
theorem interest_covers_waiters (h : worldMachine.Reachable waitsAlone x) :
    (∀ l ∈ x.sched.waiting, ∃ fd e, (x.sched.lt l).fdWait = fdKey fd e ∧
      (x.poller.armed fd e = true ∨ x.phase.Delivered fd e)) ∧
    ∀ m, m ∈ x.sched.waiting ∨ m ∈ x.sched.sleeping → ∃ y, x.lthreadCancelEvent m = .ok y := by
  have hi : x.Inv false := Inv.reachable (h.mono waitsAlone_stepOk)
  have ha := Armed.reachable h
  constructor
  · intro l hl
    obtain ⟨fd, e, hw⟩ := hi.waits_of_mem hl
    exact ⟨fd, e, hw.2, (ha.armed l fd e hw).imp id And.left⟩
  · intro m hm
    exact cancelEvent_returns_iff.mpr (ha.registered hi hm)

set_option maxRecDepth 20000 in
/-- Lthreads 0 and 1 wait to read from and to write to one descriptor: the second
registration disarms the first, and when both have expired the second clear fails. -/
theorem second_wait_disarms_first :
    (∃ x, worldMachine.Reachable undisturbed x ∧ x.cpu = .loop ∧ x.phase = .poll ∧ 0 ∈ x.sched.waiting ∧
      (x.sched.lt 0).fdWait = fdKey 5 .read ∧ x.poller.armed 5 .read = false) ∧
    ∃ x, worldMachine.Reachable undisturbed x ∧ x.step .sched = .error .pollerClear := by
  constructor
  · obtain ⟨x, hx, hsee⟩ := exists_after undisturbed
      [.main, .main, .run, .sched, .sched, .sched, .call (.schedEvent 5 .read 20), .sched, .sched,
        .call (.schedEvent 5 .write 30), .sched, .sched]
      (fun x => decide (x.cpu = .loop ∧ x.phase = .poll ∧ 0 ∈ x.sched.waiting ∧
        (x.sched.lt 0).fdWait = fdKey 5 .read ∧ x.poller.armed 5 .read = false)) (t := true) (by decide)
    exact ⟨x, hx, of_decide_eq_true hsee⟩
  · obtain ⟨x, hx, hsee⟩ := exists_after undisturbed
      [.main, .main, .run, .sched, .sched, .sched, .call (.schedEvent 5 .read 20), .sched, .sched,
        .call (.schedEvent 5 .write 30), .sched, .sched, .sched, .clock 1000000, .poll [], .sched, .sched, .sched,
        .call .finish, .sched]
      (fun x => errorOf (x.step .sched)) (t := some .pollerClear) (by decide)
    exact ⟨x, hx, eq_error_of hsee⟩

set_option maxRecDepth 20000 in
/-- Two lthreads wait for two descriptors. -/
theorem interest_covers_waiters_two : ∃ x, worldMachine.Reachable waitsAlone x ∧ x.sched.waiting = [1, 0] ∧
    ((∀ l ∈ x.sched.waiting, ∃ fd e, (x.sched.lt l).fdWait = fdKey fd e ∧
      (x.poller.armed fd e = true ∨ x.phase.Delivered fd e)) ∧
    ∀ m, m ∈ x.sched.waiting ∨ m ∈ x.sched.sleeping → ∃ y, x.lthreadCancelEvent m = .ok y) := by
  obtain ⟨x, hx, hw⟩ := exists_after waitsAlone
    [.main, .main, .run, .sched, .sched, .sched, .call (.schedEvent 5 .read 20), .sched, .sched,
      .call (.schedEvent 6 .write 30), .sched, .sched] (fun x => x.sched.waiting) (t := [1, 0]) (by decide)
  exact ⟨x, hx, hw, interest_covers_waiters hx⟩

end World
end Lthr
