import Lthread.Proofs.Edits
import Lthread.Proofs.WorldStep

/-! What the thread of the scheduler leaves alone, in any state: the workers, the
eventfd and the defer queue, but for the places that are about them. -/

namespace Lthr

open Sched Seat

namespace World

variable {x x' y : World} {l : LtId}

/-- The parts of the world that the workers share with the scheduler. -/
structure Rest (x x' : World) : Prop where
  io : x'.io = x.io
  ioWorkers : x'.ioWorkers = x.ioWorkers
  compute : x'.compute = x.compute
  computeScheds : x'.computeScheds = x.computeScheds
  computeCount : x'.computeCount = x.computeCount
  eventfd : x'.eventfd = x.eventfd
  defer : x'.sched.defer = x.sched.defer

namespace Rest

theorem refl (x : World) : Rest x x := ⟨rfl, rfl, rfl, rfl, rfl, rfl, rfl⟩

theorem trans {a b c : World} (h1 : Rest a b) (h2 : Rest b c) : Rest a c :=
  ⟨h2.io.trans h1.io, h2.ioWorkers.trans h1.ioWorkers, h2.compute.trans h1.compute,
    h2.computeScheds.trans h1.computeScheds, h2.computeCount.trans h1.computeCount,
    h2.eventfd.trans h1.eventfd, h2.defer.trans h1.defer⟩

theorem onSched {f : Sched → Sched} (hd : (f x.sched).defer = x.sched.defer) : Rest x (x.onSched f) :=
  ⟨rfl, rfl, rfl, rfl, rfl, rfl, hd⟩

theorem suspend {f : Sched → Sched} (hd : (f x.sched).defer = x.sched.defer) : Rest x (x.suspend l f) :=
  ⟨rfl, rfl, rfl, rfl, rfl, rfl, hd⟩

end Rest

/-! `_lthread_resume` -/

theorem afterYield_rest (hx : x.afterYield l = .ok x') : Rest x x' ∧ x'.phase = x.phase := by
  have hcond (c : CondId) (t : ℕ) : (x.sched.lthreadCondWaitEnd l c t).1.defer = x.sched.defer := by
    rw [lthreadCondWaitEnd_eq]
    split_ifs <;> simp
  unfold World.afterYield at hx
  cases hc : (x.sched.lt l).ctx with
  | start | yielded | compute =>
    rw [hc] at hx
    obtain rfl := Except.ok.inj hx
    exact ⟨Rest.refl x, rfl⟩
  | running | exited => rw [hc] at hx; cases hx
  | joining target t =>
    rw [hc] at hx
    obtain ⟨-, ⟨-, rfl⟩ | ⟨-, rfl⟩⟩ := lthreadJoinEnd_cases hx
    all_goals
      refine ⟨⟨rfl, rfl, rfl, rfl, rfl, rfl, ?_⟩, rfl⟩
      simp [World.onSched, World.sched, World.returnValue]
  | slept t =>
    rw [hc] at hx
    obtain rfl := Except.ok.inj hx
    exact ⟨Rest.onSched (by simp), rfl⟩
  | condWait c t =>
    rw [hc] at hx
    obtain rfl := Except.ok.inj hx
    exact ⟨⟨rfl, rfl, rfl, rfl, rfl, rfl, hcond c t⟩, rfl⟩
  | selWait s t =>
    rw [hc] at hx
    obtain rfl := Except.ok.inj hx
    refine ⟨⟨rfl, rfl, rfl, rfl, rfl, rfl, ?_⟩, rfl⟩
    change (x.sys.returnFrom l s t).sched.defer = _
    rw [Sys.returnFrom_sched]
    exact hcond (.sel s) t
  | schedEvent fd e t =>
    rw [hc] at hx
    simp only at hx
    split_ifs at hx
    obtain rfl := Except.ok.inj hx
    exact ⟨Rest.onSched (by simp [lthreadSchedEventEnd]), rfl⟩
  | ioWait e w =>
    rw [hc] at hx
    obtain rfl := Except.ok.inj hx
    exact ⟨Rest.onSched rfl, rfl⟩

theorem resumed_rest (x : World) (l : LtId) (r : ℤ) : Rest x (x.resumed l r) := by
  obtain ⟨ph, -, heq⟩ := resumed_eq x l r
  rw [heq]
  split_ifs <;> exact ⟨rfl, rfl, rfl, rfl, rfl, rfl, rfl⟩

theorem resumed_phase (x : World) (l : LtId) (r : ℤ) :
    (x.resumed l r).phase = x.phase ∨ (∃ last, x.phase = .ready last) ∧ (x.resumed l r).phase = .defer := by
  unfold resumed
  cases hp : x.phase with
  | expired t =>
    simp only
    split_ifs
    · exact Or.inl hp
    · exact Or.inl hp
  | ready last =>
    simp only
    split_ifs
    · exact Or.inr ⟨⟨last, rfl⟩, rfl⟩
    · exact Or.inl rfl
  | _ => exact Or.inl rfl

theorem resumed_cpu (x : World) (l : LtId) (r : ℤ) : (x.resumed l r).cpu = .loop := by
  obtain ⟨ph, -, heq⟩ := resumed_eq x l r
  rw [heq]

theorem wakeJoiner_rest (hx : x.wakeJoiner l = .ok x') : Rest x x' ∧ x'.phase = x.phase := by
  rcases wakeJoiner_cases hx with ⟨-, rfl⟩ | ⟨j, -, -, rfl⟩
  · exact ⟨Rest.refl _, rfl⟩
  · exact ⟨Rest.onSched (lthreadDeschedSleep_defer x.sched j), rfl⟩

theorem freeDetached_rest (x : World) (l : LtId) :
    Rest x (x.freeDetached l) ∧ (x.freeDetached l).phase = x.phase := by
  unfold freeDetached
  split_ifs
  · exact ⟨Rest.onSched rfl, rfl⟩
  · exact ⟨Rest.refl x, rfl⟩

theorem unbusy_rest (x : World) (l : LtId) : Rest x (x.unbusy l) ∧ (x.unbusy l).phase = x.phase := by
  unfold unbusy
  split_ifs
  · exact ⟨Rest.onSched rfl, rfl⟩
  · exact ⟨Rest.refl x, rfl⟩

theorem dropCancelled_rest (hx : x.dropCancelled l = .ok x') : Rest x x' ∧ x'.cpu = .loop ∧
    (x'.phase = x.phase ∨ (∃ last, x.phase = .ready last) ∧ x'.phase = .defer) := by
  unfold dropCancelled at hx
  obtain ⟨y, hy, hx⟩ := except_bind_ok hx
  obtain rfl := Except.ok.inj hx
  obtain ⟨h1, hp1⟩ := wakeJoiner_rest hy
  obtain ⟨h2, hp2⟩ := freeDetached_rest y l
  obtain ⟨h3, hp3⟩ := unbusy_rest (y.freeDetached l) l
  have h := (h1.trans h2).trans (h3.trans (resumed_rest ((y.freeDetached l).unbusy l) l (-1)))
  refine ⟨⟨h.io, h.ioWorkers, h.compute, h.computeScheds, h.computeCount, h.eventfd, h.defer⟩,
    resumed_cpu _ _ _, ?_⟩
  have hp := resumed_phase ((y.freeDetached l).unbusy l) l (-1)
  rw [hp3, hp2, hp1] at hp
  exact hp

/-- `_lthread_resume` up to the switch: the lthread runs, or it has been dropped. -/
theorem lthreadResume_rest (hx : x.lthreadResume l = .ok x') : Rest x x' ∧
    (x'.cpu = .run l ∧ x'.phase = x.phase ∨
      x'.cpu = .loop ∧ (x'.phase = x.phase ∨ (∃ last, x.phase = .ready last) ∧ x'.phase = .defer)) := by
  obtain ⟨-, ⟨-, hx⟩ | ⟨-, y, hy, rfl⟩⟩ := lthreadResume_cases hx
  · obtain ⟨h1, h2, h3⟩ := dropCancelled_rest hx
    exact ⟨h1, Or.inr ⟨h2, h3⟩⟩
  · have hinit : Rest x (x.initNew l) ∧ (x.initNew l).phase = x.phase := by
      unfold initNew
      split_ifs
      · exact ⟨Rest.onSched rfl, rfl⟩
      · exact ⟨Rest.refl x, rfl⟩
    obtain ⟨hrest, hph⟩ := afterYield_rest hy
    have h := hinit.1.trans hrest
    refine ⟨⟨h.io, h.ioWorkers, h.compute, h.computeScheds, h.computeCount, h.eventfd, h.defer⟩, Or.inl ⟨rfl, ?_⟩⟩
    exact hph.trans hinit.2

theorem lthreadResumeEnd_rest (hx : x.lthreadResumeEnd l = .ok x') : Rest x x' ∧
    (x'.cpu = .loop ∧ (x'.phase = x.phase ∨ (∃ last, x.phase = .ready last) ∧ x'.phase = .defer) ∨
      x'.cpu = .computeAdd l ∧ x'.phase = x.phase) := by
  unfold lthreadResumeEnd at hx
  by_cases hf : (x.sched.lt l).freed = true
  · rw [if_pos hf] at hx; cases hx
  rw [if_neg hf] at hx
  by_cases he : x.sched.has l .exited = true
  · rw [if_pos he] at hx
    obtain ⟨y, hy, hx⟩ := except_bind_ok hx
    obtain rfl := Except.ok.inj hx
    obtain ⟨h1, hp1⟩ := wakeJoiner_rest hy
    obtain ⟨h2, hp2⟩ := freeDetached_rest y l
    have hp := resumed_phase (y.freeDetached l) l (-1)
    rw [hp2, hp1] at hp
    exact ⟨(h1.trans h2).trans (resumed_rest _ l (-1)), Or.inl ⟨resumed_cpu _ _ _, hp⟩⟩
  rw [if_neg he] at hx
  by_cases hp : x.sched.has l .pendingRuncompute = true
  · rw [if_pos hp] at hx
    obtain ⟨j, -, hx⟩ := except_bind_ok hx
    obtain rfl := Except.ok.inj hx
    exact ⟨⟨rfl, rfl, rfl, rfl, rfl, rfl, rfl⟩, Or.inr ⟨rfl, rfl⟩⟩
  · rw [if_neg hp] at hx
    obtain rfl := Except.ok.inj hx
    exact ⟨resumed_rest x l 0, Or.inl ⟨resumed_cpu _ _ _, resumed_phase x l 0⟩⟩

/-! Events and expiries -/

theorem lthreadDeschedEvent_defer (s : Sched) (fd : Fd) (e : LtEvent) :
    (s.lthreadDeschedEvent fd e).1.defer = s.defer := by
  unfold lthreadDeschedEvent
  split <;> simp

theorem lthreadCancelEvent_rest (h : x.lthreadCancelEvent l = .ok x') : Rest x x' := by
  obtain ⟨C, p, -, -, rfl⟩ := lthreadCancelEvent_cases h
  refine ⟨rfl, rfl, rfl, rfl, rfl, rfl, ?_⟩
  change (eventCancelled l C (x.sched.lt l).fdWait x.sched).defer = x.sched.defer
  unfold eventCancelled
  split_ifs
  · simp [lthreadDeschedEvent_defer]
  · simp

theorem handleEv_rest {fd : Fd} {e : LtEvent} {eof : Bool} {next : Bool → Except Fault Phase}
    (hnext : ∀ b ph, next b = .ok ph → ∀ last, ph ≠ .ready last) (hx : x.handleEv fd e eof next = .ok x') :
    Rest x x' ∧ ∃ b, next b = .ok x'.phase := by
  rcases handleEv_cases hx with ⟨ph, hph, -, rfl⟩ | ⟨ph, m, s, hph, hd, -, -, -, -, hx⟩
  · exact ⟨⟨rfl, rfl, rfl, rfl, rfl, rfl, rfl⟩, false, hph⟩
  · have hdefer := lthreadDeschedEvent_defer x.sched fd e
    rw [hd] at hdefer
    obtain ⟨hrest, hcases⟩ := lthreadResume_rest hx
    have hfirst : Rest x { x.onSched (fun _ => if eof then s.setBit m .fdeof else s) with phase := ph } :=
      ⟨rfl, rfl, rfl, rfl, rfl, rfl, by cases eof <;> exact hdefer⟩
    refine ⟨hfirst.trans hrest, true, ?_⟩
    rcases hcases with ⟨-, hp⟩ | ⟨-, hp | ⟨⟨last, hp⟩, -⟩⟩
    · rw [hp]; exact hph
    · rw [hp]; exact hph
    · exact absurd hp (hnext true ph hph last)

theorem resumeExpired_rest (hx : x.resumeExpired l = .ok x') : Rest x x' ∧
    (x'.phase = x.phase ∨ (∃ last, x.phase = .ready last) ∧ x'.phase = .defer) := by
  unfold resumeExpired at hx
  obtain ⟨y, hy, hx⟩ := except_bind_ok hx
  have hph : y.phase = x.phase := (lthreadCancelEvent_frame hy).2.1
  obtain ⟨hrest, hcases⟩ := lthreadResume_rest hx
  refine ⟨(lthreadCancelEvent_rest hy).trans ((Rest.onSched (by simp)).trans hrest), ?_⟩
  rw [← hph]
  rcases hcases with ⟨-, hp⟩ | ⟨-, hp⟩
  · exact Or.inl hp
  · exact hp

/-! The calls -/

/-- No call changes where `lthread_run` stands, or what the defer queue and the eventfd hold. -/
theorem call_frame {op : Op} (hx : x.call l op = .ok x') :
    x'.phase = x.phase ∧ x'.sched.defer = x.sched.defer ∧ x'.eventfd = x.eventfd ∧ x'.dropped = x.dropped := by
  have hedits {b : Bool} {y : World} (h : Edits l op b x y) :
      y.phase = x.phase ∧ y.sched.defer = x.sched.defer ∧ y.eventfd = x.eventfd ∧ y.dropped = x.dropped := by
    refine h.keeps (P := fun x y => y.phase = x.phase ∧ y.sched.defer = x.sched.defer ∧ y.eventfd = x.eventfd ∧
      y.dropped = x.dropped) (fun x => ⟨rfl, rfl, rfl, rfl⟩) (fun h1 h2 => ?_) fun h => ?_
    · exact ⟨h2.1.trans h1.1, h2.2.1.trans h1.2.1, h2.2.2.1.trans h1.2.2.1, h2.2.2.2.trans h1.2.2.2⟩
    · cases h with
      | desched m => exact ⟨rfl, lthreadDeschedSleep_defer _ m, rfl, rfl⟩
      | _ => exact ⟨rfl, rfl, rfl, rfl⟩
  cases call_edits hx with
  | create => exact ⟨rfl, rfl, rfl, rfl⟩
  | writes h => exact hedits h
  | sleeps c h _ =>
    obtain ⟨hp, hd, he, hdrop⟩ := hedits h
    exact ⟨hp, (Rest.suspend (by simp)).defer.trans hd, he, hdrop⟩

theorem call_rest {op : Op} (hx : x.call l op = .ok x') (hio : ∀ e, op ≠ .io e)
    (hcomp : ∀ c, op ≠ .computeBegin c) : Rest x x' := by
  have hedits {b : Bool} {y : World} (h : Edits l op b x y) : Rest x y := by
    refine h.keeps Rest.refl Rest.trans fun h => ?_
    cases h with
    | io _ _ hop => exact absurd hop.choose_spec (hio _)
    | compute _ _ _ hop => exact absurd hop.choose_spec (hcomp _)
    | desched m => exact Rest.onSched (lthreadDeschedSleep_defer _ m)
    | _ => exact ⟨rfl, rfl, rfl, rfl, rfl, rfl, rfl⟩
  cases call_edits hx with
  | create => exact Rest.onSched rfl
  | writes h => exact hedits h
  | sleeps c h _ => exact (hedits h).trans (Rest.suspend (by simp))

/-! The epoll set, and what lthreads leave for their joiners -/

/-- The epoll set and the values given to `lthread_exit` are as before. -/
structure Kept (x x' : World) : Prop where
  poller : x'.poller = x.poller
  mem : x'.mem = x.mem
  exitValue : x'.exitValue = x.exitValue

namespace Kept

theorem refl (x : World) : Kept x x := ⟨rfl, rfl, rfl⟩

theorem trans {a b c : World} (h1 : Kept a b) (h2 : Kept b c) : Kept a c :=
  ⟨h2.poller.trans h1.poller, h2.mem.trans h1.mem, h2.exitValue.trans h1.exitValue⟩

end Kept

theorem afterYield_kept (hx : x.afterYield l = .ok x') : Kept x x' := by
  unfold World.afterYield at hx
  cases hc : (x.sched.lt l).ctx with
  | running | exited => rw [hc] at hx; cases hx
  | joining target t =>
    rw [hc] at hx
    obtain ⟨-, ⟨-, rfl⟩ | ⟨-, rfl⟩⟩ := lthreadJoinEnd_cases hx <;> exact ⟨rfl, rfl, rfl⟩
  | schedEvent fd e t =>
    rw [hc] at hx
    simp only at hx
    split_ifs at hx
    obtain rfl := Except.ok.inj hx
    exact ⟨rfl, rfl, rfl⟩
  | _ =>
    rw [hc] at hx
    obtain rfl := Except.ok.inj hx
    exact ⟨rfl, rfl, rfl⟩

theorem resumed_kept (x : World) (l : LtId) (r : ℤ) : Kept x (x.resumed l r) := by
  obtain ⟨ph, -, heq⟩ := resumed_eq x l r
  rw [heq]
  split_ifs <;> exact ⟨rfl, rfl, rfl⟩

theorem wakeJoiner_kept (hx : x.wakeJoiner l = .ok x') : Kept x x' := by
  rcases wakeJoiner_cases hx with ⟨-, rfl⟩ | ⟨j, -, -, rfl⟩
  · exact Kept.refl _
  · exact ⟨rfl, rfl, rfl⟩

theorem freeDetached_kept (x : World) (l : LtId) : Kept x (x.freeDetached l) := by
  unfold freeDetached
  split_ifs <;> exact ⟨rfl, rfl, rfl⟩

theorem unbusy_kept (x : World) (l : LtId) : Kept x (x.unbusy l) := by
  unfold unbusy
  split_ifs <;> exact ⟨rfl, rfl, rfl⟩

theorem lthreadResume_kept (hx : x.lthreadResume l = .ok x') : Kept x x' := by
  obtain ⟨-, ⟨-, hx⟩ | ⟨-, y, hy, rfl⟩⟩ := lthreadResume_cases hx
  · unfold dropCancelled at hx
    obtain ⟨y, hy, hx⟩ := except_bind_ok hx
    obtain rfl := Except.ok.inj hx
    have h := ((wakeJoiner_kept hy).trans (freeDetached_kept y l)).trans
      ((unbusy_kept _ l).trans (resumed_kept _ l (-1)))
    exact ⟨h.poller, h.mem, h.exitValue⟩
  · have hinit : Kept x (x.initNew l) := by
      unfold initNew
      split_ifs <;> exact ⟨rfl, rfl, rfl⟩
    have h := hinit.trans (afterYield_kept hy)
    exact ⟨h.poller, h.mem, h.exitValue⟩

theorem lthreadResumeEnd_kept (hx : x.lthreadResumeEnd l = .ok x') : Kept x x' := by
  unfold lthreadResumeEnd at hx
  split_ifs at hx
  · obtain ⟨y, hy, hx⟩ := except_bind_ok hx
    obtain rfl := Except.ok.inj hx
    exact ((wakeJoiner_kept hy).trans (freeDetached_kept y l)).trans (resumed_kept _ l (-1))
  · obtain ⟨j, -, hx⟩ := except_bind_ok hx
    obtain rfl := Except.ok.inj hx
    exact ⟨rfl, rfl, rfl⟩
  · obtain rfl := Except.ok.inj hx
    exact resumed_kept x l 0

theorem handleEv_kept {fd : Fd} {e : LtEvent} {eof : Bool} {next : Bool → Except Fault Phase}
    (hx : x.handleEv fd e eof next = .ok x') : Kept x x' := by
  rcases handleEv_cases hx with ⟨ph, -, -, rfl⟩ | ⟨ph, m, s, -, -, -, -, -, -, hx⟩
  · exact ⟨rfl, rfl, rfl⟩
  · have h := lthreadResume_kept hx
    exact ⟨h.poller, h.mem, h.exitValue⟩

theorem lthreadRun_kept (hx : x.lthreadRun = .ok x') :
    Kept x x' ∨ ∃ t m y, x.phase = .expired t ∧ m ∈ x.sched.sleeping ∧ x.resumeExpired m = .ok x' ∧
      x.lthreadCancelEvent m = .ok y ∧ Kept y x' := by
  cases lthreadRun_round hx with
  | @expire t m _ hp hm hd hx =>
    have hx0 := hx
    obtain ⟨y, hy, hx⟩ := except_bind_ok hx
    have h := lthreadResume_kept hx
    exact Or.inr ⟨t, m, y, hp, List.argmin_mem hm, hx0, hy, h.poller, h.mem, h.exitValue⟩
  | pop hp hr hx | deferPop hp hr hx =>
    have h := lthreadResume_kept hx
    exact Or.inl ⟨h.poller, h.mem, h.exitValue⟩
  | read hp hx | write hp hx => exact Or.inl (handleEv_kept hx)
  | _ => exact Or.inl ⟨rfl, rfl, rfl⟩

theorem lthreadCancelEvent_mem (h : x.lthreadCancelEvent l = .ok x') :
    x'.mem = x.mem ∧ x'.exitValue = x.exitValue := by
  obtain ⟨C, p, -, -, rfl⟩ := lthreadCancelEvent_cases h
  exact ⟨rfl, rfl⟩

/-- The calls that register or give up a descriptor write the epoll set, and
`lthread_exit` the rest. -/
theorem call_kept {op : Op} (hx : x.call l op = .ok x') :
    Kept x x' ∨
    ((∃ fd e t, op = .schedEvent fd e t) ∨ (∃ fd, op = .close fd) ∨ ∃ target, op = .cancel target) ∧
      x'.mem = x.mem ∧ x'.exitValue = x.exitValue ∨
    (∃ ptr, op = .exit ptr) ∧ x'.poller = x.poller := by
  have hedits {b : Bool} {y : World} (h : Edits l op b x y) : (op.registers = false → y.poller = x.poller) ∧
      ((∀ ptr, op ≠ .exit ptr) → y.mem = x.mem ∧ y.exitValue = x.exitValue) := by
    refine h.keeps (P := fun x y => (op.registers = false → y.poller = x.poller) ∧
      ((∀ ptr, op ≠ .exit ptr) → y.mem = x.mem ∧ y.exitValue = x.exitValue)) (fun x => ⟨fun _ => rfl, fun _ => ⟨rfl, rfl⟩⟩)
      (fun h1 h2 => ⟨fun h0 => (h2.1 h0).trans (h1.1 h0), fun h0 => ⟨(h2.2 h0).1.trans (h1.2 h0).1,
        (h2.2 h0).2.trans (h1.2 h0).2⟩⟩) fun h => ?_
    cases h with
    | poller p hop => exact ⟨fun h0 => absurd (hop.symm.trans h0) (by simp), fun _ => ⟨rfl, rfl⟩⟩
    | exit values mem hop => exact ⟨fun _ => rfl, fun h0 => absurd hop.choose_spec (h0 _)⟩
    | _ => exact ⟨fun _ => rfl, fun _ => ⟨rfl, rfl⟩⟩
  have hall : (op.registers = false → x'.poller = x.poller) ∧
      ((∀ ptr, op ≠ .exit ptr) → x'.mem = x.mem ∧ x'.exitValue = x.exitValue) := by
    cases call_edits hx with
    | create => exact ⟨fun _ => rfl, fun _ => ⟨rfl, rfl⟩⟩
    | writes h => exact hedits h
    | sleeps c h _ => exact ⟨(hedits h).1, (hedits h).2⟩
  cases op with
  | schedEvent fd e t => exact Or.inr (Or.inl ⟨Or.inl ⟨fd, e, t, rfl⟩, hall.2 nofun⟩)
  | close fd => exact Or.inr (Or.inl ⟨Or.inr (Or.inl ⟨fd, rfl⟩), hall.2 nofun⟩)
  | cancel target => exact Or.inr (Or.inl ⟨Or.inr (Or.inr ⟨target, rfl⟩), hall.2 nofun⟩)
  | exit ptr => exact Or.inr (Or.inr ⟨⟨ptr, rfl⟩, hall.1 rfl⟩)
  | _ => exact Or.inl ⟨hall.1 rfl, (hall.2 nofun).1, (hall.2 nofun).2⟩

theorem step_kept {a : Label} (hx : x.step a = .ok x') :
    Kept x x' ∨
    (x'.mem = x.mem ∧ x'.exitValue = x.exitValue) ∧ ((∃ evs, a = .poll evs) ∨
      (∃ fd e t, a = .call (.schedEvent fd e t)) ∨ (∃ fd, a = .call (.close fd)) ∨
      (∃ target, a = .call (.cancel target)) ∨ a = .sched ∧ x.cpu = .loop ∧ ∃ t, x.phase = .expired t) ∨
    (∃ ptr, a = .call (.exit ptr)) ∧ x'.poller = x.poller := by
  cases step_cases hx with
  | clock | main | run | ioSignal | leave => exact Or.inl ⟨rfl, rfl, rfl⟩
  | @poll evs => exact Or.inr (Or.inl ⟨⟨rfl, rfl⟩, Or.inl ⟨evs, rfl⟩⟩)
  | loop hcpu hx =>
    rcases lthreadRun_kept hx with h | ⟨t, m, y, hp, -, -, hy, hk⟩
    · exact Or.inl h
    · obtain ⟨h1, h2⟩ := lthreadCancelEvent_mem hy
      exact Or.inr (Or.inl ⟨⟨hk.mem.trans h1, hk.exitValue.trans h2⟩,
        Or.inr (Or.inr (Or.inr (Or.inr ⟨rfl, hcpu, t, hp⟩)))⟩)
  | back hcpu hx => exact Or.inl (lthreadResumeEnd_kept hx)
  | @computeSignal m _ hcpu hx =>
    obtain ⟨j, -, hx⟩ := except_bind_ok hx
    obtain rfl := Except.ok.inj hx
    have h := resumed_kept { x with compute := Function.update x.compute j (x.compute j).signal } m 0
    exact Or.inl ⟨h.poller, h.mem, h.exitValue⟩
  | call hcpu hx =>
    rcases call_kept hx with h | ⟨⟨fd, e, t, rfl⟩ | ⟨fd, rfl⟩ | ⟨target, rfl⟩, hm⟩ | ⟨⟨ptr, rfl⟩, hp⟩
    · exact Or.inl h
    · exact Or.inr (Or.inl ⟨hm, Or.inr (Or.inl ⟨fd, e, t, rfl⟩)⟩)
    · exact Or.inr (Or.inl ⟨hm, Or.inr (Or.inr (Or.inl ⟨fd, rfl⟩))⟩)
    · exact Or.inr (Or.inl ⟨hm, Or.inr (Or.inr (Or.inr (Or.inl ⟨target, rfl⟩)))⟩)
    · exact Or.inr (Or.inr ⟨⟨ptr, rfl⟩, hp⟩)
  | io hx =>
    obtain ⟨-, y, -, hcases⟩ := ioAct_cases hx
    rcases hcases with ⟨m, -, -, -, -, -, rfl⟩ | ⟨m, -, -, -, -, rfl⟩ | ⟨-, -, rfl⟩ <;> exact Or.inl ⟨rfl, rfl, rfl⟩
  | compute hx =>
    obtain ⟨-, y, -, hcases⟩ := computeAct_cases hx
    rcases hcases with ⟨m, -, -, -, -, -, rfl⟩ | ⟨m, -, -, -, -, rfl⟩ | ⟨-, -, rfl⟩ | ⟨-, -, -, rfl⟩ <;>
      exact Or.inl ⟨rfl, rfl, rfl⟩

end World
end Lthr
