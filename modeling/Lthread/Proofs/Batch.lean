import Lthread.Proofs.Sections
import Lthread.Proofs.Waits

/-! One batch of poller events. While it is handled, the lthreads it resumes may do what
they like, as long as nobody takes away the waiters of the events that are still to come. -/

namespace Lthr

def Phase.handling : Phase → Bool
  | .events _ | .write _ _ _ _ => true
  | _ => false

theorem Phase.batch_of_quiet {ph : Phase} (h : ph.handling = false) : ph.batch = [] := by
  cases ph with
  | events evs | write fd eof r evs => cases h
  | _ => rfl

namespace World

variable {k : Bool} {x x' : World} {l m : LtId} {fd : Fd} {e : LtEvent} {a : Label}

structure Batch (x : World) : Prop where
  nodup : x.phase.batch.Nodup
  covered : ∀ fd ∈ x.phase.batch, ∃ m e, x.Waits m fd e
  handled : ∀ fd eof r evs, x.phase = .write fd eof r evs → fd ∉ x.phase.batch
  writer : ∀ fd eof evs, x.phase = .write fd eof false evs → x.cpu = .loop ∧ ∃ m, x.Waits m fd .write

theorem Batch.of_quiet (h : x.phase.handling = false) : x.Batch := by
  have hnot {fd : Fd} {eof r : Bool} {evs : List PollEvent} : x.phase ≠ .write fd eof r evs := by
    intro hp
    rw [hp] at h
    cases h
  refine ⟨?_, ?_, fun _ _ _ _ hp => absurd hp hnot, fun _ _ _ hp => absurd hp hnot⟩
  · rw [Phase.batch_of_quiet h]
    exact List.nodup_nil
  · rw [Phase.batch_of_quiet h]
    exact fun _ hfd => absurd hfd List.not_mem_nil

theorem lthreadRun_events (hx : x.lthreadRun = .ok x') :
    x'.phase.handling = false ∨
    (∃ evs, x.phase = .events (.trigger :: evs) ∧ x' = { x with phase := .events evs, eventfd := 0 }) ∨
    (∃ fd eof evs, x.phase = .events (.ready fd eof :: evs) ∧
      x.handleEv fd .read eof (fun ltRead => .ok (.write fd eof ltRead evs)) = .ok x') ∨
    ∃ fd eof r evs, x.phase = .write fd eof r evs ∧ x.handleEv fd .write eof (fun ltWrite =>
      if ltWrite || r then .ok (.events evs) else .error .unhandledEvent) = .ok x' := by
  cases lthreadRun_round hx with
  | trigger hp => exact Or.inr (Or.inl ⟨_, hp, rfl⟩)
  | read hp hx => exact Or.inr (Or.inr (Or.inl ⟨_, _, _, hp, hx⟩))
  | write hp hx => exact Or.inr (Or.inr (Or.inr ⟨_, _, _, _, hp, hx⟩))
  | expire hp hm hd hx =>
    refine Or.inl ?_
    rcases (resumeExpired_rest hx).2 with h | ⟨-, h⟩
    · rw [h, hp]; rfl
    · rw [h]; rfl
  | pop hp hr hx | deferPop hp hr hx =>
    refine Or.inl ?_
    rcases (lthreadResume_rest hx).2 with ⟨-, h⟩ | ⟨-, h | ⟨-, h⟩⟩
    · rw [h]
      change x.phase.handling = false
      rw [hp]; rfl
    · rw [h]
      change x.phase.handling = false
      rw [hp]; rfl
    · rw [h]; rfl
  | _ => exact Or.inl rfl

theorem Inv.others_wait {eof : Bool} {next : Bool → Except Fault Phase} {fd' : Fd} (h : x.Inv k)
    (hs : x.step .sched = .ok x') (hx : x.handleEv fd e eof next = .ok x') (hne : fd' ≠ fd)
    (hw : ∃ m e', x.Waits m fd' e') : ∃ m e', x'.Waits m fd' e' := by
  obtain ⟨m, e', hw⟩ := hw
  refine ⟨m, e', ?_⟩
  rcases h.waits_kept (a := .sched) trivial hs hw with hk | ha | ⟨_, ha, -⟩ | ⟨-, -, hrun⟩
  · exact hk
  · cases ha
  · cases ha
  · -- whom `HANDLE_EV` resumes waits for the descriptor of the event
    rcases h.handleEv_run hx with ⟨-, -, hcpu, hsched⟩ | ⟨i, -, hi, hcpu⟩
    · unfold Waits at hw ⊢
      rwa [hsched]
    · obtain rfl := Cpu.run.inj (hrun.symm.trans hcpu)
      exact absurd (fdKey_inj (hw.2.symm.trans hi.2)).1 hne

theorem Batch.loop (h : x.Batch) (hi : x.Inv k) (hcpu : x.cpu = .loop) (hs : x.step .sched = .ok x') :
    x'.Batch := by
  have hx : x.lthreadRun = .ok x' := step_loop hcpu hs
  rcases lthreadRun_events hx with hq | ⟨evs, hp, rfl⟩ | ⟨fd, eof, evs, hp, hx⟩ | ⟨fd, eof, r, evs, hp, hx⟩
  · exact Batch.of_quiet hq
  · -- the eventfd is nobody's descriptor
    have hb : x.phase.batch = evs.filterMap PollEvent.fd? := by rw [hp]; rfl
    have hn := h.nodup
    have hc := h.covered
    rw [hb] at hn hc
    exact ⟨hn, hc, nofun, nofun⟩
  · have hb : x.phase.batch = fd :: evs.filterMap PollEvent.fd? := by rw [hp]; rfl
    have hn := h.nodup
    rw [hb, List.nodup_cons] at hn
    have hph : x'.phase.batch = evs.filterMap PollEvent.fd? ∧ ∃ r, x'.phase = .write fd eof r evs := by
      rcases hi.handleEv_run hx with ⟨hph, -⟩ | ⟨_, hph, -⟩ <;> rw [← Except.ok.inj hph] <;> exact ⟨rfl, _, rfl⟩
    obtain ⟨hb', r, hp'⟩ := hph
    refine ⟨hb' ▸ hn.2, fun fd' hfd' => ?_, fun fd' eof' r' evs' h0 => ?_, fun fd' eof' evs' h0 => ?_⟩
    · rw [hb'] at hfd'
      refine hi.others_wait hs hx (fun heq => hn.1 (heq ▸ hfd')) (h.covered fd' ?_)
      rw [hb]
      exact List.mem_cons_of_mem _ hfd'
    · rw [hp'] at h0
      cases h0
      rw [hb']
      exact hn.1
    · rcases hi.handleEv_run hx with ⟨hph, hnone, hcpu', hsched⟩ | ⟨_, hph, -⟩
      · rw [← Except.ok.inj hph] at h0
        cases h0
        obtain ⟨m, e, hw⟩ := h.covered fd (by rw [hb]; exact List.mem_cons_self)
        cases e with
        | read => exact absurd hw (hnone m)
        | write =>
          refine ⟨hcpu'.trans hcpu, m, ?_⟩
          unfold Waits at hw ⊢
          rwa [hsched]
      · rw [← Except.ok.inj hph] at h0
        cases h0
  · have hb : x.phase.batch = evs.filterMap PollEvent.fd? := by rw [hp]; rfl
    have hp' : x'.phase = .events evs := by
      rcases hi.handleEv_run hx with ⟨hph, -⟩ | ⟨_, hph, -⟩
      all_goals
        split_ifs at hph
        exact (Except.ok.inj hph).symm
    have hb' : x'.phase.batch = evs.filterMap PollEvent.fd? := by rw [hp']; rfl
    refine ⟨hb' ▸ hb ▸ h.nodup, fun fd' hfd' => ?_, fun _ _ _ _ h0 => ?_, fun _ _ _ h0 => ?_⟩
    · rw [hb', ← hb] at hfd'
      exact hi.others_wait hs hx (fun heq => h.handled fd eof r evs hp (heq ▸ hfd')) (h.covered fd' hfd')
    · rw [hp'] at h0; cases h0
    · rw [hp'] at h0; cases h0

/-- In its loop the scheduler is left there by all other steps, and no lthread makes a call. -/
theorem loop_stays (hcpu : x.cpu = .loop) (ha : a ≠ .sched) (hx : x.step a = .ok x') :
    x'.cpu = .loop ∧ ∀ op, a ≠ .call op := by
  cases step_cases hx with
  | clock | main | run | poll => exact ⟨hcpu, by simp⟩
  | loop | ioSignal | leave | back | computeSignal => exact absurd rfl ha
  | call h => exact absurd (hcpu.symm.trans h) nofun
  | @io w b _ => exact ⟨(worker_cpu hx (Or.inl ⟨w, b, rfl⟩)).trans hcpu, by simp⟩
  | @compute j b _ => exact ⟨(worker_cpu hx (Or.inr ⟨j, b, rfl⟩)).trans hcpu, by simp⟩

/-- While the loop of the scheduler does not run, the batch keeps its waiters. -/
theorem Batch.outside (h : x.Batch) (hi : x.Inv true) (hok : x.keepsBatch a) (hx : x.step a = .ok x')
    (hloop : ¬ (a = .sched ∧ x.cpu = .loop)) (hp : x'.phase = x.phase) : x'.Batch := by
  have hkeep {fd : Fd} {m : LtId} {e : LtEvent} (hfd : fd ∈ x.phase.batch) (hw : x.Waits m fd e) :
      x'.Waits m fd e := by
    have hclose : fd ∉ a.closes := fun hc => hok.2.2.1 fd hc hfd
    have hcancel : ∀ m ∈ a.cancels, 0 ≤ (x.sched.lt m).fdWait → fdOnly (x.sched.lt m).fdWait ≠ fd :=
      fun m hm h0 heq => hok.2.2.2 m hm h0 (heq ▸ hfd)
    exact (hi.waits_spared hok.1 hx hclose hcancel hw).resolve_right fun hl => hloop ⟨hl.1, hl.2.1⟩
  refine ⟨hp ▸ h.nodup, fun fd hfd => ?_, fun fd eof r evs h0 => ?_, fun fd eof evs h0 => ?_⟩
  · rw [hp] at hfd
    obtain ⟨m, e, hw⟩ := h.covered fd hfd
    exact ⟨m, e, hkeep hfd hw⟩
  · rw [hp] at h0 ⊢
    exact h.handled fd eof r evs h0
  · rw [hp] at h0
    obtain ⟨hcpu, m, hw⟩ := h.writer fd eof evs h0
    obtain ⟨hcpu', hcall⟩ := loop_stays hcpu (fun ha => hloop ⟨ha, hcpu⟩) hx
    refine ⟨hcpu', m, ?_⟩
    rcases hi.waits_kept hok.1 hx hw with hk | ha | ⟨target, ha, -⟩ | ⟨ha, -, -⟩
    · exact hk
    · exact absurd ha (hcall _)
    · exact absurd ha (hcall _)
    · exact absurd ⟨ha, hcpu⟩ hloop

theorem Batch.polled {evs : List PollEvent} (hok : x.keepsBatch (.poll evs)) (hx : x.step (.poll evs) = .ok x')
    (hi : x.Inv k) : x'.Batch := by
  obtain ⟨-, ⟨-, hnodup, -⟩, rfl⟩ := step_poll hx
  have hmem {fd : Fd} (hfd : fd ∈ evs.reverse.filterMap PollEvent.fd?) : fd ∈ evs.filterMap PollEvent.fd? := by
    rwa [List.filterMap_reverse, List.mem_reverse] at hfd
  refine ⟨?_, fun fd hfd => ?_, nofun, nofun⟩
  · change (evs.reverse.filterMap PollEvent.fd?).Nodup
    have heq : evs.filterMap PollEvent.fd? = (evs.map PollEvent.fd?).filterMap id := by
      rw [List.filterMap_map]
      rfl
    rw [List.filterMap_reverse, List.nodup_reverse, heq]
    refine hnodup.filterMap fun a b c ha hb => ?_
    exact (Option.mem_def.mp ha).trans (Option.mem_def.mp hb).symm
  · obtain ⟨m, hm, hkey⟩ := hok.2.1 fd (hmem hfd)
    obtain ⟨fd', e, hw⟩ := hi.waits_of_mem hm
    rw [hw.2, fdOnly_fdKey] at hkey
    exact ⟨m, e, hkey ▸ hw⟩

theorem Batch.step (h : x.Batch) (hi : x.Inv true) (hok : x.keepsBatch a) (hx : x.step a = .ok x') : x'.Batch := by
  by_cases hloop : a = .sched ∧ x.cpu = .loop
  · obtain ⟨rfl, hcpu⟩ := hloop
    exact h.loop hi hcpu hx
  rcases step_phase hx with hp | ⟨-, hp⟩ | rfl | ⟨evs, rfl⟩ | ⟨ha, hcpu, -⟩
  · exact h.outside hi hok hx hloop hp
  · exact Batch.of_quiet (by rw [hp]; rfl)
  · cases step_cases hx with
    | run => exact Batch.of_quiet rfl
  · exact Batch.polled hok hx hi
  · exact absurd ⟨ha, hcpu⟩ hloop

theorem Batch.reachable (h : worldMachine.Reachable keepsBatch x) : x.Batch := by
  refine Machine.Reachable.invariant_of (P := Batch) (fun y hy => ?_) (fun y a y' hy hP hok hs => ?_) h
  · obtain ⟨birth, capacity, n, rfl⟩ := hy
    exact Batch.of_quiet rfl
  · exact hP.step (Inv.reachable (hy.mono fun _ _ h => h.1)) hok hs

/-- `assert(lt_write != NULL || lt_read != NULL)` holds at the end of every event, and an
event resumes nobody but an lthread that waits for its descriptor. -/
theorem batch_is_handled (h : worldMachine.Reachable keepsBatch x) (hcpu : x.cpu = .loop) :
    (∀ fd eof ltRead evs, x.phase = .write fd eof ltRead evs →
      ltRead = true ∨ (x.sched.lthreadDeschedEvent fd .write).2 ≠ none) ∧
    ∀ fd eof evs x' m, (x.phase = .events (.ready fd eof :: evs) ∨ ∃ r, x.phase = .write fd eof r evs) →
      x.step .sched = .ok x' → x'.cpu = .run m →
        m ∈ x.sched.waiting ∧ ∃ e, (x.sched.lt m).fdWait = fdKey fd e := by
  have hi : x.Inv true := Inv.reachable (h.mono fun _ _ h => h.1)
  constructor
  · intro fd eof ltRead evs hp
    cases ltRead with
    | true => exact Or.inl rfl
    | false =>
      obtain ⟨-, m, hm, hkey⟩ := (Batch.reachable h).writer fd eof evs hp
      rcases Sched.lthreadDeschedEvent_cases x.sched fd .write with ⟨-, hnone⟩ | ⟨i, s, hd, -⟩
      · exact absurd hkey (hnone m hm)
      · rw [hd]
        exact Or.inr (by simp)
  · intro fd eof evs x' m hp hs hrun
    have hx : x.lthreadRun = .ok x' := step_loop hcpu hs
    have hev : ∃ e next, x.handleEv fd e eof next = .ok x' := by
      unfold lthreadRun at hx
      rcases hp with hp | ⟨r, hp⟩
      · simp only [hp] at hx
        exact ⟨.read, _, hx⟩
      · simp only [hp] at hx
        exact ⟨.write, _, hx⟩
    obtain ⟨e, next, hx⟩ := hev
    rcases hi.handleEv_run hx with ⟨-, -, hcpu', -⟩ | ⟨i, -, hi, hcpu'⟩
    · rw [hcpu', hcpu] at hrun; cases hrun
    · obtain rfl := Cpu.run.inj (hrun.symm.trans hcpu')
      exact ⟨hi.1, e, hi.2⟩

set_option maxRecDepth 20000 in
/-- Two lthreads wait for two descriptors and both become ready. The first one that is
resumed closes the descriptor of the other. -/
theorem closed_event_unhandled : ∃ x, worldMachine.Reachable undisturbed x ∧ x.cpu = .loop ∧
    x.phase = .write 5 false false [] ∧ x.step .sched = .error .unhandledEvent := by
  obtain ⟨x, hx, hsee⟩ := exists_after undisturbed
    [.main, .main, .run, .sched, .sched, .sched, .call (.schedEvent 5 .read 20), .sched, .sched,
      .call (.schedEvent 6 .read 30), .sched, .sched, .sched, .poll [.ready 5 false, .ready 6 false], .sched,
      .call (.close 5), .call .finish, .sched, .sched, .sched]
    (fun x => (decide (x.cpu = .loop ∧ x.phase = .write 5 false false []), errorOf (x.step .sched)))
    (t := (true, some .unhandledEvent)) (by decide)
  obtain ⟨hp, hs⟩ := Prod.mk.inj hsee
  obtain ⟨hcpu, hp⟩ := of_decide_eq_true hp
  exact ⟨x, hx, hcpu, hp, eq_error_of hs⟩

set_option maxRecDepth 20000 in
/-- The second event of a batch, when the lthread that the first one has resumed closes
its own descriptor. -/
theorem batch_is_handled_second : ∃ x, worldMachine.Reachable keepsBatch x ∧ x.cpu = .loop ∧
    x.phase = .write 5 false false [] ∧ (x.sched.lthreadDeschedEvent 5 .write).2 ≠ none := by
  obtain ⟨x, hx, hsee⟩ := exists_after keepsBatch
    [.main, .main, .run, .sched, .sched, .sched, .call (.schedEvent 5 .write 20), .sched, .sched,
      .call (.schedEvent 6 .read 30), .sched, .sched, .sched, .poll [.ready 5 false, .ready 6 false], .sched,
      .call (.close 6), .call .finish, .sched, .sched, .sched]
    (fun x => decide (x.cpu = .loop ∧ x.phase = .write 5 false false [])) (t := true) (by decide)
  obtain ⟨hcpu, hp⟩ := of_decide_eq_true hsee
  have hor := (batch_is_handled hx hcpu).1 5 false false [] hp
  exact ⟨x, hx, hcpu, hp, hor.resolve_left (by simp)⟩

end World
end Lthr
