import Lthread.Proofs.WorldFrame

/-! The invariant along whole runs. -/

namespace Lthr

open Sched Seat

namespace World

variable {k : Bool} {x x' : World} {l : LtId}

/-! The loop of the scheduler -/

/-- `lthread_run` touches nothing of the workers but the eventfd and the defer queue,
and it goes to the poller with the defer queue empty. -/
structure LoopRest (x x' : World) : Prop where
  io : x'.io = x.io
  ioWorkers : x'.ioWorkers = x.ioWorkers
  compute : x'.compute = x.compute
  computeScheds : x'.computeScheds = x.computeScheds
  computeCount : x'.computeCount = x.computeCount
  poll : x'.phase = .poll → x.sched.defer = [] ∧ x'.sched.defer = x.sched.defer
  polling : x'.phase = .polling → x.phase = .poll ∧ Rest x x'
  done : x'.phase = .done → x.sched.lthreadSchedIsdone = true ∧ x'.sched = x.sched ∧ x'.cpu = x.cpu

theorem LoopRest.of_rest {y : World} (hy : y.io = x.io ∧ y.ioWorkers = x.ioWorkers ∧ y.compute = x.compute ∧
      y.computeScheds = x.computeScheds ∧ y.computeCount = x.computeCount) (hr : Rest y x')
    (h1 : x'.phase ≠ .poll) (h2 : x'.phase ≠ .polling) (h3 : x'.phase ≠ .done) : LoopRest x x' :=
  ⟨hr.io.trans hy.1, hr.ioWorkers.trans hy.2.1, hr.compute.trans hy.2.2.1,
    hr.computeScheds.trans hy.2.2.2.1, hr.computeCount.trans hy.2.2.2.2, fun h => absurd h h1,
    fun h => absurd h h2, fun h => absurd h h3⟩

theorem LoopRest.of_phase {ph : Phase} (h1 : ph ≠ .poll) (h2 : ph ≠ .polling) (h3 : ph ≠ .done) :
    LoopRest x { x with phase := ph } :=
  ⟨rfl, rfl, rfl, rfl, rfl, fun h => absurd h h1, fun h => absurd h h2, fun h => absurd h h3⟩

theorem lthreadRun_rest (hx : x.lthreadRun = .ok x') : LoopRest x x' := by
  have hphase {y : World} (hr : Rest y x') (hp : x'.phase = y.phase ∨ (∃ last, y.phase = .ready last) ∧ x'.phase = .defer)
      (h1 : y.phase ≠ .poll) (h2 : y.phase ≠ .polling) (h3 : y.phase ≠ .done)
      (hy : y.io = x.io ∧ y.ioWorkers = x.ioWorkers ∧ y.compute = x.compute ∧
        y.computeScheds = x.computeScheds ∧ y.computeCount = x.computeCount) : LoopRest x x' := by
    rcases hp with hp | ⟨-, hp⟩
    · exact LoopRest.of_rest hy hr (hp ▸ h1) (hp ▸ h2) (hp ▸ h3)
    · exact LoopRest.of_rest hy hr (by simp [hp]) (by simp [hp]) (by simp [hp])
  have hresume {y : World} {m : LtId} (hy : y.lthreadResume m = .ok x') :
      x'.phase = y.phase ∨ (∃ last, y.phase = .ready last) ∧ x'.phase = .defer := by
    rcases (lthreadResume_rest hy).2 with ⟨-, h⟩ | ⟨-, h⟩
    · exact Or.inl h
    · exact h
  cases lthreadRun_round hx with
  | done hp hd => exact ⟨rfl, rfl, rfl, rfl, rfl, nofun, nofun, fun _ => ⟨hd, rfl, rfl⟩⟩
  | start hp | expired hp hm | popped hp hr | again hp => exact LoopRest.of_phase nofun nofun nofun
  | deferPopped hp hr => exact ⟨rfl, rfl, rfl, rfl, rfl, fun _ => ⟨hr, rfl⟩, nofun, nofun⟩
  | poll hp =>
    exact ⟨rfl, rfl, rfl, rfl, rfl, nofun, fun _ => ⟨hp, ⟨rfl, rfl, rfl, rfl, rfl, rfl, rfl⟩⟩, nofun⟩
  | trigger hp => exact ⟨rfl, rfl, rfl, rfl, rfl, nofun, nofun, nofun⟩
  | expire hp hm hd hx =>
    obtain ⟨hr, hph⟩ := resumeExpired_rest hx
    exact hphase hr hph (by simp [hp]) (by simp [hp]) (by simp [hp]) ⟨rfl, rfl, rfl, rfl, rfl⟩
  | pop hp hr hx =>
    refine hphase (lthreadResume_rest hx).1 (hresume hx) ?_ ?_ ?_ ⟨rfl, rfl, rfl, rfl, rfl⟩ <;>
      simp [World.onSched, hp]
  | deferPop hp hr hx =>
    refine hphase (lthreadResume_rest hx).1 (hresume hx) ?_ ?_ ?_ ⟨rfl, rfl, rfl, rfl, rfl⟩ <;>
      simp [World.onSched, hp]
  | read hp hx =>
    obtain ⟨hr, b, hb⟩ := handleEv_rest (fun b ph hph last => by rw [← Except.ok.inj hph]; simp) hx
    have hph := (Except.ok.inj hb).symm
    exact LoopRest.of_rest ⟨rfl, rfl, rfl, rfl, rfl⟩ hr (by simp [hph]) (by simp [hph]) (by simp [hph])
  | write hp hx =>
    obtain ⟨hr, b, hb⟩ := handleEv_rest (fun b ph hph last => by
      split_ifs at hph
      rw [← Except.ok.inj hph]; simp) hx
    split_ifs at hb
    have hph := (Except.ok.inj hb).symm
    exact LoopRest.of_rest ⟨rfl, rfl, rfl, rfl, rfl⟩ hr (by simp [hph]) (by simp [hph]) (by simp [hph])

/-! The compute schedulers -/

namespace Computes

theorem congr (h : x.Computes) (h1 : x'.compute = x.compute) (h2 : x'.computeScheds = x.computeScheds)
    (h3 : x'.computeCount = x.computeCount) : x'.Computes := by
  refine ⟨?_, ?_, ?_, ?_⟩
  · rw [h1, h3]; exact h.unused
  · rw [h1, h2, h3]; exact h.listed
  · rw [h2]; exact h.nodup
  · rw [h1]; exact h.idle

theorem rest (h : x.Computes) (hr : Rest x x') : x'.Computes :=
  h.congr hr.compute hr.computeScheds hr.computeCount

theorem update (h : x.Computes) {j : ℕ} {y : ComputeSched} (hj : j < x.computeCount)
    (hcomp : x'.compute = Function.update x.compute j y)
    (hscheds : x'.computeScheds = x.computeScheds) (hcount : x'.computeCount = x.computeCount)
    (hpc : y.pc = .exited ↔ (x.compute j).pc = .exited) (hy : y.pc = .exited → y.lthreads = []) :
    x'.Computes := by
  refine ⟨fun i hi => ?_, fun i => ?_, ?_, fun i hi => ?_⟩
  · rw [hcount] at hi
    rw [hcomp, Function.update_of_ne (lt_of_lt_of_le hj hi).ne']
    exact h.unused i hi
  · rw [hscheds, hcount, hcomp, h.listed]
    by_cases hij : i = j
    · subst hij; rw [Function.update_self, ne_eq, ne_eq, hpc]
    · rw [Function.update_of_ne hij]
  · rw [hscheds]; exact h.nodup
  · rw [hcomp] at hi ⊢
    by_cases hij : i = j
    · subst hij; rw [Function.update_self] at hi ⊢; exact hy hi
    · rw [Function.update_of_ne hij] at hi ⊢; exact h.idle i hi

theorem enqueue (h : x.Computes) {j : ℕ} (hj : j ∈ x.computeScheds) : (x.computeEnqueue l j).Computes := by
  obtain ⟨hlt, hpc⟩ := (h.listed j).mp hj
  refine h.update (y := { x.compute j with lthreads := (x.compute j).lthreads ++ [l] }) hlt rfl rfl rfl
    Iff.rfl fun hy => ?_
  exact absurd hy hpc

theorem create (h : x.Computes) : ({ x with
    compute := Function.update x.compute x.computeCount ComputeSched.init
    computeScheds := x.computeCount :: x.computeScheds
    computeCount := x.computeCount + 1 } : World).Computes := by
  have hself : Function.update x.compute x.computeCount ComputeSched.init = x.compute := by
    rw [← h.unused x.computeCount le_rfl, Function.update_eq_self]
  rw [hself]
  refine ⟨fun i hi => h.unused i (Nat.le_of_succ_le hi), fun i => ?_, ?_, h.idle⟩
  · change i ∈ x.computeCount :: x.computeScheds ↔ i < x.computeCount + 1 ∧ _
    rw [List.mem_cons, h.listed]
    constructor
    · rintro (rfl | ⟨hi, hpc⟩)
      · exact ⟨Nat.lt_succ_self _, by rw [h.unused _ le_rfl]; simp [ComputeSched.init]⟩
      · exact ⟨Nat.lt_succ_of_lt hi, hpc⟩
    · rintro ⟨hi, hpc⟩
      rcases Nat.lt_succ_iff_lt_or_eq.mp hi with hlt | heq
      · exact Or.inr ⟨hlt, hpc⟩
      · exact Or.inl heq
  · refine List.nodup_cons.mpr ⟨fun hmem => ?_, h.nodup⟩
    exact (lt_irrefl _ ((h.listed _).mp hmem).1)

theorem leave (h : x.Computes) {j : ℕ} {y : ComputeSched} (hj : j < x.computeCount) (hpc : y.pc = .exited)
    (hq : y.lthreads = []) : ({ x with
      compute := Function.update x.compute j y, computeScheds := x.computeScheds.erase j } : World).Computes := by
  refine ⟨fun i hi => ?_, fun i => ?_, h.nodup.erase j, fun i hi => ?_⟩
  · change Function.update x.compute j y i = _
    rw [Function.update_of_ne (lt_of_lt_of_le hj hi).ne']
    exact h.unused i hi
  · change i ∈ x.computeScheds.erase j ↔ i < x.computeCount ∧ (Function.update x.compute j y i).pc ≠ .exited
    rw [h.nodup.mem_erase_iff, h.listed]
    by_cases hij : i = j
    · subst hij; simp [hpc]
    · simp [hij]
  · change (Function.update x.compute j y i).pc = .exited at hi
    change (Function.update x.compute j y i).lthreads = []
    by_cases hij : i = j
    · subst hij; rw [Function.update_self]; exact hq
    · rw [Function.update_of_ne hij] at hi ⊢; exact h.idle i hi

theorem call (h : x.Computes) {op : Op} (hx : x.call l op = .ok x') : x'.Computes := by
  by_cases hio : ∃ e, op = .io e
  · obtain ⟨e, rfl⟩ := hio
    obtain rfl := Except.ok.inj hx
    exact h.congr rfl rfl rfl
  by_cases hcomp : ∃ c, op = .computeBegin c
  · obtain ⟨c, rfl⟩ := hcomp
    obtain rfl := Except.ok.inj hx
    rcases lthreadComputeBegin_cases x l c with heq | ⟨j, hj, heq⟩ | heq
    · rw [heq]; exact h.congr rfl rfl rfl
    · rw [heq]; exact h.enqueue hj
    · rw [heq]
      exact h.create.enqueue List.mem_cons_self
  · exact h.rest (call_rest hx (fun e he => hio ⟨e, he⟩) fun c hc => hcomp ⟨c, hc⟩)

theorem computeAct (h : x.Computes) {j : ℕ} {a : ComputeAct} (hx : x.computeAct j a = .ok x') : x'.Computes := by
  obtain ⟨hj, y, hy, hcases⟩ := computeAct_cases hx
  have hlive := ComputeSched.act_live hy
  have hiff (hne : y.pc ≠ .exited) : y.pc = .exited ↔ (x.compute j).pc = .exited :=
    ⟨fun h0 => absurd h0 hne, fun h0 => absurd h0 hlive⟩
  have hupd {z : World} (hcomp : z.compute = Function.update x.compute j y)
      (hscheds : z.computeScheds = x.computeScheds) (hcount : z.computeCount = x.computeCount)
      (hne : y.pc ≠ .exited) : z.Computes :=
    h.update hj hcomp hscheds hcount (hiff hne) fun h0 => absurd h0 hne
  have hleave (h0 : y.pc = .exited) : a = .leave := (ComputeSched.act_exited hy h0).1
  rcases hcases with ⟨l, rfl, -, -, -, -, rfl⟩ | ⟨l, rfl, -, -, -, rfl⟩ | ⟨rfl, hpc, rfl⟩ | ⟨-, -, hne, rfl⟩
  · exact hupd rfl rfl rfl fun h0 => by cases hleave h0
  · exact hupd rfl rfl rfl fun h0 => by cases hleave h0
  · refine h.leave hj hpc ?_
    rcases ComputeSched.act_cases hy with ⟨hq, -⟩ | ⟨l, rest, ha, -⟩ | ⟨l, ha, -⟩
    · rw [hq]; exact (ComputeSched.act_exited hy hpc).2.2
    · cases ha
    · cases ha
  · exact hupd rfl rfl rfl hne

theorem computeSignal (h : x.Computes) (hx : x.computeSignal l = .ok x') : x'.Computes := by
  obtain ⟨j, hj, hx⟩ := except_bind_ok hx
  obtain rfl := Except.ok.inj hx
  have hpc := (computeSchedOf_ok hj).2
  have hne : (x.compute j).signal.pc ≠ .exited := by
    unfold ComputeSched.signal
    simp only
    split_ifs
    · simp
    · exact hpc
  refine Computes.rest ?_ (resumed_rest _ l 0)
  by_cases hlt : j < x.computeCount
  · exact h.update hlt rfl rfl rfl ⟨fun h0 => absurd h0 hne, fun h0 => absurd h0 hpc⟩
      fun h0 => absurd h0 hne
  · -- a compute scheduler that was never created has no thread to signal
    have hself : Function.update x.compute j (x.compute j).signal = x.compute := by
      have hinit := h.unused j (not_lt.mp hlt)
      have hsig : (x.compute j).signal = x.compute j := by rw [hinit]; rfl
      rw [hsig, Function.update_eq_self]
    exact h.congr hself rfl rfl

theorem advance (h : x.Computes) {a : Label} (hx : Advances x a x') : x'.Computes := by
  cases hx with
  | clock | main | run | poll | ioSignal | leave => exact h.congr rfl rfl rfl
  | loop hcpu hx =>
    have hr := lthreadRun_rest hx
    exact h.congr hr.compute hr.computeScheds hr.computeCount
  | back hcpu hx => exact h.rest (lthreadResumeEnd_rest hx).1
  | computeSignal hcpu hx => exact h.computeSignal hx
  | call hcpu hx => exact h.call hx
  | io hx =>
    obtain ⟨-, y, -, hcases⟩ := ioAct_cases hx
    rcases hcases with ⟨l, -, -, -, -, -, rfl⟩ | ⟨l, -, -, -, -, rfl⟩ | ⟨-, -, rfl⟩ <;>
      exact h.congr rfl rfl rfl
  | compute hx => exact h.computeAct hx

end Computes

/-! Runs -/

theorem start_seat (birth : ℕ) (capacity : ChanId → ℕ) (n : ℕ) (l : LtId) :
    (start birth capacity n).seat l =
      ⟨{ Sched.newLt with state := fun b => decide (b = .exited), ctx := .exited }, {}⟩ := by
  simp only [World.seat, seatOf, start, World.sched, List.count_nil, IoWorker.init, IoWorker.jobs,
    ComputeSched.init, ComputePc.owned]
  rfl

theorem start_inv (birth : ℕ) (capacity : ChanId → ℕ) (n : ℕ) : (start birth capacity n).Inv k := by
  have hseat := start_seat birth capacity n
  refine ⟨⟨fun l => ?_, ⟨fun l j h => ?_, fun a b h => ?_, fun l _ => ?_, fun l h => ?_, fun j l t h => ?_⟩,
    fun l => ?_, fun l h => ?_, (fun l h => by cases h), fun l h => ?_⟩,
    ⟨fun _ _ => rfl, fun j => ?_, List.nodup_nil, (fun j h => by cases h)⟩⟩
  all_goals try rw [board_seat, hseat] at h
  · rw [board_seat, hseat]
    refine ⟨Row.exited, ?_, ?_, ?_, Or.inl rfl, ?_, fun e he => ?_, fun e => ?_, ?_, ?_, ?_, ?_, ?_⟩
    · simp
    · simp
    · simp
    · simp
    · cases e <;> simp [waitBit] at he
    · cases e <;> simp [waitIoBit]
    all_goals simp [Ctx.cond]
  · cases h
  · exact absurd rfl h
  · rw [board_seat, hseat]; exact ⟨rfl, rfl⟩
  · cases h
  · cases h
  · rw [board_seat, hseat]
    simp [World.board, start]
  · cases h
  · cases h
  · simp [start]

theorem made_cancel {a : Label} (hok : stepOk k x a) : (made x a).Cancel k := by
  intro b target hr
  obtain ⟨l, op, rfl, hcpu, hop⟩ := made_call hr (by simp)
  cases op with
  | cancel m => exact (hok l hcpu).1
  | _ => cases hop

theorem Inv.advance {a : Label} (h : x.Inv k) (hok : stepOk k x a) (hx : Advances x a x') : x'.Inv k :=
  ⟨Turns.seated (made_cancel hok) (advance_turns h hok hx) h.seated, h.computes.advance hx⟩

theorem Inv.step {a : Label} (h : x.Inv k) (hok : stepOk k x a) (hx : x.step a = .ok x') : x'.Inv k :=
  h.advance hok (step_cases hx)

theorem Inv.reachable (h : worldMachine.Reachable (stepOk k) x) : x.Inv k := by
  refine Machine.Reachable.invariant (P := World.Inv k) (fun y hy => ?_) (fun y a y' hy hok hs => hy.step hok hs) h
  obtain ⟨birth, capacity, n, rfl⟩ := hy
  exact start_inv birth capacity n

/-- `Fault.relinked` keeps the runs to those in which the ready queue stays one. -/
theorem ready_nodup {ok : World → Label → Prop} (h : worldMachine.Reachable ok x) : x.sched.ready.Nodup := by
  refine Machine.Reachable.invariant (P := fun y => y.sched.ready.Nodup) (fun y hy => ?_)
    (fun y a y' _ _ hs => (step_ok.mp hs).2) h
  obtain ⟨birth, capacity, n, rfl⟩ := hy
  exact List.nodup_nil

theorem board_invariant {ok : World → Label → Prop} {P : Board → Prop} (hok : ∀ x a, ok x a → stepOk k x a)
    (hstart : ∀ birth capacity n, P (start birth capacity n).board)
    (hturn : ∀ x a b b', ok x a → Turn (made x a) b b' → b.Seated k → b'.Seated k → P b → P b')
    (h : worldMachine.Reachable ok x) : P x.board := by
  refine Machine.Reachable.invariant_of (P := fun x => P x.board) (fun y hy => ?_) ?_ h
  · obtain ⟨birth, capacity, n, rfl⟩ := hy
    exact hstart birth capacity n
  · intro y a y' hy hP ha hs
    have hinv : y.Inv k := Inv.reachable (hy.mono hok)
    exact Turns.preserves (made_cancel (hok y a ha)) (fun b b' => hturn y a b b' ha)
      (step_turns hinv (hok y a ha) hs) hinv.seated hP

end World
end Lthr
