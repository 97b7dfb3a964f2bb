import Lthread.Proofs.WorldLoop
import Lthread.Spec.Runs

/-! Every step of the program is a sequence of turns on the board, if the calls in it
are those that the board has turns for. -/

namespace Lthr

open Sched Seat

/-! The workers -/

theorem IoWorker.act_jobs {y y' : IoWorker} {a : WorkerAct} (h : y.act a = some y') :
    (a ≠ .finish ∧ y'.jobs = y.jobs) ∨
      ∃ l, a = .finish ∧ y.pc = .working l ∧ y' = { y with pc := .handed l } := by
  unfold IoWorker.act at h
  cases a with
  | pop =>
    simp only at h
    split_ifs at h with hpc
    obtain rfl := Option.some_inj.mp h
    refine Or.inl ⟨by simp, ?_⟩
    unfold IoWorker.pop
    cases hq : y.lthreads with
    | nil => simp [IoWorker.jobs, hpc, hq]
    | cons l rest => simp [IoWorker.jobs, hpc, hq]
  | finish =>
    cases hpc : y.pc with
    | working l =>
      simp only [hpc] at h
      exact Or.inr ⟨l, rfl, rfl, (Option.some_inj.mp h).symm⟩
    | _ => simp [hpc] at h
  | trigger =>
    cases hpc : y.pc with
    | handed l =>
      simp only [hpc] at h
      obtain rfl := Option.some_inj.mp h
      exact Or.inl ⟨by simp, by simp [IoWorker.jobs, hpc]⟩
    | _ => simp [hpc] at h
  | wait | spurious =>
    simp only at h
    split_ifs at h with hpc
    obtain rfl := Option.some_inj.mp h
    exact Or.inl ⟨by simp, by simp [IoWorker.jobs, hpc]⟩

theorem ComputeSched.pop_cases (y : ComputeSched) (pending : LtId → Bool) :
    y.lthreads = [] ∧ y.pop pending = { y with pc := .emptied } ∨
    (∃ l ∈ y.lthreads, pending l = true) ∧ y.pop pending = y ∨
    ∃ l rest, y.lthreads = l :: rest ∧ pending l = false ∧
      y.pop pending = { y with lthreads := rest, pc := .taken l } := by
  unfold ComputeSched.pop
  split
  · next hq => exact Or.inl ⟨hq, rfl⟩
  · next l rest hq =>
    by_cases hp : pending l = true
    · rw [if_pos hp]
      exact Or.inr (Or.inl ⟨⟨l, by rw [hq]; exact List.mem_cons_self, hp⟩, rfl⟩)
    · rw [if_neg hp]
      exact Or.inr (Or.inr ⟨l, rest, hq, Bool.eq_false_iff.mpr hp, rfl⟩)

/-- A compute thread takes the head of its queue, gives an lthread back, or keeps what
it has. -/
theorem ComputeSched.act_cases {y y' : ComputeSched} {pending : LtId → Bool} {a : ComputeAct}
    (h : y.act pending a = some y') :
    (y'.lthreads = y.lthreads ∧ y'.pc.owned = y.pc.owned) ∨
    (∃ l rest, a = .pop ∧ y.pc = .popping ∧ y.lthreads = l :: rest ∧ pending l = false ∧
      y' = { y with lthreads := rest, pc := .taken l }) ∨
    ∃ l, a = .finish ∧ y.pc = .ended l ∧ y' = { y with pc := .handed l } := by
  unfold ComputeSched.act at h
  cases a with
  | pop =>
    simp only at h
    split_ifs at h with hpc
    obtain rfl := Option.some_inj.mp h
    rcases ComputeSched.pop_cases y pending with ⟨-, heq⟩ | ⟨-, heq⟩ | ⟨l, rest, hq, hp, heq⟩
    · rw [heq]
      exact Or.inl ⟨rfl, by simp [ComputePc.owned, hpc]⟩
    · rw [heq]
      exact Or.inl ⟨rfl, rfl⟩
    · exact Or.inr (Or.inl ⟨l, rest, rfl, hpc, hq, hp, heq⟩)
  | start =>
    cases hpc : y.pc with
    | taken l =>
      simp only [hpc] at h
      obtain rfl := Option.some_inj.mp h
      exact Or.inl ⟨rfl, rfl⟩
    | _ => simp [hpc] at h
  | stop =>
    cases hpc : y.pc with
    | working l =>
      simp only [hpc] at h
      obtain rfl := Option.some_inj.mp h
      exact Or.inl ⟨rfl, rfl⟩
    | _ => simp [hpc] at h
  | finish =>
    cases hpc : y.pc with
    | ended l =>
      simp only [hpc] at h
      exact Or.inr (Or.inr ⟨l, rfl, rfl, (Option.some_inj.mp h).symm⟩)
    | _ => simp [hpc] at h
  | trigger =>
    cases hpc : y.pc with
    | handed l =>
      simp only [hpc] at h
      obtain rfl := Option.some_inj.mp h
      exact Or.inl ⟨rfl, rfl⟩
    | _ => simp [hpc] at h
  | wait | spurious | timeout =>
    simp only at h
    split_ifs at h with hpc
    obtain rfl := Option.some_inj.mp h
    exact Or.inl ⟨rfl, by simp [ComputePc.owned, hpc]⟩
  | leave =>
    simp only at h
    split_ifs at h with hpc hq
    · obtain rfl := Option.some_inj.mp h
      exact Or.inl ⟨rfl, by simp [ComputePc.owned, hpc]⟩
    · obtain rfl := Option.some_inj.mp h
      exact Or.inl ⟨rfl, by simp [ComputePc.owned, hpc]⟩

theorem ComputeSched.act_exited {y y' : ComputeSched} {pending : LtId → Bool} {a : ComputeAct}
    (h : y.act pending a = some y') (he : y'.pc = .exited) :
    a = .leave ∧ y.pc = .timedOut ∧ y.lthreads = [] := by
  unfold ComputeSched.act at h
  cases a with
  | pop =>
    simp only at h
    split_ifs at h with hpc
    rw [← Option.some_inj.mp h] at he
    rcases ComputeSched.pop_cases y pending with ⟨-, heq⟩ | ⟨-, heq⟩ | ⟨l, rest, -, -, heq⟩
    all_goals rw [heq] at he; simp_all
  | start | stop | finish | trigger =>
    simp only at h
    split at h
    · rw [← Option.some_inj.mp h] at he; cases he
    · cases h
  | wait | spurious | timeout =>
    simp only at h
    split_ifs at h
    rw [← Option.some_inj.mp h] at he; cases he
  | leave =>
    simp only at h
    split_ifs at h with hpc hq
    · exact ⟨rfl, hpc, hq⟩
    · rw [← Option.some_inj.mp h] at he; cases he

theorem ComputeSched.act_live {y y' : ComputeSched} {pending : LtId → Bool} {a : ComputeAct}
    (h : y.act pending a = some y') : y.pc ≠ .exited := by
  intro he
  unfold ComputeSched.act at h
  cases a <;> simp [he] at h

namespace World

variable {k : Bool} {R : Rules} {x x' : World} {l : LtId}

theorem reach_ok {u : Unit} (h : x.reach l = .ok u) : (x.sched.lt l).freed = false ∧ x.phase ≠ .done := by
  unfold reach at h
  split_ifs at h with h1 h2
  exact ⟨Bool.eq_false_iff.mpr h1, h2⟩

/-- A step of an io worker: it hands an lthread back, triggers the scheduler, or does
something of its own. -/
theorem ioAct_cases {w : ℕ} {a : WorkerAct} (hx : x.ioAct w a = .ok x') :
    w < x.ioWorkers ∧ ∃ y, (x.io w).act a = some y ∧
      ((∃ l, a = .finish ∧ (x.io w).pc = .working l ∧ y = { x.io w with pc := .handed l } ∧
        (x.sched.lt l).freed = false ∧ x.phase ≠ .done ∧
        x' = { x with io := Function.update x.io w y }.deferInsert l) ∨
       (∃ l, a = .trigger ∧ (x.io w).pc = .handed l ∧ (x.sched.lt l).freed = false ∧ x.phase ≠ .done ∧
        x' = { x with io := Function.update x.io w y }.trigger) ∨
       a ≠ .finish ∧ a ≠ .trigger ∧ x' = { x with io := Function.update x.io w y }) := by
  unfold ioAct at hx
  by_cases hw : x.ioWorkers ≤ w
  · rw [if_pos hw] at hx; cases hx
  rw [if_neg hw] at hx
  refine ⟨not_le.mp hw, ?_⟩
  cases hy : (x.io w).act a with
  | none => rw [hy] at hx; cases hx
  | some y =>
    refine ⟨y, rfl, ?_⟩
    simp only [hy] at hx
    cases a with
    | finish =>
      rcases IoWorker.act_jobs hy with ⟨hne, -⟩ | ⟨l, -, hpc, rfl⟩
      · exact absurd rfl hne
      · simp only [hpc] at hx
        obtain ⟨u, hu, hx⟩ := except_bind_ok hx
        split_ifs at hx
        exact Or.inl ⟨l, rfl, hpc, rfl, (reach_ok hu).1, (reach_ok hu).2, (Except.ok.inj hx).symm⟩
    | trigger =>
      cases hpc : (x.io w).pc with
      | handed l =>
        simp only [hpc] at hx
        obtain ⟨u, hu, hx⟩ := except_bind_ok hx
        exact Or.inr (Or.inl ⟨l, rfl, rfl, (reach_ok hu).1, (reach_ok hu).2, (Except.ok.inj hx).symm⟩)
      | _ => simp [IoWorker.act, hpc] at hy
    | _ =>
      simp only at hx
      exact Or.inr (Or.inr ⟨by simp, by simp, (Except.ok.inj hx).symm⟩)

theorem ioAct_turns {w : ℕ} {a : WorkerAct} (hx : x.ioAct w a = .ok x') : Turns R x.board x'.board := by
  obtain ⟨-, y, hy, hcases⟩ := ioAct_cases hx
  have hsame (ha : a ≠ .finish) :
      seatOf x.sched (Function.update x.io w y) x.compute = seatOf x.sched x.io x.compute := by
    rcases IoWorker.act_jobs hy with ⟨-, hj⟩ | ⟨l, ha', -⟩
    · exact seatOf_io fun m => by rw [hj]
    · exact absurd ha' ha
  rcases hcases with ⟨l, -, hpc, hy', -, -, rfl⟩ | ⟨l, rfl, -, -, -, rfl⟩ | ⟨ha, -, rfl⟩
  · have hjobs : (x.io w).jobs = l :: y.jobs := by
      rw [hy']
      simp [IoWorker.jobs, hpc]
    have hmem : (x.seat l).cnt.io w ≠ 0 := count_ne_zero (q := (x.io w).jobs) (by simp [hjobs])
    have hm₁ : ActsAt (seatOf x.sched x.io x.compute) (seatOf x.sched (Function.update x.io w y) x.compute) l _ :=
      io_acts (l := l) fun m hm => by rw [hjobs, List.count_cons_of_ne (Ne.symm hm)]
    have hm := hm₁.trans (deferInsert_moves x.sched l (Function.update x.io w y) x.compute)
    refine Relation.ReflTransGen.single (Turn.ioDone hmem (hm.congr ?_))
    simp [addDefer, lower, seatOf, hjobs]
  · have hseat := hsame (by simp)
    change Turns R x.board ⟨seatOf x.sched (Function.update x.io w y) x.compute, _, _, _, _⟩
    rw [hseat]
    exact Relation.ReflTransGen.refl
  · change Turns R x.board ⟨seatOf x.sched (Function.update x.io w y) x.compute, _, _, _, _⟩
    rw [hsame ha]
    exact Relation.ReflTransGen.refl

theorem computeAct_cases {j : ℕ} {a : ComputeAct} (hx : x.computeAct j a = .ok x') :
    j < x.computeCount ∧ ∃ y, (x.compute j).act (x.sched.has · .pendingRuncompute) a = some y ∧
      ((∃ l, a = .finish ∧ (x.compute j).pc = .ended l ∧ y = { x.compute j with pc := .handed l } ∧
        (x.sched.lt l).freed = false ∧ x.phase ≠ .done ∧
        x' = ({ x with compute := Function.update x.compute j y }.deferInsert l).onSched
          (·.clearBit l .runcompute)) ∨
       (∃ l, a = .trigger ∧ (x.compute j).pc = .handed l ∧ (x.sched.lt l).freed = false ∧ x.phase ≠ .done ∧
        x' = { x with compute := Function.update x.compute j y }.trigger) ∨
       (a = .leave ∧ y.pc = .exited ∧ x' = { x with
          compute := Function.update x.compute j y, computeScheds := x.computeScheds.erase j }) ∨
       a ≠ .finish ∧ a ≠ .trigger ∧ y.pc ≠ .exited ∧ x' = { x with compute := Function.update x.compute j y }) := by
  unfold computeAct at hx
  by_cases hj : x.computeCount ≤ j
  · rw [if_pos hj] at hx; cases hx
  rw [if_neg hj] at hx
  refine ⟨not_le.mp hj, ?_⟩
  cases hy : (x.compute j).act (x.sched.has · .pendingRuncompute) a with
  | none => rw [hy] at hx; cases hx
  | some y =>
    refine ⟨y, rfl, ?_⟩
    simp only [hy] at hx
    cases a with
    | finish =>
      cases hpc : (x.compute j).pc with
      | ended l =>
        simp only [hpc] at hx
        obtain ⟨u, hu, hx⟩ := except_bind_ok hx
        have hy' : y = { x.compute j with pc := .handed l } := by
          simp only [ComputeSched.act, hpc] at hy
          exact (Option.some_inj.mp hy).symm
        exact Or.inl ⟨l, rfl, rfl, hy', (reach_ok hu).1, (reach_ok hu).2, (Except.ok.inj hx).symm⟩
      | _ => simp [ComputeSched.act, hpc] at hy
    | trigger =>
      cases hpc : (x.compute j).pc with
      | handed l =>
        simp only [hpc] at hx
        obtain ⟨u, hu, hx⟩ := except_bind_ok hx
        exact Or.inr (Or.inl ⟨l, rfl, rfl, (reach_ok hu).1, (reach_ok hu).2, (Except.ok.inj hx).symm⟩)
      | _ => simp [ComputeSched.act, hpc] at hy
    | leave =>
      simp only at hx
      split_ifs at hx with he
      · exact Or.inr (Or.inr (Or.inl ⟨rfl, he, (Except.ok.inj hx).symm⟩))
      · exact Or.inr (Or.inr (Or.inr ⟨by simp, by simp, he, (Except.ok.inj hx).symm⟩))
    | pop | start | stop | wait | spurious | timeout =>
      simp only at hx
      refine Or.inr (Or.inr (Or.inr ⟨by simp, by simp, fun he => ?_, (Except.ok.inj hx).symm⟩))
      cases (ComputeSched.act_exited hy he).1

theorem computeAct_turns {j : ℕ} {a : ComputeAct} (hx : x.computeAct j a = .ok x') :
    Turns R x.board x'.board := by
  obtain ⟨-, y, hy, hcases⟩ := computeAct_cases hx
  -- the seats after the compute thread itself has moved
  have hturn : (a ≠ .finish → Turns R x.board
      ⟨seatOf x.sched x.io (Function.update x.compute j y), x.cpu, x.sched.spawned, x.phase.expiring,
        x.dropped⟩) := by
    intro ha
    rcases ComputeSched.act_cases hy with ⟨hq, ho⟩ | ⟨l, rest, -, hpc, hq, hp, rfl⟩ | ⟨l, ha', -⟩
    · rw [seatOf_compute hq ho]
      exact Relation.ReflTransGen.refl
    · have hmem : (x.seat l).cnt.compute j ≠ 0 := count_ne_zero (q := (x.compute j).lthreads) (by simp [hq])
      have hm : ActsAt (seatOf x.sched x.io x.compute)
          (seatOf x.sched x.io (Function.update x.compute j { x.compute j with lthreads := rest, pc := .taken l })) l _ :=
        compute_acts (l := l) (fun m hm => by rw [hq, List.count_cons_of_ne (Ne.symm hm)])
          fun m hm => by simp [ComputePc.owned, hpc, Ne.symm hm]
      refine Relation.ReflTransGen.single (Turn.taken hmem hp (hm.congr ?_))
      simp [lower, bump, seatOf, hq, hpc, ComputePc.owned]
    · exact absurd ha' ha
  rcases hcases with ⟨l, -, hpc, rfl, -, -, rfl⟩ | ⟨l, rfl, -, -, -, rfl⟩ | ⟨rfl, -, rfl⟩ | ⟨ha, -, -, rfl⟩
  · have hmem : (x.seat l).cnt.taken j ≠ 0 :=
      count_ne_zero (q := (x.compute j).pc.owned) (by simp [ComputePc.owned, hpc])
    have hm₁ : ActsAt (seatOf x.sched x.io x.compute)
        (seatOf x.sched x.io (Function.update x.compute j { x.compute j with pc := .handed l })) l _ :=
      compute_acts (l := l) (fun m _ => rfl) fun m hm => by simp [ComputePc.owned, hpc, Ne.symm hm]
    have hm := hm₁.trans (((deferInsert_moves x.sched l).trans (clearBit_moves _ l .runcompute)) x.io
      (Function.update x.compute j { x.compute j with pc := .handed l }))
    refine Relation.ReflTransGen.single (Turn.computed hmem (hm.congr ?_))
    simp [addDefer, onLt, lower, seatOf, hpc, ComputePc.owned]
  · exact hturn (by simp)
  · exact hturn (by simp)
  · exact hturn ha

/-! The steps -/

theorem call_turns (h : x.Inv k) (hcpu : x.cpu = .run l) {op : Op} (hok : callOk k x l op)
    (hR : ∀ c b, op.toCall l = some c → (b = x.board ∨ ∃ fd, c = .close fd) → R b c)
    (hx : x.call l op = .ok x') : Turns R x.board x'.board := by
  have hone {y : World} (ht : Turn R x.board y.board) (hy : x' = y) : Turns R x.board x'.board :=
    hy ▸ Relation.ReflTransGen.single ht
  unfold World.call at hx
  cases op with
  | create => exact hone lthreadCreate_turn (Except.ok.inj hx).symm
  | sleep msecs => exact hone (lthreadSleep_turn hcpu msecs) (Except.ok.inj hx).symm
  | renice =>
    obtain rfl := Except.ok.inj hx
    exact lthreadRenice_turns hcpu
  | condWait c t =>
    exact hone (condWait_turn hcpu (c := .condWait (.user c) t) rfl
      fun m t' h0 => by simp [Ctx.cond] at h0) (Except.ok.inj hx).symm
  | condSignal c =>
    obtain rfl := Except.ok.inj hx
    exact signals_turns ((Signals.refl _).tail _)
  | condBroadcast c =>
    obtain rfl := Except.ok.inj hx
    exact signals_turns (lthreadCondBroadcast_signals _ _)
  | chan op =>
    have hcall : x.call l (.chan op) = .ok x' := hx
    obtain ⟨-, sys, r, hop, ⟨hr, rfl⟩ | ⟨hr, rfl⟩⟩ := call_chan hcall
    · exact (chan_turns (R := R) h.seated hcpu hop).2 hr
    · exact (chan_turns (R := R) h.seated hcpu hop).1 hr
  | join target ptr timeout => exact hone (lthreadJoin_turn h.seated hcpu (hR _ _ rfl (Or.inl rfl)) hx) rfl
  | exit ptr => exact hone (lthreadExit_turn hcpu (hR _ _ rfl (Or.inl rfl)) hx) rfl
  | finish => exact hone (exec_turn hcpu (hR _ _ rfl (Or.inl rfl))) (Except.ok.inj hx).symm
  | detach => exact hone (detach_turn (hR _ _ rfl (Or.inl rfl))) (Except.ok.inj hx).symm
  | detach2 target =>
    obtain ⟨u, -, hx⟩ := except_bind_ok hx
    exact hone (detach_turn (hR _ _ rfl (Or.inl rfl))) (Except.ok.inj hx).symm
  | cancel target => exact hone (lthreadCancel_turn h.seated (hR _ _ rfl (Or.inl rfl)) hcpu hok.2.1 hok.2.2.2 hx) rfl
  | wakeup target => exact lthreadWakeup_turns hok hx
  | schedEvent fd e timeout => exact hone (lthreadSchedEvent_turn hcpu (hR _ _ rfl (Or.inl rfl)) hok hx) rfl
  | close fd => exact lthreadClose_turns (fun b => hR _ b rfl (Or.inr ⟨fd, rfl⟩)) hx
  | io e => exact hone (lthreadIo_turn hcpu e) (Except.ok.inj hx).symm
  | computeBegin created =>
    obtain rfl := Except.ok.inj hx
    exact lthreadComputeBegin_turns h hcpu created

theorem ioSignal_turns {w : ℕ} (hcpu : x.cpu = .ioAdd l w) : Turns R x.board (x.ioSignal l w).board := by
  have h1 : Turn R x.board (x.onSched (·.modify l ({ · with ops := 0 }))).board :=
    modify_turn fun lt => ⟨⟨fun _ _ => rfl, rfl, rfl, rfl⟩, rfl, rfl, rfl, rfl, id⟩
  have hseat : (x.ioSignal l w).seat = (x.onSched (·.modify l ({ · with ops := 0 }))).seat :=
    seatOf_io fun m => by rw [jobs_signal]
  have heq : (x.ioSignal l w).board =
      { (x.onSched (·.modify l ({ · with ops := 0 }))).board with cpu := .back l } := by
    change (⟨(x.ioSignal l w).seat, _, _, _, _⟩ : Board) = _
    rw [hseat]
    rfl
  rw [heq]
  exact (Relation.ReflTransGen.single h1).tail (Turn.switch (Or.inr ⟨w, hcpu⟩))

theorem computeSchedOf_ok {j : ℕ} (h : x.computeSchedOf l = .ok j) :
    (x.sched.lt l).computeSched = some j ∧ (x.compute j).pc ≠ .exited := by
  unfold computeSchedOf at h
  cases hc : (x.sched.lt l).computeSched with
  | none => rw [hc] at h; cases h
  | some i =>
    simp only [hc] at h
    split_ifs at h with hp
    obtain rfl := Except.ok.inj h
    exact ⟨rfl, hp⟩

theorem signal_owned (y : ComputeSched) : y.signal.pc.owned = y.pc.owned := by
  unfold ComputeSched.signal
  cases hpc : y.pc <;> simp [ComputePc.owned]

theorem computeSignal_turns (h : x.board.Seated k) (hcpu : x.cpu = .computeAdd l)
    (hx : x.computeSignal l = .ok x') : Turns R x.board x'.board := by
  unfold computeSignal at hx
  obtain ⟨j, -, hx⟩ := except_bind_ok hx
  obtain rfl := Except.ok.inj hx
  have hb : ({ x with compute := Function.update x.compute j (x.compute j).signal } : World).board = x.board := by
    change (⟨seatOf x.sched x.io (Function.update x.compute j (x.compute j).signal), _, _, _, _⟩ : Board) = _
    rw [seatOf_compute (y := (x.compute j).signal) rfl (signal_owned _)]
    rfl
  rw [← hb] at h ⊢
  exact resumed_turns h (Or.inl hcpu)

/-- What a step does, as far as the lists of members go. -/
inductive Advances (x : World) : Label → World → Prop
  | clock (usecs : ℕ) : Advances x (.clock usecs) (x.onSched ({ · with usecNow := usecs }))
  | main (hp : x.phase = .setup) : Advances x .main (x.onSched (·.lthreadCreate))
  | run (hp : x.phase = .setup) : Advances x .run { x with phase := .isdone }
  | loop {x' : World} (hcpu : x.cpu = .loop) (hx : x.lthreadRun = .ok x') : Advances x .sched x'
  | ioSignal {l : LtId} {w : ℕ} (hcpu : x.cpu = .ioAdd l w) : Advances x .sched (x.ioSignal l w)
  | leave {l : LtId} (hcpu : x.cpu = .leaving l) : Advances x .sched { x with cpu := .back l }
  | back {l : LtId} {x' : World} (hcpu : x.cpu = .back l) (hx : x.lthreadResumeEnd l = .ok x') :
      Advances x .sched x'
  | computeSignal {l : LtId} {x' : World} (hcpu : x.cpu = .computeAdd l) (hx : x.computeSignal l = .ok x') :
      Advances x .sched x'
  | poll {evs : List PollEvent} (hp : x.phase = .polling) (hr : x.poller.returns x.eventfd evs) :
      Advances x (.poll evs) { x with phase := .events evs.reverse, poller := x.poller.deliver evs }
  | call {l : LtId} {op : Op} {x' : World} (hcpu : x.cpu = .run l) (hx : x.call l op = .ok x') :
      Advances x (.call op) x'
  | io {w : ℕ} {a : WorkerAct} {x' : World} (hx : x.ioAct w a = .ok x') : Advances x (.io w a) x'
  | compute {j : ℕ} {a : ComputeAct} {x' : World} (hx : x.computeAct j a = .ok x') : Advances x (.compute j a) x'

theorem advance_cases {a : Label} (hx : x.advance a = .ok x') : Advances x a x' := by
  unfold World.advance at hx
  cases a with
  | clock usecs =>
    obtain rfl := Except.ok.inj hx
    exact .clock usecs
  | main =>
    simp only at hx
    split_ifs at hx with hp
    obtain rfl := Except.ok.inj hx
    exact .main hp
  | run =>
    simp only at hx
    split_ifs at hx with hp
    obtain rfl := Except.ok.inj hx
    exact .run hp
  | sched =>
    simp only at hx
    cases hcpu : x.cpu with
    | loop => rw [hcpu] at hx; exact .loop hcpu hx
    | run l => rw [hcpu] at hx; cases hx
    | ioAdd l w =>
      rw [hcpu] at hx
      obtain rfl := Except.ok.inj hx
      exact .ioSignal hcpu
    | leaving l =>
      rw [hcpu] at hx
      obtain rfl := Except.ok.inj hx
      exact .leave hcpu
    | back l => rw [hcpu] at hx; exact .back hcpu hx
    | computeAdd l => rw [hcpu] at hx; exact .computeSignal hcpu hx
  | poll evs =>
    simp only at hx
    split_ifs at hx with hp
    obtain rfl := Except.ok.inj hx
    exact .poll hp.1 hp.2
  | call op =>
    simp only at hx
    split at hx
    · next l hcpu => exact .call hcpu hx
    · cases hx
  | io w a => exact .io hx
  | compute j a => exact .compute hx

theorem step_ok {a : Label} : x.step a = .ok x' ↔ x.advance a = .ok x' ∧ x'.sched.ready.Nodup := by
  unfold World.step
  constructor
  · intro h
    obtain ⟨y, hy, h⟩ := except_bind_ok h
    split_ifs at h with hn
    obtain rfl := Except.ok.inj h
    exact ⟨hy, hn⟩
  · rintro ⟨hx, hn⟩
    rw [hx, except_ok_bind, if_pos hn]

theorem step_advance {a : Label} (hx : x.step a = .ok x') : x.advance a = .ok x' := (step_ok.mp hx).1

theorem advance_error {a : Label} {f : Fault} (hf : f ≠ .relinked) (hx : x.step a = .error f) :
    x.advance a = .error f := by
  rcases except_bind_error hx with h0 | ⟨y, -, h0⟩
  · exact h0
  · split_ifs at h0
    exact absurd (Except.error.inj h0).symm hf

theorem step_cases {a : Label} (hx : x.step a = .ok x') : Advances x a x' := advance_cases (step_advance hx)

theorem advance_loop (hcpu : x.cpu = .loop) : x.advance .sched = x.lthreadRun := by
  simp only [World.advance, hcpu]

theorem advance_call (hcpu : x.cpu = .run l) (op : Op) : x.advance (.call op) = x.call l op := by
  simp only [World.advance, hcpu]

theorem step_relinked {op : Op} (hcpu : x.cpu = .run l) (hx : x.call l op = .ok x') (hr : ¬ x'.sched.ready.Nodup) :
    x.step (.call op) = .error .relinked := by
  unfold World.step
  rw [advance_call hcpu, hx]
  exact if_neg hr

theorem step_loop (hcpu : x.cpu = .loop) (hx : x.step .sched = .ok x') : x.lthreadRun = .ok x' :=
  (advance_loop hcpu).symm.trans (step_advance hx)

theorem step_call {op : Op} (hx : x.step (.call op) = .ok x') : ∃ l, x.cpu = .run l ∧ x.call l op = .ok x' := by
  cases step_cases hx with
  | @call l _ _ hcpu hx => exact ⟨l, hcpu, hx⟩

theorem step_poll {evs : List PollEvent} (hx : x.step (.poll evs) = .ok x') :
    x.phase = .polling ∧ x.poller.returns x.eventfd evs ∧
      x' = { x with phase := .events evs.reverse, poller := x.poller.deliver evs } := by
  cases step_cases hx with
  | poll hp hr => exact ⟨hp, hr, rfl⟩

def made (x : World) (a : Label) : Rules := fun b c =>
  (b = x.board ∨ ∃ fd, c = .close fd) ∧ ((∃ l op, a = .call op ∧ x.cpu = .run l ∧ op.toCall l = some c) ∨
    a = .sched ∧ x.cpu = .loop ∧ ∃ l, c = .resume l)

theorem made_board {a : Label} {b : Board} {c : Call} (h : made x a b c) (hc : ∀ fd, c ≠ .close fd) :
    b = x.board := by
  rcases h.1 with hb | ⟨fd, hb⟩
  · exact hb
  · exact absurd hb (hc fd)

theorem made_call {a : Label} {b : Board} {c : Call} (h : made x a b c) (hc : ∀ l, c ≠ .resume l) :
    ∃ l op, a = .call op ∧ x.cpu = .run l ∧ op.toCall l = some c := by
  rcases h.2 with hcall | ⟨-, -, l, hl⟩
  · exact hcall
  · exact absurd hl (hc l)

theorem made_of_cancel {a : Label} {b : Board} (h : made x a b (.cancel l)) :
    b = x.board ∧ a = .call (.cancel l) := by
  refine ⟨made_board h (by simp), ?_⟩
  obtain ⟨m, op, rfl, -, hop⟩ := made_call h (by simp)
  cases op with
  | cancel target =>
    obtain rfl := Call.cancel.inj (Option.some_inj.mp hop)
    rfl
  | _ => cases hop

theorem made_of_join {a : Label} {b : Board} {j : LtId} (h : made x a b (.join j l)) :
    b = x.board ∧ x.cpu = .run j ∧ ∃ ptr t, a = .call (.join l ptr t) := by
  refine ⟨made_board h (by simp), ?_⟩
  obtain ⟨m, op, rfl, hcpu, hop⟩ := made_call h (by simp)
  cases op with
  | join target ptr t =>
    obtain ⟨rfl, rfl⟩ := Call.join.inj (Option.some_inj.mp hop)
    exact ⟨hcpu, ptr, t, rfl⟩
  | _ => cases hop

theorem made_of_wait {a : Label} {b : Board} {fd : Fd} {e : LtEvent} (h : made x a b (.wait l fd e)) :
    x.cpu = .run l ∧ ∃ t, a = .call (.schedEvent fd e t) := by
  obtain ⟨m, op, rfl, hcpu, hop⟩ := made_call h (by simp)
  cases op with
  | schedEvent fd' e' t =>
    obtain ⟨rfl, rfl, rfl⟩ := Call.wait.inj (Option.some_inj.mp hop)
    exact ⟨hcpu, t, rfl⟩
  | _ => cases hop

theorem made_of_close {a : Label} {b : Board} {fd : Fd} (h : made x a b (.close fd)) : a = .call (.close fd) := by
  obtain ⟨m, op, rfl, -, hop⟩ := made_call h (by simp)
  cases op with
  | close fd' =>
    obtain rfl := Call.close.inj (Option.some_inj.mp hop)
    rfl
  | _ => cases hop

theorem made_of_exit {a : Label} {b : Board} (h : made x a b (.exit l)) : x.cpu = .run l ∧ a.ends = true := by
  obtain ⟨m, op, rfl, hcpu, hop⟩ := made_call h (by simp)
  cases op with
  | exit ptr | finish =>
    obtain rfl := Call.exit.inj (Option.some_inj.mp hop)
    exact ⟨hcpu, rfl⟩
  | _ => cases hop

theorem made_resume {a : Label} {b : Board} (h : made x a b (.resume l)) : a = .sched ∧ x.cpu = .loop := by
  rcases h.2 with ⟨m, op, -, -, hop⟩ | ⟨ha, hcpu, -⟩
  · cases op <;> cases hop
  · exact ⟨ha, hcpu⟩

theorem advance_turns (h : x.Inv k) {a : Label} (hok : stepOk k x a) (hx : Advances x a x') :
    Turns (made x a) x.board x'.board := by
  cases hx with
  | clock => exact Relation.ReflTransGen.refl
  | main => exact Relation.ReflTransGen.single lthreadCreate_turn
  | run hp =>
    change Turns _ ⟨_, _, _, x.phase.expiring, _⟩ _
    rw [hp]
    exact Relation.ReflTransGen.refl
  | loop hcpu hx =>
    exact Relation.ReflTransGen.single
      (lthreadRun_turn h.seated hcpu (fun l => ⟨Or.inl rfl, Or.inr ⟨rfl, hcpu, l, rfl⟩⟩) hx)
  | ioSignal hcpu => exact ioSignal_turns hcpu
  | leave hcpu => exact Relation.ReflTransGen.single (Turn.switch (Or.inl hcpu))
  | back hcpu hx => exact lthreadResumeEnd_turns h.seated hcpu hx
  | computeSignal hcpu hx => exact computeSignal_turns h.seated hcpu hx
  | poll hp hr =>
    change Turns _ ⟨_, _, _, x.phase.expiring, _⟩ _
    rw [hp]
    exact Relation.ReflTransGen.refl
  | @call l op _ hcpu hx =>
    exact call_turns h hcpu (hok l hcpu) (fun c b hc hb => ⟨hb, Or.inl ⟨l, op, rfl, hcpu, hc⟩⟩) hx
  | io hx => exact ioAct_turns hx
  | compute hx => exact computeAct_turns hx

theorem step_turns (h : x.Inv k) {a : Label} (hok : stepOk k x a) (hx : x.step a = .ok x') :
    Turns (made x a) x.board x'.board :=
  advance_turns h hok (step_cases hx)

end World
end Lthr
