import Lthread.Proofs.Queues
import Lthread.Proofs.Sections

/-! The passes of `lthread_run` over the sleeping tree and over the ready queue: who runs
during a pass, when it begins, and when `_lthread_resume` comes to its switch. -/

namespace Lthr

theorem Cpu.on_eq_none {c : Cpu} (h : c.on = none) : c = .loop := by
  cases c with
  | loop => rfl
  | _ => cases h

/-- Where the loop goes on once `_lthread_resume` of `l` has returned. -/
def Phase.after (l : LtId) : Phase → Phase
  | .ready last => if last = some l then .defer else .ready last
  | p => p

def Phase.passes : Phase → Bool
  | .expired _ | .ready _ => true
  | _ => false

namespace World

open Sched Seat

variable {k : Bool} {x x' : World} {l m : LtId} {a : Label}

/-- `_lthread_resume` of `l` reads an lthread that has been freed: `l` or its joiner if `l`
has been cancelled, else the one that `l` has joined. -/
def ReadsFreed (x : World) (l : LtId) : Prop :=
  if x.sched.has l .cancelled then
    (x.sched.lt l).freed = true ∨ ∃ j, (x.sched.lt l).ltJoin = some j ∧ (x.sched.lt j).freed = true
  else ∃ target t, (x.sched.lt l).ctx = .joining target t ∧ (x.sched.lt target).freed = true

/-- `_lthread_resume` of the cancelled `l`, the first of the ready queue, puts its joiner on the
queue, and that is there already. -/
def WakesReady (x : World) (l : LtId) : Prop :=
  x.sched.has l .cancelled = true ∧ ∃ j ∈ x.sched.ready.tail, (x.sched.lt l).ltJoin = some j

theorem lthreadJoinEnd_ok {target : LtId} {t : ℕ} (hf : (x.sched.lt target).freed = false) :
    ∃ x', x.lthreadJoinEnd l target t = .ok x' := by
  have hfreed : ((x.onSched (·.lthreadSchedBusySleepEnd l t)).sched.lt target).freed = false := by
    rw [onSched_sched, (lthreadSchedBusySleepEnd_keeps _ l t).freed]
    exact hf
  have hnot : ¬ ((x.onSched (·.lthreadSchedBusySleepEnd l t)).sched.lt target).freed = true :=
    Bool.eq_false_iff.mp hfreed
  by_cases hexp : (x.onSched (·.lthreadSchedBusySleepEnd l t)).sched.has l .expired = true
  · exact ⟨_, (if_neg hnot).trans (if_pos hexp)⟩
  · exact ⟨_, (if_neg hnot).trans (if_neg hexp)⟩

/-- `_lthread_resume` switches to an lthread that is suspended, and the rest of its call
goes well unless it is a join on an lthread that has been freed. -/
theorem lthreadResume_ok (hf : (x.sched.lt l).freed = false) (hc : x.sched.has l .cancelled = false)
    (hr : (x.sched.lt l).ctx ≠ .running) (he : (x.sched.lt l).ctx ≠ .exited) (hw : l ∉ x.sched.waiting) :
    (∃ x', x.lthreadResume l = .ok x' ∧ x'.cpu = .run l) ∨
      ∃ target t, (x.sched.lt l).ctx = .joining target t ∧ (x.sched.lt target).freed = true := by
  have hinit : ((x.initNew l).sched.lt l).ctx = (x.sched.lt l).ctx ∧ (x.initNew l).sched.waiting = x.sched.waiting ∧
      ∀ m, ((x.initNew l).sched.lt m).freed = (x.sched.lt m).freed := by
    unfold initNew
    split_ifs
    · simp only [lthreadInit, onSched_sched, modify_lt, modify_waiting, if_true, true_and]
      intro m
      split_ifs with hm
      · rw [hm]
      · rfl
    · exact ⟨rfl, rfl, fun _ => rfl⟩
  have hrun {y : World} (hy : (x.initNew l).afterYield l = .ok y) : ∃ x', x.lthreadResume l = .ok x' ∧ x'.cpu = .run l := by
    refine ⟨{ y.onSched (·.setCtx l .running) with cpu := .run l }, ?_, rfl⟩
    unfold lthreadResume
    rw [if_neg (by simp [hf]), if_neg (by simp [hc])]
    change ((x.initNew l).afterYield l >>= fun x => _) = _
    rw [hy]
    rfl
  -- only a join can fail, and an lthread whose key would change under the tree
  have hyield : (∃ y, (x.initNew l).afterYield l = .ok y) ∨
      ∃ target t, (x.sched.lt l).ctx = .joining target t ∧ (x.sched.lt target).freed = true := by
    unfold afterYield
    rw [hinit.1]
    cases hx : (x.sched.lt l).ctx with
    | running => exact absurd hx hr
    | exited => exact absurd hx he
    | joining target t =>
      by_cases htf : (x.sched.lt target).freed = true
      · exact Or.inr ⟨target, t, rfl, htf⟩
      · refine Or.inl ?_
        refine lthreadJoinEnd_ok ?_
        rw [hinit.2.2]
        exact Bool.eq_false_iff.mpr htf
    | schedEvent fd e t =>
      refine Or.inl ?_
      simp only
      rw [if_neg (by rw [hinit.2.1]; exact hw)]
      exact ⟨_, rfl⟩
    | _ => exact Or.inl ⟨_, rfl⟩
  rcases hyield with ⟨y, hy⟩ | hjoin
  · exact Or.inl (hrun hy)
  · exact Or.inr hjoin

theorem dropCancelled_ok (hj : ∀ j, (x.sched.lt l).ltJoin = some j → (x.sched.lt j).freed = false) :
    ∃ x', x.dropCancelled l = .ok x' ∧ x'.dropped l = true := by
  obtain ⟨y, hy⟩ : ∃ y, x.wakeJoiner l = .ok y := by
    unfold wakeJoiner
    cases hl : (x.sched.lt l).ltJoin with
    | none => exact ⟨x, rfl⟩
    | some j => exact ⟨_, if_neg (Bool.eq_false_iff.mp (hj j hl))⟩
  unfold dropCancelled
  rw [hy]
  exact ⟨_, rfl, Function.update_self l true y.dropped⟩

theorem lthreadResume_reads (hx : x.lthreadResume l = .ok x') : ¬ x.ReadsFreed l := by
  obtain ⟨hf, ⟨hc, hx⟩ | ⟨hc, y, hy, -⟩⟩ := lthreadResume_cases hx
  · obtain ⟨y, hy, -⟩ := except_bind_ok hx
    unfold ReadsFreed
    rw [if_pos hc]
    rintro (h0 | ⟨j, hj, h0⟩)
    · rw [hf] at h0; cases h0
    · unfold wakeJoiner at hy
      simp only [hj, if_pos h0] at hy
      cases hy
  · unfold ReadsFreed
    rw [if_neg (by simp [hc])]
    rintro ⟨target, t, hctx, h0⟩
    have hinit : ((x.initNew l).sched.lt l).ctx = (x.sched.lt l).ctx ∧
        ((x.initNew l).sched.lt target).freed = (x.sched.lt target).freed := by
      unfold initNew
      split_ifs
      · simp only [lthreadInit, onSched_sched, modify_lt, if_true, true_and]
        split_ifs with hm
        · rw [hm]
        · rfl
      · exact ⟨rfl, rfl⟩
    unfold afterYield at hy
    rw [hinit.1, hctx] at hy
    obtain ⟨h1, -⟩ := lthreadJoinEnd_cases hy
    rw [hinit.2, h0] at h1
    cases h1

/-! Who runs -/

theorem call_on (hcpu : x.cpu = .run l) {op : Op} (hx : x.call l op = .ok x') : x'.cpu.on = some l := by
  have hon : x.cpu.on = some l := by rw [hcpu]; rfl
  cases call_edits hx with
  | create => exact hon
  | sleeps => rfl
  | writes h =>
    refine h.keeps (P := fun x y => x.cpu.on = some l → y.cpu.on = some l) (fun _ => id)
      (fun h1 h2 => h2 ∘ h1) (fun h => ?_) hon
    cases h with
    | switch c hc => exact fun _ => hc
    | _ => exact id

theorem resumed_after (r : ℤ) : (x.resumed l r).phase = x.phase.after l := by
  unfold resumed
  split
  · next hp => split_ifs <;> exact hp ▸ rfl
  · next hp => rw [hp]; rfl
  · next h1 h2 =>
    change x.phase = _
    cases hp : x.phase with
    | ready last => exact absurd hp (h2 last)
    | _ => rfl

theorem lthreadResume_after (hx : x.lthreadResume l = .ok x') :
    x'.cpu = .run l ∧ x'.phase = x.phase ∨ x'.cpu = .loop ∧ x'.phase = x.phase.after l := by
  have hrest := (lthreadResume_rest hx).2
  obtain ⟨-, ⟨-, hx⟩ | ⟨-, y, hy, rfl⟩⟩ := lthreadResume_cases hx
  · unfold dropCancelled at hx
    obtain ⟨y, hy, hx⟩ := except_bind_ok hx
    obtain rfl := Except.ok.inj hx
    refine Or.inr ⟨resumed_cpu _ _ _, (resumed_after (x := (y.freeDetached l).unbusy l) (-1)).trans ?_⟩
    rw [(unbusy_rest _ l).2, (freeDetached_rest y l).2, (wakeJoiner_rest hy).2]
  · rcases hrest with ⟨hcpu, hp'⟩ | ⟨hcpu, -⟩
    · exact Or.inl ⟨hcpu, hp'⟩
    · cases hcpu

theorem step_running (hs : x.phase ≠ .setup) (hp : x.phase ≠ .polling) (hon : x.cpu.on = some l)
    (hx : x.step a = .ok x') : x'.cpu.on = some l ∧ x'.phase = x.phase ∨
      x'.cpu = .loop ∧ x'.phase = x.phase.after l := by
  have hphase (hs : a ≠ .sched) (hr : a ≠ .run) (hpoll : ∀ evs, a ≠ .poll evs) : x'.phase = x.phase := by
    rcases step_phase hx with h0 | ⟨⟨h0, -⟩, -⟩ | h0 | ⟨evs, h0⟩ | ⟨h0, -⟩
    · exact h0
    · exact absurd h0 hs
    · exact absurd h0 hr
    · exact absurd h0 (hpoll evs)
    · exact absurd h0 hs
  cases step_cases hx with
  | clock => exact Or.inl ⟨hon, rfl⟩
  | main h | run h => exact absurd h hs
  | poll h => exact absurd h hp
  | loop hcpu => rw [hcpu] at hon; cases hon
  | ioSignal hcpu | leave hcpu =>
    rw [hcpu] at hon
    exact Or.inl ⟨hon, rfl⟩
  | @back m _ hcpu hx =>
    rw [hcpu] at hon
    obtain rfl := Option.some_inj.mp hon
    unfold lthreadResumeEnd at hx
    split_ifs at hx
    · obtain ⟨y, hy, hx⟩ := except_bind_ok hx
      obtain rfl := Except.ok.inj hx
      refine Or.inr ⟨resumed_cpu _ _ _, (resumed_after (-1)).trans ?_⟩
      rw [(freeDetached_rest y m).2, (wakeJoiner_rest hy).2]
    · obtain ⟨j, -, hx⟩ := except_bind_ok hx
      obtain rfl := Except.ok.inj hx
      exact Or.inl ⟨rfl, rfl⟩
    · obtain rfl := Except.ok.inj hx
      exact Or.inr ⟨resumed_cpu _ _ _, resumed_after 0⟩
  | @computeSignal m _ hcpu hx =>
    rw [hcpu] at hon
    obtain rfl := Option.some_inj.mp hon
    obtain ⟨j, -, hx⟩ := except_bind_ok hx
    obtain rfl := Except.ok.inj hx
    exact Or.inr ⟨resumed_cpu _ _ _,
      resumed_after (x := { x with compute := Function.update x.compute j (x.compute j).signal }) 0⟩
  | call hcpu hcall =>
    rw [hcpu] at hon
    obtain rfl := Option.some_inj.mp hon
    exact Or.inl ⟨call_on hcpu hcall, hphase (by simp) (by simp) (by simp)⟩
  | @io w b _ =>
    exact Or.inl ⟨(congrArg Cpu.on (worker_cpu hx (Or.inl ⟨w, b, rfl⟩))).trans hon,
      hphase (by simp) (by simp) (by simp)⟩
  | @compute j b _ =>
    exact Or.inl ⟨(congrArg Cpu.on (worker_cpu hx (Or.inr ⟨j, b, rfl⟩))).trans hon,
      hphase (by simp) (by simp) (by simp)⟩

/-- The scheduler's thread is in its loop: nobody else touches the ready queue or the
sleeping tree. -/
theorem loop_waits (hs : x.phase ≠ .setup) (hp : x.phase ≠ .polling) (hcpu : x.cpu = .loop) (ha : a ≠ .sched)
    (hx : x.step a = .ok x') : x'.cpu = .loop ∧ x'.phase = x.phase ∧ x'.sched.ready = x.sched.ready ∧
      x'.sched.sleeping = x.sched.sleeping ∧ ∀ m, (x'.sched.lt m).sleepUsecs = (x.sched.lt m).sleepUsecs := by
  cases step_cases hx with
  | clock => exact ⟨hcpu, rfl, rfl, rfl, fun _ => rfl⟩
  | main h | run h => exact absurd h hs
  | poll h => exact absurd h hp
  | loop | ioSignal | leave | back | computeSignal => exact absurd rfl ha
  | call h => exact absurd (hcpu.symm.trans h) nofun
  | io hx =>
    obtain ⟨-, y, -, hcases⟩ := ioAct_cases hx
    rcases hcases with ⟨m, -, -, -, -, -, rfl⟩ | ⟨m, -, -, -, -, rfl⟩ | ⟨-, -, rfl⟩ <;>
      exact ⟨hcpu, rfl, rfl, rfl, fun _ => rfl⟩
  | compute hx =>
    obtain ⟨-, y, -, hcases⟩ := computeAct_cases hx
    rcases hcases with ⟨m, -, -, -, -, -, rfl⟩ | ⟨m, -, -, -, -, rfl⟩ | ⟨-, -, rfl⟩ | ⟨-, -, -, rfl⟩
    · refine ⟨hcpu, rfl, rfl, rfl, fun i => ?_⟩
      rw [onSched_sched, Sched.clearBit, modify_lt]
      split_ifs with hi
      · rw [hi]
        rfl
      · rfl
    all_goals exact ⟨hcpu, rfl, rfl, rfl, fun _ => rfl⟩

/-- The pass over the ready queue begins where the expiry pass ends, and that with a round
of the loop. -/
theorem pass_begins (hne : x'.phase ≠ x.phase) (hp' : x'.phase.passes = true) (hx : x.step a = .ok x') :
    a = .sched ∧ x.cpu = .loop ∧ (x.phase = .isdone ∧
        x' = { x with phase := .expired (lthreadDiffUsecs x.sched.birth x.sched.usecNow) } ∨
      ∃ t, x.phase = .expired t ∧ (∀ m, x.sched.sleepMin = some m → t < (x.sched.lt m).sleepUsecs) ∧
        x' = { x with phase := .ready x.sched.ready.getLast? }) := by
  rcases step_phase hx with h0 | ⟨-, h0⟩ | rfl | ⟨evs, rfl⟩ | ⟨rfl, hcpu, hrun⟩
  · exact absurd h0 hne
  · rw [h0] at hp'
    cases hp'
  · cases step_cases hx with
    | run => cases hp'
  · obtain ⟨-, -, rfl⟩ := step_poll hx
    cases hp'
  · refine ⟨rfl, hcpu, ?_⟩
    -- a resume does not begin a pass
    have hstays {y : World} {m : LtId} (hy : y.lthreadResume m = .ok x') (hph : y.phase = x.phase) : False := by
      rcases (lthreadResume_rest hy).2 with ⟨-, h0⟩ | ⟨-, h0 | ⟨-, h0⟩⟩
      · exact hne (h0.trans hph)
      · exact hne (h0.trans hph)
      · rw [h0] at hp'
        cases hp'
    cases lthreadRun_round hrun with
    | start hp0 => exact Or.inl ⟨hp0, rfl⟩
    | expired hp0 hm => exact Or.inr ⟨_, hp0, hm, rfl⟩
    | expire hp0 hm hd hx =>
      rcases (resumeExpired_rest hx).2 with h0 | ⟨-, h0⟩
      · exact absurd h0 hne
      · rw [h0] at hp'
        cases hp'
    | pop hp0 hr hx => exact (hstays hx rfl).elim
    | deferPop hp0 hr hx => exact (hstays hx rfl).elim
    | read hp0 hx =>
      obtain ⟨-, b, hb⟩ := handleEv_rest (fun b ph hph last => by rw [← Except.ok.inj hph]; simp) hx
      rw [← Except.ok.inj hb] at hp'
      cases hp'
    | write hp0 hx =>
      obtain ⟨-, b, hb⟩ := handleEv_rest (fun b ph hph last => by
        split_ifs at hph
        rw [← Except.ok.inj hph]; simp) hx
      split_ifs at hb
      rw [← Except.ok.inj hb] at hp'
      cases hp'
    | _ => cases hp'

end World
end Lthr
