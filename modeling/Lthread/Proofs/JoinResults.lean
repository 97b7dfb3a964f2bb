import Lthread.Proofs.ExpiryPass
import Lthread.Proofs.JoinCells

/-! The results of `lthread_join` and the lifetimes of the lthreads that are joined. The record of a
run says what the last join of an lthread was called with, and how often an lthread has been freed. -/

namespace Lthr

open Sched

structure JoinLog where
  -- of the last `lthread_join` of an lthread: its `ptr`, the time of the call and the deadline
  ptr : LtId → Option ℕ := fun _ => none
  called : LtId → ℕ := fun _ => 0
  due : LtId → ℕ := fun _ => 0
  frees : LtId → ℕ := fun _ => 0

namespace World

variable {k : Bool} {x x' : World} {a : Label} {j l m : LtId} {t : ℕ} {log : JoinLog}

def Frees (x x' : World) (l : LtId) : Prop := (x.sched.lt l).freed = false ∧ (x'.sched.lt l).freed = true

instance (x x' : World) (l : LtId) : Decidable (Frees x x' l) := inferInstanceAs (Decidable (_ ∧ _))

def noteFrees (x x' : World) (log : JoinLog) : JoinLog :=
  { log with frees := fun l => log.frees l + if Frees x x' l then 1 else 0 }

def noteJoin (x : World) (a : Label) (x' : World) (log : JoinLog) : JoinLog :=
  match a, x.cpu with
  | .call (.join _ ptr t), .run j =>
    { noteFrees x x' log with
      ptr := Function.update log.ptr j ptr
      called := Function.update log.called j x.sched.usecNow
      due := Function.update log.due j (x.sched.sleepDeadline t) }
  | _, _ => noteFrees x x' log

def joinMachine : Machine (World × JoinLog) Label := worldMachine.observe {} noteJoin

theorem noteJoin_frees : (noteJoin x a x' log).frees = (noteFrees x x' log).frees := by
  unfold noteJoin
  split <;> rfl

theorem noteJoin_other (h : ∀ target ptr t, a = .call (.join target ptr t) → x.cpu ≠ .run j) :
    (noteJoin x a x' log).ptr j = log.ptr j ∧ (noteJoin x a x' log).called j = log.called j ∧
      (noteJoin x a x' log).due j = log.due j := by
  unfold noteJoin
  split
  · next target ptr t i hcpu =>
    have hne : j ≠ i := by
      rintro rfl
      exact h target ptr t rfl hcpu
    exact ⟨Function.update_of_ne hne .., Function.update_of_ne hne .., Function.update_of_ne hne ..⟩
  · exact ⟨rfl, rfl, rfl⟩

theorem noteJoin_self {ptr : Option ℕ} (hcpu : x.cpu = .run j) :
    (noteJoin x (.call (.join l ptr t)) x' log).ptr j = ptr ∧
    (noteJoin x (.call (.join l ptr t)) x' log).called j = x.sched.usecNow ∧
    (noteJoin x (.call (.join l ptr t)) x' log).due j = x.sched.sleepDeadline t := by
  simp only [noteJoin, hcpu]
  exact ⟨Function.update_self .., Function.update_self .., Function.update_self ..⟩

/-! The record -/

theorem freed_spawned (h : worldMachine.Reachable (stepOk k) x) (hf : (x.sched.lt l).freed = true) :
    l < x.sched.spawned := by
  refine Machine.Reachable.invariant_of (P := fun y : World => ∀ l, (y.sched.lt l).freed = true → l < y.sched.spawned)
    ?_ ?_ h l hf
  · rintro y ⟨birth, capacity, n, rfl⟩ l hf
    cases hf
  · intro y a y' hy hP hok hs
    have hi : y.Inv k := Inv.reachable hy
    refine (Turns.preserves (P := fun b => (∀ m, b.cpu.on = some m → m < b.spawned) ∧
      ∀ l, (b.seat l).lt.freed = true → l < b.spawned) (made_cancel hok) ?_ (step_turns hi hok hs) hi.seated
      ⟨fun m hm => cpu_spawned hy hm, hP⟩).2
    rintro b b' ht hb - ⟨hon, hP⟩
    refine ⟨ht.on_spawned hb hon, fun l hf' => lt_of_lt_of_le ?_ ht.spawned_le⟩
    rcases ht.freed_cases l with h1 | ⟨-, h1⟩ | ⟨-, -, hfree⟩
    · exact hP l (h1 ▸ hf')
    · rw [hf'] at h1; cases h1
    · cases hfree with
      | join j hr hcpu hx =>
        obtain ⟨rfl, -, ptr, t, rfl⟩ := made_of_join hr
        obtain ⟨i, -, hcall⟩ := step_call hs
        exact (lthreadJoin_cases hcall).1
      | joined j t hr hx hcpu hcpu' => exact (hb.links.joined j l t hx).1
      | ended hcpu hx hd hcpu' => exact hon l (by rw [hcpu]; rfl)
      | dropped hcpu hc hd hcpu' hd' =>
        by_contra hge
        rw [(hb.links.fresh l (not_lt.mp hge)).2] at hc; cases hc

/-- What the record says about the lthreads that are in a join, and about those that have been freed. -/
structure Recorded (x : World) (log : JoinLog) : Prop where
  ptr : ∀ j l t, (x.sched.lt j).ctx = .joining l t → (x.sched.lt j).ltExitPtr = log.ptr j
  due : ∀ j l t, (x.sched.lt j).ctx = .joining l t → j ∈ x.sched.sleeping → (x.sched.lt j).sleepUsecs = log.due j
  frees : ∀ l, log.frees l = if (x.sched.lt l).freed then 1 else 0

theorem Inv.noteJoin_stays (h : x.Inv k) (hctx : (x.sched.lt j).ctx = .joining l t) :
    (noteJoin x a x' log).ptr j = log.ptr j ∧ (noteJoin x a x' log).called j = log.called j ∧
      (noteJoin x a x' log).due j = log.due j := by
  refine noteJoin_other fun _ _ _ _ hcpu => ?_
  rw [show (x.sched.lt j).ctx = .running from (h.seated.running j).mpr hcpu] at hctx; cases hctx

namespace Recorded

theorem step (h : Recorded x log) (hr : worldMachine.Reachable joinsApart x) (hok : x.joinsApart a)
    (hx : x.step a = .ok x') : Recorded x' (noteJoin x a x' log) := by
  have hi : x.Inv false := apart_inv hr
  have hstep : stepOk false x a := undisturbed_stepOk x a hok.1
  have hi' : x'.Inv false := hi.step hstep hx
  refine ⟨fun j l t hctx' => ?_, fun j l t hctx' hsl => ?_, fun l => ?_⟩
  · rcases hi.joining_step hstep hx hctx' with ⟨hctx, hp⟩ | ⟨hcpu, -, ha⟩
    · rw [(hi.noteJoin_stays hctx).1, hp]
      exact h.ptr j l t hctx
    · rw [ha, (noteJoin_self hcpu).1]
  · rcases hi.joining_step hstep hx hctx' with ⟨hctx, -⟩ | ⟨hcpu, -, ha⟩
    · rw [(hi.noteJoin_stays hctx).2.2]
      rcases hi.sleeper_step hi' hx hsl with ⟨h1, h2⟩ | ⟨op, -, hcpu, -⟩
      · rw [h2]
        exact h.due j l t hctx h1
      · rw [show (x.sched.lt j).ctx = .running from (hi.seated.running j).mpr hcpu] at hctx; cases hctx
    · rw [ha] at hx ⊢
      rw [(noteJoin_self hcpu).2.2]
      rcases hi.sleeper_step hi' hx hsl with ⟨h1, -⟩ | ⟨op, hop, -, -, hd⟩
      · exact absurd h1 (hi.not_asleep hcpu)
      · rw [hd, ← Label.call.inj hop]
        rfl
  · rw [noteJoin_frees]
    change log.frees l + _ = _
    rw [h.frees l]
    unfold Frees
    by_cases hf : (x.sched.lt l).freed = true
    · have hl := freed_spawned (k := false) (hr.mono fun y b hy => undisturbed_stepOk y b hy.1) hf
      simp [hf, freed_final (apart_clean hr) (hi.apart_clean hok) hx hl hf]
    · simp [hf]

theorem reachable {p : World × JoinLog} (h : joinMachine.Reachable (fun q a => q.1.joinsApart a) p) :
    Recorded p.1 p.2 := by
  refine Machine.Reachable.invariant_of (P := fun p => Recorded p.1 p.2) ?_ ?_ h
  · rintro ⟨x, log⟩ ⟨⟨birth, capacity, n, hx⟩, hlog⟩
    obtain rfl : log = {} := hlog
    obtain rfl : x = World.start birth capacity n := hx
    exact ⟨nofun, nofun, fun _ => rfl⟩
  · rintro q a q' hr hq hok ⟨hs, hlog⟩
    rw [hlog]
    exact hq.step (Machine.Reachable.of_observe hr) hok hs

end Recorded

/-! The results -/

/-- What holds of a join that has been suspended when it returns. -/
inductive Returns (p : World × JoinLog) (x' : World) (j l : LtId) (t : ℕ) : Prop
  | joined (hret : x'.ret j = 0) (hexit : p.1.sched.has l .exited = true) (hfree : Frees p.1 x' l)
  | timedOut (hret : x'.ret j = -2) (ht : t ≠ 0) {τ : ℕ} (hp : p.1.phase = .expired τ) (hd : p.2.due j ≤ τ)
      (hexit : x'.sched.has l .exited = false) (hf : (x'.sched.lt l).freed = false)
      (hjoin : (x'.sched.lt l).ltJoin = none)

theorem Recorded.returns (h : Recorded x log) (hr : worldMachine.Reachable joinsApart x) (hok : x.joinsApart a)
    (hx : x.step a = .ok x') (hctx : (x.sched.lt j).ctx = .joining l t) (hctx' : (x'.sched.lt j).ctx ≠ .joining l t) :
    x'.cpu = .run j ∧ Returns (x, log) x' j l t := by
  have hi : x.Inv false := apart_inv hr
  have hstep : stepOk false x a := undisturbed_stepOk x a hok.1
  obtain ⟨hcpu, hcpu', hf, hend⟩ := hi.join_returns hstep hx hctx hctx'
  refine ⟨hcpu', ?_⟩
  cases hend with
  | @expired τ hp hd hj hret hjoin hf' =>
    have hrow := hi.plain_row j
    rw [hctx] at hrow
    have hsl : (x.seat j).cnt.sleeping ≠ 0 := count_ne_zero hj
    obtain hn | hn := hrow.of_joining
    · have ht : t ≠ 0 := by
        rintro rfl
        rw [show (x.seat j).cnt = _ from hn] at hsl
        exact hsl rfl
      have hready : j ∉ x.sched.ready := fun h0 => count_ne_zero h0 (congrArg Counts.ready hn)
      have hne : (x.sched.lt l).ctx ≠ .exited := fun h0 => by
        rw [(pending_joiner hr hctx hready).2 h0] at hcpu; cases hcpu
      have hexit : x'.sched.has l .exited = false := by
        refine Bool.eq_false_iff.mpr fun h0 => ?_
        obtain ⟨hrun, -⟩ := hi.exits_step hstep hx hne (((hi.step hstep hx).ok l).exited.mp h0)
        rw [hcpu] at hrun; cases hrun
      rw [h.due j l t hctx hj] at hd
      exact .timedOut hret ht hp hd hexit hf' hjoin
    · rw [show (x.seat j).cnt = _ from hn] at hsl
      exact absurd rfl hsl
  | joined hj hret hf' => exact .joined hret ((hi.ok l).exited.mpr (ready_joiner hr hctx hj)) ⟨hf, hf'⟩

/-! Timeouts -/

def joinsTimely (x : World) (a : Label) : Prop := x.joinsApart a ∧ x.timely a

instance (x : World) (a : Label) : Decidable (x.joinsTimely a) := inferInstanceAs (Decidable (_ ∧ _))

/-- The pass over the sleepers has read the clock before, and the deadline of a join is not before its
timeout. -/
structure Asked (x : World) (log : JoinLog) : Prop where
  passed : ∀ τ, x.phase = .expired τ → τ ≤ x.sched.usecNow - x.sched.birth
  called : ∀ j l t, (x.sched.lt j).ctx = .joining l t → x.sched.birth ≤ log.called j
  due : ∀ j l t, (x.sched.lt j).ctx = .joining l t → t ≠ 0 → log.called j - x.sched.birth + t * 1000 ≤ log.due j

namespace Asked

theorem step (h : Asked x log) (hi : x.Inv false) (htime : x.Timed) (hok : x.joinsTimely a) (hx : x.step a = .ok x') :
    Asked x' (noteJoin x a x' log) := by
  have hstep : stepOk false x a := undisturbed_stepOk x a hok.1.1
  have hi' : x'.Inv false := hi.step hstep hx
  have hb : x'.sched.birth = x.sched.birth := (hi.step_clock hi' hx).1
  refine ⟨fun τ hp' => ?_, fun j l t hctx' => ?_, fun j l t hctx' ht => ?_⟩
  · by_cases hp : x'.phase = x.phase
    · exact (h.passed τ (hp.symm.trans hp')).trans (timely_now hi hi' hok.2 hx)
    · obtain ⟨-, -, ⟨-, rfl⟩ | ⟨-, -, -, rfl⟩⟩ := pass_begins hp (by rw [hp']; rfl) hx
      · obtain rfl := Phase.expired.inj hp'
        exact (lthreadDiffUsecs_eq htime.birth htime.range).le
      · cases hp'
  · rcases hi.joining_step hstep hx hctx' with ⟨hctx, -⟩ | ⟨hcpu, -, ha⟩
    · rw [(hi.noteJoin_stays hctx).2.1, hb]
      exact h.called j l t hctx
    · rw [ha, (noteJoin_self hcpu).2.1, hb]
      exact htime.birth
  · rcases hi.joining_step hstep hx hctx' with ⟨hctx, -⟩ | ⟨hcpu, -, ha⟩
    · rw [(hi.noteJoin_stays hctx).2.1, (hi.noteJoin_stays hctx).2.2, hb]
      exact h.due j l t hctx ht
    · have hlimit := hok.2
      rw [ha] at hlimit
      rw [ha, (noteJoin_self hcpu).2.1, (noteJoin_self hcpu).2.2, hb]
      exact (htime.deadline ht (hlimit ht)).1

theorem reachable {p : World × JoinLog} (h : joinMachine.Reachable (fun q a => q.1.joinsTimely a) p) :
    Asked p.1 p.2 := by
  refine Machine.Reachable.invariant_of (P := fun p => Asked p.1 p.2) ?_ ?_ h
  · rintro ⟨x, log⟩ ⟨⟨birth, capacity, n, hx⟩, -⟩
    obtain rfl : x = World.start birth capacity n := hx
    exact ⟨nofun, nofun, nofun⟩
  · rintro q a q' hr hq hok ⟨hs, hlog⟩
    have hreach : worldMachine.Reachable joinsTimely q.1 := Machine.Reachable.of_observe hr
    rw [hlog]
    refine hq.step (apart_inv (hreach.mono fun _ _ h0 => h0.1)) ?_ hok hs
    exact Timed.reachable (k := false) (fun y b h0 => ⟨undisturbed_stepOk y b h0.1.1, h0.2⟩) hreach

end Asked

/-- In runs without `lthread_cancel` and `lthread_wakeup` in which an lthread is joined by one lthread at a
time or detached, and in which a wait for a descriptor yields. A join returns -1 at once if its
target has exited. One that has been suspended returns 0 when the target has exited, with the value in
its cell if no other join was given that cell, or -2 after its deadline, which is not before the
timeout if no deadline overflows; the target has not exited then and has forgotten the joiner. An
lthread is freed at most once, as a member of no queue, and by a join if that returns 0 or -1. -/
theorem join_results {p : World × JoinLog} (h : joinMachine.Reachable (fun q a => q.1.joinsApart a) p) :
    (∀ j l ptr t x', p.1.cpu = .run j → p.1.step (.call (.join l ptr t)) = .ok x' →
      p.1.sched.has l .exited = true ∧ x'.cpu = .run j ∧ x'.ret j = -1 ∧ Frees p.1 x' l ∨
      p.1.sched.has l .exited = false ∧ (x'.sched.lt j).ctx = .joining l t) ∧
    (∀ a x' j l t, p.1.joinsApart a → p.1.step a = .ok x' → (p.1.sched.lt j).ctx = .joining l t →
      (x'.sched.lt j).ctx ≠ .joining l t →
      x'.cpu = .run j ∧ Returns p x' j l t ∧
      (joinMachine.Reachable (fun q a => q.1.joinsCells a) p → x'.ret j = 0 → ∀ c, p.2.ptr j = some c →
        p.1.exitValue l ≠ 0 → x'.mem c = p.1.exitValue l) ∧
      (joinMachine.Reachable (fun q a => q.1.joinsTimely a) p → x'.ret j = -2 →
        p.2.called j + t * 1000 ≤ p.1.sched.usecNow)) ∧
    (∀ l, p.2.frees l = if (p.1.sched.lt l).freed then 1 else 0) ∧
    (∀ a x' l, p.1.joinsApart a → p.1.step a = .ok x' → Frees p.1 x' l →
      p.1.sched.has l .exited = true ∧ p.1.Unqueued l ∧ x'.Unqueued l) ∧
    ∀ a m, p.1.step a = .error (.freed m) → (∃ op, a = .call op ∧ op.argument = some m) ∨ p.1.Handed m := by
  have hr : worldMachine.Reachable joinsApart p.1 := Machine.Reachable.of_observe h
  have hi : p.1.Inv false := apart_inv hr
  have hR := Recorded.reachable h
  refine ⟨fun j l ptr t x' hcpu hx => ?_, fun a x' j l t hok hx hctx hctx' => ?_, hR.frees,
    fun a x' l hok hx hfree => ?_, fun a m hx => ?_⟩
  · obtain ⟨i, hi, hcall⟩ := step_call hx
    obtain rfl := Cpu.run.inj (hcpu.symm.trans hi)
    obtain ⟨hf, ⟨hexit, hret, hcpu', hf', -⟩ | ⟨hexit, -, hctx, -⟩⟩ := lthreadJoin_ends hcall
    · exact Or.inl ⟨hexit, hcpu'.trans hcpu, hret, hf, hf'⟩
    · exact Or.inr ⟨hexit, hctx⟩
  · obtain ⟨hcpu', hret⟩ := hR.returns hr hok hx hctx hctx'
    refine ⟨hcpu', hret, fun hcells h0 c hc hv => ?_, fun htime h2 => ?_⟩
    · obtain ⟨hcpu, -⟩ := hi.join_returns (undisturbed_stepOk p.1 a hok.1) hx hctx hctx'
      have hmem : x'.mem = p.1.mem := by
        rcases step_values hx with ⟨hmem, -⟩ | ⟨m, value, hrun, -⟩
        · exact hmem
        · rw [hcpu] at hrun; cases hrun
      cases hret with
      | joined hret hexit hfree =>
        rw [hmem]
        exact (Cells.reachable (Machine.Reachable.of_observe hcells)).value j l t c hctx
          ((hR.ptr j l t hctx).trans hc) ((hi.ok l).exited.mp hexit) hv
      | timedOut hret => rw [h0] at hret; cases hret
    · have hA := Asked.reachable htime
      cases hret with
      | joined hret => rw [h2] at hret; cases hret
      | @timedOut hret ht τ hp hd =>
        have hd : p.2.due j ≤ τ := hd
        have h1 := hA.passed τ hp
        have h3 := hA.called j l t hctx
        have h4 := hA.due j l t hctx ht
        omega
  · have hstep : stepOk false p.1 a := undisturbed_stepOk p.1 a hok.1
    obtain ⟨hctx, hctx'⟩ := hi.frees_exited hstep hx hfree.1 hfree.2
    exact ⟨(hi.ok l).exited.mpr hctx, hi.exited_unqueued hctx, (hi.step hstep hx).exited_unqueued hctx'⟩
  · exact (freed_fault (apart_clean hr) hx).imp_right And.right

set_option maxRecDepth 20000 in
/-- Lthread 0 joins lthread 1. In one run lthread 1 exits with a value and the join returns 0, in the
other it sleeps and the join times out. -/
theorem join_results_twice :
    (∃ p x', joinMachine.Reachable (fun q a => q.1.joinsCells a) p ∧ p.1.step .sched = .ok x' ∧
      (p.1.sched.lt 0).ctx = .joining 1 0 ∧ p.2.frees 1 = 0 ∧ x'.cpu = .run 0 ∧ x'.ret 0 = 0 ∧ x'.mem 3 = 7 ∧
        Frees p.1 x' 1 ∧ p.1.Unqueued 1) ∧
    ∃ p x', joinMachine.Reachable (fun q a => q.1.joinsTimely a) p ∧ p.1.step .sched = .ok x' ∧
      (p.1.sched.lt 0).ctx = .joining 1 10 ∧ x'.cpu = .run 0 ∧ x'.ret 0 = -2 ∧
        p.2.called 0 + 10 * 1000 ≤ p.1.sched.usecNow := by
  constructor
  · obtain ⟨p, x', hp, hx, hsee⟩ := exists_noted_step joinsCells
      [.main, .main, .run, .sched, .sched, .sched, .call (.join 1 (some 3) 0), .sched, .sched, .call (.exit 7), .sched,
        .sched, .sched, .sched, .sched]
      {} noteJoin .sched
      (fun p x' => decide ((p.1.sched.lt 0).ctx = .joining 1 0 ∧ p.2.ptr 0 = some 3 ∧ p.1.exitValue 1 = 7 ∧
        x'.ret 0 = 0 ∧ (x'.sched.lt 0).ctx ≠ .joining 1 0 ∧ Frees p.1 x' 1)) (t := true) (by decide)
    obtain ⟨hctx, hptr, hv, hret, hctx', hfree⟩ := of_decide_eq_true hsee
    have hok : p.1.joinsApart .sched := ⟨trivial, nofun, nofun⟩
    obtain ⟨-, hreturns, hfrees, hqueues, -⟩ := join_results (hp.mono fun _ _ h0 => h0.1)
    obtain ⟨hcpu', -, hmem, -⟩ := hreturns .sched x' 0 1 0 hok hx hctx hctx'
    have hnone : p.2.frees 1 = 0 := by rw [hfrees, hfree.1]; rfl
    have hcell : x'.mem 3 = 7 := (hmem hp hret 3 hptr (by rw [hv]; decide)).trans hv
    exact ⟨p, x', hp, hx, hctx, hnone, hcpu', hret, hcell, hfree, (hqueues .sched x' 1 hok hx hfree).2.1⟩
  · obtain ⟨p, x', hp, hx, hsee⟩ := exists_noted_step joinsTimely
      [.main, .main, .run, .sched, .sched, .sched, .call (.join 1 none 10), .sched, .sched, .call (.sleep 100), .sched,
        .sched, .sched, .clock 20000, .poll [], .sched, .sched]
      {} noteJoin .sched
      (fun p x' => decide ((p.1.sched.lt 0).ctx = .joining 1 10 ∧ x'.ret 0 = -2 ∧
        (x'.sched.lt 0).ctx ≠ .joining 1 10)) (t := true) (by decide)
    obtain ⟨hctx, hret, hctx'⟩ := of_decide_eq_true hsee
    have hok : p.1.joinsApart .sched := ⟨trivial, nofun, nofun⟩
    obtain ⟨-, hreturns, -⟩ := join_results (hp.mono fun _ _ h0 => h0.1)
    obtain ⟨hcpu', -, -, htime⟩ := hreturns .sched x' 0 1 10 hok hx hctx hctx'
    exact ⟨p, x', hp, hx, hctx, hcpu', hret, htime hp hret⟩

set_option maxRecDepth 20000 in
/-- Lthreads 0 and 1 join lthreads 2 and 3 and give the same cell: the first join returns 0 with the value
of lthread 3 in it. A join with the largest timeout has a deadline that has passed already. And
an lthread that has waited for a descriptor with timeout -1 exits as a member of the waiting tree,
and the join frees it there. -/
theorem join_results_break :
    (∃ x x', worldMachine.Reachable (fun y a => a.disturbs = false ∧ y.joinsAlone a) x ∧ x.step .sched = .ok x' ∧
      (x.sched.lt 0).ctx = .joining 2 0 ∧ (x.sched.lt 0).ltExitPtr = some 9 ∧ x'.cpu = .run 0 ∧ x'.ret 0 = 0 ∧
        x.exitValue 2 = 7 ∧ x'.mem 9 = 8) ∧
    (∃ x x', worldMachine.Reachable (fun y a => a.disturbs = false ∧ y.joinsAlone a) x ∧ x.step .sched = .ok x' ∧
      (x.sched.lt 0).ctx = .joining 1 (u64 - 1) ∧ x'.cpu = .run 0 ∧ x'.ret 0 = -2 ∧ x'.sched.birth = 0 ∧
        x'.sched.usecNow = 2000) ∧
    ∃ x x', worldMachine.Reachable (fun y a => a.disturbs = false ∧ y.joinsAlone a) x ∧ x.step .sched = .ok x' ∧
      Frees x x' 1 ∧ 1 ∈ x.sched.waiting ∧ 1 ∈ x'.sched.waiting := by
  refine ⟨?_, ?_, ?_⟩
  · obtain ⟨x, x', hx, hs, hsee⟩ := exists_step_after (fun y a => a.disturbs = false ∧ y.joinsAlone a)
      [.main, .main, .main, .main, .run, .sched, .sched, .sched, .call (.join 2 (some 9) 0), .sched, .sched,
        .call (.join 3 (some 9) 0), .sched, .sched, .call (.exit 7), .sched, .sched, .call (.exit 8), .sched, .sched,
        .sched, .sched, .sched] .sched
      (fun x x' => decide ((x.sched.lt 0).ctx = .joining 2 0 ∧ (x.sched.lt 0).ltExitPtr = some 9 ∧ x'.cpu = .run 0 ∧
        x'.ret 0 = 0 ∧ x.exitValue 2 = 7 ∧ x'.mem 9 = 8)) (t := true) (by decide)
    exact ⟨x, x', hx, hs, of_decide_eq_true hsee⟩
  · obtain ⟨x, x', hx, hs, hsee⟩ := exists_step_after (fun y a => a.disturbs = false ∧ y.joinsAlone a)
      [.main, .main, .run, .clock 2000, .sched, .sched, .sched, .call (.join 1 none (u64 - 1)), .sched, .sched,
        .call (.sleep 100), .sched, .sched, .sched, .sched] .sched
      (fun x x' => decide ((x.sched.lt 0).ctx = .joining 1 (u64 - 1) ∧ x'.cpu = .run 0 ∧ x'.ret 0 = -2 ∧
        x'.sched.birth = 0 ∧ x'.sched.usecNow = 2000)) (t := true) (by decide)
    exact ⟨x, x', hx, hs, of_decide_eq_true hsee⟩
  · obtain ⟨x, x', hx, hs, hsee⟩ := exists_step_after (fun y a => a.disturbs = false ∧ y.joinsAlone a)
      [.main, .main, .run, .sched, .sched, .sched, .call (.join 1 none 0), .sched, .sched,
        .call (.schedEvent 5 .read (u64 - 1)), .call .finish, .sched, .sched, .sched, .sched, .sched] .sched
      (fun x x' => decide (Frees x x' 1 ∧ 1 ∈ x.sched.waiting ∧ 1 ∈ x'.sched.waiting)) (t := true) (by decide)
    exact ⟨x, x', hx, hs, of_decide_eq_true hsee⟩

end World
end Lthr
